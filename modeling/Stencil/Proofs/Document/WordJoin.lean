import Stencil.Proofs.Document.WordCut

/-!
# Words of joined texts

Where a text can be cut into words, nothing is open at its end. So white space behind it ends its
last word, and what follows is cut as it would be on its own (`Splits.append_blank`), with every
offset moved by what stands in front (`splitFrom_shift`). Both go through the cutter character by
character.
-/
namespace Stencil.TagWords

/-- The word `n` bytes further on. -/
def Word.shift (n : Nat) (w : Word) : Word := ⟨w.offset + n, w.text⟩

/-- The fault of a text that stands `n` bytes further on. -/
def Fault.shift (n : Nat) : Fault → Fault
  | .unopenedParen offset => .unopenedParen (offset + n)
  | fault => fault

/-- What cutting gives, `n` bytes further on. -/
def shiftResult (n : Nat) : Except Fault (List Word) → Except Fault (List Word)
  | .ok ws => .ok (ws.map (Word.shift n))
  | .error fault => .error (fault.shift n)

/-- The state with its word `n` bytes further on. -/
def State.shift (n : Nat) (s : State) : State :=
  { s with word := s.word.map fun w => ⟨w.offset + n, w.letters⟩ }

/-! ## One character of the cutter -/

theorem splitFrom_escaped {s : State} (he : s.escaped = true) (offset : Nat) (c : Char)
    (cs : List Char) : splitFrom s offset (c :: cs) =
      splitFrom ((State.push { s with escaped := false } (offset - 1) '\\').push offset c)
        (offset + c.utf8Size) cs := by
  rw [splitFrom]
  dsimp only
  rw [if_pos he]

theorem splitFrom_backslash {s : State} (he : s.escaped = false) (offset : Nat) (cs : List Char) :
    splitFrom s offset ('\\' :: cs) = splitFrom { s with escaped := true } (offset + 1) cs := by
  rw [splitFrom]
  dsimp only
  rw [if_neg (by simp [he]), if_pos rfl]
  rfl

theorem ne_backslash_of_isBlank {c : Char} (h : Text.isBlank c = true) : c ≠ '\\' := by
  rintro rfl
  cases h

/-! ## Moving a text -/

section
variable {n : Nat}

theorem State.finished_shift (s : State) :
    (s.shift n).finished = s.finished.map (Word.shift n) := by
  obtain ⟨escaped, quote, depth, _ | w⟩ := s <;> rfl

theorem State.push_shift (s : State) (offset : Nat) (c : Char) :
    (s.shift n).push (offset + n) c = (s.push offset c).shift n := by
  obtain ⟨escaped, quote, depth, _ | w⟩ := s <;> rfl

theorem State.open?_shift (s : State) (c : Char) :
    (s.shift n).open? c = (s.open? c).map (State.shift n) := by
  obtain ⟨escaped, quote, _ | depth, word⟩ := s <;>
    simp only [State.open?, apply_ite (Option.map (State.shift n))] <;> rfl

/-- A text that ends too early has no offset in its fault. -/
theorem State.fault?_shift (s : State) :
    (s.shift n).fault? = s.fault?.map (Fault.shift n) := by
  obtain ⟨escaped, _ | q, _ | depth, word⟩ := s
  · cases escaped <;> rfl
  all_goals rfl

theorem shiftResult_map (ws : List Word) (r : Except Fault (List Word)) :
    shiftResult n (r.map (ws ++ ·)) = (shiftResult n r).map (ws.map (Word.shift n) ++ ·) := by
  cases r with
  | error fault => rfl
  | ok rest => simp [shiftResult, Except.map]

/-- **A text is cut alike wherever it stands.** An escaped character has its backslash in front of
it, so the offset of that one is moved too. -/
theorem splitFrom_shift : ∀ (cs : List Char) (s : State) (offset : Nat),
    (s.escaped = true → 0 < offset) →
    splitFrom (s.shift n) (offset + n) cs = shiftResult n (splitFrom s offset cs)
  | [], s, offset, _ => by
    rw [splitFrom, splitFrom, State.fault?_shift]
    cases s.fault? with
    | some fault => rfl
    | none => exact congrArg Except.ok s.finished_shift
  | c :: cs, s, offset, hpos => by
    have hnext : 0 < offset + c.utf8Size := Nat.add_pos_right _ c.utf8Size_pos
    have hsum : offset + n + c.utf8Size = offset + c.utf8Size + n := Nat.add_right_comm ..
    cases he : s.escaped with
    | true =>
      have hslash : offset + n - 1 = offset - 1 + n := by
        have := hpos he
        omega
      have hpushed := State.push_shift (n := n) { s with escaped := false } (offset - 1) '\\'
      rw [splitFrom_escaped he, splitFrom_escaped (s := s.shift n) he, hsum, hslash,
        ← splitFrom_shift cs _ _ fun _ => hnext, ← State.push_shift, ← hpushed]
      rfl
    | false =>
      by_cases hc : c = '\\'
      · subst hc
        rw [splitFrom_backslash he, splitFrom_backslash (s := s.shift n) he,
          ← splitFrom_shift cs _ _ fun _ => Nat.succ_pos offset, Nat.add_right_comm]
        rfl
      · rw [splitFrom_cons he hc, splitFrom_cons (s := s.shift n) he hc, hsum, State.open?_shift]
        have hfree : (s.shift n).free = s.free := rfl
        rw [hfree]
        split_ifs
        · have hrest := splitFrom_shift cs { s with word := none } _ fun _ => hnext
          rw [shiftResult_map, ← hrest, State.finished_shift]
          rfl
        · cases s.open? c with
          | none => rfl
          | some s' =>
            rw [Option.map_some]
            dsimp only
            rw [State.push_shift, splitFrom_shift cs _ _ fun _ => hnext]

end

/-! ## Texts behind one another -/

/-- **White space behind a text that was cut begins a new text.** -/
theorem Splits.append_blank {s : State} {offset : Nat} {a : List Char} {u : List Word}
    (h : Splits s offset a u) {c : Char} (hc : Text.isBlank c = true) (b : List Char) :
    splitFrom s offset (a ++ c :: b) =
      (splitFrom .start (offset + Text.byteLength a + c.utf8Size) b).map (u ++ ·) := by
  induction h with
  | @done s offset hfault =>
    -- nothing is open, so the state without its word is the first one
    obtain ⟨he, hfree⟩ := s.fault?_eq_none_iff.1 hfault
    have hstart : { s with word := none } = State.start := by
      obtain ⟨escaped, quote, depth, word⟩ := s
      simp_all [State.start, State.free]
    rw [List.nil_append, splitFrom_cons he (ne_backslash_of_isBlank hc), hc, hfree, hstart]
    rfl
  | @escaped s offset d cs ws he _ ih =>
    rw [List.cons_append, splitFrom_escaped he, ih, Text.byteLength_cons, Nat.add_assoc offset]
  | @backslash s offset cs ws he _ ih =>
    rw [List.cons_append, splitFrom_backslash he, ih, Text.byteLength_cons, Nat.add_assoc offset]
    rfl
  | @blank s offset d cs ws he hd hfree _ ih =>
    rw [List.cons_append, splitFrom_cons he (ne_backslash_of_isBlank hd), hd, hfree, ih,
      Text.byteLength_cons, Nat.add_assoc offset]
    cases splitFrom .start (offset + (d.utf8Size + Text.byteLength cs) + c.utf8Size) b with
    | error fault => rfl
    | ok rest => exact congrArg Except.ok (List.append_assoc ..).symm
  | @char s s' offset d cs ws he hd hblank ho _ ih =>
    rw [List.cons_append, splitFrom_cons he hd, hblank, ho]
    dsimp only
    rw [if_neg (by simp), ih, Text.byteLength_cons, Nat.add_assoc offset]

/-- Behind a text that was cut and a space, each text is cut as on its own. -/
theorem split_append {a : List Char} {u : List Word} (h : split a = .ok u) (b : List Char) :
    split (a ++ ' ' :: b) =
      (shiftResult (Text.byteLength a + 1) (split b)).map (u ++ ·) := by
  have hpos : State.start.escaped = true → 0 < 0 := by simp [State.start]
  have hshift := splitFrom_shift (n := Text.byteLength a + 1) b .start 0 hpos
  rw [split, (splits_of_splitFrom h).append_blank rfl]
  exact congrArg (Except.map (u ++ ·)) hshift

/-! ## Joining words -/

theorem isWord_of_split {text : List Char} {ws : List Word} (h : split text = .ok ws) :
    ∀ w ∈ ws, IsWord w.text := by
  have hlaid : Laid 0 text ws := (splits_of_splitFrom h).laid tracks_start rfl
  intro w hw
  obtain ⟨-, u, -, -, -, -, rfl, hword, -⟩ := hlaid.exists_cut text [] rfl rfl w hw
  exact hword

/-- Words with a space between two are cut into these words. -/
theorem exists_split_intercalate : ∀ words : List (List Char), (∀ w ∈ words, IsWord w) →
    ∃ ws, split ([' '].intercalate words) = .ok ws ∧ ws.map Word.text = words
  | [], _ => ⟨[], rfl, rfl⟩
  | [w], h => by
    have hfirst : split w = .ok [⟨0, w⟩] := splitFrom_isWord tracks_start (h w (by simp))
    exact ⟨[⟨0, w⟩], by simpa using hfirst, rfl⟩
  | w :: v :: words, h => by
    obtain ⟨hw, hwords⟩ := List.forall_mem_cons.1 h
    obtain ⟨ws, hws, htext⟩ := exists_split_intercalate (v :: words) hwords
    have hfirst : split w = .ok [⟨0, w⟩] := splitFrom_isWord tracks_start hw
    refine ⟨⟨0, w⟩ :: ws.map (Word.shift (Text.byteLength w + 1)), ?_, ?_⟩
    · rw [List.intercalate_cons_cons, List.append_assoc, List.singleton_append,
        split_append hfirst, hws]
      rfl
    · rw [List.map_cons, List.map_map, ← htext]
      rfl

/-- **Cutting is compositional.** Behind a text that can be cut and a space, a second text gives the
words that it gives on its own, or the fault that it has on its own, and its offsets are moved. So
words that are joined by spaces can be cut apart again. -/
theorem split_joined {a : List Char} {u : List Word} (h : split a = .ok u) :
    (∀ b v, split b = .ok v →
      split (a ++ ' ' :: b) = .ok (u ++ v.map (Word.shift (Text.byteLength a + 1)))) ∧
    (∀ b fault, split b = .error fault →
      split (a ++ ' ' :: b) = .error (fault.shift (Text.byteLength a + 1))) ∧
    ∃ ws, split ([' '].intercalate (u.map Word.text)) = .ok ws ∧
      ws.map Word.text = u.map Word.text := by
  refine ⟨fun b v hv => ?_, fun b fault hb => ?_, ?_⟩
  · rw [split_append h, hv]
    rfl
  · rw [split_append h, hb]
    rfl
  · refine exists_split_intercalate _ fun word hword => ?_
    obtain ⟨w, hw, rfl⟩ := List.mem_map.1 hword
    exact isWord_of_split h w hw

/-- Two words of which the first has a letter of two bytes and the second keeps its white space,
behind them a word, and behind them a parenthesis that closes nothing. -/
theorem split_joined_quoted :
    split "é  f(\"a )\" b)".toList = .ok [⟨0, "é".toList⟩, ⟨4, "f(\"a )\" b)".toList⟩] ∧
      split "é  f(\"a )\" b) x\\ y".toList =
        .ok [⟨0, "é".toList⟩, ⟨4, "f(\"a )\" b)".toList⟩, ⟨15, "x\\ y".toList⟩] ∧
      split "é  f(\"a )\" b) x )".toList = .error (.unopenedParen 17) ∧
      ∃ ws, split "é f(\"a )\" b)".toList = .ok ws ∧
        ws.map Word.text = ["é".toList, "f(\"a )\" b)".toList] := by
  have h : split "é  f(\"a )\" b)".toList =
    .ok [⟨0, "é".toList⟩, ⟨4, "f(\"a )\" b)".toList⟩] := rfl
  obtain ⟨hok, herror, hjoined⟩ := split_joined h
  exact ⟨h, hok "x\\ y".toList [⟨0, "x\\ y".toList⟩] rfl,
    herror "x )".toList (.unopenedParen 2) rfl, hjoined⟩

end Stencil.TagWords
