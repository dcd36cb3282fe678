import Stencil.Proofs.Source.Nesting
import Stencil.TagWords

/-!
# Words of a tag

A character that escapes nothing and is not escaped does one of two things: white space outside of
quotes and parentheses ends the word, and any other character is added to it and may open or close a
quote or a parenthesis (`splitFrom_cons`). The words stand in the text in order, each where its
offset says (`split_inOrder`).
-/
namespace Stencil

namespace TagWords

/-! ## The walk -/

/-- The state with the quotes and parentheses that are open after a character; nothing if the
character closes a parenthesis that is not open. -/
def State.open? (s : State) (c : Char) : Option State :=
  if c = '"' then some { s with quote := toggle .double s.quote }
  else if c = '\'' then some { s with quote := toggle .single s.quote }
  else if c = '(' ∧ s.quote.isNone then some { s with depth := s.depth + 1 }
  else if c = ')' ∧ s.quote.isNone then
    match s.depth with
    | 0 => none
    | depth + 1 => some { s with depth := depth }
  else some s

/-- What is open says nothing of the word. -/
theorem State.open?_eq_some {s s' : State} {c : Char} (h : s.open? c = some s') :
    s'.escaped = s.escaped ∧ s'.word = s.word := by
  unfold State.open? at h
  repeat' split at h
  all_goals cases h
  all_goals exact ⟨rfl, rfl⟩

/-- One character. -/
theorem splitFrom_cons {s : State} (he : s.escaped = false) {c : Char} (hc : c ≠ '\\')
    (offset : Nat) (cs : List Char) :
    splitFrom s offset (c :: cs) =
      if Text.isBlank c && s.free then
        (splitFrom { s with word := none } (offset + c.utf8Size) cs).map (s.finished ++ ·)
      else match s.open? c with
        | some s' => splitFrom (s'.push offset c) (offset + c.utf8Size) cs
        | none => .error (.unopenedParen offset) := by
  rw [splitFrom]
  dsimp only
  rw [if_neg (by simp [he]), if_neg hc]
  unfold State.open?
  split
  · rename_i hq
    subst hq
    rfl
  · split
    · rename_i hq
      subst hq
      rfl
    · split
      · rename_i hp
        obtain ⟨rfl, -⟩ := hp
        rfl
      · split
        · rename_i hp
          obtain ⟨rfl, -⟩ := hp
          rw [if_neg (by simp [Text.isBlank])]
          cases s.depth <;> rfl
        · rfl

/-- The words of a text that can be cut, character by character. -/
inductive Splits : State → Nat → List Char → List Word → Prop
  | done {s : State} (offset : Nat) : s.fault? = none → Splits s offset [] s.finished
  | escaped {s : State} {offset : Nat} (c : Char) {cs : List Char} {ws : List Word} :
      s.escaped = true →
      Splits ((State.push { s with escaped := false } (offset - 1) '\\').push offset c)
        (offset + c.utf8Size) cs ws →
      Splits s offset (c :: cs) ws
  | backslash {s : State} {offset : Nat} {cs : List Char} {ws : List Word} :
      s.escaped = false → Splits { s with escaped := true } (offset + 1) cs ws →
      Splits s offset ('\\' :: cs) ws
  | blank {s : State} {offset : Nat} {c : Char} {cs : List Char} {ws : List Word} :
      s.escaped = false → Text.isBlank c = true → s.free = true →
      Splits { s with word := none } (offset + c.utf8Size) cs ws →
      Splits s offset (c :: cs) (s.finished ++ ws)
  | char {s s' : State} {offset : Nat} {c : Char} {cs : List Char} {ws : List Word} :
      s.escaped = false → c ≠ '\\' → (Text.isBlank c && s.free) = false → s.open? c = some s' →
      Splits (s'.push offset c) (offset + c.utf8Size) cs ws →
      Splits s offset (c :: cs) ws

theorem splits_of_splitFrom : ∀ {cs : List Char} {s : State} {offset : Nat} {ws : List Word},
    splitFrom s offset cs = .ok ws → Splits s offset cs ws
  | [], s, offset, ws, h => by
    rw [splitFrom] at h
    split at h
    · cases h
    · rename_i hfault
      cases h
      exact .done offset hfault
  | c :: cs, s, offset, ws, h => by
    cases he : s.escaped with
    | true =>
      rw [splitFrom, he] at h
      exact .escaped c he (splits_of_splitFrom h)
    | false =>
      by_cases hc : c = '\\'
      · subst hc
        rw [splitFrom] at h
        dsimp only at h
        rw [if_neg (by simp [he]), if_pos rfl] at h
        exact .backslash he (splits_of_splitFrom h)
      · rw [splitFrom_cons he hc] at h
        split at h
        · -- the word ends
          rename_i hblank
          cases hrest : splitFrom { s with word := none } (offset + c.utf8Size) cs with
          | error fault =>
            rw [hrest] at h
            cases h
          | ok rest =>
            rw [hrest] at h
            cases h
            obtain ⟨hblank, hfree⟩ := Bool.and_eq_true _ _ ▸ hblank
            exact .blank he hblank hfree (splits_of_splitFrom hrest)
        · rename_i hblank
          split at h
          · rename_i s' ho
            exact .char he hc (Bool.eq_false_iff.2 hblank) ho (splits_of_splitFrom h)
          · cases h

/-! ## Words in order -/

/-- The words stand in the text behind `start`, one behind the other. -/
def InOrder (text : List Char) : Nat → List Word → Prop
  | start, [] => start ≤ Text.byteLength text
  | start, w :: ws => start ≤ w.offset ∧ w.text ≠ [] ∧ Text.At text w.offset w.text ∧
    InOrder text (w.offset + Text.byteLength w.text) ws

theorem InOrder.mono {text : List Char} {m n : Nat} {ws : List Word} (h : InOrder text n ws)
    (hm : m ≤ n) : InOrder text m ws := by
  cases ws with
  | nil => exact Nat.le_trans hm h
  | cons w ws => exact ⟨Nat.le_trans hm h.1, h.2⟩

/-- The letters of the word that is being read. -/
def State.letters (s : State) : List Char := s.word.elim [] fun w => w.letters.reverse

/-- The backslash that waits for a character. -/
def State.slash (s : State) : List Char := if s.escaped then ['\\'] else []

/-- What was read is `before`; the part of it behind `done` is the word that is being read, with the
backslash that waits. -/
structure State.Reading (s : State) (done before : List Char) : Prop where
  split : before = done ++ (s.letters ++ s.slash)
  word : ∀ w ∈ s.word, w.offset = Text.byteLength done ∧ w.letters ≠ []

section
variable {s s' : State} {done before text : List Char} {offset : Nat}

theorem State.Reading.push (h : s.Reading done before) (he : s.escaped = false)
    (hb : Text.byteLength before = offset) (c : Char) :
    (s.push offset c).Reading done (before ++ [c]) := by
  obtain ⟨escaped, quote, depth, _ | w⟩ := s
  · obtain rfl : escaped = false := he
    obtain ⟨hsplit, -⟩ := h
    obtain rfl : before = done := by simpa [State.letters, State.slash] using hsplit
    exact ⟨rfl, by simp [State.push, hb]⟩
  · obtain rfl : escaped = false := he
    obtain ⟨hsplit, hw⟩ := h
    refine ⟨?_, by simpa [State.push] using (hw w rfl).1⟩
    simp [hsplit, State.letters, State.slash, State.push]

theorem State.Reading.open? (h : s.Reading done before) {c : Char} (ho : s.open? c = some s') :
    s'.Reading done before := by
  obtain ⟨he, hw⟩ := State.open?_eq_some ho
  obtain ⟨hsplit, hword⟩ := h
  refine ⟨?_, hw ▸ hword⟩
  rw [hsplit, State.letters, State.letters, State.slash, State.slash, he, hw]

theorem State.Reading.backslash (h : s.Reading done before) (he : s.escaped = false) :
    State.Reading { s with escaped := true } done (before ++ ['\\']) := by
  refine ⟨?_, h.word⟩
  rw [h.split]
  simp [State.letters, State.slash, he]

theorem State.Reading.escape (h : s.Reading done before) (he : s.escaped = true)
    (hb : Text.byteLength before = offset) (c : Char) :
    ((State.push { s with escaped := false } (offset - 1) '\\').push offset c).Reading done
      (before ++ [c]) := by
  have hone : Char.utf8Size '\\' = 1 := rfl
  obtain rfl : before = done ++ s.letters ++ ['\\'] := by
    simpa [State.slash, he] using h.split
  have hbefore : State.Reading { s with escaped := false } done (done ++ s.letters) :=
    ⟨by simp [State.letters, State.slash], h.word⟩
  have hlength : Text.byteLength (done ++ s.letters) = offset - 1 := by
    rw [Text.byteLength_append, Text.byteLength_cons, Text.byteLength_nil, hone] at hb
    omega
  refine (hbefore.push rfl hlength '\\').push ?_ hb c
  unfold State.push
  split <;> rfl

/-- The word that ends stands in front of those that follow. -/
theorem State.Reading.finished (h : s.Reading done before) {rest : List Char}
    (ht : text = before ++ rest) {ws : List Word} (hws : InOrder text (Text.byteLength before) ws) :
    InOrder text (Text.byteLength done) (s.finished ++ ws) := by
  obtain ⟨escaped, quote, depth, _ | w⟩ := s
  · have hle : Text.byteLength done ≤ Text.byteLength before := by
      rw [h.split, Text.byteLength_append]
      exact Nat.le_add_right _ _
    exact hws.mono hle
  · obtain ⟨hoffset, hn⟩ := h.word w rfl
    have hsplit : before = done ++ (w.letters.reverse ++
      State.slash ⟨escaped, quote, depth, some w⟩) := h.split
    have hat : Text.At text w.offset w.letters.reverse :=
      ⟨done, State.slash ⟨escaped, quote, depth, some w⟩ ++ rest, by simp [ht, hsplit],
        hoffset.symm⟩
    have hle : w.offset + Text.byteLength w.letters.reverse ≤ Text.byteLength before := by
      rw [hsplit, Text.byteLength_append, Text.byteLength_append, hoffset]
      omega
    exact ⟨Nat.le_of_eq hoffset.symm, by simpa using hn, hat, hws.mono hle⟩

theorem Splits.inOrder {cs : List Char} {ws : List Word} (h : Splits s offset cs ws) :
    ∀ {done before : List Char}, s.Reading done before → Text.byteLength before = offset →
      text = before ++ cs → InOrder text (Text.byteLength done) ws := by
  induction h with
  | @done s offset _ =>
    intro done before hs hb ht
    have hend : InOrder text (Text.byteLength before) [] := by
      rw [ht, List.append_nil]
      exact Nat.le_refl _
    simpa using hs.finished ht hend
  | escaped c he _ ih =>
    intro done before hs hb ht
    exact ih (hs.escape he hb c) (by simp [hb]) (by simp [ht])
  | backslash he _ ih =>
    intro done before hs hb ht
    exact ih (hs.backslash he) (by simp [hb]; rfl) (by simp [ht])
  | @blank s offset c cs ws he _ _ _ ih =>
    intro done before hs hb ht
    have hnone : State.Reading { s with word := none } (before ++ [c]) (before ++ [c]) :=
      ⟨by simp [State.letters, State.slash, he], by simp⟩
    have hws := ih hnone (by simp [hb]) (by simp [ht])
    refine hs.finished ht (hws.mono ?_)
    rw [Text.byteLength_append]
    exact Nat.le_add_right _ _
  | @char s s' offset c cs ws he _ _ ho _ ih =>
    intro done before hs hb ht
    have hread := (hs.open? ho).push ((State.open?_eq_some ho).1.trans he) hb c
    exact ih hread (by simp [hb]) (by simp [ht])

/-- **The words of a text stand in it in order.** -/
theorem split_inOrder {ws : List Word} (h : split text = .ok ws) : InOrder text 0 ws := by
  have hstart : State.start.Reading [] [] := ⟨rfl, by simp [State.start]⟩
  exact (splits_of_splitFrom h).inOrder hstart rfl rfl

end

end TagWords
end Stencil
