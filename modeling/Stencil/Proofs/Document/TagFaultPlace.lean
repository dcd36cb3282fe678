import Stencil.Proofs.Document.BlockText
import Stencil.Proofs.Document.LoopText
import Stencil.Proofs.Document.TagNesting
import Stencil.Proofs.Expr.FaultPlace
import Stencil.Proofs.Expr.Separated

/-!
# Where a tag is refused

A word of a tag ends in white space only behind a backslash (`tight_of_split`), and then it is no
expression (`Token.not_isSkipped_of_tight`). So the end of a word is the end of its last token, and a
tag is refused at a range of the source (`usable_of_loopHeader`, `usable_of_call`).
-/
namespace Stencil

/-! ## Texts that end in no white space -/

namespace Text

/-- The text does not end in white space, unless a backslash keeps it there. -/
def Tight (cs : List Char) : Prop :=
  ∀ c ∈ cs.getLast?, isBlank c = true → ∃ front, cs = front ++ ['\\', c]

theorem getLast?_append_cons (u v : List Char) (c d : Char) :
    (u ++ c :: (v ++ [d])).getLast? = some d := by
  rw [← List.cons_append, ← List.append_assoc, List.getLast?_concat]

theorem tight_nil : Tight [] := by simp [Tight]

theorem tight_of_not_isBlank {cs : List Char} (h : ∀ c ∈ cs.getLast?, isBlank c = false) :
    Tight cs := by
  intro c hc hblank
  rw [h c hc] at hblank
  cases hblank

theorem tight_escaped (front : List Char) (c : Char) : Tight (front ++ ['\\', c]) := by
  intro d hd _
  obtain rfl : c = d := by simpa using hd
  exact ⟨front, rfl⟩

/-- What stands behind a character that is neither is tight too. -/
theorem Tight.behind {u v : List Char} {c : Char} (h : Tight (u ++ c :: v)) (hc : c ≠ '\\') :
    Tight v := by
  intro d hd hblank
  obtain ⟨v, rfl⟩ := List.getLast?_eq_some_iff.1 hd
  obtain ⟨front, hfront⟩ := h d (getLast?_append_cons u v c d) hblank
  have hinit : u ++ c :: v = front ++ ['\\'] := by
    have hsame : (u ++ c :: v) ++ [d] = (front ++ ['\\']) ++ [d] := by simpa using hfront
    exact List.append_cancel_right hsame
  rcases List.eq_nil_or_concat v with rfl | ⟨w, e, rfl⟩
  · exact absurd (List.append_inj' hinit rfl).2 (by simpa using hc)
  · have hslash : (u ++ c :: w) ++ [e] = front ++ ['\\'] := by simpa using hinit
    obtain rfl : e = '\\' := by simpa using (List.append_inj' hslash rfl).2
    exact ⟨w, by simp⟩

end Text

/-! ## Words -/

namespace TagWords

variable {s : State} {offset : Nat} {cs : List Char} {ws : List Word}

theorem State.letters_push (s : State) (offset : Nat) (c : Char) :
    (s.push offset c).letters = s.letters ++ [c] := by
  obtain ⟨escaped, quote, depth, _ | w⟩ := s
  · rfl
  · simp [State.push, State.letters]

theorem State.free_push (s : State) (offset : Nat) (c : Char) :
    (s.push offset c).free = s.free := by
  obtain ⟨escaped, quote, depth, _ | w⟩ := s <;> rfl

theorem State.text_of_mem_finished {w : Word} (h : w ∈ s.finished) : w.text = s.letters := by
  obtain ⟨escaped, quote, depth, _ | p⟩ := s
  · cases h
  · obtain rfl := List.mem_singleton.1 h
    rfl

/-- A text can end only where nothing is open. -/
theorem State.fault?_eq_none_iff (s : State) :
    s.fault? = none ↔ s.escaped = false ∧ s.free = true := by
  obtain ⟨escaped, _ | q, _ | depth, word⟩ := s
  · cases escaped <;> simp [State.fault?, State.free]
  · simp [State.fault?, State.free]
  · simp [State.fault?, State.free]
  · simp [State.fault?, State.free]

/-- White space opens and closes nothing. -/
theorem open?_of_isBlank {c : Char} (h : Text.isBlank c = true) (s : State) :
    s.open? c = some s := by
  have hne : ∀ d, Text.isBlank d = false → c ≠ d := by
    rintro d hd rfl
    rw [hd] at h
    cases h
  exact open?_of_plain ⟨hne _ rfl, hne _ rfl, hne _ rfl, hne _ rfl⟩ s

/-- The step is by cases of the cutter: outside of quotes and parentheses the word that is being read
is tight. -/
theorem Splits.tight (h : Splits s offset cs ws) : (s.free = true → Text.Tight s.letters) →
    ∀ w ∈ ws, Text.Tight w.text := by
  induction h with
  | @done s offset hfault =>
    intro hs w hw
    rw [State.text_of_mem_finished hw]
    exact hs (s.fault?_eq_none_iff.1 hfault).2
  | @escaped s offset c cs ws _ _ ih =>
    intro hs
    refine ih fun _ => ?_
    rw [State.letters_push, State.letters_push, List.append_assoc]
    exact Text.tight_escaped _ c
  | backslash _ _ ih => exact fun hs => ih hs
  | @blank s offset c cs ws _ _ hfree _ ih =>
    intro hs
    refine List.forall_mem_append.2 ⟨fun w hw => ?_, ih fun _ => Text.tight_nil⟩
    rw [State.text_of_mem_finished hw]
    exact hs hfree
  | @char s s' offset c cs ws _ _ hc ho _ ih =>
    intro hs
    refine ih fun hfree => ?_
    rw [State.free_push] at hfree
    rw [State.letters_push]
    cases hblank : Text.isBlank c with
    | false => exact Text.tight_of_not_isBlank (by simpa using hblank)
    | true =>
      -- white space was added, so something was open and still is
      rw [open?_of_isBlank hblank] at ho
      obtain rfl := Option.some.inj ho
      rw [hblank, hfree] at hc
      cases hc

/-- **No word ends in white space**, unless a backslash keeps it there. -/
theorem tight_of_split {text : List Char} (h : split text = .ok ws) :
    ∀ w ∈ ws, Text.Tight w.text :=
  (splits_of_splitFrom h).tight fun _ => Text.tight_nil

end TagWords

/-! ## Expressions -/

namespace Token

open TagWords (Plain plain_of_isPart plain_of_isNumber)

theorem plain_of_ofChar? {c : Char} {t : Token} (h : ofChar? c = some t) :
    c ≠ '\\' ∧ Text.isBlank c = false := by
  unfold ofChar? at h
  split at h
  case h_17 => cases h
  all_goals exact ⟨by decide, rfl⟩

/-- A token ends neither in a backslash nor in white space. -/
theorem last_lexeme {c : Char} {cs : List Char} {t : Token} (h : (lexeme c cs).item = .token t) :
    ∀ d ∈ (lexeme c cs).text.getLast?, d ≠ '\\' ∧ Text.isBlank d = false := by
  have hplain {text : List Char} (htext : ∀ d ∈ text, Plain d) :
      ∀ d ∈ text.getLast?, d ≠ '\\' ∧ Text.isBlank d = false := by
    intro d hd
    obtain ⟨hslash, -, -, -, -, hblank⟩ := htext d (List.mem_of_getLast? hd)
    exact ⟨hslash, hblank⟩
  unfold lexeme at h ⊢
  split
  · rename_i hdigit
    exact hplain (plain_of_isNumber (isNumber_numberLexeme hdigit))
  · rename_i hdigit
    rw [if_neg hdigit] at h
    split
    · rename_i hquote
      rw [if_pos hquote] at h
      unfold stringLexeme at h ⊢
      dsimp only at h ⊢
      split at h
      · cases h
      · intro d hd
        rw [← List.cons_append, List.getLast?_concat] at hd
        obtain rfl := Option.some.inj hd
        have hc : c = '"' ∨ c = '\'' := by simpa using hquote
        rcases hc with rfl | rfl <;> exact ⟨by decide, rfl⟩
    · rename_i hquote
      rw [if_neg hquote] at h
      split
      · have hpart : ∀ d ∈ (c :: cs).takeWhile Identifier.isPart, Identifier.isPart d = true :=
          List.all_eq_true.1 List.all_takeWhile
        exact hplain fun d hd => plain_of_isPart (hpart d hd)
      · rename_i hstart
        rw [if_neg hstart] at h
        unfold symbolLexeme at h ⊢
        dsimp only at h ⊢
        split at h
        · intro d hd
          obtain rfl : '=' = d := by simpa using hd
          exact ⟨by decide, rfl⟩
        · split at h
          · rename_i hc
            intro d hd
            obtain rfl : c = d := by simpa using hd
            exact plain_of_ofChar? hc
          · cases h

/-- A backslash with only white space behind it is in no token: a token that reaches to it would end
in it or in the white space. -/
theorem ne_backslash_of_allTokens (offset : Nat) (cs : List Char) {v : List Char}
    (hv : ∀ c ∈ v, isSkipped c = true) (hall : AllTokens (rawItems offset cs)) :
    ∀ u, cs ≠ u ++ '\\' :: v := by
  fun_induction rawItems offset cs with
  | case1 offset => simp
  | case2 offset c cs hc ih =>
    rintro (_ | ⟨d, u⟩) hcs
    · obtain ⟨rfl, -⟩ := List.cons.inj hcs
      cases hc
    · exact ih hall u (List.cons.inj hcs).2
  | case3 offset c cs hc stop ih =>
    intro u hcs
    obtain ⟨⟨t, ht⟩, hrest⟩ := List.forall_mem_cons.1 hall
    have hlast := last_lexeme ht
    have hsplit := text_append_rest_lexeme c cs
    rw [hcs] at hsplit
    rcases List.append_eq_append_iff.1 hsplit with ⟨w, -, hw⟩ | ⟨w, htext, hw⟩
    · exact ih hrest w hw
    · cases w with
      | nil => exact ih hrest [] hw.symm
      | cons d w =>
        obtain ⟨rfl, rfl⟩ := List.cons.inj hw
        rw [htext] at hlast
        rcases List.eq_nil_or_concat w with rfl | ⟨w, e, rfl⟩
        · exact (hlast '\\' (by simp)).1 rfl
        · rw [List.concat_eq_append] at hlast hv
          have hblank := (hlast e (Text.getLast?_append_cons u w _ e)).2
          have hskipped := TagWords.isBlank_of_isSkipped (hv e (by simp))
          rw [hskipped.1] at hblank
          cases hblank

/-- A tight text that consists of tokens does not end in white space. -/
theorem not_isSkipped_of_tight {base : Nat} {text : List Char} (ht : Text.Tight text)
    {ts : List (Located Token)} (hs : scanFrom base text = .ok ts) :
    ∀ c ∈ text.getLast?, isSkipped c = false := by
  intro c hc
  refine Bool.eq_false_iff.2 fun hskipped => ?_
  obtain ⟨front, hfront⟩ := ht c hc (TagWords.isBlank_of_isSkipped hskipped).1
  have hall : AllTokens (rawItems base text) := allTokens_of_joinWords (allTokens_of_onlyTokens hs)
  exact ne_backslash_of_allTokens base text (by simpa using hskipped) hall front hfront

end Token

variable {source : List Char} {f : Located ParseFault}

theorem Expr.usable_of_tight {base : Nat} {text : List Char} (hat : Text.At source base text)
    (ht : Text.Tight text) (h : readAt base text = .error f) : f.span.Usable source :=
  usable_of_readAt hat (fun _ hs => Token.not_isSkipped_of_tight ht hs) h

/-! ## Tags -/

theorem Located.Cut.usable {c : Located (List Char)} (h : c.Cut source) :
    c.span.Usable source := by
  obtain ⟨text, start, stop⟩ := c
  obtain ⟨hat, hstop, -, -⟩ := h
  dsimp only at hat hstop
  rw [hstop]
  exact hat.usable

namespace Tag

open TagWords (Word InOrder)

variable {content : Located (List Char)}

theorem span_of_words (h : words content = .error f) : f.span = content.span := by
  unfold words at h
  split at h
  · cases h
  · cases h
    rfl

theorem usable_wordSpan {base : Nat} {text : List Char} {w : Word}
    (hat : Text.At source base text) (hw : Text.At text w.offset w.text) :
    (wordSpan base w).Usable source := (hat.trans hw).usable

/-- The rest of a trimmed text is tight. -/
theorem tight_textFrom {text : List Char} (ht : Text.Trimmed text) {offset : Nat} {w : List Char}
    (h : Text.At text offset w) : Text.Tight (textFrom text offset) := by
  obtain ⟨before, after, rfl, rfl⟩ := h
  rw [textFrom_append]
  exact Text.tight_of_not_isBlank fun c hc =>
    ht.2 c (List.mem_getLast?_append_of_mem_getLast? hc)

/-- **A loop is refused at a range of the source.** -/
theorem usable_of_loopHeader (hc : content.Cut source) (h : loopHeader content = .error f) :
    f.span.Usable source := by
  unfold loopHeader at h
  dsimp only at h
  rcases bind_eq_error_iff.1 h with h | ⟨ws, hws, h⟩
  · rw [span_of_words h]
    exact hc.usable
  rw [words_eq_ok_iff] at hws
  have horder := TagWords.split_inOrder hws
  split at h
  · rename_i target keyword rest
    split at h
    · split at h
      · cases h
        exact hc.usable
      · rename_i iterable rest
        obtain ⟨-, -, htarget, -, -, -, -, -, hiterable, -⟩ := horder
        split at h
        · rcases bind_eq_error_iff.1 h with h | ⟨e, -, h⟩
          · exact Expr.usable_of_tight (hc.text.trans (at_textFrom hiterable).1)
              (tight_textFrom hc.trimmed hiterable) h
          · cases h
        · cases h
          exact usable_wordSpan hc.text htarget
    · cases h
      exact hc.usable
  · cases h
    exact hc.usable

theorem usable_of_arguments {base : Nat} {text : List Char} (hat : Text.At source base text) :
    ∀ {ws : List Word} {args : List Expr} {ks : List (Ident × Expr)} {m : Nat},
      InOrder text m ws → (∀ w ∈ ws, Text.Tight w.text) → arguments base args ks ws = .error f →
      f.span.Usable source
  | [], args, ks, m, _, _, h => by cases h
  | w :: ws, args, ks, m, ⟨_, _, hw, hws⟩, ht, h => by
    obtain ⟨htight, hrest⟩ := List.forall_mem_cons.1 ht
    have hword := hat.trans hw
    rw [arguments] at h
    dsimp only at h
    split at h
    · rename_i name value hp
      split at h
      · cases h
        exact usable_wordSpan hat hw
      · rcases bind_eq_error_iff.1 h with h | ⟨e, -, h⟩
        · rw [(eq_of_keywordParts? hp).1] at htight
          exact Expr.usable_of_tight (at_of_keywordParts? hword hp).2 (htight.behind (by decide)) h
        · exact usable_of_arguments hat hws hrest h
    · split at h
      · rcases bind_eq_error_iff.1 h with h | ⟨e, -, h⟩
        · exact Expr.usable_of_tight hword htight h
        · exact usable_of_arguments hat hws hrest h
      · cases h
        exact usable_wordSpan hat hw

/-- **A custom tag is refused at a range of the source.** -/
theorem usable_of_call (hc : content.Cut source) (h : call content = .error f) :
    f.span.Usable source := by
  unfold call at h
  rcases bind_eq_error_iff.1 h with h | ⟨ws, hws, h⟩
  · rw [span_of_words h]
    exact hc.usable
  rw [words_eq_ok_iff] at hws
  have horder := TagWords.split_inOrder hws
  have htight := TagWords.tight_of_split hws
  split at h
  · cases h
    exact hc.usable
  · rename_i head rest
    obtain ⟨-, -, hhead, hrest⟩ := horder
    rcases bind_eq_error_iff.1 h with h | ⟨name, -, h⟩
    · unfold tagName at h
      dsimp only at h
      split at h
      · cases h
      · cases h
        exact usable_wordSpan hc.text hhead
    · rcases bind_eq_error_iff.1 h with h | ⟨⟨args, ks⟩, -, h⟩
      · exact usable_of_arguments hc.text hrest (List.forall_mem_cons.1 htight).2 h
      · cases h

end Tag
end Stencil
