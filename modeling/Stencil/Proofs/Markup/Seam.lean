import Stencil.Markup.Scan
import Stencil.Proofs.Expr.Place

/-!
# Scanning two texts as one

Two texts that no marker stands across (`Apart`) are cut at the same markers as one text: the pieces
of both one after the other, where only a run of text at the end of the first and one at the start
of the second become one piece (`pieces_append`). When the first text ends outside of all markers,
the tokens of the second are the tokens it has on its own, moved (`scan_append`).
-/
namespace Stencil

/-- Two lists as one: all elements stay, or the last of `xs` and the first of `ys` become one. -/
inductive Seam {α : Type} (Join : α → α → α → Prop) (xs ys : List α) : List α → Prop
  | apart : Seam Join xs ys (xs ++ ys)
  | merged (xs' : List α) (x y z : α) (ys' : List α) : xs = xs' ++ [x] → ys = y :: ys' →
    Join x y z → Seam Join xs ys (xs' ++ z :: ys')

theorem Seam.cons {α : Type} {Join : α → α → α → Prop} {xs ys zs : List α}
    (h : Seam Join xs ys zs) (a : α) : Seam Join (a :: xs) ys (a :: zs) := by
  cases h with
  | apart => exact .apart
  | merged xs' x y z ys' hxs hys hj =>
    subst hxs
    exact .merged (a :: xs') x y z ys' rfl hys hj

namespace Markup

/-! ## Pieces -/

/-- A marker is found exactly where its two characters stand. -/
theorem marker?_eq_some_iff {c d : Char} {m : Marker} :
    marker? c d = some m ↔ m.chars = [c, d] := by
  constructor
  · grind [marker?, Marker.chars]
  · obtain ⟨d⟩ | ⟨d⟩ := m <;> cases d <;> (intro h; cases h; rfl)

theorem marker?_eq_none_iff {c d : Char} :
    marker? c d = none ↔ ∀ m : Marker, m.chars ≠ [c, d] := by
  simp only [Option.eq_none_iff_forall_ne_some, ne_eq, marker?_eq_some_iff]

/-- The text of a piece. -/
def Piece.chars : Piece → List Char
  | .marker m => m.chars
  | .text cs => cs

/-- The text of pieces. -/
def chars (ps : List Piece) : List Char := ps.flatMap Piece.chars

@[simp] theorem chars_nil : chars [] = [] := rfl

@[simp] theorem chars_cons (p : Piece) (ps : List Piece) : chars (p :: ps) = p.chars ++ chars ps :=
  List.flatMap_cons

@[simp] theorem chars_append (ps qs : List Piece) : chars (ps ++ qs) = chars ps ++ chars qs :=
  List.flatMap_append

theorem chars_addChar (c : Char) (ps : List Piece) : chars (addChar c ps) = c :: chars ps := by
  rcases ps with _ | ⟨_ | _, ps⟩ <;> rfl

/-- Cutting loses nothing. -/
theorem chars_pieces (cs : List Char) : chars (pieces cs) = cs := by
  induction cs using pieces.induct with
  | case1 c d cs m hm ih =>
    rw [pieces, hm]
    simp [Piece.chars, marker?_eq_some_iff.1 hm, ih]
  | case2 c d cs hm ih =>
    rw [pieces, hm]
    simp [chars_addChar, ih]
  | case3 c => rfl
  | case4 => rfl

theorem pieces_ne_nil (c : Char) (cs : List Char) : pieces (c :: cs) ≠ [] := by
  intro h
  have hchars := chars_pieces (c :: cs)
  rw [h] at hchars
  cases hchars

/-- What holds of one character, and of a run of text with a character in front that makes no marker
with it, holds of every run of text. -/
theorem forall_text_pieces {P : List Char → Prop} (hone : ∀ c, P [c])
    (hmore : ∀ c d cs, marker? c d = none → P (d :: cs) → P (c :: d :: cs)) {source cs : List Char}
    (h : .text cs ∈ pieces source) : cs ≠ [] ∧ P cs := by
  induction source using pieces.induct generalizing cs with
  | case1 c d rest m hm ih =>
    rw [pieces, hm] at h
    exact ih (by simpa using h)
  | case2 c d rest hm ih =>
    rw [pieces, hm] at h
    have hchars := chars_pieces (d :: rest)
    dsimp only at h
    unfold addChar at h
    split at h
    · rename_i u ps hps
      rw [hps] at hchars ih
      rcases List.mem_cons.1 h with h | h
      · obtain rfl := Piece.text.inj h
        obtain ⟨hne, hu⟩ := ih List.mem_cons_self
        obtain ⟨x, u, rfl⟩ := List.exists_cons_of_ne_nil hne
        obtain ⟨rfl, -⟩ := List.cons.inj hchars
        exact ⟨List.cons_ne_nil _ _, hmore c x u hm hu⟩
      · exact ih (List.mem_cons_of_mem _ h)
    · rcases List.mem_cons.1 h with h | h
      · obtain rfl := Piece.text.inj h
        exact ⟨List.cons_ne_nil _ _, hone c⟩
      · exact ih h
  | case3 c =>
    obtain rfl := Piece.text.inj (List.mem_singleton.1 h)
    exact ⟨List.cons_ne_nil _ _, hone c⟩
  | case4 => cases h

theorem addChar_append (c : Char) {ps : List Piece} (h : ps ≠ []) (qs : List Piece) :
    addChar c (ps ++ qs) = addChar c ps ++ qs := by
  rcases ps with _ | ⟨_ | _, ps⟩
  · exact absurd rfl h
  · rfl
  · rfl

/-- No marker stands across the end of `a` and the start of `b`: if `a` ends in a run of text, its
last character and the first of `b` are no marker. -/
def Apart (a b : List Char) : Prop :=
  ∀ (ps : List Piece) (u : List Char) (c d : Char) (cs : List Char),
    pieces a = ps ++ [.text (u ++ [c])] → b = d :: cs → marker? c d = none

/-- It is enough that the last character of `a` and the first of `b` are no marker. -/
theorem Apart.of_ends {a b : List Char}
    (h : ∀ c d, a.getLast? = some c → b.head? = some d → marker? c d = none) : Apart a b := by
  rintro ps u c d cs hp rfl
  refine h c d ?_ rfl
  rw [← chars_pieces a, hp]
  simp [Piece.chars]

/-- Two runs of text, and both as one. -/
inductive Piece.Join : Piece → Piece → Piece → Prop
  | text (u v : List Char) : Piece.Join (.text u) (.text v) (.text (u ++ v))

/-- The pieces of two texts as those of one. -/
abbrev PieceSeam : List Piece → List Piece → List Piece → Prop := Seam Piece.Join

theorem PieceSeam.addChar {ps qs rs : List Piece} (h : PieceSeam ps qs rs) (hp : ps ≠ [])
    (c : Char) : PieceSeam (addChar c ps) qs (addChar c rs) := by
  cases h with
  | apart =>
    rw [addChar_append c hp]
    exact .apart
  | merged ps' x y z qs' hps hqs hj =>
    subst hps
    cases ps' with
    | nil =>
      cases hj with
      | text u v => exact .merged [] _ _ _ qs' rfl hqs (.text (c :: u) v)
    | cons p ps' =>
      rw [addChar_append c (by simp), addChar_append c (by simp)]
      exact .merged _ x y z qs' rfl hqs hj

theorem Apart.of_marker {c d : Char} {cs b : List Char} {m : Marker} (hm : marker? c d = some m)
    (h : Apart (c :: d :: cs) b) : Apart cs b := by
  intro ps u x y ys hp
  refine h (.marker m :: ps) u x y ys ?_
  rw [pieces, hm]
  exact congrArg _ hp

theorem Apart.of_char {c d : Char} {cs b : List Char} (hm : marker? c d = none)
    (h : Apart (c :: d :: cs) b) : Apart (d :: cs) b := by
  intro ps u x y ys hp
  cases ps with
  | nil =>
    refine h [] (c :: u) x y ys ?_
    rw [pieces, hm]
    dsimp only
    rw [hp]
    rfl
  | cons p ps =>
    refine h (Markup.addChar c (p :: ps)) u x y ys ?_
    rw [pieces, hm]
    dsimp only
    rw [hp, addChar_append c (by simp)]

/-- **The pieces of two texts.** -/
theorem pieces_append {a b : List Char} (h : Apart a b) :
    PieceSeam (pieces a) (pieces b) (pieces (a ++ b)) := by
  induction a using pieces.induct with
  | case1 c d cs m hm ih =>
    rw [List.cons_append, List.cons_append, pieces, pieces, hm]
    exact (ih (h.of_marker hm)).cons (.marker m)
  | case2 c d cs hm ih =>
    rw [List.cons_append, List.cons_append, pieces, pieces, hm]
    exact (ih (h.of_char hm)).addChar (pieces_ne_nil d cs) c
  | case3 c =>
    cases b with
    | nil => exact .apart
    | cons d cs =>
      have hm : marker? c d = none := h [] [] c d cs rfl rfl
      rw [List.cons_append, List.nil_append, pieces, hm]
      dsimp only
      rcases hq : pieces (d :: cs) with _ | ⟨_ | v, qs⟩
      · exact absurd hq (pieces_ne_nil d cs)
      · exact .apart
      · exact .merged [] _ _ _ qs rfl rfl (.text [c] v)
  | case4 => exact .apart

/-! ## Tokens -/

/-- Where the text after the pieces stands. -/
def contextAfter (context : Option Delimiter) : List Piece → Option Delimiter
  | [] => context
  | .marker m :: ps => contextAfter m.context ps
  | .text _ :: ps => contextAfter context ps

theorem contextAfter_append (context : Option Delimiter) : ∀ ps qs : List Piece,
    contextAfter context (ps ++ qs) = contextAfter (contextAfter context ps) qs := by
  intro ps qs
  induction ps generalizing context with
  | nil => rfl
  | cons p ps ih => cases p <;> exact ih _

theorem byteLength_marker (m : Marker) : Text.byteLength m.chars = 2 := by
  obtain ⟨d⟩ | ⟨d⟩ := m <;> cases d <;> rfl

theorem pieceTokens_append (context : Option Delimiter) (offset : Nat) (ps qs : List Piece) :
    pieceTokens context offset (ps ++ qs) = pieceTokens context offset ps ++
      pieceTokens (contextAfter context ps) (offset + Text.byteLength (chars ps)) qs := by
  induction ps generalizing context offset with
  | nil => rfl
  | cons p ps ih =>
    cases p with
    | marker m =>
      simp [pieceTokens, contextAfter, ih, Piece.chars, byteLength_marker, Nat.add_assoc]
    | text cs => simp [pieceTokens, contextAfter, ih, Piece.chars, Nat.add_assoc]

theorem tagTokens_shift (n offset : Nat) (cs : List Char) :
    tagTokens (n + offset) cs = (tagTokens offset cs).map (Located.relocate (n + ·)) := by
  unfold tagTokens contentAfterBlank
  split
  · dsimp only
    split <;> simp [Located.relocate, Nat.add_assoc]
  · simp [Located.relocate, Nat.add_assoc]

theorem textTokens_shift (context : Option Delimiter) (n offset : Nat) (cs : List Char) :
    textTokens context (n + offset) cs =
      (textTokens context offset cs).map (Located.relocate (n + ·)) := by
  cases context with
  | none => simp [textTokens, Located.relocate, Nat.add_assoc]
  | some d =>
    simp only [textTokens, Nat.add_assoc n offset, tagTokens_shift]
    split
    · rfl
    · split
      · rfl
      · simp [Located.relocate, Nat.add_assoc]

/-- Pieces further on have their tokens further on. -/
theorem pieceTokens_shift (context : Option Delimiter) (n offset : Nat) (ps : List Piece) :
    pieceTokens context (n + offset) ps =
      (pieceTokens context offset ps).map (Located.relocate (n + ·)) := by
  induction ps generalizing context offset with
  | nil => rfl
  | cons p ps ih =>
    cases p with
    | marker m => simp [pieceTokens, Nat.add_assoc, ih, Located.relocate]
    | text cs => simp [pieceTokens, Nat.add_assoc, ih, textTokens_shift]

/-- The text ends outside of all markers. -/
def Closed (a : List Char) : Prop := contextAfter none (pieces a) = none

/-- Two runs of text outside of markers, and both as one. -/
inductive Token.Join : Located Token → Located Token → Located Token → Prop
  | text (u v : List Char) (s s' : Span) :
    Token.Join ⟨.content u, s⟩ ⟨.content v, s'⟩ ⟨.content (u ++ v), s.cover s'⟩

theorem PieceSeam.tokens {ps qs rs : List Piece} (h : PieceSeam ps qs rs)
    (hctx : contextAfter none ps = none) :
    Seam Token.Join (pieceTokens none 0 ps)
      ((pieceTokens none 0 qs).map (Located.relocate (Text.byteLength (chars ps) + ·)))
      (pieceTokens none 0 rs) := by
  rw [← pieceTokens_shift, Nat.add_zero]
  cases h with
  | apart =>
    rw [pieceTokens_append, hctx, Nat.zero_add]
    exact .apart
  | merged ps' x y z qs' hps hqs hj =>
    subst hps hqs
    cases hj with
    | text u v =>
      have hctx' : contextAfter none ps' = none := by
        rw [contextAfter_append] at hctx
        exact hctx
      simp only [pieceTokens_append, hctx', pieceTokens, textTokens, chars_append, chars_cons,
        chars_nil, Piece.chars, List.append_nil, Text.byteLength_append, List.singleton_append,
        Nat.zero_add, ← Nat.add_assoc]
      exact .merged _ _ _ _ _ rfl rfl (.text u v _ _)

/-- **The tokens of two texts.** -/
theorem scan_append {a b : List Char} (h : Apart a b) (ha : Closed a) :
    Seam Token.Join (scan a) ((scan b).map (Located.relocate (Text.byteLength a + ·)))
      (scan (a ++ b)) := by
  have htokens := (pieces_append h).tokens ha
  rw [chars_pieces] at htokens
  exact htokens

end Markup
end Stencil
