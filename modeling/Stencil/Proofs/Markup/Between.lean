import Mathlib.Data.List.Infix
import Stencil.Proofs.Markup.Seam

/-!
# Text between markers

A text without markers is one piece (`pieces_of_unmarked`), and a marked place with such a text in
it is three (`pieces_between`). Behind a closing marker, and before an opening one where the text
before it does not end in a brace, no marker stands across (`Sealed.apart`, `apart_of_opening`), so
that marked places and texts are scanned one by one.
-/
namespace Stencil

/-! ## White space at the ends -/

namespace Text

/-- The text neither begins nor ends with white space. -/
def Trimmed (cs : List Char) : Prop :=
  (∀ c ∈ cs.head?, isBlank c = false) ∧ ∀ c ∈ cs.getLast?, isBlank c = false

theorem trimmed_iff {cs : List Char} : Trimmed cs ↔
    (cs.head?.all (!isBlank ·) && cs.getLast?.all (!isBlank ·)) = true := by
  simp [Trimmed, Option.all_eq_true]

instance (cs : List Char) : Decidable (Trimmed cs) := decidable_of_iff _ trimmed_iff.symm

theorem Trimmed.append {u v : List Char} (hu : Trimmed u) (hv : Trimmed v) (hun : u ≠ [])
    (hvn : v ≠ []) (w : List Char) : Trimmed (u ++ w ++ v) := by
  constructor
  · rw [List.append_assoc, List.head?_append_of_ne_nil _ hun]
    exact hu.1
  · rw [List.getLast?_append_of_ne_nil _ hvn]
    exact hv.2

theorem dropWhile_isBlank {cs : List Char} (h : ∀ c ∈ cs.head?, isBlank c = false) :
    cs.dropWhile isBlank = cs := by
  cases cs with
  | nil => rfl
  | cons c cs => simp [h c rfl]

/-- The text is white space. -/
def Blank (cs : List Char) : Prop := ∀ c ∈ cs, isBlank c = true

theorem Blank.append {u v : List Char} (hu : Blank u) (hv : Blank v) : Blank (u ++ v) :=
  List.forall_mem_append.2 ⟨hu, hv⟩

/-- What stands between the white space at the ends of a text is what it is trimmed to. -/
theorem trim_of_blank {before after cs : List Char} (hb : Blank before) (ha : Blank after)
    (h : Trimmed cs) : trim (before ++ (cs ++ after)) = cs := by
  have hlast : ∀ c ∈ cs.reverse.head?, isBlank c = false := by
    rw [List.head?_reverse]
    exact h.2
  have hafter : ∀ c ∈ after.reverse, isBlank c = true := fun c hc => ha c (List.mem_reverse.1 hc)
  have hend : trimEnd (cs ++ after) = cs := by
    rw [trimEnd, List.reverse_append, List.dropWhile_append_of_pos hafter,
      dropWhile_isBlank hlast, List.reverse_reverse]
  rw [trim, trimStart, List.dropWhile_append_of_pos hb]
  cases cs with
  | nil =>
    rw [← List.append_nil after, List.nil_append, List.dropWhile_append_of_pos ha]
    rfl
  | cons c cs => rw [dropWhile_isBlank (by simpa using h.1), hend]

/-- Only the spaces around it are trimmed off. -/
theorem trim_spaced {cs : List Char} (h : Trimmed cs) : trim (' ' :: (cs ++ [' '])) = cs := by
  have hspace : Blank [' '] := by simp [Blank, isBlank]
  exact trim_of_blank hspace hspace h

end Text

namespace Markup

/-! ## Text without markers -/

/-- None of the six markers occurs in the text. -/
def Unmarked (cs : List Char) : Prop := ∀ m : Marker, ¬ m.chars <:+: cs

theorem unmarked_iff {cs : List Char} : Unmarked cs ↔
    [Delimiter.value, .tag, .comment].all (fun d =>
      !decide ((Marker.opening d).chars <:+: cs) && !decide ((Marker.closing d).chars <:+: cs)) =
        true := by
  constructor
  · exact fun h => List.all_eq_true.2 fun d _ => by simp [h _]
  · intro h m hm
    obtain ⟨d⟩ | ⟨d⟩ := m <;> cases d <;> simp [hm] at h

instance (cs : List Char) : Decidable (Unmarked cs) := decidable_of_iff _ unmarked_iff.symm

theorem unmarked_nil : Unmarked [] := by decide

/-- A character in front makes a marker only with the next character. -/
theorem Unmarked.cons {c : Char} {cs : List Char} (h : Unmarked cs)
    (hc : ∀ d ∈ cs.head?, marker? c d = none) : Unmarked (c :: cs) := by
  intro m hm
  obtain ⟨x, y, hxy⟩ : ∃ x y, m.chars = [x, y] := by
    obtain ⟨d⟩ | ⟨d⟩ := m <;> cases d <;> exact ⟨_, _, rfl⟩
  rcases List.infix_cons_iff.1 hm with hprefix | hinfix
  · rw [hxy, List.cons_prefix_cons] at hprefix
    obtain ⟨rfl, rest, rfl⟩ := hprefix
    exact marker?_eq_none_iff.1 (hc y rfl) m hxy
  · exact h m hinfix

theorem Unmarked.tail {c : Char} {cs : List Char} (h : Unmarked (c :: cs)) : Unmarked cs :=
  fun m hm => h m (hm.trans (List.suffix_cons c cs).isInfix)

/-- What does not contain `x` and occurs in a text around `x`, occurs before it or after it. -/
theorem infix_of_infix_around {α : Type} {s : List α} {x : α} (hx : x ∉ s) {v : List α} :
    ∀ {u : List α}, s <:+: u ++ x :: v → s <:+: u ∨ s <:+: v
  | [], h => by
    rcases List.infix_cons_iff.1 h with h | h
    · rcases List.prefix_cons_iff.1 h with rfl | ⟨t, rfl, -⟩
      · exact Or.inl List.nil_infix
      · exact absurd List.mem_cons_self hx
    · exact Or.inr h
  | c :: u, h => by
    rcases List.infix_cons_iff.1 h with h | h
    · rcases List.prefix_or_prefix_of_prefix h (List.prefix_append (c :: u) (x :: v)) with h' | h'
      · exact Or.inl h'.isInfix
      · obtain ⟨t, rfl⟩ := h'
        rcases List.prefix_cons_iff.1 ((List.prefix_append_right_inj _).1 h) with rfl | ⟨t, rfl, -⟩
        · simp
        · simp at hx
    · exact (infix_of_infix_around hx h).imp_left fun h => h.trans (List.suffix_cons c u).isInfix

/-- No marker stands across a space. -/
theorem Unmarked.spaced {u v : List Char} (hu : Unmarked u) (hv : Unmarked v) :
    Unmarked (u ++ ' ' :: v) := by
  intro m hm
  have hspace : ' ' ∉ m.chars := by
    obtain ⟨d⟩ | ⟨d⟩ := m <;> cases d <;> decide
  exact (infix_of_infix_around hspace hm).elim (hu m) (hv m)

/-- Letters, digits and underscores are no markers. -/
theorem unmarked_of_isPart {cs : List Char} (h : ∀ c ∈ cs, Identifier.isPart c = true) :
    Unmarked cs := by
  intro m hm
  have hnot : ∃ c ∈ m.chars, Identifier.isPart c = false := by
    obtain ⟨d⟩ | ⟨d⟩ := m <;> cases d <;> exact ⟨_, List.mem_cons_self, rfl⟩
  obtain ⟨c, hc, hpart⟩ := hnot
  simp [h c (hm.subset hc)] at hpart

theorem pieces_of_unmarked {cs : List Char} (hn : cs ≠ []) (h : Unmarked cs) :
    pieces cs = [.text cs] := by
  induction cs using pieces.induct with
  | case1 c d cs m hm ih =>
    have hprefix : m.chars <+: c :: d :: cs := by
      rw [marker?_eq_some_iff.1 hm]
      exact List.prefix_append [c, d] cs
    exact absurd hprefix.isInfix (h m)
  | case2 c d cs hm ih =>
    rw [pieces, hm]
    dsimp only
    rw [ih (List.cons_ne_nil d cs) h.tail]
    rfl
  | case3 c => rfl
  | case4 => exact absurd rfl hn

/-! ## Seams that merge nothing -/

/-- Where no two runs of text meet, nothing merges. -/
theorem pieces_append_of_apart {a b : List Char} (h : Apart a b)
    (hne : ∀ ps u v qs, pieces a = ps ++ [.text u] → pieces b ≠ .text v :: qs) :
    pieces (a ++ b) = pieces a ++ pieces b := by
  have hseam := pieces_append h
  generalize pieces (a ++ b) = rs at hseam
  cases hseam with
  | apart => rfl
  | merged ps x y z qs hps hqs hj =>
    cases hj with
    | text u v => exact absurd hqs (hne ps u v qs hps)

/-- Before a marker nothing merges. -/
theorem pieces_append_of_marker {a b : List Char} (h : Apart a b) {m : Marker} {ps : List Piece}
    (hb : pieces b = .marker m :: ps) : pieces (a ++ b) = pieces a ++ pieces b := by
  refine pieces_append_of_apart h fun _ u v qs _ htext => ?_
  rw [hb] at htext
  cases htext

/-- The text ends in a closing marker. -/
def Sealed (a : List Char) : Prop := ∃ ps d, pieces a = ps ++ [.marker (.closing d)]

theorem Sealed.closed {a : List Char} (h : Sealed a) : Closed a := by
  obtain ⟨ps, d, h⟩ := h
  rw [Closed, h, contextAfter_append]
  rfl

theorem Sealed.apart {a : List Char} (h : Sealed a) (b : List Char) : Apart a b := by
  obtain ⟨ps, d, h⟩ := h
  intro qs u c x cs hq
  rw [h] at hq
  cases List.append_inj_right' hq rfl

/-- Behind a closing marker nothing merges. -/
theorem Sealed.pieces_append {a : List Char} (h : Sealed a) (b : List Char) :
    pieces (a ++ b) = pieces a ++ pieces b := by
  refine pieces_append_of_apart (h.apart b) fun qs u v _ htext _ => ?_
  obtain ⟨ps, d, h⟩ := h
  rw [h] at htext
  cases List.append_inj_right' htext rfl

theorem pieces_marker (m : Marker) (cs : List Char) :
    pieces (m.chars ++ cs) = .marker m :: pieces cs := by
  obtain ⟨d⟩ | ⟨d⟩ := m <;> cases d <;> rfl

/-! ## Marked places -/

/-- A text between the markers of a pair. -/
def between (d : Delimiter) (cs : List Char) : List Char :=
  (Marker.opening d).chars ++ (cs ++ (Marker.closing d).chars)

/-- The text does not end in an opening brace, with which a marker could begin. -/
def ClearEnd (cs : List Char) : Prop := cs.getLast? ≠ some '\x7b'

instance (cs : List Char) : Decidable (ClearEnd cs) :=
  decidable_of_iff ((cs.getLast? == some '\x7b') = false) (by simp [ClearEnd])

theorem ClearEnd.append {a b : List Char} (ha : ClearEnd a) (hb : ClearEnd b) :
    ClearEnd (a ++ b) := by
  unfold ClearEnd at *
  rw [List.getLast?_append]
  cases hl : b.getLast? with
  | none => exact ha
  | some c => rwa [hl] at hb

/-- A closing marker does not end in an opening brace. -/
theorem Sealed.clearEnd {a : List Char} (h : Sealed a) : ClearEnd a := by
  obtain ⟨ps, d, h⟩ := h
  rw [ClearEnd, ← chars_pieces a, h, chars_append, List.getLast?_append]
  cases d <;> simp [Piece.chars, Marker.chars]

theorem apart_of_opening {a : List Char} (h : ClearEnd a) (d : Delimiter) (cs : List Char) :
    Apart a ((Marker.opening d).chars ++ cs) := by
  refine Apart.of_ends fun c x hc hx => ?_
  obtain rfl : x = '\x7b' := by cases d <;> exact (Option.some.inj hx).symm
  have hne : c ≠ '\x7b' := by
    rintro rfl
    exact h hc
  simp [marker?, hne]

/-- Behind a text that does not end in a brace a marked place is scanned on its own. -/
theorem pieces_append_between {a : List Char} (h : ClearEnd a) (d : Delimiter) (cs : List Char) :
    pieces (a ++ between d cs) = pieces a ++ pieces (between d cs) :=
  pieces_append_of_marker (apart_of_opening h d _) (pieces_marker _ _)

theorem pieces_between (d : Delimiter) {cs : List Char} (h : Unmarked (cs ++ [' '])) :
    pieces (between d (cs ++ [' '])) =
      [.marker (.opening d), .text (cs ++ [' ']), .marker (.closing d)] := by
  have hclosing : pieces (Marker.closing d).chars = [.marker (.closing d)] := by
    cases d <;> rfl
  have hapart : Apart (cs ++ [' ']) (Marker.closing d).chars := by
    refine Apart.of_ends fun c x hc _ => ?_
    obtain rfl : c = ' ' := by simpa using hc.symm
    simp [marker?]
  rw [between, pieces_marker, pieces_append_of_marker hapart hclosing,
    pieces_of_unmarked (by simp) h, hclosing]
  rfl

theorem Sealed.between {a : List Char} (ha : ClearEnd a) (d : Delimiter) {cs : List Char}
    (h : Unmarked (cs ++ [' '])) : Sealed (a ++ between d (cs ++ [' '])) := by
  refine ⟨pieces a ++ [.marker (.opening d), .text (cs ++ [' '])], d, ?_⟩
  rw [pieces_append_between ha, pieces_between d h, List.append_assoc]
  rfl

/-! ## Tokens -/

theorem scan_append_of_pieces {a b : List Char} (h : pieces (a ++ b) = pieces a ++ pieces b)
    (ha : Closed a) :
    scan (a ++ b) = scan a ++ (scan b).map (Located.relocate (Text.byteLength a + ·)) := by
  rw [scan, h, pieceTokens_append, ha, chars_pieces, Nat.zero_add, scan, scan, ← pieceTokens_shift,
    Nat.add_zero]

theorem Closed.append {a b : List Char} (h : pieces (a ++ b) = pieces a ++ pieces b)
    (ha : Closed a) (hb : Closed b) : Closed (a ++ b) := by
  rw [Closed, h, contextAfter_append, ha, hb]

/-- A text between the markers of a pair, with a space on either side. -/
def enclose (d : Delimiter) (cs : List Char) : List Char := between d (' ' :: (cs ++ [' ']))

theorem unmarked_enclosed {cs : List Char} (h : Unmarked cs) :
    Unmarked (' ' :: cs ++ [' ']) := by
  have hnil : Unmarked [] := by decide
  simpa using hnil.spaced (h.spaced hnil)

theorem Sealed.enclose {a : List Char} (ha : ClearEnd a) (d : Delimiter) {cs : List Char}
    (h : Unmarked cs) : Sealed (a ++ enclose d cs) := Sealed.between ha d (unmarked_enclosed h)

theorem sealed_enclose (d : Delimiter) {cs : List Char} (h : Unmarked cs) :
    Sealed (enclose d cs) := Sealed.enclose (a := []) (by decide) d h

theorem sealed_comment : Sealed (between .comment [' ']) :=
  ⟨[.marker (.opening .comment), .text [' ']], .comment, rfl⟩

/-- What stands behind a closing marker is scanned on its own. -/
theorem Sealed.scan_append {a : List Char} (ha : Sealed a) (b : List Char) :
    scan (a ++ b) = scan a ++ (scan b).map (Located.relocate (Text.byteLength a + ·)) :=
  scan_append_of_pieces (ha.pieces_append b) ha.closed

/-- A marked place behind a text outside of all markers is scanned on its own. -/
theorem Closed.scan_append_enclose {a : List Char} (ha : Closed a) (hf : ClearEnd a)
    (d : Delimiter) (cs : List Char) : scan (a ++ Markup.enclose d cs) =
      scan a ++ (scan (Markup.enclose d cs)).map (Located.relocate (Text.byteLength a + ·)) :=
  scan_append_of_pieces (pieces_append_between hf d _) ha

theorem values_enclose (d : Delimiter) {cs : List Char} (h : Unmarked cs) :
    (scan (enclose d cs)).map Located.value = .marker (.opening d) ::
      ((textTokens (some d) 2 (' ' :: (cs ++ [' ']))).map Located.value ++
        [.marker (.closing d)]) := by
  rw [scan, enclose, ← List.cons_append, pieces_between d (unmarked_enclosed h)]
  simp [pieceTokens, Marker.context]

/-- **A value** is its two markers and its text. -/
theorem values_value {cs : List Char} (hn : cs ≠ []) (ht : Text.Trimmed cs) (h : Unmarked cs) :
    (scan (enclose .value cs)).map Located.value =
      [.marker (.opening .value), .content cs, .marker (.closing .value)] := by
  rw [values_enclose .value h, textTokens, Text.trim_spaced ht]
  simp [hn]

theorem values_comment :
    (scan (between .comment [' '])).map Located.value =
      [.marker (.opening .comment), .marker (.closing .comment)] := rfl

theorem takeWhile_word (k : Keyword) (cs : List Char) :
    Text.leadingWord (k.word.toList ++ ' ' :: cs) = k.word.toList ∧
      Text.afterLeadingWord (k.word.toList ++ ' ' :: cs) = ' ' :: cs := by
  cases k <;> exact ⟨rfl, rfl⟩

theorem ofWord?_word (k : Keyword) : Keyword.ofWord? k.word.toList = some k := by
  cases k <;> rfl

theorem Keyword.ofWord?_eq_some_iff {w : List Char} {k : Keyword} :
    Keyword.ofWord? w = some k ↔ w = k.word.toList := by
  constructor
  · intro h
    have hword := List.find?_some h
    exact (beq_iff_eq.1 hword).symm
  · rintro rfl
    exact ofWord?_word k

theorem trimmed_word (k : Keyword) : Text.Trimmed k.word.toList ∧ k.word.toList ≠ [] := by
  cases k <;> decide

theorem unmarked_word (k : Keyword) : Unmarked k.word.toList :=
  unmarked_of_isPart (List.all_eq_true.1 (by cases k <;> rfl))

/-- **A tag of a reserved word** is its two markers and the word. -/
theorem values_word (k : Keyword) :
    (scan (enclose .tag k.word.toList)).map Located.value =
      [.marker (.opening .tag), .keyword k, .marker (.closing .tag)] := by
  cases k <;> rfl

/-- **A tag of a reserved word and a text** is its two markers, the word and the text. -/
theorem values_header (k : Keyword) {cs : List Char} (hn : cs ≠ []) (ht : Text.Trimmed cs)
    (h : Unmarked cs) :
    (scan (enclose .tag (k.word.toList ++ ' ' :: cs))).map Located.value =
      [.marker (.opening .tag), .keyword k, .content cs, .marker (.closing .tag)] := by
  have htrimmed : Text.Trimmed (k.word.toList ++ ' ' :: cs) := by
    simpa using (trimmed_word k).1.append ht (trimmed_word k).2 hn [' ']
  have hstart : Text.trimStart (' ' :: cs) = cs := by
    rw [Text.trimStart, List.dropWhile_cons_of_pos rfl]
    exact Text.dropWhile_isBlank ht.1
  rw [values_enclose .tag ((unmarked_word k).spaced h), textTokens, Text.trim_spaced htrimmed]
  simp [tagTokens, contentAfterBlank, takeWhile_word, ofWord?_word, hstart, hn]

end Markup
end Stencil
