import Stencil.Proofs.Markup.Between

/-!
# Fragments

The rules that a template is cut by: a fragment is a marker, a run of characters that no marker is
made of, or one character of a marker (`IsFragment`). At every place the longest fragment is taken
(`Fragments`). There always is one, so every source is cut up to its end (`exists_fragments`), and
the pieces of a source are its fragments with neighbouring texts as one (`joinTexts_of_fragments`).
-/
namespace Stencil.Markup

/-- Markers are made of this character. -/
def isMarkerPart (c : Char) : Bool := c == '\x7b' || c == '\x7d' || c == '%' || c == '#'

/-- The text is one fragment. -/
inductive IsFragment : List Char → Piece → Prop
  | marker (m : Marker) : IsFragment m.chars (.marker m)
  | run {u : List Char} : u ≠ [] → (∀ c ∈ u, isMarkerPart c = false) → IsFragment u (.text u)
  | stray {c : Char} : isMarkerPart c = true → IsFragment [c] (.text [c])

/-- No fragment at the start of the text is longer than `u`. -/
def Longest (u text : List Char) : Prop :=
  ∀ v p, IsFragment v p → v <+: text → v.length ≤ u.length

/-- The text is cut into fragments, the longest one at each place. -/
inductive Fragments : List Char → List Piece → Prop
  | nil : Fragments [] []
  | cons {u cs : List Char} {p : Piece} {ps : List Piece} : IsFragment u p → Longest u (u ++ cs) →
    Fragments cs ps → Fragments (u ++ cs) (p :: ps)

/-- A text put in front of pieces. -/
def addText (u : List Char) : List Piece → List Piece
  | .text cs :: ps => .text (u ++ cs) :: ps
  | ps => .text u :: ps

/-- Pieces with neighbouring texts as one. -/
def joinTexts : List Piece → List Piece
  | [] => []
  | .marker m :: ps => .marker m :: joinTexts ps
  | .text cs :: ps => addText cs (joinTexts ps)

variable {c d : Char} {u cs : List Char} {m : Marker} {p : Piece} {ps : List Piece}

/-! ## Every text has fragments -/

theorem exists_pair (m : Marker) : ∃ c d, m.chars = [c, d] ∧ isMarkerPart c = true := by
  obtain ⟨d⟩ | ⟨d⟩ := m <;> cases d <;> exact ⟨_, _, rfl, rfl⟩

theorem marker?_eq_none_of_isMarkerPart (h : isMarkerPart c = false) (d : Char) :
    marker? c d = none := by
  refine marker?_eq_none_iff.2 fun m hm => ?_
  obtain ⟨x, y, hxy, hx⟩ := exists_pair m
  obtain ⟨rfl, -⟩ := List.cons.inj (hxy.symm.trans hm)
  rw [h] at hx
  cases hx

/-- What a fragment at the start of a text can be, by the first character of the text. -/
theorem IsFragment.cases_prefix {v : List Char} (h : IsFragment v p) (hv : v <+: c :: cs) :
    v = [c] ∨ (∃ d ∈ cs.head?, ∃ m, marker? c d = some m ∧ v = [c, d]) ∨
      isMarkerPart c = false ∧ ∀ x ∈ v, isMarkerPart x = false := by
  cases h with
  | marker m =>
    obtain ⟨x, y, hm, -⟩ := exists_pair m
    rw [hm, List.cons_prefix_cons] at hv
    obtain ⟨rfl, rest, rfl⟩ := hv
    exact .inr (.inl ⟨y, rfl, m, marker?_eq_some_iff.2 hm, hm⟩)
  | run hne hall =>
    obtain ⟨x, v, rfl⟩ := List.exists_cons_of_ne_nil hne
    obtain ⟨rfl, -⟩ := List.cons_prefix_cons.1 hv
    exact .inr (.inr ⟨hall x List.mem_cons_self, hall⟩)
  | stray hx =>
    obtain ⟨rfl, -⟩ := List.cons_prefix_cons.1 hv
    exact .inl rfl

theorem longest_marker (m : Marker) (cs : List Char) : Longest m.chars (m.chars ++ cs) := by
  intro v p hv hprefix
  obtain ⟨x, y, hm, hx⟩ := exists_pair m
  rw [hm] at hprefix ⊢
  rcases hv.cases_prefix hprefix with rfl | ⟨d, -, m, -, rfl⟩ | ⟨hc, -⟩
  · exact Nat.le_succ 1
  · exact Nat.le_refl 2
  · rw [hx] at hc
    cases hc

theorem longest_stray (hc : isMarkerPart c = true) (hn : ∀ d ∈ cs.head?, marker? c d = none) :
    Longest [c] ([c] ++ cs) := by
  intro v p hv hprefix
  rcases hv.cases_prefix hprefix with rfl | ⟨d, hd, m, hm, -⟩ | ⟨hc', -⟩
  · exact Nat.le_refl 1
  · rw [hn d hd] at hm
    cases hm
  · rw [hc] at hc'
    cases hc'

theorem longest_run (hc : isMarkerPart c = false) :
    Longest (c :: cs.takeWhile (!isMarkerPart ·)) (c :: cs) := by
  intro v p hv hprefix
  rcases hv.cases_prefix hprefix with rfl | ⟨d, -, m, hm, -⟩ | ⟨-, hall⟩
  · simp
  · rw [marker?_eq_none_of_isMarkerPart hc] at hm
    cases hm
  · obtain ⟨rest, hrest⟩ := hprefix
    have hrun : (v ++ rest).takeWhile (!isMarkerPart ·) = c :: cs.takeWhile (!isMarkerPart ·) := by
      rw [hrest, List.takeWhile_cons_of_pos (by simp [hc])]
    rw [← hrun, List.takeWhile_append_of_pos fun x hx => by simp [hall x hx], List.length_append]
    exact Nat.le_add_right _ _

/-- **Every text is cut up to its end.** -/
theorem exists_fragments : ∀ cs : List Char, ∃ ps, Fragments cs ps
  | [] => ⟨[], .nil⟩
  | c :: cs => by
    cases hc : isMarkerPart c with
    | false =>
      obtain ⟨ps, hps⟩ := exists_fragments (cs.dropWhile (!isMarkerPart ·))
      have hcut : c :: cs.takeWhile (!isMarkerPart ·) ++ cs.dropWhile (!isMarkerPart ·) =
          c :: cs := congrArg (c :: ·) List.takeWhile_append_dropWhile
      have hall : ∀ x ∈ c :: cs.takeWhile (!isMarkerPart ·), isMarkerPart x = false :=
        List.forall_mem_cons.2 ⟨hc, fun x hx => by
          simpa using List.all_eq_true.1 List.all_takeWhile x hx⟩
      have hlongest : Longest (c :: cs.takeWhile (!isMarkerPart ·)) (c :: cs) := longest_run hc
      rw [← hcut] at hlongest ⊢
      exact ⟨_, .cons (.run (List.cons_ne_nil _ _) hall) hlongest hps⟩
    | true =>
      by_cases hn : ∀ d ∈ cs.head?, marker? c d = none
      · obtain ⟨ps, hps⟩ := exists_fragments cs
        exact ⟨_, .cons (.stray hc) (longest_stray hc hn) hps⟩
      · obtain ⟨d, hd, hm⟩ : ∃ d ∈ cs.head?, marker? c d ≠ none := by simpa using hn
        obtain ⟨m, hm⟩ := Option.ne_none_iff_exists'.1 hm
        obtain ⟨rest, hrest⟩ := List.head?_eq_some_iff.1 hd
        obtain ⟨ps, hps⟩ := exists_fragments rest
        have hchars : c :: cs = m.chars ++ rest := by
          rw [marker?_eq_some_iff.1 hm, hrest]
          rfl
        rw [hchars]
        exact ⟨_, .cons (.marker m) (longest_marker m rest) hps⟩
termination_by cs => cs.length
decreasing_by
  · have hle := (List.dropWhile_suffix (!isMarkerPart ·) (l := cs)).length_le
    simp
    omega
  · simp
  · simp only [hrest, List.length_cons]
    omega

/-! ## Fragments and pieces -/

theorem pieces_cons (hn : ∀ d ∈ cs.head?, marker? c d = none) :
    pieces (c :: cs) = addChar c (pieces cs) := by
  cases cs with
  | nil => rfl
  | cons d cs => rw [pieces, hn d rfl]

theorem addChar_eq_addText (c : Char) (ps : List Piece) : addChar c ps = addText [c] ps := by
  rcases ps with _ | ⟨m | cs, ps⟩ <;> rfl

theorem addChar_addText (c : Char) (u : List Char) (ps : List Piece) :
    addChar c (addText u ps) = addText (c :: u) ps := by
  rcases ps with _ | ⟨m | cs, ps⟩ <;> rfl

theorem pieces_run (hne : u ≠ []) (hall : ∀ c ∈ u, isMarkerPart c = false) (cs : List Char) :
    pieces (u ++ cs) = addText u (pieces cs) := by
  induction u with
  | nil => exact absurd rfl hne
  | cons c u ih =>
    obtain ⟨hc, hu⟩ := List.forall_mem_cons.1 hall
    rw [List.cons_append, pieces_cons fun d _ => marker?_eq_none_of_isMarkerPart hc d]
    cases u with
    | nil => exact addChar_eq_addText c _
    | cons d u => rw [ih (List.cons_ne_nil d u) hu, addChar_addText]

/-- **The pieces of a source are its fragments**, with neighbouring texts as one. -/
theorem joinTexts_of_fragments (h : Fragments cs ps) : joinTexts ps = pieces cs := by
  induction h with
  | nil => rfl
  | @cons u cs p ps hu hlongest _ ih =>
    cases hu with
    | marker m => rw [pieces_marker, ← ih]; rfl
    | run hne hall => rw [pieces_run hne hall, ← ih]; rfl
    | @stray c hc =>
      have hn : ∀ d ∈ cs.head?, marker? c d = none := by
        intro d hd
        obtain ⟨cs, rfl⟩ := List.head?_eq_some_iff.1 hd
        refine Option.eq_none_iff_forall_ne_some.2 fun m hm => ?_
        have hchars := marker?_eq_some_iff.1 hm
        have hle := hlongest m.chars _ (.marker m) ⟨cs, by rw [hchars]; rfl⟩
        rw [hchars] at hle
        simp at hle
      rw [List.singleton_append, pieces_cons hn, addChar_eq_addText, ← ih]
      rfl

end Stencil.Markup
