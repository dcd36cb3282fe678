import Mathlib.Algebra.Group.Nat.Even
import Stencil.Proofs.Markup.Between
import Stencil.Proofs.Document.BlockTiling
import Stencil.Proofs.Render.Concatenation

/-!
# Comments

A comment goes up to the next `#}`, and all before it is hidden, other markers, words and quotes
included (`Template.render_commented`). Markers are cut from left to right, so a brace right before
the `#}` takes the `#` for a marker of its own, if no brace before it has paired up with it; then
nothing is left to close the comment.
-/
namespace Stencil

namespace Markup

/-! ## The end of a text -/

/-- The number of opening braces that a text ends in. -/
def bracesAtEnd (cs : List Char) : Nat := (cs.reverse.takeWhile (· == '\x7b')).length

theorem bracesAtEnd_le (cs : List Char) : bracesAtEnd cs ≤ cs.length := by
  have h : (cs.reverse.takeWhile (· == '\x7b')).length ≤ cs.reverse.length :=
    (List.takeWhile_prefix _).length_le
  rwa [List.length_reverse] at h

/-- A character in front counts when it is a brace and only braces follow. -/
theorem bracesAtEnd_cons (c : Char) (cs : List Char) :
    bracesAtEnd (c :: cs) =
      if bracesAtEnd cs = cs.length ∧ c = '\x7b' then bracesAtEnd cs + 1 else bracesAtEnd cs := by
  unfold bracesAtEnd
  rw [List.reverse_cons, List.takeWhile_append, List.length_reverse]
  by_cases hall : (cs.reverse.takeWhile (· == '\x7b')).length = cs.length
  · by_cases hc : c = '\x7b' <;> simp [hall, hc]
  · simp [hall]

theorem bracesAtEnd_snoc (cs : List Char) : bracesAtEnd (cs ++ ['\x7b']) = bracesAtEnd cs + 1 := by
  simp [bracesAtEnd]

theorem exists_snoc_of_bracesAtEnd {cs : List Char} (h : bracesAtEnd cs ≠ 0) :
    ∃ ds, cs = ds ++ ['\x7b'] := by
  cases hr : cs.reverse with
  | nil => simp [bracesAtEnd, hr] at h
  | cons c ds =>
    obtain rfl : c = '\x7b' := by
      refine Classical.byContradiction fun hc => h ?_
      simp [bracesAtEnd, hr, hc]
    exact ⟨ds.reverse, by rw [← List.reverse_reverse cs, hr, List.reverse_cons]⟩

/-- The last character of pieces that end in a run of text. -/
def textEnd (ps : List Piece) : Option Char :=
  match ps.getLast? with
  | some (.text cs) => cs.getLast?
  | _ => none

theorem textEnd_marker (m : Marker) (ps : List Piece) : textEnd (.marker m :: ps) = textEnd ps := by
  cases ps with
  | nil => rfl
  | cons p ps => rw [textEnd, List.getLast?_cons_cons, textEnd]

theorem textEnd_addChar (c : Char) {ps : List Piece} (hp : ps ≠ [])
    (hn : ∀ cs, .text cs ∈ ps → cs ≠ []) : textEnd (addChar c ps) = textEnd ps := by
  rcases ps with _ | ⟨m | cs, _ | ⟨p, ps⟩⟩
  · exact absurd rfl hp
  · rfl
  · rfl
  · obtain ⟨d, ds, rfl⟩ := List.exists_cons_of_ne_nil (hn cs List.mem_cons_self)
    rfl
  · rfl

/-- The pieces of a text end in a brace that is no marker when the braces at its end do not pair. -/
theorem textEnd_pieces (cs : List Char) :
    textEnd (pieces cs) = some '\x7b' ↔ ¬ Even (bracesAtEnd cs) := by
  induction cs using pieces.induct with
  | case1 c d cs m hm ih =>
    rw [pieces, hm]
    dsimp only
    rw [textEnd_marker, ih]
    -- the second character of a marker is an opening brace only if the first is, so that they pair
    have hpair : d = '\x7b' → c = '\x7b' := by
      rintro rfl
      refine Classical.byContradiction fun hc => ?_
      simp [marker?, hc] at hm
    have hle := bracesAtEnd_le cs
    rw [bracesAtEnd_cons, bracesAtEnd_cons, List.length_cons]
    by_cases hd : bracesAtEnd cs = cs.length ∧ d = '\x7b'
    · rw [if_pos hd, if_pos ⟨by rw [hd.1], hpair hd.2⟩]
      simp [Nat.even_add_one]
    · rw [if_neg hd, if_neg fun h => by omega]
  | case2 c d cs hm ih =>
    rw [pieces, hm]
    dsimp only
    rw [textEnd_addChar c (pieces_ne_nil d cs) fun _ => ne_nil_of_mem_pieces, ih]
    -- two braces are a marker
    have hpair : d = '\x7b' → c ≠ '\x7b' := by
      rintro rfl rfl
      cases hm
    have hle := bracesAtEnd_le cs
    have hfront : ¬ (bracesAtEnd (d :: cs) = (d :: cs).length ∧ c = '\x7b') := by
      rintro ⟨hall, hc⟩
      rw [bracesAtEnd_cons, List.length_cons] at hall
      split at hall
      · rename_i hd
        exact hpair hd.2 hc
      · omega
    rw [bracesAtEnd_cons c, if_neg hfront]
  | case3 c =>
    by_cases hc : c = '\x7b' <;> simp [pieces, textEnd, bracesAtEnd, hc]
  | case4 => simp [pieces, textEnd, bracesAtEnd]

/-- A text whose braces at the end pair stands apart from what does not begin with a closing one. -/
theorem apart_of_even {a b : List Char} (h : Even (bracesAtEnd a)) (hb : b.head? ≠ some '\x7d') :
    Apart a b := by
  rintro ps u c d cs hp rfl
  have hc : c ≠ '\x7b' := by
    rintro rfl
    refine (textEnd_pieces a).1 ?_ h
    simp [hp, textEnd]
  have hd : d ≠ '\x7d' := by simpa using hb
  simp [marker?, hc, hd]

/-! ## The pieces of a comment -/

variable {cs : List Char}

theorem infix_of_mem_pieces {m : Marker} (h : .marker m ∈ pieces cs) : m.chars <:+: cs := by
  obtain ⟨ps, qs, hp⟩ := List.append_of_mem h
  refine ⟨chars ps, chars qs, ?_⟩
  rw [← chars_pieces cs, hp]
  simp [Piece.chars]

/-- Braces that pair leave the closing marker alone. -/
theorem pieces_comment (h : Even (bracesAtEnd cs)) :
    pieces (between .comment cs) =
      .marker (.opening .comment) :: (pieces cs ++ [.marker (.closing .comment)]) := by
  have hapart : Apart cs (Marker.closing .comment).chars := apart_of_even h (by decide)
  have hclosing : pieces (Marker.closing .comment).chars = [.marker (.closing .comment)] := rfl
  rw [between, pieces_marker, pieces_append_of_marker hapart hclosing, hclosing]

/-- A brace without a partner opens another comment with the closing marker. -/
theorem pieces_unpaired (h : Even (bracesAtEnd cs)) :
    pieces (between .comment (cs ++ ['\x7b'])) = .marker (.opening .comment) ::
      (pieces cs ++ [.marker (.opening .comment), .text ['\x7d']]) := by
  have hapart : Apart cs ['\x7b', '#', '\x7d'] := apart_of_even h (by decide)
  have hsplit : between .comment (cs ++ ['\x7b']) =
      (Marker.opening .comment).chars ++ (cs ++ ['\x7b', '#', '\x7d']) := by
    simp [between, Marker.chars]
  have hopening : pieces ['\x7b', '#', '\x7d'] =
      [.marker (.opening .comment), .text ['\x7d']] := rfl
  rw [hsplit, pieces_marker, pieces_append_of_marker hapart hopening, hopening]

theorem marker_of_mem_pieceTokens {m : Marker} {s : Span} {context : Option Delimiter}
    {offset : Nat} {ps : List Piece} (h : ⟨.marker m, s⟩ ∈ pieceTokens context offset ps) :
    .marker m ∈ ps := by
  obtain ⟨us, ts, hts⟩ := List.append_of_mem h
  obtain ⟨qs, rest, rfl, -⟩ := exists_pieces_of_marker hts
  simp

end Markup

/-! ## Reading a comment -/

open Markup

namespace Block

/-- Inside a comment nothing but its end is looked at. -/
theorem run_comment {start : Nat} {bs : List Block} {os : List Opening} :
    ∀ {ts : List (Located Markup.Token)}, (∀ t ∈ ts, t.value ≠ .marker (.closing .comment)) →
      (State.mk (.comment start) bs os).run ts = .ok ⟨.comment start, bs, os⟩
  | [], _ => rfl
  | t :: ts, h => by
    obtain ⟨ht, hts⟩ := List.forall_mem_cons.1 h
    exact run_cons_eq_ok_iff.2 ⟨_, next?_of_step (.comment start t.value ht), run_comment hts⟩

/-- Pieces without the end of a comment leave the parser inside of it. -/
theorem run_hidden {start : Nat} {bs : List Block} {os : List Opening} {context : Option Delimiter}
    {offset : Nat} {ps : List Piece} (h : .marker (.closing .comment) ∉ ps) :
    (State.mk (.comment start) bs os).run (pieceTokens context offset ps) =
      .ok ⟨.comment start, bs, os⟩ := by
  refine run_comment fun t ht => ?_
  obtain ⟨value, span⟩ := t
  rintro rfl
  exact h (marker_of_mem_pieceTokens ht)

end Block

namespace Document

variable {cs : List Char}

/-- The document of a comment. -/
theorem read_comment (h : ¬ (Marker.closing .comment).chars <:+: cs)
    (he : Even (bracesAtEnd cs)) :
    read (between .comment cs) = .ok [.comment ⟨0, Text.byteLength (between .comment cs)⟩] := by
  have hlength : Text.byteLength (between .comment cs) = 0 + 2 + Text.byteLength cs + 2 := by
    rw [between, Text.byteLength_append, Text.byteLength_append, byteLength_marker,
      byteLength_marker]
    omega
  refine read_eq_ok_iff.2 ⟨[.comment ⟨0, Text.byteLength (between .comment cs)⟩], ?_, rfl⟩
  rw [scan, pieces_comment he, pieceTokens, pieceTokens_append, chars_pieces, hlength]
  have hhidden : .marker (.closing .comment) ∉ pieces cs := fun hmem => h (infix_of_mem_pieces hmem)
  exact Block.run_cons_eq_ok_iff.2
    ⟨_, rfl, Block.run_append_eq_ok_iff.2 ⟨_, Block.run_hidden hhidden, rfl⟩⟩

/-- A comment that nothing closes is no document. -/
theorem read_unpaired (h : ¬ (Marker.closing .comment).chars <:+: cs)
    (he : ¬ Even (bracesAtEnd cs)) (ns : List Node) : read (between .comment cs) ≠ .ok ns := by
  have hne : bracesAtEnd cs ≠ 0 := fun h0 => he (h0 ▸ Even.zero)
  obtain ⟨ds, rfl⟩ := exists_snoc_of_bracesAtEnd hne
  rw [bracesAtEnd_snoc, Nat.even_add_one, not_not] at he
  have hds : .marker (.closing .comment) ∉ pieces ds := fun hmem =>
    h ((infix_of_mem_pieces hmem).trans (List.prefix_append ds _).isInfix)
  have hhidden : .marker (.closing .comment) ∉
      pieces ds ++ [.marker (.opening .comment), .text ['\x7d']] := by
    simp [hds]
  intro hread
  obtain ⟨bs, hrun, -⟩ := read_eq_ok_iff.1 hread
  rw [scan, pieces_unpaired he, pieceTokens] at hrun
  obtain ⟨s, hs, hrun⟩ := Block.run_cons_eq_ok_iff.1 hrun
  cases hs
  have hinside := hrun.symm.trans (Block.run_hidden hhidden)
  cases hinside

end Document

namespace Template

/-- A text between the markers of a comment. -/
def commented (text : String) : String := "\x7b#" ++ text ++ "#\x7d"

theorem toList_commented (text : String) :
    (commented text).toList = between .comment text.toList := by
  simp [commented, between, Marker.chars, String.toList_append]

/-- **A comment hides what is in it.** Behind `{#`, a text without `#}` in it and then `#}` compile
to one comment, which puts out nothing and leaves the host alone, unless the text ends in a number
of braces that do not pair; then there is no end of a comment in the source, and it does not
compile. -/
theorem render_commented {text : String}
    (h : ¬ (Marker.closing .comment).chars <:+: text.toList) :
    (Even (bracesAtEnd text.toList) → ∃ t, compile (commented text) = .ok t ∧
      t.nodes = [.comment ⟨0, Text.byteLength (commented text).toList⟩] ∧
      ∀ {σ : Type} (host : Host σ) (library : Library) (config : Config) (context : Context)
        (state : σ), t.render host library config context state = (.ok "", state)) ∧
    (¬ Even (bracesAtEnd text.toList) → ∃ error, compile (commented text) = .error error) := by
  constructor
  · intro he
    have hread := Document.read_comment h he
    rw [← toList_commented] at hread
    refine ⟨_, compile_eq_ok_iff.2 ⟨_, hread, rfl⟩, rfl, ?_⟩
    intro σ host library config context state
    rw [render, Document.render_eq]
    simp [meaningAll, Node.meaning]
    rfl
  · intro he
    cases hc : compile (commented text) with
    | error error => exact ⟨error, rfl⟩
    | ok t =>
      obtain ⟨ns, hread, -⟩ := compile_eq_ok_iff.1 hc
      rw [toList_commented] at hread
      exact absurd hread (Document.read_unpaired h he ns)

/-- Markers, words, a quote and two braces at the end. -/
def crowded : String := " \x7b\x7b x %\x7d 'é \x7b% endif # \x7d \x7b#\x7b\x7b"

/-- Two braces pair, three do not. -/
theorem render_commented_crowded :
    (¬ (Marker.closing .comment).chars <:+: crowded.toList ∧ Even (bracesAtEnd crowded.toList) ∧
      ∃ t, compile (commented crowded) = .ok t ∧ t.nodes = [.comment ⟨0, 34⟩] ∧
        ∀ {σ : Type} (host : Host σ) (library : Library) (config : Config) (context : Context)
          (state : σ), t.render host library config context state = (.ok "", state)) ∧
    (¬ (Marker.closing .comment).chars <:+: (crowded ++ "\x7b").toList ∧
      ¬ Even (bracesAtEnd (crowded ++ "\x7b").toList) ∧
      ∃ error, compile (commented (crowded ++ "\x7b")) = .error error) :=
  have hclean : ¬ (Marker.closing .comment).chars <:+: crowded.toList := by decide
  have heven : Even (bracesAtEnd crowded.toList) := by decide
  have hclean' : ¬ (Marker.closing .comment).chars <:+: (crowded ++ "\x7b").toList := by decide
  have hodd : ¬ Even (bracesAtEnd (crowded ++ "\x7b").toList) := by decide
  ⟨⟨hclean, heven, (render_commented hclean).1 heven⟩,
    ⟨hclean', hodd, (render_commented hclean').2 hodd⟩⟩

/-- One brace is no end of a comment, and yet is not hidden by one. -/
theorem not_hidden_brace :
    ¬ (Marker.closing .comment).chars <:+: "\x7b".toList ∧
      compile (commented "\x7b") =
        .error ⟨.markup none ["'#\x7d'", "any token"], ⟨5, 5⟩, ⟨1, 6⟩⟩ :=
  ⟨by decide, by with_unfolding_all rfl⟩

end Template
end Stencil
