import Stencil.Document.Read
import Stencil.Proofs.Document.Reading
import Stencil.Proofs.Document.TagFaultPlace

/-!
# Where a document is refused

Each part of a document is refused at a range of the source, at any depth: its blocks
(`Block.refused_of_parse`) and what their contents are read as (`Node.usable_of_ofBlocks`). Only a
source that ends too early has a range that runs backwards, over the white space at its end
(`Document.placed_of_parse`).
-/
namespace Stencil

variable {source : List Char}

/-! ## Blocks -/

namespace Markup

variable {context : Option Delimiter} {a b : Nat}

/-- There is only white space behind the last token. -/
theorem TokensSpelled.gap_last : ∀ {ts : List (Located Token)} {context : Option Delimiter} {a : Nat},
    TokensSpelled source context a b ts → ∀ t ∈ ts.getLast?, Text.Gap source t.span.stop b
  | [], _, _, _ => by simp
  | [t], _, _, ⟨_, _, _, h⟩ => by
    intro u hu
    obtain rfl : t = u := by simpa using hu
    exact h
  | _ :: u :: ts, _, _, ⟨_, _, _, h⟩ => by
    rw [List.getLast?_cons_cons]
    exact h.gap_last

end Markup

namespace Block

open Markup

variable {context : Option Delimiter} {p q : Nat} {s : State} {f : Failure}

/-- A refusal is placed at what was found, or at the end of the comment before it. -/
theorem State.Spelled.refuse (h : s.Spelled source context p) (found : Option Markup.Token)
    (span : Span) :
    (s.refuse found span).span.Proper source ∨
      (s.refuse found span).span = span ∧ (s.refuse found span).found = found := by
  obtain ⟨mode, bs, os⟩ := s
  obtain ⟨-, hbs, -⟩ := h
  unfold State.refuse
  split
  · exact .inr ⟨rfl, rfl⟩
  · rename_i last hlast
    unfold State.lastComment? at hlast
    split at hlast
    · rename_i hblocks
      obtain rfl := Option.some.inj hlast
      dsimp only at hblocks hbs
      rw [hblocks] at hbs
      exact .inl hbs.1
    · cases hlast

/-- A run refuses a token at a piece of the source. -/
theorem proper_of_run : ∀ {ts : List (Located Markup.Token)} {s : State}
    {context : Option Delimiter} {p : Nat}, TokensSpelled source context p q ts →
    s.Spelled source context p → s.run ts = .error f → f.span.Proper source
  | [], _, _, _, _, _, h => by cases h
  | t :: ts, s, context, p, ⟨hg, ht, hc, hts⟩, hs, h => by
    have hrun : s.run (t :: ts) = s.step t >>= fun next => next.run ts := rfl
    rw [hrun] at h
    rcases bind_eq_error_iff.1 h with h | ⟨next, hn, h⟩
    · unfold State.step at h
      split at h
      · cases h
      · cases h
        rcases hs.refuse (some t.value) t.span with hproper | ⟨hspan, -⟩
        · exact hproper
        · rw [hspan]
          exact ht.proper
    · exact proper_of_run hts (next?_spelled (step_eq_ok_iff.1 hn) hg ht hc hs) h

/-- The end of the source runs back over the white space behind the last token. -/
theorem gap_endSpan {ts : List (Located Markup.Token)}
    (h : TokensSpelled source context 0 (Text.byteLength source) ts) :
    (endSpan (Text.byteLength source) ts).start = Text.byteLength source ∧
      Text.Gap source (endSpan (Text.byteLength source) ts).stop (Text.byteLength source) := by
  unfold endSpan
  cases hlast : ts.getLast? with
  | none => exact ⟨rfl, .refl (Text.isBoundary_byteLength source)⟩
  | some t => exact ⟨rfl, h.gap_last t hlast⟩

/-- **Blocks are refused at a piece of the source**, or the source ends too early. -/
theorem refused_of_parse (h : parse (Text.byteLength source) (scan source) = .error f) :
    f.span.Proper source ∨ f.found = none ∧ f.span.start = Text.byteLength source ∧
      Text.Gap source f.span.stop (Text.byteLength source) := by
  have hspelled := spelled_scan source
  unfold parse at h
  rcases bind_eq_error_iff.1 h with h | ⟨s, hs, h⟩
  · exact .inl (proper_of_run hspelled State.spelled_start h)
  · obtain ⟨context, p, hstate, -⟩ := run_spelled hspelled State.spelled_start hs
    unfold State.finish at h
    split at h
    · cases h
    · cases h
      rcases hstate.refuse none (endSpan _ (scan source)) with hproper | ⟨hspan, hfound⟩
      · exact .inl hproper
      · rw [hspan]
        exact .inr ⟨hfound, gap_endSpan hspelled⟩

theorem spelled_of_parse {bs : List Block}
    (h : parse (Text.byteLength source) (scan source) = .ok bs) : BlocksSpelled source bs := by
  obtain ⟨read, hrun, rfl⟩ := parse_eq_ok_iff.1 h
  exact spelled_of_run hrun

end Block

/-! ## Nodes -/

section
variable {f : Located ParseFault}

theorem Expr.usable_of_readContent {c : Located (List Char)} (hc : c.Cut source)
    (h : readContent c = .error f) : f.span.Usable source :=
  usable_of_tight hc.text (Text.tight_of_not_isBlank hc.trimmed.2) h

namespace Node

mutual

theorem usable_of_ofBlock : ∀ {b : Block}, ofBlock b = .error f → b.Spelled source →
    f.span.Usable source
  | .text _ _, h, _ | .comment _, h, _ => by cases h
  | .value span content, h, ⟨hc, _⟩ => by
    rcases bind_eq_error_iff.1 h with h | ⟨e, -, h⟩
    · exact Expr.usable_of_readContent hc h
    · cases h
  | .tag span content, h, ⟨hc, _⟩ => by
    rcases bind_eq_error_iff.1 h with h | ⟨call, -, h⟩
    · exact Tag.usable_of_call hc h
    · cases h
  | .conditional span test body orelse, h, ⟨hc, hbody, horelse⟩ => by
    rcases bind_eq_error_iff.1 h with h | ⟨t, -, h⟩
    · exact Expr.usable_of_readContent hc h
    rcases bind_eq_error_iff.1 h with h | ⟨b, -, h⟩
    · exact usable_of_ofBlocks h hbody
    rcases bind_eq_error_iff.1 h with h | ⟨o, -, h⟩
    · exact usable_of_ofBlocks h horelse
    · cases h
  | .loop span header body orelse, h, ⟨hc, hbody, horelse⟩ => by
    rcases bind_eq_error_iff.1 h with h | ⟨⟨x, e⟩, -, h⟩
    · exact Tag.usable_of_loopHeader hc h
    rcases bind_eq_error_iff.1 h with h | ⟨b, -, h⟩
    · exact usable_of_ofBlocks h hbody
    rcases bind_eq_error_iff.1 h with h | ⟨o, -, h⟩
    · exact usable_of_ofBlocks h horelse
    · cases h

/-- **What is in the blocks is refused at a range of the source**, at any depth. -/
theorem usable_of_ofBlocks : ∀ {bs : List Block}, ofBlocks bs = .error f →
    BlocksSpelled source bs → f.span.Usable source
  | [], h, _ => by cases h
  | b :: bs, h, ⟨hb, hbs⟩ => by
    rcases bind_eq_error_iff.1 h with h | ⟨n, -, h⟩
    · exact usable_of_ofBlock h hb
    rcases bind_eq_error_iff.1 h with h | ⟨ns, -, h⟩
    · exact usable_of_ofBlocks h hbs
    · cases h

end

end Node
end

/-! ## Documents -/

/-- The source ends where something else is expected, and the span runs from its end back to where the
white space there begins. -/
structure ParseError.AtEnd (source : List Char) (e : ParseError) : Prop where
  fault : ∃ expected, e.fault = .markup none expected
  start : e.span.start = Text.byteLength source
  stop : Text.Gap source e.span.stop (Text.byteLength source)

/-- Where an error points. -/
structure ParseError.Placed (source : List Char) (e : ParseError) : Prop where
  start : Text.IsBoundary source e.span.start
  stop : Text.IsBoundary source e.span.stop
  /-- The location is that of the start. -/
  location : ∀ before after, source = before ++ after →
    Text.byteLength before = e.span.start → e.location = Location.after before
  /-- The source can be cut at the span, unless it ends too early. -/
  range : (e.span.start ≤ e.span.stop ∧
    ∃ text, Text.slice source e.span.start e.span.stop = some text) ∨ e.AtEnd source

namespace Document

variable {e : ParseError}

theorem usable_of_read {f : Located ParseFault} (h : read source = .error f) :
    f.span.Usable source ∨ (ParseError.ofFault (.ofText source) f).AtEnd source := by
  have hread : read source = blocks source >>= Node.ofBlocks := rfl
  rw [hread] at h
  rcases bind_eq_error_iff.1 h with h | ⟨bs, hbs, h⟩
  · unfold blocks at h
    split at h
    · cases h
    · rename_i failure hparse
      cases h
      rcases Block.refused_of_parse hparse with hproper | ⟨hfound, hstart, hstop⟩
      · exact .inl hproper.usable
      · refine .inr ⟨⟨failure.expected, ?_⟩, hstart, hstop⟩
        rw [← hfound]
        rfl
  · exact .inl (Node.usable_of_ofBlocks h (Block.spelled_of_parse (blocks_eq_ok_iff.1 hbs)))

/-- **Every error points into its source.** Both ends of its span lie between two characters, its
location is that of the start, and the source can be cut at the span; only where the source ends too
early does the span run backwards, over the white space at the end. -/
theorem placed_of_parse (h : parse source = .error e) : e.Placed source := by
  unfold parse at h
  cases hread : read source with
  | ok ns =>
    rw [hread] at h
    cases h
  | error f =>
    rw [hread] at h
    obtain rfl := Except.error.inj h
    have hlocation : ∀ before after, source = before ++ after →
        Text.byteLength before = f.span.start →
        (LineIndex.ofText source).locate f.span.start = Location.after before := by
      rintro before after rfl hstart
      rw [← hstart]
      exact LineIndex.locate_byteLength before after
    rcases usable_of_read hread with husable | hend
    · exact ⟨husable.start, husable.stop, hlocation, .inl ⟨husable.le, husable.slice⟩⟩
    · obtain ⟨blank, hblank, -, -⟩ := hend.stop
      have hstart : f.span.start = Text.byteLength source := hend.start
      have hboundary := Text.isBoundary_byteLength source
      rw [← hstart] at hboundary
      exact ⟨hboundary, hblank.boundary, hlocation, .inr hend⟩

/-- A loop in the second line whose tag has no `in`. -/
def withoutIn : String := "é\n\x7b% for x on y %\x7d\x7b% endfor %\x7d"

theorem placed_of_parse_withoutIn :
    parse withoutIn.toList = .error ⟨.tag .missingIn, ⟨10, 16⟩, ⟨2, 8⟩⟩ ∧
      ParseError.Placed withoutIn.toList ⟨.tag .missingIn, ⟨10, 16⟩, ⟨2, 8⟩⟩ := by
  have hblocks : blocks withoutIn.toList =
      .ok [.text ⟨0, 3⟩ ['é', '\n'], .loop ⟨3, 31⟩ ⟨"x on y".toList, ⟨10, 16⟩⟩ [] []] := by
    with_unfolding_all rfl
  have hparse : parse withoutIn.toList = .error ⟨.tag .missingIn, ⟨10, 16⟩, ⟨2, 8⟩⟩ := by
    rw [parse_of_blocks hblocks]
    with_unfolding_all rfl
  exact ⟨hparse, placed_of_parse hparse⟩

/-- A value that is not closed, with white space at the end. -/
def unclosed : String := "\x7b\x7b x "

/-- The span of an error can run backwards. -/
theorem not_usable_unclosed :
    ∃ e, parse unclosed.toList = .error e ∧ e.span = ⟨5, 4⟩ ∧ ¬ e.span.Usable unclosed.toList := by
  have hparse : parse unclosed.toList =
      .error ⟨.markup none ["'\x7d\x7d'"], ⟨5, 4⟩, ⟨1, 6⟩⟩ := by
    with_unfolding_all rfl
  exact ⟨_, hparse, rfl, fun h => absurd h.le (by decide)⟩

end Document
end Stencil
