import Stencil.Proofs.Expr.Nesting

/-!
# Embedded expressions

The expressions of a template are read where they stand in it, with the offset of their text added
to all places. That is the same as reading the text on its own and moving what comes out
(`parseAt_embedded`): a tree with all its spans (`Expr.spans_mapSpan`), an error with its span, and
with the location that the template has there.
-/
namespace Stencil

open Places (leaf)

/-! ## Spans of a moved tree -/

@[simp] theorem spans_leaf (s : Span) : (leaf s).spans = [s] := rfl

section
variable (f : Span → Span)

theorem DottedName.spans_mapSpan (n : DottedName) :
    spansAll (n.mapSpan f).places = (spansAll n.places).map f := by
  obtain ⟨is⟩ := n
  induction is with
  | nil => rfl
  | cons i is ih => exact congrArg (f i.span :: ·) ih

mutual

/-- The spans of a tree are changed one by one, and none is left out. -/
theorem Expr.spans_mapSpan : ∀ e : Expr, (e.mapSpan f).places.spans = e.places.spans.map f
  | .literal s v | .name s v => rfl
  | .attribute s b a => by
    simp only [Expr.mapSpan, Expr.places, Places.spans, spansAll, Expr.spans_mapSpan b, spans_leaf,
      Ident.mapSpan, List.map_cons, List.map_append, List.map_nil, List.append_nil]
  | .index s l r | .arith s _ l r | .compare s _ l r | .logic s _ l r => by
    simp only [Expr.mapSpan, Expr.places, Places.spans, spansAll, Expr.spans_mapSpan l,
      Expr.spans_mapSpan r, List.map_cons, List.map_append, List.append_nil]
  | .call s c as ks => by
    simp only [Expr.mapSpan, Expr.places, Places.spans, spansAll, spansAll_append,
      Expr.spans_mapSpan c, spans_mapSpans as, spans_mapKeywordSpans ks, List.map_cons,
      List.map_append]
  | .filter s i n as ks => by
    simp only [Expr.mapSpan, Expr.places, Places.spans, spansAll, spansAll_append,
      Expr.spans_mapSpan i, DottedName.spans_mapSpan, spans_mapSpans as, spans_mapKeywordSpans ks,
      List.map_cons, List.map_append]

theorem spans_mapSpans (es : List Expr) :
    spansAll (placesAll (mapSpans f es)) = (spansAll (placesAll es)).map f := by
  cases es with
  | nil => rfl
  | cons e es =>
    simp only [mapSpans, placesAll, spansAll, Expr.spans_mapSpan e, spans_mapSpans es,
      List.map_append]

theorem spans_mapKeywordSpans (ks : List (Ident × Expr)) :
    spansAll (keywordPlaces (mapKeywordSpans f ks)) = (spansAll (keywordPlaces ks)).map f := by
  cases ks with
  | nil => rfl
  | cons k ks =>
    cases k with
    | mk i e =>
      simp only [mapKeywordSpans, keywordPlaces, spansAll, spans_leaf, Expr.spans_mapSpan e,
        spans_mapKeywordSpans ks, Ident.mapSpan, List.map_append, List.map_cons, List.map_nil]

end

end

/-! ## Reading in a template -/

/-- The error of a text that begins at byte `base` of an indexed template, from that of the text on
its own: the fault is the same, the span is moved, and the location is looked up in the template. -/
def ParseError.embed (base : Nat) (index : LineIndex) (e : ParseError) : ParseError :=
  ⟨e.fault, e.span.shift base, index.locate (base + e.span.start)⟩

namespace Expr

/-- **An embedded expression is read as it is on its own.** At byte `base` of a template a text is
accepted exactly when it is accepted alone, with the same tree, every span of which is moved by
`base`; or it is refused for the same fault, the span of which is moved by `base` and located in the
template. -/
theorem parseAt_embedded (base : Nat) (text : List Char) (index : LineIndex) :
    parseAt base text index =
      ((parse text).map (shift base)).mapError (ParseError.embed base index) ∧
    ∀ e : Expr, (e.shift base).bare = e.bare ∧
      (e.shift base).places.spans = e.places.spans.map (Span.shift base) := by
  refine ⟨?_, fun e => ⟨e.bare_mapSpan _, e.spans_mapSpan _⟩⟩
  have hshift := readAt_shift base 0 text
  rw [Nat.add_zero] at hshift
  rw [parse, parseAt, parseAt, hshift]
  cases readAt 0 text with
  | error fault => rfl
  | ok e => rfl

end Expr
end Stencil
