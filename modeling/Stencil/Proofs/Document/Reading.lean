import Stencil.Document.Read
import Stencil.Proofs.Document.Blocks
import Stencil.Proofs.Document.Expressions
import Stencil.Proofs.Expr.Named
import Stencil.Proofs.Render.Escaping

/-!
# Blocks as nodes

The blocks of a template are read one by one (`ofBlocks_append`); what they are read as moves with
them (`ofBlocks_shift`), and its filters have names (`named_of_ofBlocks`).
-/
namespace Stencil

/-! ## Nodes with other spans -/

theorem mapNodeSpans_eq_map (f : Span → Span) : ∀ ns : List Node,
    mapNodeSpans f ns = ns.map (Node.mapSpan f)
  | [] => rfl
  | n :: ns => by rw [mapNodeSpans, mapNodeSpans_eq_map f ns, List.map_cons]

mutual

theorem Node.mapSpan_mapSpan (f h : Span → Span) : ∀ n : Node,
    (n.mapSpan f).mapSpan h = n.mapSpan (h ∘ f)
  | .text _ _ | .comment _ => rfl
  | .value _ e => by simp only [Node.mapSpan, Expr.mapSpan_mapSpan, Function.comp]
  | .conditional _ t b o => by
    simp only [Node.mapSpan, Expr.mapSpan_mapSpan, mapNodeSpans_mapNodeSpans f h b,
      mapNodeSpans_mapNodeSpans f h o, Function.comp]
  | .loop _ x i b o => by
    simp only [Node.mapSpan, Expr.mapSpan_mapSpan, mapNodeSpans_mapNodeSpans f h b,
      mapNodeSpans_mapNodeSpans f h o, Function.comp, Ident.mapSpan]
  | .tag _ n as ks => by
    simp only [Node.mapSpan, DottedName.mapSpan_mapSpan, mapSpans_mapSpans,
      mapKeywordSpans_mapKeywordSpans, Function.comp]

theorem mapNodeSpans_mapNodeSpans (f h : Span → Span) : ∀ ns : List Node,
    mapNodeSpans h (mapNodeSpans f ns) = mapNodeSpans (h ∘ f) ns
  | [] => rfl
  | n :: ns => by
    simp only [mapNodeSpans, Node.mapSpan_mapSpan f h n, mapNodeSpans_mapNodeSpans f h ns]

end

/-- Every filter of the nodes has a name. -/
def NodesNamed (ns : List Node) : Prop := ∀ n ∈ nodeFilters ns, n.segments ≠ []

/-- No offset of the nodes lies behind `stop`. -/
def NodesBelow (stop : Nat) (ns : List Node) : Prop :=
  mapNodeSpans (Span.relocate (min stop)) ns = ns

/-! ## Reading -/

/-- The expression, the name and the parts that a block with a text is read as. -/
theorem Expr.readContent_shift (n : Nat) {content : Located (List Char)} {e : Expr}
    (h : readContent content = .ok e) :
    readContent (content.relocate (n + ·)) = .ok (e.relocate (n + ·)) := by
  have hshift := readAt_shift n content.span.start content.value
  unfold readContent at h ⊢
  rw [h] at hshift
  exact hshift

namespace Node

theorem ofBlocks_append {a b : List Block} {na nb : List Node} (ha : ofBlocks a = .ok na)
    (hb : ofBlocks b = .ok nb) : ofBlocks (a ++ b) = .ok (na ++ nb) := by
  induction a generalizing na with
  | nil =>
    cases ha
    exact hb
  | cons x a ih =>
    rw [ofBlocks] at ha
    obtain ⟨n, hn, ha⟩ := bind_eq_ok_iff.1 ha
    obtain ⟨ns, hns, ha⟩ := bind_eq_ok_iff.1 ha
    cases ha
    rw [List.cons_append, ofBlocks, hn, ih hns]
    rfl

theorem ofBlocks_of_append {a b : List Block} {ns : List Node} (h : ofBlocks (a ++ b) = .ok ns) :
    ∃ na nb, ofBlocks a = .ok na ∧ ofBlocks b = .ok nb ∧ ns = na ++ nb := by
  induction a generalizing ns with
  | nil => exact ⟨[], ns, rfl, h, rfl⟩
  | cons x a ih =>
    rw [List.cons_append, ofBlocks] at h
    obtain ⟨n, hn, h⟩ := bind_eq_ok_iff.1 h
    obtain ⟨ns', hns, h⟩ := bind_eq_ok_iff.1 h
    cases h
    obtain ⟨na, nb, ha, hb, rfl⟩ := ih hns
    refine ⟨n :: na, nb, ?_, hb, rfl⟩
    rw [ofBlocks, hn, ha]
    rfl

mutual

theorem ofBlock_shift (n : Nat) : ∀ {b : Block} {node : Node}, ofBlock b = .ok node →
    ofBlock (b.relocate (n + ·)) = .ok (node.mapSpan (Span.relocate (n + ·)))
  | .text span cs, node, h => by
    cases h
    rfl
  | .comment span, node, h => by
    cases h
    rfl
  | .value span content, node, h => by
    obtain ⟨e, he, h⟩ := bind_eq_ok_iff.1 h
    cases h
    rw [Block.relocate, ofBlock, Expr.readContent_shift n he]
    rfl
  | .tag span content, node, h => by
    obtain ⟨call, hc, h⟩ := bind_eq_ok_iff.1 h
    cases h
    rw [Block.relocate, ofBlock, Tag.call_shift n hc]
    rfl
  | .conditional span test body orelse, node, h => by
    obtain ⟨t, ht, h⟩ := bind_eq_ok_iff.1 h
    obtain ⟨b, hb, h⟩ := bind_eq_ok_iff.1 h
    obtain ⟨o, ho, h⟩ := bind_eq_ok_iff.1 h
    cases h
    rw [Block.relocate, ofBlock, Expr.readContent_shift n ht, ofBlocks_shift n hb,
      ofBlocks_shift n ho]
    rfl
  | .loop span header body orelse, node, h => by
    obtain ⟨⟨x, i⟩, hx, h⟩ := bind_eq_ok_iff.1 h
    obtain ⟨b, hb, h⟩ := bind_eq_ok_iff.1 h
    obtain ⟨o, ho, h⟩ := bind_eq_ok_iff.1 h
    cases h
    rw [Block.relocate, ofBlock, Tag.loopHeader_shift n hx, ofBlocks_shift n hb,
      ofBlocks_shift n ho]
    rfl

/-- **Blocks further on are read as the same nodes further on.** -/
theorem ofBlocks_shift (n : Nat) : ∀ {bs : List Block} {ns : List Node}, ofBlocks bs = .ok ns →
    ofBlocks (relocateBlocks (n + ·) bs) = .ok (mapNodeSpans (Span.relocate (n + ·)) ns)
  | [], ns, h => by
    cases h
    rfl
  | b :: bs, ns, h => by
    obtain ⟨node, hn, h⟩ := bind_eq_ok_iff.1 h
    obtain ⟨nodes, hns, h⟩ := bind_eq_ok_iff.1 h
    cases h
    rw [relocateBlocks, ofBlocks, ofBlock_shift n hn, ofBlocks_shift n hns]
    rfl

end

end Node

/-! ## Filters -/

theorem filtersAll_eq_flatMap (es : List Expr) : filtersAll es = es.flatMap Expr.filters := by
  induction es with
  | nil => rfl
  | cons e es ih => rw [filtersAll, ih, List.flatMap_cons]

theorem filtersKeywords_eq_flatMap (ks : List (Ident × Expr)) :
    filtersKeywords ks = (ks.map Prod.snd).flatMap Expr.filters := by
  induction ks with
  | nil => rfl
  | cons k ks ih =>
    obtain ⟨i, e⟩ := k
    rw [filtersKeywords, ih, List.map_cons, List.flatMap_cons]

mutual

theorem Node.filters_eq_flatMap : ∀ n : Node, n.filters = n.exprs.flatMap Expr.filters
  | .text _ _ | .comment _ => rfl
  | .value _ e => by rw [Node.filters, Node.exprs, List.flatMap_singleton]
  | .conditional _ t b o | .loop _ _ t b o => by
    rw [Node.filters, Node.exprs, nodeFilters_eq_flatMap b, nodeFilters_eq_flatMap o,
      List.flatMap_cons, List.flatMap_append, List.append_assoc]
  | .tag _ _ as ks => by
    rw [Node.filters, Node.exprs, filtersAll_eq_flatMap, filtersKeywords_eq_flatMap,
      List.flatMap_append]

/-- The filters of nodes are those of the expressions that stand in them. -/
theorem nodeFilters_eq_flatMap : ∀ ns : List Node,
    nodeFilters ns = (nodeExprs ns).flatMap Expr.filters
  | [] => rfl
  | n :: ns => by
    rw [nodeFilters, nodeExprs, Node.filters_eq_flatMap n, nodeFilters_eq_flatMap ns,
      List.flatMap_append]

end

/-- **Every filter of a document has a name.** -/
theorem Node.named_of_ofBlocks {bs : List Block} {ns : List Node} (h : ofBlocks bs = .ok ns) :
    NodesNamed ns := by
  intro n hn
  rw [nodeFilters_eq_flatMap] at hn
  obtain ⟨e, he, hne⟩ := List.mem_flatMap.1 hn
  obtain ⟨base, text, hread⟩ := isRead_of_ofBlocks h e he
  exact Expr.named_of_readAt hread n hne

/-! ## Documents -/

namespace Document

open Markup

theorem blocks_eq_ok_iff {source : List Char} {bs : List Block} :
    blocks source = .ok bs ↔ Block.parse (Text.byteLength source) (scan source) = .ok bs := by
  unfold blocks
  cases Block.parse (Text.byteLength source) (scan source) <;> simp

/-- A source is read when the block parser is between two blocks at its end with nothing open, and
its blocks can be read. -/
theorem read_eq_ok_iff {source : List Char} {ns : List Node} :
    read source = .ok ns ↔ ∃ bs, Block.State.start.run (scan source) = .ok ⟨.between, bs, []⟩ ∧
      Node.ofBlocks bs.reverse = .ok ns := by
  constructor
  · intro h
    obtain ⟨_, hblocks, hnodes⟩ := bind_eq_ok_iff.1 h
    obtain ⟨bs, hrun, rfl⟩ := Block.parse_eq_ok_iff.1 (blocks_eq_ok_iff.1 hblocks)
    exact ⟨bs, hrun, hnodes⟩
  · rintro ⟨bs, hrun, hnodes⟩
    have hblocks := blocks_eq_ok_iff.2 (Block.parse_eq_ok_iff.2 ⟨bs, hrun, rfl⟩)
    exact bind_eq_ok_iff.2 ⟨bs.reverse, hblocks, hnodes⟩

/-- Of a source whose blocks are known, the nodes remain to be read. -/
theorem read_of_blocks {source : List Char} {bs : List Block} (h : blocks source = .ok bs) :
    read source = Node.ofBlocks bs := by
  rw [read, h]
  rfl

theorem parse_of_blocks {source : List Char} {bs : List Block} (h : blocks source = .ok bs) :
    parse source = (Node.ofBlocks bs).mapError (ParseError.ofFault (.ofText source)) := by
  rw [parse, read_of_blocks h]

end Document
end Stencil
