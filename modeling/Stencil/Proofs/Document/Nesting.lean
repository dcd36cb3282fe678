import Stencil.Document.Read
import Stencil.Proofs.Document.BlockTiling
import Stencil.Proofs.Document.Reading
import Stencil.Proofs.Document.TagNesting
import Stencil.Proofs.Expr.Grammar

/-!
# Nested documents

The places of a document are those of its nodes with their names, expressions and nodes, and leave
no span of the tree out (`mapNodeSpans_eq_self`). Blocks tile the source and what is read from them
stands in them, so the nodes tile the source too, and all places are nested
(`wellPlaced_of_parse`).
-/
namespace Stencil

open Places (leaf)

/-! ## Places of a node -/

mutual

/-- The place of a node with those of its names, expressions and nodes, in the order of the
source. -/
def Node.places : Node → Places
  | .text s _ | .comment s => leaf s
  | .value s e => .node s [e.places]
  | .conditional s t b o => .node s (t.places :: (nodePlaces b ++ nodePlaces o))
  | .loop s x i b o => .node s (leaf x.span :: i.places :: (nodePlaces b ++ nodePlaces o))
  | .tag s n as ks => .node s (n.places ++ (placesAll as ++ keywordPlaces ks))

/-- The places of nodes. -/
def nodePlaces : List Node → List Places
  | [] => []
  | n :: ns => n.places :: nodePlaces ns

end

@[simp] theorem Node.span_places (n : Node) : n.places.span = n.span := by
  cases n <;> rw [Node.places] <;> rfl

section
variable {f : Span → Span}

mutual

theorem Node.mapSpan_eq_self : ∀ {n : Node}, (∀ s ∈ n.places.spans, f s = s) → n.mapSpan f = n
  | .text s t, h | .comment s, h => by rw [Node.mapSpan, h s List.mem_cons_self]
  | .value s e, h => by
    simp only [Node.places, forall_spans_node, forall_spansAll_cons] at h
    rw [Node.mapSpan, h.1, Expr.mapSpan_eq_self h.2.1]
  | .conditional s t b o, h => by
    simp only [Node.places, forall_spans_node, forall_spansAll_cons, forall_spansAll_append] at h
    obtain ⟨hs, ht, hb, ho⟩ := h
    rw [Node.mapSpan, hs, Expr.mapSpan_eq_self ht, mapNodeSpans_eq_self hb,
      mapNodeSpans_eq_self ho]
  | .loop s x i b o, h => by
    simp only [Node.places, forall_spans_node, forall_spansAll_cons, forall_spansAll_append] at h
    obtain ⟨hs, hx, hi, hb, ho⟩ := h
    rw [Node.mapSpan, hs, Ident.mapSpan_eq_self hx, Expr.mapSpan_eq_self hi,
      mapNodeSpans_eq_self hb, mapNodeSpans_eq_self ho]
  | .tag s n as ks, h => by
    simp only [Node.places, forall_spans_node, forall_spansAll_append] at h
    obtain ⟨hs, hn, ha, hk⟩ := h
    rw [Node.mapSpan, hs, DottedName.mapSpan_eq_self hn, mapSpans_eq_self ha,
      mapKeywordSpans_eq_self hk]

/-- **The places leave no span out**: what does not change them does not change the nodes. -/
theorem mapNodeSpans_eq_self : ∀ {ns : List Node}, (∀ s ∈ spansAll (nodePlaces ns), f s = s) →
    mapNodeSpans f ns = ns
  | [], _ => rfl
  | n :: ns, h => by
    obtain ⟨hn, hns⟩ := forall_spansAll_cons.1 h
    rw [mapNodeSpans, Node.mapSpan_eq_self hn, mapNodeSpans_eq_self hns]

end

end

mutual

/-- A text node holds what the source holds at its span, and the nodes of every branch stand without
gaps. -/
def Node.Tiled (source : List Char) : Node → Prop
  | .text s t => Text.slice source s.start s.stop = some t.toList
  | .value _ _ | .comment _ | .tag _ _ _ _ => True
  | .conditional _ _ b o | .loop _ _ _ b o =>
    (∃ start stop, Tiles source start stop b) ∧ ∃ start stop, Tiles source start stop o

/-- The nodes stand without gaps from one offset to the other. -/
def Tiles (source : List Char) : Nat → Nat → List Node → Prop
  | start, stop, [] => start = stop
  | start, stop, n :: ns => n.span.start = start ∧ n.Tiled source ∧
    Tiles source n.span.stop stop ns

end

/-! ## Reading -/

section
variable {source : List Char} {a b : Nat} {content : Located (List Char)}

theorem Expr.row_of_readContent {e : Expr} (h : readContent content = .ok e)
    (hc : content.Inside source a b) : Row source a b [e.places] :=
  (Expr.row_of_readAt hc.text h).mono hc.start hc.stop

namespace Node

mutual

/-- What is read from a block stands where the block does. -/
theorem tiled_of_ofBlock : ∀ {b : Block} {n : Node}, ofBlock b = .ok n → b.Laid source →
    n.span = b.span ∧ n.places.Nested source ∧ n.Tiled source
  | .text span cs, n, h, ⟨hspan, hat, hstop⟩ => by
    cases h
    have hslice := hat.slice
    rw [← hstop] at hslice
    exact ⟨rfl, Places.nested_leaf.2 hspan, by rw [Node.Tiled, hslice, String.toList_ofList]⟩
  | .comment span, n, h, hspan => by
    cases h
    exact ⟨rfl, Places.nested_leaf.2 hspan, trivial⟩
  | .value span content, n, h, ⟨hspan, hcontent⟩ => by
    obtain ⟨e, he, h⟩ := bind_eq_ok_iff.1 h
    cases h
    exact ⟨rfl, ⟨hspan, Expr.row_of_readContent he hcontent⟩, trivial⟩
  | .tag span content, n, h, ⟨hspan, hcontent⟩ => by
    obtain ⟨call, hc, h⟩ := bind_eq_ok_iff.1 h
    cases h
    have hrow := (Tag.row_of_call hcontent.text hc).mono hcontent.start hcontent.stop
    exact ⟨rfl, ⟨hspan, hrow⟩, trivial⟩
  | .conditional span test body orelse, n, h,
      ⟨hspan, i, j, k, l, htest, hbody, hjk, horelse, hl⟩ => by
    obtain ⟨t, ht, h⟩ := bind_eq_ok_iff.1 h
    obtain ⟨b, hb, h⟩ := bind_eq_ok_iff.1 h
    obtain ⟨o, ho, h⟩ := bind_eq_ok_iff.1 h
    cases h
    obtain ⟨hbt, hbr⟩ := tiles_of_ofBlocks hb hbody
    obtain ⟨hot, hor⟩ := tiles_of_ofBlocks ho horelse
    have hbranches := hbr.append (hor.mono hjk hl)
    have hrow := (Expr.row_of_readContent ht htest).append hbranches
    exact ⟨rfl, ⟨hspan, hrow⟩, ⟨i, j, hbt⟩, k, l, hot⟩
  | .loop span header body orelse, n, h,
      ⟨hspan, i, j, k, l, hheader, hbody, hjk, horelse, hl⟩ => by
    obtain ⟨⟨x, e⟩, hx, h⟩ := bind_eq_ok_iff.1 h
    obtain ⟨b, hb, h⟩ := bind_eq_ok_iff.1 h
    obtain ⟨o, ho, h⟩ := bind_eq_ok_iff.1 h
    cases h
    obtain ⟨hbt, hbr⟩ := tiles_of_ofBlocks hb hbody
    obtain ⟨hot, hor⟩ := tiles_of_ofBlocks ho horelse
    have hbranches := hbr.append (hor.mono hjk hl)
    have hnames := (Tag.row_of_loopHeader hheader.text hx).mono hheader.start hheader.stop
    exact ⟨rfl, ⟨hspan, hnames.append hbranches⟩, ⟨i, j, hbt⟩, k, l, hot⟩

/-- **What is read from blocks without gaps has none, and is nested.** -/
theorem tiles_of_ofBlocks : ∀ {bs : List Block} {ns : List Node} {a b : Nat},
    ofBlocks bs = .ok ns → BlocksTile source a b bs →
    Tiles source a b ns ∧ Row source a b (nodePlaces ns)
  | [], ns, a, b, h, hab => by
    cases h
    exact ⟨hab, Nat.le_of_eq hab⟩
  | x :: bs, ns, a, b, h, ⟨hx, hl, hbs⟩ => by
    obtain ⟨node, hn, h⟩ := bind_eq_ok_iff.1 h
    obtain ⟨nodes, hns, h⟩ := bind_eq_ok_iff.1 h
    cases h
    obtain ⟨hspan, hnested, htiled⟩ := tiled_of_ofBlock hn hl
    rw [← hspan] at hx hbs
    obtain ⟨htiles, hrow⟩ := tiles_of_ofBlocks hns hbs
    refine ⟨⟨hx, htiled, htiles⟩, ?_, hnested, ?_⟩
    · rw [span_places]
      exact Nat.le_of_eq hx.symm
    · rwa [span_places]

end

end Node
end

/-! ## Documents -/

namespace Document

variable {source : List Char} {ns : List Node}

theorem tiles_of_read (h : read source = .ok ns) :
    Tiles source 0 (Text.byteLength source) ns ∧
      Row source 0 (Text.byteLength source) (nodePlaces ns) := by
  obtain ⟨bs, hrun, hbs⟩ := read_eq_ok_iff.1 h
  exact Node.tiles_of_ofBlocks hbs (Block.blocksTile_of_run hrun)

/-- **All of a document lies within its source**, and its filters have names. -/
theorem below_of_read (h : read source = .ok ns) :
    NodesBelow (Text.byteLength source) ns ∧ NodesNamed ns := by
  obtain ⟨bs, -, hbs⟩ := read_eq_ok_iff.1 h
  refine ⟨mapNodeSpans_eq_self fun s hs => ?_, Node.named_of_ofBlocks hbs⟩
  have hspan := (tiles_of_read h).2.spans s hs
  exact Span.relocate_min ⟨hspan.start.le, hspan.stop.le⟩

/-- How the spans of a document lie in its source. -/
structure WellPlaced (source : List Char) (ns : List Node) : Prop where
  /-- Every span of the tree is a piece of the source, not empty and cut between characters. -/
  proper : ∀ s ∈ spansAll (nodePlaces ns), s.Proper source
  /-- The nodes stand without gaps from the start of the source to its end. -/
  tiles : Tiles source 0 (Text.byteLength source) ns
  empty : ns = [] ↔ source = []
  /-- Every place holds its parts in the order of the source and without overlap. -/
  nested : Row source 0 (Text.byteLength source) (nodePlaces ns)

/-- **The spans of a document are nested and tile its source.** -/
theorem wellPlaced_of_parse (h : parse source = .ok ns) : WellPlaced source ns := by
  have hread : read source = .ok ns := Expr.mapError_eq_ok_iff.1 h
  obtain ⟨htiles, hrow⟩ := tiles_of_read hread
  refine ⟨hrow.spans, htiles, ⟨fun hnil => ?_, fun hnil => ?_⟩, hrow⟩
  · subst hnil
    have hlength : 0 = Text.byteLength source := htiles
    by_contra hne
    exact absurd (Text.byteLength_pos hne) (by omega)
  · subst hnil
    by_contra hne
    have hplaces : nodePlaces ns ≠ [] := by
      obtain ⟨n, ns, rfl⟩ := List.exists_cons_of_ne_nil hne
      exact List.cons_ne_nil _ _
    exact Nat.lt_irrefl 0 (hrow.lt hplaces)

/-- A loop behind a letter of two bytes, and with one in it. -/
def accented : String := "é\x7b% for x in (a)|f(b) %\x7dü\x7b% endfor %\x7d"

/-- The tree of `accented`. -/
def accentedTree : List Node :=
  [.text ⟨0, 2⟩ "é", .loop ⟨2, 39⟩ ⟨"x", ⟨9, 10⟩⟩
    (.filter ⟨15, 22⟩ (.name ⟨15, 16⟩ "a") ⟨[⟨"f", ⟨18, 19⟩⟩]⟩ [.name ⟨20, 21⟩ "b"] [])
    [.text ⟨25, 27⟩ "ü"] []]

theorem wellPlaced_of_parse_accented :
    parse accented.toList = .ok accentedTree ∧ WellPlaced accented.toList accentedTree := by
  have hblocks : blocks accented.toList = .ok [.text ⟨0, 2⟩ ['é'],
      .loop ⟨2, 39⟩ ⟨"x in (a)|f(b)".toList, ⟨9, 22⟩⟩ [.text ⟨25, 27⟩ ['ü']] []] := by
    with_unfolding_all rfl
  have hparse : parse accented.toList = .ok accentedTree := by
    rw [parse_of_blocks hblocks]
    with_unfolding_all rfl
  exact ⟨hparse, wellPlaced_of_parse hparse⟩

end Document
end Stencil
