import Stencil.Proofs.Document.Expressions
import Stencil.Proofs.Document.Nesting
import Stencil.Proofs.Document.TagCall
import Stencil.Proofs.Expr.FaultPlace

/-!
# Places of the expressions of a document

The places of a document are nested as a whole, and so are those of every expression in it, at any
depth (`nested_nodeParts`). Those parts of an expression that a fault can be about, an attribute
or the name of a filter, have places of their own there.
-/
namespace Stencil

open Places (leaf)

variable {source : List Char}

/-! ## Expressions -/

mutual

theorem Expr.nested_subterms : ∀ {e : Expr}, e.places.Nested source →
    ∀ x ∈ e.subterms, x.places.Nested source
  | .literal _ _, h | .name _ _, h => List.forall_mem_singleton.2 h
  | .attribute _ b _, h => by
    refine List.forall_mem_cons.2 ⟨h, ?_⟩
    rw [Expr.places] at h
    exact Expr.nested_subterms (h.2.nested _ List.mem_cons_self)
  | .index _ l r, h | .arith _ _ l r, h | .compare _ _ l r, h | .logic _ _ l r, h => by
    refine List.forall_mem_cons.2 ⟨h, ?_⟩
    rw [Expr.places] at h
    obtain ⟨hl, hr⟩ := List.forall_mem_cons.1 h.2.nested
    exact List.forall_mem_append.2 ⟨Expr.nested_subterms hl,
      Expr.nested_subterms (List.forall_mem_singleton.1 hr)⟩
  | .call _ c as ks, h => by
    refine List.forall_mem_cons.2 ⟨h, ?_⟩
    rw [Expr.places] at h
    obtain ⟨hc, h⟩ := List.forall_mem_cons.1 h.2.nested
    obtain ⟨ha, hk⟩ := List.forall_mem_append.1 h
    exact List.forall_mem_append.2 ⟨Expr.nested_subterms hc,
      List.forall_mem_append.2 ⟨nested_subtermsAll ha, nested_subtermsKeywords hk⟩⟩
  | .filter _ i n as ks, h => by
    refine List.forall_mem_cons.2 ⟨h, ?_⟩
    rw [Expr.places] at h
    obtain ⟨hi, h⟩ := List.forall_mem_cons.1 h.2.nested
    obtain ⟨ha, hk⟩ := List.forall_mem_append.1 (List.forall_mem_append.1 h).2
    exact List.forall_mem_append.2 ⟨Expr.nested_subterms hi,
      List.forall_mem_append.2 ⟨nested_subtermsAll ha, nested_subtermsKeywords hk⟩⟩

theorem nested_subtermsAll : ∀ {es : List Expr}, (∀ p ∈ placesAll es, p.Nested source) →
    ∀ x ∈ subtermsAll es, x.places.Nested source
  | [], _ => List.forall_mem_nil _
  | _ :: _, h => by
    obtain ⟨he, hes⟩ := List.forall_mem_cons.1 h
    exact List.forall_mem_append.2 ⟨Expr.nested_subterms he, nested_subtermsAll hes⟩

theorem nested_subtermsKeywords : ∀ {ks : List (Ident × Expr)},
    (∀ p ∈ keywordPlaces ks, p.Nested source) → ∀ x ∈ subtermsKeywords ks, x.places.Nested source
  | [], _ => List.forall_mem_nil _
  | (_, _) :: _, h => by
    obtain ⟨-, h⟩ := List.forall_mem_cons.1 h
    obtain ⟨he, hks⟩ := List.forall_mem_cons.1 h
    exact List.forall_mem_append.2 ⟨Expr.nested_subterms he, nested_subtermsKeywords hks⟩

end

theorem Expr.proper_span {e : Expr} (h : e.places.Nested source) : e.span.Proper source := by
  rw [← Expr.span_places]
  exact h.proper

theorem Expr.proper_attribute {s : Span} {b : Expr} {a : Ident}
    (h : (Expr.attribute s b a).places.Nested source) : a.span.Proper source := by
  rw [Expr.places] at h
  have hleaf : (leaf a.span).Nested source := h.2.nested _ (by simp)
  exact Places.nested_leaf.1 hleaf

/-- A name stands from its first segment to its last. -/
theorem DottedName.proper_span {n : DottedName} {a b : Nat} (h : Row source a b n.places)
    (hn : n.segments ≠ []) : n.span.Proper source := by
  obtain ⟨segments⟩ := n
  cases hhead : segments.head? with
  | none => exact absurd (List.head?_eq_none_iff.1 hhead) hn
  | some i =>
    cases hlast : segments.getLast? with
    | none => exact absurd (List.getLast?_eq_none_iff.1 hlast) hn
    | some j =>
      have hproper := h.proper_cover (t := leaf i.span) (u := leaf j.span)
        (by simp [DottedName.places, hhead]) (by simp [DottedName.places, hlast])
      rw [DottedName.span, hhead, hlast]
      exact hproper

theorem Expr.proper_filterName {s : Span} {i : Expr} {n : DottedName} {as : List Expr}
    {ks : List (Ident × Expr)} (h : (Expr.filter s i n as ks).places.Nested source)
    (hn : n.segments ≠ []) : n.span.Proper source := by
  rw [Expr.places] at h
  have hname : n.places.Sublist
      (i.places :: (n.places ++ (placesAll as ++ keywordPlaces ks))) :=
    (List.sublist_append_left _ _).cons _
  exact DottedName.proper_span (h.2.sublist hname) hn

/-! ## Nodes -/

mutual

/-- The expressions of a node are nested where the node is, and its tags are pieces of the source. -/
theorem Node.nested_parts : ∀ {n : Node}, n.places.Nested source →
    (∀ x ∈ n.exprs.flatMap Expr.subterms, x.places.Nested source) ∧
      ∀ t ∈ n.tags, t.span.Proper source
  | .text _ _, _ | .comment _, _ => by simp [Node.exprs, Node.tags]
  | .value _ e, h => by
    rw [Node.places] at h
    have he := h.2.nested _ List.mem_cons_self
    rw [Node.exprs, List.flatMap_singleton]
    exact ⟨Expr.nested_subterms he, by simp [Node.tags]⟩
  | .conditional _ t b o, h => by
    rw [Node.places] at h
    obtain ⟨ht, h⟩ := List.forall_mem_cons.1 h.2.nested
    obtain ⟨hb, ho⟩ := List.forall_mem_append.1 h
    obtain ⟨hbx, hbt⟩ := nested_nodeParts hb
    obtain ⟨hox, hot⟩ := nested_nodeParts ho
    rw [Node.exprs, List.flatMap_cons, List.flatMap_append]
    exact ⟨List.forall_mem_append.2 ⟨Expr.nested_subterms ht, List.forall_mem_append.2 ⟨hbx, hox⟩⟩,
      List.forall_mem_append.2 ⟨hbt, hot⟩⟩
  | .loop _ x i b o, h => by
    rw [Node.places] at h
    obtain ⟨-, h⟩ := List.forall_mem_cons.1 h.2.nested
    obtain ⟨hi, h⟩ := List.forall_mem_cons.1 h
    obtain ⟨hb, ho⟩ := List.forall_mem_append.1 h
    obtain ⟨hbx, hbt⟩ := nested_nodeParts hb
    obtain ⟨hox, hot⟩ := nested_nodeParts ho
    rw [Node.exprs, List.flatMap_cons, List.flatMap_append]
    exact ⟨List.forall_mem_append.2 ⟨Expr.nested_subterms hi, List.forall_mem_append.2 ⟨hbx, hox⟩⟩,
      List.forall_mem_append.2 ⟨hbt, hot⟩⟩
  | .tag _ n as ks, h => by
    rw [Node.places] at h
    obtain ⟨ha, hk⟩ := List.forall_mem_append.1 (List.forall_mem_append.1 h.2.nested).2
    rw [Node.exprs, List.flatMap_append, ← subtermsKeywords_eq_flatMap, ← subtermsAll_eq_flatMap]
    exact ⟨List.forall_mem_append.2 ⟨nested_subtermsAll ha, nested_subtermsKeywords hk⟩,
      List.forall_mem_singleton.2 h.1⟩

theorem nested_nodeParts : ∀ {ns : List Node}, (∀ p ∈ nodePlaces ns, p.Nested source) →
    (∀ x ∈ nodeSubterms ns, x.places.Nested source) ∧ ∀ t ∈ nodeTags ns, t.span.Proper source
  | [], _ => by simp [nodeSubterms, nodeExprs, nodeTags]
  | n :: ns, h => by
    obtain ⟨hn, hns⟩ := List.forall_mem_cons.1 h
    obtain ⟨hx, ht⟩ := Node.nested_parts hn
    obtain ⟨hxs, hts⟩ := nested_nodeParts hns
    rw [nodeSubterms, nodeExprs, List.flatMap_append]
    exact ⟨List.forall_mem_append.2 ⟨hx, hxs⟩, List.forall_mem_append.2 ⟨ht, hts⟩⟩

end

end Stencil
