import Stencil.Document.Read
import Stencil.Proofs.Document.Tags
import Stencil.Proofs.Expr.Subterms

/-!
# Expressions of a document

Every expression that stands in a document was read from a text of its own (`isRead_of_ofBlocks`),
so what holds of all expressions that are read holds of those of a document, and of all expressions
in them (`checked_of_ofBlocks`).
-/
namespace Stencil

mutual

/-- The expressions that stand in a node or in its branches, at any depth, each as a whole. -/
def Node.exprs : Node → List Expr
  | .text _ _ | .comment _ => []
  | .value _ e => [e]
  | .conditional _ t b o => t :: (nodeExprs b ++ nodeExprs o)
  | .loop _ _ i b o => i :: (nodeExprs b ++ nodeExprs o)
  | .tag _ _ as ks => as ++ ks.map Prod.snd

/-- The expressions that stand in nodes. -/
def nodeExprs : List Node → List Expr
  | [] => []
  | n :: ns => n.exprs ++ nodeExprs ns

end

/-- The expressions that stand in nodes, with all expressions in them. -/
def nodeSubterms (ns : List Node) : List Expr := (nodeExprs ns).flatMap Expr.subterms

namespace Node

mutual

theorem isRead_of_ofBlock : ∀ {b : Block} {n : Node}, ofBlock b = .ok n → ∀ e ∈ n.exprs, e.IsRead
  | .text span cs, n, h | .comment span, n, h => by
    cases h
    simp [exprs]
  | .value span content, n, h => by
    obtain ⟨e, he, h⟩ := bind_eq_ok_iff.1 h
    cases h
    exact List.forall_mem_singleton.2 ⟨_, _, he⟩
  | .tag span content, n, h => by
    obtain ⟨call, hc, h⟩ := bind_eq_ok_iff.1 h
    cases h
    obtain ⟨hargs, hkeywords⟩ := Tag.isRead_of_call hc
    exact List.forall_mem_append.2 ⟨hargs, List.forall_mem_map.2 hkeywords⟩
  | .conditional span test body orelse, n, h => by
    obtain ⟨t, ht, h⟩ := bind_eq_ok_iff.1 h
    obtain ⟨b, hb, h⟩ := bind_eq_ok_iff.1 h
    obtain ⟨o, ho, h⟩ := bind_eq_ok_iff.1 h
    cases h
    exact List.forall_mem_cons.2 ⟨⟨_, _, ht⟩,
      List.forall_mem_append.2 ⟨isRead_of_ofBlocks hb, isRead_of_ofBlocks ho⟩⟩
  | .loop span header body orelse, n, h => by
    obtain ⟨⟨x, e⟩, hx, h⟩ := bind_eq_ok_iff.1 h
    obtain ⟨b, hb, h⟩ := bind_eq_ok_iff.1 h
    obtain ⟨o, ho, h⟩ := bind_eq_ok_iff.1 h
    cases h
    exact List.forall_mem_cons.2 ⟨Tag.isRead_of_loopHeader hx,
      List.forall_mem_append.2 ⟨isRead_of_ofBlocks hb, isRead_of_ofBlocks ho⟩⟩

/-- **Every expression of a document is read from a text.** -/
theorem isRead_of_ofBlocks : ∀ {bs : List Block} {ns : List Node}, ofBlocks bs = .ok ns →
    ∀ e ∈ nodeExprs ns, e.IsRead
  | [], ns, h => by
    cases h
    simp [nodeExprs]
  | b :: bs, ns, h => by
    obtain ⟨node, hn, h⟩ := bind_eq_ok_iff.1 h
    obtain ⟨nodes, hns, h⟩ := bind_eq_ok_iff.1 h
    cases h
    exact List.forall_mem_append.2 ⟨isRead_of_ofBlock hn, isRead_of_ofBlocks hns⟩

end

/-- No call and no filter of a document is given a keyword twice, and its filters have names. -/
theorem checked_of_ofBlocks {bs : List Block} {ns : List Node} (h : ofBlocks bs = .ok ns) :
    ∀ x ∈ nodeSubterms ns, x.Checked := by
  intro x hx
  obtain ⟨e, he, hxe⟩ := List.mem_flatMap.1 hx
  obtain ⟨base, text, hread⟩ := isRead_of_ofBlocks h e he
  exact Expr.allChecked_of_readAt hread x hxe

end Node
end Stencil
