import Stencil.Proofs.Expr.Subterms
import Stencil.Proofs.Render.Inert

/-!
# Filters that are read have a name

The tree allows a filter under the name of no segments, which stands nowhere. No text is read as
such a filter (`named_of_readAt`), so that in a tree that was read every filter has a place of its
own.
-/
namespace Stencil

/-- Every filter of the expression, at any depth, has a name of at least one segment. -/
def Expr.Named (e : Expr) : Prop := ∀ n ∈ e.filters, n.segments ≠ []

/-- Every filter of the expressions has a name. -/
def NamedAll (es : List Expr) : Prop := ∀ n ∈ filtersAll es, n.segments ≠ []

/-- Every filter of the keyword arguments has a name. -/
def NamedKeywords (ks : List (Ident × Expr)) : Prop := ∀ n ∈ filtersKeywords ks, n.segments ≠ []

@[simp] theorem namedAll_cons {e : Expr} {es : List Expr} :
    NamedAll (e :: es) ↔ e.Named ∧ NamedAll es := by
  simp only [NamedAll, filtersAll, List.forall_mem_append, Expr.Named]

@[simp] theorem namedKeywords_cons {i : Ident} {e : Expr} {ks : List (Ident × Expr)} :
    NamedKeywords ((i, e) :: ks) ↔ e.Named ∧ NamedKeywords ks := by
  simp only [NamedKeywords, filtersKeywords, List.forall_mem_append, Expr.Named]

namespace Expr

@[simp] theorem named_attribute {s : Span} {b : Expr} {a : Ident} :
    (Expr.attribute s b a).Named ↔ b.Named := by rw [Named, filters, Named]

@[simp] theorem named_index {s : Span} {b k : Expr} :
    (index s b k).Named ↔ b.Named ∧ k.Named := by
  simp only [Named, filters, List.forall_mem_append]

@[simp] theorem named_arith {s : Span} {op : ArithOp} {l r : Expr} :
    (arith s op l r).Named ↔ l.Named ∧ r.Named := by
  simp only [Named, filters, List.forall_mem_append]

@[simp] theorem named_compare {s : Span} {op : CompareOp} {l r : Expr} :
    (compare s op l r).Named ↔ l.Named ∧ r.Named := by
  simp only [Named, filters, List.forall_mem_append]

@[simp] theorem named_logic {s : Span} {op : LogicOp} {l r : Expr} :
    (logic s op l r).Named ↔ l.Named ∧ r.Named := by
  simp only [Named, filters, List.forall_mem_append]

@[simp] theorem named_call {s : Span} {c : Expr} {as : List Expr} {ks : List (Ident × Expr)} :
    (call s c as ks).Named ↔ (c.Named ∧ NamedAll as) ∧ NamedKeywords ks := by
  simp only [Named, filters, List.forall_mem_append, NamedAll, NamedKeywords]

@[simp] theorem named_filter {s : Span} {i : Expr} {n : DottedName} {as : List Expr}
    {ks : List (Ident × Expr)} : (filter s i n as ks).Named ↔
      n.segments ≠ [] ∧ (i.Named ∧ NamedAll as) ∧ NamedKeywords ks := by
  simp only [Named, filters, List.forall_mem_cons, List.forall_mem_append, NamedAll,
    NamedKeywords]

end Expr

/-! ## Reading -/

/-- The name of a filter. -/
def Expr.filterName? : Expr → Option DottedName
  | .filter _ _ n _ _ => some n
  | _ => none

mutual

/-- The filters of an expression are found at the expressions in it. -/
theorem Expr.filters_eq : ∀ e : Expr, e.filters = e.subterms.filterMap Expr.filterName?
  | .literal _ _ | .name _ _ => rfl
  | .attribute _ b _ => Expr.filters_eq b
  | .index _ l r | .arith _ _ l r | .compare _ _ l r | .logic _ _ l r => by
    rw [Expr.filters, Expr.subterms, Expr.filters_eq l, Expr.filters_eq r,
      ← List.filterMap_append]
    rfl
  | .call _ c as ks => by
    rw [Expr.filters, Expr.subterms, Expr.filters_eq c, filtersAll_eq as, filtersKeywords_eq ks,
      ← List.filterMap_append, ← List.filterMap_append, List.append_assoc]
    rfl
  | .filter _ i n as ks => by
    rw [Expr.filters, Expr.subterms, Expr.filters_eq i, filtersAll_eq as, filtersKeywords_eq ks,
      ← List.filterMap_append, ← List.filterMap_append, List.append_assoc]
    rfl

theorem filtersAll_eq (es : List Expr) :
    filtersAll es = (subtermsAll es).filterMap Expr.filterName? := by
  cases es with
  | nil => rfl
  | cons e es =>
    rw [filtersAll, subtermsAll, Expr.filters_eq e, filtersAll_eq es, List.filterMap_append]

theorem filtersKeywords_eq (ks : List (Ident × Expr)) :
    filtersKeywords ks = (subtermsKeywords ks).filterMap Expr.filterName? := by
  cases ks with
  | nil => rfl
  | cons k ks =>
    cases k with
    | mk i e =>
      rw [filtersKeywords, subtermsKeywords, Expr.filters_eq e, filtersKeywords_eq ks,
        List.filterMap_append]

end

theorem Expr.AllChecked.named {e : Expr} (h : e.AllChecked) : e.Named := by
  intro n hn
  rw [Expr.filters_eq] at hn
  obtain ⟨x, hx, hname⟩ := List.mem_filterMap.1 hn
  cases x with
  | filter s i n' as ks =>
    obtain rfl : n' = n := Option.some.inj hname
    exact (h _ hx).1
  | _ => cases hname

/-- **Every filter that is read has a name.** -/
theorem Expr.named_of_readAt {base : Nat} {text : List Char} {e : Expr}
    (h : readAt base text = .ok e) : e.Named := (allChecked_of_readAt h).named

end Stencil
