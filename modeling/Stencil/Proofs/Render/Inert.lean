import Stencil.Library
import Stencil.Proofs.Render.Outcome
import Stencil.Proofs.Value.Inert

/-!
# Expressions make inert values

Where names mean inert values and the filters are the built-in ones, an expression that never
applies `safe` makes inert values: there is nothing to call, and only text that was escaped comes
out as a safe string.
-/
namespace Stencil

variable {σ : Type}

/-! ## Filters of an expression -/

mutual

/-- The names of the filters that an expression applies, at any depth. -/
def Expr.filters : Expr → List DottedName
  | .literal _ _ | .name _ _ => []
  | .attribute _ b _ => b.filters
  | .index _ b k => b.filters ++ k.filters
  | .arith _ _ l r | .compare _ _ l r | .logic _ _ l r => l.filters ++ r.filters
  | .call _ c as ks => c.filters ++ filtersAll as ++ filtersKeywords ks
  | .filter _ i n as ks => n :: (i.filters ++ filtersAll as ++ filtersKeywords ks)

def filtersAll : List Expr → List DottedName
  | [] => []
  | e :: es => e.filters ++ filtersAll es

def filtersKeywords : List (Ident × Expr) → List DottedName
  | [] => []
  | (_, e) :: ks => e.filters ++ filtersKeywords ks

end

/-- The name is not one of those under which the filter `safe` is known. -/
def DottedName.Escapes (n : DottedName) : Prop := n.text ≠ "safe" ∧ n.text ≠ "builtins.safe"

/-- The built-in filters are all there is, and `safe` is found under its two names only. -/
theorem code_of_mem_builtinFilters : ∀ e ∈ Library.builtinFilters.table,
    ∃ f ∈ Builtin.all, e.2.code = .builtin f ∧
      (f = .safe → e.1 = "safe" ∨ e.1 = "builtins.safe") := by decide

/-- A filter that is found under a name that escapes is not `safe`. -/
theorem ensures_filter {s : Setting σ} (hs : s.library = .withBuiltins) {n : DottedName}
    (hn : n.Escapes) :
    Eval.Ensures (fun c => ∃ f, c.code = .builtin f ∧ f ≠ .safe) (Eval.filter s n) := by
  unfold Eval.filter
  rw [hs]
  split
  · rename_i c hc
    obtain ⟨f, -, hf, hsafe⟩ :=
      code_of_mem_builtinFilters _ (Entries.mem_of_find?_eq_some hc)
    exact .pure ⟨f, hf, fun h => (hsafe h).elim hn.1 hn.2⟩
  · exact .fault _ _

theorem ensures_invoke {s : Setting σ} {span : Span} {c : Callable} {f : Builtin}
    (hc : c.code = .builtin f) (hf : f ≠ .safe) {args : List Value}
    {keywords : List (String × Value)} (ha : ∀ v ∈ args, v.Inert)
    (hk : ∀ e ∈ keywords, e.2.Inert) :
    Eval.Ensures Value.Inert (Eval.invoke s span c args keywords) := by
  unfold Eval.invoke Eval.perform
  rw [hc]
  exact .liftAt fun _ h => Value.inert_apply hf ha hk h

/-- There is nothing to call in an inert value. -/
theorem ensures_call {s : Setting σ} {span : Span} {target : Value} (h : target.Inert)
    (args : List Value) (keywords : List (String × Value)) :
    Eval.Ensures Value.Inert (Eval.call s span target args keywords) := by
  cases h <;> exact .fault _ _

/-! ## Evaluation -/

theorem inert_literal (l : Literal) : l.value.Inert := by
  cases l with
  | int n => exact .int n
  | float x => exact .float x
  | str s => exact .str s

variable {s : Setting σ} {names : String → Option Value}

mutual

/-- **An expression that never applies `safe` makes inert values.** -/
theorem ensures_eval (hs : s.library = .withBuiltins)
    (hn : ∀ name v, names name = some v → v.Inert) :
    ∀ e : Expr, (∀ n ∈ e.filters, n.Escapes) → Eval.Ensures Value.Inert (e.eval s names)
  | .literal _ l, _ => by
    rw [Expr.eval]
    exact .pure (inert_literal l)
  | .name _ name, _ => by
    rw [Expr.eval]
    split
    · rename_i v hv
      exact .pure (hn name v hv)
    · exact .fault _ _
  | .attribute _ base attr, h => by
    rw [Expr.eval]
    refine (ensures_eval hs hn base h).bind fun v hv => ?_
    split
    · rename_i a ha
      exact .pure (Value.inert_attribute hv ha)
    · exact .fault _ _
  | .index _ base key, h => by
    simp only [Expr.filters, List.forall_mem_append] at h
    rw [Expr.eval]
    refine (ensures_eval hs hn base h.1).bind fun v hv => ?_
    refine (ensures_eval hs hn key h.2).bind fun k _ => ?_
    exact .liftAt fun _ hr => Value.inert_subscript hv hr
  | .arith _ op left right, h => by
    simp only [Expr.filters, List.forall_mem_append] at h
    rw [Expr.eval]
    refine (ensures_eval hs hn left h.1).bind fun l hl => ?_
    refine (ensures_eval hs hn right h.2).bind fun r hr => ?_
    refine (Eval.Ensures.trivial _).bind fun identity _ => ?_
    exact .liftAt fun _ hv => Value.inert_arithmetic hl hr hv
  | .compare _ op left right, _ => by
    rw [Expr.eval]
    refine (Eval.Ensures.trivial _).bind fun l _ => (Eval.Ensures.trivial _).bind fun r _ => ?_
    exact (Eval.Ensures.trivial _).bind fun b _ => .pure (.bool b)
  | .logic _ op left right, h => by
    simp only [Expr.filters, List.forall_mem_append] at h
    rw [Expr.eval]
    refine (ensures_eval hs hn left h.1).bind fun l hl => ?_
    split
    · exact .pure hl
    · exact .pure hl
    · exact ensures_eval hs hn right h.2
  | .call span callee args keywords, h => by
    simp only [Expr.filters, List.forall_mem_append] at h
    rw [Expr.eval]
    refine (ensures_eval hs hn callee h.1.1).bind fun target ht => ?_
    refine (Eval.Ensures.trivial _).bind fun vs _ => (Eval.Ensures.trivial _).bind fun ks _ => ?_
    exact ensures_call ht vs (Entries.ofList ks)
  | .filter span input name args keywords, h => by
    simp only [Expr.filters, List.forall_mem_cons, List.forall_mem_append] at h
    obtain ⟨hname, ⟨hi, ha⟩, hk⟩ := h
    rw [Expr.eval]
    refine (ensures_filter hs hname).bind fun c ⟨f, hc, hf⟩ => ?_
    refine (ensures_eval hs hn input hi).bind fun v hv => ?_
    refine (ensures_evalAll hs hn args ha).bind fun vs hvs => ?_
    refine (ensures_evalKeywords hs hn keywords hk).bind fun ks hks => ?_
    exact ensures_invoke hc hf (List.forall_mem_cons.2 ⟨hv, hvs⟩)
      fun e he => hks e (Entries.mem_of_mem_ofList he)

theorem ensures_evalAll (hs : s.library = .withBuiltins)
    (hn : ∀ name v, names name = some v → v.Inert) :
    ∀ es : List Expr, (∀ n ∈ filtersAll es, n.Escapes) →
    Eval.Ensures (fun vs => ∀ v ∈ vs, v.Inert) (evalAll s names es)
  | [], _ => by
    rw [evalAll]
    exact .pure (by simp)
  | e :: es, h => by
    simp only [filtersAll, List.forall_mem_append] at h
    rw [evalAll]
    refine (ensures_eval hs hn e h.1).bind fun v hv => ?_
    refine (ensures_evalAll hs hn es h.2).bind fun vs hvs => ?_
    exact .pure (List.forall_mem_cons.2 ⟨hv, hvs⟩)

theorem ensures_evalKeywords (hs : s.library = .withBuiltins)
    (hn : ∀ name v, names name = some v → v.Inert) :
    ∀ ks : List (Ident × Expr), (∀ n ∈ filtersKeywords ks, n.Escapes) →
    Eval.Ensures (fun vs => ∀ e ∈ vs, e.2.Inert) (evalKeywords s names ks)
  | [], _ => by
    rw [evalKeywords]
    exact .pure (by simp)
  | (k, e) :: ks, h => by
    simp only [filtersKeywords, List.forall_mem_append] at h
    rw [evalKeywords]
    refine (ensures_eval hs hn e h.1).bind fun v hv => ?_
    refine (ensures_evalKeywords hs hn ks h.2).bind fun vs hvs => ?_
    exact .pure (List.forall_mem_cons.2 ⟨hv, hvs⟩)

end

end Stencil
