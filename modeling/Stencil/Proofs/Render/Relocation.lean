import Stencil.Proofs.Document.Reading
import Stencil.Proofs.Render.Lexical

/-!
# Rendering does not look at positions

Expressions and nodes whose offsets are changed by `g` are evaluated to the same values, reach the
same worlds and stop with the same faults, whose places are changed by `g` (`eval_relocate`,
`meaningAll_relocate`). A fault of nodes that lie before an end lies before it (`fault_below`).
-/
namespace Stencil

variable {σ α β : Type}

/-! ## Names -/

theorem DottedName.text_mapSpan (f : Span → Span) (n : DottedName) :
    (n.mapSpan f).text = n.text := by
  simp [DottedName.text, DottedName.mapSpan, Function.comp_def, Ident.mapSpan]

/-- The place of a filter is that of its name, if it has one. -/
theorem DottedName.span_mapSpan (g : Nat → Nat) {n : DottedName} (h : n.segments ≠ []) :
    (n.mapSpan (Span.relocate g)).span = n.span.relocate g := by
  obtain ⟨segments⟩ := n
  simp only [DottedName.span, DottedName.mapSpan, List.head?_map, List.getLast?_map]
  cases hh : segments.head? with
  | none => exact absurd (List.head?_eq_none_iff.1 hh) h
  | some a =>
    cases hl : segments.getLast? with
    | none => exact absurd (List.getLast?_eq_none_iff.1 hl) h
    | some b => rfl

/-! ## Computations -/

/-- The computation with the place of its fault changed by `g`. -/
def Eval.relocate (g : Nat → Nat) (x : Eval σ α) : Eval σ α :=
  fun w => ((x w).1.mapError (Located.relocate g), (x w).2)

namespace Eval

variable (g : Nat → Nat)

theorem relocate_apply (x : Eval σ α) (w : World σ) :
    x.relocate g w = ((x w).1.mapError (Located.relocate g), (x w).2) := rfl

theorem relocate_ok {x : Eval σ α} {w w' : World σ} {a : α} (h : x w = (.ok a, w')) :
    x.relocate g w = (.ok a, w') := by
  rw [relocate_apply, h]
  rfl

theorem relocate_error {x : Eval σ α} {w w' : World σ} {f : Located RenderFault}
    (h : x w = (.error f, w')) : x.relocate g w = (.error (f.relocate g), w') := by
  rw [relocate_apply, h]
  rfl

theorem relocate_pure (a : α) : (pure a : Eval σ α).relocate g = pure a := rfl

theorem relocate_bind (x : Eval σ α) (f : α → Eval σ β) :
    (x >>= f).relocate g = x.relocate g >>= fun a => (f a).relocate g := by
  funext w
  rw [relocate_apply, bind_apply, bind_apply, relocate_apply]
  rcases x w with ⟨r, w'⟩
  cases r <;> rfl

theorem relocate_liftAt {ε : Type} (span : Span) (f : ε → RenderFault) (r : Except ε α) :
    (liftAt span f r : Eval σ α).relocate g = liftAt (span.relocate g) f r := by
  cases r <;> rfl

theorem relocate_fresh : (fresh : Eval σ Identity).relocate g = fresh := rfl

theorem relocate_perform (s : Setting σ) (span : Span) (callee : String) (code : Code)
    (args : List Value) (ks : List (String × Value)) :
    (perform s span callee code args ks).relocate g =
      perform s (span.relocate g) callee code args ks := by
  cases code with
  | builtin f => exact relocate_liftAt g _ _ _
  | host name =>
    unfold perform
    simp only [relocate_bind, relocate_liftAt]
    rfl

theorem relocate_call (s : Setting σ) (span : Span) (target : Value) (args : List Value)
    (ks : List (String × Value)) :
    (call s span target args ks).relocate g = call s (span.relocate g) target args ks := by
  unfold call
  split
  · exact relocate_perform g s span _ _ args ks
  · exact relocate_perform g s span _ _ args ks
  · rfl

theorem relocate_filter (s : Setting σ) {name : DottedName} (h : name.segments ≠ []) :
    (filter s name).relocate g = filter s (name.mapSpan (Span.relocate g)) := by
  rw [filter, filter, DottedName.text_mapSpan, DottedName.span_mapSpan _ h]
  split <;> rfl

end Eval

/-! ## Expressions -/

variable {s : Setting σ} {names : String → Option Value} (g : Nat → Nat)

mutual

/-- **Evaluation does not look at positions.** -/
theorem eval_relocate : ∀ e : Expr, e.Named →
    (e.relocate g).eval s names = (e.eval s names).relocate g
  | .literal _ v, _ => rfl
  | .name span name, _ => by
    rw [Expr.relocate, Expr.mapSpan, Expr.eval, Expr.eval]
    split <;> rfl
  | .attribute _ base attr, h => by
    have hbase := eval_relocate base (Expr.named_attribute.1 h)
    rw [Expr.relocate] at hbase ⊢
    simp only [Expr.mapSpan, Expr.eval, hbase, Eval.relocate_bind]
    congr 1
    funext v
    simp only [Ident.mapSpan]
    split <;> rfl
  | .index span base key, h => by
    obtain ⟨hb, hk⟩ := Expr.named_index.1 h
    have hbase := eval_relocate base hb
    have hkey := eval_relocate key hk
    rw [Expr.relocate] at hbase hkey ⊢
    simp only [Expr.mapSpan, Expr.eval, hbase, hkey, Eval.relocate_bind, Eval.relocate_liftAt]
  | .arith span op left right, h => by
    obtain ⟨hl, hr⟩ := Expr.named_arith.1 h
    have hleft := eval_relocate left hl
    have hright := eval_relocate right hr
    rw [Expr.relocate] at hleft hright ⊢
    simp only [Expr.mapSpan, Expr.eval, hleft, hright, Eval.relocate_bind, Eval.relocate_fresh,
      Eval.relocate_liftAt]
  | .compare span op left right, h => by
    obtain ⟨hl, hr⟩ := Expr.named_compare.1 h
    have hleft := eval_relocate left hl
    have hright := eval_relocate right hr
    rw [Expr.relocate] at hleft hright ⊢
    simp only [Expr.mapSpan, Expr.eval, hleft, hright, Eval.relocate_bind, Eval.relocate_liftAt,
      Eval.relocate_pure]
  | .logic span op left right, h => by
    obtain ⟨hl, hr⟩ := Expr.named_logic.1 h
    have hleft := eval_relocate left hl
    have hright := eval_relocate right hr
    rw [Expr.relocate] at hleft hright ⊢
    simp only [Expr.mapSpan, Expr.eval, hleft, Eval.relocate_bind]
    congr 1
    funext l
    split
    · rfl
    · rfl
    · exact hright
  | .call span callee args ks, h => by
    obtain ⟨⟨hc, ha⟩, hk⟩ := Expr.named_call.1 h
    have hcallee := eval_relocate callee hc
    rw [Expr.relocate] at hcallee ⊢
    simp only [Expr.mapSpan, Expr.eval, hcallee, evalAll_relocate args ha,
      evalKeywords_relocate ks hk, Eval.relocate_bind, Eval.relocate_call]
  | .filter span input name args ks, h => by
    obtain ⟨hn, ⟨hi, ha⟩, hk⟩ := Expr.named_filter.1 h
    have hinput := eval_relocate input hi
    rw [Expr.relocate] at hinput ⊢
    simp only [Expr.mapSpan, Expr.eval, hinput, evalAll_relocate args ha,
      evalKeywords_relocate ks hk, Eval.relocate_bind, Eval.relocate_filter g s hn, Eval.invoke,
      Eval.relocate_perform]

theorem evalAll_relocate : ∀ es : List Expr, NamedAll es →
    evalAll s names (mapSpans (Span.relocate g) es) = (evalAll s names es).relocate g
  | [], _ => rfl
  | e :: es, h => by
    obtain ⟨he, hes⟩ := namedAll_cons.1 h
    have he := eval_relocate e he
    rw [Expr.relocate] at he
    simp only [mapSpans, evalAll, he, evalAll_relocate es hes, Eval.relocate_bind,
      Eval.relocate_pure]

theorem evalKeywords_relocate : ∀ ks : List (Ident × Expr), NamedKeywords ks →
    evalKeywords s names (mapKeywordSpans (Span.relocate g) ks) =
      (evalKeywords s names ks).relocate g
  | [], _ => rfl
  | (k, e) :: ks, h => by
    obtain ⟨he, hks⟩ := namedKeywords_cons.1 h
    have he := eval_relocate e he
    rw [Expr.relocate] at he
    simp only [mapKeywordSpans, evalKeywords, he, evalKeywords_relocate ks hks,
      Eval.relocate_bind, Eval.relocate_pure, Ident.mapSpan]

end

/-! ## Nodes -/

theorem Eval.relocate_elements (span : Span) (v : Value) :
    (Eval.elements span v : Eval σ _).relocate g = Eval.elements (span.relocate g) v := by
  unfold Eval.elements
  split <;> rfl

theorem Eval.relocate_tag (span : Span) (name : DottedName) :
    (Eval.tag s span name).relocate g =
      Eval.tag s (span.relocate g) (name.mapSpan (Span.relocate g)) := by
  rw [Eval.tag, Eval.tag, DottedName.text_mapSpan]
  split <;> rfl

theorem Eval.relocate_mapM (f : α → Eval σ β) : ∀ items : List α,
    (items.mapM f).relocate g = items.mapM fun item => (f item).relocate g
  | [] => rfl
  | item :: items => by
    simp only [List.mapM_cons, Eval.relocate_bind, Eval.relocate_mapM f items, Eval.relocate_pure]

mutual

theorem meaning_relocate : ∀ (n : Node) (names : String → Option Value),
    (∀ f ∈ n.filters, f.segments ≠ []) →
    (n.mapSpan (Span.relocate g)).meaning s names = (n.meaning s names).relocate g
  | .text _ t, names, _ => rfl
  | .comment _, names, _ => rfl
  | .value _ e, names, h => by
    have he : (e.mapSpan _).eval s names = _ := eval_relocate g e h
    simp only [Node.mapSpan, Node.meaning, he, Eval.relocate_bind, Eval.relocate_pure]
  | .conditional _ test body orelse, names, h => by
    simp only [Node.filters, List.forall_mem_append] at h
    have htest : (test.mapSpan _).eval s names = _ := eval_relocate g test h.1.1
    simp only [Node.mapSpan, Node.meaning, htest, Eval.relocate_bind]
    congr 1
    funext v
    split
    · exact meaningAll_relocate body names h.1.2
    · exact meaningAll_relocate orelse names h.2
  | .loop _ target iterable body orelse, names, h => by
    simp only [Node.filters, List.forall_mem_append] at h
    have hiterable : (iterable.mapSpan _).eval s names = _ := eval_relocate g iterable h.1.1
    have hbody := fun names => meaningAll_relocate body names h.1.2
    simp only [Node.mapSpan, Node.meaning, hiterable, Eval.relocate_bind, Expr.span_mapSpan,
      Eval.relocate_elements]
    congr 1
    funext v
    congr 1
    funext items
    split
    · exact meaningAll_relocate orelse names h.2
    · simp only [hbody, Eval.relocate_bind, Eval.relocate_mapM, Eval.relocate_pure, Ident.mapSpan]
  | .tag span name args ks, names, h => by
    simp only [Node.filters, List.forall_mem_append] at h
    simp only [Node.mapSpan, Node.meaning, Eval.customTag, Eval.relocate_bind, Eval.relocate_tag,
      evalAll_relocate g args h.1, evalKeywords_relocate g ks h.2, Eval.invoke,
      Eval.relocate_perform, Eval.relocate_pure]

/-- **What nodes mean does not depend on where they are.** -/
theorem meaningAll_relocate : ∀ (ns : List Node) (names : String → Option Value), NodesNamed ns →
    meaningAll s (mapNodeSpans (Span.relocate g) ns) names = (meaningAll s ns names).relocate g
  | [], names, _ => rfl
  | n :: ns, names, h => by
    rw [NodesNamed, nodeFilters, List.forall_mem_append] at h
    simp only [mapNodeSpans, meaningAll, meaning_relocate n names h.1,
      meaningAll_relocate ns names h.2, Eval.relocate_bind, Eval.relocate_pure]

end

/-- A fault of nodes that lie before an end lies before it. -/
theorem fault_below {stop : Nat} {ns : List Node} (hb : NodesBelow stop ns) (hn : NodesNamed ns)
    {w w' : World σ} {f : Located RenderFault} (h : meaningAll s ns names w = (.error f, w')) :
    f.span.Below stop := by
  have hmoved : meaningAll s ns names w = _ :=
    congrFun (hb ▸ meaningAll_relocate (s := s) (min stop) ns names hn) w
  rw [Eval.relocate_apply, h] at hmoved
  have hf : f = f.relocate (min stop) := Except.error.inj (Prod.mk.inj hmoved).1
  exact Span.below_of_relocate_min (congrArg Located.span hf).symm

end Stencil
