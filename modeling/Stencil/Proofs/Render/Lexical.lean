import Stencil.Proofs.Render.Outcome
import Stencil.Render.Document

/-!
# Loop scoping is lexical

A render keeps its loop variables on a stack: a loop opens a frame, overwrites it for each element
and closes it. `meaning` has no stack, it passes the meaning of names downwards. The two agree
(`renderAll_eq`): a node list puts out its meaning in the scope that it starts in, and leaves that
scope as it found it. What carries the proof is that an open frame is a scope of its own
(`Scope.within`), whatever value the frame had before.
-/
namespace Stencil

variable {σ : Type}

/-! ## Frames -/

namespace Scope

variable (s : Scope) (x : String) (v w : Value)

/-- The scope with one more frame, in which `x` means `v`. -/
def within : Scope := { s with frames := s.frames.push (x, v) }

theorem push_eq_within : s.push x = s.within x .none := rfl

theorem bind_within : (s.within x v).bind s.top w = s.within x w := by
  have hframes : (s.frames.push (x, v)).modify s.frames.size (fun f => (f.1, w)) =
      s.frames.push (x, w) := by
    apply Array.ext
    · simp
    · intro i _ _
      rw [Array.getElem_modify, Array.getElem_push, Array.getElem_push]
      grind
  rw [bind, within, top, within, hframes]

theorem pop_within : (s.within x v).pop = s := by simp [pop, within]

theorem lookup_within : (s.within x v).lookup = extend s.lookup x v := by
  funext name
  by_cases h : x = name
  · simp [lookup, within, extend, Entries.find?_cons, h]
  · simp [lookup, within, extend, Entries.find?_cons, h, Ne.symm h]

theorem lookup_ofContext (context : Context) : (ofContext context).lookup = context.resolve := by
  funext name
  simp [lookup, ofContext]

end Scope

/-! ## Nodes -/

theorem Progress.write_write (p : Progress) (a b : String) :
    (p.write a).write b = p.write (a ++ b) := by simp [write, String.append_assoc]

theorem Progress.scope_write (p : Progress) (a : String) : (p.write a).scope = p.scope := rfl

section
variable {s : Setting σ} {body : List Node}
  (hbody : ∀ p : Progress, renderAll s body p = p.write <$> meaningAll s body p.scope.lookup)
include hbody

/-- One turn of a loop: the frame of the loop has the next element, and the rest is as it was. -/
theorem turn_eq (p : Progress) (x : String) (v item : Value) (out : String) :
    renderAll s body ((⟨p.scope.within x v, out⟩ : Progress).bind p.scope.top item) =
      (fun text => ⟨p.scope.within x item, out ++ text⟩) <$>
        meaningAll s body (extend p.scope.lookup x item) := by
  rw [Progress.bind, Scope.bind_within, hbody, Scope.lookup_within]
  rfl

/-- All turns of a loop, from any value that the frame may have. -/
theorem turns_eq (p : Progress) (x : String) : ∀ (items : List Value) (v : Value) (out : String),
    (do
      let q ← items.foldlM (fun q item => renderAll s body (q.bind p.scope.top item))
        (⟨p.scope.within x v, out⟩ : Progress)
      pure ({ q with scope := q.scope.pop } : Progress)) =
      (fun texts => ⟨p.scope, out ++ String.join texts⟩) <$>
        items.mapM (fun item => meaningAll s body (extend p.scope.lookup x item))
  | [], v, out => by simp [Scope.pop_within, String.join]
  | item :: items, v, out => by
    -- the turn leaves the frame with its element, from where the rest of the turns go on
    have hrest := turns_eq p x items item
    rw [List.foldlM_cons, turn_eq hbody p x v item out, bind_assoc, bind_map_left]
    simp only [hrest, List.mapM_cons, map_eq_pure_bind, bind_assoc, pure_bind, String.join_cons,
      String.append_assoc]

end

mutual

/-- One step: a node puts out its meaning in the scope that it starts in, and leaves that scope. -/
theorem Node.render_eq (s : Setting σ) : ∀ (n : Node) (p : Progress),
    n.render s p = p.write <$> n.meaning s p.scope.lookup
  | .text _ t, p => by simp [Node.render, Node.meaning]
  | .comment _, p => by simp [Node.render, Node.meaning, Progress.write]
  | .value _ e, p => by simp [Node.render, Node.meaning]
  | .conditional _ test body orelse, p => by
    rw [Node.render, Node.meaning, map_bind]
    congr 1
    funext v
    split
    · exact renderAll_eq s body p
    · exact renderAll_eq s orelse p
  | .loop _ target iterable body orelse, p => by
    rw [Node.render, Node.meaning, map_bind]
    congr 1
    funext v
    rw [map_bind]
    congr 1
    funext items
    split
    · exact renderAll_eq s orelse p
    · have hturns := turns_eq (renderAll_eq s body) p target.name items .none p.output
      dsimp only
      rw [Scope.push_eq_within, hturns]
      simp only [map_eq_pure_bind, bind_assoc, pure_bind]
      rfl
  | .tag span name args keywords, p => by simp [Node.render, Node.meaning]

/-- **The run.** A node list puts out its meaning in the scope that it starts in, and leaves that
scope. -/
theorem renderAll_eq (s : Setting σ) : ∀ (ns : List Node) (p : Progress),
    renderAll s ns p = p.write <$> meaningAll s ns p.scope.lookup
  | [], p => by simp [renderAll, meaningAll, Progress.write]
  | n :: ns, p => by
    rw [renderAll, meaningAll, Node.render_eq s n p, bind_map_left, map_bind]
    congr 1
    funext a
    rw [renderAll_eq s ns (p.write a), Progress.scope_write, map_bind]
    simp only [map_eq_pure_bind, pure_bind, Progress.write_write]

end

/-! ## Documents -/

theorem Eval.map_apply {α β : Type} (f : α → β) (x : Eval σ α) (w : World σ) :
    (f <$> x) w = match x w with
      | (.ok a, w') => (.ok (f a), w')
      | (.error e, w') => (.error e, w') := by
  rw [map_eq_pure_bind, Eval.bind_apply]
  rfl

theorem Document.render_eq (s : Setting σ) (ns : List Node) (context : Context) (w : World σ) :
    Document.render s ns context w = meaningAll s ns context.resolve w := by
  rw [Document.render, renderAll_eq, Eval.map_apply]
  dsimp only
  rw [Scope.lookup_ofContext]
  rcases meaningAll s ns context.resolve w with ⟨r, w'⟩
  cases r with
  | ok text => simp [Progress.write]
  | error e => rfl

/-- **Loop scoping is lexical.** From any scope and output so far, rendering a node list gives what
its meaning in that scope is, or stops with the same fault, and reaches the same world; when it does
not stop, every name means in the scope that is left what it meant before. A document is rendered to
its meaning in the context. -/
theorem renderAll_lexical (s : Setting σ) (ns : List Node) (p : Progress) (w : World σ) :
    (∀ q w', renderAll s ns p w = (.ok q, w') →
      ∀ name, q.scope.lookup name = p.scope.lookup name) ∧
    (renderAll s ns p w = match meaningAll s ns p.scope.lookup w with
      | (.ok text, w') => (.ok ⟨p.scope, p.output ++ text⟩, w')
      | (.error e, w') => (.error e, w')) ∧
    ∀ context, Document.render s ns context w = meaningAll s ns context.resolve w := by
  have hrun := congrFun (renderAll_eq s ns p) w
  rw [Eval.map_apply] at hrun
  rcases hm : meaningAll s ns p.scope.lookup w with ⟨r, v⟩
  rw [hm] at hrun
  refine ⟨fun q w' hq name => ?_, ?_, fun context => Document.render_eq s ns context w⟩
  · rw [hrun] at hq
    cases r with
    | ok text =>
      cases hq
      rfl
    | error e => cases hq
  · rw [hrun]
    cases r <;> rfl

/-- `{% for x in xs %}[{% for x in x %}{{ x }}{% endfor %}]{% endfor %}{{ x }}` -/
def shadowing : List Node :=
  let here : Span := ⟨0, 0⟩
  let x : Expr := .name here "x"
  [.loop here ⟨"x", here⟩ (.name here "xs")
      [.text here "[", .loop here ⟨"x", here⟩ x [.value here x] [], .text here "]"] [],
    .value here x]

/-- The start of a render in which `x` is a string and `xs` a list of lists. -/
def shadowed : Progress :=
  ⟨.ofContext [("x", .str "o"), ("xs", .list (.given 0)
    [.list (.given 1) [.str "a", .str "b"], .list (.given 2) [.str "c"]])], ""⟩

/-- Both loops and the context have an `x`, and none gets in the way of another. -/
theorem renderAll_lexical_shadowing :
    ∃ q w, renderAll ⟨.none, .withBuiltins, true⟩ shadowing shadowed ⟨0, ()⟩ = (.ok q, w) ∧
      q.output = "[ab][c]o" ∧ ∀ name, q.scope.lookup name = shadowed.scope.lookup name := by
  have hout : (renderAll ⟨.none, .withBuiltins, true⟩ shadowing shadowed ⟨0, ()⟩).1.map
      Progress.output = .ok "[ab][c]o" := rfl
  rcases hr : renderAll ⟨.none, .withBuiltins, true⟩ shadowing shadowed ⟨0, ()⟩ with ⟨e | q, w⟩
  · rw [hr] at hout
    cases hout
  · rw [hr] at hout
    exact ⟨q, w, rfl, Except.ok.inj hout, (renderAll_lexical _ _ _ _).1 q w hr⟩

end Stencil
