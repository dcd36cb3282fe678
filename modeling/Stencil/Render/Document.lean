import Stencil.Document.Read
import Stencil.Render.Eval

/-!
# Rendering documents

`render` walks the nodes with an output text and a stack of loop frames. `meaning` says what comes out
without a stack: it passes an immutable meaning of names downwards, and a loop renders its body in
the outer meaning extended by its variable.
-/
namespace Stencil

variable {σ : Type}

/-- The text of a value in the output. -/
def Setting.emit (s : Setting σ) (v : Value) : String := if s.autoescape then v.escaped else v.text

/-- The elements that a loop runs over. -/
def Eval.elements (span : Span) (v : Value) : Eval σ (List Value) :=
  match v.elements? with
  | some items => pure items
  | none => Eval.fault span (.type (.notIterable v.kind))

/-- The tag of this name; `span` is the whole tag. -/
def Eval.tag (s : Setting σ) (span : Span) (name : DottedName) : Eval σ Callable :=
  match s.library.tags.find? name.text with
  | some f => pure f
  | none => Eval.fault span (.unknownTag name.text (s.library.tags.isAmbiguous name.text))

def Eval.customTag (s : Setting σ) (names : String → Option Value) (span : Span)
    (name : DottedName) (args : List Expr) (keywords : List (Ident × Expr)) : Eval σ Value := do
  let f ← Eval.tag s span name
  let args ← evalAll s names args
  let keywords ← evalKeywords s names keywords
  Eval.invoke s span f args (Entries.ofList keywords)

/-- What a render has got so far: the scope and the output. -/
structure Progress where
  scope : Scope
  output : String

def Progress.write (p : Progress) (text : String) : Progress := { p with output := p.output ++ text }

def Progress.bind (p : Progress) (frame : Nat) (v : Value) : Progress :=
  { p with scope := p.scope.bind frame v }

mutual

def Node.render (s : Setting σ) : Node → Progress → Eval σ Progress
  | .text _ t, p => pure (p.write t)
  | .comment _, p => pure p
  | .value _ e, p => do
    let v ← e.eval s p.scope.lookup
    pure (p.write (s.emit v))
  | .conditional _ test body orelse, p => do
    let v ← test.eval s p.scope.lookup
    if v.isTruthy then renderAll s body p else renderAll s orelse p
  | .loop _ target iterable body orelse, p => do
    let v ← iterable.eval s p.scope.lookup
    let items ← Eval.elements iterable.span v
    if items.isEmpty then renderAll s orelse p
    else
      -- one frame for all turns: each turn gives it another value
      let frame := p.scope.top
      let opened : Progress := { p with scope := p.scope.push target.name }
      let p ← items.foldlM (fun p item => renderAll s body (p.bind frame item)) opened
      pure { p with scope := p.scope.pop }
  | .tag span name args keywords, p => do
    let v ← Eval.customTag s p.scope.lookup span name args keywords
    pure (p.write (s.emit v))

def renderAll (s : Setting σ) : List Node → Progress → Eval σ Progress
  | [], p => pure p
  | n :: ns, p => do
    let p ← n.render s p
    renderAll s ns p

end

/-- A meaning of names with one more name. -/
def extend (names : String → Option Value) (name : String) (v : Value) : String → Option Value :=
  fun n => if n = name then some v else names n

mutual

/-- The output of a node, given the meaning of names. -/
def Node.meaning (s : Setting σ) : Node → (String → Option Value) → Eval σ String
  | .text _ t, _ => pure t
  | .comment _, _ => pure ""
  | .value _ e, names => do
    let v ← e.eval s names
    pure (s.emit v)
  | .conditional _ test body orelse, names => do
    let v ← test.eval s names
    if v.isTruthy then meaningAll s body names else meaningAll s orelse names
  | .loop _ target iterable body orelse, names => do
    let v ← iterable.eval s names
    let items ← Eval.elements iterable.span v
    if items.isEmpty then meaningAll s orelse names
    else
      let outputs ← items.mapM (fun item => meaningAll s body (extend names target.name item))
      pure (String.join outputs)
  | .tag span name args keywords, names => do
    let v ← Eval.customTag s names span name args keywords
    pure (s.emit v)

def meaningAll (s : Setting σ) : List Node → (String → Option Value) → Eval σ String
  | [], _ => pure ""
  | n :: ns, names => do
    let a ← n.meaning s names
    let b ← meaningAll s ns names
    pure (a ++ b)

end

/-- The output of a document in a context, and the world after it. -/
def Document.render (s : Setting σ) (nodes : List Node) (context : Context) (w : World σ) :
    Except (Located RenderFault) String × World σ :=
  match (renderAll s nodes ⟨.ofContext context, ""⟩) w with
  | (.ok p, w) => (.ok p.output, w)
  | (.error e, w) => (.error e, w)

end Stencil
