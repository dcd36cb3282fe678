import Stencil.Expr.Basic
import Stencil.Library
import Stencil.Source
import Stencil.Value.Arithmetic
import Stencil.Value.Basic
import Stencil.Value.Comparison
import Stencil.Value.Entries

/-!
# Evaluating expressions

An expression is evaluated with a meaning for names, a library and a host. The host gives meaning to the
callables that are not built in; it may keep a state of its own, which survives faults. What a render
makes is numbered from the state as well. A callable is given its keyword arguments as a map, so of
keywords with the same name it would see one only.
-/

/-!
## Render errors

A render stops at the first fault. Each fault has the span of the expression, name or tag that it is
about; the error adds the line and column at which the span starts.
-/

namespace Stencil

/-- Why a render stops. -/
inductive RenderFault
  | unknownFilter (name : String) (ambiguous : Bool)
  | unknownTag (name : String) (ambiguous : Bool)
  | undefinedName (name : String)
  | attribute (kind name : String)
  | subscript (fault : SubscriptFault)
  | type (fault : TypeFault)
  | arithmetic (fault : ArithmeticFault)
  /-- A callable reported an error. -/
  | call (callee message : String)
  deriving DecidableEq, Repr

namespace RenderFault

def ofOperator : OperatorFault → RenderFault
  | .type fault => .type fault
  | .arithmetic fault => .arithmetic fault

/-- What is said of a short name that two names claim. -/
def ambiguityHint (ambiguous : Bool) : String :=
  if ambiguous then " (the short name is ambiguous, use the qualified name)" else ""

/-- The fault with `place` after what it is about, and what it says of a name or a cause after
that. -/
def compose (fault : RenderFault) (place : String) (typed : String → String) : String :=
  match fault with
  | .unknownFilter name ambiguous => s!"unknown filter '{name}'{place}{ambiguityHint ambiguous}"
  | .unknownTag name ambiguous => s!"unknown tag '{name}'{place}{ambiguityHint ambiguous}"
  | .undefinedName name => s!"undefined name '{name}'{place}"
  | .attribute kind name => s!"{kind} value has no attribute '{name}'{place}"
  | .subscript (.range kind index length) =>
    s!"index {index.toInt} out of range for {kind} of length {length}{place}"
  | .subscript (.key key) => s!"key {key} not found{place}"
  | .subscript (.type fault) | .type fault => typed "type" ++ fault.message
  | .arithmetic fault => typed "arithmetic" ++ fault.message
  | .call callee message => s!"call to '{callee}' failed{place}: {message}"

/-- The fault without its place. -/
def detail (fault : RenderFault) : String := fault.compose "" (fun _ => "")

/-- The fault at a place. -/
def message (fault : RenderFault) (place : String) : String :=
  fault.compose (" at " ++ place) (fun kind => s!"{kind} error at {place}: ")

end RenderFault

/-- A fault with its place in a template. -/
structure RenderError where
  fault : RenderFault
  span : Span
  location : Location
  deriving DecidableEq, Repr

def RenderError.ofFault (index : LineIndex) (f : Located RenderFault) : RenderError :=
  ⟨f.value, f.span, index.locate f.span.start⟩

def RenderError.message (e : RenderError) : String := e.fault.message e.location.text

/-!
## Scopes

The names that a template can see: loop variables, innermost first, then the names of the context, then
a few constants. Loops open and close frames on a stack; a frame is addressed by its position.
-/

/-- Names and values supplied for a render. -/
abbrev Context := List (String × Value)

/-- The constants that every template can see. -/
def constant? (name : String) : Option Value :=
  match name with
  | "True" | "true" => some (.bool true)
  | "False" | "false" => some (.bool false)
  | "None" | "none" => some .none
  | _ => none

/-- The meaning of a name outside of all loops. -/
def Context.resolve (context : Context) (name : String) : Option Value :=
  (Entries.find? name context).or (constant? name)

/-- The working scope of a render; the outermost frame comes first. -/
structure Scope where
  context : Context
  frames : Array (String × Value)

namespace Scope

def ofContext (context : Context) : Scope := ⟨context, #[]⟩

def lookup (s : Scope) (name : String) : Option Value :=
  (Entries.find? name s.frames.toList.reverse).or (Context.resolve s.context name)

def top (s : Scope) : Nat := s.frames.size

/-- The scope with a frame for `name`, which has no value yet. -/
def push (s : Scope) (name : String) : Scope := { s with frames := s.frames.push (name, .none) }

/-- The scope with a value in the frame at this position. -/
def bind (s : Scope) (frame : Nat) (value : Value) : Scope :=
  { s with frames := s.frames.modify frame (fun f => (f.1, value)) }

def pop (s : Scope) : Scope := { s with frames := s.frames.pop }

end Scope

/-! ## Evaluation -/

/-- The state that evaluation threads through: how many identities were made, and the host's own. -/
structure World (σ : Type) where
  made : Nat
  host : σ

/-- The functions of a host: for a name and arguments a value or an error text. -/
structure Host (σ : Type) where
  call : String → List Value → List (String × Value) → World σ → Except String Value × World σ

def Host.none : Host Unit := ⟨fun name _ _ w => (.error ("no function " ++ name), w)⟩

/-- What a render is given besides the context. -/
structure Setting (σ : Type) where
  host : Host σ
  library : Library
  autoescape : Bool

/-- A computation that may stop with a fault and changes the world either way. -/
abbrev Eval (σ : Type) := ExceptT (Located RenderFault) (StateM (World σ))

namespace Eval

variable {σ : Type}

def fault {α : Type} (span : Span) (f : RenderFault) : Eval σ α := throw ⟨f, span⟩

/-- A result, or the fault at a place. -/
def liftAt {α ε : Type} (span : Span) (f : ε → RenderFault) : Except ε α → Eval σ α
  | .ok a => pure a
  | .error e => fault span (f e)

def fresh : Eval σ Identity := do
  let w ← get
  set { w with made := w.made + 1 }
  return .made w.made

/-- The value of code on arguments; an error text becomes a fault that names the callee. -/
def perform (s : Setting σ) (span : Span) (callee : String) (code : Code) (args : List Value)
    (keywords : List (String × Value)) : Eval σ Value :=
  match code with
  | .builtin f => liftAt span (fun e => .call callee (Builtin.Fault.message e)) (f.apply args keywords)
  | .host name => do
    let w ← get
    let (result, w) := s.host.call name args keywords w
    -- what the host did stays done when it reports an error
    set w
    liftAt span (.call callee) result

def invoke (s : Setting σ) (span : Span) (f : Callable) (args : List Value)
    (keywords : List (String × Value)) : Eval σ Value :=
  perform s span f.name f.code args keywords

def call (s : Setting σ) (span : Span) (target : Value) (args : List Value)
    (keywords : List (String × Value)) : Eval σ Value :=
  match target with
  | .callable f => invoke s span f args keywords
  | .object _ type _ _ _ _ (some code) _ => perform s span type code args keywords
  | other => fault span (.type (.notCallable other.kind))

/-- The filter of this name. -/
def filter (s : Setting σ) (name : DottedName) : Eval σ Callable :=
  match s.library.filters.find? name.text with
  | some f => pure f
  | none => fault name.span (.unknownFilter name.text (s.library.filters.isAmbiguous name.text))

end Eval

def Literal.value : Literal → Value
  | .int n => .int n
  | .float x => .float x
  | .str s => .str s

variable {σ : Type}

mutual

/-- The value of an expression, given the meaning of names. -/
def Expr.eval (s : Setting σ) (names : String → Option Value) : Expr → Eval σ Value
  | .literal _ v => pure v.value
  | .name span name =>
    match names name with
    | some v => pure v
    | none => Eval.fault span (.undefinedName name)
  | .attribute _ base attr => do
    let v ← base.eval s names
    match v.attribute? attr.name with
    | some a => pure a
    | none => Eval.fault attr.span (.attribute v.kind attr.name)
  | .index span base key => do
    let v ← base.eval s names
    let k ← key.eval s names
    Eval.liftAt span .subscript (v.subscript k)
  | .arith span op left right => do
    let l ← left.eval s names
    let r ← right.eval s names
    let identity ← Eval.fresh
    Eval.liftAt span .ofOperator (Value.arithmetic identity op l r)
  | .compare span op left right => do
    let l ← left.eval s names
    let r ← right.eval s names
    let b ← Eval.liftAt span .ofOperator (Value.compare op l r)
    pure (.bool b)
  | .logic _ op left right => do
    let l ← left.eval s names
    match op, l.isTruthy with
    -- the right side is not evaluated
    | .and, false | .or, true => pure l
    | _, _ => right.eval s names
  | .call span callee args keywords => do
    let target ← callee.eval s names
    let args ← evalAll s names args
    let keywords ← evalKeywords s names keywords
    Eval.call s span target args (Entries.ofList keywords)
  | .filter span input name args keywords => do
    let f ← Eval.filter s name
    let input ← input.eval s names
    let args ← evalAll s names args
    let keywords ← evalKeywords s names keywords
    Eval.invoke s span f (input :: args) (Entries.ofList keywords)

def evalAll (s : Setting σ) (names : String → Option Value) : List Expr → Eval σ (List Value)
  | [] => pure []
  | e :: es => do
    let v ← e.eval s names
    let vs ← evalAll s names es
    pure (v :: vs)

def evalKeywords (s : Setting σ) (names : String → Option Value) :
    List (Ident × Expr) → Eval σ (List (String × Value))
  | [] => pure []
  | (k, e) :: ks => do
    let v ← e.eval s names
    let vs ← evalKeywords s names ks
    pure ((k.name, v) :: vs)

end

end Stencil
