import Stencil.Source

/-!
# Expressions

The tree of an expression, with its names and operators. Every node keeps the span it was read from;
`mapSpan` changes the spans and nothing else, so that `shift` moves a tree within its source and `bare`
forgets where it stood.
-/

/-!
## Identifiers

A name in a template is an ASCII letter or underscore followed by ASCII letters, digits and underscores.
-/

namespace Stencil.Identifier

/-- An ASCII letter or an underscore. -/
def isStart (c : Char) : Bool := c.isAlpha || c == '_'

/-- An ASCII letter, digit or underscore. -/
def isPart (c : Char) : Bool := c.isAlphanum || c == '_'

def isValid : List Char → Bool
  | [] => false
  | c :: cs => isStart c && cs.all isPart

end Stencil.Identifier

/-!
## Operators

The binary operators of expressions with their symbols and precedences.
-/

namespace Stencil

/-- Operators on numbers and sequences. -/
inductive ArithOp
  | add | sub | mul | div | mod
  deriving DecidableEq, Repr

/-- Operators that look at their right side only when they have to. -/
inductive LogicOp
  | and | or
  deriving DecidableEq, Repr

/-- Comparisons: equality, order, membership and identity. -/
inductive CompareOp
  | eq | ne | lt | le | gt | ge | mem | notMem | same | notSame
  deriving DecidableEq, Repr

inductive Operator
  | arith (op : ArithOp)
  | compare (op : CompareOp)
  | logic (op : LogicOp)
  deriving DecidableEq, Repr

def ArithOp.symbol : ArithOp → String
  | .add => "+"
  | .sub => "-"
  | .mul => "*"
  | .div => "/"
  | .mod => "%"

def LogicOp.symbol : LogicOp → String
  | .and => "and"
  | .or => "or"

/-- The operator as it is written, with single spaces. -/
def CompareOp.symbol : CompareOp → String
  | .eq => "=="
  | .ne => "!="
  | .lt => "<"
  | .le => "<="
  | .gt => ">"
  | .ge => ">="
  | .mem => "in"
  | .notMem => "not in"
  | .same => "is"
  | .notSame => "is not"

namespace Operator

def symbol : Operator → String
  | .arith op => op.symbol
  | .compare op => op.symbol
  | .logic op => op.symbol

/-- How tightly an operator binds: logic loosest, then comparisons, sums and products. -/
def precedence : Operator → Nat
  | .logic _ => 1
  | .compare _ => 2
  | .arith .add => 3
  | .arith .sub => 3
  | .arith .mul => 4
  | .arith .div => 4
  | .arith .mod => 4

end Operator

/-!
## Trees

The tree of an expression. Every node keeps the span it was read from; `mapSpan` changes the spans and
nothing else, so that `shift` moves a tree within its source and `bare` forgets where it stood.
-/

/-- A name with its place. -/
structure Ident where
  name : String
  span : Span
  deriving DecidableEq, Repr

/-- A name of one or more segments, under which filters and tags are looked up. -/
structure DottedName where
  segments : List Ident
  deriving DecidableEq, Repr

/-- The segments joined by dots. -/
def DottedName.text (n : DottedName) : String := ".".intercalate (n.segments.map Ident.name)

/-- From the first segment to the last. -/
def DottedName.span (n : DottedName) : Span :=
  match n.segments.head?, n.segments.getLast? with
  | some a, some b => a.span.cover b.span
  | _, _ => ⟨0, 0⟩

inductive Literal
  | int (n : Int64)
  | float (x : Float)
  | str (s : String)
  deriving DecidableEq

inductive Expr
  | literal (span : Span) (value : Literal)
  | name (span : Span) (name : String)
  /-- `base.attr` -/
  | attribute (span : Span) (base : Expr) (attr : Ident)
  /-- `base[key]` -/
  | index (span : Span) (base key : Expr)
  | arith (span : Span) (op : ArithOp) (left right : Expr)
  | compare (span : Span) (op : CompareOp) (left right : Expr)
  | logic (span : Span) (op : LogicOp) (left right : Expr)
  /-- `callee(args, keyword=value)` -/
  | call (span : Span) (callee : Expr) (args : List Expr) (keywords : List (Ident × Expr))
  /-- `input | name(args, keyword=value)` -/
  | filter (span : Span) (input : Expr) (name : DottedName) (args : List Expr)
      (keywords : List (Ident × Expr))

namespace Expr

def span : Expr → Span
  | .literal s _ | .name s _ | .attribute s _ _ | .index s _ _ | .arith s _ _ _ | .compare s _ _ _
  | .logic s _ _ _ | .call s _ _ _ | .filter s _ _ _ _ => s

/-- An operator applied to two operands, from the start of one to the end of the other. -/
def binary (op : Operator) (left right : Expr) : Expr :=
  let span := left.span.cover right.span
  match op with
  | .arith op => .arith span op left right
  | .compare op => .compare span op left right
  | .logic op => .logic span op left right

end Expr

def Ident.mapSpan (f : Span → Span) (i : Ident) : Ident := ⟨i.name, f i.span⟩

def DottedName.mapSpan (f : Span → Span) (n : DottedName) : DottedName :=
  ⟨n.segments.map (Ident.mapSpan f)⟩

mutual

/-- The same expression with every span changed by `f`. -/
def Expr.mapSpan (f : Span → Span) : Expr → Expr
  | .literal s v => .literal (f s) v
  | .name s n => .name (f s) n
  | .attribute s b a => .attribute (f s) (b.mapSpan f) (a.mapSpan f)
  | .index s b k => .index (f s) (b.mapSpan f) (k.mapSpan f)
  | .arith s op l r => .arith (f s) op (l.mapSpan f) (r.mapSpan f)
  | .compare s op l r => .compare (f s) op (l.mapSpan f) (r.mapSpan f)
  | .logic s op l r => .logic (f s) op (l.mapSpan f) (r.mapSpan f)
  | .call s c as ks => .call (f s) (c.mapSpan f) (mapSpans f as) (mapKeywordSpans f ks)
  | .filter s i n as ks =>
    .filter (f s) (i.mapSpan f) (n.mapSpan f) (mapSpans f as) (mapKeywordSpans f ks)

def mapSpans (f : Span → Span) : List Expr → List Expr
  | [] => []
  | e :: es => e.mapSpan f :: mapSpans f es

def mapKeywordSpans (f : Span → Span) : List (Ident × Expr) → List (Ident × Expr)
  | [] => []
  | (i, e) :: ks => (i.mapSpan f, e.mapSpan f) :: mapKeywordSpans f ks

end

/-- The expression moved by `base` bytes. -/
def Expr.shift (base : Nat) (e : Expr) : Expr := e.mapSpan (Span.shift base)

/-- The expression without its places. -/
def Expr.bare (e : Expr) : Expr := e.mapSpan (fun _ => ⟨0, 0⟩)

end Stencil
