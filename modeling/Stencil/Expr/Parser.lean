import Stencil.Decimal.Read
import Stencil.Expr.Basic
import Stencil.Expr.Scan

/-!
# The expression parser

A machine that takes one token at a time. Its state is what it is reading now (`Mode`) and what is
open around it (`Opening`, innermost first); the first token that no expression can have at this point is
refused, and `expected` lists the punctuation that would have been taken.

Argument lists are checked when they end, in whatever way they end: when an expression breaks off, the
arguments read so far in each open list are checked too, the outermost list first, and a fault among
them is reported instead of the refused token.

The grammar itself, as choices tried in order, stands in `Stencil.Grammar`; the machine reads what
it reads (`Parser.toOption_parse`).
-/

/-!
## Argument lists

Positional arguments come before keyword arguments, and no keyword is given twice. An argument list is
checked as a whole: the first argument that breaks a rule decides.
-/

namespace Stencil

inductive Argument
  | positional (value : Expr)
  | keyword (name : Ident) (value : Expr)

/-- What is wrong with the order of arguments. -/
inductive ArgumentFault
  | positionalAfterKeyword
  | repeatedKeyword (name : String)
  deriving DecidableEq, Repr

def ArgumentFault.message : ArgumentFault → String
  | .positionalAfterKeyword => "positional argument follows keyword argument"
  | .repeatedKeyword name => s!"keyword argument '{name}' repeated"

namespace Arguments

/-- The first fault of a list of arguments, each shown by its keyword or `none`, after the keywords
in `seen`. -/
def fault? (seen : List String) : List (Option String) → Option ArgumentFault
  | [] => none
  | none :: rest => if seen.isEmpty then fault? seen rest else some .positionalAfterKeyword
  | some k :: rest => if seen.contains k then some (.repeatedKeyword k) else fault? (k :: seen) rest

def positionals : List Argument → List Expr
  | [] => []
  | .positional e :: rest => e :: positionals rest
  | .keyword _ _ :: rest => positionals rest

def keywords : List Argument → List (Ident × Expr)
  | [] => []
  | .positional _ :: rest => keywords rest
  | .keyword i e :: rest => (i, e) :: keywords rest

end Arguments

/-!
## Precedence climbing

An expression is read as a flat chain: a first operand, then operators with their right operands and
filters. `climb` builds the tree. Operators associate to the left, and a filter applies to
everything before it: `a + b|f > 0` is `((a + b)|f) > 0`.
-/

/-- A filter with its arguments, without its input. -/
structure FilterCall where
  span : Span
  name : DottedName
  args : List Expr
  keywords : List (Ident × Expr)

/-- What follows the first operand of a chain. -/
inductive Segment
  | operator (op : Operator) (operand : Expr)
  | filter (call : FilterCall)

namespace Expr

/-- A filter applied to its input. -/
def applyFilter (input : Expr) (f : FilterCall) : Expr :=
  .filter (input.span.cover f.span) input f.name f.args f.keywords

/-- Operators waiting for their right operand, the innermost first, each with its left operand. -/
abbrev Waiting := List (Expr × Operator)

/-- The right operand is complete for every waiting operator that binds at least this tightly. -/
def reduce (limit : Nat) : Waiting → Expr → Waiting × Expr
  | (left, op) :: waiting, current =>
    if limit ≤ op.precedence then reduce limit waiting (binary op left current)
    else ((left, op) :: waiting, current)
  | [], current => ([], current)

/-- The right operand is complete for every waiting operator. -/
def reduceAll : Waiting → Expr → Expr
  | (left, op) :: waiting, current => reduceAll waiting (binary op left current)
  | [], current => current

/-- The tree of a chain, given the operators that wait and the operand read last. -/
def climbFrom (waiting : Waiting) (current : Expr) : List Segment → Expr
  | [] => reduceAll waiting current
  | .operator op operand :: rest =>
    let (waiting, left) := reduce op.precedence waiting current
    climbFrom ((left, op) :: waiting) operand rest
  -- a filter takes all that was read so far
  | .filter f :: rest => climbFrom [] (applyFilter (reduceAll waiting current) f) rest

def climb (first : Expr) (rest : List Segment) : Expr := climbFrom [] first rest

end Expr

/-! ## States -/

namespace Parser

/-- A number without point and exponent is an integer of 64 bits; any other is a float. -/
def numberLiteral? (text : List Char) : Option Literal :=
  if text.any (fun c => c == '.' || c == 'e' || c == 'E') then
    (Decimal.read text).map .float
  else
    let n := Decimal.natOfDigits text
    if n ≤ Int64.maxValue.toInt then some (.int (Int64.ofNat n)) else none

/-- An expression with the tokens it covers; parentheses count as tokens and not to its span. -/
structure Phrase where
  expr : Expr
  extent : Span

/-- A chain that is being read: the first operand, what follows it, latest first, and the tokens. -/
structure Chain where
  first : Expr
  rest : List Segment
  extent : Span

def Chain.expr (c : Chain) : Expr := Expr.climb c.first c.rest.reverse

/-- What stands before an operand: nothing, or a chain and an operator. -/
abbrev Left := Option (Chain × Operator)

/-- The chain that ends with this operand. -/
def close (left : Left) (p : Phrase) : Chain :=
  match left with
  | none => ⟨p.expr, [], p.extent⟩
  | some (c, op) => ⟨c.first, .operator op p.expr :: c.rest, c.extent.cover p.extent⟩

/-- The chain followed by a filter. -/
def Chain.pipe (c : Chain) (f : FilterCall) : Chain :=
  ⟨c.first, .filter f :: c.rest, c.extent.cover f.span⟩

/-- An argument list that is being read: the arguments, latest first, with the tokens they cover, and
the keyword whose value comes next. -/
structure ArgumentList where
  done : List (Argument × Span)
  keyword : Option Ident

def ArgumentList.empty : ArgumentList := ⟨[], none⟩

/-- The list with the argument that this chain is the value of. -/
def ArgumentList.add (l : ArgumentList) (c : Chain) : ArgumentList :=
  match l.keyword with
  | none => ⟨(.positional c.expr, c.extent) :: l.done, none⟩
  | some k => ⟨(.keyword k c.expr, k.span.cover c.extent) :: l.done, none⟩

/-- A filter that is being read after its `|`, which stands at `start`. -/
structure FilterName where
  start : Nat
  segments : List Ident

/-- The filter with its arguments; `stop` is where the last token ends. -/
def FilterName.call (f : FilterName) (stop : Nat) (args : List Argument) : FilterCall :=
  ⟨⟨f.start, stop⟩, ⟨f.segments.reverse⟩, Arguments.positionals args, Arguments.keywords args⟩

/-- Where the name read so far ends. -/
def FilterName.stop (f : FilterName) : Nat :=
  match f.segments with
  | [] => f.start
  | i :: _ => i.span.stop

/-- What is open around the expression that is being read. -/
inductive Opening
  /-- `(` at `start`, as an operand -/
  | group (left : Left) (start : Nat)
  /-- `base[` -/
  | index (left : Left) (base : Phrase)
  /-- `callee(` -/
  | call (left : Left) (callee : Phrase) (args : ArgumentList)
  /-- `chain|name(` -/
  | filterCall (chain : Chain) (name : FilterName) (args : ArgumentList)

/-- What is being read. -/
inductive Mode
  /-- An operand comes next. -/
  | operand (left : Left)
  /-- An operand was read; `bare` when it is a single name. -/
  | unit (left : Left) (unit : Phrase) (bare : Bool)
  /-- A dot was read after an operand. -/
  | attribute (left : Left) (base : Phrase)
  /-- A pipe was read, or a dot in the name of a filter. -/
  | filterName (chain : Chain) (name : FilterName)
  /-- A segment of the name of a filter was read. -/
  | filterNamed (chain : Chain) (name : FilterName)
  /-- A colon was read after the name of a filter. -/
  | filterValue (chain : Chain) (name : FilterName)
  /-- A filter with its arguments was read. -/
  | filtered (chain : Chain)

structure State where
  mode : Mode
  openings : List Opening

def State.start : State := ⟨.operand none, []⟩

/-- Why an expression is no expression. -/
inductive Problem
  /-- A token, or the end of the input, that cannot stand here, and what could. -/
  | unexpected (found : Option Token) (expected : List String)
  | argument (fault : ArgumentFault)
  | numberRange (text : List Char)

structure Failure where
  problem : Problem
  span : Span

/-! ### Argument lists that break off -/

/-- The tokens of the chain before an operand. -/
def leftExtent (left : Left) : Option Span := left.map (fun l => l.1.extent)

/-- The tokens of the longest expression that ends before the open filter name does. -/
def namedExtent (chain : Chain) (name : FilterName) : Span :=
  match name.segments with
  | [] => chain.extent
  | i :: _ => chain.extent.cover i.span

/-- The tokens of the longest expression at the end of what is being read. -/
def Mode.extent? : Mode → Option Span
  | .operand left => leftExtent left
  | .unit left u _ => some (close left u).extent
  | .attribute left base => some (close left base).extent
  | .filterName chain name | .filterNamed chain name | .filterValue chain name =>
    some (namedExtent chain name)
  | .filtered chain => some chain.extent

/-- The tokens of the longest expression before an opening. -/
def Opening.extent? : Opening → Option Span
  | .group left _ => leftExtent left
  | .index left base => some (close left base).extent
  | .call left callee _ => some (close left callee).extent
  | .filterCall chain name _ => some (namedExtent chain name)

/-- The keywords and tokens of an argument list that ends after the expression with these tokens; a
keyword without a value counts as a positional argument. -/
def ArgumentList.outline (l : ArgumentList) (value : Option Span) : List (Option String × Span) :=
  let last := match l.keyword, value with
    | none, none => []
    | none, some s => [(none, s)]
    | some k, some s => [(some k.name, k.span.cover s)]
    | some k, none => [(none, k.span)]
  let shape := fun (a : Argument × Span) => match a.1 with
    | .positional _ => (none, a.2)
    | .keyword k _ => (some k.name, a.2)
  l.done.reverse.map shape ++ last

/-- The fault of an outlined list, placed at all of its arguments. -/
def outlineFailure? (outline : List (Option String × Span)) : Option Failure :=
  match Arguments.fault? [] (outline.map Prod.fst), outline.head?, outline.getLast? with
  | some fault, some a, some b => some ⟨.argument fault, a.2.cover b.2⟩
  | _, _, _ => none

def Opening.arguments? : Opening → Option ArgumentList
  | .call _ _ args | .filterCall _ _ args => some args
  | _ => none

/-- The fault of the outermost open argument list that has one, given the tokens of the expression
inside the innermost opening. -/
def openFailure? (inner : Option Span) : List Opening → Option Failure
  | [] => none
  | o :: outer =>
    -- the outermost list comes first
    match openFailure? o.extent? outer with
    | some failure => some failure
    | none => o.arguments?.bind (fun l => outlineFailure? (l.outline inner))

/-- The failure to report when the parser stops with `problem` in this state. -/
def State.fail (s : State) (problem : Problem) (span : Span) : Failure :=
  (openFailure? s.mode.extent? s.openings).getD ⟨problem, span⟩

/-! ### What may come next -/

/-- An argument list in which nothing was read. -/
def atFirstArgument : List Opening → Bool
  | .call _ _ args :: _ | .filterCall _ _ args :: _ => args.done.isEmpty && args.keyword.isNone
  | _ => false

/-- A keyword may be named here. -/
def takesKeyword : List Opening → Bool
  | .call _ _ args :: _ | .filterCall _ _ args :: _ => args.keyword.isNone
  | _ => false

/-- What ends the expression inside the innermost opening. -/
def closers : List Opening → List Token
  | [] => []
  | .group _ _ :: _ => [.rparen]
  | .index _ _ :: _ => [.rbracket]
  | .call _ _ _ :: _ | .filterCall _ _ _ :: _ => [.rparen, .comma]

/-- The punctuation that may follow. -/
def State.follow (s : State) : List Token :=
  match s.mode with
  | .operand left =>
    .lparen :: (if left.isNone && atFirstArgument s.openings then [.rparen] else [])
  | .unit left _ bare =>
    [.lparen, .dot, .lbracket, .pipe] ++
      (if left.isNone && bare && takesKeyword s.openings then [.assign] else []) ++
      closers s.openings
  | .attribute _ _ | .filterName _ _ | .filterValue _ _ => []
  | .filterNamed _ _ => [.lparen, .dot, .colon, .pipe] ++ closers s.openings
  | .filtered _ => .pipe :: closers s.openings

/-- An expression may end here. -/
def State.mayEnd (s : State) : Bool :=
  s.openings.isEmpty && match s.mode with
    | .unit _ _ _ | .filterNamed _ _ | .filtered _ => true
    | _ => false

/-- All punctuation, in the order in which messages list it. -/
def punctuation : List Token :=
  [.lparen, .rparen, .comma, .dot, .colon, .assign, .lbracket, .rbracket, .pipe]

/-- What messages say could have come next: punctuation, and the end of the input. -/
def State.expected (s : State) : List String :=
  (punctuation.filter (s.follow.contains ·)).map Token.describe ++
    (if s.mayEnd then ["end of input"] else [])

/-! ### Steps -/

def ident (text : List Char) (span : Span) : Ident := ⟨String.ofList text, span⟩

/-- The chain that is complete in this mode. -/
def Mode.chain? : Mode → Option Chain
  | .unit left u _ => some (close left u)
  | .filterNamed chain name => some (chain.pipe (name.call name.stop []))
  | .filtered chain => some chain
  | _ => none

/-- The state after a complete chain and a token that ends it or goes on from it. -/
def afterChain (c : Chain) (openings : List Opening) (t : Located Token) : Option State :=
  match t.value, openings with
  | .operator op, _ => some ⟨.operand (some (c, op)), openings⟩
  | .pipe, _ => some ⟨.filterName c ⟨t.span.start, []⟩, openings⟩
  | .rparen, .group left start :: outer =>
    some ⟨.unit left ⟨c.expr, ⟨start, t.span.stop⟩⟩ false, outer⟩
  | .rbracket, .index left base :: outer =>
    some ⟨.unit left ⟨.index (base.expr.span.cover t.span) base.expr c.expr,
      base.extent.cover t.span⟩ false, outer⟩
  | .comma, .call left callee args :: outer =>
    some ⟨.operand none, .call left callee (args.add c) :: outer⟩
  | .comma, .filterCall chain name args :: outer =>
    some ⟨.operand none, .filterCall chain name (args.add c) :: outer⟩
  | _, _ => none

/-- The state after the parenthesis that ends an argument list. -/
def endArguments (args : ArgumentList) (o : Opening) (outer : List Opening) (t : Located Token) :
    Option State :=
  let list := args.done.reverse.map Prod.fst
  match o with
  | .call left callee _ =>
    some ⟨.unit left ⟨.call (callee.expr.span.cover t.span) callee.expr (Arguments.positionals list)
      (Arguments.keywords list), callee.extent.cover t.span⟩ false, outer⟩
  | .filterCall chain name _ => some ⟨.filtered (chain.pipe (name.call t.span.stop list)), outer⟩
  | _ => none

/-- The state after a token, if the token can stand here; argument lists that end are not yet
checked. -/
def State.next? (s : State) (t : Located Token) : Option State :=
  match s.mode, t.value, s.openings with
  | .operand left, .number text, os =>
    (numberLiteral? text).map (fun v => ⟨.unit left ⟨.literal t.span v, t.span⟩ false, os⟩)
  | .operand left, .string text, os =>
    some ⟨.unit left ⟨.literal t.span (.str (String.ofList text)), t.span⟩ false, os⟩
  | .operand left, .name text, os =>
    some ⟨.unit left ⟨.name t.span (String.ofList text), t.span⟩ true, os⟩
  | .operand left, .lparen, os => some ⟨.operand none, .group left t.span.start :: os⟩
  | .operand none, .rparen, o :: outer =>
    if atFirstArgument (o :: outer) then endArguments .empty o outer t else none
  | .unit left base _, .dot, os => some ⟨.attribute left base, os⟩
  | .unit left base _, .lbracket, os => some ⟨.operand none, .index left base :: os⟩
  | .unit left base _, .lparen, os => some ⟨.operand none, .call left base .empty :: os⟩
  -- a single name that begins an argument is a keyword when `=` follows
  | .unit none base true, .assign, .call left callee args :: outer =>
    match base.expr, args.keyword with
    | .name span name, none =>
      some ⟨.operand none, .call left callee ⟨args.done, some ⟨name, span⟩⟩ :: outer⟩
    | _, _ => none
  | .unit none base true, .assign, .filterCall chain filter args :: outer =>
    match base.expr, args.keyword with
    | .name span name, none =>
      some ⟨.operand none, .filterCall chain filter ⟨args.done, some ⟨name, span⟩⟩ :: outer⟩
    | _, _ => none
  | .attribute left base, .name text, os =>
    some ⟨.unit left ⟨.attribute (base.expr.span.cover t.span) base.expr (ident text t.span),
      base.extent.cover t.span⟩ false, os⟩
  | .filterName chain name, .name text, os =>
    some ⟨.filterNamed chain ⟨name.start, ident text t.span :: name.segments⟩, os⟩
  | .filterNamed chain name, .dot, os => some ⟨.filterName chain name, os⟩
  | .filterNamed chain name, .colon, os => some ⟨.filterValue chain name, os⟩
  | .filterNamed chain name, .lparen, os =>
    some ⟨.operand none, .filterCall chain name .empty :: os⟩
  | .filterValue chain name, .number text, os =>
    (numberLiteral? text).map (fun v =>
      ⟨.filtered (chain.pipe (name.call t.span.stop [.positional (.literal t.span v)])), os⟩)
  | .filterValue chain name, .string text, os =>
    some ⟨.filtered (chain.pipe (name.call t.span.stop
      [.positional (.literal t.span (.str (String.ofList text)))])), os⟩
  -- all that is left ends a chain or goes on from it
  | mode, .rparen, .call left callee args :: outer =>
    mode.chain?.bind (fun c => endArguments (args.add c) (.call left callee args) outer t)
  | mode, .rparen, .filterCall chain name args :: outer =>
    mode.chain?.bind (fun c => endArguments (args.add c) (.filterCall chain name args) outer t)
  | mode, _, os => mode.chain?.bind (fun c => afterChain c os t)

/-- A number that no literal can hold stands where a literal may stand. -/
def State.numberProblem? (s : State) (t : Token) : Option Problem :=
  match s.mode, t with
  | .operand _, .number text | .filterValue _ _, .number text =>
    if (numberLiteral? text).isNone then some (.numberRange text) else none
  | _, _ => none

/-- The argument list that a token ends has a fault. -/
def State.endFailure? (s : State) (t : Token) : Option Failure :=
  match t, s.openings with
  | .rparen, .call _ _ args :: _ | .rparen, .filterCall _ _ args :: _ =>
    s.mode.chain?.bind (fun c => outlineFailure? (args.outline (some c.extent)))
  | _, _ => none

/-- One token: the next state, or why there is none. -/
def State.step (s : State) (t : Located Token) : Except Failure State :=
  match s.next? t with
  | none =>
    let problem := (s.numberProblem? t.value).getD (.unexpected (some t.value) s.expected)
    .error (s.fail problem t.span)
  | some next =>
    match s.endFailure? t.value with
    | some failure => .error (s.fail failure.problem failure.span)
    | none => .ok next

def State.run (s : State) (ts : List (Located Token)) : Except Failure State :=
  ts.foldlM State.step s

/-- The expression, if the input may end here; `span` is the place of the end. -/
def State.finish (s : State) (span : Span) : Except Failure Expr :=
  match s.openings, s.mode.chain? with
  | [], some c => .ok c.expr
  | _, _ => .error (s.fail (.unexpected none s.expected) span)

/-- The place of the end of an input that is `stop` bytes long: it runs back to where the last token
ends. -/
def endSpan (stop : Nat) (ts : List (Located Token)) : Span :=
  match ts.getLast? with
  | none => ⟨stop, stop⟩
  | some t => ⟨stop, t.span.stop⟩

/-- The expression that a list of tokens spells, of an input that ends at byte `stop`. -/
def parse (stop : Nat) (ts : List (Located Token)) : Except Failure Expr := do
  let s ← State.start.run ts
  s.finish (endSpan stop ts)

end Parser
end Stencil
