import Stencil.Markup.Scan

/-!
# Blocks

The structure of a template before its expressions are read: the content of every value and tag is
still text. The parser takes one token at a time; its state is what it is reading and which
conditions and loops are open. The same structure as choices tried in order stands in
`Stencil.Block.Grammar` (`Block.toOption_parse`).
-/
namespace Stencil

/-- A part of a template. -/
inductive Block
  | text (span : Span) (cs : List Char)
  | value (span : Span) (content : Located (List Char))
  | comment (span : Span)
  | tag (span : Span) (content : Located (List Char))
  | conditional (span : Span) (test : Located (List Char)) (body orelse : List Block)
  | loop (span : Span) (header : Located (List Char)) (body orelse : List Block)

namespace Block

open Markup (Keyword)

/-- The two blocks that contain others. -/
inductive Kind
  | conditional
  | loop
  deriving DecidableEq, Repr

/-- A condition or loop that is being read. -/
structure Opening where
  kind : Kind
  start : Nat
  header : Located (List Char)
  /-- The blocks before it, latest first. -/
  outer : List Block
  /-- The blocks up to its second clause, once that has begun. -/
  body : Option (List Block)

/-- What is being read; `start` is where the block began. -/
inductive Mode
  /-- Between two blocks. -/
  | between
  /-- The marker of a value was read. -/
  | value (start : Nat)
  /-- The content of a value was read. -/
  | valueContent (start : Nat) (content : Located (List Char))
  /-- Inside a comment. -/
  | comment (start : Nat)
  /-- The marker of a tag was read. -/
  | tag (start : Nat)
  /-- The content of a tag without reserved word was read. -/
  | tagContent (start : Nat) (content : Located (List Char))
  /-- The first word of a condition or loop was read. -/
  | header (kind : Kind) (start : Nat)
  /-- The content of the first tag of a condition or loop was read. -/
  | headerContent (kind : Kind) (start : Nat) (content : Located (List Char))
  /-- The word of the second clause of a condition or loop was read. -/
  | clause
  /-- The last word of a condition or loop was read. -/
  | final

/-- The state of the parser; `blocks` are those of the clause that is being read, latest first. -/
structure State where
  mode : Mode
  blocks : List Block
  openings : List Opening

def State.start : State := ⟨.between, [], []⟩

/-- A token, or the end of the input, that cannot stand where it does, and what could. -/
structure Failure where
  found : Option Markup.Token
  expected : List String
  span : Span

/-- The reserved words that may follow the marker of a tag. -/
def State.keywords (s : State) : List Keyword :=
  match s.openings with
  | [] => [.forOpen, .ifOpen]
  | o :: _ => match o.kind, o.body with
    | .conditional, none => [.elseClause, .ifClose, .forOpen, .ifOpen]
    | .conditional, some _ => [.ifClose, .forOpen, .ifOpen]
    | .loop, none => [.elseClause, .emptyClause, .forClose, .forOpen, .ifOpen]
    | .loop, some _ => [.forClose, .forOpen, .ifOpen]

/-- What messages say could have come next, in their order: markers, other inputs, reserved words. -/
def State.expected (s : State) : List String :=
  let marker := fun m => (Markup.Token.marker m).describe
  match s.mode with
  | .between =>
    [marker (.opening .comment), marker (.opening .tag), marker (.opening .value)] ++
      (if s.openings.isEmpty then ["end of input"] else [])
  | .comment _ => [marker (.closing .comment), "any token"]
  | .value _ | .header _ _ => []
  | .valueContent _ _ => [marker (.closing .value)]
  | .tagContent _ _ | .headerContent _ _ _ | .clause | .final => [marker (.closing .tag)]
  | .tag _ => s.keywords.map (fun k => (Markup.Token.keyword k).describe)

/-- The block that an opening becomes when its last clause ends. -/
def Opening.close (o : Opening) (last : List Block) (stop : Nat) : Block :=
  let span : Span := ⟨o.start, stop⟩
  let (body, orelse) := match o.body with
    | none => (last.reverse, [])
    | some body => (body.reverse, last.reverse)
  match o.kind with
  | .conditional => .conditional span o.header body orelse
  | .loop => .loop span o.header body orelse

def State.add (s : State) (b : Block) : State := ⟨.between, b :: s.blocks, s.openings⟩

def State.turn (s : State) (mode : Mode) : State := ⟨mode, s.blocks, s.openings⟩

/-- The state after a reserved word at the start of a tag. -/
def State.afterKeyword (s : State) (start : Nat) : Keyword → State
  | .ifOpen => s.turn (.header .conditional start)
  | .forOpen => s.turn (.header .loop start)
  | .elseClause | .emptyClause => s.turn .clause
  | .ifClose | .forClose => s.turn .final

/-- The state after a token, if the token can stand here. -/
def State.next? (s : State) (t : Located Markup.Token) : Option State :=
  match s.mode, t.value with
  | .between, .content cs => some (s.add (.text t.span cs))
  | .between, .marker (.opening .value) => some (s.turn (.value t.span.start))
  | .between, .marker (.opening .comment) => some (s.turn (.comment t.span.start))
  | .between, .marker (.opening .tag) => some (s.turn (.tag t.span.start))
  | .value start, .content cs => some (s.turn (.valueContent start ⟨cs, t.span⟩))
  | .valueContent start content, .marker (.closing .value) =>
    some (s.add (.value ⟨start, t.span.stop⟩ content))
  | .comment start, .marker (.closing .comment) => some (s.add (.comment ⟨start, t.span.stop⟩))
  -- within a comment every other token is passed over
  | .comment start, _ => some (s.turn (.comment start))
  | .tag start, .content cs => some (s.turn (.tagContent start ⟨cs, t.span⟩))
  | .tag start, .keyword k =>
    if s.keywords.contains k then some (s.afterKeyword start k) else none
  | .tagContent start content, .marker (.closing .tag) =>
    some (s.add (.tag ⟨start, t.span.stop⟩ content))
  | .header kind start, .content cs => some (s.turn (.headerContent kind start ⟨cs, t.span⟩))
  | .headerContent kind start content, .marker (.closing .tag) =>
    some ⟨.between, [], ⟨kind, start, content, s.blocks, none⟩ :: s.openings⟩
  | .clause, .marker (.closing .tag) =>
    match s.openings with
    | o :: outer => some ⟨.between, [], { o with body := some s.blocks } :: outer⟩
    | [] => none
  | .final, .marker (.closing .tag) =>
    match s.openings with
    | o :: outer => some ⟨.between, o.close s.blocks t.span.stop :: o.outer, outer⟩
    | [] => none
  | _, _ => none

/-- The comment that ends where the state is. -/
def State.lastComment? (s : State) : Option Span :=
  match s.mode, s.blocks with
  | .between, .comment span :: _ => some span
  | _, _ => none

/-- The marker that closes a comment, which is two bytes long, at the end of the comment. -/
def closingOfComment (comment : Span) : Located Markup.Token :=
  ⟨.marker (.closing .comment), ⟨comment.stop - 2, comment.stop⟩⟩

/-- The refusal of a token, or of the end of the input, at its place; a comment is complete only
when something that may follow it was read, so right behind one its closing marker is refused. -/
def State.refuse (s : State) (found : Option Markup.Token) (span : Span) : Failure :=
  match s.lastComment? with
  | none => ⟨found, s.expected, span⟩
  | some last =>
    let closing := closingOfComment last
    ⟨some closing.value, s.expected, closing.span⟩

/-- One token: the next state, or the refusal. -/
def State.step (s : State) (t : Located Markup.Token) : Except Failure State :=
  match s.next? t with
  | some next => .ok next
  | none => .error (s.refuse (some t.value) t.span)

def State.run (s : State) (ts : List (Located Markup.Token)) : Except Failure State :=
  ts.foldlM State.step s

/-- The blocks, if the input may end here; `span` is the place of the end. -/
def State.finish (s : State) (span : Span) : Except Failure (List Block) :=
  match s.mode, s.openings with
  | .between, [] => .ok s.blocks.reverse
  | _, _ => .error (s.refuse none span)

/-- The place of the end of an input that is `stop` bytes long: it runs back to where the last token
ends. -/
def endSpan (stop : Nat) (ts : List (Located Markup.Token)) : Span :=
  match ts.getLast? with
  | none => ⟨stop, stop⟩
  | some t => ⟨stop, t.span.stop⟩

/-- The blocks that a list of tokens spells, of an input that ends at byte `stop`. -/
def parse (stop : Nat) (ts : List (Located Markup.Token)) : Except Failure (List Block) := do
  let s ← State.start.run ts
  s.finish (endSpan stop ts)

end Block
end Stencil
