import Stencil.Document.Block
import Stencil.Expr.Parser
import Stencil.Expr.Scan
import Stencil.Source
import Stencil.TagWords

/-!
# Reading an expression

From text to tree. An expression inside a template is read at the byte offset at which its text
begins, so that all spans, also those of faults, count from the start of the template. The errors are
those of a whole template.
-/

/-!
## Parse errors

Every fault of a template has a span in its source; the error adds the line and column at which the
span starts.
-/

namespace Stencil

/-- What is wrong with the text of a tag. -/
inductive TagFault
  | loopVariable (text : List Char)
  | missingIn
  | missingIterable
  | emptyTag
  | tagName (text : List Char)
  | argument (fault : ArgumentFault)
  deriving DecidableEq, Repr

def TagFault.message : TagFault → String
  | .loopVariable text => "invalid loop variable '" ++ String.ofList text ++ "'"
  | .missingIn => "'in' expected in for loop arguments"
  | .missingIterable => "missing iterable after 'in'"
  | .emptyTag => "empty tag"
  | .tagName text => "invalid tag name '" ++ String.ofList text ++ "'"
  | .argument fault => fault.message

/-- What is wrong with a template. -/
inductive ParseFault
  /-- A fragment that is no token. -/
  | stray (fragment : List Char)
  /-- An expression that breaks the grammar. -/
  | expression (problem : Parser.Problem)
  /-- A marker, word or text out of place; nothing found is the end of the input. -/
  | markup (found : Option Markup.Token) (expected : List String)
  | tag (fault : TagFault)
  /-- A tag whose text cannot be cut into words. -/
  | words (fault : TagWords.Fault) (input : List Char)

def unexpectedMessage (found : Option String) : String :=
  "unexpected " ++ found.getD "end of input"

def Parser.Problem.message : Parser.Problem → String
  | .unexpected found _ => unexpectedMessage (found.map Token.describe)
  | .argument fault => fault.message
  | .numberRange text => "number " ++ String.ofList text ++ " out of range"

namespace ParseFault

/-- What was expected instead, for faults of syntax. -/
def expected : ParseFault → List String
  | .expression (.unexpected _ expected) => expected
  | .markup _ expected => expected
  | _ => []

/-- The fault without its place. -/
def detail : ParseFault → String
  | .stray fragment => "unexpected input " ++ Text.quotedString fragment
  | .expression problem => problem.message
  | .markup found _ => unexpectedMessage (found.map Markup.Token.describe)
  | .tag fault => fault.message
  | .words fault input => fault.message (String.ofList input)

/-- The fault at a place. -/
def message (fault : ParseFault) (place : String) : String :=
  match fault with
  | .stray _ => fault.detail ++ " at " ++ place
  | .expression _ | .markup _ _ => "syntax error at " ++ place ++ ": " ++ fault.detail
  | .tag _ => "invalid tag at " ++ place ++ ": " ++ fault.detail
  | .words _ _ => "invalid tag arguments at " ++ place ++ ": " ++ fault.detail

end ParseFault

/-- A fault with its place in a template. -/
structure ParseError where
  fault : ParseFault
  span : Span
  location : Location

def ParseError.ofFault (index : LineIndex) (f : Located ParseFault) : ParseError :=
  ⟨f.value, f.span, index.locate f.span.start⟩

def ParseError.message (e : ParseError) : String := e.fault.message e.location.text

end Stencil

/-! ## Expressions of a text -/

namespace Stencil.Expr

/-- The expression of a text that begins at byte `base` of a template. -/
def readAt (base : Nat) (text : List Char) : Except (Located ParseFault) Expr :=
  match Token.scanFrom base text with
  | .error stray => .error ⟨.stray stray.fragment, stray.span⟩
  | .ok tokens =>
    match Parser.parse (base + Text.byteLength text) tokens with
    | .error failure => .error ⟨.expression failure.problem, failure.span⟩
    | .ok e => .ok e

def read (text : List Char) : Except (Located ParseFault) Expr := readAt 0 text

/-- The expression at byte `base` of an indexed template. -/
def parseAt (base : Nat) (text : List Char) (index : LineIndex) : Except ParseError Expr :=
  (readAt base text).mapError (ParseError.ofFault index)

def parse (text : List Char) : Except ParseError Expr := parseAt 0 text (.ofText text)

end Stencil.Expr
