import Stencil.Document.Block
import Stencil.Expr.Basic
import Stencil.Expr.Read
import Stencil.Markup.Scan
import Stencil.TagWords
import Stencil.Text.Basic

/-!
# Reading a document

The blocks of a template are found first; then the text of each is read in the order of the source,
and the first fault is the fault of the template.
-/

/-!
## Documents

The tree of a template that is ready to render.
-/

namespace Stencil

inductive Node
  /-- Text that is emitted as it stands. -/
  | text (span : Span) (text : String)
  /-- `{{ expr }}` -/
  | value (span : Span) (expr : Expr)
  /-- `{# … #}` -/
  | comment (span : Span)
  /-- `{% if test %}body{% else %}orelse{% endif %}` -/
  | conditional (span : Span) (test : Expr) (body orelse : List Node)
  /-- `{% for target in iterable %}body{% empty %}orelse{% endfor %}` -/
  | loop (span : Span) (target : Ident) (iterable : Expr) (body orelse : List Node)
  /-- `{% name args keyword=value %}` -/
  | tag (span : Span) (name : DottedName) (args : List Expr) (keywords : List (Ident × Expr))

def Node.span : Node → Span
  | .text s _ | .value s _ | .comment s | .conditional s _ _ _ | .loop s _ _ _ _ | .tag s _ _ _ => s

mutual

/-- The same node with every span changed by `f`. -/
def Node.mapSpan (f : Span → Span) : Node → Node
  | .text s t => .text (f s) t
  | .value s e => .value (f s) (e.mapSpan f)
  | .comment s => .comment (f s)
  | .conditional s t b o => .conditional (f s) (t.mapSpan f) (mapNodeSpans f b) (mapNodeSpans f o)
  | .loop s x i b o =>
    .loop (f s) (x.mapSpan f) (i.mapSpan f) (mapNodeSpans f b) (mapNodeSpans f o)
  | .tag s n as ks => .tag (f s) (n.mapSpan f) (mapSpans f as) (mapKeywordSpans f ks)

def mapNodeSpans (f : Span → Span) : List Node → List Node
  | [] => []
  | n :: ns => n.mapSpan f :: mapNodeSpans f ns

end

/-- The node without its places. -/
def Node.bare (n : Node) : Node := n.mapSpan (fun _ => ⟨0, 0⟩)

end Stencil

/-!
## The text of tags

A loop tag is a variable, the word `in` and an expression that reaches to the end of the tag. A custom
tag is a dotted name and arguments, each a word of its own; `name=value` is a keyword argument unless
a second `=` follows.
-/

namespace Stencil.Tag

open TagWords (Word)

def words (content : Located (List Char)) : Except (Located ParseFault) (List Word) :=
  match TagWords.split content.value with
  | .ok words => .ok words
  | .error fault => .error ⟨.words fault content.value, content.span⟩

/-- Where a word of a text that begins at byte `base` stands. -/
def wordSpan (base : Nat) (w : Word) : Span :=
  ⟨base + w.offset, base + w.offset + Text.byteLength w.text⟩

/-- The variable and the expression of a loop tag. -/
def loopHeader (content : Located (List Char)) : Except (Located ParseFault) (Ident × Expr) := do
  let base := content.span.start
  match ← words content with
  | target :: keyword :: rest =>
    if keyword.text = "in".toList then
      match rest with
      | [] => .error ⟨.tag .missingIterable, content.span⟩
      | iterable :: _ =>
        if Identifier.isValid target.text then
          -- the expression goes on to the end of the tag, whatever words it is made of
          let text := (Text.dropBytes content.value iterable.offset).getD []
          let e ← Expr.readAt (base + iterable.offset) text
          .ok (⟨String.ofList target.text, wordSpan base target⟩, e)
        else .error ⟨.tag (.loopVariable target.text), wordSpan base target⟩
    else .error ⟨.tag .missingIn, content.span⟩
  | _ => .error ⟨.tag .missingIn, content.span⟩

/-- Parts with the offsets at which they begin, if the first begins at `offset` and one byte stands
between two. -/
def placed (offset : Nat) : List (List Char) → List (Nat × List Char)
  | [] => []
  | p :: ps => (offset, p) :: placed (offset + Text.byteLength p + 1) ps

/-- A text cut at its dots, each part with its offset, if the text begins at `offset`. -/
def dotParts (offset : Nat) (cs : List Char) : List (Nat × List Char) :=
  placed offset (Text.cut '.' cs)

/-- The name of a custom tag; every segment has to be an identifier. -/
def tagName (base : Nat) (head : Word) : Except (Located ParseFault) DottedName :=
  let parts := dotParts (base + head.offset) head.text
  if parts.all (fun p => Identifier.isValid p.2) then
    .ok ⟨parts.map (fun p => ⟨String.ofList p.2, ⟨p.1, p.1 + Text.byteLength p.2⟩⟩)⟩
  else .error ⟨.tag (.tagName head.text), wordSpan base head⟩

/-- The name and the value of a word of the shape `name=value`. -/
def keywordParts? (word : List Char) : Option (List Char × List Char) :=
  let name := word.takeWhile (· != '=')
  match word.dropWhile (· != '=') with
  | _ :: value => if Identifier.isValid name && value.head? != some '=' then some (name, value)
    else none
  | [] => none

/-- The arguments of a custom tag from its words, after those already read. -/
def arguments (base : Nat) (args : List Expr) (keywords : List (Ident × Expr)) :
    List Word → Except (Located ParseFault) (List Expr × List (Ident × Expr))
  | [] => .ok (args, keywords)
  | w :: ws => do
    let start := base + w.offset
    match keywordParts? w.text with
    | some (name, value) =>
      let key := String.ofList name
      -- the keyword is refused before its value is read
      if keywords.any (fun k => k.1.name == key) then
        .error ⟨.tag (.argument (.repeatedKeyword key)), wordSpan base w⟩
      else
        let eq := start + Text.byteLength name
        let e ← Expr.readAt (eq + 1) value
        arguments base args (keywords ++ [(⟨key, ⟨start, eq⟩⟩, e)]) ws
    | none =>
      if keywords.isEmpty then
        let e ← Expr.readAt start w.text
        arguments base (args ++ [e]) keywords ws
      else .error ⟨.tag (.argument .positionalAfterKeyword), wordSpan base w⟩

structure Call where
  name : DottedName
  args : List Expr
  keywords : List (Ident × Expr)

/-- The custom tag of a text. -/
def call (content : Located (List Char)) : Except (Located ParseFault) Call := do
  match ← words content with
  | [] => .error ⟨.tag .emptyTag, content.span⟩
  | head :: rest =>
    let name ← tagName content.span.start head
    let (args, keywords) ← arguments content.span.start [] [] rest
    .ok ⟨name, args, keywords⟩

end Stencil.Tag

/-! ## Blocks to nodes -/

namespace Stencil

/-- The expression of the text between two markers. -/
def Expr.readContent (content : Located (List Char)) : Except (Located ParseFault) Expr :=
  Expr.readAt content.span.start content.value

mutual

def Node.ofBlock : Block → Except (Located ParseFault) Node
  | .text span cs => .ok (.text span (String.ofList cs))
  | .comment span => .ok (.comment span)
  | .value span content => do
    let e ← Expr.readContent content
    .ok (.value span e)
  | .tag span content => do
    let call ← Tag.call content
    .ok (.tag span call.name call.args call.keywords)
  | .conditional span test body orelse => do
    let test ← Expr.readContent test
    let body ← Node.ofBlocks body
    let orelse ← Node.ofBlocks orelse
    .ok (.conditional span test body orelse)
  | .loop span header body orelse => do
    let (target, iterable) ← Tag.loopHeader header
    let body ← Node.ofBlocks body
    let orelse ← Node.ofBlocks orelse
    .ok (.loop span target iterable body orelse)

def Node.ofBlocks : List Block → Except (Located ParseFault) (List Node)
  | [] => .ok []
  | b :: bs => do
    let n ← Node.ofBlock b
    let ns ← Node.ofBlocks bs
    .ok (n :: ns)

end

namespace Document

def blocks (source : List Char) : Except (Located ParseFault) (List Block) :=
  match Block.parse (Text.byteLength source) (Markup.scan source) with
  | .ok blocks => .ok blocks
  | .error failure => .error ⟨.markup failure.found failure.expected, failure.span⟩

def read (source : List Char) : Except (Located ParseFault) (List Node) :=
  (blocks source).bind Node.ofBlocks

/-- The document of a source, with located errors. -/
def parse (source : List Char) : Except ParseError (List Node) :=
  (read source).mapError (ParseError.ofFault (.ofText source))

end Document
end Stencil
