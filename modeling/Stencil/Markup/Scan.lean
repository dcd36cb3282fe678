import Stencil.Source
import Stencil.Text.Basic
import Stencil.Text.Escape

/-!
# Scanning templates

A template is text with three kinds of marked places: values `{{ }}`, tags `{% %}` and comments
`{# #}`. It is cut at the markers first; then each run of text becomes tokens.
-/

/-!
## Tokens

A template is text with three kinds of marked places: values `{{ }}`, tags `{% %}` and comments
`{# #}`. A tag may begin with a reserved word.
-/

namespace Stencil.Markup

/-- The three pairs of markers. -/
inductive Delimiter
  | value
  | tag
  | comment
  deriving DecidableEq, Repr

inductive Marker
  | opening (d : Delimiter)
  | closing (d : Delimiter)
  deriving DecidableEq, Repr

def Marker.chars : Marker → List Char
  | .opening .value => ['\x7b', '\x7b']
  | .closing .value => ['\x7d', '\x7d']
  | .opening .tag => ['\x7b', '%']
  | .closing .tag => ['%', '\x7d']
  | .opening .comment => ['\x7b', '#']
  | .closing .comment => ['#', '\x7d']

/-- The marker that two characters form. -/
def marker? (c d : Char) : Option Marker :=
  if c == '\x7b' then
    if d == '\x7b' then some (.opening .value)
    else if d == '%' then some (.opening .tag)
    else if d == '#' then some (.opening .comment)
    else none
  else if d == '\x7d' then
    if c == '\x7d' then some (.closing .value)
    else if c == '%' then some (.closing .tag)
    else if c == '#' then some (.closing .comment)
    else none
  else none

/-- The words that a tag may begin with and that are not names. -/
inductive Keyword
  | ifOpen | ifClose | elseClause | forOpen | forClose | emptyClause
  deriving DecidableEq, Repr

def Keyword.word : Keyword → String
  | .ifOpen => "if"
  | .ifClose => "endif"
  | .elseClause => "else"
  | .forOpen => "for"
  | .forClose => "endfor"
  | .emptyClause => "empty"

def Keyword.all : List Keyword :=
  [.ifOpen, .ifClose, .elseClause, .forOpen, .forClose, .emptyClause]

/-- The reserved word that this text is. -/
def Keyword.ofWord? (word : List Char) : Option Keyword :=
  Keyword.all.find? (fun k => k.word.toList == word)

/-- A token of a template. -/
inductive Token
  | marker (m : Marker)
  | keyword (k : Keyword)
  /-- Text outside of markers as it stands, or the trimmed text between two markers. -/
  | content (text : List Char)
  deriving DecidableEq, Repr

def Token.describe : Token → String
  | .marker m => "'" ++ String.ofList m.chars ++ "'"
  | .keyword k => "keyword '" ++ k.word ++ "'"
  | .content text => "text " ++ Text.quotedString text

/-!
## Runs of text

First the text is cut at the markers, from left to right. Then each run of text becomes tokens, by the
marker before it: after a closing marker, or at the start, it stands as it is; after an opening
marker it is trimmed, dropped if nothing is left, and in a tag its reserved first word is split off.
-/

/-- A marker, or the text up to the next one. -/
inductive Piece
  | marker (m : Marker)
  | text (cs : List Char)
  deriving DecidableEq, Repr

def addChar (c : Char) : List Piece → List Piece
  | .text cs :: ps => .text (c :: cs) :: ps
  | ps => .text [c] :: ps

/-- The text cut at its markers. -/
def pieces : List Char → List Piece
  | c :: d :: cs =>
    match marker? c d with
    | some m => .marker m :: pieces cs
    | none => addChar c (pieces (d :: cs))
  | [c] => [.text [c]]
  | [] => []

/-- The place that a marker leads to: within an opened pair, or outside of all. -/
def Marker.context : Marker → Option Delimiter
  | .opening d => some d
  | .closing _ => none

/-- The content token of a text that begins at `offset`, trimmed in front; none if it is blank. -/
def contentAfterBlank (offset : Nat) (cs : List Char) : List (Located Token) :=
  let body := Text.trimStart cs
  let start := offset + Text.byteLength (cs.takeWhile Text.isBlank)
  if body.isEmpty then [] else [⟨.content body, ⟨start, start + Text.byteLength body⟩⟩]

/-- The tokens of the text between two markers of a tag, which begins at `offset` and has no white
space at its ends. -/
def tagTokens (offset : Nat) (cs : List Char) : List (Located Token) :=
  match Keyword.ofWord? (Text.leadingWord cs) with
  | some k =>
    let stop := offset + Text.byteLength (Text.leadingWord cs)
    ⟨.keyword k, ⟨offset, stop⟩⟩ :: contentAfterBlank stop (Text.afterLeadingWord cs)
  | none => [⟨.content cs, ⟨offset, offset + Text.byteLength cs⟩⟩]

/-- The tokens of a run of text that begins at `offset`. -/
def textTokens (context : Option Delimiter) (offset : Nat) (cs : List Char) :
    List (Located Token) :=
  match context with
  | none => [⟨.content cs, ⟨offset, offset + Text.byteLength cs⟩⟩]
  | some d =>
    let body := Text.trim cs
    let start := offset + Text.byteLength (cs.takeWhile Text.isBlank)
    if body.isEmpty then []
    else if d = .tag then tagTokens start body
    else [⟨.content body, ⟨start, start + Text.byteLength body⟩⟩]

/-- The tokens of pieces that begin at `offset`. -/
def pieceTokens (context : Option Delimiter) (offset : Nat) : List Piece → List (Located Token)
  | [] => []
  | .marker m :: ps => ⟨.marker m, ⟨offset, offset + 2⟩⟩ :: pieceTokens m.context (offset + 2) ps
  | .text cs :: ps =>
    textTokens context offset cs ++ pieceTokens context (offset + Text.byteLength cs) ps

def scan (source : List Char) : List (Located Token) := pieceTokens none 0 (pieces source)

end Stencil.Markup
