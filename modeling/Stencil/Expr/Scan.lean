import Stencil.Expr.Basic
import Stencil.Source
import Stencil.Text.Basic
import Stencil.Text.Escape

/-!
# Scanning expressions

A text is cut into lexemes, always the longest that fits: numbers, quoted strings, words, operators
and punctuation. Between them stand spaces, tabs, line feeds, carriage returns and form feeds. A
character that begins no lexeme is an item of its own, and a quote that is never closed takes the
rest of the text with it. Scanning goes on after both. Last, the words of `not in` and `is not` are
joined where nothing else is between them.
-/

/-!
## Tokens

Literals and names carry their text; every other token has one spelling.
-/

namespace Stencil

/-- A token. The words `not in` and `is not` are one operator each; a lone `not` is a token that no
expression contains. -/
inductive Token
  /-- The text of a number; a point or an exponent makes it a float. -/
  | number (text : List Char)
  /-- What stands between two quotes. -/
  | string (text : List Char)
  | name (text : List Char)
  | operator (op : Operator)
  | lbracket | rbracket | lparen | rparen
  | comma | dot | pipe | colon | assign
  | not
  deriving DecidableEq, Repr

namespace Token

/-- The spelling of a token that carries no text. -/
def symbol : Token → String
  | .number _ | .string _ | .name _ => "literal"
  | .operator op => op.symbol
  | .lbracket => "["
  | .rbracket => "]"
  | .lparen => "("
  | .rparen => ")"
  | .comma => ","
  | .dot => "."
  | .pipe => "|"
  | .colon => ":"
  | .assign => "="
  | .not => "not"

def describe : Token → String
  | .number text => "number " ++ String.ofList text
  | .string text => "string " ++ Text.quotedString text
  | .name text => "name '" ++ String.ofList text ++ "'"
  | t => "'" ++ t.symbol ++ "'"

end Token
end Stencil

/-! ## Lexemes -/

namespace Stencil.Token

/-- What the scanner finds: a token, or a fragment that is none. -/
inductive Item
  | token (t : Token)
  | stray (fragment : List Char)
  deriving DecidableEq, Repr

def isSkipped (c : Char) : Bool :=
  c == ' ' || c == '\t' || c == '\n' || c == '\r' || c == '\x0c'

/-- A lexeme: what it means, the characters it consists of and the text after it. -/
structure Lexeme where
  item : Item
  text : List Char
  rest : List Char

def digits (cs : List Char) : List Char := cs.takeWhile Char.isDigit

def afterDigits (cs : List Char) : List Char := cs.dropWhile Char.isDigit

/-- The part of a number after its whole digits: a fraction, an exponent, or nothing. -/
def numberTail (cs : List Char) : List Char :=
  match cs with
  | '.' :: ds => if (digits ds).isEmpty then [] else '.' :: digits ds
  -- a mark without digits after it is not part of the number
  | 'e' :: '-' :: ds => if (digits ds).isEmpty then [] else 'e' :: '-' :: digits ds
  | 'E' :: '-' :: ds => if (digits ds).isEmpty then [] else 'E' :: '-' :: digits ds
  | 'e' :: ds => if (digits ds).isEmpty then [] else 'e' :: digits ds
  | 'E' :: ds => if (digits ds).isEmpty then [] else 'E' :: digits ds
  | _ => []

/-- The number at the start of a text that begins with a digit. -/
def numberLexeme (cs : List Char) : Lexeme :=
  let whole := digits cs
  let tail := numberTail (afterDigits cs)
  ⟨.token (.number (whole ++ tail)), whole ++ tail, (afterDigits cs).drop tail.length⟩

/-- The string after its opening quote, or the whole rest if the quote is not closed. -/
def stringLexeme (quote : Char) (cs : List Char) : Lexeme :=
  let body := cs.takeWhile (· != quote)
  match cs.dropWhile (· != quote) with
  | [] => ⟨.stray (quote :: body), quote :: body, []⟩
  | _ :: rest => ⟨.token (.string body), quote :: (body ++ [quote]), rest⟩

/-- The token of a word: five words are reserved. -/
def ofWord (word : List Char) : Token :=
  if word = "in".toList then .operator (.compare .mem)
  else if word = "is".toList then .operator (.compare .same)
  else if word = "and".toList then .operator (.logic .and)
  else if word = "or".toList then .operator (.logic .or)
  else if word = "not".toList then .not
  else .name word

/-- The word at the start of a text that begins with a letter or an underscore. -/
def wordLexeme (cs : List Char) : Lexeme :=
  let word := cs.takeWhile Identifier.isPart
  ⟨.token (ofWord word), word, cs.dropWhile Identifier.isPart⟩

def ofChar? : Char → Option Token
  | '[' => some .lbracket
  | ']' => some .rbracket
  | '(' => some .lparen
  | ')' => some .rparen
  | ',' => some .comma
  | '.' => some .dot
  | '|' => some .pipe
  | ':' => some .colon
  | '=' => some .assign
  | '+' => some (.operator (.arith .add))
  | '-' => some (.operator (.arith .sub))
  | '*' => some (.operator (.arith .mul))
  | '/' => some (.operator (.arith .div))
  | '%' => some (.operator (.arith .mod))
  | '<' => some (.operator (.compare .lt))
  | '>' => some (.operator (.compare .gt))
  | _ => none

/-- The comparison that ends in `=` after this character. -/
def withEquals? : Char → Option Token
  | '=' => some (.operator (.compare .eq))
  | '!' => some (.operator (.compare .ne))
  | '<' => some (.operator (.compare .le))
  | '>' => some (.operator (.compare .ge))
  | _ => none

/-- The punctuation at the start of a text, or its first character as a stray one. -/
def symbolLexeme (c : Char) (cs : List Char) : Lexeme :=
  let single : Lexeme := match ofChar? c with
    | some t => ⟨.token t, [c], cs⟩
    | none => ⟨.stray [c], [c], cs⟩
  match withEquals? c, cs with
  | some t, '=' :: rest => ⟨.token t, [c, '='], rest⟩
  | _, _ => single

/-- The lexeme at the start of a text that begins with no white space. -/
def lexeme (c : Char) (cs : List Char) : Lexeme :=
  if c.isDigit then numberLexeme (c :: cs)
  else if c == '"' || c == '\'' then stringLexeme c cs
  else if Identifier.isStart c then wordLexeme (c :: cs)
  else symbolLexeme c cs

theorem length_dropWhile_le (p : Char → Bool) (cs : List Char) :
    (cs.dropWhile p).length ≤ cs.length := (List.dropWhile_sublist p).length_le

theorem length_rest_numberLexeme {c : Char} (cs : List Char) (h : c.isDigit = true) :
    (numberLexeme (c :: cs)).rest.length < (c :: cs).length := by
  have := length_dropWhile_le Char.isDigit cs
  simp only [numberLexeme, afterDigits, List.dropWhile_cons, h, if_true, List.length_drop,
    List.length_cons]
  omega

theorem length_rest_stringLexeme (q : Char) (cs : List Char) :
    (stringLexeme q cs).rest.length < (q :: cs).length := by
  have h := length_dropWhile_le (· != q) cs
  unfold stringLexeme
  cases hd : cs.dropWhile (· != q) with
  | nil => simp
  | cons a rest =>
    rw [hd] at h
    simp only [List.length_cons] at h ⊢
    omega

theorem length_rest_wordLexeme {c : Char} (cs : List Char) (h : Identifier.isStart c = true) :
    (wordLexeme (c :: cs)).rest.length < (c :: cs).length := by
  have hp : Identifier.isPart c = true := by
    simp only [Identifier.isStart, Identifier.isPart, Char.isAlphanum, Bool.or_eq_true] at h ⊢
    rcases h with h | h
    · exact Or.inl (Or.inl h)
    · exact Or.inr h
  have := length_dropWhile_le Identifier.isPart cs
  simp only [wordLexeme, List.dropWhile_cons, hp, if_true, List.length_cons]
  omega

theorem length_rest_symbolLexeme (c : Char) (cs : List Char) :
    (symbolLexeme c cs).rest.length < (c :: cs).length := by
  unfold symbolLexeme
  dsimp only
  split
  · simp only [List.length_cons]; omega
  · split <;> simp

/-- A lexeme takes at least one character. -/
theorem length_rest_lexeme (c : Char) (cs : List Char) :
    (lexeme c cs).rest.length < (c :: cs).length := by
  unfold lexeme
  split
  · exact length_rest_numberLexeme cs ‹_›
  · split
    · exact length_rest_stringLexeme c cs
    · split
      · exact length_rest_wordLexeme cs ‹_›
      · exact length_rest_symbolLexeme c cs

/-- The items of a text that begins at byte `offset`, before words are joined. -/
def rawItems (offset : Nat) : List Char → List (Located Item)
  | [] => []
  | c :: cs =>
    if isSkipped c then rawItems (offset + c.utf8Size) cs
    else
      let stop := offset + Text.byteLength (lexeme c cs).text
      ⟨(lexeme c cs).item, ⟨offset, stop⟩⟩ :: rawItems stop (lexeme c cs).rest
  termination_by cs => cs.length
  decreasing_by
    · simp
    · exact length_rest_lexeme c cs

/-- `not in` and `is not` become one token each. -/
def joinWords : List (Located Item) → List (Located Item)
  | ⟨.token .not, a⟩ :: ⟨.token (.operator (.compare .mem)), b⟩ :: rest =>
    ⟨.token (.operator (.compare .notMem)), a.cover b⟩ :: joinWords rest
  | ⟨.token (.operator (.compare .same)), a⟩ :: ⟨.token .not, b⟩ :: rest =>
    ⟨.token (.operator (.compare .notSame)), a.cover b⟩ :: joinWords rest
  | item :: rest => item :: joinWords rest
  | [] => []

def itemsFrom (offset : Nat) (text : List Char) : List (Located Item) :=
  joinWords (rawItems offset text)

/-- The items of a text: tokens, and the fragments that are none. -/
def items (text : List Char) : List (Located Item) := itemsFrom 0 text

/-- A fragment that is no token, and where it stands. -/
structure Stray where
  fragment : List Char
  span : Span
  deriving DecidableEq, Repr

/-- The tokens of a list of items, or its first stray fragment. -/
def onlyTokens : List (Located Item) → Except Stray (List (Located Token))
  | [] => .ok []
  | ⟨.stray fragment, span⟩ :: _ => .error ⟨fragment, span⟩
  | ⟨.token t, span⟩ :: rest => (onlyTokens rest).map (⟨t, span⟩ :: ·)

/-- The tokens of a text that begins at byte `offset`. -/
def scanFrom (offset : Nat) (text : List Char) : Except Stray (List (Located Token)) :=
  onlyTokens (itemsFrom offset text)

end Stencil.Token
