import Stencil.Decimal.Read
import Stencil.Text.Reader
import Stencil.Value.Basic

/-!
# Words of TOML

Blanks and comments, keys, and the values that hold no others: strings, numbers, dates and times.
-/

/-!
## Blanks and comments

Blanks are spaces and tabs; a newline may have a carriage return in front. A comment goes to the end
of its line. A key is a list of segments between dots, each bare or quoted.
-/

namespace Stencil.Toml

def isBlank (c : Char) : Bool := c == ' ' || c == '\t'

def blanks : Reader Unit := do
  let _ ← Reader.span isBlank

def newline : Reader Unit := do
  let _ ← Reader.accept '\x0d'
  Reader.char '\n'

/-- The character may stand in a comment or a literal string: a tab or no control character. -/
def isPlain (c : Char) : Bool := c == '\t' || (' ' ≤ c && c != '\x7f')

def comment : Reader Unit := do
  Reader.char '#'
  let _ ← Reader.span isPlain

def gap : Reader Unit := do
  let _ ← Reader.many (do
    let c ← Reader.peek
    match c with
    | some '#' => comment
    | some ' ' | some '\t' => let _ ← Reader.span1 isBlank
    | _ => newline)

/-- Take what may stand between the last word of a line and the next line, or the end. -/
def lineEnd : Reader Unit := do
  blanks
  let _ ← Reader.optional comment
  let c ← Reader.peek
  match c with
  | none => pure ()
  | some _ => newline

/-!
## Strings and keys

A basic string has escapes, a literal string has none. Each has a form between three quotes, which may
span lines: a newline just after the opening quotes is dropped, and quotes may stand next to the
closing ones.
-/

/-- Read a character after a backslash. -/
def escapedChar : Reader Char := do
  let c ← Reader.one (fun _ => true)
  match c with
  | '"' | '\\' => pure c
  | 'b' => pure '\x08'
  | 't' => pure '\t'
  | 'n' => pure '\n'
  | 'f' => pure '\x0c'
  | 'r' => pure '\x0d'
  | 'u' => do Reader.charOf (← Reader.code 4)
  | 'U' => do Reader.charOf (← Reader.code 8)
  | _ => failure

def basicChar : Reader Char := do
  let c ← Reader.one (fun c => isPlain c && c != '"')
  if c = '\\' then escapedChar else pure c

def basicString : Reader String := do
  Reader.char '"'
  let cs ← Reader.many basicChar
  Reader.char '"'
  pure (String.ofList cs)

def literalString : Reader String := do
  Reader.char '\''
  let cs ← Reader.span (fun c => isPlain c && c != '\'')
  Reader.char '\''
  pure (String.ofList cs)

/-- Take a backslash at the end of a line with all blanks and newlines up to the next word. -/
def continuation : Reader Unit := do
  Reader.char '\\'
  blanks
  newline
  let _ ← Reader.many (do
    let c ← Reader.peek
    match c with
    | some ' ' | some '\t' => let _ ← Reader.span1 isBlank
    | _ => newline)

def newlineChar : Reader Char := do
  newline
  pure '\n'

def basicPiece : Reader (List Char) := fun cs =>
  (do continuation; pure []) cs <|> (do pure [← basicChar]) cs <|> (do pure [← newlineChar]) cs

def literalPiece : Reader (List Char) := fun cs =>
  (do pure [← Reader.one (fun c => isPlain c && c != '\'')]) cs <|> (do pure [← newlineChar]) cs

/-- Read one or two quotes that do not close the string. -/
def innerQuotes (quote : Char) : Reader (List Char) := fun cs =>
  let n := (cs.takeWhile (· == quote)).length
  if 0 < n ∧ n < 3 then some (List.replicate n quote, cs.drop n) else none

/-- Read the closing quotes: three, with one or two before them that belong to the string. -/
def closingQuotes (quote : Char) : Reader (List Char) := fun cs =>
  let n := (cs.takeWhile (· == quote)).length
  if n < 3 then none else some (List.replicate (min (n - 3) 2) quote, cs.drop (min n 5))

/-- Read a string between three quotes, given how its pieces are read. -/
def longString (quote : Char) (piece : Reader (List Char)) : Reader String := do
  Reader.word (String.ofList [quote, quote, quote])
  let _ ← Reader.optional newline
  let pieces ← Reader.many (fun cs => piece cs <|> innerQuotes quote cs)
  let last ← closingQuotes quote
  pure (String.ofList (pieces.flatten ++ last))

def string : Reader String := fun cs =>
  if "\"\"\"".toList.isPrefixOf cs then longString '"' basicPiece cs
  else if "'''".toList.isPrefixOf cs then longString '\'' literalPiece cs
  else basicString cs <|> literalString cs

def isBare (c : Char) : Bool := (c.isAlphanum && c.toNat < 128) || c == '-' || c == '_'

def keySegment : Reader String := fun cs =>
  basicString cs <|> literalString cs
    <|> (do pure (String.ofList (← Reader.span1 isBare)) : Reader String) cs

/-- How many segments a key has at most. -/
def maxSegments : Nat := 79

/-- A key: the segments before the last one, and the last one. -/
structure Key where
  path : List String
  last : String
  deriving DecidableEq, Repr

/-- Read a key with the blanks around it. -/
def key : Reader Key := do
  let segments ← Reader.separated1 (do blanks; let s ← keySegment; blanks; pure s) (Reader.char '.')
  match segments.getLast? with
  | some last => if segments.length ≤ maxSegments then pure ⟨segments.dropLast, last⟩ else failure
  | none => failure

/-!
## Numbers

Single underscores may stand between digits. An integer has 64 bits, or it is refused; a float may
round to minus infinity, but not to infinity.
-/

/-- Read digits of a class; an underscore stands between two of them. -/
def digits (p : Char → Bool) : Reader (List Char) := do
  let first ← Reader.one p
  let rest ← Reader.many (do
    let _ ← Reader.accept '_'
    Reader.one p)
  pure (first :: rest)

/-- Read a sign and say whether it is a minus. -/
def sign : Reader Bool := do
  let minus ← Reader.accept '-'
  if !minus then
    let _ ← Reader.accept '+'
  pure minus

/-- Read decimal digits: zero alone, or digits that do not begin with zero. -/
def decimalDigits : Reader (List Char) := do
  let c ← Reader.peek
  if c = some '0' then do
    Reader.char '0'
    pure ['0']
  else digits Char.isDigit

/-- An integer if 64 bits hold it. -/
def integerOf (n : Int) : Reader Datum :=
  if Int64.minValue.toInt ≤ n ∧ n ≤ Int64.maxValue.toInt then pure (.int (Int64.ofInt n)) else failure

/-- Read an integer in a base that is a power of two. -/
def basedInteger (mark : String) (base : Nat) (p : Char → Bool) : Reader Datum := do
  Reader.word mark
  let ds ← digits p
  integerOf (Text.ofDigits base ds)

def decimalInteger : Reader Datum := do
  let minus ← sign
  let ds ← decimalDigits
  let n : Int := Decimal.natOfDigits ds
  integerOf (if minus then -n else n)

def integer : Reader Datum := fun cs =>
  if "0x".toList.isPrefixOf cs then basedInteger "0x" 16 Text.isHexDigit cs
  else if "0o".toList.isPrefixOf cs then basedInteger "0o" 8 (fun c => '0' ≤ c && c ≤ '7') cs
  else if "0b".toList.isPrefixOf cs then basedInteger "0b" 2 (fun c => c == '0' || c == '1') cs
  else decimalInteger cs

def exponent : Reader Int := do
  let _ ← Reader.one (fun c => c == 'e' || c == 'E')
  let minus ← sign
  let n : Int := Decimal.natOfDigits (← digits Char.isDigit)
  pure (if minus then -n else n)

/-- Read a decimal float: a fraction, an exponent or both. -/
def decimalFloat : Reader Datum := do
  let minus ← sign
  let whole ← decimalDigits
  let fraction ← Reader.optional (do Reader.char '.'; digits Char.isDigit)
  let e ← Reader.optional exponent
  if fraction.isNone && e.isNone then failure
  else
    let part := fraction.getD []
    let x := Decimal.toFloat (Decimal.natOfDigits (whole ++ part)) (e.getD 0 - part.length)
    if x.isInf && !minus then failure else pure (.float (if minus then -x else x))

/-- Read a float that is not finite or no number. -/
def specialFloat : Reader Datum := do
  let minus ← sign
  let c ← Reader.peek
  let x ← if c = some 'i' then do
      Reader.word "inf"
      pure (Float.ofBits 0x7FF0000000000000)
    else do
      Reader.word "nan"
      pure (Float.ofBits 0x7FF8000000000000)
  pure (.float (if minus then -x else x))

def number : Reader Datum := fun cs => decimalFloat cs <|> specialFloat cs <|> integer cs

/-!
## Dates and times

A date, a time, or both, the latter perhaps with an offset. They are read only to be written again in
one form: `T` between date and time, `Z` for no offset, at most nine digits of a second and no zeros at
their end.
-/

/-- Read a number of so many digits, within bounds. -/
def field (digits low high : Nat) : Reader Nat := do
  let n := Decimal.natOfDigits (← Reader.exactly Char.isDigit digits)
  if low ≤ n ∧ n ≤ high then pure n else failure

/-- A number with zeros in front up to a width. -/
def padded (width n : Nat) : String :=
  let ds := Nat.toDigits 10 n
  String.ofList (List.replicate (width - ds.length) '0' ++ ds)

/-- The year has a twenty-ninth of February. -/
def isLeap (year : Nat) : Bool := year % 4 == 0 && (year % 100 != 0 || year % 400 == 0)

def daysOf (year month : Nat) : Nat :=
  match month with
  | 2 => if isLeap year then 29 else 28
  | 4 | 6 | 9 | 11 => 30
  | _ => 31

def date : Reader String := do
  let year ← field 4 0 9999
  Reader.char '-'
  let month ← field 2 1 12
  Reader.char '-'
  let day ← field 2 1 (daysOf year month)
  pure (padded 4 year ++ "-" ++ padded 2 month ++ "-" ++ padded 2 day)

def dropZeros (ds : List Char) : List Char := (ds.reverse.dropWhile (· == '0')).reverse

/-- Read the part of a second after the point. -/
def secondFraction : Reader String := do
  Reader.char '.'
  let ds := dropZeros ((← Reader.span1 Char.isDigit).take 9)
  pure (if ds.isEmpty then "" else String.ofList ('.' :: ds))

def time : Reader String := do
  let hour ← field 2 0 23
  Reader.char ':'
  let minute ← field 2 0 59
  Reader.char ':'
  let second ← field 2 0 60
  let fraction ← Reader.optional secondFraction
  pure (padded 2 hour ++ ":" ++ padded 2 minute ++ ":" ++ padded 2 second ++ fraction.getD "")

/-- Read an offset from universal time; one of minus nothing has a plus sign. -/
def offset : Reader String := do
  let mark ← Reader.one (fun c => c == 'Z' || c == 'z' || c == '+' || c == '-')
  if mark = 'Z' ∨ mark = 'z' then pure "Z"
  else
    let hour ← field 2 0 23
    Reader.char ':'
    let minute ← field 2 0 59
    let sign := if mark = '-' ∧ 0 < hour + minute then "-" else "+"
    pure (sign ++ padded 2 hour ++ ":" ++ padded 2 minute)

def timeOfDate : Reader String := do
  let _ ← Reader.one (fun c => c == 'T' || c == 't' || c == ' ')
  let clock ← time
  let zone ← Reader.optional offset
  pure ("T" ++ clock ++ zone.getD "")

def moment : Reader String := fun cs =>
  (do
    let day ← date
    let clock ← Reader.optional timeOfDate
    pure (day ++ clock.getD "") : Reader String) cs <|> time cs

end Stencil.Toml
