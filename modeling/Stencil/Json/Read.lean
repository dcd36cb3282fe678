import Stencil.Decimal.Read
import Stencil.Text.Reader
import Stencil.Value.Basic
import Stencil.Value.Entries

/-!
# Reading JSON

A text is one value. Lists and objects are nested at most `maxDepth` deep; of two members with one
name the second gives the value and the first the position.
-/

/-!
## Numbers

A number without a point and an exponent is an integer if 64 bits hold it. All others are the floats
nearest to what is written, and a number beyond all floats is refused. An exponent that 31 bits do
not hold stands for zero if it is negative or its digits are zeros, and is refused otherwise.
-/

namespace Stencil.Json

/-- A number as it is written. -/
structure Numeral where
  negative : Bool
  whole : List Char
  /-- The digits after the point, if there is one. -/
  fraction : Option (List Char)
  /-- The sign and the digits of the exponent, if there is one. -/
  exponent : Option (Bool × List Char)

/-- The digits before the point: no zero in front of others. -/
def wholeDigits : Reader (List Char) := do
  let ds ← Reader.span1 Char.isDigit
  if ds.head? = some '0' ∧ ds.length > 1 then failure else pure ds

def exponentPart : Reader (Bool × List Char) := do
  let _ ← Reader.one (fun c => c == 'e' || c == 'E')
  let minus ← Reader.accept '-'
  if !minus then
    let _ ← Reader.accept '+'
  let ds ← Reader.span1 Char.isDigit
  pure (minus, ds)

def numeral : Reader Numeral := do
  let negative ← Reader.accept '-'
  let whole ← wholeDigits
  let fraction ← Reader.optional (do Reader.char '.'; Reader.span1 Char.isDigit)
  let exponent ← Reader.optional exponentPart
  pure ⟨negative, whole, fraction, exponent⟩

/-- The size from which on an exponent is not computed with. -/
def exponentLimit : Nat := Nat.pow 2 31

/-- The exponent that is written, if it is computed with; no exponent counts as zero. -/
def Numeral.power? (n : Numeral) : Option Int :=
  match n.exponent with
  | none => some 0
  | some (minus, ds) =>
    let size := Decimal.natOfDigits ds
    if size < exponentLimit then some (if minus then -size else size) else none

/-- The size of a number as a float; nothing if no float is that large. -/
def Numeral.size (n : Numeral) : Option Float :=
  let fraction := n.fraction.getD []
  let significand := Decimal.natOfDigits (n.whole ++ fraction)
  match n.power? with
  | some e =>
    let x := Decimal.toFloat significand (e - fraction.length)
    if x.isInf then none else some x
  | none => if significand = 0 ∨ n.exponent.any (·.1) then some 0.0 else none

def Numeral.float (n : Numeral) : Option Datum :=
  n.size.map (fun x => .float (if n.negative then -x else x))

/-- The number that is meant; minus zero is a float. -/
def Numeral.value (n : Numeral) : Option Datum :=
  if n.fraction.isSome || n.exponent.isSome then n.float
  else
    let size := Decimal.natOfDigits n.whole
    if n.negative && 0 < size && Int64.minValue.toInt ≤ -size then some (.int (Int64.ofInt (-size)))
    else if !n.negative && size ≤ Int64.maxValue.toInt then some (.int (Int64.ofNat size))
    else n.float

def number : Reader Datum := do
  let n ← numeral
  match n.value with
  | some d => pure d
  | none => failure

/-! ## Values -/

/-- How deep lists and objects are nested at most. -/
def maxDepth : Nat := 127

def blanks : Reader Unit := do
  let _ ← Reader.span (fun c => c == ' ' || c == '\t' || c == '\n' || c == '\x0d')

/-- What `r` takes, and the blanks after it. -/
def token {α : Type} (r : Reader α) : Reader α := do
  let a ← r
  blanks
  pure a

/-- Read a character that is written by its code; two halves of a pair make one character. -/
def codedChar : Reader Char := do
  let high ← Reader.code 4
  if 0xD800 ≤ high ∧ high < 0xDC00 then
    Reader.word "\\u"
    let low ← Reader.code 4
    if 0xDC00 ≤ low ∧ low < 0xE000 then
      Reader.charOf (0x10000 + (high - 0xD800) * 0x400 + (low - 0xDC00))
    else failure
  else Reader.charOf high

/-- Read a character after a backslash. -/
def escapedChar : Reader Char := do
  let c ← Reader.one (fun _ => true)
  match c with
  | '"' | '\\' | '/' => pure c
  | 'b' => pure '\x08'
  | 'f' => pure '\x0c'
  | 'n' => pure '\n'
  | 'r' => pure '\x0d'
  | 't' => pure '\t'
  | 'u' => codedChar
  | _ => failure

def stringChar : Reader Char := do
  let c ← Reader.one (fun c => c != '"' && ' ' ≤ c)
  if c = '\\' then escapedChar else pure c

def string : Reader String := do
  Reader.char '"'
  let cs ← Reader.many stringChar
  Reader.char '"'
  pure (String.ofList cs)

/-- Read a value that holds no others. -/
def scalar (first : Option Char) : Reader Datum :=
  match first with
  | some '"' => do pure (.str (← string))
  | some 'n' => do Reader.word "null"; pure .none
  | some 't' => do Reader.word "true"; pure (.bool true)
  | some 'f' => do Reader.word "false"; pure (.bool false)
  | _ => number

def list (item : Reader Datum) : Reader Datum := do
  token (Reader.char '[')
  let items ← Reader.separated item (token (Reader.char ','))
  token (Reader.char ']')
  pure (.list items)

def member (item : Reader Datum) : Reader (String × Datum) := do
  let name ← token string
  token (Reader.char ':')
  let d ← item
  pure (name, d)

def object (item : Reader Datum) : Reader Datum := do
  token (Reader.char '\x7b')
  let members ← Reader.separated (member item) (token (Reader.char ','))
  token (Reader.char '\x7d')
  pure (.map (Entries.ofList members))

/-- Read a value that is nested at most so deep. -/
def value : Nat → Reader Datum
  | 0 => do
    let first ← Reader.peek
    token (scalar first)
  | depth + 1 => do
    let first ← Reader.peek
    match first with
    | some '[' => list (value depth)
    | some '\x7b' => object (value depth)
    | _ => token (scalar first)

def read (text : List Char) : Option Datum :=
  Reader.all? (do blanks; value maxDepth) text

end Stencil.Json
