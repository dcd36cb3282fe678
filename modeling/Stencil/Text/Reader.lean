/-!
# Readers

A reader takes something from the front of a text or fails; it leaves the rest. Repetition is bounded
by the length of the text, so that every reader is total: a reader that is repeated takes at least one
character each time.
-/
namespace Stencil

/-- Takes a result from the front of a text, or fails. -/
abbrev Reader := StateT (List Char) Option

namespace Reader

variable {α β : Type}

/-- The next character, which is left where it is; nothing at the end. -/
def peek : Reader (Option Char) := fun cs => some (cs.head?, cs)

/-- Take a character of a class. -/
def one (p : Char → Bool) : Reader Char
  | [] => none
  | c :: cs => if p c then some (c, cs) else none

def char (c : Char) : Reader Unit := do
  let _ ← one (· == c)

def word (text : String) : Reader Unit := fun cs =>
  if text.toList.isPrefixOf cs then some ((), cs.drop text.length) else none

/-- Take all characters of a class that come next. -/
def span (p : Char → Bool) : Reader (List Char) := fun cs => some (cs.takeWhile p, cs.dropWhile p)

/-- Take the characters of a class that come next, at least one. -/
def span1 (p : Char → Bool) : Reader (List Char) := do
  let first ← one p
  let rest ← span p
  pure (first :: rest)

/-- Take exactly so many characters of a class. -/
def exactly (p : Char → Bool) : Nat → Reader (List Char)
  | 0 => pure []
  | n + 1 => do
    let first ← one p
    let rest ← exactly p n
    pure (first :: rest)

/-- What `r` takes, or nothing if it fails. -/
def optional (r : Reader α) : Reader (Option α) := fun cs =>
  match r cs with
  | some (a, rest) => some (some a, rest)
  | none => some (none, cs)

/-- Take this character if it comes next, and say whether it did. -/
def accept (c : Char) : Reader Bool := do
  let taken ← optional (char c)
  pure taken.isSome

/-- The results of `r`, at most so many, until it fails. -/
def upTo (r : Reader α) : Nat → Reader (List α)
  | 0 => pure []
  | n + 1 => fun cs =>
    match r cs with
    | none => some ([], cs)
    | some (a, rest) => (upTo r n rest).map (fun (as, rest) => (a :: as, rest))

/-- The results of `r` until it fails. -/
def many (r : Reader α) : Reader (List α) := fun cs => upTo r cs.length cs

/-- The results of `r` with separators between them, at least one. -/
def separated1 (r : Reader α) (separator : Reader β) : Reader (List α) := do
  let first ← r
  let rest ← many (do let _ ← separator; r)
  pure (first :: rest)

/-- The results of `r` with separators between them. -/
def separated (r : Reader α) (separator : Reader β) : Reader (List α) := do
  let items ← optional (separated1 r separator)
  pure (items.getD [])

/-- What `r` makes of the whole of a text. -/
def all? (r : Reader α) (text : List Char) : Option α :=
  match r text with
  | some (a, []) => some a
  | _ => none

end Reader
end Stencil

/-!
## Hexadecimal digits

Digits of either case, and characters that are written by their code.
-/

namespace Stencil.Text

def isHexDigit (c : Char) : Bool :=
  c.isDigit || ('a' ≤ c && c ≤ 'f') || ('A' ≤ c && c ≤ 'F')

/-- The value of a digit of a base up to sixteen. -/
def digitValue (c : Char) : Nat :=
  if c.isDigit then c.toNat - 48 else if c.toNat < 97 then c.toNat - 55 else c.toNat - 87

/-- The value of a list of digits of a base. -/
def ofDigits (base : Nat) (ds : List Char) : Nat :=
  ds.foldl (fun n c => base * n + digitValue c) 0

end Stencil.Text

namespace Stencil.Reader

def code (digits : Nat) : Reader Nat := do
  let ds ← exactly Text.isHexDigit digits
  pure (Text.ofDigits 16 ds)

def charOf (n : Nat) : Reader Char :=
  if h : n.isValidChar then pure (Char.ofNatAux n h) else failure

end Stencil.Reader
