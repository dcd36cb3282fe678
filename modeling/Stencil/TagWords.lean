import Stencil.Text.Basic

/-!
# Words of a tag

The text inside a tag is cut into words at white space. Quotes and parentheses group: white space
within them belongs to the word. A backslash takes the next character with it, whatever it is. All
of these characters stay in the word as they were written, and each word keeps the byte offset at
which it begins.
-/
namespace Stencil

inductive Quote
  | double
  | single
  deriving DecidableEq, Repr

def Quote.name : Quote → String
  | .double => "double"
  | .single => "single"

namespace TagWords

/-- A word and the byte offset of its first character. -/
structure Word where
  offset : Nat
  text : List Char
  deriving DecidableEq, Repr

inductive Fault
  /-- A quote is open at the end. -/
  | unclosedQuote (quote : Quote)
  /-- So many parentheses are open at the end. -/
  | unclosedParens (count : Nat)
  /-- The closing parenthesis at this offset has no opening one. -/
  | unopenedParen (offset : Nat)
  /-- The text ends in a backslash that escapes nothing. -/
  | danglingEscape
  deriving DecidableEq, Repr

/-- What a fault says of the text it was found in. -/
def Fault.message (input : String) : Fault → String
  | .unclosedQuote q => s!"unclosed {q.name} quote in `" ++ input ++ "`"
  | .unclosedParens n => s!"unclosed parenthesis ({n} still open) in `" ++ input ++ "`"
  | .unopenedParen i => s!"closing parenthesis at offset {i} was never opened in `" ++ input ++ "`"
  | .danglingEscape => "dangling escape at the end of `" ++ input ++ "`"

/-- The word being read: where it began and its characters, latest first. -/
structure Pending where
  offset : Nat
  letters : List Char
  deriving DecidableEq, Repr

/-- What the reader remembers between characters. -/
structure State where
  escaped : Bool
  quote : Option Quote
  depth : Nat
  word : Option Pending
  deriving DecidableEq, Repr

/-- Between words, with nothing open. -/
def State.start : State := ⟨false, none, 0, none⟩

/-- White space ends a word here. -/
def State.free (s : State) : Bool := s.quote.isNone && s.depth == 0

/-- The state with a character added to the word, which begins at `offset` if there is none. -/
def State.push (s : State) (offset : Nat) (c : Char) : State :=
  match s.word with
  | none => { s with word := some ⟨offset, [c]⟩ }
  | some w => { s with word := some ⟨w.offset, c :: w.letters⟩ }

def State.finished (s : State) : List Word :=
  match s.word with
  | none => []
  | some w => [⟨w.offset, w.letters.reverse⟩]

/-- The fault of a text that ends in this state: an open quote is named before an open parenthesis,
and that before a dangling backslash. -/
def State.fault? (s : State) : Option Fault :=
  match s.quote with
  | some q => some (.unclosedQuote q)
  | none =>
    if s.depth > 0 then some (.unclosedParens s.depth)
    else if s.escaped then some .danglingEscape else none

/-- The quotes after a quote character: inside the other quote it is an ordinary character. -/
def toggle (q : Quote) : Option Quote → Option Quote
  | none => some q
  | some p => if p = q then none else some p

/-- The words of a text that begins at `offset` in state `s`. -/
def splitFrom (s : State) (offset : Nat) : List Char → Except Fault (List Word)
  | [] => match s.fault? with
    | some fault => .error fault
    | none => .ok s.finished
  | c :: cs =>
    let next := offset + c.utf8Size
    if s.escaped then
      -- the backslash stands one byte before its character
      let s := { s with escaped := false }
      splitFrom ((s.push (offset - 1) '\\').push offset c) next cs
    else if c = '\\' then
      splitFrom { s with escaped := true } next cs
    else if c = '"' then
      splitFrom ({ s with quote := toggle .double s.quote }.push offset c) next cs
    else if c = '\'' then
      splitFrom ({ s with quote := toggle .single s.quote }.push offset c) next cs
    else if c = '(' ∧ s.quote.isNone then
      splitFrom ({ s with depth := s.depth + 1 }.push offset c) next cs
    else if c = ')' ∧ s.quote.isNone then
      match s.depth with
      | 0 => .error (.unopenedParen offset)
      | depth + 1 => splitFrom ({ s with depth := depth }.push offset c) next cs
    else if Text.isBlank c && s.free then
      (splitFrom { s with word := none } next cs).map (s.finished ++ ·)
    else
      splitFrom (s.push offset c) next cs

def split (text : List Char) : Except Fault (List Word) := splitFrom .start 0 text

end TagWords
end Stencil
