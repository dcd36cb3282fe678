import Stencil.Text.Basic

/-!
# Places in a source

Every piece of a template keeps the span of bytes it was read from. Messages give the line and the column
at which a span starts.
-/

/-!
## Spans

A span is a half-open range of byte offsets into a template.
-/

namespace Stencil

/-- The bytes from `start` up to, and without, `stop`. -/
structure Span where
  start : Nat
  stop : Nat
  deriving DecidableEq, Repr, Inhabited

namespace Span

def shift (base : Nat) (s : Span) : Span := ⟨base + s.start, base + s.stop⟩

/-- From the start of one span to the end of another. -/
def cover (a b : Span) : Span := ⟨a.start, b.stop⟩

def Within (inner outer : Span) : Prop := outer.start ≤ inner.start ∧ inner.stop ≤ outer.stop

end Span

/-- A piece of source with the place it was read from. -/
structure Located (α : Type) where
  value : α
  span : Span
  deriving DecidableEq, Repr

section
variable {α : Type} {ts : List (Located α)} {t u v : α} {vs : List α}

theorem eq_cons_of_map (h : ts.map Located.value = t :: vs) :
    ∃ s us, ts = ⟨t, s⟩ :: us ∧ us.map Located.value = vs := by
  obtain ⟨⟨_, s⟩, us, rfl, rfl, hus⟩ := List.map_eq_cons_iff.1 h
  exact ⟨s, us, rfl, hus⟩

theorem eq_pair_of_map (h : ts.map Located.value = [t, u]) : ∃ a b, ts = [⟨t, a⟩, ⟨u, b⟩] := by
  obtain ⟨a, us, rfl, hus⟩ := eq_cons_of_map h
  obtain ⟨b, ws, rfl, hws⟩ := eq_cons_of_map hus
  exact ⟨a, b, by rw [List.map_eq_nil_iff.1 hws]⟩

theorem eq_triple_of_map (h : ts.map Located.value = [t, u, v]) :
    ∃ a b c, ts = [⟨t, a⟩, ⟨u, b⟩, ⟨v, c⟩] := by
  obtain ⟨a, us, rfl, hus⟩ := eq_cons_of_map h
  obtain ⟨b, c, rfl⟩ := eq_pair_of_map hus
  exact ⟨a, b, c, rfl⟩

end

/-!
## Lines and columns

A location is a 1-based line and column. `LineIndex` finds it by a binary search in the offsets at
which lines start; `Location.after` states the same by counting along the text before the offset.
A column counts characters; an offset inside a character has no such count and is measured in bytes.
-/

structure Location where
  line : Nat
  column : Nat
  deriving DecidableEq, Repr, Inhabited

namespace Location

def text (l : Location) : String := s!"line {l.line}, column {l.column}"

/-- The location just after a text that begins at `l`. -/
def advance (l : Location) : List Char → Location
  | [] => l
  | c :: cs => advance (if c = '\n' then ⟨l.line + 1, 1⟩ else ⟨l.line, l.column + 1⟩) cs

/-- The location at the end of a text: newlines start lines, all other characters fill columns. -/
def after (before : List Char) : Location := advance ⟨1, 1⟩ before

/-- Order of reading: by line, then by column. -/
def Before (a b : Location) : Prop := a.line < b.line ∨ (a.line = b.line ∧ a.column < b.column)

end Location

/-- A text with the byte offsets at which its lines start. -/
structure LineIndex where
  text : List Char
  size : Nat
  starts : Array Nat

namespace LineIndex

/-- The offsets just after each newline of a text that begins at `offset`. -/
def startsFrom (offset : Nat) : List Char → List Nat
  | [] => []
  | c :: cs =>
    let next := offset + c.utf8Size
    if c = '\n' then next :: startsFrom next cs else startsFrom next cs

def ofText (text : List Char) : LineIndex :=
  ⟨text, Text.byteLength text, (0 :: startsFrom 0 text).toArray⟩

/-- The last index in `[lo, hi)` whose start is at most `offset`, given that `lo`'s is. -/
def bisect (starts : Array Nat) (offset lo hi : Nat) : Nat :=
  if lo + 1 < hi then
    let mid := (lo + hi) / 2
    if starts.getD mid 0 ≤ offset then bisect starts offset mid hi
    else bisect starts offset lo mid
  else lo
  termination_by hi - lo

/-- The location of a byte offset; an offset past the end counts as the end. -/
def locate (index : LineIndex) (offset : Nat) : Location :=
  let offset := min offset index.size
  let line := bisect index.starts offset 0 index.starts.size
  let start := index.starts.getD line 0
  let column := match Text.slice index.text start offset with
    | some cs => cs.length
    -- inside a character: no number of characters leads here
    | none => offset - start
  ⟨line + 1, column + 1⟩

end LineIndex
end Stencil
