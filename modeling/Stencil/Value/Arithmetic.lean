import Stencil.Decimal.Write
import Stencil.Expr.Basic
import Stencil.Value.Basic

/-!
# Arithmetic

Why an operation has no result, and the operators that compute.
-/

/-!
## Faults of operations

Why an operation on values has no result. A type fault names the kinds involved, an arithmetic fault
the rule of numbers, a look-up fault the key.
-/

namespace Stencil

/-- Kinds that an operation does not take. -/
inductive TypeFault
  | operands (op : Operator) (left right : String)
  | needle (kind : String)
  | notContainer (kind : String)
  | notIterable (kind : String)
  | notCallable (kind : String)
  | notSubscriptable (kind : String)
  | index (kind key : String)
  deriving DecidableEq, Repr

def TypeFault.message : TypeFault → String
  | .operands op l r => s!"unsupported operand kinds for {op.symbol}: {l} and {r}"
  | .needle kind => s!"'in <string>' requires a string on the left, not {kind}"
  | .notContainer kind => s!"{kind} value is not a container"
  | .notIterable kind => s!"{kind} value is not iterable"
  | .notCallable kind => s!"{kind} value is not callable"
  | .notSubscriptable kind => s!"{kind} value is not subscriptable"
  | .index kind key => s!"{kind} indices must be integers, not {key}"

/-- Numbers without a result. -/
inductive ArithmeticFault
  | divisionByZero
  | moduloByZero
  | overflow (op : ArithOp)
  | repeatCount
  deriving DecidableEq, Repr

def ArithmeticFault.message : ArithmeticFault → String
  | .divisionByZero => "division by zero"
  | .moduloByZero => "modulo by zero"
  | .overflow op => s!"integer overflow in {op.symbol}"
  | .repeatCount => "repeat count too large"

inductive OperatorFault
  | type (fault : TypeFault)
  | arithmetic (fault : ArithmeticFault)
  deriving DecidableEq, Repr

inductive SubscriptFault
  | range (kind : String) (index : Int64) (length : Nat)
  | key (key : String)
  | type (fault : TypeFault)
  deriving DecidableEq, Repr

/-!
## Numbers among the values

Operators take integers, floats and booleans as numbers; a boolean counts as 0 or 1.
-/

inductive Number
  | int (n : Int64)
  | float (x : Float)

namespace Number

def of? : Value → Option Number
  | .int n => some (.int n)
  | .bool b => some (.int (if b then 1 else 0))
  | .float x => some (.float x)
  | _ => none

def toFloat : Number → Float
  | .int n => n.toFloat
  | .float x => x

end Number

/-- An integer, if it fits 64 bits with a sign. -/
def checked (n : Int) : Option Int64 :=
  if Int64.minValue.toInt ≤ n ∧ n ≤ Int64.maxValue.toInt then some (Int64.ofInt n) else none

end Stencil

/-!
## Operators

Integers are exact or the operation fails; `/` always gives a float; the remainder takes the sign of
the divisor. Strings and lists are joined by `+` and repeated by `*`. A list that an operator makes
gets the identity that the caller supplies.
-/

namespace Stencil.Value

/-- The kinds of the operands do not fit the operator. -/
def unsupported (op : Operator) (left right : Value) : OperatorFault :=
  .type (.operands op left.kind right.kind)

/-- An integer result, or overflow. -/
def exactly (op : ArithOp) (n : Int) : Except OperatorFault Value :=
  match checked n with
  | some n => .ok (.int n)
  | Option.none => .error (.arithmetic (.overflow op))

def numeric (op : ArithOp) (a b : Number) : Except OperatorFault Value :=
  match op, a, b with
  | .div, a, b =>
    if b.toFloat == 0.0 then .error (.arithmetic .divisionByZero)
    else .ok (.float (a.toFloat / b.toFloat))
  | .mod, .int x, .int y =>
    if y = 0 then .error (.arithmetic .moduloByZero)
    -- the quotient does not fit 64 bits, though the remainder would
    else if x = Int64.minValue ∧ y = -1 then .error (.arithmetic (.overflow .mod))
    else
      let r := Int.tmod x.toInt y.toInt
      -- `r` has the sign of the dividend; the result has that of the divisor
      .ok (.int (Int64.ofInt (if r ≠ 0 ∧ (decide (r < 0) != decide (y.toInt < 0)) then
        r + y.toInt else r)))
  | .mod, a, b =>
    let y := b.toFloat
    if y == 0.0 then .error (.arithmetic .moduloByZero)
    else
      let r := Decimal.remainder a.toFloat y
      .ok (.float (if r != 0.0 && (decide (r < 0.0) != decide (y < 0.0)) then r + y else r))
  | .add, .int x, .int y => exactly .add (x.toInt + y.toInt)
  | .sub, .int x, .int y => exactly .sub (x.toInt - y.toInt)
  | .mul, .int x, .int y => exactly .mul (x.toInt * y.toInt)
  | .add, a, b => .ok (.float (a.toFloat + b.toFloat))
  | .sub, a, b => .ok (.float (a.toFloat - b.toFloat))
  | .mul, a, b => .ok (.float (a.toFloat * b.toFloat))

/-- The most bytes of a string, or elements of a list, that a repetition may have. -/
def repeatLimit : Nat := Nat.pow 2 28

/-- How often a sequence of this length is repeated: not at all for a negative count. -/
def repeatCount (length : Nat) (n : Int64) : Except OperatorFault Nat :=
  let count := n.toInt.toNat
  -- an empty sequence stays within the limit for every count
  if length * count ≤ repeatLimit then .ok count else .error (.arithmetic .repeatCount)

/-- So many copies of a text, one after the other. -/
def repeatText (s : String) (count : Nat) : String :=
  if count = 0 then ""
  else
    let half := repeatText s (count / 2)
    if count % 2 = 0 then half ++ half else half ++ half ++ s
  termination_by count

def repeatItems (items : List Value) (count : Nat) : List Value :=
  if items.isEmpty then [] else (List.replicate count items).flatten

/-- A string repeated `times` times; the operands are given for the fault. -/
def timesText (s : String) (times left right : Value) : Except OperatorFault Value :=
  match Number.of? times with
  | some (.int n) => (repeatCount s.utf8ByteSize n).map
      (fun count => .str (if s.isEmpty then "" else repeatText s count))
  | _ => .error (unsupported (.arith .mul) left right)

def timesItems (identity : Identity) (items : List Value) (times left right : Value) :
    Except OperatorFault Value :=
  match Number.of? times with
  | some (.int n) => (repeatCount items.length n).map
      (fun count => .list identity (repeatItems items count))
  | _ => .error (unsupported (.arith .mul) left right)

/-- An arithmetic operator on two values; a list that it makes gets this identity. -/
def arithmetic (identity : Identity) (op : ArithOp) (left right : Value) :
    Except OperatorFault Value :=
  match Number.of? left, Number.of? right with
  | some a, some b => numeric op a b
  | _, _ =>
    match op with
    | .add =>
      match left.asText?, right.asText? with
      | some a, some b => .ok (.str (a ++ b))
      | _, _ =>
        match left, right with
        | .list _ a, .list _ b => .ok (.list identity (a ++ b))
        | _, _ => .error (unsupported (.arith op) left right)
    | .mul =>
      match left.asText?, right.asText? with
      | some s, _ => timesText s right left right
      | Option.none, some s => timesText s left left right
      | Option.none, Option.none =>
        match left, right with
        | .list _ items, other => timesItems identity items other left right
        | other, .list _ items => timesItems identity items other left right
        | _, _ => .error (unsupported (.arith op) left right)
    | _ => .error (unsupported (.arith op) left right)

end Stencil.Value
