import Stencil.Value.Arithmetic
import Stencil.Value.Basic
import Stencil.Value.Entries

/-!
# Comparison

Equality, order, membership and identity of values, and the operators that ask for them. What a value
contains is here as well: its elements, attributes and items.
-/

/-!
## Equality and identity

Values are equal by content: numbers by value, strings whether safe or not, lists in order, maps in any
order. Booleans are no numbers here. Callables and objects are equal only to themselves. `same` is
narrower: lists and maps are told apart by identity, and plain text from markup.
-/

namespace Stencil.Value

mutual

/-- Equality of content. -/
def equal : Value → Value → Bool
  | .none, .none => true
  | .bool a, .bool b => a == b
  | .int a, .int b => a == b
  | .float a, .float b => a == b
  | .int a, .float b => a.toFloat == b
  | .float a, .int b => b.toFloat == a
  | .str a, .str b | .str a, .safe b | .safe a, .str b | .safe a, .safe b => a == b
  | .list _ a, .list _ b => equalItems a b
  | .map _ a, .map _ b => a.length == b.length && equalEntries a b
  | .callable f, .callable g => f.identity == g.identity
  | .object a _ _ _ _ _ _ _, .object b _ _ _ _ _ _ _ => a == b
  | _, _ => false

def equalItems : List Value → List Value → Bool
  | [], [] => true
  | a :: as, b :: bs => equal a b && equalItems as bs
  | _, _ => false

/-- Every entry of the first map is in the second, with an equal value. -/
def equalEntries : List (String × Value) → List (String × Value) → Bool
  | [], _ => true
  | (key, v) :: rest, entries =>
    (match Entries.find? key entries with
      | some w => equal v w
      | Option.none => false) && equalEntries rest entries

end

/-- Identity of values. -/
def same : Value → Value → Bool
  | .none, .none => true
  | .bool a, .bool b => a == b
  | .int a, .int b => a == b
  | .float a, .float b => a == b
  | .str a, .str b => a == b
  | .safe a, .safe b => a == b
  | .list a _, .list b _ => a == b
  | .map a _, .map b _ => a == b
  | .callable f, .callable g => f.identity == g.identity
  | .object a _ _ _ _ _ _ _, .object b _ _ _ _ _ _ _ => a == b
  | _, _ => false

/-!
## Order

Numbers are ordered by value, strings by their characters, lists by the first items that are not
equal and then by length. Other pairs have no order. Two floats of which one is no number have an
answer, but no order.
-/

/-- The order of two numbers; none if one of them is no number. -/
def orderNumbers : Number → Number → Option Ordering
  | .int a, .int b => some (compare a.toInt b.toInt)
  | a, b =>
    let x := a.toFloat
    let y := b.toFloat
    if x < y then some .lt else if x == y then some .eq else if y < x then some .gt else Option.none

/-- The order of two texts, by their characters. -/
def orderTexts (a b : String) : Ordering := if a < b then .lt else if a = b then .eq else .gt

mutual

/-- The order of two values; `op` is named in the fault. -/
def order (op : CompareOp) (left right : Value) : Except OperatorFault (Option Ordering) :=
  match Number.of? left, Number.of? right with
  | some a, some b => .ok (orderNumbers a b)
  | _, _ =>
    match left, right with
    | .str a, .str b | .str a, .safe b | .safe a, .str b | .safe a, .safe b =>
      .ok (some (orderTexts a b))
    | .list _ a, .list _ b => orderItems op a b
    | _, _ => .error (.type (.operands (.compare op) left.kind right.kind))

def orderItems (op : CompareOp) : List Value → List Value → Except OperatorFault (Option Ordering)
  | [], [] => .ok (some .eq)
  | [], _ :: _ => .ok (some .lt)
  | _ :: _, [] => .ok (some .gt)
  -- equal items are passed over; the first others decide, by `order` and not by `equal`
  | x :: xs, y :: ys => if equal x y then orderItems op xs ys else order op x y

end

/-!
## Elements, attributes and subscripts

What a value contains, seen in four ways: its elements in order, whether something is among them, its
attributes by name and its items by key.
-/

def ofChar (c : Char) : Value := .str (String.singleton c)

/-- The elements of a value in order: items of a list, keys of a map, characters of a string. -/
def elements? : Value → Option (List Value)
  | .list _ items => some items
  | .map _ entries => some (entries.map (fun e => .str e.1))
  | .str s | .safe s => some (s.toList.map ofChar)
  | .object _ _ _ _ _ elements _ _ => elements
  | _ => Option.none

/-- The number of elements. -/
def length? : Value → Option Nat
  | .str s | .safe s => some s.length
  | .list _ items => some items.length
  | .map _ entries => some entries.length
  | .object _ _ _ _ _ elements _ _ => elements.map List.length
  | _ => Option.none

/-- The value of `value.name`: an entry of a map or an attribute of an object. -/
def attribute? (name : String) : Value → Option Value
  | .map _ entries => Entries.find? name entries
  | .object _ _ _ attributes _ _ _ _ => Entries.find? name attributes
  | _ => Option.none

def occursIn (needle : List Char) : List Char → Bool
  | [] => needle.isEmpty
  | c :: cs => needle.isPrefixOf (c :: cs) || occursIn needle cs

def contains (container item : Value) : Except OperatorFault Bool :=
  match container with
  | .str s | .safe s =>
    match item.asText? with
    | some needle => .ok (occursIn needle.toList s.toList)
    | Option.none => .error (.type (.needle item.kind))
  | .list _ items => .ok (items.any (equal · item))
  | .map _ entries =>
    match item.asText? with
    -- the keys count, not the values
    | some key => .ok (Entries.has key entries)
    | Option.none => .ok false
  | other =>
    match other.elements? with
    | some items => .ok (items.any (equal · item))
    | Option.none => .error (.type (.notContainer other.kind))

/-- The position that an index means in a sequence of this length; a negative one counts from the
end. -/
def position? (index : Int64) (length : Nat) : Option Nat :=
  let i := if index.toInt < 0 then index.toInt + length else index.toInt
  if 0 ≤ i ∧ i < length then some i.toNat else Option.none

def elementAt (kind : String) (sequence : List Value) (index : Int64) :
    Except SubscriptFault Value :=
  match (position? index sequence.length).bind (sequence[·]?) with
  | some v => .ok v
  | Option.none => .error (.range kind index sequence.length)

/-- The item of an object whose key equals `key`. -/
def itemOf? (key : Value) : List (Value × Value) → Option Value
  | [] => Option.none
  | (k, v) :: rest => if equal k key then some v else itemOf? key rest

/-- The value of `base[key]`. -/
def subscript (base key : Value) : Except SubscriptFault Value :=
  match base with
  | .list _ items =>
    match key with
    | .int i => elementAt base.kind items i
    | other => .error (.type (.index base.kind other.kind))
  | .str s | .safe s =>
    match key with
    | .int i => elementAt base.kind (s.toList.map ofChar) i
    | other => .error (.type (.index base.kind other.kind))
  | .map _ entries =>
    match key.asText?.bind (Entries.find? · entries) with
    | some v => .ok v
    | Option.none => .error (.key key.repr)
  | .object _ _ _ _ items _ _ _ =>
    match itemOf? key items with
    | some v => .ok v
    | Option.none => .error (.key key.repr)
  | other => .error (.type (.notSubscriptable other.kind))

/-!
## Comparison operators

Each operator as a question to equality, order, membership or identity.
-/

def compare (op : CompareOp) (left right : Value) : Except OperatorFault Bool :=
  match op with
  | .eq => .ok (equal left right)
  | .ne => .ok (!equal left right)
  | .lt => (order op left right).map (· == some .lt)
  | .le => (order op left right).map (fun o => o == some .lt || o == some .eq)
  | .gt => (order op left right).map (· == some .gt)
  | .ge => (order op left right).map (fun o => o == some .gt || o == some .eq)
  | .mem => contains right left
  | .notMem => (contains right left).map (!·)
  | .same => .ok (same left right)
  | .notSame => .ok (!same left right)

end Stencil.Value
