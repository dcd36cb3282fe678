import Stencil.Decimal.Write
import Stencil.Text.Escape

/-!
# Values

What flows through a render: constants, text, lists, maps, callables and objects of the host. Lists,
maps, callables and objects have an identity besides their content; copies share it.
-/
namespace Stencil

/-- Tells apart things that are equal in content. Those that a caller hands in and those that a
render makes are numbered apart. -/
inductive Identity
  | given (n : Nat)
  | made (n : Nat)
  deriving DecidableEq, Repr

/-- The filters that every library can have. -/
inductive Builtin
  | safe | escape | upper | lower | join | length | default
  deriving DecidableEq, Repr

/-- What a callable does: a filter of the library, or a function that the host knows by this name. -/
inductive Code
  | builtin (f : Builtin)
  | host (name : String)
  deriving DecidableEq, Repr

structure Callable where
  identity : Identity
  name : String
  code : Code
  deriving DecidableEq, Repr

inductive Value
  | none
  | bool (b : Bool)
  | int (n : Int64)
  | float (x : Float)
  | str (s : String)
  /-- Markup that is not escaped again. -/
  | safe (s : String)
  | list (identity : Identity) (items : List Value)
  | map (identity : Identity) (entries : List (String × Value))
  | callable (f : Callable)
  /-- An object of the host: its type and text, its attributes and items (the first match counts),
  its elements if it is iterable, its code if it is callable, and whether it counts as true. -/
  | object (identity : Identity) (type text : String) (attributes : List (String × Value))
      (items : List (Value × Value)) (elements : Option (List Value)) (code : Option Code)
      (truthy : Bool)

instance : Inhabited Value := ⟨.none⟩

namespace Value

/-- The name of a value's kind in messages. -/
def kind : Value → String
  | .none => "none"
  | .bool _ => "bool"
  | .int _ => "int"
  | .float _ => "float"
  | .str _ => "string"
  | .safe _ => "safe string"
  | .list _ _ => "list"
  | .map _ _ => "map"
  | .callable _ => "function"
  | .object _ type _ _ _ _ _ _ => type

def isNone : Value → Bool
  | .none => true
  | _ => false

def isSafe : Value → Bool
  | .safe _ => true
  | _ => false

/-- The text of a string, safe or not. -/
def asText? : Value → Option String
  | .str s | .safe s => some s
  | _ => Option.none

/-- Whether a value counts as true. -/
def isTruthy : Value → Bool
  | .none => false
  | .bool b => b
  | .int n => n != 0
  | .float x => x != 0.0
  | .str s | .safe s => s != ""
  | .list _ items => !items.isEmpty
  | .map _ entries => !entries.isEmpty
  | .callable _ => true
  | .object _ _ _ _ _ _ _ truthy => truthy

/-- A natural number as a value: a float when it does not fit an integer. -/
def ofNat (n : Nat) : Value :=
  if n ≤ Int64.maxValue.toInt then .int (Int64.ofNat n) else .float (Float.ofNat n)

end Value
end Stencil

/-!
## The text of values

`text` is what a template emits; `repr` is the form inside lists and maps, where strings stand between
quotes. Single quotes are used, with `\` and `'` escaped, unless the string holds single quotes and
no double ones.
-/

namespace Stencil.Value

def singleQuoted (cs : List Char) : List Char :=
  '\'' :: (cs.flatMap (fun c => if c = '\\' ∨ c = '\'' then ['\\', c] else [c]) ++ ['\''])

/-- A string between quotes. -/
def quote (s : String) : String :=
  if s.toList.contains '\'' && !s.toList.contains '"' then
    String.ofList ('"' :: (s.toList ++ ['"']))
  else String.ofList (singleQuoted s.toList)

mutual

def text : Value → String
  | .none => "None"
  | .bool true => "True"
  | .bool false => "False"
  | .int n => toString n.toInt
  | .float x => Decimal.display.write x
  | .str s | .safe s => s
  | .list _ items => "[" ++ ", ".intercalate (reprs items) ++ "]"
  | .map _ entries => "\x7b" ++ ", ".intercalate (entryReprs entries) ++ "\x7d"
  | .callable f => "<function " ++ f.name ++ ">"
  | .object _ _ text _ _ _ _ _ => text

def reprs : List Value → List String
  | [] => []
  | v :: vs => (match v.asText? with
    | some s => quote s
    | Option.none => v.text) :: reprs vs

def entryReprs : List (String × Value) → List String
  | [] => []
  | (key, v) :: rest => (quote key ++ ": " ++ (match v.asText? with
    | some s => quote s
    | Option.none => v.text)) :: entryReprs rest

end

/-- The form of a value inside lists and maps. -/
def repr (v : Value) : String :=
  match v.asText? with
  | some s => quote s
  | Option.none => v.text

/-- The text of a value in HTML: markup stands as it is, all else is escaped. -/
def escaped : Value → String
  | .safe s => s
  | v => Text.escapeString v.text

end Stencil.Value

/-!
## Data

What a data format can say: a value without callables, objects, markup and identity. `toValue` makes a
value of it in which every list and map is a new one.
-/

namespace Stencil

inductive Datum
  | none
  | bool (b : Bool)
  | int (n : Int64)
  | float (x : Float)
  | str (s : String)
  | list (items : List Datum)
  | map (entries : List (String × Datum))

instance : Inhabited Datum := ⟨.none⟩

namespace Datum

def newIdentity : StateM Nat Identity := modifyGet (fun n => (.given n, n + 1))

mutual

/-- The value of a datum; lists and maps are numbered upwards from the state. -/
def toValue : Datum → StateM Nat Value
  | .none => pure .none
  | .bool b => pure (.bool b)
  | .int n => pure (.int n)
  | .float x => pure (.float x)
  | .str s => pure (.str s)
  | .list items => do
    let identity ← newIdentity
    let items ← toValues items
    pure (.list identity items)
  | .map entries => do
    let identity ← newIdentity
    let entries ← toEntries entries
    pure (.map identity entries)

def toValues : List Datum → StateM Nat (List Value)
  | [] => pure []
  | d :: ds => do
    let v ← d.toValue
    let vs ← toValues ds
    pure (v :: vs)

def toEntries : List (String × Datum) → StateM Nat (List (String × Value))
  | [] => pure []
  | (key, d) :: ds => do
    let v ← d.toValue
    let vs ← toEntries ds
    pure ((key, v) :: vs)

end

end Datum
end Stencil
