import Stencil.Expr.Basic
import Stencil.Text.Basic
import Stencil.Text.Case
import Stencil.Value.Basic
import Stencil.Value.Comparison
import Stencil.Value.Entries

/-!
# Libraries

The filters and tags that templates can use, by name.
-/

/-!
## Registries of names

A callable is registered under a qualified name such as `app.text.upper` and can also be looked up by
its bare name `upper`, as long as no second qualified name has claimed it. From then on the bare name
is ambiguous, for as long as the registry lives. Registering a qualified name again replaces its
callable.
-/

namespace Stencil

inductive Registry.Kind
  | filter
  | tag
  deriving DecidableEq, Repr

/-- The word for an entry in messages. -/
def Registry.Kind.word : Registry.Kind → String
  | .filter => "filter"
  | .tag => "tag"

structure Registry where
  kind : Registry.Kind
  /-- Qualified names, and bare names that are not ambiguous. -/
  table : List (String × Callable)
  /-- For each bare name in the table the qualified name that owns it. -/
  owners : List (String × String)
  /-- Bare names that two qualified names have claimed. -/
  ambiguous : List String

namespace Registry

/-- Why a name cannot be registered. -/
inductive NameFault
  | unqualified (kind : Kind) (name : String)
  | invalid (kind : Kind) (name : String)
  deriving DecidableEq, Repr

def NameFault.message : NameFault → String
  | .unqualified kind name => s!"{kind.word} name '{name}' needs a qualifier, e.g. 'app.{name}'"
  | .invalid kind name => s!"invalid {kind.word} name '{name}'"

def empty (kind : Kind) : Registry := ⟨kind, [], [], []⟩

/-- A name cut at its dots. -/
def segments (name : List Char) : List (List Char) := Text.cut '.' name

/-- The name holds a dot. -/
def isQualified (name : String) : Bool := name.toList.contains '.'

/-- The last segment of a name. -/
def bareName (name : String) : String := String.ofList ((segments name.toList).getLastD [])

/-- The bare name of a name that may be registered. -/
def checkName (kind : Kind) (name : String) : Except NameFault String :=
  if !isQualified name then .error (.unqualified kind name)
  else if (segments name.toList).all Identifier.isValid then .ok (bareName name)
  else .error (.invalid kind name)

/-- The registry with a callable under a qualified name that was checked. -/
def insert (r : Registry) (qualified bare : String) (f : Callable) : Registry :=
  let table := Entries.put qualified f r.table
  if r.ambiguous.contains bare then { r with table := table }
  else
    match Entries.find? bare r.owners with
    | some owner =>
      -- a second owner takes the bare name away for good
      if owner = qualified then { r with table := Entries.put bare f table }
      else { r with
        table := Entries.drop bare table
        owners := Entries.drop bare r.owners
        ambiguous := bare :: r.ambiguous }
    | none => { r with
        table := Entries.put bare f table
        owners := Entries.put bare qualified r.owners }

/-- The registry with a callable under a qualified name. -/
def register (r : Registry) (qualified : String) (f : Callable) : Except NameFault Registry := do
  let bare ← checkName r.kind qualified
  .ok (r.insert qualified bare f)

/-- The registry without a qualified name and the bare name it owns, and whether it was there. -/
def unregister (r : Registry) (qualified : String) : Registry × Bool :=
  if !isQualified qualified then (r, false)
  else
    let bare := bareName qualified
    let removed := Entries.has qualified r.table
    let table := Entries.drop qualified r.table
    if Entries.find? bare r.owners = some qualified then
      ({ r with table := Entries.drop bare table, owners := Entries.drop bare r.owners }, removed)
    else ({ r with table := table }, removed)

/-- The callable of a bare or qualified name. -/
def find? (r : Registry) (name : String) : Option Callable := Entries.find? name r.table

def isAmbiguous (r : Registry) (name : String) : Bool := r.ambiguous.contains name

def qualifiedNames (r : Registry) : List String :=
  ((r.table.map Prod.fst).filter isQualified).mergeSort (fun a b => decide (a ≤ b))

end Registry
end Stencil

/-!
## Built-in filters

Each takes the value to filter as its first argument. `safe` and `escape` make markup; `upper` and
`lower` keep it.
-/

namespace Stencil.Builtin

def name : Builtin → String
  | .safe => "safe"
  | .escape => "escape"
  | .upper => "upper"
  | .lower => "lower"
  | .join => "join"
  | .length => "length"
  | .default => "default"

def all : List Builtin := [.safe, .escape, .upper, .lower, .join, .length, .default]

/-- Why a filter has no result. -/
inductive Fault
  | missingInput (filter : Builtin)
  | notSequence (kind : String)
  | noLength (kind : String)
  deriving DecidableEq, Repr

def Fault.message : Fault → String
  | .missingInput f => s!"{f.name} expects a value to filter"
  | .notSequence kind => s!"join expects a sequence, got {kind}"
  | .noLength kind => s!"{kind} value has no length"

/-- A text changed, with markup staying markup. -/
def mapText (f : List Char → List Char) (v : Value) : Value :=
  match v with
  | .safe s => .safe (String.ofList (f s.toList))
  | other => .str (String.ofList (f other.text.toList))

/-- The second argument, or the keyword of this name. -/
def option? (name : String) (rest : List Value) (keywords : List (String × Value)) : Option Value :=
  match rest with
  | v :: _ => some v
  | [] => Entries.find? name keywords

/-- The result of a filter on a value, the other arguments and the keywords. -/
def applyTo (f : Builtin) (input : Value) (rest : List Value) (keywords : List (String × Value)) :
    Except Fault Value :=
  match f with
  | .safe => .ok (.safe input.text)
  | .escape => .ok (.safe input.escaped)
  | .upper => .ok (mapText Text.upper input)
  | .lower => .ok (mapText Text.lower input)
  | .join =>
    let separator := ((option? "sep" rest keywords).map Value.text).getD ""
    match input.elements? with
    | some items => .ok (.str (separator.intercalate (items.map Value.text)))
    | none => .error (.notSequence input.kind)
  | .length =>
    match input.length? with
    | some n => .ok (Value.ofNat n)
    | none => .error (.noLength input.kind)
  | .default =>
    if input.isTruthy then .ok input
    else .ok ((option? "fallback" rest keywords).getD .none)

def apply (f : Builtin) (args : List Value) (keywords : List (String × Value)) :
    Except Fault Value :=
  match args with
  | [] => .error (.missingInput f)
  | input :: rest => f.applyTo input rest keywords

end Stencil.Builtin

/-!
## Libraries

A library holds filters and tags in two registries.
-/

namespace Stencil

structure Library where
  filters : Registry
  tags : Registry

namespace Library

def empty : Library := ⟨.empty .filter, .empty .tag⟩

/-- The qualified name of a built-in filter. -/
def builtinName (f : Builtin) : String := "builtins." ++ f.name

/-- A built-in filter as a callable; its position among the built-in filters is its identity. -/
def builtinCallable (n : Nat) (f : Builtin) : Callable := ⟨.given n, builtinName f, .builtin f⟩

def builtinFilters : Registry :=
  (Builtin.all.zipIdx).foldl
    (fun r (f, n) => r.insert (builtinName f) f.name (builtinCallable n f)) (.empty .filter)

def withBuiltins : Library := ⟨builtinFilters, .empty .tag⟩

def registerFilter (l : Library) (name : String) (f : Callable) :
    Except Registry.NameFault Library :=
  (l.filters.register name f).map (fun r => { l with filters := r })

def registerTag (l : Library) (name : String) (f : Callable) :
    Except Registry.NameFault Library :=
  (l.tags.register name f).map (fun r => { l with tags := r })

/-- The library without a filter, and whether it was there. -/
def unregisterFilter (l : Library) (name : String) : Library × Bool :=
  let (r, removed) := l.filters.unregister name
  ({ l with filters := r }, removed)

def unregisterTag (l : Library) (name : String) : Library × Bool :=
  let (r, removed) := l.tags.unregister name
  ({ l with tags := r }, removed)

end Library
end Stencil
