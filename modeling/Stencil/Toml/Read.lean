import Stencil.Toml.Scalar
import Stencil.Value.Basic
import Stencil.Value.Entries

/-!
# Reading TOML

A text is a list of values under keys, followed by sections: a header with values under keys. Arrays
and inline tables are nested at most `maxDepth` deep. A date or time becomes a map with one entry.
-/

/-!
## Tables under construction

While a text is read, its tables are a tree that still can grow. Each table knows how it came about,
which decides who may add to it: a header may go through any table, a dotted key only through tables
that no header has opened, and nothing goes into a value.
-/

namespace Stencil.Toml

/-- How a table came about. -/
inductive Origin
  /-- A header opened it. -/
  | header
  /-- A longer header goes through it. -/
  | above
  /-- A dotted key goes through it. -/
  | dotted
  deriving DecidableEq, Repr

/-- What stands under a name. -/
inductive Entry
  | value (d : Datum)
  | table (origin : Origin) (entries : List (String × Entry))
  /-- Tables under one name, the last one first. -/
  | tables (last : List (String × Entry)) (earlier : List (List (String × Entry)))

/-- The names of a table with what stands under them. -/
abbrev Table := List (String × Entry)

/-- A step that goes further down into a table: on its origin and entries. -/
abbrev Change := Origin → Table → Option Table

/-- A table changed, with its origin kept. -/
def changeTable (change : Change) (origin : Origin) (entries : Table) : Option Entry :=
  (change origin entries).map (.table origin)

/-- What stands under a name after a change of the table that it leads to; `dotted` says that a dotted
key goes through. -/
def enter (dotted : Bool) (change : Change) : Option Entry → Option Entry
  | none => changeTable change (if dotted then .dotted else .above) []
  | some (.value _) => none
  | some (.table origin entries) =>
    if dotted && origin == .header then none else changeTable change origin entries
  | some (.tables last earlier) => (change .header last).map (fun last => .tables last earlier)

/-- Change the table at the end of a path, with tables made on the way. -/
def within (dotted : Bool) : List String → Change → Change
  | [], change => change
  | name :: path, change => fun _ entries =>
    (enter dotted (within dotted path change) (Entries.find? name entries)).map
      (fun e => Entries.put name e entries)

/-- A value under a name that is new; the last table of a dotted key is one that dotted keys made. -/
def insertValue (dotted : Bool) (name : String) (d : Datum) : Change := fun origin entries =>
  if (origin == .dotted) != dotted || Entries.has name entries then none
  else some (Entries.put name (.value d) entries)

def addValue (key : Key) (d : Datum) : Change :=
  let dotted := !key.path.isEmpty
  within dotted key.path (insertValue dotted key.last d)

/-- Add the values under keys, one after the other. -/
def addValues (origin : Origin) (pairs : List (Key × Datum)) (entries : Table) : Option Table :=
  pairs.foldlM (fun entries (key, d) => addValue key d origin entries) entries

/-- A table that a header opens: what longer headers put there before comes first, and the table
stands where it was opened. -/
def openTable (name : String) (pairs : List (Key × Datum)) : Change := fun _ entries =>
  let opened (before : Table) : Option Table :=
    (addValues .header pairs before).map
      (fun new => Entries.drop name entries ++ [(name, .table .header new)])
  match Entries.find? name entries with
  | none => opened []
  -- only longer headers were there
  | some (.table .above before) => opened before
  | some _ => none

/-- One more table under a name that stands for a list of tables. -/
def appendTable (name : String) (pairs : List (Key × Datum)) : Change := fun _ entries => do
  let new ← addValues .header pairs []
  match Entries.find? name entries with
  | none => some (Entries.put name (.tables new []) entries)
  | some (.tables last earlier) =>
    some (Entries.put name (.tables new (last :: earlier)) entries)
  | some _ => none

mutual

def Entry.datum : Entry → Datum
  | .value d => d
  | .table _ entries => .map (entriesData entries)
  | .tables last earlier => .list ((Datum.map (entriesData last) :: tableData earlier).reverse)

def entriesData : List (String × Entry) → List (String × Datum)
  | [] => []
  | (name, e) :: rest => (name, e.datum) :: entriesData rest

def tableData : List (List (String × Entry)) → List Datum
  | [] => []
  | t :: ts => .map (entriesData t) :: tableData ts

end

/-! ## The document -/

/-- How deep arrays and inline tables are nested at most. -/
def maxDepth : Nat := 79

/-- The name under which a date or time stands. -/
def momentName : String := "$__toml_private_datetime"

/-- Read a value that holds no others. -/
def scalar (first : Option Char) : Reader Datum :=
  match first with
  | some '"' | some '\'' => do pure (.str (← string))
  | some 't' => do Reader.word "true"; pure (.bool true)
  | some 'f' => do Reader.word "false"; pure (.bool false)
  | _ => fun cs => (do pure (Datum.map [(momentName, .str (← moment))]) : Reader Datum) cs <|> number cs

def array (item : Reader Datum) : Reader Datum := do
  Reader.char '['
  let items ← Reader.separated (do gap; let d ← item; gap; pure d) (Reader.char ',')
  if !items.isEmpty then
    let _ ← Reader.accept ','
  gap
  Reader.char ']'
  pure (.list items)

def pair (item : Reader Datum) : Reader (Key × Datum) := do
  let k ← key
  Reader.char '='
  blanks
  let d ← item
  pure (k, d)

def inlineTable (item : Reader Datum) : Reader Datum := do
  Reader.char '\x7b'
  let pairs ← Reader.separated (do let p ← pair item; blanks; pure p) (Reader.char ',')
  blanks
  Reader.char '\x7d'
  match addValues .header pairs [] with
  | some entries => pure (.map (entriesData entries))
  | none => failure

/-- Read a value that is nested at most so deep. -/
def value : Nat → Reader Datum
  | 0 => do
    let first ← Reader.peek
    scalar first
  | depth + 1 => do
    let first ← Reader.peek
    match first with
    | some '[' => array (value depth)
    | some '\x7b' => inlineTable (value depth)
    | _ => scalar first

/-- Take blank lines and lines with a comment only. -/
def blankLines : Reader Unit := do
  let _ ← Reader.many (do
    let c ← Reader.peek
    match c with
    | none => failure
    | some ' ' | some '\t' => let _ ← Reader.span1 isBlank
    | some '#' => lineEnd
    | some _ => newline)

def pairLine : Reader (Key × Datum) := do
  let p ← pair (value maxDepth)
  lineEnd
  blankLines
  pure p

/-- A header of a section, which opens a table or adds one to a list. -/
inductive Header
  | table (key : Key)
  | item (key : Key)
  deriving DecidableEq, Repr

def header : Reader Header := do
  Reader.char '['
  let item ← Reader.accept '['
  let k ← key
  Reader.char ']'
  if item then
    Reader.char ']'
  lineEnd
  blankLines
  pure (if item then .item k else .table k)

def oneSection : Reader (Header × List (Key × Datum)) := do
  let h ← header
  let pairs ← Reader.many pairLine
  pure (h, pairs)

/-- The root with one more section. -/
def addSection (root : Table) (h : Header) (pairs : List (Key × Datum)) : Option Table :=
  match h with
  | .table k => within false k.path (openTable k.last pairs) .header root
  | .item k => within false k.path (appendTable k.last pairs) .header root

def document : Reader (List (Key × Datum) × List (Header × List (Key × Datum))) := do
  let _ ← Reader.accept (Char.ofNat 0xFEFF)
  blankLines
  let pairs ← Reader.many pairLine
  let sections ← Reader.many oneSection
  pure (pairs, sections)

def read (text : List Char) : Option (List (String × Datum)) := do
  let (pairs, sections) ← document.all? text
  let root ← addValues .header pairs []
  let root ← sections.foldlM (fun root (h, pairs) => addSection root h pairs) root
  pure (entriesData root)

end Stencil.Toml
