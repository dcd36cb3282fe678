import Stencil.Document.Read
import Stencil.Render.Document
import Stencil.Render.Eval
import Stencil.Toml.Read

/-!
# Templates

A template is compiled once and rendered any number of times. Filters and tags are looked up when it
is rendered.
-/

/-!
## Configuration

How templates are rendered and where they are looked for. A configuration can be read from a TOML
text; a name that the text does not give has its default.
-/

namespace Stencil

structure Config where
  autoescape : Bool
  debug : Bool
  templateDirs : List String
  deriving DecidableEq, Repr

namespace Config

/-- Values are escaped, nothing is traced, and no directory is searched. -/
def default : Config := ⟨true, false, []⟩

/-- The strings of a list that holds nothing else. -/
def strings : List Datum → Option (List String)
  | [] => some []
  | .str s :: rest => (strings rest).map (s :: ·)
  | _ :: _ => none

/-- The configuration with one more setting; nothing if the name or the kind of the value is wrong. -/
def set (c : Config) (name : String) (d : Datum) : Option Config :=
  match name, d with
  | "autoescape", .bool b => some { c with autoescape := b }
  | "debug", .bool b => some { c with debug := b }
  | "template_dirs", .list items => (strings items).map (fun dirs => { c with templateDirs := dirs })
  | _, _ => none

def read (text : List Char) : Option Config := do
  let entries ← Toml.read text
  entries.foldlM (fun c (name, d) => c.set name d) default

end Config

/-!
## Contexts as text

The names at the top of a TOML text are the names of a context.
-/

/-- The context of a TOML text; its lists and maps are numbered upwards from the state. -/
def Context.read (text : List Char) : StateT Nat Option Context := fun n =>
  (Toml.read text).map (fun entries => Datum.toEntries entries n)

/-! ## Compiling and rendering -/

/-- A compiled template with its indexed source and the path it was read from. -/
structure Template where
  index : LineIndex
  nodes : List Node
  origin : Option String

namespace Template

def compile (source : String) : Except ParseError Template :=
  let index := LineIndex.ofText source.toList
  match Document.read source.toList with
  | .ok nodes => .ok ⟨index, nodes, none⟩
  | .error fault => .error (.ofFault index fault)

def compileFrom (origin source : String) : Except ParseError Template :=
  (compile source).map (fun t => { t with origin := some origin })

def source (t : Template) : String := String.ofList t.index.text

variable {σ : Type}

/-- Render in a context; the identities that the render makes are numbered from zero. -/
def render (t : Template) (host : Host σ) (library : Library) (config : Config)
    (context : Context) (state : σ) : Except RenderError String × σ :=
  let (result, w) := Document.render ⟨host, library, config.autoescape⟩ t.nodes context ⟨0, state⟩
  (result.mapError (.ofFault t.index), w.host)

end Template

/-- Why a source has no output. -/
inductive Problem
  | parse (error : ParseError)
  | render (error : RenderError)

def Problem.message : Problem → String
  | .parse e => e.message
  | .render e => e.message

/-- Compile and render in one step. -/
def render {σ : Type} (source : String) (host : Host σ) (library : Library) (config : Config)
    (context : Context) (state : σ) : Except Problem String × σ :=
  match Template.compile source with
  | .error e => (.error (.parse e), state)
  | .ok t =>
    let (result, state) := t.render host library config context state
    (result.mapError .render, state)

/-!
## Reports

A report shows a problem of a template to its author: what is wrong, and where in which file. Here a
line ends at any of the line terminators of Unicode, and the start of the span of a problem counts
characters from the start of the text.
-/

/-- The character ends a line; a carriage return in front of a newline does not. -/
def Text.endsLine (c : Char) (rest : List Char) : Bool :=
  (c == '\n' || (c == '\x0d' && rest.head? != some '\n') || c == '\x0b' || c == '\x0c'
    || c == '\u0085' || c == '\u2028' || c == '\u2029')

/-- The location `n` characters after `l` in the text that begins there; a terminator at the end of
the text starts no line. -/
def Location.advanceTo (l : Location) : Nat → List Char → Option Location
  | 0, _ => some l
  | _ + 1, [] => none
  | n + 1, c :: cs =>
    if Text.endsLine c cs && !cs.isEmpty then advanceTo ⟨l.line + 1, 1⟩ n cs
    else advanceTo ⟨l.line, l.column + 1⟩ n cs

/-- What is wrong, and where. -/
structure Report where
  detail : String
  /-- What the parser expected instead. -/
  expected : List String
  file : String
  location : Option Location
  deriving DecidableEq, Repr

namespace Report

/-- The report of a fault at a span of a text. -/
def ofSpan (file : String) (text : List Char) (detail : String) (expected : List String)
    (span : Span) : Report :=
  ⟨detail, expected, file, Location.advanceTo ⟨1, 1⟩ span.start text⟩

def ofParse (file : String) (text : List Char) (e : ParseError) : Report :=
  .ofSpan file text e.fault.detail e.fault.expected e.span

def ofRender (file : String) (text : List Char) (e : RenderError) : Report :=
  .ofSpan file text e.fault.detail [] e.span

def ofProblem (file : String) (text : List Char) : Problem → Report
  | .parse e => ofParse file text e
  | .render e => ofRender file text e

/-- The title: what is wrong, and on a second line what was expected. -/
def title (r : Report) : String :=
  "Error: " ++ r.detail ++
    (if r.expected.isEmpty then "" else "\nExpected: " ++ ", ".intercalate r.expected)

def place (r : Report) : String :=
  match r.location with
  | some l => s!"{r.file}:{l.line}:{l.column}"
  | none => s!"{r.file}:?:?"

end Report
end Stencil
