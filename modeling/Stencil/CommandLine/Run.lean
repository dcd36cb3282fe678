import Stencil.Loader
import Stencil.Template

/-!
# The command line

A run reads the configuration, the context and the template, in this order, and renders. The first
problem ends it. Files and standard input are parameters; what comes of a run is a value, which the
program then writes out.
-/

/-!
## Arguments

Arguments are read from left to right. An option with a value takes it from the same argument, with
or without `=`, or from the next one. After `--` all arguments are templates. The first fault ends the
reading, and so does the option for help.
-/

namespace Stencil.CommandLine

/-- What to render and how. -/
structure Request where
  template : Option String
  context : Option String
  directories : List String
  config : Option String
  noAutoescape : Bool
  debug : Bool
  deriving DecidableEq, Repr

def Request.empty : Request := ⟨none, none, [], none, false, false⟩

inductive UsageFault
  | unexpected (arg : String)
  | repeated (option : String)
  | missingValue (option : String)
  | unneededValue (option : String)
  deriving DecidableEq, Repr

def UsageFault.message : UsageFault → String
  | .unexpected arg => s!"unexpected argument '{arg}' found"
  | .repeated option => s!"the argument '{option}' cannot be used multiple times"
  | .missingValue option => s!"a value is required for '{option}' but none was supplied"
  | .unneededValue option => s!"unexpected value for '{option}' found"

/-- The options with a value. -/
inductive Parameter
  | context
  | directory
  | config
  deriving DecidableEq, Repr

def Parameter.name : Parameter → String
  | .context => "--context <CONTEXT>"
  | .directory => "--dir <DIRS>"
  | .config => "--config <CONFIG>"

/-- The options without a value. -/
inductive Switch
  | noAutoescape
  | debug
  | help
  deriving DecidableEq, Repr

def Switch.name : Switch → String
  | .noAutoescape => "--no-autoescape"
  | .debug => "--debug"
  | .help => "--help"

/-- What an argument before `--` is. -/
inductive Arg
  | template
  | parameter (p : Parameter) (value : Option String)
  | switch (s : Switch)
  | fault (f : UsageFault)
  deriving DecidableEq, Repr

/-- A long option with what stands after `=`. -/
def longArg (arg name : String) (value : Option String) : Arg :=
  let switch (s : Switch) : Arg :=
    if value.isSome then .fault (.unneededValue s.name) else .switch s
  match name with
  | "context" => .parameter .context value
  | "dir" => .parameter .directory value
  | "config" => .parameter .config value
  | "no-autoescape" => switch .noAutoescape
  | "debug" => switch .debug
  | "help" => switch .help
  | _ => .fault (.unexpected arg)

/-- The value that stands in the same argument as a short option. -/
def attached : List Char → Option String
  | [] => none
  | '=' :: cs => some (String.ofList cs)
  | cs => some (String.ofList cs)

/-- What an argument is. -/
def Arg.of (arg : String) : Arg :=
  match arg.toList with
  | '-' :: '-' :: cs =>
    let name := String.ofList (cs.takeWhile (· != '='))
    longArg arg name (((cs.dropWhile (· != '=')).tail?).map String.ofList)
  | '-' :: 'c' :: cs => .parameter .context (attached cs)
  | '-' :: 'd' :: cs => .parameter .directory (attached cs)
  | '-' :: 'h' :: _ => .switch .help
  | '-' :: _ :: _ => .fault (.unexpected arg)
  | _ => .template

/-- The argument can be the value of the option before it. -/
def isValue (arg : String) : Bool := arg == "-" || arg.toList.head? != some '-'

namespace Request

/-- The request with a template; there is at most one. -/
def withTemplate (r : Request) (arg : String) : Except UsageFault Request :=
  if r.template.isSome then .error (.unexpected arg) else .ok { r with template := some arg }

/-- The request with a value, which is not empty. -/
def withValue (r : Request) (p : Parameter) (value : String) : Except UsageFault Request :=
  if value = "" then .error (.missingValue p.name)
  else match p with
    | .context =>
      if r.context.isSome then .error (.repeated p.name) else .ok { r with context := some value }
    | .directory => .ok { r with directories := r.directories ++ [value] }
    | .config =>
      if r.config.isSome then .error (.repeated p.name) else .ok { r with config := some value }

/-- The request with a switch turned on; the switch for help changes nothing. -/
def withSwitch (r : Request) (s : Switch) : Except UsageFault Request :=
  match s with
  | .noAutoescape =>
    if r.noAutoescape then .error (.repeated s.name) else .ok { r with noAutoescape := true }
  | .debug => if r.debug then .error (.repeated s.name) else .ok { r with debug := true }
  | .help => .ok r

/-- The request with more arguments; nothing if they ask for help. -/
def read (r : Request) : List String → Except UsageFault (Option Request)
  | [] => .ok (some r)
  | arg :: rest =>
    if arg = "--" then (rest.foldlM withTemplate r).map some
    else match Arg.of arg, rest with
      | .template, rest => do (← r.withTemplate arg).read rest
      | .switch .help, _ => .ok none
      | .switch s, rest => do (← r.withSwitch s).read rest
      | .parameter p (some value), rest => do (← r.withValue p value).read rest
      | .parameter p none, value :: rest =>
        if isValue value then do (← r.withValue p value).read rest
        else .error (.missingValue p.name)
      | .parameter p none, [] => .error (.missingValue p.name)
      | .fault f, _ => .error f

end Request

/-- The request of a list of arguments; nothing if they ask for help. -/
def request (args : List String) : Except UsageFault (Option Request) := Request.empty.read args

/-! ## Running -/

/-- What a run can read: files by their written path, and standard input. A problem of the system is
given in its words. -/
structure Surroundings (m : Type → Type) where
  place : Path
  readFile : String → m (Except String String)
  readInput : m (Except String String)

/-- What comes of a run. -/
inductive Outcome
  | output (text : String)
  | help
  | refused (fault : UsageFault)
  | failed (message : String)
  | reported (report : Report)
  deriving DecidableEq, Repr

def helpLines : List String := [
  "Render a text template against a TOML context",
  "",
  "Usage: rattle [OPTIONS] [TEMPLATE]",
  "",
  "Arguments:",
  "  [TEMPLATE]  Template file, or name when --dir is given (reads stdin if not provided)",
  "",
  "Options:",
  "  -c, --context <CONTEXT>  Context file (TOML format)",
  "  -d, --dir <DIRS>         Template directory, may be repeated",
  "      --config <CONFIG>    Render configuration file (TOML format)",
  "      --no-autoescape      Disable HTML auto-escaping",
  "      --debug              Debug mode: log the compiled tree",
  "  -h, --help               Print help",
  ""]

namespace Outcome

def code : Outcome → UInt32
  | .output _ | .help => 0
  | .failed _ | .reported _ => 1
  | .refused _ => 2

def stdout : Outcome → String
  | .output text => text
  | .help => "\n".intercalate helpLines
  | _ => ""

def stderr : Outcome → String
  | .failed message => message ++ "\n"
  | .reported report => report.title ++ "\n  --> " ++ report.place ++ "\n"
  | .refused fault => "error: " ++ fault.message ++ "\n"
  | _ => ""

end Outcome

/-- A part of a run, which may end it. -/
abbrev Step (m : Type → Type) := ExceptT Outcome m

variable {m : Type → Type} [Monad m]

/-- The text of a file; a problem is told after `problem`. -/
def fileText (s : Surroundings m) (path problem : String) : Step m (List Char) := do
  match ← s.readFile path with
  | .ok text => pure text.toList
  | .error cause => throw (.failed (problem ++ cause))

/-- What `read` makes of a file in TOML, or a problem with it. -/
def tomlFile {α : Type} (s : Surroundings m) (kind path : String) (read : List Char → Option α) :
    Step m α := do
  let problem := s!"Error loading {kind} '{path}': Failed to "
  let text ← fileText s path (problem ++ s!"read {kind} file: ")
  match read text with
  | some a => pure a
  | none => throw (.failed (problem ++ s!"parse {kind} TOML: invalid document"))

def configOf (s : Surroundings m) (r : Request) : Step m Config := do
  let c ← match r.config with
    | some path => tomlFile s "config" path Config.read
    | none => pure Config.default
  pure ⟨c.autoescape && !r.noAutoescape, c.debug || r.debug, c.templateDirs ++ r.directories⟩

def contextOf (s : Surroundings m) (r : Request) : Step m Context :=
  match r.context with
  | some path => tomlFile s "context" path (fun text => (Context.read text 0).map Prod.fst)
  | none => pure []

/-- A template compiled from a text, or a report that names the file. -/
def compiled (file : String) (text : List Char) (t : Except ParseError Template) :
    Step m Template :=
  match t with
  | .ok t => pure t
  | .error e => throw (.reported (.ofParse file text e))

/-- The template of this name in the directories. -/
def fromDirectories (s : Surroundings m) (name : String) (directories : List String) :
    Step m (Template × String) := do
  let read (path : Path) : m (Option String) := do
    let text ← s.readFile path.text
    pure text.toOption
  match ← (Loader.select read s.place [name] directories : m (Except Loader.Fault Template)) with
  | .ok t => pure (t, t.origin.getD name)
  | .error (.parse path text e) => throw (.reported (.ofParse path.text text.toList e))
  | .error fault => throw (.failed ("Error: " ++ fault.message))

def fromFile (s : Surroundings m) (path : String) : Step m (Template × String) := do
  let text ← fileText s path s!"Error reading file '{path}': "
  let t ← compiled path text (Template.compileFrom path (String.ofList text))
  pure (t, path)

def fromInput (s : Surroundings m) : Step m (Template × String) := do
  match ← s.readInput with
  | .ok text =>
    let t ← compiled "<stdin>" text.toList (Template.compile text)
    pure (t, "<stdin>")
  | .error cause => throw (.failed ("Error reading from stdin: " ++ cause))

/-- The template that is asked for, and how reports name it. -/
def templateOf (s : Surroundings m) (template : Option String) (directories : List String) :
    Step m (Template × String) :=
  match template with
  | some name =>
    if directories.isEmpty then fromFile s name else fromDirectories s name directories
  | none => fromInput s

def renderRequest (s : Surroundings m) (r : Request) : Step m String := do
  let config ← configOf s r
  let context ← contextOf s r
  let (t, file) ← templateOf s r.template config.templateDirs
  match (t.render Host.none Library.withBuiltins config context ()).1 with
  | .ok text => pure text
  | .error e => throw (.reported (.ofRender file t.index.text e))

def run (s : Surroundings m) (args : List String) : m Outcome := do
  match request args with
  | .error fault => pure (.refused fault)
  | .ok none => pure .help
  | .ok (some r) =>
    match ← (renderRequest s r).run with
    | .ok text => pure (.output text)
    | .error outcome => pure outcome

end Stencil.CommandLine
