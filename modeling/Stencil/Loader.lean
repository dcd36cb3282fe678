import Stencil.Template
import Stencil.Text.Basic

/-!
# Loading templates

A template is looked for by names under base directories: the first name under each directory, then
the second name, and so on. The first candidate that can be read is taken. A name that leads out of
its directory ends the search. What can be read is a parameter, which may have effects.
-/

/-!
## Paths

An absolute path is the list of the names from the root down. `resolve` reads a written path from a
place without looking at any file: `.` and empty names stay, `..` goes up, and the root is above
itself. What it gives is plain (`isPlain_resolve`): none of these names is left.
-/

namespace Stencil

/-- An absolute path. -/
structure Path where
  names : List String
  deriving DecidableEq, Repr

namespace Path

/-- The path above all others. -/
def root : Path := ⟨[]⟩

def text (p : Path) : String := "/" ++ "/".intercalate p.names

/-- One step on a path. -/
def enter (p : Path) (name : String) : Path :=
  if name = "" ∨ name = "." then p
  else if name = ".." then ⟨p.names.dropLast⟩
  else ⟨p.names ++ [name]⟩

def isAbsolute (text : String) : Bool := text.toList.head? == some '/'

def namesOf (text : String) : List String := (Text.cut '/' text.toList).map String.ofList

/-- The path that a text means at a place. -/
def resolve (place : Path) (text : String) : Path :=
  (namesOf text).foldl enter (if isAbsolute text then root else place)

/-- The path is `p` or below it. -/
def contains (p path : Path) : Bool := p.names.isPrefixOf path.names

/-- All names of the path are names of files or directories. -/
def IsPlain (p : Path) : Prop := ∀ n ∈ p.names, n ≠ "" ∧ n ≠ "." ∧ n ≠ ".."

theorem isPlain_root : root.IsPlain := by simp [IsPlain, root]

theorem isPlain_enter {p : Path} (h : p.IsPlain) (name : String) : (p.enter name).IsPlain := by
  unfold enter
  split
  · exact h
  · split
    · exact fun n hn => h n (List.dropLast_subset _ hn)
    · rename_i hd hu
      intro n hn
      rcases List.mem_append.1 hn with hn | hn
      · exact h n hn
      · obtain rfl := List.mem_singleton.1 hn
        exact ⟨fun e => hd (.inl e), fun e => hd (.inr e), hu⟩

theorem isPlain_foldl_enter {p : Path} (h : p.IsPlain) (names : List String) :
    (names.foldl enter p).IsPlain := by
  induction names generalizing p with
  | nil => exact h
  | cons n ns ih => exact ih (isPlain_enter h n)

/-- What a written path means at a plain path is plain. -/
theorem isPlain_resolve {place : Path} (h : place.IsPlain) (text : String) :
    (place.resolve text).IsPlain := by
  unfold resolve
  split
  · exact isPlain_foldl_enter isPlain_root _
  · exact isPlain_foldl_enter h _

end Path
end Stencil

/-! ## The search -/

namespace Stencil.Loader

inductive Fault
  | notFound (names : List String)
  /-- The name leads out of the directory. -/
  | suspicious (name : String) (directory : Path)
  | parse (path : Path) (text : String) (error : ParseError)

def Fault.message : Fault → String
  | .notFound names => "template not found: " ++ ", ".intercalate names
  | .suspicious name directory =>
    s!"suspicious template name '{name}' for directory '{directory.text}'"
  | .parse path _ error => s!"failed to compile template '{path.text}': {error.message}"

/-- A name to be looked for in a directory. -/
structure Candidate where
  name : String
  directory : Path
  deriving DecidableEq, Repr

namespace Candidate

def path (c : Candidate) : Path := c.directory.resolve c.name

def isInside (c : Candidate) : Bool := c.directory.contains c.path

end Candidate

/-- The candidates in the order in which they are tried. -/
def candidates (place : Path) (names directories : List String) : List Candidate :=
  names.flatMap (fun name => directories.map (fun d => ⟨name, place.resolve d⟩))

variable {m : Type → Type} [Monad m]

/-- The text and the path of the first candidate that can be read. -/
def search (read : Path → m (Option String)) (names : List String) :
    List Candidate → m (Except Fault (String × Path))
  | [] => pure (.error (.notFound names))
  | c :: rest =>
    if c.isInside then do
      match ← read c.path with
      | some text => pure (.ok (text, c.path))
      | none => search read names rest
    -- the names and directories after it are not tried
    else pure (.error (.suspicious c.name c.directory))

/-- Find a template for one of the names in one of the directories. -/
def find (read : Path → m (Option String)) (place : Path) (names directories : List String) :
    m (Except Fault (String × Path)) :=
  search read names (candidates place names directories)

def select (read : Path → m (Option String)) (place : Path) (names directories : List String) :
    m (Except Fault Template) := do
  match ← find read place names directories with
  | .error fault => pure (.error fault)
  | .ok (text, path) =>
    pure ((Template.compileFrom path.text text).mapError (.parse path text))

end Stencil.Loader
