import Stencil.Document.Read
import Stencil.Proofs.Markup.Between

/-!
# Printing documents

A draft is a document whose expressions are given by texts that they are read from. It is printed
with one space inside of every marker; the second clause of a condition or loop may be left out
where there is nothing in it.
-/
namespace Stencil

open Markup (Keyword Unmarked ClearEnd enclose between)

/-- An expression and a text that it is read from and that can stand between two markers. -/
structure Phrase where
  text : List Char
  expr : Expr
  parses : Expr.parse text = .ok expr
  trimmed : Text.Trimmed text
  unmarked : Unmarked text

theorem Phrase.reads (p : Phrase) : Expr.read p.text = .ok p.expr := by
  have hparses := p.parses
  rw [Expr.parse, Expr.parseAt] at hparses
  cases hr : Expr.readAt 0 p.text with
  | error fault =>
    rw [hr] at hparses
    cases hparses
  | ok e =>
    rw [hr] at hparses
    obtain rfl := Except.ok.inj hparses
    exact hr

theorem Phrase.text_ne_nil (p : Phrase) : p.text ≠ [] := by
  intro h
  have hreads := p.reads
  rw [h, Expr.read, Expr.readAt, Token.scanFrom, Token.itemsFrom, Token.rawItems] at hreads
  cases hreads

/-- A document to be printed. -/
inductive Draft
  | text (cs : List Char)
  | value (expr : Phrase)
  | comment
  /-- With `clause`, the tag of the second clause is printed even if the clause is empty. -/
  | conditional (test : Phrase) (body orelse : List Draft) (clause : Bool)
  | loop (target : List Char) (iterable : Phrase) (body orelse : List Draft) (clause : Bool)

namespace Block.Kind

/-- The word of the first tag. -/
def opener : Kind → Keyword
  | .conditional => .ifOpen
  | .loop => .forOpen

/-- The word of the tag before the second clause. -/
def clause : Kind → Keyword
  | .conditional => .elseClause
  | .loop => .emptyClause

/-- The word of the last tag. -/
def closer : Kind → Keyword
  | .conditional => .ifClose
  | .loop => .forClose

/-- The block that an opening becomes, from its clauses. -/
def block (kind : Kind) (span : Span) (header : Located (List Char)) (body orelse : List Block) :
    Block :=
  match kind with
  | .conditional => .conditional span header body orelse
  | .loop => .loop span header body orelse

/-- The text of the second clause; without one its tag is left out. -/
def printClause (kind : Kind) : Option (List Char) → List Char
  | none => []
  | some cs => enclose .tag kind.clause.word.toList ++ cs

/-- The text of a condition or loop. -/
def print (kind : Kind) (header body : List Char) (orelse : Option (List Char)) : List Char :=
  enclose .tag (kind.opener.word.toList ++ ' ' :: header) ++ body ++ kind.printClause orelse ++
    enclose .tag kind.closer.word.toList

end Block.Kind

namespace Draft

open Block (Kind)

mutual

/-- The text of a draft. -/
def print : Draft → List Char
  | .text cs => cs
  | .value e => enclose .value e.text
  | .comment => between .comment [' ']
  | .conditional test body orelse clause =>
    Kind.conditional.print test.text (printAll body)
      (if clause || !orelse.isEmpty then some (printAll orelse) else none)
  | .loop target iterable body orelse clause =>
    Kind.loop.print (target ++ " in ".toList ++ iterable.text) (printAll body)
      (if clause || !orelse.isEmpty then some (printAll orelse) else none)

/-- The text of drafts, one behind the other. -/
def printAll : List Draft → List Char
  | [] => []
  | d :: ds => d.print ++ printAll ds

end

example (e : Phrase) : (conditional e [.comment] [.text ['b']] false).print =
    "\x7b% if ".toList ++ e.text ++
      " %\x7d\x7b# #\x7d\x7b% else %\x7db\x7b% endif %\x7d".toList := by
  simp [print, printAll, Kind.print, Kind.printClause, enclose, between, Markup.Marker.chars,
    Kind.opener, Kind.clause, Kind.closer, Keyword.word]

mutual

/-- The node that a draft is printed for; it has no place. -/
def node : Draft → Node
  | .text cs => .text ⟨0, 0⟩ (String.ofList cs)
  | .value e => .value ⟨0, 0⟩ e.expr
  | .comment => .comment ⟨0, 0⟩
  | .conditional test body orelse _ => .conditional ⟨0, 0⟩ test.expr (nodes body) (nodes orelse)
  | .loop target iterable body orelse _ =>
    .loop ⟨0, 0⟩ ⟨String.ofList target, ⟨0, 0⟩⟩ iterable.expr (nodes body) (nodes orelse)

/-- The nodes that drafts are printed for. -/
def nodes : List Draft → List Node
  | [] => []
  | d :: ds => d.node :: nodes ds

end

/-- The draft is text. -/
def isText : Draft → Bool
  | .text _ => true
  | _ => false

mutual

/-- The draft can be printed: its texts are no part of the markup, no two texts stand side by side,
and its loops have a variable and can be cut into words. -/
def Proper : Draft → Prop
  | .text cs => cs ≠ [] ∧ Unmarked cs ∧ ClearEnd cs
  | .value _ | .comment => True
  | .conditional _ body orelse _ => ProperAll body ∧ ProperAll orelse
  | .loop target iterable body orelse _ =>
    Identifier.isValid target = true ∧ '\\' ∉ iterable.text ∧ ProperAll body ∧ ProperAll orelse

/-- All drafts can be printed, and no text stands right behind a text. -/
def ProperAll : List Draft → Prop
  | [] => True
  | d :: ds =>
    d.Proper ∧ (d.isText = true → ∀ e ∈ ds.head?, e.isText = false) ∧ ProperAll ds

end

end Draft
end Stencil
