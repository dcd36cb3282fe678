import Stencil.Expr.Parser

/-!
# What tokens spell

`Reads ts part` says that the tokens `ts` can be read as `part`: an operand, a chain, the name of a
filter, an argument or an argument list. It is the grammar of expressions with the trees and spans
that the parser builds; each rule puts together what its parts were read as, and says nothing of
the order in which tokens come in.
-/
namespace Stencil

namespace Arguments

/-- Positional arguments first, then keywords, none of them twice. Each argument is shown by its
keyword or `none`. -/
def Ordered (names : List (Option String)) : Prop :=
  ∃ (positional : Nat) (keywords : List String),
    names = List.replicate positional none ++ keywords.map some ∧ keywords.Nodup

/-- After the first keyword only new keywords are in order. -/
theorem fault?_after {seen : List String} (hs : seen ≠ []) : ∀ names : List (Option String),
    fault? seen names = none ↔
      ∃ keywords : List String,
        names = keywords.map some ∧ keywords.Nodup ∧ ∀ k ∈ keywords, k ∉ seen
  | [] => by
    refine iff_of_true rfl ⟨[], rfl, List.nodup_nil, by simp⟩
  | none :: rest => by
    have he : seen.isEmpty = false := by simpa using hs
    simp only [fault?, he]
    refine iff_of_false (by simp) ?_
    rintro ⟨_ | ⟨k, ks⟩, h, -⟩ <;> simp at h
  | some k :: rest => by
    have ih := fault?_after (List.cons_ne_nil k seen) rest
    rw [fault?]
    split
    · rename_i hk
      refine iff_of_false (by simp) ?_
      rintro ⟨_ | ⟨k', ks'⟩, h, -, hn⟩
      · simp at h
      obtain ⟨rfl, -⟩ : k = k' ∧ rest = ks'.map some := by simpa using h
      exact hn k (by simp) (by simpa using hk)
    · rename_i hk
      rw [ih]
      constructor
      · rintro ⟨ks, rfl, hd, hn⟩
        refine ⟨k :: ks, rfl, List.nodup_cons.2 ⟨fun h => ?_, hd⟩, ?_⟩
        · exact hn k h (by simp)
        · intro j hj
          rcases List.mem_cons.1 hj with rfl | hj
          · simpa using hk
          · exact fun h => hn j hj (List.mem_cons_of_mem k h)
      · rintro ⟨_ | ⟨k', ks'⟩, h, hd, hn⟩
        · simp at h
        obtain ⟨rfl, rfl⟩ : k = k' ∧ rest = ks'.map some := by simpa using h
        obtain ⟨hk', hd⟩ := List.nodup_cons.1 hd
        refine ⟨ks', rfl, hd, fun j hj hm => ?_⟩
        rcases List.mem_cons.1 hm with rfl | hm
        · exact hk' hj
        · exact hn j (List.mem_cons_of_mem k hj) hm

/-- **The check of an argument list finds no fault in the ordered lists, and in no others.** -/
theorem fault?_eq_none_iff : ∀ names : List (Option String),
    fault? [] names = none ↔ Ordered names
  | [] => iff_of_true rfl ⟨0, [], rfl, List.nodup_nil⟩
  | none :: rest => by
    rw [fault?, List.isEmpty_nil, if_pos rfl, fault?_eq_none_iff rest]
    constructor
    · rintro ⟨n, ks, rfl, hd⟩
      exact ⟨n + 1, ks, rfl, hd⟩
    · rintro ⟨n, ks, h, hd⟩
      cases n with
      | zero => cases ks <;> simp at h
      | succ n => exact ⟨n, ks, by simpa [List.replicate_succ] using h, hd⟩
  | some k :: rest => by
    rw [fault?, if_neg (by simp), fault?_after (List.cons_ne_nil k [])]
    constructor
    · rintro ⟨ks, rfl, hd, hn⟩
      exact ⟨0, k :: ks, rfl, List.nodup_cons.2 ⟨fun h => hn k h (by simp), hd⟩⟩
    · rintro ⟨n, ks, h, hd⟩
      cases n with
      | zero =>
        cases ks with
        | nil => simp at h
        | cons k' ks' =>
          obtain ⟨rfl, rfl⟩ : k = k' ∧ rest = ks'.map some := by simpa using h
          obtain ⟨hk, hd⟩ := List.nodup_cons.1 hd
          refine ⟨ks', rfl, hd, fun j hj hm => ?_⟩
          obtain rfl : j = k := by simpa using hm
          exact hk hj
      | succ n => simp [List.replicate_succ] at h

end Arguments

namespace Parser

/-! ## Pieces of a tree -/

/-- The constant that a token spells. -/
def literal? : Token → Option Literal
  | .number text => numberLiteral? text
  | .string text => some (.str (String.ofList text))
  | _ => none

/-- `base.attr` -/
def Phrase.attribute (base : Phrase) (attr : Ident) : Phrase :=
  ⟨.attribute (base.expr.span.cover attr.span) base.expr attr, base.extent.cover attr.span⟩

/-- `base[key]`, which ends with the token at `stop`. -/
def Phrase.index (base : Phrase) (key : Expr) (stop : Span) : Phrase :=
  ⟨.index (base.expr.span.cover stop) base.expr key, base.extent.cover stop⟩

/-- `callee(args)`, which ends with the token at `stop`. -/
def Phrase.call (callee : Phrase) (args : List Argument) (stop : Span) : Phrase :=
  ⟨.call (callee.expr.span.cover stop) callee.expr (Arguments.positionals args)
    (Arguments.keywords args), callee.extent.cover stop⟩

/-- The keyword of an argument. -/
def keyword? (a : Argument × Span) : Option String :=
  match a.1 with
  | .positional _ => none
  | .keyword k _ => some k.name

/-- The arguments of a list that was read with the latest first. -/
def arguments (done : List (Argument × Span)) : List Argument := done.reverse.map Prod.fst

/-- What tokens can be read as. Argument lists have the latest argument first, as the parser has. -/
inductive Part
  | unit (p : Phrase)
  | chain (c : Chain)
  | name (f : FilterName)
  | argument (a : Argument × Span)
  | arguments (done : List (Argument × Span))

/-! ## The rules -/

/-- The tokens can be read as the part. -/
inductive Reads : List (Located Token) → Part → Prop
  | literal {t : Located Token} {v : Literal} : literal? t.value = some v →
      Reads [t] (.unit ⟨.literal t.span v, t.span⟩)
  | name (text : List Char) (s : Span) :
      Reads [⟨.name text, s⟩] (.unit ⟨.name s (String.ofList text), s⟩)
  | group {ts : List (Located Token)} {c : Chain} (a b : Span) : Reads ts (.chain c) →
      Reads (⟨.lparen, a⟩ :: ts ++ [⟨.rparen, b⟩]) (.unit ⟨c.expr, ⟨a.start, b.stop⟩⟩)
  | member {ts : List (Located Token)} {p : Phrase} (d : Span) (text : List Char) (s : Span) :
      Reads ts (.unit p) →
      Reads (ts ++ [⟨.dot, d⟩, ⟨.name text, s⟩]) (.unit (p.attribute (ident text s)))
  | index {ts us : List (Located Token)} {p : Phrase} {c : Chain} (a b : Span) :
      Reads ts (.unit p) → Reads us (.chain c) →
      Reads (ts ++ (⟨.lbracket, a⟩ :: us ++ [⟨.rbracket, b⟩])) (.unit (p.index c.expr b))
  | call {ts us : List (Located Token)} {p : Phrase} {done : List (Argument × Span)}
      (a b : Span) : Reads ts (.unit p) → Reads us (.arguments done) →
      Arguments.Ordered (done.reverse.map keyword?) →
      Reads (ts ++ (⟨.lparen, a⟩ :: us ++ [⟨.rparen, b⟩])) (.unit (p.call (arguments done) b))
  | first {ts : List (Located Token)} {p : Phrase} : Reads ts (.unit p) →
      Reads ts (.chain (close none p))
  | operator {ts us : List (Located Token)} {c : Chain} {p : Phrase} (op : Operator) (s : Span) :
      Reads ts (.chain c) → Reads us (.unit p) →
      Reads (ts ++ ⟨.operator op, s⟩ :: us) (.chain (close (some (c, op)) p))
  | filter {ts us : List (Located Token)} {c : Chain} {f : FilterName} : Reads ts (.chain c) →
      Reads us (.name f) → Reads (ts ++ us) (.chain (c.pipe (f.call f.stop [])))
  | filterValue {ts us : List (Located Token)} {c : Chain} {f : FilterName} (d : Span)
      {t : Located Token} {v : Literal} : Reads ts (.chain c) → Reads us (.name f) →
      literal? t.value = some v →
      Reads (ts ++ (us ++ [⟨.colon, d⟩, t]))
        (.chain (c.pipe (f.call t.span.stop [.positional (.literal t.span v)])))
  | filterCall {ts us vs : List (Located Token)} {c : Chain} {f : FilterName}
      {done : List (Argument × Span)} (a b : Span) : Reads ts (.chain c) → Reads us (.name f) →
      Reads vs (.arguments done) → Arguments.Ordered (done.reverse.map keyword?) →
      Reads (ts ++ (us ++ (⟨.lparen, a⟩ :: vs ++ [⟨.rparen, b⟩])))
        (.chain (c.pipe (f.call b.stop (arguments done))))
  | filterName (a : Span) (text : List Char) (s : Span) :
      Reads [⟨.pipe, a⟩, ⟨.name text, s⟩] (.name ⟨a.start, [ident text s]⟩)
  | filterSegment {ts : List (Located Token)} {f : FilterName} (d : Span) (text : List Char)
      (s : Span) : Reads ts (.name f) →
      Reads (ts ++ [⟨.dot, d⟩, ⟨.name text, s⟩]) (.name ⟨f.start, ident text s :: f.segments⟩)
  | positional {ts : List (Located Token)} {c : Chain} : Reads ts (.chain c) →
      Reads ts (.argument (.positional c.expr, c.extent))
  | keyword {ts : List (Located Token)} {c : Chain} (text : List Char) (s e : Span) :
      Reads ts (.chain c) →
      Reads (⟨.name text, s⟩ :: ⟨.assign, e⟩ :: ts)
        (.argument (.keyword (ident text s) c.expr, s.cover c.extent))
  | noArguments : Reads [] (.arguments [])
  | oneArgument {ts : List (Located Token)} {a : Argument × Span} : Reads ts (.argument a) →
      Reads ts (.arguments [a])
  | moreArguments {ts us : List (Located Token)} {a b : Argument × Span}
      {done : List (Argument × Span)} (s : Span) : Reads ts (.arguments (a :: done)) →
      Reads us (.argument b) →
      Reads (ts ++ ⟨.comma, s⟩ :: us) (.arguments (b :: a :: done))

end Parser
end Stencil
