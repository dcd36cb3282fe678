import Stencil.Proofs.Expr.Grammar
import Stencil.Proofs.Expr.Spelling

/-!
# Printing expressions

An expression is printed as tokens, and the tokens are laid out as text. Operators and filters stand
in parentheses where they are an operand, a callee or the base of a subscript or an attribute. The
input of a filter may stand in parentheses too, and a filter without arguments may have an empty
list of them; both are up to the `Style`. What is printed in any style is parsed as the same tree
(`parse_print`).
-/
namespace Stencil

/-- A way to print expressions. -/
structure Style extends Token.Layout where
  /-- An operator or filter that is the input of a filter stands in parentheses. -/
  groupsInput : Bool
  /-- A filter without arguments has an empty list of them. -/
  listsNothing : Bool

/-- Nothing that is not needed. -/
def Style.tight : Style := { Token.Layout.tight with groupsInput := false, listsNothing := false }

/-! ## Tokens of an expression -/

/-- The token of a constant; floats have none. -/
def Literal.token : Literal → Token
  | .int n => .number (Nat.toDigits 10 n.toInt.toNat)
  | .float _ => .not
  | .str s => .string s.toList

/-- The token of a name. -/
def nameToken (name : String) : Token := .name name.toList

/-- Segments with dots between them. -/
def dotted : List Ident → List Token
  | [] => []
  | [i] => [nameToken i.name]
  | i :: is => nameToken i.name :: .dot :: dotted is

/-- Lists of tokens with commas between them. -/
def commas : List (List Token) → List Token
  | [] => []
  | [ts] => ts
  | ts :: rest => ts ++ .comma :: commas rest

/-- Tokens in parentheses, if they need them. -/
def grouped (needed : Bool) (ts : List Token) : List Token :=
  if needed then .lparen :: ts ++ [.rparen] else ts

namespace Expr

/-- An operator or a filter applied to something. -/
def isApplication : Expr → Bool
  | .arith _ _ _ _ | .compare _ _ _ _ | .logic _ _ _ _ | .filter _ _ _ _ _ => true
  | _ => false

mutual

/-- The tokens of an expression. -/
def tokens (st : Style) : Expr → List Token
  | .literal _ v => [v.token]
  | .name _ n => [nameToken n]
  | .attribute _ b a => grouped b.isApplication (b.tokens st) ++ [.dot, nameToken a.name]
  | .index _ b k =>
    grouped b.isApplication (b.tokens st) ++ (.lbracket :: k.tokens st ++ [.rbracket])
  | .arith _ op l r =>
    grouped l.isApplication (l.tokens st) ++
      .operator (.arith op) :: grouped r.isApplication (r.tokens st)
  | .compare _ op l r =>
    grouped l.isApplication (l.tokens st) ++
      .operator (.compare op) :: grouped r.isApplication (r.tokens st)
  | .logic _ op l r =>
    grouped l.isApplication (l.tokens st) ++
      .operator (.logic op) :: grouped r.isApplication (r.tokens st)
  | .call _ c as ks =>
    grouped c.isApplication (c.tokens st) ++
      (.lparen :: commas (tokensAll st as ++ tokensKeywords st ks) ++ [.rparen])
  | .filter _ i n as ks =>
    grouped (st.groupsInput && i.isApplication) (i.tokens st) ++
      (.pipe :: dotted n.segments ++
        if as.isEmpty && ks.isEmpty && !st.listsNothing then []
        else .lparen :: commas (tokensAll st as ++ tokensKeywords st ks) ++ [.rparen])

/-- The tokens of each positional argument. -/
def tokensAll (st : Style) : List Expr → List (List Token)
  | [] => []
  | e :: es => e.tokens st :: tokensAll st es

/-- The tokens of each keyword argument. -/
def tokensKeywords (st : Style) : List (Ident × Expr) → List (List Token)
  | [] => []
  | (k, e) :: ks => (nameToken k.name :: .assign :: e.tokens st) :: tokensKeywords st ks

end

/-- The text of an expression. -/
def print (st : Style) (e : Expr) : List Char := st.text (e.tokens st)

end Expr

/-! ## Expressions that have a text -/

/-- The name is an identifier, and no word with a meaning of its own. -/
def IsName (name : String) : Prop :=
  Identifier.isValid name.toList = true ∧ name ∉ ["in", "not", "is", "and", "or"]

instance (name : String) : Decidable (IsName name) := inferInstanceAs (Decidable (_ ∧ _))

/-- The constant is written as one token. -/
def Literal.Printable : Literal → Prop
  | .int n => 0 ≤ n.toInt
  | .float _ => False
  | .str s => '"' ∉ s.toList ∨ '\'' ∉ s.toList

mutual

/-- The expression can be printed: its constants and names can be written, the names of its filters
have a segment, and no keyword is given twice in one list. -/
def Expr.Printable : Expr → Prop
  | .literal _ v => v.Printable
  | .name _ n => IsName n
  | .attribute _ b a => b.Printable ∧ IsName a.name
  | .index _ b k => b.Printable ∧ k.Printable
  | .arith _ _ l r | .compare _ _ l r | .logic _ _ l r => l.Printable ∧ r.Printable
  | .call _ c as ks => c.Printable ∧ PrintableAll as ∧ PrintableKeywords ks ∧
    (ks.map (fun k => k.1.name)).Nodup
  | .filter _ i n as ks => i.Printable ∧ n.segments ≠ [] ∧ (∀ s ∈ n.segments, IsName s.name) ∧
    PrintableAll as ∧ PrintableKeywords ks ∧ (ks.map (fun k => k.1.name)).Nodup

def PrintableAll : List Expr → Prop
  | [] => True
  | e :: es => e.Printable ∧ PrintableAll es

def PrintableKeywords : List (Ident × Expr) → Prop
  | [] => True
  | (k, e) :: ks => IsName k.name ∧ e.Printable ∧ PrintableKeywords ks

end

/-! ## Tokens can be written -/

theorem ofWord_of_isName {name : String} (h : IsName name) :
    Token.ofWord name.toList = .name name.toList := by
  have hne : ∀ word ∈ ["in", "not", "is", "and", "or"], name.toList ≠ word.toList := by
    rintro word hw heq
    exact h.2 (String.toList_inj.1 heq ▸ hw)
  simp only [List.forall_mem_cons] at hne
  obtain ⟨h1, h2, h3, h4, h5, -⟩ := hne
  unfold Token.ofWord
  rw [if_neg h1, if_neg h3, if_neg h4, if_neg h5, if_neg h2]

theorem proper_nameToken {name : String} (h : IsName name) : (nameToken name).Proper :=
  ⟨h.1, ofWord_of_isName h⟩

theorem proper_literal {v : Literal} (h : v.Printable) : v.token.Proper := by
  cases v with
  | int n => exact .whole (isDigits_toDigits _)
  | float x => cases h
  | str s => exact h

theorem proper_dotted : ∀ {is : List Ident}, (∀ i ∈ is, IsName i.name) →
    ∀ t ∈ dotted is, t.Proper
  | [], _, t, ht => by simp [dotted] at ht
  | [i], h, t, ht => by
    obtain rfl : t = nameToken i.name := by simpa [dotted] using ht
    exact proper_nameToken (h i (by simp))
  | i :: j :: is, h, t, ht => by
    obtain ⟨hi, hrest⟩ := List.forall_mem_cons.1 h
    rw [dotted] at ht
    rcases List.mem_cons.1 ht with rfl | ht
    · exact proper_nameToken hi
    rcases List.mem_cons.1 ht with rfl | ht
    · trivial
    · exact proper_dotted hrest t ht
    · simp

theorem proper_commas : ∀ {tss : List (List Token)}, (∀ ts ∈ tss, ∀ t ∈ ts, t.Proper) →
    ∀ t ∈ commas tss, t.Proper
  | [], _, t, ht => by simp [commas] at ht
  | [ts], h, t, ht => h ts (by simp) t ht
  | ts :: us :: rest, h, t, ht => by
    obtain ⟨hts, hrest⟩ := List.forall_mem_cons.1 h
    rw [commas] at ht
    rcases List.mem_append.1 ht with ht | ht
    · exact hts t ht
    rcases List.mem_cons.1 ht with rfl | ht
    · trivial
    · exact proper_commas hrest t ht
    · simp

theorem proper_grouped {needed : Bool} {ts : List Token} (h : ∀ t ∈ ts, t.Proper) :
    ∀ t ∈ grouped needed ts, t.Proper := by
  unfold grouped
  split
  · simp only [List.cons_append, List.forall_mem_cons, List.forall_mem_append]
    exact ⟨trivial, h, trivial, by simp⟩
  · exact h

theorem proper_arguments {tss uss : List (List Token)} (h : ∀ ts ∈ tss, ∀ t ∈ ts, t.Proper)
    (h' : ∀ ts ∈ uss, ∀ t ∈ ts, t.Proper) :
    ∀ t ∈ Token.lparen :: commas (tss ++ uss) ++ [Token.rparen], t.Proper := by
  simp only [List.cons_append, List.forall_mem_cons, List.forall_mem_append]
  refine ⟨trivial, proper_commas ?_, trivial, by simp⟩
  simp only [List.forall_mem_append]
  exact ⟨h, h'⟩

mutual

theorem proper_tokens (st : Style) : ∀ {e : Expr}, e.Printable → ∀ t ∈ e.tokens st, t.Proper
  | .literal _ v, h => by
    rw [Expr.tokens, List.forall_mem_singleton]
    exact proper_literal h
  | .name _ n, h => by
    rw [Expr.tokens, List.forall_mem_singleton]
    exact proper_nameToken h
  | .attribute _ b a, h => by
    rw [Expr.tokens]
    simp only [List.forall_mem_append, List.forall_mem_cons]
    exact ⟨proper_grouped (proper_tokens st h.1), trivial, proper_nameToken h.2, by simp⟩
  | .index _ b k, h => by
    rw [Expr.tokens]
    simp only [List.forall_mem_append, List.cons_append, List.forall_mem_cons]
    exact ⟨proper_grouped (proper_tokens st h.1), trivial, proper_tokens st h.2, trivial, by simp⟩
  | .arith _ op l r, h | .compare _ op l r, h | .logic _ op l r, h => by
    rw [Expr.tokens]
    simp only [List.forall_mem_append, List.forall_mem_cons]
    exact ⟨proper_grouped (proper_tokens st h.1), trivial, proper_grouped (proper_tokens st h.2)⟩
  | .call _ c as ks, h => by
    rw [Expr.tokens, List.forall_mem_append]
    exact ⟨proper_grouped (proper_tokens st h.1),
      proper_arguments (proper_tokensAll st h.2.1) (proper_tokensKeywords st h.2.2.1)⟩
  | .filter _ i n as ks, h => by
    obtain ⟨hi, -, hn, ha, hk, -⟩ := h
    rw [Expr.tokens]
    simp only [List.forall_mem_append, List.cons_append, List.forall_mem_cons]
    refine ⟨proper_grouped (proper_tokens st hi), trivial, proper_dotted hn, ?_⟩
    split
    · simp
    · exact proper_arguments (proper_tokensAll st ha) (proper_tokensKeywords st hk)

theorem proper_tokensAll (st : Style) : ∀ {es : List Expr}, PrintableAll es →
    ∀ ts ∈ Expr.tokensAll st es, ∀ t ∈ ts, t.Proper
  | [], _ => by simp [Expr.tokensAll]
  | e :: es, h => by
    rw [Expr.tokensAll, List.forall_mem_cons]
    exact ⟨proper_tokens st h.1, proper_tokensAll st h.2⟩

theorem proper_tokensKeywords (st : Style) : ∀ {ks : List (Ident × Expr)}, PrintableKeywords ks →
    ∀ ts ∈ Expr.tokensKeywords st ks, ∀ t ∈ ts, t.Proper
  | [], _ => by simp [Expr.tokensKeywords]
  | (k, e) :: ks, h => by
    rw [Expr.tokensKeywords]
    simp only [List.forall_mem_cons]
    exact ⟨⟨proper_nameToken h.1, trivial, proper_tokens st h.2.1⟩,
      proper_tokensKeywords st h.2.2⟩

end

end Stencil
