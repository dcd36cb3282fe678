import Stencil.Expr.Read
import Stencil.Proofs.Expr.Number
import Stencil.Proofs.Expr.Sound

/-!
# The grammar of expressions

The grammar as a document would state it: symbols, rules, tokens without their places and no trees.
`Derives` has one constructor for each alternative of a rule; what is repeated in a rule is a rule
that calls itself on its left. An argument list is derived together with the keywords of its
arguments, because calls and filters take only lists in order.

The sentences of the grammar are the token lists that can be read as chains (`derives_of_reads`,
`reads_of_derives`), so the parser accepts them and nothing else (`accepts_iff_derives`).
-/
namespace Stencil

/-- The symbols of the grammar that are not tokens. -/
inductive Nonterminal
  | expr
  | unit
  | atom
  | literal
  /-- `'|' NAME ('.' NAME)*` -/
  | filterName
  | arg (keyword : Option String)
  | args (keywords : List (Option String))

open Nonterminal Token in
/-- The symbol derives the tokens. -/
inductive Derives : Nonterminal → List Token → Prop
  -- expr := unit (op unit | '|' NAME ('.' NAME)* (':' (NUMBER | STRING) | '(' args ')')?)*
  | unit {u : List Token} : Derives unit u → Derives expr u
  | operator {e u : List Token} (op : Operator) : Derives expr e → Derives unit u →
      Derives expr (e ++ .operator op :: u)
  | filter {e f : List Token} : Derives expr e → Derives filterName f → Derives expr (e ++ f)
  | filterValue {e f v : List Token} : Derives expr e → Derives filterName f →
      Derives literal v → Derives expr (e ++ (f ++ colon :: v))
  | filterCall {e f a : List Token} {ks : List (Option String)} : Derives expr e →
      Derives filterName f → Derives (args ks) a → Arguments.Ordered ks →
      Derives expr (e ++ (f ++ (lparen :: a ++ [rparen])))
  | named (n : List Char) : Derives filterName [pipe, name n]
  | segment {f : List Token} (n : List Char) : Derives filterName f →
      Derives filterName (f ++ [dot, name n])
  -- unit := atom ('.' NAME | '[' expr ']' | '(' args ')')*
  | atom {a : List Token} : Derives atom a → Derives unit a
  | member {u : List Token} (n : List Char) : Derives unit u →
      Derives unit (u ++ [dot, name n])
  | index {u e : List Token} : Derives unit u → Derives expr e →
      Derives unit (u ++ (lbracket :: e ++ [rbracket]))
  | call {u a : List Token} {ks : List (Option String)} : Derives unit u → Derives (args ks) a →
      Arguments.Ordered ks → Derives unit (u ++ (lparen :: a ++ [rparen]))
  -- atom := NUMBER | STRING | NAME | '(' expr ')'
  | constant {v : List Token} : Derives literal v → Derives atom v
  | name (n : List Char) : Derives atom [name n]
  | group {e : List Token} : Derives expr e → Derives atom (lparen :: e ++ [rparen])
  | number {n : List Char} : FitsInteger n → Derives literal [number n]
  | string (s : List Char) : Derives literal [string s]
  -- args := (arg (',' arg)*)?, and arg := NAME '=' expr | expr
  | noArgs : Derives (args []) []
  | oneArg {a : List Token} {k : Option String} : Derives (arg k) a → Derives (args [k]) a
  | moreArgs {a b : List Token} {ks : List (Option String)} {k : Option String} : ks ≠ [] →
      Derives (args ks) a → Derives (arg k) b → Derives (args (ks ++ [k])) (a ++ comma :: b)
  | positional {e : List Token} : Derives expr e → Derives (arg none) e
  | keyword {e : List Token} (n : List Char) : Derives expr e →
      Derives (arg (some (String.ofList n))) (name n :: assign :: e)

namespace Parser

/-- The symbol that a part is an instance of. -/
def Part.symbol : Part → Nonterminal
  | .unit _ => .unit
  | .chain _ => .expr
  | .name _ => .filterName
  | .argument a => .arg (keyword? a)
  | .arguments done => .args (done.reverse.map keyword?)

/-- The numbers among the tokens have the form that the scanner gives them. -/
def NumbersScanned (ts : List (Located Token)) : Prop :=
  ∀ t ∈ ts, ∀ text, t.value = .number text → IsNumber text

theorem numbersScanned_append {ts us : List (Located Token)} :
    NumbersScanned (ts ++ us) ↔ NumbersScanned ts ∧ NumbersScanned us := by
  simp [NumbersScanned, or_imp, forall_and]

theorem numbersScanned_cons {t : Located Token} {ts : List (Located Token)} :
    NumbersScanned (t :: ts) ↔
      (∀ text, t.value = .number text → IsNumber text) ∧ NumbersScanned ts := by
  simp [NumbersScanned]

/-! ## What is read can be derived -/

theorem derives_of_literal? {t : Located Token} {v : Literal} (hn : NumbersScanned [t])
    (h : literal? t.value = some v) : Derives .literal [t.value] := by
  obtain ⟨value, s⟩ := t
  cases value <;> simp only [literal?, reduceCtorEq] at h
  case number text =>
    have hnum := (numbersScanned_cons.1 hn).1 text rfl
    exact .number ((numberLiteral?_isSome_iff hnum).1 (by rw [h]; rfl))
  case string text => exact .string text

theorem derives_of_reads {ts : List (Located Token)} {part : Part} (h : Reads ts part)
    (hn : NumbersScanned ts) : Derives part.symbol (ts.map Located.value) := by
  induction h with
  | literal hv => exact .atom (.constant (derives_of_literal? hn hv))
  | name text s => exact .atom (.name text)
  | group a b _ ih =>
    simp only [numbersScanned_append, List.cons_append, numbersScanned_cons] at hn
    simpa [Part.symbol] using Derives.atom (.group (ih hn.2.1))
  | member d text s _ ih =>
    simp only [numbersScanned_append] at hn
    simpa [Part.symbol] using Derives.member text (ih hn.1)
  | index a b _ _ ih ihk =>
    simp only [numbersScanned_append, List.cons_append, numbersScanned_cons] at hn
    simpa [Part.symbol] using Derives.index (ih hn.1) (ihk hn.2.2.1)
  | call a b _ _ ho ih iha =>
    simp only [numbersScanned_append, List.cons_append, numbersScanned_cons] at hn
    simpa [Part.symbol] using Derives.call (ih hn.1) (iha hn.2.2.1) ho
  | first _ ih => exact .unit (ih hn)
  | operator op s _ _ ih iho =>
    simp only [numbersScanned_append, numbersScanned_cons] at hn
    simpa [Part.symbol] using Derives.operator op (ih hn.1) (iho hn.2.2)
  | filter _ _ ih ihf =>
    simp only [numbersScanned_append] at hn
    simpa [Part.symbol] using Derives.filter (ih hn.1) (ihf hn.2)
  | filterValue d _ _ hv ih ihf =>
    simp only [numbersScanned_append, numbersScanned_cons (t := ⟨.colon, d⟩)] at hn
    simpa [Part.symbol] using
      Derives.filterValue (ih hn.1) (ihf hn.2.1) (derives_of_literal? hn.2.2.2 hv)
  | filterCall a b _ _ _ ho ih ihf iha =>
    simp only [numbersScanned_append, List.cons_append, numbersScanned_cons] at hn
    simpa [Part.symbol] using Derives.filterCall (ih hn.1) (ihf hn.2.1) (iha hn.2.2.2.1) ho
  | filterName a text s => exact .named text
  | filterSegment d text s _ ih =>
    simp only [numbersScanned_append] at hn
    simpa [Part.symbol] using Derives.segment text (ih hn.1)
  | positional _ ih => exact .positional (ih hn)
  | keyword text s e _ ih =>
    simp only [numbersScanned_cons] at hn
    exact .keyword text (ih hn.2.2)
  | noArguments => exact .noArgs
  | oneArgument _ ih => exact .oneArg (ih hn)
  | moreArguments s _ _ ih ihb =>
    simp only [numbersScanned_append, numbersScanned_cons] at hn
    simpa [Part.symbol] using Derives.moreArgs (by simp) (ih hn.1) (ihb hn.2.2)

/-! ## What is derived can be read -/

/-- The tokens can be read as an instance of the symbol. A filter's name is read after a pipe. -/
def CanRead (ts : List (Located Token)) : Nonterminal → Prop
  | .expr => ∃ c, Reads ts (.chain c)
  | .unit | .atom => ∃ p, Reads ts (.unit p)
  | .literal => ∃ t v, ts = [t] ∧ literal? t.value = some v
  | .filterName => ∃ f, Reads ts (.name f)
  | .arg k => ∃ a, keyword? a = k ∧ Reads ts (.argument a)
  | .args ks => ∃ done, done.reverse.map keyword? = ks ∧ Reads ts (.arguments done)

section
variable {ts : List (Located Token)} {t u : Token} {vs : List Token}

theorem eq_bracketed_of_map (h : ts.map Located.value = t :: vs ++ [u]) :
    ∃ a us b, ts = ⟨t, a⟩ :: us ++ [⟨u, b⟩] ∧ us.map Located.value = vs := by
  rw [List.cons_append] at h
  obtain ⟨a, ws, rfl, hws⟩ := eq_cons_of_map h
  obtain ⟨us, xs, rfl, hus, hxs⟩ := List.map_eq_append_iff.1 hws
  obtain ⟨b, ys, rfl, hys⟩ := eq_cons_of_map hxs
  exact ⟨a, us, b, by rw [List.map_eq_nil_iff.1 hys, List.cons_append], hus⟩

end

theorem reads_of_derives {symbol : Nonterminal} {vs : List Token} (h : Derives symbol vs) :
    ∀ ts : List (Located Token), ts.map Located.value = vs → NumbersScanned ts →
      CanRead ts symbol := by
  induction h with
  | unit _ ih =>
    intro ts hts hn
    obtain ⟨p, hp⟩ := ih ts hts hn
    exact ⟨_, .first hp⟩
  | operator op _ _ ih iho =>
    intro ts hts hn
    obtain ⟨us, vs, rfl, hus, hvs⟩ := List.map_eq_append_iff.1 hts
    obtain ⟨s, ws, rfl, hws⟩ := eq_cons_of_map hvs
    simp only [numbersScanned_append, numbersScanned_cons] at hn
    obtain ⟨c, hc⟩ := ih us hus hn.1
    obtain ⟨p, hp⟩ := iho ws hws hn.2.2
    exact ⟨_, .operator op s hc hp⟩
  | filter _ _ ih ihf =>
    intro ts hts hn
    obtain ⟨us, vs, rfl, hus, hvs⟩ := List.map_eq_append_iff.1 hts
    simp only [numbersScanned_append] at hn
    obtain ⟨c, hc⟩ := ih us hus hn.1
    obtain ⟨f, hf⟩ := ihf vs hvs hn.2
    exact ⟨_, .filter hc hf⟩
  | filterValue _ _ _ ih ihf ihv =>
    intro ts hts hn
    obtain ⟨us, vs, rfl, hus, hvs⟩ := List.map_eq_append_iff.1 hts
    obtain ⟨ws, xs, rfl, hws, hxs⟩ := List.map_eq_append_iff.1 hvs
    obtain ⟨d, ys, rfl, hys⟩ := eq_cons_of_map hxs
    simp only [numbersScanned_append, numbersScanned_cons] at hn
    obtain ⟨c, hc⟩ := ih us hus hn.1
    obtain ⟨f, hf⟩ := ihf ws hws hn.2.1
    obtain ⟨t, v, rfl, hv⟩ := ihv ys hys hn.2.2.2
    exact ⟨_, .filterValue d hc hf hv⟩
  | filterCall _ _ _ ho ih ihf iha =>
    intro ts hts hn
    obtain ⟨us, vs, rfl, hus, hvs⟩ := List.map_eq_append_iff.1 hts
    obtain ⟨ws, xs, rfl, hws, hxs⟩ := List.map_eq_append_iff.1 hvs
    obtain ⟨a, ys, b, rfl, hys⟩ := eq_bracketed_of_map hxs
    simp only [numbersScanned_append, List.cons_append, numbersScanned_cons] at hn
    obtain ⟨c, hc⟩ := ih us hus hn.1
    obtain ⟨f, hf⟩ := ihf ws hws hn.2.1
    obtain ⟨done, rfl, hd⟩ := iha ys hys hn.2.2.2.1
    exact ⟨_, .filterCall a b hc hf hd ho⟩
  | named n =>
    intro ts hts _
    obtain ⟨a, s, rfl⟩ := eq_pair_of_map hts
    exact ⟨_, .filterName a n s⟩
  | segment n _ ih =>
    intro ts hts hn
    obtain ⟨us, vs, rfl, hus, hvs⟩ := List.map_eq_append_iff.1 hts
    obtain ⟨d, s, rfl⟩ := eq_pair_of_map hvs
    simp only [numbersScanned_append] at hn
    obtain ⟨f, hf⟩ := ih us hus hn.1
    exact ⟨_, .filterSegment d n s hf⟩
  | atom _ ih => exact ih
  | member n _ ih =>
    intro ts hts hn
    obtain ⟨us, vs, rfl, hus, hvs⟩ := List.map_eq_append_iff.1 hts
    obtain ⟨d, s, rfl⟩ := eq_pair_of_map hvs
    simp only [numbersScanned_append] at hn
    obtain ⟨p, hp⟩ := ih us hus hn.1
    exact ⟨_, .member d n s hp⟩
  | index _ _ ih ihk =>
    intro ts hts hn
    obtain ⟨us, vs, rfl, hus, hvs⟩ := List.map_eq_append_iff.1 hts
    obtain ⟨a, ws, b, rfl, hws⟩ := eq_bracketed_of_map hvs
    simp only [numbersScanned_append, List.cons_append, numbersScanned_cons] at hn
    obtain ⟨p, hp⟩ := ih us hus hn.1
    obtain ⟨c, hc⟩ := ihk ws hws hn.2.2.1
    exact ⟨_, .index a b hp hc⟩
  | call _ _ ho ih iha =>
    intro ts hts hn
    obtain ⟨us, vs, rfl, hus, hvs⟩ := List.map_eq_append_iff.1 hts
    obtain ⟨a, ws, b, rfl, hws⟩ := eq_bracketed_of_map hvs
    simp only [numbersScanned_append, List.cons_append, numbersScanned_cons] at hn
    obtain ⟨p, hp⟩ := ih us hus hn.1
    obtain ⟨done, rfl, hd⟩ := iha ws hws hn.2.2.1
    exact ⟨_, .call a b hp hd ho⟩
  | constant _ ih =>
    intro ts hts hn
    obtain ⟨t, v, rfl, hv⟩ := ih ts hts hn
    exact ⟨_, .literal hv⟩
  | name n =>
    intro ts hts _
    obtain ⟨s, us, rfl, hus⟩ := eq_cons_of_map hts
    rw [List.map_eq_nil_iff.1 hus]
    exact ⟨_, .name n s⟩
  | group _ ih =>
    intro ts hts hn
    obtain ⟨a, us, b, rfl, hus⟩ := eq_bracketed_of_map hts
    simp only [numbersScanned_append, List.cons_append, numbersScanned_cons] at hn
    obtain ⟨c, hc⟩ := ih us hus hn.2.1
    exact ⟨_, .group a b hc⟩
  | @number text hf =>
    intro ts hts hn
    obtain ⟨s, us, rfl, hus⟩ := eq_cons_of_map hts
    obtain ⟨v, hv⟩ := Option.isSome_iff_exists.1
      ((numberLiteral?_isSome_iff ((numbersScanned_cons.1 hn).1 _ rfl)).2 hf)
    exact ⟨⟨.number text, s⟩, v, by rw [List.map_eq_nil_iff.1 hus], hv⟩
  | string text =>
    intro ts hts _
    obtain ⟨s, us, rfl, hus⟩ := eq_cons_of_map hts
    exact ⟨⟨.string text, s⟩, _, by rw [List.map_eq_nil_iff.1 hus], rfl⟩
  | noArgs =>
    intro ts hts _
    rw [List.map_eq_nil_iff.1 hts]
    exact ⟨[], rfl, .noArguments⟩
  | oneArg _ ih =>
    intro ts hts hn
    obtain ⟨a, rfl, ha⟩ := ih ts hts hn
    exact ⟨[a], rfl, .oneArgument ha⟩
  | moreArgs hne _ _ ih ihb =>
    intro ts hts hn
    obtain ⟨us, vs, rfl, hus, hvs⟩ := List.map_eq_append_iff.1 hts
    obtain ⟨s, ws, rfl, hws⟩ := eq_cons_of_map hvs
    simp only [numbersScanned_append, numbersScanned_cons] at hn
    obtain ⟨done, rfl, hd⟩ := ih us hus hn.1
    obtain ⟨b, rfl, hb⟩ := ihb ws hws hn.2.2
    cases done with
    | nil => exact absurd rfl hne
    | cons a done => exact ⟨b :: a :: done, by simp, .moreArguments s hd hb⟩
  | positional _ ih =>
    intro ts hts hn
    obtain ⟨c, hc⟩ := ih ts hts hn
    exact ⟨_, rfl, .positional hc⟩
  | keyword n _ ih =>
    intro ts hts hn
    obtain ⟨s, us, rfl, hus⟩ := eq_cons_of_map hts
    obtain ⟨e, vs, rfl, hvs⟩ := eq_cons_of_map hus
    simp only [numbersScanned_cons] at hn
    obtain ⟨c, hc⟩ := ih vs hvs hn.2.2
    exact ⟨_, rfl, .keyword n s e hc⟩

end Parser

namespace Expr

theorem mapError_eq_ok_iff {ε δ α : Type} {f : ε → δ} {a : α} :
    ∀ {x : Except ε α}, x.mapError f = .ok a ↔ x = .ok a
  | .error _ => ⟨nofun, nofun⟩
  | .ok _ => by
    show Except.ok _ = _ ↔ _
    simp only [Except.ok.injEq]

theorem toOption_eq_some_iff {ε α : Type} {a : α} :
    ∀ {x : Except ε α}, x.toOption = some a ↔ x = .ok a
  | .error _ => ⟨nofun, nofun⟩
  | .ok _ => by simp only [Except.toOption, Option.some.injEq, Except.ok.injEq]

theorem mapError_eq_error_iff {ε δ α : Type} {f : ε → δ} {d : δ} :
    ∀ {x : Except ε α}, x.mapError f = .error d ↔ ∃ e, x = .error e ∧ f e = d
  | .error e => by
    show Except.error _ = _ ↔ _
    simp
  | .ok _ => ⟨nofun, nofun⟩

theorem parse_eq_ok_iff {text : List Char} {ts : List (Located Token)}
    (h : Token.scanFrom 0 text = .ok ts) {e : Expr} :
    Expr.parse text = .ok e ↔ ∃ c, Parser.Reads ts (.chain c) ∧ e = c.expr := by
  have hparse : Expr.parse text = .ok e ↔ Parser.parse (Text.byteLength text) ts = .ok e := by
    rw [parse, parseAt, mapError_eq_ok_iff, readAt, h, Nat.zero_add]
    cases hp : Parser.parse (Text.byteLength text) ts <;> simp [hp]
  rw [hparse]
  refine ⟨Parser.reads_of_parse, ?_⟩
  rintro ⟨c, hc, rfl⟩
  exact Parser.parse_of_reads hc _

/-- **The parser accepts exactly the sentences of the grammar.** -/
theorem accepts_iff_derives (text : List Char) (ts : List (Located Token))
    (h : Token.scanFrom 0 text = .ok ts) :
    (∃ e, Expr.parse text = .ok e) ↔ Derives .expr (ts.map Located.value) := by
  have hn : Parser.NumbersScanned ts := fun t ht _ hv => Token.isNumber_of_mem_scan h ht hv
  constructor
  · rintro ⟨e, he⟩
    obtain ⟨c, hc, -⟩ := (parse_eq_ok_iff h).1 he
    exact Parser.derives_of_reads hc hn
  · intro hd
    obtain ⟨c, hc⟩ := Parser.reads_of_derives hd ts rfl hn
    exact ⟨_, (parse_eq_ok_iff h).2 ⟨c, hc, rfl⟩⟩

theorem accepts_iff_derives_pipe :
    Token.scanFrom 0 "1|f".toList =
        .ok [⟨.number ['1'], ⟨0, 1⟩⟩, ⟨.pipe, ⟨1, 2⟩⟩, ⟨.name ['f'], ⟨2, 3⟩⟩] ∧
      ((∃ e, Expr.parse "1|f".toList = .ok e) ↔
        Derives .expr [.number ['1'], .pipe, .name ['f']]) := by
  have hscan : Token.scanFrom 0 "1|f".toList =
      .ok [⟨.number ['1'], ⟨0, 1⟩⟩, ⟨.pipe, ⟨1, 2⟩⟩, ⟨.name ['f'], ⟨2, 3⟩⟩] := by
    have htext : "1|f".toList = ['1', '|', 'f'] := rfl
    have hnumber : Token.lexeme '1' ['|', 'f'] =
        ⟨.token (.number ['1']), ['1'], ['|', 'f']⟩ := rfl
    have hpipe : Token.lexeme '|' ['f'] = ⟨.token .pipe, ['|'], ['f']⟩ := rfl
    have hname : Token.lexeme 'f' [] = ⟨.token (.name ['f']), ['f'], []⟩ := rfl
    rw [htext, Token.scanFrom, Token.itemsFrom]
    simp only [Token.rawItems, hnumber, hpipe, hname]
    rfl
  exact ⟨hscan, accepts_iff_derives _ _ hscan⟩

end Expr
end Stencil
