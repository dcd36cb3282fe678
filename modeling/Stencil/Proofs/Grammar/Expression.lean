import Stencil.Proofs.Expr.Grammar
import Stencil.Proofs.Grammar.Rule

/-!
# Expressions by ordered choice

The grammar of expressions as rules that try one choice after the other and go back where a choice
fails: an atom with its trailers, operators and filters in a flat chain that `Expr.climb` makes a
tree of, and an argument that is tried as a keyword first. The span of a node is that of the tokens
taken for it.

The parser takes each token once and never goes back. It finds the expressions that the rules find,
and no others (`Parser.toOption_parse`), so deciding by the next token is as good as trying every
choice. What links the two is `Reads`: a rule takes nothing that cannot be read
(`gives_expression`), and what can be read is what the rules find first (`taken_of_reads`). Which
token a failure names is not part of the rules.
-/
namespace Stencil

namespace Grammar

open Rule (select just choice)

/-! ## The rules -/

def identifier : Rule Token Ident :=
  (select fun | .name text => some text | _ => none).spanned.map
    fun l => Parser.ident l.value l.span

def number : Rule Token Literal :=
  (select fun | .number text => some text | _ => none).tryMap Parser.numberLiteral?

def string : Rule Token Literal :=
  select fun | .string text => some (.str (String.ofList text)) | _ => none

def literal : Rule Token Expr :=
  (choice [number, string]).spanned.map fun l => .literal l.span l.value

def name : Rule Token Expr := identifier.map fun i => .name i.span i.name

/-- Keywords follow positional arguments and do not repeat. -/
def addArgument (sorted : List Expr × List (Ident × Expr)) :
    Argument → Option (List Expr × List (Ident × Expr))
  | .positional e => if sorted.2.isEmpty then some (sorted.1 ++ [e], sorted.2) else none
  | .keyword i e =>
    if sorted.2.any (fun k => k.1.name == i.name) then none
    else some (sorted.1, sorted.2 ++ [(i, e)])

def sortArguments (args : List Argument) : Option (List Expr × List (Ident × Expr)) :=
  args.foldlM addArgument ([], [])

/-- What may follow an operand. -/
inductive Trailer
  | attribute (attr : Ident)
  | index (key : Expr)
  | call (args : List Expr) (keywords : List (Ident × Expr))

def applyTrailer (base : Expr) (t : Located Trailer) : Expr :=
  let span := base.span.cover t.span
  match t.value with
  | .attribute attr => .attribute span base attr
  | .index key => .index span base key
  | .call args keywords => .call span base args keywords

def operator : Rule Token Operator := select fun | .operator op => some op | _ => none

def lookupName : Rule Token DottedName := (identifier.separatedBy1 (just .dot)).map DottedName.mk

section
variable (e : Rule Token Expr)

def atom : Rule Token Expr := choice [literal, name, e.delimitedBy .lparen .rparen]

def keyword : Rule Token Argument :=
  ((identifier.thenIgnore (just .assign)).andThen e).map fun (i, value) => .keyword i value

def argument : Rule Token Argument := (keyword e).orElse (e.map .positional)

def arguments : Rule Token (List Expr × List (Ident × Expr)) :=
  (((argument e).separatedBy (just .comma)).tryMap sortArguments).delimitedBy .lparen .rparen

def trailer : Rule Token (Located Trailer) :=
  (choice [((just .dot).ignoreThen identifier).map .attribute,
    (e.delimitedBy .lbracket .rbracket).map .index,
    (arguments e).map fun (args, keywords) => .call args keywords]).spanned

def unit : Rule Token Expr := (atom e).foldl (trailer e) applyTrailer

/-- `|filter:literal`; anything richer needs the call form. -/
def filterArguments : Rule Token (List Expr × List (Ident × Expr)) :=
  (choice [((just .colon).ignoreThen literal).map fun arg => ([arg], []), arguments e]).orNot.map
    (·.getD ([], []))

def filter : Rule Token FilterCall :=
  (((just .pipe).ignoreThen lookupName).andThen (filterArguments e)).spanned.map fun l =>
    ⟨l.span, l.value.1, l.value.2.1, l.value.2.2⟩

def segment : Rule Token Segment :=
  choice [(operator.andThen (unit e)).map fun (op, operand) => .operator op operand,
    (filter e).map .filter]

def expressionOf : Rule Token Expr :=
  ((unit e).andThen (segment e).repeated).map fun (first, rest) => Expr.climb first rest

end

def expression : Rule Token Expr := Rule.recursive expressionOf

/-! ## An expression refers to itself inside brackets and behind operators only -/

section
open Rule
variable {n : Nat} {e e' : Rule Token Expr}

theorem agree_keyword (h : Agree n e e') : Agree n (keyword e) (keyword e') :=
  ((Agree.refl _).andThen h).map _

theorem agree_argument (h : Agree n e e') : Agree n (argument e) (argument e') :=
  (agree_keyword h).orElse (h.map _)

theorem agree_arguments (h : AgreeBelow n e e') : Agree n (arguments e) (arguments e') := by
  refine AgreeBelow.delimitedBy (h.lift ?_) _ _
  intro m hm
  exact ((agree_argument hm).separatedBy _).tryMap _

theorem agree_atom (h : AgreeBelow n e e') : Agree n (atom e) (atom e') :=
  (Agree.refl _).orElse ((Agree.refl _).orElse ((h.delimitedBy _ _).orElse (.refl _)))

theorem agree_trailer (h : AgreeBelow n e e') : Agree n (trailer e) (trailer e') :=
  ((Agree.refl _).orElse (((h.delimitedBy _ _).map _).orElse
    (((agree_arguments h).map _).orElse (.refl _)))).spanned

theorem agree_unit (h : AgreeBelow n e e') : Agree n (unit e) (unit e') :=
  (agree_atom h).foldl (agree_trailer h) _

theorem agree_filter (h : AgreeBelow n e e') : Agree n (filter e) (filter e') := by
  have harguments : Agree n (filterArguments e) (filterArguments e') :=
    (((Agree.refl _).orElse ((agree_arguments h).orElse (.refl _))).orNot).map _
  exact (((Agree.refl _).andThen harguments).spanned).map _

theorem agree_segment (h : AgreeBelow n e e') : Agree n (segment e) (segment e') :=
  (((Agree.refl _).andThen (agree_unit h)).map _).orElse
    (((agree_filter h).map _).orElse (.refl _))

theorem guarded_expressionOf : Guarded expressionOf := by
  intro n e e' h
  exact ((agree_unit h).andThen (agree_segment h).repetition).map _

theorem expression_run (ts : List (Located Token)) :
    expression.run ts = (expressionOf expression).run ts := recursive_run guarded_expressionOf ts

end

/-! ## Argument lists -/

/-- Sorting stops at the first fault, and what was put aside before stays. -/
theorem foldlM_addArgument (args : List (Argument × Span)) : ∀ (ps : List Expr)
    (ks : List (Ident × Expr)) (x : List Expr × List (Ident × Expr)),
    (args.map Prod.fst).foldlM addArgument (ps, ks) = some x ↔
      Arguments.fault? (ks.map fun k => k.1.name).reverse (args.map Parser.keyword?) = none ∧
        x = (ps ++ Arguments.positionals (args.map Prod.fst),
          ks ++ Arguments.keywords (args.map Prod.fst)) := by
  induction args with
  | nil =>
    intro ps ks x
    have hfault : ∀ seen, Arguments.fault? seen [] = none := fun _ => rfl
    simp only [List.map_nil, List.foldlM_nil, hfault, Arguments.positionals, Arguments.keywords,
      List.append_nil, true_and]
    exact ⟨fun h => (Option.some.inj h).symm, fun h => congrArg some h.symm⟩
  | cons a args ih =>
    intro ps ks x
    obtain ⟨arg, span⟩ := a
    cases arg with
    | positional e =>
      by_cases hk : ks = []
      · subst hk
        have hadd : addArgument (ps, []) (.positional e) = some (ps ++ [e], []) := rfl
        simp [hadd, ih, Parser.keyword?, Arguments.fault?, Arguments.positionals,
          Arguments.keywords]
      · have hadd : addArgument (ps, ks) (.positional e) = none := by simp [addArgument, hk]
        simp [hadd, Parser.keyword?, Arguments.fault?, hk]
    | keyword i e =>
      by_cases hi : ∃ k ∈ ks, k.1.name = i.name
      · have hadd : addArgument (ps, ks) (.keyword i e) = none := by
          simpa [addArgument] using hi
        simp [hadd, Parser.keyword?, Arguments.fault?, hi]
      · have hadd : addArgument (ps, ks) (.keyword i e) = some (ps, ks ++ [(i, e)]) := by
          simpa [addArgument] using hi
        simp [hadd, ih, Parser.keyword?, Arguments.fault?, hi, Arguments.positionals,
          Arguments.keywords]

theorem sortArguments_eq_some_iff {args : List (Argument × Span)}
    {x : List Expr × List (Ident × Expr)} : sortArguments (args.map Prod.fst) = some x ↔
      Arguments.Ordered (args.map Parser.keyword?) ∧
        x = (Arguments.positionals (args.map Prod.fst),
          Arguments.keywords (args.map Prod.fst)) := by
  rw [← Arguments.fault?_eq_none_iff]
  exact foldlM_addArgument args [] [] x

/-! ## Single tokens -/

open Stencil.Parser

theorem identifier_run (text : List Char) (s : Span) (rest : List (Located Token)) :
    identifier.run (⟨.name text, s⟩ :: rest) = some (ident text s, rest) :=
  Rule.map_run (Rule.spanned_run_one (a := text) rfl) _

theorem identifier_eq_none {ts : List (Located Token)}
    (h : ∀ t ∈ ts.head?, ∀ text, t.value ≠ .name text) : identifier.run ts = none := by
  refine Rule.map_eq_none_iff.2 ?_
  cases ts with
  | nil => rfl
  | cons t ts =>
    have ht : ∀ text, t.value ≠ .name text := h t rfl
    obtain ⟨value, s⟩ := t
    cases value <;> first | rfl | exact absurd rfl (ht _)

theorem literal_run (t : Located Token) (rest : List (Located Token)) :
    literal.run (t :: rest) = (literal? t.value).map fun v => (.literal t.span v, rest) := by
  have hchoice : (choice [number, string]).run (t :: rest) =
      (literal? t.value).map fun v => (v, rest) := by
    obtain ⟨value, s⟩ := t
    cases value <;>
      simp [choice, Rule.orElse, Rule.fail, number, string, Rule.tryMap, select, literal?]
  cases hv : literal? t.value with
  | none =>
    rw [hv] at hchoice
    refine Rule.map_eq_none_iff.2 ?_
    simp [Rule.spanned, hchoice]
  | some v =>
    rw [hv] at hchoice
    exact Rule.map_run (Rule.spanned_run_one hchoice) _

theorem operator_run (op : Operator) (s : Span) (rest : List (Located Token)) :
    operator.run (⟨.operator op, s⟩ :: rest) = some (op, rest) := rfl

/-! ## What a rule gives can be read -/

theorem gives_identifier : identifier.Gives fun front i =>
    ∃ text s, front = [⟨.name text, s⟩] ∧ i = ident text s := by
  refine ((Rule.gives_select _).spanned.map _).mono ?_
  rintro front i ⟨l, ⟨⟨⟨t, s⟩, rfl, ht⟩, hs⟩, rfl⟩
  cases t <;> simp only [reduceCtorEq, Option.some.injEq] at ht
  case name text =>
    subst ht
    exact ⟨l.value, s, rfl, by rw [hs]; rfl⟩

theorem gives_literal : literal.Gives fun front x =>
    ∃ t v, front = [t] ∧ literal? t.value = some v ∧ x = .literal t.span v := by
  intro front rest x h
  cases hts : front ++ rest with
  | nil =>
    rw [hts] at h
    cases h
  | cons t ts =>
    rw [hts, literal_run] at h
    obtain ⟨v, hv, hx⟩ := Option.map_eq_some_iff.1 h
    obtain ⟨rfl, rfl⟩ := Prod.mk.inj hx
    rw [← List.singleton_append] at hts
    exact ⟨t, v, List.append_cancel_right hts, hv, rfl⟩

theorem gives_operator : operator.Gives fun front op => ∃ s, front = [⟨.operator op, s⟩] := by
  refine (Rule.gives_select _).mono ?_
  rintro front op ⟨⟨t, s⟩, rfl, ht⟩
  cases t <;> simp only [reduceCtorEq, Option.some.injEq] at ht
  case operator op' =>
    subst ht
    exact ⟨s, rfl⟩

/-- The name of a filter spans what the filter does without arguments. -/
theorem spanOf_of_reads_name {ts : List (Located Token)} {f : FilterName} (h : Reads ts (.name f)) :
    ts ≠ [] ∧ spanOf ts = ⟨f.start, f.stop⟩ := by
  generalize hpart : Part.name f = part at h
  induction h generalizing f with
  | filterName a text s =>
    cases hpart
    exact ⟨List.cons_ne_nil _ _, rfl⟩
  | filterSegment d text s _ ih =>
    cases hpart
    obtain ⟨hne, hspan⟩ := ih rfl
    refine ⟨List.append_ne_nil_of_left_ne_nil hne _, ?_⟩
    rw [spanOf_append hne (List.cons_ne_nil _ _), hspan]
    rfl
  | _ => cases hpart

/-- A filter spans the tokens from its pipe to the last of its arguments. -/
theorem call_stop_of_reads {ts : List (Located Token)} {f : FilterName} (h : Reads ts (.name f))
    (args : List Argument) : f.call f.stop args =
      ⟨spanOf ts, ⟨f.segments.reverse⟩, Arguments.positionals args, Arguments.keywords args⟩ := by
  rw [(spanOf_of_reads_name h).2]
  rfl

theorem call_of_reads {ts us : List (Located Token)} {f : FilterName} (h : Reads ts (.name f))
    (hus : us ≠ []) (args : List Argument) : f.call (spanOf us).stop args =
      ⟨spanOf (ts ++ us), ⟨f.segments.reverse⟩, Arguments.positionals args,
        Arguments.keywords args⟩ := by
  obtain ⟨hne, hspan⟩ := spanOf_of_reads_name h
  rw [spanOf_append hne hus, hspan]
  rfl

theorem call_list_of_reads {ts us : List (Located Token)} {f : FilterName} (h : Reads ts (.name f))
    (a b : Span) (args : List Argument) : f.call b.stop args =
      ⟨spanOf (ts ++ (⟨.lparen, a⟩ :: us ++ [⟨.rparen, b⟩])), ⟨f.segments.reverse⟩,
        Arguments.positionals args, Arguments.keywords args⟩ := by
  have hspan : spanOf (⟨.lparen, a⟩ :: us ++ [⟨.rparen, b⟩]) = a.cover b :=
    spanOf_cons_concat ⟨.lparen, a⟩ us ⟨.rparen, b⟩
  have hcall := call_of_reads h (List.cons_ne_nil ⟨.lparen, a⟩ (us ++ [⟨.rparen, b⟩])) args
  rw [← List.cons_append, hspan] at hcall
  exact hcall

section
variable {e : Rule Token Expr}

/-- The tokens can be read as an expression with this tree. -/
def IsExpr (ts : List (Located Token)) (x : Expr) : Prop := ∃ c, Reads ts (.chain c) ∧ c.expr = x

/-- The tokens can be read as an operand with this tree. -/
def IsUnit (ts : List (Located Token)) (x : Expr) : Prop := ∃ p, Reads ts (.unit p) ∧ p.expr = x

/-- The tokens can be read as a list of these arguments between parentheses. -/
def IsArguments (ts : List (Located Token)) (x : List Expr × List (Ident × Expr)) : Prop :=
  ∃ a us b done, ts = ⟨.lparen, a⟩ :: us ++ [⟨.rparen, b⟩] ∧ Reads us (.arguments done) ∧
    Arguments.Ordered (done.reverse.map keyword?) ∧
    x = (Arguments.positionals (Parser.arguments done), Arguments.keywords (Parser.arguments done))

theorem gives_atom (h : e.Gives IsExpr) : (atom e).Gives IsUnit := by
  refine .choice ?_
  intro r hr
  simp only [List.mem_cons, List.not_mem_nil, or_false] at hr
  rcases hr with rfl | rfl | rfl
  · refine gives_literal.mono ?_
    rintro front x ⟨t, v, rfl, hv, rfl⟩
    exact ⟨_, .literal hv, rfl⟩
  · refine (gives_identifier.map _).mono ?_
    rintro front x ⟨i, ⟨text, s, rfl, rfl⟩, rfl⟩
    exact ⟨_, .name text s, rfl⟩
  · refine (h.delimitedBy _ _).mono ?_
    rintro front x ⟨a, us, b, rfl, c, hc, rfl⟩
    exact ⟨_, .group a b hc, rfl⟩

theorem gives_argument (h : e.Gives IsExpr) :
    (argument e).Gives fun front a => ∃ extent, Reads front (.argument (a, extent)) := by
  refine .orElse ?_ ?_
  · refine (((gives_identifier.thenIgnore (Rule.gives_just _)).andThen h).map _).mono ?_
    rintro front a ⟨⟨i, x⟩, ⟨_, vs, rfl, hname, c, hc, rfl⟩, rfl⟩
    obtain ⟨_, _, rfl, ⟨text, s, rfl, rfl⟩, _, b, rfl⟩ := hname
    exact ⟨_, .keyword text s b hc⟩
  · refine (h.map _).mono ?_
    rintro front a ⟨x, ⟨c, hc, rfl⟩, rfl⟩
    exact ⟨_, .positional hc⟩

theorem gives_arguments (h : e.Gives IsExpr) : (arguments e).Gives IsArguments := by
  have hlist : ((argument e).separatedBy (just .comma)).Gives fun front as =>
      ∃ done, Reads front (.arguments done) ∧ Parser.arguments done = as := by
    refine Rule.Gives.separatedBy (.separatedBy1 (gives_argument h) (Rule.gives_just _) ?_ ?_) ?_
    · rintro us a ⟨extent, ha⟩
      exact ⟨_, .oneArgument ha, rfl⟩
    · rintro us as _ _ ws b hne ⟨done, hd, rfl⟩ ⟨s, rfl⟩ ⟨extent, hb⟩
      cases done with
      | nil => exact absurd rfl hne
      | cons a done => exact ⟨_, .moreArguments s hd hb, by simp [Parser.arguments]⟩
    · exact ⟨[], .noArguments, rfl⟩
  refine ((hlist.tryMap _).delimitedBy _ _).mono ?_
  rintro front x ⟨a, us, b, rfl, _, ⟨done, hd, rfl⟩, hx⟩
  obtain ⟨ho, rfl⟩ := sortArguments_eq_some_iff.1 hx
  exact ⟨a, us, b, done, rfl, hd, ho, rfl⟩

theorem gives_trailer (h : e.Gives IsExpr) : (trailer e).Gives fun front t =>
    ∀ us x, IsUnit us x → IsUnit (us ++ front) (applyTrailer x t) := by
  refine (Rule.Gives.spanned (P := fun front t => ∀ us x, IsUnit us x →
    IsUnit (us ++ front) (applyTrailer x ⟨t, spanOf front⟩)) (.choice ?_)).mono ?_
  · intro r hr
    simp only [List.mem_cons, List.not_mem_nil, or_false] at hr
    rcases hr with rfl | rfl | rfl
    · refine (((Rule.gives_just _).ignoreThen gives_identifier).map _).mono ?_
      rintro front t ⟨i, ⟨_, _, rfl, ⟨_, d, rfl⟩, text, s, rfl, rfl⟩, rfl⟩ us x ⟨p, hp, rfl⟩
      exact ⟨_, .member d text s hp, rfl⟩
    · refine ((h.delimitedBy _ _).map _).mono ?_
      rintro front t ⟨x, ⟨a, vs, b, rfl, c, hc, rfl⟩, rfl⟩ us x ⟨p, hp, rfl⟩
      refine ⟨_, .index a b hp hc, ?_⟩
      rw [spanOf_cons_concat]
      rfl
    · refine ((gives_arguments h).map _).mono ?_
      rintro front t ⟨_, ⟨a, vs, b, done, rfl, hd, ho, rfl⟩, rfl⟩ us x ⟨p, hp, rfl⟩
      refine ⟨_, .call a b hp hd ho, ?_⟩
      rw [spanOf_cons_concat]
      rfl
  · rintro front ⟨t, s⟩ ⟨ht, rfl⟩
    exact ht

theorem gives_unit (h : e.Gives IsExpr) : (unit e).Gives IsUnit := by
  refine .foldl (gives_atom h) (gives_trailer h) ?_
  intro us x vs t hx ht
  exact ht us x hx

/-- What a name has after its pipe, with its arguments. -/
theorem gives_lookupName : lookupName.Gives fun front n => ∀ a, ∃ f,
    Reads (⟨.pipe, a⟩ :: front) (.name f) ∧ n = ⟨f.segments.reverse⟩ := by
  have hsegments : (identifier.separatedBy1 (just .dot)).Gives fun front is => ∀ a, ∃ f,
      Reads (⟨.pipe, a⟩ :: front) (.name f) ∧ is = f.segments.reverse := by
    refine .separatedBy1 gives_identifier (Rule.gives_just _) ?_ ?_
    · rintro us i ⟨text, s, rfl, rfl⟩ a
      exact ⟨_, .filterName a text s, rfl⟩
    · rintro us is _ _ _ _ _ his ⟨d, rfl⟩ ⟨text, s, rfl, rfl⟩ a
      obtain ⟨f, hf, rfl⟩ := his a
      exact ⟨_, .filterSegment d text s hf, by simp⟩
  refine (hsegments.map _).mono ?_
  rintro front n ⟨is, his, rfl⟩ a
  obtain ⟨f, hf, rfl⟩ := his a
  exact ⟨f, hf, rfl⟩

theorem gives_filter (h : e.Gives IsExpr) : (filter e).Gives fun front f =>
    ∀ us c, Reads us (.chain c) → Reads (us ++ front) (.chain (c.pipe f)) := by
  have harguments : (filterArguments e).Gives fun front x =>
      (front = [] ∧ x = ([], [])) ∨
        (∃ d t v, front = [⟨.colon, d⟩, t] ∧ literal? t.value = some v ∧
          x = ([.literal t.span v], [])) ∨ IsArguments front x := by
    refine ((Rule.Gives.choice (P := fun front x =>
      (∃ d t v, front = [⟨.colon, d⟩, t] ∧ literal? t.value = some v ∧
        x = ([.literal t.span v], [])) ∨ IsArguments front x) ?_).orNot.map _).mono ?_
    · intro r hr
      simp only [List.mem_cons, List.not_mem_nil, or_false] at hr
      rcases hr with rfl | rfl
      · refine (((Rule.gives_just _).ignoreThen gives_literal).map _).mono ?_
        rintro front x ⟨_, ⟨_, _, rfl, ⟨_, d, rfl⟩, t, v, rfl, hv, rfl⟩, rfl⟩
        exact .inl ⟨d, t, v, rfl, hv, rfl⟩
      · refine (gives_arguments h).mono ?_
        intro front x hx
        exact .inr hx
    · rintro front _ ⟨_, ⟨x, rfl, hx⟩ | ⟨rfl, rfl⟩, rfl⟩
      · exact .inr hx
      · exact .inl ⟨rfl, rfl⟩
  refine ((((Rule.gives_just _).ignoreThen gives_lookupName).andThen harguments).spanned.map
    _).mono ?_
  rintro front _ ⟨⟨⟨n, x⟩, span⟩, ⟨⟨_, vs, rfl, hname, hx⟩, rfl⟩, rfl⟩ us c hc
  obtain ⟨_, ns, rfl, ⟨_, a, rfl⟩, hn⟩ := hname
  obtain ⟨f, hf, rfl⟩ := hn a
  rw [List.singleton_append]
  rcases hx with ⟨rfl, rfl⟩ | ⟨d, t, v, rfl, hv, rfl⟩ | ⟨b, ws, b', done, rfl, hd, ho, rfl⟩
  · have hread := Reads.filter hc hf
    rw [call_stop_of_reads hf] at hread
    simpa [Arguments.positionals, Arguments.keywords] using hread
  · have hread := Reads.filterValue d hc hf hv
    have hcall := call_of_reads hf (List.cons_ne_nil ⟨.colon, d⟩ [t])
      [.positional (.literal t.span v)]
    exact hcall ▸ hread
  · have hread := Reads.filterCall b b' hc hf hd ho
    exact call_list_of_reads hf b b' _ ▸ hread

theorem gives_segment (h : e.Gives IsExpr) : (segment e).Gives fun front s =>
    ∀ us c, Reads us (.chain c) →
      ∃ c', Reads (us ++ front) (.chain c') ∧ c'.first = c.first ∧ c'.rest = s :: c.rest := by
  refine .choice ?_
  intro r hr
  simp only [List.mem_cons, List.not_mem_nil, or_false] at hr
  rcases hr with rfl | rfl
  · refine ((gives_operator.andThen (gives_unit h)).map _).mono ?_
    rintro front _ ⟨⟨op, x⟩, ⟨_, vs, rfl, ⟨s, rfl⟩, p, hp, rfl⟩, rfl⟩ us c hc
    exact ⟨_, .operator op s hc hp, rfl, rfl⟩
  · refine ((gives_filter h).map _).mono ?_
    rintro front _ ⟨f, hf, rfl⟩ us c hc
    exact ⟨_, hf us c hc, rfl, rfl⟩

theorem gives_expressionOf (h : e.Gives IsExpr) : (expressionOf e).Gives IsExpr := by
  have hchain : ((unit e).andThen (segment e).repeated).Gives fun front x =>
      ∃ c, Reads front (.chain c) ∧ c.first = x.1 ∧ c.rest = x.2.reverse := by
    refine Rule.Gives.andThen_repeated (R := fun us first rest =>
      ∃ c, Reads us (.chain c) ∧ c.first = first ∧ c.rest = rest.reverse)
      ((gives_unit h).mono ?_) (gives_segment h) ?_
    · rintro us _ ⟨p, hp, rfl⟩
      exact ⟨_, .first hp, rfl, rfl⟩
    · rintro us first rest vs s ⟨c, hc, rfl, hrest⟩ hs
      obtain ⟨c', hc', hfirst, hrest'⟩ := hs us c hc
      exact ⟨c', hc', hfirst, by rw [hrest', hrest, List.reverse_append]; rfl⟩
  refine (hchain.map _).mono ?_
  rintro front _ ⟨⟨first, rest⟩, ⟨c, hc, rfl, hrest⟩, rfl⟩
  exact ⟨c, hc, by rw [Chain.expr, hrest, List.reverse_reverse]⟩

end

/-- **What the rules take for an expression can be read as one, with the same tree.** -/
theorem gives_expression : expression.Gives IsExpr := .recursive fun _ => gives_expressionOf

/-! ## What can be read is what the rules find first -/

/-- No operand, no name and no chain goes on with these tokens. -/
def Closing (rest : List (Located Token)) : Prop :=
  ∀ t ∈ rest.head?, t.value = .rparen ∨ t.value = .rbracket ∨ t.value = .comma

/-- No operand and no filter goes on with these tokens. -/
def Ends (rest : List (Located Token)) : Prop :=
  ∀ t ∈ rest.head?, t.value ≠ .dot ∧ t.value ≠ .lbracket ∧ t.value ≠ .lparen ∧ t.value ≠ .colon

section
variable {ts us rest : List (Located Token)}

theorem Closing.ends (h : Closing rest) : Ends rest := by
  intro t ht
  rcases h t ht with h | h | h <;> simp [h]

theorem closing_cons {t : Token} (h : t = .rparen ∨ t = .rbracket ∨ t = .comma) (s : Span)
    (ts : List (Located Token)) : Closing (⟨t, s⟩ :: ts) := by
  intro u hu
  obtain rfl : ⟨t, s⟩ = u := Option.some.inj hu
  exact h

variable {e : Rule Token Expr}

theorem arguments_eq_none (h : ∀ t ∈ rest.head?, t.value ≠ .lparen) :
    (arguments e).run rest = none := Rule.delimitedBy_eq_none h

theorem trailer_eq_none (h : Ends rest) : (trailer e).run rest = none := by
  have hdot : ((just .dot).ignoreThen identifier).run rest = none :=
    Rule.ignoreThen_eq_none (Rule.just_eq_none fun t ht => (h t ht).1)
  have hindex : (e.delimitedBy .lbracket .rbracket).run rest = none :=
    Rule.delimitedBy_eq_none fun t ht => (h t ht).2.1
  have hcall : (arguments e).run rest = none := arguments_eq_none fun t ht => (h t ht).2.2.1
  refine Rule.spanned_eq_none ?_
  rw [Rule.choice_cons_of_none (Rule.map_eq_none_iff.2 hdot),
    Rule.choice_cons_of_none (Rule.map_eq_none_iff.2 hindex),
    Rule.choice_cons_of_none (Rule.map_eq_none_iff.2 hcall)]
  rfl

theorem segment_eq_none (h : Closing rest) : (segment e).run rest = none := by
  have hoperator : operator.run rest = none := by
    cases rest with
    | nil => rfl
    | cons t ts =>
      obtain ⟨value, s⟩ := t
      rcases h _ rfl with hv | hv | hv <;> (cases hv; rfl)
  have hpipe : (just Token.pipe).run rest = none := by
    refine Rule.just_eq_none ?_
    intro t ht
    rcases h t ht with h | h | h <;> simp [h]
  have hname : ((just .pipe).ignoreThen lookupName).run rest = none := Rule.ignoreThen_eq_none hpipe
  have hfilter : (filter e).run rest = none :=
    Rule.map_eq_none_iff.2 (Rule.spanned_eq_none (Rule.andThen_eq_none hname))
  rw [segment, Rule.choice_cons_of_none (Rule.map_eq_none_iff.2 (Rule.andThen_eq_none hoperator)),
    Rule.choice_cons_of_none (Rule.map_eq_none_iff.2 hfilter)]
  rfl

theorem expression_eq_none_rparen (b : Span) (rest : List (Located Token)) :
    expression.run (⟨.rparen, b⟩ :: rest) = none := by
  have hname : name.run (⟨.rparen, b⟩ :: rest) = none :=
    Rule.map_eq_none_iff.2 (identifier_eq_none (by simp))
  have hgroup : (expression.delimitedBy .lparen .rparen).run (⟨.rparen, b⟩ :: rest) = none :=
    Rule.delimitedBy_eq_none (by simp)
  have hatom : (atom expression).run (⟨.rparen, b⟩ :: rest) = none := by
    rw [atom, Rule.choice_cons_of_none (literal_run _ _), Rule.choice_cons_of_none hname,
      Rule.choice_cons_of_none hgroup]
    rfl
  have hunit : (unit expression).run (⟨.rparen, b⟩ :: rest) = none := Rule.foldl_eq_none hatom
  rw [expression_run]
  exact Rule.map_eq_none_iff.2 (Rule.andThen_eq_none hunit)

theorem argument_eq_none_rparen (b : Span) (rest : List (Located Token)) :
    (argument expression).run (⟨.rparen, b⟩ :: rest) = none := by
  have hkeyword : (keyword expression).run (⟨.rparen, b⟩ :: rest) = none :=
    Rule.map_eq_none_iff.2 (Rule.andThen_eq_none (Rule.map_eq_none_iff.2
      (Rule.andThen_eq_none (identifier_eq_none (by simp)))))
  exact Rule.orElse_eq_none hkeyword (Rule.map_eq_none_iff.2 (expression_eq_none_rparen b rest))

end

/-- What tokens can be read as, the rules take them for, whatever comes after them that does not go
on with it. -/
def Taken (ts : List (Located Token)) : Part → Prop
  | .unit p => ∃ x trailers, p.expr = trailers.foldl applyTrailer x ∧
      Rule.Takes (fun _ => True) (atom expression) (trailer expression) ts x trailers
  | .chain c => Rule.Takes Ends (unit expression) (segment expression) ts c.first c.rest.reverse
  | .name f => ∃ a us i is, ts = ⟨.pipe, a⟩ :: us ∧ f.segments.reverse = i :: is ∧
      Rule.Takes (fun _ => True) identifier ((just .dot).ignoreThen identifier) us i is
  | .argument a => ∀ rest, Closing rest → (argument expression).run (ts ++ rest) = some (a.1, rest)
  | .arguments done => ts = [] ∧ done = [] ∨ ∃ a as, Parser.arguments done = a :: as ∧
      Rule.Takes Closing (argument expression) ((just .comma).ignoreThen (argument expression)) ts
        a as

section
variable {ts us rest : List (Located Token)}

theorem Taken.unit_run {p : Phrase} (h : Taken ts (.unit p)) (hrest : Ends rest) :
    (unit expression).run (ts ++ rest) = some (p.expr, rest) := by
  obtain ⟨x, trailers, hp, htakes⟩ := h
  rw [hp]
  exact htakes.foldl trivial (trailer_eq_none hrest)

theorem Taken.expression_run {c : Chain} (h : Taken ts (.chain c)) (hrest : Closing rest) :
    expression.run (ts ++ rest) = some (c.expr, rest) := by
  rw [Grammar.expression_run]
  exact Rule.map_run (Rule.Takes.run h hrest.ends (segment_eq_none hrest)) _

/-- A list in parentheses that is in order. -/
theorem Taken.arguments_run {done : List (Argument × Span)} (h : Taken ts (.arguments done))
    (ho : Arguments.Ordered (done.reverse.map keyword?)) (a b : Span) :
    (arguments expression).run (⟨.lparen, a⟩ :: ts ++ [⟨.rparen, b⟩] ++ rest) =
      some ((Arguments.positionals (Parser.arguments done),
        Arguments.keywords (Parser.arguments done)), rest) := by
  have hlist : ((argument expression).separatedBy (just .comma)).run (ts ++ ⟨.rparen, b⟩ :: rest) =
      some (Parser.arguments done, ⟨.rparen, b⟩ :: rest) := by
    rcases h with ⟨rfl, rfl⟩ | ⟨x, xs, hdone, htakes⟩
    · exact Rule.separatedBy_of_none (argument_eq_none_rparen b rest)
    · rw [hdone]
      exact htakes.separatedBy (closing_cons (.inl rfl) b rest) (Rule.just_eq_none (by simp))
  have hsorted := Rule.tryMap_run hlist (sortArguments_eq_some_iff.2 ⟨ho, rfl⟩)
  simp only [List.cons_append, List.append_assoc, List.nil_append]
  exact Rule.delimitedBy_run a b hsorted

/-- A filter whose name is followed by something that is taken for its arguments. -/
theorem Taken.filter_run {f : FilterName} {x : List Expr × List (Ident × Expr)}
    (h : Taken ts (.name f)) (hdot : ∀ t ∈ (us ++ rest).head?, t.value ≠ .dot)
    (hus : (filterArguments expression).run (us ++ rest) = some (x, rest)) :
    (filter expression).run (ts ++ us ++ rest) =
      some (⟨spanOf (ts ++ us), ⟨f.segments.reverse⟩, x.1, x.2⟩, rest) := by
  obtain ⟨a, ns, i, is, rfl, hf, htakes⟩ := h
  have hname : lookupName.run (ns ++ (us ++ rest)) = some (⟨f.segments.reverse⟩, us ++ rest) := by
    rw [hf]
    exact Rule.map_run (htakes.separatedBy1 trivial (Rule.just_eq_none hdot)) _
  have hpipe : ((just Token.pipe).ignoreThen lookupName).run (⟨.pipe, a⟩ :: ns ++ us ++ rest) =
      some (⟨f.segments.reverse⟩, us ++ rest) := by
    rw [List.append_assoc]
    exact Rule.ignoreThen_run (Rule.just_run Token.pipe a _) hname
  exact Rule.map_run (Rule.spanned_run (Rule.andThen_run hpipe hus)) _

end

/-- An argument that begins like this is no keyword, unless `=` comes after. -/
def Unnamed (ts : List (Located Token)) : Part → Prop
  | .unit _ | .chain _ => ∀ rest : List (Located Token), (∀ t ∈ rest.head?, t.value ≠ .assign) →
      (identifier.thenIgnore (just .assign)).run (ts ++ rest) = none
  | .name _ => ∃ a us, ts = ⟨.pipe, a⟩ :: us
  | .argument _ | .arguments _ => True

/-- What is read on the right of tokens that are no keyword does not make them one. -/
theorem unnamed_append {ts us : List (Located Token)}
    (hts : ∀ rest : List (Located Token), (∀ t ∈ rest.head?, t.value ≠ .assign) →
      (identifier.thenIgnore (just .assign)).run (ts ++ rest) = none)
    (hus : ∀ rest, ∀ t ∈ (us ++ rest).head?, t.value ≠ .assign) (rest : List (Located Token)) :
    (identifier.thenIgnore (just .assign)).run (ts ++ us ++ rest) = none := by
  rw [List.append_assoc]
  exact hts _ (hus rest)

/-- The rule for a keyword is tried first at every argument, and fails on those without one. -/
theorem unnamed_of_reads {ts : List (Located Token)} {part : Part} (h : Reads ts part) :
    Unnamed ts part := by
  have hother : ∀ {t : Located Token} (us : List (Located Token)), (∀ text, t.value ≠ .name text) →
      (identifier.thenIgnore (just .assign)).run (t :: us) = none := by
    intro t us ht
    refine Rule.map_eq_none_iff.2 (Rule.andThen_eq_none (identifier_eq_none ?_))
    intro u hu
    exact Option.some.inj hu ▸ ht
  induction h with
  | @literal t v hv =>
    intro rest _
    refine hother rest ?_
    intro text ht
    simp [literal?, ht] at hv
  | name text s =>
    intro rest hrest
    refine Rule.map_eq_none_iff.2 ?_
    rw [List.singleton_append]
    exact Rule.andThen_eq_none_of_run (identifier_run text s rest) (Rule.just_eq_none hrest)
  | group a b _ _ => exact fun rest _ => hother _ (by simp)
  | member d text s _ ih => exact fun rest _ => unnamed_append ih (by simp) rest
  | index a b _ _ ih _ | call a b _ _ _ ih _ =>
    exact fun rest _ => unnamed_append ih (by simp) rest
  | first _ ih => exact ih
  | operator op s _ _ ih _ => exact fun rest _ => unnamed_append ih (by simp) rest
  | filter _ _ ih ihf | filterValue _ _ _ _ ih ihf | filterCall _ _ _ _ _ _ ih ihf =>
    obtain ⟨a, us, rfl⟩ := ihf
    exact fun rest _ => unnamed_append ih (by simp) rest
  | filterName a text s => exact ⟨a, _, rfl⟩
  | filterSegment d text s _ ih =>
    obtain ⟨a, us, rfl⟩ := ih
    exact ⟨a, _, rfl⟩
  | positional _ _ => trivial
  | keyword text s e _ _ => trivial
  | noArguments => trivial
  | oneArgument _ _ => trivial
  | moreArguments s _ _ _ _ => trivial

section
variable {ts us vs : List (Located Token)}

/-- One more trailer. -/
theorem Taken.trailed {p p' : Phrase} {t : Located Trailer} (h : Taken ts (.unit p)) (hus : us ≠ [])
    (ht : ∀ rest, (trailer expression).run (us ++ rest) = some (t, rest))
    (hp' : p'.expr = applyTrailer p.expr t) : Taken (ts ++ us) (.unit p') := by
  obtain ⟨x, trailers, hp, htakes⟩ := h
  refine ⟨x, trailers ++ [t], ?_, htakes.more hus (fun _ => trivial) fun rest _ => ht rest⟩
  rw [hp', hp, List.foldl_append]
  rfl

/-- One more filter. -/
theorem Taken.filtered {c : Chain} {f : FilterName} {x : List Expr × List (Ident × Expr)}
    {call : FilterCall} (h : Taken ts (.chain c)) (hf : Taken us (.name f))
    (hdot : ∀ rest, Ends rest → ∀ t ∈ (vs ++ rest).head?, t.value ≠ .dot)
    (hvs : ∀ rest, Ends rest → (filterArguments expression).run (vs ++ rest) = some (x, rest))
    (hcall : call = ⟨spanOf (us ++ vs), ⟨f.segments.reverse⟩, x.1, x.2⟩) :
    Taken (ts ++ (us ++ vs)) (.chain (c.pipe call)) := by
  have hhead : ∃ a ns, us = ⟨.pipe, a⟩ :: ns := by
    obtain ⟨a, ns, -, -, hus, -⟩ := hf
    exact ⟨a, ns, hus⟩
  have hrest : (c.pipe call).rest.reverse = c.rest.reverse ++ [.filter call] := List.reverse_cons
  show Rule.Takes Ends _ _ _ _ (c.pipe call).rest.reverse
  rw [hrest]
  refine Rule.Takes.more h ?_ ?_ ?_
  · obtain ⟨a, ns, rfl⟩ := hhead
    exact List.cons_ne_nil _ _
  · obtain ⟨a, ns, rfl⟩ := hhead
    intro rest t ht
    obtain rfl : ⟨.pipe, a⟩ = t := Option.some.inj ht
    simp
  · intro rest hends
    have hoperator : (operator.andThen (unit expression)).run (us ++ vs ++ rest) = none := by
      obtain ⟨a, ns, rfl⟩ := hhead
      exact Rule.andThen_eq_none rfl
    rw [segment, Rule.choice_cons_of_none (Rule.map_eq_none_iff.2 hoperator)]
    have hrun := hf.filter_run (hdot rest hends) (hvs rest hends)
    rw [← hcall] at hrun
    exact Rule.choice_cons_of_some (Rule.map_run hrun _)

end

theorem trailer_call {done : List (Argument × Span)} {us : List (Located Token)}
    (h : Taken us (.arguments done)) (ho : Arguments.Ordered (done.reverse.map keyword?))
    (a b : Span) (rest : List (Located Token)) :
    (trailer expression).run (⟨.lparen, a⟩ :: us ++ [⟨.rparen, b⟩] ++ rest) =
      some (⟨.call (Arguments.positionals (Parser.arguments done))
        (Arguments.keywords (Parser.arguments done)), a.cover b⟩, rest) := by
  rw [← spanOf_cons_concat ⟨.lparen, a⟩ us ⟨.rparen, b⟩]
  refine Rule.spanned_run ?_
  rw [Rule.choice_cons_of_none rfl, Rule.choice_cons_of_none rfl]
  exact Rule.choice_cons_of_some (Rule.map_run (h.arguments_run ho a b) _)

theorem trailer_index {c : Chain} {us : List (Located Token)} (h : Taken us (.chain c)) (a b : Span)
    (rest : List (Located Token)) :
    (trailer expression).run (⟨.lbracket, a⟩ :: us ++ [⟨.rbracket, b⟩] ++ rest) =
      some (⟨.index c.expr, a.cover b⟩, rest) := by
  have hkey := h.expression_run (closing_cons (.inr (.inl rfl)) b rest)
  have hindex : (expression.delimitedBy .lbracket .rbracket).run
      (⟨.lbracket, a⟩ :: us ++ [⟨.rbracket, b⟩] ++ rest) = some (c.expr, rest) := by
    simpa using Rule.delimitedBy_run a b hkey
  rw [← spanOf_cons_concat ⟨.lbracket, a⟩ us ⟨.rbracket, b⟩]
  refine Rule.spanned_run ?_
  rw [Rule.choice_cons_of_none rfl]
  exact Rule.choice_cons_of_some (Rule.map_run hindex _)

theorem trailer_attribute (d : Span) (text : List Char) (s : Span) (rest : List (Located Token)) :
    (trailer expression).run ([⟨.dot, d⟩, ⟨.name text, s⟩] ++ rest) =
      some (⟨.attribute (ident text s), d.cover s⟩, rest) := by
  have hattribute : ((just .dot).ignoreThen identifier).run ([⟨.dot, d⟩, ⟨.name text, s⟩] ++ rest) =
      some (ident text s, rest) :=
    Rule.ignoreThen_run (Rule.just_run Token.dot d _) (identifier_run text s rest)
  exact Rule.spanned_run (Rule.choice_cons_of_some (Rule.map_run hattribute _))

/-! ### The arguments of a filter -/

theorem filterArguments_none {rest : List (Located Token)} (h : Ends rest) :
    (filterArguments expression).run rest = some (([], []), rest) := by
  have hcolon : ((just .colon).ignoreThen literal).run rest = none :=
    Rule.ignoreThen_eq_none (Rule.just_eq_none fun t ht => (h t ht).2.2.2)
  have hcall : (arguments expression).run rest = none :=
    arguments_eq_none fun t ht => (h t ht).2.2.1
  refine Rule.map_run (Rule.orNot_of_none ?_) _
  rw [Rule.choice_cons_of_none (Rule.map_eq_none_iff.2 hcolon), Rule.choice_cons_of_none hcall]
  rfl

theorem filterArguments_value (d : Span) {t : Located Token} {v : Literal}
    (hv : literal? t.value = some v) (rest : List (Located Token)) :
    (filterArguments expression).run ([⟨.colon, d⟩, t] ++ rest) =
      some (([.literal t.span v], []), rest) := by
  have hliteral : literal.run (t :: rest) = some (.literal t.span v, rest) := by
    rw [literal_run, hv]
    rfl
  have hvalue : ((just .colon).ignoreThen literal).run ([⟨.colon, d⟩, t] ++ rest) =
      some (.literal t.span v, rest) :=
    Rule.ignoreThen_run (Rule.just_run Token.colon d _) hliteral
  exact Rule.map_run (Rule.orNot_run (Rule.choice_cons_of_some (Rule.map_run hvalue _))) _

theorem filterArguments_call {us : List (Located Token)} {done : List (Argument × Span)}
    (h : Taken us (.arguments done)) (ho : Arguments.Ordered (done.reverse.map keyword?))
    (a b : Span) (rest : List (Located Token)) :
    (filterArguments expression).run (⟨.lparen, a⟩ :: us ++ [⟨.rparen, b⟩] ++ rest) =
      some ((Arguments.positionals (Parser.arguments done),
        Arguments.keywords (Parser.arguments done)), rest) := by
  refine Rule.map_run (Rule.orNot_run ?_) _
  rw [Rule.choice_cons_of_none rfl]
  exact Rule.choice_cons_of_some (h.arguments_run ho a b)

/-- **What tokens can be read as is what the rules find first.** -/
theorem taken_of_reads {ts : List (Located Token)} {part : Part} (h : Reads ts part) :
    Taken ts part := by
  -- a part that is read goes on to the right, so each case adds one step to the repetition of the
  -- part that it begins with; what comes after is left open until a part is closed
  induction h with
  | @literal t v hv =>
    refine ⟨_, [], rfl, .first ?_⟩
    intro rest _
    refine Rule.choice_cons_of_some ?_
    rw [List.singleton_append, literal_run, hv]
    rfl
  | name text s =>
    refine ⟨_, [], rfl, .first ?_⟩
    intro rest _
    have hliteral : literal.run ([⟨.name text, s⟩] ++ rest) = none := literal_run _ _
    rw [atom, Rule.choice_cons_of_none hliteral]
    exact Rule.choice_cons_of_some (Rule.map_run (identifier_run text s rest) _)
  | @group ts c a b _ ih =>
    refine ⟨_, [], rfl, .first ?_⟩
    intro rest _
    have hliteral : literal.run (⟨.lparen, a⟩ :: ts ++ [⟨.rparen, b⟩] ++ rest) = none :=
      literal_run _ _
    have hinner := ih.expression_run (closing_cons (.inl rfl) b rest)
    rw [atom, Rule.choice_cons_of_none hliteral, Rule.choice_cons_of_none rfl]
    refine Rule.choice_cons_of_some ?_
    simpa using Rule.delimitedBy_run a b hinner
  | member d text s _ ih => exact ih.trailed (List.cons_ne_nil _ _) (trailer_attribute d text s) rfl
  | index a b _ _ ih ihk => exact ih.trailed (List.cons_ne_nil _ _) (trailer_index ihk a b) rfl
  | call a b _ _ ho ih iha => exact ih.trailed (List.cons_ne_nil _ _) (trailer_call iha ho a b) rfl
  | first _ ih => exact .first fun rest hrest => ih.unit_run hrest
  | @operator ts us c p op s _ _ ih ihu =>
    have hrest : (close (some (c, op)) p).rest.reverse = c.rest.reverse ++ [.operator op p.expr] :=
      List.reverse_cons
    show Rule.Takes Ends _ _ _ _ (close (some (c, op)) p).rest.reverse
    rw [hrest]
    refine Rule.Takes.more ih (List.cons_ne_nil _ _) ?_ ?_
    · intro rest t ht
      obtain rfl : ⟨.operator op, s⟩ = t := Option.some.inj ht
      simp
    · intro rest hends
      exact Rule.choice_cons_of_some
        (Rule.map_run (Rule.andThen_run (operator_run op s _) (ihu.unit_run hends)) _)
  | @filter ts us c f _ hf ih ihf =>
    rw [← List.append_nil us]
    refine ih.filtered ihf (fun rest hrest t ht => (hrest t ht).1)
      (fun rest hrest => filterArguments_none hrest) ?_
    rw [List.append_nil]
    exact call_stop_of_reads hf []
  | @filterValue ts us c f d t v _ hf hv ih ihf =>
    refine ih.filtered ihf (fun _ _ => by simp) (fun rest _ => filterArguments_value d hv rest) ?_
    exact call_of_reads hf (List.cons_ne_nil ⟨.colon, d⟩ [t]) [.positional (.literal t.span v)]
  | filterCall a b _ hf _ ho ih ihf iha =>
    refine ih.filtered ihf (fun _ _ => by simp)
      (fun rest _ => filterArguments_call iha ho a b rest) ?_
    exact call_list_of_reads hf a b _
  | filterName a text s =>
    exact ⟨a, _, _, [], rfl, rfl, .first fun rest _ => identifier_run text s rest⟩
  | filterSegment d text s _ ih =>
    obtain ⟨a, us, i, is, rfl, hf, htakes⟩ := ih
    refine ⟨a, us ++ [⟨.dot, d⟩, ⟨.name text, s⟩], i, is ++ [ident text s], rfl, by simp [hf], ?_⟩
    refine htakes.more (List.cons_ne_nil _ _) (fun _ => trivial) ?_
    intro rest _
    exact Rule.ignoreThen_run (Rule.just_run Token.dot d _) (identifier_run text s rest)
  | positional hc ih =>
    intro rest hrest
    have hassign : ∀ t ∈ rest.head?, t.value ≠ .assign := by
      intro t ht
      rcases hrest t ht with h | h | h <;> simp [h]
    have hkeyword := Rule.andThen_eq_none (s := expression) (unnamed_of_reads hc rest hassign)
    refine Rule.orElse_eq_some_iff.2 (.inr ⟨Rule.map_eq_none_iff.2 hkeyword, ?_⟩)
    exact Rule.map_run (ih.expression_run hrest) _
  | @keyword ts c text s e _ ih =>
    intro rest hrest
    have hname := Rule.thenIgnore_run (identifier_run text s _)
      (Rule.just_run Token.assign e (ts ++ rest))
    refine Rule.orElse_eq_some_iff.2 (.inl ?_)
    exact Rule.map_run (Rule.andThen_run hname (ih.expression_run hrest)) _
  | noArguments => exact .inl ⟨rfl, rfl⟩
  | oneArgument _ ih => exact .inr ⟨_, [], rfl, .first ih⟩
  | @moreArguments ts us a b done s _ _ ih iha =>
    rcases ih with ⟨-, hd⟩ | ⟨x, xs, hd, htakes⟩
    · cases hd
    · refine .inr ⟨x, xs ++ [b.1], ?_, htakes.more (List.cons_ne_nil _ _) ?_ ?_⟩
      · rw [Parser.arguments, List.reverse_cons, List.map_append]
        exact congrArg (· ++ [b.1]) hd
      · exact fun rest => closing_cons (.inr (.inr rfl)) s _
      · exact fun rest hrest => Rule.ignoreThen_run (Rule.just_run Token.comma s _) (iha rest hrest)

end Grammar

open Grammar in
/-- **The parser reads a list of tokens as the expression that ordered choice finds in it, and
refuses it where ordered choice finds none.** -/
theorem Parser.toOption_parse (stop : Nat) (ts : List (Located Token)) :
    (Parser.parse stop ts).toOption = Grammar.expression.whole ts := by
  ext x
  rw [Expr.toOption_eq_some_iff, Rule.whole_eq_some_iff]
  constructor
  · intro h
    obtain ⟨c, hc, rfl⟩ := Parser.reads_of_parse h
    have htaken : Taken ts (.chain c) := taken_of_reads hc
    have hend : Closing [] := nofun
    have hrun := htaken.expression_run hend
    rwa [List.append_nil] at hrun
  · intro h
    rw [← List.append_nil ts] at h
    obtain ⟨c, hc, rfl⟩ := gives_expression h
    exact Parser.parse_of_reads hc stop

theorem Expr.toOption_readAt (base : Nat) (text : List Char) :
    (Expr.readAt base text).toOption =
      (Token.scanFrom base text).toOption.bind Grammar.expression.whole := by
  rw [Expr.readAt]
  cases Token.scanFrom base text with
  | error stray => rfl
  | ok ts =>
    show _ = Grammar.expression.whole ts
    rw [← Parser.toOption_parse (base + Text.byteLength text)]
    dsimp only
    cases Parser.parse (base + Text.byteLength text) ts <;> rfl

end Stencil
