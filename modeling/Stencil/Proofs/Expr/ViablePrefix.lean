import Stencil.Proofs.Expr.Coverage
import Stencil.Proofs.Expr.FaultPlace
import Stencil.Proofs.Expr.RoundTrip

/-!
# The first offending token

Tokens are viable as long as some accepted list of tokens begins with them. What the parser has
taken is viable if it names no keyword: put an operand where one is missing, and close what is open
(`viable_of_run`). A token that it refuses ends this, since it takes all tokens of an expression
(`not_viable_of_step`). So a syntax error points at the first token that fits no expression
(`unexpected_of_parse`).
-/
namespace Stencil

namespace Expr

/-- Some text of these tokens is an expression. -/
def Accepted (vs : List Token) : Prop :=
  ∃ text ts e, Token.scanFrom 0 text = .ok ts ∧ ts.map Located.value = vs ∧
    Expr.parse text = .ok e

/-- Some accepted list of tokens begins with these. -/
def Viable (vs : List Token) : Prop := ∃ ws, Accepted (vs ++ ws)

end Expr

namespace Parser

variable {ts us : List (Located Token)}

/-! ## Positional arguments -/

/-- No keyword is named. -/
def WithoutKeywords (ts : List (Located Token)) : Prop := ∀ t ∈ ts, t.value ≠ .assign

theorem withoutKeywords_append :
    WithoutKeywords (ts ++ us) ↔ WithoutKeywords ts ∧ WithoutKeywords us :=
  List.forall_mem_append

theorem withoutKeywords_cons {t : Located Token} :
    WithoutKeywords (t :: ts) ↔ t.value ≠ .assign ∧ WithoutKeywords ts :=
  List.forall_mem_cons

/-- Arguments have no keyword. -/
def Part.IsPositional : Part → Prop
  | .argument a => keyword? a = none
  | .arguments done => ∀ a ∈ done, keyword? a = none
  | _ => True

theorem Reads.isPositional {part : Part} (h : Reads ts part) : WithoutKeywords ts →
    part.IsPositional := by
  induction h with
  | positional _ _ => exact fun _ => rfl
  | keyword text s e _ _ =>
    intro hk
    simp [withoutKeywords_cons] at hk
  | noArguments => exact fun _ => List.forall_mem_nil _
  | oneArgument _ ih => exact fun hk => List.forall_mem_singleton.2 (ih hk)
  | moreArguments s _ _ ih ihb =>
    intro hk
    simp only [withoutKeywords_append, withoutKeywords_cons] at hk
    exact List.forall_mem_cons.2 ⟨ihb hk.2.2, ih hk.1⟩
  | _ => exact fun _ => trivial

/-- Only positional arguments were read, and no keyword waits for its value. -/
def ArgumentList.IsPositional (l : ArgumentList) : Prop :=
  l.keyword = none ∧ ∀ a ∈ l.done, keyword? a = none

/-- All open argument lists are positional. -/
def AllPositional (os : List Opening) : Prop := ∀ o ∈ os, ∀ l ∈ o.arguments?, l.IsPositional

theorem ListHolds.isPositional {l : ArgumentList} (h : ListHolds ts l) (hk : WithoutKeywords ts) :
    l.IsPositional := by
  cases h with
  | positional hd =>
    refine ⟨rfl, ?_⟩
    cases hd with
    | nil => simp
    | cons s hr => exact hr.isPositional (withoutKeywords_append.1 hk).1
  | keyword text s e _ => simp [withoutKeywords_append, withoutKeywords_cons] at hk

theorem OpeningHolds.isPositional {o : Opening} (h : OpeningHolds ts o) (hk : WithoutKeywords ts) :
    ∀ l ∈ o.arguments?, l.IsPositional := by
  cases h with
  | group _ _ | index _ _ _ => simp [Opening.arguments?]
  | call _ _ _ hl | filterCall _ _ _ hl =>
    simp only [withoutKeywords_append, withoutKeywords_cons] at hk
    simpa [Opening.arguments?] using hl.isPositional hk.2.2.2

theorem OpeningsHold.isPositional {os : List Opening} (h : OpeningsHold ts os)
    (hk : WithoutKeywords ts) : AllPositional os := by
  induction h with
  | nil => exact List.forall_mem_nil _
  | cons _ ho ih =>
    obtain ⟨hts, hus⟩ := withoutKeywords_append.1 hk
    exact List.forall_mem_cons.2 ⟨ho.isPositional hus, ih hts⟩

theorem Holds.isPositional {s : State} (h : Holds ts s) (hk : WithoutKeywords ts) :
    AllPositional s.openings := by
  obtain ⟨hos, -⟩ := h
  exact hos.isPositional (withoutKeywords_append.1 hk).1

/-! ## Refusals -/

theorem ordered_of_none {names : List (Option String)} (h : ∀ n ∈ names, n = none) :
    Arguments.Ordered names :=
  ⟨names.length, [], by simpa using List.eq_replicate_of_mem h, List.nodup_nil⟩

/-- Positional arguments are in order, wherever the list breaks off. -/
theorem ArgumentList.IsPositional.ordered {l : ArgumentList} (h : l.IsPositional)
    (value : Option Span) : Arguments.Ordered ((l.outline value).map Prod.fst) := by
  obtain ⟨done, keyword⟩ := l
  obtain ⟨rfl, hdone⟩ := h
  refine ordered_of_none fun n hn => ?_
  obtain ⟨⟨name, s⟩, hmem, rfl⟩ := List.mem_map.1 hn
  rcases List.mem_append.1 hmem with hread | hlast
  · obtain ⟨⟨a, extent⟩, ha, heq⟩ := List.mem_map.1 hread
    have hpositional := hdone _ (List.mem_reverse.1 ha)
    cases a with
    | positional e => exact (congrArg Prod.fst heq).symm
    | keyword k e => cases hpositional
  · cases value with
    | none => cases hlast
    | some v => exact congrArg Prod.fst (List.mem_singleton.1 hlast)

theorem openFailure?_eq_none : ∀ {os : List Opening}, AllPositional os → ∀ inner,
    openFailure? inner os = none
  | [], _, _ => rfl
  | o :: os, h, inner => by
    obtain ⟨ho, hos⟩ := List.forall_mem_cons.1 h
    rw [openFailure?, openFailure?_eq_none hos]
    refine Option.bind_eq_none_iff.2 fun l hl => ?_
    exact outlineFailure?_eq_none_iff.2 ((ho l hl).ordered inner)

section
variable {s : State} (h : AllPositional s.openings)
include h

theorem fail_of_positional (problem : Problem) (span : Span) :
    s.fail problem span = ⟨problem, span⟩ := by
  rw [State.fail, openFailure?_eq_none h]
  rfl

theorem endFailure?_of_positional (t : Token) : s.endFailure? t = none := by
  cases hf : s.endFailure? t with
  | none => rfl
  | some f =>
    obtain ⟨o, outer, l, c, hos, hl, -, hlist⟩ := endFailure?_eq_some hf
    have ho : o ∈ s.openings := hos ▸ List.mem_cons_self
    rw [outlineFailure?_eq_none_iff.2 ((h o ho l hl).ordered _)] at hlist
    cases hlist

/-- A token that is refused is refused as itself. -/
theorem step_error_of_positional {t : Located Token} {f : Failure}
    (hn : ∀ text, t.value = .number text → numberLiteral? text ≠ none)
    (hf : s.step t = .error f) : f = ⟨.unexpected (some t.value) s.expected, t.span⟩ := by
  have hnumber : s.numberProblem? t.value = none := by
    unfold State.numberProblem?
    split
    · rename_i ht
      simp [hn _ ht]
    · rename_i ht
      simp [hn _ ht]
    · rfl
  unfold State.step at hf
  rw [hnumber, endFailure?_of_positional h] at hf
  cases hnext : s.next? t with
  | some next =>
    rw [hnext] at hf
    cases hf
  | none =>
    rw [hnext] at hf
    rw [← Except.error.inj hf, fail_of_positional h]
    rfl

end

/-! ## Completing an expression -/

/-- What has a value in this mode is completed by at most one token. -/
theorem exists_run_chain (mode : Mode) (os : List Opening) : ∃ ws mode' c,
    State.run ⟨mode, os⟩ ws = .ok ⟨mode', os⟩ ∧ mode'.chain? = some c ∧
      ∀ w ∈ ws, w.value.Proper := by
  have hname : Token.Proper (.name ['x']) := ⟨by decide, by decide⟩
  have hstring : Token.Proper (.string []) := .inl (by simp)
  cases mode with
  | operand _ | filterValue _ _ =>
    exact ⟨[⟨.string [], ⟨0, 0⟩⟩], _, _, rfl, rfl, List.forall_mem_singleton.2 hstring⟩
  | «attribute» _ _ | filterName _ _ =>
    exact ⟨[⟨.name ['x'], ⟨0, 0⟩⟩], _, _, rfl, rfl, List.forall_mem_singleton.2 hname⟩
  | unit _ _ _ | filterNamed _ _ | filtered _ =>
    exact ⟨[], _, _, rfl, rfl, List.forall_mem_nil _⟩

/-- A complete chain inside of an opening is ended by one token. -/
theorem exists_step_closing {o : Opening} {mode : Mode} {c : Chain}
    (ho : ∀ l ∈ o.arguments?, l.IsPositional) (hc : mode.chain? = some c) (os : List Opening) :
    ∃ t mode' c', State.step ⟨mode, o :: os⟩ t = .ok ⟨mode', os⟩ ∧ mode'.chain? = some c' ∧
      t.value.Proper := by
  have hordered : ∀ l ∈ o.arguments?,
      Arguments.Ordered ((l.add c).done.reverse.map keyword?) := fun l hl =>
    names_outline l c ▸ (ho l hl).ordered (some c.extent)
  cases o with
  | group left start =>
    exact ⟨⟨.rparen, ⟨0, 0⟩⟩, _, _, step_group hc os left start _, rfl, trivial⟩
  | index left base =>
    exact ⟨⟨.rbracket, ⟨0, 0⟩⟩, _, _, step_rbracket hc os left base _, rfl, trivial⟩
  | call left callee l =>
    exact ⟨⟨.rparen, ⟨0, 0⟩⟩, _, _,
      step_rparen (k := .call left callee) hc (hordered l rfl) _, rfl, trivial⟩
  | filterCall chain name l =>
    exact ⟨⟨.rparen, ⟨0, 0⟩⟩, _, _,
      step_rparen (k := .filter chain name) hc (hordered l rfl) _, rfl, trivial⟩

theorem exists_run_closing : ∀ {os : List Opening} {mode : Mode} {c : Chain}, AllPositional os →
    mode.chain? = some c → ∃ ws mode' c',
      State.run ⟨mode, os⟩ ws = .ok ⟨mode', []⟩ ∧ mode'.chain? = some c' ∧
        ∀ w ∈ ws, w.value.Proper
  | [], _, _, _, hc => ⟨[], _, _, rfl, hc, List.forall_mem_nil _⟩
  | o :: os, mode, c, h, hc => by
    obtain ⟨ho, hos⟩ := List.forall_mem_cons.1 h
    obtain ⟨t, mode', c', hstep, hc', ht⟩ := exists_step_closing ho hc os
    obtain ⟨ws, mode'', c'', hrun, hc'', hws⟩ := exists_run_closing hos hc'
    exact ⟨t :: ws, mode'', c'', by rw [run_cons hstep, hrun], hc'',
      List.forall_mem_cons.2 ⟨ht, hws⟩⟩

/-! ## Accepted tokens -/

theorem numbersScanned_of_proper (h : ∀ t ∈ ts, t.value.Proper) : NumbersScanned ts := by
  intro t ht text hv
  have hproper := h t ht
  rwa [hv] at hproper

theorem NumbersScanned.of_values (h : NumbersScanned ts)
    (hv : us.map Located.value = ts.map Located.value) : NumbersScanned us := by
  intro u hu text hut
  obtain ⟨t, ht, htu⟩ := List.mem_map.1 (hv ▸ List.mem_map_of_mem (f := Located.value) hu)
  exact h t ht text (htu.trans hut)

/-- Where tokens stand has no part in whether they can be read. -/
theorem Reads.of_values {c : Chain} (h : Reads ts (.chain c)) (hts : NumbersScanned ts)
    (hv : us.map Located.value = ts.map Located.value) : ∃ c', Reads us (.chain c') :=
  reads_of_derives (derives_of_reads h hts) us hv (hts.of_values hv)

theorem accepted_of_reads {c : Chain} (h : Reads ts (.chain c)) (hp : ∀ t ∈ ts, t.value.Proper) :
    Expr.Accepted (ts.map Located.value) := by
  have hproper : ∀ v ∈ ts.map Located.value, v.Proper := by
    intro v hv
    obtain ⟨t, ht, rfl⟩ := List.mem_map.1 hv
    exact hp t ht
  obtain ⟨us, hscan, hus⟩ := Token.scan_text .tight hproper (unjoined_of_reads h) 0
  obtain ⟨c', hc'⟩ := h.of_values (numbersScanned_of_proper hp) hus
  exact ⟨_, us, c'.expr, hscan, hus, (Expr.parse_eq_ok_iff hscan).2 ⟨c', hc', rfl⟩⟩

/-- **What was taken can go on to an expression.** -/
theorem viable_of_run {s : State} (hr : State.start.run ts = .ok s) (hk : WithoutKeywords ts)
    (hp : ∀ t ∈ ts, t.value.Proper) : Expr.Viable (ts.map Located.value) := by
  obtain ⟨vs, mode, c, hvs, hc, hvp⟩ := exists_run_chain s.mode s.openings
  obtain ⟨ws, mode', c', hws, hc', hwp⟩ :=
    exists_run_closing ((holds_of_run hr).isPositional hk) hc
  have hrun : State.start.run (ts ++ (vs ++ ws)) = .ok ⟨mode', []⟩ := by
    rw [run_append hr, run_append hvs, hws]
  have haccepted := accepted_of_reads (reads_of_run hrun hc')
    (List.forall_mem_append.2 ⟨hp, List.forall_mem_append.2 ⟨hvp, hwp⟩⟩)
  rw [List.map_append] at haccepted
  exact ⟨_, haccepted⟩

/-- **A refused token fits no expression** that begins with the tokens before it. -/
theorem not_viable_of_step {s : State} {t : Located Token} {f : Failure}
    (hr : State.start.run ts = .ok s) (hf : s.step t = .error f) :
    ¬ Expr.Viable ((ts ++ [t]).map Located.value) := by
  rintro ⟨ws, text, us, e, hscan, hus, he⟩
  obtain ⟨c, hc, -⟩ := (Expr.parse_eq_ok_iff hscan).1 he
  have hnumbers : NumbersScanned us :=
    numbersScanned_of_proper (Token.proper_of_mem_scan hscan)
  have hvalues : (ts ++ t :: ws.map fun v => ⟨v, ⟨0, 0⟩⟩).map Located.value =
      us.map Located.value := by
    simp [hus, Function.comp_def]
  obtain ⟨c', hc'⟩ := hc.of_values hnumbers hvalues
  obtain ⟨mode, hrun, -⟩ := hc'.runs []
  obtain ⟨m, hm, hrest⟩ := run_of_run_append hrun
  obtain ⟨next, hstep, -⟩ := step_of_run_cons hrest
  obtain rfl : s = m := Except.ok.inj (hr.symm.trans hm)
  rw [hf] at hstep
  cases hstep

theorem numberLiteral?_of_fits {text : List Char} (h : IsNumber text) (hf : FitsInteger text) :
    numberLiteral? text ≠ none :=
  Option.isSome_iff_ne_none.1 ((numberLiteral?_isSome_iff h).2 hf)

/-- **The parser refuses the first token that fits no expression**, or the end of tokens that are
viable. -/
theorem parse_error_of_positional {stop : Nat} {f : Failure} (hk : WithoutKeywords ts)
    (hp : ∀ t ∈ ts, t.value.Proper)
    (hn : ∀ t ∈ ts, ∀ text, t.value = .number text → FitsInteger text)
    (hf : parse stop ts = .error f) :
    (∃ us t vs expected, ts = us ++ t :: vs ∧
        f = ⟨.unexpected (some t.value) expected, t.span⟩ ∧
        Expr.Viable (us.map Located.value) ∧ ¬ Expr.Viable ((us ++ [t]).map Located.value)) ∨
      (∃ expected, f = ⟨.unexpected none expected, endSpan stop ts⟩ ∧
        Expr.Viable (ts.map Located.value)) := by
  rcases run_of_parse_error hf with hr | ⟨s, hr, rfl⟩
  · obtain ⟨us, t, vs, s, rfl, hs, ht⟩ := step_of_run_error hr
    obtain ⟨hkus, -⟩ := withoutKeywords_append.1 hk
    obtain ⟨hpus, hptvs⟩ := List.forall_mem_append.1 hp
    have hnumber : ∀ text, t.value = .number text → numberLiteral? text ≠ none := by
      intro text htext
      have hproper := hptvs t List.mem_cons_self
      rw [htext] at hproper
      exact numberLiteral?_of_fits hproper (hn t (by simp) text htext)
    exact .inl ⟨us, t, vs, _, rfl,
      step_error_of_positional ((holds_of_run hs).isPositional hkus) hnumber ht,
      viable_of_run hs hkus hpus, not_viable_of_step hs ht⟩
  · exact .inr ⟨_, fail_of_positional ((holds_of_run hr).isPositional hk) _ _,
      viable_of_run hr hk hp⟩

end Parser

/-- The error says what was not expected, and points at it. -/
def ParseError.Unexpected (err : ParseError) (found : String) (start : Nat) : Prop :=
  err.message = "syntax error at " ++ err.location.text ++ ": unexpected " ++ found ∧
    err.span.start = start

theorem ParseError.unexpected_ofFault (index : LineIndex) (found : Option Token)
    (expected : List String) (span : Span) :
    (ofFault index ⟨.expression (.unexpected found expected), span⟩).Unexpected
      ((found.map Token.describe).getD "end of input") span.start := by
  have hjoin : ": unexpected " = ": " ++ "unexpected " := by simp
  have hmessage : (ofFault index ⟨.expression (.unexpected found expected), span⟩).message =
      "syntax error at " ++ (index.locate span.start).text ++ ": " ++
        ("unexpected " ++ (found.map Token.describe).getD "end of input") := rfl
  refine ⟨?_, rfl⟩
  rw [hmessage, hjoin]
  simp only [String.append_assoc, ofFault]

namespace Expr

theorem parse_eq_error {text : List Char} {ts : List (Located Token)} {err : ParseError}
    (h : Token.scanFrom 0 text = .ok ts) (he : Expr.parse text = .error err) :
    ∃ f, Parser.parse (Text.byteLength text) ts = .error f ∧
      err = .ofFault (.ofText text) ⟨.expression f.problem, f.span⟩ := by
  obtain ⟨fault, hfault, rfl⟩ := mapError_eq_error_iff.1 he
  rw [readAt, h, Nat.zero_add] at hfault
  cases hp : Parser.parse (Text.byteLength text) ts with
  | ok e =>
    simp only [hp] at hfault
    cases hfault
  | error f =>
    simp only [hp] at hfault
    exact ⟨f, rfl, by rw [Except.error.inj hfault]⟩

/-- **A syntax error points at the first offending token.** The tokens before it begin some accepted
text, and with it they begin none; if all tokens begin some accepted text, the error is at the end
of the text. -/
theorem unexpected_of_parse {text : List Char} {ts : List (Located Token)} {err : ParseError}
    (hscan : Token.scanFrom 0 text = .ok ts) (hassign : ∀ t ∈ ts, t.value ≠ .assign)
    (hfits : ∀ t ∈ ts, ∀ n, t.value = .number n → FitsInteger n)
    (he : Expr.parse text = .error err) :
    (∃ us t vs, ts = us ++ t :: vs ∧ err.Unexpected t.value.describe t.span.start ∧
        Viable (us.map Located.value) ∧ ¬ Viable ((us ++ [t]).map Located.value)) ∨
      (err.Unexpected "end of input" (Text.byteLength text) ∧ Viable (ts.map Located.value)) := by
  obtain ⟨f, hf, rfl⟩ := parse_eq_error hscan he
  have hproper := Token.proper_of_mem_scan hscan
  rcases Parser.parse_error_of_positional hassign hproper hfits hf with
    ⟨us, t, vs, expected, rfl, rfl, hus, ht⟩ | ⟨expected, rfl, hts⟩
  · have htoken := ParseError.unexpected_ofFault (.ofText text) (some t.value) expected t.span
    exact .inl ⟨us, t, vs, rfl, htoken, hus, ht⟩
  · have hstart : (Parser.endSpan (Text.byteLength text) ts).start = Text.byteLength text := by
      unfold Parser.endSpan
      split <;> rfl
    have hend := ParseError.unexpected_ofFault (.ofText text) none expected
      (Parser.endSpan (Text.byteLength text) ts)
    rw [hstart] at hend
    exact .inr ⟨hend, hts⟩

/-- A comma without an argument after it. -/
theorem unexpected_of_parse_comma : ∃ ts err,
    Token.scanFrom 0 "x|f(1,)".toList = .ok ts ∧ (∀ t ∈ ts, t.value ≠ .assign) ∧
      (∀ t ∈ ts, ∀ n, t.value = .number n → FitsInteger n) ∧
      Expr.parse "x|f(1,)".toList = .error err ∧
      ((∃ us t vs, ts = us ++ t :: vs ∧ err.Unexpected t.value.describe t.span.start ∧
          Viable (us.map Located.value) ∧ ¬ Viable ((us ++ [t]).map Located.value)) ∨
        (err.Unexpected "end of input" (Text.byteLength "x|f(1,)".toList) ∧
          Viable (ts.map Located.value))) := by
  have hscan : Token.scanFrom 0 "x|f(1,)".toList =
      .ok [⟨.name ['x'], ⟨0, 1⟩⟩, ⟨.pipe, ⟨1, 2⟩⟩, ⟨.name ['f'], ⟨2, 3⟩⟩, ⟨.lparen, ⟨3, 4⟩⟩,
        ⟨.number ['1'], ⟨4, 5⟩⟩, ⟨.comma, ⟨5, 6⟩⟩, ⟨.rparen, ⟨6, 7⟩⟩] := by with_unfolding_all rfl
  have herror : ∃ err, Expr.parse "x|f(1,)".toList = .error err := ⟨_, by with_unfolding_all rfl⟩
  obtain ⟨err, herr⟩ := herror
  have hfits : FitsInteger ['1'] := fun _ => by decide
  refine ⟨_, err, hscan, by decide, ?_, herr, unexpected_of_parse hscan (by decide) ?_ herr⟩
  all_goals simpa using hfits

end Expr
end Stencil
