import Stencil.Proofs.Expr.Reading

/-!
# The parser accepts what can be read

A reading directs the parser: from a state that waits for a part, the tokens of the part lead to a
state in which it was read (`Reads.runs`). Each rule of the grammar is a few steps of the parser
around the runs of its parts, and never does the parser have to look ahead or go back.
-/
namespace Stencil.Parser

/-! ## Steps and runs -/

theorem endFailure?_of_ne (s : State) {t : Token} (h : t ≠ .rparen) : s.endFailure? t = none := by
  unfold State.endFailure?
  split
  · exact absurd rfl h
  · exact absurd rfl h
  · rfl

theorem step_eq_ok_iff {s s' : State} {t : Located Token} :
    s.step t = .ok s' ↔ s.next? t = some s' ∧ s.endFailure? t.value = none := by
  unfold State.step
  cases s.next? t with
  | none => simp
  | some next => cases s.endFailure? t.value <;> simp

theorem step_of_next? {s s' : State} {t : Located Token} (ht : t.value ≠ .rparen)
    (h : s.next? t = some s') : s.step t = .ok s' :=
  step_eq_ok_iff.2 ⟨h, endFailure?_of_ne s ht⟩

theorem run_cons {s s' : State} {t : Located Token} (h : s.step t = .ok s')
    (ts : List (Located Token)) : s.run (t :: ts) = s'.run ts := by
  rw [State.run, List.foldlM_cons, h]
  rfl

theorem run_append {s s' : State} {ts : List (Located Token)} (h : s.run ts = .ok s')
    (us : List (Located Token)) : s.run (ts ++ us) = s'.run us := by
  rw [State.run, List.foldlM_append]
  rw [State.run] at h
  rw [h]
  rfl

theorem step_of_run_cons {s s' : State} {t : Located Token} {ts : List (Located Token)}
    (h : s.run (t :: ts) = .ok s') : ∃ m, s.step t = .ok m ∧ m.run ts = .ok s' := by
  cases ht : s.step t with
  | error e =>
    rw [State.run, List.foldlM_cons, ht] at h
    cases h
  | ok m => exact ⟨m, rfl, run_cons ht ts ▸ h⟩

theorem run_of_run_append {s s' : State} {ts us : List (Located Token)}
    (h : s.run (ts ++ us) = .ok s') : ∃ m, s.run ts = .ok m ∧ m.run us = .ok s' := by
  cases ht : s.run ts with
  | error e =>
    rw [State.run, List.foldlM_append] at h
    rw [State.run] at ht
    rw [ht] at h
    cases h
  | ok m => exact ⟨m, rfl, run_append ht us ▸ h⟩

/-- A run that fails fails at one of its tokens. -/
theorem step_of_run_error : ∀ {ts : List (Located Token)} {s : State} {f : Failure},
    s.run ts = .error f →
    ∃ us t vs m, ts = us ++ t :: vs ∧ s.run us = .ok m ∧ m.step t = .error f
  | [], _, _, h => by cases h
  | t :: ts, s, f, h => by
    cases ht : s.step t with
    | error e =>
      rw [State.run, List.foldlM_cons, ht] at h
      cases h
      exact ⟨[], t, ts, s, rfl, rfl, ht⟩
    | ok next =>
      rw [run_cons ht] at h
      obtain ⟨us, u, vs, m, rfl, hm, hu⟩ := step_of_run_error h
      exact ⟨t :: us, u, vs, m, rfl, by rw [run_cons ht, hm], hu⟩

theorem run_one {s s' : State} {t : Located Token} (h : s.step t = .ok s') :
    s.run [t] = .ok s' := run_cons h []

/-! ## Argument lists -/

/-- What an argument list belongs to: a call, or a filter in a chain. -/
inductive Caller
  | call (left : Left) (callee : Phrase)
  | filter (chain : Chain) (name : FilterName)

namespace Caller

/-- The list is open, and this much of it was read. -/
def opening : Caller → ArgumentList → Opening
  | .call left callee, l => .call left callee l
  | .filter chain name, l => .filterCall chain name l

/-- The list was closed by the token at `stop`. -/
def closed : Caller → List Argument → Span → Mode
  | .call left callee, args, stop => .unit left (callee.call args stop) false
  | .filter chain name, args, stop => .filtered (chain.pipe (name.call stop.stop args))

end Caller

theorem endArguments_opening (k : Caller) (l args : ArgumentList) (os : List Opening)
    (t : Located Token) : endArguments args (k.opening l) os t =
      some ⟨k.closed (arguments args.done) t.span, os⟩ := by
  cases k <;> rfl

theorem next?_rparen {k : Caller} {l : ArgumentList} {os : List Opening} {mode : Mode} {c : Chain}
    (hc : mode.chain? = some c) (b : Span) :
    State.next? ⟨mode, k.opening l :: os⟩ ⟨.rparen, b⟩ =
      some ⟨k.closed (arguments (l.add c).done) b, os⟩ := by
  rw [← endArguments_opening k l (l.add c) os ⟨.rparen, b⟩]
  cases k <;> cases mode <;> cases hc <;> rfl

theorem endFailure?_rparen {k : Caller} {l : ArgumentList} {os : List Opening} {mode : Mode}
    {c : Chain} (hc : mode.chain? = some c) :
    State.endFailure? ⟨mode, k.opening l :: os⟩ .rparen =
      outlineFailure? (l.outline (some c.extent)) := by
  cases k <;> simp [Caller.opening, State.endFailure?, hc]

theorem names_outline (l : ArgumentList) (c : Chain) :
    (l.outline (some c.extent)).map Prod.fst = (l.add c).done.reverse.map keyword? := by
  cases hk : l.keyword <;>
    simp only [ArgumentList.outline, ArgumentList.add, hk, List.map_append, List.map_map,
      List.reverse_cons] <;>
    congr 1 <;> refine List.map_congr_left ?_ <;> rintro ⟨_ | _, _⟩ - <;> rfl

theorem outlineFailure?_eq_none_iff {outline : List (Option String × Span)} :
    outlineFailure? outline = none ↔ Arguments.Ordered (outline.map Prod.fst) := by
  rw [← Arguments.fault?_eq_none_iff]
  unfold outlineFailure?
  rcases outline with _ | ⟨a, rest⟩
  · simp [Arguments.fault?]
  · obtain ⟨b, hb⟩ : ∃ b, (a :: rest).getLast? = some b :=
      Option.isSome_iff_exists.1 (by simp)
    rw [hb]
    cases Arguments.fault? [] ((a :: rest).map Prod.fst) <;> simp

/-- The parenthesis that ends a list of arguments in order. -/
theorem step_rparen {k : Caller} {l : ArgumentList} {os : List Opening} {mode : Mode} {c : Chain}
    (hc : mode.chain? = some c) (ho : Arguments.Ordered ((l.add c).done.reverse.map keyword?))
    (b : Span) : State.step ⟨mode, k.opening l :: os⟩ ⟨.rparen, b⟩ =
      .ok ⟨k.closed (arguments (l.add c).done) b, os⟩ := by
  refine step_eq_ok_iff.2 ⟨next?_rparen hc b, ?_⟩
  rw [endFailure?_rparen hc, outlineFailure?_eq_none_iff, names_outline]
  exact ho

theorem step_rparen_empty (k : Caller) (os : List Opening) (b : Span) :
    State.step ⟨.operand none, k.opening .empty :: os⟩ ⟨.rparen, b⟩ =
      .ok ⟨k.closed [] b, os⟩ := by
  cases k <;> rfl

theorem step_comma {k : Caller} {l : ArgumentList} {os : List Opening} {mode : Mode} {c : Chain}
    (hc : mode.chain? = some c) (s : Span) :
    State.step ⟨mode, k.opening l :: os⟩ ⟨.comma, s⟩ =
      .ok ⟨.operand none, k.opening (l.add c) :: os⟩ := by
  refine step_of_next? (by simp) ?_
  cases k <;> cases mode <;> cases hc <;> rfl

/-! ## Chains -/

section
variable {mode : Mode} {c : Chain} (hc : mode.chain? = some c) (os : List Opening)
include hc

theorem step_operator (op : Operator) (s : Span) :
    State.step ⟨mode, os⟩ ⟨.operator op, s⟩ = .ok ⟨.operand (some (c, op)), os⟩ := by
  refine step_of_next? (by simp) ?_
  cases mode <;> cases hc <;> rfl

theorem step_pipe (s : Span) :
    State.step ⟨mode, os⟩ ⟨.pipe, s⟩ = .ok ⟨.filterName c ⟨s.start, []⟩, os⟩ := by
  refine step_of_next? (by simp) ?_
  cases mode <;> cases hc <;> rfl

theorem step_group (left : Left) (start : Nat) (b : Span) :
    State.step ⟨mode, .group left start :: os⟩ ⟨.rparen, b⟩ =
      .ok ⟨.unit left ⟨c.expr, ⟨start, b.stop⟩⟩ false, os⟩ := by
  refine step_eq_ok_iff.2 ⟨?_, rfl⟩
  cases mode <;> cases hc <;> rfl

theorem step_rbracket (left : Left) (base : Phrase) (b : Span) :
    State.step ⟨mode, .index left base :: os⟩ ⟨.rbracket, b⟩ =
      .ok ⟨.unit left (base.index c.expr b) false, os⟩ := by
  refine step_of_next? (by simp) ?_
  cases mode <;> cases hc <;> rfl

end

theorem step_literal {t : Located Token} {v : Literal} (h : literal? t.value = some v)
    (left : Left) (os : List Opening) :
    State.step ⟨.operand left, os⟩ t =
      .ok ⟨.unit left ⟨.literal t.span v, t.span⟩ false, os⟩ := by
  obtain ⟨value, s⟩ := t
  cases value <;> simp only [literal?, reduceCtorEq] at h
  · exact step_of_next? (by simp) (by simp [State.next?, h])
  · obtain rfl := Option.some.inj h
    rfl

theorem step_filterValue {t : Located Token} {v : Literal} (h : literal? t.value = some v)
    (c : Chain) (f : FilterName) (os : List Opening) :
    State.step ⟨.filterValue c f, os⟩ t =
      .ok ⟨.filtered (c.pipe (f.call t.span.stop [.positional (.literal t.span v)])), os⟩ := by
  obtain ⟨value, s⟩ := t
  cases value <;> simp only [literal?, reduceCtorEq] at h
  · exact step_of_next? (by simp) (by simp [State.next?, h])
  · obtain rfl := Option.some.inj h
    rfl

theorem step_assign (k : Caller) (l : ArgumentList) (hl : l.keyword = none) (os : List Opening)
    (text : List Char) (s e : Span) :
    State.step ⟨.unit none ⟨.name s (String.ofList text), s⟩ true, k.opening l :: os⟩
        ⟨.assign, e⟩ =
      .ok ⟨.operand none, k.opening ⟨l.done, some (ident text s)⟩ :: os⟩ := by
  refine step_of_next? (by simp) ?_
  cases k <;> simp [Caller.opening, State.next?, hl, ident]

/-! ## Runs over what was read -/

/-- From a state that waits for the part, the tokens lead to one in which it was read. -/
def Part.Runs (ts : List (Located Token)) : Part → Prop
  | .unit p => ∀ left os, ∃ bare,
    State.run ⟨.operand left, os⟩ ts = .ok ⟨.unit left p bare, os⟩
  | .chain c => ∀ os, ∃ mode,
    State.run ⟨.operand none, os⟩ ts = .ok ⟨mode, os⟩ ∧ mode.chain? = some c
  | .name f => ∀ mode c os, mode.chain? = some c →
    State.run ⟨mode, os⟩ ts = .ok ⟨.filterNamed c f, os⟩
  | .argument a => ∀ (k : Caller) done os, ∃ mode c l,
    State.run ⟨.operand none, k.opening ⟨done, none⟩ :: os⟩ ts = .ok ⟨mode, k.opening l :: os⟩ ∧
      mode.chain? = some c ∧ l.add c = ⟨a :: done, none⟩
  | .arguments [] => ts = []
  | .arguments (a :: done) => ∀ (k : Caller) os, ∃ mode c l,
    State.run ⟨.operand none, k.opening .empty :: os⟩ ts = .ok ⟨mode, k.opening l :: os⟩ ∧
      mode.chain? = some c ∧ l.add c = ⟨a :: done, none⟩

/-- The run over the arguments of a list, and over the parenthesis that ends it. -/
theorem run_arguments {ts : List (Located Token)} {done : List (Argument × Span)}
    (h : Part.Runs ts (.arguments done)) (ho : Arguments.Ordered (done.reverse.map keyword?))
    (k : Caller) (os : List Opening) (b : Span) :
    State.run ⟨.operand none, k.opening .empty :: os⟩ (ts ++ [⟨.rparen, b⟩]) =
      .ok ⟨k.closed (arguments done) b, os⟩ := by
  cases done with
  | nil =>
    obtain rfl : ts = [] := h
    exact run_one (step_rparen_empty k os b)
  | cons a done =>
    obtain ⟨mode, c, l, hr, hc, hl⟩ := h k os
    rw [run_append hr]
    have hstep : State.step ⟨mode, k.opening l :: os⟩ ⟨.rparen, b⟩ =
        .ok ⟨k.closed (arguments (l.add c).done) b, os⟩ :=
      step_rparen hc (by rw [hl]; exact ho) b
    rw [hl] at hstep
    exact run_one hstep

/-- **Where a part is waited for, its tokens are accepted and the part is read.** -/
theorem Reads.runs {ts : List (Located Token)} {part : Part} (h : Reads ts part) :
    part.Runs ts := by
  induction h with
  | literal hv => exact fun left os => ⟨false, run_one (step_literal hv left os)⟩
  | name text s => exact fun left os => ⟨true, rfl⟩
  | @group ts c a b _ ih =>
    intro left os
    obtain ⟨mode, hr, hc⟩ := ih (.group left a.start :: os)
    have hopen : State.step ⟨.operand left, os⟩ ⟨.lparen, a⟩ =
        .ok ⟨.operand none, .group left a.start :: os⟩ := rfl
    refine ⟨false, ?_⟩
    rw [List.cons_append, run_cons hopen, run_append hr]
    exact run_one (step_group hc os left a.start b)
  | member d text s _ ih =>
    intro left os
    obtain ⟨bare, hr⟩ := ih left os
    exact ⟨false, by rw [run_append hr]; rfl⟩
  | @index ts us p c a b _ _ ih ihk =>
    intro left os
    obtain ⟨bare, hr⟩ := ih left os
    obtain ⟨mode, hk, hc⟩ := ihk (.index left p :: os)
    have hopen : State.step ⟨.unit left p bare, os⟩ ⟨.lbracket, a⟩ =
        .ok ⟨.operand none, .index left p :: os⟩ := rfl
    refine ⟨false, ?_⟩
    rw [run_append hr, List.cons_append, run_cons hopen, run_append hk]
    exact run_one (step_rbracket hc os left p b)
  | @call ts us p done a b _ _ ho ih iha =>
    intro left os
    obtain ⟨bare, hr⟩ := ih left os
    have hopen : State.step ⟨.unit left p bare, os⟩ ⟨.lparen, a⟩ =
        .ok ⟨.operand none, (Caller.call left p).opening .empty :: os⟩ := rfl
    refine ⟨false, ?_⟩
    rw [run_append hr, List.cons_append, run_cons hopen]
    exact run_arguments iha ho (.call left p) os b
  | first _ ih =>
    intro os
    obtain ⟨bare, hr⟩ := ih none os
    exact ⟨_, hr, rfl⟩
  | @operator ts us c p op s _ _ ih iho =>
    intro os
    obtain ⟨mode, hr, hc⟩ := ih os
    obtain ⟨bare, ho⟩ := iho (some (c, op)) os
    refine ⟨.unit (some (c, op)) p bare, ?_, rfl⟩
    rw [run_append hr, run_cons (step_operator hc os op s), ho]
  | @filter ts us c f _ _ ih ihf =>
    intro os
    obtain ⟨mode, hr, hc⟩ := ih os
    refine ⟨.filterNamed c f, ?_, rfl⟩
    rw [run_append hr, ihf mode c os hc]
  | @filterValue ts us c f d t v _ _ hv ih ihf =>
    intro os
    obtain ⟨mode, hr, hc⟩ := ih os
    have hcolon : State.step ⟨.filterNamed c f, os⟩ ⟨.colon, d⟩ = .ok ⟨.filterValue c f, os⟩ := rfl
    refine ⟨.filtered _, ?_, rfl⟩
    rw [run_append hr, run_append (ihf mode c os hc), run_cons hcolon]
    exact run_one (step_filterValue hv c f os)
  | @filterCall ts us vs c f done a b _ _ _ ho ih ihf iha =>
    intro os
    obtain ⟨mode, hr, hc⟩ := ih os
    have hopen : State.step ⟨.filterNamed c f, os⟩ ⟨.lparen, a⟩ =
        .ok ⟨.operand none, (Caller.filter c f).opening .empty :: os⟩ := rfl
    refine ⟨.filtered _, ?_, rfl⟩
    rw [run_append hr, run_append (ihf mode c os hc), List.cons_append, run_cons hopen]
    exact run_arguments iha ho (.filter c f) os b
  | filterName a text s =>
    intro mode c os hc
    rw [run_cons (step_pipe hc os a)]
    rfl
  | filterSegment d text s _ ih =>
    intro mode c os hc
    rw [run_append (ih mode c os hc)]
    rfl
  | positional _ ih =>
    intro k done os
    obtain ⟨mode, hr, hc⟩ := ih (k.opening ⟨done, none⟩ :: os)
    exact ⟨mode, _, _, hr, hc, rfl⟩
  | @keyword ts c text s e _ ih =>
    intro k done os
    obtain ⟨mode, hr, hc⟩ := ih (k.opening ⟨done, some (ident text s)⟩ :: os)
    have hname : State.step ⟨.operand none, k.opening ⟨done, none⟩ :: os⟩ ⟨.name text, s⟩ =
        .ok ⟨.unit none ⟨.name s (String.ofList text), s⟩ true, k.opening ⟨done, none⟩ :: os⟩ := rfl
    refine ⟨mode, c, ⟨done, some (ident text s)⟩, ?_, hc, rfl⟩
    rw [run_cons hname, run_cons (step_assign k ⟨done, none⟩ rfl os text s e), hr]
  | noArguments => rfl
  | oneArgument _ ih => exact fun k os => ih k [] os
  | @moreArguments ts us a b done s _ _ ih ihb =>
    intro k os
    obtain ⟨mode, c, l, hr, hc, hl⟩ := ih k os
    obtain ⟨mode', c', l', hr', hc', hl'⟩ := ihb k (a :: done) os
    refine ⟨mode', c', l', ?_, hc', hl'⟩
    rw [run_append hr, run_cons (step_comma hc s), hl, hr']

/-! ## Parsing -/

/-- An expression ends where nothing is open and a chain is complete. -/
theorem parse_eq_ok_iff {stop : Nat} {ts : List (Located Token)} {e : Expr} :
    parse stop ts = .ok e ↔
      ∃ mode c, State.start.run ts = .ok ⟨mode, []⟩ ∧ mode.chain? = some c ∧ e = c.expr := by
  have hparse : parse stop ts =
      (State.start.run ts).bind fun s => s.finish (endSpan stop ts) := rfl
  rw [hparse]
  cases State.start.run ts with
  | error f => simp [Except.bind]
  | ok s =>
    obtain ⟨mode, _ | ⟨o, os⟩⟩ := s
    · cases hc : mode.chain? <;> simp [Except.bind, State.finish, hc, eq_comm]
    · simp [Except.bind, State.finish]

/-- An expression is refused at one of its tokens or at its end. -/
theorem run_of_parse_error {stop : Nat} {ts : List (Located Token)} {f : Failure}
    (h : parse stop ts = .error f) :
    State.start.run ts = .error f ∨ ∃ s, State.start.run ts = .ok s ∧
      f = s.fail (.unexpected none s.expected) (endSpan stop ts) := by
  have hparse : parse stop ts =
      (State.start.run ts).bind fun s => s.finish (endSpan stop ts) := rfl
  rw [hparse] at h
  cases hr : State.start.run ts with
  | error failure =>
    rw [hr] at h
    cases h
    exact .inl rfl
  | ok s =>
    rw [hr] at h
    have hfinish : s.finish (endSpan stop ts) = .error f := h
    unfold State.finish at hfinish
    split at hfinish
    · cases hfinish
    · exact .inr ⟨s, rfl, (Except.error.inj hfinish).symm⟩

/-- **Tokens that can be read as a chain are parsed to the tree of the chain.** -/
theorem parse_of_reads {ts : List (Located Token)} {c : Chain} (h : Reads ts (.chain c))
    (stop : Nat) : parse stop ts = .ok c.expr := by
  obtain ⟨mode, hr, hc⟩ := h.runs []
  exact parse_eq_ok_iff.2 ⟨mode, c, hr, hc, rfl⟩

end Stencil.Parser
