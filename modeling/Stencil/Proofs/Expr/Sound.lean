import Stencil.Proofs.Expr.Complete

/-!
# The parser accepts nothing else

At every moment the state of the parser accounts for all tokens taken so far: cut at the openings,
each piece is one that the opening or the mode stands for (`Holds`). A step keeps this
(`Holds.step`), so when the input may end, the tokens can be read as the chain that the state holds.
-/
namespace Stencil.Parser

variable {ts us : List (Located Token)}

/-! ## What a state stands for -/

/-- The tokens before an operand. -/
inductive LeftHolds : List (Located Token) → Left → Prop
  | none : LeftHolds [] none
  | some {ts : List (Located Token)} {c : Chain} (op : Operator) (s : Span) : Reads ts (.chain c) →
      LeftHolds (ts ++ [⟨.operator op, s⟩]) (some (c, op))

/-- The tokens of the complete arguments of a list, with the commas after them. -/
inductive DoneHolds : List (Located Token) → List (Argument × Span) → Prop
  | nil : DoneHolds [] []
  | cons {ts : List (Located Token)} {a : Argument × Span} {done : List (Argument × Span)}
      (s : Span) : Reads ts (.arguments (a :: done)) →
      DoneHolds (ts ++ [⟨.comma, s⟩]) (a :: done)

/-- The tokens of an argument list before the value that comes next. -/
inductive ListHolds : List (Located Token) → ArgumentList → Prop
  | positional {ts : List (Located Token)} {done : List (Argument × Span)} : DoneHolds ts done →
      ListHolds ts ⟨done, none⟩
  | keyword {ts : List (Located Token)} {done : List (Argument × Span)} (text : List Char)
      (s e : Span) : DoneHolds ts done →
      ListHolds (ts ++ [⟨.name text, s⟩, ⟨.assign, e⟩]) ⟨done, some (ident text s)⟩

/-- The tokens from the start of the expression around an opening. -/
inductive OpeningHolds : List (Located Token) → Opening → Prop
  | group {ts : List (Located Token)} {left : Left} (a : Span) : LeftHolds ts left →
      OpeningHolds (ts ++ [⟨.lparen, a⟩]) (.group left a.start)
  | index {ts us : List (Located Token)} {left : Left} {p : Phrase} (a : Span) :
      LeftHolds ts left → Reads us (.unit p) →
      OpeningHolds (ts ++ (us ++ [⟨.lbracket, a⟩])) (.index left p)
  | call {ts us vs : List (Located Token)} {left : Left} {p : Phrase} {l : ArgumentList}
      (a : Span) : LeftHolds ts left → Reads us (.unit p) → ListHolds vs l →
      OpeningHolds (ts ++ (us ++ ⟨.lparen, a⟩ :: vs)) (.call left p l)
  | filterCall {ts us vs : List (Located Token)} {c : Chain} {f : FilterName}
      {l : ArgumentList} (a : Span) : Reads ts (.chain c) → Reads us (.name f) →
      ListHolds vs l → OpeningHolds (ts ++ (us ++ ⟨.lparen, a⟩ :: vs)) (.filterCall c f l)

/-- The tokens since the innermost opening. -/
inductive ModeHolds : List (Located Token) → Mode → Prop
  | operand {ts : List (Located Token)} {left : Left} : LeftHolds ts left →
      ModeHolds ts (.operand left)
  | unit {ts us : List (Located Token)} {left : Left} {p : Phrase} : LeftHolds ts left →
      Reads us (.unit p) → ModeHolds (ts ++ us) (.unit left p false)
  | name {ts : List (Located Token)} {left : Left} (text : List Char) (s : Span) :
      LeftHolds ts left →
      ModeHolds (ts ++ [⟨.name text, s⟩]) (.unit left ⟨.name s (String.ofList text), s⟩ true)
  | member {ts us : List (Located Token)} {left : Left} {p : Phrase} (d : Span) :
      LeftHolds ts left → Reads us (.unit p) →
      ModeHolds (ts ++ (us ++ [⟨.dot, d⟩])) (.attribute left p)
  | pipe {ts : List (Located Token)} {c : Chain} (a : Span) : Reads ts (.chain c) →
      ModeHolds (ts ++ [⟨.pipe, a⟩]) (.filterName c ⟨a.start, []⟩)
  | dot {ts us : List (Located Token)} {c : Chain} {f : FilterName} (d : Span) :
      Reads ts (.chain c) → Reads us (.name f) →
      ModeHolds (ts ++ (us ++ [⟨.dot, d⟩])) (.filterName c f)
  | filterNamed {ts us : List (Located Token)} {c : Chain} {f : FilterName} :
      Reads ts (.chain c) → Reads us (.name f) → ModeHolds (ts ++ us) (.filterNamed c f)
  | filterValue {ts us : List (Located Token)} {c : Chain} {f : FilterName} (d : Span) :
      Reads ts (.chain c) → Reads us (.name f) →
      ModeHolds (ts ++ (us ++ [⟨.colon, d⟩])) (.filterValue c f)
  | filtered {ts : List (Located Token)} {c : Chain} : Reads ts (.chain c) →
      ModeHolds ts (.filtered c)

/-- The tokens up to the innermost opening. -/
inductive OpeningsHold : List (Located Token) → List Opening → Prop
  | nil : OpeningsHold [] []
  | cons {ts us : List (Located Token)} {o : Opening} {os : List Opening} :
      OpeningsHold ts os → OpeningHolds us o → OpeningsHold (ts ++ us) (o :: os)

/-- The state accounts for these tokens. -/
inductive Holds : List (Located Token) → State → Prop
  | mk {ts us : List (Located Token)} {mode : Mode} {os : List Opening} : OpeningsHold ts os →
      ModeHolds us mode → Holds (ts ++ us) ⟨mode, os⟩

/-! ## Complete pieces -/

theorem LeftHolds.close {left : Left} {p : Phrase} (h : LeftHolds ts left)
    (hp : Reads us (.unit p)) : Reads (ts ++ us) (.chain (Parser.close left p)) := by
  cases h with
  | none => exact .first hp
  | some op s hc =>
    rw [List.append_assoc]
    exact .operator op s hc hp

theorem ModeHolds.chain {mode : Mode} {c : Chain} (h : ModeHolds ts mode)
    (hc : mode.chain? = some c) : Reads ts (.chain c) := by
  cases h with
  | unit hl hp =>
    obtain rfl := Option.some.inj hc
    exact hl.close hp
  | name text s hl =>
    obtain rfl := Option.some.inj hc
    exact hl.close (.name text s)
  | filterNamed hr hf =>
    obtain rfl := Option.some.inj hc
    exact .filter hr hf
  | filtered hr =>
    obtain rfl := Option.some.inj hc
    exact hr
  | _ => cases hc

theorem DoneHolds.add {done : List (Argument × Span)} {a : Argument × Span}
    (h : DoneHolds ts done) (ha : Reads us (.argument a)) :
    Reads (ts ++ us) (.arguments (a :: done)) := by
  cases h with
  | nil => exact .oneArgument ha
  | cons s hd =>
    rw [List.append_assoc]
    exact .moreArguments s hd ha

theorem ListHolds.add {l : ArgumentList} {c : Chain} (h : ListHolds ts l)
    (hc : Reads us (.chain c)) : ∃ a, l.add c = ⟨a :: l.done, none⟩ ∧
      Reads (ts ++ us) (.arguments (a :: l.done)) := by
  cases h with
  | positional hd => exact ⟨_, rfl, hd.add (.positional hc)⟩
  | keyword text s e hd =>
    refine ⟨_, rfl, ?_⟩
    rw [List.append_assoc]
    exact hd.add (.keyword text s e hc)

theorem ModeHolds.operandRead {left : Left} {p : Phrase} {bare : Bool}
    (h : ModeHolds ts (.unit left p bare)) :
    ∃ us vs, ts = us ++ vs ∧ LeftHolds us left ∧ Reads vs (.unit p) := by
  cases h with
  | unit hl hp => exact ⟨_, _, rfl, hl, hp⟩
  | name text s hl => exact ⟨_, _, rfl, hl, .name text s⟩

/-- What more is read of an argument list belongs to its opening. -/
theorem OpeningHolds.extend {k : Caller} {l l' : ArgumentList}
    (h : OpeningHolds ts (k.opening l)) (us : List (Located Token))
    (hl : ∀ vs, ListHolds vs l → ListHolds (vs ++ us) l') :
    OpeningHolds (ts ++ us) (k.opening l') := by
  cases k with
  | call left callee =>
    obtain - | - | ⟨a, hleft, hp, hv⟩ := h
    simpa [Caller.opening] using OpeningHolds.call a hleft hp (hl _ hv)
  | filter chain name =>
    obtain - | - | - | ⟨a, hc, hf, hv⟩ := h
    simpa [Caller.opening] using OpeningHolds.filterCall a hc hf (hl _ hv)

/-- A list of arguments in order that is closed completes the mode that waits for it. -/
theorem OpeningHolds.closed {k : Caller} {l : ArgumentList} (h : OpeningHolds ts (k.opening l))
    (us : List (Located Token)) (done : List (Argument × Span))
    (hd : ∀ vs, ListHolds vs l → Reads (vs ++ us) (.arguments done))
    (ho : Arguments.Ordered (done.reverse.map keyword?)) (b : Span) :
    ModeHolds (ts ++ (us ++ [⟨.rparen, b⟩])) (k.closed (arguments done) b) := by
  cases k with
  | call left callee =>
    obtain - | - | ⟨a, hl, hp, hv⟩ := h
    have := ModeHolds.unit hl (.call a b hp (hd _ hv) ho)
    simpa [Caller.closed] using this
  | filter chain name =>
    obtain - | - | - | ⟨a, hc, hf, hv⟩ := h
    have := ModeHolds.filtered (.filterCall a b hc hf (hd _ hv) ho)
    simpa [Caller.closed] using this

/-! ## Steps -/

theorem Holds.snoc {ts us : List (Located Token)} {t : Located Token} {mode : Mode}
    {os : List Opening} (ho : OpeningsHold ts os) (hm : ModeHolds (us ++ [t]) mode) :
    Holds (ts ++ us ++ [t]) ⟨mode, os⟩ := by
  rw [List.append_assoc]
  exact .mk ho hm

/-- A token that opens something. -/
theorem Holds.open {ts us : List (Located Token)} {t : Located Token} {o : Opening}
    {os : List Opening} (hos : OpeningsHold ts os) (ho : OpeningHolds (us ++ [t]) o) :
    Holds (ts ++ us ++ [t]) ⟨.operand none, o :: os⟩ := by
  have h := Holds.mk (.cons hos ho) (.operand .none)
  simpa using h

/-- The comma after an argument. -/
theorem Holds.comma {k : Caller} {l : ArgumentList} {ts us : List (Located Token)} {c : Chain}
    {os : List Opening} (hos : OpeningsHold ts (k.opening l :: os)) (hc : Reads us (.chain c))
    (s : Span) :
    Holds (ts ++ us ++ [⟨.comma, s⟩]) ⟨.operand none, k.opening (l.add c) :: os⟩ := by
  obtain - | ⟨hos, ho⟩ := hos
  have hlist : ∀ vs, ListHolds vs l → ListHolds (vs ++ (us ++ [⟨.comma, s⟩])) (l.add c) := by
    intro vs hv
    obtain ⟨a, hadd, hr⟩ := hv.add hc
    rw [hadd, ← List.append_assoc]
    exact .positional (.cons s hr)
  simpa using Holds.mk (.cons hos (ho.extend _ hlist)) (.operand .none)

/-- A token that ends a complete chain or goes on from it. -/
theorem Holds.afterChain {ts us : List (Located Token)} {t : Located Token} {c : Chain}
    {os : List Opening} {s' : State} (hos : OpeningsHold ts os) (hc : Reads us (.chain c))
    (h : Parser.afterChain c os t = some s') : Holds (ts ++ us ++ [t]) s' := by
  obtain ⟨value, s⟩ := t
  unfold Parser.afterChain at h
  dsimp only at h
  split at h
  case h_1 => -- an operator
    obtain rfl := Option.some.inj h
    exact .snoc hos (.operand (.some _ s hc))
  case h_2 => -- a pipe
    obtain rfl := Option.some.inj h
    exact .snoc hos (.pipe s hc)
  case h_3 => -- the end of a group
    obtain rfl := Option.some.inj h
    obtain - | ⟨hos, ⟨a, hl⟩⟩ := hos
    have hm := ModeHolds.unit hl (.group a s hc)
    simpa using Holds.mk hos hm
  case h_4 => -- the end of a subscript
    obtain rfl := Option.some.inj h
    obtain - | ⟨hos, - | ⟨a, hl, hp⟩⟩ := hos
    have hm := ModeHolds.unit hl (.index a s hp hc)
    simpa [Phrase.index] using Holds.mk hos hm
  case h_5 => -- a comma in a call
    obtain rfl := Option.some.inj h
    exact .comma (k := .call _ _) hos hc s
  case h_6 => -- a comma in the arguments of a filter
    obtain rfl := Option.some.inj h
    exact .comma (k := .filter _ _) hos hc s
  case h_7 => cases h

/-- The parenthesis that ends an argument list, whose last argument is complete. -/
theorem Holds.endArguments {k : Caller} {l : ArgumentList} {ts us : List (Located Token)}
    {mode : Mode} {c : Chain} {b : Span} {os : List Opening} {s' : State}
    (hos : OpeningsHold ts (k.opening l :: os)) (hm : ModeHolds us mode)
    (hc : mode.chain? = some c)
    (h : State.step ⟨mode, k.opening l :: os⟩ ⟨.rparen, b⟩ = .ok s') :
    Holds (ts ++ us ++ [⟨.rparen, b⟩]) s' := by
  obtain ⟨hn, he⟩ := step_eq_ok_iff.1 h
  rw [next?_rparen hc] at hn
  obtain rfl := Option.some.inj hn
  rw [endFailure?_rparen hc, outlineFailure?_eq_none_iff, names_outline] at he
  obtain - | ⟨hos, ho⟩ := hos
  have hclosed := ho.closed us (l.add c).done
    (fun vs hv => by
      obtain ⟨a, hadd, hr⟩ := hv.add (hm.chain hc)
      rw [hadd]
      exact hr) he b
  simpa using Holds.mk hos hclosed

theorem Holds.endEmpty {k : Caller} {ts us : List (Located Token)} {b : Span}
    {os : List Opening} {s' : State} (hos : OpeningsHold ts (k.opening .empty :: os))
    (hm : ModeHolds us (.operand none))
    (h : State.step ⟨.operand none, k.opening .empty :: os⟩ ⟨.rparen, b⟩ = .ok s') :
    Holds (ts ++ us ++ [⟨.rparen, b⟩]) s' := by
  rw [step_rparen_empty] at h
  obtain rfl := Except.ok.inj h
  obtain ⟨⟨⟩⟩ := hm
  obtain - | ⟨hos, ho⟩ := hos
  have hclosed := ho.closed [] []
    (fun vs hv => by
      obtain ⟨⟨⟩⟩ := hv
      exact .noArguments) ⟨0, [], rfl, List.nodup_nil⟩ b
  simpa [Parser.arguments] using Holds.mk hos hclosed

theorem opening_of_atFirstArgument {o : Opening} {os : List Opening}
    (h : atFirstArgument (o :: os) = true) : ∃ k : Caller, o = k.opening .empty := by
  cases o with
  | call left callee l =>
    obtain ⟨done, keyword⟩ := l
    obtain ⟨rfl, rfl⟩ : done = [] ∧ keyword = none := by simpa [atFirstArgument] using h
    exact ⟨.call left callee, rfl⟩
  | filterCall chain name l =>
    obtain ⟨done, keyword⟩ := l
    obtain ⟨rfl, rfl⟩ : done = [] ∧ keyword = none := by simpa [atFirstArgument] using h
    exact ⟨.filter chain name, rfl⟩
  | _ => cases h

/-- The `=` after a bare name. -/
theorem Holds.keyword {k : Caller} {l : ArgumentList} {ts us : List (Located Token)}
    {p : Phrase} {s : Span} {n : String} {os : List Opening}
    (hos : OpeningsHold ts (k.opening l :: os)) (hm : ModeHolds us (.unit none p true))
    (hp : p.expr = .name s n) (hl : l.keyword = none) (e : Span) :
    Holds (ts ++ us ++ [⟨.assign, e⟩])
      ⟨.operand none, k.opening ⟨l.done, some ⟨n, s⟩⟩ :: os⟩ := by
  cases hm with
  | name text s hleft =>
    obtain ⟨rfl, rfl⟩ := Expr.name.inj hp
    obtain ⟨⟩ := hleft
    obtain - | ⟨hos, ho⟩ := hos
    have hlist : ∀ vs, ListHolds vs l → ListHolds (vs ++ [⟨.name text, s⟩, ⟨.assign, e⟩])
        ⟨l.done, some (ident text s)⟩ := by
      intro vs hv
      cases hv with
      | positional hd => exact .keyword text s e hd
      | keyword _ _ _ _ => cases hl
    simpa [ident] using Holds.mk (.cons hos (ho.extend _ hlist)) (.operand .none)

/-- **A step keeps the account of the tokens.** -/
theorem Holds.step {ts : List (Located Token)} {s s' : State} {t : Located Token}
    (h : Holds ts s) (hs : s.step t = .ok s') : Holds (ts ++ [t]) s' := by
  obtain ⟨hn, -⟩ := step_eq_ok_iff.1 hs
  obtain ⟨mode, os⟩ := s
  obtain ⟨value, span⟩ := t
  obtain ⟨hos, hm⟩ := h
  unfold State.next? at hn
  dsimp only at hn
  split at hn
  case h_1 => -- a number as an operand
    obtain ⟨v, hv, rfl⟩ := Option.map_eq_some_iff.1 hn
    obtain ⟨hl⟩ := hm
    exact .snoc hos (.unit hl (.literal hv))
  case h_2 => -- a string as an operand
    obtain rfl := Option.some.inj hn
    obtain ⟨hl⟩ := hm
    exact .snoc hos (.unit hl (.literal rfl))
  case h_3 => -- a name as an operand
    obtain rfl := Option.some.inj hn
    obtain ⟨hl⟩ := hm
    exact .snoc hos (.name _ span hl)
  case h_4 => -- a group
    obtain rfl := Option.some.inj hn
    obtain ⟨hl⟩ := hm
    exact .open hos (.group span hl)
  case h_5 => -- the end of an empty argument list
    split at hn
    · rename_i hfirst
      obtain ⟨k, rfl⟩ := opening_of_atFirstArgument hfirst
      exact .endEmpty hos hm hs
    · cases hn
  case h_6 => -- an attribute
    obtain rfl := Option.some.inj hn
    obtain ⟨us, vs, rfl, hl, hp⟩ := hm.operandRead
    exact .snoc hos (by simpa using ModeHolds.member span hl hp)
  case h_7 => -- a subscript
    obtain rfl := Option.some.inj hn
    obtain ⟨us, vs, rfl, hl, hp⟩ := hm.operandRead
    exact .open hos (by simpa using OpeningHolds.index span hl hp)
  case h_8 => -- the arguments of a call
    obtain rfl := Option.some.inj hn
    obtain ⟨us, vs, rfl, hl, hp⟩ := hm.operandRead
    have ho := OpeningHolds.call span hl hp (.positional .nil)
    exact .open hos (by simpa [ArgumentList.empty] using ho)
  case h_9 => -- a keyword in a call
    split at hn
    · rename_i hp hl
      obtain rfl := Option.some.inj hn
      exact .keyword (k := .call _ _) hos hm hp hl span
    · cases hn
  case h_10 => -- a keyword in the arguments of a filter
    split at hn
    · rename_i hp hl
      obtain rfl := Option.some.inj hn
      exact .keyword (k := .filter _ _) hos hm hp hl span
    · cases hn
  case h_11 left base text => -- the name of an attribute
    obtain rfl := Option.some.inj hn
    cases hm with
    | member d hl hp =>
      have hm' := ModeHolds.unit hl (.member d text span hp)
      exact .snoc hos (by simpa [Phrase.attribute, ident] using hm')
  case h_12 => -- a segment of the name of a filter
    obtain rfl := Option.some.inj hn
    cases hm with
    | pipe a hr =>
      exact .snoc hos (by simpa using ModeHolds.filterNamed hr (.filterName a _ span))
    | dot d hr hf =>
      exact .snoc hos (by simpa using ModeHolds.filterNamed hr (.filterSegment d _ span hf))
  case h_13 => -- a dot in the name of a filter
    obtain rfl := Option.some.inj hn
    cases hm with
    | filterNamed hr hf => exact .snoc hos (by simpa using ModeHolds.dot span hr hf)
  case h_14 => -- a colon after the name of a filter
    obtain rfl := Option.some.inj hn
    cases hm with
    | filterNamed hr hf => exact .snoc hos (by simpa using ModeHolds.filterValue span hr hf)
  case h_15 => -- the arguments of a filter
    obtain rfl := Option.some.inj hn
    cases hm with
    | filterNamed hr hf =>
      have ho := OpeningHolds.filterCall span hr hf (.positional .nil)
      exact .open hos (by simpa [ArgumentList.empty] using ho)
  case h_16 chain name text => -- a number as the argument of a filter
    obtain ⟨v, hv, rfl⟩ := Option.map_eq_some_iff.1 hn
    cases hm with
    | filterValue d hr hf =>
      have hm' := ModeHolds.filtered (.filterValue (t := ⟨.number text, span⟩) d hr hf hv)
      exact .snoc hos (by simpa using hm')
  case h_17 chain name text => -- a string as the argument of a filter
    obtain rfl := Option.some.inj hn
    cases hm with
    | filterValue d hr hf =>
      have hm' := ModeHolds.filtered (.filterValue (t := ⟨.string text, span⟩) d hr hf rfl)
      exact .snoc hos (by simpa using hm')
  case h_18 => -- the end of the arguments of a call
    obtain ⟨c, hc, -⟩ := Option.bind_eq_some_iff.1 hn
    exact .endArguments (k := .call _ _) hos hm hc hs
  case h_19 => -- the end of the arguments of a filter
    obtain ⟨c, hc, -⟩ := Option.bind_eq_some_iff.1 hn
    exact .endArguments (k := .filter _ _) hos hm hc hs
  case h_20 =>
    obtain ⟨c, hc, hn⟩ := Option.bind_eq_some_iff.1 hn
    exact .afterChain hos (hm.chain hc) hn

/-- **A run keeps the account of the tokens.** -/
theorem Holds.run : ∀ {us ts : List (Located Token)} {s s' : State}, Holds ts s →
    s.run us = .ok s' → Holds (ts ++ us) s'
  | [], ts, s, s', h, hr => by
    obtain rfl : s = s' := Except.ok.inj hr
    simpa using h
  | t :: us, ts, s, s', h, hr => by
    obtain ⟨next, hs, hr⟩ := step_of_run_cons hr
    simpa using (h.step hs).run hr

theorem holds_of_run {s : State} (h : State.start.run ts = .ok s) : Holds ts s := by
  have hstart : Holds [] State.start := .mk .nil (.operand .none)
  simpa using hstart.run h

/-- Tokens behind which nothing is open and a chain is complete can be read as this chain. -/
theorem reads_of_run {mode : Mode} {c : Chain} (hr : State.start.run ts = .ok ⟨mode, []⟩)
    (hc : mode.chain? = some c) : Reads ts (.chain c) := by
  obtain ⟨hos, hm⟩ := holds_of_run hr
  cases hos
  exact hm.chain hc

/-- **What the parser accepts can be read as a chain, and its tree is that of the chain.** -/
theorem reads_of_parse {ts : List (Located Token)} {stop : Nat} {e : Expr}
    (h : parse stop ts = .ok e) : ∃ c, Reads ts (.chain c) ∧ e = c.expr := by
  obtain ⟨mode, c, hr, hc, he⟩ := parse_eq_ok_iff.1 h
  exact ⟨c, reads_of_run hr hc, he⟩

end Stencil.Parser
