import Stencil.Proofs.Expr.Print

/-!
# What is printed is parsed as the same tree

Every construct is printed as tokens that can be read as it, wherever they stand and up to the
places in the tree: there is one lemma for each construct, and `reads_tokens` puts them together by
induction on the tree. As tokens that can be read are parsed, and as their layout is scanned as
them, parsing undoes printing (`parse_print`).
-/
namespace Stencil

/-- The argument without its places. -/
def Argument.bare : Argument → Argument
  | .positional e => .positional e.bare
  | .keyword k e => .keyword (k.mapSpan fun _ => ⟨0, 0⟩) e.bare

/-- The keyword of an argument. -/
def Argument.name? : Argument → Option String
  | .positional _ => none
  | .keyword k _ => some k.name

theorem Argument.name?_bare (a : Argument) : a.bare.name? = a.name? := by
  cases a <;> rfl

namespace Parser

/-! ## Readings up to places -/

/-- Wherever the tokens stand, they can be read as an operand with this tree. -/
def UnitOf (vs : List Token) (e : Expr) : Prop :=
  ∀ ts : List (Located Token), ts.map Located.value = vs →
    ∃ p, Reads ts (.unit p) ∧ p.expr.bare = e.bare

/-- Wherever the tokens stand, they can be read as a chain with this tree. -/
def ChainOf (vs : List Token) (e : Expr) : Prop :=
  ∀ ts : List (Located Token), ts.map Located.value = vs →
    ∃ c, Reads ts (.chain c) ∧ c.expr.bare = e.bare

def ArgumentOf (vs : List Token) (a : Argument) : Prop :=
  ∀ ts : List (Located Token), ts.map Located.value = vs →
    ∃ b, Reads ts (.argument b) ∧ b.1.bare = a.bare

def ArgumentsOf (vs : List Token) (list : List Argument) : Prop :=
  ∀ ts : List (Located Token), ts.map Located.value = vs →
    ∃ done, Reads ts (.arguments done) ∧
      (arguments done).map Argument.bare = list.map Argument.bare

/-- The name of a filter after its pipe. -/
def NameOf (vs : List Token) (segments : List Ident) : Prop :=
  ∀ ts : List (Located Token), ts.map Located.value = vs →
    ∃ f, Reads ts (.name f) ∧ f.segments.reverse.map Ident.name = segments.map Ident.name

section
variable {vs us : List Token} {e : Expr}

theorem UnitOf.chain (h : UnitOf vs e) : ChainOf vs e := by
  intro ts hts
  obtain ⟨p, hp, he⟩ := h ts hts
  exact ⟨_, .first hp, he⟩

theorem ChainOf.group (h : ChainOf vs e) : UnitOf (.lparen :: vs ++ [.rparen]) e := by
  intro ts hts
  obtain ⟨a, us, b, rfl, hus⟩ := eq_bracketed_of_map hts
  obtain ⟨c, hc, he⟩ := h us hus
  exact ⟨_, .group a b hc, he⟩

theorem unitOf_literal {v : Literal} (h : v.Printable) (s : Span) :
    UnitOf [v.token] (.literal s v) := by
  intro ts hts
  obtain ⟨s', us, rfl, hus⟩ := eq_cons_of_map hts
  rw [List.map_eq_nil_iff.1 hus]
  have hv : literal? v.token = some v := by
    cases v with
    | int n => exact numberLiteral?_toDigits h
    | float x => cases h
    | str s => simp [Literal.token, literal?]
  exact ⟨_, .literal (t := ⟨v.token, s'⟩) hv, rfl⟩

theorem unitOf_name (s : Span) (n : String) : UnitOf [nameToken n] (.name s n) := by
  intro ts hts
  obtain ⟨s', us, rfl, hus⟩ := eq_cons_of_map hts
  rw [List.map_eq_nil_iff.1 hus]
  exact ⟨_, .name n.toList s', by simp [Expr.bare, Expr.mapSpan]⟩

theorem UnitOf.attribute (h : UnitOf vs e) (s : Span) (a : Ident) :
    UnitOf (vs ++ [.dot, nameToken a.name]) (.attribute s e a) := by
  intro ts hts
  obtain ⟨us, ws, rfl, hus, hws⟩ := List.map_eq_append_iff.1 hts
  obtain ⟨d, s', rfl⟩ := eq_pair_of_map hws
  obtain ⟨p, hp, he⟩ := h us hus
  refine ⟨_, .member d a.name.toList s' hp, ?_⟩
  simp only [Expr.bare] at he
  simp [Phrase.attribute, Expr.bare, Expr.mapSpan, he, Ident.mapSpan, ident]

theorem UnitOf.index {k : Expr} (h : UnitOf vs e) (hk : ChainOf us k) (s : Span) :
    UnitOf (vs ++ (.lbracket :: us ++ [.rbracket])) (.index s e k) := by
  intro ts hts
  obtain ⟨xs, ys, rfl, hxs, hys⟩ := List.map_eq_append_iff.1 hts
  obtain ⟨a, zs, b, rfl, hzs⟩ := eq_bracketed_of_map hys
  obtain ⟨p, hp, he⟩ := h xs hxs
  obtain ⟨c, hc, hke⟩ := hk zs hzs
  refine ⟨_, .index a b hp hc, ?_⟩
  simp only [Expr.bare] at he hke
  simp [Phrase.index, Expr.bare, Expr.mapSpan, he, hke]

theorem UnitOf.binary {r : Expr} (h : UnitOf vs e) (hr : UnitOf us r) (op : Operator) :
    ChainOf (vs ++ .operator op :: us) (Expr.binary op e r) := by
  intro ts hts
  obtain ⟨xs, ys, rfl, hxs, hys⟩ := List.map_eq_append_iff.1 hts
  obtain ⟨s, zs, rfl, hzs⟩ := eq_cons_of_map hys
  obtain ⟨p, hp, he⟩ := h xs hxs
  obtain ⟨q, hq, hre⟩ := hr zs hzs
  refine ⟨_, .operator op s (.first hp) hq, ?_⟩
  have hclimb : (close (some (close none p, op)) q).expr = Expr.binary op p.expr q.expr := rfl
  rw [hclimb]
  simp only [Expr.bare] at he hre
  cases op <;> simp [Expr.binary, Expr.bare, Expr.mapSpan, he, hre]

/-! ## Argument lists -/

theorem ChainOf.positional (h : ChainOf vs e) : ArgumentOf vs (.positional e) := by
  intro ts hts
  obtain ⟨c, hc, he⟩ := h ts hts
  exact ⟨_, .positional hc, by simp [Argument.bare, he]⟩

theorem ChainOf.keyword (h : ChainOf vs e) (k : Ident) :
    ArgumentOf (nameToken k.name :: .assign :: vs) (.keyword k e) := by
  intro ts hts
  obtain ⟨s, us, rfl, hus⟩ := eq_cons_of_map hts
  obtain ⟨s', ws, rfl, hws⟩ := eq_cons_of_map hus
  obtain ⟨c, hc, he⟩ := h ws hws
  exact ⟨_, .keyword k.name.toList s s' hc, by simp [Argument.bare, he, Ident.mapSpan, ident]⟩

end

theorem commas_cons (ts : List Token) : ∀ rest : List (List Token),
    commas (ts :: rest) = ts ++ rest.flatMap (fun us => .comma :: us)
  | [] => by simp [commas]
  | us :: rest => by simp [commas, commas_cons us rest]

/-- Arguments after those that were read already; the induction adds the next one to them. -/
theorem reads_more : ∀ {pieces : List (List Token × Argument)},
    (∀ p ∈ pieces, ArgumentOf p.1 p.2) → ∀ {us ts : List (Located Token)}
    {a : Argument × Span} {done : List (Argument × Span)}, Reads us (.arguments (a :: done)) →
    ts.map Located.value = (pieces.map Prod.fst).flatMap (fun vs => .comma :: vs) →
    ∃ done', Reads (us ++ ts) (.arguments done') ∧ (arguments done').map Argument.bare =
      (arguments (a :: done)).map Argument.bare ++ pieces.map (fun p => p.2.bare)
  | [], _, us, ts, a, done, hr, hts => by
    obtain rfl : ts = [] := by simpa using hts
    exact ⟨a :: done, by simpa using hr, by simp⟩
  | p :: pieces, h, us, ts, a, done, hr, hts => by
    obtain ⟨hp, hrest⟩ := List.forall_mem_cons.1 h
    rw [List.map_cons, List.flatMap_cons] at hts
    obtain ⟨xs, ys, rfl, hxs, hys⟩ := List.map_eq_append_iff.1 hts
    obtain ⟨s, zs, rfl, hzs⟩ := eq_cons_of_map hxs
    obtain ⟨b, hb, hbare⟩ := hp zs hzs
    obtain ⟨done', hd, hlist⟩ := reads_more hrest (.moreArguments s hr hb) hys
    refine ⟨done', by simpa using hd, ?_⟩
    rw [hlist]
    simp [arguments, hbare]

/-- Arguments with commas between them are read as the list of them. -/
theorem argumentsOf_commas (pieces : List (List Token × Argument))
    (h : ∀ p ∈ pieces, ArgumentOf p.1 p.2) :
    ArgumentsOf (commas (pieces.map Prod.fst)) (pieces.map Prod.snd) := by
  intro ts hts
  cases pieces with
  | nil =>
    obtain rfl : ts = [] := by simpa [commas] using hts
    exact ⟨[], .noArguments, rfl⟩
  | cons p pieces =>
    obtain ⟨hp, hrest⟩ := List.forall_mem_cons.1 h
    rw [List.map_cons, commas_cons] at hts
    obtain ⟨xs, ys, rfl, hxs, hys⟩ := List.map_eq_append_iff.1 hts
    obtain ⟨b, hb, hbare⟩ := hp xs hxs
    obtain ⟨done, hd, hlist⟩ := reads_more hrest (.oneArgument hb) hys
    refine ⟨done, hd, ?_⟩
    rw [hlist]
    simp [arguments, hbare]

theorem positionals_bare : ∀ list : List Argument,
    mapSpans (fun _ => ⟨0, 0⟩) (Arguments.positionals list) =
      Arguments.positionals (list.map Argument.bare)
  | [] => rfl
  | .positional e :: rest => by
    simp [Arguments.positionals, Argument.bare, mapSpans, positionals_bare rest, Expr.bare]
  | .keyword k e :: rest => by
    simp [Arguments.positionals, Argument.bare, positionals_bare rest]

theorem keywords_bare : ∀ list : List Argument,
    mapKeywordSpans (fun _ => ⟨0, 0⟩) (Arguments.keywords list) =
      Arguments.keywords (list.map Argument.bare)
  | [] => rfl
  | .positional e :: rest => by
    simp [Arguments.keywords, Argument.bare, keywords_bare rest]
  | .keyword k e :: rest => by
    simp [Arguments.keywords, Argument.bare, mapKeywordSpans, keywords_bare rest, Expr.bare]

/-- The arguments of a call, positional ones first. -/
def argumentList (as : List Expr) (ks : List (Ident × Expr)) : List Argument :=
  as.map .positional ++ ks.map (fun k => .keyword k.1 k.2)

theorem positionals_argumentList (ks : List (Ident × Expr)) : ∀ as : List Expr,
    Arguments.positionals (argumentList as ks) = as
  | [] => by
    induction ks with
    | nil => rfl
    | cons k ks ih => simpa [argumentList, Arguments.positionals] using ih
  | e :: as => by
    have := positionals_argumentList ks as
    simpa [argumentList, Arguments.positionals] using this

theorem keywords_argumentList (ks : List (Ident × Expr)) : ∀ as : List Expr,
    Arguments.keywords (argumentList as ks) = ks
  | [] => by
    induction ks with
    | nil => rfl
    | cons k ks ih => simpa [argumentList, Arguments.keywords] using ih
  | e :: as => by
    have := keywords_argumentList ks as
    simpa [argumentList, Arguments.keywords] using this

/-- Lists of arguments that agree up to places have the same arguments up to places. -/
theorem mapSpans_of_bare {list list' : List Argument}
    (h : list.map Argument.bare = list'.map Argument.bare) :
    mapSpans (fun _ => ⟨0, 0⟩) (Arguments.positionals list) =
        mapSpans (fun _ => ⟨0, 0⟩) (Arguments.positionals list') ∧
      mapKeywordSpans (fun _ => ⟨0, 0⟩) (Arguments.keywords list) =
        mapKeywordSpans (fun _ => ⟨0, 0⟩) (Arguments.keywords list') := by
  rw [positionals_bare, positionals_bare, keywords_bare, keywords_bare, h]
  exact ⟨rfl, rfl⟩

theorem ordered_of_bare {done : List (Argument × Span)} {as : List Expr}
    {ks : List (Ident × Expr)}
    (h : (arguments done).map Argument.bare = (argumentList as ks).map Argument.bare)
    (hn : (ks.map (fun k => k.1.name)).Nodup) : Arguments.Ordered (done.reverse.map keyword?) := by
  refine ⟨as.length, ks.map (fun k => k.1.name), ?_, hn⟩
  have hnames : ∀ list : List Argument,
      list.map Argument.name? = (list.map Argument.bare).map Argument.name? := by
    intro list
    rw [List.map_map]
    exact List.map_congr_left fun a _ => (Argument.name?_bare a).symm
  have hdone : done.reverse.map keyword? = (arguments done).map Argument.name? := by
    rw [arguments, List.map_map]
    refine List.map_congr_left ?_
    rintro ⟨_ | _, _⟩ - <;> rfl
  rw [hdone, hnames, h, ← hnames]
  simp [argumentList, Function.comp_def, Argument.name?, List.map_const']

section
variable {vs us : List Token} {e : Expr} {as : List Expr} {ks : List (Ident × Expr)}

theorem UnitOf.call (h : UnitOf vs e) (ha : ArgumentsOf us (argumentList as ks))
    (hn : (ks.map (fun k => k.1.name)).Nodup) (s : Span) :
    UnitOf (vs ++ (.lparen :: us ++ [.rparen])) (.call s e as ks) := by
  intro ts hts
  obtain ⟨xs, ys, rfl, hxs, hys⟩ := List.map_eq_append_iff.1 hts
  obtain ⟨a, zs, b, rfl, hzs⟩ := eq_bracketed_of_map hys
  obtain ⟨p, hp, he⟩ := h xs hxs
  obtain ⟨done, hd, hlist⟩ := ha zs hzs
  refine ⟨_, .call a b hp hd (ordered_of_bare hlist hn), ?_⟩
  obtain ⟨hpos, hkey⟩ := mapSpans_of_bare hlist
  rw [positionals_argumentList] at hpos
  rw [keywords_argumentList] at hkey
  simp only [Expr.bare] at he
  simp [Phrase.call, Expr.bare, Expr.mapSpan, he, hpos, hkey]

/-! ## Filters -/

theorem dotted_cons (i : Ident) : ∀ rest : List Ident,
    dotted (i :: rest) =
      nameToken i.name :: rest.flatMap (fun j => [.dot, nameToken j.name])
  | [] => rfl
  | j :: rest => by simp [dotted, dotted_cons j rest]

/-- Segments after those that were read already. -/
theorem reads_moreSegments : ∀ {segments : List Ident} {us ts : List (Located Token)}
    {f : FilterName}, Reads us (.name f) →
    ts.map Located.value = segments.flatMap (fun i => [.dot, nameToken i.name]) →
    ∃ f', Reads (us ++ ts) (.name f') ∧ f'.segments.reverse.map Ident.name =
      f.segments.reverse.map Ident.name ++ segments.map Ident.name
  | [], us, ts, f, hr, hts => by
    obtain rfl : ts = [] := by simpa using hts
    exact ⟨f, by simpa using hr, by simp⟩
  | i :: segments, us, ts, f, hr, hts => by
    rw [List.flatMap_cons] at hts
    obtain ⟨xs, ys, rfl, hxs, hys⟩ := List.map_eq_append_iff.1 hts
    obtain ⟨d, s, rfl⟩ := eq_pair_of_map hxs
    obtain ⟨f', hf', hnames⟩ := reads_moreSegments (.filterSegment d i.name.toList s hr) hys
    exact ⟨f', by simpa [nameToken] using hf', by simp [hnames, ident]⟩

theorem nameOf_dotted {segments : List Ident} (h : segments ≠ []) :
    NameOf (.pipe :: dotted segments) segments := by
  intro ts hts
  obtain ⟨i, rest, rfl⟩ := List.exists_cons_of_ne_nil h
  rw [dotted_cons] at hts
  obtain ⟨a, us, rfl, hus⟩ := eq_cons_of_map hts
  obtain ⟨s, ws, rfl, hws⟩ := eq_cons_of_map hus
  obtain ⟨f, hf, hnames⟩ := reads_moreSegments (.filterName a i.name.toList s) hws
  exact ⟨f, hf, by simp [hnames, ident]⟩

/-- A filter at the end of a chain is applied to the tree of the chain before it. -/
theorem climb_filter (f : FilterCall) (first : Expr) (rest : List Segment) :
    Expr.climb first (rest ++ [.filter f]) = Expr.applyFilter (Expr.climb first rest) f := by
  have hfrom : ∀ (rest : List Segment) (waiting : Expr.Waiting) (current : Expr),
      Expr.climbFrom waiting current (rest ++ [.filter f]) =
        Expr.applyFilter (Expr.climbFrom waiting current rest) f := by
    intro rest
    induction rest with
    | nil => exact fun _ _ => rfl
    | cons segment rest ih =>
      intro waiting current
      cases segment with
      | operator op operand => exact ih _ _
      | filter g => exact ih _ _
  exact hfrom rest [] first

theorem bare_pipe {c : Chain} {f : FilterName} {n : DottedName} {list : List Argument}
    (he : c.expr.bare = e.bare)
    (hn : f.segments.reverse.map Ident.name = n.segments.map Ident.name)
    (hlist : list.map Argument.bare = (argumentList as ks).map Argument.bare)
    (stop : Nat) (s : Span) :
    (c.pipe (f.call stop list)).expr.bare = (Expr.filter s e n as ks).bare := by
  obtain ⟨hpos, hkey⟩ := mapSpans_of_bare hlist
  rw [positionals_argumentList] at hpos
  rw [keywords_argumentList] at hkey
  have hname : ∀ segments : List Ident,
      segments.map (Ident.mapSpan fun _ => ⟨0, 0⟩) =
        (segments.map Ident.name).map (fun name => (⟨name, ⟨0, 0⟩⟩ : Ident)) := by
    intro segments
    rw [List.map_map]
    rfl
  have hclimb : (c.pipe (f.call stop list)).expr =
      Expr.applyFilter c.expr (f.call stop list) := by
    simp only [Chain.pipe, Chain.expr, List.reverse_cons]
    exact climb_filter _ _ _
  rw [hclimb]
  simp only [Expr.bare] at he
  simp only [Expr.applyFilter, FilterName.call, Expr.bare, Expr.mapSpan, he, hpos, hkey,
    DottedName.mapSpan, hname, hn]

theorem ChainOf.filter {n : DottedName} (h : ChainOf vs e) (hn : NameOf us n.segments)
    (s : Span) : ChainOf (vs ++ us) (.filter s e n [] []) := by
  intro ts hts
  obtain ⟨xs, ys, rfl, hxs, hys⟩ := List.map_eq_append_iff.1 hts
  obtain ⟨c, hc, he⟩ := h xs hxs
  obtain ⟨f, hf, hnames⟩ := hn ys hys
  have hlist : ([] : List Argument).map Argument.bare = (argumentList [] []).map Argument.bare :=
    rfl
  exact ⟨_, .filter hc hf, bare_pipe he hnames hlist _ s⟩

theorem ChainOf.filterCall {ws : List Token} {n : DottedName} (h : ChainOf vs e)
    (hn : NameOf us n.segments) (ha : ArgumentsOf ws (argumentList as ks))
    (hk : (ks.map (fun k => k.1.name)).Nodup) (s : Span) :
    ChainOf (vs ++ (us ++ (.lparen :: ws ++ [.rparen]))) (.filter s e n as ks) := by
  intro ts hts
  obtain ⟨xs, ys, rfl, hxs, hys⟩ := List.map_eq_append_iff.1 hts
  obtain ⟨zs, ps, rfl, hzs, hps⟩ := List.map_eq_append_iff.1 hys
  obtain ⟨a, qs, b, rfl, hqs⟩ := eq_bracketed_of_map hps
  obtain ⟨c, hc, he⟩ := h xs hxs
  obtain ⟨f, hf, hnames⟩ := hn zs hzs
  obtain ⟨done, hd, hlist⟩ := ha qs hqs
  exact ⟨_, .filterCall a b hc hf hd (ordered_of_bare hlist hk), bare_pipe he hnames hlist _ s⟩

end

/-! ## Printing and reading -/

/-- What an expression is printed as is read as it, and in parentheses, where it needs them, as an
operand. -/
structure ReadBack (st : Style) (e : Expr) : Prop where
  chain : ChainOf (e.tokens st) e
  unit : UnitOf (grouped e.isApplication (e.tokens st)) e

theorem UnitOf.readBack {st : Style} {e : Expr} (h : UnitOf (e.tokens st) e)
    (he : e.isApplication = false) : ReadBack st e :=
  ⟨h.chain, by rw [he]; exact h⟩

theorem ChainOf.readBack {st : Style} {e : Expr} (h : ChainOf (e.tokens st) e)
    (he : e.isApplication = true) : ReadBack st e :=
  ⟨h, by rw [he]; exact h.group⟩

theorem ReadBack.input {st : Style} {e : Expr} (h : ReadBack st e) :
    ChainOf (grouped (st.groupsInput && e.isApplication) (e.tokens st)) e := by
  cases st.groupsInput with
  | true => simpa using h.unit.chain
  | false => simpa [grouped] using h.chain

theorem tokensAll_eq_map (st : Style) : ∀ es : List Expr,
    Expr.tokensAll st es = es.map (Expr.tokens st)
  | [] => rfl
  | e :: es => by rw [Expr.tokensAll, tokensAll_eq_map st es, List.map_cons]

theorem tokensKeywords_eq_map (st : Style) : ∀ ks : List (Ident × Expr),
    Expr.tokensKeywords st ks =
      ks.map (fun k => nameToken k.1.name :: .assign :: k.2.tokens st)
  | [] => rfl
  | (k, e) :: ks => by rw [Expr.tokensKeywords, tokensKeywords_eq_map st ks, List.map_cons]

theorem argumentsOf_tokens {st : Style} {as : List Expr} {ks : List (Ident × Expr)}
    (ha : ∀ e ∈ as, ReadBack st e) (hk : ∀ k ∈ ks, ReadBack st k.2) :
    ArgumentsOf (commas (Expr.tokensAll st as ++ Expr.tokensKeywords st ks))
      (argumentList as ks) := by
  have h := argumentsOf_commas
    (as.map (fun e => (e.tokens st, .positional e)) ++
      ks.map (fun k => (nameToken k.1.name :: .assign :: k.2.tokens st, .keyword k.1 k.2))) (by
    intro p hp
    rcases List.mem_append.1 hp with hp | hp
    · obtain ⟨e, he, rfl⟩ := List.mem_map.1 hp
      exact (ha e he).chain.positional
    · obtain ⟨k, hmem, rfl⟩ := List.mem_map.1 hp
      exact (hk k hmem).chain.keyword k.1)
  simpa [tokensAll_eq_map, tokensKeywords_eq_map, argumentList, Function.comp_def] using h

mutual

/-- **What is printed in any style is read as the tree that was printed.** -/
theorem reads_tokens (st : Style) : ∀ e : Expr, e.Printable → ReadBack st e
  | .literal s v, h => UnitOf.readBack (by rw [Expr.tokens]; exact unitOf_literal h s) rfl
  | .name s n, _ => UnitOf.readBack (by rw [Expr.tokens]; exact unitOf_name s n) rfl
  | .attribute s b a, h =>
    UnitOf.readBack (by rw [Expr.tokens]; exact (reads_tokens st b h.1).unit.attribute s a) rfl
  | .index s b k, h => by
    refine UnitOf.readBack ?_ rfl
    rw [Expr.tokens]
    exact (reads_tokens st b h.1).unit.index (reads_tokens st k h.2).chain s
  | .arith s op l r, h => by
    refine ChainOf.readBack ?_ rfl
    rw [Expr.tokens]
    exact (reads_tokens st l h.1).unit.binary (reads_tokens st r h.2).unit (.arith op)
  | .compare s op l r, h => by
    refine ChainOf.readBack ?_ rfl
    rw [Expr.tokens]
    exact (reads_tokens st l h.1).unit.binary (reads_tokens st r h.2).unit (.compare op)
  | .logic s op l r, h => by
    refine ChainOf.readBack ?_ rfl
    rw [Expr.tokens]
    exact (reads_tokens st l h.1).unit.binary (reads_tokens st r h.2).unit (.logic op)
  | .call s c as ks, h => by
    obtain ⟨hc, ha, hk, hn⟩ := h
    refine UnitOf.readBack ?_ rfl
    rw [Expr.tokens]
    exact (reads_tokens st c hc).unit.call
      (argumentsOf_tokens (reads_tokensAll st as ha) (reads_tokensKeywords st ks hk)) hn s
  | .filter s i n as ks, h => by
    obtain ⟨hi, hne, -, ha, hk, hn⟩ := h
    refine ChainOf.readBack ?_ rfl
    rw [Expr.tokens]
    have hinput := (reads_tokens st i hi).input
    split
    · rename_i hnone
      simp only [Bool.and_eq_true, List.isEmpty_iff] at hnone
      obtain ⟨⟨rfl, rfl⟩, -⟩ := hnone
      simpa using hinput.filter (nameOf_dotted hne) s
    · exact hinput.filterCall (nameOf_dotted hne)
        (argumentsOf_tokens (reads_tokensAll st as ha) (reads_tokensKeywords st ks hk)) hn s

theorem reads_tokensAll (st : Style) : ∀ es : List Expr, PrintableAll es →
    ∀ e ∈ es, ReadBack st e
  | [], _ => by simp
  | e :: es, h =>
    List.forall_mem_cons.2 ⟨reads_tokens st e h.1, reads_tokensAll st es h.2⟩

theorem reads_tokensKeywords (st : Style) : ∀ ks : List (Ident × Expr), PrintableKeywords ks →
    ∀ k ∈ ks, ReadBack st k.2
  | [], _ => by simp
  | (_, e) :: ks, h =>
    List.forall_mem_cons.2 ⟨reads_tokens st e h.2.1, reads_tokensKeywords st ks h.2.2⟩

end

/-! ## Tokens side by side -/

theorem next?_not (s : State) (b : Span) : s.next? ⟨.not, b⟩ = none := by
  obtain ⟨mode, os⟩ := s
  cases mode <;> rfl

/-- After an operator an operand is waited for, and an operator is none. -/
theorem next?_operator {s s' : State} {op : Operator} {a : Span}
    (h : s.next? ⟨.operator op, a⟩ = some s') (op' : Operator) (b : Span) :
    s'.next? ⟨.operator op', b⟩ = none := by
  obtain ⟨mode, os⟩ := s
  have hbind : mode.chain?.bind (fun c => afterChain c os ⟨.operator op, a⟩) = some s' := by
    cases mode <;> exact h
  obtain ⟨c, -, hc⟩ := Option.bind_eq_some_iff.1 hbind
  obtain rfl : (⟨.operand (some (c, op)), os⟩ : State) = s' := by
    unfold afterChain at hc
    exact Option.some.inj hc
  rfl

/-- The parser takes no two tokens that the scanner would have joined. -/
theorem unjoined_of_reads {ts : List (Located Token)} {c : Chain} (h : Reads ts (.chain c)) :
    Token.Unjoined (ts.map Located.value) := by
  intro us t u vs hts
  obtain ⟨mode, hr, -⟩ := h.runs []
  obtain ⟨xs, ys, rfl, -, hys⟩ := List.map_eq_append_iff.1 hts
  obtain ⟨a, zs, rfl, hzs⟩ := eq_cons_of_map hys
  obtain ⟨b, ws, rfl, -⟩ := eq_cons_of_map hzs
  obtain ⟨s, -, hs⟩ := run_of_run_append hr
  obtain ⟨m, hm, hrest⟩ := step_of_run_cons hs
  obtain ⟨m', hm', -⟩ := step_of_run_cons hrest
  replace hm := (step_eq_ok_iff.1 hm).1
  replace hm' := (step_eq_ok_iff.1 hm').1
  cases hj : Token.joins t u with
  | false => rfl
  | true =>
    unfold Token.joins at hj
    split at hj
    · rw [next?_not] at hm
      cases hm
    · rw [next?_not] at hm'
      cases hm'
    · rw [next?_operator hm] at hm'
      cases hm'
    · cases hj

end Parser

namespace Expr

/-- **Parsing what was printed gives the tree back**, up to the places in it, in any style. -/
theorem parse_print (st : Style) (e : Expr) (h : e.Printable) :
    ∃ e', Expr.parse (e.print st) = .ok e' ∧ e'.bare = e.bare := by
  have hread := (Parser.reads_tokens st e h).chain
  have hunjoined : Token.Unjoined (e.tokens st) := by
    have hmap : ((e.tokens st).map fun t => (⟨t, ⟨0, 0⟩⟩ : Located Token)).map Located.value =
        e.tokens st := by simp [Function.comp_def]
    obtain ⟨c, hc, -⟩ := hread _ hmap
    exact hmap ▸ Parser.unjoined_of_reads hc
  obtain ⟨ts, hscan, hts⟩ := Token.scan_text st.toLayout (proper_tokens st h) hunjoined 0
  obtain ⟨c, hc, hbare⟩ := hread ts hts
  exact ⟨c.expr, (parse_eq_ok_iff hscan).2 ⟨c, hc, rfl⟩, hbare⟩

/-- `(a+1).b|app.f(x not in"s",k=2)` -/
def sample : Expr :=
  .filter ⟨0, 0⟩
    (.attribute ⟨0, 0⟩
      (.arith ⟨0, 0⟩ .add (.name ⟨0, 0⟩ "a") (.literal ⟨0, 0⟩ (.int 1))) ⟨"b", ⟨0, 0⟩⟩)
    ⟨[⟨"app", ⟨0, 0⟩⟩, ⟨"f", ⟨0, 0⟩⟩]⟩
    [.compare ⟨0, 0⟩ .notMem (.name ⟨0, 0⟩ "x") (.literal ⟨0, 0⟩ (.str "s"))]
    [(⟨"k", ⟨0, 0⟩⟩, .literal ⟨0, 0⟩ (.int 2))]

theorem parse_print_sample :
    sample.print .tight = "(a+1).b|app.f(x not in\"s\",k=2)".toList ∧
      ∃ e', Expr.parse (sample.print .tight) = .ok e' ∧ e'.bare = sample.bare :=
  ⟨rfl, parse_print .tight sample (by
    simp only [sample, Expr.Printable, PrintableAll, PrintableKeywords, Literal.Printable]
    decide)⟩

end Expr
end Stencil
