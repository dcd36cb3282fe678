import Stencil.Proofs.Expr.Nesting

/-!
# Where an expression is refused

The parser refuses a token, the end of the input or an argument list. A list is refused as a whole, so
what the state remembers of the tokens it took has to stand in a row like the tokens themselves
(`Reads.extent`, `Holds.openFailure`).
-/
namespace Stencil

open Places (leaf)

section
variable {source : List Char} {a b m n : Nat} {s t : Span}

theorem Row.join (hs : Row source a m [leaf s]) (ht : Row source m b [leaf t]) :
    Row source a b [leaf (s.cover t)] := Token.row_joined (hs.append ht)

/-- From the first place of a row to its last. -/
theorem Row.proper_cover {ts : List Places} {t u : Places} (h : Row source a b ts)
    (ht : ts.head? = some t) (hu : ts.getLast? = some u) :
    Span.Proper source (t.span.cover u.span) := by
  obtain ⟨front, rfl⟩ := List.getLast?_eq_some_iff.1 hu
  obtain ⟨hrow, hproper, -⟩ := h.last
  obtain ⟨rest, hrest⟩ := List.head?_eq_some_iff.1 ht
  rw [hrest] at hrow
  obtain ⟨-, hfirst, htail⟩ := hrow
  have hlt : t.span.start < u.span.stop := Nat.lt_of_lt_of_le hfirst.proper.lt htail.le
  exact ⟨hlt, hfirst.proper.start, hproper.stop⟩

namespace Parser

variable {ts us vs : List (Located Token)}

/-! ## What the parts cover -/

/-- What the part covers stands between the offsets; the arguments of a list one behind the other. -/
def Part.Covers (source : List Char) (a b : Nat) : Part → Prop
  | .unit p => Stencil.Row source a b [leaf p.extent]
  | .chain c => Stencil.Row source a b [leaf c.extent]
  | .name f => Stencil.Row source a b [leaf ⟨f.start, f.stop⟩]
  | .argument p => Stencil.Row source a b [leaf p.2]
  | .arguments done => Stencil.Row source a b (done.reverse.map fun p => leaf p.2)

/-- **A part covers its tokens**, from the first to the last. -/
theorem Reads.covers {part : Part} (h : Reads ts part) :
    ∀ {a b : Nat}, Row source a b (Token.places ts) → part.Covers source a b := by
  induction h with
  | literal _ => exact id
  | name text s => exact id
  | @group ts c s t _ _ =>
    intro a b hrow
    have hparens : [leaf s, leaf t].Sublist
        (Token.places (⟨.lparen, s⟩ :: ts ++ [⟨.rparen, t⟩])) := by simp
    exact Token.row_joined (hrow.sublist hparens)
  | @member ts p d text s _ ih =>
    intro a b hrow
    have hdot : (Token.places ts ++ [leaf s]).Sublist
        (Token.places (ts ++ [⟨.dot, d⟩, ⟨.name text, s⟩])) := by simp
    obtain ⟨m, hts, hs⟩ := row_append.1 (hrow.sublist hdot)
    exact (ih hts).join hs
  | @index ts us p c s t _ _ ih _ =>
    intro a b hrow
    have hbracket : (Token.places ts ++ [leaf t]).Sublist
        (Token.places (ts ++ (⟨.lbracket, s⟩ :: us ++ [⟨.rbracket, t⟩]))) := by simp
    obtain ⟨m, hts, ht⟩ := row_append.1 (hrow.sublist hbracket)
    exact (ih hts).join ht
  | @call ts us p done s t _ _ _ ih _ =>
    intro a b hrow
    have hparen : (Token.places ts ++ [leaf t]).Sublist
        (Token.places (ts ++ (⟨.lparen, s⟩ :: us ++ [⟨.rparen, t⟩]))) := by simp
    obtain ⟨m, hts, ht⟩ := row_append.1 (hrow.sublist hparen)
    exact (ih hts).join ht
  | first _ ih => exact ih
  | @operator ts us c p op s _ _ ih iho =>
    intro a b hrow
    have hsides : (Token.places ts ++ Token.places us).Sublist
        (Token.places (ts ++ ⟨.operator op, s⟩ :: us)) := by simp
    obtain ⟨m, hts, hus⟩ := row_append.1 (hrow.sublist hsides)
    exact (ih hts).join (iho hus)
  | filter _ _ ih ihf =>
    intro a b hrow
    rw [Token.places_append] at hrow
    obtain ⟨m, hts, hus⟩ := row_append.1 hrow
    exact (ih hts).join (ihf hus)
  | @filterValue ts us c f d t v _ _ _ ih _ =>
    intro a b hrow
    have hvalue : (Token.places ts ++ [leaf t.span]).Sublist
        (Token.places (ts ++ (us ++ [⟨.colon, d⟩, t]))) := by simp
    obtain ⟨m, hts, ht⟩ := row_append.1 (hrow.sublist hvalue)
    have hcall : Row source a b [leaf (c.extent.cover t.span)] := (ih hts).join ht
    exact hcall
  | @filterCall ts us vs c f done s t _ _ _ _ ih _ _ =>
    intro a b hrow
    have hparen : (Token.places ts ++ [leaf t]).Sublist
        (Token.places (ts ++ (us ++ (⟨.lparen, s⟩ :: vs ++ [⟨.rparen, t⟩])))) := by simp
    obtain ⟨m, hts, ht⟩ := row_append.1 (hrow.sublist hparen)
    have hcall : Row source a b [leaf (c.extent.cover t)] := (ih hts).join ht
    exact hcall
  | filterName s text t => exact Token.row_joined
  | @filterSegment ts f d text s _ ih =>
    intro a b hrow
    have hdot : (Token.places ts ++ [leaf s]).Sublist
        (Token.places (ts ++ [⟨.dot, d⟩, ⟨.name text, s⟩])) := by simp
    obtain ⟨m, hts, hs⟩ := row_append.1 (hrow.sublist hdot)
    exact (ih hts).join hs
  | positional _ ih => exact ih
  | @keyword ts c text s e _ ih =>
    intro a b hrow
    have hassign : ([leaf s] ++ Token.places ts).Sublist
        (Token.places (⟨.name text, s⟩ :: ⟨.assign, e⟩ :: ts)) := by simp
    obtain ⟨m, hs, hts⟩ := row_append.1 (hrow.sublist hassign)
    exact hs.join (ih hts)
  | noArguments => exact id
  | oneArgument _ ih => exact ih
  | @moreArguments ts us p q done s _ _ ih iha =>
    intro a b hrow
    have hcomma : (Token.places ts ++ Token.places us).Sublist
        (Token.places (ts ++ ⟨.comma, s⟩ :: us)) := by simp
    obtain ⟨m, hts, hus⟩ := row_append.1 (hrow.sublist hcomma)
    have hrow := Row.append (ih hts) (iha hus)
    simpa [Part.Covers] using hrow

/-! ## What a state covers -/

/-- The place of a span, if there is one. -/
def extentPlaces (s : Option Span) : List Places := s.toList.map leaf

theorem LeftHolds.covers {left : Left} (h : LeftHolds ts left)
    (hrow : Row source a b (Token.places ts)) :
    Row source a b (extentPlaces (leftExtent left)) := by
  cases h with
  | none => exact hrow
  | @some ts c op s hc =>
    have hchain : (Token.places ts).Sublist (Token.places (ts ++ [⟨.operator op, s⟩])) := by simp
    exact hc.covers (hrow.sublist hchain)

/-- A filter whose name breaks off covers its input and the name. -/
theorem namedExtent_of_reads {c : Chain} {f : FilterName} (h : Reads us (.name f)) :
    namedExtent c f = (c.pipe (f.call f.stop [])).extent := by
  cases h <;> rfl

theorem covers_named {c : Chain} {f : FilterName} (hc : Reads ts (.chain c))
    (hf : Reads us (.name f)) (hrow : Row source a b (Token.places (ts ++ us))) :
    Row source a b [leaf (namedExtent c f)] := by
  rw [namedExtent_of_reads hf]
  exact (Reads.filter hc hf).covers hrow

theorem ModeHolds.covers {mode : Mode} (h : ModeHolds ts mode)
    (hrow : Row source a b (Token.places ts)) :
    Row source a b (extentPlaces mode.extent?) := by
  cases h with
  | operand hl => exact hl.covers hrow
  | unit hl hp => exact (hl.close hp).covers hrow
  | name text s hl => exact (hl.close (.name text s)).covers hrow
  | @member ts us left p d hl hp =>
    have hbase : (Token.places (ts ++ us)).Sublist
        (Token.places (ts ++ (us ++ [⟨.dot, d⟩]))) := by simp
    exact (hl.close hp).covers (hrow.sublist hbase)
  | @pipe ts c s hc =>
    have hchain : (Token.places ts).Sublist (Token.places (ts ++ [⟨.pipe, s⟩])) := by simp
    exact hc.covers (hrow.sublist hchain)
  | @dot ts us c f d hc hf =>
    have hname : (Token.places (ts ++ us)).Sublist
        (Token.places (ts ++ (us ++ [⟨.dot, d⟩]))) := by simp
    exact covers_named hc hf (hrow.sublist hname)
  | filterNamed hc hf => exact covers_named hc hf hrow
  | @filterValue ts us c f d hc hf =>
    have hname : (Token.places (ts ++ us)).Sublist
        (Token.places (ts ++ (us ++ [⟨.colon, d⟩]))) := by simp
    exact covers_named hc hf (hrow.sublist hname)
  | filtered hc => exact hc.covers hrow

theorem DoneHolds.covers {done : List (Argument × Span)} (h : DoneHolds ts done)
    (hrow : Row source a b (Token.places ts)) :
    Row source a b (done.reverse.map fun p => leaf p.2) := by
  cases h with
  | nil => exact hrow
  | @cons ts p done s hd =>
    have hlist : (Token.places ts).Sublist (Token.places (ts ++ [⟨.comma, s⟩])) := by simp
    exact hd.covers (hrow.sublist hlist)

/-- The places of an outlined list. -/
def outlinePlaces (outline : List (Option String × Span)) : List Places :=
  outline.map fun p => leaf p.2

/-- What the last argument of a list covers: its keyword and its value, if these are there. -/
def ArgumentList.lastExtent (l : ArgumentList) (value : Option Span) : Option Span :=
  match l.keyword, value with
  | none, value => value
  | some k, none => some k.span
  | some k, some s => some (k.span.cover s)

theorem outlinePlaces_outline (l : ArgumentList) (value : Option Span) :
    outlinePlaces (l.outline value) =
      (l.done.reverse.map fun p => leaf p.2) ++ extentPlaces (l.lastExtent value) := by
  obtain ⟨done, _ | k⟩ := l <;> cases value <;>
    simp only [outlinePlaces, ArgumentList.outline, List.map_append, List.map_map] <;>
    congr 1 <;> refine List.map_congr_left ?_ <;> rintro ⟨_ | _, _⟩ - <;> rfl

/-- An argument list covers its tokens and those of the expression behind them. -/
theorem ListHolds.covers {l : ArgumentList} {value : Option Span} (h : ListHolds ts l)
    (hrow : Row source a m (Token.places ts)) (hv : Row source m b (extentPlaces value)) :
    Row source a b (outlinePlaces (l.outline value)) := by
  rw [outlinePlaces_outline]
  cases h with
  | positional hd => exact (hd.covers hrow).append hv
  | @keyword ts done text s e hd =>
    have hname : (Token.places ts ++ [leaf s]).Sublist
        (Token.places (ts ++ [⟨.name text, s⟩, ⟨.assign, e⟩])) := by simp
    obtain ⟨n, hts, hs⟩ := row_append.1 (hrow.sublist hname)
    refine (hd.covers hts).append ?_
    cases value with
    | none => exact hs.mono (Nat.le_refl n) hv
    | some v => exact hs.join hv

/-- What an opening and its argument list cover. -/
theorem OpeningHolds.covers {o : Opening} (h : OpeningHolds ts o)
    (hrow : Row source a m (Token.places ts)) :
    Row source a m (extentPlaces o.extent?) ∧
      ∀ {inner : Option Span} {b : Nat}, Row source m b (extentPlaces inner) →
        ∀ l ∈ o.arguments?, ∃ n, Row source n b (outlinePlaces (l.outline inner)) := by
  cases h with
  | @group ts left s hl =>
    have hleft : (Token.places ts).Sublist (Token.places (ts ++ [⟨.lparen, s⟩])) := by simp
    exact ⟨hl.covers (hrow.sublist hleft), by simp [Opening.arguments?]⟩
  | @index ts us left p s hl hp =>
    have hbase : (Token.places (ts ++ us)).Sublist
        (Token.places (ts ++ (us ++ [⟨.lbracket, s⟩]))) := by simp
    exact ⟨(hl.close hp).covers (hrow.sublist hbase), by simp [Opening.arguments?]⟩
  | @call ts us vs left p l s hl hp hv =>
    have hparts : (Token.places (ts ++ us) ++ Token.places vs).Sublist
        (Token.places (ts ++ (us ++ ⟨.lparen, s⟩ :: vs))) := by simp
    obtain ⟨n, hcallee, hvs⟩ := row_append.1 (hrow.sublist hparts)
    refine ⟨((hl.close hp).covers hcallee).mono (Nat.le_refl a) hvs.le, fun hinner l' hl' => ?_⟩
    obtain rfl := Option.some.inj hl'
    exact ⟨n, hv.covers hvs hinner⟩
  | @filterCall ts us vs c f l s hc hf hv =>
    have hparts : (Token.places (ts ++ us) ++ Token.places vs).Sublist
        (Token.places (ts ++ (us ++ ⟨.lparen, s⟩ :: vs))) := by simp
    obtain ⟨n, hname, hvs⟩ := row_append.1 (hrow.sublist hparts)
    refine ⟨(covers_named hc hf hname).mono (Nat.le_refl a) hvs.le, fun hinner l' hl' => ?_⟩
    obtain rfl := Option.some.inj hl'
    exact ⟨n, hv.covers hvs hinner⟩

/-! ## Refusals -/

/-- A refused argument list is a piece of the source. -/
theorem proper_outlineFailure {outline : List (Option String × Span)} {f : Failure}
    (hrow : Row source a b (outlinePlaces outline)) (h : outlineFailure? outline = some f) :
    f.span.Proper source := by
  unfold outlineFailure? at h
  split at h
  · rename_i fault p q _ hp hq
    obtain rfl := Option.some.inj h
    have hfirst : (outlinePlaces outline).head? = some (leaf p.2) := by
      rw [outlinePlaces, List.head?_map, hp, Option.map_some]
    have hlast : (outlinePlaces outline).getLast? = some (leaf q.2) := by
      rw [outlinePlaces, List.getLast?_map, hq, Option.map_some]
    exact hrow.proper_cover hfirst hlast
  · cases h

theorem OpeningsHold.proper {os : List Opening} (h : OpeningsHold ts os) :
    ∀ {m b : Nat} {inner : Option Span}, Row source a m (Token.places ts) →
      Row source m b (extentPlaces inner) → ∀ f ∈ openFailure? inner os, f.span.Proper source := by
  induction h with
  | nil => simp [openFailure?]
  | @cons ts us o os _ ho ih =>
    intro m b inner hrow hinner f hf
    rw [Token.places_append] at hrow
    obtain ⟨n, hts, hus⟩ := row_append.1 hrow
    obtain ⟨hextent, hargs⟩ := ho.covers hus
    rw [openFailure?, Option.mem_def] at hf
    split at hf
    · rename_i outer houter
      obtain rfl := Option.some.inj hf
      exact ih hts hextent outer houter
    · obtain ⟨l, hl, hf⟩ := Option.bind_eq_some_iff.1 hf
      obtain ⟨k, hlist⟩ := hargs hinner l hl
      exact proper_outlineFailure hlist hf

/-- A refusal is placed where the parser stopped or at an argument list before it. -/
theorem Holds.fail {s : State} (h : Holds ts s) (hrow : Row source a b (Token.places ts))
    (problem : Problem) (span : Span) :
    (s.fail problem span).span.Proper source ∨ (s.fail problem span).span = span := by
  obtain ⟨hos, hm⟩ := h
  rw [Token.places_append] at hrow
  obtain ⟨m, hts, hus⟩ := row_append.1 hrow
  have hopen := hos.proper hts (hm.covers hus)
  rw [State.fail]
  cases hf : openFailure? _ _ with
  | none => exact .inr rfl
  | some f => exact .inl (hopen f hf)

/-- The list that is refused at its end is that of the innermost opening. -/
theorem endFailure?_eq_some {s : State} {t : Token} {f : Failure} (h : s.endFailure? t = some f) :
    ∃ o outer l c, s.openings = o :: outer ∧ o.arguments? = some l ∧ s.mode.chain? = some c ∧
      outlineFailure? (l.outline (some c.extent)) = some f := by
  unfold State.endFailure? at h
  split at h
  · rename_i hos
    obtain ⟨c, hc, hf⟩ := Option.bind_eq_some_iff.1 h
    exact ⟨_, _, _, c, hos, rfl, hc, hf⟩
  · rename_i hos
    obtain ⟨c, hc, hf⟩ := Option.bind_eq_some_iff.1 h
    exact ⟨_, _, _, c, hos, rfl, hc, hf⟩
  · cases h

theorem Holds.endFailure {s : State} {t : Token} {f : Failure} (h : Holds ts s)
    (hrow : Row source a b (Token.places ts)) (hf : s.endFailure? t = some f) :
    f.span.Proper source := by
  obtain ⟨o, outer, l, c, hopenings, hl, hc, hlist⟩ := endFailure?_eq_some hf
  obtain ⟨hos, hm⟩ := h
  dsimp only at hopenings hc
  subst hopenings
  obtain - | ⟨-, ho⟩ := hos
  rw [Token.places_append, Token.places_append] at hrow
  obtain ⟨m, houter, hvs⟩ := row_append.1 hrow
  obtain ⟨n, -, hus⟩ := row_append.1 houter
  have hchain : Row source m b (extentPlaces (some c.extent)) := (hm.chain hc).covers hvs
  obtain ⟨k, houtline⟩ := (ho.covers hus).2 hchain l hl
  exact proper_outlineFailure houtline hlist

/-- **A step that refuses its token points at a piece of the source.** -/
theorem Holds.step_error {s : State} {t : Located Token} {f : Failure} (h : Holds ts s)
    (hrow : Row source a b (Token.places (ts ++ [t]))) (hf : s.step t = .error f) :
    f.span.Proper source := by
  rw [Token.places_append] at hrow
  obtain ⟨m, hts, -, ht, -⟩ := row_append.1 hrow
  unfold State.step at hf
  split at hf
  · cases hf
    rcases h.fail hts _ t.span with hproper | hspan
    · exact hproper
    · rw [hspan]
      exact ht.proper
  · split at hf
    · rename_i failure hend
      cases hf
      rcases h.fail hts failure.problem failure.span with hproper | hspan
      · exact hproper
      · rw [hspan]
        exact h.endFailure hts hend
    · cases hf

/-- A run that refuses one of its tokens points at a piece of the source. -/
theorem Holds.run_error {s : State} {f : Failure} (h : Holds ts s)
    (hrow : Row source a b (Token.places (ts ++ us))) (hf : s.run us = .error f) :
    f.span.Proper source := by
  obtain ⟨front, t, rest, m, rfl, hm, ht⟩ := step_of_run_error hf
  have htokens : ts ++ (front ++ t :: rest) = ts ++ front ++ [t] ++ rest := by simp
  rw [htokens, Token.places_append] at hrow
  obtain ⟨n, hfront, -⟩ := row_append.1 hrow
  exact (h.run hm).step_error hfront ht

/-- **Tokens that are no expression are refused at a piece of the source or at their end.** -/
theorem parse_error {stop : Nat} {f : Failure} (hrow : Row source a b (Token.places ts))
    (hf : parse stop ts = .error f) : f.span.Proper source ∨ f.span = endSpan stop ts := by
  rcases run_of_parse_error hf with hr | ⟨s, hr, rfl⟩
  · have hstart : Holds [] State.start := holds_of_run rfl
    exact .inl (hstart.run_error hrow hr)
  · exact (holds_of_run hr).fail hrow _ (endSpan stop ts)

end Parser

/-! ## Fragments and the end of the text -/

namespace Token

theorem proper_stray : ∀ {is : List (Located Item)} {stray : Stray} {a : Nat},
    onlyTokens is = .error stray → Row source a b (places is) → stray.span.Proper source
  | [], _, _, h, _ => by cases h
  | ⟨.stray fragment, span⟩ :: is, stray, a, h, ⟨_, hspan, _⟩ => by
    cases h
    exact hspan.proper
  | ⟨.token t, span⟩ :: is, stray, a, h, ⟨_, _, hrow⟩ => by
    rw [onlyTokens] at h
    cases hrest : onlyTokens is with
    | error stray' =>
      rw [hrest] at h
      cases h
      exact proper_stray hrest hrow
    | ok us =>
      rw [hrest] at h
      cases h

/-- Where the last of the places ends. -/
def lastStop? (ts : List Places) : Option Nat := ts.getLast?.map fun t => t.span.stop

theorem lastStop?_cons (t : Places) (ts : List Places) :
    lastStop? (t :: ts) = some ((lastStop? ts).getD t.span.stop) := by
  rw [lastStop?, lastStop?, List.getLast?_cons]
  cases ts.getLast? <;> rfl

/-- A text that does not end in white space ends in an item. -/
theorem lastStop?_rawItems (offset : Nat) (cs : List Char) (hn : cs ≠ [])
    (h : ∀ c ∈ cs.getLast?, isSkipped c = false) :
    lastStop? (places (rawItems offset cs)) = some (offset + Text.byteLength cs) := by
  induction offset, cs using rawItems.induct with
  | case1 offset => exact absurd rfl hn
  | case2 offset c cs hc ih =>
    have hcs : cs ≠ [] := by
      rintro rfl
      rw [h c rfl] at hc
      cases hc
    rw [List.getLast?_cons_of_ne_nil hcs] at h
    rw [rawItems, if_pos hc, ih hcs h, Text.byteLength_cons, Nat.add_assoc]
  | case3 offset c cs hc stop ih =>
    have hsplit := text_append_rest_lexeme c cs
    have hlength : stop + Text.byteLength (lexeme c cs).rest =
        offset + Text.byteLength (c :: cs) := by
      rw [← hsplit, Text.byteLength_append, ← Nat.add_assoc]
    rw [rawItems, if_neg hc, places_cons, lastStop?_cons, ← hlength]
    by_cases hrest : (lexeme c cs).rest = []
    · simp [hrest, rawItems, lastStop?, stop]
    · have hlast : ∀ d ∈ (lexeme c cs).rest.getLast?, isSkipped d = false := by
        intro d hd
        refine h d ?_
        rw [← hsplit, List.getLast?_append, hd]
        rfl
      rw [ih hrest hlast, Option.getD_some]

theorem lastStop?_joinWords (is : List (Located Item)) :
    lastStop? (places (joinWords is)) = lastStop? (places is) := by
  induction is using joinWords.induct with
  | case1 s t rest ih => simp [joinWords, lastStop?_cons, ih, Span.cover]
  | case2 s t rest ih => simp [joinWords, lastStop?_cons, ih, Span.cover]
  | case3 item rest h1 h2 ih =>
    rw [joinWords.eq_3 _ _ h1 h2]
    simp [lastStop?_cons, ih]
  | case4 => rfl

/-- The end of a text that does not end in white space is the end of its last token. -/
theorem endSpan_of_scanFrom {base : Nat} {text : List Char} {ts : List (Located Token)}
    (hs : scanFrom base text = .ok ts) (h : ∀ c ∈ text.getLast?, isSkipped c = false) :
    Parser.endSpan (base + Text.byteLength text) ts =
      ⟨base + Text.byteLength text, base + Text.byteLength text⟩ := by
  have hplaces : lastStop? (places ts) = lastStop? (places (rawItems base text)) := by
    rw [places_onlyTokens hs, itemsFrom, lastStop?_joinWords]
  unfold Parser.endSpan
  cases hlast : ts.getLast? with
  | none => rfl
  | some t =>
    have hstop : lastStop? (places ts) = some t.span.stop := by
      rw [lastStop?, places, List.getLast?_map, hlast]
      rfl
    have hn : text ≠ [] := by
      rintro rfl
      rw [hplaces, rawItems] at hstop
      cases hstop
    rw [hplaces, lastStop?_rawItems base text hn h] at hstop
    rw [Option.some.inj hstop]

end Token

/-! ## Reading -/

/-- **An expression is refused at a range of its text**, if its text does not end in white space; at
the end of the text the range is empty. -/
theorem Expr.usable_of_readAt {base : Nat} {text : List Char} {f : Located ParseFault}
    (hat : Text.At source base text)
    (hend : ∀ ts, Token.scanFrom base text = .ok ts →
      ∀ c ∈ text.getLast?, Token.isSkipped c = false)
    (h : readAt base text = .error f) : f.span.Usable source := by
  unfold readAt at h
  cases hs : Token.scanFrom base text with
  | error stray =>
    rw [hs] at h
    cases h
    have hrow := Token.row_joinWords (Token.row_rawItems base text hat)
    exact (Token.proper_stray hs hrow).usable
  | ok ts =>
    rw [hs] at h
    dsimp only at h
    split at h
    · rename_i failure hparse
      cases h
      rcases Parser.parse_error (Token.row_of_scanFrom hat hs) hparse with hproper | hspan
      · exact hproper.usable
      · rw [Token.endSpan_of_scanFrom hs (hend ts hs)] at hspan
        have husable : failure.span.Usable source := hspan ▸ hat.boundary_stop.usable
        exact husable
    · cases h

end
end Stencil
