import Stencil.Proofs.Expr.Place
import Stencil.Proofs.Expr.Sound
import Stencil.Proofs.Source.Nesting

/-!
# Nested expressions

Tokens stand in a row, and the parser puts neighbours of a row together: what tokens can be read as
stands where they stand (`Reads.row`). So the places of an expression are nested and lie in the text
that it was read from (`row_of_readAt`).
-/
namespace Stencil

open Places (leaf)

/-! ## Places of an expression -/

/-- The places of the segments of a name. -/
def DottedName.places (n : DottedName) : List Places := n.segments.map fun i => leaf i.span

mutual

/-- The place of an expression with those of its operands, names and arguments. -/
def Expr.places : Expr → Places
  | .literal s _ | .name s _ => leaf s
  | .attribute s b a => .node s [b.places, leaf a.span]
  | .index s l r | .arith s _ l r | .compare s _ l r | .logic s _ l r =>
    .node s [l.places, r.places]
  | .call s c as ks => .node s (c.places :: (placesAll as ++ keywordPlaces ks))
  | .filter s i n as ks => .node s (i.places :: (n.places ++ (placesAll as ++ keywordPlaces ks)))

/-- The places of expressions. -/
def placesAll : List Expr → List Places
  | [] => []
  | e :: es => e.places :: placesAll es

/-- The places of keyword arguments, each a keyword and its value. -/
def keywordPlaces : List (Ident × Expr) → List Places
  | [] => []
  | (i, e) :: ks => leaf i.span :: e.places :: keywordPlaces ks

end

@[simp] theorem Expr.span_places (e : Expr) : e.places.span = e.span := by
  cases e <;> rw [Expr.places] <;> rfl

theorem placesAll_append (as bs : List Expr) :
    placesAll (as ++ bs) = placesAll as ++ placesAll bs := by
  induction as with
  | nil => rfl
  | cons e as ih => rw [List.cons_append, placesAll, placesAll, ih, List.cons_append]

theorem keywordPlaces_append (as bs : List (Ident × Expr)) :
    keywordPlaces (as ++ bs) = keywordPlaces as ++ keywordPlaces bs := by
  induction as with
  | nil => rfl
  | cons k as ih =>
    obtain ⟨i, e⟩ := k
    rw [List.cons_append, keywordPlaces, keywordPlaces, ih, List.cons_append, List.cons_append]

/-! ## Changing spans -/

section
variable {f : Span → Span}

theorem Ident.mapSpan_eq_self {i : Ident} (h : ∀ s ∈ (leaf i.span).spans, f s = s) :
    i.mapSpan f = i := by
  rw [Ident.mapSpan, h i.span List.mem_cons_self]

theorem DottedName.mapSpan_eq_self {n : DottedName} (h : ∀ s ∈ spansAll n.places, f s = s) :
    n.mapSpan f = n := by
  obtain ⟨is⟩ := n
  rw [DottedName.mapSpan, DottedName.mk.injEq]
  induction is with
  | nil => rfl
  | cons i is ih =>
    obtain ⟨hi, his⟩ := forall_spansAll_cons.1 h
    rw [List.map_cons, Ident.mapSpan_eq_self hi, ih his]

mutual

/-- The places leave no span out: what does not change them does not change the expression. -/
theorem Expr.mapSpan_eq_self : ∀ {e : Expr}, (∀ s ∈ e.places.spans, f s = s) → e.mapSpan f = e
  | .literal s v, h | .name s v, h => by rw [Expr.mapSpan, h s List.mem_cons_self]
  | .attribute s b a, h => by
    simp only [Expr.places, forall_spans_node, forall_spansAll_cons] at h
    obtain ⟨hs, hb, ha, -⟩ := h
    rw [Expr.mapSpan, hs, Expr.mapSpan_eq_self hb, Ident.mapSpan_eq_self ha]
  | .index s l r, h | .arith s _ l r, h | .compare s _ l r, h | .logic s _ l r, h => by
    simp only [Expr.places, forall_spans_node, forall_spansAll_cons] at h
    obtain ⟨hs, hl, hr, -⟩ := h
    rw [Expr.mapSpan, hs, Expr.mapSpan_eq_self hl, Expr.mapSpan_eq_self hr]
  | .call s c as ks, h => by
    simp only [Expr.places, forall_spans_node, forall_spansAll_cons, forall_spansAll_append] at h
    obtain ⟨hs, hc, ha, hk⟩ := h
    rw [Expr.mapSpan, hs, Expr.mapSpan_eq_self hc, mapSpans_eq_self ha, mapKeywordSpans_eq_self hk]
  | .filter s i n as ks, h => by
    simp only [Expr.places, forall_spans_node, forall_spansAll_cons, forall_spansAll_append] at h
    obtain ⟨hs, hi, hn, ha, hk⟩ := h
    rw [Expr.mapSpan, hs, Expr.mapSpan_eq_self hi, DottedName.mapSpan_eq_self hn,
      mapSpans_eq_self ha, mapKeywordSpans_eq_self hk]

theorem mapSpans_eq_self : ∀ {es : List Expr}, (∀ s ∈ spansAll (placesAll es), f s = s) →
    mapSpans f es = es
  | [], _ => rfl
  | e :: es, h => by
    obtain ⟨he, hes⟩ := forall_spansAll_cons.1 h
    rw [mapSpans, Expr.mapSpan_eq_self he, mapSpans_eq_self hes]

theorem mapKeywordSpans_eq_self : ∀ {ks : List (Ident × Expr)},
    (∀ s ∈ spansAll (keywordPlaces ks), f s = s) → mapKeywordSpans f ks = ks
  | [], _ => rfl
  | (i, e) :: ks, h => by
    simp only [keywordPlaces, forall_spansAll_cons] at h
    obtain ⟨hi, he, hks⟩ := h
    rw [mapKeywordSpans, Ident.mapSpan_eq_self hi, Expr.mapSpan_eq_self he,
      mapKeywordSpans_eq_self hks]

end

end

section
variable {source : List Char} {a b : Nat}

/-! ## Tokens -/

namespace Token

/-- The places of a list of tokens or items. -/
def places {α : Type} (ts : List (Located α)) : List Places := ts.map fun t => leaf t.span

@[simp] theorem places_nil {α : Type} : places ([] : List (Located α)) = [] := rfl

@[simp] theorem places_cons {α : Type} (t : Located α) (ts : List (Located α)) :
    places (t :: ts) = leaf t.span :: places ts := rfl

@[simp] theorem places_append {α : Type} (ts us : List (Located α)) :
    places (ts ++ us) = places ts ++ places us := List.map_append

theorem text_ne_nil_lexeme (c : Char) (cs : List Char) : (lexeme c cs).text ≠ [] := by
  intro h
  have hsplit := text_append_rest_lexeme c cs
  have hlt := length_rest_lexeme c cs
  rw [h, List.nil_append] at hsplit
  rw [hsplit] at hlt
  exact Nat.lt_irrefl _ hlt

theorem row_rawItems (offset : Nat) (cs : List Char) (h : Text.At source offset cs) :
    Row source offset (offset + Text.byteLength cs) (places (rawItems offset cs)) := by
  induction offset, cs using rawItems.induct with
  | case1 offset => simp [rawItems]
  | case2 offset c cs hc ih =>
    have hrest := ih (by simpa using (show Text.At source offset ([c] ++ cs) from h).right)
    rw [rawItems, if_pos hc, Text.byteLength_cons, ← Nat.add_assoc]
    exact hrest.mono (Nat.le_add_right _ _) (Nat.le_refl _)
  | case3 offset c cs hc stop ih =>
    have hsplit := text_append_rest_lexeme c cs
    rw [← hsplit] at h
    have hlexeme := Places.nested_leaf.2 (h.left.proper (text_ne_nil_lexeme c cs))
    rw [rawItems, if_neg hc, ← congrArg Text.byteLength hsplit, Text.byteLength_append,
      ← Nat.add_assoc]
    exact ⟨Nat.le_refl _, hlexeme, ih h.right⟩

/-- Two neighbours become one, from the start of the first to the end of the second. -/
theorem row_joined {s t : Span} {ts : List Places} (h : Row source a b (leaf s :: leaf t :: ts)) :
    Row source a b (leaf (s.cover t) :: ts) := by
  obtain ⟨ha, hs, hst, ht, hts⟩ := h
  have hspan : Span.Proper source (s.cover t) :=
    ⟨Nat.lt_of_lt_of_le hs.proper.lt (Nat.le_trans hst (Nat.le_of_lt ht.proper.lt)),
      hs.proper.start, ht.proper.stop⟩
  exact ⟨ha, Places.nested_leaf.2 hspan, hts⟩

theorem row_joinWords {is : List (Located Item)} (h : Row source a b (places is)) :
    Row source a b (places (joinWords is)) := by
  induction is using joinWords.induct generalizing a with
  | case1 s t rest ih =>
    obtain ⟨ha, hs, hrest⟩ := row_joined h
    exact ⟨ha, hs, ih hrest⟩
  | case2 s t rest ih =>
    obtain ⟨ha, hs, hrest⟩ := row_joined h
    exact ⟨ha, hs, ih hrest⟩
  | case3 item rest h1 h2 ih =>
    rw [joinWords.eq_3 _ _ h1 h2]
    exact ⟨h.1, h.2.1, ih h.2.2⟩
  | case4 => exact h

theorem places_onlyTokens : ∀ {is : List (Located Item)} {ts : List (Located Token)},
    onlyTokens is = .ok ts → places ts = places is
  | [], ts, h => by
    cases h
    rfl
  | ⟨.stray fragment, span⟩ :: is, ts, h => by cases h
  | ⟨.token t, span⟩ :: is, ts, h => by
    rw [onlyTokens] at h
    cases hrest : onlyTokens is with
    | error stray =>
      rw [hrest] at h
      cases h
    | ok us =>
      rw [hrest] at h
      cases h
      exact congrArg (leaf span :: ·) (places_onlyTokens hrest)

/-- Tokens stand in a row in their text. -/
theorem row_of_scanFrom {base : Nat} {text : List Char} {ts : List (Located Token)}
    (hat : Text.At source base text) (h : scanFrom base text = .ok ts) :
    Row source base (base + Text.byteLength text) (places ts) := by
  rw [places_onlyTokens h]
  exact row_joinWords (row_rawItems base text hat)

end Token

/-! ## Climbing -/

/-- The places of a filter without its input. -/
def FilterCall.places (f : FilterCall) : Places :=
  .node f.span (f.name.places ++ (placesAll f.args ++ keywordPlaces f.keywords))

/-- The places of what follows an operand. -/
def Segment.places : Segment → Places
  | .operator _ e => e.places
  | .filter f => f.places

namespace Expr

theorem row_binary (op : Operator) {l r : Expr} {ts : List Places}
    (h : Row source a b (l.places :: r.places :: ts)) :
    Row source a b ((binary op l r).places :: ts) := by
  have happend : Row source a b (([l.places] ++ [r.places]) ++ ts) := h
  obtain ⟨m, hpair, hts⟩ := row_append.1 happend
  have hbinary : (binary op l r).places =
      .node (l.places.span.cover r.places.span) [l.places, r.places] := by
    cases op <;> simp [binary, places]
  rw [hbinary]
  exact hpair.cover_last.append hts

theorem row_applyFilter {e : Expr} {f : FilterCall} {ts : List Places}
    (h : Row source a b (e.places :: f.places :: ts)) :
    Row source a b ((applyFilter e f).places :: ts) := by
  obtain ⟨ha, he, hef, hf, hts⟩ := h
  have hparts : Row source a f.span.stop
      (e.places :: (f.name.places ++ (placesAll f.args ++ keywordPlaces f.keywords))) :=
    ⟨ha, he, hf.2.mono hef (Nat.le_refl _)⟩
  have hnode := hparts.cover hf.proper.stop
  have hfilter : (applyFilter e f).places = .node ⟨e.places.span.start, f.span.stop⟩
      (e.places :: (f.name.places ++ (placesAll f.args ++ keywordPlaces f.keywords))) := by
    simp [applyFilter, places, Span.cover]
  rw [hfilter]
  exact hnode.append hts

/-- The places of the operands that wait, in the order of the source. -/
def Waiting.places (w : Waiting) : List Places := w.reverse.map fun p => p.1.places

theorem Waiting.places_cons (left : Expr) (op : Operator) (w : Waiting) :
    Waiting.places ((left, op) :: w) = Waiting.places w ++ [left.places] := by
  simp [Waiting.places]

theorem row_reduce (limit : Nat) {ts : List Places} : ∀ (w : Waiting) (e : Expr),
    Row source a b (Waiting.places w ++ e.places :: ts) →
    Row source a b (Waiting.places (reduce limit w e).1 ++ (reduce limit w e).2.places :: ts)
  | [], e, h => h
  | (left, op) :: w, e, h => by
    rw [reduce]
    split
    · rw [Waiting.places_cons, List.append_assoc] at h
      exact row_reduce limit w _ (h.replace fun _ => row_binary op)
    · exact h

theorem row_reduceAll {ts : List Places} : ∀ (w : Waiting) (e : Expr),
    Row source a b (Waiting.places w ++ e.places :: ts) →
    Row source a b ((reduceAll w e).places :: ts)
  | [], e, h => h
  | (left, op) :: w, e, h => by
    rw [Waiting.places_cons, List.append_assoc] at h
    exact row_reduceAll w _ (h.replace fun _ => row_binary op)

/-- What stands in a row is put together to one place in it. -/
theorem row_climbFrom : ∀ (segments : List Segment) (w : Waiting) (e : Expr),
    Row source a b (Waiting.places w ++ e.places :: segments.map Segment.places) →
    Row source a b [(climbFrom w e segments).places]
  | [], w, e, h => row_reduceAll w e h
  | .operator op operand :: segments, w, e, h => by
    have hreduce := row_reduce op.precedence w e h
    refine row_climbFrom segments (((reduce op.precedence w e).2, op) :: _) operand ?_
    rw [Waiting.places_cons, List.append_assoc]
    exact hreduce
  | .filter f :: segments, w, e, h =>
    row_climbFrom segments [] _ (row_applyFilter (row_reduceAll w e h))

end Expr

/-! ## Arguments -/

/-- The places of an argument. -/
def Argument.places : Argument → List Places
  | .positional e => [e.places]
  | .keyword i e => [leaf i.span, e.places]

namespace Arguments

theorem places_of_keywords : ∀ {list : List Argument}, positionals list = [] →
    list.flatMap Argument.places = keywordPlaces (keywords list)
  | [], _ => rfl
  | .keyword i e :: list, h => by
    have hrest : positionals list = [] := h
    rw [List.flatMap_cons, places_of_keywords hrest]
    rfl

end Arguments

namespace Parser

theorem positionals_of_keywords : ∀ {list : List (Argument × Span)} {ks : List String},
    list.map keyword? = ks.map some → Arguments.positionals (list.map Prod.fst) = []
  | [], _, _ => rfl
  | (.positional e, s) :: list, ks, h => by cases ks <;> cases h
  | (.keyword i e, s) :: list, [], h => by cases h
  | (.keyword i e, s) :: list, k :: ks, h => by
    have hrest : list.map keyword? = ks.map some := (List.cons.inj h).2
    have hnone : Arguments.positionals (list.map Prod.fst) = [] := positionals_of_keywords hrest
    exact hnone

/-- In an ordered list the places of the positional arguments come first. -/
theorem flatMap_places_of_ordered : ∀ {list : List (Argument × Span)},
    Arguments.Ordered (list.map keyword?) →
    (list.map Prod.fst).flatMap Argument.places =
      placesAll (Arguments.positionals (list.map Prod.fst)) ++
        keywordPlaces (Arguments.keywords (list.map Prod.fst))
  | [], _ => rfl
  | (.positional e, s) :: list, ⟨n, ks, h, hd⟩ => by
    cases n with
    | zero => cases ks <;> cases h
    | succ n =>
      have ih := flatMap_places_of_ordered ⟨n, ks, (List.cons.inj h).2, hd⟩
      rw [List.map_cons, List.flatMap_cons, ih]
      rfl
  | (.keyword i e, s) :: list, ⟨n, ks, h, hd⟩ => by
    cases n with
    | succ n => cases h
    | zero =>
      have hnone := positionals_of_keywords h
      rw [hnone, Arguments.places_of_keywords hnone]
      rfl

/-- The part stands in a row between the offsets. -/
def Part.Row (source : List Char) (a b : Nat) : Part → Prop
  | .unit p => Stencil.Row source a b [p.expr.places]
  | .chain c => Stencil.Row source a b (c.first.places :: c.rest.reverse.map Segment.places)
  | .name f => a ≤ f.start ∧ Text.IsBoundary source f.start ∧ f.segments ≠ [] ∧
    Stencil.Row source f.start b (DottedName.places ⟨f.segments.reverse⟩)
  | .argument p => Stencil.Row source a b p.1.places
  | .arguments done => Stencil.Row source a b ((Parser.arguments done).flatMap Argument.places)

theorem Chain.row_expr {c : Chain} (h : (Part.chain c).Row source a b) :
    Row source a b [c.expr.places] := Expr.row_climbFrom c.rest.reverse [] c.first h

theorem Chain.row_pipe {c : Chain} {f : FilterCall} {m : Nat} (hc : (Part.chain c).Row source a m)
    (hf : Row source m b [f.places]) : (Part.chain (c.pipe f)).Row source a b := by
  have hrow := Row.append hc hf
  simpa [Part.Row, Chain.pipe, Segment.places] using hrow

/-- The name read so far ends where it stops. -/
theorem FilterName.row_stop {f : FilterName} (h : (Part.name f).Row source a b) :
    (Part.name f).Row source a f.stop ∧ Text.IsBoundary source f.stop ∧ f.stop ≤ b := by
  obtain ⟨ha, hstart, hn, hrow⟩ := h
  obtain ⟨start, segments⟩ := f
  obtain ⟨i, is, rfl⟩ := List.exists_cons_of_ne_nil hn
  have hplaces : DottedName.places ⟨(i :: is).reverse⟩ =
      DottedName.places ⟨is.reverse⟩ ++ [leaf i.span] := by simp [DottedName.places]
  rw [hplaces] at hrow
  obtain ⟨hlast, hi, hb⟩ := hrow.last
  exact ⟨⟨ha, hstart, hn, by rwa [hplaces]⟩, hi.stop, hb⟩

/-- A filter stands where its name and its arguments do. -/
theorem FilterName.row_call {f : FilterName} {list : List Argument} {m stop : Nat}
    (hf : (Part.name f).Row source a m)
    (h : Row source m stop (placesAll (Arguments.positionals list) ++
      keywordPlaces (Arguments.keywords list))) (hstop : Text.IsBoundary source stop) :
    Row source a stop [(f.call stop list).places] := by
  obtain ⟨ha, hstart, hn, hrow⟩ := hf
  have hne : DottedName.places ⟨f.segments.reverse⟩ ++ (placesAll (Arguments.positionals list) ++
      keywordPlaces (Arguments.keywords list)) ≠ [] := by simp [DottedName.places, hn]
  exact ⟨ha, .of_row (hrow.append h) hne hstart hstop, Nat.le_refl stop⟩

/-- One rule: what is put together from parts in a row stands where they do. -/
theorem Reads.row {ts : List (Located Token)} {part : Part} (h : Reads ts part) :
    ∀ {a b : Nat}, Row source a b (Token.places ts) → part.Row source a b := by
  induction h with
  | literal hv => exact id
  | name text s => exact id
  | @group ts c s t _ ih =>
    intro a b hrow
    have hinner : (Token.places ts).Sublist
        (Token.places (⟨.lparen, s⟩ :: ts ++ [⟨.rparen, t⟩])) := by simp
    exact Chain.row_expr (ih (hrow.sublist hinner))
  | @member ts p d text s _ ih =>
    intro a b hrow
    have hdot : (Token.places ts ++ [leaf s]).Sublist
        (Token.places (ts ++ [⟨.dot, d⟩, ⟨.name text, s⟩])) := by simp
    obtain ⟨m, hts, hs⟩ := row_append.1 (hrow.sublist hdot)
    have hp : Row source a m [p.expr.places] := ih hts
    simpa [Part.Row, Phrase.attribute, Expr.places, ident] using (hp.append hs).cover_last
  | @index ts us p c s t _ _ ih ihk =>
    intro a b hrow
    have hbracket : (Token.places ts ++ Token.places us ++ [leaf t]).Sublist
        (Token.places (ts ++ (⟨.lbracket, s⟩ :: us ++ [⟨.rbracket, t⟩]))) := by simp
    obtain ⟨n, hinner, ht⟩ := row_append.1 (hrow.sublist hbracket)
    obtain ⟨m, hts, hus⟩ := row_append.1 hinner
    have hp : Row source a m [p.expr.places] := ih hts
    have hrow : Row source a b ((p.expr.places :: [c.expr.places]) ++ [leaf t]) :=
      (hp.append (Chain.row_expr (ihk hus))).append ht
    simpa [Part.Row, Phrase.index, Expr.places] using hrow.cover_before
  | @call ts us p done s t _ _ ho ih iha =>
    intro a b hrow
    have hparen : (Token.places ts ++ Token.places us ++ [leaf t]).Sublist
        (Token.places (ts ++ (⟨.lparen, s⟩ :: us ++ [⟨.rparen, t⟩]))) := by simp
    obtain ⟨n, hinner, ht⟩ := row_append.1 (hrow.sublist hparen)
    obtain ⟨m, hts, hus⟩ := row_append.1 hinner
    have hp : Row source a m [p.expr.places] := ih hts
    have hargs : Row source m n _ := iha hus
    rw [arguments, flatMap_places_of_ordered ho] at hargs
    have hrow : Row source a b ((p.expr.places :: _) ++ [leaf t]) := (hp.append hargs).append ht
    simpa [Part.Row, Phrase.call, Expr.places, arguments] using hrow.cover_before
  | first _ ih => exact fun hrow => ih hrow
  | @operator ts us c p op s _ _ ih iho =>
    intro a b hrow
    have hsides : (Token.places ts ++ Token.places us).Sublist
        (Token.places (ts ++ ⟨.operator op, s⟩ :: us)) := by simp
    obtain ⟨m, hts, hus⟩ := row_append.1 (hrow.sublist hsides)
    have hrow := Row.append (ih hts) (iho hus)
    simpa [Part.Row, close, Segment.places] using hrow
  | @filter ts us c f _ _ ih ihf =>
    intro a b hrow
    rw [Token.places_append] at hrow
    obtain ⟨m, hts, hus⟩ := row_append.1 hrow
    obtain ⟨hf, hstop, hb⟩ := FilterName.row_stop (ihf hus)
    have hcall : Row source m f.stop [(f.call f.stop []).places] :=
      FilterName.row_call hf (Nat.le_refl _) hstop
    exact Chain.row_pipe (ih hts) (hcall.mono (Nat.le_refl m) hb)
  | @filterValue ts us c f d t v _ _ hv ih ihf =>
    intro a b hrow
    have hcolon : (Token.places ts ++ (Token.places us ++ [leaf t.span])).Sublist
        (Token.places (ts ++ (us ++ [⟨.colon, d⟩, t]))) := by simp
    obtain ⟨m, hts, hrest⟩ := row_append.1 (hrow.sublist hcolon)
    obtain ⟨n, hus, ht⟩ := row_append.1 hrest
    have hvalue : Row source n t.span.stop [leaf t.span] := ⟨ht.1, ht.2.1, Nat.le_refl _⟩
    have hcall : Row source m t.span.stop
        [(f.call t.span.stop [.positional (.literal t.span v)]).places] :=
      FilterName.row_call (ihf hus) hvalue ht.2.1.proper.stop
    exact Chain.row_pipe (ih hts) (hcall.mono (Nat.le_refl m) ht.2.2)
  | @filterCall ts us vs c f done s t _ _ _ ho ih ihf iha =>
    intro a b hrow
    have hparen : (Token.places ts ++ (Token.places us ++ (Token.places vs ++ [leaf t]))).Sublist
        (Token.places (ts ++ (us ++ (⟨.lparen, s⟩ :: vs ++ [⟨.rparen, t⟩])))) := by simp
    obtain ⟨m, hts, hrest⟩ := row_append.1 (hrow.sublist hparen)
    obtain ⟨n, hus, hrest⟩ := row_append.1 hrest
    obtain ⟨k, hvs, hkt, ht, hb⟩ := row_append.1 hrest
    have hargs : Row source n k _ := iha hvs
    rw [arguments, flatMap_places_of_ordered ho] at hargs
    have hclosed := hargs.mono (Nat.le_refl n) (Nat.le_trans hkt (Nat.le_of_lt ht.proper.lt))
    have hcall := FilterName.row_call (ihf hus) hclosed ht.proper.stop
    exact Chain.row_pipe (ih hts) (hcall.mono (Nat.le_refl m) hb)
  | filterName s text t =>
    rintro a b ⟨ha, hs, hst, ht, hb⟩
    exact ⟨ha, hs.proper.start, by simp, Nat.le_trans (Nat.le_of_lt hs.proper.lt) hst, ht, hb⟩
  | @filterSegment ts f d text s _ ih =>
    intro a b hrow
    have hdot : (Token.places ts ++ [leaf s]).Sublist
        (Token.places (ts ++ [⟨.dot, d⟩, ⟨.name text, s⟩])) := by simp
    obtain ⟨m, hts, hs⟩ := row_append.1 (hrow.sublist hdot)
    obtain ⟨ha, hstart, -, hsegments⟩ := ih hts
    refine ⟨ha, hstart, by simp, ?_⟩
    simpa [DottedName.places, ident] using hsegments.append hs
  | positional _ ih => exact fun hrow => Chain.row_expr (ih hrow)
  | @keyword ts c text s e _ ih =>
    intro a b hrow
    have hassign : (leaf s :: Token.places ts).Sublist
        (Token.places (⟨.name text, s⟩ :: ⟨.assign, e⟩ :: ts)) := by simp
    obtain ⟨ha, hs, hts⟩ := hrow.sublist hassign
    exact ⟨ha, hs, Chain.row_expr (ih hts)⟩
  | noArguments => exact id
  | @oneArgument ts p _ ih =>
    intro a b hrow
    have hp : Row source a b p.1.places := ih hrow
    simpa [Part.Row, arguments] using hp
  | @moreArguments ts us p q done s _ _ ih iha =>
    intro a b hrow
    have hcomma : (Token.places ts ++ Token.places us).Sublist
        (Token.places (ts ++ ⟨.comma, s⟩ :: us)) := by simp
    obtain ⟨m, hts, hus⟩ := row_append.1 (hrow.sublist hcomma)
    have hrow := Row.append (ih hts) (iha hus)
    simpa [Part.Row, arguments] using hrow

end Parser

/-- **The places of an expression are nested, and lie in the text that it was read from.** -/
theorem Expr.row_of_readAt {base : Nat} {text : List Char} {e : Expr}
    (hat : Text.At source base text) (h : readAt base text = .ok e) :
    Row source base (base + Text.byteLength text) [e.places] := by
  obtain ⟨ts, hs, hp⟩ := readAt_eq_ok_iff.1 h
  obtain ⟨c, hc, rfl⟩ := Parser.reads_of_parse hp
  exact Parser.Chain.row_expr (hc.row (Token.row_of_scanFrom hat hs))

end
end Stencil
