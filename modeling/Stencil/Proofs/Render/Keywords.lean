import Stencil.Proofs.Document.Expressions
import Stencil.Proofs.Document.TagCall
import Stencil.Proofs.Render.Outcome
import Stencil.Render.Document

/-!
# Keyword arguments are never lost

A callable is given its keyword arguments as a map, in which an entry replaces an earlier one of the
same name. Calls and filters are checked for that when they are read, and tags when their words are.
So in whatever was read the entries come one by one from the keywords (`evalKeywords_eq_ok_iff`),
and the map has them all (`keywords_kept`); where it comes to a function of the host, that is the map
the host is called with (`host_given_keywords`).
-/
namespace Stencil

variable {σ : Type}

/-! ## What keyword arguments give -/

/-- What keyword arguments give from one world to another: for each an entry with its name and the
value that its expression has in the world in which the ones before it end. -/
inductive KeywordsGive (s : Setting σ) (names : String → Option Value) :
    List (Ident × Expr) → World σ → List (String × Value) → World σ → Prop
  | nil (w : World σ) : KeywordsGive s names [] w [] w
  | cons {k : Ident} {e : Expr} {ks : List (Ident × Expr)} {v : Value}
      {vs : List (String × Value)} {w w₁ w₂ : World σ} : e.eval s names w = (.ok v, w₁) →
      KeywordsGive s names ks w₁ vs w₂ →
      KeywordsGive s names ((k, e) :: ks) w ((k.name, v) :: vs) w₂

section
variable {s : Setting σ} {names : String → Option Value}

theorem evalKeywords_eq_ok_iff : ∀ {ks : List (Ident × Expr)} {w w' : World σ}
    {vs : List (String × Value)},
    evalKeywords s names ks w = (.ok vs, w') ↔ KeywordsGive s names ks w vs w'
  | [], w, w', vs => by
    rw [evalKeywords]
    constructor
    · intro h
      cases h
      exact .nil w
    · rintro ⟨⟩
      rfl
  | (k, e) :: ks, w, w', vs => by
    rw [evalKeywords, Eval.bind_eq_ok_iff]
    constructor
    · rintro ⟨v, w₁, hv, h⟩
      obtain ⟨vs', w₂, hvs, h⟩ := Eval.bind_eq_ok_iff.1 h
      cases h
      exact .cons hv (evalKeywords_eq_ok_iff.1 hvs)
    · rintro (_ | ⟨hv, hvs⟩)
      exact ⟨_, _, hv, Eval.bind_eq_ok_iff.2 ⟨_, _, evalKeywords_eq_ok_iff.2 hvs, rfl⟩⟩

theorem KeywordsGive.map_fst {ks : List (Ident × Expr)} {w w' : World σ}
    {vs : List (String × Value)} (h : KeywordsGive s names ks w vs w') :
    vs.map Prod.fst = ks.map fun k => k.1.name := by
  induction h with
  | nil _ => rfl
  | cons _ _ ih => rw [List.map_cons, List.map_cons, ih]

/-- What keywords with different names give is a map already. -/
theorem ensures_ofList_evalKeywords {ks : List (Ident × Expr)} (h : KeywordsDiffer ks) :
    Eval.Ensures (fun vs => Entries.ofList vs = vs) (evalKeywords s names ks) := by
  intro w vs w' hvs
  have hnames := (evalKeywords_eq_ok_iff.1 hvs).map_fst
  exact Entries.ofList_of_nodup (hnames ▸ h)

end

/-! ## Keeping them -/

/-- No keyword argument is lost: no two have the same name, and if they have values, the map of
these has one entry for each of them, in their order, with its value. -/
structure KeywordsKept (ks : List (Ident × Expr)) : Prop where
  differ : KeywordsDiffer ks
  kept : ∀ {σ : Type} (s : Setting σ) (names : String → Option Value) (w w' : World σ)
    (vs : List (String × Value)), evalKeywords s names ks w = (.ok vs, w') →
    (Entries.ofList vs).map Prod.fst = ks.map (fun k => k.1.name) ∧
      KeywordsGive s names ks w (Entries.ofList vs) w'

theorem KeywordsDiffer.kept {ks : List (Ident × Expr)} (h : KeywordsDiffer ks) :
    KeywordsKept ks := by
  refine ⟨h, fun s names w w' vs hvs => ?_⟩
  have hgive := evalKeywords_eq_ok_iff.1 hvs
  rw [ensures_ofList_evalKeywords h w vs w' hvs]
  exact ⟨hgive.map_fst, hgive⟩

/-- A call or a filter passes on what its keyword arguments give, and nothing else. -/
def Expr.PassesKeywords : Expr → Prop
  | .call span callee args ks => ∀ {σ : Type} (s : Setting σ) (names : String → Option Value),
    (Expr.call span callee args ks).eval s names = do
      let target ← callee.eval s names
      let args ← evalAll s names args
      let keywords ← evalKeywords s names ks
      Eval.call s span target args keywords
  | .filter span input n args ks => ∀ {σ : Type} (s : Setting σ) (names : String → Option Value),
    (Expr.filter span input n args ks).eval s names = do
      let f ← Eval.filter s n
      let input ← input.eval s names
      let args ← evalAll s names args
      let keywords ← evalKeywords s names ks
      Eval.invoke s span f (input :: args) keywords
  | _ => True

/-- A tag passes on what its keyword arguments give, and nothing else. -/
def Located.PassesKeywords (t : Located Tag.Call) : Prop :=
  ∀ {σ : Type} (s : Setting σ) (names : String → Option Value),
    Eval.customTag s names t.span t.value.name t.value.args t.value.keywords = do
      let f ← Eval.tag s t.span t.value.name
      let args ← evalAll s names t.value.args
      let keywords ← evalKeywords s names t.value.keywords
      Eval.invoke s t.span f args keywords

theorem Expr.passesKeywords {x : Expr} (h : KeywordsDiffer x.keywords) : x.PassesKeywords := by
  cases x with
  | call span callee args ks =>
    intro σ s names
    rw [Expr.eval]
    refine bind_congr fun target => bind_congr fun args => ?_
    exact (ensures_ofList_evalKeywords h).bind_congr fun vs hvs => congrArg _ hvs
  | filter span input n args ks =>
    intro σ s names
    rw [Expr.eval]
    refine bind_congr fun f => bind_congr fun input => bind_congr fun args => ?_
    exact (ensures_ofList_evalKeywords h).bind_congr fun vs hvs => congrArg _ hvs
  | _ => trivial

theorem Located.passesKeywords {t : Located Tag.Call} (h : KeywordsDiffer t.value.keywords) :
    t.PassesKeywords := by
  intro σ s names
  rw [Eval.customTag]
  refine bind_congr fun f => bind_congr fun args => ?_
  exact (ensures_ofList_evalKeywords h).bind_congr fun vs hvs => congrArg _ hvs

/-! ## What is read -/

/-- The words of a tag are checked one by one for a keyword that was there before. -/
theorem Located.keywordsDiffer {source : List Char} {t : Located Tag.Call}
    (h : t.ReadBetween source) : KeywordsDiffer t.value.keywords := by
  obtain ⟨c, -, -, hcall⟩ := h
  obtain ⟨head, words, -, -, hargs⟩ := Tag.words_of_call hcall
  exact (Tag.pieces_of_arguments hargs List.nodup_nil).1

theorem Document.keywordsDiffer_of_parse {source : List Char} {ns : List Node}
    (h : Document.parse source = .ok ns) :
    (∀ x ∈ nodeSubterms ns, KeywordsDiffer x.keywords) ∧
      ∀ t ∈ nodeTags ns, KeywordsDiffer t.value.keywords := by
  obtain ⟨bs, hrun, hbs⟩ := Document.read_eq_ok_iff.1 (Expr.mapError_eq_ok_iff.1 h)
  constructor
  · intro x hx
    exact (Node.checked_of_ofBlocks hbs x hx).keywordsDiffer
  · intro t ht
    exact Located.keywordsDiffer (Node.tags_of_ofBlocks hbs (Block.spelled_of_run hrun) t ht)

theorem Expr.keywordsDiffer_of_parse {text : List Char} {e : Expr} (h : Expr.parse text = .ok e) :
    ∀ x ∈ e.subterms, KeywordsDiffer x.keywords := by
  intro x hx
  have hread : Expr.readAt 0 text = .ok e := Expr.mapError_eq_ok_iff.1 h
  exact (Expr.allChecked_of_readAt hread x hx).keywordsDiffer

/-- **Keyword arguments are never lost.** At every call, filter and tag of a document, at any depth,
and at every call and filter of an expression that is read on its own, the keywords have different
names. So when they have values, their map has one entry for each keyword, in the order of the
source, with the value of its expression; and it is what the callable is given. -/
theorem keywords_kept :
    (∀ source ns, Document.parse source = .ok ns →
      (∀ x ∈ nodeSubterms ns, KeywordsKept x.keywords ∧ x.PassesKeywords) ∧
      ∀ t ∈ nodeTags ns, KeywordsKept t.value.keywords ∧ t.PassesKeywords) ∧
    ∀ text e, Expr.parse text = .ok e →
      ∀ x ∈ e.subterms, KeywordsKept x.keywords ∧ x.PassesKeywords := by
  refine ⟨fun source ns h => ⟨fun x hx => ?_, fun t ht => ?_⟩, fun text e h x hx => ?_⟩
  · have hdiffer := (Document.keywordsDiffer_of_parse h).1 x hx
    exact ⟨hdiffer.kept, Expr.passesKeywords hdiffer⟩
  · have hdiffer := (Document.keywordsDiffer_of_parse h).2 t ht
    exact ⟨hdiffer.kept, Located.passesKeywords hdiffer⟩
  · have hdiffer := Expr.keywordsDiffer_of_parse h x hx
    exact ⟨hdiffer.kept, Expr.passesKeywords hdiffer⟩

/-- A call with two keywords in one of the two keyword arguments of a tag. -/
def keyed : String := "\x7b% t k=f(a=1, b=2) m=3 %\x7d"

/-- The call of `keyed`. -/
def keyedCall : Expr :=
  .call ⟨7, 18⟩ (.name ⟨7, 8⟩ "f") [] [(⟨"a", ⟨9, 10⟩⟩, .literal ⟨11, 12⟩ (.int 1)),
    (⟨"b", ⟨14, 15⟩⟩, .literal ⟨16, 17⟩ (.int 2))]

/-- The tag of `keyed`. -/
def keyedTag : Tag.Call :=
  ⟨⟨[⟨"t", ⟨3, 4⟩⟩]⟩, [], [(⟨"k", ⟨5, 6⟩⟩, keyedCall),
    (⟨"m", ⟨19, 20⟩⟩, .literal ⟨21, 22⟩ (.int 3))]⟩

theorem keywords_kept_keyed :
    Document.parse keyed.toList =
      .ok [.tag ⟨0, 25⟩ keyedTag.name keyedTag.args keyedTag.keywords] ∧
    KeywordsKept keyedTag.keywords ∧
    ∃ vs w, evalKeywords ⟨.none, .withBuiltins, true⟩ (fun _ => none) keyedCall.keywords ⟨0, ()⟩ =
        (.ok vs, w) ∧ (Entries.ofList vs).map Prod.fst = ["a", "b"] := by
  have hblocks : Document.blocks keyed.toList =
      .ok [.tag ⟨0, 25⟩ ⟨"t k=f(a=1, b=2) m=3".toList, ⟨3, 22⟩⟩] := by with_unfolding_all rfl
  have hparse : Document.parse keyed.toList =
      .ok [.tag ⟨0, 25⟩ keyedTag.name keyedTag.args keyedTag.keywords] := by
    rw [Document.parse_of_blocks hblocks]
    with_unfolding_all rfl
  obtain ⟨hexprs, htags⟩ := keywords_kept.1 _ _ hparse
  have htag := htags ⟨keyedTag, ⟨0, 25⟩⟩ (by simp [nodeTags, Node.tags])
  have hcall := hexprs keyedCall
    (by simp [nodeSubterms, nodeExprs, Node.exprs, keyedTag, Expr.mem_subterms_self])
  have heval : evalKeywords ⟨.none, .withBuiltins, true⟩ (fun _ => none) keyedCall.keywords
      ⟨0, ()⟩ = (.ok [("a", .int 1), ("b", .int 2)], ⟨0, ()⟩) := rfl
  exact ⟨hparse, htag.1, _, _, heval, (hcall.1.kept _ _ _ _ _ heval).1⟩

/-! ## What a host function is given -/

/-- What a call of a host function comes to: its value, or a fault at this place that names the
callee. What the host did stays done either way. -/
def Host.answer (host : Host σ) (span : Span) (callee name : String) (args : List Value)
    (keywords : List (String × Value)) (w : World σ) : Except (Located RenderFault) Value × World σ :=
  match host.call name args keywords w with
  | (.ok v, w') => (.ok v, w')
  | (.error text, w') => (.error ⟨.call callee text, span⟩, w')

/-- What a value does when it is called, and the name of it that a fault has. -/
def Value.callee? : Value → Option (String × Code)
  | .callable f => some (f.name, f.code)
  | .object _ type _ _ _ _ (some code) _ => some (type, code)
  | _ => .none

theorem Eval.perform_host (s : Setting σ) (span : Span) (callee name : String) (args : List Value)
    (keywords : List (String × Value)) (w : World σ) :
    Eval.perform s span callee (.host name) args keywords w =
      s.host.answer span callee name args keywords w := by
  unfold Host.answer
  show (Eval.liftAt span (.call callee) (s.host.call name args keywords w).1 : Eval σ Value)
    (s.host.call name args keywords w).2 = _
  rcases s.host.call name args keywords w with ⟨text | v, w'⟩
  · rfl
  · rfl

theorem Eval.call_of_callee? {s : Setting σ} {span : Span} {target : Value} {callee : String}
    {code : Code} (h : target.callee? = some (callee, code)) (args : List Value)
    (keywords : List (String × Value)) :
    Eval.call s span target args keywords = Eval.perform s span callee code args keywords := by
  unfold Value.callee? at h
  split at h
  · cases h
    rfl
  · cases h
    rfl
  · cases h

/-- Where the parts of a call or filter have values and it comes to a function of the host, the host
is called with the values of the arguments and of all keywords, and what it answers is the outcome. -/
def Expr.HandsOver : Expr → Prop
  | .call span callee args ks => ∀ {σ : Type} (s : Setting σ) (names : String → Option Value)
    {w w₁ w₂ w₃ : World σ} {target : Value} {vs : List Value} {es : List (String × Value)}
    {type name : String}, callee.eval s names w = (.ok target, w₁) →
    evalAll s names args w₁ = (.ok vs, w₂) → KeywordsGive s names ks w₂ es w₃ →
    target.callee? = some (type, .host name) →
    (Expr.call span callee args ks).eval s names w = s.host.answer span type name vs es w₃
  | .filter span input n args ks => ∀ {σ : Type} (s : Setting σ) (names : String → Option Value)
    {w w₁ w₂ w₃ : World σ} {f : Callable} {v : Value} {vs : List Value}
    {es : List (String × Value)} {name : String}, s.library.filters.find? n.text = some f →
    input.eval s names w = (.ok v, w₁) → evalAll s names args w₁ = (.ok vs, w₂) →
    KeywordsGive s names ks w₂ es w₃ → f.code = .host name →
    (Expr.filter span input n args ks).eval s names w =
      s.host.answer span f.name name (v :: vs) es w₃
  | _ => True

/-- The same of a tag. -/
def Located.HandsOver (t : Located Tag.Call) : Prop :=
  ∀ {σ : Type} (s : Setting σ) (names : String → Option Value) {w w₁ w₂ : World σ} {f : Callable}
    {vs : List Value} {es : List (String × Value)} {name : String},
    s.library.tags.find? t.value.name.text = some f →
    evalAll s names t.value.args w = (.ok vs, w₁) →
    KeywordsGive s names t.value.keywords w₁ es w₂ → f.code = .host name →
    Eval.customTag s names t.span t.value.name t.value.args t.value.keywords w =
      s.host.answer t.span f.name name vs es w₂

theorem Expr.handsOver {x : Expr} (h : KeywordsDiffer x.keywords) : x.HandsOver := by
  have hpasses := Expr.passesKeywords h
  cases x with
  | call span callee args ks =>
    intro σ s names w w₁ w₂ w₃ target vs es type name htarget hargs hks hcallee
    rw [hpasses s names, Eval.bind_ok htarget, Eval.bind_ok hargs,
      Eval.bind_ok (evalKeywords_eq_ok_iff.2 hks), Eval.call_of_callee? hcallee, Eval.perform_host]
  | filter span input n args ks =>
    intro σ s names w w₁ w₂ w₃ f v vs es name hf hinput hargs hks hcode
    have hfilter : Eval.filter s n w = (.ok f, w) := by
      rw [Eval.filter, hf]
      rfl
    rw [hpasses s names, Eval.bind_ok hfilter, Eval.bind_ok hinput, Eval.bind_ok hargs,
      Eval.bind_ok (evalKeywords_eq_ok_iff.2 hks), Eval.invoke, hcode, Eval.perform_host]
  | _ => trivial

theorem Located.handsOver {t : Located Tag.Call} (h : KeywordsDiffer t.value.keywords) :
    t.HandsOver := by
  intro σ s names w w₁ w₂ f vs es name hf hargs hks hcode
  have htag : Eval.tag s t.span t.value.name w = (.ok f, w) := by
    rw [Eval.tag, hf]
    rfl
  rw [Located.passesKeywords h s names, Eval.bind_ok htag, Eval.bind_ok hargs,
    Eval.bind_ok (evalKeywords_eq_ok_iff.2 hks), Eval.invoke, hcode, Eval.perform_host]

/-- **A function of the host is given every keyword argument.** What `KeywordsGive` has for the
keywords of a call, filter or tag, one entry for each in their order, is what the host is called
with, at every one of them in a document and in an expression that is read on its own. -/
theorem host_given_keywords :
    (∀ source ns, Document.parse source = .ok ns →
      (∀ x ∈ nodeSubterms ns, x.HandsOver) ∧ ∀ t ∈ nodeTags ns, t.HandsOver) ∧
    ∀ text e, Expr.parse text = .ok e → ∀ x ∈ e.subterms, x.HandsOver := by
  refine ⟨fun source ns h => ⟨fun x hx => ?_, fun t ht => ?_⟩, fun text e h x hx => ?_⟩
  · exact Expr.handsOver ((Document.keywordsDiffer_of_parse h).1 x hx)
  · exact Located.handsOver ((Document.keywordsDiffer_of_parse h).2 t ht)
  · exact Expr.handsOver (Expr.keywordsDiffer_of_parse h x hx)

end Stencil
