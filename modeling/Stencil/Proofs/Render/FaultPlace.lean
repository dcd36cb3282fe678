import Stencil.Proofs.Document.ExpressionNesting
import Stencil.Proofs.Render.Concatenation
import Stencil.Proofs.Source.Counting

/-!
# Where a render stops

A render stops with the fault of an expression or of a tag. Which part of the template each kind of
fault is about is said once (`Expr.Raises`, `Tag.Call.Raises`, `Pointed`); evaluation keeps to it at
every depth (`Expr.blames_eval`, `blames_meaningAll`). As the places of a document are nested in its
source, the span of the fault is a piece of the source (`Pointed.proper`), and the location of the
error is that of its start (`Template.fault_points`).
-/
namespace Stencil

/-! ## What is to blame -/

/-- The fault can be that of the expression as a whole. -/
inductive Expr.Raises : Expr → RenderFault → Prop
  | name (s : Span) (x : String) : Raises (.name s x) (.undefinedName x)
  | index (s : Span) (b k : Expr) (f : SubscriptFault) : Raises (.index s b k) (.subscript f)
  | arith (s : Span) (op : ArithOp) (l r : Expr) (f : OperatorFault) :
      Raises (.arith s op l r) (.ofOperator f)
  | compare (s : Span) (op : CompareOp) (l r : Expr) (f : OperatorFault) :
      Raises (.compare s op l r) (.ofOperator f)
  | notCallable (s : Span) (c : Expr) (as : List Expr) (ks : List (Ident × Expr)) (kind : String) :
      Raises (.call s c as ks) (.type (.notCallable kind))
  | call (s : Span) (c : Expr) (as : List Expr) (ks : List (Ident × Expr))
      (callee message : String) : Raises (.call s c as ks) (.call callee message)
  | filter (s : Span) (i : Expr) (n : DottedName) (as : List Expr) (ks : List (Ident × Expr))
      (callee message : String) : Raises (.filter s i n as ks) (.call callee message)
  /-- Any expression may stand where a loop takes its elements from. -/
  | notIterable (e : Expr) (kind : String) : Raises e (.type (.notIterable kind))

/-- The fault can be that of the tag. -/
inductive Tag.Call.Raises : Tag.Call → RenderFault → Prop
  | unknown (t : Tag.Call) (ambiguous : Bool) : Raises t (.unknownTag t.name.text ambiguous)
  | call (t : Tag.Call) (callee message : String) : Raises t (.call callee message)

/-- The fault is that of one of the expressions `xs` or of one of the tags `ts`, and it has the span
of the expression, of the attribute that is missing, of the name of the filter that is unknown, or
of the tag. -/
inductive Pointed (xs : List Expr) (ts : List (Located Tag.Call)) : Located RenderFault → Prop
  | expr {x : Expr} {f : RenderFault} : x ∈ xs → x.Raises f → Pointed xs ts ⟨f, x.span⟩
  | missingAttribute {s : Span} {b : Expr} {a : Ident} (kind : String) : .attribute s b a ∈ xs →
      Pointed xs ts ⟨.attribute kind a.name, a.span⟩
  | unknownFilter {s : Span} {i : Expr} {n : DottedName} {as : List Expr}
      {ks : List (Ident × Expr)} (ambiguous : Bool) : .filter s i n as ks ∈ xs →
      Pointed xs ts ⟨.unknownFilter n.text ambiguous, n.span⟩
  | tag {t : Located Tag.Call} {f : RenderFault} : t ∈ ts → t.value.Raises f →
      Pointed xs ts ⟨f, t.span⟩

variable {σ : Type}

/-! ## Calls -/

namespace Eval

variable {s : Setting σ} {span : Span} {P : Located RenderFault → Prop}

theorem blames_perform (h : ∀ callee message, P ⟨.call callee message, span⟩) (callee : String)
    (code : Code) (args : List Value) (ks : List (String × Value)) :
    Blames P (perform s span callee code args ks) := by
  cases code with
  | builtin f => exact .liftAt fun e => h _ _
  | host name =>
    intro w f w' hf
    exact Blames.liftAt (h callee) _ _ _ hf

theorem blames_call (h : ∀ callee message, P ⟨.call callee message, span⟩)
    (hc : ∀ kind, P ⟨.type (.notCallable kind), span⟩) (target : Value) (args : List Value)
    (ks : List (String × Value)) : Blames P (call s span target args ks) := by
  unfold call
  split
  · exact blames_perform h _ _ _ _
  · exact blames_perform h _ _ _ _
  · exact .fault (hc _)

theorem blames_filter {n : DottedName}
    (h : ∀ ambiguous, P ⟨.unknownFilter n.text ambiguous, n.span⟩) :
    Blames P (filter s n) := by
  unfold filter
  split
  · exact .pure _
  · exact .fault (h _)

theorem blames_tag {n : DottedName} (h : ∀ ambiguous, P ⟨.unknownTag n.text ambiguous, span⟩) :
    Blames P (tag s span n) := by
  unfold tag
  split
  · exact .pure _
  · exact .fault (h _)

theorem blames_elements (h : ∀ kind, P ⟨.type (.notIterable kind), span⟩) (v : Value) :
    Blames P (elements span v : Eval σ _) := by
  unfold elements
  split
  · exact .pure _
  · exact .fault (h _)

end Eval

/-! ## Expressions -/

section
variable (s : Setting σ) (names : String → Option Value) {xs : List Expr}
  {ts : List (Located Tag.Call)}

mutual

/-- One expression: it stops with a fault of its own or of an expression in it. -/
theorem Expr.blames_eval : ∀ e : Expr, e.subterms ⊆ xs →
    Eval.Blames (Pointed xs ts) (e.eval s names)
  | .literal _ _, _ => by
    rw [Expr.eval]
    exact .pure _
  | .name span x, h => by
    rw [Expr.eval]
    split
    · exact .pure _
    · exact .fault (.expr (h (Expr.mem_subterms_self _)) (.name span x))
  | .attribute span base a, h => by
    obtain ⟨hself, hbase⟩ := List.cons_subset.1 h
    rw [Expr.eval]
    refine (Expr.blames_eval base hbase).bind fun v => ?_
    split
    · exact .pure _
    · exact .fault (.missingAttribute _ hself)
  | .index span l r, h => by
    obtain ⟨hself, h⟩ := List.cons_subset.1 h
    obtain ⟨hl, hr⟩ := List.append_subset.1 h
    rw [Expr.eval]
    refine (Expr.blames_eval l hl).bind fun v => (Expr.blames_eval r hr).bind fun k => ?_
    exact .liftAt fun e => .expr hself (.index span l r e)
  | .arith span op l r, h => by
    obtain ⟨hself, h⟩ := List.cons_subset.1 h
    obtain ⟨hl, hr⟩ := List.append_subset.1 h
    rw [Expr.eval]
    refine (Expr.blames_eval l hl).bind fun v => (Expr.blames_eval r hr).bind fun k => ?_
    have hfresh : Eval.Blames (Pointed xs ts) (Eval.fresh : Eval σ Identity) := nofun
    exact hfresh.bind fun i => .liftAt fun e => .expr hself (.arith span op l r e)
  | .compare span op l r, h => by
    obtain ⟨hself, h⟩ := List.cons_subset.1 h
    obtain ⟨hl, hr⟩ := List.append_subset.1 h
    rw [Expr.eval]
    refine (Expr.blames_eval l hl).bind fun v => (Expr.blames_eval r hr).bind fun k => ?_
    have hlift {x : Except OperatorFault Bool} :
        Eval.Blames (Pointed xs ts) (Eval.liftAt span .ofOperator x : Eval σ Bool) :=
      .liftAt fun e => .expr hself (.compare span op l r e)
    exact hlift.bind fun b => .pure _
  | .logic span op l r, h => by
    obtain ⟨hself, h⟩ := List.cons_subset.1 h
    obtain ⟨hl, hr⟩ := List.append_subset.1 h
    rw [Expr.eval]
    refine (Expr.blames_eval l hl).bind fun v => ?_
    split
    · exact .pure _
    · exact .pure _
    · exact Expr.blames_eval r hr
  | .call span c as ks, h => by
    obtain ⟨hself, h⟩ := List.cons_subset.1 h
    obtain ⟨hc, h⟩ := List.append_subset.1 h
    obtain ⟨ha, hk⟩ := List.append_subset.1 h
    rw [Expr.eval]
    refine (Expr.blames_eval c hc).bind fun target => (blames_evalAll as ha).bind fun args =>
      (blames_evalKeywords ks hk).bind fun entries => ?_
    exact Eval.blames_call (fun callee m => .expr hself (.call span c as ks callee m))
      (fun kind => .expr hself (.notCallable span c as ks kind)) _ _ _
  | .filter span i n as ks, h => by
    obtain ⟨hself, h⟩ := List.cons_subset.1 h
    obtain ⟨hi, h⟩ := List.append_subset.1 h
    obtain ⟨ha, hk⟩ := List.append_subset.1 h
    rw [Expr.eval]
    refine (Eval.blames_filter fun ambiguous => .unknownFilter ambiguous hself).bind fun f =>
      (Expr.blames_eval i hi).bind fun input => (blames_evalAll as ha).bind fun args =>
      (blames_evalKeywords ks hk).bind fun entries => ?_
    exact Eval.blames_perform (fun callee m => .expr hself (.filter span i n as ks callee m))
      _ _ _ _

theorem blames_evalAll : ∀ es : List Expr, subtermsAll es ⊆ xs →
    Eval.Blames (Pointed xs ts) (evalAll s names es)
  | [], _ => by
    rw [evalAll]
    exact .pure _
  | e :: es, h => by
    obtain ⟨he, hes⟩ := List.append_subset.1 h
    rw [evalAll]
    exact (Expr.blames_eval e he).bind fun v => (blames_evalAll es hes).bind fun vs => .pure _

theorem blames_evalKeywords : ∀ ks : List (Ident × Expr), subtermsKeywords ks ⊆ xs →
    Eval.Blames (Pointed xs ts) (evalKeywords s names ks)
  | [], _ => by
    rw [evalKeywords]
    exact .pure _
  | (k, e) :: ks, h => by
    obtain ⟨he, hks⟩ := List.append_subset.1 h
    rw [evalKeywords]
    exact (Expr.blames_eval e he).bind fun v =>
      (blames_evalKeywords ks hks).bind fun vs => .pure _

end

end

/-! ## Nodes -/

section
variable (s : Setting σ) {xs : List Expr} {ts : List (Located Tag.Call)}

theorem Eval.blames_customTag (names : String → Option Value) {t : Located Tag.Call} (ht : t ∈ ts)
    (ha : subtermsAll t.value.args ⊆ xs) (hk : subtermsKeywords t.value.keywords ⊆ xs) :
    Blames (Pointed xs ts)
      (customTag s names t.span t.value.name t.value.args t.value.keywords) := by
  unfold customTag
  refine (blames_tag fun ambiguous => .tag ht (.unknown t.value ambiguous)).bind fun f =>
    (blames_evalAll s names _ ha).bind fun args =>
    (blames_evalKeywords s names _ hk).bind fun entries => ?_
  exact blames_perform (fun callee m => .tag ht (.call t.value callee m)) _ _ _ _

mutual

/-- One node: it stops with a fault of one of its expressions or tags. -/
theorem Node.blames_meaning : ∀ (n : Node) (names : String → Option Value),
    n.exprs.flatMap Expr.subterms ⊆ xs → n.tags ⊆ ts →
    Eval.Blames (Pointed xs ts) (n.meaning s names)
  | .text _ _, _, _, _ | .comment _, _, _, _ => by
    rw [Node.meaning]
    exact .pure _
  | .value _ e, names, he, _ => by
    rw [Node.exprs, List.flatMap_singleton] at he
    rw [Node.meaning]
    exact (Expr.blames_eval s names e he).bind fun v => .pure _
  | .conditional _ test body orelse, names, he, ht => by
    simp only [Node.exprs, List.flatMap_cons, List.flatMap_append, List.append_subset] at he
    obtain ⟨htest, hbody, horelse⟩ := he
    obtain ⟨hb, ho⟩ := List.append_subset.1 ht
    rw [Node.meaning]
    refine (Expr.blames_eval s names test htest).bind fun v => ?_
    split
    · exact blames_meaningAll body names hbody hb
    · exact blames_meaningAll orelse names horelse ho
  | .loop _ target iterable body orelse, names, he, ht => by
    simp only [Node.exprs, List.flatMap_cons, List.flatMap_append, List.append_subset] at he
    obtain ⟨hiterable, hbody, horelse⟩ := he
    obtain ⟨hb, ho⟩ := List.append_subset.1 ht
    have hself := hiterable iterable.mem_subterms_self
    rw [Node.meaning]
    refine (Expr.blames_eval s names iterable hiterable).bind fun v =>
      (Eval.blames_elements (fun kind => .expr hself (.notIterable iterable kind)) v).bind
        fun items => ?_
    split
    · exact blames_meaningAll orelse names horelse ho
    · have hturn := fun item =>
        blames_meaningAll body (extend names target.name item) hbody hb
      exact (Eval.Blames.mapM hturn items).bind fun outputs => .pure _
  | .tag span name args ks, names, he, ht => by
    rw [Node.exprs, List.flatMap_append, ← subtermsKeywords_eq_flatMap, ← subtermsAll_eq_flatMap,
      List.append_subset] at he
    have hself : (⟨⟨name, args, ks⟩, span⟩ : Located Tag.Call) ∈ ts := ht List.mem_cons_self
    rw [Node.meaning]
    exact (Eval.blames_customTag s names hself he.1 he.2).bind fun v => .pure _

/-- **The run**: nodes stop with a fault of one of their expressions or tags. -/
theorem blames_meaningAll : ∀ (ns : List Node) (names : String → Option Value),
    nodeSubterms ns ⊆ xs → nodeTags ns ⊆ ts → Eval.Blames (Pointed xs ts) (meaningAll s ns names)
  | [], _, _, _ => by
    rw [meaningAll]
    exact .pure _
  | n :: ns, names, he, ht => by
    simp only [nodeSubterms, nodeExprs, List.flatMap_append, List.append_subset] at he
    obtain ⟨htn, htns⟩ := List.append_subset.1 ht
    rw [meaningAll]
    exact (Node.blames_meaning n names he.1 htn).bind fun a =>
      (blames_meaningAll ns names he.2 htns).bind fun b => .pure _

end

end
/-! ## Templates -/

/-- What a fault of a document points to is a piece of its source. -/
theorem Pointed.proper {source : List Char} {ns : List Node} (h : Document.read source = .ok ns)
    {f : Located RenderFault} (hf : Pointed (nodeSubterms ns) (nodeTags ns) f) :
    f.span.Proper source := by
  obtain ⟨hexprs, htags⟩ := nested_nodeParts (Document.tiles_of_read h).2.nested
  cases hf with
  | expr hx _ => exact Expr.proper_span (hexprs _ hx)
  | missingAttribute _ hx => exact Expr.proper_attribute (hexprs _ hx)
  | unknownFilter _ hx =>
    obtain ⟨bs, -, hbs⟩ := Document.read_eq_ok_iff.1 h
    exact Expr.proper_filterName (hexprs _ hx) (Node.checked_of_ofBlocks hbs _ hx).1
  | tag ht _ => exact htags _ ht

namespace Template

/-- **Every render error points into the source.** When a template that was compiled from a source
fails to render, in whatever context, with whatever library, host and configuration, the span of the
error is a piece of the source, not empty and cut between characters; it is the span of an
expression, of an attribute, of the name of a filter or of a tag of the template, and the fault is
one of that expression, attribute, filter or tag; and the location is the one that is counted up to
the start of the span. -/
theorem fault_points {source : String} {t : Template} (h : compile source = .ok t) {host : Host σ}
    {library : Library} {config : Config} {context : Context} {state state' : σ} {e : RenderError}
    (he : t.render host library config context state = (.error e, state')) :
    e.span.Proper source.toList ∧
    Pointed (nodeSubterms t.nodes) (nodeTags t.nodes) ⟨e.fault, e.span⟩ ∧
    ∃ before after, source.toList = before ++ after ∧
      Text.byteLength before = e.span.start ∧ e.location = .counted before := by
  obtain ⟨ns, hread, rfl⟩ := compile_eq_ok_iff.1 h
  rcases hm : meaning ⟨.ofText source.toList, ns, none⟩ host library config context ⟨0, state⟩ with
    ⟨f | text, w⟩
  · rw [render_eq_renderIn, renderIn_of_error hm] at he
    obtain ⟨rfl⟩ : RenderError.ofFault (.ofText source.toList) f = e :=
      Except.error.inj (Prod.mk.inj he).1
    have hpointed := blames_meaningAll _ ns _ (List.Subset.refl _) (List.Subset.refl _) _ _ _ hm
    have hproper := hpointed.proper hread
    obtain ⟨before, after, hsource, hlength⟩ := hproper.start
    refine ⟨hproper, hpointed, before, after, hsource, hlength, ?_⟩
    rw [RenderError.ofFault, ← hlength, hsource]
    exact LineIndex.locate_counted before after
  · rw [render_eq_renderIn, renderIn_of_ok hm] at he
    cases (Prod.mk.inj he).1

/-- A filter that nobody has registered, in the second line and behind a letter of two bytes. -/
def unregistered : String := "a\né\x7b\x7b x|a.b \x7d\x7d"

/-- The tree of `unregistered`. -/
def unregisteredTree : List Node :=
  [.text ⟨0, 4⟩ "a\né", .value ⟨4, 15⟩ (.filter ⟨7, 12⟩ (.name ⟨7, 8⟩ "x")
    ⟨[⟨"a", ⟨9, 10⟩⟩, ⟨"b", ⟨11, 12⟩⟩]⟩ [] [])]

theorem fault_points_unregistered : ∃ t e, compile unregistered = .ok t ∧
    t.render .none .withBuiltins .default [("x", .int 1)] () = (.error e, ()) ∧
    e = ⟨.unknownFilter "a.b" false, ⟨9, 12⟩, ⟨2, 7⟩⟩ ∧
    e.span.Proper unregistered.toList ∧
    Pointed (nodeSubterms unregisteredTree) (nodeTags unregisteredTree) ⟨e.fault, e.span⟩ := by
  have hblocks : Document.blocks unregistered.toList = .ok [.text ⟨0, 4⟩ ['a', '\n', 'é'],
      .value ⟨4, 15⟩ ⟨"x|a.b".toList, ⟨7, 12⟩⟩] := by with_unfolding_all rfl
  have hread : Document.read unregistered.toList = .ok unregisteredTree := by
    rw [Document.read_of_blocks hblocks]
    with_unfolding_all rfl
  have hcompile := compile_eq_ok_iff.2 ⟨_, hread, rfl⟩
  have hrender : Template.render ⟨.ofText unregistered.toList, unregisteredTree, none⟩ .none
      .withBuiltins .default [("x", .int 1)] () =
        (.error ⟨.unknownFilter "a.b" false, ⟨9, 12⟩, ⟨2, 7⟩⟩, ()) := by with_unfolding_all rfl
  obtain ⟨hproper, hpointed, -⟩ := fault_points hcompile hrender
  exact ⟨_, _, hcompile, hrender, rfl, hproper, hpointed⟩

end Template
end Stencil
