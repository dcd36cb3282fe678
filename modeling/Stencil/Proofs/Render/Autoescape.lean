import Stencil.Proofs.Expr.Grammar
import Stencil.Proofs.Render.Lexical
import Stencil.Template

/-!
# The switch and the filters

Escaping can be decided by the switch or in the template: without escaping a template puts out what it
does with escaping when every value is piped through `safe`, and with escaping what it does without
when every value is piped through `escape` (`Template.render_autoescape`). Only what a value node
puts out depends on the switch; the values themselves, the tests and the loops do not. Custom tags are
left out, for what they put out is escaped as well and no filter can be written behind them.
-/
namespace Stencil

variable {σ : Type}

/-! ## Values piped through a filter -/

mutual

/-- The same node with every expression that it puts out changed by `f`, at any depth. -/
def Node.mapValue (f : Expr → Expr) : Node → Node
  | .text s t => .text s t
  | .comment s => .comment s
  | .value s e => .value s (f e)
  | .conditional s t b o => .conditional s t (mapValues f b) (mapValues f o)
  | .loop s x i b o => .loop s x i (mapValues f b) (mapValues f o)
  | .tag s n as ks => .tag s n as ks

/-- The same nodes with every expression that they put out changed. -/
def mapValues (f : Expr → Expr) : List Node → List Node
  | [] => []
  | n :: ns => n.mapValue f :: mapValues f ns

end

mutual

/-- The names of the custom tags in a node, at any depth. -/
def Node.customTags : Node → List DottedName
  | .text _ _ | .comment _ | .value _ _ => []
  | .conditional _ _ b o | .loop _ _ _ b o => customTagsAll b ++ customTagsAll o
  | .tag _ n _ _ => [n]

/-- The names of the custom tags in some nodes. -/
def customTagsAll : List Node → List DottedName
  | [] => []
  | n :: ns => n.customTags ++ customTagsAll ns

end

/-- `g` pipes expressions through a built-in filter, under its qualified name and at whatever place. -/
def Pipes (filter : Builtin) (g : Expr → Expr) : Prop :=
  ∀ e, ∃ span name, g e = .filter span e name [] [] ∧ name.text = Library.builtinName filter

/-- The qualified name of a built-in filter stands for that filter. -/
def Library.Serves (l : Library) (filter : Builtin) : Prop :=
  ∃ c, l.filters.find? (builtinName filter) = some c ∧ c.code = .builtin filter

/-- The setting with escaping switched on or off. -/
def Setting.switch (s : Setting σ) (on : Bool) : Setting σ := { s with autoescape := on }

/-! ## Values do not depend on the switch -/

section
variable (s : Setting σ) (on : Bool) (names : String → Option Value)

mutual

theorem Expr.eval_switch : ∀ e : Expr, e.eval (s.switch on) names = e.eval s names
  | .literal _ _ => by simp only [Expr.eval]
  | .name _ _ => by simp only [Expr.eval]
  | .attribute _ base _ => by simp only [Expr.eval, Expr.eval_switch base]
  | .index _ base key => by
    simp only [Expr.eval, Expr.eval_switch base, Expr.eval_switch key]
  | .arith _ _ left right | .compare _ _ left right | .logic _ _ left right => by
    simp only [Expr.eval, Expr.eval_switch left, Expr.eval_switch right]
  | .call _ callee args keywords => by
    simp only [Expr.eval, Expr.eval_switch callee, evalAll_switch args,
      evalKeywords_switch keywords]
    rfl
  | .filter _ input _ args keywords => by
    simp only [Expr.eval, Expr.eval_switch input, evalAll_switch args,
      evalKeywords_switch keywords]
    rfl

theorem evalAll_switch : ∀ es : List Expr, evalAll (s.switch on) names es = evalAll s names es
  | [] => by simp only [evalAll]
  | e :: es => by simp only [evalAll, Expr.eval_switch e, evalAll_switch es]

theorem evalKeywords_switch : ∀ ks : List (Ident × Expr),
    evalKeywords (s.switch on) names ks = evalKeywords s names ks
  | [] => by simp only [evalKeywords]
  | (_, e) :: ks => by simp only [evalKeywords, Expr.eval_switch e, evalKeywords_switch ks]

end

end

/-! ## What a piped value puts out -/

/-- A filter that cannot fail changes the value of its input and nothing else. -/
theorem Expr.eval_piped {s : Setting σ} {filter : Builtin} (hlib : s.library.Serves filter)
    (out : Value → Value) (hout : ∀ v, filter.applyTo v [] [] = .ok (out v))
    {g : Expr → Expr} (hg : Pipes filter g) (e : Expr) (names : String → Option Value) :
    (g e).eval s names = out <$> e.eval s names := by
  obtain ⟨span, name, hge, hname⟩ := hg e
  obtain ⟨c, hfind, hcode⟩ := hlib
  have hfilter : Eval.filter s name = pure c := by rw [Eval.filter, hname, hfind]
  have happly (v : Value) : Eval.invoke s span c [v] [] = pure (out v) := by
    rw [Eval.invoke, hcode]
    simp only [Eval.perform, Builtin.apply, hout, Eval.liftAt]
  rw [hge]
  simp only [Expr.eval, evalAll, evalKeywords, Entries.ofList_nil, hfilter, pure_bind, happly,
    map_eq_pure_bind]

/-- With the switch at `after`, changed values put out what they do unchanged with the switch at
`before`. -/
def PutOutAlike (s : Setting σ) (before after : Bool) (g : Expr → Expr) : Prop :=
  ∀ e names, (s.switch after).emit <$> (g e).eval (s.switch after) names =
    (s.switch before).emit <$> e.eval (s.switch before) names

theorem putOutAlike_safe {s : Setting σ} {g : Expr → Expr} (hlib : s.library.Serves .safe)
    (hg : Pipes .safe g) : PutOutAlike s false true g := by
  intro e names
  rw [Expr.eval_switch, Expr.eval_switch,
    Expr.eval_piped hlib (fun v => .safe v.text) (fun _ => rfl) hg, Functor.map_map]
  rfl

theorem putOutAlike_escape {s : Setting σ} {g : Expr → Expr} (hlib : s.library.Serves .escape)
    (hg : Pipes .escape g) : PutOutAlike s true false g := by
  intro e names
  rw [Expr.eval_switch, Expr.eval_switch,
    Expr.eval_piped hlib (fun v => .safe v.escaped) (fun _ => rfl) hg, Functor.map_map]
  rfl

/-! ## Documents -/

section
variable {s : Setting σ} {before after : Bool} {g : Expr → Expr}

mutual

/-- One step: the tests and loops of a node do not see the switch, and its values put out the same. -/
theorem Node.meaning_mapValue (h : PutOutAlike s before after g) :
    ∀ (n : Node) (names : String → Option Value), n.customTags = [] →
      (n.mapValue g).meaning (s.switch after) names = n.meaning (s.switch before) names
  | .text _ _, _, _ => by simp only [Node.mapValue, Node.meaning]
  | .comment _, _, _ => by simp only [Node.mapValue, Node.meaning]
  | .value _ e, names, _ => by
    simpa only [Node.mapValue, Node.meaning, map_eq_pure_bind] using h e names
  | .conditional _ test body orelse, names, hn => by
    obtain ⟨hbody, horelse⟩ := List.append_eq_nil_iff.1 hn
    simp only [Node.mapValue, Node.meaning, Expr.eval_switch,
      meaningAll_mapValues h body names hbody, meaningAll_mapValues h orelse names horelse]
  | .loop _ target iterable body orelse, names, hn => by
    obtain ⟨hbody, horelse⟩ := List.append_eq_nil_iff.1 hn
    have hturn (item : Value) :=
      meaningAll_mapValues h body (extend names target.name item) hbody
    simp only [Node.mapValue, Node.meaning, Expr.eval_switch, hturn,
      meaningAll_mapValues h orelse names horelse]
  | .tag _ _ _ _, _, hn => by cases hn

/-- **The run.** Nodes with changed values put out under the new switch what they did under the old
one. -/
theorem meaningAll_mapValues (h : PutOutAlike s before after g) :
    ∀ (ns : List Node) (names : String → Option Value), customTagsAll ns = [] →
      meaningAll (s.switch after) (mapValues g ns) names = meaningAll (s.switch before) ns names
  | [], _, _ => by simp only [mapValues, meaningAll]
  | n :: ns, names, hns => by
    obtain ⟨hn, hns⟩ := List.append_eq_nil_iff.1 hns
    simp only [mapValues, meaningAll, Node.meaning_mapValue h n names hn,
      meaningAll_mapValues h ns names hns]

end

end

/-- The template with every expression that it puts out changed. -/
def Template.mapValues (g : Expr → Expr) (t : Template) : Template :=
  { t with nodes := Stencil.mapValues g t.nodes }

/-- **The switch and the filters agree.** For a template without custom tags, no escaping is the same
as escaping with every value behind `safe`, and escaping is the same as none with every value behind
`escape`: in the output, or the fault with its span and location, and in what the host is left with. -/
theorem Template.render_autoescape (t : Template) (host : Host σ) {library : Library}
    (config : Config) (context : Context) (state : σ) (htags : customTagsAll t.nodes = [])
    (hsafe : library.Serves .safe) (hescape : library.Serves .escape)
    {safe escape : Expr → Expr} (hs : Pipes .safe safe) (he : Pipes .escape escape) :
    t.render host library { config with autoescape := false } context state =
        (t.mapValues safe).render host library { config with autoescape := true } context state ∧
      t.render host library { config with autoescape := true } context state =
        (t.mapValues escape).render host library { config with autoescape := false } context
          state := by
  let s : Setting σ := ⟨host, library, true⟩
  have hoff : meaningAll (s.switch true) (Stencil.mapValues safe t.nodes) context.resolve =
      meaningAll (s.switch false) t.nodes context.resolve :=
    meaningAll_mapValues (putOutAlike_safe hsafe hs) t.nodes context.resolve htags
  have hon : meaningAll (s.switch false) (Stencil.mapValues escape t.nodes) context.resolve =
      meaningAll (s.switch true) t.nodes context.resolve :=
    meaningAll_mapValues (putOutAlike_escape hescape he) t.nodes context.resolve htags
  simp only [Setting.switch, s] at hoff hon
  simp only [render, mapValues, Document.render_eq, hoff, hon, and_self]

/-- A value piped through a built-in filter, all at the place of the value. -/
def piped (filter : Builtin) (e : Expr) : Expr :=
  .filter e.span e ⟨[⟨"builtins", e.span⟩, ⟨filter.name, e.span⟩]⟩ [] []

theorem pipes_piped (filter : Builtin) : Pipes filter (piped filter) := by
  intro e
  exact ⟨_, _, rfl, by cases filter <;> rfl⟩

theorem serves_withBuiltins (filter : Builtin) : Library.withBuiltins.Serves filter := by
  cases filter <;> exact ⟨_, rfl, rfl⟩

/-- Values within a loop and a branch, and one of a name that may not be defined. -/
def switching : String := "{% for x in xs %}{% if x %}{{ x }}{% else %}-{% endif %}{% endfor %}{{ y }}"

/-- Text, markup and nothing. -/
def switched : Context :=
  [("xs", .list (.given 0) [.str "<b>", .safe "<i>", .str ""]), ("y", .str "&")]

/-- Markup stands as it is either way, and the text around it goes by the switch or the filter. -/
theorem Template.render_autoescape_switching : ∃ t, compile switching = .ok t ∧
    customTagsAll t.nodes = [] ∧
    t.render .none .withBuiltins { Config.default with autoescape := false } switched () =
      (t.mapValues (piped .safe)).render .none .withBuiltins
        { Config.default with autoescape := true } switched () ∧
    t.render .none .withBuiltins { Config.default with autoescape := true } switched () =
      (t.mapValues (piped .escape)).render .none .withBuiltins
        { Config.default with autoescape := false } switched () := by
  have hcompile : (compile switching).toOption.map (fun t => (customTagsAll t.nodes).isEmpty) =
      some true := by decide +kernel
  obtain ⟨t, ht, hempty⟩ := Option.map_eq_some_iff.1 hcompile
  have htags : customTagsAll t.nodes = [] := List.isEmpty_iff.1 hempty
  exact ⟨t, Expr.toOption_eq_some_iff.1 ht, htags,
    Template.render_autoescape t .none .default switched () htags (serves_withBuiltins .safe)
      (serves_withBuiltins .escape) (pipes_piped .safe) (pipes_piped .escape)⟩

end Stencil
