import Stencil.Proofs.Render.Inert
import Stencil.Template

/-!
# Escaping cannot be bypassed

With escaping on, the markup characters of an output are those of the template's texts. To say which
character of the output comes from where, the texts of a template are spelled in another way, in
which only the markup characters differ: the output then is the old one in that spelling
(`render_respelled`). So no markup character of the output is anything but a copy of one in a
text, and a template whose texts have none has a clean output.
-/
namespace Stencil

variable {σ : Type}

/-! ## Filters and texts of a document -/

mutual

/-- The names of the filters that a node applies, at any depth. -/
def Node.filters : Node → List DottedName
  | .text _ _ | .comment _ => []
  | .value _ e => e.filters
  | .conditional _ t b o => t.filters ++ nodeFilters b ++ nodeFilters o
  | .loop _ _ i b o => i.filters ++ nodeFilters b ++ nodeFilters o
  | .tag _ _ as ks => filtersAll as ++ filtersKeywords ks

def nodeFilters : List Node → List DottedName
  | [] => []
  | n :: ns => n.filters ++ nodeFilters ns

end

mutual

/-- The texts of a node, at any depth. -/
def Node.texts : Node → List String
  | .text _ t => [t]
  | .comment _ | .value _ _ | .tag _ _ _ _ => []
  | .conditional _ _ b o | .loop _ _ _ b o => nodeTexts b ++ nodeTexts o

def nodeTexts : List Node → List String
  | [] => []
  | n :: ns => n.texts ++ nodeTexts ns

end

mutual

/-- The same node with every text changed by `f`. -/
def Node.mapText (f : String → String) : Node → Node
  | .text s t => .text s (f t)
  | .comment s => .comment s
  | .value s e => .value s e
  | .conditional s t b o => .conditional s t (mapTexts f b) (mapTexts f o)
  | .loop s x i b o => .loop s x i (mapTexts f b) (mapTexts f o)
  | .tag s n as ks => .tag s n as ks

def mapTexts (f : String → String) : List Node → List Node
  | [] => []
  | n :: ns => n.mapText f :: mapTexts f ns

end

mutual

theorem mapText_of_fixed {f : String → String} : ∀ n : Node, (∀ t ∈ n.texts, f t = t) →
    n.mapText f = n
  | .text _ t, h => by rw [Node.mapText, h t (by simp [Node.texts])]
  | .comment _, _ | .value _ _, _ | .tag _ _ _ _, _ => by rw [Node.mapText]
  | .conditional _ _ b o, h => by
    simp only [Node.texts, List.forall_mem_append] at h
    rw [Node.mapText, mapTexts_of_fixed b h.1, mapTexts_of_fixed o h.2]
  | .loop _ _ _ b o, h => by
    simp only [Node.texts, List.forall_mem_append] at h
    rw [Node.mapText, mapTexts_of_fixed b h.1, mapTexts_of_fixed o h.2]

theorem mapTexts_of_fixed {f : String → String} : ∀ ns : List Node,
    (∀ t ∈ nodeTexts ns, f t = t) → mapTexts f ns = ns
  | [], _ => rfl
  | n :: ns, h => by
    simp only [nodeTexts, List.forall_mem_append] at h
    rw [mapTexts, mapText_of_fixed n h.1, mapTexts_of_fixed ns h.2]

end

/-! ## Scopes -/

/-- Every name in scope means an inert value. -/
structure Scope.Inert (s : Scope) : Prop where
  frames : ∀ e ∈ s.frames.toList, e.2.Inert
  context : ∀ e ∈ s.context, e.2.Inert

namespace Scope.Inert

variable {s : Scope}

theorem lookup (h : s.Inert) (name : String) (v : Value) (hv : s.lookup name = some v) :
    v.Inert := by
  rw [Scope.lookup, Option.or_eq_some_iff] at hv
  rcases hv with hv | ⟨-, hv⟩
  · exact Value.inert_of_find? (fun e he => h.frames e (List.mem_reverse.1 he)) hv
  rw [Context.resolve, Option.or_eq_some_iff] at hv
  rcases hv with hv | ⟨-, hv⟩
  · exact Value.inert_of_find? h.context hv
  · unfold constant? at hv
    split at hv
    case h_7 => simp at hv
    all_goals
      obtain rfl := Option.some.inj hv
      constructor

theorem push (h : s.Inert) (name : String) : (s.push name).Inert := by
  refine ⟨fun e he => ?_, h.context⟩
  rw [Scope.push, Array.toList_push, List.mem_append, List.mem_singleton] at he
  rcases he with he | rfl
  · exact h.frames e he
  · exact .none

theorem bind (h : s.Inert) (frame : Nat) {v : Value} (hv : v.Inert) : (s.bind frame v).Inert := by
  refine ⟨fun e he => ?_, h.context⟩
  rw [Scope.bind, Array.toList_modify] at he
  obtain ⟨i, hi⟩ := List.mem_iff_getElem?.1 he
  rw [List.getElem?_modify] at hi
  obtain ⟨e', he', rfl⟩ := Option.map_eq_some_iff.1 hi
  split
  · exact hv
  · exact h.frames e' (List.mem_of_getElem? he')

theorem pop (h : s.Inert) : s.pop.Inert := by
  refine ⟨fun e he => h.frames e ?_, h.context⟩
  rw [Scope.pop, Array.toList_pop] at he
  exact (List.dropLast_sublist _).subset he

end Scope.Inert

/-! ## Rendering with other spellings -/

/-- A render that stands where `p` does and has put out the same text in the spelling `g`. -/
structure Progress.Respelled (g : Char → List Char) (p q : Progress) : Prop where
  scope : q.scope = p.scope
  inert : p.scope.Inert
  output : q.output = Text.respell g p.output

namespace Progress.Respelled

variable {g : Char → List Char} {p q : Progress}

theorem write (h : Respelled g p q) (t : String) :
    Respelled g (p.write t) (q.write (Text.respell g t)) := by
  refine ⟨h.scope, h.inert, ?_⟩
  simp only [Progress.write, h.output, Text.respell_append]

theorem bind (h : Respelled g p q) (frame : Nat) {v : Value} (hv : v.Inert) :
    Respelled g (p.bind frame v) (q.bind frame v) :=
  ⟨by simp only [Progress.bind, h.scope], h.inert.bind frame hv, h.output⟩

end Progress.Respelled

theorem ensures_elements {span : Span} {v : Value} (h : v.Inert) :
    Eval.Ensures (fun items => ∀ i ∈ items, i.Inert)
      (Eval.elements span v : Eval σ (List Value)) := by
  unfold Eval.elements
  split
  · rename_i items hi
    exact .pure (Value.inert_elements h hi)
  · exact .fault _ _

/-- There are no tags to look up. -/
theorem ensures_customTag {s : Setting σ} (hs : s.library = .withBuiltins)
    (names : String → Option Value) (span : Span) (name : DottedName) (args : List Expr)
    (keywords : List (Ident × Expr)) (P : Value → Prop) :
    Eval.Ensures P (Eval.customTag s names span name args keywords) := by
  have ht : Eval.Ensures (fun _ => False) (Eval.tag s span name) := by
    unfold Eval.tag
    rw [hs]
    exact .fault _ _
  exact ht.bind fun _ hf => hf.elim

section
variable {s : Setting σ} (hs : s.library = .withBuiltins) (he : s.autoescape = true)
  {g : Char → List Char} (hg : ∀ c, Text.isMarkup c = false → g c = [c])

include he hg in
/-- What is put out for an inert value is the same in every spelling of the markup characters. -/
theorem respell_emit {v : Value} (hv : v.Inert) : Text.respell g (s.emit v) = s.emit v := by
  rw [Setting.emit, if_pos he]
  exact Text.respell_of_clean hg (Value.clean_escaped hv)

end

mutual

/-- One step: a node with its texts respelled does what the node does, respelled. -/
theorem related_render {s : Setting σ} (hs : s.library = .withBuiltins) (he : s.autoescape = true)
    {g : Char → List Char} (hg : ∀ c, Text.isMarkup c = false → g c = [c]) :
    ∀ (n : Node), (∀ f ∈ n.filters, f.Escapes) → ∀ {p q : Progress}, p.Respelled g q →
      Eval.Related (Progress.Respelled g) (n.render s p) ((n.mapText (Text.respell g)).render s q)
  | .text _ t, _, p, q, h => by
    rw [Node.mapText, Node.render, Node.render]
    exact .pure (h.write t)
  | .comment _, _, p, q, h => by
    rw [Node.mapText, Node.render, Node.render]
    exact .pure h
  | .value _ e, hf, p, q, h => by
    rw [Node.mapText, Node.render, Node.render, h.scope]
    refine (Eval.Related.of_ensures (ensures_eval hs h.inert.lookup e hf)).bind ?_
    rintro v _ ⟨rfl, hv⟩
    have hw := h.write (s.emit v)
    rw [respell_emit he hg hv] at hw
    exact .pure hw
  | .conditional _ t b o, hf, p, q, h => by
    simp only [Node.filters, List.forall_mem_append] at hf
    rw [Node.mapText, Node.render, Node.render, h.scope]
    refine (Eval.Related.of_ensures (.trivial _)).bind ?_
    rintro v _ ⟨rfl, -⟩
    split
    · exact related_renderAll hs he hg b hf.1.2 h
    · exact related_renderAll hs he hg o hf.2 h
  | .loop _ x i b o, hf, p, q, h => by
    simp only [Node.filters, List.forall_mem_append] at hf
    rw [Node.mapText, Node.render, Node.render, h.scope]
    refine (Eval.Related.of_ensures (ensures_eval hs h.inert.lookup i hf.1.1)).bind ?_
    rintro v _ ⟨rfl, hv⟩
    refine (Eval.Related.of_ensures (ensures_elements hv)).bind ?_
    rintro items _ ⟨rfl, hi⟩
    split
    · exact related_renderAll hs he hg o hf.2 h
    -- the invariant of the loop is that of a single node, with one more frame on the scope
    have hopened : Progress.Respelled g { p with scope := p.scope.push x.name }
        { q with scope := p.scope.push x.name } := ⟨rfl, h.inert.push _, h.output⟩
    refine (Eval.Related.foldlM items hopened fun p' q' h' j hj => ?_).bind fun p' q' h' => ?_
    · exact related_renderAll hs he hg b hf.1.2 (h'.bind _ (hi j hj))
    · exact .pure ⟨by rw [h'.scope], h'.inert.pop, h'.output⟩
  | .tag _ n as ks, hf, p, q, h => by
    rw [Node.mapText, Node.render, Node.render, h.scope]
    refine (Eval.Related.of_ensures (ensures_customTag hs _ _ _ _ _ fun _ => False)).bind ?_
    exact fun _ _ hf => hf.2.elim

theorem related_renderAll {s : Setting σ} (hs : s.library = .withBuiltins)
    (he : s.autoescape = true) {g : Char → List Char}
    (hg : ∀ c, Text.isMarkup c = false → g c = [c]) :
    ∀ (ns : List Node), (∀ f ∈ nodeFilters ns, f.Escapes) → ∀ {p q : Progress},
      p.Respelled g q →
      Eval.Related (Progress.Respelled g) (renderAll s ns p)
        (renderAll s (mapTexts (Text.respell g) ns) q)
  | [], _, p, q, h => by
    rw [mapTexts, renderAll, renderAll]
    exact .pure h
  | n :: ns, hf, p, q, h => by
    simp only [nodeFilters, List.forall_mem_append] at hf
    rw [mapTexts, renderAll, renderAll]
    exact (related_render hs he hg n hf.1 h).bind fun _ _ h' =>
      related_renderAll hs he hg ns hf.2 h'

end

namespace Template

/-- The names of the filters that a template applies. -/
def filters (t : Template) : List DottedName := nodeFilters t.nodes

/-- The texts of a template that stand outside of its markers. -/
def texts (t : Template) : List String := nodeTexts t.nodes

/-- The same template with every text changed by `f`. -/
def mapText (f : String → String) (t : Template) : Template :=
  { t with nodes := mapTexts f t.nodes }

theorem mapText_of_clean {g : Char → List Char}
    (hg : ∀ c, Text.isMarkup c = false → g c = [c]) {t : Template}
    (h : ∀ s ∈ t.texts, Text.Clean s.toList) : t.mapText (Text.respell g) = t := by
  rw [mapText, mapTexts_of_fixed t.nodes fun s hs => Text.respell_of_clean hg (h s hs)]

section
variable {t : Template} (host : Host σ) {config : Config} {context : Context} (state : σ)
  (he : config.autoescape = true) (hf : ∀ n ∈ t.filters, n.Escapes)
  (hc : ∀ e ∈ context, e.2.Inert)
include he hf hc

/-- The run: with its texts respelled, a template renders to its old output respelled. -/
theorem render_respelled {g : Char → List Char}
    (hg : ∀ c, Text.isMarkup c = false → g c = [c]) :
    (t.mapText (Text.respell g)).render host .withBuiltins config context state =
      ((t.render host .withBuiltins config context state).1.map (Text.respell g),
        (t.render host .withBuiltins config context state).2) := by
  have hstart : Progress.Respelled g ⟨.ofContext context, ""⟩ ⟨.ofContext context, ""⟩ :=
    ⟨rfl, ⟨by simp [Scope.ofContext], hc⟩, rfl⟩
  obtain ⟨ha, hw⟩ := related_renderAll (s := ⟨host, .withBuiltins, config.autoescape⟩) rfl he hg
    t.nodes hf hstart ⟨0, state⟩
  simp only [render, Document.render, mapText]
  rcases hr : renderAll ⟨host, .withBuiltins, config.autoescape⟩ t.nodes
    ⟨.ofContext context, ""⟩ ⟨0, state⟩ with ⟨r, w⟩
  rcases hr' : renderAll ⟨host, .withBuiltins, config.autoescape⟩
    (mapTexts (Text.respell g) t.nodes) ⟨.ofContext context, ""⟩ ⟨0, state⟩ with ⟨r', w'⟩
  rw [hr, hr'] at ha hw
  obtain rfl : w = w' := hw
  cases ha with
  | @ok p q h =>
    show (Except.ok q.output, w.host) = (Except.ok (Text.respell g p.output), w.host)
    rw [h.output]
  | error e => rfl

end

/-- **No markup character is put out but those of the texts.** When a template escapes and never
applies `safe`, and nothing in the context is to be called or is markup already, then whatever the
markup characters of its texts are spelled as, that is what they are in the output, and nothing
else in the output changes. In particular, clean texts have a clean output. -/
theorem markup_from_texts (t : Template) (host : Host σ) (config : Config) (context : Context)
    (state : σ) (he : config.autoescape = true) (hf : ∀ n ∈ t.filters, n.Escapes)
    (hc : ∀ e ∈ context, e.2.Inert) :
    (∀ g : Char → List Char, (∀ c, Text.isMarkup c = false → g c = [c]) →
      (t.mapText (Text.respell g)).render host .withBuiltins config context state =
        ((t.render host .withBuiltins config context state).1.map (Text.respell g),
          (t.render host .withBuiltins config context state).2)) ∧
    ((∀ s ∈ t.texts, Text.Clean s.toList) → ∀ output state',
      t.render host .withBuiltins config context state = (.ok output, state') →
        Text.Clean output.toList) := by
  refine ⟨fun g hg => render_respelled host state he hf hc hg, fun hclean output state' hr => ?_⟩
  -- leaving the markup characters out changes no text, so it does not change the output either
  have hsame := render_respelled host state he hf hc
    fun _ => Text.withoutMarkup_of_not
  rw [mapText_of_clean (fun _ => Text.withoutMarkup_of_not) hclean, hr] at hsame
  have hout : output = Text.respell Text.withoutMarkup output := by
    simpa [Except.map] using hsame
  rw [hout]
  exact Text.clean_withoutMarkup output

/-- `<b>{{ x | upper }}` -/
def bold : Template :=
  ⟨.ofText "<b>\x7b\x7b x | upper \x7d\x7d".toList,
    [.text ⟨0, 3⟩ "<b>",
      .value ⟨3, 18⟩
        (.filter ⟨6, 15⟩ (.name ⟨6, 7⟩ "x") ⟨[⟨"upper", ⟨10, 15⟩⟩]⟩ [] [])],
    none⟩

theorem markup_from_texts_bold :
    (bold.mapText (Text.respell Text.withoutMarkup)).render Host.none .withBuiltins .default
        [("x", .safe "&amp;")] () =
      ((bold.render Host.none .withBuiltins .default [("x", .safe "&amp;")] ()).1.map
          (Text.respell Text.withoutMarkup),
        (bold.render Host.none .withBuiltins .default [("x", .safe "&amp;")] ()).2) :=
  (markup_from_texts bold Host.none .default [("x", .safe "&amp;")] () rfl
    (by simp [filters, bold, nodeFilters, Node.filters, Expr.filters, filtersAll,
      filtersKeywords, DottedName.Escapes, DottedName.text])
    (by
      intro e he
      obtain rfl : e = ("x", .safe "&amp;") := by simpa using he
      exact .safe (by decide))).1 _ fun _ => Text.withoutMarkup_of_not

end Template
end Stencil
