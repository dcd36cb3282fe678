import Stencil.Proofs.Document.Concatenation
import Stencil.Proofs.Document.Nesting
import Stencil.Proofs.Render.Relocation
import Stencil.Template

/-!
# Rendering two sources as one

Two sources that compile on their own and that no marker stands across compile as one, and the one
template does what the two do one after the other (`Template.render_append`): it puts out both
outputs, or stops where one of the two stops.
-/
namespace Stencil

variable {σ : Type}

/-! ## Documents -/

theorem meaningAll_append (s : Setting σ) (a b : List Node) (names : String → Option Value) :
    meaningAll s (a ++ b) names = (do
      let x ← meaningAll s a names
      let y ← meaningAll s b names
      pure (x ++ y)) := by
  induction a with
  | nil => simp only [List.nil_append, meaningAll, pure_bind, String.empty_append, bind_pure]
  | cons n ns ih =>
    simp only [List.cons_append, meaningAll, ih, bind_assoc, pure_bind, String.append_assoc]

/-- What two documents mean together. -/
theorem meaningAll_seam (s : Setting σ) {a b c : List Node} (h : Seam Node.Join a b c)
    (names : String → Option Value) :
    meaningAll s c names = (do
      let x ← meaningAll s a names
      let y ← meaningAll s b names
      pure (x ++ y)) := by
  cases h with
  | apart => exact meaningAll_append s a b names
  | merged a' x y z b' ha hb hj =>
    subst ha hb
    obtain ⟨s₁, s₂, u, v⟩ := hj
    simp only [meaningAll_append, meaningAll, Node.meaning, bind_assoc, pure_bind,
      String.append_assoc, String.append_empty]

namespace Template

/-! ## Templates -/

/-- Render in a context, in a world that other renders may have changed before. -/
def renderIn (t : Template) (host : Host σ) (library : Library) (config : Config)
    (context : Context) (w : World σ) : Except RenderError String × World σ :=
  let (result, w) := Document.render ⟨host, library, config.autoescape⟩ t.nodes context w
  (result.mapError (.ofFault t.index), w)

/-- A render on its own starts in a world in which nothing was made. -/
theorem render_eq_renderIn (t : Template) (host : Host σ) (library : Library) (config : Config)
    (context : Context) (state : σ) :
    t.render host library config context state =
      ((t.renderIn host library config context ⟨0, state⟩).1,
        (t.renderIn host library config context ⟨0, state⟩).2.host) := rfl

theorem compile_eq_ok_iff {source : String} {t : Template} :
    compile source = .ok t ↔ ∃ ns, Document.read source.toList = .ok ns ∧
      t = ⟨.ofText source.toList, ns, none⟩ := by
  unfold compile
  cases Document.read source.toList with
  | error f => simp
  | ok ns => simp [eq_comm]

/-- What the nodes of a template mean in a context. -/
def meaning (t : Template) (host : Host σ) (library : Library) (config : Config)
    (context : Context) : Eval σ String :=
  meaningAll ⟨host, library, config.autoescape⟩ t.nodes context.resolve

variable {t : Template} {host : Host σ} {library : Library} {config : Config} {context : Context}
  {w w' : World σ}

theorem renderIn_of_ok {x : String}
    (h : t.meaning host library config context w = (.ok x, w')) :
    t.renderIn host library config context w = (.ok x, w') := by
  rw [renderIn, Document.render_eq]
  rw [meaning] at h
  rw [h]
  rfl

theorem renderIn_of_error {f : Located RenderFault}
    (h : t.meaning host library config context w = (.error f, w')) :
    t.renderIn host library config context w = (.error (.ofFault t.index f), w') := by
  rw [renderIn, Document.render_eq]
  rw [meaning] at h
  rw [h]
  rfl

end Template

/-- The error in an indexed source that has `n` bytes more in front. -/
def RenderError.shift (n : Nat) (index : LineIndex) (e : RenderError) : RenderError :=
  .ofFault index ⟨e.fault, e.span.shift n⟩

namespace Template

/-- **Rendering is compositional.** Two sources that compile, and that no marker stands across,
compile as one. From any world, the one template stops with the error of the first if the first
stops; else it goes on from the world that the first leaves, puts out both outputs, or stops with
the fault of the second, moved by the length of the first source. -/
theorem render_append {a b : String} {ta tb : Template} (ha : compile a = .ok ta)
    (hb : compile b = .ok tb)
    (hseam : ∀ c d, a.toList.getLast? = some c → b.toList.head? = some d →
      ∀ m : Markup.Marker, m.chars ≠ [c, d]) :
    ∃ t, compile (a ++ b) = .ok t ∧
      ∀ {σ : Type} (host : Host σ) (library : Library) (config : Config) (context : Context)
        (w : World σ), t.renderIn host library config context w =
          match ta.renderIn host library config context w with
          | (.error e, w) => (.error e, w)
          | (.ok x, w) => match tb.renderIn host library config context w with
            | (.ok y, w) => (.ok (x ++ y), w)
            | (.error e, w) => (.error (e.shift (Text.byteLength a.toList) t.index), w) := by
  obtain ⟨na, hna, rfl⟩ := compile_eq_ok_iff.1 ha
  obtain ⟨nb, hnb, rfl⟩ := compile_eq_ok_iff.1 hb
  have hapart : Markup.Apart a.toList b.toList :=
    .of_ends fun c d hc hd => Markup.marker?_eq_none_iff.2 (hseam c d hc hd)
  obtain ⟨nc, hnc, hnodes⟩ := Document.read_append hapart hna hnb
  obtain ⟨hbelow, hnamed⟩ := Document.below_of_read hna
  obtain ⟨-, hnamed'⟩ := Document.below_of_read hnb
  refine ⟨⟨.ofText (a ++ b).toList, nc, none⟩,
    compile_eq_ok_iff.2 ⟨nc, by rwa [String.toList_append], rfl⟩, ?_⟩
  intro σ host library config context w
  have hmeaning := meaningAll_seam ⟨host, library, config.autoescape⟩ hnodes context.resolve
  rw [meaningAll_relocate _ _ _ hnamed'] at hmeaning
  rcases hwa : meaning ⟨.ofText a.toList, na, none⟩ host library config context w with ⟨f | x, w'⟩
  · -- the first stops, and its fault lies before the second source
    have hwc : meaning ⟨.ofText (a ++ b).toList, nc, none⟩ host library config context w =
        (.error f, w') := by
      rw [meaning, hmeaning]
      exact Eval.bind_error hwa
    have hlocate := LineIndex.locate_append b.toList (fault_below hbelow hnamed hwa).1
    have hsame : RenderError.ofFault (.ofText (a ++ b).toList) f =
        .ofFault (.ofText a.toList) f := by
      rw [String.toList_append, RenderError.ofFault, RenderError.ofFault, hlocate]
    simp only [renderIn_of_error hwa, renderIn_of_error hwc, hsame]
  rcases hwb : meaning ⟨.ofText b.toList, nb, none⟩ host library config context w' with
    ⟨f | y, w''⟩
  · have hwc : meaning ⟨.ofText (a ++ b).toList, nc, none⟩ host library config context w =
        (.error (f.relocate (Text.byteLength a.toList + ·)), w'') := by
      rw [meaning, hmeaning]
      exact (Eval.bind_ok hwa).trans (Eval.bind_error (Eval.relocate_error _ hwb))
    simp only [renderIn_of_ok hwa, renderIn_of_error hwb, renderIn_of_error hwc]
    rfl
  · have hwc : meaning ⟨.ofText (a ++ b).toList, nc, none⟩ host library config context w =
        (.ok (x ++ y), w'') := by
      rw [meaning, hmeaning]
      exact (Eval.bind_ok hwa).trans (Eval.bind_ok (Eval.relocate_ok _ hwb))
    simp only [renderIn_of_ok hwa, renderIn_of_ok hwb, renderIn_of_ok hwc]

/-- The second half of a letter stops: its fault is found behind the first half. -/
theorem render_append_letter : ∃ ta tb t, compile "Dear {{ name }}," = .ok ta ∧
    compile " {{ nobody }}!" = .ok tb ∧ compile "Dear {{ name }}, {{ nobody }}!" = .ok t ∧
      t.renderIn .none .withBuiltins .default [("name", .str "Ann")] ⟨0, ()⟩ =
        (.error ⟨.undefinedName "nobody", ⟨20, 26⟩, ⟨1, 21⟩⟩, ⟨0, ()⟩) := by
  have hblocksa : Document.blocks "Dear {{ name }},".toList = .ok [.text ⟨0, 5⟩ "Dear ".toList,
      .value ⟨5, 15⟩ ⟨"name".toList, ⟨8, 12⟩⟩, .text ⟨15, 16⟩ [',']] := by with_unfolding_all rfl
  have hreada : Document.read "Dear {{ name }},".toList =
      .ok [.text ⟨0, 5⟩ "Dear ", .value ⟨5, 15⟩ (.name ⟨8, 12⟩ "name"), .text ⟨15, 16⟩ ","] := by
    rw [Document.read_of_blocks hblocksa]
    with_unfolding_all rfl
  have hblocksb : Document.blocks " {{ nobody }}!".toList = .ok [.text ⟨0, 1⟩ [' '],
      .value ⟨1, 13⟩ ⟨"nobody".toList, ⟨4, 10⟩⟩, .text ⟨13, 14⟩ ['!']] := by with_unfolding_all rfl
  have hreadb : Document.read " {{ nobody }}!".toList =
      .ok [.text ⟨0, 1⟩ " ", .value ⟨1, 13⟩ (.name ⟨4, 10⟩ "nobody"), .text ⟨13, 14⟩ "!"] := by
    rw [Document.read_of_blocks hblocksb]
    with_unfolding_all rfl
  have ha := compile_eq_ok_iff.2 ⟨_, hreada, rfl⟩
  have hb := compile_eq_ok_iff.2 ⟨_, hreadb, rfl⟩
  obtain ⟨t, ht, hrender⟩ := render_append ha hb (by
    intro c d hc hd
    obtain rfl : c = ',' := (Option.some.inj hc).symm
    obtain rfl : d = ' ' := (Option.some.inj hd).symm
    exact Markup.marker?_eq_none_iff.1 rfl)
  refine ⟨_, _, t, ha, hb, ht, ?_⟩
  obtain ⟨ns, -, rfl⟩ := compile_eq_ok_iff.1 ht
  rw [hrender]
  with_unfolding_all rfl

end Template
end Stencil
