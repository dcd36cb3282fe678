import Stencil.Proofs.Expr.FilterName
import Stencil.Proofs.Registry.Resolution
import Stencil.Render.Eval

/-!
# Filters by their qualified names

A library is used through calls on its filters and on its tags, and its filters are those of the
calls on filters alone (`filters_run`). Whatever the calls were, a filter that is registered can be
written behind a `|` under its qualified name when no segment of that is one of the five words that
are operators, and then it is the registered callable that is called, however many other filters
have the same bare name. A name with such a segment can be registered, but not be written:
`app.in` is one (`not_named_in`).
-/
namespace Stencil.Library

/-! ## Histories -/

/-- A call on a library. -/
inductive Call
  | filter (call : Registry.Call)
  | tag (call : Registry.Call)

/-- The library after a call; one that is refused leaves it as it is. -/
def Call.apply (l : Library) : Call → Library
  | .filter (.register n f) => match l.registerFilter n f with
    | .ok l' => l'
    | .error _ => l
  | .filter (.unregister n) => (l.unregisterFilter n).1
  | .tag (.register n f) => match l.registerTag n f with
    | .ok l' => l'
    | .error _ => l
  | .tag (.unregister n) => (l.unregisterTag n).1

/-- The call on the registry of filters that a call makes. -/
def Call.onFilters? : Call → Option Registry.Call
  | .filter call => some call
  | .tag _ => none

/-- The library after calls, the first one first. -/
def run (l : Library) (calls : List Call) : Library := calls.foldl Call.apply l

/-- One call: the filters change as their registry does, and calls on tags leave them. -/
theorem filters_apply (l : Library) : ∀ c : Call,
    (c.apply l).filters = l.filters.run c.onFilters?.toList
  | .filter (.register n f) => by
    simp only [Call.apply, registerFilter, Call.onFilters?, Option.toList_some, Registry.run,
      List.foldl_cons, List.foldl_nil, Registry.Call.apply]
    cases l.filters.register n f <;> rfl
  | .filter (.unregister n) => rfl
  | .tag (.register n f) => by
    simp only [Call.apply, registerTag]
    cases l.tags.register n f <;> rfl
  | .tag (.unregister n) => rfl

/-- **The run.** The filters of a library are those of the calls on filters. -/
theorem filters_run (l : Library) (calls : List Call) :
    (l.run calls).filters = l.filters.run (calls.filterMap Call.onFilters?) := by
  induction calls generalizing l with
  | nil => rfl
  | cons c calls ih =>
    have hsplit : (c :: calls).filterMap Call.onFilters? =
        c.onFilters?.toList ++ calls.filterMap Call.onFilters? := by
      cases h : c.onFilters? <;> simp [h]
    have hcons : run l (c :: calls) = run (c.apply l) calls := rfl
    rw [hcons, ih, filters_apply, hsplit, Registry.run, Registry.run, Registry.run,
      List.foldl_append]

/-- The library after calls, from the built-in filters or from nothing. -/
def reached (builtins : Bool) (calls : List Call) : Library :=
  (if builtins then withBuiltins else empty).run calls

/-- The calls that made the filters of a library what they are. -/
def filterHistory (builtins : Bool) (calls : List Call) : List Registry.Call :=
  (if builtins then Registry.installed else []) ++ calls.filterMap Call.onFilters?

theorem reflects_reached (builtins : Bool) (calls : List Call) :
    Registry.Reflects (filterHistory builtins calls) (reached builtins calls).filters := by
  rw [reached, filters_run, filterHistory]
  refine Registry.Reflects.run ?_ _
  cases builtins with
  | false => exact Registry.reflects_empty .filter
  | true =>
    have h := (Registry.reflects_empty .filter).run Registry.installed
    rwa [Registry.run_installed] at h

/-! ## Naming a filter -/

/-- The expression calls the filter with `1`. -/
theorem eval_piped {σ : Type} {s : Setting σ} {q : String} {e : Expr} {f : Callable}
    (he : Expr.IsPiped q e) (hf : s.library.filters.find? q = some f)
    (names : String → Option Value) :
    e.eval s names = Eval.invoke s e.span f [.int 1] [] := by
  obtain ⟨span, input, n, rfl, rfl⟩ := he
  have hfilter : Eval.filter s n = (pure f : Eval σ Callable) := by rw [Eval.filter, hf]
  simp only [Expr.eval, hfilter, evalAll, evalKeywords, pure_bind, Entries.ofList_nil]
  rfl

section
variable {σ : Type}

/-- **A registered filter can be named unless its name has an operator for a segment.** After any
calls, from the built-in filters or from nothing, `1|q` is the filter `q` applied to `1`, and it
calls what was registered last under `q`, whether or not the bare name of `q` is ambiguous; when a
segment of `q` is one of the words that are operators, `1|q` is no expression. -/
theorem named_of_registered (builtins : Bool) (calls : List Call) {q : String}
    (hq : q ∈ (reached builtins calls).filters.qualifiedNames) :
    ((∀ w ∈ Registry.segments q.toList, String.ofList w ∉ Token.reserved) →
      ∃ e f, Expr.parse (Expr.piped q) = .ok e ∧ Expr.IsPiped q e ∧
        Registry.Stands (filterHistory builtins calls) q f ∧
        ∀ (host : Host σ) (autoescape : Bool) (names : String → Option Value),
          e.eval ⟨host, reached builtins calls, autoescape⟩ names =
            Eval.invoke ⟨host, reached builtins calls, autoescape⟩ e.span f [.int 1] []) ∧
      ((∃ w ∈ Registry.segments q.toList, String.ofList w ∈ Token.reserved) →
        ∃ error, Expr.parse (Expr.piped q) = .error error) := by
  have hreflects := reflects_reached builtins calls
  obtain ⟨f, hf⟩ := hreflects.mem_qualifiedNames.1 hq
  obtain ⟨segments, hl, hv, hname⟩ := hf.1
  have hne : segments ≠ [] := by
    rintro rfl
    simp at hl
  have hsegments : Registry.segments q.toList = segments := by
    rw [Registry.segments, hname, Registry.segments_of_joined hl hv]
  obtain ⟨hiff, hpiped⟩ := Expr.parse_piped_iff hname hne hv
  rw [hsegments]
  constructor
  · intro hr
    obtain ⟨e, he⟩ := hiff.2 hr
    have hfind := (hreflects.qualified q hf.1.isQualified f).2 hf
    exact ⟨e, f, he, hpiped e he, hf, fun _ _ names => eval_piped (hpiped e he) hfind names⟩
  · rintro ⟨w, hw, hr⟩
    cases he : Expr.parse (Expr.piped q) with
    | ok e => exact absurd hr (hiff.1 ⟨e, he⟩ w hw)
    | error error => exact ⟨error, rfl⟩

end

/-- Two filters have the bare name `cut`, and one of them was replaced. -/
def cuts : List Call :=
  [.filter (.register "app.cut" ⟨.given 1, "first", .builtin .safe⟩),
    .filter (.register "web.cut" ⟨.given 2, "second", .builtin .upper⟩),
    .tag (.register "app.cut" ⟨.given 3, "third", .builtin .lower⟩),
    .filter (.register "app.cut" ⟨.given 4, "fourth", .builtin .default⟩)]

/-- The bare name is ambiguous, and the qualified name calls what was registered last. -/
theorem named_of_registered_ambiguous :
    (reached true cuts).filters.isAmbiguous "cut" = true ∧
      "app.cut" ∈ (reached true cuts).filters.qualifiedNames ∧
      (∀ w ∈ Registry.segments "app.cut".toList, String.ofList w ∉ Token.reserved) ∧
      ∃ e f, Expr.parse "1|app.cut".toList = .ok e ∧
        Registry.Stands (filterHistory true cuts) "app.cut" f ∧
        ∀ names, e.eval ⟨.none, reached true cuts, true⟩ names =
          Eval.invoke ⟨.none, reached true cuts, true⟩ e.span f [.int 1] [] := by
  have hstands : Registry.Stands (filterHistory true cuts) "app.cut"
      ⟨.given 4, "fourth", .builtin .default⟩ :=
    ((reflects_reached true cuts).qualified "app.cut" rfl _).1 rfl
  have hq := (reflects_reached true cuts).mem_qualifiedNames.2 ⟨_, hstands⟩
  have hr : ∀ w ∈ Registry.segments "app.cut".toList, String.ofList w ∉ Token.reserved := by decide
  obtain ⟨e, f, he, -, hf, heval⟩ := (named_of_registered true cuts hq).1 hr
  exact ⟨rfl, hq, hr, e, f, he, hf, heval .none true⟩

/-- `app.in` can be registered, but not be named. -/
theorem not_named_in :
    "app.in" ∈ (reached true
        [.filter (.register "app.in" ⟨.given 1, "echo", .host "echo"⟩)]).filters.qualifiedNames ∧
      ∃ error, Expr.parse "1|app.in".toList = .error error := by
  constructor
  · refine (reflects_reached true _).mem_qualifiedNames.2 ⟨⟨.given 1, "echo", .host "echo"⟩, ?_⟩
    exact ((reflects_reached true _).qualified "app.in" rfl _).1 rfl
  · exact ⟨_, by with_unfolding_all rfl⟩

end Stencil.Library
