import Stencil.Source

/-!
# Rules with ordered choice

A rule takes something from the front of a list of tokens, or fails. Rules are put together as a
grammar is written down: one after the other, the first of several that succeeds, one as often as it
succeeds. A rule that fails has taken nothing, so that the next choice begins where it began. What a
rule leaves is an end of what it was given (`Rule.suffix`), which every combinator passes on.

A grammar that refers to itself is unfolded as often as the list is long (`recursive`). If it does
so only behind a token this is no limit: the grammar then is what it is defined by
(`recursive_run`).
-/
namespace Stencil

/-- From the first of some tokens to the last. -/
def spanOf {τ : Type} (ts : List (Located τ)) : Span :=
  match ts.head?, ts.getLast? with
  | some a, some b => a.span.cover b.span
  | _, _ => ⟨0, 0⟩

theorem spanOf_cons_concat {τ : Type} (a : Located τ) (ts : List (Located τ)) (b : Located τ) :
    spanOf (a :: ts ++ [b]) = a.span.cover b.span := by
  have hlast : (a :: ts ++ [b]).getLast? = some b := List.getLast?_concat
  rw [spanOf, hlast]
  rfl

theorem spanOf_append {τ : Type} {ts us : List (Located τ)} (ht : ts ≠ []) (hu : us ≠ []) :
    spanOf (ts ++ us) = (spanOf ts).cover (spanOf us) := by
  obtain ⟨a, ts, rfl⟩ := List.exists_cons_of_ne_nil ht
  obtain ⟨c, us, rfl⟩ := List.exists_cons_of_ne_nil hu
  simp only [spanOf, List.cons_append, List.head?_cons, List.getLast?_cons, List.getLast?_append]
  simp [Span.cover]

/-- Takes something from the front of a list of tokens, or fails. -/
structure Rule (τ α : Type) where
  run : List (Located τ) → Option (α × List (Located τ))
  suffix : ∀ {ts a rest}, run ts = some (a, rest) → rest <:+ ts

namespace Rule

variable {τ α β : Type}

def fail : Rule τ α := ⟨fun _ => none, nofun⟩

/-- Take nothing. -/
def pure (a : α) : Rule τ α where
  run ts := some (a, ts)
  suffix h := by
    cases h
    exact List.suffix_rfl

/-- Take a token that `f` makes something of. -/
def select (f : τ → Option α) : Rule τ α where
  run ts := match ts with
    | [] => none
    | t :: rest => (f t.value).map (fun a => (a, rest))
  suffix := by
    intro ts a rest h
    cases ts with
    | nil => cases h
    | cons t ts =>
      obtain ⟨v, -, hv⟩ := Option.map_eq_some_iff.1 h
      cases hv
      exact List.suffix_cons t rest

def any : Rule τ τ := select some

def just [DecidableEq τ] (t : τ) : Rule τ τ := select fun u => if u = t then some u else none

/-- What `f` makes of the result; the rule fails where `f` does. -/
def tryMap (r : Rule τ α) (f : α → Option β) : Rule τ β where
  run ts := (r.run ts).bind fun (a, rest) => (f a).map (·, rest)
  suffix h := by
    obtain ⟨⟨a, rest⟩, hr, h⟩ := Option.bind_eq_some_iff.1 h
    obtain ⟨b, -, hb⟩ := Option.map_eq_some_iff.1 h
    cases hb
    exact r.suffix hr

def map (r : Rule τ α) (f : α → β) : Rule τ β := r.tryMap fun a => some (f a)

/-- The result with the span of the tokens that were taken for it. -/
def spanned (r : Rule τ α) : Rule τ (Located α) where
  run ts := (r.run ts).map fun (a, rest) => (⟨a, spanOf (ts.take (ts.length - rest.length))⟩, rest)
  suffix h := by
    obtain ⟨⟨a, rest⟩, hr, h⟩ := Option.map_eq_some_iff.1 h
    cases h
    exact r.suffix hr

def andThen (r : Rule τ α) (s : Rule τ β) : Rule τ (α × β) where
  run ts := (r.run ts).bind fun (a, middle) => (s.run middle).map fun (b, rest) => ((a, b), rest)
  suffix h := by
    obtain ⟨⟨a, middle⟩, hr, h⟩ := Option.bind_eq_some_iff.1 h
    obtain ⟨⟨b, rest⟩, hs, h⟩ := Option.map_eq_some_iff.1 h
    cases h
    exact (s.suffix hs).trans (r.suffix hr)

def ignoreThen (r : Rule τ α) (s : Rule τ β) : Rule τ β := (r.andThen s).map Prod.snd

def thenIgnore (r : Rule τ α) (s : Rule τ β) : Rule τ α := (r.andThen s).map Prod.fst

def delimitedBy [DecidableEq τ] (r : Rule τ α) (opening closing : τ) : Rule τ α :=
  ((just opening).ignoreThen r).thenIgnore (just closing)

/-- `s` where `r` fails. -/
def orElse (r s : Rule τ α) : Rule τ α where
  run ts := (r.run ts).or (s.run ts)
  suffix h := by
    rcases Option.or_eq_some_iff.1 h with h | ⟨-, h⟩
    · exact r.suffix h
    · exact s.suffix h

/-- The first of the rules that succeeds. -/
def choice : List (Rule τ α) → Rule τ α
  | [] => fail
  | r :: rs => r.orElse (choice rs)

def orNot (r : Rule τ α) : Rule τ (Option α) := (r.map some).orElse (pure none)

/-- Succeed where `r` fails, and take nothing. -/
def not (r : Rule τ α) : Rule τ Unit where
  run ts := if (r.run ts).isNone then some ((), ts) else none
  suffix h := by
    split at h
    · cases h
      exact List.suffix_rfl
    · cases h

/-- What `r` takes where `s` succeeds as well. -/
def andIs (r : Rule τ α) (s : Rule τ β) : Rule τ α where
  run ts := (r.run ts).bind fun taken => (s.run ts).map fun _ => taken
  suffix h := by
    obtain ⟨taken, hr, h⟩ := Option.bind_eq_some_iff.1 h
    obtain ⟨-, -, h⟩ := Option.map_eq_some_iff.1 h
    cases h
    exact r.suffix hr

/-- The results of `r` until it fails or takes nothing, and what is left. -/
def runMany (r : Rule τ α) (ts : List (Located τ)) : List α × List (Located τ) :=
  match r.run ts with
  | none => ([], ts)
  | some (a, rest) =>
    if rest.length < ts.length then
      let (as, last) := r.runMany rest
      (a :: as, last)
    else ([], ts)
  termination_by ts.length

theorem runMany_of_none {r : Rule τ α} {ts : List (Located τ)} (h : r.run ts = none) :
    r.runMany ts = ([], ts) := by
  rw [runMany, h]

theorem runMany_of_some {r : Rule τ α} {ts rest : List (Located τ)} {a : α}
    (h : r.run ts = some (a, rest)) (hl : rest.length < ts.length) :
    r.runMany ts = (a :: (r.runMany rest).1, (r.runMany rest).2) := by
  rw [runMany, h]
  simp only [hl, if_true]

theorem suffix_runMany (r : Rule τ α) (ts : List (Located τ)) : (r.runMany ts).2 <:+ ts := by
  fun_induction runMany r ts with
  | case1 => exact List.suffix_rfl
  | case2 ts a rest hr _ as last hm ih =>
    rw [hm] at ih
    exact ih.trans (r.suffix hr)
  | case3 => exact List.suffix_rfl

def repeated (r : Rule τ α) : Rule τ (List α) where
  run ts := some (r.runMany ts)
  suffix {ts as rest} h := by
    have hs := r.suffix_runMany ts
    rw [Option.some.inj h] at hs
    exact hs

/-- One result of `r` or more, with `s` between two. -/
def separatedBy1 (r : Rule τ α) (s : Rule τ β) : Rule τ (List α) :=
  (r.andThen (s.ignoreThen r).repeated).map fun (a, as) => a :: as

def separatedBy (r : Rule τ α) (s : Rule τ β) : Rule τ (List α) :=
  (r.separatedBy1 s).orNot.map (·.getD [])

/-- A result of `r`, and what `f` makes of it and the results of `s`, from left to right. -/
def foldl (r : Rule τ α) (s : Rule τ β) (f : α → β → α) : Rule τ α :=
  (r.andThen s.repeated).map fun (a, bs) => bs.foldl f a

/-- So many unfoldings of a rule that refers to itself. -/
def unfolded (f : Rule τ α → Rule τ α) : Nat → Rule τ α
  | 0 => fail
  | n + 1 => f (unfolded f n)

def recursive (f : Rule τ α → Rule τ α) : Rule τ α where
  run ts := (unfolded f (ts.length + 1)).run ts
  suffix h := (unfolded f _).suffix h

/-- What `r` makes of all of the tokens. -/
def whole (r : Rule τ α) (ts : List (Located τ)) : Option α :=
  match r.run ts with
  | some (a, []) => some a
  | _ => none

theorem whole_eq_some_iff {r : Rule τ α} {ts : List (Located τ)} {a : α} :
    r.whole ts = some a ↔ r.run ts = some (a, []) := by
  unfold whole
  split <;> simp_all

/-! ## What a rule makes of tokens -/

section
variable {r : Rule τ α} {s : Rule τ β} {ts middle rest : List (Located τ)} {a : α} {b : β}

theorem just_run [DecidableEq τ] (t : τ) (span : Span) (ts : List (Located τ)) :
    (just t).run (⟨t, span⟩ :: ts) = some (t, ts) := by
  simp [just, select]

theorem just_eq_some_iff [DecidableEq τ] {t u : τ} :
    (just t).run ts = some (u, rest) ↔ u = t ∧ ∃ span, ts = ⟨t, span⟩ :: rest := by
  constructor
  · intro h
    cases ts with
    | nil => cases h
    | cons v ts =>
      obtain ⟨value, span⟩ := v
      by_cases hv : value = t
      · subst hv
        rw [just_run] at h
        cases h
        exact ⟨rfl, span, rfl⟩
      · simp [just, select, hv] at h
  · rintro ⟨rfl, span, rfl⟩
    exact just_run u span rest

theorem just_eq_none [DecidableEq τ] {t : τ} (h : ∀ u ∈ ts.head?, u.value ≠ t) :
    (just t).run ts = none := by
  cases ts with
  | nil => rfl
  | cons u ts =>
    have hu : u.value ≠ t := h u rfl
    simp [just, select, hu]

theorem select_eq_some_iff {f : τ → Option α} : (select f).run ts = some (a, rest) ↔
    ∃ t, ts = t :: rest ∧ f t.value = some a := by
  cases ts with
  | nil => simp [select]
  | cons t ts =>
    simp only [select, Option.map_eq_some_iff, Prod.mk.injEq, List.cons.injEq]
    constructor
    · rintro ⟨v, hv, rfl, rfl⟩
      exact ⟨t, ⟨rfl, rfl⟩, hv⟩
    · rintro ⟨u, ⟨rfl, rfl⟩, hv⟩
      exact ⟨a, hv, rfl, rfl⟩

theorem tryMap_eq_some_iff {f : α → Option β} : (r.tryMap f).run ts = some (b, rest) ↔
    ∃ a, r.run ts = some (a, rest) ∧ f a = some b := by
  simp only [tryMap, Option.bind_eq_some_iff, Option.map_eq_some_iff, Prod.mk.injEq]
  constructor
  · rintro ⟨⟨a, last⟩, hr, c, hc, rfl, rfl⟩
    exact ⟨a, hr, hc⟩
  · rintro ⟨a, hr, ha⟩
    exact ⟨(a, rest), hr, b, ha, rfl, rfl⟩

theorem tryMap_run {f : α → Option β} (h : r.run ts = some (a, rest)) (hf : f a = some b) :
    (r.tryMap f).run ts = some (b, rest) := tryMap_eq_some_iff.2 ⟨a, h, hf⟩

theorem map_eq_some_iff {f : α → β} : (r.map f).run ts = some (b, rest) ↔
    ∃ a, r.run ts = some (a, rest) ∧ f a = b := by
  simp [map, tryMap_eq_some_iff]

theorem map_run (h : r.run ts = some (a, rest)) (f : α → β) :
    (r.map f).run ts = some (f a, rest) := map_eq_some_iff.2 ⟨a, h, rfl⟩

theorem map_eq_none_iff {f : α → β} : (r.map f).run ts = none ↔ r.run ts = none := by
  cases hr : r.run ts <;> simp [map, tryMap, hr]

theorem andThen_eq_some_iff {x : α × β} : (r.andThen s).run ts = some (x, rest) ↔
    ∃ middle, r.run ts = some (x.1, middle) ∧ s.run middle = some (x.2, rest) := by
  simp only [andThen, Option.bind_eq_some_iff, Option.map_eq_some_iff, Prod.mk.injEq]
  constructor
  · rintro ⟨⟨a, middle⟩, hr, ⟨b, last⟩, hs, rfl, rfl⟩
    exact ⟨middle, hr, hs⟩
  · rintro ⟨middle, hr, hs⟩
    exact ⟨(x.1, middle), hr, (x.2, rest), hs, rfl, rfl⟩

theorem andThen_run (hr : r.run ts = some (a, middle)) (hs : s.run middle = some (b, rest)) :
    (r.andThen s).run ts = some ((a, b), rest) := andThen_eq_some_iff.2 ⟨middle, hr, hs⟩

theorem andThen_eq_none (h : r.run ts = none) : (r.andThen s).run ts = none := by
  simp [andThen, h]

theorem andThen_eq_none_of_run (hr : r.run ts = some (a, middle)) (hs : s.run middle = none) :
    (r.andThen s).run ts = none := by
  simp [andThen, hr, hs]

theorem foldl_eq_none {f : α → β → α} (h : r.run ts = none) : (r.foldl s f).run ts = none :=
  map_eq_none_iff.2 (andThen_eq_none h)

theorem ignoreThen_run (hr : r.run ts = some (a, middle)) (hs : s.run middle = some (b, rest)) :
    (r.ignoreThen s).run ts = some (b, rest) := map_run (andThen_run hr hs) Prod.snd

theorem ignoreThen_eq_none (h : r.run ts = none) : (r.ignoreThen s).run ts = none :=
  map_eq_none_iff.2 (andThen_eq_none h)

theorem thenIgnore_eq_none (h : r.run ts = none) : (r.thenIgnore s).run ts = none :=
  map_eq_none_iff.2 (andThen_eq_none h)

theorem thenIgnore_run (hr : r.run ts = some (a, middle)) (hs : s.run middle = some (b, rest)) :
    (r.thenIgnore s).run ts = some (a, rest) := map_run (andThen_run hr hs) Prod.fst

theorem delimitedBy_run [DecidableEq τ] {opening closing : τ} (b c : Span)
    (h : r.run ts = some (a, ⟨closing, c⟩ :: rest)) :
    (r.delimitedBy opening closing).run (⟨opening, b⟩ :: ts) = some (a, rest) :=
  thenIgnore_run (ignoreThen_run (just_run opening b ts) h) (just_run closing c rest)

theorem delimitedBy_eq_none [DecidableEq τ] {opening closing : τ}
    (h : ∀ t ∈ ts.head?, t.value ≠ opening) : (r.delimitedBy opening closing).run ts = none :=
  map_eq_none_iff.2 (andThen_eq_none (ignoreThen_eq_none (just_eq_none h)))

end

section
variable {r s : Rule τ α} {rs : List (Rule τ α)} {ts front rest : List (Located τ)} {a : α}

theorem orElse_eq_some_iff {x : α × List (Located τ)} : (r.orElse s).run ts = some x ↔
    r.run ts = some x ∨ r.run ts = none ∧ s.run ts = some x := Option.or_eq_some_iff

theorem andIs_eq_some_iff {β : Type} {s : Rule τ β} : (r.andIs s).run ts = some (a, rest) ↔
    r.run ts = some (a, rest) ∧ (s.run ts).isSome := by
  simp only [andIs, Option.bind_eq_some_iff, Option.map_eq_some_iff, Option.isSome_iff_exists]
  constructor
  · rintro ⟨_, hr, y, hs, rfl⟩
    exact ⟨hr, y, hs⟩
  · rintro ⟨hr, y, hs⟩
    exact ⟨_, hr, y, hs, rfl⟩

theorem isSome_not_iff : (r.not.run ts).isSome ↔ r.run ts = none := by
  cases hr : r.run ts <;> simp [not, hr]

theorem orElse_eq_none (hr : r.run ts = none) (hs : s.run ts = none) :
    (r.orElse s).run ts = none := by
  simp [orElse, hr, hs]

theorem choice_cons_of_some {x : α × List (Located τ)} (h : r.run ts = some x) :
    (choice (r :: rs)).run ts = some x := orElse_eq_some_iff.2 (.inl h)

theorem choice_cons_of_none (h : r.run ts = none) :
    (choice (r :: rs)).run ts = (choice rs).run ts := by
  simp [choice, orElse, h]

/-- What is chosen is the result of one of the rules. -/
theorem exists_of_choice {x : α × List (Located τ)} : ∀ {rs : List (Rule τ α)},
    (choice rs).run ts = some x → ∃ r ∈ rs, r.run ts = some x
  | [], h => by cases h
  | r :: rs, h => by
    rcases orElse_eq_some_iff.1 h with h | ⟨-, h⟩
    · exact ⟨r, List.mem_cons_self, h⟩
    · obtain ⟨s, hs, h⟩ := exists_of_choice h
      exact ⟨s, List.mem_cons_of_mem r hs, h⟩

theorem orNot_run (h : r.run ts = some (a, rest)) : r.orNot.run ts = some (some a, rest) :=
  orElse_eq_some_iff.2 (.inl (map_run h some))

theorem orNot_of_none (h : r.run ts = none) : r.orNot.run ts = some (none, ts) :=
  orElse_eq_some_iff.2 (.inr ⟨map_eq_none_iff.2 h, rfl⟩)

theorem orNot_eq_some {x : Option α} (h : r.orNot.run ts = some (x, rest)) :
    (∃ a, x = some a ∧ r.run ts = some (a, rest)) ∨ x = none ∧ rest = ts := by
  rcases orElse_eq_some_iff.1 h with h | ⟨-, h⟩
  · obtain ⟨a, hr, rfl⟩ := map_eq_some_iff.1 h
    exact .inl ⟨a, rfl, hr⟩
  · cases h
    exact .inr ⟨rfl, rfl⟩

theorem spanned_run (h : r.run (front ++ rest) = some (a, rest)) :
    r.spanned.run (front ++ rest) = some (⟨a, spanOf front⟩, rest) := by
  simp [spanned, h]

theorem spanned_eq_none (h : r.run ts = none) : r.spanned.run ts = none := by
  simp [spanned, h]

theorem spanned_run_one {t : Located τ} (h : r.run (t :: rest) = some (a, rest)) :
    r.spanned.run (t :: rest) = some (⟨a, t.span⟩, rest) := by
  rw [← List.singleton_append] at h ⊢
  exact spanned_run h

theorem spanned_eq_some {l : Located α} (h : r.spanned.run (front ++ rest) = some (l, rest)) :
    r.run (front ++ rest) = some (l.value, rest) ∧ l.span = spanOf front := by
  obtain ⟨⟨a, last⟩, hr, h⟩ := Option.map_eq_some_iff.1 h
  obtain ⟨rfl, rfl⟩ := Prod.mk.inj h
  simpa using hr

end

/-! ## Rules and the tokens they take -/

/-- What `r` takes, and what it gives for it, are related by `P`. -/
def Gives (r : Rule τ α) (P : List (Located τ) → α → Prop) : Prop :=
  ∀ ⦃front rest a⦄, r.run (front ++ rest) = some (a, rest) → P front a

section
variable {r : Rule τ α} {s : Rule τ β} {P : List (Located τ) → α → Prop}
  {Q : List (Located τ) → β → Prop}

theorem Gives.of_run (h : r.Gives P) {ts rest : List (Located τ)} {a : α}
    (hr : r.run ts = some (a, rest)) : ∃ front, ts = front ++ rest ∧ P front a := by
  obtain ⟨front, rfl⟩ := r.suffix hr
  exact ⟨front, rfl, h hr⟩

theorem Gives.mono {P' : List (Located τ) → α → Prop} (h : r.Gives P)
    (hp : ∀ front a, P front a → P' front a) : r.Gives P' := by
  intro front rest a ha
  exact hp front a (h ha)

theorem gives_select (f : τ → Option α) :
    (select f).Gives fun front a => ∃ t, front = [t] ∧ f t.value = some a := by
  intro front rest a h
  obtain ⟨t, ht, hf⟩ := select_eq_some_iff.1 h
  rw [← List.singleton_append] at ht
  exact ⟨t, List.append_cancel_right ht, hf⟩

theorem gives_just [DecidableEq τ] (t : τ) :
    (just t).Gives fun front _ => ∃ span, front = [⟨t, span⟩] := by
  intro front rest u h
  obtain ⟨-, span, ht⟩ := just_eq_some_iff.1 h
  rw [← List.singleton_append] at ht
  exact ⟨span, List.append_cancel_right ht⟩

theorem Gives.tryMap (h : r.Gives P) (f : α → Option β) :
    (r.tryMap f).Gives fun front b => ∃ a, P front a ∧ f a = some b := by
  intro front rest b hb
  obtain ⟨a, ha, hf⟩ := tryMap_eq_some_iff.1 hb
  exact ⟨a, h ha, hf⟩

theorem Gives.map (h : r.Gives P) (f : α → β) :
    (r.map f).Gives fun front b => ∃ a, P front a ∧ f a = b := by
  intro front rest b hb
  obtain ⟨a, ha, hf⟩ := map_eq_some_iff.1 hb
  exact ⟨a, h ha, hf⟩

theorem Gives.spanned (h : r.Gives P) :
    r.spanned.Gives fun front l => P front l.value ∧ l.span = spanOf front := by
  intro front rest l hl
  obtain ⟨hr, hspan⟩ := spanned_eq_some hl
  exact ⟨h hr, hspan⟩

theorem Gives.andThen (hr : r.Gives P) (hs : s.Gives Q) : (r.andThen s).Gives fun front x =>
    ∃ us vs, front = us ++ vs ∧ P us x.1 ∧ Q vs x.2 := by
  intro front rest x h
  obtain ⟨middle, ha, hb⟩ := andThen_eq_some_iff.1 h
  obtain ⟨us, hus, hp⟩ := hr.of_run ha
  obtain ⟨vs, rfl, hq⟩ := hs.of_run hb
  rw [← List.append_assoc] at hus
  exact ⟨us, vs, List.append_cancel_right hus, hp, hq⟩

theorem Gives.ignoreThen (hr : r.Gives P) (hs : s.Gives Q) : (r.ignoreThen s).Gives fun front b =>
    ∃ us vs, front = us ++ vs ∧ (∃ a, P us a) ∧ Q vs b := by
  refine ((hr.andThen hs).map Prod.snd).mono ?_
  rintro front b ⟨⟨a, b⟩, ⟨us, vs, hfront, hp, hq⟩, rfl⟩
  exact ⟨us, vs, hfront, ⟨a, hp⟩, hq⟩

theorem Gives.thenIgnore (hr : r.Gives P) (hs : s.Gives Q) : (r.thenIgnore s).Gives fun front a =>
    ∃ us vs, front = us ++ vs ∧ P us a ∧ ∃ b, Q vs b := by
  refine ((hr.andThen hs).map Prod.fst).mono ?_
  rintro front a ⟨⟨a, b⟩, ⟨us, vs, hfront, hp, hq⟩, rfl⟩
  exact ⟨us, vs, hfront, hp, ⟨b, hq⟩⟩

theorem Gives.delimitedBy [DecidableEq τ] (h : r.Gives P) (opening closing : τ) :
    (r.delimitedBy opening closing).Gives fun front x =>
      ∃ a us b, front = ⟨opening, a⟩ :: us ++ [⟨closing, b⟩] ∧ P us x := by
  refine (((gives_just opening).ignoreThen h).thenIgnore (gives_just closing)).mono ?_
  rintro front x ⟨_, _, rfl, ⟨_, us, rfl, ⟨_, a, rfl⟩, hp⟩, _, b, rfl⟩
  exact ⟨a, us, b, rfl, hp⟩

theorem Gives.orElse {r' : Rule τ α} (hr : r.Gives P) (hr' : r'.Gives P) :
    (r.orElse r').Gives P := by
  intro front rest a h
  rcases orElse_eq_some_iff.1 h with h | ⟨-, h⟩
  · exact hr h
  · exact hr' h

theorem Gives.choice {rs : List (Rule τ α)} (h : ∀ r ∈ rs, r.Gives P) : (choice rs).Gives P := by
  intro front rest a ha
  obtain ⟨r, hr, ha⟩ := exists_of_choice ha
  exact h r hr ha

theorem Gives.orNot (h : r.Gives P) : r.orNot.Gives fun front x =>
    (∃ a, x = some a ∧ P front a) ∨ x = none ∧ front = [] := by
  intro front rest x hx
  rcases orNot_eq_some hx with ⟨a, rfl, hr⟩ | ⟨rfl, hrest⟩
  · exact .inl ⟨a, rfl, h hr⟩
  · exact .inr ⟨rfl, List.append_left_eq_self.1 hrest.symm⟩

/-- What holds of nothing and goes on from the rest to one more result, holds of all results. -/
theorem Gives.repetition {R : List (Located τ) → List α → Prop} (h : r.Gives P) (hnil : R [] [])
    (hcons : ∀ us a vs as, P us a → R vs as → R (us ++ vs) (a :: as)) : r.repeated.Gives R := by
  have hmany : ∀ ts : List (Located τ), ∃ front, ts = front ++ (r.runMany ts).2 ∧
      R front (r.runMany ts).1 := by
    intro ts
    fun_induction runMany r ts with
    | case1 ts _ => exact ⟨[], rfl, hnil⟩
    | case2 ts a rest hr _ as last hm ih =>
      obtain ⟨us, rfl, hp⟩ := h.of_run hr
      obtain ⟨vs, hvs, hq⟩ := ih
      rw [hm] at hvs hq
      refine ⟨us ++ vs, ?_, hcons us a vs as hp hq⟩
      rw [List.append_assoc, ← hvs]
    | case3 ts a rest _ _ => exact ⟨[], rfl, hnil⟩
  intro front rest as ha
  obtain ⟨us, hus, hq⟩ := hmany (front ++ rest)
  rw [Option.some.inj ha] at hus hq
  rw [List.append_cancel_right hus]
  exact hq

/-- What holds of the first result alone, and goes on to one more result, holds of all. -/
theorem Gives.andThen_repeated {R : List (Located τ) → α → List β → Prop}
    (hr : r.Gives fun us a => R us a []) (hs : s.Gives Q)
    (hstep : ∀ us a bs vs b, R us a bs → Q vs b → R (us ++ vs) a (bs ++ [b])) :
    (r.andThen s.repeated).Gives fun front x => R front x.1 x.2 := by
  have hmany : ∀ (ts us : List (Located τ)) (a : α) (bs : List β), R us a bs →
      ∃ vs, ts = vs ++ (s.runMany ts).2 ∧ R (us ++ vs) a (bs ++ (s.runMany ts).1) := by
    intro ts
    fun_induction runMany s ts with
    | case1 ts _ =>
      intro us a bs h
      exact ⟨[], rfl, by simpa using h⟩
    | case2 ts b rest hb _ more last hm ih =>
      intro us a bs h
      obtain ⟨vs, rfl, hq⟩ := hs.of_run hb
      obtain ⟨ws, hws, h⟩ := ih (us ++ vs) a (bs ++ [b]) (hstep us a bs vs b h hq)
      rw [hm] at hws h
      refine ⟨vs ++ ws, ?_, by simpa using h⟩
      rw [List.append_assoc, ← hws]
    | case3 ts b rest _ _ =>
      intro us a bs h
      exact ⟨[], rfl, by simpa using h⟩
  intro front rest x h
  obtain ⟨middle, ha, hb⟩ := andThen_eq_some_iff.1 h
  obtain ⟨us, hus, hp⟩ := hr.of_run ha
  obtain ⟨vs, hvs, hall⟩ := hmany middle us x.1 [] hp
  rw [Option.some.inj hb] at hvs hall
  rw [hvs, ← List.append_assoc] at hus
  rw [List.append_cancel_right hus]
  exact hall

theorem Gives.foldl {f : α → β → α} (hr : r.Gives P) (hs : s.Gives Q)
    (hstep : ∀ us a vs b, P us a → Q vs b → P (us ++ vs) (f a b)) : (r.foldl s f).Gives P := by
  have hall : (r.andThen s.repeated).Gives fun front x => P front (x.2.foldl f x.1) := by
    refine Gives.andThen_repeated (R := fun us a bs => P us (bs.foldl f a)) hr hs ?_
    intro us a bs vs b hp hq
    rw [List.foldl_append]
    exact hstep us _ vs b hp hq
  refine (hall.map _).mono ?_
  rintro front a ⟨x, hx, rfl⟩
  exact hx

theorem Gives.separatedBy1 {R : List (Located τ) → List α → Prop} (hr : r.Gives P)
    (hs : s.Gives Q) (hone : ∀ us a, P us a → R us [a])
    (hstep : ∀ us as vs b ws a, as ≠ [] → R us as → Q vs b → P ws a →
      R (us ++ (vs ++ ws)) (as ++ [a])) : (r.separatedBy1 s).Gives R := by
  have hall : (r.andThen (s.ignoreThen r).repeated).Gives fun front x => R front (x.1 :: x.2) := by
    refine Gives.andThen_repeated (R := fun us a as => R us (a :: as)) (hr.mono hone)
      (hs.ignoreThen hr) ?_
    rintro us a as _ b h ⟨vs, ws, rfl, ⟨c, hc⟩, hb⟩
    exact hstep us (a :: as) vs c ws b (List.cons_ne_nil a as) h hc hb
  refine (hall.map _).mono ?_
  rintro front as ⟨x, hx, rfl⟩
  exact hx

theorem Gives.separatedBy {R : List (Located τ) → List α → Prop} (h : (r.separatedBy1 s).Gives R)
    (hnil : R [] []) : (r.separatedBy s).Gives R := by
  refine (h.orNot.map _).mono ?_
  rintro front as ⟨_, ⟨as, rfl, h⟩ | ⟨rfl, rfl⟩, rfl⟩
  · exact h
  · exact hnil

/-- What goes on from the rule to its definition holds of a rule that refers to itself. -/
theorem Gives.recursive {f : Rule τ α → Rule τ α} (h : ∀ r, r.Gives P → (f r).Gives P) :
    (recursive f).Gives P := by
  have hunfolded : ∀ n, (unfolded f n).Gives P := by
    intro n
    induction n with
    | zero => exact nofun
    | succ n ih => exact h _ ih
  intro front rest a hr
  exact hunfolded _ hr

end

/-! ## Repetitions over given tokens -/

/-- `r` and then `s` again and again take `ts` for `a` and `bs`, and `s` goes on with what comes
after, where that is as `E` says. -/
def Takes (E : List (Located τ) → Prop) (r : Rule τ α) (s : Rule τ β) (ts : List (Located τ))
    (a : α) (bs : List β) : Prop :=
  ∀ rest, E rest → (r.andThen s.repeated).run (ts ++ rest) =
    some ((a, bs ++ (s.runMany rest).1), (s.runMany rest).2)

section
variable {E : List (Located τ) → Prop} {r : Rule τ α} {s : Rule τ β} {ts us rest : List (Located τ)}
  {a : α} {b : β} {bs : List β}

theorem Takes.first (h : ∀ rest, E rest → r.run (ts ++ rest) = some (a, rest)) :
    Takes E r s ts a [] := by
  intro rest hrest
  exact andThen_run (h rest hrest) rfl

theorem Takes.more (h : Takes E r s ts a bs) (hus : us ≠ []) (hends : ∀ rest, E (us ++ rest))
    (hs : ∀ rest, E rest → s.run (us ++ rest) = some (b, rest)) :
    Takes E r s (ts ++ us) a (bs ++ [b]) := by
  intro rest hrest
  have hl : rest.length < (us ++ rest).length := by
    have hpos := List.length_pos_iff.2 hus
    rw [List.length_append]
    omega
  rw [List.append_assoc, h _ (hends rest), runMany_of_some (hs rest hrest) hl]
  simp

/-- Where `s` cannot go on, the repetition ends. -/
theorem Takes.run (h : Takes E r s ts a bs) (hends : E rest) (hs : s.run rest = none) :
    (r.andThen s.repeated).run (ts ++ rest) = some ((a, bs), rest) := by
  rw [h rest hends, runMany_of_none hs, List.append_nil]

theorem Takes.foldl {f : α → β → α} (h : Takes E r s ts a bs) (hends : E rest)
    (hs : s.run rest = none) : (r.foldl s f).run (ts ++ rest) = some (bs.foldl f a, rest) :=
  map_run (h.run hends hs) _

theorem Takes.separatedBy1 {as : List α} (h : Takes E r (s.ignoreThen r) ts a as) (hends : E rest)
    (hs : s.run rest = none) : (r.separatedBy1 s).run (ts ++ rest) = some (a :: as, rest) :=
  map_run (h.run hends (ignoreThen_eq_none hs)) _

theorem Takes.separatedBy {as : List α} (h : Takes E r (s.ignoreThen r) ts a as) (hends : E rest)
    (hs : s.run rest = none) : (r.separatedBy s).run (ts ++ rest) = some (a :: as, rest) :=
  map_run (orNot_run (h.separatedBy1 hends hs)) _

theorem separatedBy_of_none (h : r.run ts = none) : (r.separatedBy s).run ts = some ([], ts) :=
  map_run (orNot_of_none (map_eq_none_iff.2 (andThen_eq_none h))) _

end

/-! ## Rules that refer to themselves -/

/-- The rules make the same of lists of up to `n` tokens. -/
def Agree (n : Nat) (r s : Rule τ α) : Prop := ∀ ts, ts.length ≤ n → r.run ts = s.run ts

/-- The rules make the same of lists of fewer than `n` tokens. -/
def AgreeBelow (n : Nat) (r s : Rule τ α) : Prop := ∀ ts, ts.length < n → r.run ts = s.run ts

section
variable {n : Nat} {r r' : Rule τ α} {s s' : Rule τ β}

theorem Agree.refl (r : Rule τ α) : Agree n r r := fun _ _ => rfl

theorem Agree.tryMap (h : Agree n r r') (f : α → Option β) :
    Agree n (r.tryMap f) (r'.tryMap f) := by
  intro ts hn
  simp only [Rule.tryMap, h ts hn]

theorem Agree.map (h : Agree n r r') (f : α → β) : Agree n (r.map f) (r'.map f) := h.tryMap _

theorem Agree.spanned (h : Agree n r r') : Agree n r.spanned r'.spanned := by
  intro ts hn
  simp only [Rule.spanned, h ts hn]

theorem Agree.andThen (h : Agree n r r') (hs : Agree n s s') :
    Agree n (r.andThen s) (r'.andThen s') := by
  intro ts hn
  simp only [Rule.andThen, ← h ts hn]
  cases hr : r.run ts with
  | none => rfl
  | some x =>
    have hl := (r.suffix hr).length_le
    simp only [Option.bind_some, hs x.2 (by omega)]

theorem Agree.ignoreThen (h : Agree n r r') (hs : Agree n s s') :
    Agree n (r.ignoreThen s) (r'.ignoreThen s') := (h.andThen hs).map _

theorem Agree.thenIgnore (h : Agree n r r') (hs : Agree n s s') :
    Agree n (r.thenIgnore s) (r'.thenIgnore s') := (h.andThen hs).map _

theorem Agree.orElse {t t' : Rule τ α} (h : Agree n r r') (ht : Agree n t t') :
    Agree n (r.orElse t) (r'.orElse t') := by
  intro ts hn
  simp only [Rule.orElse, h ts hn, ht ts hn]

theorem Agree.orNot (h : Agree n r r') : Agree n r.orNot r'.orNot :=
  (h.map some).orElse (.refl _)

theorem Agree.repetition (h : Agree n r r') : Agree n r.repeated r'.repeated := by
  suffices hmany : ∀ ts : List (Located τ), ts.length ≤ n → r.runMany ts = r'.runMany ts from
    fun ts hn => congrArg some (hmany ts hn)
  intro ts hn
  fun_induction runMany r ts with
  | case1 ts hr => exact (runMany_of_none (h ts hn ▸ hr)).symm
  | case2 ts a rest hr hl as last hm ih =>
    rw [runMany_of_some (h ts hn ▸ hr) hl, ← ih (by omega), hm]
  | case3 ts a rest hr hl =>
    rw [runMany, ← h ts hn, hr]
    simp only [hl, if_false]

theorem Agree.separatedBy1 (h : Agree n r r') (s : Rule τ β) :
    Agree n (r.separatedBy1 s) (r'.separatedBy1 s) :=
  (h.andThen ((Agree.refl s).ignoreThen h).repetition).map _

theorem Agree.separatedBy (h : Agree n r r') (s : Rule τ β) :
    Agree n (r.separatedBy s) (r'.separatedBy s) := (h.separatedBy1 s).orNot.map _

theorem Agree.foldl (h : Agree n r r') (hs : Agree n s s') (f : α → β → α) :
    Agree n (r.foldl s f) (r'.foldl s' f) := (h.andThen hs.repetition).map _

/-- What carries agreement over to larger rules does so below any length. -/
theorem AgreeBelow.lift (h : AgreeBelow n r r') (hs : ∀ m, Agree m r r' → Agree m s s') :
    AgreeBelow n s s' := by
  intro ts hts
  refine hs ts.length ?_ ts (Nat.le_refl _)
  intro us hus
  exact h us (by omega)

/-- A rule that takes a token, wherever it succeeds. -/
def Eager (r : Rule τ α) : Prop :=
  ∀ ⦃ts a rest⦄, r.run ts = some (a, rest) → rest.length < ts.length

theorem eager_select (f : τ → Option α) : (select f).Eager := by
  intro ts a rest h
  obtain ⟨t, rfl, -⟩ := select_eq_some_iff.1 h
  simp

theorem eager_just [DecidableEq τ] (t : τ) : (just t).Eager := eager_select _

theorem Eager.map (h : r.Eager) (f : α → β) : (r.map f).Eager := by
  intro ts b rest hb
  obtain ⟨a, ha, -⟩ := map_eq_some_iff.1 hb
  exact h ha

theorem Eager.andThen (h : r.Eager) (s : Rule τ β) : (r.andThen s).Eager := by
  intro ts x rest hx
  obtain ⟨middle, hr, hs⟩ := andThen_eq_some_iff.1 hx
  have hmiddle := h hr
  have hrest := (s.suffix hs).length_le
  omega

theorem Eager.ignoreThen (h : r.Eager) (s : Rule τ β) : (r.ignoreThen s).Eager :=
  (h.andThen s).map _

theorem Eager.thenIgnore (h : r.Eager) (s : Rule τ β) : (r.thenIgnore s).Eager :=
  (h.andThen s).map _

theorem Eager.orElse {t : Rule τ α} (h : r.Eager) (ht : t.Eager) : (r.orElse t).Eager := by
  intro ts a rest ha
  rcases orElse_eq_some_iff.1 ha with ha | ⟨-, ha⟩
  · exact h ha
  · exact ht ha

theorem eager_fail : (fail : Rule τ α).Eager := nofun

/-- Behind a token, rules agree that agree on shorter lists. -/
theorem AgreeBelow.andThen (hr : r.Eager) (h : AgreeBelow n s s') :
    Agree n (r.andThen s) (r.andThen s') := by
  intro ts hn
  simp only [Rule.andThen]
  cases ha : r.run ts with
  | none => rfl
  | some x =>
    have hl := hr ha
    simp only [Option.bind_some, h x.2 (by omega)]

theorem AgreeBelow.ignoreThen (hr : r.Eager) (h : AgreeBelow n s s') :
    Agree n (r.ignoreThen s) (r.ignoreThen s') := (AgreeBelow.andThen hr h).map _

theorem AgreeBelow.delimitedBy [DecidableEq τ] (h : AgreeBelow n s s') (opening closing : τ) :
    Agree n (s.delimitedBy opening closing) (s'.delimitedBy opening closing) :=
  (AgreeBelow.ignoreThen (eager_just _) h).thenIgnore (.refl _)

/-- A rule that refers to itself behind a token only. -/
def Guarded (f : Rule τ α → Rule τ α) : Prop := ∀ ⦃n r s⦄, AgreeBelow n r s → Agree n (f r) (f s)

theorem agreeBelow_unfolded {f : Rule τ α → Rule τ α} (h : Guarded f) :
    ∀ {n m k : Nat}, n ≤ m → n ≤ k → AgreeBelow n (unfolded f m) (unfolded f k)
  | 0, _, _, _, _ => fun _ hn => absurd hn (Nat.not_lt_zero _)
  | n + 1, m + 1, k + 1, hm, hk => fun ts hn =>
    h (agreeBelow_unfolded h (by omega) (by omega)) ts (Nat.le_of_lt_succ hn)

/-- **A rule that refers to itself behind a token only is what it is defined by.** -/
theorem recursive_run {f : Rule τ α → Rule τ α} (h : Guarded f) (ts : List (Located τ)) :
    (recursive f).run ts = (f (recursive f)).run ts := by
  have hbelow : AgreeBelow ts.length (unfolded f ts.length) (recursive f) := fun us hus =>
    agreeBelow_unfolded h (n := us.length + 1) (by omega) (by omega) us (by omega)
  exact h hbelow ts (Nat.le_refl _)

end

end Rule
end Stencil
