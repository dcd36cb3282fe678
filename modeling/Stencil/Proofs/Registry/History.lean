import Stencil.Library
import Stencil.Proofs.Registry.Names

/-!
# Registries and their histories

A registry is used through calls that register and unregister names. What it answers is said here of
the list of calls alone: which registration of a name stands (`Stands`), and whether two names with
the same ending ever stood together (`Clashed`). `Reflects` is the invariant that links its three
tables to the calls; every call keeps it (`Reflects.apply`), and all answers follow from it
(`answers_of_reflects`).
-/
namespace Stencil.Registry

/-- A call on a registry. -/
inductive Call
  | register (name : String) (f : Callable)
  | unregister (name : String)

/-- The name that a call is about. -/
def Call.name : Call → String
  | .register n _ | .unregister n => n

/-- The registry after a call; one that is refused leaves it as it is. -/
def Call.apply (r : Registry) : Call → Registry
  | .register n f => match r.register n f with
    | .ok r' => r'
    | .error _ => r
  | .unregister n => (r.unregister n).1

theorem apply_register_of_proper (r : Registry) {n : String} (f : Callable) (hn : Proper n) :
    Call.apply r (.register n f) = r.insert n (bareName n) f := by
  simp only [Call.apply, register_of_proper r f hn]

theorem apply_register_of_not_proper (r : Registry) {n : String} (f : Callable)
    (hn : ¬ Proper n) : Call.apply r (.register n f) = r := by
  obtain ⟨e, he⟩ := register_of_not_proper r f hn
  simp only [Call.apply, he]

/-- The registry after calls, the first one first. -/
def run (r : Registry) (calls : List Call) : Registry := calls.foldl Call.apply r

/-! ## What the calls say -/

/-- The last call about a proper name registered this callable under it. -/
def Stands (calls : List Call) (name : String) (f : Callable) : Prop :=
  Proper name ∧ ∃ before after, calls = before ++ .register name f :: after ∧
    ∀ c ∈ after, c.name ≠ name

/-- The name is registered at the end of the calls. -/
def Registered (calls : List Call) (name : String) : Prop := ∃ f, Stands calls name f

/-- Two names that end in `bare` are registered at the end of the calls. -/
def Clashes (calls : List Call) (bare : String) : Prop :=
  ∃ a b, a ≠ b ∧ EndsIn a bare ∧ EndsIn b bare ∧ Registered calls a ∧ Registered calls b

/-- At some moment two names that end in `bare` were registered. -/
def Clashed (calls : List Call) (bare : String) : Prop :=
  ∃ moment, moment <+: calls ∧ Clashes moment bare

theorem Registered.proper {calls : List Call} {name : String} (h : Registered calls name) :
    Proper name := h.elim fun _ hf => hf.1

theorem stands_concat {calls : List Call} {c : Call} {name : String} {f : Callable} :
    Stands (calls ++ [c]) name f ↔
      (Proper name ∧ c = .register name f) ∨ (c.name ≠ name ∧ Stands calls name f) := by
  constructor
  · rintro ⟨hp, before, after, hc, ha⟩
    rcases List.eq_nil_or_concat after with rfl | ⟨after, d, rfl⟩
    · obtain ⟨-, hd⟩ := List.append_inj' hc rfl
      exact Or.inl ⟨hp, by simpa using hd⟩
    · have hc' : calls ++ [c] = (before ++ .register name f :: after) ++ [d] := by
        simpa using hc
      obtain ⟨rfl, hd⟩ := List.append_inj' hc' rfl
      obtain rfl : c = d := by simpa using hd
      exact Or.inr ⟨ha c (by simp), hp, before, after, rfl, fun x hx => ha x (by simp [hx])⟩
  · rintro (⟨hp, rfl⟩ | ⟨hne, hp, before, after, rfl, ha⟩)
    · exact ⟨hp, calls, [], rfl, by simp⟩
    · refine ⟨hp, before, after ++ [c], by simp, fun x hx => ?_⟩
      rcases List.mem_append.1 hx with hx | hx
      · exact ha x hx
      · obtain rfl : x = c := by simpa using hx
        exact hne

theorem stands_concat_of_not_proper {calls : List Call} {c : Call} (hc : ¬ Proper c.name)
    {name : String} {f : Callable} : Stands (calls ++ [c]) name f ↔ Stands calls name f := by
  rw [stands_concat]
  constructor
  · rintro (⟨hp, rfl⟩ | ⟨-, h⟩)
    · exact absurd hp hc
    · exact h
  · intro h
    refine Or.inr ⟨?_, h⟩
    rintro rfl
    exact hc h.1

theorem registered_register {calls : List Call} {q x : String} {f : Callable} (hq : Proper q) :
    Registered (calls ++ [.register q f]) x ↔ x = q ∨ Registered calls x := by
  simp only [Registered, stands_concat, Call.name, Call.register.injEq]
  by_cases hx : q = x
  · subst hx
    simp [hq]
  · simp [hx, Ne.symm hx]

theorem registered_unregister {calls : List Call} {q x : String} :
    Registered (calls ++ [.unregister q]) x ↔ x ≠ q ∧ Registered calls x := by
  simp [Registered, stands_concat, Call.name, eq_comm]

theorem clashed_concat {calls : List Call} {c : Call} {bare : String} :
    Clashed (calls ++ [c]) bare ↔ Clashed calls bare ∨ Clashes (calls ++ [c]) bare := by
  constructor
  · rintro ⟨moment, hm, h⟩
    rcases List.prefix_concat_iff.1 hm with rfl | hm
    · exact Or.inr h
    · exact Or.inl ⟨moment, hm, h⟩
  · rintro (⟨moment, hm, h⟩ | h)
    · exact ⟨moment, hm.trans (List.prefix_append _ _), h⟩
    · exact ⟨_, List.prefix_rfl, h⟩

theorem Clashes.clashed {calls : List Call} {bare : String} (h : Clashes calls bare) :
    Clashed calls bare := ⟨calls, List.prefix_rfl, h⟩

/-- Of registered names, ending in a bare name is having it as `bareName`. -/
theorem endsIn_iff_of_registered {calls : List Call} {q bare : String}
    (hb : isQualified bare = false) (hq : Registered calls q) :
    EndsIn q bare ↔ bareName q = bare := by
  rw [endsIn_iff_bareName hb]
  exact and_iff_right hq.proper.isQualified

theorem clashes_iff {calls : List Call} {bare : String} (hb : isQualified bare = false) :
    Clashes calls bare ↔ ∃ a b, a ≠ b ∧ bareName a = bare ∧ bareName b = bare ∧
      Registered calls a ∧ Registered calls b := by
  constructor
  · rintro ⟨a, b, hne, ha, hb', hra, hrb⟩
    exact ⟨a, b, hne, (endsIn_iff_of_registered hb hra).1 ha,
      (endsIn_iff_of_registered hb hrb).1 hb', hra, hrb⟩
  · rintro ⟨a, b, hne, ha, hb', hra, hrb⟩
    exact ⟨a, b, hne, (endsIn_iff_of_registered hb hra).2 ha,
      (endsIn_iff_of_registered hb hrb).2 hb', hra, hrb⟩

/-- Another name under a bare name clashes with those that are registered under it. -/
theorem clashes_register {calls : List Call} {q bare : String} {f : Callable} (hq : Proper q)
    (hb : isQualified bare = false) :
    Clashes (calls ++ [.register q f]) bare ↔
      Clashes calls bare ∨
        bareName q = bare ∧ ∃ x, x ≠ q ∧ bareName x = bare ∧ Registered calls x := by
  simp only [clashes_iff hb, registered_register hq]
  constructor
  · rintro ⟨a, b, hne, ha, hb', rfl | hra, rfl | hrb⟩
    · exact absurd rfl hne
    · exact Or.inr ⟨ha, b, Ne.symm hne, hb', hrb⟩
    · exact Or.inr ⟨hb', a, hne, ha, hra⟩
    · exact Or.inl ⟨a, b, hne, ha, hb', hra, hrb⟩
  · rintro (⟨a, b, hne, ha, hb', hra, hrb⟩ | ⟨hq', x, hne, hx, hrx⟩)
    · exact ⟨a, b, hne, ha, hb', Or.inr hra, Or.inr hrb⟩
    · exact ⟨q, x, Ne.symm hne, hq', hx, Or.inl rfl, Or.inr hrx⟩

/-! ## What the operations do to the tables -/

/-- A bare name under which `insert` may put a callable: one that is ambiguous has no entry left. -/
def Cleared (r : Registry) (bare : String) : Prop :=
  bare ∈ r.ambiguous → Entries.find? bare r.owners = none ∧ Entries.find? bare r.table = none

section insert
variable {r : Registry} {q bare : String} {f : Callable}

theorem mem_ambiguous_insert {b : String} :
    b ∈ (r.insert q bare f).ambiguous ↔
      b ∈ r.ambiguous ∨ b = bare ∧ ∃ o, Entries.find? bare r.owners = some o ∧ o ≠ q := by
  unfold insert
  by_cases ha : r.ambiguous.contains bare = true
  · simp only [ha, if_true]
    constructor
    · exact Or.inl
    · rintro (h | ⟨rfl, -⟩)
      · exact h
      · simpa using ha
  · simp only [ha]
    cases ho : Entries.find? bare r.owners with
    | none => simp
    | some o =>
      by_cases hq : o = q
      · simp [hq]
      · simp [hq, or_comm]

theorem find?_owners_insert (hc : Cleared r bare) (b : String) :
    Entries.find? b (r.insert q bare f).owners =
      if bare = b then (if b ∈ (r.insert q bare f).ambiguous then none else some q)
      else Entries.find? b r.owners := by
  unfold insert
  by_cases ha : bare ∈ r.ambiguous
  · have hn := (hc ha).1
    by_cases hb : bare = b
    · subst hb
      simp [ha, hn]
    · simp [ha, hb]
  · cases ho : Entries.find? bare r.owners with
    | none => by_cases hb : bare = b <;> simp_all [Entries.find?_put]
    | some o =>
      by_cases hq : o = q
      · by_cases hb : bare = b <;> simp_all
      · by_cases hb : bare = b <;> simp_all [Entries.find?_drop]

theorem find?_insert (hc : Cleared r bare) (hne : q ≠ bare) (x : String) :
    (r.insert q bare f).find? x =
      if q = x then some f
      else if bare = x then (if x ∈ (r.insert q bare f).ambiguous then none else some f)
      else r.find? x := by
  unfold insert find?
  by_cases ha : bare ∈ r.ambiguous
  · have hn := (hc ha).2
    by_cases hx : bare = x
    · subst hx
      simp [ha, hn, hne, Entries.find?_put]
    · simp [ha, hx, Entries.find?_put]
  · cases ho : Entries.find? bare r.owners with
    | none => by_cases hx : bare = x <;> simp_all [Entries.find?_put]
    | some o =>
      by_cases hq : o = q
      · by_cases hx : bare = x <;> simp_all [Entries.find?_put]
      · by_cases hx : bare = x <;> simp_all [Entries.find?_put, Entries.find?_drop]

theorem nodup_insert (h : (r.table.map Prod.fst).Nodup) :
    ((r.insert q bare f).table.map Prod.fst).Nodup := by
  have hq := Entries.nodup_names_put h q f
  unfold insert
  split
  · exact hq
  · split
    · split
      · exact Entries.nodup_names_put hq bare f
      · exact Entries.nodup_names_drop hq bare
    · exact Entries.nodup_names_put hq bare f

end insert

section unregister
variable {r : Registry} {q : String}

theorem find?_unregister (hq : isQualified q = true) (x : String) :
    (r.unregister q).1.find? x =
      if q = x ∨ (bareName q = x ∧ Entries.find? x r.owners = some q) then none
      else r.find? x := by
  unfold unregister find?
  by_cases ho : Entries.find? (bareName q) r.owners = some q
  · by_cases hx : bareName q = x <;> by_cases hqx : q = x <;>
      simp_all [Entries.find?_drop]
  · by_cases hx : bareName q = x <;> by_cases hqx : q = x <;>
      simp_all [Entries.find?_drop]

theorem find?_owners_unregister (hq : isQualified q = true) (b : String) :
    Entries.find? b (r.unregister q).1.owners =
      if bareName q = b ∧ Entries.find? b r.owners = some q then none
      else Entries.find? b r.owners := by
  unfold unregister
  by_cases ho : Entries.find? (bareName q) r.owners = some q
  · by_cases hb : bareName q = b <;> simp_all [Entries.find?_drop]
  · by_cases hb : bareName q = b <;> simp_all

theorem ambiguous_unregister : (r.unregister q).1.ambiguous = r.ambiguous := by
  unfold unregister
  split
  · rfl
  · dsimp only
    split <;> rfl

theorem nodup_unregister (h : (r.table.map Prod.fst).Nodup) :
    ((r.unregister q).1.table.map Prod.fst).Nodup := by
  unfold unregister
  split
  · exact h
  · dsimp only
    split
    · exact Entries.nodup_names_drop (Entries.nodup_names_drop h q) _
    · exact Entries.nodup_names_drop h q

/-- A name is reported as removed when it is qualified and the table holds it. -/
theorem unregister_snd : (r.unregister q).2 = (isQualified q && (r.find? q).isSome) := by
  unfold unregister find?
  by_cases hq : isQualified q = true
  · simp only [hq, Bool.not_true, Bool.false_eq_true, if_false, Bool.true_and]
    split <;> rfl
  · simp [hq]

end unregister

/-! ## The invariant -/

/-- How the tables of a registry reflect the calls it was used through. -/
structure Reflects (calls : List Call) (r : Registry) : Prop where
  qualified : ∀ q, isQualified q = true → ∀ f, r.find? q = some f ↔ Stands calls q f
  /-- The owner of a bare name is the one registered name behind it. -/
  owner : ∀ b q, Entries.find? b r.owners = some q ↔
    b ∉ r.ambiguous ∧ bareName q = b ∧ Registered calls q
  bare : ∀ b, isQualified b = false → r.find? b = (Entries.find? b r.owners).bind r.find?
  ambiguous : ∀ b, isQualified b = false → (b ∈ r.ambiguous ↔ Clashed calls b)
  nodup : (r.table.map Prod.fst).Nodup

namespace Reflects

variable {calls : List Call} {r : Registry}

theorem registered_iff (h : Reflects calls r) {q : String} (hq : isQualified q = true) :
    Registered calls q ↔ (r.find? q).isSome = true := by
  rw [Option.isSome_iff_exists]
  exact exists_congr fun f => (h.qualified q hq f).symm

theorem cleared (h : Reflects calls r) {b : String} (hb : isQualified b = false) :
    Cleared r b := by
  intro ha
  have ho : Entries.find? b r.owners = none := by
    cases hf : Entries.find? b r.owners with
    | none => rfl
    | some q => exact absurd ha ((h.owner b q).1 hf).1
  exact ⟨ho, by simpa [ho, find?] using h.bare b hb⟩

/-- A call about a name that cannot be registered changes nothing that is registered. -/
theorem unchanged (h : Reflects calls r) {c : Call} (hc : ¬ Proper c.name) :
    Reflects (calls ++ [c]) r := by
  have hr : ∀ q, Registered (calls ++ [c]) q ↔ Registered calls q :=
    fun q => exists_congr fun _ => stands_concat_of_not_proper hc
  refine ⟨fun q hq f => (h.qualified q hq f).trans (stands_concat_of_not_proper hc).symm,
    fun b q => by rw [h.owner b q, hr q], h.bare, fun b hb => ?_, h.nodup⟩
  rw [h.ambiguous b hb, clashed_concat]
  refine ⟨Or.inl, ?_⟩
  rintro (hc | hc)
  · exact hc
  · exact Clashes.clashed (by simpa [Clashes, hr] using hc)

/-- The bare name that a registration makes ambiguous is the one that another name owns. -/
theorem clashed_register (h : Reflects calls r) {q b : String} {f : Callable} (hq : Proper q)
    (hb : isQualified b = false) :
    Clashed (calls ++ [.register q f]) b ↔ b ∈ r.ambiguous ∨
      b = bareName q ∧ ∃ o, Entries.find? (bareName q) r.owners = some o ∧ o ≠ q := by
  rw [clashed_concat, clashes_register hq hb, ← h.ambiguous b hb]
  constructor
  · rintro (ha | hc | ⟨rfl, x, hx, hbx, hrx⟩)
    · exact Or.inl ha
    · exact Or.inl ((h.ambiguous b hb).2 hc.clashed)
    · by_cases ha : bareName q ∈ r.ambiguous
      · exact Or.inl ha
      · exact Or.inr ⟨rfl, x, (h.owner _ _).2 ⟨ha, hbx, hrx⟩, hx⟩
  · rintro (ha | ⟨rfl, o, ho, hne⟩)
    · exact Or.inl ha
    · obtain ⟨-, hbo, hro⟩ := (h.owner _ _).1 ho
      exact Or.inr (Or.inr ⟨rfl, o, hne, hbo, hro⟩)

theorem bareName_ne_owner (h : Reflects calls r) {b o : String}
    (ho : Entries.find? b r.owners = some o) (q : String) : bareName q ≠ o := by
  obtain ⟨-, -, hr⟩ := (h.owner b o).1 ho
  exact (ne_of_isQualified hr.proper.isQualified (isQualified_bareName q)).symm

section
variable {q : String} (f : Callable)

/-- A registered name owns its bare name, unless that is ambiguous now. -/
theorem owner_insert (h : Reflects calls r) (hq : Proper q) (b x : String) :
    Entries.find? b (r.insert q (bareName q) f).owners = some x ↔
      b ∉ (r.insert q (bareName q) f).ambiguous ∧ bareName x = b ∧
        Registered (calls ++ [.register q f]) x := by
  rw [find?_owners_insert (h.cleared (isQualified_bareName q)), registered_register hq]
  by_cases hb : bareName q = b
  · subst hb
    by_cases ha : bareName q ∈ (r.insert q (bareName q) f).ambiguous
    · simp [ha]
    · have hno : ¬ ∃ o, Entries.find? (bareName q) r.owners = some o ∧ o ≠ q :=
        fun ho => ha (mem_ambiguous_insert.2 (Or.inr ⟨rfl, ho⟩))
      have hra : bareName q ∉ r.ambiguous := fun hm => ha (mem_ambiguous_insert.2 (Or.inl hm))
      simp only [if_true, ha, if_false, Option.some.injEq, not_false_eq_true, true_and]
      constructor
      · rintro rfl
        exact ⟨rfl, Or.inl rfl⟩
      · rintro ⟨hbx, rfl | hrx⟩
        · rfl
        · by_cases hxq : x = q
          · exact hxq.symm
          · exact absurd ⟨x, (h.owner _ _).2 ⟨hra, hbx, hrx⟩, hxq⟩ hno
  · rw [if_neg hb, h.owner b x, mem_ambiguous_insert]
    constructor
    · rintro ⟨ha, hbx, hrx⟩
      refine ⟨?_, hbx, Or.inr hrx⟩
      rintro (ha' | ⟨rfl, -⟩)
      · exact ha ha'
      · exact hb rfl
    · rintro ⟨ha, hbx, rfl | hrx⟩
      · exact absurd hbx hb
      · exact ⟨fun hm => ha (Or.inl hm), hbx, hrx⟩

/-- The owner of a bare name, if it has one, is looked up in the new table. -/
theorem bare_insert (h : Reflects calls r) (hq : Proper q) {b : String}
    (hb : isQualified b = false) :
    (r.insert q (bareName q) f).find? b =
      (Entries.find? b (r.insert q (bareName q) f).owners).bind
        (r.insert q (bareName q) f).find? := by
  have hcl := h.cleared (isQualified_bareName q)
  have hfind := find?_insert (f := f) hcl
    (ne_of_isQualified hq.isQualified (isQualified_bareName q))
  have hqb : q ≠ b := ne_of_isQualified hq.isQualified hb
  rw [hfind, find?_owners_insert hcl, if_neg hqb]
  by_cases hbb : bareName q = b
  · subst hbb
    by_cases ha : bareName q ∈ (r.insert q (bareName q) f).ambiguous
    · simp [ha]
    · simp [ha, hfind]
  · rw [if_neg hbb, if_neg hbb, h.bare b hb]
    cases ho : Entries.find? b r.owners with
    | none => rfl
    | some o =>
      have hqo : q ≠ o := by
        rintro rfl
        exact hbb ((h.owner _ _).1 ho).2.1
      simp [hfind, hqo, h.bareName_ne_owner ho q]

theorem insert (h : Reflects calls r) (hq : Proper q) :
    Reflects (calls ++ [.register q f]) (r.insert q (bareName q) f) where
  qualified x hx g := by
    have hfind := find?_insert (f := f) (h.cleared (isQualified_bareName q))
      (ne_of_isQualified hq.isQualified (isQualified_bareName q))
    have hxb : bareName q ≠ x := (ne_of_isQualified hx (isQualified_bareName q)).symm
    rw [hfind, stands_concat, if_neg hxb, Call.name]
    by_cases hqx : q = x
    · subst hqx
      simp [hq]
    · simp [hqx, h.qualified x hx g]
  owner := h.owner_insert f hq
  bare _ hb := h.bare_insert f hq hb
  ambiguous _ hb := mem_ambiguous_insert.trans (h.clashed_register hq hb).symm
  nodup := nodup_insert h.nodup

end

section
variable {q : String}

/-- A bare name that loses its owner had no other name behind it. -/
theorem owner_unregister (h : Reflects calls r) (hq : isQualified q = true) (b x : String) :
    Entries.find? b (r.unregister q).1.owners = some x ↔
      b ∉ (r.unregister q).1.ambiguous ∧ bareName x = b ∧
        Registered (calls ++ [.unregister q]) x := by
  rw [find?_owners_unregister hq, ambiguous_unregister, registered_unregister]
  by_cases hb : bareName q = b ∧ Entries.find? b r.owners = some q
  · rw [if_pos hb]
    obtain ⟨rfl, ho⟩ := hb
    refine ⟨fun hx => by simp at hx, ?_⟩
    rintro ⟨ha, hbx, hxq, hrx⟩
    have hox := (h.owner _ _).2 ⟨ha, hbx, hrx⟩
    exact absurd (Option.some.inj (hox.symm.trans ho)) hxq
  · rw [if_neg hb, h.owner b x]
    constructor
    · rintro ⟨ha, hbx, hrx⟩
      refine ⟨ha, hbx, ?_, hrx⟩
      rintro rfl
      exact hb ⟨hbx, (h.owner b x).2 ⟨ha, hbx, hrx⟩⟩
    · rintro ⟨ha, hbx, -, hrx⟩
      exact ⟨ha, hbx, hrx⟩

theorem bare_unregister (h : Reflects calls r) (hq : isQualified q = true) {b : String}
    (hb : isQualified b = false) :
    (r.unregister q).1.find? b =
      (Entries.find? b (r.unregister q).1.owners).bind (r.unregister q).1.find? := by
  have hfind := find?_unregister (r := r) hq
  have hqb : q ≠ b := ne_of_isQualified hq hb
  rw [hfind, find?_owners_unregister hq]
  by_cases ho : bareName q = b ∧ Entries.find? b r.owners = some q
  · simp [ho]
  · rw [if_neg ho, if_neg (by simp [hqb, ho]), h.bare b hb]
    cases hf : Entries.find? b r.owners with
    | none => rfl
    | some o =>
      have hqo : q ≠ o := by
        rintro rfl
        exact ho ⟨((h.owner _ _).1 hf).2.1, hf⟩
      simp [hfind, hqo, h.bareName_ne_owner hf q]

theorem unregister (h : Reflects calls r) (hq : isQualified q = true) :
    Reflects (calls ++ [.unregister q]) (r.unregister q).1 where
  qualified x hx g := by
    have hxb : bareName q ≠ x := (ne_of_isQualified hx (isQualified_bareName q)).symm
    rw [find?_unregister hq, stands_concat, Call.name]
    by_cases hqx : q = x
    · simp [hqx]
    · simp [hqx, hxb, h.qualified x hx g]
  owner := h.owner_unregister hq
  bare _ hb := h.bare_unregister hq hb
  ambiguous b hb := by
    -- what clashes without `q` has clashed before
    rw [ambiguous_unregister, h.ambiguous b hb, clashed_concat]
    refine ⟨Or.inl, ?_⟩
    rintro (hc | ⟨x, y, hne, hx, hy, hrx, hry⟩)
    · exact hc
    · exact Clashes.clashed ⟨x, y, hne, hx, hy, (registered_unregister.1 hrx).2,
        (registered_unregister.1 hry).2⟩
  nodup := nodup_unregister h.nodup

end

/-- **Every call keeps the invariant.** -/
theorem apply (h : Reflects calls r) (c : Call) : Reflects (calls ++ [c]) (c.apply r) := by
  cases c with
  | register n f =>
    by_cases hp : Proper n
    · rw [apply_register_of_proper r f hp]
      exact h.insert f hp
    · rw [apply_register_of_not_proper r f hp]
      exact h.unchanged hp
  | unregister n =>
    by_cases hn : isQualified n = true
    · exact h.unregister hn
    · have hr : (Call.unregister n).apply r = r := by simp [Call.apply, Registry.unregister, hn]
      rw [hr]
      exact h.unchanged fun hp => hn hp.isQualified

theorem run (h : Reflects calls r) (more : List Call) :
    Reflects (calls ++ more) (r.run more) := by
  induction more generalizing calls r with
  | nil => simpa [Registry.run] using h
  | cons c more ih => simpa [Registry.run] using ih (h.apply c)

end Reflects

theorem reflects_empty (kind : Kind) : Reflects [] (.empty kind) := by
  have hs : ∀ q, ¬ Registered [] q := by
    rintro q ⟨f, -, before, after, h, -⟩
    simp at h
  have hc : ∀ b, ¬ Clashed [] b := by
    rintro b ⟨moment, hm, x, -, -, -, -, hx, -⟩
    obtain rfl := List.prefix_nil.1 hm
    exact hs x hx
  refine ⟨fun q _ f => ?_, fun b q => ?_, fun b _ => rfl, fun b _ => ?_, by simp [empty]⟩
  · simp only [find?, empty, Entries.find?_nil, reduceCtorEq, false_iff]
    exact fun h => hs q ⟨f, h⟩
  · simp [empty, hs q]
  · simp [empty, hc b]

end Stencil.Registry
