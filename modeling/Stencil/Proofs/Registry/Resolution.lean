import Stencil.Proofs.Registry.History

/-!
# What a registry answers

The answers of a registry as facts about the calls it was used through: which callable a name
resolves to, when a bare name is ambiguous, which names are listed, and which calls change nothing.
They hold of registries that begin empty and of those that begin with the built-in filters, whose
installation is itself a list of calls (`installed`).
-/
namespace Stencil.Registry

/-- What a registry that was used through these calls answers. -/
structure Answers (calls : List Call) (r : Registry) : Prop where
  /-- A name with a dot resolves to the registration of it that stands. -/
  qualified : ∀ q, isQualified q = true → ∀ f, r.find? q = some f ↔ Stands calls q f
  /-- A bare name is ambiguous when two names that end in it ever stood together. -/
  ambiguous : ∀ b, isQualified b = false → (r.isAmbiguous b = true ↔ Clashed calls b)
  /-- An ambiguous bare name resolves to nothing. -/
  clashed : ∀ b, isQualified b = false → Clashed calls b → r.find? b = none
  /-- Any other resolves to what stands under the one name that ends in it. -/
  bare : ∀ b, isQualified b = false → ¬ Clashed calls b →
    ∀ f, r.find? b = some f ↔ ∃ q, EndsIn q b ∧ Stands calls q f
  /-- The list of names is in strict order, so that no name is in it twice. -/
  sorted : r.qualifiedNames.Pairwise (· < ·)
  listed : ∀ q, q ∈ r.qualifiedNames ↔ Registered calls q
  /-- Proper names are accepted, and only they; a refused call changes nothing. -/
  accepted : ∀ n f, (∃ r', r.register n f = .ok r') ↔ Proper n
  refused : ∀ n f, ¬ Proper n → Call.apply r (.register n f) = r
  /-- A name is reported as removed when it was registered; otherwise nothing changes. -/
  removed : ∀ n, (r.unregister n).2 = true ↔ Registered calls n
  absent : ∀ n, (r.unregister n).2 = false → (r.unregister n).1 = r

section
variable {calls : List Call} {r : Registry}

theorem drop_of_find?_eq_none {α : Type} {n : String} {entries : List (String × α)}
    (h : Entries.find? n entries = none) : Entries.drop n entries = entries := by
  rw [Entries.find?_eq_none_iff] at h
  refine List.filter_eq_self.2 fun e he => ?_
  have hne : e.1 ≠ n := by
    rintro rfl
    exact h (List.mem_map_of_mem he)
  simpa using hne

namespace Reflects

theorem mem_qualifiedNames (h : Reflects calls r) {q : String} :
    q ∈ r.qualifiedNames ↔ Registered calls q := by
  simp only [qualifiedNames, List.mem_mergeSort, List.mem_filter]
  constructor
  · rintro ⟨hm, hq⟩
    rw [h.registered_iff hq, find?, Option.isSome_iff_ne_none]
    exact fun hn => (Entries.find?_eq_none_iff _ _).1 hn hm
  · intro hr
    have hq := hr.proper.isQualified
    refine ⟨?_, hq⟩
    by_cases hm : q ∈ r.table.map Prod.fst
    · exact hm
    · rw [h.registered_iff hq, find?, (Entries.find?_eq_none_iff _ _).2 hm] at hr
      simp at hr

theorem sorted_qualifiedNames (h : Reflects calls r) :
    r.qualifiedNames.Pairwise (· < ·) := by
  have hle : r.qualifiedNames.Pairwise (fun a b => decide (a ≤ b) = true) := by
    refine List.pairwise_mergeSort (fun a b c hab hbc => ?_) (fun a b => ?_) _
    · exact decide_eq_true (String.le_trans (of_decide_eq_true hab) (of_decide_eq_true hbc))
    · simpa using String.le_total a b
  have hne : r.qualifiedNames.Pairwise (· ≠ ·) :=
    (List.mergeSort_perm _ _).nodup_iff.2 (h.nodup.sublist List.filter_sublist)
  refine (hle.and hne).imp fun {a b} hab => ?_
  exact String.not_le.1 fun hba => hab.2 (String.le_antisymm (of_decide_eq_true hab.1) hba)

theorem find?_bare (h : Reflects calls r) {b : String} (hb : isQualified b = false) {f : Callable} :
    r.find? b = some f ↔ b ∉ r.ambiguous ∧ ∃ q, EndsIn q b ∧ Stands calls q f := by
  rw [h.bare b hb, Option.bind_eq_some_iff]
  constructor
  · rintro ⟨q, ho, hf⟩
    obtain ⟨ha, hbq, hr⟩ := (h.owner b q).1 ho
    exact ⟨ha, q, (endsIn_iff_of_registered hb hr).2 hbq,
      (h.qualified q hr.proper.isQualified f).1 hf⟩
  · rintro ⟨ha, q, he, hs⟩
    have hr : Registered calls q := ⟨f, hs⟩
    exact ⟨q, (h.owner b q).2 ⟨ha, (endsIn_iff_of_registered hb hr).1 he, hr⟩,
      (h.qualified q hr.proper.isQualified f).2 hs⟩

theorem unregister_snd_iff (h : Reflects calls r) {n : String} :
    (r.unregister n).2 = true ↔ Registered calls n := by
  rw [unregister_snd, Bool.and_eq_true]
  constructor
  · rintro ⟨hq, hs⟩
    exact (h.registered_iff hq).2 hs
  · intro hr
    exact ⟨hr.proper.isQualified, (h.registered_iff hr.proper.isQualified).1 hr⟩

theorem unregister_of_absent (h : Reflects calls r) {n : String}
    (hn : (r.unregister n).2 = false) : (r.unregister n).1 = r := by
  by_cases hq : isQualified n = true
  · have hf : Entries.find? n r.table = none := by
      rw [unregister_snd, hq] at hn
      simpa [find?] using hn
    have ho : Entries.find? (bareName n) r.owners ≠ some n := by
      intro ho
      obtain ⟨-, -, hr⟩ := (h.owner _ _).1 ho
      rw [← h.unregister_snd_iff, hn] at hr
      exact Bool.noConfusion hr
    simp [Registry.unregister, hq, ho, drop_of_find?_eq_none hf]
  · simp [Registry.unregister, hq]

end Reflects

theorem answers_of_reflects (h : Reflects calls r) : Answers calls r where
  qualified := h.qualified
  ambiguous b hb := by simpa [isAmbiguous] using h.ambiguous b hb
  clashed b hb hc := by
    refine Option.eq_none_iff_forall_ne_some.2 fun f hf => ?_
    exact ((h.find?_bare hb).1 hf).1 ((h.ambiguous b hb).2 hc)
  bare b hb hc f := by
    rw [h.find?_bare hb, h.ambiguous b hb]
    exact and_iff_right hc
  sorted := h.sorted_qualifiedNames
  listed _ := h.mem_qualifiedNames
  accepted n f := by
    by_cases hp : Proper n
    · simp [hp, register_of_proper r f hp]
    · obtain ⟨e, he⟩ := register_of_not_proper r f hp
      simp [hp, he]
  refused n f hp := apply_register_of_not_proper r f hp
  removed _ := h.unregister_snd_iff
  absent _ hn := h.unregister_of_absent hn

end

/-- The calls that install the built-in filters. -/
def installed : List Call :=
  Builtin.all.zipIdx.map fun (f, n) =>
    .register (Library.builtinName f) (Library.builtinCallable n f)

theorem checkName_builtinName (kind : Kind) (f : Builtin) :
    checkName kind (Library.builtinName f) = .ok f.name := by
  cases f <;> rfl

theorem run_installed : run (.empty .filter) installed = Library.builtinFilters := by
  have hc : ∀ (r : Registry) (f : Builtin) (c : Callable),
      Call.apply r (.register (Library.builtinName f) c) =
        r.insert (Library.builtinName f) f.name c := by
    intro r f c
    obtain ⟨hp, hb⟩ := checkName_eq_ok_iff.1 (checkName_builtinName r.kind f)
    rw [apply_register_of_proper r c hp, hb]
  simp only [run, installed, Library.builtinFilters, List.foldl_map, hc]

/-- **A registry resolves names as its history says.** Whatever is registered and unregistered, in
whatever order, from an empty registry or from the built-in filters. -/
theorem answers_run (calls : List Call) :
    (∀ kind, Answers calls (run (.empty kind) calls)) ∧
      Answers (installed ++ calls) (run Library.builtinFilters calls) := by
  constructor
  · intro kind
    have h := (reflects_empty kind).run calls
    exact answers_of_reflects h
  · have h := ((reflects_empty .filter).run installed).run calls
    rw [run_installed] at h
    exact answers_of_reflects h

end Stencil.Registry
