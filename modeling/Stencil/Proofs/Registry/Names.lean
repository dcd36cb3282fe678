import Stencil.Library

/-!
# Names that can be registered

`Proper` says which names a registry takes, `EndsIn` which names a bare name stands for. Both are
said of the characters alone; this file ties them to what the registry computes: `checkName` takes
exactly the proper names (`checkName_eq_ok_iff`), and `bareName` is the one ending without a dot
(`endsIn_iff_bareName`).
-/
namespace Stencil.Registry

/-- Two or more identifiers with dots between them. -/
def Proper (name : String) : Prop :=
  ∃ segments : List (List Char), 2 ≤ segments.length ∧
    (∀ s ∈ segments, Identifier.isValid s = true) ∧ name.toList = Text.joined '.' segments

/-- The name consists of something, a dot, and the bare name `bare`. -/
def EndsIn (name bare : String) : Prop := ∃ before, name.toList = before ++ '.' :: bare.toList

theorem isQualified_iff {name : String} : isQualified name = true ↔ '.' ∈ name.toList := by
  simp [isQualified]

theorem isQualified_eq_false_iff {name : String} :
    isQualified name = false ↔ '.' ∉ name.toList := by
  simp [isQualified]

theorem ne_of_isQualified {a b : String} (ha : isQualified a = true)
    (hb : isQualified b = false) : a ≠ b := by
  rintro rfl
  rw [ha] at hb
  exact Bool.noConfusion hb

/-! ## Segments -/

theorem dot_not_mem_of_isValid {s : List Char} (h : Identifier.isValid s = true) : '.' ∉ s := by
  cases s with
  | nil => simp
  | cons c cs =>
    simp only [Identifier.isValid, Bool.and_eq_true, List.all_eq_true] at h
    intro hm
    rcases List.mem_cons.1 hm with rfl | hm
    · exact absurd h.1 (by decide)
    · exact absurd (h.2 _ hm) (by decide)

theorem segments_of_joined {segments : List (List Char)} (hl : 2 ≤ segments.length)
    (hv : ∀ s ∈ segments, Identifier.isValid s = true) :
    Text.cut '.' (Text.joined '.' segments) = segments :=
  Text.cut_joined _ (by rintro rfl; simp at hl) (fun s hs => dot_not_mem_of_isValid (hv s hs))

/-- A text holds the separator exactly when it is cut into several pieces. -/
theorem mem_iff_two_le_length_cut (separator : Char) (cs : List Char) :
    separator ∈ cs ↔ 2 ≤ (Text.cut separator cs).length := by
  constructor
  · intro h
    obtain ⟨before, after, rfl⟩ := List.append_of_mem h
    have hb := List.length_pos_iff.2 (Text.cut_ne_nil separator before)
    have ha := List.length_pos_iff.2 (Text.cut_ne_nil separator after)
    rw [Text.cut_append, List.length_append]
    omega
  · intro h
    by_cases hm : separator ∈ cs
    · exact hm
    · rw [Text.cut_of_not_mem hm] at h
      simp at h

theorem Proper.isQualified {name : String} (h : Proper name) : isQualified name = true := by
  obtain ⟨segments, hl, hv, hn⟩ := h
  rw [isQualified_iff, mem_iff_two_le_length_cut, hn, segments_of_joined hl hv]
  exact hl

/-- **A registry takes exactly the proper names.** -/
theorem checkName_eq_ok_iff {kind : Kind} {name bare : String} :
    checkName kind name = .ok bare ↔ Proper name ∧ bareName name = bare := by
  unfold checkName
  by_cases hq : isQualified name = true
  · by_cases hv : (segments name.toList).all Identifier.isValid = true
    · have hp : Proper name := by
        refine ⟨segments name.toList, ?_, List.all_eq_true.1 hv, (Text.joined_cut _ _).symm⟩
        exact (mem_iff_two_le_length_cut '.' _).1 (isQualified_iff.1 hq)
      simp [hq, hv, hp]
    · have hp : ¬ Proper name := by
        rintro ⟨segs, hl, hs, hn⟩
        rw [segments, hn, segments_of_joined hl hs] at hv
        exact hv (List.all_eq_true.2 hs)
      simp [hq, hv, hp]
  · have hp : ¬ Proper name := fun hp => hq hp.isQualified
    simp [hq, hp]

theorem register_of_proper (r : Registry) {name : String} (f : Callable) (h : Proper name) :
    r.register name f = .ok (r.insert name (bareName name) f) := by
  simp only [register, checkName_eq_ok_iff.2 ⟨h, rfl⟩]
  rfl

theorem register_of_not_proper (r : Registry) {name : String} (f : Callable) (h : ¬ Proper name) :
    ∃ e, r.register name f = .error e := by
  cases hc : checkName r.kind name with
  | ok bare => exact absurd (checkName_eq_ok_iff.1 hc).1 h
  | error e =>
    refine ⟨e, ?_⟩
    simp only [register, hc]
    rfl

/-! ## Endings -/

theorem dot_not_mem_bareName (name : String) : '.' ∉ (bareName name).toList := by
  have hm : (segments name.toList).getLastD [] ∈ segments name.toList := by
    have hne : segments name.toList ≠ [] := Text.cut_ne_nil _ _
    rw [List.getLastD_eq_getLast?, List.getLast?_eq_some_getLast hne]
    exact List.getLast_mem _
  simpa [bareName] using Text.not_mem_of_mem_cut hm

theorem isQualified_bareName (name : String) : isQualified (bareName name) = false :=
  isQualified_eq_false_iff.2 (dot_not_mem_bareName name)

/-- **The bare name is the ending without a dot.** -/
theorem endsIn_iff_bareName {name bare : String} (hb : isQualified bare = false) :
    EndsIn name bare ↔ isQualified name = true ∧ bareName name = bare := by
  rw [isQualified_iff]
  constructor
  · rintro ⟨before, hn⟩
    refine ⟨by simp [hn], ?_⟩
    have hc : segments name.toList = Text.cut '.' before ++ [bare.toList] := by
      rw [segments, hn, Text.cut_append, Text.cut_of_not_mem (isQualified_eq_false_iff.1 hb)]
    simp [bareName, hc]
  · rintro ⟨hq, rfl⟩
    -- The last dot of the name is the one to cut at; it is the first of the name read backwards.
    obtain ⟨after, before, hr, hd⟩ := List.eq_append_cons_of_mem (List.mem_reverse.2 hq)
    have hn : name.toList = before.reverse ++ '.' :: after.reverse := by
      have := congrArg List.reverse hr
      simpa using this
    refine ⟨before.reverse, ?_⟩
    have hc : segments name.toList = Text.cut '.' before.reverse ++ [after.reverse] := by
      have ha : '.' ∉ after.reverse := by simpa using hd
      rw [segments, hn, Text.cut_append, Text.cut_of_not_mem ha]
    rw [bareName, hc, hn]
    simp

end Stencil.Registry
