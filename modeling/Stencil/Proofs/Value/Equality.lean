import Mathlib.Data.List.Perm.Subperm
import Stencil.Value.Comparison

/-!
# Equality as a relation

Without floats, which need not be equal to themselves and are near several integers, equality of
values is symmetric (`equal_symm`) and transitive (`equal_trans`). Both go by the parts of a value,
with one case for each way in which two values are equal (`Equated`). For maps the names must differ
within each: then two maps of one length, of which the second has all entries of the first, have the
same names.
-/
namespace Stencil

namespace Entries

variable {α : Type}

theorem find?_of_mem {name : String} {v : α} : ∀ {entries : List (String × α)},
    (entries.map Prod.fst).Nodup → (name, v) ∈ entries → find? name entries = some v
  | (n, w) :: rest, hn, h => by
    obtain ⟨hfirst, hrest⟩ := List.nodup_cons.1 hn
    rcases List.mem_cons.1 h with heq | h
    · obtain ⟨rfl, rfl⟩ := Prod.mk.inj heq
      rw [find?_cons, if_pos rfl]
    · have hne : n ≠ name := by
        rintro rfl
        exact hfirst (List.mem_map.2 ⟨_, h, rfl⟩)
      rw [find?_cons, if_neg hne, find?_of_mem hrest h]

/-- Of two lists of one length, with different names in each, each has the names of the other if
one has. -/
theorem names_subset {as : List (String × α)} {bs : List (String × α)}
    (ha : (as.map Prod.fst).Nodup) (hlength : as.length = bs.length)
    (h : as.map Prod.fst ⊆ bs.map Prod.fst) : bs.map Prod.fst ⊆ as.map Prod.fst := by
  have hperm := (List.subperm_of_subset ha h).perm_of_length_le (by simp [hlength])
  exact hperm.symm.subset

end Entries

namespace Value

/-! ## Values and their parts -/

/-- No float and no boolean at any depth of lists and maps, and no name twice in a map. -/
inductive Discrete : Value → Prop
  | none : Discrete .none
  | int (n : Int64) : Discrete (.int n)
  | str (s : String) : Discrete (.str s)
  | safe (s : String) : Discrete (.safe s)
  | list (identity : Identity) {items : List Value} : (∀ v ∈ items, Discrete v) →
      Discrete (.list identity items)
  | map (identity : Identity) {entries : List (String × Value)} :
      (entries.map Prod.fst).Nodup → (∀ v ∈ entries.map Prod.snd, Discrete v) →
      Discrete (.map identity entries)
  | callable (f : Callable) : Discrete (.callable f)
  | object (identity : Identity) (type text : String) (attributes : List (String × Value))
      (items : List (Value × Value)) (elements : Option (List Value)) (code : Option Code)
      (truthy : Bool) :
      Discrete (.object identity type text attributes items elements code truthy)

/-- The values that equality and order look at within a value. -/
def parts : Value → List Value
  | .list _ items => items
  | .map _ entries => entries.map Prod.snd
  | _ => []

theorem Discrete.of_mem_parts {v : Value} (h : Discrete v) : ∀ w ∈ v.parts, Discrete w := by
  cases h with
  | list _ hitems => exact hitems
  | map _ _ hvalues => exact hvalues
  | _ => exact nofun

attribute [simp] Discrete.none Discrete.int Discrete.str Discrete.safe

@[simp] theorem discrete_list_iff {i : Identity} {items : List Value} :
    Discrete (.list i items) ↔ ∀ v ∈ items, Discrete v :=
  ⟨fun h => h.of_mem_parts, .list i⟩

@[simp] theorem discrete_map_iff {i : Identity} {entries : List (String × Value)} :
    Discrete (.map i entries) ↔
      (entries.map Prod.fst).Nodup ∧ ∀ v ∈ entries.map Prod.snd, Discrete v := by
  refine ⟨fun h => ?_, fun ⟨hnames, hvalues⟩ => .map i hnames hvalues⟩
  cases h with
  | map _ hnames hvalues => exact ⟨hnames, hvalues⟩

/-- What holds of a value if it holds of its parts holds of all values. -/
theorem Discrete.by_parts {P : Value → Prop}
    (step : ∀ v, Discrete v → (∀ w ∈ v.parts, P w) → P v) {v : Value} (h : Discrete v) : P v := by
  induction h with
  | list identity hitems ih => exact step _ (.list identity hitems) ih
  | map identity hnames hvalues ih => exact step _ (.map identity hnames hvalues) ih
  | none | int n | str s | safe s | callable f | object =>
    exact step _ (by constructor) nofun

theorem asText?_eq_some_iff {v : Value} {s : String} :
    v.asText? = some s ↔ v = .str s ∨ v = .safe s := by
  cases v <;> simp [asText?]

/-! ## Equal values -/

/-- What tells callables and objects apart. -/
def host? : Value → Option (Identity ⊕ Identity)
  | .callable f => some (.inl f.identity)
  | .object identity _ _ _ _ _ _ _ => some (.inr identity)
  | _ => Option.none

/-- The ways in which two values are equal. -/
inductive Equated : Value → Value → Prop
  | none : Equated .none .none
  | int (n : Int64) : Equated (.int n) (.int n)
  | text {a b : Value} {s : String} : a.asText? = some s → b.asText? = some s → Equated a b
  | list (i j : Identity) {as bs : List Value} : equalItems as bs = true →
      Equated (.list i as) (.list j bs)
  | map (i j : Identity) {as bs : List (String × Value)} : as.length = bs.length →
      (∀ e ∈ as, ∃ w, Entries.find? e.1 bs = some w ∧ equal e.2 w = true) →
      Equated (.map i as) (.map j bs)
  | host {a b : Value} {k : Identity ⊕ Identity} : a.host? = some k → b.host? = some k →
      Equated a b

theorem equalEntries_iff {bs : List (String × Value)} : ∀ {as : List (String × Value)},
    equalEntries as bs = true ↔
      ∀ e ∈ as, ∃ w, Entries.find? e.1 bs = some w ∧ equal e.2 w = true
  | [] => by simp [equalEntries]
  | (n, v) :: as => by
    rw [equalEntries, Bool.and_eq_true, equalEntries_iff, List.forall_mem_cons]
    cases Entries.find? n bs <;> simp

variable {a b c : Value}

theorem Equated.equal (h : Equated a b) : equal a b = true := by
  cases h with
  | none => rfl
  | int n => simp [Value.equal]
  | text ha hb =>
    rcases asText?_eq_some_iff.1 ha with rfl | rfl <;>
      rcases asText?_eq_some_iff.1 hb with rfl | rfl <;> simp [Value.equal]
  | list i j hitems => rwa [Value.equal]
  | map i j hlength hentries =>
    rw [Value.equal, Bool.and_eq_true, equalEntries_iff]
    exact ⟨by simpa using hlength, hentries⟩
  | host ha hb => cases a <;> cases ha <;> cases b <;> simp_all [host?, Value.equal]

theorem equated_of_equal (ha : Discrete a) (hb : Discrete b) (h : equal a b = true) :
    Equated a b := by
  unfold Value.equal at h
  split at h
  case h_1 => exact .none
  case h_2 | h_4 | h_6 => cases ha
  case h_3 =>
    obtain rfl := eq_of_beq h
    exact .int _
  case h_5 => cases hb
  case h_7 | h_8 | h_9 | h_10 =>
    obtain rfl := eq_of_beq h
    exact .text rfl rfl
  case h_11 => exact .list _ _ h
  case h_12 =>
    rw [Bool.and_eq_true, equalEntries_iff] at h
    exact .map _ _ (by simpa using h.1) h.2
  case h_13 | h_14 => exact .host rfl (congrArg some (congrArg _ (eq_of_beq h).symm))
  case h_15 => cases h

/-! ## Symmetry -/

theorem equalItems_symm : ∀ {as bs : List Value},
    (∀ a ∈ as, ∀ b, Discrete b → equal a b = true → equal b a = true) →
    (∀ b ∈ bs, Discrete b) → equalItems as bs = true → equalItems bs as = true
  | [], [], _, _, h => h
  | [], _ :: _, _, _, h | _ :: _, [], _, _, h => by simp [equalItems] at h
  | a :: as, b :: bs, ih, hb, h => by
    obtain ⟨iha, ihas⟩ := List.forall_mem_cons.1 ih
    obtain ⟨hb, hbs⟩ := List.forall_mem_cons.1 hb
    rw [equalItems, Bool.and_eq_true] at h ⊢
    exact ⟨iha b hb h.1, equalItems_symm ihas hbs h.2⟩

/-- The entries of two equal maps are equal in both directions. -/
theorem find?_symm {as bs : List (String × Value)} (hlength : as.length = bs.length)
    (ha : (as.map Prod.fst).Nodup) (hb : (bs.map Prod.fst).Nodup)
    (h : ∀ e ∈ as, ∃ w, Entries.find? e.1 bs = some w ∧ equal e.2 w = true) :
    ∀ e ∈ bs, ∃ v, (e.1, v) ∈ as ∧ Entries.find? e.1 as = some v ∧ equal v e.2 = true := by
  intro e he
  have hsubset : as.map Prod.fst ⊆ bs.map Prod.fst := by
    intro name hname
    obtain ⟨d, hd, rfl⟩ := List.mem_map.1 hname
    obtain ⟨w, hw, -⟩ := h d hd
    exact List.mem_map.2 ⟨_, Entries.mem_of_find?_eq_some hw, rfl⟩
  have hname := Entries.names_subset ha hlength hsubset (List.mem_map_of_mem he)
  obtain ⟨⟨name, v⟩, hv, rfl⟩ := List.mem_map.1 hname
  obtain ⟨w, hw, hvw⟩ := h _ hv
  rw [Entries.find?_of_mem hb he] at hw
  obtain rfl := Option.some.inj hw
  exact ⟨v, hv, Entries.find?_of_mem ha hv, hvw⟩

/-- **Equality is symmetric.** -/
theorem equal_symm (ha : Discrete a) : ∀ b, Discrete b → equal a b = true → equal b a = true := by
  apply ha.by_parts
  intro a ha ih b hb h
  cases equated_of_equal ha hb h with
  | none | int n => exact h
  | text hs ht => exact (Equated.text ht hs).equal
  | list i j hitems => exact (Equated.list j i (equalItems_symm ih hb.of_mem_parts hitems)).equal
  | @map i j as bs hlength hentries =>
    refine (Equated.map j i hlength.symm fun e he => ?_).equal
    obtain ⟨v, hv, hfind, hequal⟩ :=
      find?_symm hlength (discrete_map_iff.1 ha).1 (discrete_map_iff.1 hb).1 hentries e he
    have hpart : e.2 ∈ bs.map Prod.snd := List.mem_map_of_mem he
    exact ⟨v, hfind, ih v (List.mem_map.2 ⟨_, hv, rfl⟩) e.2 (hb.of_mem_parts _ hpart) hequal⟩
  | host hk hl => exact (Equated.host hl hk).equal

/-! ## Transitivity -/

theorem equalItems_trans : ∀ {as bs cs : List Value},
    (∀ a ∈ as, ∀ b c, Discrete b → Discrete c → equal a b = true → equal b c = true →
      equal a c = true) →
    (∀ b ∈ bs, Discrete b) → (∀ c ∈ cs, Discrete c) →
    equalItems as bs = true → equalItems bs cs = true → equalItems as cs = true
  | [], [], _, _, _, _, _, h => h
  | [], _ :: _, _, _, _, _, h, _ | _ :: _, [], _, _, _, _, h, _ => by simp [equalItems] at h
  | _ :: _, _ :: _, [], _, _, _, _, h => by simp [equalItems] at h
  | a :: as, b :: bs, c :: cs, ih, hb, hc, hab, hbc => by
    obtain ⟨iha, ihas⟩ := List.forall_mem_cons.1 ih
    obtain ⟨hb, hbs⟩ := List.forall_mem_cons.1 hb
    obtain ⟨hc, hcs⟩ := List.forall_mem_cons.1 hc
    rw [equalItems, Bool.and_eq_true] at hab hbc ⊢
    exact ⟨iha b c hb hc hab.1 hbc.1, equalItems_trans ihas hbs hcs hab.2 hbc.2⟩

theorem Equated.asText? (h : Equated a b) {s : String} (ha : a.asText? = some s) :
    b.asText? = some s := by
  cases h with
  | text hs ht =>
    rw [hs] at ha
    exact ht.trans ha
  | host hk hl => cases a <;> cases hk <;> cases ha
  | _ => cases ha

theorem Equated.host? (h : Equated a b) {k : Identity ⊕ Identity} (ha : a.host? = some k) :
    b.host? = some k := by
  cases h with
  | host hk hl =>
    rw [hk] at ha
    exact hl.trans ha
  | text hs ht => rcases asText?_eq_some_iff.1 hs with rfl | rfl <;> cases ha
  | _ => cases ha

/-- **Equality is transitive.** -/
theorem equal_trans (ha : Discrete a) : ∀ b c, Discrete b → Discrete c → equal a b = true →
    equal b c = true → equal a c = true := by
  apply ha.by_parts
  intro a ha ih b c hb hc hab hbc
  have hsecond := equated_of_equal hb hc hbc
  cases equated_of_equal ha hb hab with
  | none | int n => exact hbc
  | text hs ht => exact (Equated.text hs (hsecond.asText? ht)).equal
  | list i j hitems =>
    cases hsecond with
    | list _ k hitems' =>
      have hlist := equalItems_trans ih hb.of_mem_parts hc.of_mem_parts hitems hitems'
      exact (Equated.list i k hlist).equal
    | text hs _ => cases hs
    | host hk _ => cases hk
  | @map i j as bs hlength hentries =>
    cases hsecond with
    | @map _ k _ cs hlength' hentries' =>
      refine (Equated.map i k (hlength.trans hlength') fun e he => ?_).equal
      obtain ⟨v, hv, hev⟩ := hentries e he
      have hvin := Entries.mem_of_find?_eq_some hv
      obtain ⟨w, hw, hvw⟩ := hentries' (e.1, v) hvin
      have hwin := Entries.mem_of_find?_eq_some hw
      exact ⟨w, hw, ih e.2 (List.mem_map_of_mem he) v w
        (hb.of_mem_parts _ (List.mem_map.2 ⟨_, hvin, rfl⟩))
        (hc.of_mem_parts _ (List.mem_map.2 ⟨_, hwin, rfl⟩)) hev hvw⟩
    | text hs _ => cases hs
    | host hk _ => cases hk
  | host hk hl => exact (Equated.host hk (hsecond.host? hl)).equal

end Value
end Stencil
