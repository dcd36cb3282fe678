import Mathlib.Data.List.Infix
import Stencil.Proofs.Value.Order

/-!
# The views of a collection

Iteration lists the elements of a value. Its length, its truth, its subscripts and what is in it are
found out apart from that, each in its own way, but all speak of the same elements (`views_agree`).
-/
namespace Stencil.Value

/-- The value is text or a list, whose elements have positions. -/
def isSequence : Value → Bool
  | .str _ | .safe _ | .list _ _ => true
  | _ => false

/-- The value is a map. -/
def isMap : Value → Bool
  | .map _ _ => true
  | _ => false

/-- The index, with the length added if it is negative. -/
def wrapIndex (length : Nat) (index : Int64) : Int :=
  if index.toInt < 0 then length + index.toInt else index.toInt

/-- What the other views of a value say of its elements. -/
structure Views (v : Value) (es : List Value) : Prop where
  truth : v.isSequence ∨ v.isMap → (v.isTruthy = true ↔ 0 < es.length)
  /-- An index within the length, counted from either end, finds the element at its position. -/
  inside : v.isSequence → ∀ i : Int64, -es.length ≤ i.toInt → i.toInt < es.length →
    ∃ (k : Nat) (e : Value), k = wrapIndex es.length i ∧ es[k]? = some e ∧
      subscript v (.int i) = .ok e
  outside : v.isSequence → ∀ i : Int64, ¬ (-es.length ≤ i.toInt ∧ i.toInt < es.length) →
    subscript v (.int i) = .error (.range v.kind i es.length)
  /-- Text apart, in which parts are looked for, a value contains what equals an element. -/
  member : v.asText? = Option.none → ∀ x, Answers .mem x v ∧
    (Holds .mem x v ↔ ∃ e ∈ es, Holds .eq e x)
  character : v.asText?.isSome → ∀ e ∈ es, Holds .mem e v
  key : v.isMap → ∀ k, k.asText?.isSome → ((∃ w, subscript v k = .ok w) ↔ Holds .mem k v)

section
variable {v x : Value} {es : List Value} {i : Int64} {n : Nat}

/-! ## Length and truth -/

theorem length_eq (v : Value) : v.length? = v.elements?.map List.length := by
  cases v <;> simp [length?, elements?, String.length_toList]

theorem isTruthy_iff (h : v.elements? = some es) (hv : v.isSequence ∨ v.isMap) :
    v.isTruthy = true ↔ 0 < es.length := by
  cases v with
  | str s | safe s =>
    obtain rfl := Option.some.inj h
    rw [List.length_map, String.length_toList, Nat.pos_iff_ne_zero, Ne, String.length_eq_zero_iff]
    simp [isTruthy]
  | list i items =>
    obtain rfl := Option.some.inj h
    simp [isTruthy, List.length_pos_iff]
  | map i entries =>
    obtain rfl := Option.some.inj h
    simp [isTruthy, List.length_pos_iff]
  | _ => simp [isSequence, isMap] at hv

/-! ## Subscripts -/

theorem subscript_sequence (h : v.elements? = some es) (hv : v.isSequence) (i : Int64) :
    subscript v (.int i) = elementAt v.kind es i := by
  cases v <;> cases hv <;> obtain rfl := Option.some.inj h <;> rfl

theorem position?_of_inside (hlow : -n ≤ i.toInt) (hhigh : i.toInt < n) :
    ∃ k < n, position? i n = some k ∧ k = wrapIndex n i := by
  have hbounds : 0 ≤ wrapIndex n i ∧ wrapIndex n i < n := by
    unfold wrapIndex
    split <;> omega
  have hposition : (if i.toInt < 0 then i.toInt + n else i.toInt) = wrapIndex n i := by
    rw [wrapIndex, Int.add_comm]
  refine ⟨(wrapIndex n i).toNat, by omega, ?_, Int.toNat_of_nonneg hbounds.1⟩
  simp only [position?, hposition]
  rw [if_pos hbounds]

theorem position?_of_outside (h : ¬ (-n ≤ i.toInt ∧ i.toInt < n)) :
    position? i n = Option.none := by
  refine if_neg fun hbounds => h ?_
  split at hbounds <;> omega

theorem elementAt_inside (kind : String) (hlow : -es.length ≤ i.toInt)
    (hhigh : i.toInt < es.length) : ∃ (k : Nat) (e : Value), k = wrapIndex es.length i ∧
      es[k]? = some e ∧ elementAt kind es i = .ok e := by
  obtain ⟨k, hk, hposition, hend⟩ := position?_of_inside hlow hhigh
  have hget : es[k]? = some es[k] := List.getElem?_eq_getElem hk
  refine ⟨k, es[k], hend, hget, ?_⟩
  rw [elementAt, hposition, Option.bind_some, hget]

theorem elementAt_outside (kind : String) (h : ¬ (-es.length ≤ i.toInt ∧ i.toInt < es.length)) :
    elementAt kind es i = .error (.range kind i es.length) := by
  rw [elementAt, position?_of_outside h]
  rfl

/-! ## What a value contains -/

/-- A text occurs within another if it is an infix of it. -/
theorem occursIn_iff (needle : List Char) : ∀ cs : List Char,
    occursIn needle cs = true ↔ needle <:+: cs
  | [] => by simp [occursIn]
  | c :: cs => by
    rw [occursIn, Bool.or_eq_true, List.isPrefixOf_iff_prefix, occursIn_iff needle cs,
      List.infix_cons_iff]

theorem holds_mem_iff {b : Bool} (h : contains v x = .ok b) : Holds .mem x v ↔ b = true := by
  rw [Holds, compare, h, Except.ok.injEq]

theorem equal_str_iff {s : String} : equal (.str s) x = true ↔ x.asText? = some s := by
  cases x with
  | str t | safe t =>
    rw [equal, beq_iff_eq, asText?, Option.some.injEq]
    exact eq_comm
  | _ => simp [equal, asText?]

theorem contains_map (i : Identity) (entries : List (String × Value)) (x : Value) :
    contains (.map i entries) x = .ok ((entries.map fun e => .str e.1).any (equal · x)) := by
  have hequal : ∀ key : String, equal (.str key) x = (some key == x.asText?) := fun key => by
    rw [Bool.eq_iff_iff, equal_str_iff, beq_iff_eq]
    exact eq_comm
  simp only [List.any_map, Function.comp_def, hequal]
  cases htext : x.asText? with
  | none => simp [contains, htext]
  | some s =>
    rw [contains, htext, Except.ok.injEq, Bool.eq_iff_iff, Entries.has_iff]
    simp

/-- What is in a value that is no text equals one of its elements. -/
theorem contains_of_elements (h : v.elements? = some es) (hv : v.asText? = Option.none)
    (x : Value) : contains v x = .ok (es.any (equal · x)) := by
  cases v with
  | str | safe => cases hv
  | map i entries =>
    obtain rfl := Option.some.inj h
    exact contains_map i entries x
  | list i items =>
    obtain rfl := Option.some.inj h
    rfl
  | object _ _ _ _ _ elements =>
    obtain rfl : elements = some es := h
    rfl
  | _ => cases h

theorem member_iff (h : v.elements? = some es) (hv : v.asText? = Option.none) (x : Value) :
    Answers .mem x v ∧ (Holds .mem x v ↔ ∃ e ∈ es, Holds .eq e x) := by
  have hcontains := contains_of_elements h hv x
  refine ⟨⟨_, hcontains⟩, ?_⟩
  rw [holds_mem_iff hcontains, List.any_eq_true]
  simp [Holds, compare]

theorem holds_mem_character (h : v.elements? = some es) (hv : v.asText?.isSome) :
    ∀ e ∈ es, Holds .mem e v := by
  obtain ⟨s, hs⟩ := Option.isSome_iff_exists.1 hv
  have hes : es = s.toList.map ofChar := by
    rcases asText?_eq_some_iff.1 hs with rfl | rfl <;> exact (Option.some.inj h).symm
  subst hes
  intro e he
  obtain ⟨c, hc, rfl⟩ := List.mem_map.1 he
  have hcontains : contains v (ofChar c) = .ok (occursIn [c] s.toList) := by
    rcases asText?_eq_some_iff.1 hs with rfl | rfl <;> simp [contains, ofChar, asText?]
  rw [holds_mem_iff hcontains, occursIn_iff]
  obtain ⟨before, after, hsplit⟩ := List.append_of_mem hc
  exact ⟨before, after, by rw [hsplit, List.append_assoc, List.singleton_append]⟩

/-- A map has an item for what is in it. -/
theorem subscript_map_iff {k : Value} (hv : v.isMap) (hk : k.asText?.isSome) :
    (∃ w, subscript v k = .ok w) ↔ Holds .mem k v := by
  cases v with
  | map i entries =>
    obtain ⟨s, hs⟩ := Option.isSome_iff_exists.1 hk
    have hcontains : contains (.map i entries) k = .ok (Entries.has s entries) := by
      rw [contains, hs]
    rw [holds_mem_iff hcontains, Entries.has, subscript, hs, Option.bind_some]
    cases Entries.find? s entries <;> simp
  | _ => cases hv

/-- **The views of a value agree on its elements.** -/
theorem views_agree (v : Value) :
    (∀ n, v.length? = some n ↔ ∃ es, v.elements? = some es ∧ es.length = n) ∧
    ∀ es, v.elements? = some es → Views v es := by
  refine ⟨fun n => by rw [length_eq, Option.map_eq_some_iff], fun es h => ?_⟩
  exact {
    truth := isTruthy_iff h
    inside := fun hv i hlow hhigh => by
      rw [subscript_sequence h hv]
      exact elementAt_inside v.kind hlow hhigh
    outside := fun hv i hout => by
      rw [subscript_sequence h hv]
      exact elementAt_outside v.kind hout
    member := member_iff h
    character := holds_mem_character h
    key := fun hv k => subscript_map_iff hv
  }

end

/-- Markup of two characters and three bytes: there is no third element, and each is in the text. -/
theorem views_agree_accented :
    elements? (.safe "hé") = some [.str "h", .str "é"] ∧
      Views (.safe "hé") [.str "h", .str "é"] ∧
      subscript (.safe "hé") (.int 2) = .error (.range "safe string" 2 2) ∧
      Holds .mem (.str "é") (.safe "hé") := by
  have h : elements? (.safe "hé") = some [.str "h", .str "é"] := by
    rfl
  have hviews := (views_agree (.safe "hé")).2 _ h
  exact ⟨h, hviews, hviews.outside rfl 2 (by decide), hviews.character rfl _ (by simp)⟩

end Stencil.Value
