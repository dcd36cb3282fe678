import Stencil.Library
import Stencil.Proofs.Text.Markup
import Stencil.Value.Arithmetic

/-!
# Inert values

A value is inert when it holds nothing to call and its safe strings are clean, at any depth. Inert
values escape to clean text (`clean_escaped`), and no operation on them makes anything else: not
taking elements, attributes or subscripts, not arithmetic, and no built-in filter but `safe`.
-/
namespace Stencil.Value

/-- Nothing to call and no object, and no markup character in a safe string, at any depth. -/
inductive Inert : Value → Prop
  | none : Inert .none
  | bool (b : Bool) : Inert (.bool b)
  | int (n : Int64) : Inert (.int n)
  | float (x : Float) : Inert (.float x)
  | str (s : String) : Inert (.str s)
  | safe {s : String} : Text.Clean s.toList → Inert (.safe s)
  | list (identity : Identity) {items : List Value} : (∀ v ∈ items, Inert v) →
      Inert (.list identity items)
  | map (identity : Identity) {entries : List (String × Value)} : (∀ e ∈ entries, Inert e.2) →
      Inert (.map identity entries)

/-- **An inert value escapes to clean text.** -/
theorem clean_escaped {v : Value} (h : Inert v) : Text.Clean v.escaped.toList := by
  have he : ∀ s : String, Text.Clean (Text.escapeString s).toList := by
    intro s
    simpa [Text.escapeString] using Text.clean_escape s.toList
  cases h with
  | safe hs => exact hs
  | _ => exact he _

/-! ## Access -/

theorem inert_of_find? {entries : List (String × Value)} (h : ∀ e ∈ entries, Inert e.2)
    {name : String} {v : Value} (hf : Entries.find? name entries = some v) : Inert v :=
  h _ (Entries.mem_of_find?_eq_some hf)

theorem inert_ofChar (c : Char) : Inert (ofChar c) := .str _

theorem inert_elements {v : Value} (h : Inert v) {items : List Value}
    (he : v.elements? = some items) : ∀ i ∈ items, Inert i := by
  cases h with
  | list _ hi =>
    obtain rfl := Option.some.inj he
    exact hi
  | map _ _ =>
    obtain rfl := Option.some.inj he
    intro i hi
    obtain ⟨e, -, rfl⟩ := List.mem_map.1 hi
    exact .str _
  | str _ | safe _ =>
    obtain rfl := Option.some.inj he
    intro i hi
    obtain ⟨c, -, rfl⟩ := List.mem_map.1 hi
    exact inert_ofChar c
  | _ => simp [elements?] at he

theorem inert_attribute {v a : Value} {name : String} (h : Inert v)
    (ha : v.attribute? name = some a) : Inert a := by
  cases h with
  | map _ he => exact inert_of_find? he ha
  | _ => simp [attribute?] at ha

theorem inert_elementAt {kind : String} {items : List Value} {index : Int64} {v : Value}
    (h : ∀ i ∈ items, Inert i) (he : elementAt kind items index = .ok v) : Inert v := by
  unfold elementAt at he
  split at he
  · rename_i w hw
    obtain rfl := Except.ok.inj he
    obtain ⟨n, -, hn⟩ := Option.bind_eq_some_iff.1 hw
    exact h _ (List.mem_of_getElem? hn)
  · simp at he

theorem inert_subscript {b k v : Value} (h : Inert b) (hs : b.subscript k = .ok v) : Inert v := by
  cases h with
  | list _ hi =>
    simp only [subscript] at hs
    split at hs
    · exact inert_elementAt hi hs
    · simp at hs
  | str _ | safe _ =>
    simp only [subscript] at hs
    split at hs
    · refine inert_elementAt (fun i hi => ?_) hs
      obtain ⟨c, -, rfl⟩ := List.mem_map.1 hi
      exact inert_ofChar c
    · simp at hs
  | map _ he =>
    simp only [subscript] at hs
    split at hs
    · rename_i w hw
      obtain rfl := Except.ok.inj hs
      obtain ⟨key, -, hf⟩ := Option.bind_eq_some_iff.1 hw
      exact inert_of_find? he hf
    · simp at hs
  | _ => simp [subscript] at hs

/-! ## Operators -/

theorem inert_exactly {op : ArithOp} {n : Int} {v : Value} (h : exactly op n = .ok v) :
    Inert v := by
  unfold exactly at h
  split at h
  · obtain rfl := Except.ok.inj h
    exact .int _
  · simp at h

/-- Numbers make numbers. -/
theorem inert_numeric {op : ArithOp} {a b : Number} {v : Value} (h : numeric op a b = .ok v) :
    Inert v := by
  unfold numeric at h
  split at h
  case h_1 =>
    split at h
    · simp at h
    · obtain rfl := Except.ok.inj h
      exact .float _
  case h_2 =>
    split at h
    · simp at h
    · split at h
      · simp at h
      · obtain rfl := Except.ok.inj h
        exact .int _
  case h_3 =>
    dsimp only at h
    split at h
    · simp at h
    · obtain rfl := Except.ok.inj h
      exact .float _
  case h_4 | h_5 | h_6 => exact inert_exactly h
  case h_7 | h_8 | h_9 =>
    obtain rfl := Except.ok.inj h
    exact .float _

theorem inert_timesText {s : String} {times left right v : Value}
    (h : timesText s times left right = .ok v) : Inert v := by
  unfold timesText at h
  split at h
  · cases hr : repeatCount s.utf8ByteSize _ <;> rw [hr] at h
    · simp [Except.map] at h
    · obtain rfl := Except.ok.inj h
      exact .str _
  · simp at h

theorem mem_repeatItems {items : List Value} {count : Nat} {v : Value}
    (h : v ∈ repeatItems items count) : v ∈ items := by
  unfold repeatItems at h
  split at h
  · simp at h
  · obtain ⟨l, hl, hv⟩ := List.mem_flatten.1 h
    obtain ⟨-, rfl⟩ := List.mem_replicate.1 hl
    exact hv

theorem inert_timesItems {identity : Identity} {items : List Value} {times left right v : Value}
    (hi : ∀ i ∈ items, Inert i) (h : timesItems identity items times left right = .ok v) :
    Inert v := by
  unfold timesItems at h
  split at h
  · cases hr : repeatCount items.length _ <;> rw [hr] at h
    · simp [Except.map] at h
    · obtain rfl := Except.ok.inj h
      exact .list _ fun i him => hi i (mem_repeatItems him)
  · simp at h

@[simp] theorem inert_list_iff {identity : Identity} {items : List Value} :
    Inert (.list identity items) ↔ ∀ i ∈ items, Inert i :=
  ⟨fun h => by cases h; assumption, .list identity⟩

/-- **Arithmetic makes inert values from inert ones.** A safe string among the operands comes out as
a plain one. -/
theorem inert_arithmetic {identity : Identity} {op : ArithOp} {l r v : Value} (hl : Inert l)
    (hr : Inert r) (h : arithmetic identity op l r = .ok v) : Inert v := by
  unfold arithmetic at h
  split at h
  · exact inert_numeric h
  split at h
  · split at h
    · obtain rfl := Except.ok.inj h
      exact .str _
    split at h
    · obtain rfl := Except.ok.inj h
      rw [inert_list_iff] at hl hr ⊢
      intro i hi
      exact (List.mem_append.1 hi).elim (hl i) (hr i)
    · simp at h
  · split at h
    · exact inert_timesText h
    · exact inert_timesText h
    split at h
    · exact inert_timesItems (inert_list_iff.1 hl) h
    · exact inert_timesItems (inert_list_iff.1 hr) h
    · simp at h
  · simp at h

/-! ## Filters -/

theorem inert_mapText {f : List Char → List Char}
    (hf : ∀ cs, Text.Clean cs → Text.Clean (f cs)) {v : Value} (h : Inert v) :
    Inert (Builtin.mapText f v) := by
  cases h with
  | safe hs => exact .safe (by simpa using hf _ hs)
  | _ => exact .str _

theorem inert_option? {name : String} {rest : List Value} {keywords : List (String × Value)}
    (hr : ∀ v ∈ rest, Inert v) (hk : ∀ e ∈ keywords, Inert e.2) {v : Value}
    (h : Builtin.option? name rest keywords = some v) : Inert v := by
  cases rest with
  | nil => exact inert_of_find? hk h
  | cons w rest =>
    obtain rfl := Option.some.inj h
    exact hr _ (by simp)

/-- **Every built-in filter but `safe` makes inert values from inert ones.** -/
theorem inert_apply {f : Builtin} (hf : f ≠ .safe) {args : List Value}
    {keywords : List (String × Value)} (ha : ∀ v ∈ args, Inert v)
    (hk : ∀ e ∈ keywords, Inert e.2) {v : Value} (h : f.apply args keywords = .ok v) :
    Inert v := by
  cases args with
  | nil => simp [Builtin.apply] at h
  | cons input rest =>
    obtain ⟨hi, hr⟩ := List.forall_mem_cons.1 ha
    cases f <;> simp only [Builtin.apply, Builtin.applyTo] at h
    case safe => exact absurd rfl hf
    case escape =>
      obtain rfl := Except.ok.inj h
      exact .safe (clean_escaped hi)
    case upper =>
      obtain rfl := Except.ok.inj h
      exact inert_mapText (fun _ => Text.clean_upper) hi
    case lower =>
      obtain rfl := Except.ok.inj h
      exact inert_mapText (fun _ => Text.clean_lower) hi
    case join =>
      split at h
      · obtain rfl := Except.ok.inj h
        exact .str _
      · simp at h
    case length =>
      split at h
      · obtain rfl := Except.ok.inj h
        unfold ofNat
        split
        · exact .int _
        · exact .float _
      · simp at h
    case default =>
      split at h
      · obtain rfl := Except.ok.inj h
        exact hi
      · obtain rfl := Except.ok.inj h
        cases ho : Builtin.option? "fallback" rest keywords with
        | none => exact .none
        | some w => exact inert_option? hr hk ho

end Stencil.Value
