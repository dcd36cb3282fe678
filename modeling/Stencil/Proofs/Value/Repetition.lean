import Mathlib.Algebra.Group.Nat.Defs
import Stencil.Proofs.Value.Integer

/-!
# Repetition

A string or a list times an integer is so many copies of it, one behind the other (`IsCopies`), and
no result is longer than the limit. The limit is one on the length of the result: it bounds the
number of copies where a copy adds something, but an empty sequence may be copied any number of
times (`not_bounded_empty`).
-/
namespace Stencil.Value

/-! ## Copies -/

section
variable {α : Type}

/-- What is there after so many passes, each of which puts the piece behind it. -/
def copied (piece : List α) : Nat → List α → List α
  | 0, out => out
  | passes + 1, out => copied piece passes (out ++ piece)

theorem copied_eq (piece : List α) : ∀ (passes : Nat) (out : List α),
    copied piece passes out = out ++ (List.replicate passes piece).flatten
  | 0, out => by simp [copied]
  | passes + 1, out => by
    rw [copied, copied_eq piece passes, List.replicate_succ, List.flatten_cons, List.append_assoc]

end

theorem toList_repeatText (s : String) (count : Nat) :
    (repeatText s count).toList = copied s.toList count [] := by
  rw [copied_eq, List.nil_append]
  fun_induction repeatText s count with
  | case1 => simp
  | case2 count _ half heven ih =>
    have hcount : count / 2 + count / 2 = count := by omega
    rw [String.toList_append, ih, ← List.flatten_append, List.replicate_append_replicate, hcount]
  | case3 count _ half hodd ih =>
    have hcount : count / 2 + count / 2 + 1 = count := by omega
    calc (half ++ half ++ s).toList
        = (List.replicate (count / 2 + count / 2) s.toList).flatten ++ s.toList := by
          rw [String.toList_append, String.toList_append, ih, ← List.flatten_append,
            List.replicate_append_replicate]
      _ = (List.replicate (count / 2 + count / 2 + 1) s.toList).flatten := by
          rw [List.replicate_succ', List.flatten_append, List.flatten_singleton]
      _ = (List.replicate count s.toList).flatten := by rw [hcount]

theorem utf8ByteSize_repeatText (s : String) (count : Nat) :
    (repeatText s count).utf8ByteSize = s.utf8ByteSize * count := by
  fun_induction repeatText s count with
  | case1 => simp
  | case2 count _ half heven ih =>
    have hcount : count / 2 + count / 2 = count := by omega
    rw [String.utf8ByteSize_append, ih, ← Nat.mul_add, hcount]
  | case3 count _ half hodd ih =>
    have hcount : count / 2 + count / 2 + 1 = count := by omega
    rw [String.utf8ByteSize_append, String.utf8ByteSize_append, ih, ← Nat.mul_add,
      ← Nat.mul_add_one, hcount]

/-! ## Sequences -/

/-- The length of a sequence: the bytes of a string or the items of a list. -/
def extent? : Value → Option Nat
  | .str s | .safe s => some s.utf8ByteSize
  | .list _ items => some items.length
  | _ => Option.none

/-- The value is what so many passes over the sequence leave. -/
def IsCopies (passes : Nat) : Value → Value → Prop
  | .str s, .str t | .safe s, .str t => t.toList = copied s.toList passes []
  | .list _ items, .list _ out => out = copied items passes []
  | _, _ => False

section
variable {v t left right : Value} {s : String} {items : List Value} {n : Nat} {k : Int64}

/-- A string and an integer, in either order. -/
theorem mul_text (hs : v.asText? = some s) (hk : t.integer? = some k)
    (ho : left = v ∧ right = t ∨ left = t ∧ right = v) (identity : Identity) :
    arithmetic identity .mul left right = (repeatCount s.utf8ByteSize k).map
      fun count => .str (if s.isEmpty then "" else repeatText s count) := by
  rcases ho with ⟨rfl, rfl⟩ | ⟨rfl, rfl⟩ <;> cases left <;> cases right <;> cases hs <;> cases hk <;>
    rfl

/-- A list and an integer, in either order. -/
theorem mul_items {i : Identity} (hv : v = .list i items) (hk : t.integer? = some k)
    (ho : left = v ∧ right = t ∨ left = t ∧ right = v) (identity : Identity) :
    arithmetic identity .mul left right = (repeatCount items.length k).map
      fun count => .list identity (repeatItems items count) := by
  subst hv
  rcases ho with ⟨rfl, rfl⟩ | ⟨rfl, rfl⟩
  · cases right <;> cases hk <;> rfl
  · cases left <;> cases hk <;> rfl

theorem repeatItems_eq (items : List Value) (count : Nat) :
    repeatItems items count = copied items count [] := by
  rw [copied_eq, List.nil_append, repeatItems]
  split
  · rename_i hempty
    simp [List.isEmpty_iff.1 hempty]
  · rfl

/-- The text of a repeated string, and its length. -/
theorem repeatText_or_empty (s : String) (count : Nat) :
    (if s.isEmpty then "" else repeatText s count).toList = copied s.toList count [] ∧
      (if s.isEmpty then "" else repeatText s count).utf8ByteSize = s.utf8ByteSize * count := by
  split
  · rename_i hempty
    obtain rfl : s = "" := by simpa using hempty
    simp [copied_eq]
  · exact ⟨toList_repeatText s count, utf8ByteSize_repeatText s count⟩

/-- A product with a sequence fails with its count, or copies the sequence so often. -/
theorem exists_copies (hv : v.extent? = some n) (hk : t.integer? = some k)
    (ho : left = v ∧ right = t ∨ left = t ∧ right = v) (identity : Identity) :
    ∃ f : Nat → Value, arithmetic identity .mul left right = (repeatCount n k).map f ∧
      ∀ count, IsCopies count v (f count) ∧ (f count).extent? = some (n * count) := by
  cases v with
  | str s | safe s =>
    obtain rfl := Option.some.inj hv
    refine ⟨_, mul_text rfl hk ho identity, fun count => ?_⟩
    obtain ⟨htext, hsize⟩ := repeatText_or_empty s count
    exact ⟨htext, congrArg some hsize⟩
  | list i items =>
    obtain rfl := Option.some.inj hv
    refine ⟨_, mul_items rfl hk ho identity, fun count => ⟨repeatItems_eq items count, ?_⟩⟩
    simp [extent?, repeatItems_eq, copied_eq, Nat.mul_comm]
  | _ => cases hv

/-- **A repetition copies the sequence, or its result would be too long.** A negative count copies it
zero times. Unless the sequence is empty, the number of copies is within the limit too. -/
theorem repeated (hv : v.extent? = some n) (hk : t.integer? = some k)
    (ho : left = v ∧ right = t ∨ left = t ∧ right = v) (identity : Identity) :
    (2 ^ 28 < n * k.toInt.toNat →
      arithmetic identity .mul left right = .error (.arithmetic .repeatCount)) ∧
    (n * k.toInt.toNat ≤ 2 ^ 28 → repeatCount n k = .ok k.toInt.toNat ∧
      (n ≠ 0 → k.toInt.toNat ≤ 2 ^ 28) ∧
      ∃ w, arithmetic identity .mul left right = .ok w ∧ IsCopies k.toInt.toNat v w ∧
        w.extent? = some (n * k.toInt.toNat)) ∧
    ArithmeticFault.repeatCount.message = "repeat count too large" := by
  obtain ⟨f, hproduct, hcopies⟩ := exists_copies hv hk ho identity
  have hlimit : repeatLimit = 2 ^ 28 := rfl
  refine ⟨fun hlong => ?_, fun hle => ?_, rfl⟩
  · rw [hproduct, repeatCount, if_neg (by omega)]
    rfl
  · have hcount : repeatCount n k = .ok k.toInt.toNat := by
      rw [repeatCount, if_pos (by omega)]
    refine ⟨hcount, fun hn => ?_, f k.toInt.toNat, by rw [hproduct, hcount]; rfl, hcopies _⟩
    exact Nat.le_trans (Nat.le_mul_of_pos_left _ (Nat.pos_of_ne_zero hn)) hle

end

/-- A letter of two bytes, copied once too often and copied three times. -/
theorem repeated_letter :
    extent? (.safe "é") = some 2 ∧ integer? (.int 134217729) = some 134217729 ∧
      arithmetic (.made 0) .mul (.int 134217729) (.safe "é") =
        .error (.arithmetic .repeatCount) ∧
      ∃ w, arithmetic (.made 0) .mul (.safe "é") (.int 3) = .ok w ∧ IsCopies 3 (.safe "é") w ∧
        w.extent? = some 6 := by
  have hv : extent? (.safe "é") = some 2 := rfl
  have hlong := repeated (t := .int 134217729) hv rfl (.inr ⟨rfl, rfl⟩) (.made 0)
  have hshort := repeated (t := .int 3) hv rfl (.inl ⟨rfl, rfl⟩) (.made 0)
  exact ⟨hv, rfl, hlong.1 (by decide), (hshort.2.1 (by decide)).2.2⟩

/-- An empty string and an empty list are repeated more often than the limit. -/
theorem not_bounded_empty : ∃ count, repeatCount 0 Int64.maxValue = .ok count ∧ 2 ^ 28 < count ∧
    arithmetic (.made 0) .mul (.str "") (.int Int64.maxValue) = .ok (.str "") ∧
    arithmetic (.made 0) .mul (.list (.given 0) []) (.int Int64.maxValue) =
      .ok (.list (.made 0) []) :=
  ⟨2 ^ 63 - 1, rfl, by decide, rfl, rfl⟩

end Stencil.Value
