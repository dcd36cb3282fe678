import Mathlib.Algebra.Group.Int.Defs
import Stencil.Value.Arithmetic

/-!
# Integer arithmetic

Sum, difference and product of integers are exact, or the operation reports an overflow (`Exact`).
The remainder is the one of a quotient rounded down (`Floored`): it is taken of a quotient rounded
towards zero and then moved to the divisor's sign (`floored_tmod`). It always fits, as it is smaller
than the divisor; but the smallest integer has no remainder by -1, since the quotient would overflow.
-/
namespace Stencil.Value

/-- The integer that a value counts as: a boolean counts as 0 or 1. -/
def integer? : Value → Option Int64
  | .int n => some n
  | .bool b => some (if b then 1 else 0)
  | _ => Option.none

/-- The integer has 64 bits with a sign. -/
def Fits (n : Int) : Prop := -2 ^ 63 ≤ n ∧ n < 2 ^ 63

instance (n : Int) : Decidable (Fits n) := inferInstanceAs (Decidable (_ ∧ _))

/-- The result is the integer `n`, or an overflow of the operator if `n` does not fit. -/
structure Exact (op : ArithOp) (n : Int) (result : Except OperatorFault Value) : Prop where
  fits : Fits n → ∃ m : Int64, m.toInt = n ∧ result = .ok (.int m)
  overflows : ¬ Fits n → result = .error (.arithmetic (.overflow op))

/-- What is left of `x` when a multiple of `y` is taken away, with the sign of `y`. -/
structure Floored (x y r : Int) : Prop where
  quotient : ∃ q, x = q * y + r
  small : r.natAbs < y.natAbs
  sign : r ≠ 0 → (r < 0 ↔ y < 0)

section
variable {l r : Value} {x y : Int64}

theorem number_of_integer? (h : l.integer? = some x) : Number.of? l = some (.int x) := by
  cases l <;> cases h <;> rfl

/-- Integers are computed with as numbers. -/
theorem arithmetic_integers (hl : l.integer? = some x) (hr : r.integer? = some y)
    (identity : Identity) (op : ArithOp) :
    arithmetic identity op l r = numeric op (.int x) (.int y) := by
  unfold arithmetic
  rw [number_of_integer? hl, number_of_integer? hr]

/-! ## Sum, difference and product -/

theorem checked_of_fits {n : Int} (h : Fits n) : checked n = some (Int64.ofInt n) := by
  rw [checked, Int64.toInt_minValue, Int64.toInt_maxValue, if_pos ⟨h.1, by have := h.2; omega⟩]

theorem checked_of_not_fits {n : Int} (h : ¬ Fits n) : checked n = Option.none := by
  rw [checked, Int64.toInt_minValue, Int64.toInt_maxValue, if_neg fun hn => h ⟨hn.1, by omega⟩]

theorem toInt_ofInt_of_fits {n : Int} (h : Fits n) : (Int64.ofInt n).toInt = n :=
  Int64.toInt_ofInt_of_le h.1 h.2

/-- A checked integer is exact. -/
theorem exact_exactly (op : ArithOp) (n : Int) : Exact op n (exactly op n) where
  fits h := ⟨.ofInt n, toInt_ofInt_of_fits h, by rw [exactly, checked_of_fits h]⟩
  overflows h := by rw [exactly, checked_of_not_fits h]

/-! ## Remainder -/

/-- The remainder towards zero, moved to the sign of the divisor. -/
theorem floored_tmod {x y : Int} (hy : y ≠ 0) :
    Floored x y (if x.tmod y ≠ 0 ∧ (decide (x.tmod y < 0) != decide (y < 0)) then x.tmod y + y
      else x.tmod y) := by
  have hquotient : x = x.tdiv y * y + x.tmod y := by
    rw [Int.mul_comm, Int.mul_tdiv_add_tmod]
  have hsmall : (x.tmod y).natAbs < y.natAbs := by
    rw [Int.natAbs_tmod]
    exact Nat.mod_lt _ (Int.natAbs_pos.2 hy)
  split
  · rename_i hmoved
    obtain ⟨hzero, hsign⟩ := hmoved
    simp only [bne_iff_ne, ne_eq, decide_eq_decide] at hsign
    refine ⟨⟨x.tdiv y - 1, ?_⟩, by omega, fun _ => by omega⟩
    rw [Int.sub_mul]
    omega
  · rename_i hkept
    refine ⟨⟨_, hquotient⟩, hsmall, fun hzero => ?_⟩
    simpa [hzero] using hkept

/-- What is smaller than an integer of 64 bits fits. -/
theorem Floored.fits {x r : Int} (h : Floored x y.toInt r) : Fits r := by
  have hsmall := h.small
  have hlow := y.le_toInt
  have hhigh := y.toInt_lt
  exact ⟨by omega, by omega⟩

theorem numeric_mod (hy : y ≠ 0) (hquotient : ¬ (x = Int64.minValue ∧ y = -1)) :
    ∃ m : Int64, numeric .mod (.int x) (.int y) = .ok (.int m) ∧
      Floored x.toInt y.toInt m.toInt := by
  have hdivisor : y.toInt ≠ 0 := fun h => hy (Int64.toInt_inj.1 (by simpa using h))
  have hfloored := floored_tmod (x := x.toInt) hdivisor
  refine ⟨_, by rw [numeric, if_neg hy, if_neg hquotient], ?_⟩
  rw [toInt_ofInt_of_fits hfloored.fits]
  exact hfloored

/-- **Integer arithmetic is exact or reported.** -/
theorem integers_exact (hl : l.integer? = some x) (hr : r.integer? = some y)
    (identity : Identity) :
    Exact .add (x.toInt + y.toInt) (arithmetic identity .add l r) ∧
    Exact .sub (x.toInt - y.toInt) (arithmetic identity .sub l r) ∧
    Exact .mul (x.toInt * y.toInt) (arithmetic identity .mul l r) ∧
    (y = 0 → arithmetic identity .mod l r = .error (.arithmetic .moduloByZero)) ∧
    (x = Int64.minValue ∧ y = -1 →
      arithmetic identity .mod l r = .error (.arithmetic (.overflow .mod))) ∧
    (y ≠ 0 → ¬ (x = Int64.minValue ∧ y = -1) →
      ∃ m : Int64, arithmetic identity .mod l r = .ok (.int m) ∧
        Floored x.toInt y.toInt m.toInt) := by
  have hnumeric := arithmetic_integers hl hr identity
  simp only [hnumeric]
  refine ⟨exact_exactly _ _, exact_exactly _ _, exact_exactly _ _, ?_, ?_, numeric_mod⟩
  · rintro rfl
    rfl
  · rintro ⟨rfl, rfl⟩
    rfl

end

/-- The smallest integer and `true`: the sum is exact, the difference overflows, and the remainder
is zero. -/
theorem integers_exact_smallest :
    integer? (.int Int64.minValue) = some Int64.minValue ∧ integer? (.bool true) = some 1 ∧
      (∃ m : Int64, m.toInt = -2 ^ 63 + 1 ∧
        arithmetic (.made 0) .add (.int Int64.minValue) (.bool true) = .ok (.int m)) ∧
      arithmetic (.made 0) .sub (.int Int64.minValue) (.bool true) =
        .error (.arithmetic (.overflow .sub)) ∧
      ∃ m : Int64,
        arithmetic (.made 0) .mod (.int Int64.minValue) (.bool true) = .ok (.int m) ∧
          Floored (-2 ^ 63) 1 m.toInt := by
  obtain ⟨hadd, hsub, -, -, -, hmod⟩ := integers_exact (l := .int Int64.minValue)
    (r := .bool true) rfl rfl (.made 0)
  exact ⟨rfl, rfl, hadd.fits (by decide), hsub.overflows (by decide), hmod (by decide) (by decide)⟩

/-- By -1 the smallest integer has a remainder, which is zero, but no result. -/
theorem not_floored_smallest : (-1 : Int64) ≠ 0 ∧ Floored Int64.minValue.toInt (-1) 0 ∧
    ¬ ∃ m : Int64, arithmetic (.made 0) .mod (.int Int64.minValue) (.int (-1)) = .ok (.int m) := by
  refine ⟨by decide, ⟨⟨2 ^ 63, rfl⟩, by decide, by simp⟩, ?_⟩
  rintro ⟨m, hm⟩
  cases hm

end Stencil.Value
