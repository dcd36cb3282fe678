import Mathlib.Data.List.Forall2
import Stencil.Proofs.Value.Order

/-!
# Lists of numbers in lexicographic order

Lists of integers and booleans are ordered like the lists of integers that they count as, where the
first items that do not tie decide, and the lengths if all of them tie (`lists_compare`). But the
deciding items are looked for by equality, and a boolean is not equal to the integer that it counts
as. If two such items are opposite each other before anything is decided (`Confused`), the rest of
the lists is not looked at, and the lists themselves tie.
-/
namespace Stencil.Value

/-- The items count as these integers, one by one. -/
def Count (items : List Value) (ns : List Int64) : Prop :=
  List.Forall₂ (fun v n => v.integer? = some n) items ns

/-- The lexicographic order of two lists of integers. -/
def lexicographic (ms ns : List Int64) : Ordering := List.compareLex (compareOn Int64.toInt) ms ns

/-- At some position the items tie and are not equal, and all items before them tie too. -/
def Confused (xs ys : List Value) : Prop :=
  ∃ (k : Nat) (x y : Value), xs[k]? = some x ∧ ys[k]? = some y ∧ x.integer? = y.integer? ∧
    equal x y = false ∧ ∀ l < k, xs[l]?.bind integer? = ys[l]?.bind integer?

section
variable {a b x y : Value} {m n : Int64} {xs ys : List Value} {ms ns : List Int64} {o : Ordering}

/-! ## Where equality and order part -/

theorem not_confused_nil_left : ¬ Confused [] ys := by
  rintro ⟨k, x, y, hx, -⟩
  simp at hx

theorem not_confused_nil_right : ¬ Confused xs [] := by
  rintro ⟨k, x, y, -, hy, -⟩
  simp at hy

/-- The first items tie, and they are not equal or the rest is confused. -/
theorem confused_cons : Confused (x :: xs) (y :: ys) ↔
    x.integer? = y.integer? ∧ (equal x y = false ∨ Confused xs ys) := by
  constructor
  · rintro ⟨k, v, w, hv, hw, htie, hne, hbefore⟩
    cases k with
    | zero =>
      obtain rfl := Option.some.inj hv
      obtain rfl := Option.some.inj hw
      exact ⟨htie, .inl hne⟩
    | succ k =>
      refine ⟨hbefore 0 (Nat.zero_lt_succ k), .inr ⟨k, v, w, hv, hw, htie, hne, fun l hl => ?_⟩⟩
      exact hbefore (l + 1) (Nat.succ_lt_succ hl)
  · rintro ⟨htie, hne | ⟨k, v, w, hv, hw, htie', hne, hbefore⟩⟩
    · exact ⟨0, x, y, rfl, rfl, htie, hne, nofun⟩
    · refine ⟨k + 1, v, w, hv, hw, htie', hne, fun l hl => ?_⟩
      cases l with
      | zero => exact htie
      | succ l => exact hbefore l (Nat.lt_of_succ_lt_succ hl)

theorem equal_integers_comm (hx : x.integer? = some m) (hy : y.integer? = some n) :
    equal y x = equal x y := by
  cases x <;> cases hx <;> cases y <;> cases hy <;> simp [equal, Bool.beq_comm]

/-- Equal integers and booleans count alike. -/
theorem eq_of_equal_integers (hx : x.integer? = some m) (hy : y.integer? = some n)
    (h : equal x y = true) : m = n := by
  cases x <;> cases hx <;> cases y <;> cases hy <;> simp_all [equal]

theorem Count.exists_integer (h : Count xs ms) (hx : x ∈ xs) : ∃ m, x.integer? = some m := by
  induction h with
  | nil => cases hx
  | cons hm _ ih =>
    rcases List.mem_cons.1 hx with rfl | hx
    · exact ⟨_, hm⟩
    · exact ih hx

theorem confused_comm (hx : Count xs ms) (hy : Count ys ns) (h : Confused xs ys) :
    Confused ys xs := by
  obtain ⟨k, x, y, hkx, hky, htie, hne, hbefore⟩ := h
  obtain ⟨m, hm⟩ := hx.exists_integer (List.mem_of_getElem? hkx)
  obtain ⟨n, hn⟩ := hy.exists_integer (List.mem_of_getElem? hky)
  refine ⟨k, y, x, hky, hkx, htie.symm, ?_, fun l hl => (hbefore l hl).symm⟩
  rw [equal_integers_comm hm hn, hne]

/-! ## Comparison by order -/

theorem compare_of_order {op : CompareOp} (hop : op ∈ [.lt, .le, .gt, .ge])
    (h : order op a b = .ok (some o)) : compare op a b = .ok (accepts op o) := by
  rw [compare_eq_map hop, h]
  rfl

theorem order_integers (op : CompareOp) (hx : x.integer? = some m) (hy : y.integer? = some n) :
    order op x y = .ok (some (compareOn Int64.toInt m n)) := by
  unfold order
  rw [number_of_integer? hx, number_of_integer? hy]
  rfl

/-! ## Lists -/

/-- Lists of numbers have their lexicographic order, or they are confused and tie. -/
theorem orderItems_count (op : CompareOp) (hx : Count xs ms) (hy : Count ys ns) :
    ∃ o, orderItems op xs ys = .ok (some o) ∧ (Confused xs ys → o = .eq) ∧
      (¬ Confused xs ys → o = lexicographic ms ns) := by
  induction hx generalizing ys ns with
  | nil =>
    cases hy with
    | nil => exact ⟨.eq, rfl, fun _ => rfl, fun _ => rfl⟩
    | cons => exact ⟨.lt, rfl, fun h => absurd h not_confused_nil_left, fun _ => rfl⟩
  | @cons x m xs ms hm hms ih =>
    cases hy with
    | nil => exact ⟨.gt, rfl, fun h => absurd h not_confused_nil_right, fun _ => rfl⟩
    | @cons y n ys ns hn hns =>
      rw [orderItems, confused_cons, lexicographic, List.compareLex_cons_cons, hm, hn]
      by_cases hequal : equal x y = true
      · obtain rfl := eq_of_equal_integers hm hn hequal
        obtain ⟨o, ho, htie, hlex⟩ := ih hns
        refine ⟨o, by rw [if_pos hequal, ho], ?_, ?_⟩
        · simpa [hequal] using htie
        · simpa [hequal, compareOn, lexicographic] using hlex
      · -- the first items decide; they are confused if they tie
        refine ⟨_, by rw [if_neg hequal, order_integers op hm hn], ?_, ?_⟩
        · rintro ⟨htie, -⟩
          obtain rfl := Option.some.inj htie
          simp [compareOn]
        · intro hclear
          have hne : m.toInt ≠ n.toInt := fun h => hclear ⟨congrArg some (Int64.toInt_inj.1 h),
            .inl (by simpa using hequal)⟩
          have hdecided : compareOn Int64.toInt m n ≠ .eq := fun h => hne (Int.compare_eq_eq.1 h)
          cases h : compareOn Int64.toInt m n with
          | eq => exact absurd h hdecided
          | lt | gt => rfl

theorem length_of_lexicographic : ∀ {ms ns : List Int64}, lexicographic ms ns = .eq →
    ms.length = ns.length
  | [], [], _ => rfl
  | [], _ :: _, h | _ :: _, [], h => by cases h
  | m :: ms, n :: ns, h => by
    rw [lexicographic, List.compareLex_cons_cons, Ordering.then_eq_eq] at h
    exact congrArg (· + 1) (length_of_lexicographic h.2)

/-- Each at most the other, so they tie. -/
theorem eq_of_accepts_le (hle : accepts .le (lexicographic ms ns) = true)
    (hge : accepts .le (lexicographic ns ms) = true) : lexicographic ms ns = .eq := by
  have hswap : lexicographic ns ms = (lexicographic ms ns).swap := by
    unfold lexicographic
    exact Std.OrientedCmp.eq_swap
  rw [hswap] at hge
  cases h : lexicographic ms ns <;> simp_all [accepts]

theorem order_lists (op : CompareOp) (i j : Identity) :
    order op (.list i xs) (.list j ys) = orderItems op xs ys := by
  unfold order
  rfl

theorem compare_of_not_confused {op : CompareOp} (hop : op ∈ [.lt, .le, .gt, .ge])
    (hx : Count xs ms) (hy : Count ys ns) (h : ¬ Confused xs ys) (i j : Identity) :
    compare op (.list i xs) (.list j ys) = .ok (accepts op (lexicographic ms ns)) := by
  obtain ⟨o, ho, -, hlex⟩ := orderItems_count op hx hy
  rw [← hlex h]
  exact compare_of_order hop (by rw [order_lists, ho])

theorem compare_of_confused {op : CompareOp} (hop : op ∈ [.lt, .le, .gt, .ge])
    (hx : Count xs ms) (hy : Count ys ns) (h : Confused xs ys) (i j : Identity) :
    compare op (.list i xs) (.list j ys) = .ok (accepts op .eq) := by
  obtain ⟨o, ho, htie, -⟩ := orderItems_count op hx hy
  rw [← htie h]
  exact compare_of_order hop (by rw [order_lists, ho])

/-- Lists that are not confused have one length if each is at most the other. -/
theorem length_of_le_of_le (hx : Count xs ms) (hy : Count ys ns) (h : ¬ Confused xs ys)
    {i j : Identity} (hle : Holds .le (.list i xs) (.list j ys))
    (hge : Holds .le (.list j ys) (.list i xs)) : xs.length = ys.length := by
  have hback : ¬ Confused ys xs := fun hconfused => h (confused_comm hy hx hconfused)
  rw [Holds, compare_of_not_confused (by simp) hx hy h, Except.ok.injEq] at hle
  rw [Holds, compare_of_not_confused (by simp) hy hx hback, Except.ok.injEq] at hge
  rw [hx.length_eq, hy.length_eq]
  exact length_of_lexicographic (eq_of_accepts_le hle hge)

/-- **Lists of numbers are ordered lexicographically, unless they are confused.** Then they tie. -/
theorem lists_compare (hx : Count xs ms) (hy : Count ys ns) (i j : Identity) :
    (¬ Confused xs ys → (∀ op ∈ [CompareOp.lt, .le, .gt, .ge],
        compare op (.list i xs) (.list j ys) = .ok (accepts op (lexicographic ms ns))) ∧
      (Holds .le (.list i xs) (.list j ys) → Holds .le (.list j ys) (.list i xs) →
        xs.length = ys.length)) ∧
    (Confused xs ys → ∀ op ∈ [CompareOp.lt, .le, .gt, .ge],
      compare op (.list i xs) (.list j ys) = .ok (accepts op .eq)) ∧
    (∀ op ∈ [CompareOp.lt, .le, .gt, .ge], ∀ {x y : Value} {m n : Int64},
      x.integer? = some m → y.integer? = some n →
      compare op x y = .ok (accepts op (compareOn Int64.toInt m n))) := by
  refine ⟨fun hclear => ⟨fun op hop => ?_, length_of_le_of_le hx hy hclear⟩,
    fun hconfused op hop => ?_, fun op hop x y m n hm hn => ?_⟩
  · exact compare_of_not_confused hop hx hy hclear i j
  · exact compare_of_confused hop hx hy hconfused i j
  · exact compare_of_order hop (order_integers op hm hn)

end

/-- A list is less than a longer one that begins with it, booleans included; but it ties with every
list in which the integer takes the place of its first boolean. -/
theorem lists_compare_prefix :
    Count [.bool true, .int 2] [1, 2] ∧ Count [.bool true, .int 2, .bool false] [1, 2, 0] ∧
      Count [.int 1, .int 3] [1, 3] ∧
      compare .lt (.list (.given 0) [.bool true, .int 2])
        (.list (.given 1) [.bool true, .int 2, .bool false]) = .ok true ∧
      compare .ge (.list (.given 0) [.bool true, .int 2]) (.list (.given 2) [.int 1, .int 3]) =
        .ok true := by
  have hx : Count [.bool true, .int 2] [1, 2] := by simp [Count, integer?]
  have hy : Count [.bool true, .int 2, .bool false] [1, 2, 0] := by simp [Count, integer?]
  have hz : Count [.int 1, .int 3] [1, 3] := by simp [Count, integer?]
  have hclear : ¬ Confused [.bool true, .int 2] [.bool true, .int 2, .bool false] := by
    simp [confused_cons, not_confused_nil_left, equal]
  have hconfused : Confused [.bool true, .int 2] [.int 1, .int 3] := by
    simp [confused_cons, integer?, equal]
  exact ⟨hx, hy, hz, ((lists_compare hx hy _ _).1 hclear).1 .lt (by simp),
    (lists_compare hx hz _ _).2.1 hconfused .ge (by simp)⟩

/-- `true` ties with 1, so the longer list is the greater one; but it is not. -/
theorem not_lexicographic_tied :
    Count [.bool true] [1] ∧ Count [.int 1, .int 2] [1, 2] ∧ lexicographic [1] [1, 2] = .lt ∧
      compare .lt (.list (.given 0) [.bool true]) (.list (.given 1) [.int 1, .int 2]) = .ok false ∧
      Holds .le (.list (.given 0) [.bool true]) (.list (.given 1) [.int 1, .int 2]) ∧
      Holds .le (.list (.given 1) [.int 1, .int 2]) (.list (.given 0) [.bool true]) := by
  refine ⟨by simp [Count, integer?], by simp [Count, integer?], ?_, rfl, rfl, rfl⟩
  decide

end Stencil.Value
