import Mathlib.Data.String.Basic
import Stencil.Proofs.Value.Equality
import Stencil.Proofs.Value.Integer
import Stencil.Value.Comparison

/-!
# Order as a relation

Without floats the order of two values is one of three, or they have none (`rank`); the operator only
matters for the fault (`toOption_order`). Lists are compared at the first items that are not equal, so
the order goes well with equality: it is the same for equal values (`rank_congr`), equal values and no
others rank as equal (`rank_eq_iff`), it is turned round with its operands (`rank_swap`), and it is
transitive (`rank_trans`). Each goes by the parts of a value, with a case for integers, for texts and
for lists (`Ranked`).
-/
namespace Stencil.Value

mutual

/-- The order of two values without floats, if they have one. -/
def rank (a b : Value) : Option Ordering :=
  match a.integer?, b.integer? with
  | some m, some n => some (Ord.compare m.toInt n.toInt)
  | _, _ =>
    match a, b with
    | .str s, .str t | .str s, .safe t | .safe s, .str t | .safe s, .safe t =>
      some (orderTexts s t)
    | .list _ xs, .list _ ys => rankItems xs ys
    | _, _ => Option.none

/-- The order of two lists, if they have one. -/
def rankItems : List Value → List Value → Option Ordering
  | [], [] => some .eq
  | [], _ :: _ => some .lt
  | _ :: _, [] => some .gt
  | x :: xs, y :: ys => if equal x y then rankItems xs ys else rank x y

end

/-- The ways in which two values have an order. -/
inductive Ranked : Value → Value → Ordering → Prop
  | integer {a b : Value} {m n : Int64} : a.integer? = some m → b.integer? = some n →
      Ranked a b (Ord.compare m.toInt n.toInt)
  | text {a b : Value} {s t : String} : a.asText? = some s → b.asText? = some t →
      Ranked a b (orderTexts s t)
  | list (i j : Identity) {xs ys : List Value} {o : Ordering} : rankItems xs ys = some o →
      Ranked (.list i xs) (.list j ys) o

variable {a b c : Value} {o : Ordering} {xs ys zs : List Value}

theorem Ranked.rank_eq (h : Ranked a b o) : rank a b = some o := by
  cases h with
  | integer ha hb =>
    unfold rank
    rw [ha, hb]
  | text ha hb =>
    rcases asText?_eq_some_iff.1 ha with rfl | rfl <;>
      rcases asText?_eq_some_iff.1 hb with rfl | rfl <;> simp [rank, integer?]
  | list i j hitems => simpa [rank, integer?] using hitems

theorem ranked_of_rank (h : rank a b = some o) : Ranked a b o := by
  unfold rank at h
  split at h
  case h_1 m n ha hb =>
    obtain rfl := Option.some.inj h
    exact .integer ha hb
  split at h
  case h_1 | h_2 | h_3 | h_4 =>
    obtain rfl := Option.some.inj h
    exact .text rfl rfl
  case h_5 => exact .list _ _ h
  case h_6 => cases h

theorem Discrete.eq_int (h : Discrete a) {n : Int64} (hn : a.integer? = some n) : a = .int n := by
  cases h with
  | int m => exact congrArg Value.int (Option.some.inj hn)
  | _ => cases hn

/-! ## The second operand

What the first operand is fixes what the second one must be.
-/

theorem Ranked.integer_right (h : Ranked a b o) {m : Int64} (ha : a.integer? = some m) :
    ∃ n : Int64, b.integer? = some n ∧ o = Ord.compare m.toInt n.toInt := by
  cases h with
  | integer hm hn =>
    rw [hm] at ha
    obtain rfl := Option.some.inj ha
    exact ⟨_, hn, rfl⟩
  | text hs _ => rcases asText?_eq_some_iff.1 hs with rfl | rfl <;> cases ha
  | list => cases ha

theorem Ranked.text_right (h : Ranked a b o) {s : String} (ha : a.asText? = some s) :
    ∃ t, b.asText? = some t ∧ o = orderTexts s t := by
  cases h with
  | integer hm _ => rcases asText?_eq_some_iff.1 ha with rfl | rfl <;> cases hm
  | text hs ht =>
    rw [hs] at ha
    obtain rfl := Option.some.inj ha
    exact ⟨_, ht, rfl⟩
  | list => cases ha

theorem Ranked.list_right {i : Identity} (h : Ranked (.list i xs) b o) :
    ∃ j ys, b = .list j ys ∧ rankItems xs ys = some o := by
  cases h with
  | integer hm _ => cases hm
  | text hs _ => cases hs
  | list _ j hitems => exact ⟨j, _, rfl, hitems⟩

/-! ## The order of the program -/

theorem number_of_discrete (h : Discrete a) : Number.of? a = a.integer?.map .int := by
  cases h <;> rfl

theorem toOption_orderItems (op : CompareOp) : ∀ {xs ys : List Value},
    (∀ x ∈ xs, ∀ y, Discrete y → (order op x y).toOption = (rank x y).map some) →
    (∀ y ∈ ys, Discrete y) → (orderItems op xs ys).toOption = (rankItems xs ys).map some
  | [], [], _, _ | [], _ :: _, _, _ | _ :: _, [], _, _ => rfl
  | x :: xs, y :: ys, ih, hy => by
    obtain ⟨ihx, ihxs⟩ := List.forall_mem_cons.1 ih
    obtain ⟨hy, hys⟩ := List.forall_mem_cons.1 hy
    rw [orderItems, rankItems]
    split
    · exact toOption_orderItems op ihxs hys
    · exact ihx y hy

/-- **The operator has no part in the order**, and without floats no order is missing where two values
are ordered at all. -/
theorem toOption_order (op : CompareOp) (ha : Discrete a) : ∀ b, Discrete b →
    (order op a b).toOption = (rank a b).map some := by
  apply ha.by_parts
  intro a ha ih b hb
  unfold order rank
  rw [number_of_discrete ha, number_of_discrete hb]
  cases ha with
  | list i hx =>
    cases hb with
    | list j hy => exact toOption_orderItems op ih hy
    | _ => rfl
  | _ => cases hb <;> rfl

/-! ## Turning round -/

theorem orderTexts_swap (s t : String) : orderTexts t s = (orderTexts s t).swap := by
  unfold orderTexts
  rcases lt_trichotomy s t with h | rfl | h
  · simp [h, h.ne', not_lt_of_gt h]
  · simp
  · simp [h, h.ne', not_lt_of_gt h]

theorem orderTexts_eq_iff (s t : String) : orderTexts s t = .eq ↔ s = t := by
  unfold orderTexts
  rcases lt_trichotomy s t with h | rfl | h
  · simp [h, h.ne]
  · simp
  · simp [h.ne', not_lt_of_gt h]

theorem orderTexts_lt_iff (s t : String) : orderTexts s t = .lt ↔ s < t := by
  unfold orderTexts
  split <;> rename_i h
  · simp [h]
  · split <;> simp [h]

theorem equal_comm (ha : Discrete a) (hb : Discrete b) : equal b a = equal a b :=
  Bool.eq_iff_iff.2 ⟨equal_symm hb a ha, equal_symm ha b hb⟩

theorem rankItems_swap : ∀ {xs ys : List Value} {o : Ordering},
    (∀ x ∈ xs, ∀ y, Discrete y → ∀ o, rank x y = some o → rank y x = some o.swap) →
    (∀ x ∈ xs, Discrete x) → (∀ y ∈ ys, Discrete y) →
    rankItems xs ys = some o → rankItems ys xs = some o.swap
  | [], [], _, _, _, _, h | [], _ :: _, _, _, _, _, h | _ :: _, [], _, _, _, _, h => by
    obtain rfl := Option.some.inj h
    rfl
  | x :: xs, y :: ys, o, ih, hx, hy, h => by
    obtain ⟨ihx, ihxs⟩ := List.forall_mem_cons.1 ih
    obtain ⟨hx, hxs⟩ := List.forall_mem_cons.1 hx
    obtain ⟨hy, hys⟩ := List.forall_mem_cons.1 hy
    rw [rankItems] at h ⊢
    rw [equal_comm hx hy]
    split at h
    · rename_i hequal
      rw [if_pos hequal]
      exact rankItems_swap ihxs hxs hys h
    · rename_i hequal
      rw [if_neg hequal]
      exact ihx y hy o h

/-- **With its operands the order is turned round.** -/
theorem rank_swap (ha : Discrete a) : ∀ b, Discrete b → ∀ o, rank a b = some o →
    rank b a = some o.swap := by
  apply ha.by_parts
  intro a ha ih b hb o h
  cases ranked_of_rank h with
  | @integer _ _ m n hm hn =>
    rw [Int.compare_swap]
    exact (Ranked.integer hn hm).rank_eq
  | text hs ht =>
    rw [← orderTexts_swap]
    exact (Ranked.text ht hs).rank_eq
  | list i j hitems =>
    exact (Ranked.list j i (rankItems_swap ih ha.of_mem_parts hb.of_mem_parts hitems)).rank_eq

/-! ## Equal values -/

theorem rankItems_eq_iff : ∀ {xs ys : List Value} {o : Ordering},
    (∀ x ∈ xs, ∀ y, Discrete y → ∀ o, rank x y = some o → (o = .eq ↔ equal x y = true)) →
    (∀ y ∈ ys, Discrete y) → rankItems xs ys = some o → (o = .eq ↔ equalItems xs ys = true)
  | [], [], _, _, _, h | [], _ :: _, _, _, _, h | _ :: _, [], _, _, _, h => by
    obtain rfl := Option.some.inj h
    simp [equalItems]
  | x :: xs, y :: ys, o, ih, hy, h => by
    obtain ⟨ihx, ihxs⟩ := List.forall_mem_cons.1 ih
    obtain ⟨hy, hys⟩ := List.forall_mem_cons.1 hy
    rw [rankItems] at h
    rw [equalItems, Bool.and_eq_true]
    split at h
    · rename_i hequal
      rw [rankItems_eq_iff ihxs hys h]
      simp [hequal]
    · rename_i hequal
      rw [ihx y hy o h]
      simp [hequal]

/-- **Equal values and no others rank as equal.** -/
theorem rank_eq_iff (ha : Discrete a) : ∀ b, Discrete b → ∀ o, rank a b = some o →
    (o = .eq ↔ equal a b = true) := by
  apply ha.by_parts
  intro a ha ih b hb o h
  cases ranked_of_rank h with
  | integer hm hn =>
    obtain rfl := ha.eq_int hm
    obtain rfl := hb.eq_int hn
    rw [Int.compare_eq_eq, Int64.toInt_inj, equal, beq_iff_eq]
  | text hs ht =>
    rw [orderTexts_eq_iff]
    rcases asText?_eq_some_iff.1 hs with rfl | rfl <;>
      rcases asText?_eq_some_iff.1 ht with rfl | rfl <;> simp [equal]
  | list i j hitems =>
    rw [equal]
    exact rankItems_eq_iff ih hb.of_mem_parts hitems

theorem rankItems_congr : ∀ {xs ys zs : List Value} {o : Ordering},
    (∀ x ∈ xs, ∀ y z, Discrete y → Discrete z → ∀ o, rank x y = some o → equal y z = true →
      rank x z = some o) →
    (∀ x ∈ xs, Discrete x) → (∀ y ∈ ys, Discrete y) → (∀ z ∈ zs, Discrete z) →
    rankItems xs ys = some o → equalItems ys zs = true → rankItems xs zs = some o
  | [], [], [], _, _, _, _, _, h, _ | [], _ :: _, _ :: _, _, _, _, _, _, h, _
  | _ :: _, [], [], _, _, _, _, _, h, _ => h
  | [], [], _ :: _, _, _, _, _, _, _, hyz | [], _ :: _, [], _, _, _, _, _, _, hyz
  | _ :: _, [], _ :: _, _, _, _, _, _, _, hyz | _ :: _, _ :: _, [], _, _, _, _, _, _, hyz => by
    simp [equalItems] at hyz
  | x :: xs, y :: ys, z :: zs, o, ih, hx, hy, hz, h, hyz => by
    obtain ⟨ihx, ihxs⟩ := List.forall_mem_cons.1 ih
    obtain ⟨hx, hxs⟩ := List.forall_mem_cons.1 hx
    obtain ⟨hy, hys⟩ := List.forall_mem_cons.1 hy
    obtain ⟨hz, hzs⟩ := List.forall_mem_cons.1 hz
    rw [equalItems, Bool.and_eq_true] at hyz
    rw [rankItems] at h ⊢
    split at h
    · rename_i hxy
      rw [if_pos (equal_trans hx y z hy hz hxy hyz.1)]
      exact rankItems_congr ihxs hxs hys hzs h hyz.2
    · rename_i hxy
      have hxz : ¬ equal x z = true := fun hxz =>
        hxy (equal_trans hx z y hz hy hxz (equal_symm hy z hz hyz.1))
      rw [if_neg hxz]
      exact ihx y z hy hz o h hyz.1

/-- **Equal values have the same order.** -/
theorem rank_congr (ha : Discrete a) : ∀ b c, Discrete b → Discrete c → ∀ o,
    rank a b = some o → equal b c = true → rank a c = some o := by
  apply ha.by_parts
  intro a ha ih b c hb hc o h hbc
  have hequated := equated_of_equal hb hc hbc
  cases ranked_of_rank h with
  | integer hm hn =>
    obtain rfl := hb.eq_int hn
    cases hequated with
    | int => exact h
    | text hs _ => cases hs
    | host hk _ => cases hk
  | text hs ht => exact (Ranked.text hs (hequated.asText? ht)).rank_eq
  | list i j hitems =>
    cases hequated with
    | list _ k hequal =>
      have hlist := rankItems_congr ih ha.of_mem_parts hb.of_mem_parts hc.of_mem_parts hitems hequal
      exact (Ranked.list i k hlist).rank_eq
    | text hs _ => cases hs
    | host hk _ => cases hk

/-- The first operand may be replaced too. -/
theorem rank_congr_left (ha : Discrete a) (hb : Discrete b) (hc : Discrete c)
    (hab : equal a b = true) (h : rank b c = some o) : rank a c = some o := by
  have hswap := rank_congr hc b a hb ha _ (rank_swap hb c hc o h) (equal_symm ha b hb hab)
  have hback := rank_swap hc a ha _ hswap
  rwa [Ordering.swap_swap] at hback

/-! ## Transitivity -/

theorem rankItems_trans : ∀ {xs ys zs : List Value},
    (∀ x ∈ xs, ∀ y z, Discrete y → Discrete z → rank x y = some .lt → rank y z = some .lt →
      rank x z = some .lt) →
    (∀ x ∈ xs, Discrete x) → (∀ y ∈ ys, Discrete y) → (∀ z ∈ zs, Discrete z) →
    rankItems xs ys = some .lt → rankItems ys zs = some .lt → rankItems xs zs = some .lt
  | [], [], _, _, _, _, _, h, _ | _ :: _, [], _, _, _, _, _, h, _ => by cases h
  | _, _ :: _, [], _, _, _, _, _, h => by cases h
  | [], _ :: _, _ :: _, _, _, _, _, _, _ => rfl
  | x :: xs, y :: ys, z :: zs, ih, hx, hy, hz, hxy, hyz => by
    obtain ⟨ihx, ihxs⟩ := List.forall_mem_cons.1 ih
    obtain ⟨hx, hxs⟩ := List.forall_mem_cons.1 hx
    obtain ⟨hy, hys⟩ := List.forall_mem_cons.1 hy
    obtain ⟨hz, hzs⟩ := List.forall_mem_cons.1 hz
    -- what decides for the first and the last list is less, so it is not equal
    have decided : rank x z = some .lt → rankItems (x :: xs) (z :: zs) = some .lt := by
      intro hlt
      have hne : ¬ equal x z = true := fun hequal => by
        simpa using (rank_eq_iff hx z hz _ hlt).2 hequal
      rw [rankItems, if_neg hne, hlt]
    rw [rankItems] at hxy hyz
    by_cases hfirst : equal x y = true
    · by_cases hsecond : equal y z = true
      · rw [if_pos hfirst] at hxy
        rw [if_pos hsecond] at hyz
        rw [rankItems, if_pos (equal_trans hx y z hy hz hfirst hsecond)]
        exact rankItems_trans ihxs hxs hys hzs hxy hyz
      · rw [if_neg hsecond] at hyz
        exact decided (rank_congr_left hx hy hz hfirst hyz)
    · rw [if_neg hfirst] at hxy
      by_cases hsecond : equal y z = true
      · exact decided (rank_congr hx y z hy hz _ hxy hsecond)
      · rw [if_neg hsecond] at hyz
        exact decided (ihx y z hy hz hxy hyz)

/-- **The order is transitive.** -/
theorem rank_trans (ha : Discrete a) : ∀ b c, Discrete b → Discrete c → rank a b = some .lt →
    rank b c = some .lt → rank a c = some .lt := by
  apply ha.by_parts
  intro a ha ih b c hb hc hab hbc
  have hsecond := ranked_of_rank hbc
  generalize ho : Ordering.lt = o at hab
  cases ranked_of_rank hab with
  | @integer _ _ m n hm hn =>
    obtain ⟨k, hk, hlt⟩ := hsecond.integer_right hn
    have hmn : m.toInt < n.toInt := Int.compare_eq_lt.1 ho.symm
    have hnk : n.toInt < k.toInt := Int.compare_eq_lt.1 hlt.symm
    have hmk : Ord.compare m.toInt k.toInt = .lt := Int.compare_eq_lt.2 (hmn.trans hnk)
    rw [← ho, ← hmk]
    exact (Ranked.integer hm hk).rank_eq
  | @text _ _ s t hs ht =>
    obtain ⟨u, hu, hlt⟩ := hsecond.text_right ht
    have hst : s < t := (orderTexts_lt_iff s t).1 ho.symm
    have htu : t < u := (orderTexts_lt_iff t u).1 hlt.symm
    have hsu : orderTexts s u = .lt := (orderTexts_lt_iff s u).2 (hst.trans htu)
    rw [← ho, ← hsu]
    exact (Ranked.text hs hu).rank_eq
  | list i j hitems =>
    subst ho
    obtain ⟨k, zs, rfl, hitems'⟩ := hsecond.list_right
    have hlist := rankItems_trans ih ha.of_mem_parts hb.of_mem_parts hc.of_mem_parts hitems hitems'
    exact (Ranked.list i k hlist).rank_eq

/-! ## Comparisons -/

/-- The comparison is true. -/
def Holds (op : CompareOp) (a b : Value) : Prop := compare op a b = .ok true

/-- The comparison has an answer. -/
def Answers (op : CompareOp) (a b : Value) : Prop := ∃ x, compare op a b = .ok x

/-- What a comparison by order says of an order. -/
def accepts : CompareOp → Ordering → Bool
  | .lt, o => o == .lt
  | .le, o => o == .lt || o == .eq
  | .gt, o => o == .gt
  | .ge, o => o == .gt || o == .eq
  | _, _ => false

theorem toOption_map {ε α β : Type} (f : α → β) (r : Except ε α) :
    (r.map f).toOption = r.toOption.map f := by
  cases r <;> rfl

theorem toOption_eq_some_iff {ε α : Type} {r : Except ε α} {x : α} :
    r.toOption = some x ↔ r = .ok x := by
  cases r <;> simp [Except.toOption]

/-- A comparison by order asks for the order and says what it thinks of it; without an order it is
false. -/
theorem compare_eq_map {op : CompareOp} (hop : op ∈ [.lt, .le, .gt, .ge]) (a b : Value) :
    compare op a b = (order op a b).map (fun o => o.any (accepts op)) := by
  have hfour : op = .lt ∨ op = .le ∨ op = .gt ∨ op = .ge := by simpa using hop
  rcases hfour with rfl | rfl | rfl | rfl <;> rw [compare] <;> congr 1 <;> funext o <;>
    cases o <;> rfl

theorem compare_eq_ok_iff {op : CompareOp} (hop : op ∈ [.lt, .le, .gt, .ge]) (ha : Discrete a)
    (hb : Discrete b) {x : Bool} :
    compare op a b = .ok x ↔ ∃ o, rank a b = some o ∧ accepts op o = x := by
  have hcompare : (compare op a b).toOption = (rank a b).map (accepts op) := by
    rw [compare_eq_map hop, toOption_map, toOption_order op ha b hb, Option.map_map]
    rfl
  rw [← toOption_eq_some_iff, hcompare, Option.map_eq_some_iff]

theorem answers_iff {op : CompareOp} (hop : op ∈ [.lt, .le, .gt, .ge]) (ha : Discrete a)
    (hb : Discrete b) : Answers op a b ↔ ∃ o, rank a b = some o := by
  constructor
  · rintro ⟨x, hx⟩
    obtain ⟨o, ho, -⟩ := (compare_eq_ok_iff hop ha hb).1 hx
    exact ⟨o, ho⟩
  · rintro ⟨o, ho⟩
    exact ⟨accepts op o, (compare_eq_ok_iff hop ha hb).2 ⟨o, ho, rfl⟩⟩

/-- One of three comparisons is true, and the others follow from these. -/
structure Trichotomy (a b : Value) : Prop where
  one : (Holds .lt a b ∧ ¬ Holds .eq a b ∧ ¬ Holds .gt a b) ∨
    (¬ Holds .lt a b ∧ Holds .eq a b ∧ ¬ Holds .gt a b) ∨
    (¬ Holds .lt a b ∧ ¬ Holds .eq a b ∧ Holds .gt a b)
  le : Holds .le a b ↔ Holds .lt a b ∨ Holds .eq a b
  ge : Holds .ge a b ↔ Holds .gt a b ∨ Holds .eq a b
  swap : compare .lt a b = compare .gt b a

theorem trichotomy_of_rank (ha : Discrete a) (hb : Discrete b) (h : rank a b = some o) :
    Trichotomy a b := by
  have hholds : ∀ op ∈ [CompareOp.lt, .le, .gt, .ge], Holds op a b ↔ accepts op o = true := by
    intro op hop
    simp [Holds, compare_eq_ok_iff hop ha hb, h]
  have heq : Holds .eq a b ↔ o = .eq := by
    rw [rank_eq_iff ha b hb o h]
    simp [Holds, compare]
  have hlt := hholds .lt (by simp)
  have hle := hholds .le (by simp)
  have hgt := hholds .gt (by simp)
  have hge := hholds .ge (by simp)
  refine ⟨?_, ?_, ?_, ?_⟩
  · rw [hlt, heq, hgt]
    cases o <;> simp [accepts]
  · rw [hle, hlt, heq]
    cases o <;> simp [accepts]
  · rw [hge, hgt, heq]
    cases o <;> simp [accepts]
  · have hswap := rank_swap ha b hb o h
    have hless : compare .lt a b = .ok (accepts .lt o) :=
      (compare_eq_ok_iff (by simp) ha hb).2 ⟨o, h, rfl⟩
    have hgreater : compare .gt b a = .ok (accepts .gt o.swap) :=
      (compare_eq_ok_iff (by simp) hb ha).2 ⟨_, hswap, rfl⟩
    rw [hless, hgreater]
    cases o <;> rfl

/-- **The order of values is a strict one that goes with equality.** -/
theorem strict_order (ha : Discrete a) (hb : Discrete b) (hc : Discrete c) :
    (Answers .lt b a ↔ Answers .lt a b) ∧
    (∀ op ∈ [CompareOp.le, .gt, .ge], Answers op a b ↔ Answers .lt a b) ∧
    (Answers .lt a b → Trichotomy a b) ∧
    (Holds .lt a b → Holds .lt b c → Holds .lt a c) := by
  have hless : Answers .lt a b ↔ ∃ o, rank a b = some o := answers_iff (by simp) ha hb
  refine ⟨?_, fun op hop => ?_, fun h => ?_, fun hab hbc => ?_⟩
  · rw [hless, answers_iff (by simp) hb ha]
    exact ⟨fun ⟨o, h⟩ => ⟨_, rank_swap hb a ha o h⟩, fun ⟨o, h⟩ => ⟨_, rank_swap ha b hb o h⟩⟩
  · rw [hless, answers_iff (List.mem_cons_of_mem _ hop) ha hb]
  · obtain ⟨o, ho⟩ := hless.1 h
    exact trichotomy_of_rank ha hb ho
  · have hop : CompareOp.lt ∈ [.lt, .le, .gt, .ge] := by simp
    have hlt : ∀ {x y : Value}, Discrete x → Discrete y →
        (Holds .lt x y ↔ rank x y = some .lt) := by
      intro x y hx hy
      simp [Holds, compare_eq_ok_iff hop hx hy, accepts]
    rw [hlt ha hb] at hab
    rw [hlt hb hc] at hbc
    rw [hlt ha hc]
    exact rank_trans ha b c hb hc hab hbc

/-- Lists that begin with a constant and with equal texts of two kinds, one of which ends first. -/
theorem strict_order_nested :
    Discrete (.list (.given 0) [.none, .str "a"]) ∧
      Discrete (.list (.given 1) [.none, .safe "a", .int 2]) ∧
      Discrete (.list (.given 2) [.none, .str "b", .map (.given 3) [("k", .none)]]) ∧
      Trichotomy (.list (.given 0) [.none, .str "a"])
        (.list (.given 1) [.none, .safe "a", .int 2]) ∧
      Holds .lt (.list (.given 0) [.none, .str "a"])
        (.list (.given 2) [.none, .str "b", .map (.given 3) [("k", .none)]]) := by
  have ha : Discrete (.list (.given 0) [.none, .str "a"]) := by simp
  have hb : Discrete (.list (.given 1) [.none, .safe "a", .int 2]) := by simp
  have hc : Discrete (.list (.given 2) [.none, .str "b", .map (.given 3) [("k", .none)]]) := by simp
  obtain ⟨-, -, htrichotomy, htrans⟩ := strict_order ha hb hc
  exact ⟨ha, hb, hc, htrichotomy ⟨true, rfl⟩, htrans rfl rfl⟩

end Stencil.Value
