/-!
# Ordered entries

A list of names with values, in the order in which the names first came. Contexts, maps, keyword
arguments and registries are such lists. What each operation does is said of look-up (`find?_put`,
`find?_drop`) and of the names in order (`names_put`). Pairs with different names are entries as
they are (`ofList_of_nodup`).
-/
namespace Stencil.Entries

variable {α : Type}

/-- The value of the first entry with this name. -/
def find? (name : String) : List (String × α) → Option α
  | [] => none
  | (n, v) :: rest => if n = name then some v else find? name rest

/-- The entries with a value for `name`: a name that is there keeps its position, a new one comes
last. -/
def put (name : String) (value : α) : List (String × α) → List (String × α)
  | [] => [(name, value)]
  | (n, v) :: rest => if n = name then (n, value) :: rest else (n, v) :: put name value rest

def drop (name : String) (entries : List (String × α)) : List (String × α) :=
  entries.filter (fun e => e.1 != name)

/-- Entries put one after the other. -/
def ofList (pairs : List (String × α)) : List (String × α) :=
  pairs.foldl (fun entries e => put e.1 e.2 entries) []

def has (name : String) (entries : List (String × α)) : Bool := (find? name entries).isSome

@[simp] theorem find?_nil (name : String) : find? name ([] : List (String × α)) = none := rfl

theorem find?_cons (name n : String) (v : α) (rest : List (String × α)) :
    find? name ((n, v) :: rest) = if n = name then some v else find? name rest := rfl

theorem find?_put (name n : String) (v : α) (entries : List (String × α)) :
    find? name (put n v entries) = if n = name then some v else find? name entries := by
  induction entries with
  | nil => rfl
  | cons e rest ih =>
    obtain ⟨m, w⟩ := e
    by_cases hm : m = n
    · subst hm
      by_cases hn : m = name <;> simp [put, find?_cons, hn]
    · by_cases hn : m = name
      · subst hn
        simp [put, find?_cons, hm, Ne.symm hm]
      · simp [put, find?_cons, hm, hn, ih]

theorem find?_drop (name n : String) (entries : List (String × α)) :
    find? name (drop n entries) = if n = name then none else find? name entries := by
  induction entries with
  | nil => simp [drop]
  | cons e rest ih =>
    obtain ⟨m, w⟩ := e
    simp only [drop] at ih
    by_cases hm : m = n
    · subst hm
      by_cases hn : m = name <;> simp_all [drop, find?_cons]
    · by_cases hn : m = name
      · subst hn
        simp [drop, find?_cons, hm, Ne.symm hm]
      · simp_all [drop, find?_cons]

theorem find?_eq_none_iff (name : String) (entries : List (String × α)) :
    find? name entries = none ↔ name ∉ entries.map Prod.fst := by
  induction entries with
  | nil => simp
  | cons e rest ih =>
    obtain ⟨m, w⟩ := e
    by_cases hm : m = name
    · simp [find?_cons, hm]
    · simp [find?_cons, hm, ih, Ne.symm hm]

theorem has_iff (name : String) (entries : List (String × α)) :
    has name entries = true ↔ name ∈ entries.map Prod.fst := by
  rw [has, Option.isSome_iff_ne_none, Ne, find?_eq_none_iff, Classical.not_not]

theorem mem_of_find?_eq_some {name : String} {v : α} :
    ∀ {entries : List (String × α)}, find? name entries = some v → (name, v) ∈ entries
  | [], h => by simp at h
  | (m, w) :: rest, h => by
    rw [find?_cons] at h
    split at h
    · rename_i hm
      simp_all
    · exact List.mem_cons_of_mem _ (mem_of_find?_eq_some h)

/-- A name that is there keeps its position, and a new one comes last. -/
theorem names_put (n : String) (v : α) (entries : List (String × α)) :
    (put n v entries).map Prod.fst =
      if n ∈ entries.map Prod.fst then entries.map Prod.fst else entries.map Prod.fst ++ [n] := by
  induction entries with
  | nil => simp [put]
  | cons e rest ih =>
    obtain ⟨m, w⟩ := e
    by_cases hm : m = n
    · simp [put, hm]
    · simp only [put, hm, if_false, List.map_cons, ih, List.mem_cons, Ne.symm hm, false_or]
      split <;> simp

theorem nodup_names_put {entries : List (String × α)} (h : (entries.map Prod.fst).Nodup)
    (n : String) (v : α) : ((put n v entries).map Prod.fst).Nodup := by
  rw [names_put]
  split
  · exact h
  · rename_i hn
    refine List.nodup_append.2 ⟨h, by simp, fun a ha b hb hab => ?_⟩
    obtain rfl : b = n := by simpa using hb
    exact hn (hab ▸ ha)

theorem nodup_names_drop {entries : List (String × α)} (h : (entries.map Prod.fst).Nodup)
    (n : String) : ((drop n entries).map Prod.fst).Nodup :=
  h.sublist (List.filter_sublist.map _)

theorem put_of_not_mem {n : String} (v : α) :
    ∀ {entries : List (String × α)}, n ∉ entries.map Prod.fst → put n v entries = entries ++ [(n, v)]
  | [], _ => rfl
  | (m, w) :: rest, h => by
    obtain ⟨hm, hrest⟩ := List.ne_and_not_mem_of_not_mem_cons h
    rw [put, if_neg (Ne.symm hm), put_of_not_mem v hrest, List.cons_append]

theorem mem_of_mem_put {n : String} {v : α} {e : String × α} :
    ∀ {entries : List (String × α)}, e ∈ put n v entries → e = (n, v) ∨ e ∈ entries
  | [], h => .inl (List.mem_singleton.1 h)
  | (m, w) :: rest, h => by
    rw [put] at h
    split at h
    · rename_i hm
      obtain rfl : m = n := hm
      exact (List.mem_cons.1 h).imp_right (List.mem_cons_of_mem _)
    · rcases List.mem_cons.1 h with rfl | h
      · exact .inr List.mem_cons_self
      · exact (mem_of_mem_put h).imp_right (List.mem_cons_of_mem _)

/-! ## Entries from pairs -/

@[simp] theorem ofList_nil : ofList ([] : List (String × α)) = [] := rfl

theorem mem_of_mem_foldl_put {e : String × α} : ∀ {pairs entries : List (String × α)},
    e ∈ pairs.foldl (fun entries e => put e.1 e.2 entries) entries → e ∈ entries ∨ e ∈ pairs
  | [], _, h => .inl h
  | p :: pairs, entries, h => by
    rw [List.foldl_cons] at h
    rcases mem_of_mem_foldl_put h with h | h
    · rcases mem_of_mem_put h with rfl | h
      · exact .inr List.mem_cons_self
      · exact .inl h
    · exact .inr (List.mem_cons_of_mem _ h)

theorem mem_of_mem_ofList {e : String × α} {pairs : List (String × α)} (h : e ∈ ofList pairs) :
    e ∈ pairs :=
  (mem_of_mem_foldl_put h).resolve_left List.not_mem_nil

theorem foldl_put_of_nodup : ∀ {pairs entries : List (String × α)},
    ((entries ++ pairs).map Prod.fst).Nodup →
    pairs.foldl (fun entries e => put e.1 e.2 entries) entries = entries ++ pairs
  | [], entries, _ => (List.append_nil entries).symm
  | p :: pairs, entries, h => by
    have hp : p.1 ∉ entries.map Prod.fst := by
      rw [List.map_append, List.map_cons] at h
      exact fun hmem => (List.nodup_append.1 h).2.2 _ hmem _ List.mem_cons_self rfl
    rw [List.append_cons] at h
    rw [List.foldl_cons, put_of_not_mem _ hp, foldl_put_of_nodup h,
      ← List.append_cons]

/-- Pairs with different names do not replace each other. -/
theorem ofList_of_nodup {pairs : List (String × α)} (h : (pairs.map Prod.fst).Nodup) :
    ofList pairs = pairs := by
  rw [ofList, foldl_put_of_nodup h, List.nil_append]

end Stencil.Entries
