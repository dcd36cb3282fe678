import Mathlib.Data.List.Basic
import Stencil.Proofs.Text.Markup

/-!
# Escaping is faithful

The five replacements, one after the other over the whole text, write each character as if it stood
alone (`escape_eq_escapeOnce`). This hangs on their order: no entity holds a character that is still
to be replaced (`Settled`), so what one replacement writes the later ones leave alone. Read from left
to right, the written text gives the original back (`unescape_escapeOnce`), whatever looked like an
entity in it before.
-/
namespace Stencil.Text

/-- The replacements of a table, made one after the other. -/
def replaceAll (table : List (Char × List Char)) (cs : List Char) : List Char :=
  table.foldl (fun text e => replaceChar e.1 e.2 text) cs

/-- No replacement writes a character that a later one replaces. -/
def Settled (table : List (Char × List Char)) : Prop := table.Pairwise (fun e f => f.1 ∉ e.2)

instance (table : List (Char × List Char)) : Decidable (Settled table) :=
  inferInstanceAs (Decidable (table.Pairwise _))

/-- What a table has for a character. -/
def replacement (table : List (Char × List Char)) (c : Char) : List Char :=
  match table.find? (fun e => e.1 = c) with
  | some e => e.2
  | none => [c]

/-! ## One replacement after the other -/

theorem replaceChar_of_not_mem {c : Char} {entity cs : List Char} (h : c ∉ cs) :
    replaceChar c entity cs = cs := by
  have hsame : ∀ d ∈ cs, (if d = c then entity else [d]) = [d] := by
    intro d hd
    rw [if_neg]
    rintro rfl
    exact h hd
  rw [replaceChar, List.flatMap_congr hsame, List.flatMap_singleton']

theorem replaceAll_of_not_mem : ∀ {table : List (Char × List Char)} {cs : List Char},
    (∀ e ∈ table, e.1 ∉ cs) → replaceAll table cs = cs
  | [], _, _ => rfl
  | e :: table, cs, h => by
    obtain ⟨hfirst, hrest⟩ := List.forall_mem_cons.1 h
    rw [replaceAll, List.foldl_cons, replaceChar_of_not_mem hfirst]
    exact replaceAll_of_not_mem hrest

/-- The replacements work on each character apart. -/
theorem replaceAll_eq_flatMap : ∀ (table : List (Char × List Char)) (cs : List Char),
    replaceAll table cs = cs.flatMap (fun c => replaceAll table [c])
  | [], cs => (List.flatMap_singleton' cs).symm
  | e :: table, cs => by
    have hstep : ∀ ds, replaceAll (e :: table) ds = replaceAll table (replaceChar e.1 e.2 ds) :=
      fun _ => rfl
    calc replaceAll (e :: table) cs
        = (replaceChar e.1 e.2 cs).flatMap (fun c => replaceAll table [c]) := by
          rw [hstep, replaceAll_eq_flatMap table]
      _ = cs.flatMap (fun d => (if d = e.1 then e.2 else [d]).flatMap
            (fun c => replaceAll table [c])) := by rw [replaceChar, List.flatMap_assoc]
      _ = cs.flatMap (fun d => replaceAll (e :: table) [d]) := by
          refine List.flatMap_congr fun d _ => ?_
          rw [← replaceAll_eq_flatMap table, hstep, replaceChar, List.flatMap_singleton]

/-- In a settled table the first entry for a character has the last word. -/
theorem replaceAll_singleton (c : Char) : ∀ {table : List (Char × List Char)}, Settled table →
    replaceAll table [c] = replacement table c
  | [], _ => rfl
  | e :: table, h => by
    obtain ⟨hfirst, hrest⟩ := List.pairwise_cons.1 h
    rw [replaceAll, List.foldl_cons, ← replaceAll, replacement, List.find?_cons]
    by_cases hc : e.1 = c
    · simp only [hc, decide_true]
      rw [replaceChar, List.flatMap_singleton, if_pos rfl]
      exact replaceAll_of_not_mem hfirst
    · simp only [hc, decide_false]
      rw [replaceChar_of_not_mem (by simpa using hc)]
      exact replaceAll_singleton c hrest

/-! ## The five entities -/

theorem settled_entities : Settled entities := by decide

theorem replacement_entities (c : Char) : replacement entities c = escapeChar c := by
  unfold escapeChar
  split <;> simp_all [replacement, entities, eq_comm]

theorem escapeChar_of_not_special {c : Char} (h : isSpecial c = false) : escapeChar c = [c] := by
  unfold escapeChar
  split <;> simp_all [isSpecial]

/-- **Escaping writes each character on its own.** -/
theorem escape_eq_escapeOnce (cs : List Char) : escape cs = escapeOnce cs := by
  have hchar : ∀ c, replaceAll entities [c] = escapeChar c := fun c => by
    rw [replaceAll_singleton c settled_entities, replacement_entities]
  unfold escape
  split
  · calc entities.foldl (fun text e => replaceChar e.1 e.2 text) cs
        = cs.flatMap (fun c => replaceAll entities [c]) := replaceAll_eq_flatMap entities cs
      _ = escapeOnce cs := by simp only [hchar, escapeOnce]
  · rename_i hplain
    have hsame : ∀ c ∈ cs, escapeChar c = [c] := fun c hc =>
      escapeChar_of_not_special (by simpa using fun h => hplain (List.any_eq_true.2 ⟨c, hc, h⟩))
    rw [escapeOnce, List.flatMap_congr hsame, List.flatMap_singleton']

/-! ## Reading back -/

theorem unescape_cons {c : Char} (h : c ≠ '&') (cs : List Char) :
    unescape (c :: cs) = c :: unescape cs := by
  rw [unescape] <;> simp_all

theorem unescape_escapeChar (c : Char) (cs : List Char) :
    unescape (escapeChar c ++ cs) = c :: unescape cs := by
  unfold escapeChar
  split
  case h_1 | h_2 | h_3 | h_4 | h_5 => rfl
  case h_6 hamp _ _ _ _ => exact unescape_cons hamp cs

theorem unescape_escapeOnce : ∀ cs : List Char, unescape (escapeOnce cs) = cs
  | [] => rfl
  | c :: cs => by
    rw [escapeOnce, List.flatMap_cons, unescape_escapeChar, ← escapeOnce, unescape_escapeOnce cs]

theorem toList_escapeString (s : String) : (escapeString s).toList = escapeOnce s.toList := by
  rw [escapeString, String.toList_ofList, escape_eq_escapeOnce]

/-- **Escaping is a map of characters, and loses nothing.** -/
theorem escapeString_faithful (s t : String) :
    escapeString s = String.ofList (escapeOnce s.toList) ∧
    Clean (escapeString s).toList ∧
    String.ofList (unescape (escapeString s).toList) = s ∧
    (escapeString s = escapeString t ↔ s = t) ∧
    escapeString (s ++ t) = escapeString s ++ escapeString t := by
  have hback : ∀ u : String, String.ofList (unescape (escapeString u).toList) = u := fun u => by
    rw [toList_escapeString, unescape_escapeOnce, String.ofList_toList]
  refine ⟨?_, ?_, hback s, ⟨fun h => ?_, congrArg _⟩, ?_⟩
  · rw [escapeString, escape_eq_escapeOnce]
  · rw [escapeString, String.toList_ofList]
    exact clean_escape s.toList
  · rw [← hback s, h, hback t]
  · rw [← String.toList_inj, String.toList_append]
    simp only [toList_escapeString, String.toList_append, escapeOnce, List.flatMap_append]

/-- An entity in the text is text. -/
example : escapeString "&lt;<" = "&amp;lt;&lt;" := by decide

end Stencil.Text
