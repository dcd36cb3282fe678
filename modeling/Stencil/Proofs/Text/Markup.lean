import Stencil.Text.Case
import Stencil.Text.Escape

/-!
# Markup characters

The four characters that can open or close markup. A text without any of them is `Clean`, and
spelling the four in another way does not change it (`respell_of_clean`). Escaping makes every text
clean (`clean_escape`), and changing its case keeps a text clean (`clean_upper`, `clean_lower`). The
last two look through the case tables once: no entry has an image at or below `>`, the last of the
four.
-/
namespace Stencil.Text

/-- One of `<`, `>`, `"` and `'`. -/
def isMarkup (c : Char) : Bool := c == '<' || c == '>' || c == '"' || c == '\''

/-- No character of the text is one of the four. -/
def Clean (cs : List Char) : Prop := ∀ c ∈ cs, isMarkup c = false

instance (cs : List Char) : Decidable (Clean cs) :=
  List.decidableBAll (fun c => isMarkup c = false) cs

@[simp] theorem clean_nil : Clean [] := by simp [Clean]

@[simp] theorem clean_cons {c : Char} {cs : List Char} :
    Clean (c :: cs) ↔ isMarkup c = false ∧ Clean cs := by simp [Clean]

@[simp] theorem clean_append {a b : List Char} : Clean (a ++ b) ↔ Clean a ∧ Clean b := by
  simp [Clean, or_imp, forall_and]

/-! ## Respelling -/

/-- The text with every character written in another way. -/
def respell (g : Char → List Char) (s : String) : String := String.ofList (s.toList.flatMap g)

theorem respell_append (g : Char → List Char) (a b : String) :
    respell g (a ++ b) = respell g a ++ respell g b := by
  simp [respell, String.toList_append, String.ofList_append]

/-- Another spelling of the markup characters leaves a clean text alone. -/
theorem respell_of_clean {g : Char → List Char} (hg : ∀ c, isMarkup c = false → g c = [c])
    {s : String} (h : Clean s.toList) : respell g s = s := by
  have hs : s.toList.map g = s.toList.map (fun c => [c]) :=
    List.map_congr_left fun c hc => hg c (h c hc)
  rw [respell, List.flatMap_def, hs, ← List.flatMap_def, List.flatMap_singleton',
    String.ofList_toList]

/-- The spelling that leaves the markup characters out. -/
def withoutMarkup (c : Char) : List Char := if isMarkup c then [] else [c]

theorem withoutMarkup_of_not {c : Char} (h : isMarkup c = false) : withoutMarkup c = [c] := by
  simp [withoutMarkup, h]

theorem clean_withoutMarkup (s : String) : Clean (respell withoutMarkup s).toList := by
  intro c hc
  rw [respell, String.toList_ofList] at hc
  obtain ⟨d, -, hd⟩ := List.mem_flatMap.1 hc
  unfold withoutMarkup at hd
  split at hd
  · simp at hd
  · rename_i hm
    obtain rfl : c = d := by simpa using hd
    simpa using hm

/-! ## Escaping -/

theorem mem_replaceChar {c d : Char} {entity cs : List Char} :
    c ∈ replaceChar d entity cs ↔ (c ∈ cs ∧ c ≠ d) ∨ (d ∈ cs ∧ c ∈ entity) := by
  simp only [replaceChar, List.mem_flatMap]
  constructor
  · rintro ⟨x, hx, hc⟩
    by_cases hxd : x = d
    · subst hxd
      exact Or.inr ⟨hx, by simpa using hc⟩
    · obtain rfl : c = x := by simpa [hxd] using hc
      exact Or.inl ⟨hx, hxd⟩
  · rintro (⟨hc, hcd⟩ | ⟨hd, hc⟩)
    · exact ⟨c, hc, by simp [hcd]⟩
    · exact ⟨d, hd, by simpa using hc⟩

/-- Replacing a character by a clean entity takes it away and brings no markup in. -/
theorem not_mem_replaceChar {c d : Char} {entity cs : List Char} (hc : isMarkup c = true)
    (he : Clean entity) (h : c = d ∨ c ∉ cs) : c ∉ replaceChar d entity cs := by
  rw [mem_replaceChar]
  rintro (⟨hm, hne⟩ | ⟨-, hm⟩)
  · exact h.elim hne (fun hn => hn hm)
  · rw [he c hm] at hc
    exact Bool.noConfusion hc

theorem clean_entity : ∀ e ∈ entities, Clean e.2 := by
  decide

theorem not_mem_foldl_replaceChar {c : Char} (hc : isMarkup c = true) :
    ∀ (table : List (Char × List Char)) (cs : List Char), (∀ e ∈ table, Clean e.2) →
      (c ∈ table.map Prod.fst ∨ c ∉ cs) →
      c ∉ table.foldl (fun text e => replaceChar e.1 e.2 text) cs
  | [], cs, _, h => by simpa using h
  | e :: table, cs, he, h => by
    have hrest := not_mem_foldl_replaceChar hc table (replaceChar e.1 e.2 cs)
      (fun x hx => he x (by simp [hx]))
    have hclean := he e (by simp)
    rcases h with h | h
    · rcases List.mem_cons.1 h with h | h
      · exact hrest (Or.inr (not_mem_replaceChar hc hclean (Or.inl h)))
      · exact hrest (Or.inl h)
    · exact hrest (Or.inr (not_mem_replaceChar hc hclean (Or.inr h)))

theorem mem_entities_of_isMarkup {c : Char} (hc : isMarkup c = true) :
    c ∈ entities.map Prod.fst := by
  simp only [isMarkup, Bool.or_eq_true, beq_iff_eq] at hc
  rcases hc with ((rfl | rfl) | rfl) | rfl <;> decide

theorem isSpecial_of_isMarkup {c : Char} (hc : isMarkup c = true) : isSpecial c = true := by
  simp only [isMarkup, Bool.or_eq_true, beq_iff_eq] at hc
  rcases hc with ((rfl | rfl) | rfl) | rfl <;> decide

/-- **An escaped text is clean.** -/
theorem clean_escape (cs : List Char) : Clean (escape cs) := by
  intro c hc
  by_cases hm : isMarkup c = true
  · unfold escape at hc
    split at hc
    · exact absurd hc (not_mem_foldl_replaceChar hm entities cs clean_entity
        (Or.inl (mem_entities_of_isMarkup hm)))
    · rename_i hs
      exact absurd (List.any_eq_true.2 ⟨c, hc, isSpecial_of_isMarkup hm⟩) hs
  · simpa using hm

/-! ## Case -/

/-- The code points of markup characters are at most that of `>`. -/
theorem isMarkup_of_lt {c : Char} (h : 62 < c.toNat) : isMarkup c = false := by
  by_cases hm : isMarkup c = true
  · simp only [isMarkup, Bool.or_eq_true, beq_iff_eq] at hm
    rcases hm with ((rfl | rfl) | rfl) | rfl <;> simp at h
  · simpa using hm

theorem isMarkup_ofNat {n : Nat} (h : 62 < n) : isMarkup (Char.ofNat n) = false := by
  by_cases hv : n.isValidChar
  · have hn : (Char.ofNat n).toNat = n := by
      rw [Char.ofNat, dif_pos hv]
      rfl
    exact isMarkup_of_lt (hn.symm ▸ h)
  · have h0 : Char.ofNat n = '\x00' := by
      rw [Char.ofNat, dif_neg hv]
      rfl
    rw [h0]
    decide

/-- A pair of case tables whose images all lie above the markup characters keeps texts clean. -/
theorem clean_map {long : List (Nat × List Nat)} {runs : List Case.Run}
    (hl : ∀ e ∈ long, ∀ n ∈ e.2, 62 < n) (hr : ∀ r ∈ runs, 62 < (r.first : Int) + r.offset)
    {c : Char} (hc : isMarkup c = false) : Clean (Case.map long runs c) := by
  unfold Case.map
  dsimp only
  split
  · rename_i e he
    intro d hd
    obtain ⟨n, hn, rfl⟩ := List.mem_map.1 hd
    exact isMarkup_ofNat (hl e (List.mem_of_find?_eq_some he) n hn)
  · split
    · rename_i r hf
      have hrun := hr r (List.mem_of_find?_eq_some hf)
      have hcov := List.find?_some hf
      simp only [Case.Run.covers, Bool.and_eq_true, decide_eq_true_eq] at hcov
      have hn : 62 < ((c.toNat : Int) + r.offset).toNat := by omega
      simpa using isMarkup_ofNat hn
    · simpa using hc

theorem lt_upperLong : ∀ e ∈ Case.upperLong, ∀ n ∈ e.2, 62 < n := by decide +kernel

theorem lt_upperRuns : ∀ r ∈ Case.upperRuns, 62 < (r.first : Int) + r.offset := by
  decide +kernel

theorem lt_lowerLong : ∀ e ∈ Case.lowerLong, ∀ n ∈ e.2, 62 < n := by decide +kernel

theorem lt_lowerRuns : ∀ r ∈ Case.lowerRuns, 62 < (r.first : Int) + r.offset := by
  decide +kernel

/-- In ASCII only letters change with the case, and they stay letters. -/
theorem isMarkup_ascii : ∀ n < 128, isMarkup (Char.ofNat n) = false →
    isMarkup (Char.ofNat n).toUpper = false ∧ isMarkup (Char.ofNat n).toLower = false := by
  decide +kernel

theorem isMarkup_case {c : Char} (ha : c.toNat < 128) (hc : isMarkup c = false) :
    isMarkup c.toUpper = false ∧ isMarkup c.toLower = false := by
  have h := isMarkup_ascii c.toNat ha
  rw [Char.ofNat_toNat] at h
  exact h hc

theorem clean_upperChar {c : Char} (hc : isMarkup c = false) : Clean (upperChar c) := by
  unfold upperChar
  split
  · rename_i ha
    simpa using (isMarkup_case ha hc).1
  · exact clean_map lt_upperLong lt_upperRuns hc

theorem clean_lowerChar {c : Char} (hc : isMarkup c = false) : Clean (lowerChar c) := by
  unfold lowerChar
  split
  · rename_i ha
    simpa using (isMarkup_case ha hc).2
  · exact clean_map lt_lowerLong lt_lowerRuns hc

/-- **A clean text is clean in upper case.** -/
theorem clean_upper {cs : List Char} (h : Clean cs) : Clean (upper cs) := by
  intro d hd
  obtain ⟨c, hc, hd⟩ := List.mem_flatMap.1 hd
  exact clean_upperChar (h c hc) d hd

theorem isMarkup_lowerSigma (before after : List Char) :
    isMarkup (lowerSigma before after) = false := by
  unfold lowerSigma
  split <;> decide

theorem clean_lowerAfter : ∀ {cs : List Char} (before : List Char), Clean cs →
    Clean (lowerAfter before cs)
  | [], _, _ => by simp [lowerAfter]
  | c :: cs, before, h => by
    obtain ⟨hc, hcs⟩ := clean_cons.1 h
    rw [lowerAfter, clean_append]
    refine ⟨?_, clean_lowerAfter (c :: before) hcs⟩
    split
    · simpa using isMarkup_lowerSigma before cs
    · exact clean_lowerChar hc

/-- **A clean text is clean in lower case.** -/
theorem clean_lower {cs : List Char} (h : Clean cs) : Clean (lower cs) := clean_lowerAfter [] h

end Stencil.Text
