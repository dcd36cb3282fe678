import Stencil.Proofs.Source.Nesting

/-!
# Locations by counting

A location is found with a table of line starts and a search in it. It is the one that a reader
counts: the newlines before an offset give its line, the characters behind the last of them its
column (`after_eq_counted`). Every character leads to a later location (`before_advance`), so the
locations of a text stand in the order of its offsets, and no two are the same
(`LineIndex.locate_counts`).
-/
namespace Stencil

namespace Location

/-! ## Counting -/

/-- The location at the end of a text as a reader counts it. -/
def counted (before : List Char) : Location :=
  ⟨before.count '\n' + 1, (before.reverse.takeWhile (· ≠ '\n')).length + 1⟩

/-- One more character begins a line or fills a column. -/
theorem counted_snoc (before : List Char) (c : Char) :
    counted (before ++ [c]) = (counted before).advance [c] := by
  by_cases hc : c = '\n' <;> simp [counted, advance, hc]

/-- What is counted along a text from its start is what is counted back from its end. -/
theorem counted_append (before : List Char) : ∀ text : List Char,
    counted (before ++ text) = (counted before).advance text
  | [] => by rw [List.append_nil, advance]
  | c :: text => by
    have ih := counted_append (before ++ [c]) text
    rw [counted_snoc, ← advance_append, List.append_assoc] at ih
    exact ih

theorem after_eq_counted (before : List Char) : after before = counted before :=
  (counted_append [] before).symm

/-! ## The order of reading -/

theorem Before.trans {a b c : Location} (hab : a.Before b) (hbc : b.Before c) : a.Before c := by
  unfold Before at *
  omega

theorem Before.irrefl (a : Location) : ¬ a.Before a := by
  unfold Before
  omega

/-- A character leads to a later location. -/
theorem before_advance_one (l : Location) (c : Char) : l.Before (l.advance [c]) := by
  by_cases hc : c = '\n'
  · exact .inl (by simp [advance, hc])
  · exact .inr (by simp [advance, hc])

theorem before_advance (l : Location) : ∀ {text : List Char}, text ≠ [] →
    l.Before (l.advance text)
  | [], h => absurd rfl h
  | [c], _ => before_advance_one l c
  | c :: d :: text, _ =>
    (before_advance_one l c).trans (before_advance (l.advance [c]) (List.cons_ne_nil d text))

end Location

/-! ## Offsets of a text -/

/-- Of two boundaries the later one has more text before it. -/
theorem Text.exists_between {text : List Char} {m n : Nat} (hm : IsBoundary text m)
    (hn : IsBoundary text n) (h : m < n) : ∃ before between after, between ≠ [] ∧
      text = before ++ (between ++ after) ∧ byteLength before = m ∧
      byteLength (before ++ between) = n := by
  obtain ⟨before, rest, htext, rfl⟩ := hm
  obtain ⟨before', after, rfl, rfl⟩ := hn
  rcases List.append_eq_append_iff.1 htext with ⟨back, rfl, rfl⟩ | ⟨between, rfl, rfl⟩
  · rw [byteLength_append] at h
    omega
  · refine ⟨before, between, after, ?_, List.append_assoc _ _ _, rfl, rfl⟩
    rintro rfl
    rw [List.append_nil] at h
    exact absurd h (Nat.lt_irrefl _)

namespace LineIndex

/-- An offset past the end counts as the end. -/
theorem locate_of_le {text : List Char} {offset : Nat} (h : Text.byteLength text ≤ offset) :
    (ofText text).locate offset = (ofText text).locate (Text.byteLength text) := by
  have hoffset : min offset (ofText text).size = Text.byteLength text := Nat.min_eq_right h
  have hend : min (Text.byteLength text) (ofText text).size = Text.byteLength text :=
    Nat.min_self _
  rw [locate, locate, hoffset, hend]

theorem locate_counted (before after : List Char) :
    (ofText (before ++ after)).locate (Text.byteLength before) = .counted before := by
  rw [locate_byteLength, Location.after_eq_counted]

/-- A later boundary has a later location. -/
theorem before_of_lt {text : List Char} {m n : Nat} (hm : Text.IsBoundary text m)
    (hn : Text.IsBoundary text n) (h : m < n) :
    ((ofText text).locate m).Before ((ofText text).locate n) := by
  obtain ⟨before, between, after, hne, rfl, rfl, rfl⟩ := Text.exists_between hm hn h
  have hlocate := locate_counted (before ++ between) after
  rw [List.append_assoc, Location.counted_append] at hlocate
  rw [locate_counted, hlocate]
  exact Location.before_advance _ hne

/-- **Locating by search is counting.** An offset past the end has the location of the end; between
two characters the line is one more than the newlines before the offset, and the column one more
than the characters since the last of them; and the boundaries of a text have their locations in
the order of reading, each its own. -/
theorem locate_counts (text : List Char) :
    (∀ offset, Text.byteLength text ≤ offset →
      (ofText text).locate offset = (ofText text).locate (Text.byteLength text)) ∧
    (∀ before after, text = before ++ after →
      (ofText text).locate (Text.byteLength before) = .counted before) ∧
    (∀ m n, Text.IsBoundary text m → Text.IsBoundary text n → m < n →
      ((ofText text).locate m).Before ((ofText text).locate n)) ∧
    (∀ m n, Text.IsBoundary text m → Text.IsBoundary text n → m ≠ n →
      (ofText text).locate m ≠ (ofText text).locate n) := by
  refine ⟨fun offset => locate_of_le, ?_, fun m n => before_of_lt, fun m n hm hn hne heq => ?_⟩
  · rintro before after rfl
    exact locate_counted before after
  · rcases Nat.lt_or_gt_of_ne hne with h | h
    · exact absurd (heq ▸ before_of_lt hm hn h) (Location.Before.irrefl _)
    · exact absurd (heq ▸ before_of_lt hn hm h) (Location.Before.irrefl _)

/-- Letters of two bytes with an empty line between them. -/
def accentedLines : List Char := "é\n\nü\n".toList

theorem locate_counts_accentedLines :
    (ofText accentedLines).locate 99 = (ofText accentedLines).locate 7 ∧
    (ofText accentedLines).locate 6 = ⟨3, 2⟩ ∧
    ((ofText accentedLines).locate 3).Before ((ofText accentedLines).locate 4) ∧
    (ofText accentedLines).locate 4 ≠ (ofText accentedLines).locate 3 := by
  have hblank : Text.IsBoundary accentedLines 3 := ⟨"é\n".toList, "\nü\n".toList, rfl, rfl⟩
  have hlast : Text.IsBoundary accentedLines 4 := ⟨"é\n\n".toList, "ü\n".toList, rfl, rfl⟩
  obtain ⟨hend, hcount, hlt, hne⟩ := locate_counts accentedLines
  exact ⟨hend 99 (by decide), hcount "é\n\nü".toList "\n".toList rfl,
    hlt 3 4 hblank hlast (by decide), hne 4 3 hlast hblank (by decide)⟩

end LineIndex
end Stencil
