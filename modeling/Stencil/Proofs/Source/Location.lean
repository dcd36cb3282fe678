import Stencil.Source

/-!
# Locations in a longer text

The binary search finds the last line that starts at or before an offset (`bisect_eq_countP`). What
follows a text does not change where its offsets are (`locate_append`), and the location of an offset
is the one that counting along the text before it leads to (`locate_byteLength`).
-/
namespace Stencil

namespace Text

/-! ## Cutting a longer text -/

theorem dropBytes_append : ∀ (a b : List Char) (n : Nat), n ≤ byteLength a →
    dropBytes (a ++ b) n = (dropBytes a n).map (· ++ b)
  | a, b, 0, _ => by simp [dropBytes]
  | [], b, n + 1, h => by simp at h
  | c :: cs, b, n + 1, h => by
    rw [byteLength_cons] at h
    have ih := dropBytes_append cs b (n + 1 - c.utf8Size) (by omega)
    rw [List.cons_append, dropBytes, dropBytes]
    split
    · exact ih
    · rfl

/-- All of a text is cut off at its length. -/
theorem dropBytes_byteLength : ∀ a b : List Char, dropBytes (a ++ b) (byteLength a) = some b
  | [], b => by simp [dropBytes]
  | c :: cs, b => by
    obtain ⟨n, hn⟩ := Nat.exists_eq_succ_of_ne_zero (Nat.ne_of_gt c.utf8Size_pos)
    have ih := dropBytes_byteLength cs b
    rw [List.cons_append, byteLength_cons, hn, Nat.succ_add, dropBytes, hn, if_pos (by omega)]
    rwa [show n + byteLength cs + 1 - n.succ = byteLength cs by omega]

/-- All of a text is taken at its length. -/
theorem takeBytes_byteLength : ∀ a b : List Char, takeBytes (a ++ b) (byteLength a) = some a
  | [], b => by simp [takeBytes]
  | c :: cs, b => by
    obtain ⟨n, hn⟩ := Nat.exists_eq_succ_of_ne_zero (Nat.ne_of_gt c.utf8Size_pos)
    have ih := takeBytes_byteLength cs b
    rw [List.cons_append, byteLength_cons, hn, Nat.succ_add, takeBytes, hn, if_pos (by omega)]
    rw [show n + byteLength cs + 1 - n.succ = byteLength cs by omega, ih, Option.map_some]

theorem takeBytes_append : ∀ (a b : List Char) (n : Nat), n ≤ byteLength a →
    takeBytes (a ++ b) n = takeBytes a n
  | a, b, 0, _ => by simp [takeBytes]
  | [], b, n + 1, h => by simp at h
  | c :: cs, b, n + 1, h => by
    rw [byteLength_cons] at h
    have ih := takeBytes_append cs b (n + 1 - c.utf8Size) (by omega)
    rw [List.cons_append, takeBytes, takeBytes, ih]

theorem byteLength_of_dropBytes : ∀ {cs rest : List Char} {n : Nat},
    dropBytes cs n = some rest → n + byteLength rest = byteLength cs
  | cs, rest, 0, h => by
    obtain rfl : cs = rest := by simpa [dropBytes] using h
    exact Nat.zero_add _
  | [], rest, n + 1, h => by simp [dropBytes] at h
  | c :: cs, rest, n + 1, h => by
    rw [dropBytes] at h
    split at h
    · have ih := byteLength_of_dropBytes h
      rw [byteLength_cons]
      omega
    · cases h

theorem slice_append {a : List Char} (b : List Char) {start stop : Nat}
    (h : stop ≤ byteLength a) (hs : start ≤ stop) :
    slice (a ++ b) start stop = slice a start stop := by
  rw [slice, slice, dropBytes_append a b start (by omega)]
  cases hd : dropBytes a start with
  | none => rfl
  | some rest =>
    have hlength := byteLength_of_dropBytes hd
    simp only [Option.map_some, Option.bind_eq_bind, Option.bind_some, if_pos hs]
    exact takeBytes_append rest b (stop - start) (by omega)

end Text

namespace Location

theorem advance_append (l : Location) : ∀ a b : List Char,
    l.advance (a ++ b) = (l.advance a).advance b := by
  intro a
  induction a generalizing l with
  | nil => exact fun b => rfl
  | cons c cs ih => exact fun b => ih _ b

end Location

namespace LineIndex

/-! ## The search -/

/-- The search ends at a start that is at or before the offset and whose successor is not. -/
theorem bisect_spec (starts : Array Nat) {offset : Nat} (size lo hi : Nat) (hlt : lo < hi)
    (hlo : starts.getD lo 0 ≤ offset)
    (hhi : hi ≤ size ∧ (hi < size → offset < starts.getD hi 0)) :
    bisect starts offset lo hi < size ∧
      starts.getD (bisect starts offset lo hi) 0 ≤ offset ∧
      (bisect starts offset lo hi + 1 < size →
        offset < starts.getD (bisect starts offset lo hi + 1) 0) := by
  induction lo, hi using bisect.induct starts offset with
  | case1 lo hi hgap mid hmid ih =>
    rw [bisect, if_pos hgap, if_pos hmid]
    exact ih (by omega) hmid hhi
  | case2 lo hi hgap mid hmid ih =>
    rw [bisect, if_pos hgap, if_neg hmid]
    exact ih (by omega) hlo ⟨by omega, fun _ => by omega⟩
  | case3 lo hi hgap =>
    obtain rfl : hi = lo + 1 := by omega
    rw [bisect, if_neg hgap]
    exact ⟨by omega, hlo, hhi.2⟩

theorem countP_eq_of_pairwise {offset : Nat} : ∀ {starts : List Nat} {i : Nat},
    starts.Pairwise (· < ·) → i < starts.length → starts.getD i 0 ≤ offset →
    (i + 1 < starts.length → offset < starts.getD (i + 1) 0) →
    starts.countP (· ≤ offset) = i + 1
  | [], i, _, hi, _, _ => by simp at hi
  | s :: starts, 0, hp, _, hs, hn => by
    have hs : s ≤ offset := by simpa using hs
    have hrest : starts.countP (· ≤ offset) = 0 := by
      rw [List.countP_eq_zero]
      intro t ht
      -- the second start is behind the offset, and all others are behind it
      cases starts with
      | nil => simp at ht
      | cons r starts =>
        have hr : offset < r := by simpa using hn
        rcases List.mem_cons.1 ht with rfl | ht
        · simpa using hr
        · have := (List.pairwise_cons.1 (List.pairwise_cons.1 hp).2).1 t ht
          simp only [decide_eq_true_eq]
          omega
    simp [hs, hrest]
  | s :: starts, i + 1, hp, hi, hs, hn => by
    have hi : i < starts.length := by simpa using hi
    have hs : starts.getD i 0 ≤ offset := by simpa using hs
    have ih := countP_eq_of_pairwise (List.pairwise_cons.1 hp).2 hi hs
      (fun h => by simpa using hn (by simpa using h))
    have hmem : starts.getD i 0 ∈ starts := by
      simp [List.getD_eq_getElem?_getD, List.getElem?_eq_getElem hi]
    have hlt : s < starts.getD i 0 := (List.pairwise_cons.1 hp).1 _ hmem
    have hle : s ≤ offset := by omega
    simp [hle, ih]

/-- **The search finds the last start at or before the offset**: all starts up to it are, and no
other. -/
theorem bisect_eq_countP {starts : List Nat} {offset : Nat} (hp : starts.Pairwise (· < ·))
    (hn : starts ≠ []) (h0 : starts.getD 0 0 ≤ offset) :
    bisect starts.toArray offset 0 starts.length + 1 = starts.countP (· ≤ offset) := by
  have hlength : 0 < starts.length := List.length_pos_iff.2 hn
  obtain ⟨hi, hle, hlt⟩ := bisect_spec starts.toArray starts.length 0
    starts.length hlength (by simpa using h0) ⟨Nat.le_refl _, fun h => absurd h (Nat.lt_irrefl _)⟩
  exact (countP_eq_of_pairwise hp hi (by simpa using hle) (by simpa using hlt)).symm

/-! ## Lines of a longer text -/

theorem lt_of_mem_startsFrom {s : Nat} : ∀ {offset : Nat} {cs : List Char},
    s ∈ startsFrom offset cs → offset < s
  | offset, [], h => by simp [startsFrom] at h
  | offset, c :: cs, h => by
    have hc := c.utf8Size_pos
    rw [startsFrom] at h
    split at h
    · rcases List.mem_cons.1 h with rfl | h
      · omega
      · have := lt_of_mem_startsFrom h
        omega
    · have := lt_of_mem_startsFrom h
      omega

theorem pairwise_startsFrom : ∀ (offset : Nat) (cs : List Char),
    (startsFrom offset cs).Pairwise (· < ·)
  | offset, [] => List.Pairwise.nil
  | offset, c :: cs => by
    rw [startsFrom]
    split
    · exact List.pairwise_cons.2
        ⟨fun s hs => lt_of_mem_startsFrom hs, pairwise_startsFrom _ cs⟩
    · exact pairwise_startsFrom _ cs

theorem startsFrom_append (offset : Nat) : ∀ a b : List Char,
    startsFrom offset (a ++ b) =
      startsFrom offset a ++ startsFrom (offset + Text.byteLength a) b := by
  intro a b
  induction a generalizing offset with
  | nil => rfl
  | cons c cs ih =>
    rw [List.cons_append, startsFrom, startsFrom, ih, Text.byteLength_cons, Nat.add_assoc]
    split <;> rfl

/-- The starts of the lines of a text. -/
def lineStarts (text : List Char) : List Nat := 0 :: startsFrom 0 text

theorem pairwise_lineStarts (text : List Char) : (lineStarts text).Pairwise (· < ·) :=
  List.pairwise_cons.2 ⟨fun _ hs => lt_of_mem_startsFrom hs, pairwise_startsFrom 0 text⟩

/-- The line of an offset, counted from zero. -/
def lineOf (text : List Char) (offset : Nat) : Nat :=
  bisect (ofText text).starts offset 0 (ofText text).starts.size

/-- Where the line of an offset starts. -/
def lineStart (text : List Char) (offset : Nat) : Nat :=
  (ofText text).starts.getD (lineOf text offset) 0

theorem lineOf_add_one (text : List Char) (offset : Nat) :
    lineOf text offset + 1 = (lineStarts text).countP (· ≤ offset) :=
  bisect_eq_countP (pairwise_lineStarts text) (List.cons_ne_nil _ _) (Nat.zero_le _)

theorem lineOf_lt (text : List Char) (offset : Nat) :
    lineOf text offset < (lineStarts text).length := by
  have h := List.countP_le_length (p := (· ≤ offset)) (l := lineStarts text)
  rw [← lineOf_add_one] at h
  exact h

theorem lineStart_le (text : List Char) (offset : Nat) : lineStart text offset ≤ offset :=
  (bisect_spec (ofText text).starts (ofText text).starts.size 0 _ (by simp [ofText]) (Nat.zero_le _)
    ⟨Nat.le_refl _, fun h => absurd h (Nat.lt_irrefl _)⟩).2.1

theorem lineStarts_append (a b : List Char) :
    lineStarts (a ++ b) = lineStarts a ++ startsFrom (Text.byteLength a) b := by
  rw [lineStarts, startsFrom_append, Nat.zero_add]
  rfl

theorem lineOf_append {a : List Char} (b : List Char) {offset : Nat}
    (h : offset ≤ Text.byteLength a) : lineOf (a ++ b) offset = lineOf a offset := by
  have hb : (startsFrom (Text.byteLength a) b).countP (· ≤ offset) = 0 := by
    rw [List.countP_eq_zero]
    intro s hs
    have := lt_of_mem_startsFrom hs
    simp only [decide_eq_true_eq]
    omega
  have hcount := lineOf_add_one (a ++ b) offset
  rw [lineStarts_append, List.countP_append, hb, Nat.add_zero, ← lineOf_add_one] at hcount
  omega

theorem lineStart_append {a : List Char} (b : List Char) {offset : Nat}
    (h : offset ≤ Text.byteLength a) : lineStart (a ++ b) offset = lineStart a offset := by
  have hlt := lineOf_lt a offset
  have hget : (lineStarts (a ++ b)).getD (lineOf a offset) 0 =
      (lineStarts a).getD (lineOf a offset) 0 := by
    simp only [lineStarts_append, List.getD_eq_getElem?_getD, List.getElem?_append_left hlt]
  rw [lineStart, lineOf_append b h]
  simpa [lineStart, ofText, lineStarts] using hget

theorem locate_eq {text : List Char} {offset : Nat} (h : offset ≤ Text.byteLength text) :
    (ofText text).locate offset = ⟨lineOf text offset + 1,
      (match Text.slice text (lineStart text offset) offset with
        | some cs => cs.length
        | none => offset - lineStart text offset) + 1⟩ := by
  have hmin : min offset (ofText text).size = offset := Nat.min_eq_left h
  rw [locate, hmin]
  rfl

/-- **What follows a text does not move its lines and columns.** -/
theorem locate_append {a : List Char} (b : List Char) {offset : Nat}
    (h : offset ≤ Text.byteLength a) :
    (ofText (a ++ b)).locate offset = (ofText a).locate offset := by
  have hab : offset ≤ Text.byteLength (a ++ b) := by
    rw [Text.byteLength_append]
    omega
  rw [locate_eq h, locate_eq hab, lineOf_append b h, lineStart_append b h,
    Text.slice_append b h (lineStart_le a offset)]

/-! ## Counting lines -/

/-- Where the text ends: its last line is what stands behind the last start, and counting along the
text leads to as many lines as there are starts. -/
structure EndsAt (text line : List Char) : Prop where
  split : ∃ front, text = front ++ line ∧
    (lineStarts text).getLast? = some (Text.byteLength front)
  after : Location.after text = ⟨(lineStarts text).length, line.length + 1⟩

theorem EndsAt.nil : EndsAt [] [] := ⟨⟨[], rfl, rfl⟩, rfl⟩

/-- One more character begins a line or makes the last one longer. -/
theorem EndsAt.snoc {text line : List Char} (h : EndsAt text line) (c : Char) :
    EndsAt (text ++ [c]) (if c = '\n' then [] else line ++ [c]) := by
  obtain ⟨⟨front, htext, hlast⟩, hafter⟩ := h
  have hcount : Location.after (text ++ [c]) = (Location.after text).advance [c] :=
    Location.advance_append _ text [c]
  rw [hafter] at hcount
  have hstarts := lineStarts_append text [c]
  by_cases hc : c = '\n'
  · rw [startsFrom, if_pos hc, startsFrom] at hstarts
    rw [if_pos hc]
    refine ⟨⟨text ++ [c], by simp, ?_⟩, ?_⟩
    · rw [hstarts, List.getLast?_append, List.getLast?_singleton, Option.some_or,
        Text.byteLength_append, Text.byteLength_cons, Text.byteLength_nil, Nat.add_zero]
    · rw [hcount, hstarts]
      simp [Location.advance, hc]
  · rw [startsFrom, if_neg hc, startsFrom, List.append_nil] at hstarts
    rw [if_neg hc]
    refine ⟨⟨front, by simp [htext], by rw [hstarts, hlast]⟩, ?_⟩
    rw [hcount, hstarts]
    simp [Location.advance, hc]

theorem exists_endsAt (text : List Char) : ∃ line, EndsAt text line := by
  suffices h : ∀ after before line, EndsAt before line → ∃ line, EndsAt (before ++ after) line by
    simpa using h text [] [] .nil
  intro after
  induction after with
  | nil => exact fun before line h => ⟨line, by simpa using h⟩
  | cons c after ih => exact fun before line h => by simpa using ih _ _ (h.snoc c)

theorem le_of_mem_startsFrom {s : Nat} : ∀ {offset : Nat} {cs : List Char},
    s ∈ startsFrom offset cs → s ≤ offset + Text.byteLength cs
  | offset, [], h => by simp [startsFrom] at h
  | offset, c :: cs, h => by
    rw [Text.byteLength_cons, ← Nat.add_assoc]
    rw [startsFrom] at h
    split at h
    · rcases List.mem_cons.1 h with rfl | h
      · exact Nat.le_add_right _ _
      · exact le_of_mem_startsFrom h
    · exact le_of_mem_startsFrom h

/-- The end of a text is in its last line. -/
theorem lineOf_byteLength (text : List Char) :
    lineOf text (Text.byteLength text) + 1 = (lineStarts text).length := by
  rw [lineOf_add_one, List.countP_eq_length]
  intro s hs
  rcases List.mem_cons.1 hs with rfl | hs
  · simp
  · simpa using le_of_mem_startsFrom hs

/-- **The location of an offset is counted along the text before it.** -/
theorem locate_byteLength (before after : List Char) :
    (ofText (before ++ after)).locate (Text.byteLength before) = Location.after before := by
  obtain ⟨line, ⟨front, htext, hlast⟩, hafter⟩ := exists_endsAt before
  have hline := lineOf_byteLength before
  have hstart : lineStart before (Text.byteLength before) = Text.byteLength front := by
    rw [List.getLast?_eq_getElem?, ← hline, Nat.add_sub_cancel] at hlast
    have hget : (ofText before).starts[lineOf before (Text.byteLength before)]? =
        some (Text.byteLength front) := by simpa [ofText, lineStarts] using hlast
    rw [lineStart, Array.getD_eq_getD_getElem?, hget, Option.getD_some]
  have hslice : Text.slice before (Text.byteLength front) (Text.byteLength before) = some line := by
    have htake := Text.takeBytes_byteLength line []
    rw [List.append_nil] at htake
    rw [htext, Text.slice, Text.dropBytes_byteLength, Text.byteLength_append]
    simp [htake]
  rw [locate_append after (Nat.le_refl _), locate_eq (Nat.le_refl _), hstart, hslice, hline, hafter]

end LineIndex
end Stencil
