/-!
# Texts

A text is a list of characters. Places in it are counted in bytes of UTF-8; it is cut at white space, at
a byte offset or at a character.
-/

/-!
## White space

The characters that carry the White_Space property, and what is cut by it: the blank ends of a text
and its first word.
-/

namespace Stencil.Text

/-- The White_Space property: six control characters and the separators. -/
def isBlank (c : Char) : Bool :=
  let n := c.toNat
  (9 ≤ n && n ≤ 13) || n == 0x20 || n == 0x85 || n == 0xA0 || n == 0x1680 ||
    (0x2000 ≤ n && n ≤ 0x200A) || n == 0x2028 || n == 0x2029 || n == 0x202F || n == 0x205F ||
    n == 0x3000

def trimStart (cs : List Char) : List Char := cs.dropWhile isBlank

def trimEnd (cs : List Char) : List Char := (cs.reverse.dropWhile isBlank).reverse

def trim (cs : List Char) : List Char := trimEnd (trimStart cs)

/-- The characters up to the first white space. -/
def leadingWord (cs : List Char) : List Char := cs.takeWhile (fun c => !isBlank c)

def afterLeadingWord (cs : List Char) : List Char := cs.dropWhile (fun c => !isBlank c)

theorem leadingWord_append_afterLeadingWord (cs : List Char) :
    leadingWord cs ++ afterLeadingWord cs = cs := List.takeWhile_append_dropWhile

/-!
## Byte offsets

Positions in a template are counted in the bytes of its UTF-8 form, while the text itself is a list of
characters. This file holds the measure (`byteLength`), cutting at a byte offset (`dropBytes`,
`takeBytes`, `slice`) and what it means for an offset to lie between two characters (`IsBoundary`).
-/

/-- The number of bytes of a text in UTF-8. -/
def byteLength : List Char → Nat
  | [] => 0
  | c :: cs => c.utf8Size + byteLength cs

@[simp] theorem byteLength_nil : byteLength [] = 0 := rfl

@[simp] theorem byteLength_cons (c : Char) (cs : List Char) :
    byteLength (c :: cs) = c.utf8Size + byteLength cs := rfl

@[simp] theorem byteLength_append (a b : List Char) :
    byteLength (a ++ b) = byteLength a + byteLength b := by
  induction a with
  | nil => simp
  | cons c cs ih => simp [ih, Nat.add_assoc]

/-- The text from byte `n` on; nothing when `n` is inside a character or past the end. -/
def dropBytes : List Char → Nat → Option (List Char)
  | cs, 0 => some cs
  | [], _ + 1 => none
  | c :: cs, n + 1 => if c.utf8Size ≤ n + 1 then dropBytes cs (n + 1 - c.utf8Size) else none

/-- The first `n` bytes of a text; nothing when `n` is inside a character or past the end. -/
def takeBytes : List Char → Nat → Option (List Char)
  | _, 0 => some []
  | [], _ + 1 => none
  | c :: cs, n + 1 =>
    if c.utf8Size ≤ n + 1 then (takeBytes cs (n + 1 - c.utf8Size)).map (c :: ·) else none

/-- The text between two byte offsets; nothing when either is no character boundary of the text. -/
def slice (text : List Char) (start stop : Nat) : Option (List Char) := do
  let rest ← dropBytes text start
  if start ≤ stop then takeBytes rest (stop - start) else none

/-- Byte offset `n` lies between two characters of the text, or at one of its ends. -/
def IsBoundary (text : List Char) (n : Nat) : Prop :=
  ∃ before after, text = before ++ after ∧ byteLength before = n

/-!
## Cutting at a character

`cut` gives the pieces between the occurrences of a separator. `joined_cut` says that nothing is lost,
and `not_mem_of_mem_cut` that no piece holds a separator. `cut_joined` is the converse: pieces without
separators are what their join is cut into.
-/

/-- The pieces of a text between separators. -/
def cut (separator : Char) : List Char → List (List Char)
  | [] => [[]]
  | c :: cs =>
    if c = separator then [] :: cut separator cs
    else match cut separator cs with
      | piece :: rest => (c :: piece) :: rest
      | [] => [[c]]

/-- Pieces with a separator between two. -/
def joined (separator : Char) : List (List Char) → List Char
  | [] => []
  | [piece] => piece
  | piece :: rest => piece ++ separator :: joined separator rest

theorem cut_ne_nil (separator : Char) (cs : List Char) : cut separator cs ≠ [] := by
  cases cs with
  | nil => simp [cut]
  | cons c cs =>
    simp only [cut]
    split
    · simp
    · split <;> simp

theorem joined_cut (separator : Char) (cs : List Char) :
    joined separator (cut separator cs) = cs := by
  induction cs with
  | nil => rfl
  | cons c cs ih =>
    simp only [cut]
    split
    · rename_i hc
      cases hs : cut separator cs with
      | nil => exact absurd hs (cut_ne_nil separator cs)
      | cons piece rest => rw [hs] at ih; simp [joined, ih, hc]
    · split
      · rename_i piece rest hs
        rw [hs] at ih
        cases rest with
        | nil => simp_all [joined]
        | cons p ps => simp_all [joined]
      · rename_i hs
        exact absurd hs (cut_ne_nil separator cs)

theorem not_mem_of_mem_cut {separator : Char} {cs piece : List Char}
    (h : piece ∈ cut separator cs) : separator ∉ piece := by
  induction cs generalizing piece with
  | nil => simp_all [cut]
  | cons c cs ih =>
    simp only [cut] at h
    split at h
    · rcases List.mem_cons.1 h with rfl | h
      · simp
      · exact ih h
    · rename_i hc
      split at h
      · rename_i first rest hs
        rw [hs] at ih
        rcases List.mem_cons.1 h with rfl | h
        · have := ih (List.mem_cons_self)
          simp_all [Ne.symm hc]
        · exact ih (List.mem_cons_of_mem _ h)
      · simp_all [Ne.symm hc]

theorem cut_of_not_mem {separator : Char} {cs : List Char} (h : separator ∉ cs) :
    cut separator cs = [cs] := by
  induction cs with
  | nil => rfl
  | cons c cs ih =>
    simp only [List.mem_cons, not_or] at h
    simp [cut, Ne.symm h.1, ih h.2]

/-- A separator cuts a text into the pieces before it and the pieces after it. -/
theorem cut_append (separator : Char) (before after : List Char) :
    cut separator (before ++ separator :: after) =
      cut separator before ++ cut separator after := by
  induction before with
  | nil => simp [cut]
  | cons c cs ih =>
    simp only [List.cons_append, cut, ih]
    split
    · rfl
    · cases hs : cut separator cs with
      | nil => exact absurd hs (cut_ne_nil separator cs)
      | cons piece rest => rfl

theorem cut_joined {separator : Char} :
    ∀ pieces : List (List Char), pieces ≠ [] → (∀ piece ∈ pieces, separator ∉ piece) →
      cut separator (joined separator pieces) = pieces
  | [], h, _ => absurd rfl h
  | [p], _, h => by simpa [joined] using cut_of_not_mem (h p (by simp))
  | p :: q :: rest, _, h => by
    have ih := cut_joined (q :: rest) (by simp) (fun x hx => h x (by simp [hx]))
    rw [joined, cut_append, ih, cut_of_not_mem (h p (by simp))]
    · rfl
    · simp

/-- Strings with a separator between two, as strings and as characters. -/
theorem toList_intercalate {separator : String} {c : Char} (hc : separator.toList = [c]) :
    ∀ names : List String,
      (separator.intercalate names).toList = joined c (names.map String.toList)
  | [] => rfl
  | [n] => by simp [joined]
  | n :: m :: names => by
    have ih := toList_intercalate hc (m :: names)
    have hjoined : joined c (n.toList :: m.toList :: names.map String.toList) =
        n.toList ++ c :: joined c (m.toList :: names.map String.toList) := rfl
    simp only [String.toList_intercalate, hc, List.map_cons] at ih ⊢
    rw [List.intercalate_cons_cons, ih, hjoined, List.append_assoc, List.singleton_append]

end Stencil.Text
