import Stencil.Proofs.Document.Tags
import Stencil.Proofs.Expr.Nesting

/-!
# Nested tags

What is read from the words of a tag stands where they do: the variable and the expression of a loop
(`row_of_loopHeader`), and the name, the arguments and the keywords of a custom tag (`row_of_call`).
-/
namespace Stencil

open Places (leaf)

namespace Tag

open TagWords (Word InOrder)

section
variable {source text : List Char} {base : Nat}

theorem nested_wordSpan {w : Word} (hat : Text.At source (base + w.offset) w.text)
    (hn : w.text ≠ []) : (leaf (wordSpan base w)).Nested source :=
  Places.nested_leaf.2 (hat.proper hn)

/-! ## Loops -/

theorem textFrom_append (before rest : List Char) :
    textFrom (before ++ rest) (Text.byteLength before) = rest := by
  rw [textFrom, Text.dropBytes_byteLength, Option.getD_some]

/-- The rest of a text from where it holds another. -/
theorem at_textFrom {offset : Nat} {w : List Char} (h : Text.At text offset w) :
    Text.At text offset (textFrom text offset) ∧
      offset + Text.byteLength (textFrom text offset) = Text.byteLength text := by
  obtain ⟨before, after, rfl, rfl⟩ := h
  rw [textFrom_append, Text.byteLength_append before]
  exact ⟨⟨before, [], by simp, rfl⟩, rfl⟩

/-- **The variable of a loop stands before its expression, both in the text of the tag.** -/
theorem row_of_loopHeader {content : Located (List Char)} {x : Ident} {e : Expr}
    (hat : Text.At source content.span.start content.value) (h : loopHeader content = .ok (x, e)) :
    Row source content.span.start (content.span.start + Text.byteLength content.value)
      [leaf x.span, e.places] := by
  obtain ⟨target, keyword, iterable, rest, hw, -, -, he, rfl⟩ := words_of_loopHeader h
  obtain ⟨-, htarget, htargetAt, htk, -, -, hki, -, hiterable, -⟩ := TagWords.split_inOrder hw
  obtain ⟨hrest, hlength⟩ := at_textFrom hiterable
  have hexpr := Expr.row_of_readAt (hat.trans hrest) he
  rw [Nat.add_assoc, hlength] at hexpr
  refine ⟨Nat.le_add_right _ _, nested_wordSpan (hat.trans htargetAt) htarget, ?_⟩
  refine hexpr.mono ?_ (Nat.le_refl _)
  simp only [Places.span_leaf, wordSpan]
  omega

/-! ## Custom tags -/

theorem row_placed : ∀ {offset : Nat} {parts : List (List Char)},
    Text.At source offset (Text.joined '.' parts) → (∀ p ∈ parts, p ≠ []) →
    Row source offset (offset + Text.byteLength (Text.joined '.' parts))
      ((placed offset parts).map fun p => leaf ⟨p.1, p.1 + Text.byteLength p.2⟩)
  | offset, [], _, _ => Nat.le_refl offset
  | offset, [p], hat, hn =>
    ⟨Nat.le_refl _, Places.nested_leaf.2 (hat.proper (hn p (by simp))), Nat.le_refl _⟩
  | offset, p :: q :: ps, hat, hn => by
    have hdot : Char.utf8Size '.' = 1 := rfl
    obtain ⟨hp, hps⟩ := List.forall_mem_cons.1 hn
    have hjoined : Text.joined '.' (p :: q :: ps) =
        (p ++ ['.']) ++ Text.joined '.' (q :: ps) := by simp [Text.joined]
    rw [hjoined] at hat ⊢
    have hrest := row_placed hat.right hps
    rw [Text.byteLength_append, Text.byteLength_append, Text.byteLength_cons, hdot,
      Text.byteLength_nil, Nat.add_zero, ← Nat.add_assoc, ← Nat.add_assoc] at *
    exact ⟨Nat.le_refl _, Places.nested_leaf.2 (hat.left.left.proper hp),
      hrest.mono (Nat.le_add_right _ 1) (Nat.le_refl _)⟩

theorem row_of_tagName {head : Word} {name : DottedName}
    (hat : Text.At source (base + head.offset) head.text) (h : tagName base head = .ok name) :
    Row source (base + head.offset) (base + head.offset + Text.byteLength head.text)
      name.places := by
  unfold tagName at h
  dsimp only at h
  split at h
  · rename_i hall
    cases h
    have hparts : ∀ p ∈ Text.cut '.' head.text, p ≠ [] := by
      rw [← placed_snd (base + head.offset) (Text.cut '.' head.text), List.forall_mem_map]
      rintro p hp hnil
      have hvalid := List.all_eq_true.1 hall p hp
      rw [hnil] at hvalid
      cases hvalid
    have hrow := row_placed (by rwa [Text.joined_cut]) hparts
    rw [Text.joined_cut] at hrow
    simpa [DottedName.places, dotParts, Function.comp_def] using hrow
  · cases h

/-- A keyword stands at the start of its word, and its value behind the `=`. -/
theorem at_of_keywordParts? {start : Nat} {word name value : List Char}
    (hat : Text.At source start word) (h : keywordParts? word = some (name, value)) :
    Text.At source start name ∧ Text.At source (start + Text.byteLength name + 1) value := by
  have hone : Char.utf8Size '=' = 1 := rfl
  have hsplit : word = (name ++ ['=']) ++ value := by simpa using (eq_of_keywordParts? h).1
  rw [hsplit] at hat
  have hvalue := hat.right
  rw [Text.byteLength_append, Text.byteLength_cons, Text.byteLength_nil, hone,
    ← Nat.add_assoc] at hvalue
  exact ⟨hat.left.left, hvalue⟩

/-- Arguments are added behind those that were read. -/
theorem row_arguments (hat : Text.At source base text) {a : Nat}
    {r : List Expr × List (Ident × Expr)} : ∀ {ws : List Word} {args : List Expr}
      {ks : List (Ident × Expr)} {m : Nat}, arguments base args ks ws = .ok r →
      InOrder text m ws → Row source a (base + m) (placesAll args ++ keywordPlaces ks) →
      Row source a (base + Text.byteLength text) (placesAll r.1 ++ keywordPlaces r.2)
  | [], args, ks, m, h, hm, hrow => by
    cases h
    exact hrow.mono (Nat.le_refl a) (Nat.add_le_add_left hm base)
  | w :: ws, args, ks, m, h, ⟨hm, hn, hw, hws⟩, hrow => by
    have hword := hat.trans hw
    rcases arguments_cons h with ⟨name, value, e, hp, hk, he, h⟩ | ⟨e, hp, rfl, he, h⟩
    · obtain ⟨-, hvalid⟩ := eq_of_keywordParts? hp
      have hname : name ≠ [] := fun hnil => by rw [hnil] at hvalid; cases hvalid
      have hlength := byteLength_of_keywordParts? hp
      obtain ⟨hkeyword, hvalue⟩ := at_of_keywordParts? hword hp
      have hkey := Places.nested_leaf.2 (hkeyword.proper hname)
      have hexpr := Expr.row_of_readAt hvalue he
      have hadded : Row source (base + m) (base + (w.offset + Text.byteLength w.text))
          [leaf ⟨base + w.offset, base + w.offset + Text.byteLength name⟩, e.places] :=
        ⟨Nat.add_le_add_left hm base, hkey, hexpr.mono (Nat.le_add_right _ 1) (by omega)⟩
      refine row_arguments hat h hws ?_
      simpa [keywordPlaces_append, keywordPlaces] using hrow.append hadded
    · have hexpr := Expr.row_of_readAt hword he
      rw [Nat.add_assoc] at hexpr
      refine row_arguments hat h hws ?_
      have hargs := hrow.append (hexpr.mono (Nat.add_le_add_left hm base) (Nat.le_refl _))
      simpa [placesAll_append, placesAll, keywordPlaces] using hargs

/-- **The name, the arguments and the keywords of a custom tag stand in its text in order.** -/
theorem row_of_call {content : Located (List Char)} {c : Call}
    (hat : Text.At source content.span.start content.value) (h : call content = .ok c) :
    Row source content.span.start (content.span.start + Text.byteLength content.value)
      (c.name.places ++ (placesAll c.args ++ keywordPlaces c.keywords)) := by
  obtain ⟨head, rest, hw, hname, hargs⟩ := words_of_call h
  obtain ⟨-, -, hhead, hrest⟩ := TagWords.split_inOrder hw
  have hname := row_of_tagName (hat.trans hhead) hname
  rw [Nat.add_assoc] at hname
  have hrow := row_arguments hat hargs hrest (Nat.le_refl _)
  exact (hname.mono (Nat.le_add_right _ _) (Nat.le_refl _)).append hrow

end
end Tag
end Stencil
