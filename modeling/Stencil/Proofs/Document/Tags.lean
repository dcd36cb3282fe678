import Stencil.Document.Read
import Stencil.Proofs.Document.Words
import Stencil.Proofs.Expr.Place

/-!
# Reading tags

What the text of a tag is read as moves with the text (`loopHeader_shift`, `call_shift`), and each
of its expressions is read from a text of its own (`isRead_of_loopHeader`, `isRead_of_call`).
-/
namespace Stencil

theorem mapSpans_eq_map (f : Span → Span) : ∀ es : List Expr,
    mapSpans f es = es.map (Expr.mapSpan f)
  | [] => rfl
  | e :: es => by rw [mapSpans, mapSpans_eq_map f es, List.map_cons]

theorem mapKeywordSpans_eq_map (f : Span → Span) : ∀ ks : List (Ident × Expr),
    mapKeywordSpans f ks = ks.map fun k => (k.1.mapSpan f, k.2.mapSpan f)
  | [] => rfl
  | (i, e) :: ks => by rw [mapKeywordSpans, mapKeywordSpans_eq_map f ks, List.map_cons]

theorem mapSpans_append (f : Span → Span) (a b : List Expr) :
    mapSpans f (a ++ b) = mapSpans f a ++ mapSpans f b := by
  simp only [mapSpans_eq_map, List.map_append]

theorem mapKeywordSpans_append (f : Span → Span) (a b : List (Ident × Expr)) :
    mapKeywordSpans f (a ++ b) = mapKeywordSpans f a ++ mapKeywordSpans f b := by
  simp only [mapKeywordSpans_eq_map, List.map_append]

theorem bind_eq_ok_iff {ε α β : Type} {x : Except ε α} {f : α → Except ε β} {b : β} :
    x >>= f = .ok b ↔ ∃ a, x = .ok a ∧ f a = .ok b := by
  cases x <;> simp [bind, Except.bind]

theorem bind_eq_error_iff {ε α β : Type} {x : Except ε α} {f : α → Except ε β} {e : ε} :
    x >>= f = .error e ↔ x = .error e ∨ ∃ a, x = .ok a ∧ f a = .error e := by
  cases x <;> simp [bind, Except.bind]

/-- The expression is read from a text, at some place. -/
def Expr.IsRead (e : Expr) : Prop := ∃ base text, readAt base text = .ok e

namespace Tag

open TagWords (Word)

/-! ## The parts of a tag -/

theorem words_eq_ok_iff {content : Located (List Char)} {ws : List Word} :
    words content = .ok ws ↔ TagWords.split content.value = .ok ws := by
  rw [words]
  cases TagWords.split content.value <;> simp

/-- The text from the byte at `offset` on. -/
def textFrom (content : List Char) (offset : Nat) : List Char :=
  (Text.dropBytes content offset).getD []

/-- A loop tag consists of a name, `in` and an expression up to its end. -/
theorem loopHeader_of_words {content : Located (List Char)} {target keyword iterable : Word}
    {rest : List Word} {e : Expr}
    (hw : TagWords.split content.value = .ok (target :: keyword :: iterable :: rest))
    (hk : keyword.text = "in".toList) (ht : Identifier.isValid target.text = true)
    (he : Expr.readAt (content.span.start + iterable.offset)
      (textFrom content.value iterable.offset) = .ok e) :
    loopHeader content =
      .ok (⟨String.ofList target.text, wordSpan content.span.start target⟩, e) := by
  unfold loopHeader
  rw [words_eq_ok_iff.2 hw]
  simp only [bind, Except.bind, if_pos hk, if_pos ht]
  rw [textFrom] at he
  rw [he]

theorem words_of_loopHeader {content : Located (List Char)} {x : Ident} {e : Expr}
    (h : loopHeader content = .ok (x, e)) : ∃ target keyword iterable rest,
      TagWords.split content.value = .ok (target :: keyword :: iterable :: rest) ∧
      keyword.text = "in".toList ∧ Identifier.isValid target.text = true ∧
      Expr.readAt (content.span.start + iterable.offset)
        (textFrom content.value iterable.offset) = .ok e ∧
      x = ⟨String.ofList target.text, wordSpan content.span.start target⟩ := by
  unfold loopHeader at h
  dsimp only at h
  obtain ⟨ws, hw, h⟩ := bind_eq_ok_iff.1 h
  rw [words_eq_ok_iff] at hw
  split at h
  · rename_i target keyword rest
    split at h
    · rename_i hk
      split at h
      · cases h
      · rename_i iterable rest
        split at h
        · rename_i ht
          obtain ⟨e', he, h⟩ := bind_eq_ok_iff.1 h
          cases h
          exact ⟨target, keyword, iterable, rest, hw, hk, ht, he, rfl⟩
        · cases h
    · cases h
  · cases h

theorem wordSpan_shift (n base : Nat) (w : Word) :
    wordSpan (n + base) w = (wordSpan base w).relocate (n + ·) := by
  simp [wordSpan, Nat.add_assoc]

/-! ## Loops -/

theorem loopHeader_shift (n : Nat) {content : Located (List Char)} {x : Ident} {e : Expr}
    (h : loopHeader content = .ok (x, e)) :
    loopHeader (content.relocate (n + ·)) =
      .ok (x.mapSpan (Span.relocate (n + ·)), e.relocate (n + ·)) := by
  obtain ⟨target, keyword, iterable, rest, hw, hk, ht, he, rfl⟩ := words_of_loopHeader h
  have hshift := Expr.readAt_shift n (content.span.start + iterable.offset)
    (textFrom content.value iterable.offset)
  rw [he, ← Nat.add_assoc] at hshift
  have hmoved : loopHeader (content.relocate (n + ·)) = _ := loopHeader_of_words hw hk ht hshift
  rw [hmoved, Located.span_relocate, Span.start_relocate, wordSpan_shift]
  rfl

theorem isRead_of_loopHeader {content : Located (List Char)} {x : Ident} {e : Expr}
    (h : loopHeader content = .ok (x, e)) : e.IsRead := by
  obtain ⟨target, keyword, iterable, rest, hw, hk, ht, he, rfl⟩ := words_of_loopHeader h
  exact ⟨_, _, he⟩

/-! ## Custom tags -/

theorem placed_shift (n : Nat) : ∀ (offset : Nat) (parts : List (List Char)),
    placed (n + offset) parts = (placed offset parts).map fun p => (n + p.1, p.2)
  | offset, [] => rfl
  | offset, p :: ps => by
    simp only [placed, List.map_cons, Nat.add_assoc, ← placed_shift n]

theorem placed_snd : ∀ (offset : Nat) (parts : List (List Char)),
    (placed offset parts).map Prod.snd = parts
  | offset, [] => rfl
  | offset, p :: ps => by simp only [placed, List.map_cons, placed_snd]

theorem tagName_shift (n : Nat) {base : Nat} {head : Word} {name : DottedName}
    (h : tagName base head = .ok name) :
    tagName (n + base) head = .ok (name.mapSpan (Span.relocate (n + ·))) := by
  unfold tagName dotParts at h ⊢
  rw [Nat.add_assoc n base, placed_shift n]
  simp only [List.all_map, Function.comp_def, List.map_map] at h ⊢
  split at h
  · rename_i hall
    cases h
    rw [if_pos hall]
    simp [DottedName.mapSpan, Ident.mapSpan, Nat.add_assoc]
  · cases h

/-- The first argument: a keyword, or a positional one before all keywords. -/
theorem arguments_cons {base : Nat} {args : List Expr} {ks : List (Ident × Expr)} {w : Word}
    {ws : List Word} {r : List Expr × List (Ident × Expr)}
    (h : arguments base args ks (w :: ws) = .ok r) :
    (∃ name value e, keywordParts? w.text = some (name, value) ∧
      ks.any (fun k => k.1.name == String.ofList name) = false ∧
      Expr.readAt (base + w.offset + Text.byteLength name + 1) value = .ok e ∧
      arguments base args (ks ++ [(⟨String.ofList name,
        ⟨base + w.offset, base + w.offset + Text.byteLength name⟩⟩, e)]) ws = .ok r) ∨
    (∃ e, keywordParts? w.text = none ∧ ks = [] ∧
      Expr.readAt (base + w.offset) w.text = .ok e ∧
      arguments base (args ++ [e]) ks ws = .ok r) := by
  rw [arguments] at h
  dsimp only at h
  split at h
  · rename_i name value hp
    split at h
    · cases h
    · rename_i hk
      obtain ⟨e, he, h⟩ := bind_eq_ok_iff.1 h
      exact Or.inl ⟨name, value, e, hp, by simpa using hk, he, h⟩
  · rename_i hp
    split at h
    · rename_i hk
      obtain ⟨e, he, h⟩ := bind_eq_ok_iff.1 h
      exact Or.inr ⟨e, hp, List.isEmpty_iff.1 hk, he, h⟩
    · cases h

theorem arguments_shift (n : Nat) {base : Nat} {r : List Expr × List (Ident × Expr)} :
    ∀ {ws : List Word} {args : List Expr} {ks : List (Ident × Expr)},
      arguments base args ks ws = .ok r →
      arguments (n + base) (mapSpans (Span.relocate (n + ·)) args)
        (mapKeywordSpans (Span.relocate (n + ·)) ks) ws =
        .ok (mapSpans (Span.relocate (n + ·)) r.1, mapKeywordSpans (Span.relocate (n + ·)) r.2)
  | [], args, ks, h => by
    cases h
    rfl
  | w :: ws, args, ks, h => by
    rcases arguments_cons h with ⟨name, value, e, hp, hk, he, h⟩ | ⟨e, hp, rfl, he, h⟩
    · have ih := arguments_shift n h
      have hread := Expr.readAt_shift n (base + w.offset + Text.byteLength name + 1) value
      rw [he] at hread
      simp only [← Nat.add_assoc] at hread
      have hkeys : (mapKeywordSpans (Span.relocate (n + ·)) ks).any
          (fun k => k.1.name == String.ofList name) = false := by
        rw [mapKeywordSpans_eq_map, List.any_map]
        exact hk
      rw [arguments, hp]
      dsimp only
      rw [if_neg (by simp [hkeys]), hread]
      rw [mapKeywordSpans_append] at ih
      simp only [mapKeywordSpans, Ident.mapSpan, Span.relocate_mk, ← Nat.add_assoc] at ih
      exact ih
    · have ih := arguments_shift n h
      have hread := Expr.readAt_shift n (base + w.offset) w.text
      rw [he, ← Nat.add_assoc] at hread
      rw [arguments, hp]
      dsimp only
      rw [if_pos (by rfl), hread]
      rw [mapSpans_append] at ih
      exact ih

/-- A keyword argument is a name, `=` and a text. -/
theorem eq_of_keywordParts? {word name value : List Char}
    (h : keywordParts? word = some (name, value)) :
    word = name ++ '=' :: value ∧ Identifier.isValid name = true := by
  have hcut : word.takeWhile (· != '=') ++ word.dropWhile (· != '=') = word :=
    List.takeWhile_append_dropWhile
  unfold keywordParts? at h
  dsimp only at h
  split at h
  · rename_i c rest hd
    split at h
    · rename_i hvalid
      cases h
      have hc : c = '=' := by
        have := List.head?_dropWhile_not (· != '=') word
        rw [hd] at this
        simpa using this
      rw [hd, hc] at hcut
      exact ⟨hcut.symm, (Bool.and_eq_true _ _ ▸ hvalid).1⟩
    · cases h
  · cases h

theorem byteLength_of_keywordParts? {word name value : List Char}
    (h : keywordParts? word = some (name, value)) :
    Text.byteLength word = Text.byteLength name + 1 + Text.byteLength value := by
  have hone : Char.utf8Size '=' = 1 := rfl
  rw [(eq_of_keywordParts? h).1, Text.byteLength_append, Text.byteLength_cons, hone]
  omega

/-- One word more: it is read as one more argument, or as the value of one more keyword. -/
theorem isRead_of_arguments {base : Nat} {r : List Expr × List (Ident × Expr)} :
    ∀ {ws : List Word} {args : List Expr} {ks : List (Ident × Expr)},
      arguments base args ks ws = .ok r → (∀ e ∈ args, e.IsRead) → (∀ k ∈ ks, k.2.IsRead) →
      (∀ e ∈ r.1, e.IsRead) ∧ ∀ k ∈ r.2, k.2.IsRead
  | [], args, ks, h, ha, hks => by
    cases h
    exact ⟨ha, hks⟩
  | w :: ws, args, ks, h, ha, hks => by
    rcases arguments_cons h with ⟨name, value, e, hp, hk, he, h⟩ | ⟨e, hp, rfl, he, h⟩
    · refine isRead_of_arguments h ha (List.forall_mem_append.2 ⟨hks, ?_⟩)
      exact List.forall_mem_singleton.2 ⟨_, _, he⟩
    · refine isRead_of_arguments h (List.forall_mem_append.2 ⟨ha, ?_⟩) hks
      exact List.forall_mem_singleton.2 ⟨_, _, he⟩

/-- A custom tag consists of a name and arguments. -/
theorem words_of_call {content : Located (List Char)} {c : Call} (h : call content = .ok c) :
    ∃ head rest, TagWords.split content.value = .ok (head :: rest) ∧
      tagName content.span.start head = .ok c.name ∧
      arguments content.span.start [] [] rest = .ok (c.args, c.keywords) := by
  unfold call at h
  obtain ⟨ws, hw, h⟩ := bind_eq_ok_iff.1 h
  rw [words_eq_ok_iff] at hw
  split at h
  · cases h
  · rename_i head rest
    obtain ⟨name, hn, h⟩ := bind_eq_ok_iff.1 h
    obtain ⟨⟨args, ks⟩, ha, h⟩ := bind_eq_ok_iff.1 h
    cases h
    exact ⟨head, rest, hw, hn, ha⟩

theorem call_shift (n : Nat) {content : Located (List Char)} {c : Call}
    (h : call content = .ok c) : call (content.relocate (n + ·)) =
      .ok ⟨c.name.mapSpan (Span.relocate (n + ·)), mapSpans (Span.relocate (n + ·)) c.args,
        mapKeywordSpans (Span.relocate (n + ·)) c.keywords⟩ := by
  obtain ⟨head, rest, hw, hn, ha⟩ := words_of_call h
  have hn := tagName_shift n hn
  have ha := arguments_shift n ha
  have hwords : words (content.relocate (n + ·)) = .ok (head :: rest) := words_eq_ok_iff.2 hw
  simp only [mapSpans, mapKeywordSpans] at ha
  unfold call
  simp only [hwords, bind, Except.bind, Located.span_relocate, Span.start_relocate, hn, ha]

theorem isRead_of_call {content : Located (List Char)} {c : Call} (h : call content = .ok c) :
    (∀ e ∈ c.args, e.IsRead) ∧ ∀ k ∈ c.keywords, k.2.IsRead := by
  obtain ⟨head, rest, hw, hn, ha⟩ := words_of_call h
  exact isRead_of_arguments ha (by simp) (by simp)

end Tag
end Stencil
