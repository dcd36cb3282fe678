import Mathlib.Data.List.Forall2
import Stencil.Proofs.Expr.Coverage

/-!
# Tokens with spaces between them

Tokens that are written down with a space between each two are scanned as themselves
(`items_intercalate`), unless two of them are words of one operator. The space leaves every token
before it alone, so what is scanned for a token depends on no other.
-/
namespace Stencil.Token

/-- Scanning goes on after the white space behind a text that is written for a token. -/
theorem WrittenAs.values {t : Token} {u rest : List Char} (h : t.WrittenAs u)
    (hs : ∀ t, Stops t rest) (offset : Nat) :
    ∃ after, (rawItems offset (u ++ rest)).map Located.value =
      t.raw.map Item.token ++ (rawItems after rest).map Located.value := by
  cases h with
  | number hn => exact values_number rest offset hn (hs _)
  | string hq hn => exact values_string rest offset hq hn
  | name hv hr => exact values_word rest offset hv (ofWord_of_not_reserved hr) ((hs .not).word rfl)
  | fixed ht =>
    have hspell : t.symbol.toList = Layout.tight.spell t := by
      cases t with
      | number _ | string _ | name _ => cases ht
      | _ => rfl
    rw [hspell]
    exact values_spell _ (WrittenAs.fixed ht).proper (hs t) offset
  | notIn hgap hskipped =>
    simp only [List.append_assoc]
    exact values_words rest offset _ _ _ hgap hskipped rfl rfl rfl rfl ((hs .not).word rfl)
  | isNot hgap hskipped =>
    simp only [List.append_assoc]
    exact values_words rest offset _ _ _ hgap hskipped rfl rfl rfl rfl ((hs .not).word rfl)

theorem values_intercalate {ts : List Token} {us : List (List Char)}
    (h : List.Forall₂ WrittenAs ts us) : ∀ offset,
      (rawItems offset ([' '].intercalate us)).map Located.value =
        (ts.flatMap raw).map Item.token := by
  induction h with
  | nil => intro offset; simp [rawItems]
  | @cons t u ts us htu htail ih =>
    intro offset
    cases htail with
    | nil =>
      obtain ⟨after, hfirst⟩ := htu.values stops_nil offset
      simpa [rawItems] using hfirst
    | @cons v w vs ws hvw hws =>
      have hstops : ∀ t, Stops t (' ' :: [' '].intercalate (w :: ws)) := fun t =>
        stops_skipped t rfl
      obtain ⟨after, hfirst⟩ := htu.values hstops offset
      have hspace := rawItems_of_skipped [' '] ([' '].intercalate (w :: ws))
        (by simp [isSkipped]) after
      rw [List.intercalate_cons_cons, List.append_assoc, List.singleton_append, hfirst,
        ← List.singleton_append, hspace, ih]
      simp

theorem unjoined_of_isChain {ts : List Token} (h : ts.IsChain fun t u => joins t u = false) :
    Unjoined ts := by
  rintro us t u vs rfl
  exact (List.isChain_append_cons_cons.1 h).2.1

/-- **Scanning undoes writing with spaces.** A list of tokens in which the words of no operator
stand side by side, written with one space between each two, is scanned as that list, and no
fragment is left. -/
theorem items_intercalate {ts : List Token} {us : List (List Char)}
    (h : List.Forall₂ WrittenAs ts us) (hts : Unjoined ts) :
    (items ([' '].intercalate us)).map Located.value = ts.map Item.token :=
  values_joinWords hts (values_intercalate h 0)

/-- Words of two operators side by side, a quote within a string, and an exponent. -/
theorem items_intercalate_words :
    List.Forall₂ WrittenAs
      [.not, .operator (.compare .notMem), .string "it's".toList, .operator (.compare .same),
        .operator (.compare .notSame), .number "1e-5".toList, .assign, .operator (.compare .eq)]
      ["not".toList, "not in".toList, "\"it's\"".toList, "is".toList, "is not".toList,
        "1e-5".toList, "=".toList, "==".toList] ∧
    Unjoined
      [.not, .operator (.compare .notMem), .string "it's".toList, .operator (.compare .same),
        .operator (.compare .notSame), .number "1e-5".toList, .assign,
        .operator (.compare .eq)] ∧
    (items "not not in \"it's\" is is not 1e-5 = ==".toList).map Located.value =
      [.token .not, .token (.operator (.compare .notMem)), .token (.string "it's".toList),
        .token (.operator (.compare .same)), .token (.operator (.compare .notSame)),
        .token (.number "1e-5".toList), .token .assign, .token (.operator (.compare .eq))] := by
  have hnumber : IsNumber (['1'] ++ 'e' :: '-' :: ['5']) :=
    .negative 'e' (.inl rfl) ⟨by simp, by simp⟩ ⟨by simp, by simp⟩
  have hstring : WrittenAs (.string "it's".toList) ('"' :: ("it's".toList ++ ['"'])) :=
    .string (.inl rfl) (by decide)
  have hwritten := List.Forall₂.cons (WrittenAs.fixed (t := .not) rfl) <|
    .cons (WrittenAs.fixed (t := .operator (.compare .notMem)) rfl) <| .cons hstring <|
    .cons (WrittenAs.fixed (t := .operator (.compare .same)) rfl) <|
    .cons (WrittenAs.fixed (t := .operator (.compare .notSame)) rfl) <|
    .cons (WrittenAs.number hnumber) <| .cons (WrittenAs.fixed (t := .assign) rfl) <|
    .cons (WrittenAs.fixed (t := .operator (.compare .eq)) rfl) .nil
  have hunjoined := unjoined_of_isChain (by decide :
    List.IsChain (fun t u => joins t u = false)
      [.not, .operator (.compare .notMem), .string "it's".toList, .operator (.compare .same),
        .operator (.compare .notSame), .number "1e-5".toList, .assign, .operator (.compare .eq)])
  exact ⟨hwritten, hunjoined, items_intercalate hwritten hunjoined⟩

end Stencil.Token
