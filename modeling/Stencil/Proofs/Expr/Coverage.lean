import Mathlib.Data.List.Chain
import Stencil.Proofs.Expr.FilterName
import Stencil.Proofs.Expr.Nesting
import Stencil.Proofs.Expr.Separated
import Stencil.Proofs.Source.Pieces

/-!
# What scanning covers

`WrittenAs` lists the texts that stand for a token. Scanning cuts a text into such texts, into
fragments where no token is written, and into white space: a lexeme is a token that is written
there or such a fragment (`stands_lexeme`), and joining two words takes in the white space between
them (`laid_joinWords`). So nothing but white space is left outside of the items (`covered_items`).
-/
namespace Stencil.Token

/-! ## Writing tokens -/

/-- The token has one symbol; all but literals and names do. -/
def isFixed : Token → Bool
  | .number _ | .string _ | .name _ => false
  | _ => true

/-- The texts that a token is written as. A string may stand in either quote that it does not
contain, and between the words of `not in` and `is not` there may be any white space. -/
inductive WrittenAs : Token → List Char → Prop
  | number {text : List Char} : IsNumber text → WrittenAs (.number text) text
  | string {text : List Char} {q : Char} : q = '"' ∨ q = '\'' → q ∉ text →
      WrittenAs (.string text) (q :: (text ++ [q]))
  | name {text : List Char} : Identifier.isValid text = true → String.ofList text ∉ reserved →
      WrittenAs (.name text) text
  | fixed {t : Token} : t.isFixed = true → WrittenAs t t.symbol.toList
  | notIn {gap : List Char} : gap ≠ [] → (∀ c ∈ gap, isSkipped c = true) →
      WrittenAs (.operator (.compare .notMem)) ("not".toList ++ (gap ++ "in".toList))
  | isNot {gap : List Char} : gap ≠ [] → (∀ c ∈ gap, isSkipped c = true) →
      WrittenAs (.operator (.compare .notSame)) ("is".toList ++ (gap ++ "not".toList))

theorem WrittenAs.proper {t : Token} {u : List Char} (h : t.WrittenAs u) : t.Proper := by
  cases h with
  | number hn => exact hn
  | @string text q hq hn =>
    rcases hq with rfl | rfl
    · exact .inl hn
    · exact .inr hn
  | name hv hr => exact ⟨hv, ofWord_of_not_reserved hr⟩
  | fixed ht => cases t <;> simp_all [isFixed, Proper]
  | notIn | isNot => trivial

theorem WrittenAs.eq_symbol {t : Token} {u : List Char} (h : t.WrittenAs u)
    (ht : t = .not ∨ t = .operator (.compare .mem) ∨ t = .operator (.compare .same)) :
    u = t.symbol.toList := by
  cases h with
  | fixed => rfl
  | _ => simp at ht

/-! ## Where tokens are written -/

theorem token_of_isStart {c : Char} (hc : Identifier.isStart c = true) (cs : List Char) :
    ∃ t, (lexeme c cs).item = .token t := by
  rw [lexeme, isDigit_of_isStart hc, if_neg (by simp), isQuote_of_isStart hc, if_neg (by simp),
    if_pos hc]
  exact ⟨_, rfl⟩

theorem token_of_ofChar? {c : Char} (hc : (ofChar? c).isSome = true) (cs : List Char) :
    ∃ t, (lexeme c cs).item = .token t := by
  have hsymbol : lexeme c cs = symbolLexeme c cs := by
    unfold ofChar? at hc
    split at hc <;> first | rfl | cases hc
  obtain ⟨t, ht⟩ := Option.isSome_iff_exists.1 hc
  rw [hsymbol]
  unfold symbolLexeme
  dsimp only
  rw [ht]
  split <;> exact ⟨_, rfl⟩

theorem token_of_fixed {t : Token} (ht : t.isFixed = true) (more : List Char) :
    ∃ c cs, t.symbol.toList ++ more = c :: cs ∧ ∃ u, (lexeme c cs).item = .token u := by
  cases t with
  | number _ | string _ | name _ => cases ht
  | operator op =>
    cases op with
    | arith op => cases op <;> exact ⟨_, _, rfl, token_of_ofChar? rfl _⟩
    | logic op => cases op <;> exact ⟨_, _, rfl, token_of_isStart rfl _⟩
    | compare op =>
      cases op with
      | ne => exact ⟨_, _, rfl, _, rfl⟩
      | mem | notMem | same | notSame => exact ⟨_, _, rfl, token_of_isStart rfl _⟩
      | _ => exact ⟨_, _, rfl, token_of_ofChar? rfl _⟩
  | not => exact ⟨_, _, rfl, token_of_isStart rfl _⟩
  | _ => exact ⟨_, _, rfl, token_of_ofChar? rfl _⟩

/-- Where a token is written, a token is scanned: that one or a longer one. -/
theorem WrittenAs.token {t : Token} {u : List Char} (h : t.WrittenAs u) (more : List Char) :
    ∃ c cs, u ++ more = c :: cs ∧ ∃ v, (lexeme c cs).item = .token v := by
  cases h with
  | number hn =>
    obtain ⟨c, cs, rfl, hc⟩ := exists_cons_of_isNumber hn
    refine ⟨c, cs ++ more, rfl, ?_⟩
    rw [lexeme, if_pos hc]
    exact ⟨_, rfl⟩
  | @string text q hq hn =>
    refine ⟨q, text ++ [q] ++ more, rfl, .string text, ?_⟩
    rw [List.append_assoc, List.singleton_append, lexeme_string hq hn]
  | name hv _ =>
    obtain _ | ⟨c, cs⟩ := u
    · cases hv
    · exact ⟨c, cs ++ more, rfl, token_of_isStart (isStart_of_isValid hv) _⟩
  | fixed ht => exact token_of_fixed ht more
  | notIn _ _ | isNot _ _ => exact ⟨_, _, rfl, token_of_isStart rfl _⟩

/-! ## Lexemes -/

/-- The item stands as the text `u` in front of `rest`. A word is not cut short. A fragment is one
character, or all of the rest, and no token is written where it begins. -/
def Item.Stands : Item → List Char → List Char → Prop
  | .token t, u, rest => t.WrittenAs u ∧ ((∀ c ∈ u.head?, Identifier.isStart c = true) →
      ∀ d ∈ rest.head?, Identifier.isPart d = false)
  | .stray fragment, u, rest => u = fragment ∧ (fragment.length = 1 ∨ rest = []) ∧
      ∀ t v more, u ++ rest = v ++ more → ¬ WrittenAs t v

theorem writtenAs_ofWord {w : List Char} (hw : Identifier.isValid w = true) :
    (ofWord w).WrittenAs w := by
  by_cases hr : String.ofList w ∈ reserved
  · refine ofWord_cases (P := fun w t => String.ofList w ∈ reserved → t.WrittenAs w) w ?_ ?_ hr
    · simp only [reserved, List.forall_mem_cons]
      exact ⟨fun _ => .fixed rfl, fun _ => .fixed rfl, fun _ => .fixed rfl, fun _ => .fixed rfl,
        fun _ => .fixed rfl, by simp⟩
    · intro hname hr
      exact absurd hr (ofWord_eq_name_iff.1 ⟨w, hname⟩)
  · rw [ofWord_of_not_reserved hr]
    exact .name hw hr

theorem symbol_of_ofChar? {c : Char} {t : Token} (h : ofChar? c = some t) :
    t.isFixed = true ∧ t.symbol.toList = [c] := by
  unfold ofChar? at h
  split at h <;> cases h <;> exact ⟨rfl, rfl⟩

theorem symbol_of_withEquals? {c : Char} {t : Token} (h : withEquals? c = some t) :
    t.isFixed = true ∧ t.symbol.toList = [c, '='] := by
  unfold withEquals? at h
  split at h <;> cases h <;> exact ⟨rfl, rfl⟩

/-- A token stands in front of every text, unless it is a word that is cut short. -/
theorem Item.Stands.of_head {t : Token} {u rest : List Char} (h : t.WrittenAs u) {c : Char}
    {cs : List Char} (hu : u = c :: cs) (hc : Identifier.isStart c = false) :
    (Item.token t).Stands u rest := by
  refine ⟨h, fun hstart => ?_⟩
  rw [hstart c (by simp [hu])] at hc
  cases hc

theorem stands_numberLexeme {c : Char} (hc : c.isDigit = true) (cs : List Char) :
    (numberLexeme (c :: cs)).item.Stands (numberLexeme (c :: cs)).text
      (numberLexeme (c :: cs)).rest := by
  have hn : IsNumber (numberLexeme (c :: cs)).text := isNumber_numberLexeme hc
  obtain ⟨d, ds, hcons, hd⟩ := exists_cons_of_isNumber hn
  refine Item.Stands.of_head (.number hn) hcons ?_
  cases hstart : Identifier.isStart d with
  | false => rfl
  | true =>
    rw [isDigit_of_isStart hstart] at hd
    cases hd

theorem stands_wordLexeme {c : Char} (hc : Identifier.isStart c = true) (cs : List Char) :
    (wordLexeme (c :: cs)).item.Stands (wordLexeme (c :: cs)).text
      (wordLexeme (c :: cs)).rest := by
  have hvalid : Identifier.isValid ((c :: cs).takeWhile Identifier.isPart) = true := by
    rw [List.takeWhile_cons, if_pos (isPart_of_isStart hc), Identifier.isValid, hc, Bool.true_and]
    exact List.all_takeWhile
  refine ⟨writtenAs_ofWord hvalid, fun _ d hd => ?_⟩
  have hrest : (wordLexeme (c :: cs)).rest = (c :: cs).dropWhile Identifier.isPart := rfl
  have hhead := List.head?_dropWhile_not Identifier.isPart (c :: cs)
  rw [← hrest, hd] at hhead
  simpa using hhead

theorem stands_stringLexeme {q : Char} (hq : q = '"' ∨ q = '\'') {cs : List Char}
    (h : q ∈ cs) : (stringLexeme q cs).item.Stands (stringLexeme q cs).text
      (stringLexeme q cs).rest := by
  obtain ⟨body, rest, rfl, hbody⟩ := List.eq_append_cons_of_mem h
  have hlexeme := lexeme_string hq hbody rest
  have hstring : lexeme q (body ++ q :: rest) = stringLexeme q (body ++ q :: rest) := by
    rcases hq with rfl | rfl <;> rfl
  rw [← hstring, hlexeme]
  refine .of_head (.string hq hbody) rfl ?_
  rcases hq with rfl | rfl <;> rfl

/-- A fragment is a character that begins no symbol, or an open quote and the rest of the text. -/
theorem stray_lexeme {c : Char} {cs fragment : List Char}
    (h : (lexeme c cs).item = .stray fragment) :
    (lexeme c cs).text = fragment ∧ (fragment.length = 1 ∨ (lexeme c cs).rest = []) := by
  unfold lexeme at h ⊢
  split
  · rename_i hc
    rw [if_pos hc] at h
    cases h
  rename_i hc
  rw [if_neg hc] at h
  split
  · rename_i hq
    rw [if_pos hq] at h
    unfold stringLexeme at h ⊢
    dsimp only at h ⊢
    split at h
    · cases h
      exact ⟨rfl, .inr rfl⟩
    · cases h
  rename_i hq
  rw [if_neg hq] at h
  split
  · rename_i hs
    rw [if_pos hs] at h
    cases h
  · rename_i hs
    rw [if_neg hs] at h
    unfold symbolLexeme at h ⊢
    dsimp only at h ⊢
    split at h
    · cases h
    · split at h
      · cases h
      · cases h
        exact ⟨rfl, .inl rfl⟩

theorem stands_symbolLexeme {c : Char} (hs : Identifier.isStart c = false) {cs : List Char}
    {t : Token} (ht : (symbolLexeme c cs).item = .token t) :
    (Item.token t).Stands (symbolLexeme c cs).text (symbolLexeme c cs).rest := by
  unfold symbolLexeme at ht ⊢
  dsimp only at ht ⊢
  split at ht
  · rename_i hwith
    obtain rfl := Item.token.inj ht
    obtain ⟨hfixed, hsymbol⟩ := symbol_of_withEquals? hwith
    exact .of_head (hsymbol ▸ .fixed hfixed) rfl hs
  · split at ht
    · rename_i hchar
      obtain rfl := Item.token.inj ht
      obtain ⟨hfixed, hsymbol⟩ := symbol_of_ofChar? hchar
      exact .of_head (hsymbol ▸ .fixed hfixed) rfl hs
    · cases ht

/-- **A lexeme stands where it is scanned**, in front of what is scanned after it. -/
theorem stands_lexeme (c : Char) (cs : List Char) :
    (lexeme c cs).item.Stands (lexeme c cs).text (lexeme c cs).rest := by
  cases hitem : (lexeme c cs).item with
  | stray fragment =>
    obtain ⟨htext, hlength⟩ := stray_lexeme hitem
    refine ⟨htext, hlength, fun t v more hv hwritten => ?_⟩
    obtain ⟨d, ds, hd, u, hu⟩ := hwritten.token more
    rw [text_append_rest_lexeme, hd] at hv
    obtain ⟨rfl, rfl⟩ := List.cons.inj hv
    rw [hitem] at hu
    cases hu
  | token t =>
    rw [← hitem]
    unfold lexeme at hitem ⊢
    split
    · exact stands_numberLexeme ‹_› cs
    rename_i hdigit
    rw [if_neg hdigit] at hitem
    split
    · rename_i hquote
      rw [if_pos hquote] at hitem
      exact stands_stringLexeme (by simpa using hquote) (mem_of_stringLexeme hitem)
    rename_i hquote
    rw [if_neg hquote] at hitem
    split
    · exact stands_wordLexeme ‹_› cs
    · rename_i hstart
      rw [if_neg hstart] at hitem
      rw [hitem]
      exact stands_symbolLexeme (by simpa using hstart) hitem

/-! ## Items -/

/-- The text from `offset` on is that of the items, with white space between them. -/
abbrev Laid : Nat → List Char → List (Located Item) → Prop :=
  Text.Strewn isSkipped Located.span fun i => i.value.Stands

theorem laid_rawItems (offset : Nat) (cs : List Char) : Laid offset cs (rawItems offset cs) := by
  induction offset, cs using rawItems.induct with
  | case1 offset =>
    rw [rawItems]
    exact .done offset
  | case2 offset c cs hc ih =>
    rw [rawItems, if_pos hc]
    exact .skip hc ih
  | case3 offset c cs hc stop ih =>
    have hcut := text_append_rest_lexeme c cs
    rw [rawItems, if_neg hc]
    have hlaid : Laid offset ((lexeme c cs).text ++ (lexeme c cs).rest)
        (⟨(lexeme c cs).item, ⟨offset, stop⟩⟩ :: rawItems stop (lexeme c cs).rest) :=
      .piece (text_ne_nil_lexeme c cs) rfl (stands_lexeme c cs) ih
    rwa [hcut] at hlaid

/-- Two words that are joined take in the white space between them. There is some, because the first
word is not cut short. -/
theorem Laid.join {t u v : Token} {a b : Span} {is js : List (Located Item)} {offset : Nat}
    {text : List Char} (h : Laid offset text (⟨.token t, a⟩ :: ⟨.token u, b⟩ :: is))
    (ht : t = .not ∨ t = .operator (.compare .same))
    (hu : u = .operator (.compare .mem) ∨ u = .not)
    (hv : ∀ gap, gap ≠ [] → (∀ c ∈ gap, isSkipped c = true) →
      v.WrittenAs (t.symbol.toList ++ (gap ++ u.symbol.toList)))
    (his : ∀ offset text, Laid offset text is → Laid offset text js) :
    Laid offset text (⟨.token v, a.cover b⟩ :: js) := by
  obtain ⟨front, x, mid, rfl, hfront, hx, ha, ⟨hxt, hxend⟩, h⟩ := h.exists_gap rfl
  obtain ⟨gap, y, rest, rfl, hgap, hy, hb, ⟨hyu, hyend⟩, h⟩ := h.exists_gap rfl
  have hfirst : ∀ w : Token, w = .not ∨ w = .operator (.compare .mem) ∨
      w = .operator (.compare .same) → ∀ c ∈ w.symbol.toList.head?,
      Identifier.isStart c = true := by
    rintro w (rfl | rfl | rfl) c hc <;> obtain rfl := Option.some.inj hc <;> rfl
  have ht' : t = .not ∨ t = .operator (.compare .mem) ∨ t = .operator (.compare .same) :=
    ht.imp_right .inr
  have hu' : u = .not ∨ u = .operator (.compare .mem) ∨ u = .operator (.compare .same) :=
    hu.elim (fun h => .inr (.inl h)) .inl
  obtain rfl := hxt.eq_symbol ht'
  obtain rfl := hyu.eq_symbol hu'
  have hne : gap ≠ [] := by
    rintro rfl
    obtain ⟨d, ds, hd⟩ := List.exists_cons_of_ne_nil hy
    have hstart : Identifier.isStart d = true := hfirst u hu' d (by simp [hd])
    have hpart := hxend (hfirst t ht') d (by simp [hd])
    rw [isPart_of_isStart hstart] at hpart
    cases hpart
  have hword : t.symbol.toList ++ (gap ++ (u.symbol.toList ++ rest)) =
      (t.symbol.toList ++ (gap ++ u.symbol.toList)) ++ rest := by simp
  refine Text.Strewn.behind_gap hfront ?_
  rw [hword]
  have hlength : offset + Text.byteLength front + Text.byteLength t.symbol.toList +
      Text.byteLength gap + Text.byteLength u.symbol.toList = offset + Text.byteLength front +
      Text.byteLength (t.symbol.toList ++ (gap ++ u.symbol.toList)) := by
    simp only [Text.byteLength_append]
    omega
  refine .piece (by simp [hx]) ?_ ⟨hv gap hne hgap, fun _ => hyend (hfirst u hu')⟩ ?_
  · dsimp only at ha hb ⊢
    rw [ha, hb, Span.cover, ← hlength]
  · rw [← hlength]
    exact his _ _ h

theorem laid_joinWords {is : List (Located Item)} : ∀ {offset : Nat} {text : List Char},
    Laid offset text is → Laid offset text (joinWords is) := by
  induction is using joinWords.induct with
  | case1 a b rest ih =>
    intro offset text h
    exact h.join (.inl rfl) (.inl rfl) (fun gap => .notIn) fun _ _ => ih
  | case2 a b rest ih =>
    intro offset text h
    exact h.join (.inr rfl) (.inr rfl) (fun gap => .isNot) fun _ _ => ih
  | case3 item rest h1 h2 ih =>
    intro offset text h
    obtain ⟨front, u, more, rfl, hfront, hu, hspan, hstands, h⟩ := h.exists_gap rfl
    rw [joinWords.eq_3 _ _ h1 h2]
    exact .behind_gap hfront (.piece hu hspan hstands (ih h))
  | case4 => exact id

/-- The items of a text are laid out in it. -/
theorem laid_itemsFrom (offset : Nat) (text : List Char) :
    Laid offset text (itemsFrom offset text) := laid_joinWords (laid_rawItems offset text)

/-- Tokens that were scanned can be written down. -/
theorem proper_of_mem_scan {text : List Char} {ts : List (Located Token)}
    (h : scanFrom 0 text = .ok ts) : ∀ t ∈ ts, t.value.Proper := by
  intro t ht
  obtain ⟨_, _, _, -, -, -, hwritten, -⟩ :=
    (laid_itemsFrom 0 text).exists_cut text [] rfl rfl _ (mem_of_onlyTokens h t ht)
  exact hwritten.proper

/-! ## Words side by side -/

/-- The scanner would join the words of the two items. -/
def Item.joins : Item → Item → Bool
  | .token t, .token u => t.joins u
  | _, _ => false

theorem eq_of_joins {i j : Item} (h : i.joins j = true) :
    (i = .token .not ∧ j = .token (.operator (.compare .mem))) ∨
      (i = .token (.operator (.compare .same)) ∧
        (j = .token .not ∨ j = .token (.operator (.compare .notMem)))) := by
  obtain t | _ := i
  · obtain u | _ := j
    · unfold Item.joins joins at h
      dsimp only at h
      split at h <;> simp_all
    · cases h
  · cases h

/-- A lexeme is never two words. -/
theorem raw_of_lexeme {c : Char} {cs : List Char} {t : Token}
    (h : (lexeme c cs).item = .token t) : t.raw = [t] := by
  unfold lexeme at h
  split at h
  · cases h
    rfl
  split at h
  · unfold stringLexeme at h
    dsimp only at h
    split at h <;> cases h
    rfl
  split at h
  · cases h
    exact ofWord_cases (P := fun _ t => t.raw = [t]) _ (by decide) fun _ => rfl
  · unfold symbolLexeme at h
    dsimp only at h
    split at h
    · rename_i hwith
      obtain rfl := Item.token.inj h
      unfold withEquals? at hwith
      split at hwith <;> cases hwith <;> rfl
    · split at h
      · rename_i hchar
        obtain rfl := Item.token.inj h
        unfold ofChar? at hchar
        split at hchar <;> cases hchar <;> rfl
      · cases h

theorem raw_of_mem_rawItems (offset : Nat) (cs : List Char) :
    ∀ i ∈ rawItems offset cs, ∀ t, i.value = .token t → t.raw = [t] := by
  induction offset, cs using rawItems.induct with
  | case1 offset => simp [rawItems]
  | case2 offset c cs hc ih =>
    rw [rawItems, if_pos hc]
    exact ih
  | case3 offset c cs hc stop ih =>
    rw [rawItems, if_neg hc]
    exact List.forall_mem_cons.2 ⟨fun t ht => raw_of_lexeme ht, ih⟩

/-- What joining words puts first is the first item, or an operator of two words. -/
theorem head_joinWords {is js : List (Located Item)} {j : Located Item}
    (h : joinWords is = j :: js) : ∃ i is', is = i :: is' ∧ (j.value = i.value ∨
      (i.value = .token .not ∧ j.value = .token (.operator (.compare .notMem))) ∨
      (i.value = .token (.operator (.compare .same)) ∧
        j.value = .token (.operator (.compare .notSame)))) := by
  cases is using joinWords.fun_cases with
  | case1 a b rest =>
    obtain ⟨rfl, -⟩ := List.cons.inj h
    exact ⟨_, _, rfl, .inr (.inl ⟨rfl, rfl⟩)⟩
  | case2 a b rest =>
    obtain ⟨rfl, -⟩ := List.cons.inj h
    exact ⟨_, _, rfl, .inr (.inr ⟨rfl, rfl⟩)⟩
  | case3 item rest h1 h2 =>
    rw [joinWords.eq_3 _ _ h1 h2] at h
    obtain ⟨rfl, -⟩ := List.cons.inj h
    exact ⟨_, _, rfl, .inl rfl⟩
  | case4 => cases h

/-- **No two items side by side would be joined** once words are joined. -/
theorem isChain_joinWords {is : List (Located Item)} :
    (∀ i ∈ is, ∀ t, i.value = .token t → t.raw = [t]) →
    (joinWords is).IsChain fun i j => i.value.joins j.value = false := by
  have hoperator : ∀ op : CompareOp, op = .notMem ∨ op = .notSame → ∀ i : Item,
      (Item.token (.operator (.compare op))).joins i = false := by
    rintro op (rfl | rfl) (_ | _) <;> rfl
  induction is using joinWords.induct with
  | case1 a b rest ih =>
    intro hraw
    have hrest := ih fun i hi => hraw i (List.mem_cons_of_mem _ (List.mem_cons_of_mem _ hi))
    exact List.isChain_cons.2 ⟨fun j _ => hoperator _ (.inl rfl) j.value, hrest⟩
  | case2 a b rest ih =>
    intro hraw
    have hrest := ih fun i hi => hraw i (List.mem_cons_of_mem _ (List.mem_cons_of_mem _ hi))
    exact List.isChain_cons.2 ⟨fun j _ => hoperator _ (.inr rfl) j.value, hrest⟩
  | case3 item rest h1 h2 ih =>
    intro hraw
    obtain ⟨-, hraw⟩ := List.forall_mem_cons.1 hraw
    rw [joinWords.eq_3 _ _ h1 h2]
    refine List.isChain_cons.2 ⟨fun j hj => ?_, ih hraw⟩
    obtain ⟨js, hjs⟩ := List.head?_eq_some_iff.1 hj
    obtain ⟨⟨first, r⟩, is', rfl, hfirst⟩ := head_joinWords hjs
    have hsingle := (List.forall_mem_cons.1 hraw).1
    dsimp only at hfirst hsingle
    obtain ⟨value, s⟩ := item
    refine Bool.eq_false_iff.2 fun hjoins => ?_
    rcases eq_of_joins hjoins with ⟨rfl, hmem⟩ | ⟨rfl, hnot | hnotMem⟩
    · simp only [hmem, reduceCtorEq, Item.token.injEq, Operator.compare.injEq, Token.operator.injEq,
        and_false, or_false] at hfirst
      exact h1 s r is' rfl (by rw [← hfirst])
    · simp only [hnot, reduceCtorEq, Item.token.injEq, and_false, or_false] at hfirst
      exact h2 s r is' rfl (by rw [← hfirst])
    · rcases hfirst with hfirst | ⟨hfirst, -⟩ | ⟨-, hfirst⟩
      · cases hsingle _ (hfirst.symm.trans hnotMem)
      · exact h2 s r is' rfl (by rw [hfirst])
      · rw [hnotMem] at hfirst
        cases hfirst
  | case4 => exact fun _ => .nil

theorem isChain_items (text : List Char) :
    (items text).IsChain fun i j => i.value.joins j.value = false :=
  isChain_joinWords (raw_of_mem_rawItems 0 text)

/-! ## Coverage -/

/-- The items of a text, with what they leave out. -/
structure Covered (text : List Char) (is : List (Located Item)) : Prop where
  /-- Every item is cut out of the text between two characters, and is written as what is cut out;
  a fragment is what is cut out. -/
  written : ∀ i ∈ is, i.span.Proper text ∧ ∃ u,
    Text.slice text i.span.start i.span.stop = some u ∧ match i.value with
      | .token t => t.WrittenAs u
      | .stray fragment => u = fragment
  /-- The items stand one behind the other. -/
  ordered : is.Pairwise fun i j => i.span.stop ≤ j.span.start
  /-- A character that no item covers is white space. -/
  uncovered : ∀ before c after, text = before ++ c :: after →
    (∀ i ∈ is, Text.byteLength before < i.span.start ∨ i.span.stop ≤ Text.byteLength before) →
    c ∈ [' ', '\t', '\n', '\r', '\x0c']
  /-- No `not` stands right before an `in`, and no `is` right before a `not` or a `not in`. -/
  unjoined : is.IsChain fun i j => i.value.joins j.value = false
  /-- A fragment is one character or goes on to the end of the text, and no token is written where
  it begins. -/
  fragment : ∀ i ∈ is, ∀ fragment, i.value = .stray fragment →
    (fragment.length = 1 ∨ i.span.stop = Text.byteLength text) ∧
      ∀ t u, Text.At text i.span.start u → ¬ WrittenAs t u

/-- **Scanning covers the whole text.** Whatever the text is, it is cut into tokens that are written
where their spans say, fragments in which no token begins, and white space; scanning never stops,
and it leaves no two words side by side that make one operator. -/
theorem covered_items (text : List Char) : Covered text (items text) := by
  have hlaid : Laid 0 text (items text) := laid_itemsFrom 0 text
  have hcut := hlaid.exists_cut text [] rfl rfl
  refine ⟨fun i hi => ?_, hlaid.pairwise, fun before c after htext hout => ?_, isChain_items text,
    fun i hi fragment hfragment => ?_⟩
  · obtain ⟨before, u, rest, htext, hu, hspan, hstands⟩ := hcut i hi
    have hat : Text.At text (Text.byteLength before) u := ⟨before, rest, htext, rfl⟩
    rw [hspan]
    refine ⟨hat.proper hu, u, hat.slice, ?_⟩
    obtain ⟨t | fragment, s⟩ := i
    · exact hstands.1
    · exact hstands.1
  · have hskipped := hlaid.skipped htext (by simpa using hout)
    simpa [isSkipped, or_assoc] using hskipped
  · obtain ⟨before, u, rest, htext, hu, hspan, hstands⟩ := hcut i hi
    obtain ⟨value, s⟩ := i
    dsimp only at hfragment hspan hstands ⊢
    subst hfragment hspan
    obtain ⟨-, hlength, hnone⟩ := hstands
    refine ⟨hlength.imp_right ?_, ?_⟩
    · rintro rfl
      rw [htext, List.append_nil, Text.byteLength_append]
    · rintro t v ⟨front, more, hmore, hfront⟩
      exact hnone t v more (Text.eq_of_append_eq (htext.symm.trans hmore) hfront.symm)

end Stencil.Token
