import Stencil.Proofs.Expr.Place
import Stencil.Proofs.Expr.Spelling

/-!
# Scanning up to a comma or a closing parenthesis

No token goes on in a text that begins with a comma or a closing parenthesis: a number, a word and a
symbol end before them, and a string has to be closed by then. Nor are words joined across them. So
scanning goes through them (`scanFrom_append`): arguments are scanned one by one.
-/
namespace Stencil.Token

/-! ## Where tokens end -/

/-- The text is empty or begins with a comma or a closing parenthesis: no token goes on in it. -/
def EndsTokens (v : List Char) : Prop := ∀ c ∈ v.head?, c = ',' ∨ c = ')'

section
variable {v : List Char} (hv : EndsTokens v)
include hv

theorem EndsTokens.isPart : ∀ c cs, v = c :: cs → Identifier.isPart c = false := by
  rintro c cs rfl
  rcases hv c rfl with rfl | rfl <;> rfl

theorem EndsTokens.isDigit (c : Char) (cs : List Char) (h : v = c :: cs) : c.isDigit = false := by
  subst h
  rcases hv c rfl with rfl | rfl <;> rfl

theorem EndsTokens.stops (t : Token) : Stops t v := by
  refine ⟨fun _ => hv.isPart, ?_, ?_⟩
  · rintro - c cs rfl
    simpa using hv '.' rfl
  · rintro - cs rfl
    simpa using hv '=' rfl

end

/-- Where a run of characters ends in a text, it ends with more behind the text, if that does not
carry the run on. -/
theorem span_append {p : Char → Bool} {v : List Char} (hp : ∀ c cs, v = c :: cs → p c = false) :
    ∀ u : List Char, (u ++ v).takeWhile p = u.takeWhile p ∧
      (u ++ v).dropWhile p = u.dropWhile p ++ v
  | [] => by
    cases v with
    | nil => exact ⟨rfl, rfl⟩
    | cons c cs => simp [hp c cs rfl]
  | c :: u => by
    obtain ⟨htake, hdrop⟩ := span_append hp u
    cases hc : p c <;> simp [hc, htake, hdrop]

/-! ## Lexemes -/

/-- The lexeme with more text behind it. -/
def Lexeme.before (l : Lexeme) (v : List Char) : Lexeme := { l with rest := l.rest ++ v }

/-- A string ends at the next quote. -/
theorem mem_of_stringLexeme {q : Char} {cs : List Char} {t : Token}
    (h : (stringLexeme q cs).item = .token t) : q ∈ cs := by
  cases hd : cs.dropWhile (· != q) with
  | nil =>
    simp only [stringLexeme, hd] at h
    cases h
  | cons a rest =>
    obtain rfl : a = q := by simpa [hd] using List.head?_dropWhile_not (· != q) cs
    exact (List.dropWhile_suffix _).subset (hd ▸ List.mem_cons_self)

theorem symbolLexeme_single {c : Char} {cs : List Char}
    (h : ∀ t rest, withEquals? c = some t → cs ≠ '=' :: rest) :
    symbolLexeme c cs = match ofChar? c with
      | some t => ⟨.token t, [c], cs⟩
      | none => ⟨.stray [c], [c], cs⟩ := by
  unfold symbolLexeme
  dsimp only
  cases ht : withEquals? c with
  | none => rfl
  | some t =>
    cases cs with
    | nil => rfl
    | cons d ds =>
      have hd : d ≠ '=' := fun heq => h t ds ht (by rw [heq])
      cases ofChar? c <;> simp [hd]

section
variable {v : List Char} (hv : EndsTokens v)
include hv

theorem numberTail_append (u : List Char) : numberTail (u ++ v) = numberTail u := by
  have hdigits (ds : List Char) : digits (ds ++ v) = digits ds := (span_append hv.isDigit ds).1
  have hminus {ds : List Char} (h : ∀ es, ds = '-' :: es → False) :
      ∀ es, ds ++ v = '-' :: es → False := by
    intro es hes
    cases ds with
    | nil => simpa using hv '-' (by simp_all)
    | cons d ds => exact h ds (by simp_all)
  fun_cases numberTail u with
  | case1 ds h | case2 ds h | case3 ds h | case4 ds h | case5 ds h | case6 ds h =>
    simp [numberTail, hdigits, h]
  | case7 ds hne h | case8 ds hne h =>
    rw [List.cons_append, numberTail.eq_4 _ (hminus hne)]
    simp [hdigits, h]
  | case9 ds hne h | case10 ds hne h =>
    rw [List.cons_append, numberTail.eq_5 _ (hminus hne)]
    simp [hdigits, h]
  | case11 hdot hlower hupper =>
    cases u with
    | nil => exact numberTail_of_stops (hv.stops (.number []))
    | cons c cs => simp_all [numberTail]

theorem numberLexeme_append (u : List Char) :
    numberLexeme (u ++ v) = (numberLexeme u).before v := by
  obtain ⟨htake, hdrop⟩ := span_append hv.isDigit u
  have htail : (numberTail (afterDigits u)).length ≤ (afterDigits u).length :=
    (numberTail_isPrefix _).length_le
  have hnumber := numberTail_append hv (afterDigits u)
  rw [afterDigits] at htail hnumber
  simp only [numberLexeme, Lexeme.before, digits, afterDigits, htake, hdrop, hnumber,
    List.drop_append_of_le_length htail]

theorem symbolLexeme_append (c : Char) (cs : List Char) :
    symbolLexeme c (cs ++ v) = (symbolLexeme c cs).before v := by
  by_cases h : ∃ t rest, withEquals? c = some t ∧ cs = '=' :: rest
  · obtain ⟨t, rest, ht, rfl⟩ := h
    simp only [symbolLexeme, List.cons_append, ht, Lexeme.before]
  · have hcs : ∀ t rest, withEquals? c = some t → cs ≠ '=' :: rest :=
      fun t rest ht heq => h ⟨t, rest, ht, heq⟩
    have happend : ∀ t rest, withEquals? c = some t → cs ++ v ≠ '=' :: rest := by
      intro t rest ht heq
      cases cs with
      | nil => exact (hv.stops .assign).equals rfl rest heq
      | cons d ds => exact hcs t ds ht (by rw [(List.cons.inj heq).1])
    rw [symbolLexeme_single hcs, symbolLexeme_single happend]
    cases ofChar? c <;> rfl

/-- Every token at the start of a text is the same with more behind the text. -/
theorem lexeme_append {c : Char} {cs : List Char} {t : Token}
    (h : (lexeme c cs).item = .token t) : lexeme c (cs ++ v) = (lexeme c cs).before v := by
  by_cases hdigit : c.isDigit = true
  · rw [lexeme, lexeme, if_pos hdigit, if_pos hdigit, ← List.cons_append]
    exact numberLexeme_append hv (c :: cs)
  by_cases hquote : (c == '"' || c == '\'') = true
  · rw [lexeme, if_neg hdigit, if_pos hquote] at h
    obtain ⟨body, rest, rfl, hbody⟩ := List.eq_append_cons_of_mem (mem_of_stringLexeme h)
    have hq : c = '"' ∨ c = '\'' := by simpa using hquote
    rw [lexeme_string hq hbody, List.append_assoc, List.cons_append, lexeme_string hq hbody]
    rfl
  by_cases hstart : Identifier.isStart c = true
  · obtain ⟨htake, hdrop⟩ := span_append hv.isPart (c :: cs)
    rw [lexeme, lexeme, if_neg hdigit, if_neg hdigit, if_neg hquote, if_neg hquote, if_pos hstart,
      if_pos hstart]
    simp only [wordLexeme, Lexeme.before, ← List.cons_append, htake, hdrop]
  · rw [lexeme, lexeme, if_neg hdigit, if_neg hdigit, if_neg hquote, if_neg hquote, if_neg hstart,
      if_neg hstart]
    exact symbolLexeme_append hv c cs

/-! ## Items -/

/-- All items are tokens. -/
def AllTokens (items : List (Located Item)) : Prop := ∀ i ∈ items, ∃ t, i.value = .token t

theorem rawItems_append (offset : Nat) (u : List Char) (h : AllTokens (rawItems offset u)) :
    rawItems offset (u ++ v) =
      rawItems offset u ++ rawItems (offset + Text.byteLength u) v := by
  fun_induction rawItems offset u with
  | case1 offset => simp
  | case2 offset c cs hc ih =>
    rw [List.cons_append, rawItems, if_pos hc, ih h, Text.byteLength_cons, Nat.add_assoc]
  | case3 offset c cs hc stop ih =>
    obtain ⟨⟨t, ht⟩, hrest⟩ := List.forall_mem_cons.1 h
    have hlength := congrArg Text.byteLength (text_append_rest_lexeme c cs)
    rw [Text.byteLength_append] at hlength
    rw [List.cons_append, rawItems, if_neg hc, lexeme_append hv ht]
    simp only [Lexeme.before, List.cons_append]
    rw [ih hrest, Nat.add_assoc, hlength]

end

/-! ## Joining words -/

/-- The token is none of the words that are joined. -/
def Apart (t : Token) : Prop :=
  t ≠ .not ∧ t ≠ .operator (.compare .mem) ∧ t ≠ .operator (.compare .same)

section
variable {t : Token} (ht : t.Apart) (s : Span)
include ht

theorem joinWords_cons_of_apart (items : List (Located Item)) :
    joinWords (⟨.token t, s⟩ :: items) = ⟨.token t, s⟩ :: joinWords items := by
  rw [joinWords.eq_3]
  · rintro a b rest hitem -
    cases hitem
    exact ht.1 rfl
  · rintro a b rest hitem -
    cases hitem
    exact ht.2.2 rfl

/-- No words are joined across such a token. -/
theorem joinWords_append (a b : List (Located Item)) :
    joinWords (a ++ ⟨.token t, s⟩ :: b) = joinWords a ++ ⟨.token t, s⟩ :: joinWords b := by
  fun_induction joinWords a with
  | case1 x y rest ih | case2 x y rest ih => simp only [List.cons_append, joinWords, ih]
  | case3 item rest h1 h2 ih =>
    have hfirst {u : Token} {y : Span} {more : List (Located Item)} (hu : u ≠ t)
        (h : rest ++ ⟨.token t, s⟩ :: b = ⟨.token u, y⟩ :: more) :
        ∃ more, rest = ⟨.token u, y⟩ :: more := by
      cases rest with
      | nil => exact absurd (Item.token.inj (congrArg Located.value (List.cons.inj h).1)).symm hu
      | cons r rest => exact ⟨rest, by rw [(List.cons.inj h).1]⟩
    rw [List.cons_append, joinWords.eq_3, ih, List.cons_append]
    · intro x y more hitem hrest
      obtain ⟨more, hmore⟩ := hfirst ht.2.1.symm hrest
      exact h1 x y more hitem hmore
    · intro x y more hitem hrest
      obtain ⟨more, hmore⟩ := hfirst ht.1.symm hrest
      exact h2 x y more hitem hmore
  | case4 => exact joinWords_cons_of_apart ht s b

end

/-! ## Tokens -/

theorem allTokens_of_joinWords {items : List (Located Item)} (h : AllTokens (joinWords items)) :
    AllTokens items := by
  fun_induction joinWords items with
  | case1 x y rest ih | case2 x y rest ih =>
    obtain ⟨-, hrest⟩ := List.forall_mem_cons.1 h
    exact List.forall_mem_cons.2 ⟨⟨_, rfl⟩, List.forall_mem_cons.2 ⟨⟨_, rfl⟩, ih hrest⟩⟩
  | case3 item rest _ _ ih =>
    obtain ⟨hitem, hrest⟩ := List.forall_mem_cons.1 h
    exact List.forall_mem_cons.2 ⟨hitem, ih hrest⟩
  | case4 => exact h

theorem onlyTokens_cons_eq_ok_iff {t : Token} {s : Span} {items : List (Located Item)}
    {ts : List (Located Token)} : onlyTokens (⟨.token t, s⟩ :: items) = .ok ts ↔
      ∃ us, onlyTokens items = .ok us ∧ ts = ⟨t, s⟩ :: us := by
  rw [onlyTokens]
  cases onlyTokens items with
  | error stray => simp [Except.map]
  | ok us => simp [Except.map, eq_comm]

theorem allTokens_of_onlyTokens : ∀ {items : List (Located Item)} {ts : List (Located Token)},
    onlyTokens items = .ok ts → AllTokens items
  | [], _, _ => by simp [AllTokens]
  | ⟨.stray _, _⟩ :: _, _, h => by cases h
  | ⟨.token t, s⟩ :: items, ts, h => by
    obtain ⟨us, hus, -⟩ := onlyTokens_cons_eq_ok_iff.1 h
    exact List.forall_mem_cons.2 ⟨⟨t, rfl⟩, allTokens_of_onlyTokens hus⟩

theorem onlyTokens_append : ∀ {a b : List (Located Item)} {ts us : List (Located Token)},
    onlyTokens a = .ok ts → onlyTokens b = .ok us → onlyTokens (a ++ b) = .ok (ts ++ us)
  | [], b, ts, us, ha, hb => by
    cases ha
    exact hb
  | ⟨.stray _, _⟩ :: _, _, _, _, ha, _ => by cases ha
  | ⟨.token t, s⟩ :: a, b, ts, us, ha, hb => by
    obtain ⟨rest, hrest, rfl⟩ := onlyTokens_cons_eq_ok_iff.1 ha
    exact onlyTokens_cons_eq_ok_iff.2 ⟨rest ++ us, onlyTokens_append hrest hb, rfl⟩

section
variable {offset after : Nat} {text rest : List Char} {t : Token} {s : Span}
  {ts us : List (Located Token)}

@[simp] theorem scanFrom_nil (offset : Nat) : scanFrom offset [] = .ok [] := by
  rw [scanFrom, itemsFrom, rawItems, joinWords, onlyTokens]

/-- The first token of a text, and those of the text after it. -/
theorem scanFrom_cons (h : rawItems offset text = ⟨.token t, s⟩ :: rawItems after rest)
    (ht : t.Apart) (hrest : scanFrom after rest = .ok ts) :
    scanFrom offset text = .ok (⟨t, s⟩ :: ts) := by
  rw [scanFrom, itemsFrom, h, joinWords_cons_of_apart ht]
  exact onlyTokens_cons_eq_ok_iff.2 ⟨ts, hrest, rfl⟩

/-- A character that is a token on its own. -/
theorem scanFrom_single {c : Char} (hc : ofChar? c = some t) (ht : t.Apart)
    (hstop : ∀ cs, rest = '=' :: cs → withEquals? c = none)
    (hrest : scanFrom (offset + c.utf8Size) rest = .ok ts) :
    ∃ s, scanFrom offset (c :: rest) = .ok (⟨t, s⟩ :: ts) :=
  ⟨_, scanFrom_cons (rawItems_single hc hstop offset) ht hrest⟩

/-- A name. -/
theorem scanFrom_name {word : List Char} (hw : Identifier.isValid word = true)
    (hn : ofWord word = .name word) (hstop : ∀ d ds, rest = d :: ds → Identifier.isPart d = false)
    (hrest : scanFrom (offset + Text.byteLength word) rest = .ok ts) :
    ∃ s, scanFrom offset (word ++ rest) = .ok (⟨.name word, s⟩ :: ts) := by
  have hraw := rawItems_word hw hstop offset
  rw [hn] at hraw
  exact ⟨_, scanFrom_cons hraw ⟨nofun, nofun, nofun⟩ hrest⟩

theorem scanFrom_skipped {c : Char} (hc : isSkipped c = true) (offset : Nat) (rest : List Char) :
    scanFrom offset (c :: rest) = scanFrom (offset + c.utf8Size) rest := by
  rw [scanFrom, scanFrom, itemsFrom, itemsFrom, rawItems, if_pos hc]

/-- **Scanning goes through a comma or a closing parenthesis.** The tokens of a text with one of them
behind it are its own, and then those from there on. -/
theorem scanFrom_append {u v : List Char} {c : Char} (hc : c = ',' ∨ c = ')')
    (hu : scanFrom offset u = .ok ts)
    (hv : scanFrom (offset + Text.byteLength u) (c :: v) = .ok us) :
    scanFrom offset (u ++ c :: v) = .ok (ts ++ us) := by
  have hends : EndsTokens (c :: v) := by
    rintro d hd
    obtain rfl : c = d := by simpa using hd
    exact hc
  obtain ⟨t, ht, hofChar, hwith⟩ : ∃ t : Token, t.Apart ∧ ofChar? c = some t ∧
      withEquals? c = none := by
    rcases hc with rfl | rfl
    · exact ⟨.comma, ⟨nofun, nofun, nofun⟩, rfl, rfl⟩
    · exact ⟨.rparen, ⟨nofun, nofun, nofun⟩, rfl, rfl⟩
  have hall : AllTokens (rawItems offset u) :=
    allTokens_of_joinWords (allTokens_of_onlyTokens hu)
  have hstop : ∀ cs, v = '=' :: cs → withEquals? c = none := fun _ _ => hwith
  have hraw := rawItems_single hofChar hstop (offset + Text.byteLength u)
  rw [scanFrom, itemsFrom, hraw, joinWords_cons_of_apart ht] at hv
  rw [scanFrom, itemsFrom, rawItems_append hends offset u hall, hraw, joinWords_append ht]
  exact onlyTokens_append hu hv

end

end Stencil.Token
