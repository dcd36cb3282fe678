import Stencil.Proofs.Expr.Number

/-!
# Spelling tokens

Tokens can be written down in many ways: the quote of a string can be chosen, and white space can
stand between any two tokens and must stand between some. A `Layout` is such a choice. Scanning
takes every one of them back (`scan_text`), as long as no two tokens stand side by side that the
scanner would join to one.
-/
namespace Stencil.Token

/-! ## Spelling -/

/-- The token can be written so that it is scanned as itself. -/
def Proper : Token → Prop
  | .number text => IsNumber text
  | .string text => '"' ∉ text ∨ '\'' ∉ text
  | .name text => Identifier.isValid text = true ∧ ofWord text = .name text
  | _ => True

/-- The token is spelled with letters and digits. -/
def isWord : Token → Bool
  | .number _ | .name _ | .not => true
  | .operator (.logic _) => true
  | .operator (.compare .mem) | .operator (.compare .notMem) => true
  | .operator (.compare .same) | .operator (.compare .notSame) => true
  | _ => false

def isNumber : Token → Bool
  | .number _ => true
  | _ => false

/-- With `=` after it, the token would be another one. -/
def takesEquals : Token → Bool
  | .assign | .operator (.compare .lt) | .operator (.compare .gt) => true
  | _ => false

def beginsWithEquals : Token → Bool
  | .assign | .operator (.compare .eq) => true
  | _ => false

/-- Two tokens may stand side by side without white space between them. -/
def MayTouch (t u : Token) : Prop :=
  ¬ (t.isWord = true ∧ u.isWord = true) ∧ ¬ (t = .dot ∧ u.isNumber = true) ∧
    ¬ (t.takesEquals = true ∧ u.beginsWithEquals = true)

instance (t u : Token) : Decidable (MayTouch t u) :=
  inferInstanceAs (Decidable (_ ∧ _ ∧ _))

/-- A way to write tokens down. -/
structure Layout where
  /-- The quote around a string. -/
  quote : List Char → Char
  /-- The white space between two tokens. -/
  gap : Token → Token → List Char
  isQuote : ∀ text, quote text = '"' ∨ quote text = '\''
  quote_not_mem : ∀ text, '"' ∉ text ∨ '\'' ∉ text → quote text ∉ text
  isSkipped_gap : ∀ t u, ∀ c ∈ gap t u, isSkipped c = true
  mayTouch : ∀ t u, gap t u = [] → MayTouch t u

namespace Layout

/-- Single quotes only where they must be, and spaces too. -/
def tight : Layout where
  quote text := if '"' ∈ text then '\'' else '"'
  gap t u := if MayTouch t u then [] else [' ']
  isQuote text := by split <;> simp
  quote_not_mem text h := by
    split
    · rename_i hd
      exact h.resolve_left (not_not_intro hd)
    · assumption
  isSkipped_gap t u c hc := by
    split at hc
    · simp at hc
    · obtain rfl : c = ' ' := by simpa using hc
      rfl
  mayTouch t u h := by
    split at h
    · assumption
    · simp at h

/-- The characters of a token. -/
def spell (l : Layout) : Token → List Char
  | .number text | .name text => text
  | .string text => l.quote text :: (text ++ [l.quote text])
  | t => t.symbol.toList

/-- The characters of a list of tokens. -/
def text (l : Layout) : List Token → List Char
  | [] => []
  | [t] => l.spell t
  | t :: u :: ts => l.spell t ++ (l.gap t u ++ l.text (u :: ts))

end Layout

/-- The rest of a text leaves the token before it as it is. -/
structure Stops (t : Token) (rest : List Char) : Prop where
  word : t.isWord = true → ∀ c cs, rest = c :: cs → Identifier.isPart c = false
  number : t.isNumber = true → ∀ c cs, rest = '.' :: c :: cs → c.isDigit = false
  equals : t.takesEquals = true → ∀ cs, rest ≠ '=' :: cs

/-! ## Scanning a token -/

theorem isPart_of_isDigit {c : Char} (h : c.isDigit = true) : Identifier.isPart c = true := by
  simp [Identifier.isPart, Char.isAlphanum, h]

theorem isPart_of_isStart {c : Char} (h : Identifier.isStart c = true) :
    Identifier.isPart c = true := by
  simp only [Identifier.isStart, Identifier.isPart, Char.isAlphanum, Bool.or_eq_true] at h ⊢
  exact h.elim (fun h => .inl (.inl h)) .inr

theorem isDigit_of_isStart {c : Char} (h : Identifier.isStart c = true) : c.isDigit = false := by
  delta Identifier.isStart Char.isAlpha Char.isUpper Char.isLower at h
  simp only [Char.isDigit, Bool.or_eq_true, Bool.and_eq_true, decide_eq_true_eq, beq_iff_eq,
    Bool.and_eq_false_iff, decide_eq_false_iff_not, ge_iff_le, UInt32.le_iff_toNat_le] at h ⊢
  rcases h with (h | h) | rfl
  · simp at h ⊢
    omega
  · simp at h ⊢
    omega
  · decide

theorem isQuote_of_isStart {c : Char} (h : Identifier.isStart c = true) :
    (c == '"' || c == '\'') = false := by
  simp only [Bool.or_eq_false_iff, beq_eq_false_iff_ne]
  constructor <;> rintro rfl <;> simp [Identifier.isStart] at h

theorem isDigit_of_stops {t : Token} {rest : List Char} (h : Stops t rest) (ht : t.isWord = true) :
    ∀ c cs, rest = c :: cs → c.isDigit = false := by
  intro c cs hc
  cases hd : c.isDigit with
  | false => rfl
  | true => rw [← h.word ht c cs hc, isPart_of_isDigit hd]

/-- The whole digits of a number and what follows them up to the end of the number. -/
theorem numberLexeme_eq {c : Char} {cs ds rest : List Char} (tail : List Char) (hds : IsDigits ds)
    (hcs : c :: cs = ds ++ (tail ++ rest))
    (htail : ∀ d es, tail ++ rest = d :: es → d.isDigit = false)
    (hnum : numberTail (tail ++ rest) = tail) :
    lexeme c cs = ⟨.token (.number (ds ++ tail)), ds ++ tail, rest⟩ := by
  obtain ⟨htake, hdrop⟩ := span_digits hds _ htail
  have hc : c.isDigit = true := by
    obtain ⟨d, ds', rfl⟩ := List.exists_cons_of_ne_nil hds.1
    obtain ⟨rfl, -⟩ := List.cons.inj hcs
    exact hds.2 c (by simp)
  rw [lexeme, if_pos hc]
  simp only [numberLexeme, digits, afterDigits, hcs, htake, hdrop, hnum, List.drop_left]

theorem digits_append {ds rest : List Char} (hds : IsDigits ds)
    (h : ∀ c cs, rest = c :: cs → c.isDigit = false) : digits (ds ++ rest) = ds :=
  (span_digits hds rest h).1

theorem isEmpty_of_isDigits {ds : List Char} (h : IsDigits ds) : ds.isEmpty = false := by
  simpa using h.1

/-- Nothing more belongs to a number before a text that stops it. -/
theorem numberTail_of_stops {text rest : List Char} (h : Stops (.number text) rest) :
    numberTail rest = [] := by
  have hpart : ∀ {c cs}, rest = c :: cs → Identifier.isPart c = false := fun hc => h.word rfl _ _ hc
  unfold numberTail
  split
  · rename_i ds
    have hemp : (digits ds).isEmpty = true := by
      cases ds with
      | nil => rfl
      | cons c cs => simp [digits, h.number rfl c cs rfl]
    rw [if_pos hemp]
  · exact absurd (hpart rfl) (by decide)
  · exact absurd (hpart rfl) (by decide)
  · exact absurd (hpart rfl) (by decide)
  · exact absurd (hpart rfl) (by decide)
  · rfl

theorem numberTail_exponent {mark : Char} (hm : mark = 'e' ∨ mark = 'E') {es rest : List Char}
    (he : IsDigits es) (h : ∀ c cs, rest = c :: cs → c.isDigit = false) :
    numberTail (mark :: (es ++ rest)) = mark :: es ∧
      numberTail (mark :: '-' :: (es ++ rest)) = mark :: '-' :: es := by
  have hds := digits_append he h
  have hemp := isEmpty_of_isDigits he
  obtain ⟨d, es', rfl⟩ := List.exists_cons_of_ne_nil he.1
  have hd : d ≠ '-' := (ne_of_isDigit (he.2 d (by simp))).2.2.2.1
  rcases hm with rfl | rfl
  all_goals
    refine ⟨?_, by simp only [numberTail, hds, hemp]; rfl⟩
    unfold numberTail
    split <;> simp_all

theorem lexeme_number {c : Char} {cs text rest : List Char} (ht : IsNumber text)
    (hstop : Stops (.number text) rest) (hcs : c :: cs = text ++ rest) :
    lexeme c cs = ⟨.token (.number text), text, rest⟩ := by
  have hdigit := isDigit_of_stops hstop rfl
  have hmark : ∀ {mark : Char}, mark = 'e' ∨ mark = 'E' → mark.isDigit = false := by
    rintro _ (rfl | rfl) <;> rfl
  cases ht with
  | whole hd =>
    simpa using numberLexeme_eq [] hd hcs hdigit (numberTail_of_stops hstop)
  | fraction hd hf =>
    refine numberLexeme_eq _ hd (by simpa using hcs) (by simp) ?_
    simp [numberTail, digits_append hf hdigit, isEmpty_of_isDigits hf]
  | exponent mark hm hd he =>
    exact numberLexeme_eq _ hd (by simpa using hcs) (by simp [hmark hm])
      (numberTail_exponent hm he hdigit).1
  | negative mark hm hd he =>
    exact numberLexeme_eq _ hd (by simpa using hcs) (by simp [hmark hm])
      (numberTail_exponent hm he hdigit).2

theorem lexeme_string {q : Char} (hq : q = '"' ∨ q = '\'') {text : List Char} (ht : q ∉ text)
    (rest : List Char) :
    lexeme q (text ++ q :: rest) = ⟨.token (.string text), q :: (text ++ [q]), rest⟩ := by
  have hne : ∀ c ∈ text, (c != q) = true := by
    intro c hc
    have hcq : c ≠ q := fun h => ht (h ▸ hc)
    simpa using hcq
  have htake : (text ++ q :: rest).takeWhile (· != q) = text := by
    simp [List.takeWhile_append_of_pos hne]
  have hdrop : (text ++ q :: rest).dropWhile (· != q) = q :: rest := by
    simp [List.dropWhile_append_of_pos hne]
  have hdigit : q.isDigit = false := by rcases hq with rfl | rfl <;> rfl
  have hquote : (q == '"' || q == '\'') = true := by rcases hq with rfl | rfl <;> rfl
  rw [lexeme, hdigit, if_neg (by simp), if_pos hquote]
  simp only [stringLexeme, htake, hdrop]

theorem lexeme_word {c : Char} {cs word rest : List Char} (hw : Identifier.isValid word = true)
    (hstop : ∀ d ds, rest = d :: ds → Identifier.isPart d = false) (hcs : c :: cs = word ++ rest) :
    lexeme c cs = ⟨.token (ofWord word), word, rest⟩ := by
  obtain _ | ⟨d, ds⟩ := word
  · cases hw
  obtain ⟨rfl, rfl⟩ : c = d ∧ cs = ds ++ rest := by simpa using hcs
  simp only [Identifier.isValid, Bool.and_eq_true] at hw
  obtain ⟨hstart, hall⟩ := hw
  have hpart : ∀ x ∈ c :: ds, Identifier.isPart x = true :=
    List.forall_mem_cons.2 ⟨isPart_of_isStart hstart, List.all_eq_true.1 hall⟩
  have hspan : (c :: ds ++ rest).takeWhile Identifier.isPart = c :: ds ∧
      (c :: ds ++ rest).dropWhile Identifier.isPart = rest := by
    rw [List.takeWhile_append_of_pos hpart, List.dropWhile_append_of_pos hpart]
    cases rest with
    | nil => simp
    | cons x xs => simp [hstop x xs rfl]
  rw [lexeme, isDigit_of_isStart hstart, if_neg (by simp), isQuote_of_isStart hstart,
    if_neg (by simp), if_pos hstart]
  simp only [wordLexeme]
  rw [← List.cons_append, hspan.1, hspan.2]

/-- One lexeme, and the items of the text after it. -/
theorem rawItems_of_lexeme {c : Char} {cs text rest : List Char} {item : Item}
    (hc : isSkipped c = false) (h : lexeme c cs = ⟨item, text, rest⟩) (offset : Nat) :
    rawItems offset (c :: cs) = ⟨item, ⟨offset, offset + Text.byteLength text⟩⟩ ::
      rawItems (offset + Text.byteLength text) rest := by
  rw [rawItems, if_neg (by simp [hc])]
  simp only [h]

theorem rawItems_of_skipped : ∀ (gap cs : List Char),
    (∀ c ∈ gap, isSkipped c = true) → ∀ offset,
      rawItems offset (gap ++ cs) = rawItems (offset + Text.byteLength gap) cs
  | [], _, _, _ => by simp [Text.byteLength]
  | c :: gap, cs, h, offset => by
    obtain ⟨hc, hgap⟩ := List.forall_mem_cons.1 h
    rw [List.cons_append, rawItems, if_pos hc, rawItems_of_skipped gap cs hgap]
    simp [Text.byteLength, Nat.add_assoc]

theorem isSkipped_of_isPart {c : Char} (h : Identifier.isPart c = true) : isSkipped c = false := by
  cases hs : isSkipped c with
  | false => rfl
  | true =>
    simp only [isSkipped, Bool.or_eq_true, beq_iff_eq] at hs
    rcases hs with (((rfl | rfl) | rfl) | rfl) | rfl <;> cases h

theorem isPart_of_isSkipped {c : Char} (h : isSkipped c = true) :
    Identifier.isPart c = false ∧ c.isDigit = false ∧ c ≠ '.' ∧ c ≠ '=' := by
  simp only [isSkipped, Bool.or_eq_true, beq_iff_eq] at h
  rcases h with (((rfl | rfl) | rfl) | rfl) | rfl <;> decide

theorem isStart_of_isValid {c : Char} {cs : List Char} (h : Identifier.isValid (c :: cs) = true) :
    Identifier.isStart c = true := by
  simp only [Identifier.isValid, Bool.and_eq_true] at h
  exact h.1

theorem rawItems_word {word rest : List Char} (hw : Identifier.isValid word = true)
    (hstop : ∀ d ds, rest = d :: ds → Identifier.isPart d = false) (offset : Nat) :
    rawItems offset (word ++ rest) =
      ⟨.token (ofWord word), ⟨offset, offset + Text.byteLength word⟩⟩ ::
        rawItems (offset + Text.byteLength word) rest := by
  cases word with
  | nil => cases hw
  | cons c cs =>
    have hstart := isStart_of_isValid hw
    exact rawItems_of_lexeme (isSkipped_of_isPart (isPart_of_isStart hstart))
      (lexeme_word hw hstop (by simp)) offset

/-- The token that a character stands for on its own, where no `=` makes it another. -/
theorem rawItems_single {c : Char} {t : Token} {rest : List Char} (hc : ofChar? c = some t)
    (hstop : ∀ cs, rest = '=' :: cs → withEquals? c = none) (offset : Nat) :
    rawItems offset (c :: rest) = ⟨.token t, ⟨offset, offset + Text.byteLength [c]⟩⟩ ::
      rawItems (offset + Text.byteLength [c]) rest := by
  have hsym : symbolLexeme c rest = ⟨.token t, [c], rest⟩ := by
    unfold symbolLexeme
    simp only [hc]
    split
    · rename_i u cs hu
      rw [hstop cs rfl] at hu
      cases hu
    · rfl
  have hlex : lexeme c rest = symbolLexeme c rest ∧ isSkipped c = false := by
    unfold ofChar? at hc
    split at hc <;> first | exact ⟨rfl, rfl⟩ | cases hc
  exact rawItems_of_lexeme hlex.2 (hlex.1.trans hsym) offset

/-- The token that a character and the `=` after it stand for. -/
theorem rawItems_withEquals {c : Char} {t : Token} (hc : withEquals? c = some t)
    (rest : List Char) (offset : Nat) :
    rawItems offset (c :: '=' :: rest) =
      ⟨.token t, ⟨offset, offset + Text.byteLength [c, '=']⟩⟩ ::
        rawItems (offset + Text.byteLength [c, '=']) rest := by
  have hsym : symbolLexeme c ('=' :: rest) = ⟨.token t, [c, '='], rest⟩ := by
    simp only [symbolLexeme, hc]
  have hlex : lexeme c ('=' :: rest) = symbolLexeme c ('=' :: rest) ∧ isSkipped c = false := by
    unfold withEquals? at hc
    split at hc <;> first | exact ⟨rfl, rfl⟩ | cases hc
  exact rawItems_of_lexeme hlex.2 (hlex.1.trans hsym) offset

/-- The tokens that are scanned for a token before words are joined. -/
def raw : Token → List Token
  | .operator (.compare .notMem) => [.not, .operator (.compare .mem)]
  | .operator (.compare .notSame) => [.operator (.compare .same), .not]
  | t => [t]

section
variable (rest : List Char) (offset : Nat)

theorem values_single {c : Char} {t : Token} (hc : ofChar? c = some t)
    (hstop : ∀ cs, rest = '=' :: cs → withEquals? c = none) :
    ∃ after, (rawItems offset (c :: rest)).map Located.value =
      .token t :: (rawItems after rest).map Located.value :=
  ⟨_, by rw [rawItems_single hc hstop]; rfl⟩

theorem values_withEquals {c : Char} {t : Token} (hc : withEquals? c = some t) :
    ∃ after, (rawItems offset (c :: '=' :: rest)).map Located.value =
      .token t :: (rawItems after rest).map Located.value :=
  ⟨_, by rw [rawItems_withEquals hc]; rfl⟩

theorem values_word {word : List Char} {t : Token} (hw : Identifier.isValid word = true)
    (ht : ofWord word = t) (hstop : ∀ d ds, rest = d :: ds → Identifier.isPart d = false) :
    ∃ after, (rawItems offset (word ++ rest)).map Located.value =
      .token t :: (rawItems after rest).map Located.value :=
  ⟨_, by rw [rawItems_word hw hstop, ht]; rfl⟩

/-- Two words with white space between them. -/
theorem values_words (first gap second : List Char) {t u : Token} (hgap : gap ≠ [])
    (hskipped : ∀ c ∈ gap, isSkipped c = true)
    (hw : Identifier.isValid first = true) (ht : ofWord first = t)
    (hw' : Identifier.isValid second = true) (hu : ofWord second = u)
    (hstop : ∀ d ds, rest = d :: ds → Identifier.isPart d = false) :
    ∃ after, (rawItems offset (first ++ (gap ++ (second ++ rest)))).map Located.value =
      .token t :: .token u :: (rawItems after rest).map Located.value := by
  obtain ⟨c, cs, rfl⟩ := List.exists_cons_of_ne_nil hgap
  obtain ⟨middle, hfirst⟩ := values_word ((c :: cs) ++ (second ++ rest)) offset hw ht (by
    rintro d ds h
    obtain ⟨rfl, -⟩ := List.cons.inj h
    exact (isPart_of_isSkipped (hskipped c (by simp))).1)
  have hspace := rawItems_of_skipped _ (second ++ rest) hskipped middle
  obtain ⟨after, hsecond⟩ := values_word rest _ hw' hu hstop
  exact ⟨after, by rw [hfirst, hspace, hsecond]⟩

theorem exists_cons_of_isNumber {text : List Char} (h : IsNumber text) :
    ∃ c cs, text = c :: cs ∧ c.isDigit = true := by
  have hfirst : ∀ {ds : List Char}, IsDigits ds → ∀ more,
      ∃ c cs, ds ++ more = c :: cs ∧ c.isDigit = true := by
    intro ds hds more
    obtain ⟨c, cs, rfl⟩ := List.exists_cons_of_ne_nil hds.1
    exact ⟨c, cs ++ more, rfl, hds.2 c (by simp)⟩
  cases h with
  | whole hd => simpa using hfirst hd []
  | fraction hd _ => exact hfirst hd _
  | exponent _ _ hd _ => exact hfirst hd _
  | negative _ _ hd _ => exact hfirst hd _

theorem values_number {text : List Char} (ht : IsNumber text)
    (hstop : Stops (.number text) rest) :
    ∃ after, (rawItems offset (text ++ rest)).map Located.value =
      .token (.number text) :: (rawItems after rest).map Located.value := by
  obtain ⟨c, cs, rfl, hc⟩ := exists_cons_of_isNumber ht
  rw [List.cons_append, rawItems_of_lexeme (isSkipped_of_isPart (isPart_of_isDigit hc))
    (lexeme_number ht hstop (List.cons_append ..).symm)]
  exact ⟨_, rfl⟩

theorem values_string {q : Char} (hq : q = '"' ∨ q = '\'') {text : List Char} (ht : q ∉ text) :
    ∃ after, (rawItems offset (q :: (text ++ [q]) ++ rest)).map Located.value =
      .token (.string text) :: (rawItems after rest).map Located.value := by
  have hskip : isSkipped q = false := by rcases hq with rfl | rfl <;> rfl
  have hlex := rawItems_of_lexeme hskip (lexeme_string hq ht rest) offset
  simp only [List.cons_append, List.append_assoc, List.nil_append, hlex]
  exact ⟨_, rfl⟩

end

/-- **A token that is written down is scanned as itself**, if what follows leaves it alone. -/
theorem values_spell (l : Layout) {t : Token} {rest : List Char} (ht : t.Proper)
    (hs : Stops t rest) (offset : Nat) :
    ∃ after, (rawItems offset (l.spell t ++ rest)).map Located.value =
      t.raw.map Item.token ++ (rawItems after rest).map Located.value := by
  have hequals : t.takesEquals = true → ∀ {c : Char} cs, rest = '=' :: cs →
      withEquals? c = none := fun h _ cs hc => absurd hc (hs.equals h cs)
  cases t with
  | number text => exact values_number rest offset ht hs
  | string text => exact values_string rest offset (l.isQuote text) (l.quote_not_mem text ht)
  | name text => exact values_word rest offset ht.1 ht.2 (hs.word rfl)
  | operator op =>
    cases op with
    | arith op => cases op <;> exact values_single rest offset rfl (fun _ _ => rfl)
    | logic op => cases op <;> exact values_word rest offset rfl rfl (hs.word rfl)
    | compare op =>
      cases op with
      | eq | ne | le | ge => exact values_withEquals rest offset rfl
      | lt | gt => exact values_single rest offset rfl (hequals rfl)
      | mem | same => exact values_word rest offset rfl rfl (hs.word rfl)
      | notMem =>
        exact values_words rest offset "not".toList [' '] "in".toList (by simp)
          (by simp [isSkipped]) rfl rfl rfl rfl (hs.word rfl)
      | notSame =>
        exact values_words rest offset "is".toList [' '] "not".toList (by simp)
          (by simp [isSkipped]) rfl rfl rfl rfl (hs.word rfl)
  | not => exact values_word rest offset rfl rfl (hs.word rfl)
  | assign => exact values_single rest offset rfl (hequals rfl)
  | _ => exact values_single rest offset rfl (fun _ _ => rfl)

/-! ## Scanning a layout -/

theorem stops_nil (t : Token) : Stops t [] :=
  ⟨fun _ _ _ => nofun, fun _ _ _ => nofun, fun _ _ => nofun⟩

/-- White space leaves every token before it alone. -/
theorem stops_skipped (t : Token) {c : Char} {cs : List Char} (h : isSkipped c = true) :
    Stops t (c :: cs) := by
  obtain ⟨hpart, -, hdot, hequals⟩ := isPart_of_isSkipped h
  refine ⟨fun _ d ds hd => ?_, fun _ d ds hd => ?_, fun _ ds hd => ?_⟩
  · exact (List.cons.inj hd).1 ▸ hpart
  · exact absurd (List.cons.inj hd).1 hdot
  · exact absurd (List.cons.inj hd).1 hequals

/-- The first character of a token tells words, numbers, `=` and `.` from the rest. -/
structure Begins (u : Token) (c : Char) (cs : List Char) : Prop where
  word : u.isWord = false → Identifier.isPart c = false
  number : u.isNumber = false → c.isDigit = false
  equals : c = '=' → u.beginsWithEquals = true
  dot : c = '.' → u = .dot ∧ cs = []

theorem begins_of_isPart {u : Token} {c : Char} {cs : List Char} (hu : u.isWord = true)
    (hc : Identifier.isPart c = true) (hn : u.isNumber = false → c.isDigit = false) :
    Begins u c cs where
  word h := by rw [hu] at h; cases h
  number := hn
  equals h := by subst h; cases hc
  dot h := by subst h; cases hc

theorem begins_spell (l : Layout) {u : Token} (hu : u.Proper) :
    ∃ c cs, l.spell u = c :: cs ∧ Begins u c cs := by
  have hsymbol : ∀ {u : Token} {c : Char} {cs : List Char}, Identifier.isPart c = false →
      (c = '=' → u.beginsWithEquals = true) → (c = '.' → u = .dot ∧ cs = []) →
      Begins u c cs := by
    intro u c cs hc he hd
    refine ⟨fun _ => hc, fun _ => ?_, he, hd⟩
    cases h : c.isDigit with
    | false => rfl
    | true => rw [← hc, isPart_of_isDigit h]
  cases u with
  | number text =>
    obtain ⟨c, cs, rfl, hc⟩ := exists_cons_of_isNumber hu
    exact ⟨c, cs, rfl, begins_of_isPart rfl (isPart_of_isDigit hc) (nofun)⟩
  | string text =>
    refine ⟨_, _, rfl, ?_⟩
    rcases l.isQuote text with h | h <;> rw [h] <;>
      exact hsymbol rfl (fun h => absurd h (by decide)) (fun h => absurd h (by decide))
  | name text =>
    obtain _ | ⟨c, cs⟩ := text
    · cases hu.1
    · have hstart := isStart_of_isValid hu.1
      exact ⟨c, cs, rfl, begins_of_isPart rfl (isPart_of_isStart hstart)
        (fun _ => isDigit_of_isStart hstart)⟩
  | operator op =>
    cases op with
    | arith op => cases op <;> exact ⟨_, _, rfl, hsymbol rfl (by decide) (by decide)⟩
    | logic op => cases op <;> exact ⟨_, _, rfl, begins_of_isPart rfl rfl (fun _ => rfl)⟩
    | compare op =>
      cases op with
      | mem | notMem | same | notSame =>
        exact ⟨_, _, rfl, begins_of_isPart rfl rfl (fun _ => rfl)⟩
      | _ => exact ⟨_, _, rfl, hsymbol rfl (by decide) (by decide)⟩
  | not => exact ⟨_, _, rfl, begins_of_isPart rfl rfl (fun _ => rfl)⟩
  | _ => exact ⟨_, _, rfl, hsymbol rfl (by decide) (by decide)⟩

section
variable (l : Layout)

/-- The text from a gap on begins with white space or with the token after the gap. -/
theorem gap_append_text (t u : Token) (ts : List Token) :
    (∃ c cs, l.gap t u ++ l.text (u :: ts) = c :: cs ∧ isSkipped c = true) ∨
      (MayTouch t u ∧ l.gap t u ++ l.text (u :: ts) = l.text (u :: ts)) := by
  cases hg : l.gap t u with
  | nil => exact .inr ⟨l.mayTouch t u hg, rfl⟩
  | cons c cs => exact .inl ⟨c, _, rfl, l.isSkipped_gap t u c (by simp [hg])⟩

theorem text_cons (u : Token) (ts : List Token) :
    ∃ rest, l.text (u :: ts) = l.spell u ++ rest ∧
      (ts = [] ∧ rest = [] ∨ ∃ v vs, ts = v :: vs ∧ rest = l.gap u v ++ l.text (v :: vs)) := by
  cases ts with
  | nil => exact ⟨[], by simp [Layout.text], .inl ⟨rfl, rfl⟩⟩
  | cons v vs => exact ⟨_, rfl, .inr ⟨v, vs, rfl, rfl⟩⟩

/-- No digit follows a dot in a layout. -/
theorem isDigit_after_dot {ts : List Token} (hts : ∀ t ∈ ts, t.Proper) {c : Char}
    {cs : List Char} (h : l.text (.dot :: ts) = '.' :: c :: cs) : c.isDigit = false := by
  obtain ⟨rest, htext, hrest⟩ := text_cons l .dot ts
  obtain rfl : rest = c :: cs := by
    rw [htext] at h
    exact (List.cons.inj h).2
  rcases hrest with ⟨-, hnil⟩ | ⟨v, vs, rfl, hv⟩
  · cases hnil
  · rcases gap_append_text l .dot v vs with ⟨d, ds, hd, hskip⟩ | ⟨hm, heq⟩
    · obtain ⟨rfl, -⟩ := List.cons.inj (hv.trans hd)
      exact (isPart_of_isSkipped hskip).2.1
    · obtain ⟨d, ds, hspell, hb⟩ := begins_spell l (hts v (by simp))
      obtain ⟨more, htext', -⟩ := text_cons l v vs
      rw [heq, htext', hspell] at hv
      obtain ⟨rfl, -⟩ := List.cons.inj hv
      refine hb.number ?_
      cases hn : v.isNumber with
      | false => rfl
      | true => exact absurd ⟨rfl, hn⟩ hm.2.1

/-- A gap and the tokens after it leave the token before it alone. -/
theorem stops_gap (t u : Token) {ts : List Token} (hts : ∀ t ∈ u :: ts, t.Proper) :
    Stops t (l.gap t u ++ l.text (u :: ts)) := by
  obtain ⟨hu, hrest⟩ := List.forall_mem_cons.1 hts
  rcases gap_append_text l t u ts with ⟨c, cs, hcs, hskip⟩ | ⟨hm, heq⟩
  · rw [hcs]
    exact stops_skipped t hskip
  · obtain ⟨c, cs, hspell, hb⟩ := begins_spell l hu
    obtain ⟨more, htext, -⟩ := text_cons l u ts
    rw [heq]
    refine ⟨fun ht d ds h => ?_, fun ht d ds h => ?_, fun ht ds h => ?_⟩
    · rw [htext, hspell] at h
      obtain rfl := (List.cons.inj h).1
      refine hb.word ?_
      cases hw : u.isWord with
      | false => rfl
      | true => exact absurd ⟨ht, hw⟩ hm.1
    · have hc : c = '.' := by
        rw [htext, hspell] at h
        exact (List.cons.inj h).1
      obtain ⟨rfl, -⟩ := hb.dot hc
      exact isDigit_after_dot l hrest h
    · rw [htext, hspell] at h
      exact hm.2.2 ⟨ht, hb.equals (List.cons.inj h).1⟩

/-- **The text of a layout is scanned as the tokens that were laid out**, before words are joined.
-/
theorem values_text : ∀ {ts : List Token}, (∀ t ∈ ts, t.Proper) → ∀ offset,
    (rawItems offset (l.text ts)).map Located.value = (ts.flatMap raw).map Item.token
  | [], _, offset => by simp [Layout.text, rawItems]
  | [t], hts, offset => by
    obtain ⟨after, h⟩ := values_spell l (hts t (by simp)) (stops_nil t) offset
    simpa [Layout.text, rawItems] using h
  | t :: u :: ts, hts, offset => by
    obtain ⟨ht, hrest⟩ := List.forall_mem_cons.1 hts
    obtain ⟨after, h⟩ := values_spell l ht (stops_gap l t u hrest) offset
    have hgap := rawItems_of_skipped _ (l.text (u :: ts)) (l.isSkipped_gap t u) after
    rw [Layout.text, h, hgap, values_text hrest]
    simp

end

/-! ## Joining words -/

/-- The scanner would join the words of the two tokens. -/
def joins : Token → Token → Bool
  | .not, .operator (.compare .mem) => true
  | .operator (.compare .same), .not => true
  | .operator (.compare .same), .operator (.compare .notMem) => true
  | _, _ => false

/-- No two tokens side by side would be joined. -/
def Unjoined (ts : List Token) : Prop :=
  ∀ us t u vs, ts = us ++ t :: u :: vs → joins t u = false

theorem Unjoined.tail {t : Token} {ts : List Token} (h : Unjoined (t :: ts)) : Unjoined ts :=
  fun us x y vs hts => h (t :: us) x y vs (by rw [hts, List.cons_append])

/-- Only `not` itself and `not in` are scanned with a `not` first, and only `in` with an `in`. -/
theorem eq_of_raw_eq_cons {u v : Token} {vs : List Token} (h : u.raw = v :: vs) :
    (v = .not → u = .not ∨ u = .operator (.compare .notMem)) ∧
      (v = .operator (.compare .mem) → u = .operator (.compare .mem)) := by
  unfold raw at h
  split at h <;> obtain ⟨rfl, rfl⟩ := List.cons.inj h
  · simp
  · simp
  · exact ⟨.inl, id⟩

/-- A token that is one word or symbol stays as it is before tokens that it is not joined with. -/
theorem joinWords_cons {t : Token} {s : Span} {items : List (Located Item)} {ts : List Token}
    (h : Unjoined (t :: ts))
    (hi : items.map Located.value = (ts.flatMap raw).map Item.token) :
    joinWords (⟨.token t, s⟩ :: items) = ⟨.token t, s⟩ :: joinWords items := by
  have hnext : ∀ {v : Token} {b : Span} {rest : List (Located Item)},
      items = ⟨.token v, b⟩ :: rest → ∃ u us vs, ts = u :: us ∧ u.raw = v :: vs := by
    rintro v b rest rfl
    cases ts with
    | nil => simp at hi
    | cons u us =>
      obtain ⟨w, ws, hw⟩ : ∃ w ws, u.raw = w :: ws := by
        unfold raw
        split <;> exact ⟨_, _, rfl⟩
      obtain ⟨rfl, -⟩ : v = w ∧ _ := by simpa [hw] using hi
      exact ⟨u, us, ws, rfl, hw⟩
  rw [joinWords.eq_def]
  split
  · rename_i a b rest heq
    obtain ⟨ht, hitems⟩ := List.cons.inj heq
    obtain ⟨rfl, rfl⟩ : t = .not ∧ s = a := by simpa using ht
    obtain ⟨u, us, vs, rfl, hu⟩ := hnext hitems
    obtain rfl := (eq_of_raw_eq_cons hu).2 rfl
    cases h [] .not _ us rfl
  · rename_i a b rest heq
    obtain ⟨ht, hitems⟩ := List.cons.inj heq
    obtain ⟨rfl, rfl⟩ : t = .operator (.compare .same) ∧ s = a := by simpa using ht
    obtain ⟨u, us, vs, rfl, hu⟩ := hnext hitems
    rcases (eq_of_raw_eq_cons hu).1 rfl with rfl | rfl <;> cases h [] _ _ us rfl
  · rename_i heq
    obtain ⟨rfl, rfl⟩ := List.cons.inj heq
    rfl
  · rename_i heq
    cases heq

theorem values_joinWords : ∀ {ts : List Token} {items : List (Located Item)}, Unjoined ts →
    items.map Located.value = (ts.flatMap raw).map Item.token →
    (joinWords items).map Located.value = ts.map Item.token
  | [], items, _, hi => by
    obtain rfl : items = [] := by simpa using hi
    rfl
  | t :: ts, items, h, hi => by
    by_cases hjoin : t = .operator (.compare .notMem) ∨ t = .operator (.compare .notSame)
    · rcases hjoin with rfl | rfl
      all_goals
        obtain ⟨⟨_, a⟩, rest, rfl, rfl, hrest⟩ := List.map_eq_cons_iff.1 hi
        obtain ⟨⟨_, b⟩, more, rfl, rfl, hmore⟩ := List.map_eq_cons_iff.1 hrest
        rw [joinWords]
        simpa using values_joinWords h.tail hmore
    · have hraw : t.raw = [t] := by
        unfold raw
        split <;> simp_all
      rw [List.flatMap_cons, hraw] at hi
      obtain ⟨⟨_, a⟩, rest, rfl, rfl, hrest⟩ := List.map_eq_cons_iff.1 hi
      rw [joinWords_cons h hrest]
      simpa using values_joinWords h.tail hrest

theorem onlyTokens_of_values : ∀ {items : List (Located Item)} {ts : List Token},
    items.map Located.value = ts.map Item.token →
    ∃ us, onlyTokens items = .ok us ∧ us.map Located.value = ts
  | [], ts, h => by
    obtain rfl : ts = [] := by simpa using h.symm
    exact ⟨[], rfl, rfl⟩
  | ⟨item, s⟩ :: items, ts, h => by
    cases ts with
    | nil => simp at h
    | cons t ts =>
      obtain ⟨rfl, htail⟩ : item = .token t ∧ items.map Located.value = ts.map Item.token := by
        simpa using h
      obtain ⟨us, hus, rfl⟩ := onlyTokens_of_values htail
      exact ⟨⟨t, s⟩ :: us, by rw [onlyTokens, hus]; rfl, rfl⟩

/-- **Every layout is scanned as the tokens that were laid out.** -/
theorem scan_text (l : Layout) {ts : List Token} (hts : ∀ t ∈ ts, t.Proper) (h : Unjoined ts)
    (base : Nat) : ∃ us, scanFrom base (l.text ts) = .ok us ∧ us.map Located.value = ts :=
  onlyTokens_of_values (values_joinWords h (values_text l hts base))

end Stencil.Token
