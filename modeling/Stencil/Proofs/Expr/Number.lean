import Stencil.Expr.Parser
import Stencil.Expr.Scan

/-!
# Numbers in expressions

What the scanner takes for a number: digits, and then perhaps a fraction or an exponent
(`isNumber_of_mem_scan`). Every such text is a literal, unless it is an integer that has no room in
64 bits (`numberLiteral?_isSome_iff`).
-/
namespace Stencil

/-- At least one digit, and nothing else. -/
def IsDigits (cs : List Char) : Prop := cs ≠ [] ∧ ∀ c ∈ cs, c.isDigit = true

/-- Digits, and then perhaps a fraction or an exponent. -/
inductive IsNumber : List Char → Prop
  | whole {ds : List Char} : IsDigits ds → IsNumber ds
  | fraction {ds fs : List Char} : IsDigits ds → IsDigits fs → IsNumber (ds ++ '.' :: fs)
  | exponent {ds es : List Char} (mark : Char) : mark = 'e' ∨ mark = 'E' → IsDigits ds →
      IsDigits es → IsNumber (ds ++ mark :: es)
  | negative {ds es : List Char} (mark : Char) : mark = 'e' ∨ mark = 'E' → IsDigits ds →
      IsDigits es → IsNumber (ds ++ mark :: '-' :: es)

/-- The text is not that of an integer beyond 64 bits: one with a fraction or an exponent, or at
most the largest integer. -/
def FitsInteger (text : List Char) : Prop :=
  (∀ c ∈ text, c ≠ '.' ∧ c ≠ 'e' ∧ c ≠ 'E') →
    (Decimal.natOfDigits text : Int) ≤ Int64.maxValue.toInt

/-! ## What the scanner takes for a number -/

namespace Token

theorem isDigits_digits {cs : List Char} (h : (digits cs).isEmpty = false) :
    IsDigits (digits cs) := by
  exact ⟨by simpa using h, List.all_eq_true.1 List.all_takeWhile⟩

theorem isNumber_numberLexeme {c : Char} {cs : List Char} (hc : c.isDigit = true) :
    IsNumber (numberLexeme (c :: cs)).text := by
  have hd : IsDigits (digits (c :: cs)) := isDigits_digits (by simp [digits, hc])
  simp only [numberLexeme]
  generalize afterDigits (c :: cs) = rest
  unfold numberTail
  split <;> try split
  case h_1.isFalse h => exact .fraction hd (isDigits_digits (by simpa using h))
  case h_2.isFalse h => exact .negative 'e' (by simp) hd (isDigits_digits (by simpa using h))
  case h_3.isFalse h => exact .negative 'E' (by simp) hd (isDigits_digits (by simpa using h))
  case h_4.isFalse h => exact .exponent 'e' (by simp) hd (isDigits_digits (by simpa using h))
  case h_5.isFalse h => exact .exponent 'E' (by simp) hd (isDigits_digits (by simpa using h))
  all_goals simpa using IsNumber.whole hd

theorem isNumber_of_lexeme {c : Char} {cs text : List Char}
    (h : (lexeme c cs).item = .token (.number text)) : IsNumber text := by
  unfold lexeme at h
  split at h
  · rename_i hc
    obtain rfl : (numberLexeme (c :: cs)).text = text := by simpa [numberLexeme] using h
    exact isNumber_numberLexeme hc
  split at h
  · unfold stringLexeme at h
    dsimp only at h
    split at h <;> simp at h
  split at h
  · simp only [wordLexeme, ofWord] at h
    repeat' split at h
    all_goals simp at h
  · unfold symbolLexeme at h
    dsimp only at h
    split at h
    · rename_i ht
      unfold withEquals? at ht
      split at ht <;> simp_all
    · split at h
      · rename_i ht
        unfold ofChar? at ht
        split at ht <;> simp_all
      · simp at h

theorem isNumber_of_mem_rawItems {text : List Char} (offset : Nat) (cs : List Char)
    {i : Located Item} (hi : i ∈ rawItems offset cs) (ht : i.value = .token (.number text)) :
    IsNumber text := by
  fun_induction rawItems offset cs with
  | case1 => simp at hi
  | case2 offset c cs _ ih => exact ih hi
  | case3 offset c cs _ stop ih =>
    rcases List.mem_cons.1 hi with rfl | hi
    · exact isNumber_of_lexeme ht
    · exact ih hi

theorem mem_of_mem_joinWords {text : List Char} : ∀ {items : List (Located Item)}
    {i : Located Item}, i ∈ joinWords items → i.value = .token (.number text) → i ∈ items := by
  intro items
  fun_induction joinWords items with
  | case1 a b rest ih | case2 a b rest ih =>
    intro i hi ht
    rcases List.mem_cons.1 hi with rfl | hi
    · simp at ht
    · exact List.mem_cons_of_mem _ (List.mem_cons_of_mem _ (ih hi ht))
  | case3 item rest _ _ ih =>
    intro i hi ht
    rcases List.mem_cons.1 hi with rfl | hi
    · exact List.mem_cons_self
    · exact List.mem_cons_of_mem _ (ih hi ht)
  | case4 => exact fun hi _ => hi

theorem mem_of_onlyTokens : ∀ {items : List (Located Item)} {ts : List (Located Token)},
    onlyTokens items = .ok ts → ∀ t ∈ ts, ⟨.token t.value, t.span⟩ ∈ items
  | [], ts, h, t, ht => by
    obtain rfl := Except.ok.inj h
    simp at ht
  | ⟨.stray _, _⟩ :: _, ts, h, t, ht => by cases h
  | ⟨.token v, s⟩ :: rest, ts, h, t, ht => by
    rw [onlyTokens] at h
    cases hr : onlyTokens rest with
    | error e =>
      rw [hr] at h
      cases h
    | ok us =>
      rw [hr] at h
      obtain rfl := Except.ok.inj h
      rcases List.mem_cons.1 ht with rfl | ht
      · exact List.mem_cons_self
      · exact List.mem_cons_of_mem _ (mem_of_onlyTokens hr t ht)

/-- **The number tokens of a text are digits with perhaps a fraction or an exponent.** -/
theorem isNumber_of_mem_scan {base : Nat} {cs : List Char} {ts : List (Located Token)}
    (h : scanFrom base cs = .ok ts) {t : Located Token} (ht : t ∈ ts) {text : List Char}
    (hv : t.value = .number text) : IsNumber text :=
  isNumber_of_mem_rawItems base cs
    (mem_of_mem_joinWords (mem_of_onlyTokens h t ht) (by rw [hv])) (by rw [hv])

end Token

/-! ## Literals -/

theorem ne_of_isDigit {c : Char} (h : c.isDigit = true) :
    c ≠ '.' ∧ c ≠ 'e' ∧ c ≠ 'E' ∧ c ≠ '-' ∧ c ≠ '+' := by
  refine ⟨?_, ?_, ?_, ?_, ?_⟩ <;> rintro rfl <;> simp at h

theorem readExponent_isSome {es : List Char} (h : IsDigits es) :
    (Decimal.readExponent es).isSome = true ∧ (Decimal.readExponent ('-' :: es)).isSome = true := by
  obtain ⟨hne, hd⟩ := h
  have hall : es.all Char.isDigit = true := List.all_eq_true.2 hd
  have hemp : es.isEmpty = false := by simpa using hne
  constructor
  · obtain ⟨c, cs, rfl⟩ := List.exists_cons_of_ne_nil hne
    obtain ⟨-, -, -, hm, hp⟩ := ne_of_isDigit (hd c (by simp))
    unfold Decimal.readExponent
    split
    · rename_i h
      split at h
      · rename_i h'
        exact absurd (List.cons.inj h').1 hm
      · rename_i h'
        exact absurd (List.cons.inj h').1 hp
      · obtain ⟨-, rfl⟩ := Prod.mk.inj h
        rw [hall, hemp]
        rfl
  · simp [Decimal.readExponent, hall, hemp]

theorem span_digits {ds : List Char} (hd : IsDigits ds) (rest : List Char)
    (hr : ∀ c cs, rest = c :: cs → c.isDigit = false) :
    (ds ++ rest).takeWhile Char.isDigit = ds ∧ (ds ++ rest).dropWhile Char.isDigit = rest := by
  rw [List.takeWhile_append_of_pos hd.2, List.dropWhile_append_of_pos hd.2]
  cases rest with
  | nil => simp
  | cons c cs => simp [hr c cs rfl]

theorem readUnsigned_isSome {ds rest : List Char} (hd : IsDigits ds)
    (hr : (∃ fs, IsDigits fs ∧ rest = '.' :: fs) ∨ ∃ mark es, (mark = 'e' ∨ mark = 'E') ∧
      rest = mark :: es ∧ (Decimal.readExponent es).isSome = true) :
    (Decimal.readUnsigned (ds ++ rest)).isSome = true := by
  have hemp : ds.isEmpty = false := by simpa using hd.1
  rcases hr with ⟨fs, hf, rfl⟩ | ⟨mark, es, hm, rfl, he⟩
  · obtain ⟨htake, hdrop⟩ := span_digits hd ('.' :: fs) (by simp)
    obtain ⟨hftake, hfdrop⟩ := span_digits hf [] (by simp)
    rw [List.append_nil] at hftake hfdrop
    simp [Decimal.readUnsigned, htake, hdrop, hfdrop, hemp]
  · have hnd : mark.isDigit = false := by rcases hm with rfl | rfl <;> rfl
    obtain ⟨htake, hdrop⟩ := span_digits hd (mark :: es) (by simp [hnd])
    rcases hm with rfl | rfl <;> simp [Decimal.readUnsigned, htake, hdrop, hemp, he]

theorem read_isSome {cs : List Char} (hc : ∀ c rest, cs = c :: rest → c ≠ '-' ∧ c ≠ '+')
    (h : (Decimal.readUnsigned cs).isSome = true) : (Decimal.read cs).isSome = true := by
  unfold Decimal.read
  split
  rename_i negative body hb
  obtain rfl : body = cs := by
    split at hb
    · exact absurd rfl (hc _ _ rfl).1
    · exact absurd rfl (hc _ _ rfl).2
    · exact ((Prod.mk.inj hb).2).symm
  dsimp only
  rw [Option.isSome_map]
  split
  · rfl
  split
  · rfl
  · exact h

theorem numberLiteral?_of_mark {ds rest : List Char} {mark : Char} (hd : IsDigits ds)
    (hm : mark = '.' ∨ mark = 'e' ∨ mark = 'E')
    (hu : (Decimal.readUnsigned (ds ++ mark :: rest)).isSome = true) :
    (Parser.numberLiteral? (ds ++ mark :: rest)).isSome = true ∧
      FitsInteger (ds ++ mark :: rest) := by
  refine ⟨?_, fun h => ?_⟩
  · have hany : (ds ++ mark :: rest).any (fun c => c == '.' || c == 'e' || c == 'E') = true := by
      rcases hm with rfl | rfl | rfl <;> simp
    rw [Parser.numberLiteral?, if_pos hany, Option.isSome_map]
    refine read_isSome (fun c cs hcs => ?_) hu
    obtain ⟨d, ds', rfl⟩ := List.exists_cons_of_ne_nil hd.1
    obtain ⟨rfl, -⟩ := List.cons.inj hcs
    exact (ne_of_isDigit (hd.2 d (by simp))).2.2.2
  · obtain ⟨h1, h2, h3⟩ := h mark (by simp)
    rcases hm with rfl | rfl | rfl <;> contradiction

theorem any_mark_eq_false {ds : List Char} (hd : IsDigits ds) :
    ds.any (fun c => c == '.' || c == 'e' || c == 'E') = false := by
  rw [List.any_eq_false]
  intro c hc
  obtain ⟨h1, h2, h3, -⟩ := ne_of_isDigit (hd.2 c hc)
  simp [h1, h2, h3]

/-- **A number is a literal, unless it is an integer beyond 64 bits.** -/
theorem numberLiteral?_isSome_iff {text : List Char} (h : IsNumber text) :
    (Parser.numberLiteral? text).isSome = true ↔ FitsInteger text := by
  cases h with
  | whole hd =>
    have hfit : FitsInteger text ↔
        (Decimal.natOfDigits text : Int) ≤ Int64.maxValue.toInt := by
      refine ⟨fun hf => hf fun c hc => ?_, fun hle _ => hle⟩
      obtain ⟨h1, h2, h3, -⟩ := ne_of_isDigit (hd.2 c hc)
      exact ⟨h1, h2, h3⟩
    rw [hfit, Parser.numberLiteral?, any_mark_eq_false hd]
    simp only [Bool.false_eq_true, if_false]
    split <;> simp_all
  | fraction hd hf =>
    have hu := readUnsigned_isSome hd (.inl ⟨_, hf, rfl⟩)
    obtain ⟨hs, hfit⟩ := numberLiteral?_of_mark hd (.inl rfl) hu
    exact iff_of_true hs hfit
  | exponent mark hm hd he =>
    have hu := readUnsigned_isSome hd (.inr ⟨mark, _, hm, rfl, (readExponent_isSome he).1⟩)
    obtain ⟨hs, hfit⟩ := numberLiteral?_of_mark hd (.inr hm) hu
    exact iff_of_true hs hfit
  | negative mark hm hd he =>
    have hu := readUnsigned_isSome hd (.inr ⟨mark, _, hm, rfl, (readExponent_isSome he).2⟩)
    obtain ⟨hs, hfit⟩ := numberLiteral?_of_mark hd (.inr hm) hu
    exact iff_of_true hs hfit

theorem isDigits_toDigits (n : Nat) : IsDigits (Nat.toDigits 10 n) :=
  ⟨Nat.toDigits_ne_nil, fun _ hc => Nat.isDigit_of_mem_toDigits (by decide) (by decide) hc⟩

/-- The digits of an integer are read as that integer. -/
theorem numberLiteral?_toDigits {n : Int64} (h : 0 ≤ n.toInt) :
    Parser.numberLiteral? (Nat.toDigits 10 n.toInt.toNat) = some (.int n) := by
  have hvalue : Decimal.natOfDigits (Nat.toDigits 10 n.toInt.toNat) = n.toInt.toNat :=
    Nat.ofDigitChars_ten_toDigits
  have hle : (n.toInt.toNat : Int) ≤ Int64.maxValue.toInt := by
    rw [Int.toNat_of_nonneg h]
    exact Int64.toInt_le n
  have hback : Int64.ofNat n.toInt.toNat = n := by
    rw [← Int64.ofInt_eq_ofNat, Int.toNat_of_nonneg h, Int64.ofInt_toInt]
  rw [Parser.numberLiteral?, any_mark_eq_false (isDigits_toDigits _), if_neg (by simp)]
  dsimp only
  rw [hvalue, if_pos hle, hback]

end Stencil
