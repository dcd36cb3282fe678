import Stencil.Expr.Read
import Stencil.Proofs.Expr.Relocation

/-!
# Where an expression stands

An expression is read in the same way wherever it stands: further on in a template its tree, or its
fault, is moved by as many bytes and otherwise the same (`readAt_shift`). Cutting offsets off behind
an end moves no span that lies before it (`Span.relocate_min`).
-/
namespace Stencil

/-! ## Offsets up to an end -/

/-- No offset of the span lies behind `stop`. -/
def Span.Below (stop : Nat) (s : Span) : Prop := s.start ≤ stop ∧ s.stop ≤ stop

theorem Span.relocate_min {stop : Nat} {s : Span} (h : s.Below stop) :
    s.relocate (min stop) = s := by
  obtain ⟨a, b⟩ := s
  simp [Nat.min_eq_right h.1, Nat.min_eq_right h.2]

theorem Span.below_of_relocate_min {stop : Nat} {s : Span} (h : s.relocate (min stop) = s) :
    s.Below stop := by
  rw [← h]
  exact ⟨Nat.min_le_left _ _, Nat.min_le_left _ _⟩

/-! ## Changing spans twice -/

theorem DottedName.mapSpan_mapSpan (f h : Span → Span) (n : DottedName) :
    (n.mapSpan f).mapSpan h = n.mapSpan (h ∘ f) := by
  rw [DottedName.mapSpan, DottedName.mapSpan, List.map_map]
  rfl

mutual

theorem Expr.mapSpan_mapSpan (f h : Span → Span) : ∀ e : Expr,
    (e.mapSpan f).mapSpan h = e.mapSpan (h ∘ f)
  | .literal _ _ | .name _ _ => rfl
  | .attribute _ b _ => by
    simp only [Expr.mapSpan, Expr.mapSpan_mapSpan f h b, Ident.mapSpan, Function.comp]
  | .index _ l r | .arith _ _ l r | .compare _ _ l r | .logic _ _ l r => by
    simp only [Expr.mapSpan, Expr.mapSpan_mapSpan f h l, Expr.mapSpan_mapSpan f h r,
      Function.comp]
  | .call _ c as ks => by
    simp only [Expr.mapSpan, Expr.mapSpan_mapSpan f h c, mapSpans_mapSpans f h as,
      mapKeywordSpans_mapKeywordSpans f h ks, Function.comp]
  | .filter _ i n as ks => by
    simp only [Expr.mapSpan, Expr.mapSpan_mapSpan f h i, mapSpans_mapSpans f h as,
      mapKeywordSpans_mapKeywordSpans f h ks, DottedName.mapSpan_mapSpan, Function.comp]

theorem mapSpans_mapSpans (f h : Span → Span) (es : List Expr) :
    mapSpans h (mapSpans f es) = mapSpans (h ∘ f) es := by
  cases es with
  | nil => rfl
  | cons e es => simp only [mapSpans, Expr.mapSpan_mapSpan f h e, mapSpans_mapSpans f h es]

theorem mapKeywordSpans_mapKeywordSpans (f h : Span → Span) (ks : List (Ident × Expr)) :
    mapKeywordSpans h (mapKeywordSpans f ks) = mapKeywordSpans (h ∘ f) ks := by
  cases ks with
  | nil => rfl
  | cons k ks =>
    cases k with
    | mk i e =>
      simp only [mapKeywordSpans, Expr.mapSpan_mapSpan f h e,
        mapKeywordSpans_mapKeywordSpans f h ks, Ident.mapSpan, Function.comp]

end

/-- Forgetting the places forgets what was done to them. -/
theorem Expr.bare_mapSpan (f : Span → Span) (e : Expr) : (e.mapSpan f).bare = e.bare :=
  e.mapSpan_mapSpan f _

/-! ## Lexemes -/

namespace Token

theorem numberTail_isPrefix (cs : List Char) : numberTail cs <+: cs := by
  unfold numberTail
  split
  all_goals
    first
      | exact List.nil_prefix
      | split
        · exact List.nil_prefix
        · simp only [List.prefix_cons_inj]
          exact List.takeWhile_prefix _

theorem text_append_rest_numberLexeme (cs : List Char) :
    (numberLexeme cs).text ++ (numberLexeme cs).rest = cs := by
  have htail := List.prefix_iff_eq_append.1 (numberTail_isPrefix (afterDigits cs))
  simp only [numberLexeme, List.append_assoc, htail]
  exact List.takeWhile_append_dropWhile

theorem text_append_rest_stringLexeme (q : Char) (cs : List Char) :
    (stringLexeme q cs).text ++ (stringLexeme q cs).rest = q :: cs := by
  have hcut : cs.takeWhile (· != q) ++ cs.dropWhile (· != q) = cs :=
    List.takeWhile_append_dropWhile
  unfold stringLexeme
  dsimp only
  split
  · rename_i hd
    rw [hd] at hcut
    simpa using hcut
  · rename_i a rest hd
    have ha : a = q := by
      have := List.head?_dropWhile_not (· != q) cs
      rw [hd] at this
      simpa using this
    rw [hd, ha] at hcut
    simpa using hcut

theorem text_append_rest_symbolLexeme (c : Char) (cs : List Char) :
    (symbolLexeme c cs).text ++ (symbolLexeme c cs).rest = c :: cs := by
  unfold symbolLexeme
  dsimp only
  split
  · rfl
  · split <;> rfl

/-- A lexeme is cut off the text it begins. -/
theorem text_append_rest_lexeme (c : Char) (cs : List Char) :
    (lexeme c cs).text ++ (lexeme c cs).rest = c :: cs := by
  unfold lexeme
  split
  · exact text_append_rest_numberLexeme (c :: cs)
  · split
    · exact text_append_rest_stringLexeme c cs
    · split
      · exact List.takeWhile_append_dropWhile
      · exact text_append_rest_symbolLexeme c cs

/-! ## Items -/

theorem rawItems_shift (n offset : Nat) (cs : List Char) :
    rawItems (n + offset) cs = (rawItems offset cs).map (Located.relocate (n + ·)) := by
  induction offset, cs using rawItems.induct with
  | case1 offset => simp [rawItems]
  | case2 offset c cs hc ih =>
    rw [rawItems, rawItems, if_pos hc, if_pos hc, ← ih, Nat.add_assoc]
  | case3 offset c cs hc stop ih =>
    rw [rawItems, rawItems, if_neg hc, if_neg hc, List.map_cons, ← ih, Nat.add_assoc]
    rfl

variable (g : Nat → Nat)

theorem relocate_eq_mk {α : Type} {t : Located α} {v : α} {s : Span}
    (h : t.relocate g = ⟨v, s⟩) : t = ⟨v, t.span⟩ := by
  cases h
  rfl

theorem joinWords_relocate (is : List (Located Item)) :
    joinWords (is.map (Located.relocate g)) = (joinWords is).map (Located.relocate g) := by
  induction is using joinWords.induct with
  | case1 a b rest ih =>
    simp only [List.map_cons, Located.relocate, joinWords, ← ih]
    rfl
  | case2 a b rest ih =>
    simp only [List.map_cons, Located.relocate, joinWords, ← ih]
    rfl
  | case3 item rest h1 h2 ih =>
    rw [joinWords.eq_3 _ _ h1 h2, List.map_cons, List.map_cons, ← ih, joinWords.eq_3]
    · intro a b rest' hi hr
      obtain ⟨j, js, rfl, hj, -⟩ := List.map_eq_cons_iff.1 hr
      exact h1 _ _ js (relocate_eq_mk g hi) (by rw [relocate_eq_mk g hj])
    · intro a b rest' hi hr
      obtain ⟨j, js, rfl, hj, -⟩ := List.map_eq_cons_iff.1 hr
      exact h2 _ _ js (relocate_eq_mk g hi) (by rw [relocate_eq_mk g hj])
  | case4 => rfl

/-- The fragment with its place changed by `g`. -/
def Stray.relocate (s : Stray) : Stray := ⟨s.fragment, s.span.relocate g⟩

theorem onlyTokens_relocate : ∀ is : List (Located Item),
    onlyTokens (is.map (Located.relocate g)) =
      ((onlyTokens is).map (List.map (Located.relocate g))).mapError (Stray.relocate g)
  | [] => rfl
  | ⟨.stray fragment, span⟩ :: rest => rfl
  | ⟨.token t, span⟩ :: rest => by
    simp only [List.map_cons, Located.relocate, onlyTokens, onlyTokens_relocate rest]
    cases onlyTokens rest <;> rfl

theorem scanFrom_shift (n offset : Nat) (text : List Char) :
    scanFrom (n + offset) text =
      ((scanFrom offset text).map (List.map (Located.relocate (n + ·)))).mapError
        (Stray.relocate (n + ·)) := by
  rw [scanFrom, scanFrom, itemsFrom, itemsFrom, rawItems_shift, joinWords_relocate,
    onlyTokens_relocate]

end Token

/-! ## Expressions -/

namespace Expr

theorem readAt_eq_ok_iff {base : Nat} {text : List Char} {e : Expr} :
    readAt base text = .ok e ↔ ∃ ts, Token.scanFrom base text = .ok ts ∧
      Parser.parse (base + Text.byteLength text) ts = .ok e := by
  unfold readAt
  cases Token.scanFrom base text with
  | error stray => simp
  | ok ts => cases hp : Parser.parse (base + Text.byteLength text) ts <;> simp [hp]

/-- **An expression may stand anywhere.** Behind `n` more bytes the same text gives the same tree or
the same fault, `n` bytes further on. -/
theorem readAt_shift (n base : Nat) (text : List Char) :
    readAt (n + base) text =
      ((readAt base text).map (Expr.shift n)).mapError (Located.relocate (n + ·)) := by
  cases hs : Token.scanFrom base text with
  | error stray =>
    rw [readAt, readAt, Token.scanFrom_shift, hs]
    rfl
  | ok ts =>
    have hscan : Token.scanFrom (n + base) text = .ok (ts.map (Located.relocate (n + ·))) := by
      rw [Token.scanFrom_shift, hs]
      rfl
    have hparse := Parser.parse_relocate (n + ·) (base + Text.byteLength text) ts
    rw [← Nat.add_assoc] at hparse
    rw [readAt, readAt, hscan, hs]
    dsimp only
    rw [hparse]
    cases Parser.parse (base + Text.byteLength text) ts <;> rfl

theorem readAt_of_read {text : List Char} {e : Expr} (h : read text = .ok e) (base : Nat) :
    readAt base text = .ok (e.shift base) := by
  have hshift := readAt_shift base 0 text
  rw [← read, h] at hshift
  exact hshift

end Expr
end Stencil
