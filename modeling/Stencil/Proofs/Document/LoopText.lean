import Stencil.Proofs.Document.Tags
import Stencil.Proofs.Expr.Balance
import Stencil.Proofs.Expr.Number
import Stencil.Proofs.Expr.Spelling

/-!
# The text of a loop

The text of a loop tag is cut into words before its expression is read, by rules of its own for
quotes and parentheses: for words a backslash takes the next character with it, for expressions it
is a character as any other. Where no string of an expression ends in a backslash that would take
the quote (`Paired`), the two agree: behind each lexeme no quote is open and as many parentheses as
the tokens opened (`walk_lexeme`). So the text `x in e` is cut into `x`, `in` and the words of `e`
(`split_loopText`).
-/
namespace Stencil

namespace TagWords

/-! ## Walks -/

/-- Reading `cs` leads from one state to another within a word, which begins at `offset` unless one
was begun before. -/
structure Walk (s : State) (offset : Nat) (cs : List Char) (s' : State) : Prop where
  split : ∀ rest, splitFrom s offset (cs ++ rest) =
    splitFrom s' (offset + Text.byteLength cs) rest
  escaped : s'.escaped = false
  word : s'.word.map Pending.offset = some ((s.word.map Pending.offset).getD offset)

theorem Walk.trans {s s' s'' : State} {offset : Nat} {a b : List Char} (ha : Walk s offset a s')
    (hb : Walk s' (offset + Text.byteLength a) b s'') : Walk s offset (a ++ b) s'' := by
  refine ⟨fun rest => ?_, hb.escaped, ?_⟩
  · rw [List.append_assoc, ha.split, hb.split, Text.byteLength_append, Nat.add_assoc]
  · rw [hb.word, ha.word]
    rfl

theorem State.push_eq (s : State) (offset : Nat) (c : Char) :
    (s.push offset c).escaped = s.escaped ∧ (s.push offset c).quote = s.quote ∧
      (s.push offset c).depth = s.depth ∧
      (s.push offset c).word.map Pending.offset =
        some ((s.word.map Pending.offset).getD offset) := by
  obtain ⟨escaped, quote, depth, _ | w⟩ := s <;> exact ⟨rfl, rfl, rfl, rfl⟩

theorem State.isSome_push (s : State) (offset : Nat) (c : Char) :
    (s.push offset c).word.isSome = true := by
  obtain ⟨escaped, quote, depth, _ | w⟩ := s <;> rfl

/-- One character that stays in its word. -/
theorem Walk.char {s s' : State} {c : Char} (he : s.escaped = false) (hc : c ≠ '\\')
    (hb : (Text.isBlank c && s.free) = false) (ho : s.open? c = some s') (offset : Nat) :
    Walk s offset [c] (s'.push offset c) := by
  obtain ⟨hescaped, hword⟩ := State.open?_eq_some ho
  obtain ⟨hpe, -, -, hpw⟩ := s'.push_eq offset c
  refine ⟨fun rest => ?_, by rw [hpe, hescaped, he], by rw [hpw, hword]⟩
  rw [List.cons_append, splitFrom_cons he hc, hb, ho]
  simp

/-! ## Plain text -/

/-- The character neither ends a word nor opens or closes anything. -/
def Plain (c : Char) : Prop :=
  c ≠ '\\' ∧ c ≠ '"' ∧ c ≠ '\'' ∧ c ≠ '(' ∧ c ≠ ')' ∧ Text.isBlank c = false

instance (c : Char) : Decidable (Plain c) := by unfold Plain; infer_instance

theorem open?_of_plain {c : Char} (h : c ≠ '"' ∧ c ≠ '\'' ∧ c ≠ '(' ∧ c ≠ ')') (s : State) :
    s.open? c = some s := by
  obtain ⟨h1, h2, h3, h4⟩ := h
  simp [State.open?, h1, h2, h3, h4]

/-- The state with characters added to the word, which begins at `offset` if there is none. -/
def State.pushAll (s : State) (offset : Nat) (cs : List Char) : State :=
  { s with word := some ⟨(s.word.map Pending.offset).getD offset,
      cs.reverse ++ (s.word.map Pending.letters).getD []⟩ }

theorem State.push_eq_pushAll (s : State) (offset : Nat) (c : Char) :
    s.push offset c = s.pushAll offset [c] := by
  obtain ⟨escaped, quote, depth, _ | w⟩ := s <;> rfl

theorem State.pushAll_pushAll (s : State) (offset next : Nat) (as bs : List Char) :
    (s.pushAll offset as).pushAll next bs = s.pushAll offset (as ++ bs) := by
  simp [State.pushAll]

theorem walk_plain : ∀ {cs : List Char}, cs ≠ [] → (∀ c ∈ cs, Plain c) → ∀ {s : State},
    s.escaped = false → ∀ offset, Walk s offset cs (s.pushAll offset cs)
  | [], h, _, _, _, _ => absurd rfl h
  | c :: cs, _, hp, s, he, offset => by
    obtain ⟨⟨h1, h2, h3, h4, h5, h6⟩, hcs⟩ := List.forall_mem_cons.1 hp
    have hchar := Walk.char he h1 (by simp [h6]) (open?_of_plain ⟨h2, h3, h4, h5⟩ s) offset
    rw [State.push_eq_pushAll] at hchar
    cases cs with
    | nil => exact hchar
    | cons d ds =>
      have hrest := walk_plain (List.cons_ne_nil d ds) hcs hchar.escaped
        (offset + Text.byteLength [c])
      rw [State.pushAll_pushAll] at hrest
      exact hchar.trans hrest

theorem lt_of_isPart {c : Char} (h : Identifier.isPart c = true) : c.toNat < 128 := by
  delta Identifier.isPart Char.isAlphanum Char.isAlpha Char.isUpper Char.isLower Char.isDigit at h
  simp only [Bool.or_eq_true, Bool.and_eq_true, decide_eq_true_eq, beq_iff_eq, ge_iff_le,
    UInt32.le_iff_toNat_le] at h
  rcases h with ((h | h) | h) | rfl
  · simp at h
    omega
  · simp at h
    omega
  · simp at h
    omega
  · decide

theorem plain_ascii : ∀ n < 128, Identifier.isPart (Char.ofNat n) = true →
    Plain (Char.ofNat n) := by decide +kernel

theorem plain_of_isPart {c : Char} (h : Identifier.isPart c = true) : Plain c := by
  have hplain := plain_ascii c.toNat (lt_of_isPart h)
  rw [Char.ofNat_toNat] at hplain
  exact hplain h

theorem plain_of_isDigits {ds : List Char} (h : IsDigits ds) : ∀ c ∈ ds, Plain c :=
  fun c hc => plain_of_isPart (Token.isPart_of_isDigit (h.2 c hc))

theorem plain_of_isNumber {text : List Char} (h : IsNumber text) : ∀ c ∈ text, Plain c := by
  have hmark : ∀ mark : Char, mark = 'e' ∨ mark = 'E' → Plain mark := by
    rintro mark (rfl | rfl) <;> decide
  cases h with
  | whole hd => exact plain_of_isDigits hd
  | fraction hd hf =>
    exact List.forall_mem_append.2 ⟨plain_of_isDigits hd,
      List.forall_mem_cons.2 ⟨by decide, plain_of_isDigits hf⟩⟩
  | exponent mark hm hd he =>
    exact List.forall_mem_append.2 ⟨plain_of_isDigits hd,
      List.forall_mem_cons.2 ⟨hmark mark hm, plain_of_isDigits he⟩⟩
  | negative mark hm hd he =>
    exact List.forall_mem_append.2 ⟨plain_of_isDigits hd, List.forall_mem_cons.2 ⟨hmark mark hm,
      List.forall_mem_cons.2 ⟨by decide, plain_of_isDigits he⟩⟩⟩

theorem isPart_of_isValid {word : List Char} (h : Identifier.isValid word = true) :
    ∀ c ∈ word, Identifier.isPart c = true := by
  cases word with
  | nil => cases h
  | cons c cs =>
    simp only [Identifier.isValid, Bool.and_eq_true, List.all_eq_true] at h
    exact List.forall_mem_cons.2 ⟨Token.isPart_of_isStart h.1, h.2⟩

theorem plain_of_isValid {word : List Char} (h : Identifier.isValid word = true) :
    ∀ c ∈ word, Plain c := fun c hc => plain_of_isPart (isPart_of_isValid h c hc)

/-! ## Quoted text -/

/-- The character of a quote. -/
def quoteChar : Quote → Char
  | .double => '"'
  | .single => '\''

/-- Outside of quotes a quote is opened, and in it it is closed. -/
theorem open?_quoteChar (q : Quote) (s : State) :
    s.open? (quoteChar q) = some { s with quote := toggle q s.quote } := by
  cases q <;> rfl

/-- Within a quote nothing else is opened or closed. -/
theorem open?_quoted {q : Quote} {s : State} (hq : s.quote = some q) {c : Char}
    (hc : c ≠ quoteChar q) : s.open? c = some s := by
  obtain ⟨escaped, quote, depth, word⟩ := s
  obtain rfl : quote = some q := hq
  unfold State.open?
  cases q with
  | double =>
    rw [if_neg (by exact hc)]
    split
    · rfl
    · simp
  | single =>
    split
    · rfl
    · rw [if_neg (by exact hc)]
      simp

/-- Every backslash takes a character with it. -/
inductive Paired : List Char → Prop
  | nil : Paired []
  | char {c : Char} {cs : List Char} : c ≠ '\\' → Paired cs → Paired (c :: cs)
  | escape (c : Char) {cs : List Char} : Paired cs → Paired ('\\' :: c :: cs)

theorem paired_of_not_mem : ∀ {cs : List Char}, '\\' ∉ cs → Paired cs
  | [], _ => .nil
  | c :: cs, h => by
    obtain ⟨hc, hcs⟩ := List.ne_and_not_mem_of_not_mem_cons h
    exact .char (Ne.symm hc) (paired_of_not_mem hcs)

/-- A backslash and the character that it takes open and close nothing. -/
theorem walk_escape {s : State} (he : s.escaped = false) (c : Char) (offset : Nat) :
    Walk s offset ['\\', c] ((s.push offset '\\').push (offset + 1) c) := by
  obtain ⟨hfirst, -, -, hword⟩ := s.push_eq offset '\\'
  obtain ⟨hsecond, -, -, hword'⟩ := (s.push offset '\\').push_eq (offset + 1) c
  refine ⟨fun rest => ?_, by rw [hsecond, hfirst, he], by rw [hword', hword]; rfl⟩
  obtain ⟨escaped, quote, depth, word⟩ := s
  obtain rfl : escaped = false := he
  have hlength : offset + Text.byteLength ['\\', c] = offset + 1 + c.utf8Size := by
    rw [Text.byteLength_cons, Text.byteLength_cons, Text.byteLength_nil, Nat.add_assoc]
    rfl
  rw [hlength]
  rfl

theorem walk_quoted {q : Quote} {cs : List Char} (hp : Paired cs) :
    quoteChar q ∉ cs → ∀ {s : State}, s.escaped = false → s.quote = some q → s.word.isSome →
    ∀ offset, ∃ s', Walk s offset cs s' ∧ s'.quote = some q ∧ s'.depth = s.depth := by
  induction hp with
  | nil =>
    intro _ s he hq hw offset
    refine ⟨s, ⟨fun rest => rfl, he, ?_⟩, hq, rfl⟩
    obtain ⟨w, hw⟩ := Option.isSome_iff_exists.1 hw
    simp [hw]
  | @char c cs hslash _ ih =>
    intro hn s he hq hw offset
    obtain ⟨hc, hcs⟩ := List.ne_and_not_mem_of_not_mem_cons hn
    have hfree : (Text.isBlank c && s.free) = false := by simp [State.free, hq]
    have hchar := Walk.char he hslash hfree (open?_quoted hq (Ne.symm hc)) offset
    obtain ⟨-, hpq, hpd, -⟩ := s.push_eq offset c
    obtain ⟨s', hwalk, hq', hd'⟩ := ih hcs hchar.escaped (hpq.trans hq)
      (s.isSome_push offset c) (offset + Text.byteLength [c])
    exact ⟨s', hchar.trans hwalk, hq', hd'.trans hpd⟩
  | @escape c cs _ ih =>
    intro hn s he hq hw offset
    have hcs : quoteChar q ∉ cs := fun h => hn (List.mem_cons_of_mem _ (List.mem_cons_of_mem _ h))
    have hpair := walk_escape he c offset
    obtain ⟨-, hpq, hpd, -⟩ := s.push_eq offset '\\'
    obtain ⟨-, hpq', hpd', -⟩ := (s.push offset '\\').push_eq (offset + 1) c
    obtain ⟨s', hwalk, hq', hd'⟩ := ih hcs hpair.escaped ((hpq'.trans hpq).trans hq)
      (State.isSome_push _ _ c) (offset + Text.byteLength ['\\', c])
    exact ⟨s', hpair.trans hwalk, hq', hd'.trans (hpd'.trans hpd)⟩

/-- A string with its quotes. -/
theorem walk_string (q : Quote) {body : List Char} (hn : quoteChar q ∉ body) (hp : Paired body)
    {s : State} (he : s.escaped = false) (hq : s.quote = none) (offset : Nat) :
    ∃ s', Walk s offset (quoteChar q :: (body ++ [quoteChar q])) s' ∧ s'.quote = none ∧
      s'.depth = s.depth := by
  have hslash : quoteChar q ≠ '\\' := by cases q <;> decide
  have hblank : ∀ s : State, (Text.isBlank (quoteChar q) && s.free) = false := by
    cases q <;> exact fun s => rfl
  -- the opening quote, the text in it and the closing quote
  have hopen := Walk.char he hslash (hblank s) (open?_quoteChar q s) offset
  obtain ⟨-, hpq, hpd, -⟩ :=
    State.push_eq { s with quote := toggle q s.quote } offset (quoteChar q)
  obtain ⟨s₁, hwalk, hq₁, hd₁⟩ := walk_quoted hp hn hopen.escaped (hpq.trans (by rw [hq]; rfl))
    (State.isSome_push _ _ _) (offset + Text.byteLength [quoteChar q])
  have hclose := Walk.char hwalk.escaped hslash (hblank s₁) (open?_quoteChar q s₁)
    (offset + Text.byteLength [quoteChar q] + Text.byteLength body)
  obtain ⟨-, hcq, hcd, -⟩ := State.push_eq { s₁ with quote := toggle q s₁.quote }
    (offset + Text.byteLength [quoteChar q] + Text.byteLength body) (quoteChar q)
  refine ⟨_, hopen.trans (hwalk.trans hclose), ?_, ?_⟩
  · rw [hcq]
    simp [hq₁, toggle]
  · rw [hcd]
    exact hd₁.trans hpd

/-! ## Lexemes -/

theorem depthAfter_ofWord (word : List Char) (depth : Nat) :
    (Token.ofWord word).depthAfter depth = some depth := by
  unfold Token.ofWord
  repeat' split
  all_goals rfl

/-- Reading `cs` leads to a state with no quote open and `depth` parentheses. -/
def WalksTo (s : State) (offset : Nat) (cs : List Char) (depth : Nat) : Prop :=
  ∃ s', Walk s offset cs s' ∧ s'.quote = none ∧ s'.depth = depth

section

-- no quote is open, and `depth` parentheses are open behind the token
variable {s : State} {t : Token} {depth : Nat} (he : s.escaped = false) (hq : s.quote = none)
  (hd : t.depthAfter s.depth = some depth) (offset : Nat)
include he hq hd

/-- A lexeme of plain characters that is no parenthesis. -/
theorem walk_of_plain {cs : List Char} (hn : cs ≠ []) (hp : ∀ c ∈ cs, Plain c)
    (ht : ∀ depth, t.depthAfter depth = some depth) : WalksTo s offset cs depth := by
  rw [ht] at hd
  exact ⟨_, walk_plain hn hp he offset, hq, Option.some.inj hd⟩

/-- A single character that is a token. -/
theorem walk_ofChar {c : Char} (ht : Token.ofChar? c = some t) : WalksTo s offset [c] depth := by
  have hplain : Plain c → (∀ depth, t.depthAfter depth = some depth) →
      WalksTo s offset [c] depth :=
    fun hp ht => walk_of_plain he hq hd offset (List.cons_ne_nil c []) (by simpa using hp) ht
  unfold Token.ofChar? at ht
  split at ht
  case h_3 =>
    obtain rfl := Option.some.inj ht
    obtain rfl := Option.some.inj hd
    have ho : s.open? '(' = some { s with depth := s.depth + 1 } := by simp [State.open?, hq]
    obtain ⟨-, hpq, hpd, -⟩ := State.push_eq { s with depth := s.depth + 1 } offset '('
    exact ⟨_, Walk.char he (by decide) rfl ho offset, hpq.trans hq, hpd⟩
  case h_4 =>
    obtain rfl := Option.some.inj ht
    obtain ⟨escaped, quote, _ | depth, word⟩ := s
    · cases hd
    obtain rfl := Option.some.inj hd
    obtain rfl : quote = none := hq
    obtain ⟨-, hpq, hpd, -⟩ := State.push_eq ⟨escaped, none, depth, word⟩ offset ')'
    exact ⟨_, Walk.char he (by decide) rfl rfl offset, hpq, hpd⟩
  case h_17 => cases ht
  all_goals
    obtain rfl := Option.some.inj ht
    exact hplain (by decide) (fun _ => rfl)

theorem walk_withEquals {c : Char} (ht : Token.withEquals? c = some t) :
    WalksTo s offset [c, '='] depth := by
  have hplain : Plain c ∧ ∀ depth, t.depthAfter depth = some depth := by
    unfold Token.withEquals? at ht
    split at ht
    all_goals cases ht
    all_goals exact ⟨by decide, fun _ => rfl⟩
  refine walk_of_plain he hq hd offset (List.cons_ne_nil c _) ?_ hplain.2
  exact List.forall_mem_cons.2 ⟨hplain.1, List.forall_mem_singleton.2 (by decide)⟩

theorem walk_symbol {c : Char} {cs : List Char}
    (ht : (Token.symbolLexeme c cs).item = .token t) :
    WalksTo s offset (Token.symbolLexeme c cs).text depth := by
  unfold Token.symbolLexeme at ht ⊢
  dsimp only at ht ⊢
  split at ht
  · rename_i hw
    obtain rfl := Token.Item.token.inj ht
    exact walk_withEquals he hq hd offset hw
  · split at ht
    · rename_i hc
      obtain rfl := Token.Item.token.inj ht
      exact walk_ofChar he hq hd offset hc
    · cases ht

theorem walk_number {c : Char} {cs : List Char} (hc : c.isDigit = true)
    (ht : (Token.numberLexeme (c :: cs)).item = .token t) :
    WalksTo s offset (Token.numberLexeme (c :: cs)).text depth := by
  obtain rfl := Token.Item.token.inj ht
  have hn : IsNumber (Token.numberLexeme (c :: cs)).text := Token.isNumber_numberLexeme hc
  refine walk_of_plain he hq hd offset ?_ (plain_of_isNumber hn) (fun _ => rfl)
  obtain ⟨d, ds, hcons, -⟩ := Token.exists_cons_of_isNumber hn
  rw [hcons]
  exact List.cons_ne_nil d ds

/-- The quotes of a string are closed: one that is not is no token. -/
theorem walk_stringLexeme (q : Quote) {cs : List Char}
    (ht : (Token.stringLexeme (quoteChar q) cs).item = .token t)
    (hp : ∀ body, t = .string body → Paired body) :
    WalksTo s offset (Token.stringLexeme (quoteChar q) cs).text depth := by
  unfold Token.stringLexeme at ht ⊢
  dsimp only at ht ⊢
  cases hrest : cs.dropWhile (· != quoteChar q) with
  | nil =>
    rw [hrest] at ht
    cases ht
  | cons close rest =>
    rw [hrest] at ht
    obtain rfl := Token.Item.token.inj ht
    obtain rfl := Option.some.inj hd
    refine walk_string q (fun hm => ?_) (hp _ rfl) he hq offset
    simpa using List.all_eq_true.1 List.all_takeWhile _ hm

theorem walk_word {c : Char} {cs : List Char} (hc : Identifier.isStart c = true)
    (ht : (Token.wordLexeme (c :: cs)).item = .token t) :
    WalksTo s offset (Token.wordLexeme (c :: cs)).text depth := by
  obtain rfl := Token.Item.token.inj ht
  have hpart : ∀ d ∈ (c :: cs).takeWhile Identifier.isPart, Identifier.isPart d = true :=
    List.all_eq_true.1 List.all_takeWhile
  refine walk_of_plain he hq hd offset ?_ (fun d hd => plain_of_isPart (hpart d hd))
    (depthAfter_ofWord _)
  simp [Token.wordLexeme, Token.isPart_of_isStart hc]

/-- **Quotes and parentheses behind a lexeme** are those that its token opens and closes. -/
theorem walk_lexeme {c : Char} {cs : List Char} (ht : (Token.lexeme c cs).item = .token t)
    (hp : ∀ body, t = .string body → Paired body) :
    WalksTo s offset (Token.lexeme c cs).text depth := by
  unfold Token.lexeme at ht ⊢
  split
  · rename_i hdigit
    rw [if_pos hdigit] at ht
    exact walk_number he hq hd offset hdigit ht
  · rename_i hdigit
    rw [if_neg hdigit] at ht
    split
    · rename_i hquote
      rw [if_pos hquote] at ht
      obtain ⟨q, rfl⟩ : ∃ q, c = quoteChar q := by
        rcases Bool.or_eq_true _ _ ▸ hquote with h | h
        · exact ⟨.double, by simpa [quoteChar] using h⟩
        · exact ⟨.single, by simpa [quoteChar] using h⟩
      exact walk_stringLexeme he hq hd offset q ht hp
    · rename_i hquote
      rw [if_neg hquote] at ht
      split
      · rename_i hstart
        rw [if_pos hstart] at ht
        exact walk_word he hq hd offset hstart ht
      · rename_i hstart
        rw [if_neg hstart] at ht
        exact walk_symbol he hq hd offset ht

end

/-! ## Expressions -/

theorem isBlank_of_isSkipped {c : Char} (h : Token.isSkipped c = true) :
    Text.isBlank c = true ∧ c ≠ '\\' ∧ ∀ s : State, s.open? c = some s := by
  simp only [Token.isSkipped, Bool.or_eq_true, beq_iff_eq] at h
  rcases h with (((rfl | rfl) | rfl) | rfl) | rfl <;> exact ⟨rfl, by decide, fun s => rfl⟩

/-- No string of these items ends in a backslash that takes the quote with it. -/
def PairedItems (items : List (Located Token.Item)) : Prop :=
  ∀ i ∈ items, ∀ body, i.value = .token (.string body) → Paired body

/-- A text with lexemes whose parentheses are closed at its end can be cut. -/
theorem splitFrom_of_items (offset : Nat) (cs : List Char) {s : State} :
    PairedItems (Token.rawItems offset cs) → s.escaped = false → s.quote = none →
    Token.itemsDepth s.depth (Token.rawItems offset cs) = some 0 →
    ∃ ws, splitFrom s offset cs = .ok ws := by
  fun_induction Token.rawItems offset cs generalizing s with
  | case1 offset =>
    intro _ he hq hd
    obtain ⟨escaped, quote, depth, word⟩ := s
    obtain rfl : escaped = false := he
    obtain rfl : quote = none := hq
    obtain rfl : depth = 0 := Option.some.inj hd
    exact ⟨_, rfl⟩
  | case2 offset c cs hc ih =>
    intro hp he hq hd
    obtain ⟨hb, hne, ho⟩ := isBlank_of_isSkipped hc
    cases hfree : s.free with
    | true =>
      -- the word ends here
      obtain ⟨ws, hws⟩ := ih (s := { s with word := none }) hp he hq hd
      refine ⟨s.finished ++ ws, ?_⟩
      rw [splitFrom_cons he hne, hb, hfree, hws]
      rfl
    | false =>
      have hwalk := Walk.char he hne (by simp [hfree]) (ho s) offset
      obtain ⟨-, hpq, hpd, -⟩ := s.push_eq offset c
      obtain ⟨ws, hws⟩ := ih hp hwalk.escaped (hpq.trans hq) (by rwa [hpd])
      exact ⟨ws, (hwalk.split cs).trans hws⟩
  | case3 offset c cs hc stop =>
    rename_i ih
    intro hp he hq hd
    obtain ⟨hfirst, hrest⟩ := List.forall_mem_cons.1 hp
    rw [Token.itemsDepth_cons] at hd
    obtain ⟨d, hitem, hd⟩ := Option.bind_eq_some_iff.1 hd
    have hcut := Token.text_append_rest_lexeme c cs
    cases ht : (Token.lexeme c cs).item with
    | stray fragment =>
      rw [ht] at hitem
      cases hitem
    | token t =>
      rw [ht] at hitem
      obtain ⟨s', hwalk, hq', rfl⟩ := walk_lexeme he hq hitem offset ht fun body hbody =>
        hfirst body (by rw [ht, hbody])
      obtain ⟨ws, hws⟩ := ih hrest hwalk.escaped hq' hd
      have hsplit := (hwalk.split (Token.lexeme c cs).rest).trans hws
      exact ⟨ws, hcut ▸ hsplit⟩

/-! ## The first word -/

/-- The word that is being read is the first. -/
theorem Splits.head {s : State} {offset : Nat} {cs : List Char} {ws : List Word}
    (h : Splits s offset cs ws) : ∀ {n : Nat}, s.word.map Pending.offset = some n →
    ws.head?.map Word.offset = some n := by
  induction h with
  | @done s offset _ =>
    intro n hn
    obtain ⟨w, hw, rfl⟩ := Option.map_eq_some_iff.1 hn
    simp [State.finished, hw]
  | @escaped s offset c cs ws _ _ ih =>
    intro n hn
    refine ih ?_
    rw [(State.push_eq _ _ _).2.2.2, (State.push_eq _ _ _).2.2.2, hn]
    rfl
  | backslash _ _ ih => exact fun hn => ih hn
  | @blank s offset c cs ws _ _ _ _ _ =>
    intro n hn
    obtain ⟨w, hw, rfl⟩ := Option.map_eq_some_iff.1 hn
    simp [State.finished, hw]
  | @char s s' offset c cs ws _ _ _ ho _ ih =>
    intro n hn
    refine ih ?_
    rw [(s'.push_eq offset c).2.2.2, (State.open?_eq_some ho).2, hn]
    rfl

/-- A text that begins with a character that is in a word begins with that word. -/
theorem head_of_splitFrom {offset : Nat} {c : Char} {cs : List Char} {ws : List Word}
    (h : splitFrom .start offset (c :: cs) = .ok ws) (hc : c ≠ '\\')
    (hb : Text.isBlank c = false) : ∃ text rest, ws = ⟨offset, text⟩ :: rest := by
  have hhead : ws.head?.map Word.offset = some offset := by
    rw [splitFrom_cons rfl hc, hb, Bool.false_and, if_neg (by simp)] at h
    split at h
    · rename_i s' ho
      refine (splits_of_splitFrom h).head ?_
      rw [(s'.push_eq offset c).2.2.2, (State.open?_eq_some ho).2]
      rfl
    · cases h
  obtain ⟨w, hw, rfl⟩ := Option.map_eq_some_iff.1 hhead
  obtain ⟨rest, rfl⟩ := List.head?_eq_some_iff.1 hw
  exact ⟨w.text, rest, rfl⟩

/-- A plain word with white space after it. -/
theorem splitFrom_word {word : List Char} (hn : word ≠ []) (hp : ∀ c ∈ word, Plain c)
    (offset : Nat) (rest : List Char) :
    splitFrom .start offset (word ++ ' ' :: rest) =
      (splitFrom .start (offset + Text.byteLength word + 1) rest).map (⟨offset, word⟩ :: ·) := by
  rw [(walk_plain hn hp (s := .start) rfl offset).split, splitFrom_cons rfl (by decide)]
  have hfinished : (State.start.pushAll offset word).finished = [⟨offset, word⟩] := by
    simp [State.finished, State.pushAll, State.start]
  rw [hfinished]
  rfl

/-- The text of a loop over the expression `text`. -/
def loopText (target text : List Char) : List Char := target ++ " in ".toList ++ text

/-- **The words of a loop**: its variable, `in` and those of its expression. -/
theorem split_loopText {target : List Char} (ht : Identifier.isValid target = true)
    (text : List Char) : split (loopText target text) =
      (splitFrom .start (Text.byteLength target + 4) text).map
        (⟨0, target⟩ :: ⟨Text.byteLength target + 1, "in".toList⟩ :: ·) := by
  have hn : target ≠ [] := by
    rintro rfl
    cases ht
  have hcut : loopText target text = target ++ ' ' :: ("in".toList ++ ' ' :: text) := by
    simp [loopText]
  have hin : Text.byteLength target + 1 + Text.byteLength "in".toList + 1 =
      Text.byteLength target + 4 := rfl
  rw [hcut, split, splitFrom_word hn (plain_of_isValid ht), Nat.zero_add,
    splitFrom_word (by decide) (plain_of_isValid rfl), hin]
  cases splitFrom .start (Text.byteLength target + 4) text <;> rfl

/-- **The text of a loop can be cut** if no string of its expression takes its quote away. -/
theorem exists_split_loopText {target text : List Char} (ht : Identifier.isValid target = true)
    {e : Expr} (he : Expr.read text = .ok e)
    (hp : PairedItems (Token.rawItems (Text.byteLength target + 4) text)) :
    ∃ ws, split (loopText target text) = .ok ws := by
  obtain ⟨ws, hws⟩ := splitFrom_of_items (Text.byteLength target + 4) text
    (s := .start) hp rfl rfl (Expr.depth_of_readAt (Expr.readAt_of_read he _) 0)
  exact ⟨_, by rw [split_loopText ht, hws]; rfl⟩

/-- What stands between the quotes of a string stands in the text. -/
theorem mem_of_lexeme {c : Char} {cs body : List Char}
    (h : (Token.lexeme c cs).item = .token (.string body)) : ∀ d ∈ body, d ∈ cs := by
  unfold Token.lexeme at h
  split at h
  · cases h
  split at h
  · unfold Token.stringLexeme at h
    dsimp only at h
    split at h
    · cases h
    · cases h
      exact fun d hd => List.takeWhile_subset _ hd
  split at h
  · simp only [Token.wordLexeme, Token.ofWord] at h
    repeat' split at h
    all_goals simp at h
  · unfold Token.symbolLexeme at h
    dsimp only at h
    split at h
    · rename_i ht
      unfold Token.withEquals? at ht
      split at ht <;> simp_all
    · split at h
      · rename_i ht
        unfold Token.ofChar? at ht
        split at ht <;> simp_all
      · simp at h

theorem mem_of_mem_rawItems {i : Located Token.Item} {body : List Char} (offset : Nat)
    (cs : List Char) (hi : i ∈ Token.rawItems offset cs) (hb : i.value = .token (.string body)) :
    ∀ c ∈ body, c ∈ cs := by
  fun_induction Token.rawItems offset cs with
  | case1 => simp at hi
  | case2 offset c cs _ ih => exact fun d hd => List.mem_cons_of_mem _ (ih hi d hd)
  | case3 offset c cs _ stop ih =>
    intro d hd
    rcases List.mem_cons.1 hi with rfl | hi
    · exact List.mem_cons_of_mem c (mem_of_lexeme hb d hd)
    · rw [← Token.text_append_rest_lexeme c cs]
      exact List.mem_append_right _ (ih hi d hd)

theorem pairedItems_of_not_mem {offset : Nat} {text : List Char} (h : '\\' ∉ text) :
    PairedItems (Token.rawItems offset text) := fun _ hi _ hb =>
  paired_of_not_mem fun hm => h (mem_of_mem_rawItems _ _ hi hb _ hm)

end TagWords

namespace Tag

open TagWords

/-- An expression does not begin with a backslash. -/
theorem ne_backslash_of_read {c : Char} {cs : List Char} {e : Expr}
    (h : Expr.read (c :: cs) = .ok e) : c ≠ '\\' := by
  rintro rfl
  have hstray : (Token.lexeme '\\' cs).item = .stray ['\\'] := rfl
  have hdepth := Expr.depth_of_readAt h 0
  rw [Token.rawItems, if_neg (by decide), Token.itemsDepth_cons] at hdepth
  simp only [hstray, Token.Item.depthAfter] at hdepth
  cases hdepth

/-- **The text of a loop is read** as its variable and its expression, wherever it stands, if it
can be cut into words at all. -/
theorem loopHeader_of_split {target text : List Char} (ht : Identifier.isValid target = true)
    {e : Expr} (he : Expr.read text = .ok e) (hn : text ≠ [])
    (hb : ∀ c ∈ text.head?, Text.isBlank c = false) {ws : List Word}
    (hsplit : split (loopText target text) = .ok ws) (s : Span) :
    loopHeader ⟨loopText target text, s⟩ =
      .ok (⟨String.ofList target, ⟨s.start, s.start + Text.byteLength target⟩⟩,
        e.shift (s.start + (Text.byteLength target + 4))) := by
  obtain ⟨c, cs, rfl⟩ := List.exists_cons_of_ne_nil hn
  rw [split_loopText ht] at hsplit
  cases hws : splitFrom .start (Text.byteLength target + 4) (c :: cs) with
  | error fault =>
    rw [hws] at hsplit
    cases hsplit
  | ok ws' =>
    obtain ⟨text, rest, rfl⟩ := head_of_splitFrom hws (ne_backslash_of_read he) (hb c rfl)
    have hwords := split_loopText ht (c :: cs)
    rw [hws] at hwords
    have hlength : Text.byteLength target + 4 = Text.byteLength (target ++ " in ".toList) := by
      rw [Text.byteLength_append]
      rfl
    have htext : textFrom (loopText target (c :: cs)) (Text.byteLength target + 4) = c :: cs := by
      rw [textFrom, hlength, loopText, Text.dropBytes_byteLength]
      rfl
    have hread := Expr.readAt_of_read he (s.start + (Text.byteLength target + 4))
    have hheader : loopHeader ⟨loopText target (c :: cs), s⟩ = _ :=
      loopHeader_of_words hwords rfl ht (htext.symm ▸ hread)
    exact hheader

/-- The text of a loop without backslashes is read as its variable and its expression. -/
theorem loopHeader_of_text {target text : List Char} (ht : Identifier.isValid target = true)
    {e : Expr} (he : Expr.read text = .ok e) (hn : text ≠ [])
    (hb : ∀ c ∈ text.head?, Text.isBlank c = false) (hslash : '\\' ∉ text) (s : Span) :
    ∃ span base, loopHeader ⟨target ++ " in ".toList ++ text, s⟩ =
      .ok (⟨String.ofList target, span⟩, e.shift base) := by
  obtain ⟨ws, hws⟩ := exists_split_loopText ht he (pairedItems_of_not_mem hslash)
  exact ⟨_, _, loopHeader_of_split ht he hn hb hws s⟩

end Tag
end Stencil
