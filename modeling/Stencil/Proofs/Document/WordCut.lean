import Mathlib.Data.List.Induction
import Stencil.Proofs.Document.TagFaultPlace
import Stencil.Proofs.Source.Pieces

/-!
# Where words are cut

What a text leaves open at its end can be said without cutting it: an odd number of backslashes
escapes the next character, and among the characters that are not escaped a quote may be open, or
more parentheses opened than closed. A text is a word (`IsWord`) if white space stands in it only
where something is open, and nothing is open at its end. The cutter knows at each character what
the word so far leaves open (`State.Follows`). So it cuts a text into words with white space between
them (`Splits.laid`), and it cuts no word any further (`splitFrom_isWord`).
-/
namespace Stencil.TagWords

/-! ## What a text leaves open -/

/-- The last backslash is not paired with another one: it escapes the character that follows. -/
def Escapes (text : List Char) : Prop := (text.reverse.takeWhile (· == '\\')).length % 2 = 1

instance (text : List Char) : Decidable (Escapes text) := inferInstanceAs (Decidable (_ = _))

/-- The characters that neither escape nor are escaped. -/
def bare : List Char → List Char
  | '\\' :: _ :: cs => bare cs
  | ['\\'] => []
  | c :: cs => c :: bare cs
  | [] => []

/-- The open quote after one more character: in it, the other quote is a character like any. -/
def quoteStep (quote : Option Char) (c : Char) : Option Char :=
  match quote with
  | none => if c = '"' ∨ c = '\'' then some c else none
  | some q => if c = q then none else some q

/-- The quote that is open at the end of the text. -/
def quoteAfter (text : List Char) : Option Char := (bare text).foldl quoteStep none

/-- The characters outside of quotes, if `quote` is open before them. -/
def unquoted (quote : Option Char) : List Char → List Char
  | [] => []
  | c :: cs => (if quote.isNone then [c] else []) ++ unquoted (quoteStep quote c) cs

/-- How often the parenthesis stands in the text, neither escaped nor in quotes. -/
def parens (paren : Char) (text : List Char) : Nat := (unquoted none (bare text)).count paren

/-- White space that follows is escaped, quoted or within parentheses. -/
def Guards (text : List Char) : Prop :=
  Escapes text ∨ quoteAfter text ≠ none ∨ parens ')' text < parens '(' text

/-- The text has white space only where it is escaped, quoted or within parentheses. -/
def Enclosed (text : List Char) : Prop :=
  ∀ before c after, text = before ++ c :: after → Text.isBlank c = true → Guards before

/-- No parenthesis is closed before it is opened. -/
def Balanced (text : List Char) : Prop :=
  ∀ before after, text = before ++ after → parens ')' before ≤ parens '(' before

/-- The text is one word. -/
structure IsWord (text : List Char) : Prop where
  nonempty : text ≠ []
  enclosed : Enclosed text
  balanced : Balanced text
  complete : ¬ Guards text

theorem not_guards_nil : ¬ Guards [] := by
  simp [Guards, Escapes, quoteAfter, parens, bare, unquoted]

/-! ## One more character -/

section
variable {u : List Char} {c : Char}

theorem escapes_snoc : Escapes (u ++ [c]) ↔ c = '\\' ∧ ¬ Escapes u := by
  unfold Escapes
  by_cases hc : c = '\\'
  · subst hc
    simp
    omega
  · simp [hc]

theorem escapes_pair (d : Char) (cs : List Char) : Escapes ('\\' :: d :: cs) ↔ Escapes cs := by
  induction cs using List.reverseRecOn with
  | nil =>
    have hpair : ['\\', d] = ['\\'] ++ [d] := rfl
    rw [hpair, escapes_snoc]
    simp [Escapes]
  | append_singleton cs x ih =>
    rw [← List.cons_append, ← List.cons_append, escapes_snoc, escapes_snoc, ih]

theorem escapes_cons (hc : c ≠ '\\') (cs : List Char) : Escapes (c :: cs) ↔ Escapes cs := by
  induction cs using List.reverseRecOn with
  | nil => simp [Escapes, hc]
  | append_singleton cs x ih => rw [← List.cons_append, escapes_snoc, escapes_snoc, ih]

theorem bare_cons (hc : c ≠ '\\') (cs : List Char) : bare (c :: cs) = c :: bare cs := by
  rw [bare]
  · rintro d ds rfl
    exact absurd rfl hc
  · rintro rfl
    exact absurd rfl hc

/-- A character that is neither escaped nor a backslash is bare. -/
theorem bare_snoc : bare (u ++ [c]) = if Escapes u ∨ c = '\\' then bare u else bare u ++ [c] := by
  induction u using bare.induct with
  | case1 d cs ih => simpa [bare, escapes_pair] using ih
  | case2 => simp [bare, Escapes]
  | case3 d cs hpair hlast ih =>
    have hd : d ≠ '\\' := by
      rintro rfl
      obtain _ | ⟨x, xs⟩ := cs
      · exact hlast rfl rfl
      · exact hpair x xs rfl rfl
    simp only [List.cons_append, bare_cons hd, ih, escapes_cons hd]
    split <;> rfl
  | case4 =>
    by_cases hc : c = '\\'
    · simp [bare, hc]
    · simp [bare, hc, Escapes]

theorem quoteAfter_snoc (hu : ¬ Escapes u) (hc : c ≠ '\\') :
    quoteAfter (u ++ [c]) = quoteStep (quoteAfter u) c := by
  rw [quoteAfter, bare_snoc, if_neg (by simp [hu, hc]), List.foldl_append]
  rfl

theorem unquoted_snoc : ∀ (quote : Option Char) (u : List Char) (c : Char),
    unquoted quote (u ++ [c]) =
      unquoted quote u ++ if (u.foldl quoteStep quote).isNone then [c] else []
  | quote, [], c => by simp [unquoted]
  | quote, d :: u, c => by
    rw [List.cons_append, unquoted, unquoted, unquoted_snoc, List.foldl_cons, List.append_assoc]

theorem parens_snoc (paren : Char) (hu : ¬ Escapes u) (hc : c ≠ '\\') :
    parens paren (u ++ [c]) =
      parens paren u + if (quoteAfter u).isNone ∧ c = paren then 1 else 0 := by
  rw [parens, bare_snoc, if_neg (by simp [hu, hc]), unquoted_snoc, List.count_append, ← quoteAfter,
    ← parens]
  congr 1
  cases quoteAfter u <;> by_cases hp : c = paren <;> simp [hp]

/-- What is escaped, and the backslash that escapes it, open and close nothing. -/
theorem taken_snoc (h : Escapes u ∨ c = '\\') :
    quoteAfter (u ++ [c]) = quoteAfter u ∧
      ∀ paren, parens paren (u ++ [c]) = parens paren u := by
  have hbare : bare (u ++ [c]) = bare u := by rw [bare_snoc, if_pos h]
  exact ⟨by rw [quoteAfter, hbare, quoteAfter], fun paren => by rw [parens, hbare, parens]⟩

theorem enclosed_snoc (hu : Enclosed u) (hc : Text.isBlank c = true → Guards u) :
    Enclosed (u ++ [c]) := by
  intro before d after htext hd
  rcases List.eq_nil_or_concat after with rfl | ⟨a, x, rfl⟩
  · obtain ⟨rfl, hcd⟩ := List.append_inj' htext rfl
    obtain rfl := List.singleton_injective hcd
    exact hc hd
  · have hsnoc : u ++ [c] = (before ++ d :: a) ++ [x] := by simpa using htext
    exact hu before d a (List.append_inj' hsnoc rfl).1 hd

theorem balanced_snoc (hu : Balanced u) (hc : parens ')' (u ++ [c]) ≤ parens '(' (u ++ [c])) :
    Balanced (u ++ [c]) := by
  intro before after htext
  rcases List.eq_nil_or_concat after with rfl | ⟨a, x, rfl⟩
  · rw [List.append_nil] at htext
    exact htext ▸ hc
  · have hsnoc : u ++ [c] = (before ++ a) ++ [x] := by simpa using htext
    exact hu before a (List.append_inj' hsnoc rfl).1

end

/-! ## What the cutter knows -/

/-- The state knows what the word so far leaves open. -/
structure State.Follows (s : State) (u : List Char) : Prop where
  escaped : s.escaped = true ↔ Escapes u
  quote : s.quote.map quoteChar = quoteAfter u
  depth : s.depth + parens ')' u = parens '(' u
  enclosed : Enclosed u
  balanced : Balanced u

section
variable {s s' : State} {u : List Char} {c : Char}

theorem follows_start : State.start.Follows [] where
  escaped := by simp [State.start, Escapes]
  quote := rfl
  depth := rfl
  enclosed := by simp [Enclosed]
  balanced := by
    intro before after h
    obtain ⟨rfl, -⟩ := List.append_eq_nil_iff.1 h.symm
    exact Nat.le_refl _

/-- The word itself has no part in this. -/
theorem State.Follows.congr (h : s.Follows u) (he : s'.escaped = s.escaped)
    (hq : s'.quote = s.quote) (hd : s'.depth = s.depth) : s'.Follows u where
  escaped := he ▸ h.escaped
  quote := hq ▸ h.quote
  depth := hd ▸ h.depth
  enclosed := h.enclosed
  balanced := h.balanced

theorem State.Follows.push (h : s.Follows u) (offset : Nat) (c : Char) :
    (s.push offset c).Follows u := by
  obtain ⟨he, hq, hd, -⟩ := s.push_eq offset c
  exact h.congr he hq hd

theorem State.Follows.not_escapes (h : s.Follows u) (he : s.escaped = false) : ¬ Escapes u := by
  rw [← h.escaped, he]
  simp

/-- White space ends a word here unless something is open. -/
theorem State.Follows.guards_iff (h : s.Follows u) :
    Guards u ↔ s.escaped = true ∨ s.free = false := by
  have hquote : quoteAfter u = none ↔ s.quote = none := by rw [← h.quote, Option.map_eq_none_iff]
  have hdepth : parens ')' u < parens '(' u ↔ s.depth ≠ 0 := by
    have := h.depth
    omega
  rw [Guards, ← h.escaped, Ne, hquote, hdepth]
  cases hq : s.quote <;> simp [State.free, hq]

/-- An escaped character, or a backslash. -/
theorem State.Follows.taken (h : s.Follows u) (hc : s.escaped = true ∨ c = '\\')
    (he : s'.escaped = !s.escaped) (hq : s'.quote = s.quote) (hd : s'.depth = s.depth) :
    s'.Follows (u ++ [c]) := by
  obtain ⟨hquote, hparens⟩ := taken_snoc (hc.imp_left h.escaped.1)
  have hdepth : s'.depth + parens ')' (u ++ [c]) = parens '(' (u ++ [c]) := by
    rw [hd, hparens, hparens, h.depth]
  refine ⟨?_, by rw [hq, hquote, h.quote], hdepth, enclosed_snoc h.enclosed fun hb => ?_,
    balanced_snoc h.balanced (by omega)⟩
  · rw [escapes_snoc, ← h.escaped, he]
    rcases hc with hc | rfl
    · simp [hc]
    · simp
  · refine h.guards_iff.2 (hc.imp_right ?_)
    rintro rfl
    cases hb

theorem map_toggle (q : Quote) (quote : Option Quote) :
    (toggle q quote).map quoteChar = quoteStep (quote.map quoteChar) (quoteChar q) := by
  rcases quote with _ | p
  · cases q <;> rfl
  · cases q <;> cases p <;> rfl

theorem State.quote_of_open? (ho : s.open? c = some s') :
    s'.quote.map quoteChar = quoteStep (s.quote.map quoteChar) c := by
  obtain ⟨escaped, quote, depth, word⟩ := s
  unfold State.open? at ho
  split at ho
  · rename_i hdouble
    obtain rfl := Option.some.inj ho
    exact hdouble ▸ map_toggle .double quote
  rename_i hdouble
  split at ho
  · rename_i hsingle
    obtain rfl := Option.some.inj ho
    exact hsingle ▸ map_toggle .single quote
  rename_i hsingle
  have hsame : quote.map quoteChar = quoteStep (quote.map quoteChar) c := by
    rcases quote with _ | _ | _ <;> simp [quoteStep, quoteChar, hdouble, hsingle]
  repeat' split at ho
  all_goals cases ho
  all_goals exact hsame

/-- Parentheses count only outside of quotes. -/
theorem State.depth_of_open? (ho : s.open? c = some s') :
    s'.depth + (if s.quote.isNone ∧ c = ')' then 1 else 0) =
      s.depth + if s.quote.isNone ∧ c = '(' then 1 else 0 := by
  unfold State.open? at ho
  split at ho
  · rename_i hdouble
    obtain rfl := Option.some.inj ho
    simp [hdouble]
  split at ho
  · rename_i hsingle
    obtain rfl := Option.some.inj ho
    simp [hsingle]
  split at ho
  · rename_i hopen
    obtain rfl := Option.some.inj ho
    simp [hopen.1, hopen.2]
  rename_i hopen
  split at ho
  · rename_i hclose
    obtain ⟨rfl, hquote⟩ := hclose
    split at ho
    · cases ho
    · rename_i depth hdepth
      obtain rfl := Option.some.inj ho
      simp [hquote, hdepth]
  · rename_i hclose
    obtain rfl := Option.some.inj ho
    rw [if_neg fun h => hclose h.symm, if_neg fun h => hopen h.symm]

/-- Any other character. -/
theorem State.Follows.char (h : s.Follows u) (he : s.escaped = false) (hc : c ≠ '\\')
    (hb : (Text.isBlank c && s.free) = false) (ho : s.open? c = some s') :
    s'.Follows (u ++ [c]) := by
  have hu := h.not_escapes he
  have hdepth : s'.depth + parens ')' (u ++ [c]) = parens '(' (u ++ [c]) := by
    have hstep := State.depth_of_open? ho
    have hbefore := h.depth
    rw [parens_snoc _ hu hc, parens_snoc _ hu hc, ← h.quote, Option.isNone_map]
    omega
  refine ⟨?_, ?_, hdepth, enclosed_snoc h.enclosed fun hblank => ?_,
    balanced_snoc h.balanced (by omega)⟩
  · rw [(State.open?_eq_some ho).1, he, escapes_snoc]
    simp [hc]
  · rw [State.quote_of_open? ho, h.quote, quoteAfter_snoc hu hc]
  · rw [hblank, Bool.true_and] at hb
    exact h.guards_iff.2 (.inr hb)

theorem State.open?_eq_none (ho : s.open? c = none) :
    c = ')' ∧ s.quote.isNone ∧ s.depth = 0 := by
  unfold State.open? at ho
  repeat' split at ho
  all_goals cases ho
  rename_i hclose _ hdepth
  exact ⟨hclose.1, hclose.2, hdepth⟩

/-- Only a parenthesis that closes nothing is refused. -/
theorem State.Follows.exists_open? (h : s.Follows u) (he : s.escaped = false) (hc : c ≠ '\\')
    (hb : parens ')' (u ++ [c]) ≤ parens '(' (u ++ [c])) : ∃ s', s.open? c = some s' := by
  cases ho : s.open? c with
  | some s' => exact ⟨s', rfl⟩
  | none =>
    obtain ⟨rfl, hquote, hdepth⟩ := State.open?_eq_none ho
    have hu := h.not_escapes he
    have hbefore := h.depth
    rw [parens_snoc _ hu hc, parens_snoc _ hu hc, ← h.quote, Option.isNone_map, hquote] at hb
    simp at hb
    omega

end

/-! ## Cutting -/

/-- The state has read `before`; the word that it is reading begins behind `done`, and it knows what
this word leaves open. -/
structure State.Tracks (s : State) (done before : List Char) : Prop where
  reading : s.Reading done before
  follows : s.Follows (s.letters ++ s.slash)

section
variable {s s' : State} {done before : List Char} {offset : Nat}

theorem tracks_start : State.start.Tracks [] [] :=
  ⟨⟨rfl, by simp [State.start]⟩, follows_start⟩

/-- The word goes on with the character. -/
theorem State.Reading.snoc {c : Char} (h : s.Reading done before)
    (h' : s'.Reading done (before ++ [c])) :
    s'.letters ++ s'.slash = (s.letters ++ s.slash) ++ [c] := by
  have hsplit := h'.split
  rw [h.split, List.append_assoc] at hsplit
  exact (List.append_cancel_left hsplit).symm

/-- The first word is all that was read. -/
theorem State.Tracks.follows_first (h : s.Tracks [] before) : s.Follows before := by
  have hbefore : before = s.letters ++ s.slash := h.reading.split
  exact hbefore ▸ h.follows

theorem State.Tracks.escape (h : s.Tracks done before) (he : s.escaped = true)
    (hb : Text.byteLength before = offset) (c : Char) :
    ((State.push { s with escaped := false } (offset - 1) '\\').push offset c).Tracks done
      (before ++ [c]) := by
  have hread := h.reading.escape he hb c
  have hfollows : State.Follows { s with escaped := false } ((s.letters ++ s.slash) ++ [c]) :=
    h.follows.taken (.inl he) (by simp [he]) rfl rfl
  exact ⟨hread, h.reading.snoc hread ▸ (hfollows.push _ _).push _ _⟩

theorem State.Tracks.backslash (h : s.Tracks done before) (he : s.escaped = false) :
    State.Tracks { s with escaped := true } done (before ++ ['\\']) := by
  have hread := h.reading.backslash he
  have hfollows : State.Follows { s with escaped := true } ((s.letters ++ s.slash) ++ ['\\']) :=
    h.follows.taken (.inr rfl) (by simp [he]) rfl rfl
  exact ⟨hread, h.reading.snoc hread ▸ hfollows⟩

theorem State.Tracks.char {c : Char} (h : s.Tracks done before) (he : s.escaped = false)
    (hc : c ≠ '\\') (hblank : (Text.isBlank c && s.free) = false) (ho : s.open? c = some s')
    (hb : Text.byteLength before = offset) : (s'.push offset c).Tracks done (before ++ [c]) := by
  have hread := (h.reading.open? ho).push ((State.open?_eq_some ho).1.trans he) hb c
  have hfollows := h.follows.char he hc hblank ho
  exact ⟨hread, h.reading.snoc hread ▸ hfollows.push _ _⟩

theorem read_blank (he : s.escaped = false) :
    State.letters { s with word := none } ++ State.slash { s with word := none } = [] := by
  simp [State.letters, State.slash, he]

/-- Behind white space that ends a word, nothing is open. -/
theorem tracks_blank (he : s.escaped = false) (hfree : s.free = true) (before : List Char) :
    State.Tracks { s with word := none } before before := by
  obtain ⟨hquote, hdepth⟩ : s.quote = none ∧ s.depth = 0 := by simpa [State.free] using hfree
  have hfollows : State.Follows { s with word := none } [] :=
    follows_start.congr he hquote hdepth
  exact ⟨⟨by simp [read_blank he], by simp⟩, read_blank he ▸ hfollows⟩

end

/-- Where the word stands. -/
def Word.span (w : Word) : Span := ⟨w.offset, w.offset + Text.byteLength w.text⟩

/-- The text is the word, and white space cuts it off from the rest. -/
def Word.Stands (w : Word) (u rest : List Char) : Prop :=
  w.text = u ∧ IsWord u ∧ ∀ c ∈ rest.head?, Text.isBlank c = true

/-- The text from `offset` on consists of the words and of white space. -/
abbrev Laid : Nat → List Char → List Word → Prop :=
  Text.Strewn Text.isBlank Word.span Word.Stands

section
variable {s : State} {offset : Nat} {done before cs : List Char} {ws : List Word}

/-- The word that ends here, if there is one, stands in front of the rest. -/
theorem State.Tracks.finished (h : s.Tracks done before) (he : s.escaped = false)
    (hfree : s.free = true) (hrest : ∀ c ∈ cs.head?, Text.isBlank c = true)
    (hws : Laid (Text.byteLength before) cs ws) :
    Laid (Text.byteLength done) (s.letters ++ s.slash ++ cs) (s.finished ++ ws) := by
  obtain ⟨⟨rfl, hword⟩, hfollows⟩ := h
  have hslash : s.slash = [] := by simp [State.slash, he]
  have hcomplete : ¬ Guards (s.letters ++ s.slash) := by simp [hfollows.guards_iff, he, hfree]
  rw [hslash, List.append_nil] at hfollows hcomplete hws ⊢
  obtain ⟨escaped, quote, depth, _ | w⟩ := s
  · simpa [State.letters, State.finished] using hws
  · obtain ⟨hoffset, hletters⟩ := hword w rfl
    have hn : w.letters.reverse ≠ [] := by simpa using hletters
    have hspan : Word.span ⟨w.offset, w.letters.reverse⟩ =
        ⟨Text.byteLength done, Text.byteLength done + Text.byteLength w.letters.reverse⟩ := by
      rw [Word.span, hoffset]
    rw [Text.byteLength_append] at hws
    exact .piece hn hspan ⟨rfl, ⟨hn, hfollows.enclosed, hfollows.balanced, hcomplete⟩, hrest⟩ hws

/-- **The cutter leaves words with white space between them.** -/
theorem Splits.laid (h : Splits s offset cs ws) : ∀ {done before : List Char},
    s.Tracks done before → Text.byteLength before = offset →
    Laid (Text.byteLength done) (s.letters ++ s.slash ++ cs) ws := by
  induction h with
  | @done s offset hfault =>
    intro done before hs hb
    obtain ⟨he, hfree⟩ := s.fault?_eq_none_iff.1 hfault
    simpa using hs.finished he hfree (by simp) (.done _)
  | @escaped s offset c cs ws he _ ih =>
    intro done before hs hb
    have hnext := hs.escape he hb c
    have hlaid := ih hnext (by simp [hb])
    rwa [hs.reading.snoc hnext.reading, List.append_assoc] at hlaid
  | @backslash s offset cs ws he _ ih =>
    intro done before hs hb
    have hnext := hs.backslash he
    have hlaid := ih hnext (by simp [hb]; rfl)
    rwa [hs.reading.snoc hnext.reading, List.append_assoc] at hlaid
  | @blank s offset c cs ws he hc hfree _ ih =>
    intro done before hs hb
    have hlaid := ih (tracks_blank he hfree (before ++ [c])) (by simp [hb])
    rw [read_blank he, List.nil_append, Text.byteLength_append] at hlaid
    exact hs.finished he hfree (by simpa using hc) (.skip hc hlaid)
  | @char s s' offset c cs ws he hslash hblank ho _ ih =>
    intro done before hs hb
    have hnext := hs.char he hslash hblank ho hb
    have hlaid := ih hnext (by simp [hb])
    rwa [hs.reading.snoc hnext.reading, List.append_assoc] at hlaid

/-- The first word is finished where nothing is open. -/
theorem State.Tracks.finished_first (h : s.Tracks [] before) (he : s.escaped = false)
    (hn : before ≠ []) : s.finished = [⟨0, before⟩] := by
  have hbefore : before = s.letters ++ s.slash := h.reading.split
  have hslash : s.slash = [] := by simp [State.slash, he]
  rw [hslash, List.append_nil] at hbefore
  obtain ⟨escaped, quote, depth, _ | w⟩ := s
  · exact absurd hbefore hn
  · have hoffset : w.offset = 0 := (h.reading.word w rfl).1
    rw [hbefore]
    simp [State.finished, State.letters, hoffset]

/-- **The cutter leaves a word as it is.** -/
theorem splitFrom_isWord : ∀ {rest before : List Char} {s : State}, s.Tracks [] before →
    IsWord (before ++ rest) →
    splitFrom s (Text.byteLength before) rest = .ok [⟨0, before ++ rest⟩]
  | [], before, s, hs, hw => by
    rw [List.append_nil] at hw ⊢
    have hopen : s.escaped = false ∧ s.free = true := by
      simpa [hs.follows_first.guards_iff] using hw.complete
    rw [splitFrom, s.fault?_eq_none_iff.2 hopen]
    exact congrArg Except.ok (hs.finished_first hopen.1 hw.nonempty)
  | c :: cs, before, s, hs, hw => by
    have hsplit : before ++ c :: cs = before ++ [c] ++ cs := by simp
    have hlength : Text.byteLength before + c.utf8Size = Text.byteLength (before ++ [c]) := by
      simp
    have hblank : s.escaped = false → (Text.isBlank c && s.free) = false := by
      intro he
      cases hb : Text.isBlank c with
      | false => rfl
      | true =>
        have hguards : Guards before := hw.enclosed before c cs rfl hb
        simpa [hs.follows_first.guards_iff, he] using hguards
    have hbalanced := hw.balanced (before ++ [c]) cs hsplit
    rw [hsplit] at hw ⊢
    cases he : s.escaped with
    | true =>
      rw [splitFrom, he]
      dsimp only
      rw [if_pos rfl, hlength]
      exact splitFrom_isWord (hs.escape he rfl c) hw
    | false =>
      by_cases hc : c = '\\'
      · subst hc
        rw [splitFrom, he]
        dsimp only
        rw [if_neg (by simp), if_pos rfl, hlength]
        exact splitFrom_isWord (hs.backslash he) hw
      · obtain ⟨s', ho⟩ := hs.follows_first.exists_open? he hc hbalanced
        rw [splitFrom_cons he hc, hblank he, ho, hlength]
        exact splitFrom_isWord (hs.char he hc (hblank he) ho rfl) hw

end

/-- The text was cut into these words. -/
structure Cut (text : List Char) (ws : List Word) : Prop where
  /-- A word is a piece of the text that begins at its offset. -/
  written : ∀ w ∈ ws, w.text ≠ [] ∧
    Text.slice text w.offset (w.offset + Text.byteLength w.text) = some w.text
  /-- Each word ends before the next one begins. -/
  ordered : ws.Pairwise fun v w => v.offset + Text.byteLength v.text < w.offset
  /-- A character outside of the words is white space. -/
  uncovered : ∀ before c after, text = before ++ c :: after →
    (∀ w ∈ ws, Text.byteLength before < w.offset ∨
      w.offset + Text.byteLength w.text ≤ Text.byteLength before) → Text.isBlank c = true
  /-- White space in a word is escaped, quoted or within parentheses. -/
  enclosed : ∀ w ∈ ws, ∀ before c after, w.text = before ++ c :: after → Text.isBlank c = true →
    Escapes before ∨ quoteAfter before ≠ none ∨ parens ')' before < parens '(' before
  /-- A word on its own is one word. -/
  alone : ∀ w ∈ ws, split w.text = .ok [⟨0, w.text⟩]

/-- **A text is cut at free white space, and nowhere else.** -/
theorem cut_of_split {text : List Char} {ws : List Word} (h : split text = .ok ws) :
    Cut text ws := by
  have hlaid : Laid 0 text ws := (splits_of_splitFrom h).laid tracks_start rfl
  have hcut := hlaid.exists_cut text [] rfl rfl
  refine ⟨fun w hw => ?_, ?_, fun before c after htext hout => ?_, fun w hw => ?_, fun w hw => ?_⟩
  · obtain ⟨before, u, rest, htext, hu, hspan, rfl, -⟩ := hcut w hw
    have hoffset : w.offset = Text.byteLength before := congrArg Span.start hspan
    have hat : Text.At text w.offset w.text := ⟨before, rest, htext, hoffset.symm⟩
    exact ⟨hu, hat.slice⟩
  · -- words that touched would be cut where the second begins with white space
    refine hlaid.pairwise.imp_of_mem fun {v w} hv hw hle => Nat.lt_of_le_of_ne hle fun heq => ?_
    obtain ⟨before, u, rest, htext, -, hspan, -, -, hrest⟩ := hcut v hv
    obtain ⟨before', u', rest', htext', hu', hspan', -, hword, -⟩ := hcut w hw
    have hmeet : Text.byteLength (before ++ u) = Text.byteLength before' := by
      have hstop : v.span.stop = w.span.start := heq
      rwa [hspan, hspan', ← Text.byteLength_append] at hstop
    have hbehind : rest = u' ++ rest' := by
      refine Text.eq_of_append_eq ?_ hmeet
      rw [List.append_assoc, ← htext, htext']
    obtain ⟨c, cs, rfl⟩ := List.exists_cons_of_ne_nil hu'
    have hguards : Guards [] := hword.enclosed [] c cs rfl (hrest c (by simp [hbehind]))
    exact not_guards_nil hguards
  · exact hlaid.skipped htext (by simpa [Word.span] using hout)
  · obtain ⟨-, u, -, -, -, -, rfl, hword, -⟩ := hcut w hw
    exact hword.enclosed
  · obtain ⟨-, u, -, -, -, -, rfl, hword, -⟩ := hcut w hw
    exact splitFrom_isWord tracks_start hword

/-- An escaped letter of two bytes, a parenthesis in quotes in parentheses, and an escaped space. -/
theorem cut_of_split_nested :
    split "é\\é f(\"a )\" b)  c\\ d".toList =
        .ok [⟨0, "é\\é".toList⟩, ⟨6, "f(\"a )\" b)".toList⟩, ⟨18, "c\\ d".toList⟩] ∧
      Cut "é\\é f(\"a )\" b)  c\\ d".toList
        [⟨0, "é\\é".toList⟩, ⟨6, "f(\"a )\" b)".toList⟩, ⟨18, "c\\ d".toList⟩] :=
  ⟨rfl, cut_of_split rfl⟩

end Stencil.TagWords
