import Stencil.Proofs.Expr.RoundTrip
import Stencil.Text.Basic

/-!
# Names of filters in expressions

A filter is named after a `|` by words with dots between them. Five words of the language are
operators wherever they stand, also behind a dot. `1|a.b` is an expression when no word of the name
is one of these, and is no expression when one is (`Expr.parse_piped_iff`).
-/
namespace Stencil

namespace Token

/-! ## Words -/

/-- The words that are operators. -/
def reserved : List String := ["in", "is", "and", "or", "not"]

theorem ofWord_of_not_reserved {w : List Char} (h : String.ofList w ∉ reserved) :
    ofWord w = .name w := by
  have hne : ∀ word ∈ reserved, w ≠ word.toList := by
    rintro word hword rfl
    exact h (by simpa using hword)
  simp only [reserved, List.forall_mem_cons] at hne
  obtain ⟨h1, h2, h3, h4, h5, -⟩ := hne
  rw [ofWord, if_neg h1, if_neg h2, if_neg h3, if_neg h4, if_neg h5]

/-- A statement about the token of a word is about five operators and the names. -/
theorem ofWord_cases {P : List Char → Token → Prop} (w : List Char)
    (hreserved : ∀ word ∈ reserved, P word.toList (ofWord word.toList))
    (hname : ofWord w = .name w → P w (.name w)) : P w (ofWord w) := by
  by_cases h : String.ofList w ∈ reserved
  · simpa using hreserved _ h
  · rw [ofWord_of_not_reserved h]
    exact hname (ofWord_of_not_reserved h)

theorem ofWord_eq_name_iff {w : List Char} :
    (∃ text, ofWord w = .name text) ↔ String.ofList w ∉ reserved := by
  refine ⟨?_, fun h => ⟨w, ofWord_of_not_reserved h⟩⟩
  rintro ⟨text, ht⟩ hr
  have hoperator : ∀ word ∈ reserved, ∀ text, ofWord word.toList ≠ .name text := by
    simp only [reserved, List.forall_mem_cons]
    refine ⟨?_, ?_, ?_, ?_, ?_, by simp⟩ <;> (intro text h; cases h)
  exact hoperator _ hr text (by simpa using ht)

/-- A word is spelled as itself, whatever it means. -/
theorem spell_ofWord (l : Layout) (w : List Char) : l.spell (ofWord w) = w := by
  refine ofWord_cases (P := fun w t => l.spell t = w) w ?_ fun _ => rfl
  simp only [reserved, List.forall_mem_cons]
  exact ⟨rfl, rfl, rfl, rfl, rfl, by simp⟩

theorem proper_ofWord {w : List Char} (h : Identifier.isValid w = true) : (ofWord w).Proper := by
  refine ofWord_cases (P := fun _ t => t.Proper) w ?_ fun hname => ⟨h, hname⟩
  simp only [reserved, List.forall_mem_cons]
  exact ⟨trivial, trivial, trivial, trivial, trivial, by simp⟩

/-! ## Words behind separators -/

/-- What stands before a word of the name of a filter. -/
def IsSeparator (t : Token) : Prop := t = .pipe ∨ t = .dot

/-- The tokens of words, the first one behind `before` and each other one behind a dot. -/
def words (before : Token) : List (List Char) → List Token
  | [] => []
  | w :: ws => before :: ofWord w :: words .dot ws

/-- Nothing need stand between a word and the separators around it. -/
theorem mayTouch_ofWord {t : Token} (ht : t.IsSeparator) (w : List Char) :
    MayTouch t (ofWord w) ∧ MayTouch (ofWord w) t := by
  refine ofWord_cases (P := fun _ u => MayTouch t u ∧ MayTouch u t) w ?_ fun _ => ?_
  · rcases ht with rfl | rfl <;> decide
  · rcases ht with rfl | rfl <;> simp [MayTouch, isWord, isNumber, takesEquals]

/-- A separator is joined with nothing. -/
theorem joins_separator {t u : Token} (h : t.IsSeparator ∨ u.IsSeparator) :
    joins t u = false := by
  unfold joins
  split <;> simp_all [IsSeparator]

theorem Unjoined.cons {t u : Token} {ts : List Token} (ht : joins t u = false)
    (h : Unjoined (u :: ts)) : Unjoined (t :: u :: ts) := by
  intro us x y vs hts
  cases us with
  | nil =>
    obtain ⟨htx, hts⟩ := List.cons.inj hts
    exact htx ▸ (List.cons.inj hts).1 ▸ ht
  | cons z us => exact h us x y vs (List.cons.inj hts).2

theorem unjoined_words : ∀ {before : Token} (ws : List (List Char)), before.IsSeparator →
    ∀ t, Unjoined (t :: words before ws)
  | _, [], _, t => fun us x y vs hts => by
    have hlength := congrArg List.length hts
    simp [words] at hlength
    omega
  | _, w :: ws, hb, t =>
    .cons (joins_separator (.inr hb)) (.cons (joins_separator (.inl hb))
      (unjoined_words ws (.inr rfl) _))

theorem proper_words : ∀ {before : Token} {ws : List (List Char)}, before.IsSeparator →
    (∀ w ∈ ws, Identifier.isValid w = true) → ∀ t ∈ words before ws, t.Proper
  | _, [], _, _ => by simp [words]
  | _, w :: ws, hb, h => by
    obtain ⟨hw, hws⟩ := List.forall_mem_cons.1 h
    simp only [words, List.forall_mem_cons]
    refine ⟨?_, proper_ofWord hw, proper_words (.inr rfl) hws⟩
    rcases hb with rfl | rfl <;> trivial

/-- Written tightly, words and dots are a joined text. -/
theorem text_words : ∀ {before : Token} (w : List Char) (ws : List (List Char)),
    before.IsSeparator → Layout.tight.text (words before (w :: ws)) =
      before.symbol.toList ++ Text.joined '.' (w :: ws)
  | before, w, ws, hb => by
    obtain ⟨hleft, -⟩ := mayTouch_ofWord hb w
    have hgap : Layout.tight.gap before (ofWord w) = [] := if_pos hleft
    have hspell : Layout.tight.spell before = before.symbol.toList := by
      rcases hb with rfl | rfl <;> rfl
    cases ws with
    | nil => simp [words, Layout.text, hgap, hspell, spell_ofWord, Text.joined]
    | cons v vs =>
      have hdot : Layout.tight.gap (ofWord w) .dot = [] := if_pos (mayTouch_ofWord (.inr rfl) w).2
      have ih := text_words v vs (.inr (Eq.refl dot))
      have hrest : words .dot (v :: vs) = .dot :: ofWord v :: words .dot vs := rfl
      rw [words, hrest, Layout.text, Layout.text, ← hrest, ih, hgap, hdot, hspell, spell_ofWord]
      rfl

theorem exists_separator : ∀ {before : Token} {ws : List (List Char)}, before.IsSeparator →
    ∀ w ∈ ws, ∃ us t vs, words before ws = us ++ t :: ofWord w :: vs ∧ t.IsSeparator
  | before, v :: ws, hb, w, hw => by
    rcases List.mem_cons.1 hw with rfl | hw
    · exact ⟨[], before, _, rfl, hb⟩
    · obtain ⟨us, t, vs, heq, ht⟩ := exists_separator (.inr rfl) w hw
      exact ⟨before :: ofWord v :: us, t, vs, by rw [words, heq]; rfl, ht⟩

end Token

namespace Parser

/-! ## What follows a separator -/

/-- A name is waited for, of an attribute or a filter. -/
inductive Mode.AwaitsName : Mode → Prop
  | attribute (left : Left) (base : Phrase) : AwaitsName (.attribute left base)
  | filterName (chain : Chain) (name : FilterName) : AwaitsName (.filterName chain name)

theorem awaitsName_of_next? {s s' : State} {t : Located Token} (ht : t.value.IsSeparator)
    (h : s.next? t = some s') : s'.mode.AwaitsName := by
  obtain ⟨mode, os⟩ := s
  obtain ⟨t, a⟩ := t
  rcases ht with rfl | rfl
  · have hbind : mode.chain?.bind (fun c => afterChain c os ⟨.pipe, a⟩) = some s' := by
      cases mode <;> exact h
    obtain ⟨c, -, hc⟩ := Option.bind_eq_some_iff.1 hbind
    obtain rfl := Option.some.inj hc
    exact .filterName _ _
  · cases mode with
    | unit left base bare =>
      obtain rfl := Option.some.inj h
      exact .attribute _ _
    | filterNamed chain name =>
      obtain rfl := Option.some.inj h
      exact .filterName _ _
    | _ => cases h

/-- While a name is waited for, no other token is taken. -/
theorem name_of_awaitsName {s s' : State} {u : Located Token} (hs : s.mode.AwaitsName)
    (h : s.next? u = some s') : ∃ text, u.value = .name text := by
  obtain ⟨mode, os⟩ := s
  obtain ⟨u, b⟩ := u
  cases u with
  | name text => exact ⟨text, rfl⟩
  | rparen =>
    -- an argument list ends with a chain, of which there is none yet
    cases hs <;> rcases os with _ | ⟨_ | _ | _ | _, _⟩ <;> cases h
  | _ => cases hs <;> cases h

/-- **In every chain a pipe or a dot stands before a name.** -/
theorem name_of_reads {ts : List (Located Token)} {c : Chain} (h : Reads ts (.chain c))
    {us vs : List Token} {t u : Token} (hts : ts.map Located.value = us ++ t :: u :: vs)
    (ht : t.IsSeparator) : ∃ text, u = .name text := by
  obtain ⟨mode, hr, -⟩ := h.runs []
  obtain ⟨xs, ys, rfl, -, hys⟩ := List.map_eq_append_iff.1 hts
  obtain ⟨a, zs, rfl, hzs⟩ := eq_cons_of_map hys
  obtain ⟨b, ws, rfl, -⟩ := eq_cons_of_map hzs
  obtain ⟨s, -, hs⟩ := run_of_run_append hr
  obtain ⟨m, hm, hrest⟩ := step_of_run_cons hs
  obtain ⟨m', hm', -⟩ := step_of_run_cons hrest
  exact name_of_awaitsName (awaitsName_of_next? ht (step_eq_ok_iff.1 hm).1)
    (step_eq_ok_iff.1 hm').1

theorem words_eq_flatMap : ∀ {ws : List (List Char)},
    (∀ w ∈ ws, String.ofList w ∉ Token.reserved) →
    Token.words .dot ws = ws.flatMap fun w => [.dot, .name w]
  | [], _ => rfl
  | w :: ws, h => by
    obtain ⟨hw, hws⟩ := List.forall_mem_cons.1 h
    rw [Token.words, Token.ofWord_of_not_reserved hw, words_eq_flatMap hws]
    rfl

/-- Words that are no operators name a filter. -/
theorem nameOf_words {ws : List (List Char)} (hne : ws ≠ [])
    (h : ∀ w ∈ ws, String.ofList w ∉ Token.reserved) :
    NameOf (Token.words .pipe ws) (ws.map fun w => ⟨String.ofList w, ⟨0, 0⟩⟩) := by
  obtain ⟨w, ws, rfl⟩ := List.exists_cons_of_ne_nil hne
  obtain ⟨hw, hws⟩ := List.forall_mem_cons.1 h
  have hwords : Token.words .pipe (w :: ws) =
      .pipe :: dotted ((w :: ws).map fun w => ⟨String.ofList w, ⟨0, 0⟩⟩) := by
    rw [List.map_cons, dotted_cons, Token.words, Token.ofWord_of_not_reserved hw,
      words_eq_flatMap hws]
    simp [nameToken, List.flatMap_map]
  rw [hwords]
  exact nameOf_dotted (by simp)

end Parser

namespace Expr

theorem filter_of_bare {e i : Expr} {s : Span} {n : DottedName}
    (h : e.bare = (filter s i n [] []).bare) : ∃ s' i' n', e = filter s' i' n' [] [] ∧
      i'.bare = i.bare ∧ n'.segments.map Ident.name = n.segments.map Ident.name := by
  cases e with
  | filter s' i' n' as ks =>
    simp only [bare, mapSpan, filter.injEq] at h
    obtain ⟨-, hi, hn, has, hks⟩ := h
    have has : as = [] := by cases as <;> simp_all [mapSpans]
    have hks : ks = [] := by cases ks <;> simp_all [mapKeywordSpans]
    refine ⟨s', i', n', by rw [has, hks], hi, ?_⟩
    have hnames := congrArg (fun m : DottedName => m.segments.map Ident.name) hn
    simpa [DottedName.mapSpan, Ident.mapSpan, Function.comp_def] using hnames
  | _ => simp [bare, mapSpan] at h

theorem literal_of_bare {e : Expr} {s : Span} {v : Literal} (h : e.bare = (literal s v).bare) :
    ∃ s', e = literal s' v := by
  cases e with
  | literal s' v' =>
    simp only [bare, mapSpan, literal.injEq, true_and] at h
    exact ⟨s', by rw [h]⟩
  | _ => simp [bare, mapSpan] at h

/-- The text `1|` and a name. -/
def piped (name : String) : List Char := '1' :: '|' :: name.toList

section
variable {name : String} {ws : List (List Char)}

theorem scan_piped (hname : name.toList = Text.joined '.' ws) (hne : ws ≠ [])
    (hv : ∀ w ∈ ws, Identifier.isValid w = true) : ∃ ts, Token.scanFrom 0 (piped name) = .ok ts ∧
      ts.map Located.value = .number ['1'] :: Token.words .pipe ws := by
  obtain ⟨w, ws, rfl⟩ := List.exists_cons_of_ne_nil hne
  have htext : Token.Layout.tight.text (.number ['1'] :: Token.words .pipe (w :: ws)) =
      piped name := by
    have hrest := Token.text_words w ws (.inl rfl)
    rw [Token.words] at hrest ⊢
    rw [Token.Layout.text, hrest, piped, hname]
    rfl
  have hproper : ∀ t ∈ Token.number ['1'] :: Token.words .pipe (w :: ws), t.Proper :=
    List.forall_mem_cons.2 ⟨.whole ⟨by simp, List.forall_mem_singleton.2 rfl⟩,
      Token.proper_words (.inl rfl) hv⟩
  rw [← htext]
  exact Token.scan_text .tight hproper (Token.unjoined_words _ (.inl rfl) _) 0

/-- The expression is `1` with a filter of this name and nothing else. -/
def IsPiped (name : String) (e : Expr) : Prop :=
  ∃ s input n, e = .filter s (.literal input (.int 1)) n [] [] ∧ n.text = name

/-- Behind `1|`, words that are no operators make an expression. -/
theorem exists_parse_piped (hname : name.toList = Text.joined '.' ws) (hne : ws ≠ [])
    (hv : ∀ w ∈ ws, Identifier.isValid w = true) (hr : ∀ w ∈ ws, String.ofList w ∉ Token.reserved) :
    ∃ e, Expr.parse (piped name) = .ok e ∧ IsPiped name e := by
  obtain ⟨ts, hscan, hts⟩ := scan_piped hname hne hv
  have hone : Parser.ChainOf [.number ['1']] (.literal ⟨0, 0⟩ (.int 1)) :=
    (Parser.unitOf_literal (v := .int 1) (show (0 : Int) ≤ Int64.toInt 1 by decide) _).chain
  obtain ⟨c, hc, hbare⟩ := (hone.filter (Parser.nameOf_words hne hr) ⟨0, 0⟩) ts hts
  obtain ⟨s, i, n, he, hi, hn⟩ := filter_of_bare hbare
  obtain ⟨input, rfl⟩ := literal_of_bare hi
  refine ⟨c.expr, (parse_eq_ok_iff hscan).2 ⟨c, hc, rfl⟩, s, input, n, he, ?_⟩
  rw [← String.toList_inj, hname, DottedName.text, Text.toList_intercalate (c := '.') rfl, hn]
  simp [Function.comp_def]

/-- Words that name a filter are no operators. -/
theorem not_reserved_of_parse_piped (hname : name.toList = Text.joined '.' ws) (hne : ws ≠ [])
    (hv : ∀ w ∈ ws, Identifier.isValid w = true) {e : Expr} (he : Expr.parse (piped name) = .ok e) :
    ∀ w ∈ ws, String.ofList w ∉ Token.reserved := by
  intro w hw
  obtain ⟨ts, hscan, hts⟩ := scan_piped hname hne hv
  obtain ⟨c, hc, -⟩ := (parse_eq_ok_iff hscan).1 he
  obtain ⟨us, t, vs, heq, ht⟩ := Token.exists_separator (.inl (Eq.refl Token.pipe)) w hw
  rw [heq] at hts
  exact Token.ofWord_eq_name_iff.1 (Parser.name_of_reads hc ((List.cons_append ..).symm ▸ hts) ht)

/-- **A filter can be named by all words but the operators**, and the expression that names it is
that filter applied to `1`. -/
theorem parse_piped_iff (hname : name.toList = Text.joined '.' ws) (hne : ws ≠ [])
    (hv : ∀ w ∈ ws, Identifier.isValid w = true) :
    ((∃ e, Expr.parse (piped name) = .ok e) ↔ ∀ w ∈ ws, String.ofList w ∉ Token.reserved) ∧
      ∀ e, Expr.parse (piped name) = .ok e → IsPiped name e := by
  have hnames {e : Expr} (he : Expr.parse (piped name) = .ok e) :=
    not_reserved_of_parse_piped hname hne hv he
  have hok := exists_parse_piped hname hne hv
  refine ⟨⟨fun ⟨e, he⟩ => hnames he, fun hr => (hok hr).imp fun _ h => h.1⟩, fun e he => ?_⟩
  obtain ⟨e', he', h⟩ := hok (hnames he)
  obtain rfl := Except.ok.inj (he.symm.trans he')
  exact h

end
end Expr
end Stencil
