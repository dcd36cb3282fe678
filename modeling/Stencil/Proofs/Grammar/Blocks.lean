import Stencil.Proofs.Document.Blocks
import Stencil.Proofs.Document.Draft
import Stencil.Proofs.Expr.Grammar
import Stencil.Proofs.Grammar.Rule

/-!
# Blocks by ordered choice

The structure of a template as rules that are tried one after the other: a text, a value, a comment,
a condition, a loop, a tag. A condition and a tag begin with the same marker, so a rule may have
taken tokens when it fails, and the next one begins where it began.

The parser decides at each token. It finds the blocks that the rules find and no others
(`Block.toOption_parse`): what a rule takes the parser reads as the same blocks, wherever that is
(`gives_blocks`), and where the parser gets to the end the rules take the blocks that it has read
(`blocks_of_finishes`). Which token a failure names is not part of the rules.
-/
namespace Stencil.Block

namespace Grammar

open Markup (Keyword)
open Rule (any select just choice)

/-! ## The rules -/

def opening (d : Markup.Delimiter) : Rule Markup.Token Markup.Token := just (.marker (.opening d))

def closing (d : Markup.Delimiter) : Rule Markup.Token Markup.Token := just (.marker (.closing d))

def content : Rule Markup.Token (Located (List Char)) :=
  (select fun | .content cs => some cs | _ => none).spanned

/-- A tag that has a reserved word in it and nothing else. -/
def clause (k : Keyword) : Rule Markup.Token Markup.Token :=
  ((opening .tag).ignoreThen (just (.keyword k))).thenIgnore (closing .tag)

def text : Rule Markup.Token (Span → Block) :=
  select fun | .content cs => some fun span => .text span cs | _ => none

def value : Rule Markup.Token (Span → Block) :=
  (((opening .value).ignoreThen content).thenIgnore (closing .value)).map
    fun c span => .value span c

def comment : Rule Markup.Token (Span → Block) :=
  (((opening .comment).ignoreThen (any.andIs (closing .comment).not).repeated).thenIgnore
    (closing .comment)).map fun _ span => .comment span

def tag : Rule Markup.Token (Span → Block) :=
  (((opening .tag).ignoreThen content).thenIgnore (closing .tag)).map
    fun c span => .tag span c

/-- The first tag of a condition or loop. -/
def header (kind : Kind) : Rule Markup.Token (Located (List Char)) :=
  (((opening .tag).ignoreThen (just (.keyword kind.opener))).ignoreThen content).thenIgnore
    (closing .tag)

/-- The tag before the second clause. A loop may have either word there. -/
def second : Kind → Rule Markup.Token Markup.Token
  | .conditional => clause .elseClause
  | .loop => choice [clause .emptyClause, clause .elseClause]

section
variable (blocks : Rule Markup.Token (List Block))

/-- A condition or loop; its second clause may be left out. -/
def nested (kind : Kind) : Rule Markup.Token (Span → Block) :=
  ((((header kind).andThen blocks).andThen ((second kind).ignoreThen blocks).orNot).thenIgnore
    (clause kind.closer)).map
      fun ((header, body), orelse) span => kind.block span header body (orelse.getD [])

def block : Rule Markup.Token Block :=
  (choice [text, value, comment, nested blocks .conditional, nested blocks .loop, tag]).spanned.map
    fun l => l.value l.span

def blocksOf : Rule Markup.Token (List Block) := (block blocks).repeated

end

def blocks : Rule Markup.Token (List Block) := Rule.recursive blocksOf

/-! ## Blocks refer to themselves behind a tag only -/

section
open Rule
variable {n : Nat} {r r' : Rule Markup.Token (List Block)}

theorem eager_clause (k : Keyword) : (clause k).Eager := by
  have hopening : (opening .tag).Eager := eager_just _
  exact (hopening.ignoreThen _).thenIgnore _

theorem eager_header (kind : Kind) : (header kind).Eager := by
  have hopening : (opening .tag).Eager := eager_just _
  exact ((hopening.ignoreThen _).ignoreThen _).thenIgnore _

theorem eager_second (kind : Kind) : (second kind).Eager := by
  cases kind with
  | conditional => exact eager_clause _
  | loop => exact (eager_clause _).orElse ((eager_clause _).orElse eager_fail)

theorem agree_nested (h : AgreeBelow n r r') (kind : Kind) :
    Agree n (nested r kind) (nested r' kind) := by
  have hbody : Agree n ((header kind).andThen r) ((header kind).andThen r') :=
    AgreeBelow.andThen (eager_header kind) h
  have horelse : Agree n ((second kind).ignoreThen r) ((second kind).ignoreThen r') :=
    AgreeBelow.ignoreThen (eager_second kind) h
  exact ((hbody.andThen horelse.orNot).thenIgnore (.refl _)).map _

theorem guarded_blocksOf : Guarded blocksOf := by
  intro n r r' h
  have hchoice : Agree n
      (choice [text, value, comment, nested r .conditional, nested r .loop, tag])
      (choice [text, value, comment, nested r' .conditional, nested r' .loop, tag]) :=
    (Agree.refl _).orElse ((Agree.refl _).orElse ((Agree.refl _).orElse
      ((agree_nested h _).orElse ((agree_nested h _).orElse (.refl _)))))
  exact (hchoice.spanned.map _).repetition

theorem blocks_run (ts : List (Located Markup.Token)) : blocks.run ts = (blocksOf blocks).run ts :=
  recursive_run guarded_blocksOf ts

end

/-! ## What a rule takes, the parser reads as the same blocks -/

section
variable {front : List (Located Markup.Token)}

/-- Between two blocks the parser reads the tokens as this block, wherever that is. -/
def IsBlock (front : List (Located Markup.Token)) (b : Block) : Prop :=
  ∀ acc os, (State.mk .between acc os).run front = .ok ⟨.between, b :: acc, os⟩

/-- Between two blocks the parser reads the tokens as these blocks, wherever that is. -/
def AreBlocks (front : List (Located Markup.Token)) (bs : List Block) : Prop :=
  ∀ acc os, (State.mk .between acc os).run front = .ok ⟨.between, bs.reverse ++ acc, os⟩

theorem gives_content : content.Gives fun front c => front = [⟨.content c.value, c.span⟩] := by
  refine (Rule.gives_select _).spanned.mono ?_
  rintro front c ⟨⟨⟨t, s⟩, rfl, ht⟩, hs⟩
  cases t <;> simp only [reduceCtorEq, Option.some.injEq] at ht
  case content cs =>
    rw [hs, ← ht]
    rfl

/-- One content between two markers. -/
theorem gives_enclosed (d : Markup.Delimiter) :
    (((opening d).ignoreThen content).thenIgnore (closing d)).Gives fun front c => ∃ a b,
      front = [⟨.marker (.opening d), a⟩, ⟨.content c.value, c.span⟩,
        ⟨.marker (.closing d), b⟩] := by
  refine (((Rule.gives_just _).ignoreThen gives_content).thenIgnore (Rule.gives_just _)).mono ?_
  rintro front c ⟨_, _, rfl, ⟨_, _, rfl, ⟨_, a, rfl⟩, rfl⟩, _, b, rfl⟩
  exact ⟨a, b, rfl⟩

theorem gives_clause (k : Keyword) : (clause k).Gives fun front _ => ∃ a b c,
    front = [⟨.marker (.opening .tag), a⟩, ⟨.keyword k, b⟩, ⟨.marker (.closing .tag), c⟩] := by
  refine (((Rule.gives_just _).ignoreThen (Rule.gives_just _)).thenIgnore
    (Rule.gives_just _)).mono ?_
  rintro front _ ⟨_, _, rfl, ⟨_, _, rfl, ⟨_, a, rfl⟩, b, rfl⟩, _, c, rfl⟩
  exact ⟨a, b, c, rfl⟩

theorem gives_header (kind : Kind) : (header kind).Gives fun front h => ∃ a b c,
    front = [⟨.marker (.opening .tag), a⟩, ⟨.keyword kind.opener, b⟩, ⟨.content h.value, h.span⟩,
      ⟨.marker (.closing .tag), c⟩] := by
  refine ((((Rule.gives_just _).ignoreThen (Rule.gives_just _)).ignoreThen
    gives_content).thenIgnore (Rule.gives_just _)).mono ?_
  rintro front h ⟨_, _, rfl, ⟨_, _, rfl, ⟨_, _, _, rfl, ⟨_, a, rfl⟩, b, rfl⟩, rfl⟩, _, c, rfl⟩
  exact ⟨a, b, c, rfl⟩

/-- The words that a second clause may begin with. -/
def IsSecond (kind : Kind) (k : Keyword) : Prop :=
  k = .elseClause ∨ kind = .loop ∧ k = .emptyClause

theorem gives_second (kind : Kind) : (second kind).Gives fun front _ => ∃ k a b c, IsSecond kind k ∧
    front = [⟨.marker (.opening .tag), a⟩, ⟨.keyword k, b⟩, ⟨.marker (.closing .tag), c⟩] := by
  have hclause : ∀ k, IsSecond kind k → (clause k).Gives fun front _ => ∃ k a b c,
      IsSecond kind k ∧ front =
        [⟨.marker (.opening .tag), a⟩, ⟨.keyword k, b⟩, ⟨.marker (.closing .tag), c⟩] := by
    intro k hk
    refine (gives_clause k).mono ?_
    rintro front _ ⟨a, b, c, hfront⟩
    exact ⟨k, a, b, c, hk, hfront⟩
  cases kind with
  | conditional => exact hclause _ (.inl rfl)
  | loop =>
    refine .choice ?_
    intro r hr
    simp only [List.mem_cons, List.not_mem_nil, or_false] at hr
    rcases hr with rfl | rfl
    · exact hclause _ (.inr ⟨rfl, rfl⟩)
    · exact hclause _ (.inl rfl)

/-! ### Runs over single tags -/

theorem run_of_step {mode : Mode} {bs : List Block} {os : List Opening} {t : Markup.Token}
    {span : Span} {s' : State} (h : Step bs os span mode t s') (ts : List (Located Markup.Token)) :
    (State.mk mode bs os).run (⟨t, span⟩ :: ts) = s'.run ts := by
  have hstep : (State.mk mode bs os).step ⟨t, span⟩ = .ok s' := step_eq_ok_iff.2 (next?_of_step h)
  rw [State.run, List.foldlM_cons, hstep]
  rfl

theorem run_header (kind : Kind) (h : Located (List Char)) (a b c : Span) (bs : List Block)
    (os : List Opening) (ts : List (Located Markup.Token)) :
    (State.mk .between bs os).run (⟨.marker (.opening .tag), a⟩ :: ⟨.keyword kind.opener, b⟩ ::
      ⟨.content h.value, h.span⟩ :: ⟨.marker (.closing .tag), c⟩ :: ts) =
      (State.mk .between [] (⟨kind, a.start, h, bs, none⟩ :: os)).run ts := by
  have hkeyword : (State.mk (.tag a.start) bs os).keywords.contains kind.opener :=
    State.contains_keywords _ (by cases kind <;> simp [Kind.opener])
  rw [run_of_step .openTag, run_of_step (.keyword a.start kind.opener hkeyword)]
  have hafter : (State.mk (.tag a.start) bs os).afterKeyword a.start kind.opener =
      ⟨.header kind a.start, bs, os⟩ := by cases kind <;> rfl
  rw [hafter, run_of_step (.header kind a.start h.value),
    run_of_step (.closeHeader kind a.start ⟨h.value, h.span⟩)]

theorem run_second {kind : Kind} {k : Keyword} (hk : IsSecond kind k) (start : Nat)
    (h : Located (List Char)) (a b c : Span) (outer body : List Block) (os : List Opening)
    (ts : List (Located Markup.Token)) :
    (State.mk .between body (⟨kind, start, h, outer, none⟩ :: os)).run
      (⟨.marker (.opening .tag), a⟩ :: ⟨.keyword k, b⟩ :: ⟨.marker (.closing .tag), c⟩ :: ts) =
      (State.mk .between [] (⟨kind, start, h, outer, some body⟩ :: os)).run ts := by
  rcases hk with rfl | ⟨rfl, rfl⟩
  · cases kind <;> rfl
  · rfl

theorem run_closer (kind : Kind) (start : Nat) (h : Located (List Char)) (a b c : Span)
    (outer last : List Block) (body : Option (List Block)) (os : List Opening)
    (ts : List (Located Markup.Token)) :
    (State.mk .between last (⟨kind, start, h, outer, body⟩ :: os)).run
      (⟨.marker (.opening .tag), a⟩ :: ⟨.keyword kind.closer, b⟩ ::
        ⟨.marker (.closing .tag), c⟩ :: ts) =
      (State.mk .between
        ((⟨kind, start, h, outer, body⟩ : Opening).close last c.stop :: outer) os).run ts := by
  cases kind <;> cases body <;> rfl

theorem close_none (kind : Kind) (start : Nat) (h : Located (List Char)) (outer last : List Block)
    (stop : Nat) : (⟨kind, start, h, outer, none⟩ : Opening).close last stop =
      kind.block ⟨start, stop⟩ h last.reverse [] := by cases kind <;> rfl

theorem close_some (kind : Kind) (start : Nat) (h : Located (List Char))
    (outer body last : List Block) (stop : Nat) :
    (⟨kind, start, h, outer, some body⟩ : Opening).close last stop =
      kind.block ⟨start, stop⟩ h body.reverse last.reverse := by cases kind <;> rfl

/-! ### Blocks -/

/-- The parser passes over all that is inside a comment. -/
theorem run_comment (start : Nat) (b : Span) (bs : List Block) (os : List Opening)
    (ts : List (Located Markup.Token)) : ∀ {inner : List (Located Markup.Token)},
    (∀ t ∈ inner, t.value ≠ .marker (.closing .comment)) →
    (State.mk (.comment start) bs os).run (inner ++ ⟨.marker (.closing .comment), b⟩ :: ts) =
      (State.mk .between (.comment ⟨start, b.stop⟩ :: bs) os).run ts
  | [], _ => run_of_step (.closeComment start) ts
  | t :: inner, h => by
    obtain ⟨ht, hinner⟩ := List.forall_mem_cons.1 h
    rw [List.cons_append, run_of_step (.comment start t.value ht)]
    exact run_comment start b bs os ts hinner

theorem passed_run {t : Located Markup.Token} (h : t.value ≠ .marker (.closing .comment))
    (rest : List (Located Markup.Token)) :
    (any.andIs (closing .comment).not).run (t :: rest) = some (t.value, rest) := by
  have hclosing : (closing .comment).run (t :: rest) = none := by
    refine Rule.just_eq_none ?_
    intro u hu
    exact Option.some.inj hu ▸ h
  exact Rule.andIs_eq_some_iff.2 ⟨rfl, Rule.isSome_not_iff.2 hclosing⟩

theorem passed_eq_none (b : Span) (rest : List (Located Markup.Token)) :
    (any.andIs (closing .comment).not).run (⟨.marker (.closing .comment), b⟩ :: rest) = none := rfl

theorem gives_comment : comment.Gives fun front f => IsBlock front (f (spanOf front)) := by
  have hinner : (any.andIs (closing .comment).not).repeated.Gives fun front _ =>
      ∀ t ∈ front, t.value ≠ .marker (.closing .comment) := by
    refine Rule.Gives.repetition (P := fun us _ => ∀ t ∈ us, t.value ≠ .marker (.closing .comment))
      ?_ (by simp) ?_
    · intro front rest value hvalue
      obtain ⟨hany, -⟩ := Rule.andIs_eq_some_iff.1 hvalue
      obtain ⟨t, rfl, -⟩ := Rule.gives_select _ hany
      intro u hu hclosing
      obtain rfl := List.mem_singleton.1 hu
      obtain ⟨_, b⟩ := u
      subst hclosing
      cases hvalue
    · intro us _ vs _ hus hvs t ht
      rcases List.mem_append.1 ht with ht | ht
      · exact hus t ht
      · exact hvs t ht
  refine ((((Rule.gives_just _).ignoreThen hinner).thenIgnore (Rule.gives_just _)).map _).mono ?_
  rintro front _ ⟨_, ⟨_, _, rfl, ⟨_, us, rfl, ⟨_, a, rfl⟩, hus⟩, _, b, rfl⟩, rfl⟩ acc os
  rw [List.singleton_append, spanOf_cons_concat, List.cons_append, run_of_step .openComment]
  exact run_comment a.start b acc os [] hus

variable {r : Rule Markup.Token (List Block)}

theorem gives_nested (h : r.Gives AreBlocks) (kind : Kind) :
    (nested r kind).Gives fun front f => IsBlock front (f (spanOf front)) := by
  refine (((((gives_header kind).andThen h).andThen
    ((gives_second kind).ignoreThen h).orNot).thenIgnore (gives_clause _)).map _).mono ?_
  rintro front _ ⟨⟨⟨c, body⟩, orelse⟩, ⟨_, _, rfl, hclauses, _, a', b', d', rfl⟩, rfl⟩ acc os
  obtain ⟨_, elses, rfl, ⟨_, us, rfl, ⟨a, b, d, rfl⟩, hbody⟩, horelse⟩ := hclauses
  have hspan : spanOf ([⟨.marker (.opening .tag), a⟩, ⟨.keyword kind.opener, b⟩,
      ⟨.content c.value, c.span⟩, ⟨.marker (.closing .tag), d⟩] ++ us ++ elses ++
      [⟨.marker (.opening .tag), a'⟩, ⟨.keyword kind.closer, b'⟩, ⟨.marker (.closing .tag), d'⟩]) =
      ⟨a.start, d'.stop⟩ := by
    simp [spanOf, Span.cover, List.getLast?_cons]
  rw [hspan]
  simp only [List.cons_append, List.nil_append, List.append_assoc]
  rw [run_header]
  refine run_append_eq_ok_iff.2 ⟨_, hbody [] _, ?_⟩
  rcases horelse with ⟨orelse, rfl, _, vs, rfl, ⟨_, k, e, f, g, hk, rfl⟩, horelse⟩ | ⟨rfl, rfl⟩
  · simp only [List.cons_append, List.nil_append]
    rw [run_second hk]
    refine run_append_eq_ok_iff.2 ⟨_, horelse [] _, ?_⟩
    rw [run_closer, close_some]
    simp [State.run, pure, Except.pure]
  · rw [List.nil_append, run_closer, close_none]
    simp [State.run, pure, Except.pure]

theorem gives_block (h : r.Gives AreBlocks) : (block r).Gives IsBlock := by
  have hchoice : (choice [text, value, comment, nested r .conditional, nested r .loop, tag]).Gives
      fun front f => IsBlock front (f (spanOf front)) := by
    refine .choice ?_
    intro s hs
    simp only [List.mem_cons, List.not_mem_nil, or_false] at hs
    rcases hs with rfl | rfl | rfl | rfl | rfl | rfl
    · refine (Rule.gives_select _).mono ?_
      rintro front f ⟨⟨t, s⟩, rfl, ht⟩ acc os
      cases t <;> simp only [reduceCtorEq, Option.some.injEq] at ht
      case content cs =>
        subst ht
        exact run_of_step (.text cs) []
    · refine ((gives_enclosed .value).map _).mono ?_
      rintro front _ ⟨c, ⟨a, b, rfl⟩, rfl⟩ acc os
      rfl
    · exact gives_comment
    · exact gives_nested h .conditional
    · exact gives_nested h .loop
    · refine ((gives_enclosed .tag).map _).mono ?_
      rintro front _ ⟨c, ⟨a, b, rfl⟩, rfl⟩ acc os
      rfl
  refine (hchoice.spanned.map _).mono ?_
  rintro front _ ⟨l, ⟨hl, hspan⟩, rfl⟩
  rw [hspan]
  exact hl

theorem gives_blocksOf (h : r.Gives AreBlocks) : (blocksOf r).Gives AreBlocks := by
  refine (gives_block h).repetition (fun acc os => rfl) ?_
  intro us b vs bs hb hbs acc os
  refine run_append_eq_ok_iff.2 ⟨_, hb acc os, ?_⟩
  rw [hbs (b :: acc) os, List.reverse_cons, List.append_assoc]
  rfl

/-- **What the rules take for blocks, the parser reads as these blocks.** -/
theorem gives_blocks : blocks.Gives AreBlocks := .recursive fun _ => gives_blocksOf

end

/-! ## What the parser reads is what the rules find first -/

/-- With these tokens the parser gets to the end, where nothing is open and `result` was read. -/
def Finishes (s : State) (ts : List (Located Markup.Token)) (result : List Block) : Prop :=
  s.run ts = .ok ⟨.between, result, []⟩

section
variable {acc result : List Block} {os : List Opening} {start : Nat}
  {ts us rest : List (Located Markup.Token)}

theorem Finishes.step {mode : Mode} (h : Finishes ⟨mode, acc, os⟩ ts result)
    (hm : mode ≠ .between) : ∃ t us s', ts = t :: us ∧ Step acc os t.span mode t.value s' ∧
      Finishes s' us result := by
  cases ts with
  | nil =>
    have hrun : (⟨mode, acc, os⟩ : State) = ⟨.between, result, []⟩ := Except.ok.inj h
    exact absurd (congrArg State.mode hrun) hm
  | cons t us =>
    obtain ⟨s', hs', hrun⟩ := run_cons_eq_ok_iff.1 h
    exact ⟨t, us, s', rfl, step_of_next? hs', hrun⟩

theorem finishes_cons {mode : Mode} {t : Markup.Token} {span : Span} {s' : State}
    (h : Step acc os span mode t s') :
    Finishes ⟨mode, acc, os⟩ (⟨t, span⟩ :: ts) result ↔ Finishes s' ts result := by
  rw [Finishes, Finishes, run_of_step h]

theorem Finishes.value (h : Finishes ⟨.value start, acc, os⟩ ts result) : ∃ c b us,
    ts = ⟨.content c.value, c.span⟩ :: ⟨.marker (.closing .value), b⟩ :: us ∧
      Finishes ⟨.between, .value ⟨start, b.stop⟩ c :: acc, os⟩ us result := by
  obtain ⟨⟨_, s⟩, us, _, rfl, hstep, h⟩ := h.step (by simp)
  cases hstep with
  | value _ cs =>
    obtain ⟨⟨_, b⟩, vs, _, rfl, hstep, h⟩ := h.step (by simp)
    cases hstep with
    | closeValue => exact ⟨⟨cs, s⟩, b, vs, rfl, h⟩

theorem Finishes.comment : ∀ {ts : List (Located Markup.Token)},
    Finishes ⟨.comment start, acc, os⟩ ts result → ∃ inner b us,
      ts = inner ++ ⟨.marker (.closing .comment), b⟩ :: us ∧
        (∀ t ∈ inner, t.value ≠ .marker (.closing .comment)) ∧
        Finishes ⟨.between, .comment ⟨start, b.stop⟩ :: acc, os⟩ us result
  | [], h => by
    obtain ⟨_, _, _, hts, -⟩ := h.step (by simp)
    cases hts
  | t :: ts, h => by
    obtain ⟨⟨value, s⟩, us, _, hts, hstep, h⟩ := h.step (by simp)
    obtain ⟨rfl, rfl⟩ := List.cons.inj hts
    cases hstep with
    | comment _ _ hvalue =>
      obtain ⟨inner, b, us, rfl, hinner, h⟩ := h.comment
      exact ⟨⟨value, s⟩ :: inner, b, us, rfl, List.forall_mem_cons.2 ⟨hvalue, hinner⟩, h⟩
    | closeComment => exact ⟨[], s, ts, rfl, by simp, h⟩

/-- Content between the markers of a tag, or a reserved word that may stand there. -/
theorem Finishes.tag (h : Finishes ⟨.tag start, acc, os⟩ ts result) :
    (∃ c b us, ts = ⟨.content c.value, c.span⟩ :: ⟨.marker (.closing .tag), b⟩ :: us ∧
      Finishes ⟨.between, .tag ⟨start, b.stop⟩ c :: acc, os⟩ us result) ∨
    ∃ k b us, ts = ⟨.keyword k, b⟩ :: us ∧ (State.mk (.tag start) acc os).keywords.contains k ∧
      Finishes ((State.mk (.tag start) acc os).afterKeyword start k) us result := by
  obtain ⟨⟨_, s⟩, us, _, rfl, hstep, h⟩ := h.step (by simp)
  cases hstep with
  | tag _ cs =>
    obtain ⟨⟨_, b⟩, vs, _, rfl, hstep, h⟩ := h.step (by simp)
    cases hstep with
    | closeTag => exact .inl ⟨⟨cs, s⟩, b, vs, rfl, h⟩
  | keyword _ k hk => exact .inr ⟨k, s, us, rfl, hk, h⟩

theorem Finishes.header {kind : Kind} (h : Finishes ⟨.header kind start, acc, os⟩ ts result) :
    ∃ c b us, ts = ⟨.content c.value, c.span⟩ :: ⟨.marker (.closing .tag), b⟩ :: us ∧
      Finishes ⟨.between, [], ⟨kind, start, c, acc, none⟩ :: os⟩ us result := by
  obtain ⟨⟨_, s⟩, us, _, rfl, hstep, h⟩ := h.step (by simp)
  cases hstep with
  | header _ _ cs =>
    obtain ⟨⟨_, b⟩, vs, _, rfl, hstep, h⟩ := h.step (by simp)
    cases hstep with
    | closeHeader => exact ⟨⟨cs, s⟩, b, vs, rfl, h⟩

/-- The tokens begin with a tag that ends a clause. -/
def Turns (ts : List (Located Markup.Token)) : Prop :=
  ∃ a k b us, ts = ⟨.marker (.opening .tag), a⟩ :: ⟨.keyword k, b⟩ :: us ∧
    k ≠ .ifOpen ∧ k ≠ .forOpen

/-- The reserved words that may stand inside a condition or loop. -/
theorem keyword_cases {mode : Mode} {kind : Kind} {h : Located (List Char)} {outer : List Block}
    {body : Option (List Block)} {k : Keyword}
    (hk : (State.mk mode acc (⟨kind, start, h, outer, body⟩ :: os)).keywords.contains k) :
    k = .ifOpen ∨ k = .forOpen ∨ k = kind.closer ∨ IsSecond kind k ∧ body = none := by
  cases kind <;> cases body <;> cases k <;>
    simp_all [State.keywords, Kind.closer, IsSecond]

theorem Finishes.second {o : Opening} (h : Finishes ⟨.clause, acc, o :: os⟩ ts result) : ∃ b us,
    ts = ⟨.marker (.closing .tag), b⟩ :: us ∧
      Finishes ⟨.between, [], { o with body := some acc } :: os⟩ us result := by
  obtain ⟨⟨_, b⟩, us, _, rfl, hstep, h⟩ := h.step (by simp)
  cases hstep with
  | clause o outer ho =>
    cases ho
    exact ⟨b, us, rfl, h⟩

theorem Finishes.closer {o : Opening} (h : Finishes ⟨.final, acc, o :: os⟩ ts result) : ∃ b us,
    ts = ⟨.marker (.closing .tag), b⟩ :: us ∧
      Finishes ⟨.between, o.close acc b.stop :: o.outer, os⟩ us result := by
  obtain ⟨⟨_, b⟩, us, _, rfl, hstep, h⟩ := h.step (by simp)
  cases hstep with
  | final o outer ho =>
    cases ho
    exact ⟨b, us, rfl, h⟩

/-- Such a tag begins the second clause of the innermost opening, or closes it. -/
theorem Finishes.turn {kind : Kind} {h : Located (List Char)} {outer : List Block}
    {body : Option (List Block)}
    (hf : Finishes ⟨.between, acc, ⟨kind, start, h, outer, body⟩ :: os⟩ ts result) (ht : Turns ts) :
    ∃ a k b c us, ts = ⟨.marker (.opening .tag), a⟩ :: ⟨.keyword k, b⟩ ::
        ⟨.marker (.closing .tag), c⟩ :: us ∧
      (k = kind.closer ∧ Finishes ⟨.between, (⟨kind, start, h, outer, body⟩ : Opening).close acc
          c.stop :: outer, os⟩ us result ∨
        IsSecond kind k ∧ body = none ∧
          Finishes ⟨.between, [], ⟨kind, start, h, outer, some acc⟩ :: os⟩ us result) := by
  obtain ⟨a, k, b, us, rfl, hif, hfor⟩ := ht
  rcases ((finishes_cons .openTag).1 hf).tag with ⟨_, _, _, hts, -⟩ | ⟨_, _, us, hts, hk, hf⟩
  · cases hts
  · cases hts
    rcases keyword_cases hk with rfl | rfl | rfl | ⟨hsecond, rfl⟩
    · exact absurd rfl hif
    · exact absurd rfl hfor
    · have hafter : (State.mk (.tag a.start) acc
          (⟨kind, start, h, outer, body⟩ :: os)).afterKeyword a.start kind.closer =
          ⟨.final, acc, ⟨kind, start, h, outer, body⟩ :: os⟩ := by cases kind <;> rfl
      rw [hafter] at hf
      obtain ⟨c, vs, rfl, hf⟩ := hf.closer
      exact ⟨a, _, b, c, vs, rfl, .inl ⟨rfl, hf⟩⟩
    · have hafter : (State.mk (.tag a.start) acc
          (⟨kind, start, h, outer, none⟩ :: os)).afterKeyword a.start k =
          ⟨.clause, acc, ⟨kind, start, h, outer, none⟩ :: os⟩ := by
        rcases hsecond with rfl | ⟨-, rfl⟩ <;> rfl
      rw [hafter] at hf
      obtain ⟨c, vs, rfl, hf⟩ := hf.second
      exact ⟨a, k, b, c, vs, rfl, .inr ⟨hsecond, rfl, hf⟩⟩

/-! ### The rules on the same tokens -/

theorem enclosed_run (d : Markup.Delimiter) (c : Located (List Char)) (a b : Span)
    (rest : List (Located Markup.Token)) :
    (((opening d).ignoreThen content).thenIgnore (closing d)).run
      (⟨.marker (.opening d), a⟩ :: ⟨.content c.value, c.span⟩ ::
        ⟨.marker (.closing d), b⟩ :: rest) = some (c, rest) :=
  Rule.thenIgnore_run (Rule.ignoreThen_run (Rule.just_run _ a _) (Rule.spanned_run_one rfl))
    (Rule.just_run (Markup.Token.marker (.closing d)) b rest)

theorem clause_run (k : Keyword) (a b c : Span) (rest : List (Located Markup.Token)) :
    (clause k).run (⟨.marker (.opening .tag), a⟩ :: ⟨.keyword k, b⟩ ::
      ⟨.marker (.closing .tag), c⟩ :: rest) = some (.keyword k, rest) :=
  Rule.thenIgnore_run (Rule.ignoreThen_run (Rule.just_run _ a _)
    (Rule.just_run (Markup.Token.keyword k) b _))
    (Rule.just_run (Markup.Token.marker (.closing .tag)) c _)

theorem header_run (kind : Kind) (h : Located (List Char)) (a b c : Span)
    (rest : List (Located Markup.Token)) :
    (header kind).run (⟨.marker (.opening .tag), a⟩ :: ⟨.keyword kind.opener, b⟩ ::
      ⟨.content h.value, h.span⟩ :: ⟨.marker (.closing .tag), c⟩ :: rest) = some (h, rest) := by
  have hword := Rule.ignoreThen_run (Rule.just_run (Markup.Token.marker (.opening .tag)) a _)
    (Rule.just_run (Markup.Token.keyword kind.opener) b
      (⟨.content h.value, h.span⟩ :: ⟨.marker (.closing .tag), c⟩ :: rest))
  have hcontent : content.run (⟨.content h.value, h.span⟩ :: ⟨.marker (.closing .tag), c⟩ :: rest) =
      some (h, ⟨.marker (.closing .tag), c⟩ :: rest) := Rule.spanned_run_one rfl
  exact Rule.thenIgnore_run (Rule.ignoreThen_run hword hcontent)
    (Rule.just_run (Markup.Token.marker (.closing .tag)) c rest)

theorem second_run {kind : Kind} {k : Keyword} (hk : IsSecond kind k) (a b c : Span)
    (rest : List (Located Markup.Token)) :
    (second kind).run (⟨.marker (.opening .tag), a⟩ :: ⟨.keyword k, b⟩ ::
      ⟨.marker (.closing .tag), c⟩ :: rest) = some (.keyword k, rest) := by
  rcases hk with rfl | ⟨rfl, rfl⟩
  · cases kind with
    | conditional => exact clause_run .elseClause a b c rest
    | loop =>
      rw [second, Rule.choice_cons_of_none rfl]
      exact Rule.choice_cons_of_some (clause_run .elseClause a b c rest)
  · exact Rule.choice_cons_of_some (clause_run .emptyClause a b c rest)

/-- A tag that closes a condition or loop does not begin its second clause. -/
theorem second_eq_none (kind : Kind) (a b c : Span) (rest : List (Located Markup.Token)) :
    (second kind).run (⟨.marker (.opening .tag), a⟩ :: ⟨.keyword kind.closer, b⟩ ::
      ⟨.marker (.closing .tag), c⟩ :: rest) = none := by
  cases kind <;> rfl

variable {r : Rule Markup.Token (List Block)}

theorem nested_eq_none {kind : Kind} (h : (header kind).run ts = none) :
    (nested r kind).run ts = none :=
  Rule.map_eq_none_iff.2 (Rule.thenIgnore_eq_none (Rule.andThen_eq_none (Rule.andThen_eq_none h)))

theorem header_eq_none {kind : Kind} {k : Keyword} (hk : k ≠ kind.opener) (a b : Span)
    (us : List (Located Markup.Token)) :
    (header kind).run (⟨.marker (.opening .tag), a⟩ :: ⟨.keyword k, b⟩ :: us) = none := by
  have hword : (just (Markup.Token.keyword kind.opener)).run (⟨.keyword k, b⟩ :: us) = none :=
    Rule.just_eq_none (by simp [hk])
  refine Rule.thenIgnore_eq_none (Rule.ignoreThen_eq_none (Rule.map_eq_none_iff.2 ?_))
  exact Rule.andThen_eq_none_of_run (Rule.just_run (Markup.Token.marker (.opening .tag)) a _) hword

/-- No block begins with a tag that ends a clause. -/
theorem block_eq_none (ht : Turns ts) : (block r).run ts = none := by
  obtain ⟨a, k, b, us, rfl, hif, hfor⟩ := ht
  refine Rule.map_eq_none_iff.2 (Rule.spanned_eq_none ?_)
  rw [Rule.choice_cons_of_none rfl, Rule.choice_cons_of_none rfl, Rule.choice_cons_of_none rfl,
    Rule.choice_cons_of_none (nested_eq_none (header_eq_none hif a b us)),
    Rule.choice_cons_of_none (nested_eq_none (header_eq_none hfor a b us)),
    Rule.choice_cons_of_none rfl]
  rfl

/-- The rule takes blocks from the front of the tokens, and the parser goes on behind them; it is at
the end there, or at a tag that ends a clause. -/
def BlocksFirst (r : Rule Markup.Token (List Block)) (acc : List Block) (os : List Opening)
    (ts : List (Located Markup.Token)) (result : List Block) : Prop :=
  ∃ bs rest, r.run ts = some (bs, rest) ∧ Finishes ⟨.between, bs.reverse ++ acc, os⟩ rest result ∧
    (rest = [] ∨ Turns rest)

/-- Inside a condition or loop the blocks end at a tag, not at the end of the tokens. -/
theorem BlocksFirst.inside {o : Opening} (h : BlocksFirst r acc (o :: os) ts result) : ∃ bs rest,
    r.run ts = some (bs, rest) ∧ Finishes ⟨.between, bs.reverse ++ acc, o :: os⟩ rest result ∧
      Turns rest := by
  obtain ⟨bs, rest, hrun, hf, rfl | ht⟩ := h
  · have hstate : (⟨.between, bs.reverse ++ acc, o :: os⟩ : State) = ⟨.between, result, []⟩ :=
      Except.ok.inj hf
    cases congrArg State.openings hstate
  · exact ⟨bs, rest, hrun, hf, ht⟩

/-- The rule does so wherever there are fewer than `n` tokens. -/
def FirstBelow (n : Nat) (r : Rule Markup.Token (List Block)) (result : List Block) : Prop :=
  ∀ us : List (Located Markup.Token), us.length < n → ∀ acc os,
    Finishes ⟨.between, acc, os⟩ us result → BlocksFirst r acc os us result

/-- A condition or loop whose clauses are taken for the blocks that the parser reads there. -/
theorem nested_of_finishes {n : Nat} {kind : Kind} {h : Located (List Char)} (a b d : Span)
    (hr : FirstBelow n r result) (hus : us.length < n)
    (hf : Finishes ⟨.between, [], ⟨kind, start, h, acc, none⟩ :: os⟩ us result) :
    ∃ middle c rest f, us = middle ++ ⟨.marker (.closing .tag), c⟩ :: rest ∧
      (nested r kind).run (⟨.marker (.opening .tag), a⟩ :: ⟨.keyword kind.opener, b⟩ ::
        ⟨.content h.value, h.span⟩ :: ⟨.marker (.closing .tag), d⟩ :: us) = some (f, rest) ∧
      Finishes ⟨.between, f ⟨start, c.stop⟩ :: acc, os⟩ rest result := by
  obtain ⟨body, rest, hbody, hrest, ht⟩ := (hr us hus [] _ hf).inside
  have hfirst := Rule.andThen_run (header_run kind h a b d us) hbody
  obtain ⟨a', k, b', c, vs, rfl, hturn⟩ := hrest.turn ht
  obtain ⟨front, rfl⟩ := r.suffix hbody
  rcases hturn with ⟨rfl, hend⟩ | ⟨hk, -, hsecond⟩
  · have horelse := Rule.orNot_of_none
      (Rule.ignoreThen_eq_none (s := r) (second_eq_none kind a' b' c vs))
    have hrun := Rule.thenIgnore_run (Rule.andThen_run hfirst horelse)
      (clause_run kind.closer a' b' c vs)
    refine ⟨front ++ [⟨.marker (.opening .tag), a'⟩, ⟨.keyword kind.closer, b'⟩], c, vs, _,
      by simp, Rule.map_run hrun _, ?_⟩
    rwa [close_none, List.append_nil, List.reverse_reverse] at hend
  · have hvs : vs.length < n := by
      simp only [List.length_append, List.length_cons] at hus
      omega
    obtain ⟨orelse, rest, horelse, hrest, ht⟩ := (hr vs hvs [] _ hsecond).inside
    have hclause := Rule.orNot_run (Rule.ignoreThen_run (second_run hk a' b' c vs) horelse)
    obtain ⟨a'', k', b'', c', ws, rfl, hturn⟩ := hrest.turn ht
    obtain ⟨front', rfl⟩ := r.suffix horelse
    rcases hturn with ⟨rfl, hend⟩ | ⟨-, hnone, -⟩
    · have hrun := Rule.thenIgnore_run (Rule.andThen_run hfirst hclause)
        (clause_run kind.closer a'' b'' c' ws)
      refine ⟨front ++ ⟨.marker (.opening .tag), a'⟩ :: ⟨.keyword k, b'⟩ ::
        ⟨.marker (.closing .tag), c⟩ :: front' ++
        [⟨.marker (.opening .tag), a''⟩, ⟨.keyword kind.closer, b''⟩], c', ws, _,
        by simp, Rule.map_run hrun _, ?_⟩
      rwa [close_some, List.append_nil, List.append_nil, List.reverse_reverse,
        List.reverse_reverse] at hend
    · cases hnone

theorem comment_run {inner : List (Located Markup.Token)} (a b : Span)
    (h : ∀ t ∈ inner, t.value ≠ .marker (.closing .comment)) (rest : List (Located Markup.Token)) :
    comment.run (⟨.marker (.opening .comment), a⟩ :: inner ++
      ⟨.marker (.closing .comment), b⟩ :: rest) = some (fun span => .comment span, rest) := by
  have hmany : ∃ values, (any.andIs (closing .comment).not).repeated.run
      (inner ++ ⟨.marker (.closing .comment), b⟩ :: rest) =
        some (values, ⟨.marker (.closing .comment), b⟩ :: rest) := by
    induction inner with
    | nil => exact ⟨[], congrArg some (Rule.runMany_of_none (passed_eq_none b rest))⟩
    | cons t inner ih =>
      obtain ⟨ht, hinner⟩ := List.forall_mem_cons.1 h
      obtain ⟨values, hvalues⟩ := ih hinner
      have hnext := Rule.runMany_of_some
        (passed_run ht (inner ++ ⟨.marker (.closing .comment), b⟩ :: rest)) (by simp)
      refine ⟨t.value :: values, congrArg some ?_⟩
      rw [List.cons_append, hnext, Option.some.inj hvalues]
  obtain ⟨values, hvalues⟩ := hmany
  exact Rule.map_run (Rule.thenIgnore_run (Rule.ignoreThen_run
    (Rule.just_run (Markup.Token.marker (.opening .comment)) a _) hvalues)
    (Rule.just_run (Markup.Token.marker (.closing .comment)) b rest)) _

/-- What is chosen is a block over the tokens that are taken for it. -/
theorem block_of_choice {u : List (Located Markup.Token)} {f : Span → Block} (hu : u ≠ [])
    (h : (choice [text, value, comment, nested r .conditional, nested r .loop, tag]).run
      (u ++ rest) = some (f, rest))
    (hf : Finishes ⟨.between, f (spanOf u) :: acc, os⟩ rest result) :
    ∃ b last, (block r).run (u ++ rest) = some (b, last) ∧ last.length < (u ++ rest).length ∧
      Finishes ⟨.between, b :: acc, os⟩ last result := by
  refine ⟨_, rest, Rule.map_run (Rule.spanned_run h) _, ?_, hf⟩
  have hpos := List.length_pos_iff.2 hu
  rw [List.length_append]
  omega

theorem choice_nested {kind : Kind} {a b : Span} {x : (Span → Block) × List (Located Markup.Token)}
    (h : (nested r kind).run (⟨.marker (.opening .tag), a⟩ :: ⟨.keyword kind.opener, b⟩ :: us) =
      some x) :
    (choice [text, value, comment, nested r .conditional, nested r .loop, tag]).run
      (⟨.marker (.opening .tag), a⟩ :: ⟨.keyword kind.opener, b⟩ :: us) = some x := by
  rw [Rule.choice_cons_of_none rfl, Rule.choice_cons_of_none rfl, Rule.choice_cons_of_none rfl]
  cases kind with
  | conditional => exact Rule.choice_cons_of_some h
  | loop =>
    rw [Rule.choice_cons_of_none (nested_eq_none (header_eq_none (by simp [Kind.opener]) a b us))]
    exact Rule.choice_cons_of_some h

/-- A condition or loop is the block that is chosen where its first tag stands. -/
theorem block_of_header {n : Nat} (kind : Kind) (a b : Span)
    (hr : FirstBelow n r result)
    (hts : (⟨.marker (.opening .tag), a⟩ :: ⟨.keyword kind.opener, b⟩ :: ts).length ≤ n)
    (hf : Finishes ⟨.header kind a.start, acc, os⟩ ts result) :
    ∃ x rest, (block r).run (⟨.marker (.opening .tag), a⟩ :: ⟨.keyword kind.opener, b⟩ :: ts) =
      some (x, rest) ∧
      rest.length < (⟨.marker (.opening .tag), a⟩ :: ⟨.keyword kind.opener, b⟩ :: ts).length ∧
      Finishes ⟨.between, x :: acc, os⟩ rest result := by
  obtain ⟨h, d, us, rfl, hf⟩ := hf.header
  have hus : us.length < n := by
    simp only [List.length_cons] at hts
    omega
  obtain ⟨middle, c, rest, f, rfl, hrun, hf⟩ := nested_of_finishes a b d hr hus hf
  have hsplit : (⟨.marker (.opening .tag), a⟩ :: ⟨.keyword kind.opener, b⟩ ::
      ⟨.content h.value, h.span⟩ :: ⟨.marker (.closing .tag), d⟩ ::
        (middle ++ ⟨.marker (.closing .tag), c⟩ :: rest)) =
      (⟨.marker (.opening .tag), a⟩ :: (⟨.keyword kind.opener, b⟩ ::
        ⟨.content h.value, h.span⟩ :: ⟨.marker (.closing .tag), d⟩ :: middle) ++
          [⟨.marker (.closing .tag), c⟩]) ++ rest := by
    simp
  have hchoice := choice_nested hrun
  rw [hsplit] at hchoice ⊢
  refine block_of_choice (List.cons_ne_nil _ _) hchoice ?_
  rw [spanOf_cons_concat]
  exact hf

/-- The block that the parser reads next is the one that is chosen first. -/
theorem block_of_finishes {n : Nat} (hr : FirstBelow n r result)
    (hts : ts.length ≤ n) (hne : ts ≠ []) (hf : Finishes ⟨.between, acc, os⟩ ts result) :
    Turns ts ∨ ∃ b rest, (block r).run ts = some (b, rest) ∧ rest.length < ts.length ∧
      Finishes ⟨.between, b :: acc, os⟩ rest result := by
  obtain ⟨⟨v, s⟩, us, rfl⟩ := List.exists_cons_of_ne_nil hne
  obtain ⟨s', hs', hrun⟩ := run_cons_eq_ok_iff.1 hf
  have hstep := step_of_next? hs'
  cases hstep with
  | text cs =>
    exact .inr (block_of_choice (u := [⟨.content cs, s⟩]) (List.cons_ne_nil _ _) rfl hrun)
  | openValue =>
    obtain ⟨c, b, vs, rfl, hvs⟩ := Finishes.value hrun
    have hvalue := Rule.map_run (enclosed_run .value c s b vs) (fun c span => Block.value span c)
    refine .inr (block_of_choice (u := [⟨.marker (.opening .value), s⟩, ⟨.content c.value, c.span⟩,
      ⟨.marker (.closing .value), b⟩]) (f := fun span => .value span c)
      (List.cons_ne_nil _ _) ?_ hvs)
    rw [Rule.choice_cons_of_none rfl]
    exact Rule.choice_cons_of_some hvalue
  | openComment =>
    obtain ⟨inner, b, vs, rfl, hinner, hvs⟩ := Finishes.comment hrun
    have hsplit : (⟨.marker (.opening .comment), s⟩ ::
        (inner ++ ⟨.marker (.closing .comment), b⟩ :: vs)) =
        (⟨.marker (.opening .comment), s⟩ :: inner ++
          [⟨.marker (.closing .comment), b⟩]) ++ vs := by
      simp
    have hcomment := comment_run s b hinner vs
    rw [List.cons_append] at hcomment
    rw [hsplit] at hcomment ⊢
    refine .inr (block_of_choice (f := fun span => .comment span) (List.cons_ne_nil _ _) ?_ ?_)
    · rw [Rule.choice_cons_of_none rfl, Rule.choice_cons_of_none rfl]
      exact Rule.choice_cons_of_some hcomment
    · rw [spanOf_cons_concat]
      exact hvs
  | openTag =>
    rcases Finishes.tag hrun with ⟨c, b, vs, rfl, hvs⟩ | ⟨k, b, vs, rfl, -, hvs⟩
    · have htag := Rule.map_run (enclosed_run .tag c s b vs) (fun c span => Block.tag span c)
      refine .inr (block_of_choice (u := [⟨.marker (.opening .tag), s⟩, ⟨.content c.value, c.span⟩,
        ⟨.marker (.closing .tag), b⟩]) (f := fun span => .tag span c) (List.cons_ne_nil _ _) ?_ hvs)
      rw [Rule.choice_cons_of_none rfl, Rule.choice_cons_of_none rfl,
        Rule.choice_cons_of_none rfl, Rule.choice_cons_of_none (nested_eq_none rfl),
        Rule.choice_cons_of_none (nested_eq_none rfl)]
      exact Rule.choice_cons_of_some htag
    · by_cases hif : k = .ifOpen
      · subst hif
        exact .inr (block_of_header .conditional s b hr hts hvs)
      · by_cases hfor : k = .forOpen
        · subst hfor
          exact .inr (block_of_header .loop s b hr hts hvs)
        · exact .inl ⟨s, k, b, vs, rfl, hif, hfor⟩

end

/-- Where the parser gets to the end, the rules take the blocks that it reads, up to a tag that ends
a clause. -/
theorem blocks_of_finishes {result : List Block} (n : Nat) : ∀ ts : List (Located Markup.Token),
    ts.length = n → ∀ acc os, Finishes ⟨.between, acc, os⟩ ts result →
      BlocksFirst blocks acc os ts result := by
  induction n using Nat.strongRecOn with
  | ind n ih =>
    intro ts hts acc os hf
    have hblocks : ∀ us, blocks.run us = some ((block blocks).runMany us) := blocks_run
    by_cases hne : ts = []
    · subst hne
      exact ⟨[], [], by rw [hblocks, Rule.runMany_of_none rfl], hf, .inl rfl⟩
    · have hr : FirstBelow n blocks result := fun us hus => ih us.length hus us rfl
      rcases block_of_finishes hr (Nat.le_of_eq hts) hne hf with ht | ⟨b, rest, hb, hl, hrest⟩
      · exact ⟨[], ts, by rw [hblocks, Rule.runMany_of_none (block_eq_none ht)], hf, .inr ht⟩
      · obtain ⟨bs, last, hbs, hlast, hend⟩ := hr rest (by omega) _ _ hrest
        rw [hblocks] at hbs
        refine ⟨b :: bs, last, ?_, by simpa using hlast, hend⟩
        rw [hblocks, Rule.runMany_of_some hb hl, Option.some.inj hbs]

end Grammar

open Block.Grammar in
/-- **The parser reads a list of tokens as the blocks that ordered choice finds in it, and refuses
it where ordered choice finds none.** -/
theorem toOption_parse (stop : Nat) (ts : List (Located Markup.Token)) :
    (parse stop ts).toOption = Grammar.blocks.whole ts := by
  ext bs
  rw [Expr.toOption_eq_some_iff, Rule.whole_eq_some_iff, parse_eq_ok_iff]
  constructor
  · rintro ⟨result, hrun, rfl⟩
    obtain ⟨bs, rest, hbs, hf, rfl | ⟨a, k, b, us, rfl, hif, hfor⟩⟩ :=
      blocks_of_finishes ts.length ts rfl [] [] hrun
    · have hstate : (⟨.between, bs.reverse ++ [], []⟩ : State) = ⟨.between, result, []⟩ :=
        Except.ok.inj hf
      have hresult : bs.reverse ++ [] = result := congrArg State.blocks hstate
      rw [hbs, ← hresult, List.append_nil, List.reverse_reverse]
    · -- outside of conditions and loops no tag ends a clause
      rcases ((finishes_cons .openTag).1 hf).tag with ⟨_, _, _, hts, -⟩ | ⟨_, _, _, hts, hk, -⟩
      · cases hts
      · cases hts
        rcases (by simpa [State.keywords] using hk : k = .forOpen ∨ k = .ifOpen) with rfl | rfl
        · exact absurd rfl hfor
        · exact absurd rfl hif
  · intro h
    rw [← List.append_nil ts] at h
    have hrun := gives_blocks h [] []
    rw [List.append_nil] at hrun
    exact ⟨bs.reverse, hrun, by rw [List.reverse_reverse]⟩

end Stencil.Block

namespace Stencil.Document

theorem toOption_blocks (source : List Char) :
    (blocks source).toOption = Block.Grammar.blocks.whole (Markup.scan source) := by
  rw [← Block.toOption_parse (Text.byteLength source), blocks]
  cases Block.parse (Text.byteLength source) (Markup.scan source) <;> rfl

end Stencil.Document
