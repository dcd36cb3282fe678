import Stencil.Document.Block
import Stencil.Proofs.Markup.Seam

/-!
# Steps of the block parser

`Step` says what a token does in each mode, one rule a case. From the rules: the parser is between
two blocks only where the text is outside of all markers (`closed_of_run`), it does not look at
offsets (`run_relocate`), nor at the blocks and openings beneath those it has read itself
(`run_above`).
-/
namespace Stencil

namespace Block

open Markup

variable {s s' : State} {t : Located Markup.Token} {ts us : List (Located Markup.Token)}

/-! ## The rules -/

/-- One token: what it does in each mode. -/
inductive Step (bs : List Block) (os : List Opening) (span : Span) :
    Mode → Markup.Token → State → Prop
  | text (cs : List Char) : Step bs os span .between (.content cs)
      ⟨.between, .text span cs :: bs, os⟩
  | openValue : Step bs os span .between (.marker (.opening .value))
      ⟨.value span.start, bs, os⟩
  | openComment : Step bs os span .between (.marker (.opening .comment))
      ⟨.comment span.start, bs, os⟩
  | openTag : Step bs os span .between (.marker (.opening .tag)) ⟨.tag span.start, bs, os⟩
  | value (start : Nat) (cs : List Char) : Step bs os span (.value start) (.content cs)
      ⟨.valueContent start ⟨cs, span⟩, bs, os⟩
  | closeValue (start : Nat) (content : Located (List Char)) :
      Step bs os span (.valueContent start content) (.marker (.closing .value))
        ⟨.between, .value ⟨start, span.stop⟩ content :: bs, os⟩
  | comment (start : Nat) (t : Markup.Token) : t ≠ .marker (.closing .comment) →
      Step bs os span (.comment start) t ⟨.comment start, bs, os⟩
  | closeComment (start : Nat) : Step bs os span (.comment start) (.marker (.closing .comment))
      ⟨.between, .comment ⟨start, span.stop⟩ :: bs, os⟩
  | tag (start : Nat) (cs : List Char) : Step bs os span (.tag start) (.content cs)
      ⟨.tagContent start ⟨cs, span⟩, bs, os⟩
  | closeTag (start : Nat) (content : Located (List Char)) :
      Step bs os span (.tagContent start content) (.marker (.closing .tag))
        ⟨.between, .tag ⟨start, span.stop⟩ content :: bs, os⟩
  | keyword (start : Nat) (k : Keyword) : (State.mk (.tag start) bs os).keywords.contains k →
      Step bs os span (.tag start) (.keyword k) ((State.mk (.tag start) bs os).afterKeyword start k)
  | header (kind : Kind) (start : Nat) (cs : List Char) :
      Step bs os span (.header kind start) (.content cs)
        ⟨.headerContent kind start ⟨cs, span⟩, bs, os⟩
  | closeHeader (kind : Kind) (start : Nat) (content : Located (List Char)) :
      Step bs os span (.headerContent kind start content) (.marker (.closing .tag))
        ⟨.between, [], ⟨kind, start, content, bs, none⟩ :: os⟩
  | clause (o : Opening) (outer : List Opening) : os = o :: outer →
      Step bs os span .clause (.marker (.closing .tag))
        ⟨.between, [], { o with body := some bs } :: outer⟩
  | final (o : Opening) (outer : List Opening) : os = o :: outer →
      Step bs os span .final (.marker (.closing .tag))
        ⟨.between, o.close bs span.stop :: o.outer, outer⟩

theorem step_of_next? {s s' : State} {t : Located Markup.Token} (h : s.next? t = some s') :
    Step s.blocks s.openings t.span s.mode t.value s' := by
  obtain ⟨mode, bs, os⟩ := s
  obtain ⟨value, span⟩ := t
  unfold State.next? at h
  dsimp only at h ⊢
  split at h
  · cases h; exact .text _
  · cases h; exact .openValue
  · cases h; exact .openComment
  · cases h; exact .openTag
  · cases h; exact .value _ _
  · cases h; exact .closeValue _ _
  · cases h; exact .closeComment _
  · rename_i hne
    cases h
    exact .comment _ _ hne
  · cases h; exact .tag _ _
  · split at h
    · rename_i hk
      cases h
      exact .keyword _ _ hk
    · cases h
  · cases h; exact .closeTag _ _
  · cases h; exact .header _ _ _
  · cases h; exact .closeHeader _ _ _
  · split at h
    · cases h
      exact .clause _ _ rfl
    · cases h
  · split at h
    · cases h
      exact .final _ _ rfl
    · cases h
  · cases h

theorem next?_of_step (h : Step s.blocks s.openings t.span s.mode t.value s') :
    s.next? t = some s' := by
  obtain ⟨mode, bs, os⟩ := s
  obtain ⟨value, span⟩ := t
  dsimp only at h
  cases h with
  | comment start value hv =>
    unfold State.next?
    dsimp only
    split <;> simp_all [State.turn]
  | keyword start k hk => exact if_pos hk
  | clause o outer ho =>
    subst ho
    rfl
  | final o outer ho =>
    subst ho
    rfl
  | _ => rfl

/-! ## Runs -/

theorem step_eq_ok_iff : s.step t = .ok s' ↔ s.next? t = some s' := by
  rw [State.step]
  cases s.next? t <;> simp

theorem run_cons_eq_ok_iff : s.run (t :: ts) = .ok s' ↔
    ∃ next, s.next? t = some next ∧ next.run ts = .ok s' := by
  simp only [State.run, List.foldlM_cons, ← step_eq_ok_iff]
  cases s.step t with
  | error f => simp [bind, Except.bind]
  | ok next => simp [bind, Except.bind]

theorem run_append_eq_ok_iff : s.run (ts ++ us) = .ok s' ↔
    ∃ middle, s.run ts = .ok middle ∧ middle.run us = .ok s' := by
  simp only [State.run, List.foldlM_append]
  cases ts.foldlM State.step s with
  | error f => simp [bind, Except.bind]
  | ok middle => simp [bind, Except.bind]

/-- Blocks are read where the parser is between two blocks at the end, with nothing open. -/
theorem parse_eq_ok_iff {stop : Nat} {bs : List Block} :
    parse stop ts = .ok bs ↔
      ∃ read, State.start.run ts = .ok ⟨.between, read, []⟩ ∧ bs = read.reverse := by
  unfold parse
  cases hr : State.start.run ts with
  | error f => simp [bind, Except.bind]
  | ok s =>
    obtain ⟨mode, read, os⟩ := s
    cases mode <;> cases os <;> simp [bind, Except.bind, State.finish, eq_comm]

/-! ## Outside of all markers -/

/-- Between two blocks the text is outside of all markers. -/
def State.Outside (s : State) (context : Option Delimiter) : Prop :=
  s.mode = .between → context = none

theorem Step.outside {bs : List Block} {os : List Opening} {span : Span} {mode : Mode}
    {m : Marker} (h : Step bs os span mode (.marker m) s') : s'.Outside m.context := by
  cases h <;> first | exact fun _ => rfl | exact fun h => nomatch h

theorem Step.outside_of_text {bs : List Block} {os : List Opening} {span : Span} {mode : Mode}
    {value : Markup.Token} {context : Option Delimiter} (h : Step bs os span mode value s')
    (hv : ∀ m, value ≠ .marker m) (ho : mode = .between → context = none) :
    s'.Outside context := by
  cases h with
  | text cs => exact fun _ => ho rfl
  | keyword start k hk => cases k <;> exact fun h => nomatch h
  | value | comment | tag | header => exact fun h => nomatch h
  | openValue | openComment | openTag | closeValue | closeComment | closeTag | closeHeader
  | clause | final => exact absurd rfl (hv _)

theorem run_outside_of_text {context : Option Delimiter} :
    ∀ {ts : List (Located Markup.Token)} {s : State},
    (∀ t ∈ ts, ∀ m, t.value ≠ .marker m) → s.Outside context → s.run ts = .ok s' →
    s'.Outside context
  | [], s, _, ho, h => by
    cases h
    exact ho
  | t :: ts, s, hts, ho, h => by
    obtain ⟨ht, hts⟩ := List.forall_mem_cons.1 hts
    obtain ⟨next, hn, h⟩ := run_cons_eq_ok_iff.1 h
    exact run_outside_of_text hts ((step_of_next? hn).outside_of_text ht ho) h

theorem not_marker_of_mem_textTokens {context : Option Delimiter} {offset : Nat} {cs : List Char}
    (ht : t ∈ textTokens context offset cs) (m : Marker) : t.value ≠ .marker m := by
  cases context with
  | none =>
    obtain rfl := List.mem_singleton.1 ht
    simp
  | some d =>
    unfold textTokens tagTokens contentAfterBlank at ht
    grind

/-- A run over the tokens of pieces stays outside where it is between two blocks. -/
theorem run_outside {context : Option Delimiter} {offset : Nat} {ps : List Piece}
    (ho : s.Outside context) (h : s.run (pieceTokens context offset ps) = .ok s') :
    s'.Outside (contextAfter context ps) := by
  induction ps generalizing context offset s with
  | nil =>
    cases h
    exact ho
  | cons p ps ih =>
    cases p with
    | marker m =>
      obtain ⟨next, hn, h⟩ := run_cons_eq_ok_iff.1 h
      exact ih (step_of_next? hn).outside h
    | text cs =>
      obtain ⟨middle, hm, h⟩ := run_append_eq_ok_iff.1 h
      exact ih (run_outside_of_text (fun t ht => not_marker_of_mem_textTokens ht) ho hm) h

/-- **A text whose blocks are complete ends outside of all markers.** -/
theorem closed_of_run {a : List Char} (h : State.start.run (scan a) = .ok s')
    (hm : s'.mode = .between) : Closed a :=
  run_outside (fun _ => rfl) h hm

end Block

/-! ## Moving blocks -/

mutual

/-- The block with every offset changed by `g`. -/
def Block.relocate (g : Nat → Nat) : Block → Block
  | .text s cs => .text (s.relocate g) cs
  | .value s c => .value (s.relocate g) (c.relocate g)
  | .comment s => .comment (s.relocate g)
  | .tag s c => .tag (s.relocate g) (c.relocate g)
  | .conditional s h b o =>
    .conditional (s.relocate g) (h.relocate g) (relocateBlocks g b) (relocateBlocks g o)
  | .loop s h b o =>
    .loop (s.relocate g) (h.relocate g) (relocateBlocks g b) (relocateBlocks g o)

/-- The blocks with every offset changed by `g`. -/
def relocateBlocks (g : Nat → Nat) : List Block → List Block
  | [] => []
  | b :: bs => b.relocate g :: relocateBlocks g bs

end

theorem relocateBlocks_eq_map (g : Nat → Nat) : ∀ bs : List Block,
    relocateBlocks g bs = bs.map (Block.relocate g)
  | [] => rfl
  | b :: bs => by rw [relocateBlocks, relocateBlocks_eq_map g bs, List.map_cons]

theorem relocateBlocks_reverse (g : Nat → Nat) (bs : List Block) :
    relocateBlocks g bs.reverse = (relocateBlocks g bs).reverse := by
  simp only [relocateBlocks_eq_map, List.map_reverse]

namespace Block

def Opening.relocate (g : Nat → Nat) (o : Opening) : Opening :=
  ⟨o.kind, g o.start, o.header.relocate g, relocateBlocks g o.outer,
    o.body.map (relocateBlocks g)⟩

def Mode.relocate (g : Nat → Nat) : Mode → Mode
  | .between => .between
  | .value start => .value (g start)
  | .valueContent start content => .valueContent (g start) (content.relocate g)
  | .comment start => .comment (g start)
  | .tag start => .tag (g start)
  | .tagContent start content => .tagContent (g start) (content.relocate g)
  | .header kind start => .header kind (g start)
  | .headerContent kind start content => .headerContent kind (g start) (content.relocate g)
  | .clause => .clause
  | .final => .final

/-- The state with every offset changed by `g`. -/
def State.relocate (g : Nat → Nat) (s : State) : State :=
  ⟨s.mode.relocate g, relocateBlocks g s.blocks, s.openings.map (Opening.relocate g)⟩

theorem Opening.close_relocate (g : Nat → Nat) (o : Opening) (last : List Block) (stop : Nat) :
    (o.relocate g).close (relocateBlocks g last) (g stop) = (o.close last stop).relocate g := by
  obtain ⟨kind, start, header, outer, _ | body⟩ := o <;> cases kind <;>
    simp [Opening.close, Opening.relocate, Block.relocate, relocateBlocks_reverse, relocateBlocks]

theorem State.keywords_relocate (g : Nat → Nat) (s : State) :
    (s.relocate g).keywords = s.keywords := by
  obtain ⟨mode, bs, _ | ⟨⟨kind, start, header, outer, body⟩, os⟩⟩ := s
  · rfl
  · cases kind <;> cases body <;> rfl

variable {s s' : State} {t : Located Markup.Token} {ts us : List (Located Markup.Token)}

theorem Step.relocate (g : Nat → Nat) {bs : List Block} {os : List Opening} {span : Span}
    {mode : Mode} {value : Markup.Token} (h : Step bs os span mode value s') :
    Step (relocateBlocks g bs) (os.map (Opening.relocate g)) (span.relocate g) (mode.relocate g)
      value (s'.relocate g) := by
  cases h with
  | text cs => exact .text cs
  | openValue => exact .openValue
  | openComment => exact .openComment
  | openTag => exact .openTag
  | value start cs => exact .value (g start) cs
  | closeValue start content => exact .closeValue (g start) (content.relocate g)
  | comment start value hv => exact .comment (g start) value hv
  | closeComment start => exact .closeComment (g start)
  | tag start cs => exact .tag (g start) cs
  | closeTag start content => exact .closeTag (g start) (content.relocate g)
  | keyword start k hk =>
    rw [← State.keywords_relocate g] at hk
    have hstep : Step _ _ (span.relocate g) _ _ _ := .keyword (g start) k hk
    cases k <;> exact hstep
  | header kind start cs => exact .header kind (g start) cs
  | closeHeader kind start content => exact .closeHeader kind (g start) (content.relocate g)
  | clause o outer ho =>
    subst ho
    exact .clause (o.relocate g) (outer.map (Opening.relocate g)) rfl
  | final o outer ho =>
    subst ho
    have hstep : Step (relocateBlocks g bs) _ (span.relocate g) _ _ _ :=
      .final (o.relocate g) (outer.map (Opening.relocate g)) rfl
    have hclose := Opening.close_relocate g o bs span.stop
    rw [Span.stop_relocate, hclose] at hstep
    exact hstep

theorem run_relocate (g : Nat → Nat) : ∀ {ts : List (Located Markup.Token)} {s : State},
    s.run ts = .ok s' → (s.relocate g).run (ts.map (Located.relocate g)) = .ok (s'.relocate g)
  | [], s, h => by
    cases h
    rfl
  | t :: ts, s, h => by
    obtain ⟨next, hn, h⟩ := run_cons_eq_ok_iff.1 h
    have hstep := (step_of_next? hn).relocate g
    exact run_cons_eq_ok_iff.2 ⟨next.relocate g, next?_of_step hstep, run_relocate g h⟩

/-! ## Beneath a state -/

/-- The openings, the outermost of which has blocks before it. -/
def beneath (bs : List Block) : List Opening → List Opening
  | [] => []
  | [o] => [{ o with outer := o.outer ++ bs }]
  | o :: o' :: os => o :: beneath bs (o' :: os)

/-- The state of a parser that had read blocks and openings before it got to where the state was. -/
def State.above (bs : List Block) (os : List Opening) : State → State
  | ⟨mode, blocks, []⟩ => ⟨mode, blocks ++ bs, os⟩
  | ⟨mode, blocks, o :: inner⟩ => ⟨mode, blocks, beneath bs (o :: inner) ++ os⟩

theorem State.mode_above (bs : List Block) (os : List Opening) (s : State) :
    (s.above bs os).mode = s.mode := by
  obtain ⟨mode, blocks, _ | ⟨o, inner⟩⟩ := s <;> rfl

theorem State.turn_above (bs : List Block) (os : List Opening) (s : State) (mode : Mode) :
    (s.above bs os).turn mode = (s.turn mode).above bs os := by
  obtain ⟨mode, blocks, _ | ⟨o, inner⟩⟩ := s <;> rfl

theorem State.add_above (bs : List Block) (os : List Opening) (s : State) (b : Block) :
    (s.above bs os).add b = (s.add b).above bs os := by
  obtain ⟨mode, blocks, _ | ⟨o, inner⟩⟩ := s <;> rfl

theorem State.afterKeyword_above (bs : List Block) (os : List Opening) (s : State) (start : Nat)
    (k : Markup.Keyword) :
    (s.above bs os).afterKeyword start k = (s.afterKeyword start k).above bs os := by
  cases k <;> exact s.turn_above bs os _

/-- A condition or loop may begin in every block. -/
theorem State.contains_keywords (s : State) {k : Markup.Keyword} (hk : k = .forOpen ∨ k = .ifOpen) :
    s.keywords.contains k = true := by
  unfold State.keywords
  rcases hk with rfl | rfl <;> split <;> (try rfl) <;> split <;> rfl

/-- Where a reserved word may stand outside of all openings, it may stand in every opening. -/
theorem State.contains_keywords_above (bs : List Block) (os : List Opening) (s : State)
    (k : Markup.Keyword) (h : os = [] ∨ s.keywords.contains k) :
    (s.above bs os).keywords.contains k = s.keywords.contains k := by
  obtain ⟨mode, blocks, _ | ⟨o, _ | ⟨o', inner⟩⟩⟩ := s
  · rcases h with rfl | h
    · rfl
    · rw [h]
      exact State.contains_keywords _ (by simpa [State.keywords] using h)
  · rfl
  · rfl

/-- **A step does not look beneath the blocks and openings of its own.** -/
theorem next?_above (bs : List Block) (os : List Opening) (s : State) (t : Located Markup.Token)
    (h : os = [] ∨ (s.next? t).isSome) :
    (s.above bs os).next? t = (s.next? t).map (State.above bs os) := by
  obtain ⟨value, span⟩ := t
  unfold State.next?
  rw [State.mode_above]
  split
  · exact congrArg some (s.add_above bs os _)
  · exact congrArg some (s.turn_above bs os _)
  · exact congrArg some (s.turn_above bs os _)
  · exact congrArg some (s.turn_above bs os _)
  · exact congrArg some (s.turn_above bs os _)
  · exact congrArg some (s.add_above bs os _)
  · exact congrArg some (s.add_above bs os _)
  · exact congrArg some (s.turn_above bs os _)
  · exact congrArg some (s.turn_above bs os _)
  · rename_i start k hmode hvalue
    subst hvalue
    have hk : os = [] ∨ s.keywords.contains k :=
      h.imp_right fun hsome => by simpa [State.next?, hmode] using hsome
    rw [State.contains_keywords_above bs os s k hk, State.afterKeyword_above]
    split <;> rfl
  · exact congrArg some (s.add_above bs os _)
  · exact congrArg some (s.turn_above bs os _)
  · obtain ⟨mode, blocks, _ | ⟨o, inner⟩⟩ := s <;> rfl
  · obtain ⟨mode, blocks, _ | ⟨o, _ | ⟨o', inner⟩⟩⟩ := s
    · rename_i hmode hvalue
      cases hmode
      subst hvalue
      rcases h with rfl | h
      · rfl
      · cases h
    · rfl
    · rfl
  · obtain ⟨mode, blocks, _ | ⟨o, _ | ⟨o', inner⟩⟩⟩ := s
    · rename_i hmode hvalue
      cases hmode
      subst hvalue
      rcases h with rfl | h
      · rfl
      · cases h
    · rfl
    · rfl
  · rfl

/-- A run that succeeds, succeeds above any blocks and openings. -/
theorem run_above (bs : List Block) (os : List Opening) : ∀ {ts : List (Located Markup.Token)}
    {s : State}, s.run ts = .ok s' → (s.above bs os).run ts = .ok (s'.above bs os)
  | [], s, h => by
    cases h
    rfl
  | t :: ts, s, h => by
    obtain ⟨next, hn, h⟩ := run_cons_eq_ok_iff.1 h
    have hstep := next?_above bs os s t (Or.inr (by rw [hn]; rfl))
    rw [hn] at hstep
    exact run_cons_eq_ok_iff.2 ⟨_, hstep, run_above bs os h⟩

/-- A run that succeeds above blocks, succeeds without them. -/
theorem run_of_run_above {bs : List Block} {r : State} : ∀ {ts : List (Located Markup.Token)}
    {s : State}, (s.above bs []).run ts = .ok r → ∃ s', s.run ts = .ok s' ∧ r = s'.above bs []
  | [], s, h => by
    cases h
    exact ⟨s, rfl, rfl⟩
  | t :: ts, s, h => by
    obtain ⟨next, hn, h⟩ := run_cons_eq_ok_iff.1 h
    rw [next?_above bs [] s t (Or.inl rfl)] at hn
    obtain ⟨s₁, hs₁, rfl⟩ := Option.map_eq_some_iff.1 hn
    obtain ⟨s', hs', rfl⟩ := run_of_run_above h
    exact ⟨s', run_cons_eq_ok_iff.2 ⟨s₁, hs₁, hs'⟩, rfl⟩

end Block
end Stencil
