import Stencil.Proofs.Document.Blocks
import Stencil.Proofs.Markup.Between
import Stencil.Proofs.Source.Nesting

/-!
# Blocks tile the source

Every token is a piece of the source, and the content of a block stands in its tag. Between two
blocks nothing is left out: text outside of markers is one token, and a block reaches from its first
marker to its last. So the blocks of a source stand without gaps from its start to its end, and so
do those of every clause (`blocksTile_of_run`).
-/
namespace Stencil

namespace Text

variable {source cs : List Char} {offset : Nat}

theorem trimEnd_append (cs : List Char) : ∃ after, trimEnd cs ++ after = cs := by
  refine ⟨(cs.reverse.takeWhile isBlank).reverse, ?_⟩
  rw [trimEnd, ← List.reverse_append, List.takeWhile_append_dropWhile, List.reverse_reverse]

theorem byteLength_trimEnd_le (cs : List Char) : byteLength (trimEnd cs) ≤ byteLength cs := by
  obtain ⟨after, hafter⟩ := trimEnd_append cs
  rw [← congrArg byteLength hafter, byteLength_append]
  exact Nat.le_add_right _ _

theorem byteLength_trimStart (cs : List Char) :
    byteLength (cs.takeWhile isBlank) + byteLength (trimStart cs) = byteLength cs := by
  rw [← byteLength_append, trimStart, List.takeWhile_append_dropWhile]

theorem At.trimStart (h : At source offset cs) :
    At source (offset + byteLength (cs.takeWhile isBlank)) (trimStart cs) := by
  rw [← List.takeWhile_append_dropWhile (p := isBlank) (l := cs)] at h
  exact h.right

theorem At.trim (h : At source offset cs) :
    At source (offset + byteLength (cs.takeWhile isBlank)) (trim cs) := by
  obtain ⟨after, hafter⟩ := trimEnd_append (Text.trimStart cs)
  have hstart := h.trimStart
  rw [← hafter] at hstart
  exact hstart.left

end Text

namespace Markup

variable {source cs : List Char} {offset : Nat} {ts : List (Located Token)}

/-! ## Tokens -/

/-- The token is a piece of the source, and its content stands there. -/
structure Token.Laid (source : List Char) (t : Located Token) : Prop where
  span : t.span.Proper source
  content : ∀ cs, t.value = .content cs →
    Text.At source t.span.start cs ∧ t.span.stop = t.span.start + Text.byteLength cs

/-- The tokens stand one behind the other between two offsets. -/
def TokensLaid (source : List Char) : Nat → Nat → List (Located Token) → Prop
  | start, stop, [] => start ≤ stop
  | start, stop, t :: ts => start ≤ t.span.start ∧ Token.Laid source t ∧
    TokensLaid source t.span.stop stop ts

theorem Token.laid_content (h : Text.At source offset cs) (hn : cs ≠ []) :
    Token.Laid source ⟨.content cs, ⟨offset, offset + Text.byteLength cs⟩⟩ :=
  ⟨h.proper hn, fun _ hv => by cases hv; exact ⟨h, rfl⟩⟩

theorem Token.laid_of_not_content {value : Token} {s : Span} (hv : ∀ cs, value ≠ .content cs)
    (hs : s.Proper source) : Token.Laid source ⟨value, s⟩ :=
  ⟨hs, fun cs hc => absurd hc (hv cs)⟩

theorem laid_contentAfterBlank (h : Text.At source offset cs) :
    TokensLaid source offset (offset + Text.byteLength cs) (contentAfterBlank offset cs) := by
  have hlength := Text.byteLength_trimStart cs
  unfold contentAfterBlank
  dsimp only
  split
  · exact Nat.le_add_right _ _
  · rename_i hn
    refine ⟨Nat.le_add_right _ _, Token.laid_content h.trimStart (by simpa using hn), ?_⟩
    show _ + _ ≤ _
    omega

theorem laid_tagTokens (h : Text.At source offset cs) (hn : cs ≠ []) :
    TokensLaid source offset (offset + Text.byteLength cs) (tagTokens offset cs) := by
  unfold tagTokens
  split
  · rename_i k hk
    have hcut := Text.leadingWord_append_afterLeadingWord cs
    have hword : k.word.toList = Text.leadingWord cs := by
      simpa using List.find?_some hk
    have hne : Text.leadingWord cs ≠ [] := hword ▸ (trimmed_word k).2
    rw [← hcut] at h
    have hrest := laid_contentAfterBlank h.right
    rw [← congrArg Text.byteLength hcut, Text.byteLength_append, ← Nat.add_assoc]
    exact ⟨Nat.le_refl _, Token.laid_of_not_content (by simp) (h.left.proper hne), hrest⟩
  · exact ⟨Nat.le_refl _, Token.laid_content h hn, Nat.le_refl _⟩

theorem TokensLaid.mono {a b c d : Nat} (h : TokensLaid source a b ts) (hc : c ≤ a) (hd : b ≤ d) :
    TokensLaid source c d ts := by
  induction ts generalizing a c with
  | nil => exact Nat.le_trans hc (Nat.le_trans h hd)
  | cons t ts ih => exact ⟨Nat.le_trans hc h.1, h.2.1, ih h.2.2 (Nat.le_refl _)⟩

/-- The tokens of a text between two markers stand in it. -/
theorem laid_textTokens (d : Delimiter) (h : Text.At source offset cs) :
    TokensLaid source offset (offset + Text.byteLength cs) (textTokens (some d) offset cs) := by
  have hstart := Text.byteLength_trimStart cs
  have hend : Text.byteLength (Text.trim cs) ≤ _ := Text.byteLength_trimEnd_le (Text.trimStart cs)
  have hbody := h.trim
  unfold textTokens
  dsimp only
  split
  · exact Nat.le_add_right _ _
  · rename_i hn
    have hn : Text.trim cs ≠ [] := by simpa using hn
    split
    · exact (laid_tagTokens hbody hn).mono (Nat.le_add_right _ _) (by omega)
    · refine ⟨Nat.le_add_right _ _, Token.laid_content hbody hn, ?_⟩
      show _ + _ ≤ _
      omega

/-- No piece of text is empty. -/
theorem ne_nil_of_mem_pieces {source cs : List Char} (h : .text cs ∈ pieces source) : cs ≠ [] :=
  (forall_text_pieces (P := fun _ => True) (fun _ => trivial) (fun _ _ _ _ _ => trivial) h).1

/-- The tokens at a marker are those of the pieces at a marker. -/
theorem exists_pieces_of_marker {m : Marker} {s : Span} {ts : List (Located Token)} :
    ∀ {ps : List Piece} {context : Option Delimiter} {offset : Nat} {us : List (Located Token)},
    pieceTokens context offset ps = us ++ ⟨.marker m, s⟩ :: ts → ∃ qs rest,
      ps = qs ++ .marker m :: rest ∧ s.stop = offset + Text.byteLength (chars qs) + 2 ∧
      ts = pieceTokens m.context s.stop rest
  | [], _, _, us, h => by simp [pieceTokens] at h
  | .marker m' :: ps, context, offset, us, h => by
    rcases List.cons_eq_append_iff.1 h with ⟨rfl, h⟩ | ⟨us, rfl, hrest⟩
    · cases h
      exact ⟨[], ps, rfl, by simp, rfl⟩
    · obtain ⟨qs, rest, rfl, hstop, hts⟩ := exists_pieces_of_marker hrest
      refine ⟨.marker m' :: qs, rest, rfl, ?_, hts⟩
      have hlength : Text.byteLength (Piece.marker m').chars = 2 := byteLength_marker m'
      rw [hstop, chars_cons, Text.byteLength_append, hlength]
      omega
  | .text cs :: ps, context, offset, us, h => by
    have hrest : ∃ us, pieceTokens context (offset + Text.byteLength cs) ps =
        us ++ ⟨.marker m, s⟩ :: ts := by
      rcases List.append_eq_append_iff.1 h with ⟨vs, -, hvs⟩ | ⟨vs, htext, hvs⟩
      · exact ⟨vs, hvs⟩
      · rcases List.cons_eq_append_iff.1 hvs with ⟨rfl, hvs⟩ | ⟨vs, rfl, -⟩
        · exact ⟨[], hvs.symm⟩
        · have hmem : (⟨.marker m, s⟩ : Located Token) ∈ textTokens context offset cs := by
            simp [htext]
          exact absurd rfl (Block.not_marker_of_mem_textTokens hmem m)
    obtain ⟨us, hrest⟩ := hrest
    obtain ⟨qs, rest, rfl, hstop, hts⟩ := exists_pieces_of_marker hrest
    refine ⟨.text cs :: qs, rest, rfl, ?_, hts⟩
    have hchars : (Piece.text cs).chars = cs := rfl
    rw [hstop, chars_cons, Text.byteLength_append, hchars]
    omega

end Markup

/-! ## Blocks -/

/-- The text with its place stands in the source between two offsets. -/
structure Located.Inside (source : List Char) (start stop : Nat) (c : Located (List Char)) :
    Prop where
  start : start ≤ c.span.start
  text : Text.At source c.span.start c.value
  stop : c.span.start + Text.byteLength c.value ≤ stop

/-- Where a block stands. -/
def Block.span : Block → Span
  | .text s _ | .value s _ | .comment s | .tag s _ | .conditional s _ _ _ | .loop s _ _ _ => s

mutual

/-- The block is a piece of the source, its content stands in it, and the blocks of each clause
stand without gaps, those of the second behind those of the first. -/
def Block.Laid (source : List Char) : Block → Prop
  | .text s cs => s.Proper source ∧ Text.At source s.start cs ∧
    s.stop = s.start + Text.byteLength cs
  | .comment s => s.Proper source
  | .value s c | .tag s c => s.Proper source ∧ c.Inside source s.start s.stop
  | .conditional s h body orelse | .loop s h body orelse => s.Proper source ∧ ∃ a b c d,
    h.Inside source s.start a ∧ BlocksTile source a b body ∧ b ≤ c ∧
      BlocksTile source c d orelse ∧ d ≤ s.stop

/-- The blocks stand without gaps from one offset to the other. -/
def BlocksTile (source : List Char) : Nat → Nat → List Block → Prop
  | start, stop, [] => start = stop
  | start, stop, b :: bs => b.span.start = start ∧ b.Laid source ∧
    BlocksTile source b.span.stop stop bs

end

section
variable {source : List Char} {a b m p q : Nat} {bs cs : List Block} {c : Located (List Char)}

theorem Located.Inside.mono (h : c.Inside source a b) (hm : b ≤ m) : c.Inside source a m :=
  ⟨h.start, h.text, Nat.le_trans h.stop hm⟩

theorem Located.Inside.le (h : c.Inside source a b) : a ≤ b :=
  Nat.le_trans h.start (Nat.le_trans (Nat.le_add_right _ _) h.stop)

theorem Block.Laid.proper {x : Block} (h : x.Laid source) : x.span.Proper source := by
  cases x with
  | comment s => exact h
  | _ => exact h.1

theorem blocksTile_append : ∀ {bs : List Block} {a : Nat},
    BlocksTile source a b (bs ++ cs) ↔ ∃ m, BlocksTile source a m bs ∧ BlocksTile source m b cs
  | [], a => by simp [BlocksTile]
  | x :: bs, a => by
    simp only [List.cons_append, BlocksTile, blocksTile_append, and_assoc, exists_and_left]

/-- A block is added to those before it, which are kept with the latest first. -/
theorem BlocksTile.add (h : BlocksTile source a m bs.reverse) (x : Block) (hx : x.span.start = m)
    (hl : x.Laid source) : BlocksTile source a x.span.stop (x :: bs).reverse := by
  rw [List.reverse_cons]
  exact blocksTile_append.2 ⟨m, h, hx, hl, rfl⟩

theorem BlocksTile.le : ∀ {bs : List Block} {a : Nat}, BlocksTile source a b bs → a ≤ b
  | [], _, h => Nat.le_of_eq h
  | _ :: _, _, ⟨rfl, hx, h⟩ => Nat.le_trans (Nat.le_of_lt hx.proper.lt) h.le

namespace Block

open Markup

variable {s s' : State} {t : Located Markup.Token} {ts : List (Located Markup.Token)}

/-- What is being read began at `last` and was read up to `p`. -/
def Mode.Laid (source : List Char) (last p : Nat) : Mode → Prop
  | .between => last = p
  | .value start | .comment start | .tag start | .header _ start => start = last ∧ last ≤ p
  | .valueContent start c | .tagContent start c | .headerContent _ start c =>
    start = last ∧ c.Inside source last p
  | .clause | .final => last ≤ p

/-- An opening whose blocks before it begin at `outer` and whose clause that is being read begins at
`first`. -/
structure Opening.Laid (source : List Char) (outer first : Nat) (o : Opening) : Prop where
  start : Text.IsBoundary source o.start
  outer : BlocksTile source outer o.start o.outer.reverse
  body : ∃ a b, o.header.Inside source o.start a ∧ a ≤ b ∧ b ≤ first ∧
    ∀ body ∈ o.body, BlocksTile source a b body.reverse

/-- The openings, the clause of the innermost of which begins at `first`. -/
def OpeningsLaid (source : List Char) : Nat → List Opening → Prop
  | first, [] => first = 0
  | first, o :: os => ∃ outer, o.Laid source outer first ∧ OpeningsLaid source outer os

/-- All that was read stands without gaps before `p`. -/
def State.Laid (source : List Char) (p : Nat) (s : State) : Prop :=
  ∃ first last, OpeningsLaid source first s.openings ∧
    BlocksTile source first last s.blocks.reverse ∧ Text.IsBoundary source last ∧
    s.mode.Laid source last p

/-! ## Steps -/

theorem Mode.Laid.le {mode : Mode} {last : Nat} (h : mode.Laid source last p) : last ≤ p := by
  cases mode with
  | between => exact Nat.le_of_eq h
  | value | comment | tag | header => exact h.2
  | valueContent | tagContent | headerContent => exact h.2.le
  | clause | final => exact h

theorem Mode.Laid.mono {mode : Mode} {last : Nat} (h : mode.Laid source last p) (hq : p ≤ q)
    (hb : mode ≠ .between) : mode.Laid source last q := by
  cases mode with
  | between => exact absurd rfl hb
  | value | comment | tag | header => exact ⟨h.1, Nat.le_trans h.2 hq⟩
  | valueContent | tagContent | headerContent => exact ⟨h.1, h.2.mono hq⟩
  | clause | final => exact Nat.le_trans h hq

theorem State.Laid.mono (h : s.Laid source p) (hq : p ≤ q) (hb : s.mode ≠ .between) :
    s.Laid source q := by
  obtain ⟨first, last, ho, hbs, hlast, hm⟩ := h
  exact ⟨first, last, ho, hbs, hlast, hm.mono hq hb⟩

theorem Opening.Laid.header_inside {o : Opening} (h : o.Laid source m p) :
    o.header.Inside source o.start p := by
  obtain ⟨a, b, hheader, hab, hb, -⟩ := h.body
  exact hheader.mono (Nat.le_trans hab hb)

/-- The block of an opening reaches from its first marker to its last, around both clauses. -/
theorem Opening.Laid.close {o : Opening} {first last stop : Nat} (h : o.Laid source m first)
    (hbs : BlocksTile source first last bs.reverse) (hlt : last < stop)
    (hstop : Text.IsBoundary source stop) :
    (o.close bs stop).span = ⟨o.start, stop⟩ ∧ (o.close bs stop).Laid source := by
  have hle : o.start ≤ last := Nat.le_trans h.header_inside.le hbs.le
  have hspan : Span.Proper source ⟨o.start, stop⟩ := ⟨Nat.lt_of_le_of_lt hle hlt, h.start, hstop⟩
  have hstart := h.header_inside
  obtain ⟨a, b, hheader, -, hb, hbody⟩ := h.body
  obtain ⟨kind, start, header, outer, _ | body⟩ := o
  · have hclauses : Span.Proper source ⟨start, stop⟩ ∧ ∃ a b c d, header.Inside source start a ∧
        BlocksTile source a b bs.reverse ∧ b ≤ c ∧ BlocksTile source c d [] ∧ d ≤ stop :=
      ⟨hspan, first, last, last, last, hstart, hbs, Nat.le_refl _, rfl, Nat.le_of_lt hlt⟩
    cases kind <;> exact ⟨rfl, hclauses⟩
  · have hclauses : Span.Proper source ⟨start, stop⟩ ∧ ∃ a b c d, header.Inside source start a ∧
        BlocksTile source a b body.reverse ∧ b ≤ c ∧ BlocksTile source c d bs.reverse ∧ d ≤ stop :=
      ⟨hspan, a, b, first, last, hheader, hbody body rfl, hb, hbs, Nat.le_of_lt hlt⟩
    cases kind <;> exact ⟨rfl, hclauses⟩

/-- A token that stands behind what was read, and between two blocks right behind it, is read up to
its end. -/
theorem next?_laid (h : s.next? t = some s') (ht : Markup.Token.Laid source t)
    (hp : p ≤ t.span.start) (hb : s.mode = .between → p = t.span.start) (hs : s.Laid source p) :
    s'.Laid source t.span.stop := by
  have hstep := step_of_next? h
  obtain ⟨mode, bs, os⟩ := s
  obtain ⟨value, span⟩ := t
  obtain ⟨first, last, hos, hbs, hlast, hm⟩ := hs
  obtain ⟨hspan, hv⟩ := ht
  dsimp only at hstep hos hbs hm hp hb hspan hv ⊢
  have hnext : p ≤ span.stop := Nat.le_trans hp (Nat.le_of_lt hspan.lt)
  have hbehind : last < span.stop := Nat.lt_of_le_of_lt hm.le (Nat.lt_of_le_of_lt hp hspan.lt)
  -- what a block that began at `last` and ends with this token is
  have hblock : Span.Proper source ⟨last, span.stop⟩ := ⟨hbehind, hlast, hspan.stop⟩
  cases hstep with
  | text cs =>
    obtain ⟨hat, hstop⟩ := hv cs rfl
    have hstart : span.start = last := ((hm : last = p).trans (hb rfl)).symm
    have hadd := hbs.add (.text span cs) hstart ⟨hspan, hat, hstop⟩
    exact ⟨first, span.stop, hos, hadd, hspan.stop, rfl⟩
  | openValue | openComment | openTag =>
    have hstart : span.start = last := ((hm : last = p).trans (hb rfl)).symm
    exact ⟨first, last, hos, hbs, hlast, hstart, Nat.le_of_lt hbehind⟩
  | value start cs | tag start cs | header kind start cs =>
    obtain ⟨hat, hstop⟩ := hv cs rfl
    have hinside : Located.Inside source last span.stop ⟨cs, span⟩ :=
      ⟨Nat.le_trans hm.2 hp, hat, Nat.le_of_eq hstop.symm⟩
    exact ⟨first, last, hos, hbs, hlast, hm.1, hinside⟩
  | closeValue start content =>
    obtain ⟨rfl, hcontent⟩ := hm
    have hadd := hbs.add (.value ⟨start, span.stop⟩ content) rfl ⟨hblock, hcontent.mono hnext⟩
    exact ⟨first, span.stop, hos, hadd, hspan.stop, rfl⟩
  | closeTag start content =>
    obtain ⟨rfl, hcontent⟩ := hm
    have hadd := hbs.add (.tag ⟨start, span.stop⟩ content) rfl ⟨hblock, hcontent.mono hnext⟩
    exact ⟨first, span.stop, hos, hadd, hspan.stop, rfl⟩
  | comment start value hne =>
    exact ⟨first, last, hos, hbs, hlast, hm.1, Nat.le_trans hm.2 hnext⟩
  | closeComment start =>
    obtain ⟨rfl, -⟩ := hm
    have hadd := hbs.add (.comment ⟨start, span.stop⟩) rfl hblock
    exact ⟨first, span.stop, hos, hadd, hspan.stop, rfl⟩
  | keyword start k hk =>
    cases k with
    | ifOpen | forOpen => exact ⟨first, last, hos, hbs, hlast, hm.1, Nat.le_of_lt hbehind⟩
    | elseClause | emptyClause | ifClose | forClose =>
      exact ⟨first, last, hos, hbs, hlast, Nat.le_of_lt hbehind⟩
  | closeHeader kind start content =>
    obtain ⟨rfl, hcontent⟩ := hm
    have ho : Opening.Laid source first span.stop ⟨kind, start, content, bs, none⟩ :=
      ⟨hlast, hbs, span.stop, span.stop, hcontent.mono hnext, Nat.le_refl _, Nat.le_refl _,
        by simp⟩
    exact ⟨span.stop, span.stop, ⟨first, ho, hos⟩, rfl, hspan.stop, rfl⟩
  | clause o outer hos' =>
    subst hos'
    obtain ⟨before, ho, hos⟩ := hos
    have hclause : Opening.Laid source before span.stop { o with body := some bs } :=
      ⟨ho.start, ho.outer, first, last, ho.header_inside, hbs.le, Nat.le_of_lt hbehind,
        by simpa using hbs⟩
    exact ⟨span.stop, span.stop, ⟨before, hclause, hos⟩, rfl, hspan.stop, rfl⟩
  | final o outer hos' =>
    subst hos'
    obtain ⟨before, ho, hos⟩ := hos
    obtain ⟨hclosed, hl⟩ := ho.close hbs hbehind hspan.stop
    have hadd := ho.outer.add (o.close bs span.stop) (congrArg Span.start hclosed) hl
    rw [hclosed] at hadd
    exact ⟨before, span.stop, hos, hadd, hspan.stop, rfl⟩

/-! ## Runs -/

/-- Within a tag, a value or a comment nothing has to be without gaps. -/
theorem run_laid_within (d : Delimiter) : ∀ {ts : List (Located Markup.Token)} {s : State}
    {p : Nat}, TokensLaid source p q ts → (∀ t ∈ ts, ∀ m, t.value ≠ .marker m) →
    s.Outside (some d) → s.Laid source p → s.run ts = .ok s' → s'.Laid source q
  | [], s, p, ht, _, ho, hs, h => by
    cases h
    exact hs.mono ht fun hm => nomatch ho hm
  | t :: ts, s, p, ⟨hp, ht, hts⟩, hv, ho, hs, h => by
    obtain ⟨hvt, hvs⟩ := List.forall_mem_cons.1 hv
    obtain ⟨next, hn, h⟩ := run_cons_eq_ok_iff.1 h
    have hnext := next?_laid hn ht hp (fun hm => nomatch ho hm) hs
    exact run_laid_within d hts hvs ((step_of_next? hn).outside_of_text hvt ho) hnext h

/-- A run over pieces reads them up to their end. -/
theorem run_laid {context : Option Delimiter} {offset : Nat} {ps : List Piece}
    (hn : ∀ cs, .text cs ∈ ps → cs ≠ []) (hat : Text.At source offset (chars ps))
    (ho : s.Outside context) (hs : s.Laid source offset)
    (h : s.run (pieceTokens context offset ps) = .ok s') :
    s'.Laid source (offset + Text.byteLength (chars ps)) := by
  induction ps generalizing context offset s with
  | nil =>
    cases h
    exact hs
  | cons piece ps ih =>
    have hrest : ∀ cs, .text cs ∈ ps → cs ≠ [] := fun cs hc => hn cs (List.mem_cons_of_mem _ hc)
    rw [chars_cons] at hat
    rw [chars_cons, Text.byteLength_append, ← Nat.add_assoc]
    cases piece with
    | marker m =>
      obtain ⟨next, hstep, h⟩ := run_cons_eq_ok_iff.1 h
      have hlength : Text.byteLength (Piece.marker m).chars = 2 := byteLength_marker m
      have hne : (Piece.marker m).chars ≠ [] := fun hnil => by rw [hnil] at hlength; cases hlength
      have hspan := hat.left.proper hne
      rw [hlength] at hspan ⊢
      have htoken : Markup.Token.Laid source ⟨.marker m, ⟨offset, offset + 2⟩⟩ :=
        Markup.Token.laid_of_not_content (by simp) hspan
      have hnext := next?_laid hstep htoken (Nat.le_refl _) (fun _ => rfl) hs
      have hrestAt := hat.right
      rw [hlength] at hrestAt
      exact ih hrest hrestAt (step_of_next? hstep).outside hnext h
    | text cs =>
      obtain ⟨middle, hm, h⟩ := run_append_eq_ok_iff.1 h
      have houtside := run_outside_of_text (fun t ht => not_marker_of_mem_textTokens ht) ho hm
      refine ih hrest hat.right houtside ?_ h
      cases context with
      | none =>
        obtain ⟨next, hstep, hm⟩ := run_cons_eq_ok_iff.1 hm
        cases hm
        have htoken := Markup.Token.laid_content hat.left (hn cs List.mem_cons_self)
        exact next?_laid hstep htoken (Nat.le_refl _) (fun _ => rfl) hs
      | some d =>
        exact run_laid_within d (laid_textTokens d hat.left)
          (fun t ht => not_marker_of_mem_textTokens ht) ho hs hm

/-- **The blocks of a source stand without gaps from its start to its end.** -/
theorem blocksTile_of_run (h : State.start.run (scan source) = .ok ⟨.between, bs, []⟩) :
    BlocksTile source 0 (Text.byteLength source) bs.reverse := by
  have hat : Text.At source 0 (chars (pieces source)) := by
    rw [chars_pieces]
    exact .refl source
  have hstart : State.start.Laid source 0 := ⟨0, 0, rfl, rfl, hat.boundary, rfl⟩
  obtain ⟨first, last, rfl, hbs, -, rfl⟩ :=
    run_laid (fun cs => ne_nil_of_mem_pieces) hat (fun _ => rfl) hstart h
  rwa [chars_pieces, Nat.zero_add] at hbs

end Block
end
end Stencil
