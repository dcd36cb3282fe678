import Stencil.Proofs.Document.BlockTiling

/-!
# The text of a block

Tokens stand in the source with nothing but white space between them, and what stands between two
markers is trimmed (`spelled_scan`). So the content of a block is cut out of the source exactly where
its span says (`Located.Cut`), and a value or a tag is its content with white space around it between
two markers (`Located.Enclosed`), at any depth (`spelled_of_run`).
-/
namespace Stencil

namespace Text

variable {source u v : List Char} {a b c : Nat}

/-! ## White space -/

theorem blank_takeWhile (cs : List Char) : Blank (cs.takeWhile isBlank) :=
  List.all_eq_true.1 List.all_takeWhile

/-- A text is what it is trimmed to, with white space around it. -/
theorem exists_trim (cs : List Char) : ∃ after, Blank after ∧
    cs = cs.takeWhile isBlank ++ (trim cs ++ after) := by
  refine ⟨((trimStart cs).reverse.takeWhile isBlank).reverse, ?_, ?_⟩
  · intro c hc
    exact blank_takeWhile _ c (List.mem_reverse.1 hc)
  · have hend : trim cs ++ ((trimStart cs).reverse.takeWhile isBlank).reverse = trimStart cs := by
      rw [trim, trimEnd, ← List.reverse_append, List.takeWhile_append_dropWhile,
        List.reverse_reverse]
    rw [hend, trimStart, List.takeWhile_append_dropWhile]

theorem isBlank_head?_trimStart (cs : List Char) :
    ∀ c ∈ (trimStart cs).head?, isBlank c = false := by
  intro c hc
  have h := List.head?_dropWhile_not isBlank cs
  rw [trimStart] at hc
  rw [hc] at h
  simpa using h

theorem trimmed_trim (cs : List Char) : Trimmed (trim cs) := by
  constructor
  · obtain ⟨after, hafter⟩ := trimEnd_append (trimStart cs)
    intro c hc
    refine isBlank_head?_trimStart cs c ?_
    rw [← hafter]
    exact List.mem_head?_append_of_mem_head? hc
  · intro c hc
    have h := List.head?_dropWhile_not isBlank (trimStart cs).reverse
    rw [trim, trimEnd, List.getLast?_reverse] at hc
    rw [hc] at h
    simpa using h

/-- Two texts that stand one behind the other are one text. -/
theorem At.append (hu : At source a u) (hv : At source (a + byteLength u) v) :
    At source a (u ++ v) := by
  obtain ⟨before, rest, rfl, rfl⟩ := hu
  obtain ⟨front, after, hsource, hfront⟩ := hv
  rw [← List.append_assoc] at hsource
  obtain rfl := eq_of_append_eq hsource (by rw [byteLength_append, hfront])
  exact ⟨before, after, by simp, rfl⟩

/-- There is nothing but white space between two offsets of the source. -/
def Gap (source : List Char) (a b : Nat) : Prop :=
  ∃ cs, At source a cs ∧ Blank cs ∧ b = a + byteLength cs

theorem Gap.trans (h : Gap source a b) (h' : Gap source b c) : Gap source a c := by
  obtain ⟨u, hu, hbu, rfl⟩ := h
  obtain ⟨v, hv, hbv, rfl⟩ := h'
  exact ⟨u ++ v, hu.append hv, hbu.append hbv, by rw [byteLength_append, Nat.add_assoc]⟩

theorem Gap.refl (h : IsBoundary source a) : Gap source a a := by
  obtain ⟨before, after, hsource, hbase⟩ := h
  exact ⟨[], ⟨before, after, hsource, hbase⟩, by simp [Blank], rfl⟩

end Text

namespace Markup

variable {source cs : List Char} {a b m offset : Nat} {context : Option Delimiter}
  {t : Located Token} {ts us : List (Located Token)}

/-! ## Tokens -/

/-- The token as it is written. -/
def Token.chars : Token → List Char
  | .marker m => m.chars
  | .keyword k => k.word.toList
  | .content cs => cs

/-- The place that a token leads to. -/
def Token.leadsTo (context : Option Delimiter) : Token → Option Delimiter
  | .marker m => m.context
  | _ => context

theorem Token.leadsTo_of_ne_marker {value : Token} (h : ∀ m, value ≠ .marker m) :
    value.leadsTo context = context := by
  cases value with
  | marker m => exact absurd rfl (h m)
  | keyword k => rfl
  | content cs => rfl

/-- The source holds the token where its span says. -/
structure Token.Written (source : List Char) (t : Located Token) : Prop where
  text : Text.At source t.span.start t.value.chars
  stop : t.span.stop = t.span.start + Text.byteLength t.value.chars
  ne_nil : t.value.chars ≠ []

theorem Token.Written.proper (h : Token.Written source t) : t.span.Proper source := by
  obtain ⟨value, start, stop⟩ := t
  obtain ⟨hat, hstop, hn⟩ := h
  dsimp only at hat hstop
  rw [hstop]
  exact hat.proper hn

/-- Between the two offsets the source holds the tokens and white space, and what it holds between
markers is trimmed. -/
def TokensSpelled (source : List Char) :
    Option Delimiter → Nat → Nat → List (Located Token) → Prop
  | _, a, b, [] => Text.Gap source a b
  | context, a, b, t :: ts => Text.Gap source a t.span.start ∧ Token.Written source t ∧
    (∀ cs, t.value = .content cs → context ≠ none → Text.Trimmed cs) ∧
    TokensSpelled source (t.value.leadsTo context) t.span.stop b ts

theorem TokensSpelled.before (h : TokensSpelled source context m b ts) (hg : Text.Gap source a m) :
    TokensSpelled source context a b ts := by
  cases ts with
  | nil => exact hg.trans h
  | cons t ts => exact ⟨hg.trans h.1, h.2⟩

theorem TokensSpelled.after : ∀ {ts : List (Located Token)} {context : Option Delimiter} {a : Nat},
    TokensSpelled source context a m ts → Text.Gap source m b →
    TokensSpelled source context a b ts
  | [], _, _, h, hg => h.trans hg
  | _ :: _, _, _, ⟨hgap, ht, hc, h⟩, hg => ⟨hgap, ht, hc, h.after hg⟩

/-- Tokens without markers do not lead to another place. -/
theorem TokensSpelled.append : ∀ {ts : List (Located Token)} {a : Nat},
    TokensSpelled source context a m ts → (∀ t ∈ ts, ∀ m, t.value ≠ .marker m) →
    TokensSpelled source context m b us →
    TokensSpelled source context a b (ts ++ us)
  | [], _, h, _, hu => hu.before h
  | ⟨value, span⟩ :: ts, _, ⟨hg, ht, hc, h⟩, hm, hu => by
    obtain ⟨hvalue, hrest⟩ := List.forall_mem_cons.1 hm
    refine ⟨hg, ht, hc, ?_⟩
    dsimp only at h ⊢
    rw [Token.leadsTo_of_ne_marker hvalue] at h ⊢
    exact h.append hrest hu

/-- A content token that stands at the start of its text, trimmed where it has to be. -/
theorem spelled_content (hat : Text.At source offset cs) (hn : cs ≠ [])
    (hc : context ≠ none → Text.Trimmed cs) :
    TokensSpelled source context offset (offset + Text.byteLength cs)
      [⟨.content cs, ⟨offset, offset + Text.byteLength cs⟩⟩] := by
  refine ⟨.refl hat.boundary, ⟨hat, rfl, hn⟩, ?_, .refl hat.boundary_stop⟩
  rintro ds hds hcontext
  cases hds
  exact hc hcontext

theorem spelled_contentAfterBlank (hat : Text.At source offset cs)
    (hlast : ∀ c ∈ cs.getLast?, Text.isBlank c = false) :
    TokensSpelled source context offset (offset + Text.byteLength cs)
      (contentAfterBlank offset cs) := by
  have hcut : cs.takeWhile Text.isBlank ++ Text.trimStart cs = cs :=
    List.takeWhile_append_dropWhile
  have hlength := Text.byteLength_trimStart cs
  have hgap : Text.Gap source offset (offset + Text.byteLength (cs.takeWhile Text.isBlank)) := by
    rw [← hcut] at hat
    exact ⟨_, hat.left, Text.blank_takeWhile cs, rfl⟩
  have hbody := hat.trimStart
  unfold contentAfterBlank
  dsimp only
  split
  · rename_i hn
    have hn : Text.trimStart cs = [] := by simpa using hn
    rw [hn] at hlength
    rw [← hlength]
    exact hgap
  · rename_i hn
    have hn : Text.trimStart cs ≠ [] := by simpa using hn
    have htrimmed : Text.Trimmed (Text.trimStart cs) := by
      refine ⟨Text.isBlank_head?_trimStart cs, fun c hc => hlast c ?_⟩
      rw [← hcut, List.getLast?_append_of_ne_nil _ hn]
      exact hc
    rw [← hlength, ← Nat.add_assoc]
    exact (spelled_content hbody hn fun _ => htrimmed).before hgap

theorem spelled_tagTokens (hat : Text.At source offset cs) (hn : cs ≠ []) (hc : Text.Trimmed cs) :
    TokensSpelled source context offset (offset + Text.byteLength cs) (tagTokens offset cs) := by
  unfold tagTokens
  split
  · rename_i k hk
    have hcut := Text.leadingWord_append_afterLeadingWord cs
    have hword : k.word.toList = Text.leadingWord cs := by simpa using List.find?_some hk
    have hlast : ∀ c ∈ (Text.afterLeadingWord cs).getLast?, Text.isBlank c = false := by
      intro c hlast
      refine hc.2 c ?_
      rw [← hcut]
      exact List.mem_getLast?_append_of_mem_getLast? hlast
    rw [← hcut] at hat
    have hrest : TokensSpelled source context _ _ _ := spelled_contentAfterBlank hat.right hlast
    rw [Nat.add_assoc, ← Text.byteLength_append, hcut] at hrest
    refine ⟨.refl hat.boundary, ⟨?_, ?_, ?_⟩, by simp, hrest⟩
    · show Text.At source offset k.word.toList
      rw [hword]
      exact hat.left
    · show _ = offset + Text.byteLength k.word.toList
      rw [hword]
    · exact (trimmed_word k).2
  · exact spelled_content hat hn fun _ => hc

/-- Between two markers a text is a gap, its tokens and a gap. -/
theorem spelled_textTokens (d : Delimiter) (hat : Text.At source offset cs) :
    TokensSpelled source (some d) offset (offset + Text.byteLength cs)
      (textTokens (some d) offset cs) := by
  obtain ⟨after, hafter, hcut⟩ := Text.exists_trim cs
  have htrimmed := Text.trimmed_trim cs
  rw [hcut] at hat
  have hleft : Text.Gap source offset (offset + Text.byteLength (cs.takeWhile Text.isBlank)) :=
    ⟨_, hat.left, Text.blank_takeWhile cs, rfl⟩
  have hbody := hat.right.left
  have hright : Text.Gap source (offset + Text.byteLength (cs.takeWhile Text.isBlank) +
      Text.byteLength (Text.trim cs)) (offset + Text.byteLength cs) := by
    refine ⟨after, hat.right.right, hafter, ?_⟩
    have hlength := congrArg Text.byteLength hcut
    rw [Text.byteLength_append, Text.byteLength_append] at hlength
    omega
  unfold textTokens
  dsimp only
  split
  · rename_i hn
    have hn : Text.trim cs = [] := by simpa using hn
    rw [hn] at hright
    exact hleft.trans hright
  · rename_i hn
    have hn : Text.trim cs ≠ [] := by simpa using hn
    split
    · exact ((spelled_tagTokens hbody hn htrimmed).after hright).before hleft
    · exact ((spelled_content hbody hn fun _ => htrimmed).after hright).before hleft

theorem spelled_pieceTokens {context : Option Delimiter} {offset : Nat} {ps : List Piece}
    (hn : ∀ cs, .text cs ∈ ps → cs ≠ []) (hat : Text.At source offset (chars ps)) :
    TokensSpelled source context offset (offset + Text.byteLength (chars ps))
      (pieceTokens context offset ps) := by
  induction ps generalizing context offset with
  | nil => exact .refl hat.boundary
  | cons piece ps ih =>
    have hrest : ∀ cs, .text cs ∈ ps → cs ≠ [] := fun cs hc => hn cs (List.mem_cons_of_mem _ hc)
    rw [chars_cons] at hat
    rw [chars_cons, Text.byteLength_append, ← Nat.add_assoc]
    have ih {context : Option Delimiter} : TokensSpelled source context _ _ _ := ih hrest hat.right
    cases piece with
    | marker m =>
      have hlength : Text.byteLength m.chars = 2 := byteLength_marker m
      have hne : m.chars ≠ [] := fun hnil => by rw [hnil] at hlength; cases hlength
      have hchars : (Piece.marker m).chars = m.chars := rfl
      rw [hchars, hlength] at ih ⊢
      exact ⟨.refl hat.boundary, ⟨hat.left, by rw [← hlength]; rfl, hne⟩, by simp, ih⟩
    | text cs =>
      refine TokensSpelled.append ?_ (fun t ht => Block.not_marker_of_mem_textTokens ht) ih
      cases context with
      | none => exact spelled_content hat.left (hn cs List.mem_cons_self) (absurd rfl)
      | some d => exact spelled_textTokens d hat.left

/-- **Between the tokens of a source there is only white space.** -/
theorem spelled_scan (source : List Char) :
    TokensSpelled source none 0 (Text.byteLength source) (scan source) := by
  have hat : Text.At source 0 (chars (pieces source)) := by
    rw [chars_pieces]
    exact .refl source
  have h : TokensSpelled source none _ _ _ :=
    spelled_pieceTokens (fun cs => ne_nil_of_mem_pieces) hat
  rwa [chars_pieces, Nat.zero_add] at h

end Markup

/-! ## Blocks -/

open Markup (Delimiter Marker)

/-- The text is cut out of the source where its span says, without white space at its ends. -/
structure Located.Cut (source : List Char) (c : Located (List Char)) : Prop where
  text : Text.At source c.span.start c.value
  stop : c.span.stop = c.span.start + Text.byteLength c.value
  trimmed : Text.Trimmed c.value
  ne_nil : c.value ≠ []

/-- The source holds a marker, white space and the text from `start` on, up to the end of the text. -/
def Located.Opened (source : List Char) (d : Delimiter) (start : Nat) (c : Located (List Char)) :
    Prop :=
  ∃ before, Text.Blank before ∧
    Text.At source start ((Marker.opening d).chars ++ (before ++ c.value)) ∧
    c.span.stop = start + Text.byteLength ((Marker.opening d).chars ++ (before ++ c.value))

/-- The span holds the text with white space around it between two markers. -/
def Located.Enclosed (source : List Char) (d : Delimiter) (s : Span) (c : Located (List Char)) :
    Prop :=
  ∃ before after, Text.Blank before ∧ Text.Blank after ∧
    Text.slice source s.start s.stop = some ((Marker.opening d).chars ++
      (before ++ (c.value ++ after)) ++ (Marker.closing d).chars)

mutual

/-- The contents of a block, at any depth, are cut out of the source; values and tags are enclosed by
their markers, and a comment ends with one. -/
def Block.Spelled (source : List Char) : Block → Prop
  | .text _ _ => True
  | .comment s => Span.Proper source ⟨s.stop - 2, s.stop⟩
  | .value s c => c.Cut source ∧ c.Enclosed source .value s
  | .tag s c => c.Cut source ∧ c.Enclosed source .tag s
  | .conditional _ h body orelse | .loop _ h body orelse =>
    h.Cut source ∧ BlocksSpelled source body ∧ BlocksSpelled source orelse

def BlocksSpelled (source : List Char) : List Block → Prop
  | [] => True
  | b :: bs => b.Spelled source ∧ BlocksSpelled source bs

end

theorem blocksSpelled_iff {source : List Char} : ∀ {bs : List Block},
    BlocksSpelled source bs ↔ ∀ b ∈ bs, b.Spelled source
  | [] => by simp [BlocksSpelled]
  | b :: bs => by rw [BlocksSpelled, blocksSpelled_iff, List.forall_mem_cons]

theorem blocksSpelled_reverse {source : List Char} {bs : List Block} :
    BlocksSpelled source bs.reverse ↔ BlocksSpelled source bs := by
  simp only [blocksSpelled_iff, List.mem_reverse]

namespace Block

open Markup

variable {source : List Char} {context : Option Delimiter} {p q : Nat} {s s' : State}
  {t : Located Markup.Token} {ts : List (Located Markup.Token)} {bs : List Block}

/-- The last token that was read ended at `p` and led to `context`. -/
def Mode.Spelled (source : List Char) (context : Option Delimiter) (p : Nat) : Mode → Prop
  | .between | .comment _ | .clause | .final => True
  | .value start => context ≠ none ∧ Text.At source start (Marker.opening .value).chars ∧
    p = start + 2
  | .tag start => context ≠ none ∧ Text.At source start (Marker.opening .tag).chars ∧
    p = start + 2
  | .header _ _ => context ≠ none
  | .valueContent start c => p = c.span.stop ∧ c.Cut source ∧ c.Opened source .value start
  | .tagContent start c => p = c.span.stop ∧ c.Cut source ∧ c.Opened source .tag start
  | .headerContent _ _ c => c.Cut source

structure Opening.Spelled (source : List Char) (o : Opening) : Prop where
  header : o.header.Cut source
  outer : BlocksSpelled source o.outer
  body : ∀ body ∈ o.body, BlocksSpelled source body

structure State.Spelled (source : List Char) (context : Option Delimiter) (p : Nat) (s : State) :
    Prop where
  mode : s.mode.Spelled source context p
  blocks : BlocksSpelled source s.blocks
  openings : ∀ o ∈ s.openings, o.Spelled source

theorem Opening.Spelled.close {o : Opening} (h : o.Spelled source) (hbs : BlocksSpelled source bs)
    (stop : Nat) : (o.close bs stop).Spelled source := by
  obtain ⟨hheader, -, hbody⟩ := h
  have hreverse {bs : List Block} (hbs : BlocksSpelled source bs) :
      BlocksSpelled source bs.reverse := blocksSpelled_reverse.2 hbs
  obtain ⟨kind, start, header, outer, _ | body⟩ := o
  · cases kind <;> exact ⟨hheader, hreverse hbs, trivial⟩
  · cases kind <;> exact ⟨hheader, hreverse (hbody body rfl), hreverse hbs⟩

/-- A text that stands behind a marker with a gap between them. -/
theorem opened_of_gap {d : Delimiter} {start : Nat} {c : Located (List Char)}
    (hat : Text.At source start (Marker.opening d).chars)
    (hg : Text.Gap source (start + 2) c.span.start) (hc : c.Cut source) :
    c.Opened source d start := by
  obtain ⟨before, hbefore, hblank, hstart⟩ := hg
  have hlength : Text.byteLength (Marker.opening d).chars = 2 := byteLength_marker _
  have htext := hc.text
  rw [hstart] at htext
  have hinner := hbefore.append htext
  rw [← hlength] at hinner
  refine ⟨before, hblank, hat.append hinner, ?_⟩
  rw [hc.stop, hstart, Text.byteLength_append, Text.byteLength_append, hlength]
  omega

/-- A marker behind an opened text, with a gap between them, closes it. -/
theorem enclosed_of_gap {d : Delimiter} {start : Nat} {span : Span} {c : Located (List Char)}
    (ho : c.Opened source d start) (hg : Text.Gap source c.span.stop span.start)
    (hat : Text.At source span.start (Marker.closing d).chars)
    (hstop : span.stop = span.start + Text.byteLength (Marker.closing d).chars) :
    c.Enclosed source d ⟨start, span.stop⟩ := by
  obtain ⟨before, hbefore, htext, hend⟩ := ho
  obtain ⟨after, hafter, hblank, hstart⟩ := hg
  rw [hend] at hafter hstart
  rw [hstart, Nat.add_assoc, ← Text.byteLength_append] at hat
  have hslice := ((htext.append hafter).append hat).slice
  rw [Text.byteLength_append, Text.byteLength_append, ← Nat.add_assoc, ← Nat.add_assoc,
    ← hstart, ← hstop] at hslice
  refine ⟨before, after, hbefore, hblank, hslice.trans (congrArg some ?_)⟩
  simp only [List.append_assoc]

/-! ## Steps -/

/-- A token behind a gap is read with what it is written as. -/
theorem next?_spelled (h : s.next? t = some s') (hg : Text.Gap source p t.span.start)
    (ht : Markup.Token.Written source t)
    (hc : ∀ cs, t.value = .content cs → context ≠ none → Text.Trimmed cs)
    (hs : s.Spelled source context p) :
    s'.Spelled source (t.value.leadsTo context) t.span.stop := by
  have hstep := step_of_next? h
  obtain ⟨mode, bs, os⟩ := s
  obtain ⟨value, span⟩ := t
  obtain ⟨hm, hbs, hos⟩ := hs
  have hproper : span.Proper source := ht.proper
  obtain ⟨hat, hstop, hne⟩ := ht
  dsimp only at hstep hm hbs hos hg hat hstop hne hc ⊢
  have hcut {cs : List Char} (hv : value = .content cs) (hcontext : context ≠ none) :
      Located.Cut source ⟨cs, span⟩ := by
    subst hv
    exact ⟨hat, hstop, hc cs rfl hcontext, hne⟩
  cases hstep with
  | text cs => exact ⟨trivial, ⟨trivial, hbs⟩, hos⟩
  | openValue | openTag => exact ⟨⟨nofun, hat, hstop⟩, hbs, hos⟩
  | openComment => exact ⟨trivial, hbs, hos⟩
  | value start cs | tag start cs =>
    obtain ⟨hcontext, hopen, rfl⟩ := hm
    have hcontent := hcut rfl hcontext
    exact ⟨⟨rfl, hcontent, opened_of_gap hopen hg hcontent⟩, hbs, hos⟩
  | header kind start cs => exact ⟨hcut rfl hm, hbs, hos⟩
  | closeValue start content | closeTag start content =>
    obtain ⟨rfl, hcontent, hopen⟩ := hm
    exact ⟨trivial, ⟨⟨hcontent, enclosed_of_gap hopen hg hat hstop⟩, hbs⟩, hos⟩
  | comment start value hv => exact ⟨trivial, hbs, hos⟩
  | closeComment start =>
    have hlength : span.stop = span.start + 2 := hstop
    have hspelled : Block.Spelled source (.comment ⟨start, span.stop⟩) := by
      rw [Block.Spelled, hlength, Nat.add_sub_cancel, ← hlength]
      exact hproper
    exact ⟨trivial, ⟨hspelled, hbs⟩, hos⟩
  | keyword start k hk => cases k <;> exact ⟨by first | trivial | exact hm.1, hbs, hos⟩
  | closeHeader kind start content =>
    refine ⟨trivial, trivial, List.forall_mem_cons.2 ⟨⟨hm, hbs, by simp⟩, hos⟩⟩
  | clause o outer hos' =>
    subst hos'
    obtain ⟨ho, hos⟩ := List.forall_mem_cons.1 hos
    refine ⟨trivial, trivial, List.forall_mem_cons.2 ⟨⟨ho.header, ho.outer, ?_⟩, hos⟩⟩
    simpa using hbs
  | final o outer hos' =>
    subst hos'
    obtain ⟨ho, hos⟩ := List.forall_mem_cons.1 hos
    exact ⟨trivial, ⟨ho.close hbs _, ho.outer⟩, hos⟩

/-! ## Runs -/

theorem State.spelled_start : State.start.Spelled source none 0 :=
  ⟨trivial, trivial, by simp [State.start]⟩

/-- A run reads the tokens with what they are written as, up to a gap. -/
theorem run_spelled : ∀ {ts : List (Located Markup.Token)} {s : State}
    {context : Option Delimiter} {p : Nat}, TokensSpelled source context p q ts →
    s.Spelled source context p → s.run ts = .ok s' →
    ∃ context p, s'.Spelled source context p ∧ Text.Gap source p q
  | [], _, context, p, hts, hs, h => by
    cases h
    exact ⟨context, p, hs, hts⟩
  | _ :: _, _, _, _, ⟨hg, ht, hc, hts⟩, hs, h => by
    obtain ⟨_, hn, h⟩ := run_cons_eq_ok_iff.1 h
    exact run_spelled hts (next?_spelled hn hg ht hc hs) h

/-- **The contents of all blocks are cut out of the source.** -/
theorem spelled_of_run (h : State.start.run (scan source) = .ok ⟨.between, bs, []⟩) :
    BlocksSpelled source bs.reverse := by
  obtain ⟨_, _, hs, -⟩ := run_spelled (spelled_scan source) State.spelled_start h
  exact blocksSpelled_reverse.2 hs.blocks

end Block
end Stencil
