import Mathlib.Data.List.Chain
import Stencil.Proofs.Document.BlockText
import Stencil.Proofs.Markup.Fragments

/-!
# What a scan leaves out

A source is cut up to its end (`exists_fragments`). A scan gives a token for every part of it but for
some white space between markers: outside of all markers the tokens leave nothing out (`flush_scan`),
and between markers they leave out white space only (`spelled_scan`), so a character that no token
covers is white space behind a start marker (`TokensSpelled.uncovered`). Two runs of text never stand
side by side (`alternate_pieces`). So the text behind the start of a tag up to the next marker is one
run, or there is none, and its first word is the one reserved word that can stand there
(`firstWord_scan`, `snoc_of_keyword`). All of this is `lossless_scan`.
-/
namespace Stencil

namespace Text

variable {source : List Char} {a b p : Nat}

theorem Gap.le (h : Gap source a b) : a ≤ b := by
  obtain ⟨cs, -, -, rfl⟩ := h
  exact Nat.le_add_right _ _

/-- What stands behind a shorter text of the same source. -/
theorem exists_of_byteLength_le {u v w x : List Char} (h : u ++ v = w ++ x)
    (hle : byteLength u ≤ byteLength w) : ∃ y, w = u ++ y ∧ v = y ++ x := by
  rcases List.append_eq_append_iff.1 h with ⟨y, hw, hv⟩ | ⟨y, hu, hx⟩
  · exact ⟨y, hw, hv⟩
  · have hnil : y = [] := by
      by_contra hn
      have hpos := byteLength_pos hn
      rw [hu, byteLength_append] at hle
      omega
    subst hnil
    exact ⟨[], by simpa using hu.symm, by simpa using hx.symm⟩

/-- A character that stands in a gap is white space. -/
theorem Gap.isBlank (h : Gap source a b) {before after : List Char} {c : Char}
    (hsource : source = before ++ c :: after) (ha : a ≤ byteLength before)
    (hb : byteLength before < b) : isBlank c = true := by
  obtain ⟨cs, ⟨front, rest, hfront, rfl⟩, hblank, rfl⟩ := h
  rw [hfront] at hsource
  obtain ⟨x, rfl, hx⟩ := exists_of_byteLength_le hsource ha
  rw [byteLength_append] at hb
  obtain ⟨y, hcs, hy⟩ := exists_of_byteLength_le hx.symm (by omega)
  cases y with
  | nil =>
    rw [hcs, List.append_nil] at hb
    omega
  | cons d y =>
    obtain ⟨rfl, -⟩ := List.cons.inj hy
    exact hblank c (by simp [hcs])

/-! ## First words -/

theorem leadingWord_append_blank {u v : List Char} (hv : Blank v) :
    leadingWord (u ++ v) = leadingWord u := by
  have hnil : leadingWord v = [] := by
    cases v with
    | nil => rfl
    | cons c v => simp [leadingWord, hv c List.mem_cons_self]
  induction u with
  | nil => exact hnil
  | cons c u ih =>
    unfold leadingWord at ih ⊢
    rw [List.cons_append, List.takeWhile_cons, List.takeWhile_cons, ih]

/-- The first word of a text is that of the trimmed text. -/
theorem leadingWord_trim (cs : List Char) : leadingWord (trim cs) = leadingWord (trimStart cs) := by
  obtain ⟨after, hafter, hcut⟩ := exists_trim cs
  have hstart : trimStart cs = trim cs ++ after := by
    have hsplit : cs.takeWhile Text.isBlank ++ trimStart cs = cs := List.takeWhile_append_dropWhile
    exact List.append_cancel_left (hsplit.trans hcut)
  rw [hstart, leadingWord_append_blank hafter]

end Text

namespace Markup

variable {source : List Char} {context : Option Delimiter} {a b offset : Nat}
  {ts us : List (Located Token)}

/-! ## Runs of text -/

/-- No marker occurs in a run of text. -/
theorem unmarked_of_mem_pieces {cs : List Char} (h : .text cs ∈ pieces source) : Unmarked cs := by
  refine (forall_text_pieces (P := Unmarked) (fun c => ?_) (fun c d cs hm hcs => ?_) h).2
  · exact unmarked_nil.cons (by simp)
  · refine hcs.cons fun x hx => ?_
    obtain rfl : d = x := by simpa using hx
    exact hm

/-- Behind a run of text a marker stands, if anything does. -/
def Alternate (ps : List Piece) : Prop :=
  ps.IsChain fun p q => (∃ cs, p = .text cs) → ∃ m, q = .marker m

theorem Alternate.addChar {ps : List Piece} (h : Alternate ps) (c : Char) :
    Alternate (addChar c ps) := by
  rcases ps with _ | ⟨m | cs, ps⟩
  · exact .singleton _
  · exact .cons_cons (fun _ => ⟨m, rfl⟩) h
  · cases h with
    | singleton => exact .singleton _
    | cons_cons hr h => exact .cons_cons (fun _ => hr ⟨cs, rfl⟩) h

theorem alternate_pieces (source : List Char) : Alternate (pieces source) := by
  induction source using pieces.induct with
  | case1 c d rest m hm ih =>
    rw [pieces, hm]
    cases hrest : pieces rest with
    | nil => exact .singleton _
    | cons p ps => exact .cons_cons (by simp) (hrest ▸ ih)
  | case2 c d rest hm ih =>
    rw [pieces, hm]
    exact ih.addChar c
  | case3 c => exact .singleton _
  | case4 => exact .nil

/-! ## Between markers -/

/-- Among the tokens there is a start marker with no end marker behind it. -/
def Open (ts : List (Located Token)) : Prop :=
  ∃ us d s vs, ts = us ++ ⟨.marker (.opening d), s⟩ :: vs ∧
    ∀ t ∈ vs, ∀ e, t.value ≠ .marker (.closing e)

/-- The place behind the tokens. -/
def contextBehind (context : Option Delimiter) (ts : List (Located Token)) : Option Delimiter :=
  ts.foldl (fun c t => t.value.leadsTo c) context

theorem contextBehind_ne_none (hc : context ≠ none)
    (h : ∀ t ∈ ts, ∀ e, t.value ≠ .marker (.closing e)) : contextBehind context ts ≠ none := by
  induction ts generalizing context with
  | nil => exact hc
  | cons t ts ih =>
    obtain ⟨ht, hts⟩ := List.forall_mem_cons.1 h
    show contextBehind (t.value.leadsTo context) ts ≠ none
    refine ih ?_ hts
    obtain ⟨⟨⟨d⟩ | ⟨d⟩⟩ | k | cs, s⟩ := t
    · exact Option.some_ne_none d
    · exact absurd rfl (ht d)
    · exact hc
    · exact hc

/-- Tokens that lead to a place between markers open one, or they are all within the place that they
stand in. -/
theorem open_or_of_contextBehind (h : contextBehind context ts ≠ none) :
    Open ts ∨ context ≠ none ∧ ∀ t ∈ ts, ∀ e, t.value ≠ .marker (.closing e) := by
  induction ts generalizing context with
  | nil => exact .inr ⟨h, by simp⟩
  | cons t ts ih =>
    rcases ih h with ⟨us, d, s, vs, rfl, hvs⟩ | ⟨hc, hts⟩
    · exact .inl ⟨t :: us, d, s, vs, rfl, hvs⟩
    · obtain ⟨⟨⟨d⟩ | ⟨d⟩⟩ | k | cs, s⟩ := t
      · exact .inl ⟨[], d, s, ts, rfl, hts⟩
      · exact absurd rfl hc
      · exact .inr ⟨hc, List.forall_mem_cons.2 ⟨by simp, hts⟩⟩
      · exact .inr ⟨hc, List.forall_mem_cons.2 ⟨by simp, hts⟩⟩

theorem open_iff : Open ts ↔ contextBehind none ts ≠ none := by
  constructor
  · rintro ⟨us, d, s, vs, rfl, hvs⟩
    rw [contextBehind, List.foldl_append, List.foldl_cons]
    exact contextBehind_ne_none (Option.some_ne_none d) hvs
  · intro h
    exact (open_or_of_contextBehind h).resolve_right fun hnone => hnone.1 rfl

/-! ## What no token covers -/

/-- Outside of all markers the tokens leave nothing out between the two offsets. -/
def TokensFlush : Option Delimiter → Nat → Nat → List (Located Token) → Prop
  | context, a, b, [] => context = none → a = b
  | context, a, b, t :: ts => (context = none → a = t.span.start) ∧
    TokensFlush (t.value.leadsTo context) t.span.stop b ts

theorem TokensFlush.between {d : Delimiter} {m : Nat} (h : TokensFlush (some d) m b us) :
    ∀ {ts : List (Located Token)} {a : Nat}, (∀ t ∈ ts, ∀ m, t.value ≠ .marker m) →
    TokensFlush (some d) a b (ts ++ us)
  | [], _, _ => by
    cases us with
    | nil => exact nofun
    | cons u us => exact ⟨nofun, h.2⟩
  | t :: ts, _, hm => by
    obtain ⟨ht, hts⟩ := List.forall_mem_cons.1 hm
    refine ⟨nofun, ?_⟩
    rw [Token.leadsTo_of_ne_marker ht]
    exact h.between hts

theorem flush_pieceTokens {ps : List Piece} : TokensFlush context offset
    (offset + Text.byteLength (chars ps)) (pieceTokens context offset ps) := by
  induction ps generalizing context offset with
  | nil => exact fun _ => rfl
  | cons p ps ih =>
    rw [chars_cons, Text.byteLength_append, ← Nat.add_assoc]
    cases p with
    | marker m =>
      have hlength : Text.byteLength (Piece.marker m).chars = 2 := byteLength_marker m
      rw [hlength]
      exact ⟨fun _ => rfl, ih⟩
    | text cs =>
      cases context with
      | none => exact ⟨fun _ => rfl, ih⟩
      | some d => exact ih.between fun t ht => Block.not_marker_of_mem_textTokens ht

theorem flush_scan (source : List Char) :
    TokensFlush none 0 (Text.byteLength source) (scan source) := by
  have h : TokensFlush none 0 _ (pieceTokens none 0 (pieces source)) := flush_pieceTokens
  rwa [chars_pieces, Nat.zero_add] at h

theorem TokensSpelled.le_start (h : TokensSpelled source context a b ts) :
    ∀ t ∈ ts, a ≤ t.span.start := by
  induction ts generalizing context a with
  | nil => simp
  | cons t ts ih =>
    obtain ⟨hg, ht, -, h⟩ := h
    have hle := hg.le
    have hlt := ht.proper.lt
    refine List.forall_mem_cons.2 ⟨hle, fun u hu => ?_⟩
    have hstop := ih h u hu
    omega

theorem TokensSpelled.pairwise (h : TokensSpelled source context a b ts) :
    ts.Pairwise fun t u => t.span.stop ≤ u.span.start := by
  induction ts generalizing context a with
  | nil => exact .nil
  | cons t ts ih => exact .cons h.2.2.2.le_start (ih h.2.2.2)

theorem TokensSpelled.written (h : TokensSpelled source context a b ts) :
    ∀ t ∈ ts, Token.Written source t := by
  induction ts generalizing context a with
  | nil => simp
  | cons t ts ih => exact List.forall_mem_cons.2 ⟨h.2.1, ih h.2.2.2⟩

/-- The tokens behind others, with the place that these lead to. -/
theorem TokensSpelled.drop (h : TokensSpelled source context a b (us ++ ts)) :
    ∃ m, TokensSpelled source (contextBehind context us) m b ts := by
  induction us generalizing context a with
  | nil => exact ⟨a, h⟩
  | cons t us ih => exact ih h.2.2.2

/-- A character that no token covers is white space between markers. The induction goes from the
start of the source to the gap that the character stands in. -/
theorem TokensSpelled.uncovered {before after : List Char} {c : Char}
    (hsource : source = before ++ c :: after) (hb : Text.byteLength before < b) :
    ∀ {ts : List (Located Token)} {context : Option Delimiter} {a : Nat},
      TokensSpelled source context a b ts → TokensFlush context a b ts →
      a ≤ Text.byteLength before →
      (∀ t ∈ ts, Text.byteLength before < t.span.start ∨ t.span.stop ≤ Text.byteLength before) →
      Text.isBlank c = true ∧ ∃ us vs, ts = us ++ vs ∧
        (∀ t ∈ us, t.span.stop ≤ Text.byteLength before) ∧
        (∀ t ∈ vs, Text.byteLength before < t.span.start) ∧ contextBehind context us ≠ none
  | [], context, a, hgap, hflush, ha, _ => by
    refine ⟨hgap.isBlank hsource ha hb, [], [], rfl, by simp, by simp, fun hnone => ?_⟩
    have hab := hflush hnone
    omega
  | t :: ts, context, a, h, ⟨hflush, hfs⟩, ha, hout => by
    obtain ⟨hleft, hts⟩ := List.forall_mem_cons.1 hout
    rcases hleft with hleft | hright
    · refine ⟨h.1.isBlank hsource ha hleft, [], t :: ts, rfl, by simp, ?_, fun hnone => ?_⟩
      · refine List.forall_mem_cons.2 ⟨hleft, fun u hu => ?_⟩
        have hstop := h.2.2.2.le_start u hu
        have hlt := h.2.1.proper.lt
        omega
      · have hat := hflush hnone
        omega
    · obtain ⟨hblank, us, vs, rfl, hus, hvs, hopen⟩ :=
        TokensSpelled.uncovered hsource hb h.2.2.2 hfs hright hts
      exact ⟨hblank, t :: us, vs, rfl, List.forall_mem_cons.2 ⟨hright, hus⟩, hvs, hopen⟩

/-! ## Reserved words -/

/-- Where the first marker of the tokens stands, or else the end of the source. -/
def nextMarker (stop : Nat) : List (Located Token) → Nat
  | [] => stop
  | ⟨.marker _, s⟩ :: _ => s.start
  | _ :: ts => nextMarker stop ts

theorem nextMarker_append (stop : Nat) (hm : ∀ t ∈ ts, ∀ m, t.value ≠ .marker m) :
    nextMarker stop (ts ++ us) = nextMarker stop us := by
  induction ts with
  | nil => rfl
  | cons t ts ih =>
    obtain ⟨ht, hts⟩ := List.forall_mem_cons.1 hm
    obtain ⟨m | k | cs, s⟩ := t
    · exact absurd rfl (ht m)
    · exact ih hts
    · exact ih hts

/-- The text before the first marker. -/
def leadingText : List Piece → List Char
  | .text cs :: _ => cs
  | _ => []

theorem exists_leadingText (ps : List Piece) : ∃ rest, chars ps = leadingText ps ++ rest := by
  rcases ps with _ | ⟨m | cs, ps⟩
  · exact ⟨[], rfl⟩
  · exact ⟨_, rfl⟩
  · exact ⟨chars ps, rfl⟩

/-- What stands behind a marker, up to the end of the source. -/
theorem at_behind_marker {qs ps : List Piece} {m : Marker}
    (h : pieces source = qs ++ .marker m :: ps) :
    Text.At source (Text.byteLength (chars qs) + 2) (chars ps) ∧
      Text.byteLength source = Text.byteLength (chars qs) + 2 + Text.byteLength (chars ps) := by
  have hchars : source = chars qs ++ (m.chars ++ chars ps) := by
    rw [← chars_pieces source, h, chars_append, chars_cons]
    rfl
  have hat := Text.At.refl source
  have hlength := congrArg Text.byteLength hchars
  rw [Text.byteLength_append, Text.byteLength_append, byteLength_marker, ← Nat.add_assoc] at hlength
  refine ⟨?_, hlength⟩
  nth_rewrite 2 [hchars] at hat
  have hright := hat.right.right
  rwa [byteLength_marker, Nat.zero_add] at hright

theorem nextMarker_pieceTokens {ps : List Piece} (h : Alternate ps) :
    nextMarker (offset + Text.byteLength (chars ps)) (pieceTokens context offset ps) =
      offset + Text.byteLength (leadingText ps) := by
  rcases ps with _ | ⟨m | cs, ps⟩
  · rfl
  · rfl
  · rw [pieceTokens, nextMarker_append _ fun t ht => Block.not_marker_of_mem_textTokens ht]
    cases h with
    | singleton => simp [pieceTokens, nextMarker, leadingText, Piece.chars]
    | cons_cons hr _ =>
      obtain ⟨m, rfl⟩ := hr ⟨cs, rfl⟩
      rfl

section
variable {k : Keyword} {cs : List Char}

/-- The tokens of a tag begin with a reserved word when its first word is one. -/
theorem tagTokens_eq_cons_iff (us : List (Located Token)) :
    (∃ s ws, tagTokens offset cs ++ us = ⟨.keyword k, s⟩ :: ws) ↔
      Text.leadingWord cs = k.word.toList := by
  rw [← Keyword.ofWord?_eq_some_iff]
  unfold tagTokens
  split
  · rename_i k' hk
    rw [hk]
    simp
  · rename_i hk
    rw [hk]
    simp

theorem textTokens_eq_cons_iff (hn : ∀ t ∈ us.head?, ∃ m, t.value = .marker m) :
    (∃ s ws, textTokens (some .tag) offset cs ++ us = ⟨.keyword k, s⟩ :: ws) ↔
      Text.leadingWord (Text.trimStart cs) = k.word.toList := by
  rw [← Text.leadingWord_trim]
  unfold textTokens
  dsimp only
  split
  · rename_i hnil
    have hnil : Text.trim cs = [] := by simpa using hnil
    rw [hnil]
    constructor
    · rintro ⟨s, ws, rfl⟩
      obtain ⟨m, hm⟩ := hn _ rfl
      cases hm
    · intro h
      exact absurd h.symm (trimmed_word k).2
  · rw [if_pos rfl]
    exact tagTokens_eq_cons_iff us

/-- The tokens of a run of text and of what stands behind it begin with a marker behind the run. -/
theorem head?_pieceTokens_of_alternate {ps : List Piece} (h : Alternate (.text cs :: ps)) :
    ∀ t ∈ (pieceTokens context offset ps).head?, ∃ m, t.value = .marker m := by
  cases h with
  | singleton => simp [pieceTokens]
  | cons_cons hr _ =>
    obtain ⟨m, rfl⟩ := hr ⟨cs, rfl⟩
    simp [pieceTokens]

/-- Behind the start of a tag a reserved word stands when it is the first word there. -/
theorem pieceTokens_eq_cons_iff {ps : List Piece} (h : Alternate ps) :
    (∃ s ws, pieceTokens (some .tag) offset ps = ⟨.keyword k, s⟩ :: ws) ↔
      Text.leadingWord (Text.trimStart (leadingText ps)) = k.word.toList := by
  have hword : [] ≠ k.word.toList := (trimmed_word k).2.symm
  rcases ps with _ | ⟨m | cs, ps⟩
  · simpa [pieceTokens, leadingText, Text.trimStart, Text.leadingWord] using hword
  · simpa [pieceTokens, leadingText, Text.trimStart, Text.leadingWord] using hword
  · exact textTokens_eq_cons_iff (head?_pieceTokens_of_alternate h)

theorem ne_keyword_of_mem_contentAfterBlank {t : Located Token}
    (h : t ∈ contentAfterBlank offset cs) : t.value ≠ .keyword k := by
  unfold contentAfterBlank at h
  dsimp only at h
  split at h
  · cases h
  · obtain rfl := List.mem_singleton.1 h
    simp

section
variable {s : Span} {vs : List (Located Token)}

theorem singleton_content_ne {r : Span} : [⟨.content cs, r⟩] ≠ us ++ ⟨.keyword k, s⟩ :: vs := by
  intro h
  have hmem : (⟨.keyword k, s⟩ : Located Token) ∈ [⟨.content cs, r⟩] := by
    rw [h]
    simp
  cases List.mem_singleton.1 hmem

theorem eq_nil_of_tagTokens (h : tagTokens offset cs = us ++ ⟨.keyword k, s⟩ :: vs) : us = [] := by
  unfold tagTokens at h
  dsimp only at h
  split at h
  · rcases List.cons_eq_append_iff.1 h with ⟨hus, -⟩ | ⟨ws, -, hrest⟩
    · exact hus
    · have hmem : (⟨.keyword k, s⟩ : Located Token) ∈ ws ++ ⟨.keyword k, s⟩ :: vs := by simp
      rw [← hrest] at hmem
      exact absurd rfl (ne_keyword_of_mem_contentAfterBlank hmem)
  · exact absurd h singleton_content_ne

/-- A reserved word is the first token of a run of text, and the run stands in a tag. -/
theorem eq_nil_of_textTokens (h : textTokens context offset cs = us ++ ⟨.keyword k, s⟩ :: vs) :
    us = [] ∧ context = some .tag := by
  unfold textTokens at h
  dsimp only at h
  split at h
  · exact absurd h singleton_content_ne
  · split at h
    · simp at h
    · split at h
      · rename_i hd
        exact ⟨eq_nil_of_tagTokens h, congrArg some hd⟩
      · exact absurd h singleton_content_ne

/-- Right before a reserved word stands the start of a tag. -/
theorem snoc_of_keyword : ∀ {ps : List Piece} {context : Option Delimiter} {offset : Nat}
    {us : List (Located Token)}, Alternate ps →
    pieceTokens context offset ps = us ++ ⟨.keyword k, s⟩ :: vs →
    (us = [] ∧ context = some .tag) ∨ ∃ xs r, us = xs ++ [⟨.marker (.opening .tag), r⟩]
  | [], _, _, us, _, h => by simp [pieceTokens] at h
  | .marker m :: ps, context, offset, us, halt, h => by
    right
    rcases List.cons_eq_append_iff.1 h with ⟨-, h⟩ | ⟨us, rfl, hrest⟩
    · cases h
    · rcases snoc_of_keyword (List.IsChain.of_cons halt) hrest with ⟨rfl, hm⟩ | ⟨xs, r, rfl⟩
      · have hopen : m = .opening .tag := by
          obtain ⟨d⟩ | ⟨d⟩ := m
          · exact congrArg Marker.opening (Option.some.inj hm)
          · cases hm
        subst hopen
        exact ⟨[], _, rfl⟩
      · exact ⟨_ :: xs, r, rfl⟩
  | .text cs :: ps, context, offset, us, halt, h => by
    -- the rest begins with a marker, so the word has a token before it there
    have hrest : ∀ us, us ++ ⟨.keyword k, s⟩ :: vs =
        pieceTokens context (offset + Text.byteLength cs) ps →
        ∃ xs r, us = xs ++ [⟨.marker (.opening .tag), r⟩] := by
      intro us heq
      rcases snoc_of_keyword (List.IsChain.of_cons halt) heq.symm with ⟨rfl, -⟩ | hsnoc
      · obtain ⟨m, hm⟩ := head?_pieceTokens_of_alternate halt ⟨.keyword k, s⟩ (by
          rw [← heq]
          rfl)
        cases hm
      · exact hsnoc
    rcases List.append_eq_append_iff.1 h with ⟨ws, rfl, hws⟩ | ⟨ws, htext, hws⟩
    · right
      obtain ⟨xs, r, rfl⟩ := hrest ws hws.symm
      exact ⟨textTokens context offset cs ++ xs, r, by simp⟩
    · rcases List.cons_eq_append_iff.1 hws with ⟨rfl, hws⟩ | ⟨ws, rfl, -⟩
      · obtain ⟨xs, r, hnil⟩ := hrest [] hws
        simp at hnil
      · exact .inl (eq_nil_of_textTokens htext)

end
end

/-! ## Scans -/

/-- The tokens of a source, with what they leave out. -/
structure Lossless (source : List Char) (ts : List (Located Token)) : Prop where
  /-- The source is cut into fragments up to its end, and the tokens are made of these. -/
  cut : ∃ ps, Fragments source ps ∧ ts = pieceTokens none 0 (joinTexts ps)
  /-- Every token is cut out of the source by its span, which is not empty. -/
  written : ∀ t ∈ ts, t.span.start < t.span.stop ∧
    Text.slice source t.span.start t.span.stop = some t.value.chars
  /-- The tokens stand one behind the other. -/
  ordered : ts.Pairwise fun t u => t.span.stop ≤ u.span.start
  /-- A character that no token covers is white space between markers. -/
  uncovered : ∀ before c after, source = before ++ c :: after →
    (∀ t ∈ ts, Text.byteLength before < t.span.start ∨ t.span.stop ≤ Text.byteLength before) →
    Text.isBlank c = true ∧ ∃ us vs, ts = us ++ vs ∧
      (∀ t ∈ us, t.span.stop ≤ Text.byteLength before) ∧
      (∀ t ∈ vs, Text.byteLength before < t.span.start) ∧ Open us
  /-- Text between markers is trimmed, and there is some. -/
  trimmed : ∀ us cs s vs, ts = us ++ ⟨.content cs, s⟩ :: vs → Open us →
    cs ≠ [] ∧ Text.Trimmed cs
  /-- A reserved word stands right behind the start of a tag. -/
  behindTag : ∀ us k s vs, ts = us ++ ⟨.keyword k, s⟩ :: vs →
    ∃ xs r, us = xs ++ [⟨.marker (.opening .tag), r⟩]
  /-- Behind the start of a tag stands the reserved word that is the first word up to the next
  marker, if it is one. -/
  firstWord : ∀ us s vs, ts = us ++ ⟨.marker (.opening .tag), s⟩ :: vs → ∃ text,
    Text.slice source s.stop (nextMarker (Text.byteLength source) vs) = some text ∧
    Unmarked text ∧ ∀ k, (∃ r ws, vs = ⟨.keyword k, r⟩ :: ws) ↔
      Text.leadingWord (Text.trimStart text) = k.word.toList

section
variable {us vs : List (Located Token)} {s : Span}

/-- Behind the start of a tag stands the reserved word that is the first word there. -/
theorem firstWord_scan (h : scan source = us ++ ⟨.marker (.opening .tag), s⟩ :: vs) : ∃ text,
    Text.slice source s.stop (nextMarker (Text.byteLength source) vs) = some text ∧
    Unmarked text ∧ ∀ k, (∃ r ws, vs = ⟨.keyword k, r⟩ :: ws) ↔
      Text.leadingWord (Text.trimStart text) = k.word.toList := by
  obtain ⟨qs, ps, hps, hstop, rfl⟩ := exists_pieces_of_marker h
  obtain ⟨hat, hlength⟩ := at_behind_marker hps
  rw [Nat.zero_add] at hstop
  rw [← hstop] at hat hlength
  have halt : Alternate ps := by
    have hsource := alternate_pieces source
    rw [hps] at hsource
    exact List.IsChain.of_cons (List.IsChain.right_of_append hsource)
  refine ⟨leadingText ps, ?_, ?_, fun k => pieceTokens_eq_cons_iff halt⟩
  · obtain ⟨rest, hrest⟩ := exists_leadingText ps
    rw [hlength, nextMarker_pieceTokens halt]
    rw [hrest] at hat
    exact hat.left.slice
  · rcases ps with _ | ⟨m | cs, ps⟩
    · exact unmarked_nil
    · exact unmarked_nil
    · have hmem : .text cs ∈ pieces source := by simp [hps]
      exact unmarked_of_mem_pieces hmem

end

/-- **A scan loses nothing.** A source is cut up to its end, there is no place at which a scan could
fail. Whatever markers it has, in whatever order, the tokens are cut out of it one behind the other.
What they leave out is white space behind a start marker with no end marker in between; text there is
trimmed, and a reserved word is told by the first word behind the start of a tag. -/
theorem lossless_scan (source : List Char) : Lossless source (scan source) := by
  have hspelled := spelled_scan source
  obtain ⟨ps, hps⟩ := exists_fragments source
  have hcut : scan source = pieceTokens none 0 (joinTexts ps) := by
    rw [joinTexts_of_fragments hps, scan]
  refine ⟨⟨ps, hps, hcut⟩, fun t ht => ?_, hspelled.pairwise, fun before c after hsource hout => ?_,
    fun us cs s vs hts hopen => ?_, fun us k s vs hts => ?_, fun us s vs => firstWord_scan⟩
  · have hwritten := hspelled.written t ht
    refine ⟨hwritten.proper.lt, ?_⟩
    rw [hwritten.stop]
    exact hwritten.text.slice
  · have hlt : Text.byteLength before < Text.byteLength source := by
      rw [hsource, Text.byteLength_append, Text.byteLength_cons]
      have hsize := c.utf8Size_pos
      omega
    obtain ⟨hblank, us, vs, hts, hus, hvs, hbehind⟩ :=
      hspelled.uncovered hsource hlt (flush_scan source) (Nat.zero_le _) hout
    exact ⟨hblank, us, vs, hts, hus, hvs, open_iff.2 hbehind⟩
  · rw [hts] at hspelled
    obtain ⟨m, -, hwritten, htrimmed, -⟩ := hspelled.drop
    exact ⟨hwritten.ne_nil, htrimmed cs rfl (open_iff.1 hopen)⟩
  · rcases snoc_of_keyword (alternate_pieces source) hts with ⟨-, hnone⟩ | hsnoc
    · cases hnone
    · exact hsnoc

/-- A tag that is not closed, and a stray brace between markers. -/
example : scan "é \x7b% if  a \x7b\x7b \x7d ".toList =
    [⟨.content "é ".toList, ⟨0, 3⟩⟩, ⟨.marker (.opening .tag), ⟨3, 5⟩⟩, ⟨.keyword .ifOpen, ⟨6, 8⟩⟩,
      ⟨.content ['a'], ⟨10, 11⟩⟩, ⟨.marker (.opening .value), ⟨12, 14⟩⟩,
      ⟨.content ['\x7d'], ⟨15, 16⟩⟩] := by
  rfl

end Markup
end Stencil
