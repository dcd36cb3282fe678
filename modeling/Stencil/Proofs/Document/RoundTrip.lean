import Stencil.Proofs.Document.Draft
import Stencil.Proofs.Document.Loop
import Stencil.Proofs.Document.Reading

/-!
# Printed documents are read back

The text of a draft is scanned as tokens that are read as its node (`Draft.written_print`): a
condition or loop is its tags around the tokens of its clauses, which are read within it as they are
on their own (`Spell.enclosed`). So what is printed is parsed as the document it was printed for,
wherever its nodes stand (`parse_printAll`).
-/
namespace Stencil

open Markup

/-! ## Nodes up to their places -/

theorem Node.bare_mapSpan (f : Span → Span) (n : Node) : (n.mapSpan f).bare = n.bare :=
  n.mapSpan_mapSpan f _

theorem map_bare_mapNodeSpans (f : Span → Span) (ns : List Node) :
    (mapNodeSpans f ns).map Node.bare = ns.map Node.bare := by
  rw [mapNodeSpans_eq_map, List.map_map]
  exact List.map_congr_left fun n _ => n.bare_mapSpan f

/-- The blocks are read as the nodes, up to the places of these. -/
def Denote (bs : List Block) (ns : List Node) : Prop :=
  ∃ ns', Node.ofBlocks bs = .ok ns' ∧ ns'.map Node.bare = ns.map Node.bare

theorem Denote.append {as bs : List Block} {ns ms : List Node} (ha : Denote as ns)
    (hb : Denote bs ms) : Denote (as ++ bs) (ns ++ ms) := by
  obtain ⟨ns', hns, hn⟩ := ha
  obtain ⟨ms', hms, hm⟩ := hb
  exact ⟨ns' ++ ms', Node.ofBlocks_append hns hms, by rw [List.map_append, hn, hm, List.map_append]⟩

theorem Denote.shift (n : Nat) {bs : List Block} {ns : List Node} (h : Denote bs ns) :
    Denote (relocateBlocks (n + ·) bs) ns := by
  obtain ⟨ns', hns, hn⟩ := h
  exact ⟨_, Node.ofBlocks_shift n hns, (map_bare_mapNodeSpans _ ns').trans hn⟩

theorem Denote.of_block {b : Block} {n n' : Node} (h : Node.ofBlock b = .ok n')
    (hn : n'.bare = n.bare) : Denote [b] [n] := by
  refine ⟨[n'], ?_, by rw [List.map_singleton, hn, List.map_singleton]⟩
  rw [Node.ofBlocks, h]
  rfl

/-- The text of a phrase is read as its expression, wherever it stands. -/
theorem Phrase.readContent (p : Phrase) (s : Span) :
    Expr.readContent ⟨p.text, s⟩ = .ok (p.expr.shift s.start) :=
  Expr.readAt_of_read p.reads s.start

theorem Phrase.bare_shift (p : Phrase) (n : Nat) : (p.expr.shift n).bare = p.expr.bare :=
  Expr.bare_mapSpan _ p.expr

theorem Phrase.loopHeader (p : Phrase) {target : List Char}
    (ht : Identifier.isValid target = true) (hslash : '\\' ∉ p.text) (s : Span) :
    ∃ span base, Tag.loopHeader ⟨target ++ " in ".toList ++ p.text, s⟩ =
      .ok (⟨String.ofList target, span⟩, p.expr.shift base) :=
  Tag.loopHeader_of_text ht p.reads p.text_ne_nil p.trimmed.1 hslash s

theorem denote_text (cs : List Char) (span : Span) :
    Denote [.text span cs] [(Draft.text cs).node] := ⟨_, rfl, rfl⟩

theorem denote_comment (span : Span) : Denote [.comment span] [Draft.comment.node] := ⟨_, rfl, rfl⟩

theorem denote_value (p : Phrase) (span s : Span) :
    Denote [.value span ⟨p.text, s⟩] [(Draft.value p).node] := by
  have hread : Node.ofBlock (.value span ⟨p.text, s⟩) =
      .ok (.value span (p.expr.shift s.start)) := by
    rw [Node.ofBlock, p.readContent]
    rfl
  exact .of_block hread (congrArg (Node.value ⟨0, 0⟩) (p.bare_shift s.start))

section

variable {as bs : List Block} {body orelse : List Draft} (clause : Bool)

theorem denote_conditional (test : Phrase) (ha : Denote as (Draft.nodes body))
    (hb : Denote bs (Draft.nodes orelse)) (span s : Span) :
    Denote [.conditional span ⟨test.text, s⟩ as bs]
      [(Draft.conditional test body orelse clause).node] := by
  obtain ⟨na, hna, ha⟩ := ha
  obtain ⟨nb, hnb, hb⟩ := hb
  have hread : Node.ofBlock (.conditional span ⟨test.text, s⟩ as bs) =
      .ok (.conditional span (test.expr.shift s.start) na nb) := by
    rw [Node.ofBlock, test.readContent, hna, hnb]
    rfl
  refine .of_block hread ?_
  have htest := test.bare_shift s.start
  unfold Node.bare at ha hb
  unfold Expr.bare at htest
  simp only [Node.bare, Draft.node, Node.mapSpan, mapNodeSpans_eq_map, ha, hb, htest]

theorem denote_loop {target : List Char} (ht : Identifier.isValid target = true)
    (iterable : Phrase) (hslash : '\\' ∉ iterable.text) (ha : Denote as (Draft.nodes body))
    (hb : Denote bs (Draft.nodes orelse)) (span s : Span) :
    Denote [.loop span ⟨target ++ " in ".toList ++ iterable.text, s⟩ as bs]
      [(Draft.loop target iterable body orelse clause).node] := by
  obtain ⟨na, hna, ha⟩ := ha
  obtain ⟨nb, hnb, hb⟩ := hb
  obtain ⟨s', base, hheader⟩ := iterable.loopHeader ht hslash s
  have hread : Node.ofBlock
      (.loop span ⟨target ++ " in ".toList ++ iterable.text, s⟩ as bs) =
      .ok (.loop span ⟨String.ofList target, s'⟩ (iterable.expr.shift base) na nb) := by
    rw [Node.ofBlock, hheader, hna, hnb]
    rfl
  refine .of_block hread ?_
  have hiterable := iterable.bare_shift base
  unfold Node.bare at ha hb
  unfold Expr.bare at hiterable
  simp only [Node.bare, Draft.node, Node.mapSpan, mapNodeSpans_eq_map, ha, hb, hiterable,
    Ident.mapSpan]

end

/-! ## Tokens of the nodes -/

/-- The tokens are read as the nodes, up to the places of these. -/
def Spell (ts : List (Located Markup.Token)) (ns : List Node) : Prop :=
  ∃ bs, Block.State.start.run ts = .ok ⟨.between, bs, []⟩ ∧ Denote bs.reverse ns

section

variable {ts us : List (Located Markup.Token)} {ns ms : List Node}

theorem Spell.nil : Spell [] [] := ⟨[], rfl, [], rfl, rfl⟩

theorem Spell.append (ht : Spell ts ns) (hu : Spell us ms) : Spell (ts ++ us) (ns ++ ms) := by
  obtain ⟨as, hras, ha⟩ := ht
  obtain ⟨bs, hrbs, hb⟩ := hu
  refine ⟨bs ++ as, Block.run_append_eq_ok_iff.2 ⟨_, hras, Block.run_above as [] hrbs⟩, ?_⟩
  rw [List.reverse_append]
  exact ha.append hb

theorem Spell.shift (n : Nat) (h : Spell ts ns) :
    Spell (ts.map (Located.relocate (n + ·))) ns := by
  obtain ⟨bs, hrun, hb⟩ := h
  refine ⟨relocateBlocks (n + ·) bs, Block.run_relocate (n + ·) hrun, ?_⟩
  rw [← relocateBlocks_reverse]
  exact hb.shift n

theorem spell_text (cs : List Char) (span : Span) :
    Spell [⟨.content cs, span⟩] [(Draft.text cs).node] :=
  ⟨[.text span cs], rfl, denote_text cs span⟩

theorem spell_comment (h : ts.map Located.value =
    [.marker (.opening .comment), .marker (.closing .comment)]) :
    Spell ts [Draft.comment.node] := by
  obtain ⟨s₁, s₂, rfl⟩ := eq_pair_of_map h
  exact ⟨[.comment ⟨s₁.start, s₂.stop⟩], rfl, denote_comment _⟩

theorem spell_value (p : Phrase) (h : ts.map Located.value =
    [.marker (.opening .value), .content p.text, .marker (.closing .value)]) :
    Spell ts [(Draft.value p).node] := by
  obtain ⟨s₁, s₂, s₃, rfl⟩ := eq_triple_of_map h
  exact ⟨[.value ⟨s₁.start, s₃.stop⟩ ⟨p.text, s₂⟩], rfl, denote_value p _ s₂⟩

end

/-! ## Tags of conditions and loops -/

namespace Block

variable {ts us : List (Located Markup.Token)} {bs : List Block} {os : List Opening}

/-- The first tag opens a condition or loop, wherever it stands. -/
theorem run_opener (kind : Kind) {cs : List Char} (h : ts.map Located.value =
    [.marker (.opening .tag), .keyword kind.opener, .content cs, .marker (.closing .tag)])
    (bs : List Block) (os : List Opening) :
    ∃ start span, (State.mk .between bs os).run ts =
      .ok ⟨.between, [], ⟨kind, start, ⟨cs, span⟩, bs, none⟩ :: os⟩ := by
  obtain ⟨s₁, us, rfl, hus⟩ := eq_cons_of_map h
  obtain ⟨s₂, s₃, s₄, rfl⟩ := eq_triple_of_map hus
  have hkeyword : (State.mk (.tag s₁.start) bs os).keywords.contains kind.opener :=
    State.contains_keywords _ (by cases kind <;> simp [Kind.opener])
  refine ⟨s₁.start, s₃, run_cons_eq_ok_iff.2 ⟨_, rfl, run_cons_eq_ok_iff.2
    ⟨_, next?_of_step (.keyword s₁.start kind.opener hkeyword), ?_⟩⟩⟩
  cases kind <;> rfl

/-- The tag of the second clause ends the first. -/
theorem run_clause (kind : Kind) (h : ts.map Located.value =
    [.marker (.opening .tag), .keyword kind.clause, .marker (.closing .tag)])
    (start : Nat) (header : Located (List Char)) (outer : List Block) :
    (State.mk .between bs (⟨kind, start, header, outer, none⟩ :: os)).run ts =
      .ok ⟨.between, [], ⟨kind, start, header, outer, some bs⟩ :: os⟩ := by
  obtain ⟨s₁, s₂, s₃, rfl⟩ := eq_triple_of_map h
  cases kind <;> rfl

/-- The last tag closes the condition or loop, in its first clause or in its second. -/
theorem run_closer (kind : Kind) (h : ts.map Located.value =
    [.marker (.opening .tag), .keyword kind.closer, .marker (.closing .tag)])
    (start : Nat) (header : Located (List Char)) (outer as bs : List Block) :
    ∃ stop, (State.mk .between as (⟨kind, start, header, outer, none⟩ :: os)).run ts =
        .ok ⟨.between, kind.block ⟨start, stop⟩ header as.reverse [] :: outer, os⟩ ∧
      (State.mk .between bs (⟨kind, start, header, outer, some as⟩ :: os)).run ts =
        .ok ⟨.between, kind.block ⟨start, stop⟩ header as.reverse bs.reverse :: outer, os⟩ := by
  obtain ⟨s₁, s₂, s₃, rfl⟩ := eq_triple_of_map h
  exact ⟨s₃.stop, by cases kind <;> rfl, by cases kind <;> rfl⟩

/-- Blocks are read within a condition or loop as they are on their own. -/
theorem run_within (o : Opening) (h : State.start.run ts = .ok ⟨.between, bs, []⟩) :
    (State.mk .between [] [o]).run ts = .ok ⟨.between, bs, [o]⟩ := by
  have hrun := run_above [] [o] h
  simpa [State.above, State.start] using hrun

end Block

/-- The tokens of the second clause of a condition or loop, which may be left out if it is empty. -/
inductive SpellClause (kind : Block.Kind) : List (Located Markup.Token) → List Node → Prop
  | nothing : SpellClause kind [] []
  | clause {ts us : List (Located Markup.Token)} {ns : List Node} :
    ts.map Located.value =
      [.marker (.opening .tag), .keyword kind.clause, .marker (.closing .tag)] →
    Spell us ns → SpellClause kind (ts ++ us) ns

/-- The tokens behind the first clause close the condition or loop. -/
theorem SpellClause.run {kind : Block.Kind} {orelse closer : List (Located Markup.Token)}
    {ms : List Node} (hc : SpellClause kind orelse ms)
    (he : closer.map Located.value =
      [.marker (.opening .tag), .keyword kind.closer, .marker (.closing .tag)])
    (start : Nat) (header : Located (List Char)) (as : List Block) :
    ∃ stop bs, (Block.State.mk .between as [⟨kind, start, header, [], none⟩]).run
        (orelse ++ closer) = .ok ⟨.between, [kind.block ⟨start, stop⟩ header as.reverse bs], []⟩ ∧
      Denote bs ms := by
  cases hc with
  | nothing =>
    obtain ⟨stop, hcloser, -⟩ := Block.run_closer kind he start header [] as []
    exact ⟨stop, [], hcloser, [], rfl, rfl⟩
  | @clause ts us _ ht hu =>
    obtain ⟨bs, hus, hbs⟩ := hu
    obtain ⟨stop, -, hcloser⟩ := Block.run_closer kind he start header [] as bs
    refine ⟨stop, bs.reverse, ?_, hbs⟩
    rw [List.append_assoc]
    exact Block.run_append_eq_ok_iff.2 ⟨_, Block.run_clause kind ht start header [],
      Block.run_append_eq_ok_iff.2 ⟨_, Block.run_within _ hus, hcloser⟩⟩

/-- **A condition or loop** is its tags around the tokens of its clauses, if the block of what these
are read as is read as the node. -/
theorem Spell.enclosed {kind : Block.Kind} {cs : List Char}
    {opener body orelse closer : List (Located Markup.Token)} {ns ms : List Node} {n : Node}
    (ho : opener.map Located.value =
      [.marker (.opening .tag), .keyword kind.opener, .content cs, .marker (.closing .tag)])
    (hb : Spell body ns) (hc : SpellClause kind orelse ms)
    (he : closer.map Located.value =
      [.marker (.opening .tag), .keyword kind.closer, .marker (.closing .tag)])
    (hn : ∀ span s as bs, Denote as ns → Denote bs ms →
      Denote [kind.block span ⟨cs, s⟩ as bs] [n]) :
    Spell (opener ++ body ++ orelse ++ closer) [n] := by
  obtain ⟨start, s, hopener⟩ := Block.run_opener kind ho [] []
  obtain ⟨as, hras, has⟩ := hb
  obtain ⟨stop, bs, hrest, hbs⟩ := hc.run he start ⟨cs, s⟩ as
  refine ⟨[_], ?_, hn ⟨start, stop⟩ s as.reverse bs has hbs⟩
  rw [List.append_assoc, List.append_assoc]
  exact Block.run_append_eq_ok_iff.2 ⟨_, hopener,
    Block.run_append_eq_ok_iff.2 ⟨_, Block.run_within _ hras, hrest⟩⟩

/-! ## Texts of the nodes -/

theorem map_value_relocate (g : Nat → Nat) (ts : List (Located Markup.Token)) :
    (ts.map (Located.relocate g)).map Located.value = ts.map Located.value := by
  rw [List.map_map]
  rfl

theorem Spell.closed {a : List Char} {ns : List Node} (h : Spell (scan a) ns) : Closed a := by
  obtain ⟨bs, hrun, -⟩ := h
  exact Block.closed_of_run hrun rfl

/-- The text is scanned as tokens of the nodes, and a marked place may follow. -/
structure Written (a : List Char) (ns : List Node) : Prop where
  spell : Spell (scan a) ns
  clearEnd : ClearEnd a

theorem Written.closed {a : List Char} {ns : List Node} (h : Written a ns) : Closed a :=
  h.spell.closed

/-- The text of a second clause is scanned as tokens of the nodes; without one there are none. -/
inductive WrittenClause : Option (List Char) → List Node → Prop
  | nothing : WrittenClause none []
  | clause {cs : List Char} {ns : List Node} : Written cs ns → WrittenClause (some cs) ns

section

variable {header body : List Char} {orelse : Option (List Char)}
  {ns ms : List Node}

/-- The tag of the second clause and that clause, behind the first. -/
theorem WrittenClause.scan {a : List Char} (ho : WrittenClause orelse ms) (kind : Block.Kind)
    (ha : Closed a) (hf : ClearEnd a) :
    ∃ clause, scan (a ++ kind.printClause orelse) = scan a ++ clause ∧
      SpellClause kind clause ms ∧ Closed (a ++ kind.printClause orelse) ∧
      ClearEnd (a ++ kind.printClause orelse) := by
  cases ho with
  | nothing =>
    rw [Block.Kind.printClause, List.append_nil]
    exact ⟨[], (List.append_nil _).symm, .nothing, ha, hf⟩
  | clause ho =>
    have hsealed := Sealed.enclose hf .tag (unmarked_word kind.clause)
    rw [Block.Kind.printClause, ← List.append_assoc, hsealed.scan_append, ha.scan_append_enclose hf,
      List.append_assoc]
    refine ⟨_, rfl, .clause ?_ (ho.spell.shift _), ?_, ?_⟩
    · rw [map_value_relocate, values_word]
    · exact .append (hsealed.pieces_append _) hsealed.closed ho.closed
    · exact hsealed.clearEnd.append ho.clearEnd

/-- **The text of a condition or loop** is read as the node of its clauses. -/
theorem Written.print (kind : Block.Kind) {n : Node} (hne : header ≠ []) (ht : Text.Trimmed header)
    (hu : Unmarked header) (hb : Written body ns) (ho : WrittenClause orelse ms)
    (hn : ∀ span s as bs, Denote as ns → Denote bs ms →
      Denote [kind.block span ⟨header, s⟩ as bs] [n]) :
    Written (kind.print header body orelse) [n] ∧ Sealed (kind.print header body orelse) := by
  have hsealed := sealed_enclose .tag ((unmarked_word kind.opener).spaced hu)
  have hclosed := Closed.append (hsealed.pieces_append body) hsealed.closed hb.closed
  have hfree := hsealed.clearEnd.append hb.clearEnd
  obtain ⟨clause, hscan, hclause, hclosed, hfree⟩ := ho.scan kind hclosed hfree
  have hend := Sealed.enclose hfree .tag (unmarked_word kind.closer)
  refine ⟨⟨?_, hend.clearEnd⟩, hend⟩
  rw [Block.Kind.print, hclosed.scan_append_enclose hfree, hscan, hsealed.scan_append]
  refine .enclosed (values_header kind.opener hne ht hu) (hb.spell.shift _) hclause ?_ hn
  rw [map_value_relocate, values_word]

end

/-! ## Drafts -/

namespace Draft

/-- The second clause of a condition or loop that is printed, or left out if it is empty. -/
theorem writtenClause {orelse : List Draft} (clause : Bool)
    (h : Written (printAll orelse) (nodes orelse)) :
    WrittenClause (if clause || !orelse.isEmpty then some (printAll orelse) else none)
      (nodes orelse) := by
  split
  · exact .clause h
  · rename_i hempty
    obtain rfl : orelse = [] := by simp_all
    exact .nothing

/-- What is no text begins with a marker. -/
theorem exists_opening : ∀ {d : Draft}, d.isText = false →
    ∃ del cs, d.print = (Marker.opening del).chars ++ cs
  | .text _, h => by cases h
  | .value _, _ => ⟨.value, _, rfl⟩
  | .comment, _ => ⟨.comment, _, rfl⟩
  | .conditional _ _ _ _, _ | .loop _ _ _ _ _, _ => by
    simp only [print, Block.Kind.print, enclose, between, List.append_assoc]
    exact ⟨.tag, _, rfl⟩

/-- Two neighbours are scanned one by one, because they are not both text. -/
theorem pieces_print_append {d : Draft} {ds : List Draft} (hf : ClearEnd d.print)
    (hs : d.isText = false → Sealed d.print)
    (h : d.isText = true → ∀ e ∈ ds.head?, e.isText = false) :
    pieces (d.print ++ printAll ds) = pieces d.print ++ pieces (printAll ds) := by
  cases hd : d.isText with
  | false => exact (hs hd).pieces_append _
  | true =>
    cases ds with
    | nil => simp [printAll, pieces]
    | cons e ds =>
      obtain ⟨del, cs, he⟩ := exists_opening (h hd e rfl)
      rw [printAll, he, List.append_assoc]
      exact pieces_append_of_marker (apart_of_opening hf del _) (pieces_marker _ _)

mutual

/-- The text of a draft is read as its node; it ends in a marker, unless the draft is text. -/
theorem written_print : ∀ {d : Draft}, d.Proper →
    Written d.print [d.node] ∧ (d.isText = false → Sealed d.print)
  | .text cs, ⟨hn, hu, hf⟩ => by
    have hpieces := pieces_of_unmarked hn hu
    refine ⟨⟨?_, hf⟩, fun h => by cases h⟩
    rw [print, scan, hpieces]
    exact spell_text cs _
  | .value e, _ => by
    have hsealed := sealed_enclose .value e.unmarked
    exact ⟨⟨spell_value e (values_value e.text_ne_nil e.trimmed e.unmarked), hsealed.clearEnd⟩,
      fun _ => hsealed⟩
  | .comment, _ =>
    ⟨⟨spell_comment values_comment, sealed_comment.clearEnd⟩, fun _ => sealed_comment⟩
  | .conditional test body orelse clause, ⟨hb, ho⟩ => by
    have hwritten := Written.print .conditional test.text_ne_nil test.trimmed test.unmarked
      (written_printAll hb) (writtenClause clause (written_printAll ho))
      fun span s as bs ha hb => denote_conditional clause test ha hb span s
    exact ⟨hwritten.1, fun _ => hwritten.2⟩
  | .loop target iterable body orelse clause, ⟨ht, hslash, hb, ho⟩ => by
    have htrimmed : Text.Trimmed (target ++ " in ".toList ++ iterable.text) :=
      TagWords.trimmed_loopText ht iterable.text_ne_nil iterable.trimmed
    have hwritten := Written.print .loop (by simp) htrimmed
      (TagWords.unmarked_loopText ht iterable.unmarked) (written_printAll hb)
      (writtenClause clause (written_printAll ho))
      fun span s as bs ha hb => denote_loop clause ht iterable hslash ha hb span s
    exact ⟨hwritten.1, fun _ => hwritten.2⟩

/-- The text of drafts is read as their nodes. -/
theorem written_printAll : ∀ {ds : List Draft}, ProperAll ds → Written (printAll ds) (nodes ds)
  | [], _ => ⟨.nil, by decide⟩
  | d :: ds, ⟨hd, hseam, hds⟩ => by
    obtain ⟨hfirst, hsealed⟩ := written_print hd
    have hrest := written_printAll hds
    have hpieces := pieces_print_append hfirst.clearEnd hsealed hseam
    refine ⟨?_, hfirst.clearEnd.append hrest.clearEnd⟩
    rw [printAll, scan_append_of_pieces hpieces hfirst.closed]
    exact hfirst.spell.append (hrest.spell.shift _)

end

end Draft

namespace Document

/-- **What is printed is parsed as the document it was printed for**, up to the places of its nodes:
the text of drafts that can be printed is a source, and its nodes are theirs. -/
theorem parse_printAll {ds : List Draft} (h : Draft.ProperAll ds) :
    ∃ ns, parse (Draft.printAll ds) = .ok ns ∧
      ns.map Node.bare = (Draft.nodes ds).map Node.bare := by
  obtain ⟨bs, hrun, ns, hns, hbare⟩ := (Draft.written_printAll h).spell
  refine ⟨ns, ?_, hbare⟩
  rw [parse, read_eq_ok_iff.2 ⟨bs, hrun, hns⟩]
  rfl

/-- `x` -/
def samplePhrase : Phrase :=
  ⟨['x'], .name ⟨0, 1⟩ "x", by with_unfolding_all rfl, by decide, by decide⟩

/-- `f(' ')`, which is one word of a loop tag. -/
def sampleCall : Phrase :=
  ⟨"f(' ')".toList, .call ⟨0, 6⟩ (.name ⟨0, 1⟩ "f") [.literal ⟨2, 5⟩ (.str " ")] [],
    by with_unfolding_all rfl, by decide, by decide⟩

/-- A loop with a written empty clause, and braces and percent signs right beside the markers. -/
def sample : List Draft :=
  [.text ['%'],
    .loop ['x'] sampleCall
      [.value samplePhrase, .conditional samplePhrase [] [.text ['\x7d']] false] [] true,
    .comment]

theorem parse_printAll_sample :
    Draft.printAll sample = ("%\x7b% for x in f(' ') %\x7d\x7b\x7b x \x7d\x7d" ++
      "\x7b% if x %\x7d\x7b% else %\x7d\x7d\x7b% endif %\x7d" ++
      "\x7b% empty %\x7d\x7b% endfor %\x7d\x7b# #\x7d").toList ∧
    Draft.ProperAll sample ∧ ∃ ns, parse (Draft.printAll sample) = .ok ns ∧
      ns.map Node.bare = (Draft.nodes sample).map Node.bare := by
  have hproper : Draft.ProperAll sample := by
    simp only [sample, Draft.ProperAll, Draft.Proper]
    decide
  exact ⟨rfl, hproper, parse_printAll hproper⟩

end Document
end Stencil
