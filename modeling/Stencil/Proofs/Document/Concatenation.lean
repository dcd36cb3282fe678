import Stencil.Proofs.Document.Reading

/-!
# Reading two texts as one

Two sources that are read on their own and that no marker stands across are read together: the nodes
of the first, then those of the second, moved (`read_append`). Where the first ends in text and the
second begins with text, both are one node.
-/
namespace Stencil

open Markup

/-- Two texts, and both as one. -/
inductive Block.Join : Block → Block → Block → Prop
  | text (s s' : Span) (u v : List Char) :
    Block.Join (.text s u) (.text s' v) (.text (s.cover s') (u ++ v))

/-- Two texts, and both as one. -/
inductive Node.Join : Node → Node → Node → Prop
  | text (s s' : Span) (u v : String) :
    Node.Join (.text s u) (.text s' v) (.text (s.cover s') (u ++ v))

namespace Block

variable {ts us rs : List (Located Markup.Token)} {as bs : List Block}

/-- Text is read between two blocks only, and what is read then is a block of text. -/
theorem next?_content {s : State} {cs : List Char} {span : Span}
    (h : s.next? ⟨.content cs, span⟩ = some ⟨.between, as, []⟩) :
    ∃ as', s = ⟨.between, as', []⟩ ∧ as = .text span cs :: as' := by
  have hstep := step_of_next? h
  obtain ⟨mode, blocks, os⟩ := s
  dsimp only at hstep
  cases hstep with
  | text cs => exact ⟨blocks, rfl, rfl⟩

/-- What was read above blocks ends outside of all openings as it does without them. -/
theorem eq_of_above {s : State} (h : (⟨.between, bs, []⟩ : State) = s.above as []) :
    ∃ bs', s = ⟨.between, bs', []⟩ ∧ bs = bs' ++ as := by
  obtain ⟨mode, blocks, _ | ⟨o, _ | ⟨o', os⟩⟩⟩ := s
  · cases h
    exact ⟨blocks, rfl, rfl⟩
  · cases h
  · cases h

/-- The blocks of two token lists that are read on their own. -/
theorem run_seam (h : Seam Token.Join ts us rs)
    (ha : State.start.run ts = .ok ⟨.between, as, []⟩)
    (hb : State.start.run us = .ok ⟨.between, bs, []⟩) :
    ∃ cs, State.start.run rs = .ok ⟨.between, cs, []⟩ ∧
      Seam Block.Join as.reverse bs.reverse cs.reverse := by
  cases h with
  | apart =>
    refine ⟨bs ++ as, run_append_eq_ok_iff.2 ⟨_, ha, run_above as [] hb⟩, ?_⟩
    rw [List.reverse_append]
    exact .apart
  | merged ts' x y z us' hts hus hj =>
    subst hts hus
    obtain ⟨u, v, s, s'⟩ := hj
    -- the text at the end of the first list is the last block there
    obtain ⟨middle, hts', ha⟩ := run_append_eq_ok_iff.1 ha
    obtain ⟨last, hlast, ha⟩ := run_cons_eq_ok_iff.1 ha
    cases ha
    obtain ⟨as', rfl, rfl⟩ := next?_content hlast
    -- the rest of the second list is read alike above either text
    obtain ⟨first, hfirst, hb⟩ := run_cons_eq_ok_iff.1 hb
    have habove : first = State.start.above [.text s' v] [] := (Option.some.inj hfirst).symm
    rw [habove] at hb
    obtain ⟨rest, hrest, hbs⟩ := run_of_run_above hb
    obtain ⟨bs', rfl, rfl⟩ := eq_of_above hbs
    refine ⟨bs' ++ .text (s.cover s') (u ++ v) :: as', ?_, ?_⟩
    · exact run_append_eq_ok_iff.2 ⟨_, hts', run_cons_eq_ok_iff.2 ⟨_, rfl, run_above _ [] hrest⟩⟩
    · simp only [List.reverse_append, List.reverse_cons, List.reverse_nil, List.nil_append,
        List.singleton_append, List.append_assoc]
      exact .merged _ _ _ _ _ rfl rfl (.text s s' u v)

end Block

/-- The nodes of blocks at a seam. -/
theorem Node.ofBlocks_seam {as bs cs : List Block} (h : Seam Block.Join as bs cs)
    {na nb : List Node} (ha : ofBlocks as = .ok na) (hb : ofBlocks bs = .ok nb) :
    ∃ nc, ofBlocks cs = .ok nc ∧ Seam Node.Join na nb nc := by
  cases h with
  | apart => exact ⟨na ++ nb, ofBlocks_append ha hb, .apart⟩
  | merged as' x y z bs' hxs hys hj =>
    subst hxs hys
    obtain ⟨s, s', u, v⟩ := hj
    obtain ⟨na', nx, ha', hx, rfl⟩ := ofBlocks_of_append ha
    obtain ⟨ny, hy, hb⟩ := bind_eq_ok_iff.1 hb
    obtain ⟨nb', hb', hb⟩ := bind_eq_ok_iff.1 hb
    cases hx
    cases hy
    cases hb
    refine ⟨na' ++ .text (s.cover s') (String.ofList (u ++ v)) :: nb', ?_, ?_⟩
    · refine ofBlocks_append ha' ?_
      rw [ofBlocks, hb']
      rfl
    · rw [String.ofList_append]
      exact .merged _ _ _ _ _ rfl rfl (.text s s' _ _)

/-- **Two sources are read together as each is read on its own.** -/
theorem Document.read_append {a b : List Char} (h : Apart a b) {na nb : List Node}
    (ha : read a = .ok na) (hb : read b = .ok nb) :
    ∃ nc, read (a ++ b) = .ok nc ∧
      Seam Node.Join na (mapNodeSpans (Span.relocate (Text.byteLength a + ·)) nb) nc := by
  obtain ⟨as, hra, hna⟩ := read_eq_ok_iff.1 ha
  obtain ⟨bs, hrb, hnb⟩ := read_eq_ok_iff.1 hb
  have hmoved : Block.State.start.run
      ((scan b).map (Located.relocate (Text.byteLength a + ·))) = .ok ⟨.between, _, []⟩ :=
    Block.run_relocate (Text.byteLength a + ·) hrb
  have hseam := scan_append h (Block.closed_of_run hra rfl)
  obtain ⟨cs, hrc, hblocks⟩ := Block.run_seam hseam hra hmoved
  rw [← relocateBlocks_reverse] at hblocks
  have hnb := Node.ofBlocks_shift (Text.byteLength a) hnb
  obtain ⟨nc, hnc, hnodes⟩ := Node.ofBlocks_seam hblocks hna hnb
  exact ⟨nc, read_eq_ok_iff.2 ⟨cs, hrc, hnc⟩, hnodes⟩

end Stencil
