import Stencil.Proofs.Source.Nesting

/-!
# Pieces of a text

A text is often cut into pieces that stand one behind the other, with characters between them that
are left out: tokens with white space between them, words with white space between them. `Strewn`
says so along the text. From it follows where the pieces stand: each is cut out of the text by its
span (`Strewn.exists_cut`), no two overlap (`Strewn.pairwise`), and every character outside of them
was left out (`Strewn.skipped`).
-/
namespace Stencil.Text

section
variable {α : Type} (skip : Char → Bool) (place : α → Span) (P : α → List Char → List Char → Prop)

/-- The text from `offset` on consists of pieces, each at its place, and of skipped characters. A
piece `a` that is the text `u` in front of `rest` satisfies `P a u rest`. -/
inductive Strewn : Nat → List Char → List α → Prop
  | done (offset : Nat) : Strewn offset [] []
  | skip {offset : Nat} {c : Char} {cs : List Char} {as : List α} : skip c = true →
      Strewn (offset + c.utf8Size) cs as → Strewn offset (c :: cs) as
  | piece {offset : Nat} {u rest : List Char} {a : α} {as : List α} : u ≠ [] →
      place a = ⟨offset, offset + byteLength u⟩ → P a u rest →
      Strewn (offset + byteLength u) rest as → Strewn offset (u ++ rest) (a :: as)

end

section
variable {α : Type} {skip : Char → Bool} {place : α → Span} {P : α → List Char → List Char → Prop}
  {offset : Nat} {text : List Char} {a : α} {as : List α}

/-- Before the first piece there are only skipped characters. -/
theorem Strewn.exists_gap (h : Strewn skip place P offset text as) : ∀ {a as'}, as = a :: as' →
    ∃ gap u rest, text = gap ++ (u ++ rest) ∧ (∀ c ∈ gap, skip c = true) ∧ u ≠ [] ∧
      place a = ⟨offset + byteLength gap, offset + byteLength gap + byteLength u⟩ ∧ P a u rest ∧
      Strewn skip place P (offset + byteLength gap + byteLength u) rest as' := by
  induction h with
  | done offset => exact nofun
  | @skip offset c cs as hc _ ih =>
    intro a as' has
    obtain ⟨gap, u, rest, rfl, hgap, hu, hplace, hP, hrest⟩ := ih has
    rw [Nat.add_assoc offset] at hplace hrest
    exact ⟨c :: gap, u, rest, rfl, List.forall_mem_cons.2 ⟨hc, hgap⟩, hu, hplace, hP, hrest⟩
  | @piece offset u rest b bs hu hplace hP hrest _ =>
    rintro a as' ⟨⟩
    exact ⟨[], u, rest, rfl, by simp, hu, hplace, hP, hrest⟩

/-- Skipped characters may stand in front. -/
theorem Strewn.behind_gap : ∀ {gap : List Char} {offset : Nat}, (∀ c ∈ gap, skip c = true) →
    Strewn skip place P (offset + byteLength gap) text as →
    Strewn skip place P offset (gap ++ text) as
  | [], _, _, h => h
  | c :: gap, offset, hgap, h => by
    obtain ⟨hc, hgap⟩ := List.forall_mem_cons.1 hgap
    rw [byteLength_cons, ← Nat.add_assoc] at h
    exact .skip hc (h.behind_gap hgap)

/-- No piece begins before the text does. -/
theorem Strewn.le_start (h : Strewn skip place P offset text as) :
    ∀ a ∈ as, offset ≤ (place a).start := by
  induction h with
  | done offset => simp
  | skip _ _ ih => exact fun a ha => Nat.le_trans (Nat.le_add_right _ _) (ih a ha)
  | piece _ hplace _ _ ih =>
    have hstart := congrArg Span.start hplace
    refine List.forall_mem_cons.2 ⟨Nat.le_of_eq hstart.symm, fun a ha => ?_⟩
    exact Nat.le_trans (Nat.le_add_right _ _) (ih a ha)

/-- **The pieces stand one behind the other.** -/
theorem Strewn.pairwise (h : Strewn skip place P offset text as) :
    as.Pairwise fun a b => (place a).stop ≤ (place b).start := by
  induction h with
  | done offset => exact .nil
  | skip _ _ ih => exact ih
  | piece _ hplace _ hrest ih =>
    refine .cons (fun b hb => ?_) ih
    rw [hplace]
    exact hrest.le_start b hb

/-- **Each piece is cut out of the source by its place.** -/
theorem Strewn.exists_cut (h : Strewn skip place P offset text as) :
    ∀ source front : List Char, source = front ++ text → byteLength front = offset →
    ∀ a ∈ as, ∃ before u rest, source = before ++ (u ++ rest) ∧ u ≠ [] ∧
      place a = ⟨byteLength before, byteLength before + byteLength u⟩ ∧ P a u rest := by
  induction h with
  | done offset => simp
  | @skip offset c cs as _ _ ih =>
    intro source front hsource hfront
    exact ih source (front ++ [c]) (by simp [hsource]) (by simp [hfront])
  | @piece offset u rest b bs hu hplace hP _ ih =>
    intro source front hsource hfront
    have hrest := ih source (front ++ u) (by simp [hsource]) (by simp [hfront])
    exact List.forall_mem_cons.2 ⟨⟨front, u, rest, hsource, hu, by rw [hplace, hfront], hP⟩, hrest⟩

/-- **What stands outside of all pieces was skipped.** -/
theorem Strewn.skipped (h : Strewn skip place P offset text as) :
    ∀ {before after : List Char} {c : Char}, text = before ++ c :: after →
    (∀ a ∈ as, offset + byteLength before < (place a).start ∨
      (place a).stop ≤ offset + byteLength before) → skip c = true := by
  induction h with
  | done offset => simp
  | @skip offset d cs as hd _ ih =>
    intro before after c htext hout
    cases before with
    | nil => exact (List.cons.inj htext).1 ▸ hd
    | cons e before =>
      obtain ⟨rfl, hcs⟩ := List.cons.inj htext
      refine ih hcs ?_
      rwa [Nat.add_assoc]
  | @piece offset u rest b bs _ hplace _ _ ih =>
    intro before after c htext hout
    obtain ⟨hb, hbs⟩ := List.forall_mem_cons.1 hout
    rcases List.append_eq_append_iff.1 htext with ⟨x, rfl, hrest⟩ | ⟨x, rfl, hx⟩
    · refine ih hrest ?_
      rwa [byteLength_append, ← Nat.add_assoc] at hbs
    · -- the character stands in the piece unless the piece ends right before it
      rw [hplace, byteLength_append] at hb
      cases x with
      | nil =>
        refine @ih [] after c (by simpa using hx.symm) ?_
        simpa using hbs
      | cons e x =>
        have hsize := e.utf8Size_pos
        rw [byteLength_cons] at hb
        dsimp only at hb
        omega

end

end Stencil.Text
