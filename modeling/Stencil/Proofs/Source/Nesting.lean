import Stencil.Proofs.Source.Location
import Stencil.Source

/-!
# Nested places

What is read from a source is a tree of places. Such a tree is nested when every place is a piece of
the source, which is not empty and is cut between characters, and holds its parts in order and
without overlap (`Places.Nested`, `Row`). A row stays one when neighbours are put together under the
place they cover (`Nested.of_row`), which is what a parser does.
-/
namespace Stencil

namespace Text

/-! ## Pieces of a source -/

/-- The source holds the text at byte `base`. -/
def At (source : List Char) (base : Nat) (text : List Char) : Prop :=
  ∃ before after, source = before ++ (text ++ after) ∧ byteLength before = base

variable {source text u v : List Char} {base offset : Nat}

theorem At.refl (source : List Char) : At source 0 source := ⟨[], [], by simp, rfl⟩

theorem At.left (h : At source base (u ++ v)) : At source base u := by
  obtain ⟨before, after, rfl, hbase⟩ := h
  exact ⟨before, v ++ after, by simp, hbase⟩

theorem At.right (h : At source base (u ++ v)) : At source (base + byteLength u) v := by
  obtain ⟨before, after, rfl, rfl⟩ := h
  exact ⟨before ++ u, after, by simp, byteLength_append before u⟩

theorem At.trans (h : At source base u) (hv : At u offset v) : At source (base + offset) v := by
  obtain ⟨before, after, rfl, rfl⟩ := hv
  rw [← List.append_assoc] at h
  exact h.left.right

/-- What stands behind texts of one length in the same source is the same. -/
theorem eq_of_append_eq {w x : List Char} (h : u ++ v = w ++ x) (hl : byteLength u = byteLength w) :
    v = x := by
  have hdrop := dropBytes_byteLength u v
  rw [h, hl, dropBytes_byteLength] at hdrop
  exact (Option.some.inj hdrop).symm

theorem At.boundary (h : At source base text) : IsBoundary source base := by
  obtain ⟨before, after, hsource, hbase⟩ := h
  exact ⟨before, text ++ after, hsource, hbase⟩

theorem At.boundary_stop (h : At source base text) :
    IsBoundary source (base + byteLength text) := by
  have hnil : At source base (text ++ []) := by rwa [List.append_nil]
  exact hnil.right.boundary

theorem isBoundary_byteLength (source : List Char) : IsBoundary source (byteLength source) :=
  ⟨source, [], (List.append_nil source).symm, rfl⟩

theorem IsBoundary.le {n : Nat} (h : IsBoundary source n) : n ≤ byteLength source := by
  obtain ⟨before, after, rfl, rfl⟩ := h
  rw [byteLength_append]
  exact Nat.le_add_right _ _

/-- What the source holds somewhere is cut out of it there. -/
theorem At.slice (h : At source base text) :
    slice source base (base + byteLength text) = some text := by
  obtain ⟨before, after, rfl, rfl⟩ := h
  rw [Text.slice, dropBytes_byteLength]
  simp only [Option.bind_eq_bind, Option.bind_some, if_pos (Nat.le_add_right _ _),
    Nat.add_sub_cancel_left, takeBytes_byteLength]

theorem byteLength_pos (h : text ≠ []) : 0 < byteLength text := by
  obtain ⟨c, cs, rfl⟩ := List.exists_cons_of_ne_nil h
  exact Nat.lt_of_lt_of_le c.utf8Size_pos (Nat.le_add_right _ _)

end Text

/-- The span is a piece of the source, not empty and cut between characters. -/
structure Span.Proper (source : List Char) (s : Span) : Prop where
  lt : s.start < s.stop
  start : Text.IsBoundary source s.start
  stop : Text.IsBoundary source s.stop

theorem Text.At.proper {source text : List Char} {base : Nat} (h : At source base text)
    (hn : text ≠ []) : Span.Proper source ⟨base, base + byteLength text⟩ :=
  ⟨Nat.lt_add_of_pos_right (byteLength_pos hn), h.boundary, h.boundary_stop⟩

/-- The span can be cut out of the source; unlike a proper one it may be empty. -/
structure Span.Usable (source : List Char) (s : Span) : Prop where
  le : s.start ≤ s.stop
  start : Text.IsBoundary source s.start
  stop : Text.IsBoundary source s.stop

theorem Span.Proper.usable {source : List Char} {s : Span} (h : s.Proper source) :
    s.Usable source := ⟨Nat.le_of_lt h.lt, h.start, h.stop⟩

theorem Text.IsBoundary.usable {source : List Char} {n : Nat} (h : IsBoundary source n) :
    Span.Usable source ⟨n, n⟩ := ⟨Nat.le_refl n, h, h⟩

theorem Text.At.usable {source text : List Char} {base : Nat} (h : At source base text) :
    Span.Usable source ⟨base, base + byteLength text⟩ :=
  ⟨Nat.le_add_right _ _, h.boundary, h.boundary_stop⟩

/-- The source is cut between two boundaries. -/
theorem Span.Usable.slice {source : List Char} {s : Span} (h : s.Usable source) :
    ∃ text, Text.slice source s.start s.stop = some text := by
  obtain ⟨hle, ⟨front, rest, hsource, hstart⟩, before, after, rfl, hstop⟩ := h
  rcases List.append_eq_append_iff.1 hsource with ⟨as, rfl, rfl⟩ | ⟨text, rfl, rfl⟩
  · -- the end lies before the start unless nothing is between them
    have hnil : as = [] := by
      refine Classical.byContradiction fun hne => ?_
      have hpos := Text.byteLength_pos hne
      rw [Text.byteLength_append] at hstart
      omega
    subst hnil
    refine ⟨[], ?_⟩
    have hat : Text.At (before ++ rest) s.start [] := ⟨before, rest, rfl, by simpa using hstart⟩
    have hsame : s.stop = s.start := by rw [← hstop, ← hstart, List.append_nil]
    simpa [hsame] using hat.slice
  · have hat : Text.At (front ++ text ++ after) s.start text := ⟨front, after, by simp, hstart⟩
    rw [← hstop, Text.byteLength_append, hstart]
    exact ⟨text, hat.slice⟩

/-! ## Trees of places -/

/-- A place with the places of its parts, in the order in which they are written. -/
inductive Places
  | node (span : Span) (parts : List Places)

namespace Places

def span : Places → Span
  | .node s _ => s

/-- A place without parts. -/
def leaf (s : Span) : Places := .node s []

@[simp] theorem span_node (s : Span) (ps : List Places) : (node s ps).span = s := rfl

@[simp] theorem span_leaf (s : Span) : (leaf s).span = s := rfl

end Places

mutual

/-- The place and all places in it are proper; each holds its parts in order. -/
def Places.Nested (source : List Char) : Places → Prop
  | .node s parts => s.Proper source ∧ Row source s.start s.stop parts

/-- The places stand one behind the other between two offsets, and each is nested. -/
def Row (source : List Char) : Nat → Nat → List Places → Prop
  | start, stop, [] => start ≤ stop
  | start, stop, t :: ts => start ≤ t.span.start ∧ t.Nested source ∧ Row source t.span.stop stop ts

end

mutual

/-- All spans of a place, its own first. -/
def Places.spans : Places → List Span
  | .node s parts => s :: spansAll parts

/-- All spans of the places. -/
def spansAll : List Places → List Span
  | [] => []
  | t :: ts => t.spans ++ spansAll ts

end

section
variable {s : Span} {t : Places} {ts us : List Places} {P : Span → Prop}

theorem forall_spans_node :
    (∀ r ∈ (Places.node s ts).spans, P r) ↔ P s ∧ ∀ r ∈ spansAll ts, P r := List.forall_mem_cons

theorem forall_spansAll_cons :
    (∀ r ∈ spansAll (t :: ts), P r) ↔ (∀ r ∈ t.spans, P r) ∧ ∀ r ∈ spansAll ts, P r :=
  List.forall_mem_append

theorem spansAll_append (ts us : List Places) :
    spansAll (ts ++ us) = spansAll ts ++ spansAll us := by
  induction ts with
  | nil => rfl
  | cons t ts ih => rw [List.cons_append, spansAll, spansAll, ih, List.append_assoc]

theorem forall_spansAll_append :
    (∀ r ∈ spansAll (ts ++ us), P r) ↔ (∀ r ∈ spansAll ts, P r) ∧ ∀ r ∈ spansAll us, P r := by
  rw [spansAll_append, List.forall_mem_append]

end

section
variable {source : List Char} {a b c d : Nat} {s : Span} {t : Places} {ts us vs parts : List Places}

theorem Places.Nested.proper (h : t.Nested source) : t.span.Proper source := by
  obtain ⟨s, parts⟩ := t
  exact h.1

theorem Places.nested_leaf : (leaf s).Nested source ↔ s.Proper source :=
  ⟨fun h => h.1, fun h => ⟨h, Nat.le_of_lt h.lt⟩⟩

/-! ## Rows -/

@[simp] theorem row_nil : Row source a b [] ↔ a ≤ b := Iff.rfl

theorem row_cons : Row source a b (t :: ts) ↔
    a ≤ t.span.start ∧ t.Nested source ∧ Row source t.span.stop b ts := Iff.rfl

theorem row_append : ∀ {ts : List Places} {a : Nat},
    Row source a b (ts ++ us) ↔ ∃ m, Row source a m ts ∧ Row source m b us
  | [], a => by
    refine ⟨fun h => ⟨a, Nat.le_refl a, h⟩, fun ⟨m, ham, h⟩ => ?_⟩
    cases us with
    | nil => exact Nat.le_trans ham h
    | cons u us => exact ⟨Nat.le_trans ham h.1, h.2⟩
  | t :: ts, a => by
    rw [List.cons_append, row_cons, row_append]
    constructor
    · rintro ⟨hat, ht, m, hts, hus⟩
      exact ⟨m, ⟨hat, ht, hts⟩, hus⟩
    · rintro ⟨m, ⟨hat, ht, hts⟩, hus⟩
      exact ⟨hat, ht, m, hts, hus⟩

theorem Row.append (h : Row source a b ts) (hu : Row source b c us) : Row source a c (ts ++ us) :=
  row_append.2 ⟨b, h, hu⟩

theorem Row.mono (h : Row source a b ts) (hc : c ≤ a) (hd : b ≤ d) : Row source c d ts := by
  have hleft : Row source c b ([] ++ ts) := Row.append hc h
  have hright : Row source c d (ts ++ []) := hleft.append hd
  rwa [List.append_nil] at hright

theorem Row.le : ∀ {ts : List Places} {a : Nat}, Row source a b ts → a ≤ b
  | [], _, h => h
  | _ :: _, _, ⟨hat, ht, h⟩ => Nat.le_trans hat (Nat.le_trans (Nat.le_of_lt ht.proper.lt) h.le)

/-- All places of a row are nested. -/
theorem Row.nested : ∀ {ts : List Places} {a : Nat}, Row source a b ts → ∀ t ∈ ts, t.Nested source
  | [], _, _ => List.forall_mem_nil _
  | _ :: _, _, ⟨_, ht, h⟩ => List.forall_mem_cons.2 ⟨ht, h.nested⟩

theorem Row.lt (h : Row source a b ts) (hn : ts ≠ []) : a < b := by
  obtain ⟨t, ts, rfl⟩ := List.exists_cons_of_ne_nil hn
  obtain ⟨hat, ht, h⟩ := h
  exact Nat.lt_of_le_of_lt hat (Nat.lt_of_lt_of_le ht.proper.lt h.le)

@[simp] theorem row_singleton : Row source a b [t] ↔
    a ≤ t.span.start ∧ t.Nested source ∧ t.span.stop ≤ b := Iff.rfl

/-- Places may be left out of a row. -/
theorem Row.sublist (h : ts.Sublist us) : ∀ {a : Nat}, Row source a b us → Row source a b ts := by
  induction h with
  | slnil => exact id
  | cons u _ ih =>
    intro a ⟨hau, hu, hus⟩
    exact (ih hus).mono (Nat.le_trans hau (Nat.le_of_lt hu.proper.lt)) (Nat.le_refl b)
  | cons_cons u _ ih => exact fun ⟨hau, hu, hus⟩ => ⟨hau, hu, ih hus⟩

/-- A row may end where its last place does. -/
theorem Row.last (h : Row source a b (ts ++ [t])) :
    Row source a t.span.stop (ts ++ [t]) ∧ t.span.Proper source ∧ t.span.stop ≤ b := by
  obtain ⟨m, hts, hmt, ht, hb⟩ := row_append.1 h
  exact ⟨hts.append ⟨hmt, ht, Nat.le_refl _⟩, ht.proper, hb⟩

/-- Some of the places of a row are replaced. -/
theorem Row.replace (h : Row source a b (ts ++ us))
    (hu : ∀ m, Row source m b us → Row source m b vs) : Row source a b (ts ++ vs) := by
  obtain ⟨m, hts, hus⟩ := row_append.1 h
  exact hts.append (hu m hus)

/-- What stands in a row is nested under the place that it covers. -/
theorem Places.Nested.of_row (h : Row source a b parts) (hn : parts ≠ [])
    (ha : Text.IsBoundary source a) (hb : Text.IsBoundary source b) :
    (node ⟨a, b⟩ parts).Nested source := ⟨⟨h.lt hn, ha, hb⟩, h⟩

/-- A row is put together, from its first place to its end. -/
theorem Row.cover (h : Row source a b (t :: ts)) (hb : Text.IsBoundary source b) :
    Row source a b [.node ⟨t.span.start, b⟩ (t :: ts)] := by
  obtain ⟨hat, ht, hts⟩ := h
  have hparts : Row source t.span.start b (t :: ts) := ⟨Nat.le_refl _, ht, hts⟩
  exact ⟨hat, .of_row hparts (List.cons_ne_nil t ts) ht.proper.start hb, Nat.le_refl b⟩

/-- A row is put together, from its first place to its last. -/
theorem Row.cover_last {u : Places} (h : Row source a b (t :: ts ++ [u])) :
    Row source a b [.node (t.span.cover u.span) (t :: ts ++ [u])] := by
  obtain ⟨hrow, hu, hb⟩ := h.last
  exact (Row.cover hrow hu.stop).mono (Nat.le_refl a) hb

/-- A row is put together up to a last place which is not part of the whole, such as a bracket. -/
theorem Row.cover_before {u : Places} (h : Row source a b (t :: ts ++ [u])) :
    Row source a b [.node (t.span.cover u.span) (t :: ts)] := by
  obtain ⟨hrow, hu, hb⟩ := h.last
  have hbefore := hrow.sublist (List.sublist_append_left (t :: ts) [u])
  exact (Row.cover hbefore hu.stop).mono (Nat.le_refl a) hb

end

mutual

theorem Places.Nested.spans {source : List Char} :
    ∀ {t : Places}, t.Nested source → ∀ s ∈ t.spans, s.Proper source
  | .node _ _, h => forall_spans_node.2 ⟨h.1, h.2.spans⟩

/-- All spans of a row are proper. -/
theorem Row.spans {source : List Char} : ∀ {ts : List Places} {a b : Nat},
    Row source a b ts → ∀ s ∈ spansAll ts, s.Proper source
  | [], _, _, _ => by simp [spansAll]
  | _ :: _, _, _, ⟨_, ht, hts⟩ => forall_spansAll_cons.2 ⟨ht.spans, hts.spans⟩

end

end Stencil
