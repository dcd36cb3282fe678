import Stencil.Proofs.Expr.Place
import Stencil.Proofs.Expr.Sound

/-!
# Expressions within an expression

`subterms` lists an expression with all expressions in it. Calls and filters are checked where they
are put together, and nothing that is built around them later changes them. So in a tree that was
read no call and no filter, at any depth, is given a keyword twice, and every filter has a name
(`allChecked_of_readAt`).
-/
namespace Stencil

mutual

/-- The expression with all expressions in it, at any depth. -/
def Expr.subterms : Expr → List Expr
  | e@(.literal _ _) | e@(.name _ _) => [e]
  | e@(.attribute _ b _) => e :: b.subterms
  | e@(.index _ l r) | e@(.arith _ _ l r) | e@(.compare _ _ l r) | e@(.logic _ _ l r) =>
    e :: (l.subterms ++ r.subterms)
  | e@(.call _ c as ks) => e :: (c.subterms ++ (subtermsAll as ++ subtermsKeywords ks))
  | e@(.filter _ i _ as ks) => e :: (i.subterms ++ (subtermsAll as ++ subtermsKeywords ks))

/-- The expressions with all expressions in them. -/
def subtermsAll : List Expr → List Expr
  | [] => []
  | e :: es => e.subterms ++ subtermsAll es

/-- The values of the keyword arguments with all expressions in them. -/
def subtermsKeywords : List (Ident × Expr) → List Expr
  | [] => []
  | (_, e) :: ks => e.subterms ++ subtermsKeywords ks

end

theorem Expr.mem_subterms_self (e : Expr) : e ∈ e.subterms := by
  cases e <;> exact List.mem_cons_self

theorem subtermsAll_eq_flatMap (es : List Expr) :
    subtermsAll es = es.flatMap Expr.subterms := by
  induction es with
  | nil => rfl
  | cons e es ih => rw [subtermsAll, ih, List.flatMap_cons]

theorem subtermsKeywords_eq_flatMap (ks : List (Ident × Expr)) :
    subtermsKeywords ks = (ks.map Prod.snd).flatMap Expr.subterms := by
  induction ks with
  | nil => rfl
  | cons k ks ih =>
    obtain ⟨i, e⟩ := k
    rw [subtermsKeywords, ih, List.map_cons, List.flatMap_cons]

/-! ## What is checked -/

/-- No two of the keywords have the same name. -/
def KeywordsDiffer (ks : List (Ident × Expr)) : Prop := (ks.map fun k => k.1.name).Nodup

namespace Expr

/-- The keyword arguments of a call or a filter. -/
def keywords : Expr → List (Ident × Expr)
  | .call _ _ _ ks | .filter _ _ _ _ ks => ks
  | _ => []

/-- A call or a filter is not given a keyword twice, and a filter has a name. -/
def Checked : Expr → Prop
  | .call _ _ _ ks => KeywordsDiffer ks
  | .filter _ _ n _ ks => n.segments ≠ [] ∧ KeywordsDiffer ks
  | _ => True

theorem Checked.keywordsDiffer {e : Expr} (h : e.Checked) : KeywordsDiffer e.keywords := by
  cases e with
  | call => exact h
  | filter => exact h.2
  | _ => exact List.nodup_nil

/-- The expression and all expressions in it are checked. -/
def AllChecked (e : Expr) : Prop := ∀ x ∈ e.subterms, x.Checked

end Expr

/-- The expressions and all expressions in them are checked. -/
def EachChecked (es : List Expr) : Prop := ∀ x ∈ subtermsAll es, x.Checked

/-- The values and all expressions in them are checked. -/
def KeywordsChecked (ks : List (Ident × Expr)) : Prop := ∀ x ∈ subtermsKeywords ks, x.Checked

theorem eachChecked_nil : EachChecked [] := by simp [EachChecked, subtermsAll]

theorem eachChecked_cons {e : Expr} {es : List Expr} :
    EachChecked (e :: es) ↔ e.AllChecked ∧ EachChecked es := by
  simp only [EachChecked, subtermsAll, List.forall_mem_append, Expr.AllChecked]

theorem keywordsChecked_nil : KeywordsChecked [] := by simp [KeywordsChecked, subtermsKeywords]

theorem keywordsChecked_cons {i : Ident} {e : Expr} {ks : List (Ident × Expr)} :
    KeywordsChecked ((i, e) :: ks) ↔ e.AllChecked ∧ KeywordsChecked ks := by
  simp only [KeywordsChecked, subtermsKeywords, List.forall_mem_append, Expr.AllChecked]

namespace Expr

theorem allChecked_literal {s : Span} {v : Literal} : (literal s v).AllChecked := by
  simp [AllChecked, subterms, Checked]

theorem allChecked_name {s : Span} {x : String} : (name s x).AllChecked := by
  simp [AllChecked, subterms, Checked]

theorem allChecked_attribute {s : Span} {b : Expr} {a : Ident} :
    (Expr.attribute s b a).AllChecked ↔ b.AllChecked := by
  simp [AllChecked, subterms, Checked]

theorem allChecked_index {s : Span} {b k : Expr} :
    (index s b k).AllChecked ↔ b.AllChecked ∧ k.AllChecked := by
  simp only [AllChecked, subterms, List.forall_mem_cons, List.forall_mem_append, Checked,
    true_and]

theorem allChecked_binary {op : Operator} {l r : Expr} :
    (binary op l r).AllChecked ↔ l.AllChecked ∧ r.AllChecked := by
  cases op <;> simp only [binary, AllChecked, subterms, List.forall_mem_cons,
    List.forall_mem_append, Checked, true_and]

theorem allChecked_call {s : Span} {c : Expr} {as : List Expr} {ks : List (Ident × Expr)} :
    (call s c as ks).AllChecked ↔
      KeywordsDiffer ks ∧ c.AllChecked ∧ EachChecked as ∧ KeywordsChecked ks := by
  simp only [AllChecked, subterms, List.forall_mem_cons, List.forall_mem_append, Checked,
    EachChecked, KeywordsChecked]

theorem allChecked_filter {s : Span} {i : Expr} {n : DottedName} {as : List Expr}
    {ks : List (Ident × Expr)} : (filter s i n as ks).AllChecked ↔
      (n.segments ≠ [] ∧ KeywordsDiffer ks) ∧ i.AllChecked ∧ EachChecked as ∧
        KeywordsChecked ks := by
  simp only [AllChecked, subterms, List.forall_mem_cons, List.forall_mem_append, Checked,
    EachChecked, KeywordsChecked]

end Expr

/-! ## Climbing -/

/-- The operand is a `P`, or the filter an `F`. -/
def Segment.Has (P : Expr → Prop) (F : FilterCall → Prop) : Segment → Prop
  | .operator _ e => P e
  | .filter f => F f

namespace Expr

section
variable {P : Expr → Prop} {F : FilterCall → Prop}
  (hbinary : ∀ op l r, P l → P r → P (binary op l r))
  (hfilter : ∀ e f, P e → F f → P (applyFilter e f))
include hbinary

theorem reduce_ind (limit : Nat) : ∀ (w : Waiting) (e : Expr), (∀ p ∈ w, P p.1) → P e →
    (∀ p ∈ (reduce limit w e).1, P p.1) ∧ P (reduce limit w e).2
  | [], e, hw, he => ⟨hw, he⟩
  | (left, op) :: w, e, hw, he => by
    obtain ⟨hl, hw'⟩ := List.forall_mem_cons.1 hw
    rw [reduce]
    split
    · exact reduce_ind limit w _ hw' (hbinary op left e hl he)
    · exact ⟨hw, he⟩

theorem reduceAll_ind : ∀ (w : Waiting) (e : Expr), (∀ p ∈ w, P p.1) → P e →
    P (reduceAll w e)
  | [], e, _, he => he
  | (left, op) :: w, e, hw, he => by
    obtain ⟨hl, hw'⟩ := List.forall_mem_cons.1 hw
    exact reduceAll_ind w _ hw' (hbinary op left e hl he)

include hfilter

/-- What operators and filters preserve holds of the tree of a chain when it does of its parts. -/
theorem climbFrom_ind : ∀ (segments : List Segment) (w : Waiting) (e : Expr),
    (∀ p ∈ w, P p.1) → P e → (∀ s ∈ segments, s.Has P F) → P (climbFrom w e segments)
  | [], w, e, hw, he, _ => reduceAll_ind hbinary w e hw he
  | .operator op operand :: segments, w, e, hw, he, hs => by
    obtain ⟨ho, hs'⟩ := List.forall_mem_cons.1 hs
    obtain ⟨hw', hl⟩ := reduce_ind hbinary op.precedence w e hw he
    exact climbFrom_ind segments _ _ (List.forall_mem_cons.2 ⟨hl, hw'⟩) ho hs'
  | .filter f :: segments, w, e, hw, he, hs => by
    obtain ⟨hf, hs'⟩ := List.forall_mem_cons.1 hs
    exact climbFrom_ind segments [] _ (by simp)
      (hfilter _ f (reduceAll_ind hbinary w e hw he) hf) hs'

end

end Expr

/-! ## Reading -/

/-- The filter is not given a keyword twice and has a name, and its arguments are checked. -/
def FilterCall.Checked (f : FilterCall) : Prop :=
  (f.name.segments ≠ [] ∧ KeywordsDiffer f.keywords) ∧ EachChecked f.args ∧
    KeywordsChecked f.keywords

/-- The value of the argument is checked. -/
def Argument.Checked : Argument → Prop
  | .positional e | .keyword _ e => e.AllChecked

namespace Arguments

theorem eachChecked_positionals : ∀ (list : List Argument), (∀ a ∈ list, a.Checked) →
    EachChecked (positionals list)
  | [], _ => eachChecked_nil
  | .positional e :: list, h => by
    obtain ⟨he, h⟩ := List.forall_mem_cons.1 h
    exact eachChecked_cons.2 ⟨he, eachChecked_positionals list h⟩
  | .keyword _ _ :: list, h => eachChecked_positionals list (List.forall_mem_cons.1 h).2

theorem keywordsChecked_keywords : ∀ (list : List Argument), (∀ a ∈ list, a.Checked) →
    KeywordsChecked (keywords list)
  | [], _ => keywordsChecked_nil
  | .positional _ :: list, h => keywordsChecked_keywords list (List.forall_mem_cons.1 h).2
  | .keyword _ e :: list, h => by
    obtain ⟨he, h⟩ := List.forall_mem_cons.1 h
    exact keywordsChecked_cons.2 ⟨he, keywordsChecked_keywords list h⟩

end Arguments

namespace Parser

/-- The keywords of a list are those by which its arguments are shown. -/
theorem names_keywords : ∀ list : List (Argument × Span),
    (Arguments.keywords (list.map Prod.fst)).map (fun k => k.1.name) =
      (list.map keyword?).filterMap id
  | [] => rfl
  | (.positional _, _) :: list => names_keywords list
  | (.keyword i _, _) :: list => congrArg (i.name :: ·) (names_keywords list)

/-- **What the check of an argument list is for**: its keywords have different names. -/
theorem keywordsDiffer_of_ordered {done : List (Argument × Span)}
    (h : Arguments.Ordered (done.reverse.map keyword?)) :
    KeywordsDiffer (Arguments.keywords (arguments done)) := by
  obtain ⟨n, ks, hnames, hks⟩ := h
  have hnone : (List.replicate n (none : Option String)).filterMap id = [] := by simp
  rw [KeywordsDiffer, arguments, names_keywords, hnames, List.filterMap_append, hnone]
  simpa using hks

/-- What was read is checked as far as it goes. -/
def Part.Checked : Part → Prop
  | .unit p => p.expr.AllChecked
  | .chain c => c.first.AllChecked ∧ ∀ s ∈ c.rest, s.Has Expr.AllChecked FilterCall.Checked
  | .name f => f.segments ≠ []
  | .argument a => a.1.Checked
  | .arguments done => ∀ a ∈ done, a.1.Checked

theorem Chain.allChecked_expr {c : Chain} (h : (Part.chain c).Checked) : c.expr.AllChecked := by
  have hrest : ∀ s ∈ c.rest.reverse, s.Has Expr.AllChecked FilterCall.Checked :=
    fun s hs => h.2 s (List.mem_reverse.1 hs)
  refine Expr.climbFrom_ind (fun op l r hl hr => ?_) (fun e f he hf => ?_) _ [] _ (by simp) h.1
    hrest
  · exact Expr.allChecked_binary.2 ⟨hl, hr⟩
  · exact Expr.allChecked_filter.2 ⟨hf.1, he, hf.2⟩

theorem checked_arguments {done : List (Argument × Span)} (h : (Part.arguments done).Checked) :
    ∀ a ∈ arguments done, a.Checked := by
  intro a ha
  obtain ⟨p, hp, rfl⟩ := List.mem_map.1 ha
  exact h p (List.mem_reverse.1 hp)

theorem Chain.checked_pipe {c : Chain} {f : FilterName} {stop : Nat} {list : List Argument}
    (hc : (Part.chain c).Checked) (hf : (Part.name f).Checked)
    (hd : KeywordsDiffer (Arguments.keywords list)) (h : ∀ a ∈ list, a.Checked) :
    (Part.chain (c.pipe (f.call stop list))).Checked := by
  have hname : f.segments.reverse ≠ [] := fun he => hf (List.reverse_eq_nil_iff.1 he)
  have hcall : (f.call stop list).Checked := ⟨⟨hname, hd⟩,
    Arguments.eachChecked_positionals list h, Arguments.keywordsChecked_keywords list h⟩
  exact ⟨hc.1, List.forall_mem_cons.2 ⟨hcall, hc.2⟩⟩

/-- One rule: what is put together from checked parts is checked. -/
theorem Reads.checked {ts : List (Located Token)} {part : Part} (h : Reads ts part) :
    part.Checked := by
  induction h with
  | literal _ => exact Expr.allChecked_literal
  | name _ _ => exact Expr.allChecked_name
  | group _ _ _ hc => exact Chain.allChecked_expr hc
  | member _ _ _ _ hp => exact Expr.allChecked_attribute.2 hp
  | index _ _ _ _ hp hc => exact Expr.allChecked_index.2 ⟨hp, Chain.allChecked_expr hc⟩
  | call _ _ _ _ ho hp hd =>
    have hargs := checked_arguments hd
    exact Expr.allChecked_call.2 ⟨keywordsDiffer_of_ordered ho, hp,
      Arguments.eachChecked_positionals _ hargs, Arguments.keywordsChecked_keywords _ hargs⟩
  | first _ hp => exact ⟨hp, by simp [close]⟩
  | operator _ _ _ _ hc hp => exact ⟨hc.1, List.forall_mem_cons.2 ⟨hp, hc.2⟩⟩
  | filter _ _ hc hf => exact Chain.checked_pipe hc hf List.nodup_nil (by simp)
  | filterValue _ _ _ _ hc hf =>
    refine Chain.checked_pipe hc hf List.nodup_nil (List.forall_mem_singleton.2 ?_)
    exact Expr.allChecked_literal
  | filterCall _ _ _ _ _ ho hc hf hd =>
    exact Chain.checked_pipe hc hf (keywordsDiffer_of_ordered ho) (checked_arguments hd)
  | filterName _ _ _ => exact List.cons_ne_nil _ _
  | filterSegment _ _ _ _ _ => exact List.cons_ne_nil _ _
  | positional _ hc => exact Chain.allChecked_expr hc
  | keyword _ _ _ _ hc => exact Chain.allChecked_expr hc
  | noArguments => exact fun a ha => absurd ha (by simp)
  | oneArgument _ ha => exact List.forall_mem_cons.2 ⟨ha, by simp⟩
  | moreArguments _ _ _ hd hb => exact List.forall_mem_cons.2 ⟨hb, hd⟩

end Parser

/-- **A tree that was read is checked at every depth.** -/
theorem Expr.allChecked_of_readAt {base : Nat} {text : List Char} {e : Expr}
    (h : readAt base text = .ok e) : e.AllChecked := by
  obtain ⟨ts, -, hp⟩ := readAt_eq_ok_iff.1 h
  obtain ⟨c, hc, rfl⟩ := Parser.reads_of_parse hp
  exact Parser.Chain.allChecked_expr hc.checked

end Stencil
