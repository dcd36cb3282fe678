import Stencil.Expr.Parser

/-!
# The parser does not look at positions

Positions go through the parser untouched: when every offset of the tokens is changed by one and the
same `g`, the tree and the fault are those from before with their offsets changed by `g`
(`parse_relocate`). A step of the parser moves nothing but the offsets it was given, whatever they
are, so `g` need not even be monotone; moving a text (`base + ·`) and cutting positions off at an
end (`min stop`) are the two that are used.
-/
namespace Stencil

/-- The span with its ends changed by `g`. -/
def Span.relocate (g : Nat → Nat) (s : Span) : Span := ⟨g s.start, g s.stop⟩

@[simp] theorem Span.relocate_mk (g : Nat → Nat) (a b : Nat) :
    (⟨a, b⟩ : Span).relocate g = ⟨g a, g b⟩ := rfl

@[simp] theorem Span.relocate_cover (g : Nat → Nat) (a b : Span) :
    (a.cover b).relocate g = (a.relocate g).cover (b.relocate g) := rfl

@[simp] theorem Span.start_relocate (g : Nat → Nat) (s : Span) :
    (s.relocate g).start = g s.start := rfl

@[simp] theorem Span.stop_relocate (g : Nat → Nat) (s : Span) :
    (s.relocate g).stop = g s.stop := rfl

/-- The piece of source with its place changed by `g`. -/
def Located.relocate {α : Type} (g : Nat → Nat) (t : Located α) : Located α :=
  ⟨t.value, t.span.relocate g⟩

@[simp] theorem Located.value_relocate {α : Type} (g : Nat → Nat) (t : Located α) :
    (t.relocate g).value = t.value := rfl

@[simp] theorem Located.span_relocate {α : Type} (g : Nat → Nat) (t : Located α) :
    (t.relocate g).span = t.span.relocate g := rfl

variable (g : Nat → Nat)

/-! ## Trees -/

theorem Expr.span_mapSpan (f : Span → Span) (e : Expr) : (e.mapSpan f).span = f e.span := by
  cases e <;> rfl

/-- The expression with every offset changed by `g`. -/
def Expr.relocate (e : Expr) : Expr := e.mapSpan (Span.relocate g)

@[simp] theorem Expr.span_relocate (e : Expr) : (e.relocate g).span = e.span.relocate g :=
  e.span_mapSpan _

@[simp] theorem Expr.relocate_index (s : Span) (b k : Expr) :
    (Expr.index s b k).relocate g = .index (s.relocate g) (b.relocate g) (k.relocate g) := rfl

@[simp] theorem Expr.relocate_call (s : Span) (c : Expr) (as : List Expr)
    (ks : List (Ident × Expr)) : (Expr.call s c as ks).relocate g =
      .call (s.relocate g) (c.relocate g) (mapSpans (Span.relocate g) as)
        (mapKeywordSpans (Span.relocate g) ks) := rfl

/-- The name with its offsets changed by `g`. -/
def Ident.relocate (i : Ident) : Ident := i.mapSpan (Span.relocate g)

def FilterCall.relocate (f : FilterCall) : FilterCall :=
  ⟨f.span.relocate g, f.name.mapSpan (Span.relocate g), mapSpans (Span.relocate g) f.args,
    mapKeywordSpans (Span.relocate g) f.keywords⟩

def Segment.relocate : Segment → Segment
  | .operator op e => .operator op (e.relocate g)
  | .filter f => .filter (f.relocate g)

def Argument.relocate : Argument → Argument
  | .positional e => .positional (e.relocate g)
  | .keyword k e => .keyword (k.relocate g) (e.relocate g)

theorem Arguments.positionals_relocate : ∀ list : List Argument,
    positionals (list.map (Argument.relocate g)) = mapSpans (Span.relocate g) (positionals list)
  | [] => rfl
  | .positional e :: rest => by
    simp [positionals, Argument.relocate, mapSpans, positionals_relocate rest, Expr.relocate]
  | .keyword k e :: rest => by
    simp [positionals, Argument.relocate, positionals_relocate rest]

theorem Arguments.keywords_relocate : ∀ list : List Argument,
    keywords (list.map (Argument.relocate g)) =
      mapKeywordSpans (Span.relocate g) (keywords list)
  | [] => rfl
  | .positional e :: rest => by simp [keywords, Argument.relocate, keywords_relocate rest]
  | .keyword k e :: rest => by
    simp [keywords, Argument.relocate, mapKeywordSpans, keywords_relocate rest, Expr.relocate,
      Ident.relocate]

/-! ## Climbing -/

namespace Expr

theorem binary_relocate (op : Operator) (l r : Expr) :
    (binary op l r).relocate g = binary op (l.relocate g) (r.relocate g) := by
  simp only [binary, span_relocate]
  cases op <;> rfl

theorem applyFilter_relocate (e : Expr) (f : FilterCall) :
    (applyFilter e f).relocate g = applyFilter (e.relocate g) (f.relocate g) := by
  simp only [applyFilter, span_relocate]
  rfl

/-- The operators that wait, with the offsets of their operands changed. -/
def Waiting.relocate (w : Waiting) : Waiting := w.map fun p => (p.1.relocate g, p.2)

theorem reduce_relocate (limit : Nat) : ∀ (w : Waiting) (e : Expr),
    reduce limit (Waiting.relocate g w) (e.relocate g) =
      ((reduce limit w e).1.relocate g, (reduce limit w e).2.relocate g)
  | [], e => rfl
  | (left, op) :: w, e => by
    have ih := reduce_relocate limit w (binary op left e)
    simp only [Waiting.relocate, List.map_cons, reduce] at ih ⊢
    split
    · rw [← binary_relocate, ih]
    · rfl

theorem reduceAll_relocate : ∀ (w : Waiting) (e : Expr),
    reduceAll (Waiting.relocate g w) (e.relocate g) = (reduceAll w e).relocate g
  | [], e => rfl
  | (left, op) :: w, e => by
    have ih := reduceAll_relocate w (binary op left e)
    simp only [Waiting.relocate, List.map_cons, reduceAll] at ih ⊢
    rw [← binary_relocate, ih]

theorem climbFrom_relocate : ∀ (segments : List Segment) (w : Waiting) (e : Expr),
    climbFrom (Waiting.relocate g w) (e.relocate g) (segments.map (Segment.relocate g)) =
      (climbFrom w e segments).relocate g
  | [], w, e => reduceAll_relocate g w e
  | .operator op operand :: segments, w, e => by
    simp only [List.map_cons, Segment.relocate, climbFrom, reduce_relocate]
    exact climbFrom_relocate segments
      (((reduce op.precedence w e).2, op) :: (reduce op.precedence w e).1) operand
  | .filter f :: segments, w, e => by
    simp only [List.map_cons, Segment.relocate, climbFrom, reduceAll_relocate,
      ← applyFilter_relocate]
    exact climbFrom_relocate segments [] _

theorem climb_relocate (first : Expr) (segments : List Segment) :
    climb (first.relocate g) (segments.map (Segment.relocate g)) =
      (climb first segments).relocate g := climbFrom_relocate g segments [] first

end Expr

namespace Parser

/-! ## States -/

def Phrase.relocate (p : Phrase) : Phrase := ⟨p.expr.relocate g, p.extent.relocate g⟩

def Chain.relocate (c : Chain) : Chain :=
  ⟨c.first.relocate g, c.rest.map (Segment.relocate g), c.extent.relocate g⟩

def Left.relocate (left : Left) : Left := left.map fun l => (l.1.relocate g, l.2)

def ArgumentList.relocate (l : ArgumentList) : ArgumentList :=
  ⟨l.done.map fun a => (a.1.relocate g, a.2.relocate g), l.keyword.map (Ident.relocate g)⟩

def FilterName.relocate (f : FilterName) : FilterName :=
  ⟨g f.start, f.segments.map (Ident.relocate g)⟩

def Opening.relocate : Opening → Opening
  | .group left start => .group (Left.relocate g left) (g start)
  | .index left base => .index (Left.relocate g left) (base.relocate g)
  | .call left callee args => .call (Left.relocate g left) (callee.relocate g) (args.relocate g)
  | .filterCall chain name args =>
    .filterCall (chain.relocate g) (name.relocate g) (args.relocate g)

def Mode.relocate : Mode → Mode
  | .operand left => .operand (Left.relocate g left)
  | .unit left p bare => .unit (Left.relocate g left) (p.relocate g) bare
  | .attribute left base => .attribute (Left.relocate g left) (base.relocate g)
  | .filterName chain name => .filterName (chain.relocate g) (name.relocate g)
  | .filterNamed chain name => .filterNamed (chain.relocate g) (name.relocate g)
  | .filterValue chain name => .filterValue (chain.relocate g) (name.relocate g)
  | .filtered chain => .filtered (chain.relocate g)

/-- The state with every offset changed by `g`. -/
def State.relocate (s : State) : State :=
  ⟨s.mode.relocate g, s.openings.map (Opening.relocate g)⟩

/-- The failure with its place changed by `g`. -/
def Failure.relocate (f : Failure) : Failure := ⟨f.problem, f.span.relocate g⟩

/-! ## Complete pieces -/

theorem Chain.expr_relocate (c : Chain) : (c.relocate g).expr = c.expr.relocate g := by
  rw [Chain.expr, Chain.expr, ← Expr.climb_relocate, List.map_reverse]
  rfl

theorem close_relocate (left : Left) (p : Phrase) :
    close (Left.relocate g left) (p.relocate g) = (close left p).relocate g := by
  cases left <;> rfl

theorem FilterName.stop_relocate (f : FilterName) : (f.relocate g).stop = g f.stop := by
  obtain ⟨start, _ | ⟨i, is⟩⟩ := f <;> rfl

theorem FilterName.call_relocate (f : FilterName) (stop : Nat) (args : List Argument) :
    (f.relocate g).call (g stop) (args.map (Argument.relocate g)) =
      (f.call stop args).relocate g := by
  simp only [FilterName.call, FilterCall.relocate, Arguments.positionals_relocate,
    Arguments.keywords_relocate, DottedName.mapSpan, FilterName.relocate, List.map_reverse]
  rfl

theorem Chain.pipe_relocate (c : Chain) (f : FilterCall) :
    (c.relocate g).pipe (f.relocate g) = (c.pipe f).relocate g := rfl

theorem Mode.chain?_relocate (m : Mode) :
    (m.relocate g).chain? = m.chain?.map (Chain.relocate g) := by
  cases m with
  | unit left p bare => simp [Mode.relocate, Mode.chain?, close_relocate]
  | filterNamed chain name =>
    have h := FilterName.call_relocate g name name.stop []
    simp only [Mode.relocate, Mode.chain?, Option.map_some, FilterName.stop_relocate,
      ← Chain.pipe_relocate, ← h, List.map_nil]
  | _ => rfl

theorem ArgumentList.add_relocate (l : ArgumentList) (c : Chain) :
    (l.relocate g).add (c.relocate g) = (l.add c).relocate g := by
  obtain ⟨done, _ | k⟩ := l <;>
    simp [ArgumentList.add, ArgumentList.relocate, Chain.expr_relocate, Argument.relocate] <;> rfl

/-! ## Steps -/

theorem afterChain_relocate (c : Chain) (os : List Opening) (t : Located Token) :
    afterChain (c.relocate g) (os.map (Opening.relocate g)) (t.relocate g) =
      (afterChain c os t).map (State.relocate g) := by
  obtain ⟨value, span⟩ := t
  -- only the tokens that close an opening or an argument put trees together
  rcases os with _ | ⟨_ | _ | _ | _, os⟩ <;> cases value <;> try rfl
  case cons.group.rparen left start =>
    simp [afterChain, Opening.relocate, State.relocate, Mode.relocate, Phrase.relocate,
      Chain.expr_relocate]
  case cons.index.rbracket left base =>
    simp [afterChain, Opening.relocate, State.relocate, Mode.relocate, Phrase.relocate,
      Chain.expr_relocate]
  case cons.call.comma left callee args =>
    simp [afterChain, Opening.relocate, State.relocate, Mode.relocate, ArgumentList.add_relocate,
      Left.relocate]
  case cons.filterCall.comma chain name args =>
    simp [afterChain, Opening.relocate, State.relocate, Mode.relocate, ArgumentList.add_relocate,
      Left.relocate]

theorem arguments_relocate (l : ArgumentList) :
    (l.relocate g).done.reverse.map Prod.fst =
      (l.done.reverse.map Prod.fst).map (Argument.relocate g) := by
  simp [ArgumentList.relocate, List.map_reverse, Function.comp_def]

theorem endArguments_relocate (l : ArgumentList) (o : Opening) (os : List Opening)
    (t : Located Token) :
    endArguments (l.relocate g) (o.relocate g) (os.map (Opening.relocate g)) (t.relocate g) =
      (endArguments l o os t).map (State.relocate g) := by
  cases o with
  | group left start => rfl
  | index left base => rfl
  | call left callee args =>
    simp only [Opening.relocate, endArguments, arguments_relocate, Arguments.positionals_relocate,
      Arguments.keywords_relocate, Option.map_some, State.relocate, Mode.relocate, Phrase.relocate,
      Expr.span_relocate, Located.span_relocate, Expr.relocate_call, Span.relocate_cover]
  | filterCall chain name args =>
    simp only [Opening.relocate, endArguments, arguments_relocate, Located.span_relocate,
      Span.stop_relocate, FilterName.call_relocate, Chain.pipe_relocate, Option.map_some]
    rfl

/-- What is done with a complete chain is done with the chain that was moved. -/
theorem chain?_bind_relocate (mode : Mode) (next next' : Chain → Option State)
    (h : ∀ c, next' (c.relocate g) = (next c).map (State.relocate g)) :
    (mode.relocate g).chain?.bind next' = (mode.chain?.bind next).map (State.relocate g) := by
  rw [Mode.chain?_relocate]
  cases mode.chain? with
  | none => rfl
  | some c => exact h c

theorem bind_afterChain_relocate (mode : Mode) (os : List Opening) (t : Located Token) :
    (mode.relocate g).chain?.bind (fun c => afterChain c (os.map (Opening.relocate g))
        (t.relocate g)) =
      (mode.chain?.bind fun c => afterChain c os t).map (State.relocate g) :=
  chain?_bind_relocate g mode (fun c => afterChain c os t) _ fun c =>
    afterChain_relocate g c os t

theorem bind_endArguments_relocate (mode : Mode) (l : ArgumentList) (o : Opening)
    (os : List Opening) (t : Located Token) :
    (mode.relocate g).chain?.bind (fun c => endArguments ((l.relocate g).add c) (o.relocate g)
        (os.map (Opening.relocate g)) (t.relocate g)) =
      (mode.chain?.bind fun c => endArguments (l.add c) o os t).map (State.relocate g) :=
  chain?_bind_relocate g mode (fun c => endArguments (l.add c) o os t) _ fun c => by
    rw [ArgumentList.add_relocate, endArguments_relocate]

theorem atFirstArgument_relocate (os : List Opening) :
    atFirstArgument (os.map (Opening.relocate g)) = atFirstArgument os := by
  rcases os with _ | ⟨_ | _ | _ | _, os⟩ <;>
    simp [atFirstArgument, Opening.relocate, ArgumentList.relocate]

theorem next?_operand_rparen_relocate (left : Left) (os : List Opening) (span : Span) :
    ((⟨.operand left, os⟩ : State).relocate g).next? (Located.relocate g ⟨.rparen, span⟩) =
      ((⟨.operand left, os⟩ : State).next? ⟨.rparen, span⟩).map (State.relocate g) := by
  rcases left with _ | ⟨c, op⟩
  · rcases os with _ | ⟨o, os⟩
    · rfl
    · have hfirst := atFirstArgument_relocate g (o :: os)
      have hend := endArguments_relocate g .empty o os ⟨.rparen, span⟩
      change (if atFirstArgument (o.relocate g :: os.map (Opening.relocate g)) then
          endArguments (ArgumentList.relocate g .empty) _ _ _ else none) =
        Option.map _ (if atFirstArgument (o :: os) then _ else none)
      rw [← List.map_cons, hfirst, hend]
      split <;> rfl
  · rcases os with _ | ⟨_ | _ | _ | _, os⟩ <;> rfl

theorem next?_rparen_relocate (mode : Mode) (hm : ∀ left, mode ≠ .operand left)
    (os : List Opening) (span : Span) :
    ((⟨mode, os⟩ : State).relocate g).next? (Located.relocate g ⟨.rparen, span⟩) =
      ((⟨mode, os⟩ : State).next? ⟨.rparen, span⟩).map (State.relocate g) := by
  have hchain := bind_afterChain_relocate g mode os ⟨.rparen, span⟩
  rcases os with _ | ⟨_ | _ | ⟨left, callee, l⟩ | ⟨chain, name, l⟩, os⟩
  case cons.call =>
    have hend := bind_endArguments_relocate g mode l (.call left callee l) os ⟨.rparen, span⟩
    cases mode <;> first | exact absurd rfl (hm _) | exact hend
  case cons.filterCall =>
    have hend := bind_endArguments_relocate g mode l (.filterCall chain name l) os ⟨.rparen, span⟩
    cases mode <;> first | exact absurd rfl (hm _) | exact hend
  all_goals cases mode <;> first | exact absurd rfl (hm _) | exact hchain

theorem next?_assign_relocate (left : Left) (p : Phrase) (bare : Bool) (os : List Opening)
    (span : Span) :
    ((⟨.unit left p bare, os⟩ : State).relocate g).next? (Located.relocate g ⟨.assign, span⟩) =
      ((⟨.unit left p bare, os⟩ : State).next? ⟨.assign, span⟩).map (State.relocate g) := by
  obtain ⟨e, extent⟩ := p
  rcases left with _ | ⟨c, op⟩ <;> cases bare <;>
    rcases os with
      _ | ⟨_ | _ | ⟨left, callee, ⟨done, _ | k⟩⟩ | ⟨chain, name, ⟨done, _ | k⟩⟩, os⟩ <;>
    try rfl
  all_goals cases e <;> rfl

/-- The value after a colon: a literal is the argument of the filter. -/
theorem filterValue_relocate (chain : Chain) (name : FilterName) (span : Span) (v : Literal) :
    (chain.relocate g).pipe ((name.relocate g).call (g span.stop)
        [.positional (.literal (span.relocate g) v)]) =
      (chain.pipe (name.call span.stop [.positional (.literal span v)])).relocate g := by
  rw [← Chain.pipe_relocate, ← FilterName.call_relocate]
  rfl

theorem next?_relocate (t : Located Token) : ∀ s : State,
    (s.relocate g).next? (t.relocate g) = (s.next? t).map (State.relocate g)
  | ⟨.operand left, os⟩ => by
    obtain ⟨value, span⟩ := t
    cases value with
    | number text =>
      simp only [State.next?, State.relocate, Mode.relocate, Located.relocate, Option.map_map]
      rfl
    | rparen => exact next?_operand_rparen_relocate g left os span
    | _ => rfl
  | ⟨.unit left p bare, os⟩ => by
    obtain ⟨value, span⟩ := t
    have hchain := fun value =>
      bind_afterChain_relocate g (.unit left p bare) os ⟨value, span⟩
    cases value with
    | rparen => exact next?_rparen_relocate g _ (by simp) os span
    | assign => exact next?_assign_relocate g left p bare os span
    | operator op => exact hchain (.operator op)
    | rbracket => exact hchain .rbracket
    | comma => exact hchain .comma
    | pipe => exact hchain .pipe
    | _ => rfl
  | ⟨.attribute left base, os⟩ => by
    obtain ⟨value, span⟩ := t
    cases value with
    | rparen => exact next?_rparen_relocate g _ (by simp) os span
    | name text =>
      simp only [State.next?, State.relocate, Mode.relocate, Option.map_some, Phrase.relocate,
        Expr.span_relocate, Located.relocate, Span.relocate_cover]
      rfl
    | _ => rfl
  | ⟨.filterName chain name, os⟩ => by
    obtain ⟨value, span⟩ := t
    cases value with
    | rparen => exact next?_rparen_relocate g _ (by simp) os span
    | _ => rfl
  | ⟨.filterNamed chain name, os⟩ => by
    obtain ⟨value, span⟩ := t
    have hchain := fun value =>
      bind_afterChain_relocate g (.filterNamed chain name) os ⟨value, span⟩
    cases value with
    | rparen => exact next?_rparen_relocate g _ (by simp) os span
    | operator op => exact hchain (.operator op)
    | rbracket => exact hchain .rbracket
    | comma => exact hchain .comma
    | pipe => exact hchain .pipe
    | name text => exact hchain (.name text)
    | _ => rfl
  | ⟨.filterValue chain name, os⟩ => by
    obtain ⟨value, span⟩ := t
    cases value with
    | rparen => exact next?_rparen_relocate g _ (by simp) os span
    | number text =>
      simp only [State.next?, State.relocate, Mode.relocate, Located.relocate, Option.map_map]
      congr 1
      funext v
      exact congrArg (fun c => (⟨.filtered c, os.map (Opening.relocate g)⟩ : State))
        (filterValue_relocate g chain name span v)
    | string text =>
      exact congrArg (fun c => some (⟨.filtered c, os.map (Opening.relocate g)⟩ : State))
        (filterValue_relocate g chain name span (.str (String.ofList text)))
    | _ => rfl
  | ⟨.filtered chain, os⟩ => by
    obtain ⟨value, span⟩ := t
    have hchain := fun value => bind_afterChain_relocate g (.filtered chain) os ⟨value, span⟩
    cases value with
    | rparen => exact next?_rparen_relocate g _ (by simp) os span
    | rbracket => exact hchain .rbracket
    | comma => exact hchain .comma
    | _ => rfl

/-! ## Failures -/

theorem leftExtent_relocate (left : Left) :
    leftExtent (Left.relocate g left) = (leftExtent left).map (Span.relocate g) := by
  cases left <;> rfl

theorem namedExtent_relocate (chain : Chain) (name : FilterName) :
    namedExtent (chain.relocate g) (name.relocate g) =
      (namedExtent chain name).relocate g := by
  obtain ⟨start, _ | ⟨i, is⟩⟩ := name <;> rfl

theorem Mode.extent?_relocate (m : Mode) :
    (m.relocate g).extent? = m.extent?.map (Span.relocate g) := by
  cases m <;>
    simp [Mode.relocate, Mode.extent?, leftExtent_relocate, namedExtent_relocate,
      close_relocate] <;> rfl

theorem Opening.extent?_relocate (o : Opening) :
    (o.relocate g).extent? = o.extent?.map (Span.relocate g) := by
  cases o <;>
    simp [Opening.relocate, Opening.extent?, leftExtent_relocate, namedExtent_relocate,
      close_relocate] <;> rfl

/-- The outline of an argument list with its places changed. -/
def outlineRelocate (outline : List (Option String × Span)) : List (Option String × Span) :=
  outline.map fun a => (a.1, a.2.relocate g)

theorem ArgumentList.outline_relocate (l : ArgumentList) (value : Option Span) :
    (l.relocate g).outline (value.map (Span.relocate g)) =
      outlineRelocate g (l.outline value) := by
  obtain ⟨done, keyword⟩ := l
  simp only [outline, outlineRelocate, ArgumentList.relocate, List.map_append, List.map_reverse,
    List.map_map]
  congr 1
  · congr 2
    funext a
    obtain ⟨_ | _, span⟩ := a <;> rfl
  · cases keyword <;> cases value <;> rfl

theorem outlineFailure?_relocate (outline : List (Option String × Span)) :
    outlineFailure? (outlineRelocate g outline) =
      (outlineFailure? outline).map (Failure.relocate g) := by
  simp only [outlineFailure?, outlineRelocate, List.map_map, Function.comp_def, List.head?_map,
    List.getLast?_map]
  cases Arguments.fault? [] (outline.map Prod.fst) <;> cases outline.head? <;>
    cases outline.getLast? <;> rfl

theorem Opening.arguments?_relocate (o : Opening) :
    (o.relocate g).arguments? = o.arguments?.map (ArgumentList.relocate g) := by
  cases o <;> rfl

theorem openFailure?_relocate : ∀ (os : List Opening) (inner : Option Span),
    openFailure? (inner.map (Span.relocate g)) (os.map (Opening.relocate g)) =
      (openFailure? inner os).map (Failure.relocate g)
  | [], inner => rfl
  | o :: os, inner => by
    have ih := openFailure?_relocate os o.extent?
    rw [← Opening.extent?_relocate] at ih
    simp only [List.map_cons, openFailure?, ih, Opening.arguments?_relocate]
    cases openFailure? o.extent? os with
    | some failure => rfl
    | none =>
      cases o.arguments? with
      | none => rfl
      | some l =>
        simp only [Option.map_none, Option.map_some, Option.bind_some]
        rw [ArgumentList.outline_relocate, outlineFailure?_relocate]

theorem State.fail_relocate (s : State) (problem : Problem) (span : Span) :
    (s.relocate g).fail problem (span.relocate g) = (s.fail problem span).relocate g := by
  simp only [State.fail, State.relocate, Mode.extent?_relocate, openFailure?_relocate]
  cases openFailure? s.mode.extent? s.openings <;> rfl

theorem takesKeyword_relocate (os : List Opening) :
    takesKeyword (os.map (Opening.relocate g)) = takesKeyword os := by
  rcases os with _ | ⟨_ | _ | _ | _, os⟩ <;>
    simp [takesKeyword, Opening.relocate, ArgumentList.relocate]

theorem closers_relocate (os : List Opening) :
    closers (os.map (Opening.relocate g)) = closers os := by
  rcases os with _ | ⟨_ | _ | _ | _, os⟩ <;> rfl

theorem State.follow_relocate (s : State) : (s.relocate g).follow = s.follow := by
  obtain ⟨mode, os⟩ := s
  cases mode <;>
    simp [State.follow, State.relocate, Mode.relocate, atFirstArgument_relocate,
      takesKeyword_relocate, closers_relocate, Left.relocate]

theorem State.mayEnd_relocate (s : State) : (s.relocate g).mayEnd = s.mayEnd := by
  obtain ⟨mode, os⟩ := s
  cases mode <;> simp [State.mayEnd, State.relocate, Mode.relocate]

theorem State.expected_relocate (s : State) : (s.relocate g).expected = s.expected := by
  rw [State.expected, State.expected, State.follow_relocate, State.mayEnd_relocate]

theorem State.numberProblem?_relocate (s : State) (t : Token) :
    (s.relocate g).numberProblem? t = s.numberProblem? t := by
  obtain ⟨mode, os⟩ := s
  cases mode <;> cases t <;> rfl

theorem State.endFailure?_relocate (s : State) (t : Token) :
    (s.relocate g).endFailure? t = (s.endFailure? t).map (Failure.relocate g) := by
  obtain ⟨mode, os⟩ := s
  have hend : ∀ l : ArgumentList, ((mode.relocate g).chain?.bind fun c =>
        outlineFailure? ((l.relocate g).outline (some c.extent))) =
      (mode.chain?.bind fun c => outlineFailure? (l.outline (some c.extent))).map
        (Failure.relocate g) := fun l => by
    rw [Mode.chain?_relocate]
    cases mode.chain? with
    | none => rfl
    | some c =>
      have h := ArgumentList.outline_relocate g l (some c.extent)
      simp only [Option.map_some, Option.bind_some] at h ⊢
      rw [← outlineFailure?_relocate, ← h]
      rfl
  cases t with
  | rparen =>
    rcases os with _ | ⟨_ | _ | ⟨_, _, l⟩ | ⟨_, _, l⟩, os⟩
    · rfl
    · rfl
    · rfl
    · exact hend l
    · exact hend l
  | _ => rfl

/-! ## Runs -/

/-- One step. -/
theorem State.step_relocate (s : State) (t : Located Token) :
    (s.relocate g).step (t.relocate g) =
      ((s.step t).map (State.relocate g)).mapError (Failure.relocate g) := by
  simp only [State.step, next?_relocate, Located.value_relocate, State.endFailure?_relocate,
    State.numberProblem?_relocate, State.expected_relocate, Located.span_relocate,
    State.fail_relocate]
  cases s.next? t with
  | none => rfl
  | some next =>
    cases h : s.endFailure? t.value with
    | none => rfl
    | some failure =>
      simp only [Option.map_some]
      exact congrArg Except.error (State.fail_relocate g s failure.problem failure.span)

/-- A run of steps. -/
theorem State.run_relocate : ∀ (ts : List (Located Token)) (s : State),
    (s.relocate g).run (ts.map (Located.relocate g)) =
      ((s.run ts).map (State.relocate g)).mapError (Failure.relocate g)
  | [], s => rfl
  | t :: ts, s => by
    simp only [State.run, List.map_cons, List.foldlM_cons, State.step_relocate]
    cases s.step t with
    | error f => rfl
    | ok s => exact State.run_relocate ts s

theorem State.finish_relocate (s : State) (span : Span) :
    (s.relocate g).finish (span.relocate g) =
      ((s.finish span).map (Expr.relocate g)).mapError (Failure.relocate g) := by
  simp only [State.finish, State.expected_relocate, State.fail_relocate]
  obtain ⟨mode, _ | ⟨o, os⟩⟩ := s
  · simp only [State.relocate, List.map_nil, Mode.chain?_relocate]
    cases mode.chain? with
    | none => rfl
    | some c => exact congrArg Except.ok (Chain.expr_relocate g c)
  · rfl

theorem endSpan_relocate (stop : Nat) (ts : List (Located Token)) :
    endSpan (g stop) (ts.map (Located.relocate g)) = (endSpan stop ts).relocate g := by
  simp only [endSpan, List.getLast?_map]
  cases ts.getLast? <;> rfl

/-- **The parser does not look at positions.** Tokens with changed offsets spell the same
expression, or break off with the same problem, with its offsets changed in the same way. -/
theorem parse_relocate (stop : Nat) (ts : List (Located Token)) :
    parse (g stop) (ts.map (Located.relocate g)) =
      ((parse stop ts).map (Expr.relocate g)).mapError (Failure.relocate g) := by
  have hrun := State.run_relocate g ts .start
  have hstart : State.start.relocate g = .start := rfl
  rw [hstart] at hrun
  simp only [parse, hrun, endSpan_relocate]
  cases State.start.run ts with
  | error f => rfl
  | ok s => exact State.finish_relocate g s (endSpan stop ts)

end Parser
end Stencil
