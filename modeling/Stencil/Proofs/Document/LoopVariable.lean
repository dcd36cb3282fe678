import Stencil.Proofs.Document.RoundTrip
import Stencil.Proofs.Expr.FilterName
import Stencil.Proofs.Render.Lexical

/-!
# Loop variables

The variable of a loop is an identifier (`targets_of_ofBlocks`). An identifier on its own is one
token (`Token.scanFrom_word`): a name, or one of the five words that are operators. The body of a
loop is rendered once for each item, in a scope where the variable means this item
(`Node.render_loop`). So a variable that is none of the five can be read in its loop
(`readable_of_parse`). These words are accepted as variables all the same: `{% for in in xs %}` is a
loop whose variable nothing can read (`parse_unreadableLoop`).
-/
namespace Stencil

/-! ## Words on their own -/

namespace Token

theorem joinWords_singleton (i : Located Item) : joinWords [i] = [i] := by
  rw [joinWords]
  · rfl
  · simp
  · simp

/-- An identifier is scanned as one token. -/
theorem scanFrom_word {w : List Char} (h : Identifier.isValid w = true) (base : Nat) :
    scanFrom base w = .ok [⟨ofWord w, ⟨base, base + Text.byteLength w⟩⟩] := by
  cases w with
  | nil => cases h
  | cons c cs =>
    have hskip : isSkipped c = false :=
      isSkipped_of_isPart (TagWords.isPart_of_isValid h c List.mem_cons_self)
    have hlexeme : lexeme c cs = ⟨.token (ofWord (c :: cs)), c :: cs, []⟩ :=
      lexeme_word h (by simp) (List.append_nil _).symm
    have hraw := rawItems_of_lexeme hskip hlexeme base
    rw [rawItems] at hraw
    rw [scanFrom, itemsFrom, hraw, joinWords_singleton]
    rfl

end Token

namespace Expr

theorem parse_name {name : String} (h : Identifier.isValid name.toList = true)
    (hr : name ∉ Token.reserved) :
    parse name.toList = .ok (.name ⟨0, Text.byteLength name.toList⟩ name) := by
  have hscan := Token.scanFrom_word h 0
  rw [Token.ofWord_of_not_reserved (by simpa using hr), Nat.zero_add] at hscan
  refine (parse_eq_ok_iff hscan).2 ⟨_, .first (.name _ _), ?_⟩
  rw [String.ofList_toList]
  rfl

/-- An operator on its own is no expression. -/
theorem parse_reserved : ∀ word ∈ Token.reserved, ∃ e, parse word.toList = .error e := by
  simp only [Token.reserved, List.forall_mem_cons]
  refine ⟨?_, ?_, ?_, ?_, ?_, by simp⟩ <;> exact ⟨_, by with_unfolding_all rfl⟩

end Expr

/-! ## The variables of a document -/

mutual

/-- The variables of the loops of a node, at any depth. -/
def Node.targets : Node → List Ident
  | .text _ _ | .value _ _ | .comment _ | .tag _ _ _ _ => []
  | .conditional _ _ b o => nodeTargets b ++ nodeTargets o
  | .loop _ x _ b o => x :: (nodeTargets b ++ nodeTargets o)

/-- The variables of the loops of nodes. -/
def nodeTargets : List Node → List Ident
  | [] => []
  | n :: ns => n.targets ++ nodeTargets ns

end

namespace Node

mutual

theorem targets_of_ofBlock : ∀ {b : Block} {n : Node}, ofBlock b = .ok n →
    ∀ x ∈ n.targets, Identifier.isValid x.name.toList = true
  | .text span cs, n, h | .comment span, n, h => by
    cases h
    simp [targets]
  | .value span content, n, h => by
    obtain ⟨e, -, h⟩ := bind_eq_ok_iff.1 h
    cases h
    simp [targets]
  | .tag span content, n, h => by
    obtain ⟨call, -, h⟩ := bind_eq_ok_iff.1 h
    cases h
    simp [targets]
  | .conditional span test body orelse, n, h => by
    obtain ⟨t, -, h⟩ := bind_eq_ok_iff.1 h
    obtain ⟨b, hb, h⟩ := bind_eq_ok_iff.1 h
    obtain ⟨o, ho, h⟩ := bind_eq_ok_iff.1 h
    cases h
    exact List.forall_mem_append.2 ⟨targets_of_ofBlocks hb, targets_of_ofBlocks ho⟩
  | .loop span header body orelse, n, h => by
    obtain ⟨⟨x, e⟩, hx, h⟩ := bind_eq_ok_iff.1 h
    obtain ⟨b, hb, h⟩ := bind_eq_ok_iff.1 h
    obtain ⟨o, ho, h⟩ := bind_eq_ok_iff.1 h
    cases h
    obtain ⟨target, -, -, -, -, -, hvalid, -, rfl⟩ := Tag.words_of_loopHeader hx
    refine List.forall_mem_cons.2 ⟨by simpa using hvalid, ?_⟩
    exact List.forall_mem_append.2 ⟨targets_of_ofBlocks hb, targets_of_ofBlocks ho⟩

/-- **Every loop variable is an identifier.** -/
theorem targets_of_ofBlocks : ∀ {bs : List Block} {ns : List Node}, ofBlocks bs = .ok ns →
    ∀ x ∈ nodeTargets ns, Identifier.isValid x.name.toList = true
  | [], ns, h => by
    cases h
    simp [nodeTargets]
  | b :: bs, ns, h => by
    obtain ⟨node, hn, h⟩ := bind_eq_ok_iff.1 h
    obtain ⟨nodes, hns, h⟩ := bind_eq_ok_iff.1 h
    cases h
    exact List.forall_mem_append.2 ⟨targets_of_ofBlock hn, targets_of_ofBlocks hns⟩

end

end Node

/-! ## Turns of a loop -/

/-- The scope of a loop over `x` in the turn of `item`. -/
def Scope.turn (outer : Scope) (x : String) (item : Value) : Scope :=
  (outer.push x).bind outer.top item

theorem Scope.turn_eq_within (outer : Scope) (x : String) (item : Value) :
    outer.turn x item = outer.within x item := by
  rw [turn, push_eq_within, bind_within]

theorem Scope.lookup_turn (outer : Scope) (x : String) (item : Value) :
    (outer.turn x item).lookup x = some item := by
  rw [turn_eq_within, lookup_within]
  exact if_pos rfl

section
variable {σ : Type} (s : Setting σ)

/-- From whatever value the last turn left in the frame, the body is rendered in the turn of the
next item. -/
theorem foldlM_turn (body : List Node) (outer : Scope) (x : String) :
    ∀ (items : List Value) (v : Value) (output : String),
    items.foldlM (fun q item => renderAll s body (q.bind outer.top item))
        (⟨outer.within x v, output⟩ : Progress) =
      items.foldlM (fun q item => renderAll s body ⟨outer.turn x item, q.output⟩)
        (⟨outer.within x v, output⟩ : Progress)
  | [], v, output => rfl
  | item :: items, v, output => by
    have hturn : (⟨outer.within x v, output⟩ : Progress).bind outer.top item =
        ⟨outer.turn x item, output⟩ := by
      rw [Progress.bind, Scope.bind_within, Scope.turn_eq_within]
    rw [List.foldlM_cons, List.foldlM_cons, hturn, renderAll_eq, bind_map_left, bind_map_left]
    congr 1
    funext text
    rw [Scope.turn_eq_within]
    exact foldlM_turn body outer x items item (output ++ text)

/-- **A loop renders its body once for each item, in the turn of this item.** -/
theorem Node.render_loop (place : Span) (x : Ident) (iterable : Expr) (body orelse : List Node)
    (p : Progress) : (Node.loop place x iterable body orelse).render s p = (do
      let v ← iterable.eval s p.scope.lookup
      let items ← Eval.elements iterable.span v
      if items.isEmpty then renderAll s orelse p
      else
        let q ← items.foldlM (fun q item => renderAll s body ⟨p.scope.turn x.name item, q.output⟩)
          { p with scope := p.scope.push x.name }
        pure { q with scope := q.scope.pop }) := by
  rw [Node.render]
  simp only [Scope.push_eq_within, foldlM_turn]

theorem eval_turn (name : String) (outer : Scope) (item : Value) (span : Span) :
    (Expr.name span name).eval s (outer.turn name item).lookup = pure item := by
  rw [Expr.eval, Scope.lookup_turn]

end

/-! ## Reading a variable -/

/-- The name is an expression, which means the current item in a loop over the name, and a value of
the name puts this item out. -/
structure IsReadable (name : String) : Prop where
  parse : Expr.parse name.toList = .ok (.name ⟨0, Text.byteLength name.toList⟩ name)
  eval : ∀ {σ : Type} (s : Setting σ) (outer : Scope) (item : Value) (span : Span),
    (Expr.name span name).eval s (outer.turn name item).lookup = pure item
  value : ∃ node, Document.parse (Markup.enclose .value name.toList) = .ok [node] ∧
    ∀ {σ : Type} (s : Setting σ) (outer : Scope) (item : Value) (output : String),
      node.render s ⟨outer.turn name item, output⟩ =
        pure ⟨outer.turn name item, output ++ s.emit item⟩

section
variable {name : String}

/-- A node that is a value of a name, up to its places. -/
theorem exists_of_bare {node : Node} {p q : Span}
    (h : node.bare = (Node.value p (.name q name)).bare) :
    ∃ place span, node = .value place (.name span name) := by
  cases node with
  | value place e =>
    cases e with
    | name span n =>
      simp only [Node.bare, Node.mapSpan, Expr.mapSpan, Node.value.injEq, Expr.name.injEq,
        true_and] at h
      exact ⟨place, span, by rw [h]⟩
    | _ => simp [Node.bare, Node.mapSpan, Expr.mapSpan] at h
  | _ => simp [Node.bare, Node.mapSpan] at h

/-- A name as what is read from it. -/
def Phrase.ofName (h : Identifier.isValid name.toList = true) (hr : name ∉ Token.reserved) :
    Phrase :=
  ⟨name.toList, _, Expr.parse_name h hr, TagWords.trimmed_of_isValid h,
    Markup.unmarked_of_isPart (TagWords.isPart_of_isValid h)⟩

theorem isReadable (h : Identifier.isValid name.toList = true) (hr : name ∉ Token.reserved) :
    IsReadable name := by
  refine ⟨Expr.parse_name h hr, fun s => eval_turn s name, ?_⟩
  have hproper : Draft.ProperAll [.value (.ofName h hr)] := ⟨trivial, by simp, trivial⟩
  have hprint : Draft.printAll [.value (.ofName h hr)] = Markup.enclose .value name.toList :=
    List.append_nil _
  obtain ⟨ns, hns, hbare⟩ := Document.parse_printAll hproper
  rw [hprint] at hns
  obtain ⟨node, rest, rfl, hnode, hrest⟩ := List.map_eq_cons_iff.1 hbare
  obtain rfl : rest = [] := List.map_eq_nil_iff.1 hrest
  obtain ⟨place, span, rfl⟩ := exists_of_bare hnode
  refine ⟨_, hns, fun s outer item output => ?_⟩
  rw [Node.render, eval_turn]
  rfl

end

namespace Document

/-- **A loop variable can be read in its loop, unless it is an operator.** -/
theorem readable_of_parse {source : List Char} {ns : List Node} (h : parse source = .ok ns)
    {x : Ident} (hx : x ∈ nodeTargets ns) :
    (x.name ∉ Token.reserved → IsReadable x.name) ∧
      (x.name ∈ Token.reserved → ∃ e, Expr.parse x.name.toList = .error e) := by
  obtain ⟨bs, -, hbs⟩ := read_eq_ok_iff.1 (Expr.mapError_eq_ok_iff.1 h)
  exact ⟨isReadable (Node.targets_of_ofBlocks hbs x hx), Expr.parse_reserved x.name⟩

/-- A loop in a condition in a loop, whose variables begin as operators do. -/
def nestedLoops : String :=
  "\x7b% for _ in xs %\x7d\x7b% if _ %\x7d\x7b% for in_1 in _ %\x7d\x7b\x7b in_1 \x7d\x7d" ++
    "\x7b% endfor %\x7d\x7b% endif %\x7d\x7b% endfor %\x7d"

theorem readable_of_parse_nested :
    ∃ ns, parse nestedLoops.toList = .ok ns ∧ (nodeTargets ns).map Ident.name = ["_", "in_1"] ∧
      ∀ x ∈ nodeTargets ns, IsReadable x.name := by
  have htargets : (parse nestedLoops.toList).toOption.map (fun ns =>
      (nodeTargets ns).map Ident.name) = some ["_", "in_1"] := by decide +kernel
  obtain ⟨ns, hns, hnames⟩ := Option.map_eq_some_iff.1 htargets
  have hparse := Expr.toOption_eq_some_iff.1 hns
  refine ⟨ns, hparse, hnames, fun x hx => (readable_of_parse hparse hx).1 ?_⟩
  have hmem := List.mem_map_of_mem (f := Ident.name) hx
  have hname : x.name = "_" ∨ x.name = "in_1" := by simpa [hnames] using hmem
  rcases hname with h | h
  · rw [h]
    decide
  · rw [h]
    decide

/-- A loop over `in`, whose variable is no expression. -/
theorem parse_unreadableLoop :
    parse "\x7b% for in in xs %\x7d\x7b% endfor %\x7d".toList =
      .ok [.loop ⟨0, 30⟩ ⟨"in", ⟨7, 9⟩⟩ (.name ⟨13, 15⟩ "xs") [] []] ∧
    ∃ e, Expr.parse "in".toList = .error e := by
  have hblocks : blocks "\x7b% for in in xs %\x7d\x7b% endfor %\x7d".toList =
      .ok [.loop ⟨0, 30⟩ ⟨"in in xs".toList, ⟨7, 15⟩⟩ [] []] := by with_unfolding_all rfl
  constructor
  · rw [parse_of_blocks hblocks]
    with_unfolding_all rfl
  · exact Expr.parse_reserved "in" (by decide)

end Document
end Stencil
