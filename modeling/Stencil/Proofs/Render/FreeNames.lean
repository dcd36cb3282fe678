import Stencil.Proofs.Expr.Grammar
import Stencil.Proofs.Render.Lexical
import Stencil.Template

/-!
# A render depends on its free names

The free names of a document are those that no loop around them binds. A loop binds its variable in
its body alone: neither the text that it runs over nor its `empty` branch sees the variable. Two
meanings of names that agree on the free names give one and the same computation
(`meaningAll_congr`), whatever they say about the other names, so a template renders alike in any
two contexts in which its free names resolve alike (`Template.render_congr`).
-/
namespace Stencil

variable {σ : Type}

/-! ## Free names -/

mutual

/-- The names that an expression refers to. -/
def Expr.names : Expr → List String
  | .literal _ _ => []
  | .name _ x => [x]
  | .attribute _ base _ => base.names
  | .index _ base key => base.names ++ key.names
  | .arith _ _ left right | .compare _ _ left right | .logic _ _ left right =>
    left.names ++ right.names
  | .call _ callee args keywords => callee.names ++ (namesAll args ++ keywordNames keywords)
  | .filter _ input _ args keywords => input.names ++ (namesAll args ++ keywordNames keywords)

/-- The names that some expressions refer to. -/
def namesAll : List Expr → List String
  | [] => []
  | e :: es => e.names ++ namesAll es

/-- The names that the values of keyword arguments refer to; the keywords themselves are none. -/
def keywordNames : List (Ident × Expr) → List String
  | [] => []
  | (_, e) :: ks => e.names ++ keywordNames ks

end

mutual

/-- The free names of a node. -/
def Node.free : Node → List String
  | .text _ _ | .comment _ => []
  | .value _ e => e.names
  | .conditional _ test body orelse => test.names ++ (freeAll body ++ freeAll orelse)
  | .loop _ target iterable body orelse =>
    iterable.names ++ ((freeAll body).filter (· ≠ target.name) ++ freeAll orelse)
  | .tag _ _ args keywords => namesAll args ++ keywordNames keywords

/-- The free names of nodes. -/
def freeAll : List Node → List String
  | [] => []
  | n :: ns => n.free ++ freeAll ns

end

/-! ## Agreement -/

/-- Two meanings of names say the same about each of these. -/
def AgreeOn (xs : List String) (f g : String → Option Value) : Prop := ∀ x ∈ xs, f x = g x

section
variable {xs ys : List String} {f g : String → Option Value}

theorem agreeOn_append : AgreeOn (xs ++ ys) f g ↔ AgreeOn xs f g ∧ AgreeOn ys f g :=
  List.forall_mem_append

/-- Under a binder the bound name means the same whatever it meant outside. -/
theorem AgreeOn.extend {x : String} (h : AgreeOn (xs.filter (· ≠ x)) f g) (v : Value) :
    AgreeOn xs (extend f x v) (extend g x v) := by
  intro y hy
  by_cases hyx : y = x
  · simp [Stencil.extend, hyx]
  · simpa [Stencil.extend, hyx] using h y (List.mem_filter.2 ⟨hy, by simpa using hyx⟩)

end

/-! ## Evaluation -/

section
variable (s : Setting σ) {f g : String → Option Value}

mutual

/-- The value of an expression depends on its names alone. -/
theorem Expr.eval_congr : ∀ e : Expr, AgreeOn e.names f g → e.eval s f = e.eval s g
  | .literal _ _, _ => by simp only [Expr.eval]
  | .name _ x, h => by simp only [Expr.eval, h x (List.mem_singleton.2 rfl)]
  | .attribute _ base _, h => by simp only [Expr.eval, Expr.eval_congr base h]
  | .index _ base key, h => by
    obtain ⟨hbase, hkey⟩ := agreeOn_append.1 h
    simp only [Expr.eval, Expr.eval_congr base hbase, Expr.eval_congr key hkey]
  | .arith _ _ left right, h => by
    obtain ⟨hleft, hright⟩ := agreeOn_append.1 h
    simp only [Expr.eval, Expr.eval_congr left hleft, Expr.eval_congr right hright]
  | .compare _ _ left right, h => by
    obtain ⟨hleft, hright⟩ := agreeOn_append.1 h
    simp only [Expr.eval, Expr.eval_congr left hleft, Expr.eval_congr right hright]
  | .logic _ _ left right, h => by
    obtain ⟨hleft, hright⟩ := agreeOn_append.1 h
    simp only [Expr.eval, Expr.eval_congr left hleft, Expr.eval_congr right hright]
  | .call _ callee args keywords, h => by
    obtain ⟨hcallee, h⟩ := agreeOn_append.1 h
    obtain ⟨hargs, hkeywords⟩ := agreeOn_append.1 h
    simp only [Expr.eval, Expr.eval_congr callee hcallee, evalAll_congr args hargs,
      evalKeywords_congr keywords hkeywords]
  | .filter _ input _ args keywords, h => by
    obtain ⟨hinput, h⟩ := agreeOn_append.1 h
    obtain ⟨hargs, hkeywords⟩ := agreeOn_append.1 h
    simp only [Expr.eval, Expr.eval_congr input hinput, evalAll_congr args hargs,
      evalKeywords_congr keywords hkeywords]

theorem evalAll_congr : ∀ es : List Expr, AgreeOn (namesAll es) f g →
    evalAll s f es = evalAll s g es
  | [], _ => by simp only [evalAll]
  | e :: es, h => by
    obtain ⟨he, hes⟩ := agreeOn_append.1 h
    simp only [evalAll, Expr.eval_congr e he, evalAll_congr es hes]

theorem evalKeywords_congr : ∀ ks : List (Ident × Expr), AgreeOn (keywordNames ks) f g →
    evalKeywords s f ks = evalKeywords s g ks
  | [], _ => by simp only [evalKeywords]
  | (_, e) :: ks, h => by
    obtain ⟨he, hks⟩ := agreeOn_append.1 h
    simp only [evalKeywords, Expr.eval_congr e he, evalKeywords_congr ks hks]

end

end

/-! ## Rendering -/

mutual

/-- One step: what a node puts out depends on its free names alone. -/
theorem Node.meaning_congr (s : Setting σ) : ∀ (n : Node) {f g : String → Option Value},
    AgreeOn n.free f g → n.meaning s f = n.meaning s g
  | .text _ _, _, _, _ => by simp only [Node.meaning]
  | .comment _, _, _, _ => by simp only [Node.meaning]
  | .value _ e, _, _, h => by simp only [Node.meaning, Expr.eval_congr s e h]
  | .conditional _ test body orelse, _, _, h => by
    obtain ⟨htest, h⟩ := agreeOn_append.1 h
    obtain ⟨hbody, horelse⟩ := agreeOn_append.1 h
    simp only [Node.meaning, Expr.eval_congr s test htest, meaningAll_congr s body hbody,
      meaningAll_congr s orelse horelse]
  | .loop _ target iterable body orelse, _, _, h => by
    obtain ⟨hiterable, h⟩ := agreeOn_append.1 h
    obtain ⟨hbody, horelse⟩ := agreeOn_append.1 h
    -- the body is rendered in the extended meanings, which agree on the variable as well
    have hturn item := meaningAll_congr s body (hbody.extend item)
    simp only [Node.meaning, Expr.eval_congr s iterable hiterable, hturn,
      meaningAll_congr s orelse horelse]
  | .tag _ _ args keywords, _, _, h => by
    obtain ⟨hargs, hkeywords⟩ := agreeOn_append.1 h
    simp only [Node.meaning, Eval.customTag, evalAll_congr s args hargs,
      evalKeywords_congr s keywords hkeywords]

/-- **The run.** What a node list puts out depends on its free names alone. -/
theorem meaningAll_congr (s : Setting σ) : ∀ (ns : List Node) {f g : String → Option Value},
    AgreeOn (freeAll ns) f g → meaningAll s ns f = meaningAll s ns g
  | [], _, _, _ => by simp only [meaningAll]
  | n :: ns, _, _, h => by
    obtain ⟨hn, hns⟩ := agreeOn_append.1 h
    simp only [meaningAll, Node.meaning_congr s n hn, meaningAll_congr s ns hns]

end

/-- **A render depends on the context only through the free names.** In two contexts that resolve
every free name of a template alike, as the same value, the same constant or not at all, it has the
same output, or stops with the same fault at the same span, and leaves the host in the same state. -/
theorem Template.render_congr (t : Template) (host : Host σ) (library : Library) (config : Config)
    (state : σ) {context context' : Context}
    (h : ∀ x ∈ freeAll t.nodes, context.resolve x = context'.resolve x) :
    t.render host library config context state = t.render host library config context' state := by
  rw [Template.render, Template.render, Document.render_eq, Document.render_eq,
    meaningAll_congr _ t.nodes h]

/-- The inner loop takes `None` for its variable, and the `empty` branch is outside of `x`. -/
def rebinding : String :=
  "{% for x in xs %}{% for None in x %}{{ None }}{{ y }}{% endfor %}{% empty %}{{ x }}{% endfor %}"

/-- A context with `xs` and `y`, and whatever else. -/
def pairOf (others : Context) : Context :=
  ("xs", .list (.given 0) [.list (.given 1) [.int 1, .int 2]]) :: ("y", .str ";") :: others

/-- A `None` in the context changes nothing, for every `None` of the template is the variable. -/
theorem Template.render_congr_rebinding : ∃ t, Template.compile rebinding = .ok t ∧
    freeAll t.nodes = ["xs", "y", "x"] ∧
    (∀ x ∈ freeAll t.nodes,
      (pairOf []).resolve x = (pairOf [("None", .int 7)]).resolve x) ∧
    t.render .none .withBuiltins .default (pairOf []) () =
      t.render .none .withBuiltins .default (pairOf [("None", .int 7)]) () := by
  have hcompile : (Template.compile rebinding).toOption.map (freeAll ·.nodes) =
      some ["xs", "y", "x"] := by decide +kernel
  obtain ⟨t, ht, hfree⟩ := Option.map_eq_some_iff.1 hcompile
  have hagree : ∀ x ∈ freeAll t.nodes,
      (pairOf []).resolve x = (pairOf [("None", .int 7)]).resolve x := by
    rw [hfree]
    rintro x (_ | ⟨_, _ | ⟨_, _ | ⟨_, ⟨⟩⟩⟩⟩) <;> rfl
  exact ⟨t, Expr.toOption_eq_some_iff.1 ht, hfree, hagree, Template.render_congr t _ _ _ _ hagree⟩

end Stencil
