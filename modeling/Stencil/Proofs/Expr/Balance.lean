import Stencil.Proofs.Expr.Place
import Stencil.Proofs.Expr.Sound

/-!
# Parentheses of an expression

In a text that is read as an expression every parenthesis is closed, and none is closed that is not
open (`depth_of_readAt`).
-/
namespace Stencil

namespace Token

/-- The parentheses that are open after a token; nothing if it closes one that is not open. -/
def depthAfter (depth : Nat) : Token → Option Nat
  | .lparen => some (depth + 1)
  | .rparen => match depth with
    | 0 => none
    | depth + 1 => some depth
  | _ => some depth

/-- The parentheses that are open after tokens. -/
def depthAfterAll (depth : Nat) (ts : List Token) : Option Nat := ts.foldlM depthAfter depth

/-- As many parentheses are open after the tokens as before them, and none of those was closed. -/
def Balanced (ts : List Token) : Prop := ∀ depth, depthAfterAll depth ts = some depth

theorem Balanced.nil : Balanced [] := fun _ => rfl

theorem Balanced.append {ts us : List Token} (ht : Balanced ts) (hu : Balanced us) :
    Balanced (ts ++ us) := by
  intro depth
  rw [depthAfterAll, List.foldlM_append]
  change (depthAfterAll depth ts).bind (depthAfterAll · us) = _
  rw [ht depth]
  exact hu depth

theorem Balanced.cons {t : Token} {ts : List Token} (ht : ∀ depth, t.depthAfter depth = some depth)
    (h : Balanced ts) : Balanced (t :: ts) := by
  have hone : Balanced [t] := fun depth => by
    rw [depthAfterAll, List.foldlM_cons, ht]
    rfl
  exact hone.append h

theorem Balanced.parens {ts : List Token} (h : Balanced ts) :
    Balanced (.lparen :: ts ++ [.rparen]) := by
  intro depth
  have hin : depthAfterAll (depth + 1) ts = some (depth + 1) := h _
  rw [depthAfterAll] at hin ⊢
  rw [List.foldlM_append, List.foldlM_cons]
  simp only [depthAfter, Option.bind_eq_bind, Option.bind_some, hin, List.foldlM_cons,
    List.foldlM_nil]
  rfl

theorem Balanced.brackets {ts : List Token} (h : Balanced ts) :
    Balanced (.lbracket :: ts ++ [.rbracket]) :=
  Balanced.append (.cons (fun _ => rfl) h) (.cons (fun _ => rfl) .nil)

end Token

namespace Parser

open Token

theorem depthAfter_of_literal? {t : Token} {v : Literal} (h : literal? t = some v) (depth : Nat) :
    t.depthAfter depth = some depth := by
  cases t with
  | number text => rfl
  | string text => rfl
  | _ => cases h

/-- One rule: what is put together from balanced parts is balanced. -/
theorem Reads.balanced {ts : List (Located Token)} {part : Part} (h : Reads ts part) :
    Balanced (ts.map Located.value) := by
  induction h with
  | literal hv => exact .cons (depthAfter_of_literal? hv) .nil
  | name _ _ => exact .cons (fun _ => rfl) .nil
  | group _ _ _ hc => simpa using hc.parens
  | member _ _ _ _ hp =>
    simpa using hp.append (.cons (fun _ => rfl) (.cons (fun _ => rfl) .nil))
  | index _ _ _ _ hp hc => simpa using hp.append hc.brackets
  | call _ _ _ _ _ hp hd => simpa using hp.append hd.parens
  | first _ hp => exact hp
  | operator op s _ _ hc hp => simpa using hc.append (.cons (fun _ => rfl) hp)
  | filter _ _ hc hf => simpa using hc.append hf
  | filterValue _ _ _ hv hc hf =>
    simpa using hc.append (hf.append
      (.cons (fun _ => rfl) (.cons (depthAfter_of_literal? hv) .nil)))
  | filterCall _ _ _ _ _ _ hc hf hd => simpa using hc.append (hf.append hd.parens)
  | filterName _ _ _ => exact .cons (fun _ => rfl) (.cons (fun _ => rfl) .nil)
  | filterSegment _ _ _ _ hf =>
    simpa using hf.append (.cons (fun _ => rfl) (.cons (fun _ => rfl) .nil))
  | positional _ hc => exact hc
  | keyword _ _ _ _ hc => exact .cons (fun _ => rfl) (.cons (fun _ => rfl) hc)
  | noArguments => exact .nil
  | oneArgument _ ha => exact ha
  | moreArguments _ _ _ hd hb => simpa using hd.append (.cons (fun _ => rfl) hb)

end Parser

namespace Token

/-! ## Items -/

/-- The parentheses that are open after an item; nothing for a fragment that is no token. -/
def Item.depthAfter (depth : Nat) : Item → Option Nat
  | .token t => t.depthAfter depth
  | .stray _ => none

/-- The parentheses that are open after items. -/
def itemsDepth (depth : Nat) (is : List (Located Item)) : Option Nat :=
  is.foldlM (fun depth i => i.value.depthAfter depth) depth

theorem itemsDepth_cons (depth : Nat) (i : Located Item) (is : List (Located Item)) :
    itemsDepth depth (i :: is) = (i.value.depthAfter depth).bind (itemsDepth · is) :=
  List.foldlM_cons

/-- The words that are joined are no parentheses. -/
theorem itemsDepth_joinWords (is : List (Located Item)) : ∀ depth : Nat,
    itemsDepth depth (joinWords is) = itemsDepth depth is := by
  induction is using joinWords.induct with
  | case1 a b rest ih => exact fun depth => ih depth
  | case2 a b rest ih => exact fun depth => ih depth
  | case3 item rest h1 h2 ih =>
    intro depth
    rw [joinWords.eq_3 _ _ h1 h2, itemsDepth_cons, itemsDepth_cons]
    congr 1
    funext depth
    exact ih depth
  | case4 => exact fun _ => rfl

theorem itemsDepth_of_onlyTokens : ∀ {is : List (Located Item)} {ts : List (Located Token)},
    onlyTokens is = .ok ts →
      ∀ depth, itemsDepth depth is = depthAfterAll depth (ts.map Located.value)
  | [], ts, h, depth => by
    cases h
    rfl
  | ⟨.stray fragment, span⟩ :: rest, ts, h, depth => by cases h
  | ⟨.token t, span⟩ :: rest, ts, h, depth => by
    rw [onlyTokens] at h
    cases hr : onlyTokens rest with
    | error stray =>
      rw [hr] at h
      cases h
    | ok us =>
      rw [hr] at h
      cases h
      rw [itemsDepth_cons, List.map_cons, depthAfterAll, List.foldlM_cons]
      simp only [Item.depthAfter, itemsDepth_of_onlyTokens hr]
      rfl

end Token

/-- **The parentheses of an expression are balanced.** -/
theorem Expr.depth_of_readAt {base : Nat} {text : List Char} {e : Expr}
    (h : readAt base text = .ok e) (depth : Nat) :
    Token.itemsDepth depth (Token.rawItems base text) = some depth := by
  obtain ⟨ts, hs, hp⟩ := readAt_eq_ok_iff.1 h
  obtain ⟨c, hc, -⟩ := Parser.reads_of_parse hp
  have hitems := Token.itemsDepth_of_onlyTokens hs depth
  rw [Token.itemsFrom, Token.itemsDepth_joinWords] at hitems
  rw [hitems, hc.balanced]

end Stencil
