import Stencil.Proofs.Markup.Between
import Stencil.Proofs.Render.Concatenation

/-!
# Text without markers

A text in which none of the six markers occurs is one token, one block and one node, and comes out of
a render as it was written (`Template.render_unmarked`), single braces, percent and hash signs and
all white space included.
-/
namespace Stencil

open Markup

variable {cs : List Char}

/-- Text without markers is one token, untrimmed. -/
theorem scan_of_unmarked (hn : cs ≠ []) (h : Unmarked cs) :
    scan cs = [⟨.content cs, ⟨0, Text.byteLength cs⟩⟩] := by
  rw [scan, pieces_of_unmarked hn h]
  simp [pieceTokens, textTokens]

/-- The document of a text without markers: the text, if there is any. -/
def Document.ofText (cs : List Char) : List Node :=
  if cs = [] then [] else [.text ⟨0, Text.byteLength cs⟩ (String.ofList cs)]

theorem Document.read_of_unmarked (h : Unmarked cs) : read cs = .ok (ofText cs) := by
  by_cases hn : cs = []
  · subst hn
    rfl
  · rw [ofText, if_neg hn]
    refine read_eq_ok_iff.2 ⟨[.text ⟨0, Text.byteLength cs⟩ cs], ?_, rfl⟩
    rw [scan_of_unmarked hn h]
    rfl

theorem meaningAll_ofText {σ : Type} (s : Setting σ) (names : String → Option Value) :
    meaningAll s (Document.ofText cs) names = pure (String.ofList cs) := by
  unfold Document.ofText
  split
  · rename_i hnil
    subst hnil
    rfl
  · simp [meaningAll, Node.meaning]

/-- **Text without markers is reproduced.** It compiles to one text node that holds all of it, or to
no node if it is empty, and every render puts out the text itself and leaves the host alone. -/
theorem Template.render_unmarked {text : String} (h : Unmarked text.toList) :
    ∃ t, compile text = .ok t ∧
      t.nodes = (if text = "" then [] else [.text ⟨0, Text.byteLength text.toList⟩ text]) ∧
      ∀ {σ : Type} (host : Host σ) (library : Library) (config : Config) (context : Context)
        (state : σ), t.render host library config context state = (.ok text, state) := by
  have hread := Document.read_of_unmarked h
  refine ⟨_, compile_eq_ok_iff.2 ⟨_, hread, rfl⟩, ?_, ?_⟩
  · simp [Document.ofText]
  · intro σ host library config context state
    rw [render, Document.render_eq, meaningAll_ofText, String.ofList_toList]
    rfl

/-- Braces, a percent sign and a hash sign that make no markers, between white space. -/
theorem Template.render_unmarked_strays :
    Unmarked "\t\x7b é%# 100 %\x7b\n\x7d#".toList ∧
      ∃ t, compile "\t\x7b é%# 100 %\x7b\n\x7d#" = .ok t ∧
        t.nodes = [.text ⟨0, 17⟩ "\t\x7b é%# 100 %\x7b\n\x7d#"] ∧
        ∀ {σ : Type} (host : Host σ) (library : Library) (config : Config) (context : Context)
          (state : σ), t.render host library config context state =
            (.ok "\t\x7b é%# 100 %\x7b\n\x7d#", state) :=
  have hu : Unmarked "\t\x7b é%# 100 %\x7b\n\x7d#".toList := by decide
  ⟨hu, Template.render_unmarked hu⟩

end Stencil
