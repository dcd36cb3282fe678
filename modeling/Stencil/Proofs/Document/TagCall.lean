import Stencil.Document.Read
import Stencil.Proofs.Document.BlockText
import Stencil.Proofs.Document.Reading
import Stencil.Proofs.Document.TagArguments

/-!
# Tags as calls

Every tag of a document is read from a text between two markers (`tags_of_ofBlocks`), and the words of
this text behind the first are the arguments of a call (`parse_call_of_tag`).
-/
namespace Stencil

open Markup (Delimiter Marker)

/-! ## The tags of a document -/

mutual

/-- The custom tags of a node, at any depth, with their spans. -/
def Node.tags : Node → List (Located Tag.Call)
  | .text _ _ | .value _ _ | .comment _ => []
  | .tag s n as ks => [⟨⟨n, as, ks⟩, s⟩]
  | .conditional _ _ b o | .loop _ _ _ b o => nodeTags b ++ nodeTags o

/-- The custom tags of nodes. -/
def nodeTags : List Node → List (Located Tag.Call)
  | [] => []
  | n :: ns => n.tags ++ nodeTags ns

end

/-- The tag is read from a text between the markers of a tag. -/
def Located.ReadBetween (source : List Char) (t : Located Tag.Call) : Prop :=
  ∃ c, c.Cut source ∧ c.Enclosed source .tag t.span ∧ Tag.call c = .ok t.value

section
variable {source : List Char}

namespace Node

mutual

theorem tags_of_ofBlock : ∀ {b : Block} {n : Node}, ofBlock b = .ok n → b.Spelled source →
    ∀ t ∈ n.tags, t.ReadBetween source
  | .text span cs, n, h, _ | .comment span, n, h, _ => by
    cases h
    simp [tags]
  | .value span content, n, h, _ => by
    obtain ⟨e, -, h⟩ := bind_eq_ok_iff.1 h
    cases h
    simp [tags]
  | .tag span content, n, h, ⟨hcut, henclosed⟩ => by
    obtain ⟨call, hc, h⟩ := bind_eq_ok_iff.1 h
    cases h
    simp only [tags, List.forall_mem_singleton]
    exact ⟨content, hcut, henclosed, hc⟩
  | .conditional span test body orelse, n, h, ⟨_, hbody, horelse⟩ => by
    obtain ⟨t, -, h⟩ := bind_eq_ok_iff.1 h
    obtain ⟨b, hb, h⟩ := bind_eq_ok_iff.1 h
    obtain ⟨o, ho, h⟩ := bind_eq_ok_iff.1 h
    cases h
    exact List.forall_mem_append.2 ⟨tags_of_ofBlocks hb hbody, tags_of_ofBlocks ho horelse⟩
  | .loop span header body orelse, n, h, ⟨_, hbody, horelse⟩ => by
    obtain ⟨⟨x, e⟩, -, h⟩ := bind_eq_ok_iff.1 h
    obtain ⟨b, hb, h⟩ := bind_eq_ok_iff.1 h
    obtain ⟨o, ho, h⟩ := bind_eq_ok_iff.1 h
    cases h
    exact List.forall_mem_append.2 ⟨tags_of_ofBlocks hb hbody, tags_of_ofBlocks ho horelse⟩

/-- **Every tag is read from a text between two markers.** -/
theorem tags_of_ofBlocks : ∀ {bs : List Block} {ns : List Node}, ofBlocks bs = .ok ns →
    BlocksSpelled source bs → ∀ t ∈ nodeTags ns, t.ReadBetween source
  | [], ns, h, _ => by
    cases h
    simp [nodeTags]
  | b :: bs, ns, h, ⟨hb, hbs⟩ => by
    obtain ⟨node, hn, h⟩ := bind_eq_ok_iff.1 h
    obtain ⟨nodes, hns, h⟩ := bind_eq_ok_iff.1 h
    cases h
    exact List.forall_mem_append.2 ⟨tags_of_ofBlock hn hb, tags_of_ofBlocks hns hbs⟩

end

end Node

/-- The words of a tag between its markers. -/
theorem Located.words_of_readBetween {t : Located Tag.Call} (h : t.ReadBetween source) :
    ∃ text head words base,
      Text.slice source t.span.start t.span.stop =
        some ((Marker.opening .tag).chars ++ text ++ (Marker.closing .tag).chars) ∧
      TagWords.split (Text.trim text) = .ok (head :: words) ∧
      Tag.arguments base [] [] words = .ok (t.value.args, t.value.keywords) := by
  obtain ⟨c, hcut, ⟨before, after, hbefore, hafter, hslice⟩, hcall⟩ := h
  obtain ⟨head, words, hwords, -, hargs⟩ := Tag.words_of_call hcall
  refine ⟨before ++ (c.value ++ after), head, words, c.span.start, hslice, ?_, hargs⟩
  rw [Text.trim_of_blank hbefore hafter hcut.trimmed]
  exact hwords

end

/-! ## Tags and calls -/

namespace Document

variable {source : List Char} {ns : List Node}

/-- **The arguments of a tag are those of a call.** The words between the markers of a tag, behind the
first and with commas between them, are in parentheses behind a name a call of this name with the
arguments of the tag, up to places; words that are operators in an expression cannot be keywords
there. -/
theorem parse_call_of_tag (h : parse source = .ok ns) {t : Located Tag.Call} (ht : t ∈ nodeTags ns)
    (hk : ∀ k ∈ t.value.keywords, k.1.name ∉ Token.reserved) {callee : List Char}
    (hc : Identifier.isValid callee = true) (hr : String.ofList callee ∉ Token.reserved) :
    ∃ text head words e,
      Text.slice source t.span.start t.span.stop =
        some ((Marker.opening .tag).chars ++ text ++ (Marker.closing .tag).chars) ∧
      TagWords.split (Text.trim text) = .ok (head :: words) ∧
      Expr.parse (callee ++ '(' :: (listed (words.map TagWords.Word.text) ++ [')'])) = .ok e ∧
      e.bare = (Expr.call ⟨0, 0⟩ (.name ⟨0, 0⟩ (String.ofList callee)) t.value.args
        t.value.keywords).bare := by
  have hread : read source = .ok ns := Expr.mapError_eq_ok_iff.1 h
  obtain ⟨bs, hrun, hbs⟩ := read_eq_ok_iff.1 hread
  have hbetween := Node.tags_of_ofBlocks hbs (Block.spelled_of_run hrun) t ht
  obtain ⟨text, head, words, base, hslice, hwords, hargs⟩ :=
    Located.words_of_readBetween hbetween
  obtain ⟨e, he, hbare⟩ := Tag.parse_call_of_arguments hc hr hargs hk
  exact ⟨text, head, words, e, hslice, hwords, he, hbare⟩

/-- A tag whose words hold `=` in comparisons, quotes and parentheses. -/
def equated : String := "\x7b% t a==b 'x = y' k=f(a=1) %\x7d"

/-- The tag of `equated`. -/
def equatedTag : Tag.Call :=
  ⟨⟨[⟨"t", ⟨3, 4⟩⟩]⟩,
    [.compare ⟨5, 9⟩ .eq (.name ⟨5, 6⟩ "a") (.name ⟨8, 9⟩ "b"), .literal ⟨10, 17⟩ (.str "x = y")],
    [(⟨"k", ⟨18, 19⟩⟩, .call ⟨20, 26⟩ (.name ⟨20, 21⟩ "f") []
      [(⟨"a", ⟨22, 23⟩⟩, .literal ⟨24, 25⟩ (.int 1))])]⟩

theorem parse_call_of_equated :
    parse equated.toList =
      .ok [.tag ⟨0, 29⟩ equatedTag.name equatedTag.args equatedTag.keywords] ∧
    ∃ text head words e,
      Text.slice equated.toList 0 29 =
        some ((Marker.opening .tag).chars ++ text ++ (Marker.closing .tag).chars) ∧
      TagWords.split (Text.trim text) = .ok (head :: words) ∧
      Expr.parse ("f".toList ++ '(' :: (listed (words.map TagWords.Word.text) ++ [')'])) = .ok e ∧
      e.bare = (Expr.call ⟨0, 0⟩ (.name ⟨0, 0⟩ "f") equatedTag.args equatedTag.keywords).bare := by
  have hblocks : blocks equated.toList =
      .ok [.tag ⟨0, 29⟩ ⟨"t a==b 'x = y' k=f(a=1)".toList, ⟨3, 26⟩⟩] := by
    with_unfolding_all rfl
  have hparse : parse equated.toList =
      .ok [.tag ⟨0, 29⟩ equatedTag.name equatedTag.args equatedTag.keywords] := by
    rw [parse_of_blocks hblocks]
    with_unfolding_all rfl
  have hmem : (⟨equatedTag, ⟨0, 29⟩⟩ : Located Tag.Call) ∈
      nodeTags [.tag ⟨0, 29⟩ equatedTag.name equatedTag.args equatedTag.keywords] := by
    simp [nodeTags, Node.tags]
  exact ⟨hparse, parse_call_of_tag hparse hmem (by decide) (by decide) (by decide)⟩

end Document
end Stencil
