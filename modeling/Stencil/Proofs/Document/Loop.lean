import Stencil.Document.Read
import Stencil.Proofs.Document.LoopText
import Stencil.Proofs.Document.Reading
import Stencil.Proofs.Expr.Grammar
import Stencil.Proofs.Markup.Between

/-!
# Expressions in loops

An expression means the same as the iterable of a loop and on its own.
`{% for x in e %}{% endfor %}` is the loop over the tree of `e`, moved to where `e` stands, or else
the text `x in e` cannot be cut into words (`parse_emptyLoop`). It can be cut unless a string of `e`
ends in a backslash that takes the closing quote with it, as `"\"` does
(`parse_emptyLoop_backslash`).
-/
namespace Stencil

namespace Markup

/-! ## Tokens of a loop -/

theorem takeWhile_space {cs : List Char} (h : ∀ c ∈ cs.head?, Text.isBlank c = false) :
    (' ' :: cs).takeWhile Text.isBlank = [' '] := by
  have hspace : Text.isBlank ' ' = true := rfl
  cases cs with
  | nil => rfl
  | cons c cs => simp [hspace, h c rfl]

/-- The content behind a reserved word and a space. -/
theorem contentAfterBlank_space {cs : List Char} (hn : cs ≠ [])
    (h : ∀ c ∈ cs.head?, Text.isBlank c = false) (offset : Nat) :
    contentAfterBlank offset (' ' :: cs) =
      [⟨.content cs, ⟨offset + 1, offset + 1 + Text.byteLength cs⟩⟩] := by
  have hstart : Text.trimStart (' ' :: cs) = cs := by
    rw [Text.trimStart, List.dropWhile_cons_of_pos rfl]
    exact Text.dropWhile_isBlank h
  rw [contentAfterBlank, hstart, takeWhile_space h, if_neg (by simpa using hn)]
  rfl

/-- The tokens of a tag with a reserved word and a text, with their places. -/
theorem scan_header (k : Keyword) {cs : List Char} (hn : cs ≠ []) (ht : Text.Trimmed cs)
    (h : Unmarked cs) {start stop : Nat} (hstart : start = 4 + Text.byteLength k.word.toList)
    (hstop : stop = start + Text.byteLength cs) :
    scan (enclose .tag (k.word.toList ++ ' ' :: cs)) =
      [⟨.marker (.opening .tag), ⟨0, 2⟩⟩, ⟨.keyword k, ⟨3, start - 1⟩⟩,
        ⟨.content cs, ⟨start, stop⟩⟩, ⟨.marker (.closing .tag), ⟨stop + 1, stop + 3⟩⟩] := by
  have htrimmed : Text.Trimmed (k.word.toList ++ ' ' :: cs) := by
    simpa using (trimmed_word k).1.append ht (trimmed_word k).2 hn [' ']
  have hhead : ∀ c ∈ (k.word.toList ++ ' ' :: cs ++ [' ']).head?, Text.isBlank c = false := by
    rw [List.append_assoc, List.head?_append_of_ne_nil _ (trimmed_word k).2]
    exact (trimmed_word k).1.1
  have htokens : textTokens (some .tag) 2 (' ' :: (k.word.toList ++ ' ' :: cs ++ [' '])) =
      [⟨.keyword k, ⟨3, start - 1⟩⟩, ⟨.content cs, ⟨start, stop⟩⟩] := by
    obtain ⟨hlead, hafter⟩ := takeWhile_word k cs
    have hspace : (' ' : Char).utf8Size = 1 := rfl
    rw [textTokens, Text.trim_spaced htrimmed, takeWhile_space hhead]
    simp only [tagTokens, hlead, ofWord?_word, hafter, contentAfterBlank_space hn ht.1]
    rw [if_neg (by simp)]
    simp only [if_true, List.cons.injEq, Located.mk.injEq, Span.mk.injEq, true_and, and_true,
      Text.byteLength_cons, Text.byteLength_nil, hspace]
    omega
  have hlength : Text.byteLength (' ' :: (k.word.toList ++ ' ' :: cs ++ [' '])) + 2 = stop + 1 := by
    have hspace : (' ' : Char).utf8Size = 1 := rfl
    simp only [Text.byteLength_cons, Text.byteLength_nil, Text.byteLength_append, hspace]
    omega
  rw [scan, enclose, ← List.cons_append, pieces_between .tag
    (unmarked_enclosed ((unmarked_word k).spaced h)), List.cons_append]
  simp only [pieceTokens, Marker.context, Nat.zero_add, htokens, List.cons_append, List.nil_append]
  rw [Nat.add_comm 2, hlength]

theorem byteLength_enclose (d : Delimiter) (cs : List Char) :
    Text.byteLength (enclose d cs) = Text.byteLength cs + 6 := by
  have hspace : (' ' : Char).utf8Size = 1 := rfl
  rw [enclose, between]
  simp only [Text.byteLength_append, Text.byteLength_cons, Text.byteLength_nil, byteLength_marker,
    hspace]
  omega

end Markup

namespace TagWords

/-! ## The text of a loop between markers -/

theorem trimmed_of_isValid {word : List Char} (h : Identifier.isValid word = true) :
    Text.Trimmed word := by
  have hplain := plain_of_isValid h
  exact ⟨fun c hc => (hplain c (List.mem_of_mem_head? hc)).2.2.2.2.2,
    fun c hc => (hplain c (List.mem_of_mem_getLast? hc)).2.2.2.2.2⟩

section
variable {target text : List Char} (ht : Identifier.isValid target = true)
include ht

theorem trimmed_loopText (hn : text ≠ []) (h : Text.Trimmed text) :
    Text.Trimmed (loopText target text) := by
  have htn : target ≠ [] := by
    rintro rfl
    cases ht
  exact (trimmed_of_isValid ht).append h htn hn _

theorem unmarked_loopText (h : Markup.Unmarked text) : Markup.Unmarked (loopText target text) := by
  have htarget := Markup.unmarked_of_isPart (isPart_of_isValid ht)
  have hin : Markup.Unmarked "in".toList := by decide
  simpa [loopText] using htarget.spaced (hin.spaced h)

end

/-! ## Strings among items -/

/-- Joining words leaves the strings. -/
theorem pairedItems_of_joinWords (items : List (Located Token.Item)) :
    PairedItems (Token.joinWords items) → PairedItems items := by
  induction items using Token.joinWords.induct with
  | case1 a b rest ih =>
    intro h
    rw [Token.joinWords, PairedItems, List.forall_mem_cons] at h
    exact List.forall_mem_cons.2 ⟨by simp, List.forall_mem_cons.2 ⟨by simp, ih h.2⟩⟩
  | case2 a b rest ih =>
    intro h
    rw [Token.joinWords, PairedItems, List.forall_mem_cons] at h
    exact List.forall_mem_cons.2 ⟨by simp, List.forall_mem_cons.2 ⟨by simp, ih h.2⟩⟩
  | case3 item rest h1 h2 ih =>
    intro h
    rw [Token.joinWords.eq_3 _ _ h1 h2, PairedItems, List.forall_mem_cons] at h
    exact List.forall_mem_cons.2 ⟨h.1, ih h.2⟩
  | case4 => exact id

/-- Where a text stands says nothing of its strings. -/
theorem pairedItems_shift {text : List Char} (h : PairedItems (Token.items text)) (n : Nat) :
    PairedItems (Token.rawItems n text) := by
  have hraw : PairedItems (Token.rawItems 0 text) := pairedItems_of_joinWords _ h
  intro i hi body hb
  rw [← Nat.add_zero n, Token.rawItems_shift] at hi
  obtain ⟨j, hj, rfl⟩ := List.mem_map.1 hi
  exact hraw j hj body hb

end TagWords

namespace Document

open TagWords

/-! ## A loop without nodes -/

/-- The loop over the expression `text` that has no nodes in it. -/
def emptyLoop (target text : String) : String :=
  "\x7b% for " ++ target ++ " in " ++ text ++ " %\x7d\x7b% endfor %\x7d"

section
variable (target text : String)

/-- The text of the loop. -/
abbrev content : List Char := loopText target.toList text.toList

/-- Where the text of the loop ends. -/
def contentStop : Nat := 7 + Text.byteLength (content target text)

theorem emptyLoop_eq : (emptyLoop target text).toList =
    Markup.enclose .tag (Markup.Keyword.forOpen.word.toList ++ ' ' :: content target text) ++
      Markup.enclose .tag Markup.Keyword.forClose.word.toList := by
  have hbefore : "\x7b% for ".toList = ['\x7b', '%', ' ', 'f', 'o', 'r', ' '] := rfl
  have hafter : " %\x7d\x7b% endfor %\x7d".toList =
      [' ', '%', '\x7d', '\x7b', '%', ' ', 'e', 'n', 'd', 'f', 'o', 'r', ' ', '%', '\x7d'] := rfl
  have hfor : Markup.Keyword.forOpen.word.toList = ['f', 'o', 'r'] := rfl
  have hendfor : Markup.Keyword.forClose.word.toList = ['e', 'n', 'd', 'f', 'o', 'r'] := rfl
  simp only [emptyLoop, String.toList_append, hbefore, hafter, hfor, hendfor, content, loopText,
    Markup.enclose, Markup.between, Markup.Marker.chars, List.cons_append, List.append_assoc,
    List.nil_append]

theorem byteLength_header : Text.byteLength (Markup.enclose .tag
    (Markup.Keyword.forOpen.word.toList ++ ' ' :: content target text)) =
      contentStop target text + 3 := by
  have hfor : Text.byteLength Markup.Keyword.forOpen.word.toList = 3 := rfl
  have hspace : (' ' : Char).utf8Size = 1 := rfl
  rw [Markup.byteLength_enclose, Text.byteLength_append, Text.byteLength_cons, hfor, hspace,
    contentStop]
  omega

theorem byteLength_emptyLoop :
    Text.byteLength (emptyLoop target text).toList = contentStop target text + 15 := by
  have hendfor : Text.byteLength Markup.Keyword.forClose.word.toList = 6 := rfl
  rw [emptyLoop_eq, Text.byteLength_append, byteLength_header, Markup.byteLength_enclose, hendfor]

end

section
variable {target text : String} (ht : Identifier.isValid target.toList = true)
  (hn : text.toList ≠ []) (htrim : Text.Trimmed text.toList) (hu : Markup.Unmarked text.toList)
include ht hn htrim hu

theorem scan_emptyLoop : Markup.scan (emptyLoop target text).toList =
    let stop := contentStop target text
    [⟨.marker (.opening .tag), ⟨0, 2⟩⟩, ⟨.keyword .forOpen, ⟨3, 6⟩⟩,
      ⟨.content (content target text), ⟨7, stop⟩⟩,
      ⟨.marker (.closing .tag), ⟨stop + 1, stop + 3⟩⟩,
      ⟨.marker (.opening .tag), ⟨stop + 3, stop + 5⟩⟩, ⟨.keyword .forClose, ⟨stop + 6, stop + 12⟩⟩,
      ⟨.marker (.closing .tag), ⟨stop + 13, stop + 15⟩⟩] := by
  have hne : content target text ≠ [] := by simp [loopText]
  have hunmarked := unmarked_loopText ht hu
  have hsealed := Markup.sealed_enclose .tag ((Markup.unmarked_word .forOpen).spaced hunmarked)
  have hstart : 7 = 4 + Text.byteLength Markup.Keyword.forOpen.word.toList := rfl
  have hstop : contentStop target text = 7 + Text.byteLength (content target text) := rfl
  have hheader := Markup.scan_header .forOpen hne (trimmed_loopText ht hn htrim) hunmarked
    hstart hstop
  have hword : Markup.scan (Markup.enclose .tag Markup.Keyword.forClose.word.toList) =
      [⟨.marker (.opening .tag), ⟨0, 2⟩⟩, ⟨.keyword .forClose, ⟨3, 9⟩⟩,
        ⟨.marker (.closing .tag), ⟨10, 12⟩⟩] := rfl
  rw [emptyLoop_eq, hsealed.scan_append, hheader, hword, byteLength_header]
  rfl

/-- A loop without nodes is read when its text is read. -/
theorem read_emptyLoop : read (emptyLoop target text).toList =
    (Tag.loopHeader ⟨content target text, ⟨7, contentStop target text⟩⟩).map fun header =>
      [.loop ⟨0, contentStop target text + 15⟩ header.1 header.2 [] []] := by
  have hblocks : blocks (emptyLoop target text).toList =
      .ok [.loop ⟨0, contentStop target text + 15⟩
        ⟨content target text, ⟨7, contentStop target text⟩⟩ [] []] := by
    rw [blocks, scan_emptyLoop ht hn htrim hu]
    rfl
  rw [read, hblocks]
  cases hheader : Tag.loopHeader ⟨content target text, ⟨7, contentStop target text⟩⟩ <;>
    simp [Except.bind, Node.ofBlocks, Node.ofBlock, hheader, bind, Except.map]

/-- The loop over the tree of the expression, which stands behind `for`, the variable and `in`. -/
def loopOver (target text : String) (e : Expr) : Node :=
  .loop ⟨0, Text.byteLength (emptyLoop target text).toList⟩
    ⟨target, ⟨7, 7 + Text.byteLength target.toList⟩⟩
    (e.shift (11 + Text.byteLength target.toList)) [] []

theorem parse_of_split {e : Expr} (he : Expr.read text.toList = .ok e) {ws : List Word}
    (hws : split (content target text) = .ok ws) :
    parse (emptyLoop target text).toList = .ok [loopOver target text e] := by
  have hheader := Tag.loopHeader_of_split ht he hn htrim.1 hws ⟨7, contentStop target text⟩
  rw [parse, read_emptyLoop ht hn htrim hu, hheader, loopOver, byteLength_emptyLoop,
    String.ofList_toList]
  have hbase : 7 + (Text.byteLength target.toList + 4) = 11 + Text.byteLength target.toList := by
    omega
  rw [hbase]
  rfl

/-- **An expression means the same in a loop as on its own**, moved to where it stands there. Only
words can fail: a loop over an expression is refused exactly when the text of the loop cannot be cut
into words, and it can be cut when no string of the expression ends in a backslash that takes the
quote with it. -/
theorem parse_emptyLoop {e : Expr} (he : Expr.parse text.toList = .ok e) :
    (∀ ws, split (content target text) = .ok ws →
      parse (emptyLoop target text).toList = .ok [loopOver target text e]) ∧
    (∀ fault, split (content target text) = .error fault →
      parse (emptyLoop target text).toList = .error (.ofFault
        (.ofText (emptyLoop target text).toList)
        ⟨.words fault (content target text), ⟨7, contentStop target text⟩⟩)) ∧
    (PairedItems (Token.items text.toList) →
      parse (emptyLoop target text).toList = .ok [loopOver target text e]) := by
  have he : Expr.read text.toList = .ok e := Expr.mapError_eq_ok_iff.1 he
  refine ⟨fun ws hws => parse_of_split ht hn htrim hu he hws, fun fault hf => ?_, fun hp => ?_⟩
  · have hwords : Tag.words ⟨content target text, ⟨7, contentStop target text⟩⟩ =
        .error ⟨.words fault (content target text), ⟨7, contentStop target text⟩⟩ := by
      rw [Tag.words, hf]
    rw [parse, read_emptyLoop ht hn htrim hu, Tag.loopHeader, hwords]
    rfl
  · obtain ⟨ws, hws⟩ := exists_split_loopText ht he (pairedItems_shift hp _)
    exact parse_of_split ht hn htrim hu he hws

end

/-- `"\\"|f` -/
def pairedSample : String := "\"\\\\\"|f"

/-- Two backslashes in a string are a pair, and leave the quote alone. -/
theorem parse_emptyLoop_pair : Text.Trimmed pairedSample.toList ∧
    Markup.Unmarked pairedSample.toList ∧ PairedItems (Token.items pairedSample.toList) ∧
    ∃ e, Expr.parse pairedSample.toList = .ok e ∧
      parse (emptyLoop "x" pairedSample).toList = .ok [loopOver "x" pairedSample e] := by
  have ht : Text.Trimmed pairedSample.toList := by decide
  have hu : Markup.Unmarked pairedSample.toList := by decide
  have hitems : Token.items pairedSample.toList = [⟨.token (.string ['\\', '\\']), ⟨0, 4⟩⟩,
      ⟨.token .pipe, ⟨4, 5⟩⟩, ⟨.token (.name ['f']), ⟨5, 6⟩⟩] := by with_unfolding_all rfl
  have hpaired : PairedItems (Token.items pairedSample.toList) := by
    rw [hitems]
    simp [PairedItems, Paired.escape, Paired.nil]
  obtain ⟨e, he⟩ : ∃ e, Expr.parse pairedSample.toList = .ok e := ⟨_, by with_unfolding_all rfl⟩
  exact ⟨ht, hu, hpaired, e, he, (parse_emptyLoop rfl (by decide) ht hu he).2.2 hpaired⟩

/-- The string of one backslash is an expression, but in a loop its quote counts as escaped. -/
theorem parse_emptyLoop_backslash :
    Expr.parse "\"\\\"".toList = .ok (.literal ⟨0, 3⟩ (.str "\\")) ∧
      parse (emptyLoop "x" "\"\\\"").toList = .error
        ⟨.words (.unclosedQuote .double) "x in \"\\\"".toList, ⟨7, 15⟩, ⟨1, 8⟩⟩ := by
  have hsource : (emptyLoop "x" "\"\\\"").toList =
      "\x7b% for x in \"\\\" %\x7d\x7b% endfor %\x7d".toList := by
    simp [emptyLoop]
  have hblocks : blocks (emptyLoop "x" "\"\\\"").toList =
      .ok [.loop ⟨0, 30⟩ ⟨"x in \"\\\"".toList, ⟨7, 15⟩⟩ [] []] := by
    rw [hsource]
    with_unfolding_all rfl
  constructor
  · with_unfolding_all rfl
  · rw [parse_of_blocks hblocks, hsource]
    with_unfolding_all rfl

end Document
end Stencil
