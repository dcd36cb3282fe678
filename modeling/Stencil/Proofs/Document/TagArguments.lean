import Stencil.Proofs.Document.Tags
import Stencil.Proofs.Expr.FilterName
import Stencil.Proofs.Expr.Grammar
import Stencil.Proofs.Expr.RoundTrip
import Stencil.Proofs.Expr.Separated

/-!
# The arguments of a tag are those of a call

A tag cuts its arguments into words and finds a keyword by its first `=`; a call scans them all and
finds a keyword by its tokens. Both come to the same: each word is read as one argument wherever it
stands (`ReadAs`), and words with commas between them are read as the list of these
(`reads_listed`).
-/
namespace Stencil

open Stencil.Parser (Reads arguments argumentList)

/-! ## Arguments one by one -/

/-- Wherever the text stands, it is read as the argument. -/
def Argument.ReadAs (text : List Char) (a : Argument) : Prop :=
  ∀ offset, ∃ ts b, Token.scanFrom offset text = .ok ts ∧ Reads ts (.argument b) ∧
    b.1.bare = a.bare

/-- What a text is read as at one place, it is read as at every other, up to places. -/
theorem Expr.readAt_anywhere {base : Nat} {text : List Char} {e : Expr}
    (h : readAt base text = .ok e) (offset : Nat) :
    ∃ ts c, Token.scanFrom offset text = .ok ts ∧ Reads ts (.chain c) ∧ c.expr.bare = e.bare := by
  have hbase := readAt_shift base 0 text
  rw [Nat.add_zero, h] at hbase
  cases hread : readAt 0 text with
  | error fault =>
    rw [hread] at hbase
    cases hbase
  | ok e₀ =>
    rw [hread] at hbase
    obtain rfl : e = e₀.shift base := Except.ok.inj hbase
    obtain ⟨ts, hts, hparse⟩ := readAt_eq_ok_iff.1 (readAt_of_read hread offset)
    obtain ⟨c, hc, he⟩ := Parser.reads_of_parse hparse
    refine ⟨ts, c, hts, hc, ?_⟩
    rw [← he, shift, shift, bare_mapSpan, bare_mapSpan]

theorem Argument.readAs_positional {base : Nat} {text : List Char} {e : Expr}
    (h : Expr.readAt base text = .ok e) : ReadAs text (.positional e) := by
  intro offset
  obtain ⟨ts, c, hts, hc, he⟩ := Expr.readAt_anywhere h offset
  exact ⟨ts, _, hts, .positional hc, by simp [bare, he]⟩

theorem Argument.readAs_keyword {base : Nat} {name value : List Char} {e : Expr} (s : Span)
    (hn : Identifier.isValid name = true) (hr : String.ofList name ∉ Token.reserved)
    (hv : value.head? ≠ some '=') (h : Expr.readAt base value = .ok e) :
    ReadAs (name ++ '=' :: value) (.keyword ⟨String.ofList name, s⟩ e) := by
  intro offset
  obtain ⟨ts, c, hts, hc, he⟩ := Expr.readAt_anywhere h
    (offset + Text.byteLength name + 1)
  have hstop : ∀ cs, value = '=' :: cs → Token.withEquals? '=' = none := by
    rintro cs rfl
    exact absurd rfl hv
  obtain ⟨eq, hassign⟩ := Token.scanFrom_single (t := .assign) rfl ⟨nofun, nofun, nofun⟩ hstop hts
  have hpart : ∀ d ds, '=' :: value = d :: ds → Identifier.isPart d = false := by
    rintro d ds h
    rw [← (List.cons.inj h).1]
    rfl
  obtain ⟨span, hname⟩ := Token.scanFrom_name hn (Token.ofWord_of_not_reserved hr) hpart hassign
  refine ⟨_, _, hname, .keyword name span eq hc, ?_⟩
  simp [bare, he, Parser.ident, Ident.mapSpan]

/-! ## Arguments with commas between them -/

/-- The texts with a comma and a space between them. -/
def listed : List (List Char) → List Char := ", ".toList.intercalate

theorem listed_cons (w : List Char) : ∀ ws : List (List Char),
    listed (w :: ws) = w ++ ws.flatMap (", ".toList ++ ·)
  | [] => by simp [listed]
  | v :: ws => by
    have ih := listed_cons v ws
    rw [listed] at ih ⊢
    rw [List.intercalate_cons_cons, ih, List.flatMap_cons, List.append_assoc, List.append_assoc]

/-- Texts after those that were read already; the induction adds the next one to them. -/
theorem reads_listed_more : ∀ {pieces : List (List Char × Argument)},
    (∀ p ∈ pieces, p.2.ReadAs p.1) → ∀ {offset : Nat} {text : List Char}
    {ts : List (Located Token)} {a : Argument × Span} {done : List (Argument × Span)},
    Token.scanFrom offset text = .ok ts → Reads ts (.arguments (a :: done)) →
    ∃ us done', Token.scanFrom offset
        (text ++ (pieces.map Prod.fst).flatMap (", ".toList ++ ·)) = .ok us ∧
      Reads us (.arguments done') ∧ (arguments done').map Argument.bare =
        (arguments (a :: done)).map Argument.bare ++ pieces.map (fun p => p.2.bare)
  | [], _, offset, text, ts, a, done, hts, hr =>
    ⟨ts, a :: done, by simpa using hts, hr, by simp⟩
  | p :: pieces, h, offset, text, ts, a, done, hts, hr => by
    obtain ⟨hp, hrest⟩ := List.forall_mem_cons.1 h
    obtain ⟨us, b, hus, hb, hbare⟩ := hp (offset + Text.byteLength text + 1 + 1)
    have hspace : Token.scanFrom (offset + Text.byteLength text + 1) (' ' :: p.1) = .ok us := by
      rw [Token.scanFrom_skipped rfl]
      exact hus
    obtain ⟨s, hcomma⟩ := Token.scanFrom_single (t := .comma) (c := ',') rfl
      ⟨nofun, nofun, nofun⟩ (fun _ _ => rfl) hspace
    have hnext := Token.scanFrom_append (Or.inl rfl) hts hcomma
    obtain ⟨vs, done', hvs, hd, hlist⟩ := reads_listed_more hrest hnext (.moreArguments s hr hb)
    refine ⟨vs, done', by simpa using hvs, hd, ?_⟩
    rw [hlist]
    simp [arguments, hbare]

/-- **Texts with commas between them are read as the list of what each is read as.** -/
theorem reads_listed (pieces : List (List Char × Argument)) (h : ∀ p ∈ pieces, p.2.ReadAs p.1)
    (offset : Nat) : ∃ ts done,
      Token.scanFrom offset (listed (pieces.map Prod.fst)) = .ok ts ∧
      Reads ts (.arguments done) ∧
      (arguments done).map Argument.bare = (pieces.map Prod.snd).map Argument.bare := by
  cases pieces with
  | nil => exact ⟨[], [], Token.scanFrom_nil offset, .noArguments, rfl⟩
  | cons p pieces =>
    obtain ⟨hp, hrest⟩ := List.forall_mem_cons.1 h
    obtain ⟨ts, b, hts, hb, hbare⟩ := hp offset
    obtain ⟨us, done, hus, hd, hlist⟩ := reads_listed_more hrest hts (.oneArgument hb)
    refine ⟨us, done, by rwa [List.map_cons, listed_cons], hd, ?_⟩
    rw [hlist]
    simp [arguments, hbare]

/-- **A list of arguments in parentheses behind a name is read as a call of the name.** -/
theorem Expr.parse_call {callee : List Char} (hc : Identifier.isValid callee = true)
    (hr : String.ofList callee ∉ Token.reserved) {pieces : List (List Char × Argument)}
    (h : ∀ p ∈ pieces, p.2.ReadAs p.1) {as : List Expr} {ks : List (Ident × Expr)}
    (hlist : pieces.map Prod.snd = argumentList as ks)
    (hn : (ks.map (fun k => k.1.name)).Nodup) :
    ∃ e, parse (callee ++ '(' :: (listed (pieces.map Prod.fst) ++ [')'])) = .ok e ∧
      e.bare = (call ⟨0, 0⟩ (.name ⟨0, 0⟩ (String.ofList callee)) as ks).bare := by
  have hapart : Token.Apart .lparen ∧ Token.Apart .rparen :=
    ⟨⟨nofun, nofun, nofun⟩, nofun, nofun, nofun⟩
  obtain ⟨ts, done, hts, hd, hdone⟩ := reads_listed pieces h (0 + Text.byteLength callee + 1)
  obtain ⟨b, hclose⟩ := Token.scanFrom_single (c := ')') rfl hapart.2 (fun _ _ => rfl)
    (Token.scanFrom_nil _)
  obtain ⟨a, hopen⟩ := Token.scanFrom_single (c := '(') rfl hapart.1 (fun _ _ => rfl)
    (Token.scanFrom_append (Or.inr rfl) hts hclose)
  obtain ⟨s, hscan⟩ := Token.scanFrom_name hc (Token.ofWord_of_not_reserved hr) (by
    rintro d ds h
    rw [← (List.cons.inj h).1]
    rfl) hopen
  rw [hlist] at hdone
  have hcall := Reads.call a b (.name callee s) hd (Parser.ordered_of_bare hdone hn)
  refine ⟨(Parser.Phrase.call ⟨name s (String.ofList callee), s⟩ (arguments done) b).expr,
    (parse_eq_ok_iff hscan).2 ⟨_, .first hcall, rfl⟩, ?_⟩
  obtain ⟨hpos, hkey⟩ := Parser.mapSpans_of_bare hdone
  rw [Parser.positionals_argumentList] at hpos
  rw [Parser.keywords_argumentList] at hkey
  simp [Parser.Phrase.call, bare, mapSpan, hpos, hkey]

/-! ## The arguments of a tag -/

namespace Tag

open TagWords (Word)

/-- The keyword of a word is followed by one `=`, not by two. -/
theorem head?_of_keywordParts? {word name value : List Char}
    (h : keywordParts? word = some (name, value)) : value.head? ≠ some '=' := by
  unfold keywordParts? at h
  dsimp only at h
  split at h
  · split at h
    · rename_i hvalue
      cases h
      have hvalue : (value.head? != some '=') = true := (Bool.and_eq_true _ _ ▸ hvalue).2
      simpa using hvalue
    · cases h
  · cases h

/-- **Each word of a tag is one argument**, and stands behind the arguments that were read before
it. Of the keywords none is given twice. -/
theorem pieces_of_arguments {base : Nat} {r : List Expr × List (Ident × Expr)} :
    ∀ {ws : List Word} {args : List Expr} {ks : List (Ident × Expr)},
      Tag.arguments base args ks ws = .ok r → (ks.map (fun k => k.1.name)).Nodup →
      (r.2.map (fun k => k.1.name)).Nodup ∧ ∃ pieces : List (List Char × Argument),
        pieces.map Prod.fst = ws.map Word.text ∧
        argumentList r.1 r.2 = argumentList args ks ++ pieces.map Prod.snd ∧
        ∀ p ∈ pieces, (∀ name ∈ p.2.name?, name ∉ Token.reserved) → p.2.ReadAs p.1
  | [], args, ks, h, hn => by
    cases h
    exact ⟨hn, [], rfl, by simp, by simp⟩
  | w :: ws, args, ks, h, hn => by
    rcases arguments_cons h with ⟨name, value, e, hp, hk, he, h⟩ | ⟨e, hp, rfl, he, h⟩
    · obtain ⟨hsplit, hvalid⟩ := eq_of_keywordParts? hp
      have hnew : (ks.map (fun k => k.1.name) ++ [String.ofList name]).Nodup := by
        have hne : ∀ k ∈ ks, k.1.name ≠ String.ofList name := by
          simpa only [List.any_eq_false, beq_iff_eq] using hk
        refine List.nodup_append.2 ⟨hn, by simp, List.forall_mem_map.2 fun k hks => ?_⟩
        simpa using hne k hks
      obtain ⟨hr, pieces, hfst, hsnd, hread⟩ := pieces_of_arguments h (by simpa using hnew)
      let key : Ident :=
        ⟨String.ofList name, ⟨base + w.offset, base + w.offset + Text.byteLength name⟩⟩
      refine ⟨hr, (w.text, .keyword key e) :: pieces, by simp [hfst], ?_, ?_⟩
      · rw [hsnd]
        simp [argumentList, key]
      · refine List.forall_mem_cons.2 ⟨fun hname => ?_, hread⟩
        rw [hsplit]
        exact Argument.readAs_keyword _ hvalid (hname _ rfl) (head?_of_keywordParts? hp) he
    · obtain ⟨hr, pieces, hfst, hsnd, hread⟩ := pieces_of_arguments h hn
      refine ⟨hr, (w.text, .positional e) :: pieces, by simp [hfst], ?_, ?_⟩
      · rw [hsnd]
        simp [argumentList]
      · exact List.forall_mem_cons.2 ⟨fun _ => Argument.readAs_positional he, hread⟩

/-- **The words behind the name of a tag are the arguments of a call.** With commas between them and
in parentheses behind a name they are read as a call of the name with the arguments of the tag, up to
places. -/
theorem parse_call_of_arguments {callee : List Char} (hc : Identifier.isValid callee = true)
    (hr : String.ofList callee ∉ Token.reserved) {base : Nat} {ws : List Word} {args : List Expr}
    {ks : List (Ident × Expr)} (h : Tag.arguments base [] [] ws = .ok (args, ks))
    (hk : ∀ k ∈ ks, k.1.name ∉ Token.reserved) :
    ∃ e, Expr.parse (callee ++ '(' :: (listed (ws.map Word.text) ++ [')'])) = .ok e ∧
      e.bare = (Expr.call ⟨0, 0⟩ (.name ⟨0, 0⟩ (String.ofList callee)) args ks).bare := by
  obtain ⟨hn, pieces, hfst, hsnd, hread⟩ := pieces_of_arguments h List.nodup_nil
  have hlist : pieces.map Prod.snd = argumentList args ks := hsnd.symm
  rw [← hfst]
  refine Expr.parse_call hc hr (fun p hp => hread p hp ?_) hlist hn
  intro name hname
  have hmem : p.2 ∈ argumentList args ks := hlist ▸ List.mem_map_of_mem hp
  rcases List.mem_append.1 hmem with hmem | hmem
  · obtain ⟨e, -, he⟩ := List.mem_map.1 hmem
    rw [← he] at hname
    cases hname
  · obtain ⟨k, hks, he⟩ := List.mem_map.1 hmem
    rw [← he] at hname
    cases hname
    exact hk k hks

end Tag
end Stencil
