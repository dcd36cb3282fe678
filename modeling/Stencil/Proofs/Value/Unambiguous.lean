import Mathlib.Data.List.Forall2
import Stencil.Proofs.Expr.Number
import Stencil.Value.Basic

/-!
# The form of values is unambiguous

Values of the plain kinds, at any depth, have the same form only if they are the same but for their
identity (`repr_unambiguous`). Each form says where it ends (`Delimited`): a string by its quote,
which it does not hold or holds escaped only, a list and a map by the bracket where an item or a
separator could follow, a constant by its length, and an integer by what is no digit. What kind of
value is written is seen from the first character (`kindOf?`).
-/
namespace Stencil.Value

/-- Nothing but constants, booleans, integers and strings, in lists and maps of any depth. -/
inductive Plain : Value → Prop
  | none : Plain .none
  | bool (b : Bool) : Plain (.bool b)
  | int (n : Int64) : Plain (.int n)
  | str (s : String) : Plain (.str s)
  | list (i : Identity) {items : List Value} : (∀ v ∈ items, Plain v) → Plain (.list i items)
  | map (i : Identity) {entries : List (String × Value)} :
      (∀ e ∈ entries, Plain e.2) → Plain (.map i entries)

/-- The same value, identity apart: one kind, and the same elements or entries in order. -/
inductive Alike : Value → Value → Prop
  | none : Alike .none .none
  | bool (b : Bool) : Alike (.bool b) (.bool b)
  | int (n : Int64) : Alike (.int n) (.int n)
  | str (s : String) : Alike (.str s) (.str s)
  | list (i j : Identity) {as bs : List Value} : List.Forall₂ Alike as bs →
      Alike (.list i as) (.list j bs)
  | map (i j : Identity) {as bs : List (String × Value)} :
      as.map Prod.fst = bs.map Prod.fst → List.Forall₂ Alike (as.map Prod.snd) (bs.map Prod.snd) →
      Alike (.map i as) (.map j bs)

/-! ## Words up to an end mark -/

section
variable {α : Type} {word : α → List Char} {same : α → α → Prop} {follows : List Char → Prop}
  {stop : Char} {r s : List Char}

theorem follows_words (hstop : ∀ x, follows (stop :: x)) (hword : ∀ a x, follows (word a ++ x)) :
    ∀ (as : List α) (x : List Char), follows (as.flatMap word ++ stop :: x)
  | [], x => hstop x
  | a :: as, x => by
    rw [List.flatMap_cons, List.append_assoc]
    exact hword a _

/-- In a row of words up to an end mark the words can be told apart, if a word can be told from
another, by what follows it, and from the mark. -/
theorem forall₂_of_words (hstop : ∀ x, follows (stop :: x)) (hword : ∀ a x, follows (word a ++ x)) :
    ∀ {as bs : List α},
    (∀ a ∈ as, ∀ b ∈ bs, ∀ x y, follows x → follows y → word a ++ x = word b ++ y →
      same a b ∧ x = y) →
    (∀ a ∈ as, ∀ x y, word a ++ x ≠ stop :: y) → (∀ b ∈ bs, ∀ x y, word b ++ x ≠ stop :: y) →
    as.flatMap word ++ stop :: r = bs.flatMap word ++ stop :: s → List.Forall₂ same as bs ∧ r = s
  | [], [], _, _, _, h => ⟨.nil, (List.cons.inj h).2⟩
  | [], b :: bs, _, _, hbs, h => by
    rw [List.flatMap_cons, List.append_assoc] at h
    exact absurd h.symm (hbs b (by simp) _ _)
  | a :: as, [], _, has, _, h => by
    rw [List.flatMap_cons, List.append_assoc] at h
    exact absurd h (has a (by simp) _ _)
  | a :: as, b :: bs, hsame, has, hbs, h => by
    -- behind the first words come other words or the mark, so the two end at one place
    have hfollows := follows_words hstop hword
    rw [List.flatMap_cons, List.flatMap_cons, List.append_assoc, List.append_assoc] at h
    obtain ⟨hfirst, hrest⟩ :=
      hsame a (by simp) b (by simp) _ _ (hfollows as r) (hfollows bs s) h
    obtain ⟨hall, hend⟩ := forall₂_of_words hstop hword
      (fun a ha b hb => hsame a (by simp [ha]) b (by simp [hb]))
      (fun a ha => has a (by simp [ha])) (fun b hb => hbs b (by simp [hb])) hrest
    exact ⟨.cons hfirst hall, hend⟩

end

/-! ## Strings -/

/-- A character as it stands between single quotes. -/
def guarded (c : Char) : List Char := if c = '\\' ∨ c = '\'' then ['\\', c] else [c]

theorem toList_quote (s : String) :
    (quote s).toList = '\'' :: (s.toList.flatMap guarded ++ ['\'']) ∨
      '"' ∉ s.toList ∧ (quote s).toList = '"' :: (s.toList ++ ['"']) := by
  unfold quote
  split
  · rename_i hquotes
    have hnone : '"' ∉ s.toList := by simpa using (Bool.and_eq_true_iff.1 hquotes).2
    exact .inr ⟨hnone, String.toList_ofList⟩
  · exact .inl String.toList_ofList

theorem guarded_append_inj {c d : Char} {x y : List Char}
    (h : guarded c ++ x = guarded d ++ y) : c = d ∧ x = y := by
  unfold guarded at h
  split at h <;> split at h
  · simpa using h
  · rename_i hd
    exact absurd (.inl (List.cons.inj h).1.symm) hd
  · rename_i hc _
    exact absurd (.inl (List.cons.inj h).1) hc
  · simpa using h

theorem guarded_append_ne (c : Char) (x y : List Char) : guarded c ++ x ≠ '\'' :: y := by
  unfold guarded
  split <;> simp_all

/-- Texts whose characters can be told apart, without a look at what follows, and from the mark. -/
theorem text_of_words {word : Char → List Char} {s t : String} {stop : Char} {x y : List Char}
    (hword : ∀ c d u v, word c ++ u = word d ++ v → c = d ∧ u = v)
    (hs : ∀ c ∈ s.toList, ∀ u v, word c ++ u ≠ stop :: v)
    (ht : ∀ c ∈ t.toList, ∀ u v, word c ++ u ≠ stop :: v)
    (h : s.toList.flatMap word ++ stop :: x = t.toList.flatMap word ++ stop :: y) :
    s = t ∧ x = y := by
  obtain ⟨hall, hend⟩ := @forall₂_of_words _ word Eq (fun _ => True) stop x y (fun _ => trivial)
    (fun _ _ => trivial) _ _ (fun c _ d _ u v _ _ => hword c d u v) hs ht h
  rw [List.forall₂_eq_eq_eq] at hall
  exact ⟨String.toList_inj.1 hall, hend⟩

/-- A quoted string ends at its quote. -/
theorem quote_append_inj {s t : String} {x y : List Char}
    (h : (quote s).toList ++ x = (quote t).toList ++ y) : s = t ∧ x = y := by
  rcases toList_quote s with hs | ⟨hsquote, hs⟩ <;>
    rcases toList_quote t with ht | ⟨htquote, ht⟩ <;>
    rw [hs, ht, List.cons_append, List.cons_append, List.append_assoc, List.append_assoc] at h
  · exact text_of_words (fun _ _ _ _ => guarded_append_inj) (fun c _ => guarded_append_ne c)
      (fun c _ => guarded_append_ne c) (List.cons.inj h).2
  · cases (List.cons.inj h).1
  · cases (List.cons.inj h).1
  · have hplain : ∀ u : String, '"' ∉ u.toList → ∀ c ∈ u.toList, ∀ v w, [c] ++ v ≠ '"' :: w := by
      rintro u hu c hc v w heq
      exact hu ((List.cons.inj heq).1 ▸ hc)
    refine text_of_words (fun c d u v => List.cons.inj) (hplain s hsquote) (hplain t htquote) ?_
    rw [List.flatMap_singleton', List.flatMap_singleton']
    exact (List.cons.inj h).2

/-! ## Integers -/

/-- The text does not go on with a digit. -/
def Apart (rest : List Char) : Prop := ∀ c cs, rest = c :: cs → c.isDigit = false

theorem apart_cons {c : Char} (h : c.isDigit = false) (cs : List Char) : Apart (c :: cs) := by
  intro d ds hd
  obtain ⟨rfl, -⟩ := List.cons.inj hd
  exact h

theorem digits_append_inj {m n : Nat} {x y : List Char} (hx : Apart x) (hy : Apart y)
    (h : Nat.toDigits 10 m ++ x = Nat.toDigits 10 n ++ y) : m = n ∧ x = y := by
  obtain ⟨htake, hdrop⟩ := span_digits (isDigits_toDigits m) x hx
  obtain ⟨htake', hdrop'⟩ := span_digits (isDigits_toDigits n) y hy
  rw [h] at htake hdrop
  refine ⟨?_, hdrop.symm.trans hdrop'⟩
  calc m = Nat.ofDigitChars 10 (Nat.toDigits 10 m) 0 := Nat.ofDigitChars_ten_toDigits.symm
    _ = Nat.ofDigitChars 10 (Nat.toDigits 10 n) 0 := by rw [← htake, htake']
    _ = n := Nat.ofDigitChars_ten_toDigits

/-- A natural number stands as its digits, a negative one behind a minus sign. -/
theorem toList_toString (n : Int) :
    (∃ k : Nat, n = k ∧ (toString n).toList = Nat.toDigits 10 k) ∨
      ∃ k : Nat, n = -k ∧ (toString n).toList = '-' :: Nat.toDigits 10 k := by
  cases n with
  | ofNat k => exact .inl ⟨k, rfl, Nat.toList_repr⟩
  | negSucc k =>
    refine .inr ⟨k + 1, rfl, ?_⟩
    rw [Int.toString_eq_repr, Int.repr, String.toList_append, Nat.toList_repr]
    rfl

theorem digits_append_ne (n : Nat) (x y : List Char) : Nat.toDigits 10 n ++ x ≠ '-' :: y := by
  obtain ⟨hne, hdigits⟩ := isDigits_toDigits n
  obtain ⟨c, cs, hcs⟩ := List.exists_cons_of_ne_nil hne
  have hc : c.isDigit = true := hdigits c (by simp [hcs])
  rw [hcs]
  rintro h
  obtain ⟨rfl, -⟩ := List.cons.inj h
  cases hc

theorem integer_append_inj {m n : Int} {x y : List Char} (hx : Apart x) (hy : Apart y)
    (h : (toString m).toList ++ x = (toString n).toList ++ y) : m = n ∧ x = y := by
  rcases toList_toString m with ⟨k, rfl, hm⟩ | ⟨k, rfl, hm⟩ <;>
    rcases toList_toString n with ⟨l, rfl, hn⟩ | ⟨l, rfl, hn⟩ <;> rw [hm, hn] at h
  · obtain ⟨rfl, hend⟩ := digits_append_inj hx hy h
    exact ⟨rfl, hend⟩
  · exact absurd h (digits_append_ne k x _)
  · exact absurd h.symm (digits_append_ne l y _)
  · obtain ⟨rfl, hend⟩ := digits_append_inj hx hy (List.cons.inj h).2
    exact ⟨rfl, hend⟩

/-! ## The first character -/

/-- The kind of the values whose form begins with this character. -/
def kindOf? (c : Char) : Option String :=
  if c = 'N' then some "none"
  else if c = 'T' ∨ c = 'F' then some "bool"
  else if c = '-' ∨ c.isDigit = true then some "int"
  else if c = '\'' ∨ c = '"' then some "string"
  else if c = '[' then some "list"
  else if c = '\x7b' then some "map"
  else Option.none

theorem kindOf?_of_isDigit {c : Char} (h : c.isDigit = true) : kindOf? c = some "int" := by
  have hletter : c ≠ 'N' ∧ ¬ (c = 'T' ∨ c = 'F') := by
    refine ⟨?_, ?_⟩
    · rintro rfl
      cases h
    · rintro (rfl | rfl) <;> cases h
  rw [kindOf?, if_neg hletter.1, if_neg hletter.2, if_pos (.inr h)]

theorem first_toString (n : Int) : ∃ c cs, (toString n).toList = c :: cs ∧
    kindOf? c = some "int" := by
  rcases toList_toString n with ⟨k, -, hk⟩ | ⟨k, -, hk⟩
  · obtain ⟨hne, hdigits⟩ := isDigits_toDigits k
    obtain ⟨c, cs, hcs⟩ := List.exists_cons_of_ne_nil hne
    exact ⟨c, cs, hk.trans hcs, kindOf?_of_isDigit (hdigits c (by simp [hcs]))⟩
  · exact ⟨_, _, hk, rfl⟩

theorem first_quote (s : String) : ∃ c cs, (quote s).toList = c :: cs ∧
    kindOf? c = some "string" := by
  rcases toList_quote s with h | ⟨-, h⟩
  · exact ⟨_, _, h, rfl⟩
  · exact ⟨_, _, h, rfl⟩

theorem toList_repr_list (i : Identity) (items : List Value) :
    (repr (.list i items)).toList = '[' :: ((", ".intercalate (reprs items)).toList ++ [']']) := by
  simp [repr, asText?, text]

theorem toList_repr_map (i : Identity) (entries : List (String × Value)) :
    (repr (.map i entries)).toList =
      '\x7b' :: ((", ".intercalate (entryReprs entries)).toList ++ ['\x7d']) := by
  simp [repr, asText?, text]

/-- The first character tells the kind. -/
theorem first_repr {v : Value} (h : Plain v) : ∃ c cs, v.repr.toList = c :: cs ∧
    kindOf? c = some v.kind := by
  cases h with
  | none => exact ⟨_, _, rfl, rfl⟩
  | bool b => cases b <;> exact ⟨_, _, rfl, rfl⟩
  | int n => exact first_toString n.toInt
  | str s => exact first_quote s
  | list i _ => exact ⟨_, _, toList_repr_list i _, rfl⟩
  | map i _ => exact ⟨_, _, toList_repr_map i _, rfl⟩

theorem kind_eq_of_append {a b : Value} {x y : List Char} (ha : Plain a) (hb : Plain b)
    (h : a.repr.toList ++ x = b.repr.toList ++ y) : a.kind = b.kind := by
  obtain ⟨c, cs, hc, hkind⟩ := first_repr ha
  obtain ⟨d, ds, hd, hkind'⟩ := first_repr hb
  rw [hc, hd] at h
  rw [(List.cons.inj h).1, hkind'] at hkind
  exact (Option.some.inj hkind).symm

theorem append_ne_of_kind {w x y : List Char} {stop : Char} {kind : String}
    (hfirst : ∃ c cs, w = c :: cs ∧ kindOf? c = some kind) (hstop : kindOf? stop = Option.none) :
    w ++ x ≠ stop :: y := by
  obtain ⟨c, cs, rfl, hkind⟩ := hfirst
  intro h
  rw [(List.cons.inj h).1, hstop] at hkind
  cases hkind

/-! ## Lists and maps -/

theorem reprs_eq : ∀ items : List Value, reprs items = items.map repr
  | [] => rfl
  | v :: vs => by
    rw [reprs, reprs_eq vs]
    rfl

/-- The form of an entry of a map. -/
def entryRepr (e : String × Value) : String := quote e.1 ++ ": " ++ repr e.2

theorem entryReprs_eq : ∀ entries : List (String × Value),
    entryReprs entries = entries.map entryRepr
  | [] => rfl
  | e :: entries => by
    rw [entryReprs, entryReprs_eq entries]
    rfl

/-- A form behind its separator. -/
def further (form : String) : List Char := ',' :: ' ' :: form.toList

theorem toList_intercalate_cons (w : String) : ∀ ws : List String,
    (", ".intercalate (w :: ws)).toList = w.toList ++ ws.flatMap further
  | [] => by simp
  | v :: ws => by
    have ih := toList_intercalate_cons v ws
    rw [String.toList_intercalate] at ih ⊢
    simp only [List.map_cons, List.intercalate_cons_cons] at ih ⊢
    rw [ih]
    simp [further]

/-- Forms in a row, with separators between them and a mark at the end, can be told apart. -/
theorem forall₂_of_joined {α : Type} {form : α → String} {same : α → α → Prop} {stop : Char}
    {as bs : List α} {x y : List Char} (hstop : stop.isDigit = false ∧ stop ≠ ',')
    (hsame : ∀ a ∈ as, ∀ b ∈ bs, ∀ x y, Apart x → Apart y →
      (form a).toList ++ x = (form b).toList ++ y → same a b ∧ x = y)
    (has : ∀ a ∈ as, ∀ x y, (form a).toList ++ x ≠ stop :: y)
    (hbs : ∀ b ∈ bs, ∀ x y, (form b).toList ++ x ≠ stop :: y)
    (h : (", ".intercalate (as.map form)).toList ++ stop :: x =
      (", ".intercalate (bs.map form)).toList ++ stop :: y) :
    List.Forall₂ same as bs ∧ x = y := by
  have hmark : ∀ z, Apart (stop :: z) := apart_cons hstop.1
  have hcomma : ∀ (a : α) (z : List Char), Apart (further (form a) ++ z) := fun _ _ =>
    apart_cons (by decide) _
  cases as with
  | nil =>
    cases bs with
    | nil => exact ⟨.nil, (List.cons.inj h).2⟩
    | cons b bs =>
      rw [List.map_cons, toList_intercalate_cons, List.append_assoc] at h
      exact absurd h.symm (hbs b (by simp) _ _)
  | cons a as =>
    cases bs with
    | nil =>
      rw [List.map_cons, toList_intercalate_cons, List.append_assoc] at h
      exact absurd h (has a (by simp) _ _)
    | cons b bs =>
      -- the first form has no separator in front of it; the others are words that begin with one
      rw [List.map_cons, List.map_cons, toList_intercalate_cons, toList_intercalate_cons,
        List.append_assoc, List.append_assoc, List.flatMap_map, List.flatMap_map] at h
      have hfollows := follows_words hmark hcomma
      obtain ⟨hfirst, hrest⟩ :=
        hsame a (by simp) b (by simp) _ _ (hfollows as x) (hfollows bs y) h
      have hseparator : ∀ (c : α) (u v : List Char), further (form c) ++ u ≠ stop :: v :=
        fun c u v heq => hstop.2 (List.cons.inj heq).1.symm
      obtain ⟨hall, hend⟩ := forall₂_of_words hmark hcomma
        (fun a ha b hb u v hu hv heq => hsame a (by simp [ha]) b (by simp [hb]) u v hu hv
          (List.cons.inj (List.cons.inj heq).2).2)
        (fun c _ => hseparator c) (fun c _ => hseparator c) hrest
      exact ⟨.cons hfirst hall, hend⟩

/-! ## Values -/

/-- Whatever follows but a digit, the form of the value is told from that of any other value. -/
def Delimited (a : Value) : Prop :=
  ∀ b, Plain b → ∀ x y, Apart x → Apart y → a.repr.toList ++ x = b.repr.toList ++ y →
    Alike a b ∧ x = y

theorem delimited_list (i : Identity) {as : List Value} (hitems : ∀ v ∈ as, Plain v)
    (ih : ∀ v ∈ as, Delimited v) (j : Identity) {bs : List Value} (hb : ∀ v ∈ bs, Plain v)
    {x y : List Char}
    (h : (repr (.list i as)).toList ++ x = (repr (.list j bs)).toList ++ y) :
    Alike (.list i as) (.list j bs) ∧ x = y := by
  rw [toList_repr_list, toList_repr_list, List.cons_append, List.cons_append, List.append_assoc,
    List.append_assoc, reprs_eq, reprs_eq] at h
  have hmark : ∀ v, Plain v → ∀ u w, (repr v).toList ++ u ≠ ']' :: w := fun v hv u w =>
    append_ne_of_kind (first_repr hv) rfl
  obtain ⟨hall, hend⟩ := forall₂_of_joined ⟨rfl, by decide⟩ (fun a ha b hb' => ih a ha b (hb b hb'))
    (fun a ha => hmark a (hitems a ha)) (fun b hb' => hmark b (hb b hb')) (List.cons.inj h).2
  exact ⟨.list i j hall, hend⟩

/-- An entry ends with its value. -/
theorem entry_append_inj {d e : String × Value} (hd : Delimited d.2) (he : Plain e.2)
    {x y : List Char} (hx : Apart x) (hy : Apart y)
    (h : (entryRepr d).toList ++ x = (entryRepr e).toList ++ y) :
    (d.1 = e.1 ∧ Alike d.2 e.2) ∧ x = y := by
  simp only [entryRepr, String.toList_append, List.append_assoc] at h
  obtain ⟨hname, hvalue⟩ := quote_append_inj h
  obtain ⟨halike, hend⟩ := hd e.2 he x y hx hy (List.append_cancel_left hvalue)
  exact ⟨⟨hname, halike⟩, hend⟩

theorem entry_append_ne (e : String × Value) (x y : List Char) :
    (entryRepr e).toList ++ x ≠ '\x7d' :: y := by
  simp only [entryRepr, String.toList_append, List.append_assoc]
  exact append_ne_of_kind (first_quote e.1) rfl

theorem alike_map (i j : Identity) {as bs : List (String × Value)}
    (h : List.Forall₂ (fun d e => d.1 = e.1 ∧ Alike d.2 e.2) as bs) :
    Alike (.map i as) (.map j bs) := by
  refine .map i j ?_ ?_
  · rw [← List.forall₂_eq_eq_eq, List.forall₂_map_left_iff, List.forall₂_map_right_iff]
    exact h.imp fun _ _ hboth => hboth.1
  · rw [List.forall₂_map_left_iff, List.forall₂_map_right_iff]
    exact h.imp fun _ _ hboth => hboth.2

theorem delimited_map (i : Identity) {as : List (String × Value)}
    (ih : ∀ e ∈ as, Delimited e.2) (j : Identity) {bs : List (String × Value)}
    (hb : ∀ e ∈ bs, Plain e.2) {x y : List Char}
    (h : (repr (.map i as)).toList ++ x = (repr (.map j bs)).toList ++ y) :
    Alike (.map i as) (.map j bs) ∧ x = y := by
  rw [toList_repr_map, toList_repr_map, List.cons_append, List.cons_append, List.append_assoc,
    List.append_assoc, entryReprs_eq, entryReprs_eq] at h
  obtain ⟨hall, hend⟩ := forall₂_of_joined ⟨rfl, by decide⟩
    (fun d hd e he x y hx hy => entry_append_inj (ih d hd) (hb e he) hx hy)
    (fun d _ => entry_append_ne d) (fun e _ => entry_append_ne e) (List.cons.inj h).2
  exact ⟨alike_map i j hall, hend⟩

/-- Only values of one kind need to be told apart by more than the first character. -/
theorem delimited_of_kind {a : Value} (ha : Plain a)
    (h : ∀ b, Plain b → a.kind = b.kind → ∀ x y, Apart x → Apart y →
      a.repr.toList ++ x = b.repr.toList ++ y → Alike a b ∧ x = y) : Delimited a :=
  fun b hb x y hx hy heq => h b hb (kind_eq_of_append ha hb heq) x y hx hy heq

theorem delimited_of_plain {a : Value} (ha : Plain a) : Delimited a := by
  induction ha with
  | none =>
    refine delimited_of_kind .none fun b hb hkind x y _ _ h => ?_
    cases hb with
    | none => exact ⟨.none, List.append_cancel_left h⟩
    | _ => simp [kind] at hkind
  | bool p =>
    refine delimited_of_kind (.bool p) fun b hb hkind x y _ _ h => ?_
    cases hb with
    | bool q =>
      cases p <;> cases q
      · exact ⟨.bool _, List.append_cancel_left h⟩
      · cases (List.cons.inj h).1
      · cases (List.cons.inj h).1
      · exact ⟨.bool _, List.append_cancel_left h⟩
    | _ => simp [kind] at hkind
  | int m =>
    refine delimited_of_kind (.int m) fun b hb hkind x y hx hy h => ?_
    cases hb with
    | int n =>
      obtain ⟨hmn, hend⟩ := integer_append_inj hx hy h
      obtain rfl := Int64.toInt_inj.1 hmn
      exact ⟨.int m, hend⟩
    | _ => simp [kind] at hkind
  | str s =>
    refine delimited_of_kind (.str s) fun b hb hkind x y _ _ h => ?_
    cases hb with
    | str t =>
      obtain ⟨rfl, hend⟩ := quote_append_inj h
      exact ⟨.str s, hend⟩
    | _ => simp [kind] at hkind
  | list i hitems ih =>
    refine delimited_of_kind (.list i hitems) fun b hb hkind x y _ _ h => ?_
    cases hb with
    | list j hb => exact delimited_list i hitems ih j hb h
    | _ => simp [kind] at hkind
  | map i hentries ih =>
    refine delimited_of_kind (.map i hentries) fun b hb hkind x y _ _ h => ?_
    cases hb with
    | map j hb => exact delimited_map i ih j hb h
    | _ => simp [kind] at hkind

/-- **Plain values of one form are the same value.** -/
theorem repr_unambiguous {a b : Value} (ha : Plain a) (hb : Plain b) (h : a.repr = b.repr) :
    Alike a b := by
  have hnil : Apart [] := fun _ _ => nofun
  refine (delimited_of_plain ha b hb [] [] hnil hnil ?_).1
  rw [h]

/-- Two lists with a quote, a map and a constant, that only their identities tell apart. -/
theorem repr_unambiguous_quotes :
    repr (.list (.given 0) [.str "it's", .map (.given 1) [("\\", .int (-1))], .none]) =
        "[\"it's\", \x7b'\\\\': -1\x7d, None]" ∧
      Alike (.list (.given 0) [.str "it's", .map (.given 1) [("\\", .int (-1))], .none])
        (.list (.made 2) [.str "it's", .map (.made 3) [("\\", .int (-1))], .none]) := by
  have hplain : ∀ i j : Identity,
      Plain (.list i [.str "it's", .map j [("\\", .int (-1))], .none]) := fun i j =>
    .list i (by simp [Plain.str, Plain.none, Plain.map, Plain.int])
  exact ⟨rfl, repr_unambiguous (hplain _ _) (hplain _ _) rfl⟩

end Stencil.Value
