import Stencil.Loader

/-!
# The loader stays in its directories

`Loader.find` tries candidates with paths that are resolved step by step: the directory first, then
the name in it. `verdict` says what a name and a directory come to in terms of written paths alone:
the texts are put together and resolved once. The search is decided by the first pair that has a
verdict (`search_eq`). Resolving never leaves `.`, `..` or a separator in a name, so a path that was
found is the one that its text spells (`ofText_text`).
-/
namespace Stencil

namespace Path

/-! ## Written paths -/

/-- The path that a text means from the root down. -/
def ofText (text : String) : Path := root.resolve text

/-- A text put behind the text of a place; one that begins at the root replaces it. -/
def join (place text : String) : String :=
  if isAbsolute text then text else place ++ "/" ++ text

theorem ofText_eq (text : String) : ofText text = (namesOf text).foldl enter root := by
  simp [ofText, resolve]

theorem namesOf_append (a b : String) : namesOf (a ++ "/" ++ b) = namesOf a ++ namesOf b := by
  have hslash : "/".toList = ['/'] := rfl
  simp only [namesOf, String.toList_append, hslash, List.append_assoc, List.singleton_append,
    Text.cut_append, List.map_append]

/-- Resolving a text at a place is resolving the two texts put together. -/
theorem ofText_join (place text : String) :
    ofText (join place text) = (ofText place).resolve text := by
  unfold join
  split
  · rename_i h
    simp [ofText, resolve, h]
  · rename_i h
    rw [ofText_eq, namesOf_append, List.foldl_append, ← ofText_eq, resolve, if_neg h]

/-! ## Names without separators -/

/-- No name of the path holds a separator. -/
def IsWhole (p : Path) : Prop := ∀ n ∈ p.names, '/' ∉ n.toList

theorem isWhole_enter {p : Path} (h : p.IsWhole) {name : String} (hn : '/' ∉ name.toList) :
    (p.enter name).IsWhole := by
  unfold enter
  split
  · exact h
  · split
    · exact fun n hm => h n (List.dropLast_subset _ hm)
    · intro n hm
      rcases List.mem_append.1 hm with hm | hm
      · exact h n hm
      · obtain rfl := List.mem_singleton.1 hm
        exact hn

theorem isWhole_foldl_enter : ∀ {names : List String} {p : Path}, p.IsWhole →
    (∀ n ∈ names, '/' ∉ n.toList) → (names.foldl enter p).IsWhole
  | [], _, h, _ => h
  | n :: names, p, h, hn => by
    rw [List.foldl_cons]
    exact isWhole_foldl_enter (isWhole_enter h (hn n (by simp))) fun m hm => hn m (by simp [hm])

theorem not_mem_of_mem_namesOf {text n : String} (h : n ∈ namesOf text) : '/' ∉ n.toList := by
  obtain ⟨piece, hp, rfl⟩ := List.mem_map.1 h
  simpa using Text.not_mem_of_mem_cut hp

theorem isWhole_ofText (text : String) : (ofText text).IsWhole := by
  rw [ofText_eq]
  exact isWhole_foldl_enter (by simp [IsWhole, root]) fun _ => not_mem_of_mem_namesOf

theorem isPlain_ofText (text : String) : (ofText text).IsPlain := isPlain_resolve isPlain_root text

/-! ## Texts of paths -/

theorem foldl_enter_of_isPlain : ∀ {names : List String} (p : Path),
    (∀ n ∈ names, n ≠ "" ∧ n ≠ "." ∧ n ≠ "..") → names.foldl enter p = ⟨p.names ++ names⟩
  | [], p, _ => by simp
  | n :: names, p, h => by
    obtain ⟨h1, h2, h3⟩ := h n (by simp)
    have henter : p.enter n = ⟨p.names ++ [n]⟩ := by simp [enter, h1, h2, h3]
    rw [List.foldl_cons, henter, foldl_enter_of_isPlain _ fun m hm => h m (by simp [hm])]
    simp

theorem namesOf_intercalate {names : List String} (h : names ≠ [])
    (hw : ∀ n ∈ names, '/' ∉ n.toList) : namesOf ("/".intercalate names) = names := by
  rw [namesOf, Text.toList_intercalate (c := '/') rfl, Text.cut_joined, List.map_map]
  · simp [Function.comp_def]
  · simpa using h
  · simpa using hw

/-- A plain path is what its text means. -/
theorem ofText_text {p : Path} (hp : p.IsPlain) (hw : p.IsWhole) : ofText p.text = p := by
  have hcut : namesOf p.text = "" :: namesOf ("/".intercalate p.names) := by
    have hempty : namesOf "" = [""] := rfl
    rw [← List.singleton_append, ← hempty, ← namesOf_append, text, String.empty_append]
  have hroot : root.enter "" = root := rfl
  obtain ⟨names⟩ := p
  rw [ofText_eq, hcut, List.foldl_cons, hroot]
  by_cases h : names = []
  · subst h
    rfl
  · rw [namesOf_intercalate h hw, foldl_enter_of_isPlain root hp]
    simp [root]

theorem isAbsolute_text (p : Path) : isAbsolute p.text = true := by
  simp [isAbsolute, text]

end Path

namespace Loader

variable (tree : Path → Option String) (place : String)

/-! ## The search -/

/-- The directory that a written directory means at a place. -/
def base (directory : String) : Path := .ofText (Path.join place directory)

/-- The path that a name in a written directory means at a place. -/
def target (name directory : String) : Path :=
  .ofText (Path.join (Path.join place directory) name)

/-- What a name and a directory come to on their own: a path that leads out of the directory is
suspicious, and one that stays in it counts if there is something to read. -/
def verdict (pair : String × String) : Option (Except Fault (String × Path)) :=
  let (name, directory) := pair
  if (base place directory).names <+: (target place name directory).names then
    (tree (target place name directory)).map fun text => .ok (text, target place name directory)
  else some (.error (.suspicious name (base place directory)))

/-- The pairs of names and directories, by name first. -/
def pairs (names directories : List String) : List (String × String) :=
  names.flatMap fun name => directories.map fun directory => (name, directory)

theorem candidates_eq (names directories : List String) :
    candidates (.ofText place) names directories =
      (pairs names directories).map fun pair => ⟨pair.1, base place pair.2⟩ := by
  simp only [candidates, pairs, base, Path.ofText_join, List.map_flatMap, List.map_map]
  rfl

/-- One step of the search: a candidate decides it exactly when its pair has a verdict. -/
theorem search_cons (names : List String) (pair : String × String) (rest : List Candidate) :
    search (m := Id) tree names (⟨pair.1, base place pair.2⟩ :: rest) =
      (verdict tree place pair).getD (search (m := Id) tree names rest) := by
  obtain ⟨name, directory⟩ := pair
  have hpath : (⟨name, base place directory⟩ : Candidate).path = target place name directory := by
    rw [target, Path.ofText_join]
    rfl
  have hinside : (⟨name, base place directory⟩ : Candidate).isInside = true ↔
      (base place directory).names <+: (target place name directory).names := by
    rw [Candidate.isInside, hpath, Path.contains, List.isPrefixOf_iff_prefix]
  rw [search, verdict]
  by_cases h : (base place directory).names <+: (target place name directory).names
  · rw [if_pos (hinside.2 h), if_pos h, hpath]
    cases tree (target place name directory) <;> rfl
  · rw [if_neg (mt hinside.1 h), if_neg h]
    rfl

/-- The run of the search is decided by the first verdict. -/
theorem search_eq (names : List String) : ∀ ps : List (String × String),
    search (m := Id) tree names (ps.map fun pair => ⟨pair.1, base place pair.2⟩) =
      (ps.findSome? (verdict tree place)).getD (.error (.notFound names))
  | [] => rfl
  | pair :: ps => by
    rw [List.map_cons, search_cons, search_eq names ps, List.findSome?_cons]
    cases verdict tree place pair <;> rfl

/-! ## What is found -/

theorem mem_pairs {names directories : List String} {pair : String × String} :
    pair ∈ pairs names directories ↔ pair.1 ∈ names ∧ pair.2 ∈ directories := by
  simp [pairs, Prod.ext_iff]

/-- A pair that is found has a readable path in its directory. -/
theorem verdict_eq_ok {pair : String × String} {text : String} {path : Path}
    (h : verdict tree place pair = some (.ok (text, path))) :
    path = target place pair.1 pair.2 ∧ (base place pair.2).names <+: path.names ∧
      tree path = some text := by
  simp only [verdict] at h
  split at h
  · rename_i hin
    obtain ⟨text', ht, heq⟩ := Option.map_eq_some_iff.1 h
    obtain ⟨rfl, rfl⟩ := Prod.mk.inj (Except.ok.inj heq)
    exact ⟨rfl, hin, ht⟩
  · cases h

/-- **The loader never leaves its directories and takes the first candidate.** Whatever the names,
the directories, the place and the files are, the first pair decides, by name and then by directory,
whose path leads out of its directory or can be read: the one is suspicious, the other is found, and
without such a pair nothing is found. A path that is found lies in its directory; it is written from
the root, and its text spells names that are none of the special ones. -/
theorem find_decided (names directories : List String) :
    find (m := Id) tree (.ofText place) names directories =
        ((pairs names directories).findSome? (verdict tree place)).getD
          (.error (.notFound names)) ∧
      ∀ text path, find (m := Id) tree (.ofText place) names directories = .ok (text, path) →
        tree path = some text ∧
        (∃ name ∈ names, ∃ directory ∈ directories, path = target place name directory ∧
          (base place directory).names <+: path.names) ∧
        Path.isAbsolute path.text = true ∧ Path.ofText path.text = path ∧ path.IsPlain := by
  have hfind : find (m := Id) tree (.ofText place) names directories =
      ((pairs names directories).findSome? (verdict tree place)).getD
        (.error (.notFound names)) := by
    rw [find, candidates_eq, search_eq]
  refine ⟨hfind, fun text path h => ?_⟩
  rw [hfind] at h
  cases hs : (pairs names directories).findSome? (verdict tree place) with
  | none =>
    rw [hs] at h
    cases h
  | some outcome =>
    rw [hs] at h
    obtain rfl : outcome = .ok (text, path) := h
    obtain ⟨pair, hp, hv⟩ := List.exists_of_findSome?_eq_some hs
    obtain ⟨hn, hd⟩ := mem_pairs.1 hp
    obtain ⟨rfl, hin, ht⟩ := verdict_eq_ok tree place hv
    have hplain : (target place pair.1 pair.2).IsPlain := Path.isPlain_ofText _
    exact ⟨ht, ⟨_, hn, _, hd, rfl, hin⟩, Path.isAbsolute_text _,
      Path.ofText_text hplain (Path.isWhole_ofText _), hplain⟩

/-- A single file, `/srv/tpl/a.html`. -/
def oneFile : Path → Option String :=
  fun p => if p = ⟨["srv", "tpl", "a.html"]⟩ then some "hi" else none

/-- The first directory has no such file, the name goes up and comes back, and the place is written
with a detour. -/
theorem find_decided_detour :
    find (m := Id) oneFile (.ofText "/srv/./www/..") ["x//../a.html"] ["t", "tpl/"] =
        .ok ("hi", ⟨["srv", "tpl", "a.html"]⟩) ∧
      ∃ directory ∈ ["t", "tpl/"],
        (base "/srv/./www/.." directory).names <+: ["srv", "tpl", "a.html"] := by
  have hfound : find (m := Id) oneFile (.ofText "/srv/./www/..") ["x//../a.html"] ["t", "tpl/"] =
      .ok ("hi", ⟨["srv", "tpl", "a.html"]⟩) := by rfl
  obtain ⟨-, ⟨_, -, directory, hd, -, hin⟩, -⟩ := (find_decided _ _ _ _).2 _ _ hfound
  exact ⟨hfound, directory, hd, hin⟩

/-- A directory whose name only begins like the right one is left. -/
example : find (m := Id) oneFile (.ofText "/srv") ["../tpl/a.html"] ["t"] =
    .error (.suspicious "../tpl/a.html" ⟨["srv", "t"]⟩) := by rfl

end Loader
end Stencil
