import ScipSync.Basic.Dict
import ScipSync.Basic.Text

/-! The `.bazelproject` file and the targets the synchronizer reads from it when it
is given neither targets nor a file (scip_utils.py `parse_bazelproject`,
`_get_key_value`; scip_sync.py `fetch_targets_from_bazelproject`,
`_should_exclude_path`, `convert_directories_to_targets`).

A line is a header `key:` or `key: value`, or an item of the last header.
`_get_key_value` reads every line that has a `:` and does not start with `//` as a
header, split at its first `:`. A label `//pkg:name` written under `targets:` with
the leading `-` that excludes it is therefore read as a header (the `-` and `//pkg`)
with the item `name`, and the branch of `fetch_targets_from_bazelproject` that
removes the `-` of an excluded label never receives one from a file
(`fetchTargetsFromBazelproject_excluded_label`). -/

namespace ScipSync.Project.BazelProject

open ScipSync.Basic.Dict ScipSync.Basic.Text

/-- `TARGETS`. -/
def targets : String := "targets"

/-- `DIRECTORIES`. -/
def directories : String := "directories"

/-- `DERIVE_TARGETS_FROM_DIRECTORIES`. -/
def deriveTargetsFromDirectories : String := "derive_targets_from_directories"

/-! ## Parsing -/

/-- `_get_key_value`: a line starting with `//` is an item; any other line with a
`:` is split at its first `:` (`str.partition`) into a stripped key and value; every
other line is an item. -/
def getKeyValue (line : String) : String × String :=
  let line := pyStrip line
  if startsWith line "//" then ("", line)
  else if ':' ∈ line.toList then
    (pyStrip ⟨line.toList.takeWhile (· ≠ ':')⟩, pyStrip ⟨(line.toList.dropWhile (· ≠ ':')).drop 1⟩)
  else ("", line)

/-- One pass of `parse_bazelproject`'s loop, over the dictionary and `last_key`. A
header opens a new empty section; a value is appended to the last section. `none`
is the `KeyError` of a value before the first header. -/
def parseLine (acc : PyDict String (List String) × String) (line : String) :
    Option (PyDict String (List String) × String) :=
  let line := pyStrip line
  if line = "" ∨ startsWith line "#" then some acc
  else
    let (key, value) := getKeyValue line
    let (data, lastKey) := if key ≠ "" then (acc.1.set key [], key) else acc
    if value ≠ "" then
      (data.get? lastKey).map fun items => (data.set lastKey (items ++ [value]), lastKey)
    else some (data, lastKey)

/-- The lines `for line in file` reads from a file with text `text`, each without
its line terminator (the loop strips every line). -/
def fileLines (text : String) : List String :=
  (splitNewline (translateNewlines text.toList)).map String.mk

/-- `parse_bazelproject` of a file with text `text`. -/
def parseBazelproject (text : String) : Option (PyDict String (List String)) :=
  ((fileLines text).foldlM parseLine (PyDict.empty, "")).map Prod.fst

/-! ## Targets -/

/-- `str.lower()` as the comparison with `true` sees it: no character but an ASCII
capital lowers to a letter of `true`. -/
def lower (s : String) : String := ⟨s.toList.map Char.toLower⟩

/-- `_should_exclude_path`. -/
def shouldExcludePath (path : String) : Bool := startsWith path "-"

/-- `str.rstrip("/")`. -/
def rstripSlash (s : String) : String := ⟨(s.toList.reverse.dropWhile (· = '/')).reverse⟩

/-- `convert_directories_to_targets`: `//d/...` for every directory `d` but the base
directory `.`. -/
def convertDirectoriesToTargets (directories : List String) : List String :=
  directories.filterMap fun directory =>
    let directory := rstripSlash (pyStrip directory)
    if directory = "." then none else some ("//" ++ directory ++ "/...")

/-- The items of a section split by `_should_exclude_path`: those kept, and those
excluded with their `-` removed (`t[1:]`). -/
def splitExcluded (items : List String) : List String × List String :=
  (items.filter fun t => !shouldExcludePath t, (items.filter shouldExcludePath).map (·.drop 1))

/-- `fetch_targets_from_bazelproject` in a workspace whose `.ijwb/.bazelproject` has
text `bazelproject` (`none`: there is no such file). The two sets are lists read by
membership. A `KeyError` of the parser and the `IndexError` of an empty
`derive_targets_from_directories` section are caught and give two empty sets. -/
def fetchTargetsFromBazelproject (bazelproject : Option String) : List String × List String :=
  match bazelproject.bind parseBazelproject with
  | none => ([], [])
  | some sections =>
    let fromTargets := splitExcluded (sections.getD targets [])
    match sections.getD deriveTargetsFromDirectories ["false"] with
    | [] => ([], [])
    | derive :: _ =>
      match if lower derive = "true" then sections.get? directories else none with
      | some dirs =>
        let fromDirectories := splitExcluded dirs
        (fromTargets.1 ++ convertDirectoriesToTargets fromDirectories.1,
          fromTargets.2 ++ convertDirectoriesToTargets fromDirectories.2)
      | none => fromTargets

/-- An excluded label under `targets:` is read as a header, so it excludes nothing;
an empty `derive_targets_from_directories:` section makes the whole call return
nothing. -/
theorem fetchTargetsFromBazelproject_excluded_label :
    parseBazelproject "targets:\n  //target:one\n  -//target:three\n" =
        some ((PyDict.empty.set "targets" ["//target:one"]).set "-//target" ["three"]) ∧
      fetchTargetsFromBazelproject (some "targets:\n  //target:one\n  -//target:three\n") =
        (["//target:one"], []) ∧
      fetchTargetsFromBazelproject
        (some "targets:\n  //target:one\nderive_targets_from_directories:\n") = ([], []) := by
  decide

/-! ## Documents the parser reads as written

A document is a list of sections, each a header line and its item lines; `render`
writes it out and `denote` is the dictionary it stands for. The parser returns
`denote doc` for `render doc` as soon as every item starts with `//` or has no
`:` (`parseBazelproject_render`), and an item line is read as itself exactly then
(`getKeyValue_item`). On those documents the targets and excludes are the ones
the file lists (`fetchTargetsFromBazelproject_render`). -/

/-- A character of a section name: an ASCII letter or digit, or `_`. -/
def isNameChar (c : Char) : Bool := c.isAlphanum || c = '_'

/-- An item as it stands on its line once stripped: not blank, not a comment, and
with no line break in it. -/
structure IsItem (i : String) : Prop where
  stripped : pyStrip i = i
  ne_empty : i ≠ ""
  not_comment : startsWith i "#" = false
  one_line : '\n' ∉ i.toList ∧ '\r' ∉ i.toList

instance : DecidablePred IsItem := fun i =>
  decidable_of_iff (pyStrip i = i ∧ i ≠ "" ∧ startsWith i "#" = false ∧
      ('\n' ∉ i.toList ∧ '\r' ∉ i.toList))
    ⟨fun ⟨a, b, c, d⟩ => ⟨a, b, c, d⟩, fun ⟨a, b, c, d⟩ => ⟨a, b, c, d⟩⟩

/-- A section of a `.bazelproject` document: the header `name:`, or `name: value`
when the value is not empty, then one item per line. -/
structure Section where
  name : String
  value : String
  items : List String
  name_ne : name ≠ ""
  name_chars : ∀ c ∈ name.toList, isNameChar c
  value_stripped : pyStrip value = value
  value_one_line : '\n' ∉ value.toList ∧ '\r' ∉ value.toList
  items_ok : ∀ i ∈ items, IsItem i

namespace Section

/-- The header line. -/
def header (s : Section) : String :=
  if s.value = "" then s.name ++ ":" else s.name ++ ": " ++ s.value

/-- The section's lines: its header, then each item indented by two spaces. -/
def lines (s : Section) : List String := s.header :: s.items.map ("  " ++ ·)

/-- What the section holds: its header's value, if there is one, then its items. -/
def values (s : Section) : List String := (if s.value = "" then [] else [s.value]) ++ s.items

end Section

/-- The text of a document: every line followed by a line break. -/
def render (doc : List Section) : String :=
  ⟨(doc.flatMap Section.lines).flatMap fun line => line.toList ++ ['\n']⟩

/-- The dictionary a document stands for: each section's name mapped to what it
holds. -/
def denote (doc : List Section) : PyDict String (List String) :=
  doc.foldl (fun d s => d.set s.name s.values) PyDict.empty

/-- The section of a document named `n`: the last one, as `data[key] = []` starts
a repeated section afresh. -/
def sectionOf (doc : List Section) (n : String) : Option Section :=
  (doc.filter (·.name = n)).getLast?

/-- What the section named `n` holds, nothing when there is none. -/
def sectionValues (doc : List Section) (n : String) : List String :=
  ((sectionOf doc n).map Section.values).getD []

/-- The document asks for targets from its directories: the first value of its
`derive_targets_from_directories` section is `true`, in any case. -/
def derivesFromDirectories (doc : List Section) : Bool :=
  match sectionValues doc deriveTargetsFromDirectories with
  | v :: _ => lower v = "true"
  | [] => false

theorem toNat_of_isNameChar {c : Char} (h : isNameChar c) :
    (48 ≤ c.toNat ∧ c.toNat ≤ 57) ∨ (65 ≤ c.toNat ∧ c.toNat ≤ 90) ∨
      (97 ≤ c.toNat ∧ c.toNat ≤ 122) ∨ c.toNat = 95 := by
  simp only [isNameChar, Bool.or_eq_true, decide_eq_true_eq] at h
  rcases h with h | rfl
  · have := toNat_of_isAlphanum h
    omega
  · decide

theorem isPySpace_of_isNameChar {c : Char} (h : isNameChar c) : isPySpace c = false := by
  have := toNat_of_isNameChar h
  simp only [isPySpace, Bool.or_eq_false_iff, Bool.and_eq_false_imp, decide_eq_true_eq,
    beq_eq_false_iff_ne, ne_eq, decide_eq_false_iff_not, not_le]
  omega

theorem ne_of_isNameChar {c d : Char} (h : isNameChar c) (hd : isNameChar d = false) : c ≠ d :=
  fun e => by rw [e, hd] at h; exact Bool.false_ne_true h

theorem length_drop_dropWhile_lt {a : Char} :
    ∀ {l : List Char}, a ∈ l → ((l.dropWhile (· ≠ a)).drop 1).length < l.length
  | x :: xs, h => by
    by_cases hx : x = a
    · simp [hx]
    · rw [List.dropWhile_cons_of_pos (by simpa using hx)]
      have := length_drop_dropWhile_lt ((List.mem_cons.mp h).resolve_left (Ne.symm hx))
      simp only [List.length_cons]
      omega

/-- `_get_key_value` reads an item line as that item exactly when the item starts
with `//` or has no `:`. -/
theorem getKeyValue_item {i : String} (hi : IsItem i) :
    getKeyValue i = ("", i) ↔ startsWith i "//" ∨ ':' ∉ i.toList := by
  unfold getKeyValue
  rw [hi.stripped]
  by_cases h1 : startsWith i "//" = true
  · simp [h1]
  · by_cases h2 : ':' ∈ i.toList
    · rw [if_neg h1, if_pos h2]
      refine iff_of_false (fun h => ?_) fun h' => h'.elim h1 (· h2)
      have hlen := congrArg String.length (Prod.mk.inj h).2
      have := length_pyStrip_le ⟨(i.toList.dropWhile (· ≠ ':')).drop 1⟩
      have := length_drop_dropWhile_lt h2
      simp only [String.length, String.toList] at *
      omega
    · rw [if_neg h1, if_neg h2]
      exact iff_of_true rfl (.inr h2)

namespace Section
variable (s : Section)

theorem name_cons : ∃ c t, s.name.toList = c :: t ∧ isNameChar c := by
  rcases hn : s.name with ⟨_ | ⟨c, t⟩⟩
  · exact absurd hn s.name_ne
  · exact ⟨c, t, rfl, s.name_chars c (by rw [hn]; exact List.mem_cons_self _ _)⟩

/-- What follows the name and its `:` on the header line. -/
def afterColon : List Char := if s.value = "" then [] else ' ' :: s.value.toList

theorem header_toList : s.header.toList = s.name.toList ++ ':' :: s.afterColon := by
  unfold header afterColon
  split <;> simp [String.toList]

theorem header_head : ∃ c t, s.header.toList = c :: t ∧ isNameChar c := by
  obtain ⟨c, t, hct, hc⟩ := s.name_cons
  exact ⟨c, _, by rw [header_toList, hct, List.cons_append], hc⟩

theorem pyStrip_name : pyStrip s.name = s.name := by
  obtain ⟨c, t, hct, hc⟩ := s.name_cons
  have hlast : ∀ d ∈ (c :: t).getLast?, isPySpace d = false := fun d hd =>
    isPySpace_of_isNameChar (s.name_chars d (hct ▸ List.mem_of_getLast?_eq_some hd))
  have := pyStrip_of_ends (fun d hd => by cases hd; exact isPySpace_of_isNameChar hc) hlast
  rwa [← hct] at this

theorem pyStrip_header : pyStrip s.header = s.header := by
  obtain ⟨c, t, hct, hc⟩ := s.name_cons
  have hh : ∀ l, ∀ d ∈ (s.name.toList ++ l).head?, isPySpace d = false := by
    rintro l d hd
    rw [hct, List.cons_append, List.head?_cons, Option.mem_some_iff] at hd
    exact hd ▸ isPySpace_of_isNameChar hc
  have hne : s.name.toList ≠ [] := by rw [hct]; exact List.cons_ne_nil _ _
  unfold header
  split
  · exact pyStrip_append hne (by simpa using hh []) (by decide) rfl
  · exact pyStrip_append (List.append_ne_nil_of_left_ne_nil hne _) (hh _) ‹_› s.value_stripped

theorem getKeyValue_header : getKeyValue s.header = (s.name, s.value) := by
  have hne : ∀ x ∈ s.name.toList, decide (x ≠ ':') = true := fun x hx =>
    decide_eq_true (ne_of_isNameChar (s.name_chars x hx) (by decide))
  obtain ⟨c, t, hct, hc⟩ := s.header_head
  have hslash : ¬ startsWith s.header "//" = true := by
    rw [startsWith, hct]
    simp [List.isPrefixOf, Ne.symm (ne_of_isNameChar (d := '/') hc (by decide))]
  have hval : pyStrip ⟨((s.name.toList ++ ':' :: s.afterColon).dropWhile (· ≠ ':')).drop 1⟩ =
      s.value := by
    rw [List.dropWhile_append_of_pos hne, List.dropWhile_cons_of_neg (by simp), List.drop_one,
      List.tail_cons, afterColon]
    split
    · next h => rw [h]; rfl
    · rw [pyStrip_cons (by decide)]
      exact s.value_stripped
  unfold getKeyValue
  rw [s.pyStrip_header, if_neg hslash, if_pos (by rw [header_toList]; simp), header_toList,
    List.takeWhile_append_of_pos hne, List.takeWhile_cons_of_neg (by simp), List.append_nil, hval]
  exact Prod.ext s.pyStrip_name rfl

/-- A header opens its section, holding the header's value if there is one. -/
theorem parseLine_header (acc : PyDict String (List String) × String) :
    parseLine acc s.header =
      some (acc.1.set s.name (if s.value = "" then [] else [s.value]), s.name) := by
  obtain ⟨c, t, hct, hc⟩ := s.header_head
  have hblank : ¬ (s.header = "" ∨ startsWith s.header "#" = true) := by
    rintro (h | h)
    · rw [h] at hct; cases hct
    · rw [startsWith, hct] at h
      simp [List.isPrefixOf, Ne.symm (ne_of_isNameChar (d := '#') hc (by decide))] at h
  unfold parseLine
  rw [s.pyStrip_header, if_neg hblank, s.getKeyValue_header]
  dsimp only
  rw [if_pos s.name_ne]
  dsimp only
  by_cases h : s.value = ""
  · rw [if_neg (not_not.mpr h), if_pos h]
  · rw [if_pos h, if_neg h, PyDict.get?_set, if_pos rfl, Option.map_some', PyDict.set_set,
      List.nil_append]

end Section

/-- An item read as itself is appended to the last section. -/
theorem parseLine_item {i : String} (hi : IsItem i) (hr : startsWith i "//" ∨ ':' ∉ i.toList)
    (d : PyDict String (List String)) (k : String) (vs : List String) :
    parseLine (d.set k vs, k) ("  " ++ i) = some (d.set k (vs ++ [i]), k) := by
  have hstrip : pyStrip ("  " ++ i) = i := by
    show pyStrip ⟨' ' :: ' ' :: i.toList⟩ = i
    rw [pyStrip_cons (by decide), pyStrip_cons (by decide)]
    exact hi.stripped
  have hblank : ¬ (i = "" ∨ startsWith i "#" = true) := by
    rw [hi.not_comment]; exact fun h => h.elim hi.ne_empty Bool.false_ne_true
  unfold parseLine
  rw [hstrip, if_neg hblank, (getKeyValue_item hi).mpr hr]
  dsimp only
  rw [if_neg (not_not.mpr rfl), if_pos hi.ne_empty, PyDict.get?_set, if_pos rfl, Option.map_some',
    PyDict.set_set]

theorem foldlM_parseLine_items {items : List String}
    (hi : ∀ i ∈ items, IsItem i ∧ (startsWith i "//" ∨ ':' ∉ i.toList))
    (d : PyDict String (List String)) (k : String) :
    ∀ vs, (items.map ("  " ++ ·)).foldlM parseLine (d.set k vs, k) =
      some (d.set k (vs ++ items), k) := by
  induction items with
  | nil => intro vs; rw [List.append_nil]; rfl
  | cons i is ih =>
    intro vs
    have ⟨hii, hri⟩ := hi i (List.mem_cons_self _ _)
    rw [List.map_cons, List.foldlM_cons, parseLine_item hii hri, Option.bind_eq_bind,
      Option.some_bind, ih (fun j hj => hi j (List.mem_cons_of_mem _ hj)), List.append_assoc,
      List.singleton_append]

/-- A section's lines, from any state of the loop, set its name to what it holds. -/
theorem foldlM_lines (s : Section) (hr : ∀ i ∈ s.items, startsWith i "//" ∨ ':' ∉ i.toList)
    (acc : PyDict String (List String) × String) :
    s.lines.foldlM parseLine acc = some (acc.1.set s.name s.values, s.name) := by
  rw [Section.lines, List.foldlM_cons, s.parseLine_header, Option.bind_eq_bind, Option.some_bind]
  exact foldlM_parseLine_items (fun i h => ⟨s.items_ok i h, hr i h⟩) acc.1 s.name _

theorem foldlM_flatMap_lines {doc : List Section}
    (hr : ∀ s ∈ doc, ∀ i ∈ s.items, startsWith i "//" ∨ ':' ∉ i.toList) :
    ∀ acc : PyDict String (List String) × String, ∃ k,
      (doc.flatMap Section.lines).foldlM parseLine acc =
        some (doc.foldl (fun d s => d.set s.name s.values) acc.1, k) := by
  induction doc with
  | nil => exact fun acc => ⟨acc.2, rfl⟩
  | cons s doc ih =>
    intro acc
    obtain ⟨k, hk⟩ := ih (fun s' hs' => hr s' (List.mem_cons_of_mem _ hs')) (acc.1.set s.name s.values, s.name)
    refine ⟨k, ?_⟩
    rw [List.flatMap_cons, List.foldlM_append, foldlM_lines s (hr s (List.mem_cons_self _ _)),
      Option.bind_eq_bind, Option.some_bind, hk, List.foldl_cons]

/-- The lines of a text whose lines hold no line break, each followed by one. -/
theorem fileLines_of_lines {ls : List String}
    (h : ∀ l ∈ ls, '\n' ∉ l.toList ∧ '\r' ∉ l.toList) :
    fileLines ⟨ls.flatMap fun l => l.toList ++ ['\n']⟩ = ls ++ [""] := by
  induction ls with
  | nil => rfl
  | cons l ls ih =>
    have ⟨hn, hr⟩ := h l (List.mem_cons_self _ _)
    have ih := ih fun l' hl' => h l' (List.mem_cons_of_mem _ hl')
    change (splitNewline (translateNewlines (ls.flatMap fun l => l.toList ++ ['\n']))).map
      String.mk = ls ++ [""] at ih
    rw [List.flatMap_cons, List.append_assoc, List.singleton_append]
    change (splitNewline (translateNewlines
      (l.toList ++ '\n' :: ls.flatMap fun l => l.toList ++ ['\n']))).map String.mk = l :: (ls ++ [""])
    rw [translateNewlines_append hr, translateNewlines.eq_3 _ _ (fun _ h _ => absurd h (by decide))
      (by decide), splitNewline_append hn, List.map_cons, ih]
    rfl

theorem lines_one_line (doc : List Section) :
    ∀ l ∈ doc.flatMap Section.lines, '\n' ∉ l.toList ∧ '\r' ∉ l.toList := by
  intro l hl
  obtain ⟨s, -, hl⟩ := List.mem_flatMap.mp hl
  rcases List.mem_cons.mp hl with rfl | hl
  · have hn : '\n' ∉ s.name.toList ∧ '\r' ∉ s.name.toList :=
      ⟨fun h => ne_of_isNameChar (s.name_chars _ h) (by decide) rfl,
        fun h => ne_of_isNameChar (s.name_chars _ h) (by decide) rfl⟩
    have hv := s.value_one_line
    rw [s.header_toList, Section.afterColon]
    split <;> simp_all
  · obtain ⟨i, hi, rfl⟩ := List.mem_map.mp hl
    simpa using (s.items_ok i hi).one_line

/-- A document of the grammar whose items all start with `//` or hold no `:` is
read as written: every item lands in the section it is written under. -/
theorem parseBazelproject_render (doc : List Section)
    (h : ∀ s ∈ doc, ∀ i ∈ s.items, startsWith i "//" ∨ ':' ∉ i.toList) :
    parseBazelproject (render doc) = some (denote doc) := by
  obtain ⟨k, hk⟩ := foldlM_flatMap_lines h (PyDict.empty, "")
  rw [parseBazelproject, render, fileLines_of_lines (lines_one_line doc), List.foldlM_append, hk]
  rfl

theorem parseBazelproject_render_targets_directories :
    let doc : List Section :=
      [⟨"targets", "", ["//search/service-grpc/...", "//java-sample:src_main"],
          by decide, by decide, by decide, by decide, by decide⟩,
        ⟨"directories", "search", ["-tooling/intellij"],
          by decide, by decide, by decide, by decide, by decide⟩]
    (∀ s ∈ doc, ∀ i ∈ s.items, startsWith i "//" ∨ ':' ∉ i.toList) ∧
      parseBazelproject (render doc) = some (denote doc) :=
  ⟨by decide, parseBazelproject_render _ (by decide)⟩

theorem get?_denote (doc : List Section) (n : String) :
    (denote doc).get? n = (sectionOf doc n).map Section.values := by
  unfold denote sectionOf
  induction doc using List.reverseRecOn with
  | nil => rfl
  | append_singleton doc s ih =>
    rw [List.foldl_append, List.foldl_cons, List.foldl_nil, PyDict.get?_set, List.filter_append,
      List.filter_singleton]
    by_cases hn : n = s.name
    · rw [if_pos hn, decide_eq_true hn.symm, cond_true, List.getLast?_concat]
      rfl
    · rw [if_neg hn, decide_eq_false (Ne.symm hn), cond_false, List.append_nil, ih]

/-- **The targets of a document read as written.** When every item of a
`.bazelproject` document starts with `//` or holds no `:`, and its
`derive_targets_from_directories` section, if any, holds a value, the targets
are the `targets` items without a `-`, the excludes those with one, `-` removed,
and, when the document derives targets from directories, each directory item adds
its `//d/...` to the targets, or with a `-` to the excludes. -/
theorem fetchTargetsFromBazelproject_render (doc : List Section)
    (hr : ∀ s ∈ doc, ∀ i ∈ s.items, startsWith i "//" ∨ ':' ∉ i.toList)
    (hderive : (sectionOf doc deriveTargetsFromDirectories).all fun s => s.values ≠ []) :
    let fromTargets := splitExcluded (sectionValues doc targets)
    let fromDirectories := splitExcluded
      (if derivesFromDirectories doc then sectionValues doc directories else [])
    fetchTargetsFromBazelproject (some (render doc)) =
      (fromTargets.1 ++ convertDirectoriesToTargets fromDirectories.1,
        fromTargets.2 ++ convertDirectoriesToTargets fromDirectories.2) := by
  intro fromTargets fromDirectories
  obtain ⟨k, hk⟩ := foldlM_flatMap_lines hr (PyDict.empty, "")
  have hparse : (some (render doc)).bind parseBazelproject = some (denote doc) := by
    rw [Option.some_bind, parseBazelproject, render, fileLines_of_lines (lines_one_line doc),
      List.foldlM_append, hk]
    rfl
  have hgetD : ∀ n d, (denote doc).getD n d = ((sectionOf doc n).map Section.values).getD d :=
    fun n d => by rw [PyDict.getD, get?_denote]
  have hnone : ∀ p : List String × List String,
      (p.1 ++ convertDirectoriesToTargets (splitExcluded []).1,
        p.2 ++ convertDirectoriesToTargets (splitExcluded []).2) = p := fun p => by
    simp [splitExcluded, convertDirectoriesToTargets]
  unfold fetchTargetsFromBazelproject
  rw [hparse]
  dsimp only
  rw [hgetD, hgetD, get?_denote]
  simp only [fromTargets, fromDirectories, derivesFromDirectories, sectionValues]
  cases hs : sectionOf doc deriveTargetsFromDirectories with
  | none => exact (hnone _).symm
  | some s =>
    rw [hs, Option.all_some, decide_eq_true_iff] at hderive
    obtain ⟨v, vs, hv⟩ := List.exists_cons_of_ne_nil hderive
    simp only [Option.map_some', Option.getD_some, hv]
    by_cases htrue : lower v = "true"
    · rw [if_pos htrue, decide_eq_true htrue, if_pos rfl]
      cases sectionOf doc directories with
      | none => exact (hnone _).symm
      | some ds => rfl
    · rw [if_neg htrue, decide_eq_false htrue, if_neg Bool.false_ne_true]
      exact (hnone _).symm

theorem fetchTargetsFromBazelproject_render_derived :
    let doc : List Section :=
      [⟨"targets", "", ["//search/service-grpc/...", "-//search/legacy/..."],
          by decide, by decide, by decide, by decide, by decide⟩,
        ⟨"directories", "", ["search", "-tooling/intellij/"],
          by decide, by decide, by decide, by decide, by decide⟩,
        ⟨"derive_targets_from_directories", "True", [],
          by decide, by decide, by decide, by decide, by decide⟩]
    (∀ s ∈ doc, ∀ i ∈ s.items, startsWith i "//" ∨ ':' ∉ i.toList) ∧
      (sectionOf doc deriveTargetsFromDirectories).all (fun s => s.values ≠ []) ∧
      fetchTargetsFromBazelproject (some (render doc)) =
        ((splitExcluded (sectionValues doc targets)).1 ++ convertDirectoriesToTargets
            (splitExcluded (if derivesFromDirectories doc then sectionValues doc directories
              else [])).1,
          (splitExcluded (sectionValues doc targets)).2 ++ convertDirectoriesToTargets
            (splitExcluded (if derivesFromDirectories doc then sectionValues doc directories
              else [])).2) :=
  ⟨by decide, by decide, fetchTargetsFromBazelproject_render _ (by decide) (by decide)⟩

end ScipSync.Project.BazelProject