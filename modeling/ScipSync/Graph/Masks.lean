import ScipSync.Graph.DependencyGraph
import ScipSync.Basic.Regex

/-! What the masks of `get_dependency_graph` select when `filter_list_by_regex` runs
them through `re.search` (`search`).

A recursive pattern `//pkg/...` becomes `^//pkg`, a prefix test on the whole
label: it selects the labels of `pkg` and of its subpackages, and also those of
every sibling package whose name only starts with `pkg` (`//path/to/...` selects
`//path/tomato:x`). A label `//pkg:name` becomes `^//pkg:name$`, which selects
exactly that label while its characters are literal in a pattern; a `.` in it
matches any character and a `+` repeats the character before it
(`mask_selects_beyond_pattern`). For packages and names made of letters, digits,
`/`, `-` and `_`, `mask_selects_iff` says exactly what each mask selects. -/

namespace ScipSync.Graph.Masks
open ScipSync.Basic.Text ScipSync.Basic.Regex ScipSync.Graph.DependencyGraph

/-- A character of a package or target name that a pattern reads literally: an
ASCII letter or digit, `/`, `-` or `_`. -/
def isPlainLabelChar (c : Char) : Bool := c.isAlphanum || c = '/' || c = '-' || c = '_'

theorem ne_of_isPlainLabelChar {c d : Char} (h : isPlainLabelChar c)
    (hd : isPlainLabelChar d = false) : c ≠ d :=
  fun e => by rw [e, hd] at h; exact Bool.false_ne_true h

theorem isSpecial_of_isPlainLabelChar {c : Char} (h : isPlainLabelChar c) : isSpecial c = false := by
  have hall : ∀ d ∈ specialChars, isPlainLabelChar d = false := by decide
  cases hs : isSpecial c
  · rfl
  · exact absurd (hall c (of_decide_eq_true hs)) (by rw [h]; decide)

/-! ## The two masks -/

theorem dot_not_mem_of_plain {l : List Char} (h : ∀ c ∈ l, isPlainLabelChar c) : '.' ∉ l :=
  fun hd => ne_of_isPlainLabelChar (h _ hd) (by decide) rfl

/-- `s.replace("/...", "")` leaves the text before a final `/...` when no `.`
precedes it. -/
theorem replaceFrom_dots : ∀ {l : List Char}, '.' ∉ l →
    replaceFrom "/...".toList [] 0 (l ++ "/...".toList) = l
  | [], _ => rfl
  | c :: l, h => by
    rw [List.mem_cons, not_or] at h
    have hpre : ¬ "/...".toList <+: c :: (l ++ "/...".toList) := by
      change ¬ ['/', '.', '.', '.'] <+: _
      rw [List.cons_prefix_cons]
      rintro ⟨-, hp⟩
      cases l with
      | nil => exact absurd hp (by decide)
      | cons d l => exact h.2 (List.mem_cons.mpr (.inl (List.cons_prefix_cons.mp hp).1))
    rw [List.cons_append, replaceFrom, if_neg (mt List.isPrefixOf_iff_prefix.mp hpre),
      replaceFrom_dots h.2]

theorem prefix_append_cons_iff {c : Char} :
    ∀ {l m r : List Char}, c ∉ l → (l <+: m ++ c :: r ↔ l <+: m)
  | [], _, _, _ => by simp
  | a :: l, [], r, h => by
    have hac : a ≠ c := fun e => h (e ▸ List.mem_cons_self _ _)
    simp [hac]
  | a :: l, b :: m, r, h => by
    rw [List.cons_append, List.cons_prefix_cons, List.cons_prefix_cons,
      prefix_append_cons_iff (mt (List.mem_cons_of_mem _) h)]

section Masks
variable {pkg name : String} (hpkg : ∀ c ∈ pkg.toList, isPlainLabelChar c)

include hpkg in
/-- A recursive pattern's mask: `^` and the pattern without its `/...`. -/
theorem mask_recursive : mask ("//" ++ pkg ++ "/...") = "^" ++ ("//" ++ pkg) := by
  have hends : endsWith ("//" ++ pkg ++ "/...") "/..." = true :=
    List.isSuffixOf_iff_suffix.mpr (List.suffix_append _ _)
  have hdot : '.' ∉ '/' :: '/' :: pkg.toList := by
    simp only [List.mem_cons, not_or]
    exact ⟨by decide, by decide, dot_not_mem_of_plain hpkg⟩
  rw [mask, if_pos hends, pyReplace, if_neg (by decide)]
  exact congrArg (("^" : String) ++ ·) (String.ext (replaceFrom_dots hdot))

include hpkg in
/-- A recursive pattern's mask finds exactly the strings that start with `//pkg`. -/
theorem search_mask_recursive (x : String) :
    search (mask ("//" ++ pkg ++ "/...")) x = ("//" ++ pkg).toList.isPrefixOf x.toList := by
  rw [mask_recursive hpkg]
  refine search_prefix_literal fun c hc => ?_
  rcases List.mem_cons.mp hc with rfl | hc
  · rfl
  rcases List.mem_cons.mp hc with rfl | hc
  exacts [rfl, isSpecial_of_isPlainLabelChar (hpkg c hc)]

variable (hname : ∀ c ∈ name.toList, isPlainLabelChar c)

include hpkg hname in
/-- Every character of the label `//pkg:name` is plain or its `:`. -/
theorem label_chars : ∀ c ∈ ("//" ++ pkg ++ ":" ++ name).toList, isPlainLabelChar c ∨ c = ':' := by
  show ∀ c ∈ '/' :: '/' :: (pkg.toList ++ [':'] ++ name.toList), _
  simp only [List.forall_mem_cons, List.mem_append, List.mem_singleton, or_imp, forall_and,
    forall_eq]
  exact ⟨.inl rfl, .inl rfl, ⟨fun c h => .inl (hpkg c h), .inr trivial⟩, fun c h => .inl (hname c h)⟩

include hpkg hname in
/-- A label's mask: the label between `^` and `$`. -/
theorem mask_label :
    mask ("//" ++ pkg ++ ":" ++ name) = "^" ++ ("//" ++ pkg ++ ":" ++ name) ++ "$" := by
  have hdot : '.' ∉ ("//" ++ pkg ++ ":" ++ name).toList := fun h =>
    (label_chars hpkg hname _ h).elim (fun hp => ne_of_isPlainLabelChar hp (by decide) rfl)
      (by decide)
  have hends : endsWith ("//" ++ pkg ++ ":" ++ name) "/..." = false := by
    cases he : endsWith ("//" ++ pkg ++ ":" ++ name) "/..."
    · rfl
    · exact absurd ((List.isSuffixOf_iff_suffix.mp he).subset (by decide)) hdot
  rw [mask, if_neg (by rw [hends]; decide)]

include hpkg hname in
/-- A label's mask finds exactly that label in a string without a newline. -/
theorem search_mask_label {x : String} (hx : '\n' ∉ x.toList) :
    search (mask ("//" ++ pkg ++ ":" ++ name)) x = decide (x = "//" ++ pkg ++ ":" ++ name) := by
  rw [mask_label hpkg hname]
  refine search_anchored_literal (fun c hc => ?_) hx
  rcases label_chars hpkg hname c hc with hp | rfl
  exacts [isSpecial_of_isPlainLabelChar hp, rfl]

end Masks

/-! ## What the masks select -/

/-- What each mask selects, for packages and names of letters, digits, `/`, `-`
and `_`: a label's mask selects exactly that label, and a recursive pattern's mask
selects every label whose package starts with the pattern's package, siblings
such as `//path/tomato` of `//path/to/...` included. -/
theorem mask_selects_iff (pkg name pkg2 name2 : String)
    (hpkg : ∀ c ∈ pkg.toList, isPlainLabelChar c) (hname : ∀ c ∈ name.toList, isPlainLabelChar c)
    (hpkg2 : '\n' ∉ pkg2.toList) (hname2 : '\n' ∉ name2.toList) :
    let x := "//" ++ pkg2 ++ ":" ++ name2
    (x ∈ filterListByRegex search [x] [mask ("//" ++ pkg ++ ":" ++ name)] ↔
        x = "//" ++ pkg ++ ":" ++ name) ∧
      (x ∈ filterListByRegex search [x] [mask ("//" ++ pkg ++ "/...")] ↔
        pkg.toList <+: pkg2.toList) := by
  intro x
  have hsel : ∀ m, x ∈ filterListByRegex search [x] [m] ↔ search m x = true := fun m => by
    simp [mem_filterListByRegex]
  have hx : '\n' ∉ x.toList := by
    show '\n' ∉ '/' :: '/' :: (pkg2.toList ++ [':'] ++ name2.toList)
    simp only [List.mem_cons, List.mem_append, List.mem_singleton, not_or]
    exact ⟨by decide, by decide, ⟨hpkg2, by decide⟩, hname2⟩
  refine ⟨by rw [hsel, search_mask_label hpkg hname hx, decide_eq_true_iff], ?_⟩
  rw [hsel, search_mask_recursive hpkg, List.isPrefixOf_iff_prefix]
  show '/' :: '/' :: pkg.toList <+: '/' :: '/' :: (pkg2.toList ++ [':'] ++ name2.toList) ↔ _
  rw [List.prefix_cons_inj, List.prefix_cons_inj, List.append_assoc, List.singleton_append,
    prefix_append_cons_iff fun h => ne_of_isPlainLabelChar (hpkg _ h) (by decide) rfl]

theorem mask_selects_iff_path_to :
    (∀ c ∈ "path/to".toList, isPlainLabelChar c) ∧ (∀ c ∈ "lib".toList, isPlainLabelChar c) ∧
      '\n' ∉ "path/tomato".toList ∧ '\n' ∉ "x".toList ∧
      let x := "//" ++ "path/tomato" ++ ":" ++ "x"
      (x ∈ filterListByRegex search [x] [mask ("//" ++ "path/to" ++ ":" ++ "lib")] ↔
          x = "//" ++ "path/to" ++ ":" ++ "lib") ∧
        (x ∈ filterListByRegex search [x] [mask ("//" ++ "path/to" ++ "/...")] ↔
          "path/to".toList <+: "path/tomato".toList) :=
  ⟨by decide, by decide, by decide, by decide,
    mask_selects_iff _ _ _ _ (by decide) (by decide) (by decide) (by decide)⟩

/-- Past those characters the masks select other labels than the patterns denote:
a recursive pattern selects a sibling package that shares its name as a prefix, a
`.` in a label matches any character, and a label with a `+` does not select
itself. -/
theorem mask_selects_beyond_pattern :
    "//path/tomato:x" ∈ filterListByRegex search ["//path/tomato:x"] [mask "//path/to/..."] ∧
      "//a:bxc" ∈ filterListByRegex search ["//a:bxc"] [mask "//a:b.c"] ∧
      "//a:c+" ∉ filterListByRegex search ["//a:c+"] [mask "//a:c+"] := by
  decide

end ScipSync.Graph.Masks
