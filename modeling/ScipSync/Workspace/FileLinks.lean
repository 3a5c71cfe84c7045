import ScipSync.Workspace.Populate

/-! Which links a populated workspace gives each file (workspace.py
`populate_workspace`, `add_to_workspace` and `add_files_for_target`).

`populate_workspace` processes a sequence of (target, manifest, files) triples
in the order of its outputs (`sourceTriples`): for each it makes one target link
and one manifest link and points every listed file at both
(`populateWorkspace_eq_foldl`). `add_link` hands out a fresh id, so a later link
never replaces an earlier one, while `add_file` overwrites a file's id of each
type. So a file is recorded exactly when some triple lists it, and both its
links come from the last triple that lists it (`populateWorkspace_fileLinks`). -/

namespace ScipSync.Workspace.FileLinks
open ScipSync.Basic.Dict ScipSync.Basic.Text ScipSync.Workspace.Store
open ScipSync.Workspace.Populate ScipWorkspace

/-! ## The triples -/

/-- The (target, manifest, files) triples of one target: its `_options`
manifests in order, the `i`-th with the `i`-th sources-list entry when that
entry exists, is not `None` and is a file, whose stripped non-blank lines are
the files. -/
def targetTriples (cwd : String) (fileText : String → Option String) (target : String)
    (targetMnemonics : PyDict String (List String)) : List (String × String × List String) :=
  let manifests := (outputsOrNone targetMnemonics javaTargetManifestMnemonic).filterMap
    fun file => file.filter fun f => endsWith f "_options"
  let sourcesLists := outputsOrNone targetMnemonics unpackedJavaSourcesMnemonic
  manifests.enum.filterMap fun (index, manifest) =>
    match sourcesLists.get? index with
    | some (some sourcesList) =>
      (fileText (pathJoin cwd sourcesList)).map fun content =>
        (target, manifest, getStringLines content)
    | _ => none

/-- The triples of every target in order, but those of `//3rdparty/` and
`bazel-out` targets. -/
def sourceTriples (cwd : String) (fileText : String → Option String)
    (targetToOutput : PyDict String (PyDict String (List String))) :
    List (String × String × List String) :=
  targetToOutput.entries.flatMap fun (target, targetMnemonics) =>
    if startsWith target "//3rdparty/" || startsWith target "bazel-out" then []
    else targetTriples cwd fileText target targetMnemonics

/-- `add_files_for_target` on one triple. -/
def addTriple (w : ScipWorkspace) (tr : String × String × List String) : ScipWorkspace :=
  addFilesForTarget w tr.1 tr.2.2 tr.2.1

theorem foldl_filterMap {α β γ : Type} (g : α → Option β) (step : γ → β → γ) (l : List α)
    (init : γ) : (l.filterMap g).foldl step init = l.foldl (fun acc x => (g x).elim acc (step acc)) init := by
  induction l generalizing init with
  | nil => rfl
  | cons x l ih => cases h : g x <;> simp [List.filterMap_cons, h, ih]

theorem addToWorkspace_eq_foldl (cwd : String) (fileText : String → Option String)
    (w : ScipWorkspace) (target : String) (targetMnemonics : PyDict String (List String)) :
    addToWorkspace cwd fileText w target targetMnemonics =
      (targetTriples cwd fileText target targetMnemonics).foldl addTriple w := by
  unfold addToWorkspace targetTriples
  dsimp only
  rw [foldl_filterMap]
  congr 1
  funext acc p
  obtain ⟨index, manifest⟩ := p
  dsimp only
  rcases (outputsOrNone targetMnemonics unpackedJavaSourcesMnemonic).get? index with _ | _ | s
  · rfl
  · rfl
  · dsimp only
    cases fileText (pathJoin cwd s) <;> rfl

/-- **`populate_workspace` adds the triples' files**, one triple after another. -/
theorem populateWorkspace_eq_foldl (cwd : String) (fileText : String → Option String)
    (targetToOutput : PyDict String (PyDict String (List String))) :
    populateWorkspace cwd fileText targetToOutput =
      (sourceTriples cwd fileText targetToOutput).foldl addTriple ScipWorkspace.empty := by
  unfold populateWorkspace sourceTriples createWorkspace
  generalize ScipWorkspace.empty = w
  induction targetToOutput.entries generalizing w with
  | nil => rfl
  | cons p l ih =>
    obtain ⟨target, targetMnemonics⟩ := p
    rw [List.foldl_cons, List.flatMap_cons, List.foldl_append]
    dsimp only
    split
    · exact ih w
    · rw [addToWorkspace_eq_foldl]
      exact ih _

/-! ## One triple -/

/-- File `f` holds an id of each type, naming a link to `t` and one to `m`. -/
def LinksTo (w : ScipWorkspace) (f t m : String) : Prop :=
  ∃ fileLinks, w.getFile f = some fileLinks ∧
    (fileLinks.get? WorkspaceLinkType.bazelTarget.name).bind (w.getLink · .bazelTarget) = some t ∧
    (fileLinks.get? WorkspaceLinkType.javaManifest.name).bind (w.getLink · .javaManifest) = some m

/-- The file loop of `add_files_for_target`: each listed file holds both ids,
every other file is as it was, and the links are untouched. -/
theorem addFiles_spec (targetId manifestId : String) :
    ∀ (files : List String) (w : ScipWorkspace),
      let w' := files.foldl (fun workspace file =>
        (workspace.addFile file targetId .bazelTarget).addFile file manifestId .javaManifest) w
      w'.links = w.links ∧ w'.lastLinkId = w.lastLinkId ∧
        (∀ f, f ∉ files → w'.getFile f = w.getFile f) ∧
        ∀ f ∈ files, ∃ fileLinks, w'.getFile f = some fileLinks ∧
          fileLinks.get? WorkspaceLinkType.bazelTarget.name = some targetId ∧
          fileLinks.get? WorkspaceLinkType.javaManifest.name = some manifestId
  | [], _ => ⟨rfl, rfl, fun _ _ => rfl, fun _ h => nomatch h⟩
  | file :: files, w => by
    dsimp only [List.foldl_cons]
    obtain ⟨hl, hn, hout, hin⟩ := addFiles_spec targetId manifestId files
      ((w.addFile file targetId .bazelTarget).addFile file manifestId .javaManifest)
    refine ⟨hl, hn, fun f hf => ?_, fun f hf => ?_⟩
    · have hne : f ≠ file := fun h => hf (h ▸ List.mem_cons_self _ _)
      rw [hout f fun h => hf (List.mem_cons_of_mem _ h), getFile_addFile, getFile_addFile,
        if_neg hne, if_neg hne]
    · by_cases hrest : f ∈ files
      · exact hin f hrest
      obtain rfl : f = file := (List.mem_cons.mp hf).resolve_right hrest
      refine ⟨_, (hout f hrest).trans (by rw [getFile_addFile, if_pos rfl]), ?_, ?_⟩ <;>
        simp [addFile, PyDict.getD_set, WorkspaceLinkType.name]

/-- Only `links` and `_last_link_id` decide the ids. -/
theorem idsExact_of_links {w w' : ScipWorkspace} (hl : w'.links = w.links)
    (hn : w'.lastLinkId = w.lastLinkId) (h : IdsExact w) : IdsExact w' := by
  unfold IdsExact linkIds
  rw [hl, hn]
  exact h

/-- **One triple.** `add_files_for_target` points every listed file at its two
new links, and leaves every other file and every existing link as it was. -/
theorem addTriple_spec {w : ScipWorkspace} (hw : IdsExact w) (tr : String × String × List String) :
    IdsExact (addTriple w tr) ∧
      (∀ f ∈ tr.2.2, LinksTo (addTriple w tr) f tr.1 tr.2.1) ∧
      (∀ f, f ∉ tr.2.2 → (addTriple w tr).getFile f = w.getFile f) ∧
      ∀ id t, id ∈ w.linkIds t → (addTriple w tr).getLink id t = w.getLink id t := by
  obtain ⟨target, manifest, files⟩ := tr
  let w₁ := (w.addLink target .bazelTarget).2
  let w₂ := (w₁.addLink manifest .javaManifest).2
  have hw₁ : IdsExact w₁ := idsExact_addLink hw _ _
  obtain ⟨hl, hn, hout, hin⟩ := addFiles_spec (w.addLink target .bazelTarget).1
    (w₁.addLink manifest .javaManifest).1 files w₂
  have hlink : ∀ id t, (addTriple w (target, manifest, files)).getLink id t = w₂.getLink id t :=
    fun id t => by simp only [getLink, addTriple, addFilesForTarget]; rw [hl]
  refine ⟨idsExact_of_links hl hn (idsExact_addLink hw₁ _ _), fun f hf => ?_, hout,
    fun id t hid => ?_⟩
  · obtain ⟨fileLinks, hget, hT, hM⟩ := hin f hf
    refine ⟨fileLinks, hget, ?_, ?_⟩
    · rw [hT, Option.some_bind, hlink, getLink_addLink, if_neg (fun h => nomatch h.1),
        getLink_addLink, if_pos ⟨rfl, rfl⟩]
    · rw [hM, Option.some_bind, hlink, getLink_addLink, if_pos ⟨rfl, rfl⟩]
  · have hT : id ≠ (w.addLink target .bazelTarget).1 := fun h => addLink_fresh hw _ _ t (h ▸ hid)
    have hM : id ≠ (w₁.addLink manifest .javaManifest).1 := fun h =>
      addLink_fresh hw₁ _ _ t (h ▸ linkIds_addLink_mono _ _ _ _ hid)
    rw [hlink, getLink_addLink, if_neg fun h => hM h.2, getLink_addLink, if_neg fun h => hT h.2]

/-- A file no triple lists keeps its links. -/
theorem LinksTo.addTriple {w : ScipWorkspace} (hw : IdsExact w) {f t m : String}
    (h : LinksTo w f t m) (tr : String × String × List String) (hf : f ∉ tr.2.2) :
    LinksTo (FileLinks.addTriple w tr) f t m := by
  obtain ⟨-, -, hout, hold⟩ := addTriple_spec hw tr
  obtain ⟨fileLinks, hget, hT, hM⟩ := h
  have keep : ∀ (lt : WorkspaceLinkType) (x : String),
      (fileLinks.get? lt.name).bind (w.getLink · lt) = some x →
        (fileLinks.get? lt.name).bind ((FileLinks.addTriple w tr).getLink · lt) = some x := by
    intro lt x hx
    obtain ⟨id, hid, hx⟩ := Option.bind_eq_some.mp hx
    rw [hid, Option.some_bind, hold id lt (mem_linkIds_of_getLink hx), hx]
  exact ⟨fileLinks, (hout f hf).trans hget, keep _ _ hT, keep _ _ hM⟩

/-! ## Every triple -/

/-- **A run of triples.** After adding the triples `P`, a file no triple lists is
as it was, and a file some triple lists points at the target and the manifest
of the last triple that lists it. -/
theorem foldl_addTriple_spec (P : List (String × String × List String)) {w : ScipWorkspace}
    (hw : IdsExact w) :
    IdsExact (P.foldl addTriple w) ∧
      (∀ f, (∀ tr ∈ P, f ∉ tr.2.2) → (P.foldl addTriple w).getFile f = w.getFile f) ∧
      ∀ f t m L, (P.filter fun tr => f ∈ tr.2.2).getLast? = some (t, m, L) →
        LinksTo (P.foldl addTriple w) f t m := by
  induction P using List.reverseRecOn with
  | nil => exact ⟨hw, fun _ _ => rfl, fun _ _ _ _ h => nomatch h⟩
  | append_singleton P tr ih =>
    obtain ⟨hids, hout, hlinks⟩ := ih
    obtain ⟨hids', hin', hout', -⟩ := addTriple_spec hids tr
    rw [List.foldl_append, List.foldl_cons, List.foldl_nil]
    refine ⟨hids', fun f hf => ?_, fun f t m L hlast => ?_⟩
    · rw [hout' f (hf tr (List.mem_append_right _ (List.mem_singleton_self _))),
        hout f fun tr' htr' => hf tr' (List.mem_append_left _ htr')]
    · rw [List.filter_append, List.filter_singleton] at hlast
      by_cases hf : f ∈ tr.2.2
      · rw [decide_eq_true hf, cond_true, List.getLast?_concat, Option.some.injEq] at hlast
        subst hlast
        exact hin' f hf
      · rw [decide_eq_false hf, cond_false, List.append_nil] at hlast
        exact (hlinks f t m L hlast).addTriple hids tr hf

/-- **Which links a file gets.** In the workspace `populate_workspace` builds, a
file is recorded exactly when some triple it processes lists it; and then its
target link and its manifest link are the target and the manifest of the last
triple that lists it, so both come from the same pair. -/
theorem populateWorkspace_fileLinks (cwd : String) (fileText : String → Option String)
    (targetToOutput : PyDict String (PyDict String (List String))) (f : String) :
    let W := populateWorkspace cwd fileText targetToOutput
    let P := sourceTriples cwd fileText targetToOutput
    ((W.getFile f).isSome ↔ ∃ tr ∈ P, f ∈ tr.2.2) ∧
      ∀ t m L, (P.filter fun tr => f ∈ tr.2.2).getLast? = some (t, m, L) →
        ((W.getFile f).bind fun fileLinks =>
          fileLinks.get? WorkspaceLinkType.bazelTarget.name).bind (W.getLink · .bazelTarget) = some t ∧
        ((W.getFile f).bind fun fileLinks =>
          fileLinks.get? WorkspaceLinkType.javaManifest.name).bind (W.getLink · .javaManifest) = some m := by
  intro W P
  have hempty : IdsExact ScipWorkspace.empty := inv_empty.ids
  obtain ⟨-, hout, hlinks⟩ := foldl_addTriple_spec P hempty
  have hW : W = P.foldl addTriple ScipWorkspace.empty := populateWorkspace_eq_foldl _ _ _
  have links : ∀ t m L, (P.filter fun tr => f ∈ tr.2.2).getLast? = some (t, m, L) →
      LinksTo W f t m := fun t m L h => hW ▸ hlinks f t m L h
  refine ⟨⟨fun hsome => ?_, fun ⟨tr, htr, hf⟩ => ?_⟩, fun t m L h => ?_⟩
  · by_contra hnone
    rw [hW, hout f fun tr htr hf => hnone ⟨tr, htr, hf⟩] at hsome
    cases hsome
  · have hmem : tr ∈ P.filter fun tr => f ∈ tr.2.2 := List.mem_filter.mpr ⟨htr, decide_eq_true hf⟩
    obtain ⟨⟨t, m, L⟩, hlast⟩ := Option.isSome_iff_exists.mp
      (List.getLast?_isSome.mpr (List.ne_nil_of_mem hmem))
    obtain ⟨fileLinks, hget, -⟩ := links t m L hlast
    rw [hget]
    rfl
  · obtain ⟨fileLinks, hget, hT, hM⟩ := links t m L h
    rw [hget, Option.some_bind, Option.some_bind]
    exact ⟨hT, hM⟩

end ScipSync.Workspace.FileLinks
