import ScipSync.Workspace.Persist

/-! Building the workspace from a sync's target outputs (workspace.py
`populate_workspace`, `add_to_workspace` and `add_files_for_target`), and the
target mode of `main` (scip_sync.py) that persists it.

For each target outside `//3rdparty/` and `bazel-out`, each `_options` manifest
is paired by position with a sources-list file; when that file exists, its
lines become the files of one new target link and one new manifest link. That
is a client run of `ScipWorkspace` in the sense of `Store.Session`
(`populateWorkspace_realized`), so the built workspace has the workspace
invariant, and what `main` writes reads back as built (`targetRun_read`).

`populate_workspace` starts from `create_workspace(cwd)`, a new empty workspace,
and `write_workspace` replaces `workspace.json`: the text a run leaves depends
on that run's outputs alone. -/

namespace ScipSync.Workspace.Populate
open ScipSync.Basic.Dict ScipSync.Basic.Text ScipSync.Workspace.Store ScipSync.Workspace.Persist

/-! ## Paths and files -/

/-- `ScipMnemonics.JAVA_TARGET_MANIFEST_MNEMONIC`. -/
def javaTargetManifestMnemonic : String := "TemplateExpand"

/-- `ScipMnemonics.UNPACKED_JAVA_SOURCES_MNEMONIC`. -/
def unpackedJavaSourcesMnemonic : String := "scipFindUnpackedJavaSources"

/-- `os.path.join(a, b)`: an absolute `b` replaces `a`. -/
def pathJoin (a b : String) : String :=
  if startsWith b "/" then b
  else if a = "" ∨ endsWith a "/" then a ++ b
  else a ++ "/" ++ b

/-- `get_string_lines` of a file with text `content`: its stripped lines that
are not empty. -/
def getStringLines (content : String) : List String :=
  ((splitNewline (translateNewlines content.toList)).map fun line => pyStrip ⟨line⟩).filter
    (· ≠ "")

/-! ## Populating -/

/-- `add_files_for_target`. -/
def addFilesForTarget (workspace : ScipWorkspace) (target : String) (files : List String)
    (manifest : String) : ScipWorkspace :=
  let (targetId, workspace) := workspace.addLink target .bazelTarget
  let (manifestId, workspace) := workspace.addLink manifest .javaManifest
  files.foldl (fun workspace file =>
    (workspace.addFile file targetId .bazelTarget).addFile file manifestId .javaManifest) workspace

/-- `target_mnemonics.get(mnemonic, [None])`. -/
def outputsOrNone (targetMnemonics : PyDict String (List String)) (mnemonic : String) :
    List (Option String) :=
  ((targetMnemonics.get? mnemonic).map (·.map some)).getD [none]

/-- `add_to_workspace`, where `fileText p` is the text `get_string_lines` reads at `p`
when `os.path.exists(p)`, and `none` when nothing is there; a read that raises ends
`main` before the workspace is written (`Sync.Main.syncIndexes` checks the paths,
`sourcesListPaths`). A manifest with no sources list at its position, or with
`None` there, is skipped. -/
def addToWorkspace (cwd : String) (fileText : String → Option String) (workspace : ScipWorkspace)
    (target : String) (targetMnemonics : PyDict String (List String)) : ScipWorkspace :=
  let manifests := (outputsOrNone targetMnemonics javaTargetManifestMnemonic).filterMap
    fun file => file.filter fun f => endsWith f "_options"
  let sourcesLists := outputsOrNone targetMnemonics unpackedJavaSourcesMnemonic
  manifests.enum.foldl (fun workspace (index, manifest) =>
    match sourcesLists.get? index with
    | some (some sourcesList) =>
      match fileText (pathJoin cwd sourcesList) with
      | some content => addFilesForTarget workspace target (getStringLines content) manifest
      | none => workspace
    | _ => workspace) workspace

/-- `create_workspace`. -/
def createWorkspace (_cwd : String) : ScipWorkspace := ScipWorkspace.empty

/-- `populate_workspace`. -/
def populateWorkspace (cwd : String) (fileText : String → Option String)
    (targetToOutput : PyDict String (PyDict String (List String))) : ScipWorkspace :=
  targetToOutput.entries.foldl (fun workspace (target, targetMnemonics) =>
    if startsWith target "//3rdparty/" || startsWith target "bazel-out" then workspace
    else addToWorkspace cwd fileText workspace target targetMnemonics) (createWorkspace cwd)

/-- The sources lists `add_to_workspace` reads with `get_string_lines` when they
exist, as paths under `cwd`: the one at each manifest's position, when it is not
`None`. -/
def targetSourcesLists (cwd : String) (targetMnemonics : PyDict String (List String)) :
    List String :=
  let manifests := (outputsOrNone targetMnemonics javaTargetManifestMnemonic).filterMap
    fun file => file.filter fun f => endsWith f "_options"
  let sourcesLists := outputsOrNone targetMnemonics unpackedJavaSourcesMnemonic
  manifests.enum.filterMap fun (index, _) =>
    match sourcesLists.get? index with
    | some (some sourcesList) => some (pathJoin cwd sourcesList)
    | _ => none

/-- The files `populate_workspace` reads: the sources lists of every target but the
`//3rdparty/` and `bazel-out` ones. -/
def sourcesListPaths (cwd : String) (targetToOutput : PyDict String (PyDict String (List String))) :
    List String :=
  targetToOutput.entries.flatMap fun (target, targetMnemonics) =>
    if startsWith target "//3rdparty/" || startsWith target "bazel-out" then []
    else targetSourcesLists cwd targetMnemonics

/-- The target mode of `main`, from the outputs `get_mnemonic_output` found to
the text it leaves in `.scip/workspace.json`. The text that was there before is
not read. -/
def targetRun (cwd : String) (fileText : String → Option String)
    (targetToOutput : PyDict String (PyDict String (List String))) (_workspaceJson : Option String) :
    Option String :=
  some (writeWorkspace (populateWorkspace cwd fileText targetToOutput))

/-! ## Populating is a client run -/

theorem Session.run_append (s : Session) (ops ops' : List Op) :
    s.run (ops ++ ops') = (s.run ops).bind (·.run ops') :=
  List.foldlM_append _ _ _ _

/-- Some client run turns every session's workspace `w` into `f w`. -/
def Realized (f : ScipWorkspace → ScipWorkspace) : Prop :=
  ∀ s : Session, ∃ ops s', s.run ops = some s' ∧ s'.workspace = f s.workspace

theorem Realized.id : Realized fun w => w := fun s => ⟨[], s, rfl, rfl⟩

theorem Realized.comp {f g : ScipWorkspace → ScipWorkspace} (hf : Realized f) (hg : Realized g) :
    Realized fun w => g (f w) := by
  intro s
  obtain ⟨ops, s', hs', hw'⟩ := hf s
  obtain ⟨ops', s'', hs'', hw''⟩ := hg s'
  exact ⟨ops ++ ops', s'', by rw [Session.run_append, hs', Option.some_bind, hs''], by
    rw [hw'', hw']⟩

theorem Realized.foldl {α : Type} {step : ScipWorkspace → α → ScipWorkspace} {l : List α}
    (h : ∀ x ∈ l, Realized fun w => step w x) : Realized fun w => l.foldl step w := by
  induction l with
  | nil => exact Realized.id
  | cons x l ih =>
    exact (h x (List.mem_cons_self _ _)).comp (ih fun y hy => h y (List.mem_cons_of_mem _ hy))

theorem Realized.ite {p : Prop} [Decidable p] {f g : ScipWorkspace → ScipWorkspace}
    (hf : Realized f) (hg : Realized g) : Realized fun w => if p then f w else g w := by
  by_cases hp : p <;> simpa only [hp, if_true, if_false]

/-- The file loop of `add_files_for_target`, with both ids handed out. -/
theorem run_addFiles (targetId manifestId : String) :
    ∀ (files : List String) (s : Session), (targetId, .bazelTarget) ∈ s.issued →
      (manifestId, .javaManifest) ∈ s.issued →
      s.run (files.flatMap fun file =>
          [.addFile file targetId .bazelTarget, .addFile file manifestId .javaManifest]) =
        some ⟨files.foldl (fun workspace file =>
          (workspace.addFile file targetId .bazelTarget).addFile file manifestId .javaManifest)
          s.workspace, s.issued⟩
  | [], _, _, _ => rfl
  | file :: files, s, ht, hm => by
    rw [List.flatMap_cons, Session.run_append]
    have hstep : s.run [.addFile file targetId .bazelTarget, .addFile file manifestId .javaManifest] =
        some ⟨(s.workspace.addFile file targetId .bazelTarget).addFile file manifestId .javaManifest,
          s.issued⟩ := by
      simp [Session.run, Session.step, ht, hm]
    rw [hstep, Option.some_bind]
    exact run_addFiles targetId manifestId files _ ht hm

theorem addFilesForTarget_realized (target : String) (files : List String) (manifest : String) :
    Realized fun w => addFilesForTarget w target files manifest := by
  intro s
  let targetId := (s.workspace.addLink target .bazelTarget).1
  let w₁ := (s.workspace.addLink target .bazelTarget).2
  let manifestId := (w₁.addLink manifest .javaManifest).1
  let s₂ : Session := ⟨(w₁.addLink manifest .javaManifest).2,
    (manifestId, .javaManifest) :: (targetId, .bazelTarget) :: s.issued⟩
  have hlinks : ∀ ops, s.run ([.addLink target .bazelTarget, .addLink manifest .javaManifest] ++ ops)
      = s₂.run ops := fun ops => by
    rw [Session.run_append]
    rfl
  exact ⟨_, _, (hlinks _).trans (run_addFiles targetId manifestId files s₂
    (List.mem_cons_of_mem _ (List.mem_cons_self _ _)) (List.mem_cons_self _ _)), rfl⟩

theorem addToWorkspace_realized (cwd : String) (fileText : String → Option String) (target : String)
    (targetMnemonics : PyDict String (List String)) :
    Realized fun w => addToWorkspace cwd fileText w target targetMnemonics := by
  refine Realized.foldl fun ⟨index, manifest⟩ _ => ?_
  dsimp only
  split
  · split
    · exact addFilesForTarget_realized _ _ _
    · exact Realized.id
  · exact Realized.id

theorem populateWorkspace_realized (cwd : String) (fileText : String → Option String)
    (targetToOutput : PyDict String (PyDict String (List String))) :
    ∃ ops s, Session.empty.run ops = some s ∧
      s.workspace = populateWorkspace cwd fileText targetToOutput := by
  have h : Realized fun w => targetToOutput.entries.foldl (fun workspace
      (p : String × PyDict String (List String)) =>
      if startsWith p.1 "//3rdparty/" || startsWith p.1 "bazel-out" then workspace
      else addToWorkspace cwd fileText workspace p.1 p.2) w :=
    Realized.foldl fun p _ => Realized.ite Realized.id (addToWorkspace_realized cwd fileText p.1 p.2)
  exact h Session.empty

/-- The workspace `populate_workspace` builds has the workspace invariant. -/
theorem populateWorkspace_inv (cwd : String) (fileText : String → Option String)
    (targetToOutput : PyDict String (PyDict String (List String))) :
    IdsExact (populateWorkspace cwd fileText targetToOutput) ∧
      FilesLinked (populateWorkspace cwd fileText targetToOutput) := by
  obtain ⟨ops, s, hs, hw⟩ := populateWorkspace_realized cwd fileText targetToOutput
  have hinv := inv_run ops inv_empty hs
  rw [← hw]
  exact ⟨hinv.ids, hinv.files⟩

/-- What a target-mode run leaves in `workspace.json` reads back as the workspace
`populate_workspace` built from that run's outputs. -/
theorem targetRun_read (cwd : String) (fileText : String → Option String)
    (targetToOutput : PyDict String (PyDict String (List String))) (workspaceJson : Option String) :
    (targetRun cwd fileText targetToOutput workspaceJson).bind readWorkspace =
      some (populateWorkspace cwd fileText targetToOutput) := by
  rw [targetRun, Option.some_bind, readWorkspace_writeWorkspace]

/-- Three target-mode runs against one cache directory. The first records
`A.java` under link `1` for `//a`; the second, for `//b`, writes a workspace
without `A.java` whose link `1` is `//b`; the third finds no outputs and writes
`_last_link_id` 0. -/
theorem targetRun_forgets_recorded_files :
    let outputs : String → String → PyDict String (PyDict String (List String)) :=
      fun target sources => PyDict.empty.set target
        ((PyDict.empty.set javaTargetManifestMnemonic [target ++ "_options"]).set
          unpackedJavaSourcesMnemonic [sources])
    let fileText : String → Option String := fun p =>
      if p = "/repo/a_sources" then some "A.java\n"
      else if p = "/repo/b_sources" then some "B.java\n" else none
    let first := targetRun "/repo" fileText (outputs "//a" "a_sources") none
    let second := first.bind (targetRun "/repo" fileText (outputs "//b" "b_sources") ∘ some)
    let third := second.bind (targetRun "/repo" fileText PyDict.empty ∘ some)
    ((first.bind readWorkspace).bind fun w => w.getFile "A.java") ≠ none ∧
      ((first.bind readWorkspace).bind fun w => w.getLink "1" .bazelTarget) = some "//a" ∧
      ((second.bind readWorkspace).bind fun w => w.getFile "A.java") = none ∧
      ((second.bind readWorkspace).bind fun w => w.getLink "1" .bazelTarget) = some "//b" ∧
      (second.bind readWorkspace).map (·.lastLinkId) = some 2 ∧
      (third.bind readWorkspace).map (·.lastLinkId) = some 0 := by
  intro outputs fileText first second third
  -- each run reads back its own outputs' workspace, as with no `workspace.json` before it
  have hfirst : first.bind readWorkspace =
      some (populateWorkspace "/repo" fileText (outputs "//a" "a_sources")) :=
    targetRun_read _ _ _ none
  have hsecond : second.bind readWorkspace =
      some (populateWorkspace "/repo" fileText (outputs "//b" "b_sources")) :=
    targetRun_read _ _ _ none
  have hthird : third.bind readWorkspace = some (populateWorkspace "/repo" fileText PyDict.empty) :=
    targetRun_read _ _ _ none
  rw [hfirst, hsecond, hthird]
  decide

end ScipSync.Workspace.Populate
