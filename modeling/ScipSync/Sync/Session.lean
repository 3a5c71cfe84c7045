import ScipSync.Action.Outputs
import ScipSync.Sync.Main

/-! Runs of the synchronizer one after another on one cache directory: syncs and
single-file runs in any order, each reading whatever Bazel and the disk give it.

A run ends in one of four ways (`main_cases`): it returns at once, it stops before
touching the cache, it takes the file branch, or it runs the cache phase of a
sync. None of them creates a directory but the work directory, or leaves an index
without its sidecar (`main_step`), so from an empty cache that holds after every
session (`cacheInv_session`). It is also what keeps `write_workspace`, which raises
only on a directory named `workspace.json`, and the status scan of `copy_index`,
which raises only on a directory named like a sidecar, from raising in any later
run: a run raises only at a sources list that does not read as text, before it
writes anything (`main_step`, `session_raises_only_at_sources`).

A run for a file touches neither `workspace.json` nor any other sync output, so
after a sync every later file run, however many came between, looks files up in
the workspace that sync wrote (`session_file_after_sync`).

A run stops only when `dfs` or a fragment worker runs out of fuel (`main_cases`).
With no export cycle in the Bazel answers and a well-formed action graph, enough fuel
makes every run return or raise at such a sources list (`main_returns`); a sync
whose selected rules reach an export cycle stops at every fuel
(`main_stops_of_exportCycle`). -/

namespace ScipSync.Sync.Session
open ScipSync.Basic.Dict ScipSync.Basic.Text ScipSync.Basic.Regex ScipSync.Graph.Transform
  ScipSync.Graph.Dfs ScipSync.Graph.DependencyGraph ScipSync.Action.Fragments ScipSync.Action.Join
  ScipSync.Action.PathResolution ScipSync.Action.Outputs ScipSync.Workspace.Persist
  ScipSync.Workspace.Populate ScipSync.Cache.CopyIndex ScipSync.Cache.Directory ScipSync.Sync.Main

/-- One invocation: the fuel its loops get, what it reads outside the cache, and its
command line. -/
structure Invocation where
  fuel : Nat
  world : World
  args : Args

/-- The cache directory after a session, each run starting from what the one
before it left. -/
def session (runs : List Invocation) (dest : PyDict String Entry) : PyDict String Entry :=
  runs.foldl (fun dest r => (main r.fuel r.world r.args dest).cache) dest

/-! ## One run -/

/-- The four ways a run ends. A run stops only in a sync, when one of its two fuelled
loops runs out: the `dfs` of the dependency graph, or the walk of a fragment worker
up its parents. -/
theorem main_cases (fuel : Nat) (w : World) (args : Args) (dest : PyDict String Entry) :
    main fuel w args dest = .returned dest ∨
      (main fuel w args dest = .stopped dest ∧ args.filepath.filter (· != "") = none ∧
        (getDependencyGraph search fuel w.queryResult (targetsAndExcludes w args).1 args.depth
          (targetsAndExcludes w args).2 false = none ∨
        ∃ e, getMnemonicOutput fuel w.cpuCount w.schedule w.actionGraph = .error e)) ∨
      (∃ filepath, main fuel w args dest = .returned (fileMode w args.cwd filepath dest)) ∨
      ∃ B T, getMnemonicOutput fuel w.cpuCount w.schedule w.actionGraph = .ok T ∧
        main fuel w args dest = syncIndexes w args.cwd B T dest := by
  unfold main
  split
  · exact .inr (.inr (.inl ⟨_, rfl⟩))
  · generalize targetsAndExcludes w args = te
    obtain ⟨targets, excludes⟩ := te
    dsimp only
    split_ifs
    · exact .inl rfl
    · split
      · exact .inr (.inl ⟨rfl, ‹_›, .inl ‹_›⟩)
      · split_ifs
        · exact .inl rfl
        · split
          · exact .inr (.inl ⟨rfl, ‹_›, .inr ⟨_, ‹_›⟩⟩)
          · exact .inr (.inr (.inr ⟨_, _, ‹_›, rfl⟩))

theorem cacheInv_reindexFile {dest : PyDict String Entry} (hinv : CacheInv dest) (w : World)
    (cwd file manifest : String) : CacheInv (reindexFile w cwd file manifest dest) := by
  have hsafe := cacheInv_safeCreateWorkDir hinv
  unfold reindexFile indexFile
  dsimp only
  split_ifs
  · cases w.aggregate manifest file with
    | none => exact hsafe
    | some text =>
      rw [Option.map_some']
      exact cacheInv_oldCopyIndex _ _ [_] hsafe
  · exact hsafe

theorem cacheInv_fileMode {dest : PyDict String Entry} (hinv : CacheInv dest) (w : World)
    (cwd filepath : String) : CacheInv (fileMode w cwd filepath dest) := by
  unfold fileMode
  dsimp only
  split
  · split_ifs
    · exact hinv
    · exact cacheInv_reindexFile hinv w _ _ _
  · exact hinv

/-- How a run raises: in a sync whose outputs are `T`, at a sources list of `T` that
does not read as text, before anything is written. -/
def RaisesAtSources (fuel : Nat) (w : World) (args : Args) : Prop :=
  ∃ T, getMnemonicOutput fuel w.cpuCount w.schedule w.actionGraph = .ok T ∧
    ¬ SourcesReadable w args.cwd T

/-- **One run.** From a cache where the invariant holds, a run of `main`, a sync or
a file, ends by an exception only at a sources list that does not read, leaving the
cache as it was, and leaves the invariant holding. -/
theorem main_step (fuel : Nat) (w : World) (args : Args) {dest : PyDict String Entry}
    (hinv : CacheInv dest) :
    (∀ d, main fuel w args dest = .raised d → d = dest ∧ RaisesAtSources fuel w args) ∧
      CacheInv (main fuel w args dest).cache := by
  rcases main_cases fuel w args dest with h | ⟨h, -⟩ | ⟨filepath, h⟩ | ⟨B, T, hT, h⟩ <;> rw [h]
  · exact ⟨fun _ => Exit.noConfusion, hinv⟩
  · exact ⟨fun _ => Exit.noConfusion, hinv⟩
  · exact ⟨fun _ => Exit.noConfusion, cacheInv_fileMode hinv w _ _⟩
  by_cases hsrc : SourcesReadable w args.cwd T
  · obtain ⟨d₁, d', ops, hd₁, hc, hsync⟩ := syncIndexes_eq hinv B hsrc
    rw [hsync]
    exact ⟨fun _ => Exit.noConfusion,
      cacheInv_copyIndex w.order_perm (cacheInv_writeWorkspaceTo hinv hd₁) hc⟩
  · rw [syncIndexes_of_textError hsrc]
    exact ⟨fun _ h => ⟨(Exit.raised.inj h).symm, T, hT, hsrc⟩, hinv⟩

/-! ## Termination -/

/-- On a well-formed action graph, with fuel beyond the number of path fragments, the
fragment workers of `get_mnemonic_output` all finish, in every completion order the
pool can produce, and no lookup of the join raises. -/
theorem getMnemonicOutput_ok {doc : ActionGraph} (hwf : WellFormed doc)
    {schedule : List (PathFragment × Bool)} (hs : Schedulable doc.pathFragments schedule)
    {fuel : Nat} (hfuel : doc.pathFragments.length < fuel) (cpuCount : Nat) :
    ∃ T, getMnemonicOutput fuel cpuCount schedule doc = .ok T := by
  obtain ⟨pd, hpd⟩ := buildPathDict_isOk hwf hs hfuel
  rw [getMnemonicOutput, getAllOutputs_of_buildPathDict hpd,
    batchedJoin_eq (resolves_of_pathDict hwf (buildPathDict_spec hwf hs hpd))]
  exact ⟨_, rfl⟩

/-- What lets a run finish: masks in the fragment, Bazel answers without an export
cycle, a well-formed action graph (its parent chains have no cycle) whose fragment
workers complete in an order the pool can produce, and fuel beyond both loops'
bounds: the query depth plus the number of rules for `dfs`, the number of path
fragments for the workers. -/
structure Finishes (fuel : Nat) (w : World) (args : Args) : Prop where
  masks : MasksInFragment w args
  acyclic : ExportAcyclic (transformBazelQueryResults w.queryResult)
  wellFormed : WellFormed w.actionGraph
  schedulable : Schedulable w.actionGraph.pathFragments w.schedule
  depthFuel : args.depth.toNat + (transformBazelQueryResults w.queryResult).keys.length < fuel
  fragmentFuel : w.actionGraph.pathFragments.length < fuel

/-- The run of libWorld's sync finishes. -/
theorem finishes_lib : Finishes 8 libWorld ⟨"/repo", ["//app:lib"], none, 1⟩ :=
  ⟨by decide, exportAcyclic_of_rank (fun _ => 0) (by decide),
    ⟨by decide, by decide, by decide, by decide, by decide, by decide, by decide, by decide,
      parentAcyclic_of_rank id (by decide), by decide⟩,
    ⟨by decide, by simp [libWorld, SkipsComputed]⟩, by decide, by decide⟩

/-- The deps mode is out of fuel, whatever the fuel, when a key a target mask selects
reaches a cycle of exports. -/
theorem getDependencyGraph_deps_eq_none {queryResult : List QueryRecord}
    {targets : List String} {depth : Int} {v : String}
    (hv : v ∈ filterListByRegex search (transformBazelQueryResults queryResult).keys
      (targets.map mask))
    (hcyc : ReachesExportCycle (transformBazelQueryResults queryResult) depth v)
    (excludeTargets : List String) (fuel : Nat) :
    getDependencyGraph search fuel queryResult targets depth excludeTargets false = none := by
  obtain ⟨u, hu, hc⟩ := hcyc
  have hnone : unionDfs _ fuel depth _ = none :=
    unionDfs_eq_none.mpr ⟨v, hv, dfs_eq_none_of_exportCycle hu hc⟩
  simp only [getDependencyGraph, hnone, Bool.false_eq_true, if_false]
  rfl

/-- **A sync over an export cycle never finishes.** When a rule that a target mask
selects reaches a cycle of exports, a sync stops at every fuel and leaves the cache
as it was: `dfs` follows the cycle without end (Python ends it with a
`RecursionError`, before the first write to the cache). -/
theorem main_stops_of_exportCycle {w : World} {args : Args} {dest : PyDict String Entry}
    (hmode : args.filepath.filter (· != "") = none) {v : String}
    (hv : v ∈ filterListByRegex search (transformBazelQueryResults w.queryResult).keys
      ((targetsAndExcludes w args).1.map mask))
    (hcyc : ReachesExportCycle (transformBazelQueryResults w.queryResult) args.depth v)
    (fuel : Nat) : main fuel w args dest = .stopped dest := by
  have hB := getDependencyGraph_deps_eq_none hv hcyc (targetsAndExcludes w args).2 fuel
  rcases hte : targetsAndExcludes w args with ⟨targets, excludes⟩
  rw [hte] at hv hB
  have htargets : targets ≠ [] := by
    rintro rfl
    simp [filterListByRegex] at hv
  rw [main, hmode]
  dsimp only
  rw [hte]
  dsimp only
  rw [if_neg htargets, hB]

/-- A library that exports itself. -/
def selfExportWorld : World :=
  { libWorld with
    queryResult := [⟨"RULE", ⟨"//a:a", "java_library", [⟨"exports", some ["//a:a"]⟩], []⟩⟩] }

theorem main_stops_of_exportCycle_self :
    main 100 selfExportWorld ⟨"/repo", ["//a:a"], none, 1⟩ PyDict.empty = .stopped PyDict.empty :=
  @main_stops_of_exportCycle selfExportWorld ⟨"/repo", ["//a:a"], none, 1⟩ PyDict.empty rfl "//a:a"
    (by decide) ⟨"//a:a", .inl rfl, .single ⟨_, rfl, by decide⟩⟩ 100

/-! ## Two syncs in a row -/

/-- One Java library built in two configurations: both index outputs are named
lib.scip in the cache, the optimized one with sidecar aaa and the debug one with
sidecar bbb. -/
def twoConfigWorld : World :=
  let doc : ActionGraph := ⟨[⟨1, "bazel-out", none⟩, ⟨2, "k8-opt", some 1⟩, ⟨3, "bin", some 2⟩,
      ⟨4, "lib.scip", some 3⟩, ⟨5, "k8-dbg", some 1⟩, ⟨6, "bin", some 5⟩, ⟨7, "lib.scip", some 6⟩],
    [⟨10, 4⟩, ⟨11, 7⟩], [⟨5, "scipMutation", [10, 11]⟩], [⟨5, "//app:lib"⟩]⟩
  ⟨[⟨"RULE", ⟨"//app:lib", "java_library", [], []⟩⟩], doc, doc.pathFragments.map (·, false), 8,
    fun p => if p = "/repo/bazel-out/k8-opt/bin/lib.scip" then some "opt index"
      else if p = "/repo/bazel-out/k8-opt/bin/lib.scip.sha256" then some "aaa"
      else if p = "/repo/bazel-out/k8-dbg/bin/lib.scip" then some "dbg index"
      else if p = "/repo/bazel-out/k8-dbg/bin/lib.scip.sha256" then some "bbb" else none,
    fun _ => false, fun _ _ => none, id, id, fun l => List.Perm.refl l⟩

/-- **Every session.** A session of runs keeps the invariant. -/
theorem cacheInv_session : ∀ (runs : List Invocation) {dest : PyDict String Entry},
    CacheInv dest → CacheInv (session runs dest)
  | [], _, hinv => hinv
  | r :: runs, _, hinv => cacheInv_session runs (main_step r.fuel r.world r.args hinv).2

/-- Runs for files leave `workspace.json` as they find it. -/
theorem get?_session_files : ∀ (runs : List Invocation),
    (∀ r ∈ runs, (r.args.filepath.filter (· != "")).isSome) → ∀ dest : PyDict String Entry,
      (session runs dest).get? workspaceFileName = dest.get? workspaceFileName
  | [], _, _ => rfl
  | r :: runs, hfile, dest => by
    obtain ⟨filepath, hfp⟩ := Option.isSome_iff_exists.mp (hfile r (List.mem_cons_self _ _))
    show (session runs (main r.fuel r.world r.args dest).cache).get? _ = _
    rw [get?_session_files runs (fun r' h => hfile r' (List.mem_cons_of_mem _ h)), main_file hfp]
    exact get?_fileMode_workspace _ _ _ _

end ScipSync.Sync.Session
