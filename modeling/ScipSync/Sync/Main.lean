import ScipSync.Basic.Regex
import ScipSync.Graph.DependencyGraph
import ScipSync.Action.Join
import ScipSync.Workspace.FileLinks
import ScipSync.Project.BazelProject
import ScipSync.Cache.Directory

/-! `main` (scip_sync.py): one run of the synchronizer, from its command line to the
cache directory it leaves.

With a file (`--filepath`) the run looks the file up in the workspace the last sync
wrote, and when the workspace names the file's manifest it has the aggregator index
the file and copies that index into the cache with `old_copy_index`. Every
exception is caught there and the run returns, so the code after that `try`
(finding the file's target and adding it to the targets) is never reached; the
model has no counterpart for it. Without a file the run syncs: the targets of the
command line, or of `.ijwb/.bazelproject` when it names none; their dependency
graph; the outputs of the buildable targets; the workspace written from them; and
their indexes copied into the cache.

Bazel is outside the program. What `bazel query` and `bazel aquery` answer, the
files outside the cache, the index the aggregator writes, and the order the copy
workers run in form the `World` a run reads. The loops that may not end (`dfs`,
the fragment workers) get `fuel`. They run before the first write to the cache, so
a run that does not end within the fuel leaves the cache as it was (`Exit.stopped`).

A file of the `World` has its content, which `shutil.copy` copies, and may fail to
read as text (`textError`). A sync raises, before it writes anything, at a sources
list that does not read as text, and a copy worker leaves out an index whose
sidecar does not. The masks of a sync are read by the fragment of `re` that
`Basic.Regex` models, and the theorems about a sync assume they lie in it
(`MasksInFragment`, part of `Syncs`).

A sync leaves, besides `workspace.json` and the JDK indexes, exactly the indexes
and sidecars of the buildable targets' index outputs that exist with a sidecar that
reads as text (`main_sync_cache`).
A later run for a file of the workspace re-indexes it with the manifest of the last
target that lists it, and a run for a file touches nothing but the work directory
and that file's index and sidecar. -/

namespace ScipSync.Sync.Main
open ScipSync.Basic.Dict ScipSync.Basic.Text ScipSync.Basic.Regex ScipSync.Graph.Transform
  ScipSync.Graph.DependencyGraph ScipSync.Action.Fragments ScipSync.Action.Join
  ScipSync.Workspace.Store ScipSync.Workspace.Persist ScipSync.Workspace.Populate
  ScipSync.Workspace.FileLinks ScipSync.Project.BazelProject ScipSync.Cache.CopyIndex
  ScipSync.Cache.Directory

/-- `ScipMnemonics.INDEX_OUTPUT_MNEMONIC`. -/
def indexOutputMnemonic : String := "scipMutation"

/-- `incremental.WORK_DIR`. -/
def workDir : String := ".scip/tmp"

/-- The command line: `--cwd`, the positional targets, `--filepath`, `--depth`. -/
structure Args where
  cwd : String
  targets : List String
  filepath : Option String
  depth : Int

/-- What a run reads outside the cache directory. `queryResult` is what `bazel query`
answers `get_dependency_graph`, and `actionGraph` what `bazel aquery` answers
`get_mnemonic_output` after the build, its fragment workers completing in the
order `schedule` on a machine with `cpuCount` CPUs. `fileText p` is the content of
the regular file at `p` outside the cache that can be opened (`none`: there is none),
which `shutil.copy` copies; `textError p` says that reading `p` in text mode raises
although something is there: a directory, a file that cannot be opened, or bytes that
do not decode. `aggregate manifest file` is the index the aggregator writes for
`file` (`none`: it fails), and `sha256` is `generate_sha256` on a text. The copy pool
runs its operations in the order `order`, some permutation. -/
structure World where
  queryResult : List QueryRecord
  actionGraph : ActionGraph
  schedule : List (PathFragment × Bool)
  cpuCount : Nat
  fileText : String → Option String
  textError : String → Bool
  aggregate : String → String → Option String
  sha256 : String → String
  order : List FsOp → List FsOp
  order_perm : ∀ l, (order l).Perm l

/-- `os.path.exists(p)`. -/
def World.pathExists (w : World) (p : String) : Bool := (w.fileText p).isSome || w.textError p

/-- What reading `p` in text mode gives: `none` when nothing is there or the read
raises. -/
def World.textOf (w : World) (p : String) : Option String :=
  if w.textError p then none else w.fileText p

/-- How a run ends, with the cache directory it leaves. -/
inductive Exit where
  /-- `main` returns. -/
  | returned (cache : PyDict String Entry)
  /-- An exception that `main` does not catch ends the run. -/
  | raised (cache : PyDict String Entry)
  /-- The run does not end within the fuel; it has not written to the cache. -/
  | stopped (cache : PyDict String Entry)

/-- The cache directory a run leaves. -/
def Exit.cache : Exit → PyDict String Entry
  | .returned c => c
  | .raised c => c
  | .stopped c => c

/-! ## A sync -/

/-- The loop filling `index_target_map`: for each target, its index outputs that
exist, as paths under `cwd`. -/
def indexTargetMap (cwd : String) (pathExists : String → Bool) (targetToOutput : Outputs) :
    PyDict String (List String) :=
  targetToOutput.entries.foldl (fun indexTargetMap (target, targetMnemonics) =>
    (targetMnemonics.getD indexOutputMnemonic []).foldl (fun indexTargetMap index =>
      if pathExists (pathJoin cwd index) then
        indexTargetMap.set target (indexTargetMap.getD target [] ++ [pathJoin cwd index])
      else indexTargetMap) indexTargetMap) PyDict.empty

/-- `relevant_index`: the targets with an index that are buildable. -/
def relevantIndex (indexTargetMap : PyDict String (List String))
    (buildableScipTargets : List String) : List String :=
  indexTargetMap.keys.filter (· ∈ buildableScipTargets)

/-- `index_to_copy`: the union of their indexes. The set's iteration order is this
list's; `copy_index` runs its operations in any order anyway. -/
def indexToCopyOf (indexTargetMap : PyDict String (List String)) (relevantIndex : List String) :
    List String :=
  (relevantIndex.flatMap (indexTargetMap.getD · [])).eraseDups

/-- The indexes whose worker reads its sidecar: on a sidecar that is there but does
not read as text, `get_sha256_for_file` raises, and the worker's `except` returns
`None` before any copy, as if the index were not in the set. -/
def readableIndexes (w : World) (indexToCopy : List String) : List String :=
  indexToCopy.filter fun a => !w.textError (a ++ sha256FileSuffix)

/-- `main` once the outputs of the buildable targets are known: the indexes to
copy; the workspace, whose `get_string_lines` raises out of `main` on a sources list
that does not read as text; the workspace written; the indexes copied. -/
def syncIndexes (w : World) (cwd : String) (buildableScipTargets : List String)
    (targetToOutput : Outputs) (dest : PyDict String Entry) : Exit :=
  let indexTargetMap := indexTargetMap cwd w.pathExists targetToOutput
  if (sourcesListPaths cwd targetToOutput).any w.textError then .raised dest
  else
    let workspace := populateWorkspace cwd w.textOf targetToOutput
    match writeWorkspaceTo workspace dest with
    | none => .raised dest
    | some dest =>
      let relevantIndex := relevantIndex indexTargetMap buildableScipTargets
      let indexToCopy := indexToCopyOf indexTargetMap relevantIndex
      match copyIndex w.fileText w.order (readableIndexes w indexToCopy) dest with
      | none => .raised dest
      | some (dest, _) => .returned dest

/-! ## A file -/

/-- The index `incremental.index_file` has the aggregator write for `file`:
`os.path.join(cwd, WORK_DIR, file_name + ".scip")`. -/
def indexFilePath (cwd file : String) : String :=
  pathJoin (pathJoin cwd workDir) (⟨replaceChar '.' '_' (replaceChar '/' '_' file.toList)⟩ ++ ".scip")

/-- `incremental.index_file(cwd, file, manifest)`: the directory after `safe_create`
of the work directory, and the path and text of the index the aggregator writes
there; none when it fails (`check` raises), as it does when the work directory is a
file. -/
def indexFile (aggregate : String → String → Option String) (cwd file manifest : String)
    (dest : PyDict String Entry) : PyDict String Entry × Option (String × String) :=
  let dest := safeCreateWorkDir dest
  (dest, if dest.get? workDirName = some .dir then
    (aggregate manifest file).map (indexFilePath cwd file, ·) else none)

/-- The file branch once the workspace names the file's manifest: `index_file`,
then `old_copy_index` of the index it wrote. -/
def reindexFile (w : World) (cwd file manifest : String) (dest : PyDict String Entry) :
    PyDict String Entry :=
  let (dest, fileIndex) := indexFile w.aggregate cwd file manifest dest
  match fileIndex with
  | none => dest
  | some (path, text) =>
    Except.cache (oldCopyIndex w.sha256 (fun p => if p = path then some text else w.fileText p)
      [path] dest)

/-- `main` with a file: re-index it when the workspace names its manifest. Every
exception is caught and the run returns, leaving what was done before it. -/
def fileMode (w : World) (cwd filepath : String) (dest : PyDict String Entry) :
    PyDict String Entry :=
  let relativeFilepath := pyReplace filepath (cwd ++ "/") ""
  match getManifestForFileIn relativeFilepath dest with
  | some (some fileManifest) =>
    if fileManifest = "" then dest else reindexFile w cwd relativeFilepath fileManifest dest
  | _ => dest

/-! ## `main` -/

/-- The targets and excludes of a sync: those of the command line, or when it names
none, those of `.ijwb/.bazelproject`; when that file is there but does not read as
text, the `try` of `fetch_targets_from_bazelproject` catches the error and gives
none. -/
def targetsAndExcludes (w : World) (args : Args) : List String × List String :=
  if args.targets = [] then
    fetchTargetsFromBazelproject (w.textOf (pathJoin (pathJoin args.cwd ".ijwb") ".bazelproject"))
  else (args.targets, [])

/-- `main`. A file given as `--filepath` (and not empty) selects the file branch;
otherwise the run syncs. -/
def main (fuel : Nat) (w : World) (args : Args) (dest : PyDict String Entry) : Exit :=
  match args.filepath.filter (· != "") with
  | some filepath => .returned (fileMode w args.cwd filepath dest)
  | none =>
    let (targets, excludes) := targetsAndExcludes w args
    if targets = [] then .returned dest
    else
      match getDependencyGraph search fuel w.queryResult targets args.depth excludes false with
      | none => .stopped dest
      | some buildableScipTargets =>
        if buildableScipTargets = [] then .returned dest
        else
          match getMnemonicOutput fuel w.cpuCount w.schedule w.actionGraph with
          | .error _ => .stopped dest
          | .ok targetToOutput => syncIndexes w args.cwd buildableScipTargets targetToOutput dest

/-- Every mask of a sync's targets and excludes lies in the fragment of regular
expressions the model reads (`Basic.Regex.compile`). On such a mask `re.search`
neither raises nor answers otherwise; outside it the model's `search` says nothing
about Python, so the theorems about a sync assume it. -/
def MasksInFragment (w : World) (args : Args) : Prop :=
  args.filepath.filter (· != "") = none →
    ∀ t ∈ (targetsAndExcludes w args).1 ++ (targetsAndExcludes w args).2,
      (compile (mask t)).isSome

instance (w : World) (args : Args) : Decidable (MasksInFragment w args) :=
  inferInstanceAs (Decidable (_ → _))

/-- Every sources list `populate_workspace` reads reads as text. -/
def SourcesReadable (w : World) (cwd : String) (targetToOutput : Outputs) : Prop :=
  ∀ p ∈ sourcesListPaths cwd targetToOutput, w.textError p = false

instance (w : World) (cwd : String) (targetToOutput : Outputs) :
    Decidable (SourcesReadable w cwd targetToOutput) :=
  inferInstanceAs (Decidable (∀ p ∈ _, _))

/-! ## The indexes a sync copies -/

/-- The index outputs of a target that exist, as paths under `cwd`: what the loop
appends to `index_target_map[target]`. -/
def indexesOf (cwd : String) (pathExists : String → Bool)
    (targetMnemonics : PyDict String (List String)) : List String :=
  ((targetMnemonics.getD indexOutputMnemonic []).map (pathJoin cwd)).filter pathExists

section IndexTargetMap
variable (cwd : String) (pathExists : String → Bool)

/-- The inner loop appends a target's existing indexes to its entry, and creates
the entry only when there is one. -/
theorem foldl_indexes (target : String) :
    ∀ (indexes : List String) (m : PyDict String (List String)),
      indexes.foldl (fun indexTargetMap index =>
        if pathExists (pathJoin cwd index) then
          indexTargetMap.set target (indexTargetMap.getD target [] ++ [pathJoin cwd index])
        else indexTargetMap) m =
      if (indexes.map (pathJoin cwd)).filter pathExists = [] then m
      else m.set target (m.getD target [] ++
        (indexes.map (pathJoin cwd)).filter pathExists)
  | [], m => by simp
  | index :: indexes, m => by
    rw [List.foldl_cons, List.map_cons]
    have hcons : (pathJoin cwd index :: indexes.map (pathJoin cwd)).filter
        pathExists = if pathExists (pathJoin cwd index) then
          pathJoin cwd index :: (indexes.map (pathJoin cwd)).filter pathExists
        else (indexes.map (pathJoin cwd)).filter pathExists := List.filter_cons
    by_cases he : pathExists (pathJoin cwd index)
    · rw [if_pos he, foldl_indexes target indexes, hcons, if_pos he, if_neg (List.cons_ne_nil _ _)]
      split
      · rename_i hnil
        rw [hnil]
      · rw [PyDict.getD_set, if_pos rfl, PyDict.set_set, List.append_assoc, List.singleton_append]
    · rw [if_neg he, foldl_indexes target indexes, hcons, if_neg he]

/-- One target of the outer loop. -/
theorem step_indexTargetMap (target : String) (ms : PyDict String (List String))
    (m : PyDict String (List String)) :
    (ms.getD indexOutputMnemonic []).foldl (fun indexTargetMap index =>
        if pathExists (pathJoin cwd index) then
          indexTargetMap.set target (indexTargetMap.getD target [] ++ [pathJoin cwd index])
        else indexTargetMap) m =
      if indexesOf cwd pathExists ms = [] then m
      else m.set target (m.getD target [] ++ indexesOf cwd pathExists ms) :=
  foldl_indexes cwd pathExists target _ m

/-- The outer loop, over targets with distinct names. -/
theorem get?_foldl_indexTargetMap (t : String) :
    ∀ {l : List (String × PyDict String (List String))}, (l.map Prod.fst).Nodup →
      ∀ m : PyDict String (List String),
        (l.foldl (fun indexTargetMap (target, targetMnemonics) =>
          (targetMnemonics.getD indexOutputMnemonic []).foldl (fun indexTargetMap index =>
            if pathExists (pathJoin cwd index) then
              indexTargetMap.set target (indexTargetMap.getD target [] ++ [pathJoin cwd index])
            else indexTargetMap) indexTargetMap) m).get? t =
          match PyDict.lookupEntry t l with
          | some ms => if indexesOf cwd pathExists ms = [] then m.get? t
            else some (m.getD t [] ++ indexesOf cwd pathExists ms)
          | none => m.get? t
  | [], _, _ => rfl
  | (target, ms) :: l, hl, m => by
    rw [List.map_cons, List.nodup_cons] at hl
    rw [List.foldl_cons]
    dsimp only
    rw [step_indexTargetMap, get?_foldl_indexTargetMap t hl.2, PyDict.lookupEntry]
    by_cases ht : target = t
    · subst ht
      have hnone : PyDict.lookupEntry target l = none :=
        Option.not_isSome_iff_eq_none.mp (mt PyDict.lookupEntry_isSome.mp hl.1)
      rw [hnone, if_pos rfl]
      dsimp only
      split <;> simp
    · rw [if_neg ht]
      by_cases hi : indexesOf cwd pathExists ms = [] <;> simp [hi, Ne.symm ht]

/-- `index_target_map` holds, for each target with an existing index output, those
outputs. -/
theorem get?_indexTargetMap (targetToOutput : Outputs) (t : String) :
    (indexTargetMap cwd pathExists targetToOutput).get? t =
      (targetToOutput.get? t).bind fun ms =>
        if indexesOf cwd pathExists ms = [] then none else some (indexesOf cwd pathExists ms) := by
  rw [indexTargetMap, get?_foldl_indexTargetMap cwd pathExists t targetToOutput.nodup]
  show _ = (PyDict.lookupEntry t targetToOutput.entries).bind _
  cases PyDict.lookupEntry t targetToOutput.entries with
  | none => rfl
  | some ms => split <;> simp_all [PyDict.getD]

/-- **What a sync copies.** `index_to_copy` holds exactly the existing index
outputs of the buildable targets. -/
theorem mem_indexToCopyOf (targetToOutput : Outputs) (buildableScipTargets : List String)
    (p : String) :
    p ∈ indexToCopyOf (indexTargetMap cwd pathExists targetToOutput)
        (relevantIndex (indexTargetMap cwd pathExists targetToOutput) buildableScipTargets) ↔
      ∃ t ∈ buildableScipTargets, ∃ ms, targetToOutput.get? t = some ms ∧
        p ∈ indexesOf cwd pathExists ms := by
  have hget := get?_indexTargetMap cwd pathExists targetToOutput
  simp only [indexToCopyOf, relevantIndex, mem_eraseDups, List.mem_flatMap, List.mem_filter,
    decide_eq_true_eq, PyDict.mem_keys_iff, PyDict.getD]
  constructor
  · rintro ⟨t, ⟨hkey, hb⟩, hp⟩
    obtain ⟨L, hL⟩ := Option.isSome_iff_exists.mp hkey
    rw [hL, Option.getD_some] at hp
    rw [hget] at hL
    obtain ⟨ms, hms, hL⟩ := Option.bind_eq_some.mp hL
    split at hL
    · cases hL
    · cases hL
      exact ⟨t, hb, ms, hms, hp⟩
  · rintro ⟨t, hb, ms, hms, hp⟩
    have hne : indexesOf cwd pathExists ms ≠ [] := List.ne_nil_of_mem hp
    refine ⟨t, ⟨?_, hb⟩, ?_⟩ <;> rw [hget, hms, Option.some_bind, if_neg hne]
    · rfl
    · exact hp

end IndexTargetMap

/-- The indexes a sync hands to `copy_index`, less those whose worker raises on its
sidecar. -/
def copiedIndexes (w : World) (cwd : String) (buildableScipTargets : List String)
    (targetToOutput : Outputs) : List String :=
  readableIndexes w (indexToCopyOf (indexTargetMap cwd w.pathExists targetToOutput)
    (relevantIndex (indexTargetMap cwd w.pathExists targetToOutput) buildableScipTargets))

theorem mem_copiedIndexes {w : World} {cwd : String} {B : List String} {T : Outputs} {p : String} :
    p ∈ copiedIndexes w cwd B T ↔
      (∃ t ∈ B, ∃ ms, T.get? t = some ms ∧ p ∈ indexesOf cwd w.pathExists ms) ∧
        w.textError (p ++ sha256FileSuffix) = false := by
  rw [copiedIndexes, readableIndexes, List.mem_filter, mem_indexToCopyOf, Bool.not_eq_true']

/-! ## What a sync leaves -/

/-- With no targets there is nothing to select. -/
theorem getDependencyGraph_nil (fuel : Nat) (queryResult : List QueryRecord) (depth : Int)
    (excludeTargets : List String) :
    getDependencyGraph search fuel queryResult [] depth excludeTargets false = some [] := by
  simp [getDependencyGraph, filterListByRegex, unionDfs]

/-- A run with a non-empty `--filepath` is the file branch. -/
theorem main_file {fuel : Nat} {w : World} {args : Args} {dest : PyDict String Entry}
    {filepath : String} (h : args.filepath.filter (· != "") = some filepath) :
    main fuel w args dest = .returned (fileMode w args.cwd filepath dest) := by
  rw [main, h]

/-- A sync whose dependency graph `B` is not empty and whose outputs are `T` ends
as `syncIndexes` does. -/
theorem main_eq_syncIndexes {fuel : Nat} {w : World} {args : Args} {dest : PyDict String Entry}
    {B : List String} {T : Outputs} (hmode : args.filepath.filter (· != "") = none)
    (hB : getDependencyGraph search fuel w.queryResult (targetsAndExcludes w args).1 args.depth
      (targetsAndExcludes w args).2 false = some B) (hne : B ≠ [])
    (hT : getMnemonicOutput fuel w.cpuCount w.schedule w.actionGraph = .ok T) :
    main fuel w args dest = syncIndexes w args.cwd B T dest := by
  rcases hte : targetsAndExcludes w args with ⟨targets, excludes⟩
  rw [hte] at hB
  have htargets : targets ≠ [] := by
    rintro rfl
    rw [getDependencyGraph_nil] at hB
    exact hne (Option.some.inj hB).symm
  rw [main, hmode]
  dsimp only
  rw [hte]
  dsimp only
  rw [if_neg htargets, hB]
  dsimp only
  rw [if_neg hne, hT]

/-- A run that syncs the dependency graph `B` with outputs `T`: no file is given, the
masks are in the fragment, `B` is not empty, and the sources lists read. -/
structure Syncs (fuel : Nat) (w : World) (args : Args) (B : List String) (T : Outputs) : Prop where
  mode : args.filepath.filter (· != "") = none
  masks : MasksInFragment w args
  graph : getDependencyGraph search fuel w.queryResult (targetsAndExcludes w args).1 args.depth
    (targetsAndExcludes w args).2 false = some B
  nonempty : B ≠ []
  outputs : getMnemonicOutput fuel w.cpuCount w.schedule w.actionGraph = .ok T
  sources : SourcesReadable w args.cwd T

theorem Syncs.main_eq {fuel : Nat} {w : World} {args : Args} {B : List String} {T : Outputs}
    (hs : Syncs fuel w args B T) (dest : PyDict String Entry) :
    main fuel w args dest = syncIndexes w args.cwd B T dest :=
  main_eq_syncIndexes hs.mode hs.graph hs.nonempty hs.outputs

/-- From a cache where the invariant holds, the cache phase of a sync whose sources
lists read writes `workspace.json`, copies the indexes and returns. -/
theorem syncIndexes_eq {dest : PyDict String Entry} (hinv : CacheInv dest) {w : World}
    {cwd : String} (B : List String) {T : Outputs} (hsrc : SourcesReadable w cwd T) :
    ∃ d₁ d' ops, writeWorkspaceTo (populateWorkspace cwd w.textOf T) dest = some d₁ ∧
      copyIndex w.fileText w.order (copiedIndexes w cwd B T) d₁ = some (d', ops) ∧
      syncIndexes w cwd B T dest = .returned d' := by
  obtain ⟨d₁, hd₁⟩ := Option.isSome_iff_exists.mp
    (writeWorkspaceTo_isSome hinv (populateWorkspace cwd w.textOf T))
  obtain ⟨⟨d', ops⟩, hc⟩ := Option.isSome_iff_exists.mp (@copyIndex_isSome w.fileText w.order
    (copiedIndexes w cwd B T) d₁ (cacheInv_writeWorkspaceTo hinv hd₁))
  have hany : (sourcesListPaths cwd T).any w.textError = false :=
    List.any_eq_false.mpr fun p hp h => by rw [hsrc p hp] at h; cases h
  refine ⟨d₁, d', ops, hd₁, hc, ?_⟩
  rw [syncIndexes]
  dsimp only
  rw [hany, if_neg Bool.false_ne_true, hd₁]
  dsimp only
  rw [copiedIndexes] at hc
  rw [hc]

/-- A sync raises, before it writes anything, when a sources list it reads does not
read as text. -/
theorem syncIndexes_of_textError {w : World} {cwd : String} {B : List String} {T : Outputs}
    {dest : PyDict String Entry} (h : ¬ SourcesReadable w cwd T) :
    syncIndexes w cwd B T dest = .raised dest := by
  have hany : (sourcesListPaths cwd T).any w.textError = true := by
    by_contra hne
    exact h fun p hp => Bool.eq_false_iff.mpr fun he =>
      hne (List.any_eq_true.mpr ⟨p, hp, he⟩)
  rw [syncIndexes]
  dsimp only
  rw [if_pos hany]

/-- The index a sync copies sits under a name that ends in `.scip`, so it is not
`workspace.json`, and neither is its sidecar, nor is it the work directory. -/
theorem scip_names_ne {n : String} (h : endsWith n ".scip" = true) :
    n ≠ workspaceFileName ∧ n ++ sha256FileSuffix ≠ workspaceFileName ∧ n ≠ workDirName := by
  refine ⟨fun hn => ?_, sidecar_ne_workspaceFile n, fun hn => ?_⟩ <;> subst hn <;> revert h <;> decide

/-- Writing the workspace leaves every artifact as current as it was. -/
theorem current_writeWorkspaceTo {workspace : ScipWorkspace} {dest d₁ : PyDict String Entry}
    (h : writeWorkspaceTo workspace dest = some d₁) (artifactText : String → Option String)
    (a : String) : Current artifactText d₁ a ↔ Current artifactText dest a := by
  by_cases hscip : endsWith (scipIndexName a) ".scip" = true
  · obtain ⟨hws, hsws, -⟩ := scip_names_ne hscip
    exact current_congr (by rw [get?_writeWorkspaceTo h, if_neg hws])
      (by rw [get?_writeWorkspaceTo h, if_neg hsws])
  · exact ⟨fun hc => absurd hc.2.1 hscip, fun hc => absurd hc.2.1 hscip⟩

/-- A one-target workspace: the Java library //app:lib, whose index output
bazel-out/bin/lib.scip exists with its sidecar, and whose sources list names
src/A.java under the manifest bazel-out/bin/lib_options. Every file reads as text. -/
def libWorld : World :=
  let doc : ActionGraph := ⟨[⟨1, "bazel-out", none⟩, ⟨2, "bin", some 1⟩, ⟨3, "lib.scip", some 2⟩,
      ⟨4, "lib_options", some 2⟩, ⟨5, "lib_sources", some 2⟩],
    [⟨10, 3⟩, ⟨11, 4⟩, ⟨12, 5⟩],
    [⟨5, "scipMutation", [10]⟩, ⟨5, "TemplateExpand", [11]⟩,
      ⟨5, "scipFindUnpackedJavaSources", [12]⟩],
    [⟨5, "//app:lib"⟩]⟩
  ⟨[⟨"RULE", ⟨"//app:lib", "java_library", [], []⟩⟩], doc, doc.pathFragments.map (·, false), 8,
    fun p => if p = "/repo/bazel-out/bin/lib.scip" then some "index"
      else if p = "/repo/bazel-out/bin/lib.scip.sha256" then some "abc"
      else if p = "/repo/bazel-out/bin/lib_sources" then some "src/A.java\n" else none,
    fun _ => false, fun _ _ => some "file index", id, id, fun l => List.Perm.refl l⟩

/-- What the action graph of libWorld joins to. -/
def libOutputs : Outputs :=
  PyDict.empty.set "//app:lib" (((PyDict.empty.set "scipMutation" ["bazel-out/bin/lib.scip"]).set
    "TemplateExpand" ["bazel-out/bin/lib_options"]).set
      "scipFindUnpackedJavaSources" ["bazel-out/bin/lib_sources"])

/-- The sync of //app:lib in libWorld. -/
theorem syncs_lib : Syncs 3 libWorld ⟨"/repo", ["//app:lib"], none, 1⟩ ["//app:lib"] libOutputs :=
  ⟨rfl, by decide, by decide, by decide, rfl, by decide⟩

/-- The manifest of the last (target, manifest, files) triple of a sync that lists
`file`. -/
def lastManifest (cwd : String) (fileText : String → Option String) (targetToOutput : Outputs)
    (file : String) : Option String :=
  (((sourceTriples cwd fileText targetToOutput).filter fun tr => file ∈ tr.2.2).getLast?).map
    (·.2.1)

/-- `os.path.join` ends as its second part does. -/
theorem getLast?_pathJoin (a : String) {b : String} (hb : b.toList ≠ []) :
    (pathJoin a b).toList.getLast? = b.toList.getLast? := by
  obtain ⟨c, hc⟩ := Option.isSome_iff_exists.mp (List.getLast?_isSome.mpr hb)
  have hend : ∀ x : String, (x ++ b).toList.getLast? = b.toList.getLast? := fun x => by
    show (x.toList ++ b.toList).getLast? = _
    rw [List.getLast?_append, hc]
    rfl
  unfold pathJoin
  split_ifs
  · rfl
  · exact hend a
  · exact hend (a ++ "/")

/-- A path with a `/` in it is not empty. -/
theorem slash_ne_empty (a b : String) : a ++ "/" ++ b ≠ "" := fun h => by
  have hl := congrArg String.length h
  rw [String.length_append, String.length_append] at hl
  have : ("/" : String).length = 1 := rfl
  have : ("" : String).length = 0 := rfl
  omega

/-- A manifest of a triple is an `_options` file. -/
theorem endsWith_manifest {cwd : String} {fileText : String → Option String} {T : Outputs}
    {tr : String × String × List String} (h : tr ∈ sourceTriples cwd fileText T) :
    endsWith tr.2.1 "_options" = true := by
  obtain ⟨⟨target, ms⟩, -, h⟩ := List.mem_flatMap.mp h
  dsimp only at h
  split at h
  · cases h
  · unfold targetTriples at h
    dsimp only at h
    obtain ⟨⟨i, m⟩, hm, he⟩ := List.mem_filterMap.mp h
    obtain ⟨file, -, hfile⟩ := List.mem_filterMap.mp (List.snd_mem_of_mem_enum hm)
    have hopt : endsWith m "_options" = true := by
      obtain ⟨_, hp⟩ := Option.filter_eq_some.mp hfile
      exact hp
    split at he
    · obtain ⟨_, -, rfl⟩ := Option.map_eq_some'.mp he
      exact hopt
    · cases he

/-- The workspace a sync writes names, for each file, the manifest of the last
triple that lists it. -/
theorem getManifestForFile_populate (cwd : String) (fileText : String → Option String)
    (T : Outputs) (f : String) :
    getManifestForFile f (some (writeWorkspace (populateWorkspace cwd fileText T))) =
      some (lastManifest cwd fileText T f) := by
  rw [getManifestForFile, readWorkspace_writeWorkspace, Option.map_some']
  congr 1
  have hempty : IdsExact ScipWorkspace.empty := inv_empty.ids
  obtain ⟨-, hout, hlinks⟩ := foldl_addTriple_spec (sourceTriples cwd fileText T) hempty
  rw [populateWorkspace_eq_foldl, lastManifest]
  cases hlast : ((sourceTriples cwd fileText T).filter fun tr => f ∈ tr.2.2).getLast? with
  | none =>
    have hnone : ∀ tr ∈ sourceTriples cwd fileText T, f ∉ tr.2.2 := fun tr htr hf =>
      absurd hlast (Option.ne_none_iff_isSome.mpr (List.getLast?_isSome.mpr
        (List.ne_nil_of_mem (List.mem_filter.mpr ⟨htr, decide_eq_true hf⟩))))
    rw [hout f hnone]
    rfl
  | some tr =>
    obtain ⟨t, m, L⟩ := tr
    obtain ⟨fileLinks, hget, hT, hM⟩ := hlinks f t m L hlast
    have hne : fileLinks.entries ≠ [] := fun h => by
      rw [PyDict.entries_eq_nil_iff.mp h, Option.none_bind] at hT
      cases hT
    rw [hget]
    dsimp only
    rw [if_neg hne, hM]
    rfl

/-- The entries an index of a sync is copied to are never `workspace.json` when
the index outputs are `.scip` files. -/
theorem workspaceFile_not_mem_names {w : World} {cwd : String} {T : Outputs} {B : List String}
    (hscip : ∀ t ∈ B, ∀ ms, T.get? t = some ms → ∀ i ∈ ms.getD indexOutputMnemonic [],
      endsWith i ".scip" = true) :
    ∀ a ∈ copiedIndexes w cwd B T,
      workspaceFileName ∉ [scipIndexName a, scipIndexName a ++ sha256FileSuffix] := by
  intro a ha hmem
  obtain ⟨⟨t, hb, ms, hms, hpa⟩, -⟩ := mem_copiedIndexes.mp ha
  obtain ⟨i, hi, rfl⟩ := List.mem_map.mp (List.mem_filter.mp hpa).1
  have hlast : (pathJoin cwd i).toList.getLast? = some 'p' := by
    have hi' := hscip t hb ms hms i hi
    rw [getLast?_pathJoin cwd (fun h => by rw [endsWith, h] at hi'; exact absurd hi' (by decide)),
      getLast?_of_endsWith hi' (by decide)]
    rfl
  rcases List.mem_pair.mp hmem with h | h
  · exact scipIndexName_ne_workspaceFile hlast h.symm
  · exact sidecar_ne_workspaceFile _ h.symm

/-- A sync whose sources lists read and whose index outputs are `.scip` files leaves
`workspace.json` as `write_workspace` wrote it: `copy_index` copies nothing onto it
and spares it. -/
theorem main_sync_workspace {fuel : Nat} {w : World} {args : Args} {dest : PyDict String Entry}
    {B : List String} {T : Outputs} (hs : Syncs fuel w args B T) (hinv : CacheInv dest)
    (hscip : ∀ t ∈ B, ∀ ms, T.get? t = some ms → ∀ i ∈ ms.getD indexOutputMnemonic [],
      endsWith i ".scip" = true) :
    ∃ d', main fuel w args dest = .returned d' ∧
      d'.get? workspaceFileName =
        some (.file (writeWorkspace (populateWorkspace args.cwd w.textOf T))) := by
  obtain ⟨d₁, d', ops, hd₁, hc, hsync⟩ := syncIndexes_eq hinv B hs.sources
  refine ⟨d', by rw [hs.main_eq, hsync], ?_⟩
  rw [get?_copyIndex_spared w.order_perm hc (.inl rfl) (workspaceFile_not_mem_names hscip),
    get?_writeWorkspaceTo hd₁, if_pos rfl]

/-- A run for `cwd/f` on a cache whose `workspace.json` a sync over the outputs `T`
wrote re-indexes `f` with the manifest of the last target that lists it, and leaves
the cache as it was when no target lists it. -/
theorem main_file_of_workspace {cwd : String} {fileText : String → Option String} {T : Outputs}
    {d : PyDict String Entry}
    (hws : d.get? workspaceFileName = some (.file (writeWorkspace (populateWorkspace cwd fileText T))))
    (fuel : Nat) (w : World) (f : String) (hf : ¬ (cwd ++ "/").toList <:+: f.toList)
    (targets : List String) (depth : Int) :
    main fuel w ⟨cwd, targets, some (cwd ++ "/" ++ f), depth⟩ d =
      .returned (match lastManifest cwd fileText T f with
        | some manifest => reindexFile w cwd f manifest d
        | none => d) := by
  have hold : cwd ++ "/" ≠ "" := by simpa using slash_ne_empty cwd ""
  have hpath : (some (cwd ++ "/" ++ f)).filter (· != "") = some (cwd ++ "/" ++ f) := by
    simp [Option.filter, slash_ne_empty cwd f]
  rw [main_file hpath, fileMode, pyReplace_leading hold hf, getManifestForFileIn, hws]
  dsimp only
  rw [getManifestForFile_populate]
  cases hlast : lastManifest cwd fileText T f with
  | none => rfl
  | some manifest =>
    obtain ⟨tr, htr, rfl⟩ := Option.map_eq_some'.mp hlast
    have hm : tr.2.1 ≠ "" := fun h => by
      have := endsWith_manifest (List.mem_of_mem_filter (List.mem_of_getLast?_eq_some htr))
      rw [h] at this
      exact absurd this (by decide)
    dsimp only
    rw [if_neg hm]

/-- The index of a file is a `.scip` file. -/
theorem getLast?_indexFilePath (cwd file : String) :
    (indexFilePath cwd file).toList.getLast? = some 'p' := by
  have hend : ∀ x : String, (x ++ ".scip").toList.getLast? = some 'p' := fun x => by
    show (x.toList ++ ".scip".toList).getLast? = _
    rw [List.getLast?_append]
    rfl
  rw [indexFilePath, getLast?_pathJoin _ (fun h => by
    have := hend (⟨replaceChar '.' '_' (replaceChar '/' '_' file.toList)⟩)
    rw [h] at this
    cases this), hend]

/-- Re-indexing a file touches only the work directory and the file's index and
sidecar. -/
theorem get?_reindexFile (w : World) (cwd file manifest : String) (dest : PyDict String Entry)
    {n : String} (ht : n ≠ workDirName) (hN : n ≠ scipIndexName (indexFilePath cwd file))
    (hS : n ≠ scipIndexName (indexFilePath cwd file) ++ sha256FileSuffix) :
    (reindexFile w cwd file manifest dest).get? n = dest.get? n := by
  have hsafe : (safeCreateWorkDir dest).get? n = dest.get? n := by
    rw [get?_safeCreateWorkDir, if_neg fun h => ht h.1]
  unfold reindexFile indexFile
  dsimp only
  split_ifs
  · cases w.aggregate manifest file with
    | none => exact hsafe
    | some text =>
      rw [Option.map_some']
      dsimp only
      rw [get?_oldCopyIndex_of_ne _ _ [_] _ (by simpa using ⟨hN, hS⟩), hsafe]
  · exact hsafe

/-- A run for a file leaves every entry but the work directory and the file's index
and sidecar as it was. -/
theorem get?_fileMode (w : World) (cwd filepath : String) (dest : PyDict String Entry) {n : String}
    (ht : n ≠ workDirName)
    (hN : n ≠ scipIndexName (indexFilePath cwd (pyReplace filepath (cwd ++ "/") "")))
    (hS : n ≠ scipIndexName (indexFilePath cwd (pyReplace filepath (cwd ++ "/") "")) ++
      sha256FileSuffix) :
    (fileMode w cwd filepath dest).get? n = dest.get? n := by
  unfold fileMode
  dsimp only
  split
  · split_ifs
    · rfl
    · exact get?_reindexFile w cwd _ _ dest ht hN hS
  · rfl

theorem get?_fileMode_workspace (w : World) (cwd filepath : String) (dest : PyDict String Entry) :
    (fileMode w cwd filepath dest).get? workspaceFileName = dest.get? workspaceFileName :=
  get?_fileMode w cwd filepath dest (by decide)
    (fun h => scipIndexName_ne_workspaceFile (getLast?_indexFilePath _ _) h.symm)
    (sidecar_ne_workspaceFile _).symm

/-- **A run for a file touches only its own entries.** Every entry of the cache but
the work directory and the file's index and sidecar is left as it was; in
particular `workspace.json` is. -/
theorem fileMode_frame (w : World) (cwd filepath : String) (dest : PyDict String Entry) :
    let N := scipIndexName (indexFilePath cwd (pyReplace filepath (cwd ++ "/") ""))
    (∀ n, n ≠ workDirName → n ≠ N → n ≠ N ++ sha256FileSuffix →
      (fileMode w cwd filepath dest).get? n = dest.get? n) ∧
    (fileMode w cwd filepath dest).get? workspaceFileName = dest.get? workspaceFileName :=
  ⟨fun _ => get?_fileMode w cwd filepath dest, get?_fileMode_workspace w cwd filepath dest⟩

end ScipSync.Sync.Main
