import ScipSync.Action.Fragments

/-! The rest of `_get_all_outputs` (scip_utils.py): the artifact and action
lookups, the batched join over the targets table and the cross-batch merge,
and `get_mnemonic_output`, which turns any exception into `{}`.

`process_target_batch` skips output ids that `artifact_dict` lacks, but reads
`path_dict[artifact_dict[oid]]` unguarded. Inside a batch a repeated target
label overwrites (`batch_results[target_label] = ...`); across batches the merge
concatenates. -/

namespace ScipSync.Action.Join
open ScipSync.Basic.Dict ScipSync.Action.Fragments

/-- The join's result: target label to mnemonic to output paths. -/
abbrev Outputs := PyDict String (PyDict String (List String))

/-- `artifact_dict`. -/
def artifactDict (artifacts : List Artifact) : PyDict Nat Nat :=
  artifacts.foldl (fun artifactDict artifact => artifactDict.set artifact.id artifact.pathFragmentId)
    PyDict.empty

/-- `target_output_dict`: target id to mnemonic to the output ids of its
actions, concatenated in table order. -/
def targetOutputDict (actions : List Action) : PyDict Nat (PyDict String (List Nat)) :=
  actions.foldl (fun targetOutputDict action =>
    let byMnemonic := targetOutputDict.getD action.targetId PyDict.empty
    targetOutputDict.set action.targetId
      (byMnemonic.set action.mnemonic (byMnemonic.getD action.mnemonic [] ++ action.outputIds)))
    PyDict.empty

/-- `d[k]` on an id-keyed dictionary. -/
def getItem {α : Type} (d : PyDict Nat α) (k : Nat) : Except JoinError α :=
  match d.get? k with
  | some v => .ok v
  | none => .error (.keyError k)

/-- The inner loop of `process_target_batch` over one target's mnemonics. -/
def targetResultsOf (artifactDict : PyDict Nat Nat) (pathDict : PyDict Nat String)
    (mnemonicToOutputIds : PyDict String (List Nat)) :
    Except JoinError (PyDict String (List String)) :=
  mnemonicToOutputIds.entries.foldlM (fun targetResults (mnemonic, outputIds) => do
    let validOutputIds := outputIds.filter fun oid => (artifactDict.get? oid).isSome
    let outputPaths ← validOutputIds.mapM fun oid => do getItem pathDict (← getItem artifactDict oid)
    return if outputPaths.isEmpty then targetResults else targetResults.set mnemonic outputPaths)
    PyDict.empty

/-- `process_target_batch`. -/
def processTargetBatch (targetOutputDict : PyDict Nat (PyDict String (List Nat)))
    (artifactDict : PyDict Nat Nat) (pathDict : PyDict Nat String) (targetBatch : List Target) :
    Except JoinError Outputs :=
  targetBatch.foldlM (fun batchResults target => do
    let targetResults ← targetResultsOf artifactDict pathDict
      (targetOutputDict.getD target.id PyDict.empty)
    return if targetResults.entries.isEmpty then batchResults
      else batchResults.set target.label targetResults) PyDict.empty

/-- `targets[i : i + batch_size] for i in range(0, len(targets), batch_size)`. -/
def targetBatches (batchSize : Nat) (targets : List Target) : List (List Target) :=
  (List.range ((targets.length + batchSize - 1) / batchSize)).map fun j =>
    (targets.drop (j * batchSize)).take batchSize

/-- The loop merging the batch results into `final_results`. -/
def mergeBatchResults (batchResults : List Outputs) : Outputs :=
  batchResults.foldl (fun finalResults batchResult =>
    batchResult.entries.foldl (fun finalResults (targetLabel, mnemonics) =>
      finalResults.set targetLabel (mnemonics.entries.foldl (fun merged (mnemonic, paths) =>
          merged.set mnemonic (merged.getD mnemonic [] ++ paths))
        (finalResults.getD targetLabel PyDict.empty))) finalResults) PyDict.empty

/-- The batched join: `process_target_batch` over the batches (`executor.map`
yields them in order and raises the first error), then the merge. -/
def batchedJoin (targetOutputDict : PyDict Nat (PyDict String (List Nat)))
    (artifactDict : PyDict Nat Nat) (pathDict : PyDict Nat String) (batchSize : Nat)
    (targets : List Target) : Except JoinError Outputs := do
  let batchResults ← (targetBatches batchSize targets).mapM
    (processTargetBatch targetOutputDict artifactDict pathDict)
  return mergeBatchResults batchResults

/-- `get_thread_pool_size`: half the CPUs, at least one. -/
def getThreadPoolSize (cpuCount : Nat) : Nat := max 1 (cpuCount / 2)

/-- `_get_all_outputs` on the decoded document, on a machine with `cpuCount`
CPUs, with the fragment workers completing in the order `schedule`. -/
def getAllOutputs (fuel cpuCount : Nat) (schedule : List (PathFragment × Bool))
    (data : ActionGraph) : Except JoinError Outputs := do
  let maxWorkers := getThreadPoolSize cpuCount
  let pathDict ← buildPathDict (fragmentLabels data.pathFragments)
    (parentLookup data.pathFragments) fuel schedule
  let batchSize := max 1 (data.targets.length / (maxWorkers * 2))
  batchedJoin (targetOutputDict data.actions) (artifactDict data.artifacts) pathDict batchSize
    data.targets

/-- Inside a batch a repeated label overwrites, across batches the merge
concatenates: with one label under two target ids the map depends on the batch
size, and through `get_thread_pool_size` on the CPU count. -/
theorem batchedJoin_repeated_label :
    let doc : ActionGraph := ⟨[⟨1, "x", none⟩, ⟨2, "y", none⟩], [⟨10, 1⟩, ⟨20, 2⟩],
      [⟨1, "m", [10]⟩, ⟨2, "m", [20]⟩], [⟨1, "//a"⟩, ⟨2, "//a"⟩, ⟨3, "//b"⟩, ⟨4, "//c"⟩]⟩
    let schedule := doc.pathFragments.map fun f => (f, false)
    let pathDict := (buildPathDict (fragmentLabels doc.pathFragments)
      (parentLookup doc.pathFragments) 1 schedule).toOption.getD PyDict.empty
    let paths := fun (r : Except JoinError Outputs) =>
      r.toOption.map fun r => (r.get? "//a").map (·.get? "m")
    paths (batchedJoin (targetOutputDict doc.actions) (artifactDict doc.artifacts) pathDict 1
        doc.targets) = some (some (some ["x", "y"])) ∧
      paths (batchedJoin (targetOutputDict doc.actions) (artifactDict doc.artifacts) pathDict 2
        doc.targets) = some (some (some ["y"])) ∧
      paths (getAllOutputs 1 4 schedule doc) = some (some (some ["x", "y"])) ∧
      paths (getAllOutputs 1 2 schedule doc) = some (some (some ["y"])) := by
  decide

/-- `get_mnemonic_output` after its `aquery`: an exception becomes `{}`. -/
def getMnemonicOutput (fuel cpuCount : Nat) (schedule : List (PathFragment × Bool))
    (data : ActionGraph) : Except JoinError Outputs :=
  match getAllOutputs fuel cpuCount schedule data with
  | .error (.keyError _) => .ok PyDict.empty
  | result => result

/-- A parent id that names no fragment makes `process_fragment` raise
`KeyError`, which `get_mnemonic_output` turns into `{}` for every target; a
fragment that is its own parent keeps its worker, and so the whole call,
running forever. -/
theorem getAllOutputs_unresolved_parent (fuel cpuCount : Nat) :
    let doc : ActionGraph := ⟨[⟨1, "a", some 2⟩, ⟨3, "b", none⟩], [⟨10, 1⟩, ⟨30, 3⟩],
      [⟨100, "m", [10]⟩, ⟨200, "m", [30]⟩], [⟨100, "//t"⟩, ⟨200, "//u"⟩]⟩
    let schedule := doc.pathFragments.map fun f => (f, false)
    let cyclic : ActionGraph := ⟨[⟨1, "a", some 1⟩], [], [], []⟩
    getAllOutputs (fuel + 2) cpuCount schedule doc = .error (.keyError 2) ∧
      getMnemonicOutput (fuel + 2) cpuCount schedule doc = .ok PyDict.empty ∧
      getAllOutputs fuel cpuCount [(⟨1, "a", some 1⟩, false)] cyclic = .error .outOfFuel := by
  have h := @collectParts_self_parent (fragmentLabels [⟨1, "a", some 1⟩])
    (parentLookup [⟨1, "a", some 1⟩]) 1 Nat.one_ne_zero rfl rfl fuel
  refine ⟨rfl, rfl, ?_⟩
  simp only [getAllOutputs, buildPathDict, List.map, processFragment, h]
  rfl

end ScipSync.Action.Join
