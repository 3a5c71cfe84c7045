import ScipSync.Basic.Dict

/-! The action-graph document and the first stage of `_get_all_outputs`
(scip_utils.py): resolving every path fragment to its full path.

The document comes as four flat tables. `parent_lookup` and `fragment_labels`
index the fragments by id; then one worker per fragment walks the parent chain
(`while current_id:`), and the main thread stores each result in `path_dict`
in the order the workers complete. A worker that finds its id already stored
returns `None`. A `KeyError` raised by a worker surfaces in the main thread,
but only after the pool has waited for every worker, so a worker caught in a
parent cycle blocks the whole call.

The completion order is not fixed by the code: the model takes it as a
`schedule`, a list of (fragment, already stored) pairs, and `Schedulable` says
which schedules the pool can produce. The walk is bounded by `fuel`; running out
of it is the outcome `outOfFuel`. -/

namespace ScipSync.Action.Fragments
open ScipSync.Basic.Dict

/-- An entry of `pathFragments`. An absent `parentId` is `none`. -/
structure PathFragment where
  id : Nat
  label : String
  parentId : Option Nat
deriving Repr, DecidableEq

/-- An entry of `artifacts`. -/
structure Artifact where
  id : Nat
  pathFragmentId : Nat
deriving Repr, DecidableEq

/-- An entry of `actions`. -/
structure Action where
  targetId : Nat
  mnemonic : String
  outputIds : List Nat
deriving Repr, DecidableEq

/-- An entry of `targets`. -/
structure Target where
  id : Nat
  label : String
deriving Repr, DecidableEq

/-- The decoded action-graph document; an absent top-level array is empty. -/
structure ActionGraph where
  pathFragments : List PathFragment
  artifacts : List Artifact
  actions : List Action
  targets : List Target
deriving Repr, DecidableEq

/-- How `_get_all_outputs` can fail to return: a `KeyError` on an id, or a
worker that never finishes. -/
inductive JoinError where
  | keyError (key : Nat)
  | outOfFuel
deriving Repr, DecidableEq

/-- `parent_lookup`: `if parent_id:` keeps a parent only when it is present and
non-zero. -/
def parentLookup (pathFragments : List PathFragment) : PyDict Nat Nat :=
  pathFragments.foldl (fun parentLookup fragment =>
    match fragment.parentId with
    | some parentId => if parentId ≠ 0 then parentLookup.set fragment.id parentId else parentLookup
    | none => parentLookup) PyDict.empty

/-- `fragment_labels`. -/
def fragmentLabels (pathFragments : List PathFragment) : PyDict Nat String :=
  pathFragments.foldl (fun fragmentLabels fragment => fragmentLabels.set fragment.id fragment.label)
    PyDict.empty

/-- The `while current_id:` loop of `process_fragment`, at most `fuel` rounds:
the labels from `currentId` up its parent chain. `None` and `0` end the loop. -/
def collectParts (fragmentLabels : PyDict Nat String) (parentLookup : PyDict Nat Nat) :
    Nat → Option Nat → Except JoinError (List String)
  | _, none => .ok []
  | _, some 0 => .ok []
  | 0, some _ => .error .outOfFuel
  | fuel + 1, some currentId =>
    match fragmentLabels.get? currentId with
    | none => .error (.keyError currentId)
    | some label =>
      (label :: ·) <$> collectParts fragmentLabels parentLookup fuel (parentLookup.get? currentId)

section CollectParts
variable {fragmentLabels : PyDict Nat String} {parentLookup : PyDict Nat Nat} {fuel i : Nat}

@[simp] theorem collectParts_none :
    collectParts fragmentLabels parentLookup fuel none = .ok [] := by
  cases fuel <;> rfl

@[simp] theorem collectParts_some_zero :
    collectParts fragmentLabels parentLookup fuel (some 0) = .ok [] := by
  cases fuel <;> rfl

theorem collectParts_zero (hi : i ≠ 0) :
    collectParts fragmentLabels parentLookup 0 (some i) = .error .outOfFuel := by
  cases i with
  | zero => exact absurd rfl hi
  | succ i => rfl

theorem collectParts_succ (hi : i ≠ 0) :
    collectParts fragmentLabels parentLookup (fuel + 1) (some i) =
      match fragmentLabels.get? i with
      | none => .error (.keyError i)
      | some label => (label :: ·) <$>
          collectParts fragmentLabels parentLookup fuel (parentLookup.get? i) := by
  cases i with
  | zero => exact absurd rfl hi
  | succ i => rfl

/-- A fragment that is its own parent never leaves the loop. -/
theorem collectParts_self_parent (hi : i ≠ 0) (hl : (fragmentLabels.get? i).isSome)
    (hp : parentLookup.get? i = some i) :
    ∀ fuel, collectParts fragmentLabels parentLookup fuel (some i) = .error .outOfFuel
  | 0 => collectParts_zero hi
  | fuel + 1 => by
    obtain ⟨label, hlabel⟩ := Option.isSome_iff_exists.mp hl
    rw [collectParts_succ hi, hlabel, hp, collectParts_self_parent hi hl hp fuel]
    rfl

end CollectParts

/-- `process_fragment`; `present` is what the worker saw of `fragment_id in path_dict`. -/
def processFragment (fragmentLabels : PyDict Nat String) (parentLookup : PyDict Nat Nat)
    (fuel : Nat) (present : Bool) (fragment : PathFragment) :
    Except JoinError (Option (Nat × String)) :=
  if present then .ok none
  else do
    let pathParts ← collectParts fragmentLabels parentLookup fuel (some fragment.id)
    return some (fragment.id, "/".intercalate pathParts.reverse)

/-- A worker result that never arrived. -/
def Except.isOutOfFuel {α : Type} : Except JoinError α → Bool
  | .error .outOfFuel => true
  | _ => false

/-- The `as_completed` loop storing results in `path_dict`. The first error in
completion order is raised, unless a worker never finishes: the pool's shutdown
then waits forever. -/
def buildPathDict (fragmentLabels : PyDict Nat String) (parentLookup : PyDict Nat Nat)
    (fuel : Nat) (schedule : List (PathFragment × Bool)) : Except JoinError (PyDict Nat String) :=
  let results := schedule.map fun (fragment, present) =>
    processFragment fragmentLabels parentLookup fuel present fragment
  if results.any Except.isOutOfFuel then .error .outOfFuel
  else results.foldlM (fun pathDict result => do
    match ← result with
    | none => pure pathDict
    | some (fragmentId, path) => pure (pathDict.set fragmentId path)) PyDict.empty

/-- Along a completion order, a worker may find its id stored only when a
worker for the same id completed before it and computed the path. -/
def SkipsComputed : List (PathFragment × Bool) → List Nat → Prop
  | [], _ => True
  | (fragment, present) :: rest, computed =>
    (present = true → fragment.id ∈ computed) ∧
      SkipsComputed rest (if present then computed else fragment.id :: computed)

/-- A completion order of the fragment workers that the pool can produce. -/
def Schedulable (pathFragments : List PathFragment) (schedule : List (PathFragment × Bool)) :
    Prop :=
  (schedule.map Prod.fst).Perm pathFragments ∧ SkipsComputed schedule []

end ScipSync.Action.Fragments
