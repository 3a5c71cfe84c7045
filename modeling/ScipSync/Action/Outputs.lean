import ScipSync.Action.Join
import ScipSync.Action.PathResolution

/-! What `_get_all_outputs` returns on a well-formed document (`WellFormed`):
for every CPU count and every completion order of the fragment workers, the
label of each target maps each mnemonic to the paths of the known outputs of
its actions with that mnemonic, in table order, and nothing else is recorded.

The proof goes stage by stage: the lookup tables (`artifact_dict`,
`target_output_dict`), one target's results, one batch, the batches, and the
merge. On a well-formed document no stage raises, so each monadic loop is the
pure loop it wraps (`foldlM_ok`). -/

namespace ScipSync.Action.Outputs
open ScipSync.Basic.Dict ScipSync.Action.Fragments ScipSync.Action.Join
  ScipSync.Action.PathResolution

/-- The output ids of the actions of target `tid` with mnemonic `m`,
concatenated in table order. -/
def actionOutputs (actions : List Action) (tid : Nat) (m : String) : List Nat :=
  (actions.filter fun a => a.targetId = tid ∧ a.mnemonic = m).flatMap (·.outputIds)

/-- Those of them the artifacts table knows. -/
def knownOutputs (doc : ActionGraph) (t : Target) (m : String) : List Nat :=
  (actionOutputs doc.actions t.id m).filter fun o => o ∈ doc.artifacts.map (·.id)

/-- Output `o` is an artifact whose fragment has path `path`. -/
def OutputPath (doc : ActionGraph) (o : Nat) (path : String) : Prop :=
  ∃ a ∈ doc.artifacts, a.id = o ∧ FragmentPath doc a.pathFragmentId path

/-! ## Loops that do not raise -/

section Except
variable {α β ε : Type}

theorem foldlM_ok (g : β → α → β) {f : β → α → Except ε β} {l : List α}
    (h : ∀ b, ∀ x ∈ l, f b x = .ok (g b x)) (b : β) : l.foldlM f b = .ok (l.foldl g b) := by
  induction l generalizing b with
  | nil => rfl
  | cons x xs ih =>
    rw [List.foldlM_cons, h b x (List.mem_cons_self _ _)]
    exact ih (fun b y hy => h b y (List.mem_cons_of_mem _ hy)) _

theorem mapM_ok (g : α → β) {f : α → Except ε β} {l : List α}
    (h : ∀ x ∈ l, f x = .ok (g x)) : l.mapM f = .ok (l.map g) := by
  induction l with
  | nil => rfl
  | cons x xs ih =>
    rw [List.mapM_cons, h x (List.mem_cons_self _ _),
      ih fun y hy => h y (List.mem_cons_of_mem _ hy)]
    rfl

end Except

/-! ## The lookup tables -/

/-- `artifact_dict` is a loop that sets every id. -/
theorem artifactDict_eq (artifacts : List Artifact) : artifactDict artifacts =
    artifacts.foldl (PyDict.setSome (·.id) fun a => some a.pathFragmentId) PyDict.empty := rfl

theorem artifactDict_get?_of_mem {artifacts : List Artifact}
    (hnd : (artifacts.map (·.id)).Nodup) {a : Artifact} (ha : a ∈ artifacts) :
    (artifactDict artifacts).get? a.id = some a.pathFragmentId := by
  rw [artifactDict_eq, PyDict.get?_foldl_setSome_of_mem _ _ hnd ha]; rfl

theorem exists_of_artifactDict_get? {artifacts : List Artifact} {o f : Nat}
    (h : (artifactDict artifacts).get? o = some f) :
    ∃ a ∈ artifacts, a.id = o ∧ a.pathFragmentId = f := by
  rw [artifactDict_eq] at h
  rcases PyDict.exists_of_get?_foldl_setSome _ _ _ h with h | ⟨a, ha, hi, hf⟩
  · cases h
  · exact ⟨a, ha, hi, Option.some.inj hf⟩

theorem artifactDict_isSome {artifacts : List Artifact} (hnd : (artifacts.map (·.id)).Nodup)
    {o : Nat} : ((artifactDict artifacts).get? o).isSome ↔ o ∈ artifacts.map (·.id) := by
  constructor
  · intro h
    obtain ⟨f, hf⟩ := Option.isSome_iff_exists.mp h
    obtain ⟨a, ha, rfl, -⟩ := exists_of_artifactDict_get? hf
    exact List.mem_map_of_mem _ ha
  · intro h
    obtain ⟨a, ha, rfl⟩ := List.mem_map.mp h
    simp [artifactDict_get?_of_mem hnd ha]

theorem actionOutputs_append_singleton (actions : List Action) (a : Action) (tid : Nat)
    (m : String) : actionOutputs (actions ++ [a]) tid m =
      actionOutputs actions tid m ++ if a.targetId = tid ∧ a.mnemonic = m then a.outputIds else [] := by
  by_cases h : a.targetId = tid ∧ a.mnemonic = m <;> simp [actionOutputs, List.filter_append, h]

theorem actionOutputs_eq_nil {actions : List Action} {tid : Nat} {m : String}
    (h : ¬ ∃ a ∈ actions, a.targetId = tid ∧ a.mnemonic = m) : actionOutputs actions tid m = [] := by
  rw [actionOutputs, List.flatMap_eq_nil_iff]
  intro a ha
  simp only [List.mem_filter, decide_eq_true_eq] at ha
  exact absurd ⟨a, ha⟩ h

/-- `target_output_dict` groups the output ids by target and mnemonic. -/
theorem targetOutputDict_get? (actions : List Action) (tid : Nat) (m : String) :
    ((targetOutputDict actions).getD tid PyDict.empty).get? m =
      if ∃ a ∈ actions, a.targetId = tid ∧ a.mnemonic = m
      then some (actionOutputs actions tid m) else none := by
  induction actions using List.reverseRecOn with
  | nil => rfl
  | append_singleton actions a ih =>
    have hex : (∃ b ∈ actions ++ [a], b.targetId = tid ∧ b.mnemonic = m) ↔
        (∃ b ∈ actions, b.targetId = tid ∧ b.mnemonic = m) ∨ (a.targetId = tid ∧ a.mnemonic = m) := by
      simp only [List.mem_append, List.mem_singleton, or_and_right, exists_or, exists_eq_left]
    simp only [targetOutputDict, List.foldl_append, List.foldl_cons, List.foldl_nil] at ih ⊢
    rw [actionOutputs_append_singleton, PyDict.getD_set]
    by_cases ha : a.targetId = tid ∧ a.mnemonic = m
    · obtain ⟨rfl, rfl⟩ := ha
      rw [if_pos rfl, PyDict.get?_set, if_pos rfl, if_pos (hex.mpr (.inr ⟨rfl, rfl⟩)),
        if_pos ⟨rfl, rfl⟩]
      unfold PyDict.getD at ih ⊢
      rw [ih]
      split_ifs with h
      · rfl
      · rw [actionOutputs_eq_nil h]; rfl
    · simp only [hex, ha, or_false, if_false, List.append_nil]
      rw [← ih]
      by_cases ht : tid = a.targetId
      · subst ht
        rw [if_pos rfl, PyDict.get?_set, if_neg (fun hm => ha ⟨rfl, hm.symm⟩)]
      · rw [if_neg ht]

/-- On a well-formed document the grouped ids of a target are its actions' outputs. -/
theorem targetOutputDict_getD (actions : List Action) (tid : Nat) (m : String) :
    ((targetOutputDict actions).getD tid PyDict.empty).getD m [] = actionOutputs actions tid m := by
  show ((((targetOutputDict actions).getD tid PyDict.empty).get? m).getD []) = _
  rw [targetOutputDict_get?]
  split_ifs with h
  · rfl
  · exact (actionOutputs_eq_nil h).symm

/-! ## One target, one batch

Where no lookup raises, `process_target_batch` is a pure loop that sets a key
for every non-empty result. -/

/-- `path_dict[artifact_dict[oid]]`, read where both lookups succeed. -/
def resolvePath (ad : PyDict Nat Nat) (pd : PyDict Nat String) (oid : Nat) : String :=
  ((ad.get? oid).bind pd.get?).getD ""

/-- The paths recorded for `outputIds` when no lookup raises. -/
def pathsOf (ad : PyDict Nat Nat) (pd : PyDict Nat String) (outputIds : List Nat) :
    List String :=
  (outputIds.filter fun oid => (ad.get? oid).isSome).map (resolvePath ad pd)

/-- The mnemonic loop of `process_target_batch` when no lookup raises. -/
def targetResultsPure (ad : PyDict Nat Nat) (pd : PyDict Nat String)
    (mnemonicToOutputIds : PyDict String (List Nat)) : PyDict String (List String) :=
  mnemonicToOutputIds.entries.foldl (PyDict.setSome Prod.fst fun e =>
    if (pathsOf ad pd e.2).isEmpty then none else some (pathsOf ad pd e.2)) PyDict.empty

/-- `process_target_batch` when no lookup raises. -/
def processTargetBatchPure (tod : PyDict Nat (PyDict String (List Nat))) (ad : PyDict Nat Nat)
    (pd : PyDict Nat String) (targetBatch : List Target) : Outputs :=
  targetBatch.foldl (PyDict.setSome (·.label) fun t =>
    if (targetResultsPure ad pd (tod.getD t.id PyDict.empty)).entries.isEmpty then none
    else some (targetResultsPure ad pd (tod.getD t.id PyDict.empty))) PyDict.empty

section Resolved
variable {ad : PyDict Nat Nat} {pd : PyDict Nat String}
  (hres : ∀ oid f, ad.get? oid = some f → (pd.get? f).isSome)
include hres

theorem lookup_ok {oid : Nat} (h : (ad.get? oid).isSome) :
    (do getItem pd (← getItem ad oid) : Except JoinError String) = .ok (resolvePath ad pd oid) := by
  obtain ⟨f, hf⟩ := Option.isSome_iff_exists.mp h
  obtain ⟨p, hp⟩ := Option.isSome_iff_exists.mp (hres oid f hf)
  simp [getItem, hf, hp, resolvePath, bind, Except.bind]

theorem targetResultsOf_eq (mnemonicToOutputIds : PyDict String (List Nat)) :
    targetResultsOf ad pd mnemonicToOutputIds = .ok (targetResultsPure ad pd mnemonicToOutputIds) := by
  refine foldlM_ok _ (fun acc ⟨m, ids⟩ _ => ?_) _
  dsimp only
  rw [mapM_ok (resolvePath ad pd) fun oid hoid => lookup_ok hres (List.mem_filter.mp hoid).2]
  exact (congrArg Except.ok (PyDict.setSome_ite Prod.fst (fun e => (pathsOf ad pd e.2).isEmpty)
    (fun e => pathsOf ad pd e.2) acc (m, ids))).symm

theorem processTargetBatch_eq (tod : PyDict Nat (PyDict String (List Nat)))
    (targetBatch : List Target) :
    processTargetBatch tod ad pd targetBatch = .ok (processTargetBatchPure tod ad pd targetBatch) := by
  refine foldlM_ok _ (fun acc t _ => ?_) _
  rw [targetResultsOf_eq hres]
  exact (congrArg Except.ok (PyDict.setSome_ite (fun t : Target => t.label)
    (fun t => (targetResultsPure ad pd (tod.getD t.id PyDict.empty)).entries.isEmpty)
    (fun t => targetResultsPure ad pd (tod.getD t.id PyDict.empty)) acc t)).symm

/-- The batched join does not raise when every known artifact's fragment has a path. -/
theorem batchedJoin_eq (tod : PyDict Nat (PyDict String (List Nat))) (batchSize : Nat)
    (targets : List Target) :
    batchedJoin tod ad pd batchSize targets =
      .ok (mergeBatchResults ((targetBatches batchSize targets).map
        (processTargetBatchPure tod ad pd))) := by
  rw [batchedJoin, mapM_ok _ fun b _ => processTargetBatch_eq hres tod b]
  rfl

end Resolved

section Pure
variable {ad : PyDict Nat Nat} {pd : PyDict Nat String}

theorem targetResultsPure_get? (mnemonicToOutputIds : PyDict String (List Nat)) (m : String) :
    (targetResultsPure ad pd mnemonicToOutputIds).get? m =
      if (pathsOf ad pd (mnemonicToOutputIds.getD m [])).isEmpty then none
      else some (pathsOf ad pd (mnemonicToOutputIds.getD m [])) := by
  cases hm : mnemonicToOutputIds.get? m with
  | none =>
    have hk : m ∉ mnemonicToOutputIds.keys := by
      rw [PyDict.mem_keys_iff, hm]; exact Bool.false_ne_true
    rw [targetResultsPure, PyDict.get?_foldl_setSome_of_not_mem _ _ hk, PyDict.getD, hm]
    rfl
  | some ids =>
    refine (PyDict.get?_foldl_setSome_of_mem Prod.fst _ mnemonicToOutputIds.nodup
      (PyDict.mem_entries_of_get? hm) _).trans ?_
    simp only [PyDict.getD, hm, Option.getD_some, PyDict.get?_empty, Option.or_none]

theorem targetResultsPure_entries_eq_nil (mnemonicToOutputIds : PyDict String (List Nat)) :
    (targetResultsPure ad pd mnemonicToOutputIds).entries = [] ↔
      ∀ m, pathsOf ad pd (mnemonicToOutputIds.getD m []) = [] := by
  simp only [PyDict.entries_eq_nil_iff, targetResultsPure_get?]
  refine forall_congr' fun m => ?_
  split_ifs with h <;> simp_all

theorem processTargetBatchPure_get?_of_mem (tod : PyDict Nat (PyDict String (List Nat)))
    {targetBatch : List Target} (hnd : (targetBatch.map (·.label)).Nodup) {t : Target}
    (ht : t ∈ targetBatch) :
    (processTargetBatchPure tod ad pd targetBatch).get? t.label =
      if (targetResultsPure ad pd (tod.getD t.id PyDict.empty)).entries.isEmpty then none
      else some (targetResultsPure ad pd (tod.getD t.id PyDict.empty)) := by
  rw [processTargetBatchPure, PyDict.get?_foldl_setSome_of_mem _ _ hnd ht, PyDict.get?_empty,
    Option.or_none]

theorem exists_of_processTargetBatchPure_get? {tod : PyDict Nat (PyDict String (List Nat))}
    {targetBatch : List Target} {l : String} {results : PyDict String (List String)}
    (h : (processTargetBatchPure tod ad pd targetBatch).get? l = some results) :
    ∃ t ∈ targetBatch, t.label = l ∧
      results = targetResultsPure ad pd (tod.getD t.id PyDict.empty) ∧ results.entries ≠ [] := by
  rcases PyDict.exists_of_get?_foldl_setSome _ _ _ h with h | ⟨t, ht, hl, hr⟩
  · cases h
  · refine ⟨t, ht, hl, ?_⟩
    split_ifs at hr with he
    cases hr
    exact ⟨rfl, fun h => he (by simp [h])⟩

end Pure

/-! ## The batches and the merge -/

theorem flatten_range_map_drop_take (batchSize : Nat) (targets : List Target) :
    ∀ k, ((List.range k).map fun j => (targets.drop (j * batchSize)).take batchSize).flatten =
      targets.take (k * batchSize)
  | 0 => by simp
  | k + 1 => by
    rw [List.range_succ, List.map_append, List.flatten_append,
      flatten_range_map_drop_take batchSize targets k, Nat.succ_mul, List.take_add]
    simp

/-- The batches partition the targets table, in order. -/
theorem flatten_targetBatches {batchSize : Nat} (hb : 0 < batchSize) (targets : List Target) :
    (targetBatches batchSize targets).flatten = targets := by
  rw [targetBatches, flatten_range_map_drop_take, List.take_of_length_le]
  have h1 := Nat.div_add_mod (targets.length + batchSize - 1) batchSize
  have h2 := Nat.mod_lt (targets.length + batchSize - 1) hb
  rw [Nat.mul_comm]
  omega

/-- With distinct labels, no label is in two batches. -/
theorem targetBatches_labels_disjoint {batchSize : Nat} (hb : 0 < batchSize)
    {targets : List Target} (hnd : (targets.map (·.label)).Nodup) :
    (targetBatches batchSize targets).Pairwise fun b b' =>
      ∀ t ∈ b, ∀ t' ∈ b', t.label ≠ t'.label := by
  have h := List.nodup_flatten.mp (by rwa [← List.map_flatten, flatten_targetBatches hb])
  exact (List.pairwise_map.mp h.2).imp fun hd t ht t' ht' heq =>
    hd (List.mem_map_of_mem _ ht) (heq ▸ List.mem_map_of_mem _ ht')

theorem targetBatch_labels_nodup {batchSize : Nat} (hb : 0 < batchSize) {targets : List Target}
    (hnd : (targets.map (·.label)).Nodup) {b : List Target}
    (hmem : b ∈ targetBatches batchSize targets) : (b.map (·.label)).Nodup :=
  hnd.sublist ((flatten_targetBatches hb targets ▸ List.sublist_flatten_of_mem hmem).map _)

theorem mem_targets_of_mem_batch {batchSize : Nat} (hb : 0 < batchSize) {targets : List Target}
    {b : List Target} (hmem : b ∈ targetBatches batchSize targets) {t : Target} (ht : t ∈ b) :
    t ∈ targets :=
  flatten_targetBatches hb targets ▸ List.mem_flatten.mpr ⟨b, hmem, ht⟩

/-- Merging one batch's mnemonics into what the earlier batches left for its label. -/
def mergeMnemonics (old : Option (PyDict String (List String)))
    (mnemonics : PyDict String (List String)) : PyDict String (List String) :=
  mnemonics.entries.foldl (PyDict.modify fun old paths => old.getD [] ++ paths)
    (old.getD PyDict.empty)

/-- Merging one batch's results. -/
def mergeBatch (finalResults batchResult : Outputs) : Outputs :=
  batchResult.entries.foldl (PyDict.modify mergeMnemonics) finalResults

theorem mergeBatchResults_eq (batchResults : List Outputs) :
    mergeBatchResults batchResults = batchResults.foldl mergeBatch PyDict.empty := rfl

theorem mergeBatch_get?_of_some {batchResult : Outputs} {l : String}
    {mnemonics : PyDict String (List String)} (h : batchResult.get? l = some mnemonics)
    (finalResults : Outputs) :
    (mergeBatch finalResults batchResult).get? l =
      some (mergeMnemonics (finalResults.get? l) mnemonics) := by
  rw [mergeBatch, PyDict.get?_foldl_modify _ batchResult.nodup,
    show PyDict.lookupEntry l batchResult.entries = some mnemonics from h]

theorem mergeBatch_get?_of_none {batchResult : Outputs} {l : String}
    (h : batchResult.get? l = none) (finalResults : Outputs) :
    (mergeBatch finalResults batchResult).get? l = finalResults.get? l := by
  rw [mergeBatch, PyDict.get?_foldl_modify _ batchResult.nodup,
    show PyDict.lookupEntry l batchResult.entries = none from h]

/-- A label's first merge copies its mnemonics. -/
theorem mergeMnemonics_none_get? (mnemonics : PyDict String (List String)) (m : String) :
    (mergeMnemonics none mnemonics).get? m = mnemonics.get? m := by
  rw [mergeMnemonics, PyDict.get?_foldl_modify _ mnemonics.nodup]
  show _ = PyDict.lookupEntry m mnemonics.entries
  cases PyDict.lookupEntry m mnemonics.entries <;> simp

theorem foldl_mergeBatch_get?_of_forall {batchResults : List Outputs} {l : String}
    (h : ∀ B ∈ batchResults, B.get? l = none) (finalResults : Outputs) :
    (batchResults.foldl mergeBatch finalResults).get? l = finalResults.get? l := by
  induction batchResults generalizing finalResults with
  | nil => rfl
  | cons B rest ih =>
    rw [List.foldl_cons, ih fun B' hB' => h B' (List.mem_cons_of_mem _ hB'),
      mergeBatch_get?_of_none (h B (List.mem_cons_self _ _))]

/-- A label that only one batch holds gets that batch's mnemonics. -/
theorem foldl_mergeBatch_get?_of_mem {batchResults : List Outputs}
    (hdisj : batchResults.Pairwise fun B B' => ∀ l, B.get? l = none ∨ B'.get? l = none)
    {B : Outputs} (hB : B ∈ batchResults) {l : String} {mnemonics : PyDict String (List String)}
    (h : B.get? l = some mnemonics) (finalResults : Outputs) :
    (batchResults.foldl mergeBatch finalResults).get? l =
      some (mergeMnemonics (finalResults.get? l) mnemonics) := by
  induction batchResults generalizing finalResults with
  | nil => cases hB
  | cons B' rest ih =>
    rw [List.pairwise_cons] at hdisj
    rw [List.foldl_cons]
    rcases List.mem_cons.mp hB with rfl | hB
    · rw [foldl_mergeBatch_get?_of_forall
        (fun B'' hB'' => (hdisj.1 B'' hB'' l).resolve_left (by simp [h])), mergeBatch_get?_of_some h]
    · have hB' : B'.get? l = none := (hdisj.1 B hB l).resolve_right (by simp [h])
      rw [ih hdisj.2 hB, mergeBatch_get?_of_none hB']

/-! ## The batched join -/

section Batched
variable {tod : PyDict Nat (PyDict String (List Nat))} {ad : PyDict Nat Nat}
  {pd : PyDict Nat String} {batchSize : Nat} {targets : List Target}
  (hb : 0 < batchSize) (hnd : (targets.map (·.label)).Nodup)
include hb hnd

theorem batchResults_disjoint :
    ((targetBatches batchSize targets).map (processTargetBatchPure tod ad pd)).Pairwise
      fun B B' => ∀ l, B.get? l = none ∨ B'.get? l = none := by
  refine List.pairwise_map.mpr ((targetBatches_labels_disjoint hb hnd).imp fun hd l => ?_)
  cases h : (processTargetBatchPure tod ad pd _).get? l with
  | none => exact .inl rfl
  | some _ =>
    refine .inr (Option.eq_none_iff_forall_not_mem.mpr fun _ h' => ?_)
    obtain ⟨t, ht, rfl, -⟩ := exists_of_processTargetBatchPure_get? h
    obtain ⟨t', ht', hl, -⟩ := exists_of_processTargetBatchPure_get? h'
    exact hd t ht t' ht' hl.symm

/-- The batched join stores under a target's label the results of that target
alone. -/
theorem mergeBatchResults_get?_label {t : Target} (ht : t ∈ targets) :
    (mergeBatchResults ((targetBatches batchSize targets).map
        (processTargetBatchPure tod ad pd))).get? t.label =
      if (targetResultsPure ad pd (tod.getD t.id PyDict.empty)).entries.isEmpty then none
      else some (mergeMnemonics none (targetResultsPure ad pd (tod.getD t.id PyDict.empty))) := by
  obtain ⟨b, hbmem, htb⟩ := List.mem_flatten.mp ((flatten_targetBatches hb targets).symm ▸ ht)
  have hbt := @processTargetBatchPure_get?_of_mem ad pd tod b
    (targetBatch_labels_nodup hb hnd hbmem) t htb
  rw [mergeBatchResults_eq]
  split_ifs with he
  · refine foldl_mergeBatch_get?_of_forall (fun B hB => ?_) _
    obtain ⟨b', hb', rfl⟩ := List.mem_map.mp hB
    cases h : (processTargetBatchPure tod ad pd b').get? t.label with
    | none => rfl
    | some _ =>
      obtain ⟨t', ht', hl, rfl, hne⟩ := exists_of_processTargetBatchPure_get? h
      obtain rfl := List.inj_on_of_nodup_map hnd (mem_targets_of_mem_batch hb hb' ht') ht hl
      exact absurd (List.isEmpty_iff.mp he) hne
  · rw [if_neg he] at hbt
    exact foldl_mergeBatch_get?_of_mem (batchResults_disjoint hb hnd) (List.mem_map_of_mem _ hbmem)
      hbt _

theorem mergeBatchResults_get?_isSome (l : String) :
    ((mergeBatchResults ((targetBatches batchSize targets).map
        (processTargetBatchPure tod ad pd))).get? l).isSome ↔
      ∃ t ∈ targets, t.label = l ∧
        (targetResultsPure ad pd (tod.getD t.id PyDict.empty)).entries ≠ [] := by
  constructor
  · intro h
    rw [mergeBatchResults_eq] at h
    by_cases hall : ∀ B ∈ (targetBatches batchSize targets).map (processTargetBatchPure tod ad pd),
        B.get? l = none
    · rw [foldl_mergeBatch_get?_of_forall hall] at h; cases h
    · push_neg at hall
      obtain ⟨B, hB, hBl⟩ := hall
      obtain ⟨b, hbmem, rfl⟩ := List.mem_map.mp hB
      obtain ⟨R, hR⟩ := Option.ne_none_iff_exists'.mp hBl
      obtain ⟨t, ht, rfl, rfl, hne⟩ := exists_of_processTargetBatchPure_get? hR
      exact ⟨t, mem_targets_of_mem_batch hb hbmem ht, rfl, hne⟩
  · rintro ⟨t, ht, rfl, hne⟩
    rw [mergeBatchResults_get?_label hb hnd ht, if_neg (mt List.isEmpty_iff.mp hne)]
    rfl

/-- Batching and merging change nothing when labels are distinct: each target's
label holds exactly its own results. -/
theorem mergeBatchResults_get?_mnemonic {t : Target} (ht : t ∈ targets) (m : String) :
    ((mergeBatchResults ((targetBatches batchSize targets).map
        (processTargetBatchPure tod ad pd))).get? t.label).bind (·.get? m) =
      (targetResultsPure ad pd (tod.getD t.id PyDict.empty)).get? m := by
  rw [mergeBatchResults_get?_label hb hnd ht]
  split_ifs with he
  · exact (PyDict.entries_eq_nil_iff.mp (List.isEmpty_iff.mp he) m).symm
  · exact mergeMnemonics_none_get? _ m

end Batched

/-! ## The document -/

section Document
variable {doc : ActionGraph} (hwf : WellFormed doc) {pd : PyDict Nat String}
include hwf

theorem pathsOf_eq_knownOutputs (t : Target) (m : String) :
    pathsOf (artifactDict doc.artifacts) pd
        (((targetOutputDict doc.actions).getD t.id PyDict.empty).getD m []) =
      (knownOutputs doc t m).map (resolvePath (artifactDict doc.artifacts) pd) := by
  rw [targetOutputDict_getD, pathsOf, knownOutputs]
  congr 1
  exact List.filter_congr fun o _ => by
    rw [Bool.eq_iff_iff, artifactDict_isSome hwf.artifactIds, decide_eq_true_iff]

theorem targetResults_entries_ne_nil (t : Target) :
    (targetResultsPure (artifactDict doc.artifacts) pd
        ((targetOutputDict doc.actions).getD t.id PyDict.empty)).entries ≠ [] ↔
      ∃ m, knownOutputs doc t m ≠ [] := by
  rw [Ne, targetResultsPure_entries_eq_nil]
  simp only [pathsOf_eq_knownOutputs hwf, List.map_eq_nil_iff, not_forall]

variable (hpd : ∀ i, ((pd.get? i).isSome ↔ i ∈ doc.pathFragments.map (·.id)) ∧
  ∀ p, pd.get? i = some p → FragmentPath doc i p)
include hpd

/-- Every artifact's fragment has a path, so no lookup of the join raises. -/
theorem resolves_of_pathDict :
    ∀ oid f, (artifactDict doc.artifacts).get? oid = some f → (pd.get? f).isSome := by
  intro oid f h
  obtain ⟨a, ha, -, rfl⟩ := exists_of_artifactDict_get? h
  exact (hpd _).1.mpr (hwf.artifactMem a ha)

theorem outputPath_resolvePath {t : Target} {m : String} {o : Nat}
    (ho : o ∈ knownOutputs doc t m) : OutputPath doc o (resolvePath (artifactDict doc.artifacts) pd o) := by
  obtain ⟨a, ha, rfl⟩ := List.mem_map.mp (of_decide_eq_true (List.mem_filter.mp ho).2)
  obtain ⟨p, hp⟩ := Option.isSome_iff_exists.mp ((hpd _).1.mpr (hwf.artifactMem a ha))
  refine ⟨a, ha, rfl, ?_⟩
  rw [resolvePath, artifactDict_get?_of_mem hwf.artifactIds ha, Option.some_bind, hp]
  exact (hpd _).2 p hp

end Document

theorem getAllOutputs_of_buildPathDict {fuel cpuCount : Nat} {schedule : List (PathFragment × Bool)}
    {doc : ActionGraph} {pathDict : PyDict Nat String}
    (h : buildPathDict (fragmentLabels doc.pathFragments) (parentLookup doc.pathFragments) fuel
      schedule = .ok pathDict) :
    getAllOutputs fuel cpuCount schedule doc =
      batchedJoin (targetOutputDict doc.actions) (artifactDict doc.artifacts) pathDict
        (max 1 (doc.targets.length / (getThreadPoolSize cpuCount * 2))) doc.targets := by
  simp only [getAllOutputs, h]
  rfl

theorem exists_buildPathDict_of_getAllOutputs {fuel cpuCount : Nat}
    {schedule : List (PathFragment × Bool)} {doc : ActionGraph} {r : Outputs}
    (h : getAllOutputs fuel cpuCount schedule doc = .ok r) :
    ∃ pathDict, buildPathDict (fragmentLabels doc.pathFragments) (parentLookup doc.pathFragments)
      fuel schedule = .ok pathDict ∧
      batchedJoin (targetOutputDict doc.actions) (artifactDict doc.artifacts) pathDict
        (max 1 (doc.targets.length / (getThreadPoolSize cpuCount * 2))) doc.targets = .ok r := by
  cases hp : buildPathDict (fragmentLabels doc.pathFragments) (parentLookup doc.pathFragments)
      fuel schedule with
  | error e => simp only [getAllOutputs, hp] at h; cases h
  | ok pathDict => exact ⟨pathDict, rfl, (getAllOutputs_of_buildPathDict hp).symm.trans h⟩

/-- On a well-formed document, for every CPU count and every completion order
of the fragment workers, `_get_all_outputs` returns, and what it returns maps
the label of each target with a non-empty list to the paths of its known
outputs per mnemonic, in table order. -/
theorem getAllOutputs_spec {doc : ActionGraph} (hwf : WellFormed doc)
    {schedule : List (PathFragment × Bool)} (hs : Schedulable doc.pathFragments schedule)
    (cpuCount : Nat) :
    (∃ fuel r, getAllOutputs fuel cpuCount schedule doc = .ok r) ∧
    ∀ fuel r, getAllOutputs fuel cpuCount schedule doc = .ok r →
      (∀ l, (r.get? l).isSome ↔
        ∃ t ∈ doc.targets, t.label = l ∧ ∃ m, knownOutputs doc t m ≠ []) ∧
      ∀ t ∈ doc.targets, ∀ m,
        match (r.get? t.label).bind (·.get? m) with
        | none => knownOutputs doc t m = []
        | some paths => knownOutputs doc t m ≠ [] ∧
            List.Forall₂ (OutputPath doc) (knownOutputs doc t m) paths := by
  have hb : ∀ n, 0 < max 1 n := fun n => lt_max_of_lt_left Nat.one_pos
  constructor
  · obtain ⟨pd, hpd⟩ := buildPathDict_isOk hwf hs (Nat.lt_succ_self _)
    exact ⟨_, _, (getAllOutputs_of_buildPathDict hpd).trans
      (batchedJoin_eq (resolves_of_pathDict hwf (buildPathDict_spec hwf hs hpd)) _ _ _)⟩
  · intro fuel r h
    obtain ⟨pd, hpd, hj⟩ := exists_buildPathDict_of_getAllOutputs h
    have hspec := buildPathDict_spec hwf hs hpd
    rw [batchedJoin_eq (resolves_of_pathDict hwf hspec)] at hj
    cases hj
    refine ⟨fun l => ?_, fun t ht m => ?_⟩
    · rw [mergeBatchResults_get?_isSome (hb _) hwf.targetLabels]
      simp only [targetResults_entries_ne_nil hwf]
    · rw [mergeBatchResults_get?_mnemonic (hb _) hwf.targetLabels ht, targetResultsPure_get?,
        pathsOf_eq_knownOutputs hwf]
      split_ifs with he
      · simpa using he
      · refine ⟨fun h => he (by simp [h]), ?_⟩
        exact List.forall₂_map_right_iff.mpr
          (List.forall₂_same.mpr fun o ho => outputPath_resolvePath hwf hspec ho)

theorem getAllOutputs_spec_sample :
    let doc : ActionGraph := ⟨[⟨1, "src", none⟩, ⟨2, "Main.java", some 1⟩], [⟨10, 2⟩],
      [⟨5, "Javac", [10, 99]⟩], [⟨5, "//app:main"⟩]⟩
    let schedule := doc.pathFragments.map fun f => (f, false)
    WellFormed doc ∧ Schedulable doc.pathFragments schedule ∧
      ∃ fuel r, getAllOutputs fuel 8 schedule doc = .ok r := by
  intro doc schedule
  have hwf : WellFormed doc :=
    ⟨by decide, by decide, by decide, by decide, by decide, by decide, by decide, by decide,
      parentAcyclic_of_rank id (by decide), by decide⟩
  have hs : Schedulable doc.pathFragments schedule :=
    ⟨by decide, by simp [schedule, doc, SkipsComputed]⟩
  exact ⟨hwf, hs, (getAllOutputs_spec hwf hs 8).1⟩

/-- The unknown output id `99` is skipped. -/
example : ((getAllOutputs 3 8 [(⟨1, "src", none⟩, false), (⟨2, "Main.java", some 1⟩, false)]
    ⟨[⟨1, "src", none⟩, ⟨2, "Main.java", some 1⟩], [⟨10, 2⟩], [⟨5, "Javac", [10, 99]⟩],
      [⟨5, "//app:main"⟩]⟩).toOption.map fun r => (r.get? "//app:main").map (·.get? "Javac")) =
    some (some (some ["src/Main.java"])) := by
  decide

end ScipSync.Action.Outputs
