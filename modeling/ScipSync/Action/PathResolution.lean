import ScipSync.Action.Fragments
import ScipSync.Basic.Walk

/-! What the fragment stage computes on a well-formed document: every fragment
id is stored in `path_dict` with its full path (`FragmentPath`), in every
completion order the pool can produce. The walk of one fragment is sound and
complete for the parent chain (`ParentChain`), and it returns within
`|fragments| + 1` rounds because parent chains are acyclic. -/

namespace ScipSync.Action.PathResolution
open ScipSync.Basic.Dict ScipSync.Basic.Walk ScipSync.Action.Fragments

/-- Fragment `i` names `p` as its parent. -/
def ParentOf (doc : ActionGraph) (i p : Nat) : Prop :=
  ∃ f ∈ doc.pathFragments, f.id = i ∧ f.parentId = some p

/-- The precondition of the join's contract: distinct positive ids, every
parent and every artifact's fragment present, acyclic parent chains, distinct
target labels. -/
structure WellFormed (doc : ActionGraph) : Prop where
  fragmentIds : (doc.pathFragments.map (·.id)).Nodup
  artifactIds : (doc.artifacts.map (·.id)).Nodup
  targetIds : (doc.targets.map (·.id)).Nodup
  fragmentPos : ∀ f ∈ doc.pathFragments, 0 < f.id
  artifactPos : ∀ a ∈ doc.artifacts, 0 < a.id
  targetPos : ∀ t ∈ doc.targets, 0 < t.id
  parentMem : ∀ f ∈ doc.pathFragments, ∀ p, f.parentId = some p →
    p ∈ doc.pathFragments.map (·.id)
  artifactMem : ∀ a ∈ doc.artifacts, a.pathFragmentId ∈ doc.pathFragments.map (·.id)
  acyclic : ∀ i, ¬ Relation.TransGen (ParentOf doc) i i
  targetLabels : (doc.targets.map (·.label)).Nodup

/-- Parent chains are acyclic when every parent ranks below its child. -/
theorem parentAcyclic_of_rank {doc : ActionGraph} (rank : Nat → Nat)
    (h : ∀ f ∈ doc.pathFragments, ∀ p ∈ f.parentId, rank p < rank f.id) :
    ∀ i, ¬ Relation.TransGen (ParentOf doc) i i :=
  acyclic_of_rank rank fun _ p ⟨f, hf, hi, hp⟩ => hi ▸ h f hf p hp

/-- `labels` is the parent chain of fragment `i`, from `i` up to its root. -/
inductive ParentChain (doc : ActionGraph) : Nat → List String → Prop
  | root {f : PathFragment} : f ∈ doc.pathFragments → f.parentId = none →
      ParentChain doc f.id [f.label]
  | parent {f : PathFragment} {p : Nat} {labels : List String} : f ∈ doc.pathFragments →
      f.parentId = some p → ParentChain doc p labels → ParentChain doc f.id (f.label :: labels)

/-- `path(i)`: the labels of `i`'s parent chain from the root down to `i`,
joined by `/`. -/
def FragmentPath (doc : ActionGraph) (i : Nat) (path : String) : Prop :=
  ∃ labels, ParentChain doc i labels ∧ path = "/".intercalate labels.reverse

/-! ## The two lookups -/

section Lookups
variable {frags : List PathFragment}

theorem fragmentLabels_eq (frags : List PathFragment) :
    fragmentLabels frags = frags.foldl (PyDict.setSome (·.id) fun f => some f.label) PyDict.empty :=
  rfl

theorem parentLookup_eq (frags : List PathFragment) :
    parentLookup frags =
      frags.foldl (PyDict.setSome (·.id) fun f => f.parentId.filter (· ≠ 0)) PyDict.empty := by
  unfold parentLookup
  congr 1
  funext d fragment
  rcases fragment with ⟨_, _, _ | p⟩
  · rfl
  · by_cases hp : p = 0 <;> simp [PyDict.setSome, Option.filter, hp]

theorem fragmentLabels_get?_of_mem (hnd : (frags.map (·.id)).Nodup) {f : PathFragment}
    (hf : f ∈ frags) : (fragmentLabels frags).get? f.id = some f.label := by
  rw [fragmentLabels_eq, PyDict.get?_foldl_setSome_of_mem _ _ hnd hf]; rfl

theorem exists_of_fragmentLabels_get? {i : Nat} {label : String}
    (h : (fragmentLabels frags).get? i = some label) :
    ∃ f ∈ frags, f.id = i ∧ f.label = label := by
  rw [fragmentLabels_eq] at h
  rcases PyDict.exists_of_get?_foldl_setSome _ _ _ h with h | ⟨f, hf, hi, hl⟩
  · cases h
  · exact ⟨f, hf, hi, Option.some.inj hl⟩

theorem parentOf_of_parentLookup_get? {doc : ActionGraph} {i p : Nat}
    (h : (parentLookup doc.pathFragments).get? i = some p) : ParentOf doc i p := by
  rw [parentLookup_eq] at h
  rcases PyDict.exists_of_get?_foldl_setSome _ _ _ h with h | ⟨f, hf, hi, hp⟩
  · cases h
  · exact ⟨f, hf, hi, (Option.filter_eq_some.mp hp).1⟩

theorem parentLookup_get?_of_mem (hnd : (frags.map (·.id)).Nodup)
    (hpos : ∀ f ∈ frags, ∀ p, f.parentId = some p → p ≠ 0) {f : PathFragment} (hf : f ∈ frags) :
    (parentLookup frags).get? f.id = f.parentId := by
  rw [parentLookup_eq, PyDict.get?_foldl_setSome_of_mem _ _ hnd hf]
  cases hp : f.parentId with
  | none => rfl
  | some p => simp [Option.filter, hpos f hf p hp]

end Lookups

theorem map_cons_eq_ok {label : String} {x : Except JoinError (List String)}
    {labels : List String} :
    (label :: ·) <$> x = .ok labels ↔ ∃ rest, x = .ok rest ∧ labels = label :: rest := by
  cases x <;> simp [Functor.map, Except.map, eq_comm]

/-! ## The walk of one fragment -/

section Walk
variable {doc : ActionGraph}

theorem WellFormed.parent_ne_zero (hwf : WellFormed doc) {f : PathFragment}
    (hf : f ∈ doc.pathFragments) {p : Nat} (hp : f.parentId = some p) : p ≠ 0 := by
  obtain ⟨g, hg, rfl⟩ := List.mem_map.mp (hwf.parentMem f hf p hp)
  exact Nat.pos_iff_ne_zero.mp (hwf.fragmentPos g hg)

theorem WellFormed.parentLookup_get? (hwf : WellFormed doc) {f : PathFragment}
    (hf : f ∈ doc.pathFragments) : (parentLookup doc.pathFragments).get? f.id = f.parentId :=
  parentLookup_get?_of_mem hwf.fragmentIds (fun _ hg _ hp => hwf.parent_ne_zero hg hp) hf

/-- The walk only returns parent chains. -/
theorem parentChain_of_collectParts (hwf : WellFormed doc) :
    ∀ {fuel i : Nat} {labels : List String}, i ≠ 0 →
      collectParts (fragmentLabels doc.pathFragments) (parentLookup doc.pathFragments) fuel
        (some i) = .ok labels → ParentChain doc i labels
  | 0, _, _, hi, h => by rw [collectParts_zero hi] at h; cases h
  | fuel + 1, i, labels, hi, h => by
    rw [collectParts_succ hi] at h
    cases hl : (fragmentLabels doc.pathFragments).get? i with
    | none => rw [hl] at h; cases h
    | some label =>
      rw [hl] at h
      obtain ⟨f, hf, rfl, rfl⟩ := exists_of_fragmentLabels_get? hl
      obtain ⟨rest, hrest, rfl⟩ := map_cons_eq_ok.mp h
      rw [hwf.parentLookup_get? hf] at hrest
      cases hp : f.parentId with
      | none =>
        rw [hp, collectParts_none] at hrest
        cases hrest
        exact .root hf hp
      | some p =>
        rw [hp] at hrest
        exact .parent hf hp (parentChain_of_collectParts hwf (hwf.parent_ne_zero hf hp) hrest)

/-- A walk that runs out of fuel was following `fuel` parent links. -/
theorem walk_of_collectParts_outOfFuel :
    ∀ {fuel i : Nat}, i ≠ 0 →
      collectParts (fragmentLabels doc.pathFragments) (parentLookup doc.pathFragments) fuel
        (some i) = .error .outOfFuel → ∃ w : Nat → Nat, w 0 = i ∧ IsWalk (ParentOf doc) fuel w
  | 0, i, _, _ => ⟨fun _ => i, rfl, fun _ h => absurd h (Nat.not_lt_zero _)⟩
  | fuel + 1, i, hi, h => by
    rw [collectParts_succ hi] at h
    cases hl : (fragmentLabels doc.pathFragments).get? i with
    | none => rw [hl] at h; cases h
    | some label =>
      rw [hl] at h
      cases hp : (parentLookup doc.pathFragments).get? i with
      | none => rw [hp, collectParts_none] at h; cases h
      | some p =>
        rw [hp] at h
        have hp0 : p ≠ 0 := by rintro rfl; rw [collectParts_some_zero] at h; cases h
        have hinner : collectParts (fragmentLabels doc.pathFragments)
            (parentLookup doc.pathFragments) fuel (some p) = .error .outOfFuel := by
          revert h
          cases collectParts (fragmentLabels doc.pathFragments) (parentLookup doc.pathFragments)
            fuel (some p) <;> simp [Functor.map, Except.map]
        obtain ⟨w, hw0, hw⟩ := walk_of_collectParts_outOfFuel hp0 hinner
        refine ⟨cons i w, rfl, fun j hj => ?_⟩
        cases j with
        | zero => simpa [hw0] using parentOf_of_parentLookup_get? hp
        | succ j => exact hw j (by omega)

/-- On a well-formed document the walk of a fragment never raises. -/
theorem collectParts_ne_keyError (hwf : WellFormed doc) :
    ∀ {fuel i k : Nat}, i ∈ doc.pathFragments.map (·.id) →
      collectParts (fragmentLabels doc.pathFragments) (parentLookup doc.pathFragments) fuel
        (some i) ≠ .error (.keyError k)
  | 0, i, k, hi, h => by
    obtain ⟨f, hf, rfl⟩ := List.mem_map.mp hi
    rw [collectParts_zero (Nat.pos_iff_ne_zero.mp (hwf.fragmentPos f hf))] at h
    cases h
  | fuel + 1, i, k, hi, h => by
    obtain ⟨f, hf, rfl⟩ := List.mem_map.mp hi
    rw [collectParts_succ (Nat.pos_iff_ne_zero.mp (hwf.fragmentPos f hf)),
      fragmentLabels_get?_of_mem hwf.fragmentIds hf, hwf.parentLookup_get? hf] at h
    cases hp : f.parentId with
    | none => rw [hp, collectParts_none] at h; cases h
    | some p =>
      rw [hp] at h
      have hinner := @collectParts_ne_keyError hwf fuel p k (hwf.parentMem f hf p hp)
      revert h hinner
      cases collectParts (fragmentLabels doc.pathFragments) (parentLookup doc.pathFragments)
        fuel (some p) <;> simp [Functor.map, Except.map]

/-- **The walk of a fragment returns its parent chain** once the fuel exceeds
the number of fragments. -/
theorem collectParts_ok (hwf : WellFormed doc) {f : PathFragment} (hf : f ∈ doc.pathFragments)
    {fuel : Nat} (hfuel : doc.pathFragments.length < fuel) :
    ∃ labels, collectParts (fragmentLabels doc.pathFragments) (parentLookup doc.pathFragments)
      fuel (some f.id) = .ok labels ∧ ParentChain doc f.id labels := by
  have hi : f.id ≠ 0 := Nat.pos_iff_ne_zero.mp (hwf.fragmentPos f hf)
  cases h : collectParts (fragmentLabels doc.pathFragments) (parentLookup doc.pathFragments) fuel
      (some f.id) with
  | ok labels => exact ⟨labels, rfl, parentChain_of_collectParts hwf hi h⟩
  | error e =>
    cases e with
    | keyError k => exact absurd h (collectParts_ne_keyError hwf (List.mem_map_of_mem _ hf))
    | outOfFuel =>
      obtain ⟨w, -, hw⟩ := walk_of_collectParts_outOfFuel hi h
      have hsrc : ∀ u v, ParentOf doc u v → u ∈ (doc.pathFragments.map (·.id)).toFinset := by
        rintro u v ⟨g, hg, rfl, -⟩
        exact List.mem_toFinset.mpr (List.mem_map_of_mem _ hg)
      have hlen := length_le_of_acyclic hsrc hwf.acyclic hw
      have hcard := List.toFinset_card_le (doc.pathFragments.map (·.id))
      simp only [List.length_map] at hcard
      omega

end Walk

/-! ## `path_dict`, in any completion order -/

/-- The ids whose workers computed a path (did not skip). -/
def computedIds (schedule : List (PathFragment × Bool)) : List Nat :=
  (schedule.filter fun x => !x.2).map (·.1.id)

@[simp] theorem computedIds_cons_false (f : PathFragment) (rest : List (PathFragment × Bool)) :
    computedIds ((f, false) :: rest) = f.id :: computedIds rest := rfl

@[simp] theorem computedIds_cons_true (f : PathFragment) (rest : List (PathFragment × Bool)) :
    computedIds ((f, true) :: rest) = computedIds rest := rfl

theorem mem_computedIds_of_skipsComputed :
    ∀ {schedule : List (PathFragment × Bool)} {computed : List Nat},
      SkipsComputed schedule computed →
        ∀ x ∈ schedule, x.1.id ∈ computed ∨ x.1.id ∈ computedIds schedule
  | [], _, _, _, hx => by cases hx
  | (f, b) :: rest, computed, ⟨hb, hrest⟩, x, hx => by
    have hcons : ∀ i, i ∈ computedIds rest → i ∈ computedIds ((f, b) :: rest) := by
      intro i hi; cases b <;> simp [hi]
    rcases List.mem_cons.mp hx with rfl | hx
    · cases b
      · exact .inr (List.mem_cons_self _ _)
      · exact .inl (hb rfl)
    · rcases mem_computedIds_of_skipsComputed hrest x hx with h | h
      · cases b
        · rcases List.mem_cons.mp h with h | h
          · exact .inr (h ▸ List.mem_cons_self _ _)
          · exact .inl h
        · exact .inl h
      · exact .inr (hcons _ h)

section PathDict
variable {doc : ActionGraph} {fuel : Nat}

/-- The walk of a fragment of a well-formed document returns its chain or runs
out of fuel. -/
theorem collectParts_cases (hwf : WellFormed doc) {f : PathFragment}
    (hf : f ∈ doc.pathFragments) :
    (∃ labels, collectParts (fragmentLabels doc.pathFragments) (parentLookup doc.pathFragments)
      fuel (some f.id) = .ok labels ∧ ParentChain doc f.id labels) ∨
    collectParts (fragmentLabels doc.pathFragments) (parentLookup doc.pathFragments) fuel
      (some f.id) = .error .outOfFuel := by
  cases h : collectParts (fragmentLabels doc.pathFragments) (parentLookup doc.pathFragments) fuel
      (some f.id) with
  | ok labels =>
    exact .inl ⟨labels, rfl,
      parentChain_of_collectParts hwf (Nat.pos_iff_ne_zero.mp (hwf.fragmentPos f hf)) h⟩
  | error e =>
    cases e with
    | keyError k => exact absurd h (collectParts_ne_keyError hwf (List.mem_map_of_mem _ hf))
    | outOfFuel => exact .inr rfl

/-- A worker that computes returns its fragment's path, unless its walk runs out
of fuel. -/
theorem processFragment_cases (hwf : WellFormed doc) {f : PathFragment}
    (hf : f ∈ doc.pathFragments) :
    (∃ path, FragmentPath doc f.id path ∧
      processFragment (fragmentLabels doc.pathFragments) (parentLookup doc.pathFragments) fuel
        false f = .ok (some (f.id, path))) ∨
    processFragment (fragmentLabels doc.pathFragments) (parentLookup doc.pathFragments) fuel
      false f = .error .outOfFuel := by
  rcases @collectParts_cases doc fuel hwf _ hf with ⟨labels, h, hc⟩ | h
  · exact .inl ⟨_, ⟨labels, hc, rfl⟩, by
      simp [processFragment, h, bind, Except.bind, pure, Except.pure]⟩
  · exact .inr (by simp [processFragment, h, bind, Except.bind])

/-- The collection loop over results that are all paths of their fragments. -/
theorem foldlM_pathDict :
    ∀ (schedule : List (PathFragment × Bool)),
      (∀ x ∈ schedule, x.2 = false → ∃ path, FragmentPath doc x.1.id path ∧
        processFragment (fragmentLabels doc.pathFragments) (parentLookup doc.pathFragments) fuel
          false x.1 = .ok (some (x.1.id, path))) →
      ∀ d : PyDict Nat String, ∃ d', (schedule.map fun (fragment, present) =>
        processFragment (fragmentLabels doc.pathFragments) (parentLookup doc.pathFragments) fuel
          present fragment).foldlM (fun pathDict result => do
            match ← result with
            | none => pure pathDict
            | some (fragmentId, path) => pure (pathDict.set fragmentId path)) d = .ok d' ∧
        ∀ i, (((d'.get? i).isSome ↔ (d.get? i).isSome ∨ i ∈ computedIds schedule)) ∧
          ∀ p, d'.get? i = some p → d.get? i = some p ∨ FragmentPath doc i p
  | [], _, d => ⟨d, rfl, fun i => ⟨by simp [computedIds], fun _ h => .inl h⟩⟩
  | (f, b) :: rest, hok, d => by
    have hrest := fun x hx => hok x (List.mem_cons_of_mem _ hx)
    cases b with
    | true =>
      obtain ⟨d', hfold, hspec⟩ := foldlM_pathDict rest hrest d
      refine ⟨d', ?_, fun i => ⟨by rw [(hspec i).1]; simp, (hspec i).2⟩⟩
      simpa [processFragment] using hfold
    | false =>
      obtain ⟨path, hpath, hproc⟩ := hok _ (List.mem_cons_self _ _) rfl
      obtain ⟨d', hfold, hspec⟩ := foldlM_pathDict rest hrest (d.set f.id path)
      refine ⟨d', ?_, fun i => ⟨?_, fun p hp => ?_⟩⟩
      · simp only [List.map_cons, List.foldlM_cons]
        rw [hproc]
        exact hfold
      · rw [(hspec i).1]
        by_cases hi : i = f.id <;> simp [hi]
      · rcases (hspec i).2 p hp with h | h
        · rw [PyDict.get?_set] at h
          split_ifs at h with hi
          · subst hi; cases h; exact .inr hpath
          · exact .inl h
        · exact .inr h

/-- **`path_dict` holds every fragment's path**, whatever order the workers
complete in: when the stage returns, its keys are the fragment ids and each
value is the path of its id. -/
theorem buildPathDict_spec (hwf : WellFormed doc) {schedule : List (PathFragment × Bool)}
    (hs : Schedulable doc.pathFragments schedule) {pathDict : PyDict Nat String}
    (h : buildPathDict (fragmentLabels doc.pathFragments) (parentLookup doc.pathFragments)
        fuel schedule = .ok pathDict) :
    ∀ i, ((pathDict.get? i).isSome ↔ i ∈ doc.pathFragments.map (·.id)) ∧
      ∀ p, pathDict.get? i = some p → FragmentPath doc i p := by
  have hmem : ∀ x ∈ schedule, x.1 ∈ doc.pathFragments := fun x hx =>
    hs.1.subset (List.mem_map_of_mem _ hx)
  unfold buildPathDict at h
  dsimp only at h
  split_ifs at h with hany
  have hok : ∀ x ∈ schedule, x.2 = false → ∃ path, FragmentPath doc x.1.id path ∧
      processFragment (fragmentLabels doc.pathFragments) (parentLookup doc.pathFragments) fuel
        false x.1 = .ok (some (x.1.id, path)) := by
    intro x hx hb
    refine (processFragment_cases hwf (hmem x hx)).resolve_right fun hout => hany ?_
    refine List.any_eq_true.mpr ⟨_, List.mem_map_of_mem _ hx, ?_⟩
    obtain ⟨f, b⟩ := x
    cases hb
    simp only [hout, Except.isOutOfFuel]
  obtain ⟨d, hfold, hspec⟩ := foldlM_pathDict schedule hok PyDict.empty
  have hd : (Except.ok d : Except JoinError (PyDict Nat String)) = .ok pathDict := hfold.symm.trans h
  cases hd
  intro i
  refine ⟨?_, fun p hp => ((hspec i).2 p hp).resolve_left (by simp)⟩
  rw [(hspec i).1]
  simp only [PyDict.get?_empty, Option.isSome_none, Bool.false_eq_true, false_or]
  constructor
  · intro hi
    obtain ⟨x, hx, rfl⟩ := List.mem_map.mp hi
    exact List.mem_map_of_mem _ (hmem x (List.mem_of_mem_filter hx))
  · intro hi
    obtain ⟨f, hf, rfl⟩ := List.mem_map.mp hi
    obtain ⟨x, hx, hxf⟩ := List.mem_map.mp (hs.1.symm.subset hf)
    rcases mem_computedIds_of_skipsComputed hs.2 x hx with h | h
    · cases h
    · exact hxf ▸ h

/-- With more fuel than fragments, the fragment stage of a well-formed document
returns. -/
theorem buildPathDict_isOk (hwf : WellFormed doc) {schedule : List (PathFragment × Bool)}
    (hs : Schedulable doc.pathFragments schedule) (hfuel : doc.pathFragments.length < fuel) :
    ∃ pathDict, buildPathDict (fragmentLabels doc.pathFragments) (parentLookup doc.pathFragments)
      fuel schedule = .ok pathDict := by
  have hmem : ∀ x ∈ schedule, x.1 ∈ doc.pathFragments := fun x hx =>
    hs.1.subset (List.mem_map_of_mem _ hx)
  have hok : ∀ x ∈ schedule, x.2 = false → ∃ path, FragmentPath doc x.1.id path ∧
      processFragment (fragmentLabels doc.pathFragments) (parentLookup doc.pathFragments) fuel
        false x.1 = .ok (some (x.1.id, path)) := by
    intro x hx _
    obtain ⟨labels, h, hc⟩ := collectParts_ok hwf (hmem x hx) hfuel
    exact ⟨_, ⟨labels, hc, rfl⟩, by simp [processFragment, h, bind, Except.bind, pure, Except.pure]⟩
  obtain ⟨d, hfold, -⟩ := foldlM_pathDict schedule hok PyDict.empty
  refine ⟨d, ?_⟩
  have hany : (schedule.map fun (fragment, present) =>
      processFragment (fragmentLabels doc.pathFragments) (parentLookup doc.pathFragments) fuel
        present fragment).any Except.isOutOfFuel = false := by
    rw [List.any_eq_false]
    rintro r hr
    obtain ⟨⟨f, b⟩, hx, rfl⟩ := List.mem_map.mp hr
    cases b
    · obtain ⟨path, -, hproc⟩ := hok _ hx rfl
      simp only [hproc, Except.isOutOfFuel]; exact Bool.false_ne_true
    · simp [processFragment, Except.isOutOfFuel]
  simp only [buildPathDict, hany]
  exact hfold

end PathDict

end ScipSync.Action.PathResolution
