import ScipSync.Graph.Transform
import ScipSync.Basic.Walk

/-! The depth-bounded traversal `dfs` (scip_utils.py). From a key of the graph
it first appends every export and recurses into it with `depth - 1`, whatever
`depth` is; then, for `depth ≥ 0`, it appends the target itself; and for
`depth ≥ 1` it appends every direct dep and recurses into it with `depth - 1`.
A label that is not a key yields `[]`.

Python recursion has no bound of its own, so the model carries `fuel` and
returns `none` when the fuel runs out. What `dfs` returns is characterised by
`Reach` (`mem_dfs`), for every graph and every depth; and when the exports have
no cycle among the keys, `d.toNat + |keys| + 1` fuel is always enough
(`dfs_isSome`). In general `dfs` returns exactly when no export cycle is
reachable from the target (`dfs_terminates_iff`): the exports are followed
whatever the depth, so on a cycle the recursion never ends, and Python stops it
with a `RecursionError`. -/

namespace ScipSync.Graph.Dfs
open ScipSync.Basic.Dict ScipSync.Basic.Walk ScipSync.Graph.Transform

/-- The loop `for x in xs: result.append(x); result.extend(f(x))`. -/
def expand (f : String → Option (List String)) : List String → Option (List String)
  | [] => some []
  | x :: xs => do
    let r ← f x
    let rs ← expand f xs
    return x :: r ++ rs

/-- `dfs(dep_graph, target, depth)` with at most `fuel` nested calls. -/
def dfs (depGraph : DepGraph) : Nat → String → Int → Option (List String)
  | 0, _, _ => none
  | fuel + 1, target, depth =>
    match depGraph.get? target with
    | none => some []
    | some node => do
      let exported ← expand (fun e => dfs depGraph fuel e (depth - 1)) node.exports
      if depth < 0 then return exported
      if depth = 0 then return exported ++ [target]
      let direct ← expand (fun d => dfs depGraph fuel d (depth - 1)) node.directDeps
      return exported ++ [target] ++ direct

/-! ## The loop over exports and direct deps -/

section Expand
variable {f g : String → Option (List String)} {xs r : List String}

theorem expand_eq_none : expand f xs = none ↔ ∃ x ∈ xs, f x = none := by
  induction xs with
  | nil => simp [expand]
  | cons x xs ih =>
    cases hx : f x <;> cases hs : expand f xs <;> simp_all [expand]

theorem mem_expand (h : expand f xs = some r) {y : String} :
    y ∈ r ↔ ∃ x ∈ xs, ∃ rx, f x = some rx ∧ (y = x ∨ y ∈ rx) := by
  induction xs generalizing r with
  | nil => simp_all [expand]
  | cons x xs ih =>
    simp only [expand, Option.bind_eq_bind, Option.bind_eq_some, Option.pure_def,
      Option.some.injEq] at h
    obtain ⟨rx, hx, rs, hs, rfl⟩ := h
    constructor
    · intro hy
      rcases List.mem_cons.mp hy with hy | hy
      · exact ⟨x, List.mem_cons_self _ _, rx, hx, .inl hy⟩
      rcases List.mem_append.mp hy with hy | hy
      · exact ⟨x, List.mem_cons_self _ _, rx, hx, .inr hy⟩
      · obtain ⟨x', hx', h'⟩ := (ih hs).mp hy
        exact ⟨x', List.mem_cons_of_mem _ hx', h'⟩
    · rintro ⟨x', hx', rx', hfx, hy⟩
      rcases List.mem_cons.mp hx' with rfl | hx'
      · obtain rfl : rx = rx' := Option.some.inj (hx.symm.trans hfx)
        rcases hy with hy | hy
        · exact hy ▸ List.mem_cons_self _ _
        · exact List.mem_cons_of_mem _ (List.mem_append_left _ hy)
      · exact List.mem_cons_of_mem _
          (List.mem_append_right _ ((ih hs).mpr ⟨x', hx', rx', hfx, hy⟩))

theorem expand_mono (hfg : ∀ x ∈ xs, ∀ rx, f x = some rx → g x = some rx)
    (h : expand f xs = some r) : expand g xs = some r := by
  induction xs generalizing r with
  | nil => exact h
  | cons x xs ih =>
    simp only [expand, Option.bind_eq_bind, Option.bind_eq_some, Option.pure_def,
      Option.some.injEq] at h ⊢
    obtain ⟨rx, hx, rs, hs, rfl⟩ := h
    exact ⟨rx, hfg x (List.mem_cons_self x xs) rx hx, rs,
      ih (fun y hy => hfg y (List.mem_cons_of_mem x hy)) hs, rfl⟩

end Expand

/-! ## One call of `dfs` -/

section Unfold
variable {depGraph : DepGraph} {fuel : Nat} {target : String} {depth : Int}

@[simp] theorem dfs_zero : dfs depGraph 0 target depth = none := rfl

theorem dfs_of_get?_none (h : depGraph.get? target = none) :
    dfs depGraph (fuel + 1) target depth = some [] := by
  simp [dfs, h]

theorem dfs_of_get?_some {node : DependencyNode} (h : depGraph.get? target = some node) :
    dfs depGraph (fuel + 1) target depth =
      (expand (fun e => dfs depGraph fuel e (depth - 1)) node.exports).bind fun exported =>
        if depth < 0 then some exported
        else if depth = 0 then some (exported ++ [target])
        else (expand (fun d => dfs depGraph fuel d (depth - 1)) node.directDeps).map
          fun direct => exported ++ [target] ++ direct := by
  simp only [dfs, h]
  cases expand (fun e => dfs depGraph fuel e (depth - 1)) node.exports <;>
    cases expand (fun d => dfs depGraph fuel d (depth - 1)) node.directDeps <;> rfl

end Unfold

/-- More fuel does not change a result. -/
theorem dfs_mono {depGraph : DepGraph} :
    ∀ {fuel : Nat} {target : String} {depth : Int} {r : List String},
      dfs depGraph fuel target depth = some r → dfs depGraph (fuel + 1) target depth = some r
  | 0, _, _, _, h => by simp at h
  | fuel + 1, target, depth, r, h => by
    cases hg : depGraph.get? target with
    | none => rwa [dfs_of_get?_none hg] at h ⊢
    | some node =>
      rw [dfs_of_get?_some hg] at h ⊢
      have hm := fun (xs : List String) =>
        @expand_mono (fun e => dfs depGraph fuel e (depth - 1))
          (fun e => dfs depGraph (fuel + 1) e (depth - 1)) xs
      cases he : expand (fun e => dfs depGraph fuel e (depth - 1)) node.exports with
      | none => simp [he] at h
      | some ex =>
        rw [hm _ (fun _ _ _ => dfs_mono) he]
        rw [he] at h
        simp only [Option.some_bind] at h ⊢
        split_ifs at h ⊢
        · exact h
        · exact h
        · cases hd : expand (fun d => dfs depGraph fuel d (depth - 1)) node.directDeps with
          | none => simp [hd] at h
          | some dr => rw [hm _ (fun _ _ _ => dfs_mono) hd]; rwa [hd] at h

/-! ## What `dfs` returns -/

/-- A step of a path at position `i`: from a key of the graph to one of its
exports, or, while `i ≤ depth - 1`, to one of its direct deps. -/
def Step (g : DepGraph) (depth : Int) (i : Nat) (u v : String) : Prop :=
  ∃ node, g.get? u = some node ∧
    (v ∈ node.exports ∨ ((i : Int) ≤ depth - 1 ∧ v ∈ node.directDeps))

/-- A path `s = w 0 → ... → w k = x` of `Step`s; the empty path only when
`depth ≥ 0`. -/
def Reach (g : DepGraph) (depth : Int) (s x : String) : Prop :=
  ∃ (k : Nat) (w : Nat → String), w 0 = s ∧ w k = x ∧
    (∀ i < k, Step g depth i (w i) (w (i + 1))) ∧ (1 ≤ k ∨ 0 ≤ depth)

section Reach
variable {g : DepGraph} {depth : Int} {i : Nat} {u v x : String}

theorem step_succ : Step g depth (i + 1) u v ↔ Step g (depth - 1) i u v := by
  have hi : ((i + 1 : Nat) : Int) ≤ depth - 1 ↔ (i : Int) ≤ depth - 1 - 1 := by omega
  simp only [Step, hi]

theorem step_zero : Step g depth 0 u v ↔
    ∃ node, g.get? u = some node ∧ (v ∈ node.exports ∨ (1 ≤ depth ∧ v ∈ node.directDeps)) := by
  have h0 : ((0 : Nat) : Int) ≤ depth - 1 ↔ 1 ≤ depth := by omega
  simp only [Step, h0]

/-- Only the empty path leaves a label that is not a key. -/
theorem reach_of_get?_none (h : g.get? v = none) (hr : Reach g depth v x) : x = v := by
  obtain ⟨k, w, h0, hk, hs, -⟩ := hr
  cases k with
  | zero => exact hk ▸ h0
  | succ k =>
    obtain ⟨node, hn, -⟩ := hs 0 (Nat.succ_pos k)
    rw [h0, h] at hn; cases hn

/-- A path is empty, or a first step followed by a path with one less depth. -/
theorem reach_iff : Reach g depth v x ↔ (0 ≤ depth ∧ x = v) ∨
    ∃ node, g.get? v = some node ∧
      ((∃ e ∈ node.exports, x = e ∨ Reach g (depth - 1) e x) ∨
        (1 ≤ depth ∧ ∃ d ∈ node.directDeps, x = d ∨ Reach g (depth - 1) d x)) := by
  constructor
  · rintro ⟨k, w, h0, hk, hs, hend⟩
    cases k with
    | zero => exact .inl ⟨by omega, hk.symm.trans h0⟩
    | succ k =>
      obtain ⟨node, hn, hstep⟩ := step_zero.mp (hs 0 (Nat.succ_pos k))
      have htail : x = w 1 ∨ Reach g (depth - 1) (w 1) x := by
        cases k with
        | zero => exact .inl hk.symm
        | succ k =>
          refine .inr ⟨k + 1, fun i => w (i + 1), rfl, hk, fun i hi => ?_, .inl (by omega)⟩
          exact step_succ.mp (hs (i + 1) (by omega))
      rw [h0] at hn
      rcases hstep with he | ⟨hd, he⟩
      · exact .inr ⟨node, hn, .inl ⟨w 1, he, htail⟩⟩
      · exact .inr ⟨node, hn, .inr ⟨hd, w 1, he, htail⟩⟩
  · have first : ∀ {node : DependencyNode} {e : String}, g.get? v = some node →
        Step g depth 0 v e → (x = e ∨ Reach g (depth - 1) e x) → Reach g depth v x := by
      rintro node e hn hstep (rfl | ⟨k, w, h0, hk, hs, -⟩)
      · exact ⟨1, cons v fun _ => x, rfl, rfl, fun i hi => by
          obtain rfl : i = 0 := by omega
          exact hstep, .inl le_rfl⟩
      · refine ⟨k + 1, cons v w, rfl, hk, fun i hi => ?_, .inl (by omega)⟩
        cases i with
        | zero => simpa [h0] using hstep
        | succ i => exact step_succ.mpr (hs i (by omega))
    rintro (⟨hd, rfl⟩ | ⟨node, hn, ⟨e, he, hx⟩ | ⟨hd, e, he, hx⟩⟩)
    · exact ⟨0, fun _ => x, rfl, rfl, fun i hi => absurd hi (Nat.not_lt_zero i), .inr hd⟩
    · exact first hn ⟨node, hn, .inl he⟩ hx
    · exact first hn (step_zero.mpr ⟨node, hn, .inr ⟨hd, he⟩⟩) hx

end Reach

/-! ## Paths at other depths -/

/-- A step of the unbounded closure: from a key to one of its exports or direct deps. -/
def DepStep (g : DepGraph) (u v : String) : Prop :=
  ∃ node, g.get? u = some node ∧ (v ∈ node.exports ∨ v ∈ node.directDeps)

/-- `u` is a key of the graph and exports `v`. -/
def ExportStep (g : DepGraph) (u v : String) : Prop :=
  ∃ node, g.get? u = some node ∧ v ∈ node.exports

section Depth
variable {g : DepGraph} {depth : Int} {s x : String}

theorem mem_keys_of_depStep {u v : String} (h : DepStep g u v) : u ∈ g.keys.toFinset := by
  obtain ⟨node, hn, -⟩ := h
  exact List.mem_toFinset.mpr (PyDict.mem_keys_iff.mpr (by simp [hn]))

theorem mem_keys_of_exportStep {u v : String} (h : ExportStep g u v) : u ∈ g.keys.toFinset := by
  obtain ⟨node, hn, -⟩ := h
  exact List.mem_toFinset.mpr (PyDict.mem_keys_iff.mpr (by simp [hn]))

theorem card_keys (g : DepGraph) : g.keys.toFinset.card = g.keys.length :=
  List.toFinset_card_of_nodup g.nodup

/-- One more depth allows every path it allowed before. -/
theorem reach_succ (h : Reach g depth s x) : Reach g (depth + 1) s x := by
  obtain ⟨k, w, h0, hk, hs, hend⟩ := h
  refine ⟨k, w, h0, hk, fun i hi => ?_, by omega⟩
  obtain ⟨node, hn, he | ⟨hi', hd⟩⟩ := hs i hi
  · exact ⟨node, hn, .inl he⟩
  · exact ⟨node, hn, .inr ⟨by omega, hd⟩⟩

/-- From depth `|keys|` on, the bound on direct deps no longer matters: a path
through `k > |keys|` keys repeats one and can be shortened. -/
theorem reach_iff_walk (hd : (g.keys.length : Int) ≤ depth) :
    Reach g depth s x ↔ ∃ k w, w 0 = s ∧ w k = x ∧ IsWalk (DepStep g) k w := by
  constructor
  · rintro ⟨k, w, h0, hk, hs, -⟩
    refine ⟨k, w, h0, hk, fun i hi => ?_⟩
    obtain ⟨node, hn, he | ⟨-, he⟩⟩ := hs i hi
    exacts [⟨node, hn, .inl he⟩, ⟨node, hn, .inr he⟩]
  · rintro ⟨k, w, rfl, rfl, hw⟩
    obtain ⟨k', w', hk', hw', h0, hend⟩ := exists_short_walk (fun _ _ => mem_keys_of_depStep) k w hw
    rw [card_keys] at hk'
    refine ⟨k', w', h0, hend, fun i hi => ?_, .inr (by omega)⟩
    obtain ⟨node, hn, he | he⟩ := hw' i hi
    · exact ⟨node, hn, .inl he⟩
    · exact ⟨node, hn, .inr ⟨by omega, he⟩⟩

/-- At depth `≤ 0` no direct dep is followed: a path is the empty one (depth
`0` only) or a chain of exports. -/
theorem reach_iff_exports (hd : depth ≤ 0) :
    Reach g depth s x ↔ (0 ≤ depth ∧ x = s) ∨
      ∃ k w, 1 ≤ k ∧ w 0 = s ∧ w k = x ∧ IsWalk (ExportStep g) k w := by
  constructor
  · rintro ⟨k, w, h0, hk, hs, hend⟩
    rcases Nat.eq_zero_or_pos k with rfl | hk1
    · exact .inl ⟨by omega, hk.symm.trans h0⟩
    refine .inr ⟨k, w, hk1, h0, hk, fun i hi => ?_⟩
    obtain ⟨node, hn, he | ⟨hi', -⟩⟩ := hs i hi
    · exact ⟨node, hn, he⟩
    · omega
  · rintro (⟨h0, rfl⟩ | ⟨k, w, hk1, h0, hk, hw⟩)
    · exact ⟨0, fun _ => x, rfl, rfl, fun i hi => absurd hi (Nat.not_lt_zero i), .inr h0⟩
    · refine ⟨k, w, h0, hk, fun i hi => ?_, .inl hk1⟩
      obtain ⟨node, hn, he⟩ := hw i hi
      exact ⟨node, hn, .inl he⟩

end Depth

/-- A result of `expand` over the recursive calls, in terms of `Reach`. -/
theorem mem_expand_dfs {g : DepGraph} {fuel : Nat} {depth : Int} {xs r : List String}
    (x : String)
    (ih : ∀ {v r}, dfs g fuel v depth = some r → (x ∈ r ↔ (g.get? v).isSome ∧ Reach g depth v x))
    (h : expand (fun e => dfs g fuel e depth) xs = some r) :
    x ∈ r ↔ ∃ e ∈ xs, x = e ∨ Reach g depth e x := by
  rw [mem_expand h]
  constructor
  · rintro ⟨e, he, re, hre, hx | hx⟩
    · exact ⟨e, he, .inl hx⟩
    · exact ⟨e, he, .inr ((ih hre).mp hx).2⟩
  · rintro ⟨e, he, hx⟩
    obtain ⟨re, hre⟩ := Option.ne_none_iff_exists'.mp fun hn =>
      (Option.some_ne_none r) (h.symm.trans (expand_eq_none.mpr ⟨e, he, hn⟩))
    refine ⟨e, he, re, hre, ?_⟩
    rcases hx with hx | hx
    · exact .inl hx
    · cases hg : g.get? e with
      | none => exact .inl (reach_of_get?_none hg hx)
      | some _ => exact .inr ((ih hre).mpr ⟨by simp [hg], hx⟩)

/-- **What `dfs` returns.** Whenever `dfs` returns, its result holds exactly the
labels that `Reach` the start, and nothing when the start is not a key. -/
theorem mem_dfs {g : DepGraph} :
    ∀ {fuel : Nat} {v : String} {depth : Int} {r : List String} {x : String},
      dfs g fuel v depth = some r → (x ∈ r ↔ (g.get? v).isSome ∧ Reach g depth v x)
  | 0, _, _, _, _, h => by simp at h
  | fuel + 1, v, depth, r, x, h => by
    cases hg : g.get? v with
    | none =>
      rw [dfs_of_get?_none hg] at h
      cases h; simp
    | some node =>
      rw [dfs_of_get?_some hg] at h
      obtain ⟨ex, hex, h⟩ := Option.bind_eq_some.mp h
      have hmex := mem_expand_dfs x (fun hr => mem_dfs hr) hex
      rw [reach_iff]
      simp only [Option.isSome_some, true_and, hg, Option.some.injEq, exists_eq_left']
      split_ifs at h with hneg hzero
      · -- depth < 0: the exports only
        cases h
        have h0 : ¬ 0 ≤ depth := by omega
        have h1 : ¬ 1 ≤ depth := by omega
        simp only [hmex, h0, h1, false_and, false_or, or_false]
      · -- depth = 0: the exports, then the target
        cases h
        have h0 : 0 ≤ depth := by omega
        have h1 : ¬ 1 ≤ depth := by omega
        simp only [List.mem_append, hmex, List.mem_singleton, h0, h1, true_and, false_and, or_false]
        exact or_comm
      · -- depth > 0: the exports, the target, then the direct deps
        obtain ⟨dr, hdr, rfl⟩ := Option.map_eq_some'.mp h
        have h0 : 0 ≤ depth := by omega
        have h1 : 1 ≤ depth := by omega
        simp only [List.mem_append, hmex, List.mem_singleton,
          mem_expand_dfs x (fun hr => mem_dfs hr) hdr, h0, h1, true_and]
        exact or_assoc.trans or_left_comm

/-! ## When `dfs` returns -/

/-- The exports relation has no cycle among the keys. -/
def ExportAcyclic (g : DepGraph) : Prop := ∀ v, ¬ Relation.TransGen (ExportStep g) v v

/-- Exports that lower some rank have no cycle. -/
theorem exportAcyclic_of_rank {g : DepGraph} (rank : String → Nat)
    (h : ∀ e ∈ g.entries, ∀ v ∈ e.2.exports, rank v < rank e.1) : ExportAcyclic g :=
  acyclic_of_rank rank fun _ v ⟨_, hn, he⟩ => h _ (PyDict.mem_entries_of_get? hn) v he

/-- A `dfs` that runs out of fuel was following a path of `fuel` steps. -/
theorem walk_of_dfs_none {g : DepGraph} :
    ∀ {fuel : Nat} {v : String} {depth : Int}, dfs g fuel v depth = none →
      ∃ w : Nat → String, w 0 = v ∧ ∀ i < fuel, Step g depth i (w i) (w (i + 1))
  | 0, v, _, _ => ⟨fun _ => v, rfl, fun i hi => absurd hi (Nat.not_lt_zero i)⟩
  | fuel + 1, v, depth, h => by
    cases hg : g.get? v with
    | none => rw [dfs_of_get?_none hg] at h; cases h
    | some node =>
      rw [dfs_of_get?_some hg] at h
      have hchild : ∃ c, Step g depth 0 v c ∧ dfs g fuel c (depth - 1) = none := by
        cases hex : expand (fun e => dfs g fuel e (depth - 1)) node.exports with
        | none =>
          obtain ⟨c, hc, hn⟩ := expand_eq_none.mp hex
          exact ⟨c, ⟨node, hg, .inl hc⟩, hn⟩
        | some ex =>
          rw [hex, Option.some_bind] at h
          split_ifs at h with hneg hzero
          · obtain ⟨c, hc, hn⟩ := expand_eq_none.mp (Option.map_eq_none'.mp h)
            exact ⟨c, step_zero.mpr ⟨node, hg, .inr ⟨by omega, hc⟩⟩, hn⟩
      obtain ⟨c, hc, hn⟩ := hchild
      obtain ⟨w, hw0, hw⟩ := walk_of_dfs_none hn
      refine ⟨cons v w, rfl, fun i hi => ?_⟩
      cases i with
      | zero => simpa [hw0] using hc
      | succ i => exact step_succ.mpr (hw i (by omega))

/-- Past position `depth.toNat` a path follows exports only. -/
theorem isWalk_exports {g : DepGraph} {depth : Int} {k : Nat} {w : Nat → String}
    (hw : ∀ i < k, Step g depth i (w i) (w (i + 1))) :
    IsWalk (ExportStep g) (k - depth.toNat) fun t => w (depth.toNat + t) := by
  intro t ht
  obtain ⟨node, hn, he | ⟨hi, -⟩⟩ := hw (depth.toNat + t) (by omega)
  · exact ⟨node, hn, he⟩
  · have := Int.self_le_toNat depth
    push_cast at hi
    omega

/-- Without an export cycle a path is at most `|keys|` steps longer than
`depth.toNat`. -/
theorem length_le_of_exportAcyclic {g : DepGraph} (hacyc : ExportAcyclic g) {depth : Int}
    {k : Nat} {w : Nat → String} (hw : ∀ i < k, Step g depth i (w i) (w (i + 1))) :
    k ≤ depth.toNat + g.keys.length := by
  have hlen := length_le_of_acyclic (fun _ _ => mem_keys_of_exportStep) hacyc (isWalk_exports hw)
  rw [card_keys] at hlen
  omega

/-- **`dfs` returns** when the exports have no cycle among the keys, given
`depth.toNat + |keys| + 1` fuel. -/
theorem dfs_isSome {g : DepGraph} (hacyc : ExportAcyclic g) {fuel : Nat} {v : String}
    {depth : Int} (hfuel : depth.toNat + g.keys.length < fuel) : (dfs g fuel v depth).isSome := by
  cases h : dfs g fuel v depth with
  | some _ => rfl
  | none =>
    obtain ⟨w, -, hw⟩ := walk_of_dfs_none h
    have := length_le_of_exportAcyclic hacyc hw
    omega

/-! ## When `dfs` never returns -/

/-- Some label `dfs` calls itself on, the start or the end of a path, lies on a
cycle of exports. -/
def ReachesExportCycle (g : DepGraph) (depth : Int) (target : String) : Prop :=
  ∃ v, (v = target ∨ Reach g depth target v) ∧ Relation.TransGen (ExportStep g) v v

/-- A chain of exports is a path at every depth. -/
theorem reach_of_transGen_export {g : DepGraph} {u v : String}
    (h : Relation.TransGen (ExportStep g) u v) : ∀ depth, Reach g depth u v := by
  induction h using Relation.TransGen.head_induction_on with
  | base he =>
    obtain ⟨node, hn, he⟩ := he
    exact fun _ => reach_iff.mpr (.inr ⟨node, hn, .inl ⟨_, he, .inl rfl⟩⟩)
  | ih he _ ih =>
    obtain ⟨node, hn, he⟩ := he
    exact fun depth => reach_iff.mpr (.inr ⟨node, hn, .inl ⟨_, he, .inr (ih (depth - 1))⟩⟩)

/-- A label on an export cycle exports a label from which the cycle is the label
itself or a path, at every depth. -/
theorem exists_export_toward_cycle {g : DepGraph} {v : String}
    (hcyc : Relation.TransGen (ExportStep g) v v) (depth : Int) :
    ∃ node, g.get? v = some node ∧ ∃ c ∈ node.exports, v = c ∨ Reach g depth c v := by
  obtain ⟨c, ⟨node, hn, hc⟩, hcv⟩ := Relation.TransGen.head'_iff.mp hcyc
  refine ⟨node, hn, c, hc, ?_⟩
  rcases Relation.reflTransGen_iff_eq_or_transGen.mp hcv with h | h
  exacts [.inl h, .inr (reach_of_transGen_export h _)]

/-- One call on the way to an export cycle: the label is a key, and the call
recurses into an export, or at `1 ≤ depth` into a direct dep, from which the
cycle is again the label itself or a path at `depth - 1`. -/
theorem exists_call_toward_cycle {g : DepGraph} {s v : String} {depth : Int}
    (hv : v = s ∨ Reach g depth s v) (hcyc : Relation.TransGen (ExportStep g) v v) :
    ∃ node, g.get? s = some node ∧ ∃ c, (c ∈ node.exports ∨ (1 ≤ depth ∧ c ∈ node.directDeps)) ∧
      (v = c ∨ Reach g (depth - 1) c v) := by
  rcases hv.imp_right reach_iff.mp with rfl | ⟨-, rfl⟩ | ⟨node, hn, ⟨e, he, hev⟩ | ⟨hd, d, hd', hdv⟩⟩
  iterate 2
    obtain ⟨node, hn, c, hc, hcv⟩ := exists_export_toward_cycle hcyc (depth - 1)
    exact ⟨node, hn, c, .inl hc, hcv⟩
  · exact ⟨node, hn, e, .inl he, hev⟩
  · exact ⟨node, hn, d, .inr ⟨hd, hd'⟩, hdv⟩

/-- **`dfs` never returns** once it reaches a label on an export cycle: the
export loop runs before the depth check, so the cycle is followed at every
depth, each call one fuel deeper. -/
theorem dfs_eq_none_of_exportCycle {g : DepGraph} :
    ∀ {fuel : Nat} {s : String} {depth : Int} {v : String}, (v = s ∨ Reach g depth s v) →
      Relation.TransGen (ExportStep g) v v → dfs g fuel s depth = none
  | 0, _, _, _, _, _ => rfl
  | fuel + 1, s, depth, v, hv, hcyc => by
    obtain ⟨node, hn, c, hc, hcv⟩ := exists_call_toward_cycle hv hcyc
    have hnone : dfs g fuel c (depth - 1) = none := dfs_eq_none_of_exportCycle hcv hcyc
    rw [dfs_of_get?_some hn]
    rcases hc with hc | ⟨hd, hc⟩
    · rw [expand_eq_none.mpr ⟨c, hc, hnone⟩, Option.none_bind]
    · cases expand (fun e => dfs g fuel e (depth - 1)) node.exports with
      | none => rfl
      | some ex =>
        rw [Option.some_bind, if_neg (by omega), if_neg (by omega),
          expand_eq_none.mpr ⟨c, hc, hnone⟩, Option.map_none']

/-- Out of fuel at `depth.toNat + |keys| + 1`, `dfs` was following an export
cycle. -/
theorem reachesExportCycle_of_dfs_none {g : DepGraph} {target : String} {depth : Int}
    (h : dfs g (depth.toNat + g.keys.length + 1) target depth = none) :
    ReachesExportCycle g depth target := by
  obtain ⟨w, hw0, hw⟩ := walk_of_dfs_none h
  obtain ⟨i, hi, hc⟩ := exists_cycle_of_walk (fun _ _ => mem_keys_of_exportStep)
    (isWalk_exports hw) (by rw [card_keys]; omega)
  refine ⟨_, ?_, hc⟩
  rcases Nat.eq_zero_or_pos (depth.toNat + i) with h0 | hpos
  · exact .inl (by rw [h0, hw0])
  · exact .inr ⟨depth.toNat + i, w, hw0, rfl, fun j hj => hw j (by omega), .inl hpos⟩

/-- **When `dfs` returns.** On every graph, from every target and at every
depth, `dfs` returns exactly when it reaches no export cycle, and then within
`depth.toNat + |keys| + 1` nested calls. -/
theorem dfs_terminates_iff (g : DepGraph) (target : String) (depth : Int) :
    ((∃ fuel, (dfs g fuel target depth).isSome) ↔ ¬ ReachesExportCycle g depth target) ∧
      (¬ ReachesExportCycle g depth target →
        (dfs g (depth.toNat + g.keys.length + 1) target depth).isSome) := by
  have hbound : ¬ ReachesExportCycle g depth target →
      (dfs g (depth.toNat + g.keys.length + 1) target depth).isSome := fun hno =>
    Option.isSome_iff_ne_none.mpr fun hn => hno (reachesExportCycle_of_dfs_none hn)
  refine ⟨⟨?_, fun hno => ⟨_, hbound hno⟩⟩, hbound⟩
  rintro ⟨fuel, hfuel⟩ ⟨v, hv, hcyc⟩
  rw [dfs_eq_none_of_exportCycle hv hcyc] at hfuel
  cases hfuel

/-- `transform_bazel_query_results` copies `exports` unfiltered, so a rule that exports itself, or two rules that export each other,
give a graph on which `dfs` never returns, at any depth. -/
theorem dfs_export_cycle_never_returns :
    let selfExport := transformBazelQueryResults
      [⟨"RULE", ⟨"//a:a", "java_library", [⟨"exports", some ["//a:a"]⟩], []⟩⟩]
    let mutualExport := transformBazelQueryResults
      [⟨"RULE", ⟨"//a:a", "java_library", [⟨"exports", some ["//b:b"]⟩], []⟩⟩,
        ⟨"RULE", ⟨"//b:b", "java_library", [⟨"exports", some ["//a:a"]⟩], []⟩⟩]
    (∀ fuel depth, dfs selfExport fuel "//a:a" depth = none) ∧
      ∀ fuel depth, dfs mutualExport fuel "//a:a" depth = none := by
  intro selfExport mutualExport
  refine ⟨fun _ _ => dfs_eq_none_of_exportCycle (.inl rfl) (.single ⟨_, rfl, ?_⟩),
    fun _ _ => dfs_eq_none_of_exportCycle (.inl rfl)
      (.tail (.single (⟨_, rfl, ?_⟩ : ExportStep mutualExport "//a:a" "//b:b")) ⟨_, rfl, ?_⟩)⟩ <;>
    decide

end ScipSync.Graph.Dfs
