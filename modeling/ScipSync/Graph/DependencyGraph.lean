import ScipSync.Graph.Dfs
import ScipSync.Basic.Text

/-! `get_dependency_graph` (scip_sync.py) from the query result on. Every seed
and every exclude becomes a regex (`mask`): `^<prefix>` for a recursive pattern
`<prefix>/...`, `^<label>$` otherwise. In deps mode the seeds are the keys of
the graph some seed mask finds, the result is the union of `dfs` from each of
them, minus what an exclude mask finds. In rdeps mode the result is the keys
whose `direct_deps` some seed mask finds and no exclude mask does.

`re.search` belongs to Python's library, so the matcher is a parameter
`search pattern item`; the query itself (`execute_query`) is the input
`queryResult`. -/

namespace ScipSync.Graph.DependencyGraph
open ScipSync.Basic.Dict ScipSync.Basic.Text ScipSync.Basic.Walk ScipSync.Graph.Transform
  ScipSync.Graph.Dfs

/-- The regex `get_dependency_graph` builds for a seed or an exclude. -/
def mask (target : String) : String :=
  if endsWith target "/..." then "^" ++ pyReplace target "/..." "" else "^" ++ target ++ "$"

/-- `filter_list_by_regex`: the items some pattern of `regexSet` finds. -/
def filterListByRegex (search : String → String → Bool) (listToFilter regexSet : List String) :
    List String :=
  listToFilter.filter fun item => regexSet.any fun pattern => search pattern item

/-- `for target in sanitized_targets: result.update(dfs(dep_graph, target, depth))`. -/
def unionDfs (depGraph : DepGraph) (fuel : Nat) (depth : Int) : List String → Option (List String)
  | [] => some []
  | target :: rest => do
    let r ← dfs depGraph fuel target depth
    let rs ← unionDfs depGraph fuel depth rest
    return r ++ rs

/-- `get_dependency_graph` on the query result, `dfs` given `fuel`. -/
def getDependencyGraph (search : String → String → Bool) (fuel : Nat)
    (queryResult : List QueryRecord) (targets : List String) (depth : Int)
    (excludeTargets : List String) (queryRdeps : Bool) : Option (List String) :=
  let depGraph := transformBazelQueryResults queryResult
  let masks := targets.map mask
  let excludeMasks := excludeTargets.map mask
  if queryRdeps then
    some (depGraph.entries.filterMap fun (key, node) =>
      if !(filterListByRegex search node.directDeps masks).isEmpty &&
          (filterListByRegex search node.directDeps excludeMasks).isEmpty
      then some key else none)
  else do
    let sanitizedTargets := filterListByRegex search depGraph.keys masks
    let result ← unionDfs depGraph fuel depth sanitizedTargets
    let excluded := filterListByRegex search result excludeMasks
    return result.filter fun x => x ∉ excluded

section
variable {search : String → String → Bool}

theorem mem_filterListByRegex {l patterns : List String} {x : String} :
    x ∈ filterListByRegex search l patterns ↔ x ∈ l ∧ ∃ p ∈ patterns, search p x = true := by
  simp [filterListByRegex]

theorem unionDfs_eq_none {g : DepGraph} {fuel : Nat} {depth : Int} {ts : List String} :
    unionDfs g fuel depth ts = none ↔ ∃ t ∈ ts, dfs g fuel t depth = none := by
  induction ts with
  | nil => simp [unionDfs]
  | cons t ts ih =>
    cases ht : dfs g fuel t depth <;> cases hs : unionDfs g fuel depth ts <;>
      simp_all [unionDfs]

theorem mem_unionDfs {g : DepGraph} {fuel : Nat} {depth : Int} {ts r : List String}
    (h : unionDfs g fuel depth ts = some r) {x : String} :
    x ∈ r ↔ ∃ t ∈ ts, (g.get? t).isSome ∧ Reach g depth t x := by
  induction ts generalizing r with
  | nil => simp_all [unionDfs]
  | cons t ts ih =>
    simp only [unionDfs, Option.bind_eq_bind, Option.bind_eq_some, Option.pure_def,
      Option.some.injEq] at h
    obtain ⟨rt, ht, rs, hs, rfl⟩ := h
    rw [List.mem_append, mem_dfs ht, ih hs]
    simp

theorem exists_mask_iff {ts : List String} {x : String} :
    (∃ p ∈ ts.map mask, search p x = true) ↔ ∃ t ∈ ts, search (mask t) x = true := by
  simp

variable {fuel : Nat} {queryResult : List QueryRecord} {targets excludeTargets : List String}
  {depth : Int}

/-- Whenever the deps mode returns, its result is the labels some selected seed
`Reach`es, minus the excluded ones. -/
theorem mem_getDependencyGraph_deps {r : List String}
    (h : getDependencyGraph search fuel queryResult targets depth excludeTargets false = some r)
    {x : String} :
    x ∈ r ↔ (∃ s ∈ (transformBazelQueryResults queryResult).keys,
        (∃ t ∈ targets, search (mask t) s = true) ∧
        Reach (transformBazelQueryResults queryResult) depth s x) ∧
      ¬ ∃ t ∈ excludeTargets, search (mask t) x = true := by
  simp only [getDependencyGraph, Bool.false_eq_true, if_false, Option.bind_eq_bind,
    Option.bind_eq_some, Option.pure_def, Option.some.injEq] at h
  obtain ⟨result, hres, rfl⟩ := h
  rw [List.mem_filter, decide_eq_true_iff, mem_filterListByRegex, mem_unionDfs hres,
    exists_mask_iff]
  constructor
  · rintro ⟨⟨s, hs, -, hr⟩, hx⟩
    rw [mem_filterListByRegex, exists_mask_iff] at hs
    exact ⟨⟨s, hs.1, hs.2, hr⟩, fun he => hx ⟨⟨s, by rwa [mem_filterListByRegex,
      exists_mask_iff], PyDict.mem_keys_iff.mp hs.1, hr⟩, he⟩⟩
  · rintro ⟨⟨s, hs, hsel, hr⟩, hx⟩
    refine ⟨⟨s, ?_, PyDict.mem_keys_iff.mp hs, hr⟩, fun he => hx he.2⟩
    rw [mem_filterListByRegex, exists_mask_iff]
    exact ⟨hs, hsel⟩

end

/-- The deps mode returns once the fuel passes `depth.toNat + |keys|`, when the
exports have no cycle among the keys. -/
theorem getDependencyGraph_deps_isSome (search : String → String → Bool)
    (queryResult : List QueryRecord) (targets excludeTargets : List String) (depth : Int)
    {fuel : Nat} (hacyc : ExportAcyclic (transformBazelQueryResults queryResult))
    (hfuel : depth.toNat + (transformBazelQueryResults queryResult).keys.length < fuel) :
    (getDependencyGraph search fuel queryResult targets depth excludeTargets false).isSome := by
  cases hu : unionDfs (transformBazelQueryResults queryResult) fuel depth
      (filterListByRegex search (transformBazelQueryResults queryResult).keys
        (targets.map mask)) with
  | none =>
    obtain ⟨t, -, ht⟩ := unionDfs_eq_none.mp hu
    have := @dfs_isSome _ hacyc fuel t depth hfuel
    simp [ht] at this
  | some r => simp [getDependencyGraph, hu]

/-! ## The deps-mode closure -/

/-- **Deps mode.** When the exports have no cycle among the keys of the
transformed graph, the deps mode returns; its result holds exactly the labels
some selected key `Reach`es at `depth`, minus those an exclude mask finds; and at
`depth ≤ 0` these are the selected keys (depth `0` only) and the ends of their
export chains. -/
theorem getDependencyGraph_deps_closure (search : String → String → Bool)
    (queryResult : List QueryRecord) (targets excludeTargets : List String) (depth : Int)
    (hacyc : ExportAcyclic (transformBazelQueryResults queryResult)) :
    (∃ fuel r, getDependencyGraph search fuel queryResult targets depth excludeTargets false =
      some r) ∧
    (∀ fuel r, getDependencyGraph search fuel queryResult targets depth excludeTargets false =
      some r → ∀ x, x ∈ r ↔
        (∃ s ∈ (transformBazelQueryResults queryResult).keys,
          (∃ t ∈ targets, search (mask t) s = true) ∧
          Reach (transformBazelQueryResults queryResult) depth s x) ∧
        ¬ ∃ t ∈ excludeTargets, search (mask t) x = true) ∧
    (depth ≤ 0 → ∀ fuel r, getDependencyGraph search fuel queryResult targets depth
      excludeTargets false = some r → ∀ x, x ∈ r ↔
        (∃ s ∈ (transformBazelQueryResults queryResult).keys,
          (∃ t ∈ targets, search (mask t) s = true) ∧
          ((0 ≤ depth ∧ x = s) ∨ ∃ k w, 1 ≤ k ∧ w 0 = s ∧ w k = x ∧
            IsWalk (ExportStep (transformBazelQueryResults queryResult)) k w)) ∧
        ¬ ∃ t ∈ excludeTargets, search (mask t) x = true) := by
  refine ⟨?_, fun _ _ h _ => mem_getDependencyGraph_deps h, fun hd _ _ h x => ?_⟩
  · obtain ⟨r, hr⟩ := Option.isSome_iff_exists.mp (getDependencyGraph_deps_isSome search
      queryResult targets excludeTargets depth hacyc (Nat.lt_succ_self _))
    exact ⟨_, r, hr⟩
  · simp only [mem_getDependencyGraph_deps h, reach_iff_exports hd]

theorem getDependencyGraph_deps_closure_sample :
    ExportAcyclic (transformBazelQueryResults
      [⟨"RULE", ⟨"//a:t", "java_library", [⟨"exports", some ["//a:e"]⟩], ["//a:d"]⟩⟩,
       ⟨"RULE", ⟨"//a:e", "java_library", [], []⟩⟩,
       ⟨"RULE", ⟨"//a:d", "java_library", [], []⟩⟩]) ∧
    ∃ fuel r, getDependencyGraph (fun p x => decide (p = "^" ++ x ++ "$")) fuel
      [⟨"RULE", ⟨"//a:t", "java_library", [⟨"exports", some ["//a:e"]⟩], ["//a:d"]⟩⟩,
       ⟨"RULE", ⟨"//a:e", "java_library", [], []⟩⟩,
       ⟨"RULE", ⟨"//a:d", "java_library", [], []⟩⟩] ["//a:t"] 1 [] false = some r :=
  have h := exportAcyclic_of_rank (fun v => if v = "//a:t" then 1 else 0) (by decide)
  ⟨h, (getDependencyGraph_deps_closure _ _ _ _ _ h).1⟩

/-- **Monotone in depth, stable from `|keys|` on.** When the exports have no
cycle among the keys, the deps mode returns at every depth; its result at
`depth` is contained in its result at `depth + 1`; and from `depth = |keys|` on
it is the selected keys and every label they reach by exports and direct deps
through keys, minus the excluded labels. -/
theorem getDependencyGraph_deps_monotone (search : String → String → Bool)
    (queryResult : List QueryRecord) (targets excludeTargets : List String)
    (hacyc : ExportAcyclic (transformBazelQueryResults queryResult)) :
    (∀ depth, ∃ fuel r, getDependencyGraph search fuel queryResult targets depth
      excludeTargets false = some r) ∧
    (∀ depth fuel fuel' r r',
      getDependencyGraph search fuel queryResult targets depth excludeTargets false = some r →
      getDependencyGraph search fuel' queryResult targets (depth + 1) excludeTargets false =
        some r' → ∀ x ∈ r, x ∈ r') ∧
    (∀ depth fuel r, ((transformBazelQueryResults queryResult).keys.length : Int) ≤ depth →
      getDependencyGraph search fuel queryResult targets depth excludeTargets false = some r →
      ∀ x, x ∈ r ↔
        (∃ s ∈ (transformBazelQueryResults queryResult).keys,
          (∃ t ∈ targets, search (mask t) s = true) ∧
          ∃ k w, w 0 = s ∧ w k = x ∧
            IsWalk (DepStep (transformBazelQueryResults queryResult)) k w) ∧
        ¬ ∃ t ∈ excludeTargets, search (mask t) x = true) := by
  refine ⟨fun depth => ?_, fun depth _ _ _ _ h h' x hx => ?_, fun depth _ _ hd h x => ?_⟩
  · obtain ⟨r, hr⟩ := Option.isSome_iff_exists.mp (getDependencyGraph_deps_isSome search
      queryResult targets excludeTargets depth hacyc (Nat.lt_succ_self _))
    exact ⟨_, r, hr⟩
  · obtain ⟨⟨s, hs, hsel, hr⟩, hx⟩ := (mem_getDependencyGraph_deps h).mp hx
    exact (mem_getDependencyGraph_deps h').mpr ⟨⟨s, hs, hsel, reach_succ hr⟩, hx⟩
  · simp only [mem_getDependencyGraph_deps h, reach_iff_walk hd]

theorem getDependencyGraph_deps_monotone_sample :
    ExportAcyclic (transformBazelQueryResults
      [⟨"RULE", ⟨"//a:t", "java_library", [⟨"exports", some ["//a:e"]⟩], ["//a:d"]⟩⟩,
       ⟨"RULE", ⟨"//a:e", "java_library", [], []⟩⟩,
       ⟨"RULE", ⟨"//a:d", "java_library", [], []⟩⟩]) ∧
    ∀ depth, ∃ fuel r, getDependencyGraph (fun p x => decide (p = "^" ++ x ++ "$")) fuel
      [⟨"RULE", ⟨"//a:t", "java_library", [⟨"exports", some ["//a:e"]⟩], ["//a:d"]⟩⟩,
       ⟨"RULE", ⟨"//a:e", "java_library", [], []⟩⟩,
       ⟨"RULE", ⟨"//a:d", "java_library", [], []⟩⟩] ["//a:t"] depth [] false = some r :=
  have h := exportAcyclic_of_rank (fun v => if v = "//a:t" then 1 else 0) (by decide)
  ⟨h, (getDependencyGraph_deps_monotone _ _ _ _ h).1⟩

end ScipSync.Graph.DependencyGraph
