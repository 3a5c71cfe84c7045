import ScipSync.Basic.Dict

/-! The build-graph query result and `transform_bazel_query_results`
(scip_utils.py). A query result is a list of records tagged by `type`; only
`RULE` records count. A first pass collects the rule names; a second turns
each rule into a `DependencyNode`, keeping in `direct_deps` and `deps` only
labels that are not external (`@...`) and name a rule of the same result, and
copying `exports` unfiltered. A later record of the same name replaces an
earlier one (`res[name] = info`), so each name holds the `info` of its last
`RULE` record (`get?_transformBazelQueryResults`): the keys are the rule names,
and every direct dep and every dep is a key (`transformBazelQueryResults_spec`). -/

namespace ScipSync.Graph.Transform
open ScipSync.Basic.Dict

/-- An entry of a rule's `attribute` list. `stringListValue` is `none` when the
key is absent, and such an attribute is skipped. -/
structure Attribute where
  name : String
  stringListValue : Option (List String)
deriving Repr, DecidableEq

/-- The `rule` object of a record. An absent `attribute` or `ruleInput` key reads
as `[]` (`rule.get(..., [])`). -/
structure Rule where
  name : String
  ruleClass : String
  «attribute» : List Attribute
  ruleInput : List String
deriving Repr, DecidableEq

/-- One record of the query result. -/
structure QueryRecord where
  type : String
  rule : Rule
deriving Repr, DecidableEq

/-- The value stored for a target: `info` of `transform_bazel_query_results`. -/
structure DependencyNode where
  basePath : String
  deps : List String
  directDeps : List String
  exports : List String
  targetType : String
deriving Repr, DecidableEq

/-- A transformed graph: target label to node. -/
abbrev DepGraph := PyDict String DependencyNode

/-- `rules`: the names of the `RULE` records. -/
def ruleNames (qr : List QueryRecord) : List String :=
  (qr.filter fun target => target.type = "RULE").map fun target => target.rule.name

/-- The filter on `ruleInput` and on `deps`/`data` values. -/
def keepDep (rules : List String) (dep : String) : Bool :=
  !dep.startsWith "@" && decide (dep ∈ rules)

/-- One iteration of `for attr in rule.get("attribute", [])`, on the pair
`(deps, e_deps)`. -/
def attributeStep (rules : List String) (acc : List String × List String) (attr : Attribute) :
    List String × List String :=
  match attr.stringListValue with
  | none => acc
  | some values =>
    let deps := if attr.name = "deps" then acc.1 ++ values.filter (keepDep rules) else acc.1
    let deps := if attr.name = "data" then deps ++ values.filter (keepDep rules) else deps
    let eDeps := if attr.name = "exports" then values else acc.2
    (deps, eDeps)

/-- `info` for one rule. `deps` is `list(set(deps))`: the same labels, each once. -/
def ruleInfo (rules : List String) (rule : Rule) : DependencyNode :=
  let (deps, eDeps) := rule.«attribute».foldl (attributeStep rules) ([], [])
  { basePath := (((rule.name.splitOn ":").headD "").drop 2)
    deps := deps.eraseDups
    directDeps := rule.ruleInput.filter (keepDep rules)
    exports := eDeps
    targetType := rule.ruleClass }

/-- `transform_bazel_query_results`. -/
def transformBazelQueryResults (qr : List QueryRecord) : DepGraph :=
  let rules := ruleNames qr
  qr.foldl (fun res target =>
    if target.type ≠ "RULE" then res else res.set target.rule.name (ruleInfo rules target.rule))
    PyDict.empty

/-! ## What the transformed graph holds -/

/-- The last `RULE` record named `n`: the one whose `info` the result keeps. -/
def lastRule (qr : List QueryRecord) (n : String) : Option Rule :=
  ((qr.filter fun t => t.type = "RULE" ∧ t.rule.name = n).map (·.rule)).getLast?

theorem lastRule_append_singleton (qr : List QueryRecord) (t : QueryRecord) (n : String) :
    lastRule (qr ++ [t]) n = if t.type = "RULE" ∧ t.rule.name = n then some t.rule else lastRule qr n := by
  by_cases h : t.type = "RULE" ∧ t.rule.name = n
  · rw [if_pos h, lastRule, List.filter_append, List.filter_singleton, decide_eq_true h, cond_true,
      List.map_append, List.map_singleton, List.getLast?_concat]
  · rw [if_neg h, lastRule, List.filter_append, List.filter_singleton, decide_eq_false h, cond_false,
      List.append_nil]
    rfl

theorem lastRule_isSome (qr : List QueryRecord) (n : String) :
    (lastRule qr n).isSome ↔ n ∈ ruleNames qr := by
  simp only [lastRule, ruleNames, List.getLast?_isSome, ne_eq, List.map_eq_nil_iff,
    List.filter_eq_nil_iff, List.mem_map, List.mem_filter, decide_eq_true_eq, not_forall, not_not]
  constructor
  · rintro ⟨t, ht, h1, h2⟩; exact ⟨t, ⟨ht, h1⟩, h2⟩
  · rintro ⟨t, ⟨ht, h1⟩, h2⟩; exact ⟨t, ht, h1, h2⟩

/-- Each name holds the `info` of its last `RULE` record, and no other name is
a key. -/
theorem get?_transformBazelQueryResults (qr : List QueryRecord) (n : String) :
    (transformBazelQueryResults qr).get? n = (lastRule qr n).map (ruleInfo (ruleNames qr)) := by
  unfold transformBazelQueryResults
  generalize ruleNames qr = rules
  induction qr using List.reverseRecOn with
  | nil => rfl
  | append_singleton qr t ih =>
    rw [List.foldl_append, List.foldl_cons, List.foldl_nil, lastRule_append_singleton]
    by_cases hrule : t.type = "RULE"
    · rw [if_neg (not_not.mpr hrule), PyDict.get?_set]
      by_cases hn : n = t.rule.name
      · rw [if_pos hn, if_pos ⟨hrule, hn.symm⟩]; rfl
      · rw [if_neg hn, if_neg fun h => hn h.2.symm, ih]
    · rw [if_pos hrule, if_neg fun h => hrule h.1, ih]

/-- A kept label names a rule. -/
theorem mem_of_keepDep {rules : List String} {x : String} (h : keepDep rules x = true) :
    x ∈ rules := by
  simp only [keepDep, Bool.and_eq_true, decide_eq_true_eq] at h
  exact h.2

/-- `eraseDups` keeps every element once: what `list(set(deps))` keeps. -/
theorem mem_eraseDups_loop {α : Type} [BEq α] [LawfulBEq α] {x : α} :
    ∀ (as bs : List α), x ∈ List.eraseDups.loop as bs ↔ x ∈ as ∨ x ∈ bs
  | [], bs => by simp [List.eraseDups.loop]
  | a :: as, bs => by
    unfold List.eraseDups.loop
    cases h : bs.elem a with
    | true =>
      dsimp only
      rw [mem_eraseDups_loop as bs, List.mem_cons]
      by_cases hx : x = a
      · simp [hx, List.elem_iff.mp h]
      · simp [hx]
    | false =>
      dsimp only
      rw [mem_eraseDups_loop as (a :: bs), List.mem_cons, List.mem_cons]
      rw [or_assoc, or_left_comm]

theorem mem_eraseDups {α : Type} [BEq α] [LawfulBEq α] {x : α} {l : List α} :
    x ∈ l.eraseDups ↔ x ∈ l := by
  rw [List.eraseDups, mem_eraseDups_loop]
  simp

/-- One attribute adds to `deps` the kept values of a `deps` or `data` list. -/
theorem mem_attributeStep_fst (rules : List String) (acc : List String × List String)
    (a : Attribute) (x : String) :
    x ∈ (attributeStep rules acc a).1 ↔ x ∈ acc.1 ∨
      ((a.name = "deps" ∨ a.name = "data") ∧ ∃ vs, a.stringListValue = some vs ∧ x ∈ vs ∧
        keepDep rules x = true) := by
  unfold attributeStep
  cases a.stringListValue with
  | none => simp
  | some vs =>
    by_cases hdeps : a.name = "deps"
    · have hdata : a.name ≠ "data" := by rw [hdeps]; decide
      simp [hdeps, hdata, List.mem_filter, and_comm]
    · by_cases hdata : a.name = "data" <;> simp [hdeps, hdata, List.mem_filter, and_comm]

theorem mem_foldl_attributeStep (rules : List String) (x : String) :
    ∀ (attrs : List Attribute) (acc : List String × List String),
      x ∈ (attrs.foldl (attributeStep rules) acc).1 ↔ x ∈ acc.1 ∨
        ∃ a ∈ attrs, (a.name = "deps" ∨ a.name = "data") ∧ ∃ vs, a.stringListValue = some vs ∧
          x ∈ vs ∧ keepDep rules x = true
  | [], acc => by simp
  | a :: attrs, acc => by
    rw [List.foldl_cons, mem_foldl_attributeStep rules x attrs, mem_attributeStep_fst, or_assoc]
    simp only [List.mem_cons, or_and_right, exists_or, exists_eq_left]

/-- `deps` of a rule's `info`: the kept values of its `deps` and `data` lists. -/
theorem mem_ruleInfo_deps (rules : List String) (r : Rule) (x : String) :
    x ∈ (ruleInfo rules r).deps ↔ ∃ a ∈ r.«attribute», (a.name = "deps" ∨ a.name = "data") ∧
      ∃ vs, a.stringListValue = some vs ∧ x ∈ vs ∧ keepDep rules x = true := by
  show x ∈ (r.«attribute».foldl (attributeStep rules) ([], [])).1.eraseDups ↔ _
  rw [mem_eraseDups, mem_foldl_attributeStep]
  simp

/-- **The transformed graph.** Its keys are the `RULE` names. Each node is built
from the last `RULE` record of its name: `direct_deps` is that record's
`ruleInput` in order, kept where the label is not external and names a rule, and
`deps` holds exactly such labels listed in its `deps` and `data` attributes. So
every direct dep and every dep is a key. -/
theorem transformBazelQueryResults_spec (qr : List QueryRecord) :
    let g := transformBazelQueryResults qr
    (∀ n, n ∈ g.keys ↔ n ∈ ruleNames qr) ∧
    (∀ n r, lastRule qr n = some r → ∃ node, g.get? n = some node ∧
      node.directDeps = r.ruleInput.filter (fun d => ¬ d.startsWith "@" ∧ d ∈ ruleNames qr) ∧
      ∀ x, x ∈ node.deps ↔ x ∈ ruleNames qr ∧ ¬ x.startsWith "@" ∧
        ∃ a ∈ r.«attribute», (a.name = "deps" ∨ a.name = "data") ∧
          ∃ vs, a.stringListValue = some vs ∧ x ∈ vs) ∧
    (∀ n node, g.get? n = some node → ∀ x ∈ node.directDeps ++ node.deps, x ∈ g.keys) := by
  intro g
  have hkeys : ∀ n, n ∈ g.keys ↔ n ∈ ruleNames qr := fun n => by
    rw [PyDict.mem_keys_iff, get?_transformBazelQueryResults, Option.isSome_map', lastRule_isSome]
  refine ⟨hkeys, fun n r hr => ⟨_, by rw [get?_transformBazelQueryResults, hr]; rfl, ?_, fun x => ?_⟩,
    fun n node hn x hx => ?_⟩
  · exact List.filter_congr fun d _ => by simp [keepDep]
  · rw [mem_ruleInfo_deps]
    simp only [keepDep, Bool.and_eq_true, Bool.not_eq_true', decide_eq_true_eq]
    constructor
    · rintro ⟨a, ha, hname, vs, hvs, hx, h1, h2⟩
      exact ⟨h2, by simp [h1], a, ha, hname, vs, hvs, hx⟩
    · rintro ⟨h2, h1, a, ha, hname, vs, hvs, hx⟩
      exact ⟨a, ha, hname, vs, hvs, hx, by simpa using h1, h2⟩
  · rw [get?_transformBazelQueryResults] at hn
    obtain ⟨r, -, rfl⟩ := Option.map_eq_some'.mp hn
    rw [hkeys]
    rcases List.mem_append.mp hx with hx | hx
    · exact mem_of_keepDep (List.mem_filter.mp hx).2
    · obtain ⟨-, -, -, -, -, -, hkeep⟩ := (mem_ruleInfo_deps _ r x).mp hx
      exact mem_of_keepDep hkeep

end ScipSync.Graph.Transform
