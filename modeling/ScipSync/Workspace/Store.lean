import ScipSync.Basic.Dict
import ScipSync.Basic.Text

/-! `ScipWorkspace` (workspace.py): files point at links by id, and every link
gets the next id of one counter shared by both link types.

A client calls `add_link`, `add_file`, `get_file`, `get_link` and `clear` in
any order, passing `add_file` only ids it was handed by `add_link` for the same
type since the last `clear` (`Session`). Along every such run the link ids of
the two types are together exactly `str(1), ..., str(_last_link_id)`, each
once, and every id a file holds names a link of its type (`Inv`). So `add_link`
always hands out a fresh id and never touches an existing link. -/

namespace ScipSync.Workspace.Store
open ScipSync.Basic.Dict ScipSync.Basic.Text

/-- `WorkspaceLinkType`. -/
inductive WorkspaceLinkType
  | javaManifest
  | bazelTarget
deriving Repr, DecidableEq

/-- `link_type.name`, the key a link type has in `files` and `links`. -/
def WorkspaceLinkType.name : WorkspaceLinkType → String
  | .javaManifest => "JAVA_MANIFEST"
  | .bazelTarget => "BAZEL_TARGET"

theorem WorkspaceLinkType.name_inj {t t' : WorkspaceLinkType} : t.name = t'.name ↔ t = t' := by
  cases t <;> cases t' <;> decide

/-- `ScipWorkspace`: file to link-type name to link id; link-type name to link id
to link; and the last id handed out. -/
structure ScipWorkspace where
  files : PyDict String (PyDict String String)
  links : PyDict String (PyDict String String)
  lastLinkId : Nat
deriving DecidableEq

namespace ScipWorkspace

/-- `ScipWorkspace()`. -/
def empty : ScipWorkspace := ⟨PyDict.empty, PyDict.empty, 0⟩

/-- `add_file`. The ids passed are those `add_link` returned, which are strings,
and `str` of a string is itself. -/
def addFile (w : ScipWorkspace) (file linkId : String) (linkType : WorkspaceLinkType) :
    ScipWorkspace :=
  { w with files := w.files.set file ((w.files.getD file PyDict.empty).set linkType.name linkId) }

/-- `get_file`. -/
def getFile (w : ScipWorkspace) (file : String) : Option (PyDict String String) :=
  w.files.get? file

/-- `add_link`: the id it returns, and the workspace after. -/
def addLink (w : ScipWorkspace) (link : String) (linkType : WorkspaceLinkType) :
    String × ScipWorkspace :=
  let lastLinkId := w.lastLinkId + 1
  let id := toString lastLinkId
  let typeLinks := (w.links.getD linkType.name PyDict.empty).set id link
  (id, { w with links := w.links.set linkType.name typeLinks, lastLinkId := lastLinkId })

/-- `get_link`. -/
def getLink (w : ScipWorkspace) (linkId : String) (linkType : WorkspaceLinkType) :
    Option String :=
  (w.links.getD linkType.name PyDict.empty).get? linkId

/-- `clear`. -/
def clear (_ : ScipWorkspace) : ScipWorkspace := empty

/-- The ids of the links of one type. -/
def linkIds (w : ScipWorkspace) (t : WorkspaceLinkType) : List String :=
  (w.links.getD t.name PyDict.empty).keys

theorem linkIds_addLink (w : ScipWorkspace) (link : String) (t t' : WorkspaceLinkType) :
    (w.addLink link t).2.linkIds t' =
      if t' = t then ((w.links.getD t.name PyDict.empty).set (w.addLink link t).1 link).keys
      else w.linkIds t' := by
  simp only [linkIds, addLink, PyDict.getD_set, WorkspaceLinkType.name_inj]
  split <;> rfl

theorem getLink_addLink (w : ScipWorkspace) (link : String) (t t' : WorkspaceLinkType)
    (k : String) : (w.addLink link t).2.getLink k t' =
      if t' = t ∧ k = (w.addLink link t).1 then some link else w.getLink k t' := by
  simp only [getLink, addLink, PyDict.getD_set, WorkspaceLinkType.name_inj]
  by_cases ht : t' = t
  · subst ht; simp only [if_true, PyDict.get?_set, true_and]
  · simp only [ht, if_false, false_and]

theorem mem_linkIds_of_getLink {w : ScipWorkspace} {k : String} {t : WorkspaceLinkType}
    {link : String} (h : w.getLink k t = some link) : k ∈ w.linkIds t :=
  PyDict.mem_keys_iff.mpr (by rw [getLink] at h; rw [h]; rfl)

theorem getFile_addFile (w : ScipWorkspace) (file linkId : String) (t : WorkspaceLinkType)
    (f : String) : (w.addFile file linkId t).getFile f =
      if f = file then some ((w.files.getD file PyDict.empty).set t.name linkId) else w.getFile f :=
  PyDict.get?_set _ _ _ _

@[simp] theorem links_addFile (w : ScipWorkspace) (file linkId : String) (t : WorkspaceLinkType) :
    (w.addFile file linkId t).links = w.links := rfl

@[simp] theorem lastLinkId_addFile (w : ScipWorkspace) (file linkId : String)
    (t : WorkspaceLinkType) : (w.addFile file linkId t).lastLinkId = w.lastLinkId := rfl

end ScipWorkspace

/-! ## Client runs -/

/-- The calls a client makes. -/
inductive Op
  | addLink (link : String) (linkType : WorkspaceLinkType)
  | addFile (file linkId : String) (linkType : WorkspaceLinkType)
  | getFile (file : String)
  | getLink (linkId : String) (linkType : WorkspaceLinkType)
  | clear
deriving Repr, DecidableEq

/-- A client's workspace, with the ids `add_link` handed it since the last
`clear` and their types. -/
structure Session where
  workspace : ScipWorkspace
  issued : List (String × WorkspaceLinkType)

/-- One call. A client passes `add_file` only an id it was handed for the same
type; any other `add_file` is outside the runs considered (`none`). -/
def Session.step (s : Session) : Op → Option Session
  | .addLink link t =>
    let (id, w) := s.workspace.addLink link t
    some ⟨w, (id, t) :: s.issued⟩
  | .addFile f id t =>
    if (id, t) ∈ s.issued then some ⟨s.workspace.addFile f id t, s.issued⟩ else none
  | .getFile _ => some s
  | .getLink _ _ => some s
  | .clear => some ⟨s.workspace.clear, []⟩

/-- A session that has made no call. -/
def Session.empty : Session := ⟨ScipWorkspace.empty, []⟩

/-- The calls `ops`, in order. -/
def Session.run (s : Session) (ops : List Op) : Option Session :=
  ops.foldlM Session.step s

/-! ## The invariant -/

open ScipWorkspace

/-- The link ids of the two types together are `str(1), ..., str(_last_link_id)`,
each once. -/
def IdsExact (w : ScipWorkspace) : Prop :=
  (w.linkIds .bazelTarget ++ w.linkIds .javaManifest).Perm
    ((List.range w.lastLinkId).map fun i => toString (i + 1))

/-- Every id a file holds names a link of its type. -/
def FilesLinked (w : ScipWorkspace) : Prop :=
  ∀ f fileLinks, w.files.get? f = some fileLinks →
    ∀ t id, fileLinks.get? t.name = some id → id ∈ w.linkIds t

theorem FilesLinked.getD {w : ScipWorkspace} (h : FilesLinked w) {f : String}
    {t : WorkspaceLinkType} {id : String}
    (hid : (w.files.getD f PyDict.empty).get? t.name = some id) : id ∈ w.linkIds t := by
  cases hf : w.files.get? f with
  | none => simp [PyDict.getD, hf] at hid
  | some fl => exact h f fl hf t id (by simpa [PyDict.getD, hf] using hid)

/-- What holds after every call of a client run. -/
structure Inv (s : Session) : Prop where
  ids : IdsExact s.workspace
  files : FilesLinked s.workspace
  issued : ∀ p ∈ s.issued, p.1 ∈ s.workspace.linkIds p.2

theorem linkIds_subset {w : ScipWorkspace} (h : IdsExact w) (t : WorkspaceLinkType) {id : String}
    (hid : id ∈ w.linkIds t) : ∃ i < w.lastLinkId, id = toString (i + 1) := by
  have hmem : id ∈ w.linkIds .bazelTarget ++ w.linkIds .javaManifest := by
    cases t
    · exact List.mem_append_right _ hid
    · exact List.mem_append_left _ hid
  obtain ⟨i, hi, rfl⟩ := List.mem_map.mp (h.subset hmem)
  exact ⟨i, List.mem_range.mp hi, rfl⟩

/-- **`add_link` hands out a fresh id**: `str(_last_link_id + 1)` is no link's id. -/
theorem addLink_fresh {w : ScipWorkspace} (h : IdsExact w) (link : String)
    (t t' : WorkspaceLinkType) : (w.addLink link t).1 ∉ w.linkIds t' := by
  intro hmem
  obtain ⟨i, hi, heq⟩ := linkIds_subset h t' hmem
  have := toString_injective heq
  omega

theorem idsExact_addLink {w : ScipWorkspace} (h : IdsExact w) (link : String)
    (t : WorkspaceLinkType) : IdsExact (w.addLink link t).2 := by
  have hkeys : ((w.links.getD t.name PyDict.empty).set (w.addLink link t).1 link).keys =
      w.linkIds t ++ [(w.addLink link t).1] := by
    rw [PyDict.keys_set]; exact if_neg (addLink_fresh h link t t)
  have hrange : (List.range (w.addLink link t).2.lastLinkId).map (fun i => toString (i + 1)) =
      (List.range w.lastLinkId).map (fun i => toString (i + 1)) ++ [(w.addLink link t).1] := by
    simp only [addLink, List.range_succ, List.map_append, List.map_singleton]
  unfold IdsExact
  rw [hrange, linkIds_addLink, linkIds_addLink]
  cases t
  · simp only [↓reduceIte, reduceCtorEq, hkeys]
    rw [← List.append_assoc]
    exact h.append_right _
  · simp only [↓reduceIte, reduceCtorEq, hkeys, List.append_assoc]
    exact ((List.perm_append_comm.append_left _).trans (by
      rw [← List.append_assoc]; exact h.append_right _))

theorem linkIds_addLink_mono (w : ScipWorkspace) (link : String) (t t' : WorkspaceLinkType)
    {id : String} (hid : id ∈ w.linkIds t') : id ∈ (w.addLink link t).2.linkIds t' := by
  rw [linkIds_addLink]
  split
  · subst_vars
    exact PyDict.mem_keys_set.mpr (.inr hid)
  · exact hid

theorem mem_linkIds_addLink (w : ScipWorkspace) (link : String) (t : WorkspaceLinkType) :
    (w.addLink link t).1 ∈ (w.addLink link t).2.linkIds t := by
  rw [linkIds_addLink, if_pos rfl]
  exact PyDict.mem_keys_set.mpr (.inl rfl)

/-- Every call of a client run keeps the invariant. -/
theorem inv_step {s s' : Session} {op : Op} (hinv : Inv s) (h : s.step op = some s') :
    Inv s' := by
  cases op with
  | addLink link t =>
    obtain rfl : s' = ⟨(s.workspace.addLink link t).2, ((s.workspace.addLink link t).1, t) ::
        s.issued⟩ := (Option.some.inj h).symm
    refine ⟨idsExact_addLink hinv.ids link t, ?_, ?_⟩
    · intro f fl hf t' id hid
      exact linkIds_addLink_mono _ link t t' (hinv.files f fl hf t' id hid)
    · rintro p (_ | ⟨_, hp⟩)
      · exact mem_linkIds_addLink _ link t
      · exact linkIds_addLink_mono _ link t _ (hinv.issued p hp)
  | addFile f id t =>
    simp only [Session.step] at h
    split_ifs at h with hissued
    cases h
    refine ⟨hinv.ids, ?_, hinv.issued⟩
    intro f' fl hf t' id' hid
    simp only [addFile, PyDict.get?_set] at hf
    split_ifs at hf with hff
    · cases hf
      rw [PyDict.get?_set] at hid
      split_ifs at hid with htt
      · cases hid
        rw [WorkspaceLinkType.name_inj.mp htt]
        exact hinv.issued _ hissued
      · exact hinv.files.getD hid
    · exact hinv.files f' fl hf t' id' hid
  | getFile _ => cases h; exact hinv
  | getLink _ _ => cases h; exact hinv
  | clear =>
    cases h
    refine ⟨List.Perm.refl _, ?_, fun _ h => nomatch h⟩
    intro f fl hf
    cases hf

theorem inv_empty : Inv Session.empty :=
  ⟨List.Perm.refl _, (fun _ _ h => by cases h), fun _ h => by cases h⟩

/-- The invariant holds after every run of calls from a state where it holds. -/
theorem inv_run : ∀ (ops : List Op) {s s' : Session}, Inv s → s.run ops = some s' → Inv s'
  | [], _, _, hinv, h => by cases h; exact hinv
  | op :: ops, s, _, hinv, h => by
    simp only [Session.run, List.foldlM_cons] at h
    cases h1 : s.step op with
    | none => rw [h1] at h; cases h
    | some s1 => rw [h1] at h; exact inv_run ops (inv_step hinv h1) h

theorem getLink_isSome {w : ScipWorkspace} {k v : String} {t : WorkspaceLinkType}
    (h : w.getLink k t = some v) : k ∈ w.linkIds t :=
  PyDict.mem_keys_iff.mpr (by simp [getLink] at h; simp [h])

/-- **After every client run**, the link ids of the two types are together
`str(1), ..., str(_last_link_id)`, each once; the next `add_link` of either type
returns an id no link has and keeps every link; and every id a file holds is a
link of its type. -/
theorem session_run_invariant (ops : List Op) {s : Session}
    (h : Session.empty.run ops = some s) :
    IdsExact s.workspace ∧
    (∀ link t, (∀ t', (s.workspace.addLink link t).1 ∉ s.workspace.linkIds t') ∧
      ∀ t' k v, s.workspace.getLink k t' = some v →
        (s.workspace.addLink link t).2.getLink k t' = some v) ∧
    FilesLinked s.workspace := by
  have hinv := inv_run ops inv_empty h
  refine ⟨hinv.ids, fun link t => ⟨addLink_fresh hinv.ids link t, ?_⟩, hinv.files⟩
  intro t' k v hk
  rw [getLink_addLink, if_neg, hk]
  rintro ⟨-, rfl⟩
  exact addLink_fresh hinv.ids link t t' (getLink_isSome hk)

theorem session_run_invariant_sample :
    let ops : List Op := [.addLink "//app:lib" .bazelTarget, .addLink "lib_options" .javaManifest,
      .addFile "App.java" "1" .bazelTarget, .addFile "App.java" "2" .javaManifest,
      .getFile "App.java", .clear, .addLink "//app:test" .bazelTarget]
    ∃ s, Session.empty.run ops = some s ∧ IdsExact s.workspace ∧ FilesLinked s.workspace := by
  intro ops
  obtain ⟨s, hs⟩ : ∃ s, Session.empty.run ops = some s := ⟨_, rfl⟩
  exact ⟨s, hs, (session_run_invariant ops hs).1, (session_run_invariant ops hs).2.2⟩

end ScipSync.Workspace.Store
