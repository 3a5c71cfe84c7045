import ScipSync.Workspace.Store
import ScipSync.Workspace.Json

/-! The workspace on disk (workspace.py `write_workspace` and
`get_manifest_for_file`).

`write_workspace` dumps `asdict(workspace)` as the JSON text of
`workspace.json`; `get_manifest_for_file` loads that text and rebuilds the
workspace with `ScipWorkspace(**json_obj)`. The keys of a Python dict are
distinct, so the dumped value is well formed and the text reads back as it
was written (`Json.loads_dumps`). Rebuilding then gives every field back, so a
file's manifest is read from the written workspace exactly as from the one in
memory. -/

namespace ScipSync.Workspace.Persist
open ScipSync.Basic.Dict ScipSync.Workspace.Store ScipSync.Workspace.Json

/-! ## Writing -/

/-- A dict with string keys as a JSON object, each value by `val`. -/
def dictJson {ν : Type} (val : ν → Value) (d : PyDict String ν) : Value :=
  .obj (d.entries.map fun p => (p.1, val p.2))

/-- A `dict[str, dict[str, str]]` as JSON. -/
def tableJson : PyDict String (PyDict String String) → Value :=
  dictJson (dictJson .str)

/-- `asdict(workspace)`, fields in declaration order. -/
def toJson (w : ScipWorkspace) : Value :=
  .obj [("files", tableJson w.files), ("links", tableJson w.links),
    ("_last_link_id", .num w.lastLinkId)]

/-- `write_workspace`: the text of `workspace.json`. -/
def writeWorkspace (w : ScipWorkspace) : String := dumps (toJson w)

/-! ## Reading -/

/-- A JSON string's text. -/
def strOf : Value → Option String
  | .str s => some s
  | _ => none

/-- A JSON object as a dict, each value read by `val`. -/
def dictOf {ν : Type} (val : Value → Option ν) : Value → Option (PyDict String ν)
  | .obj fields => fields.foldlM (fun d p => (val p.2).map (d.set p.1)) PyDict.empty
  | _ => none

/-- One member of the object passed to `ScipWorkspace(**json_obj)`: it sets the
field of its name, and any other name raises `TypeError` (`none`). Python does
not check the value's type; a value of another shape than the field's has no
workspace in the model and is `none` too. -/
def setField (w : ScipWorkspace) (p : String × Value) : Option ScipWorkspace :=
  if p.1 = "files" then (dictOf (dictOf strOf) p.2).map fun d => { w with files := d }
  else if p.1 = "links" then (dictOf (dictOf strOf) p.2).map fun d => { w with links := d }
  else if p.1 = "_last_link_id" then
    match p.2 with
    | .num n => if 0 ≤ n then some { w with lastLinkId := n.toNat } else none
    | _ => none
  else none

/-- `ScipWorkspace(**json_obj)`: a field with no member keeps its default. -/
def ofJson : Value → Option ScipWorkspace
  | .obj fields => fields.foldlM setField ScipWorkspace.empty
  | _ => none

/-- `get_json` of `workspace.json`, then `ScipWorkspace(**json_obj)`; `none` when
either raises. -/
def readWorkspace (text : String) : Option ScipWorkspace := (loads text).bind ofJson

/-- `get_manifest_for_file`, given the text of `workspace.json` when it exists;
the outer `none` is an exception. An empty `file_links` is falsy, and
`get_link(None, ...)` finds no link. -/
def getManifestForFile (file : String) (workspaceJson : Option String) :
    Option (Option String) :=
  match workspaceJson with
  | none => some none
  | some text =>
    (readWorkspace text).map fun workspace =>
      match workspace.getFile file with
      | none => none
      | some fileLinks =>
        if fileLinks.entries = [] then none
        else (fileLinks.get? WorkspaceLinkType.javaManifest.name).bind fun manifestLink =>
          workspace.getLink manifestLink .javaManifest

/-! ## Reading back what was written -/

theorem foldlM_some {α β : Type} (g : β → α → β) {f : β → α → Option β} {l : List α}
    (h : ∀ b, ∀ x ∈ l, f b x = some (g b x)) (b : β) : l.foldlM f b = some (l.foldl g b) := by
  induction l generalizing b with
  | nil => rfl
  | cons x l ih =>
    rw [List.foldlM_cons, h b x (List.mem_cons_self _ _)]
    exact ih (fun b y hy => h b y (List.mem_cons_of_mem _ hy)) _

theorem dictOf_dictJson {ν : Type} {val : ν → Value} {read : Value → Option ν}
    (hread : ∀ v, read (val v) = some v) (d : PyDict String ν) :
    dictOf read (dictJson val d) = some d := by
  rw [dictJson, dictOf, List.foldlM_map,
    foldlM_some (fun d p => d.set p.1 p.2) (fun _ p _ => by rw [hread]; rfl)]
  congr 1
  exact PyDict.ext_entries (PyDict.entries_foldl_set d.nodup PyDict.empty (fun _ _ h => nomatch h))

theorem wf_dictJson {ν : Type} {val : ν → Value} (hval : ∀ v, WF (val v)) (d : PyDict String ν) :
    WF (dictJson val d) := by
  have hfields : ∀ l : List (String × ν), FieldsWF (l.map fun p => (p.1, val p.2)) := by
    intro l
    induction l with
    | nil => trivial
    | cons p l ih => exact ⟨hval p.2, ih⟩
  refine ⟨?_, hfields _⟩
  rw [List.map_map]
  exact d.nodup

theorem wf_toJson (w : ScipWorkspace) : WF (toJson w) := by
  have htable : ∀ t, WF (tableJson t) := wf_dictJson (wf_dictJson fun _ => trivial)
  exact ⟨show ["files", "links", "_last_link_id"].Nodup by decide, htable _, htable _, trivial,
    trivial⟩

theorem ofJson_toJson (w : ScipWorkspace) : ofJson (toJson w) = some w := by
  have htable : ∀ t, dictOf (dictOf strOf) (tableJson t) = some t :=
    dictOf_dictJson (dictOf_dictJson fun _ => rfl)
  simp only [ofJson, toJson, List.foldlM, setField, htable, Option.map_some', Option.some_bind]
  simp [Int.ofNat_zero_le]

/-- `get_json` reads back the workspace `write_workspace` wrote. -/
theorem readWorkspace_writeWorkspace (w : ScipWorkspace) :
    readWorkspace (writeWorkspace w) = some w := by
  rw [readWorkspace, writeWorkspace, loads_dumps _ (wf_toJson w), Option.some_bind, ofJson_toJson]

theorem getManifestForFile_writeWorkspace (w : ScipWorkspace) :
    readWorkspace (writeWorkspace w) = some w ∧
    ∀ file, getManifestForFile file (some (writeWorkspace w)) =
      some (((w.getFile file).bind fun fileLinks =>
        fileLinks.get? WorkspaceLinkType.javaManifest.name).bind fun manifestLink =>
          w.getLink manifestLink .javaManifest) := by
  refine ⟨readWorkspace_writeWorkspace w, fun file => ?_⟩
  rw [getManifestForFile, readWorkspace_writeWorkspace, Option.map_some']
  cases w.getFile file with
  | none => rfl
  | some fileLinks =>
    dsimp only
    by_cases hempty : fileLinks.entries = []
    · rw [if_pos hempty, Option.some_bind, PyDict.entries_eq_nil_iff.mp hempty]
      rfl
    · rw [if_neg hempty, Option.some_bind]

end ScipSync.Workspace.Persist
