import Mathlib.Data.List.Pairwise
import ScipSync.Basic.Dict
import ScipSync.Basic.Text

/-! `copy_index` (scip_utils.py): bring the cache directory `.scip` in line with
the SCIP indexes of a sync.

The call runs in three phases on one thread pool. It reads the current status
of the cache: each `.scip` entry with the stripped text of its `.sha256`
sidecar, when that text is not empty. It then copies each artifact and its
sidecar under the artifact's cache name, unless the status holds that name
with the same sidecar text, and keeps the names of every artifact processed
without error. Last it removes every entry it did not keep, except
`workspace.json` and the JDK indexes.

Each worker of the second phase touches only its artifact's two names, and
each worker of the third only the entry it removes. So when the artifacts'
names are distinct the operations touch pairwise distinct entries, and every
order the pool runs them in leaves the same directory (`get?_run_of_mem`): the
model lets `order` be any permutation.

Reading a sidecar that is a directory raises, before any change; `shutil.copy`
onto a directory copies into it, which leaves the entry a directory. -/

namespace ScipSync.Cache.CopyIndex
open ScipSync.Basic.Dict ScipSync.Basic.Text

/-! ## The cache directory -/

/-- An entry of the cache directory: a file with its text, or a directory. -/
inductive Entry
  | file (text : String)
  | dir
deriving DecidableEq, Repr

/-- `scip_const.SHA256_FILE_SUFFIX`. -/
def sha256FileSuffix : String := ".sha256"

/-- `scip_const.WORKSPACE_FILE_NAME`. -/
def workspaceFileName : String := "workspace.json"

/-- `scip_const.JDK_SCIP_FILE_PREFIX`. -/
def jdkScipFilePrefix : String := "jdk_temurin"

/-- What a worker does to the cache directory. -/
inductive FsOp
  /-- `shutil.copy` of a file with text `text` to the entry `name`. -/
  | copy (name text : String)
  /-- `os.remove`, or `shutil.rmtree` for a directory, of the entry `name`. -/
  | remove (name : String)
deriving DecidableEq, Repr

/-- The entry an operation touches. -/
def FsOp.name : FsOp → String
  | .copy name _ => name
  | .remove name => name

/-- What an operation leaves at its entry. -/
def FsOp.effect : FsOp → Option Entry → Option Entry
  | .copy _ _, some .dir => some .dir
  | .copy _ text, _ => some (.file text)
  | .remove _, _ => none

/-- Run one operation. -/
def FsOp.apply (dest : PyDict String Entry) (op : FsOp) : PyDict String Entry :=
  match op.effect (dest.get? op.name) with
  | some e => dest.set op.name e
  | none => dest.erase op.name

/-! ## Names and sidecars -/

/-- The last piece of `path.split("/bin/")`, where `piece` is what was read
since the last separator, reversed. -/
def lastBinPiece : List Char → List Char → List Char
  | _, '/' :: 'b' :: 'i' :: 'n' :: '/' :: rest => lastBinPiece [] rest
  | piece, c :: rest => lastBinPiece (c :: piece) rest
  | piece, [] => piece.reverse

/-- `s.replace(old, new)` for characters. -/
def replaceChar (old new : Char) (s : List Char) : List Char :=
  s.map fun c => if c = old then new else c

/-- `scip_index_name`: the artifact's path after the last `/bin/`, with `/` and
`-` made `_`. -/
def scipIndexName (sourcePath : String) : String :=
  ⟨replaceChar '-' '_' (replaceChar '/' '_' (lastBinPiece [] sourcePath.toList))⟩

/-- `get_sha256_for_file` on the artifact tree, where `artifactText p` is the
text of the file at `p` if it exists. -/
def artifactSha (artifactText : String → Option String) (path : String) : Option String :=
  (artifactText path).map readStripped

/-- `get_sha256_for_file` on an entry of the cache; the outer `none` is the
`IsADirectoryError` it raises on a directory. -/
def entrySha : Option Entry → Option (Option String)
  | none => some none
  | some (.file text) => some (some (readStripped text))
  | some .dir => none

/-- `get_current_status`; the outer `none` is an exception, and `some none` the
pair `(None, None)` of an entry with a missing or empty sidecar. -/
def getCurrentStatus (dest : PyDict String Entry) (filename : String) :
    Option (Option (String × String)) :=
  if endsWith filename ".scip" = false then some none
  else (entrySha (dest.get? (filename ++ sha256FileSuffix))).map fun sha =>
    match sha with
    | some sha => if sha = "" then none else some (filename, sha)
    | none => none

/-- `current_status`, `dict(filter(None, executor.map(get_current_status, ...)))`
over the `.scip` entries; `none` when a worker raised. The pair `(None, None)`
that the filter keeps is the key `None`, which no index name equals, so it is
left out. -/
def currentStatusOf (dest : PyDict String Entry) : Option (PyDict String String) :=
  ((dest.keys.filter fun f => endsWith f ".scip").mapM (getCurrentStatus dest)).map
    fun statuses => (statuses.filterMap id).foldl (fun d p => d.set p.1 p.2) PyDict.empty

/-! ## The call -/

/-- `process_and_copy_scip_index`: the pair it returns (`none` when it raised)
and the copies it made, in order. -/
def processAndCopyScipIndex (artifactText : String → Option String)
    (currentStatus : PyDict String String) (sourcePath : String) :
    Option (String × String) × List FsOp :=
  let sourceShaPath := sourcePath ++ sha256FileSuffix
  let indexName := scipIndexName sourcePath
  let newSha := artifactSha artifactText sourceShaPath
  let names := (indexName, indexName ++ sha256FileSuffix)
  if (currentStatus.get? indexName).isSome ∧ currentStatus.get? indexName = newSha then
    (some names, [])
  else
    match artifactText sourcePath with
    | none => (none, [])
    | some index =>
      match artifactText sourceShaPath with
      | none => (none, [.copy indexName index])
      | some sha => (some names, [.copy indexName index, .copy names.2 sha])

/-- The names the copy phase keeps: both names of every artifact processed
without error. -/
def filesToKeepOf (copyResults : List (Option (String × String) × List FsOp)) : List String :=
  (copyResults.filterMap (·.1)).flatMap fun pair => [pair.1, pair.2]

/-- The cleanup phase: remove every entry not kept, except `workspace.json` and
the JDK indexes. The directory after it, and the removals in the order run. -/
def cleanup (order : List FsOp → List FsOp) (filesToKeep : List String)
    (dest : PyDict String Entry) : PyDict String Entry × List FsOp :=
  let filesToDelete := dest.keys.filter fun f =>
    f ∉ filesToKeep ∧ f ≠ workspaceFileName ∧ startsWith f jdkScipFilePrefix = false
  let removals := order (filesToDelete.map .remove)
  (removals.foldl FsOp.apply dest, removals)

/-- `copy_index`: `none` when reading the current status raises, which happens
before any change; otherwise the cache directory after the call and the copies
and removals made. `indexToCopy` lists the set in its iteration order, and the
pool's workers run the operations of a phase in the order `order` gives them. -/
def copyIndex (artifactText : String → Option String) (order : List FsOp → List FsOp)
    (indexToCopy : List String) (dest : PyDict String Entry) :
    Option (PyDict String Entry × List FsOp) :=
  (currentStatusOf dest).map fun currentStatus =>
    let copyResults := indexToCopy.map (processAndCopyScipIndex artifactText currentStatus)
    let copies := order (copyResults.flatMap (·.2))
    let cleaned := cleanup order (filesToKeepOf copyResults) (copies.foldl FsOp.apply dest)
    (cleaned.1, copies ++ cleaned.2)

theorem get?_apply (dest : PyDict String Entry) (op : FsOp) (n : String) :
    (op.apply dest).get? n = if n = op.name then op.effect (dest.get? op.name) else dest.get? n := by
  unfold FsOp.apply
  split <;> rename_i h <;> by_cases hn : n = op.name <;> simp [hn, h]

/-- An entry that no operation touches keeps its value. -/
theorem get?_run_of_not_mem {n : String} :
    ∀ {ops : List FsOp} (dest : PyDict String Entry), (∀ op ∈ ops, op.name ≠ n) →
      (ops.foldl FsOp.apply dest).get? n = dest.get? n
  | [], _, _ => rfl
  | op :: ops, dest, h => by
    rw [List.foldl_cons, get?_run_of_not_mem _ fun o ho => h o (List.mem_cons_of_mem _ ho),
      get?_apply, if_neg (Ne.symm (h op (List.mem_cons_self _ _)))]

/-- When the operations touch pairwise distinct entries, the one on `n` decides
its value, whatever the order. -/
theorem get?_run_of_mem {n : String} {op : FsOp} (hn : op.name = n) :
    ∀ {ops : List FsOp} (dest : PyDict String Entry), (ops.map FsOp.name).Nodup → op ∈ ops →
      (ops.foldl FsOp.apply dest).get? n = op.effect (dest.get? n)
  | o :: ops, dest, hnd, hmem => by
    rw [List.map_cons, List.nodup_cons] at hnd
    rw [List.foldl_cons]
    rcases List.mem_cons.mp hmem with rfl | hmem
    · rw [get?_run_of_not_mem _ fun o' ho' h => hnd.1 (by rw [hn, ← h]; exact List.mem_map_of_mem _ ho'),
        get?_apply, if_pos hn.symm, hn]
    · have hne : o.name ≠ n := fun h => hnd.1 (h ▸ hn ▸ List.mem_map_of_mem _ hmem)
      rw [get?_run_of_mem hn _ hnd.2 hmem, get?_apply, if_neg (Ne.symm hne)]


/-! ## Reading the current status -/

theorem mapM_some {α β : Type} {f : α → Option β} (g : α → β) :
    ∀ {l : List α}, (∀ x ∈ l, f x = some (g x)) → l.mapM f = some (l.map g)
  | [], _ => rfl
  | x :: l, h => by
    rw [List.mapM_cons, h x (List.mem_cons_self _ _),
      mapM_some g fun y hy => h y (List.mem_cons_of_mem _ hy)]
    rfl

theorem mapM_none {α β : Type} {f : α → Option β} {x : α} (hx : f x = none) :
    ∀ {l : List α}, x ∈ l → l.mapM f = none
  | y :: l, hmem => by
    rw [List.mapM_cons]
    rcases List.mem_cons.mp hmem with rfl | hmem
    · rw [hx]; rfl
    · cases f y with
      | none => rfl
      | some b => rw [mapM_none hx hmem]; rfl

/-- The stripped text of the sidecar of cache entry `f`, when that sidecar is a
file and the text is not empty. -/
def cachedSha (dest : PyDict String Entry) (f : String) : Option String :=
  match dest.get? (f ++ sha256FileSuffix) with
  | some (.file text) => if readStripped text = "" then none else some (readStripped text)
  | _ => none

/-- No `.scip` entry has a directory for its sidecar. -/
def StatusReadable (dest : PyDict String Entry) : Prop :=
  ∀ f ∈ dest.keys, endsWith f ".scip" = true → dest.get? (f ++ sha256FileSuffix) ≠ some .dir

instance : DecidablePred StatusReadable := fun d =>
  inferInstanceAs (Decidable (∀ f ∈ d.keys, _))

theorem getCurrentStatus_of_ne_dir {dest : PyDict String Entry} {f : String}
    (hf : endsWith f ".scip" = true) (hd : dest.get? (f ++ sha256FileSuffix) ≠ some .dir) :
    getCurrentStatus dest f = some ((cachedSha dest f).map (f, ·)) := by
  rw [getCurrentStatus, if_neg (by simp [hf]), cachedSha]
  match h : dest.get? (f ++ sha256FileSuffix) with
  | none => rfl
  | some .dir => exact absurd h hd
  | some (.file text) =>
    simp only [entrySha, Option.map_some']
    split <;> rfl

theorem statusReadable_of_currentStatusOf {dest : PyDict String Entry} {cs : PyDict String String}
    (h : currentStatusOf dest = some cs) : StatusReadable dest := by
  intro f hf hscip hdir
  have hnone : getCurrentStatus dest f = none := by
    rw [getCurrentStatus, if_neg (by simp [hscip]), hdir]; rfl
  rw [currentStatusOf, mapM_none hnone (List.mem_filter.mpr ⟨hf, hscip⟩)] at h
  cases h

theorem currentStatusOf_isSome {dest : PyDict String Entry} (h : StatusReadable dest) :
    (currentStatusOf dest).isSome := by
  rw [currentStatusOf, mapM_some (fun f => (cachedSha dest f).map (f, ·)) fun f hf =>
    getCurrentStatus_of_ne_dir (List.mem_filter.mp hf).2
      (h f (List.mem_filter.mp hf).1 (List.mem_filter.mp hf).2)]
  rfl

/-- The current status holds each `.scip` entry's non-empty sidecar text. -/
theorem get?_currentStatusOf {dest : PyDict String Entry} {cs : PyDict String String}
    (h : currentStatusOf dest = some cs) (f : String) :
    cs.get? f = if f ∈ dest.keys ∧ endsWith f ".scip" = true then cachedSha dest f else none := by
  have hr := statusReadable_of_currentStatusOf h
  rw [currentStatusOf, mapM_some (fun f => (cachedSha dest f).map (f, ·)) fun f hf =>
    getCurrentStatus_of_ne_dir (List.mem_filter.mp hf).2
      (hr f (List.mem_filter.mp hf).1 (List.mem_filter.mp hf).2), Option.map_some',
    List.filterMap_map, Function.id_comp] at h
  cases h
  have hnodup : (dest.keys.filter fun f => endsWith f ".scip").Nodup := dest.nodup.filter _
  rw [PyDict.get?_foldl_set_filterMap _ _ hnodup, PyDict.get?_empty, Option.or_none]
  simp only [List.mem_filter, decide_eq_true_eq]


/-! ## The cleanup phase -/

/-- An entry the cleanup spares: `workspace.json` and the JDK indexes. -/
def Spared (n : String) : Prop := n = workspaceFileName ∨ startsWith n jdkScipFilePrefix = true

instance : DecidablePred Spared := fun _ => inferInstanceAs (Decidable (_ ∨ _))

/-- After the cleanup an entry is left exactly when it is kept or spared. -/
theorem get?_cleanup {order : List FsOp → List FsOp} (horder : ∀ l, (order l).Perm l)
    (filesToKeep : List String) (dest : PyDict String Entry) (n : String) :
    (cleanup order filesToKeep dest).1.get? n =
      if n ∈ filesToKeep ∨ Spared n then dest.get? n else none := by
  let deleted (f : String) : Prop :=
    f ∉ filesToKeep ∧ f ≠ workspaceFileName ∧ startsWith f jdkScipFilePrefix = false
  have hdeleted : deleted n ↔ ¬ (n ∈ filesToKeep ∨ Spared n) := by
    simp only [deleted, Spared, not_or, Bool.not_eq_true]
  have hnd : ((order ((dest.keys.filter fun f => deleted f).map .remove)).map FsOp.name).Nodup := by
    rw [((horder _).map _).nodup_iff, List.map_map]
    exact (dest.nodup.filter _).map_on fun _ _ _ _ h => h
  show ((order ((dest.keys.filter fun f => deleted f).map .remove)).foldl FsOp.apply dest).get? n = _
  by_cases hdel : n ∈ dest.keys ∧ deleted n
  · rw [@get?_run_of_mem n (.remove n) rfl _ dest hnd ((horder _).mem_iff.mpr
      (List.mem_map_of_mem _ (List.mem_filter.mpr ⟨hdel.1, decide_eq_true hdel.2⟩))),
      if_neg (hdeleted.mp hdel.2)]
    rfl
  · rw [get?_run_of_not_mem]
    · split
      · rfl
      · rename_i hkeep
        have hn : n ∉ dest.keys := fun hn => hdel ⟨hn, hdeleted.mpr hkeep⟩
        rw [PyDict.mem_keys_iff, Option.not_isSome_iff_eq_none] at hn
        exact hn
    · intro op hop hname
      obtain ⟨f, hf, rfl⟩ := List.mem_map.mp ((horder _).mem_iff.mp hop)
      obtain ⟨hf, hfdel⟩ := List.mem_filter.mp hf
      cases hname
      exact hdel ⟨hf, of_decide_eq_true hfdel⟩


/-! ## The copy phase -/

/-- The two names of each artifact: its index's and its sidecar's. -/
def artifactNames (indexToCopy : List String) : List String :=
  indexToCopy.flatMap fun a => [scipIndexName a, scipIndexName a ++ sha256FileSuffix]

section Workers
variable {artifactText : String → Option String} {cs : PyDict String String}

/-- A worker keeps its artifact's names, and copies only to them. -/
theorem processAndCopyScipIndex_names (a : String) :
    (∀ p, (processAndCopyScipIndex artifactText cs a).1 = some p →
      p = (scipIndexName a, scipIndexName a ++ sha256FileSuffix)) ∧
    ((processAndCopyScipIndex artifactText cs a).2.map FsOp.name).Sublist
      [scipIndexName a, scipIndexName a ++ sha256FileSuffix] := by
  unfold processAndCopyScipIndex
  dsimp only
  split_ifs
  · exact ⟨fun _ h => (Option.some.inj h).symm, List.nil_sublist _⟩
  · cases artifactText a with
    | none => exact ⟨(fun _ h => nomatch h), List.nil_sublist _⟩
    | some index =>
      cases artifactText (a ++ sha256FileSuffix) with
      | none => exact ⟨(fun _ h => nomatch h), (List.sublist_cons_self _ _).cons_cons _⟩
      | some sha => exact ⟨fun _ h => (Option.some.inj h).symm, List.Sublist.refl _⟩

/-- A worker only copies. -/
theorem processAndCopyScipIndex_copies (cs : PyDict String String) (a : String) :
    ∀ op ∈ (processAndCopyScipIndex artifactText cs a).2, ∃ n t, op = .copy n t := by
  unfold processAndCopyScipIndex
  dsimp only
  split_ifs
  · exact fun _ h => nomatch h
  · cases artifactText a with
    | none => exact fun _ h => nomatch h
    | some index =>
      cases artifactText (a ++ sha256FileSuffix) <;> simp

theorem sublist_flatMap {α β : Type} {f g : α → List β} :
    ∀ {l : List α}, (∀ a ∈ l, (f a).Sublist (g a)) → (l.flatMap f).Sublist (l.flatMap g)
  | [], _ => List.Sublist.slnil
  | a :: l, h => by
    rw [List.flatMap_cons, List.flatMap_cons]
    exact (h a (List.mem_cons_self _ _)).append
      (sublist_flatMap fun b hb => h b (List.mem_cons_of_mem _ hb))

/-- The copies touch pairwise distinct entries. -/
theorem copies_nodup {indexToCopy : List String} (hnames : (artifactNames indexToCopy).Nodup) :
    (((indexToCopy.map (processAndCopyScipIndex artifactText cs)).flatMap (·.2)).map
      FsOp.name).Nodup := by
  refine hnames.sublist ?_
  rw [List.flatMap_map, List.map_flatMap]
  exact sublist_flatMap fun a _ => (processAndCopyScipIndex_names a).2

/-- Distinct artifacts have disjoint names. -/
theorem eq_of_mem_names {indexToCopy : List String} (hnames : (artifactNames indexToCopy).Nodup)
    {a b n : String} (ha : a ∈ indexToCopy) (hb : b ∈ indexToCopy)
    (hna : n ∈ [scipIndexName a, scipIndexName a ++ sha256FileSuffix])
    (hnb : n ∈ [scipIndexName b, scipIndexName b ++ sha256FileSuffix]) : a = b := by
  by_contra hab
  have hpw := (List.nodup_flatMap.mp hnames).2
  exact hpw.forall (by intro _ _ h _ hy hx; exact h hx hy) ha hb hab hna hnb

/-- An artifact's worker alone decides what the copy phase leaves at its names. -/
theorem get?_copies_of_owner {order : List FsOp → List FsOp} (horder : ∀ l, (order l).Perm l)
    {indexToCopy : List String} (hnames : (artifactNames indexToCopy).Nodup)
    (dest : PyDict String Entry) {a n : String} (ha : a ∈ indexToCopy)
    (hn : n ∈ [scipIndexName a, scipIndexName a ++ sha256FileSuffix]) :
    ((order ((indexToCopy.map (processAndCopyScipIndex artifactText cs)).flatMap (·.2))).foldl
        FsOp.apply dest).get? n =
      ((processAndCopyScipIndex artifactText cs a).2.foldl FsOp.apply dest).get? n := by
  have hnd := ((horder _).map FsOp.name).nodup_iff.mpr (@copies_nodup artifactText cs _ hnames)
  by_cases hop : ∃ op ∈ (processAndCopyScipIndex artifactText cs a).2, op.name = n
  · obtain ⟨op, hop, rfl⟩ := hop
    rw [get?_run_of_mem rfl _ hnd ((horder _).mem_iff.mpr (List.mem_flatMap.mpr
        ⟨_, List.mem_map_of_mem _ ha, hop⟩)),
      get?_run_of_mem rfl _ ((processAndCopyScipIndex_names a).2.nodup
        (List.nodup_flatMap.mp hnames |>.1 a ha)) hop]
  · rw [get?_run_of_not_mem _ fun op hop' => ?_, get?_run_of_not_mem _ fun op hop' h => hop ⟨op, hop', h⟩]
    obtain ⟨_, hw, hop'⟩ := List.mem_flatMap.mp ((horder _).mem_iff.mp hop')
    obtain ⟨b, hb, rfl⟩ := List.mem_map.mp hw
    rintro rfl
    have hnb := (processAndCopyScipIndex_names b).2.subset (List.mem_map_of_mem FsOp.name hop')
    obtain rfl := eq_of_mem_names hnames ha hb hn hnb
    exact hop ⟨op, hop', rfl⟩

/-- An entry that is no artifact's name is left as it was by the copy phase. -/
theorem get?_copies_of_not_owner {order : List FsOp → List FsOp} (horder : ∀ l, (order l).Perm l)
    {indexToCopy : List String} (dest : PyDict String Entry) {n : String}
    (hn : ∀ a ∈ indexToCopy, n ∉ [scipIndexName a, scipIndexName a ++ sha256FileSuffix]) :
    ((order ((indexToCopy.map (processAndCopyScipIndex artifactText cs)).flatMap (·.2))).foldl
        FsOp.apply dest).get? n = dest.get? n := by
  refine get?_run_of_not_mem _ fun op hop hname => ?_
  obtain ⟨_, hw, hop⟩ := List.mem_flatMap.mp ((horder _).mem_iff.mp hop)
  obtain ⟨b, hb, rfl⟩ := List.mem_map.mp hw
  exact hn b hb (hname ▸ (processAndCopyScipIndex_names b).2.subset (List.mem_map_of_mem _ hop))

theorem mem_filesToKeepOf {indexToCopy : List String} {n : String} :
    n ∈ filesToKeepOf (indexToCopy.map (processAndCopyScipIndex artifactText cs)) ↔
      ∃ a ∈ indexToCopy, (processAndCopyScipIndex artifactText cs a).1.isSome ∧
        n ∈ [scipIndexName a, scipIndexName a ++ sha256FileSuffix] := by
  simp only [filesToKeepOf, List.mem_flatMap, List.mem_filterMap, List.mem_map]
  constructor
  · rintro ⟨p, ⟨_, ⟨a, ha, rfl⟩, hp⟩, hn⟩
    rw [(processAndCopyScipIndex_names a).1 p hp] at hn
    exact ⟨a, ha, by rw [hp]; rfl, hn⟩
  · rintro ⟨a, ha, hsome, hn⟩
    obtain ⟨p, hp⟩ := Option.isSome_iff_exists.mp hsome
    obtain rfl := (processAndCopyScipIndex_names a).1 p hp
    exact ⟨_, ⟨_, ⟨a, ha, rfl⟩, hp⟩, hn⟩

end Workers


/-! ## What the call leaves -/

/-- What `copy_index` leaves at each entry. At an artifact's names: what its
worker copied there, when the names are kept or spared. At any other entry:
what was there, when it is spared. -/
theorem get?_copyIndex {artifactText : String → Option String} {order : List FsOp → List FsOp}
    (horder : ∀ l, (order l).Perm l) {indexToCopy : List String}
    (hnames : (artifactNames indexToCopy).Nodup) {dest d' : PyDict String Entry} {ops : List FsOp}
    (h : copyIndex artifactText order indexToCopy dest = some (d', ops)) :
    ∃ cs, currentStatusOf dest = some cs ∧
      (∀ a ∈ indexToCopy, ∀ n ∈ [scipIndexName a, scipIndexName a ++ sha256FileSuffix],
        d'.get? n = if (processAndCopyScipIndex artifactText cs a).1.isSome ∨ Spared n then
          ((processAndCopyScipIndex artifactText cs a).2.foldl FsOp.apply dest).get? n else none) ∧
      (∀ n, (∀ a ∈ indexToCopy, n ∉ [scipIndexName a, scipIndexName a ++ sha256FileSuffix]) →
        d'.get? n = if Spared n then dest.get? n else none) := by
  obtain ⟨cs, hcs, hr⟩ := Option.map_eq_some'.mp h
  cases hr
  refine ⟨cs, hcs, fun a ha n hn => ?_, fun n hn => ?_⟩
  · have hkeep : n ∈ filesToKeepOf (indexToCopy.map (processAndCopyScipIndex artifactText cs)) ↔
        (processAndCopyScipIndex artifactText cs a).1.isSome := by
      rw [mem_filesToKeepOf]
      constructor
      · rintro ⟨b, hb, hsome, hnb⟩
        rwa [eq_of_mem_names hnames ha hb hn hnb]
      · exact fun hsome => ⟨a, ha, hsome, hn⟩
    rw [get?_cleanup horder, get?_copies_of_owner horder hnames dest ha hn]
    simp only [hkeep]
  · have hkeep : n ∉ filesToKeepOf (indexToCopy.map (processAndCopyScipIndex artifactText cs)) :=
      fun hk => by
        obtain ⟨b, hb, -, hnb⟩ := mem_filesToKeepOf.mp hk
        exact hn b hb hnb
    rw [get?_cleanup horder, get?_copies_of_not_owner horder dest hn]
    simp only [hkeep, false_or]


/-! ## Each artifact's outcome -/

section Outcome
variable (artifactText : String → Option String) (dest : PyDict String Entry)

/-- The cache holds the artifact's index under its name, with a sidecar whose
stripped text is not empty and is that of the artifact's sidecar. -/
def Current (a : String) : Prop :=
  scipIndexName a ∈ dest.keys ∧ endsWith (scipIndexName a) ".scip" = true ∧
    (cachedSha dest (scipIndexName a)).isSome ∧
    cachedSha dest (scipIndexName a) = artifactSha artifactText (a ++ sha256FileSuffix)

/-- The artifact is processed without error: its sidecar exists, and so does its
index unless it is current. -/
def Processed (a : String) : Prop :=
  (artifactText (a ++ sha256FileSuffix)).isSome ∧
    (Current artifactText dest a ∨ (artifactText a).isSome)

instance (a : String) : Decidable (Current artifactText dest a) :=
  inferInstanceAs (Decidable (_ ∧ _ ∧ _ ∧ _))

instance (a : String) : Decidable (Processed artifactText dest a) :=
  inferInstanceAs (Decidable (_ ∧ (_ ∨ _)))

variable {artifactText dest} {cs : PyDict String String}

theorem current_iff (hcs : currentStatusOf dest = some cs) (a : String) :
    ((cs.get? (scipIndexName a)).isSome ∧
      cs.get? (scipIndexName a) = artifactSha artifactText (a ++ sha256FileSuffix)) ↔
      Current artifactText dest a := by
  rw [get?_currentStatusOf hcs, Current]
  split
  · rename_i hk
    exact ⟨fun h => ⟨hk.1, hk.2, h⟩, fun h => h.2.2⟩
  · rename_i hk
    exact ⟨(fun h => nomatch h.1), fun h => absurd ⟨h.1, h.2.1⟩ hk⟩

theorem processAndCopyScipIndex_of_current (hcs : currentStatusOf dest = some cs) {a : String}
    (h : Current artifactText dest a) :
    processAndCopyScipIndex artifactText cs a =
      (some (scipIndexName a, scipIndexName a ++ sha256FileSuffix), []) :=
  if_pos ((current_iff hcs a).mpr h)

theorem processAndCopyScipIndex_of_fresh (hcs : currentStatusOf dest = some cs) {a index sha : String}
    (h : ¬ Current artifactText dest a) (hindex : artifactText a = some index)
    (hsha : artifactText (a ++ sha256FileSuffix) = some sha) :
    processAndCopyScipIndex artifactText cs a =
      (some (scipIndexName a, scipIndexName a ++ sha256FileSuffix),
        [.copy (scipIndexName a) index, .copy (scipIndexName a ++ sha256FileSuffix) sha]) := by
  rw [processAndCopyScipIndex]
  dsimp only
  rw [if_neg (mt (current_iff hcs a).mp h), hindex, hsha]

/-- A worker keeps its names exactly when its artifact is processed without error. -/
theorem isSome_processAndCopyScipIndex (hcs : currentStatusOf dest = some cs) (a : String) :
    (processAndCopyScipIndex artifactText cs a).1.isSome ↔ Processed artifactText dest a := by
  by_cases hc : Current artifactText dest a
  · have hsha : (artifactText (a ++ sha256FileSuffix)).isSome := by
      have := hc.2.2.1
      rw [hc.2.2.2, artifactSha] at this
      simpa using this
    rw [processAndCopyScipIndex_of_current hcs hc]
    exact ⟨fun _ => ⟨hsha, .inl hc⟩, fun _ => rfl⟩
  · rw [processAndCopyScipIndex]
    dsimp only
    rw [if_neg (mt (current_iff hcs a).mp hc), Processed]
    cases artifactText a <;> cases artifactText (a ++ sha256FileSuffix) <;> simp [hc]

end Outcome

theorem scipIndexName_ne_sidecar (a : String) : scipIndexName a ≠ scipIndexName a ++ sha256FileSuffix :=
  fun h => by
    have := congrArg String.length h
    simp only [String.length_append, self_eq_add_right] at this
    exact absurd this (by decide)

theorem effect_copy {name text : String} {e : Option Entry} (h : e ≠ some .dir) :
    (FsOp.copy name text).effect e = some (.file text) := by
  match e, h with
  | none, _ => rfl
  | some (.file _), _ => rfl


/-- What a call leaves at the names of an artifact processed without error:
what was there when it is current, and otherwise what copying its index and its
sidecar there leaves. -/
theorem get?_processed {artifactText : String → Option String} {order : List FsOp → List FsOp}
    (horder : ∀ l, (order l).Perm l) {indexToCopy : List String}
    (hnames : (artifactNames indexToCopy).Nodup) {dest d' : PyDict String Entry} {ops : List FsOp}
    (h : copyIndex artifactText order indexToCopy dest = some (d', ops)) {a : String}
    (ha : a ∈ indexToCopy) (hp : Processed artifactText dest a) :
    if Current artifactText dest a then
      d'.get? (scipIndexName a) = dest.get? (scipIndexName a) ∧
        d'.get? (scipIndexName a ++ sha256FileSuffix) =
          dest.get? (scipIndexName a ++ sha256FileSuffix)
    else ∃ index sha, artifactText a = some index ∧
      artifactText (a ++ sha256FileSuffix) = some sha ∧
      d'.get? (scipIndexName a) =
        (FsOp.copy (scipIndexName a) index).effect (dest.get? (scipIndexName a)) ∧
      d'.get? (scipIndexName a ++ sha256FileSuffix) =
        (FsOp.copy (scipIndexName a ++ sha256FileSuffix) sha).effect
          (dest.get? (scipIndexName a ++ sha256FileSuffix)) := by
  obtain ⟨cs, hcs, hown, -⟩ := get?_copyIndex horder hnames h
  have hkept : (processAndCopyScipIndex artifactText cs a).1.isSome :=
    (isSome_processAndCopyScipIndex hcs a).mpr hp
  have hval : ∀ n ∈ [scipIndexName a, scipIndexName a ++ sha256FileSuffix], d'.get? n =
      ((processAndCopyScipIndex artifactText cs a).2.foldl FsOp.apply dest).get? n :=
    fun n hn => by rw [hown a ha n hn, if_pos (.inl hkept)]
  rw [hval _ (List.mem_cons_self _ _), hval _ (List.mem_pair.mpr (.inr rfl))]
  split
  · rename_i hc
    rw [processAndCopyScipIndex_of_current hcs hc]
    exact ⟨rfl, rfl⟩
  · rename_i hc
    obtain ⟨index, hindex⟩ := Option.isSome_iff_exists.mp (hp.2.resolve_left hc)
    obtain ⟨sha, hsha⟩ := Option.isSome_iff_exists.mp hp.1
    have hnd : ([FsOp.copy (scipIndexName a) index,
        .copy (scipIndexName a ++ sha256FileSuffix) sha].map FsOp.name).Nodup := by
      simpa [FsOp.name] using scipIndexName_ne_sidecar a
    rw [processAndCopyScipIndex_of_fresh hcs hc hindex hsha]
    exact ⟨index, sha, hindex, hsha, get?_run_of_mem rfl _ hnd (List.mem_cons_self _ _),
      get?_run_of_mem rfl _ hnd (List.mem_pair.mpr (.inr rfl))⟩

theorem endsWith_scip_sidecar (f : String) : endsWith (f ++ sha256FileSuffix) ".scip" = false := by
  simp only [endsWith, List.isSuffixOf, String.toList, String.data_append, List.reverse_append]
  rfl

theorem effect_copy_isSome (name text : String) (e : Option Entry) :
    ((FsOp.copy name text).effect e).isSome := by
  match e with
  | none => rfl
  | some (.file _) => rfl
  | some .dir => rfl

theorem forall_mem_pair {α : Type} {p : α → Prop} {x y : α} : (∀ z ∈ [x, y], p z) ↔ p x ∧ p y := by
  simp

/-- Whether an artifact is current reads only its two names in the cache. -/
theorem current_congr {artifactText : String → Option String} {d d' : PyDict String Entry}
    {a : String} (h₁ : d'.get? (scipIndexName a) = d.get? (scipIndexName a))
    (h₂ : d'.get? (scipIndexName a ++ sha256FileSuffix) = d.get? (scipIndexName a ++ sha256FileSuffix)) :
    Current artifactText d' a ↔ Current artifactText d a := by
  simp only [Current, PyDict.mem_keys_iff, h₁, cachedSha, h₂]

section SecondCall
variable {artifactText : String → Option String} {order : List FsOp → List FsOp}
  (horder : ∀ l, (order l).Perm l) {indexToCopy : List String}
  (hnames : (artifactNames indexToCopy).Nodup) {dest d₁ d₂ : PyDict String Entry}
  {ops₁ ops₂ : List FsOp} (hfirst : copyIndex artifactText order indexToCopy dest = some (d₁, ops₁))

include horder hnames hfirst

/-- Every entry after a call is a name of an artifact, or a spared entry left
as it was. -/
theorem copyIndex_entries {n : String} (hn : (d₁.get? n).isSome) :
    (∃ a ∈ indexToCopy, n ∈ [scipIndexName a, scipIndexName a ++ sha256FileSuffix]) ∨
      (Spared n ∧ d₁.get? n = dest.get? n) := by
  obtain ⟨cs, -, -, hother⟩ := get?_copyIndex horder hnames hfirst
  by_cases howner : ∃ a ∈ indexToCopy, n ∈ [scipIndexName a, scipIndexName a ++ sha256FileSuffix]
  · exact .inl howner
  · have hget := hother n fun a ha hmem => howner ⟨a, ha, hmem⟩
    have hs : Spared n := by
      by_contra hs
      rw [hget, if_neg hs] at hn
      cases hn
    exact .inr ⟨hs, by rw [hget, if_pos hs]⟩

/-- An artifact a call processed is processed by the next call too: it is current
again, or its index is still there to copy. -/
theorem processed_again {a : String} (ha : a ∈ indexToCopy)
    (hp : Processed artifactText dest a) : Processed artifactText d₁ a := by
  refine ⟨hp.1, hp.2.imp_left fun hc => ?_⟩
  have hres := get?_processed horder hnames hfirst ha hp
  rw [if_pos hc] at hres
  exact (current_congr hres.1 hres.2).mpr hc

/-- A call leaves no directory at the names of an artifact it processed, where
there was none. -/
theorem ne_dir_processed {a : String} (ha : a ∈ indexToCopy) (hp : Processed artifactText dest a)
    (hdir : ∀ m ∈ [scipIndexName a, scipIndexName a ++ sha256FileSuffix], dest.get? m ≠ some .dir) :
    ∀ m ∈ [scipIndexName a, scipIndexName a ++ sha256FileSuffix], d₁.get? m ≠ some .dir := by
  have hres := get?_processed horder hnames hfirst ha hp
  split at hres
  · exact forall_mem_pair.mpr ⟨hres.1 ▸ hdir _ (List.mem_cons_self _ _),
      hres.2 ▸ hdir _ (List.mem_pair.mpr (.inr rfl))⟩
  · obtain ⟨index, sha, -, -, hnm, hsd⟩ := hres
    rw [effect_copy (hdir _ (List.mem_cons_self _ _))] at hnm
    rw [effect_copy (hdir _ (List.mem_pair.mpr (.inr rfl)))] at hsd
    exact forall_mem_pair.mpr ⟨by rw [hnm]; exact nofun, by rw [hsd]; exact nofun⟩

/-- A second call leaves the names of an artifact the first processed as the first
left them, with no directory there: the artifact is current again, or copied again
from the same texts. -/
theorem get?_processed_again (hsecond : copyIndex artifactText order indexToCopy d₁ = some (d₂, ops₂))
    {a : String} (ha : a ∈ indexToCopy) (hp : Processed artifactText dest a)
    (hdir : ∀ m ∈ [scipIndexName a, scipIndexName a ++ sha256FileSuffix], dest.get? m ≠ some .dir) :
    ∀ m ∈ [scipIndexName a, scipIndexName a ++ sha256FileSuffix], d₂.get? m = d₁.get? m := by
  have hres₁ := get?_processed horder hnames hfirst ha hp
  have hres₂ := get?_processed horder hnames hsecond ha (processed_again horder hnames hfirst ha hp)
  by_cases hc₁ : Current artifactText dest a
  · -- kept by the first call, so current again for the second
    rw [if_pos hc₁] at hres₁
    rw [if_pos ((current_congr hres₁.1 hres₁.2).mpr hc₁)] at hres₂
    exact forall_mem_pair.mpr hres₂
  · -- copied afresh by the first call; the second keeps or copies the same texts
    rw [if_neg hc₁] at hres₁
    obtain ⟨index, sha, hindex, hsha, hnm, hsd⟩ := hres₁
    rw [effect_copy (hdir _ (List.mem_cons_self _ _))] at hnm
    rw [effect_copy (hdir _ (List.mem_pair.mpr (.inr rfl)))] at hsd
    split at hres₂
    · exact forall_mem_pair.mpr hres₂
    · obtain ⟨index', sha', hindex', hsha', hnm₂, hsd₂⟩ := hres₂
      obtain rfl := Option.some.inj (hindex.symm.trans hindex')
      obtain rfl := Option.some.inj (hsha.symm.trans hsha')
      exact forall_mem_pair.mpr ⟨by rw [hnm₂, hnm]; rfl, by rw [hsd₂, hsd]; rfl⟩

/-- A second call leaves every entry that is no artifact's name as the first left it. -/
theorem get?_second_call_of_not_owner
    (hsecond : copyIndex artifactText order indexToCopy d₁ = some (d₂, ops₂)) {n : String}
    (hn : ∀ a ∈ indexToCopy, n ∉ [scipIndexName a, scipIndexName a ++ sha256FileSuffix]) :
    d₂.get? n = d₁.get? n := by
  obtain ⟨-, -, -, hother₁⟩ := get?_copyIndex horder hnames hfirst
  obtain ⟨-, -, -, hother₂⟩ := get?_copyIndex horder hnames hsecond
  rw [hother₂ n hn]
  by_cases hs : Spared n
  · rw [if_pos hs]
  · rw [if_neg hs, hother₁ n hn, if_neg hs]

/-- After a call that processed artifact `a`, whose sidecar strips to a
non-empty text and had no directory at its name: the cache holds `a`'s index and
the stripped text of `a`'s sidecar. -/
theorem processed_after {a sha : String} (ha : a ∈ indexToCopy) (hok : Processed artifactText dest a)
    (hsha : artifactText (a ++ sha256FileSuffix) = some sha) (hne : readStripped sha ≠ "")
    (hdir : dest.get? (scipIndexName a ++ sha256FileSuffix) ≠ some .dir) :
    (d₁.get? (scipIndexName a)).isSome ∧
      cachedSha d₁ (scipIndexName a) = artifactSha artifactText (a ++ sha256FileSuffix) := by
  have hres := get?_processed horder hnames hfirst ha hok
  by_cases hc : Current artifactText dest a
  · -- nothing copied: the index and sidecar are the ones that made it current
    rw [if_pos hc] at hres
    obtain ⟨hnm, hsd⟩ := hres
    have hcached : cachedSha d₁ (scipIndexName a) = cachedSha dest (scipIndexName a) := by
      simp only [cachedSha, hsd]
    exact ⟨by rw [hnm]; exact PyDict.mem_keys_iff.mp hc.1, hcached.trans hc.2.2.2⟩
  · -- fresh copies of the index and the sidecar
    rw [if_neg hc] at hres
    obtain ⟨index, sha', -, hsha', hnm, hsd⟩ := hres
    obtain rfl : sha = sha' := Option.some.inj (hsha.symm.trans hsha')
    rw [effect_copy hdir] at hsd
    refine ⟨hnm ▸ effect_copy_isSome _ _ _, ?_⟩
    simp only [cachedSha, hsd, if_neg hne, artifactSha, hsha, Option.map_some']

/-- After a call that left no directory at any artifact's names, a new call can
read the current status. -/
theorem statusReadable_after
    (hsd : ∀ a ∈ indexToCopy, ∀ m ∈ [scipIndexName a, scipIndexName a ++ sha256FileSuffix],
      d₁.get? m ≠ some .dir) :
    StatusReadable d₁ := by
  obtain ⟨cs, hcs, -⟩ := get?_copyIndex horder hnames hfirst
  intro f hf hscipf hsdir
  rcases copyIndex_entries horder hnames hfirst (PyDict.mem_keys_iff.mp hf) with
    ⟨a, ha, hmem⟩ | ⟨-, hfget⟩
  · -- an artifact's index, or its sidecar, which does not end in `.scip`
    rcases List.mem_pair.mp hmem with rfl | rfl
    · exact hsd a ha _ (List.mem_pair.mpr (.inr rfl)) hsdir
    · rw [endsWith_scip_sidecar] at hscipf; cases hscipf
  · -- a spared entry, whose sidecar is an artifact's name or spared in turn
    rcases copyIndex_entries horder hnames hfirst
      (by rw [hsdir]; rfl : (d₁.get? (f ++ sha256FileSuffix)).isSome) with
      ⟨a, ha, hmem⟩ | ⟨-, hsget⟩
    · exact hsd a ha _ hmem hsdir
    · exact statusReadable_of_currentStatusOf hcs f
        (PyDict.mem_keys_iff.mpr (hfget ▸ PyDict.mem_keys_iff.mp hf)) hscipf (hsget ▸ hsdir)

end SecondCall

/-- A call that finds every artifact current, on a cache whose every entry is an
artifact's name or spared, makes no copy and no removal. -/
theorem copyIndex_of_current {artifactText : String → Option String}
    {order : List FsOp → List FsOp} (horder : ∀ l, (order l).Perm l) {indexToCopy : List String}
    {d : PyDict String Entry} (hread : StatusReadable d)
    (hcur : ∀ a ∈ indexToCopy, Current artifactText d a)
    (hkeys : ∀ f ∈ d.keys,
      (∃ a ∈ indexToCopy, f ∈ [scipIndexName a, scipIndexName a ++ sha256FileSuffix]) ∨ Spared f) :
    copyIndex artifactText order indexToCopy d = some (d, []) := by
  obtain ⟨cs, hcs⟩ := Option.isSome_iff_exists.mp (currentStatusOf_isSome hread)
  have hresults : ∀ a ∈ indexToCopy, processAndCopyScipIndex artifactText cs a =
      (some (scipIndexName a, scipIndexName a ++ sha256FileSuffix), []) := fun a ha =>
    processAndCopyScipIndex_of_current hcs (hcur a ha)
  have hcopies : (indexToCopy.map (processAndCopyScipIndex artifactText cs)).flatMap (·.2) = [] := by
    rw [List.flatMap_eq_nil_iff]
    intro w hw
    obtain ⟨a, ha, rfl⟩ := List.mem_map.mp hw
    rw [hresults a ha]
  have hnil : d.keys.filter (fun f =>
      f ∉ filesToKeepOf (indexToCopy.map (processAndCopyScipIndex artifactText cs)) ∧
        f ≠ workspaceFileName ∧ startsWith f jdkScipFilePrefix = false) = [] := by
    refine List.filter_eq_nil_iff.mpr fun f hf hdel => ?_
    obtain ⟨hk, hws, hjdk⟩ := of_decide_eq_true hdel
    rcases hkeys f hf with ⟨a, ha, hmem⟩ | h | h
    · exact hk (mem_filesToKeepOf.mpr ⟨a, ha, by rw [hresults a ha]; rfl, hmem⟩)
    · exact hws h
    · rw [h] at hjdk; cases hjdk
  rw [copyIndex, hcs, Option.map_some']
  simp only [cleanup, hcopies, hnil, List.map_nil, (horder []).eq_nil, List.foldl_nil,
    List.append_nil]


/-- A call that processes every artifact, on a cache whose every entry is an
artifact's name or spared, removes nothing: after the copies every entry is kept
or spared. -/
theorem copyIndex_no_removal {artifactText : String → Option String}
    {order : List FsOp → List FsOp} (horder : ∀ l, (order l).Perm l) {indexToCopy : List String}
    {d d' : PyDict String Entry} {ops : List FsOp}
    (hkeys : ∀ f ∈ d.keys,
      (∃ a ∈ indexToCopy, f ∈ [scipIndexName a, scipIndexName a ++ sha256FileSuffix]) ∨ Spared f)
    (hok : ∀ a ∈ indexToCopy, Processed artifactText d a)
    (h : copyIndex artifactText order indexToCopy d = some (d', ops)) (n : String) :
    FsOp.remove n ∉ ops := by
  obtain ⟨cs, hcs, hr⟩ := Option.map_eq_some'.mp h
  cases hr
  intro hmem
  rcases List.mem_append.mp hmem with hc | hc
  · -- the copy phase only copies
    obtain ⟨_, hw, hop⟩ := List.mem_flatMap.mp ((horder _).mem_iff.mp hc)
    obtain ⟨a, -, rfl⟩ := List.mem_map.mp hw
    obtain ⟨_, _, heq⟩ := processAndCopyScipIndex_copies cs a _ hop
    cases heq
  · -- the cleanup finds every entry kept or spared
    obtain ⟨f, hf, hfn⟩ := List.mem_map.mp ((horder _).mem_iff.mp hc)
    injection hfn with hfn
    subst hfn
    obtain ⟨hfk, hfdel⟩ := List.mem_filter.mp hf
    obtain ⟨hk, hws, hjdk⟩ := of_decide_eq_true hfdel
    by_cases howner : ∃ a ∈ indexToCopy, f ∈ [scipIndexName a, scipIndexName a ++ sha256FileSuffix]
    · obtain ⟨a, ha, hfa⟩ := howner
      exact hk (mem_filesToKeepOf.mpr ⟨a, ha, (isSome_processAndCopyScipIndex hcs a).mpr (hok a ha), hfa⟩)
    · have hfd : f ∈ d.keys := by
        rw [PyDict.mem_keys_iff] at hfk ⊢
        rwa [get?_copies_of_not_owner horder d fun a ha hfa => howner ⟨a, ha, hfa⟩] at hfk
      rcases hkeys f hfd with hown | hws' | hjdk'
      · exact howner hown
      · exact hws hws'
      · rw [hjdk'] at hjdk; cases hjdk

end ScipSync.Cache.CopyIndex
