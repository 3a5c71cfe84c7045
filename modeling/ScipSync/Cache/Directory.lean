import ScipSync.Cache.CopyIndex
import ScipSync.Workspace.Persist

/-! The cache directory `.scip` as every run of the synchronizer finds and leaves it.

Three kinds of run write to it. A sync writes `workspace.json` (`write_workspace`)
and then runs `copy_index`. A single-file run creates the work directory `tmp`
(`incremental.WORK_DIR` is `.scip/tmp`), and `old_copy_index` copies the file's
index in with a sidecar it writes itself. None of them creates any other
directory: `CacheInv` says so, together with the fact that every `.scip` index the
cleanup does not spare has its sidecar, and each operation keeps it
(`cacheInv_copyIndex`, `cacheInv_oldCopyIndex`, ...). From a cache where it holds,
neither `write_workspace` nor the status scan of `copy_index` can raise
(`writeWorkspaceTo_isSome`, `copyIndex_isSome`).

`copy_index` leaves, besides the spared entries, exactly the names of the
artifacts processed without error (`mem_keys_copyIndex`), whatever the order of
the workers and even when two artifacts share a name. -/

namespace ScipSync.Cache.Directory
open ScipSync.Basic.Dict ScipSync.Basic.Text ScipSync.Workspace.Store ScipSync.Workspace.Persist
  ScipSync.Cache.CopyIndex

/-! ## What the runs do to the directory -/

/-- The entry of the cache directory that `incremental.WORK_DIR` (`.scip/tmp`) names. -/
def workDirName : String := "tmp"

/-- `write_workspace(workspace, dest)`: `workspace.json` holds the workspace's text.
`open(path, "w")` raises on a directory: `none`. -/
def writeWorkspaceTo (workspace : ScipWorkspace) (dest : PyDict String Entry) :
    Option (PyDict String Entry) :=
  if dest.get? workspaceFileName = some .dir then none
  else some (dest.set workspaceFileName (.file (writeWorkspace workspace)))

/-- `get_manifest_for_file(file, dest)` on the cache directory: `workspace.json`
is read when it exists, and `open` raises on a directory (the outer `none`). -/
def getManifestForFileIn (file : String) (dest : PyDict String Entry) : Option (Option String) :=
  match dest.get? workspaceFileName with
  | some .dir => none
  | some (.file text) => getManifestForFile file (some text)
  | none => getManifestForFile file none

/-- `safe_create(os.path.join(cwd, WORK_DIR), is_dir=True)`: `os.makedirs` when
nothing is there. -/
def safeCreateWorkDir (dest : PyDict String Entry) : PyDict String Entry :=
  if dest.get? workDirName = none then dest.set workDirName .dir else dest

/-- `old_copy_index(index_to_copy, dest)`, where `generate_sha256` is `sha256` on
the file's text and `indexText p` is the text of the index at `p`: each index in
the set's iteration order is copied under its `scip_index_name`, then its sidecar
is written with `generate_sha256(index) + "\n"`. `.error d` when a step raises,
`d` being the directory at that point: `shutil.copy` of a missing index, or
`open(..., "w")` on a directory. -/
def oldCopyIndex (sha256 : String → String) (indexText : String → Option String) :
    List String → PyDict String Entry → Except (PyDict String Entry) (PyDict String Entry)
  | [], dest => .ok dest
  | index :: rest, dest =>
    let indexFilename := scipIndexName index
    match indexText index with
    | none => .error dest
    | some text =>
      let dest := (FsOp.copy indexFilename text).apply dest
      let shaFilename := indexFilename ++ ".sha256"
      if dest.get? shaFilename = some .dir then .error dest
      else oldCopyIndex sha256 indexText rest (dest.set shaFilename (.file (sha256 text ++ "\n")))

/-- The directory a step leaves, whether it returned or raised. -/
def Except.cache : Except (PyDict String Entry) (PyDict String Entry) → PyDict String Entry
  | .ok d => d
  | .error d => d

/-! ## The invariant -/

/-- What every run keeps of the cache directory: its only directory is the work
directory, and every `.scip` index the cleanup does not spare has its sidecar. -/
structure CacheInv (dest : PyDict String Entry) : Prop where
  dirs : ∀ n ∈ dest.keys, dest.get? n = some .dir → n = workDirName
  paired : ∀ n ∈ dest.keys, endsWith n ".scip" = true → ¬ Spared n →
    n ++ sha256FileSuffix ∈ dest.keys

instance : DecidablePred CacheInv := fun d =>
  decidable_of_iff ((∀ n ∈ d.keys, d.get? n = some .dir → n = workDirName) ∧
      ∀ n ∈ d.keys, endsWith n ".scip" = true → ¬ Spared n → n ++ sha256FileSuffix ∈ d.keys)
    ⟨fun ⟨a, b⟩ => ⟨a, b⟩, fun ⟨a, b⟩ => ⟨a, b⟩⟩

theorem cacheInv_empty : CacheInv PyDict.empty := by decide

theorem CacheInv.dir {dest : PyDict String Entry} (h : CacheInv dest) {n : String}
    (hn : dest.get? n = some .dir) : n = workDirName :=
  h.dirs n (PyDict.mem_keys_iff.mpr (by rw [hn]; rfl)) hn

/-- A name is a file's or nothing's when it is not the work directory's. -/
theorem CacheInv.ne_dir {dest : PyDict String Entry} (h : CacheInv dest) {n : String}
    (hn : n ≠ workDirName) : dest.get? n ≠ some .dir :=
  fun hd => hn (h.dir hd)

theorem cacheInv_of {dest : PyDict String Entry}
    (hdir : ∀ n, dest.get? n = some .dir → n = workDirName)
    (hpaired : ∀ n ∈ dest.keys, endsWith n ".scip" = true → ¬ Spared n →
      n ++ sha256FileSuffix ∈ dest.keys) : CacheInv dest :=
  ⟨fun n _ hn => hdir n hn, hpaired⟩

/-! ## Names -/

/-- A sidecar's name ends in the `6` of `.sha256`. -/
theorem getLast?_sidecar (n : String) : (n ++ sha256FileSuffix).toList.getLast? = some '6' := by
  show (n.toList ++ sha256FileSuffix.toList).getLast? = _
  rw [List.getLast?_append]
  rfl

/-- So it never ends in `.scip`. -/
theorem endsWith_sidecar (n : String) : endsWith (n ++ sha256FileSuffix) ".scip" = false := by
  rw [Bool.eq_false_iff]
  intro h
  have := (getLast?_sidecar n).symm.trans (getLast?_of_endsWith h (by decide))
  exact absurd this (by decide)

theorem sidecar_ne_workDir (n : String) : n ++ sha256FileSuffix ≠ workDirName := fun h => by
  have := getLast?_sidecar n
  rw [h] at this
  exact absurd this (by decide)

theorem sidecar_ne_workspaceFile (n : String) : n ++ sha256FileSuffix ≠ workspaceFileName :=
  fun h => by
    have := getLast?_sidecar n
    rw [h] at this
    exact absurd this (by decide)

/-- The piece after the last `/bin/` keeps the path's last character unless that
is a `/`. -/
theorem getLast?_lastBinPiece {c : Char} (hc : c ≠ '/') (piece l : List Char)
    (h : l.getLast? = some c) : (lastBinPiece piece l).getLast? = some c := by
  induction piece, l using lastBinPiece.induct with
  | case1 piece rest ih =>
    rw [lastBinPiece.eq_1]
    cases rest with
    | nil => simp at h; exact absurd h.symm hc
    | cons r rs => exact ih (by simpa using h)
  | case2 piece c' rest hne ih =>
    rw [lastBinPiece.eq_2 _ _ _ hne]
    cases rest with
    | nil => rw [lastBinPiece.eq_3, List.getLast?_reverse]; simpa using h
    | cons r rs => exact ih (by simpa using h)
  | case3 piece => cases h

/-- So does an index's cache name, when that character is neither `/` nor `-`. -/
theorem getLast?_scipIndexName {p : String} {c : Char} (h : p.toList.getLast? = some c)
    (hs : c ≠ '/') (hd : c ≠ '-') : (scipIndexName p).toList.getLast? = some c := by
  show (replaceChar '-' '_' (replaceChar '/' '_' (lastBinPiece [] p.toList))).getLast? = some c
  rw [replaceChar, replaceChar, List.getLast?_map, List.getLast?_map,
    getLast?_lastBinPiece hs [] _ h]
  simp [hs, hd]

/-- An index whose path ends in `p`, as a `.scip` file's does, is never copied onto
`workspace.json`. -/
theorem scipIndexName_ne_workspaceFile {p : String} (h : p.toList.getLast? = some 'p') :
    scipIndexName p ≠ workspaceFileName := fun he => by
  have := getLast?_scipIndexName h (by decide) (by decide)
  rw [he] at this
  exact absurd this (by decide)

/-! ## `write_workspace` and `safe_create` -/

/-- From a cache where the invariant holds, `write_workspace` does not raise. -/
theorem writeWorkspaceTo_isSome {dest : PyDict String Entry} (h : CacheInv dest)
    (workspace : ScipWorkspace) : (writeWorkspaceTo workspace dest).isSome := by
  rw [writeWorkspaceTo, if_neg (h.ne_dir (by decide))]
  rfl

theorem get?_writeWorkspaceTo {workspace : ScipWorkspace} {dest d' : PyDict String Entry}
    (h : writeWorkspaceTo workspace dest = some d') (n : String) :
    d'.get? n = if n = workspaceFileName then some (.file (writeWorkspace workspace))
      else dest.get? n := by
  unfold writeWorkspaceTo at h
  split_ifs at h
  cases h
  exact PyDict.get?_set _ _ _ _

/-- Writing the workspace a directory already holds changes nothing. -/
theorem writeWorkspaceTo_of_get? {workspace : ScipWorkspace} {dest : PyDict String Entry}
    (h : dest.get? workspaceFileName = some (.file (writeWorkspace workspace))) :
    writeWorkspaceTo workspace dest = some dest := by
  rw [writeWorkspaceTo, h, if_neg nofun, PyDict.set_of_get? h]

theorem cacheInv_writeWorkspaceTo {workspace : ScipWorkspace} {dest d' : PyDict String Entry}
    (hinv : CacheInv dest) (h : writeWorkspaceTo workspace dest = some d') : CacheInv d' := by
  have hget := get?_writeWorkspaceTo h
  refine cacheInv_of (fun n hn => ?_) (fun n hn hscip hsp => ?_)
  · rw [hget] at hn
    split_ifs at hn
    · cases hn
    · exact hinv.dir hn
  · have hne : n ≠ workspaceFileName := fun e => hsp (.inl e)
    rw [PyDict.mem_keys_iff, hget, if_neg hne, ← PyDict.mem_keys_iff] at hn
    rw [PyDict.mem_keys_iff, hget, if_neg (sidecar_ne_workspaceFile n), ← PyDict.mem_keys_iff]
    exact hinv.paired n hn hscip hsp

theorem get?_safeCreateWorkDir (dest : PyDict String Entry) (n : String) :
    (safeCreateWorkDir dest).get? n =
      if n = workDirName ∧ dest.get? n = none then some .dir else dest.get? n := by
  unfold safeCreateWorkDir
  by_cases h : dest.get? workDirName = none
  · rw [if_pos h, PyDict.get?_set]
    by_cases hn : n = workDirName
    · rw [if_pos hn, if_pos ⟨hn, by rw [hn]; exact h⟩]
    · rw [if_neg hn, if_neg (show ¬ (n = workDirName ∧ dest.get? n = none) from fun h' => hn h'.1)]
  · rw [if_neg h, if_neg (show ¬ (n = workDirName ∧ dest.get? n = none) from
      fun h' => h (by rw [← h'.1]; exact h'.2))]

theorem cacheInv_safeCreateWorkDir {dest : PyDict String Entry} (hinv : CacheInv dest) :
    CacheInv (safeCreateWorkDir dest) := by
  have hget := get?_safeCreateWorkDir dest
  refine cacheInv_of (fun n hn => ?_) (fun n hn hscip hsp => ?_)
  · rw [hget] at hn
    split_ifs at hn with h
    exacts [h.1, hinv.dir hn]
  · have hne : n ≠ workDirName := fun e => by rw [e] at hscip; exact absurd hscip (by decide)
    have hkeys : ∀ m, m ≠ workDirName →
        (m ∈ (safeCreateWorkDir dest).keys ↔ m ∈ dest.keys) := fun m hm => by
      rw [PyDict.mem_keys_iff, PyDict.mem_keys_iff, hget, if_neg fun h => hm h.1]
    rw [hkeys n hne] at hn
    exact (hkeys _ (sidecar_ne_workDir n)).mpr (hinv.paired n hn hscip hsp)

/-! ## `old_copy_index` -/

theorem isSome_effect_copy (name text : String) (e : Option Entry) :
    ((FsOp.copy name text).effect e).isSome := by
  rcases e with _ | (_ | _) <;> rfl

theorem effect_eq_dir {op : FsOp} {e : Option Entry} (h : op.effect e = some .dir) :
    e = some .dir := by
  rcases op with ⟨_, _⟩ | _ <;> rcases e with _ | (_ | _) <;> first | rfl | cases h

/-- No operation makes a directory: one is there after it only if it was before. -/
theorem dir_of_apply {dest : PyDict String Entry} {op : FsOp} {n : String}
    (h : (op.apply dest).get? n = some .dir) : dest.get? n = some .dir := by
  rw [get?_apply] at h
  split_ifs at h with hn
  · rw [hn]; exact effect_eq_dir h
  · exact h

theorem dir_of_foldl_apply {n : String} :
    ∀ {ops : List FsOp} {dest : PyDict String Entry},
      (ops.foldl FsOp.apply dest).get? n = some .dir → dest.get? n = some .dir
  | [], _, h => h
  | _ :: _, _, h => dir_of_apply (dir_of_foldl_apply h)

/-- The step of `old_copy_index` for one index: copy, then write the sidecar. -/
theorem oldCopyIndex_cons (sha256 : String → String) (indexText : String → Option String)
    (index : String) (rest : List String) (dest : PyDict String Entry) :
    oldCopyIndex sha256 indexText (index :: rest) dest =
      match indexText index with
      | none => .error dest
      | some text =>
        if ((FsOp.copy (scipIndexName index) text).apply dest).get?
            (scipIndexName index ++ sha256FileSuffix) = some .dir then
          .error ((FsOp.copy (scipIndexName index) text).apply dest)
        else oldCopyIndex sha256 indexText rest
          (((FsOp.copy (scipIndexName index) text).apply dest).set
            (scipIndexName index ++ sha256FileSuffix) (.file (sha256 text ++ "\n"))) := rfl

/-- One index of `old_copy_index` keeps the invariant, and its sidecar write does
not raise. -/
theorem cacheInv_copy_sidecar {dest : PyDict String Entry} (hinv : CacheInv dest)
    (index text sha : String) :
    ((FsOp.copy (scipIndexName index) text).apply dest).get?
        (scipIndexName index ++ sha256FileSuffix) ≠ some .dir ∧
      CacheInv (((FsOp.copy (scipIndexName index) text).apply dest).set
        (scipIndexName index ++ sha256FileSuffix) (.file sha)) := by
  set N := scipIndexName index
  let d₁ := (FsOp.copy N text).apply dest
  have hd₁ : ∀ n, d₁.get? n = if n = N then (FsOp.copy N text).effect (dest.get? N)
      else dest.get? n := fun n => get?_apply dest _ n
  have hside : d₁.get? (N ++ sha256FileSuffix) ≠ some .dir := fun h =>
    sidecar_ne_workDir N (hinv.dir (dir_of_apply h))
  have hkeys : ∀ m ∈ dest.keys, m ∈ d₁.keys := fun m hm => by
    rw [PyDict.mem_keys_iff, hd₁]
    split_ifs
    · exact isSome_effect_copy _ _ _
    · exact PyDict.mem_keys_iff.mp hm
  refine ⟨hside, cacheInv_of (fun n hn => ?_) (fun n hn hscip hsp => ?_)⟩
  · rw [PyDict.get?_set] at hn
    split_ifs at hn
    · cases hn
    · exact hinv.dir (dir_of_apply hn)
  · rcases PyDict.mem_keys_set.mp hn with rfl | hn
    · exact absurd hscip (by rw [endsWith_sidecar]; decide)
    by_cases hN : n = N
    · exact PyDict.mem_keys_set.mpr (.inl (by rw [hN]))
    · rw [PyDict.mem_keys_iff, hd₁, if_neg hN, ← PyDict.mem_keys_iff] at hn
      exact PyDict.mem_keys_set.mpr (.inr (hkeys _ (hinv.paired n hn hscip hsp)))


/-- `old_copy_index` keeps the invariant, whether it returns or raises. -/
theorem cacheInv_oldCopyIndex (sha256 : String → String) (indexText : String → Option String) :
    ∀ (indexes : List String) {dest : PyDict String Entry}, CacheInv dest →
      CacheInv (Except.cache (oldCopyIndex sha256 indexText indexes dest))
  | [], _, h => h
  | index :: rest, dest, h => by
    rw [oldCopyIndex_cons]
    cases indexText index with
    | none => exact h
    | some text =>
      obtain ⟨hside, hinv⟩ := cacheInv_copy_sidecar h index text (sha256 text ++ "\n")
      dsimp only
      rw [if_neg hside]
      exact cacheInv_oldCopyIndex sha256 indexText rest hinv

/-- `old_copy_index` changes no entry but its indexes' names and sidecars. -/
theorem get?_oldCopyIndex_of_ne (sha256 : String → String) (indexText : String → Option String)
    {n : String} : ∀ (indexes : List String) (dest : PyDict String Entry),
      (∀ i ∈ indexes, n ≠ scipIndexName i ∧ n ≠ scipIndexName i ++ sha256FileSuffix) →
      (Except.cache (oldCopyIndex sha256 indexText indexes dest)).get? n = dest.get? n
  | [], _, _ => rfl
  | index :: rest, dest, h => by
    obtain ⟨h₁, h₂⟩ := h index (List.mem_cons_self _ _)
    have hcopy : ∀ text, ((FsOp.copy (scipIndexName index) text).apply dest).get? n = dest.get? n :=
      fun text => by rw [get?_apply, FsOp.name, if_neg h₁]
    rw [oldCopyIndex_cons]
    cases indexText index with
    | none => rfl
    | some text =>
      dsimp only
      split
      · exact hcopy text
      · rw [get?_oldCopyIndex_of_ne sha256 indexText rest _ fun i hi => h i (List.mem_cons_of_mem _ hi),
          PyDict.get?_set, if_neg h₂, hcopy]

/-! ## `copy_index` -/

section CopyIndex
variable {artifactText : String → Option String} {order : List FsOp → List FsOp}
  {indexToCopy : List String} {dest d' : PyDict String Entry} {ops : List FsOp}

/-- A run of copies removes nothing, and leaves an entry at every name it copies to. -/
theorem isSome_foldl_copies {n : String} :
    ∀ {ops : List FsOp} (dest : PyDict String Entry), (∀ op ∈ ops, ∃ m t, op = .copy m t) →
      (((ops.foldl FsOp.apply dest).get? n).isSome ↔
        (dest.get? n).isSome ∨ ∃ op ∈ ops, op.name = n)
  | [], _, _ => by simp
  | op :: ops, dest, hc => by
    obtain ⟨m, t, rfl⟩ := hc op (List.mem_cons_self _ _)
    rw [List.foldl_cons, isSome_foldl_copies _ fun o ho => hc o (List.mem_cons_of_mem _ ho),
      get?_apply]
    by_cases hn : n = m
    · subst hn
      simp [FsOp.name, isSome_effect_copy]
    · simp [FsOp.name, hn, Ne.symm hn]

/-- The copy phase only copies. -/
theorem copies_copies (cs : PyDict String String) (horder : ∀ l, (order l).Perm l) :
    ∀ op ∈ order ((indexToCopy.map (processAndCopyScipIndex artifactText cs)).flatMap (·.2)),
      ∃ n t, op = .copy n t := fun op hop => by
  obtain ⟨_, hw, hop⟩ := List.mem_flatMap.mp ((horder _).mem_iff.mp hop)
  obtain ⟨a, -, rfl⟩ := List.mem_map.mp hw
  exact processAndCopyScipIndex_copies cs a op hop

/-- Both names of an artifact processed without error are in the directory after the
call, whichever worker last wrote them. -/
theorem isSome_copyIndex_of_processed (horder : ∀ l, (order l).Perm l)
    (h : copyIndex artifactText order indexToCopy dest = some (d', ops)) {a n : String}
    (ha : a ∈ indexToCopy) (hp : Processed artifactText dest a)
    (hn : n ∈ [scipIndexName a, scipIndexName a ++ sha256FileSuffix]) : (d'.get? n).isSome := by
  obtain ⟨cs, hcs, hr⟩ := Option.map_eq_some'.mp h
  cases hr
  have hkept := (isSome_processAndCopyScipIndex hcs a).mpr hp
  rw [get?_cleanup horder, if_pos (.inl (mem_filesToKeepOf.mpr ⟨a, ha, hkept, hn⟩)),
    isSome_foldl_copies _ (copies_copies cs horder)]
  by_cases hc : Current artifactText dest a
  · left
    rcases List.mem_pair.mp hn with rfl | rfl
    · exact PyDict.mem_keys_iff.mp hc.1
    · have hside := hc.2.2.1
      unfold cachedSha at hside
      split at hside <;> simp_all
  · right
    obtain ⟨index, hindex⟩ := Option.isSome_iff_exists.mp (hp.2.resolve_left hc)
    obtain ⟨sha, hsha⟩ := Option.isSome_iff_exists.mp hp.1
    have hw := processAndCopyScipIndex_of_fresh hcs hc hindex hsha
    have hmem : ∀ op ∈ (processAndCopyScipIndex artifactText cs a).2,
        op ∈ order ((indexToCopy.map (processAndCopyScipIndex artifactText cs)).flatMap (·.2)) :=
      fun op hop => (horder _).mem_iff.mpr (List.mem_flatMap.mpr ⟨_, List.mem_map_of_mem _ ha, hop⟩)
    rw [hw] at hmem
    rcases List.mem_pair.mp hn with rfl | rfl
    · exact ⟨_, hmem _ (List.mem_cons_self _ _), rfl⟩
    · exact ⟨_, hmem _ (List.mem_pair.mpr (.inr rfl)), rfl⟩

/-- **What `copy_index` leaves.** Besides the spared entries, the directory holds
exactly the names of the artifacts processed without error, whatever order the
workers run in, and also when two artifacts share a name. -/
theorem mem_keys_copyIndex (horder : ∀ l, (order l).Perm l)
    (h : copyIndex artifactText order indexToCopy dest = some (d', ops)) {n : String}
    (hn : ¬ Spared n) :
    n ∈ d'.keys ↔ ∃ a ∈ indexToCopy, Processed artifactText dest a ∧
      n ∈ [scipIndexName a, scipIndexName a ++ sha256FileSuffix] := by
  refine ⟨fun hmem => ?_, fun ⟨a, ha, hp, hna⟩ =>
    PyDict.mem_keys_iff.mpr (isSome_copyIndex_of_processed horder h ha hp hna)⟩
  obtain ⟨cs, hcs, hr⟩ := Option.map_eq_some'.mp h
  cases hr
  rw [PyDict.mem_keys_iff, get?_cleanup horder] at hmem
  split at hmem
  · rename_i hkeep
    obtain ⟨a, ha, hkept, hna⟩ := mem_filesToKeepOf.mp (hkeep.resolve_right hn)
    exact ⟨a, ha, (isSome_processAndCopyScipIndex hcs a).mp hkept, hna⟩
  · cases hmem

/-- A spared entry that is no artifact's name is left as it was. -/
theorem get?_copyIndex_spared (horder : ∀ l, (order l).Perm l)
    (h : copyIndex artifactText order indexToCopy dest = some (d', ops)) {n : String}
    (hsp : Spared n) (hn : ∀ a ∈ indexToCopy, n ∉ [scipIndexName a, scipIndexName a ++ sha256FileSuffix]) :
    d'.get? n = dest.get? n := by
  obtain ⟨cs, hcs, hr⟩ := Option.map_eq_some'.mp h
  cases hr
  rw [get?_cleanup horder, if_pos (.inr hsp), get?_copies_of_not_owner horder dest hn]

/-- From a cache where the invariant holds, the status scan does not raise, so
`copy_index` returns. -/
theorem copyIndex_isSome (hinv : CacheInv dest) :
    (copyIndex artifactText order indexToCopy dest).isSome := by
  rw [copyIndex, Option.isSome_map']
  exact currentStatusOf_isSome fun f _ _ => hinv.ne_dir (sidecar_ne_workDir f)

theorem cacheInv_copyIndex (horder : ∀ l, (order l).Perm l) (hinv : CacheInv dest)
    (h : copyIndex artifactText order indexToCopy dest = some (d', ops)) : CacheInv d' := by
  refine cacheInv_of (fun n hn => ?_) (fun n hn hscip hsp => ?_)
  · obtain ⟨cs, hcs, hr⟩ := Option.map_eq_some'.mp h
    cases hr
    rw [get?_cleanup horder] at hn
    split at hn
    · exact hinv.dir (dir_of_foldl_apply hn)
    · cases hn
  · obtain ⟨a, ha, hp, hna⟩ := (mem_keys_copyIndex horder h hsp).mp hn
    rcases List.mem_pair.mp hna with rfl | rfl
    · exact PyDict.mem_keys_iff.mpr (isSome_copyIndex_of_processed horder h ha hp
        (List.mem_pair.mpr (.inr rfl)))
    · exact absurd hscip (by rw [endsWith_sidecar]; decide)

/-- **A second call changes nothing.** With distinct artifact names, none spared and
no directory at any, a call on what a first call left leaves every entry as it
was, whatever order the workers of either call run in, also when the first call
left an artifact out. It may copy again (a name not ending in `.scip`, an empty
sidecar), but only what is already there. -/
theorem copyIndex_stable (horder : ∀ l, (order l).Perm l)
    (hnames : (artifactNames indexToCopy).Nodup)
    (hfree : ∀ a ∈ indexToCopy, ∀ n ∈ [scipIndexName a, scipIndexName a ++ sha256FileSuffix],
      ¬ Spared n ∧ dest.get? n ≠ some .dir)
    {d₁ d₂ : PyDict String Entry} {ops₁ ops₂ : List FsOp}
    (h₁ : copyIndex artifactText order indexToCopy dest = some (d₁, ops₁))
    (h₂ : copyIndex artifactText order indexToCopy d₁ = some (d₂, ops₂)) (n : String) :
    d₂.get? n = d₁.get? n := by
  obtain ⟨cs₁, hcs₁, hown₁, -⟩ := get?_copyIndex horder hnames h₁
  obtain ⟨cs₂, hcs₂, hown₂, -⟩ := get?_copyIndex horder hnames h₂
  by_cases howner : ∃ a ∈ indexToCopy, n ∈ [scipIndexName a, scipIndexName a ++ sha256FileSuffix]
  · obtain ⟨a, ha, hn⟩ := howner
    by_cases hp₁ : Processed artifactText dest a
    · exact get?_processed_again horder hnames h₁ h₂ ha hp₁ (fun m hm => (hfree a ha m hm).2) n hn
    -- left out by the first call, so absent, and left out again
    have hsp : ∀ m ∈ [scipIndexName a, scipIndexName a ++ sha256FileSuffix], ¬ Spared m :=
      fun m hm => (hfree a ha m hm).1
    have hnone : ∀ m ∈ [scipIndexName a, scipIndexName a ++ sha256FileSuffix], d₁.get? m = none :=
      fun m hm => by
        rw [hown₁ a ha m hm, if_neg (not_or.mpr ⟨mt (isSome_processAndCopyScipIndex hcs₁ a).mp hp₁,
          hsp m hm⟩)]
    have hp₂ : ¬ Processed artifactText d₁ a := fun hp => hp₁ ⟨hp.1, .inr (hp.2.resolve_left
      fun hc => by
        have hkey := PyDict.mem_keys_iff.mp hc.1
        rw [hnone _ (List.mem_cons_self _ _)] at hkey
        cases hkey)⟩
    rw [hown₂ a ha n hn, if_neg (not_or.mpr ⟨mt (isSome_processAndCopyScipIndex hcs₂ a).mp hp₂,
      hsp n hn⟩), hnone n hn]
  · exact get?_second_call_of_not_owner horder hnames h₁ h₂ fun a ha hmem => howner ⟨a, ha, hmem⟩

theorem effect_effect (op : FsOp) (e : Option Entry) : op.effect (op.effect e) = op.effect e := by
  match op, e with
  | .copy _ _, none => rfl
  | .copy _ _, some .dir => rfl
  | .copy _ _, some (.file _) => rfl
  | .remove _, _ => rfl

/-- When every operation on `n` is `op`, `op` decides its value, whatever the order
and however often it runs. -/
theorem get?_run_of_only {n : String} {op : FsOp} (hn : op.name = n) :
    ∀ {ops : List FsOp} (dest : PyDict String Entry), (∀ o ∈ ops, o.name = n → o = op) →
      (ops.foldl FsOp.apply dest).get? n = if op ∈ ops then op.effect (dest.get? n) else dest.get? n
  | [], _, _ => rfl
  | o :: ops, dest, honly => by
    rw [List.foldl_cons, get?_run_of_only hn _ fun o' ho' => honly o' (List.mem_cons_of_mem _ ho'),
      get?_apply]
    by_cases ho : o.name = n
    · obtain rfl := honly o (List.mem_cons_self _ _) ho
      rw [if_pos ho.symm, ← ho, if_pos (List.mem_cons_self _ _)]
      split_ifs
      · exact effect_effect _ _
      · rfl
    · have hne : o ≠ op := fun h => ho (h ▸ hn)
      rw [if_neg (Ne.symm ho)]
      simp only [List.mem_cons, hne.symm, false_or]

/-- **Two artifacts that share an index name.** When the cache holds the first one
as current, a call finds it current and copies the second one's index and sidecar
over it, whatever order the workers run in, so the second one is current after
the call. -/
theorem copyIndex_collision (horder : ∀ l, (order l).Perm l) {a b : String} (ha : a ∈ indexToCopy)
    (hb : b ∈ indexToCopy) (hname : scipIndexName b = scipIndexName a)
    (hothers : ∀ c ∈ indexToCopy, c ≠ a → c ≠ b →
      scipIndexName c ≠ scipIndexName a ∧ scipIndexName c ≠ scipIndexName a ++ sha256FileSuffix)
    {ib sa sb : String} (hib : artifactText b = some ib)
    (hsa : artifactText (a ++ sha256FileSuffix) = some sa)
    (hsb : artifactText (b ++ sha256FileSuffix) = some sb) (hdiff : readStripped sa ≠ readStripped sb)
    (hsb0 : readStripped sb ≠ "") (hcur : Current artifactText dest a) (hread : StatusReadable dest)
    (hdir : dest.get? (scipIndexName a) ≠ some .dir) :
    ∃ d' ops, copyIndex artifactText order indexToCopy dest = some (d', ops) ∧
      d'.get? (scipIndexName a) = some (.file ib) ∧
      d'.get? (scipIndexName a ++ sha256FileSuffix) = some (.file sb) ∧
      Current artifactText d' b := by
  obtain ⟨cs, hcs⟩ := Option.isSome_iff_exists.mp (currentStatusOf_isSome hread)
  set N := scipIndexName a
  have hncur : ¬ Current artifactText dest b := fun hc => by
    have h := hcur.2.2.2.symm.trans (hname ▸ hc.2.2.2)
    simp only [artifactSha, hsa, hsb, Option.map_some', Option.some.injEq] at h
    exact hdiff h
  have hwb := processAndCopyScipIndex_of_fresh hcs hncur hib hsb
  rw [hname] at hwb
  have hNS : N ≠ N ++ sha256FileSuffix := scipIndexName_ne_sidecar a
  have hcancel : ∀ x y : String, x ++ sha256FileSuffix = y ++ sha256FileSuffix → x = y := fun x y h =>
    String.ext (List.append_cancel_right (by simpa only [String.data_append] using congrArg String.data h))
  set results := indexToCopy.map (processAndCopyScipIndex artifactText cs)
  set copies := order (results.flatMap (·.2))
  -- the only copies to `N` and its sidecar are `b`'s two
  have honly : ∀ m ∈ [N, N ++ sha256FileSuffix], ∀ o ∈ results.flatMap (·.2), o.name = m →
      o ∈ [FsOp.copy N ib, .copy (N ++ sha256FileSuffix) sb] := by
    intro m hm o ho hom
    obtain ⟨w, hw, how⟩ := List.mem_flatMap.mp ho
    obtain ⟨c, hc, rfl⟩ := List.mem_map.mp hw
    by_cases hca : c = a
    · subst hca
      rw [processAndCopyScipIndex_of_current hcs hcur] at how
      cases how
    by_cases hcb : c = b
    · subst hcb
      rwa [hwb] at how
    have hsub := (processAndCopyScipIndex_names c).2.subset
      (List.mem_map_of_mem FsOp.name how)
    obtain ⟨h1, h2⟩ := hothers c hc hca hcb
    exfalso
    rcases List.mem_pair.mp hm with rfl | rfl <;> rcases List.mem_pair.mp hsub with h | h <;>
      rw [hom] at h
    · exact h1 h.symm
    · exact absurd (congrArg (fun s : String => s.toList.getLast?) h) (by
        dsimp only
        rw [getLast?_sidecar, getLast?_of_endsWith hcur.2.1 (by decide)]
        decide)
    · exact h2 h.symm
    · exact h1 (hcancel _ _ h).symm
  have hval : ∀ {m t}, FsOp.copy m t ∈ [FsOp.copy N ib, .copy (N ++ sha256FileSuffix) sb] →
      dest.get? m ≠ some .dir →
      (cleanup order (filesToKeepOf results) (copies.foldl FsOp.apply dest)).1.get? m = some (.file t) := by
    intro m t hmt hd
    have hm : m ∈ [N, N ++ sha256FileSuffix] := by
      rcases List.mem_pair.mp hmt with h | h <;> cases h <;> simp
    have hkeep : m ∈ filesToKeepOf results :=
      mem_filesToKeepOf.mpr ⟨b, hb, by rw [processAndCopyScipIndex_of_fresh hcs hncur hib hsb]; rfl,
        hname ▸ hm⟩
    have hin : FsOp.copy m t ∈ copies :=
      (horder _).mem_iff.mpr (List.mem_flatMap.mpr ⟨_, List.mem_map_of_mem _ hb, by rwa [hwb]⟩)
    rw [get?_cleanup horder, if_pos (.inl hkeep), @get?_run_of_only m (.copy m t) rfl _ _ fun o ho hom => ?_,
      if_pos hin, effect_copy hd]
    have ho' := honly m hm o ((horder _).mem_iff.mp ho) hom
    rcases List.mem_pair.mp hmt with h | h <;> cases h <;> rcases List.mem_pair.mp ho' with rfl | rfl
    · rfl
    · exact absurd hom hNS.symm
    · exact absurd hom hNS
    · rfl
  have hN := hval (List.mem_cons_self _ _) hdir
  have hS := hval (List.mem_pair.mpr (.inr rfl)) (hread N hcur.1 hcur.2.1)
  refine ⟨_, _, by rw [copyIndex, hcs, Option.map_some'], hN, hS, ?_⟩
  rw [Current, hname]
  have hsha : cachedSha (cleanup order (filesToKeepOf results) (copies.foldl FsOp.apply dest)).1 N =
      artifactSha artifactText (b ++ sha256FileSuffix) := by
    simp only [cachedSha, hS, if_neg hsb0, artifactSha, hsb, Option.map_some']
  exact ⟨PyDict.mem_keys_iff.mpr (by rw [hN]; rfl), hcur.2.1, by rw [hsha, artifactSha, hsb]; rfl, hsha⟩

end CopyIndex

end ScipSync.Cache.Directory
