import Mathlib.Data.List.Nodup

/-! Python dictionaries as the synchronizer uses them. A dictionary is its
entries in insertion order, each key at most once: `d[k] = v` replaces the
value of a present key in place and appends a new key at the end, so iteration
follows first insertion. Every dictionary of the code (the dependency graph,
the action-graph lookups, the workspace tables) is a `PyDict`. -/

namespace ScipSync.Basic.Dict

/-- A Python `dict`. Its key list has no duplicates, so no value of this type
is a dictionary Python could not hold. -/
structure PyDict (κ ν : Type) where
  entries : List (κ × ν)
  nodup : (entries.map Prod.fst).Nodup

namespace PyDict
variable {κ ν : Type}

theorem ext_entries {d e : PyDict κ ν} (h : d.entries = e.entries) : d = e := by
  cases d; cases e; cases h; rfl

instance [DecidableEq κ] [DecidableEq ν] : DecidableEq (PyDict κ ν) := fun d e =>
  decidable_of_iff (d.entries = e.entries) ⟨ext_entries, fun h => h ▸ rfl⟩

/-- `{}`. -/
def empty : PyDict κ ν := ⟨[], List.nodup_nil⟩

/-- `d.keys()`, in iteration order. -/
def keys (d : PyDict κ ν) : List κ := d.entries.map Prod.fst

@[simp] theorem keys_empty : (empty : PyDict κ ν).keys = [] := rfl

variable [DecidableEq κ]

/-- The value of the first entry with key `k`. -/
def lookupEntry (k : κ) : List (κ × ν) → Option ν
  | [] => none
  | (k', v) :: rest => if k' = k then some v else lookupEntry k rest

theorem lookupEntry_isSome {k : κ} {l : List (κ × ν)} :
    (lookupEntry k l).isSome ↔ k ∈ l.map Prod.fst := by
  induction l with
  | nil => simp [lookupEntry]
  | cons e rest ih =>
    obtain ⟨k', v⟩ := e
    by_cases h : k' = k
    · subst h; simp [lookupEntry]
    · simp only [lookupEntry, h, if_false, ih, List.map_cons, List.mem_cons, Ne.symm h,
        false_or]

theorem mem_of_lookupEntry {k : κ} {v : ν} {l : List (κ × ν)} (h : lookupEntry k l = some v) :
    (k, v) ∈ l := by
  induction l with
  | nil => cases h
  | cons e rest ih =>
    obtain ⟨k', v'⟩ := e
    unfold lookupEntry at h
    split_ifs at h with hk
    · cases h; subst hk; exact List.mem_cons_self _ _
    · exact List.mem_cons_of_mem _ (ih h)

/-- `d.get(k)`: the value of `k`, or `None`. -/
def get? (d : PyDict κ ν) (k : κ) : Option ν := lookupEntry k d.entries

/-- `d.get(k, default)`. -/
def getD (d : PyDict κ ν) (k : κ) (default : ν) : ν := (d.get? k).getD default

/-- The entries after `d[k] = v`. -/
def setEntries (k : κ) (v : ν) : List (κ × ν) → List (κ × ν)
  | [] => [(k, v)]
  | (k', v') :: rest => if k' = k then (k, v) :: rest else (k', v') :: setEntries k v rest

theorem keys_setEntries (k : κ) (v : ν) (l : List (κ × ν)) :
    (setEntries k v l).map Prod.fst =
      if k ∈ l.map Prod.fst then l.map Prod.fst else l.map Prod.fst ++ [k] := by
  induction l with
  | nil => simp [setEntries]
  | cons e rest ih =>
    obtain ⟨k', v'⟩ := e
    by_cases h : k' = k
    · subst h; simp [setEntries]
    · simp only [setEntries, h, if_false, List.map_cons, ih, List.mem_cons, Ne.symm h,
        false_or]
      split <;> simp

theorem lookupEntry_setEntries (k k' : κ) (v : ν) (l : List (κ × ν)) :
    lookupEntry k' (setEntries k v l) = if k' = k then some v else lookupEntry k' l := by
  induction l with
  | nil =>
    by_cases h : k' = k
    · subst h; simp [setEntries, lookupEntry]
    · simp [setEntries, lookupEntry, h, Ne.symm h]
  | cons e rest ih =>
    obtain ⟨k'', v'⟩ := e
    by_cases h : k'' = k
    · subst h
      by_cases h' : k' = k''
      · subst h'; simp [setEntries, lookupEntry]
      · simp [setEntries, lookupEntry, h', Ne.symm h']
    · by_cases h' : k'' = k'
      · subst h'; simp [setEntries, lookupEntry, h]
      · simp [setEntries, lookupEntry, h, h', ih]

/-- `d[k] = v`. -/
def set (d : PyDict κ ν) (k : κ) (v : ν) : PyDict κ ν where
  entries := setEntries k v d.entries
  nodup := by
    rw [keys_setEntries]
    split
    · exact d.nodup
    · exact d.nodup.append (List.nodup_singleton k) (List.disjoint_singleton.mpr ‹_›)

@[simp] theorem get?_empty (k : κ) : (empty : PyDict κ ν).get? k = none := rfl

@[simp] theorem get?_set (d : PyDict κ ν) (k k' : κ) (v : ν) :
    (d.set k v).get? k' = if k' = k then some v else d.get? k' :=
  lookupEntry_setEntries k k' v d.entries

theorem setEntries_setEntries (k : κ) (v v' : ν) :
    ∀ l : List (κ × ν), setEntries k v' (setEntries k v l) = setEntries k v' l
  | [] => by simp [setEntries]
  | (k', w) :: rest => by
    by_cases h : k' = k
    · simp [setEntries, h]
    · simp [setEntries, h, setEntries_setEntries k v v' rest]

/-- `d[k] = v` followed by `d[k] = v'` is `d[k] = v'`. -/
theorem set_set (d : PyDict κ ν) (k : κ) (v v' : ν) : (d.set k v).set k v' = d.set k v' :=
  ext_entries (setEntries_setEntries k v v' d.entries)

theorem setEntries_of_lookupEntry {k : κ} {v : ν} :
    ∀ {l : List (κ × ν)}, lookupEntry k l = some v → setEntries k v l = l
  | [], h => nomatch h
  | (k', w) :: rest, h => by
    rw [setEntries]
    rw [lookupEntry] at h
    split_ifs at h ⊢ with hk
    · cases h
      rw [hk]
    · rw [setEntries_of_lookupEntry h]

/-- `d[k] = v` when `d[k]` is already `v` changes nothing. -/
theorem set_of_get? {d : PyDict κ ν} {k : κ} {v : ν} (h : d.get? k = some v) : d.set k v = d :=
  ext_entries (setEntries_of_lookupEntry h)

theorem mem_entries_of_get? {d : PyDict κ ν} {k : κ} {v : ν} (h : d.get? k = some v) :
    (k, v) ∈ d.entries :=
  mem_of_lookupEntry h

theorem mem_keys_iff {d : PyDict κ ν} {k : κ} : k ∈ d.keys ↔ (d.get? k).isSome :=
  lookupEntry_isSome.symm

theorem keys_set (d : PyDict κ ν) (k : κ) (v : ν) :
    (d.set k v).keys = if k ∈ d.keys then d.keys else d.keys ++ [k] :=
  keys_setEntries k v d.entries

theorem mem_keys_set {d : PyDict κ ν} {k k' : κ} {v : ν} :
    k' ∈ (d.set k v).keys ↔ k' = k ∨ k' ∈ d.keys := by
  rw [keys_set]; split <;> simp_all [or_comm, or_iff_left_of_imp]

@[simp] theorem getD_set (d : PyDict κ ν) (k k' : κ) (v w : ν) :
    (d.set k v).getD k' w = if k' = k then v else d.getD k' w := by
  simp only [getD, get?_set]; split <;> rfl

theorem lookupEntry_filter_ne (k k' : κ) (l : List (κ × ν)) :
    lookupEntry k' (l.filter fun e => e.1 ≠ k) = if k' = k then none else lookupEntry k' l := by
  induction l with
  | nil => simp [lookupEntry]
  | cons e rest ih =>
    obtain ⟨k'', v⟩ := e
    by_cases h : k'' = k
    · subst h
      rw [List.filter_cons_of_neg (by simp), ih]
      by_cases h' : k' = k''
      · simp [h']
      · simp [lookupEntry, h', Ne.symm h']
    · rw [List.filter_cons_of_pos (by simpa using h)]
      simp only [lookupEntry, ih]
      by_cases h' : k' = k
      · subst h'; simp [h]
      · simp [h']

/-- `del d[k]`: the other entries keep their order. -/
def erase (d : PyDict κ ν) (k : κ) : PyDict κ ν where
  entries := d.entries.filter fun e => e.1 ≠ k
  nodup := d.nodup.sublist ((List.filter_sublist _).map Prod.fst)

@[simp] theorem get?_erase (d : PyDict κ ν) (k k' : κ) :
    (d.erase k).get? k' = if k' = k then none else d.get? k' :=
  lookupEntry_filter_ne k k' d.entries

/-- A dictionary is empty exactly when no key has a value. -/
theorem entries_eq_nil_iff {d : PyDict κ ν} : d.entries = [] ↔ ∀ k, d.get? k = none := by
  refine ⟨fun h k => by simp only [get?, h, lookupEntry], fun h => ?_⟩
  match he : d.entries with
  | [] => rfl
  | (k, v) :: _ => simpa [get?, he, lookupEntry] using h k

theorem setEntries_of_not_mem {k : κ} (v : ν) :
    ∀ {l : List (κ × ν)}, k ∉ l.map Prod.fst → setEntries k v l = l ++ [(k, v)]
  | [], _ => rfl
  | (k', v') :: rest, h => by
    simp only [List.map_cons, List.mem_cons, not_or] at h
    simp only [setEntries, if_neg (Ne.symm h.1), setEntries_of_not_mem v h.2, List.cons_append]

/-- Setting distinct new keys appends them in order. -/
theorem entries_foldl_set {l : List (κ × ν)} (hl : (l.map Prod.fst).Nodup) :
    ∀ d : PyDict κ ν, (∀ k ∈ l.map Prod.fst, k ∉ d.keys) →
      (l.foldl (fun d p => d.set p.1 p.2) d).entries = d.entries ++ l := by
  induction l with
  | nil => intro d _; simp
  | cons e rest ih =>
    intro d hd
    rw [List.map_cons, List.nodup_cons] at hl
    have hk : e.1 ∉ d.keys := hd e.1 (List.mem_cons_self _ _)
    have hset : (d.set e.1 e.2).entries = d.entries ++ [e] := setEntries_of_not_mem e.2 hk
    rw [List.foldl_cons, ih hl.2 _ fun k hk' => ?_, hset, List.append_assoc, List.singleton_append]
    rw [keys_set, if_neg hk, List.mem_append, List.mem_singleton, not_or]
    exact ⟨hd k (List.mem_cons_of_mem _ hk'), fun h => hl.1 (h ▸ hk')⟩

/-! ## Loops that fill a dictionary -/

section Fold
variable {α : Type} (key : α → κ) (f : α → Option ν)

/-- One iteration of `for x in xs: if f(x): d[key(x)] = f(x)`. -/
def setSome (d : PyDict κ ν) (x : α) : PyDict κ ν :=
  match f x with
  | some v => d.set (key x) v
  | none => d

theorem get?_setSome (d : PyDict κ ν) (x : α) (k : κ) :
    (setSome key f d x).get? k = if key x = k then (f x).or (d.get? k) else d.get? k := by
  unfold setSome
  by_cases h : key x = k
  · subst h; cases f x <;> simp
  · cases f x <;> simp [h, Ne.symm h]

/-- The loop body `if c(x): skip, else d[key(x)] = v(x)`. -/
theorem setSome_ite (c : α → Bool) (v : α → ν) (d : PyDict κ ν) (x : α) :
    setSome key (fun x => if c x then none else some (v x)) d x =
      if c x then d else d.set (key x) (v x) := by
  unfold setSome; dsimp only; cases c x <;> rfl

theorem get?_foldl_setSome_of_not_mem {l : List α} {k : κ} (hk : k ∉ l.map key) :
    ∀ d : PyDict κ ν, (l.foldl (setSome key f) d).get? k = d.get? k := by
  induction l with
  | nil => intro d; rfl
  | cons x xs ih =>
    intro d
    simp only [List.map_cons, List.mem_cons, not_or] at hk
    rw [List.foldl_cons, ih hk.2, get?_setSome, if_neg (Ne.symm hk.1)]

/-- With distinct keys, the loop leaves at `key x` what `x` set, if anything. -/
theorem get?_foldl_setSome_of_mem {l : List α} {x : α} (hl : (l.map key).Nodup) (hx : x ∈ l) :
    ∀ d : PyDict κ ν, (l.foldl (setSome key f) d).get? (key x) = (f x).or (d.get? (key x)) := by
  induction l with
  | nil => cases hx
  | cons y ys ih =>
    intro d
    rw [List.map_cons, List.nodup_cons] at hl
    rw [List.foldl_cons]
    rcases List.mem_cons.mp hx with rfl | hx
    · rw [get?_foldl_setSome_of_not_mem key f hl.1, get?_setSome, if_pos rfl]
    · have hne : key y ≠ key x := fun h => hl.1 (h ▸ List.mem_map_of_mem key hx)
      rw [ih hl.2 hx, get?_setSome, if_neg hne]

theorem exists_of_get?_foldl_setSome {l : List α} {k : κ} {v : ν} :
    ∀ d : PyDict κ ν, (l.foldl (setSome key f) d).get? k = some v →
      d.get? k = some v ∨ ∃ x ∈ l, key x = k ∧ f x = some v := by
  induction l with
  | nil => exact fun _ h => .inl h
  | cons x xs ih =>
    intro d h
    rcases ih _ h with h | ⟨y, hy, hk, hv⟩
    · rw [get?_setSome] at h
      split_ifs at h with hk
      · cases hx : f x with
        | none => rw [hx] at h; exact .inl h
        | some w => rw [hx] at h; cases h; exact .inr ⟨x, List.mem_cons_self _ _, hk, hx⟩
      · exact .inl h
    · exact .inr ⟨y, List.mem_cons_of_mem _ hy, hk, hv⟩

/-- `for x in keys: if (v := f(x)) is not None: d[x] = v`, over distinct keys:
each key holds its value, if it has one. -/
theorem get?_foldl_set_filterMap (g : κ → Option ν) (k : κ) :
    ∀ {l : List κ}, l.Nodup → ∀ d : PyDict κ ν,
      ((l.filterMap fun x => (g x).map (x, ·)).foldl (fun d p => d.set p.1 p.2) d).get? k =
        if k ∈ l then (g k).or (d.get? k) else d.get? k
  | [], _, _ => rfl
  | a :: l, hl, d => by
    rw [List.nodup_cons] at hl
    have ih := get?_foldl_set_filterMap g k hl.2
    by_cases hk : k = a
    · subst hk
      cases hg : g k <;> simp [List.filterMap_cons, hg, ih, hl.1]
    · cases hg : g a <;> simp [List.filterMap_cons, hg, ih, hk]

end Fold

section Modify
variable {β : Type} (h : Option ν → β → ν)

/-- One iteration of `for k, b in items: d[k] = h(d.get(k), b)`. -/
def modify (d : PyDict κ ν) (e : κ × β) : PyDict κ ν := d.set e.1 (h (d.get? e.1) e.2)

/-- With distinct keys in `items`, each key is modified once, from its value
before the loop. -/
theorem get?_foldl_modify {l : List (κ × β)} (hl : (l.map Prod.fst).Nodup) (k : κ) :
    ∀ d : PyDict κ ν, (l.foldl (modify h) d).get? k =
      match lookupEntry k l with
      | some b => some (h (d.get? k) b)
      | none => d.get? k := by
  induction l with
  | nil => intro d; rfl
  | cons e rest ih =>
    intro d
    obtain ⟨k', b'⟩ := e
    rw [List.map_cons, List.nodup_cons] at hl
    rw [List.foldl_cons, ih hl.2]
    by_cases hk : k' = k
    · subst hk
      have hnone : lookupEntry k' rest = none := by
        cases hr : lookupEntry k' rest with
        | none => rfl
        | some _ => exact absurd (lookupEntry_isSome.mp (by simp [hr])) hl.1
      simp [lookupEntry, hnone, modify]
    · simp [lookupEntry, hk, modify, Ne.symm hk]

end Modify

end PyDict

end ScipSync.Basic.Dict
