import OpsBlobs.FileRegistry

namespace OpsBlobs.RegistryScan

open Types Hlc ExclusionPolicy FileRegistry

variable {r : FileRegistry} {f : FileEntry → FileEntry}
  {hf : ∀ e, (f e).id = e.id ∧ (f e).path = e.path} {id : String} {path q : Path}
  {e : FileEntry} {hlc : Hlc}

section Lookup

theorem getByPath_eq_none_iff : r.getByPath q = none ↔ r.pathIndex.get q = none := by
  rw [getByPath]
  cases h : r.pathIndex.get q with
  | none => simp
  | some id =>
      obtain ⟨e, he, -⟩ := r.indexed q id h
      simp [he]

theorem getByPath_iff : r.getByPath q = some e ↔
    ∃ id, r.pathIndex.get q = some id ∧ r.entries.get id = some e := by
  rw [getByPath, Option.bind_eq_some_iff]

theorem getByPath_change : (r.change f hf id).getByPath q =
    if r.pathIndex.get q = some id then (r.getByPath q).map f else r.getByPath q := by
  rw [getByPath, pathIndex_change, getByPath]
  cases h : r.pathIndex.get q with
  | none => simp
  | some id' =>
      rw [Option.bind_some, Option.bind_some, get_change]
      by_cases hid : id = id'
      · rw [if_pos hid, if_pos (congrArg some hid.symm)]
      · rw [if_neg hid, if_neg fun h => hid (Option.some.inj h).symm]

theorem getByPath_changeAt : (r.changeAt f hf path).getByPath q =
    if path = q then (r.getByPath q).map f else r.getByPath q := by
  cases h : r.pathIndex.get path with
  | none =>
      simp only [changeAt, h]
      split
      · rename_i hq
        rw [← hq, getByPath_eq_none_iff.2 h]
        rfl
      · rfl
  | some id =>
      simp only [changeAt, h]
      rw [getByPath_change]
      by_cases hq : path = q
      · rw [if_pos hq, if_pos (hq ▸ h)]
      · rw [if_neg hq, if_neg]
        intro h'
        obtain ⟨e, he, hp⟩ := r.indexed path id h
        obtain ⟨e', he', hp'⟩ := r.indexed q id h'
        obtain rfl := Option.some.inj (he.symm.trans he')
        exact hq (hp.symm.trans hp')

theorem getById_changeAt (h : r.getByPath path = some e) :
    (r.changeAt f hf path).getById e.id = some (f e) := by
  obtain ⟨k, hk, he⟩ := getByPath_iff.1 h
  have hid : e.id = k := FileEntries.get_id he
  simp only [changeAt, hk]
  subst hid
  rw [getById, get_change, if_pos rfl, he]
  rfl

/-- The entry that is moved is the only one that changes. -/
theorem getById_updatePath {oldPath : Path} (h : r.getByPath oldPath = some e) (newPath : Path)
    (hlc : Hlc) : (r.updatePath oldPath newPath hlc).getById id =
      if e.id = id then some { e with path := newPath, hlcTimestamp := hlc } else r.getById id := by
  obtain ⟨k, hk, he⟩ := getByPath_iff.1 h
  rw [updatePath]
  split
  · rename_i hnone
    cases hnone.symm.trans hk
  · rename_i k' hk'
    obtain rfl := Option.some.inj (hk'.symm.trans hk)
    split
    · rename_i hnone
      cases hnone.symm.trans he
    · rename_i e' he'
      obtain rfl := Option.some.inj (he'.symm.trans he)
      exact FileEntries.get_set ..

theorem getByPath_updatePath {oldPath : Path} (h : r.getByPath oldPath = some e) (newPath : Path)
    (hlc : Hlc) : (r.updatePath oldPath newPath hlc).getByPath newPath =
      some { e with path := newPath, hlcTimestamp := hlc } := by
  obtain ⟨k, hk, he⟩ := getByPath_iff.1 h
  refine getByPath_iff.2 ⟨e.id, ?_, (getById_updatePath h newPath hlc).trans (if_pos rfl)⟩
  rw [updatePath]
  split
  · rename_i hnone
    cases hnone.symm.trans hk
  · rename_i k' hk'
    obtain rfl := Option.some.inj (hk'.symm.trans hk)
    split
    · rename_i hnone
      cases hnone.symm.trans he
    · exact ((JsMap.get_set ..).trans (if_pos rfl)).trans (congrArg some (FileEntries.get_id he).symm)

theorem registerFile_new {D : Device} (h : r.getByPath path = none) (hlc : Hlc) (contentHash : String)
    (stat : Option VaultFileStat) : ∃ hfresh,
      r.registerFile D path hlc contentHash stat =
        (r.insert (withStat stat (newEntry (D.randomUuid r.entries) path hlc contentHash)) hfresh,
          D.randomUuid r.entries) := by
  rw [getByPath_eq_none_iff] at h
  rw [FileRegistry.registerFile]
  split
  · rename_i id hid
    cases h.symm.trans hid
  · refine ⟨?_, rfl⟩
    rw [(withStat_id stat _).1]
    exact D.randomUuid_fresh r.entries

theorem registerFile_tracked {D : Device} (h : r.getByPath path = some e) (hlc : Hlc)
    (contentHash : String) (stat : Option VaultFileStat) :
    r.registerFile D path hlc contentHash stat = (r.resurrect e.id hlc contentHash stat, e.id) := by
  obtain ⟨id, hid, he⟩ := getByPath_iff.1 h
  rw [FileRegistry.registerFile]
  split
  · rename_i id' hid'
    obtain rfl := Option.some.inj (hid'.symm.trans hid)
    rw [FileEntries.get_id he]
  · rename_i hnone
    cases hnone.symm.trans hid

/-- A live entry of the changed registry was there before, at the same path. -/
theorem active_change (hdel : ∀ e, (f e).deleted = false → e.deleted = false)
    (h : e ∈ (r.change f hf id).getActiveEntries) :
    ∃ e₀ ∈ r.getActiveEntries, e₀.path = e.path := by
  obtain ⟨hmem, hlive⟩ := List.mem_filter.1 h
  have he := (FileEntries.mem_values_iff _).1 hmem
  rw [get_change] at he
  split at he
  · obtain ⟨e₀, he₀, rfl⟩ := Option.map_eq_some_iff.1 he
    refine ⟨e₀, List.mem_filter.2 ⟨(FileEntries.mem_values_iff _).2 ?_, ?_⟩, (hf e₀).2.symm⟩
    · rw [FileEntries.get_id he₀]
      exact he₀
    · rw [Bool.not_eq_true'] at hlive ⊢
      exact hdel e₀ hlive
  · exact ⟨e, List.mem_filter.2 ⟨(FileEntries.mem_values_iff _).2 he, hlive⟩, rfl⟩

theorem active_changeAt (hdel : ∀ e, (f e).deleted = false → e.deleted = false)
    (h : e ∈ (r.changeAt f hf path).getActiveEntries) :
    ∃ e₀ ∈ r.getActiveEntries, e₀.path = e.path := by
  rw [changeAt] at h
  split at h
  · exact ⟨e, h, rfl⟩
  · exact active_change hdel h

end Lookup

section Reconcile

variable {D : Device} {files : List VaultFileRef}

theorem getByPath_insert {hfresh : r.entries.get e.id = none} :
    (r.insert e hfresh).getByPath q = if e.path = q then some e else r.getByPath q := by
  change ((r.pathIndex.set e.path e.id).get q).bind (r.entries.set e).get = _
  rw [getByPath, JsMap.get_set]
  split
  · rw [Option.bind_some, FileEntries.get_set, if_pos rfl]
  · cases h : r.pathIndex.get q with
    | none => rfl
    | some id =>
        rw [Option.bind_some, Option.bind_some, FileEntries.get_set, if_neg]
        rintro rfl
        obtain ⟨e', he', -⟩ := r.indexed q _ h
        cases hfresh.symm.trans he'

theorem getByPath_addPlaceholder : (r.addPlaceholder D hlc path).getByPath q =
    if path = q ∧ r.getByPath q = none ∧ isExcluded q D.settings = false then
      some (newEntry (D.randomUuid r.entries) q hlc "")
    else r.getByPath q := by
  rw [addPlaceholder]
  split
  · rename_i hnew
    obtain ⟨hnone, hexcl⟩ := Bool.and_eq_true_iff.1 hnew
    rw [Bool.not_eq_true'] at hexcl
    refine getByPath_insert.trans ?_
    change (if path = q then _ else _) = _
    by_cases hq : path = q
    · subst hq
      rw [if_pos rfl, if_pos]
      exact ⟨rfl, getByPath_eq_none_iff.2 (Option.isNone_iff_eq_none.1 hnone), hexcl⟩
    · rw [if_neg fun h => hq h, if_neg fun h => hq h.1]
  · rename_i hold
    rw [if_neg]
    rintro ⟨rfl, hnone, hexcl⟩
    apply hold
    rw [getByPath_eq_none_iff.1 hnone, hexcl]
    rfl

theorem getByPath_addPlaceholders_some (h : r.getByPath q = some e) :
    (files.foldl (fun r file => r.addPlaceholder D hlc file.path) r).getByPath q = some e := by
  induction files generalizing r with
  | nil => exact h
  | cons file files ih =>
      apply ih
      rw [getByPath_addPlaceholder, if_neg, h]
      rw [h]
      exact fun h => by cases h.2.1

theorem getByPath_addPlaceholders_none (h : r.getByPath q = none)
    (hmem : q ∈ files.map (·.path)) (hexcl : isExcluded q D.settings = false) :
    ∃ m, (files.foldl (fun r file => r.addPlaceholder D hlc file.path) r).getByPath q =
      some (newEntry (D.randomUuid m) q hlc "") := by
  induction files generalizing r with
  | nil => cases hmem
  | cons file files ih =>
      rw [List.foldl_cons]
      by_cases hq : file.path = q
      · refine ⟨r.entries, getByPath_addPlaceholders_some ?_⟩
        rw [getByPath_addPlaceholder, if_pos ⟨hq, h, hexcl⟩]
      · refine ih ?_ ((List.mem_cons.1 hmem).resolve_left (Ne.symm hq))
        rw [getByPath_addPlaceholder, if_neg fun h => hq h.1, h]

/-- The effect on one entry of a file that is no longer listed. -/
def tombstoned (vaultPaths : List Path) (hlc : Hlc) (e : FileEntry) : FileEntry :=
  if !e.deleted && e.path ∉ vaultPaths then { e with deleted := true, hlcTimestamp := hlc } else e

theorem tombstoned_idem (vaultPaths : List Path) (e : FileEntry) :
    tombstoned vaultPaths hlc (tombstoned vaultPaths hlc e) = tombstoned vaultPaths hlc e := by
  by_cases h : (!e.deleted && e.path ∉ vaultPaths) = true
  · rw [tombstoned, tombstoned, if_pos h]
    rfl
  · rw [tombstoned, tombstoned, if_neg h, if_neg h]

theorem get_tombstoneMissing (vaultPaths : List Path) (id : String) :
    (r.tombstoneMissing vaultPaths hlc).entries.get id =
      (r.entries.get id).map (tombstoned vaultPaths hlc) ∧
    (r.tombstoneMissing vaultPaths hlc).pathIndex = r.pathIndex := by
  have hfold : ∀ (ids : List String) (t : FileRegistry),
      (ids.foldl (fun r id => r.change (tombstoned vaultPaths hlc)
        (fun e => by rw [tombstoned]; split <;> exact ⟨rfl, rfl⟩) id) t).entries.get id =
        (if id ∈ ids then (t.entries.get id).map (tombstoned vaultPaths hlc)
          else t.entries.get id) ∧
      (ids.foldl (fun r id => r.change (tombstoned vaultPaths hlc)
        (fun e => by rw [tombstoned]; split <;> exact ⟨rfl, rfl⟩) id) t).pathIndex =
        t.pathIndex := by
    intro ids
    induction ids with
    | nil => exact fun t => ⟨rfl, rfl⟩
    | cons id' ids ih =>
        intro t
        rw [List.foldl_cons, (ih _).1, (ih _).2, get_change, pathIndex_change]
        refine ⟨?_, rfl⟩
        by_cases hid : id' = id
        · have hidem : tombstoned vaultPaths hlc ∘ tombstoned vaultPaths hlc =
              tombstoned vaultPaths hlc := funext (tombstoned_idem vaultPaths)
          subst hid
          rw [if_pos rfl, if_pos List.mem_cons_self, Option.map_map, hidem, ite_self]
        · simp [hid, Ne.symm hid]
  obtain ⟨hget, hindex⟩ := hfold r.entries.keys r
  refine ⟨?_, hindex⟩
  refine hget.trans ?_
  split
  · rfl
  · rename_i hnone
    cases h : r.entries.get id with
    | none => rfl
    | some e => exact absurd ((FileEntries.mem_keys_iff _).2 ⟨e, h⟩) hnone

theorem getByPath_tombstoneMissing {vaultPaths : List Path} (hq : q ∈ vaultPaths) :
    (r.tombstoneMissing vaultPaths hlc).getByPath q = r.getByPath q := by
  rw [getByPath, (get_tombstoneMissing vaultPaths "").2, getByPath]
  cases h : r.pathIndex.get q with
  | none => rfl
  | some id =>
      obtain ⟨e, he, rfl⟩ := r.indexed q id h
      rw [Option.bind_some, Option.bind_some, (get_tombstoneMissing vaultPaths id).1, he,
        Option.map_some, tombstoned, if_neg]
      simp [hq]

/-- A reconciliation keeps the entry of every listed file. -/
theorem getByPath_reconcile_some (hq : q ∈ files.map (·.path)) (h : r.getByPath q = some e) :
    (r.reconcileWithVault D files hlc).getByPath q = some e := by
  rw [reconcileWithVault, getByPath_tombstoneMissing hq]
  exact getByPath_addPlaceholders_some h

/-- An untracked file gets a placeholder under a new id. -/
theorem getByPath_reconcile_none (hq : q ∈ files.map (·.path)) (h : r.getByPath q = none)
    (hexcl : isExcluded q D.settings = false) :
    ∃ m, (r.reconcileWithVault D files hlc).getByPath q =
      some (newEntry (D.randomUuid m) q hlc "") := by
  rw [reconcileWithVault, getByPath_tombstoneMissing hq]
  exact getByPath_addPlaceholders_none h hq hexcl

/-- After a reconciliation every live entry is that of a listed file. -/
theorem path_of_active_reconcile (h : e ∈ (r.reconcileWithVault D files hlc).getActiveEntries) :
    e.path ∈ files.map (·.path) := by
  obtain ⟨hmem, hlive⟩ := List.mem_filter.1 h
  have he := (FileEntries.mem_values_iff _).1 hmem
  rw [reconcileWithVault, (get_tombstoneMissing _ _).1] at he
  obtain ⟨e₀, -, rfl⟩ := Option.map_eq_some_iff.1 he
  by_contra hpath
  rw [tombstoned] at hlive hpath
  split at hlive
  · cases hlive
  · rename_i hkept
    rw [if_neg hkept] at hpath
    exact hkept (Bool.and_eq_true_iff.2 ⟨hlive, decide_eq_true hpath⟩)

end Reconcile

end OpsBlobs.RegistryScan
