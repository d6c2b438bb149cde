import OpsBlobs.Operations
import OpsBlobs.ExclusionPolicy

namespace OpsBlobs.FileRegistry

open Types Hlc ExclusionPolicy

/-- The file's mtime and size as the vault lists them. -/
structure VaultFileStat where
  mtime : Nat
  size : Nat
  deriving DecidableEq, Repr

structure VaultFileRef extends VaultFileStat where
  path : Path
  deriving DecidableEq, Repr

/-- What a device runs on: its settings, its source of new file ids, and whether its vault
lets a move replace the file at the destination. -/
structure Device extends Platform where
  settings : SyncSettings
  randomUuid : FileEntries → String
  randomUuid_fresh : ∀ m : FileEntries, m.get (randomUuid m) = none
  moveReplaces : Bool

end OpsBlobs.FileRegistry

/-- The tracked files with their path index; an indexed id has its entry at that path.
A tombstone stays indexed. -/
structure OpsBlobs.FileRegistry where
  entries : OpsBlobs.Types.FileEntries
  pathIndex : OpsBlobs.JsMap OpsBlobs.Types.Path String
  indexed : ∀ p id, pathIndex.get p = some id → ∃ e, entries.get id = some e ∧ e.path = p

namespace OpsBlobs.FileRegistry

open Types Hlc ExclusionPolicy

variable (r : FileRegistry)

def empty : FileRegistry := ⟨.empty, .empty, by simp⟩

def getById (id : String) : Option FileEntry := r.entries.get id

def getByPath (path : Path) : Option FileEntry := (r.pathIndex.get path).bind r.entries.get

def getActiveEntries : List FileEntry := r.entries.values.filter (fun e => !e.deleted)

theorem path_of_getByPath {r : FileRegistry} {p : Path} {e : FileEntry}
    (h : r.getByPath p = some e) : e.path = p ∧ r.entries.get e.id = some e := by
  obtain ⟨id, hid, he⟩ := Option.bind_eq_some_iff.1 h
  obtain ⟨e', he', hp⟩ := r.indexed p id hid
  obtain rfl := Option.some.inj (he'.symm.trans he)
  exact ⟨hp, FileEntries.get_id he ▸ he⟩

/-- Overwrite an entry in place: it keeps its id and its path. -/
def change (f : FileEntry → FileEntry) (hf : ∀ e, (f e).id = e.id ∧ (f e).path = e.path)
    (id : String) : FileRegistry :=
  match h : r.entries.get id with
  | none => r
  | some e =>
      ⟨r.entries.set (f e), r.pathIndex, by
        intro p i hp
        obtain ⟨e', he', hp'⟩ := r.indexed p i hp
        rw [FileEntries.get_set, (hf e).1, FileEntries.get_id h]
        by_cases hi : id = i
        · subst hi
          cases h.symm.trans he'
          exact ⟨f e, if_pos rfl, (hf e).2.trans hp'⟩
        · exact ⟨e', (if_neg hi).trans he', hp'⟩⟩

theorem get_change {r : FileRegistry} {f : FileEntry → FileEntry}
    {hf : ∀ e, (f e).id = e.id ∧ (f e).path = e.path} {id id' : String} :
    (r.change f hf id).entries.get id' =
      if id = id' then (r.entries.get id').map f else r.entries.get id' := by
  unfold change
  split
  · rename_i h
    split
    · rename_i hid
      rw [← hid, h]
      rfl
    · rfl
  · rename_i e h
    rw [FileEntries.get_set, (hf e).1, FileEntries.get_id h]
    split
    · rename_i hid
      rw [← hid, h]
      rfl
    · rfl

@[simp] theorem pathIndex_change {r : FileRegistry} {f : FileEntry → FileEntry}
    {hf : ∀ e, (f e).id = e.id ∧ (f e).path = e.path} {id : String} :
    (r.change f hf id).pathIndex = r.pathIndex := by
  unfold change
  split <;> rfl

/-- The same, found through the path index. -/
def changeAt (f : FileEntry → FileEntry) (hf : ∀ e, (f e).id = e.id ∧ (f e).path = e.path)
    (path : Path) : FileRegistry :=
  match r.pathIndex.get path with
  | none => r
  | some id => r.change f hf id

def withStat (stat : Option VaultFileStat) (e : FileEntry) : FileEntry :=
  match stat with
  | some stat => { e with mtime := some stat.mtime, size := some stat.size }
  | none => e

theorem withStat_id (stat : Option VaultFileStat) (e : FileEntry) :
    (withStat stat e).id = e.id ∧ (withStat stat e).path = e.path := by
  cases stat <;> exact ⟨rfl, rfl⟩

/-- A first-time file; its id is new. -/
def insert (e : FileEntry) (hfresh : r.entries.get e.id = none) : FileRegistry where
  entries := r.entries.set e
  pathIndex := r.pathIndex.set e.path e.id
  indexed p i hp := by
    rw [JsMap.get_set] at hp
    rw [FileEntries.get_set]
    split at hp
    · rename_i he
      exact ⟨e, if_pos (Option.some.inj hp), he⟩
    · obtain ⟨e', he', hp'⟩ := r.indexed p i hp
      refine ⟨e', (if_neg ?_).trans he', hp'⟩
      rintro rfl
      exact nomatch hfresh.symm.trans he'

/-- A tracked path is kept, and a tombstone there comes back under its old id. -/
def resurrect (id : String) (hlc : Hlc) (contentHash : String) (stat : Option VaultFileStat) :
    FileRegistry :=
  match r.entries.get id with
  | none => r
  | some entry =>
      if entry.deleted then
        r.change (fun e => withStat stat
            { e with deleted := false, contentHash := contentHash, hlcTimestamp := hlc })
          (fun _ => withStat_id stat _) id
      else r

def newEntry (id : String) (path : Path) (hlc : Hlc) (contentHash : String) : FileEntry where
  id := id
  path := path
  contentHash := contentHash
  hlcTimestamp := hlc
  deleted := false
  lastSyncedPath := none
  headVersionId := none
  conflictParents := none
  mtime := none
  size := none

def updatePath (oldPath newPath : Path) (hlc : Hlc) : FileRegistry :=
  match h : r.pathIndex.get oldPath with
  | none => r
  | some id =>
      match he : r.entries.get id with
      | none => r
      | some entry =>
          { entries := r.entries.set { entry with path := newPath, hlcTimestamp := hlc }
            pathIndex := (r.pathIndex.delete oldPath).set newPath id
            indexed := by
              intro p i hp
              rw [JsMap.get_set] at hp
              rw [FileEntries.get_set]
              have hid : entry.id = id := FileEntries.get_id he
              split at hp
              · rename_i hnew
                exact ⟨_, if_pos (hid.trans (Option.some.inj hp)), hnew⟩
              · rw [JsMap.get_delete] at hp
                split at hp
                · exact nomatch hp
                · rename_i hold
                  obtain ⟨e', he', hp'⟩ := r.indexed p i hp
                  refine ⟨e', (if_neg ?_).trans he', hp'⟩
                  rintro rfl
                  obtain ⟨e, he₀, hp₀⟩ := r.indexed oldPath id h
                  rw [show ({ entry with path := newPath, hlcTimestamp := hlc } :
                    FileEntry).id = id from hid, he₀] at he'
                  cases he'
                  exact hold (hp₀.symm.trans hp') }

def updateContentHash (path : Path) (contentHash : String) (hlc : Hlc)
    (stat : Option VaultFileStat) : FileRegistry :=
  r.changeAt (fun e => withStat stat { e with contentHash := contentHash, hlcTimestamp := hlc })
    (fun _ => withStat_id stat _) path

def recordStat (path : Path) (stat : VaultFileStat) : FileRegistry :=
  r.changeAt (withStat (some stat)) (fun _ => withStat_id _ _) path

def markDeleted (path : Path) (hlc : Hlc) : FileRegistry :=
  r.changeAt (fun e => { e with deleted := true, hlcTimestamp := hlc }) (fun _ => ⟨rfl, rfl⟩) path

def setHeadVersion (fileId versionId : String) : FileRegistry :=
  r.change (fun e => { e with headVersionId := some versionId }) (fun _ => ⟨rfl, rfl⟩) fileId

def markConflicted (path : Path) (contentHash : String) (hlc : Hlc) (parents : List String) :
    FileRegistry :=
  r.changeAt (fun e =>
      { e with contentHash := contentHash, hlcTimestamp := hlc, conflictParents := some parents })
    (fun _ => ⟨rfl, rfl⟩) path

def clearConflict (fileId : String) : FileRegistry :=
  r.change (fun e => { e with conflictParents := none }) (fun _ => ⟨rfl, rfl⟩) fileId

def setSyncedPath (fileId : String) : FileRegistry :=
  r.change (fun e => { e with lastSyncedPath := some e.path }) (fun _ => ⟨rfl, rfl⟩) fileId

/-- The id that another file holds the path under gives way. -/
def evict (id : String) (path : Path) : FileEntries :=
  match r.pathIndex.get path with
  | some existingId => if existingId = id then r.entries else r.entries.delete existingId
  | none => r.entries

/-- An entry that changes its path leaves the old one. -/
def unindex (id : String) (path : Path) : JsMap Path String :=
  match (r.evict id path).get id with
  | some prev => if prev.path = path then r.pathIndex else r.pathIndex.delete prev.path
  | none => r.pathIndex

theorem get_evict {r : FileRegistry} (id : String) {i : String} {path p : Path} {e : FileEntry}
    (h : r.entries.get i = some e) (hp : e.path = p) (hne : p ≠ path) :
    (r.evict id path).get i = some e := by
  unfold evict
  split
  · rename_i existingId hidx
    split
    · exact h
    · rw [FileEntries.get_delete, if_neg, h]
      rintro rfl
      obtain ⟨e', he', hp'⟩ := r.indexed path _ hidx
      cases h.symm.trans he'
      exact hne (hp.symm.trans hp')
  · exact h

theorem get_unindex {r : FileRegistry} {id i : String} {path p : Path}
    (h : (r.unindex id path).get p = some i) :
    r.pathIndex.get p = some i ∧ (p ≠ path → i ≠ id) := by
  unfold unindex at h
  split at h
  · rename_i prev hprev
    split at h
    · rename_i hpath
      refine ⟨h, fun hne hi => ?_⟩
      obtain ⟨e, he, hp⟩ := r.indexed p i h
      have := get_evict id he hp hne
      rw [hi, hprev] at this
      cases this
      exact hne (hp.symm.trans hpath)
    · rw [JsMap.get_delete] at h
      split at h
      · cases h
      · rename_i hdel
        refine ⟨h, fun hne hi => ?_⟩
        obtain ⟨e, he, hp⟩ := r.indexed p i h
        have := get_evict id he hp hne
        rw [hi, hprev] at this
        cases this
        exact hdel hp
  · rename_i hnone
    refine ⟨h, fun hne hi => ?_⟩
    obtain ⟨e, he, hp⟩ := r.indexed p i h
    have := get_evict id he hp hne
    rw [hi, hnone] at this
    cases this

/-- Converge a path on a remote id: the file becomes that id's, clean and freshly synced. -/
def adoptRemote (id : String) (path : Path) (contentHash : String) (hlc : Hlc)
    (headVersionId : Option String) : FileRegistry where
  entries := (r.evict id path).set
    { newEntry id path hlc contentHash with
      lastSyncedPath := some path
      headVersionId := some (headVersionId.getD (hlcToString hlc)) }
  pathIndex := (r.unindex id path).set path id
  indexed p i hp := by
    rw [JsMap.get_set] at hp
    rw [FileEntries.get_set]
    split at hp
    · rename_i hpath
      exact ⟨_, if_pos (Option.some.inj hp), hpath⟩
    · rename_i hpath
      obtain ⟨hidx, hi⟩ := get_unindex hp
      obtain ⟨e, he, hpe⟩ := r.indexed p i hidx
      refine ⟨e, (if_neg ?_).trans (get_evict id he hpe (Ne.symm hpath)), hpe⟩
      exact fun h => hi (Ne.symm hpath) h.symm

/-- A tombstone that goes for good takes its index entry along. -/
def remove (id : String) (path : Path) (hpath : ∀ e, r.entries.get id = some e → e.path = path) :
    FileRegistry where
  entries := r.entries.delete id
  pathIndex := if r.pathIndex.get path = some id then r.pathIndex.delete path else r.pathIndex
  indexed p i hp := by
    have hidx : r.pathIndex.get p = some i ∧ i ≠ id := by
      split at hp
      · rename_i hown
        rw [JsMap.get_delete] at hp
        split at hp
        · exact nomatch hp
        · rename_i hne
          refine ⟨hp, fun hi => ?_⟩
          obtain ⟨e, he, hpe⟩ := r.indexed p i hp
          exact hne ((hpath e (hi ▸ he)).symm.trans hpe)
      · rename_i hown
        refine ⟨hp, fun hi => ?_⟩
        obtain ⟨e, he, hpe⟩ := r.indexed p i hp
        subst hi
        rw [hpath e he] at hpe
        exact hown (hpe ▸ hp)
    obtain ⟨e, he, hpe⟩ := r.indexed p i hidx.1
    exact ⟨e, by rw [FileEntries.get_delete, if_neg (Ne.symm hidx.2), he], hpe⟩

def MIN_TOMBSTONE_RETENTION_MS : Nat := 30 * 86400000

def tombstoneRetentionMs (settings : SyncSettings) : Nat :=
  max (settings.ancestorRetentionDays * 86400000) MIN_TOMBSTONE_RETENTION_MS

/-- A tombstone past the retention horizon that no pending op and no open conflict needs. -/
def reclaimable (settings : SyncSettings) (now : Nat) (pinned : List String) (e : FileEntry) :
    Bool :=
  e.deleted && e.conflictParents.isNone && e.id ∉ pinned &&
    !((now : Int) - tombstoneRetentionMs settings < e.hlcTimestamp.wallTime)

def reclaimTombstones (settings : SyncSettings) (now : Nat) (pinned : List String) :
    FileRegistry :=
  r.entries.keys.foldl (fun r id =>
    match h : r.entries.get id with
    | none => r
    | some e =>
        if reclaimable settings now pinned e then
          r.remove id e.path (fun e' h' => by cases h.symm.trans h'; rfl)
        else r) r

def registerFile (D : Device) (path : Path) (hlc : Hlc) (contentHash : String)
    (stat : Option VaultFileStat) : FileRegistry × String :=
  match r.pathIndex.get path with
  | some existing => (r.resurrect existing hlc contentHash stat, existing)
  | none =>
      let id := D.randomUuid r.entries
      (r.insert (withStat stat (newEntry id path hlc contentHash)) (by
        rw [(withStat_id stat _).1]
        exact D.randomUuid_fresh r.entries), id)

/-- An untracked file gets a placeholder whose empty hash the logger fills in. -/
def addPlaceholder (D : Device) (hlc : Hlc) (path : Path) : FileRegistry :=
  if (r.pathIndex.get path).isNone && !isExcluded path D.settings then
    r.insert (newEntry (D.randomUuid r.entries) path hlc "") (D.randomUuid_fresh r.entries)
  else r

def tombstoneMissing (vaultPaths : List Path) (hlc : Hlc) : FileRegistry :=
  r.entries.keys.foldl (fun r id =>
    r.change (fun e =>
        if !e.deleted && e.path ∉ vaultPaths then { e with deleted := true, hlcTimestamp := hlc }
        else e)
      (fun _ => by split <;> exact ⟨rfl, rfl⟩) id) r

def reconcileWithVault (D : Device) (allFiles : List VaultFileRef) (hlc : Hlc) : FileRegistry :=
  (allFiles.foldl (fun r file => r.addPlaceholder D hlc file.path) r).tombstoneMissing
    (allFiles.map (·.path)) hlc

/-- Every version id the registry names, tombstones and both heads of a conflict included. -/
def versionRoots : List String :=
  r.entries.values.flatMap (fun e =>
    e.head.toList ++ (e.conflictParents.getD []).filter (· ≠ ""))

/-- An id longer than all the ids in use. -/
def longId (m : FileEntries) : String :=
  String.ofList (List.replicate ((m.keys.map (·.length)).sum + 1) 'u')

theorem length_le_sum {ids : List String} {id : String} (h : id ∈ ids) :
    id.length ≤ (ids.map (·.length)).sum := by
  induction ids with
  | nil => exact absurd h List.not_mem_nil
  | cons head rest ih =>
      rw [List.map_cons, List.sum_cons]
      rcases List.mem_cons.1 h with rfl | h
      · exact Nat.le_add_right _ _
      · exact (ih h).trans (Nat.le_add_left _ _)

theorem get_longId (m : FileEntries) : m.get (longId m) = none := by
  cases h : m.get (longId m) with
  | none => rfl
  | some e =>
      have hle := length_le_sum ((FileEntries.mem_keys_iff m).2 ⟨e, h⟩)
      rw [longId, String.length_ofList, List.length_replicate] at hle
      exact absurd hle (Nat.not_succ_le_self _)

def asciiDevice : Device where
  toPlatform := asciiPlatform
  settings := ⟨[], false, 0, 30⟩
  randomUuid := longId
  randomUuid_fresh := get_longId
  moveReplaces := true

end OpsBlobs.FileRegistry
