import OpsBlobs.ApplySpec
import OpsBlobs.Resolution

namespace OpsBlobs.SnapshotDisk

open Types FileRegistry World SyncApplicator ApplySpec Resolution

/-- The path holds bytes of this hash. -/
def HasHash (D : Device) (w : World) (p : Path) (hash : String) : Prop :=
  (w.bytesAt p).map D.sha256Hex = some hash

variable (D : Device) (localState remoteState : VaultState) (w : World)

/-- The store has its bytes under their hashes. -/
def ContentAddressed (state : VaultState) : Prop :=
  ∀ hash content, state.contentStore.get hash = some content → D.sha256Hex content = hash

/-- Every live file of the snapshot is on disk as recorded. -/
def OnDisk : Prop :=
  ∀ id e, localState.fileEntries.get id = some e → e.deleted = false →
    HasHash D w e.path e.contentHash

variable {D localState remoteState w} {le : FileEntry} {fileId hash : String} {p : Path}

theorem hasHash_some {bytes : Bytes} (h : w.bytesAt p = some bytes) :
    HasHash D w p hash ↔ D.sha256Hex bytes = hash := by
  rw [HasHash, h, Option.map_some, Option.some.injEq]

theorem not_hasHash_none (h : w.bytesAt p = none) : ¬ HasHash D w p hash := by
  rw [HasHash, h]
  exact nofun

theorem exists_bytes (h : HasHash D w p hash) :
    ∃ bytes, w.bytesAt p = some bytes ∧ D.sha256Hex bytes = hash := Option.map_eq_some_iff.1 h

theorem hash_of_stored (hl : ContentAddressed D localState) (hr : ContentAddressed D remoteState)
    {content : Bytes} (h : Stored localState remoteState hash content) :
    D.sha256Hex content = hash := h.elim (hl hash content) (hr hash content)

theorem hash_of_onDisk (hdisk : OnDisk D localState w)
    (he : localState.fileEntries.get fileId = some le) (hlive : le.deleted = false)
    (hw : HasHash D w le.path hash) : le.contentHash = hash :=
  Option.some.inj ((hdisk fileId le he hlive).symm.trans hw)

theorem not_drifted_of_hasHash (he : localState.fileEntries.get fileId = some le)
    (hw : HasHash D w p le.contentHash) : Drifted D localState w fileId p = false := by
  obtain ⟨bytes, hb, hh⟩ := exists_bytes hw
  simp [Drifted, he, hb, hh]

theorem not_drifted (hdisk : OnDisk D localState w)
    (he : localState.fileEntries.get fileId = some le) (hlive : le.deleted = false) :
    Drifted D localState w fileId le.path = false :=
  not_drifted_of_hasHash he (hdisk fileId le he hlive)

theorem currentPath_live (he : localState.fileEntries.get fileId = some le)
    (hlive : le.deleted = false) (path : Path) : currentPath localState fileId path = le.path := by
  simp [currentPath, he, hlive]

theorem currentPath_deleted (he : localState.fileEntries.get fileId = some le)
    (hdel : le.deleted = true) (path : Path) : currentPath localState fileId path = path := by
  simp [currentPath, he, hdel]

theorem currentPath_unknown (he : localState.fileEntries.get fileId = none) (path : Path) :
    currentPath localState fileId path = path := by
  simp [currentPath, he]

instance (D : Device) (w : World) (p : Path) (hash : String) : Decidable (HasHash D w p hash) :=
  inferInstanceAs (Decidable (_ = _))

theorem contentAddressed_iff {state : VaultState} : ContentAddressed D state ↔
    ∀ e ∈ state.contentStore.entries, D.sha256Hex e.2 = e.1 := by
  constructor
  · exact fun h e he => h e.1 e.2 ((JsMap.mem_entries_iff _).1 he)
  · exact fun h hash content hc => h (hash, content) ((JsMap.mem_entries_iff _).2 hc)

theorem onDisk_iff : OnDisk D localState w ↔
    ∀ e ∈ localState.fileEntries.values, e.deleted = false → HasHash D w e.path e.contentHash := by
  constructor
  · exact fun h e he => h e.id e ((FileEntries.mem_values_iff _).1 he)
  · exact fun h id e he => h e ((FileEntries.mem_values_iff _).2 (FileEntries.get_id he ▸ he))

end OpsBlobs.SnapshotDisk
