import OpsBlobs.ApplySpec
import OpsBlobs.MergeOutcome

namespace OpsBlobs.SnapshotGuard

open Types Diff3 FileRegistry Coroutine World ConflictMarkers SyncApplicator ApplySpec StateMerge

variable (D : Device) (H : ConflictHandlers) (localState : VaultState) (w : World)

/-- The snapshot has a live file of this hash at this path. -/
def Recorded (p : Path) (hash : String) : Prop :=
  ∃ id e, localState.fileEntries.get id = some e ∧ e.deleted = false ∧ e.path = p ∧
    e.contentHash = hash

/-- The guard looks where the write goes: the snapshot knows the id, not at another path, and what
it has for it is a live file's there, or is what the write leaves alone. -/
def Looks (fileId : String) (path : Path) (same : Bytes → Prop) : Prop :=
  ∃ e, localState.fileEntries.get fileId = some e ∧ (e.deleted = false → e.path = path) ∧
    (Recorded localState path e.contentHash ∨
      ∀ bytes, D.sha256Hex bytes = e.contentHash → same bytes)

/-- The actions that no edit in the window can make destructive. -/
def Guarded : MergeAction → Prop
  | .writeLocal fileId path content .. =>
      Looks D localState fileId path (fun bytes => D.sha256Hex bytes = D.sha256Hex content)
  | .writeMerge fileId path content _ => Looks D localState fileId path (· = content)
  | .conflict fileId localPath _ mergeResult .. =>
      Looks D localState fileId localPath (· = D.encode (renderMarkersFromResult mergeResult))
  | .moveLocal _ fromPath toPath => D.moveReplaces = false ∨ fromPath = toPath
  | .deleteLocal fileId path =>
      ∃ e, localState.fileEntries.get fileId = some e ∧ Recorded localState path e.contentHash
  | .deleteConflict fileId path side content parents =>
      H.onDeleteConflict (.deleteConflict fileId path side content parents) = .deferConflict
  | .binaryConflict fileId localPath remotePath localContent remoteContent localHlc remoteHlc
      parents =>
      H.onBinaryConflict (.binaryConflict fileId localPath remotePath localContent remoteContent
        localHlc remoteHlc parents) = .deferConflict
  | .sendRemote .. | .deleteRemote .. | .noOp _ => True

/-- What the action may put on disk. -/
def written : MergeAction → List Bytes
  | .writeLocal _ _ content .. | .writeMerge _ _ content _ | .deleteConflict _ _ _ content _ =>
      [content]
  | .conflict _ _ _ mergeResult .. => [D.encode (renderMarkersFromResult mergeResult)]
  | .binaryConflict _ _ _ localContent remoteContent .. => [localContent, remoteContent]
  | .moveLocal .. | .deleteLocal .. | .sendRemote .. | .deleteRemote .. | .noOp _ => []

/-- Bytes that neither the snapshot nor the action has. -/
def Fresh (action : MergeAction) (bytes : Bytes) : Prop :=
  (∀ id e, localState.fileEntries.get id = some e → e.contentHash ≠ D.sha256Hex bytes) ∧
    ∀ content ∈ written D action, D.sha256Hex content ≠ D.sha256Hex bytes

variable {D H localState w} {action : MergeAction} {fileId : String} {path p : Path}
  {bytes : Bytes} {w' : World}

section Window

/-- The user created this file in the window; nothing else is there. -/
def created (path : Path) (bytes : Bytes) : World :=
  { atRest [] .empty with disk := JsMap.empty.set path ⟨bytes, 0⟩ }

end Window

section Example

end Example

end OpsBlobs.SnapshotGuard
