import OpsBlobs.OperationLogger

namespace OpsBlobs.SyncApplicator

open Types Operations FileRegistry Coroutine World ConflictMarkers OperationLogger

inductive DeleteDecision
  | keepDeleted
  | keepModified
  | deferConflict
  deriving DecidableEq, Repr

inductive BinaryDecision
  | keepLocal
  | keepRemote
  | deferConflict
  deriving DecidableEq, Repr

/-- How delete and binary conflicts are decided, by the action that raises them. -/
structure ConflictHandlers where
  onDeleteConflict : MergeAction → DeleteDecision
  onBinaryConflict : MergeAction → BinaryDecision

structure PendingResolution where
  fileId : String
  path : Path
  contentHash : String
  hlc : Hlc
  parents : List String
  id : String
  deleted : Bool
  deriving DecidableEq, Repr

/-- What applying one action says: done, with a resolution to re-emit if it made one, or
deferred to the next round, by a drift or by an undecided conflict. -/
inductive Applied
  | done (resolution : Option PendingResolution)
  | deferred
  | deferredConflict
  deriving DecidableEq, Repr

variable (D : Device) (H : ConflictHandlers)

/-- Has the file changed on disk since the snapshot? No snapshot or no file is no drift. -/
def driftedSinceSnapshot (fileId : String) (path : Path) (localState : VaultState) :
    Async Bool := do
  match localState.fileEntries.get fileId with
  | none => pure false
  | some entry =>
      match ← Files.read path with
      | none => pure false
      | some content =>
          let hash ← hashContent D content
          pure (hash ≠ entry.contentHash)

def adoptRemote (id : String) (path : Path) (contentHash : String) (hlc : Hlc)
    (headVersionId : Option String) : Async Unit :=
  updateRegistry (fun r => r.adoptRemote id path contentHash hlc headVersionId)

/-- Where the file lives on this device; the action's own path for a new or deleted one. -/
def currentPath (localState : VaultState) (fileId : String) (path : Path) : Path :=
  match localState.fileEntries.get fileId with
  | some entry => if entry.deleted then path else entry.path
  | none => path

def mintMergeResolution (fileId : String) (path : Path) (contentHash : String) (hlc : Hlc)
    (parents : Option (List String)) (deleted : Bool) : Async PendingResolution := do
  let p := parents.getD []
  pause
  let id := mergeVersionId D.toPlatform contentHash p
  if !deleted then adoptRemote fileId path contentHash hlc (some id)
  pure ⟨fileId, path, contentHash, hlc, p, id, deleted⟩

/-- A path that has these bytes already is left alone. -/
def writeUnlessHeld (path : Path) (content : Bytes) (hash : String) : Async Unit := do
  let onDisk ← Files.read path
  let onDiskHash ← match onDisk with
    | some bytes => do pure (some (← hashContent D bytes))
    | none => pure none
  if onDiskHash ≠ some hash then Files.write path content

/-- A blob the store has already is not packed again. -/
def putUnlessHeld (hash : String) (content : Bytes) : Async Unit := do
  if !(← ContentStore.has hash) then ContentStore.putBuffered hash content

/-- A rename that came with the write leaves a stale copy at the old path. -/
def trashStale (currentPath path : Path) : Async Unit :=
  if currentPath ≠ path then Files.trash currentPath else pure ()

def writeLocal (localState : VaultState) (fileId : String) (path : Path) (content : Bytes)
    (hlc : Hlc) (headVersionId : Option String) : Async Applied := do
  let currentPath := currentPath localState fileId path
  if ← driftedSinceSnapshot D fileId currentPath localState then pure .deferred
  else
    let hash ← hashContent D content
    writeUnlessHeld D path content hash
    putUnlessHeld hash content
    adoptRemote fileId path hash hlc headVersionId
    trashStale currentPath path
    pure (.done none)

def writeMerge (localState : VaultState) (fileId : String) (path : Path) (content : Bytes)
    (parents : List String) : Async Applied := do
  let currentPath := currentPath localState fileId path
  if ← driftedSinceSnapshot D fileId currentPath localState then pure .deferred
  else
    let hash ← hashContent D content
    pause
    let id := mergeVersionId D.toPlatform hash parents
    let hlcTs ← hlcNow
    Files.write path content
    ContentStore.putBuffered hash content
    adoptRemote fileId path hash hlcTs (some id)
    trashStale currentPath path
    pure (.done (some ⟨fileId, path, hash, hlcTs, parents, id, false⟩))

def moveLocal (localState : VaultState) (fileId : String) (fromPath toPath : Path) :
    Async Applied := do
  if ← driftedSinceSnapshot D fileId fromPath localState then pure .deferred
  else
    Files.move D fromPath toPath
    let hlcTs ← hlcNow
    updateRegistry (fun r => r.updatePath fromPath toPath hlcTs)
    pure (.done none)

def deleteLocal (localState : VaultState) (fileId : String) (path : Path) : Async Applied := do
  if ← driftedSinceSnapshot D fileId path localState then pure .deferred
  else
    Files.trash path
    let hlcTs ← hlcNow
    updateRegistry (fun r => r.markDeleted path hlcTs)
    pure (.done none)

/-- A text conflict goes to disk as inline markers; the file becomes two-headed. -/
def writeMarkers (localState : VaultState) (fileId : String) (localPath : Path)
    (mergeResult : Diff3.ThreeWayMergeResult Diff3.Line) (parents : Option (List String)) :
    Async Applied := do
  let currentPath := currentPath localState fileId localPath
  if ← driftedSinceSnapshot D fileId currentPath localState then pure .deferred
  else
    let marked := D.encode (renderMarkersFromResult mergeResult)
    let hash ← hashContent D marked
    Files.write localPath marked
    ContentStore.putBuffered hash marked
    let hlcTs ← hlcNow
    updateRegistry (fun r => r.markConflicted localPath hash hlcTs (parents.getD []))
    pure (.done none)

def settleDelete (action : MergeAction) (fileId : String) (path : Path) (content : Bytes)
    (parents : Option (List String)) : Async Applied := do
  pause
  match H.onDeleteConflict action with
  | .deferConflict => pure .deferredConflict
  | .keepModified =>
      let hlcTs ← hlcNow
      let hash ← hashContent D content
      Files.write path content
      ContentStore.putBuffered hash content
      let resolution ← mintMergeResolution D fileId path hash hlcTs parents false
      pure (.done (some resolution))
  | .keepDeleted =>
      let hlcTs ← hlcNow
      let hash ← hashContent D content
      Files.trash path
      updateRegistry (fun r => r.markDeleted path hlcTs)
      let resolution ← mintMergeResolution D fileId path hash hlcTs parents true
      pure (.done (some resolution))

def settleBinary (action : MergeAction) (fileId : String) (localPath remotePath : Path)
    (localContent remoteContent : Bytes) (parents : Option (List String)) : Async Applied := do
  pause
  match H.onBinaryConflict action with
  | .deferConflict => pure .deferredConflict
  | decision =>
      let keepLocal := decide (decision = .keepLocal)
      let content := if keepLocal then localContent else remoteContent
      let path := if keepLocal then localPath else remotePath
      let hlcTs ← hlcNow
      let hash ← hashContent D content
      Files.write path content
      ContentStore.putBuffered hash content
      let resolution ← mintMergeResolution D fileId path hash hlcTs parents false
      pure (.done (some resolution))

def applyAction (localState : VaultState) (action : MergeAction) : Async Applied :=
  match action with
  | .writeLocal fileId path content hlc headVersionId =>
      writeLocal D localState fileId path content hlc headVersionId
  | .writeMerge fileId path content parents =>
      writeMerge D localState fileId path content parents
  | .moveLocal fileId fromPath toPath => moveLocal D localState fileId fromPath toPath
  | .deleteLocal fileId path => deleteLocal D localState fileId path
  | .conflict fileId localPath _ mergeResult _ _ parents =>
      writeMarkers D localState fileId localPath mergeResult parents
  | .deleteConflict fileId path _ content parents =>
      settleDelete D H action fileId path content parents
  | .binaryConflict fileId localPath remotePath localContent remoteContent _ _ parents =>
      settleBinary D H action fileId localPath remotePath localContent remoteContent parents
  | .sendRemote .. | .deleteRemote .. | .noOp _ => pure (.done none)

structure ApplyFailure where
  fileId : String
  path : Path
  action : MergeAction
  message : String
  deriving DecidableEq, Repr

/-- What an apply pass has collected so far. -/
structure ApplyState where
  resolutions : List PendingResolution
  deferred : List String
  deferredConflicts : List String
  failures : List ApplyFailure
  deriving DecidableEq, Repr

def addOnce (ids : List String) (id : String) : List String :=
  if id ∈ ids then ids else ids ++ [id]

def ApplyState.record (st : ApplyState) (fileId : String) : Applied → ApplyState
  | .done resolution => { st with resolutions := st.resolutions ++ resolution.toList }
  | .deferred => { st with deferred := addOnce st.deferred fileId }
  | .deferredConflict =>
      { st with
        deferred := addOnce st.deferred fileId
        deferredConflicts := addOnce st.deferredConflicts fileId }

def MAX_ACTION_FAILURES : Nat := 20

/-- One action's failure defers its file; too many of them are a systemic fault. -/
def applyIsolated (localState : VaultState) (st : ApplyState) (action : MergeAction) :
    Async ApplyState := do
  let st ← tryCatch
    (do
      let applied ← applyAction D H localState action
      pure (st.record action.fileId applied))
    (fun message => do
      let path := match localState.fileEntries.get action.fileId with
        | some entry => entry.path
        | none => action.fileId
      let st := { st with
        deferred := addOnce st.deferred action.fileId
        failures := st.failures ++ [⟨action.fileId, path, action, message⟩] }
      if MAX_ACTION_FAILURES < st.failures.length then throw message else pure st)
  pause
  pure st

def updateSyncedPaths (localState : VaultState) (deferred : List String) :
    List MergeAction → Async Unit :=
  forEach (fun action =>
    if action.fileId ∈ deferred then pure ()
    else
      match localState.fileEntries.get action.fileId with
      | none => pure ()
      | some entry =>
          if entry.deleted then pure ()
          else
            match action with
            | .noOp fileId => updateRegistry (fun r => r.setSyncedPath fileId)
            | .sendRemote fileId _ _ =>
                if entry.lastSyncedPath = none then
                  updateRegistry (fun r => r.setSyncedPath fileId)
                else pure ()
            | _ => pure ())

def recordResolution (r : PendingResolution) : Async Unit :=
  if r.deleted then recordMergeDelete r.fileId r.path r.contentHash r.hlc r.parents r.id
  else recordMergeOp r.fileId r.path r.contentHash r.hlc r.parents r.id

def recaptureDeferred (localState : VaultState) : List String → Async Unit :=
  forEach (fun fileId =>
    match localState.fileEntries.get fileId with
    | some entry => recaptureLocalEdit D entry.path
    | none => pure ())

/-- The apply loop with its clean-up: blobs flushed, the pushed log cleared, and the
listeners back on. -/
def applyLoop (localState : VaultState) (actions : List MergeAction) : Async ApplyState :=
  tryFinally (foldM (applyIsolated D H localState) ⟨[], [], [], []⟩ actions) (do
    ContentStore.flushPack
    clearOps
    pause
    startListening)

/-- The round's registry is saved, and the tombstones nothing needs any more are dropped. -/
def settleRegistry : Async Unit := do
  pause
  let w ← get
  let pinned := w.log.pendingOps.map (·.fileId)
  updateRegistry (fun r => r.reclaimTombstones D.settings w.wallTime pinned)

def applyActions (actions : List MergeAction) (localState : VaultState) : Async ApplyState := do
  stopListening
  tryFinally (do
    let st ← applyLoop D H localState actions
    updateSyncedPaths localState st.deferred actions
    forEach recordResolution st.resolutions
    recaptureDeferred D localState st.deferred
    pure st) (settleRegistry D)

end OpsBlobs.SyncApplicator
