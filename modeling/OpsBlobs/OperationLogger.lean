import OpsBlobs.World
import OpsBlobs.ConflictMarkers

namespace OpsBlobs.OperationLogger

open Types Operations FileRegistry Coroutine World ExclusionPolicy ConflictMarkers

section Persistence

def setLog (f : OpLog → OpLog) : Async Unit := modify (fun w => { w with log := f w.log })

/-- Move the running persist to its next stage; it is the one at the front of the queue. -/
def OpLog.setStage (stage : PersistStage) (log : OpLog) : OpLog :=
  { log with
    oplogPersistQueue :=
      match log.oplogPersistQueue with
      | (ticket, _) :: rest => (ticket, stage) :: rest
      | [] => [] }

def OpLog.enqueue (stage : PersistStage) (log : OpLog) : OpLog :=
  { log with
    oplogPersistQueue := log.oplogPersistQueue ++ [(log.persistTickets, stage)]
    persistTickets := log.persistTickets + 1 }

def OpLog.dequeue (log : OpLog) : OpLog :=
  { log with oplogPersistQueue := log.oplogPersistQueue.tail }

def OpLog.isFront (ticket : Nat) (log : OpLog) : Bool :=
  log.oplogPersistQueue.head?.map Prod.fst = some ticket

/-- Persists run one at a time, in the order in which they were queued. -/
def enqueuePersist (stage : PersistStage) (work : Async Unit) : Async Unit := do
  let ticket ← modifyGet (fun w =>
    (w.log.persistTickets, { w with log := OpLog.enqueue stage w.log }))
  awaitUntil (fun w => OpLog.isFront ticket w.log)
  work.tryFinally (setLog OpLog.dequeue)

/-- Persist the clock with the log. -/
def finishOpLog : Async Unit := pause

def ensureOplogDir : Async Unit := pause

def appendOpLogLocked : Async Unit := do
  let w ← get
  let delta := w.log.pendingOps.drop w.log.oplogPersistedCount
  if delta = [] then finishOpLog
  else
    setLog (OpLog.setStage (.appending delta))
    ensureOplogDir
    pause
    setLog (fun log => OpLog.setStage (.written delta.length)
      { log with journal := log.journal ++ delta })
    pause
    -- Only what was written counts: ops pushed during the write are the next append's.
    setLog (fun log => OpLog.setStage .counted
      { log with oplogPersistedCount := log.oplogPersistedCount + delta.length })
    finishOpLog

def rewriteOpLogLocked : Async Unit := do
  ensureOplogDir
  let w ← get
  let ops := w.log.pendingOps
  setLog (OpLog.setStage (.rewriting ops))
  pause
  setLog (fun log => OpLog.setStage (.rewritten ops.length) { log with journal := ops })
  pause
  setLog (fun log => OpLog.setStage .counted { log with oplogPersistedCount := ops.length })
  finishOpLog

def appendOpLog : Async Unit := enqueuePersist .append appendOpLogLocked

def rewriteOpLog : Async Unit := enqueuePersist .rewrite rewriteOpLogLocked

def OpLog.push (op : Operation) (log : OpLog) : OpLog :=
  { log with pendingOps := log.pendingOps ++ [op], recorded := log.recorded ++ [op] }

def pushOp (op : Operation) : Async Unit := setLog (OpLog.push op)

def recordOp (op : Operation) : Async Unit := do
  pushOp op
  appendOpLog

def getPendingOps : Async (List Operation) := do
  let w ← get
  pure w.log.pendingOps

def clearOps : Async Unit := do
  setLog (fun log => { log with pendingOps := [] })
  rewriteOpLog

def setHeadVersion (fileId versionId : String) : Async Unit :=
  updateRegistry (fun r => r.setHeadVersion fileId versionId)

def recordMergeOp (fileId : String) (path : Path) (contentHash : String) (hlc : Hlc)
    (parents : List String) (id : String) : Async Unit := do
  recordOp (Ops.merge fileId path contentHash hlc parents id)
  setHeadVersion fileId id

def recordMergeDelete (fileId : String) (path : Path) (contentHash : String) (hlc : Hlc)
    (parents : List String) (id : String) : Async Unit := do
  recordOp (Ops.mergeDelete fileId path contentHash hlc parents id)
  setHeadVersion fileId id

def hasPendingCreate (fileId : String) (log : OpLog) : Bool :=
  log.pendingOps.any (fun op => op.fileId = fileId && op.type = .create)

/-- A create that was never pushed cancels with the delete: all its ops go. -/
def pruneCreateDeletePair (fileId : String) : Async Bool := do
  let w ← get
  if hasPendingCreate fileId w.log then
    setLog (fun log => { log with pendingOps := log.pendingOps.filter (·.fileId ≠ fileId) })
    pure true
  else pure false

end Persistence

section Handlers

variable (D : Device)

/-- An entry held across an `await`, as it reads by then. -/
def current (entry : FileEntry) : Async FileEntry := do
  let w ← get
  pure ((w.registry.getById entry.id).getD entry)

def getByPath (path : Path) : Async (Option FileEntry) := do
  let w ← get
  pure (w.registry.getByPath path)

def registerFile (path : Path) (hlc : Hlc) (contentHash : String)
    (stat : Option VaultFileStat) : Async String := do
  let id ← modifyGet (fun w =>
    let r := w.registry.registerFile D path hlc contentHash stat
    (r.2, { w with registry := r.1 }))
  pause
  pure id

def handleCreate (path : Path) : Async Unit := do
  if isExcluded path D.settings then pure ()
  else
    let hlcTs ← hlcNow
    match ← Files.read path with
    | none => pure ()
    | some content =>
        if isTooLarge content.length D.settings then pure ()
        else
          let hash ← hashContent D content
          let id ← registerFile D path hlcTs hash none
          ContentStore.put hash content
          let op := Ops.create id path hash hlcTs
          recordOp op
          setHeadVersion id op.id

/-- A save of a conflict-marked file: it stays two-headed until the markers are gone, and
then becomes the merge node over both heads. -/
def resolveTwoHeaded (path : Path) (entry : FileEntry) (content : Bytes) (hash : String) :
    Async Unit := do
  let hlcTs ← hlcNow
  ContentStore.put hash content
  updateRegistry (fun r => r.updateContentHash path hash hlcTs none)
  if hasConflictMarkers (D.decode content) then pure ()
  else
    match (← current entry).conflictParents with
    | none => throw "TypeError: parents is not iterable"
    | some parents =>
        pause
        let id := mergeVersionId D.toPlatform hash parents
        recordOp (Ops.merge entry.id path hash hlcTs parents id)
        setHeadVersion entry.id id
        updateRegistry (fun r => r.clearConflict entry.id)

def flushModify (path : Path) : Async Unit := do
  match ← getByPath path with
  | none => handleCreate D path
  | some entry =>
      match ← Files.read path with
      | none => pure ()
      | some content =>
          if isTooLarge content.length D.settings then pure ()
          else
            let hash ← hashContent D content
            let entry ← current entry
            if hash = entry.contentHash then pure ()
            else if entry.TwoHeaded then resolveTwoHeaded D path entry content hash
            else
              let parentVersion := entry.headVersionId
              let hlcTs ← hlcNow
              ContentStore.put hash content
              updateRegistry (fun r => r.updateContentHash path hash hlcTs none)
              let op := Ops.update entry.id path hash hlcTs parentVersion
              recordOp op
              setHeadVersion entry.id op.id

def recaptureLocalEdit (path : Path) : Async Unit := flushModify D path

/-- A modify event only arms the debounce timer. -/
def handleModify (path : Path) : Async Unit :=
  if isExcluded path D.settings then pure ()
  else modify (fun w => { w with
    debounceTimers := w.debounceTimers.filter (· ≠ path) ++ [path] })

/-- What the timer of a path does when it fires. -/
def timerFires (path : Path) : Async Unit := do
  modify (fun w => { w with debounceTimers := w.debounceTimers.filter (· ≠ path) })
  flushModify D path

def handleDelete (path : Path) : Async Unit := do
  if isExcluded path D.settings then pure ()
  else
    match ← getByPath path with
    | none => pure ()
    | some entry =>
        -- The file may be back: then its bytes count, not this event.
        if ← Files.fileExists path then flushModify D path
        else
          let hlcTs ← hlcNow
          updateRegistry (fun r => r.markDeleted path hlcTs)
          let entry ← current entry
          if entry.contentHash = "" then pure ()
          else if ← pruneCreateDeletePair entry.id then rewriteOpLog
          else
            let op := Ops.delete entry.id path entry.contentHash hlcTs entry.headVersionId
            recordOp op
            setHeadVersion entry.id op.id

def handleRename (path oldPath : Path) : Async Unit := do
  if isExcluded path D.settings && isExcluded oldPath D.settings then pure ()
  else
    match ← getByPath oldPath with
    | none => handleCreate D path
    | some entry =>
        let hlcTs ← hlcNow
        updateRegistry (fun r => r.updatePath oldPath path hlcTs)
        let entry ← current entry
        if entry.contentHash = "" then flushModify D path
        else recordOp (Ops.move entry.id path entry.contentHash hlcTs entry.headVersionId)

def startListening : Async Unit := modify (fun w => { w with listening := true })

def stopListening : Async Unit :=
  modify (fun w => { w with listening := false, debounceTimers := [] })

/-- Run the armed timers now. -/
def flush : Async Unit := do
  let w ← get
  forEach (fun path => do
    modify (fun w => { w with debounceTimers := w.debounceTimers.filter (· ≠ path) })
    flushModify D path) w.debounceTimers

end Handlers

section Capture

variable (D : Device)

def CAPTURE_CHECKPOINT_EVERY : Nat := 200

/-- The locals of a capture pass: the paths seen on disk, whether an op was minted, and the
items since the last checkpoint. -/
structure CaptureState where
  onDisk : List Path
  changed : Bool
  since : Nat
  deriving DecidableEq, Repr

/-- Blobs first, then the registry, then the ops that name them. -/
def checkpointFlush (st : CaptureState) : Async CaptureState := do
  ContentStore.flushPack
  pause
  if st.changed then appendOpLog
  pure { st with since := 0 }

def checkpointTick (st : CaptureState) : Async CaptureState := do
  let st := { st with since := st.since + 1 }
  if st.since < CAPTURE_CHECKPOINT_EVERY then
    pause
    pure st
  else checkpointFlush st

/-- The drifted file's op: a create while it was never captured, an update of its head after. -/
def captureDrift (path : Path) (entry : Option FileEntry) (hash : String) (hlcTs : Hlc)
    (stat : VaultFileStat) : Async Unit := do
  match entry with
  | none =>
      let id ← registerFile D path hlcTs hash (some stat)
      let op := Ops.create id path hash hlcTs
      pushOp op
      setHeadVersion id op.id
  | some entry =>
      let entry ← current entry
      let parentVersion := entry.headVersionId
      updateRegistry (fun r => r.updateContentHash path hash hlcTs (some stat))
      let op :=
        if entry.contentHash = "" then Ops.create entry.id path hash hlcTs
        else Ops.update entry.id path hash hlcTs parentVersion
      pushOp op
      setHeadVersion entry.id op.id

/-- Is the entry's recorded stat the listed one? Then its content counts as unchanged. -/
def statUnchanged (entry : Option FileEntry) (ref : VaultFileRef) : Bool :=
  match entry with
  | some entry => entry.mtime = some ref.mtime && entry.size = some ref.size
  | none => false

def captureRef (st : CaptureState) (ref : VaultFileRef) : Async CaptureState := do
  if isExcluded ref.path D.settings then pure st
  else
    let st := { st with onDisk := st.onDisk ++ [ref.path] }
    if isTooLarge ref.size D.settings then pure st
    else
      let entry ← getByPath ref.path
      if statUnchanged entry ref then pure st
      else
        match ← Files.read ref.path with
        | none => pure st
        | some content =>
            let hash ← hashContent D content
            let held ← match entry with
              | some entry => do pure (some (← current entry))
              | none => pure none
            if held.map (·.contentHash) = some hash then
              if statUnchanged held ref then pure st
              else
                updateRegistry (fun r => r.recordStat ref.path ref.toVaultFileStat)
                pure st
            else
              ContentStore.putBuffered hash content
              let hlcTs ← hlcNow
              captureDrift D ref.path entry hash hlcTs ref.toVaultFileStat
              checkpointTick { st with changed := true }

/-- Tombstone one entry whose path was not seen on disk. -/
def captureVanished (st : CaptureState) (entry : FileEntry) : Async CaptureState := do
  let entry ← current entry
  if entry.path ∈ st.onDisk then pure st
  else
    let hlcTs ← hlcNow
    updateRegistry (fun r => r.markDeleted entry.path hlcTs)
    let entry ← current entry
    if entry.contentHash = "" then pure st
    else
      let op := Ops.delete entry.id entry.path entry.contentHash hlcTs entry.headVersionId
      pushOp op
      setHeadVersion entry.id op.id
      pure { st with changed := true }

/-- The live files one by one; an aborted pass stops short and says so. -/
def captureRefs (aborted : World → Bool) (st : CaptureState) :
    List VaultFileRef → Async (CaptureState × Bool)
  | [] => pure (st, false)
  | ref :: rest => do
      if aborted (← get) then pure (st, true)
      else
        let st ← captureRef D st ref
        captureRefs aborted st rest

def activeEntries : Async (List FileEntry) := do
  let w ← get
  pure (w.registry.getActiveEntries.filter (fun entry => !isExcluded entry.path D.settings))

def captureOfflineChanges (aborted : World → Bool) : Async Unit :=
  tryFinally (do
    let live ← Files.list
    let (st, stopped) ← captureRefs D aborted ⟨[], false, 0⟩ live
    if stopped then
      let _ ← checkpointFlush st
      pure ()
    else
      let entries ← activeEntries D
      -- An empty listing while files are tracked is a listing that is not ready yet.
      let st ←
        if st.onDisk = [] ∧ entries ≠ [] then pure st
        else foldM captureVanished st entries
      let _ ← checkpointFlush st
      pure ()) pause

def captureAllAsBaseline : Async Unit := do
  let live ← Files.list
  let changed ← foldM (fun changed (ref : VaultFileRef) => do
    if isExcluded ref.path D.settings then pure changed
    else if isTooLarge ref.size D.settings then pure changed
    else
      match ← Files.read ref.path with
      | none => pure changed
      | some content =>
          let hash ← hashContent D content
          ContentStore.put hash content
          let entry ← getByPath ref.path
          let hlcTs ← hlcNow
          match entry with
          | none =>
              let id ← registerFile D ref.path hlcTs hash (some ref.toVaultFileStat)
              let op := Ops.create id ref.path hash hlcTs
              pushOp op
              setHeadVersion id op.id
              pure true
          | some entry =>
              let parentVersion := entry.headVersionId
              if entry.contentHash ≠ hash then
                updateRegistry (fun r =>
                  r.updateContentHash ref.path hash hlcTs (some ref.toVaultFileStat))
              let op :=
                if entry.contentHash = "" then Ops.create entry.id ref.path hash hlcTs
                else Ops.update entry.id ref.path hash hlcTs parentVersion
              pushOp op
              setHeadVersion entry.id op.id
              pure true) false live
  if changed then appendOpLog

end Capture

end OpsBlobs.OperationLogger
