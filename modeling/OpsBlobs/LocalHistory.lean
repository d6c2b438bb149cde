import OpsBlobs.GhostCode
import OpsBlobs.OperationLogger

namespace OpsBlobs.LocalHistory

open Types Operations Hlc ExclusionPolicy FileRegistry Coroutine World ConflictMarkers
  OperationLogger GhostCode

section History

/-- An op that takes the head of its file, and the file's entry as its handler found it. -/
structure Note where
  op : Operation
  found : Option FileEntry
  deriving DecidableEq, Repr

/-- What a handler is going to record over the heads it has read: a first version, the next
one, or the merge node that closes a conflict. -/
inductive Use
  | first
  | next
  | resolve
  deriving DecidableEq, Repr

/-- A handler that has read the heads of a file and has not advanced them yet. -/
structure Hold where
  ticket : Nat
  fileId : String
  found : Option FileEntry
  use : Use
  noted : Option Note
  deriving DecidableEq, Repr

/-- `issued` are the timestamps that are still to be used, each with the handler that took it. -/
structure History where
  holds : List Hold
  notes : List Note
  issued : List (Nat × Hlc)
  deriving DecidableEq, Repr

namespace History

variable (h : History) (k : Nat)

def empty : History := ⟨[], [], []⟩

def own : List Hold := h.holds.filter (fun x => x.ticket = k)

def issue (stamp : Hlc) : History := { h with issued := (k, stamp) :: h.issued }

def take (x : Hold) : History := { h with holds := x :: h.holds }

def noteOf (op : Operation) : Note := ⟨op, (h.own k).head?.bind (·.found)⟩

def record (op : Operation) : History where
  holds := h.holds.map fun x => if x.ticket = k then { x with noted := some (h.noteOf k op) } else x
  notes := h.notes ++ [h.noteOf k op]
  issued := h.issued.filter (· ≠ (k, op.hlcTimestamp))

def release : History := { h with holds := h.holds.filter (fun x => x.ticket ≠ k) }

def notesOf (fileId : String) : List Note := h.notes.filter (fun n => n.op.fileId = fileId)

end History

abbrev Noted := Coroutine (World × History) String

end History

section Steps

variable (k : Nat) (D : Device)

def issue : Noted Hlc :=
  modifyGetWith
    (fun w =>
      let stamp := Hlc.now w.hlc w.wallTime
      (stamp, { w with hlc := stamp, wallReads := w.wallReads + 1 }))
    (fun w h => h.issue k (Hlc.now w.hlc w.wallTime))

/-- From here on the handler counts on the heads of `entry`. -/
def take (entry : FileEntry) (use : Use) : Noted Unit :=
  remark fun _ h => h.take ⟨k, entry.id, some entry, use, none⟩

def registerFile (path : Path) (hlc : Hlc) (contentHash : String)
    (stat : Option VaultFileStat) : Noted String := do
  let id ← modifyGetWith
    (fun w =>
      let r := w.registry.registerFile D path hlc contentHash stat
      (r.2, { w with registry := r.1 }))
    (fun w h =>
      let id := (w.registry.registerFile D path hlc contentHash stat).2
      h.take ⟨k, id, w.registry.getById id, .first, none⟩)
  lift pause
  pure id

def pushOp (op : Operation) : Noted Unit :=
  modifyWith (fun w => { w with log := OpLog.push op w.log }) (fun _ h => h.record k op)

def recordOp (op : Operation) : Noted Unit := do
  pushOp k op
  lift appendOpLog

/-- The head is advanced, and that is all the handler does with the file. -/
def setHeadVersion (fileId versionId : String) : Noted Unit := do
  modifyWith (fun w => { w with registry := w.registry.setHeadVersion fileId versionId })
    (fun _ h => h.release k)
  lift pause

def clearConflict (fileId : String) : Noted Unit := do
  modifyWith (fun w => { w with registry := w.registry.clearConflict fileId })
    (fun _ h => h.release k)
  lift pause

end Steps

section Handlers

variable (k : Nat) (D : Device)

def handleCreate (path : Path) : Noted Unit := do
  if isExcluded path D.settings then pure ()
  else
    let hlcTs ← issue k
    match ← lift (Files.read path) with
    | none => pure ()
    | some content =>
        if isTooLarge content.length D.settings then pure ()
        else
          let hash ← lift (hashContent D content)
          let id ← registerFile k D path hlcTs hash none
          lift (ContentStore.put hash content)
          let op := Ops.create id path hash hlcTs
          recordOp k op
          setHeadVersion k id op.id

def resolveTwoHeaded (path : Path) (entry : FileEntry) (content : Bytes) (hash : String) :
    Noted Unit := do
  let hlcTs ← issue k
  lift (ContentStore.put hash content)
  lift (updateRegistry (fun r => r.updateContentHash path hash hlcTs none))
  if hasConflictMarkers (D.decode content) then pure ()
  else
    let held ← lift (current entry)
    match held.conflictParents with
    | none => throw "TypeError: parents is not iterable"
    | some parents =>
        take k held .resolve
        lift pause
        let id := mergeVersionId D.toPlatform hash parents
        recordOp k (Ops.merge entry.id path hash hlcTs parents id)
        lift (OperationLogger.setHeadVersion entry.id id)
        clearConflict k entry.id

def flushModify (path : Path) : Noted Unit := do
  match ← lift (OperationLogger.getByPath path) with
  | none => handleCreate k D path
  | some entry =>
      match ← lift (Files.read path) with
      | none => pure ()
      | some content =>
          if isTooLarge content.length D.settings then pure ()
          else
            let hash ← lift (hashContent D content)
            let entry ← lift (current entry)
            if hash = entry.contentHash then pure ()
            else if entry.TwoHeaded then resolveTwoHeaded k D path entry content hash
            else
              take k entry .next
              let parentVersion := entry.headVersionId
              let hlcTs ← issue k
              lift (ContentStore.put hash content)
              lift (updateRegistry (fun r => r.updateContentHash path hash hlcTs none))
              let op := Ops.update entry.id path hash hlcTs parentVersion
              recordOp k op
              setHeadVersion k entry.id op.id

def timerFires (path : Path) : Noted Unit := do
  lift (modify (fun w => { w with debounceTimers := w.debounceTimers.filter (· ≠ path) }))
  flushModify k D path

def handleDelete (path : Path) : Noted Unit := do
  if isExcluded path D.settings then pure ()
  else
    match ← lift (OperationLogger.getByPath path) with
    | none => pure ()
    | some entry =>
        if ← lift (Files.fileExists path) then flushModify k D path
        else
          let hlcTs ← issue k
          lift (updateRegistry (fun r => r.markDeleted path hlcTs))
          let entry ← lift (current entry)
          if entry.contentHash = "" then pure ()
          else if ← lift (pruneCreateDeletePair entry.id) then lift rewriteOpLog
          else
            take k entry .next
            let op := Ops.delete entry.id path entry.contentHash hlcTs entry.headVersionId
            recordOp k op
            setHeadVersion k entry.id op.id

def handleRename (path oldPath : Path) : Noted Unit := do
  if isExcluded path D.settings && isExcluded oldPath D.settings then pure ()
  else
    match ← lift (OperationLogger.getByPath oldPath) with
    | none => handleCreate k D path
    | some entry =>
        let hlcTs ← issue k
        lift (updateRegistry (fun r => r.updatePath oldPath path hlcTs))
        let entry ← lift (current entry)
        if entry.contentHash = "" then flushModify k D path
        else
          lift (OperationLogger.recordOp
            (Ops.move entry.id path entry.contentHash hlcTs entry.headVersionId))

def flush : Noted Unit := do
  let w ← lift get
  forEach (fun path => timerFires k D path) w.debounceTimers

def captureDrift (path : Path) (entry : Option FileEntry) (hash : String) (hlcTs : Hlc)
    (stat : VaultFileStat) : Noted Unit := do
  match entry with
  | none =>
      let id ← registerFile k D path hlcTs hash (some stat)
      let op := Ops.create id path hash hlcTs
      pushOp k op
      setHeadVersion k id op.id
  | some entry =>
      let entry ← lift (current entry)
      take k entry (if entry.contentHash = "" then .first else .next)
      let parentVersion := entry.headVersionId
      lift (updateRegistry (fun r => r.updateContentHash path hash hlcTs (some stat)))
      let op :=
        if entry.contentHash = "" then Ops.create entry.id path hash hlcTs
        else Ops.update entry.id path hash hlcTs parentVersion
      pushOp k op
      setHeadVersion k entry.id op.id

def captureRef (st : CaptureState) (ref : VaultFileRef) : Noted CaptureState := do
  if isExcluded ref.path D.settings then pure st
  else
    let st := { st with onDisk := st.onDisk ++ [ref.path] }
    if isTooLarge ref.size D.settings then pure st
    else
      let entry ← lift (OperationLogger.getByPath ref.path)
      if statUnchanged entry ref then pure st
      else
        match ← lift (Files.read ref.path) with
        | none => pure st
        | some content =>
            let hash ← lift (hashContent D content)
            let held ← match entry with
              | some entry => do pure (some (← lift (current entry)))
              | none => pure none
            if held.map (·.contentHash) = some hash then
              if statUnchanged held ref then pure st
              else
                lift (updateRegistry (fun r => r.recordStat ref.path ref.toVaultFileStat))
                pure st
            else
              lift (ContentStore.putBuffered hash content)
              let hlcTs ← issue k
              captureDrift k D ref.path entry hash hlcTs ref.toVaultFileStat
              lift (checkpointTick { st with changed := true })

def captureVanished (st : CaptureState) (entry : FileEntry) : Noted CaptureState := do
  let entry ← lift (current entry)
  if entry.path ∈ st.onDisk then pure st
  else
    let hlcTs ← issue k
    lift (updateRegistry (fun r => r.markDeleted entry.path hlcTs))
    let entry ← lift (current entry)
    if entry.contentHash = "" then pure st
    else
      take k entry .next
      let op := Ops.delete entry.id entry.path entry.contentHash hlcTs entry.headVersionId
      pushOp k op
      setHeadVersion k entry.id op.id
      pure { st with changed := true }

def captureRefs (aborted : World → Bool) (st : CaptureState) :
    List VaultFileRef → Noted (CaptureState × Bool)
  | [] => pure (st, false)
  | ref :: rest => do
      let w ← lift get
      if aborted w then pure (st, true)
      else
        let st ← captureRef k D st ref
        captureRefs aborted st rest

def captureOfflineChanges (aborted : World → Bool) : Noted Unit :=
  tryFinally (do
    let live ← lift Files.list
    let (st, stopped) ← captureRefs k D aborted ⟨[], false, 0⟩ live
    if stopped then
      let _ ← lift (checkpointFlush st)
      pure ()
    else
      let entries ← lift (activeEntries D)
      let st ←
        if st.onDisk = [] ∧ entries ≠ [] then pure st
        else foldM (captureVanished k) st entries
      let _ ← lift (checkpointFlush st)
      pure ()) (lift pause)

end Handlers

section Events

variable (D : Device)

/-- What sets a handler off: the vault's events, a debounce timer, a flush, a capture pass. The
user's own edits of the files come in between. -/
inductive Event
  | edit (f : JsMap Path File → JsMap Path File)
  | create (path : Path)
  | modify (path : Path)
  | delete (path : Path)
  | rename (path oldPath : Path)
  | timer (path : Path)
  | flush
  | capture (aborted : World → Bool)

/-- The code that an event sets off. -/
def handler : Event → Async Unit
  | .edit f => Coroutine.modify fun w => { w with disk := f w.disk }
  | .create path => OperationLogger.handleCreate D path
  | .modify path => handleModify D path
  | .delete path => OperationLogger.handleDelete D path
  | .rename path oldPath => OperationLogger.handleRename D path oldPath
  | .timer path => OperationLogger.timerFires D path
  | .flush => OperationLogger.flush D
  | .capture aborted => OperationLogger.captureOfflineChanges D aborted

/-- Nobody waits for it, so an error ends there. -/
def task (_ : Nat) (e : Event) : Async Unit := (handler D e).tryCatch fun _ => pure ()

def notedHandler (k : Nat) : Event → Noted Unit
  | .edit f => lift (Coroutine.modify fun w => { w with disk := f w.disk })
  | .create path => handleCreate k D path
  | .modify path => lift (handleModify D path)
  | .delete path => handleDelete k D path
  | .rename path oldPath => handleRename k D path oldPath
  | .timer path => timerFires k D path
  | .flush => flush k D
  | .capture aborted => captureOfflineChanges k D aborted

def notedTask (k : Nat) (e : Event) : Noted Unit := (notedHandler D k e).tryCatch fun _ => pure ()

def Starts (k : Nat) (t : Async Unit) : Prop := ∃ e, t = task D k e

def NotedStarts (k : Nat) (t : Noted Unit) : Prop := ∃ e, t = notedTask D k e

end Events

section Erasure

variable (k : Nat) (D : Device)

theorem erases_registerFile (path : Path) (hlc : Hlc) (contentHash : String)
    (stat : Option VaultFileStat) : Erases (registerFile k D path hlc contentHash stat)
      (OperationLogger.registerFile D path hlc contentHash stat) :=
  erases_bind (erases_modifyGetWith _ _) fun _ => erases_bind (erases_lift _) fun _ => .ret _

theorem erases_recordOp (op : Operation) :
    Erases (recordOp k op) (OperationLogger.recordOp op) :=
  erases_bind (erases_modifyWith _ _) fun _ => erases_lift _

theorem erases_setHeadVersion (fileId versionId : String) :
    Erases (setHeadVersion k fileId versionId)
      (OperationLogger.setHeadVersion fileId versionId) :=
  erases_bind (erases_modifyWith _ _) fun _ => erases_lift _

theorem erases_handleCreate (path : Path) :
    Erases (handleCreate k D path) (OperationLogger.handleCreate D path) := by
  rw [handleCreate, OperationLogger.handleCreate]
  split
  · exact .ret ()
  · refine erases_bind (erases_modifyGetWith _ _) fun hlcTs => ?_
    refine erases_bind (erases_lift _) fun content => ?_
    cases content with
    | none => exact .ret ()
    | some content =>
        dsimp only
        split
        · exact .ret ()
        · refine erases_bind (erases_lift _) fun hash => ?_
          refine erases_bind (erases_registerFile ..) fun id => ?_
          refine erases_bind (erases_lift _) fun _ => ?_
          exact erases_bind (erases_recordOp ..) fun _ => erases_setHeadVersion ..

theorem erases_resolveTwoHeaded (path : Path) (entry : FileEntry) (content : Bytes)
    (hash : String) : Erases (resolveTwoHeaded k D path entry content hash)
      (OperationLogger.resolveTwoHeaded D path entry content hash) := by
  refine erases_bind (erases_modifyGetWith _ _) fun hlcTs => ?_
  refine erases_bind (erases_lift _) fun _ => erases_bind (erases_lift _) fun _ => ?_
  split
  · exact .ret ()
  · refine erases_bind (erases_lift _) fun held => ?_
    cases held.conflictParents with
    | none => exact .fail _
    | some parents =>
        refine erases_remark (erases_bind (erases_lift _) fun _ => ?_)
        refine erases_bind (erases_recordOp ..) fun _ => erases_bind (erases_lift _) fun _ => ?_
        exact erases_bind (erases_modifyWith _ _) fun _ => erases_lift _

theorem erases_flushModify (path : Path) :
    Erases (flushModify k D path) (OperationLogger.flushModify D path) := by
  refine erases_bind (erases_lift _) fun entry => ?_
  cases entry with
  | none => exact erases_handleCreate k D path
  | some entry =>
      refine erases_bind (erases_lift _) fun content => ?_
      cases content with
      | none => exact .ret ()
      | some content =>
          dsimp only
          split
          · exact .ret ()
          · refine erases_bind (erases_lift _) fun hash => ?_
            refine erases_bind (erases_lift _) fun entry => ?_
            split
            · exact .ret ()
            · split
              · exact erases_resolveTwoHeaded ..
              · refine erases_remark (erases_bind (erases_modifyGetWith _ _) fun hlcTs => ?_)
                refine erases_bind (erases_lift _) fun _ => erases_bind (erases_lift _) fun _ => ?_
                exact erases_bind (erases_recordOp ..) fun _ => erases_setHeadVersion ..

theorem erases_timerFires (path : Path) :
    Erases (timerFires k D path) (OperationLogger.timerFires D path) :=
  erases_bind (erases_lift _) fun _ => erases_flushModify k D path

theorem erases_handleDelete (path : Path) :
    Erases (handleDelete k D path) (OperationLogger.handleDelete D path) := by
  rw [handleDelete, OperationLogger.handleDelete]
  split
  · exact .ret ()
  · refine erases_bind (erases_lift _) fun entry => ?_
    cases entry with
    | none => exact .ret ()
    | some entry =>
        refine erases_bind (erases_lift _) fun back => ?_
        cases back with
        | true => exact erases_flushModify k D path
        | false =>
            refine erases_bind (erases_modifyGetWith _ _) fun hlcTs => ?_
            refine erases_bind (erases_lift _) fun _ => erases_bind (erases_lift _) fun entry => ?_
            split
            · exact .ret ()
            · refine erases_bind (erases_lift _) fun pruned => ?_
              cases pruned with
              | true => exact erases_lift _
              | false =>
                  refine erases_remark (erases_bind (erases_recordOp ..) fun _ => ?_)
                  exact erases_setHeadVersion ..

theorem erases_handleRename (path oldPath : Path) :
    Erases (handleRename k D path oldPath) (OperationLogger.handleRename D path oldPath) := by
  rw [handleRename, OperationLogger.handleRename]
  split
  · exact .ret ()
  · refine erases_bind (erases_lift _) fun entry => ?_
    cases entry with
    | none => exact erases_handleCreate k D path
    | some entry =>
        refine erases_bind (erases_modifyGetWith _ _) fun hlcTs => ?_
        refine erases_bind (erases_lift _) fun _ => erases_bind (erases_lift _) fun entry => ?_
        split
        · exact erases_flushModify k D path
        · exact erases_lift _

theorem erases_flush : Erases (flush k D) (OperationLogger.flush D) :=
  erases_bind (erases_lift _) fun w =>
    erases_forEach (fun path => erases_timerFires k D path) w.debounceTimers

theorem erases_captureDrift (path : Path) (entry : Option FileEntry) (hash : String) (hlcTs : Hlc)
    (stat : VaultFileStat) : Erases (captureDrift k D path entry hash hlcTs stat)
      (OperationLogger.captureDrift D path entry hash hlcTs stat) := by
  cases entry with
  | none =>
      refine erases_bind (erases_registerFile ..) fun id => ?_
      exact erases_bind (erases_modifyWith _ _) fun _ => erases_setHeadVersion ..
  | some entry =>
      refine erases_bind (erases_lift _) fun entry => erases_remark ?_
      refine erases_bind (erases_lift _) fun _ => ?_
      exact erases_bind (erases_modifyWith _ _) fun _ => erases_setHeadVersion ..

theorem erases_captureRef (st : CaptureState) (ref : VaultFileRef) :
    Erases (captureRef k D st ref) (OperationLogger.captureRef D st ref) := by
  rw [captureRef, OperationLogger.captureRef]
  split
  · exact .ret _
  · dsimp only
    split
    · exact .ret _
    · refine erases_bind (erases_lift _) fun entry => ?_
      split
      · exact .ret _
      · refine erases_bind (erases_lift _) fun content => ?_
        cases content with
        | none => exact .ret _
        | some content =>
            refine erases_bind (erases_lift _) fun hash => ?_
            rcases entry with _ | entry
            on_goal 1 => refine erases_bind (.ret none) fun held => ?_
            on_goal 2 =>
              refine erases_bind (erases_lift _) fun e => erases_bind (.ret (some e)) fun held => ?_
            all_goals
              split
              · split
                · exact .ret _
                · exact erases_bind (erases_lift _) fun _ => .ret _
              · refine erases_bind (erases_lift _) fun _ => ?_
                refine erases_bind (erases_modifyGetWith _ _) fun hlcTs => ?_
                exact erases_bind (erases_captureDrift ..) fun _ => erases_lift _

theorem erases_captureVanished (st : CaptureState) (entry : FileEntry) :
    Erases (captureVanished k st entry) (OperationLogger.captureVanished st entry) := by
  refine erases_bind (erases_lift _) fun entry => ?_
  split
  · exact .ret _
  · refine erases_bind (erases_modifyGetWith _ _) fun hlcTs => ?_
    refine erases_bind (erases_lift _) fun _ => erases_bind (erases_lift _) fun entry => ?_
    split
    · exact .ret _
    · refine erases_remark (erases_bind (erases_modifyWith _ _) fun _ => ?_)
      exact erases_bind (erases_setHeadVersion ..) fun _ => .ret _

theorem erases_captureRefs (aborted : World → Bool) (st : CaptureState)
    (live : List VaultFileRef) : Erases (captureRefs k D aborted st live)
      (OperationLogger.captureRefs D aborted st live) := by
  induction live generalizing st with
  | nil => exact .ret _
  | cons ref rest ih =>
      refine erases_bind (erases_lift _) fun w => ?_
      split
      · exact .ret _
      · exact erases_bind (erases_captureRef ..) fun st => ih st

theorem erases_captureOfflineChanges (aborted : World → Bool) :
    Erases (captureOfflineChanges k D aborted)
      (OperationLogger.captureOfflineChanges D aborted) := by
  refine erases_tryFinally (erases_bind (erases_lift _) fun live => ?_) (erases_lift _)
  refine erases_bind (erases_captureRefs ..) fun out => ?_
  dsimp only
  split
  · exact erases_bind (erases_lift _) fun _ => .ret _
  · refine erases_bind (erases_lift _) fun entries => ?_
    split
    · exact erases_bind (.ret _) fun _ => erases_bind (erases_lift _) fun _ => .ret _
    · refine erases_bind (erases_foldM (erases_captureVanished k) _ _) fun _ => ?_
      exact erases_bind (erases_lift _) fun _ => .ret _

theorem erases_notedTask (e : Event) : Erases (notedTask D k e) (task D k e) := by
  refine erases_tryCatch ?_ fun _ => .ret ()
  cases e with
  | edit f => exact erases_lift _
  | create path => exact erases_handleCreate k D path
  | modify path => exact erases_lift _
  | delete path => exact erases_handleDelete k D path
  | rename path oldPath => exact erases_handleRename k D path oldPath
  | timer path => exact erases_timerFires k D path
  | flush => exact erases_flush k D
  | capture aborted => exact erases_captureOfflineChanges k D aborted

/-- Every run of the handlers is what is left of one with its history. -/
theorem runs_noted {w : World} {p : TaskPool.Pool World String} {C : World → World → Prop}
    (hr : TaskPool.Runs (Starts D) C (.initial w) p) :
    ∃ q, TaskPool.Runs (NotedStarts D) (fun _ _ => True) (.initial (w, History.empty)) q ∧
      Over q p := by
  refine over_runs ?_ (over_initial w History.empty) hr
  rintro k _ ⟨e, rfl⟩
  exact ⟨notedTask D k e, ⟨e, rfl⟩, erases_notedTask k D e⟩

end Erasure

end OpsBlobs.LocalHistory
