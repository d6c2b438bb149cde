import OpsBlobs.SnapshotDisk

namespace OpsBlobs.FileFaults

open Types Operations Hlc FileRegistry Coroutine World ConflictMarkers SyncApplicator ApplySpec
  SnapshotDisk

/-- The calls of the vault's files in an action, by where they stand. -/
inductive FileCall
  | driftRead
  | heldRead
  | write
  | move
  | trash
  | trashStale
  deriving DecidableEq, Repr

/-- Which calls throw, and what. -/
abbrev Fails := FileCall → Option String

section Apply

variable (D : Device) (H : ConflictHandlers) (fails : Fails)

/-- A call that throws has left the vault as it was. -/
def attempt {α : Type} (call : FileCall) (t : Async α) : Async α :=
  match fails call with
  | some message => throw message
  | none => t

def driftedSinceSnapshot (fileId : String) (path : Path) (localState : VaultState) :
    Async Bool := do
  match localState.fileEntries.get fileId with
  | none => pure false
  | some entry =>
      match ← attempt fails .driftRead (Files.read path) with
      | none => pure false
      | some content =>
          let hash ← hashContent D content
          pure (hash ≠ entry.contentHash)

def writeUnlessHeld (path : Path) (content : Bytes) (hash : String) : Async Unit := do
  let onDisk ← attempt fails .heldRead (Files.read path)
  let onDiskHash ← match onDisk with
    | some bytes => do pure (some (← hashContent D bytes))
    | none => pure none
  if onDiskHash ≠ some hash then attempt fails .write (Files.write path content)

def trashStale (currentPath path : Path) : Async Unit :=
  if currentPath ≠ path then attempt fails .trashStale (Files.trash currentPath) else pure ()

def writeLocal (localState : VaultState) (fileId : String) (path : Path) (content : Bytes)
    (hlc : Hlc) (headVersionId : Option String) : Async Applied := do
  let currentPath := currentPath localState fileId path
  if ← driftedSinceSnapshot D fails fileId currentPath localState then pure .deferred
  else
    let hash ← hashContent D content
    writeUnlessHeld D fails path content hash
    putUnlessHeld hash content
    adoptRemote fileId path hash hlc headVersionId
    trashStale fails currentPath path
    pure (.done none)

def writeMerge (localState : VaultState) (fileId : String) (path : Path) (content : Bytes)
    (parents : List String) : Async Applied := do
  let currentPath := currentPath localState fileId path
  if ← driftedSinceSnapshot D fails fileId currentPath localState then pure .deferred
  else
    let hash ← hashContent D content
    pause
    let id := mergeVersionId D.toPlatform hash parents
    let hlcTs ← hlcNow
    attempt fails .write (Files.write path content)
    ContentStore.putBuffered hash content
    adoptRemote fileId path hash hlcTs (some id)
    trashStale fails currentPath path
    pure (.done (some ⟨fileId, path, hash, hlcTs, parents, id, false⟩))

def moveLocal (localState : VaultState) (fileId : String) (fromPath toPath : Path) :
    Async Applied := do
  if ← driftedSinceSnapshot D fails fileId fromPath localState then pure .deferred
  else
    attempt fails .move (Files.move D fromPath toPath)
    let hlcTs ← hlcNow
    updateRegistry (fun r => r.updatePath fromPath toPath hlcTs)
    pure (.done none)

def deleteLocal (localState : VaultState) (fileId : String) (path : Path) : Async Applied := do
  if ← driftedSinceSnapshot D fails fileId path localState then pure .deferred
  else
    attempt fails .trash (Files.trash path)
    let hlcTs ← hlcNow
    updateRegistry (fun r => r.markDeleted path hlcTs)
    pure (.done none)

def writeMarkers (localState : VaultState) (fileId : String) (localPath : Path)
    (mergeResult : Diff3.ThreeWayMergeResult Diff3.Line) (parents : Option (List String)) :
    Async Applied := do
  let currentPath := currentPath localState fileId localPath
  if ← driftedSinceSnapshot D fails fileId currentPath localState then pure .deferred
  else
    let marked := D.encode (renderMarkersFromResult mergeResult)
    let hash ← hashContent D marked
    attempt fails .write (Files.write localPath marked)
    ContentStore.putBuffered hash marked
    let hlcTs ← hlcNow
    updateRegistry (fun r => r.markConflicted localPath hash hlcTs (parents.getD []))
    pure (.done none)

def settleDelete (action : MergeAction) (fileId : String) (path : Path) (content : Bytes)
    (parents : Option (List String)) : Async Applied := do
  pause
  match H.onDeleteConflict action with
  | .deferConflict => pure .deferredConflict
  | .keepModified =>
      let hlcTs ← hlcNow
      let hash ← hashContent D content
      attempt fails .write (Files.write path content)
      ContentStore.putBuffered hash content
      let resolution ← mintMergeResolution D fileId path hash hlcTs parents false
      pure (.done (some resolution))
  | .keepDeleted =>
      let hlcTs ← hlcNow
      let hash ← hashContent D content
      attempt fails .trash (Files.trash path)
      updateRegistry (fun r => r.markDeleted path hlcTs)
      let resolution ← mintMergeResolution D fileId path hash hlcTs parents true
      pure (.done (some resolution))

def settleBinary (action : MergeAction) (fileId : String) (localPath remotePath : Path)
    (localContent remoteContent : Bytes) (parents : Option (List String)) : Async Applied := do
  pause
  match H.onBinaryConflict action with
  | .deferConflict => pure .deferredConflict
  | decision =>
      let keepLocal := decide (decision = .keepLocal)
      let content := if keepLocal then localContent else remoteContent
      let path := if keepLocal then localPath else remotePath
      let hlcTs ← hlcNow
      let hash ← hashContent D content
      attempt fails .write (Files.write path content)
      ContentStore.putBuffered hash content
      let resolution ← mintMergeResolution D fileId path hash hlcTs parents false
      pure (.done (some resolution))

def applyAction (localState : VaultState) (action : MergeAction) : Async Applied :=
  match action with
  | .writeLocal fileId path content hlc headVersionId =>
      writeLocal D fails localState fileId path content hlc headVersionId
  | .writeMerge fileId path content parents =>
      writeMerge D fails localState fileId path content parents
  | .moveLocal fileId fromPath toPath => moveLocal D fails localState fileId fromPath toPath
  | .deleteLocal fileId path => deleteLocal D fails localState fileId path
  | .conflict fileId localPath _ mergeResult _ _ parents =>
      writeMarkers D fails localState fileId localPath mergeResult parents
  | .deleteConflict fileId path _ content parents =>
      settleDelete D H fails action fileId path content parents
  | .binaryConflict fileId localPath remotePath localContent remoteContent _ _ parents =>
      settleBinary D H fails action fileId localPath remotePath localContent remoteContent parents
  | .sendRemote .. | .deleteRemote .. | .noOp _ => pure (.done none)

/-- With no call throwing it is the apply of an action. -/
theorem applyAction_unfailing (localState : VaultState) (action : MergeAction) :
    applyAction D H (fun _ => none) localState action =
      SyncApplicator.applyAction D H localState action := by
  cases action <;> rfl

end Apply

section Throws

variable {D : Device} {H : ConflictHandlers} {fails : Fails} {localState : VaultState}
  {w w' : World} {fileId : String} {path : Path} {e : String} {α β : Type}

/-- It comes to `a`, or a call throws before it has done anything. -/
def Comes (fails : Fails) (t : Async α) (w : World) (a : α) (w' : World) : Prop :=
  run t w = some (.ok a, w') ∨ ∃ call message, call ≠ .trashStale ∧ fails call = some message ∧
    run t w = some (.error message, w)

theorem comes_attempt {call : FileCall} {t : Async α} {a : α} (hcall : call ≠ .trashStale)
    (h : run t w = some (.ok a, w')) : Comes fails (attempt fails call t) w a w' := by
  rw [attempt]
  cases hc : fails call with
  | none => exact Or.inl h
  | some message => exact Or.inr ⟨call, message, hcall, hc, rfl⟩

theorem comes_bind {t : Async α} {f : α → Async β} {a : α} {b : β} (ht : Comes fails t w a w)
    (hf : Comes fails (f a) w b w') : Comes fails (t >>= f) w b w' := by
  rcases ht with ht | ⟨call, message, hcall, hc, ht⟩
  · rw [Comes, run_bind, ht]
    exact hf
  · refine Or.inr ⟨call, message, hcall, hc, ?_⟩
    rw [run_bind, ht]
    rfl

theorem comes_drifted (fileId : String) (path : Path) :
    Comes fails (driftedSinceSnapshot D fails fileId path localState) w
      (Drifted D localState w fileId path) w := by
  have hrun := run_driftedSinceSnapshot D localState w fileId path
  rw [SyncApplicator.driftedSinceSnapshot] at hrun
  rw [driftedSinceSnapshot]
  cases he : localState.fileEntries.get fileId with
  | none =>
      rw [he] at hrun
      exact Or.inl hrun
  | some entry =>
      rw [he] at hrun
      exact comes_bind (comes_attempt nofun (run_read w path)) (Or.inl hrun)

theorem comes_write (path : Path) (content : Bytes) :
    Comes fails (attempt fails .write (Files.write path content)) w ()
      { w with disk := w.disk.set path ⟨content, w.wallTime⟩ } :=
  comes_attempt nofun (run_write w path content)

theorem comes_trash (path : Path) :
    Comes fails (attempt fails .trash (Files.trash path)) w ()
      { w with disk := w.disk.delete path } := comes_attempt nofun (run_trash w path)

theorem comes_writeUnlessHeld (path : Path) (content : Bytes) :
    Comes fails (writeUnlessHeld D fails path content (D.sha256Hex content)) w ()
      { w with disk := diskAfterWrite D w path content } := by
  have hrest : ∀ held : Option String, held = (w.bytesAt path).map D.sha256Hex → Comes fails
      (if held ≠ some (D.sha256Hex content) then attempt fails .write (Files.write path content)
        else pure ()) w () { w with disk := diskAfterWrite D w path content } := by
    rintro _ rfl
    rw [diskAfterWrite]
    split
    · exact comes_write path content
    · rename_i hheld
      rw [if_pos (not_not.1 hheld)]
      exact Or.inl rfl
  refine comes_bind (comes_attempt (by rintro ⟨⟩) (run_read w path)) ?_
  cases hread : w.bytesAt path with
  | none => exact hrest none (by rw [hread]; rfl)
  | some bytes => exact hrest (some (D.sha256Hex bytes)) (by rw [hread]; rfl)

/-- The vault and the registry are as they were. -/
def Untouched (w w' : World) : Prop := w'.disk = w.disk ∧ w'.registry = w.registry

/-- A call before the last of a write threw. -/
def Early (fails : Fails) (e : String) (w w' : World) : Prop :=
  Untouched w w' ∧ ∃ call, call ≠ .trashStale ∧ fails call = some e

/-- The new path is written and the registry names it, and the old one still has the file. -/
structure LeavesStale (localState : VaultState) (fileId : String) (path : Path) (w w' : World) :
    Prop where
  renamed : currentPath localState fileId path ≠ path
  kept : w'.bytesAt (currentPath localState fileId path) =
    w.bytesAt (currentPath localState fileId path)
  named : ∃ entry, w'.registry.entries.get fileId = some entry ∧ entry.path = path

theorem comes_throws {t : Async α} {k : α → Async β} {a : α} {w₁ : World}
    (ht : Comes fails t w a w₁) (h : run (t >>= k) w = some (.error e, w')) :
    Early fails e w w' ∨ run (k a) w₁ = some (.error e, w') := by
  rw [run_bind] at h
  rcases ht with ht | ⟨call, message, hcall, hc, ht⟩
  · rw [ht] at h
    exact Or.inr h
  · rw [ht] at h
    cases h
    exact Or.inl ⟨⟨rfl, rfl⟩, call, hcall, hc⟩

/-- Behind the drift guard. -/
theorem guarded_throws {rest : Async Applied} (h : run (do
      if ← driftedSinceSnapshot D fails fileId path localState then pure .deferred else rest) w =
        some (.error e, w')) :
    Early fails e w w' ∨ run rest w = some (.error e, w') := by
  refine (comes_throws (comes_drifted fileId path) h).imp_right fun h => ?_
  cases hd : Drifted D localState w fileId path with
  | true =>
      rw [hd] at h
      cases h
  | false =>
      rw [hd] at h
      exact h

theorem trashStale_throws {current : Path} {applied : Applied}
    (h : run (trashStale fails current path >>= fun _ => pure applied) w = some (.error e, w')) :
    fails .trashStale = some e ∧ current ≠ path ∧ w' = w := by
  rw [run_bind, trashStale] at h
  split at h
  · rename_i hne
    rw [attempt] at h
    cases hc : fails .trashStale with
    | none =>
        rw [hc] at h
        cases h
    | some message =>
        rw [hc] at h
        cases h
        exact ⟨rfl, hne, rfl⟩
  · cases h

theorem leavesStale {contentHash : String} {hlc : Hlc} {head : Option String}
    (hne : currentPath localState fileId path ≠ path)
    (hdisk : ∀ p, p ≠ path → w'.disk.get p = w.disk.get p)
    (hreg : w'.registry = w.registry.adoptRemote fileId path contentHash hlc head) :
    LeavesStale localState fileId path w w' where
  renamed := hne
  kept := by rw [bytesAt, bytesAt, hdisk _ hne]
  named := by
    rw [hreg, FileRegistry.adoptRemote, FileEntries.get_set]
    exact ⟨_, if_pos rfl, rfl⟩

theorem writeLocal_throws {content : Bytes} {hlc : Hlc} {head : Option String}
    (h : run (writeLocal D fails localState fileId path content hlc head) w =
      some (.error e, w')) :
    Early fails e w w' ∨
      fails .trashStale = some e ∧ LeavesStale localState fileId path w w' := by
  rcases guarded_throws h with hearly | h
  · exact Or.inl hearly
  · refine (comes_throws (comes_writeUnlessHeld path content) h).imp_right fun h => ?_
    rw [run_bind, run_putUnlessHeld] at h
    obtain ⟨hcall, hne, rfl⟩ := trashStale_throws h
    refine ⟨hcall, leavesStale hne (fun p hp => ?_) rfl⟩
    dsimp only
    rw [diskAfterWrite]
    split
    · rfl
    · exact JsMap.get_set_ne _ _ hp.symm

theorem writeMerge_throws {content : Bytes} {parents : List String}
    (h : run (writeMerge D fails localState fileId path content parents) w =
      some (.error e, w')) :
    Early fails e w w' ∨
      fails .trashStale = some e ∧ LeavesStale localState fileId path w w' := by
  rcases guarded_throws h with hearly | h
  · exact Or.inl hearly
  · change run (attempt fails .write (Files.write path content) >>= _) _ = _ at h
    refine (comes_throws (comes_write path content) h).imp_right fun h => ?_
    obtain ⟨hcall, hne, rfl⟩ := trashStale_throws h
    exact ⟨hcall, leavesStale hne (fun p hp => JsMap.get_set_ne _ _ hp.symm) rfl⟩

theorem moveLocal_throws {fromPath toPath : Path}
    (h : run (moveLocal D fails localState fileId fromPath toPath) w = some (.error e, w')) :
    Untouched w w' := by
  rcases guarded_throws h with hearly | h
  · exact hearly.1
  · rw [run_bind, attempt] at h
    cases hc : fails .move with
    | some message =>
        rw [hc] at h
        cases h
        exact ⟨rfl, rfl⟩
    | none =>
        rw [hc] at h
        dsimp only at h
        rw [run_move] at h
        split at h
        · cases h
        · split at h
          · cases h
            exact ⟨rfl, rfl⟩
          · cases h

theorem deleteLocal_throws
    (h : run (deleteLocal D fails localState fileId path) w = some (.error e, w')) :
    Untouched w w' := by
  rcases guarded_throws h with hearly | h
  · exact hearly.1
  · rcases comes_throws (comes_trash path) h with hearly | h
    · exact hearly.1
    · cases h

theorem writeMarkers_throws {mergeResult : Diff3.ThreeWayMergeResult Diff3.Line}
    {parents : Option (List String)}
    (h : run (writeMarkers D fails localState fileId path mergeResult parents) w =
      some (.error e, w')) : Untouched w w' := by
  rcases guarded_throws h with hearly | h
  · exact hearly.1
  · change run (attempt fails .write (Files.write path _) >>= _) _ = _ at h
    rcases comes_throws (comes_write path _) h with hearly | h
    · exact hearly.1
    · cases h

theorem settleDelete_throws {action : MergeAction} {content : Bytes}
    {parents : Option (List String)}
    (h : run (settleDelete D H fails action fileId path content parents) w =
      some (.error e, w')) : Untouched w w' := by
  rw [settleDelete, run_bind, run_pause, Option.bind_some, resume_ok] at h
  split at h
  · cases h
  · change run (attempt fails .write (Files.write path _) >>= _) _ = _ at h
    rcases comes_throws (comes_write path _) h with hearly | h
    · exact hearly.1
    · cases h
  · change run (attempt fails .trash (Files.trash path) >>= _) _ = _ at h
    rcases comes_throws (comes_trash path) h with hearly | h
    · exact hearly.1
    · cases h

theorem settleBinary_throws {action : MergeAction} {localPath remotePath : Path}
    {localContent remoteContent : Bytes} {parents : Option (List String)}
    (h : run (settleBinary D H fails action fileId localPath remotePath localContent remoteContent
      parents) w = some (.error e, w')) : Untouched w w' := by
  rw [settleBinary, run_bind, run_pause, Option.bind_some, resume_ok] at h
  split at h
  · cases h
  · change run (attempt fails .write (Files.write _ _) >>= _) _ = _ at h
    rcases comes_throws (comes_write _ _) h with hearly | h
    · exact hearly.1
    · cases h

end Throws

section Atomic

variable (D : Device) (H : ConflictHandlers) (localState : VaultState) (action : MergeAction)
  (w w' : World)

/-- The registry is the one of the snapshot, and its live files are on disk as recorded. -/
structure Consistent : Prop where
  snapshot : localState.fileEntries = w.registry.entries
  onDisk : OnDisk D localState w

/-- The file of the action: its bytes at the paths of the action, and its entry. -/
structure SameFile : Prop where
  bytes : ∀ p ∈ touched H localState action, w'.bytesAt p = w.bytesAt p
  entry : w'.registry.getById action.fileId = w.registry.getById action.fileId

/-- All other paths and entries, and the files of these also where the action has a path. -/
structure SameOthers : Prop where
  bytes : ∀ p, p ∉ touched H localState action → w'.bytesAt p = w.bytesAt p
  entries : ∀ id, id ≠ action.fileId → w'.registry.getById id = w.registry.getById id
  files : ∀ id entry, id ≠ action.fileId → w.registry.getById id = some entry →
    entry.deleted = false → w'.bytesAt entry.path = w.bytesAt entry.path

/-- The file is as before the action or as after all of it, and nothing else has changed. -/
structure Atomic : Prop where
  file : SameFile H localState action w w' ∨ ∃ applied full,
    run (SyncApplicator.applyAction D H localState action) w = some (.ok applied, full) ∧
      SameFile H localState action full w'
  others : SameOthers H localState action w w'

/-- One call throws. -/
def throwing (call : FileCall) (message : String) : Fails :=
  fun c => if c = call then some message else none

/-- The call is the one that removes the stale copy of a write that came with a rename. -/
def RemovesStale (call : FileCall) : MergeAction → Prop
  | .writeLocal .. | .writeMerge .. => call = .trashStale
  | _ => False

variable {D H localState action w w'} {fileId : String} {path : Path} {call : FileCall}
  {message e : String}

theorem atomic_of_untouched (h : Untouched w w') : Atomic D H localState action w w' := by
  have hbytes : ∀ p, w'.bytesAt p = w.bytesAt p := fun p => by rw [bytesAt, bytesAt, h.1]
  have hentries : ∀ id, w'.registry.getById id = w.registry.getById id := fun id => by rw [h.2]
  exact ⟨Or.inl ⟨fun p _ => hbytes p, hentries _⟩,
    ⟨fun p _ => hbytes p, fun id _ => hentries id, fun _ _ _ _ _ => hbytes _⟩⟩

theorem early_throwing (h : Early (throwing .trashStale message) e w w') : False := by
  obtain ⟨-, call, hcall, hc⟩ := h
  rw [throwing, if_neg hcall] at hc
  cases hc

theorem throwing_stale (h : throwing call message .trashStale = some e) : call = .trashStale := by
  rw [throwing] at h
  split at h
  · rename_i heq
    exact heq.symm
  · cases h

/-- An own path other than the action's is that of the live entry. -/
theorem live_of_renamed (h : currentPath localState fileId path ≠ path) :
    ∃ le, localState.fileEntries.get fileId = some le ∧ le.deleted = false ∧
      currentPath localState fileId path = le.path := by
  cases he : localState.fileEntries.get fileId with
  | none => exact absurd (currentPath_unknown he path) h
  | some le =>
      cases hdel : le.deleted with
      | true => exact absurd (currentPath_deleted he hdel path) h
      | false => exact ⟨le, rfl, hdel, currentPath_live he hdel path⟩

/-- A stale copy beside the new file is neither the state before nor the one after. -/
theorem not_atomic (hc : Consistent D localState w) (hid : action.fileId = fileId)
    (hmem : currentPath localState fileId path ∈ touched H localState action)
    (hstale : LeavesStale localState fileId path w w')
    (hfull : Drifted D localState w fileId (currentPath localState fileId path) = false →
      ∀ applied full, run (SyncApplicator.applyAction D H localState action) w =
        some (.ok applied, full) → full.bytesAt (currentPath localState fileId path) = none) :
    ¬ Atomic D H localState action w w' := by
  intro h
  obtain ⟨le, he, hlive, hcurrent⟩ := live_of_renamed hstale.renamed
  obtain ⟨bytes, hbytes, -⟩ := exists_bytes (hc.onDisk fileId le he hlive)
  have hkept : w'.bytesAt (currentPath localState fileId path) = some bytes := by
    rw [hstale.kept, hcurrent]
    exact hbytes
  rcases h.file with hsame | ⟨applied, full, hrun, hsame⟩
  · obtain ⟨entry, hentry, hpath⟩ := hstale.named
    have hbefore : w.registry.entries.get fileId = some entry := by
      have heq := hsame.entry
      rw [hid] at heq
      exact heq.symm.trans hentry
    rw [← hc.snapshot, he] at hbefore
    obtain rfl := Option.some.inj hbefore
    exact hstale.renamed (hcurrent.trans hpath)
  · have hdrift : Drifted D localState w fileId (currentPath localState fileId path) = false := by
      rw [hcurrent]
      exact not_drifted hc.onDisk he hlive
    have hgone := hfull hdrift applied full hrun
    rw [← hsame.bytes _ hmem, hkept] at hgone
    cases hgone

theorem stale_writeLocal {content : Bytes} {hlc : Hlc} {head : Option String}
    (hne : currentPath localState fileId path ≠ path)
    (hd : Drifted D localState w fileId (currentPath localState fileId path) = false)
    (applied : Applied) (full : World)
    (hrun : run (SyncApplicator.applyAction D H localState
      (.writeLocal fileId path content hlc head)) w = some (.ok applied, full)) :
    full.bytesAt (currentPath localState fileId path) = none := by
  obtain ⟨w₁, hrun₁, hdisk, -⟩ := run_writeLocal D H localState w fileId path content hlc head hd
  cases hrun₁.symm.trans hrun
  rw [bytesAt_writeLocal D hdisk, if_pos ⟨hne, rfl⟩]

theorem stale_writeMerge {content : Bytes} {parents : List String}
    (hne : currentPath localState fileId path ≠ path)
    (hd : Drifted D localState w fileId (currentPath localState fileId path) = false)
    (applied : Applied) (full : World)
    (hrun : run (SyncApplicator.applyAction D H localState
      (.writeMerge fileId path content parents)) w = some (.ok applied, full)) :
    full.bytesAt (currentPath localState fileId path) = none := by
  obtain ⟨w₁, resolution, hrun₁, hdisk, -⟩ := run_writeMerge D H localState w fileId path content
    parents hd
  cases hrun₁.symm.trans hrun
  rw [bytesAt_writeMerge hdisk, if_pos ⟨hne, rfl⟩]

/-- An action of which a call throws is atomic unless that call removes the stale copy. -/
theorem atomic_iff (D : Device) (H : ConflictHandlers) (localState : VaultState)
    (action : MergeAction) (w w' : World) (call : FileCall) (message e : String)
    (hc : Consistent D localState w)
    (hr : run (applyAction D H (throwing call message) localState action) w =
      some (.error e, w')) :
    Atomic D H localState action w w' ↔ ¬ RemovesStale call action := by
  cases action with
  | writeLocal fileId path content hlc head =>
      rcases writeLocal_throws hr with hearly | ⟨hcall, hstale⟩
      · refine iff_of_true (atomic_of_untouched hearly.1) ?_
        rintro rfl
        exact early_throwing hearly
      · refine iff_of_false (not_atomic hc rfl ?_ hstale (stale_writeLocal hstale.renamed)) ?_
        · exact List.mem_cons_of_mem _ List.mem_cons_self
        · exact fun hnot => hnot (throwing_stale hcall)
  | writeMerge fileId path content parents =>
      rcases writeMerge_throws hr with hearly | ⟨hcall, hstale⟩
      · refine iff_of_true (atomic_of_untouched hearly.1) ?_
        rintro rfl
        exact early_throwing hearly
      · refine iff_of_false (not_atomic hc rfl ?_ hstale (stale_writeMerge hstale.renamed)) ?_
        · exact List.mem_cons_of_mem _ List.mem_cons_self
        · exact fun hnot => hnot (throwing_stale hcall)
  | moveLocal fileId fromPath toPath =>
      exact iff_of_true (atomic_of_untouched (moveLocal_throws hr)) id
  | deleteLocal fileId path => exact iff_of_true (atomic_of_untouched (deleteLocal_throws hr)) id
  | conflict => exact iff_of_true (atomic_of_untouched (writeMarkers_throws hr)) id
  | deleteConflict => exact iff_of_true (atomic_of_untouched (settleDelete_throws hr)) id
  | binaryConflict => exact iff_of_true (atomic_of_untouched (settleBinary_throws hr)) id
  | sendRemote => cases hr
  | deleteRemote => cases hr
  | noOp => cases hr

def oldNote : FileEntry :=
  ⟨"f", "a.md", "h", ⟨1, 0, "a"⟩, false, some "a.md", some "v", none, none, none⟩

def oldVault : World := atRest [("a.md", [104])] (FileRegistry.empty.insert oldNote (by decide))

def oldSnapshot : VaultState := ⟨"a", ⟨1, 0, "a"⟩, oldVault.registry.entries, [], JsMap.empty⟩

/-- The other device renamed the note and edited it. -/
def renamedNote : MergeAction := .writeLocal "f" "n.md" [105] ⟨2, 0, "b"⟩ (some "u")

def undecided : ConflictHandlers := ⟨fun _ => .deferConflict, fun _ => .deferConflict⟩

theorem consistent_oldVault : Consistent asciiDevice oldSnapshot oldVault :=
  ⟨rfl, onDisk_iff.2 (by decide)⟩

theorem run_renamedNote : ∃ w', run (applyAction asciiDevice undecided
    (throwing .trashStale "EBUSY: resource busy") oldSnapshot renamedNote) oldVault =
      some (.error "EBUSY: resource busy", w') := by
  have herror : (run (applyAction asciiDevice undecided
      (throwing .trashStale "EBUSY: resource busy") oldSnapshot renamedNote) oldVault).map
        Prod.fst = some (.error "EBUSY: resource busy") := by decide +kernel
  obtain ⟨⟨_, w'⟩, hr, rfl⟩ := Option.map_eq_some_iff.1 herror
  exact ⟨w', hr⟩

theorem atomic_iff_renamedNote : ∃ w',
    Atomic asciiDevice undecided oldSnapshot renamedNote oldVault w' ↔
      ¬ RemovesStale .trashStale renamedNote := by
  obtain ⟨w', hr⟩ := run_renamedNote
  exact ⟨w', atomic_iff asciiDevice undecided oldSnapshot renamedNote oldVault w' .trashStale _ _
    consistent_oldVault hr⟩

/-- The note is at its new path, and still at the old one. -/
theorem renamed_twice : ¬ ∀ (D : Device) (H : ConflictHandlers) (localState : VaultState)
    (action : MergeAction) (w w' : World) (call : FileCall) (message e : String),
    Consistent D localState w →
    run (applyAction D H (throwing call message) localState action) w = some (.error e, w') →
      Atomic D H localState action w w' := by
  intro h
  obtain ⟨w', hr⟩ := run_renamedNote
  have hatomic := h asciiDevice undecided oldSnapshot renamedNote oldVault w' .trashStale _ _
    consistent_oldVault hr
  rcases writeLocal_throws hr with hearly | ⟨-, hstale⟩
  · exact early_throwing hearly
  · have hid : renamedNote.fileId = "f" := rfl
    exact not_atomic consistent_oldVault hid (List.mem_cons_of_mem _ List.mem_cons_self) hstale
      (stale_writeLocal hstale.renamed) hatomic

end Atomic

end OpsBlobs.FileFaults
