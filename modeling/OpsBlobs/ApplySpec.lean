import OpsBlobs.SyncApplicator

namespace OpsBlobs.ApplySpec

open Types Operations FileRegistry Coroutine World ConflictMarkers OperationLogger
  SyncApplicator

variable (D : Device) (H : ConflictHandlers) (localState : VaultState) (w : World)

/-- The drift guard's answer: the file is there, and not with the bytes the snapshot has for
the id. -/
def Drifted (fileId : String) (path : Path) : Bool :=
  match localState.fileEntries.get fileId, w.bytesAt path with
  | some entry, some content => D.sha256Hex content ≠ entry.contentHash
  | _, _ => false

@[simp] theorem run_driftedSinceSnapshot (fileId : String) (path : Path) :
    run (driftedSinceSnapshot D fileId path localState) w =
      some (.ok (Drifted D localState w fileId path), w) := by
  unfold driftedSinceSnapshot Drifted
  cases localState.fileEntries.get fileId with
  | none => rfl
  | some entry =>
      simp only [run_bind, run_read, Option.bind_some, resume_ok]
      cases w.bytesAt path with
      | none => rfl
      | some content => simp

/-- The disk after a write that is skipped when the path has these bytes already. -/
def diskAfterWrite (path : Path) (content : Bytes) : JsMap Path File :=
  if (w.bytesAt path).map D.sha256Hex = some (D.sha256Hex content) then w.disk
  else w.disk.set path ⟨content, w.wallTime⟩

@[simp] theorem run_writeUnlessHeld (path : Path) (content : Bytes) :
    run (writeUnlessHeld D path content (D.sha256Hex content)) w =
      some (.ok (), { w with disk := diskAfterWrite D w path content }) := by
  simp only [writeUnlessHeld, diskAfterWrite, run_bind, run_read, Option.bind_some, resume_ok]
  cases hb : w.bytesAt path with
  | none => simp
  | some bytes =>
      by_cases heq : D.sha256Hex bytes = D.sha256Hex content <;> simp [heq]

@[simp] theorem run_putUnlessHeld (hash : String) (content : Bytes) :
    run (putUnlessHeld hash content) w = some (.ok (), { w with
      contentStore := if w.contentStore.has hash then w.contentStore
        else w.contentStore.set hash content }) := by
  cases hh : w.contentStore.has hash <;> simp [putUnlessHeld, hh]

/-- A rename's stale copy goes once the new path is written. -/
def diskAfterRename (disk : JsMap Path File) (currentPath path : Path) : JsMap Path File :=
  if currentPath = path then disk else disk.delete currentPath

@[simp] theorem run_trashStale (currentPath path : Path) :
    run (trashStale currentPath path) w =
      some (.ok (), { w with disk := diskAfterRename w.disk currentPath path }) := by
  by_cases h : currentPath = path <;> simp [trashStale, diskAfterRename, h]

@[simp] theorem run_adoptRemote (id : String) (path : Path) (contentHash : String) (hlc : Hlc)
    (head : Option String) :
    run (adoptRemote id path contentHash hlc head) w = some (.ok (), { w with
      registry := w.registry.adoptRemote id path contentHash hlc head }) := rfl

theorem bytesAt_writeLocal {w w' : World} {content : Bytes} {current path : Path}
    (h : w'.disk = diskAfterRename (diskAfterWrite D w path content) current path) (p : Path) :
    w'.bytesAt p =
      if current ≠ path ∧ current = p then none
      else if path = p ∧ (w.bytesAt p).map D.sha256Hex ≠ some (D.sha256Hex content) then
        some content
      else w.bytesAt p := by
  have hdisk : ((diskAfterWrite D w path content).get p).map (·.content) =
      if path = p ∧ (w.bytesAt p).map D.sha256Hex ≠ some (D.sha256Hex content) then
        some content
      else w.bytesAt p := by
    by_cases hp : path = p
    · subst hp
      by_cases heq : (w.bytesAt path).map D.sha256Hex = some (D.sha256Hex content)
      · simp only [diskAfterWrite, heq, if_true, map_content, ne_eq, not_true_eq_false, and_false,
          if_false]
      · simp only [diskAfterWrite, heq, if_false, JsMap.get_set_self, ne_eq, not_false_eq_true,
          and_self, if_true, Option.map_some]
    · unfold diskAfterWrite
      split
      · simp [hp, map_content]
      · simp [hp, map_content, JsMap.get_set]
  rw [bytesAt, h, diskAfterRename]
  by_cases hc : current = path
  · simp only [hc, if_true, hdisk, ne_eq, not_true_eq_false, false_and, if_false]
  · by_cases hcp : current = p
    · subst hcp
      simp [hc]
    · simp [hc, hcp, JsMap.get_delete, hdisk]

theorem bytesAt_writeMerge {w w' : World} {file : File} {current path : Path}
    (h : w'.disk = diskAfterRename (w.disk.set path file) current path) (p : Path) :
    w'.bytesAt p =
      if current ≠ path ∧ current = p then none
      else if path = p then some file.content else w.bytesAt p := by
  have hset : ((w.disk.set path file).get p).map (·.content) =
      if path = p then some file.content else w.bytesAt p := by
    rw [JsMap.get_set]
    split <;> rfl
  rw [bytesAt, h, diskAfterRename]
  by_cases hc : current = path
  · simp only [hc, if_true, hset, ne_eq, not_true_eq_false, false_and, if_false]
  · by_cases hcp : current = p
    · subst hcp
      simp [hc]
    · simp [hc, hcp, JsMap.get_delete, hset]

theorem run_writeLocal_drifted (fileId : String) (path : Path) (content : Bytes) (hlc : Hlc)
    (head : Option String)
    (hd : Drifted D localState w fileId (currentPath localState fileId path) = true) :
    run (applyAction D H localState (.writeLocal fileId path content hlc head)) w =
      some (.ok .deferred, w) := by
  simp [applyAction, writeLocal, hd]

theorem run_writeLocal (fileId : String) (path : Path) (content : Bytes) (hlc : Hlc)
    (head : Option String)
    (hd : Drifted D localState w fileId (currentPath localState fileId path) = false) :
    ∃ w', run (applyAction D H localState (.writeLocal fileId path content hlc head)) w =
        some (.ok (.done none), w') ∧
      w'.disk = diskAfterRename (diskAfterWrite D w path content)
        (currentPath localState fileId path) path ∧
      w'.registry = w.registry.adoptRemote fileId path (D.sha256Hex content) hlc head ∧
      w'.log = w.log := by
  simp [applyAction, writeLocal, hd]

theorem run_writeMerge_drifted (fileId : String) (path : Path) (content : Bytes)
    (parents : List String)
    (hd : Drifted D localState w fileId (currentPath localState fileId path) = true) :
    run (applyAction D H localState (.writeMerge fileId path content parents)) w =
      some (.ok .deferred, w) := by
  simp [applyAction, writeMerge, hd]

theorem run_writeMerge (fileId : String) (path : Path) (content : Bytes) (parents : List String)
    (hd : Drifted D localState w fileId (currentPath localState fileId path) = false) :
    ∃ w' resolution, run (applyAction D H localState
        (.writeMerge fileId path content parents)) w =
        some (.ok (.done (some resolution)), w') ∧
      w'.disk = diskAfterRename (w.disk.set path ⟨content, w.wallClock (w.wallReads + 1)⟩)
        (currentPath localState fileId path) path ∧
      w'.registry = w.registry.adoptRemote fileId path (D.sha256Hex content)
        (Hlc.now w.hlc w.wallTime)
        (some (mergeVersionId D.toPlatform (D.sha256Hex content) parents)) ∧
      w'.log = w.log := by
  simp [applyAction, writeMerge, hd, wallTime]

theorem run_moveLocal_drifted (fileId : String) (fromPath toPath : Path)
    (hd : Drifted D localState w fileId fromPath = true) :
    run (applyAction D H localState (.moveLocal fileId fromPath toPath)) w =
      some (.ok .deferred, w) := by
  simp [applyAction, moveLocal, hd]

/-- The destination is another file and the vault does not replace it. -/
def MoveRejected (fromPath toPath : Path) : Prop :=
  (w.disk.get fromPath).isSome ∧ (w.disk.get toPath).isSome ∧ D.moveReplaces = false

def diskAfterMove (fromPath toPath : Path) : JsMap Path File :=
  match w.disk.get fromPath with
  | none => w.disk
  | some file => (w.disk.delete fromPath).set toPath file

theorem run_moveLocal_rejected (fileId : String) (fromPath toPath : Path)
    (hd : Drifted D localState w fileId fromPath = false)
    (hr : MoveRejected D w fromPath toPath) :
    run (applyAction D H localState (.moveLocal fileId fromPath toPath)) w =
      some (.error "Destination file already exists!", w) := by
  obtain ⟨hfrom, hto, hkeep⟩ := hr
  obtain ⟨file, hfile⟩ := Option.isSome_iff_exists.1 hfrom
  simp [applyAction, moveLocal, hd, run_move, hfile, hto, hkeep]

theorem run_moveLocal (fileId : String) (fromPath toPath : Path)
    (hd : Drifted D localState w fileId fromPath = false)
    (hr : ¬ MoveRejected D w fromPath toPath) :
    ∃ w', run (applyAction D H localState (.moveLocal fileId fromPath toPath)) w =
        some (.ok (.done none), w') ∧
      w'.disk = diskAfterMove w fromPath toPath ∧
      (∃ hlc, w'.registry = w.registry.updatePath fromPath toPath hlc) ∧
      w'.log = w.log := by
  cases hfile : w.disk.get fromPath with
  | none => simp [applyAction, moveLocal, hd, run_move, hfile, diskAfterMove]
  | some file =>
      have hok : ¬ ((w.disk.get toPath).isSome = true ∧ D.moveReplaces = false) :=
        fun h => hr ⟨by simp [hfile], h⟩
      simp [applyAction, moveLocal, hd, run_move, hfile, diskAfterMove, hok]

theorem run_deleteLocal_drifted (fileId : String) (path : Path)
    (hd : Drifted D localState w fileId path = true) :
    run (applyAction D H localState (.deleteLocal fileId path)) w = some (.ok .deferred, w) := by
  simp [applyAction, deleteLocal, hd]

theorem run_deleteLocal (fileId : String) (path : Path)
    (hd : Drifted D localState w fileId path = false) :
    ∃ w', run (applyAction D H localState (.deleteLocal fileId path)) w =
        some (.ok (.done none), w') ∧
      w'.disk = w.disk.delete path ∧
      (∃ hlc, w'.registry = w.registry.markDeleted path hlc) ∧ w'.log = w.log := by
  simp [applyAction, deleteLocal, hd]

theorem run_writeMarkers_drifted (fileId : String) (localPath remotePath : Path)
    (localText remoteText : Diff3.Text) (m : Diff3.ThreeWayMergeResult Diff3.Line)
    (parents : Option (List String))
    (hd : Drifted D localState w fileId (currentPath localState fileId localPath) = true) :
    run (applyAction D H localState
        (.conflict fileId localPath remotePath m localText remoteText parents)) w =
      some (.ok .deferred, w) := by
  simp [applyAction, writeMarkers, hd]

theorem run_writeMarkers (fileId : String) (localPath remotePath : Path)
    (localText remoteText : Diff3.Text) (m : Diff3.ThreeWayMergeResult Diff3.Line)
    (parents : Option (List String))
    (hd : Drifted D localState w fileId (currentPath localState fileId localPath) = false) :
    ∃ w', run (applyAction D H localState
        (.conflict fileId localPath remotePath m localText remoteText parents)) w =
        some (.ok (.done none), w') ∧
      w'.disk = w.disk.set localPath ⟨D.encode (renderMarkersFromResult m), w.wallTime⟩ ∧
      (∃ hlc, w'.registry = w.registry.markConflicted localPath
        (D.sha256Hex (D.encode (renderMarkersFromResult m))) hlc (parents.getD [])) ∧
      w'.log = w.log := by
  simp only [applyAction, writeMarkers, hd, run_bind, run_driftedSinceSnapshot, Option.bind_some,
    resume_ok, Bool.false_eq_true, if_false]
  exact ⟨_, rfl, rfl, ⟨_, rfl⟩, rfl⟩

/-- What a resolution that keeps a version leaves behind. -/
def Restores (w w' : World) (fileId : String) (path : Path) (content : Bytes)
    (parents : Option (List String)) : Prop :=
  (∃ mtime, w'.disk = w.disk.set path ⟨content, mtime⟩) ∧
    (∃ hlc, w'.registry = w.registry.adoptRemote fileId path (D.sha256Hex content) hlc
      (some (mergeVersionId D.toPlatform (D.sha256Hex content) (parents.getD [])))) ∧
    w'.log = w.log

theorem run_settleDelete_deferred (fileId : String) (path : Path) (side : DeleteSide)
    (content : Bytes) (parents : Option (List String))
    (hdec : H.onDeleteConflict (.deleteConflict fileId path side content parents) =
      .deferConflict) :
    run (applyAction D H localState (.deleteConflict fileId path side content parents)) w =
      some (.ok .deferredConflict, w) := by
  simp [applyAction, settleDelete, hdec]

theorem run_settleDelete_keepModified (fileId : String) (path : Path) (side : DeleteSide)
    (content : Bytes) (parents : Option (List String))
    (hdec : H.onDeleteConflict (.deleteConflict fileId path side content parents) =
      .keepModified) :
    ∃ w' resolution, run (applyAction D H localState
        (.deleteConflict fileId path side content parents)) w =
        some (.ok (.done (some resolution)), w') ∧
      Restores D w w' fileId path content parents := by
  simp only [applyAction, settleDelete, hdec, run_bind, run_pause, Option.bind_some, resume_ok]
  exact ⟨_, _, rfl, ⟨_, rfl⟩, ⟨_, rfl⟩, rfl⟩

theorem run_settleDelete_keepDeleted (fileId : String) (path : Path) (side : DeleteSide)
    (content : Bytes) (parents : Option (List String))
    (hdec : H.onDeleteConflict (.deleteConflict fileId path side content parents) =
      .keepDeleted) :
    ∃ w' resolution, run (applyAction D H localState
        (.deleteConflict fileId path side content parents)) w =
        some (.ok (.done (some resolution)), w') ∧
      w'.disk = w.disk.delete path ∧
      (∃ hlc, w'.registry = w.registry.markDeleted path hlc) ∧ w'.log = w.log := by
  simp [applyAction, settleDelete, hdec, mintMergeResolution]

theorem run_settleBinary_deferred (fileId : String) (localPath remotePath : Path)
    (localContent remoteContent : Bytes) (localHlc remoteHlc : Hlc)
    (parents : Option (List String))
    (hdec : H.onBinaryConflict (.binaryConflict fileId localPath remotePath localContent
      remoteContent localHlc remoteHlc parents) = .deferConflict) :
    run (applyAction D H localState (.binaryConflict fileId localPath remotePath localContent
      remoteContent localHlc remoteHlc parents)) w = some (.ok .deferredConflict, w) := by
  simp [applyAction, settleBinary, hdec]

theorem run_settleBinary (fileId : String) (localPath remotePath : Path)
    (localContent remoteContent : Bytes) (localHlc remoteHlc : Hlc)
    (parents : Option (List String)) (decision : BinaryDecision)
    (hdec : H.onBinaryConflict (.binaryConflict fileId localPath remotePath localContent
      remoteContent localHlc remoteHlc parents) = decision) (hd : decision ≠ .deferConflict) :
    ∃ w' resolution, run (applyAction D H localState (.binaryConflict fileId localPath
        remotePath localContent remoteContent localHlc remoteHlc parents)) w =
        some (.ok (.done (some resolution)), w') ∧
      Restores D w w' fileId (if decision = .keepLocal then localPath else remotePath)
        (if decision = .keepLocal then localContent else remoteContent) parents := by
  cases decision with
  | deferConflict => exact absurd rfl hd
  | keepLocal =>
      simp only [applyAction, settleBinary, hdec, run_bind, run_pause, Option.bind_some, resume_ok]
      exact ⟨_, _, rfl, ⟨_, rfl⟩, ⟨_, rfl⟩, rfl⟩
  | keepRemote =>
      simp only [applyAction, settleBinary, hdec, run_bind, run_pause, Option.bind_some, resume_ok]
      exact ⟨_, _, rfl, ⟨_, rfl⟩, ⟨_, rfl⟩, rfl⟩

/-- The paths an action may change. -/
def touched : MergeAction → List Path
  | .writeLocal fileId path .. | .writeMerge fileId path .. =>
      [path, currentPath localState fileId path]
  | .moveLocal _ fromPath toPath => [fromPath, toPath]
  | .deleteLocal _ path | .conflict _ path .. => [path]
  | .deleteConflict fileId path side content parents =>
      if H.onDeleteConflict (.deleteConflict fileId path side content parents) = .deferConflict
      then [] else [path]
  | .binaryConflict fileId localPath remotePath localContent remoteContent localHlc remoteHlc
      parents =>
      match H.onBinaryConflict (.binaryConflict fileId localPath remotePath localContent
        remoteContent localHlc remoteHlc parents) with
      | .deferConflict => []
      | .keepLocal => [localPath]
      | .keepRemote => [remotePath]
  | .sendRemote .. | .deleteRemote .. | .noOp _ => []

/-- Applying an action always ends, and leaves the other paths alone. -/
theorem run_applyAction_frame (action : MergeAction) :
    ∃ result w', run (applyAction D H localState action) w = some (result, w') ∧
      ∀ p, p ∉ touched H localState action → w'.bytesAt p = w.bytesAt p := by
  cases action with
  | writeLocal fileId path content hlc head =>
      cases hd : Drifted D localState w fileId (currentPath localState fileId path) with
      | true =>
          exact ⟨_, w, run_writeLocal_drifted D H localState w _ _ _ _ _ hd, fun _ _ => rfl⟩
      | false =>
          obtain ⟨w', hrun, hdisk, -, -⟩ :=
            run_writeLocal D H localState w fileId path content hlc head hd
          refine ⟨_, w', hrun, fun p hp => ?_⟩
          simp only [touched, List.mem_cons, List.not_mem_nil, or_false, not_or] at hp
          rw [bytesAt_writeLocal D hdisk, if_neg (fun h => hp.2 h.2.symm),
            if_neg (fun h => hp.1 h.1.symm)]
  | writeMerge fileId path content parents =>
      cases hd : Drifted D localState w fileId (currentPath localState fileId path) with
      | true =>
          exact ⟨_, w, run_writeMerge_drifted D H localState w _ _ _ _ hd, fun _ _ => rfl⟩
      | false =>
          obtain ⟨w', resolution, hrun, hdisk, -, -⟩ :=
            run_writeMerge D H localState w fileId path content parents hd
          refine ⟨_, w', hrun, fun p hp => ?_⟩
          simp only [touched, List.mem_cons, List.not_mem_nil, or_false, not_or] at hp
          rw [bytesAt_writeMerge hdisk, if_neg (fun h => hp.2 h.2.symm),
            if_neg (fun h => hp.1 h.symm)]
  | moveLocal fileId fromPath toPath =>
      cases hd : Drifted D localState w fileId fromPath with
      | true => exact ⟨_, w, run_moveLocal_drifted D H localState w _ _ _ hd, fun _ _ => rfl⟩
      | false =>
          by_cases hr : MoveRejected D w fromPath toPath
          · exact ⟨_, w, run_moveLocal_rejected D H localState w _ _ _ hd hr, fun _ _ => rfl⟩
          · obtain ⟨w', hrun, hdisk, -, -⟩ :=
              run_moveLocal D H localState w fileId fromPath toPath hd hr
            refine ⟨_, w', hrun, fun p hp => ?_⟩
            simp only [touched, List.mem_cons, List.not_mem_nil, or_false, not_or] at hp
            rw [bytesAt, hdisk, diskAfterMove]
            split
            · rfl
            · rw [JsMap.get_set_ne _ _ (Ne.symm hp.2), JsMap.get_delete_ne _ (Ne.symm hp.1)]
              rfl
  | deleteLocal fileId path =>
      cases hd : Drifted D localState w fileId path with
      | true => exact ⟨_, w, run_deleteLocal_drifted D H localState w _ _ hd, fun _ _ => rfl⟩
      | false =>
          obtain ⟨w', hrun, hdisk, -, -⟩ := run_deleteLocal D H localState w fileId path hd
          refine ⟨_, w', hrun, fun p hp => ?_⟩
          rw [bytesAt_delete hdisk, if_neg (fun h => hp (List.mem_singleton.2 h.symm))]
  | conflict fileId localPath remotePath m localText remoteText parents =>
      cases hd : Drifted D localState w fileId (currentPath localState fileId localPath) with
      | true =>
          exact ⟨_, w, run_writeMarkers_drifted D H localState w _ _ _ _ _ _ _ hd,
            fun _ _ => rfl⟩
      | false =>
          obtain ⟨w', hrun, hdisk, -, -⟩ := run_writeMarkers D H localState w fileId localPath
            remotePath localText remoteText m parents hd
          refine ⟨_, w', hrun, fun p hp => ?_⟩
          rw [bytesAt_set hdisk, if_neg (fun h => hp (List.mem_singleton.2 h.symm))]
  | deleteConflict fileId path side content parents =>
      cases hdec : H.onDeleteConflict (.deleteConflict fileId path side content parents) with
      | deferConflict =>
          exact ⟨_, w, run_settleDelete_deferred D H localState w _ _ _ _ _ hdec, fun _ _ => rfl⟩
      | keepModified =>
          obtain ⟨w', resolution, hrun, ⟨mtime, hdisk⟩, -⟩ :=
            run_settleDelete_keepModified D H localState w fileId path side content parents hdec
          refine ⟨_, w', hrun, fun p hp => ?_⟩
          rw [touched, hdec, if_neg (by rintro ⟨⟩)] at hp
          rw [bytesAt_set hdisk, if_neg (fun h => hp (List.mem_singleton.2 h.symm))]
      | keepDeleted =>
          obtain ⟨w', resolution, hrun, hdisk, -⟩ :=
            run_settleDelete_keepDeleted D H localState w fileId path side content parents hdec
          refine ⟨_, w', hrun, fun p hp => ?_⟩
          rw [touched, hdec, if_neg (by rintro ⟨⟩)] at hp
          rw [bytesAt_delete hdisk, if_neg (fun h => hp (List.mem_singleton.2 h.symm))]
  | binaryConflict fileId localPath remotePath localContent remoteContent localHlc remoteHlc
      parents =>
      cases hdec : H.onBinaryConflict (.binaryConflict fileId localPath remotePath localContent
          remoteContent localHlc remoteHlc parents) with
      | deferConflict =>
          exact ⟨_, w, run_settleBinary_deferred D H localState w _ _ _ _ _ _ _ _ hdec,
            fun _ _ => rfl⟩
      | keepLocal =>
          obtain ⟨w', resolution, hrun, ⟨mtime, hdisk⟩, -⟩ := run_settleBinary D H localState w
            fileId localPath remotePath localContent remoteContent localHlc remoteHlc parents _
            hdec (by rintro ⟨⟩)
          refine ⟨_, w', hrun, fun p hp => ?_⟩
          simp only [touched, hdec] at hp
          rw [bytesAt_set hdisk, if_neg (fun h => hp (List.mem_singleton.2 h.symm))]
      | keepRemote =>
          obtain ⟨w', resolution, hrun, ⟨mtime, hdisk⟩, -⟩ := run_settleBinary D H localState w
            fileId localPath remotePath localContent remoteContent localHlc remoteHlc parents _
            hdec (by rintro ⟨⟩)
          refine ⟨_, w', hrun, fun p hp => ?_⟩
          simp only [touched, hdec] at hp
          rw [bytesAt_set hdisk, if_neg (fun h => hp (List.mem_singleton.2 h.symm))]
  | sendRemote => exact ⟨_, w, rfl, fun _ _ => rfl⟩
  | deleteRemote => exact ⟨_, w, rfl, fun _ _ => rfl⟩
  | noOp => exact ⟨_, w, rfl, fun _ _ => rfl⟩

/-- The contents an action may write. -/
def written : MergeAction → List Bytes
  | .writeLocal _ _ content .. | .writeMerge _ _ content _ => [content]
  | .conflict _ _ _ mergeResult .. => [D.encode (renderMarkersFromResult mergeResult)]
  | .deleteConflict _ _ _ content _ => [content]
  | .binaryConflict _ _ _ localContent remoteContent .. => [localContent, remoteContent]
  | _ => []

theorem bytes_of_set {w w' : World} {path p : Path} {file : File} {contents : List Bytes}
    {b : Bytes} (hdisk : w'.disk = w.disk.set path file) (hfile : file.content ∈ contents)
    (hb : w'.bytesAt p = some b) : w.bytesAt p = some b ∨ b ∈ contents := by
  rw [bytesAt_set hdisk] at hb
  split at hb
  · exact Or.inr (Option.some.inj hb ▸ hfile)
  · exact Or.inl hb

theorem bytes_of_delete {w w' : World} {path p : Path} {b : Bytes}
    (hdisk : w'.disk = w.disk.delete path) (hb : w'.bytesAt p = some b) :
    w.bytesAt p = some b := by
  rw [bytesAt_delete hdisk] at hb
  split at hb
  · cases hb
  · exact hb

/-- Bytes found after an action were there before, or the action wrote them, or it moved
them there. -/
theorem run_applyAction_bytes (action : MergeAction) {result : Except String Applied} {w' : World}
    (hrun : run (applyAction D H localState action) w = some (result, w')) {p : Path} {b : Bytes}
    (hb : w'.bytesAt p = some b) :
    w.bytesAt p = some b ∨ b ∈ written D action ∨
      ∃ fileId fromPath, action = .moveLocal fileId fromPath p := by
  cases action with
  | writeLocal fileId path content hlc head =>
      cases hd : Drifted D localState w fileId (currentPath localState fileId path) with
      | true =>
          cases hrun.symm.trans (run_writeLocal_drifted D H localState w _ _ _ _ _ hd)
          exact Or.inl hb
      | false =>
          obtain ⟨w₁, hrun', hdisk, -, -⟩ :=
            run_writeLocal D H localState w fileId path content hlc head hd
          cases hrun.symm.trans hrun'
          rw [bytesAt_writeLocal D hdisk] at hb
          split at hb
          · cases hb
          · split at hb
            · exact Or.inr (Or.inl (List.mem_singleton.2 (Option.some.inj hb).symm))
            · exact Or.inl hb
  | writeMerge fileId path content parents =>
      cases hd : Drifted D localState w fileId (currentPath localState fileId path) with
      | true =>
          cases hrun.symm.trans (run_writeMerge_drifted D H localState w _ _ _ _ hd)
          exact Or.inl hb
      | false =>
          obtain ⟨w₁, resolution, hrun', hdisk, -, -⟩ :=
            run_writeMerge D H localState w fileId path content parents hd
          cases hrun.symm.trans hrun'
          rw [bytesAt_writeMerge hdisk] at hb
          split at hb
          · cases hb
          · split at hb
            · exact Or.inr (Or.inl (List.mem_singleton.2 (Option.some.inj hb).symm))
            · exact Or.inl hb
  | moveLocal fileId fromPath toPath =>
      by_cases hp : toPath = p
      · exact Or.inr (Or.inr ⟨fileId, fromPath, by rw [hp]⟩)
      · left
        cases hd : Drifted D localState w fileId fromPath with
        | true =>
            cases hrun.symm.trans (run_moveLocal_drifted D H localState w _ _ _ hd)
            exact hb
        | false =>
            by_cases hr : MoveRejected D w fromPath toPath
            · cases hrun.symm.trans (run_moveLocal_rejected D H localState w _ _ _ hd hr)
              exact hb
            · obtain ⟨w₁, hrun', hdisk, -, -⟩ :=
                run_moveLocal D H localState w fileId fromPath toPath hd hr
              cases hrun.symm.trans hrun'
              rw [bytesAt, hdisk, diskAfterMove] at hb
              split at hb
              · exact hb
              · rw [JsMap.get_set_ne _ _ hp, JsMap.get_delete] at hb
                split at hb
                · cases hb
                · exact hb
  | deleteLocal fileId path =>
      cases hd : Drifted D localState w fileId path with
      | true =>
          cases hrun.symm.trans (run_deleteLocal_drifted D H localState w _ _ hd)
          exact Or.inl hb
      | false =>
          obtain ⟨w₁, hrun', hdisk, -, -⟩ := run_deleteLocal D H localState w fileId path hd
          cases hrun.symm.trans hrun'
          exact Or.inl (bytes_of_delete hdisk hb)
  | conflict fileId localPath remotePath m localText remoteText parents =>
      cases hd : Drifted D localState w fileId (currentPath localState fileId localPath) with
      | true =>
          cases hrun.symm.trans (run_writeMarkers_drifted D H localState w _ _ _ _ _ _ _ hd)
          exact Or.inl hb
      | false =>
          obtain ⟨w₁, hrun', hdisk, -, -⟩ := run_writeMarkers D H localState w fileId
            localPath remotePath localText remoteText m parents hd
          cases hrun.symm.trans hrun'
          exact (bytes_of_set hdisk List.mem_cons_self hb).imp_right Or.inl
  | deleteConflict fileId path side content parents =>
      cases hdec : H.onDeleteConflict (.deleteConflict fileId path side content parents) with
      | deferConflict =>
          cases hrun.symm.trans (run_settleDelete_deferred D H localState w _ _ _ _ _ hdec)
          exact Or.inl hb
      | keepModified =>
          obtain ⟨w₁, resolution, hrun', ⟨mtime, hdisk⟩, -⟩ :=
            run_settleDelete_keepModified D H localState w fileId path side content parents hdec
          cases hrun.symm.trans hrun'
          exact (bytes_of_set hdisk List.mem_cons_self hb).imp_right Or.inl
      | keepDeleted =>
          obtain ⟨w₁, resolution, hrun', hdisk, -⟩ :=
            run_settleDelete_keepDeleted D H localState w fileId path side content parents hdec
          cases hrun.symm.trans hrun'
          exact Or.inl (bytes_of_delete hdisk hb)
  | binaryConflict fileId localPath remotePath localContent remoteContent localHlc remoteHlc
      parents =>
      by_cases hdec : H.onBinaryConflict (.binaryConflict fileId localPath remotePath localContent
          remoteContent localHlc remoteHlc parents) = .deferConflict
      · cases hrun.symm.trans (run_settleBinary_deferred D H localState w _ _ _ _ _ _ _ _ hdec)
        exact Or.inl hb
      · obtain ⟨w₁, resolution, hrun', ⟨mtime, hdisk⟩, -⟩ := run_settleBinary D H localState w
          fileId localPath remotePath localContent remoteContent localHlc remoteHlc parents _
          rfl hdec
        cases hrun.symm.trans hrun'
        refine (bytes_of_set hdisk ?_ hb).imp_right Or.inl
        rw [written, List.mem_pair]
        split
        · exact Or.inl rfl
        · exact Or.inr rfl
  | sendRemote =>
      cases hrun
      exact Or.inl hb
  | deleteRemote =>
      cases hrun
      exact Or.inl hb
  | noOp =>
      cases hrun
      exact Or.inl hb

end OpsBlobs.ApplySpec
