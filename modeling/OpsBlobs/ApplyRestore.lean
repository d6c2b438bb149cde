import OpsBlobs.ApplyFaults
import OpsBlobs.FailingCalls

namespace OpsBlobs.ApplyRestore

open Types Operations FileRegistry Coroutine World OperationLogger SyncApplicator FailingCalls
  GhostCode WriteEffects WorldEffects
open ApplyFaults (released)

/-- The calls of an apply that may fail: the action or the checkpoint of a place in the list, the
two calls of the clean-up, and what comes after them. -/
inductive Call
  | action (index : Nat)
  | tick (index : Nat)
  | flush
  | clearOps
  | syncedPaths
  | resolutions
  | recaptures
  | registryFlush
  | compact
  deriving DecidableEq, Repr

/-- Which operations fail: in the call, the one awaited after `n` others throws. -/
abbrev Faults := Call → Nat → Option String

/-- The world, and whether the registry's saves are suspended. -/
abbrev Saving := World × Bool

section Apply

variable (D : Device) (H : ConflictHandlers) (faults : Faults)

def suspendSaves : Coroutine Saving String Unit := modify fun s => (s.1, true)

def resumeSaves : Coroutine Saving String Unit := modify fun s => (s.1, false)

def PACK_CHECKPOINT_EVERY : Nat := 200

/-- Every so many actions the buffered blobs are flushed; the result is the new count. -/
def tick (fails : Nat → Option String) (since : Nat) : Async Nat := do
  if since + 1 < PACK_CHECKPOINT_EVERY then
    pause
    pure (since + 1)
  else
    failing id fails 0 ContentStore.flushPack
    pure 0

/-- The persist that failed leaves the queue all the same. -/
def clearOps : Async Unit := do
  setLog (fun log => { log with pendingOps := [] })
  enqueuePersist .rewrite (failing id (faults .clearOps) 0 rewriteOpLogLocked)

def applyIsolated (localState : VaultState) (collected : ApplyState × Nat)
    (action : MergeAction × Nat) : Async (ApplyState × Nat) := do
  let st ← tryCatch
    (do
      let applied ← failing id (faults (.action action.2)) 0 (applyAction D H localState action.1)
      pure (collected.1.record action.1.fileId applied))
    (fun message => do
      let path := match localState.fileEntries.get action.1.fileId with
        | some entry => entry.path
        | none => action.1.fileId
      let st := { collected.1 with
        deferred := addOnce collected.1.deferred action.1.fileId
        failures := collected.1.failures ++ [⟨action.1.fileId, path, action.1, message⟩] }
      if MAX_ACTION_FAILURES < st.failures.length then throw message else pure st)
  let since ← tick (faults (.tick action.2)) collected.2
  pure (st, since)

def cleanUp : Async Unit := do
  failing id (faults .flush) 0 ContentStore.flushPack
  clearOps faults
  pause
  startListening

def applyLoop (localState : VaultState) (actions : List MergeAction) : Async ApplyState := do
  let collected ← tryFinally
    (foldM (applyIsolated D H faults localState) (⟨[], [], [], []⟩, 0) actions.zipIdx)
    (cleanUp faults)
  pure collected.1

def applyAll (localState : VaultState) (actions : List MergeAction) : Async ApplyState := do
  let st ← applyLoop D H faults localState actions
  failing id (faults .syncedPaths) 0 (updateSyncedPaths localState st.deferred actions)
  failing released (faults .resolutions) 0 (forEach recordResolution st.resolutions)
  failing released (faults .recaptures) 0 (recaptureDeferred D localState st.deferred)
  pure st

def compact : Async Unit := do
  let w ← get
  let pinned := w.log.pendingOps.map (·.fileId)
  updateRegistry (fun r => r.reclaimTombstones D.settings w.wallTime pinned)

/-- `registry.flush` comes down to its append to the journal. -/
def registryFlush : Async Unit := pause

def settleRegistry : Coroutine Saving String Unit := do
  tryFinally (lift (failing id (faults .registryFlush) 0 registryFlush)) resumeSaves
  lift (failing id (faults .compact) 0 (compact D))

def applyActions (actions : List MergeAction) (localState : VaultState) :
    Coroutine Saving String ApplyState := do
  lift stopListening
  suspendSaves
  tryFinally (lift (applyAll D H faults localState actions)) (settleRegistry D faults)

end Apply

section Unfailing

variable {D : Device} {H : ConflictHandlers} {localState : VaultState} {w : World}

theorem run_tick (since : Nat) :
    ∃ next, run (tick (fun _ => none) since) w = some (.ok next, w) := by
  rw [tick, failing_none]
  split
  · exact ⟨_, rfl⟩
  · exact ⟨_, rfl⟩

/-- The loops go through the same states; the new one counts the actions besides. -/
theorem run_loop (collected : ApplyState) (since : Nat) (actions : List MergeAction) (n : Nat) :
    (run (foldM (applyIsolated D H (fun _ _ => none) localState) (collected, since)
      (actions.zipIdx n)) w).map (fun r => (r.1.map Prod.fst, r.2)) =
    run (foldM (SyncApplicator.applyIsolated D H localState) collected actions) w := by
  induction actions generalizing collected since n w with
  | nil => rfl
  | cons action rest ih =>
      rw [List.zipIdx_cons, run_foldM_cons, run_foldM_cons, applyIsolated,
        SyncApplicator.applyIsolated, failing_none]
      simp only [run_bind]
      rw [Option.bind_assoc, Option.bind_assoc]
      rw [Option.map_bind]
      refine Option.bind_congr fun r _ => ?_
      obtain ⟨e | st, w₁⟩ := r
      · rfl
      · obtain ⟨next, hnext⟩ := run_tick (w := w₁) since
        simp only [Function.comp_apply, resume_ok, hnext, Option.bind_some, run_pure, run_pause]
        exact ih st next (n + 1)

theorem run_cleanUp : run (cleanUp fun _ _ => none) w = run ApplyFaults.cleanUp w := by
  rw [cleanUp, clearOps, failing_none, failing_none]
  rfl

theorem run_applyLoop (actions : List MergeAction) :
    run (applyLoop D H (fun _ _ => none) localState actions) w =
      run (SyncApplicator.applyLoop D H localState actions) w := by
  have hloop : (run (foldM (applyIsolated D H (fun _ _ => none) localState) (⟨[], [], [], []⟩, 0)
      actions.zipIdx) w).map (fun r => (r.1.map Prod.fst, r.2)) =
      run (foldM (SyncApplicator.applyIsolated D H localState) ⟨[], [], [], []⟩ actions) w :=
    run_loop _ 0 actions 0
  rw [applyLoop, SyncApplicator.applyLoop, run_bind, run_tryFinally, run_tryFinally, ← hloop,
    Option.bind_assoc, Option.bind_map]
  refine Option.bind_congr fun r _ => ?_
  dsimp only [Function.comp_apply]
  rw [run_cleanUp, ApplyFaults.cleanUp, Option.bind_assoc]
  refine Option.bind_congr fun r' _ => ?_
  obtain ⟨e | collected, w₁⟩ := r
  · obtain ⟨e' | u, w₂⟩ := r' <;> rfl
  · obtain ⟨e' | u, w₂⟩ := r' <;> rfl

theorem run_applyAll (actions : List MergeAction) :
    run (applyAll D H (fun _ _ => none) localState actions) w = run (do
      let st ← SyncApplicator.applyLoop D H localState actions
      updateSyncedPaths localState st.deferred actions
      forEach recordResolution st.resolutions
      recaptureDeferred D localState st.deferred
      pure st) w := by
  rw [applyAll, run_bind, run_bind, run_applyLoop]
  simp only [failing_none]

theorem run_settleRegistry (suspended : Bool) :
    run (settleRegistry D fun _ _ => none) (w, suspended) =
      (run (SyncApplicator.settleRegistry D) w).map fun r => (r.1, r.2, false) := by
  rw [settleRegistry, failing_none, failing_none]
  rfl

/-- With nothing failing it is the apply of the device, and the saves are resumed after it. -/
theorem run_unfailing (actions : List MergeAction) (suspended : Bool) :
    run (applyActions D H (fun _ _ => none) actions localState) (w, suspended) =
      (run (SyncApplicator.applyActions D H actions localState) w).map
        fun r => (r.1, r.2, false) := by
  let paused : World := { w with listening := false, debounceTimers := [] }
  have hnew : run (applyActions D H (fun _ _ => none) actions localState) (w, suspended) =
      run (tryFinally (lift (applyAll D H (fun _ _ => none) localState actions))
        (settleRegistry D fun _ _ => none)) (paused, true) := rfl
  have hold : run (SyncApplicator.applyActions D H actions localState) w =
      run (tryFinally (do
        let st ← SyncApplicator.applyLoop D H localState actions
        updateSyncedPaths localState st.deferred actions
        forEach recordResolution st.resolutions
        recaptureDeferred D localState st.deferred
        pure st) (SyncApplicator.settleRegistry D)) paused := rfl
  rw [hnew, hold, run_tryFinally, run_tryFinally, run_lift, run_applyAll, Option.bind_map,
    Option.map_bind]
  refine Option.bind_congr fun r _ => ?_
  dsimp only [Function.comp_apply]
  rw [run_settleRegistry, Option.bind_map, Option.map_bind]
  refine Option.bind_congr fun r' _ => ?_
  obtain ⟨e | u, w'⟩ := r' <;> rfl

end Unfailing

section Untouched

variable {D : Device} {H : ConflictHandlers} {localState : VaultState}

def Leaves (w w' : World) : Prop := w'.listening = w.listening

theorem leaves_write (path : Path) (content : Bytes) :
    Does Leaves (Files.write path content) (fun _ => True) :=
  does_then does_pause fun _ => does_then (does_modify fun _ => rfl) fun _ => does_pause

theorem leaves_trash (path : Path) : Does Leaves (Files.trash path) (fun _ => True) :=
  does_then does_pause fun _ => does_then (does_modify fun _ => rfl) fun _ => does_pause

theorem leaves_move (D : Device) (fromPath toPath : Path) :
    Does Leaves (Files.move D fromPath toPath) (fun _ => True) := by
  refine does_then does_pause fun _ => does_then does_get fun w => ?_
  split
  · exact does_pause
  · split
    · exact does_throw
    · exact does_then (does_modify fun _ => rfl) fun _ => does_pause

theorem leaves_registry {f : FileRegistry → FileRegistry} :
    Does Leaves (updateRegistry f) (fun _ => True) := does_updateRegistry fun _ => rfl

theorem leaves_put (hash : String) (content : Bytes) :
    Does Leaves (ContentStore.putBuffered hash content) (fun _ => True) := does_put fun _ => rfl

theorem leaves_hlcNow : Does Leaves hlcNow (fun _ => True) := does_hlcNow fun _ _ _ => rfl

theorem leaves_drifted (fileId : String) (path : Path) :
    Does Leaves (driftedSinceSnapshot D fileId path localState) (fun _ => True) := by
  rw [driftedSinceSnapshot]
  split
  · exact does_pure trivial
  · refine does_then (does_read path) fun content => ?_
    split
    · exact does_pure trivial
    · exact does_then (does_hashContent D _) fun _ => does_pure trivial

theorem leaves_trashStale (current path : Path) :
    Does Leaves (trashStale current path) (fun _ => True) := by
  rw [trashStale]
  split
  · exact leaves_trash current
  · exact does_pure trivial

theorem leaves_writeUnlessHeld (path : Path) (content : Bytes) (hash : String) :
    Does Leaves (writeUnlessHeld D path content hash) (fun _ => True) := by
  have hrest : ∀ held : Option String, Does Leaves
      (if held ≠ some hash then Files.write path content else pure ()) (fun _ => True) := by
    intro held
    split
    · exact leaves_write path content
    · exact does_pure trivial
  refine does_then (does_read path) fun onDisk => ?_
  dsimp only
  split
  · exact does_then (does_hashContent D _) fun hash => hrest (some hash)
  · exact hrest none

theorem leaves_putUnlessHeld (hash : String) (content : Bytes) :
    Does Leaves (putUnlessHeld hash content) (fun _ => True) := by
  refine does_then (P := fun _ => True) (does_then does_pause fun _ =>
    does_then does_get fun _ => does_pure trivial) fun held => ?_
  split
  · exact leaves_put hash content
  · exact does_pure trivial

theorem leaves_mint (fileId : String) (path : Path) (hash : String) (hlc : Hlc)
    (parents : Option (List String)) (deleted : Bool) :
    Does Leaves (mintMergeResolution D fileId path hash hlc parents deleted) (fun _ => True) := by
  refine does_then does_pause fun _ => ?_
  dsimp only
  split
  · exact does_then leaves_registry fun _ => does_pure trivial
  · exact does_pure trivial

theorem leaves_applyAction (action : MergeAction) :
    Does Leaves (applyAction D H localState action) (fun _ => True) := by
  cases action with
  | writeLocal fileId path content hlc headVersionId =>
      refine does_then (leaves_drifted _ _) fun drifted => ?_
      split
      · exact does_pure trivial
      · refine does_then (does_hashContent D content) fun hash => ?_
        refine does_then (leaves_writeUnlessHeld _ _ _) fun _ => ?_
        refine does_then (leaves_putUnlessHeld _ _) fun _ => does_then leaves_registry fun _ => ?_
        exact does_then (leaves_trashStale _ _) fun _ => does_pure trivial
  | writeMerge fileId path content parents =>
      refine does_then (leaves_drifted _ _) fun drifted => ?_
      split
      · exact does_pure trivial
      · refine does_then (does_hashContent D content) fun hash => does_then does_pause fun _ => ?_
        refine does_then leaves_hlcNow fun hlcTs => does_then (leaves_write _ _) fun _ => ?_
        refine does_then (leaves_put _ _) fun _ => does_then leaves_registry fun _ => ?_
        exact does_then (leaves_trashStale _ _) fun _ => does_pure trivial
  | moveLocal fileId fromPath toPath =>
      refine does_then (leaves_drifted _ _) fun drifted => ?_
      split
      · exact does_pure trivial
      · refine does_then (leaves_move D _ _) fun _ => does_then leaves_hlcNow fun _ => ?_
        exact does_then leaves_registry fun _ => does_pure trivial
  | deleteLocal fileId path =>
      refine does_then (leaves_drifted _ _) fun drifted => ?_
      split
      · exact does_pure trivial
      · refine does_then (leaves_trash _) fun _ => does_then leaves_hlcNow fun _ => ?_
        exact does_then leaves_registry fun _ => does_pure trivial
  | conflict fileId localPath remotePath mergeResult localHlc remoteHlc parents =>
      refine does_then (leaves_drifted _ _) fun drifted => ?_
      split
      · exact does_pure trivial
      · refine does_then (does_hashContent D _) fun hash => does_then (leaves_write _ _) fun _ => ?_
        refine does_then (leaves_put _ _) fun _ => does_then leaves_hlcNow fun _ => ?_
        exact does_then leaves_registry fun _ => does_pure trivial
  | deleteConflict fileId path side content parents =>
      refine does_then does_pause fun _ => ?_
      split
      · exact does_pure trivial
      · refine does_then leaves_hlcNow fun hlcTs => does_then (does_hashContent D _) fun hash => ?_
        refine does_then (leaves_write _ _) fun _ => does_then (leaves_put _ _) fun _ => ?_
        exact does_then (leaves_mint _ _ _ _ _ _) fun _ => does_pure trivial
      · refine does_then leaves_hlcNow fun hlcTs => does_then (does_hashContent D _) fun hash => ?_
        refine does_then (leaves_trash _) fun _ => does_then leaves_registry fun _ => ?_
        exact does_then (leaves_mint _ _ _ _ _ _) fun _ => does_pure trivial
  | binaryConflict fileId localPath remotePath localContent remoteContent localHlc remoteHlc
      parents =>
      refine does_then does_pause fun _ => ?_
      split
      · exact does_pure trivial
      · refine does_then leaves_hlcNow fun hlcTs => does_then (does_hashContent D _) fun hash => ?_
        refine does_then (leaves_write _ _) fun _ => does_then (leaves_put _ _) fun _ => ?_
        exact does_then (leaves_mint _ _ _ _ _ _) fun _ => does_pure trivial
  | sendRemote => exact does_pure trivial
  | deleteRemote => exact does_pure trivial
  | noOp => exact does_pure trivial

theorem leaves_appendOpLog : Does Leaves appendOpLog (fun _ => True) := by
  refine does_weaken ?_ does_appendOpLog
  rintro w _ ⟨log, rfl, -⟩
  rfl

theorem leaves_recordOp (op : Operation) : Does Leaves (recordOp op) (fun _ => True) :=
  does_then (does_modify fun _ => rfl) fun _ => leaves_appendOpLog

theorem leaves_handleCreate (path : Path) : Does Leaves (handleCreate D path) (fun _ => True) := by
  rw [handleCreate]
  split
  · exact does_pure trivial
  · refine does_then leaves_hlcNow fun hlcTs => does_then (does_read path) fun bytes => ?_
    split
    · exact does_pure trivial
    · split
      · exact does_pure trivial
      · refine does_then (does_hashContent D _) fun hash => ?_
        refine does_then (does_then (does_modifyGet fun _ => rfl) fun _ =>
          does_then does_pause fun _ => does_pure trivial) fun id => ?_
        refine does_then (leaves_put _ _) fun _ => does_then (leaves_recordOp _) fun _ => ?_
        exact leaves_registry

theorem leaves_resolveTwoHeaded (path : Path) (entry : FileEntry) (content : Bytes)
    (hash : String) : Does Leaves (resolveTwoHeaded D path entry content hash) (fun _ => True) := by
  refine does_then leaves_hlcNow fun hlcTs => does_then (leaves_put _ _) fun _ => ?_
  refine does_then leaves_registry fun _ => ?_
  split
  · exact does_pure trivial
  · refine does_then (does_current entry) fun entry' => ?_
    split
    · exact does_throw
    · refine does_then does_pause fun _ => does_then (leaves_recordOp _) fun _ => ?_
      exact does_then leaves_registry fun _ => leaves_registry

theorem leaves_flushModify (path : Path) : Does Leaves (flushModify D path) (fun _ => True) := by
  refine does_then (does_getByPath path) fun held => ?_
  split
  · exact leaves_handleCreate path
  · refine does_then (does_read path) fun bytes => ?_
    split
    · exact does_pure trivial
    · split
      · exact does_pure trivial
      · refine does_then (does_hashContent D _) fun hash => ?_
        refine does_then (does_current _) fun entry => ?_
        split
        · exact does_pure trivial
        · split
          · exact leaves_resolveTwoHeaded _ _ _ _
          · refine does_then leaves_hlcNow fun _ => does_then (leaves_put _ _) fun _ => ?_
            refine does_then leaves_registry fun _ => does_then (leaves_recordOp _) fun _ => ?_
            exact leaves_registry

theorem leaves_recordResolution (r : PendingResolution) :
    Does Leaves (recordResolution r) (fun _ => True) := by
  rw [recordResolution]
  split
  · exact does_then (leaves_recordOp _) fun _ => leaves_registry
  · exact does_then (leaves_recordOp _) fun _ => leaves_registry

theorem leaves_recaptureDeferred (fileIds : List String) :
    Does Leaves (recaptureDeferred D localState fileIds) (fun _ => True) := by
  refine does_forEach fun fileId _ => ?_
  split
  · exact leaves_flushModify _
  · exact does_pure trivial

theorem leaves_updateSyncedPaths (deferred : List String) (actions : List MergeAction) :
    Does Leaves (updateSyncedPaths localState deferred actions) (fun _ => True) := by
  refine does_forEach fun action _ => ?_
  split
  · exact does_pure trivial
  · split
    · exact does_pure trivial
    · split
      · exact does_pure trivial
      · split
        · exact leaves_registry
        · split
          · exact leaves_registry
          · exact does_pure trivial
        · exact does_pure trivial

variable {faults : Faults}

theorem leaves_tick (fails : Nat → Option String) (since : Nat) :
    Does Leaves (tick fails since) (fun _ => True) := by
  rw [tick]
  split
  · exact does_then does_pause fun _ => does_pure trivial
  · exact does_then (does_failing _ _ (fun _ => rfl) does_pause) fun _ => does_pure trivial

theorem leaves_bail (st : ApplyState) (message : String) :
    Does Leaves (if MAX_ACTION_FAILURES < st.failures.length then throw message else pure st)
      (fun _ => True) := by
  split
  · exact does_throw
  · exact does_pure trivial

theorem leaves_applyIsolated (collected : ApplyState × Nat) (action : MergeAction × Nat) :
    Does Leaves (applyIsolated D H faults localState collected action) (fun _ => True) := by
  refine does_then (does_tryCatch ?_ fun message => leaves_bail _ message) fun st => ?_
  · exact does_then (does_failing _ _ (fun _ => rfl) (leaves_applyAction _)) fun _ =>
      does_pure trivial
  · exact does_then (leaves_tick _ _) fun _ => does_pure trivial

theorem leaves_loop (collected : ApplyState × Nat) (actions : List (MergeAction × Nat)) :
    Does Leaves (foldM (applyIsolated D H faults localState) collected actions) (fun _ => True) :=
  does_foldM trivial fun _ _ _ _ => leaves_applyIsolated _ _

theorem leaves_compact : Does Leaves (compact D) (fun _ => True) :=
  does_then does_get fun _ => leaves_registry

end Untouched

section Restored

variable {D : Device} {H : ConflictHandlers} {localState : VaultState} {faults : Faults}
  {α : Type} {P : α → Prop} {w : World} {b : Bool}

/-- Other code may run meanwhile that neither attaches or detaches the listener nor suspends or
resumes the saves. -/
abbrev Apart : Saving → Saving → Prop := Beside Leaves

abbrev Anything {σ : Type} (_ _ : σ) : Prop := True

/-- Edits are heard, and what the registry makes of them is saved. -/
def Restored (s : Saving) : Prop := s.1.listening = true ∧ s.2 = false

/-- The clean-up's flush and the log's rewrite, with its directory, its write at both ends and the
clock that is saved with it, do not fail. -/
def CleansUp (faults : Faults) : Prop :=
  faults .flush 0 = none ∧ ∀ n < 4, faults .clearOps n = none

theorem wp_leaves {t : Async α} (h : Does Leaves t P) (hw : w.listening = b) :
    wp Leaves Anything t (fun _ w' => w'.listening = b) w := by
  have hkeep : ∀ w₁ w₂, Leaves w₁ w₂ → w₁.listening = b → w₂.listening = b :=
    fun w₁ w₂ hleaves h₁ => hleaves.trans h₁
  have hinv := wp_invariant hkeep hkeep (wp_of_does Leaves h w) hw
  exact wp_weaken (fun _ _ h => h) (fun _ _ _ => trivial) (wp_mono (fun _ _ h => h.2) hinv)

def IsOk {ε : Type} : Except ε α → Prop
  | .ok _ => True
  | .error _ => False

theorem four_iff (fails : Nat → Option String) : (∀ n < 4, fails n = none) ↔
    fails 0 = none ∧ fails 1 = none ∧ fails 2 = none ∧ fails 3 = none := by
  constructor
  · exact fun h => ⟨h 0 (by omega), h 1 (by omega), h 2 (by omega), h 3 (by omega)⟩
  · rintro ⟨h0, h1, h2, h3⟩ n hn
    match n with
    | 0 => exact h0
    | 1 => exact h1
    | 2 => exact h2
    | 3 => exact h3

/-- The rewrite throws exactly when one of its four operations does. -/
theorem wp_rewrite (fails : Nat → Option String) (w : World) :
    wp Anything Leaves (failing id fails 0 rewriteOpLogLocked)
      (fun r _ => IsOk r ↔ ∀ n < 4, fails n = none) w := by
  rw [four_iff]
  refine wp_failing_pause.2 ?_
  cases h0 : fails 0 with
  | some e => simp [IsOk, Leaves]
  | none =>
      refine fun w₁ _ => wp_failing_get.2 (wp_failing_modify.2 ⟨rfl, wp_failing_pause.2 ?_⟩)
      cases h1 : fails 1 with
      | some e => simp [IsOk, Leaves]
      | none =>
          refine fun w₂ _ => wp_failing_modify.2 ⟨rfl, wp_failing_pause.2 ?_⟩
          cases h2 : fails 2 with
          | some e => simp [IsOk, Leaves]
          | none =>
              refine fun w₃ _ => wp_failing_modify.2 ⟨rfl, wp_failing_lastPause.2 ?_⟩
              cases h3 : fails 3 with
              | some e => simp [IsOk, Leaves]
              | none => simp [IsOk]

theorem wp_clearOps (hw : w.listening = b) :
    wp Leaves Anything (clearOps faults)
      (fun r w' => w'.listening = b ∧ (IsOk r ↔ ∀ n < 4, faults .clearOps n = none)) w := by
  refine wp_setLog.2 ⟨trivial, ?_⟩
  refine wp_bind.2 ⟨trivial, ?_⟩
  refine wp_bind.2 fun w₁ hw₁ _ => ?_
  refine wp_tryFinally.2 ?_
  have hkeep : ∀ w₁ w₂, Leaves w₁ w₂ → w₁.listening = b → w₂.listening = b :=
    fun w₁ w₂ hleaves h₁ => hleaves.trans h₁
  have hrewrite : wp Leaves Leaves (failing id (faults .clearOps) 0 rewriteOpLogLocked)
      (fun r _ => IsOk r ↔ ∀ n < 4, faults .clearOps n = none) w₁ :=
    wp_weaken (fun _ _ _ => trivial) (fun _ _ h => h) (wp_rewrite (faults .clearOps) w₁)
  have hinv := wp_invariant hkeep hkeep hrewrite (hw₁.trans hw)
  refine wp_weaken (fun _ _ h => h) (fun _ _ _ => trivial) (wp_mono ?_ hinv)
  intro r w₂ h₂
  exact ⟨trivial, h₂.2, h₂.1⟩

/-- The listener is attached again unless one of the two calls before it throws. -/
theorem wp_cleanUp (hw : w.listening = false) :
    wp Leaves Anything (cleanUp faults)
      (fun _ w' => w'.listening = true ↔ CleansUp faults) w := by
  have hstays : ∀ {w' : World}, w'.listening = false → ¬ CleansUp faults →
      (w'.listening = true ↔ CleansUp faults) := by
    intro w' hw' hnot
    simp [hw', hnot]
  refine wp_bind.2 (wp_failing_lastPause.2 ?_)
  cases hflush : faults .flush 0 with
  | some e => exact ⟨trivial, hstays hw fun h => by cases hflush.symm.trans h.1⟩
  | none =>
      intro w₁ hw₁
      refine wp_bind.2 (wp_mono ?_ (wp_clearOps (hw₁.trans hw)))
      rintro (e | u) w₂ ⟨hw₂, hclear⟩
      · exact hstays hw₂ fun h => hclear.2 h.2
      · refine wp_pause.2 fun w₃ _ => ⟨trivial, ?_⟩
        exact iff_of_true rfl ⟨hflush, hclear.1 trivial⟩

theorem wp_applyLoop (actions : List MergeAction) (hw : w.listening = false) :
    wp Leaves Anything (applyLoop D H faults localState actions)
      (fun _ w' => w'.listening = true ↔ CleansUp faults) w := by
  refine wp_bind.2 (wp_tryFinally.2 (wp_mono ?_ (wp_leaves (leaves_loop _ _) hw)))
  intro r w₁ hw₁
  refine wp_mono ?_ (wp_cleanUp hw₁)
  rintro (e | u) w₂ hw₂
  · exact hw₂
  · cases r with
    | error e => exact hw₂
    | ok collected => exact hw₂

theorem leaves_rest (st : ApplyState) (actions : List MergeAction) :
    Does Leaves (do
      failing id (faults .syncedPaths) 0 (updateSyncedPaths localState st.deferred actions)
      failing released (faults .resolutions) 0 (forEach recordResolution st.resolutions)
      failing released (faults .recaptures) 0 (recaptureDeferred D localState st.deferred)
      pure st) (fun _ => True) := by
  refine does_then (does_failing _ _ (fun _ => rfl) (leaves_updateSyncedPaths _ _)) fun _ => ?_
  refine does_then (does_failing _ _ (fun _ => rfl)
    (does_forEach fun r _ => leaves_recordResolution r)) fun _ => ?_
  refine does_then (does_failing _ _ (fun _ => rfl) (leaves_recaptureDeferred _)) fun _ => ?_
  exact does_pure trivial

theorem wp_applyAll (actions : List MergeAction) (hw : w.listening = false) :
    wp Leaves Anything (applyAll D H faults localState actions)
      (fun _ w' => w'.listening = true ↔ CleansUp faults) w := by
  refine wp_bind.2 (wp_mono ?_ (wp_applyLoop actions hw))
  rintro (e | st) w₁ hw₁
  · exact hw₁
  · refine wp_mono ?_ (wp_leaves (leaves_rest st actions) rfl)
    intro r w₂ hw₂
    rw [hw₂]
    exact hw₁

/-- The saves are resumed whatever fails. -/
theorem wp_settleRegistry (s : Saving) (hs : s.1.listening = b) :
    wp Apart Anything (settleRegistry D faults)
      (fun _ s' => s'.1.listening = b ∧ s'.2 = false) s := by
  have hflush := wp_lift s.2
    (wp_leaves (does_failing (faults .registryFlush) 0 (fun _ => rfl) does_pause) hs)
  refine wp_bind.2 (wp_tryFinally.2 (wp_weaken (fun _ _ h => h) (fun _ _ _ => trivial)
    (wp_mono ?_ hflush)))
  rintro (e | u) s₁ ⟨hs₁, -⟩
  · exact ⟨trivial, hs₁, rfl⟩
  · have hcompact := wp_lift false
      (wp_leaves (does_failing (faults .compact) 0 (fun _ => rfl) (leaves_compact (D := D))) hs₁)
    have hrest : wp Apart Anything (lift (failing id (faults .compact) 0 (compact D)))
        (fun _ s' => s'.1.listening = b ∧ s'.2 = false) (s₁.1, false) :=
      wp_weaken (fun _ _ h => h) (fun _ _ _ => trivial) hcompact
    exact ⟨trivial, hrest⟩

theorem restored_iff_cleansUp (D : Device) (H : ConflictHandlers) (faults : Faults)
    (actions : List MergeAction) (localState : VaultState) (s : Saving) :
    wp Apart Anything (applyActions D H faults actions localState)
      (fun _ s' => Restored s' ↔ CleansUp faults) s := by
  refine ⟨trivial, trivial, ?_⟩
  refine wp_tryFinally.2 (wp_weaken (fun _ _ h => h) (fun _ _ _ => trivial)
    (wp_mono ?_ (wp_lift true (wp_applyAll actions rfl))))
  rintro r s₁ ⟨hs₁, -⟩
  refine wp_mono ?_ (wp_settleRegistry s₁ rfl)
  rintro r' s₂ ⟨hs₂, hsaves⟩
  have hend : Restored s₂ ↔ CleansUp faults :=
    ⟨fun h => hs₁.1 (hs₂.symm.trans h.1), fun h => ⟨hs₂.trans (hs₁.2 h), hsaves⟩⟩
  cases r' with
  | error e => exact hend
  | ok u => exact hend

/-- The disk is full when the last blobs are flushed. -/
def diskFull : Faults := fun call _ =>
  if call = .flush then some "ENOSPC: no space left on device" else none

def keepsAll : ConflictHandlers := ⟨fun _ => .keepModified, fun _ => .keepLocal⟩

def newNote : MergeAction := .writeLocal "f" "n.md" [104] ⟨1, 0, "b"⟩ none

def emptyVault : VaultState := ⟨"a", ⟨0, 0, "a"⟩, FileEntries.empty, [], JsMap.empty⟩

/-- The round throws, and the listener that was attached before it stays off. -/
theorem not_restored : ¬ ∀ (D : Device) (H : ConflictHandlers) (faults : Faults)
    (actions : List MergeAction) (localState : VaultState) (s : Saving),
    s.1.listening = true → wp Apart Anything (applyActions D H faults actions localState)
      (fun _ s' => Restored s') s := by
  intro h
  have hwp := h asciiDevice keepsAll diskFull [newNote] emptyVault (atRest [] empty, false) rfl
  have hrun : (run (applyActions asciiDevice keepsAll diskFull [newNote] emptyVault)
      (atRest [] empty, false)).map (·.2.1.listening) = some false := by decide +kernel
  obtain ⟨⟨r, s'⟩, hend, hoff⟩ := Option.map_eq_some_iff.1 hrun
  obtain ⟨hrestored, -⟩ := CutShort.ends_of_run (fun _ => ⟨rfl, rfl⟩) hwp hend
  cases hoff.symm.trans hrestored.1

end Restored

end OpsBlobs.ApplyRestore
