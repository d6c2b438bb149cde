import OpsBlobs.ApplySpec
import OpsBlobs.CutShort
import OpsBlobs.EventRun
import OpsBlobs.WorldEffects

namespace OpsBlobs.ApplyFaults

open Types Operations FileRegistry Coroutine World OperationLogger SyncApplicator ApplySpec
  CutShort EventRun WriteEffects WorldEffects Relation

/-- A merge version that an action makes the head of a file. -/
structure Mint where
  fileId : String
  id : String
  parents : List String
  deriving DecidableEq, Repr

/-- How far an apply has come; an error that is on its way out waits for the clean-up. -/
inductive Phase
  | looping
  | ticking
  | cleaning (error : Option String)
  | syncing
  | recording
  | recapturing
  | settling (error : Option String)
  | ended (error : Option String)
  deriving DecidableEq, Repr

/-- `unrecorded` are the resolutions whose ops are not recorded yet, `uncaptured` the deferred
files still to recapture, and `minted` all the heads set to a merge version of this run. -/
structure State where
  world : World
  todo : List MergeAction
  collected : ApplyState
  unrecorded : List PendingResolution
  uncaptured : List String
  phase : Phase
  minted : List Mint

/-- The next part runs through, or a file or metadata operation of it fails: the one awaited
after `n` others. -/
inductive Event
  | goesOn
  | fails (n : Nat)
  deriving DecidableEq, Repr

section Machine

variable (D : Device) (H : ConflictHandlers)

def mintedBy (action : MergeAction) : Option Mint :=
  match action with
  | .writeMerge fileId _ content parents =>
      some ⟨fileId, mergeVersionId D.toPlatform (D.sha256Hex content) parents, parents⟩
  | .deleteConflict fileId _ _ content parents =>
      match H.onDeleteConflict action with
      | .keepModified => some ⟨fileId,
          mergeVersionId D.toPlatform (D.sha256Hex content) (parents.getD []), parents.getD []⟩
      | _ => none
  | .binaryConflict fileId _ _ localContent remoteContent _ _ parents =>
      match H.onBinaryConflict action with
      | .deferConflict => none
      | decision =>
          let content := if decision = .keepLocal then localContent else remoteContent
          some ⟨fileId,
            mergeVersionId D.toPlatform (D.sha256Hex content) (parents.getD []), parents.getD []⟩
  | _ => none

/-- A save of a two-headed file mints the merge of its heads. -/
def recaptureMint (w : World) (path : Path) : Option Mint :=
  match w.registry.getByPath path, w.bytesAt path with
  | some entry, some content =>
      if entry.TwoHeaded then
        entry.conflictParents.map fun parents =>
          ⟨entry.id, mergeVersionId D.toPlatform (D.sha256Hex content) parents, parents⟩
      else none
  | _, _ => none

def headOf (w : World) (fileId : String) : Option String :=
  (w.registry.getById fileId).bind (·.headVersionId)

/-- The file's head became the merge version. -/
def setsHead (w w' : World) (m : Mint) : Bool :=
  headOf w' m.fileId = some m.id ∧ headOf w m.fileId ≠ some m.id

def freshMint (w w' : World) (m : Option Mint) : List Mint := m.toList.filter (setsHead w w')

def mintOf (r : PendingResolution) : Mint := ⟨r.fileId, r.id, r.parents⟩

def ioError : String := "Error: the operation failed"

/-- The queue of persists lets a failed one go. -/
def released (w : World) : World := { w with log := { w.log with oplogPersistQueue := [] } }

def cleanUp : Async Unit := do
  ContentStore.flushPack
  clearOps
  pause
  startListening

/-- A failed action defers its file; too many of them end the loop. -/
def caught (localState : VaultState) (s : State) (action : MergeAction) (rest : List MergeAction)
    (message : String) (w : World) : State :=
  let path := match localState.fileEntries.get action.fileId with
    | some entry => entry.path
    | none => action.fileId
  let collected := { s.collected with
    deferred := addOnce s.collected.deferred action.fileId
    failures := s.collected.failures ++ [⟨action.fileId, path, action, message⟩] }
  { s with
    world := w
    todo := rest
    collected := collected
    phase := if MAX_ACTION_FAILURES < collected.failures.length then .cleaning (some message)
      else .ticking
    minted := s.minted ++ freshMint s.world w (mintedBy D H action) }

/-- A part of the apply after its loop, and where the apply stands when it is through. -/
def part (part : Async Unit) (s : State) (next : World → State) : Event → Option State
  | .goesOn =>
      match run part s.world with
      | some (.ok (), w) => some (next w)
      | some (.error e, w) => some { s with world := w, phase := .settling (some e) }
      | none => none
  | .fails n =>
      (cut n part s.world).map fun w =>
        { s with world := released w, phase := .settling (some ioError) }

def step (actions : List MergeAction) (localState : VaultState) (s : State) (e : Event) :
    Option State :=
  match s.phase with
  | .looping =>
      match s.todo, e with
      | [], .goesOn => some { s with phase := .cleaning none }
      | [], .fails _ => none
      | action :: rest, .goesOn =>
          match run (applyAction D H localState action) s.world with
          | some (.ok applied, w) => some { s with
              world := w
              todo := rest
              collected := s.collected.record action.fileId applied
              phase := .ticking
              minted := s.minted ++ freshMint s.world w (mintedBy D H action) }
          | some (.error message, w) => some (caught D H localState s action rest message w)
          | none => none
      | action :: rest, .fails n =>
          (cut n (applyAction D H localState action) s.world).map
            (caught D H localState s action rest ioError)
  | .ticking =>
      match e with
      | .goesOn => some { s with phase := .looping }
      | .fails _ => some { s with phase := .cleaning (some ioError) }
  | .cleaning error =>
      part cleanUp s (fun w => { s with
        world := w
        phase := match error with
          | none => .syncing
          | some message => .settling (some message) }) e
  | .syncing =>
      part (updateSyncedPaths localState s.collected.deferred actions) s (fun w => { s with
        world := w
        phase := .recording
        unrecorded := s.collected.resolutions }) e
  | .recording =>
      match s.unrecorded with
      | [] => part (pure ()) s (fun w => { s with
          world := w
          phase := .recapturing
          uncaptured := s.collected.deferred }) e
      | r :: rest =>
          (part (recordResolution r) s (fun w => { s with world := w, unrecorded := rest }) e).map
            fun t => { t with
              minted := s.minted ++ freshMint s.world t.world (some (mintOf r)) }
  | .recapturing =>
      match s.uncaptured with
      | [] => part (pure ()) s (fun w => { s with world := w, phase := .settling none }) e
      | fileId :: rest =>
          match localState.fileEntries.get fileId with
          | none => part (pure ()) s (fun w => { s with world := w, uncaptured := rest }) e
          | some entry =>
              (part (recaptureLocalEdit D entry.path) s
                (fun w => { s with world := w, uncaptured := rest }) e).map fun t => { t with
                minted := s.minted ++
                  freshMint s.world t.world (recaptureMint D s.world entry.path) }
  | .settling error =>
      match e with
      | .goesOn =>
          match run (settleRegistry D) s.world with
          | some (_, w) => some { s with world := w, phase := .ended error }
          | none => none
      | .fails n => (cut n (settleRegistry D) s.world).map fun w =>
          { s with world := w, phase := .ended (some ioError) }
  | .ended _ => none

def started (actions : List MergeAction) (w : World) : State where
  world := { w with listening := false, debounceTimers := [] }
  todo := actions
  collected := ⟨[], [], [], []⟩
  unrecorded := []
  uncaptured := []
  phase := .looping
  minted := []

end Machine

section Actions

variable {D : Device} {H : ConflictHandlers} {localState : VaultState} {action : MergeAction}
  {w w' : World} {m : Mint}

theorem setsHead_of_fresh {minted : Option Mint} (h : m ∈ freshMint w w' minted) :
    minted = some m ∧ setsHead w w' m = true := by
  rw [freshMint, List.mem_filter] at h
  exact ⟨Option.mem_toList.1 h.1, h.2⟩

theorem not_setsHead_self : setsHead w w m = false := by
  simp [setsHead]

/-- An action that makes a merge version a head hands over the resolution that announces it. -/
theorem resolution_of_fresh {r : Except String Applied}
    (hrun : run (applyAction D H localState action) w = some (r, w'))
    (hm : m ∈ freshMint w w' (mintedBy D H action)) :
    ∃ resolution, r = .ok (.done (some resolution)) ∧ mintOf resolution = m ∧
      resolution.deleted = false := by
  obtain ⟨hminted, hsets⟩ := setsHead_of_fresh hm
  cases action with
  | writeLocal => cases hminted
  | moveLocal => cases hminted
  | deleteLocal => cases hminted
  | conflict => cases hminted
  | sendRemote => cases hminted
  | deleteRemote => cases hminted
  | noOp => cases hminted
  | writeMerge fileId path content parents =>
      obtain rfl := Option.some.inj hminted
      cases hd : Drifted D localState w fileId (currentPath localState fileId path) with
      | true =>
          cases hrun.symm.trans (run_writeMerge_drifted D H localState w _ _ _ _ hd)
          cases not_setsHead_self.symm.trans hsets
      | false =>
          simp [applyAction, writeMerge, hd] at hrun
          exact ⟨_, hrun.1.symm, rfl, rfl⟩
  | deleteConflict fileId path side content parents =>
      cases hdec : H.onDeleteConflict (.deleteConflict fileId path side content parents) with
      | deferConflict => simp [mintedBy, hdec] at hminted
      | keepDeleted => simp [mintedBy, hdec] at hminted
      | keepModified =>
          simp only [mintedBy, hdec, Option.some.injEq] at hminted
          simp [applyAction, settleDelete, hdec, mintMergeResolution] at hrun
          exact ⟨_, hrun.1.symm, hminted, rfl⟩
  | binaryConflict fileId localPath remotePath localContent remoteContent localHlc remoteHlc
      parents =>
      cases hdec : H.onBinaryConflict (.binaryConflict fileId localPath remotePath localContent
          remoteContent localHlc remoteHlc parents) with
      | deferConflict => simp [mintedBy, hdec] at hminted
      | keepLocal =>
          simp [mintedBy, hdec] at hminted
          simp [applyAction, settleBinary, hdec, mintMergeResolution] at hrun
          exact ⟨_, hrun.1.symm, hminted, rfl⟩
      | keepRemote =>
          simp [mintedBy, hdec] at hminted
          simp [applyAction, settleBinary, hdec, mintMergeResolution] at hrun
          exact ⟨_, hrun.1.symm, hminted, rfl⟩

end Actions

section Ops

variable {w w' : World} {m : Mint} {op : Operation}

/-- The op that tells the peers of a merge head, as a live file's or as a tombstone's. -/
def Announces (m : Mint) (op : Operation) : Prop :=
  ∃ path hash hlc, op = Ops.merge m.fileId path hash hlc m.parents m.id ∨
    op = Ops.mergeDelete m.fileId path hash hlc m.parents m.id

def Pending (w : World) (m : Mint) : Prop := ∃ op ∈ w.log.pendingOps, Announces m op

def Grows (w w' : World) : Prop := w.log.pendingOps ⊆ w'.log.pendingOps

theorem pending_of_grows (hw : Grows w w') (h : Pending w m) : Pending w' m := by
  obtain ⟨op, hop, hann⟩ := h
  exact ⟨op, hw hop, hann⟩

theorem grows_of_steps (h : ReflTransGen Grows w w') : Grows w w' := by
  induction h with
  | refl => exact fun _ h => h
  | tail _ hlast ih => exact List.Subset.trans ih hlast

theorem grows_same (h : w'.log.pendingOps = w.log.pendingOps) : Grows w w' :=
  fun _ hop => h ▸ hop

/-- Persisting the log leaves its ops and the registry alone. -/
def LogsOnly (w w' : World) : Prop :=
  w'.log.pendingOps = w.log.pendingOps ∧ w'.registry = w.registry

theorem does_append : Does LogsOnly appendOpLog (fun _ => True) := by
  refine does_weaken ?_ does_appendOpLog
  rintro w _ ⟨log, rfl, hops, -⟩
  exact ⟨hops, rfl⟩

theorem does_persist : Does Grows appendOpLog (fun _ => True) :=
  does_weaken (fun _ _ h => grows_same h.1) does_append

theorem grows_push : Grows w { w with log := OpLog.push op w.log } :=
  List.subset_append_left _ _

theorem does_recordOp (op : Operation) : Does Grows (recordOp op) (fun _ => True) :=
  does_then (does_modify fun _ => grows_push) fun _ => does_persist

theorem does_registry {f : FileRegistry → FileRegistry} :
    Does Grows (updateRegistry f) (fun _ => True) := does_updateRegistry fun _ => grows_same rfl

theorem does_handleCreate (D : Device) (path : Path) :
    Does Grows (handleCreate D path) (fun _ => True) := by
  rw [handleCreate]
  split
  · exact does_pure trivial
  · refine does_then (does_hlcNow fun _ _ _ => grows_same rfl) fun hlcTs => ?_
    refine does_then (does_read path) fun bytes => ?_
    split
    · exact does_pure trivial
    · split
      · exact does_pure trivial
      · refine does_then (does_hashContent D _) fun hash => ?_
        refine does_then (does_then (does_modifyGet fun _ => grows_same rfl) fun _ =>
          does_then does_pause fun _ => does_pure trivial) fun id => ?_
        refine does_then (does_put fun _ => grows_same rfl) fun _ => ?_
        exact does_then (does_recordOp _) fun _ => does_registry

theorem does_settleRegistry (D : Device) : Does Grows (settleRegistry D) (fun _ => True) :=
  does_then does_pause fun _ => does_then does_get fun _ => does_registry

/-- Recording a resolution puts its op into the log before anything can fail. -/
theorem steps_recordResolution (r : PendingResolution) :
    ∃ op next, recordResolution r = (pushOp op >>= fun _ => next) ∧ Announces (mintOf r) op ∧
      Does Grows next (fun _ => True) := by
  rw [recordResolution]
  split
  · exact ⟨_, _, rfl, ⟨_, _, _, Or.inr rfl⟩, does_then does_persist fun _ => does_registry⟩
  · exact ⟨_, _, rfl, ⟨_, _, _, Or.inl rfl⟩, does_then does_persist fun _ => does_registry⟩

theorem returns_appendOpLog : Returns appendOpLog := by
  refine fun _ => returns_tryFinally (returns_bind (fun _ => trivial) fun w => ?_) fun _ => trivial
  dsimp only
  split
  · trivial
  · exact fun _ _ _ => trivial

theorem returns_settleRegistry (D : Device) : Returns (settleRegistry D) := fun _ _ => trivial

theorem returns_cleanUp : Returns cleanUp := fun _ _ _ _ _ _ _ _ => trivial

theorem returns_recordResolution (r : PendingResolution) : Returns (recordResolution r) := by
  rw [recordResolution]
  split
  · exact returns_bind (fun _ => returns_appendOpLog) fun _ _ => trivial
  · exact returns_bind (fun _ => returns_appendOpLog) fun _ _ => trivial

theorem returns_updateSyncedPaths (localState : VaultState) (deferred : List String)
    (actions : List MergeAction) : Returns (updateSyncedPaths localState deferred actions) := by
  refine returns_forEach fun action _ => ?_
  split
  · trivial
  · split
    · trivial
    · split
      · trivial
      · split
        · exact fun _ => trivial
        · split
          · exact fun _ => trivial
          · trivial
        · trivial

end Ops

section Recapture

variable {D : Device} {w w' : World} {path : Path} {entry : FileEntry} {content : Bytes}
  {parents : List String} {m : Mint} {minted : Option Mint}

/-- Ops are only added, and whoever makes the minted version a head has its op pending. -/
def Heeds (minted : Option Mint) (w w' : World) : Prop :=
  Grows w w' ∧ ∀ m, minted = some m → headOf w' m.fileId = some m.id →
    headOf w m.fileId = some m.id ∨ Pending w' m

theorem heeds_of_steps (h : ReflTransGen (Heeds minted) w w') : Heeds minted w w' := by
  induction h with
  | refl => exact ⟨fun _ h => h, fun _ _ h => Or.inl h⟩
  | tail _ hlast ih =>
      refine ⟨List.Subset.trans ih.1 hlast.1, fun m hm hhead => ?_⟩
      rcases hlast.2 m hm hhead with h | h
      · exact (ih.2 m hm h).imp_right (pending_of_grows hlast.1)
      · exact Or.inr h

theorem heeds_none (h : Grows w w') : Heeds none w w' := ⟨h, nofun⟩

theorem heeds_heads (h : Grows w w') (hheads : ∀ id, headOf w' id = headOf w id) :
    Heeds minted w w' := ⟨h, fun m _ hhead => Or.inl (hheads m.fileId ▸ hhead)⟩

theorem heeds_pending (h : Grows w w') (hp : Pending w m) : Heeds (some m) w w' :=
  ⟨h, fun _ hm _ => Or.inr (Option.some.inj hm ▸ pending_of_grows h hp)⟩

theorem getById_updateContentHash (h : w.registry.getByPath path = some entry) (hash : String)
    (hlc : Hlc) : (w.registry.updateContentHash path hash hlc none).getById entry.id =
      some { entry with contentHash := hash, hlcTimestamp := hlc } := by
  obtain ⟨id, hid, he⟩ := Option.bind_eq_some_iff.1 h
  obtain rfl := FileEntries.get_id he
  rw [updateContentHash, changeAt, hid, getById, get_change, if_pos rfl, he]
  rfl

theorem headOf_updateContentHash (path : Path) (hash : String) (hlc : Hlc) (id : String) :
    headOf { w with registry := w.registry.updateContentHash path hash hlc none } id =
      headOf w id := by
  unfold headOf updateContentHash changeAt
  dsimp only
  split
  · rfl
  · rw [getById, get_change]
    split
    · rw [getById]
      cases w.registry.entries.get id <;> rfl
    · rfl

theorem heeds_weaken (h : LogsOnly w w') : Heeds minted w w' :=
  heeds_heads (grows_same h.1) fun id => by rw [headOf, headOf, h.2]

/-- The op is in the log by the time it is persisted. -/
theorem wp_recordOp {Q : Except String Unit → World → Prop} {k : Unit → Async Unit} {op : Operation}
    (hann : Announces m op)
    (hk : ∀ w', Pending w' m → wp Eq (Heeds (some m)) (k ()) Q w')
    (hthrow : ∀ e w', Q (.error e) w') : wp Eq (Heeds (some m)) (recordOp op >>= k) Q w := by
  have hpush : Pending { w with log := OpLog.push op w.log } m :=
    ⟨op, List.mem_append_right _ (List.mem_singleton_self _), hann⟩
  have hkeep : ∀ w₁ w₂, LogsOnly w₁ w₂ → Pending w₁ m → Pending w₂ m :=
    fun w₁ w₂ h => pending_of_grows (grows_same h.1)
  refine wp_bind.2 ⟨heeds_heads grows_push fun _ => rfl, ?_⟩
  have happend := wp_invariant (fun _ _ h hI => h ▸ hI) hkeep
    (wp_of_does Eq does_append { w with log := OpLog.push op w.log }) hpush
  refine wp_weaken (fun _ _ h => h) (fun _ _ => heeds_weaken) (wp_mono ?_ happend)
  rintro (e | u) w' ⟨-, hw'⟩
  · exact hthrow e w'
  · exact hk w' hw'

/-- A file that was saved without its markers has the merge op pending before the merge
becomes its head. -/
theorem wp_resolveTwoHeaded (h : w.registry.getByPath path = some entry)
    (hp : entry.conflictParents = some parents) (hash : String) :
    wp Eq (Heeds (some ⟨entry.id, mergeVersionId D.toPlatform hash parents, parents⟩))
      (resolveTwoHeaded D path entry content hash) (fun _ _ => True) w := by
  refine wp_hlcNow.2 ⟨heeds_heads (grows_same rfl) fun _ => rfl, ?_⟩
  refine wp_put.2 ⟨heeds_heads (grows_same rfl) fun _ => rfl, ?_⟩
  rintro _ rfl
  refine wp_updateRegistry.2 ⟨heeds_heads (grows_same rfl) fun _ =>
    headOf_updateContentHash _ _ _ _, ?_⟩
  rintro _ rfl
  split
  · trivial
  · rw [wp_current]
    dsimp only
    rw [getById_updateContentHash h]
    dsimp only [Option.getD_some]
    rw [hp]
    dsimp only
    refine wp_pause.2 ?_
    rintro _ rfl
    refine wp_recordOp ⟨_, _, _, Or.inl rfl⟩ (fun w₁ hw₁ => ?_) fun _ _ => trivial
    refine wp_updateRegistry.2 ⟨heeds_pending (grows_same rfl) hw₁, ?_⟩
    rintro _ rfl
    exact ⟨heeds_pending (grows_same rfl) hw₁, fun _ _ _ => trivial⟩

theorem recaptureMint_none (h : w.registry.getByPath path = none) :
    recaptureMint D w path = none := by
  rw [recaptureMint, h]

theorem recaptureMint_some (h : w.registry.getByPath path = some entry)
    (hc : w.bytesAt path = some content) : recaptureMint D w path =
      if entry.TwoHeaded then
        entry.conflictParents.map fun parents =>
          ⟨entry.id, mergeVersionId D.toPlatform (D.sha256Hex content) parents, parents⟩
      else none := by
  rw [recaptureMint, h, hc]

theorem wp_of_grows {t : Async Unit} (h : Does Grows t (fun _ => True)) :
    wp Eq (Heeds none) t (fun _ _ => True) w :=
  wp_mono (fun _ _ _ => trivial) (wp_of_does Eq (does_weaken (fun _ _ => heeds_none) h) w)

theorem wp_flushModify (D : Device) (w : World) (path : Path) :
    wp Eq (Heeds (recaptureMint D w path)) (flushModify D path) (fun _ _ => True) w := by
  refine wp_getByPath.2 ?_
  cases hentry : w.registry.getByPath path with
  | none =>
      rw [recaptureMint_none hentry]
      exact wp_of_grows (does_handleCreate D path)
  | some entry =>
      refine wp_read.2 ?_
      rintro _ rfl _ rfl
      cases hcontent : w.bytesAt path with
      | none => trivial
      | some content =>
          dsimp only
          split
          · trivial
          · refine wp_hashContent.2 ?_
            rintro _ rfl
            rw [wp_current, show w.registry.getById entry.id = some entry from
              (path_of_getByPath hentry).2, Option.getD_some]
            split
            · trivial
            · rw [recaptureMint_some hentry hcontent]
              split
              · rename_i htwo
                obtain ⟨parents, hp, -⟩ := htwo
                rw [hp]
                exact wp_resolveTwoHeaded hentry hp _
              · refine wp_of_grows (does_then (does_hlcNow fun _ _ _ => grows_same rfl) fun _ => ?_)
                refine does_then (does_put fun _ => grows_same rfl) fun _ => ?_
                refine does_then does_registry fun _ => ?_
                exact does_then (does_recordOp _) fun _ => does_registry

end Recapture

section Unfailing

variable {D : Device} {H : ConflictHandlers} {actions : List MergeAction} {localState : VaultState}
  {s t u : State} {w w' : World}

/-- The machine gets there without a failure. -/
def Reaches (D : Device) (H : ConflictHandlers) (actions : List MergeAction)
    (localState : VaultState) (s t : State) : Prop :=
  ∃ n, EventRun.run (step D H actions localState) s (List.replicate n .goesOn) = some t

theorem reaches_refl : Reaches D H actions localState s s := ⟨0, rfl⟩

theorem reaches_step (hstep : step D H actions localState s .goesOn = some t)
    (h : Reaches D H actions localState t u) : Reaches D H actions localState s u := by
  obtain ⟨n, hn⟩ := h
  exact ⟨n + 1, run_cons.2 ⟨t, hstep, hn⟩⟩

theorem reaches_trans (h : Reaches D H actions localState s t)
    (h' : Reaches D H actions localState t u) : Reaches D H actions localState s u := by
  obtain ⟨n, hn⟩ := h
  obtain ⟨m, hm⟩ := h'
  refine ⟨n + m, ?_⟩
  rw [List.replicate_add]
  exact run_append.2 ⟨t, hn, hm⟩

/-- Where the loop hands over to the clean-up. -/
def LoopEnds (r : Except String ApplyState) (t : State) : Prop :=
  match r with
  | .ok collected => t.phase = .cleaning none ∧ t.collected = collected
  | .error message => t.phase = .cleaning (some message)

theorem reaches_loop {r : Except String ApplyState} (hphase : s.phase = .looping)
    (hrun : run (foldM (applyIsolated D H localState) s.collected s.todo) s.world = some (r, w)) :
    ∃ t, Reaches D H actions localState s t ∧ t.world = w ∧ LoopEnds r t := by
  generalize htodo : s.todo = todo at hrun
  induction todo generalizing s with
  | nil =>
      cases hrun
      have hstep : step D H actions localState s .goesOn =
          some { s with phase := .cleaning none } := by
        simp only [step, hphase, htodo]
      exact ⟨_, reaches_step hstep reaches_refl, rfl, rfl, rfl⟩
  | cons action rest ih =>
      simp only [run_foldM_cons, applyIsolated, run_bind, run_tryCatch] at hrun
      cases happ : run (applyAction D H localState action) s.world with
      | none => simp [happ] at hrun
      | some res =>
          obtain ⟨res, w₁⟩ := res
          cases res with
          | ok applied =>
              simp only [happ, Option.bind_some, resume_ok, run_pure, run_pause] at hrun
              obtain ⟨t, hreach, ht⟩ := ih (s := { s with
                world := w₁
                todo := rest
                collected := s.collected.record action.fileId applied
                phase := .looping
                minted := s.minted ++ freshMint s.world w₁ (mintedBy D H action) }) rfl rfl hrun
              have hstep : step D H actions localState s .goesOn = some { s with
                  world := w₁
                  todo := rest
                  collected := s.collected.record action.fileId applied
                  phase := .ticking
                  minted := s.minted ++ freshMint s.world w₁ (mintedBy D H action) } := by
                simp only [step, hphase, htodo, happ]
              exact ⟨t, reaches_step hstep (reaches_step rfl hreach), ht⟩
          | error message =>
              simp only [happ, Option.bind_some, resume_error, run_ite, run_throw, run_pure] at hrun
              have hstep : step D H actions localState s .goesOn =
                  some (caught D H localState s action rest message w₁) := by
                simp only [step, hphase, htodo, happ]
              by_cases hmany : MAX_ACTION_FAILURES < s.collected.failures.length + 1
              · simp only [List.length_append, List.length_singleton, hmany, if_true,
                  Option.bind_some, resume_error] at hrun
                cases hrun
                exact ⟨_, reaches_step hstep reaches_refl, rfl, by simp [LoopEnds, caught, hmany]⟩
              · simp only [List.length_append, List.length_singleton, hmany, if_false,
                  Option.bind_some, resume_ok, run_pause] at hrun
                obtain ⟨t, hreach, ht⟩ := ih (s := { caught D H localState s action rest message w₁
                  with phase := .looping }) rfl rfl hrun
                refine ⟨t, reaches_step hstep (reaches_step ?_ hreach), ht⟩
                simp [step, caught, hmany]

def errorOf {α : Type} : Except String α → Option String
  | .ok _ => none
  | .error message => some message

theorem reaches_recording (hphase : s.phase = .recording)
    (hrun : run (forEach recordResolution s.unrecorded) s.world = some (.ok (), w)) :
    ∃ t, Reaches D H actions localState s t ∧ t.world = w ∧ t.phase = .recapturing ∧
      t.uncaptured = s.collected.deferred ∧ t.collected = s.collected := by
  generalize hunrecorded : s.unrecorded = unrecorded at hrun
  induction unrecorded generalizing s with
  | nil =>
      cases hrun
      have hstep : step D H actions localState s .goesOn =
          some { s with phase := .recapturing, uncaptured := s.collected.deferred } := by
        simp only [step, hphase, hunrecorded]
        rfl
      exact ⟨_, reaches_step hstep reaches_refl, rfl, rfl, rfl, rfl⟩
  | cons resolution rest ih =>
      obtain ⟨_, w₁, hrecord, hrest⟩ :=
        run_bind_of_returns (returns_recordResolution resolution) hrun
      have hstep : step D H actions localState s .goesOn = some { s with
          world := w₁
          unrecorded := rest
          minted := s.minted ++ freshMint s.world w₁ (some (mintOf resolution)) } := by
        simp only [step, hphase, hunrecorded, part, hrecord, Option.map_some]
      obtain ⟨t, hreach, ht⟩ := ih (s := { s with
          world := w₁
          unrecorded := rest
          minted := s.minted ++ freshMint s.world w₁ (some (mintOf resolution)) }) hphase rfl hrest
      exact ⟨t, reaches_step hstep hreach, ht⟩

theorem reaches_recapturing {r : Except String Unit} (hphase : s.phase = .recapturing)
    (hrun : run (recaptureDeferred D localState s.uncaptured) s.world = some (r, w)) :
    ∃ t, Reaches D H actions localState s t ∧ t.world = w ∧ t.phase = .settling (errorOf r) ∧
      t.collected = s.collected := by
  generalize huncaptured : s.uncaptured = uncaptured at hrun
  induction uncaptured generalizing s with
  | nil =>
      cases hrun
      have hstep : step D H actions localState s .goesOn =
          some { s with phase := .settling none } := by
        simp only [step, hphase, huncaptured]
        rfl
      exact ⟨_, reaches_step hstep reaches_refl, rfl, rfl, rfl⟩
  | cons fileId rest ih =>
      rw [recaptureDeferred, run_forEach_cons] at hrun
      obtain ⟨⟨res, w₁⟩, hfirst, hrest⟩ := Option.bind_eq_some_iff.1 hrun
      cases hentry : localState.fileEntries.get fileId with
      | none =>
          rw [hentry] at hfirst
          cases hfirst
          have hstep : step D H actions localState s .goesOn =
              some { s with uncaptured := rest } := by
            simp only [step, hphase, huncaptured, hentry]
            rw [part, run_pure]
          obtain ⟨t, hreach, ht⟩ := ih (s := { s with uncaptured := rest }) hphase rfl hrest
          exact ⟨t, reaches_step hstep hreach, ht⟩
      | some entry =>
          rw [hentry] at hfirst
          cases res with
          | error message =>
              cases hrest
              have hstep : step D H actions localState s .goesOn = some { s with
                  world := w
                  phase := .settling (some message)
                  minted := s.minted ++
                    freshMint s.world w (recaptureMint D s.world entry.path) } := by
                simp only [step, hphase, huncaptured, hentry, part, hfirst, Option.map_some]
              exact ⟨_, reaches_step hstep reaches_refl, rfl, rfl, rfl⟩
          | ok u =>
              have hstep : step D H actions localState s .goesOn = some { s with
                  world := w₁
                  uncaptured := rest
                  minted := s.minted ++
                    freshMint s.world w₁ (recaptureMint D s.world entry.path) } := by
                simp only [step, hphase, huncaptured, hentry, part, hfirst, Option.map_some]
              obtain ⟨t, hreach, ht⟩ := ih (s := { s with
                  world := w₁
                  uncaptured := rest
                  minted := s.minted ++
                    freshMint s.world w₁ (recaptureMint D s.world entry.path) }) hphase rfl hrest
              exact ⟨t, reaches_step hstep hreach, ht⟩

theorem reaches_settled {error : Option String} (hphase : s.phase = .settling error)
    (hrun : run (settleRegistry D) s.world = some (.ok (), w)) :
    Reaches D H actions localState s { s with world := w, phase := .ended error } := by
  refine reaches_step ?_ reaches_refl
  simp only [step, hphase, hrun]

/-- An apply in which nothing fails is a run of the machine. -/
theorem reaches_applyActions {r : Except String ApplyState}
    (hrun : run (applyActions D H actions localState) w = some (r, w')) :
    ∃ t, Reaches D H actions localState (started actions w) t ∧ t.world = w' ∧
      t.phase = .ended (errorOf r) ∧ ∀ st, r = .ok st → t.collected = st := by
  obtain ⟨w₁, hbody, hsettle⟩ := run_tryFinally_of_returns (returns_settleRegistry D) hrun
  rcases run_bind_cases hbody with ⟨message, hloop, rfl⟩ | ⟨st, w₂, hloop, hrest⟩
  · obtain ⟨w₃, hfold, hclean⟩ := run_tryFinally_of_returns returns_cleanUp hloop
    obtain ⟨s₁, hreach, rfl, hphase⟩ := reaches_loop (s := started actions w) rfl hfold
    have hstep : step D H actions localState s₁ .goesOn =
        some { s₁ with world := w₁, phase := .settling (some message) } := by
      simp only [step, show s₁.phase = .cleaning (some message) from hphase, part]
      rw [show run cleanUp s₁.world = _ from hclean]
    refine ⟨_, reaches_trans hreach (reaches_step hstep (reaches_settled rfl hsettle)), rfl, rfl,
      ?_⟩
    exact fun _ h => by cases h
  · obtain ⟨w₃, hfold, hclean⟩ := run_tryFinally_of_returns returns_cleanUp hloop
    obtain ⟨s₁, hreach, rfl, hphase, rfl⟩ := reaches_loop (s := started actions w) rfl hfold
    obtain ⟨_, w₄, hsync, hrest⟩ := run_bind_of_returns (returns_updateSyncedPaths _ _ _) hrest
    obtain ⟨_, w₅, hrecord, hrest⟩ :=
      run_bind_of_returns (returns_forEach fun r _ => returns_recordResolution r) hrest
    have hclean : step D H actions localState s₁ .goesOn =
        some { s₁ with world := w₂, phase := .syncing } := by
      simp only [step, hphase, part]
      rw [show run cleanUp s₁.world = _ from hclean]
    have hsync : step D H actions localState { s₁ with world := w₂, phase := .syncing } .goesOn =
        some { s₁ with
          world := w₄, phase := .recording, unrecorded := s₁.collected.resolutions } := by
      simp only [step, part, hsync]
    obtain ⟨s₂, hreach₂, rfl, hphase₂, hleft, hcollected⟩ := reaches_recording (s := { s₁ with
      world := w₄, phase := .recording, unrecorded := s₁.collected.resolutions }) rfl hrecord
    have hreach₂ := reaches_trans hreach (reaches_step hclean (reaches_step hsync hreach₂))
    have hbefore : ∀ r₁ w₆,
        run (recaptureDeferred D localState s₁.collected.deferred) s₂.world = some (r₁, w₆) →
        run (settleRegistry D) w₆ = some (.ok (), w') →
        ∃ t, Reaches D H actions localState (started actions w) t ∧ t.world = w' ∧
          t.phase = .ended (errorOf r₁) ∧ t.collected = s₁.collected := by
      intro r₁ w₆ hrecapture hsettle
      obtain ⟨s₃, hreach₃, rfl, hphase₃, hcollected₃⟩ :=
        reaches_recapturing hphase₂ (hleft ▸ hrecapture)
      exact ⟨_, reaches_trans hreach₂ (reaches_trans hreach₃ (reaches_settled hphase₃ hsettle)),
        rfl, rfl, hcollected₃.trans hcollected⟩
    rcases run_bind_cases hrest with ⟨message, hrecapture, rfl⟩ | ⟨_, w₆, hrecapture, hend⟩
    · obtain ⟨t, hreach₃, hw, hphase₃, -⟩ := hbefore _ _ hrecapture hsettle
      exact ⟨t, hreach₃, hw, hphase₃, fun _ h => by cases h⟩
    · cases hend
      obtain ⟨t, hreach₃, hw, hphase₃, hcollected₃⟩ := hbefore _ _ hrecapture hsettle
      exact ⟨t, hreach₃, hw, hphase₃, fun _ h => hcollected₃.trans (Except.ok.inj h)⟩

end Unfailing

section Announced

variable {D : Device} {H : ConflictHandlers} {actions : List MergeAction} {localState : VaultState}

/-- No head is a merge version of this run without its op being pending. -/
def Announced (s : State) : Prop :=
  ∀ m ∈ s.minted, headOf s.world m.fileId = some m.id → Pending s.world m

/-- The failure leaves every head that was set to a merge version a way to its op. -/
def Harmless (D : Device) (H : ConflictHandlers) (localState : VaultState) (s : State)
    (e : Event) : Prop :=
  match s.phase, s.todo, e with
  | .looping, action :: _, .fails n =>
      (∀ w, cut n (applyAction D H localState action) s.world = some w →
        freshMint s.world w (mintedBy D H action) = []) ∧
      (s.minted = [] ∨ s.collected.failures.length < MAX_ACTION_FAILURES)
  | .looping, action :: _, .goesOn =>
      (∀ message w, run (applyAction D H localState action) s.world = some (.error message, w) →
        s.minted = [] ∨ s.collected.failures.length < MAX_ACTION_FAILURES)
  | .ticking, _, .fails _ | .cleaning _, _, .fails _ | .syncing, _, .fails _ => s.minted = []
  | .recording, _, .fails _ => ∀ r ∈ s.unrecorded.tail, r.deleted = true
  | _, _, _ => True

def Resolves (resolutions : List PendingResolution) (m : Mint) : Prop :=
  ∃ r ∈ resolutions, mintOf r = m ∧ r.deleted = false

/-- Until its op is recorded a minted head has a resolution. -/
def Covered (s : State) : Prop :=
  match s.phase with
  | .looping | .ticking | .cleaning none | .syncing =>
      ∀ m ∈ s.minted, Resolves s.collected.resolutions m
  | .cleaning (some _) => s.minted = []
  | .recording => ∀ m ∈ s.minted, Resolves s.unrecorded m ∨ Pending s.world m
  | .recapturing | .settling _ | .ended _ => ∀ m ∈ s.minted, Pending s.world m

theorem covered_started (w : World) : Covered (started actions w) := fun _ hm => by cases hm

/-- What a part after the loop can come to. -/
theorem part_cases {t : Async Unit} {s s' : State} {next : World → State} {e : Event}
    (h : part t s next e = some s') :
    (∃ w, e = .goesOn ∧ run t s.world = some (.ok (), w) ∧ s' = next w) ∨
    (∃ w error, e = .goesOn ∧ run t s.world = some (.error error, w) ∧
      s' = { s with world := w, phase := .settling (some error) }) ∨
    (∃ w n, e = .fails n ∧ cut n t s.world = some w ∧
      s' = { s with world := released w, phase := .settling (some ioError) }) := by
  cases e with
  | goesOn =>
      rw [part] at h
      split at h
      · exact Or.inl ⟨_, rfl, ‹_›, (Option.some.inj h).symm⟩
      · exact Or.inr (Or.inl ⟨_, _, rfl, ‹_›, (Option.some.inj h).symm⟩)
      · cases h
  | fails n =>
      obtain ⟨w, hw, rfl⟩ := Option.map_eq_some_iff.1 h
      exact Or.inr (Or.inr ⟨w, n, rfl, hw, rfl⟩)

theorem resolves_append {resolutions more : List PendingResolution} {m : Mint}
    (h : Resolves resolutions m) : Resolves (resolutions ++ more) m := by
  obtain ⟨r, hr, hm⟩ := h
  exact ⟨r, List.mem_append_left _ hr, hm⟩

theorem resolutions_record (st : ApplyState) (fileId : String) (applied : Applied) :
    ∃ more, (st.record fileId applied).resolutions = st.resolutions ++ more ∧
      ∀ r, applied = .done (some r) → r ∈ more := by
  cases applied with
  | done resolution => exact ⟨_, rfl, fun r h => Option.mem_toList.2 (Applied.done.inj h)⟩
  | deferred => exact ⟨[], (List.append_nil _).symm, nofun⟩
  | deferredConflict => exact ⟨[], (List.append_nil _).symm, nofun⟩

/-- An action that fails before it makes a merge version a head. -/
theorem covered_caught {s : State} {action : MergeAction} {rest : List MergeAction}
    {message : String} {w : World} (hs : ∀ m ∈ s.minted, Resolves s.collected.resolutions m)
    (hfresh : freshMint s.world w (mintedBy D H action) = [])
    (hroom : s.minted = [] ∨ s.collected.failures.length < MAX_ACTION_FAILURES) :
    Covered (caught D H localState s action rest message w) := by
  have hminted : (caught D H localState s action rest message w).minted = s.minted := by
    rw [caught, hfresh, List.append_nil]
  by_cases hmany : MAX_ACTION_FAILURES < s.collected.failures.length + 1
  · have hphase : (caught D H localState s action rest message w).phase =
        .cleaning (some message) := by
      simp [caught, hmany]
    have hnil : s.minted = [] := hroom.resolve_right (by omega)
    rw [Covered, hphase, hminted]
    exact hnil
  · have hphase : (caught D H localState s action rest message w).phase = .ticking := by
      simp [caught, hmany]
    rw [Covered, hphase, hminted]
    exact hs

variable {s t : State} {e : Event}

theorem covered_looping (hphase : s.phase = .looping) (hs : Covered s)
    (he : Harmless D H localState s e) (hstep : step D H actions localState s e = some t) :
    Covered t := by
  have hminted : ∀ m ∈ s.minted, Resolves s.collected.resolutions m := by
    rwa [Covered, hphase] at hs
  cases htodo : s.todo with
  | nil =>
      cases e with
      | fails n => simp [step, hphase, htodo] at hstep
      | goesOn =>
          simp only [step, hphase, htodo, Option.some.injEq] at hstep
          exact hstep ▸ hminted
  | cons action rest =>
      cases e with
      | fails n =>
          simp only [Harmless, hphase, htodo] at he
          simp only [step, hphase, htodo] at hstep
          obtain ⟨w, hcut, rfl⟩ := Option.map_eq_some_iff.1 hstep
          exact covered_caught hminted (he.1 w hcut) he.2
      | goesOn =>
          simp only [Harmless, hphase, htodo] at he
          simp only [step, hphase, htodo] at hstep
          split at hstep
          · rename_i applied w hrun
            obtain rfl := Option.some.inj hstep
            obtain ⟨more, hmore, hres⟩ := resolutions_record s.collected action.fileId applied
            intro m hm
            rw [hmore]
            rcases List.mem_append.1 hm with hm | hm
            · exact resolves_append (hminted m hm)
            · obtain ⟨r, hr, hmint⟩ := resolution_of_fresh hrun hm
              exact ⟨r, List.mem_append_right _ (hres r (Except.ok.inj hr)), hmint⟩
          · rename_i message w hrun
            obtain rfl := Option.some.inj hstep
            refine covered_caught hminted ?_ (he message w hrun)
            refine List.eq_nil_iff_forall_not_mem.2 fun m hm => ?_
            obtain ⟨r, hr, -⟩ := resolution_of_fresh hrun hm
            cases hr
          · cases hstep

theorem recorded_of_steps {r : PendingResolution} {op : Operation} {w w' : World}
    (hann : Announces (mintOf r) op)
    (h : ReflTransGen Grows { w with log := OpLog.push op w.log } w') :
    Grows w w' ∧ Pending w' (mintOf r) := by
  have hpush : Pending { w with log := OpLog.push op w.log } (mintOf r) :=
    ⟨op, List.mem_append_right _ (List.mem_singleton_self _), hann⟩
  exact ⟨List.Subset.trans grows_push (grows_of_steps h), pending_of_grows (grows_of_steps h) hpush⟩

theorem recorded_of_run {r : PendingResolution} {res : Except String Unit} {w w' : World}
    (hrun : run (recordResolution r) w = some (res, w')) :
    Grows w w' ∧ Pending w' (mintOf r) := by
  obtain ⟨op, next, heq, hann, hdoes⟩ := steps_recordResolution r
  rw [heq] at hrun
  exact recorded_of_steps hann (run_of_does hdoes hrun)

theorem recorded_of_cut {r : PendingResolution} {n : Nat} {w w' : World}
    (hcut : cut n (recordResolution r) w = some w') : Grows w w' ∧ Pending w' (mintOf r) := by
  obtain ⟨op, next, heq, hann, hdoes⟩ := steps_recordResolution r
  rw [heq] at hcut
  exact recorded_of_steps hann (cut_of_does hdoes hcut)

theorem pending_of_fresh {r : PendingResolution} {w w' : World} {m : Mint}
    (h : Pending w' (mintOf r)) (hm : m ∈ freshMint w w' (some (mintOf r))) : Pending w' m := by
  obtain ⟨hmint, -⟩ := setsHead_of_fresh hm
  exact Option.some.inj hmint ▸ h

theorem covered_recording (hphase : s.phase = .recording) (hs : Covered s)
    (he : Harmless D H localState s e) (hstep : step D H actions localState s e = some t) :
    Covered t := by
  have hminted : ∀ m ∈ s.minted, Resolves s.unrecorded m ∨ Pending s.world m := by
    rwa [Covered, hphase] at hs
  simp only [step, hphase] at hstep
  split at hstep
  · rename_i hnil
    have hall : ∀ m ∈ s.minted, Pending s.world m := fun m hm =>
      (hminted m hm).resolve_left (by rintro ⟨r, hr, -⟩; rw [hnil] at hr; cases hr)
    rcases part_cases hstep with ⟨w, -, hrun, rfl⟩ | ⟨w, error, -, hrun, -⟩ | ⟨w, n, -, hcut, -⟩
    · cases hrun
      exact hall
    · cases hrun
    · cases hcut
  · rename_i r rest hunrecorded
    obtain ⟨s', hs', rfl⟩ := Option.map_eq_some_iff.1 hstep
    rcases part_cases hs' with ⟨w, -, hrun, rfl⟩ | ⟨w, error, -, hrun, -⟩ | ⟨w, n, rfl, hcut, rfl⟩
    · obtain ⟨hgrows, hpending⟩ := recorded_of_run hrun
      have hold : ∀ m ∈ s.minted, Resolves rest m ∨ Pending w m := by
        intro m hm
        rcases hminted m hm with ⟨r', hr', hm', hlive⟩ | h
        · rw [hunrecorded] at hr'
          rcases List.mem_cons.1 hr' with rfl | hr'
          · exact Or.inr (hm' ▸ hpending)
          · exact Or.inl ⟨r', hr', hm', hlive⟩
        · exact Or.inr (pending_of_grows hgrows h)
      intro m hm
      rcases List.mem_append.1 hm with hm | hm
      · exact hold m hm
      · exact Or.inr (pending_of_fresh hpending hm)
    · exact (not_error_of_returns (returns_recordResolution r) hrun).elim
    · obtain ⟨hgrows, hpending⟩ := recorded_of_cut hcut
      simp only [Harmless, hphase, hunrecorded, List.tail_cons] at he
      have hold : ∀ m ∈ s.minted, Pending w m := by
        intro m hm
        rcases hminted m hm with ⟨r', hr', hm', hlive⟩ | h
        · rw [hunrecorded] at hr'
          rcases List.mem_cons.1 hr' with rfl | hr'
          · exact hm' ▸ hpending
          · cases hlive.symm.trans (he r' hr')
        · exact pending_of_grows hgrows h
      intro m hm
      rcases List.mem_append.1 hm with hm | hm
      · exact hold m hm
      · exact pending_of_fresh hpending hm

theorem recaptured {path : Path} {w w' : World} {minted : List Mint}
    (hminted : ∀ m ∈ minted, Pending w m)
    (h : ReflTransGen (Heeds (recaptureMint D w path)) w w') :
    ∀ m ∈ minted ++ freshMint w w' (recaptureMint D w path), Pending w' m := by
  obtain ⟨hgrows, hheeds⟩ := heeds_of_steps h
  intro m hm
  rcases List.mem_append.1 hm with hm | hm
  · exact pending_of_grows hgrows (hminted m hm)
  · obtain ⟨hmint, hsets⟩ := setsHead_of_fresh hm
    obtain ⟨hhead, hnew⟩ := of_decide_eq_true hsets
    exact (hheeds m hmint hhead).resolve_left hnew

theorem covered_recapturing (hphase : s.phase = .recapturing) (hs : Covered s)
    (hstep : step D H actions localState s e = some t) : Covered t := by
  have hminted : ∀ m ∈ s.minted, Pending s.world m := by rwa [Covered, hphase] at hs
  simp only [step, hphase] at hstep
  split at hstep
  · rcases part_cases hstep with ⟨w, -, hrun, rfl⟩ | ⟨w, error, -, hrun, -⟩ | ⟨w, n, -, hcut, -⟩
    · cases hrun
      exact hminted
    · cases hrun
    · cases hcut
  · rename_i fileId rest huncaptured
    split at hstep
    · rcases part_cases hstep with ⟨w, -, hrun, rfl⟩ | ⟨w, error, -, hrun, -⟩ | ⟨w, n, -, hcut, -⟩
      · cases hrun
        rw [Covered]
        exact hminted
      · cases hrun
      · cases hcut
    · rename_i entry hentry
      obtain ⟨s', hs', rfl⟩ := Option.map_eq_some_iff.1 hstep
      have hwp := wp_flushModify D s.world entry.path
      rcases part_cases hs' with ⟨w, -, hrun, rfl⟩ | ⟨w, error, -, hrun, rfl⟩ |
        ⟨w, n, rfl, hcut, rfl⟩
      · exact recaptured hminted (ends_of_run (fun _ => rfl) hwp hrun).2
      · exact recaptured hminted (ends_of_run (fun _ => rfl) hwp hrun).2
      · have hall := recaptured hminted (steps_of_cut (fun _ => rfl) hwp hcut)
        exact hall

theorem covered_ticking (hphase : s.phase = .ticking) (hs : Covered s)
    (he : Harmless D H localState s e) (hstep : step D H actions localState s e = some t) :
    Covered t := by
  rw [Covered, hphase] at hs
  simp only [step, hphase] at hstep
  cases e with
  | goesOn =>
      cases hstep
      exact hs
  | fails n =>
      simp only [Harmless, hphase] at he
      cases hstep
      exact he

theorem covered_cleaning {error : Option String} (hphase : s.phase = .cleaning error)
    (hs : Covered s) (he : Harmless D H localState s e)
    (hstep : step D H actions localState s e = some t) : Covered t := by
  simp only [step, hphase] at hstep
  rcases part_cases hstep with ⟨w, -, hrun, rfl⟩ | ⟨w, message, -, hrun, -⟩ | ⟨w, n, rfl, hcut, rfl⟩
  · cases error with
    | none =>
        rw [Covered, hphase] at hs
        exact hs
    | some message =>
        rw [Covered, hphase] at hs
        exact fun m hm => by cases (hs ▸ hm : m ∈ [])
  · exact (not_error_of_returns returns_cleanUp hrun).elim
  · simp only [Harmless, hphase] at he
    exact fun m hm => by cases (he ▸ hm : m ∈ [])

theorem covered_syncing (hphase : s.phase = .syncing) (hs : Covered s)
    (he : Harmless D H localState s e) (hstep : step D H actions localState s e = some t) :
    Covered t := by
  rw [Covered, hphase] at hs
  simp only [step, hphase] at hstep
  rcases part_cases hstep with ⟨w, -, hrun, rfl⟩ | ⟨w, message, -, hrun, -⟩ | ⟨w, n, rfl, hcut, rfl⟩
  · exact fun m hm => Or.inl (hs m hm)
  · exact (not_error_of_returns (returns_updateSyncedPaths _ _ _) hrun).elim
  · simp only [Harmless, hphase] at he
    exact fun m hm => by cases (he ▸ hm : m ∈ [])

theorem covered_settling {error : Option String} (hphase : s.phase = .settling error)
    (hs : Covered s) (hstep : step D H actions localState s e = some t) : Covered t := by
  rw [Covered, hphase] at hs
  simp only [step, hphase] at hstep
  cases e with
  | goesOn =>
      dsimp only at hstep
      split at hstep
      · rename_i res w hrun
        obtain rfl := Option.some.inj hstep
        have hgrows := grows_of_steps (run_of_does (does_settleRegistry D) hrun)
        exact fun m hm => pending_of_grows hgrows (hs m hm)
      · cases hstep
  | fails n =>
      obtain ⟨w, hcut, rfl⟩ := Option.map_eq_some_iff.1 hstep
      have hgrows := grows_of_steps (cut_of_does (does_settleRegistry D) hcut)
      exact fun m hm => pending_of_grows hgrows (hs m hm)

theorem covered_step (hs : Covered s) (he : Harmless D H localState s e)
    (hstep : step D H actions localState s e = some t) : Covered t := by
  cases hphase : s.phase with
  | looping => exact covered_looping hphase hs he hstep
  | ticking => exact covered_ticking hphase hs he hstep
  | cleaning error => exact covered_cleaning hphase hs he hstep
  | syncing => exact covered_syncing hphase hs he hstep
  | recording => exact covered_recording hphase hs he hstep
  | recapturing => exact covered_recapturing hphase hs hstep
  | settling error => exact covered_settling hphase hs hstep
  | ended error => simp [step, hphase] at hstep

theorem announced {w : World} {events : List Event} {error : Option String}
    (hcond : Along (step D H actions localState) (Harmless D H localState) (started actions w)
      events)
    (hrun : EventRun.run (step D H actions localState) (started actions w) events = some t)
    (hended : t.phase = .ended error) : Announced t := by
  have hcovered : Covered t :=
    invariant_of_run (fun _ _ _ => covered_step) (covered_started w) hcond hrun
  rw [Covered, hended] at hcovered
  exact fun m hm _ => hcovered m hm

end Announced

section Examples

def mergedNote : MergeAction := .writeMerge "f" "n.md" [104] ["v1", "v2"]

def nothingDecided : ConflictHandlers := ⟨fun _ => .deferConflict, fun _ => .deferConflict⟩

def newVault : World := atRest [] FileRegistry.empty

/-- The merge op is in the log when its append fails. -/
def appendFails : List Event := [.goesOn, .goesOn, .goesOn, .goesOn, .goesOn, .fails 1, .goesOn]

theorem announced_example : ∃ t,
    EventRun.run (step asciiDevice nothingDecided [mergedNote] (stateOf [] []))
      (started [mergedNote] newVault) appendFails = some t ∧ t.phase = .ended (some ioError) ∧
      t.minted ≠ [] ∧ Announced t := by
  have hcond : Along (step asciiDevice nothingDecided [mergedNote] (stateOf [] []))
      (Harmless asciiDevice nothingDecided (stateOf [] [])) (started [mergedNote] newVault)
      appendFails := by
    refine ⟨fun _ _ _ => Or.inl rfl, ?_⟩
    rintro _ ⟨⟩
    refine ⟨trivial, ?_⟩
    rintro _ ⟨⟩
    refine ⟨trivial, ?_⟩
    rintro _ ⟨⟩
    refine ⟨trivial, ?_⟩
    rintro _ ⟨⟩
    refine ⟨trivial, ?_⟩
    rintro _ ⟨⟩
    refine ⟨(fun _ hr => by cases hr), ?_⟩
    rintro _ ⟨⟩
    refine ⟨trivial, ?_⟩
    rintro _ ⟨⟩
    trivial
  obtain ⟨t, hrun, hended, hminted⟩ : ∃ t,
      EventRun.run (step asciiDevice nothingDecided [mergedNote] (stateOf [] []))
        (started [mergedNote] newVault) appendFails = some t ∧ t.phase = .ended (some ioError) ∧
        t.minted ≠ [] := ⟨_, rfl, rfl, nofun⟩
  exact ⟨t, hrun, hended, hminted, announced hcond hrun hended⟩

/-- The merge is written, and then its blob cannot be flushed. -/
def flushFails : List Event := [.goesOn, .goesOn, .goesOn, .fails 0, .goesOn]

theorem head_unannounced :
    ¬ ∀ (D : Device) (H : ConflictHandlers) (actions : List MergeAction) (localState : VaultState)
      (w : World) (events : List Event) (t : State) (error : Option String),
      EventRun.run (step D H actions localState) (started actions w) events = some t →
      t.phase = .ended error → Announced t := by
  intro h
  have hlost := h asciiDevice nothingDecided [mergedNote] (stateOf [] []) newVault flushFails _ _
    rfl rfl
  obtain ⟨op, hop, -⟩ := hlost _ List.mem_cons_self (by decide)
  cases hop

end Examples

end OpsBlobs.ApplyFaults
