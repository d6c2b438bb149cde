import OpsBlobs.OperationLogger
import OpsBlobs.RegistryScan

namespace OpsBlobs.MetadataRebuild

open Types Operations Hlc ExclusionPolicy FileRegistry RegistryScan Coroutine World OperationLogger

/-- A file as the server has it. -/
structure RemoteFile where
  path : Path
  contentHash : String
  deriving DecidableEq, Repr

def replayOp (remote : JsMap String RemoteFile) (op : Operation) : JsMap String RemoteFile :=
  if op.type = .delete then remote.delete op.fileId
  else remote.set op.fileId ⟨op.path, op.contentHash⟩

def replay (remote : JsMap String RemoteFile) (ops : List Operation) : JsMap String RemoteFile :=
  ops.foldl replayOp remote

variable (D : Device)

/-- Rebuild the sync metadata; with un-synced ops pending, only when that is confirmed. -/
def reset (confirm : Nat → Bool) : Async Unit := do
  let pending := (← getPendingOps).length
  if 0 < pending ∧ confirm pending = false then pure ()
  else
    let hlc ← hlcNow
    let allFiles ← Files.list
    updateRegistry (fun r => r.reconcileWithVault D allFiles hlc)
    captureOfflineChanges D (fun _ => false)

section Persist

/-- The vault, the registry and the pending ops are as they were, and no persist runs. -/
structure Quiet (w w' : World) : Prop where
  disk : w'.disk = w.disk
  registry : w'.registry = w.registry
  pending : w'.log.pendingOps = w.log.pendingOps
  queue : w'.log.oplogPersistQueue = []

variable {w : World}

theorem quiet_self (hq : w.log.oplogPersistQueue = []) : Quiet w w := ⟨rfl, rfl, rfl, hq⟩

/-- With no other persist queued an append runs through. -/
theorem run_appendOpLog (hq : w.log.oplogPersistQueue = []) :
    ∃ w', run appendOpLog w = some (.ok (), w') ∧ Quiet w w' := by
  by_cases hd : w.log.pendingOps.length ≤ w.log.oplogPersistedCount
  · refine ⟨{ w with log := { w.log with persistTickets := w.log.persistTickets + 1 } }, ?_,
      rfl, rfl, rfl, hq⟩
    simp [appendOpLog, enqueuePersist, appendOpLogLocked, setLog, OpLog.enqueue, OpLog.isFront,
      OpLog.dequeue, finishOpLog, hq, hd]
  · have hrun : ∃ w', run appendOpLog w = some (.ok (), w') ∧ w'.disk = w.disk ∧
        w'.registry = w.registry ∧ w'.log.pendingOps = w.log.pendingOps ∧
        w'.log.oplogPersistQueue = [] := by
      simp [appendOpLog, enqueuePersist, appendOpLogLocked, setLog, OpLog.enqueue, OpLog.isFront,
        OpLog.dequeue, OpLog.setStage, finishOpLog, ensureOplogDir, hq, hd]
    obtain ⟨w', hrun, hdisk, hregistry, hpending, hqueue⟩ := hrun
    exact ⟨w', hrun, hdisk, hregistry, hpending, hqueue⟩

theorem run_checkpointFlush (hq : w.log.oplogPersistQueue = []) (st : CaptureState) :
    ∃ w', run (checkpointFlush st) w = some (.ok { st with since := 0 }, w') ∧ Quiet w w' := by
  cases hc : st.changed with
  | false =>
      refine ⟨w, ?_, quiet_self hq⟩
      simp [checkpointFlush, ContentStore.flushPack, hc]
  | true =>
      obtain ⟨w', hrun, hw'⟩ := run_appendOpLog hq
      refine ⟨w', ?_, hw'⟩
      simp [checkpointFlush, ContentStore.flushPack, hc, hrun]

theorem run_checkpointTick (hq : w.log.oplogPersistQueue = []) (st : CaptureState) :
    ∃ st' w', run (checkpointTick st) w = some (.ok st', w') ∧ st'.onDisk = st.onDisk ∧
      Quiet w w' := by
  by_cases hs : st.since + 1 < CAPTURE_CHECKPOINT_EVERY
  · refine ⟨{ st with since := st.since + 1 }, w, ?_, rfl, quiet_self hq⟩
    simp [checkpointTick, hs]
  · obtain ⟨w', hrun, hw'⟩ := run_checkpointFlush hq { st with since := st.since + 1 }
    refine ⟨{ st with since := 0 }, w', ?_, rfl, hw'⟩
    simp [checkpointTick, hs, hrun]

end Persist

section Capture

variable {w w₀ : World} {r₁ : FileRegistry} {done : List VaultFileRef} {ref : VaultFileRef}

/-- What a capture records for one listed file of a registry that tracks it. -/
def drift (w₀ : World) (r₁ : FileRegistry) (ref : VaultFileRef) : Option (String × RemoteFile) :=
  if isExcluded ref.path D.settings || isTooLarge ref.size D.settings then none
  else
    match r₁.getByPath ref.path, w₀.bytesAt ref.path with
    | some e, some content =>
        if statUnchanged (some e) ref || e.contentHash = D.sha256Hex content then none
        else some (e.id, ⟨ref.path, D.sha256Hex content⟩)
    | _, _ => none

/-- Between two files of a capture: an op for each drifted file so far, and the entries of
the other files as they were. -/
structure Captured (w₀ : World) (r₁ : FileRegistry) (done : List VaultFileRef) (w : World) :
    Prop where
  disk : w.disk = w₀.disk
  queue : w.log.oplogPersistQueue = []
  pending : ∃ ops, w.log.pendingOps = w₀.log.pendingOps ++ ops ∧
    ops.map (fun op => (op.fileId, (⟨op.path, op.contentHash⟩ : RemoteFile))) =
      done.filterMap (drift D w₀ r₁) ∧ ∀ op ∈ ops, op.type ≠ .delete
  others : ∀ q, q ∉ done.map (·.path) → w.registry.getByPath q = r₁.getByPath q
  deleted : ∀ q, (w.registry.getByPath q).map (·.deleted) = (r₁.getByPath q).map (·.deleted)
  active : ∀ e ∈ w.registry.getActiveEntries, ∃ e₁ ∈ r₁.getActiveEntries, e₁.path = e.path

variable {D}

theorem captured_quiet {w' : World} (h : Captured D w₀ r₁ done w) (hw : Quiet w w') :
    Captured D w₀ r₁ done w' := by
  obtain ⟨hdisk, hregistry, hpending, hqueue⟩ := hw
  refine ⟨hdisk.trans h.disk, hqueue, ?_, ?_, ?_, ?_⟩
  · rw [hpending]
    exact h.pending
  · rw [hregistry]
    exact h.others
  · rw [hregistry]
    exact h.deleted
  · rw [hregistry]
    exact h.active

theorem captured_skip (h : Captured D w₀ r₁ done w) (hnone : drift D w₀ r₁ ref = none) :
    Captured D w₀ r₁ (done ++ [ref]) w := by
  refine ⟨h.disk, h.queue, ?_, ?_, h.deleted, h.active⟩
  · rw [List.filterMap_append, List.filterMap_cons_none hnone, List.filterMap_nil, List.append_nil]
    exact h.pending
  · intro q hq
    rw [List.map_append, List.mem_append, not_or] at hq
    exact h.others q hq.1

/-- Only the entry at one path is changed, and it is neither deleted nor restored. -/
structure Touches (path : Path) (r r' : FileRegistry) : Prop where
  others : ∀ q, q ≠ path → r'.getByPath q = r.getByPath q
  deleted : (r'.getByPath path).map (·.deleted) = (r.getByPath path).map (·.deleted)
  active : ∀ e ∈ r'.getActiveEntries, ∃ e₀ ∈ r.getActiveEntries, e₀.path = e.path

theorem touches_changeAt {r : FileRegistry} {path : Path} {f : FileEntry → FileEntry}
    {hf : ∀ e, (f e).id = e.id ∧ (f e).path = e.path} (hdel : ∀ e, (f e).deleted = e.deleted) :
    Touches path r (r.changeAt f hf path) := by
  refine ⟨?_, ?_, fun e he => active_changeAt (fun e h => (hdel e).symm.trans h) he⟩
  · intro q hq
    rw [getByPath_changeAt, if_neg (Ne.symm hq)]
  · rw [getByPath_changeAt, if_pos rfl, Option.map_map]
    exact congrArg (Option.map · _) (funext hdel)

theorem touches_change {r : FileRegistry} {path : Path} {e : FileEntry}
    (h : r.getByPath path = some e) {f : FileEntry → FileEntry}
    {hf : ∀ e, (f e).id = e.id ∧ (f e).path = e.path} (hdel : ∀ e, (f e).deleted = e.deleted) :
    Touches path r (r.change f hf e.id) := by
  have hid : ∀ q, r.pathIndex.get q = some e.id → q = path := by
    intro q hq
    obtain ⟨e', he', hp⟩ := r.indexed q e.id hq
    obtain ⟨hpath, he⟩ := path_of_getByPath h
    obtain rfl := Option.some.inj (he'.symm.trans he)
    exact hp.symm.trans hpath
  refine ⟨?_, ?_, fun e' he' => active_change (fun e h => (hdel e).symm.trans h) he'⟩
  · intro q hq
    rw [getByPath_change, if_neg fun h => hq (hid q h)]
  · rw [getByPath_change]
    split
    · rw [Option.map_map]
      exact congrArg (Option.map · _) (funext hdel)
    · rfl

theorem touches_trans {r r' r'' : FileRegistry} {path : Path} (h : Touches path r r')
    (h' : Touches path r' r'') : Touches path r r'' := by
  refine ⟨fun q hq => (h'.others q hq).trans (h.others q hq), h'.deleted.trans h.deleted, ?_⟩
  intro e he
  obtain ⟨e', he', hp'⟩ := h'.active e he
  obtain ⟨e₀, he₀, hp₀⟩ := h.active e' he'
  exact ⟨e₀, he₀, hp₀.trans hp'⟩

theorem touches_updateContentHash {r : FileRegistry} {path : Path} (contentHash : String)
    (hlc : Hlc) (stat : VaultFileStat) :
    Touches path r (r.updateContentHash path contentHash hlc (some stat)) :=
  touches_changeAt fun _ => rfl

theorem touches_recordStat {r : FileRegistry} {path : Path} (stat : VaultFileStat) :
    Touches path r (r.recordStat path stat) :=
  touches_changeAt fun _ => rfl

/-- A step over one file: what it records, and its change of that file's entry. -/
theorem captured_step {w' : World} (added : List Operation) (h : Captured D w₀ r₁ done w)
    (hdisk : w'.disk = w.disk) (hqueue : w'.log.oplogPersistQueue = [])
    (hpending : w'.log.pendingOps = w.log.pendingOps ++ added)
    (hadded : added.map (fun op => (op.fileId, (⟨op.path, op.contentHash⟩ : RemoteFile))) =
      (drift D w₀ r₁ ref).toList) (htype : ∀ op ∈ added, op.type ≠ .delete)
    (htouch : Touches ref.path w.registry w'.registry) :
    Captured D w₀ r₁ (done ++ [ref]) w' := by
  obtain ⟨ops, hops, hmap, htypes⟩ := h.pending
  refine ⟨hdisk.trans h.disk, hqueue, ⟨ops ++ added, ?_, ?_, ?_⟩, ?_, ?_, ?_⟩
  · rw [hpending, hops, List.append_assoc]
  · rw [List.map_append, List.filterMap_append, hmap, hadded]
    cases hd : drift D w₀ r₁ ref <;> simp [hd]
  · intro op hop
    rcases List.mem_append.1 hop with hop | hop
    · exact htypes op hop
    · exact htype op hop
  · intro q hq
    rw [List.map_append, List.mem_append, not_or, List.map_singleton, List.mem_singleton] at hq
    exact (htouch.others q hq.2).trans (h.others q hq.1)
  · intro q
    by_cases hq : q = ref.path
    · rw [hq]
      exact htouch.deleted.trans (h.deleted ref.path)
    · rw [htouch.others q hq]
      exact h.deleted q
  · intro e he
    obtain ⟨e', he', hp'⟩ := htouch.active e he
    obtain ⟨e₁, he₁, hp₁⟩ := h.active e' he'
    exact ⟨e₁, he₁, hp₁.trans hp'⟩

/-- The op for a drifted file that is tracked. -/
def driftOp (e : FileEntry) (path : Path) (hash : String) (hlc : Hlc) : Operation :=
  if e.contentHash = "" then Ops.create e.id path hash hlc
  else Ops.update e.id path hash hlc e.headVersionId

theorem driftOp_names (e : FileEntry) (path : Path) (hash : String) (hlc : Hlc) :
    (driftOp e path hash hlc).fileId = e.id ∧ (driftOp e path hash hlc).path = path ∧
      (driftOp e path hash hlc).contentHash = hash ∧ (driftOp e path hash hlc).type ≠ .delete := by
  rw [driftOp]
  split <;> exact ⟨rfl, rfl, rfl, nofun⟩

theorem run_captureDrift {path : Path} {e : FileEntry} (h : w.registry.getByPath path = some e)
    (hash : String) (hlc : Hlc) (stat : VaultFileStat) :
    run (captureDrift D path (some e) hash hlc stat) w = some (.ok (), { w with
      registry := (w.registry.updateContentHash path hash hlc (some stat)).setHeadVersion e.id
        (driftOp e path hash hlc).id
      log := OpLog.push (driftOp e path hash hlc) w.log }) := by
  have he : w.registry.getById e.id = some e := (path_of_getByPath h).2
  simp [captureDrift, current, he, pushOp, setLog, OperationLogger.setHeadVersion, driftOp]

theorem touches_drift {r : FileRegistry} {path : Path} {e : FileEntry}
    (h : r.getByPath path = some e) (hash : String) (hlc : Hlc) (stat : VaultFileStat)
    (versionId : String) : Touches path r
      ((r.updateContentHash path hash hlc (some stat)).setHeadVersion e.id versionId) := by
  refine touches_trans (touches_updateContentHash hash hlc stat) ?_
  have hget : (r.updateContentHash path hash hlc (some stat)).getByPath path =
      some (withStat (some stat) { e with contentHash := hash, hlcTimestamp := hlc }) := by
    rw [FileRegistry.updateContentHash, getByPath_changeAt, if_pos rfl, h, Option.map_some]
  exact touches_change hget fun _ => rfl

/-- A drifted file is read, stored and recorded. -/
theorem run_captureRef_drifted (st : CaptureState) {e : FileEntry} {content : Bytes}
    (hexcl : isExcluded ref.path D.settings = false) (hlarge : ¬ isTooLarge ref.size D.settings = true)
    (hget : w.registry.getByPath ref.path = some e) (hread : w.bytesAt ref.path = some content)
    (hstat : ¬ statUnchanged (some e) ref = true) (hsame : e.contentHash ≠ D.sha256Hex content)
    (hqueue : w.log.oplogPersistQueue = []) :
    ∃ hlcTs st' w₂ w', run (captureRef D st ref) w = some (.ok st', w') ∧
      st'.onDisk = st.onDisk ++ [ref.path] ∧ w₂.disk = w.disk ∧
      w₂.registry = (w.registry.updateContentHash ref.path (D.sha256Hex content) hlcTs
        (some ref.toVaultFileStat)).setHeadVersion e.id
          (driftOp e ref.path (D.sha256Hex content) hlcTs).id ∧
      w₂.log = OpLog.push (driftOp e ref.path (D.sha256Hex content) hlcTs) w.log ∧ Quiet w₂ w' := by
  have hid : w.registry.getById e.id = some e := (path_of_getByPath hget).2
  generalize hts : Hlc.now w.hlc (w.wallClock w.wallReads) = hlcTs
  generalize hw₁ : ({ w with
    contentStore := w.contentStore.set (D.sha256Hex content) content
    hlc := hlcTs
    wallReads := w.wallReads + 1 } : World) = w₁
  have hget₁ : w₁.registry.getByPath ref.path = some e := hw₁ ▸ hget
  have hdrifted := run_captureDrift (D := D) hget₁ (D.sha256Hex content) hlcTs ref.toVaultFileStat
  obtain ⟨st', w', htick, honDisk, hquiet⟩ := run_checkpointTick (w := { w₁ with
      registry := (w₁.registry.updateContentHash ref.path (D.sha256Hex content) hlcTs
        (some ref.toVaultFileStat)).setHeadVersion e.id
          (driftOp e ref.path (D.sha256Hex content) hlcTs).id
      log := OpLog.push (driftOp e ref.path (D.sha256Hex content) hlcTs) w₁.log })
    (hw₁ ▸ hqueue) { st with onDisk := st.onDisk ++ [ref.path], changed := true }
  refine ⟨hlcTs, st', _, w', ?_, honDisk, ?_, ?_, ?_, hquiet⟩
  · simp only [captureRef, hexcl, hlarge, OperationLogger.getByPath, hget, hstat, current,
      run_bind, run_get, run_pure, run_read, hread, run_hashContent, run_putBuffered,
      run_hlcNow, Option.bind_some, resume_ok, hid, Option.getD_some, Option.map_some,
      Option.some_inj, hsame, if_false, Bool.false_eq_true, World.wallTime]
    rw [hts, hw₁, hdrifted]
    exact htick
  · rw [← hw₁]
  · rw [← hw₁]
  · rw [← hw₁]

theorem captured_captureRef (h : Captured D w₀ r₁ done w) (st : CaptureState)
    (hnew : ref.path ∉ done.map (·.path))
    (htracked : isExcluded ref.path D.settings = false → ∃ e, r₁.getByPath ref.path = some e)
    (hlisted : ∃ content, w₀.bytesAt ref.path = some content) :
    ∃ st' w', run (captureRef D st ref) w = some (.ok st', w') ∧
      Captured D w₀ r₁ (done ++ [ref]) w' ∧
      st'.onDisk = st.onDisk ++
        (if isExcluded ref.path D.settings then [] else [ref.path]) := by
  by_cases hexcl : isExcluded ref.path D.settings = true
  · refine ⟨st, w, by simp [captureRef, hexcl], captured_skip h ?_, by simp [hexcl]⟩
    simp [drift, hexcl]
  replace hexcl := Bool.eq_false_of_not_eq_true hexcl
  rw [hexcl]
  by_cases hlarge : isTooLarge ref.size D.settings = true
  · refine ⟨{ st with onDisk := st.onDisk ++ [ref.path] }, w, ?_, captured_skip h ?_, rfl⟩
    · simp [captureRef, hexcl, hlarge]
    · simp [drift, hlarge]
  obtain ⟨e, he⟩ := htracked hexcl
  obtain ⟨content, hbytes⟩ := hlisted
  have hget : w.registry.getByPath ref.path = some e := (h.others _ hnew).trans he
  have hread : w.bytesAt ref.path = some content := by
    rw [bytesAt, h.disk]
    exact hbytes
  have hdrift : drift D w₀ r₁ ref =
      if statUnchanged (some e) ref || e.contentHash = D.sha256Hex content then none
      else some (e.id, ⟨ref.path, D.sha256Hex content⟩) := by
    rw [drift, hexcl, he, hbytes, Bool.eq_false_of_not_eq_true hlarge]
    rfl
  by_cases hstat : statUnchanged (some e) ref = true
  · refine ⟨{ st with onDisk := st.onDisk ++ [ref.path] }, w, ?_, captured_skip h ?_, rfl⟩
    · simp [captureRef, hexcl, hlarge, OperationLogger.getByPath, hget, hstat]
    · rw [hdrift, hstat]
      rfl
  by_cases hsame : e.contentHash = D.sha256Hex content
  · have hid : w.registry.getById e.id = some e := (path_of_getByPath hget).2
    have hrun : run (captureRef D st ref) w =
        some (.ok { st with onDisk := st.onDisk ++ [ref.path] },
          { w with registry := w.registry.recordStat ref.path ref.toVaultFileStat }) := by
      simp [captureRef, hexcl, hlarge, OperationLogger.getByPath, hget, hstat, hread, current, hid,
        hsame]
    refine ⟨_, _, hrun, captured_step [] h rfl h.queue (List.append_nil _).symm ?_ (by rintro _ ⟨⟩)
      (touches_recordStat ref.toVaultFileStat), rfl⟩
    rw [hdrift, decide_eq_true hsame, Bool.or_true]
    rfl
  · obtain ⟨hlcTs, st', w₂, w', hrun, honDisk, hdisk, hregistry, hlog, hquiet⟩ :=
      run_captureRef_drifted st hexcl hlarge hget hread hstat hsame h.queue
    obtain ⟨hid, hpath, hhash, htype⟩ := driftOp_names e ref.path (D.sha256Hex content) hlcTs
    refine ⟨st', w', hrun, captured_quiet (captured_step
      [driftOp e ref.path (D.sha256Hex content) hlcTs] h hdisk ?_ ?_ ?_ ?_ ?_) hquiet, honDisk⟩
    · rw [hlog]
      exact h.queue
    · rw [hlog]
      rfl
    · rw [List.map_singleton, hid, hpath, hhash, hdrift, Bool.eq_false_of_not_eq_true hstat,
        decide_eq_false hsame]
      rfl
    · exact fun op hop => List.mem_singleton.1 hop ▸ htype
    · rw [hregistry]
      exact touches_drift hget _ _ _ _

theorem captured_captureRefs (st : CaptureState) {rest : List VaultFileRef}
    (h : Captured D w₀ r₁ done w) (hnodup : ((done ++ rest).map (·.path)).Nodup)
    (htracked : ∀ ref ∈ rest, isExcluded ref.path D.settings = false →
      ∃ e, r₁.getByPath ref.path = some e)
    (hlisted : ∀ ref ∈ rest, ∃ content, w₀.bytesAt ref.path = some content) :
    ∃ st' w', run (captureRefs D (fun _ => false) st rest) w = some (.ok (st', false), w') ∧
      Captured D w₀ r₁ (done ++ rest) w' ∧
      ∀ path, path ∈ st.onDisk ∨ (∃ ref ∈ rest, ref.path = path ∧
        isExcluded path D.settings = false) → path ∈ st'.onDisk := by
  induction rest generalizing st w done with
  | nil =>
      refine ⟨st, w, rfl, (List.append_nil done).symm ▸ h, ?_⟩
      rintro path (hp | ⟨ref, hmem, -⟩)
      · exact hp
      · cases hmem
  | cons ref rest ih =>
      have hnew : ref.path ∉ done.map (·.path) := by
        rw [List.map_append, List.nodup_append] at hnodup
        exact fun hp => hnodup.2.2 _ hp _ (List.mem_map_of_mem List.mem_cons_self) rfl
      obtain ⟨st₁, w₁, hstep, h₁, hst₁⟩ := captured_captureRef h st hnew
        (htracked ref List.mem_cons_self) (hlisted ref List.mem_cons_self)
      rw [List.append_cons] at hnodup
      obtain ⟨st', w', hrun, h', hst'⟩ := ih st₁ h₁ hnodup
        (fun k hk => htracked k (List.mem_cons_of_mem _ hk))
        (fun k hk => hlisted k (List.mem_cons_of_mem _ hk))
      refine ⟨st', w', ?_, List.append_cons done ref rest ▸ h', ?_⟩
      · simp only [captureRefs, run_bind, run_get, Option.bind_some, resume_ok, Bool.false_eq_true,
          if_false, hstep, hrun]
      · rintro path (hp | ⟨k, hk, rfl, hexcl⟩)
        · exact hst' path (Or.inl (hst₁ ▸ List.mem_append_left _ hp))
        · rcases List.mem_cons.1 hk with rfl | hk
          · refine hst' _ (Or.inl ?_)
            rw [hst₁, hexcl]
            exact List.mem_append_right _ (List.mem_singleton_self _)
          · exact hst' _ (Or.inr ⟨k, hk, rfl, hexcl⟩)

/-- No file has vanished when every live entry's path was seen. -/
theorem run_captureVanished_none (st : CaptureState) {entries : List FileEntry}
    (h : ∀ e ∈ entries, w.registry.getById e.id = some e ∧ e.path ∈ st.onDisk) :
    run (foldM captureVanished st entries) w = some (.ok st, w) := by
  induction entries with
  | nil => rfl
  | cons e entries ih =>
      obtain ⟨hid, hseen⟩ := h e List.mem_cons_self
      have hstep : run (captureVanished st e) w = some (.ok st, w) := by
        simp [captureVanished, current, hid, hseen]
      rw [run_foldM_cons, hstep]
      exact ih fun k hk => h k (List.mem_cons_of_mem _ hk)

theorem captured_start (hq : w₀.log.oplogPersistQueue = []) :
    Captured D w₀ w₀.registry [] w₀ :=
  ⟨rfl, hq, ⟨[], (List.append_nil _).symm, rfl, nofun⟩, fun _ _ => rfl, fun _ => rfl,
    fun e he => ⟨e, he, rfl⟩⟩

/-- A capture of a vault whose files and live entries match only looks for drift. -/
theorem captured_captureOfflineChanges (hq : w₀.log.oplogPersistQueue = [])
    (htracked : ∀ ref ∈ Files.listOf w₀.disk, isExcluded ref.path D.settings = false →
      ∃ e, w₀.registry.getByPath ref.path = some e)
    (hactive : ∀ e ∈ w₀.registry.getActiveEntries, e.path ∈ (Files.listOf w₀.disk).map (·.path)) :
    ∃ w', run (captureOfflineChanges D (fun _ => false)) w₀ = some (.ok (), w') ∧
      Captured D w₀ w₀.registry (Files.listOf w₀.disk) w' := by
  have hpaths : (Files.listOf w₀.disk).map (·.path) = w₀.disk.keys := by
    rw [Files.listOf, List.map_map]
    rfl
  have hlisted : ∀ ref ∈ Files.listOf w₀.disk, ∃ content, w₀.bytesAt ref.path = some content := by
    intro ref hmem
    have hkey : ref.path ∈ w₀.disk.keys := hpaths ▸ List.mem_map_of_mem hmem
    obtain ⟨file, hfile⟩ := (JsMap.mem_keys_iff _).1 hkey
    exact ⟨file.content, by rw [bytesAt, hfile]; rfl⟩
  obtain ⟨st, w₁, hrun, h₁, hst⟩ := captured_captureRefs ⟨[], false, 0⟩ (captured_start hq)
    (by rw [List.nil_append, hpaths]; exact w₀.disk.nodup_keys) htracked hlisted
  rw [List.nil_append] at h₁
  have hseen : ∀ e ∈ w₁.registry.getActiveEntries.filter
      (fun entry => !isExcluded entry.path D.settings),
      w₁.registry.getById e.id = some e ∧ e.path ∈ st.onDisk := by
    intro e he
    obtain ⟨he, hexcl⟩ := List.mem_filter.1 he
    rw [Bool.not_eq_true'] at hexcl
    obtain ⟨e₁, he₁, hpath⟩ := h₁.active e he
    obtain ⟨ref, hmem, hp⟩ := List.mem_map.1 (hactive e₁ he₁)
    refine ⟨(FileEntries.mem_values_iff _).1 (List.mem_filter.1 he).1, hst _ (Or.inr ?_)⟩
    exact ⟨ref, hmem, hp.trans hpath, hexcl⟩
  have hvanished := run_captureVanished_none st hseen
  obtain ⟨w', hflush, hw'⟩ := run_checkpointFlush h₁.queue st
  refine ⟨w', ?_, captured_quiet h₁ hw'⟩
  simp only [captureOfflineChanges, run_tryFinally, run_bind, run_list, Option.bind_some, resume_ok,
    hrun, Bool.false_eq_true, activeEntries, run_get, run_pure, run_ite, hvanished, hflush,
    ite_self, run_pause]

end Capture

end OpsBlobs.MetadataRebuild
