import OpsBlobs.MetadataRebuild
import OpsBlobs.EventRun

namespace OpsBlobs.PendingReplay

open Types Operations Hlc ExclusionPolicy FileRegistry RegistryScan Coroutine World OperationLogger
  MetadataRebuild ConflictMarkers

section Replay

variable {base : JsMap String RemoteFile} {ops : List Operation} {op : Operation} {id : String}
  {f : RemoteFile}

/-- What an op makes of its file. -/
def outcome (op : Operation) : Option RemoteFile :=
  if op.type = .delete then none else some ⟨op.path, op.contentHash⟩

theorem get_replay_concat : (replay base (ops ++ [op])).get id =
    if op.fileId = id then outcome op else (replay base ops).get id := by
  rw [replay, List.foldl_concat, ← replay, replayOp, outcome]
  split
  · rw [JsMap.get_delete]
  · rw [JsMap.get_set]

/-- Without a file's ops the file is as it was pushed. -/
theorem get_replay_filter (k : String) : (replay base (ops.filter (·.fileId ≠ k))).get id =
    if id = k then base.get id else (replay base ops).get id := by
  induction ops using List.reverseRecOn with
  | nil => simp [replay]
  | append_singleton ops op ih =>
      rw [List.filter_append, List.filter_singleton, get_replay_concat]
      by_cases hk : op.fileId = k
      · simp only [hk, ne_eq, not_true, decide_false, cond_false, List.append_nil, ih]
        split
        · rfl
        · rename_i hid
          rw [if_neg (Ne.symm hid)]
      · simp only [hk, ne_eq, not_false_eq_true, decide_true, cond_true, get_replay_concat, ih]
        split
        · rename_i hid
          rw [if_neg (hid ▸ hk)]
        · rfl

/-- Every hash of a replay is a pushed file's or an op's. -/
theorem hash_of_replay (hbase : ∀ id f, base.get id = some f → f.contentHash ≠ "")
    (hops : ∀ op ∈ ops, op.contentHash ≠ "") (h : (replay base ops).get id = some f) :
    f.contentHash ≠ "" := by
  induction ops using List.reverseRecOn with
  | nil => exact hbase id f h
  | append_singleton ops op ih =>
      rw [get_replay_concat] at h
      split at h
      · rw [outcome] at h
        split at h
        · cases h
        · obtain rfl := Option.some.inj h
          exact hops op (List.mem_append_right _ (List.mem_singleton_self _))
      · exact ih (fun op hop => hops op (List.mem_append_left _ hop)) h

end Replay

section Live

variable {r r' : FileRegistry} {e : FileEntry} {path : Path} {id : String}

/-- The file an entry stands for. -/
def fileOf (e : FileEntry) : Option RemoteFile :=
  if e.deleted then none else some ⟨e.path, e.contentHash⟩

def live (r : FileRegistry) (id : String) : Option RemoteFile := (r.getById id).bind fileOf

theorem live_some (h : r.getById id = some e) : live r id = fileOf e := by
  rw [live, h, Option.bind_some]

theorem fileOf_live (hlive : e.deleted = false) : fileOf e = some ⟨e.path, e.contentHash⟩ := by
  rw [fileOf, hlive]
  rfl

theorem fileOf_deleted (hdel : e.deleted = true) : fileOf e = none := by
  rw [fileOf, hdel]
  rfl

theorem live_change {f : FileEntry → FileEntry} {hf : ∀ e, (f e).id = e.id ∧ (f e).path = e.path}
    (h : r.getById e.id = some e) :
    live (r.change f hf e.id) id = if e.id = id then fileOf (f e) else live r id := by
  rw [live, getById, get_change]
  split
  · rename_i hid
    rw [← hid, ← getById, h]
    rfl
  · rfl

theorem live_changeAt {f : FileEntry → FileEntry} {hf : ∀ e, (f e).id = e.id ∧ (f e).path = e.path}
    (h : r.getByPath path = some e) :
    live (r.changeAt f hf path) id = if e.id = id then fileOf (f e) else live r id := by
  obtain ⟨k, hk, he⟩ := getByPath_iff.1 h
  have hid : e.id = k := FileEntries.get_id he
  simp only [changeAt, hk]
  subst hid
  exact live_change he

/-- Heads and open conflicts say nothing about the file. -/
theorem live_change_same {f : FileEntry → FileEntry} {fileId : String}
    {hf : ∀ e, (f e).id = e.id ∧ (f e).path = e.path} (hsame : ∀ e, fileOf (f e) = fileOf e) :
    live (r.change f hf fileId) id = live r id := by
  rw [live, getById, get_change]
  split
  · rw [live, getById, Option.bind_map]
    exact congrArg _ (funext hsame)
  · rfl

theorem live_setHeadVersion (fileId versionId : String) :
    live (r.setHeadVersion fileId versionId) id = live r id := live_change_same fun _ => rfl

theorem live_clearConflict (fileId : String) : live (r.clearConflict fileId) id = live r id :=
  live_change_same fun _ => rfl

theorem live_insert {hfresh : r.entries.get e.id = none} :
    live (r.insert e hfresh) id = if e.id = id then fileOf e else live r id := by
  change ((r.entries.set e).get id).bind fileOf = _
  rw [FileEntries.get_set]
  split <;> rfl

theorem live_updatePath {oldPath : Path} (h : r.getByPath oldPath = some e) (newPath : Path)
    (hlc : Hlc) : live (r.updatePath oldPath newPath hlc) id =
      if e.id = id then fileOf { e with path := newPath, hlcTimestamp := hlc } else live r id := by
  rw [live, getById_updatePath h]
  split <;> rfl

/-- A tombstone that comes back; a live entry is left alone. -/
theorem live_resurrect (h : r.getById e.id = some e) (hlc : Hlc) (contentHash : String) :
    live (r.resurrect e.id hlc contentHash none) id =
      if e.id = id ∧ e.deleted = true then some ⟨e.path, contentHash⟩ else live r id := by
  rw [getById] at h
  simp only [resurrect, h]
  split
  · rename_i hdel
    rw [live_change h]
    simp [hdel, fileOf, withStat]
  · rename_i hdel
    rw [if_neg fun hid => hdel hid.2]

end Live

section Faithful

variable (base : JsMap String RemoteFile)

/-- The pending ops, replayed over the pushed files, give the live files of the registry. -/
def Faithful (w : World) : Prop :=
  ∀ id, (replay base w.log.pendingOps).get id = live w.registry id

/-- Between two events: no persist runs, and no op names the hash of a placeholder. -/
structure Ready (w : World) : Prop where
  queue : w.log.oplogPersistQueue = []
  hashed : ∀ op ∈ w.log.pendingOps, op.contentHash ≠ ""

/-- A step that leaves this registry and these pending ops. -/
structure Ends (r : FileRegistry) (ops : List Operation) (w' : World) : Prop where
  registry : w'.registry = r
  pending : w'.log.pendingOps = ops
  queue : w'.log.oplogPersistQueue = []

variable {base} {w w' : World} {r : FileRegistry} {op : Operation} {k : String}

theorem ready_push (h : Ready w) (hop : op.contentHash ≠ "")
    (hw : Ends r (w.log.pendingOps ++ [op]) w') : Ready w' := by
  refine ⟨hw.queue, fun op' hop' => ?_⟩
  rw [hw.pending] at hop'
  rcases List.mem_append.1 hop' with hop' | hop'
  · exact h.hashed op' hop'
  · exact List.mem_singleton.1 hop' ▸ hop

theorem ready_quiet (h : Ready w) (hw : Ends r w.log.pendingOps w') : Ready w' :=
  ⟨hw.queue, hw.pending ▸ h.hashed⟩

/-- An op recorded with a change of its file. -/
theorem faithful_push_iff (h : Faithful base w) (hw : Ends r (w.log.pendingOps ++ [op]) w')
    (hothers : ∀ id, op.fileId ≠ id → live r id = live w.registry id) :
    Faithful base w' ↔ outcome op = live r op.fileId := by
  rw [Faithful, hw.pending, hw.registry]
  constructor
  · intro hall
    have hid := hall op.fileId
    rwa [get_replay_concat, if_pos rfl] at hid
  · intro hop id
    rw [get_replay_concat]
    split
    · rename_i hid
      rw [← hid, hop]
    · rename_i hid
      rw [hothers id hid, h id]

/-- A change of one file that nothing records. -/
theorem faithful_silent_iff (h : Faithful base w) (hw : Ends r w.log.pendingOps w')
    (hothers : ∀ id, k ≠ id → live r id = live w.registry id) :
    Faithful base w' ↔ live w.registry k = live r k := by
  rw [Faithful, hw.pending, hw.registry]
  constructor
  · intro hall
    rw [← hall k, h k]
  · intro hk id
    by_cases hid : k = id
    · rw [← hid, ← hk, h k]
    · rw [hothers id hid, h id]

/-- A file whose ops are all taken back. -/
theorem faithful_prune_iff (h : Faithful base w)
    (hw : Ends r (w.log.pendingOps.filter (·.fileId ≠ k)) w')
    (hothers : ∀ id, k ≠ id → live r id = live w.registry id) :
    Faithful base w' ↔ base.get k = live r k := by
  rw [Faithful, hw.pending, hw.registry]
  constructor
  · intro hall
    have hk := hall k
    rwa [get_replay_filter, if_pos rfl] at hk
  · intro hk id
    rw [get_replay_filter]
    split
    · rename_i hid
      rw [hid, hk]
    · rename_i hid
      rw [hothers id (Ne.symm hid), h id]

/-- A live file is never a placeholder. -/
theorem hash_ne_of_live (hbase : ∀ id f, base.get id = some f → f.contentHash ≠ "")
    (h : Faithful base w) (hready : Ready w) {id : String} {e : FileEntry}
    (he : w.registry.getById id = some e) (hlive : e.deleted = false) : e.contentHash ≠ "" := by
  have hfile : (replay base w.log.pendingOps).get id = some ⟨e.path, e.contentHash⟩ := by
    rw [h id, live_some he, fileOf_live hlive]
  exact hash_of_replay hbase hready.hashed hfile

end Faithful

section Runs

variable {D : Device} {w : World} {path oldPath : Path} {content : Bytes} {e : FileEntry}

theorem run_rewriteOpLog (hq : w.log.oplogPersistQueue = []) :
    ∃ w', run rewriteOpLog w = some (.ok (), w') ∧ Quiet w w' := by
  have hrun : ∃ w', run rewriteOpLog w = some (.ok (), w') ∧ w'.disk = w.disk ∧
      w'.registry = w.registry ∧ w'.log.pendingOps = w.log.pendingOps ∧
      w'.log.oplogPersistQueue = [] := by
    simp [rewriteOpLog, enqueuePersist, rewriteOpLogLocked, setLog, OpLog.enqueue, OpLog.isFront,
      OpLog.dequeue, OpLog.setStage, finishOpLog, ensureOplogDir, hq]
  obtain ⟨w', hrun, hdisk, hregistry, hpending, hqueue⟩ := hrun
  exact ⟨w', hrun, hdisk, hregistry, hpending, hqueue⟩

theorem run_recordOp (hq : w.log.oplogPersistQueue = []) (op : Operation) :
    ∃ w', run (recordOp op) w = some (.ok (), w') ∧
      Ends w.registry (w.log.pendingOps ++ [op]) w' := by
  obtain ⟨w', hrun, hw'⟩ := run_appendOpLog (w := { w with log := OpLog.push op w.log }) hq
  exact ⟨w', by simp [recordOp, pushOp, setLog, hrun], hw'.registry, hw'.pending, hw'.queue⟩

/-- An op recorded as a new version. -/
theorem run_recordVersion (hq : w.log.oplogPersistQueue = []) (op : Operation)
    (fileId versionId : String) :
    ∃ w', run (recordOp op >>= fun _ => setHeadVersion fileId versionId) w = some (.ok (), w') ∧
      Ends (w.registry.setHeadVersion fileId versionId) (w.log.pendingOps ++ [op]) w' := by
  obtain ⟨w₁, hrun, hw₁⟩ := run_recordOp hq op
  refine ⟨{ w₁ with registry := w₁.registry.setHeadVersion fileId versionId }, ?_, ?_,
    hw₁.pending, hw₁.queue⟩
  · simp [hrun, OperationLogger.setHeadVersion]
  · exact congrArg (·.setHeadVersion fileId versionId) hw₁.registry

variable (D) in
/-- The bytes a handler takes: those of a file that is there and under the cap. -/
def taken (w : World) (path : Path) : Option Bytes :=
  (w.bytesAt path).filter (fun content => !isTooLarge content.length D.settings)

theorem taken_some_iff : taken D w path = some content ↔
    w.bytesAt path = some content ∧ isTooLarge content.length D.settings = false := by
  rw [taken, Option.filter_eq_some_iff, Bool.not_eq_true']

theorem taken_none (h : taken D w path = none) :
    w.bytesAt path = none ∨ ∃ content, w.bytesAt path = some content ∧
      isTooLarge content.length D.settings = true := by
  cases hread : w.bytesAt path with
  | none => exact Or.inl rfl
  | some content =>
      refine Or.inr ⟨content, rfl, ?_⟩
      by_contra hlarge
      have htaken := taken_some_iff.2 ⟨hread, Bool.eq_false_of_not_eq_true hlarge⟩
      cases h.symm.trans htaken

theorem run_handleCreate_skip (hq : w.log.oplogPersistQueue = [])
    (h : isExcluded path D.settings = true ∨ taken D w path = none) :
    ∃ w', run (handleCreate D path) w = some (.ok (), w') ∧
      Ends w.registry w.log.pendingOps w' := by
  cases hexcl : isExcluded path D.settings with
  | true => exact ⟨w, by simp [handleCreate, hexcl], rfl, rfl, hq⟩
  | false =>
      have hnone : taken D w path = none := h.resolve_left (by rw [hexcl]; exact nofun)
      refine ⟨{ w with hlc := Hlc.now w.hlc w.wallTime, wallReads := w.wallReads + 1 }, ?_,
        rfl, rfl, hq⟩
      rcases taken_none hnone with hread | ⟨content, hread, hlarge⟩
      · rw [bytesAt] at hread
        simp [handleCreate, hexcl, bytesAt, hread]
      · rw [bytesAt] at hread
        simp [handleCreate, hexcl, bytesAt, hread, hlarge]

/-- A file that is taken is registered and recorded as a create. -/
theorem run_handleCreate (hq : w.log.oplogPersistQueue = [])
    (hexcl : isExcluded path D.settings = false) (htaken : taken D w path = some content) :
    ∃ hlc w', run (handleCreate D path) w = some (.ok (), w') ∧
      Ends ((w.registry.registerFile D path hlc (D.sha256Hex content) none).1.setHeadVersion
          (w.registry.registerFile D path hlc (D.sha256Hex content) none).2
          (Ops.create (w.registry.registerFile D path hlc (D.sha256Hex content) none).2 path
            (D.sha256Hex content) hlc).id)
        (w.log.pendingOps ++ [Ops.create
          (w.registry.registerFile D path hlc (D.sha256Hex content) none).2 path
            (D.sha256Hex content) hlc]) w' := by
  obtain ⟨hread, hlarge⟩ := taken_some_iff.1 htaken
  generalize hts : Hlc.now w.hlc w.wallTime = hlc
  generalize hreg : w.registry.registerFile D path hlc (D.sha256Hex content) none = reg
  generalize hop : Ops.create reg.2 path (D.sha256Hex content) hlc = op
  obtain ⟨w', hrun, hw'⟩ := run_recordVersion (w := { w with
      hlc := hlc
      wallReads := w.wallReads + 1
      registry := reg.1
      contentStore := w.contentStore.set (D.sha256Hex content) content }) hq op reg.2 op.id
  refine ⟨hlc, w', ?_, hreg.symm ▸ hop.symm ▸ hw'⟩
  rw [bytesAt] at hread
  simp only [handleCreate, hexcl, Bool.false_eq_true, if_false, run_bind, run_hlcNow,
    Option.bind_some, resume_ok, run_read, bytesAt, hread, hlarge, run_hashContent,
    OperationLogger.registerFile, run_modifyGet, run_pause, run_pure, run_put, hts, hreg, hop]
  simpa only [run_bind] using hrun

theorem run_flushModify_untracked (h : w.registry.getByPath path = none) :
    run (flushModify D path) w = run (handleCreate D path) w := by
  simp [flushModify, OperationLogger.getByPath, h]

/-- Nothing that can be taken, or nothing new. -/
theorem run_flushModify_skip (hq : w.log.oplogPersistQueue = [])
    (h : w.registry.getByPath path = some e)
    (hskip : ∀ content, taken D w path = some content → D.sha256Hex content = e.contentHash) :
    ∃ w', run (flushModify D path) w = some (.ok (), w') ∧
      Ends w.registry w.log.pendingOps w' := by
  have hid : w.registry.getById e.id = some e := (path_of_getByPath h).2
  refine ⟨w, ?_, rfl, rfl, hq⟩
  cases htaken : taken D w path with
  | none =>
      rcases taken_none htaken with hread | ⟨content, hread, hlarge⟩
      · simp [flushModify, OperationLogger.getByPath, h, hread]
      · simp [flushModify, OperationLogger.getByPath, h, hread, hlarge]
  | some content =>
      obtain ⟨hread, hlarge⟩ := taken_some_iff.1 htaken
      simp [flushModify, OperationLogger.getByPath, h, hread, hlarge, current, hid,
        hskip content htaken]

theorem run_flushModify (hq : w.log.oplogPersistQueue = [])
    (h : w.registry.getByPath path = some e) (htaken : taken D w path = some content)
    (hnew : e.contentHash ≠ D.sha256Hex content) (hheads : ¬ e.TwoHeaded) :
    ∃ hlc w', run (flushModify D path) w = some (.ok (), w') ∧
      Ends ((w.registry.updateContentHash path (D.sha256Hex content) hlc none).setHeadVersion e.id
          (Ops.update e.id path (D.sha256Hex content) hlc e.headVersionId).id)
        (w.log.pendingOps ++
          [Ops.update e.id path (D.sha256Hex content) hlc e.headVersionId]) w' := by
  obtain ⟨hread, hlarge⟩ := taken_some_iff.1 htaken
  have hid : w.registry.getById e.id = some e := (path_of_getByPath h).2
  generalize hts : Hlc.now w.hlc w.wallTime = hlc
  generalize hop : Ops.update e.id path (D.sha256Hex content) hlc e.headVersionId = op
  obtain ⟨w', hrun, hw'⟩ := run_recordVersion (w := { w with
      hlc := hlc
      wallReads := w.wallReads + 1
      registry := w.registry.updateContentHash path (D.sha256Hex content) hlc none
      contentStore := w.contentStore.set (D.sha256Hex content) content }) hq op e.id op.id
  refine ⟨hlc, w', ?_, hop.symm ▸ hw'⟩
  simp only [flushModify, OperationLogger.getByPath, run_bind, run_get, run_pure, h,
    Option.bind_some, resume_ok, run_read, hread, hlarge, Bool.false_eq_true, if_false,
    run_hashContent, current, hid, Option.getD_some, hnew.symm, hheads, run_hlcNow, run_put,
    run_updateRegistry, hts, hop]
  simpa only [run_bind] using hrun

/-- A save with the markers still there is tracked but not recorded. -/
theorem run_flushModify_marked (hq : w.log.oplogPersistQueue = [])
    (h : w.registry.getByPath path = some e) (htaken : taken D w path = some content)
    (hnew : e.contentHash ≠ D.sha256Hex content) (hheads : e.TwoHeaded)
    (hmarkers : hasConflictMarkers (D.decode content) = true) :
    ∃ hlc w', run (flushModify D path) w = some (.ok (), w') ∧
      Ends (w.registry.updateContentHash path (D.sha256Hex content) hlc none)
        w.log.pendingOps w' := by
  obtain ⟨hread, hlarge⟩ := taken_some_iff.1 htaken
  have hid : w.registry.getById e.id = some e := (path_of_getByPath h).2
  generalize hts : Hlc.now w.hlc w.wallTime = hlc
  refine ⟨hlc, { w with
      hlc := hlc
      wallReads := w.wallReads + 1
      registry := w.registry.updateContentHash path (D.sha256Hex content) hlc none
      contentStore := w.contentStore.set (D.sha256Hex content) content }, ?_, rfl, rfl, hq⟩
  simp only [flushModify, OperationLogger.getByPath, run_bind, run_get, run_pure, h,
    Option.bind_some, resume_ok, run_read, hread, hlarge, Bool.false_eq_true, if_false,
    run_hashContent, current, hid, Option.getD_some, hnew.symm, hheads, if_true, resolveTwoHeaded,
    run_hlcNow, run_put, run_updateRegistry, hmarkers, hts]

/-- A save without the markers is recorded as the merge of both heads. -/
theorem run_flushModify_merged (hq : w.log.oplogPersistQueue = [])
    (h : w.registry.getByPath path = some e) (htaken : taken D w path = some content)
    (hnew : e.contentHash ≠ D.sha256Hex content) (hheads : e.TwoHeaded)
    (hmarkers : hasConflictMarkers (D.decode content) = false) :
    ∃ hlc parents versionId w', run (flushModify D path) w = some (.ok (), w') ∧
      Ends (((w.registry.updateContentHash path (D.sha256Hex content) hlc none).setHeadVersion e.id
          versionId).clearConflict e.id)
        (w.log.pendingOps ++
          [Ops.merge e.id path (D.sha256Hex content) hlc parents versionId]) w' := by
  obtain ⟨hread, hlarge⟩ := taken_some_iff.1 htaken
  have hid : w.registry.getById e.id = some e := (path_of_getByPath h).2
  have htwo := hheads
  obtain ⟨parents, hparents, -⟩ := hheads
  generalize hts : Hlc.now w.hlc w.wallTime = hlc
  generalize hmerge : mergeVersionId D.toPlatform (D.sha256Hex content) parents = versionId
  have hcur : (w.registry.updateContentHash path (D.sha256Hex content) hlc none).getById e.id =
      some { e with contentHash := D.sha256Hex content, hlcTimestamp := hlc } := getById_changeAt h
  obtain ⟨w₁, hrun, hw₁⟩ := run_recordOp (w := { w with
      hlc := hlc
      wallReads := w.wallReads + 1
      registry := w.registry.updateContentHash path (D.sha256Hex content) hlc none
      contentStore := w.contentStore.set (D.sha256Hex content) content }) hq
    (Ops.merge e.id path (D.sha256Hex content) hlc parents versionId)
  refine ⟨hlc, parents, versionId, { w₁ with
      registry := (w₁.registry.setHeadVersion e.id versionId).clearConflict e.id }, ?_,
    congrArg (fun r => (r.setHeadVersion e.id versionId).clearConflict e.id) hw₁.registry,
    hw₁.pending, hw₁.queue⟩
  simp only [flushModify, OperationLogger.getByPath, run_bind, run_get, run_pure, h,
    Option.bind_some, resume_ok, run_read, hread, hlarge, Bool.false_eq_true, if_false,
    run_hashContent, current, hid, Option.getD_some, hnew.symm, htwo, if_true, resolveTwoHeaded,
    run_hlcNow, run_put, run_updateRegistry, hmarkers, hts, hcur, hparents, run_pause, hmerge,
    hrun, OperationLogger.setHeadVersion]

/-- A tombstone where the file is gone. -/
theorem run_handleDelete (hq : w.log.oplogPersistQueue = [])
    (hexcl : isExcluded path D.settings = false) (h : w.registry.getByPath path = some e)
    (hgone : w.disk.get path = none) (hhash : e.contentHash ≠ "") :
    ∃ hlc w', run (handleDelete D path) w = some (.ok (), w') ∧
      if hasPendingCreate e.id w.log then
        Ends (w.registry.markDeleted path hlc) (w.log.pendingOps.filter (·.fileId ≠ e.id)) w'
      else Ends ((w.registry.markDeleted path hlc).setHeadVersion e.id
          (Ops.delete e.id path e.contentHash hlc e.headVersionId).id)
        (w.log.pendingOps ++
          [Ops.delete e.id path e.contentHash hlc e.headVersionId]) w' := by
  generalize hts : Hlc.now w.hlc w.wallTime = hlc
  have hcur : (w.registry.markDeleted path hlc).getById e.id =
      some { e with deleted := true, hlcTimestamp := hlc } := getById_changeAt h
  by_cases hpending : hasPendingCreate e.id w.log = true
  · obtain ⟨w', hrun, hw'⟩ := run_rewriteOpLog (w := { w with
        hlc := hlc
        wallReads := w.wallReads + 1
        registry := w.registry.markDeleted path hlc
        log := { w.log with pendingOps := w.log.pendingOps.filter (·.fileId ≠ e.id) } }) hq
    refine ⟨hlc, w', ?_, ?_⟩
    · simp only [handleDelete, hexcl, Bool.false_eq_true, if_false, run_bind,
        OperationLogger.getByPath, run_get, run_pure, Option.bind_some, resume_ok, h,
        run_fileExists, hgone, Option.isSome_none, run_hlcNow, run_updateRegistry, current, hts,
        hcur, Option.getD_some, hhash, pruneCreateDeletePair, hpending, if_true, setLog, run_modify]
      exact hrun
    · rw [if_pos hpending]
      exact ⟨hw'.registry, hw'.pending, hw'.queue⟩
  · generalize hop : Ops.delete e.id path e.contentHash hlc e.headVersionId = op
    obtain ⟨w', hrun, hw'⟩ := run_recordVersion (w := { w with
        hlc := hlc
        wallReads := w.wallReads + 1
        registry := w.registry.markDeleted path hlc }) hq op e.id op.id
    refine ⟨hlc, w', ?_, ?_⟩
    · simp only [handleDelete, hexcl, Bool.false_eq_true, if_false, run_bind,
        OperationLogger.getByPath, run_get, run_pure, Option.bind_some, resume_ok, h,
        run_fileExists, hgone, Option.isSome_none, run_hlcNow, run_updateRegistry, current, hts,
        hcur, Option.getD_some, hhash, pruneCreateDeletePair, hpending, hop]
      simpa only [run_bind] using hrun
    · rw [if_neg hpending, hop]
      exact hw'

theorem run_handleDelete_placeholder (hq : w.log.oplogPersistQueue = [])
    (hexcl : isExcluded path D.settings = false) (h : w.registry.getByPath path = some e)
    (hgone : w.disk.get path = none) (hhash : e.contentHash = "") :
    ∃ hlc w', run (handleDelete D path) w = some (.ok (), w') ∧
      Ends (w.registry.markDeleted path hlc) w.log.pendingOps w' := by
  generalize hts : Hlc.now w.hlc w.wallTime = hlc
  have hcur : (w.registry.markDeleted path hlc).getById e.id =
      some { e with deleted := true, hlcTimestamp := hlc } := getById_changeAt h
  refine ⟨hlc, { w with
      hlc := hlc
      wallReads := w.wallReads + 1
      registry := w.registry.markDeleted path hlc }, ?_, rfl, rfl, hq⟩
  simp only [handleDelete, hexcl, Bool.false_eq_true, if_false, run_bind, OperationLogger.getByPath,
    run_get, run_pure, Option.bind_some, resume_ok, h, run_fileExists, hgone, Option.isSome_none,
    run_hlcNow, run_updateRegistry, current, hts, hcur, Option.getD_some, hhash, if_true]

theorem run_handleDelete_back (hexcl : isExcluded path D.settings = false)
    (h : w.registry.getByPath path = some e) {file : File} (hback : w.disk.get path = some file) :
    run (handleDelete D path) w = run (flushModify D path) w := by
  simp [handleDelete, hexcl, OperationLogger.getByPath, h, hback]

theorem run_handleRename (hq : w.log.oplogPersistQueue = [])
    (hexcl : ¬ (isExcluded path D.settings && isExcluded oldPath D.settings) = true)
    (h : w.registry.getByPath oldPath = some e) (hhash : e.contentHash ≠ "") :
    ∃ hlc w', run (handleRename D path oldPath) w = some (.ok (), w') ∧
      Ends (w.registry.updatePath oldPath path hlc)
        (w.log.pendingOps ++ [Ops.move e.id path e.contentHash hlc e.headVersionId]) w' := by
  generalize hts : Hlc.now w.hlc w.wallTime = hlc
  have hcur : (w.registry.updatePath oldPath path hlc).getById e.id =
      some { e with path := path, hlcTimestamp := hlc } :=
    (getById_updatePath h path hlc).trans (if_pos rfl)
  obtain ⟨w', hrun, hw'⟩ := run_recordOp (w := { w with
      hlc := hlc
      wallReads := w.wallReads + 1
      registry := w.registry.updatePath oldPath path hlc }) hq
    (Ops.move e.id path e.contentHash hlc e.headVersionId)
  refine ⟨hlc, w', ?_, hw'⟩
  simp only [handleRename, hexcl, Bool.false_eq_true, if_false, run_bind, OperationLogger.getByPath,
    run_get, run_pure, Option.bind_some, resume_ok, h, run_hlcNow, run_updateRegistry, current, hts,
    hcur, Option.getD_some, hhash, hrun]

theorem run_handleRename_placeholder
    (hexcl : ¬ (isExcluded path D.settings && isExcluded oldPath D.settings) = true)
    (h : w.registry.getByPath oldPath = some e) (hhash : e.contentHash = "") :
    run (handleRename D path oldPath) w = run (flushModify D path) { w with
      hlc := Hlc.now w.hlc w.wallTime
      wallReads := w.wallReads + 1
      registry := w.registry.updatePath oldPath path (Hlc.now w.hlc w.wallTime) } := by
  generalize hts : Hlc.now w.hlc w.wallTime = hlc
  have hcur : (w.registry.updatePath oldPath path hlc).getById e.id =
      some { e with path := path, hlcTimestamp := hlc } :=
    (getById_updatePath h path hlc).trans (if_pos rfl)
  simp only [handleRename, hexcl, Bool.false_eq_true, if_false, run_bind, OperationLogger.getByPath,
    run_get, run_pure, Option.bind_some, resume_ok, h, run_hlcNow, run_updateRegistry, current, hts,
    hcur, Option.getD_some, hhash, if_true]

theorem run_handleRename_untracked
    (hexcl : ¬ (isExcluded path D.settings && isExcluded oldPath D.settings) = true)
    (h : w.registry.getByPath oldPath = none) :
    run (handleRename D path oldPath) w = run (handleCreate D path) w := by
  simp [handleRename, hexcl, OperationLogger.getByPath, h]

end Runs

section Handlers

variable (D : Device)

/-- A create event for a file that is tracked has to find the bytes it is tracked with. -/
def CreateKeeps (w : World) (path : Path) : Prop :=
  isExcluded path D.settings = false → ∀ content, taken D w path = some content →
    ∀ e, w.registry.getByPath path = some e → e.deleted = false →
      e.contentHash = D.sha256Hex content

/-- A save of new bytes has to be a live file's, and one without conflict markers if the file
has two heads; the bytes at a tombstone's path must not be recorded. -/
def FlushKeeps (w : World) (path : Path) : Prop :=
  ∀ content, taken D w path = some content → ∀ e, w.registry.getByPath path = some e →
    e.contentHash ≠ D.sha256Hex content →
      (e.deleted = true ↔ e.TwoHeaded ∧ hasConflictMarkers (D.decode content) = true)

/-- A delete takes back a create only if the file was never pushed; a file that is back is saved. -/
def DeleteKeeps (base : JsMap String RemoteFile) (w : World) (path : Path) : Prop :=
  isExcluded path D.settings = false → ∀ e, w.registry.getByPath path = some e →
    if (w.disk.get path).isSome then FlushKeeps D w path
    else e.contentHash ≠ "" → hasPendingCreate e.id w.log = true → base.get e.id = none

/-- A rename moves no tombstone, and is a create where nothing was tracked. -/
def RenameKeeps (w : World) (path oldPath : Path) : Prop :=
  (isExcluded path D.settings && isExcluded oldPath D.settings) = false →
    match w.registry.getByPath oldPath with
    | none => CreateKeeps D w path
    | some e => e.deleted = true → e.contentHash = "" ∧ ∀ content, taken D w path = some content →
        e.TwoHeaded ∧ hasConflictMarkers (D.decode content) = true

variable {D} {base : JsMap String RemoteFile} {w : World} {path oldPath : Path} {e : FileEntry}

/-- The handler runs through, and the pending ops stay faithful exactly under a condition. -/
def Handles (base : JsMap String RemoteFile) (t : Async Unit) (w : World) (cond : Prop) : Prop :=
  ∃ w', run t w = some (.ok (), w') ∧ Ready w' ∧ (Faithful base w' ↔ cond)

theorem handles_quiet {t : Async Unit} {cond : Prop} (h : Faithful base w) (hready : Ready w)
    (hcond : cond) (hrun : ∃ w', run t w = some (.ok (), w') ∧
      Ends w.registry w.log.pendingOps w') : Handles base t w cond := by
  obtain ⟨w', hrun, hw'⟩ := hrun
  refine ⟨w', hrun, ready_quiet hready hw', iff_of_true (fun id => ?_) hcond⟩
  rw [hw'.pending, hw'.registry]
  exact h id

theorem handles_handleCreate (hsha : ∀ content, D.sha256Hex content ≠ "") (h : Faithful base w)
    (hready : Ready w) : Handles base (handleCreate D path) w (CreateKeeps D w path) := by
  by_cases hskip : isExcluded path D.settings = true ∨ taken D w path = none
  · refine handles_quiet h hready ?_ (run_handleCreate_skip hready.queue hskip)
    intro hexcl content htaken
    rcases hskip with hskip | hskip
    · cases hexcl.symm.trans hskip
    · cases hskip.symm.trans htaken
  rw [not_or] at hskip
  have hexcl := Bool.eq_false_of_not_eq_true hskip.1
  obtain ⟨content, htaken⟩ := Option.ne_none_iff_exists'.1 hskip.2
  obtain ⟨hlc, w', hrun, hw'⟩ := run_handleCreate hready.queue hexcl htaken
  refine ⟨w', hrun, ready_push hready (hsha content) hw', ?_⟩
  cases hget : w.registry.getByPath path with
  | none =>
      obtain ⟨hfresh, hreg⟩ := registerFile_new (D := D) hget hlc (D.sha256Hex content) none
      rw [hreg] at hw'
      refine iff_of_true ((faithful_push_iff h hw' fun id hid => ?_).2 ?_) fun _ _ _ e he =>
        by cases hget.symm.trans he
      · rw [live_setHeadVersion, live_insert]
        exact if_neg hid
      · rw [live_setHeadVersion, live_insert]
        exact (if_pos rfl).symm
  | some e =>
      obtain ⟨hpath, he⟩ := path_of_getByPath hget
      rw [registerFile_tracked hget] at hw'
      refine (faithful_push_iff h hw' fun id hid => ?_).trans ?_
      · rw [live_setHeadVersion, live_resurrect he, if_neg fun hc => hid hc.1]
      · rw [live_setHeadVersion]
        change some (⟨path, D.sha256Hex content⟩ : RemoteFile) = live _ e.id ↔ _
        rw [live_resurrect he, hpath]
        cases hdel : e.deleted with
        | true =>
            refine iff_of_true (if_pos ⟨rfl, rfl⟩).symm fun _ _ _ e' he' hlive => ?_
            obtain rfl := Option.some.inj (hget.symm.trans he')
            cases hdel.symm.trans hlive
        | false =>
            have hfile : live w.registry e.id = some ⟨path, e.contentHash⟩ := by
              rw [live_some he, fileOf_live hdel, hpath]
            rw [if_neg (fun hc => by cases hc.2), hfile]
            constructor
            · intro hsame _ content' htaken' e' he' _
              obtain rfl := Option.some.inj (hget.symm.trans he')
              obtain rfl := Option.some.inj (htaken.symm.trans htaken')
              exact (RemoteFile.mk.inj (Option.some.inj hsame)).2.symm
            · intro hkeeps
              rw [hkeeps hexcl content htaken e hget hdel]

/-- What a save leaves of the file, given what the entry becomes. -/
theorem live_saved {r : FileRegistry} (h : r.getByPath path = some e) (hash : String) (hlc : Hlc)
    (id : String) : live (r.updateContentHash path hash hlc none) id =
      if e.id = id then (if e.deleted then none else some ⟨path, hash⟩) else live r id := by
  rw [FileRegistry.updateContentHash, live_changeAt h]
  split
  · rw [← (path_of_getByPath h).1]
    rfl
  · rfl

/-- A save that is recorded. -/
theorem faithful_save_iff (h : Faithful base w) (hget : w.registry.getByPath path = some e)
    {op : Operation} {hash : String} (hlc : Hlc) {r : FileRegistry} {w' : World}
    (hid : op.fileId = e.id) (hop : outcome op = some ⟨path, hash⟩)
    (hr : ∀ id, live r id = live (w.registry.updateContentHash path hash hlc none) id)
    (hw' : Ends r (w.log.pendingOps ++ [op]) w') : Faithful base w' ↔ e.deleted = false := by
  refine (faithful_push_iff h hw' fun id hne => ?_).trans ?_
  · rw [hr, live_saved hget, if_neg (hid ▸ hne)]
  · rw [hid, hop, hr, live_saved hget, if_pos rfl]
    cases e.deleted <;> simp

theorem handles_flushModify (hsha : ∀ content, D.sha256Hex content ≠ "") (h : Faithful base w)
    (hready : Ready w) : Handles base (flushModify D path) w (FlushKeeps D w path) := by
  cases hget : w.registry.getByPath path with
  | none =>
      have hcreate : Handles base (handleCreate D path) w (CreateKeeps D w path) :=
        handles_handleCreate hsha h hready
      obtain ⟨w', hrun, hready', hiff⟩ := hcreate
      refine ⟨w', (run_flushModify_untracked hget).trans hrun, hready', hiff.trans ?_⟩
      exact iff_of_true (fun _ _ _ e he => by cases hget.symm.trans he)
        fun _ _ e he => by cases hget.symm.trans he
  | some e =>
      by_cases hskip : ∀ content, taken D w path = some content →
          D.sha256Hex content = e.contentHash
      · refine handles_quiet h hready ?_ (run_flushModify_skip hready.queue hget hskip)
        intro content htaken e' he' hnew
        obtain rfl := Option.some.inj (hget.symm.trans he')
        exact absurd (hskip content htaken).symm hnew
      simp only [not_forall] at hskip
      obtain ⟨content, htaken, hnew⟩ := hskip
      have hnew : e.contentHash ≠ D.sha256Hex content := Ne.symm hnew
      have hcond : FlushKeeps D w path ↔
          (e.deleted = true ↔ e.TwoHeaded ∧ hasConflictMarkers (D.decode content) = true) := by
        refine ⟨fun hk => hk content htaken e hget hnew, fun hk content' htaken' e' he' _ => ?_⟩
        obtain rfl := Option.some.inj (hget.symm.trans he')
        obtain rfl := Option.some.inj (htaken.symm.trans htaken')
        exact hk
      have he : w.registry.getById e.id = some e := (path_of_getByPath hget).2
      have hpath : e.path = path := (path_of_getByPath hget).1
      by_cases hmarked : e.TwoHeaded ∧ hasConflictMarkers (D.decode content) = true
      · obtain ⟨hlc, w', hrun, hw'⟩ :=
          run_flushModify_marked hready.queue hget htaken hnew hmarked.1 hmarked.2
        refine ⟨w', hrun, ready_quiet hready hw', (faithful_silent_iff h hw' (k := e.id)
          fun id hid => (live_saved hget _ _ id).trans (if_neg hid)).trans ?_⟩
        rw [hcond, live_saved hget, if_pos rfl, live_some he, iff_true_right hmarked]
        cases hdel : e.deleted with
        | true => simp [fileOf_deleted hdel]
        | false => simp [fileOf_live hdel, hpath, hnew]
      · have hlive : FlushKeeps D w path ↔ e.deleted = false := by
          rw [hcond, iff_false_right hmarked, Bool.not_eq_true]
        by_cases hheads : e.TwoHeaded
        · have hmarkers := Bool.eq_false_of_not_eq_true fun hm => hmarked ⟨hheads, hm⟩
          obtain ⟨hlc, parents, versionId, w', hrun, hw'⟩ :=
            run_flushModify_merged hready.queue hget htaken hnew hheads hmarkers
          refine ⟨w', hrun, ready_push hready (hsha content) hw', ?_⟩
          refine (faithful_save_iff h hget hlc rfl rfl (fun id => ?_) hw').trans hlive.symm
          exact (live_clearConflict _).trans (live_setHeadVersion _ _)
        · obtain ⟨hlc, w', hrun, hw'⟩ := run_flushModify hready.queue hget htaken hnew hheads
          refine ⟨w', hrun, ready_push hready (hsha content) hw', ?_⟩
          refine (faithful_save_iff h hget hlc rfl rfl (fun id => ?_) hw').trans hlive.symm
          exact live_setHeadVersion _ _

theorem handles_handleDelete (hsha : ∀ content, D.sha256Hex content ≠ "")
    (hbase : ∀ id f, base.get id = some f → f.contentHash ≠ "") (h : Faithful base w)
    (hready : Ready w) : Handles base (handleDelete D path) w (DeleteKeeps D base w path) := by
  cases hexcl : isExcluded path D.settings with
  | true =>
      refine handles_quiet h hready (fun hx => by cases hexcl.symm.trans hx) ⟨w, ?_, rfl, rfl, ?_⟩
      · simp [handleDelete, hexcl]
      · exact hready.queue
  | false =>
  cases hget : w.registry.getByPath path with
  | none =>
      refine handles_quiet h hready (fun _ e he => by cases hget.symm.trans he)
        ⟨w, ?_, rfl, rfl, hready.queue⟩
      simp [handleDelete, hexcl, OperationLogger.getByPath, hget]
  | some e =>
      have he : w.registry.getById e.id = some e := (path_of_getByPath hget).2
      cases hdisk : w.disk.get path with
      | some file =>
          have hflush : Handles base (flushModify D path) w (FlushKeeps D w path) :=
            handles_flushModify hsha h hready
          obtain ⟨w', hrun, hready', hiff⟩ := hflush
          refine ⟨w', (run_handleDelete_back hexcl hget hdisk).trans hrun, hready', hiff.trans ?_⟩
          rw [DeleteKeeps, hdisk]
          exact ⟨fun hk _ _ _ => hk, fun hk => hk hexcl e hget⟩
      | none =>
          have hcond : DeleteKeeps D base w path ↔ (e.contentHash ≠ "" →
              hasPendingCreate e.id w.log = true → base.get e.id = none) := by
            rw [DeleteKeeps, hdisk]
            refine ⟨fun hk => hk hexcl e hget, fun hk _ e' he' => ?_⟩
            obtain rfl := Option.some.inj (hget.symm.trans he')
            exact hk
          have hmarked : ∀ hlc id, live (w.registry.markDeleted path hlc) id =
              if e.id = id then none else live w.registry id := fun hlc id => live_changeAt hget
          by_cases hhash : e.contentHash = ""
          · obtain ⟨hlc, w', hrun, hw'⟩ :=
              run_handleDelete_placeholder hready.queue hexcl hget hdisk hhash
            refine ⟨w', hrun, ready_quiet hready hw', iff_of_true ?_ ?_⟩
            · refine (faithful_silent_iff h hw' (k := e.id) fun id hid => ?_).2 ?_
              · rw [hmarked, if_neg hid]
              · rw [hmarked, if_pos rfl, live_some he, fileOf_deleted]
                by_contra hlive
                exact hash_ne_of_live hbase h hready he (Bool.eq_false_of_not_eq_true hlive) hhash
            · exact hcond.2 fun hne => absurd hhash hne
          · obtain ⟨hlc, w', hrun, hw'⟩ := run_handleDelete hready.queue hexcl hget hdisk hhash
            by_cases hpending : hasPendingCreate e.id w.log = true
            · rw [if_pos hpending] at hw'
              refine ⟨w', hrun, ⟨hw'.queue, fun op hop => ?_⟩, ?_⟩
              · rw [hw'.pending] at hop
                exact hready.hashed op (List.mem_filter.1 hop).1
              · refine (faithful_prune_iff h hw' fun id hid => ?_).trans ?_
                · rw [hmarked, if_neg hid]
                · rw [hmarked, if_pos rfl, hcond]
                  exact ⟨fun hb _ _ => hb, fun hk => hk hhash hpending⟩
            · rw [if_neg hpending] at hw'
              refine ⟨w', hrun, ready_push hready hhash hw', iff_of_true ?_ ?_⟩
              · refine (faithful_push_iff h hw' fun id hid => ?_).2 ?_
                · rw [live_setHeadVersion, hmarked]
                  exact if_neg hid
                · rw [live_setHeadVersion, hmarked]
                  exact (if_pos rfl).symm
              · exact hcond.2 fun _ hp => absurd hp hpending

theorem handles_handleRename (hsha : ∀ content, D.sha256Hex content ≠ "")
    (hbase : ∀ id f, base.get id = some f → f.contentHash ≠ "") (h : Faithful base w)
    (hready : Ready w) :
    Handles base (handleRename D path oldPath) w (RenameKeeps D w path oldPath) := by
  cases hexcl : isExcluded path D.settings && isExcluded oldPath D.settings with
  | true =>
      refine handles_quiet h hready (fun hx => by cases hexcl.symm.trans hx)
        ⟨w, ?_, rfl, rfl, hready.queue⟩
      simp only [handleRename, hexcl, if_true, run_pure]
  | false =>
  have hexcl' : ¬ (isExcluded path D.settings && isExcluded oldPath D.settings) = true := by
    rw [hexcl]
    exact nofun
  cases hget : w.registry.getByPath oldPath with
  | none =>
      have hcreate : Handles base (handleCreate D path) w (CreateKeeps D w path) :=
        handles_handleCreate hsha h hready
      obtain ⟨w', hrun, hready', hiff⟩ := hcreate
      refine ⟨w', (run_handleRename_untracked hexcl' hget).trans hrun, hready', hiff.trans ?_⟩
      rw [RenameKeeps, hget]
      exact ⟨fun hk _ => hk, fun hk => hk hexcl⟩
  | some e =>
      have he : w.registry.getById e.id = some e := (path_of_getByPath hget).2
      have hcond : RenameKeeps D w path oldPath ↔ (e.deleted = true → e.contentHash = "" ∧
          ∀ content, taken D w path = some content →
            e.TwoHeaded ∧ hasConflictMarkers (D.decode content) = true) := by
        rw [RenameKeeps, hget]
        exact ⟨fun hk => hk hexcl, fun hk _ => hk⟩
      by_cases hhash : e.contentHash = ""
      · have hdel : e.deleted = true := by
          by_contra hlive
          exact hash_ne_of_live hbase h hready he (Bool.eq_false_of_not_eq_true hlive) hhash
        generalize hw₁ : ({ w with
          hlc := Hlc.now w.hlc w.wallTime
          wallReads := w.wallReads + 1
          registry := w.registry.updatePath oldPath path (Hlc.now w.hlc w.wallTime) } : World) = w₁
        have hlog : w₁.log = w.log := hw₁ ▸ rfl
        have hdisk : taken D w₁ path = taken D w path := hw₁ ▸ rfl
        have hreg : w₁.registry = w.registry.updatePath oldPath path (Hlc.now w.hlc w.wallTime) :=
          hw₁ ▸ rfl
        have hready₁ : Ready w₁ := ⟨hlog ▸ hready.queue, hlog ▸ hready.hashed⟩
        -- The tombstone is no live file before the move nor after it.
        have h₁ : Faithful base w₁ := by
          intro id
          rw [hlog, h id, hreg, live_updatePath hget]
          split
          · rename_i hid
            rw [← hid, live_some he, fileOf_deleted hdel]
            exact (if_pos hdel).symm
          · rfl
        have hflush : Handles base (flushModify D path) w₁ (FlushKeeps D w₁ path) :=
          handles_flushModify hsha h₁ hready₁
        obtain ⟨w', hrun, hready', hiff⟩ := hflush
        refine ⟨w', (run_handleRename_placeholder hexcl' hget hhash).trans (hw₁ ▸ hrun), hready',
          hiff.trans ?_⟩
        have hmoved : w₁.registry.getByPath path = some { e with
            path := path
            hlcTimestamp := Hlc.now w.hlc w.wallTime } :=
          hreg ▸ getByPath_updatePath hget path (Hlc.now w.hlc w.wallTime)
        rw [hcond, FlushKeeps, hdisk]
        constructor
        · intro hk _
          refine ⟨hhash, fun content htaken => ?_⟩
          exact (hk content htaken _ hmoved fun hh => hsha content (hh.symm.trans hhash)).1 hdel
        · intro hk content htaken e' he' _
          obtain rfl := Option.some.inj (hmoved.symm.trans he')
          exact iff_of_true hdel ((hk hdel).2 content htaken)
      · obtain ⟨hlc, w', hrun, hw'⟩ := run_handleRename hready.queue hexcl' hget hhash
        refine ⟨w', hrun, ready_push hready hhash hw', ?_⟩
        refine (faithful_push_iff h hw' fun id hid => ?_).trans ?_
        · rw [live_updatePath hget]
          exact if_neg hid
        · have hfile : live (w.registry.updatePath oldPath path hlc) e.id =
              fileOf { e with path := path, hlcTimestamp := hlc } :=
            (live_updatePath hget path hlc).trans (if_pos rfl)
          change some (⟨path, e.contentHash⟩ : RemoteFile) = live _ e.id ↔ _
          rw [hfile, hcond]
          cases hdel : e.deleted with
          | true => simp [fileOf, hhash]
          | false => simp [fileOf]

end Handlers

section Events

/-- What the vault tells the plugin. -/
inductive Event
  | create (path : Path)
  | modify (path : Path)
  | delete (path : Path)
  | rename (path oldPath : Path)
  deriving DecidableEq, Repr

variable (D : Device)

/-- A modify event, with the timer it arms. -/
def modified (path : Path) : Async Unit := do
  handleModify D path
  if isExcluded path D.settings then pure () else timerFires D path

def handle : Event → Async Unit
  | .create path => handleCreate D path
  | .modify path => modified D path
  | .delete path => handleDelete D path
  | .rename path oldPath => handleRename D path oldPath

/-- The vault's files change, and then an event is handled to completion. -/
def step (w : World) (e : JsMap Path File × Event) : Option World :=
  (run (handle D e.2) { w with disk := e.1 }).map Prod.snd

/-- When an event leaves the pending ops faithful. -/
def Keeps (base : JsMap String RemoteFile) (w : World) : Event → Prop
  | .create path => CreateKeeps D w path
  | .modify path => isExcluded path D.settings = false → FlushKeeps D w path
  | .delete path => DeleteKeeps D base w path
  | .rename path oldPath => RenameKeeps D w path oldPath

def KeepsAfter (base : JsMap String RemoteFile) (w : World) (e : JsMap Path File × Event) : Prop :=
  Keeps D base { w with disk := e.1 } e.2

variable {D} {base : JsMap String RemoteFile} {w w' : World} {path : Path}

theorem handles_modified (hsha : ∀ content, D.sha256Hex content ≠ "") (h : Faithful base w)
    (hready : Ready w) : Handles base (modified D path) w
      (isExcluded path D.settings = false → FlushKeeps D w path) := by
  cases hexcl : isExcluded path D.settings with
  | true =>
      refine handles_quiet h hready nofun ⟨w, ?_, rfl, rfl, hready.queue⟩
      simp [modified, handleModify, hexcl]
  | false =>
      have hflush : Handles base (flushModify D path) { w with debounceTimers :=
          (w.debounceTimers.filter (· ≠ path) ++ [path]).filter (· ≠ path) }
          (FlushKeeps D w path) :=
        handles_flushModify hsha h ⟨hready.queue, hready.hashed⟩
      obtain ⟨w', hrun, hready', hiff⟩ := hflush
      refine ⟨w', ?_, hready', hiff.trans ⟨fun hk _ => hk, fun hk => hk rfl⟩⟩
      simp only [modified, handleModify, hexcl, Bool.false_eq_true, if_false, run_bind, run_modify,
        Option.bind_some, resume_ok, timerFires]
      exact hrun

theorem handles_handle (hsha : ∀ content, D.sha256Hex content ≠ "")
    (hbase : ∀ id f, base.get id = some f → f.contentHash ≠ "") (h : Faithful base w)
    (hready : Ready w) (e : Event) : Handles base (handle D e) w (Keeps D base w e) := by
  cases e with
  | create path => exact handles_handleCreate hsha h hready
  | modify path => exact handles_modified hsha h hready
  | delete path => exact handles_handleDelete hsha hbase h hready
  | rename path oldPath => exact handles_handleRename hsha hbase h hready

/-- One event: it is handled, and it keeps the pending ops faithful exactly under its condition. -/
theorem faithful_step_iff (hsha : ∀ content, D.sha256Hex content ≠ "")
    (hbase : ∀ id f, base.get id = some f → f.contentHash ≠ "") (h : Faithful base w)
    (hready : Ready w) (e : JsMap Path File × Event) :
    ∃ w', step D w e = some w' ∧ Ready w' ∧ (Faithful base w' ↔ KeepsAfter D base w e) := by
  obtain ⟨w', hrun, hready', hiff⟩ := handles_handle (w := { w with disk := e.1 }) hsha hbase h
    ⟨hready.queue, hready.hashed⟩ e.2
  exact ⟨w', by rw [step, hrun]; rfl, hready', hiff⟩

/-- The last push took all the ops: the server's files are the registry's live ones. -/
structure Pushed (base : JsMap String RemoteFile) (w : World) : Prop where
  queue : w.log.oplogPersistQueue = []
  pending : w.log.pendingOps = []
  files : ∀ id, base.get id = live w.registry id
  hashed : ∀ id f, base.get id = some f → f.contentHash ≠ ""

theorem faithful_runs_iff (hsha : ∀ content, D.sha256Hex content ≠ "")
    (hbase : ∀ id f, base.get id = some f → f.contentHash ≠ "") (h : Faithful base w)
    (hready : Ready w) (events : List (JsMap Path File × Event)) :
    (∀ done, done <+: events → ∃ w', EventRun.run (step D) w done = some w' ∧ Faithful base w') ↔
      EventRun.Along (step D) (KeepsAfter D base) w events := by
  induction events generalizing w with
  | nil =>
      refine iff_of_true (fun done hd => ?_) trivial
      obtain rfl := List.prefix_nil.1 hd
      exact ⟨w, rfl, h⟩
  | cons e events ih =>
      obtain ⟨w₁, hstep, hready₁, hiff⟩ := faithful_step_iff hsha hbase h hready e
      constructor
      · intro hall
        have h₁ : Faithful base w₁ := by
          obtain ⟨w', hrun, hw'⟩ := hall [e] (List.prefix_append [e] events)
          obtain ⟨w₂, hstep₂, hrun⟩ := EventRun.run_cons.1 hrun
          obtain rfl := Option.some.inj (hstep.symm.trans hstep₂)
          obtain rfl := Option.some.inj hrun
          exact hw'
        refine ⟨hiff.1 h₁, fun t ht => ?_⟩
        obtain rfl := Option.some.inj (hstep.symm.trans ht)
        refine (ih h₁ hready₁).1 fun done hd => ?_
        obtain ⟨w', hrun, hw'⟩ := hall (e :: done) (List.cons_prefix_cons.2 ⟨rfl, hd⟩)
        obtain ⟨w₂, hstep₂, hrun⟩ := EventRun.run_cons.1 hrun
        obtain rfl := Option.some.inj (hstep.symm.trans hstep₂)
        exact ⟨w', hrun, hw'⟩
      · rintro ⟨hkeeps, hrest⟩ done hd
        cases done with
        | nil => exact ⟨w, rfl, h⟩
        | cons e' done =>
            obtain ⟨rfl, hprefix⟩ := List.cons_prefix_cons.1 hd
            obtain ⟨w', hrun, hw'⟩ := (ih (hiff.2 hkeeps) hready₁).2 (hrest w₁ hstep) done hprefix
            exact ⟨w', EventRun.run_cons.2 ⟨w₁, hstep, hrun⟩, hw'⟩

/-- From a pushed state: every event of a run is handled, and after each of them the pending ops
replay to the registry's live files, exactly when each event meets its condition in the state it
happens in. -/
theorem pendingOps_faithful_iff (hsha : ∀ content, D.sha256Hex content ≠ "") (h : Pushed base w)
    (events : List (JsMap Path File × Event)) :
    (∀ done, done <+: events → ∃ w', EventRun.run (step D) w done = some w' ∧ Faithful base w') ↔
      EventRun.Along (step D) (KeepsAfter D base) w events := by
  refine faithful_runs_iff hsha h.hashed (fun id => ?_) ⟨h.queue, ?_⟩ events
  · rw [h.pending]
    exact h.files id
  · rw [h.pending]
    exact nofun

/-- A device whose hashes are never empty. -/
def hexDevice : Device :=
  { asciiDevice with sha256Hex := fun bytes => "#" ++ asciiPlatform.sha256Hex bytes }

theorem sha256Hex_ne_empty (content : Bytes) : hexDevice.sha256Hex content ≠ "" := by
  intro h
  have hlength := congrArg String.length h
  simp [hexDevice] at hlength

def noteAt (bytes : Bytes) : JsMap Path File := JsMap.ofList [("n.md", ⟨bytes, 0⟩)]

/-- `n.md` as it was pushed. -/
def pushedNote : World :=
  atRest [("n.md", [104])] (empty.insert (fileAt "f" "n.md" "#h" 1) (by decide))

def pushedFiles : JsMap String RemoteFile := JsMap.ofList [("f", ⟨"n.md", "#h"⟩)]

theorem pushed_pushedNote : Pushed pushedFiles pushedNote := by
  have hfiles : ∀ id, pushedFiles.get id = if "f" = id then some ⟨"n.md", "#h"⟩ else none :=
    fun id => JsMap.get_set ..
  refine ⟨rfl, rfl, fun id => ?_, fun id f hf => ?_⟩
  · rw [hfiles, pushedNote, atRest, live_insert]
    rfl
  · rw [hfiles] at hf
    split at hf
    · obtain rfl := Option.some.inj hf
      decide
    · cases hf

/-- The pushed note is saved and renamed, a new one is made and taken back, and the first is
deleted. -/
def savedToDeleted : List (JsMap Path File × Event) :=
  [(noteAt [105], .modify "n.md"),
    (JsMap.ofList [("m.md", ⟨[105], 0⟩)], .rename "m.md" "n.md"),
    (JsMap.ofList [("m.md", ⟨[105], 0⟩), ("o.md", ⟨[111], 0⟩)], .create "o.md"),
    (JsMap.ofList [("m.md", ⟨[105], 0⟩)], .delete "o.md"),
    (.empty, .delete "m.md")]

/-- What its events meet on the way. -/
theorem met_savedToDeleted (n : Nat) (p : World → Bool)
    (h : (EventRun.run (step hexDevice) pushedNote (savedToDeleted.take n)).all p = true)
    (w : World) (hrun : EventRun.run (step hexDevice) pushedNote (savedToDeleted.take n) = some w) :
    p w = true := by
  rw [hrun] at h
  exact h

theorem keeps_savedToDeleted :
    EventRun.Along (step hexDevice) (KeepsAfter hexDevice pushedFiles) pushedNote savedToDeleted := by
  have hsaved := met_savedToDeleted 1
    (fun w => (w.registry.getByPath "n.md").any fun e => !e.deleted) (by decide +kernel)
  have hnew := met_savedToDeleted 2 (fun w => (w.registry.getByPath "o.md").isNone)
    (by decide +kernel)
  have hmade := met_savedToDeleted 3
    (fun w => (w.registry.getByPath "o.md").all fun e => e.id ≠ "f") (by decide +kernel)
  have hback := met_savedToDeleted 4
    (fun w => w.log.pendingOps.all fun op => op.type ≠ .create) (by decide +kernel)
  have hfirst : KeepsAfter hexDevice pushedFiles pushedNote (noteAt [105], .modify "n.md") := by
    intro _ content _ e he _
    obtain rfl := Option.some.inj he
    exact iff_of_false nofun nofun
  refine ⟨hfirst, fun w₁ h₁ => ⟨fun _ => ?_, fun w₂ h₂ => ⟨fun _ content _ e he _ => ?_,
    fun w₃ h₃ => ⟨fun _ e he => ?_, fun w₄ h₄ => ⟨fun _ e _ => ?_, fun _ _ => trivial⟩⟩⟩⟩⟩
  · have hlive := hsaved w₁ (EventRun.run_cons.2 ⟨w₁, h₁, rfl⟩)
    change match w₁.registry.getByPath "n.md" with
      | none => CreateKeeps hexDevice _ "m.md"
      | some e => e.deleted = true → _
    cases he : w₁.registry.getByPath "n.md" with
    | none =>
        rw [he] at hlive
        cases hlive
    | some e =>
        rw [he, Option.any_some, Bool.not_eq_true'] at hlive
        intro hdeleted
        rw [hlive] at hdeleted
        cases hdeleted
  · have hnone := hnew w₂ (EventRun.run_cons.2 ⟨w₁, h₁, EventRun.run_cons.2 ⟨w₂, h₂, rfl⟩⟩)
    rw [show w₂.registry.getByPath "o.md" = some e from he] at hnone
    cases hnone
  · have hid := hmade w₃ (EventRun.run_cons.2 ⟨w₁, h₁, EventRun.run_cons.2 ⟨w₂, h₂,
      EventRun.run_cons.2 ⟨w₃, h₃, rfl⟩⟩⟩)
    rw [show w₃.registry.getByPath "o.md" = some e from he, Option.all_some,
      decide_eq_true_eq] at hid
    rw [if_neg (show ¬ ((JsMap.ofList [("m.md", (⟨[105], 0⟩ : File))]).get "o.md").isSome = true by
      decide)]
    exact fun _ _ => (JsMap.get_set_ne _ _ hid.symm).trans rfl
  · have htypes := hback w₄ (EventRun.run_cons.2 ⟨w₁, h₁, EventRun.run_cons.2 ⟨w₂, h₂,
      EventRun.run_cons.2 ⟨w₃, h₃, EventRun.run_cons.2 ⟨w₄, h₄, rfl⟩⟩⟩⟩)
    rw [if_neg (show ¬ ((JsMap.empty : JsMap Path File).get "m.md").isSome = true by decide)]
    intro _ hpending
    obtain ⟨op, hop, hcreate⟩ := List.any_eq_true.1 hpending
    have htype := List.all_eq_true.1 htypes op hop
    rw [decide_eq_true_eq] at htype
    rw [Bool.and_eq_true, decide_eq_true_eq, decide_eq_true_eq] at hcreate
    exact absurd hcreate.2 htype

theorem pendingOps_faithful_saved : ∃ w',
    EventRun.run (step hexDevice) pushedNote savedToDeleted = some w' ∧ Faithful pushedFiles w' :=
  (pendingOps_faithful_iff sha256Hex_ne_empty pushed_pushedNote savedToDeleted).2
    keeps_savedToDeleted _ (List.prefix_refl _)

/-- Deleted, back again, deleted: the create that is taken back had been a create again of a
file that the server has, and its first delete goes with it. -/
theorem pendingOps_lose_delete :
    ¬ ∀ (D : Device) (base : JsMap String RemoteFile) (w w' : World)
      (events : List (JsMap Path File × Event)), (∀ content, D.sha256Hex content ≠ "") →
      Pushed base w → EventRun.run (step D) w events = some w' → Faithful base w' := by
  intro h
  obtain ⟨w', hrun, hbase, hlive⟩ : ∃ w', EventRun.run (step hexDevice) pushedNote
      [(.empty, .delete "n.md"), (noteAt [105], .create "n.md"), (.empty, .delete "n.md")] =
        some w' ∧ (replay pushedFiles w'.log.pendingOps).get "f" = some ⟨"n.md", "#h"⟩ ∧
      live w'.registry "f" = none := ⟨_, rfl, rfl, rfl⟩
  have hfaithful := h hexDevice pushedFiles pushedNote w' _ sha256Hex_ne_empty pushed_pushedNote hrun
  cases hbase.symm.trans ((hfaithful "f").trans hlive)

end Events

end OpsBlobs.PendingReplay
