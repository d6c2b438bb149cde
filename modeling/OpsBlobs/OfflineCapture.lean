import OpsBlobs.MetadataRebuild

namespace OpsBlobs.OfflineCapture

open Types Operations Hlc ExclusionPolicy FileRegistry RegistryScan Coroutine World OperationLogger
  MetadataRebuild

variable {D : Device} {r r' r'' : FileRegistry} {path : Path} {e : FileEntry}
  {f : FileEntry → FileEntry} {hf : ∀ e, (f e).id = e.id ∧ (f e).path = e.path}

section Around

/-- Only entries at one path are written, and only that path is indexed anew. -/
structure Around (path : Path) (r r' : FileRegistry) : Prop where
  entries : ∀ id e, e.path ≠ path → (r'.getById id = some e ↔ r.getById id = some e)
  index : ∀ q, q ≠ path → r'.pathIndex.get q = r.pathIndex.get q

theorem around_self : Around path r r := ⟨fun _ _ _ => Iff.rfl, fun _ _ => rfl⟩

theorem around_trans (h : Around path r r') (h' : Around path r' r'') : Around path r r'' :=
  ⟨fun id e he => (h'.entries id e he).trans (h.entries id e he),
    fun q hq => (h'.index q hq).trans (h.index q hq)⟩

/-- Another path's entry is found as before. -/
theorem getByPath_around (h : Around path r r') {q : Path} (hq : q ≠ path) :
    r'.getByPath q = r.getByPath q := by
  rw [FileRegistry.getByPath, FileRegistry.getByPath, h.index q hq]
  cases hid : r.pathIndex.get q with
  | none => rfl
  | some id =>
      obtain ⟨e, he, hp⟩ := r.indexed q id hid
      exact ((h.entries id e (hp ▸ hq)).2 he).trans he.symm

theorem around_change {id : String} (hpath : ∀ e, r.getById id = some e → e.path = path) :
    Around path r (r.change f hf id) := by
  refine ⟨fun id' e he => ?_, fun q _ => congrArg (·.get q) pathIndex_change⟩
  rw [getById, get_change]
  split
  · rename_i hid
    rw [← hid]
    constructor
    · intro h
      obtain ⟨e₀, he₀, rfl⟩ := Option.map_eq_some_iff.1 h
      exact absurd ((hf e₀).2.trans (hpath e₀ he₀)) he
    · exact fun h => absurd (hpath e h) he
  · exact Iff.rfl

theorem around_changeAt : Around path r (r.changeAt f hf path) := by
  rw [changeAt]
  split
  · exact around_self
  · rename_i id hid
    refine around_change fun e he => ?_
    obtain ⟨e', he', hp⟩ := r.indexed path id hid
    obtain rfl := Option.some.inj (he'.symm.trans he)
    exact hp

theorem around_insert {hfresh : r.entries.get e.id = none} (hpath : e.path = path) :
    Around path r (r.insert e hfresh) := by
  subst hpath
  refine ⟨fun id e' he' => ?_, fun q hq => ?_⟩
  · change (r.entries.set e).get id = some e' ↔ r.entries.get id = some e'
    rw [FileEntries.get_set]
    split
    · rename_i hid
      rw [← hid, hfresh]
      refine iff_of_false (fun h => he' ?_) (by rintro ⟨⟩)
      rw [Option.some.inj h]
    · exact Iff.rfl
  · exact (JsMap.get_set ..).trans (if_neg (Ne.symm hq))

theorem around_setHeadVersion (h : r.getById e.id = some e) (versionId : String) :
    Around e.path r (r.setHeadVersion e.id versionId) := by
  refine around_change fun e' he' => ?_
  obtain rfl := Option.some.inj (h.symm.trans he')
  rfl

theorem getByPath_setHeadVersion (h : r.getByPath path = some e) (versionId : String) :
    (r.setHeadVersion e.id versionId).getByPath path =
      some { e with headVersionId := some versionId } := by
  obtain ⟨id, hid, he⟩ := getByPath_iff.1 h
  rw [FileRegistry.setHeadVersion, getByPath_change, if_pos, h, Option.map_some]
  rw [hid, FileEntries.get_id he]

end Around

section Look

variable (D) in
/-- The pass looks into the file: it is synced, under the cap, and not passed over as unchanged. -/
def Examined (r : FileRegistry) (ref : VaultFileRef) : Prop :=
  isExcluded ref.path D.settings = false ∧ isTooLarge ref.size D.settings = false ∧
    statUnchanged (r.getByPath ref.path) ref = false

variable (D) in
/-- The entry of a file that was looked into: its bytes' hash, and the op, if there is one, as
its head. A tombstone stays one. -/
structure Caught (w₀ : World) (ref : VaultFileRef) (ops : List Operation) (e : FileEntry) :
    Prop where
  hash : ∀ content, w₀.bytesAt ref.path = some content → e.contentHash = D.sha256Hex content
  head : ∀ op ∈ ops, op.path = ref.path → e.headVersionId = some op.id
  deleted : e.deleted = true ↔
    ∃ e₀, w₀.registry.getByPath ref.path = some e₀ ∧ e₀.deleted = true

variable (D) in
/-- What a pass does about one listed file. -/
structure Looked (ref : VaultFileRef) (w : World) (ops : List Operation) (w' : World) : Prop where
  disk : w'.disk = w.disk
  queue : w'.log.oplogPersistQueue = []
  pending : w'.log.pendingOps = w.log.pendingOps ++ ops
  around : Around ref.path w.registry w'.registry
  named : ∀ op ∈ ops, op.path = ref.path
  caught : Examined D w.registry ref →
    ∃ e, w'.registry.getByPath ref.path = some e ∧ Caught D w ref ops e
  gated : isExcluded ref.path D.settings = false → isTooLarge ref.size D.settings = false →
    statUnchanged (w'.registry.getByPath ref.path) ref = true

variable {w w' w₂ : World} {ref : VaultFileRef} {ops : List Operation} {content : Bytes}

theorem looked_skip (hq : w.log.oplogPersistQueue = []) (hexamined : ¬ Examined D w.registry ref)
    (hgated : isExcluded ref.path D.settings = false → isTooLarge ref.size D.settings = false →
      statUnchanged (w.registry.getByPath ref.path) ref = true) : Looked D ref w [] w :=
  ⟨rfl, hq, (List.append_nil _).symm, around_self, nofun, fun h => absurd h hexamined, hgated⟩

theorem looked_quiet (h : Looked D ref w ops w₂) (hquiet : Quiet w₂ w') : Looked D ref w ops w' := by
  obtain ⟨hdisk, hregistry, hpending, hqueue⟩ := hquiet
  refine ⟨hdisk.trans h.disk, hqueue, hpending.trans h.pending, ?_, h.named, ?_, ?_⟩
  · rw [hregistry]
    exact h.around
  · rw [hregistry]
    exact h.caught
  · rw [hregistry]
    exact h.gated

theorem statUnchanged_withStat (e : FileEntry) :
    statUnchanged (some (withStat (some ref.toVaultFileStat) e)) ref = true := by
  simp [statUnchanged, withStat]

/-- A file whose entry, tombstone or placeholder has other bytes. -/
theorem looked_drifted (hq : w.log.oplogPersistQueue = []) {hlcTs : Hlc}
    (hbytes : w.bytesAt ref.path = some content) (hget : w.registry.getByPath ref.path = some e)
    (hdisk : w₂.disk = w.disk)
    (hregistry : w₂.registry = (w.registry.updateContentHash ref.path (D.sha256Hex content) hlcTs
      (some ref.toVaultFileStat)).setHeadVersion e.id
        (driftOp e ref.path (D.sha256Hex content) hlcTs).id)
    (hlog : w₂.log = OpLog.push (driftOp e ref.path (D.sha256Hex content) hlcTs) w.log) :
    Looked D ref w [driftOp e ref.path (D.sha256Hex content) hlcTs] w₂ := by
  have hmid : (w.registry.updateContentHash ref.path (D.sha256Hex content) hlcTs
      (some ref.toVaultFileStat)).getByPath ref.path =
      some (withStat (some ref.toVaultFileStat)
        { e with contentHash := D.sha256Hex content, hlcTimestamp := hlcTs }) := by
    rw [FileRegistry.updateContentHash, getByPath_changeAt, if_pos rfl, hget, Option.map_some]
  have hget₂ : w₂.registry.getByPath ref.path =
      some { withStat (some ref.toVaultFileStat)
        { e with contentHash := D.sha256Hex content, hlcTimestamp := hlcTs } with
        headVersionId := some (driftOp e ref.path (D.sha256Hex content) hlcTs).id } := by
    rw [hregistry]
    exact getByPath_setHeadVersion hmid _
  have haround : Around ref.path w.registry w₂.registry := by
    rw [hregistry]
    obtain ⟨hpath, he⟩ := path_of_getByPath hmid
    have hhead := around_setHeadVersion he (driftOp e ref.path (D.sha256Hex content) hlcTs).id
    exact around_trans around_changeAt (hpath ▸ hhead)
  refine ⟨hdisk, hlog ▸ hq, by rw [hlog]; rfl, haround, ?_, fun _ => ⟨_, hget₂, ?_⟩, fun _ _ => ?_⟩
  · exact fun op hop => List.mem_singleton.1 hop ▸ (driftOp_names e _ _ _).2.1
  · refine ⟨fun content' h' => ?_, fun op hop _ => ?_, ?_⟩
    · obtain rfl := Option.some.inj (hbytes.symm.trans h')
      rfl
    · rw [List.mem_singleton.1 hop]
    · rw [hget]
      simp [withStat]
  · rw [hget₂]
    simp [statUnchanged, withStat]

/-- A file that is not tracked is registered under a new id. -/
theorem looked_new (hq : w.log.oplogPersistQueue = []) {hlcTs : Hlc} {id : String}
    (hbytes : w.bytesAt ref.path = some content) (hget : w.registry.getByPath ref.path = none)
    {hfresh : w.registry.entries.get (withStat (some ref.toVaultFileStat)
      (newEntry id ref.path hlcTs (D.sha256Hex content))).id = none}
    (hdisk : w₂.disk = w.disk)
    (hregistry : w₂.registry = (w.registry.insert (withStat (some ref.toVaultFileStat)
      (newEntry id ref.path hlcTs (D.sha256Hex content))) hfresh).setHeadVersion id
        (Ops.create id ref.path (D.sha256Hex content) hlcTs).id)
    (hlog : w₂.log = OpLog.push (Ops.create id ref.path (D.sha256Hex content) hlcTs) w.log) :
    Looked D ref w [Ops.create id ref.path (D.sha256Hex content) hlcTs] w₂ := by
  have hmid : (w.registry.insert _ hfresh).getByPath ref.path =
      some (withStat (some ref.toVaultFileStat)
        (newEntry id ref.path hlcTs (D.sha256Hex content))) := by
    rw [getByPath_insert]
    exact if_pos rfl
  have hget₂ : w₂.registry.getByPath ref.path =
      some { withStat (some ref.toVaultFileStat)
        (newEntry id ref.path hlcTs (D.sha256Hex content)) with
        headVersionId := some (Ops.create id ref.path (D.sha256Hex content) hlcTs).id } := by
    rw [hregistry]
    exact getByPath_setHeadVersion hmid _
  have haround : Around ref.path w.registry w₂.registry := by
    rw [hregistry]
    obtain ⟨hpath, he⟩ := path_of_getByPath hmid
    have hhead := around_setHeadVersion he (Ops.create id ref.path (D.sha256Hex content) hlcTs).id
    exact around_trans (around_insert rfl) (hpath ▸ hhead)
  refine ⟨hdisk, hlog ▸ hq, by rw [hlog]; rfl, haround, ?_, fun _ => ⟨_, hget₂, ?_⟩, fun _ _ => ?_⟩
  · exact fun op hop => List.mem_singleton.1 hop ▸ rfl
  · refine ⟨fun content' h' => ?_, fun op hop _ => ?_, ?_⟩
    · obtain rfl := Option.some.inj (hbytes.symm.trans h')
      rfl
    · rw [List.mem_singleton.1 hop]
    · rw [hget]
      simp [withStat, newEntry]
  · rw [hget₂]
    simp [statUnchanged, withStat]

/-- A file whose bytes are the entry's: only its stat is new. -/
theorem looked_same (hq : w.log.oplogPersistQueue = []) (hbytes : w.bytesAt ref.path = some content)
    (hget : w.registry.getByPath ref.path = some e) (hsame : e.contentHash = D.sha256Hex content) :
    Looked D ref w []
      { w with registry := w.registry.recordStat ref.path ref.toVaultFileStat } := by
  have hget₂ : (w.registry.recordStat ref.path ref.toVaultFileStat).getByPath ref.path =
      some (withStat (some ref.toVaultFileStat) e) := by
    rw [recordStat, getByPath_changeAt, if_pos rfl, hget, Option.map_some]
  refine ⟨rfl, hq, (List.append_nil _).symm, around_changeAt, nofun, fun _ => ⟨_, hget₂, ?_⟩,
    fun _ _ => ?_⟩
  · refine ⟨fun content' h' => ?_, nofun, ?_⟩
    · obtain rfl := Option.some.inj (hbytes.symm.trans h')
      exact hsame
    · rw [hget]
      simp [withStat]
  · exact (congrArg (statUnchanged · ref) hget₂).trans (statUnchanged_withStat e)

theorem run_captureRef_new (hq : w.log.oplogPersistQueue = [])
    (hexcl : isExcluded ref.path D.settings = false) (hlarge : ¬ isTooLarge ref.size D.settings = true)
    (hget : w.registry.getByPath ref.path = none) (hread : w.bytesAt ref.path = some content)
    (st : CaptureState) :
    ∃ hlcTs id hfresh st' w₂ w', run (captureRef D st ref) w = some (.ok st', w') ∧
      st'.onDisk = st.onDisk ++ [ref.path] ∧ w₂.disk = w.disk ∧
      w₂.registry = (w.registry.insert (withStat (some ref.toVaultFileStat)
        (newEntry id ref.path hlcTs (D.sha256Hex content))) hfresh).setHeadVersion id
          (Ops.create id ref.path (D.sha256Hex content) hlcTs).id ∧
      w₂.log = OpLog.push (Ops.create id ref.path (D.sha256Hex content) hlcTs) w.log ∧
      Quiet w₂ w' := by
  generalize hts : Hlc.now w.hlc (w.wallClock w.wallReads) = hlcTs
  obtain ⟨hfresh, hregister⟩ := registerFile_new (D := D) hget hlcTs (D.sha256Hex content)
    (some ref.toVaultFileStat)
  generalize D.randomUuid w.registry.entries = id at hfresh hregister
  obtain ⟨st', w', htick, honDisk, hquiet⟩ := run_checkpointTick (w := { w with
      contentStore := w.contentStore.set (D.sha256Hex content) content
      hlc := hlcTs
      wallReads := w.wallReads + 1
      registry := (w.registry.insert (withStat (some ref.toVaultFileStat)
        (newEntry id ref.path hlcTs (D.sha256Hex content))) hfresh).setHeadVersion id
          (Ops.create id ref.path (D.sha256Hex content) hlcTs).id
      log := OpLog.push (Ops.create id ref.path (D.sha256Hex content) hlcTs) w.log })
    hq { st with onDisk := st.onDisk ++ [ref.path], changed := true }
  refine ⟨hlcTs, id, hfresh, st', _, w', ?_, honDisk, ?_, ?_, ?_, hquiet⟩
  case refine_2 | refine_3 | refine_4 => rfl
  simp only [captureRef, hexcl, hlarge, OperationLogger.getByPath, hget, statUnchanged,
    run_bind, run_get, run_pure, run_read, hread, run_hashContent, run_putBuffered,
    run_hlcNow, Option.bind_some, resume_ok, Option.map_none, reduceCtorEq, if_false,
    Bool.false_eq_true, World.wallTime, captureDrift, OperationLogger.registerFile, run_modifyGet,
    run_pause, pushOp, setLog, run_modify, OperationLogger.setHeadVersion, run_updateRegistry]
  rw [hts, hregister]
  exact htick

/-- The spec of one file: whatever its path is indexed to, the pass goes on. -/
theorem run_captureRef (hq : w.log.oplogPersistQueue = []) (hbytes : w.bytesAt ref.path = some content)
    (st : CaptureState) : ∃ st' w' ops, run (captureRef D st ref) w = some (.ok st', w') ∧
      Looked D ref w ops w' ∧
      st'.onDisk = st.onDisk ++ (if isExcluded ref.path D.settings then [] else [ref.path]) := by
  by_cases hexcl : isExcluded ref.path D.settings = true
  · refine ⟨st, w, [], by simp [captureRef, hexcl], looked_skip hq ?_ ?_, by simp [hexcl]⟩
    · exact fun h => by cases hexcl.symm.trans h.1
    · exact fun h => by cases hexcl.symm.trans h
  replace hexcl := Bool.eq_false_of_not_eq_true hexcl
  rw [hexcl]
  by_cases hlarge : isTooLarge ref.size D.settings = true
  · refine ⟨{ st with onDisk := st.onDisk ++ [ref.path] }, w, [], ?_, looked_skip hq ?_ ?_, rfl⟩
    · simp [captureRef, hexcl, hlarge]
    · exact fun h => by cases hlarge.symm.trans h.2.1
    · exact fun _ h => by cases hlarge.symm.trans h
  by_cases hstat : statUnchanged (w.registry.getByPath ref.path) ref = true
  · refine ⟨{ st with onDisk := st.onDisk ++ [ref.path] }, w, [], ?_, looked_skip hq ?_ ?_, rfl⟩
    · simp [captureRef, hexcl, hlarge, OperationLogger.getByPath, hstat]
    · exact fun h => by cases hstat.symm.trans h.2.2
    · exact fun _ _ => hstat
  cases hget : w.registry.getByPath ref.path with
  | none =>
      obtain ⟨hlcTs, id, hfresh, st', w₂, w', hrun, honDisk, hdisk, hregistry, hlog, hquiet⟩ :=
        run_captureRef_new hq hexcl hlarge hget hbytes st
      exact ⟨st', w', _, hrun,
        looked_quiet (looked_new hq hbytes hget hdisk hregistry hlog) hquiet, honDisk⟩
  | some e =>
      rw [hget] at hstat
      by_cases hsame : e.contentHash = D.sha256Hex content
      · have hid : w.registry.getById e.id = some e := (path_of_getByPath hget).2
        refine ⟨{ st with onDisk := st.onDisk ++ [ref.path] }, _, [], ?_,
          looked_same hq hbytes hget hsame, rfl⟩
        simp [captureRef, hexcl, hlarge, OperationLogger.getByPath, hget, hstat, hbytes, current,
          hid, hsame]
      · obtain ⟨hlcTs, st', w₂, w', hrun, honDisk, hdisk, hregistry, hlog, hquiet⟩ :=
          run_captureRef_drifted st hexcl hlarge hget hbytes hstat hsame hq
        exact ⟨st', w', _, hrun,
          looked_quiet (looked_drifted hq hbytes hget hdisk hregistry hlog) hquiet, honDisk⟩

end Look

section Scan

variable (D) in
/-- Between two files of a pass that began in `w₀`. -/
structure Scanned (w₀ : World) (done : List VaultFileRef) (ops : List Operation) (w : World) :
    Prop where
  disk : w.disk = w₀.disk
  queue : w.log.oplogPersistQueue = []
  pending : w.log.pendingOps = w₀.log.pendingOps ++ ops
  entries : ∀ id e, e.path ∉ done.map (·.path) →
    (w.registry.getById id = some e ↔ w₀.registry.getById id = some e)
  index : ∀ q, q ∉ done.map (·.path) → w.registry.pathIndex.get q = w₀.registry.pathIndex.get q
  named : ∀ op ∈ ops, op.path ∈ done.map (·.path)
  caught : ∀ ref ∈ done, Examined D w₀.registry ref →
    ∃ e, w.registry.getByPath ref.path = some e ∧ Caught D w₀ ref ops e
  gated : ∀ ref ∈ done, isExcluded ref.path D.settings = false →
    isTooLarge ref.size D.settings = false →
    statUnchanged (w.registry.getByPath ref.path) ref = true

variable {w₀ w w' : World} {done : List VaultFileRef} {ref : VaultFileRef}
  {ops ops' : List Operation}

theorem scanned_start (hq : w₀.log.oplogPersistQueue = []) : Scanned D w₀ [] [] w₀ :=
  ⟨rfl, hq, (List.append_nil _).symm, fun _ _ _ => Iff.rfl, fun _ _ => rfl, nofun, nofun, nofun⟩

/-- A file that is still to come has the entry it had. -/
theorem getByPath_scanned (h : Scanned D w₀ done ops w) {q : Path} (hq : q ∉ done.map (·.path)) :
    w.registry.getByPath q = w₀.registry.getByPath q := by
  rw [FileRegistry.getByPath, FileRegistry.getByPath, h.index q hq]
  cases hid : w₀.registry.pathIndex.get q with
  | none => rfl
  | some id =>
      obtain ⟨e, he, hp⟩ := w₀.registry.indexed q id hid
      exact ((h.entries id e (hp ▸ hq)).2 he).trans he.symm

theorem scanned_step (h : Scanned D w₀ done ops w) (hnew : ref.path ∉ done.map (·.path))
    (hlook : Looked D ref w ops' w') : Scanned D w₀ (done ++ [ref]) (ops ++ ops') w' := by
  have hpaths : ∀ q, q ∉ (done ++ [ref]).map (·.path) → q ≠ ref.path ∧ q ∉ done.map (·.path) := by
    intro q hq
    rw [List.map_append, List.mem_append, not_or, List.map_singleton, List.mem_singleton] at hq
    exact ⟨hq.2, hq.1⟩
  have hbefore : w.registry.getByPath ref.path = w₀.registry.getByPath ref.path :=
    getByPath_scanned h hnew
  have hearlier : ∀ k ∈ done, k.path ≠ ref.path ∧
      w'.registry.getByPath k.path = w.registry.getByPath k.path := by
    intro k hk
    have hne : k.path ≠ ref.path := fun hp => hnew (hp ▸ List.mem_map_of_mem hk)
    exact ⟨hne, getByPath_around hlook.around hne⟩
  refine ⟨hlook.disk.trans h.disk, hlook.queue, ?_, ?_, ?_, ?_, ?_, ?_⟩
  · rw [hlook.pending, h.pending, List.append_assoc]
  · intro id e he
    exact (hlook.around.entries id e (hpaths _ he).1).trans (h.entries id e (hpaths _ he).2)
  · intro q hq
    exact (hlook.around.index q (hpaths q hq).1).trans (h.index q (hpaths q hq).2)
  · intro op hop
    rw [List.map_append, List.mem_append]
    rcases List.mem_append.1 hop with hop | hop
    · exact Or.inl (h.named op hop)
    · exact Or.inr (List.mem_singleton.2 (hlook.named op hop))
  · intro k hk hexamined
    rcases List.mem_append.1 hk with hk | hk
    · obtain ⟨e, he, hcaught⟩ := h.caught k hk hexamined
      obtain ⟨hne, hsame⟩ := hearlier k hk
      refine ⟨e, hsame.trans he, hcaught.hash, fun op hop hp => ?_, hcaught.deleted⟩
      rcases List.mem_append.1 hop with hop | hop
      · exact hcaught.head op hop hp
      · exact absurd (hp.symm.trans (hlook.named op hop)) hne
    · obtain rfl := List.mem_singleton.1 hk
      rw [Examined, ← hbefore] at hexamined
      obtain ⟨e, he, hcaught⟩ := hlook.caught hexamined
      refine ⟨e, he, fun content hbytes => ?_, fun op hop hp => ?_, hbefore ▸ hcaught.deleted⟩
      · rw [bytesAt, ← h.disk] at hbytes
        exact hcaught.hash content hbytes
      · rcases List.mem_append.1 hop with hop | hop
        · exact absurd (hp ▸ h.named op hop) hnew
        · exact hcaught.head op hop hp
  · intro k hk hexcl hlarge
    rcases List.mem_append.1 hk with hk | hk
    · rw [(hearlier k hk).2]
      exact h.gated k hk hexcl hlarge
    · obtain rfl := List.mem_singleton.1 hk
      exact hlook.gated hexcl hlarge

/-- The scan of the listing: each file is looked at once. -/
theorem run_captureRefs (h : Scanned D w₀ done ops w) (st : CaptureState) {rest : List VaultFileRef}
    (hnodup : ((done ++ rest).map (·.path)).Nodup)
    (hlisted : ∀ ref ∈ rest, ∃ content, w₀.bytesAt ref.path = some content) :
    ∃ st' w' ops', run (captureRefs D (fun _ => false) st rest) w = some (.ok (st', false), w') ∧
      Scanned D w₀ (done ++ rest) ops' w' ∧
      ∀ path, path ∈ st'.onDisk ↔ path ∈ st.onDisk ∨
        (path ∈ rest.map (·.path) ∧ isExcluded path D.settings = false) := by
  induction rest generalizing st w done ops with
  | nil =>
      refine ⟨st, w, ops, rfl, (List.append_nil done).symm ▸ h, fun path => ?_⟩
      rw [List.map_nil, or_iff_left fun hp => by cases hp.1]
  | cons ref rest ih =>
      have hnew : ref.path ∉ done.map (·.path) := by
        rw [List.map_append, List.nodup_append] at hnodup
        exact fun hp => hnodup.2.2 _ hp _ (List.mem_map_of_mem List.mem_cons_self) rfl
      obtain ⟨content, hbytes⟩ := hlisted ref List.mem_cons_self
      rw [bytesAt, ← h.disk] at hbytes
      obtain ⟨st₁, w₁, ops₁, hstep, hlook, hst₁⟩ := run_captureRef h.queue hbytes st
      rw [List.append_cons] at hnodup
      obtain ⟨st', w', ops', hrun, h', hst'⟩ := ih (scanned_step h hnew hlook) st₁ hnodup
        fun k hk => hlisted k (List.mem_cons_of_mem _ hk)
      refine ⟨st', w', ops', ?_, List.append_cons done ref rest ▸ h', fun path => ?_⟩
      · simp only [captureRefs, run_bind, run_get, Option.bind_some, resume_ok, Bool.false_eq_true,
          if_false, hstep, hrun]
      · rw [hst', hst₁, List.mem_append, List.map_cons, List.mem_cons, or_assoc]
        refine or_congr_right ?_
        cases hexcl : isExcluded ref.path D.settings with
        | true =>
            simp only [if_true, List.not_mem_nil, false_or]
            refine ⟨fun hp => ⟨Or.inr hp.1, hp.2⟩, fun hp => ⟨hp.1.resolve_left ?_, hp.2⟩⟩
            rintro rfl
            cases hexcl.symm.trans hp.2
        | false =>
            simp only [Bool.false_eq_true, if_false, List.mem_singleton]
            constructor
            · rintro (rfl | hp)
              · exact ⟨Or.inl rfl, hexcl⟩
              · exact ⟨Or.inr hp.1, hp.2⟩
            · rintro ⟨hp | hp, hincl⟩
              · exact Or.inl hp
              · exact Or.inr ⟨hp, hincl⟩

end Scan

section Vanish

/-- Only stamps, heads and tombstones are new, and an entry that becomes a tombstone is the
one that its path is indexed to. -/
structure Fades (r r' : FileRegistry) : Prop where
  index : r'.pathIndex = r.pathIndex
  kept : ∀ id e, r.getById id = some e → ∃ e', r'.getById id = some e'
  entries : ∀ id e', r'.getById id = some e' → ∃ e, r.getById id = some e ∧ e'.path = e.path ∧
    (e.deleted = true → e'.deleted = true) ∧
    (e'.deleted = true → e.deleted = true ∨ r.pathIndex.get e.path = some id)

theorem fades_self : Fades r r :=
  ⟨rfl, fun _ e he => ⟨e, he⟩, fun _ e he => ⟨e, he, rfl, fun hd => hd, Or.inl⟩⟩

theorem fades_trans (h : Fades r r') (h' : Fades r' r'') : Fades r r'' := by
  refine ⟨h'.index.trans h.index, fun id e he => ?_, fun id e'' he'' => ?_⟩
  · obtain ⟨e', he'⟩ := h.kept id e he
    exact h'.kept id e' he'
  · obtain ⟨e', he', hp', hkeep', hnew'⟩ := h'.entries id e'' he''
    obtain ⟨e, he, hp, hkeep, hnew⟩ := h.entries id e' he'
    refine ⟨e, he, hp'.trans hp, fun hd => hkeep' (hkeep hd), fun hd => ?_⟩
    rcases hnew' hd with hd' | hidx
    · exact hnew hd'
    · rw [h.index, hp] at hidx
      exact Or.inr hidx

theorem fades_change {id : String} (hkeep : ∀ e, e.deleted = true → (f e).deleted = true)
    (hnew : ∀ e, r.getById id = some e → (f e).deleted = true →
      e.deleted = true ∨ r.pathIndex.get e.path = some id) : Fades r (r.change f hf id) := by
  refine ⟨pathIndex_change, fun id' e he => ?_, fun id' e' he' => ?_⟩
  · rw [getById, get_change]
    split
    · exact ⟨f e, congrArg (Option.map f) he⟩
    · exact ⟨e, he⟩
  · rw [getById, get_change] at he'
    split at he'
    · rename_i hid
      rw [← hid] at he' ⊢
      obtain ⟨e, he, rfl⟩ := Option.map_eq_some_iff.1 he'
      exact ⟨e, he, (hf e).2, hkeep e, hnew e he⟩
    · exact ⟨e', he', rfl, fun hd => hd, Or.inl⟩

theorem fades_markDeleted (path : Path) (hlc : Hlc) : Fades r (r.markDeleted path hlc) := by
  rw [markDeleted, changeAt]
  split
  · exact fades_self
  · rename_i id hid
    refine fades_change (fun _ _ => rfl) fun e he _ => Or.inr ?_
    obtain ⟨e', he', hp⟩ := r.indexed path id hid
    obtain rfl := Option.some.inj (he'.symm.trans he)
    rw [hp, hid]

theorem fades_setHeadVersion (fileId versionId : String) :
    Fades r (r.setHeadVersion fileId versionId) :=
  fades_change (fun _ h => h) fun _ _ h => Or.inl h

/-- The entry a path is indexed to, as a tombstone. -/
def Tombstoned (r : FileRegistry) (path : Path) : Prop :=
  ∀ e, r.getByPath path = some e → e.deleted = true

theorem tombstoned_markDeleted (path : Path) (hlc : Hlc) :
    Tombstoned (r.markDeleted path hlc) path := by
  intro e he
  rw [markDeleted, getByPath_changeAt, if_pos rfl] at he
  obtain ⟨e₀, -, rfl⟩ := Option.map_eq_some_iff.1 he
  rfl

theorem tombstoned_fades (h : Tombstoned r path) (hr : Fades r r') : Tombstoned r' path := by
  intro e' he'
  obtain ⟨id, hid, he'⟩ := getByPath_iff.1 he'
  obtain ⟨e, he, -, hkeep, -⟩ := hr.entries id e' he'
  rw [hr.index] at hid
  exact hkeep (h e (getByPath_iff.2 ⟨id, hid, he⟩))

variable {w₁ w w' : World} {onDisk : List Path} {entries : List FileEntry}
  {ops : List Operation} {entry : FileEntry}

/-- Between two entries of the last loop, which began in `w₁`. -/
structure Vanished (onDisk : List Path) (w₁ : World) (done : List FileEntry)
    (ops : List Operation) (w : World) : Prop where
  disk : w.disk = w₁.disk
  queue : w.log.oplogPersistQueue = []
  pending : w.log.pendingOps = w₁.log.pendingOps ++ ops
  fades : Fades w₁.registry w.registry
  seen : ∀ q ∈ onDisk, w.registry.getByPath q = w₁.registry.getByPath q
  named : ∀ op ∈ ops, op.path ∉ onDisk
  gone : ∀ e ∈ done, e.path ∉ onDisk → Tombstoned w.registry e.path

theorem vanished_start (hq : w₁.log.oplogPersistQueue = []) : Vanished onDisk w₁ [] [] w₁ :=
  ⟨rfl, hq, (List.append_nil _).symm, fades_self, fun _ _ => rfl, nofun, nofun⟩

theorem vanished_seen (h : Vanished onDisk w₁ entries ops w) (hseen : entry.path ∈ onDisk) :
    Vanished onDisk w₁ (entries ++ [entry]) ops w := by
  refine { h with gone := fun e he hunseen => ?_ }
  rcases List.mem_append.1 he with he | he
  · exact h.gone e he hunseen
  · exact absurd hseen (List.mem_singleton.1 he ▸ hunseen)

/-- A tombstone where no file was seen, with the delete op if there was content to lose. -/
theorem vanished_step (h : Vanished onDisk w₁ entries ops w) (hunseen : entry.path ∉ onDisk)
    {added : List Operation} (hdisk : w'.disk = w.disk)
    (hqueue : w'.log.oplogPersistQueue = []) (hpending : w'.log.pendingOps = w.log.pendingOps ++ added)
    (hnamed : ∀ op ∈ added, op.path = entry.path) (hfades : Fades w.registry w'.registry)
    (haround : Around entry.path w.registry w'.registry)
    (hgone : Tombstoned w'.registry entry.path) :
    Vanished onDisk w₁ (entries ++ [entry]) (ops ++ added) w' := by
  refine ⟨hdisk.trans h.disk, hqueue, ?_, fades_trans h.fades hfades, ?_, ?_, ?_⟩
  · rw [hpending, h.pending, List.append_assoc]
  · intro q hq
    have hne : q ≠ entry.path := fun hp => hunseen (hp ▸ hq)
    exact (getByPath_around haround hne).trans (h.seen q hq)
  · intro op hop
    rcases List.mem_append.1 hop with hop | hop
    · exact h.named op hop
    · exact hnamed op hop ▸ hunseen
  · intro e he he'
    rcases List.mem_append.1 he with he | he
    · exact tombstoned_fades (h.gone e he he') hfades
    · exact List.mem_singleton.1 he ▸ hgone

theorem run_captureVanished (h : Vanished onDisk w₁ entries ops w)
    (htracked : w₁.registry.getById entry.id = some entry) (st : CaptureState)
    (hst : st.onDisk = onDisk) :
    ∃ st' w' added, run (captureVanished st entry) w = some (.ok st', w') ∧ st'.onDisk = onDisk ∧
      Vanished onDisk w₁ (entries ++ [entry]) (ops ++ added) w' := by
  obtain ⟨e, he⟩ := h.fades.kept entry.id entry htracked
  obtain ⟨entry', hentry', hpath, -, -⟩ := h.fades.entries entry.id e he
  obtain rfl := Option.some.inj (htracked.symm.trans hentry')
  by_cases hseen : entry.path ∈ onDisk
  · refine ⟨st, w, [], ?_, hst, (List.append_nil ops).symm ▸ vanished_seen h hseen⟩
    simp [captureVanished, current, he, hpath, hst, hseen]
  generalize hts : Hlc.now w.hlc (w.wallClock w.wallReads) = hlcTs
  have hfades : Fades w.registry (w.registry.markDeleted entry.path hlcTs) :=
    fades_markDeleted entry.path hlcTs
  have hgone := tombstoned_markDeleted (r := w.registry) entry.path hlcTs
  obtain ⟨e₁, he₁⟩ := hfades.kept entry.id e he
  obtain ⟨e', he', hpath₁, -, -⟩ := hfades.entries entry.id e₁ he₁
  obtain rfl := Option.some.inj (he.symm.trans he')
  have hid : e.id = entry.id := FileEntries.get_id he
  by_cases hhash : e₁.contentHash = ""
  · refine ⟨st, { w with
        hlc := hlcTs
        wallReads := w.wallReads + 1
        registry := w.registry.markDeleted entry.path hlcTs }, [], ?_, hst,
      vanished_step h hseen rfl h.queue (List.append_nil _).symm (List.forall_mem_nil _) hfades around_changeAt hgone⟩
    simp [captureVanished, current, he, hpath, hst, hseen, hts, hid, he₁, hhash, World.wallTime]
  · generalize hop : Ops.delete e₁.id e₁.path e₁.contentHash hlcTs e₁.headVersionId = op
    have hhead : Fades (w.registry.markDeleted entry.path hlcTs)
        ((w.registry.markDeleted entry.path hlcTs).setHeadVersion e₁.id op.id) :=
      fades_setHeadVersion e₁.id op.id
    have hid₁ : e₁.id = entry.id := FileEntries.get_id he₁
    have haround := around_setHeadVersion (hid₁ ▸ he₁) op.id
    rw [hpath₁.trans hpath] at haround
    refine ⟨{ st with changed := true }, { w with
        hlc := hlcTs
        wallReads := w.wallReads + 1
        registry := (w.registry.markDeleted entry.path hlcTs).setHeadVersion e₁.id op.id
        log := OpLog.push op w.log }, [op], ?_, hst,
      vanished_step h hseen rfl h.queue rfl ?_ (fades_trans hfades hhead)
        (around_trans around_changeAt haround) (tombstoned_fades hgone hhead)⟩
    · simp [captureVanished, current, he, hpath, hst, hseen, hts, hid, he₁, hhash, World.wallTime,
        hop, pushOp, setLog, OperationLogger.setHeadVersion]
    · intro op' h'
      rw [List.mem_singleton.1 h', ← hop]
      exact hpath₁.trans hpath

theorem run_captureVanished_all {done rest : List FileEntry} (h : Vanished onDisk w₁ done ops w)
    (htracked : ∀ e ∈ rest, w₁.registry.getById e.id = some e) (st : CaptureState)
    (hst : st.onDisk = onDisk) :
    ∃ st' w' ops', run (foldM captureVanished st rest) w = some (.ok st', w') ∧
      Vanished onDisk w₁ (done ++ rest) ops' w' := by
  induction rest generalizing st w done ops with
  | nil => exact ⟨st, w, ops, rfl, (List.append_nil done).symm ▸ h⟩
  | cons entry rest ih =>
      obtain ⟨st₂, w₂, added, hstep, hst₂, h₂⟩ :=
        run_captureVanished h (htracked entry List.mem_cons_self) st hst
      obtain ⟨st', w', ops', hrun, h'⟩ :=
        ih h₂ (fun e he => htracked e (List.mem_cons_of_mem _ he)) st₂ hst₂
      refine ⟨st', w', ops', ?_, List.append_cons done entry rest ▸ h'⟩
      rw [run_foldM_cons, hstep]
      exact hrun

theorem vanished_quiet (h : Vanished onDisk w₁ entries ops w) (hw : Quiet w w') :
    Vanished onDisk w₁ entries ops w' := by
  obtain ⟨hdisk, hregistry, hpending, hqueue⟩ := hw
  refine ⟨hdisk.trans h.disk, hqueue, hpending.trans h.pending, ?_, ?_, h.named, ?_⟩
  · rw [hregistry]
    exact h.fades
  · rw [hregistry]
    exact h.seen
  · rw [hregistry]
    exact h.gone

end Vanish

section Pass

variable {w w' : World}

variable (D) in
/-- The paths under which a pass has to find a file on disk. -/
def Listed (w : World) (path : Path) : Prop :=
  path ∈ (Files.listOf w.disk).map (·.path) ∧ isExcluded path D.settings = false

/-- The entries of the last loop. -/
def tracked (D : Device) (r : FileRegistry) : List FileEntry :=
  r.getActiveEntries.filter (fun entry => !isExcluded entry.path D.settings)

theorem mem_tracked : e ∈ tracked D r ↔
    r.getById e.id = some e ∧ e.deleted = false ∧ isExcluded e.path D.settings = false := by
  rw [tracked, List.mem_filter, getActiveEntries, List.mem_filter, FileEntries.mem_values_iff,
    Bool.not_eq_true', Bool.not_eq_true', and_assoc]
  rfl

theorem paths_listOf (disk : JsMap Path File) :
    (Files.listOf disk).map (·.path) = disk.keys := by
  rw [Files.listOf, List.map_map]
  rfl

theorem bytesAt_listed {ref : VaultFileRef} (h : ref ∈ Files.listOf w.disk) :
    ∃ content, w.bytesAt ref.path = some content := by
  have hkey : ref.path ∈ w.disk.keys := paths_listOf w.disk ▸ List.mem_map_of_mem h
  obtain ⟨file, hfile⟩ := (JsMap.mem_keys_iff _).1 hkey
  exact ⟨file.content, by rw [bytesAt, hfile]; rfl⟩

/-- A pass with nothing else going on: the scan of the listing, and then the tombstones. -/
theorem run_captureOfflineChanges (hq : w.log.oplogPersistQueue = [])
    (hlist : ∃ path, Listed D w path) :
    ∃ w₁ w' onDisk ops ops', run (captureOfflineChanges D (fun _ => false)) w = some (.ok (), w') ∧
      Scanned D w (Files.listOf w.disk) ops w₁ ∧
      Vanished onDisk w₁ (tracked D w₁.registry) ops' w' ∧
      ∀ path, path ∈ onDisk ↔ Listed D w path := by
  obtain ⟨st, w₁, ops, hscan, h₁, hst⟩ := run_captureRefs (scanned_start hq) ⟨[], false, 0⟩
    (by rw [List.nil_append, paths_listOf]; exact w.disk.nodup_keys) fun ref => bytesAt_listed
  rw [List.nil_append] at h₁
  have hmem : ∀ path, path ∈ st.onDisk ↔ Listed D w path := fun path =>
    (hst path).trans (or_iff_right List.not_mem_nil)
  obtain ⟨path, hpath⟩ := hlist
  have hnonempty : st.onDisk ≠ [] := List.ne_nil_of_mem ((hmem path).2 hpath)
  have hstart : Vanished st.onDisk w₁ [] [] w₁ := vanished_start h₁.queue
  have htracked : ∀ e ∈ tracked D w₁.registry, w₁.registry.getById e.id = some e :=
    fun e he => (mem_tracked.1 he).1
  obtain ⟨st', w₂, ops', hloop, h₂⟩ := run_captureVanished_all hstart htracked st rfl
  obtain ⟨w', hflush, hw'⟩ := run_checkpointFlush h₂.queue st'
  rw [List.nil_append] at h₂
  refine ⟨w₁, w', st.onDisk, ops, ops', ?_, h₁, vanished_quiet h₂ hw', hmem⟩
  rw [tracked] at hloop
  simp only [captureOfflineChanges, run_tryFinally, run_bind, run_list, Option.bind_some, resume_ok,
    hscan, Bool.false_eq_true, activeEntries, run_get, run_pure, run_ite, hnonempty, false_and,
    if_false, hloop, hflush, run_pause]

theorem run_captureRefs_settled (st : CaptureState) {rest : List VaultFileRef}
    (hgated : ∀ ref ∈ rest, isExcluded ref.path D.settings = false →
      isTooLarge ref.size D.settings = false →
      statUnchanged (w.registry.getByPath ref.path) ref = true) :
    run (captureRefs D (fun _ => false) st rest) w =
      some (.ok ({ st with onDisk := st.onDisk ++
        (rest.filter (fun ref => !isExcluded ref.path D.settings)).map (·.path) }, false), w) := by
  induction rest generalizing st with
  | nil => simp [captureRefs]
  | cons ref rest ih =>
      have hstep : run (captureRef D st ref) w = some (.ok { st with onDisk := st.onDisk ++
          (if isExcluded ref.path D.settings then [] else [ref.path]) }, w) := by
        cases hexcl : isExcluded ref.path D.settings with
        | true => simp [captureRef, hexcl]
        | false =>
            cases hlarge : isTooLarge ref.size D.settings with
            | true => simp [captureRef, hexcl, hlarge]
            | false =>
                have hstat := hgated ref List.mem_cons_self hexcl hlarge
                simp [captureRef, hexcl, hlarge, OperationLogger.getByPath, hstat]
      have hrest := ih { st with onDisk := st.onDisk ++
        (if isExcluded ref.path D.settings then [] else [ref.path]) }
        fun k hk => hgated k (List.mem_cons_of_mem _ hk)
      simp only [captureRefs, run_bind, run_get, Option.bind_some, resume_ok, Bool.false_eq_true,
        if_false, hstep, hrest, List.append_assoc]
      cases hexcl : isExcluded ref.path D.settings <;> simp [hexcl]

/-- A pass that finds every file gated and no live entry without its file changes nothing. -/
theorem run_captureOfflineChanges_settled (hlist : ∃ path, Listed D w path)
    (hgated : ∀ ref ∈ Files.listOf w.disk, isExcluded ref.path D.settings = false →
      isTooLarge ref.size D.settings = false →
      statUnchanged (w.registry.getByPath ref.path) ref = true)
    (hlive : ∀ e ∈ tracked D w.registry, Listed D w e.path) :
    run (captureOfflineChanges D (fun _ => false)) w = some (.ok (), w) := by
  generalize hst : (⟨((Files.listOf w.disk).filter (fun ref =>
    !isExcluded ref.path D.settings)).map (·.path), false, 0⟩ : CaptureState) = st
  have hscan : run (captureRefs D (fun _ => false) ⟨[], false, 0⟩ (Files.listOf w.disk)) w =
      some (.ok (st, false), w) := by
    rw [run_captureRefs_settled _ hgated, ← hst]
    rfl
  have hseen : ∀ path, Listed D w path → path ∈ st.onDisk := by
    rintro path ⟨hpath, hexcl⟩
    obtain ⟨ref, href, rfl⟩ := List.mem_map.1 hpath
    rw [← hst]
    exact List.mem_map_of_mem (List.mem_filter.2 ⟨href, by rw [hexcl]; rfl⟩)
  obtain ⟨path, hpath⟩ := hlist
  have hnonempty : st.onDisk ≠ [] := List.ne_nil_of_mem (hseen path hpath)
  have hloop : run (foldM captureVanished st (tracked D w.registry)) w = some (.ok st, w) :=
    run_captureVanished_none st fun e he => ⟨(mem_tracked.1 he).1, hseen e.path (hlive e he)⟩
  have hflush : run (checkpointFlush st) w = some (.ok { st with since := 0 }, w) := by
    rw [← hst]
    rfl
  rw [tracked] at hloop
  simp only [captureOfflineChanges, run_tryFinally, run_bind, run_list, Option.bind_some, resume_ok,
    hscan, Bool.false_eq_true, activeEntries, run_get, run_pure, run_ite, hnonempty, false_and,
    if_false, hloop, hflush, run_pause]

variable (D) in
/-- The registry is brought to the disk: each file that was looked into is live with its bytes'
hash and its op as the head, each entry whose file is gone is a tombstone, and a second pass
over the same disk records nothing. -/
structure Converged (w w' : World) : Prop where
  captured : ∀ ref ∈ Files.listOf w.disk, Examined D w.registry ref →
    ∀ content, w.bytesAt ref.path = some content →
    ∃ e, w'.registry.getByPath ref.path = some e ∧ e.deleted = false ∧
      e.contentHash = D.sha256Hex content ∧
      ∀ op ∈ w'.log.pendingOps.drop w.log.pendingOps.length, op.path = ref.path →
        e.headVersionId = some op.id
  vanished : ∀ id e, w.registry.getById id = some e → e.deleted = false →
    isExcluded e.path D.settings = false → e.path ∉ (Files.listOf w.disk).map (·.path) →
    ∃ e', w'.registry.getById id = some e' ∧ e'.deleted = true
  again : ∃ w'', run (captureOfflineChanges D (fun _ => false)) w' = some (.ok (), w'') ∧
    w''.log.pendingOps = w'.log.pendingOps

variable (D) in
/-- No file that the pass looks into lies at a tombstone's path, and a live entry whose file
is gone is the one that its path is indexed to. -/
structure Convergent (w : World) : Prop where
  live : ∀ ref ∈ Files.listOf w.disk, Examined D w.registry ref →
    ∀ e, w.registry.getByPath ref.path = some e → e.deleted = false
  indexed : ∀ id e, w.registry.getById id = some e → e.deleted = false →
    isExcluded e.path D.settings = false → e.path ∉ (Files.listOf w.disk).map (·.path) →
    w.registry.pathIndex.get e.path = some id

/-- A pass with nothing else going on always completes, and brings the registry to the disk
exactly when the state before it is convergent. -/
theorem captureOfflineChanges_converges_iff (hq : w.log.oplogPersistQueue = [])
    (hlist : ∃ path, Listed D w path) :
    ∃ w', run (captureOfflineChanges D (fun _ => false)) w = some (.ok (), w') ∧
      (Converged D w w' ↔ Convergent D w) := by
  obtain ⟨w₁, w', onDisk, ops, ops', hrun, h₁, h₂, hmem⟩ := run_captureOfflineChanges hq hlist
  have hops : w'.log.pendingOps.drop w.log.pendingOps.length = ops ++ ops' := by
    rw [h₂.pending, h₁.pending, List.append_assoc, List.drop_left]
  have hexamined : ∀ ref ∈ Files.listOf w.disk, Examined D w.registry ref →
      ∃ e, w'.registry.getByPath ref.path = some e ∧ Caught D w ref (ops ++ ops') e := by
    intro ref href hex
    obtain ⟨e, he, hcaught⟩ := h₁.caught ref href hex
    have hseen : ref.path ∈ onDisk := (hmem _).2 ⟨List.mem_map_of_mem href, hex.1⟩
    refine ⟨e, (h₂.seen _ hseen).trans he, hcaught.hash, fun op hop hp => ?_, hcaught.deleted⟩
    rcases List.mem_append.1 hop with hop | hop
    · exact hcaught.head op hop hp
    · exact absurd (hp ▸ hseen) (h₂.named op hop)
  have hvanished : ∀ id e, w.registry.getById id = some e → e.deleted = false →
      isExcluded e.path D.settings = false → e.path ∉ (Files.listOf w.disk).map (·.path) →
      ∃ e', w'.registry.getById id = some e' ∧
        (e'.deleted = true ↔ w.registry.pathIndex.get e.path = some id) := by
    intro id e he hlive hexcl hgone
    have he₁ : w₁.registry.getById id = some e := (h₁.entries id e hgone).2 he
    obtain ⟨e', he'⟩ := h₂.fades.kept id e he₁
    obtain ⟨e₀, he₀, hpath, -, hnew⟩ := h₂.fades.entries id e' he'
    obtain rfl := Option.some.inj (he₁.symm.trans he₀)
    have hindex : w₁.registry.pathIndex.get e.path = w.registry.pathIndex.get e.path :=
      h₁.index e.path hgone
    refine ⟨e', he', fun hd => ?_, fun hidx => ?_⟩
    · rcases hnew hd with hd | hidx
      · cases hlive.symm.trans hd
      · exact hindex.symm.trans hidx
    · have hid : e.id = id := FileEntries.get_id he₁
      have htracked : e ∈ tracked D w₁.registry := mem_tracked.2 ⟨hid ▸ he₁, hlive, hexcl⟩
      have hunseen : e.path ∉ onDisk := fun hp => hgone ((hmem e.path).1 hp).1
      refine h₂.gone e htracked hunseen e' (getByPath_iff.2 ⟨id, ?_, he'⟩)
      rw [h₂.fades.index, hindex, hidx]
  refine ⟨w', hrun, fun h => ⟨?_, ?_⟩, fun h => ⟨?_, ?_, ?_⟩⟩
  · intro ref href hex e he
    obtain ⟨content, hbytes⟩ := bytesAt_listed href
    obtain ⟨e', he', hlive, -, -⟩ := h.captured ref href hex content hbytes
    obtain ⟨e'', he'', hcaught⟩ := hexamined ref href hex
    obtain rfl := Option.some.inj (he'.symm.trans he'')
    refine Bool.eq_false_of_not_eq_true fun hd => ?_
    cases hlive.symm.trans (hcaught.deleted.2 ⟨e, he, hd⟩)
  · intro id e he hlive hexcl hgone
    obtain ⟨e', he', hd⟩ := h.vanished id e he hlive hexcl hgone
    obtain ⟨e'', he'', hiff⟩ := hvanished id e he hlive hexcl hgone
    obtain rfl := Option.some.inj (he'.symm.trans he'')
    exact hiff.1 hd
  · intro ref href hex content hbytes
    obtain ⟨e, he, hcaught⟩ := hexamined ref href hex
    refine ⟨e, he, Bool.eq_false_of_not_eq_true fun hd => ?_, hcaught.hash content hbytes, ?_⟩
    · obtain ⟨e₀, he₀, hd₀⟩ := hcaught.deleted.1 hd
      cases (h.live ref href hex e₀ he₀).symm.trans hd₀
    · rw [hops]
      exact hcaught.head
  · intro id e he hlive hexcl hgone
    obtain ⟨e', he', hiff⟩ := hvanished id e he hlive hexcl hgone
    exact ⟨e', he', hiff.2 (h.indexed id e he hlive hexcl hgone)⟩
  · have hdisk : w'.disk = w.disk := h₂.disk.trans h₁.disk
    have hlisted : ∀ path, Listed D w' path ↔ Listed D w path := by
      intro path
      rw [Listed, hdisk]
      rfl
    refine ⟨w', run_captureOfflineChanges_settled ?_ ?_ ?_, rfl⟩
    · obtain ⟨path, hpath⟩ := hlist
      exact ⟨path, (hlisted path).2 hpath⟩
    · intro ref href hexcl hlarge
      rw [hdisk] at href
      rw [h₂.seen ref.path ((hmem _).2 ⟨List.mem_map_of_mem href, hexcl⟩)]
      exact h₁.gated ref href hexcl hlarge
    · intro e' he'
      obtain ⟨he', hlive', hexcl⟩ := mem_tracked.1 he'
      by_contra hgone
      obtain ⟨e, he, hpath, hkeep, -⟩ := h₂.fades.entries e'.id e' he'
      have hlive : e.deleted = false :=
        Bool.eq_false_of_not_eq_true fun hd => by cases hlive'.symm.trans (hkeep hd)
      rw [hpath] at hexcl hgone
      have hunseen : e.path ∉ (Files.listOf w.disk).map (·.path) :=
        fun hp => hgone ((hlisted _).2 ⟨hp, hexcl⟩)
      have he₀ : w.registry.getById e'.id = some e := (h₁.entries _ e hunseen).1 he
      obtain ⟨e'', he'', hiff⟩ := hvanished e'.id e he₀ hlive hexcl hunseen
      obtain rfl := Option.some.inj (he'.symm.trans he'')
      cases hlive'.symm.trans (hiff.2 (h.indexed _ e he₀ hlive hexcl hunseen))

/-- `n.md` is back after its delete was captured, and `m.md` is gone. -/
def restored (deleted : Bool) : World :=
  atRest [("n.md", [104])]
    ((empty.insert { fileAt "f" "n.md" "N" 1 with deleted := deleted } (by cases deleted <;> rfl)).insert
      (fileAt "g" "m.md" "M" 1) (by cases deleted <;> rfl))

theorem listed_restored (deleted : Bool) : ∃ path, Listed asciiDevice (restored deleted) path :=
  ⟨"n.md", List.mem_singleton_self _, by decide⟩

theorem captureOfflineChanges_converges_note : ∃ w',
    run (captureOfflineChanges asciiDevice (fun _ => false)) (restored false) = some (.ok (), w') ∧
    Converged asciiDevice (restored false) w' := by
  obtain ⟨w', hrun, hiff⟩ := captureOfflineChanges_converges_iff (D := asciiDevice)
    (w := restored false) rfl (listed_restored false)
  refine ⟨w', hrun, hiff.2 ⟨?_, ?_⟩⟩
  · intro ref href _ e he
    obtain rfl := List.mem_singleton.1 href
    obtain rfl := Option.some.inj he
    rfl
  · intro id e he _ _ _
    change ((FileEntries.empty.set _).set _).get id = some e at he
    rw [FileEntries.get_set] at he
    split at he
    · rename_i hid
      obtain rfl := Option.some.inj he
      obtain rfl := hid
      rfl
    · rw [FileEntries.get_set] at he
      split at he
      · rename_i hid
        obtain rfl := Option.some.inj he
        obtain rfl := hid
        rfl
      · cases he

/-- A file that lies at a tombstone's path: its update is recorded, but it stays deleted. -/
theorem captureOfflineChanges_keeps_tombstone :
    ¬ ∀ (D : Device) (w : World), w.log.oplogPersistQueue = [] → (∃ path, Listed D w path) →
      ∃ w', run (captureOfflineChanges D (fun _ => false)) w = some (.ok (), w') ∧
        Converged D w w' := by
  intro h
  obtain ⟨w', hrun, hconv⟩ := h asciiDevice (restored true) rfl (listed_restored true)
  obtain ⟨w'', hrun', hdel⟩ : ∃ w'',
      run (captureOfflineChanges asciiDevice (fun _ => false)) (restored true) =
        some (.ok (), w'') ∧
      (w''.registry.getByPath "n.md").map (·.deleted) = some true := ⟨_, rfl, rfl⟩
  obtain ⟨-, rfl⟩ := Prod.mk.inj (Option.some.inj (hrun.symm.trans hrun'))
  obtain ⟨e, he, hlive, -, -⟩ := hconv.captured ⟨⟨0, 1⟩, "n.md"⟩ (List.mem_singleton_self _)
    ⟨by decide, by decide, rfl⟩ [104] rfl
  rw [he, Option.map_some, hlive] at hdel
  cases hdel

end Pass

end OpsBlobs.OfflineCapture
