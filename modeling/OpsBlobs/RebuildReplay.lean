import OpsBlobs.MetadataRebuild

namespace OpsBlobs.RebuildReplay

open Types Operations Hlc ExclusionPolicy FileRegistry RegistryScan Coroutine World OperationLogger
  MetadataRebuild

variable (D : Device)

section Replay

variable {base remote : JsMap String RemoteFile} {ops : List Operation} {id : String}

theorem replay_append (ops' : List Operation) :
    replay remote (ops ++ ops') = replay (replay remote ops) ops' := List.foldl_append ..

/-- Ops that delete nothing overwrite the files they name. -/
theorem replay_sets (h : ∀ op ∈ ops, op.type ≠ .delete) : replay remote ops =
    (ops.map (fun op => (op.fileId, (⟨op.path, op.contentHash⟩ : RemoteFile)))).foldl
      (fun m e => m.set e.1 e.2) remote := by
  induction ops generalizing remote with
  | nil => rfl
  | cons op ops ih =>
      rw [replay, List.foldl_cons, replayOp, if_neg (h op List.mem_cons_self)]
      exact ih fun op' hop => h op' (List.mem_cons_of_mem _ hop)

/-- A file that a replay has no more was deleted by one of the ops. -/
theorem delete_of_replay_none (hbase : remote.get id ≠ none) (h : (replay remote ops).get id = none) :
    ∃ op ∈ ops, op.fileId = id ∧ op.type = .delete := by
  induction ops generalizing remote with
  | nil => exact absurd h hbase
  | cons op ops ih =>
      by_cases hop : op.fileId = id ∧ op.type = .delete
      · exact ⟨op, List.mem_cons_self, hop⟩
      · have hkept : (replayOp remote op).get id ≠ none := by
          rw [replayOp]
          split
          · rename_i htype
            rw [JsMap.get_delete_ne _ fun hid => hop ⟨hid, htype⟩]
            exact hbase
          · rw [JsMap.get_set]
            split
            · exact nofun
            · exact hbase
        obtain ⟨op', hmem, hop'⟩ := ih hkept h
        exact ⟨op', List.mem_cons_of_mem _ hmem, hop'⟩

end Replay


section Drift

variable {w w₀ : World} {r r₁ : FileRegistry} {id : String} {f g : RemoteFile}

def refOf (path : Path) (file : File) : VaultFileRef :=
  ⟨⟨file.mtime, file.content.length⟩, path⟩

theorem mem_listOf {disk : JsMap Path File} {ref : VaultFileRef} :
    ref ∈ Files.listOf disk ↔ ∃ file, disk.get ref.path = some file ∧ refOf ref.path file = ref := by
  constructor
  · intro h
    obtain ⟨⟨path, file⟩, hmem, rfl⟩ := List.mem_map.1 h
    exact ⟨file, (JsMap.mem_entries_iff _).1 hmem, rfl⟩
  · rintro ⟨file, hfile, href⟩
    exact List.mem_map.2 ⟨(ref.path, file), (JsMap.mem_entries_iff _).2 hfile, href⟩

/-- A capture takes the file for the one its entry describes. -/
def Seen (e : FileEntry) (file : File) : Prop :=
  (e.mtime = some file.mtime ∧ e.size = some file.content.length) ∨
    e.contentHash = D.sha256Hex file.content

/-- A path the sync covers: not excluded, and its file, if there is one, under the cap. -/
def Synced (disk : JsMap Path File) (path : Path) : Prop :=
  isExcluded path D.settings = false ∧
    ∀ file, disk.get path = some file → isTooLarge file.content.length D.settings = false

/-- The entry `id` tracks a file that a capture finds changed, to what `f` says. -/
def Drifts (disk : JsMap Path File) (r : FileRegistry) (id : String) (f : RemoteFile) : Prop :=
  ∃ file e, disk.get f.path = some file ∧ Synced D disk f.path ∧ r.getByPath f.path = some e ∧
    e.id = id ∧ ¬ Seen D e file ∧ f.contentHash = D.sha256Hex file.content

variable {D}

theorem drift_refOf {path : Path} {file : File} {e : FileEntry}
    (hfile : w₀.disk.get path = some file) (he : r₁.getByPath path = some e) :
    drift D w₀ r₁ (refOf path file) = some (id, f) ↔ Synced D w₀.disk path ∧ ¬ Seen D e file ∧
      e.id = id ∧ (⟨path, D.sha256Hex file.content⟩ : RemoteFile) = f := by
  have hsynced : Synced D w₀.disk path ↔ (isExcluded path D.settings ||
      isTooLarge file.content.length D.settings) = false := by
    rw [Bool.or_eq_false_iff]
    refine and_congr_right fun _ => ⟨fun h => h file hfile, fun h file' hfile' => ?_⟩
    obtain rfl := Option.some.inj (hfile.symm.trans hfile')
    exact h
  have hseen : Seen D e file ↔ (statUnchanged (some e) (refOf path file) ||
      e.contentHash = D.sha256Hex file.content) = true := by
    rw [Bool.or_eq_true, decide_eq_true_iff, statUnchanged, Bool.and_eq_true]
    exact or_congr_left (and_congr decide_eq_true_iff.symm decide_eq_true_iff.symm)
  have hread : w₀.bytesAt path = some file.content := by rw [bytesAt, hfile]; rfl
  have hdrift : drift D w₀ r₁ (refOf path file) =
      if (isExcluded path D.settings || isTooLarge file.content.length D.settings) = true then none
      else if (statUnchanged (some e) (refOf path file) ||
          e.contentHash = D.sha256Hex file.content) = true then none
      else some (e.id, ⟨path, D.sha256Hex file.content⟩) := by
    simp only [drift, refOf, he, hread]
  rw [hsynced, hseen, hdrift]
  split
  · rename_i hout
    rw [hout]
    exact ⟨by rintro ⟨⟩, fun h => by cases h.1⟩
  · rename_i hin
    split
    · rename_i hold
      exact ⟨by rintro ⟨⟩, fun h => absurd hold h.2.1⟩
    · rename_i hnew
      rw [Option.some_inj, Prod.mk.injEq]
      exact ⟨fun h => ⟨Bool.eq_false_of_not_eq_true hin, hnew, h⟩, fun h => h.2.2⟩

theorem mem_drift (hlisted : ∀ path file, w₀.disk.get path = some file →
      isExcluded path D.settings = false → ∃ e, r₁.getByPath path = some e) :
    (id, f) ∈ (Files.listOf w₀.disk).filterMap (drift D w₀ r₁) ↔
      Drifts D w₀.disk r₁ id f := by
  rw [List.mem_filterMap]
  constructor
  · rintro ⟨ref, hmem, hdrift⟩
    obtain ⟨file, hfile, href⟩ := mem_listOf.1 hmem
    have hexcl : isExcluded ref.path D.settings = false := by
      by_contra hexcl
      simp [drift, Bool.eq_true_of_not_eq_false hexcl] at hdrift
    obtain ⟨e, he⟩ := hlisted _ _ hfile hexcl
    rw [← href] at hdrift
    obtain ⟨hsynced, hseen, hid, rfl⟩ := (drift_refOf hfile he).1 hdrift
    exact ⟨file, e, hfile, hsynced, he, hid, hseen, rfl⟩
  · rintro ⟨file, e, hfile, hsynced, he, hid, hseen, hhash⟩
    refine ⟨refOf f.path file, mem_listOf.2 ⟨file, hfile, rfl⟩, (drift_refOf hfile he).2 ?_⟩
    exact ⟨hsynced, hseen, hid, by rw [← hhash]⟩

theorem drifts_unique {disk : JsMap Path File} (hf : Drifts D disk r id f)
    (hg : Drifts D disk r id g) : f = g := by
  obtain ⟨file, e, hfile, -, he, rfl, -, hhash⟩ := hf
  obtain ⟨file', e', hfile', -, he', hid, -, hhash'⟩ := hg
  obtain ⟨hp, hget⟩ := path_of_getByPath he
  obtain ⟨hp', hget'⟩ := path_of_getByPath he'
  rw [hid] at hget'
  obtain rfl := Option.some.inj (hget.symm.trans hget')
  have hpath : f.path = g.path := hp.symm.trans hp'
  rw [← hpath] at hfile'
  obtain rfl := Option.some.inj (hfile.symm.trans hfile')
  cases f
  cases g
  simp_all

end Drift

section Reset

variable {D} {w w' : World} {confirm : Nat → Bool} {base : JsMap String RemoteFile}
  {id : String} {f : RemoteFile}

/-- The registry a rebuild starts its capture with. -/
def reconciled (D : Device) (w : World) : FileRegistry :=
  w.registry.reconcileWithVault D (Files.listOf w.disk) (Hlc.now w.hlc w.wallTime)

theorem mem_paths {path : Path} {file : File} (h : w.disk.get path = some file) :
    path ∈ (Files.listOf w.disk).map (·.path) :=
  List.mem_map.2 ⟨refOf path file, mem_listOf.2 ⟨file, h, rfl⟩, rfl⟩

theorem getByPath_reconciled_some {path : Path} {file : File} {e : FileEntry}
    (h : w.disk.get path = some file) (he : w.registry.getByPath path = some e) :
    (reconciled D w).getByPath path = some e := getByPath_reconcile_some (mem_paths h) he

theorem getByPath_reconciled_none {path : Path} {file : File} (h : w.disk.get path = some file)
    (he : w.registry.getByPath path = none) (hexcl : isExcluded path D.settings = false) :
    ∃ m, (reconciled D w).getByPath path =
      some (newEntry (D.randomUuid m) path (Hlc.now w.hlc w.wallTime) "") :=
  getByPath_reconcile_none (mem_paths h) he hexcl

theorem tracked_reconciled {path : Path} {file : File} (h : w.disk.get path = some file)
    (hexcl : isExcluded path D.settings = false) :
    ∃ e, (reconciled D w).getByPath path = some e := by
  cases he : w.registry.getByPath path with
  | some e => exact ⟨e, getByPath_reconciled_some h he⟩
  | none =>
      obtain ⟨m, hm⟩ := getByPath_reconciled_none h he hexcl
      exact ⟨_, hm⟩

/-- A confirmed rebuild runs through: it leaves the files alone, and its capture records the
drift of the reconciled registry. -/
theorem run_reset (hq : w.log.oplogPersistQueue = [])
    (hconfirm : w.log.pendingOps = [] ∨ confirm w.log.pendingOps.length = true) :
    ∃ w₁ w', run (reset D confirm) w = some (.ok (), w') ∧ w₁.disk = w.disk ∧
      w₁.log = w.log ∧ Captured D w₁ (reconciled D w) (Files.listOf w.disk) w' := by
  generalize hw₁ : ({ w with
    registry := reconciled D w
    hlc := Hlc.now w.hlc w.wallTime
    wallReads := w.wallReads + 1 } : World) = w₁
  have hdisk : w₁.disk = w.disk := hw₁ ▸ rfl
  have hlog : w₁.log = w.log := hw₁ ▸ rfl
  have hregistry : w₁.registry = reconciled D w := hw₁ ▸ rfl
  have htracked : ∀ ref ∈ Files.listOf w₁.disk, isExcluded ref.path D.settings = false →
      ∃ e, w₁.registry.getByPath ref.path = some e := by
    intro ref hmem hexcl
    rw [hdisk] at hmem
    obtain ⟨file, hfile, -⟩ := mem_listOf.1 hmem
    rw [hregistry]
    exact tracked_reconciled hfile hexcl
  have hactive : ∀ e ∈ w₁.registry.getActiveEntries,
      e.path ∈ (Files.listOf w₁.disk).map (·.path) := by
    intro e he
    rw [hregistry] at he
    rw [hdisk]
    exact path_of_active_reconcile he
  obtain ⟨w', hrun, hcaptured⟩ := captured_captureOfflineChanges (D := D) (hlog ▸ hq) htracked
    hactive
  rw [hregistry, hdisk] at hcaptured
  refine ⟨w₁, w', ?_, hdisk, hlog, hcaptured⟩
  have hgo : ¬ (0 < w.log.pendingOps.length ∧ confirm w.log.pendingOps.length = false) := by
    rintro ⟨hpos, hno⟩
    rcases hconfirm with hnil | hyes
    · rw [hnil] at hpos
      cases hpos
    · cases hno.symm.trans hyes
  simp only [reset, getPendingOps, run_bind, run_get, run_pure, Option.bind_some, resume_ok,
    if_neg hgo, run_hlcNow, run_list, run_updateRegistry]
  rw [← hrun, ← hw₁]
  rfl

/-- What the replay has after a rebuild: the drift of the reconciled registry over what it
had before. -/
theorem get_replay_captured {w₁ : World} (hdisk : w₁.disk = w.disk) (hlog : w₁.log = w.log)
    (h : Captured D w₁ (reconciled D w) (Files.listOf w.disk) w') :
    (replay base w'.log.pendingOps).get id = some f ↔
      Drifts D w.disk (reconciled D w) id f ∨
        (∀ g, ¬ Drifts D w.disk (reconciled D w) id g) ∧
          (replay base w.log.pendingOps).get id = some f := by
  obtain ⟨ops, hops, hmap, htypes⟩ := h.pending
  rw [hops, hlog, replay_append, replay_sets htypes, JsMap.get_foldl_set, hmap, ← hdisk]
  have hmem : ∀ g, (id, g) ∈ (Files.listOf w₁.disk).filterMap (drift D w₁ (reconciled D w)) ↔
      Drifts D w₁.disk (reconciled D w) id g := fun g =>
    mem_drift fun path file hfile hexcl => tracked_reconciled (hdisk ▸ hfile) hexcl
  cases hget : (JsMap.ofList
      ((Files.listOf w₁.disk).filterMap (drift D w₁ (reconciled D w)))).get id with
  | some g =>
      have hg := (hmem g).1 (JsMap.mem_of_get_ofList hget)
      rw [Option.some_or, Option.some_inj]
      constructor
      · rintro rfl
        exact Or.inl hg
      · rintro (hf | ⟨hnone, -⟩)
        · exact drifts_unique hg hf
        · exact absurd hg (hnone g)
  | none =>
      have hnone : ∀ g, ¬ Drifts D w₁.disk (reconciled D w) id g := fun g hg =>
        JsMap.get_ofList_eq_none_iff.1 hget (List.mem_map_of_mem ((hmem g).2 hg))
      rw [Option.none_or]
      exact ⟨fun hf => Or.inr ⟨hnone, hf⟩, fun hf => (hf.resolve_left (hnone f)).2⟩

/-- The reconciled registry's drift is the registry's own and, under new ids, the files that
were untracked. -/
theorem drifts_reconciled_iff (hhash : ∀ path content, w.bytesAt path = some content →
      D.sha256Hex content ≠ "") :
    Drifts D w.disk (reconciled D w) id f ↔ Drifts D w.disk w.registry id f ∨
      ∃ file m, w.disk.get f.path = some file ∧ Synced D w.disk f.path ∧
        w.registry.getByPath f.path = none ∧ id = D.randomUuid m ∧
        (reconciled D w).getByPath f.path =
          some (newEntry (D.randomUuid m) f.path (Hlc.now w.hlc w.wallTime) "") ∧
        f.contentHash = D.sha256Hex file.content := by
  constructor
  · rintro ⟨file, e, hfile, hsynced, he, rfl, hseen, hf⟩
    cases hold : w.registry.getByPath f.path with
    | some e' =>
        have hkept := getByPath_reconciled_some (D := D) hfile hold
        obtain rfl := Option.some.inj (he.symm.trans hkept)
        exact Or.inl ⟨file, e, hfile, hsynced, hold, rfl, hseen, hf⟩
    | none =>
        obtain ⟨m, hm⟩ := getByPath_reconciled_none (D := D) hfile hold hsynced.1
        obtain rfl := Option.some.inj (he.symm.trans hm)
        exact Or.inr ⟨file, m, hfile, hsynced, rfl, rfl, hm, hf⟩
  · rintro (⟨file, e, hfile, hsynced, he, hid, hseen, hf⟩ |
      ⟨file, m, hfile, hsynced, -, rfl, hm, hf⟩)
    · exact ⟨file, e, hfile, hsynced, getByPath_reconciled_some hfile he, hid, hseen, hf⟩
    · refine ⟨file, _, hfile, hsynced, hm, rfl, ?_, hf⟩
      have hread : w.bytesAt f.path = some file.content := by rw [bytesAt, hfile]; rfl
      rintro (⟨hmtime, -⟩ | hsame)
      · cases hmtime
      · exact hhash _ _ hread hsame.symm

end Reset

section Rebuilt

/-- The server after the pending ops has exactly the files that are on disk, each of which
has a live entry; a server file that is gone from disk has a pending delete, or a pending op
that took it to another path. -/
structure Rebuilt (base : JsMap String RemoteFile) (w : World) : Prop where
  content : ∀ path, Synced D w.disk path → ∀ hash,
    (∃ id, (replay base w.log.pendingOps).get id = some ⟨path, hash⟩) ↔
      ∃ file, w.disk.get path = some file ∧ D.sha256Hex file.content = hash
  gone : ∀ id f, base.get id = some f → Synced D w.disk f.path → w.disk.get f.path = none →
    (∃ op ∈ w.log.pendingOps, op.fileId = id ∧ op.type = .delete) ∨
      ∃ g, (replay base w.log.pendingOps).get id = some g ∧ g.path ≠ f.path
  live : ∀ path file, w.disk.get path = some file → isExcluded path D.settings = false →
    ∃ e, w.registry.getByPath path = some e ∧ e.deleted = false

/-- Before a rebuild: apart from files whose own entry shows drift, the server after the
pending ops has what is on disk, and no file on disk has a tombstone at its path. -/
structure Rebuildable (base : JsMap String RemoteFile) (w : World) : Prop where
  kept : ∀ path file e, w.disk.get path = some file → Synced D w.disk path →
    w.registry.getByPath path = some e → Seen D e file →
      ∃ id, (replay base w.log.pendingOps).get id = some ⟨path, D.sha256Hex file.content⟩ ∧
        ∀ g, ¬ Drifts D w.disk w.registry id g
  stale : ∀ id f, (replay base w.log.pendingOps).get id = some f → Synced D w.disk f.path →
    (∀ g, ¬ Drifts D w.disk w.registry id g) →
      ∃ file, w.disk.get f.path = some file ∧ D.sha256Hex file.content = f.contentHash
  indexed : ∀ path file e, w.disk.get path = some file → isExcluded path D.settings = false →
    w.registry.getByPath path = some e → e.deleted = false

variable {D} {w w' : World} {base : JsMap String RemoteFile}

/-- A replay that agrees with the disk has lost a vanished file to a delete or a move. -/
theorem gone_of_content (h : ∀ path, Synced D w.disk path → ∀ hash,
      (∃ id, (replay base w.log.pendingOps).get id = some ⟨path, hash⟩) ↔
        ∃ file, w.disk.get path = some file ∧ D.sha256Hex file.content = hash)
    {id : String} {f : RemoteFile} (hbase : base.get id = some f) (hsynced : Synced D w.disk f.path)
    (hgone : w.disk.get f.path = none) :
    (∃ op ∈ w.log.pendingOps, op.fileId = id ∧ op.type = .delete) ∨
      ∃ g, (replay base w.log.pendingOps).get id = some g ∧ g.path ≠ f.path := by
  cases hget : (replay base w.log.pendingOps).get id with
  | none =>
      refine Or.inl (delete_of_replay_none ?_ hget)
      rw [hbase]
      exact nofun
  | some g =>
      refine Or.inr ⟨g, rfl, fun hpath => ?_⟩
      obtain ⟨file, hfile, -⟩ := (h f.path hsynced g.contentHash).1 ⟨id, by rw [hget, ← hpath]⟩
      cases hgone.symm.trans hfile

section Iff

variable {w₁ : World} (hdisk : w₁.disk = w.disk) (hlog : w₁.log = w.log)
  (h : Captured D w₁ (reconciled D w) (Files.listOf w.disk) w')
  (hhash : ∀ path content, w.bytesAt path = some content → D.sha256Hex content ≠ "")
  (hfresh : ∀ m, (replay base w.log.pendingOps).get (D.randomUuid m) = none)

include hdisk hlog h hhash hfresh

/-- The server after a rebuild: a file that drifted or was untracked as it is on disk, any
other as it was. -/
theorem get_replay_rebuilt {id : String} {f : RemoteFile} :
    (replay base w'.log.pendingOps).get id = some f ↔
      Drifts D w.disk w.registry id f ∨
      (∃ file m, w.disk.get f.path = some file ∧ Synced D w.disk f.path ∧
        w.registry.getByPath f.path = none ∧ id = D.randomUuid m ∧
        (reconciled D w).getByPath f.path =
          some (newEntry (D.randomUuid m) f.path (Hlc.now w.hlc w.wallTime) "") ∧
        f.contentHash = D.sha256Hex file.content) ∨
      (∀ g, ¬ Drifts D w.disk w.registry id g) ∧
        (replay base w.log.pendingOps).get id = some f := by
  rw [get_replay_captured hdisk hlog h, drifts_reconciled_iff hhash, or_assoc]
  refine or_congr_right (or_congr_right (and_congr_left fun hold => ?_))
  refine forall_congr' fun g => not_congr ?_
  rw [drifts_reconciled_iff hhash]
  refine ⟨fun hg => hg.resolve_right ?_, Or.inl⟩
  rintro ⟨file, m, -, -, -, rfl, -⟩
  cases (hfresh m).symm.trans hold

theorem rebuildable_of_rebuilt (hr : Rebuilt D base w') : Rebuildable D base w := by
  have hdisk' : w'.disk = w.disk := h.disk.trans hdisk
  refine ⟨?_, ?_, ?_⟩
  · intro path file e hfile hsynced he hseen
    obtain ⟨id, hid⟩ := (hr.content path (hdisk' ▸ hsynced) (D.sha256Hex file.content)).2
      ⟨file, hdisk' ▸ hfile, rfl⟩
    refine ⟨id, ?_⟩
    rcases (get_replay_rebuilt hdisk hlog h hhash hfresh).1 hid with
      ⟨file', e', hfile', -, he', -, hnew, -⟩ | ⟨file', m, -, -, hnone, -⟩ | ⟨hnone, hold⟩
    · obtain rfl := Option.some.inj (hfile.symm.trans hfile')
      obtain rfl := Option.some.inj (he.symm.trans he')
      exact absurd hseen hnew
    · cases hnone.symm.trans he
    · exact ⟨hold, hnone⟩
  · intro id f hold hsynced hnone
    have hid := (get_replay_rebuilt hdisk hlog h hhash hfresh).2 (Or.inr (Or.inr ⟨hnone, hold⟩))
    obtain ⟨file, hfile, hf⟩ := (hr.content f.path (hdisk' ▸ hsynced) f.contentHash).1 ⟨id, hid⟩
    exact ⟨file, hdisk' ▸ hfile, hf⟩
  · intro path file e hfile hexcl he
    obtain ⟨e', he', hlive⟩ := hr.live path file (hdisk' ▸ hfile) hexcl
    have hdel := h.deleted path
    have hkept := getByPath_reconciled_some (D := D) hfile he
    rw [he', hkept] at hdel
    exact (Option.some.inj hdel).symm.trans hlive

theorem rebuilt_of_rebuildable (hr : Rebuildable D base w) : Rebuilt D base w' := by
  have hdisk' : w'.disk = w.disk := h.disk.trans hdisk
  have hcontent : ∀ path, Synced D w'.disk path → ∀ hash,
      (∃ id, (replay base w'.log.pendingOps).get id = some ⟨path, hash⟩) ↔
        ∃ file, w'.disk.get path = some file ∧ D.sha256Hex file.content = hash := by
    intro path hsynced hash
    rw [hdisk'] at hsynced ⊢
    constructor
    · rintro ⟨id, hid⟩
      rcases (get_replay_rebuilt hdisk hlog h hhash hfresh).1 hid with
        ⟨file, e, hfile, -, -, -, -, hf⟩ | ⟨file, m, hfile, -, -, -, -, hf⟩ | ⟨hnone, hold⟩
      · exact ⟨file, hfile, hf.symm⟩
      · exact ⟨file, hfile, hf.symm⟩
      · exact hr.stale id _ hold hsynced hnone
    · rintro ⟨file, hfile, rfl⟩
      cases he : w.registry.getByPath path with
      | none =>
          obtain ⟨m, hm⟩ := getByPath_reconciled_none (D := D) hfile he hsynced.1
          exact ⟨_, (get_replay_rebuilt hdisk hlog h hhash hfresh).2
            (Or.inr (Or.inl ⟨file, m, hfile, hsynced, he, rfl, hm, rfl⟩))⟩
      | some e =>
          by_cases hseen : Seen D e file
          · obtain ⟨id, hold, hnone⟩ := hr.kept path file e hfile hsynced he hseen
            exact ⟨id, (get_replay_rebuilt hdisk hlog h hhash hfresh).2
              (Or.inr (Or.inr ⟨hnone, hold⟩))⟩
          · exact ⟨e.id, (get_replay_rebuilt hdisk hlog h hhash hfresh).2
              (Or.inl ⟨file, e, hfile, hsynced, he, rfl, hseen, rfl⟩)⟩
  refine ⟨hcontent, fun id f => gone_of_content hcontent, ?_⟩
  intro path file hfile hexcl
  rw [hdisk'] at hfile
  have hdel := h.deleted path
  cases he : w.registry.getByPath path with
  | some e =>
      have hkept := getByPath_reconciled_some (D := D) hfile he
      rw [hkept, Option.map_some, Option.map_eq_some_iff] at hdel
      obtain ⟨e', he', hsame⟩ := hdel
      exact ⟨e', he', hsame.trans (hr.indexed path file e hfile hexcl he)⟩
  | none =>
      obtain ⟨m, hm⟩ := getByPath_reconciled_none (D := D) hfile he hexcl
      rw [hm, Option.map_some, Option.map_eq_some_iff] at hdel
      exact hdel

end Iff

/-- A confirmed rebuild completes, and it loses nothing exactly when the server and the
registry already agreed with the disk but for drift. -/
theorem reset_rebuilds_iff (confirm : Nat → Bool) (hq : w.log.oplogPersistQueue = [])
    (hconfirm : w.log.pendingOps = [] ∨ confirm w.log.pendingOps.length = true)
    (hhash : ∀ path content, w.bytesAt path = some content → D.sha256Hex content ≠ "")
    (hfresh : ∀ m, (replay base w.log.pendingOps).get (D.randomUuid m) = none) :
    ∃ w', run (reset D confirm) w = some (.ok (), w') ∧
      (Rebuilt D base w' ↔ Rebuildable D base w) := by
  obtain ⟨w₁, w', hrun, hdisk, hlog, h⟩ := run_reset hq hconfirm
  exact ⟨w', hrun, rebuildable_of_rebuilt hdisk hlog h hhash hfresh,
    rebuilt_of_rebuildable hdisk hlog h hhash hfresh⟩

/-- The server has the tracked `o.md`. -/
def pushedNote : JsMap String RemoteFile := .ofList [("g", ⟨"o.md", "O"⟩)]

/-- Beside `o.md` the user has made `p.md` while the plugin was off. -/
def noteAndNew : World :=
  atRest [("o.md", [79]), ("p.md", [80])] (empty.insert (fileAt "g" "o.md" "O" 1) (by decide))

theorem longId_ne {id : String} (h : 'u' ∉ id.toList) (m : FileEntries) : longId m ≠ id := by
  rintro rfl
  rw [longId, String.toList_ofList] at h
  exact h List.mem_cons_self

theorem fresh_replay {remote : JsMap String RemoteFile}
    (h : ∀ id ∈ remote.keys, 'u' ∉ id.toList) (m : FileEntries) :
    (replay remote []).get (asciiDevice.randomUuid m) = none := by
  change remote.get (longId m) = none
  by_contra hget
  obtain ⟨f, hf⟩ := Option.ne_none_iff_exists'.1 hget
  exact longId_ne (h _ ((JsMap.mem_keys_iff _).2 ⟨f, hf⟩)) m rfl

theorem hash_ne {files : List (Path × Bytes)} {r : FileRegistry}
    (h : ∀ e ∈ (atRest files r).disk.entries, asciiDevice.sha256Hex e.2.content ≠ "") :
    ∀ path content, (atRest files r).bytesAt path = some content →
      asciiDevice.sha256Hex content ≠ "" := by
  intro path content hread
  obtain ⟨file, hfile, rfl⟩ := Option.map_eq_some_iff.1 hread
  exact h _ ((JsMap.mem_entries_iff _).2 hfile)

theorem rebuildable_noteAndNew : Rebuildable asciiDevice pushedNote noteAndNew := by
  have hentry : ∀ path e, noteAndNew.registry.getByPath path = some e →
      e = fileAt "g" "o.md" "O" 1 ∧ path = "o.md" := by
    intro path e he
    obtain ⟨hpath, hget⟩ := path_of_getByPath he
    have hmem := (FileEntries.mem_values_iff _).2 hget
    obtain rfl := List.mem_singleton.1 (show e ∈ [fileAt "g" "o.md" "O" 1] from hmem)
    exact ⟨rfl, hpath.symm⟩
  have hfile : ∀ file, noteAndNew.disk.get "o.md" = some file → file = ⟨[79], 0⟩ :=
    fun file h => (Option.some.inj h).symm
  have hquiet : ∀ id g, ¬ Drifts asciiDevice noteAndNew.disk noteAndNew.registry id g := by
    rintro id g ⟨file, e, hget, -, he, -, hseen, -⟩
    obtain ⟨rfl, hpath⟩ := hentry _ _ he
    rw [hpath] at hget
    obtain rfl := hfile file hget
    exact hseen (Or.inr rfl)
  refine ⟨?_, ?_, ?_⟩
  · rintro path file e hget - he -
    obtain ⟨-, rfl⟩ := hentry _ _ he
    obtain rfl := hfile file hget
    exact ⟨"g", rfl, hquiet "g"⟩
  · rintro id f hold - -
    have hmem := (JsMap.mem_entries_iff _).2 hold
    obtain h := List.mem_singleton.1
      (show (id, f) ∈ [("g", (⟨"o.md", "O"⟩ : RemoteFile))] from hmem)
    obtain ⟨rfl, rfl⟩ := Prod.mk.inj h
    exact ⟨⟨[79], 0⟩, rfl, rfl⟩
  · rintro path file e - - he
    obtain ⟨rfl, -⟩ := hentry _ _ he
    rfl

theorem reset_rebuilds_new : ∃ w', run (reset asciiDevice (fun _ => true)) noteAndNew =
    some (.ok (), w') ∧ Rebuilt asciiDevice pushedNote w' := by
  obtain ⟨w', hrun, hiff⟩ := reset_rebuilds_iff (D := asciiDevice) (w := noteAndNew)
    (fun _ => true) rfl (Or.inr rfl) (hash_ne (by decide))
    (fresh_replay (show ∀ id ∈ pushedNote.keys, 'u' ∉ id.toList by decide))
  exact ⟨w', hrun, hiff.2 rebuildable_noteAndNew⟩

/-- The server also has `n.md`, which is tracked but gone from disk. -/
def pushedNotes : JsMap String RemoteFile :=
  .ofList [("f", ⟨"n.md", "N"⟩), ("g", ⟨"o.md", "O"⟩)]

def vanishedNote : World :=
  atRest [("o.md", [79])]
    ((empty.insert (fileAt "f" "n.md" "N" 1) (by decide)).insert (fileAt "g" "o.md" "O" 1)
      (by decide))

/-- The scan tombstones a vanished file, and the capture looks at live entries only. -/
theorem reset_loses_delete :
    ¬ ∀ (D : Device) (confirm : Nat → Bool) (base : JsMap String RemoteFile) (w w' : World),
      w.log.oplogPersistQueue = [] →
      (w.log.pendingOps = [] ∨ confirm w.log.pendingOps.length = true) →
      (∀ path content, w.bytesAt path = some content → D.sha256Hex content ≠ "") →
      (∀ m, (replay base w.log.pendingOps).get (D.randomUuid m) = none) →
      (∃ ref ∈ Files.listOf w.disk, isExcluded ref.path D.settings = false) →
      run (reset D confirm) w = some (.ok (), w') → Rebuilt D base w' := by
  intro h
  obtain ⟨w', hrun, hpending, hdisk⟩ : ∃ w', run (reset asciiDevice (fun _ => true)) vanishedNote =
      some (.ok (), w') ∧ w'.log.pendingOps = [] ∧ w'.disk = vanishedNote.disk :=
    ⟨_, rfl, rfl, rfl⟩
  have hr := h asciiDevice (fun _ => true) pushedNotes vanishedNote w' rfl (Or.inr rfl)
    (hash_ne (by decide)) (fresh_replay (by decide)) ⟨_, List.mem_cons_self, by decide⟩ hrun
  have hsynced : Synced asciiDevice w'.disk "n.md" := by
    rw [hdisk]
    exact ⟨by decide, nofun⟩
  obtain ⟨file, hfile, -⟩ := (hr.content "n.md" hsynced "N").1 ⟨"f", by rw [hpending]; rfl⟩
  rw [hdisk] at hfile
  cases hfile

end Rebuilt

end OpsBlobs.RebuildReplay
