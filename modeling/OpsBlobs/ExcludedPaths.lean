import OpsBlobs.CapturePhantom
import OpsBlobs.CutShort
import OpsBlobs.RegistryScan

namespace OpsBlobs.ExcludedPaths

open Types Operations Hlc ExclusionPolicy FileRegistry Coroutine Interleaving World OperationLogger
  WriteEffects WorldEffects CapturePhantom CarefulRun CutShort RegistryScan

variable (D : Device)

/-- No op and no armed timer names an excluded path. -/
structure Clean (w : World) : Prop where
  recorded : ∀ op ∈ w.log.recorded, isExcluded op.path D.settings = false
  pendingOps : ∀ op ∈ w.log.pendingOps, isExcluded op.path D.settings = false
  timers : ∀ path ∈ w.debounceTimers, isExcluded path D.settings = false

/-- An entry whose path is not excluded stays, and stays so. -/
def Stays (r r' : FileRegistry) : Prop :=
  ∀ id e, r.getById id = some e → isExcluded e.path D.settings = false →
    ∃ e', r'.getById id = some e' ∧ isExcluded e'.path D.settings = false

/-- A write that brings in no excluded path. -/
structure Tidy (w w' : World) : Prop where
  stays : Stays D w.registry w'.registry
  recorded : ∀ op ∈ w'.log.recorded, op ∈ w.log.recorded ∨ isExcluded op.path D.settings = false
  pendingOps : ∀ op ∈ w'.log.pendingOps,
    op ∈ w.log.pendingOps ∨ isExcluded op.path D.settings = false
  timers : ∀ path ∈ w'.debounceTimers,
    path ∈ w.debounceTimers ∨ isExcluded path D.settings = false

variable {D} {w w' : World} {r r' : FileRegistry}

section Writes

theorem stays_self : Stays D r r := fun _ e he hexcl => ⟨e, he, hexcl⟩

theorem stays_trans {r₁ r₂ r₃ : FileRegistry} (h : Stays D r₁ r₂) (h' : Stays D r₂ r₃) :
    Stays D r₁ r₃ := by
  intro id e he hexcl
  obtain ⟨e₂, he₂, hexcl₂⟩ := h id e he hexcl
  exact h' id e₂ he₂ hexcl₂

theorem stays_change {f : FileEntry → FileEntry} {id : String}
    {hf : ∀ e, (f e).id = e.id ∧ (f e).path = e.path} : Stays D r (r.change f hf id) := by
  intro id' e he hexcl
  rw [getById, get_change]
  split
  · exact ⟨f e, congrArg (Option.map f) he, (hf e).2 ▸ hexcl⟩
  · exact ⟨e, he, hexcl⟩

theorem stays_changeAt {f : FileEntry → FileEntry} {path : Path}
    {hf : ∀ e, (f e).id = e.id ∧ (f e).path = e.path} : Stays D r (r.changeAt f hf path) := by
  rw [changeAt]
  split
  · exact stays_self
  · exact stays_change

theorem stays_setHeadVersion (fileId versionId : String) :
    Stays D r (r.setHeadVersion fileId versionId) := stays_change

theorem stays_registerFile (path : Path) (hlc : Hlc) (contentHash : String)
    (stat : Option VaultFileStat) :
    Stays D r (r.registerFile D path hlc contentHash stat).1 := by
  rw [FileRegistry.registerFile]
  split
  · simp only [resurrect]
    split
    · exact stays_self
    · split
      · exact stays_change
      · exact stays_self
  · intro id e he hexcl
    refine ⟨e, ?_, hexcl⟩
    change (r.entries.set _).get id = some e
    rw [FileEntries.get_set, if_neg, ← getById, he]
    rintro rfl
    rw [getById, (withStat_id stat _).1] at he
    cases (D.randomUuid_fresh r.entries).symm.trans he

/-- A move to a path that is not excluded. -/
theorem stays_updatePath {path : Path} (hpath : isExcluded path D.settings = false)
    (oldPath : Path) (hlc : Hlc) : Stays D r (r.updatePath oldPath path hlc) := by
  intro id e he hexcl
  rw [updatePath]
  split
  · exact ⟨e, he, hexcl⟩
  · split
    · exact ⟨e, he, hexcl⟩
    · rename_i id' _ entry hentry
      change ∃ e', (r.entries.set _).get id = some e' ∧ _
      rw [FileEntries.get_set]
      split
      · exact ⟨_, rfl, hpath⟩
      · exact ⟨e, he, hexcl⟩

theorem tidy_registry (hr : Stays D w.registry w'.registry) (hlog : w'.log = w.log)
    (htimers : w'.debounceTimers = w.debounceTimers) : Tidy D w w' :=
  ⟨hr, fun _ hop => Or.inl (hlog ▸ hop), fun _ hop => Or.inl (hlog ▸ hop),
    fun _ hp => Or.inl (htimers ▸ hp)⟩

theorem tidy_push {op : Operation} (hop : isExcluded op.path D.settings = false) :
    Tidy D w { w with log := OpLog.push op w.log } := by
  refine ⟨stays_self, ?_, ?_, fun _ hp => Or.inl hp⟩ <;>
  · intro op' h
    rcases List.mem_append.1 h with h | h
    · exact Or.inl h
    · exact Or.inr (List.mem_singleton.1 h ▸ hop)

theorem tidy_persists (h : Persists w w') : Tidy D w w' := by
  obtain ⟨log, rfl, hops, hrec⟩ := h
  exact ⟨stays_self, fun _ hop => Or.inl (hrec ▸ hop), fun _ hop => Or.inl (hops ▸ hop),
    fun _ hp => Or.inl hp⟩

theorem clean_tidy (h : Tidy D w w') (hc : Clean D w) : Clean D w' :=
  ⟨fun op hop => (h.recorded op hop).elim (hc.recorded op) id,
    fun op hop => (h.pendingOps op hop).elim (hc.pendingOps op) id,
    fun path hp => (h.timers path hp).elim (hc.timers path) id⟩

end Writes

section Handlers

variable {path : Path}

theorem does_registry {f : FileRegistry → FileRegistry} (hf : ∀ r, Stays D r (f r)) :
    Does (Tidy D) (updateRegistry f) (fun _ => True) :=
  does_updateRegistry fun w => tidy_registry (hf w.registry) rfl rfl

theorem does_tick : Does (Tidy D) hlcNow (fun _ => True) :=
  does_hlcNow fun _ _ _ => tidy_registry stays_self rfl rfl

theorem does_store (hash : String) (content : Bytes) :
    Does (Tidy D) (ContentStore.put hash content) (fun _ => True) :=
  does_put fun _ => tidy_registry stays_self rfl rfl

theorem does_register (path : Path) (hlc : Hlc) (hash : String) (stat : Option VaultFileStat) :
    Does (Tidy D) (OperationLogger.registerFile D path hlc hash stat) (fun _ => True) :=
  does_then (does_modifyGet fun _ => tidy_registry (stays_registerFile path hlc hash stat) rfl rfl)
    fun _ => does_then does_pause fun _ => does_pure trivial

theorem does_append : Does (Tidy D) appendOpLog (fun _ => True) :=
  does_weaken (fun _ _ => tidy_persists) does_appendOpLog

theorem does_pushOp {op : Operation} (hop : isExcluded op.path D.settings = false) :
    Does (Tidy D) (pushOp op) (fun _ => True) := does_modify fun _ => tidy_push hop

theorem does_recordOp {op : Operation} (hop : isExcluded op.path D.settings = false) :
    Does (Tidy D) (recordOp op) (fun _ => True) := does_then (does_pushOp hop) fun _ => does_append

theorem does_head (fileId versionId : String) :
    Does (Tidy D) (OperationLogger.setHeadVersion fileId versionId) (fun _ => True) :=
  does_registry fun _ => stays_setHeadVersion _ _

theorem does_prune (fileId : String) :
    Does (Tidy D) (pruneCreateDeletePair fileId) (fun _ => True) := by
  refine does_then does_get fun w => ?_
  split
  · refine does_then (does_modify fun _ => ⟨stays_self, fun _ h => Or.inl h, ?_, fun _ h => Or.inl h⟩)
      fun _ => does_pure trivial
    exact fun op hop => Or.inl (List.mem_filter.1 hop).1
  · exact does_pure trivial

/-- A disarmed timer. -/
theorem does_disarm (path : Path) :
    Does (Tidy D) (modify (fun w =>
      { w with debounceTimers := w.debounceTimers.filter (· ≠ path) }) : Async Unit)
      (fun _ => True) :=
  does_modify fun _ => ⟨stays_self, fun _ h => Or.inl h, fun _ h => Or.inl h,
    fun _ hp => Or.inl (List.mem_filter.1 hp).1⟩

theorem does_handleCreate (path : Path) : Does (Tidy D) (handleCreate D path) (fun _ => True) := by
  rw [handleCreate]
  split
  · exact does_pure trivial
  rename_i hexcl
  refine does_then does_tick fun hlcTs => does_then (does_read path) fun content => ?_
  cases content with
  | none => exact does_pure trivial
  | some content =>
      dsimp only
      split
      · exact does_pure trivial
      · refine does_then (does_hashContent D content) fun hash => ?_
        refine does_then (does_register path hlcTs hash none) fun id => ?_
        refine does_then (does_store hash content) fun _ => ?_
        exact does_then (does_recordOp (Bool.eq_false_of_not_eq_true hexcl)) fun _ => does_head _ _

theorem does_resolveTwoHeaded (hexcl : isExcluded path D.settings = false) (entry : FileEntry)
    (content : Bytes) (hash : String) :
    Does (Tidy D) (resolveTwoHeaded D path entry content hash) (fun _ => True) := by
  refine does_then does_tick fun hlcTs => does_then (does_store hash content) fun _ => ?_
  refine does_then (does_registry fun _ => stays_changeAt) fun _ => ?_
  split
  · exact does_pure trivial
  · refine does_then (does_current entry) fun entry' => ?_
    split
    · exact does_throw
    · refine does_then does_pause fun _ => does_then (does_recordOp hexcl) fun _ => ?_
      exact does_then (does_head _ _) fun _ => does_registry fun _ => stays_change

theorem does_flushModify (hexcl : isExcluded path D.settings = false) :
    Does (Tidy D) (flushModify D path) (fun _ => True) := by
  refine does_then (does_getByPath path) fun entry => ?_
  cases entry with
  | none => exact does_handleCreate path
  | some entry =>
      refine does_then (does_read path) fun content => ?_
      cases content with
      | none => exact does_pure trivial
      | some content =>
          dsimp only
          split
          · exact does_pure trivial
          refine does_then (does_hashContent D content) fun hash => ?_
          refine does_then (does_current entry) fun entry => ?_
          split
          · exact does_pure trivial
          split
          · exact does_resolveTwoHeaded hexcl entry content hash
          · refine does_then does_tick fun hlcTs => does_then (does_store hash content) fun _ => ?_
            refine does_then (does_registry fun _ => stays_changeAt) fun _ => ?_
            exact does_then (does_recordOp hexcl) fun _ => does_head _ _

theorem does_handleModify (path : Path) : Does (Tidy D) (handleModify D path) (fun _ => True) := by
  rw [handleModify]
  split
  · exact does_pure trivial
  · rename_i hexcl
    refine does_modify fun w => ⟨stays_self, fun _ h => Or.inl h, fun _ h => Or.inl h, ?_⟩
    intro p hp
    rcases List.mem_append.1 hp with hp | hp
    · exact Or.inl (List.mem_filter.1 hp).1
    · exact Or.inr (List.mem_singleton.1 hp ▸ Bool.eq_false_of_not_eq_true hexcl)

theorem does_timerFires (hexcl : isExcluded path D.settings = false) :
    Does (Tidy D) (timerFires D path) (fun _ => True) :=
  does_then (does_disarm path) fun _ => does_flushModify hexcl

theorem does_handleDelete (path : Path) : Does (Tidy D) (handleDelete D path) (fun _ => True) := by
  rw [handleDelete]
  split
  · exact does_pure trivial
  rename_i hexcl
  have hexcl := Bool.eq_false_of_not_eq_true hexcl
  refine does_then (does_getByPath path) fun entry => ?_
  cases entry with
  | none => exact does_pure trivial
  | some entry =>
      refine does_then (does_fileExists path) fun here => ?_
      split
      · exact does_flushModify hexcl
      refine does_then does_tick fun hlcTs => ?_
      refine does_then (does_registry fun _ => stays_changeAt) fun _ => ?_
      refine does_then (does_current entry) fun entry => ?_
      split
      · exact does_pure trivial
      refine does_then (does_prune entry.id) fun pruned => ?_
      split
      · exact does_weaken (fun _ _ => tidy_persists) does_rewriteOpLog
      · exact does_then (does_recordOp hexcl) fun _ => does_head _ _

end Handlers

section Passes

theorem does_checkpointFlush (st : CaptureState) :
    Does (Tidy D) (checkpointFlush st) (fun _ => True) := by
  refine does_then does_pause fun _ => does_then does_pause fun _ => ?_
  dsimp only
  split
  · exact does_then does_append fun _ => does_pure trivial
  · exact does_pure trivial

theorem does_checkpointTick (st : CaptureState) :
    Does (Tidy D) (checkpointTick st) (fun _ => True) := by
  rw [checkpointTick]
  split
  · exact does_then does_pause fun _ => does_pure trivial
  · exact does_checkpointFlush _

theorem does_captureDrift {path : Path} (hexcl : isExcluded path D.settings = false)
    (entry : Option FileEntry) (hash : String) (hlcTs : Hlc) (stat : VaultFileStat) :
    Does (Tidy D) (captureDrift D path entry hash hlcTs stat) (fun _ => True) := by
  cases entry with
  | none =>
      refine does_then (does_register path hlcTs hash (some stat)) fun id => ?_
      exact does_then (does_pushOp hexcl) fun _ => does_head _ _
  | some entry =>
      refine does_then (does_current entry) fun entry => ?_
      refine does_then (does_registry fun _ => stays_changeAt) fun _ => ?_
      refine does_then (does_pushOp ?_) fun _ => does_head _ _
      split <;> exact hexcl

/-- What is done about a file that was read. -/
theorem does_recapture (st : CaptureState) {ref : VaultFileRef}
    (hexcl : isExcluded ref.path D.settings = false) (entry held : Option FileEntry)
    (hash : String) (content : Bytes) :
    Does (Tidy D) (do
      if held.map (·.contentHash) = some hash then
        if statUnchanged held ref then pure st
        else
          updateRegistry (fun r => r.recordStat ref.path ref.toVaultFileStat)
          pure st
      else
        ContentStore.putBuffered hash content
        let hlcTs ← hlcNow
        captureDrift D ref.path entry hash hlcTs ref.toVaultFileStat
        checkpointTick { st with changed := true }) (fun _ => True) := by
  split
  · split
    · exact does_pure trivial
    · exact does_then (does_registry fun _ => stays_changeAt) fun _ => does_pure trivial
  · refine does_then (does_store hash content) fun _ => does_then does_tick fun hlcTs => ?_
    exact does_then (does_captureDrift hexcl _ _ _ _) fun _ => does_checkpointTick _

theorem does_captureRef (st : CaptureState) (ref : VaultFileRef) :
    Does (Tidy D) (captureRef D st ref) (fun _ => True) := by
  rw [captureRef]
  split
  · exact does_pure trivial
  rename_i hexcl
  have hexcl := Bool.eq_false_of_not_eq_true hexcl
  split
  · exact does_pure trivial
  refine does_then (does_getByPath _) fun entry => ?_
  split
  · exact does_pure trivial
  refine does_then (does_read _) fun content => ?_
  cases content with
  | none => exact does_pure trivial
  | some content =>
      refine does_then (does_hashContent D content) fun hash => ?_
      cases entry with
      | none => exact does_recapture _ hexcl none none hash content
      | some entry =>
          exact does_then (does_current entry) fun held =>
            does_recapture _ hexcl (some entry) (some held) hash content

theorem does_captureRefs (aborted : World → Bool) (st : CaptureState) (refs : List VaultFileRef) :
    Does (Tidy D) (captureRefs D aborted st refs) (fun _ => True) := by
  induction refs generalizing st with
  | nil => exact does_pure trivial
  | cons ref rest ih =>
      refine does_then does_get fun w => ?_
      split
      · exact does_pure trivial
      · exact does_then (does_captureRef st ref) fun st => ih st

theorem does_captureAllAsBaseline : Does (Tidy D) (captureAllAsBaseline D) (fun _ => True) := by
  have hlist : Does (Tidy D) Files.list (fun _ => True) :=
    does_then does_get fun _ => does_pure trivial
  refine does_then hlist fun live => ?_
  refine does_then (does_foldM (Q := fun _ => True) trivial fun ref _ changed _ => ?_) fun changed => ?_
  · split
    · exact does_pure trivial
    rename_i hexcl
    have hexcl := Bool.eq_false_of_not_eq_true hexcl
    split
    · exact does_pure trivial
    refine does_then (does_read _) fun content => ?_
    cases content with
    | none => exact does_pure trivial
    | some content =>
        refine does_then (does_hashContent D content) fun hash => ?_
        refine does_then (does_store hash content) fun _ => ?_
        refine does_then (does_getByPath _) fun entry => does_then does_tick fun hlcTs => ?_
        cases entry with
        | none =>
            refine does_then (does_register _ hlcTs hash _) fun id => ?_
            refine does_then (does_pushOp hexcl) fun _ => ?_
            exact does_then (does_head _ _) fun _ => does_pure trivial
        | some entry =>
            have hpush : Does (Tidy D) (do
                pushOp (if entry.contentHash = "" then Ops.create entry.id ref.path hash hlcTs
                  else Ops.update entry.id ref.path hash hlcTs entry.headVersionId)
                setHeadVersion entry.id (if entry.contentHash = "" then
                  Ops.create entry.id ref.path hash hlcTs
                  else Ops.update entry.id ref.path hash hlcTs entry.headVersionId).id
                pure true) (fun _ => True) := by
              refine does_then (does_pushOp ?_) fun _ =>
                does_then (does_head _ _) fun _ => does_pure trivial
              split <;> exact hexcl
            dsimp only
            split
            · exact does_then (does_registry fun _ => stays_changeAt) fun _ => hpush
            · exact hpush
  · split
    · exact does_append
    · exact does_pure trivial

end Passes

section Moves

variable {path oldPath : Path}

/-- What the handlers rely on while others run. -/
abbrev Others (D : Device) (w w' : World) : Prop := Stays D w.registry w'.registry

/-- The entries that the last loop of a capture goes through keep paths that are not excluded. -/
def Inside (D : Device) (entries : List FileEntry) (w : World) : Prop :=
  ∀ e ∈ entries, ∃ e', w.registry.getById e.id = some e' ∧ isExcluded e'.path D.settings = false

theorem inside_stays {entries : List FileEntry} (h : Inside D entries w)
    (hs : Stays D w.registry w'.registry) : Inside D entries w' := by
  intro e he
  obtain ⟨e', he', hexcl⟩ := h e he
  exact hs e.id e' he' hexcl

theorem wp_captureVanished {entries : List FileEntry} (st : CaptureState)
    (h : Inside D entries w) {entry : FileEntry} (hmem : entry ∈ entries) :
    wp (Others D) (Tidy D) (captureVanished st entry)
      (onOk (fun _ => Inside D entries) fun _ _ => True) w := by
  obtain ⟨e, he, hexcl⟩ := h entry hmem
  rw [captureVanished]
  refine wp_current.2 ?_
  rw [he, Option.getD_some]
  split
  · exact h
  refine wp_hlcNow.2 ⟨tidy_registry stays_self rfl rfl, wp_updateRegistry.2 ⟨?_, fun w₁ hw₁ => ?_⟩⟩
  · exact tidy_registry stays_changeAt rfl rfl
  have h₁ : Inside D entries w₁ := inside_stays h (stays_trans stays_changeAt hw₁)
  obtain ⟨e₁, he₁, hexcl₁⟩ := h₁ entry hmem
  refine wp_current.2 ?_
  rw [FileEntries.get_id he, he₁, Option.getD_some]
  split
  · exact h₁
  · refine wp_setLog.2 ⟨tidy_push hexcl₁, wp_updateRegistry.2 ⟨?_, fun w₂ hw₂ => ?_⟩⟩
    · exact tidy_registry (stays_setHeadVersion _ _) rfl rfl
    · exact inside_stays h₁ (stays_trans (stays_setHeadVersion _ _) hw₂)

theorem within_captureOfflineChanges (aborted : World → Bool) (w : World) :
    Within (Others D) (Tidy D) (captureOfflineChanges D aborted) w := by
  rw [captureOfflineChanges]
  refine wp_tryFinally.2 (wp_mono (Q := fun _ _ => True) ?_ ?_)
  · intro r w' _
    exact wp_mono (fun _ _ _ => by split <;> trivial) (wp_of_does _ does_pause w')
  refine wp_get.2 (wp_bind.2 (wp_mono ?_ (wp_of_does _ (does_captureRefs aborted _ _) w)))
  rintro (e | ⟨st, stopped⟩) w₁ -
  · trivial
  have hflush : ∀ st w', wp (Others D) (Tidy D) (checkpointFlush st >>= fun _ => pure ())
      (fun _ _ => True) w' := fun st w' =>
    wp_mono (fun _ _ _ => trivial) (wp_of_does _
      (does_then (Q := fun _ => True) (does_checkpointFlush st) fun _ => does_pure trivial) w')
  change wp _ _ (if stopped = true then _ else _) _ _
  split
  · exact hflush st w₁
  refine wp_get.2 ?_
  generalize hentries : w₁.registry.getActiveEntries.filter
    (fun entry => !isExcluded entry.path D.settings) = entries
  have h : Inside D entries w₁ := by
    intro e he
    rw [← hentries] at he
    obtain ⟨he, hexcl⟩ := List.mem_filter.1 he
    exact ⟨e, (FileEntries.mem_values_iff _).1 (List.mem_filter.1 he).1,
      Bool.not_eq_true' _ ▸ hexcl⟩
  dsimp only
  split
  · exact hflush st w₁
  · refine wp_bind.2 (wp_mono ?_ (wp_foldM (Q := fun _ _ => True) h
      (fun _ ha st _ h => wp_captureVanished st h ha) fun _ _ _ => trivial))
    rintro (e | st') w₂ -
    · trivial
    · exact hflush st' w₂

/-- The move is recorded under the new path whatever that path is: it has to be one that is
not excluded, unless the file was excluded before or is not tracked. -/
theorem within_handleRename (h : isExcluded path D.settings = true →
      isExcluded oldPath D.settings = true ∨ w.registry.getByPath oldPath = none) :
    Within (Others D) (Tidy D) (handleRename D path oldPath) w := by
  rw [handleRename]
  split
  · trivial
  rename_i hboth
  refine wp_getByPath.2 ?_
  cases hentry : w.registry.getByPath oldPath with
  | none => exact wp_mono (fun _ _ _ => trivial) (wp_of_does _ (does_handleCreate path) w)
  | some entry =>
      have hexcl : isExcluded path D.settings = false := by
        refine Bool.eq_false_of_not_eq_true fun hexcl => hboth ?_
        rcases h hexcl with hold | hnone
        · rw [hexcl, hold]
          rfl
        · cases hnone.symm.trans hentry
      have hrest : Does (Tidy D) (do
          let hlcTs ← hlcNow
          updateRegistry (fun r => r.updatePath oldPath path hlcTs)
          let entry ← current entry
          if entry.contentHash = "" then flushModify D path
          else recordOp (Ops.move entry.id path entry.contentHash hlcTs entry.headVersionId))
          (fun _ => True) := by
        refine does_then does_tick fun hlcTs => ?_
        refine does_then (does_registry fun _ => stays_updatePath hexcl oldPath hlcTs) fun _ => ?_
        refine does_then (does_current entry) fun entry => ?_
        split
        · exact does_flushModify hexcl
        · exact does_recordOp hexcl
      exact wp_mono (fun _ _ _ => trivial) (wp_of_does _ hrest w)

/-- Only an untracked file is checked again. -/
theorem within_recaptureLocalEdit (h : isExcluded path D.settings = true →
      w.registry.getByPath path = none) :
    Within (Others D) (Tidy D) (recaptureLocalEdit D path) w := by
  cases hexcl : isExcluded path D.settings with
  | false => exact wp_mono (fun _ _ _ => trivial) (wp_of_does _ (does_flushModify hexcl) w)
  | true =>
      rw [recaptureLocalEdit, flushModify]
      refine wp_getByPath.2 ?_
      rw [h hexcl]
      exact wp_mono (fun _ _ _ => trivial) (wp_of_does _ (does_handleCreate path) w)

theorem within_flush (hc : Clean D w) : Within (Others D) (Tidy D) (flush D) w := by
  rw [flush]
  refine wp_get.2 (wp_mono (fun _ _ _ => trivial) (wp_of_does _ (does_forEach ?_) w))
  exact fun path hp => does_then (does_disarm path) fun _ => does_flushModify (hc.timers path hp)

end Moves

section Runs

/-- What can happen to the plugin: the vault's events, a timer that fires, and the passes. -/
inductive Event
  | create (path : Path)
  | modify (path : Path)
  | timer (path : Path)
  | delete (path : Path)
  | rename (path oldPath : Path)
  | flush
  | capture (aborted : World → Bool)
  | baseline
  | recapture (path : Path)

def handle (D : Device) : Event → Async Unit
  | .create path => handleCreate D path
  | .modify path => handleModify D path
  | .timer path => timerFires D path
  | .delete path => handleDelete D path
  | .rename path oldPath => handleRename D path oldPath
  | .flush => OperationLogger.flush D
  | .capture aborted => captureOfflineChanges D aborted
  | .baseline => captureAllAsBaseline D
  | .recapture path => recaptureLocalEdit D path

/-- Only an armed timer fires. -/
def Occurs (w : World) : Event → Prop
  | .timer path => path ∈ w.debounceTimers
  | _ => True

/-- No tracked file is moved onto an excluded path from one that is not, and none is
recaptured at an excluded path. -/
def StaysInside (D : Device) (w : World) : Event → Prop
  | .rename path oldPath => isExcluded path D.settings = true →
      isExcluded oldPath D.settings = true ∨ w.registry.getByPath oldPath = none
  | .recapture path => isExcluded path D.settings = true → w.registry.getByPath path = none
  | _ => True

/-- The handlers that events under a condition start. -/
def Started (D : Device) (cond : World → Event → Prop) (w : World) (t : Async Unit) : Prop :=
  ∃ e, Occurs w e ∧ cond w e ∧ t = handle D e

theorem within_handle (hc : Clean D w) {e : Event} (hoccurs : Occurs w e)
    (he : StaysInside D w e) : Within (Others D) (Tidy D) (handle D e) w := by
  have hdoes : ∀ t : Async Unit, Does (Tidy D) t (fun _ => True) → Within (Others D) (Tidy D) t w :=
    fun t ht => wp_mono (fun _ _ _ => trivial) (wp_of_does _ ht w)
  cases e with
  | create path => exact hdoes _ (does_handleCreate path)
  | modify path => exact hdoes _ (does_handleModify path)
  | timer path => exact hdoes _ (does_timerFires (hc.timers path hoccurs))
  | delete path => exact hdoes _ (does_handleDelete path)
  | rename path oldPath => exact within_handleRename he
  | flush => exact within_flush hc
  | capture aborted => exact within_captureOfflineChanges aborted w
  | baseline => exact hdoes _ does_captureAllAsBaseline
  | recapture path => exact within_recaptureLocalEdit he

/-- Nobody waits for the handlers: the pool has no main coroutine. -/
def protocol (D : Device) : Protocol World String where
  mainRely _ _ := True
  mainGuarantee := Tidy D
  mainPost _ _ := True
  handlerRely := Others D
  handlerGuarantee := Tidy D

theorem compatible (D : Device) : (protocol D).Compatible UserEdits
    (fun w t => Started D (StaysInside D) w t ∧ Clean D w) where
  mainRefl _ := trivial
  mainTrans _ _ _ _ _ := trivial
  handlerRefl _ := stays_self
  handlerTrans _ _ _ := stays_trans
  mainEnv _ _ _ := trivial
  mainHandler _ _ _ := trivial
  handlerEnv := by
    rintro w _ ⟨disk, rfl⟩
    exact stays_self
  handlerHandler _ _ h := h.stays
  handlerMain _ _ h := h.stays
  spawned := by
    rintro w _ ⟨⟨e, hoccurs, he, rfl⟩, hc⟩
    exact within_handle hc hoccurs he

/-- However the handlers and the passes interleave, while every event stays inside no recorded
op, no pending op and no armed timer names an excluded path. -/
theorem clean_of_runs {p : Pool World String} (hc : Clean D w)
    (hr : Runs UserEdits (Started D (StaysInside D)) ⟨w, pure (), [], .nobody⟩ p) :
    Clean D p.state := by
  have henv : ∀ w w', UserEdits w w' → Clean D w → Clean D w' := by
    rintro w _ ⟨disk, rfl⟩ hc
    exact ⟨hc.recorded, hc.pendingOps, hc.timers⟩
  have hstart : (protocol D).Holds ⟨w, pure (), [], .nobody⟩ :=
    { mainRuns := nofun
      mainParked := fun _ => ⟨w, trivial, trivial⟩
      handlersParked := nofun
      handlerRuns := nofun }
  have hunder := Protocol.runs_under (compatible D) henv (fun _ _ => clean_tidy)
    (fun _ _ => clean_tidy) hstart hr hc
  exact Protocol.invariant_of_runs (compatible D) henv (fun _ _ => clean_tidy)
    (fun _ _ => clean_tidy) hstart hunder hc

/-- The event's handler after its first turn. -/
def begun (D : Device) (e : Event) (w : World) : Resting World String :=
  ⟨(takeTurn (handle D e) w).2, pure (), [(takeTurn (handle D e) w).1]⟩

theorem runs_event {cond : World → Event → Prop} {e : Event} (hoccurs : Occurs w e)
    (he : cond w e) {choices : List Choice} {r : Resting World String}
    (h : schedule choices (begun D e w) = some r) :
    Runs UserEdits (Started D cond) ⟨w, pure (), [], .nobody⟩ r.pool :=
  .head (.spawn ⟨e, hoccurs, he, rfl⟩) ((runs_handlerTurn _ _ _ _).trans (runs_of_schedule h))

/-- `n.md` was renamed to this path. -/
def renamed (path : Path) : World :=
  atRest [(path, [104])] (empty.insert (fileAt "f" "n.md" "h" 1) (by decide))

theorem clean_renamed (path : Path) : Clean asciiDevice (renamed path) := ⟨nofun, nofun, nofun⟩

theorem clean_of_runs_renamed : ∃ p, Runs UserEdits (Started asciiDevice (StaysInside asciiDevice))
    ⟨renamed "o.md", pure (), [], .nobody⟩ p ∧ p.state.log.recorded.map (·.path) = ["o.md"] ∧
    Clean asciiDevice p.state := by
  obtain ⟨r, hr, hops⟩ : ∃ r, schedule [.handler 0]
      (begun asciiDevice (.rename "o.md" "n.md") (renamed "o.md")) = some r ∧
      r.state.log.recorded.map (·.path) = ["o.md"] := ⟨_, rfl, rfl⟩
  have hruns : Runs UserEdits (Started asciiDevice (StaysInside asciiDevice))
      ⟨renamed "o.md", pure (), [], .nobody⟩ r.pool :=
    runs_event (e := .rename "o.md" "n.md") trivial (fun h => absurd h (by decide)) hr
  exact ⟨r.pool, hruns, hops, clean_of_runs (clean_renamed "o.md") hruns⟩

/-- The plugin's own directory is never to leave the device. -/
theorem clean_leaks_rename : ¬ ∀ (D : Device) (w : World) (p : Pool World String), Clean D w →
    Runs UserEdits (Started D fun _ _ => True) ⟨w, pure (), [], .nobody⟩ p → Clean D p.state := by
  intro h
  obtain ⟨r, hr, op, hop, hexcl⟩ : ∃ r, schedule [.handler 0]
      (begun asciiDevice (.rename ".obsidian/plugins/opsblobs/n.md" "n.md")
        (renamed ".obsidian/plugins/opsblobs/n.md")) = some r ∧
      ∃ op ∈ r.state.log.recorded, isExcluded op.path asciiDevice.settings = true :=
    ⟨_, rfl, _, List.mem_singleton_self _, by decide⟩
  have hclean := h asciiDevice _ r.pool (clean_renamed _)
    (runs_event (e := .rename _ _) trivial trivial hr)
  cases hexcl.symm.trans (hclean.recorded op hop)

end Runs

section Leaks

variable {path oldPath : Path} {entry : FileEntry}

theorem recorded_appendOpLog {r : Except String Unit} (h : run appendOpLog w = some (r, w')) :
    w'.log.recorded = w.log.recorded := by
  obtain ⟨-, hsteps⟩ := ends_of_run (R := Eq) (fun _ => rfl) (wp_of_does Eq does_appendOpLog w) h
  clear h
  induction hsteps with
  | refl => rfl
  | tail _ hlast ih =>
      obtain ⟨log, rfl, -, hrec⟩ := hlast
      exact hrec.trans ih

/-- Outside the condition the op is recorded: the path of a tracked file that is moved onto an
excluded one goes into the log, and its content's hash with it. -/
theorem handleRename_leaks (hpath : isExcluded path D.settings = true)
    (hold : isExcluded oldPath D.settings = false)
    (hentry : w.registry.getByPath oldPath = some entry) (hhash : entry.contentHash ≠ "")
    {r : Except String Unit} (hr : run (handleRename D path oldPath) w = some (r, w')) :
    ∃ op ∈ w'.log.recorded, op.path = path ∧ op.contentHash = entry.contentHash := by
  rw [handleRename, hpath, hold] at hr
  simp only [Bool.and_false, Bool.false_eq_true, if_false, OperationLogger.getByPath, run_bind,
    run_get, run_pure, Option.bind_some, resume_ok, hentry, run_hlcNow, run_updateRegistry, current,
    getById_updatePath hentry, if_true, Option.getD_some, if_neg hhash, recordOp, pushOp, setLog,
    run_modify] at hr
  rw [recorded_appendOpLog hr]
  exact ⟨_, List.mem_append_right _ (List.mem_singleton_self _), rfl, rfl⟩

end Leaks

end OpsBlobs.ExcludedPaths
