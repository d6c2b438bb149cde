import OpsBlobs.CarefulRun
import OpsBlobs.WorldEffects

namespace OpsBlobs.CapturePhantom

open Types Operations Hlc ExclusionPolicy FileRegistry Coroutine Interleaving World OperationLogger
  WriteEffects WorldEffects CarefulRun

variable (D : Device) (listing : List VaultFileRef)

/-- Every tracked file on disk, the excluded ones apart, is in the listing. -/
def Covered (w : World) : Prop :=
  ∀ id e, w.registry.getById id = some e → isExcluded e.path D.settings = false →
    w.disk.get e.path ≠ none → e.path ∈ listing.map (·.path)

/-- No tracked file appears at a path that is not listed, and no entry is dropped, excluded or
moved onto a listed path from one that is not. -/
structure Steady (w w' : World) : Prop where
  covered : Covered D listing w'
  kept : ∀ id e, w.registry.getById id = some e → isExcluded e.path D.settings = false →
    ∃ e', w'.registry.getById id = some e' ∧ isExcluded e'.path D.settings = false ∧
      (e'.path ∈ listing.map (·.path) → e.path ∈ listing.map (·.path))

/-- A write tombstones an entry, and records a delete, only where there is no file. -/
structure Justified (w w' : World) : Prop where
  tombstone : ∀ id e e', w.registry.getById id = some e → e.deleted = false →
    w'.registry.getById id = some e' → e'.deleted = true → w.disk.get e.path = none
  deleteOp : ∃ ops, w'.log.pendingOps = w.log.pendingOps ++ ops ∧
    ∀ op ∈ ops, op.type = .delete → w.disk.get op.path = none

/-- A write of the pass. -/
structure Pass (w w' : World) : Prop where
  justified : Justified w w'
  covered : Covered D listing w → Covered D listing w'

variable {D listing} {w w' : World} {r r' : FileRegistry}

section Writes

/-- An update that tombstones nothing and tracks no more than listed files. -/
def Spares (listing : List VaultFileRef) (r r' : FileRegistry) : Prop :=
  ∀ id e', r'.getById id = some e' →
    (∃ e, r.getById id = some e ∧ e.path = e'.path ∧ (e.deleted = false → e'.deleted = false)) ∨
      e'.path ∈ listing.map (·.path) ∧ e'.deleted = false

theorem spares_self : Spares listing r r := fun _ e' he' => Or.inl ⟨e', he', rfl, id⟩

theorem spares_change {f : FileEntry → FileEntry} {id : String}
    {hf : ∀ e, (f e).id = e.id ∧ (f e).path = e.path}
    (hdel : ∀ e, e.deleted = false → (f e).deleted = false) :
    Spares listing r (r.change f hf id) := by
  intro id' e' he'
  rw [getById, get_change] at he'
  split at he'
  · obtain ⟨e, he, rfl⟩ := Option.map_eq_some_iff.1 he'
    exact Or.inl ⟨e, he, (hf e).2.symm, hdel e⟩
  · exact Or.inl ⟨e', he', rfl, fun h => h⟩

theorem spares_changeAt {f : FileEntry → FileEntry} {path : Path}
    {hf : ∀ e, (f e).id = e.id ∧ (f e).path = e.path}
    (hdel : ∀ e, e.deleted = false → (f e).deleted = false) :
    Spares listing r (r.changeAt f hf path) := by
  rw [changeAt]
  split
  · exact spares_self
  · exact spares_change hdel

theorem spares_setHeadVersion (fileId versionId : String) :
    Spares listing r (r.setHeadVersion fileId versionId) := spares_change fun _ h => h

theorem withStat_deleted (stat : Option VaultFileStat) (e : FileEntry) :
    (withStat stat e).deleted = e.deleted := by
  cases stat <;> rfl

theorem spares_registerFile {path : Path} (hpath : path ∈ listing.map (·.path)) (hlc : Hlc)
    (contentHash : String) (stat : Option VaultFileStat) :
    Spares listing r (r.registerFile D path hlc contentHash stat).1 := by
  rw [FileRegistry.registerFile]
  split
  · simp only [resurrect]
    split
    · exact spares_self
    · split
      · refine spares_change fun e _ => ?_
        rw [withStat_deleted]
      · exact spares_self
  · intro id e' he'
    change (r.entries.set _).get id = some e' at he'
    rw [FileEntries.get_set] at he'
    split at he'
    · obtain rfl := Option.some.inj he'
      refine Or.inr ⟨?_, withStat_deleted _ _⟩
      rw [(withStat_id stat _).2]
      exact hpath
    · exact Or.inl ⟨e', he', rfl, fun h => h⟩

theorem pass_spares (hdisk : w'.disk = w.disk) (hr : Spares listing w.registry w'.registry)
    (hops : ∃ ops, w'.log.pendingOps = w.log.pendingOps ++ ops ∧
      ∀ op ∈ ops, op.type = .delete → w.disk.get op.path = none) : Pass D listing w w' := by
  refine ⟨⟨?_, hops⟩, ?_⟩
  · intro id e e' he hlive he' hdel
    rcases hr id e' he' with ⟨e₀, he₀, -, hsame⟩ | ⟨-, hnew⟩
    · obtain rfl := Option.some.inj (he.symm.trans he₀)
      cases hdel.symm.trans (hsame hlive)
    · cases hdel.symm.trans hnew
  · intro hcov id e' he' hexcl hfile
    rw [hdisk] at hfile
    rcases hr id e' he' with ⟨e, he, hpath, -⟩ | ⟨hlisted, -⟩
    · rw [← hpath] at hexcl hfile ⊢
      exact hcov id e he hexcl hfile
    · exact hlisted

theorem pass_quiet (hdisk : w'.disk = w.disk) (hr : w'.registry = w.registry)
    (hops : w'.log.pendingOps = w.log.pendingOps) : Pass D listing w w' :=
  pass_spares hdisk (hr ▸ spares_self) ⟨[], by rw [hops, List.append_nil], nofun⟩

theorem pass_push {op : Operation} (hop : op.type = .delete → w.disk.get op.path = none) :
    Pass D listing w { w with log := OpLog.push op w.log } :=
  pass_spares rfl spares_self ⟨[op], rfl, fun _ h => List.mem_singleton.1 h ▸ hop⟩

/-- Tombstoning a path that has no file. -/
theorem pass_markDeleted {path : Path} (hlc : Hlc) (hgone : w.disk.get path = none) :
    Pass D listing w { w with registry := w.registry.markDeleted path hlc } := by
  have hget : ∀ id e', (w.registry.markDeleted path hlc).getById id = some e' →
      ∃ e, w.registry.getById id = some e ∧ e.path = e'.path ∧
        (e.deleted = false → e'.deleted = true → e.path = path) := by
    intro id e' he'
    rw [markDeleted, changeAt] at he'
    split at he'
    · exact ⟨e', he', rfl, fun h h' => by cases h.symm.trans h'⟩
    · rename_i id' hid
      rw [getById, get_change] at he'
      split at he'
      · rename_i hsame
        obtain ⟨e, he, rfl⟩ := Option.map_eq_some_iff.1 he'
        obtain ⟨e₀, he₀, hpath⟩ := w.registry.indexed path id' hid
        rw [hsame] at he₀
        obtain rfl := Option.some.inj (he.symm.trans he₀)
        exact ⟨e, he, rfl, fun _ _ => hpath⟩
      · exact ⟨e', he', rfl, fun h h' => by cases h.symm.trans h'⟩
  refine ⟨⟨?_, [], (List.append_nil _).symm, nofun⟩, ?_⟩
  · intro id e e' he hlive he' hdel
    obtain ⟨e₀, he₀, -, hpath⟩ := hget id e' he'
    obtain rfl := Option.some.inj (he.symm.trans he₀)
    rw [hpath hlive hdel]
    exact hgone
  · intro hcov id e' he' hexcl hfile
    obtain ⟨e, he, hpath, -⟩ := hget id e' he'
    rw [← hpath] at hexcl hfile ⊢
    exact hcov id e he hexcl hfile

end Writes

section Scan

theorem does_spares {f : FileRegistry → FileRegistry} (hf : ∀ r, Spares listing r (f r)) :
    Does (Pass D listing) (updateRegistry f) (fun _ => True) :=
  does_updateRegistry fun w =>
    pass_spares rfl (hf w.registry) ⟨[], (List.append_nil _).symm, nofun⟩

theorem does_pushOp {op : Operation} (hop : op.type ≠ .delete) :
    Does (Pass D listing) (pushOp op) (fun _ => True) :=
  does_modify fun _ => pass_push fun h => absurd h hop

theorem does_setHeadVersion (fileId versionId : String) :
    Does (Pass D listing) (OperationLogger.setHeadVersion fileId versionId) (fun _ => True) :=
  does_spares fun _ => spares_setHeadVersion fileId versionId

theorem does_append : Does (Pass D listing) appendOpLog (fun _ => True) := by
  refine does_weaken ?_ does_appendOpLog
  rintro w _ ⟨log, rfl, hops, -⟩
  exact pass_quiet rfl rfl hops

theorem does_checkpointFlush (st : CaptureState) :
    Does (Pass D listing) (checkpointFlush st) (fun st' => st'.onDisk = st.onDisk) := by
  refine does_then does_pause fun _ => does_then does_pause fun _ => ?_
  dsimp only
  split
  · exact does_then does_append fun _ => does_pure rfl
  · exact does_pure rfl

theorem does_checkpointTick (st : CaptureState) :
    Does (Pass D listing) (checkpointTick st) (fun st' => st'.onDisk = st.onDisk) := by
  rw [checkpointTick]
  split
  · exact does_then does_pause fun _ => does_pure rfl
  · exact does_checkpointFlush _

theorem does_captureDrift {path : Path} (hpath : path ∈ listing.map (·.path))
    (entry : Option FileEntry) (hash : String) (hlcTs : Hlc) (stat : VaultFileStat) :
    Does (Pass D listing) (captureDrift D path entry hash hlcTs stat) (fun _ => True) := by
  cases entry with
  | none =>
      have hregister : Does (Pass D listing)
          (OperationLogger.registerFile D path hlcTs hash (some stat)) (fun _ => True) :=
        does_then (does_modifyGet fun w => pass_spares rfl
          (spares_registerFile hpath hlcTs hash (some stat)) ⟨[], (List.append_nil _).symm, nofun⟩)
          fun _ => does_then does_pause fun _ => does_pure trivial
      refine does_then hregister fun id => does_then (does_pushOp nofun) fun _ => ?_
      exact does_setHeadVersion _ _
  | some entry =>
      refine does_then (does_current entry) fun entry => ?_
      refine does_then (does_spares fun _ => spares_changeAt fun e h => h) fun _ => ?_
      refine does_then (does_pushOp ?_) fun _ => does_setHeadVersion _ _
      split <;> exact nofun

/-- What is done about a file that was read. -/
theorem does_recapture (st : CaptureState) {ref : VaultFileRef}
    (hpath : ref.path ∈ listing.map (·.path)) (entry held : Option FileEntry) (hash : String)
    (content : Bytes) :
    Does (Pass D listing) (do
      if held.map (·.contentHash) = some hash then
        if statUnchanged held ref then pure st
        else
          updateRegistry (fun r => r.recordStat ref.path ref.toVaultFileStat)
          pure st
      else
        ContentStore.putBuffered hash content
        let hlcTs ← hlcNow
        captureDrift D ref.path entry hash hlcTs ref.toVaultFileStat
        checkpointTick { st with changed := true }) (fun st' => st'.onDisk = st.onDisk) := by
  split
  · split
    · exact does_pure rfl
    · exact does_then (does_spares fun _ => spares_changeAt fun e h => h) fun _ => does_pure rfl
  · refine does_then (does_put fun _ => pass_quiet rfl rfl rfl) fun _ => ?_
    refine does_then (does_hlcNow fun _ _ _ => pass_quiet rfl rfl rfl) fun hlcTs => ?_
    exact does_then (does_captureDrift hpath _ _ _ _) fun _ => does_checkpointTick _

theorem does_captureRef (st : CaptureState) {ref : VaultFileRef} (href : ref ∈ listing) :
    Does (Pass D listing) (captureRef D st ref) (fun st' => st'.onDisk = st.onDisk ++
      (if isExcluded ref.path D.settings then [] else [ref.path])) := by
  have hpath : ref.path ∈ listing.map (·.path) := List.mem_map_of_mem href
  rw [captureRef]
  split
  · exact does_pure (List.append_nil _).symm
  · split
    · exact does_pure rfl
    · refine does_then (does_getByPath _) fun entry => ?_
      split
      · exact does_pure rfl
      · refine does_then (does_read _) fun content => ?_
        split
        · exact does_pure rfl
        · refine does_then (does_hashContent D _) fun hash => ?_
          cases entry with
          | none =>
              exact does_recapture { st with onDisk := st.onDisk ++ [ref.path] } hpath none none hash _
          | some entry =>
              exact does_then (does_current entry) fun held => does_recapture
                { st with onDisk := st.onDisk ++ [ref.path] } hpath (some entry) (some held) hash _

/-- A scan that was not aborted has seen every listed file that is not excluded. -/
theorem does_captureRefs (aborted : World → Bool) (st : CaptureState) {refs : List VaultFileRef}
    (hrefs : refs ⊆ listing) :
    Does (Pass D listing) (captureRefs D aborted st refs) (fun r => r.2 = false →
      ∀ path, path ∈ st.onDisk ∨ path ∈ refs.map (·.path) ∧ isExcluded path D.settings = false →
        path ∈ r.1.onDisk) := by
  induction refs generalizing st with
  | nil => exact does_pure fun _ path h => h.elim id fun h => by cases h.1
  | cons ref rest ih =>
      refine does_then does_get fun w => ?_
      split
      · exact does_pure nofun
      · refine does_bind (does_captureRef st (hrefs List.mem_cons_self)) fun st' hst' => ?_
        refine does_mono ?_ (ih st' fun k hk => hrefs (List.mem_cons_of_mem _ hk))
        intro r hr hdone path hpath
        refine hr hdone path ?_
        rw [hst']
        rcases hpath with hpath | ⟨hpath, hexcl⟩
        · exact Or.inl (List.mem_append_left _ hpath)
        · rcases List.mem_cons.1 hpath with rfl | hpath
          · rw [hexcl]
            exact Or.inl (List.mem_append_right _ (List.mem_singleton_self _))
          · exact Or.inr ⟨hpath, hexcl⟩

end Scan

section Vanished

variable {entries : List FileEntry} {st : CaptureState}

/-- Between two entries of the last loop, all of which are still tracked. -/
structure Checking (D : Device) (listing : List VaultFileRef) (entries : List FileEntry)
    (st : CaptureState) (w : World) : Prop where
  covered : Covered D listing w
  seen : ∀ path, path ∈ listing.map (·.path) → isExcluded path D.settings = false →
    path ∈ st.onDisk
  tracked : ∀ e ∈ entries, ∃ e', w.registry.getById e.id = some e' ∧
    isExcluded e'.path D.settings = false

theorem getById_markDeleted {id : String} {e : FileEntry} (path : Path) (hlc : Hlc)
    (h : r.getById id = some e) :
    ∃ e', (r.markDeleted path hlc).getById id = some e' ∧ e'.path = e.path := by
  rw [markDeleted, changeAt]
  split
  · exact ⟨e, h, rfl⟩
  · rw [getById, get_change]
    split
    · exact ⟨_, congrArg _ h, rfl⟩
    · exact ⟨e, h, rfl⟩

theorem getById_setHeadVersion {id : String} {e : FileEntry} (fileId versionId : String)
    (h : r.getById id = some e) :
    ∃ e', (r.setHeadVersion fileId versionId).getById id = some e' ∧ e'.path = e.path := by
  rw [FileRegistry.setHeadVersion, getById, get_change]
  split
  · exact ⟨_, congrArg _ h, rfl⟩
  · exact ⟨e, h, rfl⟩

/-- The loop's own updates leave the paths alone, and the others keep them where they may be. -/
theorem checking_steady {w₁ : World} (h : Checking D listing entries st w)
    (hpaths : ∀ id e, w.registry.getById id = some e →
      ∃ e', w₁.registry.getById id = some e' ∧ e'.path = e.path)
    (hs : Steady D listing w₁ w') : Checking D listing entries st w' := by
  refine ⟨hs.covered, h.seen, fun e he => ?_⟩
  obtain ⟨e', he', hexcl⟩ := h.tracked e he
  obtain ⟨e₁, he₁, hpath⟩ := hpaths _ _ he'
  obtain ⟨e₂, he₂, hexcl₂, -⟩ := hs.kept e.id e₁ he₁ (by rw [hpath]; exact hexcl)
  exact ⟨e₂, he₂, hexcl₂⟩

/-- An entry whose path was not seen has no file. -/
theorem gone_of_unseen (h : Checking D listing entries st w) {id : String} {e : FileEntry}
    (he : w.registry.getById id = some e) (hexcl : isExcluded e.path D.settings = false)
    (hunseen : e.path ∉ listing.map (·.path)) : w.disk.get e.path = none := by
  by_contra hfile
  exact hunseen (h.covered id e he hexcl hfile)

theorem wp_captureVanished (h : Checking D listing entries st w) {entry : FileEntry}
    (hmem : entry ∈ entries) :
    wp (Steady D listing) (Pass D listing) (captureVanished st entry)
      (onOk (Checking D listing entries) fun _ _ => True) w := by
  obtain ⟨e, he, hexcl⟩ := h.tracked entry hmem
  rw [captureVanished]
  refine wp_current.2 ?_
  rw [he, Option.getD_some]
  split
  · exact h
  rename_i hnew
  have hunseen : e.path ∉ listing.map (·.path) := fun hp => hnew (h.seen e.path hp hexcl)
  refine wp_hlcNow.2 ⟨pass_quiet rfl rfl rfl, wp_updateRegistry.2 ⟨?_, fun w₁ hw₁ => ?_⟩⟩
  · exact pass_markDeleted _ (gone_of_unseen h he hexcl hunseen)
  have h₁ : Checking D listing entries st w₁ :=
    checking_steady h (fun id e₀ he₀ => getById_markDeleted e.path _ he₀) hw₁
  obtain ⟨e', he', hpath⟩ := getById_markDeleted e.path (Hlc.now w.hlc w.wallTime) he
  obtain ⟨e₁, he₁, hexcl₁, hmoved⟩ := hw₁.kept entry.id e' he' (by rw [hpath]; exact hexcl)
  have hunseen₁ : e₁.path ∉ listing.map (·.path) := fun hp => hunseen (hpath ▸ hmoved hp)
  have hid : e.id = entry.id := FileEntries.get_id he
  refine wp_current.2 ?_
  rw [hid, he₁, Option.getD_some]
  split
  · exact h₁
  · refine wp_setLog.2 ⟨pass_push fun _ => gone_of_unseen h₁ he₁ hexcl₁ hunseen₁, ?_⟩
    refine wp_updateRegistry.2 ⟨?_, fun w₂ hw₂ => ?_⟩
    · exact pass_spares rfl (spares_setHeadVersion _ _) ⟨[], (List.append_nil _).symm, nofun⟩
    · have h₂ : Checking D listing entries { st with changed := true } w₁ :=
        ⟨h₁.covered, h₁.seen, h₁.tracked⟩
      exact checking_steady h₂ (fun id e₀ he₀ => getById_setHeadVersion _ _ he₀) hw₂

theorem wp_captureVanished_all (h : Checking D listing entries st w) :
    wp (Steady D listing) (Pass D listing) (foldM captureVanished st entries)
      (fun _ _ => True) w :=
  wp_foldM h (fun _ ha _ _ h => wp_captureVanished h ha) fun _ _ _ => trivial

end Vanished

section Runs

theorem covered_listOf (w : World) : Covered D (Files.listOf w.disk) w := by
  intro id e _ _ hfile
  obtain ⟨file, hget⟩ := Option.ne_none_iff_exists'.1 hfile
  exact List.mem_map.2 ⟨_, List.mem_map_of_mem ((JsMap.mem_entries_iff _).2 hget), rfl⟩

theorem steady_trans {w₁ w₂ w₃ : World} (h : Steady D listing w₁ w₂)
    (h' : Steady D listing w₂ w₃) : Steady D listing w₁ w₃ := by
  refine ⟨h'.covered, fun id e he hexcl => ?_⟩
  obtain ⟨e₂, he₂, hexcl₂, hmoved⟩ := h.kept id e he hexcl
  obtain ⟨e₃, he₃, hexcl₃, hmoved'⟩ := h'.kept id e₂ he₂ hexcl₂
  exact ⟨e₃, he₃, hexcl₃, fun hp => hmoved (hmoved' hp)⟩

theorem wp_captureOfflineChanges (aborted : World → Bool) (w : World) :
    wp (Steady D (Files.listOf w.disk)) (Pass D (Files.listOf w.disk))
      (captureOfflineChanges D aborted) (fun _ _ => True) w := by
  rw [captureOfflineChanges]
  refine wp_tryFinally.2 (wp_mono (Q := fun _ _ => True) ?_ ?_)
  · intro r w' _
    exact wp_mono (fun _ _ _ => by split <;> trivial) (wp_of_does _ does_pause w')
  refine wp_get.2 ?_
  have hscan := wp_invariant (I := Covered D (Files.listOf w.disk)) (fun _ _ hs _ => hs.covered)
    (fun _ _ hs => hs.covered) (wp_of_does (Steady D (Files.listOf w.disk))
      (does_captureRefs aborted ⟨[], false, 0⟩ (List.Subset.refl (Files.listOf w.disk))) w)
    (covered_listOf w)
  refine wp_bind.2 (wp_mono ?_ hscan)
  rintro (e | ⟨st, stopped⟩) w₁ ⟨hseen, hcov⟩
  · trivial
  have hflush : ∀ st w', wp (Steady D (Files.listOf w.disk)) (Pass D (Files.listOf w.disk))
      (checkpointFlush st >>= fun _ => pure ()) (fun _ _ => True) w' := fun st w' =>
    wp_mono (fun _ _ _ => trivial) (wp_of_does _
      (does_then (Q := fun _ => True) (does_checkpointFlush st) fun _ => does_pure trivial) w')
  change wp _ _ (if stopped = true then _ else _) _ _
  split
  · exact hflush st w₁
  rename_i hdone
  refine wp_get.2 ?_
  generalize hentries : w₁.registry.getActiveEntries.filter
    (fun entry => !isExcluded entry.path D.settings) = entries
  have h : Checking D (Files.listOf w.disk) entries st w₁ := by
    refine ⟨hcov, ?_, ?_⟩
    · exact fun path hp hexcl =>
        hseen _ rfl (Bool.eq_false_of_not_eq_true hdone) path (Or.inr ⟨hp, hexcl⟩)
    · intro e he
      rw [← hentries] at he
      obtain ⟨he, hexcl⟩ := List.mem_filter.1 he
      exact ⟨e, (FileEntries.mem_values_iff _).1 (List.mem_filter.1 he).1,
        Bool.not_eq_true' _ ▸ hexcl⟩
  dsimp only
  split
  · exact hflush st w₁
  · refine wp_bind.2 (wp_mono ?_ (wp_captureVanished_all h))
    rintro (e | st') w₂ -
    · trivial
    · exact hflush st' w₂

variable {Env : World → World → Prop} {Spawn : World → Async Unit → Prop}

/-- Whatever the outside world and the handlers do, in a run all of whose steps are steady the
pass tombstones an entry, and records its delete, only where there is no file. -/
theorem capture_deletes_gone (aborted : World → Bool) {w₀ w w' : World}
    {handlers handlers' : List (Async Unit)} {next : Async Unit}
    (hr : CarefulRuns Env Spawn (Steady D (Files.listOf w₀.disk))
      ⟨w₀, captureOfflineChanges D aborted, handlers, .main⟩
      ⟨w, .write w' next, handlers', .main⟩) : Justified w w' := by
  have hstart : MainHolds (Steady D (Files.listOf w₀.disk)) (Pass D (Files.listOf w₀.disk))
      (fun _ _ => True) ⟨w₀, captureOfflineChanges D aborted, handlers, .main⟩ :=
    ⟨fun _ => wp_captureOfflineChanges aborted w₀, fun h => absurd rfl h⟩
  have htrans : ∀ w₁ w₂ w₃, Steady D (Files.listOf w₀.disk) w₁ w₂ →
      Steady D (Files.listOf w₀.disk) w₂ w₃ → Steady D (Files.listOf w₀.disk) w₁ w₃ :=
    fun _ _ _ => steady_trans
  exact (main_guarantee htrans hstart hr).justified

/-- The user changes the vault's files. -/
def UserEdits (w w' : World) : Prop := ∃ disk, w' = { w with disk := disk }

/-- The handlers that a listening plugin starts. -/
inductive VaultEvent (D : Device) (w : World) : Async Unit → Prop
  | create (path : Path) (h : w.listening = true) : VaultEvent D w (handleCreate D path)
  | modify (path : Path) (h : w.listening = true) : VaultEvent D w (handleModify D path)
  | timer (path : Path) (h : path ∈ w.debounceTimers) : VaultEvent D w (timerFires D path)
  | delete (path : Path) (h : w.listening = true) : VaultEvent D w (handleDelete D path)
  | rename (path oldPath : Path) (h : w.listening = true) :
      VaultEvent D w (handleRename D path oldPath)

def capture : Async Unit := captureOfflineChanges asciiDevice (fun _ => false)

section Gone

theorem n_untracked : empty.entries.get (fileAt "f" "n.md" "N" 1).id = none := by decide

/-- `n.md` was deleted while the plugin was off. -/
def vanished : World :=
  atRest [("o.md", [79])]
    ((empty.insert (fileAt "f" "n.md" "N" 1) n_untracked).insert
      { fileAt "g" "o.md" "O" 1 with mtime := some 0, size := some 1 } (by decide))

theorem steady_same (hcov : Covered D listing w') (hr : w'.registry = w.registry) :
    Steady D listing w w' :=
  ⟨hcov, fun id e he hexcl => ⟨e, by rw [hr]; exact he, hexcl, fun hp => hp⟩⟩

theorem capture_deletes_gone_example : ∃ w w' : World,
    (∃ e, w.registry.getById "f" = some e ∧ e.deleted = false) ∧
    (∃ e', w'.registry.getById "f" = some e' ∧ e'.deleted = true) ∧ Justified w w' := by
  have hsame : ∀ m, m < 9 → (takeSteps m capture vanished).2.registry = vanished.registry ∧
      (takeSteps m capture vanished).2.disk = vanished.disk
    | 0, _ | 1, _ | 2, _ | 3, _ | 4, _ | 5, _ | 6, _ | 7, _ | 8, _ => ⟨rfl, rfl⟩
    | m + 9, h => absurd h (Nat.not_lt.2 (Nat.le_add_left 9 m))
  have hcov : Covered asciiDevice (Files.listOf vanished.disk) vanished := covered_listOf vanished
  have hr : CarefulRuns UserEdits (VaultEvent asciiDevice)
      (Steady asciiDevice (Files.listOf vanished.disk)) ⟨vanished, capture, [], .main⟩
      ⟨(takeSteps 8 capture vanished).2, (takeSteps 8 capture vanished).1, [], .main⟩ := by
    refine careful_takeSteps 8 capture vanished [] fun m hm => ?_
    obtain ⟨hreg, hdisk⟩ := hsame (m + 1) (Nat.succ_lt_succ hm)
    refine steady_same ?_ (hreg.trans (hsame m (Nat.lt_succ_of_lt hm)).1.symm)
    intro id e he hexcl hfile
    rw [hreg] at he
    rw [hdisk] at hfile
    exact hcov id e he hexcl hfile
  obtain ⟨w', next, e, e', hstep, he, hlive, he', hdel⟩ : ∃ w' next e e',
      (takeSteps 8 capture vanished).1 = .write w' next ∧
      (takeSteps 8 capture vanished).2.registry.getById "f" = some e ∧ e.deleted = false ∧
      w'.registry.getById "f" = some e' ∧ e'.deleted = true :=
    ⟨_, _, _, _, rfl, rfl, rfl, rfl, rfl⟩
  rw [hstep] at hr
  exact ⟨_, w', ⟨e, he, hlive⟩, ⟨e', he', hdel⟩, capture_deletes_gone _ hr⟩

end Gone

section Created

theorem o_untracked : empty.entries.get (fileAt "g" "o.md" "O" 1).id = none := by decide

/-- Only `o.md` is here, and tracked. -/
def before : World :=
  atRest [("o.md", [79])] (empty.insert (fileAt "g" "o.md" "O" 1) o_untracked)

/-- The pass waits for the bytes of `o.md`. -/
def reading : Resting World String := ⟨(takeTurn capture before).2, (takeTurn capture before).1, []⟩

def created : World := { reading.state with disk := reading.state.disk.set "n.md" ⟨[78], 0⟩ }

/-- The user creates `n.md`, and its handler begins. -/
def creating : Resting World String :=
  ⟨(takeTurn (handleCreate asciiDevice "n.md") created).2, reading.main,
    [(takeTurn (handleCreate asciiDevice "n.md") created).1]⟩

/-- The handler registers `n.md`, and then the pass goes on to the end of its scan. -/
def turns : List Choice := [.handler 0, .handler 0, .handler 0, .main, .main, .main]

theorem capture_tombstones_created :
    ¬ ∀ (D : Device) (aborted : World → Bool) (w₀ w w' : World) (next : Async Unit)
      (handlers : List (Async Unit)),
      Runs UserEdits (VaultEvent D) ⟨w₀, captureOfflineChanges D aborted, [], .main⟩
        ⟨w, .write w' next, handlers, .main⟩ → Justified w w' := by
  intro h
  have hread : Runs UserEdits (VaultEvent asciiDevice) ⟨before, capture, [], .main⟩ reading.pool :=
    runs_mainTurn capture before []
  have hcreate : Runs UserEdits (VaultEvent asciiDevice) reading.pool creating.pool :=
    .head (.env ⟨_, rfl⟩) (.head (.spawn (.create "n.md" rfl)) (runs_handlerTurn _ _ _ _))
  obtain ⟨w, ready, rest, w', next, handlers, e, e', hsched, hready, hstep, he, hlive, he', hdel,
      hfile⟩ : ∃ w ready rest w' next handlers e e',
        schedule turns creating = some ⟨w, .await ready rest, handlers⟩ ∧ ready w = true ∧
        (takeSteps 6 rest w).1 = .write w' next ∧
        (takeSteps 6 rest w).2.registry.getById "uu" = some e ∧ e.deleted = false ∧
        w'.registry.getById "uu" = some e' ∧ e'.deleted = true ∧
        (takeSteps 6 rest w).2.disk.get e.path ≠ none :=
    ⟨_, _, _, _, _, _, _, _, rfl, rfl, rfl, rfl, rfl, rfl, rfl, nofun⟩
  have hlast : Runs UserEdits (VaultEvent asciiDevice) ⟨w, .await ready rest, handlers, .nobody⟩
      ⟨(takeSteps 6 rest w).2, .write w' next, handlers, .main⟩ :=
    hstep ▸ .head (.mainResume hready) (runs_takeSteps 6 rest w handlers)
  have hr := hread.trans (hcreate.trans ((runs_of_schedule hsched).trans hlast))
  exact hfile ((h asciiDevice _ before _ w' next handlers hr).tombstone "uu" e e' he hlive he' hdel)

end Created

end Runs

end OpsBlobs.CapturePhantom
