import OpsBlobs.ApplySpec

namespace OpsBlobs.ApplyRegistry

open Types FileRegistry Coroutine World ConflictMarkers SyncApplicator ApplySpec

/-- A live entry of `r'` stood live at the same path in `r`, or it is the acting file's and
at one of the touched paths; the other paths keep or lose their index entry. -/
structure Follows (r r' : FileRegistry) (fileId : String) (paths : List Path) : Prop where
  live : ∀ g e, r'.entries.get g = some e → e.deleted = false →
    (∃ e₀, r.entries.get g = some e₀ ∧ e₀.deleted = false ∧ e₀.path = e.path) ∨
      g = fileId ∧ e.path ∈ paths
  index : ∀ q g, r'.pathIndex.get q = some g → q ∈ paths ∨ r.pathIndex.get q = some g

variable {r : FileRegistry} {fileId : String} {path : Path} {paths : List Path}

theorem follows_refl : Follows r r fileId paths where
  live _ e he hlive := Or.inl ⟨e, he, hlive, rfl⟩
  index _ _ h := Or.inr h

theorem follows_change {f : FileEntry → FileEntry}
    {hf : ∀ e, (f e).id = e.id ∧ (f e).path = e.path} {id : String}
    (hdel : ∀ e, (f e).deleted = false → e.deleted = false) :
    Follows r (r.change f hf id) fileId paths where
  live g e he hlive := by
    rw [get_change] at he
    split at he
    · obtain ⟨e₀, he₀, rfl⟩ := Option.map_eq_some_iff.1 he
      exact Or.inl ⟨e₀, he₀, hdel e₀ hlive, (hf e₀).2.symm⟩
    · exact Or.inl ⟨e, he, hlive, rfl⟩
  index q g h := Or.inr (by rwa [pathIndex_change] at h)

theorem follows_changeAt {f : FileEntry → FileEntry}
    {hf : ∀ e, (f e).id = e.id ∧ (f e).path = e.path}
    (hdel : ∀ e, (f e).deleted = false → e.deleted = false) :
    Follows r (r.changeAt f hf path) fileId paths := by
  unfold changeAt
  split
  · exact follows_refl
  · exact follows_change hdel

theorem follows_markDeleted (hlc : Hlc) : Follows r (r.markDeleted path hlc) fileId paths :=
  follows_changeAt nofun

theorem follows_markConflicted (contentHash : String) (hlc : Hlc) (parents : List String) :
    Follows r (r.markConflicted path contentHash hlc parents) fileId paths :=
  follows_changeAt (fun _ h => h)

theorem get_evict_of {id g : String} {e : FileEntry} (h : (r.evict id path).get g = some e) :
    r.entries.get g = some e := by
  unfold evict at h
  split at h
  · split at h
    · exact h
    · rw [FileEntries.get_delete] at h
      split at h
      · cases h
      · exact h
  · exact h

theorem follows_adoptRemote (contentHash : String) (hlc : Hlc) (head : Option String)
    (hp : path ∈ paths) :
    Follows r (r.adoptRemote fileId path contentHash hlc head) fileId paths where
  live g e he hlive := by
    rw [FileRegistry.adoptRemote, FileEntries.get_set] at he
    split at he
    · rename_i hg
      cases he
      exact Or.inr ⟨hg.symm, hp⟩
    · exact Or.inl ⟨e, get_evict_of he, hlive, rfl⟩
  index q g h := by
    rw [FileRegistry.adoptRemote, JsMap.get_set] at h
    split at h
    · rename_i hq
      exact Or.inl (hq ▸ hp)
    · exact Or.inr (get_unindex h).1

/-- A move through the index takes the acting file along, or nothing. -/
theorem follows_updatePath {fromPath toPath : Path} (hlc : Hlc)
    (hown : ∀ g, r.pathIndex.get fromPath = some g → g = fileId) (hp : toPath ∈ paths) :
    Follows r (r.updatePath fromPath toPath hlc) fileId paths := by
  unfold updatePath
  split
  · exact follows_refl
  · rename_i id hidx
    split
    · exact follows_refl
    · rename_i entry he
      have hid : entry.id = id := FileEntries.get_id he
      refine ⟨fun g e hg hlive => ?_, fun q g h => ?_⟩
      · rw [FileEntries.get_set] at hg
        split at hg
        · rename_i hgid
          cases hg
          exact Or.inr ⟨(hgid.symm.trans hid).trans (hown id hidx), hp⟩
        · exact Or.inl ⟨e, hg, hlive, rfl⟩
      · rw [JsMap.get_set] at h
        split at h
        · rename_i hq
          exact Or.inl (hq ▸ hp)
        · rw [JsMap.get_delete] at h
          split at h
          · cases h
          · exact Or.inr h

variable (D : Device) (H : ConflictHandlers) (localState : VaultState) (w : World)

theorem follows_restores {w w' : World} {content : Bytes} {parents : Option (List String)}
    (h : Restores D w w' fileId path content parents) (hp : path ∈ paths) :
    Follows w.registry w'.registry fileId paths := by
  obtain ⟨-, ⟨hlc, hreg⟩, -⟩ := h
  rw [hreg]
  exact follows_adoptRemote _ _ _ hp

/-- What applying one action does to the registry. -/
theorem follows_applyAction (action : MergeAction) {result : Except String Applied} {w' : World}
    (hrun : run (applyAction D H localState action) w = some (result, w'))
    (hown : ∀ id fromPath toPath, action = .moveLocal id fromPath toPath →
      ∀ g, w.registry.pathIndex.get fromPath = some g → g = id) :
    Follows w.registry w'.registry action.fileId (touched H localState action) := by
  cases action with
  | writeLocal fileId path content hlc head =>
      cases hd : Drifted D localState w fileId (currentPath localState fileId path) with
      | true =>
          cases hrun.symm.trans (run_writeLocal_drifted D H localState w _ _ _ _ _ hd)
          exact follows_refl
      | false =>
          obtain ⟨w₁, hrun', -, hreg, -⟩ :=
            run_writeLocal D H localState w fileId path content hlc head hd
          cases hrun.symm.trans hrun'
          rw [hreg]
          exact follows_adoptRemote _ _ _ List.mem_cons_self
  | writeMerge fileId path content parents =>
      cases hd : Drifted D localState w fileId (currentPath localState fileId path) with
      | true =>
          cases hrun.symm.trans (run_writeMerge_drifted D H localState w _ _ _ _ hd)
          exact follows_refl
      | false =>
          obtain ⟨w₁, resolution, hrun', -, hreg, -⟩ :=
            run_writeMerge D H localState w fileId path content parents hd
          cases hrun.symm.trans hrun'
          rw [hreg]
          exact follows_adoptRemote _ _ _ List.mem_cons_self
  | moveLocal fileId fromPath toPath =>
      cases hd : Drifted D localState w fileId fromPath with
      | true =>
          cases hrun.symm.trans (run_moveLocal_drifted D H localState w _ _ _ hd)
          exact follows_refl
      | false =>
          by_cases hr : MoveRejected D w fromPath toPath
          · cases hrun.symm.trans (run_moveLocal_rejected D H localState w _ _ _ hd hr)
            exact follows_refl
          · obtain ⟨w₁, hrun', -, ⟨hlc, hreg⟩, -⟩ :=
              run_moveLocal D H localState w fileId fromPath toPath hd hr
            cases hrun.symm.trans hrun'
            rw [hreg]
            exact follows_updatePath hlc (hown _ _ _ rfl)
              (List.mem_cons_of_mem _ List.mem_cons_self)
  | deleteLocal fileId path =>
      cases hd : Drifted D localState w fileId path with
      | true =>
          cases hrun.symm.trans (run_deleteLocal_drifted D H localState w _ _ hd)
          exact follows_refl
      | false =>
          obtain ⟨w₁, hrun', -, ⟨hlc, hreg⟩, -⟩ :=
            run_deleteLocal D H localState w fileId path hd
          cases hrun.symm.trans hrun'
          rw [hreg]
          exact follows_markDeleted hlc
  | conflict fileId localPath remotePath m localText remoteText parents =>
      cases hd : Drifted D localState w fileId (currentPath localState fileId localPath) with
      | true =>
          cases hrun.symm.trans (run_writeMarkers_drifted D H localState w _ _ _ _ _ _ _ hd)
          exact follows_refl
      | false =>
          obtain ⟨w₁, hrun', -, ⟨hlc, hreg⟩, -⟩ := run_writeMarkers D H localState w fileId
            localPath remotePath localText remoteText m parents hd
          cases hrun.symm.trans hrun'
          rw [hreg]
          exact follows_markConflicted _ _ _
  | deleteConflict fileId path side content parents =>
      cases hdec : H.onDeleteConflict (.deleteConflict fileId path side content parents) with
      | deferConflict =>
          cases hrun.symm.trans (run_settleDelete_deferred D H localState w _ _ _ _ _ hdec)
          exact follows_refl
      | keepModified =>
          obtain ⟨w₁, resolution, hrun', hrest⟩ :=
            run_settleDelete_keepModified D H localState w fileId path side content parents hdec
          cases hrun.symm.trans hrun'
          refine follows_restores D hrest ?_
          rw [touched, hdec, if_neg (by rintro ⟨⟩)]
          exact List.mem_singleton_self path
      | keepDeleted =>
          obtain ⟨w₁, resolution, hrun', -, ⟨hlc, hreg⟩, -⟩ :=
            run_settleDelete_keepDeleted D H localState w fileId path side content parents hdec
          cases hrun.symm.trans hrun'
          rw [hreg]
          exact follows_markDeleted hlc
  | binaryConflict fileId localPath remotePath localContent remoteContent localHlc remoteHlc
      parents =>
      cases hdec : H.onBinaryConflict (.binaryConflict fileId localPath remotePath localContent
          remoteContent localHlc remoteHlc parents) with
      | deferConflict =>
          cases hrun.symm.trans (run_settleBinary_deferred D H localState w _ _ _ _ _ _ _ _ hdec)
          exact follows_refl
      | keepLocal =>
          obtain ⟨w₁, resolution, hrun', hrest⟩ := run_settleBinary D H localState w
            fileId localPath remotePath localContent remoteContent localHlc remoteHlc parents _
            hdec (by rintro ⟨⟩)
          cases hrun.symm.trans hrun'
          refine follows_restores D hrest ?_
          simp only [touched, hdec]
          exact List.mem_singleton_self localPath
      | keepRemote =>
          obtain ⟨w₁, resolution, hrun', hrest⟩ := run_settleBinary D H localState w
            fileId localPath remotePath localContent remoteContent localHlc remoteHlc parents _
            hdec (by rintro ⟨⟩)
          cases hrun.symm.trans hrun'
          refine follows_restores D hrest ?_
          simp only [touched, hdec]
          exact List.mem_singleton_self remotePath
  | sendRemote =>
      cases hrun
      exact follows_refl
  | deleteRemote =>
      cases hrun
      exact follows_refl
  | noOp =>
      cases hrun
      exact follows_refl

section Loop

variable {D H localState}

theorem run_applyIsolated {st st' : ApplyState} {action : MergeAction} {w w' : World}
    (h : run (applyIsolated D H localState st action) w = some (.ok st', w')) :
    ∃ result, run (applyAction D H localState action) w = some (result, w') := by
  obtain ⟨result, w₁, hrun, -⟩ := run_applyAction_frame D H localState w action
  refine ⟨result, ?_⟩
  simp only [applyIsolated, run_bind, run_tryCatch, hrun, Option.bind_some] at h
  cases result with
  | ok applied =>
      simp only [resume_ok, run_pure, run_pause, Option.bind_some] at h
      cases h
      exact hrun
  | error message =>
      simp only [resume_error, run_ite, run_throw, run_pure] at h
      by_cases hmany : MAX_ACTION_FAILURES < st.failures.length + 1
      · simp [hmany] at h
      · simp only [List.length_append, List.length_singleton, if_neg hmany, Option.bind_some,
          resume_ok, run_pause] at h
        cases h
        exact hrun

/-- The loop rule for the apply loop: an invariant of the actions done and the world. -/
theorem invariant_foldM {I : List MergeAction → World → Prop} (done : List MergeAction)
    {actions : List MergeAction} {st st' : ApplyState} {w w' : World}
    (h : run (foldM (applyIsolated D H localState) st actions) w = some (.ok st', w'))
    (hI : I done w)
    (hstep : ∀ pre a post w result w', done ++ actions = pre ++ a :: post → I pre w →
      run (applyAction D H localState a) w = some (result, w') → I (pre ++ [a]) w') :
    I (done ++ actions) w' := by
  induction actions generalizing done st w with
  | nil =>
      cases h
      rw [List.append_nil]
      exact hI
  | cons a rest ih =>
      rw [run_foldM_cons] at h
      obtain ⟨⟨outcome, w₁⟩, hfirst, h⟩ := Option.bind_eq_some_iff.1 h
      cases outcome with
      | error e => cases h
      | ok st₁ =>
          obtain ⟨result, hrun⟩ := run_applyIsolated hfirst
          have hnext := hstep done a rest w result w₁ rfl hI hrun
          have hsplit : done ++ a :: rest = (done ++ [a]) ++ rest := by simp
          rw [hsplit] at hstep ⊢
          exact ih _ h hnext hstep

end Loop

end OpsBlobs.ApplyRegistry
