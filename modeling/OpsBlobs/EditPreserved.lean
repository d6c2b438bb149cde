import OpsBlobs.SnapshotDisk

namespace OpsBlobs.EditPreserved

open Types Diff3 VersionDag FileRegistry Coroutine World ConflictMarkers SyncApplicator ApplySpec
open Resolution SnapshotDisk

variable (D : Device) (H : ConflictHandlers) (localState remoteState : VaultState)
  (dag : Option VersionDag) (w : World)

/-- The content is what the file's two versions merge to over their merge base, without a conflict,
and one of the two has this hash. -/
def MergedFrom (hash : String) (fileId : String) (content : Bytes) : Prop :=
  ∃ le re localContent remoteContent ancestorText m,
    localState.fileEntries.get fileId = some le ∧ remoteState.fileEntries.get fileId = some re ∧
    localState.contentStore.get le.contentHash = some localContent ∧
    remoteState.contentStore.get re.contentHash = some remoteContent ∧
    AncestorText D.toPlatform localState remoteState dag le re ancestorText ∧
    threeWayMerge ancestorText (D.decode localContent) (D.decode remoteContent) = some m ∧
    m.hasConflicts = false ∧ content = D.encode (joinLines m.merged) ∧
    (le.contentHash = hash ∨ re.contentHash = hash)

/-- The action takes bytes of this hash into a merge, or carries them in a conflict. -/
def Carries (hash : String) : MergeAction → Prop
  | .writeMerge fileId _ content _ => MergedFrom D localState remoteState dag hash fileId content
  | .writeLocal fileId _ content _ none => MergedFrom D localState remoteState dag hash fileId content
  | .conflict _ _ _ _ localText remoteText _ =>
      ∃ bytes, D.sha256Hex bytes = hash ∧ (localText = D.decode bytes ∨ remoteText = D.decode bytes)
  | .deleteConflict _ _ _ content _ => D.sha256Hex content = hash
  | .binaryConflict _ _ _ localContent remoteContent _ _ _ =>
      D.sha256Hex localContent = hash ∨ D.sha256Hex remoteContent = hash
  | _ => False

/-- Applied to `w`, the action leaves bytes of this hash at the path or moves them with
the file; or it takes them as an input. -/
def Preserved (p : Path) (hash : String) (action : MergeAction) : Prop :=
  Carries D localState remoteState dag hash action ∨
    ∃ result w', run (applyAction D H localState action) w = some (result, w') ∧
      (HasHash D w' p hash ∨ ∃ fileId q, action = .moveLocal fileId p q ∧ HasHash D w' q hash)

variable {D H localState remoteState dag w} {p path : Path} {hash fileId : String}
  {action : MergeAction} {content : Bytes}

theorem preserved_iff {result : Except String Applied} {w' : World}
    (hrun : run (applyAction D H localState action) w = some (result, w'))
    (hmove : ∀ id q, action ≠ .moveLocal id p q) :
    Preserved D H localState remoteState dag w p hash action ↔
      Carries D localState remoteState dag hash action ∨ HasHash D w' p hash := by
  refine or_congr_right ⟨?_, fun h => ⟨result, w', hrun, Or.inl h⟩⟩
  rintro ⟨result', w'', hrun', h | ⟨id, q, heq, -⟩⟩
  · cases hrun.symm.trans hrun'
    exact h
  · exact absurd heq (hmove id q)

theorem preserved_unchanged {result : Except String Applied} (hw : HasHash D w p hash)
    (hrun : run (applyAction D H localState action) w = some (result, w)) :
    Preserved D H localState remoteState dag w p hash action :=
  Or.inr ⟨result, w, hrun, Or.inl hw⟩

/-- An action that does not touch the path. -/
theorem preserved_frame (hw : HasHash D w p hash) (hp : p ∉ touched H localState action) :
    Preserved D H localState remoteState dag w p hash action := by
  obtain ⟨result, w', hrun, hframe⟩ := run_applyAction_frame D H localState w action
  refine Or.inr ⟨result, w', hrun, Or.inl ?_⟩
  rw [HasHash, hframe p hp]
  exact hw

theorem preserved_writeLocal {hlc : Hlc} {head : Option String} (hw : HasHash D w p hash)
    (hd : Drifted D localState w fileId (currentPath localState fileId path) = false) :
    Preserved D H localState remoteState dag w p hash (.writeLocal fileId path content hlc head) ↔
      Carries D localState remoteState dag hash (.writeLocal fileId path content hlc head) ∨
        ¬ (currentPath localState fileId path ≠ path ∧ currentPath localState fileId path = p) ∧
          (path = p → D.sha256Hex content = hash) := by
  obtain ⟨w', hrun, hdisk, -, -⟩ := run_writeLocal D H localState w fileId path content hlc head hd
  rw [preserved_iff hrun (fun _ _ => nofun)]
  refine or_congr_right ?_
  by_cases hstale : currentPath localState fileId path ≠ path ∧
      currentPath localState fileId path = p
  · refine iff_of_false (not_hasHash_none ?_) (fun h => h.1 hstale)
    rw [bytesAt_writeLocal D hdisk, if_pos hstale]
  · rw [HasHash, bytesAt_writeLocal D hdisk, if_neg hstale]
    by_cases hp : path = p
    · by_cases hsame : (w.bytesAt p).map D.sha256Hex = some (D.sha256Hex content)
      · have heq : D.sha256Hex content = hash := Option.some.inj (hsame.symm.trans hw)
        rw [if_neg (fun h => h.2 hsame)]
        exact iff_of_true hw ⟨hstale, fun _ => heq⟩
      · rw [if_pos ⟨hp, hsame⟩, Option.map_some, Option.some.injEq]
        exact ⟨fun h => ⟨hstale, fun _ => h⟩, fun h => h.2 hp⟩
    · rw [if_neg (fun h => hp h.1)]
      exact iff_of_true hw ⟨hstale, fun h => absurd h hp⟩

theorem preserved_writeMerge {parents : List String} (hw : HasHash D w p hash)
    (hd : Drifted D localState w fileId (currentPath localState fileId path) = false) :
    Preserved D H localState remoteState dag w p hash (.writeMerge fileId path content parents) ↔
      MergedFrom D localState remoteState dag hash fileId content ∨
        ¬ (currentPath localState fileId path ≠ path ∧ currentPath localState fileId path = p) ∧
          (path = p → D.sha256Hex content = hash) := by
  obtain ⟨w', resolution, hrun, hdisk, -, -⟩ :=
    run_writeMerge D H localState w fileId path content parents hd
  rw [preserved_iff hrun (fun _ _ => nofun)]
  refine or_congr_right ?_
  by_cases hstale : currentPath localState fileId path ≠ path ∧
      currentPath localState fileId path = p
  · refine iff_of_false (not_hasHash_none ?_) (fun h => h.1 hstale)
    rw [bytesAt_writeMerge hdisk, if_pos hstale]
  · rw [HasHash, bytesAt_writeMerge hdisk, if_neg hstale]
    by_cases hp : path = p
    · rw [if_pos hp, Option.map_some, Option.some.injEq]
      exact ⟨fun h => ⟨hstale, fun _ => h⟩, fun h => h.2 hp⟩
    · rw [if_neg hp]
      exact iff_of_true hw ⟨hstale, fun h => absurd h hp⟩

theorem preserved_deleteLocal (hd : Drifted D localState w fileId p = false) :
    ¬ Preserved D H localState remoteState dag w p hash (.deleteLocal fileId p) := by
  obtain ⟨w', hrun, hdisk, -, -⟩ := run_deleteLocal D H localState w fileId p hd
  rw [preserved_iff hrun (fun _ _ => nofun)]
  rintro (h | h)
  · exact h
  · exact not_hasHash_none (by rw [bytesAt_delete hdisk, if_pos rfl]) h

/-- A move of the file itself takes its bytes along. -/
theorem preserved_moveAway {toPath : Path} (hw : HasHash D w p hash)
    (hd : Drifted D localState w fileId p = false) :
    Preserved D H localState remoteState dag w p hash (.moveLocal fileId p toPath) := by
  by_cases hr : MoveRejected D w p toPath
  · exact preserved_unchanged hw (run_moveLocal_rejected D H localState w fileId p toPath hd hr)
  · obtain ⟨w', hrun, hdisk, -, -⟩ := run_moveLocal D H localState w fileId p toPath hd hr
    refine Or.inr ⟨_, w', hrun, Or.inr ⟨fileId, toPath, rfl, ?_⟩⟩
    obtain ⟨bytes, hb, rfl⟩ := exists_bytes hw
    obtain ⟨file, hfile, rfl⟩ := Option.map_eq_some_iff.1 hb
    have hmoved : w'.bytesAt toPath = some file.content := by
      rw [bytesAt, hdisk, diskAfterMove, hfile, JsMap.get_set_self]
      rfl
    exact (hasHash_some hmoved).2 rfl

/-- A move of another file onto the path. -/
theorem preserved_moveOnto {fromPath : Path} {hash' : String} (hw : HasHash D w p hash)
    (hne : fromPath ≠ p) (hfrom : HasHash D w fromPath hash')
    (hd : Drifted D localState w fileId fromPath = false) :
    Preserved D H localState remoteState dag w p hash (.moveLocal fileId fromPath p) ↔
      ¬ (D.moveReplaces = true ∧ hash' ≠ hash) := by
  obtain ⟨bytes, hb, rfl⟩ := exists_bytes hfrom
  obtain ⟨file, hfile, rfl⟩ := Option.map_eq_some_iff.1 hb
  obtain ⟨_, hp, -⟩ := exists_bytes hw
  obtain ⟨old, hold, -⟩ := Option.map_eq_some_iff.1 hp
  have hmove : ∀ id q, MergeAction.moveLocal fileId fromPath p ≠ .moveLocal id p q := by
    intro id q heq
    cases heq
    exact hne rfl
  cases hrep : D.moveReplaces with
  | false =>
      have hr : MoveRejected D w fromPath p := ⟨by simp [hfile], by simp [hold], hrep⟩
      exact iff_of_true (preserved_unchanged hw
        (run_moveLocal_rejected D H localState w fileId fromPath p hd hr)) (fun h => by cases h.1)
  | true =>
      have hr : ¬ MoveRejected D w fromPath p := fun h => by cases hrep.symm.trans h.2.2
      obtain ⟨w', hrun, hdisk, -, -⟩ := run_moveLocal D H localState w fileId fromPath p hd hr
      have hafter : w'.bytesAt p = some file.content := by
        rw [bytesAt, hdisk, diskAfterMove, hfile, JsMap.get_set_self]
        rfl
      rw [preserved_iff hrun hmove, hasHash_some hafter]
      simp [Carries]

/-- An action that overwrites the path and touches no other. -/
theorem preserved_overwrite {result : Except String Applied} {w' : World} {file : File}
    (hrun : run (applyAction D H localState action) w = some (result, w'))
    (hdisk : w'.disk = w.disk.set p file) (hmove : ∀ id q, action ≠ .moveLocal id p q) :
    Preserved D H localState remoteState dag w p hash action ↔
      Carries D localState remoteState dag hash action ∨ D.sha256Hex file.content = hash := by
  have hwritten : w'.bytesAt p = some file.content := by
    rw [bytesAt_set hdisk, if_pos rfl]
  rw [preserved_iff hrun hmove, hasHash_some hwritten]

theorem preserved_deleteConflict {side : DeleteSide} {parents : Option (List String)}
    (hw : HasHash D w p hash) :
    Preserved D H localState remoteState dag w p hash
        (.deleteConflict fileId p side content parents) ↔
      D.sha256Hex content = hash ∨
        H.onDeleteConflict (.deleteConflict fileId p side content parents) = .deferConflict := by
  cases hdec : H.onDeleteConflict (.deleteConflict fileId p side content parents) with
  | deferConflict =>
      exact iff_of_true (preserved_unchanged hw
        (run_settleDelete_deferred D H localState w _ _ _ _ _ hdec)) (Or.inr rfl)
  | keepModified =>
      obtain ⟨w', resolution, hrun, ⟨mtime, hdisk⟩, -⟩ :=
        run_settleDelete_keepModified D H localState w fileId p side content parents hdec
      rw [preserved_overwrite hrun hdisk (fun _ _ => nofun)]
      simp [Carries]
  | keepDeleted =>
      obtain ⟨w', resolution, hrun, hdisk, -⟩ :=
        run_settleDelete_keepDeleted D H localState w fileId p side content parents hdec
      rw [preserved_iff hrun (fun _ _ => nofun)]
      have hgone : ¬ HasHash D w' p hash :=
        not_hasHash_none (by rw [bytesAt_delete hdisk, if_pos rfl])
      simp [Carries, hgone]

/-- A binary conflict whose remote path this is. -/
theorem preserved_binaryConflict {localPath : Path} {localContent remoteContent : Bytes}
    {localHlc remoteHlc : Hlc} {parents : Option (List String)} (hw : HasHash D w p hash)
    (hne : localPath ≠ p) :
    Preserved D H localState remoteState dag w p hash (.binaryConflict fileId localPath p localContent
        remoteContent localHlc remoteHlc parents) ↔
      D.sha256Hex localContent = hash ∨ D.sha256Hex remoteContent = hash ∨
        H.onBinaryConflict (.binaryConflict fileId localPath p localContent remoteContent
          localHlc remoteHlc parents) ≠ .keepRemote := by
  cases hdec : H.onBinaryConflict (.binaryConflict fileId localPath p localContent remoteContent
      localHlc remoteHlc parents) with
  | deferConflict =>
      exact iff_of_true (preserved_unchanged hw
        (run_settleBinary_deferred D H localState w _ _ _ _ _ _ _ _ hdec))
        (Or.inr (Or.inr (by rintro ⟨⟩)))
  | keepLocal =>
      obtain ⟨w', resolution, hrun, ⟨mtime, hdisk⟩, -⟩ :=
        run_settleBinary D H localState w fileId localPath p localContent remoteContent localHlc
          remoteHlc parents _ hdec (by rintro ⟨⟩)
      refine iff_of_true (Or.inr ⟨_, w', hrun, Or.inl ?_⟩) (Or.inr (Or.inr (by rintro ⟨⟩)))
      rw [HasHash, bytesAt_set hdisk, if_pos rfl, if_neg hne]
      exact hw
  | keepRemote =>
      obtain ⟨w', resolution, hrun, ⟨mtime, hdisk⟩, -⟩ :=
        run_settleBinary D H localState w fileId localPath p localContent remoteContent localHlc
          remoteHlc parents _ hdec (by rintro ⟨⟩)
      rw [preserved_overwrite (p := p) hrun hdisk (fun _ _ => by rintro ⟨⟩)]
      simp [Carries]

end OpsBlobs.EditPreserved
