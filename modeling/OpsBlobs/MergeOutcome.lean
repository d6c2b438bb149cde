import OpsBlobs.Resolution

namespace OpsBlobs.MergeOutcome

open Types Diff3 Hlc VersionDag StateMerge Resolution

section Collided

variable (P : Platform) (localState remoteState : VaultState) (dag : Option VersionDag)

/-- One head descends from the other. -/
def Related (le re : FileEntry) : Prop :=
  ∃ dag' localHead remoteHead, knownHeads dag le re = some (dag', localHead, remoteHead) ∧
    (isAncestor dag' localHead remoteHead = true ∨ isAncestor dag' remoteHead localHead = true)

/-- The remote head descends from the local one. -/
def Descends (le re : FileEntry) : Prop :=
  ∃ dag' localHead remoteHead, knownHeads dag le re = some (dag', localHead, remoteHead) ∧
    isAncestor dag' localHead remoteHead = true

/-- What the merge can answer for two live files of different ids at one path. -/
inductive Collided (le re : FileEntry) (selfIsRemote : Bool) : MergeAction → Prop
  | noOp : Collided le re selfIsRemote (.noOp (if selfIsRemote then re.id else le.id))
  | adopt {content : Bytes} (hself : selfIsRemote = true)
      (hc : remoteState.contentStore.get re.contentHash = some content ∨
        remoteState.contentStore.get re.contentHash = none ∧
          localState.contentStore.get le.contentHash = some content)
      (hg : le.contentHash = re.contentHash ∧ pickCollisionWinner le re = .remoteSide ∨
        Descends dag le re) :
      Collided le re selfIsRemote
        (.writeLocal re.id re.path content re.hlcTimestamp re.headVersionId)
  | conflict {localContent remoteContent : Bytes}
      (hself : pickCollisionWinner le re = if selfIsRemote then .remoteSide else .localSide)
      (hne : le.contentHash ≠ re.contentHash) (hu : ¬ Related dag le re)
      (hl : localState.contentStore.get le.contentHash = some localContent)
      (hr : remoteState.contentStore.get re.contentHash = some remoteContent) :
      Collided le re selfIsRemote
        (.conflict (if selfIsRemote then re.id else le.id) le.path re.path
          (wholeFileConflict (P.decode localContent) (P.decode remoteContent))
          (P.decode localContent) (P.decode remoteContent) (headPair le re))

variable {P localState remoteState dag} {le re : FileEntry} {selfIsRemote : Bool}

theorem related_iff {dag' : VersionDag} {localHead remoteHead : String}
    (hk : knownHeads dag le re = some (dag', localHead, remoteHead)) :
    Related dag le re ↔
      isAncestor dag' localHead remoteHead = true ∨ isAncestor dag' remoteHead localHead = true := by
  refine ⟨?_, fun h => ⟨dag', localHead, remoteHead, hk, h⟩⟩
  rintro ⟨dag'', localHead', remoteHead', hk', h⟩
  cases hk.symm.trans hk'
  exact h

theorem collided_adopt (hg : le.contentHash = re.contentHash ∧
      pickCollisionWinner le re = .remoteSide ∨ Descends dag le re) :
    Collided P localState remoteState dag le re selfIsRemote
      (adoptRemoteId localState remoteState le re selfIsRemote) := by
  cases selfIsRemote with
  | false => exact .noOp
  | true =>
      simp only [adoptRemoteId, if_true]
      split
      · rename_i content hc
        exact .adopt rfl (Option.or_eq_some_iff.1 hc) hg
      · exact .noOp

theorem collided_unrelated (hu : ¬ Related dag le re) :
    Collided P localState remoteState dag le re selfIsRemote
      (resolveUnrelated P localState remoteState le re selfIsRemote) := by
  simp only [resolveUnrelated]
  split
  · rename_i hsame
    split
    · rename_i hwin
      exact collided_adopt (Or.inl ⟨hsame, hwin⟩)
    · exact .noOp
  · rename_i hne
    split
    · rename_i localContent remoteContent hl hr
      by_cases hself : pickCollisionWinner le re =
          if selfIsRemote then .remoteSide else .localSide
      · rw [if_pos hself]
        exact .conflict hself hne hu hl hr
      · rw [if_neg hself]
        exact .noOp
    · exact .noOp

theorem collided_createCollision :
    Collided P localState remoteState dag le re selfIsRemote
      (resolveCreateCollision P localState remoteState dag le re selfIsRemote) := by
  unfold resolveCreateCollision
  split
  · rename_i dag' localHead remoteHead hk
    split
    · rename_i h
      exact collided_adopt (Or.inr ⟨dag', localHead, remoteHead, hk, h⟩)
    · rename_i h
      split
      · exact .noOp
      · rename_i h'
        exact collided_unrelated (fun hu => ((related_iff hk).1 hu).elim h h')
  · rename_i hk
    refine collided_unrelated ?_
    rintro ⟨dag', localHead, remoteHead, hk', -⟩
    cases hk.symm.trans hk'

theorem createCollision_descends (h : Descends dag le re) :
    resolveCreateCollision P localState remoteState dag le re selfIsRemote =
      adoptRemoteId localState remoteState le re selfIsRemote := by
  obtain ⟨dag', localHead, remoteHead, hk, hanc⟩ := h
  rw [resolveCreateCollision, hk]
  exact if_pos hanc

end Collided

section Outcome

variable (P : Platform) (localState remoteState : VaultState) (dag : Option VersionDag)

/-- What the merge can answer for an id, by which side knows it. -/
inductive Outcome (fileId : String) : MergeAction → Prop
  | noOp : Outcome fileId (.noOp fileId)
  | both {le re : FileEntry} {a : MergeAction} (hl : localState.fileEntries.get fileId = some le)
      (hr : remoteState.fileEntries.get fileId = some re)
      (h : Resolved P localState remoteState dag fileId le re a) : Outcome fileId a
  | newRemote {re : FileEntry} {content : Bytes}
      (hl : localState.fileEntries.get fileId = none)
      (hr : remoteState.fileEntries.get fileId = some re) (hlive : re.deleted = false)
      (hfree : (liveByPath localState).get re.path = none)
      (hc : remoteState.contentStore.get re.contentHash = some content) :
      Outcome fileId (.writeLocal fileId re.path content re.hlcTimestamp re.headVersionId)
  | remoteCollides {le re : FileEntry} {a : MergeAction}
      (hl : localState.fileEntries.get fileId = none)
      (hr : remoteState.fileEntries.get fileId = some re) (hlive : re.deleted = false)
      (hholder : (liveByPath localState).get re.path = some le.id)
      (hle : localState.fileEntries.get le.id = some le)
      (h : Collided P localState remoteState dag le re true a) : Outcome fileId a
  | newLocal {le : FileEntry} (hl : localState.fileEntries.get fileId = some le)
      (hr : remoteState.fileEntries.get fileId = none) (hlive : le.deleted = false) :
      Outcome fileId (.sendRemote fileId le.path le.hlcTimestamp)
  | localCollides {le re : FileEntry} {a : MergeAction}
      (hl : localState.fileEntries.get fileId = some le)
      (hr : remoteState.fileEntries.get fileId = none) (hlive : le.deleted = false)
      (hholder : (liveByPath remoteState).get le.path = some re.id)
      (hre : remoteState.fileEntries.get re.id = some re)
      (h : Collided P localState remoteState dag le re false a) : Outcome fileId a

variable {P localState remoteState dag} {fileId : String} {a : MergeAction}

theorem actionFor_remoteOnly {re : FileEntry} (hl : localState.fileEntries.get fileId = none)
    (hr : remoteState.fileEntries.get fileId = some re) :
    actionFor P localState remoteState dag fileId =
      some (resolveRemoteOnly P localState remoteState dag (liveByPath localState) fileId re) := by
  rw [actionFor, hl, hr]
  rfl

theorem actionFor_localOnly {le : FileEntry} (hl : localState.fileEntries.get fileId = some le)
    (hr : remoteState.fileEntries.get fileId = none) :
    actionFor P localState remoteState dag fileId =
      some (resolveLocalOnly P localState remoteState dag (liveByPath remoteState) fileId le) := by
  rw [actionFor, hl, hr]
  rfl

theorem actionFor_both {le re : FileEntry} (hl : localState.fileEntries.get fileId = some le)
    (hr : remoteState.fileEntries.get fileId = some re) :
    actionFor P localState remoteState dag fileId =
      resolveBoth P localState remoteState dag fileId le re := by
  rw [actionFor, hl, hr]
  rfl

/-- The holder the index names is another id's live entry. -/
theorem holder_of_liveByPath {state : VaultState} {p : Path} {holder : String}
    (hid : state.fileEntries.get fileId = none) (h : (liveByPath state).get p = some holder) :
    holder ≠ fileId ∧ ∃ e, state.fileEntries.get holder = some e ∧ e.id = holder ∧
      e.deleted = false ∧ e.path = p := by
  obtain ⟨e, he, hlive, hp⟩ := live_of_liveByPath h
  refine ⟨?_, e, he, FileEntries.get_id he, hlive, hp⟩
  rintro rfl
  cases hid.symm.trans he

theorem resolveRemoteOnly_free {re : FileEntry} (hlive : re.deleted = false)
    (hfree : (liveByPath localState).get re.path = none) :
    resolveRemoteOnly P localState remoteState dag (liveByPath localState) fileId re =
      match remoteState.contentStore.get re.contentHash with
      | some content =>
          .writeLocal fileId re.path content re.hlcTimestamp re.headVersionId
      | none => .noOp fileId := by
  rw [resolveRemoteOnly, hlive, hfree]
  rfl

theorem resolveRemoteOnly_held {le re : FileEntry} (hlive : re.deleted = false)
    (hl : localState.fileEntries.get fileId = none)
    (hholder : (liveByPath localState).get re.path = some le.id)
    (hle : localState.fileEntries.get le.id = some le) :
    resolveRemoteOnly P localState remoteState dag (liveByPath localState) fileId re =
      resolveCreateCollision P localState remoteState dag le re true := by
  have hne := (holder_of_liveByPath hl hholder).1
  rw [resolveRemoteOnly, hlive, hholder, Option.bind_some, if_neg hne, hle]
  rfl

theorem resolveLocalOnly_free {le : FileEntry} (hlive : le.deleted = false)
    (hfree : (liveByPath remoteState).get le.path = none) :
    resolveLocalOnly P localState remoteState dag (liveByPath remoteState) fileId le =
      .sendRemote fileId le.path le.hlcTimestamp := by
  rw [resolveLocalOnly, hlive, hfree]
  rfl

theorem resolveLocalOnly_held {le re : FileEntry} (hlive : le.deleted = false)
    (hr : remoteState.fileEntries.get fileId = none)
    (hholder : (liveByPath remoteState).get le.path = some re.id)
    (hre : remoteState.fileEntries.get re.id = some re) :
    resolveLocalOnly P localState remoteState dag (liveByPath remoteState) fileId le =
      resolveCreateCollision P localState remoteState dag le re false := by
  have hne := (holder_of_liveByPath hr hholder).1
  rw [resolveLocalOnly, hlive, hholder, Option.bind_some, if_neg hne, hre]
  rfl

theorem outcome_remoteOnly {re : FileEntry} (hl : localState.fileEntries.get fileId = none)
    (hr : remoteState.fileEntries.get fileId = some re) :
    Outcome P localState remoteState dag fileId
      (resolveRemoteOnly P localState remoteState dag (liveByPath localState) fileId re) := by
  cases hd : re.deleted with
  | true =>
      rw [resolveRemoteOnly, hd]
      exact .noOp
  | false =>
      cases hh : (liveByPath localState).get re.path with
      | none =>
          rw [resolveRemoteOnly_free hd hh]
          cases hc : remoteState.contentStore.get re.contentHash with
          | none => exact .noOp
          | some content => exact .newRemote hl hr hd hh hc
      | some holder =>
          obtain ⟨-, le, hle, rfl, -, -⟩ := holder_of_liveByPath hl hh
          rw [resolveRemoteOnly_held hd hl hh hle]
          exact .remoteCollides hl hr hd hh hle collided_createCollision

theorem outcome_localOnly {le : FileEntry} (hl : localState.fileEntries.get fileId = some le)
    (hr : remoteState.fileEntries.get fileId = none) :
    Outcome P localState remoteState dag fileId
      (resolveLocalOnly P localState remoteState dag (liveByPath remoteState) fileId le) := by
  cases hd : le.deleted with
  | true =>
      rw [resolveLocalOnly, hd]
      exact .noOp
  | false =>
      cases hh : (liveByPath remoteState).get le.path with
      | none =>
          rw [resolveLocalOnly_free hd hh]
          exact .newLocal hl hr hd
      | some holder =>
          obtain ⟨-, re, hre, rfl, -, -⟩ := holder_of_liveByPath hr hh
          rw [resolveLocalOnly_held hd hr hh hre]
          exact .localCollides hl hr hd hh hre collided_createCollision

theorem outcome_actionFor (h : actionFor P localState remoteState dag fileId = some a) :
    Outcome P localState remoteState dag fileId a := by
  cases hl : localState.fileEntries.get fileId with
  | none =>
      cases hr : remoteState.fileEntries.get fileId with
      | none =>
          rw [actionFor, hl, hr] at h
          exact Option.some.inj h ▸ .noOp
      | some re =>
          rw [actionFor_remoteOnly hl hr] at h
          exact Option.some.inj h ▸ outcome_remoteOnly hl hr
  | some le =>
      cases hr : remoteState.fileEntries.get fileId with
      | none =>
          rw [actionFor_localOnly hl hr] at h
          exact Option.some.inj h ▸ outcome_localOnly hl hr
      | some re =>
          rw [actionFor_both hl hr] at h
          exact .both hl hr (resolved_both h)

/-- Every action is keyed by the id it was resolved for. -/
theorem fileId_outcome (h : Outcome P localState remoteState dag fileId a) :
    a.fileId = fileId := by
  cases h with
  | noOp => rfl
  | both hl hr h => cases h <;> rfl
  | newRemote => rfl
  | remoteCollides hl hr _ _ _ h => cases h <;> exact FileEntries.get_id hr
  | newLocal => rfl
  | localCollides hl hr _ _ _ h =>
      cases h with
      | noOp => exact FileEntries.get_id hl
      | adopt hself => cases hself
      | conflict => exact FileEntries.get_id hl

/-- The one returned action that names an id is what the merge chose for it. -/
theorem mem_actions_iff {r : StateMergeResult}
    (hm : mergeVaultStates P localState remoteState dag = some r)
    (hid : fileId ∈ allIds localState remoteState) :
    a ∈ r.actions ∧ a.fileId = fileId ↔
      actionFor P localState remoteState dag fileId = some a := by
  constructor
  · rintro ⟨hmem, rfl⟩
    obtain ⟨id, -, hid⟩ := (mem_actions hm).1 hmem
    rwa [fileId_outcome (outcome_actionFor hid)]
  · intro h
    exact ⟨(mem_actions hm).2 ⟨fileId, hid, h⟩, fileId_outcome (outcome_actionFor h)⟩

end Outcome

end OpsBlobs.MergeOutcome
