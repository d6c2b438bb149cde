import OpsBlobs.MergeOutcome

namespace OpsBlobs.MergeCollision

open Types Diff3 Hlc VersionDag StateMerge Resolution MergeOutcome

variable (P : Platform) (localState remoteState : VaultState) (dag : Option VersionDag)

/-- Every live entry's bytes are in its own side's store. -/
def BytesAvailable (state : VaultState) : Prop :=
  ∀ id e, state.fileEntries.get id = some e → e.deleted = false →
    ∃ content, state.contentStore.get e.contentHash = some content

/-- The live local entry the merge finds at a path. -/
def HeldBy (p : Path) (le : FileEntry) : Prop :=
  (liveByPath localState).get p = some le.id ∧ localState.fileEntries.get le.id = some le

/-- The new remote file `re` is written, or raised with its content, or already here. -/
def Kept (actions : List MergeAction) (re : FileEntry) (content : Bytes) : Prop :=
  (∃ path bytes hlc head, .writeLocal re.id path bytes hlc head ∈ actions) ∨
    (∃ fileId localPath remotePath mergeResult localContent parents,
      .conflict fileId localPath remotePath mergeResult localContent (P.decode content) parents ∈
        actions) ∨
    ∃ le, HeldBy localState re.path le ∧
      (le.contentHash = re.contentHash ∨ Related dag le re)

/-- A different, unrelated local file that wins the collision. -/
def Beats (le re : FileEntry) : Prop :=
  le.contentHash ≠ re.contentHash ∧ ¬ Related dag le re ∧
    pickCollisionWinner le re = .localSide

/-- A local winner whose own iteration meets `re` and raises the conflict. -/
def Raises (le re : FileEntry) : Prop :=
  localState.fileEntries.get le.id = some le ∧ le.deleted = false ∧ le.path = re.path ∧
    remoteState.fileEntries.get le.id = none ∧
    (liveByPath remoteState).get re.path = some re.id ∧ Beats dag le re

/-- Either branch of the collision answers for `re`. -/
def Answered (re : FileEntry) : Prop :=
  (∀ le, HeldBy localState re.path le → ¬ Beats dag le re) ∨
    ∃ le, Raises localState remoteState dag le re

/-- No other live remote file reads as the same text. -/
def OnlyText (re : FileEntry) (content : Bytes) : Prop :=
  ∀ id e bytes, remoteState.fileEntries.get id = some e → e.deleted = false →
    remoteState.contentStore.get e.contentHash = some bytes →
    P.decode bytes = P.decode content → id = re.id

variable {P localState remoteState dag} {le re : FileEntry} {selfIsRemote : Bool}

theorem createCollision_of_unrelated (hu : ¬ Related dag le re) :
    resolveCreateCollision P localState remoteState dag le re selfIsRemote =
      resolveUnrelated P localState remoteState le re selfIsRemote := by
  unfold resolveCreateCollision
  split
  · rename_i dag' localHead remoteHead hk
    rw [related_iff hk, not_or] at hu
    rw [if_neg hu.1, if_neg hu.2]
  · rfl

/-- The winner's own iteration raises the conflict, with both contents. -/
theorem createCollision_winner (selfIsRemote : Bool) (hne : le.contentHash ≠ re.contentHash)
    (hu : ¬ Related dag le re)
    (hw : pickCollisionWinner le re = if selfIsRemote then .remoteSide else .localSide)
    {localContent remoteContent : Bytes}
    (hl : localState.contentStore.get le.contentHash = some localContent)
    (hr : remoteState.contentStore.get re.contentHash = some remoteContent) :
    resolveCreateCollision P localState remoteState dag le re selfIsRemote =
      .conflict (if selfIsRemote then re.id else le.id) le.path re.path
        (wholeFileConflict (P.decode localContent) (P.decode remoteContent))
        (P.decode localContent) (P.decode remoteContent) (headPair le re) := by
  rw [createCollision_of_unrelated hu, resolveUnrelated]
  simp only [if_neg hne, hl, hr, if_pos hw]

/-- The loser's iteration leaves everything to the winner's. -/
theorem createCollision_loser (hb : Beats dag le re) :
    resolveCreateCollision P localState remoteState dag le re true = .noOp re.id := by
  obtain ⟨hne, hu, hw⟩ := hb
  rw [createCollision_of_unrelated hu, resolveUnrelated]
  simp only [if_neg hne, hw, if_true, reduceCtorEq, if_false]
  split <;> rfl

theorem exists_held {p : Path} {holder : String}
    (h : (liveByPath localState).get p = some holder) :
    ∃ le, HeldBy localState p le ∧ le.id = holder ∧ le.deleted = false ∧ le.path = p := by
  obtain ⟨le, hle, hlive, hp⟩ := live_of_liveByPath h
  have hid := FileEntries.get_id hle
  exact ⟨le, ⟨hid ▸ h, hid ▸ hle⟩, hid, hlive, hp⟩

theorem held_live {p : Path} (h : HeldBy localState p le) : le.deleted = false ∧ le.path = p := by
  obtain ⟨e, he, hlive, hp⟩ := live_of_liveByPath h.1
  cases h.2.symm.trans he
  exact ⟨hlive, hp⟩

theorem kept_of_answered {r : StateMergeResult} {content : Bytes}
    (hm : mergeVaultStates P localState remoteState dag = some r)
    (hlocal : BytesAvailable localState)
    (hnew : localState.fileEntries.get re.id = none)
    (hre : remoteState.fileEntries.get re.id = some re) (hlive : re.deleted = false)
    (hc : remoteState.contentStore.get re.contentHash = some content)
    (ha : Answered localState remoteState dag re) :
    Kept P localState dag r.actions re content := by
  obtain ⟨a, ham, haf⟩ := exists_action hm (mem_allIds.2 (Or.inr ⟨re, hre⟩))
  rw [actionFor_remoteOnly hnew hre] at haf
  cases hh : (liveByPath localState).get re.path with
  | none =>
      rw [resolveRemoteOnly_free hlive hh, hc] at haf
      cases haf
      exact Or.inl ⟨_, _, _, _, ham⟩
  | some holder =>
      obtain ⟨le, hheld, rfl, hlelive, -⟩ := exists_held hh
      rw [resolveRemoteOnly_held hlive hnew hheld.1 hheld.2] at haf
      by_cases hsame : le.contentHash = re.contentHash
      · exact Or.inr (Or.inr ⟨le, hheld, Or.inl hsame⟩)
      by_cases hu : Related dag le re
      · exact Or.inr (Or.inr ⟨le, hheld, Or.inr hu⟩)
      refine Or.inr (Or.inl ?_)
      rcases ha with hbeat | ⟨le', hle', hlive', hp', hunknown, hindex, hne', hu', hw'⟩
      · obtain ⟨localContent, hlc⟩ := hlocal le.id le hheld.2 hlelive
        have hw : pickCollisionWinner le re = .remoteSide := by
          cases h : pickCollisionWinner le re with
          | remoteSide => rfl
          | localSide => exact absurd ⟨hsame, hu, h⟩ (hbeat le hheld)
        rw [createCollision_winner true hsame hu hw hlc hc] at haf
        cases haf
        exact ⟨_, _, _, _, _, _, ham⟩
      · obtain ⟨b, hbm, hbf⟩ := exists_action hm (mem_allIds.2 (Or.inl ⟨le', hle'⟩))
        obtain ⟨localContent, hlc⟩ := hlocal le'.id le' hle' hlive'
        rw [actionFor_localOnly hle' hunknown,
          resolveLocalOnly_held hlive' hunknown (hp' ▸ hindex) hre,
          createCollision_winner false hne' hu' hw' hlc hc] at hbf
        cases hbf
        exact ⟨_, _, _, _, _, _, hbm⟩

/-- A conflict's remote text is that of a live remote file: its own, or the one whose
collision a local id raises. -/
theorem conflict_source {id fileId : String} {localPath remotePath : Path}
    {mergeResult : ThreeWayMergeResult Line} {localText remoteText : Text}
    {parents : Option (List String)}
    (h : Outcome P localState remoteState dag id
      (.conflict fileId localPath remotePath mergeResult localText remoteText parents)) :
    ∃ source bytes, remoteState.fileEntries.get source.id = some source ∧
      source.deleted = false ∧
      remoteState.contentStore.get source.contentHash = some bytes ∧
      remoteText = P.decode bytes ∧
      (source.id = id ∨ ∃ le, localState.fileEntries.get le.id = some le ∧ le.deleted = false ∧
        remoteState.fileEntries.get le.id = none ∧
        (liveByPath remoteState).get le.path = some source.id ∧ Beats dag le source) := by
  cases h with
  | both hl hr h =>
      cases h with
      | conflict _ hlive _ hbytes =>
          have hid := FileEntries.get_id hr
          exact ⟨_, _, hid ▸ hr, hlive, hbytes, rfl, Or.inl hid⟩
  | remoteCollides _ hr hlive _ _ h =>
      cases h with
      | conflict _ _ _ _ hbytes =>
          have hid := FileEntries.get_id hr
          exact ⟨_, _, hid ▸ hr, hlive, hbytes, rfl, Or.inl hid⟩
  | @localCollides le source _ hl hr hlive hholder hre h =>
      cases h with
      | conflict hself hne hu _ hbytes =>
          have hid := FileEntries.get_id hl
          obtain ⟨e, he, hsource, -⟩ := live_of_liveByPath hholder
          cases hre.symm.trans he
          exact ⟨source, _, hre, hsource, hbytes, rfl,
            Or.inr ⟨le, hid ▸ hl, hlive, hid ▸ hr, hholder, hne, hu, hself⟩⟩

theorem answered_of_kept {r : StateMergeResult} {content : Bytes}
    (hm : mergeVaultStates P localState remoteState dag = some r)
    (hnew : localState.fileEntries.get re.id = none)
    (hre : remoteState.fileEntries.get re.id = some re) (hlive : re.deleted = false)
    (htext : OnlyText P remoteState re content)
    (hk : Kept P localState dag r.actions re content) :
    Answered localState remoteState dag re := by
  by_cases hbeat : ∀ le, HeldBy localState re.path le → ¬ Beats dag le re
  · exact Or.inl hbeat
  · right
    push Not at hbeat
    obtain ⟨le, hheld, hb⟩ := hbeat
    -- The remote id's own iteration yields a `no_op`, so only another id's can answer.
    have hself : actionFor P localState remoteState dag re.id = some (.noOp re.id) := by
      rw [actionFor_remoteOnly hnew hre, resolveRemoteOnly_held hlive hnew hheld.1 hheld.2,
        createCollision_loser hb]
    rcases hk with ⟨path, bytes, hlc, head, hmem⟩ |
      ⟨fileId, localPath, remotePath, mergeResult, localContent, parents, hmem⟩ |
      ⟨le', hheld', hrel⟩
    · obtain ⟨id, -, hid⟩ := (mem_actions hm).1 hmem
      cases fileId_outcome (outcome_actionFor hid)
      cases hself.symm.trans hid
    · obtain ⟨id, -, hid⟩ := (mem_actions hm).1 hmem
      obtain ⟨source, bytes, hsource, hslive, hbytes, htexts, hfrom⟩ :=
        conflict_source (outcome_actionFor hid)
      have hsid := htext source.id source bytes hsource hslive hbytes htexts.symm
      rw [hsid, hre] at hsource
      obtain rfl := Option.some.inj hsource
      rcases hfrom with rfl | ⟨le', hle', hlive', hunknown, hindex, hb'⟩
      · cases hself.symm.trans hid
      · obtain ⟨e, he, -, hp⟩ := live_of_liveByPath hindex
        cases hre.symm.trans he
        exact ⟨le', hle', hlive', hp.symm, hunknown, hp ▸ hindex, hb'⟩
    · have hsame : le = le' := by
        have := hheld'.2
        rw [← Option.some.inj (hheld.1.symm.trans hheld'.1), hheld.2] at this
        exact Option.some.inj this
      subst hsame
      exact absurd hrel (not_or.2 ⟨hb.1, hb.2.1⟩)

/-- A new remote file survives path-collision handling if one of the two branches answers
for it; where no other live remote file reads as the same text, only then. -/
theorem mergeVaultStates_keeps_new_remote {P : Platform} {localState remoteState : VaultState}
    {dag : Option VersionDag} {r : StateMergeResult} {re : FileEntry} {content : Bytes}
    (hm : mergeVaultStates P localState remoteState dag = some r)
    (hlocal : BytesAvailable localState)
    (hnew : localState.fileEntries.get re.id = none)
    (hre : remoteState.fileEntries.get re.id = some re) (hlive : re.deleted = false)
    (hc : remoteState.contentStore.get re.contentHash = some content) :
    (Answered localState remoteState dag re → Kept P localState dag r.actions re content) ∧
      (OnlyText P remoteState re content → Kept P localState dag r.actions re content →
        Answered localState remoteState dag re) :=
  ⟨kept_of_answered hm hlocal hnew hre hlive hc, answered_of_kept hm hnew hre hlive⟩

section Example

/-- The user renamed `g` onto `n.md`; a peer created `f` at `n.md` meanwhile. -/
def renamedHere : VaultState := stateOf [fileAt "g" "n.md" "G" 5] [("G", [71])]

def createdThere : VaultState :=
  stateOf [fileAt "g" "m.md" "G" 1, fileAt "f" "n.md" "F" 2] [("G", [71]), ("F", [70])]

def onlyCreatedThere : VaultState := stateOf [fileAt "f" "n.md" "F" 2] [("F", [70])]

theorem bytesAvailable_iff {state : VaultState} : BytesAvailable state ↔
    ∀ e ∈ state.fileEntries.values, e.deleted = false →
      (state.contentStore.get e.contentHash).isSome := by
  simp only [BytesAvailable, Option.isSome_iff_exists]
  constructor
  · intro h e he
    exact h e.id e ((FileEntries.mem_values_iff _).1 he)
  · intro h id e he
    have hid := FileEntries.get_id he
    exact h e ((FileEntries.mem_values_iff _).2 (hid ▸ he))

theorem not_related_none {le re : FileEntry} : ¬ Related none le re := by
  rintro ⟨dag', localHead, remoteHead, hk, -⟩
  cases hk

theorem mergeVaultStates_keeps_new_remote_example :
    ∃ r, mergeVaultStates asciiPlatform renamedHere onlyCreatedThere none = some r ∧
      Kept asciiPlatform renamedHere none r.actions (fileAt "f" "n.md" "F" 2) [70] := by
  obtain ⟨r, hr⟩ := Option.isSome_iff_exists.1 (show
    (mergeVaultStates asciiPlatform renamedHere onlyCreatedThere none).isSome by decide)
  refine ⟨r, hr, (mergeVaultStates_keeps_new_remote hr (bytesAvailable_iff.2 (by decide))
    (by decide) (by decide) rfl (by decide)).1 (Or.inr ⟨fileAt "g" "n.md" "G" 5, ?_⟩)⟩
  exact ⟨by decide, rfl, rfl, by decide, by decide, by decide, not_related_none, by decide⟩

/-- The local file moved onto the path is known to the peer under its old path, so its
own iteration never meets the new one, which defers to it. -/
theorem mergeVaultStates_drops_new_remote :
    ¬ ∀ (P : Platform) (localState remoteState : VaultState) (dag : Option VersionDag)
      (r : StateMergeResult) (re : FileEntry) (content : Bytes),
      mergeVaultStates P localState remoteState dag = some r →
      BytesAvailable localState → BytesAvailable remoteState →
      localState.fileEntries.get re.id = none →
      remoteState.fileEntries.get re.id = some re → re.deleted = false →
      remoteState.contentStore.get re.contentHash = some content →
      Kept P localState dag r.actions re content := by
  intro h
  have hrun : mergeVaultStates asciiPlatform renamedHere createdThere none =
      some ⟨[.noOp "g", .noOp "f"], ⟨0, 0, "a"⟩⟩ := by decide
  rcases h asciiPlatform renamedHere createdThere none _ (fileAt "f" "n.md" "F" 2) [70] hrun
    (bytesAvailable_iff.2 (by decide)) (bytesAvailable_iff.2 (by decide)) (by decide)
    (by decide) rfl (by decide) with ⟨_, _, _, _, hmem⟩ | ⟨_, _, _, _, _, _, hmem⟩ |
      ⟨le, hheld, hrel⟩
  · simp at hmem
  · simp at hmem
  · have hle : le = fileAt "g" "n.md" "G" 5 := by
      have hholder : (liveByPath renamedHere).get "n.md" = some "g" := by decide
      have hid := Option.some.inj (hheld.1.symm.trans hholder)
      have hget := hheld.2
      rw [hid] at hget
      exact Option.some.inj (hget.symm.trans (by decide))
    subst hle
    exact hrel.elim (by decide) not_related_none

end Example

end OpsBlobs.MergeCollision
