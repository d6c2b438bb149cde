import OpsBlobs.MergeCollision

namespace OpsBlobs.ConflictHold

open Types Diff3 Hlc VersionDag StateMerge Resolution MergeOutcome MergeCollision

/-- Where an action writes content or markers, and the head it adopts there. -/
def target : MergeAction → Option (Path × Option String)
  | .writeLocal _ path _ _ head => some (path, head)
  | .writeMerge _ path _ _ => some (path, none)
  | .conflict _ path .. => some (path, none)
  | _ => none

section Conditions

variable (P : Platform) (localState remoteState : VaultState) (dag : Option VersionDag)

/-- Where the merge of a file that both sides know writes. -/
inductive WritesTo (le re : FileEntry) : Path → Option String → Prop
  | readopt {content : Bytes} (hle : le.deleted = true) (hre : re.deleted = false)
      (hs : settledByPeer dag le re = true)
      (hc : Stored localState remoteState re.contentHash content) :
      WritesTo le re re.path re.headVersionId
  | advance {content : Bytes} (hle : le.deleted = false) (hre : re.deleted = false)
      (hsame : le.contentHash = re.contentHash) (hpath : le.path = re.path)
      (hg : Advances dag le re) (hc : Stored localState remoteState le.contentHash content) :
      WritesTo le re re.path re.headVersionId
  | unite {content : Bytes} (hle : le.deleted = false) (hre : re.deleted = false)
      (hsame : le.contentHash = re.contentHash) (hpath : le.path = re.path)
      (hg : Unites dag le re) (hc : Stored localState remoteState le.contentHash content) :
      WritesTo le re le.path none
  | adopt (hle : le.deleted = false) (hre : re.deleted = false)
      (hne : le.contentHash ≠ re.contentHash) (hg : Adopts localState remoteState dag le re) :
      WritesTo le re re.path re.headVersionId
  | keep (hle : le.deleted = false) (hre : re.deleted = false)
      (hne : le.contentHash ≠ re.contentHash) (hk : KeepsLocal localState remoteState dag le re) :
      WritesTo le re le.path le.headVersionId
  | merge {content : Bytes} (hle : le.deleted = false) (hre : re.deleted = false)
      (hne : le.contentHash ≠ re.contentHash)
      (hm : MergesCleanly P localState remoteState dag le re content) :
      WritesTo le re (laterOf le re).path none
  | clash (hle : le.deleted = false) (hre : re.deleted = false)
      (hne : le.contentHash ≠ re.contentHash)
      (ht : TextClash P localState remoteState dag le re) : WritesTo le re le.path none

/-- Where the collision of two live files of different ids writes. -/
inductive CollidesTo (le re : FileEntry) (selfIsRemote : Bool) : Path → Option String → Prop
  | adopt {content : Bytes} (hself : selfIsRemote = true)
      (hc : (remoteState.contentStore.get re.contentHash).or
        (localState.contentStore.get le.contentHash) = some content)
      (hg : Descends dag le re ∨ ¬ Related dag le re ∧ le.contentHash = re.contentHash ∧
        pickCollisionWinner le re = .remoteSide) :
      CollidesTo le re selfIsRemote re.path re.headVersionId
  | conflict {localContent remoteContent : Bytes}
      (hself : pickCollisionWinner le re = if selfIsRemote then .remoteSide else .localSide)
      (hne : le.contentHash ≠ re.contentHash) (hu : ¬ Related dag le re)
      (hl : localState.contentStore.get le.contentHash = some localContent)
      (hr : remoteState.contentStore.get re.contentHash = some remoteContent) :
      CollidesTo le re selfIsRemote le.path none

/-- The head is a merge node over all heads of the open conflict. -/
def ClosesAll (E : FileEntry) (head : Option String) : Prop :=
  ∃ dag' v, dag = some dag' ∧ head = some v ∧ isMergeNode dag' v = true ∧
    ∀ h ∈ E.conflictParents.getD [], isAncestor dag' h v = true

/-- How the path of the open conflict `E` is written without closing it: by the file's own
merge when the contents agree, by another file that both sides know, by a new remote file
that meets a local one there, or by a local-only file there that meets a remote one. -/
inductive Disturbs (E : FileEntry) : Prop
  | known {fileId : String} {le re : FileEntry} {head : Option String}
      (hl : localState.fileEntries.get fileId = some le)
      (hr : remoteState.fileEntries.get fileId = some re)
      (hown : fileId = E.id → le.contentHash = re.contentHash)
      (hw : WritesTo P localState remoteState dag le re E.path head)
      (hopen : ¬ ClosesAll dag E head)
  | newcomer {holder re : FileEntry} {head : Option String}
      (hl : localState.fileEntries.get re.id = none)
      (hr : remoteState.fileEntries.get re.id = some re) (hlive : re.deleted = false)
      (hp : re.path = E.path) (hheld : HeldBy localState E.path holder)
      (hc : CollidesTo localState remoteState dag holder re true E.path head)
      (hopen : ¬ ClosesAll dag E head)
  | localOnly {le re : FileEntry} (hl : localState.fileEntries.get le.id = some le)
      (hr : remoteState.fileEntries.get le.id = none) (hlive : le.deleted = false)
      (hp : le.path = E.path) (hheld : HeldBy remoteState E.path re)
      (hc : CollidesTo localState remoteState dag le re false E.path none)

end Conditions

variable {P : Platform} {localState remoteState : VaultState} {dag : Option VersionDag}
  {le re E : FileEntry} {selfIsRemote : Bool} {fileId : String} {a : MergeAction} {p : Path}
  {head : Option String}

theorem writesTo_of_target (h : resolveBoth P localState remoteState dag fileId le re = some a)
    (ht : target a = some (p, head)) : WritesTo P localState remoteState dag le re p head := by
  cases resolved_both h with
  | readopt hle hre hs hc =>
      cases ht
      exact .readopt hle hre hs hc
  | advance hle hre hsame hpath hc hg =>
      cases ht
      exact .advance hle hre hsame hpath hg hc
  | unite hle hre hsame _ hc hpath hu =>
      cases ht
      exact .unite hle hre hsame hpath hu hc
  | adopt hle hre hne _ hg =>
      cases ht
      exact .adopt hle hre hne hg
  | keep hle _ hre hne hk =>
      cases ht
      exact .keep hle hre hne hk
  | merged hle hre hne hm =>
      cases ht
      exact .merge hle hre hne hm
  | mergedHeadless hle hre hne hm =>
      cases ht
      exact .merge hle hre hne hm
  | conflict hle hre _ _ _ hne hclash =>
      cases ht
      exact .clash hle hre hne hclash
  | noOp | deleteRemote | restore | deleteLocal | survive | move | binary => cases ht

theorem target_of_writesTo (h : resolveBoth P localState remoteState dag fileId le re = some a)
    (hw : WritesTo P localState remoteState dag le re p head) : target a = some (p, head) := by
  cases hw with
  | readopt hle hre hs hc =>
      obtain ⟨content, -, hboth⟩ := both_readopt P fileId hle hre hs hc
      cases h.symm.trans hboth
      rfl
  | advance hle hre hsame hpath hg hc =>
      obtain ⟨content, hboth⟩ := both_advance P fileId hle hre hsame hpath hg hc
      cases h.symm.trans hboth
      rfl
  | unite hle hre hsame hpath hg hc =>
      obtain ⟨content, parents, hboth⟩ := both_unite P fileId hle hre hsame hpath hg hc
      cases h.symm.trans hboth
      rfl
  | adopt hle hre hne hg =>
      obtain ⟨content, -, hboth⟩ := both_adopt P fileId hle hre hne hg
      cases h.symm.trans hboth
      rfl
  | keep hle hre hne hk =>
      obtain ⟨content, hboth⟩ := both_keep P fileId hle hre hne hk
      cases h.symm.trans hboth
      rfl
  | merge hle hre hne hm =>
      cases h.symm.trans (both_merge hle hre hne hm)
      unfold cleanMergeAction
      split <;> rfl
  | clash hle hre hne ht =>
      obtain ⟨m, localText, remoteText, parents, rfl⟩ := both_clash hle hre hne ht h
      rfl

theorem target_adoptRemoteId :
    target (adoptRemoteId localState remoteState le re selfIsRemote) = some (p, head) ↔
      selfIsRemote = true ∧ (∃ content, (remoteState.contentStore.get re.contentHash).or
        (localState.contentStore.get le.contentHash) = some content) ∧
        re.path = p ∧ re.headVersionId = head := by
  unfold adoptRemoteId
  cases selfIsRemote with
  | false => simp [target]
  | true =>
      simp only [if_true]
      split
      · rename_i content hc
        simp [target, hc]
      · rename_i hc
        simp [target, hc]

theorem related_of_descends (h : Descends dag le re) : Related dag le re := by
  obtain ⟨dag', localHead, remoteHead, hk, hanc⟩ := h
  exact ⟨dag', localHead, remoteHead, hk, Or.inl hanc⟩

/-- Our head descends from the remote one: the collision is settled here already. -/
theorem createCollision_behind (hu : Related dag le re) (hd : ¬ Descends dag le re) :
    resolveCreateCollision P localState remoteState dag le re selfIsRemote =
      .noOp (if selfIsRemote then re.id else le.id) := by
  obtain ⟨dag', localHead, remoteHead, hk, hanc⟩ := hu
  have hnot : ¬ isAncestor dag' localHead remoteHead = true := fun h =>
    hd ⟨dag', localHead, remoteHead, hk, h⟩
  rw [resolveCreateCollision, hk]
  dsimp only
  rw [if_neg hnot, if_pos (hanc.resolve_left hnot)]

theorem target_unrelated (hu : ¬ Related dag le re) :
    target (resolveUnrelated P localState remoteState le re selfIsRemote) = some (p, head) ↔
      CollidesTo localState remoteState dag le re selfIsRemote p head := by
  simp only [resolveUnrelated]
  by_cases hsame : le.contentHash = re.contentHash
  · rw [if_pos hsame]
    cases hw : pickCollisionWinner le re with
    | remoteSide =>
        dsimp only
        rw [target_adoptRemoteId]
        constructor
        · rintro ⟨hself, ⟨content, hc⟩, rfl, rfl⟩
          exact .adopt hself hc (Or.inr ⟨hu, hsame, hw⟩)
        · intro h
          cases h with
          | adopt hself hc _ => exact ⟨hself, ⟨_, hc⟩, rfl, rfl⟩
          | conflict _ hne => exact absurd hsame hne
    | localSide =>
        refine iff_of_false (by rintro ⟨⟩) (fun h => ?_)
        cases h with
        | adopt _ _ hg =>
            rcases hg with hd | ⟨-, -, hw'⟩
            · exact hu (related_of_descends hd)
            · cases hw.symm.trans hw'
        | conflict _ hne => exact hne hsame
  · rw [if_neg hsame]
    constructor
    · intro h
      split at h
      · rename_i localContent remoteContent hl hr
        by_cases hself : pickCollisionWinner le re =
            if selfIsRemote then .remoteSide else .localSide
        · rw [if_pos hself] at h
          cases h
          exact .conflict hself hsame hu hl hr
        · rw [if_neg hself] at h
          cases h
      · cases h
    · intro h
      cases h with
      | adopt _ _ hg =>
          rcases hg with hd | ⟨-, hsame', -⟩
          · exact absurd (related_of_descends hd) hu
          · exact absurd hsame' hsame
      | conflict hself _ _ hl hr =>
          simp only [hl, hr]
          rw [if_pos hself]
          rfl

theorem target_createCollision :
    target (resolveCreateCollision P localState remoteState dag le re selfIsRemote) =
        some (p, head) ↔
      CollidesTo localState remoteState dag le re selfIsRemote p head := by
  by_cases hd : Descends dag le re
  · rw [createCollision_descends hd, target_adoptRemoteId]
    constructor
    · rintro ⟨hself, ⟨content, hc⟩, rfl, rfl⟩
      exact .adopt hself hc (Or.inl hd)
    · intro h
      cases h with
      | adopt hself hc _ => exact ⟨hself, ⟨_, hc⟩, rfl, rfl⟩
      | conflict _ _ hu => exact absurd (related_of_descends hd) hu
  by_cases hu : Related dag le re
  · rw [createCollision_behind hu hd]
    refine iff_of_false nofun (fun h => ?_)
    cases h with
    | adopt _ _ hg => exact hg.elim hd (fun h => h.1 hu)
    | conflict _ _ hu' => exact hu' hu
  · rw [createCollision_of_unrelated hu]
    exact target_unrelated hu

/-- The file's own merge with a different remote version holds, or closes the conflict. -/
theorem closesAll_of_writesTo (h2 : E.TwoHeaded) (hlive : E.deleted = false)
    (hne : E.contentHash ≠ re.contentHash)
    (hw : WritesTo P localState remoteState dag E re p head) : ClosesAll dag E head := by
  cases hw with
  | readopt hle => cases hlive.symm.trans hle
  | advance _ _ hsame => exact absurd hsame hne
  | unite _ _ hsame => exact absurd hsame hne
  | keep _ _ _ hk => exact absurd h2 hk.1.1
  | merge _ _ _ hm => exact absurd h2 hm.1.1
  | clash _ _ _ ht => exact absurd h2 ht.1.1
  | adopt _ _ _ hg =>
      cases hg with
      | closedByPeer hclosed _ =>
          obtain ⟨-, dag', remoteHead, rfl, hhead, hnode, hall⟩ := hclosed
          exact ⟨dag', remoteHead, rfl, (Option.filter_eq_some_iff.1 hhead).1, hnode, hall⟩
      | fastForward h2' => exact absurd h2 h2'
      | onlyRemote h => exact absurd h2 h.1.1
      | lastWriter h => exact absurd h2 h.1.1

theorem not_closesAll_none : ¬ ClosesAll dag E none := by
  rintro ⟨_, _, _, hv, -⟩
  cases hv

theorem collidesTo_path (hpath : le.path = re.path)
    (h : CollidesTo localState remoteState dag le re selfIsRemote p head) : re.path = p := by
  cases h with
  | adopt => rfl
  | conflict => exact hpath.symm

theorem head_of_localSide (h : CollidesTo localState remoteState dag le re false p head) :
    head = none := by
  cases h with
  | adopt hself => cases hself
  | conflict => rfl

theorem disturbs_of_target (hE : localState.fileEntries.get E.id = some E)
    (hlive : E.deleted = false) (h2 : E.TwoHeaded)
    (h : actionFor P localState remoteState dag fileId = some a)
    (ht : target a = some (E.path, head)) (hopen : ¬ ClosesAll dag E head) :
    Disturbs P localState remoteState dag E := by
  cases outcome_actionFor h with
  | noOp => cases ht
  | newLocal => cases ht
  | both hl hr _ =>
      rw [actionFor_both hl hr] at h
      have hw := writesTo_of_target h ht
      refine .known hl hr (fun hid => ?_) hw hopen
      by_contra hne
      subst hid
      cases hE.symm.trans hl
      exact hopen (closesAll_of_writesTo h2 hlive hne hw)
  | newRemote _ _ _ hfree _ =>
      obtain ⟨holder, hholder⟩ := liveByPath_isSome hE hlive
      rw [target, Option.some.injEq, Prod.mk.injEq] at ht
      rw [ht.1] at hfree
      cases hfree.symm.trans hholder
  | @remoteCollides le re _ hl hr hre hholder hle _ =>
      have hid := FileEntries.get_id hr
      rw [actionFor_remoteOnly hl hr, resolveRemoteOnly_held hre hl hholder hle] at h
      cases h
      have hc := target_createCollision.1 ht
      have hp := collidesTo_path (held_live ⟨hholder, hle⟩).2 hc
      exact .newcomer (hid ▸ hl) (hid ▸ hr) hre hp ⟨hp ▸ hholder, hle⟩ hc hopen
  | @localCollides le re _ hl hr hre hholder hremote _ =>
      have hid := FileEntries.get_id hl
      rw [actionFor_localOnly hl hr, resolveLocalOnly_held hre hr hholder hremote] at h
      cases h
      have hpath : re.path = le.path := (held_live ⟨hholder, hremote⟩).2
      have hc := target_createCollision.1 ht
      have hp := hpath.symm.trans (collidesTo_path hpath.symm hc)
      obtain rfl := head_of_localSide hc
      exact .localOnly (hid ▸ hl) (hid ▸ hr) hre hp ⟨hp ▸ hholder, hremote⟩ hc

theorem target_of_disturbs {r : StateMergeResult}
    (hm : mergeVaultStates P localState remoteState dag = some r)
    (h : Disturbs P localState remoteState dag E) :
    ∃ a ∈ r.actions, ∃ head, target a = some (E.path, head) ∧ ¬ ClosesAll dag E head := by
  cases h with
  | known hl hr _ hw hopen =>
      obtain ⟨a, hmem, ha⟩ := exists_action hm (mem_allIds.2 (Or.inl ⟨_, hl⟩))
      rw [actionFor_both hl hr] at ha
      exact ⟨a, hmem, _, target_of_writesTo ha hw, hopen⟩
  | newcomer hl hr hlive hp hheld hc hopen =>
      obtain ⟨a, hmem, ha⟩ := exists_action hm (mem_allIds.2 (Or.inr ⟨_, hr⟩))
      rw [actionFor_remoteOnly hl hr, resolveRemoteOnly_held hlive hl (hp ▸ hheld.1) hheld.2] at ha
      cases ha
      exact ⟨_, hmem, _, target_createCollision.2 hc, hopen⟩
  | localOnly hl hr hlive hp hheld hc =>
      obtain ⟨a, hmem, ha⟩ := exists_action hm (mem_allIds.2 (Or.inl ⟨_, hl⟩))
      rw [actionFor_localOnly hl hr, resolveLocalOnly_held hlive hr (hp ▸ hheld.1) hheld.2] at ha
      cases ha
      exact ⟨_, hmem, _, target_createCollision.2 hc, not_closesAll_none⟩

/-- The merge writes to the path of an open conflict only to close it, exactly when none of
the branches that do not know of the conflict reaches that path. -/
theorem mergeVaultStates_holds_open_iff {P : Platform} {localState remoteState : VaultState}
    {dag : Option VersionDag} {E : FileEntry} {r : StateMergeResult}
    (hm : mergeVaultStates P localState remoteState dag = some r)
    (hE : localState.fileEntries.get E.id = some E) (hlive : E.deleted = false)
    (h2 : E.TwoHeaded) :
    (∀ a ∈ r.actions, ∀ head, target a = some (E.path, head) → ClosesAll dag E head) ↔
      ¬ Disturbs P localState remoteState dag E := by
  constructor
  · intro hall h
    obtain ⟨a, hmem, head, ht, hopen⟩ := target_of_disturbs hm h
    exact hopen (hall a hmem head ht)
  · intro hnot a hmem head ht
    obtain ⟨id, -, hid⟩ := (mem_actions hm).1 hmem
    by_contra hopen
    exact hnot (disturbs_of_target hE hlive h2 hid ht hopen)

section Example

/-- Two heads of `n.md`, and the node by which a peer united them. -/
def openDag : VersionDag :=
  addVersion (addVersion (addVersion .empty "a" [] "A" "f") "b" [] "B" "f") "abc" ["a", "b"] "C" "f"

def conflicted : FileEntry :=
  { fileAt "f" "n.md" "M" 1 with
    headVersionId := some "a"
    conflictParents := some ["a", "b"] }

def conflictedHere : VaultState := stateOf [conflicted] [("M", [77])]

def unitedThere : VaultState :=
  stateOf [{ fileAt "f" "n.md" "C" 2 with headVersionId := some "abc" }] [("C", [67])]

def createdThere : VaultState := stateOf [fileAt "g" "n.md" "G" 2] [("G", [71])]

theorem mergeVaultStates_holds_open_example :
    ∃ r, mergeVaultStates asciiPlatform conflictedHere unitedThere (some openDag) = some r ∧
      ∀ a ∈ r.actions, ∀ head, target a = some (conflicted.path, head) →
        ClosesAll (some openDag) conflicted head := by
  obtain ⟨r, hr⟩ := Option.isSome_iff_exists.1 (show
    (mergeVaultStates asciiPlatform conflictedHere unitedThere (some openDag)).isSome by decide)
  refine ⟨r, hr, (mergeVaultStates_holds_open_iff hr rfl rfl (by decide)).2 (fun h => ?_)⟩
  cases h with
  | known hl hr hown =>
      rw [conflictedHere, get_stateOf_singleton] at hl
      rw [unitedThere, get_stateOf_singleton] at hr
      split at hl <;> cases hl
      split at hr <;> cases hr
      rename_i hid _
      exact absurd (hown hid.symm) (by decide)
  | newcomer hl hr =>
      rw [conflictedHere, get_stateOf_singleton] at hl
      rw [unitedThere, get_stateOf_singleton] at hr
      split at hr <;> cases hr
      cases hl
  | localOnly hl hr =>
      rw [conflictedHere, get_stateOf_singleton] at hl
      rw [unitedThere, get_stateOf_singleton] at hr
      split at hl <;> cases hl
      cases hr

/-- A peer's new file at the path raises a second conflict over the open one. -/
theorem mergeVaultStates_writes_over_open :
    ¬ ∀ (P : Platform) (localState remoteState : VaultState) (dag : Option VersionDag)
      (E : FileEntry) (r : StateMergeResult),
      mergeVaultStates P localState remoteState dag = some r →
      localState.fileEntries.get E.id = some E → E.deleted = false → E.TwoHeaded →
      ∀ a ∈ r.actions, ∀ head, target a = some (E.path, head) → ClosesAll dag E head := by
  intro h
  have hrun : mergeVaultStates asciiPlatform conflictedHere createdThere (some openDag) =
      some ⟨[.noOp "f", .conflict "g" "n.md" "n.md" (wholeFileConflict ['M'] ['G']) ['M'] ['G']
        none], ⟨0, 0, "a"⟩⟩ := by decide
  exact not_closesAll_none (h asciiPlatform conflictedHere createdThere (some openDag) conflicted _
    hrun rfl rfl (by decide) _ (List.mem_cons_of_mem _ List.mem_cons_self) none rfl)

end Example

end OpsBlobs.ConflictHold
