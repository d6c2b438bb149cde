import OpsBlobs.ApplyRegistry
import OpsBlobs.MergeCollision
import OpsBlobs.SnapshotDisk

namespace OpsBlobs.ApplyOccupied

open Types Diff3 Hlc VersionDag FileRegistry Coroutine World ConflictMarkers SyncApplicator
  ApplySpec ApplyRegistry StateMerge Resolution MergeOutcome MergeCollision SnapshotDisk

variable (D : Device) (H : ConflictHandlers) (localState remoteState : VaultState)
  (dag : Option VersionDag) (w : World)

/-- The index names each live entry, so there is one live id per path, and the disk is what
the registry says. -/
structure Consistent : Prop where
  entries : w.registry.entries = localState.fileEntries
  index : ∀ id e, localState.fileEntries.get id = some e → e.deleted = false →
    w.registry.pathIndex.get e.path = some id
  onDisk : OnDisk D localState w
  tracked : ∀ p, w.bytesAt p ≠ none →
    ∃ id e, localState.fileEntries.get id = some e ∧ e.deleted = false ∧ e.path = p

/-- Applying the action puts other bytes where the live file `g` has its own. -/
def Intrudes (action : MergeAction) (g : String) : Prop :=
  ∃ result w' e b b', run (applyAction D H localState action) w = some (result, w') ∧
    g ≠ action.fileId ∧ w.registry.entries.get g = some e ∧ e.deleted = false ∧
    w.bytesAt e.path = some b ∧ w'.bytesAt e.path = some b' ∧ D.sha256Hex b ≠ D.sha256Hex b'

/-- The local file that a new remote one collides with: their heads are related, or the
action is the conflict that carries both contents. -/
def Counterpart (action : MergeAction) (g : String) : Prop :=
  ∃ le re, localState.fileEntries.get g = some le ∧
    localState.fileEntries.get action.fileId = none ∧
    remoteState.fileEntries.get action.fileId = some re ∧ le.path = re.path ∧
    (Related dag le re ∨ ∃ m localContent remoteContent parents,
      localState.contentStore.get le.contentHash = some localContent ∧
      remoteState.contentStore.get re.contentHash = some remoteContent ∧
      action = .conflict action.fileId le.path re.path m (D.decode localContent)
        (D.decode remoteContent) parents)

/-- A file live on both sides that the merge takes from its local path to its remote one. -/
inductive Relocates (le re : FileEntry) : Prop
  | move (hsame : le.contentHash = re.contentHash)
      (hw : ¬ 0 ≤ hlcCompare le.hlcTimestamp re.hlcTimestamp)
  | adopt (hne : le.contentHash ≠ re.contentHash) (h : Adopts localState remoteState dag le re)
  | merge {content : Bytes} (hne : le.contentHash ≠ re.contentHash)
      (h : MergesCleanly D.toPlatform localState remoteState dag le re content)
      (hw : ¬ 0 ≤ hlcCompare le.hlcTimestamp re.hlcTimestamp)

/-- A file both sides know is brought to its remote path, where it does not stand yet. -/
inductive Arrives (fileId : String) (le re : FileEntry) : Prop
  | relocated (hle : le.deleted = false) (hp : le.path ≠ re.path)
      (h : Relocates D localState remoteState dag le re)
  | binary {localContent remoteContent : Bytes} (hle : le.deleted = false)
      (hp : le.path ≠ re.path) (hne : le.contentHash ≠ re.contentHash)
      (h : BinaryClash localState remoteState dag le re localContent remoteContent)
      (hdec : H.onBinaryConflict (binaryConflictAction fileId le re localContent remoteContent) =
        .keepRemote)
  | readopt {content : Bytes} (hle : le.deleted = true) (hs : settledByPeer dag le re = true)
      (hc : Stored localState remoteState re.contentHash content)
  | restore {content : Bytes} (hle : le.deleted = true) (hs : settledByPeer dag le re = false)
      (hu : isUnchangedSinceBase re le dag = false)
      (hc : (remoteState.contentStore.get re.contentHash).or
        (localState.contentStore.get re.contentHash) = some content)
      (hdec : H.onDeleteConflict (.deleteConflict fileId re.path .localDeleted content
        (deleteParents le re)) ≠ .deferConflict)

/-- The file is brought to the path: as above, or as a new remote file that no local one
there beats. -/
inductive Comes (fileId : String) (p : Path) : Prop
  | known {le re : FileEntry} (hl : localState.fileEntries.get fileId = some le)
      (hr : remoteState.fileEntries.get fileId = some re) (hre : re.deleted = false)
      (hp : re.path = p) (h : Arrives D H localState remoteState dag fileId le re)
  | new {re : FileEntry} (hl : localState.fileEntries.get fileId = none)
      (hr : remoteState.fileEntries.get fileId = some re) (hre : re.deleted = false)
      (hp : re.path = p) (hb : ∀ le, HeldBy localState p le → ¬ Beats dag le re)

/-- The merge takes a live local file off its path. -/
inductive Leaves (fileId : String) (le re : FileEntry) : Prop
  | deleted (hre : re.deleted = true)
      (h : settledByPeer dag le re = true ∨ isUnchangedSinceBase le re dag = true)
  | discarded {content : Bytes} (hre : re.deleted = true) (hs : settledByPeer dag le re = false)
      (hu : isUnchangedSinceBase le re dag = false)
      (hc : (localState.contentStore.get le.contentHash).or
        (remoteState.contentStore.get le.contentHash) = some content)
      (hdec : H.onDeleteConflict (.deleteConflict fileId le.path .remoteDeleted content
        (deleteParents le re)) = .keepDeleted)
  | relocated (hre : re.deleted = false) (hp : le.path ≠ re.path)
      (h : Relocates D localState remoteState dag le re)

def Before (g fileId : String) : Prop :=
  (allIds localState remoteState).idxOf g < (allIds localState remoteState).idxOf fileId

/-- Neither the local file's own action nor another new file rewrites its content. -/
def Steady (le re : FileEntry) : Prop :=
  (∀ re', remoteState.fileEntries.get le.id = some re' →
    re'.deleted = true ∨ re'.contentHash = le.contentHash) ∧
    (remoteState.fileEntries.get le.id = none →
      (liveByPath remoteState).get le.path = some re.id)

/-- A new remote file with the content of the local file at its path takes its place. -/
def TakesOver (fileId : String) (le re : FileEntry) : Prop :=
  localState.fileEntries.get fileId = none ∧ remoteState.fileEntries.get fileId = some re ∧
    re.deleted = false ∧ HeldBy localState re.path le ∧ le.contentHash = re.contentHash ∧
    ¬ Related dag le re ∧ pickCollisionWinner le re = .remoteSide

/-- No two files come to one path, a file comes to another live file's path only after that
one has left it, and a file that is taken over still has its content. -/
structure Clear : Prop where
  once : ∀ f g p, Comes D H localState remoteState dag f p →
    Comes D H localState remoteState dag g p → f = g
  vacated : ∀ f g le re le', localState.fileEntries.get f = some le →
    remoteState.fileEntries.get f = some re → re.deleted = false →
    Arrives D H localState remoteState dag f le re →
    localState.fileEntries.get g = some le' → le'.deleted = false → le'.path = re.path →
      ∃ re', remoteState.fileEntries.get g = some re' ∧
        Leaves D H localState remoteState dag g le' re' ∧ Before localState remoteState g f
  steady : ∀ f le re, TakesOver localState remoteState dag f le re → Steady remoteState le re

variable {D H localState remoteState dag w} {le re : FileEntry} {f : String} {a : MergeAction}

theorem laterOf_path (hp : (laterOf le re).path ≠ le.path) :
    ¬ 0 ≤ hlcCompare le.hlcTimestamp re.hlcTimestamp ∧ laterOf le re = re := by
  unfold laterOf at hp ⊢
  split at hp
  · exact absurd rfl hp
  · rename_i hw
    exact ⟨hw, if_neg hw⟩

theorem merge_cases {q : Path} {content : Bytes}
    (hl : localState.fileEntries.get f = some le) (hr : remoteState.fileEntries.get f = some re)
    (hle : le.deleted = false) (hre : re.deleted = false)
    (hne : le.contentHash ≠ re.contentHash)
    (hm : MergesCleanly D.toPlatform localState remoteState dag le re content)
    (hq : q = (laterOf le re).path ∨ q = le.path) :
    (∃ le, localState.fileEntries.get f = some le ∧ le.deleted = false ∧ le.path = q) ∨
      Comes D H localState remoteState dag f q := by
  by_cases hp : (laterOf le re).path = le.path
  · exact Or.inl ⟨le, hl, hle, (hq.elim (fun h => h.trans hp) id).symm⟩
  · rcases hq with h | h
    · obtain ⟨hw, hlater⟩ := laterOf_path hp
      rw [hlater] at h hp
      exact Or.inr (.known hl hr hre h.symm
        (.relocated hle (Ne.symm hp) (.merge hne hm hw)))
    · exact Or.inl ⟨le, hl, hle, h.symm⟩

/-- An action touches its file's own live path, or a path the file comes to. -/
theorem touched_cases {q : Path}
    (h : actionFor D.toPlatform localState remoteState dag f = some a)
    (hq : q ∈ touched H localState a) :
    (∃ le, localState.fileEntries.get f = some le ∧ le.deleted = false ∧ le.path = q) ∨
      Comes D H localState remoteState dag f q := by
  cases outcome_actionFor h with
  | noOp => exact absurd hq List.not_mem_nil
  | newLocal => exact absurd hq List.not_mem_nil
  | @newRemote re content hl hr hre hfree =>
      rw [touched, currentPath_unknown hl] at hq
      have hq' : q = re.path := by
        rcases List.mem_pair.1 hq with h | h <;> exact h
      refine Or.inr (.new hl hr hre hq'.symm (fun le hheld => ?_))
      rw [hq'] at hheld
      cases hfree.symm.trans hheld.1
  | @remoteCollides le re a hl hr hre hholder hle hcol =>
      have hid := FileEntries.get_id hr
      obtain ⟨e, he, -, hp⟩ := live_of_liveByPath hholder
      cases hle.symm.trans he
      have same : ∀ le', HeldBy localState re.path le' → le' = le := by
        intro le' hheld
        have hid' : le'.id = le.id := Option.some.inj (hheld.1.symm.trans hholder)
        have hget := hheld.2
        rw [hid', hle] at hget
        exact (Option.some.inj hget).symm
      cases hcol with
      | noOp => exact absurd hq List.not_mem_nil
      | adopt _ _ hg =>
          rw [touched, hid, currentPath_unknown hl] at hq
          have hq' : q = re.path := by
            rcases List.mem_pair.1 hq with h | h <;> exact h
          refine Or.inr (.new hl hr hre hq'.symm (fun le' hheld hbeat => ?_))
          rw [hq'] at hheld
          obtain rfl := same le' hheld
          rcases hg with ⟨hsame, -⟩ | ⟨dag', localHead, remoteHead, hk, hanc⟩
          · exact hbeat.1 hsame
          · exact hbeat.2.1 ⟨dag', localHead, remoteHead, hk, Or.inl hanc⟩
      | conflict hself =>
          have hq' : q = re.path := (List.mem_singleton.1 hq).trans hp
          refine Or.inr (.new hl hr hre hq'.symm (fun le' hheld hbeat => ?_))
          rw [hq'] at hheld
          obtain rfl := same le' hheld
          cases hbeat.2.2.symm.trans hself
  | localCollides hl _ hlive _ _ hcol =>
      cases hcol with
      | noOp => exact absurd hq List.not_mem_nil
      | adopt hself => cases hself
      | conflict => exact Or.inl ⟨_, hl, hlive, (List.mem_singleton.1 hq).symm⟩
  | @both le re a hl hr hres =>
      have arrive : ∀ {p : Path}, p = re.path → re.deleted = false →
          Arrives D H localState remoteState dag f le re →
          Comes D H localState remoteState dag f p :=
        fun hp hre harr => .known hl hr hre hp.symm harr
      cases hres with
      | noOp => exact absurd hq List.not_mem_nil
      | deleteRemote => exact absurd hq List.not_mem_nil
      | readopt hle hre hs hc =>
          rw [adoptAction, touched, currentPath_deleted hl hle] at hq
          refine Or.inr (arrive ?_ hre (.readopt hle hs hc))
          rcases List.mem_pair.1 hq with h | h <;> exact h
      | restore hle hre hs hu hc =>
          rw [touched] at hq
          split at hq
          · exact absurd hq List.not_mem_nil
          · rename_i hdec
            exact Or.inr (arrive (List.mem_singleton.1 hq) hre (.restore hle hs hu hc hdec))
      | deleteLocal hle => exact Or.inl ⟨le, hl, hle, (List.mem_singleton.1 hq).symm⟩
      | survive hle =>
          rw [touched] at hq
          split at hq
          · exact absurd hq List.not_mem_nil
          · exact Or.inl ⟨le, hl, hle, (List.mem_singleton.1 hq).symm⟩
      | move hle hre hsame hne hw =>
          rcases List.mem_pair.1 hq with h | h
          · exact Or.inl ⟨le, hl, hle, h.symm⟩
          · exact Or.inr (arrive h hre (.relocated hle hne (.move hsame hw)))
      | advance hle hre hsame hpath =>
          rw [adoptAction, touched, currentPath_live hl hle] at hq
          refine Or.inl ⟨le, hl, hle, ?_⟩
          rcases List.mem_pair.1 hq with h | h
          · exact hpath.trans h.symm
          · exact h.symm
      | unite hle =>
          rw [touched, currentPath_live hl hle] at hq
          refine Or.inl ⟨le, hl, hle, ?_⟩
          rcases List.mem_pair.1 hq with h | h <;> exact h.symm
      | adopt hle hre hne hc hadopt =>
          rw [adoptAction, touched, currentPath_live hl hle] at hq
          rcases List.mem_pair.1 hq with h | h
          · by_cases hp : le.path = re.path
            · exact Or.inl ⟨le, hl, hle, hp.trans h.symm⟩
            · exact Or.inr (arrive h hre (.relocated hle hp (.adopt hne hadopt)))
          · exact Or.inl ⟨le, hl, hle, h.symm⟩
      | keep hle =>
          rw [touched, currentPath_live hl hle] at hq
          refine Or.inl ⟨le, hl, hle, ?_⟩
          rcases List.mem_pair.1 hq with h | h <;> exact h.symm
      | merged hle hre hne hm =>
          rw [touched, currentPath_live hl hle] at hq
          exact merge_cases hl hr hle hre hne hm (List.mem_pair.1 hq)
      | mergedHeadless hle hre hne hm =>
          rw [touched, currentPath_live hl hle] at hq
          exact merge_cases hl hr hle hre hne hm (List.mem_pair.1 hq)
      | conflict hle => exact Or.inl ⟨le, hl, hle, (List.mem_singleton.1 hq).symm⟩
      | binary hle hre hne hb =>
          simp only [binaryConflictAction, touched] at hq
          split at hq
          · exact absurd hq List.not_mem_nil
          · exact Or.inl ⟨le, hl, hle, (List.mem_singleton.1 hq).symm⟩
          · rename_i hdec
            by_cases hp : le.path = re.path
            · exact Or.inl ⟨le, hl, hle, hp.trans (List.mem_singleton.1 hq).symm⟩
            · exact Or.inr (arrive (List.mem_singleton.1 hq) hre (.binary hle hp hne hb hdec))

section Own

variable {result : Except String Applied} {w' : World}
  (hl : localState.fileEntries.get f = some le) (hlive : le.deleted = false)
  (hw : HasHash D w le.path le.contentHash)

include hl hlive hw

theorem gone_of_writeLocal {path : Path} {content : Bytes} {hlc : Hlc} {head : Option String}
    (hp : le.path ≠ path)
    (hrun : run (applyAction D H localState (.writeLocal f path content hlc head)) w =
      some (result, w')) : w'.bytesAt le.path = none := by
  have hcur := currentPath_live hl hlive path
  obtain ⟨w₁, hrun', hdisk, -, -⟩ := run_writeLocal D H localState w f path content hlc head
    (hcur.symm ▸ not_drifted_of_hasHash hl hw)
  cases hrun.symm.trans hrun'
  rw [bytesAt_writeLocal D hdisk, hcur, if_pos ⟨hp, rfl⟩]

theorem gone_of_writeMerge {path : Path} {content : Bytes} {parents : List String}
    (hp : le.path ≠ path)
    (hrun : run (applyAction D H localState (.writeMerge f path content parents)) w =
      some (result, w')) : w'.bytesAt le.path = none := by
  have hcur := currentPath_live hl hlive path
  obtain ⟨w₁, resolution, hrun', hdisk, -, -⟩ := run_writeMerge D H localState w f path content
    parents (hcur.symm ▸ not_drifted_of_hasHash hl hw)
  cases hrun.symm.trans hrun'
  rw [bytesAt_writeMerge hdisk, hcur, if_pos ⟨hp, rfl⟩]

omit hlive in
theorem gone_of_moveLocal {path : Path} (hp : le.path ≠ path)
    (hfree : w.bytesAt path = none)
    (hrun : run (applyAction D H localState (.moveLocal f le.path path)) w = some (result, w')) :
    w'.bytesAt le.path = none := by
  have hr : ¬ MoveRejected D w le.path path := by
    rintro ⟨-, hto, -⟩
    obtain ⟨file, hfile⟩ := Option.isSome_iff_exists.1 hto
    rw [bytesAt, hfile] at hfree
    cases hfree
  obtain ⟨w₁, hrun', hdisk, -, -⟩ := run_moveLocal D H localState w f le.path path
    (not_drifted_of_hasHash hl hw) hr
  cases hrun.symm.trans hrun'
  obtain ⟨bytes, hb, -⟩ := exists_bytes hw
  obtain ⟨file, hfile, -⟩ := Option.map_eq_some_iff.1 hb
  rw [bytesAt, hdisk, diskAfterMove, hfile, JsMap.get_set_ne _ _ (Ne.symm hp),
    JsMap.get_delete_self]
  rfl

omit hlive in
theorem gone_of_deleteLocal
    (hrun : run (applyAction D H localState (.deleteLocal f le.path)) w = some (result, w')) :
    w'.bytesAt le.path = none := by
  obtain ⟨w₁, hrun', hdisk, -, -⟩ :=
    run_deleteLocal D H localState w f le.path (not_drifted_of_hasHash hl hw)
  cases hrun.symm.trans hrun'
  rw [bytesAt_delete hdisk, if_pos rfl]

/-- A file the merge takes off its path is gone from there after its action. -/
theorem gone_of_leaves (hleaves : Leaves D H localState remoteState dag f le re)
    (hfree : re.deleted = false → le.path ≠ re.path → w.bytesAt re.path = none)
    (h : resolveBoth D.toPlatform localState remoteState dag f le re = some a)
    (hrun : run (applyAction D H localState a) w = some (result, w')) :
    w'.bytesAt le.path = none := by
  cases hleaves with
  | deleted hre hgone =>
      rw [both_deleteLocal hlive hre hgone] at h
      cases h
      exact gone_of_deleteLocal hl hw hrun
  | discarded hre hs hu hc hdec =>
      rw [both_survive hlive hre hs hu hc] at h
      cases h
      obtain ⟨w₁, resolution, hrun', hdisk, -⟩ :=
        run_settleDelete_keepDeleted D H localState w f le.path _ _ _ hdec
      cases hrun.symm.trans hrun'
      rw [bytesAt_delete hdisk, if_pos rfl]
  | relocated hre hp hrel =>
      cases hrel with
      | move hsame hw' =>
          rw [both_move hlive hre hsame hp hw'] at h
          cases h
          exact gone_of_moveLocal hl hw hp (hfree hre hp) hrun
      | adopt hne hadopt =>
          obtain ⟨content, -, hboth⟩ := both_adopt D.toPlatform f hlive hre hne
            hadopt
          rw [hboth] at h
          cases h
          exact gone_of_writeLocal hl hlive hw hp hrun
      | merge hne hm hw' =>
          rw [both_merge hlive hre hne hm] at h
          have hlater : laterOf le re = re := if_neg hw'
          unfold cleanMergeAction at h
          rw [hlater] at h
          split at h
          · cases h
            exact gone_of_writeMerge hl hlive hw hp hrun
          · cases h
            exact gone_of_writeLocal hl hlive hw hp hrun

/-- A steady file's own action leaves its path with its content, or empty. -/
theorem same_of_steady {re₀ : FileEntry} {b : Bytes} (hlocal : ContentAddressed D localState)
    (hremote : ContentAddressed D remoteState)
    (hre₀ : remoteState.fileEntries.get re₀.id = some re₀)
    (hsame₀ : le.contentHash = re₀.contentHash) (hs : Steady remoteState le re₀)
    (h : actionFor D.toPlatform localState remoteState dag f = some a)
    (hrun : run (applyAction D H localState a) w = some (result, w'))
    (hb : w'.bytesAt le.path = some b) : D.sha256Hex b = le.contentHash := by
  have hid := FileEntries.get_id hl
  have hbefore : ∀ b, w.bytesAt le.path = some b → D.sha256Hex b = le.contentHash :=
    fun b hb => (hasHash_some hb).1 hw
  have hafter := run_applyAction_bytes D H localState w a hrun hb
  have written_only : ∀ content, (∀ id from_ q, a ≠ .moveLocal id from_ q) →
      written D a = [content] → D.sha256Hex content = le.contentHash →
      D.sha256Hex b = le.contentHash := by
    rintro content hmove hwritten hsha
    rcases hafter with hb | hb | ⟨id, from_, heq⟩
    · exact hbefore b hb
    · rw [hwritten, List.mem_singleton] at hb
      exact hb ▸ hsha
    · exact absurd heq (hmove _ _ _)
  have nothing : (∀ id from_ q, a ≠ .moveLocal id from_ q) → written D a = [] →
      D.sha256Hex b = le.contentHash := by
    rintro hmove hwritten
    rcases hafter with hb | hb | ⟨id, from_, heq⟩
    · exact hbefore b hb
    · rw [hwritten] at hb
      exact absurd hb List.not_mem_nil
    · exact absurd heq (hmove _ _ _)
  cases outcome_actionFor h with
  | noOp => exact nothing (fun _ _ _ => nofun) rfl
  | newLocal => exact nothing (fun _ _ _ => nofun) rfl
  | newRemote hl' => cases hl.symm.trans hl'
  | remoteCollides hl' => cases hl.symm.trans hl'
  | localCollides hl' hr _ hholder hre hcol =>
      cases hl.symm.trans hl'
      cases hcol with
      | noOp => exact nothing (fun _ _ _ => nofun) rfl
      | adopt hself => cases hself
      | conflict _ hne =>
          have hre₁ := hs.2 (hid ▸ hr)
          rw [hholder] at hre₁
          rw [Option.some.inj hre₁, hre₀] at hre
          exact absurd (Option.some.inj hre ▸ hsame₀) hne
  | @both le' re' a hl' hr hres =>
      cases hl.symm.trans hl'
      have hsteady := hs.1 re' (hid ▸ hr)
      have alike : re'.deleted = false → le.contentHash = re'.contentHash :=
        fun hre => (hsteady.resolve_left (fun h => by cases hre.symm.trans h)).symm
      cases hres with
      | noOp => exact nothing (fun _ _ _ => nofun) rfl
      | deleteRemote => exact nothing (fun _ _ _ => nofun) rfl
      | deleteLocal => exact nothing (fun _ _ _ => nofun) rfl
      | readopt hle => cases hlive.symm.trans hle
      | restore hle => cases hlive.symm.trans hle
      | survive _ _ hc =>
          exact written_only _ (fun _ _ _ => nofun) rfl (hash_of_stored hlocal hremote hc)
      | move _ _ _ hp =>
          rcases hafter with hb | hb | ⟨id, from_, heq⟩
          · exact hbefore b hb
          · exact absurd hb List.not_mem_nil
          · rw [MergeAction.moveLocal.injEq] at heq
            exact absurd heq.2.2.symm hp
      | advance _ _ _ _ hc =>
          exact written_only _ (fun _ _ _ => nofun) rfl (hash_of_stored hlocal hremote hc)
      | unite _ _ _ _ hc =>
          exact written_only _ (fun _ _ _ => nofun) rfl (hash_of_stored hlocal hremote hc)
      | keep _ hc => exact written_only _ (fun _ _ _ => nofun) rfl (hlocal _ _ hc)
      | adopt _ hre hne => exact absurd (alike hre) hne
      | merged _ hre hne => exact absurd (alike hre) hne
      | mergedHeadless _ hre hne => exact absurd (alike hre) hne
      | conflict _ hre _ _ _ hne => exact absurd (alike hre) hne
      | binary _ hre hne => exact absurd (alike hre) hne

end Own

/-- What holds of the vault once the actions of the ids in `done` are applied. -/
structure Invariant (D : Device) (H : ConflictHandlers) (localState remoteState : VaultState)
    (dag : Option VersionDag) (done : List String) (w : World) : Prop where
  live : ∀ g e, w.registry.entries.get g = some e → e.deleted = false →
    (∃ le, localState.fileEntries.get g = some le ∧ le.deleted = false ∧ le.path = e.path) ∨
      g ∈ done ∧ Comes D H localState remoteState dag g e.path
  index : ∀ g le x, g ∉ done → localState.fileEntries.get g = some le → le.deleted = false →
    w.registry.pathIndex.get le.path = some x → x = g
  kept : ∀ g le, g ∉ done → localState.fileEntries.get g = some le → le.deleted = false →
    HasHash D w le.path le.contentHash
  left : ∀ g le re, g ∈ done → localState.fileEntries.get g = some le → le.deleted = false →
    remoteState.fileEntries.get g = some re → Leaves D H localState remoteState dag g le re →
      w.bytesAt le.path ≠ none → ∃ h ∈ done, Comes D H localState remoteState dag h le.path
  tracked : ∀ q, w.bytesAt q ≠ none →
    (∃ g le, localState.fileEntries.get g = some le ∧ le.deleted = false ∧ le.path = q) ∨
      ∃ h ∈ done, Comes D H localState remoteState dag h q
  steady : ∀ g le re, g ∉ done → TakesOver localState remoteState dag g le re →
    ∀ b, w.bytesAt le.path = some b → D.sha256Hex b = le.contentHash

theorem onePath (hv : Consistent D localState w) (id id' : String) (e e' : FileEntry)
    (he : localState.fileEntries.get id = some e) (he' : localState.fileEntries.get id' = some e')
    (hlive : e.deleted = false) (hlive' : e'.deleted = false) (hp : e.path = e'.path) :
    id = id' :=
  Option.some.inj ((hv.index id e he hlive).symm.trans (hp ▸ hv.index id' e' he' hlive'))

theorem invariant_start (hv : Consistent D localState w) :
    Invariant D H localState remoteState dag [] w where
  live g e he hlive := Or.inl ⟨e, hv.entries ▸ he, hlive, rfl⟩
  index g le x _ hl hlive hx := Option.some.inj (hx.symm.trans (hv.index g le hl hlive))
  kept g le _ hl hlive := hv.onDisk g le hl hlive
  left _ _ _ h := absurd h List.not_mem_nil
  tracked q hq := Or.inl (hv.tracked q hq)
  steady g le re _ ht b hb := by
    obtain ⟨-, -, -, hheld, -⟩ := ht
    exact (hasHash_some hb).1 (hv.onDisk le.id le hheld.2 (held_live hheld).1)

section Order

variable {done rest : List String} {g : String}

theorem mem_done_of_before (hids : allIds localState remoteState = done ++ f :: rest)
    (h : Before localState remoteState g f) : g ∈ done := by
  have hf : f ∉ done := by
    have hnd := nodup_allIds localState remoteState
    rw [hids] at hnd
    exact fun hmem => (List.nodup_append.1 hnd).2.2 f hmem f List.mem_cons_self rfl
  by_contra hg
  rw [Before, hids, List.idxOf_append_of_notMem hf, List.idxOf_append_of_notMem hg,
    List.idxOf_cons_self] at h
  exact absurd h (by omega)

/-- The local ids come first. -/
theorem local_first (hids : allIds localState remoteState = done ++ f :: rest) :
    (∀ le, localState.fileEntries.get f = some le → ∀ g ∈ done,
        ∃ e, localState.fileEntries.get g = some e) ∧
      (localState.fileEntries.get f = none → ∀ g e, localState.fileEntries.get g = some e →
        g ∈ done) := by
  have hnd := nodup_allIds localState remoteState
  rw [hids] at hnd
  have hf : f ∉ done := fun hmem => (List.nodup_append.1 hnd).2.2 f hmem f List.mem_cons_self rfl
  rw [allIds, List.append_eq_append_iff] at hids
  rcases hids with ⟨mid, rfl, -⟩ | ⟨mid, hkeys, hmid⟩
  · refine ⟨fun le hl => ?_, fun _ g e hg => ?_⟩
    · exact absurd (List.mem_append_left mid ((FileEntries.mem_keys_iff _).2 ⟨le, hl⟩)) hf
    · exact List.mem_append_left mid ((FileEntries.mem_keys_iff _).2 ⟨e, hg⟩)
  · refine ⟨fun le hl g hg => ?_, fun hl g e hg => ?_⟩
    · exact (FileEntries.mem_keys_iff _).1 (hkeys ▸ List.mem_append_left mid hg)
    · cases mid with
      | nil =>
          rw [List.append_nil] at hkeys
          exact hkeys ▸ (FileEntries.mem_keys_iff _).2 ⟨e, hg⟩
      | cons x mid =>
          rw [List.cons_append, List.cons.injEq] at hmid
          have hmem : f ∈ localState.fileEntries.keys := by
            rw [hkeys, hmid.1]
            exact List.mem_append_right _ List.mem_cons_self
          obtain ⟨e', he'⟩ := (FileEntries.mem_keys_iff _).1 hmem
          cases hl.symm.trans he'

end Order

theorem held_unique {p : Path} {le le' : FileEntry} (h : HeldBy localState p le)
    (h' : HeldBy localState p le') : le' = le := by
  have hid : le'.id = le.id := Option.some.inj (h'.1.symm.trans h.1)
  have hget := h'.2
  rw [hid, h.2] at hget
  exact (Option.some.inj hget).symm

theorem comes_of_takesOver (h : TakesOver localState remoteState dag f le re) :
    Comes D H localState remoteState dag f le.path := by
  obtain ⟨hl, hr, hre, hheld, hsame, -⟩ := h
  refine .new hl hr hre (held_live hheld).2.symm (fun le' hheld' hbeat => ?_)
  rw [(held_live hheld).2] at hheld'
  rw [held_unique hheld hheld'] at hbeat
  exact hbeat.1 hsame

section Step

variable {done rest : List String} {result : Except String Applied} {w' : World}
  (hc : Clear D H localState remoteState dag) (hv : ∀ id id' e e',
    localState.fileEntries.get id = some e → localState.fileEntries.get id' = some e' →
      e.deleted = false → e'.deleted = false → e.path = e'.path → id = id')
  (hI : Invariant D H localState remoteState dag done w)
  (hids : allIds localState remoteState = done ++ f :: rest)

include hc hI hids

omit hc hI in
theorem not_mem_done : f ∉ done := by
  have hnd := nodup_allIds localState remoteState
  rw [hids] at hnd
  exact fun hmem => (List.nodup_append.1 hnd).2.2 f hmem f List.mem_cons_self rfl

/-- When a known file's turn comes, the path it is brought to is free. -/
theorem free_of_arrives (hl : localState.fileEntries.get f = some le)
    (hr : remoteState.fileEntries.get f = some re) (hre : re.deleted = false)
    (harr : Arrives D H localState remoteState dag f le re) : w.bytesAt re.path = none := by
  have hcomes : Comes D H localState remoteState dag f re.path := .known hl hr hre rfl harr
  have nobody : ¬ ∃ h ∈ done, Comes D H localState remoteState dag h re.path := by
    rintro ⟨h, hmem, hcome⟩
    exact not_mem_done hids (hc.once h f _ hcome hcomes ▸ hmem)
  by_contra hocc
  rcases hI.tracked re.path hocc with ⟨g, le', hl', hlive', hp⟩ | hcome
  · obtain ⟨re', hr', hleaves, hbefore⟩ := hc.vacated f g le re le' hl hr hre harr hl' hlive' hp
    rw [← hp] at nobody hocc
    exact nobody (hI.left g le' re' (mem_done_of_before hids hbefore) hl' hlive' hr' hleaves hocc)
  · exact nobody hcome

include hv

omit hI in
/-- The path of a file whose turn is yet to come is not touched. -/
theorem untouched {g : String} {le' : FileEntry} (hg : g ∉ done) (hgf : g ≠ f)
    (hl' : localState.fileEntries.get g = some le') (hlive' : le'.deleted = false)
    (h : actionFor D.toPlatform localState remoteState dag f = some a) :
    le'.path ∉ touched H localState a := by
  intro hmem
  rcases touched_cases h hmem with ⟨le, hl, hlive, hp⟩ | hcome
  · exact hgf (hv g f le' le hl' hl hlive' hlive hp.symm)
  · cases hcome with
    | known hl hr hre hp harr =>
        obtain ⟨re', -, -, hbefore⟩ := hc.vacated _ _ _ _ _ hl hr hre harr hl' hlive' hp.symm
        exact hg (mem_done_of_before hids hbefore)
    | new hl => exact hg ((local_first hids).2 hl g le' hl')

theorem invariant_step (hlocal : ContentAddressed D localState)
    (hremote : ContentAddressed D remoteState)
    (h : actionFor D.toPlatform localState remoteState dag f = some a)
    (hrun : run (applyAction D H localState a) w = some (result, w')) :
    Invariant D H localState remoteState dag (done ++ [f]) w' := by
  have hfile := fileId_outcome (outcome_actionFor h)
  have hfdone := not_mem_done hids
  have hfol : Follows w.registry w'.registry f (touched H localState a) := by
    rw [← hfile]
    refine follows_applyAction D H localState w a hrun ?_
    rintro id fromPath toPath rfl g hg
    cases outcome_actionFor h with
    | remoteCollides _ _ _ _ _ hcol => cases hcol
    | localCollides _ _ _ _ _ hcol => cases hcol
    | both hl hr hres =>
        cases hres with
        | move hle => exact hI.index _ _ _ hfdone hl hle hg
  have hframe : ∀ p, p ∉ touched H localState a → w'.bytesAt p = w.bytesAt p := by
    obtain ⟨result', w₁, hrun', hframe⟩ := run_applyAction_frame D H localState w a
    cases hrun.symm.trans hrun'
    exact hframe
  have grows : ∀ {g : String}, g ∈ done → g ∈ done ++ [f] := fun h => List.mem_append_left _ h
  have self : f ∈ done ++ [f] := List.mem_append_right _ List.mem_cons_self
  have rest_of : ∀ {g : String}, g ∉ done ++ [f] → g ∉ done ∧ g ≠ f := by
    intro g hg
    rw [List.mem_append, List.mem_singleton, not_or] at hg
    exact hg
  refine ⟨?_, ?_, ?_, ?_, ?_, ?_⟩
  · intro g e he hlive
    rcases hfol.live g e he hlive with ⟨e₀, he₀, hlive₀, hp⟩ | ⟨rfl, hmem⟩
    · rw [← hp]
      exact (hI.live g e₀ he₀ hlive₀).imp_right (fun h => ⟨grows h.1, h.2⟩)
    · exact (touched_cases h hmem).imp_right (fun hcome => ⟨self, hcome⟩)
  · intro g le' x hg hl' hlive' hx
    obtain ⟨hg, hgf⟩ := rest_of hg
    rcases hfol.index _ _ hx with hmem | hx
    · exact absurd hmem (untouched hc hv hids hg hgf hl' hlive' h)
    · exact hI.index g le' x hg hl' hlive' hx
  · intro g le' hg hl' hlive'
    obtain ⟨hg, hgf⟩ := rest_of hg
    rw [HasHash, hframe _ (untouched hc hv hids hg hgf hl' hlive' h)]
    exact hI.kept g le' hg hl' hlive'
  · intro g le' re' hg hl' hlive' hr' hleaves hocc
    rcases List.mem_append.1 hg with hg | hg
    · by_cases hmem : le'.path ∈ touched H localState a
      · rcases touched_cases h hmem with ⟨le, hl, hlive, hp⟩ | hcome
        · exact absurd (hv g f le' le hl' hl hlive' hlive hp.symm ▸ hg) hfdone
        · exact ⟨f, self, hcome⟩
      · rw [hframe _ hmem] at hocc
        obtain ⟨k, hk, hcome⟩ := hI.left g le' re' hg hl' hlive' hr' hleaves hocc
        exact ⟨k, grows hk, hcome⟩
    · obtain rfl := List.mem_singleton.1 hg
      refine absurd (gone_of_leaves hl' hlive' (hI.kept g le' hfdone hl' hlive') hleaves ?_
        (actionFor_both hl' hr' ▸ h) hrun) hocc
      intro hre hp
      cases hleaves with
      | deleted hre' => cases hre.symm.trans hre'
      | discarded hre' => cases hre.symm.trans hre'
      | relocated _ _ hrel =>
          exact free_of_arrives hc hI hids hl' hr' hre (.relocated hlive' hp hrel)
  · intro q hq
    by_cases hmem : q ∈ touched H localState a
    · rcases touched_cases h hmem with ⟨le, hle⟩ | hcome
      · exact Or.inl ⟨f, le, hle⟩
      · exact Or.inr ⟨f, self, hcome⟩
    · rw [hframe q hmem] at hq
      apply (hI.tracked q hq).imp_right
      rintro ⟨k, hk, hcome⟩
      exact ⟨k, grows hk, hcome⟩
  · intro g le' re' hg htake b hb
    obtain ⟨hg, hgf⟩ := rest_of hg
    by_cases hmem : le'.path ∈ touched H localState a
    · rcases touched_cases h hmem with ⟨le, hl, hlive, hp⟩ | hcome
      · have hsteady := hc.steady g le' re' htake
        obtain ⟨-, hr, -, hheld, hsame, -⟩ := htake
        obtain ⟨hlive', -⟩ := held_live hheld
        obtain rfl := hv _ _ le' le hheld.2 hl hlive' hlive hp.symm
        cases hheld.2.symm.trans hl
        exact same_of_steady hl hlive (hI.kept _ _ hfdone hl hlive) hlocal hremote
          (FileEntries.get_id hr ▸ hr) hsame hsteady h hrun hb
      · exact absurd (hc.once g f _ (comes_of_takesOver htake) hcome) hgf
    · rw [hframe _ hmem] at hb
      exact hI.steady g le' re' hg htake b hb

/-- An action writes over another live file's bytes only in a collision that the merge
resolved for the two together. -/
theorem counterpart_of_intrudes (hlocal : ContentAddressed D localState)
    (hremote : ContentAddressed D remoteState)
    (h : actionFor D.toPlatform localState remoteState dag f = some a) {g : String}
    (hi : Intrudes D H localState w a g) : Counterpart D localState remoteState dag a g := by
  obtain ⟨result, w', e, b, b', hrun, hgf, he, hlive, hb, hb', hne⟩ := hi
  have hfile := fileId_outcome (outcome_actionFor h)
  rw [hfile] at hgf
  have hfdone := not_mem_done hids
  have hmem : e.path ∈ touched H localState a := by
    by_contra hmem
    obtain ⟨result', w₁, hrun', hframe⟩ := run_applyAction_frame D H localState w a
    cases hrun.symm.trans hrun'
    rw [hframe _ hmem, hb] at hb'
    exact hne (congrArg D.sha256Hex (Option.some.inj hb'))
  rcases touched_cases h hmem with ⟨le, hl, hlive', hp⟩ | hcome
  · exfalso
    rcases hI.live g e he hlive with ⟨le', hl', hlive'', hp'⟩ | ⟨hg, hcome⟩
    · exact hgf (hv g f le' le hl' hl hlive'' hlive' (hp'.trans hp.symm))
    · cases hcome with
      | known hl' hr' hre' hp' harr =>
          obtain ⟨re, -, -, hbefore⟩ :=
            hc.vacated _ _ _ _ _ hl' hr' hre' harr hl hlive' (hp.trans hp'.symm)
          rw [Before, hids, List.idxOf_append_of_notMem hfdone, List.idxOf_append_of_mem hg,
            List.idxOf_cons_self, Nat.add_zero] at hbefore
          exact absurd (List.idxOf_lt_length_of_mem hg) (Nat.lt_asymm hbefore)
      | new hl' =>
          obtain ⟨le', hl''⟩ := (local_first hids).1 le hl g hg
          cases hl'.symm.trans hl''
  · have hcome' := hcome
    cases hcome with
    | known hl hr hre hp harr =>
        have hfree := free_of_arrives hc hI hids hl hr hre harr
        rw [hp, hb] at hfree
        cases hfree
    | @new re hl hr hre hp hbeat =>
        have hlocalg : ∃ le, localState.fileEntries.get g = some le ∧ le.deleted = false ∧
            le.path = e.path := by
          rcases hI.live g e he hlive with hlocalg | ⟨hg, hcomeg⟩
          · exact hlocalg
          · exact absurd (hc.once g f _ hcomeg hcome') hgf
        obtain ⟨le, hl', hlive', hp'⟩ := hlocalg
        obtain ⟨holder, hindex⟩ := liveByPath_isSome hl' hlive'
        have hholds : holder = g := by
          obtain ⟨e', he', hlive'', hp''⟩ := live_of_liveByPath hindex
          exact hv holder g e' le he' hl' hlive'' hlive' hp''
        rw [hholds, hp', ← hp] at hindex
        have hheld : HeldBy localState re.path le := by
          have hid := FileEntries.get_id hl'
          exact ⟨hid ▸ hindex, hid ▸ hl'⟩
        have hpath : le.path = re.path := hp'.trans hp.symm
        refine ⟨le, re, hl', hfile ▸ hl, hfile ▸ hr, hpath, ?_⟩
        by_cases hrel : Related dag le re
        · exact Or.inl hrel
        right
        cases outcome_actionFor h with
        | noOp => exact absurd hmem List.not_mem_nil
        | both hl'' => cases hl.symm.trans hl''
        | newLocal hl'' => cases hl.symm.trans hl''
        | localCollides hl'' => cases hl.symm.trans hl''
        | newRemote _ hr' _ hfree =>
            cases hr.symm.trans hr'
            cases hfree.symm.trans hindex
        | @remoteCollides le' re' _ _ hr' _ hholder' hle' hcol =>
            cases hr.symm.trans hr'
            obtain rfl := held_unique ⟨hholder', hle'⟩ hheld
            cases hcol with
            | noOp => exact absurd hmem List.not_mem_nil
            | conflict _ _ _ hlc hrc =>
                exact ⟨_, _, _, _, hlc, hrc, rfl⟩
            | adopt _ hstored hg =>
                exfalso
                rcases hg with ⟨hsame, hwin⟩ | ⟨dag', localHead, remoteHead, hk, hanc⟩
                · have htake : TakesOver localState remoteState dag f le re :=
                    ⟨hl, hr, hre, hheld, hsame, hrel, hwin⟩
                  have hshab := hI.steady f le re hfdone htake b (hp'.symm ▸ hb)
                  refine hne (hshab.trans ?_)
                  rcases run_applyAction_bytes D H localState w _ hrun hb' with
                    hold | hnew | ⟨_, _, heq⟩
                  · rw [hb] at hold
                    exact hshab.symm.trans (congrArg D.sha256Hex (Option.some.inj hold))
                  · obtain rfl := List.mem_singleton.1 hnew
                    rcases hstored with hstored | ⟨-, hstored⟩
                    · exact hsame.trans (hremote _ _ hstored).symm
                    · exact (hlocal _ _ hstored).symm
                  · cases heq
                · exact hrel ⟨dag', localHead, remoteHead, hk, Or.inl hanc⟩

end Step

/-- Along the whole apply loop no action puts its content over another live file's bytes,
its collision counterpart's apart. -/
theorem applyActions_spares_others {D : Device} {H : ConflictHandlers}
    {localState remoteState : VaultState} {dag : Option VersionDag} {w w' : World}
    {r : StateMergeResult} {pre post : List MergeAction} {a : MergeAction} {st : ApplyState}
    {g : String}
    (hm : mergeVaultStates D.toPlatform localState remoteState dag = some r)
    (hlocal : ContentAddressed D localState) (hremote : ContentAddressed D remoteState)
    (hv : Consistent D localState w) (hc : Clear D H localState remoteState dag)
    (hsplit : r.actions = pre ++ a :: post)
    (hrun : run (foldM (applyIsolated D H localState) ⟨[], [], [], []⟩ pre) w =
      some (.ok st, w'))
    (hi : Intrudes D H localState w' a g) : Counterpart D localState remoteState dag a g := by
  have hids : allIds localState remoteState = r.actions.map (·.fileId) := by
    have hf := actions_forall₂ hm
    generalize allIds localState remoteState = ids at hf ⊢
    generalize r.actions = actions at hf ⊢
    induction hf with
    | nil => rfl
    | cons hb hf ih => rw [List.map_cons, ← ih, fileId_outcome (outcome_actionFor hb)]
  have haction : ∀ a ∈ r.actions,
      actionFor D.toPlatform localState remoteState dag a.fileId = some a := by
    intro a ha
    obtain ⟨id, -, hid⟩ := (mem_actions hm).1 ha
    rwa [fileId_outcome (outcome_actionFor hid)]
  have hsplit_ids : ∀ pre a post, r.actions = pre ++ a :: post →
      allIds localState remoteState =
        pre.map (·.fileId) ++ a.fileId :: post.map (·.fileId) := by
    intro pre a post h
    rw [hids, h, List.map_append, List.map_cons]
  have hI : Invariant D H localState remoteState dag (pre.map (·.fileId)) w' := by
    refine invariant_foldM (I := fun done w =>
      Invariant D H localState remoteState dag (done.map (·.fileId)) w) [] hrun
      (invariant_start hv) ?_
    intro pre' b post' w₁ result w₂ hpre hI hstep
    have hsplit' : r.actions = pre' ++ b :: (post' ++ a :: post) := by
      rw [hsplit, ← List.nil_append pre, hpre, List.append_assoc, List.cons_append]
    rw [List.map_append, List.map_cons, List.map_nil]
    refine invariant_step hc (onePath hv) hI (hsplit_ids _ _ _ hsplit') hlocal hremote ?_ hstep
    exact haction b (hsplit' ▸ List.mem_append_right _ List.mem_cons_self)
  exact counterpart_of_intrudes hc (onePath hv) hI (hsplit_ids _ _ _ hsplit) hlocal hremote
    (haction a (hsplit ▸ List.mem_append_right _ List.mem_cons_self)) hi

section Example

theorem consistent_of_checks (hentries : w.registry.entries = localState.fileEntries)
    (hlive : ∀ e ∈ localState.fileEntries.values, e.deleted = false →
      w.registry.pathIndex.get e.path = some e.id ∧ HasHash D w e.path e.contentHash)
    (htracked : ∀ p ∈ w.disk.keys,
      ∃ e ∈ localState.fileEntries.values, e.deleted = false ∧ e.path = p) :
    Consistent D localState w where
  entries := hentries
  index id e he hd := by
    have hid := FileEntries.get_id he
    exact hid ▸ (hlive e ((FileEntries.mem_values_iff _).2 (hid ▸ he)) hd).1
  onDisk id e he hd :=
    (hlive e ((FileEntries.mem_values_iff _).2 (FileEntries.get_id he ▸ he)) hd).2
  tracked p hp := by
    obtain ⟨b, hb⟩ := Option.ne_none_iff_exists'.1 hp
    obtain ⟨file, hfile, -⟩ := Option.map_eq_some_iff.1 hb
    obtain ⟨e, he, hd, hpath⟩ := htracked p ((JsMap.mem_keys_iff _).2 ⟨file, hfile⟩)
    exact ⟨e.id, e, (FileEntries.mem_values_iff _).1 he, hd, hpath⟩

/-- Only `g` is here, at `n.md`. -/
def vaultOfG : World :=
  atRest [("n.md", [71])] (empty.insert (fileAt "g" "n.md" "G" 1) (by decide))

def stateOfG : VaultState := stateOf [fileAt "g" "n.md" "G" 1] [("G", [71])]

def stateOfF : VaultState := stateOf [fileAt "f" "n.md" "F" 2] [("F", [70])]

/-- The peer's `f` wins the collision; its conflict carries both contents. -/
def collision : MergeAction :=
  .conflict "f" "n.md" "n.md" (wholeFileConflict ['G'] ['F']) ['G'] ['F'] none

theorem clear_collision : Clear asciiDevice H stateOfG stateOfF none := by
  have unknown : ∀ id e, stateOfG.fileEntries.get id = some e →
      stateOfF.fileEntries.get id = none := by
    intro id e he
    rw [stateOfG, get_stateOf_singleton] at he
    split at he
    · rename_i hid
      rw [← hid]
      rfl
    · cases he
  have only : ∀ id p, Comes asciiDevice H stateOfG stateOfF none id p → id = "f" := by
    intro id p hcome
    cases hcome with
    | known hl hr => cases (unknown _ _ hl).symm.trans hr
    | new _ hr =>
        rw [stateOfF, get_stateOf_singleton] at hr
        split at hr
        · rename_i hid
          exact hid.symm
        · cases hr
  refine ⟨?_, ?_, ?_⟩
  · exact fun f g p hf hg => (only f p hf).trans (only g p hg).symm
  · intro f g le re le' hl hr
    cases (unknown _ _ hl).symm.trans hr
  · rintro f le re ⟨-, hr, -, hheld, hsame, -⟩
    have hle := hheld.2
    rw [stateOfG, get_stateOf_singleton] at hle
    rw [stateOfF, get_stateOf_singleton] at hr
    split at hle <;> cases hle
    split at hr <;> cases hr
    exact absurd hsame (by decide)

theorem applyActions_spares_others_example :
    Counterpart asciiDevice stateOfG stateOfF none collision "g" := by
  have hrun : mergeVaultStates asciiPlatform stateOfG stateOfF none =
      some ⟨[.noOp "g", collision], ⟨0, 0, "a"⟩⟩ := by decide
  refine applyActions_spares_others (D := asciiDevice) (w := vaultOfG)
    (H := ⟨fun _ => .deferConflict, fun _ => .deferConflict⟩) hrun
    (contentAddressed_iff.2 (by decide)) (contentAddressed_iff.2 (by decide))
    (consistent_of_checks rfl (by decide) (by decide)) clear_collision
    (show _ = [.noOp "g"] ++ collision :: [] from rfl) rfl ?_
  exact ⟨_, _, _, _, _, rfl, by decide, rfl, rfl, rfl, rfl, by decide⟩

/-- `f` is logged as `v`; the user has created `g` at `b.md`. -/
def loggedF : FileEntry := { fileAt "f" "a.md" "F" 1 with headVersionId := some "v" }

/-- A peer edited `f` and renamed it to `b.md`. -/
def renamedF : FileEntry := { fileAt "f" "b.md" "H" 2 with headVersionId := some "u" }

def editGraph : VersionDag := .ofList [("v", ⟨[], "F", "f"⟩), ("u", ⟨["v"], "H", "f"⟩)]

def vaultOfFG : World :=
  atRest [("a.md", [70]), ("b.md", [71])]
    ((empty.insert loggedF (by decide)).insert (fileAt "g" "b.md" "G" 1) (by decide))

def stateOfFG : VaultState :=
  stateOf [loggedF, fileAt "g" "b.md" "G" 1] [("F", [70]), ("G", [71])]

/-- The fast-forward of `f` writes at its new path without a look at who has it. -/
theorem applyActions_overwrites_other :
    ¬ ∀ (D : Device) (H : ConflictHandlers) (localState remoteState : VaultState)
      (dag : Option VersionDag) (w w' : World) (r : StateMergeResult) (pre post : List MergeAction)
      (a : MergeAction) (st : ApplyState) (g : String),
      mergeVaultStates D.toPlatform localState remoteState dag = some r →
      ContentAddressed D localState → ContentAddressed D remoteState →
      Consistent D localState w → r.actions = pre ++ a :: post →
      run (foldM (applyIsolated D H localState) ⟨[], [], [], []⟩ pre) w = some (.ok st, w') →
      Intrudes D H localState w' a g → Counterpart D localState remoteState dag a g := by
  intro h
  have hmerge : mergeVaultStates asciiPlatform stateOfFG (stateOf [renamedF] [("H", [72])])
      (some editGraph) = some ⟨[.writeLocal "f" "b.md" [72] ⟨2, 0, "a"⟩ (some "u"), .noOp "g"],
        ⟨0, 0, "a"⟩⟩ := by decide
  obtain ⟨le, re, -, hnew, -⟩ := h asciiDevice ⟨fun _ => .deferConflict, fun _ => .deferConflict⟩
    stateOfFG (stateOf [renamedF] [("H", [72])]) (some editGraph) vaultOfFG vaultOfFG _ []
    [.noOp "g"] _ _ "g" hmerge (contentAddressed_iff.2 (by decide))
    (contentAddressed_iff.2 (by decide)) (consistent_of_checks rfl (by decide) (by decide)) rfl rfl
    ⟨_, _, _, _, _, rfl, by decide, rfl, rfl, rfl, rfl, by decide⟩
  exact absurd hnew (by decide)

end Example

end OpsBlobs.ApplyOccupied
