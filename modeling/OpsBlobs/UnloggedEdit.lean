import OpsBlobs.EditPreserved
import OpsBlobs.MergeOutcome

namespace OpsBlobs.UnloggedEdit

open Types Diff3 Hlc VersionDag FileRegistry Coroutine World ConflictMarkers SyncApplicator
  ApplySpec StateMerge Resolution MergeOutcome SnapshotDisk EditPreserved

variable (D : Device) (H : ConflictHandlers) (localState remoteState : VaultState)
  (dag : Option VersionDag) (w : World)

/-- A live local file whose content is neither its head's nor the merge base's. -/
structure Unlogged (le : FileEntry) : Prop where
  here : localState.fileEntries.get le.id = some le
  live : le.deleted = false
  oneHead : ¬ le.TwoHeaded
  offHead : ∀ dag' head, dag = some dag' → le.head = some head →
    contentHashOf dag' head ≠ some le.contentHash
  offBase : ∀ re, remoteState.fileEntries.get le.id = some re →
    (resolveThreeWayBase le re dag).baseHash ≠ some le.contentHash

/-- The merge gives up the local version of a file both sides know. -/
def GivesUp (le re : FileEntry) : Prop :=
  re.deleted = true ∧ (settledByPeer dag le re = true ∨ isUnchangedSinceBase le re dag = true) ∨
    re.deleted = false ∧ le.contentHash ≠ re.contentHash ∧ Adopts localState remoteState dag le re

/-- The merge brings a file both sides know to its remote path, over bytes of `hash`. -/
inductive Overwrites (hash fileId : String) (le re : FileEntry) : Prop
  | readopt {content : Bytes} (hle : le.deleted = true) (hs : settledByPeer dag le re = true)
      (hc : Stored localState remoteState re.contentHash content) (hold : le.contentHash = hash)
      (hnew : re.contentHash ≠ hash)
  | restore {content : Bytes} (hle : le.deleted = true) (hs : settledByPeer dag le re = false)
      (hu : isUnchangedSinceBase re le dag = false)
      (hc : (remoteState.contentStore.get re.contentHash).or
        (localState.contentStore.get re.contentHash) = some content)
      (hdec : H.onDeleteConflict (.deleteConflict fileId re.path .localDeleted content
        (deleteParents le re)) ≠ .deferConflict) (hnew : re.contentHash ≠ hash)
  | move (hle : le.deleted = false) (hsame : le.contentHash = re.contentHash)
      (hw : ¬ 0 ≤ hlcCompare le.hlcTimestamp re.hlcTimestamp) (hrep : D.moveReplaces = true)
      (hnew : re.contentHash ≠ hash)
  | adopt (hle : le.deleted = false) (hne : le.contentHash ≠ re.contentHash)
      (h : Adopts localState remoteState dag le re) (hnew : re.contentHash ≠ hash)
  | merge {content : Bytes} (hle : le.deleted = false) (hne : le.contentHash ≠ re.contentHash)
      (h : MergesCleanly D.toPlatform localState remoteState dag le re content)
      (hw : ¬ 0 ≤ hlcCompare le.hlcTimestamp re.hlcTimestamp)
      (hnew : D.sha256Hex content ≠ hash) (hl : le.contentHash ≠ hash)
      (hr : re.contentHash ≠ hash)
  | binary {localContent remoteContent : Bytes} (hle : le.deleted = false)
      (hne : le.contentHash ≠ re.contentHash)
      (h : BinaryClash localState remoteState dag le re localContent remoteContent)
      (hdec : H.onBinaryConflict (binaryConflictAction fileId le re localContent remoteContent) =
        .keepRemote) (hl : le.contentHash ≠ hash) (hr : re.contentHash ≠ hash)

/-- When no action of the merge costs `le` its bytes. -/
structure Safe (le : FileEntry) : Prop where
  own : ∀ re, remoteState.fileEntries.get le.id = some re →
    ¬ (re.deleted = true ∧ settledByPeer dag le re = true) ∧
      ¬ (re.deleted = false ∧ le.contentHash ≠ re.contentHash ∧
        LastWriter localState remoteState dag le re)
  twin : ∀ id le' re, id ≠ le.id → localState.fileEntries.get id = some le' →
    remoteState.fileEntries.get id = some re → le'.deleted = false → le'.path = le.path →
      ¬ GivesUp localState remoteState dag le' re
  known : ∀ id le' re, localState.fileEntries.get id = some le' →
    remoteState.fileEntries.get id = some re → ¬ (le'.deleted = false ∧ le'.path = le.path) →
      re.deleted = false → re.path = le.path →
        ¬ Overwrites D H localState remoteState dag le.contentHash id le' re
  new : ∀ id le' re content, localState.fileEntries.get id = none →
    remoteState.fileEntries.get id = some re → re.deleted = false → re.path = le.path →
      (liveByPath localState).get le.path = some le'.id →
      localState.fileEntries.get le'.id = some le' → Descends dag le' re →
      remoteState.contentStore.get re.contentHash = some content → re.contentHash = le.contentHash

variable {D H localState remoteState dag w} {le re : FileEntry} {fileId hash : String} {p : Path}
  {a : MergeAction}

theorem not_mergedFrom {content : Bytes} (he : localState.fileEntries.get fileId = none) :
    ¬ MergedFrom D localState remoteState dag hash fileId content := by
  rintro ⟨_, _, _, _, _, _, hl, -⟩
  cases he.symm.trans hl

theorem carries_adopt_head {content : Bytes} (hhead : re.head ≠ none) :
    ¬ Carries D localState remoteState dag hash (adoptAction fileId re content) := by
  intro h
  cases hv : re.headVersionId with
  | none => exact hhead (by simp [FileEntry.head, hv])
  | some v => simp [adoptAction, Carries, hv] at h

theorem head_of_knownHeads {heads : VersionDag × String × String}
    (h : knownHeads dag le re = some heads) : re.head ≠ none := by
  intro hnone
  unfold knownHeads at h
  split at h
  · rename_i hrh
    cases hnone.symm.trans hrh
  · exact absurd h (by rintro ⟨⟩)

/-- Nothing of the local version goes into an adopted remote one. -/
theorem not_carries_adopt {content : Bytes}
    (hl : localState.fileEntries.get fileId = some le)
    (h : Adopts localState remoteState dag le re) :
    ¬ Carries D localState remoteState dag hash (adoptAction fileId re content) := by
  have hbase : ∀ {b : String}, (resolveThreeWayBase le re dag).baseHash = some b →
      ∃ heads, knownHeads dag le re = some heads := by
    intro b hb
    cases hk : knownHeads dag le re with
    | none => simp [resolveThreeWayBase, hk] at hb
    | some heads => exact ⟨heads, rfl⟩
  cases h with
  | closedByPeer h hc =>
      obtain ⟨-, _, _, -, hhead, -⟩ := h
      exact carries_adopt_head (by simp [hhead])
  | fastForward h2 h hc =>
      obtain ⟨_, _, _, hk, -⟩ := h
      exact carries_adopt_head (head_of_knownHeads hk)
  | onlyRemote h =>
      obtain ⟨-, -, hb, -⟩ := h
      obtain ⟨heads, hk⟩ := hbase hb
      exact carries_adopt_head (head_of_knownHeads hk)
  | lastWriter h =>
      intro hc
      cases hv : re.headVersionId with
      | some v => simp [adoptAction, Carries, hv] at hc
      | none =>
          simp only [adoptAction, Carries, hv] at hc
          obtain ⟨le', _, _, _, _, _, hl', -, hstore, -⟩ := hc
          cases hl.symm.trans hl'
          cases h.2.1.symm.trans hstore

theorem not_carries_readopt {content : Bytes} (hs : settledByPeer dag le re = true) :
    ¬ Carries D localState remoteState dag hash (adoptAction fileId re content) := by
  cases hk : knownHeads dag le re with
  | none => simp [settledByPeer, hk] at hs
  | some heads => exact carries_adopt_head (head_of_knownHeads hk)

theorem mergedFrom_cleanly {content : Bytes} (hl : localState.fileEntries.get fileId = some le)
    (hr : remoteState.fileEntries.get fileId = some re)
    (h : MergesCleanly D.toPlatform localState remoteState dag le re content)
    (hh : le.contentHash = hash ∨ re.contentHash = hash) :
    MergedFrom D localState remoteState dag hash fileId content := by
  obtain ⟨-, localContent, remoteContent, ancestorText, m, hlc, hrc, -, hbase, hm, hclean, hc⟩ := h
  exact ⟨le, re, localContent, remoteContent, ancestorText, m, hl, hr, hlc, hrc, hbase, hm,
    hclean, hc, hh⟩

theorem not_mergedFrom_other {content : Bytes}
    (hl : localState.fileEntries.get fileId = some le)
    (hr : remoteState.fileEntries.get fileId = some re) (hlh : le.contentHash ≠ hash)
    (hrh : re.contentHash ≠ hash) : ¬ MergedFrom D localState remoteState dag hash fileId content := by
  rintro ⟨le', re', _, _, _, _, hl', hr', -, -, -, -, -, -, h⟩
  cases hl.symm.trans hl'
  cases hr.symm.trans hr'
  exact h.elim hlh hrh

section Known

variable (hlocal : ContentAddressed D localState) (hremote : ContentAddressed D remoteState)
  (hdisk : OnDisk D localState w) (hw : HasHash D w p hash)

include hlocal hremote hdisk hw

/-- A file at the path keeps its bytes exactly when the merge does not give it up. -/
theorem preserved_both_at (hl : localState.fileEntries.get fileId = some le)
    (hr : remoteState.fileEntries.get fileId = some re) (hlive : le.deleted = false)
    (hp : le.path = p)
    (h : resolveBoth D.toPlatform localState remoteState dag fileId le re = some a) :
    Preserved D H localState remoteState dag w p hash a ↔
      ¬ GivesUp localState remoteState dag le re := by
  subst hp
  have hhash := hash_of_onDisk hdisk hl hlive hw
  have hd := not_drifted hdisk hl hlive
  have hcur := currentPath_live hl hlive
  by_cases hg : GivesUp localState remoteState dag le re
  · refine iff_of_false ?_ (not_not.2 hg)
    rcases hg with ⟨hre, hgone⟩ | ⟨hre, hne, hadopt⟩
    · rw [both_deleteLocal hlive hre hgone] at h
      cases h
      exact preserved_deleteLocal hd
    · obtain ⟨content, hc, hboth⟩ := both_adopt D.toPlatform fileId hlive hre
        hne hadopt
      rw [hboth] at h
      cases h
      rw [adoptAction, preserved_writeLocal hw ((hcur re.path).symm ▸ hd), hcur]
      rintro (hcarry | ⟨hstale, hsame⟩)
      · exact not_carries_adopt hl hadopt hcarry
      · have hpath : re.path = le.path := by
          by_contra hne'
          exact hstale ⟨Ne.symm hne', rfl⟩
        exact hne (hhash.trans ((hsame hpath).symm.trans (hash_of_stored hlocal hremote hc)))
  · refine iff_of_true ?_ hg
    cases resolved_both h with
    | noOp => exact preserved_frame hw List.not_mem_nil
    | readopt hle => cases hlive.symm.trans hle
    | deleteRemote hle => cases hlive.symm.trans hle
    | restore hle => cases hlive.symm.trans hle
    | deleteLocal _ hre hgone => exact absurd (Or.inl ⟨hre, hgone⟩) hg
    | survive _ _ hc => exact Or.inl ((hash_of_stored hlocal hremote hc).trans hhash)
    | move => exact preserved_moveAway hw hd
    | advance _ _ hsame hpath hc =>
        rw [adoptAction, preserved_writeLocal hw ((hcur re.path).symm ▸ hd), hcur]
        exact Or.inr ⟨fun hs => hs.1 hpath,
          fun _ => (hash_of_stored hlocal hremote hc).trans hhash⟩
    | unite _ _ hsame _ hc =>
        rw [preserved_writeMerge hw ((hcur le.path).symm ▸ hd), hcur]
        exact Or.inr ⟨fun hs => hs.1 rfl,
          fun _ => (hash_of_stored hlocal hremote hc).trans hhash⟩
    | adopt _ hre hne _ hadopt => exact absurd (Or.inr ⟨hre, hne, hadopt⟩) hg
    | keep _ hc =>
        rw [preserved_writeLocal hw ((hcur le.path).symm ▸ hd), hcur]
        exact Or.inr ⟨fun hs => hs.1 rfl, fun _ => (hlocal _ _ hc).trans hhash⟩
    | merged _ _ _ hm => exact Or.inl (mergedFrom_cleanly hl hr hm (Or.inl hhash))
    | mergedHeadless _ _ _ hm => exact Or.inl (mergedFrom_cleanly hl hr hm (Or.inl hhash))
    | conflict _ _ hlc => exact Or.inl ⟨_, (hlocal _ _ hlc).trans hhash, Or.inl rfl⟩
    | binary _ _ _ hb => exact Or.inl (Or.inl ((hlocal _ _ hb.2.1).trans hhash))

omit hlocal hremote in
theorem preserved_clean_merge {content : Bytes} (parents : List String) (hlc : Hlc)
    (hl : localState.fileEntries.get fileId = some le)
    (hr : remoteState.fileEntries.get fileId = some re) (hlive : le.deleted = false)
    (hp : le.path ≠ p)
    (hm : MergesCleanly D.toPlatform localState remoteState dag le re content)
    (hsafe : ¬ 0 ≤ hlcCompare le.hlcTimestamp re.hlcTimestamp → re.path = p →
      D.sha256Hex content ≠ hash → le.contentHash ≠ hash → re.contentHash = hash) :
    Preserved D H localState remoteState dag w p hash
        (.writeMerge fileId (laterOf le re).path content parents) ∧
      Preserved D H localState remoteState dag w p hash
        (.writeLocal fileId (laterOf le re).path content hlc none) := by
  have hd := not_drifted hdisk hl hlive
  have hcur := currentPath_live hl hlive
  rw [preserved_writeMerge hw ((hcur _).symm ▸ hd), preserved_writeLocal hw ((hcur _).symm ▸ hd),
    hcur]
  refine and_self_iff.2 ?_
  by_cases hinput : le.contentHash = hash ∨ re.contentHash = hash
  · exact Or.inl (mergedFrom_cleanly hl hr hm hinput)
  · refine Or.inr ⟨fun hs => hp hs.2, fun htarget => ?_⟩
    rw [not_or] at hinput
    by_contra hsha
    unfold laterOf at htarget
    split at htarget
    · exact hp htarget
    · rename_i hw'
      exact hinput.2 (hsafe hw' htarget hsha hinput.1)

/-- A file that stands elsewhere costs the path its bytes exactly when the merge brings it
there over them. -/
theorem preserved_both_elsewhere (hl : localState.fileEntries.get fileId = some le)
    (hr : remoteState.fileEntries.get fileId = some re)
    (hp : ¬ (le.deleted = false ∧ le.path = p))
    (h : resolveBoth D.toPlatform localState remoteState dag fileId le re = some a) :
    Preserved D H localState remoteState dag w p hash a ↔
      ¬ (re.deleted = false ∧ re.path = p ∧
        Overwrites D H localState remoteState dag hash fileId le re) := by
  constructor
  · rintro hpres ⟨hre, rfl, hover⟩
    cases hover with
    | readopt hle hs hc hold hnew =>
        obtain ⟨content, hc, hboth⟩ := both_readopt D.toPlatform fileId hle hre
          hs hc
        rw [hboth] at h
        cases h
        have hcur := currentPath_deleted hl hle re.path
        have hd : Drifted D localState w fileId re.path = false := by
          obtain ⟨bytes, hb, hh⟩ := exists_bytes hw
          simp [Drifted, hl, hb, hh, hold]
        rw [adoptAction, preserved_writeLocal hw (hcur.symm ▸ hd)] at hpres
        rcases hpres with hcarry | ⟨-, hsame⟩
        · exact not_carries_readopt hs hcarry
        · exact hnew ((hash_of_stored hlocal hremote hc).symm.trans (hsame rfl))
    | restore hle hs hu hc hdec hnew =>
        rw [both_restore hle hre hs hu hc] at h
        cases h
        rcases (preserved_deleteConflict hw).1 hpres with hsame | hdefer
        · exact hnew ((hash_of_stored hlocal hremote (stored_or hc)).symm.trans hsame)
        · exact hdec hdefer
    | move hle hsame hw' hrep hnew =>
        have hne : le.path ≠ re.path := fun heq => hp ⟨hle, heq⟩
        rw [both_move hle hre hsame hne hw'] at h
        cases h
        exact (preserved_moveOnto hw hne (hdisk _ _ hl hle) (not_drifted hdisk hl hle)).1 hpres
          ⟨hrep, hsame ▸ hnew⟩
    | adopt hle hne hadopt hnew =>
        obtain ⟨content, hc, hboth⟩ := both_adopt D.toPlatform fileId hle hre
          hne hadopt
        rw [hboth] at h
        cases h
        rw [adoptAction, preserved_writeLocal hw
          ((currentPath_live hl hle _).symm ▸ not_drifted hdisk hl hle)] at hpres
        rcases hpres with hcarry | ⟨-, hsame⟩
        · exact not_carries_adopt hl hadopt hcarry
        · exact hnew ((hash_of_stored hlocal hremote hc).symm.trans (hsame rfl))
    | merge hle hne hm hw' hnew hlh hrh =>
        rw [both_merge hle hre hne hm] at h
        cases h
        have hlater : laterOf le re = re := if_neg hw'
        have hd := (currentPath_live hl hle re.path).symm ▸ not_drifted hdisk hl hle
        have hnot : ∀ content, ¬ MergedFrom D localState remoteState dag hash fileId content :=
          fun _ => not_mergedFrom_other hl hr hlh hrh
        unfold cleanMergeAction at hpres
        rw [hlater] at hpres
        split at hpres
        · rw [preserved_writeMerge hw hd] at hpres
          exact hpres.elim (hnot _) (fun hs => hnew (hs.2 rfl))
        · rw [preserved_writeLocal hw hd] at hpres
          exact hpres.elim (hnot _) (fun hs => hnew (hs.2 rfl))
    | binary hle hne hb hdec hlh hrh =>
        rw [both_binary hle hre hne hb] at h
        cases h
        rcases (preserved_binaryConflict hw (fun heq => hp ⟨hle, heq⟩)).1 hpres with
          hsame | hsame | hkeep
        · exact hlh ((hlocal _ _ hb.2.1).symm.trans hsame)
        · exact hrh ((hremote _ _ hb.2.2.1).symm.trans hsame)
        · exact hkeep hdec
  · intro hsafe
    have hover : re.deleted = false → re.path = p →
        ¬ Overwrites D H localState remoteState dag hash fileId le re :=
      fun hre hrp hov => hsafe ⟨hre, hrp, hov⟩
    cases resolved_both h with
    | noOp => exact preserved_frame hw List.not_mem_nil
    | deleteRemote => exact preserved_frame hw List.not_mem_nil
    | readopt hle hre hs hc =>
        have hcur := currentPath_deleted hl hle re.path
        cases hd : Drifted D localState w fileId re.path with
        | true =>
            exact preserved_unchanged hw
              (run_writeLocal_drifted D H localState w _ _ _ _ _ (hcur.symm ▸ hd))
        | false =>
            rw [adoptAction, preserved_writeLocal hw (hcur.symm ▸ hd), hcur]
            refine Or.inr ⟨fun hs => hs.1 rfl, fun hrp => ?_⟩
            subst hrp
            rw [hash_of_stored hlocal hremote hc]
            by_contra hnew
            refine hover hre rfl (.readopt hle hs hc ?_ hnew)
            obtain ⟨bytes, hb, hh⟩ := exists_bytes hw
            simp only [Drifted, hl, hb, ne_eq, decide_eq_false_iff_not, not_not] at hd
            exact hd.symm.trans hh
    | restore hle hre hs hu hc =>
        by_cases hrp : re.path = p
        · subst hrp
          rw [preserved_deleteConflict hw, hash_of_stored hlocal hremote (stored_or hc)]
          by_contra hnot
          rw [not_or] at hnot
          exact hover hre rfl (.restore hle hs hu hc hnot.2 hnot.1)
        · refine preserved_frame hw (fun hmem => ?_)
          rw [touched] at hmem
          split at hmem
          · exact List.not_mem_nil hmem
          · exact hrp (List.mem_singleton.1 hmem).symm
    | deleteLocal hle =>
        exact preserved_frame hw (fun hmem => hp ⟨hle, (List.mem_singleton.1 hmem).symm⟩)
    | survive hle =>
        refine preserved_frame hw (fun hmem => ?_)
        rw [touched] at hmem
        split at hmem
        · exact List.not_mem_nil hmem
        · exact hp ⟨hle, (List.mem_singleton.1 hmem).symm⟩
    | move hle hre hsame hne hw' =>
        by_cases hrp : re.path = p
        · subst hrp
          rw [preserved_moveOnto hw hne (hdisk _ _ hl hle) (not_drifted hdisk hl hle)]
          rintro ⟨hrep, hnew⟩
          exact hover hre rfl (.move hle hsame hw' hrep (hsame ▸ hnew))
        · refine preserved_frame hw (fun hmem => ?_)
          rcases List.mem_pair.1 hmem with rfl | rfl
          · exact hp ⟨hle, rfl⟩
          · exact hrp rfl
    | advance hle hre hsame hpath hc =>
        refine preserved_frame hw (fun hmem => ?_)
        rw [adoptAction, touched, currentPath_live hl hle] at hmem
        rcases List.mem_pair.1 hmem with rfl | rfl
        · exact hp ⟨hle, hpath⟩
        · exact hp ⟨hle, rfl⟩
    | unite hle =>
        refine preserved_frame hw (fun hmem => ?_)
        rw [touched, currentPath_live hl hle] at hmem
        rcases List.mem_pair.1 hmem with rfl | rfl <;> exact hp ⟨hle, rfl⟩
    | adopt hle hre hne hc hadopt =>
        have hcur := currentPath_live hl hle re.path
        rw [adoptAction, preserved_writeLocal hw (hcur.symm ▸ not_drifted hdisk hl hle), hcur]
        refine Or.inr ⟨fun hs => hp ⟨hle, hs.2⟩, fun hrp => ?_⟩
        rw [hash_of_stored hlocal hremote hc]
        by_contra hnew
        exact hover hre hrp (.adopt hle hne hadopt hnew)
    | keep hle =>
        refine preserved_frame hw (fun hmem => ?_)
        rw [touched, currentPath_live hl hle] at hmem
        rcases List.mem_pair.1 hmem with rfl | rfl <;> exact hp ⟨hle, rfl⟩
    | merged hle hre hne hm =>
        refine (preserved_clean_merge hdisk hw _ le.hlcTimestamp hl hr hle
          (fun heq => hp ⟨hle, heq⟩) hm (fun hw' hrp hnew hlh => ?_)).1
        by_contra hrh
        exact hover hre hrp (.merge hle hne hm hw' hnew hlh hrh)
    | mergedHeadless hle hre hne hm =>
        refine (preserved_clean_merge hdisk hw [] _ hl hr hle
          (fun heq => hp ⟨hle, heq⟩) hm (fun hw' hrp hnew hlh => ?_)).2
        by_contra hrh
        exact hover hre hrp (.merge hle hne hm hw' hnew hlh hrh)
    | conflict hle =>
        exact preserved_frame hw (fun hmem => hp ⟨hle, (List.mem_singleton.1 hmem).symm⟩)
    | binary hle hre hne hb =>
        have hlp : le.path ≠ p := fun heq => hp ⟨hle, heq⟩
        by_cases hrp : re.path = p
        · subst hrp
          rw [binaryConflictAction, preserved_binaryConflict hw hlp]
          by_contra hnot
          rw [not_or, not_or, not_not] at hnot
          exact hover hre rfl (.binary hle hne hb hnot.2.2
            (fun heq => hnot.1 ((hlocal _ _ hb.2.1).trans heq))
            (fun heq => hnot.2.1 ((hremote _ _ hb.2.2.1).trans heq)))
        · refine preserved_frame hw (fun hmem => ?_)
          simp only [binaryConflictAction, touched] at hmem
          split at hmem
          · exact List.not_mem_nil hmem
          · exact hlp (List.mem_singleton.1 hmem).symm
          · exact hrp (List.mem_singleton.1 hmem).symm

end Known

section Unknown

variable (hlocal : ContentAddressed D localState) (hremote : ContentAddressed D remoteState)
  (hdisk : OnDisk D localState w) (hw : HasHash D w p hash)

include hlocal hremote hdisk hw

/-- A new remote file costs the path its bytes exactly when it is taken for a later version
of the file there. -/
theorem preserved_remoteOnly {holder : FileEntry} (hl : localState.fileEntries.get fileId = none)
    (hr : remoteState.fileEntries.get fileId = some re)
    (hholder : (liveByPath localState).get p = some holder.id)
    (hle : localState.fileEntries.get holder.id = some holder)
    (h : actionFor D.toPlatform localState remoteState dag fileId = some a) :
    Preserved D H localState remoteState dag w p hash a ↔
      ¬ (re.deleted = false ∧ re.path = p ∧ Descends dag holder re ∧ re.contentHash ≠ hash ∧
        ∃ content, remoteState.contentStore.get re.contentHash = some content) := by
  have hid := FileEntries.get_id hr
  have hcur : currentPath localState re.id re.path = re.path :=
    currentPath_unknown (hid ▸ hl) re.path
  have hd : ∀ path, Drifted D localState w re.id path = false := fun path => by
    simp [Drifted, hid, hl]
  obtain ⟨e, he, hlive, hp⟩ := live_of_liveByPath hholder
  cases hle.symm.trans he
  have hheld : holder.contentHash = hash := hash_of_onDisk hdisk hle hlive (hp ▸ hw)
  constructor
  · rintro hpres ⟨hre, rfl, hdesc, hnew, content, hc⟩
    rw [actionFor_remoteOnly hl hr, resolveRemoteOnly_held hre hl hholder hle,
      createCollision_descends hdesc, adoptRemoteId, if_pos rfl, hc, Option.some_or] at h
    cases h
    rw [preserved_writeLocal hw (hd _)] at hpres
    rcases hpres with hcarry | ⟨-, hsame⟩
    · cases hv : re.headVersionId with
      | none =>
          simp only [Carries, hv] at hcarry
          exact not_mergedFrom (hid ▸ hl) hcarry
      | some v => simp [Carries, hv] at hcarry
    · exact hnew ((hremote _ _ hc).symm.trans (hsame rfl))
  · intro hsafe
    cases outcome_actionFor h with
    | noOp => exact preserved_frame hw List.not_mem_nil
    | both hl' => cases hl.symm.trans hl'
    | newLocal hl' => cases hl.symm.trans hl'
    | localCollides hl' => cases hl.symm.trans hl'
    | newRemote _ hr' _ hfree _ =>
        cases hr.symm.trans hr'
        refine preserved_frame hw (fun hmem => ?_)
        rw [touched, currentPath_unknown hl] at hmem
        rcases List.mem_pair.1 hmem with rfl | rfl <;> cases hfree.symm.trans hholder
    | @remoteCollides le' re' _ _ hr' hre hholder' hle' hcol =>
        cases hr.symm.trans hr'
        by_cases hrp : re.path = p
        · subst hrp
          have hsame : le'.id = holder.id := Option.some.inj (hholder'.symm.trans hholder)
          rw [hsame, hle] at hle'
          cases hle'
          cases hcol with
          | noOp => exact preserved_frame hw List.not_mem_nil
          | adopt _ hc hg =>
              rw [preserved_writeLocal hw (hd _), hcur]
              refine Or.inr ⟨fun hs => hs.1 rfl, fun _ => ?_⟩
              rcases hc with hc | ⟨-, hc⟩
              · rw [hremote _ _ hc]
                by_contra hnew
                rcases hg with ⟨hsame, -⟩ | hdesc
                · exact hnew (hsame.symm.trans hheld)
                · exact hsafe ⟨hre, rfl, hdesc, hnew, _, hc⟩
              · exact (hlocal _ _ hc).trans hheld
          | conflict _ _ _ hlc _ =>
              exact Or.inl ⟨_, (hlocal _ _ hlc).trans hheld, Or.inl rfl⟩
        · obtain ⟨e', he', -, hp'⟩ := live_of_liveByPath hholder'
          cases hle'.symm.trans he'
          refine preserved_frame hw (fun hmem => ?_)
          cases hcol with
          | noOp => exact List.not_mem_nil hmem
          | adopt =>
              rw [touched, hcur] at hmem
              rcases List.mem_pair.1 hmem with rfl | rfl <;> exact hrp rfl
          | conflict => exact hrp (hp'.symm.trans (List.mem_singleton.1 hmem).symm)

omit hremote in
/-- A file only this side knows costs no path its bytes. -/
theorem preserved_localOnly (hl : localState.fileEntries.get fileId = some le)
    (hr : remoteState.fileEntries.get fileId = none)
    (h : actionFor D.toPlatform localState remoteState dag fileId = some a) :
    Preserved D H localState remoteState dag w p hash a := by
  cases outcome_actionFor h with
  | noOp => exact preserved_frame hw List.not_mem_nil
  | both _ hr' => cases hr.symm.trans hr'
  | newRemote hl' => cases hl.symm.trans hl'
  | remoteCollides hl' => cases hl.symm.trans hl'
  | newLocal => exact preserved_frame hw List.not_mem_nil
  | localCollides hl' _ hlive _ _ hcol =>
      cases hl.symm.trans hl'
      cases hcol with
      | noOp => exact preserved_frame hw List.not_mem_nil
      | adopt hself => cases hself
      | conflict _ _ _ hlc _ =>
          by_cases hp : le.path = p
          · exact Or.inl ⟨_, (hlocal _ _ hlc).trans (hash_of_onDisk hdisk hl hlive (hp ▸ hw)),
              Or.inl rfl⟩
          · exact preserved_frame hw (fun hmem => hp (List.mem_singleton.1 hmem).symm)

end Unknown

theorem baseHash_of_unchanged (h : isUnchangedSinceBase le re dag = true) :
    (resolveThreeWayBase le re dag).baseHash = some le.contentHash := by
  simp only [isUnchangedSinceBase] at h
  cases hk : knownHeads dag le re with
  | none => simp [hk] at h
  | some heads =>
      obtain ⟨dag', localHead, remoteHead⟩ := heads
      cases hb : mergeBase dag' localHead remoteHead with
      | none => simp [hk, hb] at h
      | multipleBases => simp [hk, hb] at h
      | base b =>
          simp only [hk, hb] at h
          simp only [resolveThreeWayBase, hk, hb]
          by_contra hne
          simp [hne] at h

/-- Of the ways to give up a version only two are left for an unlogged one. -/
theorem givesUp_unlogged (hu : Unlogged localState remoteState dag le)
    (hr : remoteState.fileEntries.get le.id = some re) :
    ¬ GivesUp localState remoteState dag le re ↔
      ¬ (re.deleted = true ∧ settledByPeer dag le re = true) ∧
        ¬ (re.deleted = false ∧ le.contentHash ≠ re.contentHash ∧
          LastWriter localState remoteState dag le re) := by
  rw [← not_or, not_iff_not]
  constructor
  · rintro (⟨hre, hs | hunchanged⟩ | ⟨hre, hne, hadopt⟩)
    · exact Or.inl ⟨hre, hs⟩
    · exact absurd (baseHash_of_unchanged hunchanged) (hu.offBase re hr)
    · refine Or.inr ⟨hre, hne, ?_⟩
      cases hadopt with
      | closedByPeer h => exact absurd h.1 hu.oneHead
      | fastForward _ h =>
          obtain ⟨dag', localHead, remoteHead, hk, hat, -⟩ := h
          unfold knownHeads at hk
          split at hk
          · rename_i hlh hrh
            cases hk
            exact absurd (of_decide_eq_true hat) (hu.offHead _ _ rfl hlh)
          · exact absurd hk nofun
      | onlyRemote h => exact absurd h.2.2.1 (hu.offBase re hr)
      | lastWriter h => exact h
  · rintro (⟨hre, hs⟩ | ⟨hre, hne, hlast⟩)
    · exact Or.inl ⟨hre, Or.inl hs⟩
    · exact Or.inr ⟨hre, hne, .lastWriter hlast⟩

/-- An edit the graph does not know survives the merge exactly when the remote delete of it
is not taken as settled, its bytes are in the store or it is the later writer, and no other
file is brought to its path over it. -/
theorem mergeVaultStates_preserves_unlogged {D : Device} {H : ConflictHandlers}
    {localState remoteState : VaultState} {dag : Option VersionDag} {w : World}
    {r : StateMergeResult} {le : FileEntry}
    (hm : mergeVaultStates D.toPlatform localState remoteState dag = some r)
    (hlocal : ContentAddressed D localState) (hremote : ContentAddressed D remoteState)
    (hdisk : OnDisk D localState w) (hu : Unlogged localState remoteState dag le) :
    (∀ a ∈ r.actions, Preserved D H localState remoteState dag w le.path le.contentHash a) ↔
      Safe D H localState remoteState dag le := by
  have hw : HasHash D w le.path le.contentHash := hdisk _ _ hu.here hu.live
  obtain ⟨holderId, hindex⟩ := liveByPath_isSome hu.here hu.live
  obtain ⟨holder, hget, -, -⟩ := live_of_liveByPath hindex
  obtain rfl := FileEntries.get_id hget
  constructor
  · intro h
    have answer : ∀ id, (∃ e, localState.fileEntries.get id = some e) ∨
        (∃ e, remoteState.fileEntries.get id = some e) →
        ∃ a, actionFor D.toPlatform localState remoteState dag id = some a ∧
          Preserved D H localState remoteState dag w le.path le.contentHash a := by
      intro id hid
      obtain ⟨a, ha, haf⟩ := exists_action hm (mem_allIds.2 hid)
      exact ⟨a, haf, h a ha⟩
    refine ⟨?_, ?_, ?_, ?_⟩
    · intro re hr
      obtain ⟨a, haf, hpres⟩ := answer le.id (Or.inr ⟨re, hr⟩)
      rw [actionFor_both hu.here hr] at haf
      rw [← givesUp_unlogged hu hr]
      exact (preserved_both_at hlocal hremote hdisk hw hu.here hr hu.live rfl haf).1 hpres
    · intro id le' re _ hl hr hlive hp
      obtain ⟨a, haf, hpres⟩ := answer id (Or.inr ⟨re, hr⟩)
      rw [actionFor_both hl hr] at haf
      exact (preserved_both_at hlocal hremote hdisk hw hl hr hlive hp haf).1 hpres
    · intro id le' re hl hr hnot hre hp hover
      obtain ⟨a, haf, hpres⟩ := answer id (Or.inr ⟨re, hr⟩)
      rw [actionFor_both hl hr] at haf
      exact (preserved_both_elsewhere hlocal hremote hdisk hw hl hr hnot haf).1 hpres
        ⟨hre, hp, hover⟩
    · intro id le' re content hl hr hre hp hholder hle hdesc hc
      obtain ⟨a, haf, hpres⟩ := answer id (Or.inr ⟨re, hr⟩)
      by_contra hne
      exact (preserved_remoteOnly hlocal hremote hdisk hw hl hr hholder hle haf).1 hpres
        ⟨hre, hp, hdesc, hne, content, hc⟩
  · intro hsafe a ha
    obtain ⟨id, -, haf⟩ := (mem_actions hm).1 ha
    cases hl : localState.fileEntries.get id with
    | none =>
        cases hr : remoteState.fileEntries.get id with
        | none =>
            rw [actionFor, hl, hr] at haf
            cases haf
            exact preserved_frame hw List.not_mem_nil
        | some re =>
            refine (preserved_remoteOnly hlocal hremote hdisk hw hl hr hindex hget haf).2 ?_
            rintro ⟨hre, hp, hdesc, hne, content, hc⟩
            exact hne (hsafe.new id holder re content hl hr hre hp hindex hget hdesc hc)
    | some le' =>
        cases hr : remoteState.fileEntries.get id with
        | none => exact preserved_localOnly hlocal hdisk hw hl hr haf
        | some re =>
            rw [actionFor_both hl hr] at haf
            by_cases hat : le'.deleted = false ∧ le'.path = le.path
            · rw [preserved_both_at hlocal hremote hdisk hw hl hr hat.1 hat.2 haf]
              by_cases hid : id = le.id
              · subst hid
                cases hl.symm.trans hu.here
                exact (givesUp_unlogged hu hr).2 (hsafe.own re hr)
              · exact hsafe.twin id le' re hid hl hr hat.1 hat.2
            · rw [preserved_both_elsewhere hlocal hremote hdisk hw hl hr hat haf]
              rintro ⟨hre, hp, hover⟩
              exact hsafe.known id le' re hl hr hat hre hp hover

section Example

/-- The logged version of `n.md` reads `A`; the user's later bytes are `B`. -/
def editedHere : FileEntry := { fileAt "f" "n.md" "B" 1 with headVersionId := some "v" }

def editedState : VaultState := stateOf [editedHere] [("B", [66])]

def editedVault : World := atRest [("n.md", [66])] .empty

/-- A peer deleted the file; its tombstone has this head. -/
def deletedThere (head : Option String) : FileEntry :=
  { fileAt "f" "n.md" "A" 2 with deleted := true, headVersionId := head }

/-- The peer's delete is a merge node over the logged version. -/
def settledGraph : VersionDag :=
  .ofList [("v", ⟨[], "A", "f"⟩), ("u", ⟨["v"], "C", "f"⟩), ("m", ⟨["v", "u"], "A", "f"⟩)]

theorem unlogged_editedHere : Unlogged editedState (stateOf [deletedThere (some "m")] [])
    (some settledGraph) editedHere where
  here := by decide
  live := rfl
  oneHead := by decide
  offHead dag' head hdag hhead := by
    cases hdag
    cases hhead
    decide
  offBase re hr := by
    rw [get_stateOf_singleton] at hr
    cases hr
    decide

theorem mergeVaultStates_preserves_unlogged_example :
    ∃ r, mergeVaultStates asciiPlatform editedState (stateOf [deletedThere none] []) none =
        some r ∧ ∀ a ∈ r.actions, Preserved asciiDevice ⟨fun _ => .keepDeleted, fun _ => .keepLocal⟩
          editedState (stateOf [deletedThere none] []) none editedVault "n.md" "B" a := by
  obtain ⟨r, hr⟩ := Option.isSome_iff_exists.1 (show
    (mergeVaultStates asciiPlatform editedState (stateOf [deletedThere none] []) none).isSome by
      decide)
  have hu : Unlogged editedState (stateOf [deletedThere none] []) none editedHere :=
    ⟨by decide, rfl, by decide, fun _ _ => by rintro ⟨⟩, fun _ _ => by rintro ⟨⟩⟩
  refine ⟨r, hr, (mergeVaultStates_preserves_unlogged (D := asciiDevice) hr
    (contentAddressed_iff.2 (by decide)) (contentAddressed_iff.2 (by decide))
    (onDisk_iff.2 (by decide)) hu).2 ⟨?_, ?_, ?_, ?_⟩⟩
  · intro re hr
    rw [get_stateOf_singleton] at hr
    cases hr
    exact ⟨by decide, fun h => by cases h.1⟩
  · intro id le' re hid _ hr
    rw [get_stateOf_singleton] at hr
    split at hr
    · rename_i heq
      exact absurd heq.symm hid
    · cases hr
  · intro id le' re _ hr _ hre
    rw [get_stateOf_singleton] at hr
    split at hr <;> cases hr
    cases hre
  · intro id le' re _ _ hr hre
    rw [get_stateOf_singleton] at hr
    split at hr <;> cases hr
    cases hre

/-- The peer's merge node descends from the stale head, which the edited bytes are not. -/
theorem mergeVaultStates_destroys_unlogged :
    ¬ ∀ (D : Device) (H : ConflictHandlers) (localState remoteState : VaultState)
      (dag : Option VersionDag) (w : World) (r : StateMergeResult) (le : FileEntry),
      mergeVaultStates D.toPlatform localState remoteState dag = some r →
      ContentAddressed D localState → ContentAddressed D remoteState → OnDisk D localState w →
      Unlogged localState remoteState dag le →
      ∀ a ∈ r.actions, Preserved D H localState remoteState dag w le.path le.contentHash a := by
  intro h
  have hrun : mergeVaultStates asciiPlatform editedState (stateOf [deletedThere (some "m")] [])
      (some settledGraph) = some ⟨[.deleteLocal "f" "n.md"], ⟨0, 0, "a"⟩⟩ := by decide
  exact preserved_deleteLocal (by decide) (h asciiDevice
    ⟨fun _ => .keepDeleted, fun _ => .keepLocal⟩ editedState _ _ editedVault _ editedHere hrun
    (contentAddressed_iff.2 (by decide)) (contentAddressed_iff.2 (by decide))
    (onDisk_iff.2 (by decide)) unlogged_editedHere _ (List.mem_singleton.2 rfl))

end Example

end OpsBlobs.UnloggedEdit
