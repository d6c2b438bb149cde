import OpsBlobs.MergeOutcome
import OpsBlobs.VersionGraph

namespace OpsBlobs.CausalDominance

open Relation Types Hlc VersionDag VersionGraph StateMerge Resolution MergeOutcome

variable {P : Platform} {localState remoteState : VaultState} {dag : VersionDag}
  {fileId localHead remoteHead : String} {le re : FileEntry}

/-- Which of the two deletion branches answers with something that touches the vault. -/
inductive Reacts (localState remoteState : VaultState) (le re : FileEntry) : Prop
  | deletes (hle : le.deleted = false) (hre : re.deleted = true)
      (hsame : le.contentHash = re.contentHash) (hr : ¬ Renamed le re)
  | asksLocal (hle : le.deleted = false) (hre : re.deleted = true) {content : Bytes}
      (hc : Stored localState remoteState le.contentHash content)
  | asksRemote (hle : le.deleted = true) (hre : re.deleted = false) (hr : Renamed re le)
      {content : Bytes} (hc : Stored localState remoteState re.contentHash content)

section Dominated

/-- The remote head is a version that the local one was made from. -/
structure Seen (dag : VersionDag) (localHead remoteHead : String) (le re : FileEntry) :
    Prop where
  acyclic : Acyclic dag
  atLocal : RecordedAt dag localHead le
  atRemote : RecordedAt dag remoteHead re
  proper : IsProperAncestor dag remoteHead localHead

variable (h : Seen dag localHead remoteHead le re)

include h

theorem not_isAncestor : isAncestor dag localHead remoteHead = false := by
  rw [Bool.eq_false_iff]
  intro ha
  exact h.acyclic localHead (h.proper.trans_left (isAncestor_iff.1 ha))

theorem isAncestor_remoteHead : isAncestor dag remoteHead localHead = true :=
  isAncestor_iff.2 h.proper.to_reflTransGen

theorem not_settledByPeer : settledByPeer (some dag) le re = false := by
  rw [settledByPeer, knownHeads_of_heads h.atLocal.1 h.atRemote.1]
  simp only [not_isAncestor h, Bool.and_false]

theorem unchanged_local_iff : isUnchangedSinceBase le re (some dag) = true ↔
    ¬ Renamed le re ∧ le.contentHash = re.contentHash := by
  have hbase := mergeBase_of_isAncestor h.acyclic h.proper.to_reflTransGen
  rw [isUnchangedSinceBase_iff, knownHeads_of_heads h.atLocal.1 h.atRemote.1]
  refine and_congr_right (fun _ => ⟨?_, fun hsame => ?_⟩)
  · rintro ⟨dag', survivorHead, otherHead, base, hk, hb, hc⟩
    cases hk
    cases hbase.symm.trans hb
    exact Option.some.inj (hc.symm.trans h.atRemote.2)
  · exact ⟨_, _, _, _, rfl, hbase, hsame ▸ h.atRemote.2⟩

theorem unchanged_remote_iff : isUnchangedSinceBase re le (some dag) = true ↔
    ¬ Renamed re le := by
  have hbase := mergeBase_of_isAncestor h.acyclic h.proper.to_reflTransGen
  rw [isUnchangedSinceBase_iff, knownHeads_of_heads h.atRemote.1 h.atLocal.1]
  refine and_iff_left ⟨_, _, _, _, rfl, ?_, h.atRemote.2⟩
  rw [mergeBase_comm]
  exact hbase

theorem both_live_dominated (hpath : le.path = re.path) (h2 : ¬ le.TwoHeaded)
    (hle : le.deleted = false) (hre : re.deleted = false) :
    resolveBoth P localState remoteState (some dag) fileId le re = some (.noOp fileId) := by
  have hk : knownHeads (some dag) le re = some (dag, localHead, remoteHead) :=
    knownHeads_of_heads h.atLocal.1 h.atRemote.1
  by_cases hsame : le.contentHash = re.contentHash
  · simp only [resolveBoth, hle, hre, if_pos hsame, resolveSameContent, hk,
      if_neg (not_not.2 hpath), isAncestor_remoteHead h, if_true]
    split <;> rfl
  · rw [both_of_differ hle hre hsame]
    refine contentConflict_ahead h2 (fun hf => ?_) ((ahead_iff hk).2 (isAncestor_remoteHead h))
    rw [fastForwards_iff hk, not_isAncestor h, Bool.and_false] at hf
    cases hf

theorem remoteDeleted_dominated (hle : le.deleted = false) (hre : re.deleted = true) :
    ∃ a, resolveBoth P localState remoteState (some dag) fileId le re = some a ∧
      (a.affectsLocalVault = true ↔ Reacts localState remoteState le re) := by
  by_cases hu : isUnchangedSinceBase le re (some dag) = true
  · refine ⟨_, both_deleteLocal hle hre (Or.inr hu), iff_of_true rfl ?_⟩
    obtain ⟨hr, hsame⟩ := (unchanged_local_iff h).1 hu
    exact .deletes hle hre hsame hr
  rw [Bool.not_eq_true] at hu
  cases hc : (localState.contentStore.get le.contentHash).or
      (remoteState.contentStore.get le.contentHash) with
  | some content =>
      exact ⟨_, both_survive hle hre (not_settledByPeer h) hu hc,
        iff_of_true rfl (.asksLocal hle hre (stored_or' hc))⟩
  | none =>
      refine ⟨.noOp fileId, ?_, iff_of_false (by rintro ⟨⟩) fun hreact => ?_⟩
      · simp only [resolveBoth, hle, hre, resolveRemoteDeleted, not_settledByPeer h, hu, hc,
          Bool.false_eq_true, if_false]
      cases hreact with
      | deletes _ _ hsame hr =>
          cases hu.symm.trans ((unchanged_local_iff h).2 ⟨hr, hsame⟩)
      | asksLocal _ _ hs =>
          obtain ⟨hl, hr⟩ := Option.or_eq_none_iff.1 hc
          exact hs.elim (fun hs => by cases hl.symm.trans hs) (fun hs => by cases hr.symm.trans hs)
      | asksRemote hle' => cases hle.symm.trans hle'

theorem localDeleted_dominated (hle : le.deleted = true) (hre : re.deleted = false) :
    ∃ a, resolveBoth P localState remoteState (some dag) fileId le re = some a ∧
      (a.affectsLocalVault = true ↔ Reacts localState remoteState le re) := by
  have hs := not_settledByPeer h
  by_cases hr : Renamed re le
  · have hu := (unchanged_remote_iff h).not.2 (not_not.2 hr)
    rw [Bool.not_eq_true] at hu
    cases hc : (remoteState.contentStore.get re.contentHash).or
        (localState.contentStore.get re.contentHash) with
    | some content =>
        exact ⟨_, both_restore hle hre hs hu hc,
          iff_of_true rfl (.asksRemote hle hre hr (stored_or hc))⟩
    | none =>
        refine ⟨.noOp fileId, ?_, iff_of_false (by rintro ⟨⟩) fun hreact => ?_⟩
        · simp only [resolveBoth, hle, hre, resolveLocalDeleted, hs, hu, hc, Bool.false_eq_true,
            if_false]
        cases hreact with
        | deletes hle' => cases hle.symm.trans hle'
        | asksLocal hle' => cases hle.symm.trans hle'
        | asksRemote _ _ _ hs' =>
            obtain ⟨hn, hn'⟩ := Option.or_eq_none_iff.1 hc
            exact hs'.elim (fun hs' => by cases hn'.symm.trans hs')
              (fun hs' => by cases hn.symm.trans hs')
  · refine ⟨.deleteRemote fileId re.path, ?_, iff_of_false (by rintro ⟨⟩) fun hreact => ?_⟩
    · simp only [resolveBoth, hle, hre, resolveLocalDeleted, hs, (unchanged_remote_iff h).2 hr,
        if_true]
    · cases hreact with
      | deletes hle' => cases hle.symm.trans hle'
      | asksLocal hle' => cases hle.symm.trans hle'
      | asksRemote _ _ hr' => exact hr hr'

theorem both_dominated (hpath : le.path = re.path) (h2 : ¬ le.TwoHeaded) :
    ∃ a, resolveBoth P localState remoteState (some dag) fileId le re = some a ∧
      (a.affectsLocalVault = true ↔ Reacts localState remoteState le re) := by
  cases hle : le.deleted with
  | false =>
      cases hre : re.deleted with
      | false =>
          refine ⟨_, both_live_dominated h hpath h2 hle hre, iff_of_false (by rintro ⟨⟩) fun hreact => ?_⟩
          cases hreact with
          | deletes _ hre' => cases hre.symm.trans hre'
          | asksLocal _ hre' => cases hre.symm.trans hre'
          | asksRemote hle' => cases hle.symm.trans hle'
      | true => exact remoteDeleted_dominated h hle hre
  | true =>
      cases hre : re.deleted with
      | false => exact localDeleted_dominated h hle hre
      | true =>
          refine ⟨.noOp fileId, by simp only [resolveBoth, hle, hre],
            iff_of_false (by rintro ⟨⟩) fun hreact => ?_⟩
          cases hreact with
          | deletes hle' => cases hle.symm.trans hle'
          | asksLocal hle' => cases hle.symm.trans hle'
          | asksRemote _ hre' => cases hre.symm.trans hre'

end Dominated

/-- A remote version that the local one was made from leaves the vault alone, unless one
of the two deletion branches, which do not ask for that, acts on it. -/
theorem mergeVaultStates_ignores_seen_iff {P : Platform} {localState remoteState : VaultState}
    {dag : VersionDag} {fileId localHead remoteHead : String} {le re : FileEntry}
    {r : StateMergeResult} (hm : mergeVaultStates P localState remoteState (some dag) = some r)
    (hl : localState.fileEntries.get fileId = some le)
    (hr : remoteState.fileEntries.get fileId = some re) (hpath : le.path = re.path)
    (h2 : ¬ le.TwoHeaded) (h : Seen dag localHead remoteHead le re) :
    (∀ a ∈ r.actions, a.fileId = fileId → a.affectsLocalVault = false) ↔
      ¬ Reacts localState remoteState le re := by
  have hboth : ∃ a, resolveBoth P localState remoteState (some dag) fileId le re = some a ∧
      (a.affectsLocalVault = true ↔ Reacts localState remoteState le re) :=
    both_dominated h hpath h2
  obtain ⟨a, ha, hiff⟩ := hboth
  rw [← actionFor_both hl hr] at ha
  have hid : fileId ∈ allIds localState remoteState := mem_allIds.2 (Or.inl ⟨le, hl⟩)
  rw [← hiff, Bool.not_eq_true]
  constructor
  · intro hall
    obtain ⟨hmem, hfileId⟩ := (mem_actions_iff hm hid).2 ha
    exact hall a hmem hfileId
  · intro hfalse b hmem hfileId
    have hb := (mem_actions_iff hm hid).1 ⟨hmem, hfileId⟩
    cases ha.symm.trans hb
    exact hfalse

section Example

/-- A version and the one the user made from it, of the same bytes. -/
def restoredDag : VersionDag :=
  addVersion (addVersion .empty "r" [] "H" "f") "rl" ["r"] "H" "f"

def restored : FileEntry := { fileAt "f" "n.md" "H" 2 with headVersionId := some "rl" }

def restoredHere : VaultState := stateOf [restored] [("H", [72])]

def seenLive : FileEntry := { fileAt "f" "n.md" "H" 1 with headVersionId := some "r" }

def seenDeleted : FileEntry := { seenLive with deleted := true }

theorem seen_restoredDag {re : FileEntry} (h : RecordedAt restoredDag "r" re) :
    Seen restoredDag "rl" "r" restored re where
  acyclic := acyclic_of_rank String.length (by decide)
  atLocal := ⟨by decide, by decide⟩
  atRemote := h
  proper := TransGen.single (show "r" ∈ parentsOf restoredDag "rl" by decide)

theorem mergeVaultStates_ignores_seen_example :
    ∃ r, mergeVaultStates asciiPlatform restoredHere (stateOf [seenLive] []) (some restoredDag) =
      some r ∧ ∀ a ∈ r.actions, a.fileId = "f" → a.affectsLocalVault = false := by
  have hrun : mergeVaultStates asciiPlatform restoredHere (stateOf [seenLive] [])
      (some restoredDag) = some ⟨[.noOp "f"], ⟨0, 0, "a"⟩⟩ := by decide
  have hseen : Seen restoredDag "rl" "r" restored seenLive :=
    seen_restoredDag ⟨by decide, by decide⟩
  have hl : restoredHere.fileEntries.get "f" = some restored := rfl
  have hr : (stateOf [seenLive] []).fileEntries.get "f" = some seenLive := rfl
  refine ⟨_, hrun,
    (mergeVaultStates_ignores_seen_iff hrun hl hr rfl (by decide) hseen).2 (fun h => ?_)⟩
  cases h with
  | deletes _ hre => cases hre
  | asksLocal _ hre => cases hre
  | asksRemote hle => cases hle

/-- Each entry is the version its head names. -/
def AllAtHead (dag : VersionDag) (state : VaultState) : Prop :=
  ∀ id e head, state.fileEntries.get id = some e → e.head = some head →
    contentHashOf dag head = some e.contentHash

theorem allAtHead_of_singleton {dag : VersionDag} {e : FileEntry}
    {contents : List (String × Bytes)}
    (h : ∀ head, e.head = some head → contentHashOf dag head = some e.contentHash) :
    AllAtHead dag (stateOf [e] contents) := by
  intro id e' head he hh
  rw [get_stateOf_singleton] at he
  split at he
  · cases he
    exact h head hh
  · cases he

/-- The deletion that the user has undone is carried out again. -/
theorem mergeVaultStates_deletes_restored :
    ¬ ∀ (P : Platform) (localState remoteState : VaultState) (dag : VersionDag)
      (fileId localHead remoteHead : String) (le re : FileEntry) (r : StateMergeResult),
      mergeVaultStates P localState remoteState (some dag) = some r →
      AllAtHead dag localState → AllAtHead dag remoteState →
      localState.fileEntries.get fileId = some le →
      remoteState.fileEntries.get fileId = some re → le.path = re.path → ¬ le.TwoHeaded →
      Seen dag localHead remoteHead le re →
      ∀ a ∈ r.actions, a.fileId = fileId → a.affectsLocalVault = false := by
  intro h
  have hrun : mergeVaultStates asciiPlatform restoredHere (stateOf [seenDeleted] [])
      (some restoredDag) = some ⟨[.deleteLocal "f" "n.md"], ⟨0, 0, "a"⟩⟩ := by decide
  have hseen : Seen restoredDag "rl" "r" restored seenDeleted :=
    seen_restoredDag ⟨by decide, by decide⟩
  have hlocal : AllAtHead restoredDag restoredHere := by
    refine allAtHead_of_singleton (fun head hh => ?_)
    cases hseen.atLocal.1.symm.trans hh
    exact hseen.atLocal.2
  have hremote : AllAtHead restoredDag (stateOf [seenDeleted] []) := by
    refine allAtHead_of_singleton (fun head hh => ?_)
    cases hseen.atRemote.1.symm.trans hh
    exact hseen.atRemote.2
  have := h asciiPlatform restoredHere (stateOf [seenDeleted] []) restoredDag "f" "rl" "r" _
    seenDeleted _ hrun hlocal hremote rfl rfl rfl (by decide) hseen
    (.deleteLocal "f" "n.md") List.mem_cons_self rfl
  cases this

end Example

end OpsBlobs.CausalDominance
