import OpsBlobs.MergeCollision
import OpsBlobs.SnapshotDisk

namespace OpsBlobs.VersionBytes

open Types FileRegistry VersionDag StateMerge Resolution MergeOutcome MergeCollision SnapshotDisk

variable (localState remoteState : VaultState) (dag : Option VersionDag)

/-- A write that names a version names the one whose bytes it carries: both come from one
entry of the file, together with its path and clock. -/
def OwnBytes : MergeAction → Prop
  | .writeLocal fileId path content hlc (some head) =>
      ∃ e, (localState.fileEntries.get fileId = some e ∨
          remoteState.fileEntries.get fileId = some e) ∧
        e.headVersionId = some head ∧ e.path = path ∧ e.hlcTimestamp = hlc ∧
        Stored localState remoteState e.contentHash content
  | _ => True

/-- A new remote version of the local file at its path, whose bytes were not pulled while
those of the local version are there. -/
structure FallsBack (le re : FileEntry) : Prop where
  new : localState.fileEntries.get re.id = none
  known : remoteState.fileEntries.get re.id = some re
  live : re.deleted = false
  held : HeldBy localState re.path le
  descends : Descends dag le re
  differ : le.contentHash ≠ re.contentHash
  missing : remoteState.contentStore.get re.contentHash = none
  present : ∃ content, localState.contentStore.get le.contentHash = some content

variable {D : Device} {localState remoteState dag} {le re : FileEntry} {fileId : String}
  {a : MergeAction}

theorem ownBytes_of_entry {e : FileEntry} {content : Bytes}
    (he : localState.fileEntries.get fileId = some e ∨
      remoteState.fileEntries.get fileId = some e)
    (hc : Stored localState remoteState e.contentHash content) :
    OwnBytes localState remoteState
      (.writeLocal fileId e.path content e.hlcTimestamp e.headVersionId) := by
  cases hv : e.headVersionId with
  | none => trivial
  | some head => exact ⟨e, he, hv, rfl, rfl, hc⟩

theorem ownBytes_both (hl : localState.fileEntries.get fileId = some le)
    (hr : remoteState.fileEntries.get fileId = some re)
    (h : Resolved D.toPlatform localState remoteState dag fileId le re a) :
    OwnBytes localState remoteState a := by
  cases h with
  | readopt _ _ _ hc => exact ownBytes_of_entry (Or.inr hr) hc
  | advance _ _ hsame _ hc => exact ownBytes_of_entry (Or.inr hr) (hsame ▸ hc)
  | adopt _ _ _ hc _ => exact ownBytes_of_entry (Or.inr hr) hc
  | keep _ hc => exact ownBytes_of_entry (Or.inl hl) (Or.inl hc)
  | noOp | deleteRemote | restore | deleteLocal | survive | move | unite | merged
  | mergedHeadless | conflict | binary => trivial

theorem ownBytes_outcome (h : Outcome D.toPlatform localState remoteState dag fileId a)
    (hnot : ∀ le re, ¬ FallsBack localState remoteState dag le re) :
    OwnBytes localState remoteState a := by
  cases h with
  | noOp => trivial
  | newLocal => trivial
  | both hl hr h => exact ownBytes_both hl hr h
  | newRemote _ hr _ _ hc => exact ownBytes_of_entry (Or.inr hr) (Or.inr hc)
  | @remoteCollides le re _ hl hr hlive hholder hle h =>
      have hid := FileEntries.get_id hr
      cases h with
      | noOp => trivial
      | conflict => trivial
      | @adopt content _ hc hg =>
          refine ownBytes_of_entry (Or.inr (hid ▸ hr)) ?_
          rcases hc with hc | ⟨hmissing, hc⟩
          · exact Or.inr hc
          by_cases hsame : le.contentHash = re.contentHash
          · exact Or.inl (hsame ▸ hc)
          rcases hg with ⟨hsame', -⟩ | hdesc
          · exact absurd hsame' hsame
          · exact absurd ⟨hid ▸ hl, hid ▸ hr, hlive, ⟨hholder, hle⟩, hdesc, hsame, hmissing,
              content, hc⟩ (hnot le re)
  | localCollides _ _ _ _ _ h =>
      cases h with
      | noOp => trivial
      | adopt hself => cases hself
      | conflict => trivial

theorem not_ownBytes_fallsBack {content : Bytes} (hlocal : ContentAddressed D localState)
    (h : FallsBack localState remoteState dag le re)
    (hc : localState.contentStore.get le.contentHash = some content) :
    ¬ OwnBytes localState remoteState
      (.writeLocal re.id re.path content re.hlcTimestamp re.headVersionId) := by
  intro hown
  have hhead : ∃ head, re.headVersionId = some head := by
    obtain ⟨_, _, _, hk, -⟩ := h.descends
    refine Option.ne_none_iff_exists'.1 (fun hnone => ?_)
    simp [knownHeads, FileEntry.head, hnone] at hk
  obtain ⟨head, hhead⟩ := hhead
  rw [hhead] at hown
  obtain ⟨e, he, -, -, -, hstored⟩ := hown
  have hre : e = re := by
    rcases he with he | he
    · cases h.new.symm.trans he
    · exact (Option.some.inj (h.known.symm.trans he)).symm
  subst hre
  rcases hstored with hs | hs
  · exact h.differ ((hlocal _ _ hc).symm.trans (hlocal _ _ hs))
  · cases h.missing.symm.trans hs

theorem actionFor_fallsBack {content : Bytes} (h : FallsBack localState remoteState dag le re)
    (hc : localState.contentStore.get le.contentHash = some content) :
    actionFor D.toPlatform localState remoteState dag re.id =
      some (.writeLocal re.id re.path content re.hlcTimestamp re.headVersionId) := by
  rw [actionFor_remoteOnly h.new h.known,
    resolveRemoteOnly_held h.live h.new h.held.1 h.held.2, createCollision_descends h.descends,
    adoptRemoteId, if_pos rfl, h.missing, Option.none_or, hc]

/-- Every write carries the bytes of the version it names exactly when no new remote version
falls back to the bytes of the local file it replaces. -/
theorem mergeVaultStates_writes_own_bytes_iff {D : Device} {localState remoteState : VaultState}
    {dag : Option VersionDag} {r : StateMergeResult}
    (hm : mergeVaultStates D.toPlatform localState remoteState dag = some r)
    (hlocal : ContentAddressed D localState) :
    (∀ a ∈ r.actions, OwnBytes localState remoteState a) ↔
      ¬ ∃ le re, FallsBack localState remoteState dag le re := by
  constructor
  · rintro hall ⟨le, re, h⟩
    obtain ⟨content, hc⟩ := h.present
    have hid : re.id ∈ allIds localState remoteState := mem_allIds.2 (Or.inr ⟨re, h.known⟩)
    refine not_ownBytes_fallsBack hlocal h hc (hall _ ?_)
    exact (mem_actions hm).2 ⟨re.id, hid, actionFor_fallsBack h hc⟩
  · intro hnot a ha
    obtain ⟨id, -, hid⟩ := (mem_actions hm).1 ha
    exact ownBytes_outcome (outcome_actionFor hid) (fun le re h => hnot ⟨le, re, h⟩)

section Example

/-- A version, and the one a peer made from it under another id. -/
def renamedDag : VersionDag :=
  addVersion (addVersion .empty "u" [] "U" "g") "uv" ["u"] "V" "f"

def held : FileEntry := { fileAt "g" "n.md" "U" 1 with headVersionId := some "u" }

def newer : FileEntry := { fileAt "f" "n.md" "V" 2 with headVersionId := some "uv" }

/-- The local file at the path, and a peer's later version of it with the given bytes. -/
def heldHere : VaultState := stateOf [held] [("U", [85])]

def newerThere (contents : List (String × Bytes)) : VaultState := stateOf [newer] contents

theorem injective_sha256Hex : Function.Injective asciiPlatform.sha256Hex := by
  have hchar : Function.Injective (fun b : UInt8 => Char.ofNat b.toNat) := by
    intro b c h
    have hb := congrArg Char.toNat h
    have hvalid : ∀ d : UInt8, (Char.ofNat d.toNat).toNat = d.toNat := by
      intro d
      have := d.toNat_lt
      rw [Char.ofNat, dif_pos (Or.inl (by omega))]
      rfl
    rw [hvalid, hvalid] at hb
    exact UInt8.toNat_inj.1 hb
  intro xs ys h
  exact List.map_injective_iff.2 hchar (String.ofList_injective h)

theorem mergeVaultStates_writes_own_bytes_example :
    ∃ r, mergeVaultStates asciiPlatform heldHere (newerThere [("V", [86])]) (some renamedDag) =
      some r ∧ ∀ a ∈ r.actions, OwnBytes heldHere (newerThere [("V", [86])]) a := by
  have hrun : mergeVaultStates asciiDevice.toPlatform heldHere (newerThere [("V", [86])])
      (some renamedDag) = some ⟨[.noOp "g", adoptAction "f" newer [86]], ⟨0, 0, "a"⟩⟩ := by decide
  refine ⟨_, hrun, (mergeVaultStates_writes_own_bytes_iff hrun
    (contentAddressed_iff.2 (by decide))).2 ?_⟩
  rintro ⟨le, re, h⟩
  have hre := h.known
  rw [newerThere, get_stateOf_singleton] at hre
  split at hre
  · cases hre
    exact absurd h.missing (by decide)
  · cases hre

/-- The peer's version is recorded over the bytes of the one it replaces. -/
theorem mergeVaultStates_writes_other_bytes :
    ¬ ∀ (D : Device) (localState remoteState : VaultState) (dag : Option VersionDag)
      (r : StateMergeResult), Function.Injective D.sha256Hex →
      ContentAddressed D localState → ContentAddressed D remoteState →
      mergeVaultStates D.toPlatform localState remoteState dag = some r →
      ∀ a ∈ r.actions, OwnBytes localState remoteState a := by
  intro h
  have hrun : mergeVaultStates asciiDevice.toPlatform heldHere (newerThere []) (some renamedDag) =
      some ⟨[.noOp "g", adoptAction "f" newer [85]], ⟨0, 0, "a"⟩⟩ := by decide
  have hown := h asciiDevice heldHere (newerThere []) (some renamedDag) _ injective_sha256Hex
    (contentAddressed_iff.2 (by decide)) (contentAddressed_iff.2 (by decide)) hrun
    (adoptAction "f" newer [85]) (by simp)
  obtain ⟨e, he, -, -, -, hstored⟩ := hown
  rcases he with he | he
  · cases he.symm.trans (show heldHere.fileEntries.get "f" = none from rfl)
  · cases he.symm.trans (show (newerThere []).fileEntries.get "f" = some newer from rfl)
    rcases hstored with hs | hs
    · exact absurd hs (by decide)
    · exact absurd hs (by decide)

end Example

end OpsBlobs.VersionBytes
