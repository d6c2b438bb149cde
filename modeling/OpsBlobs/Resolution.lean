import OpsBlobs.StateMerge

namespace OpsBlobs.Resolution

open Types Diff3 Hlc VersionDag StateMerge

variable (P : Platform) (localState remoteState : VaultState) (dag : Option VersionDag)

/-- The bytes either store has under a hash. -/
def Stored (hash : String) (content : Bytes) : Prop :=
  localState.contentStore.get hash = some content ∨ remoteState.contentStore.get hash = some content

/-- The local entry still is the version that its head names. -/
def AtHead (le re : FileEntry) : Prop :=
  ∃ dag' localHead remoteHead, knownHeads dag le re = some (dag', localHead, remoteHead) ∧
    atHead dag' localHead le = true

/-- An entry that is the version its head names. -/
def RecordedAt (dag : VersionDag) (head : String) (e : FileEntry) : Prop :=
  e.head = some head ∧ contentHashOf dag head = some e.contentHash

/-- The same content at a head that the remote one strictly descends from. -/
def Advances (le re : FileEntry) : Prop :=
  ∃ dag' localHead remoteHead, knownHeads dag le re = some (dag', localHead, remoteHead) ∧
    isAncestor dag' remoteHead localHead = false ∧ atHead dag' localHead le = true ∧
    isAncestor dag' localHead remoteHead = true

/-- The same content at two heads of which neither descends from the other. -/
def Unites (le re : FileEntry) : Prop :=
  ∃ dag' localHead remoteHead, knownHeads dag le re = some (dag', localHead, remoteHead) ∧
    isAncestor dag' remoteHead localHead = false ∧ atHead dag' localHead le = true ∧
    isAncestor dag' localHead remoteHead = false

/-- The local entry is at its head and the remote head descends from it. -/
def FastForwards (le re : FileEntry) : Prop :=
  ∃ dag' localHead remoteHead, knownHeads dag le re = some (dag', localHead, remoteHead) ∧
    atHead dag' localHead le = true ∧ isAncestor dag' localHead remoteHead = true

/-- The remote head is one that the local head descends from. -/
def Ahead (le re : FileEntry) : Prop :=
  ∃ dag' localHead remoteHead, knownHeads dag le re = some (dag', localHead, remoteHead) ∧
    isAncestor dag' remoteHead localHead = true

/-- Neither head settles the two versions, so their contents are looked at. -/
def Divergent (le re : FileEntry) : Prop :=
  ¬ le.TwoHeaded ∧ ¬ FastForwards dag le re ∧ ¬ Ahead dag le re

/-- The local bytes are missing and the remote version is the later one. -/
def LastWriter (le re : FileEntry) : Prop :=
  Divergent dag le re ∧ localState.contentStore.get le.contentHash = none ∧
    (∃ content, remoteState.contentStore.get re.contentHash = some content) ∧
    ¬ 0 ≤ hlcCompare le.hlcTimestamp re.hlcTimestamp

/-- The remote bytes are missing and the local version is the later one. -/
def KeepsLocal (le re : FileEntry) : Prop :=
  Divergent dag le re ∧ (∃ content, localState.contentStore.get le.contentHash = some content) ∧
    remoteState.contentStore.get re.contentHash = none ∧
    0 ≤ hlcCompare le.hlcTimestamp re.hlcTimestamp

/-- Of two binary versions only the remote one differs from their known base. -/
def OnlyRemoteChanged (le re : FileEntry) : Prop :=
  Divergent dag le re ∧ (resolveThreeWayBase le re dag).ambiguous = false ∧
    (resolveThreeWayBase le re dag).baseHash = some le.contentHash ∧
    ∃ localContent remoteContent,
      localState.contentStore.get le.contentHash = some localContent ∧
      remoteState.contentStore.get re.contentHash = some remoteContent ∧
      (isBinary localContent || isBinary remoteContent) = true

/-- A peer's merge node over all the heads of an open conflict. -/
def ClosedByPeer (le re : FileEntry) : Prop :=
  le.TwoHeaded ∧ ∃ dag' remoteHead, dag = some dag' ∧ re.head = some remoteHead ∧
    isMergeNode dag' remoteHead = true ∧
    ∀ h ∈ le.conflictParents.getD [], isAncestor dag' h remoteHead = true

/-- When a live local version gives way to a live remote one of different content. -/
inductive Adopts (le re : FileEntry) : Prop
  | closedByPeer {content : Bytes} (h : ClosedByPeer dag le re)
      (hc : Stored localState remoteState re.contentHash content)
  | fastForward {content : Bytes} (h2 : ¬ le.TwoHeaded) (h : FastForwards dag le re)
      (hc : Stored localState remoteState re.contentHash content)
  | onlyRemote (h : OnlyRemoteChanged localState remoteState dag le re)
  | lastWriter (h : LastWriter localState remoteState dag le re)

/-- The survivor is no longer at the path the two sides last agreed on. -/
def Renamed (survivor other : FileEntry) : Prop :=
  ∃ syncedPath, survivor.lastSyncedPath.or other.lastSyncedPath = some syncedPath ∧
    survivor.path ≠ syncedPath

/-- The text the two sides are merged over; a known base whose bytes are missing has none. -/
def AncestorText (le re : FileEntry) (ancestorText : Text) : Prop :=
  let base := resolveThreeWayBase le re dag
  let ancestorContent := base.baseHash.bind (fun hash =>
    (localState.contentStore.get hash).or (remoteState.contentStore.get hash))
  base.ambiguous = false ∧ ¬ (base.hasKnownAncestor = true ∧ ancestorContent = none) ∧
    ancestorText = (ancestorContent.map P.decode).getD []

/-- The two versions merge without a conflict, into `content`. -/
def MergesCleanly (le re : FileEntry) (content : Bytes) : Prop :=
  Divergent dag le re ∧ ∃ localContent remoteContent ancestorText m,
    localState.contentStore.get le.contentHash = some localContent ∧
    remoteState.contentStore.get re.contentHash = some remoteContent ∧
    (isBinary localContent || isBinary remoteContent) = false ∧
    AncestorText P localState remoteState dag le re ancestorText ∧
    threeWayMerge ancestorText (P.decode localContent) (P.decode remoteContent) = some m ∧
    m.hasConflicts = false ∧ content = P.encode (joinLines m.merged)

/-- Two text versions that do not merge without a conflict. -/
def TextClash (le re : FileEntry) : Prop :=
  Divergent dag le re ∧ (∃ localContent remoteContent,
    localState.contentStore.get le.contentHash = some localContent ∧
    remoteState.contentStore.get re.contentHash = some remoteContent ∧
    (isBinary localContent || isBinary remoteContent) = false) ∧
  ∀ content, ¬ MergesCleanly P localState remoteState dag le re content

/-- Two binary versions that both, or neither, count as the changed one. -/
def BinaryClash (le re : FileEntry) (localContent remoteContent : Bytes) : Prop :=
  Divergent dag le re ∧ localState.contentStore.get le.contentHash = some localContent ∧
    remoteState.contentStore.get re.contentHash = some remoteContent ∧
    (isBinary localContent || isBinary remoteContent) = true ∧
    ∀ baseHash, (resolveThreeWayBase le re dag).ambiguous = false →
      (resolveThreeWayBase le re dag).baseHash = some baseHash →
      (le.contentHash = baseHash ↔ re.contentHash = baseHash)

/-- The entry whose path and clock a merge of the two takes. -/
def laterOf (le re : FileEntry) : FileEntry :=
  if 0 ≤ hlcCompare le.hlcTimestamp re.hlcTimestamp then le else re

def cleanMergeAction (fileId : String) (le re : FileEntry) (content : Bytes) : MergeAction :=
  match headPair le re with
  | some parents => .writeMerge fileId (laterOf le re).path content parents
  | none =>
      .writeLocal fileId (laterOf le re).path content (hlcMax le.hlcTimestamp re.hlcTimestamp) none

def binaryConflictAction (fileId : String) (le re : FileEntry)
    (localContent remoteContent : Bytes) : MergeAction :=
  .binaryConflict fileId le.path re.path localContent remoteContent le.hlcTimestamp
    re.hlcTimestamp (headPair le re)

def adoptAction (fileId : String) (re : FileEntry) (content : Bytes) : MergeAction :=
  .writeLocal fileId re.path content re.hlcTimestamp re.headVersionId

/-- What the merge can answer for a file both sides know. -/
inductive Resolved (fileId : String) (le re : FileEntry) : MergeAction → Prop
  | noOp : Resolved fileId le re (.noOp fileId)
  | readopt {content : Bytes} (hle : le.deleted = true) (hre : re.deleted = false)
      (hs : settledByPeer dag le re = true)
      (hc : Stored localState remoteState re.contentHash content) :
      Resolved fileId le re (adoptAction fileId re content)
  | deleteRemote (hle : le.deleted = true) (hre : re.deleted = false) :
      Resolved fileId le re (.deleteRemote fileId re.path)
  | restore {content : Bytes} (hle : le.deleted = true) (hre : re.deleted = false)
      (hs : settledByPeer dag le re = false) (hu : isUnchangedSinceBase re le dag = false)
      (hc : (remoteState.contentStore.get re.contentHash).or
        (localState.contentStore.get re.contentHash) = some content) :
      Resolved fileId le re
        (.deleteConflict fileId re.path .localDeleted content (deleteParents le re))
  | deleteLocal (hle : le.deleted = false) (hre : re.deleted = true)
      (h : settledByPeer dag le re = true ∨ isUnchangedSinceBase le re dag = true) :
      Resolved fileId le re (.deleteLocal fileId le.path)
  | survive {content : Bytes} (hle : le.deleted = false) (hre : re.deleted = true)
      (hc : Stored localState remoteState le.contentHash content) :
      Resolved fileId le re
        (.deleteConflict fileId le.path .remoteDeleted content (deleteParents le re))
  | move (hle : le.deleted = false) (hre : re.deleted = false)
      (hsame : le.contentHash = re.contentHash) (hne : le.path ≠ re.path)
      (hw : ¬ 0 ≤ hlcCompare le.hlcTimestamp re.hlcTimestamp) :
      Resolved fileId le re (.moveLocal fileId le.path re.path)
  | advance {content : Bytes} (hle : le.deleted = false) (hre : re.deleted = false)
      (hsame : le.contentHash = re.contentHash) (hpath : le.path = re.path)
      (hc : Stored localState remoteState le.contentHash content) (hg : Advances dag le re) :
      Resolved fileId le re (adoptAction fileId re content)
  | unite {content : Bytes} {parents : List String} (hle : le.deleted = false)
      (hre : re.deleted = false) (hsame : le.contentHash = re.contentHash)
      (hg : AtHead dag le re) (hc : Stored localState remoteState le.contentHash content)
      (hpath : le.path = re.path) (hu : Unites dag le re) :
      Resolved fileId le re (.writeMerge fileId le.path content parents)
  | adopt {content : Bytes} (hle : le.deleted = false) (hre : re.deleted = false)
      (hne : le.contentHash ≠ re.contentHash)
      (hc : Stored localState remoteState re.contentHash content)
      (hg : Adopts localState remoteState dag le re) :
      Resolved fileId le re (adoptAction fileId re content)
  | keep {content : Bytes} (hle : le.deleted = false)
      (hc : localState.contentStore.get le.contentHash = some content)
      (hre : re.deleted = false) (hne : le.contentHash ≠ re.contentHash)
      (hk : KeepsLocal localState remoteState dag le re) :
      Resolved fileId le re (.writeLocal fileId le.path content le.hlcTimestamp le.headVersionId)
  | merged {content : Bytes} {parents : List String} (hle : le.deleted = false)
      (hre : re.deleted = false) (hne : le.contentHash ≠ re.contentHash)
      (hm : MergesCleanly P localState remoteState dag le re content)
      (hp : headPair le re = some parents) :
      Resolved fileId le re (.writeMerge fileId (laterOf le re).path content parents)
  | mergedHeadless {content : Bytes} (hle : le.deleted = false) (hre : re.deleted = false)
      (hne : le.contentHash ≠ re.contentHash)
      (hm : MergesCleanly P localState remoteState dag le re content)
      (hp : headPair le re = none) :
      Resolved fileId le re (.writeLocal fileId (laterOf le re).path content
        (hlcMax le.hlcTimestamp re.hlcTimestamp) none)
  | conflict {localContent remoteContent : Bytes} {m : ThreeWayMergeResult Line}
      (hle : le.deleted = false) (hre : re.deleted = false)
      (hl : localState.contentStore.get le.contentHash = some localContent)
      (hr : remoteState.contentStore.get re.contentHash = some remoteContent)
      (hc : m.hasConflicts = true) (hne : le.contentHash ≠ re.contentHash)
      (ht : TextClash P localState remoteState dag le re) :
      Resolved fileId le re
        (.conflict fileId le.path re.path m (P.decode localContent) (P.decode remoteContent)
          (headPair le re))
  | binary {localContent remoteContent : Bytes} (hle : le.deleted = false)
      (hre : re.deleted = false) (hne : le.contentHash ≠ re.contentHash)
      (hb : BinaryClash localState remoteState dag le re localContent remoteContent) :
      Resolved fileId le re (binaryConflictAction fileId le re localContent remoteContent)

variable {P localState remoteState dag} {fileId : String} {le re : FileEntry} {a : MergeAction}

theorem resolved_cleanMerge {content : Bytes} (hle : le.deleted = false)
    (hre : re.deleted = false) (hne : le.contentHash ≠ re.contentHash)
    (hm : MergesCleanly P localState remoteState dag le re content) :
    Resolved P localState remoteState dag fileId le re (cleanMergeAction fileId le re content) := by
  unfold cleanMergeAction
  split
  · rename_i parents hp
    exact .merged hle hre hne hm hp
  · rename_i hp
    exact .mergedHeadless hle hre hne hm hp

theorem stored_or {hash : String} {content : Bytes} :
    (remoteState.contentStore.get hash).or (localState.contentStore.get hash) = some content →
      Stored localState remoteState hash content := by
  intro h
  rcases Option.or_eq_some_iff.1 h with h | ⟨-, h⟩
  · exact Or.inr h
  · exact Or.inl h

theorem stored_or' {hash : String} {content : Bytes} :
    (localState.contentStore.get hash).or (remoteState.contentStore.get hash) = some content →
      Stored localState remoteState hash content := by
  intro h
  rcases Option.or_eq_some_iff.1 h with h | ⟨-, h⟩
  · exact Or.inl h
  · exact Or.inr h

/-- A hash that some store has is found, whichever is looked up first. -/
theorem or_of_stored {hash : String} {content : Bytes}
    (h : Stored localState remoteState hash content) :
    ∃ content', (remoteState.contentStore.get hash).or (localState.contentStore.get hash) =
      some content' := by
  cases hr : remoteState.contentStore.get hash with
  | some content' => exact ⟨content', rfl⟩
  | none => exact ⟨content, h.resolve_right (by simp [hr])⟩

theorem or_of_stored' {hash : String} {content : Bytes}
    (h : Stored localState remoteState hash content) :
    ∃ content', (localState.contentStore.get hash).or (remoteState.contentStore.get hash) =
      some content' := by
  cases hl : localState.contentStore.get hash with
  | some content' => exact ⟨content', rfl⟩
  | none => exact ⟨content, h.resolve_left (by simp [hl])⟩

section Heads

variable {dag' : VersionDag} {localHead remoteHead : String}

theorem knownHeads_of_heads (hle : le.head = some localHead) (hre : re.head = some remoteHead) :
    knownHeads (some dag') le re = some (dag', localHead, remoteHead) := by
  simp only [knownHeads, hle, hre]

theorem fastForwards_iff (hk : knownHeads dag le re = some (dag', localHead, remoteHead)) :
    FastForwards dag le re ↔
      (atHead dag' localHead le && isAncestor dag' localHead remoteHead) = true := by
  rw [Bool.and_eq_true]
  refine ⟨?_, fun h => ⟨dag', localHead, remoteHead, hk, h⟩⟩
  rintro ⟨dag'', localHead', remoteHead', hk', h⟩
  cases hk.symm.trans hk'
  exact h

theorem ahead_iff (hk : knownHeads dag le re = some (dag', localHead, remoteHead)) :
    Ahead dag le re ↔ isAncestor dag' remoteHead localHead = true := by
  refine ⟨?_, fun h => ⟨dag', localHead, remoteHead, hk, h⟩⟩
  rintro ⟨dag'', localHead', remoteHead', hk', h⟩
  cases hk.symm.trans hk'
  exact h

end Heads

theorem isUnchangedSinceBase_iff {survivor other : FileEntry} {dag : Option VersionDag} :
    isUnchangedSinceBase survivor other dag = true ↔
      ¬ Renamed survivor other ∧ ∃ dag' survivorHead otherHead base,
        knownHeads dag survivor other = some (dag', survivorHead, otherHead) ∧
        mergeBase dag' survivorHead otherHead = .base base ∧
        contentHashOf dag' base = some survivor.contentHash := by
  have hrenamed : Renamed survivor other ↔ ∃ syncedPath,
      survivor.lastSyncedPath.or other.lastSyncedPath = some syncedPath ∧
        survivor.path ≠ syncedPath := Iff.rfl
  simp only [isUnchangedSinceBase]
  cases hs : survivor.lastSyncedPath.or other.lastSyncedPath with
  | none =>
      simp only [hrenamed, hs, Bool.false_eq_true, if_false]
      cases hk : knownHeads dag survivor other with
      | none => simp
      | some heads =>
          obtain ⟨dag', survivorHead, otherHead⟩ := heads
          cases hb : mergeBase dag' survivorHead otherHead <;> simp [hb]
  | some syncedPath =>
      by_cases hp : survivor.path = syncedPath
      · simp only [hrenamed, hs, hp]
        cases hk : knownHeads dag survivor other with
        | none => simp
        | some heads =>
            obtain ⟨dag', survivorHead, otherHead⟩ := heads
            cases hb : mergeBase dag' survivorHead otherHead <;> simp [hb]
      · simp [hrenamed, hs, hp]

theorem contentConflict_twoHeaded (h2 : le.TwoHeaded) :
    resolveContentConflict P localState remoteState dag fileId le re =
      some (resolveOpenConflict localState remoteState dag fileId le re) := by
  rw [resolveContentConflict, if_pos h2]

theorem contentConflict_fastForward (h2 : ¬ le.TwoHeaded) (h : FastForwards dag le re) :
    resolveContentConflict P localState remoteState dag fileId le re =
      match (remoteState.contentStore.get re.contentHash).or
          (localState.contentStore.get re.contentHash) with
      | some content => some (adoptAction fileId re content)
      | none => some (.noOp fileId) := by
  have h' := h
  obtain ⟨dag', localHead, remoteHead, hk, -⟩ := h'
  rw [resolveContentConflict, if_neg h2, hk]
  simp only [(fastForwards_iff hk).1 h, if_true]
  rfl

theorem contentConflict_ahead (h2 : ¬ le.TwoHeaded) (hf : ¬ FastForwards dag le re)
    (h : Ahead dag le re) :
    resolveContentConflict P localState remoteState dag fileId le re = some (.noOp fileId) := by
  have h' := h
  obtain ⟨dag', localHead, remoteHead, hk, -⟩ := h'
  rw [fastForwards_iff hk] at hf
  rw [resolveContentConflict, if_neg h2, hk]
  simp only [if_neg hf, (ahead_iff hk).1 h, if_true]

theorem contentConflict_divergent (h : Divergent dag le re) :
    resolveContentConflict P localState remoteState dag fileId le re =
      resolveDivergent P localState remoteState dag fileId le re := by
  obtain ⟨h2, hf, ha⟩ := h
  rw [resolveContentConflict, if_neg h2]
  cases hk : knownHeads dag le re with
  | none => rfl
  | some heads =>
      obtain ⟨dag', localHead, remoteHead⟩ := heads
      rw [fastForwards_iff hk] at hf
      rw [ahead_iff hk] at ha
      simp only [if_neg hf, if_neg ha]

def wholeConflictAction (P : Platform) (fileId : String) (le re : FileEntry)
    (localContent remoteContent : Bytes) : MergeAction :=
  .conflict fileId le.path re.path
    (wholeFileConflict (P.decode localContent) (P.decode remoteContent)) (P.decode localContent)
    (P.decode remoteContent) (headPair le re)

theorem text_merge {ancestorText : Text} {localContent remoteContent : Bytes}
    (h : AncestorText P localState remoteState dag le re ancestorText) :
    resolveText P localState remoteState fileId le re (resolveThreeWayBase le re dag)
        (P.decode localContent) (P.decode remoteContent) =
      (threeWayMerge ancestorText (P.decode localContent) (P.decode remoteContent)).map (fun m =>
        if m.hasConflicts then
          .conflict fileId le.path re.path m (P.decode localContent) (P.decode remoteContent)
            (headPair le re)
        else cleanMergeAction fileId le re (P.encode (joinLines m.merged))) := by
  obtain ⟨hamb, hknown, rfl⟩ := h
  simp only [resolveText, hamb, Bool.false_eq_true, if_false, if_neg hknown]
  rfl

theorem text_whole {localContent remoteContent : Bytes}
    (h : ∀ ancestorText, ¬ AncestorText P localState remoteState dag le re ancestorText) :
    resolveText P localState remoteState fileId le re (resolveThreeWayBase le re dag)
        (P.decode localContent) (P.decode remoteContent) =
      some (wholeConflictAction P fileId le re localContent remoteContent) := by
  simp only [resolveText]
  by_cases hamb : (resolveThreeWayBase le re dag).ambiguous = true
  · rw [if_pos hamb]
    rfl
  · rw [if_neg hamb]
    refine (if_pos ?_).trans rfl
    by_contra hknown
    exact h _ ⟨Bool.not_eq_true _ ▸ hamb, hknown, rfl⟩

theorem resolved_text (hle : le.deleted = false) (hre : re.deleted = false)
    (hne : le.contentHash ≠ re.contentHash) (hd : Divergent dag le re)
    {localContent remoteContent : Bytes}
    (hl : localState.contentStore.get le.contentHash = some localContent)
    (hr : remoteState.contentStore.get re.contentHash = some remoteContent)
    (hb : (isBinary localContent || isBinary remoteContent) = false)
    (h : resolveText P localState remoteState fileId le re (resolveThreeWayBase le re dag)
      (P.decode localContent) (P.decode remoteContent) = some a) :
    Resolved P localState remoteState dag fileId le re a := by
  by_cases hex : ∃ ancestorText, AncestorText P localState remoteState dag le re ancestorText
  · obtain ⟨ancestorText, ht⟩ := hex
    rw [text_merge ht] at h
    obtain ⟨m, hm, rfl⟩ := Option.map_eq_some_iff.1 h
    cases hc : m.hasConflicts with
    | true =>
        refine .conflict hle hre hl hr hc hne ⟨hd, ⟨_, _, hl, hr, hb⟩, fun content hclean => ?_⟩
        obtain ⟨-, _, _, ancestorText', m', hl', hr', -, ht', hm', hc', -⟩ := hclean
        cases hl.symm.trans hl'
        cases hr.symm.trans hr'
        obtain rfl : ancestorText' = ancestorText := ht'.2.2.trans ht.2.2.symm
        cases hm.symm.trans hm'
        cases hc.symm.trans hc'
    | false =>
        exact resolved_cleanMerge hle hre hne ⟨hd, _, _, _, m, hl, hr, hb, ht, hm, hc, rfl⟩
  · rw [text_whole (not_exists.1 hex)] at h
    refine Option.some.inj h ▸ .conflict hle hre hl hr rfl hne
      ⟨hd, ⟨_, _, hl, hr, hb⟩, fun content hclean => ?_⟩
    obtain ⟨-, _, _, ancestorText, _, -, -, -, ht, -⟩ := hclean
    exact hex ⟨ancestorText, ht⟩

theorem resolved_binary (hle : le.deleted = false) (hre : re.deleted = false)
    (hne : le.contentHash ≠ re.contentHash) (hd : Divergent dag le re)
    {localContent remoteContent : Bytes}
    (hl : localState.contentStore.get le.contentHash = some localContent)
    (hr : remoteState.contentStore.get re.contentHash = some remoteContent)
    (hb : (isBinary localContent || isBinary remoteContent) = true) :
    Resolved P localState remoteState dag fileId le re
      (resolveBinary fileId le re (resolveThreeWayBase le re dag) localContent remoteContent) := by
  simp only [resolveBinary]
  split
  · rename_i baseHash hamb hbase
    by_cases hlocal : le.contentHash = baseHash
    · by_cases hremote : re.contentHash = baseHash
      · exact absurd (hlocal.trans hremote.symm) hne
      · rw [if_pos (by simp [hlocal, hremote])]
        exact .adopt hle hre hne (Or.inr hr)
          (.onlyRemote ⟨hd, hamb, hlocal ▸ hbase, _, _, hl, hr, hb⟩)
    · rw [if_neg (by simp [hlocal])]
      split
      · exact .noOp
      · rename_i hboth
        refine .binary hle hre hne ⟨hd, hl, hr, hb, fun b _ hb' => ?_⟩
        cases hbase.symm.trans hb'
        refine iff_of_false hlocal (fun hremote => hboth ?_)
        simp [hlocal, hremote]
  · rename_i hnone
    refine .binary hle hre hne ⟨hd, hl, hr, hb, fun b hamb hb' => ?_⟩
    exact absurd hb' (hnone b hamb)

theorem resolved_missing (hle : le.deleted = false) (hre : re.deleted = false)
    (hne : le.contentHash ≠ re.contentHash) (hd : Divergent dag le re)
    (hmiss : localState.contentStore.get le.contentHash = none ∨
      remoteState.contentStore.get re.contentHash = none) :
    Resolved P localState remoteState dag fileId le re
      (resolveMissingContent fileId le re (localState.contentStore.get le.contentHash)
        (remoteState.contentStore.get re.contentHash)) := by
  simp only [resolveMissingContent]
  by_cases hw : 0 ≤ hlcCompare le.hlcTimestamp re.hlcTimestamp
  · simp only [hw, decide_true, if_true]
    cases hl : localState.contentStore.get le.contentHash with
    | none => exact .noOp
    | some content =>
        have hr := hmiss.resolve_left (by simp [hl])
        exact .keep hle hl hre hne ⟨hd, ⟨content, hl⟩, hr, hw⟩
  · simp only [hw, decide_false]
    cases hr : remoteState.contentStore.get re.contentHash with
    | none => exact .noOp
    | some content =>
        have hl := hmiss.resolve_right (by simp [hr])
        exact .adopt hle hre hne (Or.inr hr) (.lastWriter ⟨hd, hl, ⟨content, hr⟩, hw⟩)

theorem resolved_divergent (hle : le.deleted = false) (hre : re.deleted = false)
    (hne : le.contentHash ≠ re.contentHash) (hd : Divergent dag le re)
    (h : resolveDivergent P localState remoteState dag fileId le re = some a) :
    Resolved P localState remoteState dag fileId le re a := by
  unfold resolveDivergent at h
  split at h
  · rename_i localContent remoteContent hl hr
    by_cases hb : (isBinary localContent || isBinary remoteContent) = true
    · rw [if_pos hb] at h
      exact Option.some.inj h ▸ resolved_binary hle hre hne hd hl hr hb
    · rw [if_neg hb] at h
      exact resolved_text hle hre hne hd hl hr (Bool.not_eq_true _ ▸ hb) h
  · rename_i hnot
    refine Option.some.inj h ▸ resolved_missing hle hre hne hd ?_
    cases hl : localState.contentStore.get le.contentHash with
    | none => exact Or.inl rfl
    | some localContent =>
        cases hr : remoteState.contentStore.get re.contentHash with
        | none => exact Or.inr rfl
        | some remoteContent => exact absurd hr (hnot localContent remoteContent hl)

theorem openConflict_closed {content : Bytes} (h : ClosedByPeer dag le re)
    (hc : (remoteState.contentStore.get re.contentHash).or
      (localState.contentStore.get re.contentHash) = some content) :
    resolveOpenConflict localState remoteState dag fileId le re =
      adoptAction fileId re content := by
  obtain ⟨-, dag', remoteHead, rfl, hhead, hnode, hall⟩ := h
  simp only [resolveOpenConflict, hhead, hnode, hc]
  rw [if_pos ⟨trivial, hall⟩]
  rfl

theorem resolved_openConflict (hle : le.deleted = false) (hre : re.deleted = false)
    (hne : le.contentHash ≠ re.contentHash) (h2 : le.TwoHeaded) :
    Resolved P localState remoteState dag fileId le re
      (resolveOpenConflict localState remoteState dag fileId le re) := by
  simp only [resolveOpenConflict]
  split
  · rename_i dag' remoteHead hhead
    split
    · rename_i hclosed
      split
      · rename_i content hc
        exact .adopt hle hre hne (stored_or hc) (.closedByPeer
          ⟨h2, dag', remoteHead, rfl, hhead, hclosed.1, hclosed.2⟩ (stored_or hc))
      · exact .noOp
    · exact .noOp
  · exact .noOp

theorem resolved_contentConflict (hle : le.deleted = false) (hre : re.deleted = false)
    (hne : le.contentHash ≠ re.contentHash)
    (h : resolveContentConflict P localState remoteState dag fileId le re = some a) :
    Resolved P localState remoteState dag fileId le re a := by
  by_cases h2 : le.TwoHeaded
  · rw [contentConflict_twoHeaded h2] at h
    exact Option.some.inj h ▸ resolved_openConflict hle hre hne h2
  by_cases hf : FastForwards dag le re
  · rw [contentConflict_fastForward h2 hf] at h
    split at h
    · rename_i content hc
      exact Option.some.inj h ▸
        .adopt hle hre hne (stored_or hc) (.fastForward h2 hf (stored_or hc))
    · exact Option.some.inj h ▸ .noOp
  by_cases ha : Ahead dag le re
  · rw [contentConflict_ahead h2 hf ha] at h
    exact Option.some.inj h ▸ .noOp
  · rw [contentConflict_divergent ⟨h2, hf, ha⟩] at h
    exact resolved_divergent hle hre hne ⟨h2, hf, ha⟩ h

theorem resolved_sameContent (hle : le.deleted = false) (hre : re.deleted = false)
    (hsame : le.contentHash = re.contentHash) :
    Resolved P localState remoteState dag fileId le re
      (resolveSameContent localState remoteState dag fileId le re) := by
  simp only [resolveSameContent, resolveRenameConflict]
  split
  · rename_i hne
    split
    · exact .noOp
    · rename_i hw
      exact .move hle hre hsame hne hw
  · rename_i hpath
    split
    · exact .noOp
    · rename_i dag' localHead remoteHead hk
      split
      · exact .noOp
      · split
        · exact .noOp
        · rename_i hba
          rw [Bool.not_eq_true] at hba
          split
          · rename_i hat
            split
            · exact .noOp
            · rename_i content hc
              rw [← hsame] at hc
              cases hab : isAncestor dag' localHead remoteHead with
              | true =>
                  exact .advance hle hre hsame (not_not.1 hpath) (stored_or' hc)
                    ⟨dag', localHead, remoteHead, hk, hba, hat, hab⟩
              | false =>
                  exact .unite hle hre hsame ⟨dag', localHead, remoteHead, hk, hat⟩ (stored_or' hc)
                    (not_not.1 hpath) ⟨dag', localHead, remoteHead, hk, hba, hat, hab⟩
          · exact .noOp

theorem resolved_localDeleted (hle : le.deleted = true) (hre : re.deleted = false) :
    Resolved P localState remoteState dag fileId le re
      (resolveLocalDeleted localState remoteState dag fileId le re) := by
  simp only [resolveLocalDeleted]
  cases hs : settledByPeer dag le re with
  | true =>
      cases hc : (remoteState.contentStore.get re.contentHash).or
          (localState.contentStore.get re.contentHash) with
      | some content => exact .readopt hle hre hs (stored_or hc)
      | none =>
          simp only []
          split
          · exact .deleteRemote hle hre
          · exact .noOp
  | false =>
      simp only []
      cases hu : isUnchangedSinceBase re le dag with
      | true => exact .deleteRemote hle hre
      | false =>
          simp only [Bool.false_eq_true, if_false]
          split
          · exact .noOp
          · rename_i content hc
            exact .restore hle hre hs hu hc

theorem resolved_remoteDeleted (hle : le.deleted = false) (hre : re.deleted = true) :
    Resolved P localState remoteState dag fileId le re
      (resolveRemoteDeleted localState remoteState dag fileId le re) := by
  simp only [resolveRemoteDeleted]
  split
  · rename_i h
    exact .deleteLocal hle hre (Or.inl h)
  · split
    · rename_i h
      exact .deleteLocal hle hre (Or.inr h)
    · split
      · exact .noOp
      · rename_i content hc
        exact .survive hle hre (stored_or' hc)

theorem resolved_both (h : resolveBoth P localState remoteState dag fileId le re = some a) :
    Resolved P localState remoteState dag fileId le re a := by
  unfold resolveBoth at h
  split at h
  · exact Option.some.inj h ▸ .noOp
  · rename_i hle hre
    exact Option.some.inj h ▸ resolved_localDeleted hle hre
  · rename_i hle hre
    exact Option.some.inj h ▸ resolved_remoteDeleted hle hre
  · rename_i hle hre
    split at h
    · rename_i hsame
      exact Option.some.inj h ▸ resolved_sameContent hle hre hsame
    · rename_i hne
      exact resolved_contentConflict hle hre hne h

section Converse

theorem both_of_differ (hle : le.deleted = false) (hre : re.deleted = false)
    (hne : le.contentHash ≠ re.contentHash) :
    resolveBoth P localState remoteState dag fileId le re =
      resolveContentConflict P localState remoteState dag fileId le re := by
  simp only [resolveBoth, hle, hre, if_neg hne]

theorem both_adopt (P : Platform) (fileId : String) (hle : le.deleted = false) (hre : re.deleted = false)
    (hne : le.contentHash ≠ re.contentHash) (h : Adopts localState remoteState dag le re) :
    ∃ content, Stored localState remoteState re.contentHash content ∧
      resolveBoth P localState remoteState dag fileId le re =
        some (adoptAction fileId re content) := by
  rw [both_of_differ hle hre hne]
  cases h with
  | closedByPeer h hc =>
      obtain ⟨content, hc⟩ := or_of_stored hc
      refine ⟨content, stored_or hc, ?_⟩
      rw [contentConflict_twoHeaded h.1, openConflict_closed h hc]
  | fastForward h2 h hc =>
      obtain ⟨content, hc⟩ := or_of_stored hc
      refine ⟨content, stored_or hc, ?_⟩
      rw [contentConflict_fastForward h2 h, hc]
  | onlyRemote h =>
      obtain ⟨hd, hamb, hbase, localContent, remoteContent, hl, hr, hb⟩ := h
      refine ⟨remoteContent, Or.inr hr, ?_⟩
      rw [contentConflict_divergent hd]
      simp only [resolveDivergent, hl, hr, hb, if_true, resolveBinary, hamb, hbase]
      rw [if_pos (by simp [Ne.symm hne])]
      rfl
  | lastWriter h =>
      obtain ⟨hd, hl, ⟨content, hr⟩, hw⟩ := h
      refine ⟨content, Or.inr hr, ?_⟩
      rw [contentConflict_divergent hd]
      simp only [resolveDivergent, hl, hr, resolveMissingContent, hw, decide_false]
      rfl

theorem both_readopt (P : Platform) (fileId : String) (hle : le.deleted = true) (hre : re.deleted = false)
    (hs : settledByPeer dag le re = true) {content : Bytes}
    (hc : Stored localState remoteState re.contentHash content) :
    ∃ content, Stored localState remoteState re.contentHash content ∧
      resolveBoth P localState remoteState dag fileId le re =
        some (adoptAction fileId re content) := by
  obtain ⟨content, hc⟩ := or_of_stored hc
  refine ⟨content, stored_or hc, ?_⟩
  simp only [resolveBoth, hle, hre, resolveLocalDeleted, hs, hc]
  rfl

theorem both_restore (hle : le.deleted = true) (hre : re.deleted = false)
    (hs : settledByPeer dag le re = false) (hu : isUnchangedSinceBase re le dag = false)
    {content : Bytes} (hc : (remoteState.contentStore.get re.contentHash).or
      (localState.contentStore.get re.contentHash) = some content) :
    resolveBoth P localState remoteState dag fileId le re =
      some (.deleteConflict fileId re.path .localDeleted content (deleteParents le re)) := by
  simp only [resolveBoth, hle, hre, resolveLocalDeleted, hs, hu, hc, Bool.false_eq_true, if_false]

theorem both_deleteLocal (hle : le.deleted = false) (hre : re.deleted = true)
    (h : settledByPeer dag le re = true ∨ isUnchangedSinceBase le re dag = true) :
    resolveBoth P localState remoteState dag fileId le re =
      some (.deleteLocal fileId le.path) := by
  simp only [resolveBoth, hle, hre, resolveRemoteDeleted]
  rcases h with h | h
  · rw [if_pos h]
  · rw [if_pos h, ite_self]

theorem both_survive (hle : le.deleted = false) (hre : re.deleted = true)
    (hs : settledByPeer dag le re = false) (hu : isUnchangedSinceBase le re dag = false)
    {content : Bytes} (hc : (localState.contentStore.get le.contentHash).or
      (remoteState.contentStore.get le.contentHash) = some content) :
    resolveBoth P localState remoteState dag fileId le re =
      some (.deleteConflict fileId le.path .remoteDeleted content (deleteParents le re)) := by
  simp only [resolveBoth, hle, hre, resolveRemoteDeleted, hs, hu, hc, Bool.false_eq_true, if_false]

theorem both_move (hle : le.deleted = false) (hre : re.deleted = false)
    (hsame : le.contentHash = re.contentHash) (hne : le.path ≠ re.path)
    (hw : ¬ 0 ≤ hlcCompare le.hlcTimestamp re.hlcTimestamp) :
    resolveBoth P localState remoteState dag fileId le re =
      some (.moveLocal fileId le.path re.path) := by
  simp only [resolveBoth, hle, hre, if_pos hsame, resolveSameContent, if_pos hne,
    resolveRenameConflict, if_neg hw]

theorem both_merge (hle : le.deleted = false) (hre : re.deleted = false)
    (hne : le.contentHash ≠ re.contentHash) {content : Bytes}
    (h : MergesCleanly P localState remoteState dag le re content) :
    resolveBoth P localState remoteState dag fileId le re =
      some (cleanMergeAction fileId le re content) := by
  obtain ⟨hd, localContent, remoteContent, ancestorText, m, hl, hr, hb, ht, hm, hc, rfl⟩ := h
  rw [both_of_differ hle hre hne, contentConflict_divergent hd]
  simp only [resolveDivergent, hl, hr, hb, Bool.false_eq_true, if_false]
  rw [text_merge ht, hm, Option.map_some, hc]
  rfl

theorem both_binary (hle : le.deleted = false) (hre : re.deleted = false)
    (hne : le.contentHash ≠ re.contentHash) {localContent remoteContent : Bytes}
    (h : BinaryClash localState remoteState dag le re localContent remoteContent) :
    resolveBoth P localState remoteState dag fileId le re =
      some (binaryConflictAction fileId le re localContent remoteContent) := by
  obtain ⟨hd, hl, hr, hb, hclash⟩ := h
  rw [both_of_differ hle hre hne, contentConflict_divergent hd]
  simp only [resolveDivergent, hl, hr, hb, if_true, resolveBinary, Option.some.injEq]
  split
  · rename_i baseHash hamb hbase
    have hiff := hclash baseHash hamb hbase
    by_cases hlocal : le.contentHash = baseHash
    · exact absurd (hlocal.trans (hiff.1 hlocal).symm) hne
    · have hremote : re.contentHash ≠ baseHash := fun h => hlocal (hiff.2 h)
      rw [if_neg (by simp [hlocal]), if_neg (by simp [hremote])]
      rfl
  · rfl

theorem sameContent_concurrent (hsame : le.contentHash = re.contentHash)
    (hpath : le.path = re.path) {dag' : VersionDag}
    {localHead remoteHead : String} {content : Bytes}
    (hk : knownHeads dag le re = some (dag', localHead, remoteHead))
    (hba : isAncestor dag' remoteHead localHead = false) (hat : atHead dag' localHead le = true)
    (hc : (localState.contentStore.get le.contentHash).or
      (remoteState.contentStore.get le.contentHash) = some content) :
    resolveSameContent localState remoteState dag fileId le re =
      if isAncestor dag' localHead remoteHead then adoptAction fileId re content
      else .writeMerge fileId le.path content [localHead, remoteHead] := by
  have hheads : localHead ≠ remoteHead := by
    rintro rfl
    rw [isAncestor, if_pos rfl] at hba
    cases hba
  simp only [resolveSameContent, if_neg (not_not.2 hpath), hk, if_neg hheads, hba, hat,
    ← hsame, hc, Bool.false_eq_true, if_false, if_true]
  rfl

theorem both_advance (P : Platform) (fileId : String) (hle : le.deleted = false)
    (hre : re.deleted = false) (hsame : le.contentHash = re.contentHash)
    (hpath : le.path = re.path) (hg : Advances dag le re) {content : Bytes}
    (hc : Stored localState remoteState le.contentHash content) :
    ∃ content, resolveBoth P localState remoteState dag fileId le re =
      some (adoptAction fileId re content) := by
  obtain ⟨content, hc⟩ := or_of_stored' hc
  obtain ⟨dag', localHead, remoteHead, hk, hba, hat, hab⟩ := hg
  refine ⟨content, ?_⟩
  simp only [resolveBoth, hle, hre, if_pos hsame]
  rw [sameContent_concurrent hsame hpath hk hba hat hc, if_pos hab]

theorem both_unite (P : Platform) (fileId : String) (hle : le.deleted = false)
    (hre : re.deleted = false) (hsame : le.contentHash = re.contentHash)
    (hpath : le.path = re.path) (hg : Unites dag le re) {content : Bytes}
    (hc : Stored localState remoteState le.contentHash content) :
    ∃ content parents, resolveBoth P localState remoteState dag fileId le re =
      some (.writeMerge fileId le.path content parents) := by
  obtain ⟨content, hc⟩ := or_of_stored' hc
  obtain ⟨dag', localHead, remoteHead, hk, hba, hat, hab⟩ := hg
  refine ⟨content, [localHead, remoteHead], ?_⟩
  simp only [resolveBoth, hle, hre, if_pos hsame]
  rw [sameContent_concurrent hsame hpath hk hba hat hc, hab]
  rfl

theorem both_keep (P : Platform) (fileId : String) (hle : le.deleted = false)
    (hre : re.deleted = false) (hne : le.contentHash ≠ re.contentHash)
    (hk : KeepsLocal localState remoteState dag le re) :
    ∃ content, resolveBoth P localState remoteState dag fileId le re =
      some (.writeLocal fileId le.path content le.hlcTimestamp le.headVersionId) := by
  obtain ⟨hd, ⟨content, hl⟩, hr, hw⟩ := hk
  refine ⟨content, ?_⟩
  rw [both_of_differ hle hre hne, contentConflict_divergent hd]
  simp only [resolveDivergent, hl, hr, resolveMissingContent, hw, decide_true, if_true]

theorem both_clash (hle : le.deleted = false) (hre : re.deleted = false)
    (hne : le.contentHash ≠ re.contentHash) (ht : TextClash P localState remoteState dag le re)
    (h : resolveBoth P localState remoteState dag fileId le re = some a) :
    ∃ m localText remoteText parents,
      a = .conflict fileId le.path re.path m localText remoteText parents := by
  obtain ⟨hd, ⟨localContent, remoteContent, hl, hr, hb⟩, hclean⟩ := ht
  rw [both_of_differ hle hre hne, contentConflict_divergent hd] at h
  simp only [resolveDivergent, hl, hr, hb, Bool.false_eq_true, if_false] at h
  by_cases hex : ∃ ancestorText, AncestorText P localState remoteState dag le re ancestorText
  · obtain ⟨ancestorText, hanc⟩ := hex
    rw [text_merge hanc] at h
    obtain ⟨m, hm, rfl⟩ := Option.map_eq_some_iff.1 h
    cases hc : m.hasConflicts with
    | true => exact ⟨m, _, _, _, if_pos rfl⟩
    | false => exact absurd ⟨hd, _, _, _, m, hl, hr, hb, hanc, hm, hc, rfl⟩ (hclean _)
  · rw [text_whole (not_exists.1 hex)] at h
    cases h
    exact ⟨_, _, _, _, rfl⟩

end Converse

end OpsBlobs.Resolution
