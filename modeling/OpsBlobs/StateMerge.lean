import OpsBlobs.Types
import OpsBlobs.VersionDag

namespace OpsBlobs.StateMerge

open Types Diff3 Hlc VersionDag

/-- Path to file id over the live entries; the last entry at a path wins. -/
def liveByPath (state : VaultState) : JsMap Path String :=
  state.fileEntries.map.entries.foldl
    (fun index e => if e.2.deleted then index else index.set e.2.path e.1) JsMap.empty

inductive Side
  | localSide
  | remoteSide
  deriving DecidableEq, Repr

def pickCollisionWinner (le re : FileEntry) : Side :=
  let cmp := hlcCompare le.hlcTimestamp re.hlcTimestamp
  if 0 < cmp then .localSide
  else if cmp < 0 then .remoteSide
  else if re.id < le.id then .localSide else .remoteSide

/-- The graph and the two heads, when all three are there. -/
def knownHeads (dag : Option VersionDag) (le re : FileEntry) :
    Option (VersionDag × String × String) :=
  match dag, le.head, re.head with
  | some dag, some localHead, some remoteHead => some (dag, localHead, remoteHead)
  | _, _, _ => none

def headPair (le re : FileEntry) : Option (List String) :=
  match le.head, re.head with
  | some localHead, some remoteHead => some [localHead, remoteHead]
  | _, _ => none

def deleteParents (le re : FileEntry) : Option (List String) := headPair le re

structure ThreeWayBase where
  baseHash : Option String
  ambiguous : Bool
  hasKnownAncestor : Bool
  deriving DecidableEq, Repr

def resolveThreeWayBase (le re : FileEntry) (dag : Option VersionDag) : ThreeWayBase :=
  match knownHeads dag le re with
  | none => ⟨none, false, false⟩
  | some (dag, localHead, remoteHead) =>
      match mergeBase dag localHead remoteHead with
      | .multipleBases => ⟨none, true, false⟩
      | .base mb => ⟨contentHashOf dag mb, false, true⟩
      | .none => ⟨none, false, false⟩

def wholeFileConflict (localText remoteText : Text) : ThreeWayMergeResult Line :=
  let localLines := normalizeLines localText
  let remoteLines := normalizeLines remoteText
  { merged := localLines
    conflicts :=
      [{ startLine := 0
         endLine := (localLines.length : Int) - 1
         ancestor := []
         localLines := localLines
         remoteLines := remoteLines }]
    hasConflicts := true }

def resolveRenameConflict (fileId : String) (le re : FileEntry) : MergeAction :=
  if 0 ≤ hlcCompare le.hlcTimestamp re.hlcTimestamp then .noOp fileId
  else .moveLocal fileId le.path re.path

def isUnchangedSinceBase (survivor other : FileEntry) (dag : Option VersionDag) : Bool :=
  let renamed :=
    match survivor.lastSyncedPath.or other.lastSyncedPath with
    | some syncedPath => decide (survivor.path ≠ syncedPath)
    | none => false
  if renamed then false
  else
    match knownHeads dag survivor other with
    | none => false
    | some (dag, survivorHead, otherHead) =>
        match mergeBase dag survivorHead otherHead with
        | .base base => decide (contentHashOf dag base = some survivor.contentHash)
        | _ => false

def BINARY_SNIFF_BYTES : Nat := 8192

def isBinary (content : Bytes) : Bool := (content.take BINARY_SNIFF_BYTES).any (· = 0)

/-- Does `entry`'s content match the head it names? A pending edit leaves the head stale. -/
def atHead (dag : VersionDag) (head : String) (entry : FileEntry) : Bool :=
  contentHashOf dag head = some entry.contentHash

section Resolve

variable (P : Platform) (localState remoteState : VaultState) (dag : Option VersionDag)

/-- Only the remote id's own iteration adopts it; the local one leaves it to that write. -/
def adoptRemoteId (le re : FileEntry) (selfIsRemote : Bool) : MergeAction :=
  if selfIsRemote then
    match (remoteState.contentStore.get re.contentHash).or
        (localState.contentStore.get le.contentHash) with
    | some content => .writeLocal re.id re.path content re.hlcTimestamp re.headVersionId
    | none => .noOp re.id
  else .noOp le.id

/-- A collision no peer has settled: the same file twice, or two different ones. -/
def resolveUnrelated (le re : FileEntry) (selfIsRemote : Bool) : MergeAction :=
  let selfId := if selfIsRemote then re.id else le.id
  if le.contentHash = re.contentHash then
    match pickCollisionWinner le re with
    | .remoteSide => adoptRemoteId localState remoteState le re selfIsRemote
    | .localSide => .noOp selfId
  else
    match localState.contentStore.get le.contentHash,
        remoteState.contentStore.get re.contentHash with
    | some localContent, some remoteContent =>
        if pickCollisionWinner le re = (if selfIsRemote then .remoteSide else .localSide) then
          let localText := P.decode localContent
          let remoteText := P.decode remoteContent
          .conflict selfId le.path re.path (wholeFileConflict localText remoteText) localText
            remoteText (headPair le re)
        else .noOp selfId
    | _, _ => .noOp selfId

def resolveCreateCollision (le re : FileEntry) (selfIsRemote : Bool) : MergeAction :=
  match knownHeads dag le re with
  | some (dag, localHead, remoteHead) =>
      if isAncestor dag localHead remoteHead then
        adoptRemoteId localState remoteState le re selfIsRemote
      else if isAncestor dag remoteHead localHead then
        .noOp (if selfIsRemote then re.id else le.id)
      else resolveUnrelated P localState remoteState le re selfIsRemote
  | none => resolveUnrelated P localState remoteState le re selfIsRemote

/-- An open conflict waits on disk as markers; only a peer's merge node descending from
both heads replaces it. -/
def resolveOpenConflict (fileId : String) (le re : FileEntry) : MergeAction :=
  match dag, re.head with
  | some dag, some remoteHead =>
      if isMergeNode dag remoteHead ∧
          ∀ h ∈ le.conflictParents.getD [], isAncestor dag h remoteHead = true then
        match (remoteState.contentStore.get re.contentHash).or
            (localState.contentStore.get re.contentHash) with
        | some content => .writeLocal fileId re.path content re.hlcTimestamp re.headVersionId
        | none => .noOp fileId
      else .noOp fileId
  | _, _ => .noOp fileId

/-- The last-writer-wins fallback when one side's bytes are missing. -/
def resolveMissingContent (fileId : String) (le re : FileEntry)
    (localContent remoteContent : Option Bytes) : MergeAction :=
  let localWins := decide (0 ≤ hlcCompare le.hlcTimestamp re.hlcTimestamp)
  let winner := if localWins then le else re
  match (if localWins then localContent else remoteContent) with
  | some content =>
      .writeLocal fileId winner.path content winner.hlcTimestamp winner.headVersionId
  | none => .noOp fileId

def resolveBinary (fileId : String) (le re : FileEntry) (base : ThreeWayBase)
    (localContent remoteContent : Bytes) : MergeAction :=
  let conflict := MergeAction.binaryConflict fileId le.path re.path localContent remoteContent
    le.hlcTimestamp re.hlcTimestamp (headPair le re)
  match base.ambiguous, base.baseHash with
  | false, some baseHash =>
      let localChanged := decide (le.contentHash ≠ baseHash)
      let remoteChanged := decide (re.contentHash ≠ baseHash)
      if remoteChanged && !localChanged then
        .writeLocal fileId re.path remoteContent re.hlcTimestamp re.headVersionId
      else if localChanged && !remoteChanged then .noOp fileId
      else conflict
  | _, _ => conflict

/-- The three-way merge of two texts; `none` when the line merge throws. -/
def resolveText (fileId : String) (le re : FileEntry) (base : ThreeWayBase)
    (localText remoteText : Text) : Option MergeAction :=
  let wholeConflict := MergeAction.conflict fileId le.path re.path
    (wholeFileConflict localText remoteText) localText remoteText (headPair le re)
  if base.ambiguous then some wholeConflict
  else
    let ancestorContent := base.baseHash.bind (fun hash =>
      (localState.contentStore.get hash).or (remoteState.contentStore.get hash))
    if base.hasKnownAncestor ∧ ancestorContent = none then some wholeConflict
    else
      let ancestorText := (ancestorContent.map P.decode).getD []
      (threeWayMerge ancestorText localText remoteText).map (fun mergeResult =>
        if mergeResult.hasConflicts then
          .conflict fileId le.path re.path mergeResult localText remoteText (headPair le re)
        else
          let content := P.encode (joinLines mergeResult.merged)
          let pathWinner :=
            if 0 ≤ hlcCompare le.hlcTimestamp re.hlcTimestamp then le else re
          match headPair le re with
          | some parents => .writeMerge fileId pathWinner.path content parents
          | none =>
              .writeLocal fileId pathWinner.path content
                (hlcMax le.hlcTimestamp re.hlcTimestamp) none)

/-- Both sides changed and neither head is an ancestor that settles it. -/
def resolveDivergent (fileId : String) (le re : FileEntry) : Option MergeAction :=
  match localState.contentStore.get le.contentHash,
      remoteState.contentStore.get re.contentHash with
  | some localContent, some remoteContent =>
      let base := resolveThreeWayBase le re dag
      if isBinary localContent || isBinary remoteContent then
        some (resolveBinary fileId le re base localContent remoteContent)
      else
        resolveText P localState remoteState fileId le re base (P.decode localContent)
          (P.decode remoteContent)
  | localContent, remoteContent =>
      some (resolveMissingContent fileId le re localContent remoteContent)

def resolveContentConflict (fileId : String) (le re : FileEntry) : Option MergeAction :=
  if le.TwoHeaded then some (resolveOpenConflict localState remoteState dag fileId le re)
  else
    match knownHeads dag le re with
    | some (dag', localHead, remoteHead) =>
        if atHead dag' localHead le && isAncestor dag' localHead remoteHead then
          match (remoteState.contentStore.get re.contentHash).or
              (localState.contentStore.get re.contentHash) with
          | some content =>
              some (.writeLocal fileId re.path content re.hlcTimestamp re.headVersionId)
          | none => some (.noOp fileId)
        else if isAncestor dag' remoteHead localHead then some (.noOp fileId)
        else resolveDivergent P localState remoteState dag fileId le re
    | none => resolveDivergent P localState remoteState dag fileId le re

def resolveRemoteOnly (localLiveByPath : JsMap Path String) (fileId : String) (re : FileEntry) :
    MergeAction :=
  if re.deleted then .noOp fileId
  else
    match (localLiveByPath.get re.path).bind (fun id =>
        if id = fileId then none else localState.fileEntries.get id) with
    | some le => resolveCreateCollision P localState remoteState dag le re true
    | none =>
        match remoteState.contentStore.get re.contentHash with
        | some content => .writeLocal fileId re.path content re.hlcTimestamp re.headVersionId
        | none => .noOp fileId

def resolveLocalOnly (remoteLiveByPath : JsMap Path String) (fileId : String) (le : FileEntry) :
    MergeAction :=
  if le.deleted then .noOp fileId
  else
    match (remoteLiveByPath.get le.path).bind (fun id =>
        if id = fileId then none else remoteState.fileEntries.get id) with
    | some re => resolveCreateCollision P localState remoteState dag le re false
    | none => .sendRemote fileId le.path le.hlcTimestamp

def resolveSameContent (fileId : String) (le re : FileEntry) : MergeAction :=
  if le.path ≠ re.path then resolveRenameConflict fileId le re
  else
    match knownHeads dag le re with
    | none => .noOp fileId
    | some (dag, localHead, remoteHead) =>
        if localHead = remoteHead then .noOp fileId
        else
          let content := (localState.contentStore.get le.contentHash).or
            (remoteState.contentStore.get re.contentHash)
          if isAncestor dag remoteHead localHead then .noOp fileId
          else if atHead dag localHead le then
            match content with
            | none => .noOp fileId
            | some content =>
                if isAncestor dag localHead remoteHead then
                  .writeLocal fileId re.path content re.hlcTimestamp re.headVersionId
                else .writeMerge fileId le.path content [localHead, remoteHead]
          else .noOp fileId

/-- A merge node descending from our head: a peer already settled this delete. -/
def settledByPeer (le re : FileEntry) : Bool :=
  match knownHeads dag le re with
  | some (dag, localHead, remoteHead) =>
      isMergeNode dag remoteHead && isAncestor dag localHead remoteHead
  | none => false

def resolveLocalDeleted (fileId : String) (le re : FileEntry) : MergeAction :=
  let content := (remoteState.contentStore.get re.contentHash).or
    (localState.contentStore.get re.contentHash)
  match settledByPeer dag le re, content with
  | true, some content => .writeLocal fileId re.path content re.hlcTimestamp re.headVersionId
  | _, content =>
      if isUnchangedSinceBase re le dag then .deleteRemote fileId re.path
      else
        match content with
        | none => .noOp fileId
        | some content =>
            .deleteConflict fileId re.path .localDeleted content (deleteParents le re)

def resolveRemoteDeleted (fileId : String) (le re : FileEntry) : MergeAction :=
  if settledByPeer dag le re then .deleteLocal fileId le.path
  else if isUnchangedSinceBase le re dag then .deleteLocal fileId le.path
  else
    match (localState.contentStore.get le.contentHash).or
        (remoteState.contentStore.get le.contentHash) with
    | none => .noOp fileId
    | some content =>
        .deleteConflict fileId le.path .remoteDeleted content (deleteParents le re)

def resolveBoth (fileId : String) (le re : FileEntry) : Option MergeAction :=
  match le.deleted, re.deleted with
  | true, true => some (.noOp fileId)
  | true, false => some (resolveLocalDeleted localState remoteState dag fileId le re)
  | false, true => some (resolveRemoteDeleted localState remoteState dag fileId le re)
  | false, false =>
      if le.contentHash = re.contentHash then
        some (resolveSameContent localState remoteState dag fileId le re)
      else resolveContentConflict P localState remoteState dag fileId le re

def classifyAndResolve (localLiveByPath remoteLiveByPath : JsMap Path String) (fileId : String)
    (localEntry remoteEntry : Option FileEntry) : Option MergeAction :=
  match localEntry, remoteEntry with
  | none, none => some (.noOp fileId)
  | none, some re =>
      some (resolveRemoteOnly P localState remoteState dag localLiveByPath fileId re)
  | some le, none =>
      some (resolveLocalOnly P localState remoteState dag remoteLiveByPath fileId le)
  | some le, some re => resolveBoth P localState remoteState dag fileId le re

def allIds : List String :=
  localState.fileEntries.keys ++
    remoteState.fileEntries.keys.filter (· ∉ localState.fileEntries.keys)

def actionFor (fileId : String) : Option MergeAction :=
  classifyAndResolve P localState remoteState dag (liveByPath localState)
    (liveByPath remoteState) fileId (localState.fileEntries.get fileId)
    (remoteState.fileEntries.get fileId)

def mergeVaultStates : Option StateMergeResult :=
  ((allIds localState remoteState).mapM (actionFor P localState remoteState dag)).map
    (fun actions => ⟨actions, hlcMax localState.hlc remoteState.hlc⟩)

end Resolve

theorem mapM_some {α β : Type} (f : α → Option β) (l : List α) (r : List β) :
    l.mapM f = some r ↔ List.Forall₂ (fun x y => f x = some y) l r := by
  induction l generalizing r with
  | nil => simp [eq_comm]
  | cons x rest ih =>
      rw [List.mapM_cons, List.forall₂_cons_left_iff]
      constructor
      · intro h
        obtain ⟨y, hy, h⟩ := Option.bind_eq_some_iff.1 h
        obtain ⟨ys, hys, h⟩ := Option.bind_eq_some_iff.1 h
        exact ⟨y, ys, hy, (ih ys).1 hys, (Option.some.inj h).symm⟩
      · rintro ⟨y, ys, hy, hys, rfl⟩
        simp [hy, (ih ys).2 hys]

section Index

theorem foldl_liveByPath (l : List (String × FileEntry)) (index : JsMap Path String) (p : Path) :
    (l.foldl (fun index e => if e.2.deleted then index else index.set e.2.path e.1) index).get p =
      ((l.filter (fun e => !e.2.deleted && e.2.path = p)).getLast?.map Prod.fst).or
        (index.get p) := by
  induction l generalizing index with
  | nil => simp
  | cons e rest ih =>
      rw [List.foldl_cons, ih]
      by_cases hd : e.2.deleted
      · simp [hd]
      · by_cases hp : e.2.path = p
        · have hget : ((index.set e.2.path e.1).get p) = some e.1 := by simp [hp]
          cases hl : (rest.filter (fun e => !e.2.deleted && e.2.path = p)).getLast? with
          | none =>
              rw [List.getLast?_eq_none_iff] at hl
              simp [hd, hp, hl]
          | some last => simp [hd, hp, List.getLast?_cons, hl]
        · simp [hd, hp, JsMap.get_set_ne _ _ hp]

/-- The index names a live entry at that path. -/
theorem live_of_liveByPath {state : VaultState} {p : Path} {id : String}
    (h : (liveByPath state).get p = some id) :
    ∃ e, state.fileEntries.get id = some e ∧ e.deleted = false ∧ e.path = p := by
  rw [liveByPath, foldl_liveByPath, JsMap.get_empty, Option.or_none] at h
  obtain ⟨⟨id', e⟩, hlast, rfl⟩ := Option.map_eq_some_iff.1 h
  obtain ⟨hmem, hlive⟩ := List.mem_filter.1 (List.mem_of_getLast? hlast)
  rw [Bool.and_eq_true, Bool.not_eq_true', decide_eq_true_eq] at hlive
  exact ⟨e, (JsMap.mem_entries_iff _).1 hmem, hlive⟩

theorem liveByPath_isSome {state : VaultState} {id : String} {e : FileEntry}
    (h : state.fileEntries.get id = some e) (hlive : e.deleted = false) :
    ∃ holder, (liveByPath state).get e.path = some holder := by
  rw [liveByPath, foldl_liveByPath, JsMap.get_empty, Option.or_none]
  have hmem : (id, e) ∈ state.fileEntries.map.entries.filter
      (fun x => !x.2.deleted && x.2.path = e.path) :=
    List.mem_filter.2 ⟨(JsMap.mem_entries_iff _).2 h, by simp [hlive]⟩
  cases hl : (state.fileEntries.map.entries.filter
      (fun x => !x.2.deleted && x.2.path = e.path)).getLast? with
  | none =>
      rw [List.getLast?_eq_none_iff.1 hl] at hmem
      exact absurd hmem List.not_mem_nil
  | some last => exact ⟨last.1, rfl⟩

end Index

section Actions

variable {P : Platform} {localState remoteState : VaultState} {dag : Option VersionDag}

theorem mem_allIds {id : String} : id ∈ allIds localState remoteState ↔
    (∃ e, localState.fileEntries.get id = some e) ∨
      ∃ e, remoteState.fileEntries.get id = some e := by
  rw [allIds, List.mem_append, List.mem_filter, decide_eq_true_eq,
    FileEntries.mem_keys_iff, FileEntries.mem_keys_iff]
  tauto

theorem nodup_allIds (localState remoteState : VaultState) :
    (allIds localState remoteState).Nodup := by
  refine List.nodup_append.2 ⟨JsMap.nodup_keys _, (JsMap.nodup_keys _).filter _, ?_⟩
  rintro id hl _ hr rfl
  exact of_decide_eq_true (List.mem_filter.1 hr).2 hl

theorem actions_forall₂ {r : StateMergeResult}
    (h : mergeVaultStates P localState remoteState dag = some r) :
    List.Forall₂ (fun id a => actionFor P localState remoteState dag id = some a)
      (allIds localState remoteState) r.actions := by
  obtain ⟨actions, hm, rfl⟩ := Option.map_eq_some_iff.1 h
  exact (mapM_some _ _ _).1 hm

/-- The returned actions are those of the ids either side knows, one each. -/
theorem mem_actions {r : StateMergeResult}
    (h : mergeVaultStates P localState remoteState dag = some r) {a : MergeAction} :
    a ∈ r.actions ↔ ∃ id ∈ allIds localState remoteState,
      actionFor P localState remoteState dag id = some a := by
  have hf := actions_forall₂ h
  generalize allIds localState remoteState = ids at hf
  generalize r.actions = actions at hf
  induction hf with
  | nil => simp
  | @cons id b ids bs hb hf ih =>
      simp only [List.mem_cons, ih, exists_eq_or_imp, hb, Option.some.injEq]
      exact or_congr_left eq_comm

theorem exists_action {r : StateMergeResult}
    (h : mergeVaultStates P localState remoteState dag = some r) {id : String}
    (hid : id ∈ allIds localState remoteState) :
    ∃ a ∈ r.actions, actionFor P localState remoteState dag id = some a := by
  have hf := actions_forall₂ h
  generalize allIds localState remoteState = ids at hf hid
  generalize r.actions = actions at hf
  induction hf with
  | nil => simp at hid
  | @cons id' b ids bs hb hf ih =>
      rcases List.mem_cons.1 hid with rfl | hid
      · exact ⟨b, List.mem_cons_self, hb⟩
      · obtain ⟨a, ha, haf⟩ := ih hid
        exact ⟨a, List.mem_cons_of_mem _ ha, haf⟩

end Actions

end OpsBlobs.StateMerge
