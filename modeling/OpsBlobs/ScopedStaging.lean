import OpsBlobs.AncestorWalk
import OpsBlobs.MergeBase
import OpsBlobs.StateMerge

namespace OpsBlobs.ScopedStaging

open Types Diff3 VersionDag VersionGraph AncestorWalk StateMerge

/-- The merge has nothing to do for a file on which both sides agree, and reads no content. -/
def converged (le re : FileEntry) : Bool :=
  !le.deleted && !re.deleted && le.headVersionId.isSome && le.headVersionId = re.headVersionId &&
    le.contentHash = re.contentHash && le.path = re.path

def namedByRemote (localState remoteState : VaultState) (id : String) : Bool :=
  match localState.fileEntries.get id, remoteState.fileEntries.get id with
  | some le, some re => !converged le re
  | _, _ => true

def remoteLivePaths (remoteState : VaultState) : List Path :=
  (remoteState.fileEntries.values.filter (!·.deleted)).map FileEntry.path

/-- A file of ours where a live remote one wants to be. -/
def collides (localState remoteState : VaultState) (id : String) : Bool :=
  match localState.fileEntries.get id with
  | none => false
  | some le =>
      !le.deleted && (remoteState.fileEntries.get id).isNone &&
        le.path ∈ remoteLivePaths remoteState

/-- The files that `stageMergeContent` stages content for. -/
def mergeScope (localState remoteState : VaultState) : List String :=
  remoteState.fileEntries.keys.filter (namedByRemote localState remoteState) ++
    if (remoteLivePaths remoteState).isEmpty then []
    else localState.fileEntries.keys.filter (collides localState remoteState)

/-- What `stageForFiles` asks to stage: the content of the files, and of their history as far as
the store still has it. -/
def neededHashes (state : VaultState) (fileIds : List String) (dag : VersionDag)
    (hasStored : String → Bool) : List String :=
  fileIds.flatMap fun id =>
    match state.fileEntries.get id with
    | none => []
    | some le =>
        if le.deleted then []
        else
          [le.contentHash].filter (· ≠ "") ++
            match le.head with
            | none => []
            | some head => reachableContentHashes dag head
                (storedOnly fun h => state.contentStore.has h || hasStored h)

/-- The same files with other content staged. -/
def withContent (state : VaultState) (store : JsMap String Bytes) : VaultState :=
  { state with contentStore := store }

def stageHash (held : String → Option Bytes) (store : JsMap String Bytes) (hash : String) :
    JsMap String Bytes :=
  if hash = "" ∨ store.has hash then store
  else
    match held hash with
    | some bytes => store.set hash bytes
    | none => store

/-- Staging these hashes from what the device holds, nothing else happening meanwhile. -/
def stageContent (held : String → Option Bytes) (state : VaultState) (hashes : List String) :
    VaultState :=
  withContent state (hashes.foldl (stageHash held) state.contentStore)

section Reads

variable {P : Platform} {localState remoteState : VaultState} {dag : Option VersionDag}
  {le re : FileEntry} {fileId : String} {store : JsMap String Bytes}

@[simp]
theorem contentStore_withContent : (withContent localState store).contentStore = store := rfl

@[simp]
theorem fileEntries_withContent :
    (withContent localState store).fileEntries = localState.fileEntries := rfl

theorem adoptRemoteId_withContent
    (h : store.get le.contentHash = localState.contentStore.get le.contentHash)
    (selfIsRemote : Bool) :
    adoptRemoteId (withContent localState store) remoteState le re selfIsRemote =
      adoptRemoteId localState remoteState le re selfIsRemote := by
  simp only [adoptRemoteId, contentStore_withContent, h]

theorem resolveUnrelated_withContent
    (h : store.get le.contentHash = localState.contentStore.get le.contentHash)
    (selfIsRemote : Bool) :
    resolveUnrelated P (withContent localState store) remoteState le re selfIsRemote =
      resolveUnrelated P localState remoteState le re selfIsRemote := by
  simp only [resolveUnrelated, adoptRemoteId_withContent h, contentStore_withContent, h]

theorem resolveCreateCollision_withContent
    (h : store.get le.contentHash = localState.contentStore.get le.contentHash)
    (selfIsRemote : Bool) :
    resolveCreateCollision P (withContent localState store) remoteState dag le re selfIsRemote =
      resolveCreateCollision P localState remoteState dag le re selfIsRemote := by
  simp only [resolveCreateCollision, adoptRemoteId_withContent h, resolveUnrelated_withContent h]

/-- What the remote side has is not looked for on ours. -/
theorem or_eq_of_isSome {hash : String} (h : (remoteState.contentStore.get hash).isSome = true)
    (x y : Option Bytes) : (remoteState.contentStore.get hash).or x =
      (remoteState.contentStore.get hash).or y := by
  obtain ⟨bytes, hbytes⟩ := Option.isSome_iff_exists.1 h
  rw [hbytes, Option.some_or, Option.some_or]

theorem resolveOpenConflict_withContent
    (h : (remoteState.contentStore.get re.contentHash).isSome = true) :
    resolveOpenConflict (withContent localState store) remoteState dag fileId le re =
      resolveOpenConflict localState remoteState dag fileId le re := by
  simp only [resolveOpenConflict, or_eq_of_isSome h ((withContent localState store).contentStore.get
    re.contentHash) (localState.contentStore.get re.contentHash)]

theorem resolveText_withContent {base : ThreeWayBase} {localText remoteText : Text}
    (hbase : ∀ hash, base.baseHash = some hash → store.get hash = localState.contentStore.get hash) :
    resolveText P (withContent localState store) remoteState fileId le re base localText remoteText =
      resolveText P localState remoteState fileId le re base localText remoteText := by
  have hancestor : base.baseHash.bind (fun hash =>
        ((withContent localState store).contentStore.get hash).or
          (remoteState.contentStore.get hash)) =
      base.baseHash.bind (fun hash =>
        (localState.contentStore.get hash).or (remoteState.contentStore.get hash)) := by
    cases h : base.baseHash with
    | none => rfl
    | some hash => rw [Option.bind_some, Option.bind_some, contentStore_withContent, hbase hash h]
  simp only [resolveText, hancestor]

theorem resolveDivergent_withContent
    (h : store.get le.contentHash = localState.contentStore.get le.contentHash)
    (hbase : ∀ hash, (resolveThreeWayBase le re dag).baseHash = some hash →
      store.get hash = localState.contentStore.get hash) :
    resolveDivergent P (withContent localState store) remoteState dag fileId le re =
      resolveDivergent P localState remoteState dag fileId le re := by
  simp only [resolveDivergent, resolveText_withContent hbase, contentStore_withContent, h]

theorem resolveContentConflict_withContent
    (h : store.get le.contentHash = localState.contentStore.get le.contentHash)
    (hremote : (remoteState.contentStore.get re.contentHash).isSome = true)
    (hbase : ∀ hash, (resolveThreeWayBase le re dag).baseHash = some hash →
      store.get hash = localState.contentStore.get hash) :
    resolveContentConflict P (withContent localState store) remoteState dag fileId le re =
      resolveContentConflict P localState remoteState dag fileId le re := by
  simp only [resolveContentConflict, resolveOpenConflict_withContent hremote,
    resolveDivergent_withContent h hbase, or_eq_of_isSome hremote
      ((withContent localState store).contentStore.get re.contentHash)
      (localState.contentStore.get re.contentHash)]

theorem resolveSameContent_withContent
    (h : store.get le.contentHash = localState.contentStore.get le.contentHash) :
    resolveSameContent (withContent localState store) remoteState dag fileId le re =
      resolveSameContent localState remoteState dag fileId le re := by
  simp only [resolveSameContent, contentStore_withContent, h]

theorem resolveLocalDeleted_withContent
    (h : (remoteState.contentStore.get re.contentHash).isSome = true) :
    resolveLocalDeleted (withContent localState store) remoteState dag fileId le re =
      resolveLocalDeleted localState remoteState dag fileId le re := by
  simp only [resolveLocalDeleted, or_eq_of_isSome h ((withContent localState store).contentStore.get
    re.contentHash) (localState.contentStore.get re.contentHash)]

theorem resolveRemoteDeleted_withContent
    (h : store.get le.contentHash = localState.contentStore.get le.contentHash) :
    resolveRemoteDeleted (withContent localState store) remoteState dag fileId le re =
      resolveRemoteDeleted localState remoteState dag fileId le re := by
  simp only [resolveRemoteDeleted, contentStore_withContent, h]

/-- A file on which both sides agree is left alone, whatever is staged. -/
theorem resolveBoth_of_converged (h : converged le re = true) :
    resolveBoth P localState remoteState dag fileId le re = some (.noOp fileId) := by
  simp only [converged, Bool.and_eq_true, Bool.not_eq_true', decide_eq_true_eq] at h
  obtain ⟨⟨⟨⟨⟨hle, hre⟩, -⟩, hhead⟩, hhash⟩, hpath⟩ := h
  have hheads : le.head = re.head := by rw [FileEntry.head, FileEntry.head, hhead]
  rw [resolveBoth, hle, hre]
  simp only [hhash, if_true, resolveSameContent, hpath, ne_eq, not_true_eq_false, if_false, knownHeads,
    hheads]
  cases dag <;> cases re.head <;> simp

end Reads

section Staged

variable {held : String → Option Bytes} {hasStored : String → Bool}
  {localState remoteState : VaultState} {dag : VersionDag} {le re : FileEntry} {id hash : String}
  {hashes : List String}

theorem get_foldl_stageHash (store : JsMap String Bytes) :
    (hashes.foldl (stageHash held) store).get hash =
      (store.get hash).or (if hash ∈ hashes ∧ hash ≠ "" then held hash else none) := by
  induction hashes generalizing store with
  | nil => simp
  | cons first rest ih =>
      rw [List.foldl_cons, ih, stageHash]
      by_cases hstaged : first = "" ∨ store.has first = true
      · rw [if_pos hstaged]
        by_cases heq : hash = first
        · subst heq
          rcases hstaged with rfl | hhas
          · simp
          · obtain ⟨bytes, hbytes⟩ := Option.isSome_iff_exists.1 hhas
            simp only [hbytes, Option.some_or]
        · simp [heq]
      · rw [if_neg hstaged]
        rw [not_or] at hstaged
        cases hheld : held first with
        | none =>
            by_cases heq : hash = first
            · simp [heq, hheld]
            · simp [heq]
        | some bytes =>
            by_cases heq : hash = first
            · subst heq
              have hnone : store.get hash = none := by
                simpa [JsMap.has] using hstaged.2
              simp [hnone, hheld, hstaged.1]
            · simp [JsMap.get_set_ne _ _ (Ne.symm heq), heq]

/-- Two stagings differ at most in what the device holds and only one of them asked for. -/
theorem get_stageContent_eq {hashes' : List String}
    (h : hash = "" ∨ held hash = none ∨ hash ∈ hashes ∧ hash ∈ hashes') :
    (stageContent held localState hashes').contentStore.get hash =
      (stageContent held localState hashes).contentStore.get hash := by
  rw [stageContent, stageContent, contentStore_withContent, contentStore_withContent,
    get_foldl_stageHash, get_foldl_stageHash]
  rcases h with rfl | h | ⟨h, h'⟩
  · simp
  · simp [h]
  · simp [h, h']

/-- Every live remote file was fetched, or ours has the same content. -/
def Fetched (localState remoteState : VaultState) : Prop :=
  ∀ id re, remoteState.fileEntries.get id = some re → re.deleted = false →
    (remoteState.contentStore.get re.contentHash).isSome = true ∨
      ∃ le, localState.fileEntries.get id = some le ∧ le.deleted = false ∧
        le.contentHash = re.contentHash

/-- No other live remote file is where both sides agree that a file is. -/
def Unclaimed (localState remoteState : VaultState) : Prop :=
  ∀ id le re, localState.fileEntries.get id = some le → remoteState.fileEntries.get id = some re →
    converged le re = true → ∀ id' re', remoteState.fileEntries.get id' = some re' →
      re'.deleted = false → re'.path = le.path → id' = id

/-- What the device holds of a live file's history is also found before a gap. -/
def Unhidden (held : String → Option Bytes) (hasStored : String → Bool) (localState : VaultState)
    (dag : VersionDag) : Prop :=
  ∀ id le head, localState.fileEntries.get id = some le → le.deleted = false →
    le.head = some head → ∀ hash ∈ reachableContentHashes dag head unbounded,
      (held hash).isSome = true → hash ∈ reachableContentHashes dag head
        (storedOnly fun h => localState.contentStore.has h || hasStored h)

theorem mem_mergeScope_of_remote (hre : remoteState.fileEntries.get id = some re)
    (hle : localState.fileEntries.get id = some le) (h : converged le re = false) :
    id ∈ mergeScope localState remoteState := by
  refine List.mem_append_left _ (List.mem_filter.2 ⟨?_, ?_⟩)
  · exact (FileEntries.mem_keys_iff _).2 ⟨re, hre⟩
  · simp [namedByRemote, hle, hre, h]

theorem mem_remoteLivePaths (hre : remoteState.fileEntries.get id = some re)
    (hlive : re.deleted = false) : re.path ∈ remoteLivePaths remoteState := by
  refine List.mem_map_of_mem (List.mem_filter.2 ⟨?_, by simp [hlive]⟩)
  rw [FileEntries.mem_values_iff, FileEntries.get_id hre]
  exact hre

theorem mem_mergeScope_of_collides (hle : localState.fileEntries.get id = some le)
    (hlive : le.deleted = false) (hnone : remoteState.fileEntries.get id = none)
    (hpath : le.path ∈ remoteLivePaths remoteState) : id ∈ mergeScope localState remoteState := by
  have hne : (remoteLivePaths remoteState).isEmpty = false := by
    cases h : remoteLivePaths remoteState with
    | nil => simp [h] at hpath
    | cons _ _ => rfl
  rw [mergeScope, hne]
  refine List.mem_append_right _ (List.mem_filter.2 ⟨(FileEntries.mem_keys_iff _).2 ⟨le, hle⟩, ?_⟩)
  simp [collides, hle, hlive, hnone, hpath]

variable {ids : List String}

theorem mem_neededHashes (hid : id ∈ ids) (hle : localState.fileEntries.get id = some le)
    (hlive : le.deleted = false) (hne : le.contentHash ≠ "") :
    le.contentHash ∈ neededHashes localState ids dag hasStored := by
  refine List.mem_flatMap.2 ⟨id, hid, ?_⟩
  simp [hle, hlive, hne]

/-- The base of a merge is in the history of our head. -/
theorem mem_neededHashes_base (hwalk : Unhidden held hasStored localState dag) (hid : id ∈ ids)
    (hle : localState.fileEntries.get id = some le) (hlive : le.deleted = false)
    (hbase : (resolveThreeWayBase le re (some dag)).baseHash = some hash)
    (hheld : (held hash).isSome = true) : hash ∈ neededHashes localState ids dag hasStored := by
  obtain ⟨head, hhead, hhash⟩ : ∃ head, le.head = some head ∧
      hash ∈ reachableContentHashes dag head unbounded := by
    cases hl : le.head with
    | none => simp [resolveThreeWayBase, knownHeads, hl] at hbase
    | some localHead =>
        cases hr : re.head with
        | none => simp [resolveThreeWayBase, knownHeads, hr] at hbase
        | some remoteHead =>
            refine ⟨localHead, rfl, mem_unbounded_iff.2 ?_⟩
            cases hmb : mergeBase dag localHead remoteHead with
            | none => simp [resolveThreeWayBase, knownHeads, hl, hr, hmb] at hbase
            | multipleBases => simp [resolveThreeWayBase, knownHeads, hl, hr, hmb] at hbase
            | base mb =>
                simp only [resolveThreeWayBase, knownHeads, hl, hr, hmb] at hbase
                exact ⟨mb, ((mergeBase_eq_base_iff.1 hmb mb).2 rfl).1.1, hbase⟩
  refine List.mem_flatMap.2 ⟨id, hid, ?_⟩
  simp only [hle, hlive, hhead, Bool.false_eq_true, if_false]
  exact List.mem_append_right _ (hwalk id le head hle hlive hhead hash hhash hheld)

end Staged

section Scope

/-- Two stagings of one state have the same of all that the merge of the files in scope reads. -/
structure AgreeInScope (localState remoteState : VaultState) (dag : VersionDag)
    (store : JsMap String Bytes) : Prop where
  content : ∀ id ∈ mergeScope localState remoteState, ∀ le,
    localState.fileEntries.get id = some le → le.deleted = false →
      store.get le.contentHash = localState.contentStore.get le.contentHash
  base : ∀ id ∈ mergeScope localState remoteState, ∀ le re,
    localState.fileEntries.get id = some le → le.deleted = false →
      ∀ hash, (resolveThreeWayBase le re (some dag)).baseHash = some hash →
        store.get hash = localState.contentStore.get hash

variable {P : Platform} {localState remoteState : VaultState} {dag : VersionDag}
  {store : JsMap String Bytes} {le re : FileEntry} {id fileId : String}

/-- A file of ours where a live remote one wants to be is in scope. -/
theorem mem_mergeScope_of_path (hunclaimed : Unclaimed localState remoteState)
    (hle : localState.fileEntries.get id = some le) (hlive : le.deleted = false)
    (hre : remoteState.fileEntries.get fileId = some re) (hrlive : re.deleted = false)
    (hpath : re.path = le.path) (hne : fileId ≠ id) : id ∈ mergeScope localState remoteState := by
  cases h : remoteState.fileEntries.get id with
  | none =>
      exact mem_mergeScope_of_collides hle hlive h (hpath ▸ mem_remoteLivePaths hre hrlive)
  | some re' =>
      refine mem_mergeScope_of_remote h hle (Bool.eq_false_iff.2 fun hconv => ?_)
      exact hne (hunclaimed id le re' hle h hconv fileId re hre hrlive hpath)

theorem resolveRemoteOnly_withContent (h : AgreeInScope localState remoteState dag store)
    (hunclaimed : Unclaimed localState remoteState)
    (hre : remoteState.fileEntries.get fileId = some re) :
    resolveRemoteOnly P (withContent localState store) remoteState (some dag)
        (liveByPath localState) fileId re =
      resolveRemoteOnly P localState remoteState (some dag) (liveByPath localState) fileId re := by
  rw [resolveRemoteOnly, resolveRemoteOnly, fileEntries_withContent]
  by_cases hdeleted : re.deleted = true
  · rw [if_pos hdeleted, if_pos hdeleted]
  rw [if_neg hdeleted, if_neg hdeleted]
  cases hholder : ((liveByPath localState).get re.path).bind
      (fun id => if id = fileId then none else localState.fileEntries.get id) with
  | none => rfl
  | some le =>
      obtain ⟨id, hid, hle⟩ := Option.bind_eq_some_iff.1 hholder
      by_cases heq : id = fileId
      · simp [heq] at hle
      rw [if_neg heq] at hle
      obtain ⟨le', hle', hlive, hpath⟩ := live_of_liveByPath hid
      obtain rfl := Option.some.inj (hle.symm.trans hle')
      have hscope := mem_mergeScope_of_path hunclaimed hle hlive hre
        (Bool.eq_false_iff.2 hdeleted) hpath.symm (Ne.symm heq)
      exact resolveCreateCollision_withContent (h.content id hscope le hle hlive) true

theorem resolveLocalOnly_withContent (h : AgreeInScope localState remoteState dag store)
    (hle : localState.fileEntries.get fileId = some le)
    (hnone : remoteState.fileEntries.get fileId = none) :
    resolveLocalOnly P (withContent localState store) remoteState (some dag)
        (liveByPath remoteState) fileId le =
      resolveLocalOnly P localState remoteState (some dag) (liveByPath remoteState) fileId le := by
  rw [resolveLocalOnly, resolveLocalOnly]
  by_cases hdeleted : le.deleted = true
  · rw [if_pos hdeleted, if_pos hdeleted]
  rw [if_neg hdeleted, if_neg hdeleted]
  have hlive := Bool.eq_false_iff.2 hdeleted
  cases hholder : ((liveByPath remoteState).get le.path).bind
      (fun id => if id = fileId then none else remoteState.fileEntries.get id) with
  | none => rfl
  | some re =>
      obtain ⟨id, hid, -⟩ := Option.bind_eq_some_iff.1 hholder
      obtain ⟨re', hre', hrlive, hpath⟩ := live_of_liveByPath hid
      have hscope := mem_mergeScope_of_collides hle hlive hnone
        (hpath ▸ mem_remoteLivePaths hre' hrlive)
      exact resolveCreateCollision_withContent (h.content fileId hscope le hle hlive) false

theorem resolveBoth_withContent (h : AgreeInScope localState remoteState dag store)
    (hfetched : Fetched localState remoteState)
    (hle : localState.fileEntries.get fileId = some le)
    (hre : remoteState.fileEntries.get fileId = some re) :
    resolveBoth P (withContent localState store) remoteState (some dag) fileId le re =
      resolveBoth P localState remoteState (some dag) fileId le re := by
  by_cases hconv : converged le re = true
  · rw [resolveBoth_of_converged hconv, resolveBoth_of_converged hconv]
  have hscope := mem_mergeScope_of_remote hre hle (Bool.eq_false_iff.2 hconv)
  have hhas : ∀ {le'}, localState.fileEntries.get fileId = some le' → re.deleted = false →
      (le'.deleted = false → le'.contentHash ≠ re.contentHash) →
        (remoteState.contentStore.get re.contentHash).isSome = true := by
    intro le' hle' hrlive hdiffer
    rcases hfetched fileId re hre hrlive with hhas | ⟨le'', hle'', hlive, heq⟩
    · exact hhas
    · obtain rfl := Option.some.inj (hle'.symm.trans hle'')
      exact absurd heq (hdiffer hlive)
  rw [resolveBoth, resolveBoth]
  cases hl : le.deleted with
  | true =>
      cases hr : re.deleted with
      | true => rfl
      | false =>
          have hbytes := hhas hle hr (by simp [hl])
          exact congrArg some (resolveLocalDeleted_withContent hbytes)
  | false =>
      have hcontent := h.content fileId hscope le hle hl
      cases hr : re.deleted with
      | true => exact congrArg some (resolveRemoteDeleted_withContent hcontent)
      | false =>
          by_cases heq : le.contentHash = re.contentHash
          · simp only [if_pos heq, resolveSameContent_withContent hcontent]
          · simp only [if_neg heq]
            exact resolveContentConflict_withContent hcontent (hhas hle hr fun _ => heq)
              (h.base fileId hscope le re hle hl)

theorem actionFor_withContent (h : AgreeInScope localState remoteState dag store)
    (hunclaimed : Unclaimed localState remoteState) (hfetched : Fetched localState remoteState) :
    actionFor P (withContent localState store) remoteState (some dag) =
      actionFor P localState remoteState (some dag) := by
  funext fileId
  rw [actionFor, actionFor, fileEntries_withContent]
  cases hle : localState.fileEntries.get fileId with
  | none =>
      cases hre : remoteState.fileEntries.get fileId with
      | none => rfl
      | some re => exact congrArg some (resolveRemoteOnly_withContent h hunclaimed hre)
  | some le =>
      cases hre : remoteState.fileEntries.get fileId with
      | none => exact congrArg some (resolveLocalOnly_withContent h hle hre)
      | some re => exact resolveBoth_withContent h hfetched hle hre

/-- Staging only what `stageMergeContent` asks for, the merge does what it does with more, or all,
of the device's content staged. -/
theorem scoped_merge_agrees (P : Platform) {held : String → Option Bytes}
    {hasStored : String → Bool} {hashes : List String}
    (hwalk : Unhidden held hasStored localState dag)
    (hunclaimed : Unclaimed localState remoteState) (hfetched : Fetched localState remoteState)
    (hall : neededHashes localState (mergeScope localState remoteState) dag hasStored ⊆ hashes) :
    mergeVaultStates P (stageContent held localState hashes) remoteState (some dag) =
      mergeVaultStates P (stageContent held localState
        (neededHashes localState (mergeScope localState remoteState) dag hasStored))
          remoteState (some dag) := by
  let needed := neededHashes localState (mergeScope localState remoteState) dag hasStored
  have hagree : AgreeInScope (stageContent held localState needed) remoteState dag
      (stageContent held localState hashes).contentStore := by
    constructor
    · intro id hid le hle hlive
      apply get_stageContent_eq
      by_cases hne : le.contentHash = ""
      · exact Or.inl hne
      · have hmem : le.contentHash ∈ needed := mem_neededHashes hid hle hlive hne
        exact Or.inr (Or.inr ⟨hmem, hall hmem⟩)
    · intro id hid le re hle hlive hash hbase
      apply get_stageContent_eq
      cases hheld : held hash with
      | none => exact Or.inr (Or.inl rfl)
      | some bytes =>
          have hmem : hash ∈ needed :=
            mem_neededHashes_base hwalk hid hle hlive hbase (by rw [hheld]; rfl)
          exact Or.inr (Or.inr ⟨hmem, hall hmem⟩)
  have hactions := actionFor_withContent (P := P) hagree hunclaimed hfetched
  exact congrArg (fun f => ((allIds localState remoteState).mapM f).map
    (fun actions => (⟨actions, Hlc.hlcMax localState.hlc remoteState.hlc⟩ : StateMergeResult)))
      hactions

/-- Both sides edited `f`; on `g` they agree. -/
def bothEdited : VersionDag :=
  addVersion (addVersion (addVersion (addVersion .empty "v0" [] "A" "f") "v1" ["v0"] "B" "f")
    "v2" ["v0"] "C" "f") "v3" [] "G" "g"

def agreedOn : FileEntry := { fileAt "g" "m.md" "G" 1 with headVersionId := some "v3" }

def editedHere : VaultState :=
  stateOf [{ fileAt "f" "n.md" "B" 2 with headVersionId := some "v1" }, agreedOn] []

def editedThere : VaultState :=
  stateOf [{ fileAt "f" "n.md" "C" 3 with headVersionId := some "v2" }, agreedOn] [("C", [67])]

def onDevice : JsMap String Bytes := JsMap.ofList [("A", [65]), ("B", [66]), ("G", [71])]

/-- What holds of the files of both sides holds of the entries under their ids. -/
theorem forall_values {state : VaultState} {p : FileEntry → Prop}
    (h : ∀ e ∈ state.fileEntries.values, p e) (id : String) (e : FileEntry)
    (he : state.fileEntries.get id = some e) : p e :=
  h e ((FileEntries.mem_values_iff _).2 ((FileEntries.get_id he).symm ▸ he))

theorem scoped_merge_agrees_bothEdited :
    mergeVaultStates asciiPlatform (stageContent onDevice.get editedHere ["A", "B", "C", "G"])
        editedThere (some bothEdited) =
      mergeVaultStates asciiPlatform (stageContent onDevice.get editedHere
        (neededHashes editedHere (mergeScope editedHere editedThere) bothEdited onDevice.has))
          editedThere (some bothEdited) := by
  refine scoped_merge_agrees asciiPlatform ?_ ?_ ?_ (by decide)
  · intro id le head hle hlive hhead
    exact forall_values (p := fun le => ∀ head ∈ le.head,
      ∀ hash ∈ reachableContentHashes bothEdited head unbounded, (onDevice.get hash).isSome = true →
        hash ∈ reachableContentHashes bothEdited head
          (storedOnly fun h => editedHere.contentStore.has h || onDevice.has h)) (by decide) id le hle
            head hhead
  · intro id le re hle hre hconv id' re' hre' hlive hpath
    have hsame := forall_values (p := fun le => ∀ re ∈ editedThere.fileEntries.values,
      le.path = re.path → re.id = le.id) (by decide) id le hle re'
        ((FileEntries.mem_values_iff _).2 ((FileEntries.get_id hre').symm ▸ hre')) hpath.symm
    rw [← FileEntries.get_id hre', hsame, FileEntries.get_id hle]
  · intro id re hre hlive
    have hcases := forall_values (p := fun re =>
      (editedThere.contentStore.get re.contentHash).isSome = true ∨
        ∃ le ∈ editedHere.fileEntries.values, le.id = re.id ∧ le.deleted = false ∧
          le.contentHash = re.contentHash) (by decide) id re hre
    refine hcases.imp_right fun ⟨le, hle, heq, hlive, hhash⟩ => ⟨le, ?_, hlive, hhash⟩
    rw [← FileEntries.get_id hre, ← heq]
    exact (FileEntries.mem_values_iff _).1 hle

/-- A third device made another file where the agreed one is. -/
def claimedThere : VaultState :=
  stateOf [agreedOn, fileAt "h" "m.md" "H" 2] [("H", [72])]

/-- The staged merge then says nothing of the new file, for want of our bytes. -/
example :
    mergeVaultStates asciiPlatform (stageContent onDevice.get editedHere
        (neededHashes editedHere (mergeScope editedHere claimedThere) bothEdited onDevice.has))
          claimedThere (some bothEdited) =
      some ⟨[.sendRemote "f" "n.md" ⟨2, 0, "a"⟩, .noOp "g", .noOp "h"], ⟨0, 0, "a"⟩⟩ := by decide

/-- With them it tells the user. -/
example :
    (actionFor asciiPlatform (stageContent onDevice.get editedHere ["G"]) claimedThere
      (some bothEdited) "h").any MergeAction.affectsLocalVault = true := by decide

end Scope

end OpsBlobs.ScopedStaging
