import OpsBlobs.RemoteBlobs

namespace OpsBlobs.HeadSweep

open Types Coroutine GhostCode WriteEffects Promises Hlc CodeUnits VersionDag VersionSweep
open StateMerge Operations SyncApplicator Encryption SyncServer ServerApi ServerPull BlobDownload ScopedStaging
open SyncHost

/-- The files that a peer touched. -/
def touchedFiles (pulled : List PulledOp) (ownDeviceId : String) : List String :=
  pulled.foldl (fun touched p =>
    if p.op.hlcTimestamp.deviceId ≠ ownDeviceId then addOnce touched p.op.fileId else touched) []

def opById (pulled : List PulledOp) : JsMap String Operation :=
  pulled.foldl (fun ops p => ops.set p.op.id p.op) .empty

/-- What the sweep has tried so far, what it could not get, which actions failed, and whether this
pass has folded a leaf; `last`, which the code does not keep, is the pass's graph and snapshot. -/
structure Sweep where
  attempted : List String
  missingContent : List String
  failures : List ApplyFailure
  folded : Bool
  last : Option (VersionDag × VaultState)

def attemptKey (fileId leafId : String) : String := fileId ++ "\x00" ++ leafId

/-- The file alone, without anything pending. -/
def singleFileState (localState : VaultState) (le : FileEntry) : VaultState where
  deviceId := localState.deviceId
  hlc := localState.hlc
  fileEntries := FileEntries.empty.set le
  pendingOps := []
  contentStore := localState.contentStore

def leafEntry (op : Operation) (leafId leafHash : String) : FileEntry where
  id := op.fileId
  path := op.path
  contentHash := leafHash
  hlcTimestamp := op.hlcTimestamp
  deleted := false
  lastSyncedPath := none
  headVersionId := some leafId
  conflictParents := none
  mtime := none
  size := none

/-- One leaf as a remote side of its own. -/
def leafRemoteState (op : Operation) (leafId leafHash : String) (bytes : Bytes) : VaultState where
  deviceId := "server"
  hlc := op.hlcTimestamp
  fileEntries := FileEntries.empty.set (leafEntry op leafId leafHash)
  pendingOps := []
  contentStore := JsMap.empty.set leafHash bytes

/-- The open leaves of the file that our head does not descend from. -/
def extraLeaves (dag : VersionDag) (leaves : JsMap String (List String)) (fileId localHead : String) :
    List String :=
  sortStrings (((leaves.get fileId).getD []).filter fun v =>
    v ≠ localHead && !isAncestor dag v localHead)

/-- The op of a leaf that may be folded: live, pulled, with a base in common, and not tried. -/
def foldable (dag : VersionDag) (ops : JsMap String Operation) (attempted : List String)
    (fileId localHead leafId : String) : Option Operation :=
  if attemptKey fileId leafId ∈ attempted then none
  else
    (ops.get leafId).filter fun op =>
      op.type ≠ .delete && mergeBase dag localHead leafId ≠ .none

def firstFoldable (dag : VersionDag) (ops : JsMap String Operation) (attempted : List String)
    (fileId localHead : String) (extras : List String) : Option (String × Operation) :=
  extras.findSome? fun leafId =>
    (foldable dag ops attempted fileId localHead leafId).map (leafId, ·)

def leafHashOf (dag : VersionDag) (op : Operation) (leafId : String) : String :=
  (contentHashOf dag leafId).getD op.contentHash

section Sweeping

variable (W : WebCrypto) (C : VaultCrypto) (P : Platform)

def advanceClock (hlc : Hlc) : Session Unit :=
  modify fun s => (s.1, { s.2 with
    clock := HlcSession.setCurrent s.2.clock (hlcMax s.2.clock hlc) })

def leafBytes (localState : VaultState) (leafHash : String) : Session (Option Bytes) :=
  match localState.contentStore.get leafHash with
  | some bytes => pure (some bytes)
  | none => lift (fetchBlob W C leafHash)

/-- The pairwise merge of our head with one leaf, and its application. -/
def foldLeaf (dag : VersionDag) (localState : VaultState) (le : FileEntry) (leafId : String)
    (op : Operation) (sweep : Sweep) : Session Sweep := do
  let leafHash := leafHashOf dag op leafId
  match ← leafBytes W C localState leafHash with
  | none => pure { sweep with missingContent := addOnce sweep.missingContent leafHash }
  | some bytes =>
      let localOne := singleFileState localState le
      let remoteOne := leafRemoteState op leafId leafHash bytes
      match mergeVaultStates P localOne remoteOne (some dag) with
      | none => throw (.other "mergeVaultStates")
      | some merge => do
          advanceClock merge.mergedHlc
          let report ← applyMerge ⟨localOne, remoteOne, dag, merge.actions⟩
          pure { sweep with failures := sweep.failures ++ report.failures, folded := true }

def foldFile (dag : VersionDag) (ops : JsMap String Operation) (deferred : List String)
    (localState : VaultState) (sweep : Sweep) (fileId : String) : Session Sweep :=
  if fileId ∈ deferred then pure sweep
  else
    match (localState.fileEntries.get fileId).filter (!·.deleted) with
    | none => pure sweep
    | some le =>
        match le.head with
        | none => pure sweep
        | some localHead =>
            match firstFoldable dag ops sweep.attempted fileId localHead
                (extraLeaves dag (VersionRecords.leavesByFile dag) fileId localHead) with
            | none => pure sweep
            | some (leafId, op) =>
                foldLeaf W C P dag localState le leafId op
                  { sweep with attempted := sweep.attempted ++ [attemptKey fileId leafId] }

/-- One pass over the touched files, on a fresh snapshot of them. -/
def sweepPass (touched : List String) (ops : JsMap String Operation) (deferred : List String)
    (dag : VersionDag) (sweep : Sweep) : Session (VersionDag × Sweep) := do
  let localState ← ask id (·.buildLocalIdentity dag)
  let dag ← recordVersionEdges localState.pendingOps dag
  let s ← get
  let staged ← stageContent localState
    (neededHashes localState touched dag s.2.host.hasStoredContent)
  let sweep ← foldM (foldFile W C P dag ops deferred staged)
    { sweep with folded := false, last := some (dag, localState) } (sortStrings touched)
  pure (dag, sweep)

def sweepPasses (touched : List String) (ops : JsMap String Operation) (deferred : List String) :
    Nat → VersionDag → Sweep → Session Sweep
  | 0, _, sweep => pure sweep
  | maxFolds + 1, dag, sweep => do
      let r ← sweepPass W C P touched ops deferred dag sweep
      if r.2.folded then sweepPasses touched ops deferred maxFolds r.1 r.2
      else pure r.2

/-- The heads of a file that the projection left out, each folded into ours. -/
def reconcileConcurrentHeads (pulled : List PulledOp) (dag : VersionDag) (ownDeviceId : String)
    (missingContent deferred : List String) (failures : List ApplyFailure) : Session Sweep :=
  let touched := touchedFiles pulled ownDeviceId
  let sweep := ⟨[], missingContent, failures, false, none⟩
  if touched.all fun fileId =>
      decide ((((VersionRecords.leavesByFile dag).get fileId).getD []).length < 2) then
    pure sweep
  else
    sweepPasses W C P touched (opById pulled) deferred (pulled.length + touched.length + 1) dag sweep

end Sweeping

end OpsBlobs.HeadSweep
