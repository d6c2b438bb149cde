import OpsBlobs.ConflictDecisions
import OpsBlobs.HeadSweep
import OpsBlobs.OpPush

namespace OpsBlobs.SyncRound

open Types Coroutine GhostCode WriteEffects Promises VersionDag StateMerge SyncApplicator Encryption
open SyncServer ServerApi ServerPull RemoteProjection OpPush BlobDownload ScopedStaging SyncHost
open RemoteBlobs HeadSweep

def DEFAULT_PREFLIGHT_RETRY_DELAYS_MS : List Nat := [0, 500, 1000]

def DEFAULT_OPS_LIMIT : Nat := 2000

def DEFAULT_BLOB_DOWNLOAD_CONCURRENCY : Nat := 8

/-- The options of a client; a pull is followed for so many `pages`. -/
structure SyncOptions where
  limits : UploadLimits
  opsLimit : Nat
  pages : Nat
  blobDownloadConcurrency : Nat
  preflightRetryDelaysMs : List Nat
  concurrency_pos : 0 < blobDownloadConcurrency
  delays_ne_nil : preflightRetryDelaysMs ≠ []

/-- An empty schedule would mean never to try, so it is the default instead. -/
def retryDelays : Option (List Nat) → List Nat
  | none => DEFAULT_PREFLIGHT_RETRY_DELAYS_MS
  | some [] => DEFAULT_PREFLIGHT_RETRY_DELAYS_MS
  | some (waitMs :: delays) => waitMs :: delays

theorem retryDelays_ne_nil (delays : Option (List Nat)) : retryDelays delays ≠ [] := by
  rcases delays with - | - | ⟨waitMs, delays⟩ <;> exact List.cons_ne_nil _ _

def SyncOptions.ofOptions (limits : UploadLimits) (pages : Nat)
    (opsLimit blobDownloadConcurrency : Option Nat) (delays : Option (List Nat)) : SyncOptions where
  limits := limits
  opsLimit := opsLimit.getD DEFAULT_OPS_LIMIT
  pages := pages
  blobDownloadConcurrency :=
    max 1 (blobDownloadConcurrency.getD DEFAULT_BLOB_DOWNLOAD_CONCURRENCY)
  preflightRetryDelaysMs := retryDelays delays
  concurrency_pos := Nat.le_max_left 1 _
  delays_ne_nil := retryDelays_ne_nil delays

section Preflight

variable (W : WebCrypto) (C : VaultCrypto)

def sleep (waitMs : Nat) : Round Unit := if waitMs > 0 then pause else pure ()

/-- Only a failure of the link is tried again. -/
def preflightWithRetry (keyCheckKey : String) : List Nat → SyncError → Round Preflight
  | [], lastError => throw lastError
  | waitMs :: delays, _ => do
      throwIfCancelled
      sleep waitMs
      let answer ← tryCatch (do
          let answer ← preflight keyCheckKey
          pure (Except.ok answer))
        fun e => if e.isTransientLinkError then pure (Except.error e) else throw e
      match answer with
      | .ok answer => pure answer
      | .error e => preflightWithRetry keyCheckKey delays e

/-- Whether the vault has no key-check record yet; one that is not ours ends the round. -/
def keyCheckAbsent (delays : List Nat) : Round Bool := do
  pause
  let answer ← preflightWithRetry (keyCheckBlobKey W) delays (.other "undefined")
  match answer.keyCheck with
  | none => pure true
  | some record => do
      let ours ← verifyKeyCheck W C record
      if ours then pure false else throw .keyMismatch

def claimKeyCheck (absent : Bool) : Round Unit :=
  if absent then do
    let record ← buildKeyCheck W C
    putBlob (keyCheckBlobKey W) record
  else pure ()

end Preflight

section Phases

variable (W : WebCrypto) (P : Platform) (O : SyncOptions) (C : VaultCrypto)

/-- The graph, and the cursor set back if the graph was lost. -/
def guardDag : Session VersionDag := do
  let dag ← ask id Host.loadDag
  let lost ← dagNeedsRebuild dag
  if lost then do
    saveCursor 0 id
    pure dag
  else pure dag

def pendingContent (ops : List Operation) : List String :=
  ops.foldl (fun hashes op =>
    if op.type ≠ .delete && op.contentHash ≠ "" then addOnce hashes op.contentHash else hashes) []

/-- Push what is pending, then clear it. -/
def pushPending (localState : VaultState) (startCursor : Nat) : Session VaultState :=
  if localState.pendingOps.isEmpty then pure localState
  else do
    let staged ← stageContent localState (pendingContent localState.pendingOps)
    lift (pushPendingOps W C O.limits O.opsLimit O.pages staged.contentStore staged.pendingOps
      startCursor)
    ask (fun d => { d with pushed := d.pushed ++
      staged.pendingOps.map fun op => (op, contentOf staged.contentStore op) }) Host.clearPendingOps
    pure staged

/-- The merge over the content it needs, given to the vault to apply. -/
def mergeAndApply (localState remoteState : VaultState) (dag : VersionDag) :
    Session (Handed × ApplyReport) := do
  let s ← get
  let staged ← stageContent localState
    (neededHashes localState (mergeScope localState remoteState) dag s.2.host.hasStoredContent)
  match mergeVaultStates P staged remoteState (some dag) with
  | none => throw (.other "mergeVaultStates")
  | some merge => do
      setCurrent merge.mergedHlc
      let report ← applyMerge ⟨staged, remoteState, dag, merge.actions⟩
      pure (⟨staged, remoteState, dag, merge.actions⟩, report)

/-- From the push on; nothing after it asks whether the user has cancelled. -/
def settle (localState remoteState : VaultState) (dag : VersionDag) (startCursor : Nat)
    (pulled : List PulledOp) (pulledCursor : Nat) (missing : List String) :
    Session ConflictDecisions.SyncRoundSummary := do
  let localState ← pushPending W O C localState startCursor
  let dag ← recordVersionEdges (localState.pendingOps ++ pulled.map PulledOp.op) dag
  let merged ← mergeAndApply P localState remoteState dag
  let sweep ← reconcileConcurrentHeads W C P pulled dag localState.deviceId missing
    merged.2.deferred merged.2.failures
  let report : RoundReport :=
    ⟨⟨pulled, pulledCursor, sweep.missingContent, !merged.2.deferred.isEmpty⟩, merged.1⟩
  saveCursor (report.saved startCursor) fun d => { d with rounds := d.rounds ++ [report] }
  pure ⟨localState.pendingOps.length, pulled.length, merged.2.deferred, sweep.missingContent,
    merged.2.deferredConflicts, sweep.failures⟩

/-- A round of a device, which has its key or not. -/
def runSync : Option VaultCrypto → Session ConflictDecisions.SyncRoundSummary
  | none => throw (.other "Vault key not derived")
  | some C => do
      lift throwIfCancelled
      let absent ← lift (keyCheckAbsent W C O.preflightRetryDelaysMs)
      let dag ← guardDag
      lift throwIfCancelled
      let localState ← ask id (·.buildLocalIdentity dag)
      let startCursor ← loadCursor
      let pull ← lift (pullAll W C O.opsLimit O.pages startCursor)
      lift throwIfCancelled
      let remoteState := reconstructRemoteState (pull.1.map PulledOp.op) (some localState.deviceId)
      let fetched ← fetchRemoteBlobs W C O.limits.blobBatchMaxCount O.blobDownloadConcurrency
        remoteState localState
      lift throwIfCancelled
      lift (claimKeyCheck W C (absent && (!pull.1.isEmpty || !localState.pendingOps.isEmpty)))
      lift throwIfCancelled
      settle W P O C localState fetched.1 dag startCursor pull.1 pull.2 fetched.2

/-- Rounds one after the other, each as it may end. -/
def rounds (crypto : Option VaultCrypto) : Nat → Session Unit
  | 0 => pure ()
  | n + 1 => do
      tryCatch (do
        let _ ← runSync W P O crypto
        pure ()) fun _ => pure ()
      pause
      rounds crypto n

end Phases

section Gate

variable {W : WebCrypto} {C : VaultCrypto} {H : Request → Prop} {s : Net} {I : Net → Prop}

theorem throwIfCancelled_spec {R G : Net → Net → Prop} :
    wp R G throwIfCancelled (ends (fun _ s' => s' = s) fun e s' => e = .cancelled ∧ s' = s) s := by
  change wp R G (if s.cancelled = true then throw .cancelled else pure () : Round Unit) _ s
  split
  · exact ⟨rfl, rfl⟩
  · rfl

theorem sleep_spec {G : Net → Net → Prop} (hR : ∀ s s', Traffic H s s' → I s → I s') (hI : I s)
    (waitMs : Nat) :
    wp (Traffic H) G (sleep waitMs) (ends (fun _ s' => I s') fun _ _ => False) s := by
  rw [sleep]
  split
  · exact fun s' hs _ => hR s s' hs hI
  · exact hI

/-- However often it asks, the gate sends nothing but preflights, and its answer is the server's. -/
theorem preflightWithRetry_spec (hR : ∀ s s', Traffic H s s' → I s → I s') (hI : I s)
    (keyCheckKey : String) (delays : List Nat) (lastError : SyncError) :
    wp (Traffic H) (Sending (· = .preflight)) (preflightWithRetry keyCheckKey delays lastError)
      (ends (fun p _ => ∃ n, I n ∧ p = n.server.preflight keyCheckKey)
        (fun e _ => e = .cancelled ∨ FromLink e ∨ delays = [] ∧ e = lastError)) s := by
  induction delays generalizing lastError s with
  | nil => exact Or.inr (Or.inr ⟨rfl, rfl⟩)
  | cons waitMs delays ih =>
      refine wp_throwIfCancelled (Or.inl rfl) (wp_bind.2 (wp_mono ?_ (sleep_spec hR hI waitMs)))
      rintro (e | u) s₁ h₁
      · exact h₁.elim
      have hserved : wp (Traffic H) (Sending (· = .preflight)) (preflight keyCheckKey)
          (ends (fun p _ => ∃ n, I n ∧ p = n.server.preflight keyCheckKey)
            (fun e s' => I s' ∧ FromLink e)) s₁ := by
        refine wp_call (sending_deliver rfl)
          (fun s₂ hs₂ fault _ => ⟨hR _ _ hs₂ h₁, _, fault, rfl⟩) fun s₂ s₃ hs₂ hs₃ => ?_
        have h₂ := hR _ _ hs₂ h₁
        exact ⟨⟨s₂, h₂, rfl⟩, fun fault _ => ⟨hR _ _ hs₃ h₂, _, fault, rfl⟩⟩
      refine wp_bind.2 (wp_tryCatch.2 (wp_bind.2 (wp_mono ?_ hserved)))
      rintro (e | p) s₂ h₂
      · change wp _ _ (if e.isTransientLinkError = true then pure (Except.error e) else throw e :
          Round _) _ s₂
        split
        · change wp _ _ (preflightWithRetry keyCheckKey delays e) _ s₂
          refine wp_mono ?_ (ih h₂.1 e)
          rintro (e' | p) s₃ h₃
          · refine h₃.imp_right fun hlink => Or.inl (hlink.elim id ?_)
            rintro ⟨-, rfl⟩
            exact h₂.2
          · exact h₃
        · exact Or.inr (Or.inl h₂.2)
      · exact h₂

/-- The gate lets only a key through that reproduces the record, where the server gives one. -/
theorem keyCheckAbsent_spec (hR : ∀ s s', Traffic H s s' → I s → I s') (hI : I s)
    (delays : List Nat) :
    wp (Traffic H) (Sending (· = .preflight)) (keyCheckAbsent W C delays)
      (ends (fun _ _ => ∃ n, I n ∧ ∀ record,
          (n.server.preflight (keyCheckBlobKey W)).keyCheck = some record →
            C.verifyKeyCheck W record = true)
        (fun e _ => e = .cancelled ∨ FromLink e ∨ e = .keyMismatch ∨ delays = [])) s := by
  refine wp_pause.2 fun s₁ hs₁ => wp_bind.2 (wp_mono ?_
    (preflightWithRetry_spec hR (hR _ _ hs₁ hI) _ _ _))
  rintro (e | p) s₂ hp
  · exact hp.imp_right fun h => h.imp_right fun hnone => Or.inr hnone.1
  obtain ⟨n, hn, rfl⟩ := hp
  simp only [andThen]
  split
  · rename_i hnone
    refine ⟨n, hn, fun record hrecord => ?_⟩
    rw [hnone] at hrecord
    cases hrecord
  · rename_i record hrecord
    refine wp_bind.2 (wp_pause.2 fun s₃ _ => ?_)
    change wp _ _ (if C.verifyKeyCheck W record = true then pure false else throw .keyMismatch :
      Round Bool) _ s₃
    split
    · rename_i hours
      refine ⟨n, hn, fun record' hrecord' => ?_⟩
      rw [hrecord, Option.some_inj] at hrecord'
      rwa [← hrecord']
    · exact Or.inr (Or.inr (Or.inl rfl))

theorem claimKeyCheck_spec (absent : Bool) :
    wp (Traffic H) (Sending fun r => ∃ nonce : Nonce,
        r = .putBlob (keyCheckBlobKey W) (C.buildKeyCheck W nonce.bytes))
      (claimKeyCheck W C absent) (fun _ _ => True) s := by
  rw [claimKeyCheck]
  split
  · exact wp_bind.2 fun s₁ _ _ => wp_call (sending_deliver ⟨s.nonce, rfl⟩) (fun _ _ _ _ => trivial)
      fun _ _ _ _ => ⟨trivial, fun _ _ => trivial⟩
  · trivial

end Gate

section WrongKey

variable {W : WebCrypto} {P : Platform} {C : VaultCrypto} {O : SyncOptions} {H : Request → Prop}
  {Proper : Host → Prop} {s : Net × Desk} {record : Bytes}

/-- The server answers a preflight with this record. -/
structure Stamped (W : WebCrypto) (record : Bytes) (n : Net) : Prop where
  claimed : n.server.claimed = true
  record : n.server.blobs.get (keyCheckBlobKey W) = some record

theorem Stamped.traffic {n n' : Net} (ht : Traffic H n n') (h : Stamped W record n) :
    Stamped W record n' :=
  ⟨(kept_of_traffic ht).claimed h.claimed, (kept_of_traffic ht).blobs _ _ h.record⟩

theorem Stamped.preflight {n : Net} (h : Stamped W record n) (hkey : keyCheckBlobKey W ≠ "")
    (hsize : record.length ≤ KEYCHECK_INLINE_CAP) :
    (n.server.preflight (keyCheckBlobKey W)).keyCheck = some record := by
  simp [FakeSyncServer.preflight, h.claimed, hkey, h.record, hsize]

/-- A device whose key does not reproduce the vault's record ends its round with nothing sent but
preflights, nothing asked of the vault and nothing written. -/
theorem wrong_key_stops (hstamped : Stamped W record s.1) (hkey : keyCheckBlobKey W ≠ "")
    (hsize : record.length ≤ KEYCHECK_INLINE_CAP) (hwrong : C.verifyKeyCheck W record = false) :
    wp (Around (Traffic H) Proper) (fun s s' => Sending (· = .preflight) s.1 s'.1 ∧ s'.2 = s.2)
      (runSync W P O (some C))
      (ends (fun _ _ => False) fun e _ => e = .cancelled ∨ FromLink e ∨ e = .keyMismatch) s := by
  refine wp_bind.2 (wp_mono ?_ (wp_network (fun _ _ _ h => ⟨h, rfl⟩) throwIfCancelled_spec))
  rintro (e | u) s₁ ⟨h₁, -⟩
  · exact Or.inl h₁.1
  refine wp_bind.2 (wp_mono ?_ (wp_network (fun _ _ _ h => ⟨h, rfl⟩)
    (keyCheckAbsent_spec (C := C) (fun _ _ ht h => h.traffic ht) (h₁.symm ▸ hstamped) _)))
  rintro (e | absent) s₂ ⟨h₂, -⟩
  · exact h₂.imp_right fun h => h.imp_right fun h => h.resolve_right O.delays_ne_nil
  obtain ⟨n, hn, hours⟩ := h₂
  have hverified := hours record (hn.preflight hkey hsize)
  rw [hwrong] at hverified
  cases hverified

def defaultOptions : SyncOptions :=
  .ofOptions (.ofOptions none none none none none) 100 none none none

/-- The record of a vault with another passphrase. -/
def otherRecord : Bytes :=
  (VaultCrypto.deriveFromPassphrase plainCrypto "other" [0]).buildKeyCheck plainCrypto
    (List.replicate GCM_NONCE_BYTES 0)

def stampedServer : FakeSyncServer := twoOpsServer.putBlob (keyCheckBlobKey plainCrypto) otherRecord

theorem stamped_otherRecord : Stamped plainCrypto otherRecord (.quiet stampedServer) :=
  ⟨by decide +kernel, by decide +kernel⟩

theorem wrong_key_stops_otherRecord :
    wp (Around (Traffic fun _ => True) fun _ => True)
      (fun s s' => Sending (· = .preflight) s.1 s'.1 ∧ s'.2 = s.2)
      (runSync plainCrypto asciiPlatform defaultOptions (some plainVault))
      (ends (fun _ _ => False) fun e _ => e = .cancelled ∨ FromLink e ∨ e = .keyMismatch)
      (.quiet stampedServer, idleDesk) :=
  wrong_key_stops stamped_otherRecord (by decide +kernel) (by decide +kernel) (by decide +kernel)

end WrongKey

end OpsBlobs.SyncRound
