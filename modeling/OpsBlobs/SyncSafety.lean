import OpsBlobs.SyncRound
import OpsBlobs.VaultPeers

namespace OpsBlobs.SyncSafety

open Types Coroutine GhostCode WriteEffects Promises VersionDag StateMerge SyncApplicator Encryption
open SyncServer ServerApi ServerPull RemoteProjection OpPush BlobDownload ScopedStaging SyncHost
open RemoteBlobs HeadSweep SyncRound VaultPeers

section Safety

variable {W : WebCrypto} {P : Platform} {C : VaultCrypto}

/-- What a round reports is what it merged: the projection of the ops that it pulled, with all the
live content there is, and the actions are the merge's. -/
structure Merged (P : Platform) (r : RoundReport) : Prop where
  projection : r.handed.remoteState.fileEntries =
    (reconstructRemoteState (r.pulled.map PulledOp.op)
      (some r.handed.localState.deviceId)).fileEntries
  actions : ∃ merge, mergeVaultStates P r.handed.localState r.handed.remoteState
    (some r.handed.dag) = some merge ∧ merge.actions = r.handed.actions
  content : ∀ id re, r.handed.remoteState.fileEntries.get id = some re → re.deleted = false →
    r.handed.remoteState.contentStore.has re.contentHash = true ∨
      re.contentHash ∈ r.missingContent ∨
      ∃ le, r.handed.localState.fileEntries.get id = some le ∧ le.deleted = false ∧
        le.contentHash = re.contentHash

/-- The record's op was pulled, with its content, and handed to the vault in a merge, by a round
that saved its cursor. -/
def TakenIn (W : WebCrypto) (C : VaultCrypto) (P : Platform) (d : Diary) (rec : OpRecord) : Prop :=
  ∃ r ∈ d.rounds, Consumed W C r.toRoundEnd rec ∧ Merged P r ∧ r.handed ∈ d.applied

/-- Every op before the cursor was applied. -/
def Passed (W : WebCrypto) (C : VaultCrypto) (P : Platform) (cursor : Nat) (s : Net × Desk) :
    Prop :=
  ∀ i < cursor, ∃ rec, s.1.server.log[i]? = some rec ∧ TakenIn W C P s.2.diary rec

/-- The op is in the server's log, and what it carries is stored there. -/
structure Sent (W : WebCrypto) (C : VaultCrypto) (p : Operation × Option Bytes) (s : Net) :
    Prop where
  listed : ∃ l, Represents s.server l ∧ p.1.id ∈ l.map AppendOp.clientOpId
  stored : p.2.isSome = true → s.server.blobs.has (C.blindHash W p.1.contentHash) = true

/-- Nothing is lost on the way: neither a peer's op behind the cursor, nor an op of ours that was
pushed before the log was cleared, nor one still pending when the vault is changed. -/
structure Safe (W : WebCrypto) (C : VaultCrypto) (P : Platform) (s : Net × Desk) : Prop where
  ledger : ∃ l, Represents s.1.server l
  passed : Passed W C P s.2.cursor s
  pushed : ∀ p ∈ s.2.diary.pushed, Sent W C p s.1
  applied : ∀ handed ∈ s.2.diary.applied, ∀ op ∈ handed.localState.pendingOps,
    ∃ content, (op, content) ∈ s.2.diary.pushed

/-- The log and the diary only grow, and no blob is replaced. -/
structure Later (s s' : Net × Desk) : Prop where
  holds : ∀ l, Represents s.1.server l → Holds l s'.1
  kept : Kept s.1.server s'.1.server
  pushed : s.2.diary.pushed ⊆ s'.2.diary.pushed
  applied : s.2.diary.applied ⊆ s'.2.diary.applied
  rounds : s.2.diary.rounds ⊆ s'.2.diary.rounds

variable {s s' s'' : Net × Desk} {cursor : Nat} {rec : OpRecord} {p : Operation × Option Bytes}
  {H : Request → Prop} {Proper : Host → Prop}

theorem Later.refl (s : Net × Desk) : Later s s :=
  ⟨fun l hrep => ⟨l, List.prefix_rfl, hrep⟩, kept_refl _, fun _ h => h, fun _ h => h, fun _ h => h⟩

theorem Later.trans (h : Later s s') (h' : Later s' s'') : Later s s'' where
  holds := by
    intro l hrep
    obtain ⟨l', hl, hrep'⟩ := h.holds l hrep
    exact (h'.holds l' hrep').weaken hl
  kept := h.kept.trans h'.kept
  pushed := List.Subset.trans h.pushed h'.pushed
  applied := List.Subset.trans h.applied h'.applied
  rounds := List.Subset.trans h.rounds h'.rounds

theorem later_of_traffic (ht : Traffic H s.1 s'.1) (hdiary : s'.2.diary = s.2.diary) :
    Later s s' where
  holds := fun l hrep => Holds.traffic ⟨l, List.prefix_rfl, hrep⟩ ht
  kept := kept_of_traffic ht
  pushed := by rw [hdiary]; exact fun _ h => h
  applied := by rw [hdiary]; exact fun _ h => h
  rounds := by rw [hdiary]; exact fun _ h => h

theorem TakenIn.later (h : TakenIn W C P s.2.diary rec) (hs : Later s s') :
    TakenIn W C P s'.2.diary rec := by
  obtain ⟨r, hr, hconsumed, hmerged, hhanded⟩ := h
  exact ⟨r, hs.rounds hr, hconsumed, hmerged, hs.applied hhanded⟩

theorem Passed.later {l : List AppendOp} (h : Passed W C P cursor s)
    (hrep : Represents s.1.server l) (hs : Later s s') : Passed W C P cursor s' := by
  intro i hi
  obtain ⟨rec, hrec, htaken⟩ := h i hi
  obtain ⟨l', hl, hrep'⟩ := hs.holds l hrep
  rw [hrep.log] at hrec
  refine ⟨rec, ?_, htaken.later hs⟩
  rw [hrep'.log]
  exact getElem?_mono (records_mono hl) hrec

theorem Sent.later (h : Sent W C p s.1) (hs : Later s s') : Sent W C p s'.1 where
  listed := by
    obtain ⟨l, hrep, hmem⟩ := h.listed
    obtain ⟨l', hl, hrep'⟩ := hs.holds l hrep
    exact ⟨l', hrep', (hl.map AppendOp.clientOpId).subset hmem⟩
  stored := by
    intro hsome
    obtain ⟨bytes, hbytes⟩ := (JsMap.has_iff _ _).1 (h.stored hsome)
    exact (JsMap.has_iff _ _).2 ⟨bytes, hs.kept.blobs _ _ hbytes⟩

/-- Where the cursor does not go on, only what the diary gains has to be looked at. -/
theorem Safe.later (h : Safe W C P s) (hs : Later s s') (hcursor : s'.2.cursor ≤ s.2.cursor)
    (hpushed : ∀ p ∈ s'.2.diary.pushed, p ∈ s.2.diary.pushed ∨ Sent W C p s'.1)
    (happlied : ∀ handed ∈ s'.2.diary.applied, handed ∈ s.2.diary.applied ∨
      ∀ op ∈ handed.localState.pendingOps, ∃ content, (op, content) ∈ s'.2.diary.pushed) :
    Safe W C P s' := by
  obtain ⟨l, hrep⟩ := h.ledger
  obtain ⟨l', -, hrep'⟩ := hs.holds l hrep
  refine ⟨⟨l', hrep'⟩, fun i hi => h.passed.later hrep hs i (hi.trans_le hcursor), fun p hp => ?_,
    fun handed hhanded op hop => ?_⟩
  · exact (hpushed p hp).elim (fun hold => (h.pushed p hold).later hs) id
  · rcases happlied handed hhanded with hold | hnew
    · obtain ⟨content, hmem⟩ := h.applied handed hold op hop
      exact ⟨content, hs.pushed hmem⟩
    · exact hnew op hop

/-- Each step, of the device or around it, goes on from what was and keeps the device safe. -/
structure Proceeds (W : WebCrypto) (C : VaultCrypto) (P : Platform) (s s' : Net × Desk) : Prop where
  later : Later s s'
  safe : Safe W C P s → Safe W C P s'

theorem Proceeds.trans (h : Proceeds W C P s s') (h' : Proceeds W C P s' s'') :
    Proceeds W C P s s'' := ⟨h.later.trans h'.later, fun hs => h'.safe (h.safe hs)⟩

theorem proceeds_of_traffic (ht : Traffic H s.1 s'.1) (hdiary : s'.2.diary = s.2.diary)
    (hcursor : s'.2.cursor ≤ s.2.cursor) : Proceeds W C P s s' := by
  have hlater := later_of_traffic ht hdiary
  refine ⟨hlater, fun h => h.later hlater hcursor (fun p hp => Or.inl ?_)
    fun handed hh => Or.inl ?_⟩
  · rwa [hdiary] at hp
  · rwa [hdiary] at hh

theorem Around.proceeds (h : Around (Traffic H) Proper s s') : Proceeds W C P s s' :=
  proceeds_of_traffic h.net h.diary h.cursor

theorem proceeds_sending (n n' : Net) (d : Desk) (h : Sending H n n') :
    Proceeds W C P (n, d) (n', d) := proceeds_of_traffic h.traffic rfl (Nat.le_refl _)

theorem proceeds_same (s : Net × Desk) (d : Desk) (hdiary : d.diary = s.2.diary)
    (hcursor : d.cursor ≤ s.2.cursor) : Proceeds W C P s (s.1, d) :=
  proceeds_of_traffic (H := fun _ => True) (traffic_refl _) hdiary hcursor

theorem proceeds_applied {handed : Handed} (h : ∀ op ∈ handed.localState.pendingOps,
    ∃ content, (op, content) ∈ s.2.diary.pushed) :
    Proceeds W C P s (note (fun d => { d with applied := d.applied ++ [handed] }) s) := by
  have hlater : Later s (note (fun d => { d with applied := d.applied ++ [handed] }) s) :=
    ⟨(Later.refl s).holds, kept_refl _, fun _ h => h, List.subset_append_left _ _, fun _ h => h⟩
  refine ⟨hlater, fun hsafe => hsafe.later hlater (Nat.le_refl _) (fun p hp => Or.inl hp)
    fun handed' hmem => ?_⟩
  rcases List.mem_append.1 hmem with hold | hnew
  · exact Or.inl hold
  · rw [List.mem_singleton.1 hnew]
    exact Or.inr h

theorem proceeds_recorded (ops : List Operation) :
    Proceeds W C P s (note (fun d => { d with recorded := d.recorded ++ [ops] }) s) := by
  have hlater : Later s (note (fun d => { d with recorded := d.recorded ++ [ops] }) s) :=
    ⟨(Later.refl s).holds, kept_refl _, fun _ h => h, fun _ h => h, fun _ h => h⟩
  exact ⟨hlater, fun hsafe => hsafe.later hlater (Nat.le_refl _) (fun p hp => Or.inl hp)
    fun handed hmem => Or.inl hmem⟩

theorem proceeds_pushed {ops : List (Operation × Option Bytes)} (h : ∀ p ∈ ops, Sent W C p s.1) :
    Proceeds W C P s (note (fun d => { d with pushed := d.pushed ++ ops }) s) := by
  have hlater : Later s (note (fun d => { d with pushed := d.pushed ++ ops }) s) :=
    ⟨(Later.refl s).holds, kept_refl _, List.subset_append_left _ _, fun _ h => h, fun _ h => h⟩
  refine ⟨hlater, fun hsafe => hsafe.later hlater (Nat.le_refl _) (fun p hp => ?_)
    fun handed hmem => Or.inl hmem⟩
  exact (List.mem_append.1 hp).imp_right (h p)

/-- The cursor may go as far as what the rounds took in, this one among them. -/
theorem proceeds_saved {report : RoundReport} {cursor : Nat}
    (h : Passed W C P cursor (writeCursor cursor
      (fun d => { d with rounds := d.rounds ++ [report] }) s)) :
    Proceeds W C P s (writeCursor cursor (fun d => { d with rounds := d.rounds ++ [report] }) s) where
  later := ⟨(Later.refl s).holds, kept_refl _, fun _ h => h, fun _ h => h,
    List.subset_append_left _ _⟩
  safe := fun hsafe => ⟨hsafe.ledger, h, hsafe.pushed, hsafe.applied⟩

end Safety

/-- A step of the device itself: it goes on, and sends only what it may. -/
structure Moves (W : WebCrypto) (C : VaultCrypto) (P : Platform) (Mine : Request → Prop)
    (s s' : Net × Desk) : Prop where
  proceeds : Proceeds W C P s s'
  sends : Sending Mine s.1 s'.1

section Rules

variable {W : WebCrypto} {P : Platform} {C : VaultCrypto} {H K Mine : Request → Prop}
  {Proper : Host → Prop} {s : Net × Desk} {α β : Type}
  {Q : Except SyncError β → Net × Desk → Prop}

theorem moves_desk (d : Desk) (h : Proceeds W C P s (s.1, d)) : Moves W C P Mine s (s.1, d) :=
  ⟨h, sending_refl _⟩

theorem moves_sending (hK : ∀ r, K r → Mine r) (n n' : Net) (d : Desk) (h : Sending K n n') :
    Moves W C P Mine (n, d) (n', d) := ⟨proceeds_sending n n' d h, sending_mono hK _ _ h⟩

theorem moves_reads (hread : Mine .read) (n n' : Net) (d : Desk) (h : Sending (· = .read) n n') :
    Moves W C P Mine (n, d) (n', d) :=
  ⟨proceeds_sending n n' d h, sending_of_reads hread _ _ h⟩

/-- An `ask` whose entry keeps the device safe. -/
theorem wp_asks {entry : Diary → Diary} {answer : Host → Except String α} {f : α → Session β}
    (hnote : Proceeds W C P s (note entry s)) (herr : ∀ message s',
      s'.2.diary = entry s.2.diary → Q (.error (.other message)) s')
    (h : ∀ a s', (∃ host, Proper host ∧ answer host = .ok a) → Proceeds W C P s s' →
      s'.2.diary = entry s.2.diary → s'.2.cursor ≤ s.2.cursor →
      wp (Around (Traffic H) Proper) (Moves W C P Mine) (f a) Q s') :
    wp (Around (Traffic H) Proper) (Moves W C P Mine) (ask entry answer >>= f) Q s :=
  wp_ask (moves_desk _ hnote) fun s' hs => ⟨fun message => herr message s' hs.diary, fun a ha =>
    h a s' ⟨s'.2.host, hs.host, ha⟩ (hnote.trans (Around.proceeds hs)) hs.diary hs.cursor⟩

theorem wp_recordVersionEdges {ops : List Operation} {dag : VersionDag} {f : VersionDag → Session β}
    (herr : ∀ message s', Q (.error (.other message)) s')
    (h : ∀ s', Proceeds W C P s s' → s'.2.diary.pushed = s.2.diary.pushed →
      wp (Around (Traffic H) Proper) (Moves W C P Mine)
        (f (VersionRecords.recordVersionEdges dag ops).1) Q s') :
    wp (Around (Traffic H) Proper) (Moves W C P Mine) (recordVersionEdges ops dag >>= f) Q s :=
  wp_bind.2 (wp_asks (proceeds_recorded ops) (fun message s' _ => herr message s')
    fun _ s' _ hs hdiary _ => h s' hs (by rw [hdiary]))

theorem wp_applyMerge {handed : Handed} {f : ApplyReport → Session β}
    (hpending : ∀ op ∈ handed.localState.pendingOps, ∃ content, (op, content) ∈ s.2.diary.pushed)
    (herr : ∀ message s', Q (.error (.other message)) s')
    (h : ∀ report s', Proceeds W C P s s' → handed ∈ s'.2.diary.applied →
      wp (Around (Traffic H) Proper) (Moves W C P Mine) (f report) Q s') :
    wp (Around (Traffic H) Proper) (Moves W C P Mine) (applyMerge handed >>= f) Q s :=
  wp_asks (proceeds_applied hpending) (fun message s' _ => herr message s')
    fun report s' _ hs hdiary _ => h report s' hs (by
      rw [hdiary]
      exact List.mem_append_right _ (List.mem_singleton_self _))

/-- The device only goes on, and asks the vault for nothing. -/
structure Since (W : WebCrypto) (C : VaultCrypto) (P : Platform) (s s' : Net × Desk) : Prop where
  proceeds : Proceeds W C P s s'
  untouched : Untouched s s'

theorem Since.trans {s' s'' : Net × Desk} (h : Since W C P s s') (h' : Since W C P s' s'') :
    Since W C P s s'' := ⟨h.proceeds.trans h'.proceeds, h.untouched.trans h'.untouched⟩

theorem since_refl (s : Net × Desk) : Since W C P s s :=
  ⟨proceeds_same s s.2 rfl (Nat.le_refl _), rfl, Nat.le_refl _⟩

theorem wp_stageContent {localState : VaultState} {hashes : List String}
    {f : VaultState → Session β}
    (herr : ∀ message s', s'.2.diary = s.2.diary → Q (.error (.other message)) s')
    (h : ∀ store s', (∃ host, Proper host ∧ host.stageContent localState hashes = .ok store) →
      Since W C P s s' → wp (Around (Traffic H) Proper) (Moves W C P Mine)
        (f (withContent localState store)) Q s') :
    wp (Around (Traffic H) Proper) (Moves W C P Mine)
      (SyncHost.stageContent localState hashes >>= f) Q s :=
  wp_bind.2 (wp_asks (proceeds_same _ _ rfl (Nat.le_refl _))
    (fun message s' hdiary => herr message s' hdiary)
    fun store s' hhost hs hdiary hcursor => h store s' hhost ⟨hs, hdiary, hcursor⟩)

/-- What comes later than the end of a call comes later than its beginning. -/
theorem wp_proceeds {t : Session α} {X : Except SyncError α → Net × Desk → Prop}
    (ht : wp (Around (Traffic H) Proper) (Moves W C P Mine) t X s) :
    wp (Around (Traffic H) Proper) (Moves W C P Mine) t
      (fun r s' => X r s' ∧ Proceeds W C P s s') s :=
  wp_invariant (fun _ _ ha hp => hp.trans (Around.proceeds ha))
    (fun _ _ hg hp => hp.trans hg.proceeds) ht (since_refl s).proceeds

/-- A call on the network, and how the round goes on from it. -/
theorem wp_calls {t : Round α} {f : α → Session β} {X : Except SyncError α → Net → Prop}
    (hK : ∀ r, K r → Mine r) (ht : wp (Traffic H) (Sending K) t X s.1)
    (h : ∀ r s', X r s'.1 → Since W C P s s' →
      andThen (Around (Traffic H) Proper) (Moves W C P Mine) f Q r s') :
    wp (Around (Traffic H) Proper) (Moves W C P Mine) (lift t >>= f) Q s := by
  refine wp_bind.2 (wp_mono ?_ (wp_proceeds (wp_network (moves_sending hK) ht)))
  rintro r s' ⟨⟨hX, hun⟩, hp⟩
  exact h r s' hX ⟨hp, hun⟩

end Rules

section Sweeping

variable {W : WebCrypto} {P : Platform} {C : VaultCrypto} {H Mine : Request → Prop}
  {Proper : Host → Prop} {s : Net × Desk} {dag : VersionDag} {localState : VaultState}
  {sweep : Sweep}
  {deferred touched : List String} {ops : JsMap String Operation}

/-- What a part of the sweep is worth to the round: it loses no missing content, and does not stop
for the user. -/
def SweepEnds (missing : List String) : Except SyncError Sweep → Net × Desk → Prop :=
  ends (fun sweep _ => missing ⊆ sweep.missingContent) fun e _ => e ≠ .cancelled

theorem leafBytes_spec (hread : Mine .read) (localState : VaultState) (leafHash : String) :
    wp (Around (Traffic H) Proper) (Moves W C P Mine) (leafBytes W C localState leafHash)
      (ends (fun _ _ => True) fun e _ => e ≠ .cancelled) s := by
  rw [leafBytes]
  split
  · trivial
  · refine wp_mono ?_ (wp_network (moves_reads hread) (wp_weaken (fun _ _ _ => trivial)
      (fun _ _ h => h) (fetchBlob_spec source_any trivial (List.mem_singleton_self _))))
    rintro (e | r) s' ⟨h, -⟩
    · exact h.2
    · trivial

theorem foldLeaf_spec (hread : Mine .read) (le : FileEntry) (leafId : String) (op : Operation) :
    wp (Around (Traffic H) Proper) (Moves W C P Mine)
      (foldLeaf W C P dag localState le leafId op sweep)
      (SweepEnds sweep.missingContent) s := by
  refine wp_bind.2 (wp_mono ?_ (leafBytes_spec hread _ _))
  rintro (e | bytes) s₁ h
  · exact h
  cases bytes with
  | none => exact fun hash hmem => mem_addOnce.2 (Or.inl hmem)
  | some bytes =>
      simp only [andThen]
      split
      · rintro ⟨⟩
      · refine ⟨moves_desk _ (proceeds_same _ _ rfl (Nat.le_refl _)), ?_⟩
        refine wp_applyMerge (List.forall_mem_nil _) (fun _ _ => ?_) fun _ _ _ _ => ?_
        · rintro ⟨⟩
        · exact fun _ hmem => hmem

theorem foldFile_spec (hread : Mine .read) (fileId : String) :
    wp (Around (Traffic H) Proper) (Moves W C P Mine)
      (foldFile W C P dag ops deferred localState sweep fileId)
      (SweepEnds sweep.missingContent) s := by
  have hpure : wp (Around (Traffic H) Proper) (Moves W C P Mine) (pure sweep : Session Sweep)
      (SweepEnds sweep.missingContent) s := fun _ hmem => hmem
  rw [foldFile]
  split
  · exact hpure
  split
  · exact hpure
  split
  · exact hpure
  split
  · exact hpure
  exact foldLeaf_spec hread _ _ _

/-- The sweep only adds to what is missing, and does not stop for the user. -/
theorem sweepPass_spec (hread : Mine .read) :
    wp (Around (Traffic H) Proper) (Moves W C P Mine)
      (sweepPass W C P touched ops deferred dag sweep)
      (ends (fun r _ => sweep.missingContent ⊆ r.2.missingContent) fun e _ => e ≠ .cancelled) s := by
  rw [sweepPass]
  refine wp_asks (proceeds_same _ _ rfl (Nat.le_refl _)) (fun _ _ _ => ?_)
    fun localState s₁ _ _ _ _ => ?_
  · rintro ⟨⟩
  refine wp_recordVersionEdges (fun _ _ => ?_) fun s₂ _ _ => ?_
  · rintro ⟨⟩
  refine wp_stageContent (fun _ _ _ => ?_) fun store s₃ _ _ => ?_
  · rintro ⟨⟩
  refine wp_bind.2 (wp_foldM (I := fun r _ => sweep.missingContent ⊆ r.missingContent)
    (fun _ hmem => hmem) (fun fileId _ r s₄ hr => ?_) fun r _ hr => hr)
  refine wp_mono ?_ (foldFile_spec hread fileId)
  rintro (e | r') s₅ h
  · exact h
  · exact List.Subset.trans hr h

theorem sweepPasses_spec (hread : Mine .read) (maxFolds : Nat) :
    wp (Around (Traffic H) Proper) (Moves W C P Mine)
      (sweepPasses W C P touched ops deferred maxFolds dag sweep)
      (SweepEnds sweep.missingContent) s := by
  induction maxFolds generalizing dag sweep s with
  | zero => exact fun _ hmem => hmem
  | succ maxFolds ih =>
      refine wp_bind.2 (wp_mono ?_ (sweepPass_spec hread))
      rintro (e | r) s₁ h
      · exact h
      simp only [andThen]
      split
      · refine wp_mono ?_ ih
        rintro (e | r') s₂ h'
        · exact h'
        · exact List.Subset.trans h h'
      · exact h

theorem reconcileConcurrentHeads_spec (hread : Mine .read) (pulled : List PulledOp)
    (dag : VersionDag) (own : String)
    (missing deferred : List String) (failures : List ApplyFailure) :
    wp (Around (Traffic H) Proper) (Moves W C P Mine)
      (reconcileConcurrentHeads W C P pulled dag own missing deferred failures)
      (SweepEnds missing) s := by
  rw [reconcileConcurrentHeads]
  split
  · exact fun _ hmem => hmem
  · exact sweepPasses_spec hread _

end Sweeping

/-- What a device sends is among `Mine`, as long as its vault is `Proper`: reads, preflights, its
key-check record, and the pushes of a state that the vault built, with content it staged. -/
structure Sender (W : WebCrypto) (C : VaultCrypto) (Proper : Host → Prop) (Mine : Request → Prop)
    (Ready : VaultState → Prop) : Prop where
  packs : ∀ host, Proper host → ServesPacks W host
  read : Mine .read
  preflight : Mine .preflight
  keyCheck : ∀ nonce : Nonce,
    Mine (.putBlob (keyCheckBlobKey W) (C.buildKeyCheck W nonce.bytes))
  built : ∀ host dag state, Proper host → host.buildLocalIdentity dag = .ok state → Ready state
  pushes : ∀ host state hashes store, Proper host → Ready state →
    host.stageContent state hashes = .ok store → ∀ r, Sends W C store state.pendingOps r → Mine r

section Settling

variable {W : WebCrypto} {P : Platform} {C : VaultCrypto} {O : SyncOptions}
  {H Mine : Request → Prop} {Proper : Host → Prop} {Ready : VaultState → Prop} {s : Net × Desk}
  {l : List AppendOp} {localState remoteState : VaultState}
  {dag : VersionDag} {start : Nat} {pulled : List PulledOp} {missing : List String}

theorem sent_of_delivered {contentStore : JsMap String Bytes} {ops : List Operation} {n : Net}
    (h : Delivered W C contentStore l ops n) :
    ∀ p ∈ ops.map fun op => (op, contentOf contentStore op), Sent W C p n := by
  intro p hp
  obtain ⟨op, hop, rfl⟩ := List.mem_map.1 hp
  obtain ⟨l₁, -, ⟨l₂, hl₂, hrep⟩, hids⟩ := h.entered
  exact ⟨⟨l₂, hrep, (hl₂.map AppendOp.clientOpId).subset (hids _ (List.mem_map_of_mem hop))⟩,
    h.stored op hop⟩

/-- After the push the server has every op that was pending; a round that is cancelled in it has
asked nothing of the vault. -/
theorem pushPending_spec (hS : Sender W C Proper Mine Ready) (hready : Ready localState)
    (hlimit : 0 < O.opsLimit) (hrep : Represents s.1.server l) :
    wp (Around (Traffic H) Proper) (Moves W C P Mine) (pushPending W O C localState start)
      (ends (fun staged s' => (∃ store, staged = withContent localState store) ∧
          ∀ op ∈ localState.pendingOps, ∃ content, (op, content) ∈ s'.2.diary.pushed)
        fun e s' => e = .cancelled → s'.2.diary = s.2.diary) s := by
  rw [pushPending]
  split
  · rename_i hempty
    rw [List.isEmpty_iff] at hempty
    refine ⟨⟨localState.contentStore, rfl⟩, ?_⟩
    rw [hempty]
    exact List.forall_mem_nil _
  · refine wp_stageContent (fun _ _ hdiary _ => hdiary) fun store s₁ ⟨host, hhost, hstore⟩ hs₁ => ?_
    obtain ⟨l₁, -, hrep₁⟩ := hs₁.proceeds.later.holds l hrep
    refine wp_calls (hS.pushes host localState _ store hhost hready hstore)
      (pushPendingOps_spec hlimit ⟨l₁, List.prefix_rfl, hrep₁⟩) fun r s₂ hr hs₂ => ?_
    cases r with
    | error e => exact fun _ => (hs₁.trans hs₂).untouched.diary
    | ok u =>
        refine wp_asks (proceeds_pushed (sent_of_delivered hr)) (fun _ _ _ => ?_)
          fun _ s₃ _ _ hdiary₃ _ => ⟨⟨store, rfl⟩, fun op hop => ?_⟩
        · rintro ⟨⟩
        · refine ⟨contentOf store op, ?_⟩
          rw [hdiary₃]
          exact List.mem_append_right _ (List.mem_map_of_mem hop)

/-- The merge of the staged states is handed to the vault. -/
theorem mergeAndApply_spec (hpending : ∀ op ∈ localState.pendingOps,
      ∃ content, (op, content) ∈ s.2.diary.pushed) :
    wp (Around (Traffic H) Proper) (Moves W C P Mine) (mergeAndApply P localState remoteState dag)
      (ends (fun r s' => r.1 ∈ s'.2.diary.applied ∧ r.1.remoteState = remoteState ∧
          (∃ store, r.1.localState = withContent localState store) ∧
          ∃ merge, mergeVaultStates P r.1.localState r.1.remoteState (some r.1.dag) = some merge ∧
            merge.actions = r.1.actions)
        fun e _ => e ≠ .cancelled) s := by
  refine wp_stageContent (fun _ _ _ => ?_) fun store s₁ _ hs₁ => ?_
  · rintro ⟨⟩
  split
  · rintro ⟨⟩
  · rename_i merge hmerge
    refine ⟨moves_desk _ (proceeds_same _ _ rfl (Nat.le_refl _)), ?_⟩
    refine wp_applyMerge (fun op hop => ?_) (fun _ _ => ?_) fun report s₂ _ happlied => ?_
    · obtain ⟨content, hmem⟩ := hpending op hop
      exact ⟨content, hs₁.proceeds.later.pushed hmem⟩
    · rintro ⟨⟩
    · exact ⟨happlied, rfl, ⟨store, rfl⟩, merge, hmerge, rfl⟩

/-- What a round saves is before what it and those before it have taken in. -/
theorem passed_saved {report : RoundReport} (hstart : Passed W C P start s)
    (hrep : Represents s.1.server l)
    (hreached : Reached W C start report.pulledCursor report.pulled l) (hmerged : Merged P report)
    (happlied : report.handed ∈ s.2.diary.applied) :
    Passed W C P (report.saved start) (writeCursor (report.saved start)
      (fun d => { d with rounds := d.rounds ++ [report] }) s) := by
  intro i hi
  by_cases hbefore : i < start
  · obtain ⟨rec, hrec, r, hr, htaken⟩ := hstart i hbefore
    exact ⟨rec, hrec, r, List.mem_append_left _ hr, htaken⟩
  · obtain ⟨rec, hrec, hconsumed⟩ := consumed_of_saved hreached (Nat.not_lt.1 hbefore) hi
    refine ⟨rec, ?_, report, List.mem_append_right _ (List.mem_singleton_self _), hconsumed,
      hmerged, happlied⟩
    change s.1.server.log[i]? = some rec
    rw [hrep.log]
    exact hrec

/-- From the push on, a round that ends cancelled has asked nothing of the vault. -/
theorem settle_spec {Lacks : String → Prop} {pulledCursor : Nat}
    (hS : Sender W C Proper Mine Ready) (hready : Ready localState) (hlimit : 0 < O.opsLimit)
    (hrep : Represents s.1.server l) (hstart : Passed W C P start s)
    (hreached : Reached W C start pulledCursor pulled l)
    (hobtained : Obtained W Lacks C (reconstructRemoteState (pulled.map PulledOp.op)
      (some localState.deviceId)) localState (remoteState, missing)) :
    wp (Around (Traffic H) Proper) (Moves W C P Mine)
      (settle W P O C localState remoteState dag start pulled pulledCursor missing)
      (fun r s' => r = .error .cancelled → s'.2.diary = s.2.diary) s := by
  refine wp_bind.2 (wp_mono ?_ (wp_proceeds (pushPending_spec hS hready hlimit hrep)))
  rintro (e | staged) s₁ ⟨hpush, hs₁⟩
  · rintro ⟨⟩
    exact hpush rfl
  obtain ⟨⟨store, rfl⟩, hpushed⟩ := hpush
  refine wp_recordVersionEdges (fun _ _ => ?_) fun s₂ hs₂ hsame => ?_
  · rintro ⟨⟩
  rw [← hsame] at hpushed
  refine wp_bind.2 (wp_mono ?_ (wp_proceeds (mergeAndApply_spec hpushed)))
  rintro (e | merged) s₃ ⟨hmerge, hs₃⟩
  · rintro ⟨⟩
    exact absurd rfl hmerge
  obtain ⟨happlied, hremote, ⟨store', hlocal⟩, hactions⟩ := hmerge
  refine wp_bind.2 (wp_mono ?_ (wp_proceeds (reconcileConcurrentHeads_spec hS.read _ _ _ _ _ _)))
  rintro (e | sweep) s₄ ⟨hsweep, hs₄⟩
  · rintro ⟨⟩
    exact absurd rfl hsweep
  refine wp_saveCursor fun s₅ hs₅ => ⟨fun _ => ?_, ?_, fun s₆ hs₆ => ⟨fun _ => ?_, ?_⟩⟩
  · rintro ⟨⟩
  · have hlater : Proceeds W C P s s₅ :=
      (((hs₁.trans hs₂).trans hs₃).trans hs₄).trans (Around.proceeds hs₅)
    obtain ⟨l', hl, hrep'⟩ := hlater.later.holds l hrep
    refine moves_desk _ (proceeds_saved
      (passed_saved (hstart.later hrep hlater.later) hrep' (hreached.mono hl)
      ⟨?_, hactions, ?_⟩ ?_))
    · rw [hremote, hlocal]
      exact hobtained.fileEntries
    · intro id re hre hlive
      rw [hremote] at hre ⊢
      rw [hlocal]
      have hentries : (reconstructRemoteState (pulled.map PulledOp.op)
          (some localState.deviceId)).fileEntries.get id = some re := by
        rw [← hobtained.fileEntries]
        exact hre
      rcases hobtained.live id re hentries hlive with hhas | hmissing | hours
      · exact Or.inl hhas
      · exact Or.inr (Or.inl (hsweep hmissing))
      · exact Or.inr (Or.inr hours)
    · rw [hs₅.diary]
      exact hs₄.later.applied happlied
  · rintro ⟨⟩
  · rintro ⟨⟩

end Settling

section Example

/-- A device that has just joined a vault of two ops. -/
theorem safe_idleDesk :
    Safe plainCrypto plainVault asciiPlatform (.quiet twoOpsServer, idleDesk) where
  ledger := ⟨_, represents_twoOps⟩
  passed := by
    rintro i hi
    cases hi
  pushed := List.forall_mem_nil _
  applied := List.forall_mem_nil _

end Example

section Whole

variable {W : WebCrypto} {P : Platform} {C : VaultCrypto} {O : SyncOptions}
  {H Mine : Request → Prop} {Proper : Host → Prop} {Ready : VaultState → Prop} {s : Net × Desk}

theorem wp_readCursor {β : Type} {f : Nat → Session β} {Q : Except SyncError β → Net × Desk → Prop}
    (herr : ∀ message s', Since W C P s s' → Q (.error (.other message)) s')
    (h : ∀ s', Since W C P s s' →
      wp (Around (Traffic H) Proper) (Moves W C P Mine) (f s'.2.cursor) Q s') :
    wp (Around (Traffic H) Proper) (Moves W C P Mine) (loadCursor >>= f) Q s :=
  wp_loadCursor (moves_desk _ (proceeds_same _ _ rfl (Nat.le_refl _))) fun s' hs =>
    have hsince : Since W C P s s' := ⟨Around.proceeds hs, hs.untouched⟩
    ⟨fun message => herr message s' hsince, h s' hsince⟩

/-- A lost graph rewinds the cursor; the vault is asked for nothing else. -/
theorem guardDag_spec :
    wp (Around (Traffic H) Proper) (Moves W C P Mine) guardDag (fun _ s' => Since W C P s s') s := by
  refine wp_ask (moves_desk _ (proceeds_same _ _ rfl (Nat.le_refl _))) fun s₁ hs₁ => ?_
  have h₁ : Since W C P s s₁ := ⟨Around.proceeds hs₁, hs₁.untouched⟩
  refine ⟨fun _ => h₁, fun dag _ => wp_bind.2 (wp_readCursor (fun _ s₂ h₂ => h₁.trans h₂)
    fun s₂ h₂ => ?_)⟩
  change wp _ _ (if (decide (s₂.2.cursor ≠ 0) && dag.keys.isEmpty) = true then do
    saveCursor 0 id
    pure dag
  else pure dag : Session VersionDag) _ s₂
  replace h₂ := h₁.trans h₂
  split
  · refine wp_saveCursor fun s₃ hs₃ => ?_
    have h₃ : Since W C P s s₃ := h₂.trans ⟨Around.proceeds hs₃, hs₃.untouched⟩
    have hwrite : Since W C P s₃ (writeCursor 0 id s₃) :=
      ⟨proceeds_same _ _ rfl (Nat.zero_le _), rfl, Nat.zero_le _⟩
    refine ⟨fun _ => h₃, moves_desk _ hwrite.proceeds, fun s₄ hs₄ => ?_⟩
    have h₄ := (h₃.trans hwrite).trans ⟨Around.proceeds hs₄, hs₄.untouched⟩
    exact ⟨fun _ => h₄, h₄⟩
  · exact h₂

theorem wp_checks {β : Type} {f : Unit → Session β} {Q : Except SyncError β → Net × Desk → Prop}
    (hcancel : ∀ e s', Since W C P s s' → Q (.error e) s')
    (h : ∀ s', Since W C P s s' → wp (Around (Traffic H) Proper) (Moves W C P Mine) (f ()) Q s') :
    wp (Around (Traffic H) Proper) (Moves W C P Mine) (lift throwIfCancelled >>= f) Q s := by
  refine wp_calls (K := fun _ => False) (fun _ h => h.elim) throwIfCancelled_spec
    fun r s' _ hs => ?_
  cases r with
  | error e => exact hcancel e s' hs
  | ok u => exact h s' hs

/-- A round keeps the device safe at each of its steps, and sends only what it may; and one that ends
cancelled has asked nothing of the vault but what it holds. -/
theorem runSync_spec (hS : Sender W C Proper Mine Ready)
    (hblind : Function.Injective (C.blindHash W)) (hlimit : 0 < O.opsLimit)
    (hsafe : Safe W C P s) :
    wp (Around (Traffic H) Proper) (Moves W C P Mine) (runSync W P O (some C))
      (fun r s' => r = .error .cancelled → s'.2.diary = s.2.diary) s := by
  have hstop : ∀ {e : SyncError} {s' : Net × Desk}, Since W C P s s' →
      (Except.error e : Except SyncError ConflictDecisions.SyncRoundSummary) = .error .cancelled →
        s'.2.diary = s.2.diary := fun h _ => h.untouched.diary
  refine wp_checks (fun _ _ h => hstop h) fun s₁ h₁ => ?_
  refine wp_calls (by rintro r rfl; exact hS.preflight)
    (keyCheckAbsent_spec (I := fun _ => True) (fun _ _ _ h => h) trivial _)
    fun r s₂ _ h₂ => ?_
  replace h₂ := h₁.trans h₂
  rcases r with e | absent
  · exact hstop h₂
  refine wp_bind.2 (wp_mono ?_ guardDag_spec)
  rintro (e | dag) s₃ h₃
  · exact hstop (h₂.trans h₃)
  replace h₃ := h₂.trans h₃
  refine wp_checks (fun _ _ h => hstop (h₃.trans h)) fun s₄ h₄ => ?_
  replace h₄ := h₃.trans h₄
  refine wp_asks (proceeds_same _ _ rfl (Nat.le_refl _))
    (fun _ _ hdiary _ => hdiary.trans h₄.untouched.diary)
    fun localState s₅ ⟨host, hhost, hbuilt⟩ h₅ hdiary₅ hcursor₅ => ?_
  replace h₅ := h₄.trans ⟨h₅, hdiary₅, hcursor₅⟩
  refine wp_readCursor (fun _ _ h => hstop (h₅.trans h)) fun s₆ h₆ => ?_
  replace h₆ := h₅.trans h₆
  obtain ⟨l, hrep⟩ := (h₆.proceeds.safe hsafe).ledger
  refine wp_calls (by rintro r rfl; exact hS.read)
    (pullAll_spec _ _ hlimit ⟨l, List.prefix_rfl, hrep⟩) fun r s₇ hr h₇ => ?_
  rcases r with e | pull
  · exact hstop (h₆.trans h₇)
  obtain ⟨l', -, ⟨l₇, hl₇, hrep₇⟩, -, hreached⟩ := hr
  have hs₇ := h₆.trans h₇
  refine wp_checks (fun _ _ h => hstop (hs₇.trans h)) fun s₈ h₈ => ?_
  refine wp_bind.2 (wp_mono ?_ (wp_proceeds (wp_weaken
    (fun _ _ ha => ⟨ha.net, ha.diary, ha.cursor, hS.packs _ ha.host⟩) (fun _ _ h => h)
    (fetchRemoteBlobs_spec (T := Traffic H) (I := fun _ => True)
      (moves_reads (W := W) (C := C) (P := P) hS.read) source_any (fun _ _ _ => trivial)
      (fun _ _ _ _ h => hblind h) O.limits.count_pos O.concurrency_pos trivial
      (by intro hash content h; cases h)))))
  rintro (e | fetched) s₉ ⟨⟨hfetched, hun⟩, hproceeds⟩
  · exact hstop (hs₇.trans (h₈.trans ⟨hproceeds, hun⟩))
  have h₉ := h₈.trans ⟨hproceeds, hun⟩
  refine wp_checks (fun _ _ h => hstop (hs₇.trans (h₉.trans h))) fun s₁₀ h₁₀ => ?_
  refine wp_calls (by rintro r ⟨nonce, rfl⟩; exact hS.keyCheck nonce) (claimKeyCheck_spec _)
    fun r s₁₁ _ h₁₁ => ?_
  replace h₁₁ := h₉.trans (h₁₀.trans h₁₁)
  rcases r with e | u
  · exact hstop (hs₇.trans h₁₁)
  refine wp_checks (fun _ _ h => hstop (hs₇.trans (h₁₁.trans h))) fun s₁₂ h₁₂ => ?_
  replace h₁₂ := h₁₁.trans h₁₂
  -- What the pull and the cursor stood for at their time still stands before the push.
  obtain ⟨l₁₂, hl₁₂, hrep₁₂⟩ := h₁₂.proceeds.later.holds l₇ hrep₇
  have hpassed := (h₆.proceeds.safe hsafe).passed.later hrep (h₇.trans h₁₂).proceeds.later
  refine wp_mono ?_ (settle_spec hS (hS.built host dag localState hhost hbuilt) hlimit hrep₁₂
    hpassed (hreached.mono (hl₇.trans hl₁₂)) hfetched)
  exact fun r s' h hcancelled => (h hcancelled).trans (hs₇.trans h₁₂).untouched.diary

theorem rounds_spec (hS : Sender W C Proper Mine Ready)
    (hblind : Function.Injective (C.blindHash W)) (hlimit : 0 < O.opsLimit)
    (hsafe : Safe W C P s) (n : Nat) :
    wp (Around (Traffic H) Proper) (Moves W C P Mine) (rounds W P O (some C) n)
      (fun _ s' => Safe W C P s') s := by
  induction n generalizing s with
  | zero => exact hsafe
  | succ n ih =>
      have hkept := wp_invariant (I := Safe W C P) (fun _ _ ha h => (Around.proceeds ha).safe h)
        (fun _ _ hg h => hg.proceeds.safe h) (runSync_spec (H := H) hS hblind hlimit hsafe) hsafe
      refine wp_bind.2 (wp_tryCatch.2 (wp_bind.2 (wp_mono ?_ hkept)))
      rintro (e | summary) s₁ ⟨-, h₁⟩
      · exact fun s₂ hs₂ _ => ih ((Around.proceeds hs₂).safe h₁)
      · exact fun s₂ hs₂ _ => ih ((Around.proceeds hs₂).safe h₁)

theorem sender_any : Sender W C (ServesPacks W) (fun _ => True) (fun _ => True) :=
  ⟨fun _ h => h, trivial, trivial, fun _ => trivial, fun _ _ _ _ _ => trivial,
    fun _ _ _ _ _ _ _ _ _ => trivial⟩

/-- A round that the user cancelled has changed nothing but the server and, after a lost graph, the
cursor: the vault was asked to clear, record and apply nothing. -/
theorem cancelled_round_asks_nothing (hblind : Function.Injective (C.blindHash W))
    (hlimit : 0 < O.opsLimit) (hsafe : Safe W C P s) :
    wp (Around (Traffic H) (ServesPacks W)) (fun s s' => Safe W C P s → Safe W C P s')
      (runSync W P O (some C)) (fun r s' => r = .error .cancelled → s'.2.diary = s.2.diary) s :=
  wp_weaken (fun _ _ h => h) (fun _ _ h => h.proceeds.safe)
    (runSync_spec sender_any hblind hlimit hsafe)

theorem cancelled_round_asks_nothing_idleDesk :
    wp (Around (Traffic fun _ => True) (ServesPacks plainCrypto))
      (fun s s' => Safe plainCrypto plainVault asciiPlatform s →
        Safe plainCrypto plainVault asciiPlatform s')
      (runSync plainCrypto asciiPlatform defaultOptions (some plainVault))
      (fun r s' => r = .error .cancelled → s'.2.diary = idleDesk.diary)
      (.quiet twoOpsServer, idleDesk) :=
  cancelled_round_asks_nothing blindHash_plainCrypto_inj (by decide) safe_idleDesk

end Whole

section Honesty

variable {W : WebCrypto} {P : Platform} {C : VaultCrypto} {O : SyncOptions} {H : Request → Prop}
  {Authored : Operation → Prop} {Written : Bytes → Prop} {s : Net × Desk}

/-- All content in the store was written by the vault's users, and is under its own hash. -/
def Vouched (W : WebCrypto) (Written : Bytes → Prop) (store : JsMap String Bytes) : Prop :=
  ∀ hash content, store.get hash = some content → Written content ∧ sha256Hex W content = hash

/-- A local vault whose pending ops are its user's, and that adds only vouched content. -/
structure Faithful (W : WebCrypto) (Authored : Operation → Prop) (Written : Bytes → Prop)
    (host : Host) : Prop where
  packs : ServesPacks W host
  authored : ∀ dag state, host.buildLocalIdentity dag = .ok state →
    ∀ op ∈ state.pendingOps, Authored op
  built : ∀ dag state, host.buildLocalIdentity dag = .ok state →
    Vouched W Written state.contentStore
  staged : ∀ state hashes store, host.stageContent state hashes = .ok store →
    Vouched W Written state.contentStore → Vouched W Written store

theorem sender_honest : Sender W C (Faithful W Authored Written) (Honest W C Authored Written)
    (fun state => (∀ op ∈ state.pendingOps, Authored op) ∧
      Vouched W Written state.contentStore) where
  packs := fun _ h => h.packs
  read := .read
  preflight := .preflight
  keyCheck := fun nonce => .putBlob _ _ (.keyCheck nonce)
  built := fun _ dag state h hbuilt => ⟨h.authored dag state hbuilt, h.built dag state hbuilt⟩
  pushes := fun _ state hashes store h hready hstore _ hr =>
    honest_of_sends hready.1 (h.staged state hashes store hstore hready.2) hr

/-- Over any rounds a device with the key is one of the honest ones: nothing leaves it but reads,
its own ops and content sealed under the vault's key, and the vault's key-check record. -/
theorem rounds_honest (hblind : Function.Injective (C.blindHash W)) (hlimit : 0 < O.opsLimit)
    (hsafe : Safe W C P s) (n : Nat) :
    wp (Around (Traffic H) (Faithful W Authored Written))
      (fun s s' => Sending (Honest W C Authored Written) s.1 s'.1) (rounds W P O (some C) n)
      (fun _ _ => True) s :=
  wp_mono (fun _ _ _ => trivial) (wp_weaken (fun _ _ h => h) (fun _ _ h => h.sends)
    (rounds_spec sender_honest hblind hlimit hsafe n))

theorem rounds_honest_idleDesk :
    wp (Around (Traffic fun _ => True)
        (Faithful plainCrypto (· = opAt "1" "a" 5 "n.md") (· = [65])))
      (fun s s' => Sending (Honest plainCrypto plainVault (· = opAt "1" "a" 5 "n.md") (· = [65]))
        s.1 s'.1)
      (rounds plainCrypto asciiPlatform defaultOptions (some plainVault) 2)
      (fun _ _ => True) (.quiet twoOpsServer, idleDesk) :=
  rounds_honest blindHash_plainCrypto_inj (by decide) safe_idleDesk 2

/-- Such a device has a vault as is assumed of it. -/
example : Faithful plainCrypto (· = opAt "1" "a" 5 "n.md") (· = [65]) idleDesk.host where
  packs := by
    rintro state hashes store served ⟨⟩
    exact ⟨fun _ h => h, id, List.forall_mem_nil _⟩
  authored := by
    rintro dag state ⟨⟩
    exact List.forall_mem_nil _
  built := by
    rintro dag state ⟨⟩ hash content ⟨⟩
  staged := by
    rintro state hashes store ⟨⟩ h
    exact h

end Honesty

end OpsBlobs.SyncSafety
