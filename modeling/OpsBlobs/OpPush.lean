import OpsBlobs.Packing
import OpsBlobs.ServerPull
import OpsBlobs.WorkerPool
import Mathlib.Algebra.GroupWithZero.Nat

namespace OpsBlobs.OpPush

open Types Coroutine WriteEffects Promises WorkerPool Ledger Packing Encryption SyncServer ServerApi
open ServerPull

def DEFAULT_MAX_OPS_PER_APPEND : Nat := 1000

def DEFAULT_BLOB_UPLOAD_CONCURRENCY : Nat := 8

def DEFAULT_BLOB_BATCH_MAX_COUNT : Nat := 256

def DEFAULT_BLOB_BATCH_MAX_BYTES : Nat := 16 * 1024 * 1024

def DEFAULT_BLOB_BATCH_THRESHOLD : Nat := 512 * 1024

def MAX_STALE_APPEND_RETRIES : Nat := 3

/-- How much goes into one request, and how many requests go at a time. -/
structure UploadLimits where
  maxOpsPerAppend : Nat
  blobUploadConcurrency : Nat
  blobBatchMaxCount : Nat
  blobBatchMaxBytes : Nat
  blobBatchThreshold : Nat
  ops_pos : 0 < maxOpsPerAppend
  concurrency_pos : 0 < blobUploadConcurrency
  count_pos : 0 < blobBatchMaxCount
  bytes_pos : 0 < blobBatchMaxBytes

/-- The limits as a client is made with, where an option that is not given has its default. -/
def UploadLimits.ofOptions (maxOpsPerAppend blobUploadConcurrency blobBatchMaxCount
    blobBatchMaxBytes blobBatchThreshold : Option Nat) : UploadLimits where
  maxOpsPerAppend := max 1 (maxOpsPerAppend.getD DEFAULT_MAX_OPS_PER_APPEND)
  blobUploadConcurrency := max 1 (blobUploadConcurrency.getD DEFAULT_BLOB_UPLOAD_CONCURRENCY)
  blobBatchMaxCount := max 1 (blobBatchMaxCount.getD DEFAULT_BLOB_BATCH_MAX_COUNT)
  blobBatchMaxBytes := max 1 (blobBatchMaxBytes.getD DEFAULT_BLOB_BATCH_MAX_BYTES)
  blobBatchThreshold := blobBatchThreshold.getD DEFAULT_BLOB_BATCH_THRESHOLD
  ops_pos := Nat.le_max_left 1 _
  concurrency_pos := Nat.le_max_left 1 _
  count_pos := Nat.le_max_left 1 _
  bytes_pos := Nat.le_max_left 1 _

section Plan

variable (L : UploadLimits)

structure UploadPlan where
  batches : List (List String)
  singles : List String
  deriving DecidableEq, Repr

/-- The plan so far, and the batch that is filled next. -/
structure Planning where
  batches : List (List String)
  singles : List String
  cur : List String
  curBytes : Nat

def Planning.add (hash : String) (size : Nat) (p : Planning) : Planning :=
  if L.blobBatchThreshold < size then { p with singles := p.singles ++ [hash] }
  else if 0 < p.cur.length ∧
      (L.blobBatchMaxCount ≤ p.cur.length ∨ L.blobBatchMaxBytes < p.curBytes + size) then
    { p with batches := p.batches ++ [p.cur], cur := [hash], curBytes := size }
  else { p with cur := p.cur ++ [hash], curBytes := p.curBytes + size }

def Planning.finish (p : Planning) : UploadPlan :=
  ⟨if p.cur = [] then p.batches else p.batches ++ [p.cur], p.singles⟩

/-- `none` where a hash is missing that has no content here: its length cannot be read. -/
def planBlobUpload (missing : List String) (blobs : JsMap String Bytes) : Option UploadPlan :=
  (missing.foldlM (fun p hash => (blobs.get hash).map fun bytes =>
    Planning.add L hash bytes.length p) ⟨[], [], [], 0⟩).map Planning.finish

variable {L} {missing : List String} {blobs : JsMap String Bytes} {hash : String}

def sizeOf (blobs : JsMap String Bytes) (hash : String) : Nat := ((blobs.get hash).getD []).length

/-- One request can carry these blobs. -/
def Fits (L : UploadLimits) (blobs : JsMap String Bytes) (batch : List String) : Prop :=
  batch.length ≤ L.blobBatchMaxCount ∧ (batch.map (sizeOf blobs)).sum ≤ L.blobBatchMaxBytes

instance instDecidableFits : DecidablePred (Fits L blobs) := fun _ => inferInstanceAs (Decidable (_ ∧ _))

theorem fits_of_infix (batch batch' : List String) (h : batch <:+: batch')
    (hfits : Fits L blobs batch') : Fits L blobs batch := by
  obtain ⟨before, after, rfl⟩ := h
  obtain ⟨hcount, hbytes⟩ := hfits
  simp only [List.map_append, List.sum_append, List.length_append] at hcount hbytes
  exact ⟨by omega, by omega⟩

/-- The plan follows the greedy packing of the small blobs. -/
structure Follows (L : UploadLimits) (blobs : JsMap String Bytes) (hashes : List String)
    (p : Planning) : Prop where
  batches : (⟨p.batches, p.cur⟩ : Runs String) =
    fill (Fits L blobs) (hashes.filter (sizeOf blobs · ≤ L.blobBatchThreshold))
  singles : p.singles = hashes.filter (L.blobBatchThreshold < sizeOf blobs ·)
  curBytes : p.curBytes = (p.cur.map (sizeOf blobs)).sum

theorem Follows.add {hashes : List String} {p : Planning} (h : Follows L blobs hashes p)
    (hash : String) : Follows L blobs (hashes ++ [hash]) (p.add L hash (sizeOf blobs hash)) := by
  rw [Planning.add]
  split
  · rename_i hlarge
    refine ⟨?_, ?_, h.curBytes⟩
    · rw [List.filter_append, List.filter_singleton]
      simpa [Nat.not_le_of_lt hlarge] using h.batches
    · rw [List.filter_append, List.filter_singleton]
      simp [hlarge, h.singles]
  · rename_i hsmall
    have hlists : (hashes ++ [hash]).filter (sizeOf blobs · ≤ L.blobBatchThreshold) =
        hashes.filter (sizeOf blobs · ≤ L.blobBatchThreshold) ++ [hash] := by
      rw [List.filter_append, List.filter_singleton]
      simp [Nat.le_of_not_lt hsmall]
    have hsingles : (hashes ++ [hash]).filter (L.blobBatchThreshold < sizeOf blobs ·) =
        hashes.filter (L.blobBatchThreshold < sizeOf blobs ·) := by
      rw [List.filter_append, List.filter_singleton]
      simp [hsmall]
    have hopen : (0 < p.cur.length ∧ (L.blobBatchMaxCount ≤ p.cur.length ∨
        L.blobBatchMaxBytes < p.curBytes + sizeOf blobs hash)) ↔
        p.cur ≠ [] ∧ ¬Fits L blobs (p.cur ++ [hash]) := by
      rw [h.curBytes, Fits, List.length_append, List.length_singleton, List.map_append,
        List.sum_append, List.map_singleton, List.sum_singleton, List.length_pos_iff]
      refine and_congr_right fun _ => ?_
      omega
    split
    · rename_i hnew
      refine ⟨?_, hsingles ▸ h.singles, by simp⟩
      rw [hlists, fill_concat, ← h.batches, Runs.push, if_pos (hopen.1 hnew)]
    · rename_i hsame
      refine ⟨?_, hsingles ▸ h.singles, by simp [h.curBytes]⟩
      rw [hlists, fill_concat, ← h.batches, Runs.push, if_neg (mt hopen.2 hsame)]

theorem foldlM_follows (hknown : ∀ hash ∈ missing, blobs.has hash = true) :
    ∃ p, missing.foldlM (fun p hash => (blobs.get hash).map fun bytes =>
      Planning.add L hash bytes.length p) ⟨[], [], [], 0⟩ = some p ∧ Follows L blobs missing p := by
  induction missing using List.reverseRecOn with
  | nil => exact ⟨_, rfl, rfl, rfl, rfl⟩
  | append_singleton missing hash ih =>
      obtain ⟨hrest, hlast⟩ := List.forall_mem_append.1 hknown
      obtain ⟨p, hp, hfollows⟩ := ih hrest
      obtain ⟨bytes, hbytes⟩ := (JsMap.has_iff _ _).1 (hlast hash (List.mem_singleton_self hash))
      refine ⟨p.add L hash bytes.length, ?_, ?_⟩
      · rw [List.foldlM_append, hp]
        simp [hbytes]
      · have hadd := hfollows.add hash
        rwa [sizeOf, hbytes, Option.getD_some] at hadd

theorem planBlobUpload_eq (hknown : ∀ hash ∈ missing, blobs.has hash = true) :
    planBlobUpload L missing blobs =
      some ⟨pack (Fits L blobs) (missing.filter (sizeOf blobs · ≤ L.blobBatchThreshold)),
        missing.filter (L.blobBatchThreshold < sizeOf blobs ·)⟩ := by
  obtain ⟨p, hp, hfollows⟩ := foldlM_follows (L := L) hknown
  rw [planBlobUpload, hp, Option.map_some, Planning.finish, pack, ← hfollows.batches, Runs.all,
    hfollows.singles]

/-- The plan uploads every missing blob once and in order, large ones alone; a batch keeps both
bounds, unless it is a single blob that is above the bytes; and no other batches of the small
blobs, taken in order, are fewer. -/
theorem planBlobUpload_optimal (hknown : ∀ hash ∈ missing, blobs.has hash = true) :
    ∃ plan, planBlobUpload L missing blobs = some plan ∧
      plan.batches.flatten = missing.filter (sizeOf blobs · ≤ L.blobBatchThreshold) ∧
      plan.singles = missing.filter (L.blobBatchThreshold < sizeOf blobs ·) ∧
      (∀ batch ∈ plan.batches, Admissible (Fits L blobs) batch ∧
        batch.length ≤ L.blobBatchMaxCount) ∧
      ∀ batches : List (List String), batches.flatten = plan.batches.flatten →
        (∀ batch ∈ batches, Admissible (Fits L blobs) batch) →
        plan.batches.length ≤ batches.length := by
  refine ⟨_, planBlobUpload_eq hknown, flatten_pack _, rfl, fun batch hbatch => ?_,
    fun batches hflat hbatches => ?_⟩
  · have hadm := admissible_pack _ batch hbatch
    refine ⟨hadm, ?_⟩
    rcases hadm.2 with hfits | hone
    · exact hfits.1
    · rw [hone]
      exact L.count_pos
  · rw [flatten_pack] at hflat
    exact length_pack_le fits_of_infix hflat hbatches

theorem planBlobUpload_optimal_three :
    ∃ plan, planBlobUpload (.ofOptions none none (some 2) none (some 1))
        ["a", "b", "c"] (JsMap.ofList [("a", [1]), ("b", [1, 2]), ("c", [])]) = some plan ∧
      plan.batches.flatten = ["a", "b", "c"].filter (sizeOf
        (JsMap.ofList [("a", [1]), ("b", [1, 2]), ("c", [])]) · ≤ 1) ∧
      plan.singles = ["a", "b", "c"].filter (1 < sizeOf
        (JsMap.ofList [("a", [1]), ("b", [1, 2]), ("c", [])]) ·) ∧
      (∀ batch ∈ plan.batches, Admissible (Fits (.ofOptions none none (some 2) none (some 1))
        (JsMap.ofList [("a", [1]), ("b", [1, 2]), ("c", [])])) batch ∧ batch.length ≤ 2) ∧
      ∀ batches : List (List String), batches.flatten = plan.batches.flatten →
        (∀ batch ∈ batches, Admissible (Fits (.ofOptions none none (some 2) none (some 1))
          (JsMap.ofList [("a", [1]), ("b", [1, 2]), ("c", [])])) batch) →
        plan.batches.length ≤ batches.length :=
  planBlobUpload_optimal (by decide)

end Plan

/-- The records to append, and the content that they name by its blinded hash. -/
structure Push where
  blobs : JsMap String Bytes
  records : List AppendOp

/-- What an op carries, where it is at hand. -/
def contentOf (contentStore : JsMap String Bytes) (op : Operation) : Option Bytes :=
  if op.type = .delete then none else contentStore.get op.contentHash

section Rounds

variable (W : WebCrypto) (C : VaultCrypto) (L : UploadLimits)

def recordOp (contentStore : JsMap String Bytes) (p : Push) (op : Operation) : Round Push :=
  match contentOf contentStore op with
  | none => do
      let ciphertext ← encryptOp W C op
      pure ⟨p.blobs, p.records ++ [⟨op.id, ciphertext, []⟩]⟩
  | some content => do
      let blinded ← blindHash W C op.contentHash
      let ciphertext ← encryptOp W C op
      pure ⟨p.blobs.set blinded content, p.records ++ [⟨op.id, ciphertext, [blinded]⟩]⟩

def uploadBlobBatch (blobs : JsMap String Bytes) (hashes : List String) : Round Unit := do
  let entries ← foldM (fun entries hash => do
    let bytes ← encryptBlob W C ((blobs.get hash).getD [])
    pure (entries ++ [⟨hash, bytes⟩])) [] hashes
  putBlobBatch entries

def uploadOneBlob (blobs : JsMap String Bytes) (hash : String) : Round Unit := do
  let envelope ← encryptBlob W C ((blobs.get hash).getD [])
  putBlob hash envelope

def uploadUnits (blobs : JsMap String Bytes) (plan : UploadPlan) : List (Round Unit) :=
  plan.batches.map (uploadBlobBatch W C blobs) ++ plan.singles.map (uploadOneBlob W C blobs)

def typeError : SyncError := .other "TypeError"

def uploadBlobs (missing : List String) (blobs : JsMap String Bytes) : Round Unit :=
  if missing = [] then pure ()
  else match planBlobUpload L missing blobs with
    | none => throw typeError
    | some plan =>
        runPool (·.cancelled) .cancelled true (uploadUnits W C blobs plan)
          (fun n s => s.turn (2 * n)) L.blobUploadConcurrency

def staleError : SyncError :=
  .other ("Append rejected as stale after " ++ toString MAX_STALE_APPEND_RETRIES ++
    " re-pull retries; " ++ "server head is advancing faster than this client can catch up")

def appendOnce (batch : List AppendOp) (cursor : Nat) (stale : Round Nat) : Round Nat :=
  (do
    let r ← appendOps cursor batch
    pure r.headCursor).tryCatch fun e => if e ≠ SyncError.staleCursor then throw e else stale

/-- An append that the server finds stale is tried again from its head, so many times. -/
def appendFrom (opsLimit pages : Nat) (batch : List AppendOp) : Nat → Nat → Round Nat
  | 0, cursor => appendOnce batch cursor (throw staleError)
  | retries + 1, cursor => appendOnce batch cursor do
      let refreshed ← pullAll W C opsLimit pages cursor
      appendFrom opsLimit pages batch retries refreshed.2

def appendBatch (opsLimit pages : Nat) (batch : List AppendOp) (baseCursor : Nat) : Round Nat :=
  appendFrom W C opsLimit pages batch MAX_STALE_APPEND_RETRIES baseCursor

def uploadContent (blobs : JsMap String Bytes) : Round Unit :=
  if blobs.keys = [] then pure ()
  else do
    let missing ← checkBlobs blobs.keys
    uploadBlobs W C L missing blobs

/-- Content first, then the ops that name it, in batches. -/
def pushPendingOps (opsLimit pages : Nat) (contentStore : JsMap String Bytes)
    (pendingOps : List Operation) (baseCursor : Nat) : Round Unit := do
  let p ← foldM (recordOp W C contentStore) ⟨.empty, []⟩ pendingOps
  uploadContent W C L p.blobs
  let _ ← foldM (fun cursor batch => do
    throwIfCancelled
    appendBatch W C opsLimit pages batch cursor) baseCursor (batches L.maxOpsPerAppend p.records)
  pure ()

end Rounds

section Records

variable (W : WebCrypto) (C : VaultCrypto) (contentStore : JsMap String Bytes)

/-- An op as it is appended: under its own id and the vault's key, with a reference to what it
carries. -/
structure Sealed (op : Operation) (a : AppendOp) : Prop where
  id : a.clientOpId = op.id
  ciphertext : ∃ nonce : Nonce, a.ciphertext = C.encryptOp W nonce.bytes op
  blobRefs : a.blobRefs =
    if (contentOf contentStore op).isSome then [C.blindHash W op.contentHash] else []

/-- Content that one of the ops carries, under its blinded hash. -/
def Carried (ops : List Operation) (hash : String) (content : Bytes) : Prop :=
  ∃ op ∈ ops, contentOf contentStore op = some content ∧ hash = C.blindHash W op.contentHash

/-- What a push may send: its ops, and what they carry. -/
inductive Sends (ops : List Operation) : Request → Prop
  | read : Sends ops .read
  | append (baseCursor : Nat) (batch : List AppendOp)
      (h : ∀ a ∈ batch, ∃ op ∈ ops, Sealed W C contentStore op a) :
      Sends ops (.append baseCursor batch)
  | putBlob (hash : String) (content : Bytes) (nonce : Nonce)
      (h : Carried W C contentStore ops hash content) :
      Sends ops (.putBlob hash (C.encryptBlob W nonce.bytes content))
  | putBlobBatch (blobs : List BlobUpload)
      (h : ∀ blob ∈ blobs, ∃ content, ∃ nonce : Nonce,
        Carried W C contentStore ops blob.hash content ∧
          blob.bytes = C.encryptBlob W nonce.bytes content) :
      Sends ops (.putBlobBatch blobs)

/-- The records of a push, op by op. -/
structure Recorded (ops : List Operation) (p : Push) : Prop where
  records : List.Forall₂ (Sealed W C contentStore) ops p.records
  refs : ∀ a ∈ p.records, ∀ ref ∈ a.blobRefs, p.blobs.has ref = true
  blobs : ∀ hash content, p.blobs.get hash = some content → Carried W C contentStore ops hash content

/-- How a push may fail: as its pulls do, or when the server's head keeps moving. -/
def PushFails (e : SyncError) (s : Net) : Prop := PullFails W C e s ∨ e = staleError

variable {W C contentStore} {R G : Net → Net → Prop} {X : SyncError → Net → Prop}
  {ops done : List Operation} {op : Operation} {p : Push} {s : Net}

theorem encryptOp_spec :
    wp R G (encryptOp W C op) (ends (fun c _ => ∃ nonce : Nonce,
      c = C.encryptOp W nonce.bytes op) X) s := fun _ _ _ => ⟨s.nonce, rfl⟩

theorem encryptBlob_spec (content : Bytes) :
    wp R G (encryptBlob W C content) (ends (fun bytes _ => ∃ nonce : Nonce,
      bytes = C.encryptBlob W nonce.bytes content) X) s := fun _ _ _ => ⟨s.nonce, rfl⟩

theorem Carried.mono {more : List Operation} {hash : String} {content : Bytes}
    (h : Carried W C contentStore done hash content) (hmore : ∀ op ∈ done, op ∈ more) :
    Carried W C contentStore more hash content := by
  obtain ⟨op, hop, hc⟩ := h
  exact ⟨op, hmore op hop, hc⟩

/-- One op more; what it carries replaces what is there under its blinded hash. -/
theorem Recorded.add (h : Recorded W C contentStore done p) {ciphertext : String}
    (hc : ∃ nonce : Nonce, ciphertext = C.encryptOp W nonce.bytes op) {content : Bytes}
    (hop : contentOf contentStore op = some content) :
    Recorded W C contentStore (done ++ [op])
      ⟨p.blobs.set (C.blindHash W op.contentHash) content,
        p.records ++ [⟨op.id, ciphertext, [C.blindHash W op.contentHash]⟩]⟩ where
  records := List.rel_append h.records (.cons ⟨rfl, hc, by simp [hop]⟩ .nil)
  refs := by
    have hgrow : ∀ ref, p.blobs.has ref = true →
        (p.blobs.set (C.blindHash W op.contentHash) content).has ref = true := by
      intro ref href
      obtain ⟨bytes, hbytes⟩ := (JsMap.has_iff _ _).1 href
      rw [JsMap.has_iff, JsMap.get_set]
      split
      · exact ⟨content, rfl⟩
      · exact ⟨bytes, hbytes⟩
    refine List.forall_mem_append.2 ⟨fun a ha ref href => hgrow ref (h.refs a ha ref href), ?_⟩
    refine List.forall_mem_singleton.2 (List.forall_mem_singleton.2 ?_)
    exact (JsMap.has_iff _ _).2 ⟨content, JsMap.get_set_self _ _ _⟩
  blobs := by
    intro hash bytes hget
    rw [JsMap.get_set] at hget
    split at hget
    · rename_i heq
      obtain rfl := Option.some.inj hget
      exact ⟨op, List.mem_append_right _ (List.mem_singleton_self op), hop, heq.symm⟩
    · exact (h.blobs hash bytes hget).mono fun op hop => List.mem_append_left _ hop

theorem Recorded.addBare (h : Recorded W C contentStore done p) {ciphertext : String}
    (hc : ∃ nonce : Nonce, ciphertext = C.encryptOp W nonce.bytes op)
    (hop : contentOf contentStore op = none) :
    Recorded W C contentStore (done ++ [op]) ⟨p.blobs, p.records ++ [⟨op.id, ciphertext, []⟩]⟩ where
  records := List.rel_append h.records (.cons ⟨rfl, hc, by simp [hop]⟩ .nil)
  refs := List.forall_mem_append.2
    ⟨h.refs, List.forall_mem_singleton.2 (List.forall_mem_nil _)⟩
  blobs := fun hash bytes hget =>
    (h.blobs hash bytes hget).mono fun op hop => List.mem_append_left _ hop

theorem recordOps_spec (h : Recorded W C contentStore done p) :
    wp R G (foldM (recordOp W C contentStore) p ops)
      (ends (fun p _ => Recorded W C contentStore (done ++ ops) p) X) s := by
  induction ops generalizing done p s with
  | nil =>
      rw [List.append_nil]
      exact h
  | cons op rest ih =>
      refine wp_bind'.2 (wp_mono (Q := ends (fun p _ => Recorded W C contentStore (done ++ [op]) p) X)
        ?_ ?_)
      · rintro (e | p') s' hp
        · exact hp
        have hrest := ih (s := s') hp
        rw [List.append_assoc] at hrest
        exact hrest
      · rw [recordOp]
        cases hop : contentOf contentStore op with
        | none =>
            refine wp_bind.2 (wp_mono ?_ (encryptOp_spec (X := X)))
            rintro (e | ciphertext) s' hc
            · exact hc
            · exact h.addBare hc hop
        | some content =>
            refine wp_bind.2 (wp_pause.2 fun s' _ => ?_)
            refine wp_bind.2 (wp_mono ?_ (encryptOp_spec (X := X)))
            rintro (e | ciphertext) s'' hc
            · exact hc
            · exact h.add hc hop

end Records

section Uploads

variable {W : WebCrypto} {C : VaultCrypto} {L : UploadLimits} {contentStore : JsMap String Bytes}
  {H : Request → Prop} {R : Net → Net → Prop} {ops : List Operation} {blobs : JsMap String Bytes}
  {hashes : List String} {hash : String} {s : Net}

/-- The server has all of these blobs. -/
def Stored (hashes : List String) (s : Net) : Prop := ∀ hash ∈ hashes, s.server.blobs.has hash = true

theorem Stored.traffic {s s' : Net} (h : Stored hashes s) (ht : Traffic H s s') :
    Stored hashes s' := fun hash hmem => (kept_of_traffic ht).has (h hash hmem)

theorem putBlobBatch_spec {entries : List BlobUpload}
    (hsends : Sends W C contentStore ops (.putBlobBatch entries)) :
    wp (Traffic H) (Sending (Sends W C contentStore ops)) (putBlobBatch entries)
      (ends (fun _ => Stored (entries.map BlobUpload.hash)) (PushFails W C)) s := by
  refine wp_call (sending_deliver hsends) (fun s₁ _ fault _ => Or.inl (.request _ fault s₁))
    fun s₁ s₂ _ hs₂ => ⟨Stored.traffic (fun hash hmem => ?_) hs₂,
      fun fault _ => Or.inl (.request _ fault s₂)⟩
  obtain ⟨entry, hentry, rfl⟩ := List.mem_map.1 hmem
  exact has_storeBlobs hentry _

theorem putBlob_spec {bytes : Bytes} (hsends : Sends W C contentStore ops (.putBlob hash bytes)) :
    wp (Traffic H) (Sending (Sends W C contentStore ops)) (putBlob hash bytes)
      (ends (fun _ => Stored [hash]) (PushFails W C)) s := by
  refine wp_call (sending_deliver hsends) (fun s₁ _ fault _ => Or.inl (.request _ fault s₁))
    fun s₁ s₂ _ hs₂ => ⟨Stored.traffic (List.forall_mem_singleton.2 ?_) hs₂,
      fun fault _ => Or.inl (.request _ fault s₂)⟩
  exact has_storeBlob _ ⟨hash, bytes⟩

/-- What the blobs of a push are, and that it knows all that it is to upload. -/
structure Uploads (W : WebCrypto) (C : VaultCrypto) (contentStore : JsMap String Bytes)
    (ops : List Operation) (blobs : JsMap String Bytes) (hashes : List String) : Prop where
  carried : ∀ hash content, blobs.get hash = some content → Carried W C contentStore ops hash content
  known : ∀ hash ∈ hashes, blobs.has hash = true

theorem Uploads.content (h : Uploads W C contentStore ops blobs hashes) (hmem : hash ∈ hashes) :
    Carried W C contentStore ops hash ((blobs.get hash).getD []) := by
  obtain ⟨content, hget⟩ := (JsMap.has_iff _ _).1 (h.known hash hmem)
  rw [hget]
  exact h.carried hash content hget

theorem uploadOneBlob_spec (h : Uploads W C contentStore ops blobs hashes) (hmem : hash ∈ hashes) :
    wp (Traffic H) (Sending (Sends W C contentStore ops)) (uploadOneBlob W C blobs hash)
      (ends (fun _ => Stored [hash]) (PushFails W C)) s := by
  refine wp_bind.2 (wp_mono ?_ (encryptBlob_spec (X := PushFails W C) _))
  rintro (e | envelope) s' hbytes
  · exact hbytes
  obtain ⟨nonce, rfl⟩ := hbytes
  exact putBlob_spec (.putBlob hash _ nonce (h.content hmem))

theorem uploadBlobBatch_spec {batch : List String} (h : Uploads W C contentStore ops blobs hashes)
    (hbatch : ∀ hash ∈ batch, hash ∈ hashes) :
    wp (Traffic H) (Sending (Sends W C contentStore ops)) (uploadBlobBatch W C blobs batch)
      (ends (fun _ => Stored batch) (PushFails W C)) s := by
  have hentries := wp_collect (R := Traffic H) (G := Sending (Sends W C contentStore ops))
    (X := PushFails W C) (f := fun hash => do
      let bytes ← encryptBlob W C ((blobs.get hash).getD [])
      pure (⟨hash, bytes⟩ : BlobUpload))
    (P := fun hash entry => entry.hash = hash ∧ ∃ nonce : Nonce,
      entry.bytes = C.encryptBlob W nonce.bytes ((blobs.get hash).getD []))
    (l := batch) (fun hash _ s => by
      refine wp_bind.2 (wp_mono ?_ (encryptBlob_spec (X := PushFails W C) _))
      rintro (e | bytes) s' hbytes
      · exact hbytes
      · exact ⟨rfl, hbytes⟩) (s := s) .nil
  refine wp_bind.2 (wp_mono ?_ hentries)
  rintro (e | entries) s' hrel
  · exact hrel
  rw [List.nil_append] at hrel
  have hmap : entries.map BlobUpload.hash = batch := by
    rw [map_of_related (f := id) hrel fun _ _ h => h.1, List.map_id]
  have hsends : Sends W C contentStore ops (.putBlobBatch entries) := by
    refine .putBlobBatch entries fun entry hentry => ?_
    obtain ⟨hash, hin, heq, nonce, hbytes⟩ := exists_left hrel hentry
    rw [heq]
    exact ⟨_, nonce, h.content (hbatch hash hin), hbytes⟩
  rw [← hmap]
  exact putBlobBatch_spec hsends

/-- The hashes of each unit, in the order of the units. -/
def UploadPlan.units (plan : UploadPlan) : List (List String) :=
  plan.batches ++ plan.singles.map fun hash => [hash]

theorem length_uploadUnits (plan : UploadPlan) :
    (uploadUnits W C blobs plan).length = plan.units.length := by
  simp [uploadUnits, UploadPlan.units]

theorem uploadUnits_spec {plan : UploadPlan} (h : Uploads W C contentStore ops blobs hashes)
    (hplan : ∀ unit ∈ plan.units, ∀ hash ∈ unit, hash ∈ hashes) {i : Nat} {u : Round Unit}
    (hu : (uploadUnits W C blobs plan)[i]? = some u) :
    wp (Traffic H) (Sending (Sends W C contentStore ops)) u
      (ends (fun _ s => ∀ unit, plan.units[i]? = some unit → Stored unit s) (PushFails W C)) s := by
  rw [uploadUnits, List.getElem?_append, List.length_map] at hu
  rw [UploadPlan.units, List.getElem?_append]
  split at hu
  · rename_i hlt
    rw [List.getElem?_map, Option.map_eq_some_iff] at hu
    obtain ⟨batch, hbatch, rfl⟩ := hu
    have hin := List.mem_of_getElem? hbatch
    refine wp_mono ?_ (uploadBlobBatch_spec h (hplan batch (List.mem_append_left _ hin)))
    rintro (e | r) s' hs
    · exact hs
    · intro unit hunit
      rw [if_pos hlt, hbatch] at hunit
      exact Option.some.inj hunit ▸ hs
  · rename_i hge
    rw [List.getElem?_map, Option.map_eq_some_iff] at hu
    obtain ⟨hash, hhash, rfl⟩ := hu
    have hin := List.mem_map_of_mem (f := fun hash => [hash]) (List.mem_of_getElem? hhash)
    refine wp_mono ?_ (uploadOneBlob_spec h (hplan [hash] (List.mem_append_right _ hin) hash
      (List.mem_singleton_self hash)))
    rintro (e | r) s' hs
    · exact hs
    · intro unit hunit
      rw [if_neg hge, List.getElem?_map, hhash] at hunit
      exact Option.some.inj hunit ▸ hs

/-- Each unit runs beside the others and beside the other devices. -/
theorem uploads_job {plan : UploadPlan} (h : Uploads W C contentStore ops blobs hashes)
    (hplan : ∀ unit ∈ plan.units, ∀ hash ∈ unit, hash ∈ hashes) :
    Job (Traffic fun r => H r ∨ Sends W C contentStore ops r) (Sending (Sends W C contentStore ops))
      (uploadUnits W C blobs plan) (fun _ => True)
      (fun i s => ∀ unit, plan.units[i]? = some unit → Stored unit s) (PushFails W C) where
  refl := sending_refl
  trans := traffic_trans
  own := fun s s' ht => traffic_mono (fun _ => Or.inr) s s' ht.traffic
  kept := fun _ _ _ _ => trivial
  stays := fun _ _ _ ht hdone unit hunit => (hdone unit hunit).traffic ht
  unit := fun _ _ hu _ _ => uploadUnits_spec h hplan hu

/-- When an upload returns, the server has every blob that it was to upload. -/
theorem uploadBlobs_spec (h : Uploads W C contentStore ops blobs hashes) :
    wp (Traffic H) (Sending (Sends W C contentStore ops)) (uploadBlobs W C L hashes blobs)
      (ends (fun _ => Stored hashes) (PushFails W C)) s := by
  rw [uploadBlobs]
  split
  · rename_i hnil
    rw [hnil]
    exact List.forall_mem_nil _
  obtain ⟨plan, hplan, hflat, hsingles, -, -⟩ := planBlobUpload_optimal (L := L) h.known
  rw [hplan]
  have hmem : ∀ hash, hash ∈ hashes ↔ ∃ unit ∈ plan.units, hash ∈ unit := by
    intro hash
    have hbatches : (∃ batch ∈ plan.batches, hash ∈ batch) ↔
        hash ∈ hashes ∧ sizeOf blobs hash ≤ L.blobBatchThreshold := by
      rw [← List.mem_flatten, hflat, List.mem_filter, decide_eq_true_iff]
    have hlarge : hash ∈ plan.singles ↔ hash ∈ hashes ∧ L.blobBatchThreshold < sizeOf blobs hash := by
      rw [hsingles, List.mem_filter, decide_eq_true_iff]
    have hunits : (∃ unit ∈ plan.units, hash ∈ unit) ↔
        (∃ batch ∈ plan.batches, hash ∈ batch) ∨ hash ∈ plan.singles := by
      simp [UploadPlan.units, or_and_right, exists_or]
    rw [hunits, hbatches, hlarge, ← and_or_left, and_iff_left (Nat.lt_or_ge _ _).symm]
  have hunit : ∀ unit ∈ plan.units, ∀ hash ∈ unit, hash ∈ hashes :=
    fun unit hunit hash hin => (hmem hash).2 ⟨unit, hunit, hin⟩
  refine wp_mono ?_ (wp_runPool (·.cancelled) .cancelled true (fun n s => s.turn (2 * n))
    (uploads_job h hunit) (traffic_mono fun _ => Or.inl) (fun s _ => Or.inl (.cancelled s))
    L.concurrency_pos trivial)
  rintro (e | r) s' hdone
  · exact hdone
  intro hash hin
  obtain ⟨unit, hunit, hhash⟩ := (hmem hash).1 hin
  obtain ⟨i, hi⟩ := List.mem_iff_getElem?.1 hunit
  have hlt := (List.getElem?_eq_some_iff.1 hi).1
  exact hdone i (by rwa [length_uploadUnits]) unit hi hash hhash

theorem checkBlobs_spec :
    wp (Traffic H) (Sending (Sends W C contentStore ops)) (checkBlobs hashes)
      (ends (fun missing s => (∀ hash ∈ missing, hash ∈ hashes) ∧
        ∀ hash ∈ hashes, hash ∉ missing → s.server.blobs.has hash = true) (PushFails W C)) s := by
  refine wp_call (sending_deliver .read) (fun s₁ _ fault _ => Or.inl (.request _ fault s₁))
    fun s₁ s₂ _ hs₂ => ⟨⟨fun hash hmem => (List.mem_filter.1 hmem).1, fun hash hmem hnot => ?_⟩,
      fun fault _ => Or.inl (.request _ fault s₂)⟩
  have hread := kept_of_traffic (traffic_deliver (H := (· = .read)) rfl s₁)
  refine (hread.trans (kept_of_traffic hs₂)).has ?_
  by_contra hlacks
  exact hnot (List.mem_filter.2 ⟨hmem, by simpa using hlacks⟩)

/-- What the server has not is uploaded; what it has it keeps. -/
theorem uploadContent_spec (h : ∀ hash content, blobs.get hash = some content →
    Carried W C contentStore ops hash content) :
    wp (Traffic H) (Sending (Sends W C contentStore ops)) (uploadContent W C L blobs)
      (ends (fun _ => Stored blobs.keys) (PushFails W C)) s := by
  rw [uploadContent]
  split
  · rename_i hnil
    rw [hnil]
    exact List.forall_mem_nil _
  refine wp_bind.2 (wp_mono ?_ checkBlobs_spec)
  rintro (e | missing) s' hcheck
  · exact hcheck
  obtain ⟨hmissing, hheld⟩ := hcheck
  have huploads : Uploads W C contentStore ops blobs missing := ⟨h, fun hash hmem =>
    (JsMap.has_iff _ _).2 ((JsMap.mem_keys_iff _).1 (hmissing hash hmem))⟩
  have hrest : Stored (blobs.keys.filter (· ∉ missing)) s' := by
    intro hash hmem
    obtain ⟨hkey, hnot⟩ := List.mem_filter.1 hmem
    exact hheld hash hkey (of_decide_eq_true hnot)
  refine wp_mono ?_ (wp_invariant (fun _ _ ht hs => hs.traffic ht) (fun _ _ ht hs => hs.traffic ht.traffic)
    (uploadBlobs_spec huploads) hrest)
  rintro (e | r) s'' ⟨hs, hrest⟩
  · exact hs
  intro hash hkey
  by_cases hmem : hash ∈ missing
  · exact hs hash hmem
  · exact hrest hash (List.mem_filter.2 ⟨hkey, decide_eq_true hmem⟩)

end Uploads

section Appends

variable {W : WebCrypto} {C : VaultCrypto} {L : UploadLimits} {contentStore : JsMap String Bytes}
  {H : Request → Prop} {ops : List Operation} {batch : List AppendOp} {l : List AppendOp}
  {opsLimit pages cursor : Nat} {s : Net}

/-- The server's ledger goes on from `l` and has each of these ops. -/
def Entered (l : List AppendOp) (ids : List String) (s : Net) : Prop :=
  ∃ l', l <+: l' ∧ Holds l' s ∧ ∀ id ∈ ids, id ∈ l'.map AppendOp.clientOpId

theorem Entered.traffic {ids : List String} {s s' : Net} (h : Entered l ids s)
    (ht : Traffic H s s') : Entered l ids s' := by
  obtain ⟨l', hl, hholds, hids⟩ := h
  exact ⟨l', hl, hholds.traffic ht, hids⟩

/-- What a batch may be appended with: its ops are our own, and their blobs are there. -/
structure Ready (W : WebCrypto) (C : VaultCrypto) (contentStore : JsMap String Bytes)
    (ops : List Operation) (l : List AppendOp) (batch : List AppendOp) (s : Net) : Prop where
  own : ∀ a ∈ batch, ∃ op ∈ ops, Sealed W C contentStore op a
  stored : ∀ a ∈ batch, ∀ ref ∈ a.blobRefs, s.server.blobs.has ref = true
  holds : Holds l s

theorem Ready.traffic {s s' : Net} (h : Ready W C contentStore ops l batch s)
    (ht : Traffic H s s') : Ready W C contentStore ops l batch s' :=
  ⟨h.own, fun a ha ref href => (kept_of_traffic ht).has (h.stored a ha ref href),
    h.holds.traffic ht⟩

theorem appendOnce_spec {stale : Round Nat} (h : Ready W C contentStore ops l batch s)
    (hstale : ∀ s', Ready W C contentStore ops l batch s' →
      wp (Traffic H) (Sending (Sends W C contentStore ops)) stale
        (ends (fun _ => Entered l (batch.map AppendOp.clientOpId)) (PushFails W C)) s') :
    wp (Traffic H) (Sending (Sends W C contentStore ops)) (appendOnce batch cursor stale)
      (ends (fun _ => Entered l (batch.map AppendOp.clientOpId)) (PushFails W C)) s := by
  have hsends : Sends W C contentStore ops (.append cursor batch) := .append cursor batch h.own
  have hfault : ∀ fault s', Ready W C contentStore ops l batch s' →
      wp (Traffic H) (Sending (Sends W C contentStore ops))
        (if (if fault = Fault.status 409 then SyncError.staleCursor
          else requestError "uploading your changes" fault) ≠ .staleCursor then
            throw (if fault = Fault.status 409 then SyncError.staleCursor
              else requestError "uploading your changes" fault)
          else stale)
        (ends (fun _ => Entered l (batch.map AppendOp.clientOpId)) (PushFails W C)) s' := by
    intro fault s' hready
    by_cases h409 : fault = .status 409
    · simp only [if_pos h409, ne_eq, not_true_eq_false, if_false]
      exact hstale s' hready
    · simp only [if_neg h409]
      split
      · exact Or.inl (.request _ fault s')
      · exact hstale s' hready
  refine wp_tryCatch.2 (wp_bind.2 (wp_call (sending_deliver hsends)
    (fun s₁ hs₁ fault _ => hfault fault s₁ (h.traffic hs₁)) fun s₁ s₂ hs₁ hs₂ => ?_))
  have hready := h.traffic hs₁
  have hdeliver := hready.traffic (traffic_deliver hsends s₁)
  refine ⟨?_, fun fault _ => hfault fault s₂ (hdeliver.traffic hs₂)⟩
  obtain ⟨l', hl, hrep⟩ := hready.holds
  obtain ⟨assigned, hok⟩ := appendEach_ok (s := s₁.server.claim) batch hready.stored
  obtain ⟨done, -, -, hrep', hall⟩ := appendOps_refines cursor batch hrep
  have hanswer : (FakeSyncServer.appendOps cursor batch s₁.server).1 =
      .ok ⟨assigned, (FakeSyncServer.appendOps cursor batch s₁.server).2.seq⟩ := by
    rw [FakeSyncServer.appendOps, hok]
    rfl
  rw [hanswer]
  obtain ⟨rfl, -⟩ := hall _ hanswer
  have hentered : Entered l (done.map AppendOp.clientOpId) (s₁.deliver (.append cursor done)) := by
    refine ⟨_, hl.trans prefix_enterAll, ⟨_, List.prefix_rfl, hrep'⟩, fun id hid => ?_⟩
    exact mem_keys_enterAll.2 (Or.inr hid)
  exact hentered.traffic hs₂

/-- However often the server finds the cursor stale, a batch that is answered is appended. -/
theorem appendFrom_spec (hlimit : 0 < opsLimit) {retries : Nat}
    (h : Ready W C contentStore ops l batch s) :
    wp (Traffic H) (Sending (Sends W C contentStore ops))
      (appendFrom W C opsLimit pages batch retries cursor)
      (ends (fun _ => Entered l (batch.map AppendOp.clientOpId)) (PushFails W C)) s := by
  induction retries generalizing cursor s with
  | zero => exact appendOnce_spec h fun s' _ => Or.inr rfl
  | succ retries ih =>
      refine appendOnce_spec h fun s' hready => ?_
      obtain ⟨l', hl, hrep⟩ := hready.holds
      have hpull : wp (Traffic H) (Sending (Sends W C contentStore ops))
          (pullAll W C opsLimit pages cursor) (fun r s => ends (fun _ _ => True) (PullFails W C) r s ∧
            Ready W C contentStore ops l batch s) s' := by
        have hread := wp_weaken (fun _ _ h => h) (sending_of_reads (show Sends W C contentStore ops .read from .read))
          (pullAll_spec (H := H) (W := W) (C := C) pages cursor hlimit ⟨_, List.prefix_rfl, hrep⟩)
        refine wp_mono ?_ (wp_invariant (fun _ _ ht h => h.traffic ht) (fun _ _ ht h => h.traffic ht.traffic)
          hread hready)
        rintro (e | r) s'' ⟨hr, hready'⟩
        · exact ⟨hr, hready'⟩
        · exact ⟨trivial, hready'⟩
      refine wp_bind.2 (wp_mono ?_ hpull)
      rintro (e | r) s'' ⟨hr, hready'⟩
      · exact Or.inl hr
      · exact ih hready'

/-- The batches go one after the other; each leaves what is appended in place. -/
theorem appendBatches_spec (hlimit : 0 < opsLimit) {parts : List (List AppendOp)} {ids : List String}
    (hown : ∀ part ∈ parts, ∀ a ∈ part, ∃ op ∈ ops, Sealed W C contentStore op a)
    (hstored : ∀ part ∈ parts, ∀ a ∈ part, ∀ ref ∈ a.blobRefs, s.server.blobs.has ref = true)
    (hids : Entered l ids s) :
    wp (Traffic H) (Sending (Sends W C contentStore ops)) (foldM (fun cursor batch => do
      throwIfCancelled
      appendBatch W C opsLimit pages batch cursor) cursor parts)
      (ends (fun _ => Entered l (ids ++ parts.flatten.map AppendOp.clientOpId)) (PushFails W C)) s := by
  induction parts generalizing cursor ids s with
  | nil =>
      rw [List.flatten_nil, List.map_nil, List.append_nil]
      exact hids
  | cons part rest ih =>
      obtain ⟨l', hl, hheld, hin⟩ := hids
      have hready : Ready W C contentStore ops l' part s :=
        ⟨hown part List.mem_cons_self, hstored part List.mem_cons_self, hheld⟩
      have hstays : ∀ (T : Request → Prop) (s s' : Net), Traffic T s s' →
          (∀ part ∈ rest, ∀ a ∈ part, ∀ ref ∈ a.blobRefs, s.server.blobs.has ref = true) →
          ∀ part ∈ rest, ∀ a ∈ part, ∀ ref ∈ a.blobRefs, s'.server.blobs.has ref = true :=
        fun T s s' ht h part hpart a ha ref href => (kept_of_traffic ht).has (h part hpart a ha ref href)
      refine wp_bind'.2 (wp_throwIfCancelled (Or.inl (.cancelled s)) (wp_mono ?_ (wp_invariant
        (hstays _) (fun s s' ht => hstays _ s s' ht.traffic) (appendFrom_spec hlimit hready)
        fun part hpart => hstored part (List.mem_cons_of_mem _ hpart))))
      rintro (e | r) s' ⟨hr, hrest⟩
      · exact hr
      obtain ⟨l'', hl', hheld', hin'⟩ := hr
      have hids' : Entered l (ids ++ part.map AppendOp.clientOpId) s' := by
        refine ⟨l'', hl.trans hl', hheld', List.forall_mem_append.2 ⟨fun id hid => ?_, hin'⟩⟩
        exact (hl'.map AppendOp.clientOpId).subset (hin id hid)
      rw [List.flatten_cons, List.map_append, ← List.append_assoc]
      exact ih (fun part hpart => hown part (List.mem_cons_of_mem _ hpart)) hrest hids'

/-- What a push is for: the ops are in the ledger, and what they carry is stored. -/
structure Delivered (W : WebCrypto) (C : VaultCrypto) (contentStore : JsMap String Bytes)
    (l : List AppendOp) (ops : List Operation) (s : Net) : Prop where
  entered : Entered l (ops.map Operation.id) s
  stored : ∀ op ∈ ops, (contentOf contentStore op).isSome = true →
    s.server.blobs.has (C.blindHash W op.contentHash) = true

theorem pushPendingOps_spec (hlimit : 0 < opsLimit) {pendingOps : List Operation} (hl : Holds l s) :
    wp (Traffic H) (Sending (Sends W C contentStore pendingOps))
      (pushPendingOps W C L opsLimit pages contentStore pendingOps cursor)
      (ends (fun _ => Delivered W C contentStore l pendingOps) (PushFails W C)) s := by
  have hholds : ∀ (T : Request → Prop) (s s' : Net), Traffic T s s' → Holds l s → Holds l s' :=
    fun T s s' ht h => h.traffic ht
  have hempty : Recorded W C contentStore [] ⟨.empty, []⟩ :=
    ⟨.nil, List.forall_mem_nil _, by rintro hash content ⟨⟩⟩
  refine wp_bind.2 (wp_mono ?_ (wp_invariant (hholds _)
    (fun s s' ht => hholds _ s s' ht.traffic)
    (recordOps_spec (X := PushFails W C) hempty) hl))
  rintro (e | p) s₁ ⟨hp, hheld₁⟩
  · exact hp
  rw [List.nil_append] at hp
  refine wp_bind.2 (wp_mono ?_ (wp_invariant (hholds _)
    (fun s s' ht => hholds _ s s' ht.traffic)
    (uploadContent_spec hp.blobs) hheld₁))
  rintro (e | u) s₂ ⟨hstored, hheld₂⟩
  · exact hstored
  have hrefs : ∀ a ∈ p.records, ∀ ref ∈ a.blobRefs, s₂.server.blobs.has ref = true :=
    fun a ha ref href =>
      hstored ref ((JsMap.mem_keys_iff _).2 ((JsMap.has_iff _ _).1 (hp.refs a ha ref href)))
  have hsealed : ∀ a ∈ p.records, ∃ op ∈ pendingOps, Sealed W C contentStore op a :=
    fun a ha => exists_left hp.records ha
  have hparts : ∀ part ∈ batches L.maxOpsPerAppend p.records, ∀ a ∈ part, a ∈ p.records :=
    fun part hpart a ha => (mem_batches_iff L.ops_pos).1 ⟨part, hpart, ha⟩
  have hcarried : ∀ op ∈ pendingOps, (contentOf contentStore op).isSome = true →
      s₂.server.blobs.has (C.blindHash W op.contentHash) = true := by
    intro op hop hsome
    obtain ⟨a, ha, hseal⟩ := exists_right hp.records hop
    refine hrefs a ha _ ?_
    rw [hseal.blobRefs, if_pos hsome]
    exact List.mem_singleton_self _
  have hkept : ∀ (T : Request → Prop) (s s' : Net), Traffic T s s' →
      (∀ op ∈ pendingOps, (contentOf contentStore op).isSome = true →
        s.server.blobs.has (C.blindHash W op.contentHash) = true) →
      ∀ op ∈ pendingOps, (contentOf contentStore op).isSome = true →
        s'.server.blobs.has (C.blindHash W op.contentHash) = true :=
    fun T s s' ht h op hop hsome => (kept_of_traffic ht).has (h op hop hsome)
  have hnone : Entered l [] s₂ := ⟨l, List.prefix_rfl, hheld₂, List.forall_mem_nil _⟩
  refine wp_bind.2 (wp_mono ?_ (wp_invariant (hkept _)
    (fun s s' ht => hkept _ s s' ht.traffic) (appendBatches_spec hlimit
    (fun part hpart a ha => hsealed a (hparts part hpart a ha))
    (fun part hpart a ha => hrefs a (hparts part hpart a ha))
    hnone) hcarried))
  rintro (e | r) s₃ ⟨hentered, hin⟩
  · exact hentered
  refine ⟨?_, hin⟩
  have hids : p.records.map AppendOp.clientOpId = pendingOps.map Operation.id :=
    map_of_related hp.records fun _ _ hseal => hseal.id
  rw [List.nil_append, flatten_batches L.ops_pos, hids] at hentered
  exact hentered

/-- Beside any traffic of other devices and over any link, a push that returns has delivered every
pending op and what it carries. It sends nothing but these, sealed, and never fails because a blob
is not there yet. -/
theorem pushPendingOps_delivers (hlimit : 0 < opsLimit) {pendingOps : List Operation}
    (hrep : Represents s.server l) :
    wp (Traffic H) (Sending (Sends W C contentStore pendingOps))
      (pushPendingOps W C L opsLimit pages contentStore pendingOps cursor)
      (ends (fun _ => Delivered W C contentStore l pendingOps) (PushFails W C)) s :=
  pushPendingOps_spec hlimit ⟨l, List.prefix_rfl, hrep⟩

theorem pushPendingOps_delivers_twoOps :
    wp (Traffic fun _ => True)
      (Sending (Sends plainCrypto plainVault (JsMap.ofList [(sha256Hex plainCrypto [65], [65])])
        [opAt "1" "a" 5 "n.md", opAt "2" "a" 6 "n.md"]))
      (pushPendingOps plainCrypto plainVault (.ofOptions none none none none none) 500 9
        (JsMap.ofList [(sha256Hex plainCrypto [65], [65])])
        [opAt "1" "a" 5 "n.md", opAt "2" "a" 6 "n.md"] 0)
      (ends (fun _ => Delivered plainCrypto plainVault
          (JsMap.ofList [(sha256Hex plainCrypto [65], [65])]) twoOps
          [opAt "1" "a" 5 "n.md", opAt "2" "a" 6 "n.md"])
        (PushFails plainCrypto plainVault)) (.quiet twoOpsServer) :=
  pushPendingOps_delivers (by decide) represents_twoOps

end Appends

end OpsBlobs.OpPush
