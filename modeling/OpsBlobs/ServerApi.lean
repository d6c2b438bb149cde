import OpsBlobs.Encryption
import OpsBlobs.Promises
import OpsBlobs.SyncServer

namespace OpsBlobs.ServerApi

open Types Coroutine Encryption SyncServer

/-- What becomes of a request that is not answered as the server means it: no response, one that
comes too late, or a status other than the successes. -/
inductive Fault
  | noResponse
  | timeout (timeoutMs : Nat)
  | status (code : Nat)
  deriving DecidableEq, Repr

/-- The link at the time of a request. A request that is `lost` on the way back was served. -/
inductive Link
  | up
  | down (fault : Fault)
  | lost (fault : Fault)
  deriving DecidableEq, Repr

structure Nonce where
  bytes : Bytes
  length_eq : bytes.length = GCM_NONCE_BYTES

/-- The server, and what a device meets by chance: the link, a click on "Cancel sync", the next
random nonce, and whose turn it is where several calls may go on. -/
structure Net where
  server : FakeSyncServer
  link : Link
  cancelled : Bool
  nonce : Nonce
  turn : Nat → Bool

/-- The link is up and nothing else is going on. -/
def Net.quiet (server : FakeSyncServer) : Net where
  server := server
  link := .up
  cancelled := false
  nonce := ⟨List.replicate GCM_NONCE_BYTES 0, List.length_replicate⟩
  turn := fun _ => false

def Net.deliver (request : Request) (s : Net) : Net := { s with server := request.effect s.server }

abbrev Round := Coroutine Net SyncError

section Requests

variable {α : Type}

def ofExcept : Except SyncError α → Round α
  | .ok a => pure a
  | .error e => throw e

def throwIfCancelled : Round Unit := do
  let s ← get
  if s.cancelled then throw .cancelled

def send (request : Request) (onFault : Fault → Except SyncError α)
    (answer : FakeSyncServer → Except SyncError α) (s : Net) : Round α :=
  match s.link with
  | .down fault => ofExcept (onFault fault)
  | .lost fault => do
      modify (Net.deliver request)
      pause
      ofExcept (onFault fault)
  | .up => do
      modify (Net.deliver request)
      pause
      ofExcept (answer s.server)

/-- A request that fails for its time limit is not called back and may still be served, at any
later time. -/
def call (request : Request) (onFault : Fault → Except SyncError α)
    (answer : FakeSyncServer → Except SyncError α) : Round α := do
  pause
  let s ← get
  send request onFault answer s

def statusError (status : Nat) (operation : String) : SyncError :=
  if status = 401 ∨ status = 403 then .auth status
  else if status = 404 then .notFound
  else .server status operation

def requestError (operation : String) : Fault → SyncError
  | .noResponse => .network operation
  | .timeout timeoutMs => .timeout operation timeoutMs
  | .status code => statusError code operation

/-- A failure of one request. -/
def FromLink (e : SyncError) : Prop := ∃ operation fault, e = requestError operation fault

theorem ne_cancelled_of_fromLink {e : SyncError} (h : FromLink e) : e ≠ .cancelled := by
  obtain ⟨operation, fault, rfl⟩ := h
  cases fault with
  | noResponse => rintro ⟨⟩
  | timeout timeoutMs => rintro ⟨⟩
  | status code =>
      rw [requestError, statusError]
      split
      · rintro ⟨⟩
      · split
        · rintro ⟨⟩
        · rintro ⟨⟩

def pullOps (since limit : Nat) : Round PullOpsResult :=
  call .read (fun fault => .error (requestError "downloading changes" fault))
    (fun server => .ok (server.pullOps since limit))

def appendOps (baseCursor : Nat) (ops : List AppendOp) : Round AppendResult :=
  call (.append baseCursor ops)
    (fun fault => .error (if fault = .status 409 then .staleCursor
      else requestError "uploading your changes" fault))
    (fun server => (server.appendOps baseCursor ops).1)

def checkBlobs (hashes : List String) : Round (List String) :=
  call .read (fun fault => .error (requestError "checking the server" fault))
    (fun server => .ok (server.checkBlobs hashes))

def putBlobBatch (blobs : List BlobUpload) : Round Unit :=
  call (.putBlobBatch blobs) (fun fault => .error (requestError "uploading your files" fault))
    (fun _ => .ok ())

def putBlob (hash : String) (bytes : Bytes) : Round Unit :=
  call (.putBlob hash bytes) (fun fault => .error (requestError "uploading a file" fault))
    (fun _ => .ok ())

/-- An answer 404 is a blob that is not held. -/
def getBlob (hash : String) : Round (Option Bytes) :=
  call .read
    (fun fault => if fault = .status 404 then .ok none
      else .error (requestError "downloading a file" fault))
    (fun server => .ok (server.getBlob hash))

def getBlobBatch (hashes : List String) : Round BlobBatch :=
  call .read
    (fun fault => .error (if fault = .status 413 then .batchTooLarge
      else requestError "downloading your files" fault))
    (fun server => .ok (server.getBlobBatch hashes))

def preflight (keyCheckKey : String) : Round Preflight :=
  call .preflight (fun fault => .error (requestError "checking the server" fault))
    (fun server => .ok (server.preflight keyCheckKey))

end Requests

section Crypto

variable (W : WebCrypto) (C : VaultCrypto)

/-- `none` rejects, as the platform's decryption does. -/
def opened {α : Type} (a : Option α) : Round α := do
  pause
  ofExcept (a.elim (.error (.other "OperationError")) .ok)

def encryptOp (op : Operation) : Round String := do
  let s ← get
  pause
  pure (C.encryptOp W s.nonce.bytes op)

def decryptOp (ciphertext : String) : Round Operation := opened (C.decryptOp W ciphertext)

def encryptBlob (content : Bytes) : Round Bytes := do
  let s ← get
  pause
  pure (C.encryptBlob W s.nonce.bytes content)

def decryptBlob (envelope : Bytes) : Round Bytes := opened (C.decryptBlob W envelope)

def blindHash (rawHashHex : String) : Round String := do
  pause
  pure (C.blindHash W rawHashHex)

def verifyKeyCheck (envelope : Bytes) : Round Bool := do
  pause
  pure (C.verifyKeyCheck W envelope)

def buildKeyCheck : Round Bytes := do
  let s ← get
  pause
  pure (C.buildKeyCheck W s.nonce.bytes)

end Crypto

section Progress

variable {α : Type}

open Promises

theorem yields_pause : Yields (pause : Round Unit) := ⟨fun _ => rfl, trivial⟩

theorem yields_ofExcept (r : Except SyncError α) : Yields (ofExcept r) := by
  cases r <;> trivial

theorem yields_call (request : Request) (onFault : Fault → Except SyncError α)
    (answer : FakeSyncServer → Except SyncError α) : Yields (call request onFault answer) := by
  refine yields_bind yields_pause fun _ s => ?_
  change Yields (send request onFault answer s)
  rw [send]
  have hmodify : Yields (modify (Net.deliver request) : Round Unit) := fun _ => trivial
  cases s.link with
  | up => exact yields_bind hmodify fun _ => yields_bind yields_pause fun _ => yields_ofExcept _
  | down fault => exact yields_ofExcept _
  | lost fault =>
      exact yields_bind hmodify fun _ => yields_bind yields_pause fun _ => yields_ofExcept _

theorem prompt_throwIfCancelled {R : Net → Net → Prop} {f : Unit → Round α} {s : Net}
    (h : Prompt R (f ()) s) : Prompt R (throwIfCancelled >>= f) s := by
  change Prompt R ((if s.cancelled = true then throw .cancelled else pure () : Round Unit) >>= f) s
  split
  · trivial
  · exact h

theorem yields_opened (a : Option α) : Yields (opened a) :=
  yields_bind yields_pause fun _ => yields_ofExcept _

end Progress

section Rules

variable {α β : Type} {R G : Net → Net → Prop} {Q : Except SyncError α → Net → Prop} {s : Net}

/-- The requests that others send in the meantime; anything else may change. -/
def Traffic (H : Request → Prop) (s s' : Net) : Prop :=
  ∃ requests, (∀ r ∈ requests, H r) ∧ s'.server = serve s.server requests

/-- The requests that a call sends; nothing else does it change. -/
def Sending (H : Request → Prop) (s s' : Net) : Prop :=
  ∃ requests, (∀ r ∈ requests, H r) ∧ s' = { s with server := serve s.server requests }

variable {H H' : Request → Prop}

theorem Sending.traffic {s s' : Net} (h : Sending H s s') : Traffic H s s' := by
  obtain ⟨requests, hr, rfl⟩ := h
  exact ⟨requests, hr, rfl⟩

theorem Sending.link {s s' : Net} (h : Sending H s s') : s'.link = s.link := by
  obtain ⟨requests, -, rfl⟩ := h
  rfl

theorem sending_refl (s : Net) : Sending H s s := ⟨[], List.forall_mem_nil _, rfl⟩

theorem sending_mono (h : ∀ r, H r → H' r) (s s' : Net) (ht : Sending H s s') :
    Sending H' s s' := by
  obtain ⟨requests, hr, hs⟩ := ht
  exact ⟨requests, fun r hm => h r (hr r hm), hs⟩

theorem sending_of_reads (h : H .read) (s s' : Net) (hs : Sending (· = .read) s s') :
    Sending H s s' := sending_mono (by
  rintro r rfl
  exact h) s s' hs

theorem sending_deliver {request : Request} (h : H request) (s : Net) :
    Sending H s (s.deliver request) := ⟨[request], List.forall_mem_singleton.2 h, rfl⟩

theorem traffic_refl (s : Net) : Traffic H s s := ⟨[], List.forall_mem_nil _, rfl⟩

theorem traffic_trans (s s' s'' : Net) (h : Traffic H s s') (h' : Traffic H s' s'') :
    Traffic H s s'' := by
  obtain ⟨requests, hr, hs⟩ := h
  obtain ⟨requests', hr', hs'⟩ := h'
  exact ⟨requests ++ requests', List.forall_mem_append.2 ⟨hr, hr'⟩, by
    rw [hs', hs, serve_append]⟩

theorem traffic_mono (h : ∀ r, H r → H' r) (s s' : Net) (ht : Traffic H s s') :
    Traffic H' s s' := by
  obtain ⟨requests, hr, hs⟩ := ht
  exact ⟨requests, fun r hm => h r (hr r hm), hs⟩

theorem traffic_deliver {request : Request} (h : H request) (s : Net) :
    Traffic H s (s.deliver request) := ⟨[request], List.forall_mem_singleton.2 h, rfl⟩

@[simp] theorem server_deliver (request : Request) (s : Net) :
    (s.deliver request).server = request.effect s.server := rfl

theorem kept_of_traffic {s s' : Net} (h : Traffic H s s') : Kept s.server s'.server := by
  obtain ⟨requests, -, hs⟩ := h
  rw [hs]
  exact kept_serve requests s.server

/-- What only reads leaves the log. -/
theorem log_of_reads {s s' : Net} (h : Traffic (· = .read) s s') : s'.server.log = s.server.log := by
  obtain ⟨requests, hr, hs⟩ := h
  rw [hs]
  clear hs
  generalize s.server = server
  induction requests generalizing server with
  | nil => rfl
  | cons r rest ih =>
      obtain ⟨rfl, hrest⟩ := List.forall_mem_cons.1 hr
      rw [serve_cons, ih hrest]
      rfl

theorem wp_pause {f : Unit → Round α} :
    wp R G (pause >>= f) Q s ↔ ∀ s', R s s' → wp R G (f ()) Q s' :=
  ⟨fun h s' hs => h s' hs rfl, fun h s' hs _ => h s' hs⟩

theorem wp_ofExcept {r : Except SyncError α} : wp R G (ofExcept r) Q s ↔ Q r s := by
  cases r <;> exact Iff.rfl

theorem wp_throwIfCancelled {f : Unit → Round α} (h : Q (.error .cancelled) s)
    (hf : wp R G (f ()) Q s) : wp R G (throwIfCancelled >>= f) Q s := by
  change wp R G ((if s.cancelled = true then _ else _ : Round Unit) >>= f) Q s
  split
  · exact h
  · exact hf

/-- A request is served once or not at all; the answer comes from the moment it is served. -/
theorem wp_call {request : Request} {onFault : Fault → Except SyncError α}
    {answer : FakeSyncServer → Except SyncError α} (hG : ∀ s, G s (s.deliver request))
    (hdown : ∀ s₁, R s s₁ → ∀ fault, s₁.link = .down fault → Q (onFault fault) s₁)
    (hserved : ∀ s₁ s₂, R s s₁ → R (s₁.deliver request) s₂ →
      Q (answer s₁.server) s₂ ∧ ∀ fault, s₁.link = .lost fault → Q (onFault fault) s₂) :
    wp R G (call request onFault answer) Q s := by
  refine wp_pause.2 fun s₁ hs₁ => ?_
  change wp R G (send request onFault answer s₁) Q s₁
  rw [send]
  cases hlink : s₁.link with
  | up => exact ⟨hG s₁, wp_pause.2 fun s₂ hs₂ => wp_ofExcept.2 (hserved s₁ s₂ hs₁ hs₂).1⟩
  | down fault => exact wp_ofExcept.2 (hdown s₁ hs₁ fault hlink)
  | lost fault =>
      exact ⟨hG s₁, wp_pause.2 fun s₂ hs₂ =>
        wp_ofExcept.2 ((hserved s₁ s₂ hs₁ hs₂).2 fault hlink)⟩

end Rules

end OpsBlobs.ServerApi
