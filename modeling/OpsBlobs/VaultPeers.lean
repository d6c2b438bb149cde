import OpsBlobs.BlobDownload
import OpsBlobs.OpPush

namespace OpsBlobs.VaultPeers

open Types Coroutine GhostCode WriteEffects Promises Ledger Encryption SyncServer ServerApi
open ServerPull OpPush BlobDownload

section Peers

variable (W : WebCrypto) (C : VaultCrypto) (Authored : Operation → Prop) (Written : Bytes → Prop)

/-- An append of an op that one of the devices made, under the key of the vault. -/
def Authentic (a : AppendOp) : Prop :=
  ∃ op, Authored op ∧ a.clientOpId = op.id ∧
    ∃ nonce : Nonce, a.ciphertext = C.encryptOp W nonce.bytes op

/-- Content that one of the devices had, under its own hash, or the key check. -/
inductive Genuine : String → Bytes → Prop
  | content (content : Bytes) (nonce : Nonce) (h : Written content) :
      Genuine (C.blindHash W (sha256Hex W content)) (C.encryptBlob W nonce.bytes content)
  | keyCheck (nonce : Nonce) : Genuine (keyCheckBlobKey W) (C.buildKeyCheck W nonce.bytes)

/-- What the devices that know the passphrase send. -/
inductive Honest : Request → Prop
  | read : Honest .read
  | preflight : Honest .preflight
  | append (baseCursor : Nat) (batch : List AppendOp) (h : ∀ a ∈ batch, Authentic W C Authored a) :
      Honest (.append baseCursor batch)
  | putBlob (hash : String) (bytes : Bytes) (h : Genuine W C Written hash bytes) :
      Honest (.putBlob hash bytes)
  | putBlobBatch (blobs : List BlobUpload) (h : ∀ blob ∈ blobs, Genuine W C Written blob.hash blob.bytes) :
      Honest (.putBlobBatch blobs)

/-- All that the server has was made by these devices. -/
structure Intact (s : FakeSyncServer) : Prop where
  ledger : ∃ l, Represents s l ∧ ∀ a ∈ l, Authentic W C Authored a
  blobs : ∀ hash bytes, s.blobs.get hash = some bytes → Genuine W C Written hash bytes

variable {W C Authored Written} {s : FakeSyncServer} {l : List AppendOp}

theorem intact_init : Intact W C Authored Written FakeSyncServer.init :=
  ⟨⟨[], represents_init, List.forall_mem_nil _⟩, by rintro hash bytes ⟨⟩⟩

theorem intact_claim (h : Intact W C Authored Written s) : Intact W C Authored Written s.claim := by
  obtain ⟨l, hrep, hl⟩ := h.ledger
  exact ⟨⟨l, represents_claim hrep, hl⟩, h.blobs⟩

theorem Intact.authentic (h : Intact W C Authored Written s) (hrep : Represents s l) :
    ∀ a ∈ l, Authentic W C Authored a := by
  obtain ⟨l', hrep', hl'⟩ := h.ledger
  rw [represents_unique hrep hrep']
  exact hl'

theorem blobs_appendEach (ops : List AppendOp) (s : FakeSyncServer) :
    (FakeSyncServer.appendEach ops s).2.blobs = s.blobs := by
  induction ops generalizing s with
  | nil => rfl
  | cons op rest ih =>
      rw [FakeSyncServer.appendEach]
      cases hr : FakeSyncServer.appendOp op s with
      | error e => rfl
      | ok r => exact (ih r.2).trans (blobs_appendOp hr)

theorem intact_storeBlob (h : Intact W C Authored Written s) (blob : BlobUpload)
    (hblob : Genuine W C Written blob.hash blob.bytes) : Intact W C Authored Written (s.storeBlob blob) := by
  obtain ⟨l, hrep, hl⟩ := h.ledger
  refine ⟨⟨l, represents_storeBlob hrep blob, hl⟩, fun hash bytes hget => ?_⟩
  rw [FakeSyncServer.storeBlob] at hget
  split at hget
  · exact h.blobs hash bytes hget
  · rw [JsMap.get_set] at hget
    split at hget
    · rename_i heq
      obtain rfl := Option.some.inj hget
      exact heq ▸ hblob
    · exact h.blobs hash bytes hget

theorem intact_storeBlobs {blobs : List BlobUpload} (h : Intact W C Authored Written s)
    (hblobs : ∀ blob ∈ blobs, Genuine W C Written blob.hash blob.bytes) :
    Intact W C Authored Written (blobs.foldl FakeSyncServer.storeBlob s) := by
  induction blobs generalizing s with
  | nil => exact h
  | cons blob rest ih =>
      obtain ⟨hblob, hrest⟩ := List.forall_mem_cons.1 hblobs
      exact ih (intact_storeBlob h blob hblob) hrest

/-- One honest request leaves the server intact, be it accepted in part only. -/
theorem intact_effect {r : Request} (hr : Honest W C Authored Written r) (s : FakeSyncServer)
    (h : Intact W C Authored Written s) : Intact W C Authored Written (r.effect s) := by
  cases hr with
  | read => exact intact_claim h
  | preflight => exact h
  | append baseCursor batch hbatch =>
      obtain ⟨l, hrep, hl⟩ := h.ledger
      obtain ⟨done, hdone, -, hrep', -⟩ := appendOps_refines baseCursor batch hrep
      refine ⟨⟨_, hrep', fun a ha => ?_⟩, fun hash bytes hget => h.blobs hash bytes ?_⟩
      · exact (mem_enterAll ha).elim (hl a) fun ha => hbatch a (hdone.subset ha)
      · rwa [Request.effect, FakeSyncServer.appendOps, blobs_appendEach] at hget
  | putBlob hash bytes hblob =>
      exact intact_storeBlob (intact_claim h) ⟨hash, bytes⟩ hblob
  | putBlobBatch blobs hblobs => exact intact_storeBlobs (intact_claim h) hblobs

theorem Intact.traffic {s s' : Net} (h : Intact W C Authored Written s.server)
    (ht : Traffic (Honest W C Authored Written) s s') : Intact W C Authored Written s'.server := by
  obtain ⟨requests, hr, hs⟩ := ht
  rw [hs]
  exact serve_invariant (fun r hmem => intact_effect (hr r hmem)) s.server h

/-- How a round may fail where nothing on the server is to blame. -/
def Excused (e : SyncError) : Prop := e = .cancelled ∨ FromLink e ∨ e = staleError

theorem opens_of_authentic (hW : Lawful W) {a : AppendOp} (h : Authentic W C Authored a) :
    ∃ op, Authored op ∧ a.clientOpId = op.id ∧ C.decryptOp W a.ciphertext = some op := by
  obtain ⟨op, hop, hid, nonce, hc⟩ := h
  exact ⟨op, hop, hid, by rw [hc, decryptOp_encryptOp hW nonce.length_eq]⟩

/-- A device with the key reads every record. -/
theorem Intact.readable (hW : Lawful W) {s : Net} (h : Intact W C Authored Written s.server) :
    ¬Unreadable W C s := by
  rintro ⟨l, ⟨l', hl, hrep⟩, rec, hrec, hnone⟩
  obtain ⟨i, hi⟩ := List.mem_iff_getElem?.1 hrec
  rw [getElem?_records, Option.map_eq_some_iff] at hi
  obtain ⟨a, ha, rfl⟩ := hi
  obtain ⟨op, -, -, hop⟩ := opens_of_authentic hW
    (h.authentic hrep a (hl.subset (List.mem_of_getElem? ha)))
  cases hop.symm.trans hnone

theorem excused_of_pullFails (hW : Lawful W) {s : Net} (h : Intact W C Authored Written s.server)
    {e : SyncError} (he : PullFails W C e s) : Excused e := by
  cases he with
  | cancelled => exact Or.inl rfl
  | request operation fault => exact Or.inr (Or.inl ⟨operation, fault, rfl⟩)
  | decrypt hun => exact absurd hun (h.readable hW)

/-- A push sends nothing that the other devices could not read. -/
theorem honest_of_sends {contentStore : JsMap String Bytes} {ops : List Operation}
    (hauth : ∀ op ∈ ops, Authored op)
    (haddr : ∀ hash content, contentStore.get hash = some content →
      Written content ∧ sha256Hex W content = hash)
    {r : Request} (hr : Sends W C contentStore ops r) : Honest W C Authored Written r := by
  have hgenuine : ∀ hash content (nonce : Nonce), Carried W C contentStore ops hash content →
      Genuine W C Written hash (C.encryptBlob W nonce.bytes content) := by
    rintro hash content nonce ⟨op, -, hop, rfl⟩
    rw [contentOf] at hop
    split at hop
    · cases hop
    · rw [← (haddr op.contentHash content hop).2]
      exact .content content nonce (haddr op.contentHash content hop).1
  cases hr with
  | read => exact .read
  | append baseCursor batch h =>
      refine .append baseCursor batch fun a ha => ?_
      obtain ⟨op, hop, hseal⟩ := h a ha
      exact ⟨op, hauth op hop, hseal.id, hseal.ciphertext⟩
  | putBlob hash content nonce h => exact .putBlob _ _ (hgenuine hash content nonce h)
  | putBlobBatch blobs h =>
      refine .putBlobBatch blobs fun blob hblob => ?_
      obtain ⟨content, nonce, hcarried, hbytes⟩ := h blob hblob
      rw [hbytes]
      exact hgenuine _ _ nonce hcarried

end Peers

section Arrival

variable {W : WebCrypto} {C : VaultCrypto} {L : UploadLimits} {Authored : Operation → Prop}
  {Written : Bytes → Prop}
  {contentStore : JsMap String Bytes} {pendingOps : List Operation} {l l' : List AppendOp}
  {opsLimit opsLimit' pages pages' cursor start : Nat} {s : Net}

/-- A push among peers: it leaves the server intact and is excused where it fails. -/
theorem pushAmongPeers (hW : Lawful W) (hlimit : 0 < opsLimit)
    (hauth : ∀ op ∈ pendingOps, Authored op)
    (haddr : ∀ hash content, contentStore.get hash = some content →
      Written content ∧ sha256Hex W content = hash)
    (hs : Intact W C Authored Written s.server) (hrep : Represents s.server l) :
    wp (Traffic (Honest W C Authored Written)) (Sending (Honest W C Authored Written))
      (pushPendingOps W C L opsLimit pages contentStore pendingOps cursor)
      (fun r s' => ends (fun _ => Delivered W C contentStore l pendingOps) (fun e _ => Excused e) r s' ∧
        Intact W C Authored Written s'.server) s := by
  have hpush : wp (Traffic (Honest W C Authored Written)) (Sending (Honest W C Authored Written))
      (pushPendingOps W C L opsLimit pages contentStore pendingOps cursor)
      (ends (fun _ => Delivered W C contentStore l pendingOps) (PushFails W C)) s :=
    wp_weaken (fun _ _ h => h) (sending_mono fun r hr => honest_of_sends hauth haddr hr)
      (pushPendingOps_spec hlimit ⟨l, List.prefix_rfl, hrep⟩)
  refine wp_mono ?_ (wp_invariant (I := fun s => Intact W C Authored Written s.server)
    (fun _ _ ht h => h.traffic ht) (fun _ _ ht h => h.traffic ht.traffic) hpush hs)
  rintro (e | u) s' ⟨hr, hintact⟩
  · refine ⟨?_, hintact⟩
    rcases hr with hr | rfl
    · exact excused_of_pullFails hW hintact hr
    · exact Or.inr (Or.inr rfl)
  · exact ⟨hr, hintact⟩

/-- An op of the vault's devices with the same id; it is the op itself, unless another device made
one of that id too, as it does where both mint one merge node. -/
structure Stands (Authored : Operation → Prop) (op op' : Operation) : Prop where
  id : op'.id = op.id
  authored : Authored op'
  same : (∀ other, Authored other → other.id = op.id → other = op) → op' = op

/-- What stands in the ledger behind the cursor for an op is among the ops pulled. -/
theorem arrives (hW : Lawful W) {r : List PulledOp × Nat} (hreached : Reached W C start r.2 r.1 l')
    (hauthentic : ∀ a ∈ l', Authentic W C Authored a) {op : Operation} {i : Nat}
    {a : AppendOp} (ha : l'[i]? = some a) (hid : a.clientOpId = op.id) (hstart : start ≤ i)
    (hend : i < r.2) : ∃ p ∈ r.1, Stands Authored op p.op := by
  have hrec : recordAt i a ∈ page (records l') start r.1.length := by
    refine List.mem_of_getElem? (i := i - start) ?_
    have hlt : i - start < r.1.length := by
      have := hreached.cursor
      omega
    rw [getElem?_page _ _ hlt, Nat.add_sub_cancel' hstart, getElem?_records, ha, Option.map_some]
  obtain ⟨p, hp, hopens⟩ := exists_left hreached.ops hrec
  obtain ⟨op', hop', hid', hdec⟩ := opens_of_authentic hW (hauthentic a (List.mem_of_getElem? ha))
  refine ⟨p, hp, ?_⟩
  have heq : p.op = op' := Option.some.inj (hopens.2.symm.trans hdec)
  rw [heq]
  have hsame : op'.id = op.id := hid'.symm.trans hid
  exact ⟨hsame, hop', fun hone => hone op' hop' hsame⟩

/-- No op is pulled twice. -/
theorem nodup_pulled (hW : Lawful W) {r : List PulledOp × Nat}
    (hreached : Reached W C start r.2 r.1 l') (hnodup : (l'.map AppendOp.clientOpId).Nodup)
    (hauthentic : ∀ a ∈ l', Authentic W C Authored a) : (r.1.map (·.op.id)).Nodup := by
  have hlen : r.1.length = (page l' start r.1.length).length := by
    have h := hreached.ops.length_eq
    rw [length_page, length_records] at h
    rw [length_page]
    exact h
  have hrel : List.Forall₂ (fun p a => a.clientOpId = p.op.id) r.1 (page l' start r.1.length) := by
    refine List.forall₂_iff_get.2 ⟨hlen, fun i hi hi' => ?_⟩
    obtain ⟨-, hopens⟩ := List.forall₂_iff_get.1 hreached.ops
    have hget := getElem?_page l' start hi
    rw [List.getElem?_eq_getElem hi'] at hget
    have hrec := getElem?_page (records l') start hi
    rw [getElem?_records, ← hget, Option.map_some] at hrec
    obtain ⟨hj, hrec⟩ := List.getElem?_eq_some_iff.1 hrec
    have hopen := (hopens i hi hj).2
    obtain ⟨op, -, hid, hdec⟩ := opens_of_authentic hW
      (hauthentic _ (List.mem_of_getElem? hget.symm))
    simp only [List.get_eq_getElem] at hopen ⊢
    rw [hrec] at hopen
    rw [hid, ← Option.some.inj (hopen.symm.trans hdec)]
  rw [← map_of_related (f := fun p : PulledOp => p.op.id) hrel fun _ _ h => h]
  exact hnodup.sublist (((List.take_sublist _ _).trans (List.drop_sublist _ _)).map _)

/-- Whatever the other devices of the vault do meanwhile: once a push has returned, a pull of any
device from a cursor of before gets every pushed op that does not lie before that cursor, and none
twice. What arrives is the op as it was made, or another device's of the same id. Neither fails but
by the user, the link, or a server that moves on faster than the push. -/
theorem pushed_ops_arrive (hW : Lawful W) (hlimit : 0 < opsLimit) (hlimit' : 0 < opsLimit') (hauth : ∀ op ∈ pendingOps, Authored op)
    (haddr : ∀ hash content, contentStore.get hash = some content →
      Written content ∧ sha256Hex W content = hash)
    (hs : Intact W C Authored Written s.server) (hrep : Represents s.server l) (hstart : start ≤ l.length) :
    wp (Traffic (Honest W C Authored Written)) (Sending (Honest W C Authored Written)) (do
      pushPendingOps W C L opsLimit pages contentStore pendingOps cursor
      pullAll W C opsLimit' pages' start)
      (ends (fun r _ => (r.1.map (·.op.id)).Nodup ∧ ∀ op ∈ pendingOps,
        op.id ∉ (l.take start).map AppendOp.clientOpId → ∃ p ∈ r.1, Stands Authored op p.op)
        (fun e _ => Excused e)) s := by
  refine wp_bind.2 (wp_mono ?_ (pushAmongPeers hW hlimit hauth haddr hs hrep))
  rintro (e | u) s₁ ⟨hpushed, hintact₁⟩
  · exact hpushed
  obtain ⟨l₁, hl₁, ⟨l₂, hl₂, hrep₂⟩, hin⟩ := hpushed.entered
  have hpull := wp_weaken (fun _ _ h => h)
    (sending_of_reads (show Honest W C Authored Written .read from .read))
    (pullAll_spec (H := Honest W C Authored Written) (W := W) (C := C) pages' start hlimit'
      ⟨_, List.prefix_rfl, hrep₂⟩)
  refine wp_mono ?_ (wp_invariant (I := fun s => Intact W C Authored Written s.server)
    (fun _ _ ht h => h.traffic ht) (fun _ _ ht h => h.traffic ht.traffic) hpull hintact₁)
  rintro (e | r) s₂ ⟨hr, hintact₂⟩
  · exact excused_of_pullFails hW hintact₂ hr
  obtain ⟨l', hl', ⟨l₃, hl₃, hrep₃⟩, hend, hreached⟩ := hr
  have hauthentic : ∀ a ∈ l', Authentic W C Authored a :=
    fun a ha => hintact₂.authentic hrep₃ a (hl₃.subset ha)
  refine ⟨nodup_pulled hW hreached (hrep₃.ids.sublist (hl₃.sublist.map _)) hauthentic,
    fun op hop hnew => ?_⟩
  obtain ⟨a, ha, hid⟩ := List.mem_map.1 (hin op.id (List.mem_map_of_mem hop))
  obtain ⟨i, hi⟩ := List.mem_iff_getElem?.1 ha
  have hlt : i < l₁.length := (List.getElem?_eq_some_iff.1 hi).1
  have hi' : l'[i]? = some a := by
    obtain ⟨more, rfl⟩ := hl₂.trans hl'
    rw [List.getElem?_append_left hlt, hi]
  refine arrives hW hreached hauthentic hi' hid ?_
    (Nat.lt_of_lt_of_le hlt (Nat.le_trans hl₂.length_le hend))
  by_contra hbefore
  refine hnew (List.mem_map.2 ⟨a, ?_, hid⟩)
  have hil : i < l.length := by omega
  obtain ⟨more, rfl⟩ := hl₁
  rw [List.getElem?_append_left hil] at hi
  refine List.mem_of_getElem? (i := i) ?_
  rw [List.getElem?_take_of_lt (by omega), hi]

def pendingEdits : List Operation := [opAt "1" "a" 5 "n.md", opAt "2" "a" 6 "n.md"]

def letterStore : JsMap String Bytes := JsMap.ofList [(sha256Hex plainCrypto [65], [65])]

theorem addressed_letterStore (hash : String) (content : Bytes)
    (h : letterStore.get hash = some content) :
    content = [65] ∧ sha256Hex plainCrypto content = hash := by
  rw [letterStore, JsMap.ofList, List.foldl_cons, List.foldl_nil, JsMap.get_set] at h
  split at h
  · rename_i heq
    obtain rfl := Option.some.inj h
    exact ⟨rfl, heq⟩
  · cases h

theorem distinct_pendingEdits : ∀ op ∈ pendingEdits, ∀ op' ∈ pendingEdits, op.id = op'.id →
    op = op' := by decide

theorem pushed_ops_arrive_pendingEdits :
    wp (Traffic (Honest plainCrypto plainVault (· ∈ pendingEdits) (· = [65])))
      (Sending (Honest plainCrypto plainVault (· ∈ pendingEdits) (· = [65]))) (do
        pushPendingOps plainCrypto plainVault (.ofOptions none none none none none) 500 9 letterStore
          pendingEdits 0
        pullAll plainCrypto plainVault 1 9 0)
      (ends (fun r _ => (r.1.map (·.op.id)).Nodup ∧ ∀ op ∈ pendingEdits,
        op.id ∉ (([] : List AppendOp).take 0).map AppendOp.clientOpId → ∃ p ∈ r.1, p.op = op)
        (fun e _ => Excused e)) (.quiet FakeSyncServer.init) := by
  refine wp_mono ?_ (pushed_ops_arrive lawful_plainCrypto
    (by decide) Nat.one_pos (fun _ h => h) addressed_letterStore intact_init represents_init
    (Nat.le_refl 0))
  rintro (e | r) s' h
  · exact h
  refine ⟨h.1, fun op hop hnew => ?_⟩
  obtain ⟨p, hp, hstands⟩ := h.2 op hop hnew
  exact ⟨p, hp, hstands.same fun other hother hid => distinct_pendingEdits other hother op hop hid⟩

end Arrival

section Content

variable {W : WebCrypto} {C : VaultCrypto} {L : UploadLimits} {Authored : Operation → Prop}
  {Written : Bytes → Prop}
  {contentStore store : JsMap String Bytes} {pendingOps : List Operation} {l : List AppendOp}
  {opsLimit pages cursor batchMax concurrency : Nat} {wanted : List String} {s : Net}

/-- What is asked for is not taken for anything else when it is blinded. -/
structure Unmistakable (W : WebCrypto) (C : VaultCrypto) (Written : Bytes → Prop)
    (wanted : List String) : Prop where
  apart : ApartBlinded W C wanted
  written : ∀ hash ∈ wanted, ∀ content, Written content →
    C.blindHash W hash = C.blindHash W (sha256Hex W content) → sha256Hex W content = hash
  keyCheck : ∀ hash ∈ wanted, C.blindHash W hash ≠ keyCheckBlobKey W

/-- What is genuine opens to what its hash says. -/
theorem verifies (hW : Lawful W) (hwanted : Unmistakable W C Written wanted) {hash : String}
    {bytes : Bytes} (hmem : hash ∈ wanted) (h : Genuine W C Written (C.blindHash W hash) bytes) :
    ∃ content, C.decryptBlob W bytes = some content ∧ sha256Hex W content = hash := by
  generalize hkey : C.blindHash W hash = key at h
  cases h with
  | content content nonce hwritten =>
      exact ⟨content, open_seal hW nonce.length_eq, hwanted.written hash hmem content hwritten hkey⟩
  | keyCheck nonce => exact absurd hkey (hwanted.keyCheck hash hmem)

/-- Among peers a download fails only by the user or the link, and what was there when it began it
fetches. -/
theorem downloadAmongPeers (hW : Lawful W) (hwanted : Unmistakable W C Written wanted) (hmax : 0 < batchMax)
    (hpos : 0 < concurrency) (hlink : Truthful s) (hs : Intact W C Authored Written s.server)
    (hstore : ∀ hash content, store.get hash = some content → sha256Hex W content = hash) :
    wp (Outside fun s s' => Traffic (Honest W C Authored Written) s s' ∧ (Truthful s → Truthful s'))
      (fun x y => Reads x.1 y.1) (downloadBlobs W C batchMax concurrency wanted)
      (ends (fun _ y => ∀ hash ∈ wanted, s.server.blobs.has (C.blindHash W hash) = true →
        ∃ content, y.2.contentStore.get hash = some content ∧ sha256Hex W content = hash)
        (fun e _ => Excused e)) (s, ⟨store, []⟩) := by
  refine wp_mono ?_ (downloadBlobs_spec (source_keeping s (Intact W C Authored Written) (Genuine W C Written)
    (fun _ h => intact_claim h) fun _ h => h.blobs)
    (fun _ _ h => ⟨kept_of_traffic h.1, h.2, fun hi => hi.traffic h.1⟩) hwanted.apart hmax hpos
    ⟨⟨kept_refl _, hlink, hs⟩, hstore, List.forall_mem_nil _⟩)
  rintro (e | u) y hy
  · cases hy with
    | cancelled => exact Or.inl rfl
    | request h => exact Or.inr (Or.inl h)
    | forged _ hmem hgives hbad =>
        obtain ⟨content, hopen, hhash⟩ := verifies hW hwanted hmem hgives
        exact absurd hhash (hbad content hopen)
  intro hash hmem hheld
  rcases hy.2.2 hash hmem with hstaged | hmissing
  · obtain ⟨content, hget⟩ := (JsMap.has_iff _ _).1 hstaged
    exact ⟨content, hget, hy.1.addressed hash content hget⟩
  · obtain ⟨bytes, hbytes⟩ := (JsMap.has_iff _ _).1 hheld
    cases hbytes.symm.trans (hy.1.missing hash hmissing)

/-- Once a push has returned, a download of any device of the vault that returns has the content of
each pushed op that it asks for, under its hash; and neither fails but by the user or the link. -/
theorem pushed_content_arrives (hW : Lawful W) (hwanted : Unmistakable W C Written wanted) (hlimit : 0 < opsLimit)
    (hmax : 0 < batchMax) (hpos : 0 < concurrency) (hauth : ∀ op ∈ pendingOps, Authored op)
    (haddr : ∀ hash content, contentStore.get hash = some content →
      Written content ∧ sha256Hex W content = hash)
    (hstore : ∀ hash content, store.get hash = some content → sha256Hex W content = hash)
    (hlink : Truthful s) (hs : Intact W C Authored Written s.server) (hrep : Represents s.server l) :
    wp (Outside fun s s' => Traffic (Honest W C Authored Written) s s' ∧ (Truthful s → Truthful s'))
      (fun x y => Sending (Honest W C Authored Written) x.1 y.1) (do
        lift (pushPendingOps W C L opsLimit pages contentStore pendingOps cursor)
        downloadBlobs W C batchMax concurrency wanted)
      (ends (fun _ y => ∀ op ∈ pendingOps, op.contentHash ∈ wanted →
        (contentOf contentStore op).isSome = true →
        ∃ content, y.2.contentStore.get op.contentHash = some content ∧
          sha256Hex W content = op.contentHash)
        (fun e _ => Excused e)) (s, ⟨store, []⟩) := by
  have hpush : wp (fun s s' => Traffic (Honest W C Authored Written) s s' ∧ (Truthful s → Truthful s'))
      (Sending (Honest W C Authored Written))
      (pushPendingOps W C L opsLimit pages contentStore pendingOps cursor) _ s :=
    wp_weaken (fun _ _ h => h.1) (fun _ _ h => h) (pushAmongPeers hW hlimit hauth haddr hs hrep)
  have hlifted : wp (Outside fun s s' =>
        Traffic (Honest W C Authored Written) s s' ∧ (Truthful s → Truthful s'))
      (fun x y => Sending (Honest W C Authored Written) x.1 y.1)
      (lift (pushPendingOps W C L opsLimit pages contentStore pendingOps cursor)) _
      (s, (⟨store, []⟩ : Fetched)) :=
    wp_lift_frame (I := fun x : Net × Fetched => Truthful x.1 ∧ x.2 = ⟨store, []⟩) (fun _ _ h => h.1)
      (fun _ _ _ h => h) (fun _ _ h hI => ⟨h.1.2 hI.1, h.2.trans hI.2⟩)
      (fun s s' _ h hI => ⟨fun fault hf => hI.1 fault (h.link ▸ hf), hI.2⟩) ⟨hlink, rfl⟩ hpush
  refine wp_bind.2 (wp_mono ?_ hlifted)
  rintro (e | u) ⟨s₁, f⟩ ⟨⟨hpushed, hintact⟩, htruthful, rfl⟩
  · exact hpushed
  have hdownload : wp (Outside fun s s' =>
        Traffic (Honest W C Authored Written) s s' ∧ (Truthful s → Truthful s'))
      (fun x y => Sending (Honest W C Authored Written) x.1 y.1)
      (downloadBlobs W C batchMax concurrency wanted) _ (s₁, (⟨store, []⟩ : Fetched)) :=
    wp_weaken (fun _ _ h => h) (fun x y h => sending_of_reads .read x.1 y.1 h)
      (downloadAmongPeers hW hwanted hmax hpos htruthful hintact hstore)
  refine wp_mono ?_ hdownload
  rintro (e | u) y hy
  · exact hy
  · exact fun op hop hwanted hsome => hy op.contentHash hwanted (hpushed.stored op hop hsome)

theorem unmistakable_letter :
    Unmistakable plainCrypto plainVault (· = [65]) [sha256Hex plainCrypto [65]] where
  apart := by
    rw [ApartBlinded]
    decide +kernel
  written := by
    intro hash hmem content hwritten _
    rw [hwritten, List.mem_singleton.1 hmem]
  keyCheck := by decide +kernel

theorem pushed_content_arrives_pendingEdits :
    wp (Outside fun s s' =>
        Traffic (Honest plainCrypto plainVault (· ∈ pendingEdits) (· = [65])) s s' ∧
          (Truthful s → Truthful s'))
      (fun x y => Sending (Honest plainCrypto plainVault (· ∈ pendingEdits) (· = [65])) x.1 y.1) (do
        lift (pushPendingOps plainCrypto plainVault (.ofOptions none none none none none) 500 9
          letterStore pendingEdits 0)
        downloadBlobs plainCrypto plainVault 256 8 [sha256Hex plainCrypto [65]])
      (ends (fun _ y => ∀ op ∈ pendingEdits, op.contentHash ∈ [sha256Hex plainCrypto [65]] →
        (contentOf letterStore op).isSome = true →
        ∃ content, y.2.contentStore.get op.contentHash = some content ∧
          sha256Hex plainCrypto content = op.contentHash)
        (fun e _ => Excused e)) (.quiet FakeSyncServer.init, ⟨JsMap.empty, []⟩) :=
  pushed_content_arrives lawful_plainCrypto unmistakable_letter (by decide) (by decide) (by decide)
    (fun _ h => h) addressed_letterStore (by rintro hash content ⟨⟩) (truthful_quiet _) intact_init
    represents_init

end Content

end OpsBlobs.VaultPeers
