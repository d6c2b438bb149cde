import OpsBlobs.Ledger
import OpsBlobs.SyncErrors

namespace OpsBlobs.SyncServer

open Types Ledger

/-- One appended op, in the server's order; the ciphertext opens to an `Operation`. -/
structure OpRecord where
  seq : Nat
  deviceId : String
  ts : Nat
  ciphertext : String
  blobRefs : List String
  deriving DecidableEq, Repr

/-- An op to append; an id the server knows is not appended again. -/
structure AppendOp where
  clientOpId : String
  ciphertext : String
  blobRefs : List String
  deriving DecidableEq, Repr

structure PullOpsResult where
  ops : List OpRecord
  nextCursor : Nat
  hasMore : Bool
  deriving DecidableEq, Repr

structure AppendResult where
  assigned : List (String × Nat)
  headCursor : Nat
  deriving DecidableEq, Repr

structure BlobUpload where
  hash : String
  bytes : Bytes
  deriving DecidableEq, Repr

/-- The blobs of a batch that the server has, and the hashes that it has not. -/
structure BlobBatch where
  blobs : JsMap String Bytes
  missing : List String

structure Preflight where
  claimed : Bool
  keyCheck : Option Bytes
  deriving DecidableEq, Repr

/-- Above this a blob is no key-check record. -/
def KEYCHECK_INLINE_CAP : Nat := 64 * 1024

structure FakeSyncServer where
  log : List OpRecord
  blobs : JsMap String Bytes
  byClientOpId : JsMap String Nat
  seq : Nat
  claimed : Bool

namespace FakeSyncServer

def init : FakeSyncServer := ⟨[], JsMap.empty, JsMap.empty, 0, false⟩

/-- The first touch claims the vault. -/
def claim (s : FakeSyncServer) : FakeSyncServer := { s with claimed := true }

def pullOps (since limit : Nat) (s : FakeSyncServer) : PullOpsResult :=
  let after := s.log.filter (since < ·.seq)
  let ops := after.take limit
  let last := (ops.getLast?.map OpRecord.seq).getD since
  ⟨ops, last, decide (ops.length < after.length)⟩

/-- The seq of one op of a batch, which is a new one if its id is new. -/
def appendOp (op : AppendOp) (s : FakeSyncServer) : Except SyncError (Nat × FakeSyncServer) :=
  match s.byClientOpId.get op.clientOpId with
  | some prior => .ok (prior, s)
  | none =>
      match op.blobRefs.find? (fun ref => !s.blobs.has ref) with
      | some ref => .error (.missingBlob ref)
      | none =>
          .ok (s.seq + 1,
            { s with
              seq := s.seq + 1
              log := s.log ++ [⟨s.seq + 1, "", 0, op.ciphertext, op.blobRefs⟩]
              byClientOpId := s.byClientOpId.set op.clientOpId (s.seq + 1) })

/-- An error in the middle of a batch leaves the ops before it appended. -/
def appendEach : List AppendOp → FakeSyncServer →
    Except SyncError (List (String × Nat)) × FakeSyncServer
  | [], s => (.ok [], s)
  | op :: rest, s =>
      match appendOp op s with
      | .error e => (.error e, s)
      | .ok (seq, s') =>
          ((appendEach rest s').1.map ((op.clientOpId, seq) :: ·), (appendEach rest s').2)

def appendOps (_baseCursor : Nat) (ops : List AppendOp) (s : FakeSyncServer) :
    Except SyncError AppendResult × FakeSyncServer :=
  let r := appendEach ops s.claim
  (r.1.map (⟨·, r.2.seq⟩), r.2)

def checkBlobs (hashes : List String) (s : FakeSyncServer) : List String :=
  hashes.filter (fun h => !s.blobs.has h)

/-- The first write of a hash wins. -/
def storeBlob (s : FakeSyncServer) (blob : BlobUpload) : FakeSyncServer :=
  if s.blobs.has blob.hash then s else { s with blobs := s.blobs.set blob.hash blob.bytes }

def putBlob (hash : String) (bytes : Bytes) (s : FakeSyncServer) : FakeSyncServer :=
  s.claim.storeBlob ⟨hash, bytes⟩

def putBlobBatch (blobs : List BlobUpload) (s : FakeSyncServer) : FakeSyncServer :=
  blobs.foldl storeBlob s.claim

def getBlob (hash : String) (s : FakeSyncServer) : Option Bytes := s.blobs.get hash

def getBlobBatch (hashes : List String) (s : FakeSyncServer) : BlobBatch :=
  hashes.foldl (fun r hash =>
    match s.blobs.get hash with
    | some bytes => { r with blobs := r.blobs.set hash bytes }
    | none => { r with missing := r.missing ++ [hash] }) ⟨JsMap.empty, []⟩

/-- The one endpoint that claims nothing; an unclaimed vault has no record to look up. -/
def preflight (keyCheckKey : String) (s : FakeSyncServer) : Preflight :=
  if !s.claimed then ⟨false, none⟩
  else
    let record := if keyCheckKey = "" then none else s.blobs.get keyCheckKey
    ⟨true, record.filter (·.length ≤ KEYCHECK_INLINE_CAP)⟩

end FakeSyncServer

open FakeSyncServer

/-- What a request does to the server, whatever becomes of its answer. -/
inductive Request
  | append (baseCursor : Nat) (ops : List AppendOp)
  | putBlob (hash : String) (bytes : Bytes)
  | putBlobBatch (blobs : List BlobUpload)
  | read
  | preflight
  deriving DecidableEq, Repr

def Request.effect : Request → FakeSyncServer → FakeSyncServer
  | .append baseCursor ops, s => (appendOps baseCursor ops s).2
  | .putBlob hash bytes, s => FakeSyncServer.putBlob hash bytes s
  | .putBlobBatch blobs, s => FakeSyncServer.putBlobBatch blobs s
  | .read, s => s.claim
  | .preflight, s => s

/-- The requests of any number of devices, one after the other. -/
def serve (s : FakeSyncServer) (requests : List Request) : FakeSyncServer :=
  requests.foldl (fun s r => r.effect s) s

section Refinement

/-- The record an op gets at its place in the ledger. -/
def recordAt (i : Nat) (op : AppendOp) : OpRecord := ⟨i + 1, "", 0, op.ciphertext, op.blobRefs⟩

def records (l : List AppendOp) : List OpRecord := l.mapIdx recordAt

/-- The server holds a ledger of ops, each id once, and every blob that they name. -/
structure Represents (s : FakeSyncServer) (l : List AppendOp) : Prop where
  ids : (l.map AppendOp.clientOpId).Nodup
  log : s.log = records l
  seq : s.seq = l.length
  byClientOpId : ∀ id, s.byClientOpId.get id = (place AppendOp.clientOpId l id).map (· + 1)
  refs : ∀ op ∈ l, ∀ ref ∈ op.blobRefs, s.blobs.has ref = true

/-- What stays: a stored blob is never replaced, and the claim is never given up. -/
structure Kept (s s' : FakeSyncServer) : Prop where
  blobs : ∀ hash bytes, s.blobs.get hash = some bytes → s'.blobs.get hash = some bytes
  claimed : s.claimed = true → s'.claimed = true

variable {s s' s'' : FakeSyncServer} {l l' : List AppendOp} {op : AppendOp}

theorem kept_refl (s : FakeSyncServer) : Kept s s := ⟨fun _ _ h => h, id⟩

theorem Kept.trans (h : Kept s s') (h' : Kept s' s'') : Kept s s'' :=
  ⟨fun hash bytes hb => h'.blobs hash bytes (h.blobs hash bytes hb),
    fun hc => h'.claimed (h.claimed hc)⟩

theorem Kept.has (h : Kept s s') {hash : String} (hb : s.blobs.has hash = true) :
    s'.blobs.has hash = true := by
  obtain ⟨bytes, hb⟩ := (JsMap.has_iff _ _).1 hb
  exact (JsMap.has_iff _ _).2 ⟨bytes, h.blobs hash bytes hb⟩

theorem length_records (l : List AppendOp) : (records l).length = l.length := List.length_mapIdx

theorem getElem?_records (l : List AppendOp) (i : Nat) :
    (records l)[i]? = l[i]?.map (recordAt i) := List.getElem?_mapIdx

theorem records_concat (l : List AppendOp) (op : AppendOp) :
    records (l ++ [op]) = records l ++ [recordAt l.length op] := List.mapIdx_concat

theorem records_mono (h : l <+: l') : records l <+: records l' := by
  obtain ⟨more, rfl⟩ := h
  rw [records, records, List.mapIdx_append]
  exact List.prefix_append _ _

theorem represents_init : Represents init [] :=
  ⟨List.nodup_nil, rfl, rfl, fun _ => rfl, List.forall_mem_nil _⟩

/-- Whatever leaves the log alone and drops no blob leaves the ledger as it is. -/
theorem Represents.of_kept (h : Represents s l) (hk : Kept s s') (hlog : s'.log = s.log)
    (hseq : s'.seq = s.seq) (hids : s'.byClientOpId = s.byClientOpId) : Represents s' l where
  ids := h.ids
  log := hlog.trans h.log
  seq := hseq.trans h.seq
  byClientOpId := fun id => by rw [hids, h.byClientOpId]
  refs := fun op hop ref href => hk.has (h.refs op hop ref href)

theorem represents_claim (h : Represents s l) : Represents s.claim l :=
  h.of_kept ⟨fun _ _ hb => hb, fun _ => rfl⟩ rfl rfl rfl

theorem kept_claim (s : FakeSyncServer) : Kept s s.claim := ⟨fun _ _ hb => hb, fun _ => rfl⟩

theorem claim_of_claimed (h : s.claimed = true) : s.claim = s := by
  cases s
  cases h
  rfl

theorem Represents.known_iff (h : Represents s l) (id : String) :
    (∃ seq, s.byClientOpId.get id = some seq) ↔ id ∈ l.map AppendOp.clientOpId := by
  rw [h.byClientOpId, ← not_iff_not, ← place_eq_none_iff]
  simp [Option.eq_none_iff_forall_ne_some]

/-- The server's state tells which ledger it holds. -/
theorem represents_unique (h : Represents s l) (h' : Represents s l') : l = l' := by
  refine List.ext_getElem (h.seq.symm.trans h'.seq) fun i hi hi' => ?_
  have hl : l[i]? = some l[i] := List.getElem?_eq_getElem hi
  have hl' : l'[i]? = some l'[i] := List.getElem?_eq_getElem hi'
  have hrecord : recordAt i l[i] = recordAt i l'[i] := by
    refine Option.some.inj ?_
    rw [← Option.map_some, ← Option.map_some, ← hl, ← hl', ← getElem?_records,
      ← getElem?_records, ← h.log, ← h'.log]
  have hplace : place AppendOp.clientOpId l' l[i].clientOpId = some i := by
    have hseq := (h.byClientOpId l[i].clientOpId).symm.trans (h'.byClientOpId _)
    rw [place_of_getElem? h.ids hl, Option.map_some] at hseq
    obtain ⟨j, hj, hij⟩ := Option.map_eq_some_iff.1 hseq.symm
    rw [hj, Nat.succ_injective hij]
  obtain ⟨op, hop, hid⟩ := key_of_place hplace
  obtain rfl := Option.some.inj (hl'.symm.trans hop)
  simp only [recordAt, OpRecord.mk.injEq, true_and] at hrecord
  cases ha : l[i] with
  | mk id ciphertext blobRefs =>
      cases hb : l'[i] with
      | mk id' ciphertext' blobRefs' =>
          rw [ha, hb] at hrecord hid
          obtain ⟨rfl, rfl⟩ := hrecord
          exact congrArg (AppendOp.mk · ciphertext blobRefs) hid.symm

section Append

/-- One op of a batch is entered in the ledger, unless its id is there. -/
theorem appendOp_refines {seq : Nat} (h : Represents s l) (hr : appendOp op s = .ok (seq, s')) :
    Represents s' (enter AppendOp.clientOpId l op) ∧ Kept s s' ∧ 0 < seq ∧
      place AppendOp.clientOpId (enter AppendOp.clientOpId l op) op.clientOpId =
        some (seq - 1) := by
  rw [appendOp] at hr
  cases hprior : s.byClientOpId.get op.clientOpId with
  | some prior =>
      have hknown : op.clientOpId ∈ l.map AppendOp.clientOpId := (h.known_iff _).1 ⟨prior, hprior⟩
      simp only [hprior, Except.ok.injEq, Prod.mk.injEq] at hr
      obtain ⟨rfl, rfl⟩ := hr
      rw [h.byClientOpId, Option.map_eq_some_iff] at hprior
      obtain ⟨i, hi, rfl⟩ := hprior
      rw [enter_of_mem hknown]
      exact ⟨h, kept_refl s, Nat.succ_pos i, hi⟩
  | none =>
      have hnew : op.clientOpId ∉ l.map AppendOp.clientOpId := by
        rw [← h.known_iff, hprior]
        simp
      cases hmissing : op.blobRefs.find? (fun ref => !s.blobs.has ref) with
      | some ref => simp [hprior, hmissing] at hr
      | none =>
          simp only [hprior, hmissing, Except.ok.injEq, Prod.mk.injEq] at hr
          obtain ⟨rfl, rfl⟩ := hr
          have hplace : ∀ id, place AppendOp.clientOpId (l ++ [op]) id = _ := place_concat hnew
          rw [enter_of_notMem hnew]
          refine ⟨⟨?_, ?_, ?_, ?_, ?_⟩, ⟨fun _ _ hb => hb, id⟩, Nat.succ_pos _, ?_⟩
          · rw [← enter_of_notMem hnew]
            exact nodup_enter h.ids
          · rw [records_concat, h.log, h.seq, recordAt]
          · rw [h.seq, List.length_append, List.length_singleton]
          · intro id
            rw [JsMap.get_set, hplace, h.byClientOpId, h.seq]
            split <;> rfl
          · intro op' hop' ref href
            rcases List.mem_append.1 hop' with hop' | hop'
            · exact h.refs op' hop' ref href
            · rw [List.mem_singleton.1 hop'] at href
              simpa using List.find?_eq_none.1 hmissing ref href
          · rw [hplace, if_pos rfl, h.seq, Nat.add_sub_cancel]

/-- A batch enters its ops in order; where one is refused, those before it are entered. -/
theorem appendEach_refines (ops : List AppendOp) (h : Represents s l) :
    ∃ done, done <+: ops ∧ Kept s (appendEach ops s).2 ∧
      Represents (appendEach ops s).2 (enterAll AppendOp.clientOpId l done) ∧
      ∀ assigned, (appendEach ops s).1 = .ok assigned → done = ops ∧
        assigned.map Prod.fst = ops.map AppendOp.clientOpId ∧
        ∀ p ∈ assigned, (appendEach ops s).2.byClientOpId.get p.1 = some p.2 := by
  induction ops generalizing s l with
  | nil =>
      refine ⟨[], List.prefix_rfl, kept_refl s, h, fun assigned heq => ?_⟩
      obtain rfl := Except.ok.inj heq
      exact ⟨rfl, rfl, List.forall_mem_nil _⟩
  | cons op rest ih =>
      rw [appendEach]
      cases hr : appendOp op s with
      | error e =>
          refine ⟨[], List.nil_prefix, kept_refl s, h, fun assigned heq => ?_⟩
          cases heq
      | ok r =>
          obtain ⟨seq, s₁⟩ := r
          obtain ⟨hrep, hkept, hpos, hplace⟩ := appendOp_refines h hr
          obtain ⟨done, hdone, hkept', hrep', hall⟩ := ih hrep
          refine ⟨op :: done, List.prefix_cons_inj op |>.2 hdone, hkept.trans hkept', hrep', ?_⟩
          intro assigned heq
          simp only at heq
          cases hrest : (appendEach rest s₁).1 with
          | error e =>
              rw [hrest] at heq
              cases heq
          | ok assigned' =>
              rw [hrest] at heq
              obtain rfl := Except.ok.inj heq
              obtain ⟨hops, hids, hseqs⟩ := hall assigned' hrest
              refine ⟨by rw [hops], by rw [List.map_cons, List.map_cons, hids], ?_⟩
              refine List.forall_mem_cons.2 ⟨?_, hseqs⟩
              rw [hrep'.byClientOpId, place_mono prefix_enterAll hplace, Option.map_some,
                Nat.sub_add_cancel hpos]

theorem appendOps_refines (baseCursor : Nat) (ops : List AppendOp) (h : Represents s l) :
    ∃ done, done <+: ops ∧ Kept s (appendOps baseCursor ops s).2 ∧
      Represents (appendOps baseCursor ops s).2 (enterAll AppendOp.clientOpId l done) ∧
      ∀ r, (appendOps baseCursor ops s).1 = .ok r → done = ops ∧
        r.headCursor = (appendOps baseCursor ops s).2.seq ∧
        r.assigned.map Prod.fst = ops.map AppendOp.clientOpId ∧
        ∀ p ∈ r.assigned, (appendOps baseCursor ops s).2.byClientOpId.get p.1 = some p.2 := by
  obtain ⟨done, hdone, hkept, hrep, hall⟩ := appendEach_refines ops (represents_claim h)
  refine ⟨done, hdone, (kept_claim s).trans hkept, hrep, fun r hr => ?_⟩
  cases heach : (appendEach ops s.claim).1 with
  | error e =>
      rw [appendOps, heach] at hr
      cases hr
  | ok assigned =>
      rw [appendOps, heach] at hr
      obtain rfl := Except.ok.inj hr
      obtain ⟨hops, hids, hseqs⟩ := hall assigned heach
      exact ⟨hops, rfl, hids, hseqs⟩

/-- A batch of known ids is answered with their seqs, and appends nothing. -/
theorem appendEach_known {ops : List AppendOp} {assigned : List (String × Nat)}
    (hids : assigned.map Prod.fst = ops.map AppendOp.clientOpId)
    (hknown : ∀ p ∈ assigned, s.byClientOpId.get p.1 = some p.2) :
    appendEach ops s = (.ok assigned, s) := by
  induction ops generalizing assigned with
  | nil => rw [List.map_eq_nil_iff.1 hids, appendEach]
  | cons op rest ih =>
      cases assigned with
      | nil => cases hids
      | cons p assigned =>
          simp only [List.map_cons, List.cons.injEq] at hids
          have hp := hknown p List.mem_cons_self
          have hop : appendOp op s = .ok (p.2, s) := by rw [appendOp, ← hids.1, hp]
          rw [appendEach, hop]
          simp only
          rw [ih hids.2 fun q hq => hknown q (List.mem_cons_of_mem _ hq), ← hids.1]
          rfl

theorem appendOp_ok (h : ∀ ref ∈ op.blobRefs, s.blobs.has ref = true) :
    ∃ r, appendOp op s = .ok r := by
  rw [appendOp]
  cases s.byClientOpId.get op.clientOpId with
  | some prior => exact ⟨_, rfl⟩
  | none =>
      have hnone : op.blobRefs.find? (fun ref => !s.blobs.has ref) = none :=
        List.find?_eq_none.2 fun ref href => by simp [h ref href]
      rw [hnone]
      exact ⟨_, rfl⟩

theorem blobs_appendOp {seq : Nat} (hr : appendOp op s = .ok (seq, s')) : s'.blobs = s.blobs := by
  rw [appendOp] at hr
  split at hr
  · cases hr
    rfl
  · split at hr
    · cases hr
    · cases hr
      rfl

/-- A batch is refused only for a blob that it names and that is not there. -/
theorem appendEach_ok (ops : List AppendOp)
    (h : ∀ op ∈ ops, ∀ ref ∈ op.blobRefs, s.blobs.has ref = true) :
    ∃ assigned, (appendEach ops s).1 = .ok assigned := by
  induction ops generalizing s with
  | nil => exact ⟨[], rfl⟩
  | cons op rest ih =>
      obtain ⟨⟨seq, s₁⟩, hr⟩ := appendOp_ok (h op List.mem_cons_self)
      obtain ⟨assigned, hrest⟩ := ih (s := s₁) fun op' hop' ref href => by
        rw [blobs_appendOp hr]
        exact h op' (List.mem_cons_of_mem _ hop') ref href
      refine ⟨(op.clientOpId, seq) :: assigned, ?_⟩
      rw [appendEach, hr]
      simp only
      rw [hrest]
      rfl

end Append

section Pull

theorem filter_records (l : List AppendOp) (since : Nat) :
    (records l).filter (since < ·.seq) = (records l).drop since := by
  induction l using List.reverseRecOn with
  | nil => simp [records]
  | append_singleton l op ih =>
      rw [records_concat, List.filter_append, ih, List.drop_append, length_records]
      by_cases h : since ≤ l.length
      · simp [recordAt, Nat.lt_succ_of_le h, Nat.sub_eq_zero_of_le h]
      · have hlt : ¬since < l.length + 1 := fun hlt => h (Nat.le_of_lt_succ hlt)
        have hnil : [recordAt l.length op].drop (since - l.length) = [] :=
          List.drop_eq_nil_of_le (by
            rw [List.length_singleton]
            omega)
        rw [hnil]
        simp [recordAt, hlt]

/-- A page is the part of the ledger after the cursor, and the next cursor counts it. -/
theorem pullOps_represents (h : Represents s l) (since limit : Nat) :
    pullOps since limit s =
      ⟨page (records l) since limit, since + (page (records l) since limit).length,
        decide (since + limit < l.length)⟩ := by
  have hafter : s.log.filter (since < ·.seq) = (records l).drop since := by
    rw [h.log, filter_records]
  rw [pullOps]
  simp only [hafter, PullOpsResult.mk.injEq]
  refine ⟨rfl, ?_, ?_⟩
  · rw [← page]
    cases hlast : (page (records l) since limit).getLast? with
    | none =>
        rw [List.getLast?_eq_none_iff] at hlast
        simp [hlast]
    | some r =>
        have hlen : (page (records l) since limit).length ≠ 0 := by
          rintro h0
          rw [List.length_eq_zero_iff.1 h0] at hlast
          cases hlast
        rw [List.getLast?_eq_getElem?, page, List.getElem?_take_of_lt (by
          rw [← page]
          have := List.length_take_le limit ((records l).drop since)
          rw [← page] at this
          omega), List.getElem?_drop, getElem?_records, Option.map_eq_some_iff] at hlast
        obtain ⟨op, -, rfl⟩ := hlast
        simp only [Option.map_some, Option.getD_some, recordAt]
        rw [← page]
        omega
  · rw [← page, decide_eq_decide, page, List.length_take, List.length_drop, length_records]
    omega

end Pull

section Blobs

theorem kept_storeBlob (s : FakeSyncServer) (blob : BlobUpload) : Kept s (s.storeBlob blob) := by
  rw [storeBlob]
  split
  · exact kept_refl s
  · rename_i hnew
    refine ⟨fun hash bytes hb => ?_, id⟩
    rw [JsMap.get_set, if_neg, hb]
    rintro rfl
    exact hnew ((JsMap.has_iff _ _).2 ⟨bytes, hb⟩)

theorem has_storeBlob (s : FakeSyncServer) (blob : BlobUpload) :
    (s.storeBlob blob).blobs.has blob.hash = true := by
  rw [storeBlob]
  split
  · assumption
  · exact (JsMap.has_iff _ _).2 ⟨blob.bytes, JsMap.get_set_self _ _ _⟩

theorem represents_storeBlob (h : Represents s l) (blob : BlobUpload) :
    Represents (s.storeBlob blob) l := by
  have hk := kept_storeBlob s blob
  rw [storeBlob] at hk ⊢
  split
  · exact h
  · rename_i hnew
    rw [if_neg hnew] at hk
    exact h.of_kept hk rfl rfl rfl

theorem kept_storeBlobs (blobs : List BlobUpload) (s : FakeSyncServer) :
    Kept s (blobs.foldl storeBlob s) := by
  induction blobs generalizing s with
  | nil => exact kept_refl s
  | cons blob rest ih => exact (kept_storeBlob s blob).trans (ih _)

theorem represents_storeBlobs (blobs : List BlobUpload) (h : Represents s l) :
    Represents (blobs.foldl storeBlob s) l := by
  induction blobs generalizing s with
  | nil => exact h
  | cons blob rest ih => exact ih (represents_storeBlob h blob)

theorem has_storeBlobs {blobs : List BlobUpload} {blob : BlobUpload} (hb : blob ∈ blobs)
    (s : FakeSyncServer) : (blobs.foldl storeBlob s).blobs.has blob.hash = true := by
  induction blobs generalizing s with
  | nil => cases hb
  | cons b rest ih =>
      rcases List.mem_cons.1 hb with rfl | hb
      · exact (kept_storeBlobs rest _).has (has_storeBlob s blob)
      · exact ih hb _

end Blobs

section Requests

theorem kept_appendEach (ops : List AppendOp) (s : FakeSyncServer) : Kept s (appendEach ops s).2 := by
  induction ops generalizing s with
  | nil => exact kept_refl s
  | cons op rest ih =>
      rw [appendEach]
      cases hr : appendOp op s with
      | error e => exact kept_refl s
      | ok r =>
          refine Kept.trans ?_ (ih r.2)
          rw [appendOp] at hr
          split at hr
          · cases hr
            exact kept_refl s
          · split at hr
            · cases hr
            · cases hr
              exact ⟨fun _ _ hb => hb, id⟩

theorem kept_effect (r : Request) (s : FakeSyncServer) : Kept s (r.effect s) := by
  cases r with
  | append baseCursor ops => exact (kept_claim s).trans (kept_appendEach ops s.claim)
  | putBlob hash bytes => exact (kept_claim s).trans (kept_storeBlob _ _)
  | putBlobBatch blobs => exact (kept_claim s).trans (kept_storeBlobs blobs _)
  | read => exact kept_claim s
  | preflight => exact kept_refl s

/-- No request of anybody takes a blob away or replaces it. -/
theorem kept_serve (requests : List Request) (s : FakeSyncServer) : Kept s (serve s requests) := by
  induction requests generalizing s with
  | nil => exact kept_refl s
  | cons r rest ih => exact (kept_effect r s).trans (ih _)

/-- The ops a request asks to append. -/
def Request.ops : Request → List AppendOp
  | .append _ ops => ops
  | _ => []

/-- One request enters a part of its ops and keeps everything else. -/
theorem request_refines (r : Request) (h : Represents s l) :
    ∃ done, done <+: r.ops ∧ Kept s (r.effect s) ∧
      Represents (r.effect s) (enterAll AppendOp.clientOpId l done) := by
  cases r with
  | append baseCursor ops =>
      obtain ⟨done, hdone, hkept, hrep, -⟩ := appendOps_refines baseCursor ops h
      exact ⟨done, hdone, hkept, hrep⟩
  | putBlob hash bytes =>
      exact ⟨[], List.prefix_rfl, (kept_claim s).trans (kept_storeBlob _ _),
        represents_storeBlob (represents_claim h) _⟩
  | putBlobBatch blobs =>
      exact ⟨[], List.prefix_rfl, (kept_claim s).trans (kept_storeBlobs blobs _),
        represents_storeBlobs blobs (represents_claim h)⟩
  | read => exact ⟨[], List.prefix_rfl, kept_claim s, represents_claim h⟩
  | preflight => exact ⟨[], List.prefix_rfl, kept_refl s, h⟩

theorem serve_refines (requests : List Request) (h : Represents s l) :
    ∃ done, (∀ op ∈ done, op ∈ requests.flatMap Request.ops) ∧ Kept s (serve s requests) ∧
      Represents (serve s requests) (enterAll AppendOp.clientOpId l done) := by
  induction requests generalizing s l with
  | nil => exact ⟨[], List.forall_mem_nil _, kept_refl s, h⟩
  | cons r rest ih =>
      obtain ⟨done, hdone, hkept, hrep⟩ := request_refines r h
      obtain ⟨more, hmore, hkept', hrep'⟩ := ih hrep
      refine ⟨done ++ more, fun op hop => ?_, hkept.trans hkept', ?_⟩
      · rw [List.flatMap_cons, List.mem_append]
        exact (List.mem_append.1 hop).imp (fun hop => hdone.subset hop) (hmore op)
      · rw [enterAll, List.foldl_append]
        exact hrep'

theorem serve_append (s : FakeSyncServer) (before after : List Request) :
    serve s (before ++ after) = serve (serve s before) after := List.foldl_append

theorem serve_cons (s : FakeSyncServer) (r : Request) (rest : List Request) :
    serve s (r :: rest) = serve (r.effect s) rest := rfl

/-- What each request keeps, any number of them keep. -/
theorem serve_invariant {P : FakeSyncServer → Prop} {requests : List Request}
    (h : ∀ r ∈ requests, ∀ s, P s → P (r.effect s)) (s : FakeSyncServer) (hs : P s) :
    P (serve s requests) := by
  induction requests generalizing s with
  | nil => exact hs
  | cons r rest ih =>
      exact ih (fun r' hr' => h r' (List.mem_cons_of_mem r hr')) _ (h r List.mem_cons_self s hs)

/-- After any requests of any devices the server is a ledger: its seqs count up from one, an id
has one record, the blobs of a record are there. Later requests only extend it, with ops that
they name, and replace no blob. -/
theorem server_is_ledger (before after : List Request) :
    ∃ l l', Represents (serve init before) l ∧ Represents (serve init (before ++ after)) l' ∧
      l <+: l' ∧ Kept (serve init before) (serve init (before ++ after)) ∧
      ∀ op ∈ l', op ∈ l ∨ op ∈ after.flatMap Request.ops := by
  obtain ⟨done, -, -, hrep⟩ := serve_refines before represents_init
  obtain ⟨more, hmore, hkept, hrep'⟩ := serve_refines after hrep
  rw [serve_append]
  exact ⟨_, _, hrep, hrep', prefix_enterAll, hkept,
    fun op hop => (mem_enterAll hop).imp_right (hmore op)⟩

theorem claimed_appendOps (baseCursor : Nat) (ops : List AppendOp) (h : Represents s l) :
    (appendOps baseCursor ops s).2.claimed = true := by
  obtain ⟨-, -, hkept, -⟩ := appendEach_refines ops (represents_claim h)
  exact hkept.claimed rfl

/-- A batch that was answered once is answered alike for good, and its ops are not appended
again, whatever the other devices send in between. -/
theorem resend_is_idempotent (before after : List Request) (baseCursor baseCursor' : Nat)
    (ops : List AppendOp) (r : AppendResult)
    (h : (appendOps baseCursor ops (serve init before)).1 = .ok r) :
    appendOps baseCursor' ops (serve init (before ++ .append baseCursor ops :: after)) =
      (.ok ⟨r.assigned, (serve init (before ++ .append baseCursor ops :: after)).seq⟩,
        serve init (before ++ .append baseCursor ops :: after)) := by
  obtain ⟨done, -, -, hrep⟩ := serve_refines before represents_init
  obtain ⟨done', -, -, hrep', hall⟩ := appendOps_refines baseCursor ops hrep
  obtain ⟨-, -, hids, hseqs⟩ := hall r h
  obtain ⟨more, -, hkept, hrep''⟩ := serve_refines after hrep'
  rw [serve_append, serve_cons, Request.effect]
  have hclaimed := hkept.claimed (claimed_appendOps baseCursor ops hrep)
  have hknown : ∀ p ∈ r.assigned,
      (serve (appendOps baseCursor ops (serve init before)).2 after).byClientOpId.get p.1 =
        some p.2 := by
    intro p hp
    have hbefore := hseqs p hp
    rw [hrep'.byClientOpId, Option.map_eq_some_iff] at hbefore
    obtain ⟨i, hi, hseq⟩ := hbefore
    rw [hrep''.byClientOpId, place_mono prefix_enterAll hi, Option.map_some, hseq]
  rw [appendOps, claim_of_claimed hclaimed, appendEach_known hids hknown]
  rfl

/-- Two ops of one device, the second without content; another device comes between. -/
def twoOps : List AppendOp := [⟨"a-1", "c1", ["h"]⟩, ⟨"a-2", "c2", []⟩]

def twoOpsServer : FakeSyncServer := serve init [.putBlob "h" [1], .append 0 twoOps]

theorem represents_twoOps : Represents twoOpsServer twoOps := by
  have hrep : Represents (FakeSyncServer.putBlob "h" [1] init) [] :=
    represents_storeBlob (represents_claim represents_init) ⟨"h", [1]⟩
  obtain ⟨done, -, -, hrep', hall⟩ := appendOps_refines 0 twoOps hrep
  obtain ⟨rfl, -⟩ := hall ⟨[("a-1", 1), ("a-2", 2)], 2⟩ rfl
  exact hrep'

theorem resend_is_idempotent_twoOps :
    appendOps 7 twoOps (serve init ([.putBlob "h" [1]] ++ .append 0 twoOps ::
        [.append 0 [⟨"b-1", "c3", ["h"]⟩], .read])) =
      (.ok ⟨[("a-1", 1), ("a-2", 2)], (serve init ([.putBlob "h" [1]] ++ .append 0 twoOps ::
          [.append 0 [⟨"b-1", "c3", ["h"]⟩], .read])).seq⟩,
        serve init ([.putBlob "h" [1]] ++ .append 0 twoOps ::
          [.append 0 [⟨"b-1", "c3", ["h"]⟩], .read])) :=
  resend_is_idempotent [.putBlob "h" [1]] [.append 0 [⟨"b-1", "c3", ["h"]⟩], .read] 0 7 twoOps
    ⟨[("a-1", 1), ("a-2", 2)], 2⟩ rfl

end Requests

end Refinement

end OpsBlobs.SyncServer
