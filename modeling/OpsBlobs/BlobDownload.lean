import OpsBlobs.ServerPull
import OpsBlobs.WorkerPool

namespace OpsBlobs.BlobDownload

open Types Coroutine GhostCode WriteEffects Promises WorkerPool Ledger Encryption SyncServer ServerApi

/-- A batch that is too large for one answer is asked for by halves, and a single blob on its own. -/
def getBlobBatchSplit (hashes : List String) : Round (JsMap String Bytes) :=
  (do
    let batch ← getBlobBatch hashes
    pure batch.blobs).tryCatch fun e =>
      if e ≠ SyncError.batchTooLarge then throw e
      else if _ : hashes.length ≤ 1 then do
        let hash := hashes.headD ""
        let bytes ← getBlob hash
        pure (bytes.elim .empty (JsMap.empty.set hash))
      else do
        let mid := hashes.length / 2
        let r ← both (fun s => s.turn (2 * hashes.length + 1))
          (getBlobBatchSplit (hashes.take mid)) (getBlobBatchSplit (hashes.drop mid))
        pure (JsMap.ofList (r.1.entries ++ r.2.entries))
termination_by hashes.length
decreasing_by
  · simp only [List.length_take]
    omega
  · simp only [List.length_drop]
    omega

section Split

abbrev Reads : Net → Net → Prop := Sending (· = .read)

/-- What a round knows of a server while `I` holds: `Gives` says what its blobs are, and `Lacks`
which it does not have. -/
structure Source (E : Net → Net → Prop) (I : Net → Prop) (Lacks : String → Prop)
    (Gives : String → Bytes → Prop) : Prop where
  refl : ∀ s, E s s
  trans : ∀ s s' s'', E s s' → E s' s'' → E s s''
  reads : ∀ s s', Reads s s' → E s s'
  kept : ∀ s s', E s s' → I s → I s'
  absent : ∀ s, I s → ∀ hash, s.server.blobs.get hash = none → Lacks hash
  present : ∀ s, I s → ∀ hash bytes, s.server.blobs.get hash = some bytes → Gives hash bytes
  notFound : ∀ s fault, I s → s.link = .down fault ∨ s.link = .lost fault → fault = .status 404 →
    ∀ hash, Lacks hash

/-- The answer lacks a blob only where the server does, and has the server's for the rest. -/
structure Answers (Lacks : String → Prop) (Gives : String → Bytes → Prop) (hashes : List String)
    (m : JsMap String Bytes) : Prop where
  absent : ∀ hash ∈ hashes, m.get hash = none → Lacks hash
  present : ∀ hash bytes, m.get hash = some bytes → Gives hash bytes

variable {E : Net → Net → Prop} {I : Net → Prop} {Lacks : String → Prop}
  {Gives : String → Bytes → Prop} {hashes : List String} {s : Net}

theorem get_getBlobBatch (hashes : List String) (server : FakeSyncServer) (hash : String) :
    (server.getBlobBatch hashes).blobs.get hash =
      if hash ∈ hashes then server.blobs.get hash else none := by
  induction hashes using List.reverseRecOn with
  | nil => rfl
  | append_singleton hashes h ih =>
      rw [FakeSyncServer.getBlobBatch, List.foldl_concat, ← FakeSyncServer.getBlobBatch]
      cases hb : server.blobs.get h with
      | none =>
          rw [ih]
          by_cases heq : hash = h
          · subst heq
            simp [hb]
          · simp [heq]
      | some bytes =>
          simp only [JsMap.get_set, ih, List.mem_append, List.mem_singleton]
          by_cases heq : h = hash
          · subst heq
            simp [hb]
          · simp [heq, Ne.symm heq]

/-- What the caller knows at the start of a read it knows to its end. -/
theorem Source.afterRead (hE : Source E I Lacks Gives) (hI : I s) {s₁ s₂ : Net} (hs₁ : E s s₁)
    (hs₂ : E (s₁.deliver .read) s₂) : I s₁ ∧ I s₂ := by
  have hI₁ := hE.kept s s₁ hs₁ hI
  have hread := hE.reads _ _ (sending_deliver (H := (· = .read)) rfl s₁)
  exact ⟨hI₁, hE.kept _ _ hs₂ (hE.kept _ _ hread hI₁)⟩

theorem getBlobBatch_spec (hE : Source E I Lacks Gives) (hI : I s) :
    wp E Reads (getBlobBatch hashes)
      (ends (fun r s' => I s' ∧ Answers Lacks Gives hashes r.blobs)
        (fun e s' => I s' ∧ (e ≠ .batchTooLarge → FromLink e))) s := by
  have hfault : ∀ fault, (if fault = Fault.status 413 then SyncError.batchTooLarge
      else requestError "downloading your files" fault) ≠ .batchTooLarge →
      FromLink (if fault = Fault.status 413 then SyncError.batchTooLarge
        else requestError "downloading your files" fault) := by
    intro fault
    split
    · exact fun h => absurd rfl h
    · exact fun _ => ⟨_, fault, rfl⟩
  refine wp_call (sending_deliver rfl) (fun s₁ hs₁ fault _ => ⟨hE.kept s s₁ hs₁ hI, hfault fault⟩)
    fun s₁ s₂ hs₁ hs₂ => ?_
  obtain ⟨hI₁, hI₂⟩ := hE.afterRead hI hs₁ hs₂
  refine ⟨⟨hI₂, fun hash hmem hnone => ?_, fun hash bytes hsome => ?_⟩,
    fun fault _ => ⟨hI₂, hfault fault⟩⟩
  · rw [get_getBlobBatch, if_pos hmem] at hnone
    exact hE.absent s₁ hI₁ hash hnone
  · rw [get_getBlobBatch] at hsome
    split at hsome
    · exact hE.present s₁ hI₁ hash bytes hsome
    · cases hsome

theorem getBlob_spec (hE : Source E I Lacks Gives) (hI : I s) (hash : String) :
    wp E Reads (getBlob hash)
      (ends (fun r s' => I s' ∧ (r = none → Lacks hash) ∧ ∀ bytes, r = some bytes → Gives hash bytes)
        (fun e _ => FromLink e)) s := by
  refine wp_call (sending_deliver rfl) (fun s₁ hs₁ fault hlink => ?_) fun s₁ s₂ hs₁ hs₂ => ?_
  · have hI₁ := hE.kept s s₁ hs₁ hI
    split
    · rename_i h404
      exact ⟨hI₁, fun _ => hE.notFound s₁ fault hI₁ (Or.inl hlink) h404 hash, by rintro _ ⟨⟩⟩
    · exact ⟨_, fault, rfl⟩
  · obtain ⟨hI₁, hI₂⟩ := hE.afterRead hI hs₁ hs₂
    refine ⟨⟨hI₂, hE.absent s₁ hI₁ hash, hE.present s₁ hI₁ hash⟩, fun fault hlink => ?_⟩
    split
    · rename_i h404
      exact ⟨hI₂, fun _ => hE.notFound s₁ fault hI₁ (Or.inr hlink) h404 hash, by rintro _ ⟨⟩⟩
    · exact ⟨_, fault, rfl⟩

/-- Both halves ask the same server, side by side. -/
theorem Source.apart (hE : Source E I Lacks Gives) :
    Apart E E Reads E Reads :=
  ⟨hE.refl, hE.trans, hE.trans, fun _ _ h => h, fun _ _ h => h, hE.reads, hE.reads⟩

/-- However often the server finds the answer too large, every hash asked for is answered, or
lacking there. -/
theorem getBlobBatchSplit_spec (hE : Source E I Lacks Gives) (hI : I s) :
    wp E Reads (getBlobBatchSplit hashes)
      (ends (fun m s' => I s' ∧ Answers Lacks Gives hashes m) (fun e _ => FromLink e)) s := by
  induction hn : hashes.length using Nat.strong_induction_on generalizing hashes s with
  | _ n ih =>
      rw [getBlobBatchSplit]
      refine wp_tryCatch.2 (wp_bind.2 (wp_mono ?_ (getBlobBatch_spec hE hI)))
      rintro (e | r) s₁ hr
      · change wp _ _ (if _ then _ else _ : Round _) _ s₁
        split
        · rename_i hother
          exact hr.2 hother
        split
        · rename_i hone
          refine wp_bind.2 (wp_mono ?_ (getBlob_spec hE hr.1 _))
          rintro (e | bytes) s₂ hb
          · exact hb
          refine ⟨hb.1, fun hash hmem hnone => ?_, fun hash bytes' hsome => ?_⟩
          · obtain ⟨a, rfl⟩ : ∃ a, hashes = [a] := by
              cases hashes with
              | nil => cases hmem
              | cons a rest => exact ⟨a, by simpa using hone⟩
            obtain rfl := List.mem_singleton.1 hmem
            cases bytes with
            | none => exact hb.2.1 rfl
            | some bytes => simp at hnone
          · cases bytes with
            | none => cases hsome
            | some bytes =>
                rw [Option.elim_some, JsMap.get_set] at hsome
                split at hsome
                · rename_i heq
                  exact heq ▸ hb.2.2 bytes' hsome
                · cases hsome
        · rename_i hmany
          have hpart : ∀ part : List String, part.length < n → ∀ s', E s₁ s' →
              wp E Reads (getBlobBatchSplit part)
                (ends (fun m s' => I s' ∧ Answers Lacks Gives part m) (fun e _ => FromLink e)) s' :=
            fun part hlt s' hs' => ih _ hlt (hE.kept _ _ hs' hr.1) rfl
          have hleft := hpart (hashes.take (hashes.length / 2)) (by
            rw [List.length_take]
            omega)
          have hright := hpart (hashes.drop (hashes.length / 2)) (by
            rw [List.length_drop]
            omega)
          refine wp_bind.2 (wp_mono ?_ (wp_both hE.apart (fun _ _ h => h) (fun _ _ h => h)
            (fun _ s s' h hs => ⟨hE.kept s s' hs h.1, h.2⟩)
            (fun _ s s' h hs => ⟨hE.kept s s' hs h.1, h.2⟩) (hleft s₁ (hE.refl s₁)) hright))
          rintro (e | m) s₂ hm
          · exact hm
          obtain ⟨⟨hI₂, ha⟩, -, hb⟩ := hm
          refine ⟨hI₂, fun hash hmem hnone => ?_, fun hash bytes hsome => ?_⟩
          · rw [JsMap.get_ofList_eq_none_iff, List.map_append, List.mem_append, not_or] at hnone
            have hnotin : ∀ m' : JsMap String Bytes, hash ∉ m'.entries.map Prod.fst →
                m'.get hash = none := fun m' h => by
              rw [← JsMap.get_ofList_entries]
              exact JsMap.get_ofList_eq_none_iff.2 h
            rw [← List.take_append_drop (hashes.length / 2) hashes, List.mem_append] at hmem
            exact hmem.elim (fun h => ha.absent hash h (hnotin _ hnone.1))
              (fun h => hb.absent hash h (hnotin _ hnone.2))
          · refine (List.mem_append.1 (JsMap.mem_of_get_ofList hsome)).elim (fun h => ?_) fun h => ?_
            · exact ha.present hash bytes ((JsMap.mem_entries_iff _).1 h)
            · exact hb.present hash bytes ((JsMap.mem_entries_iff _).1 h)
      · exact hr

end Split

/-- What a download fills: the content that was staged, and the hashes that could not be had. -/
structure Fetched where
  contentStore : JsMap String Bytes
  missing : List String

def Fetched.stage (hash : String) (content : Bytes) (f : Fetched) : Fetched :=
  { f with contentStore := f.contentStore.set hash content }

def Fetched.strand (hash : String) (f : Fetched) : Fetched :=
  { f with missing := if hash ∈ f.missing then f.missing else f.missing ++ [hash] }

abbrev Fetching := Coroutine (Net × Fetched) SyncError

section Download

variable (W : WebCrypto) (C : VaultCrypto)

/-- An envelope is opened, and what it holds has to hash to what it was asked for. -/
def openVerified (blinded contentHash : String) (envelope : Bytes) : Round Bytes := do
  let content ← decryptBlob W C envelope
  pause
  if sha256Hex W content ≠ contentHash then
    throw (.other ("Blob " ++ blinded ++ " failed content-hash verification"))
  else pure content

def stageBlob (blobs : JsMap String Bytes) (byBlinded : JsMap String String) (blinded : String) :
    Fetching Unit :=
  let contentHash := (byBlinded.get blinded).getD ""
  match blobs.get blinded with
  | none => modify fun x => (x.1, x.2.strand contentHash)
  | some envelope => do
      let content ← lift (openVerified W C blinded contentHash envelope)
      modify fun x => (x.1, x.2.stage contentHash content)

def fetchBlobChunk (byBlinded : JsMap String String) (chunk : List String) : Fetching Unit := do
  let blobs ← lift (getBlobBatchSplit chunk)
  forEach (stageBlob W C blobs byBlinded) chunk

def blindAll (wanted : List String) : Round (JsMap String String) :=
  foldM (fun byBlinded contentHash => do
    let blinded ← blindHash W C contentHash
    pure (byBlinded.set blinded contentHash)) .empty wanted

/-- The blobs that are nowhere on the device, from the server. -/
def downloadBlobs (blobBatchMaxCount blobDownloadConcurrency : Nat) (wanted : List String) :
    Fetching Unit := do
  let byBlinded ← lift (blindAll W C wanted)
  runPool (fun x => x.1.cancelled) .cancelled false
    ((batches blobBatchMaxCount byBlinded.keys).map (fetchBlobChunk W C byBlinded))
    (fun n x => x.1.turn (2 * n)) blobDownloadConcurrency

def fetchBlob (contentHash : String) : Round (Option Bytes) := do
  let blinded ← blindHash W C contentHash
  match ← getBlob blinded with
  | none => pure none
  | some envelope => do
      let content ← openVerified W C blinded contentHash envelope
      pure (some content)

end Download

section Staged

/-- How a download may fail: by the user, by the link, or for a blob that is not what it stands
for. -/
inductive DownloadFails (W : WebCrypto) (C : VaultCrypto) (Gives : String → Bytes → Prop)
    (wanted : List String) : SyncError → Prop
  | cancelled : DownloadFails W C Gives wanted .cancelled
  | request {e : SyncError} (h : FromLink e) : DownloadFails W C Gives wanted e
  | forged {hash : String} {bytes : Bytes} (message : String) (hmem : hash ∈ wanted)
      (hgives : Gives (C.blindHash W hash) bytes)
      (hbad : ∀ content, C.decryptBlob W bytes = some content → sha256Hex W content ≠ hash) :
      DownloadFails W C Gives wanted (.other message)

variable {W : WebCrypto} {C : VaultCrypto} {E : Net → Net → Prop} {I : Net → Prop}
  {Lacks : String → Prop} {Gives : String → Bytes → Prop} {byBlinded : JsMap String String} {s : Net}
  {x y : Net × Fetched} {wanted : List String}

/-- Staged content is what its hash says, and what is missing the server lacks. -/
structure Sound (W : WebCrypto) (C : VaultCrypto) (I : Net → Prop) (Lacks : String → Prop)
    (x : Net × Fetched) : Prop where
  net : I x.1
  addressed : ∀ hash content, x.2.contentStore.get hash = some content → sha256Hex W content = hash
  missing : ∀ hash ∈ x.2.missing, Lacks (C.blindHash W hash)

structure Grows (f g : Fetched) : Prop where
  staged : ∀ hash, f.contentStore.has hash = true → g.contentStore.has hash = true
  missing : ∀ hash ∈ f.missing, hash ∈ g.missing

theorem grows_refl (f : Fetched) : Grows f f := ⟨fun _ h => h, fun _ h => h⟩

theorem Grows.trans {f g h : Fetched} (hfg : Grows f g) (hgh : Grows g h) : Grows f h :=
  ⟨fun hash hf => hgh.staged hash (hfg.staged hash hf),
    fun hash hf => hgh.missing hash (hfg.missing hash hf)⟩

theorem grows_stage (f : Fetched) (hash : String) (content : Bytes) :
    Grows f (f.stage hash content) := by
  refine ⟨fun h hf => ?_, fun _ hf => hf⟩
  obtain ⟨b, hb⟩ := (JsMap.has_iff _ _).1 hf
  rw [JsMap.has_iff, Fetched.stage, JsMap.get_set]
  split
  · exact ⟨content, rfl⟩
  · exact ⟨b, hb⟩

theorem mem_strand {f : Fetched} {hash h : String} :
    h ∈ (f.strand hash).missing ↔ h ∈ f.missing ∨ h = hash := by
  rw [Fetched.strand]
  split
  · rename_i hmem
    refine ⟨Or.inl, ?_⟩
    rintro (h | rfl)
    · exact h
    · exact hmem
  · rw [List.mem_append, List.mem_singleton]

theorem grows_strand (f : Fetched) (hash : String) : Grows f (f.strand hash) :=
  ⟨fun _ hf => hf, fun _ hf => mem_strand.2 (Or.inl hf)⟩

/-- Content that hashes to a key, or a key of which nothing could be had. -/
def Settled (hash : String) (f : Fetched) : Prop :=
  f.contentStore.has hash = true ∨ hash ∈ f.missing

theorem Settled.grows {f g : Fetched} {hash : String} (h : Settled hash f) (hg : Grows f g) :
    Settled hash g := h.imp (hg.staged hash) (hg.missing hash)

/-- What the workers put up with from each other and from outside; `T` is what is sent. -/
def Aside (W : WebCrypto) (C : VaultCrypto) (I : Net → Prop) (Lacks : String → Prop)
    (T : Net → Net → Prop) (x y : Net × Fetched) : Prop :=
  T x.1 y.1 ∧ (Sound W C I Lacks x → Sound W C I Lacks y) ∧ Grows x.2 y.2

/-- A call that only concerns the network leaves what was fetched to the other workers. -/
theorem wp_lift_net {α : Type} {t : Round α} {Q : Except SyncError α → Net → Prop} {f : Fetched}
    (hE : Source E I Lacks Gives) (hx : Sound W C I Lacks x) (hf : Grows f x.2)
    (h : wp E Reads t Q x.1) :
    wp (Aside W C I Lacks E) (Aside W C I Lacks Reads) (lift t)
      (fun r y => Q r y.1 ∧ Sound W C I Lacks y ∧ Grows f y.2) x := by
  have hkeep : ∀ s s' (g : Fetched), Reads s s' → Sound W C I Lacks (s, g) →
      Sound W C I Lacks (s', g) := fun s s' g ht hs =>
    ⟨hE.kept s s' (hE.reads s s' ht) hs.net, hs.addressed, hs.missing⟩
  refine wp_lift_frame (fun _ _ h => h.1) (fun s s' g ht => ⟨ht, hkeep s s' g ht, grows_refl g⟩)
    (fun a b hab hI => ⟨hab.2.1 hI.1, hI.2.trans hab.2.2⟩)
    (fun s s' g ht hI => ⟨hkeep s s' g ht hI.1, hI.2⟩) ⟨hx, hf⟩ h

theorem openVerified_spec {contentHash : String} {envelope : Bytes} (hI : I s)
    (hE : Source E I Lacks Gives) (hmem : contentHash ∈ wanted)
    (hgives : Gives (C.blindHash W contentHash) envelope) :
    wp E Reads (openVerified W C (C.blindHash W contentHash) contentHash envelope)
      (ends (fun content s' => I s' ∧ sha256Hex W content = contentHash)
        (fun e _ => DownloadFails W C Gives wanted e ∧ e ≠ .cancelled)) s := by
  refine wp_bind.2 (wp_pause.2 fun s₁ hs₁ => wp_ofExcept.2 ?_)
  cases hopen : C.decryptBlob W envelope with
  | none => exact ⟨.forged _ hmem hgives (by simp [hopen]), by rintro ⟨⟩⟩
  | some content =>
      refine wp_pause.2 fun s₂ hs₂ => ?_
      split
      · rename_i hne
        exact ⟨.forged _ hmem hgives (by simpa [hopen] using hne), by rintro ⟨⟩⟩
      · rename_i heq
        exact ⟨hE.kept _ _ hs₂ (hE.kept _ _ hs₁ hI), not_not.1 heq⟩

/-- A single blob is there, and what its hash says, or the server lacks it. -/
theorem fetchBlob_spec {contentHash : String} (hE : Source E I Lacks Gives) (hI : I s)
    (hmem : contentHash ∈ wanted) :
    wp E Reads (fetchBlob W C contentHash)
      (ends (fun r _ => (r = none → Lacks (C.blindHash W contentHash)) ∧
          ∀ content, r = some content → sha256Hex W content = contentHash)
        (fun e _ => DownloadFails W C Gives wanted e ∧ e ≠ .cancelled)) s := by
  refine wp_bind.2 (wp_bind.2 (wp_pause.2 fun s₁ hs₁ => ?_))
  refine wp_bind.2 (wp_mono ?_ (getBlob_spec hE (hE.kept _ _ hs₁ hI) _))
  rintro (e | r) s₂ hr
  · exact ⟨.request hr, ne_cancelled_of_fromLink hr⟩
  obtain ⟨hI₂, hlacks, hgives⟩ := hr
  cases r with
  | none => exact ⟨fun _ => hlacks rfl, by rintro _ ⟨⟩⟩
  | some envelope =>
      refine wp_bind.2 (wp_mono ?_ (openVerified_spec hI₂ hE hmem (hgives envelope rfl)))
      rintro (e | content) s₃ hc
      · exact hc
      · refine ⟨by rintro ⟨⟩, fun content' heq => ?_⟩
        obtain rfl := Option.some.inj heq
        exact hc.2

/-- A blinded hash that was answered is settled, under the hash that it stands for. -/
theorem stageBlob_spec {blobs : JsMap String Bytes} {blinded hash : String} {f : Fetched}
    (hE : Source E I Lacks Gives) (hx : Sound W C I Lacks x) (hf : Grows f x.2)
    (hhash : byBlinded.get blinded = some hash) (hblind : blinded = C.blindHash W hash)
    (hmem : hash ∈ wanted) (hlacks : blobs.get blinded = none → Lacks blinded)
    (hgives : ∀ bytes, blobs.get blinded = some bytes → Gives blinded bytes) :
    wp (Aside W C I Lacks E) (Aside W C I Lacks Reads)
      (stageBlob W C blobs byBlinded blinded)
      (ends (fun _ y => Sound W C I Lacks y ∧ Grows f y.2 ∧ Settled hash y.2)
        (fun e _ => DownloadFails W C Gives wanted e)) x := by
  subst hblind
  rw [stageBlob, hhash, Option.getD_some]
  cases hb : blobs.get (C.blindHash W hash) with
  | none =>
      have hsound : Sound W C I Lacks (x.1, x.2.strand hash) :=
        ⟨hx.net, hx.addressed, fun h hm => (mem_strand.1 hm).elim (hx.missing h) fun heq =>
          heq ▸ hlacks hb⟩
      exact ⟨⟨sending_refl x.1, fun _ => hsound, grows_strand _ _⟩, hsound,
        hf.trans (grows_strand _ _), Or.inr (mem_strand.2 (Or.inr rfl))⟩
  | some envelope =>
      refine wp_bind.2 (wp_mono ?_ (wp_lift_net hE hx hf
        (openVerified_spec hx.net hE hmem (hgives envelope hb))))
      rintro (e | content) y ⟨hc, hy, hg⟩
      · exact hc.1
      have hsound : Sound W C I Lacks (y.1, y.2.stage hash content) := by
        refine ⟨hy.net, fun h b hget => ?_, hy.missing⟩
        rw [Fetched.stage, JsMap.get_set] at hget
        split at hget
        · rename_i heq
          rw [← Option.some.inj hget, ← heq]
          exact hc.2
        · exact hy.addressed h b hget
      exact ⟨⟨sending_refl y.1, fun _ => hsound, grows_stage _ _ _⟩, hsound,
        hg.trans (grows_stage _ _ _), Or.inl ((JsMap.has_iff _ _).2 ⟨content, JsMap.get_set_self _ _ _⟩)⟩

/-- The blinded hashes of a download, each with the hash that it stands for. -/
structure Blinds (W : WebCrypto) (C : VaultCrypto) (byBlinded : JsMap String String)
    (wanted : List String) : Prop where
  sound : ∀ blinded hash, byBlinded.get blinded = some hash →
    blinded = C.blindHash W hash ∧ hash ∈ wanted
  complete : ∀ hash ∈ wanted, byBlinded.get (C.blindHash W hash) = some hash

/-- Every hash of a chunk is settled by the end of it. -/
def ChunkSettled (byBlinded : JsMap String String) (chunk : List String) (x : Net × Fetched) : Prop :=
  ∀ blinded ∈ chunk, ∀ hash, byBlinded.get blinded = some hash → Settled hash x.2

theorem aside_trans {T : Net → Net → Prop} (hT : ∀ s s' s'', T s s' → T s' s'' → T s s'')
    (x y z : Net × Fetched) (h : Aside W C I Lacks T x y) (h' : Aside W C I Lacks T y z) :
    Aside W C I Lacks T x z :=
  ⟨hT _ _ _ h.1 h'.1, fun hx => h'.2.1 (h.2.1 hx), h.2.2.trans h'.2.2⟩

theorem aside_refl {T : Net → Net → Prop} (hT : ∀ s, T s s) (x : Net × Fetched) :
    Aside W C I Lacks T x x := ⟨hT x.1, id, grows_refl x.2⟩

theorem fetchBlobChunk_spec {chunk : List String} (hE : Source E I Lacks Gives)
    (hB : Blinds W C byBlinded wanted) (hchunk : ∀ blinded ∈ chunk, blinded ∈ byBlinded.keys)
    (hx : Sound W C I Lacks x) :
    wp (Aside W C I Lacks E) (Aside W C I Lacks Reads)
      (fetchBlobChunk W C byBlinded chunk)
      (ends (fun _ => ChunkSettled byBlinded chunk) (fun e _ => DownloadFails W C Gives wanted e)) x := by
  refine wp_bind.2 (wp_mono ?_ (wp_lift_net hE hx (grows_refl x.2)
    (getBlobBatchSplit_spec hE hx.net)))
  rintro (e | blobs) y ⟨hblobs, hy, -⟩
  · exact .request hblobs
  have hloop : ∀ rest : List String, (∀ blinded ∈ rest, blinded ∈ chunk) → ∀ y : Net × Fetched,
      Sound W C I Lacks y → wp (Aside W C I Lacks E) (Aside W C I Lacks Reads)
        (forEach (stageBlob W C blobs byBlinded) rest)
        (ends (fun _ z => Sound W C I Lacks z ∧ Grows y.2 z.2 ∧ ChunkSettled byBlinded rest z)
          (fun e _ => DownloadFails W C Gives wanted e)) y := by
    intro rest hrest
    induction rest with
    | nil => exact fun y hy => ⟨hy, grows_refl y.2, List.forall_mem_nil _⟩
    | cons blinded rest ih =>
        intro y hy
        have hmem := hrest blinded List.mem_cons_self
        obtain ⟨hash, hhash⟩ := (JsMap.mem_keys_iff _).1 (hchunk blinded hmem)
        refine wp_bind'.2 (wp_mono ?_ (stageBlob_spec hE hy (grows_refl y.2) hhash
          (hB.sound _ _ hhash).1 (hB.sound _ _ hhash).2 (hblobs.2.absent blinded hmem) (hblobs.2.present blinded)))
        rintro (e | u) z hz
        · exact hz
        obtain ⟨hsound, hgrows, hsettled⟩ := hz
        refine wp_mono ?_ (ih (fun b hb => hrest b (List.mem_cons_of_mem _ hb)) z hsound)
        rintro (e | u) w hw
        · exact hw
        refine ⟨hw.1, hgrows.trans hw.2.1, List.forall_mem_cons.2 ⟨fun h hh => ?_, hw.2.2⟩⟩
        obtain rfl := Option.some.inj (hhash.symm.trans hh)
        exact hsettled.grows hw.2.1
  refine wp_mono ?_ (hloop chunk (fun _ h => h) y hy)
  rintro (e | u) z hz
  · exact hz
  · exact hz.2.2

/-- No two of the hashes are one when they are blinded. -/
def ApartBlinded (W : WebCrypto) (C : VaultCrypto) (hashes : List String) : Prop :=
  ∀ hash ∈ hashes, ∀ hash' ∈ hashes, C.blindHash W hash = C.blindHash W hash' → hash = hash'

theorem blindAll_spec (hE : Source E I Lacks Gives)
    (happart : ApartBlinded W C wanted) (hI : I s) :
    wp E Reads (blindAll W C wanted)
      (ends (fun byBlinded s' => I s' ∧ Blinds W C byBlinded wanted)
        (fun e _ => DownloadFails W C Gives wanted e)) s := by
  have hloop : ∀ (rest done : List String) (m : JsMap String String) (s : Net),
      ApartBlinded W C (done ++ rest) → I s →
      Blinds W C m done → wp E Reads (foldM (fun byBlinded contentHash => do
        let blinded ← blindHash W C contentHash
        pure (byBlinded.set blinded contentHash)) m rest)
        (ends (fun byBlinded s' => I s' ∧ Blinds W C byBlinded (done ++ rest))
          (fun e _ => DownloadFails W C Gives wanted e)) s := by
    intro rest
    induction rest with
    | nil =>
        intro done m s _ hI hm
        rw [List.append_nil]
        exact ⟨hI, hm⟩
    | cons hash rest ih =>
        intro done m s happart hI hm
        have hall : done ++ hash :: rest = done ++ [hash] ++ rest := by simp
        rw [hall] at happart ⊢
        refine wp_bind'.2 (wp_bind.2 (wp_pause.2 fun s' hs => ?_))
        have hnext : Blinds W C (m.set (C.blindHash W hash) hash) (done ++ [hash]) := by
          constructor
          · intro blinded h hget
            rw [JsMap.get_set] at hget
            split at hget
            · rename_i heq
              obtain rfl := Option.some.inj hget
              exact ⟨heq.symm, List.mem_append_right done (List.mem_singleton_self hash)⟩
            · exact (hm.sound blinded h hget).imp_right (List.mem_append_left [hash])
          · intro h hmem
            rw [JsMap.get_set]
            split
            · rename_i heq
              rw [happart hash (by simp) h (List.mem_append_left rest hmem) heq]
            · rename_i hne
              refine hm.complete h ((List.mem_append.1 hmem).resolve_right fun hh => hne ?_)
              rw [List.mem_singleton.1 hh]
        exact ih (done ++ [hash]) _ s' happart (hE.kept s s' hs hI) hnext
  have hempty : Blinds W C .empty [] := ⟨by rintro b h ⟨⟩, List.forall_mem_nil _⟩
  exact hloop wanted [] .empty s happart hI hempty

variable {batchMax concurrency : Nat}

theorem chunks_job (hE : Source E I Lacks Gives) (hB : Blinds W C byBlinded wanted)
    (hmax : 0 < batchMax) :
    Job (Aside W C I Lacks E) (Aside W C I Lacks Reads)
      ((batches batchMax byBlinded.keys).map (fetchBlobChunk W C byBlinded)) (Sound W C I Lacks)
      (fun i x => ∀ chunk, (batches batchMax byBlinded.keys)[i]? = some chunk →
        ChunkSettled byBlinded chunk x) (fun e _ => DownloadFails W C Gives wanted e) where
  refl := aside_refl sending_refl
  trans := aside_trans hE.trans
  own := fun x y h => ⟨hE.reads _ _ h.1, h.2⟩
  kept := fun x y h hx => h.2.1 hx
  stays := fun i x y h hdone chunk hchunk blinded hb hash hh =>
    (hdone chunk hchunk blinded hb hash hh).grows h.2.2
  unit := by
    intro i u hu x hx
    rw [List.getElem?_map, Option.map_eq_some_iff] at hu
    obtain ⟨chunk, hchunk, rfl⟩ := hu
    refine wp_mono ?_ (fetchBlobChunk_spec hE hB (fun blinded hb => ?_) hx)
    · rintro (e | r) y hy
      · exact hy
      · intro chunk' hchunk'
        obtain rfl := Option.some.inj (hchunk.symm.trans hchunk')
        exact hy
    · exact (mem_batches_iff hmax).1 ⟨chunk, List.mem_of_getElem? hchunk, hb⟩

/-- A download that returns has settled every hash: its content is staged, or the server did not
have it. -/
theorem downloadBlobs_spec {R : Net → Net → Prop} (hE : Source E I Lacks Gives)
    (hR : ∀ s s', R s s' → E s s') (happart : ApartBlinded W C wanted)
    (hmax : 0 < batchMax) (hpos : 0 < concurrency) (hx : Sound W C I Lacks x) :
    wp (Outside R) (fun x y => Reads x.1 y.1)
      (downloadBlobs W C batchMax concurrency wanted)
      (ends (fun _ y => Sound W C I Lacks y ∧ Grows x.2 y.2 ∧ ∀ hash ∈ wanted, Settled hash y.2)
        (fun e _ => DownloadFails W C Gives wanted e)) x := by
  have hout : ∀ x y, Outside R x y → Aside W C I Lacks E x y := by
    rintro ⟨s, f⟩ ⟨s', f'⟩ ⟨hs, rfl⟩
    exact ⟨hR s s' hs, fun h => ⟨hE.kept s s' (hR s s' hs) h.net, h.addressed, h.missing⟩,
      grows_refl _⟩
  have hblind := wp_lift_net hE hx (grows_refl x.2) (blindAll_spec hE happart hx.net)
  refine wp_weaken (fun _ _ h => h) (fun x y h => h.1) (G := Aside W C I Lacks Reads) ?_
  refine wp_bind.2 (wp_mono ?_ (wp_weaken hout (fun _ _ h => h) hblind))
  rintro (e | byBlinded) y ⟨hB, hy⟩
  · exact hB
  have hpool := wp_runPool (fun x => x.1.cancelled) .cancelled false (fun n x => x.1.turn (2 * n))
    (chunks_job hE hB.2 hmax) hout (fun _ _ => .cancelled) hpos hy.1
  refine wp_mono ?_ (wp_invariant (I := fun z => Sound W C I Lacks z ∧ Grows x.2 z.2)
    (fun _ _ h hs => ⟨(hout _ _ h).2.1 hs.1, hs.2.trans (hout _ _ h).2.2⟩)
    (fun _ _ h hs => ⟨h.2.1 hs.1, hs.2.trans h.2.2⟩) hpool hy)
  rintro (e | u) z ⟨hdone, hz, hgrows⟩
  · exact hdone
  refine ⟨hz, hgrows, fun hash hmem => ?_⟩
  have hget := hB.2.complete hash hmem
  obtain ⟨chunk, hchunk, hin⟩ := (mem_batches_iff hmax).2 ((JsMap.mem_keys_iff _).2 ⟨hash, hget⟩)
  obtain ⟨i, hi, hichunk⟩ := List.getElem_of_mem hchunk
  refine hdone i (by rwa [List.length_map]) chunk ?_ _ hin hash hget
  rw [List.getElem?_eq_getElem hi, hichunk]

end Staged

section Servers

variable {W : WebCrypto} {C : VaultCrypto} {H : Request → Prop} {batchMax concurrency : Nat}
  {wanted : List String} {s : Net} {store : JsMap String Bytes}

/-- A server that may do anything: lose blobs, swap them, make up answers. -/
theorem source_any : Source (fun _ _ => True) (fun _ => True) (fun _ => True) (fun _ _ => True) where
  refl := fun _ => trivial
  trans := fun _ _ _ _ _ => trivial
  reads := fun _ _ _ => trivial
  kept := fun _ _ _ _ => trivial
  absent := fun _ _ _ _ => trivial
  present := fun _ _ _ _ _ => trivial
  notFound := fun _ _ _ _ _ _ => trivial

/-- Whatever an untrusted server holds and answers, and whatever becomes of the link: a download
that returns has staged nothing but content that hashes to its key, and every hash that it was to
fetch is either staged or reported missing. -/
theorem download_from_any_server (happart : ApartBlinded W C wanted) (hmax : 0 < batchMax)
    (hpos : 0 < concurrency)
    (hstore : ∀ hash content, store.get hash = some content → sha256Hex W content = hash) :
    wp (Outside fun _ _ => True) (fun x y => Reads x.1 y.1)
      (downloadBlobs W C batchMax concurrency wanted)
      (ends (fun _ y =>
        (∀ hash content, y.2.contentStore.get hash = some content → sha256Hex W content = hash) ∧
          ∀ hash ∈ wanted, y.2.contentStore.has hash = true ∨ hash ∈ y.2.missing)
        (fun _ _ => True)) (s, ⟨store, []⟩) := by
  refine wp_mono ?_ (downloadBlobs_spec source_any (fun _ _ _ => trivial) happart hmax hpos
    ⟨trivial, hstore, List.forall_mem_nil _⟩)
  rintro (e | u) y hy
  · trivial
  · exact ⟨hy.1.addressed, hy.2.2⟩

/-- Two hashes to fetch; of one the content is staged already. -/
def twoWanted : List String := [sha256Hex plainCrypto [65], sha256Hex plainCrypto [66]]

theorem apartBlinded_twoWanted : ApartBlinded plainCrypto plainVault twoWanted := by
  rw [ApartBlinded]
  decide +kernel

def oneStaged : JsMap String Bytes := JsMap.ofList [(sha256Hex plainCrypto [65], [65])]

theorem addressed_oneStaged (hash : String) (content : Bytes)
    (h : oneStaged.get hash = some content) : sha256Hex plainCrypto content = hash := by
  rw [oneStaged, JsMap.ofList, List.foldl_cons, List.foldl_nil, JsMap.get_set] at h
  split at h
  · rename_i heq
    rw [← heq, ← Option.some.inj h]
  · cases h

theorem download_from_any_server_twoWanted :
    wp (Outside fun _ _ => True) (fun x y => Reads x.1 y.1)
      (downloadBlobs plainCrypto plainVault 1 2 twoWanted)
      (ends (fun _ y =>
        (∀ hash content, y.2.contentStore.get hash = some content →
          sha256Hex plainCrypto content = hash) ∧
          ∀ hash ∈ twoWanted, y.2.contentStore.has hash = true ∨ hash ∈ y.2.missing)
        (fun _ _ => True)) (.quiet twoOpsServer, ⟨oneStaged, []⟩) :=
  download_from_any_server apartBlinded_twoWanted Nat.one_pos Nat.two_pos addressed_oneStaged

/-- The server answers 404 for a blob only when it does not have it. -/
def Truthful (s : Net) : Prop :=
  ∀ fault, s.link = .down fault ∨ s.link = .lost fault → fault ≠ .status 404

/-- A server that keeps its blobs lacked, when the download began, what it lacks later; `P` is what
the others keep of it. -/
theorem source_keeping (s₀ : Net) (P : FakeSyncServer → Prop) (Gives : String → Bytes → Prop)
    (hclaim : ∀ server, P server → P server.claim)
    (hgives : ∀ server, P server → ∀ hash bytes, server.blobs.get hash = some bytes → Gives hash bytes) :
    Source (fun s s' => Kept s.server s'.server ∧ (Truthful s → Truthful s') ∧ (P s.server → P s'.server))
      (fun s => Kept s₀.server s.server ∧ Truthful s ∧ P s.server)
      (fun hash => s₀.server.blobs.get hash = none) Gives where
  refl := fun s => ⟨kept_refl _, id, id⟩
  trans := fun _ _ _ h h' =>
    ⟨h.1.trans h'.1, fun ht => h'.2.1 (h.2.1 ht), fun hp => h'.2.2 (h.2.2 hp)⟩
  reads := fun s s' h => by
    refine ⟨kept_of_traffic h.traffic, fun ht fault hlink => ht fault (h.link ▸ hlink), ?_⟩
    obtain ⟨requests, hreads, rfl⟩ := h
    exact serve_invariant (fun r hr server hp => by
      rw [hreads r hr]
      exact hclaim server hp) s.server
  kept := fun _ _ h hI => ⟨hI.1.trans h.1, h.2.1 hI.2.1, h.2.2 hI.2.2⟩
  absent := by
    intro s hI hash hnone
    cases h₀ : s₀.server.blobs.get hash with
    | none => rfl
    | some bytes => cases (hI.1.blobs hash bytes h₀).symm.trans hnone
  present := fun s hI => hgives s.server hI.2.2
  notFound := fun s fault hI hlink h404 => absurd h404 (hI.2.1 fault hlink)

/-- While other devices append and upload what they like, a download that returns has fetched, under
its own hash, every blob that the server held when the download began. -/
theorem download_complete (happart : ApartBlinded W C wanted) (hmax : 0 < batchMax)
    (hpos : 0 < concurrency) (hlink : Truthful s)
    (hstore : ∀ hash content, store.get hash = some content → sha256Hex W content = hash) :
    wp (Outside fun s s' => Traffic H s s' ∧ (Truthful s → Truthful s'))
      (fun x y => Reads x.1 y.1) (downloadBlobs W C batchMax concurrency wanted)
      (ends (fun _ y => ∀ hash ∈ wanted, s.server.blobs.has (C.blindHash W hash) = true →
        ∃ content, y.2.contentStore.get hash = some content ∧ sha256Hex W content = hash)
        (fun _ _ => True)) (s, ⟨store, []⟩) := by
  refine wp_mono ?_ (downloadBlobs_spec (source_keeping s (fun _ => True)
    (fun _ _ => True) (fun _ _ => trivial) (fun _ _ _ _ _ => trivial))
    (fun _ _ h => ⟨kept_of_traffic h.1, h.2, id⟩) happart hmax hpos
    ⟨⟨kept_refl _, hlink, trivial⟩, hstore, List.forall_mem_nil _⟩)
  rintro (e | u) y hy
  · trivial
  intro hash hmem hheld
  cases hy.2.2 hash hmem with
  | inl hstaged =>
      obtain ⟨content, hget⟩ := (JsMap.has_iff _ _).1 hstaged
      exact ⟨content, hget, hy.1.addressed hash content hget⟩
  | inr hmissing =>
      obtain ⟨bytes, hbytes⟩ := (JsMap.has_iff _ _).1 hheld
      cases hbytes.symm.trans (hy.1.missing hash hmissing)

theorem truthful_quiet (server : FakeSyncServer) : Truthful (.quiet server) := by
  rintro fault (h | h)
  · cases h
  · cases h

/-- The content that is not staged lies on the server, sealed. -/
def wantedServer : FakeSyncServer :=
  twoOpsServer.putBlob (plainVault.blindHash plainCrypto (sha256Hex plainCrypto [66]))
    (plainVault.encryptBlob plainCrypto (List.replicate GCM_NONCE_BYTES 0) [66])

theorem held_wantedServer : wantedServer.blobs.has
    (plainVault.blindHash plainCrypto (sha256Hex plainCrypto [66])) = true := by decide +kernel

theorem download_complete_twoWanted :
    wp (Outside fun s s' => Traffic (fun _ => True) s s' ∧ (Truthful s → Truthful s'))
      (fun x y => Reads x.1 y.1) (downloadBlobs plainCrypto plainVault 1 2 twoWanted)
      (ends (fun _ y => ∃ content,
          y.2.contentStore.get (sha256Hex plainCrypto [66]) = some content ∧
            sha256Hex plainCrypto content = sha256Hex plainCrypto [66])
        (fun _ _ => True)) (.quiet wantedServer, ⟨oneStaged, []⟩) := by
  refine wp_mono ?_ (download_complete apartBlinded_twoWanted Nat.one_pos Nat.two_pos
    (truthful_quiet wantedServer) addressed_oneStaged)
  rintro (e | u) y h
  · trivial
  · exact h (sha256Hex plainCrypto [66]) (List.mem_cons_of_mem _ List.mem_cons_self)
      held_wantedServer

end Servers

end OpsBlobs.BlobDownload
