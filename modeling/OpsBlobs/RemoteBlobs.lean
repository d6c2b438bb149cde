import OpsBlobs.BlobDownload
import OpsBlobs.ScopedStaging
import OpsBlobs.SyncHost

namespace OpsBlobs.RemoteBlobs

open Types Coroutine GhostCode WriteEffects Promises Encryption SyncServer ServerApi BlobDownload
open SyncApplicator ScopedStaging SyncHost

/-- A live file of ours with the same id has this content already. -/
def alreadyOurs (localState : VaultState) (re : FileEntry) : Bool :=
  (localState.fileEntries.get re.id).any fun le => !le.deleted && le.contentHash = re.contentHash

def wants (remoteState localState : VaultState) (re : FileEntry) : Bool :=
  !re.deleted && !remoteState.contentStore.has re.contentHash && !alreadyOurs localState re

def wantedHashes (remoteState localState : VaultState) : List String :=
  remoteState.fileEntries.values.foldl (fun wanted re =>
    if wants remoteState localState re then addOnce wanted re.contentHash else wanted) []

section Fetch

variable (W : WebCrypto) (C : VaultCrypto) (blobBatchMaxCount blobDownloadConcurrency : Nat)

/-- What the merge needs of the remote files: from the packs where they have it, else from the
server. The second result is what could not be obtained. -/
def fetchRemoteBlobs (remoteState localState : VaultState) : Session (VaultState × List String) :=
  let wanted := wantedHashes remoteState localState
  if wanted.isEmpty then pure (remoteState, [])
  else do
    let staged ← ask id (·.stageLocalContent remoteState wanted)
    let rest := wanted.filter (· ∉ staged.2)
    if rest.isEmpty then pure (withContent remoteState staged.1, [])
    else do
      let fetched ← lift (withLocal ⟨staged.1, []⟩
        (downloadBlobs W C blobBatchMaxCount blobDownloadConcurrency rest))
      pure (withContent remoteState fetched.2.contentStore, fetched.2.missing)

end Fetch

section Wanted

variable {remoteState localState : VaultState} {re : FileEntry} {id hash : String}

theorem mem_addOnce {ids : List String} {id id' : String} :
    id' ∈ addOnce ids id ↔ id' ∈ ids ∨ id = id' := by
  rw [addOnce]
  split
  · rename_i hmem
    refine ⟨Or.inl, ?_⟩
    rintro (h | rfl)
    · exact h
    · exact hmem
  · rw [List.mem_append, List.mem_singleton, eq_comm]

theorem mem_wantedHashes : hash ∈ wantedHashes remoteState localState ↔
    ∃ re ∈ remoteState.fileEntries.values, wants remoteState localState re = true ∧
      re.contentHash = hash := by
  rw [wantedHashes]
  generalize remoteState.fileEntries.values = entries
  induction entries using List.reverseRecOn with
  | nil => simp
  | append_singleton entries re ih =>
      rw [List.foldl_concat]
      by_cases hwants : wants remoteState localState re = true
      · rw [if_pos hwants, mem_addOnce, ih]
        simp [hwants, or_and_right, exists_or]
      · rw [if_neg hwants, ih]
        simp [hwants, or_and_right, exists_or]

/-- What is not wanted is staged already, or ours. -/
theorem wanted_or (hre : remoteState.fileEntries.get id = some re) (hlive : re.deleted = false) :
    re.contentHash ∈ wantedHashes remoteState localState ∨
      remoteState.contentStore.has re.contentHash = true ∨
      ∃ le, localState.fileEntries.get id = some le ∧ le.deleted = false ∧
        le.contentHash = re.contentHash := by
  by_cases hwants : wants remoteState localState re = true
  · refine Or.inl (mem_wantedHashes.2 ⟨re, ?_, hwants, rfl⟩)
    rw [FileEntries.mem_values_iff, FileEntries.get_id hre]
    exact hre
  · refine Or.inr ?_
    have hcases : remoteState.contentStore.has re.contentHash = true ∨
        alreadyOurs localState re = true := by
      simpa [wants, hlive, or_iff_not_imp_left] using hwants
    refine hcases.imp_right fun hours => ?_
    rw [alreadyOurs, FileEntries.get_id hre] at hours
    obtain ⟨le, hle, hsame⟩ := (Option.any_eq_true _ _).1 hours
    rw [Bool.and_eq_true, Bool.not_eq_true', decide_eq_true_eq] at hsame
    exact ⟨le, hle, hsame⟩

end Wanted

section Specification

variable {W : WebCrypto} {C : VaultCrypto} {batchMax concurrency : Nat} {T : Net → Net → Prop}
  {E : Net → Net → Prop} {I : Net → Prop} {Lacks : String → Prop} {Gives : String → Bytes → Prop}
  {remoteState localState : VaultState} {s : Net × Desk}

def Addressed (W : WebCrypto) (store : JsMap String Bytes) : Prop :=
  ∀ hash content, store.get hash = some content → sha256Hex W content = hash

/-- The packs add what has the right hash, drop nothing, and have what they say they served. -/
def ServesPacks (W : WebCrypto) (host : Host) : Prop :=
  ∀ state hashes store served, host.stageLocalContent state hashes = .ok (store, served) →
    (∀ hash, state.contentStore.has hash = true → store.has hash = true) ∧
      (Addressed W state.contentStore → Addressed W store) ∧
        ∀ hash ∈ served, store.has hash = true

/-- Every live remote file has its content staged, or is as ours, or is reported. -/
structure Obtained (W : WebCrypto) (Lacks : String → Prop) (C : VaultCrypto)
    (remoteState localState : VaultState) (r : VaultState × List String) : Prop where
  fileEntries : r.1.fileEntries = remoteState.fileEntries
  addressed : Addressed W r.1.contentStore
  live : ∀ id re, remoteState.fileEntries.get id = some re → re.deleted = false →
    r.1.contentStore.has re.contentHash = true ∨ re.contentHash ∈ r.2 ∨
      ∃ le, localState.fileEntries.get id = some le ∧ le.deleted = false ∧
        le.contentHash = re.contentHash
  missing : ∀ hash ∈ r.2, Lacks (C.blindHash W hash)

/-- With nothing missing, the merge has what it reads of the remote side. -/
theorem Obtained.fetched {r : VaultState × List String}
    (h : Obtained W Lacks C remoteState localState r) (hnone : r.2 = []) :
    Fetched localState r.1 := by
  intro id re hre hlive
  rw [h.fileEntries] at hre
  rcases h.live id re hre hlive with hhas | hmissing | hours
  · exact Or.inl hhas
  · rw [hnone] at hmissing
    cases hmissing
  · exact Or.inr hours

theorem apartBlinded_of_subset {wanted rest : List String} (h : ApartBlinded W C wanted)
    (hsub : rest ⊆ wanted) : ApartBlinded W C rest :=
  fun hash hmem hash' hmem' => h hash (hsub hmem) hash' (hsub hmem')

theorem downloadFails_mono {wanted rest : List String} {e : SyncError} (hsub : rest ⊆ wanted)
    (h : DownloadFails W C Gives rest e) : DownloadFails W C Gives wanted e := by
  cases h with
  | cancelled => exact .cancelled
  | request h => exact .request h
  | forged message hmem hgives hbad => exact .forged message (hsub hmem) hgives hbad

/-- How obtaining the content may fail: as a download does, or by the host. -/
def ObtainFails (W : WebCrypto) (C : VaultCrypto) (Gives : String → Bytes → Prop)
    (wanted : List String) (e : SyncError) : Prop :=
  DownloadFails W C Gives wanted e ∨ ∃ message, e = .other message

theorem obtained_of_wanted {store : JsMap String Bytes} {missing : List String}
    (hkept : ∀ hash, remoteState.contentStore.has hash = true → store.has hash = true)
    (haddr : Addressed W store) (hmissing : ∀ hash ∈ missing, Lacks (C.blindHash W hash))
    (hwanted : ∀ hash ∈ wantedHashes remoteState localState,
      store.has hash = true ∨ hash ∈ missing) :
    Obtained W Lacks C remoteState localState (withContent remoteState store, missing) where
  fileEntries := rfl
  addressed := haddr
  missing := hmissing
  live := by
    intro id re hre hlive
    have hcases : re.contentHash ∈ wantedHashes remoteState localState ∨ _ := wanted_or hre hlive
    rcases hcases with hw | hhas | hours
    · exact (hwanted _ hw).imp_right Or.inl
    · exact Or.inl (hkept _ hhas)
    · exact Or.inr (Or.inr hours)

theorem fetchRemoteBlobs_spec {G : Net × Desk → Net × Desk → Prop}
    (hG : ∀ n n' d, Sending (· = .read) n n' → G (n, d) (n', d))
    (hE : Source E I Lacks Gives) (hT : ∀ s s', T s s' → E s s')
    (happart : ApartBlinded W C (wantedHashes remoteState localState)) (hmax : 0 < batchMax)
    (hpos : 0 < concurrency) (hI : I s.1) (haddr : Addressed W remoteState.contentStore) :
    wp (Around T (ServesPacks W)) G
      (fetchRemoteBlobs W C batchMax concurrency remoteState localState)
      (fun r s' => ends (fun r _ => Obtained W Lacks C remoteState localState r) (fun e _ =>
        ObtainFails W C Gives (wantedHashes remoteState localState) e) r s' ∧ Untouched s s') s := by
  rw [fetchRemoteBlobs]
  dsimp only
  split
  · rename_i hempty
    rw [List.isEmpty_iff] at hempty
    refine ⟨obtained_of_wanted (fun _ h => h) haddr (List.forall_mem_nil _) ?_, rfl, Nat.le_refl _⟩
    rw [hempty]
    exact List.forall_mem_nil _
  · refine wp_ask (hG _ _ _ (sending_refl _)) fun s₁ hs₁ => ⟨fun message => ⟨Or.inr ⟨message, rfl⟩,
      hs₁.untouched⟩, fun staged hstaged => ?_⟩
    obtain ⟨hkept, haddressed, hserved⟩ := hs₁.host remoteState _ staged.1 staged.2 hstaged
    have hstore := haddressed haddr
    have hrest : ∀ hash ∈ wantedHashes remoteState localState, staged.1.has hash = true ∨
        hash ∈ (wantedHashes remoteState localState).filter (· ∉ staged.2) := by
      intro hash hmem
      by_cases hin : hash ∈ staged.2
      · exact Or.inl (hserved hash hin)
      · exact Or.inr (List.mem_filter.2 ⟨hmem, decide_eq_true hin⟩)
    split
    · rename_i hempty
      rw [List.isEmpty_iff] at hempty
      rw [hempty] at hrest
      exact ⟨obtained_of_wanted hkept hstore (List.forall_mem_nil _) hrest, hs₁.untouched⟩
    · have hI₁ := hE.kept _ _ (hT _ _ hs₁.net) hI
      have hdownload := downloadBlobs_spec (R := T) hE hT
        (apartBlinded_of_subset happart (List.filter_subset_self (p := (· ∉ staged.2)) _)) hmax hpos
          (x := (s₁.1, ⟨staged.1, []⟩)) ⟨hI₁, hstore, List.forall_mem_nil _⟩
      have hlocal : wp T (Sending (· = .read)) (withLocal ⟨staged.1, []⟩ (downloadBlobs W C batchMax
          concurrency ((wantedHashes remoteState localState).filter (· ∉ staged.2))))
          (ends (fun r s => Sound W C I Lacks (s, r.2) ∧ Grows ⟨staged.1, []⟩ r.2 ∧ ∀ hash ∈
              (wantedHashes remoteState localState).filter (· ∉ staged.2), Settled hash r.2)
            (fun e _ => DownloadFails W C Gives (wantedHashes remoteState localState) e)) s₁.1 :=
        wp_withLocal (fun _ _ h => h) (fun _ _ h => downloadFails_mono (fun _ hmem => List.mem_of_mem_filter hmem) h) hdownload
      refine wp_bind.2 (wp_mono ?_ (wp_network hG hlocal))
      rintro (e | r) s₂ ⟨hr, hun⟩
      · exact ⟨Or.inl hr, hs₁.untouched.trans hun⟩
      obtain ⟨hsound, hgrows, hsettled⟩ := hr
      refine ⟨obtained_of_wanted (fun hash h => hgrows.staged hash (hkept hash h)) hsound.addressed
        hsound.missing fun hash hmem => ?_, hs₁.untouched.trans hun⟩
      rcases hrest hash hmem with hhas | hin
      · exact Or.inl (hgrows.staged hash hhas)
      · exact hsettled hash hin

/-- From a server that keeps its blobs, with other devices about: every live remote file has its
content staged under its own hash, or the same content as ours, or is reported; what is reported the
server lacked; with nothing reported, none of the remote side's content is missing. -/
theorem fetchRemoteBlobs_obtains {H : Request → Prop}
    (happart : ApartBlinded W C (wantedHashes remoteState localState)) (hmax : 0 < batchMax)
    (hpos : 0 < concurrency) (hlink : Truthful s.1)
    (haddr : Addressed W remoteState.contentStore) :
    wp (Around (fun s s' => Traffic H s s' ∧ (Truthful s → Truthful s')) (ServesPacks W))
      (Acts (· = .read)) (fetchRemoteBlobs W C batchMax concurrency remoteState localState)
      (ends (fun r _ =>
        Obtained W (fun hash => s.1.server.blobs.get hash = none) C remoteState localState r ∧
          (r.2 = [] → Fetched localState r.1)) (fun _ _ => True)) s := by
  refine wp_mono ?_ (fetchRemoteBlobs_spec (fun _ _ _ h => h) (source_keeping s.1 (fun _ => True) (fun _ _ => True)
    (fun _ _ => trivial) (fun _ _ _ _ _ => trivial))
    (fun _ _ h => ⟨kept_of_traffic h.1, h.2, id⟩) happart hmax hpos
    ⟨kept_refl _, hlink, trivial⟩ haddr)
  rintro (e | r) s' ⟨hr, -⟩
  · trivial
  · exact ⟨hr, hr.fetched⟩

/-- A peer's two files, one of them new to us. -/
def theirFiles : VaultState :=
  stateOf [fileAt "f" "n.md" (sha256Hex plainCrypto [65]) 1,
    fileAt "g" "m.md" (sha256Hex plainCrypto [66]) 1] []

def ourFile : VaultState := stateOf [fileAt "f" "n.md" (sha256Hex plainCrypto [65]) 1] []

theorem apartBlinded_theirFiles :
    ApartBlinded plainCrypto plainVault (wantedHashes theirFiles ourFile) := by
  rw [ApartBlinded]
  decide +kernel

theorem fetchRemoteBlobs_obtains_theirFiles :
    wp (Around (fun s s' => Traffic (fun _ => True) s s' ∧ (Truthful s → Truthful s'))
        (ServesPacks plainCrypto)) (Acts (· = .read))
      (fetchRemoteBlobs plainCrypto plainVault 256 8 theirFiles ourFile)
      (ends (fun r _ => Obtained plainCrypto (fun hash => twoOpsServer.blobs.get hash = none)
          plainVault theirFiles ourFile r ∧ (r.2 = [] → Fetched ourFile r.1))
        (fun _ _ => True)) (.quiet twoOpsServer, idleDesk) :=
  fetchRemoteBlobs_obtains apartBlinded_theirFiles (by decide) (by decide) (truthful_quiet _)
    (by rintro hash content ⟨⟩)

end Specification

end OpsBlobs.RemoteBlobs
