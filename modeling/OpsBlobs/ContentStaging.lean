import OpsBlobs.CarefulRun
import OpsBlobs.FailingCalls
import OpsBlobs.SyncApplicator
import OpsBlobs.WorldEffects

namespace OpsBlobs.ContentStaging

open Types Operations FileRegistry Coroutine World GhostCode WriteEffects WorldEffects

/-- The vault state of a round. `fallbacks` is a history variable: the bytes that the disk was
read for when the content store did not have a hash. -/
structure Staged where
  state : VaultState
  fallbacks : List (String × Bytes)

namespace Staged

def setEntry (g : Staged) (entry : FileEntry) : Staged :=
  { g with state := { g.state with fileEntries := g.state.fileEntries.set entry } }

def place (g : Staged) (hash : String) (bytes : Bytes) : Staged :=
  { g with state := { g.state with contentStore := g.state.contentStore.set hash bytes } }

def remember (g : Staged) (hash : String) (bytes : Option Bytes) : Staged :=
  { g with fallbacks := g.fallbacks ++ (bytes.map (hash, ·)).toList }

def has (g : Staged) (hash : String) : Bool := g.state.contentStore.has hash

def bytesOf (g : Staged) (hash : String) : Option Bytes := g.state.contentStore.get hash

end Staged

abbrev Staging := Coroutine (World × Staged) String

section Staging

variable (D : Device) (getStored : String → Async (Option Bytes))

def setEntry (entry : FileEntry) : Staging Unit := modify fun s => (s.1, s.2.setEntry entry)

def place (hash : String) (bytes : Bytes) : Staging Unit :=
  modify fun s => (s.1, s.2.place hash bytes)

/-- The stat gate: the entry was hashed when the file last changed. -/
def unchanged (entry : FileEntry) (ref : Option VaultFileRef) : Bool :=
  match ref with
  | none => false
  | some ref => entry.head.isSome && entry.contentHash ≠ "" &&
      entry.mtime = some ref.mtime && entry.size = some ref.size

/-- A drifted file is read, and its snapshot corrected to what is on disk. -/
def identify (refs : JsMap Path VaultFileRef) (entry : FileEntry) : Staging Unit := do
  if entry.deleted || unchanged entry (refs.get entry.path) then setEntry entry
  else
    match ← lift (Files.read entry.path) with
    | none => do
        let entry ← lift (OperationLogger.current entry)
        setEntry entry
    | some content => do
        let hash ← lift (hashContent D content)
        let entry ← lift (OperationLogger.current entry)
        place hash content
        setEntry (if hash ≠ entry.contentHash then { entry with contentHash := hash } else entry)

/-- The registry is gone through in place, with what is added meanwhile; after `turns` entries a
run is not followed any further. -/
def identifyAll (refs : JsMap Path VaultFileRef) : Nat → List String → Staging Unit
  | 0, _ => pure ()
  | turns + 1, seen => do
      let s ← get
      match s.1.registry.entries.values.find? (·.id ∉ seen) with
      | none => pure ()
      | some entry => do
          identify D refs entry
          identifyAll refs turns (entry.id :: seen)

def buildLocalIdentity (turns : Nat) : Staging Unit := do
  let s ← get
  let refs := JsMap.ofList ((Files.listOf s.1.disk).map fun ref => (ref.path, ref))
  modify fun s => (s.1, ⟨⟨s.1.hlc.deviceId, s.1.hlc, FileEntries.empty, [], JsMap.empty⟩, []⟩)
  identifyAll D refs turns []
  modify fun s => (s.1, { s.2 with state := { s.2.state with
    hlc := s.1.hlc
    pendingOps := dedupeOpsById s.1.log.pendingOps } })

/-- The paths of the live entries' current contents; of two with one hash the later counts. -/
def pathByHash (state : VaultState) : JsMap String Path :=
  state.fileEntries.values.foldl (fun paths entry =>
    if !entry.deleted && entry.contentHash ≠ "" then paths.set entry.contentHash entry.path
    else paths) JsMap.empty

/-- The file that stands at the path when it is read, whatever it holds by then. -/
def readFallback (hash : String) (path : Path) : Staging (Option Bytes) := do
  pause
  let bytes ← modifyGet fun s => (s.1.bytesAt path, s.1, s.2.remember hash (s.1.bytesAt path))
  pause
  pure bytes

def stageHash (paths : JsMap String Path) (hash : String) : Staging Unit := do
  let s ← get
  if hash = "" || s.2.has hash then pure ()
  else
    match ← lift (getStored hash) with
    | some bytes => place hash bytes
    | none =>
        match paths.get hash with
        | none => pure ()
        | some path =>
            match ← readFallback hash path with
            | some bytes => place hash bytes
            | none => pure ()

def stageContent (hashes : List String) : Staging Unit := do
  let s ← get
  forEach (stageHash getStored (pathByHash s.2.state)) hashes

def stageLocalHash (served : List String) (hash : String) : Staging (List String) := do
  let s ← get
  if hash = "" then pure served
  else if s.2.has hash then pure (SyncApplicator.addOnce served hash)
  else
    match ← lift (getStored hash) with
    | some bytes => do
        place hash bytes
        pure (SyncApplicator.addOnce served hash)
    | none => pure served

/-- The hashes that the store has, each staged; there is no fallback to the disk. -/
def stageLocalContent (hashes : List String) : Staging (List String) :=
  foldM (stageLocalHash getStored) [] hashes

inductive Call
  | buildLocalIdentity (turns : Nat)
  | stageContent (hashes : List String)
  | stageLocalContent (hashes : List String)

def Call.body : Call → Staging Unit
  | buildLocalIdentity turns => ContentStaging.buildLocalIdentity D turns
  | stageContent hashes => ContentStaging.stageContent getStored hashes
  | stageLocalContent hashes => do
      let _ ← ContentStaging.stageLocalContent getStored hashes
      pure ()

/-- The calls of a round, one after the other. -/
def stage (calls : List Call) : Staging Unit := forEach (Call.body D getStored) calls

end Staging

section Addressed

variable {D : Device} {getStored : String → Async (Option Bytes)} {s s' : World × Staged}
  {hash : String} {bytes : Bytes} {α : Type} {P : α → Prop}

def Addressed (D : Device) (g : Staged) : Prop :=
  ∀ hash bytes, g.bytesOf hash = some bytes → D.sha256Hex bytes = hash

/-- Every file that the disk was read for had the hash that was looked for. -/
def Unedited (D : Device) (g : Staged) : Prop := ∀ f ∈ g.fallbacks, D.sha256Hex f.2 = f.1

/-- What the store has, it has from the disk fallback or with the right hash. -/
def Supported (D : Device) (g : Staged) : Prop :=
  ∀ hash bytes, g.bytesOf hash = some bytes → D.sha256Hex bytes = hash ∨ (hash, bytes) ∈ g.fallbacks

/-- What the fallback read has been placed. -/
def Settled (g : Staged) : Prop := ∀ f ∈ g.fallbacks, g.bytesOf f.1 = some f.2

/-- The user and the rest of the plugin: they may do anything to the device, and to the entries,
which the registry shares; into the round's content they only put what has the right hash. -/
structure Others (D : Device) (s s' : World × Staged) : Prop where
  fallbacks : s'.2.fallbacks = s.2.fallbacks
  kept : ∀ hash bytes, s.2.bytesOf hash = some bytes → s'.2.bytesOf hash = some bytes
  added : ∀ hash bytes, s'.2.bytesOf hash = some bytes →
    s.2.bytesOf hash = some bytes ∨ D.sha256Hex bytes = hash

def Keeps (D : Device) (s s' : World × Staged) : Prop := Supported D s.2 → Supported D s'.2

/-- Code of the device beside a condition that only the round's state bears on. -/
theorem wp_lifted {J : Staged → Prop} {t : Async α}
    (hJ : ∀ s s', Others D s s' → J s.2 → J s'.2) (h : Does (fun _ _ => True) t P) (hs : J s.2) :
    wp (Others D) (Keeps D) (lift t) (fun r s => J s.2 ∧ ∀ a, r = .ok a → P a) s := by
  have ht := h s.1
  clear h
  induction t generalizing s with
  | ret a => exact ⟨hs, ht⟩
  | fail e => exact ⟨hs, ht⟩
  | read k ih => exact ih s.1 hs ht
  | write w next ih => exact ⟨id, ih (s := (w, s.2)) hs ht.2⟩
  | await ready next ih =>
      exact fun s' hs' hr => ih (hJ s s' hs' hs) (ht s'.1 trivial hr)

/-- The bytes of a fallback read, which the store does not have yet. -/
def Pending (hash : String) (bytes : Bytes) (g : Staged) : Prop :=
  (hash, bytes) ∈ g.fallbacks ∧ ∀ f ∈ g.fallbacks, f = (hash, bytes) ∨
    f.1 ≠ hash ∧ g.bytesOf f.1 = some f.2

/-- No fallback was read for the hash yet. -/
def Untried (hash : String) (g : Staged) : Prop := Settled g ∧ ∀ f ∈ g.fallbacks, f.1 ≠ hash

variable {g : Staged}

theorem bytesOf_place (g : Staged) (hash hash' : String) (bytes : Bytes) :
    (g.place hash bytes).bytesOf hash' = if hash = hash' then some bytes else g.bytesOf hash' :=
  JsMap.get_set _ _ _ _

theorem supported_place (h : Supported D g)
    (hbytes : D.sha256Hex bytes = hash ∨ (hash, bytes) ∈ g.fallbacks) :
    Supported D (g.place hash bytes) := by
  intro hash' bytes' hget
  rw [bytesOf_place] at hget
  split at hget
  · rename_i heq
    obtain rfl := heq
    obtain rfl := Option.some.inj hget
    exact hbytes
  · exact h hash' bytes' hget

theorem supported_remember (h : Supported D g) (hash : String) (bytes : Option Bytes) :
    Supported D (g.remember hash bytes) := fun hash' bytes' hget =>
  (h hash' bytes' hget).imp_right (List.mem_append_left _)

theorem settled_place_untried (h : Untried hash g) : Settled (g.place hash bytes) := by
  intro f hf
  rw [bytesOf_place, if_neg (h.2 f hf).symm]
  exact h.1 f hf

theorem settled_place_pending (h : Pending hash bytes g) : Settled (g.place hash bytes) := by
  intro f hf
  rw [bytesOf_place]
  rcases h.2 f hf with rfl | ⟨hne, hget⟩
  · exact if_pos rfl
  · rw [if_neg hne.symm]
    exact hget

theorem pending_remember (h : Untried hash g) :
    Pending hash bytes (g.remember hash (some bytes)) := by
  refine ⟨List.mem_append_right _ List.mem_cons_self, fun f hf => ?_⟩
  rcases List.mem_append.1 hf with hf | hf
  · exact Or.inr ⟨h.2 f hf, h.1 f hf⟩
  · exact Or.inl (List.mem_singleton.1 hf)

theorem remember_none (g : Staged) (hash : String) : g.remember hash none = g := by
  simp [Staged.remember]

theorem untried_of_has (h : Settled g) (hnot : ¬ g.has hash = true) : Untried hash g := by
  refine ⟨h, fun f hf hhash => hnot ?_⟩
  exact (JsMap.has_iff _ _).2 ⟨f.2, hhash ▸ h f hf⟩

/-- What a fallback read leaves. -/
def Fetched (hash : String) : Option Bytes → Staged → Prop
  | some bytes, g => Pending hash bytes g
  | none, g => Settled g

theorem fetched_remember (h : Untried hash g) (bytes : Option Bytes) :
    Fetched hash bytes (g.remember hash bytes) := by
  cases bytes with
  | none =>
      rw [remember_none]
      exact h.1
  | some bytes => exact pending_remember h

theorem settled_others (s s' : World × Staged) (h : Others D s s') (hs : Settled s.2) :
    Settled s'.2 := fun f hf => h.kept _ _ (hs f (h.fallbacks ▸ hf))

theorem untried_others (s s' : World × Staged) (h : Others D s s') (hs : Untried hash s.2) :
    Untried hash s'.2 := ⟨settled_others s s' h hs.1, fun f hf => hs.2 f (h.fallbacks ▸ hf)⟩

theorem pending_others (s s' : World × Staged) (h : Others D s s') (hs : Pending hash bytes s.2) :
    Pending hash bytes s'.2 :=
  ⟨h.fallbacks ▸ hs.1, fun f hf =>
    (hs.2 f (h.fallbacks ▸ hf)).imp_right (And.imp_right (h.kept _ _))⟩

theorem fetched_others {bytes : Option Bytes} (s s' : World × Staged) (h : Others D s s')
    (hs : Fetched hash bytes s.2) : Fetched hash bytes s'.2 := by
  cases bytes with
  | none => exact settled_others s s' h hs
  | some bytes => exact pending_others s s' h hs

theorem supported_others (s s' : World × Staged) (h : Others D s s') (hs : Supported D s.2) :
    Supported D s'.2 := by
  intro hash bytes hget
  rcases h.added hash bytes hget with hget | hbytes
  · exact h.fallbacks ▸ hs hash bytes hget
  · exact Or.inl hbytes

end Addressed

section Stages

variable {D : Device} {getStored : String → Async (Option Bytes)} {s : World × Staged}
  {hash : String} {bytes : Bytes}

theorem wp_look {α : Type} {k : World × Staged → Staging α}
    {Q : Except String α → World × Staged → Prop} :
    wp (Others D) (Keeps D) (get >>= k) Q s ↔ wp (Others D) (Keeps D) (k s) Q s := Iff.rfl

theorem wp_change {α : Type} {f : World × Staged → World × Staged} {k : Unit → Staging α}
    {Q : Except String α → World × Staged → Prop} :
    wp (Others D) (Keeps D) (modify f >>= k) Q s ↔
      Keeps D s (f s) ∧ wp (Others D) (Keeps D) (k ()) Q (f s) := Iff.rfl

/-- A condition that also stands at an error. -/
theorem wp_seq {α β : Type} {P : α → Prop} {I J : World × Staged → Prop} {t : Staging α}
    {k : α → Staging β}
    (h : wp (Others D) (Keeps D) t (fun r s => J s ∧ ∀ a, r = .ok a → P a) s)
    (herr : ∀ s, J s → I s)
    (hk : ∀ a s, J s → P a → wp (Others D) (Keeps D) (k a) (fun _ s => I s) s) :
    wp (Others D) (Keeps D) (t >>= k) (fun _ s => I s) s := by
  refine wp_bind.2 (wp_mono ?_ h)
  rintro (e | a) s' ⟨hJ, hP⟩
  · exact herr s' hJ
  · exact hk a s' hJ (hP a rfl)

theorem wp_each {α : Type} {I : World × Staged → Prop} {f : α → Staging Unit} (l : List α)
    (hI : I s) (hf : ∀ a s, I s → wp (Others D) (Keeps D) (f a) (fun _ s => I s) s) :
    wp (Others D) (Keeps D) (forEach f l) (fun _ s => I s) s := by
  refine wp_forEach hI (fun a _ s₁ hs₁ => wp_mono ?_ (hf a s₁ hs₁)) fun _ hs₁ => hs₁
  rintro (e | u) s₂ hs₂
  · exact hs₂
  · exact hs₂

theorem wp_place (hsettled : Settled (s.2.place hash bytes))
    (hbytes : Supported D s.2 → D.sha256Hex bytes = hash ∨ (hash, bytes) ∈ s.2.fallbacks) :
    wp (Others D) (Keeps D) (place hash bytes) (fun _ s => Settled s.2) s :=
  ⟨fun hs => supported_place hs (hbytes hs), hsettled⟩

/-- A fallback read ends with its bytes in the history and not yet in the store. -/
theorem wp_readFallback (path : Path) (hs : Untried hash s.2) :
    wp (Others D) (Keeps D) (readFallback hash path)
      (fun r s => ∃ bytes, r = .ok bytes ∧ Fetched hash bytes s.2) s := by
  intro s₁ hs₁ _
  have huntried := untried_others s s₁ hs₁ hs
  refine ⟨fun hsup => supported_remember hsup hash _, fun s₂ hs₂ _ => ⟨_, rfl, ?_⟩⟩
  exact fetched_others _ _ hs₂ (fetched_remember huntried (s₁.1.bytesAt path))

variable (hget : ∀ hash, Does (fun _ _ => True) (getStored hash) fun r =>
  ∀ bytes, r = some bytes → D.sha256Hex bytes = hash)

include hget in
theorem wp_stageHash (paths : JsMap String Path) (hash : String) (hs : Settled s.2) :
    wp (Others D) (Keeps D) (stageHash getStored paths hash) (fun _ s => Settled s.2) s := by
  refine wp_look.2 ?_
  split
  · exact hs
  · rename_i hmissing
    simp only [Bool.or_eq_true, decide_eq_true_eq, not_or] at hmissing
    have huntried := untried_of_has hs hmissing.2
    refine wp_seq (J := fun s => Untried hash s.2) (wp_lifted untried_others (hget hash) huntried)
      (fun _ h => h.1) fun stored s₁ hs₁ hstored => ?_
    cases stored with
    | some bytes =>
        exact wp_place (settled_place_untried hs₁) fun _ => Or.inl (hstored bytes rfl)
    | none =>
        dsimp only
        split
        · exact hs₁.1
        · rename_i path _
          refine wp_bind.2 (wp_mono ?_ (wp_readFallback path hs₁))
          rintro _ s₂ ⟨fetched, rfl, hs₂⟩
          cases fetched with
          | none => exact hs₂
          | some bytes => exact wp_place (settled_place_pending hs₂) fun _ => Or.inr hs₂.1

include hget in
theorem wp_stageContent (hashes : List String) (hs : Settled s.2) :
    wp (Others D) (Keeps D) (stageContent getStored hashes) (fun _ s => Settled s.2) s := by
  exact wp_look.2 (wp_each hashes hs fun hash s₁ hs₁ => wp_stageHash hget _ hash hs₁)

include hget in
theorem wp_stageLocalHash (served : List String) (hash : String) (hs : Settled s.2) :
    wp (Others D) (Keeps D) (stageLocalHash getStored served hash) (fun _ s => Settled s.2) s := by
  refine wp_look.2 ?_
  split
  · exact hs
  · split
    · exact hs
    · rename_i hmissing
      have huntried := untried_of_has hs hmissing
      refine wp_seq (J := fun s => Untried hash s.2) (wp_lifted untried_others (hget hash) huntried)
        (fun _ h => h.1) fun stored s₁ hs₁ hstored => ?_
      cases stored with
      | none => exact hs₁.1
      | some bytes => exact wp_place (settled_place_untried hs₁) fun _ => Or.inl (hstored bytes rfl)

include hget in
theorem wp_stageLocalContent (hashes : List String) (hs : Settled s.2) :
    wp (Others D) (Keeps D) (stageLocalContent getStored hashes) (fun _ s => Settled s.2) s := by
  refine wp_foldM (I := fun _ s => Settled s.2) hs (fun hash _ served s₁ hs₁ => ?_) fun _ _ h => h
  refine wp_mono ?_ (wp_stageLocalHash hget served hash hs₁)
  rintro (e | served) s₂ hs₂
  · exact hs₂
  · exact hs₂

/-- No fallback has been read. -/
def Unread (g : Staged) : Prop := g.fallbacks = []

theorem unread_others (s s' : World × Staged) (h : Others D s s') (hs : Unread s.2) :
    Unread s'.2 := h.fallbacks.trans hs

theorem settled_of_unread {g : Staged} (h : Unread g) : Settled g := fun f hf => by
  rw [h] at hf
  cases hf

theorem wp_setEntry (entry : FileEntry) (hs : Unread s.2) :
    wp (Others D) (Keeps D) (setEntry entry) (fun _ s => Unread s.2) s := ⟨id, hs⟩

/-- What drifted is placed under the hash of the bytes that were read. -/
theorem wp_identify (refs : JsMap Path VaultFileRef) (entry : FileEntry) (hs : Unread s.2) :
    wp (Others D) (Keeps D) (identify D refs entry) (fun _ s => Unread s.2) s := by
  rw [identify]
  split
  · exact wp_setEntry entry hs
  · refine wp_seq (J := fun s => Unread s.2) (wp_lifted unread_others (does_read entry.path) hs)
      (fun _ h => h) fun content s₁ hs₁ _ => ?_
    cases content with
    | none =>
        refine wp_seq (J := fun s => Unread s.2) (wp_lifted unread_others (does_current entry) hs₁)
          (fun _ h => h) fun entry s₂ hs₂ _ => ?_
        exact wp_setEntry entry hs₂
    | some content =>
        have hhash : Does (fun _ _ => True) (hashContent D content) (· = D.sha256Hex content) :=
          does_then does_pause fun _ => does_pure rfl
        refine wp_seq (J := fun s => Unread s.2) (wp_lifted unread_others hhash hs₁)
          (fun _ h => h) fun hash s₂ hs₂ heq => ?_
        subst heq
        refine wp_seq (J := fun s => Unread s.2) (wp_lifted unread_others (does_current entry) hs₂)
          (fun _ h => h) fun entry s₃ hs₃ _ => ?_
        exact ⟨fun hsup => supported_place hsup (Or.inl rfl), id, hs₃⟩

theorem wp_identifyAll (refs : JsMap Path VaultFileRef) (turns : Nat) (seen : List String)
    (hs : Unread s.2) :
    wp (Others D) (Keeps D) (identifyAll D refs turns seen) (fun _ s => Unread s.2) s := by
  induction turns generalizing seen s with
  | zero => exact hs
  | succ turns ih =>
      refine wp_look.2 ?_
      split
      · exact hs
      · rename_i entry _
        exact wp_seq (J := fun s => Unread s.2) (wp_mono (fun _ _ h => ⟨h, fun _ _ => trivial⟩)
          (wp_identify refs entry hs)) (fun _ h => h) fun _ s₁ hs₁ _ => ih _ hs₁

theorem wp_buildLocalIdentity (turns : Nat) :
    wp (Others D) (Keeps D) (buildLocalIdentity D turns) (fun _ s => Settled s.2) s := by
  have hnew : Supported D ⟨⟨s.1.hlc.deviceId, s.1.hlc, FileEntries.empty, [], JsMap.empty⟩, []⟩ :=
    fun _ _ => nofun
  refine wp_look.2 (wp_change.2 ⟨fun _ => hnew, ?_⟩)
  refine wp_seq (J := fun s => Unread s.2) (wp_mono (fun _ _ h => ⟨h, fun _ _ => trivial⟩)
    (wp_identifyAll _ turns [] (by rfl))) (fun _ h => settled_of_unread h) fun _ s₁ hs₁ _ => ?_
  exact ⟨id, settled_of_unread hs₁⟩

include hget in
theorem wp_stage (calls : List Call) (hs : Settled s.2) :
    wp (Others D) (Keeps D) (stage D getStored calls) (fun _ s => Settled s.2) s := by
  have hbody : ∀ (call : Call) (s : World × Staged), Settled s.2 →
      wp (Others D) (Keeps D) (call.body D getStored) (fun _ s => Settled s.2) s := by
    intro call s hs
    cases call with
    | buildLocalIdentity turns => exact wp_buildLocalIdentity turns
    | stageContent hashes => exact wp_stageContent hget hashes hs
    | stageLocalContent hashes =>
        exact wp_seq (J := fun s => Settled s.2) (wp_mono (fun _ _ h => ⟨h, fun _ _ => trivial⟩)
          (wp_stageLocalContent hget hashes hs)) (fun _ h => h) fun _ s₁ hs₁ _ => hs₁
  exact wp_each calls hs hbody

end Stages

section Rounds

open Interleaving CarefulRun

variable {D : Device} {getStored : String → Async (Option Bytes)}

/-- A call that has come back, or thrown. -/
def Ended {σ ε : Type} : Coroutine σ ε Unit → Prop
  | .ret _ | .fail _ => True
  | _ => False

/-- A vault state that has no content yet, before the calls. -/
def start (w : World) (state : VaultState) : World × Staged :=
  (w, ⟨{ state with contentStore := JsMap.empty }, []⟩)

theorem others_refl (s : World × Staged) : Others D s s :=
  ⟨rfl, fun _ _ h => h, fun _ _ h => Or.inl h⟩

theorem others_trans {s₁ s₂ s₃ : World × Staged} (h : Others D s₁ s₂) (h' : Others D s₂ s₃) :
    Others D s₁ s₃ where
  fallbacks := h'.fallbacks.trans h.fallbacks
  kept hash bytes hget := h'.kept hash bytes (h.kept hash bytes hget)
  added hash bytes hget := (h'.added hash bytes hget).elim (h.added hash bytes) Or.inr

/-- The calls of a round beside everything else that happens meanwhile. -/
def protocol (D : Device) : Protocol (World × Staged) String where
  mainRely := Others D
  mainGuarantee := Keeps D
  mainPost := fun _ s => Settled s.2
  handlerRely := fun _ _ => True
  handlerGuarantee := fun _ _ => False

def nothingStarted (_ : World × Staged) (_ : Staging Unit) : Prop := False

theorem protocol_compatible : (protocol D).Compatible (Others D) nothingStarted where
  mainRefl := others_refl
  mainTrans _ _ _ := others_trans
  handlerRefl _ := trivial
  handlerTrans _ _ _ _ _ := trivial
  mainEnv _ _ h := h
  mainHandler _ _ h := h.elim
  handlerEnv _ _ _ := trivial
  handlerHandler _ _ _ := trivial
  handlerMain _ _ _ := trivial
  spawned _ _ h := h.elim

theorem settled_of_ended {p : Pool (World × Staged) String} (h : (protocol D).Holds p)
    (hend : Ended p.main) : Settled p.state.2 := by
  obtain ⟨s, main, handlers, turn⟩ := p
  by_cases hturn : turn = .main
  · have hmain := h.mainRuns hturn
    cases main with
    | ret a => exact hmain
    | fail e => exact hmain
    | read | write | await => exact hend.elim
  · have hmain := h.mainParked hturn
    cases main with
    | ret a =>
        obtain ⟨s₀, hs₀, hothers⟩ := hmain
        exact settled_others s₀ s hothers hs₀
    | fail e =>
        obtain ⟨s₀, hs₀, hothers⟩ := hmain
        exact settled_others s₀ s hothers hs₀
    | read | write | await => exact hend.elim

/-- In every run the content that was staged has the right hashes if the files that the fallbacks
read still had them; and once the calls have come back, only then. -/
theorem staged_addressed_iff (D : Device) (getStored : String → Async (Option Bytes))
    (hget : ∀ hash, Does (fun _ _ => True) (getStored hash) fun r =>
      ∀ bytes, r = some bytes → D.sha256Hex bytes = hash)
    (calls : List Call) (w : World) (state : VaultState) (p : Pool (World × Staged) String)
    (hr : Runs (Others D) nothingStarted ⟨start w state, stage D getStored calls, [], .main⟩ p) :
    (Unedited D p.state.2 → Addressed D p.state.2) ∧
      (Ended p.main → (Addressed D p.state.2 ↔ Unedited D p.state.2)) := by
  have hstart : (protocol D).Holds ⟨start w state, stage D getStored calls, [], .main⟩ :=
    ⟨fun _ => wp_stage hget calls (settled_of_unread rfl), fun h => absurd rfl h, nofun, nofun⟩
  have hsupported : Supported D p.state.2 :=
    Protocol.invariant_of_runs protocol_compatible supported_others (fun _ _ h => h)
      (fun _ _ h => h.elim) hstart hr fun _ _ => nofun
  have haddressed : Unedited D p.state.2 → Addressed D p.state.2 := fun h hash bytes hhas =>
    (hsupported hash bytes hhas).elim id (h (hash, bytes))
  have hholds := Protocol.holds_of_runs protocol_compatible hstart hr
  refine ⟨haddressed, fun hend => ⟨fun h f hf => ?_, haddressed⟩⟩
  exact h f.1 f.2 (settled_of_ended hholds hend f hf)

/-- `ContentStore.get`: bytes that do not hash back count as missing. -/
def verified (D : Device) (hash : String) : Async (Option Bytes) := do
  pause
  let w ← get
  pure ((w.contentStore.get hash).filter (D.sha256Hex · = hash))

theorem does_verified (D : Device) (hash : String) :
    Does (fun _ _ => True) (verified D hash) fun r =>
      ∀ bytes, r = some bytes → D.sha256Hex bytes = hash := by
  refine does_then does_pause fun _ => does_then does_get fun w => does_pure fun bytes h => ?_
  exact of_decide_eq_true (Option.filter_eq_some_iff.1 h).2

instance {σ ε : Type} (t : Coroutine σ ε Unit) : Decidable (Ended t) := by
  unfold Ended
  split <;> infer_instance

def syncedEntry : FileEntry :=
  ⟨"f", "n.md", "h", ⟨1, 0, "a"⟩, false, some "n.md", some "v", none, some 0, some 1⟩

/-- A note in sync, whose blob the store has lost. -/
def syncedNote : World :=
  atRest [("n.md", [104])] (FileRegistry.empty.insert syncedEntry (by decide))

def emptyState : VaultState := ⟨"a", ⟨0, 0, "a"⟩, FileEntries.empty, [], JsMap.empty⟩

def noteCalls : List Call := [.buildLocalIdentity 5, .stageContent ["h"]]

def noteStage : Staging Unit := stage asciiDevice (verified asciiDevice) noteCalls

/-- The user saves other content while the store is asked for the old. -/
def saved (s : World × Staged) : World × Staged :=
  ({ s.1 with disk := s.1.disk.set "n.md" ⟨[105], 1⟩ }, s.2)

theorem others_saved (s : World × Staged) : Others D s (saved s) :=
  ⟨rfl, fun _ _ h => h, fun _ _ h => Or.inl h⟩

theorem edited_run : ∃ p : Pool (World × Staged) String,
    Runs (Others asciiDevice) nothingStarted ⟨start syncedNote emptyState, noteStage, [], .main⟩ p ∧
      Ended p.main ∧ p.state.2.bytesOf "h" = some [105] := by
  have hstaged : (schedule [.main, .main, .main]
      ⟨saved (takeTurn noteStage (start syncedNote emptyState)).2,
        (takeTurn noteStage (start syncedNote emptyState)).1, []⟩).map
      (fun r => (decide (Ended r.main), r.state.2.bytesOf "h")) = some (true, some [105]) := by
    decide +kernel
  obtain ⟨r, hr, heq⟩ := Option.map_eq_some_iff.1 hstaged
  obtain ⟨hend, hbytes⟩ := Prod.mk.inj heq
  refine ⟨r.pool, ?_, of_decide_eq_true hend, hbytes⟩
  refine (runs_mainTurn noteStage (start syncedNote emptyState) []).trans ?_
  exact .head (.env (others_saved _)) (runs_of_schedule hr)

theorem staged_after_save : ∃ p : Pool (World × Staged) String,
    Ended p.main ∧ (Addressed asciiDevice p.state.2 ↔ Unedited asciiDevice p.state.2) := by
  obtain ⟨p, hr, hend, -⟩ := edited_run
  exact ⟨p, hend, (staged_addressed_iff asciiDevice (verified asciiDevice)
    (does_verified asciiDevice) noteCalls syncedNote emptyState p hr).2 hend⟩

/-- The new bytes are staged under the old hash. -/
theorem staged_unaddressed : ¬ ∀ (D : Device) (getStored : String → Async (Option Bytes)),
    (∀ hash, Does (fun _ _ => True) (getStored hash) fun r =>
      ∀ bytes, r = some bytes → D.sha256Hex bytes = hash) →
    ∀ (calls : List Call) (w : World) (state : VaultState) (p : Pool (World × Staged) String),
      Runs (Others D) nothingStarted ⟨start w state, stage D getStored calls, [], .main⟩ p →
        Addressed D p.state.2 := by
  intro h
  obtain ⟨p, hr, -, hbytes⟩ := edited_run
  have haddressed := h asciiDevice (verified asciiDevice) (does_verified asciiDevice) noteCalls
    syncedNote emptyState p hr
  exact absurd (haddressed "h" [105] hbytes) (by decide)

end Rounds

end OpsBlobs.ContentStaging
