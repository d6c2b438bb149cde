import OpsBlobs.AncestorWalk
import OpsBlobs.EventRun
import OpsBlobs.OperationLogger
import OpsBlobs.PackPasses

namespace OpsBlobs.PendingContent

open Types FileRegistry VersionDag VersionGraph VersionSweep AncestorWalk PackedContent
  ContentIntegrity PackMaintenance PackPasses EventRun

/-- What the plugin asks of the content store; an edit's `put` writes a single blob. -/
inductive StoreCall
  | putAll (contents : List Bytes)
  | get (hash : String)
  | clearMemCache
  | init
  | gc (keepHashes : List String) (aged : Nat → Bool)
  | consolidatePacks (keepHashes : List String) (smallPackThreshold flushEvery : Nat)

/-- The plugin's locks and what its maintenance works on. -/
structure Plugin where
  syncInProgress : Bool
  startupCaptureInProgress : Bool
  gcInProgress : Bool
  registry : FileRegistry
  pendingOps : List Operation
  versionDag : VersionDag
  contentStore : ContentStore

variable (P : Platform) (B : Nat)

def call (s : ContentStore) : StoreCall → Option ContentStore
  | .putAll contents =>
      some (ContentStore.flushPack B (contents.foldl
        (fun s content => ContentStore.putBuffered B s (P.sha256Hex content) content) s))
  | .get hash => (ContentStore.get P B s hash).map fun read => { s with memCache := read.2 }
  | .clearMemCache => some (ContentStore.clearMemCache s)
  | .init => some (ContentStore.init s)
  | .gc keepHashes aged => ContentStore.gc P B keepHashes aged s
  | .consolidatePacks keepHashes smallPackThreshold flushEvery =>
      (ContentStore.consolidatePacks P B keepHashes smallPackThreshold flushEvery s).map Prod.snd

/-- A store that some calls led to. -/
def Reached (s : ContentStore) : Prop := ∃ calls, run (call P B) .empty calls = some s

/-- The persisted graph, swept down to what the registry and the pending ops name. -/
def sweepVersionDag (p : Plugin) : VersionDag :=
  (sweepToRoots p.versionDag (sweepRoots p.registry p.pendingOps)).1

/-- The hashes that a pass keeps. -/
def keepSet (p : Plugin) : List String :=
  referencedHashes p.registry (some (sweepVersionDag p)) (storedOnly p.contentStore.hasStored)

/-- None where the source throws; the number is that of the blobs removed. -/
def runContentGc (stat : Nat → Option Int) (ancestorRetentionDays now : Int) (p : Plugin) :
    Option (Int × Plugin) :=
  if p.gcInProgress then some (0, p)
  else
    let aged := ContentStore.packAged stat (ancestorRetentionDays * 86400000) now
    (ContentStore.gc P B (keepSet p) aged p.contentStore).map fun s =>
      (p.contentStore.listHashes.length - s.listHashes.length,
        { p with versionDag := sweepVersionDag p, contentStore := s })

def SMALL_PACK_THRESHOLD : Nat := 64

def CONSOLIDATE_FLUSH_EVERY : Nat := 64

def optimizeContentIndex (p : Plugin) : Option (Option ContentStore.Consolidation × Plugin) :=
  if p.syncInProgress ∨ p.startupCaptureInProgress ∨ p.gcInProgress then some (none, p)
  else
    (ContentStore.consolidatePacks P B (keepSet p) SMALL_PACK_THRESHOLD CONSOLIDATE_FLUSH_EVERY
      p.contentStore).map fun r =>
        (some r.1, { p with versionDag := sweepVersionDag p, contentStore := r.2 })

/-- A read of the content store answers with these bytes. -/
def Readable (s : ContentStore) (hash : String) (bytes : Bytes) : Prop :=
  (ContentStore.get P B s hash).map Prod.fst = some (some bytes)

instance (s : ContentStore) (hash : String) (bytes : Bytes) : Decidable (Readable P B s hash bytes) :=
  inferInstanceAs (Decidable (_ = _))

/-- A create, an update or a merge, which names content. -/
def Contentful (op : Operation) : Prop := op.type = .create ∨ op.type = .update

instance (op : Operation) : Decidable (Contentful op) := inferInstanceAs (Decidable (_ ∨ _))

/-- Every pending op whose content was readable finds it there with the same bytes. -/
def KeepsPending (p p' : Plugin) : Prop :=
  ∀ op ∈ p.pendingOps, Contentful op → ∀ bytes,
    Readable P B p.contentStore op.contentHash bytes →
      Readable P B p'.contentStore op.contentHash bytes

/-- The content of a live entry, or that of a version found from a live entry's head along
versions that are stored. -/
def Referenced (p : Plugin) (hash : String) : Prop :=
  hash ∈ referencedHashes p.registry (some p.versionDag) (storedOnly p.contentStore.hasStored)

instance (p : Plugin) : DecidablePred (Referenced p) := fun _ => inferInstanceAs (Decidable (_ ∈ _))

/-- A garbage collection spares packs that are young, and packs at least half referenced. -/
def Spared (stat : Nat → Option Int) (ancestorRetentionDays now : Int) (p : Plugin)
    (hash : String) : Prop :=
  ∃ packId, At p.contentStore packId hash ∧
    (ContentStore.packAged stat (ancestorRetentionDays * 86400000) now packId = false ∨
      (p.contentStore.members packId).length ≤
        2 * (p.contentStore.members packId).countP (Referenced p ·))

variable {P B} {s : ContentStore} {p : Plugin} {hash : String} {bytes : Bytes}

section Reached

theorem atRest_call {t : ContentStore} {c : StoreCall} (h : AtRest P s)
    (ht : call P B s c = some t) : AtRest P t := by
  cases c with
  | putAll contents =>
      obtain rfl := Option.some.inj ht
      exact atRest_putAll h contents
  | get hash =>
      obtain ⟨found, cache, hget, -, hcache⟩ := get_spec (B := B) h.intact (moving_nil h.flushed) hash
      rw [call, hget] at ht
      obtain rfl := Option.some.inj ht
      exact atRest_cache h hcache
  | clearMemCache =>
      obtain rfl := Option.some.inj ht
      exact atRest_cache h nofun
  | init =>
      obtain rfl := Option.some.inj ht
      exact atRest_init h
  | gc keepHashes aged =>
      obtain ⟨s', hrun, hs', -⟩ := gc_spec (B := B) h keepHashes aged
      obtain rfl := Option.some.inj (hrun.symm.trans ht)
      exact hs'
  | consolidatePacks keepHashes smallPackThreshold flushEvery =>
      obtain ⟨result, s', hrun, hs', -⟩ :=
        consolidatePacks_spec (B := B) h keepHashes smallPackThreshold flushEvery
      rw [call, hrun] at ht
      obtain rfl := Option.some.inj ht
      exact hs'

theorem atRest_of_reached (h : Reached P B s) : AtRest P s := by
  obtain ⟨calls, hrun⟩ := h
  have halong : ∀ (calls : List StoreCall) (s : ContentStore),
      Along (call P B) (fun _ _ => True) s calls := by
    intro calls
    induction calls with
    | nil => exact fun _ => trivial
    | cons c calls ih => exact fun s => ⟨trivial, fun t _ => ih t⟩
  exact invariant_of_run (fun _ _ _ hs _ ht => atRest_call hs ht) atRest_empty (halong _ _) hrun

theorem readable_iff (h : AtRest P s) : Readable P B s hash bytes ↔ Stores P s hash bytes := by
  obtain ⟨found, cache, hget, hfound, -⟩ :=
    get_spec (B := B) h.intact (moving_nil h.flushed) hash
  rw [Readable, hget, ← hfound, Option.map_some, Option.some_inj]

end Reached

section Swept

variable {dag : VersionDag} {roots : List String} {has : String → Bool} {v x : String}

theorem rooted_of_covered (hv : v ∈ roots) (hne : v ≠ "") (h : Covered dag has v x) :
    Rooted dag roots x := by
  induction h with
  | start =>
      exact GraphWalk.reach_of_mem (List.mem_filter.2 ⟨hv, decide_eq_true hne⟩)
  | parent _ hp _ ih => exact rooted_parent ih hp

theorem contentHashOf_restrict {kept : String → Bool} (h : kept x = true) :
    contentHashOf (dag.restrict kept) x = contentHashOf dag x := by
  rw [contentHashOf, contentHashOf, JsMap.get_restrict, if_pos h]

/-- A sweep hides nothing from a walk that starts at one of its roots. -/
theorem covered_swept_iff (hv : v ∈ roots) (hne : v ≠ "") :
    Covered (sweepToRoots dag roots).1 has v x ↔ Covered dag has v x := by
  have hsurvives : ∀ {y}, Covered dag has v y → survives dag roots y = true :=
    fun h => survives_of_rooted (rooted_of_covered hv hne h)
  rw [sweepToRoots_eq]
  constructor
  · intro h
    induction h with
    | start => exact .start
    | parent _ hp hbytes ih =>
        refine .parent ih (mem_parentsOf_restrict.1 hp).2 ?_
        rw [contentHashOf_restrict (hsurvives ih)] at hbytes
        exact hbytes
  · intro h
    induction h with
    | start => exact .start
    | parent hx hp hbytes ih =>
        refine .parent ih (mem_parentsOf_restrict.2 ⟨hsurvives hx, hp⟩) ?_
        rw [contentHashOf_restrict (hsurvives hx)]
        exact hbytes

theorem mem_versionRoots_of_head {registry : FileRegistry} {e : FileEntry}
    (he : e ∈ registry.getActiveEntries) {head : String} (hhead : e.head = some head) :
    head ∈ registry.versionRoots ∧ head ≠ "" := by
  refine ⟨List.mem_flatMap.2 ⟨e, (List.mem_filter.1 he).1, List.mem_append_left _ ?_⟩, ?_⟩
  · rw [hhead]
    exact List.mem_singleton_self head
  · exact of_decide_eq_true (Option.filter_eq_some_iff.1 hhead).2

theorem mem_keepSet_iff : hash ∈ keepSet p ↔ Referenced p hash := by
  rw [keepSet, Referenced, mem_referencedHashes_iff, mem_referencedHashes_iff]
  apply exists_congr
  intro e
  apply and_congr_right
  intro he
  apply or_congr_right
  apply exists_congr
  intro head
  apply and_congr_right
  intro hhead
  obtain ⟨hroot, hne⟩ := mem_versionRoots_of_head he hhead
  have hroot : head ∈ sweepRoots p.registry p.pendingOps := List.mem_append_left _ hroot
  rw [mem_storedOnly_iff, mem_storedOnly_iff]
  apply exists_congr
  intro x
  rw [sweepVersionDag, covered_swept_iff hroot hne]
  apply and_congr_right
  intro hx
  rw [sweepToRoots_eq,
    contentHashOf_restrict (survives_of_rooted (rooted_of_covered hroot hne hx))]

end Swept

section Maintenance

/-- A pending op with content that can be read. -/
def Held (P : Platform) (B : Nat) (p : Plugin) (op : Operation) : Prop :=
  op ∈ p.pendingOps ∧ Contentful op ∧ ∃ bytes, Readable P B p.contentStore op.contentHash bytes

theorem keepsPending_iff {p' : Plugin} {gone : String → Prop} (h : AtRest P p.contentStore)
    (h' : AtRest P p'.contentStore) (hstores : ∀ hash bytes, Stores P p'.contentStore hash bytes ↔
      Stores P p.contentStore hash bytes ∧ ¬ gone hash) :
    KeepsPending P B p p' ↔ ∀ op, Held P B p op → ¬ gone op.contentHash := by
  simp only [KeepsPending, Held, readable_iff h, readable_iff h', hstores]
  constructor
  · rintro hk op ⟨hop, hc, bytes, hs⟩
    exact (hk op hop hc bytes hs).2
  · intro hk op hop hc bytes hs
    exact ⟨hs, hk op ⟨hop, hc, bytes, hs⟩⟩

theorem keepsPending_self : KeepsPending P B p p := fun _ _ _ _ h => h

theorem optimizeContentIndex_spec (h : AtRest P p.contentStore) :
    ∃ result p', optimizeContentIndex P B p = some (result, p') ∧
      (KeepsPending P B p p' ↔
        (p.syncInProgress ∨ p.startupCaptureInProgress ∨ p.gcInProgress) ∨
          ∀ op, Held P B p op → Referenced p op.contentHash) := by
  rw [optimizeContentIndex]
  by_cases hbusy : p.syncInProgress ∨ p.startupCaptureInProgress ∨ p.gcInProgress
  · rw [if_pos hbusy]
    exact ⟨none, p, rfl, iff_of_true keepsPending_self (Or.inl hbusy)⟩
  · obtain ⟨result, s', hrun, hs', hstores⟩ := consolidatePacks_spec (B := B) h (keepSet p)
      SMALL_PACK_THRESHOLD CONSOLIDATE_FLUSH_EVERY
    rw [if_neg hbusy, hrun]
    refine ⟨_, _, rfl, ?_⟩
    rw [or_iff_right hbusy]
    have hstores : ∀ hash bytes, Stores P s' hash bytes ↔
        Stores P p.contentStore hash bytes ∧ ¬ ¬ Referenced p hash := by
      intro hash bytes
      rw [hstores, mem_keepSet_iff, not_not]
    rw [keepsPending_iff h hs' hstores]
    simp only [not_not]

theorem mostlyDead_iff {hashes : List String} :
    ContentStore.mostlyDead (keepSet p) hashes = true ↔
      2 * hashes.countP (Referenced p ·) < hashes.length := by
  have hcount : ContentStore.liveCount (keepSet p) hashes = hashes.countP (Referenced p ·) := by
    apply List.countP_congr
    intro hash _
    rw [decide_eq_true_eq, decide_eq_true_eq, mem_keepSet_iff]
  rw [ContentStore.mostlyDead, hcount, decide_eq_true_eq]

theorem runContentGc_spec (h : AtRest P p.contentStore) (stat : Nat → Option Int)
    (ancestorRetentionDays now : Int) :
    ∃ removed p', runContentGc P B stat ancestorRetentionDays now p = some (removed, p') ∧
      (KeepsPending P B p p' ↔ p.gcInProgress ∨ ∀ op, Held P B p op →
        Referenced p op.contentHash ∨ Spared stat ancestorRetentionDays now p op.contentHash) := by
  rw [runContentGc]
  by_cases hbusy : p.gcInProgress = true
  · rw [if_pos hbusy]
    exact ⟨0, p, rfl, iff_of_true keepsPending_self (Or.inl hbusy)⟩
  · obtain ⟨s', hrun, hs', hstores⟩ := gc_spec (B := B) h (keepSet p)
      (ContentStore.packAged stat (ancestorRetentionDays * 86400000) now)
    rw [if_neg hbusy]
    simp only [hrun, Option.map_some]
    refine ⟨_, _, rfl, ?_⟩
    rw [or_iff_right hbusy, keepsPending_iff h hs' hstores]
    apply forall_congr'
    intro op
    apply forall_congr'
    rintro ⟨-, -, bytes, hread⟩
    obtain ⟨loc, -, hloc, -⟩ := (readable_iff h).1 hread
    have hat : At p.contentStore loc.packId op.contentHash := at_iff.2 ⟨loc, hloc, rfl⟩
    simp only [Garbage, Spared, mem_keepSet_iff, mostlyDead_iff]
    rw [not_and_or, not_not]
    apply or_congr_right
    constructor
    · intro hnot
      refine ⟨loc.packId, hat, ?_⟩
      rw [or_iff_not_imp_left, Bool.not_eq_false]
      exact fun ha => Nat.le_of_not_lt fun hd => hnot ⟨loc.packId, hat, ha, hd⟩
    · rintro ⟨packId, hat', hspared⟩ ⟨packId', hat'', ha, hd⟩
      obtain rfl := at_inj hat' hat''
      rcases hspared with hyoung | hlive
      · cases hyoung.symm.trans ha
      · exact absurd hd (Nat.not_lt.2 hlive)

/-- Maintenance keeps the content of the pending ops exactly when it declines, or when all of
it is referenced or, from a garbage collection, spared. -/
theorem maintenance_keeps_pending_iff (P : Platform) (B : Nat) (p : Plugin)
    (h : Reached P B p.contentStore) :
    (∃ result p', optimizeContentIndex P B p = some (result, p') ∧
      (KeepsPending P B p p' ↔
        (p.syncInProgress ∨ p.startupCaptureInProgress ∨ p.gcInProgress) ∨
          ∀ op, Held P B p op → Referenced p op.contentHash)) ∧
      ∀ stat ancestorRetentionDays now,
        ∃ removed p', runContentGc P B stat ancestorRetentionDays now p = some (removed, p') ∧
          (KeepsPending P B p p' ↔ p.gcInProgress ∨ ∀ op, Held P B p op →
            Referenced p op.contentHash ∨
              Spared stat ancestorRetentionDays now p op.contentHash) :=
  ⟨optimizeContentIndex_spec (atRest_of_reached h), runContentGc_spec (atRest_of_reached h)⟩

end Maintenance

section Example

open World OperationLogger Coroutine

/-- A new note is saved with `A` and, before any sync round, again with `B`. -/
def twoSaves : World.Async Unit := do
  handleCreate asciiDevice "n.md"
  Files.write "n.md" [66]
  flushModify asciiDevice "n.md"

def saved : World :=
  match run twoSaves (atRest [("n.md", [65])] .empty) with
  | some (_, w) => w
  | none => atRest [] .empty

def savedContent : ContentStore :=
  ContentStore.put 1000 (ContentStore.put 1000 .empty "A" [65]) "B" [66]

def savedPlugin : Plugin :=
  ⟨false, false, false, saved.registry, saved.log.pendingOps, .empty, savedContent⟩

theorem reached_savedContent : Reached asciiPlatform 1000 savedContent :=
  ⟨[.putAll [[65]], .putAll [[66]]], by rfl⟩

/-- The plugin after a push of the first save. -/
def pushedPlugin : Plugin := { savedPlugin with pendingOps := saved.log.pendingOps.drop 1 }

theorem maintenance_keeps_pushed :
    (∃ result p', optimizeContentIndex asciiPlatform 1000 pushedPlugin = some (result, p') ∧
      KeepsPending asciiPlatform 1000 pushedPlugin p') ∧
      ∃ removed p', runContentGc asciiPlatform 1000 (fun _ => some 0) 30 2592000000 pushedPlugin =
          some (removed, p') ∧ KeepsPending asciiPlatform 1000 pushedPlugin p' := by
  obtain ⟨⟨result, p', hrun, hkeeps⟩, hgc⟩ :=
    maintenance_keeps_pending_iff asciiPlatform 1000 pushedPlugin reached_savedContent
  obtain ⟨removed, p'', hrun', hkeeps'⟩ := hgc (fun _ => some 0) 30 2592000000
  have hreferenced : ∀ op ∈ pushedPlugin.pendingOps, Referenced pushedPlugin op.contentHash := by
    decide +kernel
  exact ⟨⟨result, p', hrun, hkeeps.2 (Or.inr fun op hop => hreferenced op hop.1)⟩,
    removed, p'', hrun', hkeeps'.2 (Or.inr fun op hop => Or.inl (hreferenced op hop.1))⟩

/-- The first save is pending, but only the second is referenced: a consolidation drops the
content of the first at once, and a garbage collection once its pack has aged. -/
theorem maintenance_drops_pending :
    (¬ ∀ (P : Platform) (B : Nat) (p : Plugin), Reached P B p.contentStore →
      ∀ result p', optimizeContentIndex P B p = some (result, p') → KeepsPending P B p p') ∧
      ¬ ∀ (P : Platform) (B : Nat) (p : Plugin), Reached P B p.contentStore →
        ∀ stat ancestorRetentionDays now removed p',
          runContentGc P B stat ancestorRetentionDays now p = some (removed, p') →
            KeepsPending P B p p' := by
  have hheld : ∃ op ∈ savedPlugin.pendingOps, Contentful op ∧
      Readable asciiPlatform 1000 savedPlugin.contentStore op.contentHash [65] ∧
      ¬ Referenced savedPlugin op.contentHash ∧ op.contentHash = "A" := by
    decide +kernel
  obtain ⟨op, hop, hc, hread, hnot, hhash⟩ := hheld
  have h := atRest_of_reached reached_savedContent
  constructor
  · intro hclaim
    obtain ⟨result, p', hrun, hkeeps⟩ := optimizeContentIndex_spec (p := savedPlugin) (B := 1000) h
    rcases hkeeps.1 (hclaim asciiPlatform 1000 savedPlugin reached_savedContent result p' hrun) with
      hbusy | hall
    · exact absurd hbusy (by decide)
    · exact hnot (hall op ⟨hop, hc, [65], hread⟩)
  · intro hclaim
    obtain ⟨removed, p', hrun, hkeeps⟩ :=
      runContentGc_spec (p := savedPlugin) (B := 1000) h (fun _ => some 0) 30 2592000000
    rcases hkeeps.1 (hclaim asciiPlatform 1000 savedPlugin reached_savedContent _ 30 2592000000
      removed p' hrun) with hbusy | hall
    · cases hbusy
    · rcases hall op ⟨hop, hc, [65], hread⟩ with hr | ⟨packId, hat, hspared⟩
      · exact hnot hr
      · rw [hhash] at hat
        have hzero : At savedPlugin.contentStore 0 "A" := by decide +kernel
        obtain rfl := at_inj hzero hat
        exact absurd hspared (by decide +kernel)

end Example

end OpsBlobs.PendingContent
