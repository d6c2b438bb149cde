import OpsBlobs.EventRun
import OpsBlobs.PackPasses
import Mathlib.Logic.Function.Basic

namespace OpsBlobs.PackRefinement

open Base64 Types PackedContent ContentIntegrity PackMaintenance PackPasses EventRun

/-- The store's operations; an edit's `put` and a pass's `putBuffered` name no hash, since
callers pass that of the content. -/
inductive Call
  | put (content : Bytes)
  | putBuffered (content : Bytes)
  | flushPack
  | get (hash : String)
  | delete (hash : String)
  | clearMemCache
  | gc (keepHashes : List String) (aged : Nat → Bool)
  | consolidatePacks (keepHashes : List String) (smallPackThreshold flushEvery : Nat)
  | init

section Model

variable (P : Platform) (B : Nat)

def call (s : ContentStore) : Call → Option ContentStore
  | .put content => some (ContentStore.put B s (P.sha256Hex content) content)
  | .putBuffered content => some (ContentStore.putBuffered B s (P.sha256Hex content) content)
  | .flushPack => some (ContentStore.flushPack B s)
  | .get hash => (ContentStore.get P B s hash).map fun read => { s with memCache := read.2 }
  | .delete hash => some (ContentStore.delete s hash)
  | .clearMemCache => some (ContentStore.clearMemCache s)
  | .gc keepHashes aged => ContentStore.gc P B keepHashes aged s
  | .consolidatePacks keepHashes smallPackThreshold flushEvery =>
      (ContentStore.consolidatePacks P B keepHashes smallPackThreshold flushEvery s).map Prod.snd
  | .init => some (ContentStore.init s)

/-- The plain map that the store is meant to be: the bytes it owes by hash, and those that wait
for a flush. -/
structure BlobMap where
  owed : String → Option Bytes
  waiting : List Bytes

def BlobMap.settle (m : BlobMap) : BlobMap where
  owed := m.waiting.foldl (fun f content => Function.update f (P.sha256Hex content) (some content))
    m.owed
  waiting := []

def BlobMap.keep (keepHashes : List String) (m : BlobMap) : BlobMap :=
  { m with owed := fun hash => if hash ∈ keepHashes then m.owed hash else none }

def BlobMap.call (m : BlobMap) : Call → BlobMap
  | .put content => BlobMap.settle P { m with waiting := m.waiting ++ [content] }
  | .putBuffered content => { m with waiting := m.waiting ++ [content] }
  | .flushPack => m.settle P
  | .get _ | .clearMemCache => m
  | .delete hash => { m with owed := Function.update m.owed hash none }
  | .gc keepHashes _ | .consolidatePacks keepHashes _ _ => m.keep keepHashes
  | .init => { m with waiting := [] }

def BlobMap.empty : BlobMap := ⟨fun _ => none, []⟩

/-- What is buffered is flushed before anything is taken out of the store or it is read back. -/
def Sequenced : Bool → List Call → Prop
  | _, [] => True
  | _, .putBuffered _ :: rest => Sequenced true rest
  | _, .put _ :: rest | _, .flushPack :: rest => Sequenced false rest
  | buffered, .get _ :: rest | buffered, .clearMemCache :: rest => Sequenced buffered rest
  | buffered, .delete _ :: rest | buffered, .gc _ _ :: rest | buffered, .init :: rest
  | buffered, .consolidatePacks _ _ _ :: rest => buffered = false ∧ Sequenced false rest

def contentOf : Call → List Bytes
  | .put content | .putBuffered content => [content]
  | _ => []

end Model

section Pended

variable {P : Platform} {B : Nat} {s s' : ContentStore} {keepHashes : List String}

/-- Every pending hash has its blob in the buffer. -/
def Pended (s : ContentStore) : Prop := ∀ hash ∈ s.pending, ∃ b64, (hash, b64) ∈ s.packBuffer

theorem pended_putBuffered {hash : String} {content : Bytes} (h : Pended s) :
    Pended (ContentStore.putBuffered B s hash content) := by
  rw [ContentStore.putBuffered]
  split
  · exact h
  · intro k hk
    rcases List.mem_append.1 hk with hk | hk
    · obtain ⟨b64, hmem⟩ := h k hk
      exact ⟨b64, List.mem_append_left _ hmem⟩
    · obtain rfl := List.mem_singleton.1 hk
      exact ⟨_, List.mem_append_right _ (List.mem_singleton_self _)⟩

theorem pended_flushPack (h : Pended s) : Pended (ContentStore.flushPack B s) := by
  rw [ContentStore.flushPack]
  split
  · exact h
  · exact fun _ hmem => by cases hmem

theorem pended_foldl {α : Type} {f : ContentStore → α → ContentStore} {l : List α}
    (hf : ∀ s a, Pended s → Pended (f s a)) (h : Pended s) : Pended (l.foldl f s) := by
  induction l generalizing s with
  | nil => exact h
  | cons a l ih => exact ih (hf s a h)

theorem pended_foldlM {α β : Type} {g : β → ContentStore} {f : β → α → Option β} {l : List α}
    {b b' : β} (hf : ∀ b a b', f b a = some b' → Pended (g b) → Pended (g b'))
    (hrun : l.foldlM f b = some b') (h : Pended (g b)) : Pended (g b') := by
  induction l generalizing b with
  | nil => exact Option.some.inj hrun ▸ h
  | cons a l ih =>
      rw [List.foldlM_cons] at hrun
      obtain ⟨b₁, hstep, hrest⟩ := Option.bind_eq_some_iff.1 hrun
      exact ih hrest (hf b a b₁ hstep h)

theorem pended_dropFrom (packId : Nat) {hashes : List String} (h : Pended s) :
    Pended (ContentStore.dropFrom packId s hashes) := by
  refine pended_foldl (fun s hash hs => ?_) h
  rw [ContentStore.dropIfIn]
  split
  · exact hs
  · exact hs

theorem pended_retire (packId : Nat) {hashes : List String} (h : Pended s) :
    Pended (ContentStore.retire s packId hashes) := pended_foldl (fun _ _ hs => hs) h

theorem pended_rebuffer {hash : String} (hrun : ContentStore.rebuffer P B s hash = some s')
    (h : Pended s) : Pended s' := by
  obtain ⟨⟨found, cache⟩, -, rfl⟩ := Option.map_eq_some_iff.1 hrun
  cases found with
  | none => exact h
  | some bytes =>
      intro k hk
      dsimp only at hk ⊢
      split at hk
      · obtain ⟨b64, hmem⟩ := h k hk
        exact ⟨b64, List.mem_append_left _ hmem⟩
      · rcases List.mem_append.1 hk with hk | hk
        · obtain ⟨b64, hmem⟩ := h k hk
          exact ⟨b64, List.mem_append_left _ hmem⟩
        · obtain rfl := List.mem_singleton.1 hk
          exact ⟨_, List.mem_append_right _ (List.mem_singleton_self _)⟩

theorem pended_compactPack {packId : Nat}
    (hrun : ContentStore.compactPack P B keepHashes s packId = some s') (h : Pended s) :
    Pended s' := by
  obtain ⟨t, ht, rfl⟩ := Option.map_eq_some_iff.1 hrun
  refine pended_dropFrom packId (pended_flushPack ?_)
  exact pended_foldlM (g := id) (fun _ _ _ hr hs => pended_rebuffer hr hs) ht h

theorem pended_gc {aged : Nat → Bool} (hrun : ContentStore.gc P B keepHashes aged s = some s')
    (h : Pended s) : Pended s' := by
  simp only [ContentStore.gc, gcSweep_eq] at hrun
  obtain ⟨t, ht, rfl⟩ := Option.map_eq_some_iff.1 hrun
  have hswept := pended_foldlM (g := id)
    (fun _ _ _ hr hs => pended_compactPack hr hs) ht (pended_foldl (fun _ _ => pended_retire _) h)
  split
  · exact hswept
  · exact hswept

theorem pended_mergeBlob {packId : Nat} {packText : List Char} {m m' : ContentStore.Merging}
    {hash : String}
    (hrun : ContentStore.mergeBlob P keepHashes packId packText m hash = some m')
    (h : Pended m.store) : Pended m'.store := by
  rw [ContentStore.mergeBlob] at hrun
  split at hrun
  · exact Option.some.inj hrun ▸ h
  · split at hrun
    · exact Option.some.inj hrun ▸ h
    · split at hrun
      · exact Option.some.inj hrun ▸ h
      · obtain ⟨body, -, rfl⟩ := Option.map_eq_some_iff.1 hrun
        cases body with
        | none => exact h
        | some bytes =>
            intro k hk
            obtain ⟨b64, hmem⟩ := h k hk
            exact ⟨b64, List.mem_append_left _ hmem⟩

theorem pended_flushAndRetire {members : Nat → List String} {m : ContentStore.Merging}
    (h : Pended m.store) : Pended (ContentStore.flushAndRetireDeferred B members m).store := by
  rw [flushAndRetire_eq]
  exact pended_foldl (fun _ packId hs => pended_dropFrom packId hs) (pended_flushPack h)

theorem pended_mergePack {flushEvery packId : Nat} {members : Nat → List String}
    {m m' : ContentStore.Merging}
    (hrun : ContentStore.mergePack P B keepHashes flushEvery members m packId = some m')
    (h : Pended m.store) : Pended m'.store := by
  rw [ContentStore.mergePack] at hrun
  split at hrun
  · exact Option.some.inj hrun ▸ h
  · obtain ⟨m₁, hblobs, rfl⟩ := Option.map_eq_some_iff.1 hrun
    have h₁ := pended_foldlM (g := ContentStore.Merging.store)
      (fun _ _ _ hr hs => pended_mergeBlob hr hs) hblobs h
    dsimp only
    split
    · exact pended_flushAndRetire h₁
    · exact h₁

theorem pended_consolidatePacks {smallPackThreshold flushEvery : Nat}
    {result : ContentStore.Consolidation}
    (hrun : ContentStore.consolidatePacks P B keepHashes smallPackThreshold flushEvery s =
      some (result, s')) (h : Pended s) : Pended s' := by
  simp only [ContentStore.consolidatePacks, Option.bind_eq_bind, Option.pure_def,
    Option.bind_eq_some_iff, Option.some.injEq, Prod.mk.injEq] at hrun
  obtain ⟨m, hmerge, t, hcompact, -, rfl⟩ := hrun
  have hmerged := pended_foldlM (g := ContentStore.Merging.store)
    (fun _ _ _ hr hs => pended_mergePack hr hs) hmerge
    (pended_foldl (fun _ _ => pended_retire _) h)
  have hcompacted := pended_foldlM (g := id) (fun _ _ _ hr hs => pended_compactPack hr hs)
    hcompact (pended_flushAndRetire hmerged)
  split
  · exact hcompacted
  · exact hcompacted

end Pended

section Refines

variable {P : Platform} {B : Nat} {data : List Bytes} {m : BlobMap} {s s' : ContentStore}
  {hash : String} {content bytes : Bytes}

/-- No two of the contents in play have the same hash. -/
def Distinct (P : Platform) (data : List Bytes) : Prop :=
  ∀ a ∈ data, ∀ b ∈ data, P.sha256Hex a = P.sha256Hex b → a = b

/-- The store holds what the map owes, and nothing but contents in play. -/
structure Refines (P : Platform) (data : List Bytes) (m : BlobMap) (s : ContentStore) : Prop where
  intact : Intact P s
  mirrored : Mirrored s
  pended : Pended s
  known : ∀ hash bytes, Stores P s hash bytes → bytes ∈ data
  buffered : ∀ hash b64, (hash, b64) ∈ s.packBuffer → ∃ bytes ∈ data, base64ToUint8 b64 = some bytes
  flushed : m.waiting = [] → s.packBuffer = []
  owed : ∀ hash bytes, m.owed hash = some bytes → Stores P s hash bytes
  waiting : ∀ content ∈ m.waiting, Settled P s (P.sha256Hex content) content

theorem refines_empty : Refines P data .empty .empty where
  intact := atRest_empty.intact
  mirrored _ := rfl
  pended _ h := by cases h
  known _ _ h := by
    obtain ⟨loc, -, hloc, -⟩ := h
    cases hloc
  buffered _ _ h := by cases h
  flushed _ := rfl
  owed _ _ h := by cases h
  waiting _ h := by cases h

theorem hash_of_settled (hi : Intact P s) (h : Settled P s hash bytes) :
    P.sha256Hex bytes = hash := by
  rw [Settled] at h
  cases hget : (JsMap.ofList s.packBuffer).get hash with
  | none =>
      rw [hget] at h
      obtain ⟨loc, pack, -, -, hx⟩ := h
      exact (hash_of_extract hx).1
  | some b64 =>
      rw [hget] at h
      obtain ⟨b, hb, hhash⟩ := hi.buffered hash b64 (JsMap.mem_of_get_ofList hget)
      obtain rfl := Option.some.inj (hb.symm.trans h)
      exact hhash

theorem mem_of_settled (h : Refines P data m s) (hs : Settled P s hash bytes) : bytes ∈ data := by
  rw [Settled] at hs
  cases hget : (JsMap.ofList s.packBuffer).get hash with
  | none =>
      rw [hget] at hs
      exact h.known hash bytes hs
  | some b64 =>
      rw [hget] at hs
      obtain ⟨b, hb, hb64⟩ := h.buffered hash b64 (JsMap.mem_of_get_ofList hget)
      obtain rfl := Option.some.inj (hb64.symm.trans hs)
      exact hb

/-- Whatever is settled under the hash of a content in play is that content. -/
theorem settled_unique (hd : Distinct P data) (h : Refines P data m s) (hc : content ∈ data)
    (hs : Settled P s (P.sha256Hex content) bytes) : bytes = content :=
  hd bytes (mem_of_settled h hs) content hc (hash_of_settled h.intact hs)

theorem settled_of_mem_buffer (hd : Distinct P data) (h : Refines P data m s) (hc : content ∈ data)
    {b64 : List Char} (hmem : (P.sha256Hex content, b64) ∈ s.packBuffer) :
    Settled P s (P.sha256Hex content) content := by
  cases hget : (JsMap.ofList s.packBuffer).get (P.sha256Hex content) with
  | none => exact absurd (List.mem_map_of_mem hmem) (JsMap.get_ofList_eq_none_iff.1 hget)
  | some last =>
      obtain ⟨bytes, -, hb64⟩ := h.buffered _ last (JsMap.mem_of_get_ofList hget)
      have hs : Settled P s (P.sha256Hex content) bytes := by
        rw [Settled, hget]
        exact hb64
      exact settled_unique hd h hc hs ▸ hs

theorem settled_of_stores (hd : Distinct P data) (h : Refines P data m s)
    (hs : Stores P s hash bytes) : Settled P s hash bytes := by
  obtain ⟨loc, pack, -, -, hx⟩ := id hs
  obtain rfl := (hash_of_extract hx).1
  cases hget : (JsMap.ofList s.packBuffer).get (P.sha256Hex bytes) with
  | none =>
      rw [Settled, hget]
      exact hs
  | some b64 =>
      exact settled_of_mem_buffer hd h (h.known _ _ hs) (JsMap.mem_of_get_ofList hget)

theorem refines_putBuffered (hd : Distinct P data) (h : Refines P data m s)
    (hc : content ∈ data) :
    Refines P data { m with waiting := m.waiting ++ [content] }
      (ContentStore.putBuffered B s (P.sha256Hex content) content) := by
  have hintact := intact_putBuffered (B := B) h.intact content
  have hmirrored : Mirrored (ContentStore.putBuffered B s (P.sha256Hex content) content) :=
    mirrored_putBuffered h.mirrored content
  have hpended : Pended (ContentStore.putBuffered B s (P.sha256Hex content) content) :=
    pended_putBuffered h.pended
  rw [ContentStore.putBuffered] at hintact hmirrored hpended ⊢
  split at hintact
  · rename_i hheld
    rw [if_pos hheld]
    have hs : Settled P s (P.sha256Hex content) content := by
      rcases hheld with hcached | hpending
      · obtain ⟨b, hb⟩ := (JsMap.has_iff _ _).1 hcached
        have hs := h.intact.cached _ b hb
        exact settled_unique hd h hc hs ▸ hs
      · obtain ⟨b64, hmem⟩ := h.pended _ hpending
        exact settled_of_mem_buffer hd h hc hmem
    refine { h with flushed := fun hnil => absurd hnil (by simp), waiting := fun c hmem => ?_ }
    rcases List.mem_append.1 hmem with hmem | hmem
    · exact h.waiting c hmem
    · exact List.mem_singleton.1 hmem ▸ hs
  · rename_i hnew
    rw [if_neg hnew] at hmirrored hpended ⊢
    refine ⟨hintact, hmirrored, hpended, h.known, ?_, fun hnil => absurd hnil (by simp), h.owed, ?_⟩
    · intro k b64 hmem
      rcases List.mem_append.1 hmem with hmem | hmem
      · exact h.buffered k b64 hmem
      · obtain ⟨rfl, rfl⟩ := Prod.mk.inj (List.mem_singleton.1 hmem)
        exact ⟨content, hc, atob_btoa content⟩
    · intro c hmem
      rw [Settled]
      dsimp only
      rw [JsMap.ofList_concat, JsMap.get_set]
      by_cases he : P.sha256Hex content = P.sha256Hex c
      · rw [if_pos he]
        have hmem : c ∈ data := by
          rcases List.mem_append.1 hmem with hmem | hmem
          · exact mem_of_settled h (h.waiting c hmem)
          · exact List.mem_singleton.1 hmem ▸ hc
        obtain rfl := hd content hc c hmem he
        exact atob_btoa content
      · rw [if_neg he]
        rcases List.mem_append.1 hmem with hmem | hmem
        · exact h.waiting c hmem
        · exact absurd (congrArg _ (List.mem_singleton.1 hmem).symm) he

theorem owed_settle (h : (m.settle P).owed hash = some bytes) :
    (bytes ∈ m.waiting ∧ P.sha256Hex bytes = hash) ∨ m.owed hash = some bytes := by
  obtain ⟨owed, waiting⟩ := m
  rw [BlobMap.settle] at h
  dsimp only at h ⊢
  induction waiting generalizing owed with
  | nil => exact Or.inr h
  | cons content rest ih =>
      rcases ih _ h with ⟨hmem, hhash⟩ | hold
      · exact Or.inl ⟨List.mem_cons_of_mem _ hmem, hhash⟩
      · dsimp only at hold
        rw [Function.update_apply] at hold
        split at hold
        · rename_i he
          obtain rfl := Option.some.inj hold
          exact Or.inl ⟨List.mem_cons_self, he.symm⟩
        · exact Or.inr hold

theorem refines_flushPack (hd : Distinct P data) (h : Refines P data m s) :
    Refines P data (m.settle P) (ContentStore.flushPack B s) := by
  have hf := flushPack_spec (B := B) h.intact
  refine ⟨hf.intact, hf.mirrored h.mirrored, pended_flushPack h.pended, ?_, ?_, fun _ => hf.empty,
    ?_, fun _ hmem => by cases hmem⟩
  · exact fun hash bytes hs => mem_of_settled h ((hf.stores hash bytes).1 hs)
  · intro hash b64 hmem
    rw [hf.empty] at hmem
    cases hmem
  · intro hash bytes howed
    rw [hf.stores]
    rcases owed_settle howed with ⟨hmem, rfl⟩ | howed
    · exact h.waiting bytes hmem
    · exact settled_of_stores hd h (h.owed hash bytes howed)

theorem refines_cache (h : Refines P data m s) {cache : MemCache}
    (hcache : ∀ k b, cache.blobs.get k = some b → Settled P s k b) :
    Refines P data m { s with memCache := cache } :=
  { h with intact := intact_cache h.intact hcache }

theorem atRest_of_refines (h : Refines P data m s) (hw : m.waiting = []) : AtRest P s :=
  ⟨h.intact, h.flushed hw, h.mirrored⟩

/-- A store at rest that holds no more than before, and what the map still owes. -/
theorem refines_atRest {m' : BlobMap} (h : Refines P data m s) (hs' : AtRest P s')
    (hp : Pended s') (hw : m'.waiting = [])
    (hstores : ∀ hash bytes, Stores P s' hash bytes → Stores P s hash bytes)
    (howed : ∀ hash bytes, m'.owed hash = some bytes → Stores P s' hash bytes) :
    Refines P data m' s' where
  intact := hs'.intact
  mirrored := hs'.mirrored
  pended := hp
  known hash bytes hs := h.known hash bytes (hstores hash bytes hs)
  buffered hash b64 hmem := by
    rw [hs'.flushed] at hmem
    cases hmem
  flushed _ := hs'.flushed
  owed := howed
  waiting content hmem := by
    rw [hw] at hmem
    cases hmem

theorem index_delete (s : ContentStore) (hash k : String) :
    (ContentStore.delete s hash).index.get k = if hash = k then none else s.index.get k := by
  rw [ContentStore.delete]
  split
  · exact JsMap.get_delete _ _ _
  · rename_i hnone
    split
    · rename_i he
      rw [JsMap.has, Bool.not_eq_true, Option.isSome_eq_false_iff, Option.isNone_iff_eq_none] at hnone
      exact he ▸ hnone
    · rfl

theorem rest_delete (s : ContentStore) (hash : String) :
    (ContentStore.delete s hash).memCache = s.memCache.cacheDelete hash ∧
      (ContentStore.delete s hash).packs = s.packs ∧
      (ContentStore.delete s hash).packBuffer = s.packBuffer ∧
      (ContentStore.delete s hash).pending = s.pending ∧
      (ContentStore.delete s hash).nextPackId = s.nextPackId := by
  rw [ContentStore.delete]
  split <;> exact ⟨rfl, rfl, rfl, rfl, rfl⟩

theorem stores_delete (s : ContentStore) (hash k : String) :
    Stores P (ContentStore.delete s hash) k bytes ↔ Stores P s k bytes ∧ k ≠ hash := by
  rw [Stores, Stores, index_delete, (rest_delete s hash).2.1]
  by_cases he : hash = k
  · simp [he]
  · simp [he, Ne.symm he]

theorem atRest_delete (h : AtRest P s) (hash : String) :
    AtRest P (ContentStore.delete s hash) := by
  obtain ⟨hcache, hpacks, hbuffer, -, hnext⟩ := rest_delete s hash
  refine ⟨⟨?_, ?_, ?_, ?_⟩, hbuffer.trans h.flushed, ?_⟩
  · intro k loc hloc
    rw [index_delete] at hloc
    split at hloc
    · cases hloc
    · rename_i hne
      obtain ⟨b, hb⟩ := h.intact.indexed k loc hloc
      exact ⟨b, (stores_delete s hash k).2 ⟨hb, Ne.symm hne⟩⟩
  · intro k b hk
    rw [hcache, MemCache.cacheDelete, JsMap.get_delete] at hk
    split at hk
    · cases hk
    · rename_i hne
      rw [settled_nil (hbuffer.trans h.flushed), stores_delete]
      exact ⟨(settled_nil h.flushed).1 (h.intact.cached k b hk), Ne.symm hne⟩
  · rw [hbuffer]
    exact h.intact.buffered
  · rw [hpacks, hnext]
    exact h.intact.numbered
  · intro k
    rw [ContentStore.delete]
    split
    · exact mirrored_rewriteIndex k
    · exact h.mirrored k

theorem refines_delete (h : Refines P data m s) (hw : m.waiting = []) (hash : String) :
    Refines P data { m with owed := Function.update m.owed hash none }
      (ContentStore.delete s hash) := by
  refine refines_atRest h (atRest_delete (atRest_of_refines h hw) hash) ?_ hw
    (fun k b hs => ((stores_delete s hash k).1 hs).1) ?_
  · obtain ⟨-, -, hbuffer, hpending, -⟩ := rest_delete s hash
    intro k hk
    rw [hbuffer]
    exact h.pended k (hpending ▸ hk)
  · intro k b howed
    dsimp only at howed
    rw [Function.update_apply] at howed
    split at howed
    · cases howed
    · rename_i hne
      exact (stores_delete s hash k).2 ⟨h.owed k b howed, hne⟩

theorem owed_keep {keepHashes : List String} (h : (m.keep keepHashes).owed hash = some bytes) :
    hash ∈ keepHashes ∧ m.owed hash = some bytes := by
  rw [BlobMap.keep] at h
  dsimp only at h
  split at h
  · rename_i hk
    exact ⟨hk, h⟩
  · cases h

theorem refines_gc (h : Refines P data m s) (hw : m.waiting = []) (keepHashes : List String)
    (aged : Nat → Bool) :
    ∃ s', ContentStore.gc P B keepHashes aged s = some s' ∧
      Refines P data (m.keep keepHashes) s' := by
  obtain ⟨s', hrun, hs', hstores⟩ := gc_spec (B := B) (atRest_of_refines h hw) keepHashes aged
  refine ⟨s', hrun, refines_atRest h hs' (pended_gc hrun h.pended) hw
    (fun k b hs => ((hstores k b).1 hs).1) fun k b howed => ?_⟩
  obtain ⟨hkeep, howed⟩ := owed_keep howed
  exact (hstores k b).2 ⟨h.owed k b howed, fun hg => hg.1 hkeep⟩

theorem refines_consolidatePacks (h : Refines P data m s) (hw : m.waiting = [])
    (keepHashes : List String) (smallPackThreshold flushEvery : Nat) :
    ∃ result s', ContentStore.consolidatePacks P B keepHashes smallPackThreshold flushEvery s =
        some (result, s') ∧ Refines P data (m.keep keepHashes) s' := by
  obtain ⟨result, s', hrun, hs', hstores⟩ := consolidatePacks_spec (B := B)
    (atRest_of_refines h hw) keepHashes smallPackThreshold flushEvery
  refine ⟨result, s', hrun, refines_atRest h hs' (pended_consolidatePacks hrun h.pended) hw
    (fun k b hs => ((hstores k b).1 hs).1) fun k b howed => ?_⟩
  obtain ⟨hkeep, howed⟩ := owed_keep howed
  exact (hstores k b).2 ⟨h.owed k b howed, hkeep⟩

theorem stores_init (h : Mirrored s) :
    Stores P (ContentStore.init s) hash bytes ↔ Stores P s hash bytes := by
  rw [Stores, Stores]
  apply exists_congr
  intro loc
  apply exists_congr
  intro pack
  exact and_congr_left fun _ => iff_of_eq (congrArg (· = some loc) (h hash))

theorem refines_init (h : Refines P data m s) (hw : m.waiting = []) :
    Refines P data { m with waiting := [] } (ContentStore.init s) :=
  refines_atRest h (atRest_init (atRest_of_refines h hw)) (fun _ hk => by cases hk) rfl
    (fun _ _ => (stores_init h.mirrored).1) fun k b howed =>
      (stores_init h.mirrored).2 (h.owed k b howed)

/-- Every call is total, and keeps to what the map does. -/
theorem refines_call (hd : Distinct P data) (h : Refines P data m s) (c : Call)
    (hc : contentOf c ⊆ data) {buffered : Bool} {rest : List Call}
    (hw : buffered = false → m.waiting = []) (hseq : Sequenced buffered (c :: rest)) :
    ∃ s' buffered', call P B s c = some s' ∧ Refines P data (m.call P c) s' ∧
      (buffered' = false → (m.call P c).waiting = []) ∧ Sequenced buffered' rest := by
  cases c with
  | put content =>
      have hbuffered := refines_putBuffered (B := B) hd h (hc List.mem_cons_self)
      exact ⟨_, false, rfl, refines_flushPack hd hbuffered, fun _ => rfl, hseq⟩
  | putBuffered content =>
      exact ⟨_, true, rfl, refines_putBuffered hd h (hc List.mem_cons_self), nofun, hseq⟩
  | flushPack => exact ⟨_, false, rfl, refines_flushPack hd h, fun _ => rfl, hseq⟩
  | get hash =>
      obtain ⟨found, cache, hget, -, hcache⟩ := get_cases (B := B) (decodes_of_intact h.intact)
        (fun _ _ hs => settled_of_stores hd h hs) h.intact.cached hash
      refine ⟨{ s with memCache := cache }, buffered, ?_, refines_cache h hcache, hw, hseq⟩
      rw [call, hget]
      rfl
  | delete hash =>
      obtain ⟨hb, hseq⟩ := hseq
      exact ⟨_, false, rfl, refines_delete h (hw hb) hash, fun _ => hw hb, hseq⟩
  | clearMemCache =>
      exact ⟨_, buffered, rfl, refines_cache h nofun, hw, hseq⟩
  | gc keepHashes aged =>
      obtain ⟨hb, hseq⟩ := hseq
      obtain ⟨s', hrun, hs'⟩ := refines_gc (B := B) h (hw hb) keepHashes aged
      exact ⟨s', false, hrun, hs', fun _ => hw hb, hseq⟩
  | consolidatePacks keepHashes smallPackThreshold flushEvery =>
      obtain ⟨hb, hseq⟩ := hseq
      obtain ⟨result, s', hrun, hs'⟩ :=
        refines_consolidatePacks (B := B) h (hw hb) keepHashes smallPackThreshold flushEvery
      refine ⟨s', false, ?_, hs', fun _ => hw hb, hseq⟩
      rw [call, hrun]
      rfl
  | init =>
      obtain ⟨hb, hseq⟩ := hseq
      exact ⟨_, false, rfl, refines_init h (hw hb), fun _ => rfl, hseq⟩

theorem refines_run (hd : Distinct P data) {calls : List Call} (h : Refines P data m s)
    (hc : calls.flatMap contentOf ⊆ data) {buffered : Bool}
    (hw : buffered = false → m.waiting = []) (hseq : Sequenced buffered calls) :
    ∃ s', run (call P B) s calls = some s' ∧ Refines P data (calls.foldl (BlobMap.call P) m) s' := by
  induction calls generalizing m s buffered with
  | nil => exact ⟨s, rfl, h⟩
  | cons c rest ih =>
      rw [List.flatMap_cons] at hc
      obtain ⟨hfirst, hrest⟩ := List.append_subset.1 hc
      obtain ⟨s₁, buffered₁, hstep, h₁, hw₁, hseq₁⟩ := refines_call (B := B) hd h c hfirst hw hseq
      obtain ⟨s', hrun, h'⟩ := ih h₁ hrest hw₁ hseq₁
      exact ⟨s', run_cons.2 ⟨s₁, hstep, hrun⟩, h'⟩

/-- What is read in a state that refines the map. -/
theorem get_of_refines (hd : Distinct P data) (h : Refines P data m s) (hash : String) :
    ∃ found cache, ContentStore.get P B s hash = some (found, cache) ∧
      (∀ bytes, m.owed hash = some bytes → found = some bytes) ∧
      ∀ bytes, found = some bytes → bytes ∈ data ∧ P.sha256Hex bytes = hash := by
  obtain ⟨found, cache, hget, hfound, -⟩ := get_cases (B := B) (decodes_of_intact h.intact)
    (fun _ _ hs => settled_of_stores hd h hs) h.intact.cached hash
  refine ⟨found, cache, hget, fun bytes howed => ?_, fun bytes hbytes => ?_⟩
  · have hs := h.owed hash bytes howed
    rw [hfound]
    cases hhit : s.memCache.blobs.get hash with
    | none => exact Or.inr ⟨rfl, hs⟩
    | some b =>
        have hb := h.intact.cached hash b hhit
        have hsettled := settled_of_stores hd h hs
        have hb' : P.sha256Hex b = P.sha256Hex bytes :=
          (hash_of_settled h.intact hb).trans (hash_of_settled h.intact hsettled).symm
        exact Or.inl (congrArg some (hd b (mem_of_settled h hb) bytes (mem_of_settled h hsettled) hb'))
  · have hs : Settled P s hash bytes := by
      rcases (hfound bytes).1 hbytes with hhit | ⟨-, hs⟩
      · exact h.intact.cached hash bytes hhit
      · exact settled_of_stores hd h hs
    exact ⟨mem_of_settled h hs, hash_of_settled h.intact hs⟩

end Refines

section Runs

variable {P : Platform} (B : Nat) {calls : List Call}

theorem get_refines (hd : Distinct P (calls.flatMap contentOf)) (hseq : Sequenced false calls) :
    ∃ s, run (call P B) .empty calls = some s ∧ ∀ hash, ∃ found cache,
      ContentStore.get P B s hash = some (found, cache) ∧
      (∀ bytes, (calls.foldl (BlobMap.call P) .empty).owed hash = some bytes →
        found = some bytes) ∧
      (hash ∉ (calls.flatMap contentOf).map P.sha256Hex → found = none) ∧
      ∀ bytes, found = some bytes → bytes ∈ calls.flatMap contentOf ∧ P.sha256Hex bytes = hash := by
  obtain ⟨s, hrun, h⟩ := refines_run (B := B) hd refines_empty (fun _ hc => hc) (fun _ => rfl) hseq
  refine ⟨s, hrun, fun hash => ?_⟩
  obtain ⟨found, cache, hget, howed, hknown⟩ := get_of_refines (B := B) hd h hash
  refine ⟨found, cache, hget, howed, fun hnever => ?_, hknown⟩
  cases found with
  | none => rfl
  | some bytes =>
      obtain ⟨hmem, rfl⟩ := hknown bytes rfl
      exact absurd (List.mem_map_of_mem hmem) hnever

/-- Two blobs, one deleted; the other one is consolidated and read back after a restart. -/
def twoBlobs : List Call :=
  [.putBuffered [104], .putBuffered [105], .flushPack, .delete "h", .consolidatePacks ["i"] 64 64,
    .init]

theorem get_refines_example : ∃ s, run (call asciiPlatform 8) .empty twoBlobs = some s ∧
    (ContentStore.get asciiPlatform 8 s "i").map Prod.fst = some (some [105]) := by
  have hd : Distinct asciiPlatform (twoBlobs.flatMap contentOf) := by
    unfold Distinct
    decide
  obtain ⟨s, hrun, hget⟩ := get_refines 8 hd ⟨rfl, rfl, rfl, trivial⟩
  obtain ⟨found, cache, hg, howed, -⟩ := hget "i"
  refine ⟨s, hrun, ?_⟩
  rw [hg, howed [105] (by decide)]
  rfl

end Runs

end OpsBlobs.PackRefinement
