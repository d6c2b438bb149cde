import Mathlib.Algebra.Ring.Int.Defs
import OpsBlobs.CutRun
import OpsBlobs.PackTasks

namespace OpsBlobs.MemAccount

open Types PackedContent PackTasks Coroutine CutRun

section Cache

variable {B : Nat} {pending : List String} {cache : MemCache} {hash : String} {content : Bytes}

/-- The sum of the byte lengths of the cached blobs. -/
def totalOf (entries : List (String × Bytes)) : Int :=
  (entries.map fun e => (e.2.length : Int)).sum

def total (cache : MemCache) : Int := totalOf cache.blobs.entries

/-- The counter is exact. -/
def Exact (cache : MemCache) : Prop := cache.memBytes = total cache

/-- The cache fits its budget, unless only blobs are left that no flush has written yet. -/
def Settled (B : Nat) (pending : List String) (cache : MemCache) : Prop :=
  cache.memBytes ≤ B ∨ ∀ h ∈ cache.blobs.keys, h ∈ pending

theorem totalOf_drop (entries : List (String × Bytes)) (hn : (entries.map Prod.fst).Nodup) :
    totalOf (JsMap.drop hash entries) = totalOf entries -
      ((JsMap.lookup hash entries).map fun b => (b.length : Int)).getD 0 := by
  induction entries with
  | nil => rfl
  | cons e rest ih =>
      obtain ⟨k, b⟩ := e
      obtain ⟨hk, hn⟩ := List.nodup_cons.1 hn
      by_cases heq : k = hash
      · subst heq
        have hsame : JsMap.drop k ((k, b) :: rest) = rest := by
          rw [JsMap.drop, List.filter_cons_of_neg (by simp)]
          refine List.filter_eq_self.2 fun e he => decide_eq_true fun hc => hk ?_
          exact List.mem_map.2 ⟨e, he, hc⟩
        rw [hsame, JsMap.lookup, if_pos rfl]
        simp only [totalOf, List.map_cons, List.sum_cons, Option.map_some, Option.getD_some]
        omega
      · have hcons : JsMap.drop hash ((k, b) :: rest) = (k, b) :: JsMap.drop hash rest :=
          List.filter_cons_of_pos (by simp [heq])
        rw [hcons, JsMap.lookup, if_neg heq]
        have hrest := ih hn
        simp only [totalOf, List.map_cons, List.sum_cons] at hrest ⊢
        omega

theorem totalOf_put (entries : List (String × Bytes)) (hnew : JsMap.lookup hash entries = none) :
    totalOf (JsMap.put hash content entries) = totalOf entries + content.length := by
  induction entries with
  | nil => simp [JsMap.put, totalOf]
  | cons e rest ih =>
      obtain ⟨k, b⟩ := e
      rw [JsMap.lookup] at hnew
      split at hnew
      · cases hnew
      · rename_i hne
        have hrest := ih hnew
        rw [JsMap.put, if_neg hne]
        simp only [totalOf, List.map_cons, List.sum_cons] at hrest ⊢
        omega

theorem total_delete (cache : MemCache) (hash : String) (n : Int) :
    total ⟨cache.blobs.delete hash, n⟩ = total cache - cache.sizeOf hash := by
  rw [MemCache.sizeOf, JsMap.get, total, total, JsMap.delete, totalOf_drop _ cache.blobs.nodup]
  cases JsMap.lookup hash cache.blobs.entries <;> rfl

theorem total_set (cache : MemCache) (hash : String) (content : Bytes) (n : Int) :
    total ⟨(cache.blobs.delete hash).set hash content, n⟩ =
      total cache - cache.sizeOf hash + content.length := by
  have habsent : JsMap.lookup hash (cache.blobs.delete hash).entries = none :=
    JsMap.get_delete_self cache.blobs hash
  rw [← total_delete cache hash n]
  exact totalOf_put _ habsent

theorem exact_cacheDelete (h : Exact cache) (hash : String) : Exact (cache.cacheDelete hash) := by
  rw [Exact, MemCache.cacheDelete, total_delete, h]

theorem settled_cacheDelete (h : Settled B pending cache) (hash : String) :
    Settled B pending (cache.cacheDelete hash) := by
  have hsize : 0 ≤ cache.sizeOf hash := by
    unfold MemCache.sizeOf
    split <;> omega
  refine h.imp (fun hle => ?_) fun hall k hk => hall k ?_
  · have hle : cache.memBytes - cache.sizeOf hash ≤ B := by omega
    exact hle
  · exact (List.filter_sublist.map Prod.fst).subset hk

theorem exact_touch (h : Exact cache) (hhit : cache.blobs.get hash = some content) :
    Exact (cache.touch hash content) := by
  have hsize : cache.sizeOf hash = content.length := by rw [MemCache.sizeOf, hhit]
  have htotal := total_set cache hash content cache.memBytes
  rw [hsize] at htotal
  rw [Exact, MemCache.touch, htotal, Int.sub_add_cancel]
  exact h

theorem settled_touch (h : Settled B pending cache) (hhit : cache.blobs.get hash = some content) :
    Settled B pending (cache.touch hash content) := by
  refine h.imp_right fun hall k hk => hall k ?_
  obtain ⟨v, hv⟩ := (JsMap.mem_keys_iff _).1 hk
  rw [MemCache.touch, JsMap.get_set, JsMap.get_delete] at hv
  split at hv
  · rename_i he
    exact (JsMap.mem_keys_iff _).2 ⟨content, he ▸ hhit⟩
  · exact (JsMap.mem_keys_iff _).2 ⟨v, hv⟩

/-- Each visited blob goes, or is pending, or was within the budget; the others wait their turn. -/
theorem evict_spec (l : List (String × Bytes)) (hn : (l.map Prod.fst).Nodup) (h : Exact cache)
    (hl : ∀ e ∈ l, cache.blobs.get e.1 = some e.2)
    (hrest : cache.memBytes ≤ B ∨ ∀ k ∈ cache.blobs.keys, k ∈ pending ∨ k ∈ l.map Prod.fst) :
    Exact (l.foldl (MemCache.evict B pending) cache) ∧
      Settled B pending (l.foldl (MemCache.evict B pending) cache) := by
  induction l generalizing cache with
  | nil => exact ⟨h, hrest.imp_right fun hall k hk => (hall k hk).resolve_right List.not_mem_nil⟩
  | cons e l ih =>
      obtain ⟨he, hn⟩ := List.nodup_cons.1 hn
      have hhit := hl e List.mem_cons_self
      have hl' : ∀ e' ∈ l, cache.blobs.get e'.1 = some e'.2 := fun e' he' =>
        hl e' (List.mem_cons_of_mem _ he')
      rw [List.foldl_cons]
      by_cases hfits : cache.memBytes ≤ B
      · rw [MemCache.evict, if_pos hfits]
        exact ih hn h hl' (Or.inl hfits)
      · have hall := hrest.resolve_left hfits
        by_cases hpend : e.1 ∈ pending
        · rw [MemCache.evict, if_neg hfits, if_pos hpend]
          refine ih hn h hl' (Or.inr fun k hk => ?_)
          rcases hall k hk with hp | hm
          · exact Or.inl hp
          · rcases List.mem_cons.1 hm with rfl | hm
            · exact Or.inl hpend
            · exact Or.inr hm
        · rw [MemCache.evict, if_neg hfits, if_neg hpend]
          have hsize : cache.sizeOf e.1 = e.2.length := by rw [MemCache.sizeOf, hhit]
          refine ih hn ?_ (fun e' he' => ?_) (Or.inr fun k hk => ?_)
          · rw [Exact, total_delete, hsize, h]
          · have hne : e.1 ≠ e'.1 := fun hc => he (hc ▸ List.mem_map_of_mem he')
            rw [JsMap.get_delete_ne _ hne]
            exact hl' e' he'
          · obtain ⟨v, hv⟩ := (JsMap.mem_keys_iff _).1 hk
            rw [JsMap.get_delete] at hv
            split at hv
            · cases hv
            · rename_i hne
              refine (hall k ((JsMap.mem_keys_iff _).2 ⟨v, hv⟩)).imp_right fun hm => ?_
              exact (List.mem_cons.1 hm).resolve_left (Ne.symm hne)

theorem evictToBudget_spec (h : Exact cache) (B : Nat) (pending : List String) :
    Exact (cache.evictToBudget B pending) ∧ Settled B pending (cache.evictToBudget B pending) :=
  evict_spec _ cache.blobs.nodup h (fun _ he => (JsMap.mem_entries_iff _).1 he)
    (Or.inr fun _ hk => Or.inr hk)

theorem cacheSet_spec (h : Exact cache) (B : Nat) (pending : List String) (hash : String)
    (content : Bytes) : Exact (cache.cacheSet B pending hash content) ∧
      Settled B pending (cache.cacheSet B pending hash content) := by
  refine evictToBudget_spec ?_ B pending
  rw [Exact, total_set, h]

end Cache

section Tasks

variable {P : Platform} {B : Nat} {k : Nat} {α : Type}

/-- The counter is exact, the cache fits its budget unless all of it is pending, and what is
pending is in the buffer. -/
structure Accounted (B : Nat) (s : ContentStore) : Prop where
  exact : Exact s.memCache
  settled : Settled B s.pending s.memCache
  buffered : ∀ h ∈ s.pending, h ∈ s.packBuffer.map Prod.fst

def Account (B : Nat) (s : State) : Prop := Accounted B s.store

theorem keeps_onStore {f : ContentStore → ContentStore}
    (h : ∀ s, Accounted B s → Accounted B (f s)) : Keeps (Account B) (onStore f) :=
  keeps_modify fun s hs => h s.store hs

theorem keeps_fileCall {t : Async α} (h : Keeps (Account B) t) : Keeps (Account B) (fileCall t) :=
  keeps_bind keeps_pause fun _ => keeps_bind h fun a => keeps_bind keeps_pause fun _ => keeps_pure a

/-- A write to the files, the index or the record of the tasks alone. -/
theorem keeps_beside {f : State → State} (hcache : ∀ s, (f s).store.memCache = s.store.memCache)
    (hpending : ∀ s, (f s).store.pending = s.store.pending)
    (hbuffer : ∀ s, (f s).store.packBuffer = s.store.packBuffer) :
    Keeps (Account B) (modify f : Async Unit) := by
  refine keeps_modify fun s hs => ⟨?_, ?_, ?_⟩
  · rw [hcache]
    exact hs.exact
  · rw [hcache, hpending]
    exact hs.settled
  · rw [hpending, hbuffer]
    exact hs.buffered

theorem accounted_cacheSet {s : ContentStore} (h : Accounted B s) (hash : String)
    (content : Bytes) :
    Accounted B { s with memCache := s.memCache.cacheSet B s.pending hash content } :=
  ⟨(cacheSet_spec h.exact B s.pending hash content).1,
    (cacheSet_spec h.exact B s.pending hash content).2, h.buffered⟩

theorem accounted_drop {s : ContentStore} (h : Accounted B s) (hash : String) :
    Accounted B (ContentStore.drop s hash) :=
  ⟨exact_cacheDelete h.exact hash, settled_cacheDelete h.settled hash, h.buffered⟩

theorem accounted_foldl_drop (hashes : List String) {s : ContentStore} (h : Accounted B s) :
    Accounted B (hashes.foldl ContentStore.drop s) := by
  induction hashes generalizing s with
  | nil => exact h
  | cons hash hashes ih => exact ih (accounted_drop h hash)

theorem accounted_dropFrom (packId : Nat) (hashes : List String) {s : ContentStore}
    (h : Accounted B s) : Accounted B (ContentStore.dropFrom packId s hashes) := by
  rw [ContentStore.dropFrom]
  induction hashes generalizing s with
  | nil => exact h
  | cons hash hashes ih =>
      refine ih ?_
      unfold ContentStore.dropIfIn
      split
      · exact accounted_drop h hash
      · exact h

theorem accounted_putBuffered {s : ContentStore} (h : Accounted B s) (hash : String)
    (content : Bytes) : Accounted B (ContentStore.putBuffered B s hash content) := by
  unfold ContentStore.putBuffered
  split
  · exact h
  · obtain ⟨hexact, hsettled⟩ := cacheSet_spec h.exact B (s.pending ++ [hash]) hash content
    refine ⟨hexact, hsettled, fun x hx => ?_⟩
    rw [List.map_append, List.mem_append]
    exact (List.mem_append.1 hx).imp (h.buffered x) id

/-- A blob that is read back into the buffer; the cache is as the read left it. -/
theorem accounted_rebuffer {s : ContentStore} (h : Accounted B s) (hash : String)
    (b64 : List Char) :
    Accounted B { s with
      pending := if hash ∈ s.pending then s.pending else s.pending ++ [hash]
      packBuffer := s.packBuffer ++ [(hash, b64)] } := by
  have hmem : ∀ x, x ∈ (if hash ∈ s.pending then s.pending else s.pending ++ [hash]) ↔
      x ∈ s.pending ∨ x = hash := by
    intro x
    split
    · rename_i hp
      exact ⟨Or.inl, fun hx => hx.elim id fun he => he ▸ hp⟩
    · simp
  refine ⟨h.exact, h.settled.imp_right fun hall x hx => (hmem x).2 (Or.inl (hall x hx)),
    fun x hx => ?_⟩
  rw [List.map_append, List.mem_append]
  exact ((hmem x).1 hx).imp (h.buffered x) List.mem_singleton.2

theorem accounted_buffer {s : ContentStore} (h : Accounted B s) (blob : String × List Char) :
    Accounted B { s with packBuffer := s.packBuffer ++ [blob] } :=
  ⟨h.exact, h.settled, fun x hx => by
    rw [List.map_append, List.mem_append]
    exact Or.inl (h.buffered x hx)⟩

theorem account_clear {s : State} (h : Account B s) : Account B (State.clear B s) :=
  ⟨(evictToBudget_spec h.exact B []).1, (evictToBudget_spec h.exact B []).2,
    fun _ hx => absurd hx List.not_mem_nil⟩

theorem keeps_putBuffered (hash : String) (content : Bytes) :
    Keeps (Account B) (putBuffered B hash content) := by
  refine keeps_modify fun s hs => ?_
  change Accounted B (ite _ _ _ : State).store
  split
  · exact hs
  · exact accounted_putBuffered hs hash content

theorem keeps_flushPack : Keeps (Account B) (flushPack B k) := by
  refine keeps_get fun s => keeps_ite (keeps_pure ()) ?_
  refine keeps_bind (keeps_beside (fun _ => rfl) (fun _ => rfl) fun _ => rfl) fun _ => ?_
  refine keeps_bind keeps_pause fun _ => ?_
  refine keeps_bind (keeps_fileCall (keeps_beside (fun _ => rfl) (fun _ => rfl) fun _ => rfl))
    fun _ => ?_
  refine keeps_bind (keeps_fileCall (keeps_beside (fun _ => rfl) (fun _ => rfl) fun _ => rfl))
    fun _ => ?_
  exact keeps_modify fun t ht => account_clear ht

theorem keeps_readPack (packId : Nat) : Keeps (Account B) (readPack packId) :=
  keeps_fileCall (keeps_get fun _ => keeps_pure _)

theorem keeps_cacheBlob (packId : Nat) (pack : List Char) (hash : String) (found : Option Bytes)
    (h : String) : Keeps (Account B) (cacheBlob P B packId pack hash found h) := by
  refine keeps_get fun s => ?_
  split
  · exact keeps_pure found
  · refine keeps_ite (keeps_pure found) (keeps_ite (keeps_pure found) ?_)
    split
    · exact keeps_throw ()
    · refine keeps_bind keeps_pause fun _ => keeps_ite ?_ (keeps_pure found)
      exact keeps_bind (keeps_onStore fun s hs => accounted_cacheSet hs h _) fun _ => keeps_pure _

theorem keeps_getFromPack (hash : String) : Keeps (Account B) (getFromPack P B hash) := by
  refine keeps_get fun s => ?_
  split
  · exact keeps_pure none
  · refine keeps_bind (keeps_readPack _) fun pack => ?_
    split
    · exact keeps_pure none
    · exact keeps_get fun s => keeps_foldM (fun found h => keeps_cacheBlob _ _ hash found h) _ _

/-- A hit touches what it has just found, so the rule for a read that forgets the state is not
enough. -/
theorem keeps_read (hash : String) : Keeps (Account B) (PackTasks.get P B hash) := by
  apply keeps_from
  intro s hs
  cases hget : s.store.memCache.blobs.get hash with
  | some cached =>
      have htouch : Account B { s with
          store := { s.store with memCache := s.store.memCache.touch hash cached }
          deed := .plain } :=
        ⟨exact_touch hs.exact hget, settled_touch hs.settled hget, hs.buffered⟩
      exact ⟨htouch, htouch⟩
  | none => exact keeps_getFromPack hash s hs

theorem keeps_rewriteIndex : Keeps (Account B) (rewriteIndex k) :=
  keeps_get fun _ => keeps_fileCall (keeps_beside (fun _ => rfl) (fun _ => rfl) fun _ => rfl)

theorem keeps_delete (hash : String) : Keeps (Account B) (delete k hash) :=
  keeps_get fun _ => keeps_bind (keeps_onStore fun _ hs => accounted_drop hs hash) fun _ =>
    keeps_ite keeps_rewriteIndex (keeps_pure ())

theorem keeps_remove (packId : Nat) : Keeps (Account B) (remove k packId) :=
  keeps_fileCall (keeps_beside (fun _ => rfl) (fun _ => rfl) fun _ => rfl)

theorem keeps_retire (packId : Nat) (hashes : List String) :
    Keeps (Account B) (retire k packId hashes) :=
  keeps_bind (keeps_remove packId) fun _ =>
    keeps_onStore fun _ hs => accounted_foldl_drop hashes hs

theorem keeps_rebuffer (packId : Nat) (hash : String) :
    Keeps (Account B) (rebuffer P B packId hash) := by
  refine keeps_bind (keeps_read hash) fun bytes => keeps_bind keeps_pause fun _ => ?_
  split
  · exact keeps_modify fun _ hs => hs
  · exact keeps_modify fun _ hs => accounted_rebuffer hs hash _

theorem keeps_compactPack (keepHashes : List String) (packId : Nat) :
    Keeps (Account B) (compactPack P B k keepHashes packId) := by
  refine keeps_get fun s => ?_
  refine keeps_bind (keeps_forEach (fun hash => keeps_rebuffer packId hash) _) fun _ => ?_
  refine keeps_bind keeps_flushPack fun _ => keeps_bind keeps_pause fun _ => ?_
  exact keeps_bind (keeps_remove packId) fun _ =>
    keeps_onStore fun _ hs => accounted_dropFrom packId _ hs

theorem keeps_gc (keepHashes : List String) (aged : Nat → Bool) :
    Keeps (Account B) (gc P B k keepHashes aged) := by
  have hpack : ∀ members g packId,
      Keeps (Account B) (gcPack k keepHashes aged members g packId) := by
    intro members g packId
    refine keeps_bind (keeps_fileCall (keeps_get fun _ => keeps_pure _)) fun old => ?_
    refine keeps_ite (keeps_pure g) (keeps_ite ?_ (keeps_ite (keeps_pure _) (keeps_pure g)))
    exact keeps_bind (keeps_retire packId _) fun _ => keeps_pure _
  refine keeps_get fun s => keeps_bind (keeps_foldM (hpack _) _ _) fun g => ?_
  refine keeps_bind (keeps_forEach (fun packId => ?_) _) fun _ =>
    keeps_ite keeps_rewriteIndex (keeps_pure ())
  exact keeps_bind (keeps_compactPack keepHashes packId) fun _ => keeps_pause

theorem keeps_flushAndRetireDeferred (members : Nat → List String) (pendingRemoval : List Nat) :
    Keeps (Account B) (flushAndRetireDeferred B k members pendingRemoval) := by
  refine keeps_get fun s => keeps_ite (keeps_pure ()) ?_
  refine keeps_bind keeps_flushPack fun _ => keeps_bind keeps_pause fun _ => ?_
  refine keeps_forEach (fun oldId => ?_) _
  exact keeps_bind (keeps_remove oldId) fun _ =>
    keeps_onStore fun _ hs => accounted_dropFrom oldId _ hs

theorem keeps_mergeBlob (keepHashes : List String) (packId : Nat) (packText : List Char)
    (hash : String) : Keeps (Account B) (mergeBlob P keepHashes packId packText hash) := by
  refine keeps_get fun s => ?_
  split
  · exact keeps_pure ()
  · refine keeps_ite (keeps_pure ()) (keeps_ite (keeps_pure ()) (keeps_ite (keeps_pure ()) ?_))
    split
    · exact keeps_throw ()
    · refine keeps_bind keeps_pause fun _ => keeps_ite ?_ (keeps_pure ())
      exact keeps_modify fun _ hs => accounted_buffer hs _

theorem keeps_mergePack (keepHashes : List String) (flushEvery : Nat)
    (members : Nat → List String) (pendingRemoval : List Nat) (packId : Nat) :
    Keeps (Account B) (mergePack P B k keepHashes flushEvery members pendingRemoval packId) := by
  refine keeps_bind (keeps_readPack packId) fun packText => ?_
  split
  · exact keeps_pure _
  · refine keeps_bind (keeps_forEach (fun hash => keeps_mergeBlob keepHashes packId _ hash) _)
      fun _ => keeps_get fun s => keeps_ite ?_ (keeps_pure _)
    exact keeps_bind (keeps_flushAndRetireDeferred members _) fun _ =>
      keeps_bind keeps_pause fun _ => keeps_pure _

theorem keeps_consolidatePacks (keepHashes : List String) (smallPackThreshold flushEvery : Nat) :
    Keeps (Account B) (consolidatePacks P B k keepHashes smallPackThreshold flushEvery) := by
  refine keeps_get fun s => ?_
  refine keeps_bind (keeps_forEach (fun packId => keeps_retire packId _) _) fun _ => ?_
  refine keeps_bind (keeps_foldM (keeps_mergePack keepHashes flushEvery _) _ _) fun pending => ?_
  refine keeps_bind (keeps_flushAndRetireDeferred _ pending) fun _ => ?_
  refine keeps_bind keeps_pause fun _ => keeps_bind (keeps_forEach (fun packId => ?_) _) fun _ =>
    keeps_ite (keeps_pure ()) keeps_rewriteIndex
  exact keeps_bind (keeps_compactPack keepHashes packId) fun _ => keeps_pause

end Tasks

section Runs

/-- A call on the content store, under whatever hash its caller gives. -/
inductive Operation
  | put (hash : String) (content : Bytes)
  | putBuffered (hash : String) (content : Bytes)
  | flushPack
  | get (hash : String)
  | delete (hash : String)
  | gc (keepHashes : List String) (aged : Nat → Bool)
  | consolidatePacks (keepHashes : List String) (smallPackThreshold flushEvery : Nat)
  | clearMemCache

variable (P : Platform) (B : Nat)

def perform : Operation → Async Unit
  | .put hash content => do
      PackTasks.putBuffered B hash content
      pause
      PackTasks.flushPack B 0
  | .putBuffered hash content => PackTasks.putBuffered B hash content
  | .flushPack => PackTasks.flushPack B 0
  | .get hash => do
      let _ ← PackTasks.get P B hash
      pure ()
  | .delete hash => PackTasks.delete 0 hash
  | .gc keepHashes aged => PackTasks.gc P B 0 keepHashes aged
  | .consolidatePacks keepHashes smallPackThreshold flushEvery =>
      PackTasks.consolidatePacks P B 0 keepHashes smallPackThreshold flushEvery
  | .clearMemCache => onStore ContentStore.clearMemCache

/-- The store as the plugin opens it on what is on the disk. -/
def opened (disk : ContentStore) : State := ⟨disk.init, .empty, [], [], [], .plain⟩

/-- One call after the other. A call ends where it returns or throws, or at the `await` at which
a file operation of its own fails. -/
inductive Reachable (disk : ContentStore) : State → Prop
  | opened : Reachable disk (opened disk)
  | call {s t : State} (op : Operation) (h : Reachable disk s) (ht : Passes (perform P B op) s t) :
      Reachable disk t

variable {P B}

theorem accounted_empty (s : ContentStore) (h : ∀ x ∈ s.pending, x ∈ s.packBuffer.map Prod.fst) :
    Accounted B { s with memCache := .empty } :=
  ⟨rfl, Or.inl (Int.natCast_nonneg B), h⟩

theorem keeps_perform (op : Operation) : Keeps (Account B) (perform P B op) := by
  cases op with
  | put hash content =>
      exact keeps_bind (keeps_putBuffered hash content) fun _ =>
        keeps_bind keeps_pause fun _ => keeps_flushPack
  | putBuffered hash content => exact keeps_putBuffered hash content
  | flushPack => exact keeps_flushPack
  | get hash => exact keeps_bind (keeps_read hash) fun _ => keeps_pure ()
  | delete hash => exact keeps_delete hash
  | gc keepHashes aged => exact keeps_gc keepHashes aged
  | consolidatePacks keepHashes smallPackThreshold flushEvery =>
      exact keeps_consolidatePacks keepHashes smallPackThreshold flushEvery
  | clearMemCache => exact keeps_onStore fun s hs => accounted_empty s hs.buffered

theorem account_of_reachable {disk : ContentStore} {s : State} (h : Reachable P B disk s) :
    Account B s := by
  induction h with
  | opened => exact accounted_empty disk.init fun _ hx => absurd hx List.not_mem_nil
  | call op _ ht ih => exact (keeps_perform op).passes ih ht

/-- In every state of every run the counter is the sum of the cached lengths, and the cache fits
its budget unless all it holds is buffered and still to be flushed. -/
theorem memBytes_exact {disk : ContentStore} {s : State} (h : Reachable P B disk s) :
    s.store.memCache.memBytes =
        (s.store.memCache.blobs.entries.map fun e => (e.2.length : Int)).sum ∧
      (s.store.memCache.memBytes ≤ B ∨ ∀ hash ∈ s.store.memCache.blobs.keys,
        hash ∈ s.store.pending ∧ hash ∈ s.store.packBuffer.map Prod.fst) := by
  have hs := account_of_reachable h
  exact ⟨hs.exact, hs.settled.imp_right fun hall x hx => ⟨hall x hx, hs.buffered x (hall x hx)⟩⟩

/-- Two blobs are put and flushed in turn, and the first one is read back: the cache holds it alone. -/
theorem memBytes_exact_readBack : ∃ s, Reachable asciiPlatform 1 .empty s ∧
    s.store.memCache.memBytes = 1 ∧ s.store.memCache.blobs.keys = ["A"] ∧
    s.store.memCache.memBytes =
        (s.store.memCache.blobs.entries.map fun e => (e.2.length : Int)).sum ∧
      (s.store.memCache.memBytes ≤ (1 : Nat) ∨ ∀ hash ∈ s.store.memCache.blobs.keys,
        hash ∈ s.store.pending ∧ hash ∈ s.store.packBuffer.map Prod.fst) := by
  have hfirst : Reachable asciiPlatform 1 .empty _ :=
    .call (.putBuffered "A" [65]) .opened (passes_of_run rfl)
  have hflushed : Reachable asciiPlatform 1 .empty _ := .call .flushPack hfirst (passes_of_run rfl)
  have hsecond : Reachable asciiPlatform 1 .empty _ :=
    .call (.putBuffered "B" [66]) hflushed (passes_of_run rfl)
  have hboth : Reachable asciiPlatform 1 .empty _ := .call .flushPack hsecond (passes_of_run rfl)
  have hread : Reachable asciiPlatform 1 .empty _ := .call (.get "A") hboth (passes_of_run rfl)
  exact ⟨_, hread, rfl, rfl, memBytes_exact hread⟩

end Runs

end OpsBlobs.MemAccount
