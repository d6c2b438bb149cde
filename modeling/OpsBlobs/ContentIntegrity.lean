import OpsBlobs.PackedContent

namespace OpsBlobs.ContentIntegrity

open Base64 Types PackedContent

variable (P : Platform) (B : Nat)

/-- The store looks the blob up in a pack that holds these bytes. -/
def Stores (s : ContentStore) (hash : String) (bytes : Bytes) : Prop :=
  ∃ loc pack, s.index.get hash = some loc ∧ s.packs.get loc.packId = some pack ∧
    ContentStore.extract P pack hash loc = some (some bytes)

/-- What the store will look up once the buffer is flushed. -/
def Settled (s : ContentStore) (hash : String) (bytes : Bytes) : Prop :=
  match (JsMap.ofList s.packBuffer).get hash with
  | some b64 => base64ToUint8 b64 = some bytes
  | none => Stores P s hash bytes

/-- Every indexed blob reads back, every cached one is that of its pack or of the buffer,
every buffered one hashes back, and new packs have new numbers. -/
structure Intact (s : ContentStore) : Prop where
  indexed : ∀ hash loc, s.index.get hash = some loc → ∃ bytes, Stores P s hash bytes
  cached : ∀ hash bytes, s.memCache.blobs.get hash = some bytes → Settled P s hash bytes
  buffered : ∀ hash b64, (hash, b64) ∈ s.packBuffer →
    ∃ bytes, base64ToUint8 b64 = some bytes ∧ P.sha256Hex bytes = hash
  numbered : ∀ packId, s.packs.has packId = true → packId < s.nextPackId

/-- The buffered blobs are copies of stored ones. -/
def Moving (s : ContentStore) : Prop :=
  ∀ hash b64, (hash, b64) ∈ s.packBuffer →
    ∃ bytes, base64ToUint8 b64 = some bytes ∧ Stores P s hash bytes

/-- The index file has a line for each entry of the index, and later lines win. -/
def Mirrored (s : ContentStore) : Prop :=
  ∀ hash, (JsMap.ofList s.indexFile).get hash = s.index.get hash

/-- Between two calls nothing is buffered. -/
structure AtRest (s : ContentStore) : Prop where
  intact : Intact P s
  flushed : s.packBuffer = []
  mirrored : Mirrored s

variable {P B} {s s' : ContentStore} {hash : String} {bytes : Bytes}

section Cache

variable {cache : MemCache} {pending : List String} {k : String} {b : Bytes}

theorem get_of_evict {e : String × Bytes}
    (h : (cache.evict B pending e).blobs.get k = some b) : cache.blobs.get k = some b := by
  rw [MemCache.evict] at h
  split at h
  · exact h
  · split at h
    · exact h
    · rw [JsMap.get_delete] at h
      split at h
      · cases h
      · exact h

theorem get_of_evictToBudget (h : (cache.evictToBudget B pending).blobs.get k = some b) :
    cache.blobs.get k = some b := by
  rw [MemCache.evictToBudget] at h
  generalize cache.blobs.entries = l at h
  induction l generalizing cache with
  | nil => exact h
  | cons e l ih => exact get_of_evict (ih h)

theorem get_renewed (m : JsMap String Bytes) (hash k : String) (content : Bytes) :
    ((m.delete hash).set hash content).get k = if hash = k then some content else m.get k := by
  rw [JsMap.get_set]
  split
  · rfl
  · rename_i hne
    exact JsMap.get_delete_ne m hne

theorem get_of_cacheSet (h : (cache.cacheSet B pending hash bytes).blobs.get k = some b) :
    hash = k ∧ bytes = b ∨ cache.blobs.get k = some b := by
  have h := get_of_evictToBudget h
  rw [get_renewed] at h
  split at h
  · rename_i he
    exact Or.inl ⟨he, Option.some.inj h⟩
  · exact Or.inr h

theorem get_touch (hhit : cache.blobs.get hash = some bytes) :
    (cache.touch hash bytes).blobs.get k = cache.blobs.get k := by
  rw [MemCache.touch, get_renewed]
  split
  · rename_i he
    rw [← he, hhit]
  · rfl

end Cache

section Stored

theorem stores_inj {b : Bytes} (h : Stores P s hash bytes) (h' : Stores P s hash b) :
    bytes = b := by
  obtain ⟨loc, pack, hloc, hpack, he⟩ := h
  obtain ⟨loc', pack', hloc', hpack', he'⟩ := h'
  obtain rfl := Option.some.inj (hloc.symm.trans hloc')
  obtain rfl := Option.some.inj (hpack.symm.trans hpack')
  exact Option.some.inj (Option.some.inj (he.symm.trans he'))

/-- Only the index and the packs decide. -/
theorem stores_congr (hindex : s'.index = s.index) (hpacks : s'.packs = s.packs) :
    Stores P s' hash bytes ↔ Stores P s hash bytes := by
  rw [Stores, Stores, hindex, hpacks]

theorem hash_of_extract {pack : List Char} {loc : PackLoc}
    (h : ContentStore.extract P pack hash loc = some (some bytes)) :
    P.sha256Hex bytes = hash ∧ base64ToUint8 (substr pack loc.offset loc.len) = some bytes := by
  simp only [ContentStore.extract] at h
  split at h
  · cases h
  · split at h
    · cases h
    · rename_i content hb
      have h := Option.some.inj h
      split at h
      · rename_i hhash
        obtain rfl := Option.some.inj h
        exact ⟨hhash, hb⟩
      · cases h

theorem settled_nil (h : s.packBuffer = []) : Settled P s hash bytes ↔ Stores P s hash bytes := by
  rw [Settled, h]
  rfl

theorem settled_moving (hm : Moving P s) : Settled P s hash bytes ↔ Stores P s hash bytes := by
  rw [Settled]
  cases h : (JsMap.ofList s.packBuffer).get hash with
  | none => rfl
  | some b64 =>
      obtain ⟨b, hb, hstored⟩ := hm hash b64 (JsMap.mem_of_get_ofList h)
      simp only [hb, Option.some.injEq]
      constructor
      · rintro rfl
        exact hstored
      · exact fun h => stores_inj hstored h

theorem moving_nil (h : s.packBuffer = []) : Moving P s := by
  intro hash b64 hmem
  rw [h] at hmem
  cases hmem

theorem indexed_of_stores (h : Stores P s hash bytes) : s.index.has hash = true := by
  obtain ⟨loc, -, hloc, -⟩ := h
  exact (JsMap.has_iff _ _).2 ⟨loc, hloc⟩

theorem stores_of_indexed (hi : Intact P s) (h : s.index.has hash = true) :
    ∃ bytes, Stores P s hash bytes := by
  obtain ⟨loc, hloc⟩ := (JsMap.has_iff _ _).1 h
  exact hi.indexed hash loc hloc

theorem packId_lt (hi : Intact P s) {loc : PackLoc} (h : s.index.get hash = some loc) :
    loc.packId < s.nextPackId := by
  obtain ⟨bytes, loc', pack, hloc, hpack, -⟩ := hi.indexed hash loc h
  obtain rfl := Option.some.inj (h.symm.trans hloc)
  exact hi.numbered _ ((JsMap.has_iff _ _).2 ⟨pack, hpack⟩)

/-- A smaller cache changes nothing. -/
theorem intact_cache (hi : Intact P s) {cache : MemCache}
    (h : ∀ k b, cache.blobs.get k = some b → Settled P s k b) :
    Intact P { s with memCache := cache } :=
  ⟨hi.indexed, h, hi.buffered, hi.numbered⟩

end Stored

section Read

variable {pack : List Char} {packId : Nat}

variable {C : String → Bytes → Prop}

/-- No place in the index makes a read throw. -/
def Decodes (P : Platform) (s : ContentStore) : Prop :=
  ∀ hash loc pack, s.index.get hash = some loc → s.packs.get loc.packId = some pack →
    ∃ found, ContentStore.extract P pack hash loc = some found

theorem decodes_of_intact (hi : Intact P s) : Decodes P s := by
  intro hash loc pack hloc hpack
  obtain ⟨bytes, loc', pack', hloc', hpack', hx⟩ := hi.indexed hash loc hloc
  obtain rfl := Option.some.inj (hloc.symm.trans hloc')
  obtain rfl := Option.some.inj (hpack.symm.trans hpack')
  exact ⟨_, hx⟩

/-- Reading a pack for one of its blobs: what the loop over the index has found. -/
structure Reading (C : String → Bytes → Prop) (hash : String) (answer : Option Bytes)
    (read : Option Bytes × MemCache) (rest : List (String × PackLoc)) : Prop where
  cached : ∀ k b, read.2.blobs.get k = some b → C k b
  found : read.1 = answer ∨
    (∃ loc, (hash, loc) ∈ rest) ∧ read.1 = none ∧ read.2.blobs.get hash = none

theorem reading_cacheBlob (hdec : Decodes P s) (hC : ∀ k b, Stores P s k b → C k b)
    {loc : PackLoc} (hloc : s.index.get hash = some loc)
    (hpack : s.packs.get loc.packId = some pack)
    {answer : Option Bytes} (hx : ContentStore.extract P pack hash loc = some answer)
    {e : String × PackLoc} {rest : List (String × PackLoc)} (he : s.index.get e.1 = some e.2)
    {read : Option Bytes × MemCache} (h : Reading C hash answer read (e :: rest)) :
    ∃ read', ContentStore.cacheBlob P B s pack loc.packId hash read e = some read' ∧
      Reading C hash answer read' rest := by
  obtain ⟨k, loc'⟩ := e
  dsimp only at he
  have hlater : k ≠ hash → (∃ loc, (hash, loc) ∈ (k, loc') :: rest) →
      ∃ loc, (hash, loc) ∈ rest := by
    rintro hne ⟨l, hmem⟩
    refine ⟨l, (List.mem_cons.1 hmem).resolve_left ?_⟩
    rintro ⟨⟩
    exact hne rfl
  rw [ContentStore.cacheBlob]
  by_cases hskip : loc'.packId ≠ loc.packId ∨ read.2.blobs.has k = true
  · refine ⟨read, if_pos hskip, h.cached, h.found.imp_right ?_⟩
    rintro ⟨hmem, hnone, hmiss⟩
    refine ⟨hlater ?_ hmem, hnone, hmiss⟩
    rintro rfl
    obtain rfl := Option.some.inj (hloc.symm.trans he)
    rcases hskip with hne | hhas
    · exact hne rfl
    · rw [JsMap.has, hmiss] at hhas
      cases hhas
  · obtain ⟨hid, hmiss⟩ := not_or.1 hskip
    have hpack' : s.packs.get loc'.packId = some pack := (not_not.1 hid).symm ▸ hpack
    obtain ⟨found, hfound⟩ := hdec k loc' pack he hpack'
    rw [if_neg hskip, hfound]
    by_cases heq : k = hash
    · subst heq
      obtain rfl := Option.some.inj (hloc.symm.trans he)
      obtain rfl := Option.some.inj (hx.symm.trans hfound)
      cases answer with
      | none =>
          refine ⟨read, rfl, h.cached, Or.inl ?_⟩
          exact h.found.elim id fun hlate => hlate.2.1
      | some b =>
          refine ⟨_, rfl, fun k' c hk => ?_, Or.inl (if_pos rfl)⟩
          rcases get_of_cacheSet hk with ⟨rfl, rfl⟩ | hk
          · exact hC _ _ ⟨loc, pack, hloc, hpack, hx⟩
          · exact h.cached k' c hk
    · cases found with
      | none =>
          exact ⟨read, rfl, h.cached, h.found.imp_right fun hlate => ⟨hlater heq hlate.1, hlate.2⟩⟩
      | some b =>
          refine ⟨_, rfl, fun k' c hk => ?_, ?_⟩
          · rcases get_of_cacheSet hk with ⟨rfl, rfl⟩ | hk
            · exact hC _ _ ⟨loc', pack, he, hpack', hfound⟩
            · exact h.cached k' c hk
          · dsimp only
            rw [if_neg heq]
            refine h.found.imp_right fun hlate => ⟨hlater heq hlate.1, hlate.2.1, ?_⟩
            cases hc : (read.2.cacheSet B s.pending k b).blobs.get hash with
            | none => rfl
            | some c =>
                rcases get_of_cacheSet hc with ⟨he', -⟩ | hc
                · exact absurd he' heq
                · exact absurd (hlate.2.2.symm.trans hc) nofun

/-- A read of a blob that is not cached answers with what its pack holds, and caches nothing
but that. -/
theorem getFromPack_cases (hdec : Decodes P s) (hC : ∀ k b, Stores P s k b → C k b)
    (hcached : ∀ k b, s.memCache.blobs.get k = some b → C k b)
    (hmiss : s.memCache.blobs.get hash = none) :
    ∃ found cache, ContentStore.getFromPack P B s hash = some (found, cache) ∧
      (∀ bytes, found = some bytes ↔ Stores P s hash bytes) ∧
      ∀ k b, cache.blobs.get k = some b → C k b := by
  rw [ContentStore.getFromPack]
  cases hloc : s.index.get hash with
  | none =>
      refine ⟨none, s.memCache, rfl, fun b => iff_of_false nofun ?_, hcached⟩
      rintro ⟨loc, -, hl, -⟩
      cases hloc.symm.trans hl
  | some loc =>
      dsimp only
      cases hpack : s.packs.get loc.packId with
      | none =>
          refine ⟨none, s.memCache, rfl, fun b => iff_of_false nofun ?_, hcached⟩
          rintro ⟨l, pack, hl, hp, -⟩
          obtain rfl := Option.some.inj (hloc.symm.trans hl)
          cases hpack.symm.trans hp
      | some pack =>
          dsimp only
          obtain ⟨answer, hx⟩ := hdec hash loc pack hloc hpack
          have hfold : ∀ (rest : List (String × PackLoc)) (read : Option Bytes × MemCache),
              (∀ e ∈ rest, s.index.get e.1 = some e.2) → Reading C hash answer read rest →
              ∃ read', rest.foldlM (ContentStore.cacheBlob P B s pack loc.packId hash) read =
                some read' ∧ Reading C hash answer read' [] := by
            intro rest
            induction rest with
            | nil => exact fun read _ h => ⟨read, rfl, h⟩
            | cons e rest ih =>
                intro read hrest h
                obtain ⟨read₁, hstep, h₁⟩ := reading_cacheBlob (B := B) hdec hC hloc hpack hx
                  (hrest e List.mem_cons_self) h
                obtain ⟨read', hrun, h'⟩ :=
                  ih read₁ (fun e' he' => hrest e' (List.mem_cons_of_mem _ he')) h₁
                refine ⟨read', ?_, h'⟩
                rw [List.foldlM_cons, hstep]
                exact hrun
          obtain ⟨⟨found, cache⟩, hrun, h⟩ := hfold s.index.entries (s.memCache.blobs.get hash,
            s.memCache) (fun e he => (JsMap.mem_entries_iff _).1 he)
            ⟨hcached, Or.inr ⟨⟨loc, (JsMap.mem_entries_iff _).2 hloc⟩, hmiss, hmiss⟩⟩
          have hfound : found = answer := h.found.resolve_right fun h => by
            obtain ⟨⟨loc', hmem⟩, -⟩ := h
            cases hmem
          refine ⟨found, cache, hrun, fun b => ?_, h.cached⟩
          rw [hfound]
          constructor
          · rintro rfl
            exact ⟨loc, pack, hloc, hpack, hx⟩
          · rintro ⟨l, p, hl, hp, hxl⟩
            obtain rfl := Option.some.inj (hloc.symm.trans hl)
            obtain rfl := Option.some.inj (hpack.symm.trans hp)
            exact Option.some.inj (hx.symm.trans hxl)

/-- A read answers from the cache or else from the packs, and caches nothing but that. -/
theorem get_cases (hdec : Decodes P s) (hC : ∀ k b, Stores P s k b → C k b)
    (hcached : ∀ k b, s.memCache.blobs.get k = some b → C k b) (hash : String) :
    ∃ found cache, ContentStore.get P B s hash = some (found, cache) ∧
      (∀ bytes, found = some bytes ↔ s.memCache.blobs.get hash = some bytes ∨
        s.memCache.blobs.get hash = none ∧ Stores P s hash bytes) ∧
      ∀ k b, cache.blobs.get k = some b → C k b := by
  rw [ContentStore.get]
  cases hhit : s.memCache.blobs.get hash with
  | some bytes =>
      refine ⟨some bytes, s.memCache.touch hash bytes, rfl, ?_, ?_⟩
      · exact fun b => ⟨Or.inl, fun h => h.elim id fun h => by cases h.1⟩
      · intro k b h
        rw [get_touch hhit] at h
        exact hcached k b h
  | none =>
      obtain ⟨found, cache, hrun, hfound, hcache⟩ :=
        getFromPack_cases (B := B) hdec hC hcached hhit
      refine ⟨found, cache, hrun, fun b => (hfound b).trans ?_, hcache⟩
      exact ⟨fun h => Or.inr ⟨rfl, h⟩, fun h => h.elim (fun h => by cases h) And.right⟩

/-- A read answers with what is stored, and caches no other bytes. -/
theorem get_spec (hi : Intact P s) (hm : Moving P s) (hash : String) :
    ∃ found cache, ContentStore.get P B s hash = some (found, cache) ∧
      (∀ bytes, found = some bytes ↔ Stores P s hash bytes) ∧
      ∀ k b, cache.blobs.get k = some b → Stores P s k b := by
  have hcached : ∀ k b, s.memCache.blobs.get k = some b → Stores P s k b :=
    fun k b h => (settled_moving hm).1 (hi.cached k b h)
  obtain ⟨found, cache, hrun, hfound, hcache⟩ :=
    get_cases (B := B) (decodes_of_intact hi) (fun _ _ h => h) hcached hash
  refine ⟨found, cache, hrun, fun bytes => (hfound bytes).trans ?_, hcache⟩
  cases hhit : s.memCache.blobs.get hash with
  | none => simp
  | some b =>
      have hb := hcached hash b hhit
      simp only [Option.some.injEq, reduceCtorEq, false_and, or_false]
      exact ⟨fun h => h ▸ hb, stores_inj hb⟩

end Read

section Flush

open ContentStore (Flush addBlob header)

/-- The text lies in the body at this place. -/
def LiesAt (body : List Char) (loc : PackLoc) (b64 : List Char) : Prop :=
  ∃ before after, body = before ++ b64 ++ after ∧ loc.offset = before.length ∧
    loc.len = b64.length

theorem liesAt_append {body b64 : List Char} {loc : PackLoc} (h : LiesAt body loc b64)
    (more : List Char) : LiesAt (body ++ more) loc b64 := by
  obtain ⟨before, after, rfl, hoffset, hlen⟩ := h
  exact ⟨before, after ++ more, by rw [List.append_assoc], hoffset, hlen⟩

theorem substr_of_liesAt {body b64 : List Char} {loc : PackLoc} (h : LiesAt body loc b64) :
    substr body loc.offset loc.len = b64 := by
  obtain ⟨before, after, rfl, hoffset, hlen⟩ := h
  rw [substr, hoffset, hlen, List.append_assoc, List.drop_left, List.take_left]

theorem extract_of_liesAt {body b64 : List Char} {loc : PackLoc} (h : LiesAt body loc b64)
    (hb : base64ToUint8 b64 = some bytes) (hhash : P.sha256Hex bytes = hash) :
    ContentStore.extract P body hash loc = some (some bytes) := by
  have hlen : b64.length = loc.len := by
    obtain ⟨before, after, -, -, hlen⟩ := h
    exact hlen.symm
  simp only [ContentStore.extract, substr_of_liesAt h, hlen, ne_eq, not_true_eq_false, if_false,
    hb, hhash, if_true]

/-- What the loop over the buffer has built from the blobs so far. -/
structure Built (index : JsMap String PackLoc) (packId : Nat) (blobs : List (String × List Char))
    (f : Flush) : Prop where
  delta : f.index = f.idxDelta.foldl (fun m e => m.set e.1 e.2) index
  packed : ∀ hash b64, (JsMap.ofList blobs).get hash = some b64 →
    ∃ loc, f.index.get hash = some loc ∧ loc.packId = packId ∧ LiesAt f.packBody loc b64
  other : ∀ hash, (JsMap.ofList blobs).get hash = none → f.index.get hash = index.get hash

theorem built_addBlob {index : JsMap String PackLoc} {packId : Nat}
    {blobs : List (String × List Char)} {f : Flush} (h : Built index packId blobs f)
    (blob : String × List Char) :
    Built index packId (blobs ++ [blob]) (addBlob packId f blob) := by
  refine ⟨?_, ?_, ?_⟩
  · rw [addBlob, List.foldl_concat, ← h.delta]
  · intro hash b64 hget
    rw [JsMap.ofList_concat, JsMap.get_set] at hget
    rw [addBlob, JsMap.get_set]
    split at hget
    · rename_i he
      rw [if_pos he]
      obtain rfl := Option.some.inj hget
      refine ⟨_, rfl, rfl, f.packBody ++ header blob.1 blob.2, ['\n'], rfl, ?_, rfl⟩
      rw [List.length_append]
    · rename_i hne
      rw [if_neg hne]
      obtain ⟨loc, hloc, hid, hlies⟩ := h.packed hash b64 hget
      refine ⟨loc, hloc, hid, ?_⟩
      dsimp only
      rw [List.append_assoc, List.append_assoc]
      exact liesAt_append hlies _
  · intro hash hget
    rw [JsMap.ofList_concat, JsMap.get_set] at hget
    split at hget
    · cases hget
    · rename_i hne
      rw [addBlob, JsMap.get_set_ne _ _ hne]
      exact h.other hash hget

theorem built_flush (index : JsMap String PackLoc) (packId : Nat)
    (blobs : List (String × List Char)) :
    Built index packId blobs (blobs.foldl (addBlob packId) ⟨[], index, []⟩) := by
  induction blobs using List.reverseRecOn with
  | nil => exact ⟨rfl, nofun, fun _ _ => rfl⟩
  | append_singleton blobs blob ih =>
      rw [List.foldl_concat]
      exact built_addBlob ih blob

/-- What a flush relies on: the buffered blobs hash back, and its pack's number is new to the
packs and to the index. -/
structure Flushable (P : Platform) (s : ContentStore) : Prop where
  buffered : ∀ hash b64, (hash, b64) ∈ s.packBuffer →
    ∃ bytes, base64ToUint8 b64 = some bytes ∧ P.sha256Hex bytes = hash
  numbered : ∀ packId, s.packs.has packId = true → packId < s.nextPackId
  named : ∀ hash loc, s.index.get hash = some loc → loc.packId < s.nextPackId

theorem flushable_of_intact (hi : Intact P s) : Flushable P s :=
  ⟨hi.buffered, hi.numbered, fun _ _ => packId_lt hi⟩

/-- Where a flush leaves the blobs: the buffered ones in the new pack, the others in theirs. -/
structure Relocated (P : Platform) (s s' : ContentStore) : Prop where
  flushable : Flushable P s'
  empty : s'.packBuffer = []
  stores : ∀ hash bytes, Stores P s' hash bytes ↔ Settled P s hash bytes
  other : ∀ hash, (JsMap.ofList s.packBuffer).get hash = none →
    s'.index.get hash = s.index.get hash
  moved : ∀ hash b64, (JsMap.ofList s.packBuffer).get hash = some b64 →
    ∃ loc, s'.index.get hash = some loc ∧ s.nextPackId ≤ loc.packId
  packs : ∀ packId, packId < s.nextPackId → s'.packs.get packId = s.packs.get packId
  next : s.nextPackId ≤ s'.nextPackId
  cached : ∀ hash bytes, s'.memCache.blobs.get hash = some bytes →
    s.memCache.blobs.get hash = some bytes

theorem relocated_nil (h : Flushable P s) (hb : s.packBuffer = []) : Relocated P s s where
  flushable := h
  empty := hb
  stores _ _ := (settled_nil hb).symm
  other _ _ := rfl
  moved hash b64 h := by
    rw [hb] at h
    cases h
  packs _ _ := rfl
  next := Nat.le_refl _
  cached _ _ h := h

theorem new_packId (h : Flushable P s) : s.packs.get s.nextPackId = none := by
  cases hp : s.packs.get s.nextPackId with
  | none => rfl
  | some pack => exact absurd (h.numbered _ ((JsMap.has_iff _ _).2 ⟨pack, hp⟩)) (lt_irrefl _)

/-- What the new pack and the index then answer for a blob. -/
theorem stores_built (h : Flushable P s) {f : Flush}
    (hbuilt : Built s.index s.nextPackId s.packBuffer f) (hash : String) (bytes : Bytes) :
    (∃ loc pack, f.index.get hash = some loc ∧
      (s.packs.set s.nextPackId f.packBody).get loc.packId = some pack ∧
        ContentStore.extract P pack hash loc = some (some bytes)) ↔ Settled P s hash bytes := by
  rw [Settled]
  cases hget : (JsMap.ofList s.packBuffer).get hash with
  | none =>
      rw [hbuilt.other hash hget]
      apply exists_congr
      intro loc
      apply exists_congr
      intro pack
      apply and_congr_right
      intro hloc
      rw [JsMap.get_set_ne _ _ (Nat.ne_of_gt (h.named hash loc hloc))]
  | some b64 =>
      obtain ⟨loc, hloc, hid, hlies⟩ := hbuilt.packed hash b64 hget
      obtain ⟨b, hb64, hhash⟩ := h.buffered hash b64 (JsMap.mem_of_get_ofList hget)
      have hx := extract_of_liesAt (P := P) hlies hb64 hhash
      simp only [hloc, Option.some.injEq, hb64]
      constructor
      · rintro ⟨_, pack, rfl, hpack, he⟩
        rw [hid, JsMap.get_set_self] at hpack
        obtain rfl := Option.some.inj hpack
        exact Option.some.inj (Option.some.inj (hx.symm.trans he))
      · rintro rfl
        exact ⟨loc, f.packBody, rfl, by rw [hid, JsMap.get_set_self], hx⟩

theorem relocated_flushPack (h : Flushable P s) :
    Relocated P s (ContentStore.flushPack B s) := by
  by_cases hb : s.packBuffer = []
  · rw [ContentStore.flushPack, if_pos hb]
    exact relocated_nil h hb
  · have hbuilt := built_flush s.index s.nextPackId s.packBuffer
    rw [ContentStore.flushPack, if_neg hb]
    generalize s.packBuffer.foldl (addBlob s.nextPackId) ⟨[], s.index, []⟩ = f at hbuilt
    simp only [new_packId h, Option.getD_none, List.nil_append]
    refine ⟨⟨nofun, ?_, ?_⟩, rfl, stores_built h hbuilt, hbuilt.other, ?_, ?_, Nat.le_succ _,
      fun _ _ hk => get_of_evictToBudget hk⟩
    · intro packId hp
      obtain ⟨pack, hpack⟩ := (JsMap.has_iff _ _).1 hp
      by_cases he : s.nextPackId = packId
      · exact he ▸ Nat.lt_succ_self _
      · rw [JsMap.get_set_ne _ _ he] at hpack
        exact Nat.lt_succ_of_lt (h.numbered packId ((JsMap.has_iff _ _).2 ⟨pack, hpack⟩))
    · intro hash loc hloc
      cases hget : (JsMap.ofList s.packBuffer).get hash with
      | none => exact Nat.lt_succ_of_lt (h.named hash loc (hbuilt.other hash hget ▸ hloc))
      | some b64 =>
          obtain ⟨loc', hloc', hid, -⟩ := hbuilt.packed hash b64 hget
          obtain rfl := Option.some.inj (hloc.symm.trans hloc')
          exact hid ▸ Nat.lt_succ_self _
    · intro hash b64 hget
      obtain ⟨loc, hloc, hid, -⟩ := hbuilt.packed hash b64 hget
      exact ⟨loc, hloc, hid.ge⟩
    · exact fun packId hp => JsMap.get_set_ne _ _ (Nat.ne_of_gt hp)

theorem mirrored_flushPack (hm : Mirrored s) : Mirrored (ContentStore.flushPack B s) := by
  rw [ContentStore.flushPack]
  split
  · exact hm
  · intro hash
    have hbuilt := built_flush s.index s.nextPackId s.packBuffer
    dsimp only
    rw [JsMap.ofList, List.foldl_append, JsMap.get_foldl_set, ← JsMap.ofList, hm hash,
      hbuilt.delta, JsMap.get_foldl_set]

/-- The same for a store of which every indexed blob reads back. -/
structure Flushed (P : Platform) (s s' : ContentStore) : Prop where
  intact : Intact P s'
  empty : s'.packBuffer = []
  stores : ∀ hash bytes, Stores P s' hash bytes ↔ Settled P s hash bytes
  other : ∀ hash, (JsMap.ofList s.packBuffer).get hash = none →
    s'.index.get hash = s.index.get hash
  moved : ∀ hash b64, (JsMap.ofList s.packBuffer).get hash = some b64 →
    ∃ loc, s'.index.get hash = some loc ∧ s.nextPackId ≤ loc.packId
  packs : ∀ packId, packId < s.nextPackId → s'.packs.get packId = s.packs.get packId
  next : s.nextPackId ≤ s'.nextPackId
  mirrored : Mirrored s → Mirrored s'

theorem flushPack_spec (hi : Intact P s) : Flushed P s (ContentStore.flushPack B s) := by
  have h := relocated_flushPack (B := B) (flushable_of_intact hi)
  refine ⟨⟨?_, ?_, ?_, h.flushable.numbered⟩, h.empty, h.stores, h.other, h.moved, h.packs, h.next,
    mirrored_flushPack⟩
  · intro hash loc hloc
    cases hget : (JsMap.ofList s.packBuffer).get hash with
    | none =>
        obtain ⟨bytes, hs⟩ := hi.indexed hash loc (h.other hash hget ▸ hloc)
        refine ⟨bytes, (h.stores hash bytes).2 ?_⟩
        rw [Settled, hget]
        exact hs
    | some b64 =>
        obtain ⟨bytes, hb64, -⟩ := hi.buffered hash b64 (JsMap.mem_of_get_ofList hget)
        refine ⟨bytes, (h.stores hash bytes).2 ?_⟩
        rw [Settled, hget]
        exact hb64
  · intro hash bytes hk
    refine (settled_nil h.empty).2 ((h.stores hash bytes).2 ?_)
    exact hi.cached hash bytes (h.cached hash bytes hk)
  · exact h.flushable.buffered

end Flush

section Write

theorem intact_putBuffered (hi : Intact P s) (content : Bytes) :
    Intact P (ContentStore.putBuffered B s (P.sha256Hex content) content) := by
  rw [ContentStore.putBuffered]
  split
  · exact hi
  · rename_i hnew
    have hmiss : s.memCache.blobs.get (P.sha256Hex content) = none := by
      cases h : s.memCache.blobs.get (P.sha256Hex content) with
      | none => rfl
      | some b => exact absurd (Or.inl ((JsMap.has_iff _ _).2 ⟨b, h⟩)) hnew
    refine ⟨hi.indexed, ?_, ?_, hi.numbered⟩
    · intro hash bytes h
      rw [Settled]
      dsimp only
      rw [JsMap.ofList_concat, JsMap.get_set]
      rcases get_of_cacheSet h with ⟨rfl, rfl⟩ | h
      · rw [if_pos rfl]
        exact atob_btoa content
      · rw [if_neg]
        · exact hi.cached hash bytes h
        · rintro rfl
          cases hmiss.symm.trans h
    · intro hash b64 h
      rcases List.mem_append.1 h with h | h
      · exact hi.buffered hash b64 h
      · obtain ⟨rfl, rfl⟩ := Prod.mk.inj (List.mem_singleton.1 h)
        exact ⟨content, atob_btoa content, rfl⟩

theorem mirrored_putBuffered (hm : Mirrored s) (content : Bytes) :
    Mirrored (ContentStore.putBuffered B s hash content) := by
  rw [ContentStore.putBuffered]
  split
  · exact hm
  · exact hm

theorem atRest_flushPack (hi : Intact P s) (hm : Mirrored s) :
    AtRest P (ContentStore.flushPack B s) :=
  have h := flushPack_spec (B := B) hi
  ⟨h.intact, h.empty, h.mirrored hm⟩

theorem atRest_putAll (h : AtRest P s) (contents : List Bytes) :
    AtRest P (ContentStore.flushPack B (contents.foldl (fun s content =>
      ContentStore.putBuffered B s (P.sha256Hex content) content) s)) := by
  obtain ⟨hi, -, hm⟩ := h
  induction contents generalizing s with
  | nil => exact atRest_flushPack hi hm
  | cons content contents ih =>
      exact ih (intact_putBuffered hi content) (mirrored_putBuffered hm content)

end Write

section Restart

theorem lt_numbering (ids : List Nat) (next : Nat) :
    next ≤ ids.foldl (fun next id => max next (id + 1)) next ∧
      ∀ id ∈ ids, id < ids.foldl (fun next id => max next (id + 1)) next := by
  induction ids generalizing next with
  | nil => exact ⟨Nat.le_refl _, nofun⟩
  | cons id ids ih =>
      obtain ⟨hnext, hids⟩ := ih (max next (id + 1))
      refine ⟨(Nat.le_max_left _ _).trans hnext, ?_⟩
      intro id' hid'
      rcases List.mem_cons.1 hid' with rfl | hid'
      · exact (Nat.le_max_right _ _).trans hnext
      · exact hids id' hid'

theorem atRest_init (h : AtRest P s) : AtRest P (ContentStore.init s) := by
  have hstores : ∀ hash bytes, Stores P s hash bytes →
      Stores P (ContentStore.init s) hash bytes := by
    rintro hash bytes ⟨loc, pack, hloc, hpack, hx⟩
    exact ⟨loc, pack, (h.mirrored hash).trans hloc, hpack, hx⟩
  refine ⟨⟨?_, nofun, nofun, ?_⟩, rfl, fun _ => rfl⟩
  · intro hash loc hloc
    obtain ⟨bytes, hs⟩ := h.intact.indexed hash loc ((h.mirrored hash).symm.trans hloc)
    exact ⟨bytes, hstores hash bytes hs⟩
  · intro packId hp
    exact (lt_numbering _ 0).2 packId ((JsMap.mem_keys_iff _).2 ((JsMap.has_iff _ _).1 hp))

theorem atRest_cache (h : AtRest P s) {cache : MemCache}
    (hcache : ∀ k b, cache.blobs.get k = some b → Stores P s k b) :
    AtRest P { s with memCache := cache } :=
  ⟨intact_cache h.intact fun k b hk => (settled_nil h.flushed).2 (hcache k b hk), h.flushed,
    h.mirrored⟩

theorem atRest_empty : AtRest P ContentStore.empty :=
  ⟨⟨nofun, nofun, nofun, nofun⟩, rfl, fun _ => rfl⟩

theorem mirrored_rewriteIndex : Mirrored (ContentStore.rewriteIndex s) :=
  fun hash => JsMap.get_ofList_entries s.index hash

end Restart

end OpsBlobs.ContentIntegrity
