import OpsBlobs.ContentIntegrity

namespace OpsBlobs.PackMaintenance

open GraphWalk Types PackedContent ContentIntegrity

/-- The blob is looked up in this pack. -/
def At (s : ContentStore) (packId : Nat) (hash : String) : Prop :=
  (s.index.get hash).map (·.packId) = some packId

instance (s : ContentStore) (packId : Nat) : DecidablePred (At s packId) :=
  fun _ => inferInstanceAs (Decidable (_ = _))

variable {P : Platform} {B : Nat} {keepHashes : List String} {s s' : ContentStore}
  {packId : Nat} {hash : String} {bytes : Bytes}

section Members

theorem at_iff : At s packId hash ↔ ∃ loc, s.index.get hash = some loc ∧ loc.packId = packId := by
  rw [At, Option.map_eq_some_iff]

theorem at_congr (h : s'.index.get hash = s.index.get hash) :
    At s' packId hash ↔ At s packId hash := by
  rw [At, At, h]

theorem at_inj {packId' : Nat} (h : At s packId hash) (h' : At s packId' hash) :
    packId = packId' := Option.some.inj (h.symm.trans h')

theorem mem_members_iff : hash ∈ ContentStore.members s packId ↔ At s packId hash := by
  rw [ContentStore.members, List.mem_map, at_iff]
  constructor
  · rintro ⟨⟨_, loc⟩, hmem, rfl⟩
    obtain ⟨hmem, hid⟩ := List.mem_filter.1 hmem
    exact ⟨loc, (JsMap.mem_entries_iff _).1 hmem, of_decide_eq_true hid⟩
  · rintro ⟨loc, hloc, hid⟩
    exact ⟨(hash, loc), List.mem_filter.2 ⟨(JsMap.mem_entries_iff _).2 hloc, decide_eq_true hid⟩,
      rfl⟩

theorem nodup_members : (ContentStore.members s packId).Nodup :=
  s.index.nodup.sublist (List.filter_sublist.map _)

theorem mem_packIds_iff : packId ∈ ContentStore.packIds s ↔ ∃ hash, At s packId hash := by
  rw [ContentStore.packIds, mem_fresh_iff, and_iff_left List.not_mem_nil, List.mem_map]
  simp only [at_iff, JsMap.mem_values_iff]
  constructor
  · rintro ⟨loc, ⟨hash, hloc⟩, hid⟩
    exact ⟨hash, loc, hloc, hid⟩
  · rintro ⟨hash, loc, hloc, hid⟩
    exact ⟨loc, ⟨hash, hloc⟩, hid⟩

theorem liveCount_eq_zero_iff {hashes : List String} :
    ContentStore.liveCount keepHashes hashes = 0 ↔ ∀ hash ∈ hashes, hash ∉ keepHashes := by
  rw [ContentStore.liveCount, List.countP_eq_zero]
  simp only [decide_eq_true_eq]

theorem liveCount_lt_iff {hashes : List String} :
    ContentStore.liveCount keepHashes hashes < hashes.length ↔ ∃ hash ∈ hashes, hash ∉ keepHashes := by
  rw [ContentStore.liveCount, Nat.lt_iff_le_and_ne, and_iff_right List.countP_le_length, Ne,
    List.countP_eq_length]
  simp only [decide_eq_true_eq, not_forall, exists_prop]

theorem lt_of_at (hi : Intact P s) (h : At s packId hash) : packId < s.nextPackId := by
  obtain ⟨loc, hloc, rfl⟩ := at_iff.1 h
  exact packId_lt hi hloc

theorem stores_of_at (hi : Intact P s) (h : At s packId hash) : ∃ bytes, Stores P s hash bytes := by
  obtain ⟨loc, hloc, -⟩ := at_iff.1 h
  exact hi.indexed hash loc hloc

end Members

section Remove

/-- A pack is gone, and what was looked up in it. -/
structure Removed (packId : Nat) (s s' : ContentStore) : Prop where
  index : ∀ hash, s'.index.get hash = if At s packId hash then none else s.index.get hash
  cache : ∀ hash bytes, s'.memCache.blobs.get hash = some bytes →
    s.memCache.blobs.get hash = some bytes ∧ ¬ At s packId hash
  packs : s'.packs = s.packs.delete packId
  buffer : s'.packBuffer = s.packBuffer
  next : s'.nextPackId = s.nextPackId

theorem dropIfIn_spec (packId : Nat) (s : ContentStore) (e : String) :
    (∀ hash, (ContentStore.dropIfIn packId s e).index.get hash =
        if e = hash ∧ At s packId hash then none else s.index.get hash) ∧
      (∀ hash bytes, (ContentStore.dropIfIn packId s e).memCache.blobs.get hash = some bytes →
        s.memCache.blobs.get hash = some bytes ∧ ¬ (e = hash ∧ At s packId hash)) ∧
      (ContentStore.dropIfIn packId s e).packs = s.packs ∧
      (ContentStore.dropIfIn packId s e).packBuffer = s.packBuffer ∧
      (ContentStore.dropIfIn packId s e).nextPackId = s.nextPackId := by
  by_cases he : At s packId e
  · have ht : ContentStore.dropIfIn packId s e = ContentStore.drop s e := if_pos he
    rw [ht]
    refine ⟨?_, ?_, rfl, rfl, rfl⟩
    · intro hash
      rw [ContentStore.drop, JsMap.get_delete]
      by_cases heq : e = hash
      · rw [if_pos heq, if_pos ⟨heq, heq ▸ he⟩]
      · rw [if_neg heq, if_neg fun h => heq h.1]
    · intro hash bytes h
      rw [ContentStore.drop, MemCache.cacheDelete, JsMap.get_delete] at h
      by_cases heq : e = hash
      · rw [if_pos heq] at h
        cases h
      · rw [if_neg heq] at h
        exact ⟨h, fun h => heq h.1⟩
  · have ht : ContentStore.dropIfIn packId s e = s := if_neg he
    rw [ht]
    refine ⟨?_, ?_, rfl, rfl, rfl⟩
    · intro hash
      rw [if_neg]
      rintro ⟨rfl, h⟩
      exact he h
    · intro hash bytes h
      refine ⟨h, ?_⟩
      rintro ⟨rfl, h⟩
      exact he h

theorem at_dropIfIn {e : String} :
    At (ContentStore.dropIfIn packId s e) packId hash ↔ At s packId hash ∧ e ≠ hash := by
  rw [At, (dropIfIn_spec packId s e).1]
  by_cases heq : e = hash
  · by_cases hs : At s packId hash
    · simp [heq, hs]
    · rw [if_neg fun h => hs h.2]
      exact iff_of_false hs fun h => hs h.1
  · simp [heq, At]

theorem dropFrom_spec (packId : Nat) (hashes : List String) (s : ContentStore) :
    (∀ hash, (ContentStore.dropFrom packId s hashes).index.get hash =
        if hash ∈ hashes ∧ At s packId hash then none else s.index.get hash) ∧
      (∀ hash bytes, (ContentStore.dropFrom packId s hashes).memCache.blobs.get hash = some bytes →
        s.memCache.blobs.get hash = some bytes ∧ ¬ (hash ∈ hashes ∧ At s packId hash)) ∧
      (ContentStore.dropFrom packId s hashes).packs = s.packs ∧
      (ContentStore.dropFrom packId s hashes).packBuffer = s.packBuffer ∧
      (ContentStore.dropFrom packId s hashes).nextPackId = s.nextPackId := by
  induction hashes generalizing s with
  | nil => simp [ContentStore.dropFrom]
  | cons e hashes ih =>
      obtain ⟨hindex, hcache, hpacks, hbuffer, hnext⟩ := dropIfIn_spec packId s e
      obtain ⟨hindex', hcache', hpacks', hbuffer', hnext'⟩ := ih (ContentStore.dropIfIn packId s e)
      rw [ContentStore.dropFrom, List.foldl_cons, ← ContentStore.dropFrom]
      refine ⟨?_, ?_, hpacks'.trans hpacks, hbuffer'.trans hbuffer, hnext'.trans hnext⟩
      · intro hash
        rw [hindex', hindex]
        simp only [at_dropIfIn]
        by_cases heq : e = hash
        · by_cases hs : At s packId hash
          · simp [heq, hs]
          · simp [hs]
        · simp [heq, Ne.symm heq]
      · intro hash bytes h
        obtain ⟨h, hnot'⟩ := hcache' hash bytes h
        obtain ⟨h, hnot⟩ := hcache hash bytes h
        refine ⟨h, ?_⟩
        rintro ⟨hmem, hs⟩
        by_cases heq : e = hash
        · exact hnot ⟨heq, hs⟩
        · exact hnot' ⟨(List.mem_cons.1 hmem).resolve_left (Ne.symm heq), at_dropIfIn.2 ⟨hs, heq⟩⟩

theorem removed_dropFrom {hashes : List String} (h : ∀ hash, At s packId hash → hash ∈ hashes) :
    Removed packId s (ContentStore.dropFrom packId (ContentStore.remove s packId) hashes) := by
  obtain ⟨hindex, hcache, hpacks, hbuffer, hnext⟩ :=
    dropFrom_spec packId hashes (ContentStore.remove s packId)
  have hiff : ∀ hash, hash ∈ hashes ∧ At (ContentStore.remove s packId) packId hash ↔
      At s packId hash := fun hash => ⟨fun hh => hh.2, fun hh => ⟨h hash hh, hh⟩⟩
  refine ⟨?_, ?_, hpacks, hbuffer, hnext⟩
  · intro hash
    rw [hindex]
    simp only [hiff]
    rfl
  · intro hash bytes hh
    obtain ⟨hh, hnot⟩ := hcache hash bytes hh
    exact ⟨hh, fun hat => hnot ((hiff hash).2 hat)⟩

/-- A retired pack loses the same blobs, as long as they are all looked up in it. -/
theorem retire_eq {hashes : List String} (hnodup : hashes.Nodup)
    (h : ∀ hash ∈ hashes, At s packId hash) :
    ContentStore.retire s packId hashes =
      ContentStore.dropFrom packId (ContentStore.remove s packId) hashes := by
  replace h : ∀ hash ∈ hashes, At (ContentStore.remove s packId) packId hash := h
  rw [ContentStore.retire]
  generalize ContentStore.remove s packId = t at h
  induction hashes generalizing t with
  | nil => rfl
  | cons e hashes ih =>
      obtain ⟨hnot, hnodup⟩ := List.nodup_cons.1 hnodup
      have hstep : ContentStore.dropIfIn packId t e = ContentStore.drop t e :=
        if_pos (h e List.mem_cons_self)
      rw [ContentStore.dropFrom, List.foldl_cons, List.foldl_cons, hstep, ← ContentStore.dropFrom]
      apply ih hnodup
      intro hash hmem
      rw [← hstep, at_dropIfIn]
      refine ⟨h hash (List.mem_cons_of_mem _ hmem), ?_⟩
      rintro rfl
      exact hnot hmem

theorem stores_of_removed (h : Removed packId s s') :
    Stores P s' hash bytes ↔ Stores P s hash bytes ∧ ¬ At s packId hash := by
  rw [Stores, Stores, h.index, h.packs]
  by_cases hat : At s packId hash
  · simp [hat]
  · rw [if_neg hat, and_iff_left hat]
    apply exists_congr
    intro loc
    apply exists_congr
    intro pack
    apply and_congr_right
    intro hloc
    rw [JsMap.get_delete_ne]
    rintro rfl
    exact hat (at_iff.2 ⟨loc, hloc, rfl⟩)

theorem at_of_removed (h : Removed packId s s') {packId' : Nat} :
    At s' packId' hash ↔ At s packId' hash ∧ packId' ≠ packId := by
  rw [At, h.index]
  by_cases hat : At s packId hash
  · rw [if_pos hat]
    refine iff_of_false nofun ?_
    rintro ⟨h', hne⟩
    exact hne (at_inj h' hat)
  · rw [if_neg hat]
    refine ⟨fun h' => ⟨h', ?_⟩, fun h' => h'.1⟩
    rintro rfl
    exact hat h'

theorem intact_of_removed (hi : Intact P s) (hb : s.packBuffer = []) (h : Removed packId s s') :
    Intact P s' := by
  refine ⟨?_, ?_, ?_, ?_⟩
  · intro hash loc hloc
    rw [h.index] at hloc
    by_cases hat : At s packId hash
    · rw [if_pos hat] at hloc
      cases hloc
    · rw [if_neg hat] at hloc
      obtain ⟨bytes, hs⟩ := hi.indexed hash loc hloc
      exact ⟨bytes, (stores_of_removed h).2 ⟨hs, hat⟩⟩
  · intro hash bytes hc
    obtain ⟨hc, hat⟩ := h.cache hash bytes hc
    refine (settled_nil (h.buffer.trans hb)).2 ((stores_of_removed h).2 ⟨?_, hat⟩)
    exact (settled_nil hb).1 (hi.cached hash bytes hc)
  · intro hash b64 hmem
    rw [h.buffer, hb] at hmem
    cases hmem
  · intro packId' hp
    obtain ⟨pack, hp⟩ := (JsMap.has_iff _ _).1 hp
    rw [h.packs, JsMap.get_delete] at hp
    split at hp
    · cases hp
    · rw [h.next]
      exact hi.numbered packId' ((JsMap.has_iff _ _).2 ⟨pack, hp⟩)

end Remove

section Compact

/-- What a pass does to the packs it is done with: their dead blobs are gone, their live
ones are elsewhere, and all others are where they were. -/
structure Thinned (P : Platform) (keepHashes : List String) (done : List Nat)
    (s s' : ContentStore) : Prop where
  intact : Intact P s'
  flushed : s'.packBuffer = []
  stores : ∀ hash bytes, Stores P s' hash bytes ↔
    Stores P s hash bytes ∧ ¬ ∃ packId ∈ done, At s packId hash ∧ hash ∉ keepHashes
  located : ∀ packId hash, packId < s.nextPackId →
    (At s' packId hash ↔ At s packId hash ∧ packId ∉ done)
  next : s.nextPackId ≤ s'.nextPackId

theorem thinned_nil (hi : Intact P s) (hb : s.packBuffer = []) : Thinned P keepHashes [] s s :=
  ⟨hi, hb, by simp, by simp, Nat.le_refl _⟩

theorem thinned_append {done more : List Nat} {s₀ : ContentStore}
    (h : Thinned P keepHashes done s₀ s) (h' : Thinned P keepHashes more s s')
    (hmore : ∀ packId ∈ more, packId < s₀.nextPackId) :
    Thinned P keepHashes (done ++ more) s₀ s' := by
  refine ⟨h'.intact, h'.flushed, ?_, ?_, h.next.trans h'.next⟩
  · intro hash bytes
    rw [h'.stores, h.stores, and_assoc, ← not_or]
    apply and_congr_right
    intro _
    apply not_congr
    constructor
    · rintro (⟨packId, hid, hdead⟩ | ⟨packId, hid, hat, hdead⟩)
      · exact ⟨packId, List.mem_append_left _ hid, hdead⟩
      · exact ⟨packId, List.mem_append_right _ hid,
          ((h.located packId hash (hmore packId hid)).1 hat).1, hdead⟩
    · rintro ⟨packId, hid, hat, hdead⟩
      by_cases hdone : packId ∈ done
      · exact Or.inl ⟨packId, hdone, hat, hdead⟩
      · have hid := (List.mem_append.1 hid).resolve_left hdone
        exact Or.inr ⟨packId, hid, (h.located packId hash (hmore packId hid)).2 ⟨hat, hdone⟩, hdead⟩
  · intro packId hash hlt
    rw [h'.located packId hash (hlt.trans_le h.next), h.located packId hash hlt, and_assoc,
      List.mem_append, not_or]

theorem thinned_of_removed {done : List Nat} {s₀ : ContentStore}
    (h : Thinned P keepHashes done s₀ s) (hlt : packId < s₀.nextPackId)
    (hdead : ∀ hash, At s₀ packId hash → hash ∉ keepHashes) (hr : Removed packId s s') :
    Thinned P keepHashes (done ++ [packId]) s₀ s' := by
  refine thinned_append h ⟨intact_of_removed h.intact h.flushed hr, hr.buffer.trans h.flushed,
    ?_, ?_, hr.next.ge⟩ fun k hk => List.mem_singleton.1 hk ▸ hlt
  · intro hash bytes
    rw [stores_of_removed hr]
    apply and_congr_right
    intro _
    apply not_congr
    simp only [List.mem_singleton, exists_eq_left]
    exact ⟨fun hat => ⟨hat, hdead hash ((h.located packId hash hlt).1 hat).1⟩, fun hat => hat.1⟩
  · intro packId' hash _
    rw [at_of_removed hr, List.mem_singleton]

/-- Removing packs of which no blob is live, one after another. -/
theorem thinned_foldl {f : ContentStore → Nat → ContentStore} {packIds done : List Nat}
    {s₀ : ContentStore} (h : Thinned P keepHashes done s₀ s) (hnodup : (done ++ packIds).Nodup)
    (hlt : ∀ packId ∈ packIds, packId < s₀.nextPackId)
    (hdead : ∀ packId ∈ packIds, ∀ hash, At s₀ packId hash → hash ∉ keepHashes)
    (hf : ∀ done t, Thinned P keepHashes done s₀ t → ∀ packId ∈ packIds, packId ∉ done →
      Removed packId t (f t packId)) :
    Thinned P keepHashes (done ++ packIds) s₀ (packIds.foldl f s) := by
  induction packIds generalizing s done with
  | nil => exact (List.append_nil done).symm ▸ h
  | cons packId packIds ih =>
      have hmem : packId ∈ packId :: packIds := List.mem_cons_self
      have hnew : packId ∉ done :=
        fun hd => (List.nodup_append.1 hnodup).2.2 packId hd packId hmem rfl
      have hstep := thinned_of_removed h (hlt packId hmem) (hdead packId hmem)
        (hf done s h packId hmem hnew)
      rw [List.append_cons] at hnodup
      rw [List.append_cons]
      exact ih hstep hnodup (fun k hk => hlt k (List.mem_cons_of_mem _ hk))
        (fun k hk => hdead k (List.mem_cons_of_mem _ hk))
        (fun done t ht k hk => hf done t ht k (List.mem_cons_of_mem _ hk))

theorem thinned_retireAll {packIds : List Nat} (hi : Intact P s) (hb : s.packBuffer = [])
    (hnodup : packIds.Nodup) (hids : packIds ⊆ ContentStore.packIds s)
    (hdead : ∀ packId ∈ packIds,
      ContentStore.liveCount keepHashes (ContentStore.members s packId) = 0) :
    Thinned P keepHashes packIds s (packIds.foldl
      (fun t packId => ContentStore.retire t packId (ContentStore.members s packId)) s) := by
  have hlt : ∀ packId ∈ packIds, packId < s.nextPackId := by
    intro packId hid
    obtain ⟨hash, hat⟩ := mem_packIds_iff.1 (hids hid)
    exact lt_of_at hi hat
  refine thinned_foldl (thinned_nil hi hb) hnodup hlt ?_ ?_
  · intro packId hid hash hat
    exact liveCount_eq_zero_iff.1 (hdead packId hid) hash (mem_members_iff.2 hat)
  · intro done t ht packId hid hnew
    have hiff : ∀ hash, hash ∈ ContentStore.members s packId ↔ At t packId hash := by
      intro hash
      rw [mem_members_iff, ht.located packId hash (hlt packId hid), and_iff_left hnew]
    rw [retire_eq nodup_members fun hash => (hiff hash).1]
    exact removed_dropFrom fun hash => (hiff hash).2

/-- A buffer that was filled with copies of stored blobs. -/
structure Copying (P : Platform) (s s' : ContentStore) : Prop where
  intact : Intact P s'
  moving : Moving P s'
  index : s'.index = s.index
  packs : s'.packs = s.packs
  next : s'.nextPackId = s.nextPackId

theorem copying_push {t : ContentStore} (h : Copying P s t) (hs : Stores P s hash bytes)
    {b64 : List Char} (hb64 : base64ToUint8 b64 = some bytes) {cache : MemCache}
    (hcache : ∀ k b, cache.blobs.get k = some b → Stores P t k b) (pending : List String) :
    Copying P s { t with
      memCache := cache, pending := pending, packBuffer := t.packBuffer ++ [(hash, b64)] } := by
  have hmoving : ∀ k c64, (k, c64) ∈ t.packBuffer ++ [(hash, b64)] →
      ∃ b, base64ToUint8 c64 = some b ∧ Stores P t k b := by
    intro k c64 hmem
    rcases List.mem_append.1 hmem with hmem | hmem
    · exact h.moving k c64 hmem
    · obtain ⟨rfl, rfl⟩ := Prod.mk.inj (List.mem_singleton.1 hmem)
      exact ⟨bytes, hb64, (stores_congr h.index h.packs).2 hs⟩
  refine ⟨⟨h.intact.indexed, ?_, ?_, h.intact.numbered⟩, hmoving, h.index, h.packs, h.next⟩
  · intro k b hk
    refine (settled_moving ?_).2 (hcache k b hk)
    exact hmoving
  · intro k c64 hmem
    obtain ⟨b, hb, loc, pack, -, -, hx⟩ := hmoving k c64 hmem
    exact ⟨b, hb, (hash_of_extract hx).1⟩

theorem copying_rebuffer {t : ContentStore} (h : Copying P s t) (hs : Stores P s hash bytes) :
    ∃ t', ContentStore.rebuffer P B t hash = some t' ∧ Copying P s t' ∧
      t'.packBuffer.map Prod.fst = t.packBuffer.map Prod.fst ++ [hash] := by
  obtain ⟨found, cache, hget, hfound, hcache⟩ := get_spec (B := B) h.intact h.moving hash
  obtain rfl := (hfound bytes).2 ((stores_congr h.index h.packs).2 hs)
  have hrun : ContentStore.rebuffer P B t hash = some { t with
      memCache := cache
      pending := if hash ∈ t.pending then t.pending else t.pending ++ [hash]
      packBuffer := t.packBuffer ++ [(hash, uint8ToBase64 bytes)] } := by
    rw [ContentStore.rebuffer, hget]
    rfl
  refine ⟨_, hrun, copying_push h hs (Base64.atob_btoa bytes) hcache _, ?_⟩
  rw [List.map_append]
  rfl

theorem copying_run {t : ContentStore} (h : Copying P s t) {hashes : List String}
    (hs : ∀ hash ∈ hashes, ∃ bytes, Stores P s hash bytes) :
    ∃ t', hashes.foldlM (ContentStore.rebuffer P B) t = some t' ∧ Copying P s t' ∧
      t'.packBuffer.map Prod.fst = t.packBuffer.map Prod.fst ++ hashes := by
  induction hashes generalizing t with
  | nil => exact ⟨t, rfl, h, (List.append_nil _).symm⟩
  | cons hash hashes ih =>
      obtain ⟨bytes, hb⟩ := hs hash List.mem_cons_self
      obtain ⟨u, hstep, hu, hkeys⟩ := copying_rebuffer (B := B) h hb
      obtain ⟨t', hrun, ht', hkeys'⟩ := ih hu fun k hk => hs k (List.mem_cons_of_mem _ hk)
      refine ⟨t', ?_, ht', ?_⟩
      · rw [List.foldlM_cons, hstep]
        exact hrun
      · rw [hkeys', hkeys, List.append_assoc]
        rfl

/-- Flushing copies moves them out of their packs and changes no bytes. -/
theorem flush_copies {t : ContentStore} (h : Copying P s t) {t' : ContentStore}
    (hf : Flushed P t t') :
    (∀ hash bytes, Stores P t' hash bytes ↔ Stores P s hash bytes) ∧
      (∀ packId hash, packId < s.nextPackId →
        (At t' packId hash ↔ At s packId hash ∧ hash ∉ t.packBuffer.map Prod.fst)) := by
  constructor
  · intro hash bytes
    rw [hf.stores, settled_moving h.moving, stores_congr h.index h.packs]
  · intro packId hash hlt
    cases hget : (JsMap.ofList t.packBuffer).get hash with
    | none =>
        rw [at_congr ((hf.other hash hget).trans (congrArg (JsMap.get · hash) h.index))]
        exact (and_iff_left (JsMap.get_ofList_eq_none_iff.1 hget)).symm
    | some b64 =>
        obtain ⟨loc, hloc, hnew⟩ := hf.moved hash b64 hget
        refine iff_of_false ?_ ?_
        · intro hat
          obtain ⟨loc', hloc', rfl⟩ := at_iff.1 hat
          obtain rfl := Option.some.inj (hloc.symm.trans hloc')
          exact absurd (h.next ▸ hnew) (Nat.not_le.2 hlt)
        · rintro ⟨-, hmem⟩
          exact hmem (List.mem_map_of_mem (JsMap.mem_of_get_ofList hget))

/-- Once the live blobs of some packs are flushed as copies, those packs can go. -/
theorem thinned_of_copies {t t' : ContentStore} {packIds : List Nat} (h : Copying P s t)
    (hlt : ∀ packId ∈ packIds, packId < s.nextPackId)
    (hkeys : ∀ hash, hash ∈ t.packBuffer.map Prod.fst ↔
      hash ∈ keepHashes ∧ ∃ packId ∈ packIds, At s packId hash) (hf : Flushed P t t')
    (hr : Thinned P keepHashes packIds t' s') : Thinned P keepHashes packIds s s' := by
  obtain ⟨hstores, hat⟩ := flush_copies h hf
  have hnext : s.nextPackId ≤ t'.nextPackId := h.next.ge.trans hf.next
  refine ⟨hr.intact, hr.flushed, ?_, ?_, hnext.trans hr.next⟩
  · intro hash bytes
    rw [hr.stores, hstores]
    apply and_congr_right
    intro _
    apply not_congr
    apply exists_congr
    intro packId
    apply and_congr_right
    intro hid
    rw [hat packId hash (hlt packId hid), and_assoc]
    apply and_congr_right
    intro _
    exact and_iff_right_of_imp fun hdead hmem => hdead ((hkeys hash).1 hmem).1
  · intro packId hash hid
    rw [hr.located packId hash (hid.trans_le hnext), hat packId hash hid, and_assoc]
    apply and_congr_right
    intro hp
    refine and_iff_right_of_imp fun hnew hmem => ?_
    obtain ⟨-, packId', hid', hp'⟩ := (hkeys hash).1 hmem
    exact hnew (at_inj hp hp' ▸ hid')

theorem thinned_compactPack (hi : Intact P s) (hb : s.packBuffer = []) (packId : Nat)
    (hlt : packId < s.nextPackId) :
    ∃ s', ContentStore.compactPack P B keepHashes s packId = some s' ∧
      Thinned P keepHashes [packId] s s' := by
  have hlive : ∀ hash ∈ (ContentStore.members s packId).filter (· ∈ keepHashes),
      ∃ bytes, Stores P s hash bytes :=
    fun hash hmem => stores_of_at hi (mem_members_iff.1 (List.mem_filter.1 hmem).1)
  obtain ⟨t, hrun, ht, hkeys⟩ := copying_run (B := B)
    ⟨hi, moving_nil hb, rfl, rfl, rfl⟩ hlive
  have hkeys : ∀ hash, hash ∈ t.packBuffer.map Prod.fst ↔
      hash ∈ keepHashes ∧ ∃ packId' ∈ [packId], At s packId' hash := by
    intro hash
    rw [hkeys, hb, List.map_nil, List.nil_append, List.mem_filter, mem_members_iff,
      decide_eq_true_eq, and_comm]
    simp only [List.mem_singleton, exists_eq_left]
  have hf := flushPack_spec (B := B) ht.intact
  have hold : ∀ hash, At (ContentStore.flushPack B t) packId hash →
      At s packId hash ∧ hash ∉ keepHashes := by
    intro hash h
    obtain ⟨hat, hmem⟩ := ((flush_copies ht hf).2 packId hash hlt).1 h
    exact ⟨hat, fun hk => hmem ((hkeys hash).2 ⟨hk, packId, List.mem_singleton_self _, hat⟩)⟩
  have hremoved : Removed packId (ContentStore.flushPack B t) (ContentStore.dropFrom packId
      (ContentStore.remove (ContentStore.flushPack B t) packId) (ContentStore.members s packId)) :=
    removed_dropFrom fun hash h => mem_members_iff.2 (hold hash h).1
  refine ⟨_, by rw [ContentStore.compactPack, hrun]; rfl, ?_⟩
  refine thinned_of_copies ht (fun k hk => List.mem_singleton.1 hk ▸ hlt) hkeys hf ?_
  exact thinned_of_removed (thinned_nil hf.intact hf.empty)
    (hlt.trans_le (ht.next.ge.trans hf.next)) (fun hash h => (hold hash h).2) hremoved

theorem thinned_foldlM {f : ContentStore → Nat → Option ContentStore} {packIds done : List Nat}
    {s₀ : ContentStore} (hf : ∀ s packId, Intact P s → s.packBuffer = [] → packId < s.nextPackId →
      ∃ s', f s packId = some s' ∧ Thinned P keepHashes [packId] s s')
    (h : Thinned P keepHashes done s₀ s) (hlt : ∀ packId ∈ packIds, packId < s₀.nextPackId) :
    ∃ s', packIds.foldlM f s = some s' ∧ Thinned P keepHashes (done ++ packIds) s₀ s' := by
  induction packIds generalizing s done with
  | nil => exact ⟨s, rfl, (List.append_nil done).symm ▸ h⟩
  | cons packId packIds ih =>
      have hid := hlt packId List.mem_cons_self
      obtain ⟨t, hstep, ht⟩ := hf s packId h.intact h.flushed (hid.trans_le h.next)
      have ht := thinned_append h ht fun k hk => List.mem_singleton.1 hk ▸ hid
      obtain ⟨s', hrun, hs'⟩ := ih ht fun k hk => hlt k (List.mem_cons_of_mem _ hk)
      refine ⟨s', ?_, ?_⟩
      · rw [List.foldlM_cons, hstep]
        exact hrun
      · rw [List.append_assoc] at hs'
        exact hs'

end Compact

end OpsBlobs.PackMaintenance
