import OpsBlobs.PackScript

namespace OpsBlobs.PackLinked

open Base64 Types PackedContent ContentIntegrity PackMaintenance PackRefinement PackIndexFile
  PackFiles PackScript

/-- A store over files that may name packs that are gone, or blobs that it has dropped: what it
believes in is in the files, and it has lost none of the blobs to keep. -/
structure Linked (P : Platform) (data : List Bytes) (K : String → Prop) (s : ContentStore) :
    Prop where
  readable : Readable P data (files s)
  named : ∀ hash loc, (files s).load.index.get hash = some loc → loc.packId < s.nextPackId
  numbered : ∀ packId, s.packs.has packId = true → packId < s.nextPackId
  within : ∀ hash loc, s.index.get hash = some loc → (files s).load.index.get hash = some loc
  kept : ∀ hash bytes, K hash → Reads P (files s) hash bytes →
    s.index.get hash = (files s).load.index.get hash
  buffered : ∀ hash b64, (hash, b64) ∈ s.packBuffer →
    ∃ bytes ∈ data, base64ToUint8 b64 = some bytes ∧ P.sha256Hex bytes = hash
  cached : ∀ hash bytes, s.memCache.blobs.get hash = some bytes → Settled P s hash bytes

/-- What some calls on the files do, seen from the memory and from the files. -/
structure Moves (P : Platform) (data : List Bytes) (K : String → Prop) (s : ContentStore)
    (ws : List Write) (s' : ContentStore) : Prop where
  linked : Linked P data K s'
  legit : Legit P data K (files s) ws
  files : writes (files s) ws = files s'
  settled : ∀ hash bytes, K hash → Settled P s hash bytes → Settled P s' hash bytes
  located : ∀ packId hash, packId < s.nextPackId → At s' packId hash → At s packId hash
  next : s.nextPackId ≤ s'.nextPackId

variable {P : Platform} {B : Nat} {data : List Bytes} {K : String → Prop}
  {s s' t : ContentStore} {ws ws' : List Write} {hash : String} {bytes b : Bytes} {packId : Nat}

theorem moves_refl (h : Linked P data K s) : Moves P data K s [] s :=
  ⟨h, trivial, rfl, fun _ _ _ hs => hs, fun _ _ _ hat => hat, Nat.le_refl _⟩

theorem moves_trans (h : Moves P data K s ws t) (h' : Moves P data K t ws' s') :
    Moves P data K s (ws ++ ws') s' where
  linked := h'.linked
  legit := legit_append.2 ⟨h.legit, h.files ▸ h'.legit⟩
  files := by rw [writes_append, h.files, h'.files]
  settled hash bytes hk hs := h'.settled hash bytes hk (h.settled hash bytes hk hs)
  located packId hash hlt hat :=
    h.located packId hash hlt (h'.located packId hash (hlt.trans_le h.next) hat)
  next := h.next.trans h'.next

section Stored

theorem reads_of_stores (h : Linked P data K s) (hs : Stores P s hash bytes) :
    Reads P (files s) hash bytes := by
  obtain ⟨loc, pack, hloc, hpack, hx⟩ := hs
  exact ⟨loc, pack, h.within hash loc hloc, hpack, hx⟩

theorem stores_of_reads (h : Linked P data K s) (hk : K hash) (hr : Reads P (files s) hash bytes) :
    Stores P s hash bytes := by
  obtain ⟨loc, pack, hloc, hpack, hx⟩ := id hr
  exact ⟨loc, pack, (h.kept hash bytes hk hr).trans hloc, hpack, hx⟩

theorem decodes_of_linked (h : Linked P data K s) : Decodes P s :=
  fun hash loc pack hloc hpack => h.readable.decodes hash loc pack (h.within hash loc hloc) hpack

theorem flushable_of_linked (h : Linked P data K s) : Flushable P s where
  buffered hash b64 hmem := by
    obtain ⟨bytes, -, hb, hhash⟩ := h.buffered hash b64 hmem
    exact ⟨bytes, hb, hhash⟩
  numbered := h.numbered
  named hash loc hloc := h.named hash loc (h.within hash loc hloc)

theorem lt_of_at_linked (h : Linked P data K s) (hat : At s packId hash) : packId < s.nextPackId := by
  obtain ⟨loc, hloc, rfl⟩ := at_iff.1 hat
  exact h.named hash loc (h.within hash loc hloc)

theorem known_of_settled (h : Linked P data K s) (hs : Settled P s hash bytes) :
    bytes ∈ data ∧ P.sha256Hex bytes = hash := by
  rw [Settled] at hs
  cases hget : (JsMap.ofList s.packBuffer).get hash with
  | none =>
      rw [hget] at hs
      have hr := reads_of_stores h hs
      exact ⟨h.readable.known hash bytes hr, hash_of_reads hr⟩
  | some b64 =>
      rw [hget] at hs
      obtain ⟨b, hmem, hb, hhash⟩ := h.buffered hash b64 (JsMap.mem_of_get_ofList hget)
      obtain rfl := Option.some.inj (hb.symm.trans hs)
      exact ⟨hmem, hhash⟩

/-- What is buffered under a hash settles it. -/
theorem settled_of_buffered (hd : Distinct P data) (h : Linked P data K s) (hmem : bytes ∈ data)
    {b64 : List Char} (hb : (P.sha256Hex bytes, b64) ∈ s.packBuffer) :
    Settled P s (P.sha256Hex bytes) bytes := by
  cases hget : (JsMap.ofList s.packBuffer).get (P.sha256Hex bytes) with
  | none => exact absurd (List.mem_map_of_mem hb) (JsMap.get_ofList_eq_none_iff.1 hget)
  | some last =>
      obtain ⟨b, hbmem, hlast, hhash⟩ := h.buffered _ last (JsMap.mem_of_get_ofList hget)
      obtain rfl := hd b hbmem bytes hmem hhash
      rw [Settled, hget]
      exact hlast

theorem settled_of_stored (hd : Distinct P data) (h : Linked P data K s)
    (hs : Stores P s hash bytes) : Settled P s hash bytes := by
  have hr := reads_of_stores h hs
  obtain rfl := hash_of_reads hr
  cases hget : (JsMap.ofList s.packBuffer).get (P.sha256Hex bytes) with
  | none =>
      rw [Settled, hget]
      exact hs
  | some b64 =>
      exact settled_of_buffered hd h (h.readable.known _ _ hr) (JsMap.mem_of_get_ofList hget)

end Stored

section Fill

/-- A buffer that is filled further; the packs and the index are as they were. -/
structure Filled (P : Platform) (data : List Bytes) (K : String → Prop) (s s' : ContentStore) :
    Prop where
  moves : Moves P data K s [] s'
  index : s'.index = s.index
  packs : s'.packs = s.packs
  buffered : s.packBuffer.map Prod.fst ⊆ s'.packBuffer.map Prod.fst

theorem filled_cache (h : Linked P data K s) {cache : MemCache}
    (hcache : ∀ k b, cache.blobs.get k = some b → Settled P s k b) :
    Filled P data K s { s with memCache := cache } := by
  refine ⟨⟨?_, trivial, rfl, fun _ _ _ hs => hs, fun _ _ _ hat => hat, Nat.le_refl _⟩, rfl, rfl,
    List.Subset.refl _⟩
  exact ⟨h.readable, h.named, h.numbered, h.within, h.kept, h.buffered, hcache⟩

theorem filled_trans (h : Filled P data K s t) (h' : Filled P data K t s') :
    Filled P data K s s' :=
  ⟨moves_trans h.moves h'.moves, h'.index.trans h.index, h'.packs.trans h.packs,
    List.Subset.trans h.buffered h'.buffered⟩

theorem settled_push (hd : Distinct P data) (h : Linked P data K s) (hmem : bytes ∈ data)
    {b64 : List Char} (hb64 : base64ToUint8 b64 = some bytes) {cache : MemCache}
    {pending : List String} {k : String} (hs : Settled P s k b) :
    Settled P { s with
      memCache := cache
      pending := pending
      packBuffer := s.packBuffer ++ [(P.sha256Hex bytes, b64)] } k b := by
  obtain ⟨hbmem, hhash⟩ := known_of_settled h hs
  rw [Settled]
  dsimp only
  rw [JsMap.ofList_concat, JsMap.get_set]
  by_cases he : P.sha256Hex bytes = k
  · rw [if_pos he, hd b hbmem bytes hmem (hhash.trans he.symm)]
    exact hb64
  · rw [if_neg he]
    exact hs

theorem filled_push (hd : Distinct P data) (h : Linked P data K s) (hmem : bytes ∈ data)
    {b64 : List Char} (hb64 : base64ToUint8 b64 = some bytes) {cache : MemCache}
    (hcache : ∀ k b, cache.blobs.get k = some b →
      k = P.sha256Hex bytes ∧ b = bytes ∨ Settled P s k b) (pending : List String) :
    Filled P data K s { s with
      memCache := cache
      pending := pending
      packBuffer := s.packBuffer ++ [(P.sha256Hex bytes, b64)] } := by
  refine ⟨⟨?_, trivial, rfl, fun _ _ _ => settled_push hd h hmem hb64, fun _ _ _ hat => hat,
    Nat.le_refl _⟩, rfl, rfl, ?_⟩
  · refine ⟨h.readable, h.named, h.numbered, h.within, h.kept, ?_, ?_⟩
    · intro k c64 hk
      rcases List.mem_append.1 hk with hk | hk
      · exact h.buffered k c64 hk
      · obtain ⟨rfl, rfl⟩ := Prod.mk.inj (List.mem_singleton.1 hk)
        exact ⟨bytes, hmem, hb64, rfl⟩
    · intro k c hk
      rcases hcache k c hk with ⟨rfl, rfl⟩ | hs
      · rw [Settled]
        dsimp only
        rw [JsMap.ofList_concat, JsMap.get_set_self]
        exact hb64
      · exact settled_push hd h hmem hb64 hs
  · rw [List.map_append]
    exact List.subset_append_left _ _

theorem get_linked (hd : Distinct P data) (h : Linked P data K s) (hash : String) :
    ∃ found cache, ContentStore.get P B s hash = some (found, cache) ∧
      (∀ bytes, found = some bytes → bytes ∈ data ∧ P.sha256Hex bytes = hash) ∧
      (∀ bytes, Stores P s hash bytes → found ≠ none) ∧
      ∀ k b, cache.blobs.get k = some b → Settled P s k b := by
  obtain ⟨found, cache, hget, hfound, hcache⟩ := get_cases (B := B) (decodes_of_linked h)
    (fun _ _ hs => settled_of_stored hd h hs) h.cached hash
  refine ⟨found, cache, hget, fun bytes hb => ?_, fun bytes hs hnone => ?_, hcache⟩
  · rcases (hfound bytes).1 hb with hb | ⟨-, hs⟩
    · exact known_of_settled h (h.cached hash bytes hb)
    · exact known_of_settled h (settled_of_stored hd h hs)
  · cases hhit : s.memCache.blobs.get hash with
    | none => cases hnone.symm.trans ((hfound bytes).2 (Or.inr ⟨hhit, hs⟩))
    | some b => cases hnone.symm.trans ((hfound b).2 (Or.inl hhit))

theorem filled_rebuffer (hd : Distinct P data) (h : Linked P data K s) (hash : String) :
    ∃ s', ContentStore.rebuffer P B s hash = some s' ∧ Filled P data K s s' ∧
      ∀ bytes, Stores P s hash bytes → hash ∈ s'.packBuffer.map Prod.fst := by
  obtain ⟨found, cache, hget, hfound, hstored, hcache⟩ := get_linked (B := B) hd h hash
  rw [ContentStore.rebuffer, hget]
  cases found with
  | none => exact ⟨_, rfl, filled_cache h hcache, fun bytes hs => absurd rfl (hstored bytes hs)⟩
  | some bytes =>
      obtain ⟨hmem, rfl⟩ := hfound bytes rfl
      refine ⟨_, rfl, filled_push hd h hmem (Base64.atob_btoa bytes)
        (fun k b hk => Or.inr (hcache k b hk)) _, fun _ _ => ?_⟩
      rw [List.map_append]
      exact List.mem_append_right _ List.mem_cons_self

theorem filled_rebuffers (hd : Distinct P data) (h : Linked P data K s) (hashes : List String) :
    ∃ s', hashes.foldlM (ContentStore.rebuffer P B) s = some s' ∧ Filled P data K s s' ∧
      ∀ hash ∈ hashes, ∀ bytes, Stores P s hash bytes → hash ∈ s'.packBuffer.map Prod.fst := by
  induction hashes generalizing s with
  | nil => exact ⟨s, rfl, ⟨moves_refl h, rfl, rfl, List.Subset.refl _⟩, nofun⟩
  | cons hash hashes ih =>
      obtain ⟨t, hstep, ht, hmine⟩ := filled_rebuffer (B := B) hd h hash
      obtain ⟨s', hrun, hs', hrest⟩ := ih ht.moves.linked
      refine ⟨s', ?_, filled_trans ht hs', ?_⟩
      · rw [List.foldlM_cons, hstep]
        exact hrun
      · intro k hk bytes hs
        rcases List.mem_cons.1 hk with rfl | hk
        · exact hs'.buffered (hmine bytes hs)
        · exact hrest k hk bytes ((stores_congr ht.index ht.packs).2 hs)

end Fill

section Flush

open ContentStore (addBlob Flush)

theorem liesAt_delta (index : JsMap String PackLoc) (packId : Nat)
    (blobs : List (String × List Char)) :
    ∀ e ∈ (blobs.foldl (addBlob packId) ⟨[], index, []⟩).idxDelta,
      ∃ b64, (e.1, b64) ∈ blobs ∧ e.2.packId = packId ∧
        LiesAt (blobs.foldl (addBlob packId) ⟨[], index, []⟩).packBody e.2 b64 := by
  induction blobs using List.reverseRecOn with
  | nil => exact fun _ he => by cases he
  | append_singleton blobs blob ih =>
      rw [List.foldl_concat]
      generalize blobs.foldl (addBlob packId) ⟨[], index, []⟩ = f at ih
      intro e he
      rcases List.mem_append.1 he with he | he
      · obtain ⟨b64, hmem, hid, hlies⟩ := ih e he
        refine ⟨b64, List.mem_append_left _ hmem, hid, ?_⟩
        rw [addBlob]
        dsimp only
        rw [List.append_assoc, List.append_assoc]
        exact liesAt_append hlies _
      · obtain rfl := List.mem_singleton.1 he
        refine ⟨blob.2, List.mem_append_right _ List.mem_cons_self, rfl,
          f.packBody ++ ContentStore.header blob.1 blob.2, ['\n'], rfl, ?_, rfl⟩
        rw [List.length_append]

theorem files_flush (s : ContentStore) :
    writes (files s) (flushWrites s) = files (ContentStore.flushPack B s) := by
  rw [flushWrites, ContentStore.flushPack]
  split
  · rfl
  · rfl

/-- The places a flush adds, to the index in memory and to its file alike. -/
theorem places_flush (s : ContentStore) : ∃ delta : List (String × PackLoc),
    (∀ hash, (ContentStore.flushPack B s).index.get hash =
      ((JsMap.ofList delta).get hash).or (s.index.get hash)) ∧
    (∀ hash, (files (ContentStore.flushPack B s)).load.index.get hash =
      ((JsMap.ofList delta).get hash).or ((files s).load.index.get hash)) ∧
    ∀ e ∈ delta, e.2.packId < (ContentStore.flushPack B s).nextPackId := by
  rw [ContentStore.flushPack]
  split
  · exact ⟨[], fun _ => rfl, fun _ => rfl, List.forall_mem_nil _⟩
  · have hbuilt := built_flush s.index s.nextPackId s.packBuffer
    have hlies := liesAt_delta s.index s.nextPackId s.packBuffer
    generalize s.packBuffer.foldl (addBlob s.nextPackId) ⟨[], s.index, []⟩ = f at hbuilt hlies
    refine ⟨f.idxDelta, ?_, fun hash => get_index_append (files s) f.idxDelta hash, ?_⟩
    · intro hash
      dsimp only
      rw [hbuilt.delta, JsMap.get_foldl_set]
    · intro e he
      obtain ⟨b64, -, hid, -⟩ := hlies e he
      exact hid ▸ Nat.lt_succ_self _

theorem legit_flush (h : Linked P data K s) : Legit P data K (files s) (flushWrites s) := by
  rw [flushWrites]
  split
  · trivial
  · have hlies := liesAt_delta s.index s.nextPackId s.packBuffer
    generalize s.packBuffer.foldl (addBlob s.nextPackId) ⟨[], s.index, []⟩ = f at hlies
    refine ⟨fun hash loc hloc => Nat.ne_of_lt (h.named hash loc hloc), fun e he => ?_, trivial⟩
    obtain ⟨b64, hmem, hid, hlie⟩ := hlies e he
    obtain ⟨bytes, hknown, hb64, hhash⟩ := h.buffered e.1 b64 hmem
    refine ⟨f.packBody, bytes, ?_, extract_of_liesAt hlie hb64 hhash, hknown⟩
    have hnew : s.packs.get s.nextPackId = none := new_packId (flushable_of_linked h)
    rw [hid, Files.write, files]
    dsimp only
    rw [JsMap.get_set_self, hnew]
    rfl

/-- A flush leaves what it appends, and has nothing more to append. -/
theorem moves_flush (hd : Distinct P data)
    (hplain : ∀ content ∈ data, Plain (P.sha256Hex content)) (h : Linked P data K s) :
    Moves P data K s (flushWrites s) (ContentStore.flushPack B s) := by
  have hmoved := relocated_flushPack (B := B) (flushable_of_linked h)
  have hlegit := legit_flush h
  have hfiles := files_flush (B := B) s
  obtain ⟨delta, hmemory, hfile, hnew⟩ := places_flush (B := B) s
  have hread := (readable_writes hd hplain h.readable hlegit).1
  rw [hfiles] at hread
  generalize ContentStore.flushPack B s = u at *
  refine ⟨⟨hread, ?_, hmoved.flushable.numbered, ?_, ?_, ?_, ?_⟩, hlegit, hfiles, ?_, ?_,
    hmoved.next⟩
  · intro hash loc hloc
    rw [hfile, Option.or_eq_some_iff] at hloc
    rcases hloc with hloc | ⟨-, hloc⟩
    · exact hnew _ (JsMap.mem_of_get_ofList hloc)
    · exact (h.named hash loc hloc).trans_le hmoved.next
  · intro hash loc hloc
    rw [hmemory, Option.or_eq_some_iff] at hloc
    rw [hfile, Option.or_eq_some_iff]
    exact hloc.imp_right fun hloc => ⟨hloc.1, h.within hash loc hloc.2⟩
  · intro hash bytes hk hr
    rw [hmemory, hfile]
    cases hdelta : (JsMap.ofList delta).get hash with
    | some loc => rfl
    | none =>
        obtain ⟨loc, pack, hloc, hpack, hx⟩ := hr
        rw [hfile, hdelta] at hloc
        have hsame : u.packs.get loc.packId = s.packs.get loc.packId :=
          hmoved.packs _ (h.named hash loc hloc)
        exact h.kept hash bytes hk ⟨loc, pack, hloc, hsame.symm.trans hpack, hx⟩
  · intro hash b64 hmem
    rw [hmoved.empty] at hmem
    cases hmem
  · intro hash bytes hc
    rw [settled_nil hmoved.empty, hmoved.stores]
    exact h.cached hash bytes (hmoved.cached hash bytes hc)
  · intro hash bytes _ hs
    rw [settled_nil hmoved.empty, hmoved.stores]
    exact hs
  · intro packId hash hlt hat
    cases hget : (JsMap.ofList s.packBuffer).get hash with
    | none => exact (at_congr (hmoved.other hash hget)).1 hat
    | some b64 =>
        obtain ⟨loc, hloc, hid⟩ := hmoved.moved hash b64 hget
        obtain ⟨loc', hloc', rfl⟩ := at_iff.1 hat
        obtain rfl := Option.some.inj (hloc.symm.trans hloc')
        exact absurd hlt (Nat.not_lt.2 hid)

end Flush

section Remove

theorem settled_removed (hr : Removed packId s s') (hs : Settled P s hash bytes)
    (hat : Stores P s hash bytes → ¬ At s packId hash) : Settled P s' hash bytes := by
  rw [Settled, hr.buffer]
  rw [Settled] at hs
  cases hget : (JsMap.ofList s.packBuffer).get hash with
  | none =>
      rw [hget] at hs
      exact (stores_of_removed hr).2 ⟨hs, hat hs⟩
  | some b64 =>
      rw [hget] at hs
      exact hs

/-- A pack that holds no blob to keep can go. -/
theorem moves_removed (h : Linked P data K s) (hr : Removed packId s s')
    (hfile : s'.indexFile = s.indexFile)
    (hdead : ∀ hash bytes, K hash → Stores P s hash bytes → ¬ At s packId hash) :
    Moves P data K s [.removePack packId] s' := by
  have hfiles : (files s).write (.removePack packId) = files s' := by
    rw [files, files, hr.packs, hfile]
    rfl
  have hindex : (files s').load.index = (files s).load.index := by
    rw [← hfiles]
    rfl
  have hfine : Fine P data K (files s) (.removePack packId) := by
    rintro hash bytes loc hk hreads hloc rfl
    have hmem := (h.kept hash bytes hk hreads).trans hloc
    exact hdead hash bytes hk (stores_of_reads h hk hreads) (at_iff.2 ⟨loc, hmem, rfl⟩)
  obtain ⟨hread, -⟩ := readable_removePack h.readable hfine
  rw [hfiles] at hread
  refine ⟨⟨hread, ?_, ?_, ?_, ?_, ?_, ?_⟩, ⟨hfine, trivial⟩, hfiles, ?_, ?_, hr.next.ge⟩
  · intro hash loc hloc
    rw [hindex] at hloc
    exact hr.next ▸ h.named hash loc hloc
  · intro packId' hp
    obtain ⟨pack, hp⟩ := (JsMap.has_iff _ _).1 hp
    rw [hr.packs, JsMap.get_delete] at hp
    split at hp
    · cases hp
    · exact hr.next ▸ h.numbered packId' ((JsMap.has_iff _ _).2 ⟨pack, hp⟩)
  · intro hash loc hloc
    rw [hr.index] at hloc
    rw [hindex]
    split at hloc
    · cases hloc
    · exact h.within hash loc hloc
  · rintro hash bytes hk ⟨loc, pack, hloc, hpack, hx⟩
    rw [hindex] at hloc
    have hpack' : s.packs.get loc.packId = some pack ∧ loc.packId ≠ packId := by
      have hgone : s'.packs.get loc.packId = some pack := hpack
      rw [hr.packs, JsMap.get_delete] at hgone
      split at hgone
      · cases hgone
      · rename_i hne
        exact ⟨hgone, Ne.symm hne⟩
    have hmem := h.kept hash bytes hk ⟨loc, pack, hloc, hpack'.1, hx⟩
    rw [hr.index, hindex, if_neg, hmem]
    intro hat
    obtain ⟨loc', hloc', hid⟩ := at_iff.1 hat
    obtain rfl := Option.some.inj ((hmem.trans hloc).symm.trans hloc')
    exact hpack'.2 hid
  · rw [hr.buffer]
    exact h.buffered
  · intro hash bytes hc
    obtain ⟨hc, hat⟩ := hr.cache hash bytes hc
    exact settled_removed hr (h.cached hash bytes hc) fun _ => hat
  · exact fun hash bytes hk hs => settled_removed hr hs (hdead hash bytes hk)
  · exact fun packId' hash _ hat => ((at_of_removed hr).1 hat).1

theorem indexFile_removeMerged (members : Nat → List String) (s : ContentStore) (packId : Nat) :
    (ContentStore.removeMerged members s packId).indexFile = s.indexFile := by
  rw [ContentStore.removeMerged, ContentStore.dropFrom]
  have hdrop : ∀ (hashes : List String) (t : ContentStore),
      (hashes.foldl (ContentStore.dropIfIn packId) t).indexFile = t.indexFile := by
    intro hashes
    induction hashes with
    | nil => exact fun _ => rfl
    | cons hash hashes ih =>
        intro t
        rw [List.foldl_cons, ih, ContentStore.dropIfIn]
        split
        · rfl
        · rfl
  exact hdrop _ _

/-- The packs that hold no blob to keep, one after another. -/
theorem moves_removeAll {members : Nat → List String} (h : Linked P data K s) {packIds : List Nat}
    (hin : ∀ packId ∈ packIds, ∀ hash, At s packId hash → hash ∈ members packId)
    (hdead : ∀ packId ∈ packIds, ∀ hash bytes, K hash → Stores P s hash bytes →
      ¬ At s packId hash) :
    Moves P data K s (packIds.map .removePack)
      (packIds.foldl (ContentStore.removeMerged members) s) := by
  induction packIds generalizing s with
  | nil => exact moves_refl h
  | cons packId packIds ih =>
      have hr : Removed packId s (ContentStore.removeMerged members s packId) :=
        removed_dropFrom (hin packId List.mem_cons_self)
      have hstep := moves_removed h hr (indexFile_removeMerged members s packId)
        (hdead packId List.mem_cons_self)
      have hrest := ih hstep.linked
        (fun packId' hmem hash hat =>
          hin packId' (List.mem_cons_of_mem _ hmem) hash ((at_of_removed hr).1 hat).1)
        (fun packId' hmem hash bytes hk hs hat =>
          hdead packId' (List.mem_cons_of_mem _ hmem) hash bytes hk
            ((stores_of_removed hr).1 hs).1 ((at_of_removed hr).1 hat).1)
      exact moves_trans hstep hrest

/-- After a flush a pack holds no blob to keep, when they were all buffered. -/
theorem dead_of_flush (h : Linked P data K s) (hlt : packId < s.nextPackId)
    (hbuffered : ∀ hash bytes, K hash → Stores P s hash bytes → At s packId hash →
      hash ∈ s.packBuffer.map Prod.fst) :
    ∀ hash bytes, K hash → Stores P (ContentStore.flushPack B s) hash bytes →
      ¬ At (ContentStore.flushPack B s) packId hash := by
  have hmoved := relocated_flushPack (B := B) (flushable_of_linked h)
  intro hash bytes hk hs hat
  rw [hmoved.stores, Settled] at hs
  cases hget : (JsMap.ofList s.packBuffer).get hash with
  | none =>
      rw [hget] at hs
      have hmem := hbuffered hash bytes hk hs ((at_congr (hmoved.other hash hget)).1 hat)
      exact JsMap.get_ofList_eq_none_iff.1 hget hmem
  | some b64 =>
      obtain ⟨loc, hloc, hid⟩ := hmoved.moved hash b64 hget
      obtain ⟨loc', hloc', rfl⟩ := at_iff.1 hat
      obtain rfl := Option.some.inj (hloc.symm.trans hloc')
      exact absurd hlt (Nat.not_lt.2 hid)

theorem moves_rewriteIndex (h : Linked P data K s) :
    Moves P data K s (rewriteWrites s) (ContentStore.rewriteIndex s) := by
  have hindex : ∀ hash, (files (ContentStore.rewriteIndex s)).load.index.get hash =
      s.index.get hash := fun hash => JsMap.get_ofList_entries s.index hash
  have hfine : Fine P data K (files s) (.writeIndex s.index.entries) := by
    refine ⟨fun e he => h.within e.1 e.2 ((JsMap.mem_entries_iff _).1 he), ?_⟩
    exact fun hash bytes hk hr => (hindex hash).trans (h.kept hash bytes hk hr)
  refine ⟨⟨(readable_writeIndex h.readable hfine).1, ?_, h.numbered, ?_, ?_, h.buffered, h.cached⟩,
    ⟨hfine, trivial⟩, rfl, fun _ _ _ hs => hs, fun _ _ _ hat => hat, Nat.le_refl _⟩
  · intro hash loc hloc
    exact h.named hash loc (h.within hash loc ((hindex hash).symm.trans hloc))
  · exact fun hash loc hloc => (hindex hash).trans hloc
  · exact fun hash _ _ _ => (hindex hash).symm

end Remove

end OpsBlobs.PackLinked
