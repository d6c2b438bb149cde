import OpsBlobs.PackMaintenance

namespace OpsBlobs.PackPasses

open Types PackedContent ContentIntegrity PackMaintenance

variable {P : Platform} {B : Nat} {keepHashes : List String} {s s' : ContentStore}

theorem atRest_rewriteIndex (hi : Intact P s) (hb : s.packBuffer = []) :
    AtRest P (ContentStore.rewriteIndex s) :=
  ⟨⟨hi.indexed, hi.cached, hi.buffered, hi.numbered⟩, hb, mirrored_rewriteIndex⟩

theorem nodup_packIds : (ContentStore.packIds s).Nodup := GraphWalk.nodup_fresh _

theorem packIds_lt (hi : Intact P s) {packId : Nat} (h : packId ∈ ContentStore.packIds s) :
    packId < s.nextPackId := by
  obtain ⟨hash, hat⟩ := mem_packIds_iff.1 h
  exact lt_of_at hi hat

section Gc

variable {aged : Nat → Bool} {members : Nat → List String}

def retires (keepHashes : List String) (aged : Nat → Bool) (members : Nat → List String)
    (packId : Nat) : Bool :=
  aged packId && ContentStore.liveCount keepHashes (members packId) = 0

def compacts (keepHashes : List String) (aged : Nat → Bool) (members : Nat → List String)
    (packId : Nat) : Bool :=
  aged packId && ContentStore.liveCount keepHashes (members packId) ≠ 0 &&
    ContentStore.mostlyDead keepHashes (members packId)

theorem gcSweep_eq (ids : List Nat) (g : ContentStore.GcSweep) :
    ids.foldl (ContentStore.gcPack keepHashes aged members) g =
      ⟨(ids.filter (retires keepHashes aged members)).foldl
          (fun s packId => ContentStore.retire s packId (members packId)) g.store,
        g.toCompact ++ ids.filter (compacts keepHashes aged members),
        g.dirty || ids.any (retires keepHashes aged members)⟩ := by
  induction ids generalizing g with
  | nil => simp
  | cons packId ids ih =>
      rw [List.foldl_cons, ih, ContentStore.gcPack]
      by_cases ha : aged packId = true
      · by_cases hl : ContentStore.liveCount keepHashes (members packId) = 0
        · simp [ha, hl, retires, compacts]
        · by_cases hd : ContentStore.mostlyDead keepHashes (members packId) = true
          · have hlt : ContentStore.liveCount keepHashes (members packId) <
                (members packId).length := by
              have := of_decide_eq_true hd
              omega
            simp [ha, hl, hd, hlt, retires, compacts]
          · simp [ha, hl, hd, retires, compacts]
      · simp [ha, retires, compacts]

/-- A garbage collection takes a blob that is not kept, in an aged pack of which fewer than
half is. -/
def Garbage (keepHashes : List String) (aged : Nat → Bool) (s : ContentStore) (hash : String) :
    Prop :=
  hash ∉ keepHashes ∧ ∃ packId, At s packId hash ∧ aged packId = true ∧
    ContentStore.mostlyDead keepHashes (ContentStore.members s packId) = true

theorem garbage_iff {hash : String} : Garbage keepHashes aged s hash ↔
    ∃ packId ∈ (ContentStore.packIds s).filter
        (retires keepHashes aged (ContentStore.members s)) ++
      (ContentStore.packIds s).filter (compacts keepHashes aged (ContentStore.members s)),
      At s packId hash ∧ hash ∉ keepHashes := by
  have hiff : ∀ packId, At s packId hash →
      (packId ∈ (ContentStore.packIds s).filter
          (retires keepHashes aged (ContentStore.members s)) ++
        (ContentStore.packIds s).filter (compacts keepHashes aged (ContentStore.members s)) ↔
        aged packId = true ∧
          ContentStore.mostlyDead keepHashes (ContentStore.members s packId) = true) := by
    intro packId hat
    have hpos : 0 < (ContentStore.members s packId).length :=
      List.length_pos_of_mem (mem_members_iff.2 hat)
    have hid : packId ∈ ContentStore.packIds s := mem_packIds_iff.2 ⟨hash, hat⟩
    simp only [List.mem_append, List.mem_filter, hid, true_and, retires, compacts,
      ContentStore.mostlyDead, Bool.and_eq_true, decide_eq_true_eq]
    constructor
    · rintro (⟨ha, hl⟩ | ⟨⟨ha, -⟩, hd⟩)
      · exact ⟨ha, by omega⟩
      · exact ⟨ha, hd⟩
    · rintro ⟨ha, hd⟩
      by_cases hl : ContentStore.liveCount keepHashes (ContentStore.members s packId) = 0
      · exact Or.inl ⟨ha, hl⟩
      · exact Or.inr ⟨⟨ha, hl⟩, hd⟩
  constructor
  · rintro ⟨hdead, packId, hat, h⟩
    exact ⟨packId, (hiff packId hat).2 h, hat, hdead⟩
  · rintro ⟨packId, hid, hat, hdead⟩
    exact ⟨hdead, packId, hat, (hiff packId hat).1 hid⟩

/-- What a garbage collection leaves. -/
theorem gc_spec (h : AtRest P s) (keepHashes : List String) (aged : Nat → Bool) :
    ∃ s', ContentStore.gc P B keepHashes aged s = some s' ∧ AtRest P s' ∧
      ∀ hash bytes, Stores P s' hash bytes ↔
        Stores P s hash bytes ∧ ¬ Garbage keepHashes aged s hash := by
  have hdead : ∀ packId ∈ (ContentStore.packIds s).filter
      (retires keepHashes aged (ContentStore.members s)),
      ContentStore.liveCount keepHashes (ContentStore.members s packId) = 0 :=
    fun packId hid => of_decide_eq_true (Bool.and_elim_right (List.mem_filter.1 hid).2)
  have hlt : ∀ packId ∈ (ContentStore.packIds s).filter
      (compacts keepHashes aged (ContentStore.members s)), packId < s.nextPackId :=
    fun packId hid => packIds_lt h.intact (List.mem_filter.1 hid).1
  have hretired := thinned_retireAll h.intact h.flushed (nodup_packIds.filter _)
    List.filter_sublist.subset hdead
  obtain ⟨s', hrun, hs'⟩ := thinned_foldlM
    (fun t packId hi hb => thinned_compactPack (B := B) hi hb packId) hretired hlt
  have hstores : ∀ hash bytes, Stores P s' hash bytes ↔
      Stores P s hash bytes ∧ ¬ Garbage keepHashes aged s hash := by
    intro hash bytes
    rw [hs'.stores, garbage_iff]
  simp only [ContentStore.gc, gcSweep_eq, List.nil_append, Bool.false_or, hrun, Option.map_some]
  split
  · exact ⟨_, rfl, atRest_rewriteIndex hs'.intact hs'.flushed, hstores⟩
  · rename_i hclean
    obtain ⟨hnone, hempty⟩ := not_or.1 hclean
    have hempty := not_not.1 hempty
    have hnone : (ContentStore.packIds s).filter
        (retires keepHashes aged (ContentStore.members s)) = [] := by
      rw [List.filter_eq_nil_iff]
      exact fun packId hid hr => hnone (List.any_eq_true.2 ⟨packId, hid, hr⟩)
    rw [hnone, hempty] at hrun
    obtain rfl := Option.some.inj hrun
    exact ⟨s, rfl, h, hstores⟩

end Gc

section Merge

variable {s₀ s₁ : ContentStore} {done : List Nat} {m : ContentStore.Merging} {packId : Nat}
  {hash : String}

/-- In the middle of a stream merge: since the last flush, the live blobs of the packs that
wait for their removal were copied into the buffer. -/
structure Merged (P : Platform) (keepHashes : List String) (s₀ : ContentStore)
    (done : List Nat) (m : ContentStore.Merging) : Prop where
  base : ∃ s₁, Thinned P keepHashes done s₀ s₁ ∧ Copying P s₁ m.store
  keys : m.store.packBuffer.map Prod.fst =
    m.pendingRemoval.flatMap fun packId => (ContentStore.members s₀ packId).filter (· ∈ keepHashes)

theorem flushAndRetire_eq (members : Nat → List String) (m : ContentStore.Merging) :
    ContentStore.flushAndRetireDeferred B members m = { m with
      store := m.pendingRemoval.foldl (ContentStore.removeMerged members)
        (ContentStore.flushPack B m.store)
      pendingRemoval := [] } := by
  rw [ContentStore.flushAndRetireDeferred]
  split
  · rename_i h
    rw [h.2, ContentStore.flushPack, if_pos h.1]
    cases m
    cases h.2
    rfl
  · rfl

theorem thinned_flushAndRetire (h : Merged P keepHashes s₀ done m)
    (hnodup : (done ++ m.pendingRemoval).Nodup)
    (hlt : ∀ packId ∈ m.pendingRemoval, packId < s₀.nextPackId) :
    Thinned P keepHashes (done ++ m.pendingRemoval) s₀
      (ContentStore.flushAndRetireDeferred B (ContentStore.members s₀) m).store := by
  obtain ⟨s₁, hs₁, hcopy⟩ := h.base
  obtain ⟨-, hqueue, hapart⟩ := List.nodup_append.1 hnodup
  have hf := flushPack_spec (B := B) hcopy.intact
  have hlt₁ : ∀ packId ∈ m.pendingRemoval, packId < s₁.nextPackId :=
    fun packId hid => (hlt packId hid).trans_le hs₁.next
  have hat₁ : ∀ packId ∈ m.pendingRemoval, ∀ hash, At s₁ packId hash ↔ At s₀ packId hash := by
    intro packId hid hash
    rw [hs₁.located packId hash (hlt packId hid)]
    exact and_iff_left fun hd => hapart packId hd packId hid rfl
  have hkeys : ∀ hash, hash ∈ m.store.packBuffer.map Prod.fst ↔
      hash ∈ keepHashes ∧ ∃ packId ∈ m.pendingRemoval, At s₁ packId hash := by
    intro hash
    rw [h.keys, List.mem_flatMap]
    constructor
    · rintro ⟨packId, hid, hmem⟩
      obtain ⟨hmem, hlive⟩ := List.mem_filter.1 hmem
      exact ⟨of_decide_eq_true hlive, packId, hid, (hat₁ packId hid hash).2 (mem_members_iff.1 hmem)⟩
    · rintro ⟨hlive, packId, hid, hat⟩
      exact ⟨packId, hid, List.mem_filter.2 ⟨mem_members_iff.2 ((hat₁ packId hid hash).1 hat),
        decide_eq_true hlive⟩⟩
  have hat := (flush_copies hcopy hf).2
  have hremoved : Thinned P keepHashes m.pendingRemoval (ContentStore.flushPack B m.store)
      (m.pendingRemoval.foldl (ContentStore.removeMerged (ContentStore.members s₀))
        (ContentStore.flushPack B m.store)) := by
    refine thinned_foldl (thinned_nil hf.intact hf.empty) hqueue ?_ ?_ ?_
    · exact fun packId hid => (hlt₁ packId hid).trans_le (hcopy.next.ge.trans hf.next)
    · intro packId hid hash hp hlive
      obtain ⟨hp, hmem⟩ := (hat packId hash (hlt₁ packId hid)).1 hp
      exact hmem ((hkeys hash).2 ⟨hlive, packId, hid, hp⟩)
    · intro done t ht packId hid _
      apply removed_dropFrom
      intro hash hp
      have hlt' := (hlt₁ packId hid).trans_le (hcopy.next.ge.trans hf.next)
      have hp := ((ht.located packId hash hlt').1 hp).1
      have hp := ((hat packId hash (hlt₁ packId hid)).1 hp).1
      exact mem_members_iff.2 ((hat₁ packId hid hash).1 hp)
  rw [flushAndRetire_eq]
  exact thinned_append hs₁ (thinned_of_copies hcopy hlt₁ hkeys hf hremoved) hlt

theorem copying_mergeBlob (hi : Intact P s₁) (h : Copying P s₁ m.store) (hat : At s₁ packId hash)
    {packText : List Char} (hpack : s₁.packs.get packId = some packText) :
    ∃ m', ContentStore.mergeBlob P keepHashes packId packText m hash = some m' ∧
      Copying P s₁ m'.store ∧ m'.pendingRemoval = m.pendingRemoval ∧
      m'.store.packBuffer.map Prod.fst =
        m.store.packBuffer.map Prod.fst ++ [hash].filter (· ∈ keepHashes) := by
  obtain ⟨loc, hloc, rfl⟩ := at_iff.1 hat
  rw [ContentStore.mergeBlob, h.index, hloc]
  dsimp only
  rw [if_neg (not_not.2 rfl)]
  by_cases hlive : hash ∈ keepHashes
  · obtain ⟨bytes, hs⟩ := hi.indexed hash loc hloc
    obtain ⟨loc', pack, hloc', hpack', hx⟩ := id hs
    obtain rfl := Option.some.inj (hloc.symm.trans hloc')
    obtain rfl := Option.some.inj (hpack.symm.trans hpack')
    have hcached : ∀ k b, m.store.memCache.blobs.get k = some b → Stores P m.store k b :=
      fun k b hk => (settled_moving h.moving).1 (h.intact.cached k b hk)
    rw [if_neg (not_not.2 hlive), hx]
    refine ⟨_, rfl, copying_push h hs (hash_of_extract hx).2 hcached m.store.pending, rfl, ?_⟩
    dsimp only
    rw [List.map_append]
    simp [hlive]
  · rw [if_pos hlive]
    refine ⟨_, rfl, h, rfl, ?_⟩
    simp [hlive]

variable (keepHashes) in
theorem copying_mergeBlobs (hi : Intact P s₁) (h : Copying P s₁ m.store) {hashes : List String}
    (hat : ∀ hash ∈ hashes, At s₁ packId hash) {packText : List Char}
    (hpack : s₁.packs.get packId = some packText) :
    ∃ m', hashes.foldlM (ContentStore.mergeBlob P keepHashes packId packText) m = some m' ∧
      Copying P s₁ m'.store ∧ m'.pendingRemoval = m.pendingRemoval ∧
      m'.store.packBuffer.map Prod.fst =
        m.store.packBuffer.map Prod.fst ++ hashes.filter (· ∈ keepHashes) := by
  induction hashes generalizing m with
  | nil => exact ⟨m, rfl, h, rfl, (List.append_nil _).symm⟩
  | cons hash hashes ih =>
      obtain ⟨m₁, hstep, hcopy, hq, hkeys⟩ :=
        copying_mergeBlob (m := m) hi h (hat hash List.mem_cons_self) hpack
      obtain ⟨m', hrun, hcopy', hq', hkeys'⟩ := ih hcopy fun k hk => hat k (List.mem_cons_of_mem _ hk)
      refine ⟨m', ?_, hcopy', hq'.trans hq, ?_⟩
      · rw [List.foldlM_cons, hstep]
        exact hrun
      · rw [hkeys', hkeys, List.append_assoc, ← List.filter_append]
        rfl

theorem merged_mergePack (flushEvery : Nat) (h : Merged P keepHashes s₀ done m)
    (hi₀ : Intact P s₀) (hnodup : (done ++ m.pendingRemoval ++ [packId]).Nodup)
    (hids : done ++ m.pendingRemoval ++ [packId] ⊆ ContentStore.packIds s₀) :
    ∃ done' m', ContentStore.mergePack P B keepHashes flushEvery (ContentStore.members s₀) m
        packId = some m' ∧ Merged P keepHashes s₀ done' m' ∧
      done' ++ m'.pendingRemoval = done ++ m.pendingRemoval ++ [packId] := by
  obtain ⟨s₁, hs₁, hcopy⟩ := id h.base
  have hnew : packId ∉ done :=
    fun hd => (List.nodup_append.1 hnodup).2.2 packId (List.mem_append_left _ hd) packId
      (List.mem_singleton_self _) rfl
  have hid := hids (List.mem_append_right _ (List.mem_singleton_self packId))
  have hlt₀ : packId < s₀.nextPackId := packIds_lt hi₀ hid
  have hat : ∀ hash, At s₀ packId hash → At s₁ packId hash :=
    fun hash hp => (hs₁.located packId hash hlt₀).2 ⟨hp, hnew⟩
  obtain ⟨hash, hp⟩ := mem_packIds_iff.1 hid
  obtain ⟨bytes, loc, packText, hloc, hpack, -⟩ := stores_of_at hs₁.intact (hat hash hp)
  obtain ⟨loc', hloc', hid'⟩ := at_iff.1 (hat hash hp)
  obtain rfl := Option.some.inj (hloc.symm.trans hloc')
  rw [hid'] at hpack
  obtain ⟨m₁, hrun, hcopy₁, hq₁, hkeys₁⟩ := copying_mergeBlobs keepHashes hs₁.intact
    hcopy (fun k hk => hat k (mem_members_iff.1 hk)) hpack
  have hmerged : Merged P keepHashes s₀ done
      { m₁ with pendingRemoval := m₁.pendingRemoval ++ [packId] } := by
    refine ⟨⟨s₁, hs₁, hcopy₁⟩, ?_⟩
    rw [hkeys₁, h.keys, hq₁, List.flatMap_append, List.flatMap_singleton]
  rw [← hq₁] at hids hnodup ⊢
  rw [ContentStore.mergePack, hcopy.packs, hpack]
  dsimp only
  rw [hrun, Option.map_some]
  split
  · have hflushed := thinned_flushAndRetire (B := B) hmerged
      (by rw [← List.append_assoc]; exact hnodup) (by
        intro k hk
        apply packIds_lt hi₀
        apply hids
        rw [List.append_assoc]
        exact List.mem_append_right _ hk)
    have hempty := flushAndRetire_eq (B := B) (ContentStore.members s₀)
      { m₁ with pendingRemoval := m₁.pendingRemoval ++ [packId] }
    have hq : (ContentStore.flushAndRetireDeferred B (ContentStore.members s₀)
        { m₁ with pendingRemoval := m₁.pendingRemoval ++ [packId] }).pendingRemoval = [] := by
      rw [hempty]
    refine ⟨_, _, rfl, ⟨⟨_, hflushed, hflushed.intact, moving_nil hflushed.flushed, rfl, rfl, rfl⟩,
      ?_⟩, ?_⟩
    · rw [hq, hflushed.flushed]
      rfl
    · rw [hq, List.append_nil, List.append_assoc]
  · exact ⟨done, _, rfl, hmerged, (List.append_assoc _ _ _).symm⟩

theorem merged_run (flushEvery : Nat) {packIds : List Nat} (h : Merged P keepHashes s₀ done m)
    (hi₀ : Intact P s₀) (hnodup : (done ++ m.pendingRemoval ++ packIds).Nodup)
    (hids : done ++ m.pendingRemoval ++ packIds ⊆ ContentStore.packIds s₀) :
    ∃ done' m', packIds.foldlM
        (ContentStore.mergePack P B keepHashes flushEvery (ContentStore.members s₀)) m = some m' ∧
      Merged P keepHashes s₀ done' m' ∧
      done' ++ m'.pendingRemoval = done ++ m.pendingRemoval ++ packIds := by
  induction packIds generalizing m done with
  | nil => exact ⟨done, m, rfl, h, (List.append_nil _).symm⟩
  | cons packId packIds ih =>
      rw [List.append_cons] at hnodup hids
      obtain ⟨done₁, m₁, hstep, hm₁, hdone₁⟩ := merged_mergePack (B := B) flushEvery h hi₀
        hnodup.of_append_left (List.Subset.trans (List.subset_append_left _ _) hids)
      rw [← hdone₁] at hnodup hids
      obtain ⟨done', m', hrun, hm', hdone'⟩ := ih hm₁ hnodup hids
      refine ⟨done', m', ?_, hm', ?_⟩
      · rw [List.foldlM_cons, hstep]
        exact hrun
      · rw [hdone', hdone₁, ← List.append_cons]

/-- The small packs go, and their live blobs are elsewhere. -/
theorem thinned_streamMerge (flushEvery kept dropped : Nat) {packIds : List Nat}
    (hi₀ : Intact P s₀) (h : Thinned P keepHashes done s₀ s) (hnodup : (done ++ packIds).Nodup)
    (hids : done ++ packIds ⊆ ContentStore.packIds s₀) :
    ∃ m, packIds.foldlM
        (ContentStore.mergePack P B keepHashes flushEvery (ContentStore.members s₀))
        ⟨s, [], kept, dropped⟩ = some m ∧
      Thinned P keepHashes (done ++ packIds) s₀
        (ContentStore.flushAndRetireDeferred B (ContentStore.members s₀) m).store := by
  have hstart : Merged P keepHashes s₀ done ⟨s, [], kept, dropped⟩ :=
    ⟨⟨s, h, h.intact, moving_nil h.flushed, rfl, rfl, rfl⟩, by rw [h.flushed]; rfl⟩
  rw [← List.append_nil done] at hnodup hids
  obtain ⟨done', m, hrun, hm, hdone⟩ := merged_run (B := B) flushEvery hstart hi₀ hnodup hids
  rw [← hdone] at hnodup hids
  refine ⟨m, hrun, ?_⟩
  have hmerged := thinned_flushAndRetire (B := B) hm hnodup
    fun k hk => packIds_lt hi₀ (hids (List.mem_append_right _ hk))
  rw [hdone, List.append_nil] at hmerged
  exact hmerged

end Merge

section Consolidate

/-- What a consolidation leaves: the blobs to keep, with their bytes. -/
theorem consolidatePacks_spec (h : AtRest P s) (keepHashes : List String)
    (smallPackThreshold flushEvery : Nat) :
    ∃ result s', ContentStore.consolidatePacks P B keepHashes smallPackThreshold flushEvery s =
        some (result, s') ∧ AtRest P s' ∧
      ∀ hash bytes, Stores P s' hash bytes ↔ Stores P s hash bytes ∧ hash ∈ keepHashes := by
  have hi := h.intact
  generalize hretire : (ContentStore.packIds s).filter (fun packId =>
    ContentStore.liveCount keepHashes (ContentStore.members s packId) = 0) = toRetire
  generalize hstream : (ContentStore.packIds s).filter (fun packId =>
    ContentStore.liveCount keepHashes (ContentStore.members s packId) ≠ 0 ∧
      ContentStore.liveCount keepHashes (ContentStore.members s packId) < smallPackThreshold) =
    toStreamMerge
  generalize hcompact : (ContentStore.packIds s).filter (fun packId =>
    ContentStore.liveCount keepHashes (ContentStore.members s packId) ≠ 0 ∧
      smallPackThreshold ≤ ContentStore.liveCount keepHashes (ContentStore.members s packId) ∧
      ContentStore.liveCount keepHashes (ContentStore.members s packId) <
        (ContentStore.members s packId).length) = toCompactInPlace
  have hretired : Thinned P keepHashes toRetire s (toRetire.foldl
      (fun t packId => ContentStore.retire t packId (ContentStore.members s packId)) s) := by
    subst hretire
    exact thinned_retireAll hi h.flushed (nodup_packIds.filter _) List.filter_sublist.subset
      fun packId hid => of_decide_eq_true (List.mem_filter.1 hid).2
  have hids : toRetire ++ toStreamMerge ⊆ ContentStore.packIds s := by
    subst hretire hstream
    exact List.append_subset.2 ⟨List.filter_sublist.subset, List.filter_sublist.subset⟩
  have hnodup : (toRetire ++ toStreamMerge).Nodup := by
    subst hretire hstream
    refine List.nodup_append.2 ⟨nodup_packIds.filter _, nodup_packIds.filter _, ?_⟩
    rintro packId hr _ hm rfl
    exact (of_decide_eq_true (List.mem_filter.1 hm).2).1 (of_decide_eq_true (List.mem_filter.1 hr).2)
  obtain ⟨m, hmerge, hmerged⟩ := thinned_streamMerge (B := B) flushEvery 0
    (toRetire.map (fun packId => (ContentStore.members s packId).length)).sum hi hretired hnodup hids
  have hlt : ∀ packId ∈ toCompactInPlace, packId < s.nextPackId := by
    subst hcompact
    exact fun packId hid => packIds_lt hi (List.mem_filter.1 hid).1
  obtain ⟨s', hrun, hs'⟩ := thinned_foldlM
    (fun t packId hi hb => thinned_compactPack (B := B) hi hb packId) hmerged hlt
  have hstores : ∀ hash bytes, Stores P s' hash bytes ↔ Stores P s hash bytes ∧ hash ∈ keepHashes := by
    intro hash bytes
    rw [hs'.stores]
    apply and_congr_right
    intro hs
    rw [not_iff_comm]
    constructor
    · intro hdead
      obtain ⟨loc, -, hloc, -⟩ := hs
      have hat : At s loc.packId hash := at_iff.2 ⟨loc, hloc, rfl⟩
      have hid : loc.packId ∈ ContentStore.packIds s := mem_packIds_iff.2 ⟨hash, hat⟩
      have hless := liveCount_lt_iff.2 ⟨hash, mem_members_iff.2 hat, hdead⟩
      refine ⟨loc.packId, ?_, hat, hdead⟩
      subst hretire hstream hcompact
      simp only [List.mem_append, List.mem_filter, hid, true_and, decide_eq_true_eq]
      omega
    · rintro ⟨packId, -, -, hdead⟩
      exact hdead
  have hresult : ∃ result, ContentStore.consolidatePacks P B keepHashes smallPackThreshold
      flushEvery s = some (result, if toRetire ++ toStreamMerge ++ toCompactInPlace = [] then s'
        else ContentStore.rewriteIndex s') := by
    simp only [ContentStore.consolidatePacks, hretire, hstream, hcompact, hmerge, hrun,
      Option.bind_eq_bind, Option.bind_some, Option.pure_def]
    exact ⟨_, rfl⟩
  obtain ⟨result, hresult⟩ := hresult
  by_cases hnone : toRetire ++ toStreamMerge ++ toCompactInPlace = []
  · rw [if_pos hnone] at hresult
    obtain ⟨hfirst, rfl⟩ := List.append_eq_nil_iff.1 hnone
    obtain ⟨rfl, rfl⟩ := List.append_eq_nil_iff.1 hfirst
    obtain rfl := Option.some.inj hmerge
    obtain rfl := Option.some.inj hrun
    have hsame : (ContentStore.flushAndRetireDeferred B (ContentStore.members s)
        ⟨s, [], 0, 0⟩).store = s := by
      rw [flushAndRetire_eq, ContentStore.flushPack, if_pos h.flushed]
      rfl
    exact ⟨result, _, hresult, hsame.symm ▸ h, hstores⟩
  · rw [if_neg hnone] at hresult
    exact ⟨result, _, hresult, atRest_rewriteIndex hs'.intact hs'.flushed, hstores⟩

end Consolidate

end OpsBlobs.PackPasses
