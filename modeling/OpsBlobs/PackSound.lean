import OpsBlobs.PackLinked

namespace OpsBlobs.PackSound

open Types PackedContent ContentIntegrity PackMaintenance PackPasses PackRefinement PackIndexFile
  PackFiles PackScript PackLinked

variable {P : Platform} {B : Nat} {data : List Bytes} {K : String → Prop}
  {keepHashes : List String} {s s' t : ContentStore} {packId : Nat} {hash : String} {bytes : Bytes}

/-- A loop whose passes each do what their calls on the files say. -/
theorem moves_over {σ α : Type} (g : σ → ContentStore) {f : σ → α → Option σ}
    {w : σ → α → List Write} (Inv : List α → σ → Prop)
    (hlinked : ∀ m, Inv [] m → Linked P data K (g m))
    (hstep : ∀ m a rest, Inv (a :: rest) m →
      ∃ m', f m a = some m' ∧ Moves P data K (g m) (w m a) (g m') ∧ Inv rest m')
    {l : List α} {m : σ} (h : Inv l m) :
    ∃ m', l.foldlM f m = some m' ∧ Moves P data K (g m) (writesOver f w m l) (g m') ∧
      Inv [] m' := by
  induction l generalizing m with
  | nil => exact ⟨m, rfl, moves_refl (hlinked m h), h⟩
  | cons a l ih =>
      obtain ⟨m₁, hrun₁, hmoves₁, h₁⟩ := hstep m a l h
      obtain ⟨m', hrun, hmoves, h'⟩ := ih h₁
      refine ⟨m', ?_, ?_, h'⟩
      · rw [List.foldlM_cons, hrun₁]
        exact hrun
      · rw [writesOver, hrun₁]
        exact moves_trans hmoves₁ hmoves

section Compact

theorem moves_compactPack (hd : Distinct P data)
    (hplain : ∀ content ∈ data, Plain (P.sha256Hex content))
    (h : Linked P data (· ∈ keepHashes) s) (hlt : packId < s.nextPackId) :
    ∃ s', ContentStore.compactPack P B keepHashes s packId = some s' ∧
      Moves P data (· ∈ keepHashes) s (compactWrites P B keepHashes s packId) s' := by
  obtain ⟨t, hrun, ht, hbuffered⟩ := filled_rebuffers (B := B) hd h
    ((ContentStore.members s packId).filter (· ∈ keepHashes))
  have hflush := moves_flush (B := B) hd hplain ht.moves.linked
  have hlt' := hlt.trans_le ht.moves.next
  have hin : ∀ hash, At (ContentStore.flushPack B t) packId hash →
      hash ∈ ContentStore.members s packId :=
    fun hash hat => mem_members_iff.2
      (ht.moves.located packId hash hlt (hflush.located packId hash hlt' hat))
  have hdead := dead_of_flush (B := B) ht.moves.linked hlt' fun hash bytes hk hs hat => by
    refine hbuffered hash (List.mem_filter.2 ⟨?_, decide_eq_true hk⟩) bytes
      ((stores_congr ht.index ht.packs).1 hs)
    exact mem_members_iff.2 (ht.moves.located packId hash hlt hat)
  have hremove : Moves P data (· ∈ keepHashes) (ContentStore.flushPack B t) [.removePack packId]
      (ContentStore.removeMerged (fun _ => ContentStore.members s packId)
        (ContentStore.flushPack B t) packId) :=
    moves_removed hflush.linked (removed_dropFrom hin) (indexFile_removeMerged _ _ packId) hdead
  have hmoves := moves_trans ht.moves (moves_trans hflush hremove)
  rw [ContentStore.compactPack, compactWrites, hrun]
  exact ⟨_, rfl, hmoves⟩

/-- The packs that are still to be compacted are older than the next one. -/
structure Compacting (P : Platform) (data : List Bytes) (keepHashes : List String)
    (packIds : List Nat) (s : ContentStore) : Prop where
  linked : Linked P data (· ∈ keepHashes) s
  older : ∀ packId ∈ packIds, packId < s.nextPackId

theorem compacting_step (hd : Distinct P data)
    (hplain : ∀ content ∈ data, Plain (P.sha256Hex content)) {rest : List Nat}
    (h : Compacting P data keepHashes (packId :: rest) s) :
    ∃ s', ContentStore.compactPack P B keepHashes s packId = some s' ∧
      Moves P data (· ∈ keepHashes) s (compactWrites P B keepHashes s packId) s' ∧
      Compacting P data keepHashes rest s' := by
  obtain ⟨s', hrun, hmoves⟩ := moves_compactPack (B := B) hd hplain h.linked
    (h.older packId List.mem_cons_self)
  refine ⟨s', hrun, hmoves, hmoves.linked, fun packId' hmem => ?_⟩
  exact (h.older packId' (List.mem_cons_of_mem _ hmem)).trans_le hmoves.next

/-- Compacting packs one after another. -/
theorem moves_compactAll (hd : Distinct P data)
    (hplain : ∀ content ∈ data, Plain (P.sha256Hex content))
    (h : Linked P data (· ∈ keepHashes) s) {packIds : List Nat}
    (hlt : ∀ packId ∈ packIds, packId < s.nextPackId) :
    ∃ s', packIds.foldlM (ContentStore.compactPack P B keepHashes) s = some s' ∧
      Moves P data (· ∈ keepHashes) s (writesOver (ContentStore.compactPack P B keepHashes)
        (compactWrites P B keepHashes) s packIds) s' := by
  obtain ⟨s', hrun, hmoves, -⟩ := moves_over id (Compacting P data keepHashes)
    (fun t ht => ht.linked) (fun t packId rest ht => compacting_step (B := B) hd hplain ht) ⟨h, hlt⟩
  exact ⟨s', hrun, hmoves⟩

end Compact

section Retire

/-- Packs whose members are still those they had lose them one after another. -/
theorem retireAll_eq {members : Nat → List String} {packIds : List Nat} (hnodup : packIds.Nodup)
    (hmembers : ∀ packId ∈ packIds, (members packId).Nodup)
    (hin : ∀ packId ∈ packIds, ∀ hash, At s packId hash ↔ hash ∈ members packId) :
    packIds.foldl (fun s packId => ContentStore.retire s packId (members packId)) s =
      packIds.foldl (ContentStore.removeMerged members) s := by
  induction packIds generalizing s with
  | nil => rfl
  | cons packId packIds ih =>
      obtain ⟨hnew, hnodup⟩ := List.nodup_cons.1 hnodup
      have heq : ContentStore.retire s packId (members packId) =
          ContentStore.removeMerged members s packId :=
        retire_eq (hmembers packId List.mem_cons_self)
          fun hash hmem => (hin packId List.mem_cons_self hash).2 hmem
      have hr : Removed packId s (ContentStore.removeMerged members s packId) :=
        removed_dropFrom fun hash hat => (hin packId List.mem_cons_self hash).1 hat
      rw [List.foldl_cons, List.foldl_cons, heq]
      refine ih hnodup (fun p hp => hmembers p (List.mem_cons_of_mem _ hp)) ?_
      intro p hp hash
      rw [at_of_removed hr, ← hin p (List.mem_cons_of_mem _ hp)]
      refine and_iff_left ?_
      rintro rfl
      exact hnew hp

/-- Removing packs of which no blob is live. -/
theorem moves_retireAll (h : Linked P data (· ∈ keepHashes) s) {packIds : List Nat}
    (hnodup : packIds.Nodup) (hdead : ∀ packId ∈ packIds,
      ContentStore.liveCount keepHashes (ContentStore.members s packId) = 0) :
    Moves P data (· ∈ keepHashes) s (packIds.map .removePack) (packIds.foldl
      (fun t packId => ContentStore.retire t packId (ContentStore.members s packId)) s) := by
  rw [retireAll_eq hnodup (fun _ _ => nodup_members) fun _ _ _ => mem_members_iff.symm]
  refine moves_removeAll h (fun _ _ _ hat => mem_members_iff.2 hat) ?_
  intro packId hid hash bytes hk _ hat
  exact liveCount_eq_zero_iff.1 (hdead packId hid) hash (mem_members_iff.2 hat) hk

end Retire

section Gc

variable {aged : Nat → Bool}

theorem flatMap_gcPackWrites (members : Nat → List String) (ids : List Nat) :
    ids.flatMap (gcPackWrites keepHashes aged members) =
      (ids.filter (retires keepHashes aged members)).map .removePack := by
  induction ids with
  | nil => rfl
  | cons packId ids ih =>
      rw [List.flatMap_cons, ih, gcPackWrites, List.filter_cons]
      by_cases hr : aged packId = true ∧ ContentStore.liveCount keepHashes (members packId) = 0
      · simp [retires, hr]
      · have hno : retires keepHashes aged members packId = false := by
          simpa [retires] using hr
        rw [if_neg hr, hno]
        rfl

theorem moves_gc (hd : Distinct P data) (hplain : ∀ content ∈ data, Plain (P.sha256Hex content))
    (h : Linked P data (· ∈ keepHashes) s) (hm : Mirrored s) (aged : Nat → Bool) :
    ∃ s', ContentStore.gc P B keepHashes aged s = some s' ∧
      Moves P data (· ∈ keepHashes) s (gcWrites P B keepHashes aged s) s' ∧ Mirrored s' := by
  have hdead : ∀ packId ∈ (ContentStore.packIds s).filter
      (retires keepHashes aged (ContentStore.members s)),
      ContentStore.liveCount keepHashes (ContentStore.members s packId) = 0 :=
    fun packId hid => of_decide_eq_true (Bool.and_elim_right (List.mem_filter.1 hid).2)
  have hretired := moves_retireAll h (nodup_packIds.filter _) hdead
  have hlt : ∀ packId ∈ (ContentStore.packIds s).filter
      (compacts keepHashes aged (ContentStore.members s)), packId < s.nextPackId := by
    intro packId hid
    obtain ⟨hash, hat⟩ := mem_packIds_iff.1 (List.mem_filter.1 hid).1
    exact lt_of_at_linked h hat
  obtain ⟨u, hrun, hcompact⟩ := moves_compactAll (B := B) hd hplain hretired.linked
    fun packId hid => (hlt packId hid).trans_le hretired.next
  have hmoves := moves_trans hretired hcompact
  simp only [ContentStore.gc, gcWrites, gcSweep_eq, flatMap_gcPackWrites, List.nil_append,
    Bool.false_or, hrun, Option.map_some]
  split
  · exact ⟨_, rfl, moves_trans hmoves (moves_rewriteIndex hmoves.linked), mirrored_rewriteIndex⟩
  · rename_i hclean
    obtain ⟨hnone, hempty⟩ := not_or.1 hclean
    have hempty := not_not.1 hempty
    have hnone : (ContentStore.packIds s).filter
        (retires keepHashes aged (ContentStore.members s)) = [] := by
      rw [List.filter_eq_nil_iff]
      exact fun packId hid hr => hnone (List.any_eq_true.2 ⟨packId, hid, hr⟩)
    rw [hnone, hempty] at hrun hmoves ⊢
    obtain rfl := Option.some.inj hrun
    exact ⟨_, rfl, hmoves, hm⟩

end Gc

section Merge

variable {m m' : ContentStore.Merging} {members : Nat → List String} {packText : List Char}

theorem filled_mergeBlob (hd : Distinct P data) (h : Linked P data (· ∈ keepHashes) m.store)
    (hpack : m.store.packs.get packId = some packText) (hash : String) :
    ∃ m', ContentStore.mergeBlob P keepHashes packId packText m hash = some m' ∧
      Filled P data (· ∈ keepHashes) m.store m'.store ∧ m'.pendingRemoval = m.pendingRemoval ∧
      ∀ bytes, hash ∈ keepHashes → Stores P m.store hash bytes → At m.store packId hash →
        hash ∈ m'.store.packBuffer.map Prod.fst := by
  have hsame := filled_cache h h.cached
  rw [ContentStore.mergeBlob]
  cases hloc : m.store.index.get hash with
  | none =>
      refine ⟨m, rfl, hsame, rfl, fun bytes _ hs _ => ?_⟩
      obtain ⟨loc, -, hl, -⟩ := hs
      cases hloc.symm.trans hl
  | some loc =>
      dsimp only
      split
      · rename_i hne
        refine ⟨m, rfl, hsame, rfl, fun bytes _ _ hat => ?_⟩
        obtain ⟨loc', hl, hid⟩ := at_iff.1 hat
        obtain rfl := Option.some.inj (hloc.symm.trans hl)
        exact absurd hid hne
      · rename_i hid
        obtain rfl := not_not.1 hid
        split
        · rename_i hdead
          exact ⟨_, rfl, hsame, rfl, fun _ hk _ _ => absurd hk hdead⟩
        · obtain ⟨found, hx⟩ := decodes_of_linked h hash loc packText hloc hpack
          rw [hx]
          cases found with
          | none =>
              refine ⟨_, rfl, hsame, rfl, fun bytes _ hs _ => ?_⟩
              obtain ⟨loc', pack, hl, hp, hx'⟩ := hs
              obtain rfl := Option.some.inj (hloc.symm.trans hl)
              obtain rfl := Option.some.inj (hpack.symm.trans hp)
              cases hx.symm.trans hx'
          | some bytes =>
              obtain ⟨hmem, rfl⟩ := known_of_settled h
                (settled_of_stored hd h ⟨loc, packText, hloc, hpack, hx⟩)
              refine ⟨_, rfl, filled_push hd h hmem (hash_of_extract hx).2
                (fun k b hk => Or.inr (h.cached k b hk)) m.store.pending, rfl, fun _ _ _ _ => ?_⟩
              dsimp only
              rw [List.map_append]
              exact List.mem_append_right _ List.mem_cons_self

theorem filled_mergeBlobs (hd : Distinct P data) (h : Linked P data (· ∈ keepHashes) m.store)
    (hpack : m.store.packs.get packId = some packText) (hashes : List String) :
    ∃ m', hashes.foldlM (ContentStore.mergeBlob P keepHashes packId packText) m = some m' ∧
      Filled P data (· ∈ keepHashes) m.store m'.store ∧ m'.pendingRemoval = m.pendingRemoval ∧
      ∀ hash ∈ hashes, ∀ bytes, hash ∈ keepHashes → Stores P m.store hash bytes →
        At m.store packId hash → hash ∈ m'.store.packBuffer.map Prod.fst := by
  induction hashes generalizing m with
  | nil => exact ⟨m, rfl, filled_cache h h.cached, rfl, nofun⟩
  | cons hash hashes ih =>
      obtain ⟨m₁, hstep, h₁, hqueue₁, hmine⟩ := filled_mergeBlob hd h hpack hash
      obtain ⟨m', hrun, h', hqueue', hrest⟩ := ih h₁.moves.linked (h₁.packs ▸ hpack)
      refine ⟨m', ?_, filled_trans h₁ h', hqueue'.trans hqueue₁, ?_⟩
      · rw [List.foldlM_cons, hstep]
        exact hrun
      · intro k hmem bytes hk hs hat
        rcases List.mem_cons.1 hmem with rfl | hmem
        · exact h'.buffered (hmine bytes hk hs hat)
        · exact hrest k hmem bytes hk ((stores_congr h₁.index h₁.packs).2 hs)
            ((at_congr (congrArg (JsMap.get · k) h₁.index)).2 hat)

/-- In the middle of a stream merge: the blobs to keep of the packs that wait for their removal
are buffered. -/
structure Merging (P : Platform) (data : List Bytes) (keepHashes : List String)
    (members : Nat → List String) (packIds : List Nat) (m : ContentStore.Merging) : Prop where
  linked : Linked P data (· ∈ keepHashes) m.store
  older : ∀ packId ∈ m.pendingRemoval ++ packIds, packId < m.store.nextPackId
  located : ∀ packId ∈ m.pendingRemoval ++ packIds, ∀ hash, At m.store packId hash →
    hash ∈ members packId
  buffered : ∀ packId ∈ m.pendingRemoval, ∀ hash bytes, hash ∈ keepHashes →
    Stores P m.store hash bytes → At m.store packId hash → hash ∈ m.store.packBuffer.map Prod.fst

theorem moves_deferred (hd : Distinct P data)
    (hplain : ∀ content ∈ data, Plain (P.sha256Hex content)) {packIds : List Nat}
    (h : Merging P data keepHashes members packIds m) :
    Moves P data (· ∈ keepHashes) m.store (deferredWrites m)
      (ContentStore.flushAndRetireDeferred B members m).store := by
  have hflush := moves_flush (B := B) hd hplain h.linked
  have hwaits : ∀ packId ∈ m.pendingRemoval, packId ∈ m.pendingRemoval ++ packIds :=
    fun packId hmem => List.mem_append_left _ hmem
  have hremove : Moves P data (· ∈ keepHashes) (ContentStore.flushPack B m.store)
      (m.pendingRemoval.map .removePack)
      (m.pendingRemoval.foldl (ContentStore.removeMerged members)
        (ContentStore.flushPack B m.store)) :=
    moves_removeAll hflush.linked
      (fun packId hmem hash hat => h.located packId (hwaits packId hmem) hash
        (hflush.located packId hash (h.older packId (hwaits packId hmem)) hat))
      (fun packId hmem => dead_of_flush h.linked (h.older packId (hwaits packId hmem))
        (h.buffered packId hmem))
  rw [flushAndRetire_eq]
  exact moves_trans hflush hremove

theorem merging_mergePack (hd : Distinct P data)
    (hplain : ∀ content ∈ data, Plain (P.sha256Hex content)) (flushEvery : Nat) {rest : List Nat}
    (h : Merging P data keepHashes members (packId :: rest) m) :
    ∃ m', ContentStore.mergePack P B keepHashes flushEvery members m packId = some m' ∧
      Moves P data (· ∈ keepHashes) m.store (mergeWrites P keepHashes flushEvery members m packId)
        m'.store ∧ Merging P data keepHashes members rest m' := by
  have hmine : packId ∈ m.pendingRemoval ++ packId :: rest :=
    List.mem_append_right _ List.mem_cons_self
  have hlater : ∀ p ∈ m.pendingRemoval ++ rest, p ∈ m.pendingRemoval ++ packId :: rest := by
    intro p hp
    rcases List.mem_append.1 hp with hp | hp
    · exact List.mem_append_left _ hp
    · exact List.mem_append_right _ (List.mem_cons_of_mem _ hp)
  rw [ContentStore.mergePack, mergeWrites]
  cases hpack : m.store.packs.get packId with
  | none =>
      exact ⟨m, rfl, moves_refl h.linked, h.linked, fun p hp => h.older p (hlater p hp),
        fun p hp => h.located p (hlater p hp), h.buffered⟩
  | some packText =>
      obtain ⟨m₁, hrun, h₁, hqueue, hbuffered⟩ :=
        filled_mergeBlobs hd h.linked hpack (members packId)
      dsimp only
      rw [hrun]
      have hmerging : Merging P data keepHashes members rest
          { m₁ with pendingRemoval := m₁.pendingRemoval ++ [packId] } := by
        have hall : ∀ p ∈ m₁.pendingRemoval ++ [packId] ++ rest,
            p ∈ m.pendingRemoval ++ packId :: rest := by
          rw [hqueue, List.append_assoc]
          exact fun p hp => hp
        have hat : ∀ p hash, At m₁.store p hash → At m.store p hash :=
          fun p hash hat => (at_congr (congrArg (JsMap.get · hash) h₁.index)).1 hat
        refine ⟨h₁.moves.linked, ?_, ?_, ?_⟩
        · exact fun p hp => (h.older p (hall p hp)).trans_le h₁.moves.next
        · exact fun p hp hash hp' => h.located p (hall p hp) hash (hat p hash hp')
        · intro p hp hash bytes hk hs hp'
          have hstored := (stores_congr h₁.index h₁.packs).1 hs
          rcases List.mem_append.1 hp with hp | hp
          · exact h₁.buffered (h.buffered p (hqueue ▸ hp) hash bytes hk hstored (hat p hash hp'))
          · obtain rfl := List.mem_singleton.1 hp
            exact hbuffered hash (h.located p hmine hash (hat p hash hp')) bytes hk hstored
              (hat p hash hp')
      rw [Option.map_some]
      dsimp only
      split
      · have hmoves := moves_deferred (B := B) hd hplain hmerging
        have hall := moves_trans h₁.moves hmoves
        refine ⟨_, rfl, hall, ?_⟩
        have hnone : (ContentStore.flushAndRetireDeferred B members
            { m₁ with pendingRemoval := m₁.pendingRemoval ++ [packId] }).pendingRemoval = [] := by
          rw [flushAndRetire_eq]
        refine ⟨hmoves.linked, ?_, ?_, ?_⟩
        · intro p hp
          rw [hnone] at hp
          exact (hmerging.older p (List.mem_append_right _ hp)).trans_le hmoves.next
        · intro p hp hash hat
          rw [hnone] at hp
          have hp : p ∈ m₁.pendingRemoval ++ [packId] ++ rest := List.mem_append_right _ hp
          exact hmerging.located p hp hash (hmoves.located p hash (hmerging.older p hp) hat)
        · intro p hp
          rw [hnone] at hp
          cases hp
      · exact ⟨_, rfl, h₁.moves, hmerging⟩

end Merge

section Consolidate

theorem moves_consolidatePacks (hd : Distinct P data)
    (hplain : ∀ content ∈ data, Plain (P.sha256Hex content))
    (h : Linked P data (· ∈ keepHashes) s) (hm : Mirrored s) (smallPackThreshold flushEvery : Nat) :
    ∃ result s', ContentStore.consolidatePacks P B keepHashes smallPackThreshold flushEvery s =
        some (result, s') ∧
      Moves P data (· ∈ keepHashes) s
        (consolidateWrites P B keepHashes smallPackThreshold flushEvery s) s' ∧ Mirrored s' := by
  simp only [ContentStore.consolidatePacks, consolidateWrites]
  generalize hretire : (ContentStore.packIds s).filter (fun packId =>
    ContentStore.liveCount keepHashes (ContentStore.members s packId) = 0) = toRetire
  generalize hstream : (ContentStore.packIds s).filter (fun packId =>
    ContentStore.liveCount keepHashes (ContentStore.members s packId) ≠ 0 ∧
      ContentStore.liveCount keepHashes (ContentStore.members s packId) < smallPackThreshold) =
    toStreamMerge
  generalize hcompact : (ContentStore.packIds s).filter (fun packId =>
    ContentStore.liveCount keepHashes (ContentStore.members s packId) ≠ 0 ∧
      smallPackThreshold ≤ ContentStore.liveCount keepHashes (ContentStore.members s packId) ∧
      ContentStore.liveCount keepHashes (ContentStore.members s packId) <
        (ContentStore.members s packId).length) = toCompactInPlace
  have hlt : ∀ packId ∈ ContentStore.packIds s, packId < s.nextPackId := by
    intro packId hid
    obtain ⟨hash, hat⟩ := mem_packIds_iff.1 hid
    exact lt_of_at_linked h hat
  have hretired : Moves P data (· ∈ keepHashes) s (toRetire.map .removePack) (toRetire.foldl
      (fun t packId => ContentStore.retire t packId (ContentStore.members s packId)) s) := by
    subst hretire
    exact moves_retireAll h (nodup_packIds.filter _)
      fun packId hid => of_decide_eq_true (List.mem_filter.1 hid).2
  generalize hblobs : (toRetire.map (fun packId => (ContentStore.members s packId).length)).sum =
    retiredBlobs
  have hstart : Merging P data keepHashes (ContentStore.members s) toStreamMerge
      ⟨toRetire.foldl (fun t packId => ContentStore.retire t packId
        (ContentStore.members s packId)) s, [], 0, retiredBlobs⟩ := by
    subst hstream
    refine ⟨hretired.linked, ?_, ?_, by rintro _ ⟨⟩⟩
    · exact fun packId hid => (hlt packId (List.mem_filter.1 hid).1).trans_le hretired.next
    · intro packId hid hash hat
      exact mem_members_iff.2
        (hretired.located packId hash (hlt packId (List.mem_filter.1 hid).1) hat)
  obtain ⟨m, hmerge, hmerges, hdone⟩ := moves_over ContentStore.Merging.store
    (Merging P data keepHashes (ContentStore.members s)) (fun _ hm => hm.linked)
    (fun _ _ _ hm => merging_mergePack (B := B) hd hplain flushEvery hm) hstart
  have hdeferred := moves_deferred (B := B) hd hplain hdone
  have hmerged := moves_trans (moves_trans hretired hmerges) hdeferred
  have holder : ∀ packId ∈ toCompactInPlace, packId < (ContentStore.flushAndRetireDeferred B
      (ContentStore.members s) m).store.nextPackId := by
    subst hcompact
    exact fun packId hid => (hlt packId (List.mem_filter.1 hid).1).trans_le hmerged.next
  obtain ⟨u, hrun, hcompacted⟩ := moves_compactAll (B := B) hd hplain hdeferred.linked holder
  have hall := moves_trans hmerged hcompacted
  simp only [hmerge, hrun, Option.bind_eq_bind, Option.bind_some, Option.pure_def]
  refine ⟨_, _, rfl, ?_⟩
  by_cases hnone : toRetire ++ toStreamMerge ++ toCompactInPlace = []
  · rw [if_pos hnone, if_pos hnone, List.append_nil]
    refine ⟨by simpa only [List.append_assoc] using hall, ?_⟩
    obtain ⟨hfirst, rfl⟩ := List.append_eq_nil_iff.1 hnone
    obtain ⟨rfl, rfl⟩ := List.append_eq_nil_iff.1 hfirst
    obtain rfl := Option.some.inj hmerge
    obtain rfl := Option.some.inj hrun
    rw [flushAndRetire_eq]
    exact mirrored_flushPack hm
  · rw [if_neg hnone, if_neg hnone]
    refine ⟨?_, mirrored_rewriteIndex⟩
    have hfinal := moves_trans hall (moves_rewriteIndex hall.linked)
    simpa only [List.append_assoc] using hfinal

end Consolidate

section Calls

variable {content : Bytes}

/-- What the index file mirrors is all there. -/
theorem linked_mirrored {K' : String → Prop} (h : Linked P data K s) (hm : Mirrored s) :
    Linked P data K' s :=
  ⟨h.readable, h.named, h.numbered, h.within, fun hash _ _ _ => (hm hash).symm, h.buffered,
    h.cached⟩

theorem filled_putBuffered (hd : Distinct P data) (h : Linked P data K s) (hp : Pended s)
    (hmem : content ∈ data) :
    Filled P data K s (ContentStore.putBuffered B s (P.sha256Hex content) content) ∧
      Settled P (ContentStore.putBuffered B s (P.sha256Hex content) content)
        (P.sha256Hex content) content := by
  rw [ContentStore.putBuffered]
  split
  · rename_i hheld
    refine ⟨filled_cache h h.cached, ?_⟩
    rcases hheld with hcached | hpending
    · obtain ⟨b, hb⟩ := (JsMap.has_iff _ _).1 hcached
      have hs := h.cached _ b hb
      obtain ⟨hbmem, hhash⟩ := known_of_settled h hs
      exact hd b hbmem content hmem hhash ▸ hs
    · obtain ⟨b64, hb⟩ := hp _ hpending
      exact settled_of_buffered hd h hmem hb
  · refine ⟨filled_push hd h hmem (Base64.atob_btoa content) (fun k b hk => ?_) _, ?_⟩
    · exact (get_of_cacheSet hk).imp (fun he => ⟨he.1.symm, he.2.symm⟩) (h.cached k b)
    · rw [Settled]
      dsimp only
      rw [JsMap.ofList_concat, JsMap.get_set_self]
      exact Base64.atob_btoa content

theorem linked_drop (h : Linked P data (· ≠ hash) s) :
    Moves P data (· ≠ hash) s [] (ContentStore.drop s hash) := by
  have hstores : ∀ k b, k ≠ hash → Stores P s k b → Stores P (ContentStore.drop s hash) k b := by
    rintro k b hne ⟨loc, pack, hloc, hpack, hx⟩
    exact ⟨loc, pack, (JsMap.get_delete_ne s.index (Ne.symm hne)).trans hloc, hpack, hx⟩
  have hsettled : ∀ k b, k ≠ hash → Settled P s k b → Settled P (ContentStore.drop s hash) k b := by
    intro k b hne hs
    rw [Settled] at hs ⊢
    cases hget : (JsMap.ofList s.packBuffer).get k with
    | none =>
        rw [hget] at hs
        rw [ContentStore.drop, hget]
        exact hstores k b hne hs
    | some b64 =>
        rw [hget] at hs
        rw [ContentStore.drop, hget]
        exact hs
  have hindex : ∀ k loc, (ContentStore.drop s hash).index.get k = some loc →
      s.index.get k = some loc := by
    intro k loc hloc
    rw [ContentStore.drop, JsMap.get_delete] at hloc
    split at hloc
    · cases hloc
    · exact hloc
  refine ⟨⟨h.readable, h.named, h.numbered, ?_, ?_, h.buffered, ?_⟩, trivial, rfl,
    fun k b hk => hsettled k b hk, ?_, Nat.le_refl _⟩
  · exact fun k loc hloc => h.within k loc (hindex k loc hloc)
  · exact fun k b hk hr => (JsMap.get_delete_ne s.index (Ne.symm hk)).trans (h.kept k b hk hr)
  · intro k b hk
    rw [ContentStore.drop, MemCache.cacheDelete, JsMap.get_delete] at hk
    split at hk
    · cases hk
    · rename_i hne
      exact hsettled k b (Ne.symm hne) (h.cached k b hk)
  · intro packId k _ hat
    obtain ⟨loc, hloc, hid⟩ := at_iff.1 hat
    exact at_iff.2 ⟨loc, hindex k loc hloc, hid⟩

theorem moves_delete (h : Linked P data (· ≠ hash) s) :
    Moves P data (· ≠ hash) s
      (if s.index.has hash then rewriteWrites (ContentStore.drop s hash) else [])
      (ContentStore.delete s hash) := by
  rw [ContentStore.delete]
  split
  · have hdrop := linked_drop h
    exact moves_trans hdrop (moves_rewriteIndex hdrop.linked)
  · refine (filled_cache h fun k b hk => ?_).moves
    rw [MemCache.cacheDelete, JsMap.get_delete] at hk
    split at hk
    · cases hk
    · exact h.cached k b hk

end Calls

end OpsBlobs.PackSound
