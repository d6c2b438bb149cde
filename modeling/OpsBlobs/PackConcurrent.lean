import OpsBlobs.PackTaskSpecs

namespace OpsBlobs.PackConcurrent

open Types PackedContent ContentIntegrity PackMaintenance PackRefinement PackTasks PackTaskSteps
  PackTaskSpecs Coroutine TaskPool
open PackCrash (spares)

variable {P : Platform} {B : Nat} {data : List Bytes} {hash : String} {k : Nat} {s t u : State}
  {keepHashes : List String} {p : Nat}

theorem lt_of_packIds (hs : Safe P data hash s) (h : p ∈ ContentStore.packIds s.store) :
    p < s.store.nextPackId := by
  obtain ⟨x, hx⟩ := mem_packIds_iff.1 h
  obtain ⟨loc, hloc, rfl⟩ := at_iff.1 hx
  obtain ⟨f, hf, -⟩ := hs.named x loc hloc
  exact hs.numbered _ f hf

/-- A pack without a live blob has none of a blob that is kept. -/
theorem not_mem_of_dead {hashes : List String} (hkeep : hash ∈ keepHashes)
    (h : ContentStore.liveCount keepHashes hashes = 0) : hash ∉ hashes :=
  fun hmem => liveCount_eq_zero_iff.1 h hash hmem hkeep

theorem not_at_of_not_mem (hp : p < s.store.nextPackId) (hsince : Since hash s t)
    (h : hash ∉ ContentStore.members s.store p) : ¬ At t.store p hash :=
  fun hat => h (mem_members_iff.2 (hsince.places p hash hp hat))

/-- What a pass has done so far; `flagged` tells it that it has the index to rewrite. -/
structure Pass (P : Platform) (data : List Bytes) (hash : String) (k : Nat) (s : State)
    (flagged : Prop) (t : State) : Prop where
  after : After P data hash k s t
  dirty : k ∈ t.dirty → flagged

variable {flagged flagged' : Prop}

theorem pass_after (h : Pass P data hash k s flagged t) (h' : After P data hash k t u)
    (hflag : flagged') : Pass P data hash k s flagged' u :=
  ⟨after_trans h.after h', fun _ => hflag⟩

theorem pass_later (h : Pass P data hash k s flagged t) (h' : Later P data hash k t u) :
    Pass P data hash k s flagged u :=
  ⟨after_later h.after h', fun hd => h.dirty (h'.2.2.dirty.1 hd)⟩

theorem pass_mono (h : Pass P data hash k s flagged t) (hflag : flagged → flagged') :
    Pass P data hash k s flagged' t := ⟨h.after, fun hd => hflag (h.dirty hd)⟩

theorem meets_lastRewrite (h : Pass P data hash k s flagged t) :
    Meets P data hash k (rewriteIndex k) (fun _ u =>
      Safe P data hash u ∧ Idle k u ∧ k ∉ u.dirty) t :=
  meets_weaken (meets_rewriteIndex h.after.safe h.after.idle) fun _ _ hu =>
    ⟨hu.1.safe, hu.1.idle, hu.2⟩

/-- Packs that are compacted one after the other. -/
theorem meets_compactAll (hkeep : hash ∈ keepHashes) {packIds : List Nat}
    (hids : ∀ p ∈ packIds, p < s.store.nextPackId) (hflag : packIds ≠ [] → flagged)
    (h : Pass P data hash k s flagged t) :
    Meets P data hash k (forEach (fun packId => do compactPack P B k keepHashes packId; pause)
      packIds) (fun _ u => Pass P data hash k s flagged u) t := by
  refine meets_each (I := fun _ u => Pass P data hash k s flagged u) h fun packId _ u hmem hu => ?_
  refine meets_seq (meets_compactPack hu.after.safe hu.after.idle
    ((hids packId hmem).trans_le hu.after.since.next) hkeep) fun _ v hv => meets_rest hv.safe fun w hw => ?_
  exact pass_later (pass_after hu hv (hflag (List.ne_nil_of_mem hmem))) hw

section Gc

variable {aged : Nat → Bool}

theorem meets_gcPack (hkeep : hash ∈ keepHashes) {g : GcSweep}
    (hp : p < s.store.nextPackId) (h : Pass P data hash k s (g.dirty = true) t) :
    Meets P data hash k (gcPack k keepHashes aged (ContentStore.members s.store) g p) (fun g' u =>
      Pass P data hash k s (g'.dirty = true) u ∧ ∀ q ∈ g'.toCompact, q ∈ g.toCompact ∨ q = p) t := by
  refine meets_seq (I := fun _ u => Pass P data hash k s (g.dirty = true) u) ?_ fun old u hu => ?_
  · exact meets_file h.after.safe fun u hu => meets_read
      ⟨hu.1, fun w hw => pass_later (pass_later h hu) hw⟩
  · have hsame : ∀ q ∈ g.toCompact, q ∈ g.toCompact ∨ q = p := fun _ => Or.inl
    split
    · exact ⟨hu, hsame⟩
    · split
      · rename_i hdead
        have hnot := not_mem_of_dead hkeep hdead
        refine meets_seq (meets_retire hu.after.safe hu.after.idle (hp.trans_le hu.after.since.next)
          (not_at_of_not_mem hp hu.after.since hnot) hnot) fun _ v hv => ?_
        exact ⟨pass_after hu hv rfl, hsame⟩
      · split
        · refine ⟨hu, fun q hq => ?_⟩
          exact (List.mem_append.1 hq).imp_right List.mem_singleton.1
        · exact ⟨hu, hsame⟩

theorem meets_gc (hs : Safe P data hash s) (hi : Idle k s) (hd : k ∉ s.dirty)
    (hkeep : hash ∈ keepHashes) :
    Meets P data hash k (gc P B k keepHashes aged) (fun _ t => Safe P data hash t ∧ Idle k t ∧ k ∉ t.dirty) s := by
  refine meets_read ?_
  refine meets_seq (meets_fold (I := fun _ g t => Pass P data hash k s (g.dirty = true) t ∧
    ∀ q ∈ g.toCompact, q ∈ ContentStore.packIds s.store)
    ⟨⟨after_refl hs hi, fun h => absurd h hd⟩, nofun⟩ ?_) fun g t ht => ?_
  · rintro packId rest g t hmem ⟨ht, hids⟩
    refine meets_weaken (meets_gcPack hkeep (lt_of_packIds hs hmem) ht) fun g' u hu => ?_
    refine ⟨hu.1, fun q hq => ?_⟩
    rcases hu.2 q hq with hq | rfl
    · exact hids q hq
    · exact hmem
  · obtain ⟨ht, hids⟩ := ht
    have ht : Pass P data hash k s (g.dirty = true ∨ g.toCompact ≠ []) t := pass_mono ht Or.inl
    refine meets_seq (meets_compactAll hkeep (fun q hq => lt_of_packIds hs (hids q hq)) Or.inr ht)
      fun _ u hu => ?_
    split
    · exact meets_lastRewrite hu
    · rename_i hnot
      exact ⟨hu.after.safe, hu.after.idle, fun hd => hnot (hu.dirty hd)⟩

end Gc

section Consolidate

variable {members : Nat → List String}

theorem meets_flushAndRetire (h : Pass P data hash k s flagged t) {pendingRemoval : List Nat}
    (hids : ∀ p ∈ pendingRemoval, p < t.store.nextPackId ∧ Moved hash p t)
    (hflag : pendingRemoval ≠ [] → flagged) :
    Meets P data hash k (flushAndRetireDeferred B k members pendingRemoval)
      (fun _ u => Pass P data hash k s flagged u) t := by
  refine meets_read ?_
  split
  · exact h
  · refine meets_seq (meets_flushPack h.after.safe h.after.idle) fun _ u hu => ?_
    obtain ⟨hu, hdirty, hflushed⟩ := hu
    refine meets_wait hu.safe fun v hv => ?_
    have htv := after_later hu hv
    have hgone : ∀ p ∈ pendingRemoval, p < v.store.nextPackId ∧ ¬ At v.store p hash := by
      intro p hp
      obtain ⟨hlt, hm⟩ := hids p hp
      refine ⟨hlt.trans_le htv.since.next, fun hat => ?_⟩
      exact not_at_flushed hlt hm hu.since hflushed
        (hv.2.1.places p hash (hlt.trans_le hu.since.next) hat)
    have hstart : Pass P data hash k s flagged v :=
      ⟨after_trans h.after htv, fun hd => h.dirty (hdirty.1 (hv.2.2.dirty.1 hd))⟩
    refine meets_weaken (meets_each (I := fun _ w => Pass P data hash k s flagged w ∧
      Since hash v w) ⟨hstart, since_refl v⟩ ?_) fun _ _ hw => hw.1
    rintro oldId rest w hmem ⟨hw, hsince⟩
    obtain ⟨hlt, hat⟩ := hgone oldId hmem
    refine meets_weaken (meets_removeFrom hw.after.safe hw.after.idle (hlt.trans_le hsince.next)
      fun hx => hat (hsince.places oldId hash hlt hx)) fun _ x hx => ?_
    exact ⟨pass_after hw hx (hflag (List.ne_nil_of_mem hmem)), since_trans hsince hx.since⟩

theorem meets_mergeBlob (hs : Safe P data hash s) (hkeep : hash ∈ keepHashes) {text : List Char}
    (ht : TextOf s p text) (h : String) :
    Meets P data hash k (mergeBlob P keepHashes p text h) (fun _ t =>
      Later P data hash k s t ∧ (h = hash → Moved hash p t)) s := by
  refine meets_read ?_
  split
  · rename_i hnone
    refine ⟨later_refl hs, ?_⟩
    rintro rfl
    refine Or.inr fun hat => ?_
    obtain ⟨loc, hloc, -⟩ := at_iff.1 hat
    cases hnone.symm.trans hloc
  · rename_i loc hloc
    split
    · rename_i hne
      refine ⟨later_refl hs, ?_⟩
      rintro rfl
      refine Or.inr fun hat => ?_
      obtain ⟨loc', hloc', hid⟩ := at_iff.1 hat
      obtain rfl := Option.some.inj (hloc.symm.trans hloc')
      exact hne hid
    · rename_i hid
      obtain rfl := not_not.1 hid
      split
      · rename_i hdead
        refine ⟨later_refl hs, ?_⟩
        rintro rfl
        exact absurd hkeep hdead
      · obtain ⟨hlen, b, hb, hdecode, hhash⟩ := decodes_good (hs.named h loc hloc) ht
        rw [if_neg (not_not.2 hlen), hdecode]
        refine meets_wait hs fun u hu => ?_
        rw [if_pos hhash]
        refine meets_write fun _ => ?_
        have hsilent : Silent P data hash u ⟨{ u.store with
            packBuffer := u.store.packBuffer ++ [(h, substr text loc.offset loc.len)] }, u.flights,
            u.unflushed ++ [h], u.dirty, u.acked, .plain⟩ :=
          silent_push hu.1 hb hdecode hhash (fun _ _ => Or.inr) fun _ => Or.inl
        refine ⟨makes_of_silent hsilent, later_trans hu (later_silent hsilent), ?_⟩
        rintro rfl
        exact Or.inl (List.mem_append_right _ (List.mem_singleton_self _))

/-- A pack that is merged goes once its blobs have moved. -/
theorem meets_mergePack (hkeep : hash ∈ keepHashes) {flushEvery : Nat} {pendingRemoval : List Nat}
    (hp : p < s.store.nextPackId) (hflag : flagged) (h : Pass P data hash k s flagged t)
    (hids : ∀ q ∈ pendingRemoval, q < s.store.nextPackId ∧ Moved hash q t) :
    Meets P data hash k (mergePack P B k keepHashes flushEvery (ContentStore.members s.store)
      pendingRemoval p) (fun ids u => Pass P data hash k s flagged u ∧
        ∀ q ∈ ids, q < s.store.nextPackId ∧ Moved hash q u) t := by
  have hlater : ∀ {a b}, Pass P data hash k s flagged a → Later P data hash k a b →
      (∀ q ∈ pendingRemoval, q < s.store.nextPackId ∧ Moved hash q a) →
      ∀ q ∈ pendingRemoval, q < s.store.nextPackId ∧ Moved hash q b :=
    fun ha hb hids q hq => ⟨(hids q hq).1,
      moved_since hb.2.1 ((hids q hq).1.trans_le ha.after.since.next) (hids q hq).2⟩
  refine meets_seq (meets_readPack h.after.safe p) fun a u hu => ?_
  obtain ⟨hu, htext⟩ := hu
  have hpass := pass_later h hu
  have hids := hlater h hu hids
  split
  · exact ⟨hpass, hids⟩
  · rename_i text
    have hpu : p < u.store.nextPackId := hp.trans_le hpass.after.since.next
    have hstart : Moved hash p u ∨ hash ∈ ContentStore.members s.store p := by
      by_cases hmem : hash ∈ ContentStore.members s.store p
      · exact Or.inr hmem
      · exact Or.inl (Or.inr (not_at_of_not_mem hp hpass.after.since hmem))
    refine meets_seq (meets_each (I := fun rest v => Later P data hash k u v ∧ TextOf v p text ∧
      (Moved hash p v ∨ hash ∈ rest)) ⟨later_refl hu.1, htext text rfl, hstart⟩ ?_) fun _ v hv => ?_
    · rintro x rest v - ⟨hv, ht, hm⟩
      refine meets_weaken (meets_mergeBlob hv.1 hkeep ht x) fun _ w hw => ?_
      refine ⟨later_trans hv hw.1, textOf_since hw.1.2.1 ht, ?_⟩
      rcases hm with hm | hm
      · exact Or.inl (moved_since hw.1.2.1 (hpu.trans_le hv.2.1.next) hm)
      · rcases List.mem_cons.1 hm with rfl | hm
        · exact Or.inl (hw.2 rfl)
        · exact Or.inr hm
    · obtain ⟨hv, -, hm⟩ := hv
      have hm : Moved hash p v := hm.resolve_right nofun
      have hpass' := pass_later hpass hv
      have hids' : ∀ q ∈ pendingRemoval ++ [p], q < s.store.nextPackId ∧ Moved hash q v := by
        intro q hq
        rcases List.mem_append.1 hq with hq | hq
        · exact hlater hpass hv hids q hq
        · obtain rfl := List.mem_singleton.1 hq
          exact ⟨hp, hm⟩
      refine meets_read ?_
      split
      · refine meets_seq (meets_flushAndRetire hpass'
          (fun q hq => ⟨(hids' q hq).1.trans_le hpass'.after.since.next, (hids' q hq).2⟩)
          fun _ => hflag) fun _ w hw => meets_wait hw.after.safe fun x hx => ?_
        exact ⟨pass_later hw hx, nofun⟩
      · exact ⟨hpass', hids'⟩

theorem meets_consolidatePacks (hs : Safe P data hash s) (hi : Idle k s) (hd : k ∉ s.dirty)
    (hkeep : hash ∈ keepHashes) (smallPackThreshold flushEvery : Nat) :
    Meets P data hash k (consolidatePacks P B k keepHashes smallPackThreshold flushEvery)
      (fun _ t => Safe P data hash t ∧ Idle k t ∧ k ∉ t.dirty) s := by
  refine meets_read ?_
  dsimp only
  generalize htoRetire : (ContentStore.packIds s.store).filter _ = toRetire
  generalize htoStreamMerge : (ContentStore.packIds s.store).filter _ = toStreamMerge
  generalize htoCompact : (ContentStore.packIds s.store).filter _ = toCompactInPlace
  have hlt : ∀ {f : Nat → Bool}, ∀ q ∈ (ContentStore.packIds s.store).filter f,
      q < s.store.nextPackId := fun q hq => lt_of_packIds hs (List.mem_filter.1 hq).1
  have hflag : ∀ {ids : List Nat} {q : Nat}, q ∈ ids →
      ids ⊆ toRetire ++ toStreamMerge ++ toCompactInPlace →
      ¬ toRetire ++ toStreamMerge ++ toCompactInPlace = [] :=
    fun hq hsub => List.ne_nil_of_mem (hsub hq)
  have hstart : Pass P data hash k s (¬ toRetire ++ toStreamMerge ++ toCompactInPlace = []) s :=
    ⟨after_refl hs hi, fun h => absurd h hd⟩
  refine meets_seq (meets_each (I := fun _ t => Pass P data hash k s
    (¬ toRetire ++ toStreamMerge ++ toCompactInPlace = []) t) hstart ?_) fun _ t ht => ?_
  · intro q rest t hmem ht
    have hmem' := hmem
    rw [← htoRetire] at hmem'
    have hnot := not_mem_of_dead hkeep (of_decide_eq_true (List.mem_filter.1 hmem').2)
    have hq := hlt q hmem'
    refine meets_weaken (meets_retire ht.after.safe ht.after.idle (hq.trans_le ht.after.since.next)
      (not_at_of_not_mem hq ht.after.since hnot) hnot) fun _ u hu => pass_after ht hu ?_
    exact hflag hmem fun _ hx => List.mem_append_left _ (List.mem_append_left _ hx)
  · refine meets_seq (meets_fold (I := fun _ ids t => Pass P data hash k s
      (¬ toRetire ++ toStreamMerge ++ toCompactInPlace = []) t ∧
      (∀ q ∈ ids, q < s.store.nextPackId ∧ Moved hash q t) ∧
      (ids ≠ [] → ¬ toRetire ++ toStreamMerge ++ toCompactInPlace = [])) ⟨ht, nofun, nofun⟩ ?_)
      fun ids u hu => ?_
    · rintro q rest ids u hmem ⟨hu, hids, -⟩
      have hbusy := hflag hmem fun _ hx => List.mem_append_left _ (List.mem_append_right _ hx)
      exact meets_weaken (meets_mergePack hkeep (hlt q (htoStreamMerge ▸ hmem)) hbusy hu hids)
        fun _ v hv => ⟨hv.1, hv.2, fun _ => hbusy⟩
    · obtain ⟨hu, hids, hbusy⟩ := hu
      refine meets_seq (meets_flushAndRetire hu
        (fun q hq => ⟨(hids q hq).1.trans_le hu.after.since.next, (hids q hq).2⟩) hbusy)
        fun _ v hv => meets_wait hv.after.safe fun w hw => ?_
      refine meets_seq (meets_compactAll hkeep (fun q hq => hlt q (htoCompact ▸ hq)) ?_
        (pass_later hv hw)) fun _ x hx => ?_
      · intro hne
        obtain ⟨q, hq⟩ := List.exists_mem_of_ne_nil _ hne
        exact hflag hq (List.subset_append_right _ _)
      · split
        · rename_i hnone
          exact ⟨hx.after.safe, hx.after.idle, fun h => hx.dirty h hnone⟩
        · exact meets_lastRewrite hx

end Consolidate

section Run

variable (P B data hash)

/-- A call that need not take the blob away may be started at any time. -/
def Starts (k : Nat) (t : Async Unit) : Prop :=
  ∃ c, c ≠ .init ∧ contentOf c ⊆ data ∧ spares c hash = true ∧ t = task P B k c

def fresh : State := ⟨.empty, .empty, [], [], [], .plain⟩

/-- The index on disk names the blob, and a store that starts from the files reads it. -/
def Kept (s : ContentStore) (content : Bytes) : Prop :=
  (∃ loc, (P.sha256Hex content, loc) ∈ s.indexFile) ∧
    ∃ cache, ContentStore.get P B (ContentStore.init s) (P.sha256Hex content) =
      some (some content, cache)

variable {P B data hash}

theorem safe_fresh : Safe P data hash fresh :=
  ⟨nofun, nofun, nofun, nofun, nofun, nofun, nofun, nofun, nofun, nofun, nofun, nofun, nofun,
    nofun, nofun⟩

theorem sound : (agreement P data hash).Sound (Starts P B data hash) (Careful hash) where
  refl k s := ⟨since_refl s, own_refl s⟩
  trans k s t u h h' := ⟨since_trans h.1 h'.1, own_trans h.2 h'.2⟩
  settled k s t h hd := ⟨idle_own h.2 hd.1, fun hmem => hd.2 (h.2.dirty.1 hmem)⟩
  started k _ s hstart hs hdone := by
    obtain ⟨c, hinit, hdata, hspares, rfl⟩ := hstart
    obtain ⟨hi, hd⟩ := hdone
    have hquiet : ∀ {t}, Later P data hash k s t →
        Safe P data hash t ∧ Idle k t ∧ k ∉ t.dirty :=
      fun ht => ⟨ht.1, idle_own ht.2.2 hi, fun hmem => hd (ht.2.2.dirty.1 hmem)⟩
    cases c with
    | put content => exact meets_put hs hi hd (hdata List.mem_cons_self)
    | putBuffered content =>
        exact meets_weaken (meets_putBuffered hs (hdata List.mem_cons_self)) fun _ _ ht => hquiet ht.1
    | flushPack =>
        exact meets_weaken (meets_flushPack hs hi) fun _ _ ht =>
          ⟨ht.1.safe, ht.1.idle, fun hmem => hd (ht.2.1.1 hmem)⟩
    | get wanted => exact meets_seq (meets_get' hs wanted) fun _ _ ht => hquiet ht.1
    | delete dropped => exact meets_delete hs hi hd (Ne.symm (of_decide_eq_true hspares))
    | clearMemCache =>
        exact meets_weaken (meets_silent fun _ => silent_cache hs fun _ _ hb => by cases hb)
          fun _ _ ht => hquiet ht
    | gc keepHashes aged => exact meets_gc hs hi hd (of_decide_eq_true hspares)
    | consolidatePacks keepHashes smallPackThreshold flushEvery =>
        exact meets_consolidatePacks hs hi hd (of_decide_eq_true hspares) _ _
    | init => exact absurd rfl hinit

variable {p : Pool State Unit}

theorem holds_run (hr : Runs (Starts P B data hash) (Careful hash) (.initial fresh) p) :
    (agreement P data hash).Holds (Careful hash) p :=
  Protocol.holds_of_runs sound (Protocol.holds_initial safe_fresh fun _ => ⟨nofun, nofun⟩) hr

/-- When nothing is under way any more, the blob is on disk. -/
theorem findable_of_done (hs : Safe P data hash s) (hdone : ∀ k, Idle k s ∧ k ∉ s.dirty)
    (hi : s.store.index.has hash = true) : Findable hash s := by
  rcases hs.onDisk hi with hdirty | hplacing | hfound
  · obtain ⟨k, hk⟩ := List.exists_mem_of_ne_nil _ hdirty
    exact absurd hk (hdone k).2
  · obtain ⟨loc, f, -, hf, hphase⟩ := placing_iff.1 hplacing
    exact absurd ((hdone f.owner).1 _ f hf rfl) hphase
  · exact hfound

theorem extract_listed (hs : Safe P data hash s) {h : String} {loc : PackLoc} {text : List Char}
    (hget : (JsMap.ofList s.store.indexFile).get h = some loc)
    (htext : s.store.packs.get loc.packId = some text) :
    ∃ b ∈ data, ContentStore.extract P text h loc = some (some b) := by
  obtain ⟨f, hf, b, hb, hx⟩ := hs.listed h loc (JsMap.mem_of_get_ofList hget)
  obtain ⟨f', hf', rfl⟩ := hs.texts _ text htext
  obtain rfl := Option.some.inj (hf.symm.trans hf')
  exact ⟨b, hb, hx⟩

theorem kept_of_findable (hd : Distinct P data) (hs : Safe P data hash s)
    (hf : Findable hash s) {content : Bytes} (hmem : content ∈ data)
    (hhash : P.sha256Hex content = hash) : Kept P B s.store content := by
  subst hhash
  obtain ⟨loc, hloc, hp⟩ := hf
  refine ⟨⟨loc, JsMap.mem_of_get_ofList hloc⟩, ?_⟩
  have hdecodes : Decodes P (ContentStore.init s.store) := by
    intro h loc text hget htext
    obtain ⟨b, -, hx⟩ := extract_listed hs hget htext
    exact ⟨some b, hx⟩
  have hstores : Stores P (ContentStore.init s.store) (P.sha256Hex content) content := by
    obtain ⟨text, htext⟩ := (JsMap.has_iff _ _).1 hp
    obtain ⟨b, hb, hx⟩ := extract_listed hs hloc htext
    obtain rfl := hd b hb content hmem (hash_of_extract hx).1
    exact ⟨loc, text, hloc, htext, hx⟩
  obtain ⟨found, cache, hget, hfound, -⟩ := get_cases (B := B)
    (C := Stores P (ContentStore.init s.store)) hdecodes (fun _ _ hx => hx) nofun
    (P.sha256Hex content)
  obtain rfl := (hfound content).2 (Or.inr ⟨rfl, hstores⟩)
  exact ⟨cache, hget⟩

/-- In a careful run no task fails, and once all have ended every content with the hash whose
`put` has resolved is kept. -/
theorem kept_of_run (hd : Distinct P data)
    (hr : Runs (Starts P B data hash) (Careful hash) (.initial fresh) p) :
    (∀ k e, (k, .fail e) ∉ p.parked) ∧
      (p.Ended → ∀ content ∈ p.state.acked, P.sha256Hex content = hash →
        Kept P B p.state.store content) := by
  have h := holds_run hr
  refine ⟨fun k e hmem => Protocol.ne_fail h hmem e rfl, fun hend content hmem hhash => ?_⟩
  have hs := h.inv hend.1
  obtain ⟨hdata, hindex⟩ := hs.acked content hmem
  have hfound := findable_of_done hs (Protocol.done_of_ended h hend) (hindex hhash)
  exact kept_of_findable hd hs hfound hdata hhash

/-- The store as it is meant to be: the same of every run. -/
def LosesNothing (P : Platform) (B : Nat) : Prop :=
  ∀ data hash p, Distinct P data →
    Runs (Starts P B data hash) (fun _ _ => True) (.initial fresh) p → p.Ended →
      ∀ content ∈ p.state.acked, P.sha256Hex content = hash → Kept P B p.state.store content

end Run

section Sample

def schedule (C : State → State → Prop) [DecidableRel C] (choices : List (Choice Call)) :
    Option (Pool State Unit) :=
  choices.foldlM (choose (task asciiPlatform 64) C) (.initial fresh)

theorem runs_schedule {C : State → State → Prop} [DecidableRel C] {choices : List (Choice Call)}
    {data : List Bytes} {hash : String} {p : Pool State Unit}
    (hcalls : ∀ c, .start c ∈ choices → c ≠ .init ∧ contentOf c ⊆ data ∧ spares c hash = true)
    (h : schedule C choices = some p) :
    Runs (Starts asciiPlatform 64 data hash) C (.initial fresh) p :=
  runs_of_schedule rfl (fun _ c hc =>
    have hcall := hcalls c hc
    ⟨c, hcall.1, hcall.2.1, hcall.2.2, rfl⟩) h

theorem distinct_sample : Distinct asciiPlatform [[104], [105]] := by
  unfold Distinct
  decide

/-- Two edits side by side, both buffered before the first of them flushes, and a consolidation
of their packs. -/
def sideBySide : List (Choice Call) :=
  [.start (.put [104]), .start (.put [105]), .resume 0, .resume 1] ++
    List.replicate 5 (.resume 0) ++ List.replicate 5 (.resume 1) ++
    [.resume 0, .resume 1, .start (.consolidatePacks ["h", "i"] 64 64)] ++
    List.replicate 15 (.resume 2)

/-- The second edit comes while the first is flushed. -/
def lateEdit : List (Choice Call) :=
  [.start (.put [104]), .resume 0, .start (.put [105])] ++ List.replicate 5 (.resume 0) ++
    [.resume 1, .resume 1, .resume 0]

theorem calls_sideBySide : ∀ c, .start c ∈ sideBySide →
    c ≠ .init ∧ contentOf c ⊆ [[104], [105]] ∧ spares c "h" = true := by
  intro c hc
  simp only [sideBySide, List.mem_append, List.mem_cons, List.mem_replicate, Choice.start.injEq,
    reduceCtorEq, List.not_mem_nil, and_false, or_false, false_or] at hc
  rcases hc with (rfl | rfl) | rfl <;> exact ⟨nofun, by decide, by decide⟩

theorem calls_lateEdit : ∀ c, .start c ∈ lateEdit →
    c ≠ .init ∧ contentOf c ⊆ [[104], [105]] ∧ spares c "i" = true := by
  intro c hc
  simp only [lateEdit, List.mem_append, List.mem_cons, List.mem_replicate, Choice.start.injEq,
    reduceCtorEq, List.not_mem_nil, and_false, or_false, false_or] at hc
  rcases hc with rfl | rfl <;> exact ⟨nofun, by decide, by decide⟩

theorem kept_of_run_example : ∃ p, schedule (Careful "h") sideBySide = some p ∧ p.Ended ∧
    p.state.acked = [[104], [105]] ∧ Kept asciiPlatform 64 p.state.store [104] := by
  have hends : ∀ p ∈ schedule (Careful "h") sideBySide,
      p.Ended ∧ p.state.acked = [[104], [105]] := by decide +kernel
  obtain ⟨p, hrun⟩ : ∃ p, schedule (Careful "h") sideBySide = some p :=
    Option.isSome_iff_exists.1 (by decide +kernel)
  obtain ⟨hend, hacked⟩ := hends p hrun
  have hkept := (kept_of_run distinct_sample (runs_schedule calls_sideBySide hrun)).2 hend [104]
  exact ⟨p, hrun, hend, hacked, hkept (hacked ▸ List.mem_cons_self) rfl⟩

/-- The first flush clears the buffer, the second finds it empty, and the `put` resolves with
its blob in no pack. -/
theorem not_losesNothing : ¬ LosesNothing asciiPlatform 64 := by
  intro h
  have hends : ∀ p ∈ schedule (fun _ _ => True) lateEdit, p.Ended ∧ [105] ∈ p.state.acked ∧
      (ContentStore.get asciiPlatform 64 (ContentStore.init p.state.store) "i").map Prod.fst =
        some none := by decide +kernel
  obtain ⟨p, hrun⟩ : ∃ p, schedule (fun _ _ => True) lateEdit = some p :=
    Option.isSome_iff_exists.1 (by decide +kernel)
  obtain ⟨hend, hacked, hlost⟩ := hends p hrun
  obtain ⟨-, cache, hget⟩ := h _ "i" p distinct_sample (runs_schedule calls_lateEdit hrun) hend
    [105] hacked rfl
  rw [show asciiPlatform.sha256Hex [105] = "i" from rfl] at hget
  rw [hget] at hlost
  cases hlost

end Sample

end OpsBlobs.PackConcurrent
