import OpsBlobs.PackTasks

namespace OpsBlobs.PackTaskSteps

open Types PackedContent ContentIntegrity PackMaintenance PackRefinement PackLinked PackTasks

variable {P : Platform} {B : Nat} {data : List Bytes} {hash : String} {k : Nat} {s t u : State}

section Facts

/-- The pack this place is in was built, and holds a content in play there. -/
def Good (P : Platform) (data : List Bytes) (s : State) (h : String) (loc : PackLoc) : Prop :=
  ∃ f, s.flights.get loc.packId = some f ∧
    ∃ b ∈ data, ContentStore.extract P f.packBody h loc = some (some b)

/-- The blob is in the buffer and no flush has taken it yet, or the index has it. -/
def Known (hash : String) (s : State) : Prop :=
  hash ∈ s.unflushed ∨ s.store.index.has hash = true

/-- A start of the plugin would find the blob. -/
def Findable (hash : String) (s : State) : Prop :=
  ∃ loc, (JsMap.ofList s.store.indexFile).get hash = some loc ∧ s.store.packs.has loc.packId = true

/-- What holds of the store whenever a task may run. The last four fields are about one blob,
that no call takes away. -/
structure Safe (P : Platform) (data : List Bytes) (hash : String) (s : State) : Prop where
  named : ∀ h loc, s.store.index.get h = some loc → Good P data s h loc
  listed : ∀ h loc, (h, loc) ∈ s.store.indexFile → Good P data s h loc
  numbered : ∀ p f, s.flights.get p = some f → p < s.store.nextPackId
  filled : ∀ p f, s.flights.get p = some f → ∀ e ∈ f.idxDelta, e.2.packId = p ∧
    ∃ b ∈ data, ContentStore.extract P f.packBody e.1 e.2 = some (some b)
  unwritten : ∀ p f, s.flights.get p = some f → f.phase = .body → s.store.packs.get p = none
  texts : ∀ p text, s.store.packs.get p = some text →
    ∃ f, s.flights.get p = some f ∧ f.packBody = text
  buffered : ∀ h b64, (h, b64) ∈ s.store.packBuffer →
    ∃ b ∈ data, base64ToUint8 b64 = some b ∧ P.sha256Hex b = h
  pended : Pended s.store
  waiting : ∀ h ∈ s.unflushed, h ∈ s.store.packBuffer.map Prod.fst
  cached : ∀ h b, s.store.memCache.blobs.get h = some b →
    b ∈ data ∧ P.sha256Hex b = h ∧ (h = hash → Known hash s)
  acked : ∀ b ∈ s.acked, b ∈ data ∧ (P.sha256Hex b = hash → s.store.index.has hash = true)
  known : hash ∈ s.store.packBuffer.map Prod.fst → Known hash s
  owed : ∀ loc f, s.store.index.get hash = some loc → s.flights.get loc.packId = some f →
    (JsMap.ofList f.idxDelta).get hash = some loc
  placed : ∀ loc, s.store.index.get hash = some loc → s.store.packs.has loc.packId = true ∨
    ∃ f, s.flights.get loc.packId = some f ∧ f.phase = .body
  onDisk : s.store.index.has hash = true → s.dirty ≠ [] ∨ placing s hash = true ∨ Findable hash s

/-- What holds between a state and any later one. -/
structure Since (hash : String) (s t : State) : Prop where
  next : s.store.nextPackId ≤ t.store.nextPackId
  places : ∀ p h, p < s.store.nextPackId → At t.store p h → At s.store p h
  texts : ∀ p f, s.flights.get p = some f →
    ∃ f', t.flights.get p = some f' ∧ f'.packBody = f.packBody
  indexed : s.store.index.has hash = true → t.store.index.has hash = true
  flushed : hash ∈ s.unflushed → hash ∈ t.unflushed ∨ t.store.index.has hash = true ∧
    ∀ p, p < s.store.nextPackId → ¬ At t.store p hash

/-- What only the task `k` itself changes. -/
structure Own (k : Nat) (s t : State) : Prop where
  flights : ∀ p f, f.owner = k → (t.flights.get p = some f ↔ s.flights.get p = some f)
  dirty : k ∈ t.dirty ↔ k ∈ s.dirty

/-- The blob is not looked up in this pack, or it is about to move out of it. -/
def Moved (hash : String) (p : Nat) (s : State) : Prop :=
  hash ∈ s.unflushed ∨ ¬ At s.store p hash

end Facts

section Order

theorem since_refl (s : State) : Since hash s s :=
  ⟨Nat.le_refl _, fun _ _ _ h => h, fun _ f hf => ⟨f, hf, rfl⟩, fun h => h, Or.inl⟩

theorem since_trans (h : Since hash s t) (h' : Since hash t u) : Since hash s u where
  next := h.next.trans h'.next
  places p x hp hat := h.places p x hp (h'.places p x (hp.trans_le h.next) hat)
  texts p f hf := by
    obtain ⟨f', hf', he⟩ := h.texts p f hf
    obtain ⟨f'', hf'', he'⟩ := h'.texts p f' hf'
    exact ⟨f'', hf'', he'.trans he⟩
  indexed hi := h'.indexed (h.indexed hi)
  flushed hmem := by
    rcases h.flushed hmem with hmem | ⟨hindex, hgone⟩
    · refine (h'.flushed hmem).imp_right fun hu => ⟨hu.1, fun p hp => hu.2 p (hp.trans_le h.next)⟩
    · exact Or.inr ⟨h'.indexed hindex,
        fun p hp hat => hgone p hp (h'.places p hash (hp.trans_le h.next) hat)⟩

theorem own_refl (s : State) : Own k s s := ⟨fun _ _ _ => Iff.rfl, Iff.rfl⟩

theorem own_trans (h : Own k s t) (h' : Own k t u) : Own k s u :=
  ⟨fun p f hf => (h'.flights p f hf).trans (h.flights p f hf), h'.dirty.trans h.dirty⟩

theorem known_since (h : Since hash s t) (hk : Known hash s) : Known hash t := by
  rcases hk with hk | hk
  · exact (h.flushed hk).imp_right And.left
  · exact Or.inr (h.indexed hk)

theorem moved_since {p : Nat} (h : Since hash s t) (hp : p < s.store.nextPackId)
    (hm : Moved hash p s) : Moved hash p t := by
  rcases hm with hm | hm
  · exact (h.flushed hm).imp_right fun hu => hu.2 p hp
  · exact Or.inr fun hat => hm (h.places p hash hp hat)

theorem good_since {h : String} {loc : PackLoc} (hs : Since hash s t) (hg : Good P data s h loc) :
    Good P data t h loc := by
  obtain ⟨f, hf, b, hb, hx⟩ := hg
  obtain ⟨f', hf', he⟩ := hs.texts _ f hf
  exact ⟨f', hf', b, hb, he ▸ hx⟩

theorem placing_iff : placing s hash = true ↔ ∃ loc f, s.store.index.get hash = some loc ∧
    s.flights.get loc.packId = some f ∧ f.phase ≠ .landed := by
  rw [placing]
  cases h : s.store.index.get hash with
  | none => simp
  | some loc => simp [Option.any_eq_true]

end Order

section Agree

/-- A write of the task `k`, as the others see it. -/
structure Makes (P : Platform) (data : List Bytes) (hash : String) (k : Nat) (s t : State) :
    Prop where
  safe : Safe P data hash t
  since : Since hash s t
  others : ∀ j, j ≠ k → Own j s t

/-- A write that is no concern of any task. -/
structure Silent (P : Platform) (data : List Bytes) (hash : String) (s t : State) : Prop where
  safe : Safe P data hash t
  since : Since hash s t
  own : ∀ j, Own j s t

/-- What `k` has to leave: its flushes have landed, and it has rewritten the index after what
it removed. -/
def Idle (k : Nat) (s : State) : Prop :=
  ∀ p f, s.flights.get p = some f → f.owner = k → f.phase = .landed

def agreement (P : Platform) (data : List Bytes) (hash : String) : TaskPool.Protocol State where
  inv := Safe P data hash
  keeps k s t := Since hash s t ∧ Own k s t
  done k s := Idle k s ∧ k ∉ s.dirty

theorem idle_own (h : Own k s t) (hi : Idle k s) : Idle k t :=
  fun p f hf ho => hi p f ((h.flights p f ho).1 hf) ho

theorem makes_of_silent (h : Silent P data hash s t) : Makes P data hash k s t :=
  ⟨h.safe, h.since, fun j _ => h.own j⟩

theorem acts_of_makes (h : Makes P data hash k s t) : (agreement P data hash).acts k s t :=
  fun j hj => ⟨h.since, h.others j hj⟩

theorem since_of_store (hnext : t.store.nextPackId = s.store.nextPackId)
    (hindex : ∀ h loc, t.store.index.get h = some loc → s.store.index.get h = some loc)
    (hkept : t.store.index.get hash = s.store.index.get hash) (hflights : t.flights = s.flights)
    (hwait : s.unflushed ⊆ t.unflushed) : Since hash s t where
  next := hnext.ge
  places p h _ hat := by
    obtain ⟨loc, hloc, hp⟩ := at_iff.1 hat
    exact at_iff.2 ⟨loc, hindex h loc hloc, hp⟩
  texts p f hf := ⟨f, hflights ▸ hf, rfl⟩
  indexed hi := by rw [JsMap.has, hkept]; exact hi
  flushed hmem := Or.inl (hwait hmem)

theorem own_of_eq (hflights : t.flights = s.flights) (hdirty : t.dirty = s.dirty) : Own k s t :=
  ⟨fun p f _ => by rw [hflights], by rw [hdirty]⟩

end Agree

section Memory

variable {d : Deed}

/-- Nothing but the cache changes. -/
theorem silent_cache (hs : Safe P data hash s) {cache : MemCache}
    (hc : ∀ h b, cache.blobs.get h = some b →
      b ∈ data ∧ P.sha256Hex b = h ∧ (h = hash → Known hash s)) :
    Silent P data hash s ⟨{ s.store with memCache := cache }, s.flights, s.unflushed, s.dirty,
      s.acked, d⟩ where
  safe := { hs with cached := hc }
  since := since_of_store rfl (fun _ _ h => h) rfl rfl (List.Subset.refl _)
  own _ := own_of_eq rfl rfl

theorem silent_same (hs : Safe P data hash s) :
    Silent P data hash s ⟨s.store, s.flights, s.unflushed, s.dirty, s.acked, d⟩ :=
  silent_cache hs hs.cached

theorem silent_ack (hs : Safe P data hash s) {content : Bytes} (hmem : content ∈ data)
    (hindex : P.sha256Hex content = hash → s.store.index.has hash = true) :
    Silent P data hash s ⟨s.store, s.flights, s.unflushed, s.dirty, s.acked ++ [content], d⟩ where
  safe :=
    { hs with
      acked := fun b hb => by
        rcases List.mem_append.1 hb with hb | hb
        · exact hs.acked b hb
        · obtain rfl := List.mem_singleton.1 hb
          exact ⟨hmem, hindex⟩ }
  since := since_of_store rfl (fun _ _ h => h) rfl rfl (List.Subset.refl _)
  own _ := own_of_eq rfl rfl

/-- A blob is put into the buffer. -/
theorem silent_push (hs : Safe P data hash s) {h : String} {b64 : List Char} {content : Bytes}
    {cache : MemCache} {pending : List String} (hmem : content ∈ data)
    (hb64 : base64ToUint8 b64 = some content) (hhash : P.sha256Hex content = h)
    (hc : ∀ x b, cache.blobs.get x = some b →
      (h = x ∧ content = b) ∨ s.store.memCache.blobs.get x = some b)
    (hp : ∀ x ∈ pending, x ∈ s.store.pending ∨ x = h) :
    Silent P data hash s ⟨{ s.store with
      memCache := cache
      pending := pending
      packBuffer := s.store.packBuffer ++ [(h, b64)] }, s.flights, s.unflushed ++ [h], s.dirty,
      s.acked, d⟩ := by
  have hsince : Since hash s ⟨{ s.store with
      memCache := cache
      pending := pending
      packBuffer := s.store.packBuffer ++ [(h, b64)] }, s.flights, s.unflushed ++ [h], s.dirty,
      s.acked, d⟩ :=
    since_of_store rfl (fun _ _ h => h) rfl rfl (List.subset_append_left _ _)
  have hnew : h = hash → Known hash ⟨{ s.store with
      memCache := cache
      pending := pending
      packBuffer := s.store.packBuffer ++ [(h, b64)] }, s.flights, s.unflushed ++ [h], s.dirty,
      s.acked, d⟩ := by
    rintro rfl
    exact Or.inl (List.mem_append_right _ (List.mem_singleton_self _))
  refine ⟨{ hs with buffered := ?_, pended := ?_, waiting := ?_, cached := ?_, known := ?_ },
    hsince, fun _ => own_of_eq rfl rfl⟩
  · intro x c64 hx
    rcases List.mem_append.1 hx with hx | hx
    · exact hs.buffered x c64 hx
    · obtain ⟨rfl, rfl⟩ := Prod.mk.inj (List.mem_singleton.1 hx)
      exact ⟨content, hmem, hb64, hhash⟩
  · intro x hx
    rcases hp x hx with hx | rfl
    · obtain ⟨c64, hc64⟩ := hs.pended x hx
      exact ⟨c64, List.mem_append_left _ hc64⟩
    · exact ⟨b64, List.mem_append_right _ (List.mem_singleton_self _)⟩
  · intro x hx
    rw [List.map_append]
    rcases List.mem_append.1 hx with hx | hx
    · exact List.mem_append_left _ (hs.waiting x hx)
    · exact List.mem_append_right _ hx
  · intro x b hx
    rcases hc x b hx with ⟨rfl, rfl⟩ | hx
    · exact ⟨hmem, hhash, hnew⟩
    · obtain ⟨hb, hh, hk⟩ := hs.cached x b hx
      exact ⟨hb, hh, fun he => known_since hsince (hk he)⟩
  · intro hx
    rw [List.map_append] at hx
    rcases List.mem_append.1 hx with hx | hx
    · exact known_since hsince (hs.known hx)
    · exact hnew (List.mem_singleton.1 hx).symm

/-- Some blobs are dropped, but not `hash`. -/
structure Shrunk (hash : String) (s s' : ContentStore) : Prop where
  index : ∀ h loc, s'.index.get h = some loc → s.index.get h = some loc
  kept : s'.index.get hash = s.index.get hash
  cached : ∀ h b, s'.memCache.blobs.get h = some b → s.memCache.blobs.get h = some b
  rest : s' = { s with index := s'.index, memCache := s'.memCache }

theorem silent_shrunk (hs : Safe P data hash s) {store : ContentStore}
    (h : Shrunk hash s.store store) :
    Silent P data hash s ⟨store, s.flights, s.unflushed, s.dirty, s.acked, d⟩ := by
  obtain ⟨hindex, hkept, hcached, hrest⟩ := h
  generalize store.index = index at *
  generalize store.memCache = cache at *
  subst hrest
  have hhas : index.has hash = s.store.index.has hash := by rw [JsMap.has, hkept, JsMap.has]
  have hknown : ∀ c, Known hash s → Known hash ⟨{ s.store with
      index := index
      memCache := cache }, s.flights, s.unflushed, s.dirty, s.acked, c⟩ :=
    fun c hk => hk.imp_right fun hi => hhas ▸ hi
  have hplacing : placing ⟨{ s.store with
      index := index
      memCache := cache }, s.flights, s.unflushed, s.dirty, s.acked, d⟩ hash = placing s hash := by
    rw [placing, placing, hkept]
  refine ⟨{ hs with
    named := fun x loc hx => hs.named x loc (hindex x loc hx)
    cached := ?_
    acked := ?_
    known := fun hx => hknown d (hs.known hx)
    owed := fun loc f hx => hs.owed loc f (hkept ▸ hx)
    placed := fun loc hx => hs.placed loc (hkept ▸ hx)
    onDisk := ?_ }, since_of_store rfl hindex hkept rfl (List.Subset.refl _),
    fun _ => own_of_eq rfl rfl⟩
  · intro x b hx
    obtain ⟨hb, hh, hk⟩ := hs.cached x b (hcached x b hx)
    exact ⟨hb, hh, fun he => hknown d (hk he)⟩
  · intro b hb
    obtain ⟨hmem, hk⟩ := hs.acked b hb
    exact ⟨hmem, fun he => hhas.trans (hk he)⟩
  · intro hi
    rw [hplacing]
    exact hs.onDisk (hhas.symm.trans hi)

end Memory

section Flush

open ContentStore (addBlob Flush)

variable {d : Deed} {p : Nat} {f : Flush}

theorem keys_pack (s : ContentStore) :
    (pack s).idxDelta.map Prod.fst = s.packBuffer.map Prod.fst := by
  rw [pack]
  induction s.packBuffer using List.reverseRecOn with
  | nil => rfl
  | append_singleton blobs blob ih =>
      rw [List.foldl_concat, addBlob, List.map_append, ih, List.map_append]
      rfl

/-- A place the flush gives a blob, and else the one it had. -/
theorem get_pack (s : ContentStore) (h : String) : (pack s).index.get h =
    ((JsMap.ofList (pack s).idxDelta).get h).or (s.index.get h) := by
  rw [pack, (built_flush s.index s.nextPackId s.packBuffer).delta, JsMap.get_foldl_set]

theorem filled_pack (hs : Safe P data hash s) : ∀ e ∈ (pack s.store).idxDelta,
    e.2.packId = s.store.nextPackId ∧
      ∃ b ∈ data, ContentStore.extract P (pack s.store).packBody e.1 e.2 = some (some b) := by
  intro e he
  obtain ⟨b64, hmem, hid, hlies⟩ := liesAt_delta _ _ _ e he
  obtain ⟨b, hb, hb64, hhash⟩ := hs.buffered e.1 b64 hmem
  exact ⟨hid, b, hb, extract_of_liesAt hlies hb64 hhash⟩

/-- A blob has its new place, in the pack that is built, or that which it had. -/
theorem place_pack (hs : Safe P data hash s) {h : String} {loc : PackLoc}
    (hget : (pack s.store).index.get h = some loc) :
    (JsMap.ofList (pack s.store).idxDelta).get h = some loc ∧ loc.packId = s.store.nextPackId ∨
      h ∉ s.store.packBuffer.map Prod.fst ∧ s.store.index.get h = some loc ∧
        loc.packId < s.store.nextPackId := by
  rw [get_pack] at hget
  cases hd : (JsMap.ofList (pack s.store).idxDelta).get h with
  | some loc' =>
      rw [hd] at hget
      obtain rfl := Option.some.inj hget
      exact Or.inl ⟨rfl, (filled_pack hs _ (JsMap.mem_of_get_ofList hd)).1⟩
  | none =>
      rw [hd] at hget
      obtain ⟨f, hf, -⟩ := hs.named h loc hget
      refine Or.inr ⟨?_, hget, hs.numbered _ f hf⟩
      rw [← keys_pack]
      exact JsMap.get_ofList_eq_none_iff.1 hd

theorem indexed_pack {h : String} (s : ContentStore)
    (hmem : h ∈ s.packBuffer.map Prod.fst ∨ s.index.has h = true) :
    (pack s).index.has h = true := by
  rw [JsMap.has, get_pack, Option.isSome_or, Bool.or_eq_true]
  rcases hmem with hmem | hmem
  · refine Or.inl (Option.isSome_iff_ne_none.2 fun hnone => ?_)
    rw [← keys_pack] at hmem
    exact JsMap.get_ofList_eq_none_iff.1 hnone hmem
  · exact Or.inr hmem

theorem get_flights_ne {flight : Flight} {q : Nat}
    (hq : q < s.store.nextPackId) :
    (s.flights.set s.store.nextPackId flight).get q = s.flights.get q :=
  JsMap.get_set_ne _ _ (Nat.ne_of_gt hq)

theorem since_launch (hs : Safe P data hash s) :
    Since hash s { State.launch k (pack s.store) s with deed := d } where
  next := Nat.le_succ _
  places q h hq hat := by
    obtain ⟨loc, hloc, rfl⟩ := at_iff.1 hat
    rcases place_pack hs hloc with ⟨-, hid⟩ | ⟨-, hold, -⟩
    · exact absurd hq (hid ▸ Nat.lt_irrefl _)
    · exact at_iff.2 ⟨loc, hold, rfl⟩
  texts q f hf := ⟨f, (get_flights_ne (hs.numbered q f hf)).trans hf, rfl⟩
  indexed hi := indexed_pack s.store (Or.inr hi)
  flushed hmem := by
    have hbuffer := hs.waiting hash hmem
    refine Or.inr ⟨indexed_pack s.store (Or.inl hbuffer), fun q hq hat => ?_⟩
    obtain ⟨loc, hloc, rfl⟩ := at_iff.1 hat
    rcases place_pack hs hloc with ⟨-, hid⟩ | ⟨hout, -⟩
    · exact absurd hq (hid ▸ Nat.lt_irrefl _)
    · exact hout hbuffer

theorem makes_launch (hs : Safe P data hash s) :
    Makes P data hash k s { State.launch k (pack s.store) s with deed := d } := by
  have hsince : Since hash s { State.launch k (pack s.store) s with deed := d } := since_launch hs
  have hnew : (s.flights.set s.store.nextPackId
      ⟨k, (pack s.store).packBody, (pack s.store).idxDelta, .body⟩).get s.store.nextPackId =
      some ⟨k, (pack s.store).packBody, (pack s.store).idxDelta, .body⟩ := JsMap.get_set_self _ _ _
  have hflights : ∀ q f, (State.launch k (pack s.store) s).flights.get q = some f →
      q = s.store.nextPackId ∧
        f = ⟨k, (pack s.store).packBody, (pack s.store).idxDelta, .body⟩ ∨
      q < s.store.nextPackId ∧ s.flights.get q = some f := by
    intro q f hf
    by_cases hq : s.store.nextPackId = q
    · subst hq
      exact Or.inl ⟨rfl, Option.some.inj (hf.symm.trans hnew)⟩
    · have hf' : s.flights.get q = some f := (JsMap.get_set_ne _ _ hq).symm.trans hf
      exact Or.inr ⟨hs.numbered q f hf', hf'⟩
  have hat : ∀ loc : PackLoc, loc.packId = s.store.nextPackId →
      (State.launch k (pack s.store) s).flights.get loc.packId =
        some ⟨k, (pack s.store).packBody, (pack s.store).idxDelta, .body⟩ := fun _ hid => hid ▸ hnew
  have hunwritten : s.store.packs.get s.store.nextPackId = none := by
    cases hp : s.store.packs.get s.store.nextPackId with
    | none => rfl
    | some text =>
        obtain ⟨f, hf, -⟩ := hs.texts _ text hp
        exact absurd (hs.numbered _ f hf) (Nat.lt_irrefl _)
  refine ⟨⟨?_, ?_, ?_, ?_, ?_, ?_, hs.buffered, hs.pended, nofun, ?_, ?_, ?_, ?_, ?_, ?_⟩, hsince,
    ?_⟩
  · intro h loc hloc
    rcases place_pack hs hloc with ⟨hd, hid⟩ | ⟨-, hold, -⟩
    · obtain ⟨-, hx⟩ := filled_pack hs _ (JsMap.mem_of_get_ofList hd)
      exact ⟨_, hat loc hid, hx⟩
    · exact good_since hsince (hs.named h loc hold)
  · exact fun h loc hmem => good_since hsince (hs.listed h loc hmem)
  · intro q f hf
    rcases hflights q f hf with ⟨rfl, -⟩ | ⟨hq, -⟩
    · exact Nat.lt_succ_self _
    · exact Nat.lt_succ_of_lt hq
  · intro q f hf
    rcases hflights q f hf with ⟨rfl, rfl⟩ | ⟨-, hf⟩
    · exact filled_pack hs
    · exact hs.filled q f hf
  · intro q f hf hphase
    rcases hflights q f hf with ⟨rfl, -⟩ | ⟨-, hf⟩
    · exact hunwritten
    · exact hs.unwritten q f hf hphase
  · intro q text hq
    obtain ⟨f, hf, he⟩ := hs.texts q text hq
    exact ⟨f, (get_flights_ne (hs.numbered q f hf)).trans hf, he⟩
  · intro h b hb
    obtain ⟨hmem, hhash, hk⟩ := hs.cached h b hb
    exact ⟨hmem, hhash, fun he => known_since hsince (hk he)⟩
  · exact fun b hb => ⟨(hs.acked b hb).1, fun he => hsince.indexed ((hs.acked b hb).2 he)⟩
  · exact fun hx => known_since hsince (hs.known hx)
  · intro loc f hloc hf
    rcases place_pack hs hloc with ⟨hd, hid⟩ | ⟨-, hold, hlt⟩
    · rcases hflights _ f hf with ⟨-, rfl⟩ | ⟨hq, -⟩
      · exact hd
      · exact absurd hid (Nat.ne_of_lt hq)
    · exact hs.owed loc f hold ((get_flights_ne hlt).symm.trans hf)
  · intro loc hloc
    rcases place_pack hs hloc with ⟨-, hid⟩ | ⟨-, hold, hlt⟩
    · exact Or.inr ⟨_, hat loc hid, rfl⟩
    · refine (hs.placed loc hold).imp_right ?_
      rintro ⟨f, hf, hphase⟩
      exact ⟨f, (get_flights_ne hlt).trans hf, hphase⟩
  · intro hi
    obtain ⟨loc, hloc⟩ := (JsMap.has_iff _ _).1 hi
    rcases place_pack hs hloc with ⟨-, hid⟩ | ⟨-, hold, hlt⟩
    · exact Or.inr (Or.inl (placing_iff.2 ⟨loc, _, hloc, hat loc hid, nofun⟩))
    · refine (hs.onDisk ((JsMap.has_iff _ _).2 ⟨loc, hold⟩)).imp_right (Or.imp_left fun hp => ?_)
      obtain ⟨loc', f, hloc', hf, hphase⟩ := placing_iff.1 hp
      obtain rfl := Option.some.inj (hold.symm.trans hloc')
      exact placing_iff.2 ⟨loc, f, hloc, (get_flights_ne hlt).trans hf, hphase⟩
  · intro j hj
    refine ⟨fun q f ho => ?_, Iff.rfl⟩
    by_cases hq : s.store.nextPackId = q
    · subst hq
      refine iff_of_false ?_ fun hf => absurd (hs.numbered _ f hf) (Nat.lt_irrefl _)
      intro hf
      obtain rfl := Option.some.inj (hnew.symm.trans hf)
      exact hj ho.symm
    · exact iff_of_eq (congrArg (· = some f) (JsMap.get_set_ne _ _ hq))

/-- A flush that comes on: its pack stays the same text. -/
theorem flights_advance {phase phase' : Phase} {q : Nat} {flight : Flight}
    (hf : s.flights.get p = some ⟨k, f.packBody, f.idxDelta, phase⟩)
    (hget : (s.flights.set p ⟨k, f.packBody, f.idxDelta, phase'⟩).get q = some flight) :
    ∃ old, s.flights.get q = some old ∧ old.packBody = flight.packBody ∧
      old.idxDelta = flight.idxDelta ∧ (flight.phase = phase' ∨ q ≠ p ∧ old = flight) := by
  rw [JsMap.get_set] at hget
  split at hget
  · rename_i he
    subst he
    obtain rfl := Option.some.inj hget
    exact ⟨_, hf, rfl, rfl, Or.inl rfl⟩
  · rename_i hne
    exact ⟨flight, hget, rfl, rfl, Or.inr ⟨Ne.symm hne, rfl⟩⟩

theorem texts_advance {phase phase' : Phase} {q : Nat} {flight : Flight}
    (hf : s.flights.get p = some ⟨k, f.packBody, f.idxDelta, phase⟩)
    (hget : s.flights.get q = some flight) :
    ∃ f', (s.flights.set p ⟨k, f.packBody, f.idxDelta, phase'⟩).get q = some f' ∧
      f'.packBody = flight.packBody ∧ f'.idxDelta = flight.idxDelta := by
  rw [JsMap.get_set]
  split
  · rename_i he
    subst he
    obtain rfl := Option.some.inj (hf.symm.trans hget)
    exact ⟨_, rfl, rfl, rfl⟩
  · exact ⟨flight, hget, rfl, rfl⟩

theorem own_advance {phase phase' : Phase} {j : Nat} {flight : Flight} {q : Nat} (hj : j ≠ k)
    (hf : s.flights.get p = some ⟨k, f.packBody, f.idxDelta, phase⟩) (ho : flight.owner = j) :
    (s.flights.set p ⟨k, f.packBody, f.idxDelta, phase'⟩).get q = some flight ↔
      s.flights.get q = some flight := by
  rw [JsMap.get_set]
  split
  · rename_i he
    subst he
    rw [hf]
    refine iff_of_false ?_ ?_ <;>
    · rintro ⟨⟩
      exact hj ho.symm
  · rfl

theorem makes_appendPack (hs : Safe P data hash s)
    (hf : s.flights.get p = some ⟨k, f.packBody, f.idxDelta, .body⟩) :
    Makes P data hash k s { State.appendPack k p f s with deed := d } := by
  have hempty : s.store.packs.get p = none := hs.unwritten p _ hf rfl
  have hpacks : (State.appendPack k p f s).store.packs = s.store.packs.set p f.packBody := by
    rw [State.appendPack, hempty]
    rfl
  have htexts : ∀ q flight, s.flights.get q = some flight →
      ∃ f', (State.appendPack k p f s).flights.get q = some f' ∧
        f'.packBody = flight.packBody ∧ f'.idxDelta = flight.idxDelta :=
    fun q flight hq => texts_advance hf hq
  have hhas : ∀ q, s.store.packs.has q = true → (s.store.packs.set p f.packBody).has q = true := by
    intro q hq
    rw [JsMap.has, JsMap.get_set]
    split
    · rfl
    · exact hq
  have hsince : Since hash s { State.appendPack k p f s with deed := d } := by
    refine ⟨Nat.le_refl _, fun _ _ _ h => h, fun q flight hq => ?_, fun h => h, Or.inl⟩
    obtain ⟨f', hf', he, -⟩ := htexts q flight hq
    exact ⟨f', hf', he⟩
  refine ⟨{ hs with
    named := fun h loc hloc => good_since hsince (hs.named h loc hloc)
    listed := fun h loc hmem => good_since hsince (hs.listed h loc hmem)
    numbered := ?_, filled := ?_, unwritten := ?_, texts := ?_, owed := ?_, placed := ?_
    onDisk := ?_ }, hsince, fun j hj => ⟨fun q flight ho => own_advance hj hf ho, Iff.rfl⟩⟩
  · intro q flight hq
    obtain ⟨old, hold, -⟩ := flights_advance hf hq
    exact hs.numbered q old hold
  · intro q flight hq
    obtain ⟨old, hold, hbody, hdelta, -⟩ := flights_advance hf hq
    exact hbody ▸ hdelta ▸ hs.filled q old hold
  · intro q flight hq hphase
    obtain ⟨old, hold, -, -, hadvanced | ⟨hne, rfl⟩⟩ := flights_advance hf hq
    · cases hphase.symm.trans hadvanced
    · refine Eq.trans ?_ (hs.unwritten q old hold hphase)
      rw [hpacks, JsMap.get_set_ne _ _ (Ne.symm hne)]
  · intro q text hq
    rw [hpacks, JsMap.get_set] at hq
    split at hq
    · rename_i he
      subst he
      obtain rfl := Option.some.inj hq
      exact ⟨_, JsMap.get_set_self _ _ _, rfl⟩
    · obtain ⟨flight, hflight, he⟩ := hs.texts q text hq
      obtain ⟨f', hf', he', -⟩ := htexts q flight hflight
      exact ⟨f', hf', he'.trans he⟩
  · intro loc flight hloc hq
    obtain ⟨old, hold, -, hdelta, -⟩ := flights_advance hf hq
    exact hdelta ▸ hs.owed loc old hloc hold
  · intro loc hloc
    by_cases hid : p = loc.packId
    · refine Or.inl ?_
      rw [hpacks, JsMap.has, hid, JsMap.get_set_self]
      rfl
    · rcases hs.placed loc hloc with hp | ⟨flight, hflight, hphase⟩
      · exact Or.inl (hpacks ▸ hhas _ hp)
      · exact Or.inr ⟨flight, (JsMap.get_set_ne _ _ hid).trans hflight, hphase⟩
  · intro hi
    rcases hs.onDisk hi with hdirty | hplacing | ⟨loc, hloc, hp⟩
    · exact Or.inl hdirty
    · obtain ⟨loc, flight, hloc, hflight, hphase⟩ := placing_iff.1 hplacing
      refine Or.inr (Or.inl (placing_iff.2 ?_))
      by_cases hid : p = loc.packId
      · subst hid
        exact ⟨loc, _, hloc, JsMap.get_set_self _ _ _, by rintro ⟨⟩⟩
      · exact ⟨loc, flight, hloc, (JsMap.get_set_ne _ _ hid).trans hflight, hphase⟩
    · exact Or.inr (Or.inr ⟨loc, hloc, hpacks ▸ hhas _ hp⟩)

theorem makes_appendIndex (hs : Safe P data hash s)
    (hf : s.flights.get p = some ⟨k, f.packBody, f.idxDelta, .places⟩)
    (hcareful : Spares hash s (.appended f.idxDelta)) :
    Makes P data hash k s (State.appendIndex k p f s) := by
  have hsince : Since hash s (State.appendIndex k p f s) := by
    refine ⟨Nat.le_refl _, fun _ _ _ h => h, fun q flight hq => ?_, fun h => h, Or.inl⟩
    obtain ⟨f', hf', he, -⟩ := texts_advance hf hq
    exact ⟨f', hf', he⟩
  refine ⟨{ hs with
    named := fun h loc hloc => good_since hsince (hs.named h loc hloc)
    listed := ?_, numbered := ?_, filled := ?_, unwritten := ?_, texts := ?_, owed := ?_
    placed := ?_, onDisk := ?_ }, hsince,
    fun j hj => ⟨fun q flight ho => own_advance hj hf ho, Iff.rfl⟩⟩
  · intro h loc hmem
    rcases List.mem_append.1 hmem with hmem | hmem
    · exact good_since hsince (hs.listed h loc hmem)
    · obtain ⟨hid, hx⟩ := hs.filled p _ hf _ hmem
      exact good_since hsince ⟨_, hid.symm ▸ hf, hx⟩
  · intro q flight hq
    obtain ⟨old, hold, -⟩ := flights_advance hf hq
    exact hs.numbered q old hold
  · intro q flight hq
    obtain ⟨old, hold, hbody, hdelta, -⟩ := flights_advance hf hq
    exact hbody ▸ hdelta ▸ hs.filled q old hold
  · intro q flight hq hphase
    obtain ⟨old, hold, -, -, hadvanced | ⟨-, rfl⟩⟩ := flights_advance hf hq
    · cases hphase.symm.trans hadvanced
    · exact hs.unwritten q old hold hphase
  · intro q text hq
    obtain ⟨flight, hflight, he⟩ := hs.texts q text hq
    obtain ⟨f', hf', he', -⟩ := texts_advance hf hflight
    exact ⟨f', hf', he'.trans he⟩
  · intro loc flight hloc hq
    obtain ⟨old, hold, -, hdelta, -⟩ := flights_advance hf hq
    exact hdelta ▸ hs.owed loc old hloc hold
  · intro loc hloc
    refine (hs.placed loc hloc).imp_right ?_
    rintro ⟨flight, hflight, hphase⟩
    refine ⟨flight, (JsMap.get_set_ne _ _ ?_).trans hflight, hphase⟩
    rintro rfl
    obtain rfl := Option.some.inj (hf.symm.trans hflight)
    cases hphase
  · intro hi
    have hlast : ∀ h, (JsMap.ofList (s.store.indexFile ++ f.idxDelta)).get h =
        ((JsMap.ofList f.idxDelta).get h).or ((JsMap.ofList s.store.indexFile).get h) := by
      intro h
      rw [JsMap.ofList, List.foldl_append, JsMap.get_foldl_set, ← JsMap.ofList]
    have hnew : ∀ loc, (JsMap.ofList f.idxDelta).get hash = some loc →
        s.dirty ≠ [] ∨ Findable hash (State.appendIndex k p f s) := by
      intro loc hloc
      refine (hcareful loc hloc).imp_right fun hp => ⟨loc, ?_, hp⟩
      exact (hlast hash).trans (by rw [hloc]; rfl)
    rcases hs.onDisk hi with hdirty | hplacing | ⟨loc, hloc, hp⟩
    · exact Or.inl hdirty
    · obtain ⟨loc, flight, hloc, hflight, hphase⟩ := placing_iff.1 hplacing
      by_cases hid : p = loc.packId
      · exact (hnew loc (hs.owed loc _ hloc (hid ▸ hf))).imp_right Or.inr
      · exact Or.inr (Or.inl (placing_iff.2
          ⟨loc, flight, hloc, (JsMap.get_set_ne _ _ hid).trans hflight, hphase⟩))
    · cases hget : (JsMap.ofList f.idxDelta).get hash with
      | some loc' => exact (hnew loc' hget).imp_right Or.inr
      | none => exact Or.inr (Or.inr ⟨loc, (hlast hash).trans (by rw [hget]; exact hloc), hp⟩)

theorem silent_clear (hs : Safe P data hash s) (hcareful : Spares hash s .cleared) :
    Silent P data hash s (State.clear B s) := by
  have hkept : Known hash s → s.store.index.has hash = true :=
    fun hk => hk.resolve_left hcareful
  have hsince : Since hash s (State.clear B s) :=
    ⟨Nat.le_refl _, fun _ _ _ h => h, fun _ f hf => ⟨f, hf, rfl⟩, fun h => h,
      fun h => absurd h hcareful⟩
  refine ⟨{ hs with buffered := nofun, pended := nofun, waiting := nofun, cached := ?_
                    known := nofun }, hsince, fun _ => own_of_eq rfl rfl⟩
  intro h b hb
  obtain ⟨hmem, hhash, hk⟩ := hs.cached h b (get_of_evictToBudget hb)
  exact ⟨hmem, hhash, fun he => Or.inr (hkept (hk he))⟩

end Flush

section Files

variable {d : Deed} {p : Nat}

/-- A pack is removed, and the index must be rewritten. -/
theorem makes_remove (hs : Safe P data hash s) (hat : ¬ At s.store p hash) :
    Makes P data hash k s ⟨ContentStore.remove s.store p, s.flights, s.unflushed, k :: s.dirty,
      s.acked, d⟩ where
  safe :=
    { hs with
      unwritten := fun q f hf hphase => by
        have hq := hs.unwritten q f hf hphase
        rw [ContentStore.remove, JsMap.get_delete, hq, ite_self]
      texts := fun q text hq => by
        rw [ContentStore.remove, JsMap.get_delete] at hq
        split at hq
        · cases hq
        · exact hs.texts q text hq
      placed := fun loc hloc => by
        refine (hs.placed loc hloc).imp_left fun hp => ?_
        rw [JsMap.has, ContentStore.remove, JsMap.get_delete_ne]
        · exact hp
        · rintro rfl
          exact hat (at_iff.2 ⟨loc, hloc, rfl⟩)
      onDisk := fun _ => Or.inl nofun }
  since := since_of_store rfl (fun _ _ h => h) rfl rfl (List.Subset.refl _)
  others j hj := ⟨fun _ _ _ => Iff.rfl, by
    rw [List.mem_cons]
    exact or_iff_right hj⟩

theorem makes_rewrite (hs : Safe P data hash s) {body : List (String × PackLoc)}
    (hbody : ∀ h loc, (h, loc) ∈ body → Good P data s h loc)
    (hcareful : Spares hash s (.rewrote k body)) :
    Makes P data hash k s ⟨{ s.store with indexFile := body }, s.flights, s.unflushed,
      s.dirty.filter (· ≠ k), s.acked, .rewrote k body⟩ where
  safe :=
    { hs with
      listed := hbody
      onDisk := fun hi => by
        rcases hcareful with ⟨j, hj, hne⟩ | hplacing | hsame
        · refine Or.inl (List.ne_nil_of_mem (a := j) (List.mem_filter.2 ⟨hj, ?_⟩))
          exact decide_eq_true hne
        · exact Or.inr (Or.inl hplacing)
        · obtain ⟨loc, hloc⟩ := (JsMap.has_iff _ _).1 hi
          rcases hs.placed loc hloc with hp | ⟨f, hf, hphase⟩
          · exact Or.inr (Or.inr ⟨loc, hsame.trans hloc, hp⟩)
          · exact Or.inr (Or.inl (placing_iff.2 ⟨loc, f, hloc, hf, by rw [hphase]; nofun⟩)) }
  since := since_of_store rfl (fun _ _ h => h) rfl rfl (List.Subset.refl _)
  others j hj := ⟨fun _ _ _ => Iff.rfl, by
    rw [List.mem_filter, decide_eq_true_eq, and_iff_left hj]⟩

end Files

end OpsBlobs.PackTaskSteps
