import OpsBlobs.PackTaskSteps

namespace OpsBlobs.PackTaskSpecs

open Types PackedContent ContentIntegrity PackMaintenance PackRefinement PackTasks PackTaskSteps
  Coroutine TaskPool

variable {P : Platform} {B : Nat} {data : List Bytes} {hash : String} {k : Nat} {s t u : State}
  {α β : Type}

section Rules

/-- The task keeps its part of the agreement and comes back with `Q`. -/
def Meets (P : Platform) (data : List Bytes) (hash : String) (k : Nat) (t : Async α)
    (Q : α → State → Prop) (s : State) : Prop :=
  meets ((agreement P data hash).rely k) ((agreement P data hash).acts k) (Careful hash)
    (Safe P data hash) t (returns Q) s

/-- What a task finds when it goes on: the others have run. -/
def Later (P : Platform) (data : List Bytes) (hash : String) (k : Nat) (s t : State) : Prop :=
  (agreement P data hash).rely k s t

variable {Q Q' : α → State → Prop}

theorem later_refl (hs : Safe P data hash s) : Later P data hash k s s :=
  ⟨hs, since_refl s, own_refl s⟩

theorem later_trans (h : Later P data hash k s t) (h' : Later P data hash k t u) :
    Later P data hash k s u :=
  ⟨h'.1, since_trans h.2.1 h'.2.1, own_trans h.2.2 h'.2.2⟩

theorem later_silent (h : Silent P data hash s t) : Later P data hash k s t :=
  ⟨h.safe, h.since, h.own k⟩

theorem meets_weaken {t : Async α} (h : Meets P data hash k t Q s)
    (hQ : ∀ a s, Q a s → Q' a s) : Meets P data hash k t Q' s := by
  refine meets_mono ?_ h
  rintro (e | a) s' ha
  · exact ha
  · exact hQ a s' ha

theorem meets_seq {t : Async α} {f : α → Async β} {Q : β → State → Prop} {I : α → State → Prop}
    (h : Meets P data hash k t I s) (hf : ∀ a s, I a s → Meets P data hash k (f a) Q s) :
    Meets P data hash k (t >>= f) Q s := meets_bind h hf

theorem meets_read {f : State → Async α} (h : Meets P data hash k (f s) Q s) :
    Meets P data hash k (Coroutine.get >>= f) Q s := h

theorem meets_wait {f : Unit → Async α} (hs : Safe P data hash s)
    (h : ∀ t, Later P data hash k s t → Meets P data hash k (f ()) Q t) :
    Meets P data hash k (pause >>= f) Q s := ⟨hs, fun t ht _ => h t ht⟩

theorem meets_write {f : State → State} {Q : Unit → State → Prop}
    (h : Careful hash s (f s) → Makes P data hash k s (f s) ∧ Q () (f s)) :
    Meets P data hash k (modify f) Q s :=
  fun hC => ⟨acts_of_makes (h hC).1, (h hC).2⟩

theorem meets_silent {f : State → State}
    (h : Careful hash s (f s) → Silent P data hash s (f s)) :
    Meets P data hash k (modify f) (fun _ t => Later P data hash k s t) s :=
  meets_write fun hC => ⟨makes_of_silent (h hC), later_silent (h hC)⟩

theorem meets_rest {Q : Unit → State → Prop} (hs : Safe P data hash s)
    (h : ∀ t, Later P data hash k s t → Q () t) :
    Meets P data hash k pause Q s := ⟨hs, fun t ht _ => h t ht⟩

theorem meets_file {t : Async α} (hs : Safe P data hash s)
    (h : ∀ u, Later P data hash k s u → Meets P data hash k t (fun a v =>
      Safe P data hash v ∧ ∀ w, Later P data hash k v w → Q a w) u) :
    Meets P data hash k (fileCall t) Q s :=
  meets_wait hs fun u hu => meets_seq (h u hu) fun _ _ hv => meets_wait hv.1 fun w hw => hv.2 w hw

theorem meets_each {f : α → Async Unit} {I : List α → State → Prop} {l : List α} (hI : I l s)
    (hf : ∀ a rest s, a ∈ l → I (a :: rest) s →
      Meets P data hash k (f a) (fun _ s => I rest s) s) :
    Meets P data hash k (forEach f l) (fun _ s => I [] s) s := meets_forEach hI hf

theorem meets_fold {f : β → α → Async β} {I : List α → β → State → Prop} {l : List α} {b : β}
    (hI : I l b s) (hf : ∀ a rest b s, a ∈ l → I (a :: rest) b s →
      Meets P data hash k (f b a) (fun b s => I rest b s) s) :
    Meets P data hash k (foldM f b l) (fun b s => I [] b s) s := meets_foldM hI hf

end Rules

section Read

variable {p : Nat} {text : List Char} {h : String} {loc : PackLoc}

/-- The text of a pack that was built. -/
def TextOf (s : State) (p : Nat) (text : List Char) : Prop :=
  ∃ f, s.flights.get p = some f ∧ f.packBody = text

theorem textOf_since (hs : Since hash s t) (ht : TextOf s p text) : TextOf t p text := by
  obtain ⟨f, hf, rfl⟩ := ht
  exact hs.texts p f hf

theorem length_of_extract {b : Bytes}
    (hx : ContentStore.extract P text h loc = some (some b)) :
    (substr text loc.offset loc.len).length = loc.len := by
  simp only [ContentStore.extract] at hx
  split at hx
  · cases hx
  · rename_i hlen
    exact not_not.1 hlen

/-- A read of a pack at a place that the index has for it does not throw. -/
theorem decodes_good (hg : Good P data s h loc) (ht : TextOf s loc.packId text) :
    (substr text loc.offset loc.len).length = loc.len ∧ ∃ b ∈ data,
      base64ToUint8 (substr text loc.offset loc.len) = some b ∧ P.sha256Hex b = h := by
  obtain ⟨f, hf, b, hb, hx⟩ := hg
  obtain ⟨f', hf', rfl⟩ := ht
  obtain rfl := Option.some.inj (hf.symm.trans hf')
  obtain ⟨hhash, hdecode⟩ := hash_of_extract hx
  exact ⟨length_of_extract hx, b, hb, hdecode, hhash⟩

theorem meets_readPack (hs : Safe P data hash s) (p : Nat) :
    Meets P data hash k (readPack p) (fun a t => Later P data hash k s t ∧
      ∀ text, a = some text → TextOf t p text) s := by
  refine meets_file hs fun u hu => meets_read ⟨hu.1, fun w hw => ?_⟩
  refine ⟨later_trans hu hw, fun text htext => ?_⟩
  exact textOf_since hw.2.1 (hu.1.texts p text htext)

/-- What a read of a blob answers. -/
def Answer (P : Platform) (data : List Bytes) (h : String) (found : Option Bytes) : Prop :=
  ∀ b, found = some b → b ∈ data ∧ P.sha256Hex b = h

theorem meets_cacheBlob (hs : Safe P data hash s) (ht : TextOf s p text) {wanted : String}
    {found : Option Bytes} (hfound : Answer P data wanted found) (h : String) :
    Meets P data hash k (cacheBlob P B p text wanted found h) (fun r t =>
      Later P data hash k s t ∧ Answer P data wanted r) s := by
  have hsame : Meets P data hash k (pure found) (fun r t =>
      Later P data hash k s t ∧ Answer P data wanted r) s := ⟨later_refl hs, hfound⟩
  refine meets_read ?_
  split
  · exact hsame
  · rename_i l hl
    split
    · exact hsame
    · rename_i hskip
      obtain rfl : l.packId = p := not_not.1 (not_or.1 hskip).1
      obtain ⟨hlen, b, hb, hdecode, hhash⟩ := decodes_good (hs.named h l hl) ht
      rw [if_neg (not_not.2 hlen), hdecode]
      refine meets_wait hs fun u hu => ?_
      rw [if_pos hhash]
      refine meets_seq (I := fun _ v => Later P data hash k s v) ?_ ?_
      · refine meets_weaken (meets_silent fun _ => silent_cache hu.1 fun x c hc => ?_)
          fun _ v hv => later_trans hu hv
        rcases get_of_cacheSet hc with ⟨rfl, rfl⟩ | hc
        · refine ⟨hb, hhash, ?_⟩
          rintro rfl
          exact Or.inr (hu.2.1.indexed ((JsMap.has_iff _ _).2 ⟨l, hl⟩))
        · exact hu.1.cached x c hc
      · refine fun _ v hv => ⟨hv, ?_⟩
        split
        · rename_i hwanted
          rintro _ ⟨⟩
          exact ⟨hb, hhash.trans hwanted⟩
        · exact hfound

theorem meets_getFromPack (hs : Safe P data hash s) (wanted : String) :
    Meets P data hash k (getFromPack P B wanted) (fun r t =>
      Later P data hash k s t ∧ Answer P data wanted r) s := by
  refine meets_read ?_
  split
  · exact ⟨later_refl hs, nofun⟩
  · rename_i loc _
    refine meets_seq (meets_readPack hs loc.packId) fun a u hu => ?_
    obtain ⟨hu, htext⟩ := hu
    split
    · exact ⟨hu, nofun⟩
    · rename_i text
      refine meets_read ?_
      have hstart : Answer P data wanted (u.store.memCache.blobs.get wanted) := by
        intro b hb
        obtain ⟨hmem, hhash, -⟩ := hu.1.cached wanted b hb
        exact ⟨hmem, hhash⟩
      refine meets_weaken (meets_fold (I := fun _ r v => Later P data hash k s v ∧
        TextOf v loc.packId text ∧ Answer P data wanted r) ⟨hu, htext text rfl, hstart⟩ ?_)
        fun r v hv => ⟨hv.1, hv.2.2⟩
      rintro h rest r v - ⟨hv, ht, hr⟩
      refine meets_weaken (meets_cacheBlob hv.1 ht hr h) fun r' w hw => ?_
      exact ⟨later_trans hv hw.1, textOf_since hw.1.2.1 ht, hw.2⟩

theorem meets_get' (hs : Safe P data hash s) (wanted : String) :
    Meets P data hash k (PackTasks.get P B wanted) (fun r t =>
      Later P data hash k s t ∧ Answer P data wanted r) s := by
  refine meets_read ?_
  split
  · rename_i cached hhit
    have hcached := hs.cached wanted cached hhit
    refine meets_seq (meets_silent fun _ => silent_cache hs fun x b hb => ?_) fun _ t ht => ?_
    · rw [get_touch hhit] at hb
      exact hs.cached x b hb
    · refine ⟨ht, ?_⟩
      rintro _ ⟨⟩
      exact ⟨hcached.1, hcached.2.1⟩
  · exact meets_getFromPack hs wanted

end Read

section Write

open ContentStore (Flush)

/-- What a task leaves that has flushed or removed something. -/
structure After (P : Platform) (data : List Bytes) (hash : String) (k : Nat) (s t : State) :
    Prop where
  safe : Safe P data hash t
  since : Since hash s t
  idle : Idle k t

theorem after_refl (hs : Safe P data hash s) (hi : Idle k s) : After P data hash k s s :=
  ⟨hs, since_refl s, hi⟩

theorem after_trans (h : After P data hash k s t) (h' : After P data hash k t u) :
    After P data hash k s u := ⟨h'.safe, since_trans h.since h'.since, h'.idle⟩

theorem after_later (h : After P data hash k s t) (h' : Later P data hash k t u) :
    After P data hash k s u :=
  ⟨h'.1, since_trans h.since h'.2.1, idle_own h'.2.2 h.idle⟩

/-- In the middle of a flush: its own pack is on its way, and no other. -/
structure Midway (P : Platform) (data : List Bytes) (hash : String) (k : Nat) (s : State)
    (phase : Phase) (t : State) : Prop where
  safe : Safe P data hash t
  since : Since hash s t
  dirty : k ∈ t.dirty ↔ k ∈ s.dirty
  flushed : hash ∈ s.unflushed → t.store.index.has hash = true ∧
    ∀ p, p < s.store.nextPackId → ¬ At t.store p hash
  flight : t.flights.get s.store.nextPackId =
    some ⟨k, (pack s.store).packBody, (pack s.store).idxDelta, phase⟩
  others : ∀ p f, t.flights.get p = some f → f.owner = k → p ≠ s.store.nextPackId →
    f.phase = .landed

variable {phase : Phase}

theorem midway_later (h : Midway P data hash k s phase t) (hu : Later P data hash k t u) :
    Midway P data hash k s phase u where
  safe := hu.1
  since := since_trans h.since hu.2.1
  dirty := hu.2.2.dirty.trans h.dirty
  flushed hmem :=
    have hf := h.flushed hmem
    ⟨hu.2.1.indexed hf.1, fun p hp hat => hf.2 p hp
      (hu.2.1.places p hash (hp.trans_le h.since.next) hat)⟩
  flight := (hu.2.2.flights _ _ rfl).2 h.flight
  others p f hf ho := h.others p f ((hu.2.2.flights p f ho).1 hf) ho

/-- An append of a flush: the next phase begins. -/
theorem midway_makes {phase' : Phase} (h : Midway P data hash k s phase t)
    (hm : Makes P data hash k t u) (hdirty : u.dirty = t.dirty)
    (hindex : u.store.index = t.store.index)
    (hflights : u.flights = t.flights.set s.store.nextPackId
      ⟨k, (pack s.store).packBody, (pack s.store).idxDelta, phase'⟩) :
    Midway P data hash k s phase' u where
  safe := hm.safe
  since := since_trans h.since hm.since
  dirty := by rw [hdirty]; exact h.dirty
  flushed hmem := by
    obtain ⟨hhas, hat⟩ := h.flushed hmem
    exact ⟨hindex ▸ hhas, fun p hp hx => hat p hp ((at_congr (by rw [hindex])).1 hx)⟩
  flight := by rw [hflights, JsMap.get_set_self]
  others p f hf ho hp := by
    rw [hflights, JsMap.get_set_ne _ _ (Ne.symm hp)] at hf
    exact h.others p f hf ho hp

theorem midway_launch (hs : Safe P data hash s) (hi : Idle k s) {d : Deed} :
    Midway P data hash k s .body { State.launch k (pack s.store) s with deed := d } where
  safe := (makes_launch hs).safe
  since := since_launch hs
  dirty := Iff.rfl
  flushed hmem := ((since_launch (k := k) (d := d) hs).flushed hmem).resolve_left nofun
  flight := JsMap.get_set_self _ _ _
  others p f hf ho hp := hi p f ((JsMap.get_set_ne _ _ (Ne.symm hp)).symm.trans hf) ho

theorem meets_flushPack (hs : Safe P data hash s) (hi : Idle k s) :
    Meets P data hash k (flushPack B k) (fun _ t => After P data hash k s t ∧
      (k ∈ t.dirty ↔ k ∈ s.dirty) ∧ (hash ∈ s.unflushed → t.store.index.has hash = true ∧
        ∀ p, p < s.store.nextPackId → ¬ At t.store p hash)) s := by
  refine meets_read ?_
  split
  · rename_i hempty
    refine ⟨after_refl hs hi, Iff.rfl, fun hmem => ?_⟩
    have hmem := hs.waiting hash hmem
    rw [hempty] at hmem
    cases hmem
  · refine meets_seq (I := fun _ t => Midway P data hash k s .body t)
      (meets_write fun _ => ⟨makes_launch hs, midway_launch hs hi⟩) fun _ t ht => ?_
    refine meets_wait ht.safe fun t' ht' => ?_
    replace ht := midway_later ht ht'
    refine meets_seq (I := fun _ v => Midway P data hash k s .places v) ?_ fun _ v hv => ?_
    · refine meets_file ht.safe fun u hu => meets_write fun _ => ?_
      have hm := makes_appendPack (midway_later ht hu).safe (midway_later ht hu).flight (d := .plain)
      refine ⟨hm, hm.safe, fun w hw => ?_⟩
      exact midway_later (midway_makes (midway_later ht hu) hm rfl rfl rfl) hw
    · refine meets_seq (I := fun _ v => Midway P data hash k s .landed v) ?_ fun _ v hv => ?_
      · refine meets_file hv.safe fun u hu => meets_write fun hC => ?_
        have hm := makes_appendIndex (midway_later hv hu).safe (midway_later hv hu).flight hC
        refine ⟨hm, hm.safe, fun w hw => ?_⟩
        exact midway_later (midway_makes (midway_later hv hu) hm rfl rfl rfl) hw
      · refine meets_write fun hC => ?_
        have hm := silent_clear (B := B) hv.safe hC
        have hend := midway_later hv (later_silent (k := k) hm)
        refine ⟨makes_of_silent hm, ⟨hend.safe, hend.since, fun p f hf ho => ?_⟩, hend.dirty,
          hend.flushed⟩
        by_cases hp : p = s.store.nextPackId
        · subst hp
          obtain rfl := Option.some.inj (hend.flight.symm.trans hf)
          rfl
        · exact hend.others p f hf ho hp

theorem meets_putBuffered (hs : Safe P data hash s) {content : Bytes} (hmem : content ∈ data) :
    Meets P data hash k (putBuffered B (P.sha256Hex content) content) (fun _ t =>
      Later P data hash k s t ∧ (P.sha256Hex content = hash → Known hash t)) s := by
  refine meets_write fun _ => ?_
  dsimp only
  split
  · rename_i hheld
    have hsilent : Silent P data hash s ⟨s.store, s.flights, s.unflushed, s.dirty, s.acked, .plain⟩ :=
      silent_same hs
    refine ⟨makes_of_silent hsilent, later_silent hsilent, fun he => ?_⟩
    rcases hheld with hcached | hpending
    · obtain ⟨b, hb⟩ := (JsMap.has_iff _ _).1 hcached
      exact (hs.cached _ b hb).2.2 he
    · obtain ⟨b64, hb64⟩ := hs.pended _ hpending
      exact hs.known (he ▸ List.mem_map_of_mem hb64)
  · rename_i hnew
    have hsilent : Silent P data hash s ⟨ContentStore.putBuffered B s.store (P.sha256Hex content)
        content, s.flights, s.unflushed ++ [P.sha256Hex content], s.dirty, s.acked, .plain⟩ := by
      rw [ContentStore.putBuffered, if_neg hnew]
      refine silent_push hs hmem (Base64.atob_btoa content) rfl (fun _ _ => get_of_cacheSet) ?_
      exact fun x hx => (List.mem_append.1 hx).imp_right List.mem_singleton.1
    refine ⟨makes_of_silent hsilent, later_silent hsilent, ?_⟩
    rintro rfl
    exact Or.inl (List.mem_append_right _ (List.mem_singleton_self _))

theorem meets_put (hs : Safe P data hash s) (hi : Idle k s) (hd : k ∉ s.dirty) {content : Bytes}
    (hmem : content ∈ data) : Meets P data hash k (put P B k content) (fun _ t =>
      Safe P data hash t ∧ Idle k t ∧ k ∉ t.dirty) s := by
  refine meets_seq (meets_putBuffered hs hmem) fun _ t ⟨ht, hknown⟩ => ?_
  refine meets_wait ht.1 fun t' ht' => ?_
  have hlater := later_trans ht ht'
  replace hknown : P.sha256Hex content = hash → Known hash t' :=
    fun he => known_since ht'.2.1 (hknown he)
  refine meets_seq (meets_flushPack ht'.1 (idle_own hlater.2.2 hi)) fun _ u hu => ?_
  obtain ⟨hu, hdirty, hflushed⟩ := hu
  refine meets_wait hu.safe fun v hv => meets_write fun _ => ?_
  have hindex : P.sha256Hex content = hash → v.store.index.has hash = true := by
    intro he
    refine hv.2.1.indexed ?_
    exact (hknown he).elim (fun hw => (hflushed hw).1) hu.since.indexed
  have hsilent : Silent P data hash v ⟨v.store, v.flights, v.unflushed, v.dirty,
      v.acked ++ [content], .plain⟩ := silent_ack hv.1 hmem hindex
  have hend := after_later hu (later_trans hv (later_silent hsilent))
  refine ⟨makes_of_silent hsilent, hend.safe, hend.idle, ?_⟩
  rw [hv.2.2.dirty, hdirty, hlater.2.2.dirty]
  exact hd

end Write

section Packs

variable {p : Nat} {hashes : List String}

theorem shrunk_refl (s : ContentStore) : Shrunk hash s s :=
  ⟨fun _ _ h => h, rfl, fun _ _ h => h, rfl⟩

theorem shrunk_trans {a b c : ContentStore} (h : Shrunk hash a b) (h' : Shrunk hash b c) :
    Shrunk hash a c :=
  ⟨fun x loc hx => h.index x loc (h'.index x loc hx), h'.kept.trans h.kept,
    fun x y hx => h.cached x y (h'.cached x y hx), by rw [h'.rest, h.rest]⟩

theorem shrunk_drop (s : ContentStore) {h : String} (hne : h ≠ hash) :
    Shrunk hash s (ContentStore.drop s h) := by
  refine ⟨fun x loc hx => ?_, JsMap.get_delete_ne _ hne, fun x b hx => ?_, rfl⟩
  · rw [ContentStore.drop, JsMap.get_delete] at hx
    split at hx
    · cases hx
    · exact hx
  · rw [ContentStore.drop, MemCache.cacheDelete, JsMap.get_delete] at hx
    split at hx
    · cases hx
    · exact hx

theorem shrunk_drops (s : ContentStore) (hnot : hash ∉ hashes) :
    Shrunk hash s (hashes.foldl ContentStore.drop s) := by
  induction hashes generalizing s with
  | nil => exact shrunk_refl s
  | cons h hashes ih =>
      rw [List.mem_cons, not_or] at hnot
      obtain ⟨hne, hnot⟩ := hnot
      exact shrunk_trans (shrunk_drop s (Ne.symm hne)) (ih _ hnot)

theorem shrunk_dropFrom (s : ContentStore) (hat : ¬ At s p hash) (hashes : List String) :
    Shrunk hash s (ContentStore.dropFrom p s hashes) := by
  induction hashes generalizing s with
  | nil => exact shrunk_refl s
  | cons h hashes ih =>
      have hstep : Shrunk hash s (ContentStore.dropIfIn p s h) := by
        rw [ContentStore.dropIfIn]
        split
        · rename_i hh
          refine shrunk_drop s ?_
          rintro rfl
          exact hat hh
        · exact shrunk_refl s
      exact shrunk_trans hstep (ih _ fun hx => hat ((at_congr hstep.kept).1 hx))

theorem meets_shrunk (hs : Safe P data hash s) {f : ContentStore → ContentStore}
    (h : Shrunk hash s.store (f s.store)) :
    Meets P data hash k (onStore f) (fun _ t => Later P data hash k s t) s :=
  meets_silent fun _ => silent_shrunk hs h

theorem meets_rewriteIndex (hs : Safe P data hash s) (hi : Idle k s) :
    Meets P data hash k (rewriteIndex k) (fun _ t =>
      After P data hash k s t ∧ k ∉ t.dirty) s := by
  refine meets_read (meets_file hs fun u hu => meets_write fun hC => ?_)
  have hbody : ∀ h loc, (h, loc) ∈ s.store.index.entries → Good P data u h loc :=
    fun h loc hmem => good_since hu.2.1 (hs.named h loc ((JsMap.mem_entries_iff _).1 hmem))
  have hm := makes_rewrite hu.1 hbody hC
  refine ⟨hm, hm.safe, fun w hw => ⟨⟨hw.1, ?_, ?_⟩, ?_⟩⟩
  · exact since_trans hu.2.1 (since_trans hm.since hw.2.1)
  · have hi := idle_own hu.2.2 hi
    exact idle_own hw.2.2 hi
  · rw [hw.2.2.dirty]
    exact fun hmem => of_decide_eq_true (List.mem_filter.1 hmem).2 rfl

theorem meets_delete (hs : Safe P data hash s) (hi : Idle k s) (hd : k ∉ s.dirty) {h : String}
    (hne : h ≠ hash) :
    Meets P data hash k (delete k h) (fun _ t =>
      Safe P data hash t ∧ Idle k t ∧ k ∉ t.dirty) s := by
  refine meets_read (meets_seq (meets_shrunk hs (shrunk_drop s.store hne)) fun _ t ht => ?_)
  split
  · exact meets_weaken (meets_rewriteIndex ht.1 (idle_own ht.2.2 hi))
      fun _ u hu => ⟨hu.1.safe, hu.1.idle, hu.2⟩
  · exact ⟨ht.1, idle_own ht.2.2 hi, fun hx => hd (ht.2.2.dirty.1 hx)⟩

/-- A pack is removed in which the blob is not looked up. -/
theorem meets_remove (hs : Safe P data hash s) (hi : Idle k s) (hp : p < s.store.nextPackId) (hat : ¬ At s.store p hash) :
    Meets P data hash k (remove k p) (fun _ t => After P data hash k s t) s := by
  refine meets_file hs fun u hu => meets_write fun _ => ?_
  have hm : Makes P data hash k u ⟨ContentStore.remove u.store p, u.flights, u.unflushed,
      k :: u.dirty, u.acked, .plain⟩ :=
    makes_remove hu.1 fun hx => hat (hu.2.1.places p hash hp hx)
  have hi : Idle k u := idle_own hu.2.2 hi
  exact ⟨hm, hm.safe, fun w hw => ⟨hw.1, since_trans hu.2.1 (since_trans hm.since hw.2.1),
    idle_own hw.2.2 hi⟩⟩

theorem meets_retire (hs : Safe P data hash s) (hi : Idle k s) (hp : p < s.store.nextPackId)
    (hat : ¬ At s.store p hash) (hnot : hash ∉ hashes) :
    Meets P data hash k (retire k p hashes) (fun _ t => After P data hash k s t) s :=
  meets_seq (meets_remove hs hi hp hat) fun _ _ ht =>
    meets_weaken (meets_shrunk ht.safe (shrunk_drops _ hnot)) fun _ _ hu => after_later ht hu

/-- The same, with the blobs that are still looked up in the pack. -/
theorem meets_removeFrom (hs : Safe P data hash s) (hi : Idle k s) (hp : p < s.store.nextPackId)
    (hat : ¬ At s.store p hash) :
    Meets P data hash k (do
      remove k p
      onStore fun t => ContentStore.dropFrom p t hashes) (fun _ t => After P data hash k s t) s :=
  meets_seq (meets_remove hs hi hp hat) fun _ t ht =>
    have hat' : ¬ At t.store p hash := fun hx => hat (ht.since.places p hash hp hx)
    meets_weaken (meets_shrunk ht.safe (shrunk_dropFrom _ hat' hashes)) fun _ _ hu =>
      after_later ht hu

/-- A live blob that is read is put into the buffer; one that is not has moved. -/
theorem meets_rebuffer (hs : Safe P data hash s) (p : Nat) (h : String) :
    Meets P data hash k (rebuffer P B p h) (fun _ t =>
      Later P data hash k s t ∧ (h = hash → Moved hash p t)) s := by
  refine meets_seq (meets_get' hs h) fun found t ht => meets_wait ht.1.1 fun u hu => ?_
  obtain ⟨ht, hfound⟩ := ht
  have hlater := later_trans ht hu
  split
  · refine meets_write fun hC => ?_
    have hsilent : Silent P data hash u ⟨u.store, u.flights, u.unflushed, u.dirty, u.acked,
      .missed p h⟩ := silent_same hu.1
    exact ⟨makes_of_silent hsilent, later_trans hlater (later_silent hsilent),
      fun he => Or.inr (hC he)⟩
  · rename_i content
    obtain ⟨hmem, hhash⟩ := hfound content rfl
    refine meets_write fun _ => ?_
    have hsilent : Silent P data hash u ⟨{ u.store with
        pending := if h ∈ u.store.pending then u.store.pending else u.store.pending ++ [h]
        packBuffer := u.store.packBuffer ++ [(h, uint8ToBase64 content)] }, u.flights,
        u.unflushed ++ [h], u.dirty, u.acked, .plain⟩ := by
      refine silent_push hu.1 hmem (Base64.atob_btoa content) hhash (fun _ _ => Or.inr) ?_
      intro x hx
      split at hx
      · exact Or.inl hx
      · exact (List.mem_append.1 hx).imp_right List.mem_singleton.1
    refine ⟨makes_of_silent hsilent, later_trans hlater (later_silent hsilent), ?_⟩
    rintro rfl
    exact Or.inl (List.mem_append_right _ (List.mem_singleton_self _))

theorem not_at_flushed (hp : p < s.store.nextPackId) (hm : Moved hash p s)
    (hsince : Since hash s t) (hflushed : hash ∈ s.unflushed → t.store.index.has hash = true ∧
      ∀ p, p < s.store.nextPackId → ¬ At t.store p hash) : ¬ At t.store p hash := by
  rcases hm with hm | hm
  · exact (hflushed hm).2 p hp
  · exact fun hat => hm (hsince.places p hash hp hat)

variable {keepHashes : List String}

theorem meets_compactPack (hs : Safe P data hash s) (hi : Idle k s)
    (hp : p < s.store.nextPackId) (hkeep : hash ∈ keepHashes) :
    Meets P data hash k (compactPack P B k keepHashes p)
      (fun _ t => After P data hash k s t) s := by
  refine meets_read ?_
  have hstart : Moved hash p s ∨
      hash ∈ (ContentStore.members s.store p).filter (· ∈ keepHashes) := by
    by_cases hat : At s.store p hash
    · exact Or.inr (List.mem_filter.2 ⟨mem_members_iff.2 hat, decide_eq_true hkeep⟩)
    · exact Or.inl (Or.inr hat)
  refine meets_seq (meets_each (I := fun rest t => Later P data hash k s t ∧
    (Moved hash p t ∨ hash ∈ rest)) ⟨later_refl hs, hstart⟩ ?_) fun _ t ht => ?_
  · rintro h rest t - ⟨ht, hm⟩
    refine meets_weaken (meets_rebuffer ht.1 p h) fun _ u hu => ?_
    refine ⟨later_trans ht hu.1, ?_⟩
    rcases hm with hm | hm
    · exact Or.inl (moved_since hu.1.2.1 (hp.trans_le ht.2.1.next) hm)
    · rcases List.mem_cons.1 hm with rfl | hm
      · exact Or.inl (hu.2 rfl)
      · exact Or.inr hm
  · obtain ⟨ht, hm⟩ := ht
    have hm : Moved hash p t := hm.resolve_right nofun
    have hpt : p < t.store.nextPackId := hp.trans_le ht.2.1.next
    refine meets_seq (meets_flushPack ht.1 (idle_own ht.2.2 hi)) fun _ u hu => ?_
    obtain ⟨hu, -, hflushed⟩ := hu
    have hat := not_at_flushed hpt hm hu.since hflushed
    refine meets_wait hu.safe fun v hv => ?_
    have huv := after_later hu hv
    refine meets_weaken (meets_removeFrom huv.safe huv.idle (hpt.trans_le huv.since.next)
      fun hx => hat (hv.2.1.places p hash (hpt.trans_le hu.since.next) hx)) fun _ w hw => ?_
    exact after_trans ⟨hv.1, since_trans ht.2.1 huv.since, huv.idle⟩ hw

end Packs

end OpsBlobs.PackTaskSpecs
