import OpsBlobs.EventRun
import OpsBlobs.PackSound

namespace OpsBlobs.PackCrash

open Types LineJournal EventRun PackedContent ContentIntegrity PackRefinement PackIndexFile
  PackFiles PackScript PackLinked PackSound

/-- The call in progress has its writes before it; `store` is the memory once they are done.
`waiting` are the contents since the last flush that resolved, `acked` those that a call which
resolved has written; both lose what a later call need not spare. -/
structure State where
  store : ContentStore
  disk : Disk
  script : List Write
  running : Option Call
  waiting : List Bytes
  acked : List Bytes

/-- A crash lands nothing of the write in flight, or some characters of an append and the whole
of another write. -/
inductive Event
  | call (c : Call)
  | written
  | crash (landed : Option Nat)

section Machine

variable (P : Platform) (B : Nat)

/-- What a call must not take away. -/
def spares : Call → String → Bool
  | .gc keepHashes _, hash | .consolidatePacks keepHashes _ _, hash => hash ∈ keepHashes
  | .delete dropped, hash => hash ≠ dropped
  | _, _ => true

/-- Once these have resolved, nothing waits for a flush. -/
def flushes : Call → Bool
  | .put _ | .flushPack => true
  | _ => false

/-- A call whose writes are all done resolves. -/
def settle (s : State) : State :=
  match s.script, s.running with
  | [], some c =>
      if flushes c then { s with running := none, waiting := [], acked := s.acked ++ s.waiting }
      else { s with running := none }
  | _, _ => s

def restart (d : Disk) (acked : List Bytes) : State := ⟨d.load, d, [], none, [], acked⟩

def start (s : State) (c : Call) : Option State :=
  (call P B s.store c).map fun store' => settle
    { s with
      store := store'
      script := callWrites P B s.store c
      running := some c
      waiting := (s.waiting ++ contentOf c).filter (fun content => spares c (P.sha256Hex content))
      acked := s.acked.filter (fun content => spares c (P.sha256Hex content)) }

/-- The files that a crash leaves. -/
def crashed (s : State) (landed : Option Nat) : Disk :=
  match s.script, landed with
  | w :: _, some torn => s.disk.cut torn w
  | _, _ => s.disk

/-- The calls run one after the other, and each of its writes is done before the next. A start
of the plugin reads the files. -/
def step (s : State) : Event → Option State
  | .call .init => if s.script = [] then some (restart s.disk s.acked) else none
  | .call c => if s.script = [] then start P B s c else none
  | .written =>
      match s.script with
      | [] => none
      | w :: rest => some (settle { s with disk := s.disk.write w, script := rest })
  | .crash landed => some (restart (crashed s landed) s.acked)

def fresh : State := restart ⟨.empty, []⟩ []

/-- No pack that the index names comes after all the packs there are, whose numbers a start goes
on from. -/
def Ahead (d : Disk) : Prop :=
  ∀ e ∈ parseIndex d.indexText, ∃ packId ∈ d.packs.keys, e.2.packId ≤ packId

instance (d : Disk) : Decidable (Ahead d) := inferInstanceAs (Decidable (∀ _ ∈ _, ∃ _ ∈ _, _))

/-- The entries whose append to the index comes next. -/
def appending : List Write → Option (List (String × PackLoc))
  | .appendIndex delta :: _ => some delta
  | _ => none

/-- An append to the index starts on a line of its own. -/
def LineEnded (s : State) : Prop := (appending s.script).isSome → Ended s.disk.indexText

/-- What is torn off an append to the index reads as the first of its entries. -/
def TornApart (s : State) (torn : Nat) : Prop :=
  ∀ delta ∈ appending s.script, parseIndex ((indexLines delta).take torn) <+: delta

/-- What the files rely on. -/
def Careful (s : State) : Event → Prop
  | .call .init => Ahead s.disk
  | .call _ => True
  | .written => LineEnded s
  | .crash none => Ahead (crashed s none)
  | .crash (some torn) => Ahead (crashed s (some torn)) ∧ LineEnded s ∧ TornApart s torn

instance (s : State) : Decidable (LineEnded s) := inferInstanceAs (Decidable (_ → _))

instance (s : State) (torn : Nat) : Decidable (TornApart s torn) :=
  inferInstanceAs (Decidable (∀ _ ∈ _, _))

instance (s : State) : ∀ e, Decidable (Careful s e)
  | .call .init => inferInstanceAs (Decidable (Ahead s.disk))
  | .call (.put _) | .call (.putBuffered _) | .call .flushPack | .call (.get _) | .call (.delete _)
  | .call .clearMemCache | .call (.gc _ _) | .call (.consolidatePacks _ _ _) => isTrue trivial
  | .written => inferInstanceAs (Decidable (LineEnded s))
  | .crash none => inferInstanceAs (Decidable (Ahead _))
  | .crash (some _) => inferInstanceAs (Decidable (_ ∧ _ ∧ _))

/-- After a start from these files the blob is read back. -/
def Answers (d : Disk) (hash : String) (bytes : Bytes) : Prop :=
  ∃ cache, ContentStore.get P B d.load hash = some (some bytes, cache)

end Machine

variable {P : Platform} {B : Nat} {data : List Bytes} {s t : State} {e : Event} {c : Call}
  {hash : String} {bytes : Bytes}

instance (d : Disk) : Decidable (Answers P B d hash bytes) :=
  decidable_of_iff ((ContentStore.get P B d.load hash).map Prod.fst = some (some bytes)) (by
    rw [Option.map_eq_some_iff, Answers]
    exact ⟨fun ⟨⟨_, cache⟩, h, he⟩ => ⟨cache, he ▸ h⟩, fun ⟨cache, h⟩ => ⟨_, h, rfl⟩⟩)

section Load

theorem answers_iff {d : Disk} (hf : Readable P data d.files) :
    Answers P B d hash bytes ↔ Reads P d.files hash bytes := by
  obtain ⟨found, cache, hget, hfound, -⟩ := get_cases (B := B) (C := Stores P d.load)
    hf.decodes (fun _ _ hs => hs) nofun hash
  rw [Answers, Disk.load, hget]
  constructor
  · rintro ⟨cache', hc⟩
    obtain ⟨rfl, -⟩ := Prod.mk.inj (Option.some.inj hc)
    exact ((hfound bytes).1 rfl).elim (fun h => by cases h) And.right
  · intro hs
    obtain rfl := (hfound bytes).2 (Or.inr ⟨rfl, hs⟩)
    exact ⟨cache, rfl⟩

theorem linked_load {d : Disk} {K : String → Prop} (hf : Readable P data d.files)
    (ha : Ahead d) : Linked P data K d.load := by
  refine ⟨hf, ?_, ?_, fun _ _ h => h, fun _ _ _ _ => rfl, nofun, nofun⟩
  · intro hash loc hloc
    obtain ⟨packId, hmem, hle⟩ := ha _ (mem_entries_of_get hloc)
    exact hle.trans_lt ((lt_numbering _ 0).2 packId hmem)
  · intro packId hp
    exact (lt_numbering _ 0).2 packId ((JsMap.mem_keys_iff _).2 ((JsMap.has_iff _ _).1 hp))

end Load

section Call

variable {K K' : String → Prop} {m m' : ContentStore} {ws : List Write} {content : Bytes}

theorem linked_mono (hK : ∀ hash, K' hash → K hash) (h : Linked P data K m) :
    Linked P data K' m :=
  ⟨h.readable, h.named, h.numbered, h.within, fun hash bytes hk => h.kept hash bytes (hK hash hk),
    h.buffered, h.cached⟩

theorem fine_mono (hK : ∀ hash, K' hash → K hash) {f : Files} {w : Write}
    (h : Fine P data K f w) : Fine P data K' f w := by
  cases w with
  | appendPack packId body => exact h
  | appendIndex delta => exact h
  | removePack packId => exact fun hash bytes loc hk => h hash bytes loc (hK hash hk)
  | writeIndex entries => exact ⟨h.1, fun hash bytes hk => h.2 hash bytes (hK hash hk)⟩

theorem legit_mono (hK : ∀ hash, K' hash → K hash) {f : Files} (h : Legit P data K f ws) :
    Legit P data K' f ws := by
  induction ws generalizing f with
  | nil => trivial
  | cons w ws ih => exact ⟨fine_mono hK h.1, ih h.2⟩

theorem moves_mono (hK : ∀ hash, K' hash → K hash) (h : Moves P data K m ws m') :
    Moves P data K' m ws m' :=
  ⟨linked_mono hK h.linked, legit_mono hK h.legit, h.files,
    fun hash bytes hk => h.settled hash bytes (hK hash hk), h.located, h.next⟩

theorem mirrored_delete (h : Mirrored m) : Mirrored (ContentStore.delete m hash) := by
  rw [ContentStore.delete]
  split
  · exact mirrored_rewriteIndex
  · exact h

theorem pended_delete (h : Pended m) : Pended (ContentStore.delete m hash) := by
  obtain ⟨-, -, hbuffer, hpending, -⟩ := rest_delete m hash
  intro k hk
  rw [hbuffer]
  exact h k (hpending ▸ hk)

/-- What a call comes to when it resolves. -/
structure Resolves (P : Platform) (data : List Bytes) (c : Call) (m : ContentStore)
    (ws : List Write) (m' : ContentStore) : Prop where
  moves : Moves P data (fun hash => spares c hash = true) m ws m'
  mirrored : Mirrored m'
  pended : Pended m'
  contents : ∀ content ∈ contentOf c, Settled P m' (P.sha256Hex content) content
  flushed : flushes c = true → m'.packBuffer = []

/-- Every call of a store at rest goes through. -/
theorem resolves_call (hd : Distinct P data)
    (hplain : ∀ content ∈ data, Plain (P.sha256Hex content))
    (h : Linked P data (fun _ => True) m) (hm : Mirrored m) (hp : Pended m)
    (hc : contentOf c ⊆ data) (hinit : c ≠ .init) :
    ∃ m', call P B m c = some m' ∧ Resolves P data c m (callWrites P B m c) m' := by
  have hnone : ∀ {P : Bytes → Prop}, ∀ content ∈ ([] : List Bytes), P content :=
    List.forall_mem_nil _
  cases c with
  | put content =>
      obtain ⟨hfilled, hs⟩ := filled_putBuffered (B := B) hd h hp (hc List.mem_cons_self)
      have hflush := moves_flush (B := B) hd hplain hfilled.moves.linked
      have hmoves := moves_trans hfilled.moves hflush
      refine ⟨_, rfl, moves_mono (fun _ _ => trivial) hmoves, ?_, ?_, ?_, fun _ => ?_⟩
      · exact mirrored_flushPack (mirrored_putBuffered hm content)
      · exact pended_flushPack (pended_putBuffered hp)
      · intro k hk
        obtain rfl := List.mem_singleton.1 hk
        exact hflush.settled _ _ trivial hs
      · exact (relocated_flushPack (flushable_of_linked hfilled.moves.linked)).empty
  | putBuffered content =>
      obtain ⟨hfilled, hs⟩ := filled_putBuffered (B := B) hd h hp (hc List.mem_cons_self)
      refine ⟨_, rfl, moves_mono (fun _ _ => trivial) hfilled.moves,
        mirrored_putBuffered hm content, pended_putBuffered hp, fun k hk => ?_, by rintro ⟨⟩⟩
      obtain rfl := List.mem_singleton.1 hk
      exact hs
  | flushPack =>
      refine ⟨_, rfl, moves_mono (fun _ _ => trivial) (moves_flush hd hplain h),
        mirrored_flushPack hm, pended_flushPack hp, hnone, fun _ => ?_⟩
      exact (relocated_flushPack (flushable_of_linked h)).empty
  | get hash =>
      obtain ⟨found, cache, hget, -, -, hcache⟩ := get_linked (B := B) hd h hash
      refine ⟨{ m with memCache := cache }, ?_, moves_mono (fun _ _ => trivial)
        (filled_cache h hcache).moves, hm, hp, hnone, by rintro ⟨⟩⟩
      rw [call, hget]
      rfl
  | delete hash =>
      have hmoves := moves_delete (linked_mirrored h hm : Linked P data (· ≠ hash) m)
      refine ⟨_, rfl, moves_mono (fun k hk => of_decide_eq_true hk) hmoves, mirrored_delete hm,
        pended_delete hp, hnone, by rintro ⟨⟩⟩
  | clearMemCache =>
      have hfilled : Filled P data (fun _ => True) m (ContentStore.clearMemCache m) :=
        filled_cache h fun _ _ hk => by cases hk
      exact ⟨_, rfl, moves_mono (fun _ _ => trivial) hfilled.moves, hm, hp, hnone, by rintro ⟨⟩⟩
  | gc keepHashes aged =>
      obtain ⟨m', hrun, hmoves, hm'⟩ := moves_gc (B := B) hd hplain
        (linked_mirrored h hm : Linked P data (· ∈ keepHashes) m) hm aged
      exact ⟨m', hrun, moves_mono (fun k hk => of_decide_eq_true hk) hmoves, hm',
        pended_gc hrun hp, hnone, by rintro ⟨⟩⟩
  | consolidatePacks keepHashes smallPackThreshold flushEvery =>
      obtain ⟨result, m', hrun, hmoves, hm'⟩ := moves_consolidatePacks (B := B) hd hplain
        (linked_mirrored h hm : Linked P data (· ∈ keepHashes) m) hm smallPackThreshold flushEvery
      refine ⟨m', ?_, moves_mono (fun k hk => of_decide_eq_true hk) hmoves, hm',
        pended_consolidatePacks hrun hp, hnone, by rintro ⟨⟩⟩
      rw [call, hrun]
      rfl
  | init => exact absurd rfl hinit

end Call

section Run

/-- The call in progress must not take the blob away. -/
def Spared (s : State) (hash : String) : Prop := ∀ c, s.running = some c → spares c hash = true

/-- The files answer for what was acknowledged, and the writes ahead cost nothing of it. -/
structure Safe (P : Platform) (data : List Bytes) (s : State) : Prop where
  readable : Readable P data s.disk.files
  linked : Linked P data (fun _ => True) s.store
  mirrored : Mirrored s.store
  pended : Pended s.store
  legit : Legit P data (Spared s) s.disk.files s.script
  ends : writes s.disk.files s.script = files s.store
  acked : ∀ content ∈ s.acked,
    Spared s (P.sha256Hex content) ∧ Reads P s.disk.files (P.sha256Hex content) content
  waiting : ∀ content ∈ s.waiting, Settled P s.store (P.sha256Hex content) content
  flushed : ∀ c, s.running = some c → flushes c = true → s.store.packBuffer = []

/-- Between two calls none is in progress. -/
def Resting (s : State) : Prop := s.script = [] → s.running = none

theorem resting_settle (s : State) : Resting (settle s) := by
  rw [settle]
  split
  · split
    · exact fun _ => rfl
    · exact fun _ => rfl
  · rename_i hbusy
    intro hscript
    cases hrun : s.running with
    | none => rfl
    | some c => exact absurd hrun (hbusy c hscript)

theorem disk_settle (s : State) : (settle s).disk = s.disk := by
  rw [settle]
  split
  · split
    · rfl
    · rfl
  · rfl

theorem safe_settle (h : Safe P data s) : Safe P data (settle s) := by
  rw [settle]
  split
  · rename_i c hscript hrun
    have hfiles : s.disk.files = files s.store := by
      rw [← h.ends, hscript]
      rfl
    have hacked : ∀ content ∈ s.acked, Reads P s.disk.files (P.sha256Hex content) content :=
      fun content hmem => (h.acked content hmem).2
    split
    · rename_i hflush
      refine ⟨h.readable, h.linked, h.mirrored, h.pended, hscript ▸ trivial, h.ends, ?_,
        nofun, nofun⟩
      intro content hmem
      refine ⟨nofun, ?_⟩
      rcases List.mem_append.1 hmem with hmem | hmem
      · exact hacked content hmem
      · have hs := (settled_nil (h.flushed c hrun hflush)).1 (h.waiting content hmem)
        exact hfiles ▸ reads_of_stores h.linked hs
    · refine ⟨h.readable, h.linked, h.mirrored, h.pended, hscript ▸ trivial, h.ends, ?_,
        h.waiting, nofun⟩
      exact fun content hmem => ⟨nofun, hacked content hmem⟩
  · exact h

theorem safe_restart {d : Disk} (hf : Readable P data d.files) (ha : Ahead d)
    {acked : List Bytes}
    (hacked : ∀ content ∈ acked, Reads P d.files (P.sha256Hex content) content) :
    Safe P data (restart d acked) :=
  ⟨hf, linked_load hf ha, fun _ => rfl, nofun, trivial, rfl,
    fun content hmem => ⟨nofun, hacked content hmem⟩, nofun, nofun⟩

theorem safe_start (hd : Distinct P data)
    (hplain : ∀ content ∈ data, Plain (P.sha256Hex content)) (h : Safe P data s)
    (hscript : s.script = []) (hc : contentOf c ⊆ data) (hinit : c ≠ .init)
    (hstart : start P B s c = some t) : Safe P data t ∧ Resting t ∧ t.disk = s.disk := by
  obtain ⟨store', hcall, rfl⟩ := Option.map_eq_some_iff.1 hstart
  obtain ⟨m', hrun, hr⟩ := resolves_call (B := B) hd hplain h.linked h.mirrored h.pended hc hinit
  obtain rfl := Option.some.inj (hrun.symm.trans hcall)
  have hfiles : s.disk.files = files s.store := by
    rw [← h.ends, hscript]
    rfl
  refine ⟨safe_settle ?_, resting_settle _, disk_settle _⟩
  refine ⟨h.readable, linked_mirrored hr.moves.linked hr.mirrored, hr.mirrored, hr.pended, ?_, ?_,
    ?_, ?_, ?_⟩
  · refine legit_mono (fun k hk => hk c rfl) ?_
    exact hfiles ▸ hr.moves.legit
  · exact hfiles ▸ hr.moves.files
  · intro content hmem
    obtain ⟨hmem, hspared⟩ := List.mem_filter.1 hmem
    refine ⟨?_, (h.acked content hmem).2⟩
    rintro _ ⟨⟩
    exact hspared
  · intro content hmem
    obtain ⟨hmem, hspared⟩ := List.mem_filter.1 hmem
    rcases List.mem_append.1 hmem with hmem | hmem
    · exact hr.moves.settled _ _ hspared (h.waiting content hmem)
    · exact hr.contents content hmem
  · rintro _ ⟨⟩ hflush
    exact hr.flushed hflush

theorem step_call (hinit : c ≠ .init) :
    step P B s (.call c) = if s.script = [] then start P B s c else none := by
  cases c with
  | init => exact absurd rfl hinit
  | _ => rfl

theorem safe_written (hd : Distinct P data)
    (hplain : ∀ content ∈ data, Plain (P.sha256Hex content)) (h : Safe P data s) {w : Write}
    {rest : List Write} (hscript : s.script = w :: rest)
    (hended : ∀ delta, w = .appendIndex delta → Ended s.disk.indexText) :
    Safe P data (settle { s with disk := s.disk.write w, script := rest }) ∧
      ∀ hash bytes, Spared s hash → Reads P s.disk.files hash bytes →
        Reads P (s.disk.write w).files hash bytes := by
  have hlegit := h.legit
  have hends := h.ends
  rw [hscript] at hlegit hends
  have hfiles := files_write hplain h.readable hlegit.1 hended
  obtain ⟨hread, hkeeps⟩ := readable_write hd hplain h.readable hlegit.1
  rw [← hfiles] at hread hkeeps
  refine ⟨safe_settle ⟨hread, h.linked, h.mirrored, h.pended, ?_, ?_, ?_, h.waiting, h.flushed⟩,
    hkeeps⟩
  · dsimp only
    rw [hfiles]
    exact hlegit.2
  · dsimp only
    rw [hfiles]
    exact hends
  · intro content hmem
    obtain ⟨hspared, hreads⟩ := h.acked content hmem
    exact ⟨hspared, hkeeps _ _ hspared hreads⟩

theorem crashed_none (s : State) : crashed s none = s.disk := by
  simp only [crashed]
  split
  · rename_i heq
    cases heq
  · rfl

theorem appending_eq {delta : List (String × PackLoc)} {rest : List Write}
    (h : s.script = .appendIndex delta :: rest) : appending s.script = some delta := by
  rw [h]
  rfl

theorem readable_crashed (hd : Distinct P data)
    (hplain : ∀ content ∈ data, Plain (P.sha256Hex content)) (h : Safe P data s) (torn : Nat)
    (hended : LineEnded s) (hapart : TornApart s torn) :
    Readable P data (crashed s (some torn)).files ∧ ∀ hash bytes, Spared s hash →
      Reads P s.disk.files hash bytes → Reads P (crashed s (some torn)).files hash bytes := by
  have hlegit := h.legit
  simp only [crashed]
  split
  · rename_i w rest torn' hscript heq
    obtain rfl := Option.some.inj heq
    rw [hscript] at hlegit
    obtain ⟨w', hfine, hcut⟩ := files_cut hplain h.readable hlegit.1 torn fun delta hw => by
      have happend := appending_eq (hscript.trans (congrArg (· :: rest) hw))
      exact ⟨hended (Option.isSome_iff_exists.2 ⟨delta, happend⟩), hapart delta happend⟩
    rw [hcut]
    exact readable_write hd hplain h.readable hfine
  · exact ⟨h.readable, fun _ _ _ hr => hr⟩

/-- What a careful step keeps, of the state and of what the files answer. -/
theorem safe_step (hd : Distinct P data)
    (hplain : ∀ content ∈ data, Plain (P.sha256Hex content)) (h : Safe P data s)
    (hdata : ∀ c, e = .call c → contentOf c ⊆ data) (hcareful : Careful s e)
    (hs : step P B s e = some t) :
    Safe P data t ∧ Resting t ∧ ∀ hash bytes, Spared s hash →
      Reads P s.disk.files hash bytes → Reads P t.disk.files hash bytes := by
  have hacked : ∀ content ∈ s.acked, Reads P s.disk.files (P.sha256Hex content) content :=
    fun content hmem => (h.acked content hmem).2
  cases e with
  | call c =>
      by_cases hinit : c = .init
      · subst hinit
        simp only [step] at hs
        split at hs
        · obtain rfl := Option.some.inj hs
          exact ⟨safe_restart h.readable hcareful hacked, fun _ => rfl, fun _ _ _ hr => hr⟩
        · cases hs
      · rw [step_call hinit] at hs
        split at hs
        · rename_i hscript
          obtain ⟨ht, hrest, hdisk⟩ := safe_start hd hplain h hscript (hdata c rfl) hinit hs
          exact ⟨ht, hrest, fun _ _ _ hr => hdisk ▸ hr⟩
        · cases hs
  | written =>
      simp only [step] at hs
      split at hs
      · cases hs
      · rename_i w rest hscript
        obtain rfl := Option.some.inj hs
        obtain ⟨ht, hkeeps⟩ := safe_written hd hplain h hscript fun delta hw =>
          hcareful (Option.isSome_iff_exists.2
            ⟨delta, appending_eq (hscript.trans (congrArg (· :: rest) hw))⟩)
        refine ⟨ht, resting_settle _, fun hash bytes hk hr => ?_⟩
        rw [disk_settle]
        exact hkeeps hash bytes hk hr
  | crash landed =>
      obtain rfl := Option.some.inj hs
      cases landed with
      | none =>
          have hdisk := crashed_none s
          rw [hdisk]
          exact ⟨safe_restart h.readable (hdisk ▸ hcareful) hacked, fun _ => rfl,
            fun _ _ _ hr => hr⟩
      | some torn =>
          obtain ⟨hahead, hended, hapart⟩ := hcareful
          obtain ⟨hread, hkeeps⟩ := readable_crashed hd hplain h torn hended hapart
          refine ⟨safe_restart hread hahead fun content hmem => ?_, fun _ => rfl, hkeeps⟩
          exact hkeeps _ _ (h.acked content hmem).1 (hacked content hmem)

theorem entries_fresh (e : String × PackLoc) : e ∉ fresh.disk.files.entries := fun he => by cases he

theorem safe_fresh : Safe P data fresh := by
  refine safe_restart ⟨?_, ?_, fun e he => absurd he (entries_fresh e)⟩
    (fun e he => absurd he (entries_fresh e)) nofun
  · exact fun _ _ _ hloc => absurd (mem_entries_of_get hloc) (entries_fresh _)
  · rintro hash bytes ⟨loc, pack, hloc, -⟩
    exact absurd (mem_entries_of_get hloc) (entries_fresh _)

theorem spared_settle (h : Spared s hash) : Spared (settle s) hash := by
  rw [settle]
  split
  · split
    · exact nofun
    · exact nofun
  · exact h

theorem spared_step (h : Spared s hash) (hc : ∀ c, e = .call c → spares c hash = true)
    (hs : step P B s e = some t) : Spared t hash := by
  cases e with
  | call c =>
      by_cases hinit : c = .init
      · subst hinit
        simp only [step] at hs
        split at hs
        · obtain rfl := Option.some.inj hs
          exact nofun
        · cases hs
      · rw [step_call hinit] at hs
        split at hs
        · obtain ⟨store', -, rfl⟩ := Option.map_eq_some_iff.1 hs
          apply spared_settle
          rintro _ ⟨⟩
          exact hc c rfl
        · cases hs
  | written =>
      simp only [step] at hs
      split at hs
      · cases hs
      · obtain rfl := Option.some.inj hs
        exact spared_settle h
  | crash landed =>
      obtain rfl := Option.some.inj hs
      exact nofun

/-- A run keeps what its calls need not take away, from wherever it starts. -/
theorem safe_run (hd : Distinct P data)
    (hplain : ∀ content ∈ data, Plain (P.sha256Hex content)) (h : Safe P data s)
    {events : List Event} (hdata : ∀ c, .call c ∈ events → contentOf c ⊆ data)
    (hcareful : Along (step P B) Careful s events) (hrun : run (step P B) s events = some t) :
    Safe P data t ∧ (Resting s → Resting t) ∧ ∀ hash bytes, Spared s hash →
      (∀ c, .call c ∈ events → spares c hash = true) →
        Reads P s.disk.files hash bytes → Reads P t.disk.files hash bytes := by
  induction events generalizing s with
  | nil =>
      obtain rfl := Option.some.inj hrun
      exact ⟨h, id, fun _ _ _ _ hr => hr⟩
  | cons e events ih =>
      obtain ⟨u, hs, hrun⟩ := run_cons.1 hrun
      obtain ⟨hu, hrest, hkeeps⟩ := safe_step hd hplain h
        (fun c hc => hdata c (hc ▸ List.mem_cons_self)) hcareful.1 hs
      obtain ⟨ht, hrest', hkeeps'⟩ := ih hu (fun c hc => hdata c (List.mem_cons_of_mem _ hc))
        (hcareful.2 u hs) hrun
      refine ⟨ht, fun _ => hrest' hrest, fun hash bytes hk hc hr => ?_⟩
      refine hkeeps' hash bytes ?_ (fun c hc' => hc c (List.mem_cons_of_mem _ hc'))
        (hkeeps hash bytes hk hr)
      exact spared_step hk (fun c hc' => hc c (hc' ▸ List.mem_cons_self)) hs

/-- In a careful run, what a call that resolved has put, and what was read back before, is read
back by every later start, as long as no call need not spare it. -/
theorem answers_later (hd : Distinct P data)
    (hplain : ∀ content ∈ data, Plain (P.sha256Hex content)) {before after : List Event}
    (hdata : ∀ c, .call c ∈ before ++ after → contentOf c ⊆ data)
    (hcareful : Along (step P B) Careful fresh (before ++ after))
    (hbefore : run (step P B) fresh before = some s) (hafter : run (step P B) s after = some t) :
    (∀ content ∈ t.acked, Answers P B t.disk (P.sha256Hex content) content) ∧
      (s.script = [] → ∀ hash bytes, Answers P B s.disk hash bytes →
        (∀ c, .call c ∈ after → spares c hash = true) → Answers P B t.disk hash bytes) := by
  have hcareful' := along_append.1 hcareful
  obtain ⟨hsafe, hresting, -⟩ := safe_run hd hplain safe_fresh
    (fun c hc => hdata c (List.mem_append_left _ hc)) hcareful'.1 hbefore
  obtain ⟨hsafe', -, hkeeps⟩ := safe_run hd hplain hsafe
    (fun c hc => hdata c (List.mem_append_right _ hc)) (hcareful'.2 s hbefore) hafter
  constructor
  · exact fun content hmem => (answers_iff hsafe'.readable).2 (hsafe'.acked content hmem).2
  · intro hscript hash bytes hanswers hspares
    have hidle : s.running = none := hresting (fun _ => rfl) hscript
    refine (answers_iff hsafe'.readable).2 (hkeeps hash bytes ?_ hspares
      ((answers_iff hsafe.readable).1 hanswers))
    intro c hc
    cases hidle.symm.trans hc

/-- The store as it is meant to be: the same of every run. -/
def CrashSafe (P : Platform) (B : Nat) : Prop :=
  ∀ before after s t, run (step P B) fresh before = some s → run (step P B) s after = some t →
    (∀ content ∈ t.acked, Answers P B t.disk (P.sha256Hex content) content) ∧
      (s.script = [] → ∀ hash bytes, Answers P B s.disk hash bytes →
        (∀ c, .call c ∈ after → spares c hash = true) → Answers P B t.disk hash bytes)

end Run

section Sample

def twoPuts : List Event :=
  [.call (.put [104]), .written, .written, .call (.put [105]), .written, .written]

/-- A consolidation of two packs that crashes in its append to the index, after some characters
of the first of its two lines. -/
def tornMove (torn : Nat) : List Event :=
  [.call (.consolidatePacks ["h", "i"] 64 64), .written, .crash (some torn)]

theorem answers_twoPuts : ∀ s ∈ run (step asciiPlatform 64) fresh twoPuts,
    s.script = [] ∧ Answers asciiPlatform 64 s.disk "h" [104] := by
  decide +kernel

theorem spares_tornMove (torn : Nat) :
    ∀ c, .call c ∈ tornMove torn → contentOf c = [] ∧ spares c "h" = true := by
  intro c hc
  simp only [tornMove, List.mem_cons, Event.call.injEq, reduceCtorEq, List.not_mem_nil,
    or_false] at hc
  obtain rfl := hc
  decide

theorem answers_later_example :
    ∃ s t, run (step asciiPlatform 64) fresh twoPuts = some s ∧
      run (step asciiPlatform 64) s (tornMove 4) = some t ∧
      Answers asciiPlatform 64 t.disk "h" [104] := by
  have hd : Distinct asciiPlatform [[104], [105]] := by
    unfold Distinct
    decide
  have hdata : ∀ c, .call c ∈ twoPuts ++ tornMove 4 → contentOf c ⊆ [[104], [105]] := by
    intro c hc
    rcases List.mem_append.1 hc with hc | hc
    · simp only [twoPuts, List.mem_cons, Event.call.injEq, reduceCtorEq, List.not_mem_nil,
        or_false, false_or] at hc
      rcases hc with rfl | rfl
      · decide
      · decide
    · rw [(spares_tornMove 4 c hc).1]
      exact List.nil_subset _
  obtain ⟨t, hrun⟩ : ∃ t, run (step asciiPlatform 64) fresh (twoPuts ++ tornMove 4) = some t :=
    Option.isSome_iff_exists.1 (by decide +kernel)
  obtain ⟨s, hbefore, hafter⟩ := run_append.1 hrun
  obtain ⟨hscript, hanswers⟩ := answers_twoPuts s hbefore
  obtain ⟨-, hlater⟩ := answers_later hd (by decide) hdata (by decide +kernel) hbefore hafter
  exact ⟨s, t, hbefore, hafter, hlater hscript "h" [104] hanswers
    fun c hc => (spares_tornMove 4 c hc).2⟩

/-- Two characters more, and the line names the new pack with a length that is torn to nothing:
the start takes it for the place of the blob, whose old pack is still there. -/
theorem not_crashSafe : ¬ CrashSafe asciiPlatform 64 := by
  intro h
  obtain ⟨t, hrun⟩ : ∃ t, run (step asciiPlatform 64) fresh (twoPuts ++ tornMove 6) = some t :=
    Option.isSome_iff_exists.1 (by decide +kernel)
  have hlost : ∀ t ∈ run (step asciiPlatform 64) fresh (twoPuts ++ tornMove 6),
      ¬ Answers asciiPlatform 64 t.disk "h" [104] := by decide +kernel
  obtain ⟨s, hbefore, hafter⟩ := run_append.1 hrun
  obtain ⟨hscript, hanswers⟩ := answers_twoPuts s hbefore
  exact hlost t hrun ((h twoPuts (tornMove 6) s t hbefore hafter).2 hscript "h" [104] hanswers
    fun c hc => (spares_tornMove 6 c hc).2)

/-- The next append is glued onto a line that was cut, and its own first line is lost. -/
example : ∃ t ∈ run (step asciiPlatform 64) fresh [.call (.put [104]), .written, .crash (some 3),
    .call (.put [105]), .written, .written],
    t.acked = [[105]] ∧ ¬ Answers asciiPlatform 64 t.disk "i" [105] := by decide +kernel

/-- The number of a removed pack that the index still names is used again, and a read of the new
pack throws at the old place. -/
example : ∃ t ∈ run (step asciiPlatform 64) fresh [.call (.put [104, 104]), .written, .written,
    .call (.consolidatePacks [] 64 64), .written, .crash none, .call (.put [105]), .written,
    .written],
    t.acked = [[105]] ∧ ¬ Answers asciiPlatform 64 t.disk "i" [105] := by decide +kernel

end Sample

end OpsBlobs.PackCrash
