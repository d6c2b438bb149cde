import OpsBlobs.RegistryJournal

namespace OpsBlobs.RegistryCrash

open LineJournal EventRun RegistryJournal

variable {Id Entry : Type} [DecidableEq Id]

/-- A flush that finds a torn last line goes on to compact. -/
def FlushSafe (F : EntryFormat Id Entry) (s : State Id Entry) : Event Id Entry → Prop
  | .flush => ∀ m, s.memory = some m → m.writing = .nothing → m.dirtyIds ≠ [] →
      Ended s.journal ∨
        (m.deferSave = false ∧ (m.appended F m.delta).shouldCompact = true)
  | _ => True

variable {F : EntryFormat Id Entry} {since since' : Id → List (Option Entry)}
  {m m' : JsMap Id Entry} {l added : List (JournalRecord Id Entry)}
  {journal closed torn : List Char} {pieces : List (List Char)}

section Good

/-- What a load of these records over the snapshot yields is what was last saved, or later. -/
def Good (F : EntryFormat Id Entry) (since : Id → List (Option Entry))
    (m : JsMap Id Entry) (l : List (JournalRecord Id Entry)) : Prop :=
  ∀ id, (lastState F id l).getD (m.get id) ∈ since id

theorem good_append (h : Good F since m l) (hadded : ∀ r ∈ added, r.state ∈ since (r.id F)) :
    Good F since m (l ++ added) := by
  intro id
  rw [lastState_append]
  cases ha : lastState F id added with
  | none => exact h id
  | some x =>
      obtain ⟨r, hr, rfl, rfl⟩ := mem_of_lastState ha
      exact hadded r hr

/-- A snapshot of the present state may take the place of an older one. -/
theorem good_snapshot (h : Good F since m l) (hm : ∀ id, m'.get id ∈ since id) :
    Good F since m' l := by
  intro id
  have hid := h id
  cases hl : lastState F id l with
  | none => exact hm id
  | some x =>
      rw [hl] at hid
      exact hid

theorem good_mono (h : Good F since m l) (hsince : ∀ id, since id ⊆ since' id) :
    Good F since' m l := fun id => hsince id (h id)

end Good

section Disk

def Piece (F : EntryFormat Id Entry) (p : List Char) : Prop :=
  p ≠ [] ∧ ∃ r, p <+: F.codec.stringify r

theorem newline_notMem_pieces (h : ∀ p ∈ pieces, Piece F p) : '\n' ∉ pieces.flatten := by
  intro hmem
  obtain ⟨p, hp, hmem⟩ := List.mem_flatten.1 hmem
  obtain ⟨-, r, hr⟩ := h p hp
  exact F.codec.newline_notMem r (hr.subset hmem)

/-- Two starts of records on one line are none. -/
theorem records_glued (h : ∀ p ∈ pieces, Piece F p) (h2 : 2 ≤ pieces.length) :
    records F.codec pieces.flatten = [] := by
  rw [records_line (newline_notMem_pieces h), parseLine, F.parse_glued pieces h2 h, ite_self]
  rfl

/-- The closed lines of the journal and the starts glued together on its last one: a load
is good with the last line and without it. -/
def Disk (F : EntryFormat Id Entry) (since : Id → List (Option Entry))
    (m : JsMap Id Entry) (journal : List Char) : Prop :=
  ∃ (closed : List Char) (pieces : List (List Char)), journal = closed ++ pieces.flatten ∧
    Ended closed ∧ (∀ p ∈ pieces, Piece F p) ∧ Good F since m (records F.codec closed) ∧
      Good F since m (records F.codec closed ++ records F.codec pieces.flatten)

theorem disk_closed (hclosed : Ended closed) (h : Good F since m (records F.codec closed)) :
    Disk F since m closed := by
  refine ⟨closed, [], ?_, hclosed, ?_, h, ?_⟩
  · rw [List.flatten_nil, List.append_nil]
  · exact fun p hp => absurd hp List.not_mem_nil
  · rwa [List.flatten_nil, records_nil, List.append_nil]

theorem disk_start (hclosed : Ended closed) (h : Good F since m (records F.codec closed))
    {r : JournalRecord Id Entry} (hr : torn <+: F.codec.stringify r)
    (hstate : r.state ∈ since (r.id F)) : Disk F since m (closed ++ torn) := by
  by_cases htorn : torn = []
  · rw [htorn, List.append_nil]
    exact disk_closed hclosed h
  · refine ⟨closed, [torn], ?_, hclosed, ?_, h, ?_⟩
    · rw [List.flatten_singleton]
    · exact fun p hp => List.mem_singleton.1 hp ▸ ⟨htorn, r, hr⟩
    · apply good_append h
      intro r' hr'
      rw [List.flatten_singleton] at hr'
      rcases records_start hr with hnone | hone
      · rw [hnone] at hr'
        exact absurd hr' List.not_mem_nil
      · rw [hone] at hr'
        exact List.mem_singleton.1 hr' ▸ hstate

/-- What is torn off an append after closed lines. -/
theorem disk_torn (hclosed : Ended closed) (h : Good F since m (records F.codec closed))
    (hadded : ∀ r ∈ added, r.state ∈ since (r.id F)) (htorn : torn <+: text F.codec added) :
    Disk F since m (closed ++ torn) := by
  obtain ⟨whole, rest, rfl, hrest⟩ := torn_split htorn
  have hended : Ended (closed ++ text F.codec whole) := ended_append (ended_text whole) hclosed
  have hrecords : records F.codec (closed ++ text F.codec whole) =
      records F.codec closed ++ whole := by
    rw [records_append hclosed, records_text]
  have hgood : ∀ all, whole ++ all <+: added →
      Good F since m (records F.codec (closed ++ text F.codec whole)) := by
    intro all hall
    rw [hrecords]
    exact good_append h fun r hr => hadded r (hall.subset (List.mem_append_left _ hr))
  rw [← List.append_assoc]
  rcases hrest with ⟨rfl, hwhole⟩ | ⟨r, hr, hwhole⟩
  · rw [List.append_nil]
    exact disk_closed hended (hgood [] (by rwa [List.append_nil]))
  · exact disk_start hended (hgood [r] hwhole) hr
      (hadded r (hwhole.subset (List.mem_append_right _ List.mem_cons_self)))

/-- An append on a line that is torn already closes that line, or tears it further. -/
theorem disk_append (h : Disk F since m journal)
    (hadded : ∀ r ∈ added, r.state ∈ since (r.id F)) (htorn : torn <+: text F.codec added) :
    Disk F since m (journal ++ torn) := by
  obtain ⟨closed, pieces, rfl, hclosed, hpieces, hgood, hlast⟩ := h
  by_cases hnil : pieces = []
  · rw [hnil, List.flatten_nil, List.append_nil]
    exact disk_torn hclosed hgood hadded htorn
  have hglue : ∀ start r, start ≠ [] → start <+: F.codec.stringify r →
      (∀ p ∈ pieces ++ [start], Piece F p) ∧ 2 ≤ (pieces ++ [start]).length := by
    intro start r hne hstart
    constructor
    · intro p hp
      rcases List.mem_append.1 hp with hp | hp
      · exact hpieces p hp
      · exact List.mem_singleton.1 hp ▸ ⟨hne, r, hstart⟩
    · have := List.length_pos_iff.2 hnil
      rw [List.length_append, List.length_singleton]
      omega
  have hflatten : ∀ start, (pieces ++ [start]).flatten = pieces.flatten ++ start := by
    intro start
    rw [List.flatten_append, List.flatten_singleton]
  cases added with
  | nil =>
      obtain rfl := List.prefix_nil.1 htorn
      rw [List.append_nil]
      exact ⟨closed, pieces, rfl, hclosed, hpieces, hgood, hlast⟩
  | cons first added =>
      rw [text_cons] at htorn
      by_cases hin : torn <+: F.codec.stringify first
      · by_cases hempty : torn = []
        · rw [hempty, List.append_nil]
          exact ⟨closed, pieces, rfl, hclosed, hpieces, hgood, hlast⟩
        · obtain ⟨hall, h2⟩ := hglue torn first hempty hin
          refine ⟨closed, pieces ++ [torn], ?_, hclosed, hall, hgood, ?_⟩
          · rw [hflatten, List.append_assoc]
          · rwa [records_glued hall h2, List.append_nil]
      · obtain ⟨tail, rfl⟩ := (List.prefix_or_prefix_of_prefix htorn
          (List.prefix_append _ _)).resolve_left hin
        rw [List.prefix_append_right_inj] at htorn
        cases tail with
        | nil =>
            rw [List.append_nil] at hin
            exact absurd (List.prefix_refl _) hin
        | cons c tail =>
            obtain ⟨rfl, htail⟩ := List.cons_prefix_cons.1 htorn
            obtain ⟨hall, h2⟩ := hglue _ first (F.codec.stringify_ne_nil first)
              (List.prefix_refl _)
            have hrecords : records F.codec
                (closed ++ ((pieces ++ [F.codec.stringify first]).flatten ++ ['\n'])) =
                  records F.codec closed := by
              rw [records_append hclosed, records_newline, records_glued hall h2, records_nil,
                List.append_nil, List.append_nil]
            have hended : Ended
                (closed ++ ((pieces ++ [F.codec.stringify first]).flatten ++ ['\n'])) := by
              apply Or.inr
              simp
            have hdisk := disk_torn hended (hrecords ▸ hgood)
              (fun r hr => hadded r (List.mem_cons_of_mem first hr)) htail
            simpa only [hflatten, List.append_assoc, List.singleton_append] using hdisk

theorem good_of_disk (h : Disk F since m journal) : Good F since m (records F.codec journal) := by
  obtain ⟨closed, pieces, rfl, hclosed, -, -, hlast⟩ := h
  rwa [records_append hclosed]

theorem disk_snapshot (h : Disk F since m journal) (hm : ∀ id, m'.get id ∈ since id) :
    Disk F since m' journal := by
  obtain ⟨closed, pieces, heq, hclosed, hpieces, hgood, hlast⟩ := h
  exact ⟨closed, pieces, heq, hclosed, hpieces, good_snapshot hgood hm, good_snapshot hlast hm⟩

theorem disk_mono (h : Disk F since m journal) (hsince : ∀ id, since id ⊆ since' id) :
    Disk F since' m journal := by
  obtain ⟨closed, pieces, heq, hclosed, hpieces, hgood, hlast⟩ := h
  exact ⟨closed, pieces, heq, hclosed, hpieces, good_mono hgood hsince, good_mono hlast hsince⟩

end Disk

section Run

/-- What the memory holds of each id is among the states since its last save. -/
structure MemorySafe (F : EntryFormat Id Entry) (s : State Id Entry) (m : Memory Id Entry) : Prop where
  keyed : Keyed F m.entries
  within : ∀ id, m.entries.get id ∈ s.since id
  journal : ∀ delta, m.writing = .journal delta → delta = m.delta ∧ (Ended s.journal ∨
    (m.deferSave = false ∧ (m.appended F delta).shouldCompact = true))
  truncation : m.writing = .truncation → s.snapshot = some m.entries

structure Safe (F : EntryFormat Id Entry) (s : State Id Entry) : Prop where
  disk : Disk F s.since (s.snapshot.getD .empty) s.journal
  keyed : Keyed F (s.snapshot.getD .empty)
  memory : ∀ m, s.memory = some m → MemorySafe F s m

variable {s t : State Id Entry} {e : Event Id Entry} {M : Memory Id Entry}

theorem state_of_delta (h : Keyed F M.entries) {r : JournalRecord Id Entry} (hr : r ∈ M.delta) :
    r.id F ∈ M.dirtyIds ∧ r.state = M.entries.get (r.id F) := by
  obtain ⟨id, hid, rfl⟩ := List.mem_map.1 hr
  rw [Memory.recordOf]
  cases hget : M.entries.get id with
  | none => exact ⟨hid, hget.symm⟩
  | some e =>
      have hkey : F.id e = id := h id e hget
      have hrecord : JournalRecord.id F (.upsert e) = id := hkey
      dsimp only
      rw [hrecord]
      exact ⟨hid, hget.symm⟩

theorem delta_within (h : MemorySafe F s M) : ∀ r ∈ M.delta, r.state ∈ s.since (r.id F) := by
  intro r hr
  rw [(state_of_delta h.keyed hr).2]
  exact h.within (r.id F)

theorem safe_mutate (h : Safe F s) (hm : s.memory = some M) (hw : M.writing = .nothing)
    (r : JournalRecord Id Entry) : Safe F { s with
      memory := some (M.mutate F r)
      since := fun id => if id = r.id F then s.since id ++ [r.state] else s.since id } := by
  have hM := h.memory M hm
  refine ⟨disk_mono h.disk (fun id => ?_), h.keyed, ?_⟩
  · dsimp only
    split
    · exact List.subset_append_left _ _
    · exact List.Subset.refl _
  · rintro _ ⟨⟩
    refine ⟨keyed_apply hM.keyed, fun id => ?_, ?_, ?_⟩
    · simp only [Memory.mutate, get_apply]
      by_cases hid : r.id F = id
      · rw [if_pos hid, if_pos hid.symm]
        exact List.mem_append_right _ List.mem_cons_self
      · rw [if_neg hid, if_neg (Ne.symm hid)]
        exact hM.within id
    · exact fun delta hdelta => by cases hw.symm.trans hdelta
    · exact fun htrunc => by cases hw.symm.trans htrunc

theorem get_reclaim {stale : Entry → Bool} {id : Id} {e : Entry}
    (h : (M.reclaimTombstones stale).entries.get id = some e) : M.entries.get id = some e := by
  have hmem := (JsMap.mem_entries_iff (M.reclaimTombstones stale).entries).2 h
  exact (JsMap.mem_entries_iff M.entries).1 (List.mem_of_mem_filter hmem)

theorem safe_compact (h : Safe F s) (hm : s.memory = some M) (stale : Entry → Bool) :
    Safe F { s with
      memory := some { M.reclaimTombstones stale with writing := .snapshot }
      since := fun id => s.since id ++
        if ((M.reclaimTombstones stale).entries.get id).isNone then [none] else [] } := by
  have hM := h.memory M hm
  refine ⟨disk_mono h.disk (fun id => List.subset_append_left _ _), h.keyed, ?_⟩
  rintro _ ⟨⟩
  refine ⟨fun id e he => hM.keyed id e (get_reclaim he), fun id => ?_, nofun, nofun⟩
  dsimp only
  cases hget : (M.reclaimTombstones stale).entries.get id with
  | none => exact List.mem_append_right _ List.mem_cons_self
  | some e => exact List.mem_append_left _ (get_reclaim hget ▸ hM.within id)

theorem safe_flushed (h : Safe F s) (hm : s.memory = some M)
    {delta : List (JournalRecord Id Entry)} (hw : M.writing = .journal delta) :
    Safe F (flushed F s M delta) := by
  have hM := h.memory M hm
  have hwithin := delta_within hM
  obtain ⟨rfl, hsafe⟩ := hM.journal delta hw
  simp only [flushed]
  split
  · refine ⟨disk_append h.disk hwithin (List.prefix_refl _), h.keyed, ?_⟩
    rintro _ ⟨⟩
    exact ⟨hM.keyed, hM.within, nofun, nofun⟩
  · rename_i hcompact
    have hended : Ended s.journal := by
      refine hsafe.resolve_right (fun ⟨hdefer, hfull⟩ => hcompact ?_)
      have hdefer' : (M.appended F M.delta).deferSave = false := hdefer
      rw [hdefer', hfull]
      rfl
    have hrecords : records F.codec (s.journal ++ text F.codec M.delta) =
        records F.codec s.journal ++ M.delta := by
      rw [records_append hended, records_text]
    refine ⟨disk_closed (ended_append (ended_text _) hended) fun id => ?_, h.keyed, ?_⟩
    · rw [hrecords, lastState_append]
      cases hlast : lastState F id M.delta with
      | none =>
          have hid : id ∉ M.delta.map (JournalRecord.id F) := by
            intro hmem
            obtain ⟨r, hr, hid⟩ := List.mem_map.1 hmem
            exact lastState_eq_none_iff.1 hlast r hr hid
          dsimp only
          rw [if_neg hid]
          exact good_of_disk h.disk id
      | some x =>
          obtain ⟨r, hr, rfl, rfl⟩ := mem_of_lastState hlast
          dsimp only
          rw [if_pos (List.mem_map_of_mem hr)]
          exact List.mem_singleton.2 (state_of_delta hM.keyed hr).2
    · rintro _ ⟨⟩
      refine ⟨hM.keyed, fun id => ?_, nofun, nofun⟩
      dsimp only [Memory.appended]
      split
      · exact List.mem_singleton_self _
      · exact hM.within id

theorem safe_crashed (h : Safe F s) (hm : s.memory = some M) (torn : Nat) (landed : Bool) :
    Safe F (crashed F s M torn landed) := by
  have hM := h.memory M hm
  cases hw : M.writing with
  | nothing =>
      simp only [crashed, hw]
      exact ⟨h.disk, h.keyed, nofun⟩
  | journal delta =>
      have hwithin := delta_within hM
      obtain ⟨rfl, -⟩ := hM.journal delta hw
      simp only [crashed, hw]
      exact ⟨disk_append h.disk hwithin (List.take_prefix torn _), h.keyed, nofun⟩
  | snapshot =>
      simp only [crashed, hw]
      cases landed with
      | false => exact ⟨h.disk, h.keyed, nofun⟩
      | true => exact ⟨disk_snapshot h.disk hM.within, hM.keyed, nofun⟩
  | truncation =>
      simp only [crashed, hw]
      cases landed with
      | false => exact ⟨h.disk, h.keyed, nofun⟩
      | true =>
          refine ⟨disk_closed (Or.inl rfl) fun id => ?_, h.keyed, nofun⟩
          rw [hM.truncation hw]
          exact hM.within id

theorem safe_load (h : Safe F s) : Safe F { s with memory := some (load F s) } := by
  refine ⟨h.disk, h.keyed, ?_⟩
  rintro _ ⟨⟩
  have hwriting : (load F s).writing = .snapshot ∨ (load F s).writing = .nothing := by
    simp only [load]
    split
    · exact Or.inl rfl
    · exact Or.inr rfl
  refine ⟨keyed_replay h.keyed, fun id => ?_, ?_, ?_⟩
  · have hget : (load F s).entries.get id = (lastState F id (records F.codec s.journal)).getD
        ((s.snapshot.getD .empty).get id) := get_replay
    rw [hget]
    exact good_of_disk h.disk id
  · intro delta hdelta
    rcases hwriting with hw | hw
    · cases hw.symm.trans hdelta
    · cases hw.symm.trans hdelta
  · intro htrunc
    rcases hwriting with hw | hw
    · cases hw.symm.trans htrunc
    · cases hw.symm.trans htrunc

theorem safe_step (h : Safe F s) (hsafe : FlushSafe F s e) (hs : Steps F s e t) : Safe F t := by
  cases hs with
  | mutate hm hw => exact safe_mutate h hm hw _
  | @defer m _ deferSave hm hw =>
      have hM := h.memory m hm
      refine ⟨h.disk, h.keyed, ?_⟩
      rintro _ ⟨⟩
      refine ⟨hM.keyed, hM.within, ?_, ?_⟩
      · exact fun delta hdelta => by cases hw.symm.trans hdelta
      · exact fun htrunc => by cases hw.symm.trans htrunc
  | skip => exact h
  | @flush m hm hw hdirty =>
      have hM := h.memory m hm
      refine ⟨h.disk, h.keyed, ?_⟩
      rintro _ ⟨⟩
      refine ⟨hM.keyed, hM.within, ?_, nofun⟩
      rintro _ ⟨⟩
      exact ⟨rfl, hsafe m hm hw hdirty⟩
  | compact hm hw => exact safe_compact h hm _
  | flushed hm hw => exact safe_flushed h hm hw
  | @snapshot m hm hw =>
      have hM := h.memory m hm
      refine ⟨disk_snapshot h.disk hM.within, hM.keyed, ?_⟩
      rintro _ ⟨⟩
      exact ⟨hM.keyed, hM.within, nofun, fun _ => rfl⟩
  | @truncation m hm hw =>
      have hM := h.memory m hm
      have hsnapshot := hM.truncation hw
      refine ⟨disk_closed (Or.inl rfl) fun id => ?_, ?_, ?_⟩
      · rw [hsnapshot]
        exact List.mem_singleton_self _
      · rw [hsnapshot]
        exact hM.keyed
      · rintro _ ⟨⟩
        exact ⟨hM.keyed, fun id => List.mem_singleton_self _, nofun, nofun⟩
  | crash hm => exact safe_crashed h hm _ _
  | load hm => exact safe_load h

theorem safe_fresh : Safe F (fresh : State Id Entry) := by
  refine ⟨disk_closed (Or.inl rfl) fun id => List.mem_singleton_self _, nofun, ?_⟩
  rintro _ ⟨⟩
  exact ⟨nofun, fun id => List.mem_singleton_self _, nofun, nofun⟩

/-- Through any number of crashes, a load yields of every id the state that its last
resolved save recorded, or a later one. -/
theorem load_within_since {events : List (Event Id Entry)}
    (hsafe : Along (step F) (FlushSafe F) fresh events)
    (hrun : run (step F) fresh events = some s) (hm : s.memory = some M) :
    ∀ id, M.entries.get id ∈ s.since id := by
  have hstep : ∀ s e t, Safe F s → FlushSafe F s e → step F s e = some t → Safe F t :=
    fun s e t h hsafe hs => safe_step h hsafe (steps_of_step hs)
  exact ((invariant_of_run hstep safe_fresh hsafe hrun).memory M hm).within

end Run

section Example

/-- A crash tears a checkpoint's line; the next save folds the journal into the snapshot, and another
entry's checkpoint survives a crash. -/
def tornThenSaved : List (Event SampleId SampleId) :=
  [.suspendSaves, .mutate (.upsert .a), .flush, .crash 5 false, .load, .mutate (.upsert .a), .flush,
    .written, .written, .written, .suspendSaves, .mutate (.upsert .b), .flush, .written,
    .crash 0 false, .load]

theorem load_within_since_example : ∃ s m,
    run (step sampleFormat) fresh tornThenSaved = some s ∧ s.memory = some m ∧
      m.entries.get .a = some .a ∧ m.entries.get .b = some .b ∧
      ∀ id, m.entries.get id ∈ s.since id := by
  have hsafe : Along (step sampleFormat) (FlushSafe sampleFormat) fresh tornThenSaved := by
    refine ⟨trivial, ?_⟩
    rintro _ ⟨⟩
    refine ⟨trivial, ?_⟩
    rintro _ ⟨⟩
    refine ⟨fun m _ _ _ => Or.inl (Or.inl rfl), ?_⟩
    rintro _ ⟨⟩
    refine ⟨trivial, ?_⟩
    rintro _ ⟨⟩
    refine ⟨trivial, ?_⟩
    rintro _ ⟨⟩
    refine ⟨trivial, ?_⟩
    rintro _ ⟨⟩
    constructor
    · rintro m ⟨⟩ _ _
      exact Or.inr ⟨rfl, rfl⟩
    rintro _ ⟨⟩
    refine ⟨trivial, ?_⟩
    rintro _ ⟨⟩
    refine ⟨trivial, ?_⟩
    rintro _ ⟨⟩
    refine ⟨trivial, ?_⟩
    rintro _ ⟨⟩
    refine ⟨trivial, ?_⟩
    rintro _ ⟨⟩
    refine ⟨trivial, ?_⟩
    rintro _ ⟨⟩
    refine ⟨fun m _ _ _ => Or.inl (Or.inl rfl), ?_⟩
    exact fun _ _ => ⟨trivial, fun _ _ => ⟨trivial, fun _ _ => ⟨trivial, fun _ _ => trivial⟩⟩⟩
  exact ⟨_, _, rfl, rfl, rfl, rfl, load_within_since hsafe rfl rfl⟩

/-- A checkpoint after the crash goes on with the torn line, and its entry is lost. -/
theorem torn_line_swallows_save : ∃ s m,
    run (step sampleFormat) fresh [.suspendSaves, .mutate (.upsert .a), .flush, .crash 5 false,
        .load, .suspendSaves, .mutate (.upsert .b), .flush, .written, .crash 0 false, .load] =
      some s ∧ s.memory = some m ∧ s.since .b = [some .b] ∧ m.entries.get .b = none :=
  ⟨_, _, rfl, rfl, rfl, rfl⟩

end Example

end OpsBlobs.RegistryCrash
