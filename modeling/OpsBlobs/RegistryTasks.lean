import OpsBlobs.RegistryCrash
import Mathlib.Data.List.Perm.Basic

namespace OpsBlobs.RegistryTasks

open LineJournal EventRun RegistryJournal RegistryCrash

/-- Where a flush or a compaction stands. A flush makes the directory, appends its delta, and goes
on once the append is done; a compaction makes the directory, writes the snapshot, truncates the
journal, and goes on once that is done. -/
inductive Task (Id Entry : Type) [DecidableEq Id]
  | opening
  | appending (delta : List (JournalRecord Id Entry))
  | appended (delta : List (JournalRecord Id Entry))
  | folding
  | writing (entries : JsMap Id Entry)
  | truncating (entries : JsMap Id Entry)
  | truncated (entries : JsMap Id Entry)

/-- The writes in flight are those of the tasks, `memory.writing` stays at nothing. -/
structure State (Id Entry : Type) [DecidableEq Id] where
  snapshot : Option (JsMap Id Entry)
  journal : List Char
  memory : Memory Id Entry
  tasks : List (Task Id Entry)

inductive Event (Id Entry : Type)
  | mutate (r : JournalRecord Id Entry)
  | save
  | flush
  | compact (stale : Entry → Bool)
  | suspendSaves
  | resumeSaves
  | advance (i : Nat)

section Machine

variable {Id Entry : Type} [DecidableEq Id] (F : EntryFormat Id Entry)

def loaded (s : State Id Entry) : JsMap Id Entry :=
  replay F (s.snapshot.getD .empty) (records F.codec s.journal)

def State.flush (s : State Id Entry) : State Id Entry :=
  if s.memory.dirtyIds = [] then s else { s with tasks := s.tasks ++ [.opening] }

/-- A flush reads its delta, and a compaction the entries, when the directory is there. -/
def turn (s : State Id Entry) : Task Id Entry → State Id Entry
  | .opening => { s with tasks := s.tasks ++ [.appending s.memory.delta] }
  | .appending delta => { s with
      journal := s.journal ++ text F.codec delta
      tasks := s.tasks ++ [.appended delta] }
  | .appended delta =>
      let m := s.memory.appended F delta
      { s with
        memory := m
        tasks := s.tasks ++
          if m.deferSave = false ∧ m.shouldCompact = true ∧ m.journalRecords ≠ 0 then [.folding]
          else [] }
  | .folding => { s with tasks := s.tasks ++ [.writing s.memory.entries] }
  | .writing entries => { s with
      snapshot := some entries
      tasks := s.tasks ++ [.truncating entries] }
  | .truncating entries => { s with
      journal := []
      tasks := s.tasks ++ [.truncated entries] }
  | .truncated entries => { s with
      memory := { s.memory with
        dirtyIds := []
        journalBytes := 0
        journalRecords := 0
        snapshotBytes := utf16Length (F.snapshotJson entries) } }

def step (s : State Id Entry) : Event Id Entry → Option (State Id Entry)
  | .mutate r => some { s with memory := s.memory.mutate F r }
  | .save => some (if s.memory.deferSave then s else s.flush)
  | .flush => some s.flush
  | .compact stale =>
      if s.memory.journalRecords = 0 ∧ s.memory.entries.entries.all (fun e => !stale e.2) then some s
      else some { s with
        memory := s.memory.reclaimTombstones stale
        tasks := s.tasks ++ [.folding] }
  | .suspendSaves => some { s with memory := { s.memory with deferSave := true } }
  | .resumeSaves => some { s with memory := { s.memory with deferSave := false } }
  | .advance i =>
      match s.tasks[i]? with
      | none => none
      | some task => some (turn F { s with tasks := s.tasks.eraseIdx i } task)

/-- A session that loaded a snapshot of some entries and a journal of some records; a journal that
outgrew the snapshot is being folded into it. -/
def opened (before journalled : List (JournalRecord Id Entry)) : State Id Entry :=
  let snapshot := replay F .empty before
  let m : Memory Id Entry :=
    { entries := replay F snapshot journalled
      dirtyIds := []
      deferSave := false
      journalBytes := utf16Length (text F.codec journalled)
      journalRecords := journalled.length
      snapshotBytes := utf16Length (F.snapshotJson snapshot)
      writing := .nothing }
  { snapshot := some snapshot
    journal := text F.codec journalled
    memory := m
    tasks := if 0 < m.journalRecords ∧ m.shouldCompact then [.folding] else [] }

/-- Between reading what it writes and clearing the dirty ids. -/
def Task.InWrite : Task Id Entry → Prop
  | .opening | .folding => False
  | _ => True

/-- Before its truncation is done. -/
def Task.Compacting : Task Id Entry → Prop
  | .folding | .writing _ | .truncating _ => True
  | _ => False

/-- No entry changes while a write is under way. -/
def WritesApart (s : State Id Entry) : Event Id Entry → Prop
  | .mutate _ => ∀ task ∈ s.tasks, ¬ task.InWrite
  | .compact stale =>
      s.memory.entries.entries.any (fun e => stale e.2) = true → ∀ task ∈ s.tasks, ¬ task.InWrite
  | _ => True

end Machine

section Tracked

variable {Id Entry : Type} [DecidableEq Id]

/-- What is not dirty is on the disk or being dropped from it, and every write under way carries
the entries as they are. -/
structure Tracked (F : EntryFormat Id Entry) (s : State Id Entry) : Prop where
  keyed : Keyed F s.memory.entries
  ended : Ended s.journal
  agrees : ∀ id, id ∈ s.memory.dirtyIds ∨
    (s.memory.entries.get id = none ∧ ∃ task ∈ s.tasks, task.Compacting) ∨
      (loaded F s).get id = s.memory.entries.get id
  delta : ∀ delta, (.appending delta ∈ s.tasks ∨ .appended delta ∈ s.tasks) →
    (∀ r ∈ delta, r.state = s.memory.entries.get (r.id F)) ∧
      ∀ id ∈ s.memory.dirtyIds, ∃ r ∈ delta, r.id F = id
  appended : ∀ delta, .appended delta ∈ s.tasks →
    ∀ r ∈ delta, (loaded F s).get (r.id F) = s.memory.entries.get (r.id F)
  entries : ∀ entries, (.writing entries ∈ s.tasks ∨ .truncating entries ∈ s.tasks) →
    entries = s.memory.entries
  truncating : ∀ entries, .truncating entries ∈ s.tasks → s.snapshot = some s.memory.entries
  truncated : ∀ entries, .truncated entries ∈ s.tasks →
    ∀ id, (loaded F s).get id = s.memory.entries.get id

variable {F : EntryFormat Id Entry} {s t : State Id Entry} {e : Event Id Entry} {id : Id}
  {delta : List (JournalRecord Id Entry)}

theorem recordOf_id {m : Memory Id Entry} (h : Keyed F m.entries) (id : Id) :
    (m.recordOf id).id F = id := by
  rw [Memory.recordOf]
  cases hget : m.entries.get id with
  | none => rfl
  | some e => exact h id e hget

theorem get_loaded (s : State Id Entry) (id : Id) : (loaded F s).get id =
    (lastState F id (records F.codec s.journal)).getD ((s.snapshot.getD .empty).get id) :=
  get_replay

theorem get_loaded_append (h : Ended s.journal) (id : Id) :
    (loaded F { s with journal := s.journal ++ text F.codec delta }).get id =
      (lastState F id delta).getD ((loaded F s).get id) := by
  rw [get_loaded, get_loaded, records_append h, records_text, lastState_append]
  cases lastState F id delta with
  | none => rfl
  | some x => rfl

/-- A landed append of current states leaves what is current, and makes its own records so. -/
theorem agrees_append (h : Ended s.journal)
    (hdelta : ∀ r ∈ delta, r.state = s.memory.entries.get (r.id F))
    (hid : (loaded F s).get id = s.memory.entries.get id ∨ ∃ r ∈ delta, r.id F = id) :
    (loaded F { s with journal := s.journal ++ text F.codec delta }).get id =
      s.memory.entries.get id := by
  rw [get_loaded_append h]
  cases hlast : lastState F id delta with
  | none =>
      refine hid.resolve_right ?_
      rintro ⟨r, hr, hrid⟩
      exact lastState_eq_none_iff.1 hlast r hr hrid
  | some x =>
      obtain ⟨r, hr, rfl, rfl⟩ := mem_of_lastState hlast
      exact hdelta r hr

/-- A snapshot of the present entries leaves what is current. -/
theorem agrees_snapshot (hid : (loaded F s).get id = s.memory.entries.get id) :
    (loaded F { s with snapshot := some s.memory.entries }).get id = s.memory.entries.get id := by
  rw [get_loaded] at hid ⊢
  cases hlast : lastState F id (records F.codec s.journal) with
  | none => rfl
  | some x =>
      rw [hlast] at hid
      exact hid

section Turn

variable {task : Task Id Entry} {rest : List (Task Id Entry)}

theorem exists_compacting (hmem : ∀ x, x ∈ s.tasks ↔ x = task ∨ x ∈ rest) {next : Task Id Entry}
    (hnext : task.Compacting → next.Compacting) (h : ∃ x ∈ s.tasks, x.Compacting) :
    ∃ x ∈ rest ++ [next], x.Compacting := by
  obtain ⟨x, hx, hc⟩ := h
  rcases (hmem x).1 hx with rfl | hx
  · exact ⟨next, List.mem_append_right _ List.mem_cons_self, hnext hc⟩
  · exact ⟨x, List.mem_append_left _ hx, hc⟩

theorem mem_of_next (hmem : ∀ x, x ∈ s.tasks ↔ x = task ∨ x ∈ rest) (next : Task Id Entry) :
    ∀ x ∈ rest ++ [next], x ≠ next → x ∈ s.tasks := by
  intro x hx hne
  rcases List.mem_append.1 hx with hx | hx
  · exact (hmem x).2 (Or.inr hx)
  · exact absurd (List.mem_singleton.1 hx) hne

theorem tracked_opening (h : Tracked F s) (hmem : ∀ x, x ∈ s.tasks ↔ x = .opening ∨ x ∈ rest) :
    Tracked F (turn F { s with tasks := rest } .opening) := by
  have hold := mem_of_next hmem (.appending s.memory.delta)
  refine ⟨h.keyed, h.ended, fun id => ?_, fun delta hdelta => ?_, fun delta hdelta => ?_,
    fun entries hentries => ?_, fun entries hentries => ?_, fun entries hentries => ?_⟩
  · refine (h.agrees id).imp_right (Or.imp_left (And.imp_right fun hc => ?_))
    exact exists_compacting hmem (fun hc => hc.elim) hc
  · by_cases hnew : delta = s.memory.delta
    · subst hnew
      refine ⟨fun r hr => (state_of_delta h.keyed hr).2, fun id hid => ?_⟩
      exact ⟨_, List.mem_map_of_mem hid, recordOf_id h.keyed id⟩
    · apply h.delta delta
      refine hdelta.imp (fun hx => hold _ hx ?_) (fun hx => hold _ hx nofun)
      exact fun heq => hnew (Task.appending.inj heq)
  · exact h.appended delta (hold _ hdelta nofun)
  · exact h.entries entries (hentries.imp (fun hx => hold _ hx nofun)
      (fun hx => hold _ hx nofun))
  · exact h.truncating entries (hold _ hentries nofun)
  · exact h.truncated entries (hold _ hentries nofun)

theorem tracked_appending (h : Tracked F s)
    (hmem : ∀ x, x ∈ s.tasks ↔ x = .appending delta ∨ x ∈ rest) :
    Tracked F (turn F { s with tasks := rest } (.appending delta)) := by
  have hown := h.delta delta (Or.inl ((hmem _).2 (Or.inl rfl)))
  have hold := mem_of_next hmem (.appended delta)
  refine ⟨h.keyed, ended_append (ended_text delta) h.ended, fun id => ?_, fun delta' hdelta => ?_,
    fun delta' hdelta r hr => ?_, fun entries hentries => ?_, fun entries hentries => ?_,
    fun entries hentries id => ?_⟩
  · refine (h.agrees id).imp_right (Or.imp (And.imp_right fun hc => ?_) fun hid => ?_)
    · exact exists_compacting hmem (fun hc => hc.elim) hc
    · exact agrees_append h.ended hown.1 (Or.inl hid)
  · by_cases hnew : delta' = delta
    · exact hnew ▸ hown
    · apply h.delta delta'
      refine hdelta.imp (fun hx => hold _ hx nofun) (fun hx => hold _ hx ?_)
      exact fun heq => hnew (Task.appended.inj heq)
  · by_cases hnew : delta' = delta
    · exact agrees_append h.ended hown.1 (Or.inr ⟨r, hnew ▸ hr, rfl⟩)
    · have hprev := h.appended delta' (hold _ hdelta fun heq => hnew (Task.appended.inj heq))
      exact agrees_append h.ended hown.1 (Or.inl (hprev r hr))
  · exact h.entries entries (hentries.imp (fun hx => hold _ hx nofun)
      (fun hx => hold _ hx nofun))
  · exact h.truncating entries (hold _ hentries nofun)
  · have hprev := h.truncated entries (hold _ hentries nofun)
    exact agrees_append h.ended hown.1 (Or.inl (hprev id))

theorem tracked_appended (h : Tracked F s)
    (hmem : ∀ x, x ∈ s.tasks ↔ x = .appended delta ∨ x ∈ rest) :
    Tracked F (turn F { s with tasks := rest } (.appended delta)) := by
  have hin : Task.appended delta ∈ s.tasks := (hmem _).2 (Or.inl rfl)
  have hfolding : ∀ (p : Prop) [Decidable p] (x : Task Id Entry),
      x ∈ rest ++ (if p then [.folding] else []) → x ≠ .folding → x ∈ s.tasks := by
    intro p _ x hx hne
    rcases List.mem_append.1 hx with hx | hx
    · exact (hmem x).2 (Or.inr hx)
    · split at hx
      · exact absurd (List.mem_singleton.1 hx) hne
      · exact absurd hx List.not_mem_nil
  refine ⟨h.keyed, h.ended, fun id => Or.inr ?_, fun delta' hdelta => ?_, fun delta' hdelta => ?_,
    fun entries hentries => ?_, fun entries hentries => ?_, fun entries hentries => ?_⟩
  · rcases h.agrees id with hdirty | ⟨hnone, x, hx, hc⟩ | hid
    · obtain ⟨r, hr, rfl⟩ := (h.delta delta (Or.inr hin)).2 id hdirty
      exact Or.inr (h.appended delta hin r hr)
    · rcases (hmem x).1 hx with rfl | hx
      · exact hc.elim
      · exact Or.inl ⟨hnone, x, List.mem_append_left _ hx, hc⟩
    · exact Or.inr hid
  · refine ⟨(h.delta delta' ?_).1, fun id hid => absurd hid List.not_mem_nil⟩
    exact hdelta.imp (fun hx => hfolding _ _ hx nofun) (fun hx => hfolding _ _ hx nofun)
  · exact h.appended delta' (hfolding _ _ hdelta nofun)
  · exact h.entries entries (hentries.imp (fun hx => hfolding _ _ hx nofun)
      (fun hx => hfolding _ _ hx nofun))
  · exact h.truncating entries (hfolding _ _ hentries nofun)
  · exact h.truncated entries (hfolding _ _ hentries nofun)

theorem tracked_folding (h : Tracked F s) (hmem : ∀ x, x ∈ s.tasks ↔ x = .folding ∨ x ∈ rest) :
    Tracked F (turn F { s with tasks := rest } .folding) := by
  have hold := mem_of_next hmem (.writing s.memory.entries)
  refine ⟨h.keyed, h.ended, fun id => ?_, fun delta hdelta => ?_, fun delta hdelta => ?_,
    fun entries hentries => ?_, fun entries hentries => ?_, fun entries hentries => ?_⟩
  · refine (h.agrees id).imp_right (Or.imp_left (And.imp_right fun hc => ?_))
    exact exists_compacting hmem (fun _ => trivial) hc
  · exact h.delta delta (hdelta.imp (fun hx => hold _ hx nofun)
      (fun hx => hold _ hx nofun))
  · exact h.appended delta (hold _ hdelta nofun)
  · by_cases hnew : entries = s.memory.entries
    · exact hnew
    · apply h.entries entries
      refine hentries.imp (fun hx => hold _ hx ?_) (fun hx => hold _ hx nofun)
      exact fun heq => hnew (Task.writing.inj heq)
  · exact h.truncating entries (hold _ hentries nofun)
  · exact h.truncated entries (hold _ hentries nofun)

theorem tracked_writing (h : Tracked F s) {entries : JsMap Id Entry}
    (hmem : ∀ x, x ∈ s.tasks ↔ x = .writing entries ∨ x ∈ rest) :
    Tracked F (turn F { s with tasks := rest } (.writing entries)) := by
  obtain rfl := h.entries entries (Or.inl ((hmem _).2 (Or.inl rfl)))
  have hold := mem_of_next hmem (.truncating s.memory.entries)
  refine ⟨h.keyed, h.ended, fun id => ?_, fun delta hdelta => ?_, fun delta hdelta r hr => ?_,
    fun entries hentries => ?_, fun _ _ => rfl, fun entries hentries id => ?_⟩
  · refine (h.agrees id).imp_right (Or.imp (And.imp_right fun hc => ?_) fun hid => ?_)
    · exact exists_compacting hmem (fun _ => trivial) hc
    · exact agrees_snapshot hid
  · exact h.delta delta (hdelta.imp (fun hx => hold _ hx nofun)
      (fun hx => hold _ hx nofun))
  · exact agrees_snapshot (h.appended delta (hold _ hdelta nofun) r hr)
  · by_cases hnew : entries = s.memory.entries
    · exact hnew
    · apply h.entries entries
      refine hentries.imp (fun hx => hold _ hx nofun) (fun hx => hold _ hx ?_)
      exact fun heq => hnew (Task.truncating.inj heq)
  · exact agrees_snapshot (h.truncated entries (hold _ hentries nofun) id)

theorem tracked_truncating (h : Tracked F s) {entries : JsMap Id Entry}
    (hmem : ∀ x, x ∈ s.tasks ↔ x = .truncating entries ∨ x ∈ rest) :
    Tracked F (turn F { s with tasks := rest } (.truncating entries)) := by
  have hsnapshot := h.truncating entries ((hmem _).2 (Or.inl rfl))
  have hall : ∀ id, (loaded F (turn F { s with tasks := rest } (.truncating entries))).get id =
      s.memory.entries.get id := by
    intro id
    rw [get_loaded]
    simp [turn, hsnapshot, lastState]
  have hold := mem_of_next hmem (.truncated entries)
  refine ⟨h.keyed, Or.inl rfl, fun id => Or.inr (Or.inr (hall id)), fun delta hdelta => ?_,
    fun _ _ r _ => hall (r.id F), fun entries hentries => ?_, fun _ _ => hsnapshot,
    fun _ _ id => hall id⟩
  · exact h.delta delta (hdelta.imp (fun hx => hold _ hx (by rintro ⟨⟩))
      (fun hx => hold _ hx (by rintro ⟨⟩)))
  · exact h.entries entries (hentries.imp (fun hx => hold _ hx (by rintro ⟨⟩))
      (fun hx => hold _ hx (by rintro ⟨⟩)))

theorem tracked_truncated (h : Tracked F s) {entries : JsMap Id Entry}
    (hmem : ∀ x, x ∈ s.tasks ↔ x = .truncated entries ∨ x ∈ rest) :
    Tracked F (turn F { s with tasks := rest } (.truncated entries)) := by
  have hall := h.truncated entries ((hmem _).2 (Or.inl rfl))
  have hsub : ∀ x ∈ rest, x ∈ s.tasks := fun x hx => (hmem x).2 (Or.inr hx)
  refine ⟨h.keyed, h.ended, fun id => Or.inr (Or.inr (hall id)), fun delta hdelta => ?_,
    fun delta hdelta => h.appended delta (hsub _ hdelta), fun entries hentries => ?_,
    fun entries hentries => h.truncating entries (hsub _ hentries), fun _ _ id => hall id⟩
  · refine ⟨(h.delta delta (hdelta.imp (hsub _) (hsub _))).1, ?_⟩
    exact fun id hid => absurd hid List.not_mem_nil
  · exact h.entries entries (hentries.imp (hsub _) (hsub _))

theorem tracked_turn (h : Tracked F s) (hmem : ∀ x, x ∈ s.tasks ↔ x = task ∨ x ∈ rest) :
    Tracked F (turn F { s with tasks := rest } task) := by
  cases task with
  | opening => exact tracked_opening h hmem
  | appending delta => exact tracked_appending h hmem
  | appended delta => exact tracked_appended h hmem
  | folding => exact tracked_folding h hmem
  | writing entries => exact tracked_writing h hmem
  | truncating entries => exact tracked_truncating h hmem
  | truncated entries => exact tracked_truncated h hmem

theorem mem_iff_eraseIdx {tasks : List (Task Id Entry)} {i : Nat} (hi : tasks[i]? = some task)
    (x : Task Id Entry) : x ∈ tasks ↔ x = task ∨ x ∈ tasks.eraseIdx i := by
  obtain ⟨hlt, rfl⟩ := List.getElem?_eq_some_iff.1 hi
  rw [← List.mem_cons]
  exact (List.getElem_cons_eraseIdx_perm hlt).mem_iff.symm

end Turn

section Mutation

theorem tracked_mutate (h : Tracked F s) (r : JournalRecord Id Entry)
    (hapart : ∀ task ∈ s.tasks, ¬ task.InWrite) :
    Tracked F { s with memory := s.memory.mutate F r } := by
  have hout : ∀ task ∈ s.tasks, task.InWrite → False := hapart
  refine ⟨keyed_apply h.keyed, h.ended, fun id => ?_, fun delta hdelta => ?_,
    fun delta hdelta => (hout _ hdelta trivial).elim, fun entries hentries => ?_,
    fun entries hentries => (hout _ hentries trivial).elim,
    fun entries hentries => (hout _ hentries trivial).elim⟩
  · simp only [Memory.mutate, get_apply]
    by_cases hid : r.id F = id
    · subst hid
      left
      split
      · assumption
      · exact List.mem_append_right _ List.mem_cons_self
    · rw [if_neg hid]
      refine (h.agrees id).imp_left fun hdirty => ?_
      split
      · exact hdirty
      · exact List.mem_append_left _ hdirty
  · exact (hdelta.elim (fun hx => hout _ hx trivial) (fun hx => hout _ hx trivial)).elim
  · exact (hentries.elim (fun hx => hout _ hx trivial) (fun hx => hout _ hx trivial)).elim

theorem tracked_more (h : Tracked F s) {more : List (Task Id Entry)}
    (hmore : ∀ task ∈ more, ¬ task.InWrite) : Tracked F { s with tasks := s.tasks ++ more } := by
  have hold : ∀ x ∈ s.tasks ++ more, x.InWrite → x ∈ s.tasks := by
    intro x hx hin
    exact (List.mem_append.1 hx).resolve_right fun hx => hmore x hx hin
  refine ⟨h.keyed, h.ended, fun id => ?_, fun delta hdelta => ?_, fun delta hdelta => ?_,
    fun entries hentries => ?_, fun entries hentries => ?_, fun entries hentries => ?_⟩
  · refine (h.agrees id).imp_right (Or.imp_left (And.imp_right ?_))
    rintro ⟨x, hx, hc⟩
    exact ⟨x, List.mem_append_left _ hx, hc⟩
  · exact h.delta delta (hdelta.imp (fun hx => hold _ hx trivial) (fun hx => hold _ hx trivial))
  · exact h.appended delta (hold _ hdelta trivial)
  · exact h.entries entries (hentries.imp (fun hx => hold _ hx trivial) (fun hx => hold _ hx trivial))
  · exact h.truncating entries (hold _ hentries trivial)
  · exact h.truncated entries (hold _ hentries trivial)

theorem tracked_flush (h : Tracked F s) : Tracked F s.flush := by
  unfold State.flush
  split
  · exact h
  · apply tracked_more h
    intro task htask
    rw [List.mem_singleton.1 htask]
    exact id

theorem entries_reclaim {m : Memory Id Entry} {stale : Entry → Bool}
    (h : m.entries.entries.any (fun e => stale e.2) = false) :
    (m.reclaimTombstones stale).entries = m.entries := by
  ext1
  refine List.filter_eq_self.2 fun e he => ?_
  rw [Bool.not_eq_true']
  exact Bool.eq_false_iff.2 fun hs => Bool.eq_false_iff.1 h (List.any_eq_true.2 ⟨e, he, hs⟩)

theorem tracked_compact (h : Tracked F s) (stale : Entry → Bool)
    (hapart : WritesApart s (.compact stale)) :
    Tracked F { s with
      memory := s.memory.reclaimTombstones stale, tasks := s.tasks ++ [.folding] } := by
  have hmore : ∀ task ∈ [(Task.folding : Task Id Entry)], ¬ task.InWrite := by
    intro task htask
    rw [List.mem_singleton.1 htask]
    exact id
  have hfolded := tracked_more h hmore
  cases hstale : s.memory.entries.entries.any (fun e => stale e.2) with
  | false =>
      have hsame : s.memory.reclaimTombstones stale = s.memory := by
        change { s.memory with entries := (s.memory.reclaimTombstones stale).entries } = s.memory
        rw [entries_reclaim hstale]
      rw [hsame]
      exact hfolded
  | true =>
      have hout : ∀ task ∈ s.tasks ++ [.folding], task.InWrite → False := by
        intro task htask
        rcases List.mem_append.1 htask with htask | htask
        · exact hapart hstale task htask
        · exact hmore task htask
      refine ⟨fun id e he => h.keyed id e (get_reclaim he), h.ended, fun id => ?_,
        fun delta hdelta => ?_, fun delta hdelta => (hout _ hdelta trivial).elim,
        fun entries hentries => ?_, fun entries hentries => (hout _ hentries trivial).elim,
        fun entries hentries => (hout _ hentries trivial).elim⟩
      · cases hget : (s.memory.reclaimTombstones stale).entries.get id with
        | none =>
            exact Or.inr (Or.inl ⟨rfl, .folding, List.mem_append_right _ List.mem_cons_self, trivial⟩)
        | some e =>
            have hold := get_reclaim hget
            rcases h.agrees id with hdirty | ⟨hnone, -⟩ | hid
            · exact Or.inl hdirty
            · cases hnone.symm.trans hold
            · exact Or.inr (Or.inr (hid.trans hold))
      · exact (hdelta.elim (fun hx => hout _ hx trivial) (fun hx => hout _ hx trivial)).elim
      · exact (hentries.elim (fun hx => hout _ hx trivial) (fun hx => hout _ hx trivial)).elim

end Mutation

theorem tracked_step (h : Tracked F s) (hapart : WritesApart s e) (hstep : step F s e = some t) :
    Tracked F t := by
  cases e with
  | mutate r => exact Option.some.inj hstep ▸ tracked_mutate h r hapart
  | save =>
      obtain rfl := Option.some.inj hstep
      split
      · exact h
      · exact tracked_flush h
  | flush => exact Option.some.inj hstep ▸ tracked_flush h
  | compact stale =>
      simp only [step] at hstep
      split at hstep
      · exact Option.some.inj hstep ▸ h
      · exact Option.some.inj hstep ▸ tracked_compact h stale hapart
  | suspendSaves | resumeSaves =>
      obtain rfl := Option.some.inj hstep
      exact ⟨h.keyed, h.ended, h.agrees, h.delta, h.appended, h.entries, h.truncating, h.truncated⟩
  | advance i =>
      simp only [step] at hstep
      split at hstep
      · cases hstep
      · rename_i task hi
        exact Option.some.inj hstep ▸ tracked_turn h (mem_iff_eraseIdx hi)

theorem tracked_opened (before journalled : List (JournalRecord Id Entry)) :
    Tracked F (opened F before journalled) := by
  have hempty : Keyed F (JsMap.empty : JsMap Id Entry) := by
    intro id e he
    rw [JsMap.get_empty] at he
    cases he
  have htasks : ∀ x ∈ (opened F before journalled).tasks, x = .folding := by
    intro x hx
    simp only [opened] at hx
    split at hx
    · exact List.mem_singleton.1 hx
    · exact absurd hx List.not_mem_nil
  have hload : loaded F (opened F before journalled) =
      replay F (replay F .empty before) journalled := by
    simp [loaded, opened]
  refine ⟨keyed_replay (keyed_replay hempty), ended_text journalled, fun id => ?_,
    fun delta hdelta => ?_, (fun delta hdelta => by cases htasks _ hdelta),
    fun entries hentries => ?_, (fun entries hentries => by cases htasks _ hentries),
    (fun entries hentries => by cases htasks _ hentries)⟩
  · rw [hload]
    exact Or.inr (Or.inr rfl)
  · exact hdelta.elim (fun hx => by cases htasks _ hx) (fun hx => by cases htasks _ hx)
  · exact hentries.elim (fun hx => by cases htasks _ hx) (fun hx => by cases htasks _ hx)

/-- When no task is left and nothing is dirty, a load yields the entries of the session, as long
as no entry changed while a write was under way. -/
theorem quiet_loads {before journalled : List (JournalRecord Id Entry)}
    {events : List (Event Id Entry)}
    (hapart : Along (step F) WritesApart (opened F before journalled) events)
    (hrun : run (step F) (opened F before journalled) events = some s) (htasks : s.tasks = [])
    (hclean : s.memory.dirtyIds = []) (id : Id) :
    (loaded F s).get id = s.memory.entries.get id := by
  have htracked : Tracked F s := invariant_of_run (fun s e t h hc ht => tracked_step h hc ht)
    (tracked_opened before journalled) hapart hrun
  rcases htracked.agrees id with hdirty | ⟨-, x, hx, -⟩ | hid
  · exact absurd (hclean ▸ hdirty) List.not_mem_nil
  · exact absurd (htasks ▸ hx) List.not_mem_nil
  · exact hid

end Tracked

section Example

/-- Two saves overlap, and each of them goes on to fold the journal into the snapshot. -/
def twoSaves : List (Event SampleId SampleId) :=
  [.mutate (.upsert .a), .save, .advance 0, .save, .advance 1] ++ List.replicate 12 (.advance 0)

theorem quiet_loads_example : ∃ s,
    run (step sampleFormat) (opened sampleFormat [] []) twoSaves = some s ∧
      s.memory.entries.get .a = some .a ∧
        ∀ id, (loaded sampleFormat s).get id = s.memory.entries.get id := by
  have hadvances : ∀ (n : Nat) (s : State SampleId SampleId),
      Along (step sampleFormat) WritesApart s (List.replicate n (.advance 0)) := by
    intro n
    induction n with
    | zero => exact fun _ => trivial
    | succ n ih => exact fun _ => ⟨trivial, fun t _ => ih t⟩
  have hapart : Along (step sampleFormat) WritesApart (opened sampleFormat [] []) twoSaves :=
    ⟨fun _ hx => absurd hx List.not_mem_nil, fun _ _ => ⟨trivial, fun _ _ => ⟨trivial, fun _ _ =>
      ⟨trivial, fun _ _ => ⟨trivial, fun t _ => hadvances 12 t⟩⟩⟩⟩⟩
  exact ⟨_, rfl, by decide, quiet_loads hapart rfl rfl rfl⟩

/-- An entry changes while the append of another one is in flight, and is never written. -/
theorem mutation_lost : ∃ s,
    run (step sampleFormat) (opened sampleFormat [] [])
        [.suspendSaves, .mutate (.upsert .a), .flush, .advance 0, .mutate (.upsert .b), .advance 0,
          .advance 0] = some s ∧
      s.tasks = [] ∧ s.memory.dirtyIds = [] ∧ s.memory.entries.get .b = some .b ∧
        (loaded sampleFormat s).get .b = none :=
  ⟨_, rfl, rfl, rfl, by decide, by decide⟩

end Example

end OpsBlobs.RegistryTasks
