import OpsBlobs.EventRun
import OpsBlobs.JsMap
import OpsBlobs.LineJournal

namespace OpsBlobs.RegistryJournal

open LineJournal EventRun

/-- A line of the journal: an entry as it now is, or the id of one that is gone. -/
inductive JournalRecord (Id Entry : Type)
  | upsert (e : Entry)
  | del (id : Id)
  deriving DecidableEq, Repr

/-- How entries are written. Starts of several records on one line are not a record. -/
structure EntryFormat (Id Entry : Type) [DecidableEq Id] where
  id : Entry → Id
  codec : Codec (JournalRecord Id Entry)
  parse_glued : ∀ pieces : List (List Char), 2 ≤ pieces.length →
    (∀ p ∈ pieces, p ≠ [] ∧ ∃ r, p <+: codec.stringify r) → codec.parse pieces.flatten = none
  snapshotJson : JsMap Id Entry → List Char

/-- The length that the code reads off a string. -/
def utf16Length (text : List Char) : Nat :=
  (text.map (fun c => if c.toNat < 0x10000 then 1 else 2)).sum

/-- The write in flight. -/
inductive Writing (Id Entry : Type)
  | nothing
  | journal (delta : List (JournalRecord Id Entry))
  | snapshot
  | truncation
  deriving DecidableEq, Repr

structure Memory (Id Entry : Type) [DecidableEq Id] where
  entries : JsMap Id Entry
  dirtyIds : List Id
  deferSave : Bool
  journalBytes : Nat
  journalRecords : Nat
  snapshotBytes : Nat
  writing : Writing Id Entry

/-- The files outlive the memory. `since` are the states that an id has had since, and with,
the one that its last resolved save recorded. -/
structure State (Id Entry : Type) [DecidableEq Id] where
  snapshot : Option (JsMap Id Entry)
  journal : List Char
  memory : Option (Memory Id Entry)
  since : Id → List (Option Entry)

inductive Event (Id Entry : Type)
  | mutate (r : JournalRecord Id Entry)
  | suspendSaves
  | resumeSaves
  | flush
  | compact (stale : Entry → Bool)
  | written
  | crash (torn : Nat) (landed : Bool)
  | load

section Machine

variable {Id Entry : Type} [DecidableEq Id] (F : EntryFormat Id Entry)

def JournalRecord.id : JournalRecord Id Entry → Id
  | .upsert e => F.id e
  | .del id => id

def JournalRecord.state : JournalRecord Id Entry → Option Entry
  | .upsert e => some e
  | .del _ => none

def JournalRecord.apply (m : JsMap Id Entry) : JournalRecord Id Entry → JsMap Id Entry
  | .upsert e => m.set (F.id e) e
  | .del id => m.delete id

/-- The last writer of an id wins. -/
def replay (m : JsMap Id Entry) (l : List (JournalRecord Id Entry)) : JsMap Id Entry :=
  l.foldl (JournalRecord.apply F) m

namespace Memory

variable (m : Memory Id Entry)

def mutate (r : JournalRecord Id Entry) : Memory Id Entry :=
  { m with
    entries := r.apply F m.entries
    dirtyIds := if r.id F ∈ m.dirtyIds then m.dirtyIds else m.dirtyIds ++ [r.id F] }

def recordOf (id : Id) : JournalRecord Id Entry :=
  match m.entries.get id with
  | some e => .upsert e
  | none => .del id

def delta : List (JournalRecord Id Entry) := m.dirtyIds.map m.recordOf

def appended (delta : List (JournalRecord Id Entry)) : Memory Id Entry :=
  { m with
    dirtyIds := []
    journalBytes := m.journalBytes + utf16Length (text F.codec delta)
    journalRecords := m.journalRecords + delta.length }

def shouldCompact : Bool :=
  m.snapshotBytes < m.journalBytes ∨ max 1000 (2 * m.entries.entries.length) < m.journalRecords

/-- Tombstones past their horizon are dropped. -/
def reclaimTombstones (stale : Entry → Bool) : Memory Id Entry :=
  { m with entries := ⟨m.entries.entries.filter (fun e => !stale e.2),
      m.entries.nodup.sublist (List.filter_sublist.map _)⟩ }

def truncated : Memory Id Entry where
  entries := m.entries
  dirtyIds := []
  deferSave := m.deferSave
  journalBytes := 0
  journalRecords := 0
  snapshotBytes := utf16Length (F.snapshotJson m.entries)
  writing := .nothing

end Memory

def loaded (s : State Id Entry) : JsMap Id Entry :=
  replay F (s.snapshot.getD .empty) (records F.codec s.journal)

/-- A journal that outgrew the snapshot is folded into it at once. -/
def load (s : State Id Entry) : Memory Id Entry :=
  let m : Memory Id Entry :=
    { entries := loaded F s
      dirtyIds := []
      deferSave := false
      journalBytes := utf16Length s.journal
      journalRecords := (records F.codec s.journal).length
      snapshotBytes := (s.snapshot.map (fun m => utf16Length (F.snapshotJson m))).getD 0
      writing := .nothing }
  { m with writing := if 0 < m.journalRecords ∧ m.shouldCompact then .snapshot else .nothing }

/-- A torn append leaves some of its characters; any other write happens or does not. -/
def crashed (s : State Id Entry) (m : Memory Id Entry) (torn : Nat) (landed : Bool) : State Id Entry :=
  match m.writing with
  | .nothing => { s with memory := none }
  | .journal delta =>
      { s with memory := none, journal := s.journal ++ (text F.codec delta).take torn }
  | .snapshot =>
      { s with memory := none, snapshot := if landed then some m.entries else s.snapshot }
  | .truncation => { s with memory := none, journal := if landed then [] else s.journal }

/-- The append is done: the flush resolves, unless it goes on to compact. -/
def flushed (s : State Id Entry) (m : Memory Id Entry) (delta : List (JournalRecord Id Entry)) :
    State Id Entry :=
  let m' := m.appended F delta
  if !m'.deferSave && m'.shouldCompact then
    { s with
      journal := s.journal ++ text F.codec delta
      memory := some { m' with writing := .snapshot } }
  else
    { s with
      journal := s.journal ++ text F.codec delta
      memory := some { m' with writing := .nothing }
      since := fun id =>
        if id ∈ delta.map (JournalRecord.id F) then [m.entries.get id] else s.since id }

def idle (s : State Id Entry) (m : Memory Id Entry) : Event Id Entry → Option (State Id Entry)
  | .mutate r => some { s with
      memory := some (m.mutate F r)
      since := fun id => if id = r.id F then s.since id ++ [r.state] else s.since id }
  | .suspendSaves => some { s with memory := some { m with deferSave := true } }
  | .resumeSaves => some { s with memory := some { m with deferSave := false } }
  | .flush =>
      if m.dirtyIds = [] then some s
      else some { s with memory := some { m with writing := .journal m.delta } }
  | .compact stale =>
      if m.journalRecords = 0 ∧ m.entries.entries.all (fun e => !stale e.2) then some s
      else some { s with
        memory := some { m.reclaimTombstones stale with writing := .snapshot }
        since := fun id =>
          s.since id ++ if ((m.reclaimTombstones stale).entries.get id).isNone then [none] else [] }
  | _ => none

/-- The operations run one after the other; a write is done or cut short. -/
def step (s : State Id Entry) (e : Event Id Entry) : Option (State Id Entry) :=
  match s.memory, e with
  | none, .load => some { s with memory := some (load F s) }
  | some m, .crash torn landed => some (crashed F s m torn landed)
  | some m, e =>
      match m.writing, e with
      | .nothing, e => idle F s m e
      | .journal delta, .written => some (flushed F s m delta)
      | .snapshot, .written => some { s with
          snapshot := some m.entries, memory := some { m with writing := .truncation } }
      | .truncation, .written => some { s with
          journal := []
          memory := some (m.truncated F)
          since := fun id => [m.entries.get id] }
      | _, _ => none
  | none, _ => none

/-- No file was ever written. -/
def fresh : State Id Entry where
  snapshot := none
  journal := []
  memory := some ⟨.empty, [], false, 0, 0, 0, .nothing⟩
  since := fun _ => [none]

end Machine

section Steps

variable {Id Entry : Type} [DecidableEq Id]

inductive Steps (F : EntryFormat Id Entry) (s : State Id Entry) : Event Id Entry → State Id Entry → Prop
  | mutate {m : Memory Id Entry} {r : JournalRecord Id Entry} (hm : s.memory = some m)
      (hw : m.writing = .nothing) :
      Steps F s (.mutate r) { s with
        memory := some (m.mutate F r)
        since := fun id => if id = r.id F then s.since id ++ [r.state] else s.since id }
  | defer {m : Memory Id Entry} {e : Event Id Entry} {deferSave : Bool} (hm : s.memory = some m)
      (hw : m.writing = .nothing) :
      Steps F s e { s with memory := some { m with deferSave := deferSave } }
  | skip {e : Event Id Entry} : Steps F s e s
  | flush {m : Memory Id Entry} (hm : s.memory = some m) (hw : m.writing = .nothing)
      (hdirty : m.dirtyIds ≠ []) :
      Steps F s .flush { s with memory := some { m with writing := .journal m.delta } }
  | compact {m : Memory Id Entry} {stale : Entry → Bool} (hm : s.memory = some m)
      (hw : m.writing = .nothing) :
      Steps F s (.compact stale) { s with
        memory := some { m.reclaimTombstones stale with writing := .snapshot }
        since := fun id => s.since id ++
          if ((m.reclaimTombstones stale).entries.get id).isNone then [none] else [] }
  | flushed {m : Memory Id Entry} {delta : List (JournalRecord Id Entry)} (hm : s.memory = some m)
      (hw : m.writing = .journal delta) : Steps F s .written (flushed F s m delta)
  | snapshot {m : Memory Id Entry} (hm : s.memory = some m) (hw : m.writing = .snapshot) :
      Steps F s .written { s with
        snapshot := some m.entries, memory := some { m with writing := .truncation } }
  | truncation {m : Memory Id Entry} (hm : s.memory = some m) (hw : m.writing = .truncation) :
      Steps F s .written { s with
        journal := []
        memory := some (m.truncated F)
        since := fun id => [m.entries.get id] }
  | crash {m : Memory Id Entry} {torn : Nat} {landed : Bool} (hm : s.memory = some m) :
      Steps F s (.crash torn landed) (crashed F s m torn landed)
  | load (hm : s.memory = none) : Steps F s .load { s with memory := some (load F s) }

variable {F : EntryFormat Id Entry} {s t : State Id Entry} {e : Event Id Entry}

theorem steps_of_idle {m : Memory Id Entry} (hm : s.memory = some m) (hw : m.writing = .nothing)
    (h : idle F s m e = some t) : Steps F s e t := by
  cases e with
  | mutate r => exact Option.some.inj h ▸ .mutate hm hw
  | suspendSaves | resumeSaves => exact Option.some.inj h ▸ .defer hm hw
  | flush =>
      simp only [idle] at h
      split at h
      · exact Option.some.inj h ▸ .skip
      · rename_i hdirty
        exact Option.some.inj h ▸ .flush hm hw hdirty
  | compact stale =>
      simp only [idle] at h
      split at h
      · exact Option.some.inj h ▸ .skip
      · exact Option.some.inj h ▸ .compact hm hw
  | written | crash | load => cases h

theorem steps_of_step (h : step F s e = some t) : Steps F s e t := by
  cases hm : s.memory with
  | none =>
      cases e with
      | load =>
          simp only [step, hm] at h
          exact Option.some.inj h ▸ .load hm
      | _ =>
          simp only [step, hm] at h
          cases h
  | some m =>
      cases e with
      | crash torn landed =>
          simp only [step, hm] at h
          exact Option.some.inj h ▸ .crash hm
      | written =>
          cases hw : m.writing with
          | nothing =>
              simp only [step, hm, hw] at h
              cases h
          | journal delta =>
              simp only [step, hm, hw] at h
              exact Option.some.inj h ▸ .flushed hm hw
          | snapshot =>
              simp only [step, hm, hw] at h
              exact Option.some.inj h ▸ .snapshot hm hw
          | truncation =>
              simp only [step, hm, hw] at h
              exact Option.some.inj h ▸ .truncation hm hw
      | _ =>
          cases hw : m.writing with
          | nothing =>
              simp only [step, hm, hw] at h
              exact steps_of_idle hm hw h
          | _ =>
              simp only [step, hm, hw] at h
              cases h

end Steps

section Replay

variable {Id Entry : Type} [DecidableEq Id] {F : EntryFormat Id Entry} {m : JsMap Id Entry} {id : Id}
  {l l' : List (JournalRecord Id Entry)} {r : JournalRecord Id Entry} {x : Option Entry}

/-- What the last record of an id says about it. -/
def lastState (F : EntryFormat Id Entry) (id : Id) : List (JournalRecord Id Entry) →
    Option (Option Entry)
  | [] => none
  | r :: rest => (lastState F id rest).or (if r.id F = id then some r.state else none)

theorem get_apply : (r.apply F m).get id = if r.id F = id then r.state else m.get id := by
  cases r with
  | upsert e => exact JsMap.get_set m (F.id e) id e
  | del gone => exact JsMap.get_delete m gone id

theorem get_replay : (replay F m l).get id = (lastState F id l).getD (m.get id) := by
  induction l generalizing m with
  | nil => rfl
  | cons r rest ih =>
      rw [replay, List.foldl_cons]
      refine ih.trans ?_
      rw [get_apply, lastState]
      cases hl : lastState F id rest with
      | some x => rfl
      | none => by_cases hr : r.id F = id <;> simp [hr]

theorem lastState_append : lastState F id (l ++ l') = (lastState F id l').or (lastState F id l) := by
  induction l with
  | nil => exact (Option.or_none).symm
  | cons r rest ih => rw [List.cons_append, lastState, ih, lastState, Option.or_assoc]

theorem mem_of_lastState (h : lastState F id l = some x) : ∃ r ∈ l, r.id F = id ∧ r.state = x := by
  induction l with
  | nil => cases h
  | cons r rest ih =>
      rw [lastState] at h
      rcases Option.or_eq_some_iff.1 h with h | ⟨-, h⟩
      · obtain ⟨r', hmem, hr'⟩ := ih h
        exact ⟨r', List.mem_cons_of_mem r hmem, hr'⟩
      · split at h
        · rename_i hid
          exact ⟨r, List.mem_cons_self, hid, Option.some.inj h⟩
        · cases h

theorem lastState_eq_none_iff : lastState F id l = none ↔ ∀ r ∈ l, r.id F ≠ id := by
  induction l with
  | nil => simp [lastState]
  | cons r rest ih =>
      rw [lastState, Option.or_eq_none_iff, ih, List.forall_mem_cons, and_comm]
      simp

/-- Each entry is filed under its own id. -/
def Keyed (F : EntryFormat Id Entry) (m : JsMap Id Entry) : Prop :=
  ∀ id e, m.get id = some e → F.id e = id

theorem keyed_apply (h : Keyed F m) : Keyed F (r.apply F m) := by
  intro id e he
  rw [get_apply] at he
  split at he
  · rename_i hid
    cases r with
    | upsert e' => exact Option.some.inj he ▸ hid
    | del gone => cases he
  · exact h id e he

theorem keyed_replay (h : Keyed F m) : Keyed F (replay F m l) := by
  induction l generalizing m with
  | nil => exact h
  | cons r rest ih => exact ih (keyed_apply h)

end Replay

section Sample

inductive SampleId
  | a
  | b
  deriving DecidableEq, Repr

def sampleLine : JournalRecord SampleId SampleId → List Char
  | .upsert .a => "\x7b\"id\":\"a\"\x7d".toList
  | .upsert .b => "\x7b\"id\":\"b\"\x7d".toList
  | .del .a => "\x7b\"del\":\"a\"\x7d".toList
  | .del .b => "\x7b\"del\":\"b\"\x7d".toList

def sampleRecords : List (JournalRecord SampleId SampleId) :=
  [.upsert .a, .upsert .b, .del .a, .del .b]

def parseSample (line : List Char) : Option (JournalRecord SampleId SampleId) :=
  sampleRecords.find? (fun r => sampleLine r = line)

theorem mem_sampleRecords (r : JournalRecord SampleId SampleId) : r ∈ sampleRecords := by
  cases r with
  | upsert e => cases e <;> decide
  | del id => cases id <;> decide

theorem sampleLine_of_parse {line : List Char} {r : JournalRecord SampleId SampleId}
    (h : parseSample line = some r) : sampleLine r = line := by
  have hfound := List.find?_some (p := fun r => decide (sampleLine r = line)) h
  exact of_decide_eq_true hfound

def sampleCodec : Codec (JournalRecord SampleId SampleId) where
  stringify := sampleLine
  parse := parseSample
  newline_notMem := by
    have h : ∀ r ∈ sampleRecords, '\n' ∉ sampleLine r := by decide
    exact fun r => h r (mem_sampleRecords r)
  stringify_ne_nil := by
    have h : ∀ r ∈ sampleRecords, sampleLine r ≠ [] := by decide
    exact fun r => h r (mem_sampleRecords r)
  parse_stringify := by
    have h : ∀ r ∈ sampleRecords, parseSample (sampleLine r) = some r := by decide
    exact fun r => h r (mem_sampleRecords r)
  parse_torn := by
    intro r torn htorn hne
    have h : ∀ r ∈ sampleRecords, ∀ r' ∈ sampleRecords, sampleLine r' <+: sampleLine r →
        sampleLine r' = sampleLine r := by decide
    cases hparse : parseSample torn with
    | none => rfl
    | some r' =>
        have hline := sampleLine_of_parse hparse
        subst hline
        exact absurd (h r (mem_sampleRecords r) r' (mem_sampleRecords r') htorn) hne

/-- Every start of a record opens a brace, and a record opens one. -/
theorem length_le_count {pieces : List (List Char)}
    (h : ∀ p ∈ pieces, p ≠ [] ∧ ∃ r, p <+: sampleCodec.stringify r) :
    pieces.length ≤ pieces.flatten.count '\x7b' := by
  induction pieces with
  | nil => exact Nat.le_refl _
  | cons p rest ih =>
      obtain ⟨hne, r, hr⟩ := h p List.mem_cons_self
      have hrest := ih fun q hq => h q (List.mem_cons_of_mem p hq)
      have hopen : ∀ r ∈ sampleRecords, (sampleLine r).head? = some '\x7b' := by decide
      have hhead : '\x7b' ∈ p := by
        cases p with
        | nil => exact absurd rfl hne
        | cons c tail =>
            obtain ⟨more, hmore⟩ := hr
            have hline : (sampleLine r).head? = some c := congrArg List.head? hmore.symm
            have hc := (hopen r (mem_sampleRecords r)).symm.trans hline
            exact Option.some.inj hc ▸ List.mem_cons_self
      have hpos := List.count_pos_iff.2 hhead
      rw [List.flatten_cons, List.count_append, List.length_cons]
      omega

def sampleFormat : EntryFormat SampleId SampleId where
  id := fun e => e
  codec := sampleCodec
  parse_glued := by
    intro pieces h2 hpieces
    have h : ∀ r ∈ sampleRecords, (sampleLine r).count '\x7b' = 1 := by decide
    cases hparse : sampleCodec.parse pieces.flatten with
    | none => rfl
    | some r =>
        have hcount := length_le_count hpieces
        have hline : sampleLine r = pieces.flatten := sampleLine_of_parse hparse
        have hone := h r (mem_sampleRecords r)
        rw [hline] at hone
        omega
  snapshotJson m := m.keys.flatMap (fun id => sampleLine (.upsert id))

end Sample

end OpsBlobs.RegistryJournal
