import OpsBlobs.EventRun
import OpsBlobs.LineJournal
import Mathlib.Data.List.Nodup

namespace OpsBlobs.OplogJournal

open LineJournal EventRun

/-- What the persisted log reads of an op, and how it writes one. -/
structure OpFormat (Op : Type) extends Codec Op where
  id : Op → String
  fileId : Op → String
  isCreate : Op → Bool

inductive PersistKind
  | append
  | rewrite
  deriving DecidableEq, Repr

/-- A persist in the queue, with the pending ops that its caller waits for. -/
structure Persist (Op : Type) where
  kind : PersistKind
  covers : List Op
  deriving DecidableEq, Repr

/-- Where the running persist stands: its write in flight, the directory of a rewrite being
made, or the clock being saved after the write. -/
inductive Phase (Op : Type)
  | appending (delta : List Op)
  | opening
  | rewriting (ops : List Op)
  | finishing
  deriving DecidableEq, Repr

/-- `read` are the pending ops as the persist read them, `found` what the journal held when
it began. -/
structure Running (Op : Type) where
  persist : Persist Op
  phase : Phase Op
  read : List Op
  found : List Op
  deriving DecidableEq, Repr

structure Memory (Op : Type) where
  pendingOps : List Op
  persistedCount : Nat
  queue : List (Persist Op)
  running : Option (Running Op)
  deriving DecidableEq, Repr

/-- The journal outlives the memory. `recorded` are all the ops ever recorded, `acked` those
whose persist resolved and that were not cleared or pruned since. -/
structure State (Op : Type) where
  journal : List Char
  memory : Option (Memory Op)
  recorded : List Op
  acked : List Op
  deriving DecidableEq, Repr

inductive Event (Op : Type)
  | push (op : Op)
  | recordOp (op : Op)
  | appendOpLog
  | clearOps
  | pruneCreateDeletePair (fileId : String)
  | start
  | read
  | written
  | fail
  | resolve
  | crash (torn : Nat) (landed : Bool)
  | load
  deriving DecidableEq, Repr

section Machine

variable {Op : Type} (F : OpFormat Op)

/-- The first op of each id, in order. -/
def firstById (seen : List String) : List Op → List Op
  | [] => []
  | op :: rest =>
      if F.id op ∈ seen then firstById seen rest else op :: firstById (F.id op :: seen) rest

def loadOps (journal : List Char) : List Op := firstById F [] (records F.toCodec journal)

namespace Memory

variable (m : Memory Op)

def enqueue (kind : PersistKind) : Memory Op :=
  { m with queue := m.queue ++ [⟨kind, m.pendingOps⟩] }

def push (op : Op) : Memory Op := { m with pendingOps := m.pendingOps ++ [op] }

/-- Nobody waits any more for an op that is dropped. -/
def shrink (keep : Op → Bool) : Memory Op where
  pendingOps := m.pendingOps.filter keep
  persistedCount := m.persistedCount
  queue := m.queue.map (fun p => { p with covers := p.covers.filter keep })
  running := m.running.map (fun r =>
    { r with persist := { r.persist with covers := r.persist.covers.filter keep } })

def unwritten : List Op := m.pendingOps.drop m.persistedCount

/-- An append reads its delta at once, a rewrite only when the directory is there. -/
def begin (journal : List Char) (p : Persist Op) : Running Op where
  persist := p
  phase :=
    match p.kind with
    | .append =>
        match m.unwritten with
        | [] => .finishing
        | op :: rest => .appending (op :: rest)
    | .rewrite => .opening
  read := m.pendingOps
  found := records F.toCodec journal

end Memory

/-- A torn append leaves some of its characters; a rewrite happens or does not. -/
def crashed (journal : List Char) (torn : Nat) (landed : Bool) : Option (Running Op) → List Char
  | some ⟨_, .appending delta, _, _⟩ => journal ++ (text F.toCodec delta).take torn
  | some ⟨_, .rewriting ops, _, _⟩ => if landed then text F.toCodec ops else journal
  | _ => journal

/-- A journal with duplicates is written anew. -/
def load (s : State Op) : State Op where
  journal :=
    if (loadOps F s.journal).length < (records F.toCodec s.journal).length then
      text F.toCodec (loadOps F s.journal)
    else s.journal
  memory := some ⟨loadOps F s.journal, (loadOps F s.journal).length, [], none⟩
  recorded := s.recorded
  acked := s.acked

def State.shrink (s : State Op) (m : Memory Op) (keep : Op → Bool) : State Op :=
  { s with memory := some ((m.shrink keep).enqueue .rewrite), acked := s.acked.filter keep }

def stepMemory (s : State Op) (m : Memory Op) : Event Op → Option (State Op)
  | .push op =>
      if F.id op ∈ s.recorded.map F.id then none
      else some { s with memory := some (m.push op), recorded := s.recorded ++ [op] }
  | .recordOp op =>
      if F.id op ∈ s.recorded.map F.id then none
      else some { s with
        memory := some ((m.push op).enqueue .append), recorded := s.recorded ++ [op] }
  | .appendOpLog => some { s with memory := some (m.enqueue .append) }
  | .clearOps => some (s.shrink m (fun _ => false))
  | .pruneCreateDeletePair fileId =>
      if m.pendingOps.any (fun op => F.fileId op = fileId && F.isCreate op) then
        some (s.shrink m (fun op => F.fileId op ≠ fileId))
      else none
  | .start =>
      match m.running, m.queue with
      | none, p :: rest => some { s with
          memory := some { m with queue := rest, running := some (m.begin F s.journal p) } }
      | _, _ => none
  | .read =>
      match m.running with
      | some ⟨p, .opening, _, found⟩ => some { s with
          memory := some { m with
            running := some ⟨p, .rewriting m.pendingOps, m.pendingOps, found⟩ } }
      | _ => none
  | .written =>
      match m.running with
      | some ⟨p, .appending delta, read, found⟩ => some { s with
          journal := s.journal ++ text F.toCodec delta
          memory := some { m with
            persistedCount := m.persistedCount + delta.length
            running := some ⟨p, .finishing, read, found⟩ } }
      | some ⟨p, .rewriting ops, read, found⟩ => some { s with
          journal := text F.toCodec ops
          memory := some { m with
            persistedCount := ops.length
            running := some ⟨p, .finishing, read, found⟩ } }
      | _ => none
  | .fail =>
      match m.running with
      | some _ => some { s with memory := some { m with running := none } }
      | none => none
  | .resolve =>
      match m.running with
      | some ⟨p, .finishing, _, _⟩ => some { s with
          memory := some { m with running := none }, acked := s.acked ++ p.covers }
      | _ => none
  | .crash torn landed =>
      some { s with journal := crashed F s.journal torn landed m.running, memory := none }
  | .load => none

/-- An op is recorded under an id of its own; the queue runs one persist at a time. -/
def step (s : State Op) (e : Event Op) : Option (State Op) :=
  match s.memory, e with
  | some m, e => stepMemory F s m e
  | none, .load => some (load F s)
  | none, _ => none

/-- A session that opened a journal of the given ops. -/
def opened (ops : List Op) : State Op where
  journal := text F.toCodec ops
  memory := some ⟨ops, ops.length, [], none⟩
  recorded := ops
  acked := ops

end Machine

section Steps

variable {Op : Type}

/-- What each event does, with what it takes for it to happen. -/
inductive Steps (F : OpFormat Op) (s : State Op) : Event Op → State Op → Prop
  | push {m : Memory Op} {op : Op} (hm : s.memory = some m)
      (hid : F.id op ∉ s.recorded.map F.id) :
      Steps F s (.push op) { s with memory := some (m.push op), recorded := s.recorded ++ [op] }
  | recordOp {m : Memory Op} {op : Op} (hm : s.memory = some m)
      (hid : F.id op ∉ s.recorded.map F.id) :
      Steps F s (.recordOp op)
        { s with memory := some ((m.push op).enqueue .append), recorded := s.recorded ++ [op] }
  | appendOpLog {m : Memory Op} (hm : s.memory = some m) :
      Steps F s .appendOpLog { s with memory := some (m.enqueue .append) }
  | clearOps {m : Memory Op} (hm : s.memory = some m) :
      Steps F s .clearOps (s.shrink m (fun _ => false))
  | prune {m : Memory Op} {fileId : String} (hm : s.memory = some m) :
      Steps F s (.pruneCreateDeletePair fileId) (s.shrink m (fun op => F.fileId op ≠ fileId))
  | start {m : Memory Op} {p : Persist Op} {rest : List (Persist Op)} (hm : s.memory = some m)
      (hr : m.running = none) (hq : m.queue = p :: rest) :
      Steps F s .start { s with
        memory := some { m with queue := rest, running := some (m.begin F s.journal p) } }
  | read {m : Memory Op} {p : Persist Op} {read found : List Op} (hm : s.memory = some m)
      (hr : m.running = some ⟨p, .opening, read, found⟩) :
      Steps F s .read { s with
        memory := some { m with
          running := some ⟨p, .rewriting m.pendingOps, m.pendingOps, found⟩ } }
  | appended {m : Memory Op} {p : Persist Op} {delta read found : List Op}
      (hm : s.memory = some m) (hr : m.running = some ⟨p, .appending delta, read, found⟩) :
      Steps F s .written { s with
        journal := s.journal ++ text F.toCodec delta
        memory := some { m with
          persistedCount := m.persistedCount + delta.length
          running := some ⟨p, .finishing, read, found⟩ } }
  | rewritten {m : Memory Op} {p : Persist Op} {ops read found : List Op}
      (hm : s.memory = some m) (hr : m.running = some ⟨p, .rewriting ops, read, found⟩) :
      Steps F s .written { s with
        journal := text F.toCodec ops
        memory := some { m with
          persistedCount := ops.length
          running := some ⟨p, .finishing, read, found⟩ } }
  | fail {m : Memory Op} {r : Running Op} (hm : s.memory = some m) (hr : m.running = some r) :
      Steps F s .fail { s with memory := some { m with running := none } }
  | resolve {m : Memory Op} {p : Persist Op} {read found : List Op} (hm : s.memory = some m)
      (hr : m.running = some ⟨p, .finishing, read, found⟩) :
      Steps F s .resolve { s with
        memory := some { m with running := none }, acked := s.acked ++ p.covers }
  | crash {m : Memory Op} {torn : Nat} {landed : Bool} (hm : s.memory = some m) :
      Steps F s (.crash torn landed)
        { s with journal := crashed F s.journal torn landed m.running, memory := none }
  | load (hm : s.memory = none) : Steps F s .load (load F s)

variable {F : OpFormat Op} {s t : State Op} {e : Event Op}

theorem steps_of_step (h : step F s e = some t) : Steps F s e t := by
  cases hm : s.memory with
  | none =>
      cases e with
      | load =>
          simp only [step, hm] at h
          exact Option.some.inj h ▸ .load hm
      | _ =>
          simp only [step, hm] at h
          cases h
  | some m =>
      have h : stepMemory F s m e = some t := by
        simpa only [step, hm] using h
      cases e with
      | push op =>
          simp only [stepMemory] at h
          split at h
          · cases h
          · rename_i hid
            exact Option.some.inj h ▸ .push hm hid
      | recordOp op =>
          simp only [stepMemory] at h
          split at h
          · cases h
          · rename_i hid
            exact Option.some.inj h ▸ .recordOp hm hid
      | appendOpLog => exact Option.some.inj h ▸ .appendOpLog hm
      | clearOps => exact Option.some.inj h ▸ .clearOps hm
      | pruneCreateDeletePair fileId =>
          simp only [stepMemory] at h
          split at h
          · exact Option.some.inj h ▸ .prune hm
          · cases h
      | start =>
          simp only [stepMemory] at h
          split at h
          · rename_i hr hq
            exact Option.some.inj h ▸ .start hm hr hq
          · cases h
      | read =>
          simp only [stepMemory] at h
          split at h
          · rename_i hr
            exact Option.some.inj h ▸ .read hm hr
          · cases h
      | written =>
          simp only [stepMemory] at h
          split at h
          · rename_i hr
            exact Option.some.inj h ▸ .appended hm hr
          · rename_i hr
            exact Option.some.inj h ▸ .rewritten hm hr
          · cases h
      | fail =>
          simp only [stepMemory] at h
          split at h
          · rename_i hr
            exact Option.some.inj h ▸ .fail hm hr
          · cases h
      | resolve =>
          simp only [stepMemory] at h
          split at h
          · rename_i hr
            exact Option.some.inj h ▸ .resolve hm hr
          · cases h
      | crash torn landed => exact Option.some.inj h ▸ .crash hm
      | load => cases h

end Steps

section Ids

variable {Op : Type} {F : OpFormat Op} {seen : List String} {l recorded : List Op} {op : Op}

theorem firstById_subset : firstById F seen l ⊆ l := by
  induction l generalizing seen with
  | nil => exact List.Subset.refl _
  | cons op rest ih =>
      rw [firstById]
      split
      · exact List.Subset.trans ih (List.subset_cons_self op rest)
      · exact List.cons_subset_cons op ih

theorem exists_firstById (h : op ∈ l) (hseen : F.id op ∉ seen) :
    ∃ other ∈ firstById F seen l, F.id other = F.id op := by
  induction l generalizing seen with
  | nil => exact absurd h List.not_mem_nil
  | cons first rest ih =>
      rw [firstById]
      by_cases hf : F.id first = F.id op
      · rw [if_neg (hf ▸ hseen)]
        exact ⟨first, List.mem_cons_self, hf⟩
      · have hrest : op ∈ rest := by
          rcases List.mem_cons.1 h with rfl | h
          · exact absurd rfl hf
          · exact h
        split
        · exact ih hrest hseen
        · have hseen' : F.id op ∉ F.id first :: seen :=
            fun hc => (List.mem_cons.1 hc).elim (fun hc => hf hc.symm) hseen
          obtain ⟨other, hmem, hid⟩ := ih hrest hseen'
          exact ⟨other, List.mem_cons_of_mem _ hmem, hid⟩

theorem firstById_of_nodup (h : (l.map F.id).Nodup) (hseen : ∀ op ∈ l, F.id op ∉ seen) :
    firstById F seen l = l := by
  induction l generalizing seen with
  | nil => rfl
  | cons op rest ih =>
      obtain ⟨hop, hrest⟩ := List.nodup_cons.1 h
      rw [firstById, if_neg (hseen op List.mem_cons_self), ih hrest]
      intro other hother hc
      rcases List.mem_cons.1 hc with hc | hc
      · exact hop (hc ▸ List.mem_map_of_mem hother)
      · exact hseen other (List.mem_cons_of_mem _ hother) hc

theorem eq_of_id (h : (recorded.map F.id).Nodup) {other : Op} (hop : op ∈ recorded)
    (hother : other ∈ recorded) (hid : F.id op = F.id other) : op = other :=
  List.inj_on_of_nodup_map h hop hother hid

/-- With ids of their own, no op is lost to another. -/
theorem mem_firstById (h : (recorded.map F.id).Nodup) (hl : l ⊆ recorded) :
    op ∈ firstById F [] l ↔ op ∈ l := by
  refine ⟨fun hop => firstById_subset hop, fun hop => ?_⟩
  obtain ⟨other, hother, hid⟩ := exists_firstById hop List.not_mem_nil
  have heq := eq_of_id h (hl (firstById_subset hother)) (hl hop) hid
  exact heq ▸ hother

end Ids

section Known

variable {Op : Type}

/-- What the write in flight is made of. -/
def Phase.ops : Phase Op → List Op
  | .appending delta => delta
  | .rewriting ops => ops
  | .opening | .finishing => []

/-- All that is kept anywhere was recorded, each op under an id of its own. -/
structure Known (F : OpFormat Op) (s : State Op) : Prop where
  unique : (s.recorded.map F.id).Nodup
  journal : records F.toCodec s.journal ⊆ s.recorded
  pending : ∀ m, s.memory = some m → m.pendingOps ⊆ s.recorded
  inFlight : ∀ m r, s.memory = some m → m.running = some r → r.phase.ops ⊆ s.recorded

/-- An append in flight started on a line of its own. -/
def Aligned (s : State Op) : Prop := ∀ m r delta, s.memory = some m → m.running = some r →
  r.phase = .appending delta → Ended s.journal

variable {F : OpFormat Op} {s t : State Op} {e : Event Op} {m : Memory Op}

theorem unique_concat {recorded : List Op} {op : Op} (h : (recorded.map F.id).Nodup)
    (hid : F.id op ∉ recorded.map F.id) : ((recorded ++ [op]).map F.id).Nodup := by
  rw [List.map_append, List.map_singleton]
  exact List.nodup_append.2 ⟨h, List.nodup_singleton _, fun a ha b hb hab =>
    hid (List.mem_singleton.1 hb ▸ hab ▸ ha)⟩

theorem ops_begin (journal : List Char) (p : Persist Op) :
    (m.begin F journal p).phase.ops ⊆ m.pendingOps := by
  cases hkind : p.kind with
  | rewrite =>
      simp only [Memory.begin, hkind]
      exact List.nil_subset _
  | append =>
      have hdrop : m.unwritten ⊆ m.pendingOps := List.drop_subset _ _
      cases hu : m.unwritten with
      | nil =>
          simp only [Memory.begin, hkind, hu]
          exact List.nil_subset _
      | cons op rest =>
          simp only [Memory.begin, hkind, hu]
          exact hu ▸ hdrop

theorem records_crashed (h : Known F s) (ha : Aligned s) (hm : s.memory = some m) (torn : Nat)
    (landed : Bool) :
    records F.toCodec (crashed F s.journal torn landed m.running) ⊆ s.recorded := by
  cases hr : m.running with
  | none => exact h.journal
  | some r =>
      have hops := h.inFlight m r hm hr
      obtain ⟨p, phase, read, found⟩ := r
      cases phase with
      | appending delta =>
          have hended := ha m _ delta hm hr rfl
          rw [crashed, records_append hended]
          apply List.append_subset.2 ⟨h.journal, _⟩
          exact List.Subset.trans (records_torn (List.take_prefix torn _)).subset hops
      | rewriting ops =>
          rw [crashed]
          split
          · rw [records_text]
            exact hops
          · exact h.journal
      | opening => exact h.journal
      | finishing => exact h.journal

theorem known_step (h : Known F s) (ha : Aligned s) (hs : Steps F s e t) : Known F t := by
  have hmore : ∀ op, s.recorded ⊆ s.recorded ++ [op] := fun op => List.subset_append_left _ _
  cases hs with
  | @push m op hm hid | @recordOp m op hm hid =>
      refine ⟨unique_concat h.unique hid, List.Subset.trans h.journal (hmore op), ?_, ?_⟩
      · rintro _ ⟨⟩
        exact List.append_subset.2 ⟨List.Subset.trans (h.pending m hm) (hmore op),
          List.subset_append_right _ _⟩
      · rintro _ r ⟨⟩ hr
        exact List.Subset.trans (h.inFlight m r hm hr) (hmore op)
  | @appendOpLog m hm =>
      refine ⟨h.unique, h.journal, ?_, ?_⟩
      · rintro _ ⟨⟩
        exact h.pending m hm
      · rintro _ r ⟨⟩ hr
        exact h.inFlight m r hm hr
  | @clearOps m hm | @prune m fileId hm =>
      refine ⟨h.unique, h.journal, ?_, ?_⟩
      · rintro _ ⟨⟩
        exact List.Subset.trans List.filter_sublist.subset (h.pending m hm)
      · rintro _ r ⟨⟩ hr
        obtain ⟨r', hr', rfl⟩ := Option.map_eq_some_iff.1 hr
        exact h.inFlight m r' hm hr'
  | @start m p rest hm hr hq =>
      refine ⟨h.unique, h.journal, ?_, ?_⟩
      · rintro _ ⟨⟩
        exact h.pending m hm
      · rintro _ r ⟨⟩ ⟨⟩
        exact List.Subset.trans (ops_begin _ _) (h.pending m hm)
  | @read m p read found hm hr =>
      refine ⟨h.unique, h.journal, ?_, ?_⟩
      · rintro _ ⟨⟩
        exact h.pending m hm
      · rintro _ r ⟨⟩ ⟨⟩
        exact h.pending m hm
  | @appended m p delta read found hm hr =>
      refine ⟨h.unique, ?_, ?_, ?_⟩
      · rw [records_append (ha m _ delta hm hr rfl), records_text]
        exact List.append_subset.2 ⟨h.journal, h.inFlight m _ hm hr⟩
      · rintro _ ⟨⟩
        exact h.pending m hm
      · rintro _ r ⟨⟩ ⟨⟩
        exact List.nil_subset _
  | @rewritten m p ops read found hm hr =>
      refine ⟨h.unique, ?_, ?_, ?_⟩
      · rw [records_text]
        exact h.inFlight m _ hm hr
      · rintro _ ⟨⟩
        exact h.pending m hm
      · rintro _ r ⟨⟩ ⟨⟩
        exact List.nil_subset _
  | @fail m r hm hr | @resolve m p read found hm hr =>
      refine ⟨h.unique, h.journal, ?_, ?_⟩
      · rintro _ ⟨⟩
        exact h.pending m hm
      · rintro _ r ⟨⟩ ⟨⟩
  | @crash m torn landed hm =>
      refine ⟨h.unique, records_crashed h ha hm torn landed, ?_, ?_⟩
      · rintro _ ⟨⟩
      · rintro _ r ⟨⟩
  | load hm =>
      have hload : loadOps F s.journal ⊆ s.recorded := List.Subset.trans firstById_subset h.journal
      refine ⟨h.unique, ?_, ?_, ?_⟩
      · rw [load]
        dsimp only
        split
        · rw [records_text]
          exact hload
        · exact h.journal
      · rintro _ ⟨⟩
        exact hload
      · rintro _ r ⟨⟩ ⟨⟩

theorem known_opened {ops : List Op} (hids : (ops.map F.id).Nodup) : Known F (opened F ops) := by
  refine ⟨hids, ?_, ?_, ?_⟩
  · rw [opened, records_text]
    exact List.Subset.refl _
  · rintro _ ⟨⟩
    exact List.Subset.refl _
  · rintro _ r ⟨⟩ ⟨⟩

end Known

section Sample

/-- Two ops of one file, the first of them its creation. -/
inductive SampleOp
  | create
  | update
  deriving DecidableEq, Repr

def sampleLine : SampleOp → List Char
  | .create => "\x7b\"id\":\"a\"\x7d".toList
  | .update => "\x7b\"id\":\"b\"\x7d".toList

def parseSample (line : List Char) : Option SampleOp :=
  if line = sampleLine .create then some .create
  else if line = sampleLine .update then some .update
  else none

theorem sampleLine_of_parse {line : List Char} {op : SampleOp} (h : parseSample line = some op) :
    line = sampleLine op := by
  rw [parseSample] at h
  split at h
  · cases h
    assumption
  · split at h
    · cases h
      assumption
    · cases h

theorem length_sampleLine (op : SampleOp) : (sampleLine op).length = 10 := by
  cases op <;> rfl

def sampleFormat : OpFormat SampleOp where
  stringify := sampleLine
  parse := parseSample
  newline_notMem := by
    intro op
    cases op <;> decide
  stringify_ne_nil := by
    intro op
    cases op <;> decide
  parse_stringify := by
    intro op
    cases op <;> decide
  parse_torn := by
    intro op torn htorn hne
    cases h : parseSample torn with
    | none => rfl
    | some other =>
        have hlen : torn.length = (sampleLine op).length := by
          rw [sampleLine_of_parse h, length_sampleLine, length_sampleLine]
        exact absurd (htorn.eq_of_length hlen) hne
  id
    | .create => "a"
    | .update => "b"
  fileId := fun _ => "f"
  isCreate op := op = .create

end Sample

end OpsBlobs.OplogJournal
