import OpsBlobs.HlcSession
import OpsBlobs.Operations

namespace OpsBlobs.OpIdentity

open Types Hlc HlcSession Operations EventRun

section Ids

theorem append_cons_inj {α : Type} {c : α} {l l' rest rest' : List α} (hl : c ∉ l) (hl' : c ∉ l')
    (h : l ++ c :: rest = l' ++ c :: rest') : l = l' ∧ rest = rest' := by
  induction l generalizing l' with
  | nil =>
      cases l' with
      | nil => exact ⟨rfl, (List.cons.inj h).2⟩
      | cons a l' => exact absurd ((List.cons.inj h).1 ▸ List.mem_cons_self) hl'
  | cons a l ih =>
      cases l' with
      | nil => exact absurd ((List.cons.inj h).1 ▸ List.mem_cons_self) hl
      | cons a' l' =>
          obtain ⟨rfl, htail⟩ := List.cons.inj h
          obtain ⟨rfl, rfl⟩ := ih (fun hc => hl (List.mem_cons_of_mem a hc))
            (fun hc => hl' (List.mem_cons_of_mem a hc)) htail
          exact ⟨rfl, rfl⟩

def padded (n width : Nat) : List Char :=
  List.replicate (width - (Nat.repr n).length) '0' ++ Nat.toDigits 10 n

theorem toList_padStart (n width : Nat) : (padStart (Nat.repr n) width).toList = padded n width := by
  simp [padStart, padded]

theorem padded_inj {n n' width : Nat} (h : padded n width = padded n' width) : n = n' := by
  have hvalue : ∀ k, Nat.ofDigitChars 10 (padded k width) 0 = k := by
    intro k
    rw [padded, Nat.ofDigitChars_append, Nat.ofDigitChars_replicate_zero, Nat.mul_zero,
      Nat.ofDigitChars_ten_toDigits]
  rw [← hvalue n, h, hvalue]

theorem isDigit_of_mem_padded {n width : Nat} {c : Char} (h : c ∈ padded n width) :
    c.isDigit = true := by
  rcases List.mem_append.1 h with h | h
  · rw [List.eq_of_mem_replicate h]
    rfl
  · exact Nat.isDigit_of_mem_toDigits (by decide) (by decide) h

theorem dash_notMem_padded (n width : Nat) : '-' ∉ padded n width :=
  fun h => absurd (isDigit_of_mem_padded h) (by decide)

theorem toList_hlcToString (h : Hlc) : (hlcToString h).toList =
    padded h.wallTime 15 ++ '-' :: (padded h.counter 8 ++ '-' :: h.deviceId.toList) := by
  simp [hlcToString, toList_padStart]

theorem hlcToString_inj {h h' : Hlc} (heq : hlcToString h = hlcToString h') : h = h' := by
  have hl := congrArg String.toList heq
  rw [toList_hlcToString, toList_hlcToString] at hl
  obtain ⟨hwall, hl⟩ := append_cons_inj (dash_notMem_padded _ _) (dash_notMem_padded _ _) hl
  obtain ⟨hcounter, hdevice⟩ := append_cons_inj (dash_notMem_padded _ _) (dash_notMem_padded _ _) hl
  obtain ⟨wall, counter, device⟩ := h
  obtain ⟨wall', counter', device'⟩ := h'
  obtain rfl : wall = wall' := padded_inj hwall
  obtain rfl : counter = counter' := padded_inj hcounter
  obtain rfl : device = device' := String.ext hdevice
  rfl

/-- An op whose id is its timestamp; that of a merge node is made from its content. -/
def IsContent (op : Operation) : Prop := op.id = hlcToString op.hlcTimestamp

instance (op : Operation) : Decidable (IsContent op) := inferInstanceAs (Decidable (_ = _))

def IsMerge (op : Operation) : Prop := ∃ digest, op.id = "m-" ++ digest

theorem not_merge_of_content {op : Operation} (h : IsContent op) : ¬ IsMerge op := by
  rintro ⟨digest, hid⟩
  rw [IsContent, hid] at h
  have hl := congrArg String.toList h
  rw [toList_hlcToString, String.toList_append] at hl
  have hm : (padded op.hlcTimestamp.wallTime 15 ++ '-' :: (padded op.hlcTimestamp.counter 8 ++
      '-' :: op.hlcTimestamp.deviceId.toList)).head? = some 'm' := by
    rw [← hl]
    rfl
  cases hp : padded op.hlcTimestamp.wallTime 15 with
  | nil =>
      rw [hp] at hm
      exact absurd (Option.some.inj hm) (by decide)
  | cons c rest =>
      rw [hp] at hm
      have hc : c.isDigit = true := isDigit_of_mem_padded (hp ▸ List.mem_cons_self)
      rw [Option.some.inj hm] at hc
      exact absurd hc (by decide)

end Ids

section Machine

/-- What an op is made of besides its timestamp. -/
structure Fields where
  fileId : String
  type : OperationType
  path : Path
  contentHash : String
  parents : List String
  deriving DecidableEq, Repr

/-- The append in flight, or the clock being saved after it. -/
inductive Phase
  | appending (delta : List Operation)
  | saving (clock : Hlc)
  deriving DecidableEq, Repr

/-- `issued` are the timestamps of recordings that have not pushed their op yet, `queued` counts
the persists that wait for their turn. -/
structure Memory where
  clock : Hlc
  issued : List Hlc
  pendingOps : List Operation
  persistedCount : Nat
  queued : Nat
  running : Option Phase
  deriving DecidableEq, Repr

/-- The journal and the saved clock outlive the memory. `logged` are all the ops that were ever
in the journal. -/
structure State where
  journal : List Operation
  saved : Option Hlc
  logged : List Operation
  memory : Option Memory
  deriving DecidableEq, Repr

inductive Event
  | now (wall : Nat)
  | recordOp (hlc : Hlc) (fields : Fields)
  | recordMergeOp (hlc : Hlc) (fields : Fields)
  | start
  | written
  | crash (appended : Nat) (saved : Bool)
  | restart
  deriving DecidableEq, Repr

def Fields.content (f : Fields) (hlc : Hlc) : Operation :=
  stamp hlc f.fileId f.type f.path f.contentHash f.parents

/-- A merge node, a tombstone one if its type is that of a delete. -/
def Fields.merge (f : Fields) (P : Platform) (hlc : Hlc) : Operation :=
  ⟨OP_FORMAT_VERSION, mergeVersionId P f.contentHash f.parents, hlc, f.fileId, f.type, f.path,
    f.contentHash, f.parents⟩

namespace Memory

variable (m : Memory)

def unwritten : List Operation := m.pendingOps.drop m.persistedCount

def use (hlc : Hlc) : Memory := { m with issued := m.issued.erase hlc }

def recordOp (op : Operation) : Memory :=
  { m with pendingOps := m.pendingOps ++ [op], queued := m.queued + 1 }

/-- An append with nothing to write goes on to the clock. -/
def begin : Phase :=
  match m.unwritten with
  | [] => .saving m.clock
  | op :: rest => .appending (op :: rest)

end Memory

def stepMemory (P : Platform) (s : State) (m : Memory) : Event → Option State
  | .now wall => some { s with
      memory := some { m with
        clock := now m.clock wall, issued := m.issued ++ [now m.clock wall] } }
  | .recordOp hlc fields =>
      if hlc ∈ m.issued then
        some { s with memory := some ((m.use hlc).recordOp (fields.content hlc)) }
      else none
  | .recordMergeOp hlc fields => some { s with memory := some (m.recordOp (fields.merge P hlc)) }
  | .start =>
      match m.running, m.queued with
      | none, queued + 1 => some { s with
          memory := some { m with queued := queued, running := some m.begin } }
      | _, _ => none
  | .written =>
      match m.running with
      | some (.appending delta) => some { s with
          journal := s.journal ++ delta
          logged := s.logged ++ delta
          memory := some { m with
            persistedCount := m.persistedCount + delta.length
            running := some (.saving m.clock) } }
      | some (.saving clock) => some { s with
          saved := some clock
          memory := some { m with running := none } }
      | none => none
  | .crash appended saved =>
      match m.running with
      | some (.appending delta) => some { s with
          journal := s.journal ++ delta.take appended
          logged := s.logged ++ delta.take appended
          memory := none }
      | some (.saving clock) => some { s with
          saved := if saved then some clock else s.saved
          memory := none }
      | none => some { s with memory := none }
  | .restart => none

/-- The clock starts from the one that was saved; a journal with duplicates is written anew. -/
def restarted (deviceId : String) (s : State) : State where
  journal := dedupeOpsById s.journal
  saved := s.saved
  logged := s.logged
  memory := some
    { clock := s.saved.getD ⟨0, 0, deviceId⟩
      issued := []
      pendingOps := dedupeOpsById s.journal
      persistedCount := (dedupeOpsById s.journal).length
      queued := 0
      running := none }

def step (P : Platform) (deviceId : String) (s : State) (e : Event) : Option State :=
  match s.memory, e with
  | some m, e => stepMemory P s m e
  | none, .restart => some (restarted deviceId s)
  | none, _ => none

/-- A device that has recorded nothing yet. -/
def installed (saved : Option Hlc) : State := ⟨[], saved, [], none⟩

end Machine

section Unique

/-- No two ops that were ever in the journal share the id of a content op. -/
def Unique (s : State) : Prop :=
  ∀ op ∈ s.logged, ∀ other ∈ s.logged, IsContent op → op.id = other.id → op = other

/-- Every timestamp is taken by a clock at or past all that the journal ever held, or from a wall
clock that reads later than them. -/
def ClockAhead (s : State) : Event → Prop
  | .now wall => ∀ m, s.memory = some m → ∀ op ∈ s.logged, IsContent op →
      logicalTime op.hlcTimestamp ≤ logicalTime m.clock ∨ op.hlcTimestamp.wallTime < wall
  | _ => True

def contentTimes (ops : List Operation) : List Hlc :=
  (ops.filter (fun op => IsContent op)).map (·.hlcTimestamp)

/-- The timestamps that may still get into the journal. -/
def Memory.live (m : Memory) : List Hlc := m.issued ++ contentTimes m.unwritten

structure Fresh (s : State) (m : Memory) : Prop where
  counted : m.persistedCount ≤ m.pendingOps.length
  known : ∀ op ∈ m.unwritten, IsContent op ∨ IsMerge op
  past : ∀ hlc ∈ m.live, logicalTime hlc ≤ logicalTime m.clock
  nodup : m.live.Nodup
  unlogged : ∀ op ∈ s.logged, IsContent op → op.hlcTimestamp ∉ m.live
  running : ∀ delta, m.running = some (.appending delta) → delta <+: m.unwritten

structure Distinct (s : State) : Prop where
  known : ∀ op ∈ s.logged, IsContent op ∨ IsMerge op
  unique : Unique s
  fresh : ∀ m, s.memory = some m → Fresh s m

variable {s t : State} {m : Memory} {e : Event} {op other : Operation}

theorem isMerge_merge (P : Platform) (fields : Fields) (hlc : Hlc) :
    IsMerge (fields.merge P hlc) := ⟨_, rfl⟩

theorem contentTimes_append (ops more : List Operation) :
    contentTimes (ops ++ more) = contentTimes ops ++ contentTimes more := by
  simp [contentTimes]

theorem mem_contentTimes {ops : List Operation} (hop : op ∈ ops) (hc : IsContent op) :
    op.hlcTimestamp ∈ contentTimes ops :=
  List.mem_map_of_mem (List.mem_filter.2 ⟨hop, decide_eq_true hc⟩)

theorem unwritten_recordOp (h : m.persistedCount ≤ m.pendingOps.length) (op : Operation) :
    (m.recordOp op).unwritten = m.unwritten ++ [op] :=
  List.drop_append_of_le_length h

/-- Ops of distinct timestamps are told apart by their ids. -/
theorem eq_of_content_id {ops : List Operation} (hnodup : (contentTimes ops).Nodup)
    (hop : op ∈ ops) (hother : other ∈ ops) (hc : IsContent op) (hc' : IsContent other)
    (hid : op.id = other.id) : op = other := by
  have htime : op.hlcTimestamp = other.hlcTimestamp := by
    apply hlcToString_inj
    rw [← hc, ← hc', hid]
  exact List.inj_on_of_nodup_map hnodup (List.mem_filter.2 ⟨hop, decide_eq_true hc⟩)
    (List.mem_filter.2 ⟨hother, decide_eq_true hc'⟩) htime

theorem isContent_of_id (hc : IsContent op) (hid : op.id = other.id)
    (hknown : IsContent other ∨ IsMerge other) : IsContent other := by
  refine hknown.resolve_right fun hmerge => not_merge_of_content hc ?_
  obtain ⟨digest, hdigest⟩ := hmerge
  exact ⟨digest, hid.trans hdigest⟩

/-- What is appended shares no id with what is there, nor within itself. -/
theorem unique_append (h : Distinct s) (hm : s.memory = some m) {delta : List Operation}
    (hdelta : delta <+: m.unwritten) {t : State} (ht : t.logged = s.logged ++ delta) :
    Unique t := by
  have hf := h.fresh m hm
  have hknown : ∀ op ∈ delta, IsContent op ∨ IsMerge op := fun op hop =>
    hf.known op (hdelta.subset hop)
  have hnodup : (contentTimes delta).Nodup := by
    refine List.Nodup.sublist ?_ hf.nodup
    exact ((hdelta.sublist.filter _).map _).trans (List.sublist_append_right _ _)
  have hapart : ∀ op ∈ s.logged, ∀ other ∈ delta, IsContent op → IsContent other →
      op.id ≠ other.id := by
    intro op hop other hother hc hc' hid
    have htime : op.hlcTimestamp = other.hlcTimestamp := by
      apply hlcToString_inj
      rw [← hc, ← hc', hid]
    apply hf.unlogged op hop hc
    rw [htime]
    exact List.mem_append_right _ (mem_contentTimes (hdelta.subset hother) hc')
  intro op hop other hother hc hid
  rw [ht] at hop hother
  rcases List.mem_append.1 hop with hop | hop
  · rcases List.mem_append.1 hother with hother | hother
    · exact h.unique op hop other hother hc hid
    · have hc' := isContent_of_id hc hid (hknown other hother)
      exact absurd hid (hapart op hop other hother hc hc')
  · rcases List.mem_append.1 hother with hother | hother
    · have hc' := isContent_of_id hc hid (h.known other hother)
      exact absurd hid.symm (hapart other hother op hop hc' hc)
    · have hc' := isContent_of_id hc hid (hknown other hother)
      exact eq_of_content_id hnodup hop hother hc hc' hid

theorem known_append (h : Distinct s) (hm : s.memory = some m) {delta : List Operation}
    (hdelta : delta <+: m.unwritten) :
    ∀ op ∈ s.logged ++ delta, IsContent op ∨ IsMerge op := by
  intro op hop
  rcases List.mem_append.1 hop with hop | hop
  · exact h.known op hop
  · exact (h.fresh m hm).known op (hdelta.subset hop)

theorem fresh_now (hf : Fresh s m) {wall : Nat} (hs : s.memory = some m)
    (hahead : ClockAhead s (.now wall)) :
    Fresh s { m with clock := now m.clock wall, issued := m.issued ++ [now m.clock wall] } := by
  have hperm : (m.issued ++ [now m.clock wall] ++ contentTimes m.unwritten).Perm
      (now m.clock wall :: m.live) := by
    rw [List.append_assoc, List.singleton_append]
    exact List.perm_middle
  have hnew : ∀ hlc ∈ m.live, logicalTime hlc < logicalTime (now m.clock wall) := fun hlc hmem =>
    (hf.past hlc hmem).trans_lt (lt_now m.clock wall)
  refine ⟨hf.counted, hf.known, ?_, ?_, ?_, hf.running⟩
  · intro hlc hmem
    rcases List.mem_cons.1 (hperm.subset hmem) with rfl | hmem
    · exact le_refl _
    · exact (hnew hlc hmem).le
  · refine hperm.nodup_iff.2 (List.nodup_cons.2 ⟨fun hmem => ?_, hf.nodup⟩)
    exact absurd (hnew _ hmem) (lt_irrefl _)
  · intro op hop hc hmem
    rcases List.mem_cons.1 (hperm.subset hmem) with htime | hmem
    · rcases hahead m hs op hop hc with hle | hlt
      · rw [htime] at hle
        exact absurd (lt_now m.clock wall) (not_lt.2 hle)
      · rw [htime] at hlt
        exact absurd (wall_le_now m.clock wall) (not_le.2 hlt)
    · exact hf.unlogged op hop hc hmem

theorem fresh_record (hf : Fresh s m) {hlc : Hlc} (hmem : hlc ∈ m.issued) {op : Operation}
    (hc : IsContent op) (htime : op.hlcTimestamp = hlc) :
    Fresh s ((m.use hlc).recordOp op) := by
  have hunwritten : ((m.use hlc).recordOp op).unwritten = m.unwritten ++ [op] :=
    unwritten_recordOp (m := m.use hlc) hf.counted op
  have hperm : ((m.use hlc).recordOp op).live.Perm m.live := by
    rw [Memory.live, hunwritten, contentTimes_append]
    have hop : contentTimes [op] = [hlc] := by
      simp [contentTimes, hc, htime]
    rw [hop, ← List.append_assoc]
    refine (List.perm_append_singleton hlc _).trans ?_
    exact (List.Perm.append_right _ (List.perm_cons_erase hmem).symm)
  refine ⟨?_, ?_, ?_, ?_, ?_, ?_⟩
  · exact hf.counted.trans (by simp [Memory.recordOp, Memory.use])
  · rw [hunwritten]
    intro other hother
    rcases List.mem_append.1 hother with hother | hother
    · exact hf.known other hother
    · exact List.mem_singleton.1 hother ▸ Or.inl hc
  · exact fun hlc' hmem' => hf.past hlc' (hperm.subset hmem')
  · exact hperm.nodup_iff.2 hf.nodup
  · exact fun other hother hc' hmem' => hf.unlogged other hother hc' (hperm.subset hmem')
  · intro delta hrunning
    rw [hunwritten]
    exact (hf.running delta hrunning).trans (List.prefix_append _ _)

theorem fresh_merge (hf : Fresh s m) {op : Operation} (hmerge : IsMerge op) :
    Fresh s (m.recordOp op) := by
  have hunwritten := unwritten_recordOp hf.counted op
  have hlive : (m.recordOp op).live = m.live := by
    have hop : contentTimes [op] = [] := by
      have hc : ¬ IsContent op := fun hc => not_merge_of_content hc hmerge
      simp [contentTimes, hc]
    rw [Memory.live, hunwritten, contentTimes_append, hop, List.append_nil]
    rfl
  refine ⟨?_, ?_, ?_, ?_, ?_, ?_⟩
  · exact hf.counted.trans (by simp [Memory.recordOp])
  · rw [hunwritten]
    intro other hother
    rcases List.mem_append.1 hother with hother | hother
    · exact hf.known other hother
    · exact List.mem_singleton.1 hother ▸ Or.inr hmerge
  · exact hlive ▸ hf.past
  · exact hlive ▸ hf.nodup
  · exact hlive ▸ hf.unlogged
  · intro delta hrunning
    rw [hunwritten]
    exact (hf.running delta hrunning).trans (List.prefix_append _ _)

theorem fresh_begin (hf : Fresh s m) (queued : Nat) :
    Fresh s { m with queued := queued, running := some m.begin } := by
  refine ⟨hf.counted, hf.known, hf.past, hf.nodup, hf.unlogged, ?_⟩
  intro delta hrunning
  have hbegin : m.begin = .appending delta := Option.some.inj hrunning
  unfold Memory.begin at hbegin
  split at hbegin
  · cases hbegin
  · rename_i op rest hu
    obtain rfl := Phase.appending.inj hbegin
    exact hu ▸ List.prefix_refl _

theorem fresh_written (hf : Fresh s m) {delta : List Operation}
    (hr : m.running = some (.appending delta)) (ht : t.logged = s.logged ++ delta) :
    Fresh t { m with
      persistedCount := m.persistedCount + delta.length
      running := some (.saving m.clock) } := by
  obtain ⟨rest, hrest⟩ := hf.running delta hr
  have hunwritten : m.pendingOps.drop (m.persistedCount + delta.length) = rest := by
    rw [← List.drop_drop]
    change m.unwritten.drop delta.length = rest
    rw [← hrest, List.drop_left]
  have hlive : (m.issued ++ contentTimes m.unwritten).Perm
      (contentTimes delta ++ (m.issued ++ contentTimes rest)) := by
    rw [← hrest, contentTimes_append, ← List.append_assoc, ← List.append_assoc]
    exact List.Perm.append_right _ List.perm_append_comm
  have hsplit := List.nodup_append.1 (hlive.nodup_iff.1 hf.nodup)
  refine ⟨?_, ?_, ?_, ?_, ?_, nofun⟩
  · have hlen : delta.length ≤ m.unwritten.length := hrest ▸ List.length_append ▸ Nat.le_add_right _ _
    have hdrop : m.unwritten.length = m.pendingOps.length - m.persistedCount := List.length_drop
    have hcounted := hf.counted
    change m.persistedCount + delta.length ≤ m.pendingOps.length
    omega
  · rw [Memory.unwritten, hunwritten]
    exact fun op hop => hf.known op (hrest ▸ List.mem_append_right _ hop)
  · rw [Memory.live, Memory.unwritten, hunwritten]
    exact fun hlc hmem => hf.past hlc (hlive.symm.subset (List.mem_append_right _ hmem))
  · rw [Memory.live, Memory.unwritten, hunwritten]
    exact hsplit.2.1
  · rw [Memory.live, Memory.unwritten, hunwritten, ht]
    intro op hop hc hmem
    rcases List.mem_append.1 hop with hop | hop
    · exact hf.unlogged op hop hc (hlive.symm.subset (List.mem_append_right _ hmem))
    · exact hsplit.2.2 _ (mem_contentTimes hop hc) _ hmem rfl

theorem fresh_restarted (deviceId : String) (s : State) (hm : (restarted deviceId s).memory = some m) :
    Fresh (restarted deviceId s) m := by
  obtain rfl := Option.some.inj hm
  have hunwritten : (dedupeOpsById s.journal).drop (dedupeOpsById s.journal).length = [] :=
    List.drop_length
  refine ⟨le_refl _, ?_, ?_, ?_, ?_, nofun⟩
  · rw [Memory.unwritten, hunwritten]
    exact fun op hop => absurd hop List.not_mem_nil
  · rw [Memory.live, Memory.unwritten, hunwritten]
    exact fun hlc hmem => absurd hmem List.not_mem_nil
  · rw [Memory.live, Memory.unwritten, hunwritten]
    exact List.nodup_nil
  · rw [Memory.live, Memory.unwritten, hunwritten]
    exact fun op _ _ => List.not_mem_nil

theorem distinct_stepMemory (P : Platform) (h : Distinct s) (hm : s.memory = some m)
    (hahead : ClockAhead s e) (hstep : stepMemory P s m e = some t) : Distinct t := by
  have hf := h.fresh m hm
  cases e with
  | now wall =>
      obtain rfl := Option.some.inj hstep
      refine ⟨h.known, h.unique, ?_⟩
      rintro _ ⟨⟩
      have hnow := fresh_now hf hm hahead
      exact ⟨hnow.counted, hnow.known, hnow.past, hnow.nodup, hnow.unlogged, hnow.running⟩
  | recordOp hlc fields =>
      simp only [stepMemory] at hstep
      split at hstep
      · rename_i hmem
        obtain rfl := Option.some.inj hstep
        refine ⟨h.known, h.unique, ?_⟩
        rintro _ ⟨⟩
        have hcontent : IsContent (fields.content hlc) := rfl
        have hrecord := fresh_record hf hmem hcontent rfl
        exact ⟨hrecord.counted, hrecord.known, hrecord.past, hrecord.nodup, hrecord.unlogged,
          hrecord.running⟩
      · cases hstep
  | recordMergeOp hlc fields =>
      obtain rfl := Option.some.inj hstep
      refine ⟨h.known, h.unique, ?_⟩
      rintro _ ⟨⟩
      have hmerge := fresh_merge hf (isMerge_merge P fields hlc)
      exact ⟨hmerge.counted, hmerge.known, hmerge.past, hmerge.nodup, hmerge.unlogged,
        hmerge.running⟩
  | start =>
      simp only [stepMemory] at hstep
      split at hstep
      · rename_i queued hr hq
        obtain rfl := Option.some.inj hstep
        refine ⟨h.known, h.unique, ?_⟩
        rintro _ ⟨⟩
        have hbegin := fresh_begin hf queued
        exact ⟨hbegin.counted, hbegin.known, hbegin.past, hbegin.nodup, hbegin.unlogged,
          hbegin.running⟩
      · cases hstep
  | written =>
      simp only [stepMemory] at hstep
      split at hstep
      · rename_i delta hr
        obtain rfl := Option.some.inj hstep
        have hdelta := hf.running delta hr
        refine ⟨known_append h hm hdelta, unique_append h hm hdelta rfl, ?_⟩
        rintro _ ⟨⟩
        exact fresh_written hf hr rfl
      · rename_i clock hr
        obtain rfl := Option.some.inj hstep
        refine ⟨h.known, h.unique, ?_⟩
        rintro _ ⟨⟩
        exact ⟨hf.counted, hf.known, hf.past, hf.nodup, hf.unlogged, nofun⟩
      · cases hstep
  | crash appended saved =>
      simp only [stepMemory] at hstep
      split at hstep
      · rename_i delta hr
        obtain rfl := Option.some.inj hstep
        have hdelta := (List.take_prefix appended delta).trans (hf.running delta hr)
        exact ⟨known_append h hm hdelta, unique_append h hm hdelta rfl, nofun⟩
      · obtain rfl := Option.some.inj hstep
        exact ⟨h.known, h.unique, nofun⟩
      · obtain rfl := Option.some.inj hstep
        exact ⟨h.known, h.unique, nofun⟩
  | restart => cases hstep

theorem distinct_step (P : Platform) (deviceId : String) (h : Distinct s) (hahead : ClockAhead s e)
    (hstep : step P deviceId s e = some t) : Distinct t := by
  cases hm : s.memory with
  | some m =>
      have hstep : stepMemory P s m e = some t := by
        simpa only [step, hm] using hstep
      exact distinct_stepMemory P h hm hahead hstep
  | none =>
      cases e with
      | restart =>
          simp only [step, hm] at hstep
          obtain rfl := Option.some.inj hstep
          exact ⟨h.known, h.unique, fun m hm => fresh_restarted deviceId s hm⟩
      | _ =>
          simp only [step, hm] at hstep
          cases hstep

/-- Through any number of crashes, no op that was ever in the journal shares the id of a content
op, as long as no timestamp is taken behind what the journal held. -/
theorem ids_unique (P : Platform) (deviceId : String) {saved : Option Hlc} {events : List Event}
    (hahead : Along (step P deviceId) ClockAhead (installed saved) events)
    (hrun : run (step P deviceId) (installed saved) events = some s) : Unique s := by
  have hinstalled : Distinct (installed saved) := ⟨nofun, nofun, nofun⟩
  exact (invariant_of_run (fun s e t h hc ht => distinct_step P deviceId h hc ht) hinstalled hahead
    hrun).unique

end Unique

section Example

def edit (contentHash : String) : Fields := ⟨"f", .update, "n.md", contentHash, []⟩

/-- An edit is recorded before a restart with the wall clock set back, and another one after it. -/
def acrossRestart : List Event :=
  [.restart, .now 100, .recordOp ⟨100, 0, "a"⟩ (edit "h1"), .start, .written, .written,
    .crash 0 false, .restart, .now 90, .recordOp ⟨100, 1, "a"⟩ (edit "h2"), .start, .written,
    .written]

theorem ids_unique_example : ∃ s,
    run (step asciiPlatform "a") (installed none) acrossRestart = some s ∧ s.logged.length = 2 ∧
      Unique s := by
  have hahead : Along (step asciiPlatform "a") ClockAhead (installed none) acrossRestart := by
    refine ⟨trivial, ?_⟩
    rintro _ ⟨⟩
    refine ⟨fun _ _ op hop => absurd hop List.not_mem_nil, ?_⟩
    rintro _ ⟨⟩
    refine ⟨trivial, ?_⟩
    rintro _ ⟨⟩
    refine ⟨trivial, ?_⟩
    rintro _ ⟨⟩
    refine ⟨trivial, ?_⟩
    rintro _ ⟨⟩
    refine ⟨trivial, ?_⟩
    rintro _ ⟨⟩
    refine ⟨trivial, ?_⟩
    rintro _ ⟨⟩
    refine ⟨trivial, ?_⟩
    rintro _ ⟨⟩
    refine ⟨?_, fun _ _ => ⟨trivial, fun _ _ => ⟨trivial, fun _ _ => ⟨trivial, fun _ _ => ⟨trivial,
      fun _ _ => trivial⟩⟩⟩⟩⟩
    rintro _ ⟨⟩ op hop -
    obtain rfl := List.mem_singleton.1 hop
    exact Or.inl (le_refl _)
  exact ⟨_, rfl, rfl, ids_unique asciiPlatform "a" hahead rfl⟩

/-- The device dies between the append and the clock's save, the wall clock is set back, and the
next edit is recorded under the id of the one before. -/
theorem id_reissued : ∃ s,
    run (step asciiPlatform "a") (installed none)
        [.restart, .now 100, .recordOp ⟨100, 0, "a"⟩ (edit "h1"), .start, .written, .written,
          .now 100, .recordOp ⟨100, 1, "a"⟩ (edit "h2"), .start, .written, .crash 0 false,
          .restart, .now 90, .recordOp ⟨100, 1, "a"⟩ (edit "h3"), .start, .written] = some s ∧
      ¬ Unique s := by
  refine ⟨_, rfl, fun h => ?_⟩
  exact absurd (h ((edit "h2").content ⟨100, 1, "a"⟩) (by decide)
    ((edit "h3").content ⟨100, 1, "a"⟩) (by decide) rfl rfl) (by decide)

end Example

end OpsBlobs.OpIdentity
