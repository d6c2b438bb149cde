import OpsBlobs.EventRun
import OpsBlobs.LineJournal
import OpsBlobs.VersionSweep

namespace OpsBlobs.VersionDagStore

open LineJournal EventRun VersionDag VersionSweep

/-- One edge of the journal, with the keys that it is written under. -/
structure EdgeRecord where
  v : String
  p : List String
  c : String
  f : String
  deriving DecidableEq, Repr

structure EdgeFormat (Edge : Type) extends Codec Edge where
  edge : Edge → EdgeRecord

/-- The write in flight. Compacting removes the journal after its snapshot, and clearing after
the snapshot's removal. -/
inductive Writing (Edge : Type)
  | nothing
  | journal (edges : List Edge)
  | snapshot (dag : VersionDag)
  | snapshotRemoval
  | journalRemoval

/-- An empty journal stands for one that is not there. `acked` are the edges whose append
resolved and that were not cleared or left out of a compacted graph since. -/
structure State (Edge : Type) where
  snapshot : Option (List EdgeRecord)
  journal : List Char
  writing : Writing Edge
  acked : List Edge

inductive Event (Edge : Type)
  | appendEdges (edges : List Edge)
  | compact (dag : VersionDag)
  | clear
  | written
  | crash (torn : Nat) (landed : Bool)

section Machine

def replay (dag : VersionDag) (edges : List EdgeRecord) : VersionDag :=
  edges.foldl (fun dag r => addVersion dag r.v r.p r.c r.f) dag

def toJSON (dag : VersionDag) : List EdgeRecord :=
  dag.entries.map (fun e => ⟨e.1, e.2.parents, e.2.contentHash, e.2.fileId⟩)

def fromJSON (records : List EdgeRecord) : VersionDag := replay .empty records

/-- The graph has the version, the parents of the edge, and a hash and a file where the edge
has them. -/
def present (dag : VersionDag) (r : EdgeRecord) : Bool :=
  (dag.get r.v).any fun node =>
    r.p.all (fun parent => parent = r.v ∨ parent ∈ node.parents) &&
      (r.c = "" ∨ node.contentHash ≠ "") && (r.f = "" ∨ node.fileId ≠ "")

variable {Edge : Type} (F : EdgeFormat Edge)

def loadSnapshot (s : State Edge) : VersionDag :=
  match s.snapshot with
  | none => .empty
  | some records => fromJSON records

def load (s : State Edge) : VersionDag :=
  replay (loadSnapshot s) ((records F.toCodec s.journal).map F.edge)

/-- What a write leaves on the disk. -/
def landed (s : State Edge) : State Edge :=
  match s.writing with
  | .nothing => s
  | .journal edges => { s with journal := s.journal ++ text F.toCodec edges }
  | .snapshot dag => { s with snapshot := some (toJSON dag) }
  | .snapshotRemoval => { s with snapshot := none }
  | .journalRemoval => { s with journal := [] }

/-- A torn append leaves some of its characters, any other write happens or does not. -/
def crashed (s : State Edge) (torn : Nat) (happened : Bool) : State Edge :=
  match s.writing with
  | .journal edges => { s with journal := s.journal ++ (text F.toCodec edges).take torn }
  | _ => if happened then landed F s else s

def step (s : State Edge) (e : Event Edge) : Option (State Edge) :=
  match e, s.writing with
  | .appendEdges [], .nothing => some s
  | .appendEdges (edge :: more), .nothing => some { s with writing := .journal (edge :: more) }
  | .compact dag, .nothing => some { s with
      writing := .snapshot dag
      acked := s.acked.filter (fun edge => present dag (F.edge edge)) }
  | .clear, .nothing => some { s with writing := .snapshotRemoval, acked := [] }
  | .written, .journal edges => some { landed F s with
      writing := .nothing, acked := s.acked ++ edges }
  | .written, .snapshot _ => some { landed F s with writing := .journalRemoval }
  | .written, .snapshotRemoval => some { landed F s with writing := .journalRemoval }
  | .written, .journalRemoval => some { landed F s with writing := .nothing }
  | .crash torn happened, _ => some { crashed F s torn happened with writing := .nothing }
  | _, _ => none

def opened (snapshot : Option (List EdgeRecord)) (journal : List Char) : State Edge :=
  ⟨snapshot, journal, .nothing, []⟩

end Machine

section Present

variable {dag : VersionDag} {r : EdgeRecord} {edges more : List EdgeRecord}

theorem present_iff : present dag r = true ↔ ∃ node, dag.get r.v = some node ∧
    (∀ parent ∈ r.p, parent = r.v ∨ parent ∈ node.parents) ∧
      (r.c = "" ∨ node.contentHash ≠ "") ∧ (r.f = "" ∨ node.fileId ≠ "") := by
  unfold present
  cases dag.get r.v with
  | none => simp
  | some node => simp [and_assoc]

theorem present_addVersion_self (dag : VersionDag) (r : EdgeRecord) :
    present (addVersion dag r.v r.p r.c r.f) r = true := by
  rw [present_iff, addVersion]
  cases dag.get r.v with
  | none =>
      refine ⟨_, JsMap.get_set_self _ _ _, fun parent hp => ?_, ?_, ?_⟩
      · by_cases hv : parent = r.v
        · exact Or.inl hv
        · exact Or.inr (mem_unionParents_iff.2 (Or.inr ⟨hp, hv⟩))
      · exact em _
      · exact em _
  | some node =>
      refine ⟨_, JsMap.get_set_self _ _ _, fun parent hp => ?_, ?_, ?_⟩
      · by_cases hv : parent = r.v
        · exact Or.inl hv
        · exact Or.inr (mem_unionParents_iff.2 (Or.inr ⟨hp, hv⟩))
      · by_cases hc : node.contentHash = "" <;> simp [hc, em]
      · by_cases hf : node.fileId = "" <;> simp [hf, em]

theorem present_addVersion (h : present dag r = true) (v : String) (p : List String)
    (c f : String) : present (addVersion dag v p c f) r = true := by
  obtain ⟨node, hget, hp, hc, hf⟩ := present_iff.1 h
  rw [present_iff, addVersion]
  by_cases hv : v = r.v
  · subst hv
    simp only [hget, JsMap.get_set_self, Option.some.injEq, exists_eq_left']
    refine ⟨fun parent hmem => ?_, ?_, ?_⟩
    · exact (hp parent hmem).imp_right fun hin => mem_unionParents_iff.2 (Or.inl hin)
    · refine hc.imp_right fun hne => ?_
      rwa [if_neg hne]
    · refine hf.imp_right fun hne => ?_
      rwa [if_neg hne]
  · refine ⟨node, ?_, hp, hc, hf⟩
    split
    · rwa [JsMap.get_set_ne dag _ hv]
    · rwa [JsMap.get_set_ne dag _ hv]

theorem present_replay_of_present (h : present dag r = true) :
    present (replay dag edges) r = true := by
  induction edges generalizing dag with
  | nil => exact h
  | cons e edges ih => exact ih (present_addVersion h e.v e.p e.c e.f)

theorem present_replay (h : r ∈ edges) : present (replay dag edges) r = true := by
  induction edges generalizing dag with
  | nil => exact absurd h List.not_mem_nil
  | cons e edges ih =>
      rcases List.mem_cons.1 h with rfl | h
      · rw [replay, List.foldl_cons]
        exact present_replay_of_present (present_addVersion_self dag r)
      · exact ih h

theorem replay_append : replay dag (edges ++ more) = replay (replay dag edges) more :=
  List.foldl_append

/-- A graph that is written and read again has every edge it had. -/
theorem present_fromJSON (h : present dag r = true) : present (fromJSON (toJSON dag)) r = true := by
  obtain ⟨node, hget, hp, hc, hf⟩ := present_iff.1 h
  have hmem : EdgeRecord.mk r.v node.parents node.contentHash node.fileId ∈ toJSON dag :=
    List.mem_map_of_mem ((JsMap.mem_entries_iff dag).2 hget)
  have hread : present (fromJSON (toJSON dag)) ⟨r.v, node.parents, node.contentHash, node.fileId⟩ =
      true := present_replay hmem
  obtain ⟨node', hget', hp', hc', hf'⟩ := present_iff.1 hread
  refine present_iff.2 ⟨node', hget', fun parent hparent => ?_, ?_, ?_⟩
  · exact (hp parent hparent).elim Or.inl (hp' parent)
  · exact hc.imp_right fun hne => hc'.resolve_left hne
  · exact hf.imp_right fun hne => hf'.resolve_left hne

end Present

section Durable

variable {Edge : Type}

/-- No edge is appended to a line that was torn. -/
def LineEnded (s : State Edge) : Event Edge → Prop
  | .appendEdges edges => edges ≠ [] → Ended s.journal
  | _ => True

/-- What the disk and the write in flight owe the acknowledged edges. -/
structure Durable (F : EdgeFormat Edge) (s : State Edge) : Prop where
  loaded : ∀ edge ∈ s.acked, present (load F s) (F.edge edge) = true
  journal : ∀ edges, s.writing = .journal edges → Ended s.journal
  snapshot : ∀ dag, s.writing = .snapshot dag →
    ∀ edge ∈ s.acked, present dag (F.edge edge) = true
  snapshotRemoval : s.writing = .snapshotRemoval → s.acked = []
  journalRemoval : s.writing = .journalRemoval →
    ∀ edge ∈ s.acked, present (loadSnapshot s) (F.edge edge) = true

variable {F : EdgeFormat Edge} {s t : State Edge} {e : Event Edge} {more : List Char}

theorem load_append (h : Ended s.journal) : load F { s with journal := s.journal ++ more } =
    replay (load F s) ((records F.toCodec more).map F.edge) := by
  rw [load, load, records_append h, List.map_append, replay_append]
  rfl

theorem durable_idle (hw : s.writing = .nothing)
    (h : ∀ edge ∈ s.acked, present (load F s) (F.edge edge) = true) : Durable F s := by
  refine ⟨h, ?_, ?_, ?_, ?_⟩
  · intro edges hphase
    cases hw.symm.trans hphase
  · intro dag hphase
    cases hw.symm.trans hphase
  · intro hphase
    cases hw.symm.trans hphase
  · intro hphase
    cases hw.symm.trans hphase

theorem loaded_landed (h : Durable F s) :
    ∀ edge ∈ s.acked, present (load F (landed F s)) (F.edge edge) = true := by
  intro edge hedge
  rw [landed]
  split
  · exact h.loaded edge hedge
  · rename_i edges hw
    rw [load_append (h.journal edges hw)]
    exact present_replay_of_present (h.loaded edge hedge)
  · rename_i dag hw
    exact present_replay_of_present (present_fromJSON (h.snapshot dag hw edge hedge))
  · rename_i hw
    rw [h.snapshotRemoval hw] at hedge
    exact absurd hedge List.not_mem_nil
  · rename_i hw
    exact h.journalRemoval hw edge hedge

theorem loaded_crashed (h : Durable F s) (torn : Nat) (happened : Bool) :
    ∀ edge ∈ s.acked, present (load F (crashed F s torn happened)) (F.edge edge) = true := by
  intro edge hedge
  rw [crashed]
  split
  · rename_i edges hw
    rw [load_append (h.journal edges hw)]
    exact present_replay_of_present (h.loaded edge hedge)
  · split
    · exact loaded_landed h edge hedge
    · exact h.loaded edge hedge

theorem acked_landed (F : EdgeFormat Edge) (s : State Edge) : (landed F s).acked = s.acked := by
  unfold landed
  split <;> rfl

theorem acked_crashed (F : EdgeFormat Edge) (s : State Edge) (torn : Nat) (happened : Bool) :
    (crashed F s torn happened).acked = s.acked := by
  unfold crashed
  split
  · rfl
  · split
    · exact acked_landed F s
    · rfl

theorem durable_step (h : Durable F s) (hended : LineEnded s e) (hstep : step F s e = some t) :
    Durable F t := by
  unfold step at hstep
  split at hstep
  · exact Option.some.inj hstep ▸ h
  · obtain rfl := Option.some.inj hstep
    refine ⟨h.loaded, ?_, nofun, nofun, nofun⟩
    exact fun _ _ => hended (List.cons_ne_nil _ _)
  · obtain rfl := Option.some.inj hstep
    refine ⟨fun edge hedge => h.loaded edge (List.mem_of_mem_filter hedge), nofun, ?_, nofun, nofun⟩
    rintro _ ⟨⟩ edge hedge
    exact (List.mem_filter.1 hedge).2
  · obtain rfl := Option.some.inj hstep
    exact ⟨fun edge hedge => absurd hedge List.not_mem_nil, nofun, nofun, fun _ => rfl, nofun⟩
  · rename_i edges hw
    obtain rfl := Option.some.inj hstep
    apply durable_idle rfl
    intro edge hedge
    rcases List.mem_append.1 hedge with hedge | hedge
    · exact loaded_landed h edge hedge
    · simp only [landed, hw]
      have hload : load F { s with journal := s.journal ++ text F.toCodec edges } =
          replay (load F s) (edges.map F.edge) := by
        rw [load_append (h.journal edges hw), records_text]
      exact (congrArg (present · (F.edge edge)) hload).trans (present_replay (List.mem_map_of_mem hedge))
  · rename_i dag hw
    obtain rfl := Option.some.inj hstep
    have hloaded := loaded_landed h
    simp only [landed, hw] at hloaded ⊢
    refine ⟨hloaded, nofun, nofun, nofun, fun _ edge hedge => ?_⟩
    exact present_fromJSON (h.snapshot dag hw edge hedge)
  · rename_i hw
    obtain rfl := Option.some.inj hstep
    have hacked := h.snapshotRemoval hw
    simp only [landed, hw]
    refine ⟨?_, nofun, nofun, nofun, ?_⟩
    · intro edge hedge
      exact absurd (hacked ▸ hedge) List.not_mem_nil
    · intro _ edge hedge
      exact absurd (hacked ▸ hedge) List.not_mem_nil
  · obtain rfl := Option.some.inj hstep
    apply durable_idle rfl
    intro edge hedge
    exact loaded_landed h edge (acked_landed F s ▸ hedge)
  · rename_i torn happened
    obtain rfl := Option.some.inj hstep
    apply durable_idle rfl
    intro edge hedge
    exact loaded_crashed h torn happened edge (acked_crashed F s torn happened ▸ hedge)
  · cases hstep

/-- Through any number of crashes, every edge whose append resolved is loaded until it is cleared
or left out of a compacted graph, as long as no append goes on with a torn line. -/
theorem acked_loaded {snapshot : Option (List EdgeRecord)} {journal : List Char}
    {events : List (Event Edge)}
    (hended : Along (step F) LineEnded (opened snapshot journal) events)
    (hrun : run (step F) (opened snapshot journal) events = some s) :
    ∀ edge ∈ s.acked, present (load F s) (F.edge edge) = true := by
  have hopened : Durable F (opened snapshot journal) :=
    durable_idle rfl fun edge hedge => absurd hedge List.not_mem_nil
  exact (invariant_of_run (fun s e t h hc ht => durable_step h hc ht) hopened hended hrun).loaded

end Durable

section Example

/-- Two edits of one file, each made from the one before it. -/
inductive SampleEdge
  | first
  | second
  deriving DecidableEq, Repr

def sampleRecord : SampleEdge → EdgeRecord
  | .first => ⟨"a", ["r"], "h", "f"⟩
  | .second => ⟨"b", ["a"], "h", "f"⟩

def sampleLine : SampleEdge → List Char
  | .first => "\x7b\"v\":\"a\",\"p\":[\"r\"],\"c\":\"h\",\"f\":\"f\"\x7d".toList
  | .second => "\x7b\"v\":\"b\",\"p\":[\"a\"],\"c\":\"h\",\"f\":\"f\"\x7d".toList

def sampleFormat : EdgeFormat SampleEdge where
  toCodec := Codec.ofLines [.first, .second] sampleLine 34 (by intro r; cases r <;> decide)
    (by intro r; cases r <;> decide)
    (by intro r r' h; cases r <;> cases r' <;> first | rfl | exact absurd h (by decide))
    (by intro r; cases r <;> decide)
  edge := sampleRecord

/-- A crash tears a line; the graph is folded into the snapshot, and the next append resolves. -/
def tornThenCompact : List (Event SampleEdge) :=
  [.appendEdges [.first], .crash 20 false, .compact (fromJSON [sampleRecord .first]), .written,
    .written, .appendEdges [.second], .written, .crash 0 false]

theorem acked_loaded_example : ∃ s,
    run (step sampleFormat) (opened none []) tornThenCompact = some s ∧ s.acked = [.second] ∧
      ∀ edge ∈ s.acked, present (load sampleFormat s) (sampleFormat.edge edge) = true := by
  have hended : Along (step sampleFormat) LineEnded (opened none []) tornThenCompact := by
    refine ⟨fun _ => Or.inl rfl, ?_⟩
    rintro _ ⟨⟩
    refine ⟨trivial, ?_⟩
    rintro _ ⟨⟩
    refine ⟨trivial, ?_⟩
    rintro _ ⟨⟩
    refine ⟨trivial, ?_⟩
    rintro _ ⟨⟩
    refine ⟨trivial, ?_⟩
    rintro _ ⟨⟩
    exact ⟨fun _ => Or.inl rfl, fun _ _ => ⟨trivial, fun _ _ => ⟨trivial, fun _ _ => trivial⟩⟩⟩
  exact ⟨_, rfl, by decide, acked_loaded hended rfl⟩

/-- A crash tears a line, the next append goes on with it, and its edge is lost. -/
theorem torn_edge_swallows_next : ∃ s,
    run (step sampleFormat) (opened none [])
        [.appendEdges [.first], .crash 20 false, .appendEdges [.second], .written] = some s ∧
      SampleEdge.second ∈ s.acked ∧
        present (load sampleFormat s) (sampleFormat.edge .second) = false :=
  ⟨_, rfl, by decide, by decide⟩

end Example

end OpsBlobs.VersionDagStore
