import OpsBlobs.OplogJournal

namespace OpsBlobs.OplogCrash

open LineJournal EventRun OplogJournal

variable {Op : Type}

/-- An append that has something to write starts on a line of its own, and what it answers
for is in what it writes or in the journal already. -/
def AppendSafe (F : OpFormat Op) (s : State Op) : Event Op → Prop
  | .start => ∀ m p rest, s.memory = some m → m.running = none → m.queue = p :: rest →
      p.kind = .append → (m.unwritten ≠ [] → Ended s.journal) ∧
        ∀ op ∈ p.covers, op ∈ m.unwritten ∨ op ∈ records F.toCodec s.journal
  | _ => True

/-- What the running persist answers for is pending, and will be in the journal once it
resolves. -/
structure Guarded (F : OpFormat Op) (s : State Op) (m : Memory Op) (r : Running Op) : Prop where
  pending : r.persist.covers ⊆ m.pendingOps
  appending : ∀ delta, r.phase = .appending delta → Ended s.journal ∧
    ∀ op ∈ r.persist.covers, op ∈ delta ∨ op ∈ records F.toCodec s.journal
  rewriting : ∀ ops, r.phase = .rewriting ops → s.acked ⊆ ops ∧ r.persist.covers ⊆ ops
  finishing : r.phase = .finishing → r.persist.covers ⊆ records F.toCodec s.journal

/-- Every acknowledged op is in the journal, and pending while there is a memory. -/
structure Durable (F : OpFormat Op) (s : State Op) : Prop where
  known : Known F s
  journal : s.acked ⊆ records F.toCodec s.journal
  pending : ∀ m, s.memory = some m → s.acked ⊆ m.pendingOps
  queue : ∀ m, s.memory = some m → ∀ p ∈ m.queue, p.covers ⊆ m.pendingOps
  running : ∀ m r, s.memory = some m → m.running = some r → Guarded F s m r

variable {F : OpFormat Op} {s t : State Op} {e : Event Op} {m : Memory Op}

theorem aligned_of_durable (h : Durable F s) : Aligned s :=
  fun m r delta hm hr hphase => ((h.running m r hm hr).appending delta hphase).1

theorem queue_enqueue (h : ∀ p ∈ m.queue, p.covers ⊆ m.pendingOps) (kind : PersistKind) :
    ∀ p ∈ (m.enqueue kind).queue, p.covers ⊆ m.pendingOps := by
  intro p hp
  rcases List.mem_append.1 hp with hp | hp
  · exact h p hp
  · exact List.mem_singleton.1 hp ▸ List.Subset.refl _

theorem guarded_push {r : Running Op} (h : Guarded F s m r) (op : Op) :
    Guarded F { s with memory := some (m.push op), recorded := s.recorded ++ [op] }
      (m.push op) r :=
  ⟨List.Subset.trans h.pending (List.subset_append_left _ _), h.appending, h.rewriting, h.finishing⟩

theorem guarded_begin (h : Durable F s) (hm : s.memory = some m) {p : Persist Op}
    {rest : List (Persist Op)} (hq : m.queue = p :: rest) (hr : m.running = none)
    (hsafe : AppendSafe F s .start) : Guarded F s m (m.begin F s.journal p) := by
  have hcovers := h.queue m hm p (hq ▸ List.mem_cons_self)
  cases hkind : p.kind with
  | rewrite =>
      refine ⟨hcovers, ?_, ?_, ?_⟩
      · intro delta hphase
        simp only [Memory.begin, hkind] at hphase
        cases hphase
      · intro ops hphase
        simp only [Memory.begin, hkind] at hphase
        cases hphase
      · intro hphase
        simp only [Memory.begin, hkind] at hphase
        cases hphase
  | append =>
      obtain ⟨hended, hin⟩ := hsafe m p rest hm hr hq hkind
      refine ⟨hcovers, ?_, ?_, ?_⟩
      · intro delta hphase
        cases hu : m.unwritten with
        | nil =>
            simp only [Memory.begin, hkind, hu] at hphase
            cases hphase
        | cons op more =>
            simp only [Memory.begin, hkind, hu] at hphase
            cases hphase
            exact ⟨hended (hu ▸ List.cons_ne_nil op more), hu ▸ hin⟩
      · intro ops hphase
        cases hu : m.unwritten with
        | nil =>
            simp only [Memory.begin, hkind, hu] at hphase
            cases hphase
        | cons op more =>
            simp only [Memory.begin, hkind, hu] at hphase
            cases hphase
      · intro hphase op hop
        cases hu : m.unwritten with
        | nil => exact (hin op hop).resolve_left (hu ▸ List.not_mem_nil)
        | cons op more =>
            simp only [Memory.begin, hkind, hu] at hphase
            cases hphase

theorem durable_shrink (h : Durable F s) (hm : s.memory = some m) (keep : Op → Bool)
    (hknown : Known F (s.shrink m keep)) : Durable F (s.shrink m keep) := by
  refine ⟨hknown, ?_, ?_, ?_, ?_⟩
  · exact List.Subset.trans List.filter_sublist.subset h.journal
  · rintro _ ⟨⟩
    exact List.filter_subset keep (h.pending m hm)
  · rintro _ ⟨⟩
    apply queue_enqueue
    intro p hp
    obtain ⟨p', hp', rfl⟩ := List.mem_map.1 hp
    exact List.filter_subset keep (h.queue m hm p' hp')
  · rintro _ r ⟨⟩ hr
    obtain ⟨r', hr', rfl⟩ := Option.map_eq_some_iff.1 hr
    have hg := h.running m r' hm hr'
    have hsub : r'.persist.covers.filter keep ⊆ r'.persist.covers := List.filter_sublist.subset
    refine ⟨List.filter_subset keep hg.pending, ?_, ?_, ?_⟩
    · intro delta hphase
      obtain ⟨hended, hin⟩ := hg.appending delta hphase
      exact ⟨hended, fun op hop => hin op (hsub hop)⟩
    · intro ops hphase
      obtain ⟨hacked, hcovers⟩ := hg.rewriting ops hphase
      exact ⟨List.Subset.trans List.filter_sublist.subset hacked, List.Subset.trans hsub hcovers⟩
    · exact fun hphase => List.Subset.trans hsub (hg.finishing hphase)

theorem subset_crashed (h : Durable F s) (hm : s.memory = some m) (torn : Nat) (landed : Bool) :
    s.acked ⊆ records F.toCodec (crashed F s.journal torn landed m.running) := by
  cases hr : m.running with
  | none => exact h.journal
  | some r =>
      have hg := h.running m r hm hr
      obtain ⟨p, phase, read, found⟩ := r
      cases phase with
      | appending delta =>
          rw [crashed, records_append (hg.appending delta rfl).1]
          exact List.Subset.trans h.journal (List.subset_append_left _ _)
      | rewriting ops =>
          rw [crashed]
          split
          · rw [records_text]
            exact (hg.rewriting ops rfl).1
          · exact h.journal
      | opening => exact h.journal
      | finishing => exact h.journal

theorem durable_step (h : Durable F s) (hsafe : AppendSafe F s e) (hs : Steps F s e t) :
    Durable F t := by
  have hknown := known_step h.known (aligned_of_durable h) hs
  cases hs with
  | @push m op hm hid =>
      refine ⟨hknown, h.journal, ?_, ?_, ?_⟩
      · rintro _ ⟨⟩
        exact List.Subset.trans (h.pending m hm) (List.subset_append_left _ _)
      · rintro _ ⟨⟩ p hp
        exact List.Subset.trans (h.queue m hm p hp) (List.subset_append_left _ _)
      · rintro _ r ⟨⟩ hr
        exact guarded_push (h.running m r hm hr) op
  | @recordOp m op hm hid =>
      have hmore : m.pendingOps ⊆ (m.push op).pendingOps := List.subset_append_left _ _
      refine ⟨hknown, h.journal, ?_, ?_, ?_⟩
      · rintro _ ⟨⟩
        exact List.Subset.trans (h.pending m hm) hmore
      · rintro _ ⟨⟩
        have hqueue : ∀ p ∈ (m.push op).queue, p.covers ⊆ (m.push op).pendingOps := fun p hp =>
          List.Subset.trans (h.queue m hm p hp) hmore
        exact queue_enqueue hqueue .append
      · rintro _ r ⟨⟩ hr
        have hg := guarded_push (h.running m r hm hr) op
        exact ⟨hg.pending, hg.appending, hg.rewriting, hg.finishing⟩
  | @appendOpLog m hm =>
      refine ⟨hknown, h.journal, ?_, ?_, ?_⟩
      · rintro _ ⟨⟩
        exact h.pending m hm
      · rintro _ ⟨⟩
        exact queue_enqueue (h.queue m hm) .append
      · rintro _ r ⟨⟩ hr
        have hg := h.running m r hm hr
        exact ⟨hg.pending, hg.appending, hg.rewriting, hg.finishing⟩
  | @clearOps m hm | @prune m fileId hm => exact durable_shrink h hm _ hknown
  | @start m p rest hm hr hq =>
      refine ⟨hknown, h.journal, ?_, ?_, ?_⟩
      · rintro _ ⟨⟩
        exact h.pending m hm
      · rintro _ ⟨⟩ p' hp'
        exact h.queue m hm p' (hq ▸ List.mem_cons_of_mem p hp')
      · rintro _ r ⟨⟩ ⟨⟩
        have hg := guarded_begin h hm hq hr hsafe
        exact ⟨hg.pending, hg.appending, hg.rewriting, hg.finishing⟩
  | @read m p read found hm hr =>
      refine ⟨hknown, h.journal, ?_, ?_, ?_⟩
      · rintro _ ⟨⟩
        exact h.pending m hm
      · rintro _ ⟨⟩
        exact h.queue m hm
      · rintro _ r ⟨⟩ ⟨⟩
        have hcovers := (h.running m _ hm hr).pending
        refine ⟨hcovers, nofun, ?_, nofun⟩
        rintro _ ⟨⟩
        exact ⟨h.pending m hm, hcovers⟩
  | @appended m p delta read found hm hr =>
      have hg := h.running m _ hm hr
      obtain ⟨hended, hin⟩ := hg.appending delta rfl
      have hrecords : records F.toCodec (s.journal ++ text F.toCodec delta) =
          records F.toCodec s.journal ++ delta := by
        rw [records_append hended, records_text]
      refine ⟨hknown, ?_, ?_, ?_, ?_⟩
      · rw [hrecords]
        exact List.Subset.trans h.journal (List.subset_append_left _ _)
      · rintro _ ⟨⟩
        exact h.pending m hm
      · rintro _ ⟨⟩
        exact h.queue m hm
      · rintro _ r ⟨⟩ ⟨⟩
        refine ⟨hg.pending, nofun, nofun, fun _ op hop => ?_⟩
        rw [hrecords]
        exact List.mem_append.2 (hin op hop).symm
  | @rewritten m p ops read found hm hr =>
      have hg := h.running m _ hm hr
      obtain ⟨hacked, hcovers⟩ := hg.rewriting ops rfl
      refine ⟨hknown, ?_, ?_, ?_, ?_⟩
      · rw [records_text]
        exact hacked
      · rintro _ ⟨⟩
        exact h.pending m hm
      · rintro _ ⟨⟩
        exact h.queue m hm
      · rintro _ r ⟨⟩ ⟨⟩
        refine ⟨hg.pending, nofun, nofun, fun _ => ?_⟩
        rw [records_text]
        exact hcovers
  | @fail m r hm hr =>
      refine ⟨hknown, h.journal, ?_, ?_, ?_⟩
      · rintro _ ⟨⟩
        exact h.pending m hm
      · rintro _ ⟨⟩
        exact h.queue m hm
      · rintro _ r ⟨⟩ ⟨⟩
  | @resolve m p read found hm hr =>
      have hg := h.running m _ hm hr
      refine ⟨hknown, ?_, ?_, ?_, ?_⟩
      · exact List.append_subset.2 ⟨h.journal, hg.finishing rfl⟩
      · rintro _ ⟨⟩
        exact List.append_subset.2 ⟨h.pending m hm, hg.pending⟩
      · rintro _ ⟨⟩
        exact h.queue m hm
      · rintro _ r ⟨⟩ ⟨⟩
  | @crash m torn landed hm =>
      refine ⟨hknown, subset_crashed h hm torn landed, ?_, ?_, ?_⟩
      · rintro _ ⟨⟩
      · rintro _ ⟨⟩
      · rintro _ r ⟨⟩
  | load hm =>
      have hload : s.acked ⊆ loadOps F s.journal :=
        fun op hop => (mem_firstById h.known.unique h.known.journal).2 (h.journal hop)
      refine ⟨hknown, ?_, ?_, ?_, ?_⟩
      · rw [load]
        dsimp only
        split
        · rw [records_text]
          exact hload
        · exact h.journal
      · rintro _ ⟨⟩
        exact hload
      · rintro _ ⟨⟩ p hp
        exact absurd hp List.not_mem_nil
      · rintro _ r ⟨⟩ ⟨⟩

theorem durable_opened {ops : List Op} (hids : (ops.map F.id).Nodup) :
    Durable F (opened F ops) := by
  refine ⟨known_opened hids, ?_, ?_, ?_, ?_⟩
  · rw [opened, records_text]
    exact List.Subset.refl _
  · rintro _ ⟨⟩
    exact List.Subset.refl _
  · rintro _ ⟨⟩ p hp
    exact absurd hp List.not_mem_nil
  · rintro _ r ⟨⟩ ⟨⟩

/-- Through any number of crashes, every op whose persist resolved is pending until it is
cleared or pruned, as long as no append starts on a torn line or behind the cursor. -/
theorem acked_survive {ops : List Op} {events : List (Event Op)}
    (hids : (ops.map F.id).Nodup)
    (hsafe : Along (step F) (AppendSafe F) (opened F ops) events)
    (hrun : run (step F) (opened F ops) events = some s) (hm : s.memory = some m) :
    s.acked ⊆ m.pendingOps := by
  have hstep : ∀ s e t, Durable F s → AppendSafe F s e → step F s e = some t → Durable F t :=
    fun s e t h hsafe hs => durable_step h hsafe (steps_of_step hs)
  exact (invariant_of_run hstep (durable_opened hids) hsafe hrun).pending m hm

section Example

/-- A crash tears the append of the first op. Clearing the log writes it anew, and the next op is
recorded and survives another crash. -/
def crashAfter : List (Event SampleOp) :=
  [.recordOp .create, .start, .crash 3 false, .load, .clearOps, .start, .read, .written, .resolve,
    .recordOp .update, .start, .written, .resolve, .crash 0 false, .load]

theorem acked_survive_example : ∃ s m,
    run (step sampleFormat) (opened sampleFormat []) crashAfter = some s ∧ s.memory = some m ∧
      s.acked = [.update] ∧ s.acked ⊆ m.pendingOps := by
  have hids : (([] : List SampleOp).map sampleFormat.id).Nodup := List.nodup_nil
  have hsafe : Along (step sampleFormat) (AppendSafe sampleFormat) (opened sampleFormat [])
      crashAfter := by
    refine ⟨trivial, ?_⟩
    rintro _ ⟨⟩
    constructor
    · rintro m p rest ⟨⟩ - ⟨⟩ -
      exact ⟨fun _ => Or.inl rfl, fun op hop => Or.inl hop⟩
    rintro _ ⟨⟩
    refine ⟨trivial, ?_⟩
    rintro _ ⟨⟩
    refine ⟨trivial, ?_⟩
    rintro _ ⟨⟩
    refine ⟨trivial, ?_⟩
    rintro _ ⟨⟩
    constructor
    · rintro m p rest ⟨⟩ - ⟨⟩ ⟨⟩
    rintro _ ⟨⟩
    refine ⟨trivial, ?_⟩
    rintro _ ⟨⟩
    refine ⟨trivial, ?_⟩
    rintro _ ⟨⟩
    refine ⟨trivial, ?_⟩
    rintro _ ⟨⟩
    refine ⟨trivial, ?_⟩
    rintro _ ⟨⟩
    constructor
    · rintro m p rest ⟨⟩ - ⟨⟩ -
      exact ⟨fun _ => Or.inl rfl, fun op hop => Or.inl hop⟩
    exact fun _ _ => ⟨trivial, fun _ _ => ⟨trivial, fun _ _ => ⟨trivial, fun _ _ =>
        ⟨trivial, fun _ _ => trivial⟩⟩⟩⟩
  exact ⟨_, _, rfl, rfl, rfl, acked_survive hids hsafe rfl rfl⟩

/-- The append after a crash goes on with the torn line, and both ops are lost. -/
theorem torn_line_swallows_next :
    ∃ s m, run (step sampleFormat) (opened sampleFormat [])
        [.recordOp .create, .start, .crash 5 false, .load,
          .recordOp .update, .start, .written, .resolve, .crash 0 false, .load] = some s ∧
      s.memory = some m ∧ SampleOp.update ∈ s.acked ∧ SampleOp.update ∉ m.pendingOps :=
  ⟨_, _, rfl, rfl, by decide, by decide⟩

end Example

end OpsBlobs.OplogCrash
