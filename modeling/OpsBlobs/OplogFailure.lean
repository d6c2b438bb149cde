import OpsBlobs.OplogJournal

namespace OpsBlobs.OplogFailure

open LineJournal EventRun OplogJournal

variable {Op : Type}

section Kept

/-- A list of ops leads the pending ones, or holds one that is pending no more. -/
def Kept (l pendingOps : List Op) : Prop := l <+: pendingOps ∨ ∃ op ∈ l, op ∉ pendingOps

variable {l pendingOps recorded : List Op}

theorem kept_self : Kept pendingOps pendingOps := Or.inl (List.prefix_refl _)

theorem kept_push (h : Kept l pendingOps) {op : Op} (hop : op ∉ l) :
    Kept l (pendingOps ++ [op]) := by
  rcases h with h | ⟨dropped, hmem, hnot⟩
  · exact Or.inl (h.trans (List.prefix_append _ _))
  · refine Or.inr ⟨dropped, hmem, fun hin => ?_⟩
    rcases List.mem_append.1 hin with hin | hin
    · exact hnot hin
    · exact hop (List.mem_singleton.1 hin ▸ hmem)

theorem kept_filter (h : Kept l pendingOps) (keep : Op → Bool) :
    Kept l (pendingOps.filter keep) := by
  rcases h with ⟨rest, rfl⟩ | ⟨dropped, hmem, hnot⟩
  · by_cases hall : ∀ op ∈ l, keep op = true
    · left
      rw [List.filter_append, List.filter_eq_self.2 hall]
      exact List.prefix_append _ _
    · push Not at hall
      obtain ⟨op, hop, hkeep⟩ := hall
      exact Or.inr ⟨op, hop, fun hin => hkeep (List.mem_filter.1 hin).2⟩
  · exact Or.inr ⟨dropped, hmem, fun hin => hnot (List.mem_filter.1 hin).1⟩

/-- What follows the kept part is what the cursor has not passed. -/
theorem kept_drop (h : Kept l pendingOps) (hall : ∀ op ∈ l, op ∈ pendingOps) :
    l ++ pendingOps.drop l.length = pendingOps := by
  rcases h with ⟨rest, rfl⟩ | ⟨dropped, hmem, hnot⟩
  · rw [List.drop_left]
  · exact absurd (hall dropped hmem) hnot

end Kept

/-- The write of the running persist brings the journal in step with what it read, unless the
journal holds something dropped. -/
structure InStep (F : OpFormat Op) (s : State Op) (m : Memory Op) (r : Running Op) : Prop where
  appending : ∀ delta, r.phase = .appending delta → r.persist.kind = .append ∧
    Kept (records F.toCodec s.journal ++ delta) m.pendingOps ∧
    r.found ⊆ records F.toCodec s.journal ∧
    (r.found ⊆ r.read → records F.toCodec s.journal ++ delta = r.read)
  opening : r.phase = .opening → r.persist.kind = .rewrite
  rewriting : ∀ ops, r.phase = .rewriting ops → r.persist.kind = .rewrite ∧
    Kept ops m.pendingOps ∧ ops = r.read
  finishing : r.phase = .finishing →
    (r.persist.kind = .append → r.found ⊆ records F.toCodec s.journal) ∧
    ((r.persist.kind = .append → r.found ⊆ r.read) → records F.toCodec s.journal = r.read)
  read : r.phase ≠ .opening → (r.read.map F.id).Nodup ∧ r.read ⊆ s.recorded ∧
    (r.read <+: m.pendingOps ∨ ∃ p ∈ m.queue, p.kind = .rewrite)

/-- Without crashes the cursor counts the lines of the journal. -/
structure Counted (F : OpFormat Op) (s : State Op) : Prop where
  known : Known F s
  ended : Ended s.journal
  alive : s.memory ≠ none
  unique : ∀ m, s.memory = some m → (m.pendingOps.map F.id).Nodup
  count : ∀ m, s.memory = some m → m.persistedCount = (records F.toCodec s.journal).length
  kept : ∀ m, s.memory = some m → Kept (records F.toCodec s.journal) m.pendingOps
  running : ∀ m r, s.memory = some m → m.running = some r → InStep F s m r

def NoCrash : Event Op → Prop
  | .crash _ _ => False
  | _ => True

variable {F : OpFormat Op} {s t : State Op} {e : Event Op} {m : Memory Op}

theorem notMem_of_id {op : Op} {l recorded : List Op} (hid : F.id op ∉ recorded.map F.id)
    (hl : l ⊆ recorded) : op ∉ l := fun hop => hid (List.mem_map_of_mem (hl hop))

/-- What a persist in progress needs to stay in step while nothing is written. -/
theorem inStep_of_memory {r : Running Op} {t : State Op} {m' : Memory Op} (h : InStep F s m r)
    (hjournal : t.journal = s.journal) (hrecorded : s.recorded ⊆ t.recorded)
    (hkept : ∀ l, l ⊆ s.recorded → Kept l m.pendingOps → Kept l m'.pendingOps)
    (hknown : Known F s) (hm : s.memory = some m) (hr : m.running = some r)
    (hread : r.read <+: m.pendingOps ∨ (∃ p ∈ m.queue, p.kind = .rewrite) →
      r.read <+: m'.pendingOps ∨ ∃ p ∈ m'.queue, p.kind = .rewrite) : InStep F t m' r := by
  have hops := hknown.inFlight m r hm hr
  refine ⟨?_, h.opening, ?_, ?_, ?_⟩
  · intro delta hphase
    obtain ⟨hkind, hk, hfound, hclean⟩ := h.appending delta hphase
    rw [hphase] at hops
    rw [hjournal]
    exact ⟨hkind, hkept _ (List.append_subset.2 ⟨hknown.journal, hops⟩) hk, hfound, hclean⟩
  · intro ops hphase
    obtain ⟨hkind, hk, heq⟩ := h.rewriting ops hphase
    rw [hphase] at hops
    exact ⟨hkind, hkept ops hops hk, heq⟩
  · rw [hjournal]
    exact h.finishing
  · intro hphase
    obtain ⟨hnodup, hin, hlead⟩ := h.read hphase
    exact ⟨hnodup, List.Subset.trans hin hrecorded, hread hlead⟩

theorem rewrite_enqueued (h : ∃ p ∈ m.queue, p.kind = .rewrite) (kind : PersistKind) :
    ∃ p ∈ (m.enqueue kind).queue, p.kind = .rewrite := by
  obtain ⟨p, hp, hkind⟩ := h
  exact ⟨p, List.mem_append_left _ hp, hkind⟩

theorem inStep_begin (h : Counted F s) (hm : s.memory = some m) {p : Persist Op}
    {rest : List (Persist Op)} :
    InStep F { s with
      memory := some { m with queue := rest, running := some (m.begin F s.journal p) } }
      { m with queue := rest, running := some (m.begin F s.journal p) }
      (m.begin F s.journal p) := by
  have hkept := h.kept m hm
  have hdrop : m.unwritten = m.pendingOps.drop (records F.toCodec s.journal).length := by
    rw [Memory.unwritten, h.count m hm]
  have hread : (m.pendingOps.map F.id).Nodup ∧ m.pendingOps ⊆ s.recorded ∧
      (m.pendingOps <+: m.pendingOps ∨ ∃ p ∈ rest, p.kind = .rewrite) :=
    ⟨h.unique m hm, h.known.pending m hm, Or.inl (List.prefix_refl _)⟩
  cases hkind : p.kind with
  | rewrite =>
      have hbegin : m.begin F s.journal p =
          ⟨p, .opening, m.pendingOps, records F.toCodec s.journal⟩ := by
        simp only [Memory.begin, hkind]
      rw [hbegin]
      refine ⟨?_, fun _ => hkind, ?_, ?_, fun hphase => absurd rfl hphase⟩
      · rintro _ ⟨⟩
      · rintro _ ⟨⟩
      · rintro ⟨⟩
  | append =>
      cases hu : m.unwritten with
      | nil =>
          have hbegin : m.begin F s.journal p =
              ⟨p, .finishing, m.pendingOps, records F.toCodec s.journal⟩ := by
            simp only [Memory.begin, hkind, hu]
          rw [hbegin]
          refine ⟨?_, ?_, ?_, fun _ => ⟨fun _ => List.Subset.refl _, ?_⟩, fun _ => hread⟩
          · rintro _ ⟨⟩
          · rintro ⟨⟩
          · rintro _ ⟨⟩
          · intro hclean
            have hall := kept_drop hkept (hclean hkind)
            rwa [← hdrop, hu, List.append_nil] at hall
      | cons op more =>
          have hbegin : m.begin F s.journal p =
              ⟨p, .appending (op :: more), m.pendingOps, records F.toCodec s.journal⟩ := by
            simp only [Memory.begin, hkind, hu]
          rw [hbegin]
          refine ⟨?_, by rintro ⟨⟩, by rintro _ ⟨⟩, by rintro ⟨⟩, fun _ => hread⟩
          rintro _ ⟨⟩
          have hstep : records F.toCodec s.journal ⊆ m.pendingOps →
              records F.toCodec s.journal ++ (op :: more) = m.pendingOps := by
            intro hall
            rw [← hu, hdrop]
            exact kept_drop hkept hall
          refine ⟨hkind, ?_, List.Subset.refl _, hstep⟩
          by_cases hall : records F.toCodec s.journal ⊆ m.pendingOps
          · rw [hstep hall]
            exact kept_self
          · have hdropped : ¬ ∀ op ∈ records F.toCodec s.journal, op ∈ m.pendingOps :=
              fun h => hall fun op hop => h op hop
            push Not at hdropped
            obtain ⟨dropped, hmem, hnot⟩ := hdropped
            exact Or.inr ⟨dropped, List.mem_append_left _ hmem, hnot⟩

theorem counted_shrink (h : Counted F s) (hm : s.memory = some m) (keep : Op → Bool)
    (hknown : Known F (s.shrink m keep)) : Counted F (s.shrink m keep) := by
  refine ⟨hknown, h.ended, nofun, ?_, ?_, ?_, ?_⟩
  · rintro _ ⟨⟩
    exact (h.unique m hm).sublist (List.filter_sublist.map _)
  · rintro _ ⟨⟩
    exact h.count m hm
  · rintro _ ⟨⟩
    exact kept_filter (h.kept m hm) keep
  · rintro _ r ⟨⟩ hr
    obtain ⟨r', hr', rfl⟩ := Option.map_eq_some_iff.1 hr
    have hstep : InStep F (s.shrink m keep) ((m.shrink keep).enqueue .rewrite) r' := by
      apply inStep_of_memory (t := s.shrink m keep) (h.running m r' hm hr') rfl
        (List.Subset.refl s.recorded) _ h.known hm hr'
      · intro _
        exact Or.inr ⟨_, List.mem_append_right _ List.mem_cons_self, rfl⟩
      · exact fun l _ hk => kept_filter hk keep
    exact ⟨hstep.appending, hstep.opening, hstep.rewriting, hstep.finishing, hstep.read⟩

theorem counted_push (h : Counted F s) (hm : s.memory = some m) {op : Op}
    (hid : F.id op ∉ s.recorded.map F.id) {m' : Memory Op}
    (hpending : m'.pendingOps = m.pendingOps ++ [op])
    (hcount : m'.persistedCount = m.persistedCount) (hrunning : m'.running = m.running)
    (hqueue : (∃ p ∈ m.queue, p.kind = .rewrite) → ∃ p ∈ m'.queue, p.kind = .rewrite)
    (hknown : Known F { s with memory := some m', recorded := s.recorded ++ [op] }) :
    Counted F { s with memory := some m', recorded := s.recorded ++ [op] } := by
  have hkept : ∀ l, l ⊆ s.recorded → Kept l m.pendingOps → Kept l m'.pendingOps := by
    intro l hl hk
    rw [hpending]
    exact kept_push hk (notMem_of_id hid hl)
  refine ⟨hknown, h.ended, nofun, ?_, ?_, ?_, ?_⟩
  · rintro _ ⟨⟩
    rw [hpending]
    apply unique_concat (h.unique m hm)
    intro hin
    obtain ⟨other, hother, hsame⟩ := List.mem_map.1 hin
    exact hid (hsame ▸ List.mem_map_of_mem (h.known.pending m hm hother))
  · rintro _ ⟨⟩
    exact hcount.trans (h.count m hm)
  · rintro _ ⟨⟩
    exact hkept _ h.known.journal (h.kept m hm)
  · rintro _ r ⟨⟩ hr
    rw [hrunning] at hr
    refine inStep_of_memory (h.running m r hm hr) rfl (List.subset_append_left _ _) hkept h.known
      hm hr ?_
    rintro (hlead | hq)
    · exact Or.inl (hpending ▸ hlead.trans (List.prefix_append _ _))
    · exact Or.inr (hqueue hq)

theorem counted_step (h : Counted F s) (hcrash : NoCrash e) (hs : Steps F s e t) :
    Counted F t := by
  have hknown := known_step h.known (fun _ _ _ _ _ _ => h.ended) hs
  cases hs with
  | @push m op hm hid => exact counted_push h hm hid rfl rfl rfl id hknown
  | @recordOp m op hm hid =>
      exact counted_push h hm hid rfl rfl rfl (fun hq => rewrite_enqueued (m := m.push op) hq .append) hknown
  | @appendOpLog m hm =>
      refine ⟨hknown, h.ended, nofun, ?_, ?_, ?_, ?_⟩
      · rintro _ ⟨⟩
        exact h.unique m hm
      · rintro _ ⟨⟩
        exact h.count m hm
      · rintro _ ⟨⟩
        exact h.kept m hm
      · rintro _ r ⟨⟩ hr
        refine inStep_of_memory (h.running m r hm hr) rfl (List.Subset.refl s.recorded)
          (fun _ _ => id) h.known hm hr ?_
        exact fun hlead => hlead.imp_right fun hq => rewrite_enqueued hq .append
  | @clearOps m hm | @prune m fileId hm => exact counted_shrink h hm _ hknown
  | @start m p rest hm hr hq =>
      refine ⟨hknown, h.ended, nofun, ?_, ?_, ?_, ?_⟩
      · rintro _ ⟨⟩
        exact h.unique m hm
      · rintro _ ⟨⟩
        exact h.count m hm
      · rintro _ ⟨⟩
        exact h.kept m hm
      · rintro _ r ⟨⟩ ⟨⟩
        exact inStep_begin h hm
  | @read m p read found hm hr =>
      have hkind := (h.running m _ hm hr).opening rfl
      refine ⟨hknown, h.ended, nofun, ?_, ?_, ?_, ?_⟩
      · rintro _ ⟨⟩
        exact h.unique m hm
      · rintro _ ⟨⟩
        exact h.count m hm
      · rintro _ ⟨⟩
        exact h.kept m hm
      · rintro _ r ⟨⟩ ⟨⟩
        refine ⟨nofun, nofun, ?_, nofun, fun _ => ?_⟩
        · rintro _ ⟨⟩
          exact ⟨hkind, kept_self, rfl⟩
        · exact ⟨h.unique m hm, h.known.pending m hm, Or.inl (List.prefix_refl _)⟩
  | @appended m p delta read found hm hr =>
      have hstep := h.running m _ hm hr
      obtain ⟨hkind, hk, hfound, hclean⟩ := hstep.appending delta rfl
      have hrecords : records F.toCodec (s.journal ++ text F.toCodec delta) =
          records F.toCodec s.journal ++ delta := by
        rw [records_append h.ended, records_text]
      refine ⟨hknown, ended_append (ended_text delta) h.ended, nofun, ?_, ?_, ?_, ?_⟩
      · rintro _ ⟨⟩
        exact h.unique m hm
      · rintro _ ⟨⟩
        rw [hrecords, List.length_append, ← h.count m hm]
      · rintro _ ⟨⟩
        rw [hrecords]
        exact hk
      · rintro _ r ⟨⟩ ⟨⟩
        refine ⟨nofun, nofun, nofun, fun _ => ?_, fun _ => hstep.read nofun⟩
        rw [hrecords]
        exact ⟨fun _ => List.Subset.trans hfound (List.subset_append_left _ _),
          fun h => hclean (h hkind)⟩
  | @rewritten m p ops read found hm hr =>
      have hstep := h.running m _ hm hr
      obtain ⟨hkind, hk, heq⟩ := hstep.rewriting ops rfl
      refine ⟨hknown, ended_text ops, nofun, ?_, ?_, ?_, ?_⟩
      · rintro _ ⟨⟩
        exact h.unique m hm
      · rintro _ ⟨⟩
        rw [records_text]
      · rintro _ ⟨⟩
        rw [records_text]
        exact hk
      · rintro _ r ⟨⟩ ⟨⟩
        refine ⟨nofun, nofun, nofun, fun _ => ?_, fun _ => hstep.read nofun⟩
        rw [records_text]
        exact ⟨fun happend => absurd (hkind.symm.trans happend) nofun, fun _ => heq⟩
  | @fail m r hm hr | @resolve m p read found hm hr =>
      refine ⟨hknown, h.ended, nofun, ?_, ?_, ?_, ?_⟩
      · rintro _ ⟨⟩
        exact h.unique m hm
      · rintro _ ⟨⟩
        exact h.count m hm
      · rintro _ ⟨⟩
        exact h.kept m hm
      · rintro _ r ⟨⟩ ⟨⟩
  | crash => exact hcrash.elim
  | load hm => exact absurd hm h.alive

theorem counted_opened {ops : List Op} (hids : (ops.map F.id).Nodup) :
    Counted F (opened F ops) := by
  refine ⟨known_opened hids, ended_text ops, nofun, ?_, ?_, ?_, ?_⟩
  · rintro _ ⟨⟩
    exact hids
  · rintro _ ⟨⟩
    rw [opened, records_text]
  · rintro _ ⟨⟩
    rw [opened, records_text]
    exact kept_self
  · rintro _ r ⟨⟩ ⟨⟩

/-- When a persist resolves with nothing queued behind it, the journal loads to just the ops
it read, exactly when it was a rewrite or the journal it found held nothing dropped. -/
theorem persist_exact_iff {ops : List Op} {events : List (Event Op)} {r : Running Op}
    (hids : (ops.map F.id).Nodup) (hcrash : Along (step F) (fun _ => NoCrash) (opened F ops) events)
    (hrun : run (step F) (opened F ops) events = some s) (hresolve : step F s .resolve = some t)
    (hm : s.memory = some m) (hr : m.running = some r) (hq : m.queue = []) :
    (loadOps F t.journal = r.read ∧ ∃ m', t.memory = some m' ∧ r.read <+: m'.pendingOps) ↔
      (r.persist.kind = .append → r.found ⊆ r.read) := by
  have hstep : ∀ s e t, Counted F s → NoCrash e → step F s e = some t → Counted F t :=
    fun s e t h hcrash hs => counted_step h hcrash (steps_of_step hs)
  have h := invariant_of_run hstep (counted_opened hids) hcrash hrun
  cases steps_of_step hresolve with
  | @resolve m₀ p read found hm₀ hr₀ =>
      obtain rfl := Option.some.inj (hm₀.symm.trans hm)
      obtain rfl := Option.some.inj (hr₀.symm.trans hr)
      have hrunning := h.running m₀ _ hm₀ hr₀
      obtain ⟨hfound, hexact⟩ := hrunning.finishing rfl
      obtain ⟨hnodup, hknown, hlead⟩ := hrunning.read nofun
      have hlead : read <+: m₀.pendingOps :=
        hlead.resolve_right (fun ⟨p, hp, _⟩ => List.not_mem_nil (hq ▸ hp))
      constructor
      · rintro ⟨hload, -⟩ hkind op hop
        rw [← hload]
        exact (mem_firstById h.known.unique h.known.journal).2 (hfound hkind hop)
      · intro hclean
        refine ⟨?_, _, rfl, hlead⟩
        rw [loadOps, hexact hclean]
        exact firstById_of_nodup hnodup fun _ _ => List.not_mem_nil

section Example

/-- The append of the first op fails; the next one writes both. -/
def failedAppend : List (Event SampleOp) :=
  [.recordOp .create, .start, .fail, .recordOp .update, .start, .written]

theorem persist_exact_example : ∃ s t m r,
    run (step sampleFormat) (opened sampleFormat []) failedAppend = some s ∧
      step sampleFormat s .resolve = some t ∧ s.memory = some m ∧ m.running = some r ∧
      m.queue = [] ∧ loadOps sampleFormat t.journal = r.read ∧ r.read = [.create, .update] := by
  have hids : (([] : List SampleOp).map sampleFormat.id).Nodup := List.nodup_nil
  have hcrash : Along (step sampleFormat) (fun _ => NoCrash) (opened sampleFormat []) failedAppend :=
    ⟨trivial, fun _ _ => ⟨trivial, fun _ _ => ⟨trivial, fun _ _ => ⟨trivial, fun _ _ => ⟨trivial,
      fun _ _ => ⟨trivial, fun _ _ => trivial⟩⟩⟩⟩⟩⟩
  refine ⟨_, _, _, _, rfl, rfl, rfl, rfl, rfl, ?_, rfl⟩
  exact ((persist_exact_iff hids hcrash rfl rfl rfl rfl rfl).2
    (fun _ => List.nil_subset _)).1

/-- The log is cleared, its rewrite fails, and the next op is never written. -/
def failedClear : List (Event SampleOp) :=
  [.recordOp .create, .start, .written, .resolve, .clearOps, .start, .fail, .recordOp .update,
    .start]

theorem cursor_beyond_array : ∃ s t m r,
    run (step sampleFormat) (opened sampleFormat []) failedClear = some s ∧
      step sampleFormat s .resolve = some t ∧ s.memory = some m ∧ m.running = some r ∧
      m.queue = [] ∧ r.read = [.update] ∧ loadOps sampleFormat t.journal = [.create] :=
  ⟨_, _, _, _, rfl, rfl, rfl, rfl, rfl, rfl, by decide⟩

end Example

end OpsBlobs.OplogFailure
