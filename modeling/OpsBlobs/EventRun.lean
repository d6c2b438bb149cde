import Mathlib.Logic.Basic

namespace OpsBlobs.EventRun

variable {State Event : Type} (step : State → Event → Option State)

/-- A run of a machine that not every event can happen to in every state. -/
def run : State → List Event → Option State
  | s, [] => some s
  | s, e :: rest =>
      match step s e with
      | none => none
      | some t => run t rest

/-- Every event of the run meets a condition in the state it happens in. -/
def Along (cond : State → Event → Prop) : State → List Event → Prop
  | _, [] => True
  | s, e :: rest => cond s e ∧ ∀ t, step s e = some t → Along cond t rest

instance decidableAlong (cond : State → Event → Prop) [h : ∀ s e, Decidable (cond s e)] :
    ∀ s events, Decidable (Along step cond s events)
  | _, [] => isTrue trivial
  | s, e :: rest =>
      match hs : step s e with
      | none => decidable_of_iff (cond s e) ⟨fun hc => ⟨hc, fun _ ht => nomatch hs.symm.trans ht⟩,
          And.left⟩
      | some t =>
          have := decidableAlong cond t rest
          decidable_of_iff (cond s e ∧ Along step cond t rest) (and_congr_right fun _ =>
            ⟨fun hr _ ht => Option.some.inj (hs.symm.trans ht) ▸ hr, fun hr => hr t hs⟩)

variable {step} {cond : State → Event → Prop} {s t : State} {e : Event} {events more : List Event}

theorem run_cons : run step s (e :: events) = some t ↔
    ∃ s', step s e = some s' ∧ run step s' events = some t := by
  rw [run]
  cases h : step s e with
  | none => simp
  | some s' => simp

theorem run_append : run step s (events ++ more) = some t ↔
    ∃ s', run step s events = some s' ∧ run step s' more = some t := by
  induction events generalizing s with
  | nil => simp [run]
  | cons e events ih =>
      rw [List.cons_append, run_cons]
      simp only [ih, run_cons]
      constructor
      · rintro ⟨u, hu, s', hs, ht⟩
        exact ⟨s', ⟨u, hu, hs⟩, ht⟩
      · rintro ⟨s', ⟨u, hu, hs⟩, ht⟩
        exact ⟨u, hu, s', hs, ht⟩

theorem along_append : Along step cond s (events ++ more) ↔
    Along step cond s events ∧ ∀ t, run step s events = some t → Along step cond t more := by
  induction events generalizing s with
  | nil => exact ⟨fun h => ⟨trivial, fun t ht => Option.some.inj ht ▸ h⟩, fun h => h.2 s rfl⟩
  | cons e events ih =>
      rw [List.cons_append, Along, Along, and_assoc]
      apply and_congr_right
      intro _
      simp only [ih, run_cons]
      constructor
      · intro h
        refine ⟨fun u hu => (h u hu).1, ?_⟩
        rintro t ⟨u, hu, ht⟩
        exact (h u hu).2 t ht
      · rintro ⟨hevents, hmore⟩ u hu
        exact ⟨hevents u hu, fun t ht => hmore t ⟨u, hu, ht⟩⟩

theorem along_congr {cond' : State → Event → Prop} (h : ∀ s e, cond s e ↔ cond' s e) :
    Along step cond s events ↔ Along step cond' s events := by
  induction events generalizing s with
  | nil => exact Iff.rfl
  | cons e events ih => exact and_congr (h s e) (forall_congr' fun t => imp_congr_right fun _ => ih)

/-- What every event that meets the condition keeps, every such run keeps. -/
theorem invariant_of_run {Inv : State → Prop}
    (hstep : ∀ s e t, Inv s → cond s e → step s e = some t → Inv t)
    (hinv : Inv s) (hcond : Along step cond s events) (hrun : run step s events = some t) :
    Inv t := by
  induction events generalizing s with
  | nil => exact Option.some.inj hrun ▸ hinv
  | cons e events ih =>
      obtain ⟨s', hs, hrun⟩ := run_cons.1 hrun
      exact ih (hstep s e s' hinv hcond.1 hs) (hcond.2 s' hs) hrun

theorem along_mono {cond' : State → Event → Prop} (h : ∀ s e, cond s e → cond' s e)
    (hcond : Along step cond s events) : Along step cond' s events := by
  induction events generalizing s with
  | nil => trivial
  | cons e events ih => exact ⟨h s e hcond.1, fun t ht => ih (hcond.2 t ht)⟩

/-- What an invariant makes of a condition on the events. -/
theorem along_of_invariant {Inv : State → Prop} {cond' : State → Event → Prop}
    (hstep : ∀ s e t, Inv s → cond s e → step s e = some t → Inv t)
    (hmeets : ∀ s e, Inv s → cond s e → cond' s e) (hinv : Inv s)
    (hcond : Along step cond s events) : Along step cond' s events := by
  induction events generalizing s with
  | nil => trivial
  | cons e events ih =>
      refine ⟨hmeets s e hinv hcond.1, fun t ht => ?_⟩
      exact ih (hstep s e t hinv hcond.1 ht) (hcond.2 t ht)

end OpsBlobs.EventRun
