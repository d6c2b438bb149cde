import OpsBlobs.Interleaving
import OpsBlobs.WriteEffects

namespace OpsBlobs.CarefulRun

open Coroutine Interleaving

variable {σ ε : Type}

section Careful

variable (Env : σ → σ → Prop) (Spawn : σ → Coroutine σ ε Unit → Prop) (C : σ → σ → Prop)

/-- A step that meets a condition on the states before and after it. -/
def CarefulStep (p p' : Pool σ ε) : Prop := Step Env Spawn p p' ∧ C p.state p'.state

abbrev CarefulRuns : Pool σ ε → Pool σ ε → Prop := Relation.ReflTransGen (CarefulStep Env Spawn C)

variable {Env Spawn C} {G : σ → σ → Prop} {Q : Except ε Unit → σ → Prop} {p p' : Pool σ ε}

theorem runs_of_careful (h : CarefulRuns Env Spawn C p p') : Runs Env Spawn p p' :=
  Relation.ReflTransGen.mono (fun _ _ hs => hs.1) _ _ h

/-- The proof state of the main coroutine alone: the condition is all it relies on. -/
structure MainHolds (C G : σ → σ → Prop) (Q : Except ε Unit → σ → Prop) (p : Pool σ ε) : Prop where
  runs : p.turn = .main → wp C G p.main Q p.state
  parked : p.turn ≠ .main → Parked C G Q p.main p.state

theorem parked_of_careful {t : Coroutine σ ε Unit} {s : σ} (hrefl : C s s) (hstop : Stops t)
    (h : wp C G t Q s) : Parked C G Q t s := by
  cases t with
  | ret a => exact ⟨s, h, hrefl⟩
  | fail e => exact ⟨s, h, hrefl⟩
  | await ready next => exact h
  | read k => exact hstop.elim
  | write s' next => exact hstop.elim

theorem mainHolds_step (htrans : ∀ s₁ s₂ s₃, C s₁ s₂ → C s₂ s₃ → C s₁ s₃)
    (h : MainHolds C G Q p) (hs : CarefulStep Env Spawn C p p') : MainHolds C G Q p' := by
  obtain ⟨hstep, hC⟩ := hs
  cases hstep with
  | env _ => exact ⟨nofun, fun ht => parked_step htrans (h.parked ht) hC⟩
  | spawn _ => exact ⟨nofun, fun _ => h.parked nofun⟩
  | mainResume hr =>
      exact ⟨fun _ => h.parked nofun _ hC hr, fun ht => absurd rfl ht⟩
  | mainRead => exact ⟨fun _ => h.runs rfl, fun ht => absurd rfl ht⟩
  | mainWrite => exact ⟨fun _ => (h.runs rfl).2, fun ht => absurd rfl ht⟩
  | mainStop hstop =>
      exact ⟨nofun, fun _ => parked_of_careful hC hstop (h.runs rfl)⟩
  | handlerResume _ => exact ⟨nofun, fun _ => h.parked nofun⟩
  | handlerRead => exact ⟨nofun, fun _ => h.parked nofun⟩
  | handlerWrite =>
      exact ⟨nofun,
        fun _ => parked_step htrans (h.parked nofun) hC⟩
  | handlerStop _ => exact ⟨nofun, fun _ => h.parked nofun⟩

theorem mainHolds_of_runs (htrans : ∀ s₁ s₂ s₃, C s₁ s₂ → C s₂ s₃ → C s₁ s₃)
    (h : MainHolds C G Q p) (hr : CarefulRuns Env Spawn C p p') : MainHolds C G Q p' := by
  induction hr with
  | refl => exact h
  | tail _ hs ih => exact mainHolds_step htrans ih hs

/-- In every run whose steps meet the condition, each write of the main coroutine is a step
it guarantees. -/
theorem main_guarantee (htrans : ∀ s₁ s₂ s₃, C s₁ s₂ → C s₂ s₃ → C s₁ s₃)
    (h : MainHolds C G Q p) {s s' : σ} {next : Coroutine σ ε Unit}
    {handlers : List (Coroutine σ ε Unit)}
    (hr : CarefulRuns Env Spawn C p ⟨s, .write s' next, handlers, .main⟩) : G s s' :=
  ((mainHolds_of_runs htrans h hr).runs rfl).1

end Careful

section Turns

/-- A coroutine's turn: it goes on up to where it stops. -/
def takeTurn : Coroutine σ ε Unit → σ → Coroutine σ ε Unit × σ
  | .read k, s => takeTurn (k s) s
  | .write s' next, _ => takeTurn next s'
  | .ret a, s => (.ret a, s)
  | .fail e, s => (.fail e, s)
  | .await ready next, s => (.await ready next, s)

/-- The first reads and writes of a turn. -/
def takeSteps : Nat → Coroutine σ ε Unit → σ → Coroutine σ ε Unit × σ
  | n + 1, .read k, s => takeSteps n (k s) s
  | n + 1, .write s' next, _ => takeSteps n next s'
  | _, t, s => (t, s)

/-- Who goes next, for a whole turn; a handler is taken by its place in the list. -/
inductive Choice
  | main
  | handler (i : Nat)
  deriving DecidableEq, Repr

/-- A pool in which nobody has the turn. -/
structure Resting (σ ε : Type) where
  state : σ
  main : Coroutine σ ε Unit
  handlers : List (Coroutine σ ε Unit)

def Resting.pool (r : Resting σ ε) : Pool σ ε := ⟨r.state, r.main, r.handlers, .nobody⟩

def choose : Choice → Resting σ ε → Option (Resting σ ε)
  | .main, ⟨s, .await ready next, handlers⟩ =>
      if ready s then some ⟨(takeTurn next s).2, (takeTurn next s).1, handlers⟩ else none
  | .main, _ => none
  | .handler i, ⟨s, main, handlers⟩ =>
      match handlers[i]? with
      | some (.await ready next) =>
          if ready s then
            some ⟨(takeTurn next s).2, main, (takeTurn next s).1 :: handlers.eraseIdx i⟩
          else none
      | _ => none

def schedule : List Choice → Resting σ ε → Option (Resting σ ε)
  | [], r => some r
  | c :: rest, r => (choose c r).bind (schedule rest)

variable {Env : σ → σ → Prop} {Spawn : σ → Coroutine σ ε Unit → Prop}

theorem runs_takeSteps (n : Nat) (t : Coroutine σ ε Unit) (s : σ)
    (handlers : List (Coroutine σ ε Unit)) :
    Runs Env Spawn ⟨s, t, handlers, .main⟩
      ⟨(takeSteps n t s).2, (takeSteps n t s).1, handlers, .main⟩ := by
  induction n generalizing t s with
  | zero => exact .refl
  | succ n ih =>
      cases t with
      | read k => exact .head .mainRead (ih (k s) s)
      | write s' next => exact .head .mainWrite (ih next s')
      | ret a => exact .refl
      | fail e => exact .refl
      | await ready next => exact .refl

/-- The same, when the condition holds from each state to the next. -/
theorem careful_takeSteps {C : σ → σ → Prop} (n : Nat) (t : Coroutine σ ε Unit) (s : σ)
    (handlers : List (Coroutine σ ε Unit))
    (h : ∀ m < n, C (takeSteps m t s).2 (takeSteps (m + 1) t s).2) :
    CarefulRuns Env Spawn C ⟨s, t, handlers, .main⟩
      ⟨(takeSteps n t s).2, (takeSteps n t s).1, handlers, .main⟩ := by
  induction n generalizing t s with
  | zero => exact .refl
  | succ n ih =>
      cases t with
      | read k =>
          exact .head ⟨.mainRead, h 0 (Nat.zero_lt_succ n)⟩
            (ih (k s) s fun m hm => h (m + 1) (Nat.succ_lt_succ hm))
      | write s' next =>
          exact .head ⟨.mainWrite, h 0 (Nat.zero_lt_succ n)⟩
            (ih next s' fun m hm => h (m + 1) (Nat.succ_lt_succ hm))
      | ret a => exact .refl
      | fail e => exact .refl
      | await ready next => exact .refl

theorem runs_mainTurn (t : Coroutine σ ε Unit) (s : σ) (handlers : List (Coroutine σ ε Unit)) :
    Runs Env Spawn ⟨s, t, handlers, .main⟩
      ⟨(takeTurn t s).2, (takeTurn t s).1, handlers, .nobody⟩ := by
  induction t generalizing s with
  | ret a => exact .single (.mainStop trivial)
  | fail e => exact .single (.mainStop trivial)
  | await ready next => exact .single (.mainStop trivial)
  | read k ih => exact .head .mainRead (ih s s)
  | write s' next ih => exact .head .mainWrite (ih s')

theorem runs_handlerTurn (t main : Coroutine σ ε Unit) (s : σ)
    (handlers : List (Coroutine σ ε Unit)) :
    Runs Env Spawn ⟨s, main, handlers, .handler t⟩
      ⟨(takeTurn t s).2, main, (takeTurn t s).1 :: handlers, .nobody⟩ := by
  induction t generalizing s with
  | ret a => exact .single (.handlerStop trivial)
  | fail e => exact .single (.handlerStop trivial)
  | await ready next => exact .single (.handlerStop trivial)
  | read k ih => exact .head .handlerRead (ih s s)
  | write s' next ih => exact .head .handlerWrite (ih s')

theorem runs_of_choose {c : Choice} {r r' : Resting σ ε} (h : choose c r = some r') :
    Runs Env Spawn r.pool r'.pool := by
  obtain ⟨s, main, handlers⟩ := r
  cases c with
  | main =>
      cases main with
      | await ready next =>
          simp only [choose] at h
          split at h
          · rename_i hr
            obtain rfl := Option.some.inj h
            exact .head (.mainResume hr) (runs_mainTurn next s handlers)
          · cases h
      | _ => cases h
  | handler i =>
      simp only [choose] at h
      split at h
      · rename_i ready next hi
        split at h
        · rename_i hr
          obtain rfl := Option.some.inj h
          obtain ⟨hlt, hget⟩ := List.getElem?_eq_some_iff.1 hi
          have hsplit : handlers = handlers.take i ++ .await ready next :: handlers.drop (i + 1) := by
            rw [← hget, List.getElem_cons_drop, List.take_append_drop]
          have hrest : handlers.eraseIdx i = handlers.take i ++ handlers.drop (i + 1) :=
            List.eraseIdx_eq_take_drop_succ handlers i
          rw [hrest]
          have hstep : Step Env Spawn
              ⟨s, main, handlers.take i ++ .await ready next :: handlers.drop (i + 1), .nobody⟩
              ⟨s, main, handlers.take i ++ handlers.drop (i + 1), .handler next⟩ :=
            .handlerResume hr
          rw [← hsplit] at hstep
          exact .head hstep (runs_handlerTurn next main s _)
        · cases h
      · cases h

/-- Every schedule is a run. -/
theorem runs_of_schedule {choices : List Choice} {r r' : Resting σ ε}
    (h : schedule choices r = some r') : Runs Env Spawn r.pool r'.pool := by
  induction choices generalizing r with
  | nil =>
      obtain rfl := Option.some.inj h
      exact .refl
  | cons c rest ih =>
      obtain ⟨r₁, hc, hrest⟩ := Option.bind_eq_some_iff.1 h
      exact (runs_of_choose hc).trans (ih hrest)

end Turns

end OpsBlobs.CarefulRun
