import OpsBlobs.Coroutine

namespace OpsBlobs.Interleaving

open Coroutine

variable {σ ε : Type}

inductive Turn (σ ε : Type) : Type
  | nobody
  | main
  | handler (t : Coroutine σ ε Unit)

/-- One main coroutine and the event handlers started while it runs. They share the state
and take turns: whoever runs keeps the turn up to its next `await`. -/
structure Pool (σ ε : Type) where
  state : σ
  main : Coroutine σ ε Unit
  handlers : List (Coroutine σ ε Unit)
  turn : Turn σ ε

def Stops : Coroutine σ ε Unit → Prop
  | .ret _ | .fail _ | .await _ _ => True
  | _ => False

/-- `Env` is what the outside world does to the state, `Spawn` which handlers it may start. -/
inductive Step (Env : σ → σ → Prop) (Spawn : σ → Coroutine σ ε Unit → Prop) :
    Pool σ ε → Pool σ ε → Prop
  | env {s s' main handlers} (h : Env s s') :
      Step Env Spawn ⟨s, main, handlers, .nobody⟩ ⟨s', main, handlers, .nobody⟩
  | spawn {s main handlers t} (h : Spawn s t) :
      Step Env Spawn ⟨s, main, handlers, .nobody⟩ ⟨s, main, handlers, .handler t⟩
  | mainResume {s ready next handlers} (h : ready s = true) :
      Step Env Spawn ⟨s, .await ready next, handlers, .nobody⟩ ⟨s, next, handlers, .main⟩
  | mainRead {s k handlers} :
      Step Env Spawn ⟨s, .read k, handlers, .main⟩ ⟨s, k s, handlers, .main⟩
  | mainWrite {s s' next handlers} :
      Step Env Spawn ⟨s, .write s' next, handlers, .main⟩ ⟨s', next, handlers, .main⟩
  | mainStop {s main handlers} (h : Stops main) :
      Step Env Spawn ⟨s, main, handlers, .main⟩ ⟨s, main, handlers, .nobody⟩
  | handlerResume {s main ready next before after} (h : ready s = true) :
      Step Env Spawn ⟨s, main, before ++ .await ready next :: after, .nobody⟩
        ⟨s, main, before ++ after, .handler next⟩
  | handlerRead {s main handlers k} :
      Step Env Spawn ⟨s, main, handlers, .handler (.read k)⟩ ⟨s, main, handlers, .handler (k s)⟩
  | handlerWrite {s s' main handlers next} :
      Step Env Spawn ⟨s, main, handlers, .handler (.write s' next)⟩
        ⟨s', main, handlers, .handler next⟩
  | handlerStop {s main handlers t} (h : Stops t) :
      Step Env Spawn ⟨s, main, handlers, .handler t⟩ ⟨s, main, t :: handlers, .nobody⟩

abbrev Runs (Env : σ → σ → Prop) (Spawn : σ → Coroutine σ ε Unit → Prop) :
    Pool σ ε → Pool σ ε → Prop := Relation.ReflTransGen (Step Env Spawn)

/-- A coroutine that does not have the turn: it tolerates whatever `R` does meanwhile. -/
def Parked (R G : σ → σ → Prop) (Q : Except ε Unit → σ → Prop) (t : Coroutine σ ε Unit)
    (s : σ) : Prop :=
  match t with
  | .ret a => ∃ s₀, Q (.ok a) s₀ ∧ R s₀ s
  | .fail e => ∃ s₀, Q (.error e) s₀ ∧ R s₀ s
  | .await ready next => ∀ s', R s s' → ready s' = true → wp R G next Q s'
  | _ => False

theorem parked_of_wp {R G : σ → σ → Prop} {Q : Except ε Unit → σ → Prop}
    {t : Coroutine σ ε Unit} {s : σ} (hrefl : ∀ s, R s s) (hstop : Stops t)
    (h : wp R G t Q s) : Parked R G Q t s := by
  cases t with
  | ret a => exact ⟨s, h, hrefl s⟩
  | fail e => exact ⟨s, h, hrefl s⟩
  | await ready next => exact h
  | read k => exact hstop.elim
  | write s' next => exact hstop.elim

theorem parked_step {R G : σ → σ → Prop} {Q : Except ε Unit → σ → Prop}
    {t : Coroutine σ ε Unit} {s s' : σ} (htrans : ∀ s₁ s₂ s₃, R s₁ s₂ → R s₂ s₃ → R s₁ s₃)
    (h : Parked R G Q t s) (hs : R s s') : Parked R G Q t s' := by
  cases t with
  | ret a =>
      obtain ⟨s₀, hQ, h₀⟩ := h
      exact ⟨s₀, hQ, htrans _ _ _ h₀ hs⟩
  | fail e =>
      obtain ⟨s₀, hQ, h₀⟩ := h
      exact ⟨s₀, hQ, htrans _ _ _ h₀ hs⟩
  | await ready next => exact fun s'' hs' => h s'' (htrans _ _ _ hs hs')
  | read k => exact h.elim
  | write s'' next => exact h.elim

/-- The relies and guarantees of one main coroutine and its handlers. -/
structure Protocol (σ ε : Type) where
  mainRely : σ → σ → Prop
  mainGuarantee : σ → σ → Prop
  mainPost : Except ε Unit → σ → Prop
  handlerRely : σ → σ → Prop
  handlerGuarantee : σ → σ → Prop

namespace Protocol

variable (C : Protocol σ ε)

/-- Each side's rely covers the other sides' guarantees and the outside world. -/
structure Compatible (Env : σ → σ → Prop) (Spawn : σ → Coroutine σ ε Unit → Prop) : Prop where
  mainRefl : ∀ s, C.mainRely s s
  mainTrans : ∀ s₁ s₂ s₃, C.mainRely s₁ s₂ → C.mainRely s₂ s₃ → C.mainRely s₁ s₃
  handlerRefl : ∀ s, C.handlerRely s s
  handlerTrans : ∀ s₁ s₂ s₃, C.handlerRely s₁ s₂ → C.handlerRely s₂ s₃ → C.handlerRely s₁ s₃
  mainEnv : ∀ s s', Env s s' → C.mainRely s s'
  mainHandler : ∀ s s', C.handlerGuarantee s s' → C.mainRely s s'
  handlerEnv : ∀ s s', Env s s' → C.handlerRely s s'
  handlerHandler : ∀ s s', C.handlerGuarantee s s' → C.handlerRely s s'
  handlerMain : ∀ s s', C.mainGuarantee s s' → C.handlerRely s s'
  spawned : ∀ s t, Spawn s t → Within C.handlerRely C.handlerGuarantee t s

/-- The proof state of a pool: every coroutine still meets its part. -/
structure Holds (p : Pool σ ε) : Prop where
  mainRuns : p.turn = .main → wp C.mainRely C.mainGuarantee p.main C.mainPost p.state
  mainParked : p.turn ≠ .main → Parked C.mainRely C.mainGuarantee C.mainPost p.main p.state
  handlersParked : ∀ t ∈ p.handlers,
    Parked C.handlerRely C.handlerGuarantee (fun _ _ => True) t p.state
  handlerRuns : ∀ t, p.turn = .handler t →
    Within C.handlerRely C.handlerGuarantee t p.state

variable {C} {Env : σ → σ → Prop} {Spawn : σ → Coroutine σ ε Unit → Prop}

theorem holds_step (hC : C.Compatible Env Spawn) {p p' : Pool σ ε} (h : C.Holds p)
    (hs : Step Env Spawn p p') : C.Holds p' := by
  cases hs with
  | env he =>
      exact
        { mainRuns := fun ht => by cases ht
          mainParked := fun ht => parked_step hC.mainTrans (h.mainParked ht) (hC.mainEnv _ _ he)
          handlersParked := fun t ht =>
            parked_step hC.handlerTrans (h.handlersParked t ht) (hC.handlerEnv _ _ he)
          handlerRuns := fun t ht => by cases ht }
  | spawn he =>
      exact
        { mainRuns := fun ht => by cases ht
          mainParked := fun _ => h.mainParked (fun ht => by cases ht)
          handlersParked := h.handlersParked
          handlerRuns := fun t ht => by cases ht; exact hC.spawned _ _ he }
  | mainResume hr =>
      exact
        { mainRuns := fun _ => h.mainParked (fun ht => by cases ht) _ (hC.mainRefl _) hr
          mainParked := fun ht => absurd rfl ht
          handlersParked := h.handlersParked
          handlerRuns := fun t ht => by cases ht }
  | mainRead =>
      exact
        { mainRuns := fun _ => h.mainRuns rfl
          mainParked := fun ht => absurd rfl ht
          handlersParked := h.handlersParked
          handlerRuns := fun t ht => by cases ht }
  | mainWrite =>
      have hw := h.mainRuns rfl
      exact
        { mainRuns := fun _ => hw.2
          mainParked := fun ht => absurd rfl ht
          handlersParked := fun t ht =>
            parked_step hC.handlerTrans (h.handlersParked t ht) (hC.handlerMain _ _ hw.1)
          handlerRuns := fun t ht => by cases ht }
  | mainStop hstop =>
      exact
        { mainRuns := fun ht => by cases ht
          mainParked := fun _ => parked_of_wp hC.mainRefl hstop (h.mainRuns rfl)
          handlersParked := h.handlersParked
          handlerRuns := fun t ht => by cases ht }
  | @handlerResume s main ready next before after hr =>
      have hmem : Coroutine.await ready next ∈ before ++ Coroutine.await ready next :: after :=
        List.mem_append_right _ List.mem_cons_self
      exact
        { mainRuns := fun ht => by cases ht
          mainParked := fun _ => h.mainParked (fun ht => by cases ht)
          handlersParked := fun t ht => h.handlersParked t (by
            rcases List.mem_append.1 ht with ht | ht
            · exact List.mem_append_left _ ht
            · exact List.mem_append_right _ (List.mem_cons_of_mem _ ht))
          handlerRuns := fun t ht => by
            cases ht
            exact h.handlersParked _ hmem _ (hC.handlerRefl _) hr }
  | handlerRead =>
      have hw := h.handlerRuns _ rfl
      exact
        { mainRuns := fun ht => by cases ht
          mainParked := fun _ => h.mainParked (fun ht => by cases ht)
          handlersParked := h.handlersParked
          handlerRuns := fun t ht => by cases ht; exact hw }
  | handlerWrite =>
      have hw := h.handlerRuns _ rfl
      exact
        { mainRuns := fun ht => by cases ht
          mainParked := fun _ =>
            parked_step hC.mainTrans (h.mainParked (fun ht => by cases ht))
              (hC.mainHandler _ _ hw.1)
          handlersParked := fun t ht =>
            parked_step hC.handlerTrans (h.handlersParked t ht) (hC.handlerHandler _ _ hw.1)
          handlerRuns := fun t ht => by cases ht; exact hw.2 }
  | handlerStop hstop =>
      exact
        { mainRuns := fun ht => by cases ht
          mainParked := fun _ => h.mainParked (fun ht => by cases ht)
          handlersParked := fun t ht => by
            rcases List.mem_cons.1 ht with rfl | ht
            · exact parked_of_wp hC.handlerRefl hstop (h.handlerRuns _ rfl)
            · exact h.handlersParked t ht
          handlerRuns := fun t ht => by cases ht }

/-- Soundness: along every run each coroutine keeps its part of the protocol. -/
theorem holds_of_runs (hC : C.Compatible Env Spawn) {p p' : Pool σ ε} (h : C.Holds p)
    (hr : Runs Env Spawn p p') : C.Holds p' := by
  induction hr with
  | refl => exact h
  | tail _ hs ih => exact holds_step hC ih hs

/-- In every run each write of the main coroutine is a step it guarantees. -/
theorem mainGuarantee_of_runs (hC : C.Compatible Env Spawn) {p : Pool σ ε} (h : C.Holds p)
    {s s' : σ} {next : Coroutine σ ε Unit} {handlers : List (Coroutine σ ε Unit)}
    (hr : Runs Env Spawn p ⟨s, .write s' next, handlers, .main⟩) : C.mainGuarantee s s' :=
  ((holds_of_runs hC h hr).mainRuns rfl).1

/-- A property of the state that every step keeps holds along every run. -/
theorem invariant_of_runs (hC : C.Compatible Env Spawn) {I : σ → Prop}
    (henv : ∀ s s', Env s s' → I s → I s')
    (hmain : ∀ s s', C.mainGuarantee s s' → I s → I s')
    (hhandler : ∀ s s', C.handlerGuarantee s s' → I s → I s')
    {p p' : Pool σ ε} (h : C.Holds p) (hr : Runs Env Spawn p p') (hI : I p.state) :
    I p'.state := by
  induction hr with
  | refl => exact hI
  | tail hr hs ih =>
      have hp := holds_of_runs hC h hr
      cases hs with
      | env he => exact henv _ _ he ih
      | mainWrite => exact hmain _ _ (hp.mainRuns rfl).1 ih
      | handlerWrite => exact hhandler _ _ (hp.handlerRuns _ rfl).1 ih
      | spawn => exact ih
      | mainResume => exact ih
      | mainRead => exact ih
      | mainStop => exact ih
      | handlerResume => exact ih
      | handlerRead => exact ih
      | handlerStop => exact ih

/-- A handler may count on an invariant of the state in which it is started. -/
theorem runs_under {I : σ → Prop} (hC : C.Compatible Env (fun s t => Spawn s t ∧ I s))
    (henv : ∀ s s', Env s s' → I s → I s')
    (hmain : ∀ s s', C.mainGuarantee s s' → I s → I s')
    (hhandler : ∀ s s', C.handlerGuarantee s s' → I s → I s')
    {p p' : Pool σ ε} (h : C.Holds p) (hr : Runs Env Spawn p p') (hI : I p.state) :
    Runs Env (fun s t => Spawn s t ∧ I s) p p' := by
  induction hr with
  | refl => exact .refl
  | tail _ hs ih =>
      refine ih.tail ?_
      cases hs with
      | spawn he => exact .spawn ⟨he, invariant_of_runs hC henv hmain hhandler h ih hI⟩
      | env he => exact .env he
      | mainWrite => exact .mainWrite
      | handlerWrite => exact .handlerWrite
      | mainResume hr => exact .mainResume hr
      | mainRead => exact .mainRead
      | mainStop hstop => exact .mainStop hstop
      | handlerResume hr => exact .handlerResume hr
      | handlerRead => exact .handlerRead
      | handlerStop hstop => exact .handlerStop hstop

end Protocol

end OpsBlobs.Interleaving
