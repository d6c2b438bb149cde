import Mathlib.Logic.Relation

/-- An asynchronous function over a shared state. What stands between two `await`s runs
alone; at an `await` other code may run, and the function goes on once `ready` holds. -/
inductive OpsBlobs.Coroutine (σ ε α : Type) : Type
  | ret (a : α)
  | fail (e : ε)
  | read (k : σ → OpsBlobs.Coroutine σ ε α)
  | write (s : σ) (next : OpsBlobs.Coroutine σ ε α)
  | await (ready : σ → Bool) (next : OpsBlobs.Coroutine σ ε α)

namespace OpsBlobs.Coroutine

variable {σ ε α β : Type}

def bind : Coroutine σ ε α → (α → Coroutine σ ε β) → Coroutine σ ε β
  | .ret a, f => f a
  | .fail e, _ => .fail e
  | .read k, f => .read (fun s => (k s).bind f)
  | .write s next, f => .write s (next.bind f)
  | .await ready next, f => .await ready (next.bind f)

instance : Monad (Coroutine σ ε) where
  pure := .ret
  bind := bind

def get : Coroutine σ ε σ := .read .ret

def modify (f : σ → σ) : Coroutine σ ε Unit := .read (fun s => .write (f s) (.ret ()))

def modifyGet (f : σ → α × σ) : Coroutine σ ε α :=
  .read (fun s => .write (f s).2 (.ret (f s).1))

def throw (e : ε) : Coroutine σ ε α := .fail e

/-- A suspension point that waits for nothing in particular. -/
def pause : Coroutine σ ε Unit := .await (fun _ => true) (.ret ())

def awaitUntil (ready : σ → Bool) : Coroutine σ ε Unit := .await ready (.ret ())

def tryCatch : Coroutine σ ε α → (ε → Coroutine σ ε α) → Coroutine σ ε α
  | .ret a, _ => .ret a
  | .fail e, h => h e
  | .read k, h => .read (fun s => (k s).tryCatch h)
  | .write s next, h => .write s (next.tryCatch h)
  | .await ready next, h => .await ready (next.tryCatch h)

/-- The clean-up runs on both ways out; an error of its own takes over. -/
def tryFinally : Coroutine σ ε α → Coroutine σ ε Unit → Coroutine σ ε α
  | .ret a, c => c.bind (fun _ => .ret a)
  | .fail e, c => c.bind (fun _ => .fail e)
  | .read k, c => .read (fun s => (k s).tryFinally c)
  | .write s next, c => .write s (next.tryFinally c)
  | .await ready next, c => .await ready (next.tryFinally c)

def forEach (f : α → Coroutine σ ε Unit) : List α → Coroutine σ ε Unit
  | [] => .ret ()
  | a :: rest => (f a).bind (fun _ => forEach f rest)

def foldM (f : β → α → Coroutine σ ε β) (b : β) : List α → Coroutine σ ε β
  | [] => .ret b
  | a :: rest => (f b a).bind (fun b => foldM f b rest)

section Run

/-- The run in which nothing else happens; `none` when it waits for ever. -/
def run : Coroutine σ ε α → σ → Option (Except ε α × σ)
  | .ret a, s => some (.ok a, s)
  | .fail e, s => some (.error e, s)
  | .read k, s => run (k s) s
  | .write s next, _ => run next s
  | .await ready next, s => if ready s then run next s else none

/-- What a run hands to the code after it. -/
def resume (k : α → σ → Option (Except ε β × σ)) :
    Except ε α × σ → Option (Except ε β × σ)
  | (.ok a, s) => k a s
  | (.error e, s) => some (.error e, s)

theorem run_bind' (t : Coroutine σ ε α) (f : α → Coroutine σ ε β) (s : σ) :
    run (t.bind f) s = (run t s).bind (resume (fun a s => run (f a) s)) := by
  induction t generalizing s with
  | ret a => rfl
  | fail e => rfl
  | read k ih => exact ih s s
  | write s' next ih => exact ih s'
  | await ready next ih =>
      simp only [bind, run]
      split
      · exact ih s
      · rfl

@[simp] theorem run_bind (t : Coroutine σ ε α) (f : α → Coroutine σ ε β) (s : σ) :
    run (t >>= f) s = (run t s).bind (resume (fun a s => run (f a) s)) := run_bind' t f s

@[simp] theorem run_pure (a : α) (s : σ) : run (pure a : Coroutine σ ε α) s = some (.ok a, s) := rfl

@[simp] theorem run_get (s : σ) : run (get : Coroutine σ ε σ) s = some (.ok s, s) := rfl

@[simp] theorem run_modify (f : σ → σ) (s : σ) :
    run (modify f : Coroutine σ ε Unit) s = some (.ok (), f s) := rfl

@[simp] theorem run_modifyGet (f : σ → α × σ) (s : σ) :
    run (modifyGet f : Coroutine σ ε α) s = some (.ok (f s).1, (f s).2) := rfl

@[simp] theorem run_throw (e : ε) (s : σ) :
    run (throw e : Coroutine σ ε α) s = some (.error e, s) := rfl

@[simp] theorem run_pause (s : σ) : run (pause : Coroutine σ ε Unit) s = some (.ok (), s) := rfl

@[simp] theorem run_ite (c : Prop) [Decidable c] (t u : Coroutine σ ε α) (s : σ) :
    run (if c then t else u) s = if c then run t s else run u s := by
  split <;> rfl

@[simp] theorem run_awaitUntil (ready : σ → Bool) (s : σ) :
    run (awaitUntil ready : Coroutine σ ε Unit) s = if ready s then some (.ok (), s) else none :=
  rfl

@[simp] theorem resume_ok (k : α → σ → Option (Except ε β × σ)) (a : α) (s : σ) :
    resume k (.ok a, s) = k a s := rfl

@[simp] theorem resume_error (k : α → σ → Option (Except ε β × σ)) (e : ε) (s : σ) :
    resume k (.error e, s) = some (.error e, s) := rfl

@[simp] theorem run_tryCatch (t : Coroutine σ ε α) (h : ε → Coroutine σ ε α) (s : σ) :
    run (t.tryCatch h) s = (run t s).bind (fun
      | (.ok a, s) => some (.ok a, s)
      | (.error e, s) => run (h e) s) := by
  induction t generalizing s with
  | ret a => rfl
  | fail e => rfl
  | read k ih => exact ih s s
  | write s' next ih => exact ih s'
  | await ready next ih =>
      simp only [tryCatch, run]
      split
      · exact ih s
      · rfl

@[simp] theorem run_tryFinally (t : Coroutine σ ε α) (c : Coroutine σ ε Unit) (s : σ) :
    run (t.tryFinally c) s = (run t s).bind (fun r =>
      (run c r.2).bind (resume (fun _ s => some (r.1, s)))) := by
  induction t generalizing s with
  | ret a => exact run_bind' _ _ _
  | fail e => exact run_bind' _ _ _
  | read k ih => exact ih s s
  | write s' next ih => exact ih s'
  | await ready next ih =>
      simp only [tryFinally, run]
      split
      · exact ih s
      · rfl

@[simp] theorem run_forEach_nil (f : α → Coroutine σ ε Unit) (s : σ) :
    run (forEach f []) s = some (.ok (), s) := rfl

@[simp] theorem run_forEach_cons (f : α → Coroutine σ ε Unit) (a : α) (rest : List α) (s : σ) :
    run (forEach f (a :: rest)) s =
      (run (f a) s).bind (resume (fun _ s => run (forEach f rest) s)) := run_bind' _ _ _

@[simp] theorem run_foldM_nil (f : β → α → Coroutine σ ε β) (b : β) (s : σ) :
    run (foldM f b []) s = some (.ok b, s) := rfl

@[simp] theorem run_foldM_cons (f : β → α → Coroutine σ ε β) (b : β) (a : α) (rest : List α)
    (s : σ) :
    run (foldM f b (a :: rest)) s =
      (run (f b a) s).bind (resume (fun b s => run (foldM f b rest) s)) := run_bind' _ _ _

end Run

section Guarantee

variable (R G : σ → σ → Prop)

/-- Under interference `R`, every write of the coroutine is a `G` step and it ends in `Q`. -/
def wp : Coroutine σ ε α → (Except ε α → σ → Prop) → σ → Prop
  | .ret a, Q, s => Q (.ok a) s
  | .fail e, Q, s => Q (.error e) s
  | .read k, Q, s => wp (k s) Q s
  | .write s' next, Q, s => G s s' ∧ wp next Q s'
  | .await ready next, Q, s => ∀ s', R s s' → ready s' = true → wp next Q s'

/-- The same without a condition on how it ends. -/
def Within (t : Coroutine σ ε α) (s : σ) : Prop := wp R G t (fun _ _ => True) s

variable {R G} {Q Q' : Except ε α → σ → Prop} {s : σ}

theorem wp_mono {t : Coroutine σ ε α} (hQ : ∀ r s, Q r s → Q' r s) (h : wp R G t Q s) :
    wp R G t Q' s := by
  induction t generalizing s with
  | ret a => exact hQ _ _ h
  | fail e => exact hQ _ _ h
  | read k ih => exact ih s h
  | write s' next ih => exact ⟨h.1, ih h.2⟩
  | await ready next ih => exact fun s' hs hr => ih (h s' hs hr)

/-- What the rest of a sequence has to meet. -/
def andThen (R G : σ → σ → Prop) (f : α → Coroutine σ ε β) (Q : Except ε β → σ → Prop) :
    Except ε α → σ → Prop
  | .ok a, s => wp R G (f a) Q s
  | .error e, s => Q (.error e) s

theorem wp_bind' {t : Coroutine σ ε α} {f : α → Coroutine σ ε β} {Q : Except ε β → σ → Prop} :
    wp R G (t.bind f) Q s ↔ wp R G t (andThen R G f Q) s := by
  induction t generalizing s with
  | ret a => exact Iff.rfl
  | fail e => exact Iff.rfl
  | read k ih => exact ih s
  | write s' next ih => exact and_congr_right (fun _ => ih)
  | await ready next ih => exact forall_congr' (fun _ => imp_congr_right (fun _ =>
      imp_congr_right (fun _ => ih)))

theorem wp_bind {t : Coroutine σ ε α} {f : α → Coroutine σ ε β} {Q : Except ε β → σ → Prop} :
    wp R G (t >>= f) Q s ↔ wp R G t (andThen R G f Q) s := wp_bind'

theorem wp_tryCatch {t : Coroutine σ ε α} {h : ε → Coroutine σ ε α} :
    wp R G (t.tryCatch h) Q s ↔
      wp R G t (fun
        | .ok a, s => Q (.ok a) s
        | .error e, s => wp R G (h e) Q s) s := by
  induction t generalizing s with
  | ret a => exact Iff.rfl
  | fail e => exact Iff.rfl
  | read k ih => exact ih s
  | write s' next ih => exact and_congr_right (fun _ => ih)
  | await ready next ih => exact forall_congr' (fun _ => imp_congr_right (fun _ =>
      imp_congr_right (fun _ => ih)))

theorem wp_tryFinally {t : Coroutine σ ε α} {c : Coroutine σ ε Unit} :
    wp R G (t.tryFinally c) Q s ↔
      wp R G t (fun r s => wp R G c (fun
        | .ok _, s => Q r s
        | .error e, s => Q (.error e) s) s) s := by
  induction t generalizing s with
  | ret a => exact wp_bind'.trans (iff_of_eq (congrArg (wp R G c · s) (by funext r s; cases r <;> rfl)))
  | fail e => exact wp_bind'.trans (iff_of_eq (congrArg (wp R G c · s) (by funext r s; cases r <;> rfl)))
  | read k ih => exact ih s
  | write s' next ih => exact and_congr_right (fun _ => ih)
  | await ready next ih => exact forall_congr' (fun _ => imp_congr_right (fun _ =>
      imp_congr_right (fun _ => ih)))

/-- The loop rule: an invariant that every pass keeps. -/
theorem wp_forEach {f : α → Coroutine σ ε Unit} {Q : Except ε Unit → σ → Prop} {I : σ → Prop}
    {l : List α} (hI : I s)
    (hf : ∀ a ∈ l, ∀ s, I s → wp R G (f a) (fun
      | .ok _, s => I s
      | .error e, s => Q (.error e) s) s)
    (hQ : ∀ s, I s → Q (.ok ()) s) : wp R G (forEach f l) Q s := by
  induction l generalizing s with
  | nil => exact hQ s hI
  | cons a rest ih =>
      refine wp_bind'.2 (wp_mono ?_ (hf a List.mem_cons_self s hI))
      rintro (e | u) s' h
      · exact h
      · exact ih h (fun b hb => hf b (List.mem_cons_of_mem a hb))

end Guarantee

end OpsBlobs.Coroutine
