import OpsBlobs.Coroutine

namespace OpsBlobs.CutRun

open Coroutine

variable {σ ε α β : Type}

/-- A state on the way of a function that nothing runs beside. One whose own call fails at an
`await` goes no further, so it may end in any of them. -/
inductive Passes : Coroutine σ ε α → σ → σ → Prop
  | here (t : Coroutine σ ε α) (s : σ) : Passes t s s
  | read {k : σ → Coroutine σ ε α} {s s' : σ} (h : Passes (k s) s s') : Passes (.read k) s s'
  | write {s t s' : σ} {next : Coroutine σ ε α} (h : Passes next t s') : Passes (.write t next) s s'
  | await {s s' : σ} {ready : σ → Bool} {next : Coroutine σ ε α} (hready : ready s = true)
      (h : Passes next s s') : Passes (.await ready next) s s'

variable {s s' : σ}

/-- Where a function that returns or throws ends is on its way. -/
theorem passes_of_run {t : Coroutine σ ε α} {r : Except ε α} (h : run t s = some (r, s')) :
    Passes t s s' := by
  induction t generalizing s with
  | ret a =>
      obtain ⟨-, rfl⟩ := Prod.mk.inj (Option.some.inj h)
      exact .here _ _
  | fail e =>
      obtain ⟨-, rfl⟩ := Prod.mk.inj (Option.some.inj h)
      exact .here _ _
  | read k ih => exact .read (ih s h)
  | write t next ih => exact .write (ih h)
  | await ready next ih =>
      rw [run] at h
      split at h
      · rename_i hready
        exact .await hready (ih h)
      · cases h

variable {I : σ → Prop}

/-- Each write of the function, and so each state on its way, keeps `I`. -/
def Keeps (I : σ → Prop) (t : Coroutine σ ε α) : Prop :=
  ∀ s, I s → wp (fun s s' => s' = s) (fun _ s' => I s') t (fun _ => I) s

theorem inv_of_wp {t : Coroutine σ ε α}
    (h : wp (fun s s' => s' = s) (fun _ s' => I s') t (fun _ => I) s) (hs : I s)
    (hp : Passes t s s') : I s' := by
  induction hp with
  | here => exact hs
  | read _ ih => exact ih h hs
  | write _ ih => exact ih h.2 h.1
  | await hready _ ih => exact ih (h _ rfl hready) hs

theorem Keeps.passes {t : Coroutine σ ε α} (h : Keeps I t) (hs : I s) (hp : Passes t s s') : I s' :=
  inv_of_wp (h s hs) hs hp

section Rules

theorem keeps_pure (a : α) : Keeps I (pure a : Coroutine σ ε α) := fun _ hs => hs

theorem keeps_throw (e : ε) : Keeps I (throw e : Coroutine σ ε α) := fun _ hs => hs

theorem keeps_bind {t : Coroutine σ ε α} {f : α → Coroutine σ ε β} (h : Keeps I t)
    (hf : ∀ a, Keeps I (f a)) : Keeps I (t >>= f) := by
  intro s hs
  refine wp_bind.2 (wp_mono ?_ (h s hs))
  rintro (e | a) s' hs'
  · exact hs'
  · exact hf a s' hs'

/-- The read may know the invariant of the state it reads. -/
theorem keeps_from {f : σ → Coroutine σ ε α}
    (h : ∀ s, I s → wp (fun s s' => s' = s) (fun _ s' => I s') (f s) (fun _ => I) s) :
    Keeps I (get >>= f : Coroutine σ ε α) := h

theorem keeps_get {f : σ → Coroutine σ ε α} (h : ∀ s, Keeps I (f s)) :
    Keeps I (get >>= f : Coroutine σ ε α) := fun s hs => h s s hs

theorem keeps_modify {f : σ → σ} (h : ∀ s, I s → I (f s)) :
    Keeps I (modify f : Coroutine σ ε Unit) := fun s hs => ⟨h s hs, h s hs⟩

theorem keeps_pause : Keeps I (pause : Coroutine σ ε Unit) := by
  rintro s hs s' rfl _
  exact hs

theorem keeps_ite {c : Prop} [Decidable c] {t u : Coroutine σ ε α} (ht : Keeps I t)
    (hu : Keeps I u) : Keeps I (if c then t else u) := by
  split
  · exact ht
  · exact hu

theorem keeps_forEach {f : α → Coroutine σ ε Unit} (h : ∀ a, Keeps I (f a)) (l : List α) :
    Keeps I (forEach f l) := by
  induction l with
  | nil => exact keeps_pure ()
  | cons a rest ih => exact keeps_bind (h a) fun _ => ih

theorem keeps_foldM {f : β → α → Coroutine σ ε β} (h : ∀ b a, Keeps I (f b a)) (b : β)
    (l : List α) : Keeps I (foldM f b l) := by
  induction l generalizing b with
  | nil => exact keeps_pure b
  | cons a rest ih => exact keeps_bind (h b a) ih

end Rules

end OpsBlobs.CutRun
