import OpsBlobs.Coroutine

namespace OpsBlobs.WriteEffects

open Coroutine

variable {σ ε α β : Type}

section Rely

variable {R R' G G' : σ → σ → Prop} {Q : Except ε α → σ → Prop} {s : σ}

/-- Less interference and weaker promises. -/
theorem wp_weaken {t : Coroutine σ ε α} (hR : ∀ s s', R' s s' → R s s')
    (hG : ∀ s s', G s s' → G' s s') (h : wp R G t Q s) : wp R' G' t Q s := by
  induction t generalizing s with
  | ret a => exact h
  | fail e => exact h
  | read k ih => exact ih s h
  | write s' next ih => exact ⟨hG _ _ h.1, ih h.2⟩
  | await ready next ih => exact fun s' hs hr => ih (h s' (hR _ _ hs) hr)

/-- What both the others and the coroutine's own writes keep still holds at the end. -/
theorem wp_invariant {t : Coroutine σ ε α} {I : σ → Prop} (hR : ∀ s s', R s s' → I s → I s')
    (hG : ∀ s s', G s s' → I s → I s') (h : wp R G t Q s) (hI : I s) :
    wp R G t (fun r s => Q r s ∧ I s) s := by
  induction t generalizing s with
  | ret a => exact ⟨h, hI⟩
  | fail e => exact ⟨h, hI⟩
  | read k ih => exact ih s h hI
  | write s' next ih => exact ⟨h.1, ih h.2 (hG _ _ h.1 hI)⟩
  | await ready next ih => exact fun s' hs hr => ih (h s' hs hr) (hR _ _ hs hI)

/-- What a loop asks of one pass: the invariant, or the loop's own condition on an error. -/
def onOk (I : β → σ → Prop) (Q : Except ε β → σ → Prop) : Except ε β → σ → Prop
  | .ok b, s => I b s
  | .error e, s => Q (.error e) s

/-- The loop rule for a fold: an invariant of the accumulator and the state. -/
theorem wp_foldM {f : β → α → Coroutine σ ε β} {Q : Except ε β → σ → Prop} {I : β → σ → Prop}
    {l : List α} {b : β} (hI : I b s)
    (hf : ∀ a ∈ l, ∀ b s, I b s → wp R G (f b a) (onOk I Q) s)
    (hQ : ∀ b s, I b s → Q (.ok b) s) : wp R G (foldM f b l) Q s := by
  induction l generalizing b s with
  | nil => exact hQ b s hI
  | cons a rest ih =>
      refine wp_bind'.2 (wp_mono ?_ (hf a List.mem_cons_self b s hI))
      rintro (e | b') s' h
      · exact h
      · exact ih h fun a' ha => hf a' (List.mem_cons_of_mem a ha)

end Rely

section Effects

/-- Whatever the others do, every write of the coroutine is a `G` step, and what it returns
satisfies `P`. -/
def Does (G : σ → σ → Prop) (t : Coroutine σ ε α) (P : α → Prop) : Prop :=
  ∀ s, wp (fun _ _ => True) G t (fun r _ => ∀ a, r = .ok a → P a) s

variable {G G' : σ → σ → Prop} {P P' : α → Prop} {Q : β → Prop}

theorem does_mono {t : Coroutine σ ε α} (hP : ∀ a, P a → P' a) (h : Does G t P) : Does G t P' :=
  fun s => wp_mono (fun _ _ h a ha => hP a (h a ha)) (h s)

theorem does_weaken {t : Coroutine σ ε α} (hG : ∀ s s', G s s' → G' s s') (h : Does G t P) :
    Does G' t P := fun s => wp_weaken (fun _ _ h => h) hG (h s)

/-- What a coroutine does under any interference it does under less. -/
theorem wp_of_does {t : Coroutine σ ε α} (R : σ → σ → Prop) (h : Does G t P) (s : σ) :
    wp R G t (fun r _ => ∀ a, r = .ok a → P a) s := wp_weaken (fun _ _ _ => trivial) (fun _ _ h => h) (h s)

theorem does_pure {a : α} (h : P a) : Does G (pure a : Coroutine σ ε α) P :=
  fun _ _ ha => Except.ok.inj ha ▸ h

theorem does_throw {e : ε} : Does G (throw e : Coroutine σ ε α) P := fun _ => nofun

theorem does_get : Does G (get : Coroutine σ ε σ) (fun _ => True) := fun _ _ _ => trivial

theorem does_modify {f : σ → σ} (h : ∀ s, G s (f s)) :
    Does G (modify f : Coroutine σ ε Unit) (fun _ => True) := fun s => ⟨h s, fun _ _ => trivial⟩

theorem does_modifyGet {f : σ → α × σ} (h : ∀ s, G s (f s).2) :
    Does G (modifyGet f : Coroutine σ ε α) (fun _ => True) := fun s => ⟨h s, fun _ _ => trivial⟩

theorem does_pause : Does G (pause : Coroutine σ ε Unit) (fun _ => True) :=
  fun _ _ _ _ _ _ => trivial

theorem does_awaitUntil {ready : σ → Bool} :
    Does G (awaitUntil ready : Coroutine σ ε Unit) (fun _ => True) := fun _ _ _ _ _ _ => trivial

theorem does_bind {t : Coroutine σ ε α} {f : α → Coroutine σ ε β} (ht : Does G t P)
    (hf : ∀ a, P a → Does G (f a) Q) : Does G (t >>= f) Q := by
  intro s
  refine wp_bind.2 (wp_mono ?_ (ht s))
  rintro (e | a) s' h
  · exact nofun
  · exact hf a (h a rfl) s'

/-- The same when the rest does not depend on what is known of the result. -/
theorem does_then {t : Coroutine σ ε α} {f : α → Coroutine σ ε β} (ht : Does G t P)
    (hf : ∀ a, Does G (f a) Q) : Does G (t >>= f) Q := does_bind ht fun a _ => hf a

theorem does_tryFinally {t : Coroutine σ ε α} {c : Coroutine σ ε Unit} (ht : Does G t P)
    (hc : Does G c (fun _ => True)) : Does G (t.tryFinally c) P := by
  intro s
  refine wp_tryFinally.2 (wp_mono ?_ (ht s))
  intro r s' h
  refine wp_mono ?_ (hc s')
  rintro (e | u) s'' -
  · exact nofun
  · exact h

theorem does_tryCatch {t : Coroutine σ ε α} {h : ε → Coroutine σ ε α} (ht : Does G t P)
    (hh : ∀ e, Does G (h e) P) : Does G (t.tryCatch h) P := by
  intro s
  refine wp_tryCatch.2 (wp_mono ?_ (ht s))
  rintro (e | a) s' hr
  · exact hh e s'
  · exact hr

theorem does_forEach {f : α → Coroutine σ ε Unit} {l : List α}
    (hf : ∀ a ∈ l, Does G (f a) (fun _ => True)) : Does G (forEach f l) (fun _ => True) := by
  induction l with
  | nil => exact does_pure trivial
  | cons a rest ih =>
      exact does_then (hf a List.mem_cons_self) fun _ => ih fun b hb => hf b (List.mem_cons_of_mem a hb)

theorem does_foldM {f : β → α → Coroutine σ ε β} {l : List α} {b : β} (hb : Q b)
    (hf : ∀ a ∈ l, ∀ b, Q b → Does G (f b a) Q) : Does G (foldM f b l) Q := by
  induction l generalizing b with
  | nil => exact does_pure hb
  | cons a rest ih =>
      exact does_bind (hf a List.mem_cons_self b hb) fun b' hb' =>
        ih hb' fun a' ha => hf a' (List.mem_cons_of_mem a ha)

end Effects

end OpsBlobs.WriteEffects
