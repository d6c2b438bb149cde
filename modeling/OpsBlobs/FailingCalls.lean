import OpsBlobs.CutShort
import OpsBlobs.GhostCode

namespace OpsBlobs.FailingCalls

open Coroutine WriteEffects GhostCode

variable {σ γ ε α β : Type}

/-- The function with the failures of what it awaits: the operation awaited after `n` others
throws `fails n`. The handlers of the function's own make `unwind` of the state on the way out. -/
def failing (unwind : σ → σ) (fails : Nat → Option ε) : Nat → Coroutine σ ε α → Coroutine σ ε α
  | _, .ret a => .ret a
  | _, .fail e => .fail e
  | n, .read k => .read fun s => failing unwind fails n (k s)
  | n, .write s next => .write s (failing unwind fails n next)
  | n, .await ready next =>
      match fails n with
      | some e => .read fun s => .write (unwind s) (.fail e)
      | none => .await ready (failing unwind fails (n + 1) next)

section Unfailing

theorem failing_none (unwind : σ → σ) (n : Nat) (t : Coroutine σ ε α) :
    failing unwind (fun _ => none) n t = t := by
  induction t generalizing n with
  | ret a => rfl
  | fail e => rfl
  | read k ih => exact congrArg Coroutine.read (funext fun s => ih s n)
  | write s next ih => exact congrArg (Coroutine.write s) (ih n)
  | await ready next ih => exact congrArg (Coroutine.await ready) (ih (n + 1))

/-- The state beside the code's own is as it was. -/
theorem run_lift (t : Coroutine σ ε α) (s : σ) (g : γ) :
    run (lift t) (s, g) = (run t s).map fun r => (r.1, r.2, g) := by
  induction t generalizing s with
  | ret a => rfl
  | fail e => rfl
  | read k ih => exact ih s s
  | write s' next ih => exact ih s'
  | await ready next ih =>
      rw [lift, run, run]
      split
      · exact ih s
      · rfl

end Unfailing

section Effects

variable {G R : σ → σ → Prop} {P : α → Prop} {Q : Except ε α → σ → Prop} {unwind : σ → σ}
  {fails : Nat → Option ε} {n : Nat} {s : σ}

/-- Failures cut a function short, so it writes nothing but what it writes without them. -/
theorem does_failing {t : Coroutine σ ε α} (fails : Nat → Option ε) (n : Nat)
    (hunwind : ∀ s, G s (unwind s)) (h : Does G t P) : Does G (failing unwind fails n t) P := by
  intro s
  have ht := h s
  clear h
  induction t generalizing s n with
  | ret a => exact ht
  | fail e => exact ht
  | read k ih => exact ih s n s ht
  | write s' next ih => exact ⟨ht.1, ih n s' ht.2⟩
  | await ready next ih =>
      rw [failing]
      split
      · exact ⟨hunwind s, nofun⟩
      · exact fun s' hs hr => ih (n + 1) s' (ht s' hs hr)

theorem wp_failing_get {k : σ → Coroutine σ ε α} :
    wp R G (failing unwind fails n (get >>= k)) Q s ↔
      wp R G (failing unwind fails n (k s)) Q s := Iff.rfl

theorem wp_failing_modify {f : σ → σ} {k : Unit → Coroutine σ ε α} :
    wp R G (failing unwind fails n (modify f >>= k)) Q s ↔
      G s (f s) ∧ wp R G (failing unwind fails n (k ())) Q (f s) := Iff.rfl

theorem wp_failing_pause {k : Unit → Coroutine σ ε α} :
    wp R G (failing unwind fails n (pause >>= k)) Q s ↔
      match fails n with
      | some e => G s (unwind s) ∧ Q (.error e) (unwind s)
      | none => ∀ s', R s s' → wp R G (failing unwind fails (n + 1) (k ())) Q s' := by
  rw [show failing unwind fails n (pause >>= k) =
    failing unwind fails n (.await (fun _ => true) (k ())) from rfl, failing]
  split
  · exact Iff.rfl
  · exact ⟨fun h s' hs => h s' hs rfl, fun h s' hs _ => h s' hs⟩

theorem wp_failing_lastPause {Q : Except ε Unit → σ → Prop} :
    wp R G (failing unwind fails n pause) Q s ↔
      match fails n with
      | some e => G s (unwind s) ∧ Q (.error e) (unwind s)
      | none => ∀ s', R s s' → Q (.ok ()) s' := wp_failing_pause (k := pure)

/-- A write of the code beside which the rest of the state stays. -/
def Beside (G : σ → σ → Prop) (s s' : σ × γ) : Prop := G s.1 s'.1 ∧ s'.2 = s.2

/-- What code does beside nobody but the like of it, it does with the rest of the state still. -/
theorem wp_lift {t : Coroutine σ ε α} {s : σ} (g : γ) (h : wp R G t Q s) :
    wp (Beside R) (Beside G) (lift t) (fun r x => Q r x.1 ∧ x.2 = g) (s, g) := by
  induction t generalizing s with
  | ret a => exact ⟨h, rfl⟩
  | fail e => exact ⟨h, rfl⟩
  | read k ih => exact ih s h
  | write s' next ih => exact ⟨⟨h.1, rfl⟩, ih h.2⟩
  | await ready next ih =>
      rintro ⟨s', g'⟩ ⟨hs, rfl⟩ hr
      exact ih (h s' hs hr)

end Effects

end OpsBlobs.FailingCalls
