import OpsBlobs.WriteEffects

namespace OpsBlobs.CutShort

open Coroutine WriteEffects Relation

variable {σ ε α β : Type}

/-- Where a coroutine that runs alone stands at an `await` of it, counted from zero; `none` when
it never gets there. -/
def cut : Nat → Coroutine σ ε α → σ → Option σ
  | _, .ret _, _ => none
  | _, .fail _, _ => none
  | n, .read k, s => cut n (k s) s
  | n, .write s' next, _ => cut n next s'
  | 0, .await _ _, s => some s
  | n + 1, .await ready next, s => if ready s then cut n next s else none

variable {R G : σ → σ → Prop} {P : α → Prop} {Q : Except ε α → σ → Prop} {t : Coroutine σ ε α}
  {r : Except ε α} {e : ε} {s s' : σ} {n : Nat}

/-- What a coroutine promises of its end it keeps when it runs alone, and its writes lead there. -/
theorem ends_of_run (hR : ∀ s, R s s) (h : wp R G t Q s) (hrun : run t s = some (r, s')) :
    Q r s' ∧ ReflTransGen G s s' := by
  induction t generalizing s with
  | ret a =>
      obtain ⟨rfl, rfl⟩ := Prod.mk.inj (Option.some.inj hrun)
      exact ⟨h, .refl⟩
  | fail e =>
      obtain ⟨rfl, rfl⟩ := Prod.mk.inj (Option.some.inj hrun)
      exact ⟨h, .refl⟩
  | read k ih => exact ih s h hrun
  | write s₁ next ih =>
      obtain ⟨hQ, hsteps⟩ := ih h.2 hrun
      exact ⟨hQ, .head h.1 hsteps⟩
  | await ready next ih =>
      rw [run] at hrun
      split at hrun
      · rename_i hready
        exact ih (h s (hR s) hready) hrun
      · cases hrun

theorem steps_of_cut (hR : ∀ s, R s s) (h : wp R G t Q s) (hcut : cut n t s = some s') :
    ReflTransGen G s s' := by
  induction t generalizing s n with
  | ret a =>
      rw [cut] at hcut
      cases hcut
  | fail e =>
      rw [cut] at hcut
      cases hcut
  | read k ih =>
      rw [cut] at hcut
      exact ih s h hcut
  | write s₁ next ih =>
      rw [cut] at hcut
      exact .head h.1 (ih h.2 hcut)
  | await ready next ih =>
      cases n with
      | zero =>
          rw [cut] at hcut
          rw [Option.some.inj hcut]
      | succ n =>
          rw [cut] at hcut
          split at hcut
          · rename_i hready
            exact ih (h s (hR s) hready) hcut
          · cases hcut

theorem run_of_does (h : Does G t P) (hrun : run t s = some (r, s')) : ReflTransGen G s s' :=
  (ends_of_run (fun _ => trivial) (h s) hrun).2

theorem cut_of_does (h : Does G t P) (hcut : cut n t s = some s') : ReflTransGen G s s' :=
  steps_of_cut (fun _ => trivial) (h s) hcut

section Returns

/-- The coroutine throws nothing, whatever state it finds at an `await`. -/
def Returns : Coroutine σ ε α → Prop
  | .ret _ => True
  | .fail _ => False
  | .read k => ∀ s, Returns (k s)
  | .write _ next => Returns next
  | .await _ next => Returns next

theorem not_error_of_returns (h : Returns t) (hrun : run t s = some (.error e, s')) : False := by
  induction t generalizing s with
  | ret a => cases hrun
  | fail e => exact h
  | read k ih => exact ih s (h s) hrun
  | write s₁ next ih => exact ih h hrun
  | await ready next ih =>
      rw [run] at hrun
      split at hrun
      · exact ih h hrun
      · cases hrun

theorem returns_bind {f : α → Coroutine σ ε β} (ht : Returns t) (hf : ∀ a, Returns (f a)) :
    Returns (t >>= f) := by
  induction t with
  | ret a => exact hf a
  | fail e => exact ht
  | read k ih => exact fun s => ih s (ht s)
  | write s₁ next ih => exact ih ht
  | await ready next ih => exact ih ht

theorem returns_tryFinally {c : Coroutine σ ε Unit} (ht : Returns t) (hc : Returns c) :
    Returns (t.tryFinally c) := by
  induction t with
  | ret a => exact returns_bind hc fun _ => trivial
  | fail e => exact ht.elim
  | read k ih => exact fun s => ih s (ht s)
  | write s₁ next ih => exact ih ht
  | await ready next ih => exact ih ht

theorem returns_forEach {f : α → Coroutine σ ε Unit} {l : List α} (hf : ∀ a ∈ l, Returns (f a)) :
    Returns (forEach f l) := by
  induction l with
  | nil => trivial
  | cons a rest ih =>
      exact returns_bind (hf a List.mem_cons_self) fun _ =>
        ih fun b hb => hf b (List.mem_cons_of_mem a hb)

theorem run_bind_cases {f : α → Coroutine σ ε β} {r : Except ε β}
    (hrun : run (t >>= f) s = some (r, s')) :
    (∃ e, run t s = some (.error e, s') ∧ r = .error e) ∨
      ∃ a s₁, run t s = some (.ok a, s₁) ∧ run (f a) s₁ = some (r, s') := by
  rw [run_bind] at hrun
  obtain ⟨⟨res, s₁⟩, ht, hf⟩ := Option.bind_eq_some_iff.1 hrun
  cases res with
  | error e =>
      cases hf
      exact Or.inl ⟨e, ht, rfl⟩
  | ok a => exact Or.inr ⟨a, s₁, ht, hf⟩

theorem run_bind_of_returns {f : α → Coroutine σ ε β} {r : Except ε β} (ht : Returns t)
    (hrun : run (t >>= f) s = some (r, s')) :
    ∃ a s₁, run t s = some (.ok a, s₁) ∧ run (f a) s₁ = some (r, s') := by
  rcases run_bind_cases hrun with ⟨e, herr, -⟩ | h
  · exact (not_error_of_returns ht herr).elim
  · exact h

theorem run_tryFinally_of_returns {c : Coroutine σ ε Unit} {r : Except ε α} (hc : Returns c)
    (hrun : run (t.tryFinally c) s = some (r, s')) :
    ∃ s₁, run t s = some (r, s₁) ∧ run c s₁ = some (.ok (), s') := by
  rw [run_tryFinally] at hrun
  obtain ⟨⟨res, s₁⟩, ht, hf⟩ := Option.bind_eq_some_iff.1 hrun
  obtain ⟨⟨res', s₂⟩, hclean, hend⟩ := Option.bind_eq_some_iff.1 hf
  cases res' with
  | error e => exact (not_error_of_returns hc hclean).elim
  | ok u =>
      cases hend
      exact ⟨s₁, ht, hclean⟩

end Returns
end OpsBlobs.CutShort
