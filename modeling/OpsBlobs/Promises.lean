import OpsBlobs.FailingCalls

namespace OpsBlobs.Promises

open Coroutine WriteEffects GhostCode

variable {σ γ ε α β ι ν : Type}

/-- How a call may end: with a result, or with an error. -/
def ends (Q : α → σ → Prop) (X : ε → σ → Prop) : Except ε α → σ → Prop
  | .ok a, s => Q a s
  | .error e, s => X e s

section Both

/-- The right call runs up to its next `await` while the left one waits for `ready`. Where both
wait, `pick` says whose turn is first. -/
def beside (pick ready : σ → Bool) (left : Coroutine σ ε β → Coroutine σ ε (α × β)) :
    Coroutine σ ε β → Coroutine σ ε (α × β)
  | .ret b => .await ready (left (.ret b))
  | .fail e => .fail e
  | .read k => .read (fun s => beside pick ready left (k s))
  | .write s next => .write s (beside pick ready left next)
  | .await ready' next =>
      .await (fun s => ready s || ready' s) (.read (fun s =>
        if ready s && (pick s || !ready' s) then left (.await ready' next)
        else beside pick ready left next))

/-- Two calls that are awaited together. The first to fail is the outcome, and nothing waits for
the other one any more: what it still does then, unobserved, is not followed. -/
def both (pick : σ → Bool) : Coroutine σ ε α → Coroutine σ ε β → Coroutine σ ε (α × β)
  | .ret a, u => u.bind (fun b => .ret (a, b))
  | .fail e, _ => .fail e
  | .read k, u => .read (fun s => both pick (k s) u)
  | .write s next, u => .write s (both pick next u)
  | .await ready next, u => beside pick ready (fun u => both pick next u) u

/-- `Promise.all` of calls without a result; every call has a turn bit of its own. -/
def all (pick : Nat → σ → Bool) : List (Coroutine σ ε Unit) → Coroutine σ ε Unit
  | [] => .ret ()
  | t :: rest => (both (pick rest.length) t (all pick rest)).bind (fun _ => .ret ())

end Both

section Rule

/-- Two calls that may run side by side: `E₁` and `E₂` are what each puts up with, `G₁` and `G₂`
what each does, and `R` is done by everybody else. -/
structure Apart (R E₁ G₁ E₂ G₂ : σ → σ → Prop) : Prop where
  refl₂ : ∀ s, E₂ s s
  trans₁ : ∀ s s' s'', E₁ s s' → E₁ s' s'' → E₁ s s''
  trans₂ : ∀ s s' s'', E₂ s s' → E₂ s' s'' → E₂ s s''
  others₁ : ∀ s s', R s s' → E₁ s s'
  others₂ : ∀ s s', R s s' → E₂ s s'
  left : ∀ s s', G₁ s s' → E₂ s s'
  right : ∀ s s', G₂ s s' → E₁ s s'

variable {R E₁ G₁ E₂ G₂ G : σ → σ → Prop} {Q₁ : α → σ → Prop} {Q₂ : β → σ → Prop}
  {X : ε → σ → Prop} {pick : σ → Bool} {s : σ}

/-- The rest of a call that waits, in any state the others may leave. -/
def Robust (E G : σ → σ → Prop) (u : Coroutine σ ε β) (Q : Except ε β → σ → Prop) (s : σ) : Prop :=
  ∀ s', E s s' → wp E G u Q s'

theorem wp_beside {ready : σ → Bool} {left : Coroutine σ ε β → Coroutine σ ε (α × β)}
    {u : Coroutine σ ε β} {Q : Except ε (α × β) → σ → Prop} (hA : Apart R E₁ G₁ E₂ G₂)
    (hG : ∀ s s', G₂ s s' → G s s') (hQ₂ : ∀ b s s', Q₂ b s → E₂ s s' → Q₂ b s')
    (hX : ∀ e s, X e s → Q (.error e) s)
    (hleft : ∀ s', E₁ s s' → ready s' = true → ∀ u, Robust E₂ G₂ u (ends Q₂ X) s' →
      wp R G (left u) Q s')
    (hu : wp E₂ G₂ u (ends Q₂ X) s) : wp R G (beside pick ready left u) Q s := by
  induction u generalizing s with
  | ret b =>
      intro s' hs hr
      refine hleft s' (hA.others₁ s s' hs) hr (.ret b) fun s'' hs' => ?_
      exact hQ₂ b s s'' hu (hA.trans₂ _ _ _ (hA.others₂ s s' hs) hs')
  | fail e => exact hX e s hu
  | read k ih => exact ih s hleft hu
  | write s' next ih =>
      exact ⟨hG _ _ hu.1,
        ih (fun s'' hs => hleft s'' (hA.trans₁ _ _ _ (hA.right _ _ hu.1) hs)) hu.2⟩
  | await ready' next ih =>
      intro s' hs hr
      have hE₂ := hA.others₂ s s' hs
      simp only [wp]
      split
      · rename_i hturn
        rw [Bool.and_eq_true] at hturn
        refine hleft s' (hA.others₁ s s' hs) hturn.1 _ fun s'' hs' s₃ hs'' hr' => ?_
        exact hu s₃ (hA.trans₂ _ _ _ hE₂ (hA.trans₂ _ _ _ hs' hs'')) hr'
      · rename_i hturn
        have hr' : ready' s' = true := by
          cases hright : ready' s' with
          | true => rfl
          | false =>
              have hready : ready s' = true := by simpa [hright] using hr
              simp [hright, hready] at hturn
        exact ih (fun s'' hs' => hleft s'' (hA.trans₁ _ _ _ (hA.others₁ s s' hs) hs'))
          (hu s' hE₂ hr')

/-- Each call is proved on its own, under the interference of the other. -/
theorem wp_both {t : Coroutine σ ε α} {u : Coroutine σ ε β} (hA : Apart R E₁ G₁ E₂ G₂)
    (hG₁ : ∀ s s', G₁ s s' → G s s') (hG₂ : ∀ s s', G₂ s s' → G s s')
    (hQ₁ : ∀ a s s', Q₁ a s → E₁ s s' → Q₁ a s') (hQ₂ : ∀ b s s', Q₂ b s → E₂ s s' → Q₂ b s')
    (ht : wp E₁ G₁ t (ends Q₁ X) s) (hu : Robust E₂ G₂ u (ends Q₂ X) s) :
    wp R G (both pick t u) (ends (fun r s => Q₁ r.1 s ∧ Q₂ r.2 s) X) s := by
  induction t generalizing s u with
  | ret a =>
      have hright := wp_invariant (fun s s' hs h => hQ₁ a s s' h (hA.others₁ s s' hs))
        (fun s s' hs h => hQ₁ a s s' h (hA.right s s' hs))
        (wp_weaken hA.others₂ (fun _ _ h => h) (hu s (hA.refl₂ s))) ht
      refine wp_bind'.2 (wp_mono ?_ (wp_weaken (fun _ _ h => h) hG₂ hright))
      rintro (e | b) s' ⟨hb, ha⟩
      · exact hb
      · exact ⟨ha, hb⟩
  | fail e => exact ht
  | read k ih => exact ih s ht hu
  | write s' next ih =>
      exact ⟨hG₁ _ _ ht.1, ih ht.2 fun s'' hs => hu s'' (hA.trans₂ _ _ _ (hA.left _ _ ht.1) hs)⟩
  | await ready next ih =>
      exact wp_beside hA hG₂ hQ₂ (fun _ _ h => h) (fun s' hs hr u hu => ih (ht s' hs hr) hu)
        (hu s (hA.refl₂ s))

/-- Calls of which each puts up with what the others write. -/
structure Side (E G : ι → σ → σ → Prop) : Prop where
  refl : ∀ i s, E i s s
  trans : ∀ i s s' s'', E i s s' → E i s' s'' → E i s s''
  apart : ∀ i j s s', i ≠ j → G i s s' → E j s s'

/-- They all come to their ends, or one of them fails. -/
theorem wp_all {E G : ι → σ → σ → Prop} {K : σ → σ → Prop} {task : ι → Coroutine σ ε Unit}
    {Q : ι → σ → Prop} {pick : Nat → σ → Bool} {ts : List ι} (hn : ts.Nodup) (hE : Side E G)
    (hR : ∀ i ∈ ts, ∀ s s', R s s' → E i s s') (hG : ∀ i ∈ ts, ∀ s s', G i s s' → K s s')
    (hQ : ∀ i s s', Q i s → E i s s' → Q i s')
    (h : ∀ i ∈ ts, Robust (E i) (G i) (task i) (ends (fun _ => Q i) X) s) :
    wp R K (all pick (ts.map task)) (ends (fun _ s => ∀ i ∈ ts, Q i s) X) s := by
  induction ts generalizing R K s with
  | nil => exact List.forall_mem_nil _
  | cons i rest ih =>
      obtain ⟨hi, hn⟩ := List.nodup_cons.1 hn
      have hne : ∀ j ∈ rest, i ≠ j := by
        rintro j hj rfl
        exact hi hj
      have hA : Apart R (E i) (G i) (fun s s' => ∀ j ∈ rest, E j s s')
          (fun s s' => ∃ j ∈ rest, G j s s') := {
        refl₂ := fun s j _ => hE.refl j s
        trans₁ := hE.trans i
        trans₂ := fun s s' s'' h h' j hj => hE.trans j s s' s'' (h j hj) (h' j hj)
        others₁ := hR i List.mem_cons_self
        others₂ := fun s s' hs j hj => hR j (List.mem_cons_of_mem i hj) s s' hs
        left := fun s s' hs j hj => hE.apart i j s s' (hne j hj) hs
        right := by
          rintro s s' ⟨j, hj, hs⟩
          exact hE.apart j i s s' (hne j hj).symm hs }
      have hrest : Robust (fun s s' => ∀ j ∈ rest, E j s s') (fun s s' => ∃ j ∈ rest, G j s s')
          (all pick (rest.map task)) (ends (fun _ s => ∀ j ∈ rest, Q j s) X) s := by
        intro s' hs
        refine ih hn (fun j hj s s' hs => hs j hj) (fun j hj s s' hs => ⟨j, hj, hs⟩) ?_
        exact fun j hj s'' hs' => h j (List.mem_cons_of_mem i hj) s''
          (hE.trans j _ _ _ (hs j hj) hs')
      have hK : ∀ s s', (∃ j ∈ rest, G j s s') → K s s' := by
        rintro s s' ⟨j, hj, hs⟩
        exact hG j (List.mem_cons_of_mem i hj) s s' hs
      refine wp_bind'.2 (wp_mono ?_ (wp_both hA (hG i List.mem_cons_self) hK (fun _ => hQ i)
        (fun _ s s' hall hs j hj => hQ j s s' (hall j hj) (hs j hj))
        (h i List.mem_cons_self s (hE.refl i s)) hrest))
      rintro (e | r) s' hr
      · exact hr
      · exact List.forall_mem_cons.2 hr

end Rule

section Collect

variable {R G : σ → σ → Prop} {X : ε → σ → Prop} {s : σ}

/-- A loop that puts the result of each pass behind those before it. -/
theorem wp_collect {f : α → Coroutine σ ε β} {P : α → β → Prop} {l : List α}
    (hf : ∀ a ∈ l, ∀ s, wp R G (f a) (ends (fun b _ => P a b) X) s) :
    ∀ {done : List α} {acc : List β} {s : σ}, List.Forall₂ P done acc →
      wp R G (foldM (fun acc a => do
        let b ← f a
        pure (acc ++ [b])) acc l) (ends (fun acc _ => List.Forall₂ P (done ++ l) acc) X) s := by
  induction l with
  | nil =>
      intro done acc s h
      rw [List.append_nil]
      exact h
  | cons a rest ih =>
      intro done acc s h
      refine wp_bind'.2 (wp_bind.2 (wp_mono ?_ (hf a List.mem_cons_self s)))
      rintro (e | b) s' hb
      · exact hb
      have hrest := ih (fun a' ha => hf a' (List.mem_cons_of_mem a ha))
        (s := s') (List.rel_append h (.cons hb .nil))
      rw [List.append_assoc] at hrest
      exact hrest

end Collect

section Locals

/-- A call with variables of its own, which nobody else sees. -/
def withLocal (l : ν) : Coroutine (σ × ν) ε α → Coroutine σ ε (α × ν)
  | .ret a => .ret (a, l)
  | .fail e => .fail e
  | .read k => .read (fun s => withLocal l (k (s, l)))
  | .write x next => .write x.1 (withLocal x.2 next)
  | .await ready next => .await (fun s => ready (s, l)) (withLocal l next)

variable {R G : σ → σ → Prop} {s : σ}

/-- The others leave the variables alone. -/
def Outside (R : σ → σ → Prop) (x y : σ × ν) : Prop := R x.1 y.1 ∧ y.2 = x.2

theorem wp_withLocal {t : Coroutine (σ × ν) ε α} {l : ν} {Q : Except ε (α × ν) → σ → Prop}
    {Q' : Except ε α → σ × ν → Prop} (hok : ∀ a x, Q' (.ok a) x → Q (.ok (a, x.2)) x.1)
    (herr : ∀ e x, Q' (.error e) x → Q (.error e) x.1)
    (h : wp (Outside R) (fun x y => G x.1 y.1) t Q' (s, l)) : wp R G (withLocal l t) Q s := by
  induction t generalizing s l with
  | ret a => exact hok a (s, l) h
  | fail e => exact herr e (s, l) h
  | read k ih => exact ih (s, l) h
  | write x next ih => exact ⟨h.1, ih h.2⟩
  | await ready next ih => exact fun s' hs hr => ih (h (s', l) ⟨hs, rfl⟩ hr)

/-- A call on one part of the state, with `I` said of the whole. -/
theorem wp_lift_frame {t : Coroutine σ ε α} {Q : Except ε α → σ → Prop} {R' G' : σ × ν → σ × ν → Prop}
    {I : σ × ν → Prop} {l : ν} (hR : ∀ x y, R' x y → R x.1 y.1)
    (hG : ∀ s s' l, G s s' → G' (s, l) (s', l)) (hIR : ∀ x y, R' x y → I x → I y)
    (hIG : ∀ s s' l, G s s' → I (s, l) → I (s', l)) (hI : I (s, l)) (h : wp R G t Q s) :
    wp R' G' (lift t) (fun r x => Q r x.1 ∧ I x) (s, l) := by
  induction t generalizing s l with
  | ret a => exact ⟨h, hI⟩
  | fail e => exact ⟨h, hI⟩
  | read k ih => exact ih s hI h
  | write s' next ih => exact ⟨hG _ _ _ h.1, ih (hIG _ _ _ h.1 hI) h.2⟩
  | await ready next ih =>
      intro x hx hr
      exact ih (hIR _ x hx hI) (h x.1 (hR _ _ hx) hr)

/-- What is proved with a history beside the state holds without it. -/
theorem wp_of_erases {t' : Coroutine (σ × γ) ε α} {t : Coroutine σ ε α}
    {Q : Except ε α → σ → Prop} {Q' : Except ε α → σ × γ → Prop} {g : γ} (he : Erases t' t)
    (hQ : ∀ r x, Q' r x → Q r x.1) (h : wp (Outside R) (fun x y => G x.1 y.1) t' Q' (s, g)) :
    wp R G t Q s := by
  induction he generalizing s g with
  | ret a => exact hQ _ _ h
  | fail e => exact hQ _ _ h
  | read he ih => exact ih (s, g) h
  | write he ih => exact ⟨h.1, ih h.2⟩
  | await hr he ih => exact fun s' hs hready => ih (h (s', g) ⟨hs, rfl⟩ ((hr (s', g)).trans hready))
  | look he ih => exact ih (s, g) h
  | remark he ih => exact ih h.2

end Locals

section Progress

variable {R G : σ → σ → Prop} {s : σ}

/-- Whatever the others do, no `await` waits for more than its turn, so that the call ends. -/
def Prompt (R : σ → σ → Prop) : Coroutine σ ε α → σ → Prop
  | .ret _, _ => True
  | .fail _, _ => True
  | .read k, s => Prompt R (k s) s
  | .write s' next, _ => Prompt R next s'
  | .await ready next, s => ∀ s', R s s' → ready s' = true ∧ Prompt R next s'

theorem prompt_bind {t : Coroutine σ ε α} {f : α → Coroutine σ ε β} (ht : Prompt R t s)
    (hf : wp R G t (ends (fun a s => Prompt R (f a) s) (fun _ _ => True)) s) :
    Prompt R (t >>= f) s := by
  change Prompt R (t.bind f) s
  induction t generalizing s with
  | ret a => exact hf
  | fail e => trivial
  | read k ih => exact ih s ht hf
  | write s' next ih => exact ih ht hf.2
  | await ready next ih =>
      exact fun s' hs => ⟨(ht s' hs).1, ih (ht s' hs).2 (hf s' hs (ht s' hs).1)⟩

/-- Every `await` of the call only yields. -/
def Yields : Coroutine σ ε α → Prop
  | .ret _ => True
  | .fail _ => True
  | .read k => ∀ s, Yields (k s)
  | .write _ next => Yields next
  | .await ready next => (∀ s, ready s = true) ∧ Yields next

theorem yields_pure (a : α) : Yields (pure a : Coroutine σ ε α) := trivial

theorem yields_throw (e : ε) : Yields (throw e : Coroutine σ ε α) := trivial

theorem prompt_of_yields {t : Coroutine σ ε α} (h : Yields t) (s : σ) : Prompt R t s := by
  induction t generalizing s with
  | ret a => trivial
  | fail e => trivial
  | read k ih => exact ih s (h s) s
  | write s' next ih => exact ih h s'
  | await ready next ih => exact fun s' _ => ⟨h.1 s', ih h.2 s'⟩

theorem yields_bind {t : Coroutine σ ε α} {f : α → Coroutine σ ε β} (ht : Yields t)
    (hf : ∀ a, Yields (f a)) : Yields (t >>= f) := by
  change Yields (t.bind f)
  induction t with
  | ret a => exact hf a
  | fail e => trivial
  | read k ih => exact fun s => ih s (ht s)
  | write s next ih => exact ih ht
  | await ready next ih => exact ⟨ht.1, ih ht.2⟩

theorem yields_tryCatch {t : Coroutine σ ε α} {h : ε → Coroutine σ ε α} (ht : Yields t)
    (hh : ∀ e, Yields (h e)) : Yields (t.tryCatch h) := by
  induction t with
  | ret a => trivial
  | fail e => exact hh e
  | read k ih => exact fun s => ih s (ht s)
  | write s next ih => exact ih ht
  | await ready next ih => exact ⟨ht.1, ih ht.2⟩

theorem yields_foldM {f : β → α → Coroutine σ ε β} (hf : ∀ b a, Yields (f b a)) (b : β)
    (l : List α) : Yields (foldM f b l) := by
  induction l generalizing b with
  | nil => trivial
  | cons a rest ih => exact yields_bind (hf b a) ih

end Progress

section Histories

variable {pick : σ → Bool}

theorem erases_beside {ready' : σ × γ → Bool} {ready : σ → Bool}
    {left' : Coroutine (σ × γ) ε β → Coroutine (σ × γ) ε (α × β)}
    {left : Coroutine σ ε β → Coroutine σ ε (α × β)} {u' : Coroutine (σ × γ) ε β}
    {u : Coroutine σ ε β} (hr : ∀ x, ready' x = ready x.1)
    (hleft : ∀ u' u, Erases u' u → Erases (left' u') (left u)) (hu : Erases u' u) :
    Erases (beside (fun x => pick x.1) ready' left' u') (beside pick ready left u) := by
  induction hu with
  | ret b => exact .await hr (hleft _ _ (.ret b))
  | fail e => exact .fail e
  | read h ih => exact .read ih
  | write h ih => exact .write ih
  | await hr' h ih =>
      refine .await (fun x => by rw [hr, hr']) (.read fun x => ?_)
      rw [hr, hr']
      split
      · exact hleft _ _ (.await hr' h)
      · exact ih
  | look h ih => exact .look ih
  | remark h ih => exact .remark ih

theorem erases_both (pick : σ → Bool) {t' : Coroutine (σ × γ) ε α} {t : Coroutine σ ε α}
    {u' : Coroutine (σ × γ) ε β} {u : Coroutine σ ε β} (ht : Erases t' t) (hu : Erases u' u) :
    Erases (both (fun x => pick x.1) t' u') (both pick t u) := by
  induction ht generalizing u' u with
  | ret a => exact erases_bind' hu fun b => .ret (a, b)
  | fail e => exact .fail e
  | read h ih => exact .read fun s => ih s hu
  | write h ih => exact .write (ih hu)
  | await hr h ih => exact erases_beside hr (fun _ _ h => ih h) hu
  | look h ih => exact .look fun s => ih s hu
  | remark h ih => exact .remark (ih hu)

theorem erases_all {pick : Nat → σ → Bool} {task' : ι → Coroutine (σ × γ) ε Unit}
    {task : ι → Coroutine σ ε Unit} (h : ∀ i, Erases (task' i) (task i)) (ts : List ι) :
    Erases (all (fun n x => pick n x.1) (ts.map task')) (all pick (ts.map task)) := by
  induction ts with
  | nil => exact .ret ()
  | cons i rest ih =>
      have hrest := erases_both (pick (rest.map task).length) (h i) ih
      rw [List.length_map] at hrest
      refine erases_bind' ?_ fun _ => .ret ()
      rw [List.length_map, List.length_map]
      exact hrest

end Histories

end OpsBlobs.Promises
