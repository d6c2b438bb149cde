import OpsBlobs.TaskPool
import Mathlib.Data.List.Forall2

namespace OpsBlobs.GhostCode

open Coroutine TaskPool
open Interleaving (Stops)

variable {σ γ ε α β : Type}

section Lift

/-- The code over a state that carries a history besides; the code leaves the history alone. -/
def lift : Coroutine σ ε α → Coroutine (σ × γ) ε α
  | .ret a => .ret a
  | .fail e => .fail e
  | .read k => .read fun s => lift (k s.1)
  | .write s' next => .read fun s => .write (s', s.2) (lift next)
  | .await ready next => .await (fun s => ready s.1) (lift next)

/-- A write of the code, and what the history makes of it. -/
def modifyWith (f : σ → σ) (g : σ → γ → γ) : Coroutine (σ × γ) ε Unit :=
  modify fun s => (f s.1, g s.1 s.2)

def modifyGetWith (f : σ → α × σ) (g : σ → γ → γ) : Coroutine (σ × γ) ε α :=
  modifyGet fun s => ((f s.1).1, (f s.1).2, g s.1 s.2)

/-- A remark in the history at a point where the code writes nothing. -/
def remark (g : σ → γ → γ) : Coroutine (σ × γ) ε Unit := modify fun s => (s.1, g s.1 s.2)

end Lift

section Erasure

/-- With all that concerns the history left out, the first is the second. -/
inductive Erases : Coroutine (σ × γ) ε α → Coroutine σ ε α → Prop
  | ret (a) : Erases (.ret a) (.ret a)
  | fail (e) : Erases (.fail e) (.fail e)
  | read {k' k} (h : ∀ s, Erases (k' s) (k s.1)) : Erases (.read k') (.read k)
  | write {x : σ × γ} {next' next} (h : Erases next' next) :
      Erases (.write x next') (.write x.1 next)
  | await {ready' ready next' next} (hr : ∀ s : σ × γ, ready' s = ready s.1)
      (h : Erases next' next) : Erases (.await ready' next') (.await ready next)
  | look {k' t} (h : ∀ s, Erases (k' s) t) : Erases (.read k') t
  | remark {g : σ × γ → γ} {next' t} (h : Erases next' t) :
      Erases (.read fun s => .write (s.1, g s) next') t

theorem erases_lift (t : Coroutine σ ε α) : Erases (lift t : Coroutine (σ × γ) ε α) t := by
  induction t with
  | ret a => exact .ret a
  | fail e => exact .fail e
  | read k ih => exact .read fun s => ih s.1
  | write s' next ih => exact .look fun s => .write (x := (s', s.2)) ih
  | await ready next ih => exact .await (fun _ => rfl) ih

theorem erases_modifyWith (f : σ → σ) (g : σ → γ → γ) :
    Erases (modifyWith f g : Coroutine (σ × γ) ε Unit) (modify f) :=
  .read fun s => .write (x := (f s.1, g s.1 s.2)) (.ret ())

theorem erases_modifyGetWith (f : σ → α × σ) (g : σ → γ → γ) :
    Erases (modifyGetWith f g : Coroutine (σ × γ) ε α) (modifyGet f) :=
  .read fun s => .write (x := ((f s.1).2, g s.1 s.2)) (.ret _)

theorem erases_bind' {t' : Coroutine (σ × γ) ε α} {t : Coroutine σ ε α}
    {f' : α → Coroutine (σ × γ) ε β} {f : α → Coroutine σ ε β} (ht : Erases t' t)
    (hf : ∀ a, Erases (f' a) (f a)) : Erases (t'.bind f') (t.bind f) := by
  induction ht with
  | ret a => exact hf a
  | fail e => exact .fail e
  | read h ih => exact .read ih
  | write h ih => exact .write ih
  | await hr h ih => exact .await hr ih
  | look h ih => exact .look ih
  | remark h ih => exact .remark ih

theorem erases_bind {t' : Coroutine (σ × γ) ε α} {t : Coroutine σ ε α}
    {f' : α → Coroutine (σ × γ) ε β} {f : α → Coroutine σ ε β} (ht : Erases t' t)
    (hf : ∀ a, Erases (f' a) (f a)) : Erases (t' >>= f') (t >>= f) := erases_bind' ht hf

theorem erases_remark {g : σ → γ → γ} {t' : Coroutine (σ × γ) ε α} {t : Coroutine σ ε α}
    (ht : Erases t' t) : Erases (remark g >>= fun _ => t') t := .remark ht

theorem erases_tryCatch {t' : Coroutine (σ × γ) ε α} {t : Coroutine σ ε α}
    {h' : ε → Coroutine (σ × γ) ε α} {h : ε → Coroutine σ ε α} (ht : Erases t' t)
    (hh : ∀ e, Erases (h' e) (h e)) : Erases (t'.tryCatch h') (t.tryCatch h) := by
  induction ht with
  | ret a => exact .ret a
  | fail e => exact hh e
  | read h ih => exact .read ih
  | write h ih => exact .write ih
  | await hr h ih => exact .await hr ih
  | look h ih => exact .look ih
  | remark h ih => exact .remark ih

theorem erases_tryFinally {t' : Coroutine (σ × γ) ε α} {t : Coroutine σ ε α}
    {c' : Coroutine (σ × γ) ε Unit} {c : Coroutine σ ε Unit} (ht : Erases t' t)
    (hc : Erases c' c) : Erases (t'.tryFinally c') (t.tryFinally c) := by
  induction ht with
  | ret a => exact erases_bind' hc fun _ => .ret a
  | fail e => exact erases_bind' hc fun _ => .fail e
  | read h ih => exact .read ih
  | write h ih => exact .write ih
  | await hr h ih => exact .await hr ih
  | look h ih => exact .look ih
  | remark h ih => exact .remark ih

theorem erases_forEach {f' : α → Coroutine (σ × γ) ε Unit} {f : α → Coroutine σ ε Unit}
    (hf : ∀ a, Erases (f' a) (f a)) (l : List α) : Erases (forEach f' l) (forEach f l) := by
  induction l with
  | nil => exact .ret ()
  | cons a rest ih => exact erases_bind' (hf a) fun _ => ih

theorem erases_foldM {f' : β → α → Coroutine (σ × γ) ε β} {f : β → α → Coroutine σ ε β}
    (hf : ∀ b a, Erases (f' b a) (f b a)) (b : β) (l : List α) :
    Erases (foldM f' b l) (foldM f b l) := by
  induction l generalizing b with
  | nil => exact .ret b
  | cons a rest ih => exact erases_bind' (hf b a) ih

end Erasure

section Pools

variable {Start' : Nat → Coroutine (σ × γ) ε Unit → Prop} {Start : Nat → Coroutine σ ε Unit → Prop}
  {C : σ → σ → Prop}

/-- What a task's own steps make of it, without conditions on its writes. -/
def Goes (s s' : σ) (t t' : Coroutine σ ε Unit) : Prop :=
  ∀ (Start : Nat → Coroutine σ ε Unit → Prop) parked k n,
    Runs Start (fun _ _ => True) ⟨s, parked, some (k, t), n⟩ ⟨s', parked, some (k, t'), n⟩

theorem goes_refl (s : σ) (t : Coroutine σ ε Unit) : Goes s s t t := fun _ _ _ _ => .refl

theorem goes_read {s s' : σ} {f : σ → Coroutine σ ε Unit} {t' : Coroutine σ ε Unit}
    (h : Goes s s' (f s) t') : Goes s s' (.read f) t' :=
  fun Start parked k n => .head .read (h Start parked k n)

theorem goes_write {s s' s'' : σ} {next t' : Coroutine σ ε Unit} (h : Goes s' s'' next t') :
    Goes s s'' (.write s' next) t' :=
  fun Start parked k n => .head (.write trivial) (h Start parked k n)

/-- The code's next step is also one with the history, remarks made on the way. -/
theorem goes_of_erases {t' : Coroutine (σ × γ) ε Unit} {t : Coroutine σ ε Unit}
    (h : Erases t' t) (s : σ) (g : γ) :
    match t with
    | .read k => ∃ g' t'', Goes (s, g) (s, g') t' t'' ∧ Erases t'' (k s)
    | .write s' next => ∃ g' t'', Goes (s, g) (s', g') t' t'' ∧ Erases t'' next
    | t => ∃ g' t'', Goes (s, g) (s, g') t' t'' ∧ Stops t'' ∧ Erases t'' t := by
  induction h generalizing s g with
  | ret a => exact ⟨g, _, goes_refl _ _, trivial, .ret a⟩
  | fail e => exact ⟨g, _, goes_refl _ _, trivial, .fail e⟩
  | read h => exact ⟨g, _, goes_read (goes_refl _ _), h (s, g)⟩
  | @write x next' next h => exact ⟨x.2, _, goes_write (goes_refl _ _), h⟩
  | await hr h => exact ⟨g, _, goes_refl _ _, trivial, .await hr h⟩
  | @look k' t h ih =>
      have := ih (s, g) s g
      cases t with
      | ret a | fail e | read k | write s' next | await ready next =>
          obtain ⟨g', t'', hgo, hrest⟩ := this
          exact ⟨g', t'', goes_read hgo, hrest⟩
  | @remark r next' t h ih =>
      have := ih s (r (s, g))
      cases t with
      | ret a | fail e | read k | write s' next | await ready next =>
          obtain ⟨g', t'', hgo, hrest⟩ := this
          exact ⟨g', t'', goes_read (goes_write hgo), hrest⟩

theorem stops_of_erases {t' : Coroutine (σ × γ) ε Unit} {t : Coroutine σ ε Unit}
    (h : Erases t' t) (hstop : Stops t) (s : σ) (g : γ) :
    ∃ g' t'', Goes (s, g) (s, g') t' t'' ∧ Stops t'' ∧ Erases t'' t := by
  have := goes_of_erases h s g
  cases t with
  | ret a | fail e | await ready next => exact this
  | read k | write s' next => exact hstop.elim

/-- The same tasks, with the history and without. -/
structure Over (q : Pool (σ × γ) ε) (p : Pool σ ε) : Prop where
  state : q.state.1 = p.state
  parked : List.Forall₂ (fun e' e => e'.1 = e.1 ∧ Stops e'.2 ∧ Erases e'.2 e.2) q.parked p.parked
  running : Option.Rel (fun e' e => e'.1 = e.1 ∧ Erases e'.2 e.2) q.running p.running
  fresh : q.fresh = p.fresh

theorem over_initial (s : σ) (g : γ) :
    Over (.initial (s, g) : Pool (σ × γ) ε) (.initial s) := ⟨rfl, .nil, .none, rfl⟩

/-- Every step of the code is one of the code with the history. -/
theorem over_step (hstart : ∀ n t, Start n t → ∃ t', Start' n t' ∧ Erases t' t)
    {q : Pool (σ × γ) ε} {p p' : Pool σ ε} (h : Over q p) (hs : Step Start C p p') :
    ∃ q', Runs Start' (fun _ _ => True) q q' ∧ Over q' p' := by
  obtain ⟨⟨s, g⟩, parked', running', n'⟩ := q
  obtain ⟨hstate, hparked, hrunning, hfresh⟩ := h
  obtain rfl : s = _ := hstate
  obtain rfl : n' = _ := hfresh
  cases hs with
  | @start s parked n t ht =>
      obtain ⟨t', ht', he⟩ := hstart _ t ht
      cases hrunning
      exact ⟨_, .single (.start ht'), rfl, hparked, .some ⟨rfl, he⟩, rfl⟩
  | @resume s k ready next before after n hr =>
      cases hrunning
      have hbefore := List.forall₂_take_append parked' before _ hparked
      have hafter := List.forall₂_drop_append parked' before _ hparked
      rw [← List.take_append_drop before.length parked']
      obtain ⟨⟨k', t'⟩, rest', hhead, hrest, hdrop⟩ := List.forall₂_cons_right_iff.1 hafter
      obtain ⟨hk, hstops, he⟩ := hhead
      obtain rfl : k' = k := hk
      rw [hdrop]
      cases he with
      | await hready he =>
          refine ⟨_, .single (.resume ((hready _).trans hr)), rfl, ?_, .some ⟨rfl, he⟩, rfl⟩
          exact List.rel_append hbefore hrest
      | look | remark => exact hstops.elim
  | @read s parked k f n =>
      cases hrunning with
      | @some e' e he =>
          obtain ⟨k', t'⟩ := e'
          obtain ⟨hk, he⟩ := he
          obtain rfl : k' = k := hk
          obtain ⟨g', t'', hgo, he⟩ := goes_of_erases he s g
          exact ⟨_, hgo _ _ _ _, rfl, hparked, .some ⟨rfl, he⟩, rfl⟩
  | @write s s' parked k next n hC =>
      cases hrunning with
      | @some e' e he =>
          obtain ⟨k', t'⟩ := e'
          obtain ⟨hk, he⟩ := he
          obtain rfl : k' = k := hk
          obtain ⟨g', t'', hgo, he⟩ := goes_of_erases he s g
          exact ⟨_, hgo _ _ _ _, rfl, hparked, .some ⟨rfl, he⟩, rfl⟩
  | @stop s parked k t n hstop =>
      cases hrunning with
      | @some e' e he =>
          obtain ⟨k', t'⟩ := e'
          obtain ⟨hk, he⟩ := he
          obtain rfl : k' = k := hk
          obtain ⟨g', t'', hgo, hstops, he⟩ := stops_of_erases he hstop s g
          refine ⟨_, (hgo _ _ _ _).tail (.stop hstops), rfl, ?_, .none, rfl⟩
          exact .cons ⟨rfl, hstops, he⟩ hparked

/-- So every run of the code is what is left of a run with the history. -/
theorem over_runs (hstart : ∀ n t, Start n t → ∃ t', Start' n t' ∧ Erases t' t)
    {q : Pool (σ × γ) ε} {p p' : Pool σ ε} (h : Over q p) (hr : Runs Start C p p') :
    ∃ q', Runs Start' (fun _ _ => True) q q' ∧ Over q' p' := by
  induction hr with
  | refl => exact ⟨q, .refl, h⟩
  | tail _ hs ih =>
      obtain ⟨q₁, hr₁, h₁⟩ := ih
      obtain ⟨q₂, hr₂, h₂⟩ := over_step hstart h₁ hs
      exact ⟨q₂, hr₁.trans hr₂, h₂⟩

end Pools

section Completes

/-- It comes back without an error, whatever it finds. -/
def Completes : Coroutine σ ε α → Prop
  | .ret _ => True
  | .fail _ => False
  | .read k => ∀ s, Completes (k s)
  | .write _ next => Completes next
  | .await _ next => Completes next

theorem completes_bind' {t : Coroutine σ ε α} {f : α → Coroutine σ ε β} (ht : Completes t)
    (hf : ∀ a, Completes (f a)) : Completes (t.bind f) := by
  induction t with
  | ret a => exact hf a
  | fail e => exact ht.elim
  | read k ih => exact fun s => ih s (ht s)
  | write s next ih => exact ih ht
  | await ready next ih => exact ih ht

theorem completes_bind {t : Coroutine σ ε α} {f : α → Coroutine σ ε β} (ht : Completes t)
    (hf : ∀ a, Completes (f a)) : Completes (t >>= f) := completes_bind' ht hf

theorem completes_tryFinally {t : Coroutine σ ε α} {c : Coroutine σ ε Unit} (ht : Completes t)
    (hc : Completes c) : Completes (t.tryFinally c) := by
  induction t with
  | ret a => exact completes_bind' hc fun _ => trivial
  | fail e => exact ht.elim
  | read k ih => exact fun s => ih s (ht s)
  | write s next ih => exact ih ht
  | await ready next ih => exact ih ht

end Completes

section Rules

variable {R G C : σ × γ → σ × γ → Prop} {I J : σ × γ → Prop} {K : σ → σ → Prop} {s : σ × γ}

/-- Code that only does `K` writes, in any state that the others leave as it needs it. -/
theorem meets_lift' {t : Coroutine σ ε α} {P : Except ε α → Prop} (hI : ∀ s, J s → I s)
    (hR : ∀ s s', R s s' → J s → J s')
    (hK : ∀ s s' g, K s s' → J (s, g) → J (s', g) ∧ G (s, g) (s', g))
    (ht : wp (fun _ _ => True) K t (fun r _ => P r) s.1) (hc : Completes t) (hs : J s) :
    meets R G C I (lift t) (returns fun a s' => J s' ∧ P (.ok a)) s := by
  induction t generalizing s with
  | ret a => exact ⟨hs, ht⟩
  | fail e => exact hc.elim
  | read k ih => exact ih s.1 ht (hc s.1) hs
  | write s' next ih =>
      obtain ⟨hJ, hG⟩ := hK s.1 s' s.2 ht.1 hs
      exact fun _ => ⟨hG, ih (s := (s', s.2)) ht.2 hc hJ⟩
  | await ready next ih =>
      exact ⟨hI s hs, fun s' hs' hr => ih (ht s'.1 trivial hr) hc (hR s s' hs' hs)⟩

end Rules

end OpsBlobs.GhostCode
