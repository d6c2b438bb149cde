import OpsBlobs.Interleaving
import Mathlib.Data.List.Perm.Basic

namespace OpsBlobs.TaskPool

open Coroutine Interleaving

variable {σ ε α β : Type}

section Meets

variable (R G C : σ → σ → Prop) (I : σ → Prop)

/-- Like `wp`, but a write has to be answered for only when it meets the condition `C`, and the
invariant `I` has to hold wherever the coroutine stops. -/
def meets : Coroutine σ ε α → (Except ε α → σ → Prop) → σ → Prop
  | .ret a, Q, s => Q (.ok a) s
  | .fail e, Q, s => Q (.error e) s
  | .read k, Q, s => meets (k s) Q s
  | .write s' next, Q, s => C s s' → G s s' ∧ meets next Q s'
  | .await ready next, Q, s => I s ∧ ∀ s', R s s' → ready s' = true → meets next Q s'

/-- It comes back with a result, and without an error. -/
def returns (Q : α → σ → Prop) : Except ε α → σ → Prop
  | .ok a, s => Q a s
  | .error _, _ => False

variable {R G C I} {Q Q' : Except ε α → σ → Prop} {s : σ}

theorem meets_mono {t : Coroutine σ ε α} (hQ : ∀ r s, Q r s → Q' r s)
    (h : meets R G C I t Q s) : meets R G C I t Q' s := by
  induction t generalizing s with
  | ret a => exact hQ _ _ h
  | fail e => exact hQ _ _ h
  | read k ih => exact ih s h
  | write s' next ih => exact fun hC => ⟨(h hC).1, ih (h hC).2⟩
  | await ready next ih => exact ⟨h.1, fun s' hs hr => ih (h.2 s' hs hr)⟩

theorem meets_bind' {t : Coroutine σ ε α} {f : α → Coroutine σ ε β}
    {Q : Except ε β → σ → Prop} (h : meets R G C I t (fun r s =>
      match r with
      | .ok a => meets R G C I (f a) Q s
      | .error e => Q (.error e) s) s) : meets R G C I (t.bind f) Q s := by
  induction t generalizing s with
  | ret a => exact h
  | fail e => exact h
  | read k ih => exact ih s h
  | write s' next ih => exact fun hC => ⟨(h hC).1, ih (h hC).2⟩
  | await ready next ih => exact ⟨h.1, fun s' hs hr => ih (h.2 s' hs hr)⟩

/-- The rule for a sequence. -/
theorem meets_bind {t : Coroutine σ ε α} {f : α → Coroutine σ ε β} {J : α → σ → Prop}
    {Q : Except ε β → σ → Prop} (h : meets R G C I t (returns J) s)
    (hf : ∀ a s, J a s → meets R G C I (f a) Q s) : meets R G C I (t >>= f) Q s := by
  refine meets_bind' (meets_mono ?_ h)
  rintro (e | a) s' hJ
  · exact hJ.elim
  · exact hf a s' hJ

/-- The rule for a loop: what holds with some elements to go holds with one less after a
pass. -/
theorem meets_forEach {f : α → Coroutine σ ε Unit} {J : List α → σ → Prop} {l : List α}
    (hJ : J l s) (hf : ∀ a rest s, a ∈ l → J (a :: rest) s →
      meets R G C I (f a) (returns fun _ s => J rest s) s) :
    meets R G C I (forEach f l) (returns fun _ s => J [] s) s := by
  induction l generalizing s with
  | nil => exact hJ
  | cons a rest ih =>
      refine meets_bind (hf a rest s List.mem_cons_self hJ) fun _ s' hs' => ?_
      exact ih hs' fun b rest' s hb => hf b rest' s (List.mem_cons_of_mem a hb)

theorem meets_foldM {f : β → α → Coroutine σ ε β} {J : List α → β → σ → Prop} {l : List α} {b : β}
    (hJ : J l b s) (hf : ∀ a rest b s, a ∈ l → J (a :: rest) b s →
      meets R G C I (f b a) (returns fun b s => J rest b s) s) :
    meets R G C I (foldM f b l) (returns fun b s => J [] b s) s := by
  induction l generalizing s b with
  | nil => exact hJ
  | cons a rest ih =>
      refine meets_bind (hf a rest b s List.mem_cons_self hJ) fun b' s' hs' => ?_
      exact ih hs' fun c rest' b s hc => hf c rest' b s (List.mem_cons_of_mem a hc)

/-- What the others and the coroutine's own writes both keep still holds when it ends. -/
theorem meets_invariant {J : σ → Prop} {t : Coroutine σ ε α} (hR : ∀ s s', R s s' → J s → J s')
    (hG : ∀ s s', G s s' → J s → J s') (h : meets R G C I t Q s) (hJ : J s) :
    meets R G C I t (fun r s => Q r s ∧ J s) s := by
  induction t generalizing s with
  | ret a => exact ⟨h, hJ⟩
  | fail e => exact ⟨h, hJ⟩
  | read k ih => exact ih s h hJ
  | write s' next ih => exact fun hC => ⟨(h hC).1, ih (h hC).2 (hG _ _ (h hC).1 hJ)⟩
  | await ready next ih => exact ⟨h.1, fun s' hs hr => ih (h.2 s' hs hr) (hR _ _ hs hJ)⟩

theorem meets_tryCatch {t : Coroutine σ ε α} {handle : ε → Coroutine σ ε α}
    (h : meets R G C I t (fun
      | .ok a, s => Q (.ok a) s
      | .error e, s => meets R G C I (handle e) Q s) s) :
    meets R G C I (t.tryCatch handle) Q s := by
  induction t generalizing s with
  | ret a => exact h
  | fail e => exact h
  | read k ih => exact ih s h
  | write s' next ih => exact fun hC => ⟨(h hC).1, ih (h hC).2⟩
  | await ready next ih => exact ⟨h.1, fun s' hs hr => ih (h.2 s' hs hr)⟩

theorem meets_tryFinally {t : Coroutine σ ε α} {c : Coroutine σ ε Unit}
    (h : meets R G C I t (fun r s => meets R G C I c (fun
      | .ok _, s => Q r s
      | .error e, s => Q (.error e) s) s) s) : meets R G C I (t.tryFinally c) Q s := by
  induction t generalizing s with
  | ret a =>
      refine meets_bind' (meets_mono ?_ h)
      rintro (e | u) s' hQ <;> exact hQ
  | fail e =>
      refine meets_bind' (meets_mono ?_ h)
      rintro (e | u) s' hQ <;> exact hQ
  | read k ih => exact ih s h
  | write s' next ih => exact fun hC => ⟨(h hC).1, ih (h hC).2⟩
  | await ready next ih => exact ⟨h.1, fun s' hs hr => ih (h.2 s' hs hr)⟩

end Meets

/-- Tasks over one state, each with the ticket it was started with, and the one that has the
turn. It keeps the turn up to its next `await`. -/
structure Pool (σ ε : Type) where
  state : σ
  parked : List (Nat × Coroutine σ ε Unit)
  running : Option (Nat × Coroutine σ ε Unit)
  fresh : Nat

/-- `Start` is what may be started, and every write meets `C`. -/
inductive Step (Start : Nat → Coroutine σ ε Unit → Prop) (C : σ → σ → Prop) :
    Pool σ ε → Pool σ ε → Prop
  | start {s parked n t} (h : Start n t) :
      Step Start C ⟨s, parked, none, n⟩ ⟨s, parked, some (n, t), n + 1⟩
  | resume {s k ready next before after n} (h : ready s = true) :
      Step Start C ⟨s, before ++ (k, .await ready next) :: after, none, n⟩
        ⟨s, before ++ after, some (k, next), n⟩
  | read {s parked k f n} :
      Step Start C ⟨s, parked, some (k, .read f), n⟩ ⟨s, parked, some (k, f s), n⟩
  | write {s s' parked k next n} (h : C s s') :
      Step Start C ⟨s, parked, some (k, .write s' next), n⟩ ⟨s', parked, some (k, next), n⟩
  | stop {s parked k t n} (h : Stops t) :
      Step Start C ⟨s, parked, some (k, t), n⟩ ⟨s, (k, t) :: parked, none, n⟩

abbrev Runs (Start : Nat → Coroutine σ ε Unit → Prop) (C : σ → σ → Prop) :
    Pool σ ε → Pool σ ε → Prop := Relation.ReflTransGen (Step Start C)

namespace Pool

def initial (s : σ) : Pool σ ε := ⟨s, [], none, 0⟩

def tickets (p : Pool σ ε) : List Nat := (p.running.toList ++ p.parked).map Prod.fst

/-- Every task that was started has come to its end. -/
def Ended (p : Pool σ ε) : Prop := p.running = none ∧ ∀ e ∈ p.parked, e.2 = .ret ()

def returned : Coroutine σ ε Unit → Bool
  | .ret _ => true
  | _ => false

theorem returned_iff (t : Coroutine σ ε Unit) : returned t = true ↔ t = .ret () := by
  cases t <;> simp [returned]

instance (p : Pool σ ε) : Decidable p.Ended :=
  decidable_of_iff (p.running.isNone = true ∧ ∀ e ∈ p.parked, returned e.2 = true) (by
    simp only [Ended, returned_iff, Option.isNone_iff_eq_none])

end Pool

/-- What tasks agree on: an invariant for the points where they stop, what each may rely on
while the others run, and what it leaves when it ends. -/
structure Protocol (σ : Type) where
  inv : σ → Prop
  keeps : Nat → σ → σ → Prop
  done : Nat → σ → Prop

namespace Protocol

variable (A : Protocol σ)

def rely (k : Nat) (s s' : σ) : Prop := A.inv s' ∧ A.keeps k s s'

def acts (k : Nat) (s s' : σ) : Prop := ∀ j, j ≠ k → A.keeps j s s'

/-- The part of one task: it does what the others rely on, and comes back done. -/
def Plays (C : σ → σ → Prop) (k : Nat) (t : Coroutine σ ε Unit) (s : σ) : Prop :=
  meets (A.rely k) (A.acts k) C A.inv t (returns fun _ s => A.inv s ∧ A.done k s) s

structure Sound (Start : Nat → Coroutine σ ε Unit → Prop) (C : σ → σ → Prop) : Prop where
  refl : ∀ k s, A.keeps k s s
  trans : ∀ k s₁ s₂ s₃, A.keeps k s₁ s₂ → A.keeps k s₂ s₃ → A.keeps k s₁ s₃
  settled : ∀ k s s', A.keeps k s s' → A.done k s → A.done k s'
  started : ∀ k t s, Start k t → A.inv s → A.done k s → A.Plays C k t s

/-- A task that does not have the turn. -/
def Parked (C : σ → σ → Prop) (s : σ) (e : Nat × Coroutine σ ε Unit) : Prop :=
  match e.2 with
  | .ret _ => A.done e.1 s
  | .await ready next => ∀ s', A.rely e.1 s s' → ready s' = true → A.Plays C e.1 next s'
  | _ => False

/-- The proof state of a pool. -/
structure Holds (C : σ → σ → Prop) (p : Pool σ ε) : Prop where
  inv : p.running = none → A.inv p.state
  all : p.tickets.Perm (List.range p.fresh)
  parked : ∀ e ∈ p.parked, A.Parked C p.state e
  runs : ∀ e, p.running = some e → A.Plays C e.1 e.2 p.state
  unused : ∀ k, p.fresh ≤ k → A.done k p.state

variable {A} {Start : Nat → Coroutine σ ε Unit → Prop} {C : σ → σ → Prop} {p p' : Pool σ ε}

theorem parked_of_plays {k : Nat} {t : Coroutine σ ε Unit} {s : σ} (hstop : Stops t)
    (h : A.Plays C k t s) : A.inv s ∧ A.Parked C s (k, t) := by
  cases t with
  | ret a => exact h
  | fail e => exact h.elim
  | await ready next => exact h
  | read k => exact hstop.elim
  | write s' next => exact hstop.elim

theorem parked_keeps (hA : A.Sound Start C) {e : Nat × Coroutine σ ε Unit} {s s' : σ}
    (hs : A.keeps e.1 s s') (h : A.Parked C s e) : A.Parked C s' e := by
  obtain ⟨k, t⟩ := e
  cases t with
  | ret a => exact hA.settled k s s' hs h
  | fail e => exact h.elim
  | await ready next => exact fun s'' hr => h s'' ⟨hr.1, hA.trans k s s' s'' hs hr.2⟩
  | read k => exact h.elim
  | write s'' next => exact h.elim

theorem holds_step (hA : A.Sound Start C) (h : A.Holds C p) (hs : Step Start C p p') :
    A.Holds C p' := by
  cases hs with
  | @start s parked n t hstart =>
      refine ⟨nofun, ?_, h.parked, ?_, fun k hk => h.unused k (Nat.le_of_succ_le hk)⟩
      · rw [List.range_succ]
        exact (h.all.cons n).trans (List.perm_append_singleton n (List.range n)).symm
      · rintro _ ⟨⟩
        exact hA.started n t s hstart (h.inv rfl) (h.unused n (Nat.le_refl n))
  | @resume s k ready next before after n hr =>
      have hmem : (k, Coroutine.await ready next) ∈ before ++ (k, .await ready next) :: after :=
        List.mem_append_right _ List.mem_cons_self
      refine ⟨nofun, ?_, fun e he => h.parked e ?_, ?_, h.unused⟩
      · refine List.Perm.trans ?_ h.all
        simp only [Pool.tickets, Option.toList, List.map_append, List.map_cons, List.nil_append,
          List.cons_append]
        exact List.perm_middle.symm
      · rcases List.mem_append.1 he with he | he
        · exact List.mem_append_left _ he
        · exact List.mem_append_right _ (List.mem_cons_of_mem _ he)
      · rintro _ ⟨⟩
        exact h.parked _ hmem s ⟨h.inv rfl, hA.refl k s⟩ hr
  | read =>
      have hrun := h.runs _ rfl
      refine ⟨nofun, h.all, h.parked, ?_, h.unused⟩
      rintro _ ⟨⟩
      exact hrun
  | @write s s' parked k next n hC =>
      obtain ⟨hkeeps, hnext⟩ := h.runs _ rfl hC
      have hnodup : (k :: parked.map Prod.fst).Nodup := (h.all.nodup_iff).2 List.nodup_range
      have hlt : k < n := List.mem_range.1 ((h.all.mem_iff).1 List.mem_cons_self)
      refine ⟨nofun, h.all, ?_, ?_, ?_⟩
      · intro e he
        refine parked_keeps hA (hkeeps e.1 ?_) (h.parked e he)
        rintro rfl
        exact (List.nodup_cons.1 hnodup).1 (List.mem_map_of_mem he)
      · rintro _ ⟨⟩
        exact hnext
      · intro j hj
        exact hA.settled j s s' (hkeeps j (Nat.ne_of_gt (Nat.lt_of_lt_of_le hlt hj))) (h.unused j hj)
  | stop hstop =>
      obtain ⟨hinv, hparked⟩ := parked_of_plays hstop (h.runs _ rfl)
      refine ⟨fun _ => hinv, h.all, ?_, nofun, h.unused⟩
      intro e he
      rcases List.mem_cons.1 he with rfl | he
      · exact hparked
      · exact h.parked e he

theorem holds_initial {s : σ} (hinv : A.inv s) (hdone : ∀ k, A.done k s) :
    A.Holds C (.initial s : Pool σ ε) :=
  ⟨fun _ => hinv, .refl _, nofun, nofun, fun k _ => hdone k⟩

theorem holds_of_runs (hA : A.Sound Start C) (h : A.Holds C p) (hr : Runs Start C p p') :
    A.Holds C p' := by
  induction hr with
  | refl => exact h
  | tail _ hs ih => exact holds_step hA ih hs

/-- What every write of a task keeps holds in every state of a run. -/
theorem invariant_of_runs (hA : A.Sound Start C) {J : σ → Prop}
    (hJ : ∀ k s s', A.acts k s s' → J s → J s') (h : A.Holds C p) (hr : Runs Start C p p')
    (hp : J p.state) : J p'.state := by
  induction hr with
  | refl => exact hp
  | tail hr hs ih =>
      have hmid := holds_of_runs hA h hr
      cases hs with
      | start => exact ih
      | resume => exact ih
      | read => exact ih
      | write hC => exact hJ _ _ _ (hmid.runs _ rfl hC).1 ih
      | stop => exact ih

/-- Once all tasks have come to their ends, each has left what it had to. -/
theorem done_of_ended (h : A.Holds C p) (hend : p.Ended) (k : Nat) : A.done k p.state := by
  obtain hk | hk := Nat.lt_or_ge k p.fresh
  · have hmem : k ∈ p.tickets := (h.all.mem_iff).2 (List.mem_range.2 hk)
    rw [Pool.tickets, hend.1] at hmem
    obtain ⟨⟨_, t⟩, he, rfl⟩ := List.mem_map.1 hmem
    have hp := h.parked _ he
    obtain rfl : t = .ret () := hend.2 _ he
    exact hp
  · exact h.unused k hk

/-- No task fails. -/
theorem ne_fail (h : A.Holds C p) {k : Nat} {t : Coroutine σ ε Unit} (hmem : (k, t) ∈ p.parked)
    (e : ε) : t ≠ .fail e := by
  rintro rfl
  exact h.parked _ hmem

end Protocol

section Turns

/-- A task's turn: it goes on up to where it stops, as long as its writes meet `C`. -/
def takeTurn (C : σ → σ → Prop) [DecidableRel C] :
    Coroutine σ ε Unit → σ → Option (Coroutine σ ε Unit × σ)
  | .read k, s => takeTurn C (k s) s
  | .write s' next, s => if C s s' then takeTurn C next s' else none
  | .ret a, s => some (.ret a, s)
  | .fail e, s => some (.fail e, s)
  | .await ready next, s => some (.await ready next, s)

/-- Who goes next, for a whole turn. -/
inductive Choice (κ : Type)
  | start (c : κ)
  | resume (ticket : Nat)

variable {κ : Type} (task : Nat → κ → Coroutine σ ε Unit) (C : σ → σ → Prop) [DecidableRel C]

def choose (p : Pool σ ε) : Choice κ → Option (Pool σ ε)
  | .start c =>
      (takeTurn C (task p.fresh c) p.state).map fun turn =>
        ⟨turn.2, (p.fresh, turn.1) :: p.parked, none, p.fresh + 1⟩
  | .resume k =>
      match p.parked.find? (fun e => e.1 = k) with
      | some (_, .await ready next) =>
          if ready p.state then
            (takeTurn C next p.state).map fun turn =>
              ⟨turn.2, (k, turn.1) :: p.parked.eraseP (fun e => e.1 = k), none, p.fresh⟩
          else none
      | _ => none

variable {task C} {Start : Nat → Coroutine σ ε Unit → Prop}

theorem runs_takeTurn {t : Coroutine σ ε Unit} {s : σ} {turn : Coroutine σ ε Unit × σ}
    (h : takeTurn C t s = some turn) (k : Nat) (parked : List (Nat × Coroutine σ ε Unit)) (n : Nat) :
    Runs Start C ⟨s, parked, some (k, t), n⟩ ⟨turn.2, (k, turn.1) :: parked, none, n⟩ := by
  induction t generalizing s with
  | ret a =>
      obtain rfl := Option.some.inj h
      exact .single (.stop trivial)
  | fail e =>
      obtain rfl := Option.some.inj h
      exact .single (.stop trivial)
  | await ready next =>
      obtain rfl := Option.some.inj h
      exact .single (.stop trivial)
  | read k ih => exact .head .read (ih s h)
  | write s' next ih =>
      rw [takeTurn] at h
      split at h
      · rename_i hC
        exact .head (.write hC) (ih h)
      · cases h

theorem runs_choose {p p' : Pool σ ε} {c : Choice κ} (hidle : p.running = none)
    (hstart : ∀ k a, c = .start a → Start k (task k a)) (h : choose task C p c = some p') :
    Runs Start C p p' ∧ p'.running = none := by
  obtain ⟨s, parked, _, n⟩ := p
  obtain rfl : _ = none := hidle
  cases c with
  | start a =>
      obtain ⟨turn, hturn, rfl⟩ := Option.map_eq_some_iff.1 h
      exact ⟨.head (.start (hstart n a rfl)) (runs_takeTurn hturn n parked (n + 1)), rfl⟩
  | resume k =>
      rw [choose] at h
      split at h
      · rename_i _ j ready next hfind
        split at h
        · rename_i hr
          obtain ⟨turn, hturn, rfl⟩ := Option.map_eq_some_iff.1 h
          obtain ⟨hk, before, after, rfl, hbefore⟩ := List.find?_eq_some_iff_append.1 hfind
          obtain rfl := of_decide_eq_true hk
          have hrest : (before ++ (j, Coroutine.await ready next) :: after).eraseP
              (fun e => e.1 = j) = before ++ after := by
            rw [List.eraseP_append_right _ fun e he => by simpa using hbefore e he,
              List.eraseP_cons_of_pos (by simp)]
          refine ⟨.head (.resume hr) ?_, rfl⟩
          dsimp only
          rw [hrest]
          exact runs_takeTurn hturn j _ n
        · cases h
      · cases h

/-- Every schedule is a run. -/
theorem runs_of_schedule {choices : List (Choice κ)} {p p' : Pool σ ε} (hidle : p.running = none)
    (hstart : ∀ k a, .start a ∈ choices → Start k (task k a))
    (h : choices.foldlM (choose task C) p = some p') : Runs Start C p p' := by
  induction choices generalizing p with
  | nil =>
      obtain rfl := Option.some.inj h
      exact .refl
  | cons c rest ih =>
      rw [List.foldlM_cons] at h
      obtain ⟨p₁, hc, hrest⟩ := Option.bind_eq_some_iff.1 h
      obtain ⟨hrun, hidle₁⟩ := runs_choose hidle
        (fun k a hca => hstart k a (hca ▸ List.mem_cons_self)) hc
      exact hrun.trans (ih hidle₁ (fun k a ha => hstart k a (List.mem_cons_of_mem _ ha)) hrest)

end Turns

end OpsBlobs.TaskPool
