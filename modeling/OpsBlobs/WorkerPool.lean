import OpsBlobs.Promises

namespace OpsBlobs.WorkerPool

open Coroutine GhostCode Promises

variable {σ ε : Type}

/-- The variables that the workers of a pool share. -/
structure Pool where
  next : Nat
  aborted : Bool

def Pool.claim (p : Pool) : Nat × Pool := (p.next, { p with next := p.next + 1 })

def Pool.abort (stops : Bool) (p : Pool) : Pool := { p with aborted := p.aborted || stops }

section Workers

variable (isCancelled : σ → Bool) (cancelled : ε) (stops : Bool) (units : List (Coroutine σ ε Unit))

/-- A failing unit takes the worker with it, and the pool where `stops` holds. -/
def perform (again : Coroutine (σ × Pool) ε Unit) :
    Option (Coroutine σ ε Unit) → Coroutine (σ × Pool) ε Unit
  | none => pure ()
  | some unit => do
      (lift unit).tryCatch fun e => do
        modify fun x => (x.1, x.2.abort stops)
        throw e
      again

/-- A worker takes the next unit until there is none. Every pass takes a unit, so that `passes` may
be as many as there are units, and one. -/
def worker : Nat → Coroutine (σ × Pool) ε Unit
  | 0 => pure ()
  | passes + 1 => do
      let x ← get
      if x.2.aborted then pure ()
      else if isCancelled x.1 then do
        modify fun x => (x.1, x.2.abort stops)
        throw cancelled
      else do
        let i ← modifyGet fun x => (x.2.claim.1, x.1, x.2.claim.2)
        perform stops (worker passes) units[i]?

/-- The workers are awaited together; what they return is that all units are done. Once one has
thrown, the others' last units are not followed any further. -/
def runPool (pick : Nat → σ → Bool) (concurrency : Nat) : Coroutine σ ε Unit := do
  let _ ← withLocal ⟨0, false⟩ (all (fun n x => pick n x.1)
    ((List.range (min concurrency units.length)).map fun _ =>
      worker isCancelled cancelled stops units (units.length + 1)))
  pure ()

end Workers

section History

/-- Who took each unit, and who stopped the pool. -/
structure Claims where
  owners : List Nat
  culprit : Option Nat

def Claims.claim (k : Nat) (c : Claims) : Claims := { c with owners := c.owners ++ [k] }

def Claims.abort (stops : Bool) (k : Nat) (c : Claims) : Claims :=
  { c with culprit := if stops then some k else c.culprit }

variable (isCancelled : σ → Bool) (cancelled : ε) (stops : Bool) (units : List (Coroutine σ ε Unit))

def perform' (k : Nat) (again : Coroutine ((σ × Pool) × Claims) ε Unit) :
    Option (Coroutine σ ε Unit) → Coroutine ((σ × Pool) × Claims) ε Unit
  | none => pure ()
  | some unit => do
      (lift (lift unit)).tryCatch fun e => do
        modifyWith (fun x => (x.1, x.2.abort stops)) (fun _ => Claims.abort stops k)
        throw e
      again

def worker' (k : Nat) : Nat → Coroutine ((σ × Pool) × Claims) ε Unit
  | 0 => pure ()
  | passes + 1 => do
      let x ← get
      if x.1.2.aborted then pure ()
      else if isCancelled x.1.1 then do
        modifyWith (fun x => (x.1, x.2.abort stops)) (fun _ => Claims.abort stops k)
        throw cancelled
      else do
        let i ← modifyGetWith (fun x => (x.2.claim.1, x.1, x.2.claim.2)) (fun _ => Claims.claim k)
        perform' stops k (worker' k passes) units[i]?

theorem erases_worker' (k passes : Nat) :
    Erases (worker' isCancelled cancelled stops units k passes)
      (worker isCancelled cancelled stops units passes) := by
  induction passes with
  | zero => exact .ret ()
  | succ passes ih =>
      refine .read fun x => ?_
      change Erases (if x.1.2.aborted = true then _ else _) (if x.1.2.aborted = true then _ else _)
      by_cases ha : x.1.2.aborted = true
      · rw [if_pos ha, if_pos ha]
        exact .ret ()
      rw [if_neg ha, if_neg ha]
      by_cases hc : isCancelled x.1.1 = true
      · rw [if_pos hc, if_pos hc]
        exact erases_bind (erases_modifyWith _ _) fun _ => .fail cancelled
      rw [if_neg hc, if_neg hc]
      refine erases_bind (erases_modifyGetWith _ _) fun i => ?_
      cases units[i]? with
      | none => exact .ret ()
      | some unit =>
          refine erases_bind (erases_tryCatch (erases_lift _) fun e => ?_) fun _ => ih
          exact erases_bind (erases_modifyWith _ _) fun _ => .fail e

end History

section Rule

/-- The units taken are counted, each by one of `n` workers; the pool stops by one of them. -/
structure Counted (n : Nat) (x : (σ × Pool) × Claims) : Prop where
  next : x.1.2.next = x.2.owners.length
  owners : ∀ k ∈ x.2.owners, k < n
  culprit : x.1.2.aborted = true → ∃ k < n, x.2.culprit = some k

/-- What those of the workers who are `who` may do. -/
structure Moves (n : Nat) (who : Nat → Prop) (E : σ → σ → Prop) (x y : (σ × Pool) × Claims) :
    Prop where
  state : E x.1.1 y.1.1
  counted : Counted n x → Counted n y
  aborted : x.1.2.aborted = true → y.1.2.aborted = true
  owners : x.2.owners <+: y.2.owners
  claims : ∀ i k : Nat, y.2.owners[i]? = some k → x.2.owners[i]? = some k ∨ who k
  culprit : ∀ k : Nat, y.2.culprit = some k → x.2.culprit = some k ∨ who k

variable {n : Nat} {who who' : Nat → Prop} {E S : σ → σ → Prop} {x y z : (σ × Pool) × Claims}

theorem moves_same (hE : E x.1.1 y.1.1) (hp : y.1.2 = x.1.2) (hc : y.2 = x.2) :
    Moves n who E x y := by
  obtain ⟨⟨s, p⟩, c⟩ := x
  obtain ⟨⟨s', p'⟩, c'⟩ := y
  cases hp
  cases hc
  exact ⟨hE, fun h => ⟨h.next, h.owners, h.culprit⟩, id, List.prefix_rfl, fun _ _ => Or.inl,
    fun _ => Or.inl⟩

theorem Moves.mono (hE : ∀ s s', S s s' → E s s') (hwho : ∀ k, who k → who' k)
    (h : Moves n who S x y) : Moves n who' E x y :=
  ⟨hE _ _ h.state, h.counted, h.aborted, h.owners, fun i k hk => (h.claims i k hk).imp_right (hwho k),
    fun k hk => (h.culprit k hk).imp_right (hwho k)⟩

theorem Moves.trans (hE : ∀ s s' s'', E s s' → E s' s'' → E s s'') (h : Moves n who E x y)
    (h' : Moves n who E y z) : Moves n who E x z where
  state := hE _ _ _ h.state h'.state
  counted := fun hx => h'.counted (h.counted hx)
  aborted := fun hx => h'.aborted (h.aborted hx)
  owners := h.owners.trans h'.owners
  claims := fun i k hk => (h'.claims i k hk).elim (h.claims i k) Or.inr
  culprit := fun k hk => (h'.culprit k hk).elim (h.culprit k) Or.inr

/-- A worker's writes are what the others put up with. -/
theorem side (hrefl : ∀ s, E s s) (htrans : ∀ s s' s'', E s s' → E s' s'' → E s s'')
    (hS : ∀ s s', S s s' → E s s') :
    Side (fun k => Moves n (· ≠ k) E) (fun k => Moves (σ := σ) n (· = k) S) where
  refl := fun k x => moves_same (hrefl _) rfl rfl
  trans := fun k _ _ _ h h' => h.trans htrans h'
  apart := by
    rintro i j x y hij h
    exact h.mono hS (by rintro k rfl; exact hij)

theorem moves_claim {k : Nat} (hk : k < n) (hrefl : ∀ s, S s s) (x : (σ × Pool) × Claims) :
    Moves n (· = k) S x ((x.1.1, x.1.2.claim.2), x.2.claim k) where
  state := hrefl _
  counted := by
    refine fun h => ⟨?_, ?_, h.culprit⟩
    · simp [Pool.claim, Claims.claim, h.next]
    · intro j hj
      rcases List.mem_append.1 hj with hj | hj
      · exact h.owners j hj
      · exact List.mem_singleton.1 hj ▸ hk
  aborted := id
  owners := List.prefix_append _ _
  claims := by
    intro i j hj
    rw [Claims.claim, List.getElem?_append] at hj
    split at hj
    · exact Or.inl hj
    · exact Or.inr (List.mem_singleton.1 (List.mem_of_getElem? hj))
  culprit := fun _ => Or.inl

theorem moves_abort {k : Nat} (hk : k < n) (hrefl : ∀ s, S s s) (stops : Bool)
    (x : (σ × Pool) × Claims) :
    Moves n (· = k) S x ((x.1.1, x.1.2.abort stops), x.2.abort stops k) where
  state := hrefl _
  counted := by
    refine fun h => ⟨h.next, h.owners, fun ha => ?_⟩
    cases stops with
    | false => exact h.culprit (by simpa [Pool.abort] using ha)
    | true => exact ⟨k, hk, rfl⟩
  aborted := fun ha => by simp [Pool.abort, ha]
  owners := List.prefix_rfl
  claims := fun _ _ => Or.inl
  culprit := by
    intro j hj
    cases stops with
    | false => exact Or.inl hj
    | true => exact Or.inr (Option.some.inj hj).symm

/-- Units that can be done at any time, side by side: `P` is what they start from, `Done` what
each leaves behind, `X` how one may fail. -/
structure Job (E S : σ → σ → Prop) (units : List (Coroutine σ ε Unit)) (P : σ → Prop)
    (Done : Nat → σ → Prop) (X : ε → σ → Prop) : Prop where
  refl : ∀ s, S s s
  trans : ∀ s s' s'', E s s' → E s' s'' → E s s''
  own : ∀ s s', S s s' → E s s'
  kept : ∀ s s', E s s' → P s → P s'
  stays : ∀ i s s', E s s' → Done i s → Done i s'
  unit : ∀ i u, units[i]? = some u → ∀ s, P s → wp E S u (ends (fun _ => Done i) X) s

/-- A worker between two units, or in the middle of the one that is `at_`. -/
structure Held (n len k passes : Nat) (at_ : Option Nat) (P : σ → Prop) (Done : Nat → σ → Prop)
    (x : (σ × Pool) × Claims) : Prop where
  state : P x.1.1
  counted : Counted n x
  culprit : x.2.culprit ≠ some k
  passes : len + 1 ≤ x.1.2.next + passes
  mine : ∀ i, x.2.owners[i]? = some k → i < len → at_ = some i ∨ Done i x.1.1

/-- A worker that came to its end: no unit was left, or the pool had been stopped. -/
structure Finished (n len k : Nat) (Done : Nat → σ → Prop) (x : (σ × Pool) × Claims) : Prop where
  counted : Counted n x
  culprit : x.2.culprit ≠ some k
  drained : x.1.2.aborted = true ∨ len ≤ x.1.2.next
  mine : ∀ i, x.2.owners[i]? = some k → i < len → Done i x.1.1

variable {units : List (Coroutine σ ε Unit)} {P : σ → Prop} {Done : Nat → σ → Prop}
  {X : ε → σ → Prop} {k passes : Nat} {at_ : Option Nat}

theorem Counted.next_le (hx : Counted n x) (hy : Counted n y) (h : x.2.owners <+: y.2.owners) :
    x.1.2.next ≤ y.1.2.next := by
  rw [hx.next, hy.next]
  exact h.length_le

theorem Held.moves (hJ : Job E S units P Done X) (h : Held n units.length k passes at_ P Done x)
    (hm : Moves n (· ≠ k) E x y) : Held n units.length k passes at_ P Done y where
  state := hJ.kept _ _ hm.state h.state
  counted := hm.counted h.counted
  culprit := fun hy => (hm.culprit k hy).elim h.culprit fun hne => hne rfl
  passes := Nat.le_trans h.passes
    (Nat.add_le_add_right (h.counted.next_le (hm.counted h.counted) hm.owners) _)
  mine := by
    intro i hi hlt
    have hx := (hm.claims i k hi).resolve_right fun hne => hne rfl
    exact (h.mine i hx hlt).imp_right (hJ.stays i _ _ hm.state)

theorem Finished.moves (hJ : Job E S units P Done X) (h : Finished n units.length k Done x)
    (hm : Moves n (· ≠ k) E x y) : Finished n units.length k Done y where
  counted := hm.counted h.counted
  culprit := fun hy => (hm.culprit k hy).elim h.culprit fun hne => hne rfl
  drained := h.drained.imp hm.aborted fun hle =>
    Nat.le_trans hle (h.counted.next_le (hm.counted h.counted) hm.owners)
  mine := by
    intro i hi hlt
    have hx := (hm.claims i k hi).resolve_right fun hne => hne rfl
    exact hJ.stays i _ _ hm.state (h.mine i hx hlt)

theorem Held.finished (h : Held n units.length k passes none P Done x)
    (hover : x.1.2.aborted = true ∨ units.length ≤ x.1.2.next) :
    Finished n units.length k Done x :=
  ⟨h.counted, h.culprit, hover, fun i hi hlt => (h.mine i hi hlt).resolve_left fun h => by cases h⟩

/-- A worker that takes a unit is in the middle of it. -/
theorem Held.claim (hk : k < n) (hJ : Job E S units P Done X)
    (h : Held n units.length k (passes + 1) none P Done x) :
    Held n units.length k passes (some x.1.2.next) P Done
      ((x.1.1, x.1.2.claim.2), x.2.claim k) where
  state := h.state
  counted := (moves_claim hk hJ.refl x).counted h.counted
  culprit := h.culprit
  passes := Nat.le_trans h.passes (by
    simp only [Pool.claim]
    omega)
  mine := by
    intro i hi hlt
    rw [Claims.claim, List.getElem?_append] at hi
    split at hi
    · exact (h.mine i hi hlt).imp_left fun h => by cases h
    · rename_i hge
      have hlen := (List.getElem?_eq_some_iff.1 hi).1
      rw [List.length_singleton] at hlen
      left
      rw [h.counted.next]
      exact congrArg some (by omega)

/-- A unit runs beside what the other workers do. -/
theorem wp_during {i : Nat} {u : Coroutine σ ε Unit} (hJ : Job E S units P Done X)
    (hu : units[i]? = some u) (h : Held n units.length k passes (some i) P Done x) :
    wp (Moves n (· ≠ k) E) (Moves n (· = k) S) (lift (lift u))
      (fun r y => ends (fun _ => Done i) X r y.1.1 ∧
        Held n units.length k passes (some i) P Done y) x := by
  have hinner : wp (fun a b : σ × Pool => E a.1 b.1) (fun a b => S a.1 b.1 ∧ b.2 = a.2) (lift u)
      (fun r a => ends (fun _ => Done i) X r a.1 ∧ True) x.1 :=
    wp_lift_frame (fun _ _ h => h) (fun _ _ _ h => ⟨h, rfl⟩) (fun _ _ _ h => h)
      (fun _ _ _ _ h => h) trivial (hJ.unit i u hu x.1.1 h.state)
  refine wp_mono (fun r y hy => ⟨hy.1.1, hy.2⟩)
    (wp_lift_frame (fun _ _ hm => hm.state) ?_ (fun _ _ hm hheld => hheld.moves hJ hm) ?_ h hinner)
  · rintro a b c ⟨hS, hp⟩
    exact moves_same hS hp rfl
  · rintro a b c ⟨hS, hp⟩ hheld
    exact hheld.moves hJ (moves_same (hJ.own _ _ hS) hp rfl)

variable {isCancelled : σ → Bool} {cancelled : ε} {stops : Bool}

theorem wp_worker' (hk : k < n) (hJ : Job E S units P Done X)
    (hcancel : ∀ s, P s → X cancelled s) (h : Held n units.length k passes none P Done x) :
    wp (Moves n (· ≠ k) E) (Moves n (· = k) S)
      (worker' isCancelled cancelled stops units k passes)
      (ends (fun _ => Finished n units.length k Done) (fun e x => X e x.1.1)) x := by
  induction passes generalizing x with
  | zero => exact h.finished (Or.inr (Nat.le_of_succ_le h.passes))
  | succ passes ih =>
      change wp _ _ (if x.1.2.aborted = true then _ else _) _ x
      split
      · rename_i ha
        exact h.finished (Or.inl ha)
      split
      · exact ⟨moves_abort hk hJ.refl stops x, hcancel _ h.state⟩
      refine ⟨moves_claim hk hJ.refl x, ?_⟩
      change wp _ _ (perform' stops k _ units[x.1.2.next]?) _ _
      have hclaim := h.claim hk hJ
      cases hu : units[x.1.2.next]? with
      | none =>
          refine Held.finished ⟨hclaim.state, hclaim.counted, hclaim.culprit, hclaim.passes, ?_⟩
            (Or.inr ?_)
          · intro i hi hlt
            refine Or.inr ((hclaim.mine i hi hlt).resolve_left fun hat => ?_)
            rw [← Option.some.inj hat] at hlt
            exact absurd hlt (Nat.not_lt_of_le (List.getElem?_eq_none_iff.1 hu))
          · exact Nat.le_trans (List.getElem?_eq_none_iff.1 hu) (Nat.le_succ _)
      | some u =>
          refine wp_bind'.2 (wp_tryCatch.2 (wp_mono ?_ (wp_during hJ hu hclaim)))
          rintro (e | r) y ⟨hr, hheld⟩
          · exact ⟨moves_abort hk hJ.refl stops y, hr⟩
          · refine ih ⟨hheld.state, hheld.counted, hheld.culprit, hheld.passes, fun i hi hlt => ?_⟩
            refine Or.inr ((hheld.mine i hi hlt).elim (fun hat => ?_) id)
            exact Option.some.inj hat ▸ hr

/-- When all workers came to their ends, each unit was taken by one of them, and is done. -/
theorem done_of_finished {len : Nat} (hlen : 0 < len → 0 < n)
    (h : ∀ k ∈ List.range n, Finished n len k Done x) (i : Nat) (hi : i < len) :
    Done i x.1.1 := by
  have hfin : ∀ k < n, Finished n len k Done x := fun k hk => h k (List.mem_range.2 hk)
  have hfirst := hfin 0 (hlen (Nat.zero_lt_of_lt hi))
  have hover : len ≤ x.1.2.next := by
    refine hfirst.drained.resolve_left fun ha => ?_
    obtain ⟨k, hk, hculprit⟩ := hfirst.counted.culprit ha
    exact (hfin k hk).culprit hculprit
  rw [hfirst.counted.next] at hover
  have howner := List.getElem?_eq_getElem (Nat.lt_of_lt_of_le hi hover)
  exact (hfin _ (hfirst.counted.owners _ (List.mem_of_getElem? howner))).mine i howner hi

/-- The pool returns when every unit is done, whatever else goes on; or it fails as a unit does. -/
theorem wp_runPool (isCancelled : σ → Bool) (cancelled : ε) (stops : Bool)
    (pick : Nat → σ → Bool) {R : σ → σ → Prop} {concurrency : Nat} {s : σ}
    (hJ : Job E S units P Done X) (hR : ∀ s s', R s s' → E s s')
    (hcancel : ∀ s, P s → X cancelled s) (hpos : 0 < concurrency) (hP : P s) :
    wp R S (runPool isCancelled cancelled stops units pick concurrency)
      (ends (fun _ s => ∀ i < units.length, Done i s) X) s := by
  have hlen : 0 < units.length → 0 < min concurrency units.length := fun h => Nat.lt_min.2 ⟨hpos, h⟩
  generalize hn : min concurrency units.length = n at hlen
  have hstart : ∀ k, Held n units.length k (units.length + 1) none P Done
      ((s, (⟨0, false⟩ : Pool)), (⟨[], none⟩ : Claims)) := fun k =>
    ⟨hP, ⟨rfl, List.forall_mem_nil _, by rintro ⟨⟩⟩, by rintro ⟨⟩, Nat.le_add_left _ _,
      by rintro i ⟨⟩⟩
  have hworkers : wp (Outside (Outside R)) (fun x y => S x.1.1 y.1.1)
      (all (fun m x => pick m x.1.1) ((List.range n).map fun k =>
        worker' isCancelled cancelled stops units k (units.length + 1)))
      (ends (fun _ x => ∀ k ∈ List.range n, Finished n units.length k Done x)
        (fun e x => X e x.1.1)) ((s, ⟨0, false⟩), ⟨[], none⟩) := by
    refine wp_all List.nodup_range (side (fun s => hJ.own s s (hJ.refl s)) hJ.trans hJ.own)
      (fun k _ x y hx => moves_same (hR _ _ hx.1.1) hx.1.2 hx.2) (fun k _ x y hm => hm.state)
      (fun k x y hfin hm => hfin.moves hJ hm) fun k hk x hx => ?_
    exact wp_worker' (List.mem_range.1 hk) hJ hcancel ((hstart k).moves hJ hx)
  have hplain : wp (Outside R) (fun x y => S x.1 y.1)
      (all (fun m x => pick m x.1) ((List.range n).map fun _ =>
        worker isCancelled cancelled stops units (units.length + 1)))
      (ends (fun _ x => ∀ i < units.length, Done i x.1) (fun e x => X e x.1)) (s, ⟨0, false⟩) := by
    refine wp_of_erases (erases_all (fun k => erases_worker' _ _ _ _ k _) _) ?_ hworkers
    rintro (e | r) x hx
    · exact hx
    · exact done_of_finished hlen hx
  rw [runPool, hn]
  refine wp_bind.2 (wp_withLocal ?_ (fun _ _ h => h) hplain)
  exact fun _ _ h => h

end Rule

end OpsBlobs.WorkerPool
