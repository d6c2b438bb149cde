import Mathlib.Algebra.GroupWithZero.Nat
import Mathlib.Logic.Relation
import Mathlib.Data.List.Nodup

namespace OpsBlobs.GraphWalk

open Relation

section Reach

variable {V : Type}

def Edge (next : V → List V) (a b : V) : Prop := b ∈ next a

def Reach (next : V → List V) (starts : List V) (x : V) : Prop :=
  ∃ s ∈ starts, ReflTransGen (Edge next) s x

theorem reach_of_mem {next : V → List V} {starts : List V} {x : V} (h : x ∈ starts) :
    Reach next starts x := ⟨x, h, .refl⟩

theorem reach_tail {next : V → List V} {starts : List V} {x y : V} (h : Reach next starts x)
    (he : y ∈ next x) : Reach next starts y := by
  obtain ⟨s, hs, h⟩ := h
  exact ⟨s, hs, h.tail he⟩

theorem reach_trans {next : V → List V} {starts starts' : List V} {x : V}
    (h : Reach next starts x) (hs : ∀ s ∈ starts, Reach next starts' s) :
    Reach next starts' x := by
  obtain ⟨s, hmem, h⟩ := h
  obtain ⟨t, ht, hts⟩ := hs s hmem
  exact ⟨t, ht, hts.trans h⟩

/-- A set that holds the starting points and is closed holds all that they reach. -/
theorem mem_of_reach {next : V → List V} {starts closed : List V}
    (hstarts : ∀ s ∈ starts, s ∈ closed) (hclosed : ∀ v ∈ closed, ∀ w ∈ next v, w ∈ closed)
    {x : V} (h : Reach next starts x) : x ∈ closed := by
  obtain ⟨s, hs, h⟩ := h
  induction h with
  | refl => exact hstarts s hs
  | tail _ he ih => exact hclosed _ ih _ he

theorem invariant_of_reach {next : V → List V} {I : V → Prop} {s x : V} (hs : I s)
    (hstep : ∀ v, I v → ∀ w, Edge next v w → I w) (h : ReflTransGen (Edge next) s x) :
    I x := by
  induction h with
  | refl => exact hs
  | tail _ he ih => exact hstep _ ih _ he

end Reach

variable {V : Type} [DecidableEq V]

section Walk

variable (next : V → List V)

/-- Depth first with a stack; a node is marked when it is popped. -/
def walk : Nat → List V → List V → List V
  | 0, _, seen => seen
  | _, [], seen => seen
  | fuel + 1, cur :: stack, seen =>
      if cur ∈ seen then walk fuel stack seen
      else walk fuel ((next cur).reverse ++ stack) (seen ++ [cur])

/-- The same walk, stopping at the first popped node that has an edge to the target. -/
def search (target : V) : Nat → List V → List V → Bool
  | 0, _, _ => false
  | _, [], _ => false
  | fuel + 1, cur :: stack, seen =>
      if cur ∈ seen then search target fuel stack seen
      else if target ∈ next cur then true
      else search target fuel ((next cur).reverse ++ stack) (seen ++ [cur])

/-- The edges that leave the nodes not seen yet. -/
def pending (nodes seen : List V) : Nat :=
  ((nodes.filter (· ∉ seen)).map (fun v => (next v).length)).sum

variable {next} {fuel : Nat} {stack seen : List V}

theorem walk_mono {v : V} (h : v ∈ seen) : v ∈ walk next fuel stack seen := by
  induction fuel generalizing stack seen with
  | zero => exact h
  | succ fuel ih =>
      cases stack with
      | nil => exact h
      | cons cur stack =>
          rw [walk]
          split
          · exact ih h
          · exact ih (List.mem_append_left _ h)

theorem nodup_walk (h : seen.Nodup) : (walk next fuel stack seen).Nodup := by
  induction fuel generalizing stack seen with
  | zero => exact h
  | succ fuel ih =>
      cases stack with
      | nil => exact h
      | cons cur stack =>
          rw [walk]
          split
          · exact ih h
          · rename_i hcur
            exact ih (h.concat hcur |> (List.concat_eq_append ▸ ·))

theorem walk_sound {x : V} (h : x ∈ walk next fuel stack seen) :
    x ∈ seen ∨ Reach next stack x := by
  induction fuel generalizing stack seen with
  | zero => exact Or.inl h
  | succ fuel ih =>
      cases stack with
      | nil => exact Or.inl h
      | cons cur stack =>
          rw [walk] at h
          split at h
          · refine (ih h).imp_right (fun hr => reach_trans hr fun s hs => ?_)
            exact reach_of_mem (List.mem_cons_of_mem cur hs)
          · have hcur : Reach next (cur :: stack) cur := reach_of_mem List.mem_cons_self
            rcases ih h with hx | hx
            · rcases List.mem_append.1 hx with hx | hx
              · exact Or.inl hx
              · exact Or.inr (List.mem_singleton.1 hx ▸ hcur)
            · refine Or.inr (reach_trans hx fun s hs => ?_)
              rcases List.mem_append.1 hs with hs | hs
              · exact reach_tail hcur (List.mem_reverse.1 hs)
              · exact reach_of_mem (List.mem_cons_of_mem cur hs)

theorem pending_cons (v : V) (nodes : List V) :
    pending next (v :: nodes) seen =
      (if v ∈ seen then 0 else (next v).length) + pending next nodes seen := by
  by_cases hv : v ∈ seen <;> simp [pending, hv]

theorem pending_mono (next : V → List V) (seen nodes : List V) (cur : V) :
    pending next nodes (seen ++ [cur]) ≤ pending next nodes seen := by
  induction nodes with
  | nil => exact Nat.le_refl _
  | cons v rest ih =>
      rw [pending_cons, pending_cons]
      by_cases hv : v ∈ seen
      · simpa [hv] using ih
      · rw [if_neg hv]
        split <;> omega

theorem pending_append {nodes : List V} {cur : V} (hcur : cur ∉ seen)
    (hn : cur ∈ nodes ∨ next cur = []) :
    pending next nodes (seen ++ [cur]) + (next cur).length ≤ pending next nodes seen := by
  rcases hn with hn | hn
  · induction nodes with
    | nil => exact absurd hn List.not_mem_nil
    | cons v rest ih =>
        rw [pending_cons, pending_cons]
        rcases List.mem_cons.1 hn with rfl | hn
        · have := pending_mono next seen rest cur
          rw [if_pos (List.mem_append_right _ List.mem_cons_self), if_neg hcur]
          omega
        · have := ih hn
          by_cases hv : v ∈ seen
          · rw [if_pos (List.mem_append_left _ hv), if_pos hv]
            omega
          · rw [if_neg hv]
            split <;> omega
  · rw [hn]
    exact pending_mono next seen nodes cur

/-- With fuel for every pop the walk ends in a closed set. -/
theorem walk_closed {nodes : List V} (hnodes : ∀ v, v ∈ nodes ∨ next v = [])
    (hseen : ∀ v ∈ seen, ∀ w ∈ next v, w ∈ seen ∨ w ∈ stack)
    (hfuel : stack.length + pending next nodes seen ≤ fuel) :
    (∀ v ∈ stack, v ∈ walk next fuel stack seen) ∧
      ∀ v ∈ walk next fuel stack seen, ∀ w ∈ next v, w ∈ walk next fuel stack seen := by
  induction fuel generalizing stack seen with
  | zero =>
      obtain rfl : stack = [] := List.eq_nil_of_length_eq_zero (by omega)
      exact ⟨fun v hv => absurd hv List.not_mem_nil,
        fun v hv w hw => (hseen v hv w hw).resolve_right List.not_mem_nil⟩
  | succ fuel ih =>
      cases stack with
      | nil =>
          exact ⟨fun v hv => absurd hv List.not_mem_nil,
            fun v hv w hw => (hseen v hv w hw).resolve_right List.not_mem_nil⟩
      | cons cur stack =>
          rw [List.length_cons] at hfuel
          rw [walk]
          split
          · rename_i hcur
            have hrest : ∀ v ∈ seen, ∀ w ∈ next v, w ∈ seen ∨ w ∈ stack := by
              intro v hv w hw
              rcases hseen v hv w hw with h | h
              · exact Or.inl h
              · rcases List.mem_cons.1 h with rfl | h
                · exact Or.inl hcur
                · exact Or.inr h
            have h := ih hrest (by omega)
            refine ⟨fun v hv => ?_, h.2⟩
            rcases List.mem_cons.1 hv with rfl | hv
            · exact walk_mono hcur
            · exact h.1 v hv
          · rename_i hcur
            have hp := pending_append hcur (hnodes cur)
            have hrest : ∀ v ∈ seen ++ [cur], ∀ w ∈ next v,
                w ∈ seen ++ [cur] ∨ w ∈ (next cur).reverse ++ stack := by
              intro v hv w hw
              rcases List.mem_append.1 hv with hv | hv
              · rcases hseen v hv w hw with h | h
                · exact Or.inl (List.mem_append_left _ h)
                · rcases List.mem_cons.1 h with rfl | h
                  · exact Or.inl (List.mem_append_right _ List.mem_cons_self)
                  · exact Or.inr (List.mem_append_right _ h)
              · obtain rfl := List.mem_singleton.1 hv
                exact Or.inr (List.mem_append_left _ (List.mem_reverse.2 hw))
            have h := ih hrest (by rw [List.length_append, List.length_reverse]; omega)
            refine ⟨fun v hv => ?_, h.2⟩
            rcases List.mem_cons.1 hv with rfl | hv
            · exact walk_mono (List.mem_append_right _ List.mem_cons_self)
            · exact h.1 v (List.mem_append_right _ hv)

theorem mem_walk_iff {nodes : List V} (hnodes : ∀ v, v ∈ nodes ∨ next v = [])
    (hfuel : stack.length + pending next nodes [] ≤ fuel) {x : V} :
    x ∈ walk next fuel stack [] ↔ Reach next stack x := by
  have hnone : ∀ v ∈ ([] : List V), ∀ w ∈ next v, w ∈ ([] : List V) ∨ w ∈ stack :=
    fun v hv => absurd hv List.not_mem_nil
  have h := walk_closed hnodes hnone hfuel
  refine ⟨fun hx => (walk_sound hx).resolve_left List.not_mem_nil, fun hx => ?_⟩
  exact mem_of_reach h.1 h.2 hx

/-- A round of the loop; none once the stack is empty. -/
def pop (next : V → List V) : List V × List V → Option (List V × List V)
  | ([], _) => none
  | (cur :: stack, seen) =>
      some (if cur ∈ seen then (stack, seen) else ((next cur).reverse ++ stack, seen ++ [cur]))

def Pops (next : V → List V) (s t : List V × List V) : Prop := pop next s = some t

theorem pops_cons (cur : V) : Pops next (cur :: stack, seen)
    (if cur ∈ seen then (stack, seen) else ((next cur).reverse ++ stack, seen ++ [cur])) := rfl

theorem pops_lt {nodes : List V} (hnodes : ∀ v, v ∈ nodes ∨ next v = []) {s t : List V × List V}
    (h : Pops next s t) :
    t.1.length + pending next nodes t.2 < s.1.length + pending next nodes s.2 := by
  obtain ⟨stack, seen⟩ := s
  cases stack with
  | nil => cases h
  | cons cur stack =>
      obtain rfl := Option.some.inj h
      split
      · exact Nat.add_lt_add_right (Nat.lt_succ_self _) _
      · rename_i hcur
        have := pending_append hcur (hnodes cur)
        simp only [List.length_append, List.length_reverse, List.length_cons]
        omega

/-- The loop cannot go on forever, whether or not the edges form cycles. -/
theorem wellFounded_pops {nodes : List V} (hnodes : ∀ v, v ∈ nodes ∨ next v = []) :
    WellFounded (fun t s => Pops next s t) :=
  Subrelation.wf (fun h => pops_lt hnodes h)
    (measure fun s : List V × List V => s.1.length + pending next nodes s.2).wf

/-- With fuel for every pop the walk is the loop run until its stack is empty. -/
theorem walk_ends {nodes : List V} (hnodes : ∀ v, v ∈ nodes ∨ next v = [])
    (hfuel : stack.length + pending next nodes seen ≤ fuel) :
    ReflTransGen (Pops next) (stack, seen) ([], walk next fuel stack seen) := by
  induction fuel generalizing stack seen with
  | zero =>
      obtain rfl : stack = [] := List.eq_nil_of_length_eq_zero (by omega)
      exact .refl
  | succ fuel ih =>
      cases stack with
      | nil => exact .refl
      | cons cur stack =>
          have hpop : Pops next (cur :: stack, seen) _ := pops_cons cur
          rw [List.length_cons] at hfuel
          rw [walk]
          by_cases hcur : cur ∈ seen
          · rw [if_pos hcur] at hpop ⊢
            exact .head hpop (ih (by omega))
          · rw [if_neg hcur] at hpop ⊢
            have hlt := pops_lt hnodes hpop
            simp only [List.length_cons] at hlt
            exact .head hpop (ih (by omega))

theorem search_iff_walk {target : V} (hseen : ∀ v ∈ seen, target ∉ next v) :
    search next target fuel stack seen = true ↔
      ∃ v ∈ walk next fuel stack seen, target ∈ next v := by
  induction fuel generalizing stack seen with
  | zero => simpa [search, walk] using hseen
  | succ fuel ih =>
      cases stack with
      | nil => simpa [search, walk] using hseen
      | cons cur stack =>
          rw [search, walk]
          split
          · exact ih hseen
          · split
            · rename_i ht
              refine iff_of_true rfl ⟨cur, walk_mono ?_, ht⟩
              exact List.mem_append_right _ List.mem_cons_self
            · rename_i ht
              refine ih (fun v hv => ?_)
              rcases List.mem_append.1 hv with hv | hv
              · exact hseen v hv
              · exact List.mem_singleton.1 hv ▸ ht

theorem search_iff {nodes : List V} (hnodes : ∀ v, v ∈ nodes ∨ next v = [])
    (hfuel : stack.length + pending next nodes [] ≤ fuel) {target : V} :
    search next target fuel stack [] = true ↔
      ∃ v, Reach next stack v ∧ target ∈ next v := by
  rw [search_iff_walk (fun v hv => absurd hv List.not_mem_nil)]
  simp only [mem_walk_iff hnodes hfuel]

end Walk

section Mark

variable (next : V → List V)

/-- The first occurrences of what is not seen yet. -/
def fresh : List V → List V → List V
  | _, [] => []
  | seen, v :: rest => if v ∈ seen then fresh seen rest else v :: fresh (seen ++ [v]) rest

/-- Depth first with a stack; a node is marked when it is pushed. -/
def mark : Nat → List V → List V → List V
  | 0, _, seen => seen
  | _, [], seen => seen
  | fuel + 1, cur :: stack, seen =>
      mark fuel ((fresh seen (next cur)).reverse ++ stack) (seen ++ fresh seen (next cur))

/-- The next generation: what a frontier leads to for the first time. -/
def generation : List V → List V → List V
  | _, [] => []
  | seen, cur :: rest =>
      fresh seen (next cur) ++ generation (seen ++ fresh seen (next cur)) rest

/-- Breadth first, a generation at a time. -/
def generations : Nat → List V → List V → List V
  | 0, _, seen => seen
  | _, [], seen => seen
  | fuel + 1, frontier, seen =>
      generations fuel (generation next seen frontier) (seen ++ generation next seen frontier)

def room (targets seen : List V) : Nat := (targets.filter (· ∉ seen)).length

variable {next} {fuel : Nat} {stack seen frontier : List V}

theorem mem_fresh_iff {l : List V} {x : V} : x ∈ fresh seen l ↔ x ∈ l ∧ x ∉ seen := by
  induction l generalizing seen with
  | nil => simp [fresh]
  | cons v rest ih =>
      rw [fresh]
      split
      · rename_i hv
        rw [ih, List.mem_cons]
        refine and_congr_left (fun hx => (or_iff_right ?_).symm)
        rintro rfl
        exact hx hv
      · rename_i hv
        rw [List.mem_cons, List.mem_cons, ih, List.mem_append, List.mem_singleton, not_or]
        by_cases hx : x = v
        · simp [hx, hv]
        · simp [hx]

theorem nodup_fresh (l : List V) : (fresh seen l).Nodup := by
  induction l generalizing seen with
  | nil => exact List.nodup_nil
  | cons v rest ih =>
      rw [fresh]
      split
      · exact ih
      · refine List.nodup_cons.2 ⟨fun h => ?_, ih⟩
        exact (mem_fresh_iff.1 h).2 (List.mem_append_right _ List.mem_cons_self)

theorem mem_generation_iff {x : V} :
    x ∈ generation next seen frontier ↔ (∃ v ∈ frontier, x ∈ next v) ∧ x ∉ seen := by
  induction frontier generalizing seen with
  | nil => simp [generation]
  | cons cur rest ih =>
      rw [generation, List.mem_append, mem_fresh_iff, ih, List.mem_append, mem_fresh_iff]
      simp only [List.mem_cons, exists_eq_or_imp]
      tauto

theorem nodup_generation : (generation next seen frontier).Nodup := by
  induction frontier generalizing seen with
  | nil => exact List.nodup_nil
  | cons cur rest ih =>
      refine List.nodup_append.2 ⟨nodup_fresh _, ih, ?_⟩
      rintro x hx _ hy rfl
      exact (mem_generation_iff.1 hy).2 (List.mem_append_right _ hx)

theorem room_append {targets added : List V} (hnodup : added.Nodup)
    (hadded : ∀ v ∈ added, v ∈ targets ∧ v ∉ seen) :
    room targets (seen ++ added) + added.length ≤ room targets seen := by
  induction added generalizing seen with
  | nil => simp
  | cons v rest ih =>
      obtain ⟨hv, hnodup⟩ := List.nodup_cons.1 hnodup
      have hafter : ∀ w ∈ rest, w ∈ targets ∧ w ∉ seen ++ [v] := by
        intro w hw
        obtain ⟨hmem, hseen⟩ := hadded w (List.mem_cons_of_mem v hw)
        refine ⟨hmem, fun h => ?_⟩
        rcases List.mem_append.1 h with h | h
        · exact hseen h
        · exact hv (List.mem_singleton.1 h ▸ hw)
      have hrest := ih hnodup hafter
      have hone : room targets (seen ++ [v]) + 1 ≤ room targets seen := by
        obtain ⟨hmem, hseen⟩ := hadded v List.mem_cons_self
        have hfilter : targets.filter (· ∉ seen ++ [v]) =
            (targets.filter (· ∉ seen)).filter (· ≠ v) := by
          rw [List.filter_filter]
          refine List.filter_congr (fun w _ => ?_)
          simp [and_comm]
        rw [room, hfilter, room]
        refine List.length_filter_lt_length_iff_exists.2 ⟨v, ?_, by simp⟩
        exact List.mem_filter.2 ⟨hmem, by simpa using hseen⟩
      rw [List.append_assoc, List.singleton_append] at hrest
      rw [List.length_cons]
      omega

theorem mark_mono {v : V} (h : v ∈ seen) : v ∈ mark next fuel stack seen := by
  induction fuel generalizing stack seen with
  | zero => exact h
  | succ fuel ih =>
      cases stack with
      | nil => exact h
      | cons cur stack => exact ih (List.mem_append_left _ h)

theorem mark_sound {x : V} (hstack : ∀ s ∈ stack, s ∈ seen)
    (h : x ∈ mark next fuel stack seen) : Reach next seen x := by
  induction fuel generalizing stack seen with
  | zero => exact reach_of_mem h
  | succ fuel ih =>
      cases stack with
      | nil => exact reach_of_mem h
      | cons cur stack =>
          have hcur : Reach next seen cur := reach_of_mem (hstack cur List.mem_cons_self)
          refine reach_trans (ih (fun s hs => ?_) h) (fun s hs => ?_)
          · rcases List.mem_append.1 hs with hs | hs
            · exact List.mem_append_right _ (List.mem_reverse.1 hs)
            · exact List.mem_append_left _ (hstack s (List.mem_cons_of_mem cur hs))
          · rcases List.mem_append.1 hs with hs | hs
            · exact reach_of_mem hs
            · exact reach_tail hcur (mem_fresh_iff.1 hs).1

/-- With fuel for every push the marked set is closed. -/
theorem mark_closed {targets : List V} (htargets : ∀ v, ∀ w ∈ next v, w ∈ targets)
    (hseen : ∀ v ∈ seen, v ∈ stack ∨ ∀ w ∈ next v, w ∈ seen)
    (hfuel : stack.length + room targets seen ≤ fuel) {v : V}
    (hv : v ∈ mark next fuel stack seen) : ∀ w ∈ next v, w ∈ mark next fuel stack seen := by
  induction fuel generalizing stack seen with
  | zero =>
      obtain rfl : stack = [] := List.eq_nil_of_length_eq_zero (by omega)
      exact (hseen v hv).resolve_left List.not_mem_nil
  | succ fuel ih =>
      cases stack with
      | nil => exact (hseen v hv).resolve_left List.not_mem_nil
      | cons cur stack =>
          have hfresh : ∀ w ∈ fresh seen (next cur), w ∈ targets ∧ w ∉ seen := fun w hw =>
            ⟨htargets cur w (mem_fresh_iff.1 hw).1, (mem_fresh_iff.1 hw).2⟩
          have hroom := room_append (nodup_fresh (next cur)) hfresh
          rw [List.length_cons] at hfuel
          refine ih (fun u hu => ?_)
            (by rw [List.length_append, List.length_reverse]; omega) hv
          rcases List.mem_append.1 hu with hu | hu
          · rcases hseen u hu with h | h
            · rcases List.mem_cons.1 h with rfl | h
              · refine Or.inr (fun w hw => ?_)
                by_cases hws : w ∈ seen
                · exact List.mem_append_left _ hws
                · exact List.mem_append_right _ (mem_fresh_iff.2 ⟨hw, hws⟩)
              · exact Or.inl (List.mem_append_right _ h)
            · exact Or.inr (fun w hw => List.mem_append_left _ (h w hw))
          · exact Or.inl (List.mem_append_left _ (List.mem_reverse.2 hu))

theorem mem_mark_iff {targets : List V} (htargets : ∀ v, ∀ w ∈ next v, w ∈ targets)
    (hstack : ∀ v, v ∈ stack ↔ v ∈ seen)
    (hfuel : stack.length + room targets seen ≤ fuel) {x : V} :
    x ∈ mark next fuel stack seen ↔ Reach next seen x := by
  refine ⟨mark_sound fun s hs => (hstack s).1 hs, fun hx => ?_⟩
  refine mem_of_reach (fun s hs => mark_mono hs) (fun v hv => ?_) hx
  exact mark_closed htargets (fun v hv => Or.inl ((hstack v).2 hv)) hfuel hv

theorem generations_nil : generations next fuel [] seen = seen := by
  cases fuel <;> rfl

theorem generations_mono {v : V} (h : v ∈ seen) : v ∈ generations next fuel frontier seen := by
  induction fuel generalizing frontier seen with
  | zero => exact h
  | succ fuel ih =>
      cases frontier with
      | nil => exact h
      | cons cur frontier => exact ih (List.mem_append_left _ h)

theorem generations_sound {x : V} (hfrontier : ∀ s ∈ frontier, s ∈ seen)
    (h : x ∈ generations next fuel frontier seen) : Reach next seen x := by
  induction fuel generalizing frontier seen with
  | zero => exact reach_of_mem h
  | succ fuel ih =>
      cases frontier with
      | nil => exact reach_of_mem h
      | cons cur frontier =>
          refine reach_trans (ih (fun s hs => List.mem_append_right _ hs) h) (fun s hs => ?_)
          rcases List.mem_append.1 hs with hs | hs
          · exact reach_of_mem hs
          · obtain ⟨⟨v, hv, hs⟩, -⟩ := mem_generation_iff.1 hs
            exact reach_tail (reach_of_mem (hfrontier v hv)) hs

/-- With fuel for every new node the generations end in a closed set. -/
theorem generations_closed {targets : List V} (htargets : ∀ v, ∀ w ∈ next v, w ∈ targets)
    (hseen : ∀ v ∈ seen, v ∈ frontier ∨ ∀ w ∈ next v, w ∈ seen)
    (hfuel : room targets seen < fuel) {v : V}
    (hv : v ∈ generations next fuel frontier seen) :
    ∀ w ∈ next v, w ∈ generations next fuel frontier seen := by
  induction fuel generalizing frontier seen with
  | zero => omega
  | succ fuel ih =>
      cases frontier with
      | nil => exact (hseen v hv).resolve_left List.not_mem_nil
      | cons cur frontier =>
          have hnext : ∀ u ∈ seen, ∀ w ∈ next u,
              w ∈ seen ++ generation next seen (cur :: frontier) := by
            intro u hu w hw
            by_cases hws : w ∈ seen
            · exact List.mem_append_left _ hws
            · rcases hseen u hu with h | h
              · exact List.mem_append_right _ (mem_generation_iff.2 ⟨⟨u, h, hw⟩, hws⟩)
              · exact absurd (h w hw) hws
          have hadded : ∀ w ∈ generation next seen (cur :: frontier),
              w ∈ targets ∧ w ∉ seen := by
            intro w hw
            obtain ⟨⟨u, -, hw⟩, hws⟩ := mem_generation_iff.1 hw
            exact ⟨htargets u w hw, hws⟩
          have hroom := room_append nodup_generation hadded
          simp only [generations] at hv ⊢
          by_cases hg : generation next seen (cur :: frontier) = []
          · simp only [hg, generations_nil, List.append_nil] at hv hnext ⊢
            exact hnext v hv
          · have hpos := List.length_pos_iff.2 hg
            refine ih (fun u hu => ?_) (by omega) hv
            rcases List.mem_append.1 hu with hu | hu
            · exact Or.inr (hnext u hu)
            · exact Or.inl hu

theorem mem_generations_iff {targets : List V} (htargets : ∀ v, ∀ w ∈ next v, w ∈ targets)
    (hfuel : room targets frontier < fuel) {x : V} :
    x ∈ generations next fuel frontier frontier ↔ Reach next frontier x := by
  refine ⟨generations_sound fun s hs => hs, fun hx => ?_⟩
  refine mem_of_reach (fun s hs => generations_mono hs) (fun v hv => ?_) hx
  exact generations_closed htargets (fun v hv => Or.inl hv) hfuel hv

end Mark

end OpsBlobs.GraphWalk
