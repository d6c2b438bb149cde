import OpsBlobs.GraphWalk
import OpsBlobs.VersionDag

namespace OpsBlobs.VersionGraph

open Relation GraphWalk VersionDag

/-- `a` is `d` or one of the versions that `d` was made from. -/
def IsAncestor (dag : VersionDag) (a d : String) : Prop :=
  ReflTransGen (Edge (parentsOf dag)) d a

def IsProperAncestor (dag : VersionDag) (a d : String) : Prop :=
  TransGen (Edge (parentsOf dag)) d a

/-- No version is made from itself: what makes the graph a DAG. -/
def Acyclic (dag : VersionDag) : Prop := ∀ v, ¬ IsProperAncestor dag v v

section Walks

variable {dag : VersionDag} {fuel : Nat} {stack seen : List String}

theorem walkUp_eq_walk : walkUp dag fuel stack seen = walk (parentsOf dag) fuel stack seen := by
  induction fuel generalizing stack seen with
  | zero => rfl
  | succ fuel ih =>
      cases stack with
      | nil => rfl
      | cons cur stack =>
          rw [walkUp, walk]
          split
          · exact ih
          · exact ih

theorem reaches_eq_search {target : String} :
    reaches dag target fuel stack seen = search (parentsOf dag) target fuel stack seen := by
  induction fuel generalizing stack seen with
  | zero => rfl
  | succ fuel ih =>
      cases stack with
      | nil => rfl
      | cons cur stack =>
          rw [reaches, search]
          split
          · exact ih
          · split
            · rfl
            · exact ih

theorem parentsOf_of_get {v : String} {node : VersionNode} (h : dag.get v = some node) :
    parentsOf dag v = node.parents := by
  rw [parentsOf, h]

theorem mem_keys_or_parentsOf (dag : VersionDag) (v : String) :
    v ∈ dag.keys ∨ parentsOf dag v = [] := by
  cases h : dag.get v with
  | none => exact Or.inr (by rw [parentsOf, h])
  | some node => exact Or.inl ((JsMap.mem_keys_iff dag).2 ⟨node, h⟩)

theorem pending_keys (dag : VersionDag) : pending (parentsOf dag) dag.keys [] = edgeCount dag := by
  have hparents : ∀ e ∈ dag.entries, (parentsOf dag e.1).length = e.2.parents.length :=
    fun e he => by rw [parentsOf_of_get ((JsMap.mem_entries_iff dag).1 he)]
  have hmap := List.map_congr_left hparents
  simpa [pending, edgeCount, JsMap.keys, JsMap.values, Function.comp_def] using
    congrArg List.sum hmap

theorem mem_ancestors_iff {a d : String} : a ∈ ancestors dag d ↔ IsAncestor dag a d := by
  rw [ancestors, walkUp_eq_walk, mem_walk_iff (mem_keys_or_parentsOf dag)]
  · simp [Reach, IsAncestor]
  · rw [pending_keys, List.length_singleton]
    omega

theorem isAncestor_iff {a d : String} : isAncestor dag a d = true ↔ IsAncestor dag a d := by
  rw [isAncestor]
  split
  · rename_i h
    exact iff_of_true rfl (h ▸ .refl)
  · rename_i h
    rw [reaches_eq_search, search_iff (mem_keys_or_parentsOf dag)]
    · constructor
      · rintro ⟨v, ⟨s, hs, hv⟩, he⟩
        exact List.mem_singleton.1 hs ▸ hv.tail he
      · intro ha
        rcases ha.cases_tail with rfl | ⟨v, hv, he⟩
        · exact absurd rfl h
        · exact ⟨v, ⟨d, List.mem_singleton_self d, hv⟩, he⟩
    · rw [pending_keys, List.length_singleton]
      omega

theorem isAncestor_self (v : String) : isAncestor dag v v = true := isAncestor_iff.2 .refl

end Walks

section MergeBase

variable (dag : VersionDag) (a b : String)

def Common (x : String) : Prop := IsAncestor dag x a ∧ IsAncestor dag x b

/-- A common ancestor that no other common ancestor descends from. -/
def Lowest (x : String) : Prop :=
  Common dag a b x ∧ ¬ ∃ c, Common dag a b c ∧ IsProperAncestor dag x c

variable {dag a b} {x : String}

theorem common_comm : Common dag a b x ↔ Common dag b a x := and_comm

theorem lowest_comm : Lowest dag a b x ↔ Lowest dag b a x := by
  simp only [Lowest, common_comm (a := a)]

def commonAncestors (dag : VersionDag) (a b : String) : List String :=
  (ancestors dag a).filter (· ∈ ancestors dag b)

def lowestAncestors (dag : VersionDag) (a b : String) : List String :=
  let stack := (commonAncestors dag a b).flatMap (parentsOf dag)
  let dominated := walkUp dag (edgeCount dag + stack.length) stack.reverse []
  (commonAncestors dag a b).filter (· ∉ dominated)

theorem mem_commonAncestors_iff : x ∈ commonAncestors dag a b ↔ Common dag a b x := by
  rw [commonAncestors, List.mem_filter, decide_eq_true_eq, mem_ancestors_iff, mem_ancestors_iff]
  rfl

theorem nodup_commonAncestors : (commonAncestors dag a b).Nodup := by
  have hnodup : (ancestors dag a).Nodup := by
    rw [ancestors, walkUp_eq_walk]
    exact nodup_walk List.nodup_nil
  exact hnodup.filter _

theorem mem_lowestAncestors_iff : x ∈ lowestAncestors dag a b ↔ Lowest dag a b x := by
  simp only [lowestAncestors]
  rw [List.mem_filter, decide_eq_true_eq, mem_commonAncestors_iff, walkUp_eq_walk,
    mem_walk_iff (mem_keys_or_parentsOf dag)]
  · refine and_congr_right (fun _ => not_congr ?_)
    constructor
    · rintro ⟨s, hs, hx⟩
      obtain ⟨c, hc, hs⟩ := List.mem_flatMap.1 (List.mem_reverse.1 hs)
      exact ⟨c, mem_commonAncestors_iff.1 hc, TransGen.head' hs hx⟩
    · rintro ⟨c, hc, hx⟩
      obtain ⟨s, hs, hx⟩ := TransGen.head'_iff.1 hx
      refine ⟨s, List.mem_reverse.2 (List.mem_flatMap.2 ⟨c, ?_, hs⟩), hx⟩
      exact mem_commonAncestors_iff.2 hc
  · rw [pending_keys, List.length_reverse]
    omega

theorem mergeBase_eq : mergeBase dag a b =
    if commonAncestors dag a b = [] then .none
    else match lowestAncestors dag a b with
      | [base] => .base base
      | _ => .multipleBases := rfl

theorem mergeBase_eq_none_iff : mergeBase dag a b = .none ↔ ∀ x, ¬ Common dag a b x := by
  simp only [← mem_commonAncestors_iff, ← List.eq_nil_iff_forall_not_mem]
  rw [mergeBase_eq]
  split
  · rename_i h
    exact iff_of_true rfl h
  · rename_i h
    refine iff_of_false (fun hm => ?_) h
    split at hm <;> cases hm

theorem eq_singleton_iff {l : List String} (h : l.Nodup) :
    l = [x] ↔ ∀ y, y ∈ l ↔ y = x := by
  refine ⟨fun he y => by rw [he, List.mem_singleton], fun hmem => ?_⟩
  refine List.perm_singleton.1 ((List.perm_ext_iff_of_nodup h (List.nodup_singleton x)).2 ?_)
  exact fun y => (hmem y).trans List.mem_singleton.symm

theorem mergeBase_eq_base_iff :
    mergeBase dag a b = .base x ↔ ∀ y, Lowest dag a b y ↔ y = x := by
  have hnodup : (lowestAncestors dag a b).Nodup := nodup_commonAncestors.filter _
  simp only [← mem_lowestAncestors_iff, ← eq_singleton_iff hnodup]
  rw [mergeBase_eq]
  split
  · rename_i h
    refine iff_of_false (fun hm => by cases hm) (fun hl => ?_)
    have hx : x ∈ lowestAncestors dag a b := hl ▸ List.mem_singleton_self x
    rw [mem_lowestAncestors_iff] at hx
    exact absurd (mem_commonAncestors_iff.2 hx.1) (h ▸ List.not_mem_nil)
  · split
    · rename_i base hl
      rw [hl]
      simp
    · rename_i hl
      exact iff_of_false (fun hm => by cases hm) (fun h => hl x h)

/-- The answer is a matter of what the common ancestors are and which of them are lowest. -/
theorem mergeBase_ext {dag' : VersionDag} {a' b' : String}
    (hc : ∀ x, Common dag a b x ↔ Common dag' a' b' x)
    (hl : ∀ x, Lowest dag a b x ↔ Lowest dag' a' b' x) :
    mergeBase dag a b = mergeBase dag' a' b' := by
  cases h : mergeBase dag' a' b' with
  | none =>
      rw [mergeBase_eq_none_iff] at h ⊢
      exact fun x => (hc x).not.2 (h x)
  | base x =>
      rw [mergeBase_eq_base_iff] at h ⊢
      exact fun y => (hl y).trans (h y)
  | multipleBases =>
      cases h' : mergeBase dag a b with
      | none =>
          rw [mergeBase_eq_none_iff] at h'
          have := mergeBase_eq_none_iff.2 (fun x => (hc x).not.1 (h' x))
          cases h.symm.trans this
      | base x =>
          rw [mergeBase_eq_base_iff] at h'
          have := mergeBase_eq_base_iff.2 (fun y => (hl y).symm.trans (h' y))
          cases h.symm.trans this
      | multipleBases => rfl

/-- The answer does not depend on which head is asked about first. -/
theorem mergeBase_comm : mergeBase dag a b = mergeBase dag b a :=
  mergeBase_ext (fun _ => common_comm) (fun _ => lowest_comm)

/-- Two graphs that agree on what descends from the ancestors of a head give it the same
bases. -/
theorem mergeBase_congr {dag' : VersionDag} {T : String → Prop}
    (hT : ∀ x, IsAncestor dag x a → T x) (hT' : ∀ x, IsAncestor dag' x a → T x)
    (h : ∀ x d, T x → (IsAncestor dag x d ↔ IsAncestor dag' x d))
    (hproper : ∀ x d, T x → (IsProperAncestor dag x d ↔ IsProperAncestor dag' x d)) :
    mergeBase dag a b = mergeBase dag' a b := by
  have hc : ∀ x, Common dag a b x ↔ Common dag' a b x := by
    intro x
    constructor
    · exact fun hx => ⟨(h x a (hT x hx.1)).1 hx.1, (h x b (hT x hx.1)).1 hx.2⟩
    · exact fun hx => ⟨(h x a (hT' x hx.1)).2 hx.1, (h x b (hT' x hx.1)).2 hx.2⟩
  apply mergeBase_ext hc
  intro x
  rw [Lowest, Lowest, ← hc x]
  apply and_congr_right
  intro hx
  apply not_congr
  apply exists_congr
  intro c
  rw [hc c, hproper x c (hT x hx.1)]

/-- An ancestor is the base itself. -/
theorem mergeBase_of_isAncestor (hacyclic : Acyclic dag) (h : IsAncestor dag b a) :
    mergeBase dag a b = .base b := by
  rw [mergeBase_eq_base_iff]
  intro y
  constructor
  · rintro ⟨hy, hlow⟩
    rcases ReflTransGen.cases_head hy.2 with rfl | ⟨p, hp, hy'⟩
    · rfl
    · exact absurd ⟨b, ⟨h, .refl⟩, TransGen.head' hp hy'⟩ hlow
  · rintro rfl
    refine ⟨⟨h, .refl⟩, ?_⟩
    rintro ⟨c, hc, hy⟩
    exact hacyclic y (TransGen.trans_right hc.2 hy)

end MergeBase

/-- Versions that carry a growing stamp, as op ids do, form no cycle. -/
theorem acyclic_of_rank {dag : VersionDag} (rank : String → Nat)
    (h : ∀ e ∈ dag.entries, ∀ p ∈ e.2.parents, rank p < rank e.1) : Acyclic dag := by
  have hedge : ∀ v p, Edge (parentsOf dag) v p → rank p < rank v := by
    intro v p hp
    cases hv : dag.get v with
    | none =>
        rw [Edge, parentsOf, hv] at hp
        exact absurd hp List.not_mem_nil
    | some node =>
        rw [Edge, parentsOf_of_get hv] at hp
        exact h (v, node) ((JsMap.mem_entries_iff dag).2 hv) p hp
  have hlt : ∀ v p, IsProperAncestor dag p v → rank p < rank v := by
    intro v p hp
    induction hp with
    | single he => exact hedge _ _ he
    | tail _ he ih => exact Nat.lt_trans (hedge _ _ he) ih
  exact fun v hv => Nat.lt_irrefl _ (hlt v v hv)

theorem isAncestor_antisymm {dag : VersionDag} (hacyclic : Acyclic dag) {a b : String}
    (h : IsAncestor dag a b) (h' : IsAncestor dag b a) : a = b := by
  rcases reflTransGen_iff_eq_or_transGen.1 h with heq | ht
  · exact heq
  · exact absurd (TransGen.trans_left ht h') (hacyclic b)

end OpsBlobs.VersionGraph
