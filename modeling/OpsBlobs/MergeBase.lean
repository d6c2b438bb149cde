import Mathlib.Data.Set.Finite.Lemmas
import Mathlib.Order.WellFounded
import OpsBlobs.VersionGraph

namespace OpsBlobs.MergeBase

open Relation GraphWalk VersionDag VersionGraph

variable (dag : VersionDag) (x y : String)

def CommonAncestor (v : String) : Prop := isAncestor dag v x = true ∧ isAncestor dag v y = true

/-- A common ancestor that is an ancestor of no other one. -/
def MaximalCommon (v : String) : Prop :=
  CommonAncestor dag x y v ∧ ∀ c, CommonAncestor dag x y c → isAncestor dag v c = true → c = v

/-- An answer that says of the two versions what is true of them. -/
structure BaseOf (answer : MergeBaseResult) : Prop where
  none : answer = .none ↔ ∀ v, ¬ CommonAncestor dag x y v
  base : ∀ v, answer = .base v ↔ ∀ w, MaximalCommon dag x y w ↔ w = v
  multipleBases : answer = .multipleBases ↔
    ∃ v w, v ≠ w ∧ MaximalCommon dag x y v ∧ MaximalCommon dag x y w
  ancestor : answer = .base x ↔ isAncestor dag x y = true

/-- What the marking walk of `mergeBase` starts from: the parents of all common ancestors. -/
def dominators : List String := ((commonAncestors dag x y).flatMap (parentsOf dag)).reverse

/-- None of the loops can go on forever, and each stops with what is read off it. -/
structure Terminates : Prop where
  no_endless : WellFounded (fun t s => Pops (parentsOf dag) s t)
  ancestors_left : ReflTransGen (Pops (parentsOf dag)) ([x], []) ([], ancestors dag x)
  ancestors_right : ReflTransGen (Pops (parentsOf dag)) ([y], []) ([], ancestors dag y)
  dominated : ∃ seen, ReflTransGen (Pops (parentsOf dag)) (dominators dag x y, []) ([], seen) ∧
    lowestAncestors dag x y = (commonAncestors dag x y).filter (· ∉ seen)

variable {dag x y}

theorem commonAncestor_iff {v : String} : CommonAncestor dag x y v ↔ Common dag x y v :=
  and_congr isAncestor_iff isAncestor_iff

theorem maximalCommon_iff (hacyclic : Acyclic dag) {v : String} :
    MaximalCommon dag x y v ↔ Lowest dag x y v := by
  rw [MaximalCommon, Lowest, commonAncestor_iff]
  refine and_congr_right fun _ => ?_
  constructor
  · rintro h ⟨c, hc, hv⟩
    obtain rfl := h c (commonAncestor_iff.2 hc) (isAncestor_iff.2 hv.to_reflTransGen)
    exact hacyclic c hv
  · intro h c hc hv
    rcases reflTransGen_iff_eq_or_transGen.1 (isAncestor_iff.1 hv) with heq | hv
    · exact heq.symm
    · exact absurd ⟨c, commonAncestor_iff.1 hc, hv⟩ h

/-- Two versions with a common ancestor have a lowest one: the graph is finite. -/
theorem exists_lowest (hacyclic : Acyclic dag) {c : String} (hc : Common dag x y c) :
    ∃ v, Lowest dag x y v := by
  let S := {v // v ∈ commonAncestors dag x y}
  have hirrefl : ∀ v : S, ¬ IsProperAncestor dag v v := fun v => hacyclic v
  have htrans : ∀ u v w : S, IsProperAncestor dag v u → IsProperAncestor dag w v →
      IsProperAncestor dag w u := fun _ _ _ h h' => h.trans h'
  have : Std.Irrefl (fun u v : S => IsProperAncestor dag v u) := ⟨hirrefl⟩
  have : IsTrans S (fun u v => IsProperAncestor dag v u) := ⟨htrans⟩
  have hwf := Finite.wellFounded_of_trans_of_irrefl (fun u v : S => IsProperAncestor dag v u)
  obtain ⟨⟨v, hv⟩, -, hmin⟩ := hwf.has_min Set.univ ⟨⟨c, mem_commonAncestors_iff.2 hc⟩, trivial⟩
  refine ⟨v, mem_commonAncestors_iff.1 hv, ?_⟩
  rintro ⟨d, hd, hvd⟩
  exact hmin ⟨d, mem_commonAncestors_iff.2 hd⟩ trivial hvd

theorem mergeBase_eq_multipleBases_iff (hacyclic : Acyclic dag) :
    mergeBase dag x y = .multipleBases ↔
      ∃ v w, v ≠ w ∧ Lowest dag x y v ∧ Lowest dag x y w := by
  constructor
  · intro h
    have hsome : mergeBase dag x y ≠ .none := by rw [h]; exact nofun
    obtain ⟨c, hc⟩ := not_forall_not.1 (mergeBase_eq_none_iff.not.1 hsome)
    obtain ⟨v, hv⟩ := exists_lowest hacyclic hc
    have hmany : mergeBase dag x y ≠ .base v := by rw [h]; exact nofun
    by_contra hone
    refine hmany (mergeBase_eq_base_iff.2 fun w => ⟨fun hw => ?_, fun hw => hw ▸ hv⟩)
    by_contra hne
    exact hone ⟨w, v, hne, hw, hv⟩
  · rintro ⟨v, w, hne, hv, hw⟩
    cases h : mergeBase dag x y with
    | none => exact absurd hv.1 (mergeBase_eq_none_iff.1 h v)
    | base b =>
        have hall := mergeBase_eq_base_iff.1 h
        exact absurd (((hall v).1 hv).trans ((hall w).1 hw).symm) hne
    | multipleBases => rfl

theorem mergeBase_eq_left_iff (hacyclic : Acyclic dag) :
    mergeBase dag x y = .base x ↔ IsAncestor dag x y := by
  constructor
  · intro h
    exact ((mergeBase_eq_base_iff.1 h x).2 rfl).1.2
  · intro h
    rw [mergeBase_comm]
    exact mergeBase_of_isAncestor hacyclic h

theorem terminates (dag : VersionDag) (x y : String) : Terminates dag x y := by
  have hnodes := mem_keys_or_parentsOf dag
  have hancestors : ∀ v, ReflTransGen (Pops (parentsOf dag)) ([v], []) ([], ancestors dag v) := by
    intro v
    rw [ancestors, walkUp_eq_walk]
    apply walk_ends hnodes
    rw [pending_keys, List.length_singleton]
    omega
  refine ⟨wellFounded_pops hnodes, hancestors x, hancestors y, _, ?_, rfl⟩
  rw [walkUp_eq_walk]
  apply walk_ends hnodes
  rw [pending_keys, dominators, List.length_reverse]
  omega

/-- The search for a merge base stops on every graph, cycles included, and gives the same
answer in either order; on an acyclic graph the answer is the right one. -/
theorem mergeBase_correct (dag : VersionDag) (x y : String) :
    Terminates dag x y ∧ mergeBase dag x y = mergeBase dag y x ∧
      (Acyclic dag → BaseOf dag x y (mergeBase dag x y)) := by
  refine ⟨terminates dag x y, mergeBase_comm, fun hacyclic => ⟨?_, ?_, ?_, ?_⟩⟩
  · simp only [commonAncestor_iff]
    exact mergeBase_eq_none_iff
  · intro v
    simp only [maximalCommon_iff hacyclic]
    exact mergeBase_eq_base_iff
  · simp only [maximalCommon_iff hacyclic]
    exact mergeBase_eq_multipleBases_iff hacyclic
  · rw [isAncestor_iff]
    exact mergeBase_eq_left_iff hacyclic

/-- A criss-cross: both merges have the two edits of the root among their ancestors. -/
def crissCross : VersionDag := JsMap.ofList
  [("1", ⟨["0"], "", ""⟩), ("2", ⟨["1"], "", ""⟩), ("3", ⟨["1"], "", ""⟩),
    ("4", ⟨["2", "3"], "", ""⟩), ("5", ⟨["3", "2"], "", ""⟩)]

theorem mergeBase_correct_crissCross : mergeBase crissCross "4" "5" = .multipleBases ∧
    BaseOf crissCross "4" "5" (mergeBase crissCross "4" "5") :=
  ⟨by decide +kernel, (mergeBase_correct crissCross "4" "5").2.2
    (acyclic_of_rank (fun v => (v.toList.headD '0').toNat) (by decide +kernel))⟩

end OpsBlobs.MergeBase
