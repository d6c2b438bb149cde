import OpsBlobs.VersionSweep

namespace OpsBlobs.AncestorWalk

open Relation Types GraphWalk VersionDag VersionGraph FileRegistry VersionSweep

/-- Which versions' bytes are stored, and how many generations to walk; neither is given
for the whole history. -/
structure ReachableBounds where
  has : Option (String → Bool)
  maxDepth : Option Nat

def unbounded : ReachableBounds := ⟨none, none⟩

def storedOnly (has : String → Bool) : ReachableBounds := ⟨some has, none⟩

/-- The bytes of a version that has some are gone. -/
def bytesGone (dag : VersionDag) (has : Option (String → Bool)) (cur : String) : Bool :=
  match has, contentHashOf dag cur with
  | some has, some contentHash => !has contentHash
  | _, _ => false

/-- Where a walk goes on to from a version of the given generation. -/
def expand (dag : VersionDag) (bounds : ReachableBounds) (depth : Nat) (cur : String) :
    List String :=
  if 0 < depth ∧ bytesGone dag bounds.has cur then []
  else if bounds.maxDepth = some depth then []
  else parentsOf dag cur

def walkHashes (dag : VersionDag) (bounds : ReachableBounds) :
    Nat → Nat → List String → List String → List String → List String
  | 0, _, _, _, out => out
  | fuel + 1, depth, frontier, seen, out =>
      if frontier = [] ∨ bounds.maxDepth.any (· < depth) then out
      else
        let next := generation (expand dag bounds depth) seen frontier
        walkHashes dag bounds fuel (depth + 1) next (seen ++ next)
          (out ++ fresh out (frontier.filterMap (contentHashOf dag)))

/-- The content of a version and of its ancestors, a generation at a time; every
generation but the last finds a parent that was not seen before. -/
def reachableContentHashes (dag : VersionDag) (versionId : String) (bounds : ReachableBounds) :
    List String :=
  walkHashes dag bounds (edgeCount dag + 2) 0 [versionId] [versionId] []

/-- What a garbage collection keeps: the content of the live entries and, with a graph,
that of their heads' ancestors. -/
def referencedHashes (registry : FileRegistry) (dag : Option VersionDag)
    (bounds : ReachableBounds) : List String :=
  fresh [] (registry.getActiveEntries.flatMap (fun entry =>
    [entry.contentHash].filter (· ≠ "") ++
      match dag, entry.head with
      | some dag, some head => reachableContentHashes dag head bounds
      | _, _ => []))

section Generation

variable {V : Type} [DecidableEq V]

theorem generation_congr {next next' : V → List V} {seen frontier : List V}
    (h : ∀ v ∈ frontier, next v = next' v) :
    generation next seen frontier = generation next' seen frontier := by
  induction frontier generalizing seen with
  | nil => rfl
  | cons cur rest ih =>
      rw [generation, generation, h cur List.mem_cons_self]
      congr 1
      exact ih fun v hv => h v (List.mem_cons_of_mem _ hv)

end Generation

section Reached

variable {dag : VersionDag} {has : Option (String → Bool)} {v x contentHash : String}

/-- The start is always left; any other version only if its bytes are not gone. -/
def parentsWithin (dag : VersionDag) (has : Option (String → Bool)) (v cur : String) :
    List String :=
  if cur ≠ v ∧ bytesGone dag has cur then [] else parentsOf dag cur

theorem expand_eq {depth : Nat} (h : depth = 0 ↔ x = v) :
    expand dag ⟨has, none⟩ depth x = parentsWithin dag has v x := by
  have hdepth : 0 < depth ↔ x ≠ v := Nat.pos_iff_ne_zero.trans h.not
  simp only [expand, parentsWithin, hdepth, reduceCtorEq, if_false]

theorem mem_hasChild_of_parentsWithin : ∀ u, ∀ w ∈ parentsWithin dag has v u, w ∈ hasChild dag := by
  intro u w hw
  rw [parentsWithin] at hw
  split at hw
  · exact absurd hw List.not_mem_nil
  · exact mem_hasChild_iff.2 ⟨u, hw⟩

/-- What the versions seen so far hold is out already, or comes out with the frontier. -/
def Collected (dag : VersionDag) (frontier seen out : List String) : Prop :=
  ∀ contentHash, (contentHash ∈ out ∨ ∃ x ∈ frontier, contentHashOf dag x = some contentHash) ↔
    ∃ x ∈ seen, contentHashOf dag x = some contentHash

theorem collected_generation {frontier seen out next : List String}
    (h : Collected dag frontier seen out) :
    Collected dag next (seen ++ next)
      (out ++ fresh out (frontier.filterMap (contentHashOf dag))) := by
  intro c
  have hout : c ∈ out ++ fresh out (frontier.filterMap (contentHashOf dag)) ↔
      ∃ x ∈ seen, contentHashOf dag x = some c := by
    rw [← h c, List.mem_append, mem_fresh_iff, List.mem_filterMap]
    by_cases hc : c ∈ out
    · simp [hc]
    · simp [hc]
  rw [hout]
  constructor
  · rintro (⟨x, hx, hc⟩ | ⟨x, hx, hc⟩)
    · exact ⟨x, List.mem_append_left _ hx, hc⟩
    · exact ⟨x, List.mem_append_right _ hx, hc⟩
  · rintro ⟨x, hx, hc⟩
    rcases List.mem_append.1 hx with hx | hx
    · exact Or.inl ⟨x, hx, hc⟩
    · exact Or.inr ⟨x, hx, hc⟩

theorem mem_walkHashes_iff {fuel depth : Nat} {frontier seen out : List String}
    (hv : v ∈ seen) (hdepth : ∀ x ∈ frontier, (depth = 0 ↔ x = v))
    (h : Collected dag frontier seen out)
    (hfuel : frontier = [] ∨ room (hasChild dag) seen < fuel) :
    contentHash ∈ walkHashes dag ⟨has, none⟩ fuel depth frontier seen out ↔
      ∃ x ∈ generations (parentsWithin dag has v) fuel frontier seen,
        contentHashOf dag x = some contentHash := by
  have hnil : ∀ {seen out : List String}, Collected dag [] seen out →
      (contentHash ∈ out ↔ ∃ x ∈ seen, contentHashOf dag x = some contentHash) := by
    intro seen out h
    rw [← h contentHash]
    simp
  induction fuel generalizing depth frontier seen out with
  | zero =>
      obtain rfl := hfuel.resolve_right (Nat.not_lt_zero _)
      exact hnil h
  | succ fuel ih =>
      cases frontier with
      | nil => exact hnil h
      | cons cur frontier =>
          have hnext : generation (expand dag ⟨has, none⟩ depth) seen (cur :: frontier) =
              generation (parentsWithin dag has v) seen (cur :: frontier) :=
            generation_congr fun x hx => expand_eq (hdepth x hx)
          have hcond : ¬ (cur :: frontier = [] ∨
              (⟨has, none⟩ : ReachableBounds).maxDepth.any (· < depth) = true) := by
            simp
          rw [walkHashes, if_neg hcond, hnext]
          apply ih
          · exact List.mem_append_left _ hv
          · intro x hx
            refine iff_of_false (Nat.succ_ne_zero depth) ?_
            rintro rfl
            exact (mem_generation_iff.1 hx).2 hv
          · exact collected_generation h
          · refine or_iff_not_imp_left.2 fun hne => ?_
            have hadded : ∀ w ∈ generation (parentsWithin dag has v) seen (cur :: frontier),
                w ∈ hasChild dag ∧ w ∉ seen := by
              intro w hw
              obtain ⟨⟨u, -, hw⟩, hws⟩ := mem_generation_iff.1 hw
              exact ⟨mem_hasChild_of_parentsWithin u w hw, hws⟩
            have hroom := room_append nodup_generation hadded
            have hpos := List.length_pos_iff.2 hne
            have := hfuel.resolve_left (List.cons_ne_nil cur frontier)
            omega

theorem mem_reachable_iff :
    contentHash ∈ reachableContentHashes dag v ⟨has, none⟩ ↔
      ∃ x, Reach (parentsWithin dag has v) [v] x ∧ contentHashOf dag x = some contentHash := by
  have hfuel : room (hasChild dag) [v] < edgeCount dag + 2 := by
    have hle := List.length_filter_le (· ∉ [v]) (hasChild dag)
    rw [length_hasChild] at hle
    exact Nat.lt_of_le_of_lt hle (Nat.lt_add_of_pos_right (by decide))
  have hstart : Collected dag [v] [v] [] := by
    intro c
    simp
  rw [reachableContentHashes, mem_walkHashes_iff (v := v) (List.mem_singleton_self v)
    (fun x hx => iff_of_true rfl (List.mem_singleton.1 hx)) hstart (Or.inr hfuel)]
  simp only [mem_generations_iff mem_hasChild_of_parentsWithin hfuel]

end Reached

section Bounded

variable {dag : VersionDag} {has : String → Bool} {v x contentHash : String}

/-- Reached along versions whose bytes are stored, or that have none of their own. -/
inductive Covered (dag : VersionDag) (has : String → Bool) (v : String) : String → Prop
  | start : Covered dag has v v
  | parent {x p : String} (hx : Covered dag has v x) (hp : p ∈ parentsOf dag x)
      (hbytes : x = v ∨ ∀ contentHash, contentHashOf dag x = some contentHash →
        has contentHash = true) : Covered dag has v p

/-- Whatever is stored of the ancestors is also found before a gap. -/
def StoredCovered (dag : VersionDag) (has : String → Bool) (v : String) : Prop :=
  ∀ x contentHash, IsAncestor dag x v → contentHashOf dag x = some contentHash →
    has contentHash = true →
      ∃ y, Covered dag has v y ∧ contentHashOf dag y = some contentHash

theorem bytesGone_iff : bytesGone dag (some has) x = true ↔
    ∃ contentHash, contentHashOf dag x = some contentHash ∧ has contentHash = false := by
  cases h : contentHashOf dag x with
  | none => simp [bytesGone, h]
  | some contentHash => simp [bytesGone, h]

theorem mem_parentsWithin_iff {p : String} : p ∈ parentsWithin dag (some has) v x ↔
    p ∈ parentsOf dag x ∧ (x = v ∨ ∀ contentHash, contentHashOf dag x = some contentHash →
      has contentHash = true) := by
  have hbytes : (∀ contentHash, contentHashOf dag x = some contentHash →
      has contentHash = true) ↔ ¬ bytesGone dag (some has) x = true := by
    rw [bytesGone_iff]
    push Not
    simp only [Bool.not_eq_false, ne_eq]
  rw [hbytes, parentsWithin]
  by_cases hx : x = v
  · simp [hx]
  · by_cases hg : bytesGone dag (some has) x = true
    · simp [hx, hg]
    · simp [hx, hg]

theorem covered_iff : Covered dag has v x ↔ Reach (parentsWithin dag (some has) v) [v] x := by
  constructor
  · intro h
    induction h with
    | start => exact reach_of_mem (List.mem_singleton_self v)
    | parent _ hp hbytes ih => exact reach_tail ih (mem_parentsWithin_iff.2 ⟨hp, hbytes⟩)
  · rintro ⟨s, hs, h⟩
    obtain rfl := List.mem_singleton.1 hs
    induction h with
    | refl => exact .start
    | tail _ he ih =>
        obtain ⟨hp, hbytes⟩ := mem_parentsWithin_iff.1 he
        exact .parent ih hp hbytes

theorem mem_storedOnly_iff : contentHash ∈ reachableContentHashes dag v (storedOnly has) ↔
    ∃ x, Covered dag has v x ∧ contentHashOf dag x = some contentHash := by
  simp only [covered_iff]
  exact mem_reachable_iff

theorem mem_unbounded_iff : contentHash ∈ reachableContentHashes dag v unbounded ↔
    ∃ x, IsAncestor dag x v ∧ contentHashOf dag x = some contentHash := by
  have hparents : parentsWithin dag none v = parentsOf dag := by
    funext x
    rw [parentsWithin, if_neg]
    exact fun h => by cases h.2
  refine mem_reachable_iff.trans ?_
  simp [hparents, Reach, IsAncestor]

theorem isAncestor_of_covered (h : Covered dag has v x) : IsAncestor dag x v := by
  induction h with
  | start => exact .refl
  | parent _ hp _ ih => exact ih.tail hp

theorem mem_unbounded_of_storedOnly
    (h : contentHash ∈ reachableContentHashes dag v (storedOnly has)) :
    contentHash ∈ reachableContentHashes dag v unbounded := by
  obtain ⟨x, hx, hc⟩ := mem_storedOnly_iff.1 h
  exact mem_unbounded_iff.2 ⟨x, isAncestor_of_covered hx, hc⟩

theorem stored_iff : (∀ contentHash, has contentHash = true →
      (contentHash ∈ reachableContentHashes dag v (storedOnly has) ↔
        contentHash ∈ reachableContentHashes dag v unbounded)) ↔
    StoredCovered dag has v := by
  constructor
  · intro h x c hx hc hs
    exact mem_storedOnly_iff.1 ((h c hs).2 (mem_unbounded_iff.2 ⟨x, hx, hc⟩))
  · intro h c hs
    refine ⟨mem_unbounded_of_storedOnly, fun hc => ?_⟩
    obtain ⟨x, hx, hc⟩ := mem_unbounded_iff.1 hc
    exact mem_storedOnly_iff.2 (h x c hx hc hs)

theorem mem_referencedHashes_iff {registry : FileRegistry} {bounds : ReachableBounds} :
    contentHash ∈ referencedHashes registry (some dag) bounds ↔
      ∃ e ∈ registry.getActiveEntries, e.contentHash = contentHash ∧ contentHash ≠ "" ∨
        ∃ head, e.head = some head ∧ contentHash ∈ reachableContentHashes dag head bounds := by
  rw [referencedHashes, mem_fresh_iff, and_iff_left List.not_mem_nil, List.mem_flatMap]
  apply exists_congr
  intro e
  apply and_congr_right
  intro _
  rw [List.mem_append, List.mem_filter, List.mem_singleton]
  apply or_congr
  · constructor
    · rintro ⟨rfl, h⟩
      exact ⟨rfl, of_decide_eq_true h⟩
    · rintro ⟨rfl, h⟩
      exact ⟨rfl, decide_eq_true h⟩
  · cases h : e.head with
    | none => simp
    | some head => simp

/-- The bounded walk finds all that is stored of a version's history exactly when no gap
hides any of it, and then it keeps all that the whole walk keeps. -/
theorem bounded_walk_stored_iff (dag : VersionDag) (has : String → Bool) :
    (∀ v, (∀ contentHash, has contentHash = true →
        (contentHash ∈ reachableContentHashes dag v (storedOnly has) ↔
          contentHash ∈ reachableContentHashes dag v unbounded)) ↔ StoredCovered dag has v) ∧
      ∀ registry : FileRegistry,
        (∀ e ∈ registry.getActiveEntries, ∀ head, e.head = some head →
          StoredCovered dag has head) →
        ∀ contentHash, has contentHash = true →
          (contentHash ∈ referencedHashes registry (some dag) (storedOnly has) ↔
            contentHash ∈ referencedHashes registry (some dag) unbounded) := by
  refine ⟨fun v => stored_iff, fun registry hcovered c hs => ?_⟩
  rw [mem_referencedHashes_iff, mem_referencedHashes_iff]
  apply exists_congr
  intro e
  apply and_congr_right
  intro he
  apply or_congr_right
  apply exists_congr
  intro head
  apply and_congr_right
  intro hhead
  exact stored_iff.2 (hcovered e he head hhead) c hs

end Bounded

section Example

/-- Three versions in a row, the middle one never pulled. -/
def gapDag : VersionDag :=
  addVersion (addVersion (addVersion .empty "v0" [] "H0" "f") "v1" ["v0"] "H1" "f")
    "v2" ["v1"] "H2" "f"

def pulled (contentHash : String) : Bool := contentHash ≠ "H1"

theorem gap_hides_stored :
    pulled "H0" = true ∧ "H0" ∈ reachableContentHashes gapDag "v2" unbounded ∧
      "H0" ∉ reachableContentHashes gapDag "v2" (storedOnly pulled) := by decide

end Example

end OpsBlobs.AncestorWalk
