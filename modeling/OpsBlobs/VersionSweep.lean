import OpsBlobs.FileRegistry
import OpsBlobs.VersionGraph

namespace OpsBlobs.VersionSweep

open Relation Types GraphWalk VersionDag VersionGraph FileRegistry

/-- The versions to keep: the roots and what they were made from, unrecorded ids included. -/
def keptIds (dag : VersionDag) (roots : List String) : List String :=
  let seeds := fresh [] (roots.filter (· ≠ ""))
  mark (parentsOf dag) (seeds.length + edgeCount dag) seeds.reverse seeds

/-- Drops every node that is not kept; the count is that of the dropped ones. -/
def prune (dag : VersionDag) (roots : List String) : VersionDag × Nat :=
  let keep := keptIds dag roots
  dag.keys.foldl
    (fun swept id => if id ∈ keep then swept else (swept.1.delete id, swept.2 + 1)) (dag, 0)

/-- Declines when there is nothing to sweep by: no nodes, no roots, or no root among the
nodes. -/
def sweepToRoots (dag : VersionDag) (roots : List String) : VersionDag × Nat :=
  if dag.entries = [] ∨ roots = [] then (dag, 0)
  else if roots.any (fun root => dag.has root) then prune dag roots
  else (dag, 0)

/-- The roots of the plugin's sweep: what the registry and the pending ops name. -/
def sweepRoots (registry : FileRegistry) (pendingOps : List Operation) : List String :=
  registry.versionRoots ++ pendingOps.flatMap (fun op => (op.id :: op.parents).filter (· ≠ ""))

def hasChild (dag : VersionDag) : List String := dag.values.flatMap (fun node => node.parents)

/-- The versions of a file that no other version was made from, in insertion order. -/
def leaves (dag : VersionDag) (fileId : String) : List String :=
  (dag.entries.filter (fun e => e.2.fileId = fileId ∧ e.1 ∉ hasChild dag)).map Prod.fst

structure VersionAddition where
  versionId : String
  parents : List String
  contentHash : String
  fileId : String
  deriving DecidableEq, Repr

def addVersions (dag : VersionDag) (additions : List VersionAddition) : VersionDag :=
  additions.foldl (fun dag v => addVersion dag v.versionId v.parents v.contentHash v.fileId) dag

section Kept

variable {dag : VersionDag} {roots : List String} {x : String}

theorem mem_hasChild_iff : x ∈ hasChild dag ↔ ∃ v, x ∈ parentsOf dag v := by
  simp only [hasChild, List.mem_flatMap, JsMap.mem_values_iff]
  constructor
  · rintro ⟨node, ⟨v, hv⟩, hx⟩
    exact ⟨v, by rwa [parentsOf_of_get hv]⟩
  · rintro ⟨v, hx⟩
    cases hv : dag.get v with
    | none =>
        rw [parentsOf, hv] at hx
        exact absurd hx List.not_mem_nil
    | some node => exact ⟨node, ⟨v, hv⟩, parentsOf_of_get hv ▸ hx⟩

theorem length_hasChild : (hasChild dag).length = edgeCount dag := by
  rw [hasChild, List.length_flatMap, edgeCount]

/-- A version the roots name or were made from. -/
def Rooted (dag : VersionDag) (roots : List String) (x : String) : Prop :=
  Reach (parentsOf dag) (roots.filter (· ≠ "")) x

theorem rooted_parent {p : String} (h : Rooted dag roots x) (hp : p ∈ parentsOf dag x) :
    Rooted dag roots p := reach_tail h hp

theorem mem_keptIds_iff : x ∈ keptIds dag roots ↔ Rooted dag roots x := by
  have hseeds : ∀ v, v ∈ fresh [] (roots.filter (· ≠ "")) ↔ v ∈ roots.filter (· ≠ "") :=
    fun v => mem_fresh_iff.trans (and_iff_left List.not_mem_nil)
  have htargets : ∀ v, ∀ w ∈ parentsOf dag v, w ∈ hasChild dag :=
    fun v w hw => mem_hasChild_iff.2 ⟨v, hw⟩
  simp only [keptIds]
  rw [mem_mark_iff htargets (fun v => List.mem_reverse)]
  · simp only [Rooted, Reach, hseeds]
  · rw [List.length_reverse, ← length_hasChild]
    exact Nat.add_le_add_left (List.length_filter_le _ _) _

instance (dag : VersionDag) (roots : List String) : DecidablePred (Rooted dag roots) :=
  fun _ => decidable_of_iff _ mem_keptIds_iff

theorem prune_from (keep ids : List String) (swept : VersionDag × Nat) :
    (ids.foldl (fun swept id =>
        if id ∈ keep then swept else (swept.1.delete id, swept.2 + 1)) swept).1.entries =
      swept.1.entries.filter (fun e => e.1 ∈ keep ∨ e.1 ∉ ids) := by
  induction ids generalizing swept with
  | nil => simp
  | cons id rest ih =>
      have hdelete : (swept.1.delete id).entries = swept.1.entries.filter (fun e => e.1 ≠ id) := rfl
      rw [List.foldl_cons, ih]
      by_cases hid : id ∈ keep
      · rw [if_pos hid]
        apply List.filter_congr
        intro e _
        by_cases he : e.1 = id
        · simp [he, hid]
        · simp [he]
      · rw [if_neg hid, hdelete, List.filter_filter]
        apply List.filter_congr
        intro e _
        by_cases he : e.1 = id
        · simp [he, hid]
        · simp [he]

/-- A node that the sweep deletes. -/
def Dropped (dag : VersionDag) (roots : List String) (x : String) : Prop :=
  (∃ root ∈ roots, dag.has root = true) ∧ x ∈ dag.keys ∧ ¬ Rooted dag roots x

instance (dag : VersionDag) (roots : List String) : DecidablePred (Dropped dag roots) :=
  fun _ => inferInstanceAs (Decidable (_ ∧ _))

def survives (dag : VersionDag) (roots : List String) (x : String) : Bool :=
  !decide (Dropped dag roots x)

theorem survives_iff : survives dag roots x = true ↔ ¬ Dropped dag roots x := by
  rw [survives, Bool.not_eq_true', decide_eq_false_iff_not]

theorem survives_of_rooted (h : Rooted dag roots x) : survives dag roots x = true :=
  survives_iff.2 fun hd => hd.2.2 h

theorem sweepToRoots_eq : (sweepToRoots dag roots).1 = dag.restrict (survives dag roots) := by
  by_cases hroot : ∃ root ∈ roots, dag.has root = true
  · obtain ⟨root, hmem, hhas⟩ := id hroot
    obtain ⟨node, hnode⟩ := (JsMap.has_iff dag root).1 hhas
    have hne : ¬ (dag.entries = [] ∨ roots = []) := by
      rintro (he | rfl)
      · exact List.not_mem_nil (he ▸ (JsMap.mem_entries_iff dag).2 hnode)
      · exact List.not_mem_nil hmem
    rw [sweepToRoots, if_neg hne, if_pos (List.any_eq_true.2 hroot)]
    ext1
    simp only [prune, prune_from, JsMap.restrict]
    apply List.filter_congr
    intro e he
    have hkey : e.1 ∈ dag.keys := List.mem_map_of_mem he
    simp [survives, Dropped, hroot, hkey, mem_keptIds_iff]
  · have hkeep : dag.restrict (survives dag roots) = dag := by
      ext1
      exact List.filter_eq_self.2 fun e _ => survives_iff.2 fun hd => hroot hd.1
    rw [hkeep, sweepToRoots]
    split
    · rfl
    · rw [if_neg (fun h => hroot (List.any_eq_true.1 h))]

theorem mem_parentsOf_restrict {p : String → Bool} {a b : String} :
    b ∈ parentsOf (dag.restrict p) a ↔ p a = true ∧ b ∈ parentsOf dag a := by
  rw [parentsOf, parentsOf, JsMap.get_restrict]
  by_cases h : p a = true
  · simp [h]
  · simp [h]

end Kept

section Additions

variable {dag : VersionDag} {s : List VersionAddition} {x y : String}

theorem mem_unionParents_iff {versionId : String} {known added : List String} :
    x ∈ unionParents versionId known added ↔ x ∈ known ∨ x ∈ added ∧ x ≠ versionId := by
  induction added generalizing known with
  | nil => simp [unionParents]
  | cons p rest ih =>
      rw [unionParents, List.foldl_cons]
      refine ih.trans ?_
      split
      · rename_i h
        rcases h with rfl | h
        · by_cases hx : x = p <;> simp [hx]
        · by_cases hx : x = p <;> simp [hx, h]
      · rename_i h
        rw [not_or] at h
        by_cases hx : x = p
        · simp [hx, h.1]
        · simp [hx]

theorem mem_parentsOf_addVersion {versionId contentHash fileId : String} {parents : List String} :
    y ∈ parentsOf (addVersion dag versionId parents contentHash fileId) x ↔
      y ∈ parentsOf dag x ∨ versionId = x ∧ y ∈ parents ∧ y ≠ x := by
  by_cases hx : versionId = x
  · subst hx
    cases hget : dag.get versionId with
    | none => simp [parentsOf, addVersion, hget, mem_unionParents_iff]
    | some node => simp [parentsOf, addVersion, hget, mem_unionParents_iff]
  · have hsame : (addVersion dag versionId parents contentHash fileId).get x = dag.get x := by
      rw [addVersion]
      split
      · exact JsMap.get_set_ne dag _ hx
      · exact JsMap.get_set_ne dag _ hx
    rw [parentsOf, hsame, parentsOf]
    exact (or_iff_left fun h => hx h.1).symm

theorem mem_parentsOf_addVersions :
    y ∈ parentsOf (addVersions dag s) x ↔
      y ∈ parentsOf dag x ∨ ∃ v ∈ s, v.versionId = x ∧ y ∈ v.parents ∧ y ≠ x := by
  induction s generalizing dag with
  | nil => simp [addVersions]
  | cons v rest ih =>
      rw [addVersions, List.foldl_cons]
      refine ih.trans ?_
      rw [mem_parentsOf_addVersion, or_assoc, List.exists_mem_cons_iff]

theorem restrict_addVersion (p : String → Bool) (v : VersionAddition) :
    (addVersion dag v.versionId v.parents v.contentHash v.fileId).restrict p =
      if p v.versionId then
        addVersion (dag.restrict p) v.versionId v.parents v.contentHash v.fileId
      else dag.restrict p := by
  have hget := JsMap.get_restrict dag p v.versionId
  cases h : dag.get v.versionId with
  | none =>
      rw [addVersion, h]
      dsimp only
      rw [JsMap.restrict_set]
      by_cases hp : p v.versionId = true
      · rw [if_pos hp, h] at hget
        rw [if_pos hp, if_pos hp, addVersion, hget]
      · rw [if_neg hp, if_neg hp]
  | some node =>
      rw [addVersion, h]
      dsimp only
      rw [JsMap.restrict_set]
      by_cases hp : p v.versionId = true
      · rw [if_pos hp, h] at hget
        rw [if_pos hp, if_pos hp, addVersion, hget]
      · rw [if_neg hp, if_neg hp]

/-- What is added under the other keys does not show. -/
theorem restrict_addVersions (p : String → Bool) :
    (addVersions dag s).restrict p =
      addVersions (dag.restrict p) (s.filter (fun v => p v.versionId)) := by
  induction s generalizing dag with
  | nil => rfl
  | cons v rest ih =>
      rw [addVersions, List.foldl_cons]
      refine ih.trans ?_
      rw [restrict_addVersion]
      by_cases hp : p v.versionId = true
      · rw [if_pos hp, List.filter_cons, if_pos hp]
        rfl
      · rw [if_neg hp, List.filter_cons, if_neg hp]

theorem fileId_addVersions {fileId : String}
    (hdag : ∀ node, dag.get x = some node → node.fileId = fileId)
    (hs : ∀ v ∈ s, v.versionId = x → v.fileId = fileId) :
    ∀ node, (addVersions dag s).get x = some node → node.fileId = fileId := by
  induction s generalizing dag with
  | nil => exact hdag
  | cons v rest ih =>
      rw [addVersions, List.foldl_cons]
      apply ih
      · intro node hnode
        rw [addVersion] at hnode
        by_cases hx : v.versionId = x
        · have hv := hs v List.mem_cons_self hx
          subst hx
          cases hget : dag.get v.versionId with
          | none =>
              simp only [hget, JsMap.get_set_self, Option.some.injEq] at hnode
              exact hnode ▸ hv
          | some known =>
              simp only [hget, JsMap.get_set_self, Option.some.injEq] at hnode
              rw [← hnode, hdag known hget, hv]
              exact ite_self fileId
        · split at hnode
          · rw [JsMap.get_set_ne dag _ hx] at hnode
            exact hdag node hnode
          · rw [JsMap.get_set_ne dag _ hx] at hnode
            exact hdag node hnode
      · exact fun v hv => hs v (List.mem_cons_of_mem _ hv)

theorem mem_leaves_iff {fileId : String} : x ∈ leaves dag fileId ↔
    (∃ node, dag.get x = some node ∧ node.fileId = fileId) ∧ ∀ v, x ∉ parentsOf dag v := by
  rw [leaves, List.mem_map]
  constructor
  · rintro ⟨⟨v, node⟩, he, rfl⟩
    obtain ⟨he, hp⟩ := List.mem_filter.1 he
    obtain ⟨hf, hc⟩ := of_decide_eq_true hp
    exact ⟨⟨node, (JsMap.mem_entries_iff dag).1 he, hf⟩, fun u hu => hc (mem_hasChild_iff.2 ⟨u, hu⟩)⟩
  · rintro ⟨⟨node, hget, hf⟩, hc⟩
    refine ⟨(x, node), List.mem_filter.2 ⟨(JsMap.mem_entries_iff dag).2 hget, ?_⟩, rfl⟩
    refine decide_eq_true ⟨hf, fun h => ?_⟩
    obtain ⟨u, hu⟩ := mem_hasChild_iff.1 h
    exact hc u hu

/-- The leaves of a file are read off the part of the graph that holds the file's nodes. -/
theorem leaves_restrict {p : String → Bool} {fileId : String}
    (hp : ∀ x node, dag.get x = some node → node.fileId = fileId → p x = true) :
    leaves dag fileId = ((dag.restrict p).entries.filter
      (fun e => e.2.fileId = fileId ∧ e.1 ∉ hasChild dag)).map Prod.fst := by
  rw [leaves, JsMap.restrict, List.filter_filter]
  congr 1
  apply List.filter_congr
  intro e he
  by_cases hf : e.2.fileId = fileId
  · simp [hp e.1 e.2 ((JsMap.mem_entries_iff dag).1 he) hf]
  · simp [hf]

theorem leaves_congr {dag' : VersionDag} {p : String → Bool} {fileId : String}
    (h : dag.restrict p = dag'.restrict p)
    (hp : ∀ x node, dag.get x = some node → node.fileId = fileId → p x = true)
    (hp' : ∀ x node, dag'.get x = some node → node.fileId = fileId → p x = true)
    (hc : ∀ x, p x = true → (x ∈ hasChild dag ↔ x ∈ hasChild dag')) :
    leaves dag fileId = leaves dag' fileId := by
  rw [leaves_restrict hp, leaves_restrict hp', ← h]
  congr 1
  apply List.filter_congr
  intro e he
  simp only [hc e.1 (List.mem_filter.1 he).2]

end Additions

end OpsBlobs.VersionSweep
