import OpsBlobs.VersionDagStore

namespace OpsBlobs.VersionRecords

open Relation Types LineJournal GraphWalk VersionDag VersionGraph VersionSweep VersionDagStore

section Recording

def addParents (versionId : String) (added : List String) (known : List String × Bool) :
    List String × Bool :=
  added.foldl (fun s p => if p = versionId ∨ p ∈ s.1 then s else (s.1 ++ [p], true)) known

/-- An empty hash or file is filled in once, and counts as a change. -/
def backfill (node : VersionNode) (r : EdgeRecord) : VersionNode × Bool :=
  let fillsHash : Bool := node.contentHash = "" && r.c ≠ ""
  let fillsFile : Bool := node.fileId = "" && r.f ≠ ""
  ({ node with
      contentHash := if fillsHash then r.c else node.contentHash
      fileId := if fillsFile then r.f else node.fileId }, fillsHash || fillsFile)

/-- `addVersion` with the answer that it gives: whether it changed the graph. -/
def addVersionChanged (dag : VersionDag) (r : EdgeRecord) : VersionDag × Bool :=
  let start : VersionNode × Bool := match dag.get r.v with
    | none => (⟨[], r.c, r.f⟩, true)
    | some node => backfill node r
  let parents := addParents r.v r.p (start.1.parents, start.2)
  (dag.set r.v { start.1 with parents := parents.1 }, parents.2)

/-- The edges that are journaled are those that changed the graph. -/
def recordEdges (dag : VersionDag) (l : List EdgeRecord) : VersionDag × List EdgeRecord :=
  l.foldl (fun s r =>
    let added := addVersionChanged s.1 r
    (added.1, if added.2 then s.2 ++ [r] else s.2)) (dag, [])

def edgeOf (op : Operation) : EdgeRecord := ⟨op.id, op.parents, op.contentHash, op.fileId⟩

def recordVersionEdges (dag : VersionDag) (ops : List Operation) :
    VersionDag × List EdgeRecord :=
  recordEdges dag ((ops.filter (·.type ≠ .move)).map edgeOf)

def addLeaf (out : JsMap String (List String)) (fileId id : String) : JsMap String (List String) :=
  match out.get fileId with
  | some ids => out.set fileId (ids ++ [id])
  | none => out.set fileId [id]

/-- Every file's leaves in one pass; a file without leaves has no entry. -/
def leavesByFile (dag : VersionDag) : JsMap String (List String) :=
  dag.entries.foldl (fun out e =>
    if e.2.fileId = "" ∨ e.1 ∈ hasChild dag then out else addLeaf out e.2.fileId e.1) .empty

def clone (dag : VersionDag) : VersionDag :=
  dag.entries.foldl (fun copy e =>
    copy.set e.1 ⟨e.2.parents, e.2.contentHash, e.2.fileId⟩) .empty

end Recording

section Same

/-- The same graph, whatever the order in which a set or a map lists its members. -/
structure SameGraph (dag dag' : VersionDag) : Prop where
  has : ∀ v, dag.has v = dag'.has v
  parents : ∀ v, (parentsOf dag v).Perm (parentsOf dag' v)
  contentHash : ∀ v, (dag.get v).map (·.contentHash) = (dag'.get v).map (·.contentHash)
  fileId : ∀ v, (dag.get v).map (·.fileId) = (dag'.get v).map (·.fileId)

/-- The same answers to every question about the graph. -/
structure SameAnswers (dag dag' : VersionDag) : Prop extends SameGraph dag dag' where
  leaves : ∀ fileId, (leaves dag fileId).Perm (leaves dag' fileId)
  leavesByFile : ∀ fileId,
    Option.Rel List.Perm ((leavesByFile dag).get fileId) ((leavesByFile dag').get fileId)
  isAncestor : ∀ a d, isAncestor dag a d = isAncestor dag' a d
  mergeBase : ∀ a b, mergeBase dag a b = mergeBase dag' a b

theorem edges_eq {dag dag' : VersionDag}
    (h : ∀ v, (parentsOf dag v).Perm (parentsOf dag' v)) :
    Edge (parentsOf dag) = Edge (parentsOf dag') := by
  funext d a
  exact propext (h d).mem_iff

/-- The leaves of a file among some of the nodes. -/
def leavesAmong (dag : VersionDag) (nodes : List (String × VersionNode)) (fileId : String) :
    List String :=
  (nodes.filter (fun e => e.2.fileId = fileId ∧ e.1 ∉ hasChild dag)).map Prod.fst

theorem leavesAmong_concat (dag : VersionDag) (nodes : List (String × VersionNode))
    (e : String × VersionNode) (fileId : String) : leavesAmong dag (nodes ++ [e]) fileId =
      if e.2.fileId = fileId ∧ e.1 ∉ hasChild dag then leavesAmong dag nodes fileId ++ [e.1]
      else leavesAmong dag nodes fileId := by
  rw [leavesAmong, List.filter_append, List.map_append]
  split
  · rename_i h
    rw [List.filter_cons_of_pos (by simpa using h)]
    rfl
  · rename_i h
    rw [List.filter_cons_of_neg (by simpa using h)]
    exact List.append_nil _

theorem get_addLeaf (out : JsMap String (List String)) (fileId id f : String) :
    (addLeaf out fileId id).get f =
      if fileId = f then some ((out.get fileId).getD [] ++ [id]) else out.get f := by
  rw [addLeaf]
  split
  · rename_i ids hget
    rw [JsMap.get_set, hget]
    rfl
  · rename_i hget
    rw [JsMap.get_set, hget]
    rfl

/-- The one pass finds for every file what a pass for the file alone finds. -/
theorem get_leavesByFile (dag : VersionDag) (fileId : String) :
    (leavesByFile dag).get fileId =
      if fileId = "" ∨ leaves dag fileId = [] then none else some (leaves dag fileId) := by
  rw [leavesByFile, show leaves dag fileId = leavesAmong dag dag.entries fileId from rfl]
  generalize dag.entries = nodes
  induction nodes using List.reverseRecOn generalizing fileId with
  | nil => exact (if_pos (Or.inr rfl)).symm
  | append_singleton nodes e ih =>
      rw [List.foldl_append, List.foldl_cons, List.foldl_nil]
      have hconcat := leavesAmong_concat dag nodes e fileId
      by_cases hfile : fileId = ""
      · subst hfile
        rw [if_pos (Or.inl rfl)]
        split
        · exact (ih "").trans (if_pos (Or.inl rfl))
        · rename_i hleaf
          rw [get_addLeaf, if_neg (not_or.1 hleaf).1]
          exact (ih "").trans (if_pos (Or.inl rfl))
      · by_cases hleaf : e.2.fileId = fileId ∧ e.1 ∉ hasChild dag
        · obtain ⟨rfl, hchild⟩ := hleaf
          have hsome : ¬ (e.2.fileId = "" ∨ leavesAmong dag nodes e.2.fileId ++ [e.1] = []) :=
            not_or.2 ⟨hfile, List.append_ne_nil_of_right_ne_nil _ (List.cons_ne_nil _ _)⟩
          rw [hconcat.trans (if_pos ⟨rfl, hchild⟩), if_neg hsome,
            if_neg (not_or.2 ⟨hfile, hchild⟩), get_addLeaf, if_pos rfl, ih]
          split
          · rename_i hnone
            rw [hnone.resolve_left hfile]
            rfl
          · rfl
        · rw [hconcat.trans (if_neg hleaf), ← ih]
          split
          · rfl
          · rename_i hadds
            rw [get_addLeaf, if_neg fun h => hleaf ⟨h, (not_or.1 hadds).2⟩]

theorem sameAnswers {dag dag' : VersionDag} (h : SameGraph dag dag') : SameAnswers dag dag' := by
  have hedges := edges_eq h.parents
  have hanc : ∀ x d, IsAncestor dag x d ↔ IsAncestor dag' x d := by
    intro x d
    rw [IsAncestor, IsAncestor, hedges]
  have hproper : ∀ x d, IsProperAncestor dag x d ↔ IsProperAncestor dag' x d := by
    intro x d
    rw [IsProperAncestor, IsProperAncestor, hedges]
  have hleaves : ∀ fileId, (leaves dag fileId).Perm (leaves dag' fileId) := by
    intro fileId
    have hnodup : ∀ dag : VersionDag, (leaves dag fileId).Nodup := fun dag =>
      dag.nodup.sublist (List.filter_sublist.map _)
    refine (List.perm_ext_iff_of_nodup (hnodup dag) (hnodup dag')).2 fun x => ?_
    have hfile : ∀ dag : VersionDag, (∃ node, dag.get x = some node ∧ node.fileId = fileId) ↔
        (dag.get x).map (·.fileId) = some fileId := fun dag => by simp
    rw [mem_leaves_iff, mem_leaves_iff, hfile, hfile, h.fileId]
    exact and_congr_right fun _ => forall_congr' fun v => not_congr (h.parents v).mem_iff
  refine ⟨h, hleaves, fun fileId => ?_, fun a d => ?_, fun a b => ?_⟩
  · rw [get_leavesByFile, get_leavesByFile]
    have hempty : leaves dag fileId = [] ↔ leaves dag' fileId = [] :=
      ⟨fun h => List.Perm.nil_eq (h ▸ hleaves fileId) |>.symm, fun h =>
        List.Perm.eq_nil (h ▸ hleaves fileId)⟩
    by_cases hnone : fileId = "" ∨ leaves dag fileId = []
    · rw [if_pos hnone, if_pos (hnone.imp_right hempty.1)]
      exact .none
    · rw [if_neg hnone, if_neg (mt (Or.imp_right hempty.2) hnone)]
      exact .some (hleaves fileId)
  · rw [Bool.eq_iff_iff, isAncestor_iff, isAncestor_iff]
    exact hanc a d
  · exact mergeBase_congr (fun _ _ => trivial) (fun _ _ => trivial) (fun x d _ => hanc x d)
      fun x d _ => hproper x d

theorem clone_eq (dag : VersionDag) : clone dag = dag := JsMap.ofList_entries dag

end Same

section Changes

variable {dag : VersionDag} {versionId : String} {known added : List String} {b : Bool}

theorem addParents_fst :
    (addParents versionId added (known, b)).1 = unionParents versionId known added := by
  induction added generalizing known b with
  | nil => rfl
  | cons p rest ih =>
      rw [addParents, unionParents, List.foldl_cons, List.foldl_cons]
      dsimp only
      split
      · exact ih
      · exact ih

theorem addParents_snd : (addParents versionId added (known, b)).2 = true ↔
    b = true ∨ ∃ p ∈ added, p ≠ versionId ∧ p ∉ known := by
  induction added generalizing known b with
  | nil => simp [addParents]
  | cons p rest ih =>
      rw [addParents, List.foldl_cons]
      dsimp only
      split
      · rename_i hp
        refine ih.trans (or_congr_right ?_)
        constructor
        · rintro ⟨q, hq, hnew⟩
          exact ⟨q, List.mem_cons_of_mem p hq, hnew⟩
        · rintro ⟨q, hq, hnew⟩
          rcases List.mem_cons.1 hq with rfl | hq
          · exact absurd hp (not_or.2 hnew)
          · exact ⟨q, hq, hnew⟩
      · rename_i hp
        rw [not_or] at hp
        refine iff_of_true (ih.2 (Or.inl rfl)) (Or.inr ⟨p, List.mem_cons_self, hp⟩)

/-- No parent that is new: the set stays. -/
theorem unionParents_of_known (h : ∀ p ∈ added, p = versionId ∨ p ∈ known) :
    unionParents versionId known added = known := by
  induction added with
  | nil => rfl
  | cons p rest ih =>
      rw [unionParents, List.foldl_cons, if_pos (h p List.mem_cons_self)]
      exact ih fun q hq => h q (List.mem_cons_of_mem p hq)

theorem backfill_fst (node : VersionNode) (r : EdgeRecord) : (backfill node r).1 =
    { node with
      contentHash := if node.contentHash = "" then r.c else node.contentHash
      fileId := if node.fileId = "" then r.f else node.fileId } := by
  by_cases hc : node.contentHash = "" <;> by_cases hrc : r.c = "" <;>
    by_cases hf : node.fileId = "" <;> by_cases hrf : r.f = "" <;> simp [backfill, hc, hrc, hf, hrf]

theorem backfill_snd {node : VersionNode} {r : EdgeRecord} : (backfill node r).2 = true ↔
    node.contentHash = "" ∧ r.c ≠ "" ∨ node.fileId = "" ∧ r.f ≠ "" := by
  simp [backfill]

theorem addVersionChanged_fst (dag : VersionDag) (r : EdgeRecord) :
    (addVersionChanged dag r).1 = addVersion dag r.v r.p r.c r.f := by
  rw [addVersionChanged, addVersion]
  cases dag.get r.v with
  | none => simp only [addParents_fst]
  | some node => simp only [addParents_fst, backfill_fst]

/-- An answer of `false` is no change at all. -/
theorem unchanged {r : EdgeRecord} (h : (addVersionChanged dag r).2 = false) :
    addVersion dag r.v r.p r.c r.f = dag := by
  rw [addVersionChanged] at h
  cases hget : dag.get r.v with
  | none =>
      simp only [hget] at h
      exact absurd (addParents_snd.2 (Or.inl rfl)) (Bool.eq_false_iff.1 h)
  | some node =>
      simp only [hget] at h
      have hnot := mt addParents_snd.2 (Bool.eq_false_iff.1 h)
      rw [not_or, backfill_snd, not_or] at hnot
      obtain ⟨⟨hhash, hfile⟩, hparents⟩ := hnot
      rw [backfill_fst] at hparents
      have hknown : ∀ p ∈ r.p, p = r.v ∨ p ∈ node.parents := by
        intro p hp
        by_contra hnew
        exact hparents ⟨p, hp, not_or.1 hnew⟩
      have hc : (if node.contentHash = "" then r.c else node.contentHash) = node.contentHash := by
        split
        · rename_i hempty
          rw [hempty]
          exact not_not.1 fun hrc => hhash ⟨hempty, hrc⟩
        · rfl
      have hf : (if node.fileId = "" then r.f else node.fileId) = node.fileId := by
        split
        · rename_i hempty
          rw [hempty]
          exact not_not.1 fun hrf => hfile ⟨hempty, hrf⟩
        · rfl
      rw [addVersion, hget]
      dsimp only
      rw [unionParents_of_known hknown, hc, hf]
      exact JsMap.set_of_get hget

theorem not_sameGraph_of_changed {r : EdgeRecord} (h : (addVersionChanged dag r).2 = true) :
    ¬ SameGraph dag (addVersion dag r.v r.p r.c r.f) := by
  intro hsame
  rw [addVersionChanged] at h
  cases hget : dag.get r.v with
  | none =>
      have hhas := hsame.has r.v
      rw [addVersion, hget] at hhas
      simp [JsMap.has, hget] at hhas
  | some node =>
      simp only [hget] at h
      have hc := hsame.contentHash r.v
      have hf := hsame.fileId r.v
      have hp := hsame.parents r.v
      rw [addVersion, hget] at hc hf hp
      rw [parentsOf_of_get hget, parentsOf_of_get (JsMap.get_set_self _ _ _)] at hp
      simp only [JsMap.get_set_self, Option.map_some, Option.some.injEq] at hc hf
      rcases addParents_snd.1 h with hfilled | ⟨p, hmem, hself, hnew⟩
      · rcases backfill_snd.1 hfilled with ⟨hempty, hr⟩ | ⟨hempty, hr⟩
        · rw [if_pos hempty, hempty] at hc
          exact hr hc.symm
        · rw [if_pos hempty, hempty] at hf
          exact hr hf.symm
      · rw [backfill_fst] at hnew
        exact hnew (hp.mem_iff.2 (mem_unionParents_iff.2 (Or.inr ⟨hmem, hself⟩)))

end Changes

section Described

variable {dag dag' : VersionDag} {l l' : List EdgeRecord} {v : String} {value value' : String}
  {field : EdgeRecord → String}

/-- Neither is known, or both are and are equal. -/
def Agree (x y : String) : Prop := x = "" ∨ y = "" ∨ x = y

/-- Records of one version never disagree on its hash or its file. -/
def Consistent (l : List EdgeRecord) : Prop :=
  ∀ r ∈ l, ∀ r' ∈ l, r.v = r'.v → Agree r.c r'.c ∧ Agree r.f r'.f

/-- A field of a version has what some record says of it, and is empty only if they all are. -/
def Told (l : List EdgeRecord) (v : String) (field : EdgeRecord → String) (value : String) : Prop :=
  (∃ r ∈ l, r.v = v ∧ field r = value) ∧ (value = "" → ∀ r ∈ l, r.v = v → field r = "")

/-- The graph holds what the records say together. -/
structure Describes (l : List EdgeRecord) (dag : VersionDag) : Prop where
  has : ∀ v, dag.has v = true ↔ ∃ r ∈ l, r.v = v
  parents : ∀ v p, p ∈ parentsOf dag v ↔ p ≠ v ∧ ∃ r ∈ l, r.v = v ∧ p ∈ r.p
  nodup : ∀ v, (parentsOf dag v).Nodup
  contentHash : ∀ v node, dag.get v = some node → Told l v (·.c) node.contentHash
  fileId : ∀ v node, dag.get v = some node → Told l v (·.f) node.fileId

/-- What two agreeing lists of the same records tell is the same. -/
theorem told_unique (hsame : ∀ r, r ∈ l ↔ r ∈ l')
    (hagree : ∀ r ∈ l, ∀ r' ∈ l, r.v = r'.v → Agree (field r) (field r'))
    (h : Told l v field value) (h' : Told l' v field value') : value = value' := by
  obtain ⟨⟨r, hr, hv, rfl⟩, hempty⟩ := h
  obtain ⟨⟨r', hr', hv', rfl⟩, hempty'⟩ := h'
  rcases hagree r hr r' ((hsame r').2 hr') (hv.trans hv'.symm) with h | h | h
  · rw [h, hempty h r' ((hsame r').2 hr') hv']
  · rw [h, hempty' h r ((hsame r).1 hr) hv]
  · exact h

theorem sameGraph_of_describes (hsame : ∀ r, r ∈ l ↔ r ∈ l') (hc : Consistent l)
    (h : Describes l dag) (h' : Describes l' dag') : SameGraph dag dag' := by
  have hhas : ∀ v, dag.has v = dag'.has v := by
    intro v
    rw [Bool.eq_iff_iff, h.has, h'.has]
    exact exists_congr fun r => and_congr_left' (hsame r)
  have hfields : ∀ (part : VersionNode → String) (field : EdgeRecord → String),
      (∀ v node, dag.get v = some node → Told l v field (part node)) →
      (∀ v node, dag'.get v = some node → Told l' v field (part node)) →
      (∀ r ∈ l, ∀ r' ∈ l, r.v = r'.v → Agree (field r) (field r')) →
      ∀ v, (dag.get v).map part = (dag'.get v).map part := by
    intro part field htold htold' hagree v
    have hv := hhas v
    rw [JsMap.has, JsMap.has] at hv
    cases hget : dag.get v with
    | none =>
        rw [hget] at hv
        rw [Option.not_isSome_iff_eq_none.1 (Bool.eq_false_iff.1 hv.symm)]
    | some node =>
        rw [hget] at hv
        obtain ⟨node', hget'⟩ := Option.isSome_iff_exists.1 hv.symm
        rw [hget', Option.map_some, Option.map_some,
          told_unique hsame hagree (htold v node hget) (htold' v node' hget')]
  refine ⟨hhas, fun v => ?_, ?_, ?_⟩
  · refine (List.perm_ext_iff_of_nodup (h.nodup v) (h'.nodup v)).2 fun p => ?_
    rw [h.parents, h'.parents]
    exact and_congr_right fun _ => exists_congr fun r => and_congr_left' (hsame r)
  · exact hfields (·.contentHash) (·.c) h.contentHash h'.contentHash fun r hr r' hr' hv =>
      (hc r hr r' hr' hv).1
  · exact hfields (·.fileId) (·.f) h.fileId h'.fileId fun r hr r' hr' hv => (hc r hr r' hr' hv).2

theorem nodup_unionParents {known added : List String} (h : known.Nodup) :
    (unionParents v known added).Nodup := by
  induction added generalizing known with
  | nil => exact h
  | cons p rest ih =>
      rw [unionParents, List.foldl_cons]
      split
      · exact ih h
      · rename_i hp
        exact ih (List.nodup_append.2 ⟨h, List.nodup_singleton p, fun a ha b hb hab =>
          (not_or.1 hp).2 (List.mem_singleton.1 hb ▸ hab ▸ ha)⟩)

theorem told_other {r : EdgeRecord} (hv : r.v ≠ v) (h : Told l v field value) :
    Told (l ++ [r]) v field value := by
  obtain ⟨⟨r', hr', hsaid⟩, hempty⟩ := h
  refine ⟨⟨r', List.mem_append_left _ hr', hsaid⟩, fun hvalue s hs hsv => ?_⟩
  rcases List.mem_append.1 hs with hs | hs
  · exact hempty hvalue s hs hsv
  · rw [List.mem_singleton.1 hs] at hsv
    exact absurd hsv hv

theorem told_first {r : EdgeRecord} (h : ∀ s ∈ l, s.v ≠ r.v) :
    Told (l ++ [r]) r.v field (field r) := by
  have hmem : r ∈ l ++ [r] := List.mem_append_right _ (List.mem_singleton_self r)
  refine ⟨⟨r, hmem, rfl, rfl⟩, fun hvalue s hs hsv => ?_⟩
  rcases List.mem_append.1 hs with hs | hs
  · exact absurd hsv (h s hs)
  · rwa [List.mem_singleton.1 hs]

theorem told_again {r : EdgeRecord} (h : Told l r.v field value) :
    Told (l ++ [r]) r.v field (if value = "" then field r else value) := by
  obtain ⟨⟨s, hs, hsaid⟩, hempty⟩ := h
  split
  · rename_i hvalue
    have hmem : r ∈ l ++ [r] := List.mem_append_right _ (List.mem_singleton_self r)
    refine ⟨⟨r, hmem, rfl, rfl⟩, fun hr t ht htv => ?_⟩
    rcases List.mem_append.1 ht with ht | ht
    · exact hempty hvalue t ht htv
    · rwa [List.mem_singleton.1 ht]
  · rename_i hvalue
    exact ⟨⟨s, List.mem_append_left _ hs, hsaid⟩, fun h => absurd h hvalue⟩

theorem get_addVersion_ne {r : EdgeRecord} (hv : r.v ≠ v) :
    (addVersion dag r.v r.p r.c r.f).get v = dag.get v := by
  rw [addVersion]
  split
  · exact JsMap.get_set_ne dag _ hv
  · exact JsMap.get_set_ne dag _ hv

theorem exists_concat {r : EdgeRecord} {P : EdgeRecord → Prop} :
    (∃ s ∈ l ++ [r], P s) ↔ (∃ s ∈ l, P s) ∨ P r := by
  simp [or_and_right, exists_or]

/-- A field of the record's own version, which it tells first or again. -/
theorem told_addVersion (r : EdgeRecord) (part : VersionNode → String)
    (field : EdgeRecord → String) (hhas : dag.has r.v = true ↔ ∃ s ∈ l, s.v = r.v)
    (htold : ∀ node, dag.get r.v = some node → Told l r.v field (part node))
    (hfirst : ∀ parents, part ⟨parents, r.c, r.f⟩ = field r)
    (hagain : ∀ node parents, part
      { parents := parents
        contentHash := if node.contentHash = "" then r.c else node.contentHash
        fileId := if node.fileId = "" then r.f else node.fileId } =
      if part node = "" then field r else part node) {node : VersionNode}
    (hget : (addVersion dag r.v r.p r.c r.f).get r.v = some node) :
    Told (l ++ [r]) r.v field (part node) := by
  rw [addVersion] at hget
  cases hold : dag.get r.v with
  | none =>
      rw [hold] at hget
      dsimp only at hget
      rw [JsMap.get_set_self] at hget
      rw [← Option.some.inj hget, hfirst]
      refine told_first fun s hs hsv => ?_
      have := hhas.2 ⟨s, hs, hsv⟩
      rw [JsMap.has, hold] at this
      cases this
  | some known =>
      rw [hold] at hget
      dsimp only at hget
      rw [JsMap.get_set_self] at hget
      rw [← Option.some.inj hget, hagain]
      exact told_again (htold known hold)

/-- One record more. -/
theorem describes_addVersion (h : Describes l dag) (r : EdgeRecord) :
    Describes (l ++ [r]) (addVersion dag r.v r.p r.c r.f) := by
  refine ⟨fun v => ?_, fun v p => ?_, fun v => ?_, fun v node hget => ?_, fun v node hget => ?_⟩
  · rw [exists_concat, ← h.has, JsMap.has_iff, JsMap.has_iff]
    by_cases hv : r.v = v
    · subst hv
      refine iff_of_true ?_ (Or.inr rfl)
      rw [addVersion]
      split
      · exact ⟨_, JsMap.get_set_self _ _ _⟩
      · exact ⟨_, JsMap.get_set_self _ _ _⟩
    · rw [get_addVersion_ne hv]
      exact (or_iff_left hv).symm
  · rw [mem_parentsOf_addVersion, h.parents, exists_concat, and_or_left]
    apply or_congr_right
    constructor
    · rintro ⟨hv, hp, hne⟩
      exact ⟨hne, hv, hp⟩
    · rintro ⟨hne, hv, hp⟩
      exact ⟨hv, hp, hne⟩
  · rw [addVersion]
    by_cases hv : r.v = v
    · subst hv
      split
      · rw [parentsOf_of_get (JsMap.get_set_self _ _ _)]
        exact nodup_unionParents List.nodup_nil
      · rename_i known hold
        rw [parentsOf_of_get (JsMap.get_set_self _ _ _)]
        exact nodup_unionParents (parentsOf_of_get hold ▸ h.nodup r.v)
    · have hsame : (addVersion dag r.v r.p r.c r.f).get v = dag.get v := get_addVersion_ne hv
      rw [addVersion] at hsame
      rw [parentsOf, hsame]
      exact h.nodup v
  · by_cases hv : r.v = v
    · subst hv
      exact told_addVersion r (·.contentHash) (·.c) (h.has r.v) (h.contentHash r.v)
        (fun _ => rfl) (fun _ _ => rfl) hget
    · rw [get_addVersion_ne hv] at hget
      exact told_other hv (h.contentHash v node hget)
  · by_cases hv : r.v = v
    · subst hv
      exact told_addVersion r (·.fileId) (·.f) (h.has r.v) (h.fileId r.v)
        (fun _ => rfl) (fun _ _ => rfl) hget
    · rw [get_addVersion_ne hv] at hget
      exact told_other hv (h.fileId v node hget)

theorem describes_replay (h : Describes l dag) (more : List EdgeRecord) :
    Describes (l ++ more) (replay dag more) := by
  induction more generalizing l dag with
  | nil =>
      rw [List.append_nil]
      exact h
  | cons r rest ih =>
      have hnext := ih (describes_addVersion h r)
      rwa [List.append_assoc, List.singleton_append] at hnext

theorem describes_empty : Describes [] (.empty : VersionDag) where
  has v := by simp [JsMap.has]
  parents v p := by simp [parentsOf]
  nodup v := by simp [parentsOf]
  contentHash v node h := by cases h
  fileId v node h := by cases h

theorem describes_records (l : List EdgeRecord) : Describes l (replay .empty l) :=
  describes_replay describes_empty l

end Described

section Copies

variable {dag : VersionDag} {l : List EdgeRecord} {Edge : Type}

theorem mem_toJSON_iff {r : EdgeRecord} :
    r ∈ toJSON dag ↔ dag.get r.v = some ⟨r.p, r.c, r.f⟩ := by
  rw [toJSON, List.mem_map]
  constructor
  · rintro ⟨⟨v, node⟩, he, rfl⟩
    exact (JsMap.mem_entries_iff dag).1 he
  · exact fun h => ⟨(r.v, ⟨r.p, r.c, r.f⟩), (JsMap.mem_entries_iff dag).2 h, rfl⟩

theorem told_node {v : String} {node : VersionNode} (h : dag.get v = some node)
    (field : EdgeRecord → String) :
    Told (toJSON dag) v field (field ⟨v, node.parents, node.contentHash, node.fileId⟩) := by
  refine ⟨⟨_, mem_toJSON_iff.2 h, rfl, rfl⟩, fun hvalue r hr hv => ?_⟩
  subst hv
  have hnode := Option.some.inj (h.symm.trans (mem_toJSON_iff.1 hr))
  rw [hnode] at hvalue
  exact hvalue

/-- The snapshot of a graph tells of the graph. -/
theorem describes_toJSON (h : Describes l dag) : Describes (toJSON dag) dag where
  has v := by
    rw [JsMap.has_iff]
    constructor
    · rintro ⟨node, hget⟩
      exact ⟨⟨v, node.parents, node.contentHash, node.fileId⟩, mem_toJSON_iff.2 hget, rfl⟩
    · rintro ⟨r, hr, rfl⟩
      exact ⟨_, mem_toJSON_iff.1 hr⟩
  parents v p := by
    constructor
    · intro hp
      refine ⟨((h.parents v p).1 hp).1, ?_⟩
      cases hget : dag.get v with
      | none =>
          rw [parentsOf, hget] at hp
          exact absurd hp List.not_mem_nil
      | some node =>
          rw [parentsOf_of_get hget] at hp
          exact ⟨⟨v, node.parents, node.contentHash, node.fileId⟩, mem_toJSON_iff.2 hget, rfl, hp⟩
    · rintro ⟨-, r, hr, rfl, hp⟩
      rwa [parentsOf_of_get (mem_toJSON_iff.1 hr)]
  nodup := h.nodup
  contentHash v node hget := told_node hget (·.c)
  fileId v node hget := told_node hget (·.f)

theorem consistent_toJSON (dag : VersionDag) : Consistent (toJSON dag) := by
  intro r hr r' hr' hv
  have hget := mem_toJSON_iff.1 hr
  rw [hv] at hget
  have hnode := Option.some.inj (hget.symm.trans (mem_toJSON_iff.1 hr'))
  obtain ⟨-, hc, hf⟩ := VersionNode.mk.inj hnode
  exact ⟨Or.inr (Or.inr hc), Or.inr (Or.inr hf)⟩

/-- The snapshot, read in whatever order its keys come. -/
theorem sameGraph_fromJSON (h : Describes l dag) {records : List EdgeRecord}
    (hrecords : records.Perm (toJSON dag)) : SameGraph dag (fromJSON records) :=
  sameGraph_of_describes (fun _ => hrecords.mem_iff.symm) (consistent_toJSON dag)
    (describes_toJSON h) (describes_records records)

theorem recordEdges_append (dag : VersionDag) (l more : List EdgeRecord) :
    recordEdges dag (l ++ more) =
      more.foldl (fun s r =>
        let added := addVersionChanged s.1 r
        (added.1, if added.2 then s.2 ++ [r] else s.2)) (recordEdges dag l) :=
  List.foldl_append

/-- Recording goes to the graph that the journaled edges alone lead to. -/
theorem recordEdges_spec (dag : VersionDag) (l : List EdgeRecord) :
    (recordEdges dag l).1 = replay dag l ∧ replay dag (recordEdges dag l).2 = replay dag l := by
  induction l using List.reverseRecOn with
  | nil => exact ⟨rfl, rfl⟩
  | append_singleton l r ih =>
      rw [recordEdges_append, List.foldl_cons, List.foldl_nil, replay_append]
      dsimp only
      rw [addVersionChanged_fst, ih.1]
      refine ⟨rfl, ?_⟩
      split
      · rw [replay_append, ih.2]
      · rename_i hsame
        rw [ih.2]
        exact (unchanged (Bool.eq_false_iff.2 hsame)).symm

/-- A round's edges: the ops without the moves, and of these the journal gets what is new. -/
theorem recordVersionEdges_spec (dag : VersionDag) (ops : List Operation) :
    (recordVersionEdges dag ops).1 = replay dag ((ops.filter (·.type ≠ .move)).map edgeOf) ∧
      replay dag (recordVersionEdges dag ops).2 = (recordVersionEdges dag ops).1 :=
  ⟨(recordEdges_spec dag _).1, (recordEdges_spec dag _).2.trans (recordEdges_spec dag _).1.symm⟩

theorem mem_of_journaled {r : EdgeRecord} (h : r ∈ (recordEdges dag l).2) : r ∈ l := by
  induction l using List.reverseRecOn with
  | nil => exact h
  | append_singleton l s ih =>
      rw [recordEdges_append, List.foldl_cons, List.foldl_nil] at h
      dsimp only at h
      split at h
      · rcases List.mem_append.1 h with h | h
        · exact List.mem_append_left _ (ih h)
        · exact List.mem_append_right _ h
      · exact List.mem_append_left _ (ih h)

/-- Records that say nothing new are as consistent as those they repeat. -/
theorem consistent_of_said {more : List EdgeRecord} (hc : Consistent l)
    (h : ∀ r ∈ more, (∃ s ∈ l, s.v = r.v ∧ s.c = r.c) ∧ ∃ s ∈ l, s.v = r.v ∧ s.f = r.f) :
    Consistent more := by
  intro r hr r' hr' hv
  obtain ⟨⟨s, hs, hsv, hsc⟩, t, ht, htv, htf⟩ := h r hr
  obtain ⟨⟨s', hs', hsv', hsc'⟩, t', ht', htv', htf'⟩ := h r' hr'
  rw [← hsc, ← hsc', ← htf, ← htf']
  exact ⟨(hc s hs s' hs' (hsv.trans (hv.trans hsv'.symm))).1,
    (hc t ht t' ht' (htv.trans (hv.trans htv'.symm))).2⟩

/-- A store that was compacted before it journaled the rest loads the graph of all the records. -/
theorem sameGraph_load {before more records : List EdgeRecord} (hc : Consistent (before ++ more))
    (hrecords : records.Perm (toJSON (replay .empty before))) (F : EdgeFormat Edge)
    {edges : List Edge} (hedges : edges.map F.edge = (recordEdges (replay .empty before) more).2) :
    SameGraph (replay .empty (before ++ more))
      (load F (opened (some records) (text F.toCodec edges))) := by
  have hload : load F (opened (some records) (text F.toCodec edges)) =
      replay (fromJSON records) (recordEdges (replay .empty before) more).2 := by
    rw [load, opened, records_text, hedges]
    rfl
  have hbefore := describes_records before
  rw [hload, replay_append, ← (recordEdges_spec (replay .empty before) more).2]
  refine sameGraph_of_describes (fun r => ?_) (consistent_of_said hc fun r hr => ?_)
    (describes_replay (describes_toJSON hbefore) _) (describes_replay (describes_records records) _)
  · rw [List.mem_append, List.mem_append, hrecords.mem_iff]
  · rcases List.mem_append.1 hr with hr | hr
    · have hget := mem_toJSON_iff.1 hr
      obtain ⟨s, hs, hsaid⟩ := (hbefore.contentHash r.v _ hget).1
      obtain ⟨t, ht, htold⟩ := (hbefore.fileId r.v _ hget).1
      exact ⟨⟨s, List.mem_append_left _ hs, hsaid⟩, t, List.mem_append_left _ ht, htold⟩
    · have hmem := List.mem_append_right before (mem_of_journaled hr)
      exact ⟨⟨r, hmem, rfl, rfl⟩, r, hmem, rfl, rfl⟩

end Copies

section OrderFree

/-- What is the same for all orders in which the records may come, and survives the copies. -/
structure OrderFree (l l' : List EdgeRecord) : Prop where
  order : SameAnswers (replay .empty l) (replay .empty l')
  changed : ∀ r, (addVersionChanged (replay .empty l) r).2 = true ↔
    ¬ SameGraph (replay .empty l) (addVersionChanged (replay .empty l) r).1
  json : ∀ records, records.Perm (toJSON (replay .empty l)) →
    SameAnswers (replay .empty l) (fromJSON records)
  clone : clone (replay .empty l) = replay .empty l
  journal : ∀ {Edge : Type} (F : EdgeFormat Edge) (edges : List Edge),
    edges.map F.edge = (recordEdges .empty l).2 →
      load F (opened none (text F.toCodec edges)) = replay .empty l
  snapshot : ∀ {Edge : Type} (F : EdgeFormat Edge) (edges : List Edge) before more records,
    l = before ++ more → records.Perm (toJSON (replay .empty before)) →
      edges.map F.edge = (recordEdges (replay .empty before) more).2 →
        SameAnswers (replay .empty l) (load F (opened (some records) (text F.toCodec edges)))

theorem sameGraph_refl (dag : VersionDag) : SameGraph dag dag :=
  ⟨fun _ => rfl, fun _ => .refl _, fun _ => rfl, fun _ => rfl⟩

theorem changed_iff (dag : VersionDag) (r : EdgeRecord) : (addVersionChanged dag r).2 = true ↔
    ¬ SameGraph dag (addVersionChanged dag r).1 := by
  rw [addVersionChanged_fst]
  constructor
  · exact not_sameGraph_of_changed
  · intro hnot
    by_contra hsame
    rw [unchanged (Bool.eq_false_iff.2 hsame)] at hnot
    exact hnot (sameGraph_refl dag)

theorem recording_orderFree {l l' : List EdgeRecord} (hc : Consistent l)
    (hsame : ∀ r, r ∈ l ↔ r ∈ l') : OrderFree l l' where
  order := sameAnswers
    (sameGraph_of_describes hsame hc (describes_records l) (describes_records l'))
  changed := changed_iff _
  json records hrecords := sameAnswers (sameGraph_fromJSON (describes_records l) hrecords)
  clone := clone_eq _
  journal F edges hedges := by
    rw [load, opened, records_text, hedges]
    exact (recordEdges_spec .empty l).2
  snapshot F edges before more records hl hrecords hedges := by
    subst hl
    exact sameAnswers (sameGraph_load hc hrecords F hedges)

/-- A stub, its version's own edge, and the edge with a parent learned later. -/
def learned : List EdgeRecord :=
  [⟨"b", ["a"], "", ""⟩, ⟨"b", [], "h", "f"⟩, ⟨"b", ["c", "a"], "h", ""⟩]

theorem recording_orderFree_learned : Consistent learned ∧
    OrderFree learned (learned.reverse ++ learned) := by
  have hc : Consistent learned := by unfold Consistent Agree; decide
  exact ⟨hc, recording_orderFree hc (by simp [learned, or_comm, or_left_comm])⟩

end OrderFree

end OpsBlobs.VersionRecords
