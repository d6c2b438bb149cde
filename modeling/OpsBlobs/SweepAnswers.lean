import OpsBlobs.VersionSweep

namespace OpsBlobs.SweepAnswers

open Relation Types GraphWalk VersionDag VersionGraph FileRegistry VersionSweep

def node (v : VersionAddition) : VersionNode := ⟨v.parents, v.contentHash, v.fileId⟩

/-- What may still come: a version that the graph does not know, or one it knows as it
knows it, made from versions that it knows or that come too. -/
structure Later (dag : VersionDag) (s : List VersionAddition) : Prop where
  known : ∀ v ∈ s, ∀ n, dag.get v.versionId = some n → n = node v
  parents : ∀ v ∈ s, ∀ p ∈ v.parents, p ∈ dag.keys ∨ ∃ u ∈ s, u.versionId = p

/-- Two graphs that no merge between a root and one of the versions can tell apart. -/
structure SameAnswers (dag dag' : VersionDag) (roots files versions : List String) : Prop where
  base : ∀ a ∈ roots, ∀ b ∈ versions,
    mergeBase dag a b = mergeBase dag' a b ∧ mergeBase dag b a = mergeBase dag' b a
  ancestor : ∀ a ∈ roots, ∀ b ∈ versions,
    isAncestor dag a b = isAncestor dag' a b ∧ isAncestor dag b a = isAncestor dag' b a
  leaf : ∀ fileId ∈ files, leaves dag fileId = leaves dag' fileId

/-- What is dropped stands apart from what is kept. -/
structure Apart (dag : VersionDag) (roots files : List String) : Prop where
  parents : ∀ x, Dropped dag roots x → ∀ p ∈ parentsOf dag x, Dropped dag roots p
  stubs : (∃ x p, Dropped dag roots x ∧ p ∈ parentsOf dag x) →
    ∀ k, Rooted dag roots k → k ∈ dag.keys
  files : ∀ x n, Dropped dag roots x → dag.get x = some n → n.fileId ∉ files

def Added (s : List VersionAddition) (x y : String) : Prop :=
  ∃ v ∈ s, v.versionId = x ∧ y ∈ v.parents ∧ y ≠ x

section Edges

variable {dag : VersionDag} {roots : List String} {s : List VersionAddition} {x y : String}

theorem edge_iff : Edge (parentsOf (addVersions dag s)) x y ↔
    y ∈ parentsOf dag x ∨ Added s x y := mem_parentsOf_addVersions

theorem edge_swept_iff : Edge (parentsOf (addVersions (sweepToRoots dag roots).1 s)) x y ↔
    (¬ Dropped dag roots x ∧ y ∈ parentsOf dag x) ∨ Added s x y := by
  rw [sweepToRoots_eq]
  refine mem_parentsOf_addVersions.trans (or_congr_left ?_)
  rw [mem_parentsOf_restrict, survives_iff]

theorem edge_of_swept (h : Edge (parentsOf (addVersions (sweepToRoots dag roots).1 s)) x y) :
    Edge (parentsOf (addVersions dag s)) x y :=
  edge_iff.2 ((edge_swept_iff.1 h).imp_left And.right)

theorem edge_survives (hx : ¬ Dropped dag roots x) :
    Edge (parentsOf (addVersions dag s)) x y ↔
      Edge (parentsOf (addVersions (sweepToRoots dag roots).1 s)) x y := by
  refine edge_iff.trans (Iff.trans ?_ edge_swept_iff.symm)
  rw [and_iff_right hx]

theorem isAncestor_of_swept
    (h : IsAncestor (addVersions (sweepToRoots dag roots).1 s) y x) :
    IsAncestor (addVersions dag s) y x := ReflTransGen.mono (fun _ _ => edge_of_swept) _ _ h

theorem added_known (hs : Later dag s) (hx : x ∈ dag.keys) (h : Added s x y) :
    y ∈ parentsOf dag x := by
  obtain ⟨v, hv, rfl, hy, -⟩ := h
  obtain ⟨n, hn⟩ := (JsMap.mem_keys_iff dag).1 hx
  rw [parentsOf_of_get hn, hs.known v hv n hn]
  exact hy

theorem edge_known (hs : Later dag s) (hx : x ∈ dag.keys)
    (h : Edge (parentsOf (addVersions dag s)) x y) : y ∈ parentsOf dag x :=
  (edge_iff.1 h).elim id (added_known hs hx)

end Edges

section Enough

variable {dag : VersionDag} {roots files : List String} {s : List VersionAddition}
  {x d : String} (h : Apart dag roots files) (hs : Later dag s)

include h hs

theorem dropped_of_edge (hx : Dropped dag roots x)
    (he : Edge (parentsOf (addVersions dag s)) x d) : Dropped dag roots d :=
  h.parents x hx d (edge_known hs hx.2.1 he)

/-- Nothing that survives descends from something dropped. -/
theorem survives_of_isAncestor (hx : ¬ Dropped dag roots x)
    (ha : IsAncestor (addVersions dag s) x d) : ¬ Dropped dag roots d :=
  fun hd => hx (invariant_of_reach hd (fun _ hv _ => dropped_of_edge h hs hv) ha)

theorem isAncestor_swept_iff (hx : ¬ Dropped dag roots x) :
    IsAncestor (addVersions dag s) x d ↔
      IsAncestor (addVersions (sweepToRoots dag roots).1 s) x d := by
  refine ⟨fun ha => ?_, isAncestor_of_swept⟩
  induction ha using ReflTransGen.head_induction_on with
  | refl => exact .refl
  | head he hca ih =>
      have hd := survives_of_isAncestor h hs hx (hca.head he)
      exact ih.head ((edge_survives hd).1 he)

theorem isProperAncestor_swept_iff (hx : ¬ Dropped dag roots x) :
    IsProperAncestor (addVersions dag s) x d ↔
      IsProperAncestor (addVersions (sweepToRoots dag roots).1 s) x d := by
  rw [IsProperAncestor, IsProperAncestor, TransGen.head'_iff, TransGen.head'_iff]
  constructor
  · rintro ⟨c, he, ha⟩
    have hd := survives_of_isAncestor h hs hx (ha.head he)
    exact ⟨c, (edge_survives hd).1 he, (isAncestor_swept_iff h hs hx).1 ha⟩
  · rintro ⟨c, he, ha⟩
    exact ⟨c, edge_of_swept he, isAncestor_of_swept ha⟩

theorem leaves_swept {fileId : String} (hf : fileId ∈ files) :
    leaves (addVersions dag s) fileId =
      leaves (addVersions (sweepToRoots dag roots).1 s) fileId := by
  have hfile : ∀ {x n}, Dropped dag roots x → dag.get x = some n →
      ∀ v ∈ s, v.versionId = x → v.fileId = n.fileId := by
    rintro x n - hn v hv rfl
    rw [hs.known v hv n hn]
    rfl
  have hgraph : ∀ {g : VersionDag}, (∀ x n, g.get x = some n → dag.get x = some n) →
      ∀ x n, (addVersions g s).get x = some n → n.fileId = fileId →
        survives dag roots x = true := by
    intro g hg x n hn hx
    apply survives_iff.2
    intro hd
    obtain ⟨known, hknown⟩ := (JsMap.mem_keys_iff dag).1 hd.2.1
    apply h.files x known hd hknown
    have hsame : ∀ n, g.get x = some n → n.fileId = known.fileId :=
      fun n hn => congrArg VersionNode.fileId (Option.some.inj ((hg x n hn).symm.trans hknown))
    rw [← fileId_addVersions hsame (hfile hd hknown) n hn, hx]
    exact hf
  rw [sweepToRoots_eq]
  apply leaves_congr (p := survives dag roots)
  · rw [restrict_addVersions, restrict_addVersions, JsMap.restrict_idem]
  · exact hgraph fun _ _ => id
  · apply hgraph
    intro x n hn
    rw [JsMap.get_restrict] at hn
    split at hn
    · exact hn
    · cases hn
  · intro x hx
    rw [mem_hasChild_iff, mem_hasChild_iff, ← sweepToRoots_eq]
    constructor
    · rintro ⟨v, he⟩
      have hv : ¬ Dropped dag roots v :=
        fun hv => survives_iff.1 hx (dropped_of_edge h hs hv he)
      exact ⟨v, (edge_survives hv).1 he⟩
    · rintro ⟨v, he⟩
      exact ⟨v, edge_of_swept he⟩

end Enough

/-- The two graphs give the same answers once they agree on what descends from the
ancestors of the roots. -/
theorem sameAnswers_of_agree {dag dag' : VersionDag} {roots files versions : List String}
    {T : String → Prop} (hT : ∀ a ∈ roots, ∀ x, IsAncestor dag x a → T x)
    (hsub : ∀ x d, IsAncestor dag' x d → IsAncestor dag x d)
    (h : ∀ x d, T x → (IsAncestor dag x d ↔ IsAncestor dag' x d))
    (hproper : ∀ x d, T x → (IsProperAncestor dag x d ↔ IsProperAncestor dag' x d))
    (hleaf : ∀ fileId ∈ files, leaves dag fileId = leaves dag' fileId) :
    SameAnswers dag dag' roots files versions where
  base := by
    intro a ha b _
    have hbase : mergeBase dag a b = mergeBase dag' a b :=
      mergeBase_congr (hT a ha) (fun x hx => hT a ha x (hsub x a hx)) h hproper
    refine ⟨hbase, ?_⟩
    rw [mergeBase_comm, hbase, mergeBase_comm]
  ancestor := by
    intro a ha b _
    constructor
    · apply Bool.eq_iff_iff.2
      rw [isAncestor_iff, isAncestor_iff]
      exact h a b (hT a ha a .refl)
    · apply Bool.eq_iff_iff.2
      rw [isAncestor_iff, isAncestor_iff]
      exact ⟨fun hb => (h b a (hT a ha b hb)).1 hb, hsub b a⟩
  leaf := hleaf

section Exact

variable {dag : VersionDag} {roots files : List String} {s : List VersionAddition}
  {x y z : String}

theorem rooted_of_root (hroots : ∀ a ∈ roots, a ≠ "") (h : x ∈ roots) : Rooted dag roots x :=
  reach_of_mem (List.mem_filter.2 ⟨h, decide_eq_true (hroots x h)⟩)

theorem mem_of_rooted (h : Rooted dag roots x) : x ∈ roots ∨ x ∈ hasChild dag := by
  obtain ⟨root, hroot, h⟩ := h
  cases h with
  | refl => exact Or.inl (List.mem_filter.1 hroot).1
  | tail _ he => exact Or.inr (mem_hasChild_iff.2 ⟨_, he⟩)

theorem dropped_or_rooted (h : Dropped dag roots x) (hy : y ∈ dag.keys) :
    Dropped dag roots y ∨ Rooted dag roots y :=
  or_iff_not_imp_right.2 fun hr => ⟨h.1, hy, hr⟩

theorem isAncestor_of_dag (h : IsAncestor dag y x) : IsAncestor (addVersions dag s) y x :=
  ReflTransGen.mono (fun _ _ he => edge_iff.2 (Or.inl he)) _ _ h

theorem sameAnswers_of_apart (hroots : ∀ a ∈ roots, a ≠ "") (h : Apart dag roots files)
    (hs : Later dag s) :
    SameAnswers (addVersions dag s) (addVersions (sweepToRoots dag roots).1 s) roots files
      (s.map (·.versionId)) := by
  by_cases hp : ∃ x p, Dropped dag roots x ∧ p ∈ parentsOf dag x
  · apply sameAnswers_of_agree (T := fun x => ¬ Dropped dag roots x)
    · intro a ha x hx hd
      have hinv : ∀ v, Rooted dag roots v →
          ∀ w, Edge (parentsOf (addVersions dag s)) v w → Rooted dag roots w :=
        fun v hv w he => rooted_parent hv (edge_known hs (h.stubs hp v hv) he)
      exact hd.2.2 (invariant_of_reach (rooted_of_root hroots ha) hinv hx)
    · exact fun x d => isAncestor_of_swept
    · exact fun x d => isAncestor_swept_iff h hs
    · exact fun x d => isProperAncestor_swept_iff h hs
    · exact fun fileId => leaves_swept h hs
  · have hedge : Edge (parentsOf (addVersions dag s)) =
        Edge (parentsOf (addVersions (sweepToRoots dag roots).1 s)) := by
      funext a b
      apply propext
      refine edge_iff.trans (Iff.trans (or_congr_left ?_) edge_swept_iff.symm)
      exact ⟨fun hb => ⟨fun ha => hp ⟨a, b, ha, hb⟩, hb⟩, And.right⟩
    apply sameAnswers_of_agree (T := fun _ => True)
    · exact fun _ _ _ _ => trivial
    · exact fun x d => isAncestor_of_swept
    · intro x d _
      rw [IsAncestor, IsAncestor, hedge]
    · intro x d _
      rw [IsProperAncestor, IsProperAncestor, hedge]
    · exact fun fileId => leaves_swept h hs

/-- What is made from a dropped version alone descends from nothing else after the sweep. -/
theorem ancestor_of_cut (hx : Dropped dag roots x) (hy : y ∉ dag.keys)
    (hyadd : ∀ w, Added s y w → w = x) (hxadd : ∀ w, ¬ Added s x w)
    (hz : IsAncestor (addVersions (sweepToRoots dag roots).1 s) z y) : z = y ∨ z = x := by
  apply invariant_of_reach (I := fun v => v = y ∨ v = x) (Or.inl rfl) _ hz
  rintro v (rfl | rfl) w he
  · rcases edge_swept_iff.1 he with ⟨-, he⟩ | he
    · rw [(mem_keys_or_parentsOf dag v).resolve_left hy] at he
      exact absurd he List.not_mem_nil
    · exact Or.inr (hyadd w he)
  · rcases edge_swept_iff.1 he with ⟨hd, -⟩ | he
    · exact absurd hx hd
    · exact absurd he (hxadd w)

/-- An id that nothing in sight uses. -/
structure Unused (dag : VersionDag) (roots : List String) (y : String) : Prop where
  root : y ∉ roots
  key : y ∉ dag.keys
  child : y ∉ hasChild dag

theorem exists_unused (dag : VersionDag) (roots : List String) : ∃ y, Unused dag roots y := by
  let ids := roots ++ dag.keys ++ hasChild dag
  let y := String.ofList (List.replicate ((ids.map (·.length)).sum + 1) 'v')
  have hy : y ∉ ids := by
    intro h
    have hle := length_le_sum h
    rw [String.length_ofList, List.length_replicate] at hle
    exact absurd hle (Nat.not_succ_le_self _)
  rw [List.mem_append, List.mem_append, not_or, not_or] at hy
  exact ⟨y, hy.1.1, hy.1.2, hy.2⟩

theorem Unused.not_rooted (hy : Unused dag roots y) : ¬ Rooted dag roots y :=
  fun h => (mem_of_rooted h).elim hy.root hy.child

theorem Unused.ne_key (hy : Unused dag roots y) (hx : x ∈ dag.keys) : y ≠ x := by
  rintro rfl
  exact hy.key hx

/-- Two additions, the second made from a version of the graph. -/
theorem later_pair {p : String} {parents : List String} (hx : x ∉ dag.keys) (hy : y ∉ dag.keys)
    (hp : p ∈ dag.keys) (hparents : ∀ q ∈ parents, q ∈ dag.keys) :
    Later dag [⟨x, parents, "", ""⟩, ⟨y, [p], "", ""⟩] where
  known := by
    intro v hv n hn
    have hkey := (JsMap.mem_keys_iff dag).2 ⟨n, hn⟩
    rcases List.mem_pair.1 hv with rfl | rfl
    · exact absurd hkey hx
    · exact absurd hkey hy
  parents := by
    intro v hv q hq
    rcases List.mem_pair.1 hv with rfl | rfl
    · exact Or.inl (hparents q hq)
    · exact Or.inl (List.mem_singleton.1 hq ▸ hp)

theorem added_pair_iff {k : String} {a b v w : String} (hka : k ≠ a) (hyb : y ≠ b) :
    Added [⟨k, [a], "", ""⟩, ⟨y, [b], "", ""⟩] v w ↔ v = k ∧ w = a ∨ v = y ∧ w = b := by
  constructor
  · rintro ⟨u, hu, rfl, hw, -⟩
    rcases List.mem_pair.1 hu with rfl | rfl
    · exact Or.inl ⟨rfl, List.mem_singleton.1 hw⟩
    · exact Or.inr ⟨rfl, List.mem_singleton.1 hw⟩
  · rintro (⟨rfl, rfl⟩ | ⟨rfl, rfl⟩)
    · exact ⟨_, List.mem_cons_self, rfl, List.mem_cons_self, Ne.symm hka⟩
    · exact ⟨_, List.mem_cons_of_mem _ List.mem_cons_self, rfl, List.mem_cons_self, Ne.symm hyb⟩

variable (hroots : ∀ a ∈ roots, a ≠ "") (hsame : ∀ s, Later dag s →
    SameAnswers (addVersions dag s) (addVersions (sweepToRoots dag roots).1 s) roots files
      (s.map (·.versionId)))

include hroots hsame

/-- A peer that builds on a dropped version would lose a base that the roots reach. -/
theorem parent_not_rooted (hx : Dropped dag roots x) {p : String} (hp : p ∈ parentsOf dag x) :
    ¬ Rooted dag roots p := by
  intro hr
  obtain ⟨root, hroot, hrp⟩ := id hr
  have hroot' := (List.mem_filter.1 hroot).1
  obtain ⟨y, hy⟩ := exists_unused dag roots
  have hyx := hy.ne_key hx.2.1
  let s : List VersionAddition := [⟨y, [x], "", ""⟩, ⟨y, [x], "", ""⟩]
  have hs : Later dag s :=
    later_pair hy.key hy.key hx.2.1 (fun q hq => List.mem_singleton.1 hq ▸ hx.2.1)
  have hadd : ∀ v w, Added s v w ↔ v = y ∧ w = x :=
    fun v w => (added_pair_iff hyx hyx).trans or_self_iff
  have hnone : mergeBase (addVersions (sweepToRoots dag roots).1 s) root y = .none := by
    apply mergeBase_eq_none_iff.2
    rintro z ⟨hzroot, hzy⟩
    have hz : Rooted dag roots z := by
      refine invariant_of_reach (rooted_of_root hroots hroot') (fun v hv w he => ?_) hzroot
      rcases edge_swept_iff.1 he with ⟨-, he⟩ | he
      · exact rooted_parent hv he
      · obtain ⟨rfl, -⟩ := (hadd v w).1 he
        exact absurd hv hy.not_rooted
    have hcut := ancestor_of_cut hx hy.key (fun w hw => ((hadd y w).1 hw).2)
      (fun w hw => hyx ((hadd x w).1 hw).1.symm) hzy
    rcases hcut with rfl | rfl
    · exact hy.not_rooted hz
    · exact hx.2.2 hz
  have hbase := ((hsame s hs).base root hroot' y (List.mem_map_of_mem List.mem_cons_self)).1
  rw [hnone, mergeBase_eq_none_iff] at hbase
  apply hbase p
  constructor
  · exact isAncestor_of_dag hrp
  · exact .head (edge_iff.2 (Or.inr ((hadd y x).2 ⟨rfl, rfl⟩))) (isAncestor_of_dag (.single hp))

/-- A version that is pulled late would no longer lead on from what was made from it. -/
theorem parent_recorded (hx : Dropped dag roots x) {p : String} (hp : p ∈ parentsOf dag x) :
    p ∈ dag.keys := by
  by_contra hpkey
  obtain ⟨anchor, hanchor, hhas⟩ := hx.1
  have hanchorkey : anchor ∈ dag.keys :=
    (JsMap.mem_keys_iff dag).2 ((JsMap.has_iff dag anchor).1 hhas)
  obtain ⟨y, hy⟩ := exists_unused dag roots
  have hyx := hy.ne_key hx.2.1
  have hyp : y ≠ p := by
    rintro rfl
    exact hy.child (mem_hasChild_iff.2 ⟨x, hp⟩)
  have hpanchor : p ≠ anchor := by
    rintro rfl
    exact hpkey hanchorkey
  let s : List VersionAddition := [⟨p, [anchor], "", ""⟩, ⟨y, [x], "", ""⟩]
  have hs : Later dag s :=
    later_pair hpkey hy.key hx.2.1 (fun q hq => List.mem_singleton.1 hq ▸ hanchorkey)
  have hadd : ∀ v w, Added s v w ↔ v = p ∧ w = anchor ∨ v = y ∧ w = x :=
    fun v w => added_pair_iff hpanchor hyx
  have hbefore : isAncestor (addVersions dag s) anchor y = true := by
    apply isAncestor_iff.2
    refine .head (edge_iff.2 (Or.inr ((hadd y x).2 (Or.inr ⟨rfl, rfl⟩)))) ?_
    refine .head (edge_iff.2 (Or.inl hp)) ?_
    exact .single (edge_iff.2 (Or.inr ((hadd p anchor).2 (Or.inl ⟨rfl, rfl⟩))))
  have hafter := ((hsame s hs).ancestor anchor hanchor y
    (List.mem_map_of_mem (List.mem_cons_of_mem _ List.mem_cons_self))).1
  rw [hbefore] at hafter
  have hcut : anchor = y ∨ anchor = x := by
    apply ancestor_of_cut hx hy.key _ _ (isAncestor_iff.1 hafter.symm)
    · exact fun w hw => ((hadd y w).1 hw).elim (fun h => absurd h.1 hyp) And.right
    · intro w hw
      rcases (hadd x w).1 hw with ⟨rfl, -⟩ | ⟨h, -⟩
      · exact hpkey hx.2.1
      · exact hyx h.symm
  rcases hcut with rfl | rfl
  · exact hy.root hanchor
  · exact hx.2.2 (rooted_of_root hroots hanchor)

theorem parents_dropped (hx : Dropped dag roots x) {p : String} (hp : p ∈ parentsOf dag x) :
    Dropped dag roots p :=
  ⟨hx.1, parent_recorded hroots hsame hx hp, parent_not_rooted hroots hsame hx hp⟩

/-- A version that the roots name and that is pulled late could be made from a dropped one. -/
theorem stubs_recorded {w k : String} (hx : Dropped dag roots x) (hw : w ∈ parentsOf dag x)
    (hk : Rooted dag roots k) (hacyclic : Acyclic dag) : k ∈ dag.keys := by
  by_contra hkey
  have hwd := parents_dropped hroots hsame hx hw
  have hkx : k ≠ x := by
    rintro rfl
    exact hkey hx.2.1
  obtain ⟨y, hy⟩ := exists_unused dag roots
  have hyx := hy.ne_key hx.2.1
  have hyw := hy.ne_key hwd.2.1
  have hyk : y ≠ k := by
    rintro rfl
    exact hy.not_rooted hk
  obtain ⟨root, hroot, hrk⟩ := id hk
  have hroot' := (List.mem_filter.1 hroot).1
  let s : List VersionAddition := [⟨k, [x], "", ""⟩, ⟨y, [w], "", ""⟩]
  have hs : Later dag s :=
    later_pair hkey hy.key hwd.2.1 (fun q hq => List.mem_singleton.1 hq ▸ hx.2.1)
  have hadd : ∀ u v, Added s u v ↔ u = k ∧ v = x ∨ u = y ∧ v = w :=
    fun u v => added_pair_iff hkx hyw
  have hnone : mergeBase (addVersions (sweepToRoots dag roots).1 s) root y = .none := by
    apply mergeBase_eq_none_iff.2
    rintro z ⟨hzroot, hzy⟩
    have hz : Rooted dag roots z ∨ z = x := by
      apply invariant_of_reach (I := fun z => Rooted dag roots z ∨ z = x)
        (Or.inl (rooted_of_root hroots hroot')) _ hzroot
      rintro u (hu | rfl) v he
      · rcases edge_swept_iff.1 he with ⟨-, he⟩ | he
        · exact Or.inl (rooted_parent hu he)
        · rcases (hadd u v).1 he with ⟨-, rfl⟩ | ⟨rfl, -⟩
          · exact Or.inr rfl
          · exact absurd hu hy.not_rooted
      · rcases edge_swept_iff.1 he with ⟨hd, -⟩ | he
        · exact absurd hx hd
        · rcases (hadd u v).1 he with ⟨h, -⟩ | ⟨h, -⟩
          · exact absurd h.symm hkx
          · exact absurd h.symm hyx
    have hcut : z = y ∨ z = w := by
      apply ancestor_of_cut hwd hy.key _ _ hzy
      · exact fun v hv => ((hadd y v).1 hv).elim (fun h => absurd h.1 hyk) And.right
      · intro v hv
        rcases (hadd w v).1 hv with ⟨rfl, -⟩ | ⟨h, -⟩
        · exact hkey hwd.2.1
        · exact hyw h.symm
    rcases hcut with rfl | rfl
    · exact hz.elim hy.not_rooted hyx
    · refine hz.elim hwd.2.2 (fun h => hacyclic x ?_)
      exact .single (h ▸ hw)
  have hbase := ((hsame s hs).base root hroot' y
    (List.mem_map_of_mem (List.mem_cons_of_mem _ List.mem_cons_self))).1
  rw [hnone, mergeBase_eq_none_iff] at hbase
  apply hbase w
  constructor
  · refine (isAncestor_of_dag hrk).trans ?_
    exact .head (edge_iff.2 (Or.inr ((hadd k x).2 (Or.inl ⟨rfl, rfl⟩))))
      (isAncestor_of_dag (.single hw))
  · exact .single (edge_iff.2 (Or.inr ((hadd y w).2 (Or.inr ⟨rfl, rfl⟩))))

/-- A dropped leaf is missed at once, and one that is not a leaf becomes one when it comes
back alone. -/
theorem files_forgotten {n : VersionNode} (hx : Dropped dag roots x) (hn : dag.get x = some n) :
    n.fileId ∉ files := by
  intro hf
  have hswept : (sweepToRoots dag roots).1.get x = none := by
    rw [sweepToRoots_eq, JsMap.get_restrict, if_neg]
    exact fun h => survives_iff.1 h hx
  by_cases hc : x ∈ hasChild dag
  · let s : List VersionAddition := [⟨x, n.parents, n.contentHash, n.fileId⟩]
    have hs : Later dag s := by
      constructor
      · rintro v hv known hknown
        obtain rfl := List.mem_singleton.1 hv
        exact Option.some.inj (hknown.symm.trans hn)
      · rintro v hv p hp
        obtain rfl := List.mem_singleton.1 hv
        rw [← parentsOf_of_get hn] at hp
        exact Or.inl (parents_dropped hroots hsame hx hp).2.1
    have hleaf := (hsame s hs).leaf n.fileId hf
    have hafter : x ∈ leaves (addVersions (sweepToRoots dag roots).1 s) n.fileId := by
      apply mem_leaves_iff.2
      constructor
      · refine ⟨⟨unionParents x [] n.parents, n.contentHash, n.fileId⟩, ?_, rfl⟩
        simp only [s, addVersions, List.foldl_cons, List.foldl_nil, addVersion, hswept]
        exact JsMap.get_set_self _ x _
      · intro v he
        rcases edge_swept_iff.1 he with ⟨hv, he⟩ | ⟨u, hu, rfl, -, hne⟩
        · refine (dropped_or_rooted hx ?_).elim hv (fun hr => hx.2.2 (rooted_parent hr he))
          exact (mem_keys_or_parentsOf dag v).resolve_right (List.ne_nil_of_mem he)
        · obtain rfl := List.mem_singleton.1 hu
          exact hne rfl
    rw [← hleaf, mem_leaves_iff] at hafter
    obtain ⟨v, hv⟩ := mem_hasChild_iff.1 hc
    exact hafter.2 v (edge_iff.2 (Or.inl hv))
  · have hleaf := (hsame [] ⟨List.forall_mem_nil _, List.forall_mem_nil _⟩).leaf n.fileId hf
    have hbefore : x ∈ leaves dag n.fileId :=
      mem_leaves_iff.2 ⟨⟨n, hn, rfl⟩, fun v hv => hc (mem_hasChild_iff.2 ⟨v, hv⟩)⟩
    simp only [addVersions, List.foldl_nil] at hleaf
    rw [hleaf, mem_leaves_iff, hswept] at hbefore
    obtain ⟨⟨n', hn', -⟩, -⟩ := hbefore
    cases hn'

end Exact

section Sweep

variable {dag : VersionDag} (registry : FileRegistry) (pendingOps : List Operation)

theorem sweepRoots_ne : ∀ a ∈ sweepRoots registry pendingOps, a ≠ "" := by
  intro a ha
  rcases List.mem_append.1 ha with ha | ha
  · obtain ⟨e, -, ha⟩ := List.mem_flatMap.1 ha
    rcases List.mem_append.1 ha with ha | ha
    · have hhead := (Option.filter_eq_some_iff.1 (Option.mem_toList.1 ha)).2
      exact of_decide_eq_true hhead
    · exact of_decide_eq_true (List.mem_filter.1 ha).2
  · obtain ⟨op, -, ha⟩ := List.mem_flatMap.1 ha
    exact of_decide_eq_true (List.mem_filter.1 ha).2

/-- No later merge can tell that the sweep was made, exactly when what it dropped stands
apart from what it kept. -/
theorem sweep_invisible_iff (hacyclic : Acyclic dag) :
    (∀ s, Later dag s → SameAnswers (addVersions dag s)
        (addVersions (sweepToRoots dag (sweepRoots registry pendingOps)).1 s)
        (sweepRoots registry pendingOps) registry.entries.keys (s.map (·.versionId))) ↔
      Apart dag (sweepRoots registry pendingOps) registry.entries.keys := by
  have hroots := sweepRoots_ne registry pendingOps
  constructor
  · intro hsame
    constructor
    · exact fun x hx p hp => parents_dropped hroots hsame hx hp
    · rintro ⟨x, w, hx, hw⟩ k hk
      exact stubs_recorded hroots hsame hx hw hk hacyclic
    · exact fun x n hx hn => files_forgotten hroots hsame hx hn
  · exact fun h s hs => sameAnswers_of_apart hroots h hs

end Sweep

section Example

def trackedAt (versionId : String) : FileEntry where
  id := "f"
  path := "n.md"
  contentHash := "H"
  hlcTimestamp := ⟨0, 0, "a"⟩
  deleted := false
  lastSyncedPath := none
  headVersionId := some versionId
  conflictParents := none
  mtime := none
  size := none

def tracking (versionId : String) : FileRegistry :=
  FileRegistry.empty.insert (trackedAt versionId) rfl

/-- A version that nothing names any more, and the head of another file. -/
def forgottenDag : VersionDag := addVersion (addVersion .empty "o" [] "O" "g") "h" [] "H" "f"

theorem sweep_invisible_example :
    Acyclic forgottenDag ∧ ∀ s, Later forgottenDag s → SameAnswers (addVersions forgottenDag s)
      (addVersions (sweepToRoots forgottenDag (sweepRoots (tracking "h") [])).1 s)
      (sweepRoots (tracking "h") []) (tracking "h").entries.keys (s.map (·.versionId)) := by
  have hacyclic : Acyclic forgottenDag := acyclic_of_rank (fun _ => 0) (by decide)
  have hdropped : ∀ x, Dropped forgottenDag (sweepRoots (tracking "h") []) x → x = "o" := by
    rintro x ⟨-, hx, hr⟩
    rcases List.mem_pair.1 hx with rfl | rfl
    · rfl
    · exact absurd (rooted_of_root (sweepRoots_ne _ _) List.mem_cons_self) hr
  refine ⟨hacyclic, (sweep_invisible_iff (tracking "h") [] hacyclic).2 ?_⟩
  constructor
  · rintro x hx p hp
    rw [hdropped x hx] at hp
    exact absurd hp List.not_mem_nil
  · rintro ⟨x, p, hx, hp⟩
    rw [hdropped x hx] at hp
    exact absurd hp List.not_mem_nil
  · rintro x n hx hn
    rw [hdropped x hx] at hn
    obtain rfl := Option.some.inj hn
    decide

/-- Two versions made from one; the registry names the first of them. -/
def openLeafDag : VersionDag :=
  addVersion (addVersion (addVersion .empty "c" [] "C" "f") "h" ["c"] "H" "f") "l" ["c"] "L" "f"

/-- A peer goes on from the leaf that was swept, and the base of its version is gone. -/
theorem openLeaf_swept :
    Acyclic openLeafDag ∧ Later openLeafDag [⟨"y", ["l"], "Y", "f"⟩] ∧
      mergeBase (addVersions openLeafDag [⟨"y", ["l"], "Y", "f"⟩]) "h" "y" = .base "c" ∧
      mergeBase (addVersions (sweepToRoots openLeafDag (sweepRoots (tracking "h") [])).1
        [⟨"y", ["l"], "Y", "f"⟩]) "h" "y" = .none ∧
      ¬ SameAnswers (addVersions openLeafDag [⟨"y", ["l"], "Y", "f"⟩])
        (addVersions (sweepToRoots openLeafDag (sweepRoots (tracking "h") [])).1
          [⟨"y", ["l"], "Y", "f"⟩])
        (sweepRoots (tracking "h") []) (tracking "h").entries.keys ["y"] := by
  have hbefore : mergeBase (addVersions openLeafDag [⟨"y", ["l"], "Y", "f"⟩]) "h" "y" =
      .base "c" := by decide
  have hafter : mergeBase (addVersions (sweepToRoots openLeafDag (sweepRoots (tracking "h") [])).1
      [⟨"y", ["l"], "Y", "f"⟩]) "h" "y" = .none := by decide
  refine ⟨acyclic_of_rank (fun v => if v = "c" then 0 else 1) (by decide), ⟨?_, ?_⟩, hbefore,
    hafter, fun h => ?_⟩
  · rintro v hv n hn
    obtain rfl := List.mem_singleton.1 hv
    cases hn
  · decide
  · have hbase := (h.base "h" List.mem_cons_self "y" List.mem_cons_self).1
    cases hbefore.symm.trans (hbase.trans hafter)

end Example

end OpsBlobs.SweepAnswers
