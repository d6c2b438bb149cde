import Mathlib.Data.List.FinRange
import OpsBlobs.Diff3Symmetry
import OpsBlobs.DisjointEdits
import OpsBlobs.JoinedLines

namespace OpsBlobs.MergeFold

open DiffLines EditScript Diff3 Diff3Symmetry JoinedLines DisjointEdits

variable {O : List Line}

/-- Ranges of a text with the lines that replace them. -/
structure Edit (O : List Line) where
  ranges : List (Hunk Line)
  bounds : ∀ h ∈ ranges, h.ancStart ≤ h.ancEnd ∧ h.ancEnd ≤ O.length
  fresh : ∀ h ∈ ranges, ∀ line ∈ h.lines, OneLine line ∧ line ∉ O

/-- An unchanged line stands between the ranges of the two, and no line is inserted by both. -/
def KeepsApart (e e' : Edit O) : Prop :=
  Apart e.ranges e'.ranges ∧ ∀ h ∈ e.ranges, ∀ h' ∈ e'.ranges, ∀ line ∈ h.lines, line ∉ h'.lines

instance (e e' : Edit O) : Decidable (KeepsApart e e') := inferInstanceAs (Decidable (_ ∧ _))

/-- The text is the old one with the edits applied, whatever its line ends. -/
def IsEdited (O : List Line) (H : List (Hunk Line)) (t : Text) : Prop :=
  joinLines (normalizeLines t) = joinLines (edited O H)

instance (H : List (Hunk Line)) (t : Text) : Decidable (IsEdited O H t) :=
  inferInstanceAs (Decidable (_ = _))

section Pair

variable {A B : List (Hunk Line)} {base localText remoteText : Text}

def Fits (O : List Line) (H : List (Hunk Line)) : Prop :=
  ∀ h ∈ H, h.ancStart ≤ h.ancEnd ∧ ∀ line ∈ h.lines, OneLine line ∧ line ∉ O

theorem fits_fresh (h : Fits O A) : Fresh O A := fun x hx line hl => ((h x hx).2 line hl).2

theorem oneLine_edited (hO : ∀ line ∈ O, OneLine line) (h : Fits O A) :
    ∀ line ∈ edited O A, OneLine line := by
  intro line hline
  obtain ⟨g, -, -, hl | ⟨-, hl⟩⟩ := mem_editedFrom.1 hline
  · obtain ⟨x, hx, -, hl⟩ := mem_insertedAt.1 hl
    exact ((h x hx).2 line hl).1
  · exact hO line (List.mem_of_getElem? hl)

theorem lines_of_isEdited (hO : ∀ line ∈ O, OneLine line) (hA : Fits O A)
    (h : IsEdited O A localText) (hne : edited O A ≠ []) :
    normalizeLines localText = edited O A := by
  have hlines := normalizeLines_joinLines (normalizeLines_ne_nil localText)
    fun line hl => oneLine_normalizeLines hl
  rw [← hlines, h]
  exact normalizeLines_joinLines hne (oneLine_edited hO hA)

theorem lines_of_quiet (hA : Quiet (normalizeLines base) A 0 ((normalizeLines base).length + 1))
    (h : IsEdited (normalizeLines base) A localText) :
    normalizeLines localText = normalizeLines base := by
  rw [IsEdited, edited_quiet hA] at h
  exact joinLines_inj.1 h

/-- One merge of two texts that are edited apart from each other. -/
theorem threeWayMerge_edited (hO : (normalizeLines base).Nodup)
    (hA : Fits (normalizeLines base) A) (hB : Fits (normalizeLines base) B) (hap : Apart A B)
    (hnew : ∀ x ∈ A, ∀ y ∈ B, ∀ line ∈ x.lines, line ∉ y.lines)
    (hl : IsEdited (normalizeLines base) A localText)
    (hr : IsEdited (normalizeLines base) B remoteText) :
    ∃ merged, threeWayMerge base localText remoteText = some ⟨merged, [], false⟩ ∧
      joinLines merged = joinLines (edited (normalizeLines base) (A ++ B)) := by
  have hlines : ∀ line ∈ normalizeLines base, OneLine line := fun line h => oneLine_normalizeLines h
  have hne := normalizeLines_ne_nil base
  have hswap : Apart B A := fun y hy x hx => (hap x hx y hy).symm
  by_cases hqB : Quiet (normalizeLines base) B 0 ((normalizeLines base).length + 1)
  · have hsame : edited (normalizeLines base) (A ++ B) = edited (normalizeLines base) A :=
      editedFrom_alike (alike_append_quiet hqB)
    have hrb := lines_of_quiet hqB hr
    rw [hsame, ← hl]
    unfold threeWayMerge
    simp only [joinLines_inj, hrb]
    split
    · exact ⟨_, rfl, rfl⟩
    · exact ⟨_, if_pos trivial, rfl⟩
  by_cases hqA : Quiet (normalizeLines base) A 0 ((normalizeLines base).length + 1)
  · have hsame : edited (normalizeLines base) (A ++ B) = edited (normalizeLines base) B :=
      editedFrom_alike (alike_quiet_append hqA)
    have hlb := lines_of_quiet hqA hl
    rw [hsame, ← hr]
    unfold threeWayMerge
    simp only [joinLines_inj, hlb]
    split
    · rename_i heq
      exact ⟨_, rfl, congrArg joinLines heq⟩
    · exact ⟨_, if_pos trivial, rfl⟩
  have hla := lines_of_isEdited hlines hA hl fun hnil =>
    hqB (quiet_of_edited_nil hne (fun x hx => (hB x hx).1) hap hnil)
  have hra := lines_of_isEdited hlines hB hr fun hnil =>
    hqA (quiet_of_edited_nil hne (fun x hx => (hA x hx).1) hswap hnil)
  have htwo : ¬ TwoEqual base localText remoteText := by
    rintro (h | h | h)
    · rw [hla, hra] at h
      exact hqA (quiet_of_edited_same hO (fits_fresh hA) hap hnew h)
    · exact hqA (quiet_of_edited_eq hO (fits_fresh hA) (hla ▸ h))
    · exact hqB (quiet_of_edited_eq hO (fits_fresh hB) (hra ▸ h))
  obtain ⟨localDiff, remoteDiff, hld, hrd, hmerge⟩ := mergeFromDiffs_edited hO (fits_fresh hA)
    (fits_fresh hB) (fun x hx => (hA x hx).1) (fun x hx => (hB x hx).1) hap
  refine ⟨_, ?_, rfl⟩
  rw [threeWayMerge_of_not_twoEqual htwo, hla, hra, hld, hrd, ← hmerge]
  rfl

end Pair

/-- An order and grouping of the merges of `n` texts. -/
inductive MergeTree (n : Nat)
  | leaf (i : Fin n)
  | node (left right : MergeTree n)

section Fold

variable {n : Nat}

def MergeTree.leaves : MergeTree n → List (Fin n)
  | .leaf i => [i]
  | .node left right => left.leaves ++ right.leaves

/-- `none` if a merge throws or leaves a conflict. -/
def fold (base : Text) (texts : Fin n → Text) : MergeTree n → Option Text
  | .leaf i => some (texts i)
  | .node left right => do
      let localText ← fold base texts left
      let remoteText ← fold base texts right
      let result ← threeWayMerge base localText remoteText
      if result.hasConflicts then none else some (joinLines result.merged)

def allRanges (edits : Fin n → Edit O) (order : List (Fin n)) : List (Hunk Line) :=
  order.flatMap fun i => (edits i).ranges

variable {edits : Fin n → Edit O} {order : List (Fin n)}

theorem fits_allRanges : Fits O (allRanges edits order) := by
  intro h hh
  obtain ⟨i, -, hh⟩ := List.mem_flatMap.1 hh
  exact ⟨((edits i).bounds h hh).1, (edits i).fresh h hh⟩

theorem insertedAt_allRanges (g : Nat) : insertedAt (allRanges edits order) g =
    order.flatMap fun i => insertedAt (edits i).ranges g := by
  induction order with
  | nil => rfl
  | cons i order ih =>
      rw [allRanges, List.flatMap_cons, insertedAt_append, List.flatMap_cons, ← ih]
      rfl

/-- At most one of the edits inserts at a place. -/
theorem one_inserts (hap : ∀ i j, i ≠ j → KeepsApart (edits i) (edits j)) {i j : Fin n} {g : Nat}
    (hi : insertedAt (edits i).ranges g ≠ []) (hj : insertedAt (edits j).ranges g ≠ []) :
    i = j := by
  by_contra hne
  obtain ⟨x, hx⟩ := List.exists_mem_of_ne_nil _ hi
  obtain ⟨y, hy⟩ := List.exists_mem_of_ne_nil _ hj
  obtain ⟨h, hh, hs, -⟩ := mem_insertedAt.1 hx
  obtain ⟨h', hh', hs', -⟩ := mem_insertedAt.1 hy
  have hsep := (hap i j hne).1 h hh h' hh'
  have hwf := ((edits i).bounds h hh).1
  have hwf' := ((edits j).bounds h' hh').1
  unfold Separated at hsep
  omega

/-- The order in which the edits are named is of no matter. -/
theorem edited_perm (hap : ∀ i j, i ≠ j → KeepsApart (edits i) (edits j)) {order' : List (Fin n)}
    (hperm : order.Perm order') (hnodup : order.Nodup) :
    edited O (allRanges edits order) = edited O (allRanges edits order') := by
  refine editedFrom_alike fun g _ _ => ⟨?_, fun _ => ?_⟩
  · rw [insertedAt_allRanges, insertedAt_allRanges]
    have hone : ∀ l : List (Fin n), l.Nodup → ∀ i ∈ l, insertedAt (edits i).ranges g ≠ [] →
        (l.flatMap fun j => insertedAt (edits j).ranges g) = insertedAt (edits i).ranges g := by
      intro l hl i hi hins
      obtain ⟨before, after, rfl⟩ := List.append_of_mem hi
      have hidle : ∀ j ∈ before ++ after, insertedAt (edits j).ranges g = [] := by
        intro j hj
        by_contra hne
        obtain rfl := one_inserts hap hins hne
        exact (List.nodup_cons.1 (List.nodup_middle.1 hl)).1 hj
      rw [List.flatMap_append, List.flatMap_cons,
        List.flatMap_eq_nil_iff.2 fun j hj => hidle j (List.mem_append_left _ hj),
        List.flatMap_eq_nil_iff.2 fun j hj => hidle j (List.mem_append_right _ hj),
        List.nil_append, List.append_nil]
    by_cases hidle : ∀ i ∈ order, insertedAt (edits i).ranges g = []
    · rw [List.flatMap_eq_nil_iff.2 hidle,
        List.flatMap_eq_nil_iff.2 fun i hi => hidle i (hperm.mem_iff.2 hi)]
    · simp only [not_forall] at hidle
      obtain ⟨i, hi, hins⟩ := hidle
      rw [hone order hnodup i hi hins, hone order' (hperm.nodup_iff.1 hnodup) i (hperm.mem_iff.1 hi)
        hins]
  · exact (hperm.flatMap_right _).all_eq

variable {base : Text} {edits : Fin n → Edit (normalizeLines base)} {texts : Fin n → Text}

theorem fold_tree (hbase : (normalizeLines base).Nodup)
    (hap : ∀ i j, i ≠ j → KeepsApart (edits i) (edits j))
    (htexts : ∀ i, IsEdited (normalizeLines base) (edits i).ranges (texts i)) (tree : MergeTree n)
    (hnodup : tree.leaves.Nodup) :
    ∃ t, fold base texts tree = some t ∧
      IsEdited (normalizeLines base) (allRanges edits tree.leaves) t ∧
      ((∀ i, tree ≠ .leaf i) →
        t = joinLines (edited (normalizeLines base) (allRanges edits tree.leaves))) := by
  induction tree with
  | leaf i =>
      refine ⟨texts i, rfl, ?_, fun h => absurd rfl (h i)⟩
      rw [MergeTree.leaves, allRanges, List.flatMap_singleton]
      exact htexts i
  | node left right ihl ihr =>
      obtain ⟨hl, hr, hdisj⟩ := List.nodup_append.1 hnodup
      obtain ⟨lt, hfl, hil, -⟩ := ihl hl
      obtain ⟨rt, hfr, hir, -⟩ := ihr hr
      have hpair : ∀ h ∈ allRanges edits left.leaves, ∀ h' ∈ allRanges edits right.leaves,
          Separated h h' ∧ ∀ line ∈ h.lines, line ∉ h'.lines := by
        intro h hh h' hh'
        obtain ⟨i, hi, hh⟩ := List.mem_flatMap.1 hh
        obtain ⟨j, hj, hh'⟩ := List.mem_flatMap.1 hh'
        have := hap i j (hdisj i hi j hj)
        exact ⟨this.1 h hh h' hh', this.2 h hh h' hh'⟩
      obtain ⟨merged, hmerge, hjoin⟩ := threeWayMerge_edited hbase fits_allRanges fits_allRanges
        (fun h hh h' hh' => (hpair h hh h' hh').1) (fun h hh h' hh' => (hpair h hh h' hh').2) hil hir
      have hleaves : allRanges edits (MergeTree.node left right).leaves =
          allRanges edits left.leaves ++ allRanges edits right.leaves := List.flatMap_append
      rw [← hleaves] at hjoin
      refine ⟨joinLines merged, ?_, ?_, fun _ => hjoin⟩
      · simp [fold, hfl, hfr, hmerge]
      · rw [IsEdited, hjoin]
        exact joinLines_normalizeLines
          (oneLine_edited (fun line h => oneLine_normalizeLines h) fits_allRanges)

/-- Edits that stay apart are merged to the same text in every order and grouping. -/
theorem fold_converges (hbase : (normalizeLines base).Nodup) (hn : 2 ≤ n)
    (hap : ∀ i j, i ≠ j → KeepsApart (edits i) (edits j))
    (htexts : ∀ i, IsEdited (normalizeLines base) (edits i).ranges (texts i)) (tree : MergeTree n)
    (htree : tree.leaves.Perm (List.finRange n)) :
    fold base texts tree = some (joinLines
      (edited (normalizeLines base) (allRanges edits (List.finRange n)))) := by
  have hnodup : tree.leaves.Nodup := htree.nodup_iff.2 (List.nodup_finRange n)
  obtain ⟨t, hfold, -, ht⟩ := fold_tree hbase hap htexts tree hnodup
  rw [hfold, ht, edited_perm hap htree hnodup]
  rintro i rfl
  have := htree.length_eq
  simp [MergeTree.leaves] at this
  omega

end Fold

section Devices

/-- Three devices edit one note: the first line, the third, and behind the last. -/
def deviceEdits : Fin 3 → Edit (normalizeLines "a\nb\nc\nd".toList)
  | 0 => ⟨[⟨0, 1, ["A".toList]⟩], by decide, by decide⟩
  | 1 => ⟨[⟨2, 3, []⟩], by decide, by decide⟩
  | 2 => ⟨[⟨4, 4, ["e".toList]⟩], by decide, by decide⟩

def deviceTexts : Fin 3 → Text
  | 0 => "A\nb\nc\nd".toList
  | 1 => "a\nb\nd".toList
  | 2 => "a\nb\nc\nd\ne".toList

theorem fold_converges_devices :
    fold "a\nb\nc\nd".toList deviceTexts (.node (.node (.leaf 2) (.leaf 0)) (.leaf 1)) =
      some "A\nb\nd\ne".toList :=
  (@fold_converges _ _ deviceEdits _ (by decide) (by decide) (by decide) (by decide) _
    (by decide)).trans (by decide)

end Devices

end OpsBlobs.MergeFold
