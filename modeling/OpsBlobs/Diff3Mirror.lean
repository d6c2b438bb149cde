import OpsBlobs.Diff3Symmetry

namespace OpsBlobs.Diff3Mirror

open Diff3 DiffLines EditScript Patch Slice Diff3Symmetry

variable {α : Type}

def sides (c : ConflictChunk α) : List α × List α × List α :=
  (c.ancestor, c.localLines, c.remoteLines)

def exchanged (c : ConflictChunk α) : List α × List α × List α :=
  (c.ancestor, c.remoteLines, c.localLines)

/-- Both results have a conflict or neither has, and their chunks are the same ones with the
two sides exchanged. -/
def Exchanged (r r' : ThreeWayMergeResult α) : Prop :=
  r'.hasConflicts = r.hasConflicts ∧ r'.conflicts.map exchanged = r.conflicts.map sides

/-- Two runs at the same ancestor line whose conflicts so far are each other's. -/
structure Opposite (st st' : MergeState α) : Prop where
  pos : st'.pos = st.pos
  conflicts : st'.conflicts.map exchanged = st.conflicts.map sides

theorem opposite_emitEqual {st st' : MergeState α} (h : Opposite st st') (ancestor : List α)
    (next : Nat) : Opposite (emitEqual ancestor next st) (emitEqual ancestor next st') := by
  refine ⟨?_, ?_⟩
  · rw [pos_emitEqual, pos_emitEqual, h.pos]
  · rw [conflicts_emitEqual, conflicts_emitEqual, h.conflicts]

theorem opposite_mergeOneSided {st st' : MergeState α} (h : Opposite st st') (hunk : Hunk α) :
    Opposite (mergeOneSided hunk st) (mergeOneSided hunk st') := by
  refine ⟨?_, h.conflicts⟩
  simp only [mergeOneSided, h.pos]

variable [DecidableEq α]

theorem opposite_mergeJointly {st st' : MergeState α} (h : Opposite st st') (ancestor : List α)
    (lh rh : Hunk α) :
    Opposite (mergeJointly ancestor lh rh st) (mergeJointly ancestor rh lh st') := by
  have hswap : BothInsert (rh, lh) ↔ BothInsert (lh, rh) := by
    simp only [BothInsert, eq_comm, ← and_assoc, and_comm]
  have hpos : max (max st'.pos rh.ancEnd) lh.ancEnd = max (max st.pos lh.ancEnd) rh.ancEnd := by
    rw [h.pos]
    omega
  by_cases hb : BothInsert (lh, rh)
  · rw [mergeJointly_insert ancestor st hb, mergeJointly_insert ancestor st' (hswap.2 hb)]
    by_cases hl : lh.lines = rh.lines
    · rw [if_pos hl, if_pos hl.symm]
      exact ⟨h.pos, h.conflicts⟩
    · rw [if_neg hl, if_neg (Ne.symm hl)]
      exact ⟨h.pos, h.conflicts⟩
  · rw [mergeJointly_overlap ancestor st hb,
      mergeJointly_overlap ancestor st' (fun hs => hb (hswap.1 hs))]
    by_cases hl : lh.lines = rh.lines
    · rw [if_pos hl, if_pos hl.symm]
      exact ⟨hpos, h.conflicts⟩
    · rw [if_neg hl, if_neg (Ne.symm hl)]
      refine ⟨hpos, ?_⟩
      rw [List.map_append, List.map_append, h.conflicts, Nat.min_comm, Nat.max_comm]
      rfl

theorem opposite_mergeHunks (ancestor : List α) : ∀ (localHunks remote : List (Hunk α))
    (st st' : MergeState α), WellFormed localHunks → WellFormed remote → Opposite st st' →
      Opposite (mergeHunks ancestor localHunks remote st)
        (mergeHunks ancestor remote localHunks st') := by
  refine loop_induction ?_ ?_ ?_ ?_
  · exact fun st st' _ _ h => h
  · intro rh remote ih st st' hl hr h
    rw [mergeHunks_nil_cons, mergeHunks_cons_nil]
    exact ih _ _ hl (fun x hx => hr x (List.mem_cons_of_mem _ hx))
      (opposite_mergeOneSided (opposite_emitEqual h ancestor rh.ancStart) rh)
  · intro lh localHunks ih st st' hl hr h
    rw [mergeHunks_nil_cons, mergeHunks_cons_nil]
    exact ih _ _ (fun x hx => hl x (List.mem_cons_of_mem _ hx)) hr
      (opposite_mergeOneSided (opposite_emitEqual h ancestor lh.ancStart) lh)
  · intro lh localHunks rh remote ihBoth ihLeft ihRight st st' hl hr h
    have hl' : WellFormed localHunks := fun x hx => hl x (List.mem_cons_of_mem _ hx)
    have hr' : WellFormed remote := fun x hx => hr x (List.mem_cons_of_mem _ hx)
    have he := opposite_emitEqual h ancestor (min lh.ancStart rh.ancStart)
    rw [mergeHunks_cons_cons, mergeHunks_cons_cons, hunksInteract_comm rh lh,
      Nat.min_comm rh.ancStart]
    by_cases hi : hunksInteract lh rh = true
    · simp only [hi, if_true]
      exact ihBoth _ _ hl' hr' (opposite_mergeJointly he ancestor lh rh)
    · have ht := takeLocal_comm (hl lh (by simp)) (hr rh (by simp)) (Bool.not_eq_true _ ▸ hi)
      by_cases hlt : takeLocal lh rh = true
      · simp only [hi, hlt, ht, if_true, Bool.not_true, Bool.false_eq_true, if_false]
        exact ihLeft _ _ hl' hr (opposite_mergeOneSided he lh)
      · simp only [hi, hlt, ht, if_true, Bool.not_false, Bool.false_eq_true, if_false]
        exact ihRight _ _ hl hr' (opposite_mergeOneSided he rh)

theorem exchanged_mergeFromDiffs {ancestor localLines remote : List α}
    {localDiff remoteDiff : List (DiffOp α)} (hls : IsScript localDiff ancestor localLines)
    (hrs : IsScript remoteDiff ancestor remote) :
    Exchanged (mergeFromDiffs ancestor localDiff remoteDiff)
      (mergeFromDiffs ancestor remoteDiff localDiff) := by
  have hrun := opposite_emitEqual (opposite_mergeHunks ancestor _ _ ⟨[], [], 0⟩ ⟨[], [], 0⟩
    (ordered_wellFormed (patches_toHunks hls).1) (ordered_wellFormed (patches_toHunks hrs).1)
    ⟨rfl, rfl⟩) ancestor ancestor.length
  refine ⟨?_, hrun.conflicts⟩
  have hempty := congrArg List.isEmpty hrun.conflicts
  rw [List.isEmpty_map, List.isEmpty_map] at hempty
  exact congrArg Bool.not hempty

theorem twoEqual_swap {ancestorText localText remoteText : Text}
    (h : TwoEqual ancestorText localText remoteText) :
    TwoEqual ancestorText remoteText localText := by
  rcases h with h | h | h
  · exact Or.inl h.symm
  · exact Or.inr (Or.inr h)
  · exact Or.inr (Or.inl h)

theorem threeWayMerge_of_twoEqual {ancestorText localText remoteText : Text}
    (h : TwoEqual ancestorText localText remoteText) :
    ∃ merged, threeWayMerge ancestorText localText remoteText = some ⟨merged, [], false⟩ := by
  unfold threeWayMerge
  simp only [joinLines_inj]
  split
  · exact ⟨_, rfl⟩
  · rename_i hlr
    split
    · exact ⟨_, rfl⟩
    · rename_i hla
      exact ⟨_, if_pos ((h.resolve_left hlr).resolve_left hla)⟩

/-- Run in opposite roles the line merge returns on both devices or on neither, with the
conflicts exchanged. -/
theorem exchanged_threeWayMerge {ancestorText localText remoteText : Text}
    {r : ThreeWayMergeResult Line} (h : threeWayMerge ancestorText localText remoteText = some r) :
    ∃ r', threeWayMerge ancestorText remoteText localText = some r' ∧ Exchanged r r' := by
  by_cases he : TwoEqual ancestorText localText remoteText
  · obtain ⟨merged, hm⟩ := threeWayMerge_of_twoEqual he
    obtain ⟨merged', hm'⟩ := threeWayMerge_of_twoEqual (twoEqual_swap he)
    cases hm.symm.trans h
    exact ⟨_, hm', rfl, rfl⟩
  · rw [threeWayMerge_of_not_twoEqual he] at h
    obtain ⟨localDiff, hl, h⟩ := Option.bind_eq_some_iff.1 h
    obtain ⟨remoteDiff, hr, h⟩ := Option.bind_eq_some_iff.1 h
    cases h
    rw [threeWayMerge_of_not_twoEqual (fun h => he (twoEqual_swap h)), hl, hr]
    exact ⟨_, rfl, exchanged_mergeFromDiffs (isScript_diffLines hl) (isScript_diffLines hr)⟩

end OpsBlobs.Diff3Mirror
