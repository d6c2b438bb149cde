import OpsBlobs.Patch

namespace OpsBlobs.Diff3Symmetry

open Diff3 DiffLines EditScript Patch Slice

section Hunks

variable {α : Type}

def WellFormed (hs : List (Hunk α)) : Prop := ∀ h ∈ hs, h.ancStart ≤ h.ancEnd

theorem hunksInteract_comm (a b : Hunk α) : hunksInteract a b = hunksInteract b a := by
  unfold hunksInteract
  rw [Nat.max_comm, Nat.min_comm]
  by_cases h : max b.ancStart a.ancStart < min b.ancEnd a.ancEnd
  · rw [if_pos h, if_pos h]
  · rw [if_neg h, if_neg h]
    cases isInsert a <;> cases isInsert b <;>
      simp [eq_comm (a := a.ancStart) (b := b.ancStart)]

theorem takeLocal_comm {a b : Hunk α} (ha : a.ancStart ≤ a.ancEnd) (hb : b.ancStart ≤ b.ancEnd)
    (h : hunksInteract a b = false) : takeLocal b a = !takeLocal a b := by
  unfold takeLocal
  by_cases hs : a.ancStart = b.ancStart
  · simp only [hs, ne_eq, not_true_eq_false, if_false]
    by_cases hi : isInsert a = isInsert b
    · exfalso
      unfold hunksInteract at h
      cases hb' : isInsert b with
      | true => simp [hi, hb', hs] at h
      | false =>
          have ha' : isInsert a = false := hi.trans hb'
          simp only [isInsert, decide_eq_false_iff_not] at ha' hb'
          rw [if_pos (by omega)] at h
          simp at h
    · cases ha' : isInsert a <;> cases hb' : isInsert b <;> simp_all
  · rcases Nat.lt_or_gt_of_ne hs with hlt | hlt
    · simp [hs, Ne.symm hs, hlt, Nat.lt_asymm hlt]
    · simp [hs, Ne.symm hs, hlt, Nat.lt_asymm hlt]

theorem takeLocal_le {a b : Hunk α} (h : takeLocal a b = true) : a.ancStart ≤ b.ancStart := by
  unfold takeLocal at h
  split at h
  · exact Nat.le_of_lt (by simpa using h)
  · exact Nat.le_of_eq (not_not.1 ‹_›)

theorem le_of_not_takeLocal {a b : Hunk α} (h : ¬ takeLocal a b = true) :
    b.ancStart ≤ a.ancStart := by
  unfold takeLocal at h
  split at h
  · simpa using h
  · exact Nat.le_of_eq (Eq.symm (not_not.1 ‹_›))

def frontPairs (lh : Hunk α) (next : List (Hunk α) → List (Hunk α × Hunk α)) :
    List (Hunk α) → List (Hunk α × Hunk α)
  | [] => next []
  | rh :: remote =>
      if hunksInteract lh rh then (lh, rh) :: next remote
      else if takeLocal lh rh then next (rh :: remote)
      else frontPairs lh next remote

/-- The pairs of hunks that reach the front of both sides together and interact there. -/
def jointPairs : List (Hunk α) → List (Hunk α) → List (Hunk α × Hunk α)
  | [] => fun _ => []
  | lh :: localHunks => frontPairs lh (jointPairs localHunks)

theorem jointPairs_nil_left (remote : List (Hunk α)) : jointPairs [] remote = [] := rfl

theorem jointPairs_nil_right (localHunks : List (Hunk α)) : jointPairs localHunks [] = [] := by
  induction localHunks with
  | nil => rfl
  | cons lh localHunks ih => exact ih

theorem jointPairs_cons_cons (lh rh : Hunk α) (localHunks remote : List (Hunk α)) :
    jointPairs (lh :: localHunks) (rh :: remote) =
      if hunksInteract lh rh then (lh, rh) :: jointPairs localHunks remote
      else if takeLocal lh rh then jointPairs localHunks (rh :: remote)
      else jointPairs (lh :: localHunks) remote := rfl

def Clashing (p : Hunk α × Hunk α) : Prop := ¬ BothInsert p ∧ p.1.lines ≠ p.2.lines

/-- Two inserts at one gap that read the same in either order. -/
def Commuting (p : Hunk α × Hunk α) : Prop :=
  BothInsert p → p.1.lines ++ p.2.lines = p.2.lines ++ p.1.lines

theorem jointPairs_swap : ∀ (localHunks remote : List (Hunk α)), WellFormed localHunks →
    WellFormed remote → jointPairs remote localHunks = (jointPairs localHunks remote).map Prod.swap := by
  refine loop_induction ?_ ?_ ?_ ?_
  · exact fun _ _ => rfl
  · exact fun rh remote _ _ _ => by rw [jointPairs_nil_right, jointPairs_nil_left, List.map_nil]
  · exact fun lh localHunks _ _ _ => by rw [jointPairs_nil_right, jointPairs_nil_left, List.map_nil]
  · intro lh localHunks rh remote ihBoth ihLeft ihRight hl hr
    have hl' : WellFormed localHunks := fun x hx => hl x (List.mem_cons_of_mem _ hx)
    have hr' : WellFormed remote := fun x hx => hr x (List.mem_cons_of_mem _ hx)
    rw [jointPairs_cons_cons, jointPairs_cons_cons, hunksInteract_comm rh lh]
    by_cases hi : hunksInteract lh rh = true
    · simp only [hi, if_true, List.map_cons, Prod.swap_prod_mk, ihBoth hl' hr']
    · have ht := takeLocal_comm (hl lh (by simp)) (hr rh (by simp)) (Bool.not_eq_true _ ▸ hi)
      by_cases hlt : takeLocal lh rh = true
      · simp only [hi, hlt, ht, if_true, Bool.not_true, Bool.false_eq_true, if_false]
        exact ihLeft hl' hr
      · simp only [hi, hlt, ht, Bool.not_false, Bool.false_eq_true, if_true, if_false]
        exact ihRight hl hr'

theorem clashing_swap (p : Hunk α × Hunk α) : Clashing p.swap ↔ Clashing p := by
  simp only [Clashing, BothInsert, Prod.fst_swap, Prod.snd_swap, ne_eq, eq_comm, and_left_comm]

/-- Two runs in step: same position, equally long output, and equal output exactly when `b`. -/
structure InStep (st st' : MergeState α) (b : Prop) : Prop where
  pos : st.pos = st'.pos
  length : st.merged.length = st'.merged.length
  merged : st.merged = st'.merged ↔ b

theorem inStep_emitEqual {st st' : MergeState α} {b : Prop} (h : InStep st st' b)
    (ancestor : List α) (next : Nat) :
    InStep (emitEqual ancestor next st) (emitEqual ancestor next st') b := by
  refine ⟨?_, ?_, ?_⟩
  · rw [pos_emitEqual, pos_emitEqual, h.pos]
  · rw [merged_emitEqual, merged_emitEqual, h.pos, List.length_append, List.length_append, h.length]
  · rw [merged_emitEqual, merged_emitEqual, h.pos, List.append_left_inj]
    exact h.merged

theorem inStep_mergeOneSided {st st' : MergeState α} {b : Prop} (h : InStep st st' b)
    (hunk : Hunk α) : InStep (mergeOneSided hunk st) (mergeOneSided hunk st') b := by
  refine ⟨?_, ?_, ?_⟩
  · simp only [mergeOneSided, h.pos]
  · simp only [mergeOneSided, List.length_append, h.length]
  · simp only [mergeOneSided, List.append_left_inj]
    exact h.merged

end Hunks

section Loop

variable {α : Type} [DecidableEq α]

theorem conflicts_mergeJointly (ancestor : List α) (lh rh : Hunk α) (st : MergeState α) :
    (mergeJointly ancestor lh rh st).conflicts = [] ↔ st.conflicts = [] ∧ ¬ Clashing (lh, rh) := by
  by_cases hb : BothInsert (lh, rh)
  · rw [mergeJointly_insert ancestor st hb]
    split <;> simp [Clashing, hb]
  · rw [mergeJointly_overlap ancestor st hb]
    split
    · simp [Clashing, *]
    · simp [Clashing, *]

theorem conflicts_mergeHunks (ancestor : List α) : ∀ (localHunks remote : List (Hunk α))
    (st : MergeState α), (mergeHunks ancestor localHunks remote st).conflicts = [] ↔
      st.conflicts = [] ∧ ∀ p ∈ jointPairs localHunks remote, ¬ Clashing p := by
  refine loop_induction ?_ ?_ ?_ ?_
  · simp [mergeHunks_nil_nil, jointPairs_nil_left]
  · intro rh remote ih st
    rw [mergeHunks_nil_cons, ih]
    simp [jointPairs_nil_left]
  · intro lh localHunks ih st
    rw [mergeHunks_cons_nil, ih]
    simp [jointPairs_nil_right]
  · intro lh localHunks rh remote ihBoth ihLeft ihRight st
    rw [mergeHunks_cons_cons, jointPairs_cons_cons]
    by_cases hi : hunksInteract lh rh = true
    · simp only [hi, if_true, ihBoth, conflicts_mergeJointly, conflicts_emitEqual,
        List.forall_mem_cons, and_assoc]
    · by_cases ht : takeLocal lh rh = true
      · simp only [hi, ht, Bool.false_eq_true, if_true, if_false, ihLeft, conflicts_mergeOneSided,
          conflicts_emitEqual]
      · simp only [hi, ht, Bool.false_eq_true, if_false, ihRight, conflicts_mergeOneSided,
          conflicts_emitEqual]

theorem inStep_mergeJointly {st st' : MergeState α} {b : Prop} (h : InStep st st' b)
    (ancestor : List α) {lh rh : Hunk α} (hc : ¬ Clashing (lh, rh)) :
    InStep (mergeJointly ancestor lh rh st) (mergeJointly ancestor rh lh st')
      (b ∧ Commuting (lh, rh)) := by
  have hswap : BothInsert (rh, lh) ↔ BothInsert (lh, rh) := by
    simp only [BothInsert, eq_comm, ← and_assoc, and_comm]
  by_cases hb : BothInsert (lh, rh)
  · rw [mergeJointly_insert ancestor st hb, mergeJointly_insert ancestor st' (hswap.2 hb)]
    by_cases hl : lh.lines = rh.lines
    · rw [if_pos hl, if_pos hl.symm]
      refine ⟨h.pos, ?_, ?_⟩
      · simp only [List.length_append, h.length, hl]
      · simp only [hl, List.append_left_inj, Commuting, implies_true, and_true]
        exact h.merged
    · rw [if_neg hl, if_neg (Ne.symm hl)]
      refine ⟨h.pos, ?_, ?_⟩
      · simp only [List.length_append, h.length, Nat.add_comm rh.lines.length]
      · have hlen := h.length
        refine ⟨fun heq => ?_, fun hbc => ?_⟩
        · obtain ⟨h₁, h₂⟩ := List.append_inj heq hlen
          exact ⟨h.merged.1 h₁, fun _ => h₂⟩
        · simp only [h.merged.2 hbc.1, hbc.2 hb]
  · have hl : lh.lines = rh.lines := by
      by_contra hne
      exact hc ⟨hb, hne⟩
    rw [mergeJointly_overlap ancestor st hb,
      mergeJointly_overlap ancestor st' (fun hs => hb (hswap.1 hs)), if_pos hl, if_pos hl.symm]
    refine ⟨?_, ?_, ?_⟩
    · simp only [h.pos]
      omega
    · simp only [List.length_append, h.length, hl]
    · simp only [hl, List.append_left_inj]
      exact ⟨fun heq => ⟨h.merged.1 heq, fun hb' => absurd hb' hb⟩, fun hbc => h.merged.2 hbc.1⟩

theorem inStep_mergeHunks (ancestor : List α) : ∀ (localHunks remote : List (Hunk α))
    (st st' : MergeState α) (b : Prop), WellFormed localHunks → WellFormed remote →
      (∀ p ∈ jointPairs localHunks remote, ¬ Clashing p) → InStep st st' b →
      InStep (mergeHunks ancestor localHunks remote st) (mergeHunks ancestor remote localHunks st')
        (b ∧ ∀ p ∈ jointPairs localHunks remote, Commuting p) := by
  refine loop_induction ?_ ?_ ?_ ?_
  · intro st st' b _ _ _ h
    simpa [mergeHunks_nil_nil, jointPairs_nil_left] using h
  · intro rh remote ih st st' b hl hr hc h
    rw [mergeHunks_nil_cons, mergeHunks_cons_nil]
    exact ih _ _ _ hl (fun x hx => hr x (List.mem_cons_of_mem _ hx)) hc
      (inStep_mergeOneSided (inStep_emitEqual h ancestor rh.ancStart) rh)
  · intro lh localHunks ih st st' b hl hr hc h
    rw [mergeHunks_nil_cons, mergeHunks_cons_nil]
    rw [jointPairs_nil_right] at hc ⊢
    have := ih _ _ _ (fun x hx => hl x (List.mem_cons_of_mem _ hx)) hr
      (by rwa [jointPairs_nil_right])
      (inStep_mergeOneSided (inStep_emitEqual h ancestor lh.ancStart) lh)
    rwa [jointPairs_nil_right] at this
  · intro lh localHunks rh remote ihBoth ihLeft ihRight st st' b hl hr hc h
    have hl' : WellFormed localHunks := fun x hx => hl x (List.mem_cons_of_mem _ hx)
    have hr' : WellFormed remote := fun x hx => hr x (List.mem_cons_of_mem _ hx)
    have he := inStep_emitEqual h ancestor (min lh.ancStart rh.ancStart)
    rw [mergeHunks_cons_cons, mergeHunks_cons_cons, hunksInteract_comm rh lh,
      Nat.min_comm rh.ancStart]
    rw [jointPairs_cons_cons] at hc ⊢
    by_cases hi : hunksInteract lh rh = true
    · simp only [hi, if_true, List.forall_mem_cons] at hc ⊢
      rw [← and_assoc]
      exact ihBoth _ _ _ hl' hr' hc.2 (inStep_mergeJointly he ancestor hc.1)
    · have ht := takeLocal_comm (hl lh (by simp)) (hr rh (by simp)) (Bool.not_eq_true _ ▸ hi)
      by_cases hlt : takeLocal lh rh = true
      · simp only [hi, hlt, ht, if_true, Bool.not_true, Bool.false_eq_true, if_false] at hc ⊢
        exact ihLeft _ _ _ hl' hr hc (inStep_mergeOneSided he lh)
      · simp only [hi, hlt, ht, if_true, Bool.not_false, Bool.false_eq_true, if_false] at hc ⊢
        exact ihRight _ _ _ hl hr' hc (inStep_mergeOneSided he rh)

/-- What two devices that run the merge in opposite roles must agree on. -/
def Agree (r r' : ThreeWayMergeResult α) : Prop :=
  r.hasConflicts = r'.hasConflicts ∧ (r.hasConflicts = false → r.merged = r'.merged)

theorem hasConflicts_mergeFromDiffs (ancestor : List α) (localDiff remoteDiff : List (DiffOp α)) :
    (mergeFromDiffs ancestor localDiff remoteDiff).hasConflicts = false ↔
      ∀ p ∈ jointPairs (toHunks localDiff) (toHunks remoteDiff), ¬ Clashing p := by
  simp only [mergeFromDiffs, Bool.not_eq_false', List.isEmpty_iff, conflicts_emitEqual,
    conflicts_mergeHunks, true_and]

theorem agree_mergeFromDiffs {ancestor localLines remote : List α}
    {localDiff remoteDiff : List (DiffOp α)} (hls : IsScript localDiff ancestor localLines)
    (hrs : IsScript remoteDiff ancestor remote) :
    Agree (mergeFromDiffs ancestor localDiff remoteDiff) (mergeFromDiffs ancestor remoteDiff localDiff) ↔
      (∃ p ∈ jointPairs (toHunks localDiff) (toHunks remoteDiff), Clashing p) ∨
        ∀ p ∈ jointPairs (toHunks localDiff) (toHunks remoteDiff), Commuting p := by
  have hl := ordered_wellFormed (patches_toHunks hls).1
  have hr := ordered_wellFormed (patches_toHunks hrs).1
  have hfalse : (mergeFromDiffs ancestor remoteDiff localDiff).hasConflicts = false ↔
      (mergeFromDiffs ancestor localDiff remoteDiff).hasConflicts = false := by
    rw [hasConflicts_mergeFromDiffs, hasConflicts_mergeFromDiffs, jointPairs_swap _ _ hl hr]
    simp only [List.forall_mem_map, clashing_swap]
  have hflags : (mergeFromDiffs ancestor localDiff remoteDiff).hasConflicts =
      (mergeFromDiffs ancestor remoteDiff localDiff).hasConflicts := by
    cases h : (mergeFromDiffs ancestor localDiff remoteDiff).hasConflicts with
    | false => exact (hfalse.2 h).symm
    | true =>
        cases h' : (mergeFromDiffs ancestor remoteDiff localDiff).hasConflicts with
        | false => simp [hfalse.1 h'] at h
        | true => rfl
  by_cases hclash : ∃ p ∈ jointPairs (toHunks localDiff) (toHunks remoteDiff), Clashing p
  · refine iff_of_true ⟨hflags, fun hno => ?_⟩ (Or.inl hclash)
    obtain ⟨p, hp, hc⟩ := hclash
    exact absurd hc ((hasConflicts_mergeFromDiffs ancestor localDiff remoteDiff).1 hno p hp)
  · have hno : ∀ p ∈ jointPairs (toHunks localDiff) (toHunks remoteDiff), ¬ Clashing p :=
      fun p hp hc => hclash ⟨p, hp, hc⟩
    have hstart : InStep (⟨[], [], 0⟩ : MergeState α) ⟨[], [], 0⟩ True := ⟨rfl, rfl, by simp⟩
    have hrun := inStep_emitEqual (inStep_mergeHunks ancestor _ _ _ _ _ hl hr hno hstart) ancestor
      ancestor.length
    have hmerged := hrun.merged
    rw [true_and] at hmerged
    refine ⟨fun h => Or.inr (hmerged.1 (h.2 ((hasConflicts_mergeFromDiffs _ _ _).2 hno))), ?_⟩
    rintro (hc | hcomm)
    · exact absurd hc hclash
    · exact ⟨hflags, fun _ => hmerged.2 hcomm⟩

end Loop

/-- Both orders return and agree. -/
def Commutes (ancestorText localText remoteText : Text) : Prop :=
  ∃ r r', threeWayMerge ancestorText localText remoteText = some r ∧
    threeWayMerge ancestorText remoteText localText = some r' ∧ Agree r r'

def TwoEqual (ancestorText localText remoteText : Text) : Prop :=
  normalizeLines localText = normalizeLines remoteText ∨
    normalizeLines localText = normalizeLines ancestorText ∨
    normalizeLines remoteText = normalizeLines ancestorText

/-- Two of the texts are equal, or both diffs return and the jointly classified hunks either
clash somewhere or are, where both insert at one gap, the same in either order. -/
def OrderFree (ancestorText localText remoteText : Text) : Prop :=
  TwoEqual ancestorText localText remoteText ∨
    ∃ localDiff remoteDiff,
      diffLines (normalizeLines ancestorText) (normalizeLines localText) = some localDiff ∧
      diffLines (normalizeLines ancestorText) (normalizeLines remoteText) = some remoteDiff ∧
      ((∃ p ∈ jointPairs (toHunks localDiff) (toHunks remoteDiff), Clashing p) ∨
        ∀ p ∈ jointPairs (toHunks localDiff) (toHunks remoteDiff), Commuting p)

theorem commutes_of_twoEqual {ancestorText localText remoteText : Text}
    (h : TwoEqual ancestorText localText remoteText) :
    Commutes ancestorText localText remoteText := by
  unfold Commutes threeWayMerge
  simp only [joinLines_inj]
  by_cases hlr : normalizeLines localText = normalizeLines remoteText
  · simp [hlr, Agree]
  · rcases h with h | h | h
    · exact absurd h hlr
    · have hra : normalizeLines remoteText ≠ normalizeLines ancestorText := fun he => hlr (h.trans he.symm)
      simp [h, hra, Ne.symm hra, Agree]
    · have hla : normalizeLines localText ≠ normalizeLines ancestorText := fun he => hlr (he.trans h.symm)
      simp [h, hla, Ne.symm hla, Agree]

theorem threeWayMerge_of_not_twoEqual {ancestorText localText remoteText : Text}
    (h : ¬ TwoEqual ancestorText localText remoteText) :
    threeWayMerge ancestorText localText remoteText =
      (diffLines (normalizeLines ancestorText) (normalizeLines localText)).bind fun localDiff =>
        (diffLines (normalizeLines ancestorText) (normalizeLines remoteText)).bind fun remoteDiff =>
          some (mergeFromDiffs (normalizeLines ancestorText) localDiff remoteDiff) := by
  simp only [TwoEqual, not_or] at h
  unfold threeWayMerge
  simp only [joinLines_inj, h, if_false]
  rfl

theorem threeWayMerge_commutes_iff (ancestorText localText remoteText : Text) :
    Commutes ancestorText localText remoteText ↔ OrderFree ancestorText localText remoteText := by
  by_cases h : TwoEqual ancestorText localText remoteText
  · exact iff_of_true (commutes_of_twoEqual h) (Or.inl h)
  · have h' : ¬ TwoEqual ancestorText remoteText localText := by
      rintro (he | he | he)
      · exact h (Or.inl he.symm)
      · exact h (Or.inr (Or.inr he))
      · exact h (Or.inr (Or.inl he))
    simp only [Commutes, OrderFree, h, false_or, threeWayMerge_of_not_twoEqual h,
      threeWayMerge_of_not_twoEqual h', Option.bind_eq_some_iff,
      Option.some.injEq]
    constructor
    · rintro ⟨r, r', ⟨ld, hl, rd, hr, rfl⟩, ⟨rd', hr', ld', hl', rfl⟩, hagree⟩
      obtain rfl : ld = ld' := Option.some.inj (hl.symm.trans hl')
      obtain rfl : rd = rd' := Option.some.inj (hr.symm.trans hr')
      exact ⟨ld, rd, hl, hr, (agree_mergeFromDiffs (isScript_diffLines hl) (isScript_diffLines hr)).1 hagree⟩
    · rintro ⟨ld, rd, hl, hr, hfree⟩
      exact ⟨_, _, ⟨ld, hl, rd, hr, rfl⟩, ⟨rd, hr, ld, hl, rfl⟩,
        (agree_mergeFromDiffs (isScript_diffLines hl) (isScript_diffLines hr)).2 hfree⟩

/-- Two appends to one note come out in a different order on the two devices. -/
theorem threeWayMerge_not_commutative :
    ¬ ∀ ancestorText localText remoteText, Commutes ancestorText localText remoteText := by
  intro h
  obtain ⟨r, r', hr, hr', -, hmerged⟩ := h "a".toList "a\nx".toList "a\ny".toList
  have hl : threeWayMerge "a".toList "a\nx".toList "a\ny".toList =
      some ⟨["a".toList, "x".toList, "y".toList], [], false⟩ := by decide
  have hs : threeWayMerge "a".toList "a\ny".toList "a\nx".toList =
      some ⟨["a".toList, "y".toList, "x".toList], [], false⟩ := by decide
  rw [hl] at hr
  rw [hs] at hr'
  obtain rfl := Option.some.inj hr
  obtain rfl := Option.some.inj hr'
  exact absurd (hmerged rfl) (by decide)

end OpsBlobs.Diff3Symmetry
