import OpsBlobs.DiffLines

namespace OpsBlobs.EditScript

open DiffLines LongestIncreasing Slice

variable {α : Type}

/-- The lines an op list takes from the old text and gives to the new one. -/
def oldLines (ops : List (DiffOp α)) : List α :=
  ops.flatMap (fun op => if op.type = .insert then [] else op.lines)

def newLines (ops : List (DiffOp α)) : List α :=
  ops.flatMap (fun op => if op.type = .delete then [] else op.lines)

structure IsScript (ops : List (DiffOp α)) (a b : List α) : Prop where
  old : oldLines ops = a
  new : newLines ops = b

/-- Matched pairs that rise on both sides inside the ranges still to be emitted. -/
def Matches (a b : List α) (aHi bHi : Nat) : Nat → Nat → List (Nat × Nat) → Prop
  | ai, bi, [] => ai ≤ aHi ∧ bi ≤ bHi
  | ai, bi, (la, lb) :: rest =>
      ai ≤ la ∧ la < aHi ∧ bi ≤ lb ∧ lb < bHi ∧ a[la]? = b[lb]? ∧
        Matches a b aHi bHi (la + 1) (lb + 1) rest

@[simp] theorem oldLines_append (xs ys : List (DiffOp α)) :
    oldLines (xs ++ ys) = oldLines xs ++ oldLines ys := List.flatMap_append

@[simp] theorem newLines_append (xs ys : List (DiffOp α)) :
    newLines (xs ++ ys) = newLines xs ++ newLines ys := List.flatMap_append

@[simp] theorem oldLines_cons (op : DiffOp α) (ops : List (DiffOp α)) :
    oldLines (op :: ops) = (if op.type = .insert then [] else op.lines) ++ oldLines ops := rfl

@[simp] theorem newLines_cons (op : DiffOp α) (ops : List (DiffOp α)) :
    newLines (op :: ops) = (if op.type = .delete then [] else op.lines) ++ newLines ops := rfl

@[simp] theorem oldLines_nil : oldLines ([] : List (DiffOp α)) = [] := rfl

@[simp] theorem newLines_nil : newLines ([] : List (DiffOp α)) = [] := rfl

theorem isScript_append {xs ys : List (DiffOp α)} {a a' b b' : List α} (hx : IsScript xs a b)
    (hy : IsScript ys a' b') : IsScript (xs ++ ys) (a ++ a') (b ++ b') :=
  ⟨by rw [oldLines_append, hx.old, hy.old], by rw [newLines_append, hx.new, hy.new]⟩

theorem isScript_equal (x : α) : IsScript [⟨.equal, [x]⟩] [x] [x] := ⟨rfl, rfl⟩

theorem isScript_delete (xs : List α) : IsScript [⟨.delete, xs⟩] xs [] :=
  ⟨List.append_nil xs, rfl⟩

theorem isScript_insert (xs : List α) : IsScript [⟨.insert, xs⟩] [] xs :=
  ⟨rfl, List.append_nil xs⟩

theorem isScript_deleteGap (a : List α) (ai la : Nat) :
    IsScript (deleteGap a ai la) (slice a ai la) [] := by
  unfold deleteGap
  split
  · exact isScript_delete _
  · exact ⟨(List.drop_eq_nil_of_le (by rw [List.length_take]; omega)).symm, rfl⟩

theorem isScript_insertGap (b : List α) (bi lb : Nat) :
    IsScript (insertGap b bi lb) [] (slice b bi lb) := by
  unfold insertGap
  split
  · exact isScript_insert _
  · exact ⟨rfl, (List.drop_eq_nil_of_le (by rw [List.length_take]; omega)).symm⟩

/-- One matched line and a script for what lies behind it. -/
theorem isScript_match {a b : List α} {ai la aHi bi lb bHi : Nat} {before ops : List (DiffOp α)}
    {x : α} (ha : a[la]? = some x) (hb : b[lb]? = some x) (h₁ : ai ≤ la) (h₂ : la < aHi)
    (h₃ : bi ≤ lb) (h₄ : lb < bHi) (hbefore : IsScript before (slice a ai la) (slice b bi lb))
    (hops : IsScript ops (slice a (la + 1) aHi) (slice b (lb + 1) bHi)) :
    IsScript (before ++ ⟨.equal, [x]⟩ :: ops) (slice a ai aHi) (slice b bi bHi) := by
  have h := isScript_append hbefore (isScript_append (isScript_equal x) hops)
  rwa [List.singleton_append, List.singleton_append, List.singleton_append, ← slice_cons ha h₂, ← slice_cons hb h₄,
    slice_append h₁ (Nat.le_of_lt h₂), slice_append h₃ (Nat.le_of_lt h₄)] at h

theorem matches_mono {a b : List α} {aHi bHi ai ai' bi bi' : Nat} {ps : List (Nat × Nat)}
    (ha : ai ≤ ai') (hb : bi ≤ bi') (h : Matches a b aHi bHi ai' bi' ps) :
    Matches a b aHi bHi ai bi ps := by
  cases ps with
  | nil => exact ⟨Nat.le_trans ha h.1, Nat.le_trans hb h.2⟩
  | cons p rest =>
      obtain ⟨h₁, h₂, h₃, h₄⟩ := h
      exact ⟨Nat.le_trans ha h₁, h₂, Nat.le_trans hb h₃, h₄⟩

theorem matches_of_rises {a b : List α} {aHi bHi : Nat} {ps : List (Nat × Nat)}
    (hr : ps.Pairwise Rises) {ai bi : Nat} (ha : ai ≤ aHi) (hb : bi ≤ bHi)
    (h : ∀ p ∈ ps, ai ≤ p.1 ∧ p.1 < aHi ∧ bi ≤ p.2 ∧ p.2 < bHi ∧ a[p.1]? = b[p.2]?) :
    Matches a b aHi bHi ai bi ps := by
  induction ps generalizing ai bi with
  | nil => exact ⟨ha, hb⟩
  | cons p rest ih =>
      obtain ⟨hp, hrest⟩ := List.pairwise_cons.1 hr
      obtain ⟨h₁, h₂, h₃, h₄, h₅⟩ := h p (by simp)
      refine ⟨h₁, h₂, h₃, h₄, h₅, ih hrest (by omega) (by omega) ?_⟩
      intro q hq
      obtain ⟨-, k₂, -, k₄, k₅⟩ := h q (List.mem_cons_of_mem p hq)
      obtain ⟨r₁, r₂⟩ := hp q hq
      exact ⟨r₁, k₂, r₂, k₄, k₅⟩

theorem isScript_emitFromLCS {a b : List α} {aHi bHi : Nat} {ps : List (Nat × Nat)} {ai bi : Nat}
    {ops : List (DiffOp α)} (hm : Matches a b aHi bHi ai bi ps)
    (h : emitFromLCS a b aHi bHi ai bi ps = some ops) :
    IsScript ops (slice a ai aHi) (slice b bi bHi) := by
  induction ps generalizing ai bi ops with
  | nil =>
      obtain rfl := Option.some.inj h
      have := isScript_append (isScript_deleteGap a ai aHi) (isScript_insertGap b bi bHi)
      rwa [List.append_nil, List.nil_append] at this
  | cons p rest ih =>
      obtain ⟨la, lb⟩ := p
      obtain ⟨h₁, h₂, h₃, h₄, h₅, hrest⟩ := hm
      simp only [emitFromLCS, Option.bind_eq_bind, Option.bind_eq_some_iff] at h
      obtain ⟨line, hline, tail, htail, h⟩ := h
      obtain rfl := Option.some.inj h
      have hgap := isScript_append (isScript_deleteGap a ai la) (isScript_insertGap b bi lb)
      rw [List.append_nil, List.nil_append] at hgap
      exact isScript_match hline (h₅ ▸ hline) h₁ h₂ h₃ h₄ hgap (ih hrest htail)

theorem isScript_betweenAnchors {recurse : Nat → Nat → Nat → Nat → Option (List (DiffOp α))}
    {a b : List α} {aHi bHi : Nat}
    (hrec : ∀ {lo hi lo' hi' : Nat} {ops : List (DiffOp α)}, lo ≤ hi → hi ≤ aHi → lo' ≤ hi' → hi' ≤ bHi →
      recurse lo hi lo' hi' = some ops → IsScript ops (slice a lo hi) (slice b lo' hi'))
    {ps : List (Nat × Nat)} {ai bi : Nat} {ops : List (DiffOp α)}
    (hm : Matches a b aHi bHi ai bi ps)
    (h : betweenAnchors recurse a aHi bHi ai bi ps = some ops) :
    IsScript ops (slice a ai aHi) (slice b bi bHi) := by
  induction ps generalizing ai bi ops with
  | nil => exact hrec hm.1 (Nat.le_refl _) hm.2 (Nat.le_refl _) h
  | cons p rest ih =>
      obtain ⟨la, lb⟩ := p
      obtain ⟨h₁, h₂, h₃, h₄, h₅, hrest⟩ := hm
      simp only [betweenAnchors, Option.bind_eq_bind, Option.bind_eq_some_iff] at h
      obtain ⟨before, hbefore, line, hline, tail, htail, h⟩ := h
      obtain rfl := Option.some.inj h
      exact isScript_match hline (h₅ ▸ hline) h₁ h₂ h₃ h₄
        (hrec h₁ (Nat.le_of_lt h₂) h₃ (Nat.le_of_lt h₄) hbefore) (ih hrest htail)

theorem isScript_pushOp {result : List (DiffOp α)} {a b : List α} (h : IsScript result a b)
    (op : DiffOp α) :
    IsScript (pushOp result op) (a ++ oldLines [op]) (b ++ newLines [op]) := by
  unfold pushOp
  split
  · rename_i hnil
    have ho : oldLines [op] = [] := by simp [hnil]
    have hn : newLines [op] = [] := by simp [hnil]
    rw [ho, hn, List.append_nil, List.append_nil]
    exact h
  split
  · rename_i last hlast
    split
    · rename_i htype
      obtain ⟨front, rfl⟩ : ∃ front, result = front ++ [last] := by
        obtain ⟨front, hfront⟩ := List.getLast?_eq_some_iff.1 hlast
        exact ⟨front, hfront⟩
      rw [List.dropLast_concat]
      obtain ⟨ho, hn⟩ := h
      subst ho hn
      refine ⟨?_, ?_⟩
      · by_cases hi : op.type = .insert <;> simp [htype, hi]
      · by_cases hd : op.type = .delete <;> simp [htype, hd]
    · exact isScript_append h ⟨rfl, rfl⟩
  · exact isScript_append h ⟨rfl, rfl⟩

theorem isScript_coalesceOps {ops : List (DiffOp α)} {a b : List α} (h : IsScript ops a b) :
    IsScript (coalesceOps ops) a b := by
  have hrun : ∀ (ops result : List (DiffOp α)) (a b : List α), IsScript result a b →
      IsScript (ops.foldl pushOp result) (a ++ oldLines ops) (b ++ newLines ops) := by
    intro ops
    induction ops with
    | nil =>
        intro result a b hr
        rw [oldLines_nil, newLines_nil, List.append_nil, List.append_nil]
        exact hr
    | cons op rest ih =>
        intro result a b hr
        have := ih _ _ _ (isScript_pushOp hr op)
        rwa [List.append_assoc, List.append_assoc, ← oldLines_append, ← newLines_append] at this
  have := hrun ops [] [] [] ⟨rfl, rfl⟩
  rwa [List.nil_append, List.nil_append, h.old, h.new] at this

section Diff

variable [DecidableEq α]

theorem countLines_get {a : List α} {lo hi : Nat} {x : α} {idxs : List Nat}
    (h : (countLines a lo hi).get x = some idxs) :
    ∀ i ∈ idxs, lo ≤ i ∧ i < hi ∧ a[i]? = some x := by
  have hrun : ∀ (l : List Nat) (m : JsMap α (List Nat)),
      (∀ y js, m.get y = some js → ∀ i ∈ js, lo ≤ i ∧ i < hi ∧ a[i]? = some y) →
      (∀ i ∈ l, lo ≤ i ∧ i < hi) →
      ∀ y js, (l.foldl (noteIndex a) m).get y = some js → ∀ i ∈ js, lo ≤ i ∧ i < hi ∧ a[i]? = some y := by
    intro l
    induction l with
    | nil => exact fun m hm _ => hm
    | cons k rest ih =>
        intro m hm hl
        refine ih _ ?_ (fun i hi => hl i (List.mem_cons_of_mem k hi))
        intro y js hy i hi
        unfold noteIndex at hy
        cases hk : a[k]? with
        | none =>
            rw [hk] at hy
            exact hm y js hy i hi
        | some line =>
            simp only [hk, JsMap.get_set] at hy
            by_cases hline : line = y
            · subst hline
              rw [if_pos rfl, Option.some.injEq] at hy
              subst hy
              rcases List.mem_append.1 hi with hi | hi
              · cases hget : m.get line with
                | none => simp [hget] at hi
                | some js => exact hm line js hget i (by simpa [hget] using hi)
              · obtain rfl := List.mem_singleton.1 hi
                obtain ⟨h₁, h₂⟩ := hl i (by simp)
                exact ⟨h₁, h₂, hk⟩
            · rw [if_neg hline] at hy
              exact hm y js hy i hi
  refine hrun _ JsMap.empty (by simp) ?_ x idxs h
  intro i hi
  obtain ⟨k, hk, rfl⟩ := List.mem_range'.1 hi
  omega

theorem uniquePair_eq {bCount : JsMap α (List Nat)} {e : α × List Nat} {p : Nat × Nat}
    (h : uniquePair bCount e = some p) : e.2 = [p.1] ∧ bCount.get e.1 = some [p.2] := by
  obtain ⟨line, idxs⟩ := e
  unfold uniquePair at h
  split at h
  · rename_i ai bi h₁ h₂
    obtain rfl := Option.some.inj h
    exact ⟨h₁, h₂⟩
  · simp at h

theorem mem_uniquePairs {a b : List α} {aLo aHi bLo bHi : Nat} {p : Nat × Nat}
    (h : p ∈ uniquePairs a aLo aHi b bLo bHi) :
    aLo ≤ p.1 ∧ p.1 < aHi ∧ bLo ≤ p.2 ∧ p.2 < bHi ∧ a[p.1]? = b[p.2]? := by
  obtain ⟨⟨line, idxs⟩, he, hp⟩ := List.mem_filterMap.1 h
  obtain ⟨h₁, h₂⟩ := uniquePair_eq hp
  simp only at h₁ h₂
  subst h₁
  obtain ⟨ha₁, ha₂, ha₃⟩ := countLines_get ((JsMap.mem_entries_iff _).1 he) p.1 (by simp)
  obtain ⟨hb₁, hb₂, hb₃⟩ := countLines_get h₂ p.2 (by simp)
  exact ⟨ha₁, ha₂, hb₁, hb₂, ha₃.trans hb₃.symm⟩

theorem uniquePairs_ne (a b : List α) (aLo aHi bLo bHi : Nat) :
    (uniquePairs a aLo aHi b bLo bHi).Pairwise (fun p q => p.1 ≠ q.1) := by
  have hkeys := List.pairwise_map.1 (countLines a aLo aHi).nodup
  refine List.pairwise_filterMap.2 (hkeys.imp_of_mem ?_)
  intro e e' he he' hne p hp q hq hpq
  obtain ⟨line, idxs⟩ := e
  obtain ⟨line', idxs'⟩ := e'
  have h₁ := (uniquePair_eq hp).1
  have h₂ := (uniquePair_eq hq).1
  simp only at h₁ h₂
  subst h₁ h₂
  have ha := (countLines_get ((JsMap.mem_entries_iff _).1 he) p.1 (by simp)).2.2
  have hb := (countLines_get ((JsMap.mem_entries_iff _).1 he') q.1 (by simp)).2.2
  rw [hpq] at ha
  exact hne (Option.some.inj (ha.symm.trans hb))

theorem sortedPairs_lt (ps : List (Nat × Nat)) (h : ps.Pairwise (fun p q => p.1 ≠ q.1)) :
    (ps.insertionSort (fun x y => x.1 ≤ y.1)).Pairwise (fun p q => p.1 < q.1) := by
  have hperm := List.perm_insertionSort (fun x y : Nat × Nat => x.1 ≤ y.1) ps
  have hne := (hperm.pairwise_iff (fun {x y} (hxy : x.1 ≠ y.1) => Ne.symm hxy)).2 h
  have htot : ∀ x y : Nat × Nat, x.1 ≤ y.1 ∨ y.1 ≤ x.1 := fun x y => Nat.le_total _ _
  have htrans : ∀ x y z : Nat × Nat, x.1 ≤ y.1 → y.1 ≤ z.1 → x.1 ≤ z.1 :=
    fun _ _ _ => Nat.le_trans
  have : Std.Total (fun x y : Nat × Nat => x.1 ≤ y.1) := ⟨htot⟩
  have : IsTrans (Nat × Nat) (fun x y => x.1 ≤ y.1) := ⟨htrans⟩
  have hle := List.pairwise_insertionSort (fun x y : Nat × Nat => x.1 ≤ y.1) ps
  exact (hle.and hne).imp (fun ⟨h₁, h₂⟩ => Nat.lt_of_le_of_ne h₁ h₂)

theorem patienceAnchors_matches {a b : List α} {aLo aHi bLo bHi : Nat} {anchors : List (Nat × Nat)}
    (ha : aLo ≤ aHi) (hb : bLo ≤ bHi)
    (h : patienceAnchors a aLo aHi b bLo bHi = some anchors) :
    Matches a b aHi bHi aLo bLo anchors := by
  obtain ⟨hr, hmem⟩ := longestIncreasingSubsequence_rises
    (sortedPairs_lt _ (uniquePairs_ne a b aLo aHi bLo bHi)) h
  refine matches_of_rises hr ha hb (fun p hp => mem_uniquePairs ?_)
  exact (List.mem_insertionSort _).1 (hmem p hp)

theorem walkLCS_matches {a b : List α} {aLo aHi bLo bHi : Nat} {dp : List (List Nat)}
    (ha : aHi ≤ a.length) (hb : bHi ≤ b.length) (fuel i j : Nat) (hi : aLo + i ≤ aHi)
    (hj : bLo + j ≤ bHi) {ps : List (Nat × Nat)}
    (h : walkLCS (slice a aLo aHi) (slice b bLo bHi) dp aLo bLo fuel i j = some ps) :
    Matches a b aHi bHi (aLo + i) (bLo + j) ps := by
  induction fuel generalizing i j ps with
  | zero =>
      unfold walkLCS at h
      split at h
      · simp at h
      · obtain rfl := Option.some.inj h
        exact ⟨hi, hj⟩
  | succ fuel ih =>
      unfold walkLCS at h
      rw [length_slice ha, length_slice hb] at h
      split at h
      · rename_i hlt
        simp only at h
        split at h
        · rename_i heq
          rw [Option.map_eq_some_iff] at h
          obtain ⟨rest, hrest, rfl⟩ := h
          rw [getElem?_slice, getElem?_slice, if_pos (by omega), if_pos (by omega)] at heq
          exact ⟨Nat.le_refl _, by omega, Nat.le_refl _, by omega, heq,
            ih (i + 1) (j + 1) (by omega) (by omega) hrest⟩
        · split at h
          · exact matches_mono (by omega) (Nat.le_refl _) (ih (i + 1) j (by omega) hj h)
          · exact matches_mono (Nat.le_refl _) (by omega) (ih i (j + 1) hi (by omega) h)
      · obtain rfl := Option.some.inj h
        exact ⟨hi, hj⟩

theorem myersLCS_matches {a b : List α} {aLo aHi bLo bHi : Nat} {lcs : List (Nat × Nat)}
    (ha : aLo ≤ aHi) (ha' : aHi ≤ a.length) (hb : bLo ≤ bHi) (hb' : bHi ≤ b.length)
    (h : myersLCS a aLo aHi b bLo bHi = some lcs) : Matches a b aHi bHi aLo bLo lcs :=
  walkLCS_matches ha' hb' _ 0 0 ha hb h

theorem isScript_diffRecurse {a b : List α} (fuel : Nat) {aLo aHi bLo bHi : Nat}
    (ha : aLo ≤ aHi) (ha' : aHi ≤ a.length) (hb : bLo ≤ bHi) (hb' : bHi ≤ b.length)
    {ops : List (DiffOp α)} (h : diffRecurse a b fuel aLo aHi bLo bHi = some ops) :
    IsScript ops (slice a aLo aHi) (slice b bLo bHi) := by
  induction fuel generalizing aLo aHi bLo bHi ops with
  | zero => simp [diffRecurse] at h
  | succ fuel ih =>
      unfold diffRecurse at h
      split at h
      · rename_i heq
        obtain rfl := Option.some.inj h
        rw [heq.1, heq.2, slice_self, slice_self]
        exact ⟨rfl, rfl⟩
      split at h
      · rename_i heq
        obtain rfl := Option.some.inj h
        rw [heq, slice_self]
        exact isScript_insert _
      split at h
      · rename_i heq
        obtain rfl := Option.some.inj h
        rw [heq, slice_self]
        exact isScript_delete _
      simp only [Option.bind_eq_bind, Option.bind_eq_some_iff] at h
      obtain ⟨anchors, hanchors, h⟩ := h
      split at h
      · simp only [Option.bind_eq_some_iff] at h
        obtain ⟨lcs, hlcs, h⟩ := h
        exact isScript_emitFromLCS (myersLCS_matches ha ha' hb hb' hlcs) h
      · refine isScript_betweenAnchors ?_ (patienceAnchors_matches ha hb hanchors) h
        intro lo hi lo' hi' ops' h₁ h₂ h₃ h₄ hops
        exact ih h₁ (Nat.le_trans h₂ ha') h₃ (Nat.le_trans h₄ hb') hops

/-- Whatever `diffLines` returns turns the old text into the new one. -/
theorem isScript_diffLines {a b : List α} {ops : List (DiffOp α)} (h : diffLines a b = some ops) :
    IsScript ops a b := by
  unfold diffLines at h
  rw [Option.map_eq_some_iff] at h
  obtain ⟨raw, hraw, rfl⟩ := h
  have := isScript_diffRecurse _ (Nat.zero_le _) (Nat.le_refl _) (Nat.zero_le _) (Nat.le_refl _) hraw
  rw [slice_length, slice_length] at this
  exact isScript_coalesceOps this

end Diff

end OpsBlobs.EditScript
