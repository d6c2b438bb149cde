import OpsBlobs.ConflictMarkers
import OpsBlobs.Patch
import OpsBlobs.StateMerge

namespace OpsBlobs.MarkerLayout

open DiffLines EditScript Slice Diff3 Patch ConflictMarkers StateMerge

section Loop

variable {α : Type} [DecidableEq α]

/-- What every round of the merge keeps, the merge keeps. -/
theorem mergeHunks_keeps {ancestor : List α} {P : MergeState α → Prop} {L R : List (Hunk α)}
    (hequal : ∀ st next, P st → P (emitEqual ancestor next st))
    (hside : ∀ st hunk, hunk ∈ L ∨ hunk ∈ R → P st → P (mergeOneSided hunk st))
    (hjoint : ∀ st, ∀ lh ∈ L, ∀ rh ∈ R, P st → P (mergeJointly ancestor lh rh st))
    (st : MergeState α) (h : P st) : P (mergeHunks ancestor L R st) := by
  have hrun : ∀ localHunks remote : List (Hunk α), localHunks ⊆ L → remote ⊆ R →
      ∀ st, P st → P (mergeHunks ancestor localHunks remote st) := by
    refine loop_induction ?_ ?_ ?_ ?_
    · exact fun _ _ st h => h
    · intro rh remote ih hl hr st h
      obtain ⟨hrh, hr⟩ := List.cons_subset.1 hr
      exact ih hl hr _ (hside _ _ (Or.inr hrh) (hequal _ _ h))
    · intro lh localHunks ih hl hr st h
      obtain ⟨hlh, hl⟩ := List.cons_subset.1 hl
      exact ih hl hr _ (hside _ _ (Or.inl hlh) (hequal _ _ h))
    · intro lh localHunks rh remote ihBoth ihLeft ihRight hl hr st h
      obtain ⟨hlh, hl'⟩ := List.cons_subset.1 hl
      obtain ⟨hrh, hr'⟩ := List.cons_subset.1 hr
      have hst := hequal _ (min lh.ancStart rh.ancStart) h
      rw [mergeHunks_cons_cons]
      dsimp only
      split
      · exact ihBoth hl' hr' _ (hjoint _ lh hlh rh hrh hst)
      split
      · exact ihLeft hl' hr _ (hside _ _ (Or.inl hlh) hst)
      · exact ihRight hl hr' _ (hside _ _ (Or.inr hrh) hst)
  exact hrun L R (List.Subset.refl _) (List.Subset.refl _) st h

end Loop

section Laid

variable {α : Type}

/-- The merged lines of a result, cut at its conflicts: clean lines, then a chunk. -/
abbrev Blocks (α : Type) := List (List α × ConflictChunk α)

def mergedLines (blocks : Blocks α) : List α := blocks.flatMap fun b => b.1 ++ b.2.localLines

/-- Each chunk points at its local lines. -/
def Anchored : Nat → Blocks α → Prop
  | _, [] => True
  | i, (clean, c) :: blocks =>
      c.startLine = i + clean.length ∧
        c.endLine = (c.startLine + c.localLines.length : Int) - 1 ∧
        Anchored (c.startLine + c.localLines.length) blocks

/-- The chunks stand in the merged lines in their order. -/
def Laid (merged : List α) (conflicts : List (ConflictChunk α)) (blocks : Blocks α)
    (tail : List α) : Prop :=
  merged = mergedLines blocks ++ tail ∧ conflicts = blocks.map Prod.snd ∧ Anchored 0 blocks

variable {merged ls tail : List α} {conflicts : List (ConflictChunk α)} {blocks : Blocks α}
  {c : ConflictChunk α}

theorem mergedLines_append (blocks more : Blocks α) :
    mergedLines (blocks ++ more) = mergedLines blocks ++ mergedLines more := List.flatMap_append

theorem anchored_append {i : Nat} {more : Blocks α} : Anchored i (blocks ++ more) ↔
    Anchored i blocks ∧ Anchored (i + (mergedLines blocks).length) more := by
  induction blocks generalizing i with
  | nil => exact (and_iff_right trivial).symm
  | cons b blocks ih =>
      obtain ⟨clean, c⟩ := b
      have hlen : (mergedLines ((clean, c) :: blocks)).length =
          clean.length + c.localLines.length + (mergedLines blocks).length := by
        simp [mergedLines, Nat.add_assoc]
      rw [List.cons_append, Anchored, Anchored, ih, hlen, and_assoc, and_assoc]
      refine and_congr_right fun hstart => ?_
      rw [hstart]
      simp only [Nat.add_assoc]

theorem laid_append (h : Laid merged conflicts blocks tail) (ls : List α) :
    Laid (merged ++ ls) conflicts blocks (tail ++ ls) :=
  ⟨by rw [h.1, List.append_assoc], h.2⟩

theorem laid_chunk (h : Laid merged conflicts blocks tail) (hstart : c.startLine = merged.length)
    (hend : c.endLine = (merged.length + c.localLines.length : Int) - 1) :
    Laid (merged ++ c.localLines) (conflicts ++ [c]) (blocks ++ [(tail, c)]) [] := by
  obtain ⟨hm, hc, ha⟩ := h
  refine ⟨?_, ?_, anchored_append.2 ⟨ha, ?_, ?_, trivial⟩⟩
  · rw [mergedLines_append, hm]
    simp [mergedLines]
  · rw [List.map_append, hc]
    rfl
  · rw [hstart, hm, List.length_append, Nat.zero_add]
  · rw [hend, hstart]

def LaidState (st : MergeState α) : Prop := ∃ blocks tail, Laid st.merged st.conflicts blocks tail

theorem laidState_emitEqual {st : MergeState α} (h : LaidState st) (ancestor : List α)
    (next : Nat) : LaidState (emitEqual ancestor next st) := by
  obtain ⟨blocks, tail, h⟩ := h
  refine ⟨blocks, tail ++ slice ancestor st.pos next, ?_⟩
  rw [merged_emitEqual, conflicts_emitEqual]
  exact laid_append h _

theorem laidState_mergeOneSided {st : MergeState α} (h : LaidState st) (hunk : Hunk α) :
    LaidState (mergeOneSided hunk st) := by
  obtain ⟨blocks, tail, h⟩ := h
  exact ⟨blocks, tail ++ hunk.lines, laid_append h _⟩

variable [DecidableEq α]

theorem laidState_mergeJointly {st : MergeState α} (h : LaidState st) (ancestor : List α)
    (lh rh : Hunk α) : LaidState (mergeJointly ancestor lh rh st) := by
  obtain ⟨blocks, tail, h⟩ := h
  unfold mergeJointly
  split
  · split
    · exact ⟨_, _, laid_append h _⟩
    · exact ⟨_, _, laid_append h _⟩
  · split
    · exact ⟨_, _, laid_append h _⟩
    · exact ⟨_, _, laid_chunk (c := ⟨_, _, _, lh.lines, rh.lines⟩) h rfl rfl⟩

theorem laidState_mergeFromDiffs (ancestor : List α) (localDiff remoteDiff : List (DiffOp α)) :
    ∃ blocks tail, Laid (mergeFromDiffs ancestor localDiff remoteDiff).merged
      (mergeFromDiffs ancestor localDiff remoteDiff).conflicts blocks tail := by
  apply laidState_emitEqual
  apply mergeHunks_keeps
  · exact fun st next h => laidState_emitEqual h ancestor next
  · exact fun st hunk _ h => laidState_mergeOneSided h hunk
  · exact fun st lh _ rh _ h => laidState_mergeJointly h ancestor lh rh
  · exact ⟨[], [], rfl, rfl, trivial⟩

end Laid

section Members

variable {α : Type} {Q : α → Prop}

/-- Every line that a merge has so far is of the kind. -/
def All (Q : α → Prop) (merged : List α) (conflicts : List (ConflictChunk α)) : Prop :=
  (∀ x ∈ merged, Q x) ∧ ∀ c ∈ conflicts, (∀ x ∈ c.localLines, Q x) ∧ (∀ x ∈ c.ancestor, Q x) ∧
    ∀ x ∈ c.remoteLines, Q x

theorem mem_of_mem_slice {l : List α} {lo hi : Nat} {x : α} (h : x ∈ slice l lo hi) : x ∈ l :=
  List.mem_of_mem_take (List.mem_of_mem_drop h)

theorem mem_patch {ancestor : List α} {i : Nat} {hs : List (Hunk α)} {h : Hunk α} (hh : h ∈ hs)
    {x : α} (hx : x ∈ h.lines) : x ∈ patch ancestor i hs := by
  induction hs generalizing i with
  | nil => exact absurd hh List.not_mem_nil
  | cons hunk rest ih =>
      rw [patch]
      rcases List.mem_cons.1 hh with rfl | hh
      · exact List.mem_append_right _ (List.mem_append_left _ hx)
      · exact List.mem_append_right _ (List.mem_append_right _ (ih hh))

theorem mem_of_mem_toHunks {ancestor text : List α} {diff : List (DiffOp α)}
    (hdiff : IsScript diff ancestor text) {h : Hunk α} (hh : h ∈ toHunks diff) {x : α}
    (hx : x ∈ h.lines) : x ∈ text := (patches_toHunks hdiff).2 ▸ mem_patch hh hx

theorem all_append {merged ls : List α} {conflicts : List (ConflictChunk α)}
    (h : All Q merged conflicts) (hls : ∀ x ∈ ls, Q x) : All Q (merged ++ ls) conflicts :=
  ⟨fun x hx => (List.mem_append.1 hx).elim (h.1 x) (hls x), h.2⟩

theorem all_mergeFromDiffs [DecidableEq α] {ancestor localLines remote : List α}
    {localDiff remoteDiff : List (DiffOp α)} (hl : IsScript localDiff ancestor localLines)
    (hr : IsScript remoteDiff ancestor remote) (hQ : ∀ x ∈ ancestor ++ localLines ++ remote, Q x) :
    All Q (mergeFromDiffs ancestor localDiff remoteDiff).merged
      (mergeFromDiffs ancestor localDiff remoteDiff).conflicts := by
  have hanc : ∀ x ∈ ancestor, Q x := fun x hx => hQ x (by simp [hx])
  have hlocal : ∀ h ∈ toHunks localDiff, ∀ x ∈ h.lines, Q x := fun h hh x hx =>
    hQ x (by simp [mem_of_mem_toHunks hl hh hx])
  have hremote : ∀ h ∈ toHunks remoteDiff, ∀ x ∈ h.lines, Q x := fun h hh x hx =>
    hQ x (by simp [mem_of_mem_toHunks hr hh hx])
  have hequal : ∀ (st : MergeState α) next, All Q st.merged st.conflicts →
      All Q (emitEqual ancestor next st).merged (emitEqual ancestor next st).conflicts := by
    intro st next h
    rw [merged_emitEqual, conflicts_emitEqual]
    exact all_append h fun x hx => hanc x (mem_of_mem_slice hx)
  apply hequal
  apply mergeHunks_keeps hequal
  · rintro st hunk (hh | hh) h
    · exact all_append h (hlocal hunk hh)
    · exact all_append h (hremote hunk hh)
  · intro st lh hlh rh hrh h
    unfold mergeJointly
    split
    · split
      · exact all_append h (hlocal lh hlh)
      · refine all_append h fun x hx => ?_
        exact (List.mem_append.1 hx).elim (hlocal lh hlh x) (hremote rh hrh x)
    · split
      · exact all_append h (hlocal lh hlh)
      · refine ⟨(all_append h (hlocal lh hlh)).1, fun c hc => ?_⟩
        rcases List.mem_append.1 hc with hc | hc
        · exact h.2 c hc
        · obtain rfl := List.mem_singleton.1 hc
          exact ⟨hlocal lh hlh, fun x hx => hanc x (mem_of_mem_slice hx), hremote rh hrh⟩
  · exact ⟨fun x hx => absurd hx List.not_mem_nil, fun c hc => absurd hc List.not_mem_nil⟩

end Members

section Render

variable {merged tail : List Line} {blocks : Blocks Line}

def markedLines (blocks : Blocks Line) : List Line :=
  blocks.flatMap fun b => b.1 ++ renderMarkerBlock b.2

theorem renderFrom_clean (fuel : Nat) {i : Nat} {chunks : List (ConflictChunk Line)}
    {ls rest : List Line} (hls : merged.drop i = ls ++ rest)
    (hnext : ∀ c ∈ chunks.head?, i + ls.length ≤ c.startLine) :
    renderFrom merged (ls.length + fuel) i chunks =
      ls ++ renderFrom merged fuel (i + ls.length) chunks := by
  induction ls generalizing i with
  | nil => simp
  | cons line ls ih =>
      have hline : merged[i]? = some line := by
        have := congrArg (·[0]?) hls
        simpa using this
      have hdrop : merged.drop (i + 1) = ls ++ rest := by
        have := congrArg List.tail hls
        simpa using this
      have hrest := ih hdrop (fun c hc => by have := hnext c hc; simp at this; omega)
      have hfuel : (line :: ls).length + fuel = ls.length + fuel + 1 := by simp; omega
      have hend : i + (line :: ls).length = i + 1 + ls.length := by simp; omega
      rw [hfuel, hend, renderFrom]
      cases hc : chunks.head? with
      | none => simp [hline, hrest]
      | some c =>
          have hne : c.startLine ≠ i := by
            have := hnext c hc
            simp at this
            omega
          simp [hline, hrest, hne]

theorem renderFrom_end {fuel i : Nat} (h : merged.length ≤ i) :
    renderFrom merged fuel i [] = [] := by
  cases fuel with
  | zero => rfl
  | succ fuel => simp [renderFrom, List.getElem?_eq_none h]

theorem renderFrom_chunk (merged : List Line) (fuel : Nat) (c : ConflictChunk Line)
    (chunks : List (ConflictChunk Line))
    (hend : c.endLine = (c.startLine + c.localLines.length : Int) - 1) :
    renderFrom merged (fuel + 1) c.startLine (c :: chunks) =
      renderMarkerBlock c ++ renderFrom merged fuel (c.startLine + c.localLines.length) chunks := by
  have hwidth : (max 0 (c.endLine - c.startLine + 1)).toNat = c.localLines.length := by
    rw [hend]
    omega
  simp [renderFrom, hwidth]

/-- The renderer passes the clean lines through and puts a marker block for each chunk. -/
theorem renderFrom_blocks {i e : Nat} (hdrop : merged.drop i = mergedLines blocks ++ tail)
    (ha : Anchored i blocks) :
    renderFrom merged ((mergedLines blocks ++ tail).length + blocks.length + e) i
      (blocks.map Prod.snd) = markedLines blocks ++ tail := by
  induction blocks generalizing i e with
  | nil =>
      have htail : merged.drop i = tail ++ [] := by rw [hdrop, List.append_nil]; rfl
      have hlen : merged.length ≤ i + tail.length := by
        have := congrArg List.length htail
        rw [List.length_drop, List.length_append, List.length_nil] at this
        omega
      have hclean : renderFrom merged (tail.length + e) i [] =
          tail ++ renderFrom merged e (i + tail.length) [] :=
        renderFrom_clean e htail (by simp)
      rw [renderFrom_end hlen, List.append_nil] at hclean
      simpa [mergedLines, markedLines] using hclean
  | cons b blocks ih =>
      obtain ⟨clean, c⟩ := b
      obtain ⟨hstart, hend, hrest⟩ := ha
      have hlines : mergedLines ((clean, c) :: blocks) ++ tail =
          clean ++ (c.localLines ++ (mergedLines blocks ++ tail)) := by
        simp [mergedLines]
      have hnext : merged.drop (c.startLine + c.localLines.length) =
          mergedLines blocks ++ tail := by
        rw [hlines] at hdrop
        have := (slice_of_drop_eq hdrop).2
        rw [hstart]
        exact (slice_of_drop_eq this).2
      have hfuel : (mergedLines ((clean, c) :: blocks) ++ tail).length +
          ((clean, c) :: blocks).length + e =
            clean.length + ((mergedLines blocks ++ tail).length + blocks.length +
              (c.localLines.length + e) + 1) := by
        rw [hlines]
        simp only [List.length_append, List.length_cons]
        omega
      have hchunks : (((clean, c) :: blocks).map Prod.snd) = c :: blocks.map Prod.snd := rfl
      rw [hfuel, hchunks, renderFrom_clean _ (hdrop.trans hlines) (by simp [hstart]), ← hstart,
        renderFrom_chunk merged _ c _ hend, ih hnext hrest]
      simp [markedLines]

theorem startLines_sorted {i : Nat} (h : Anchored i blocks) :
    (blocks.map Prod.snd).Pairwise (fun a b => a.startLine ≤ b.startLine) ∧
      ∀ c ∈ blocks.map Prod.snd, i ≤ c.startLine := by
  induction blocks generalizing i with
  | nil => exact ⟨List.Pairwise.nil, fun c hc => absurd hc List.not_mem_nil⟩
  | cons b blocks ih =>
      obtain ⟨clean, c⟩ := b
      obtain ⟨hstart, -, hrest⟩ := h
      obtain ⟨hp, hle⟩ := ih hrest
      rw [List.map_cons, List.pairwise_cons, List.forall_mem_cons]
      refine ⟨⟨fun d hd => ?_, hp⟩, by simp only; omega, fun d hd => ?_⟩
      · have := hle d hd
        simp only at this ⊢
        omega
      · have := hle d hd
        omega

theorem renderMarkersFromResult_eq {r : ThreeWayMergeResult Line}
    (h : Laid r.merged r.conflicts blocks tail) :
    renderMarkersFromResult r = joinLines (markedLines blocks ++ tail) := by
  obtain ⟨hm, hc, ha⟩ := h
  have hsorted : r.conflicts.insertionSort (fun a b => a.startLine ≤ b.startLine) =
      blocks.map Prod.snd := by
    rw [hc]
    exact (startLines_sorted ha).1.insertionSort_eq
  have hdrop : r.merged.drop 0 = mergedLines blocks ++ tail := hm
  have hrun : renderFrom r.merged (r.merged.length + blocks.length) 0 (blocks.map Prod.snd) =
      markedLines blocks ++ tail := by
    have := renderFrom_blocks (i := 0) (e := 0) hdrop ha
    rwa [← hm, Nat.add_zero] at this
  unfold renderMarkersFromResult
  simp only [hsorted, List.length_map, hrun]

end Render

end OpsBlobs.MarkerLayout
