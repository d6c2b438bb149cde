import OpsBlobs.Diff3Symmetry
import OpsBlobs.Segments

namespace OpsBlobs.Diff3Sound

open Diff3 Diff3Symmetry DiffLines EditScript Patch Segments Slice

section Stretches

variable {α : Type}

/-- A stretch of the ancestor, with the hunks of either side that lie in it. -/
structure Stretch (α : Type) where
  start : Nat
  stop : Nat
  left : List (Hunk α)
  right : List (Hunk α)
  deriving DecidableEq

/-- From `i` on the ancestor is cut into stretches, and every hunk is wholly inside one of them. -/
inductive Cuts (ancestor : List α) :
    Nat → List (Hunk α) → List (Hunk α) → List (Stretch α) → Prop
  | done : Cuts ancestor ancestor.length [] [] []
  | stretch {i stop : Nat} {left right lhs rhs : List (Hunk α)} {ts : List (Stretch α)}
      (hl : Ordered (ancestor.take stop) i left) (hr : Ordered (ancestor.take stop) i right)
      (h : Cuts ancestor stop lhs rhs ts) :
      Cuts ancestor i (left ++ lhs) (right ++ rhs) (⟨i, stop, left, right⟩ :: ts)

variable [DecidableEq α] (ancestor : List α)

namespace Stretch

variable (t : Stretch α)

def base : List α := slice ancestor t.start t.stop

/-- What one side's hunks make of the stretch. -/
def text (hs : List (Hunk α)) : List α := patch (ancestor.take t.stop) t.start hs

/-- Both sides put in the same lines, for ranges that meet and make up the stretch. -/
def Twice (lh rh : Hunk α) : Prop :=
  lh.lines = rh.lines ∧ hunksInteract lh rh = true ∧ t.start = min lh.ancStart rh.ancStart ∧
    t.stop = max lh.ancEnd rh.ancEnd

instance (lh rh : Hunk α) : Decidable (t.Twice lh rh) :=
  inferInstanceAs (Decidable (_ ∧ _ ∧ _ ∧ _))

/-- The same lines for two ranges: one change where both take lines out; what only one of the two
ranges covers, that side has deleted. -/
def twice (lh rh : Hunk α) : List (Segment α) :=
  [if lh.ancStart ≤ rh.ancStart then .left (slice ancestor lh.ancStart rh.ancStart) []
    else .right (slice ancestor rh.ancStart lh.ancStart) [],
    .same (slice ancestor (max lh.ancStart rh.ancStart) (min lh.ancEnd rh.ancEnd)) lh.lines,
    if lh.ancEnd ≤ rh.ancEnd then .right (slice ancestor lh.ancEnd rh.ancEnd) []
    else .left (slice ancestor rh.ancEnd lh.ancEnd) []]

/-- Both sides change the stretch: inserts at a gap are united, the same text stands once, and all
else is a clash. -/
def joint : Segment α :=
  if t.start = t.stop then .union (t.text ancestor t.left) (t.text ancestor t.right)
  else if t.text ancestor t.left = t.text ancestor t.right then
    .same (t.base ancestor) (t.text ancestor t.left)
  else .clash (t.base ancestor) (t.text ancestor t.left) (t.text ancestor t.right)

/-- What a sound merge makes of a stretch is fixed by the hunks in it. -/
def segments : List (Segment α) :=
  match t.left, t.right with
  | [], [] => [.kept (t.base ancestor)]
  | [], _ :: _ => [.right (t.base ancestor) (t.text ancestor t.right)]
  | _ :: _, [] => [.left (t.base ancestor) (t.text ancestor t.left)]
  | [lh], [rh] => if t.Twice lh rh then twice ancestor lh rh else [t.joint ancestor]
  | _ :: _, _ :: _ => [t.joint ancestor]

end Stretch

/-- The chunk the code records for a clash. -/
def chunk (c : Clash α) : ConflictChunk α :=
  ⟨c.start, (c.start + c.left.length : Int) - 1, c.base, c.left, c.right⟩

def allSegments (ts : List (Stretch α)) : List (Segment α) :=
  ts.flatMap (Stretch.segments ancestor)

/-- The result is read off the stretches of the two sides' hunks, whose segments cut the three
texts. -/
structure Explains (localLines remote : List α) (lhs rhs : List (Hunk α))
    (r : ThreeWayMergeResult α) (ts : List (Stretch α)) : Prop where
  cuts : Cuts ancestor 0 lhs rhs ts
  texts : Cut (allSegments ancestor ts) ancestor localLines remote
  merged : r.merged = (allSegments ancestor ts).flatMap Segment.merged
  conflicts : r.conflicts = (allClashes 0 (allSegments ancestor ts)).map chunk
  hasConflicts : r.hasConflicts = !(allClashes 0 (allSegments ancestor ts)).isEmpty

end Stretches

section Texts

variable {α : Type} {ancestor : List α} {i stop : Nat} {lhs rhs : List (Hunk α)}
  {ts : List (Stretch α)} {lh rh : Hunk α}

theorem stop_le_of_cuts (h : Cuts ancestor i lhs rhs ts) : i ≤ ancestor.length := by
  cases h with
  | done => exact Nat.le_refl _
  | stretch hl =>
      have := ordered_le hl
      rw [List.length_take] at this
      omega

theorem ordered_append {left : List (Hunk α)} (h : Ordered (ancestor.take stop) i left)
    (h' : Ordered ancestor stop lhs) : Ordered ancestor i (left ++ lhs) := by
  induction left generalizing i with
  | nil =>
      have hi : i ≤ (ancestor.take stop).length := h
      rw [List.length_take] at hi
      exact ordered_back (by omega) h'
  | cons hunk rest ih => exact ⟨h.1, h.2.1, ih h.2.2⟩

theorem patch_append {left : List (Hunk α)} (h : Ordered (ancestor.take stop) i left)
    (h' : Ordered ancestor stop lhs) :
    patch ancestor i (left ++ lhs) = patch (ancestor.take stop) i left ++ patch ancestor stop lhs := by
  have hstop := ordered_le h'
  induction left generalizing i with
  | nil =>
      have hi : i ≤ (ancestor.take stop).length := h
      rw [List.length_take] at hi
      rw [List.nil_append, patch_forth (show i ≤ stop by omega) h', patch, slice_length, slice]
  | cons hunk rest ih =>
      have hle : hunk.ancStart ≤ stop := by
        have := Nat.le_trans h.2.1 (ordered_le h.2.2)
        rw [List.length_take] at this
        omega
      have hslice : slice (ancestor.take stop) i hunk.ancStart = slice ancestor i hunk.ancStart := by
        rw [slice, slice, List.take_take, Nat.min_eq_left hle]
      rw [List.cons_append, patch, patch, ih h.2.2, hslice, List.append_assoc, List.append_assoc]

theorem ordered_of_cuts (h : Cuts ancestor i lhs rhs ts) :
    Ordered ancestor i lhs ∧ Ordered ancestor i rhs := by
  induction h with
  | done => exact ⟨Nat.le_refl _, Nat.le_refl _⟩
  | stretch hl hr h ih => exact ⟨ordered_append hl ih.1, ordered_append hr ih.2⟩

theorem within_of_cuts (h : Cuts ancestor i lhs rhs ts) {t : Stretch α} (ht : t ∈ ts) :
    (Ordered (ancestor.take t.stop) t.start t.left ∧ t.left.Sublist lhs) ∧
      Ordered (ancestor.take t.stop) t.start t.right ∧ t.right.Sublist rhs := by
  induction h with
  | done => cases ht
  | @stretch i stop left right lhs rhs ts hl hr h ih =>
      rcases List.mem_cons.1 ht with rfl | hlater
      · exact ⟨⟨hl, List.sublist_append_left left lhs⟩, hr, List.sublist_append_left right rhs⟩
      · obtain ⟨⟨hol, hsl⟩, hor, hsr⟩ := ih hlater
        exact ⟨⟨hol, hsl.trans (List.sublist_append_right left lhs)⟩,
          hor, hsr.trans (List.sublist_append_right right rhs)⟩

/-- Only a stretch that both sides change can clash, and it shows their texts of it. -/
theorem clash_of_segments [DecidableEq α] {t : Stretch α} {base newLeft newRight : List α}
    (h : Segment.clash base newLeft newRight ∈ t.segments ancestor) :
    t.left ≠ [] ∧ t.right ≠ [] ∧ newRight = t.text ancestor t.right := by
  have hjoint : Segment.clash base newLeft newRight = t.joint ancestor →
      newRight = t.text ancestor t.right := by
    intro heq
    rw [Stretch.joint] at heq
    split at heq
    · cases heq
    · split at heq <;> cases heq
      rfl
  unfold Stretch.segments at h
  split at h
  · cases List.mem_singleton.1 h
  · cases List.mem_singleton.1 h
  · cases List.mem_singleton.1 h
  · rename_i lh rh hleft hright
    rw [hleft, hright]
    split at h
    · unfold Stretch.twice at h
      split at h <;> split at h <;> simp at h
    · exact ⟨List.cons_ne_nil _ _, List.cons_ne_nil _ _, hright ▸ hjoint (List.mem_singleton.1 h)⟩
  · rename_i hleft hright
    rw [hleft, hright]
    exact ⟨List.cons_ne_nil _ _, List.cons_ne_nil _ _, hright ▸ hjoint (List.mem_singleton.1 h)⟩

theorem text_nil [DecidableEq α] {t : Stretch α} :
    t.text ancestor [] = t.base ancestor := by
  rw [Stretch.text, Stretch.base, patch, slice_length, slice]

/-- The text of one hunk that makes up a part of the stretch. -/
theorem text_single [DecidableEq α] {t : Stretch α} {hunk : Hunk α}
    (hstop : hunk.ancEnd ≤ t.stop) (hle : hunk.ancStart ≤ hunk.ancEnd) :
    t.text ancestor [hunk] = slice ancestor t.start hunk.ancStart ++
      (hunk.lines ++ slice ancestor hunk.ancEnd t.stop) := by
  have hslice : slice (ancestor.take t.stop) t.start hunk.ancStart =
      slice ancestor t.start hunk.ancStart := by
    rw [slice, slice, List.take_take, Nat.min_eq_left (by omega)]
  rw [Stretch.text, patch, patch, hslice, slice_length]
  rfl

theorem interact_iff : hunksInteract lh rh = true ↔
    max lh.ancStart rh.ancStart < min lh.ancEnd rh.ancEnd ∨
      lh.ancStart = lh.ancEnd ∧ rh.ancStart = rh.ancEnd ∧ lh.ancStart = rh.ancStart ∨
      lh.ancStart = lh.ancEnd ∧ rh.ancStart < lh.ancStart ∧ lh.ancStart < rh.ancEnd ∨
      rh.ancStart = rh.ancEnd ∧ lh.ancStart < rh.ancStart ∧ rh.ancStart < lh.ancEnd := by
  unfold hunksInteract isInsert
  split
  · rename_i h
    exact iff_of_true rfl (Or.inl h)
  · rename_i h
    simp only [Bool.and_eq_true, decide_eq_true_eq, Bool.not_eq_true', decide_eq_false_iff_not]
    split
    · rename_i h'
      exact iff_of_true rfl (by omega)
    · split
      · rename_i h'
        exact iff_of_true rfl (by omega)
      · simp only [Bool.and_eq_true, decide_eq_true_eq, Bool.not_eq_true',
          decide_eq_false_iff_not]
        omega

/-- A hunk that makes up the stretch. -/
theorem text_whole [DecidableEq α] {t : Stretch α} {hunk : Hunk α} (hstart : hunk.ancStart = t.start)
    (hstop : hunk.ancEnd = t.stop) (hle : hunk.ancStart ≤ hunk.ancEnd) :
    t.text ancestor [hunk] = hunk.lines := by
  rw [text_single (Nat.le_of_eq hstop) hle, hstart, hstop, slice_self, slice_self,
    List.nil_append, List.append_nil]

theorem cut_before (ancestor : List α) (s s' : Nat) :
    Cut [if s ≤ s' then .left (slice ancestor s s') [] else .right (slice ancestor s' s) []]
      (slice ancestor (min s s') (max s s')) (slice ancestor (min s s') s)
      (slice ancestor (min s s') s') := by
  split
  · rename_i h
    rw [Nat.min_eq_left h, Nat.max_eq_right h, slice_self]
    exact cut_singleton (.left (slice ancestor s s') [])
  · rename_i h
    rw [Nat.min_eq_right (by omega), Nat.max_eq_left (by omega), slice_self]
    exact cut_singleton (.right (slice ancestor s' s) [])

theorem cut_after (ancestor : List α) (e e' : Nat) :
    Cut [if e ≤ e' then .right (slice ancestor e e') [] else .left (slice ancestor e' e) []]
      (slice ancestor (min e e') (max e e')) (slice ancestor e (max e e'))
      (slice ancestor e' (max e e')) := by
  split
  · rename_i h
    rw [Nat.min_eq_left h, Nat.max_eq_right h, slice_self]
    exact cut_singleton (.right (slice ancestor e e') [])
  · rename_i h
    rw [Nat.min_eq_right (by omega), Nat.max_eq_left (by omega), slice_self]
    exact cut_singleton (.left (slice ancestor e' e) [])

theorem cut_twice [DecidableEq α] {t : Stretch α} (h : t.Twice lh rh)
    (hl : lh.ancStart ≤ lh.ancEnd) (hr : rh.ancStart ≤ rh.ancEnd) :
    Cut (Stretch.twice ancestor lh rh) (t.base ancestor) (t.text ancestor [lh])
      (t.text ancestor [rh]) := by
  obtain ⟨hlines, hint, hstart, hstop⟩ := h
  rw [interact_iff] at hint
  rw [text_single (by omega) hl, text_single (by omega) hr, Stretch.base, hstart, hstop, ← hlines,
    ← slice_append (show min lh.ancStart rh.ancStart ≤ max lh.ancStart rh.ancStart by omega)
      (by omega), ← slice_append (show max lh.ancStart rh.ancStart ≤ min lh.ancEnd rh.ancEnd by omega)
      (by omega)]
  exact (cut_before ancestor _ _).append
    ((cut_singleton (.same _ lh.lines)).append (cut_after ancestor _ _))

theorem cut_joint [DecidableEq α] (t : Stretch α) :
    Cut [t.joint ancestor] (t.base ancestor) (t.text ancestor t.left)
      (t.text ancestor t.right) := by
  rw [Stretch.joint]
  split
  · rename_i hgap
    rw [Stretch.base, hgap, slice_self]
    exact cut_singleton (.union _ _)
  · split
    · rename_i hsame
      rw [← hsame]
      exact cut_singleton (.same _ _)
    · exact cut_singleton (.clash _ _ _)

/-- The segments of a stretch cut its three texts. -/
theorem cut_segments [DecidableEq α] {t : Stretch α}
    (hl : Ordered (ancestor.take t.stop) t.start t.left)
    (hr : Ordered (ancestor.take t.stop) t.start t.right) :
    Cut (t.segments ancestor) (t.base ancestor) (t.text ancestor t.left)
      (t.text ancestor t.right) := by
  unfold Stretch.segments
  split
  · rename_i hleft hright
    rw [hleft, hright, text_nil]
    exact cut_singleton (.kept _)
  · rename_i hleft hright
    rw [hleft, hright, text_nil]
    exact cut_singleton (.right _ _)
  · rename_i hleft hright
    rw [hleft, hright, text_nil]
    exact cut_singleton (.left _ _)
  · rename_i lh rh hleft hright
    split
    · rename_i htwice
      rw [hleft] at hl ⊢
      rw [hright] at hr ⊢
      exact cut_twice htwice hl.2.1 hr.2.1
    · exact cut_joint t
  · exact cut_joint t

theorem cut_of_cuts [DecidableEq α] (h : Cuts ancestor i lhs rhs ts) :
    Cut (allSegments ancestor ts) (slice ancestor i ancestor.length) (patch ancestor i lhs)
      (patch ancestor i rhs) := by
  induction h with
  | done =>
      rw [patch, slice_self]
      exact cut_nil
  | @stretch i stop left right lhs rhs ts hl hr h ih =>
      obtain ⟨hol, hor⟩ := ordered_of_cuts h
      have hi : i ≤ stop := by
        have := ordered_le hl
        rw [List.length_take] at this
        omega
      rw [patch_append hl hol, patch_append hr hor, ← slice_append hi (stop_le_of_cuts h)]
      exact (cut_segments hl hr).append ih

end Texts

section Loop

variable {α : Type} {ancestor : List α} {lhs rhs : List (Hunk α)} {lh rh : Hunk α}
  {st : MergeState α}

/-- The pairs the merge represents exactly: two inserts at one gap, one change made twice,
or two replacements of one and the same ancestor range. -/
def Aligned (lh rh : Hunk α) : Prop :=
  BothInsert (lh, rh) ∨ lh.lines = rh.lines ∨
    (lh.ancStart = rh.ancStart ∧ lh.ancEnd = rh.ancEnd)

instance [DecidableEq α] (lh rh : Hunk α) : Decidable (Aligned lh rh) :=
  inferInstanceAs (Decidable (_ ∨ _ ∨ _ ∧ _))

/-- Hunks of the two sides that interact do so in pairs, and each pair is aligned. -/
structure Paired (lhs rhs : List (Hunk α)) : Prop where
  aligned : ∀ lh ∈ lhs, ∀ rh ∈ rhs, hunksInteract lh rh = true → Aligned lh rh
  left : lhs.Pairwise fun lh lh' => ∀ rh ∈ rhs, hunksInteract lh rh = true →
    hunksInteract lh' rh = false
  right : rhs.Pairwise fun rh rh' => ∀ lh ∈ lhs, hunksInteract lh rh = true →
    hunksInteract lh rh' = false

theorem Paired.tails (h : Paired (lh :: lhs) (rh :: rhs)) : Paired lhs rhs where
  aligned l hl r hr := h.aligned l (List.mem_cons_of_mem _ hl) r (List.mem_cons_of_mem _ hr)
  left := (List.pairwise_cons.1 h.left).2.imp fun hp r hr => hp r (List.mem_cons_of_mem _ hr)
  right := (List.pairwise_cons.1 h.right).2.imp fun hp l hl => hp l (List.mem_cons_of_mem _ hl)

theorem Paired.tail_left (h : Paired (lh :: lhs) rhs) : Paired lhs rhs where
  aligned l hl := h.aligned l (List.mem_cons_of_mem _ hl)
  left := (List.pairwise_cons.1 h.left).2
  right := h.right.imp fun hp l hl => hp l (List.mem_cons_of_mem _ hl)

theorem Paired.tail_right (h : Paired lhs (rh :: rhs)) : Paired lhs rhs where
  aligned l hl r hr := h.aligned l hl r (List.mem_cons_of_mem _ hr)
  left := h.left.imp fun hp r hr => hp r (List.mem_cons_of_mem _ hr)
  right := (List.pairwise_cons.1 h.right).2

/-- The merge goes on by these segments, up to the ancestor position `pos`. -/
def advance (st : MergeState α) (ss : List (Segment α)) (pos : Nat) : MergeState α :=
  ⟨st.merged ++ ss.flatMap Segment.merged,
    st.conflicts ++ (allClashes st.merged.length ss).map chunk, pos⟩

theorem advance_append (st : MergeState α) (ss ss' : List (Segment α)) (pos pos' : Nat) :
    advance (advance st ss pos) ss' pos' = advance st (ss ++ ss') pos' := by
  simp only [advance, List.flatMap_append, allClashes_append, List.map_append, List.append_assoc,
    List.length_append]

theorem advance_keep {s : Nat} (h : st.pos ≤ s) :
    emitEqual ancestor s st = advance st [.kept (slice ancestor st.pos s)] s := by
  unfold emitEqual
  split
  · simp [advance, allClashes, Segment.clashes, Segment.merged]
  · obtain rfl : st.pos = s := by omega
    simp [advance, allClashes, Segment.clashes, Segment.merged]

theorem advance_left (h : st.pos ≤ lh.ancEnd) (base : List α) :
    mergeOneSided lh st = advance st [.left base lh.lines] lh.ancEnd := by
  simp [mergeOneSided, advance, allClashes, Segment.clashes, Segment.merged, h]

theorem advance_right (h : st.pos ≤ rh.ancEnd) (base : List α) :
    mergeOneSided rh st = advance st [.right base rh.lines] rh.ancEnd := by
  simp [mergeOneSided, advance, allClashes, Segment.clashes, Segment.merged, h]

/-- The stretch of two hunks that interact. -/
def pairStretch (lh rh : Hunk α) : Stretch α :=
  ⟨min lh.ancStart rh.ancStart, max lh.ancEnd rh.ancEnd, [lh], [rh]⟩

theorem advance_twice (st : MergeState α) (lh rh : Hunk α) (pos : Nat) :
    advance st (Stretch.twice ancestor lh rh) pos =
      { st with merged := st.merged ++ lh.lines, pos := pos } := by
  unfold advance Stretch.twice
  split <;> split <;> simp [allClashes, Segment.clashes, Segment.merged]

/-- Of two hunks that do not interact the one taken first ends before the other. -/
theorem behind_of_takeLocal (hr : rh.ancStart ≤ rh.ancEnd)
    (hint : ¬ hunksInteract lh rh = true) (h : takeLocal lh rh = true) :
    lh.ancEnd ≤ rh.ancStart := by
  rw [interact_iff] at hint
  unfold takeLocal isInsert at h
  split at h
  · rw [decide_eq_true_eq] at h
    omega
  · split at h
    · rw [decide_eq_true_eq] at h
      omega
    · rename_i hsame
      rw [ne_eq, not_not, decide_eq_decide] at hsame
      omega

theorem behind_of_not_takeLocal (hl : lh.ancStart ≤ lh.ancEnd) (hr : rh.ancStart ≤ rh.ancEnd)
    (hint : ¬ hunksInteract lh rh = true) (h : ¬ takeLocal lh rh = true) :
    rh.ancEnd ≤ lh.ancStart := by
  have hint' : hunksInteract lh rh = false := Bool.not_eq_true _ ▸ hint
  refine behind_of_takeLocal hl (hunksInteract_comm lh rh ▸ hint) ?_
  rw [takeLocal_comm hl hr hint', Bool.eq_false_of_not_eq_true h]
  rfl

/-- What is left of one side after an interacting pair lies behind the pair's stretch. -/
theorem ordered_behind {hunk hunk' : Hunk α} {rest : List (Hunk α)}
    (h : Ordered ancestor hunk.ancEnd rest)
    (hle' : hunk'.ancStart ≤ hunk'.ancEnd) (hlen : hunk'.ancEnd ≤ ancestor.length)
    (hint : hunksInteract hunk hunk' = true)
    (hrest : ∀ x ∈ rest, hunksInteract x hunk' = false) :
    Ordered ancestor (max hunk.ancEnd hunk'.ancEnd) rest := by
  have hlen' := ordered_le h
  refine ordered_forth h (by omega) fun x hx => ?_
  have hmem := List.mem_of_mem_head? hx
  have hstart := ordered_startsFrom h x hx
  have hwf := ordered_wellFormed h x hmem
  have hnot := hrest x hmem
  rw [Bool.eq_false_iff, ne_eq, interact_iff] at hnot
  have hbounds := interact_iff.1 hint
  omega

theorem ordered_single {stop i : Nat} {hunk : Hunk α} (hi : i ≤ hunk.ancStart)
    (hle : hunk.ancStart ≤ hunk.ancEnd) (hstop : hunk.ancEnd ≤ stop)
    (hlen : stop ≤ ancestor.length) : Ordered (ancestor.take stop) i [hunk] := by
  refine ⟨hi, hle, ?_⟩
  rw [Ordered, List.length_take]
  omega

theorem ordered_none {stop i : Nat} (hi : i ≤ stop) (hlen : stop ≤ ancestor.length) :
    Ordered (ancestor.take stop) i ([] : List (Hunk α)) := by
  rw [Ordered, List.length_take]
  omega

theorem cuts_keep {i stop : Nat} {ts : List (Stretch α)} (hi : i ≤ stop)
    (hlen : stop ≤ ancestor.length) (h : Cuts ancestor stop lhs rhs ts) :
    Cuts ancestor i lhs rhs (⟨i, stop, [], []⟩ :: ts) := by
  have hcuts := Cuts.stretch (ordered_none hi hlen) (ordered_none hi hlen) h
  exact hcuts

variable [DecidableEq α]

theorem segments_pair : (pairStretch lh rh).segments ancestor =
    if (pairStretch lh rh).Twice lh rh then Stretch.twice ancestor lh rh
    else [(pairStretch lh rh).joint ancestor] := rfl

/-- Two hunks that interact and are aligned go on by the segments of their stretch. -/
theorem advance_joint (hl : lh.ancStart ≤ lh.ancEnd) (hr : rh.ancStart ≤ rh.ancEnd)
    (hint : hunksInteract lh rh = true) (hal : Aligned lh rh)
    (hpos : st.pos = min lh.ancStart rh.ancStart) :
    mergeJointly ancestor lh rh st =
      advance st ((pairStretch lh rh).segments ancestor) (max lh.ancEnd rh.ancEnd) := by
  have hbounds := interact_iff.1 hint
  rw [segments_pair]
  by_cases hlines : lh.lines = rh.lines
  · rw [if_pos ⟨hlines, hint, rfl, rfl⟩, advance_twice]
    by_cases hb : BothInsert (lh, rh)
    · have hgap := hb
      simp only [BothInsert, isInsert, decide_eq_true_eq] at hgap
      rw [mergeJointly_insert ancestor st hb, if_pos hlines,
        show max lh.ancEnd rh.ancEnd = st.pos by omega]
    · rw [mergeJointly_overlap ancestor st hb, if_pos hlines,
        show max (max st.pos lh.ancEnd) rh.ancEnd = max lh.ancEnd rh.ancEnd by omega]
  rw [if_neg (fun h => hlines h.1), Stretch.joint]
  have htexts : lh.ancStart = rh.ancStart → lh.ancEnd = rh.ancEnd →
      (pairStretch lh rh).text ancestor (pairStretch lh rh).left = lh.lines ∧
        (pairStretch lh rh).text ancestor (pairStretch lh rh).right = rh.lines := by
    intro hstart hend
    constructor
    · exact text_whole (by simp only [pairStretch]; omega) (by simp only [pairStretch]; omega) hl
    · exact text_whole (by simp only [pairStretch]; omega) (by simp only [pairStretch]; omega) hr
  by_cases hb : BothInsert (lh, rh)
  · have hgap := hb
    simp only [BothInsert, isInsert, decide_eq_true_eq] at hgap
    obtain ⟨hleft, hright⟩ := htexts (by omega) (by omega)
    rw [mergeJointly_insert ancestor st hb, if_neg hlines,
      if_pos (by simp only [pairStretch]; omega), hleft, hright]
    simp [advance, allClashes, Segment.clashes, Segment.merged]
    omega
  · obtain ⟨hstart, hend⟩ := (hal.resolve_left hb).resolve_left hlines
    have hne : (pairStretch lh rh).start ≠ (pairStretch lh rh).stop := by
      intro heq
      simp only [pairStretch] at heq
      exact hb ⟨decide_eq_true (by simp only; omega), decide_eq_true (by simp only; omega), hstart⟩
    obtain ⟨hleft, hright⟩ := htexts hstart hend
    rw [mergeJointly_overlap ancestor st hb, if_neg hlines, if_neg hne, hleft, hright,
      if_neg hlines]
    simp [advance, allClashes, Segment.clashes, Segment.merged, chunk, Stretch.base, pairStretch]
    omega

/-- The merge up to the next stretch and over it, if the rest is explained. -/
theorem explains_step (left right : List (Hunk α)) {start stop : Nat}
    {st' next : MergeState α} (hpos : st.pos ≤ start) (hl : Ordered (ancestor.take stop) start left)
    (hr : Ordered (ancestor.take stop) start right)
    (hstep : st' = advance (emitEqual ancestor start st)
      ((⟨start, stop, left, right⟩ : Stretch α).segments ancestor) stop)
    (hrest : st'.pos = stop → ∃ ts, Cuts ancestor st'.pos lhs rhs ts ∧
      next = advance st' (allSegments ancestor ts) ancestor.length) :
    ∃ ts, Cuts ancestor st.pos (left ++ lhs) (right ++ rhs) ts ∧
      next = advance st (allSegments ancestor ts) ancestor.length := by
  have hend : st'.pos = stop := congrArg MergeState.pos hstep
  obtain ⟨ts, hcuts, hnext⟩ := hrest hend
  rw [hend] at hcuts
  have hstart : start ≤ ancestor.length := by
    have := ordered_le hl
    rw [List.length_take] at this
    omega
  refine ⟨⟨st.pos, start, [], []⟩ :: ⟨start, stop, left, right⟩ :: ts,
    cuts_keep hpos hstart (.stretch hl hr hcuts), ?_⟩
  rw [hnext, hstep, advance_keep hpos, advance_append, advance_append]
  simp only [allSegments, List.flatMap_cons]
  rfl

/-- A local hunk that no remote one interacts with. -/
theorem explains_left {next : MergeState α} (hol : Ordered ancestor st.pos (lh :: lhs))
    (hor : Ordered ancestor lh.ancEnd rhs)
    (hrest : ∀ st' : MergeState α, st'.pos = lh.ancEnd → Ordered ancestor st'.pos lhs →
      Ordered ancestor st'.pos rhs → st' = mergeOneSided lh (emitEqual ancestor lh.ancStart st) →
      ∃ ts, Cuts ancestor st'.pos lhs rhs ts ∧
        next = advance st' (allSegments ancestor ts) ancestor.length) :
    ∃ ts, Cuts ancestor st.pos (lh :: lhs) rhs ts ∧
      next = advance st (allSegments ancestor ts) ancestor.length := by
  obtain ⟨hi, hle, hol'⟩ := hol
  have hlen := ordered_le hol'
  have hstart : (emitEqual ancestor lh.ancStart st).pos ≤ lh.ancEnd := by
    rw [pos_emitEqual]
    omega
  refine explains_step [lh] [] hi
    (ordered_single (Nat.le_refl _) hle (Nat.le_refl _) hlen) (ordered_none hle hlen) ?_
    (fun hpos => hrest _ hpos (hpos.symm ▸ hol') (hpos.symm ▸ hor) rfl)
  rw [advance_left hstart (slice ancestor lh.ancStart lh.ancEnd),
    ← text_whole (t := ⟨lh.ancStart, lh.ancEnd, [lh], []⟩) rfl rfl hle]
  rfl

/-- A remote hunk that no local one interacts with. -/
theorem explains_right {next : MergeState α} (hor : Ordered ancestor st.pos (rh :: rhs))
    (hol : Ordered ancestor rh.ancEnd lhs)
    (hrest : ∀ st' : MergeState α, st'.pos = rh.ancEnd → Ordered ancestor st'.pos lhs →
      Ordered ancestor st'.pos rhs → st' = mergeOneSided rh (emitEqual ancestor rh.ancStart st) →
      ∃ ts, Cuts ancestor st'.pos lhs rhs ts ∧
        next = advance st' (allSegments ancestor ts) ancestor.length) :
    ∃ ts, Cuts ancestor st.pos lhs (rh :: rhs) ts ∧
      next = advance st (allSegments ancestor ts) ancestor.length := by
  obtain ⟨hi, hle, hor'⟩ := hor
  have hlen := ordered_le hor'
  have hstart : (emitEqual ancestor rh.ancStart st).pos ≤ rh.ancEnd := by
    rw [pos_emitEqual]
    omega
  refine explains_step [] [rh] hi (ordered_none hle hlen)
    (ordered_single (Nat.le_refl _) hle (Nat.le_refl _) hlen) ?_
    (fun hpos => hrest _ hpos (hpos.symm ▸ hol) (hpos.symm ▸ hor') rfl)
  rw [advance_right hstart (slice ancestor rh.ancStart rh.ancEnd),
    ← text_whole (t := ⟨rh.ancStart, rh.ancEnd, [], [rh]⟩) rfl rfl hle]
  rfl

/-- The loop explains each hunk with the one it interacts with, or alone. -/
theorem mergeHunks_explained : ∀ (lhs rhs : List (Hunk α)) (st : MergeState α), Paired lhs rhs →
    Ordered ancestor st.pos lhs → Ordered ancestor st.pos rhs →
      ∃ ts, Cuts ancestor st.pos lhs rhs ts ∧
        emitEqual ancestor ancestor.length (mergeHunks ancestor lhs rhs st) =
          advance st (allSegments ancestor ts) ancestor.length := by
  refine loop_induction ?_ ?_ ?_ ?_
  · intro st _ hol _
    have hpos : st.pos ≤ ancestor.length := hol
    refine ⟨[⟨st.pos, ancestor.length, [], []⟩], ?_, advance_keep hpos⟩
    exact cuts_keep hpos (Nat.le_refl _) .done
  · intro rh rhs ih st hp hol hor
    refine explains_right hor (ordered_le hor.2.2) fun st' hpos hol' hor' hst' => ?_
    rw [mergeHunks_nil_cons, ← hst']
    exact ih st' hp.tail_right hol' hor'
  · intro lh lhs ih st hp hol hor
    refine explains_left hol (ordered_le hol.2.2) fun st' hpos hol' hor' hst' => ?_
    rw [mergeHunks_cons_nil, ← hst']
    exact ih st' hp.tail_left hol' hor'
  · intro lh lhs rh rhs ihBoth ihLeft ihRight st hp hol hor
    have hol' := hol.2.2
    have hor' := hor.2.2
    have hl := hol.2.1
    have hr := hor.2.1
    have hlenl := ordered_le hol'
    have hlenr := ordered_le hor'
    rw [mergeHunks_cons_cons]
    simp only
    by_cases hint : hunksInteract lh rh = true
    · rw [if_pos hint]
      have hbounds := interact_iff.1 hint
      have hstart : (emitEqual ancestor (min lh.ancStart rh.ancStart) st).pos =
          min lh.ancStart rh.ancStart := by
        rw [pos_emitEqual]
        have := hol.1
        have := hor.1
        omega
      have hstep : mergeJointly ancestor lh rh
          (emitEqual ancestor (min lh.ancStart rh.ancStart) st) = _ := advance_joint hl hr hint
        (hp.aligned lh List.mem_cons_self rh List.mem_cons_self hint) hstart
      refine explains_step [lh] [rh]
        (by have := hol.1; have := hor.1; omega)
        (ordered_single (by omega) hl (by omega) (by omega))
        (ordered_single (by omega) hr (by omega) (by omega)) hstep
        (fun hpos => ihBoth _ hp.tails (hpos.symm ▸ ?_) (hpos.symm ▸ ?_))
      · refine ordered_behind hol' hr hlenr hint fun x hx => ?_
        exact (List.pairwise_cons.1 hp.left).1 x hx rh List.mem_cons_self hint
      · rw [Nat.max_comm]
        refine ordered_behind hor' hl hlenl (hunksInteract_comm lh rh ▸ hint) fun x hx => ?_
        rw [hunksInteract_comm]
        exact (List.pairwise_cons.1 hp.right).1 x hx lh List.mem_cons_self hint
    · rw [if_neg hint]
      by_cases ht : takeLocal lh rh = true
      · rw [if_pos ht]
        have hfirst := takeLocal_le ht
        rw [Nat.min_eq_left hfirst]
        refine explains_left hol ⟨behind_of_takeLocal hr hint ht, hr, hor'⟩
          fun st' hpos hol'' hor'' hst' => ?_
        rw [← hst']
        exact ihLeft st' hp.tail_left hol'' hor''
      · rw [if_neg ht]
        have hfirst := le_of_not_takeLocal ht
        rw [Nat.min_eq_right hfirst]
        refine explains_right hor ⟨behind_of_not_takeLocal hl hr hint ht, hl, hol'⟩
          fun st' hpos hol'' hor'' hst' => ?_
        rw [← hst']
        exact ihRight st' hp.tail_right hol'' hor''

theorem explains_mergeFromDiffs {localLines remote : List α} {localDiff remoteDiff : List (DiffOp α)}
    (hl : IsScript localDiff ancestor localLines) (hr : IsScript remoteDiff ancestor remote)
    (hp : Paired (toHunks localDiff) (toHunks remoteDiff)) :
    ∃ ts, Explains ancestor localLines remote (toHunks localDiff) (toHunks remoteDiff)
      (mergeFromDiffs ancestor localDiff remoteDiff) ts := by
  obtain ⟨hol, hpl⟩ := patches_toHunks hl
  obtain ⟨hor, hpr⟩ := patches_toHunks hr
  obtain ⟨ts, hcuts, hrun⟩ := mergeHunks_explained _ _ ⟨[], [], 0⟩ hp hol hor
  have htexts := cut_of_cuts hcuts
  rw [hpl, hpr, slice_length, List.drop_zero] at htexts
  refine ⟨ts, hcuts, htexts, ?_, ?_, ?_⟩
  · simp only [mergeFromDiffs, hrun, advance, List.nil_append]
  · simp only [mergeFromDiffs, hrun, advance, List.nil_append, List.length_nil]
  · simp only [mergeFromDiffs, hrun, advance, List.nil_append, List.length_nil, List.isEmpty_map]

end Loop

section Texts

/-- A side that the code takes over without a diff: nothing changed, or all of it. -/
def wholeHunks (ancestor other : List Line) : List (Hunk Line) :=
  if other = ancestor then [] else [⟨0, ancestor.length, other⟩]

/-- The hunks of the two sides: those of the two line diffs, where these are taken. -/
def SideHunks (ancestorText localText remoteText : Text) (lhs rhs : List (Hunk Line)) : Prop :=
  TwoEqual ancestorText localText remoteText ∧
      lhs = wholeHunks (normalizeLines ancestorText) (normalizeLines localText) ∧
      rhs = wholeHunks (normalizeLines ancestorText) (normalizeLines remoteText) ∨
    ¬ TwoEqual ancestorText localText remoteText ∧
      (diffLines (normalizeLines ancestorText) (normalizeLines localText)).map toHunks = some lhs ∧
      (diffLines (normalizeLines ancestorText) (normalizeLines remoteText)).map toHunks = some rhs

/-- The merge returns, and what it returns is explained by the hunks of the two sides. -/
def MergesSoundly (ancestorText localText remoteText : Text) : Prop :=
  ∃ r lhs rhs ts, threeWayMerge ancestorText localText remoteText = some r ∧
    SideHunks ancestorText localText remoteText lhs rhs ∧
    Explains (normalizeLines ancestorText) (normalizeLines localText) (normalizeLines remoteText)
      lhs rhs r ts

/-- Two of the texts are equal, or both diffs return and the hunks that interact do so in pairs,
each of two inserts at one gap, of the same lines, or for one and the same range. -/
def HunksPaired (ancestorText localText remoteText : Text) : Prop :=
  TwoEqual ancestorText localText remoteText ∨
    ∃ localDiff remoteDiff,
      diffLines (normalizeLines ancestorText) (normalizeLines localText) = some localDiff ∧
      diffLines (normalizeLines ancestorText) (normalizeLines remoteText) = some remoteDiff ∧
      Paired (toHunks localDiff) (toHunks remoteDiff)

variable {ancestorText localText remoteText : Text} {ancestor other : List Line}

theorem ordered_wholeHunks (ancestor other : List Line) :
    Ordered (ancestor.take ancestor.length) 0 (wholeHunks ancestor other) := by
  rw [wholeHunks, List.take_length]
  split
  · exact Nat.zero_le _
  · exact ⟨Nat.le_refl _, Nat.zero_le _, Nat.le_refl _⟩

theorem patch_wholeHunks (ancestor other : List Line) :
    patch ancestor 0 (wholeHunks ancestor other) = other := by
  rw [wholeHunks]
  split
  · rename_i hsame
    rw [patch, slice_length, List.drop_zero, hsame]
  · rw [patch, patch, slice_self, slice_self, List.nil_append, List.append_nil]

/-- The one stretch of a merge that takes over whole texts. -/
def wholeStretch (ancestor localLines remote : List Line) : Stretch Line :=
  ⟨0, ancestor.length, wholeHunks ancestor localLines, wholeHunks ancestor remote⟩

theorem explains_whole {localLines remote merged : List Line}
    (hmerged : ((wholeStretch ancestor localLines remote).segments ancestor).flatMap Segment.merged =
      merged)
    (hclash : allClashes 0 ((wholeStretch ancestor localLines remote).segments ancestor) = []) :
    Explains ancestor localLines remote (wholeHunks ancestor localLines)
      (wholeHunks ancestor remote) ⟨merged, [], false⟩ [wholeStretch ancestor localLines remote] := by
  have hcuts := Cuts.stretch (ordered_wholeHunks ancestor localLines)
    (ordered_wholeHunks ancestor remote) Cuts.done
  rw [List.append_nil, List.append_nil] at hcuts
  have htexts := cut_of_cuts hcuts
  rw [slice_length, List.drop_zero] at htexts
  have hall : allSegments ancestor [wholeStretch ancestor localLines remote] =
      (wholeStretch ancestor localLines remote).segments ancestor := by
    rw [allSegments, List.flatMap_cons, List.flatMap_nil, List.append_nil]
  refine ⟨hcuts, ?_, ?_, ?_, ?_⟩
  · rw [patch_wholeHunks, patch_wholeHunks] at htexts
    exact htexts
  · rw [hall, hmerged]
  · rw [hall, hclash]
    rfl
  · rw [hall, hclash]
    rfl

theorem segments_whole_same (ancestor localLines : List Line) :
    ((wholeStretch ancestor localLines localLines).segments ancestor).flatMap Segment.merged =
        localLines ∧
      allClashes 0 ((wholeStretch ancestor localLines localLines).segments ancestor) = [] := by
  by_cases hsame : localLines = ancestor
  · subst hsame
    have hnone : wholeHunks localLines localLines = [] := if_pos rfl
    simp [wholeStretch, hnone, Stretch.segments, Stretch.base, slice_length, Segment.merged,
      allClashes, Segment.clashes]
  · have hone : wholeHunks ancestor localLines = [⟨0, ancestor.length, localLines⟩] := if_neg hsame
    have htwice : (wholeStretch ancestor localLines localLines).Twice
        ⟨0, ancestor.length, localLines⟩ ⟨0, ancestor.length, localLines⟩ := by
      refine ⟨rfl, interact_iff.2 ?_, rfl, (Nat.max_self _).symm⟩
      rcases Nat.eq_zero_or_pos ancestor.length with hempty | hpos
      · exact Or.inr (Or.inl ⟨hempty.symm, hempty.symm, rfl⟩)
      · exact Or.inl (Nat.lt_min.2 ⟨hpos, hpos⟩)
    simp only [wholeStretch, hone] at htwice ⊢
    simp [Stretch.segments, htwice, Stretch.twice, Segment.merged, allClashes, Segment.clashes]

theorem text_whole_of_ne {other : List Line} {left right : List (Hunk Line)}
    (h : other ≠ ancestor) :
    (⟨0, ancestor.length, left, right⟩ : Stretch Line).text ancestor
      [⟨0, ancestor.length, other⟩] = other := by
  have := patch_wholeHunks ancestor other
  rw [wholeHunks, if_neg h] at this
  rw [Stretch.text, List.take_length, this]

theorem segments_whole_right (ancestor remote : List Line) :
    ((wholeStretch ancestor ancestor remote).segments ancestor).flatMap Segment.merged =
        remote ∧
      allClashes 0 ((wholeStretch ancestor ancestor remote).segments ancestor) = [] := by
  by_cases hsame : remote = ancestor
  · rw [hsame]
    exact segments_whole_same ancestor ancestor
  · have hnone : wholeHunks ancestor ancestor = [] := if_pos rfl
    have hone : wholeHunks ancestor remote = [⟨0, ancestor.length, remote⟩] := if_neg hsame
    simp [wholeStretch, hnone, hone, Stretch.segments, text_whole_of_ne hsame, Segment.merged,
      allClashes, Segment.clashes]

theorem segments_whole_left (ancestor localLines : List Line) :
    ((wholeStretch ancestor localLines ancestor).segments ancestor).flatMap Segment.merged =
        localLines ∧
      allClashes 0 ((wholeStretch ancestor localLines ancestor).segments ancestor) = [] := by
  by_cases hsame : localLines = ancestor
  · rw [hsame]
    exact segments_whole_same ancestor ancestor
  · have hnone : wholeHunks ancestor ancestor = [] := if_pos rfl
    have hone : wholeHunks ancestor localLines = [⟨0, ancestor.length, localLines⟩] := if_neg hsame
    simp [wholeStretch, hnone, hone, Stretch.segments, text_whole_of_ne hsame, Segment.merged,
      allClashes, Segment.clashes]

theorem mergesSoundly_of_twoEqual (h : TwoEqual ancestorText localText remoteText) :
    MergesSoundly ancestorText localText remoteText := by
  have hrun : ∃ merged, threeWayMerge ancestorText localText remoteText = some ⟨merged, [], false⟩ ∧
      (((wholeStretch (normalizeLines ancestorText) (normalizeLines localText)
        (normalizeLines remoteText)).segments (normalizeLines ancestorText)).flatMap Segment.merged =
          merged ∧
      allClashes 0 ((wholeStretch (normalizeLines ancestorText) (normalizeLines localText)
        (normalizeLines remoteText)).segments (normalizeLines ancestorText)) = []) := by
    unfold threeWayMerge
    simp only [joinLines_inj]
    by_cases hlr : normalizeLines localText = normalizeLines remoteText
    · rw [if_pos hlr, ← hlr]
      exact ⟨_, rfl, segments_whole_same _ _⟩
    · rw [if_neg hlr]
      by_cases hla : normalizeLines localText = normalizeLines ancestorText
      · rw [if_pos hla, hla]
        exact ⟨_, rfl, segments_whole_right _ _⟩
      · have hra := (h.resolve_left hlr).resolve_left hla
        rw [if_neg hla, if_pos hra, hra]
        exact ⟨_, rfl, segments_whole_left _ _⟩
  obtain ⟨merged, hrun, hmerged, hclash⟩ := hrun
  exact ⟨_, _, _, _, hrun, Or.inl ⟨h, rfl, rfl⟩, explains_whole hmerged hclash⟩

theorem threeWayMerge_sound (h : HunksPaired ancestorText localText remoteText) :
    MergesSoundly ancestorText localText remoteText := by
  by_cases htwo : TwoEqual ancestorText localText remoteText
  · exact mergesSoundly_of_twoEqual htwo
  · obtain ⟨localDiff, remoteDiff, hl, hr, hp⟩ := h.resolve_left htwo
    obtain ⟨ts, hexplains⟩ :=
      explains_mergeFromDiffs (isScript_diffLines hl) (isScript_diffLines hr) hp
    refine ⟨_, _, _, ts, ?_, Or.inr ⟨htwo, congrArg _ hl, congrArg _ hr⟩, hexplains⟩
    rw [threeWayMerge_of_not_twoEqual htwo, hl, hr]
    rfl

/-- Both sides rewrite the second line and one appends a fourth. -/
theorem threeWayMerge_sound_example :
    MergesSoundly "a\nb\nc".toList "a\nX\nc".toList "a\nY\nc\nd".toList :=
  threeWayMerge_sound (Or.inr
    ⟨[⟨.equal, ["a".toList]⟩, ⟨.delete, ["b".toList]⟩, ⟨.insert, ["X".toList]⟩, ⟨.equal, ["c".toList]⟩],
      [⟨.equal, ["a".toList]⟩, ⟨.delete, ["b".toList]⟩, ⟨.insert, ["Y".toList]⟩, ⟨.equal, ["c".toList]⟩,
        ⟨.insert, ["d".toList]⟩], by decide, by decide, ⟨by decide, by decide, by decide⟩⟩)

/-- One side replaces the whole note, the other its middle line: the recorded chunk shows
all three ancestor lines but only the middle line of the other side. -/
theorem threeWayMerge_not_sound :
    ¬ ∀ ancestorText localText remoteText, MergesSoundly ancestorText localText remoteText := by
  intro h
  obtain ⟨r, lhs, rhs, ts, hr, hside, hexplains⟩ :=
    h "a\nb\nc".toList "X".toList "a\nY\nc".toList
  have hrun : threeWayMerge "a\nb\nc".toList "X".toList "a\nY\nc".toList =
      some ⟨["X".toList],
        [⟨0, 0, ["a".toList, "b".toList, "c".toList], ["X".toList], ["Y".toList]⟩], true⟩ := by decide
  obtain rfl := Option.some.inj (hrun.symm.trans hr)
  have hlocal : (diffLines (normalizeLines "a\nb\nc".toList) (normalizeLines "X".toList)).map
      toHunks = some [⟨0, 3, ["X".toList]⟩] := by decide
  have hremote : (diffLines (normalizeLines "a\nb\nc".toList)
      (normalizeLines "a\nY\nc".toList)).map toHunks = some [⟨1, 2, ["Y".toList]⟩] := by decide
  have htwo : ¬ TwoEqual "a\nb\nc".toList "X".toList "a\nY\nc".toList := by
    unfold TwoEqual
    decide
  obtain ⟨-, hlhs, hrhs⟩ := hside.resolve_left (fun hequal => htwo hequal.1)
  obtain rfl := Option.some.inj (hlocal.symm.trans hlhs)
  obtain rfl := Option.some.inj (hremote.symm.trans hrhs)
  -- the code's chunk would be the clash of a stretch with both hunks, which is the whole text
  have hmem : (⟨0, 0, ["a".toList, "b".toList, "c".toList], ["X".toList], ["Y".toList]⟩ :
      ConflictChunk Line) ∈
        (allClashes 0 (allSegments (normalizeLines "a\nb\nc".toList) ts)).map chunk := by
    rw [← hexplains.conflicts]
    exact List.mem_singleton.2 rfl
  obtain ⟨c, hc, hchunk⟩ := List.mem_map.1 hmem
  obtain ⟨t, ht, hclash⟩ := List.mem_flatMap.1 (clash_mem hc)
  obtain ⟨hleft, hright, htext⟩ := clash_of_segments hclash
  obtain ⟨⟨hol, hsl⟩, hor, hsr⟩ := within_of_cuts hexplains.cuts ht
  obtain hleft := (List.sublist_singleton.1 hsl).resolve_left hleft
  obtain hright := (List.sublist_singleton.1 hsr).resolve_left hright
  rw [hleft] at hol
  have hstart : t.start = 0 := Nat.le_zero.1 hol.1
  have hstop := ordered_le hol.2.2
  rw [hright, Stretch.text, hstart, List.take_of_length_le] at htext
  · have hlost : c.right = ["Y".toList] := congrArg ConflictChunk.remoteLines hchunk
    rw [htext] at hlost
    exact absurd hlost (by decide)
  · rw [List.length_take] at hstop
    exact Nat.le_trans (show _ ≤ 3 by decide) (Nat.le_trans hstop (Nat.min_le_left _ _))

end Texts

end OpsBlobs.Diff3Sound
