import OpsBlobs.DiffLines

namespace OpsBlobs.Diff3

open DiffLines Slice

/-- A hunk replaces the ancestor lines from `ancStart` up to `ancEnd` by `lines`. -/
structure Hunk (α : Type) where
  ancStart : Nat
  ancEnd : Nat
  lines : List α
  deriving DecidableEq, Repr

structure ConflictChunk (α : Type) where
  startLine : Nat
  endLine : Int
  ancestor : List α
  localLines : List α
  remoteLines : List α
  deriving DecidableEq, Repr

structure ThreeWayMergeResult (α : Type) where
  merged : List α
  conflicts : List (ConflictChunk α)
  hasConflicts : Bool
  deriving DecidableEq, Repr

section Hunks

variable {α : Type}

structure HunkScan (α : Type) where
  hunks : List (Hunk α)
  ai : Nat
  cur : Option (Hunk α)

def scanOp (s : HunkScan α) (op : DiffOp α) : HunkScan α :=
  match op.type with
  | .equal => ⟨s.hunks ++ s.cur.toList, s.ai + op.lines.length, none⟩
  | .delete =>
      let cur := s.cur.getD ⟨s.ai, s.ai, []⟩
      let ai := s.ai + op.lines.length
      ⟨s.hunks, ai, some { cur with ancEnd := ai }⟩
  | .insert =>
      let cur := s.cur.getD ⟨s.ai, s.ai, []⟩
      ⟨s.hunks, s.ai, some { cur with lines := cur.lines ++ op.lines }⟩

def toHunks (diff : List (DiffOp α)) : List (Hunk α) :=
  let s := diff.foldl scanOp ⟨[], 0, none⟩
  s.hunks ++ s.cur.toList

def isInsert (h : Hunk α) : Bool := h.ancStart = h.ancEnd

def hunksInteract (a b : Hunk α) : Bool :=
  if max a.ancStart b.ancStart < min a.ancEnd b.ancEnd then true
  else if isInsert a && isInsert b && a.ancStart = b.ancStart then true
  else if isInsert a && !isInsert b && b.ancStart < a.ancStart && a.ancStart < b.ancEnd then true
  else isInsert b && !isInsert a && a.ancStart < b.ancStart && b.ancStart < a.ancEnd

/-- Which of two front hunks that do not interact is emitted first. -/
def takeLocal (lh rh : Hunk α) : Bool :=
  if lh.ancStart ≠ rh.ancStart then lh.ancStart < rh.ancStart
  else if isInsert lh ≠ isInsert rh then isInsert lh
  else true

structure MergeState (α : Type) where
  merged : List α
  conflicts : List (ConflictChunk α)
  pos : Nat
  deriving DecidableEq, Repr

def emitEqual (ancestor : List α) (next : Nat) (st : MergeState α) : MergeState α :=
  if st.pos < next then { st with merged := st.merged ++ slice ancestor st.pos next, pos := next }
  else st

def mergeOneSided (h : Hunk α) (st : MergeState α) : MergeState α :=
  { st with merged := st.merged ++ h.lines, pos := max st.pos h.ancEnd }

variable [DecidableEq α]

/-- Both front hunks at once: a union at one gap, the same change twice, or a conflict. -/
def mergeJointly (ancestor : List α) (lh rh : Hunk α) (st : MergeState α) : MergeState α :=
  if isInsert lh ∧ isInsert rh ∧ lh.ancStart = rh.ancStart then
    if lh.lines = rh.lines then { st with merged := st.merged ++ lh.lines }
    else { st with merged := st.merged ++ (lh.lines ++ rh.lines) }
  else if lh.lines = rh.lines then
    { st with merged := st.merged ++ lh.lines, pos := max (max st.pos lh.ancEnd) rh.ancEnd }
  else
    { merged := st.merged ++ lh.lines
      conflicts := st.conflicts ++
        [{ startLine := st.merged.length
           endLine := (st.merged.length + lh.lines.length : Int) - 1
           ancestor := slice ancestor (min lh.ancStart rh.ancStart) (max lh.ancEnd rh.ancEnd)
           localLines := lh.lines
           remoteLines := rh.lines }]
      pos := max (max st.pos lh.ancEnd) rh.ancEnd }

/-- The loop while `lh` is the front local hunk; `next` is the loop without it. -/
def mergeFront (ancestor : List α) (lh : Hunk α)
    (next : List (Hunk α) → MergeState α → MergeState α) :
    List (Hunk α) → MergeState α → MergeState α
  | [], st => next [] (mergeOneSided lh (emitEqual ancestor lh.ancStart st))
  | rh :: remote, st =>
      let st := emitEqual ancestor (min lh.ancStart rh.ancStart) st
      if hunksInteract lh rh then next remote (mergeJointly ancestor lh rh st)
      else if takeLocal lh rh then next (rh :: remote) (mergeOneSided lh st)
      else mergeFront ancestor lh next remote (mergeOneSided rh st)

def mergeHunks (ancestor : List α) : List (Hunk α) → List (Hunk α) → MergeState α → MergeState α
  | [] => fun remote st =>
      remote.foldl (fun st rh => mergeOneSided rh (emitEqual ancestor rh.ancStart st)) st
  | lh :: localHunks => mergeFront ancestor lh (mergeHunks ancestor localHunks)

def mergeFromDiffs (ancestor : List α) (localDiff remoteDiff : List (DiffOp α)) :
    ThreeWayMergeResult α :=
  let st := mergeHunks ancestor (toHunks localDiff) (toHunks remoteDiff) ⟨[], [], 0⟩
  let st := emitEqual ancestor ancestor.length st
  ⟨st.merged, st.conflicts, !st.conflicts.isEmpty⟩

end Hunks

abbrev Line := List Char

abbrev Text := List Char

def replaceCrLf : Text → Text
  | '\r' :: '\n' :: cs => '\n' :: replaceCrLf cs
  | c :: cs => c :: replaceCrLf cs
  | [] => []

def replaceCr (t : Text) : Text := t.map (fun c => if c = '\r' then '\n' else c)

def splitLines : Text → List Line
  | [] => [[]]
  | c :: cs =>
      if c = '\n' then [] :: splitLines cs
      else
        match splitLines cs with
        | [] => [[c]]
        | line :: rest => (c :: line) :: rest

def joinLines : List Line → Text
  | [] => []
  | [line] => line
  | line :: rest => line ++ '\n' :: joinLines rest

def normalizeLines (text : Text) : List Line := splitLines (replaceCr (replaceCrLf text))

/-- `none` is the run that throws inside one of the two diffs. -/
def threeWayMerge (ancestorText localText remoteText : Text) : Option (ThreeWayMergeResult Line) :=
  let ancestor := normalizeLines ancestorText
  let localLines := normalizeLines localText
  let remote := normalizeLines remoteText
  if joinLines localLines = joinLines remote then some ⟨localLines, [], false⟩
  else if joinLines localLines = joinLines ancestor then some ⟨remote, [], false⟩
  else if joinLines remote = joinLines ancestor then some ⟨localLines, [], false⟩
  else do
    let localDiff ← diffLines ancestor localLines
    let remoteDiff ← diffLines ancestor remote
    some (mergeFromDiffs ancestor localDiff remoteDiff)

example : threeWayMerge "a\nb\nc".toList "a\nB\nc".toList "a\nb\nc\nd".toList =
    some ⟨["a".toList, "B".toList, "c".toList, "d".toList], [], false⟩ := by decide

theorem splitLines_ne_nil (t : Text) : splitLines t ≠ [] := by
  cases t with
  | nil => exact List.cons_ne_nil _ _
  | cons c cs =>
      unfold splitLines
      split
      · exact List.cons_ne_nil _ _
      · split <;> exact List.cons_ne_nil _ _

theorem joinLines_cons {line : Line} {rest : List Line} (h : rest ≠ []) :
    joinLines (line :: rest) = line ++ '\n' :: joinLines rest := by
  cases rest with
  | nil => exact absurd rfl h
  | cons next rest => rfl

theorem joinLines_splitLines (t : Text) : joinLines (splitLines t) = t := by
  induction t with
  | nil => rfl
  | cons c cs ih =>
      unfold splitLines
      split
      · rename_i hc
        rw [joinLines_cons (splitLines_ne_nil cs), ih, hc, List.nil_append]
      · cases hs : splitLines cs with
        | nil => exact absurd hs (splitLines_ne_nil cs)
        | cons line rest =>
            rw [hs] at ih
            subst ih
            cases rest <;> rfl

theorem joinLines_inj {s t : Text} : joinLines (normalizeLines s) = joinLines (normalizeLines t) ↔
    normalizeLines s = normalizeLines t := by
  unfold normalizeLines
  rw [joinLines_splitLines, joinLines_splitLines]
  refine ⟨fun h => by rw [h], fun h => ?_⟩
  have := congrArg joinLines h
  rwa [joinLines_splitLines, joinLines_splitLines] at this

section Loop

variable {α : Type}

/-- The loop's induction: each round drops the front hunk of one side or of both. -/
theorem loop_induction {P : List (Hunk α) → List (Hunk α) → Prop} (nil_nil : P [] [])
    (nil_cons : ∀ rh remote, P [] remote → P [] (rh :: remote))
    (cons_nil : ∀ lh localHunks, P localHunks [] → P (lh :: localHunks) [])
    (cons_cons : ∀ lh localHunks rh remote, P localHunks remote → P localHunks (rh :: remote) →
      P (lh :: localHunks) remote → P (lh :: localHunks) (rh :: remote)) :
    ∀ localHunks remote, P localHunks remote := by
  intro localHunks
  induction localHunks with
  | nil =>
      intro remote
      induction remote with
      | nil => exact nil_nil
      | cons rh remote ih => exact nil_cons rh remote ih
  | cons lh localHunks ihl =>
      intro remote
      induction remote with
      | nil => exact cons_nil lh localHunks (ihl [])
      | cons rh remote ihr =>
          exact cons_cons lh localHunks rh remote (ihl remote) (ihl (rh :: remote)) ihr

theorem pos_emitEqual (ancestor : List α) (next : Nat) (st : MergeState α) :
    (emitEqual ancestor next st).pos = max st.pos next := by
  unfold emitEqual
  split
  · exact (Nat.max_eq_right (Nat.le_of_lt ‹_›)).symm
  · exact (Nat.max_eq_left (Nat.not_lt.1 ‹_›)).symm

theorem merged_emitEqual (ancestor : List α) (next : Nat) (st : MergeState α) :
    (emitEqual ancestor next st).merged = st.merged ++ slice ancestor st.pos next := by
  unfold emitEqual
  split
  · rfl
  · rw [slice_of_le ancestor (Nat.not_lt.1 ‹_›), List.append_nil]

@[simp] theorem conflicts_emitEqual (ancestor : List α) (next : Nat) (st : MergeState α) :
    (emitEqual ancestor next st).conflicts = st.conflicts := by
  unfold emitEqual
  split <;> rfl

@[simp] theorem conflicts_mergeOneSided (h : Hunk α) (st : MergeState α) :
    (mergeOneSided h st).conflicts = st.conflicts := rfl

def BothInsert (p : Hunk α × Hunk α) : Prop :=
  isInsert p.1 ∧ isInsert p.2 ∧ p.1.ancStart = p.2.ancStart

instance (p : Hunk α × Hunk α) : Decidable (BothInsert p) :=
  inferInstanceAs (Decidable (_ ∧ _ ∧ _))

variable [DecidableEq α]

theorem mergeJointly_insert (ancestor : List α) {lh rh : Hunk α} (st : MergeState α)
    (h : BothInsert (lh, rh)) :
    mergeJointly ancestor lh rh st =
      if lh.lines = rh.lines then { st with merged := st.merged ++ lh.lines }
      else { st with merged := st.merged ++ (lh.lines ++ rh.lines) } := if_pos h

theorem mergeJointly_overlap (ancestor : List α) {lh rh : Hunk α} (st : MergeState α)
    (h : ¬ BothInsert (lh, rh)) :
    mergeJointly ancestor lh rh st =
      if lh.lines = rh.lines then
        { st with merged := st.merged ++ lh.lines, pos := max (max st.pos lh.ancEnd) rh.ancEnd }
      else
        { merged := st.merged ++ lh.lines
          conflicts := st.conflicts ++
            [{ startLine := st.merged.length
               endLine := (st.merged.length + lh.lines.length : Int) - 1
               ancestor := slice ancestor (min lh.ancStart rh.ancStart) (max lh.ancEnd rh.ancEnd)
               localLines := lh.lines
               remoteLines := rh.lines }]
          pos := max (max st.pos lh.ancEnd) rh.ancEnd } := if_neg h

theorem mergeHunks_nil_nil (ancestor : List α) (st : MergeState α) :
    mergeHunks ancestor [] [] st = st := rfl

theorem mergeHunks_nil_cons (ancestor : List α) (rh : Hunk α) (remote : List (Hunk α))
    (st : MergeState α) :
    mergeHunks ancestor [] (rh :: remote) st =
      mergeHunks ancestor [] remote (mergeOneSided rh (emitEqual ancestor rh.ancStart st)) := rfl

theorem mergeHunks_cons_nil (ancestor : List α) (lh : Hunk α) (localHunks : List (Hunk α))
    (st : MergeState α) :
    mergeHunks ancestor (lh :: localHunks) [] st =
      mergeHunks ancestor localHunks [] (mergeOneSided lh (emitEqual ancestor lh.ancStart st)) := rfl

/-- One round of the loop with a hunk in front on both sides. -/
theorem mergeHunks_cons_cons (ancestor : List α) (lh rh : Hunk α)
    (localHunks remote : List (Hunk α)) (st : MergeState α) :
    mergeHunks ancestor (lh :: localHunks) (rh :: remote) st =
      let st := emitEqual ancestor (min lh.ancStart rh.ancStart) st
      if hunksInteract lh rh then
        mergeHunks ancestor localHunks remote (mergeJointly ancestor lh rh st)
      else if takeLocal lh rh then
        mergeHunks ancestor localHunks (rh :: remote) (mergeOneSided lh st)
      else mergeHunks ancestor (lh :: localHunks) remote (mergeOneSided rh st) := rfl

end Loop

end OpsBlobs.Diff3
