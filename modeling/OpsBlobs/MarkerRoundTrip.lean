import Mathlib.Data.List.TakeWhile
import OpsBlobs.Diff3Mirror
import OpsBlobs.JoinedLines
import OpsBlobs.MarkerLayout

namespace OpsBlobs.MarkerRoundTrip

open DiffLines EditScript Diff3 Diff3Symmetry Diff3Mirror ConflictMarkers StateMerge
  JoinedLines MarkerLayout

section Parsing

variable (segments : List ConflictMarkerSegment) (clean ours base theirs : List Line)
  {p : Parse} {ls tail : List Line} {blocks : Blocks Line} {c : ConflictChunk Line}

/-- The line begins with no opening, no original and no closing mark. -/
def MarkFree (line : Line) : Prop :=
  ¬ startsWith line CONFLICT_MARK_OURS ∧ ¬ startsWith line CONFLICT_MARK_BASE ∧
    ¬ startsWith line CONFLICT_MARK_THEIRS

/-- The line is not one that the parser takes for the separator. -/
def isText (line : Line) : Bool := !startsWith line CONFLICT_MARK_SEP

theorem parse_clean (h : ∀ line ∈ ls, MarkFree line) :
    ls.foldl parseLine ⟨segments, clean, .clean, ours, base, theirs⟩ =
      ⟨segments, clean ++ ls, .clean, ours, base, theirs⟩ := by
  induction ls generalizing clean with
  | nil => simp
  | cons line ls ih =>
      obtain ⟨hline, hls⟩ := List.forall_mem_cons.1 h
      have hstep : parseLine ⟨segments, clean, .clean, ours, base, theirs⟩ line =
          ⟨segments, clean ++ [line], .clean, ours, base, theirs⟩ := by
        simp [parseLine, hline.1, Parse.collect]
      rw [List.foldl_cons, hstep, ih _ hls, List.append_assoc]
      rfl

theorem parseLine_sep (hp : p.state ≠ .clean) {line : Line} (h : MarkFree line)
    (hsep : isText line = false) : parseLine p line = { p with state := .theirs } := by
  have : startsWith line CONFLICT_MARK_SEP = true := by simpa [isText] using hsep
  simp [parseLine, hp, h.2.1, this]

theorem parseLine_text (hp : p.state ≠ .clean) {line : Line} (h : MarkFree line)
    (htext : isText line = true) : parseLine p line = p.collect line := by
  have : startsWith line CONFLICT_MARK_SEP = false := by simpa [isText] using htext
  simp [parseLine, hp, h.2.1, h.2.2, this]

theorem parse_theirs (h : ∀ line ∈ ls, MarkFree line) :
    ls.foldl parseLine ⟨segments, clean, .theirs, ours, base, theirs⟩ =
      ⟨segments, clean, .theirs, ours, base, theirs ++ ls.filter isText⟩ := by
  induction ls generalizing theirs with
  | nil => simp
  | cons line ls ih =>
      obtain ⟨hline, hls⟩ := List.forall_mem_cons.1 h
      cases htext : isText line with
      | true =>
          rw [List.foldl_cons, parseLine_text (by simp) hline htext]
          simp [Parse.collect, ih _ hls, htext]
      | false =>
          rw [List.foldl_cons, parseLine_sep (by simp) hline htext]
          simp [ih _ hls, htext]

/-- A side is collected up to the first line that looks like the separator; what follows
goes to the other side. -/
theorem parse_ours (h : ∀ line ∈ ls, MarkFree line) :
    ∃ s, s ≠ ParseState.clean ∧
      ls.foldl parseLine ⟨segments, clean, .ours, ours, base, theirs⟩ =
        ⟨segments, clean, s, ours ++ ls.takeWhile isText, base,
          theirs ++ (ls.dropWhile isText).filter isText⟩ := by
  induction ls generalizing ours with
  | nil => exact ⟨.ours, by decide, by simp⟩
  | cons line ls ih =>
      obtain ⟨hline, hls⟩ := List.forall_mem_cons.1 h
      cases htext : isText line with
      | true =>
          obtain ⟨s, hs, hrun⟩ := ih (ours ++ [line]) hls
          refine ⟨s, hs, ?_⟩
          rw [List.foldl_cons, parseLine_text (by simp) hline htext]
          simp [Parse.collect, hrun, htext]
      | false =>
          refine ⟨.theirs, by decide, ?_⟩
          rw [List.foldl_cons, parseLine_sep (by simp) hline htext]
          simp [parse_theirs _ _ _ _ _ hls, htext]

theorem parse_base (h : ∀ line ∈ ls, MarkFree line) :
    ∃ s, s ≠ ParseState.clean ∧
      ls.foldl parseLine ⟨segments, clean, .base, ours, base, theirs⟩ =
        ⟨segments, clean, s, ours, base ++ ls.takeWhile isText,
          theirs ++ (ls.dropWhile isText).filter isText⟩ := by
  induction ls generalizing base with
  | nil => exact ⟨.base, by decide, by simp⟩
  | cons line ls ih =>
      obtain ⟨hline, hls⟩ := List.forall_mem_cons.1 h
      cases htext : isText line with
      | true =>
          obtain ⟨s, hs, hrun⟩ := ih (base ++ [line]) hls
          refine ⟨s, hs, ?_⟩
          rw [List.foldl_cons, parseLine_text (by simp) hline htext]
          simp [Parse.collect, hrun, htext]
      | false =>
          refine ⟨.theirs, by decide, ?_⟩
          rw [List.foldl_cons, parseLine_sep (by simp) hline htext]
          simp [parse_theirs _ _ _ _ _ hls, htext]

/-- The lines that the parser puts on the far side of a rendered block. -/
def farLines (c : ConflictChunk Line) : List Line :=
  (c.localLines.dropWhile isText).filter isText ++
    (c.ancestor.dropWhile isText).filter isText ++ c.remoteLines.filter isText

/-- What the parser makes of a rendered block. -/
def parsedBlock (c : ConflictChunk Line) : ConflictMarkerSegment :=
  .conflict (c.localLines.takeWhile isText) (c.ancestor.takeWhile isText) (farLines c)

def cleanRun (lines : List Line) : List ConflictMarkerSegment :=
  if lines = [] then [] else [.clean lines]

def ChunkMarkFree (c : ConflictChunk Line) : Prop :=
  (∀ line ∈ c.localLines, MarkFree line) ∧ (∀ line ∈ c.ancestor, MarkFree line) ∧
    ∀ line ∈ c.remoteLines, MarkFree line

theorem flushClean_eq : (⟨segments, clean, .clean, ours, base, theirs⟩ : Parse).flushClean =
    ⟨segments ++ cleanRun clean, [], .clean, ours, base, theirs⟩ := by
  by_cases h : clean = [] <;> simp [Parse.flushClean, cleanRun, h]

theorem parse_block (h : ChunkMarkFree c) :
    ∃ ours' base' theirs', (renderMarkerBlock c).foldl parseLine
        ⟨segments, clean, .clean, ours, base, theirs⟩ =
      ⟨segments ++ cleanRun clean ++ [parsedBlock c], [], .clean, ours', base', theirs'⟩ := by
  have hopen : parseLine ⟨segments, clean, .clean, ours, base, theirs⟩
      (CONFLICT_MARK_OURS ++ " Mine".toList) =
        ⟨segments ++ cleanRun clean, [], .ours, [], [], []⟩ := by
    have hmark : startsWith (CONFLICT_MARK_OURS ++ " Mine".toList) CONFLICT_MARK_OURS := by decide
    simp only [parseLine, if_pos, hmark, flushClean_eq]
  have hbase : ∀ p : Parse, p.state ≠ .clean →
      parseLine p (CONFLICT_MARK_BASE ++ " Original".toList) = { p with state := .base } := by
    intro p hp
    exact (if_neg hp).trans (if_pos (by decide))
  have hsep : ∀ p : Parse, p.state ≠ .clean →
      parseLine p CONFLICT_MARK_SEP = { p with state := .theirs } := by
    intro p hp
    exact (if_neg hp).trans ((if_neg (by decide)).trans (if_pos (by decide)))
  have hclose : ∀ p : Parse, p.state ≠ .clean →
      parseLine p (CONFLICT_MARK_THEIRS ++ " Theirs".toList) =
        { p with segments := p.segments ++ [.conflict p.ours p.base p.theirs],
                 state := .clean } := by
    intro p hp
    exact (if_neg hp).trans
      ((if_neg (by decide)).trans ((if_neg (by decide)).trans (if_pos (by decide))))
  obtain ⟨s, hs, hours⟩ := parse_ours (segments ++ cleanRun clean) [] [] [] [] h.1
  obtain ⟨t, ht, hbases⟩ := parse_base (segments ++ cleanRun clean) []
    (c.localLines.takeWhile isText) [] ((c.localLines.dropWhile isText).filter isText) h.2.1
  simp only [renderMarkerBlock, List.foldl_append, List.foldl_cons, List.foldl_nil,
    hopen]
  rw [hours, hbase _ hs]
  simp only [List.nil_append] at hbases ⊢
  rw [hbases, hsep _ ht]
  simp only
  rw [parse_theirs _ _ _ _ _ h.2.2, hclose _ (by simp)]
  exact ⟨_, _, _, rfl⟩

/-- The pieces of a marked file: each nonempty clean run, each chunk as `f` shows it. -/
def segmentsOf (f : ConflictChunk Line → ConflictMarkerSegment) (blocks : Blocks Line)
    (tail : List Line) : List ConflictMarkerSegment :=
  blocks.flatMap (fun b => cleanRun b.1 ++ [f b.2]) ++ cleanRun tail

theorem parse_blocks (htail : ∀ line ∈ tail, MarkFree line)
    (h : ∀ b ∈ blocks, (∀ line ∈ b.1, MarkFree line) ∧ ChunkMarkFree b.2) :
    ((markedLines blocks ++ tail).foldl parseLine
      ⟨segments, [], .clean, ours, base, theirs⟩).finish =
        segments ++ segmentsOf parsedBlock blocks tail := by
  induction blocks generalizing segments ours base theirs with
  | nil =>
      have hrun := parse_clean segments [] ours base theirs htail
      simp [markedLines, segmentsOf, hrun, Parse.finish, flushClean_eq]
  | cons b blocks ih =>
      obtain ⟨⟨hclean, hchunk⟩, hrest⟩ := List.forall_mem_cons.1 h
      obtain ⟨ours', base', theirs', hblock⟩ := parse_block segments b.1 ours base theirs hchunk
      have hrun := parse_clean segments [] ours base theirs hclean
      have hlines : markedLines (b :: blocks) ++ tail =
          b.1 ++ (renderMarkerBlock b.2 ++ (markedLines blocks ++ tail)) := by
        simp [markedLines]
      rw [hlines, List.foldl_append, hrun, List.nil_append, List.foldl_append, hblock,
        ih _ _ _ _ hrest]
      simp [segmentsOf]

end Parsing

section RoundTrip

variable {r : ThreeWayMergeResult Line} {tail : List Line} {blocks : Blocks Line}

def shownBlock (c : ConflictChunk Line) : ConflictMarkerSegment :=
  .conflict c.localLines c.ancestor c.remoteLines

/-- The merged lines with each chunk replaced by one of its sides. -/
def replaced (side : ConflictChunk Line → List Line) (blocks : Blocks Line) (tail : List Line) :
    List Line :=
  blocks.flatMap (fun b => b.1 ++ side b.2) ++ tail

def Resolves (r : ThreeWayMergeResult Line) (resolution : ConflictResolution) (ls : List Line) :
    Prop :=
  ∀ resolutions, (∀ ci < r.conflicts.length, resolutions.get ci = some resolution) →
    resolveMarkedText (renderMarkersFromResult r) resolutions = joinLines ls

/-- The rendered text is recognised, parsed and resolved as what it was rendered from. -/
def RoundTrips (r : ThreeWayMergeResult Line) : Prop :=
  hasConflictMarkers (renderMarkersFromResult r) = r.hasConflicts ∧
    ∃ blocks tail, Laid r.merged r.conflicts blocks tail ∧
      parseConflictMarkers (renderMarkersFromResult r) = segmentsOf shownBlock blocks tail ∧
      Resolves r .localSide (replaced ConflictChunk.localLines blocks tail) ∧
      Resolves r .remoteSide (replaced ConflictChunk.remoteLines blocks tail)

/-- No line of a side of a conflict looks like the separator. -/
def NoSeparators (r : ThreeWayMergeResult Line) : Prop :=
  ∀ c ∈ r.conflicts, ∀ line ∈ c.localLines ++ c.ancestor ++ c.remoteLines,
    ¬ startsWith line CONFLICT_MARK_SEP

def TextMarkFree (text : Text) : Prop := ∀ line ∈ normalizeLines text, MarkFree line

/-- The result of a merge, or of the fallback without a base, of texts without marks. -/
def Produced (r : ThreeWayMergeResult Line) : Prop :=
  ∃ localText remoteText, TextMarkFree localText ∧ TextMarkFree remoteText ∧
    (r = wholeFileConflict localText remoteText ∨
      ∃ ancestorText, TextMarkFree ancestorText ∧
        threeWayMerge ancestorText localText remoteText = some r)

/-- What both producers promise of their results. -/
structure Sane (r : ThreeWayMergeResult Line) : Prop where
  laid : ∃ blocks tail, Laid r.merged r.conflicts blocks tail
  hasConflicts : r.hasConflicts = !r.conflicts.isEmpty
  lines : All (fun line => OneLine line ∧ MarkFree line) r.merged r.conflicts

theorem sane_clean {text : Text} (h : TextMarkFree text) :
    Sane ⟨normalizeLines text, [], false⟩ where
  laid := ⟨[], normalizeLines text, rfl, rfl, trivial⟩
  hasConflicts := rfl
  lines := ⟨fun line hl => ⟨oneLine_normalizeLines hl, h line hl⟩, by simp⟩

theorem sane_wholeFileConflict {localText remoteText : Text} (hl : TextMarkFree localText)
    (hr : TextMarkFree remoteText) : Sane (wholeFileConflict localText remoteText) where
  laid := by
    refine ⟨[([], ⟨0, _, [], normalizeLines localText, normalizeLines remoteText⟩)], [], ?_, rfl,
      rfl, ?_, trivial⟩
    · simp [mergedLines, wholeFileConflict]
    · simp
  hasConflicts := rfl
  lines := by
    refine ⟨fun line h => ⟨oneLine_normalizeLines h, hl line h⟩, fun c hc => ?_⟩
    obtain rfl := List.mem_singleton.1 hc
    exact ⟨fun line h => ⟨oneLine_normalizeLines h, hl line h⟩,
      fun line h => absurd h List.not_mem_nil, fun line h => ⟨oneLine_normalizeLines h, hr line h⟩⟩

theorem sane_threeWayMerge {ancestorText localText remoteText : Text}
    (ha : TextMarkFree ancestorText) (hl : TextMarkFree localText) (hr : TextMarkFree remoteText)
    (h : threeWayMerge ancestorText localText remoteText = some r) : Sane r := by
  by_cases htwo : TwoEqual ancestorText localText remoteText
  · unfold threeWayMerge at h
    simp only [joinLines_inj] at h
    split at h
    · obtain rfl := Option.some.inj h
      exact sane_clean hl
    split at h
    · obtain rfl := Option.some.inj h
      exact sane_clean hr
    split at h
    · obtain rfl := Option.some.inj h
      exact sane_clean hl
    · rename_i hlr hla hra
      exact absurd htwo (by rintro (h | h | h) <;> contradiction)
  · rw [threeWayMerge_of_not_twoEqual htwo] at h
    obtain ⟨localDiff, hld, h⟩ := Option.bind_eq_some_iff.1 h
    obtain ⟨remoteDiff, hrd, h⟩ := Option.bind_eq_some_iff.1 h
    obtain rfl := Option.some.inj h
    refine ⟨laidState_mergeFromDiffs _ _ _, rfl,
      all_mergeFromDiffs (isScript_diffLines hld) (isScript_diffLines hrd) fun line hline => ?_⟩
    rcases List.mem_append.1 hline with hline | hline
    · rcases List.mem_append.1 hline with hline | hline
      · exact ⟨oneLine_normalizeLines hline, ha line hline⟩
      · exact ⟨oneLine_normalizeLines hline, hl line hline⟩
    · exact ⟨oneLine_normalizeLines hline, hr line hline⟩

theorem sane_of_produced (h : Produced r) : Sane r := by
  obtain ⟨localText, remoteText, hl, hr, rfl | ⟨ancestorText, ha, h⟩⟩ := h
  · exact sane_wholeFileConflict hl hr
  · exact sane_threeWayMerge ha hl hr h

/-- The lines of the rendered text. -/
theorem normalizeLines_render (hr : Sane r) (hne : r.merged ≠ [])
    (hlaid : Laid r.merged r.conflicts blocks tail) :
    normalizeLines (renderMarkersFromResult r) = markedLines blocks ++ tail := by
  have hblocks : ∀ b ∈ blocks, b.2 ∈ r.conflicts := fun b hb =>
    hlaid.2.1 ▸ List.mem_map_of_mem hb
  have hcontent : ∀ b ∈ blocks, ∀ line ∈ b.1, line ∈ r.merged := by
    intro b hb line hline
    rw [hlaid.1]
    exact List.mem_append_left _ (List.mem_flatMap.2 ⟨b, hb, List.mem_append_left _ hline⟩)
  rw [renderMarkersFromResult_eq hlaid]
  refine normalizeLines_joinLines ?_ fun line hline => ?_
  · intro hnil
    obtain ⟨hmarked, rfl⟩ := List.append_eq_nil_iff.1 hnil
    cases blocks with
    | nil => exact hne hlaid.1
    | cons b blocks => simp [markedLines, renderMarkerBlock] at hmarked
  · rcases List.mem_append.1 hline with hline | hline
    · obtain ⟨b, hb, hline⟩ := List.mem_flatMap.1 hline
      rcases List.mem_append.1 hline with hline | hline
      · exact (hr.lines.1 line (hcontent b hb line hline)).1
      · obtain ⟨hl, ha, hrem⟩ := hr.lines.2 b.2 (hblocks b hb)
        simp only [renderMarkerBlock, List.mem_append, List.mem_singleton] at hline
        rcases hline with (((((rfl | h) | rfl) | h) | rfl) | h) | rfl
        · decide
        · exact (hl line h).1
        · decide
        · exact (ha line h).1
        · decide
        · exact (hrem line h).1
        · decide
    · exact (hr.lines.1 line (hlaid.1 ▸ List.mem_append_right _ hline)).1

theorem markFree_blocks (hr : Sane r) (hlaid : Laid r.merged r.conflicts blocks tail) :
    (∀ line ∈ tail, MarkFree line) ∧
      ∀ b ∈ blocks, (∀ line ∈ b.1, MarkFree line) ∧ ChunkMarkFree b.2 := by
  refine ⟨fun line hl => (hr.lines.1 line (hlaid.1 ▸ List.mem_append_right _ hl)).2,
    fun b hb => ⟨fun line hl => (hr.lines.1 line ?_).2, ?_⟩⟩
  · rw [hlaid.1]
    exact List.mem_append_left _ (List.mem_flatMap.2 ⟨b, hb, List.mem_append_left _ hl⟩)
  · obtain ⟨hl, ha, hrem⟩ := hr.lines.2 b.2 (hlaid.2.1 ▸ List.mem_map_of_mem hb)
    exact ⟨fun line h => (hl line h).2, fun line h => (ha line h).2, fun line h => (hrem line h).2⟩

theorem parse_render (hr : Sane r) (hne : r.merged ≠ [])
    (hlaid : Laid r.merged r.conflicts blocks tail) :
    parseConflictMarkers (renderMarkersFromResult r) = segmentsOf parsedBlock blocks tail := by
  obtain ⟨htail, hblocks⟩ := markFree_blocks hr hlaid
  rw [parseConflictMarkers, normalizeLines_render hr hne hlaid]
  exact parse_blocks [] [] [] [] htail hblocks

theorem hasConflictMarkers_render (hr : Sane r) (hne : r.merged ≠ []) :
    hasConflictMarkers (renderMarkersFromResult r) = r.hasConflicts := by
  obtain ⟨blocks, tail, hlaid⟩ := hr.laid
  rw [hasConflictMarkers, normalizeLines_render hr hne hlaid, hr.hasConflicts, hlaid.2.1]
  cases blocks with
  | nil =>
      have hfree : ∀ line ∈ tail, CONFLICT_MARK_OURS.isPrefixOf line = false := fun line hl =>
        Bool.eq_false_of_not_eq_true ((markFree_blocks hr hlaid).1 line hl).1
      have hnone : tail.any (CONFLICT_MARK_OURS.isPrefixOf ·) = false :=
        List.any_eq_false.2 fun line hl => by simp [hfree line hl]
      simp [markedLines, hnone]
  | cons b blocks =>
      have hours : CONFLICT_MARK_OURS ++ " Mine".toList ∈ markedLines (b :: blocks) ++ tail := by
        simp [markedLines, renderMarkerBlock]
      have htheirs : CONFLICT_MARK_THEIRS ++ " Theirs".toList ∈
          markedLines (b :: blocks) ++ tail := by
        simp [markedLines, renderMarkerBlock]
      have hprefix : ∀ mark label : Line, mark.isPrefixOf (mark ++ label) = true := fun mark label =>
        List.isPrefixOf_iff_prefix.2 (List.prefix_append mark label)
      have h₁ := List.any_eq_true.2 ⟨_, hours, hprefix CONFLICT_MARK_OURS _⟩
      have h₂ := List.any_eq_true.2 ⟨_, htheirs, hprefix CONFLICT_MARK_THEIRS _⟩
      simp only [h₁, h₂]
      rfl

theorem parsedBlock_eq_iff {c : ConflictChunk Line} : parsedBlock c = shownBlock c ↔
    ∀ line ∈ c.localLines ++ c.ancestor ++ c.remoteLines, isText line = true := by
  have hall : ∀ ls : List Line, ls.takeWhile isText = ls ↔ ∀ line ∈ ls, isText line = true :=
    fun ls => List.takeWhile_eq_self_iff
  simp only [parsedBlock, shownBlock, ConflictMarkerSegment.conflict.injEq, hall, List.mem_append,
    or_imp, forall_and]
  constructor
  · rintro ⟨hl, ha, hfar⟩
    refine ⟨⟨hl, ha⟩, ?_⟩
    have hdrop : ∀ ls : List Line, (∀ line ∈ ls, isText line = true) → ls.dropWhile isText = [] :=
      fun ls h => List.dropWhile_eq_nil_iff.2 h
    rw [farLines, hdrop _ hl, hdrop _ ha] at hfar
    exact List.filter_eq_self.1 hfar
  · rintro ⟨⟨hl, ha⟩, hrem⟩
    refine ⟨hl, ha, ?_⟩
    rw [farLines, List.dropWhile_eq_nil_iff.2 hl, List.dropWhile_eq_nil_iff.2 ha]
    exact List.filter_eq_self.2 hrem

theorem segmentsOf_inj {f g : ConflictChunk Line → ConflictMarkerSegment}
    (h : segmentsOf f blocks tail = segmentsOf g blocks tail) : ∀ b ∈ blocks, f b.2 = g b.2 := by
  induction blocks with
  | nil => exact fun b hb => absurd hb List.not_mem_nil
  | cons b blocks ih =>
      have hcut : ∀ k : ConflictChunk Line → ConflictMarkerSegment,
          segmentsOf k (b :: blocks) tail =
            cleanRun b.1 ++ (k b.2 :: segmentsOf k blocks tail) := fun k => by simp [segmentsOf]
      rw [hcut f, hcut g] at h
      obtain ⟨hb, hrest⟩ := List.cons.inj (List.append_cancel_left h)
      exact List.forall_mem_cons.2 ⟨hb, ih hrest⟩

/-- Rendering that can be undone shows that no side holds a line like the separator. -/
theorem noSeparators_of_roundTrips (hr : Sane r) (hne : r.merged ≠ []) (h : RoundTrips r) :
    NoSeparators r := by
  obtain ⟨-, blocks, tail, hlaid, hparse, -⟩ := h
  rw [parse_render hr hne hlaid] at hparse
  intro c hc line hline
  rw [hlaid.2.1] at hc
  obtain ⟨b, hb, rfl⟩ := List.mem_map.1 hc
  have := parsedBlock_eq_iff.1 (segmentsOf_inj hparse b hb) line hline
  simpa [isText] using this

theorem resolveSegments_cleanRun (resolutions : JsMap Nat ConflictResolution) (ci : Nat)
    (ls : List Line) (rest : List ConflictMarkerSegment) :
    resolveSegments resolutions ci (cleanRun ls ++ rest) =
      ls ++ resolveSegments resolutions ci rest := by
  by_cases h : ls = [] <;> simp [cleanRun, h, resolveSegments]

theorem resolveSegments_segmentsOf {resolutions : JsMap Nat ConflictResolution} {ci : Nat}
    {resolution : ConflictResolution} {side : ConflictChunk Line → List Line}
    (hside : ∀ c : ConflictChunk Line, resolveConflictChunkLines
      ⟨0, 0, c.ancestor, c.localLines, c.remoteLines⟩ resolution = side c)
    (h : ∀ k < blocks.length, resolutions.get (ci + k) = some resolution) :
    resolveSegments resolutions ci (segmentsOf shownBlock blocks tail) =
      replaced side blocks tail := by
  induction blocks generalizing ci with
  | nil =>
      have := resolveSegments_cleanRun resolutions ci tail []
      simpa [segmentsOf, replaced, resolveSegments] using this
  | cons b blocks ih =>
      have hfirst : resolutions.get ci = some resolution := h 0 (by simp)
      have hrest : resolveSegments resolutions (ci + 1) (segmentsOf shownBlock blocks tail) =
          replaced side blocks tail := ih fun k hk => by
        have := h (k + 1) (by simpa using hk)
        rwa [show ci + 1 + k = ci + (k + 1) by omega]
      have hcut : segmentsOf shownBlock (b :: blocks) tail =
          cleanRun b.1 ++ (shownBlock b.2 :: segmentsOf shownBlock blocks tail) := by
        simp [segmentsOf]
      rw [hcut, resolveSegments_cleanRun, shownBlock, resolveSegments, hfirst, hrest]
      simp [replaced, hside]

theorem roundTrips_of_noSeparators (hr : Sane r) (hne : r.merged ≠ []) (h : NoSeparators r) :
    RoundTrips r := by
  obtain ⟨blocks, tail, hlaid⟩ := hr.laid
  have hshown : segmentsOf parsedBlock blocks tail = segmentsOf shownBlock blocks tail := by
    unfold segmentsOf
    refine congrArg (· ++ _) (List.flatMap_congr fun b hb => ?_)
    have hc := h b.2 (hlaid.2.1 ▸ List.mem_map_of_mem hb)
    rw [parsedBlock_eq_iff.2 fun line hline => by simpa [isText] using hc line hline]
  have hparse := (parse_render hr hne hlaid).trans hshown
  have hlen : r.conflicts.length = blocks.length := by rw [hlaid.2.1, List.length_map]
  refine ⟨hasConflictMarkers_render hr hne, blocks, tail, hlaid, hparse, ?_, ?_⟩
  · intro resolutions hres
    rw [resolveMarkedText, hparse]
    exact congrArg joinLines (resolveSegments_segmentsOf (fun _ => rfl)
      fun k hk => by simpa using hres k (hlen ▸ hk))
  · intro resolutions hres
    rw [resolveMarkedText, hparse]
    exact congrArg joinLines (resolveSegments_segmentsOf (fun _ => rfl)
      fun k hk => by simpa using hres k (hlen ▸ hk))

theorem conflictMarkers_roundTrip_iff (h : Produced r) (hne : r.merged ≠ []) :
    RoundTrips r ↔ NoSeparators r :=
  ⟨noSeparators_of_roundTrips (sane_of_produced h) hne,
    roundTrips_of_noSeparators (sane_of_produced h) hne⟩

end RoundTrip

section Retitled

/-- Both devices retitle a note. -/
def retitled : ThreeWayMergeResult Line :=
  ⟨["Plan".toList, "x".toList],
    [⟨0, 0, ["Notes".toList], ["Plan".toList], ["Ideas".toList]⟩], true⟩

/-- The same, one of the titles with an underline. -/
def underlined : ThreeWayMergeResult Line :=
  ⟨["Plan".toList, "=======".toList, "x".toList],
    [⟨0, 1, ["Notes".toList], ["Plan".toList, "=======".toList], ["Ideas".toList]⟩], true⟩

instance (line : Line) : Decidable (MarkFree line) := inferInstanceAs (Decidable (_ ∧ _ ∧ _))

instance (text : Text) : Decidable (TextMarkFree text) :=
  inferInstanceAs (Decidable (∀ line ∈ normalizeLines text, MarkFree line))

instance (r : ThreeWayMergeResult Line) : Decidable (NoSeparators r) :=
  inferInstanceAs (Decidable (∀ c ∈ r.conflicts,
    ∀ line ∈ c.localLines ++ c.ancestor ++ c.remoteLines, ¬ startsWith line CONFLICT_MARK_SEP))

theorem produced_retitled : Produced retitled :=
  ⟨"Plan\nx".toList, "Ideas\nx".toList, by decide, by decide,
    Or.inr ⟨"Notes\nx".toList, by decide, by decide⟩⟩

theorem produced_underlined : Produced underlined :=
  ⟨"Plan\n=======\nx".toList, "Ideas\nx".toList, by decide, by decide,
    Or.inr ⟨"Notes\nx".toList, by decide, by decide⟩⟩

theorem conflictMarkers_roundTrip_retitled : RoundTrips retitled :=
  (conflictMarkers_roundTrip_iff produced_retitled (by decide)).2 (by decide)

/-- The parser takes the underline for the separator. -/
theorem conflictMarkers_not_roundTrip :
    ¬ ∀ r, Produced r → r.merged ≠ [] → RoundTrips r := by
  intro h
  have hround := h underlined produced_underlined (by decide)
  have hfree := noSeparators_of_roundTrips (sane_of_produced produced_underlined) (by decide) hround
  revert hfree
  decide

end Retitled

end OpsBlobs.MarkerRoundTrip
