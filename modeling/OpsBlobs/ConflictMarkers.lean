import OpsBlobs.Diff3

namespace OpsBlobs.ConflictMarkers

open Diff3

def CONFLICT_MARK_OURS : Line := "<<<<<<<".toList

def CONFLICT_MARK_BASE : Line := "|||||||".toList

def CONFLICT_MARK_SEP : Line := "=======".toList

def CONFLICT_MARK_THEIRS : Line := ">>>>>>>".toList

def renderMarkerBlock (chunk : ConflictChunk Line) : List Line :=
  [CONFLICT_MARK_OURS ++ " Mine".toList] ++ chunk.localLines ++
    [CONFLICT_MARK_BASE ++ " Original".toList] ++ chunk.ancestor ++
    [CONFLICT_MARK_SEP] ++ chunk.remoteLines ++
    [CONFLICT_MARK_THEIRS ++ " Theirs".toList]

/-- Each pass takes a chunk or a merged line, so their number bounds the passes. -/
def renderFrom (merged : List Line) : Nat → Nat → List (ConflictChunk Line) → List Line
  | 0, _, _ => []
  | fuel + 1, i, chunks =>
      match chunks.head? with
      | some c =>
          if c.startLine = i then
            renderMarkerBlock c ++
              renderFrom merged fuel (i + (max 0 (c.endLine - c.startLine + 1)).toNat)
                chunks.tail
          else
            match merged[i]? with
            | some line => line :: renderFrom merged fuel (i + 1) chunks
            | none => []
      | none =>
          match merged[i]? with
          | some line => line :: renderFrom merged fuel (i + 1) chunks
          | none => []

def renderMarkersFromResult (result : ThreeWayMergeResult Line) : Text :=
  let sorted := result.conflicts.insertionSort (fun a b => a.startLine ≤ b.startLine)
  joinLines (renderFrom result.merged (result.merged.length + sorted.length) 0 sorted)

/-- Both an opening and a closing marker line, so that a mere run of `<` is no conflict. -/
def hasConflictMarkers (text : Text) : Bool :=
  let lines := normalizeLines text
  lines.any (CONFLICT_MARK_OURS.isPrefixOf ·) && lines.any (CONFLICT_MARK_THEIRS.isPrefixOf ·)

example : hasConflictMarkers (renderMarkersFromResult
    ⟨["a".toList, "b".toList], [⟨1, 1, [], ["b".toList], ["c".toList]⟩], true⟩) = true := by
  decide

section Parse

/-- A piece of a marked file: a run of clean lines, or a conflict with its three sides. -/
inductive ConflictMarkerSegment
  | clean (lines : List Line)
  | conflict (ours base theirs : List Line)
  deriving DecidableEq, Repr

inductive ParseState
  | clean
  | ours
  | base
  | theirs
  deriving DecidableEq, Repr

/-- The locals of the parser; `ours`, `base` and `theirs` are the sides of the open block. -/
structure Parse where
  segments : List ConflictMarkerSegment
  clean : List Line
  state : ParseState
  ours : List Line
  base : List Line
  theirs : List Line
  deriving DecidableEq, Repr

def startsWith (line mark : Line) : Bool := mark.isPrefixOf line

def Parse.flushClean (p : Parse) : Parse :=
  if p.clean = [] then p else { p with segments := p.segments ++ [.clean p.clean], clean := [] }

def Parse.collect (p : Parse) (line : Line) : Parse :=
  match p.state with
  | .clean => { p with clean := p.clean ++ [line] }
  | .ours => { p with ours := p.ours ++ [line] }
  | .base => { p with base := p.base ++ [line] }
  | .theirs => { p with theirs := p.theirs ++ [line] }

def parseLine (p : Parse) (line : Line) : Parse :=
  if p.state = .clean then
    if startsWith line CONFLICT_MARK_OURS then
      { p.flushClean with state := .ours, ours := [], base := [], theirs := [] }
    else p.collect line
  else if startsWith line CONFLICT_MARK_BASE then { p with state := .base }
  else if startsWith line CONFLICT_MARK_SEP then { p with state := .theirs }
  else if startsWith line CONFLICT_MARK_THEIRS then
    { p with segments := p.segments ++ [.conflict p.ours p.base p.theirs], state := .clean }
  else p.collect line

/-- A block that was never closed is emitted with what it has. -/
def Parse.finish (p : Parse) : List ConflictMarkerSegment :=
  if p.state = .clean then p.flushClean.segments
  else p.segments ++ [.conflict p.ours p.base p.theirs]

def parseConflictMarkers (text : Text) : List ConflictMarkerSegment :=
  ((normalizeLines text).foldl parseLine ⟨[], [], .clean, [], [], []⟩).finish

end Parse

section Resolve

inductive ConflictResolution
  | localSide
  | remoteSide
  | both
  | custom (text : List Line)
  deriving DecidableEq, Repr

def resolveConflictChunkLines (chunk : ConflictChunk Line) : ConflictResolution → List Line
  | .localSide => chunk.localLines
  | .remoteSide => chunk.remoteLines
  | .both => chunk.localLines ++ chunk.remoteLines
  | .custom text => text

/-- The lines of the segments, the blocks resolved from ordinal `ci` on; ours by default. -/
def resolveSegments (resolutions : JsMap Nat ConflictResolution) :
    Nat → List ConflictMarkerSegment → List Line
  | _, [] => []
  | ci, .clean lines :: rest => lines ++ resolveSegments resolutions ci rest
  | ci, .conflict ours base theirs :: rest =>
      resolveConflictChunkLines ⟨0, 0, base, ours, theirs⟩ ((resolutions.get ci).getD .localSide) ++
        resolveSegments resolutions (ci + 1) rest

def resolveMarkedText (text : Text) (resolutions : JsMap Nat ConflictResolution) : Text :=
  joinLines (resolveSegments resolutions 0 (parseConflictMarkers text))

end Resolve

end OpsBlobs.ConflictMarkers
