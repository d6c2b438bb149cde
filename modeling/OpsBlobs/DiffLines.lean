import Mathlib.Data.List.Sort
import OpsBlobs.JsMap
import OpsBlobs.LongestIncreasing
import OpsBlobs.Slice

namespace OpsBlobs.DiffLines

open LongestIncreasing Slice

variable {α : Type}

inductive DiffType
  | equal
  | insert
  | delete
  deriving DecidableEq, Repr

structure DiffOp (α : Type) where
  type : DiffType
  lines : List α
  deriving DecidableEq, Repr

section Diff

variable [DecidableEq α]

def noteIndex (a : List α) (m : JsMap α (List Nat)) (i : Nat) : JsMap α (List Nat) :=
  match a[i]? with
  | some line => m.set line ((m.get line).getD [] ++ [i])
  | none => m

def countLines (a : List α) (lo hi : Nat) : JsMap α (List Nat) :=
  (List.range' lo (hi - lo)).foldl (noteIndex a) JsMap.empty

def uniquePair (bCount : JsMap α (List Nat)) (e : α × List Nat) : Option (Nat × Nat) :=
  match e.2, bCount.get e.1 with
  | [ai], some [bi] => some (ai, bi)
  | _, _ => none

def uniquePairs (a : List α) (aLo aHi : Nat) (b : List α) (bLo bHi : Nat) : List (Nat × Nat) :=
  (countLines a aLo aHi).entries.filterMap (uniquePair (countLines b bLo bHi))

def patienceAnchors (a : List α) (aLo aHi : Nat) (b : List α) (bLo bHi : Nat) :
    Option (List (Nat × Nat)) :=
  longestIncreasingSubsequence
    ((uniquePairs a aLo aHi b bLo bHi).insertionSort (fun x y => x.1 ≤ y.1))

/-- Row `i` of the table from row `i + 1`. -/
def dpRow (x : α) : List α → List Nat → List Nat
  | [], _ => [0]
  | y :: ys, below =>
      let row := dpRow x ys below.tail
      (if x = y then below.tail.headD 0 + 1 else max (below.headD 0) (row.headD 0)) :: row

def dpTable : List α → List α → List (List Nat)
  | [], b => [List.replicate (b.length + 1) 0]
  | x :: xs, b => dpRow x b ((dpTable xs b).headD []) :: dpTable xs b

def dpAt (dp : List (List Nat)) (i j : Nat) : Nat := ((dp[i]?.getD [])[j]?).getD 0

def walkLCS (aSlice bSlice : List α) (dp : List (List Nat)) (aLo bLo : Nat) :
    Nat → Nat → Nat → Option (List (Nat × Nat))
  | fuel, i, j =>
    if i < aSlice.length ∧ j < bSlice.length then
      match fuel with
      | 0 => none
      | fuel + 1 =>
        if aSlice[i]? = bSlice[j]? then
          (walkLCS aSlice bSlice dp aLo bLo fuel (i + 1) (j + 1)).map ((aLo + i, bLo + j) :: ·)
        else if dpAt dp i (j + 1) ≤ dpAt dp (i + 1) j then
          walkLCS aSlice bSlice dp aLo bLo fuel (i + 1) j
        else walkLCS aSlice bSlice dp aLo bLo fuel i (j + 1)
    else some []

def myersLCS (a : List α) (aLo aHi : Nat) (b : List α) (bLo bHi : Nat) : Option (List (Nat × Nat)) :=
  let aSlice := slice a aLo aHi
  let bSlice := slice b bLo bHi
  walkLCS aSlice bSlice (dpTable aSlice bSlice) aLo bLo (aSlice.length + bSlice.length) 0 0

def deleteGap (a : List α) (ai la : Nat) : List (DiffOp α) :=
  if ai < la then [⟨.delete, slice a ai la⟩] else []

def insertGap (b : List α) (bi lb : Nat) : List (DiffOp α) :=
  if bi < lb then [⟨.insert, slice b bi lb⟩] else []

def emitFromLCS (a b : List α) (aHi bHi : Nat) :
    Nat → Nat → List (Nat × Nat) → Option (List (DiffOp α))
  | ai, bi, [] => some (deleteGap a ai aHi ++ insertGap b bi bHi)
  | ai, bi, (la, lb) :: lcs => do
      let line ← a[la]?
      let ops ← emitFromLCS a b aHi bHi (la + 1) (lb + 1) lcs
      some (deleteGap a ai la ++ insertGap b bi lb ++ ⟨.equal, [line]⟩ :: ops)

def betweenAnchors (recurse : Nat → Nat → Nat → Nat → Option (List (DiffOp α))) (a : List α)
    (aHi bHi : Nat) : Nat → Nat → List (Nat × Nat) → Option (List (DiffOp α))
  | prevAi, prevBi, [] => recurse prevAi aHi prevBi bHi
  | prevAi, prevBi, (ai, bi) :: anchors => do
      let before ← recurse prevAi ai prevBi bi
      let line ← a[ai]?
      let ops ← betweenAnchors recurse a aHi bHi (ai + 1) (bi + 1) anchors
      some (before ++ ⟨.equal, [line]⟩ :: ops)

/-- `none` is the run that throws: the anchors could not be chosen. -/
def diffRecurse (a b : List α) : Nat → Nat → Nat → Nat → Nat → Option (List (DiffOp α))
  | 0, _, _, _, _ => none
  | fuel + 1, aLo, aHi, bLo, bHi =>
      if aLo = aHi ∧ bLo = bHi then some []
      else if aLo = aHi then some [⟨.insert, slice b bLo bHi⟩]
      else if bLo = bHi then some [⟨.delete, slice a aLo aHi⟩]
      else do
        let anchors ← patienceAnchors a aLo aHi b bLo bHi
        if anchors = [] then do
          let lcs ← myersLCS a aLo aHi b bLo bHi
          emitFromLCS a b aHi bHi aLo bLo lcs
        else betweenAnchors (diffRecurse a b fuel) a aHi bHi aLo bLo anchors

def pushOp (result : List (DiffOp α)) (op : DiffOp α) : List (DiffOp α) :=
  if op.lines = [] then result
  else
    match result.getLast? with
    | some last =>
        if last.type = op.type then result.dropLast ++ [⟨last.type, last.lines ++ op.lines⟩]
        else result ++ [op]
    | none => result ++ [op]

def coalesceOps (ops : List (DiffOp α)) : List (DiffOp α) := ops.foldl pushOp []

def diffLines (a b : List α) : Option (List (DiffOp α)) :=
  (diffRecurse a b (a.length + 1) 0 a.length 0 b.length).map coalesceOps

example : diffLines [1, 2, 3] [1, 4, 3] =
    some [⟨.equal, [1]⟩, ⟨.delete, [2]⟩, ⟨.insert, [4]⟩, ⟨.equal, [3]⟩] := by decide

example : diffLines [1, 2, 3] [2, 3, 1] = none := by decide

end Diff

end OpsBlobs.DiffLines
