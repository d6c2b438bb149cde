import OpsBlobs.PackFiles

namespace OpsBlobs.PackScript

open Types PackedContent PackRefinement PackFiles

variable (P : Platform) (B : Nat)

/-- The file calls of a flush, in their order. -/
def flushWrites (s : ContentStore) : List Write :=
  if s.packBuffer = [] then []
  else
    let f := s.packBuffer.foldl (ContentStore.addBlob s.nextPackId) ⟨[], s.index, []⟩
    [.appendPack s.nextPackId f.packBody, .appendIndex f.idxDelta]

/-- The file calls of a loop, when each pass may throw. -/
def writesOver {σ α : Type} (f : σ → α → Option σ) (w : σ → α → List Write) :
    σ → List α → List Write
  | _, [] => []
  | s, a :: rest =>
      w s a ++ match f s a with
        | none => []
        | some s' => writesOver f w s' rest

def compactWrites (keepHashes : List String) (s : ContentStore) (packId : Nat) : List Write :=
  match ((ContentStore.members s packId).filter (· ∈ keepHashes)).foldlM
      (ContentStore.rebuffer P B) s with
  | none => []
  | some s' => flushWrites s' ++ [.removePack packId]

def rewriteWrites (s : ContentStore) : List Write := [.writeIndex s.index.entries]

/-- A pack with no live blob is removed at once. -/
def gcPackWrites (keepHashes : List String) (aged : Nat → Bool) (members : Nat → List String)
    (packId : Nat) : List Write :=
  if aged packId ∧ ContentStore.liveCount keepHashes (members packId) = 0 then
    [.removePack packId]
  else []

def gcWrites (keepHashes : List String) (aged : Nat → Bool) (s : ContentStore) : List Write :=
  let members := ContentStore.members s
  let ids := ContentStore.packIds s
  let g := ids.foldl (ContentStore.gcPack keepHashes aged members) ⟨s, [], false⟩
  ids.flatMap (gcPackWrites keepHashes aged members) ++
    writesOver (ContentStore.compactPack P B keepHashes) (compactWrites P B keepHashes) g.store
      g.toCompact ++
    match g.toCompact.foldlM (ContentStore.compactPack P B keepHashes) g.store with
    | none => []
    | some s' => if g.dirty ∨ g.toCompact ≠ [] then rewriteWrites s' else []

def deferredWrites (m : ContentStore.Merging) : List Write :=
  flushWrites m.store ++ m.pendingRemoval.map .removePack

def mergeWrites (keepHashes : List String) (flushEvery : Nat) (members : Nat → List String)
    (m : ContentStore.Merging) (packId : Nat) : List Write :=
  match m.store.packs.get packId with
  | none => []
  | some packText =>
      match (members packId).foldlM (ContentStore.mergeBlob P keepHashes packId packText) m with
      | none => []
      | some m' =>
          if m'.store.packBuffer.length ≥ flushEvery then
            deferredWrites { m' with pendingRemoval := m'.pendingRemoval ++ [packId] }
          else []

def consolidateWrites (keepHashes : List String) (smallPackThreshold flushEvery : Nat)
    (s : ContentStore) : List Write :=
  let ids := ContentStore.packIds s
  let members := ContentStore.members s
  let live := fun packId => ContentStore.liveCount keepHashes (members packId)
  let toRetire := ids.filter (fun packId => live packId = 0)
  let toStreamMerge := ids.filter (fun packId => live packId ≠ 0 ∧ live packId < smallPackThreshold)
  let toCompactInPlace := ids.filter (fun packId => live packId ≠ 0 ∧
    smallPackThreshold ≤ live packId ∧ live packId < (members packId).length)
  let retired := toRetire.foldl (fun s' packId => ContentStore.retire s' packId (members packId)) s
  let retiredBlobs := (toRetire.map (fun packId => (members packId).length)).sum
  let start : ContentStore.Merging := ⟨retired, [], 0, retiredBlobs⟩
  let merge := ContentStore.mergePack P B keepHashes flushEvery members
  toRetire.map .removePack ++
    writesOver merge (mergeWrites P keepHashes flushEvery members) start toStreamMerge ++
    match toStreamMerge.foldlM merge start with
    | none => []
    | some merging =>
        let merged := ContentStore.flushAndRetireDeferred B members merging
        deferredWrites merging ++
          writesOver (ContentStore.compactPack P B keepHashes) (compactWrites P B keepHashes)
            merged.store toCompactInPlace ++
          match toCompactInPlace.foldlM (ContentStore.compactPack P B keepHashes) merged.store with
          | none => []
          | some s' =>
              if toRetire ++ toStreamMerge ++ toCompactInPlace = [] then [] else rewriteWrites s'

/-- The file calls of each operation of the store. -/
def callWrites (s : ContentStore) : Call → List Write
  | .put content => flushWrites (ContentStore.putBuffered B s (P.sha256Hex content) content)
  | .flushPack => flushWrites s
  | .delete hash => if s.index.has hash then rewriteWrites (ContentStore.drop s hash) else []
  | .gc keepHashes aged => gcWrites P B keepHashes aged s
  | .consolidatePacks keepHashes smallPackThreshold flushEvery =>
      consolidateWrites P B keepHashes smallPackThreshold flushEvery s
  | .putBuffered _ | .get _ | .clearMemCache | .init => []

end OpsBlobs.PackScript
