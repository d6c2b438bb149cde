import OpsBlobs.Base64
import OpsBlobs.GraphWalk
import OpsBlobs.Types

namespace OpsBlobs.PackedContent

open Base64 GraphWalk Types

/-- Where a packed blob's base64 text lies. -/
structure PackLoc where
  packId : Nat
  offset : Nat
  len : Nat
  deriving DecidableEq, Repr

/-- The cached blobs, the least recently used first, and their size. -/
structure MemCache where
  blobs : JsMap String Bytes
  memBytes : Int

/-- The content store: its memory, and the files of its packs and of their index, a line
a blob. `pending` holds the hashes of the blobs in `packBuffer`. -/
structure ContentStore where
  memCache : MemCache
  index : JsMap String PackLoc
  packBuffer : List (String × List Char)
  pending : List String
  nextPackId : Nat
  packs : JsMap Nat (List Char)
  indexFile : List (String × PackLoc)

def uint8ToBase64 (bytes : Bytes) : List Char := btoa bytes

def base64ToUint8 (b64 : List Char) : Option Bytes := atob b64

def substr (text : List Char) (start length : Nat) : List Char := (text.drop start).take length

namespace MemCache

def empty : MemCache := ⟨.empty, 0⟩

def evict (budget : Nat) (pending : List String) (cache : MemCache) (e : String × Bytes) :
    MemCache :=
  if cache.memBytes ≤ budget then cache
  else if e.1 ∈ pending then cache
  else ⟨cache.blobs.delete e.1, cache.memBytes - e.2.length⟩

/-- Drops the oldest blobs until the cache fits the budget; the pending ones stay. -/
def evictToBudget (budget : Nat) (pending : List String) (cache : MemCache) : MemCache :=
  cache.blobs.entries.foldl (evict budget pending) cache

def sizeOf (cache : MemCache) (hash : String) : Int :=
  match cache.blobs.get hash with
  | none => 0
  | some prev => prev.length

def cacheSet (budget : Nat) (pending : List String) (cache : MemCache) (hash : String)
    (content : Bytes) : MemCache :=
  evictToBudget budget pending ⟨(cache.blobs.delete hash).set hash content,
    cache.memBytes - cache.sizeOf hash + content.length⟩

def cacheDelete (cache : MemCache) (hash : String) : MemCache :=
  ⟨cache.blobs.delete hash, cache.memBytes - cache.sizeOf hash⟩

/-- A hit moves the blob to the recently used end. -/
def touch (cache : MemCache) (hash : String) (content : Bytes) : MemCache :=
  { cache with blobs := (cache.blobs.delete hash).set hash content }

end MemCache

namespace ContentStore

/-- A store that was never written to. -/
def empty : ContentStore := ⟨.empty, .empty, [], [], 0, .empty, []⟩

/-- A start of the plugin: the index is read back, and new packs are numbered past the
ones there are. -/
def init (s : ContentStore) : ContentStore where
  memCache := .empty
  index := JsMap.ofList s.indexFile
  packBuffer := []
  pending := []
  nextPackId := s.packs.keys.foldl (fun next id => max next (id + 1)) 0
  packs := s.packs
  indexFile := s.indexFile

section Pack

/-- A pack under construction, with the index it extends and the lines for its file. -/
structure Flush where
  packBody : List Char
  index : JsMap String PackLoc
  idxDelta : List (String × PackLoc)

def header (hash : String) (b64 : List Char) : List Char :=
  hash.toList ++ ' ' :: (toString b64.length).toList ++ ['\n']

def addBlob (packId : Nat) (f : Flush) (blob : String × List Char) : Flush :=
  let head := header blob.1 blob.2
  let loc : PackLoc := ⟨packId, f.packBody.length + head.length, blob.2.length⟩
  ⟨f.packBody ++ head ++ blob.2 ++ ['\n'], f.index.set blob.1 loc, f.idxDelta ++ [(blob.1, loc)]⟩

end Pack

variable (P : Platform) (budget : Nat)

/-- Appends the buffered blobs to a fresh pack and their places to the index. -/
def flushPack (s : ContentStore) : ContentStore :=
  if s.packBuffer = [] then s
  else
    let f := s.packBuffer.foldl (addBlob s.nextPackId) ⟨[], s.index, []⟩
    { memCache := s.memCache.evictToBudget budget []
      index := f.index
      packBuffer := []
      pending := []
      nextPackId := s.nextPackId + 1
      packs := s.packs.set s.nextPackId ((s.packs.get s.nextPackId).getD [] ++ f.packBody)
      indexFile := s.indexFile ++ f.idxDelta }

def putBuffered (s : ContentStore) (hash : String) (content : Bytes) : ContentStore :=
  if s.memCache.blobs.has hash ∨ hash ∈ s.pending then s
  else
    { s with
      pending := s.pending ++ [hash]
      memCache := s.memCache.cacheSet budget (s.pending ++ [hash]) hash content
      packBuffer := s.packBuffer ++ [(hash, uint8ToBase64 content)] }

def put (s : ContentStore) (hash : String) (content : Bytes) : ContentStore :=
  flushPack budget (putBuffered budget s hash content)

/-- A blob of a pack: null when it is torn or does not hash back, and none when the text is
no base64, where the source throws. -/
def extract (pack : List Char) (hash : String) (loc : PackLoc) : Option (Option Bytes) :=
  let body := substr pack loc.offset loc.len
  if body.length ≠ loc.len then some none
  else
    match base64ToUint8 body with
    | none => none
    | some content => some (if P.sha256Hex content = hash then some content else none)

/-- One entry of the index, while a pack is read: its blob is cached if it lies there. -/
def cacheBlob (s : ContentStore) (pack : List Char) (packId : Nat) (hash : String)
    (read : Option Bytes × MemCache) (e : String × PackLoc) : Option (Option Bytes × MemCache) :=
  if e.2.packId ≠ packId ∨ read.2.blobs.has e.1 = true then some read
  else
    (extract P pack e.1 e.2).map fun body =>
      match body with
      | none => read
      | some content => (if e.1 = hash then some content else read.1,
          read.2.cacheSet budget s.pending e.1 content)

def getFromPack (s : ContentStore) (hash : String) : Option (Option Bytes × MemCache) :=
  match s.index.get hash with
  | none => some (none, s.memCache)
  | some loc =>
      match s.packs.get loc.packId with
      | none => some (none, s.memCache)
      | some pack =>
          s.index.entries.foldlM (cacheBlob P budget s pack loc.packId hash)
            (s.memCache.blobs.get hash, s.memCache)

/-- What is read, and the cache after it; a read changes nothing else. -/
def get (s : ContentStore) (hash : String) : Option (Option Bytes × MemCache) :=
  match s.memCache.blobs.get hash with
  | some cached => some (some cached, s.memCache.touch hash cached)
  | none => getFromPack P budget s hash

def hasStored (s : ContentStore) (hash : String) : Bool :=
  s.memCache.blobs.has hash || s.index.has hash

def listHashes (s : ContentStore) : List String := s.index.keys

def clearMemCache (s : ContentStore) : ContentStore := { s with memCache := .empty }

def rewriteIndex (s : ContentStore) : ContentStore := { s with indexFile := s.index.entries }

section Packs

/-- The packs the index names, and the blobs it has in each. -/
def packIds (s : ContentStore) : List Nat := fresh [] (s.index.values.map (·.packId))

def members (s : ContentStore) (packId : Nat) : List String :=
  (s.index.entries.filter (fun e => e.2.packId = packId)).map Prod.fst

def liveCount (keepHashes hashes : List String) : Nat := hashes.countP (· ∈ keepHashes)

def drop (s : ContentStore) (hash : String) : ContentStore :=
  { s with index := s.index.delete hash, memCache := s.memCache.cacheDelete hash }

/-- A blob that is dropped by name; its bytes stay in the pack. -/
def delete (s : ContentStore) (hash : String) : ContentStore :=
  if s.index.has hash then rewriteIndex (drop s hash)
  else { s with memCache := s.memCache.cacheDelete hash }

def remove (s : ContentStore) (packId : Nat) : ContentStore :=
  { s with packs := s.packs.delete packId }

/-- A pack with no live blob goes as a whole. -/
def retire (s : ContentStore) (packId : Nat) (hashes : List String) : ContentStore :=
  hashes.foldl drop (remove s packId)

/-- Drops a blob that is still looked up in a removed pack. -/
def dropIfIn (packId : Nat) (s : ContentStore) (hash : String) : ContentStore :=
  if (s.index.get hash).map (·.packId) = some packId then drop s hash else s

def dropFrom (packId : Nat) (s : ContentStore) (hashes : List String) : ContentStore :=
  hashes.foldl (dropIfIn packId) s

/-- Moves one live blob of a pack into the buffer. -/
def rebuffer (s : ContentStore) (hash : String) : Option ContentStore :=
  (get P budget s hash).map fun read =>
    match read.1 with
    | none => { s with memCache := read.2 }
    | some bytes =>
        { s with
          memCache := read.2
          pending := if hash ∈ s.pending then s.pending else s.pending ++ [hash]
          packBuffer := s.packBuffer ++ [(hash, uint8ToBase64 bytes)] }

/-- Rewrites the live blobs of a pack into a fresh one and drops the old pack. -/
def compactPack (keepHashes : List String) (s : ContentStore) (packId : Nat) :
    Option ContentStore :=
  let packMembers := members s packId
  ((packMembers.filter (· ∈ keepHashes)).foldlM (rebuffer P budget) s).map fun s =>
    dropFrom packId (remove (flushPack budget s) packId) packMembers

end Packs

section Gc

/-- Whether a pack's file is older than the retention window; one that has no date is not. -/
def packAged (stat : Nat → Option Int) (retentionMs now : Int) (packId : Nat) : Bool :=
  match stat packId with
  | none => false
  | some mtime => now - mtime ≥ retentionMs

/-- Fewer than half of an aged pack's blobs are live, `COMPACT_LIVE_FRACTION`. -/
def mostlyDead (keepHashes hashes : List String) : Bool :=
  2 * liveCount keepHashes hashes < hashes.length

structure GcSweep where
  store : ContentStore
  toCompact : List Nat
  dirty : Bool

def gcPack (keepHashes : List String) (aged : Nat → Bool) (members : Nat → List String)
    (g : GcSweep) (packId : Nat) : GcSweep :=
  let hashes := members packId
  if !aged packId then g
  else if liveCount keepHashes hashes = 0 then
    { g with store := retire g.store packId hashes, dirty := true }
  else if liveCount keepHashes hashes < hashes.length ∧ mostlyDead keepHashes hashes then
    { g with toCompact := g.toCompact ++ [packId] }
  else g

def gc (keepHashes : List String) (aged : Nat → Bool) (s : ContentStore) : Option ContentStore :=
  let g := (packIds s).foldl (gcPack keepHashes aged (members s)) ⟨s, [], false⟩
  (g.toCompact.foldlM (compactPack P budget keepHashes) g.store).map fun s =>
    if g.dirty ∨ g.toCompact ≠ [] then rewriteIndex s else s

end Gc

section Consolidate

/-- The small packs are merged in a stream: the packs read so far stay until their live
blobs are flushed. -/
structure Merging where
  store : ContentStore
  pendingRemoval : List Nat
  blobsKept : Nat
  blobsDropped : Nat

def removeMerged (members : Nat → List String) (s : ContentStore) (oldId : Nat) : ContentStore :=
  dropFrom oldId (remove s oldId) (members oldId)

def flushAndRetireDeferred (members : Nat → List String) (m : Merging) : Merging :=
  if m.store.packBuffer = [] ∧ m.pendingRemoval = [] then m
  else
    { m with
      store := m.pendingRemoval.foldl (removeMerged members) (flushPack budget m.store)
      pendingRemoval := [] }

/-- One blob of a small pack: a live one is moved into the buffer as it stands. -/
def mergeBlob (keepHashes : List String) (packId : Nat) (packText : List Char) (m : Merging)
    (hash : String) : Option Merging :=
  match m.store.index.get hash with
  | none => some m
  | some loc =>
      if loc.packId ≠ packId then some m
      else if hash ∉ keepHashes then some { m with blobsDropped := m.blobsDropped + 1 }
      else
        (extract P packText hash loc).map fun body =>
          match body with
          | none => { m with blobsDropped := m.blobsDropped + 1 }
          | some _ =>
              { m with
                store := { m.store with packBuffer := m.store.packBuffer ++
                  [(hash, substr packText loc.offset loc.len)] }
                blobsKept := m.blobsKept + 1 }

def mergePack (keepHashes : List String) (flushEvery : Nat) (members : Nat → List String)
    (m : Merging) (packId : Nat) : Option Merging :=
  match m.store.packs.get packId with
  | none => some m
  | some packText =>
      ((members packId).foldlM (mergeBlob P keepHashes packId packText) m).map fun m =>
        let m := { m with pendingRemoval := m.pendingRemoval ++ [packId] }
        if m.store.packBuffer.length ≥ flushEvery then flushAndRetireDeferred budget members m
        else m

structure Consolidation where
  packsBefore : Nat
  packsAfter : Nat
  blobsKept : Nat
  blobsDropped : Nat
  deriving DecidableEq, Repr

def consolidatePacks (keepHashes : List String) (smallPackThreshold flushEvery : Nat)
    (s : ContentStore) : Option (Consolidation × ContentStore) := do
  let ids := packIds s
  let live := fun packId => liveCount keepHashes (members s packId)
  let toRetire := ids.filter (fun packId => live packId = 0)
  let toStreamMerge := ids.filter (fun packId => live packId ≠ 0 ∧ live packId < smallPackThreshold)
  let toCompactInPlace := ids.filter (fun packId => live packId ≠ 0 ∧
    smallPackThreshold ≤ live packId ∧ live packId < (members s packId).length)
  let retired := toRetire.foldl (fun s' packId => retire s' packId (members s packId)) s
  let retiredBlobs := (toRetire.map (fun packId => (members s packId).length)).sum
  let merging ← toStreamMerge.foldlM (mergePack P budget keepHashes flushEvery (members s))
    ⟨retired, [], 0, retiredBlobs⟩
  let merged := flushAndRetireDeferred budget (members s) merging
  let compacted ← toCompactInPlace.foldlM (compactPack P budget keepHashes) merged.store
  let s' := if toRetire ++ toStreamMerge ++ toCompactInPlace = [] then compacted
    else rewriteIndex compacted
  let compactedLive := (toCompactInPlace.map live).sum
  let compactedDead :=
    (toCompactInPlace.map (fun packId => (members s packId).length - live packId)).sum
  pure (⟨ids.length, (packIds s').length, merged.blobsKept + compactedLive,
    merged.blobsDropped + compactedDead⟩, s')

end Consolidate

end ContentStore

end OpsBlobs.PackedContent
