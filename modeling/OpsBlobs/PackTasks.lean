import OpsBlobs.PackCrash
import OpsBlobs.TaskPool

namespace OpsBlobs.PackTasks

open Types PackedContent PackMaintenance PackRefinement PackCrash Coroutine TaskPool

/-- How far the two appends of a flush have come. -/
inductive Phase
  | body
  | places
  | landed
  deriving DecidableEq

/-- A pack that was built, and the task whose flush writes it. -/
structure Flight where
  owner : Nat
  packBody : List Char
  idxDelta : List (String × PackLoc)
  phase : Phase

/-- What a write did that another task may not be ready for: a flush appended its places, or
cleared the buffer; the index was written anew from what it was when the task read it; a
compaction found no bytes of a live blob. -/
inductive Deed
  | plain
  | appended (idxDelta : List (String × PackLoc))
  | cleared
  | rewrote (k : Nat) (body : List (String × PackLoc))
  | missed (packId : Nat) (hash : String)

/-- The store that the tasks share, its files included. The rest only records what has
happened: the packs built so far, the hashes buffered since the last one was, the tasks that
have removed packs and have yet to rewrite the index, the contents whose `put` has resolved,
and the last write. -/
structure State where
  store : ContentStore
  flights : JsMap Nat Flight
  unflushed : List String
  dirty : List Nat
  acked : List Bytes
  deed : Deed

abbrev Async := Coroutine State Unit

section Steps

def update (f : State → State) : Async Unit := modify fun s => { f s with deed := .plain }

def onStore (f : ContentStore → ContentStore) : Async Unit :=
  update fun s => { s with store := f s.store }

/-- A file is read or written between the call and the end of its `await`. -/
def fileCall {α : Type} (t : Async α) : Async α := do
  pause
  let a ← t
  pause
  pure a

end Steps

variable (P : Platform) (B : Nat) (k : Nat)

section Put

def State.push (s : State) (store : ContentStore) (hash : String) : State :=
  { s with store := store, unflushed := s.unflushed ++ [hash] }

def putBuffered (hash : String) (content : Bytes) : Async Unit :=
  update fun s =>
    if s.store.memCache.blobs.has hash ∨ hash ∈ s.store.pending then s
    else s.push (ContentStore.putBuffered B s.store hash content) hash

/-- What stands before the first `await` of a flush: the pack's number is taken, and the index
names it. -/
def State.launch (f : ContentStore.Flush) (s : State) : State :=
  { s with
    store := { s.store with index := f.index, nextPackId := s.store.nextPackId + 1 }
    flights := s.flights.set s.store.nextPackId ⟨k, f.packBody, f.idxDelta, .body⟩
    unflushed := [] }

def State.appendPack (packId : Nat) (f : ContentStore.Flush) (s : State) : State :=
  { s with
    store := { s.store with
      packs := s.store.packs.set packId ((s.store.packs.get packId).getD [] ++ f.packBody) }
    flights := s.flights.set packId ⟨k, f.packBody, f.idxDelta, .places⟩ }

def State.appendIndex (packId : Nat) (f : ContentStore.Flush) (s : State) : State :=
  { s with
    store := { s.store with indexFile := s.store.indexFile ++ f.idxDelta }
    flights := s.flights.set packId ⟨k, f.packBody, f.idxDelta, .landed⟩
    deed := .appended f.idxDelta }

def State.clear (s : State) : State :=
  { s with
    store := { s.store with
      packBuffer := []
      pending := []
      memCache := s.store.memCache.evictToBudget B [] }
    unflushed := []
    deed := .cleared }

def pack (s : ContentStore) : ContentStore.Flush :=
  s.packBuffer.foldl (ContentStore.addBlob s.nextPackId) ⟨[], s.index, []⟩

def flushPack : Async Unit := do
  let s ← Coroutine.get
  if s.store.packBuffer = [] then pure ()
  else do
    update (State.launch k (pack s.store))
    pause
    fileCall (update (State.appendPack k s.store.nextPackId (pack s.store)))
    fileCall (modify (State.appendIndex k s.store.nextPackId (pack s.store)))
    modify (State.clear B)

def put (content : Bytes) : Async Unit := do
  putBuffered B (P.sha256Hex content) content
  pause
  flushPack B k
  pause
  update fun s => { s with acked := s.acked ++ [content] }

end Put

section Read

def readPack (packId : Nat) : Async (Option (List Char)) :=
  fileCall (do
    let s ← Coroutine.get
    pure (s.store.packs.get packId))

/-- One entry of the index while a pack is read. An entry that has gone is not visited, and
those that come in meanwhile are of later packs. -/
def cacheBlob (packId : Nat) (pack : List Char) (hash : String) (found : Option Bytes)
    (h : String) : Async (Option Bytes) := do
  let s ← Coroutine.get
  match s.store.index.get h with
  | none => pure found
  | some l =>
      if l.packId ≠ packId ∨ s.store.memCache.blobs.has h = true then pure found
      else if (substr pack l.offset l.len).length ≠ l.len then pure found
      else
        match base64ToUint8 (substr pack l.offset l.len) with
        | none => throw ()
        | some content => do
            pause
            if P.sha256Hex content = h then do
              onStore fun s => { s with memCache := s.memCache.cacheSet B s.pending h content }
              pure (if h = hash then some content else found)
            else pure found

def getFromPack (hash : String) : Async (Option Bytes) := do
  let s ← Coroutine.get
  match s.store.index.get hash with
  | none => pure none
  | some loc => do
      match ← readPack loc.packId with
      | none => pure none
      | some pack => do
          let s ← Coroutine.get
          foldM (cacheBlob P B loc.packId pack hash) (s.store.memCache.blobs.get hash)
            s.store.index.keys

def get (hash : String) : Async (Option Bytes) := do
  let s ← Coroutine.get
  match s.store.memCache.blobs.get hash with
  | some cached => do
      onStore fun s => { s with memCache := s.memCache.touch hash cached }
      pure (some cached)
  | none => getFromPack P B hash

end Read

section Packs

def rewriteIndex : Async Unit := do
  let s ← Coroutine.get
  fileCall (modify fun t => { t with
    store := { t.store with indexFile := s.store.index.entries }
    dirty := t.dirty.filter (· ≠ k)
    deed := .rewrote k s.store.index.entries })

def delete (hash : String) : Async Unit := do
  let s ← Coroutine.get
  onStore fun s => ContentStore.drop s hash
  if s.store.index.has hash then rewriteIndex k else pure ()

def remove (packId : Nat) : Async Unit :=
  fileCall (update fun s => { s with
    store := ContentStore.remove s.store packId
    dirty := k :: s.dirty })

def retire (packId : Nat) (hashes : List String) : Async Unit := do
  remove k packId
  onStore fun s => hashes.foldl ContentStore.drop s

def rebuffer (packId : Nat) (hash : String) : Async Unit := do
  let bytes ← get P B hash
  pause
  match bytes with
  | none => modify fun s => { s with deed := .missed packId hash }
  | some bytes => update fun s => s.push { s.store with
      pending := if hash ∈ s.store.pending then s.store.pending else s.store.pending ++ [hash]
      packBuffer := s.store.packBuffer ++ [(hash, uint8ToBase64 bytes)] } hash

def compactPack (keepHashes : List String) (packId : Nat) : Async Unit := do
  let s ← Coroutine.get
  forEach (rebuffer P B packId)
    ((ContentStore.members s.store packId).filter (· ∈ keepHashes))
  flushPack B k
  pause
  remove k packId
  onStore fun t => ContentStore.dropFrom packId t (ContentStore.members s.store packId)

end Packs

section Gc

/-- A pack without a file has no date. -/
def packAged (aged : Nat → Bool) (packId : Nat) : Async Bool :=
  fileCall (do
    let s ← Coroutine.get
    pure (s.store.packs.has packId && aged packId))

structure GcSweep where
  toCompact : List Nat
  dirty : Bool

def gcPack (keepHashes : List String) (aged : Nat → Bool) (members : Nat → List String)
    (g : GcSweep) (packId : Nat) : Async GcSweep := do
  let old ← packAged aged packId
  if !old then pure g
  else if ContentStore.liveCount keepHashes (members packId) = 0 then do
    retire k packId (members packId)
    pure { g with dirty := true }
  else if ContentStore.liveCount keepHashes (members packId) < (members packId).length ∧
      ContentStore.mostlyDead keepHashes (members packId) then
    pure { g with toCompact := g.toCompact ++ [packId] }
  else pure g

def gc (keepHashes : List String) (aged : Nat → Bool) : Async Unit := do
  let s ← Coroutine.get
  let g ← foldM (gcPack k keepHashes aged (ContentStore.members s.store)) ⟨[], false⟩
    (ContentStore.packIds s.store)
  forEach (fun packId => do compactPack P B k keepHashes packId; pause) g.toCompact
  if g.dirty ∨ g.toCompact ≠ [] then rewriteIndex k else pure ()

end Gc

section Consolidate

def removeMerged (members : Nat → List String) (oldId : Nat) : Async Unit := do
  remove k oldId
  onStore fun s => ContentStore.dropFrom oldId s (members oldId)

def flushAndRetireDeferred (members : Nat → List String) (pendingRemoval : List Nat) :
    Async Unit := do
  let s ← Coroutine.get
  if s.store.packBuffer = [] ∧ pendingRemoval = [] then pure ()
  else do
    flushPack B k
    pause
    forEach (removeMerged k members) pendingRemoval

def mergeBlob (keepHashes : List String) (packId : Nat) (packText : List Char) (hash : String) :
    Async Unit := do
  let s ← Coroutine.get
  match s.store.index.get hash with
  | none => pure ()
  | some loc =>
      if loc.packId ≠ packId then pure ()
      else if hash ∉ keepHashes then pure ()
      else if (substr packText loc.offset loc.len).length ≠ loc.len then pure ()
      else
        match base64ToUint8 (substr packText loc.offset loc.len) with
        | none => throw ()
        | some content => do
            pause
            if P.sha256Hex content = hash then
              update fun s => s.push { s.store with
                packBuffer := s.store.packBuffer ++ [(hash, substr packText loc.offset loc.len)] } hash
            else pure ()

def mergePack (keepHashes : List String) (flushEvery : Nat) (members : Nat → List String)
    (pendingRemoval : List Nat) (packId : Nat) : Async (List Nat) := do
  match ← readPack packId with
  | none => pure pendingRemoval
  | some packText => do
      forEach (mergeBlob P keepHashes packId packText) (members packId)
      let s ← Coroutine.get
      if s.store.packBuffer.length ≥ flushEvery then do
        flushAndRetireDeferred B k members (pendingRemoval ++ [packId])
        pause
        pure []
      else pure (pendingRemoval ++ [packId])

def consolidatePacks (keepHashes : List String) (smallPackThreshold flushEvery : Nat) :
    Async Unit := do
  let s ← Coroutine.get
  let ids := ContentStore.packIds s.store
  let members := ContentStore.members s.store
  let live := fun packId => ContentStore.liveCount keepHashes (members packId)
  let toRetire := ids.filter (fun packId => live packId = 0)
  let toStreamMerge := ids.filter (fun packId => live packId ≠ 0 ∧ live packId < smallPackThreshold)
  let toCompactInPlace := ids.filter (fun packId => live packId ≠ 0 ∧
    smallPackThreshold ≤ live packId ∧ live packId < (members packId).length)
  forEach (fun packId => retire k packId (members packId)) toRetire
  let pendingRemoval ← foldM (mergePack P B k keepHashes flushEvery members) [] toStreamMerge
  flushAndRetireDeferred B k members pendingRemoval
  pause
  forEach (fun packId => do compactPack P B k keepHashes packId; pause) toCompactInPlace
  if toRetire ++ toStreamMerge ++ toCompactInPlace = [] then pure () else rewriteIndex k

end Consolidate

/-- The task of a call. The start of the plugin is not among them: nothing runs beside it. -/
def task : Call → Async Unit
  | .put content => put P B k content
  | .putBuffered content => putBuffered B (P.sha256Hex content) content
  | .flushPack => flushPack B k
  | .get hash => do
      let _ ← get P B hash
      pure ()
  | .delete hash => delete k hash
  | .clearMemCache => onStore ContentStore.clearMemCache
  | .gc keepHashes aged => gc P B k keepHashes aged
  | .consolidatePacks keepHashes smallPackThreshold flushEvery =>
      consolidatePacks P B k keepHashes smallPackThreshold flushEvery
  | .init => pure ()

section Careful

/-- The flush of the pack the blob is looked up in has yet to append its places. -/
def placing (s : State) (hash : String) : Bool :=
  match s.store.index.get hash with
  | none => false
  | some loc => (s.flights.get loc.packId).any (fun f => f.phase ≠ .landed)

/-- What keeps a blob, for each write that takes no heed of the other tasks. No place of the
blob is appended after its pack was removed, and none is overwritten by an older index, unless
another task has the index yet to rewrite; the buffer is cleared only of what was flushed; and
no compaction reads the blob's pack before it is written. -/
def Spares (hash : String) (s : State) : Deed → Prop
  | .plain => True
  | .appended idxDelta => ∀ loc ∈ (JsMap.ofList idxDelta).get hash,
      s.dirty ≠ [] ∨ s.store.packs.has loc.packId = true
  | .cleared => hash ∉ s.unflushed
  | .rewrote k body => (∃ j ∈ s.dirty, j ≠ k) ∨ placing s hash = true ∨
      (JsMap.ofList body).get hash = s.store.index.get hash
  | .missed packId h => h = hash → ¬ At s.store packId hash

instance (hash : String) (s : State) : ∀ deed, Decidable (Spares hash s deed)
  | .plain => isTrue trivial
  | .appended _ => inferInstanceAs (Decidable (∀ _ ∈ _, _ ∨ _))
  | .cleared => inferInstanceAs (Decidable (_ ∉ _))
  | .rewrote _ _ => inferInstanceAs (Decidable (_ ∨ _ ∨ _))
  | .missed _ _ => inferInstanceAs (Decidable (_ → ¬ _))

def Careful (hash : String) (s t : State) : Prop := Spares hash s t.deed

instance (hash : String) : DecidableRel (Careful hash) :=
  fun s t => inferInstanceAs (Decidable (Spares hash s t.deed))

end Careful

end OpsBlobs.PackTasks
