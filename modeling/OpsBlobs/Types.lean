import OpsBlobs.Diff3
import OpsBlobs.Hlc

namespace OpsBlobs.Types

open Diff3 Hlc

abbrev Path := String

abbrev Bytes := List UInt8

/-- The platform functions the plugin calls: the SHA-256 hex digest and the text codecs. -/
structure Platform where
  sha256Hex : Bytes → String
  decode : Bytes → Text
  encode : Text → Bytes

structure FileEntry where
  id : String
  path : Path
  contentHash : String
  hlcTimestamp : Hlc
  deleted : Bool
  lastSyncedPath : Option Path
  headVersionId : Option String
  conflictParents : Option (List String)
  mtime : Option Nat
  size : Option Nat
  deriving DecidableEq, Repr

/-- The head as the code tests it: an empty id counts as none. -/
def FileEntry.head (e : FileEntry) : Option String := e.headVersionId.filter (· ≠ "")

/-- Two open heads: a conflict is on disk as markers and waits for its resolving save. -/
def FileEntry.TwoHeaded (e : FileEntry) : Prop :=
  ∃ heads, e.conflictParents = some heads ∧ 2 ≤ heads.length

instance (e : FileEntry) : Decidable e.TwoHeaded :=
  match h : e.conflictParents with
  | none => isFalse (by
      rintro ⟨heads, he, -⟩
      simp [h] at he)
  | some heads =>
      if hl : 2 ≤ heads.length then isTrue ⟨heads, h, hl⟩
      else isFalse (by
        rintro ⟨heads', he, hl'⟩
        obtain rfl := Option.some.inj (h.symm.trans he)
        exact hl hl')

inductive OperationType
  | create
  | update
  | delete
  | move
  deriving DecidableEq, Repr

def OP_FORMAT_VERSION : Nat := 1

structure Operation where
  v : Nat
  id : String
  hlcTimestamp : Hlc
  fileId : String
  type : OperationType
  path : Path
  contentHash : String
  parents : List String
  deriving DecidableEq, Repr

/-- Entries keyed by their own id, in insertion order. -/
structure FileEntries where
  map : JsMap String FileEntry
  keyed : ∀ id e, map.get id = some e → e.id = id

namespace FileEntries

def get (m : FileEntries) (id : String) : Option FileEntry := m.map.get id

def keys (m : FileEntries) : List String := m.map.keys

def values (m : FileEntries) : List FileEntry := m.map.values

def empty : FileEntries := ⟨JsMap.empty, by simp⟩

def set (m : FileEntries) (e : FileEntry) : FileEntries :=
  ⟨m.map.set e.id e, by
    intro id e' h
    rw [JsMap.get_set] at h
    split at h
    · rename_i hid
      exact Option.some.inj h ▸ hid
    · exact m.keyed id e' h⟩

def delete (m : FileEntries) (id : String) : FileEntries :=
  ⟨m.map.delete id, by
    intro id' e' h
    rw [JsMap.get_delete] at h
    split at h
    · simp at h
    · exact m.keyed id' e' h⟩

def ofList (l : List FileEntry) : FileEntries := l.foldl set empty

theorem get_id {m : FileEntries} {id : String} {e : FileEntry} (h : m.get id = some e) :
    e.id = id := m.keyed id e h

@[simp] theorem get_empty (id : String) : empty.get id = none := rfl

theorem get_set (m : FileEntries) (e : FileEntry) (id : String) :
    (m.set e).get id = if e.id = id then some e else m.get id := JsMap.get_set m.map e.id id e

theorem get_delete (m : FileEntries) (id id' : String) :
    (m.delete id).get id' = if id = id' then none else m.get id' := JsMap.get_delete m.map id id'

theorem mem_keys_iff (m : FileEntries) {id : String} : id ∈ m.keys ↔ ∃ e, m.get id = some e :=
  JsMap.mem_keys_iff m.map

theorem mem_values_iff (m : FileEntries) {e : FileEntry} : e ∈ m.values ↔ m.get e.id = some e := by
  rw [values, JsMap.mem_values_iff]
  refine ⟨fun ⟨id, h⟩ => ?_, fun h => ⟨e.id, h⟩⟩
  rw [m.keyed id e h]
  exact h

end FileEntries

structure VaultState where
  deviceId : String
  hlc : Hlc
  fileEntries : FileEntries
  pendingOps : List Operation
  contentStore : JsMap String Bytes

inductive DeleteSide
  | localDeleted
  | remoteDeleted
  deriving DecidableEq, Repr

inductive MergeAction
  | writeLocal (fileId : String) (path : Path) (content : Bytes) (hlc : Hlc)
      (headVersionId : Option String)
  | writeMerge (fileId : String) (path : Path) (content : Bytes) (parents : List String)
  | sendRemote (fileId : String) (path : Path) (hlc : Hlc)
  | deleteLocal (fileId : String) (path : Path)
  | deleteRemote (fileId : String) (path : Path)
  | moveLocal (fileId : String) (fromPath toPath : Path)
  | conflict (fileId : String) (localPath remotePath : Path) (mergeResult : ThreeWayMergeResult Line)
      (localContent remoteContent : Text) (parents : Option (List String))
  | deleteConflict (fileId : String) (path : Path) (side : DeleteSide) (content : Bytes)
      (parents : Option (List String))
  | binaryConflict (fileId : String) (localPath remotePath : Path)
      (localContent remoteContent : Bytes) (localHlc remoteHlc : Hlc)
      (parents : Option (List String))
  | noOp (fileId : String)
  deriving DecidableEq, Repr

def MergeAction.fileId : MergeAction → String
  | writeLocal fileId .. | writeMerge fileId .. | sendRemote fileId .. | deleteLocal fileId ..
  | deleteRemote fileId .. | moveLocal fileId .. | conflict fileId .. | deleteConflict fileId ..
  | binaryConflict fileId .. | noOp fileId => fileId

def MergeAction.affectsLocalVault : MergeAction → Bool
  | writeLocal .. | writeMerge .. | deleteLocal .. | moveLocal .. | conflict ..
  | deleteConflict .. | binaryConflict .. => true
  | sendRemote .. | deleteRemote .. | noOp .. => false

structure StateMergeResult where
  actions : List MergeAction
  mergedHlc : Hlc
  deriving DecidableEq, Repr

/-- A platform to run examples on: one-byte texts, and the text itself as its hash. -/
def asciiPlatform : Platform where
  sha256Hex bytes := String.ofList (bytes.map (fun b => Char.ofNat b.toNat))
  decode bytes := bytes.map (fun b => Char.ofNat b.toNat)
  encode text := text.map (fun c => UInt8.ofNat c.toNat)

def fileAt (id : String) (path : Path) (contentHash : String) (wallTime : Nat) : FileEntry where
  id := id
  path := path
  contentHash := contentHash
  hlcTimestamp := ⟨wallTime, 0, "a"⟩
  deleted := false
  lastSyncedPath := none
  headVersionId := none
  conflictParents := none
  mtime := none
  size := none

def stateOf (entries : List FileEntry) (contents : List (String × Bytes)) : VaultState where
  deviceId := "a"
  hlc := ⟨0, 0, "a"⟩
  fileEntries := FileEntries.ofList entries
  pendingOps := []
  contentStore := JsMap.ofList contents

theorem get_stateOf_singleton (e : FileEntry) (contents : List (String × Bytes)) (id : String) :
    (stateOf [e] contents).fileEntries.get id = if e.id = id then some e else none :=
  FileEntries.get_set .empty e id

end OpsBlobs.Types
