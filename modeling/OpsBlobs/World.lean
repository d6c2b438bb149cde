import OpsBlobs.Coroutine
import OpsBlobs.FileRegistry

namespace OpsBlobs.World

open Types Operations FileRegistry

structure File where
  content : Bytes
  mtime : Nat
  deriving DecidableEq, Repr

/-- How far a queued persist of the op log has come; `written` and `rewritten` hold the
number of ops that are in the file but not yet counted. -/
inductive PersistStage
  | append
  | rewrite
  | appending (delta : List Operation)
  | rewriting (ops : List Operation)
  | written (count : Nat)
  | rewritten (count : Nat)
  | counted
  deriving DecidableEq, Repr

/-- The op log: the pending ops, the journal's lines, how many of the pending ops it is
known to hold, and the queue of persists, which run one at a time. `recorded` is a
history variable: every op ever recorded. -/
structure OpLog where
  pendingOps : List Operation
  oplogPersistedCount : Nat
  journal : List Operation
  oplogPersistQueue : List (Nat × PersistStage)
  persistTickets : Nat
  recorded : List Operation
  deriving DecidableEq, Repr

end OpsBlobs.World

/-- One device: its vault, the plugin's memory and the op log's file. -/
structure OpsBlobs.World where
  disk : OpsBlobs.JsMap OpsBlobs.Types.Path OpsBlobs.World.File
  registry : OpsBlobs.FileRegistry
  log : OpsBlobs.World.OpLog
  hlc : OpsBlobs.Hlc
  wallClock : Nat → Nat
  wallReads : Nat
  contentStore : OpsBlobs.JsMap String OpsBlobs.Types.Bytes
  listening : Bool
  debounceTimers : List OpsBlobs.Types.Path

namespace OpsBlobs.World

open Types Operations FileRegistry Coroutine Hlc

abbrev Async := Coroutine World String

def bytesAt (w : World) (path : Path) : Option Bytes := (w.disk.get path).map (·.content)

theorem map_content (w : World) (path : Path) :
    (w.disk.get path).map (·.content) = w.bytesAt path := rfl

def wallTime (w : World) : Nat := w.wallClock w.wallReads

def setRegistry (f : FileRegistry → FileRegistry) : Async Unit :=
  modify (fun w => { w with registry := f w.registry })

/-- `HybridLogicalClock.now`. -/
def hlcNow : Async Hlc :=
  modifyGet (fun w =>
    let stamp := Hlc.now w.hlc w.wallTime
    (stamp, { w with hlc := stamp, wallReads := w.wallReads + 1 }))

/-- `HybridLogicalClock.setCurrent`: the device keeps its own id. -/
def setCurrent (h : Hlc) : Async Unit :=
  modify (fun w => { w with hlc := { h with deviceId := w.hlc.deviceId } })

/-- A registry mutation and the save that follows it. -/
def updateRegistry (f : FileRegistry → FileRegistry) : Async Unit := do
  setRegistry f
  pause

/-- A device at rest with these files and this registry. -/
def atRest (files : List (Path × Bytes)) (registry : FileRegistry) : World where
  disk := JsMap.ofList (files.map (fun f => (f.1, ⟨f.2, 0⟩)))
  registry := registry
  log := ⟨[], 0, [], [], 0, []⟩
  hlc := ⟨0, 0, "a"⟩
  wallClock := fun _ => 0
  wallReads := 0
  contentStore := JsMap.empty
  listening := true
  debounceTimers := []

namespace Files

def listOf (disk : JsMap Path File) : List VaultFileRef :=
  disk.entries.map (fun e => ⟨⟨e.2.mtime, e.2.content.length⟩, e.1⟩)

def list : Async (List VaultFileRef) := do
  let w ← get
  pure (listOf w.disk)

def read (path : Path) : Async (Option Bytes) := do
  pause
  let w ← get
  pause
  pure (w.bytesAt path)

def write (path : Path) (content : Bytes) : Async Unit := do
  pause
  modify (fun w => { w with disk := w.disk.set path ⟨content, w.wallTime⟩ })
  pause

/-- A move onto another file replaces it or throws, as the vault has it. -/
def move (D : Device) (fromPath toPath : Path) : Async Unit := do
  pause
  let w ← get
  match w.disk.get fromPath with
  | none => pure ()
  | some file =>
      if (w.disk.get toPath).isSome && !D.moveReplaces then
        throw "Destination file already exists!"
      else
        modify (fun w => { w with disk := (w.disk.delete fromPath).set toPath file })
  pause

def trash (path : Path) : Async Unit := do
  pause
  modify (fun w => { w with disk := w.disk.delete path })
  pause

def fileExists (path : Path) : Async Bool := do
  pause
  let w ← get
  pause
  pure (w.disk.get path).isSome

end Files

def hashContent (D : Device) (content : Bytes) : Async String := do
  pause
  pure (D.sha256Hex content)

namespace ContentStore

def has (hash : String) : Async Bool := do
  pause
  let w ← get
  pure (w.contentStore.has hash)

def put (hash : String) (content : Bytes) : Async Unit := do
  modify (fun w => { w with contentStore := w.contentStore.set hash content })
  pause

def putBuffered (hash : String) (content : Bytes) : Async Unit := put hash content

def flushPack : Async Unit := pause

end ContentStore

section Run

variable (w : World)

@[simp] theorem run_hlcNow : run hlcNow w = some (.ok (Hlc.now w.hlc w.wallTime),
    { w with hlc := Hlc.now w.hlc w.wallTime, wallReads := w.wallReads + 1 }) := rfl

@[simp] theorem run_updateRegistry (f : FileRegistry → FileRegistry) :
    run (updateRegistry f) w = some (.ok (), { w with registry := f w.registry }) := rfl

@[simp] theorem run_list : run Files.list w = some (.ok (Files.listOf w.disk), w) := rfl

@[simp] theorem run_read (path : Path) :
    run (Files.read path) w = some (.ok (w.bytesAt path), w) := rfl

@[simp] theorem run_write (path : Path) (content : Bytes) :
    run (Files.write path content) w =
      some (.ok (), { w with disk := w.disk.set path ⟨content, w.wallTime⟩ }) := rfl

@[simp] theorem run_trash (path : Path) :
    run (Files.trash path) w = some (.ok (), { w with disk := w.disk.delete path }) := rfl

@[simp] theorem run_fileExists (path : Path) :
    run (Files.fileExists path) w = some (.ok (w.disk.get path).isSome, w) := rfl

@[simp] theorem run_hashContent (D : Device) (content : Bytes) :
    run (hashContent D content) w = some (.ok (D.sha256Hex content), w) := rfl

@[simp] theorem run_has (hash : String) :
    run (ContentStore.has hash) w = some (.ok (w.contentStore.has hash), w) := rfl

@[simp] theorem run_put (hash : String) (content : Bytes) :
    run (ContentStore.put hash content) w =
      some (.ok (), { w with contentStore := w.contentStore.set hash content }) := rfl

@[simp] theorem run_putBuffered (hash : String) (content : Bytes) :
    run (ContentStore.putBuffered hash content) w =
      some (.ok (), { w with contentStore := w.contentStore.set hash content }) := rfl

theorem run_move (D : Device) (fromPath toPath : Path) :
    run (Files.move D fromPath toPath) w =
      match w.disk.get fromPath with
      | none => some (.ok (), w)
      | some file =>
          if (w.disk.get toPath).isSome && !D.moveReplaces then
            some (.error "Destination file already exists!", w)
          else some (.ok (), { w with disk := (w.disk.delete fromPath).set toPath file }) := by
  simp only [Files.move]
  cases h : w.disk.get fromPath with
  | none => simp [h]
  | some file =>
      simp only [run_bind, run_pause, run_get, Option.bind_some, resume_ok, h, run_ite, run_throw,
        run_modify]
      split <;> rfl

theorem bytesAt_set {w w' : World} {path : Path} {file : File}
    (h : w'.disk = w.disk.set path file) (p : Path) :
    w'.bytesAt p = if path = p then some file.content else w.bytesAt p := by
  rw [bytesAt, bytesAt, h, JsMap.get_set]
  split <;> rfl

theorem bytesAt_delete {w w' : World} {path : Path} (h : w'.disk = w.disk.delete path)
    (p : Path) : w'.bytesAt p = if path = p then none else w.bytesAt p := by
  rw [bytesAt, bytesAt, h, JsMap.get_delete]
  split <;> rfl

end Run

end OpsBlobs.World
