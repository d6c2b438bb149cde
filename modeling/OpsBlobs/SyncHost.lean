import OpsBlobs.HlcSession
import OpsBlobs.RemoteProjection
import OpsBlobs.StateMerge
import OpsBlobs.SyncApplicator
import OpsBlobs.VersionRecords

namespace OpsBlobs.SyncHost

open Types Coroutine GhostCode WriteEffects Promises VersionDag SyncApplicator SyncServer ServerApi
open ServerPull RemoteProjection

/-- What an apply reports of the files that it left for a later round. -/
structure ApplyReport where
  deferred : List String
  deferredConflicts : List String
  failures : List ApplyFailure

/-- How a write of the cursor ends; one that fails may have been carried out. -/
inductive Saving
  | saved
  | failed (message : String) (written : Bool)

/-- What the local vault answers when it is asked next; any of its calls may throw. -/
structure Host where
  loadDag : Except String VersionDag
  buildLocalIdentity : VersionDag → Except String VaultState
  stageContent : VaultState → List String → Except String (JsMap String Bytes)
  stageLocalContent : VaultState → List String → Except String (JsMap String Bytes × List String)
  hasStoredContent : String → Bool
  recordVersionEdges : Except String Unit
  applyMerge : List MergeAction → VaultState → VaultState → Except String ApplyReport
  clearPendingOps : Except String Unit
  loadCursor : Except String Unit
  saveCursor : Saving

/-- A merge whose actions the host was given to apply. -/
structure Handed where
  localState : VaultState
  remoteState : VaultState
  dag : VersionDag
  actions : List MergeAction

structure RoundReport extends RoundEnd where
  handed : Handed

/-- What the rounds have asked of the host; a history variable. The ops that a round had pushed when it
asked for the pending log to be cleared are listed with what they carried; the clearing drops all that
the log holds by then, also what was recorded since the snapshot. -/
structure Diary where
  pushed : List (Operation × Option Bytes)
  recorded : List (List Operation)
  applied : List Handed
  rounds : List RoundReport

/-- The device's side of a round. -/
structure Desk where
  host : Host
  cursor : Nat
  clock : Hlc
  diary : Diary

abbrev Session := Coroutine (Net × Desk) SyncError

/-- A vault without files, and without a past. -/
def idleDesk : Desk where
  host := {
    loadDag := .ok .empty
    buildLocalIdentity := fun _ => .ok (stateOf [] [])
    stageContent := fun state _ => .ok state.contentStore
    stageLocalContent := fun state _ => .ok (state.contentStore, [])
    hasStoredContent := fun _ => false
    recordVersionEdges := .ok ()
    applyMerge := fun _ _ _ => .ok ⟨[], [], []⟩
    clearPendingOps := .ok ()
    loadCursor := .ok ()
    saveCursor := .saved }
  cursor := 0
  clock := ⟨0, 0, "a"⟩
  diary := ⟨[], [], [], []⟩

def note (f : Diary → Diary) (s : Net × Desk) : Net × Desk :=
  (s.1, { s.2 with diary := f s.2.diary })

section Calls

variable {α : Type}

/-- A call on the host, of which the diary notes what it was asked. -/
def ask (entry : Diary → Diary) (answer : Host → Except String α) : Session α := do
  modify (note entry)
  pause
  let s ← get
  match answer s.2.host with
  | .ok a => pure a
  | .error message => throw (.other message)

def loadCursor : Session Nat := do
  ask id Host.loadCursor
  let s ← get
  pure s.2.cursor

def writeCursor (cursor : Nat) (entry : Diary → Diary) (s : Net × Desk) : Net × Desk :=
  (s.1, { s.2 with cursor := cursor, diary := entry s.2.diary })

def saveCursor (cursor : Nat) (entry : Diary → Diary) : Session Unit := do
  pause
  let s ← get
  match s.2.host.saveCursor with
  | .saved => do
      modify (writeCursor cursor entry)
      pause
  | .failed message true => do
      modify (writeCursor cursor entry)
      pause
      throw (.other message)
  | .failed message false => throw (.other message)

/-- The graph was lost if it is empty although the device has consumed ops. -/
def dagNeedsRebuild (dag : VersionDag) : Session Bool := do
  let cursor ← loadCursor
  pure (cursor ≠ 0 && dag.keys.isEmpty)

/-- The graph is extended in memory; that the journal takes the new edges is up to the host. -/
def recordVersionEdges (ops : List Operation) (dag : VersionDag) : Session VersionDag := do
  ask (fun d => { d with recorded := d.recorded ++ [ops] }) Host.recordVersionEdges
  pure (VersionRecords.recordVersionEdges dag ops).1

/-- Content for the state's files, as far as the device has it. -/
def stageContent (state : VaultState) (hashes : List String) : Session VaultState := do
  let store ← ask id (·.stageContent state hashes)
  pure { state with contentStore := store }

def applyMerge (handed : Handed) : Session ApplyReport :=
  ask (fun d => { d with applied := d.applied ++ [handed] })
    (·.applyMerge handed.actions handed.localState handed.remoteState)

def setCurrent (hlc : Hlc) : Session Unit :=
  modify fun s => (s.1, { s.2 with clock := HlcSession.setCurrent s.2.clock hlc })

end Calls

section Rules

variable {α β : Type} {R G : Net × Desk → Net × Desk → Prop} {s : Net × Desk}
  {Q : Except SyncError β → Net × Desk → Prop} {entry : Diary → Diary}

/-- What goes on around a round: `T` on the network; the user may rewind the cursor, and the host is
any that keeps to its contract. -/
structure Around (T : Net → Net → Prop) (Proper : Host → Prop) (x y : Net × Desk) : Prop where
  net : T x.1 y.1
  diary : y.2.diary = x.2.diary
  cursor : y.2.cursor ≤ x.2.cursor
  host : Proper y.2.host

/-- What the device does to the server; on its own side it may do anything. -/
def Acts (H : Request → Prop) (x y : Net × Desk) : Prop := Sending H x.1 y.1

theorem acts_desk {H : Request → Prop} (s : Net) (d d' : Desk) : Acts H (s, d) (s, d') :=
  sending_refl s

theorem wp_ask {answer : Host → Except String α} {f : α → Session β} (hG : G s (note entry s))
    (h : ∀ s', R (note entry s) s' → (∀ message, Q (.error (.other message)) s') ∧
      ∀ a, answer s'.2.host = .ok a → wp R G (f a) Q s') :
    wp R G (ask entry answer >>= f) Q s := by
  refine ⟨hG, fun s' hs _ => ?_⟩
  obtain ⟨herr, hok⟩ := h s' hs
  change wp R G ((match answer s'.2.host with
    | .ok a => pure a
    | .error message => throw (.other message) : Session α) >>= f) Q s'
  cases hanswer : answer s'.2.host with
  | ok a => exact hok a hanswer
  | error message => exact herr message

theorem wp_loadCursor {f : Nat → Session β} (hG : G s (note id s))
    (h : ∀ s', R (note id s) s' → (∀ message, Q (.error (.other message)) s') ∧
      wp R G (f s'.2.cursor) Q s') : wp R G (loadCursor >>= f) Q s := by
  refine wp_bind.2 (wp_ask hG fun s' hs => ⟨(h s' hs).1, fun _ _ => (h s' hs).2⟩)

theorem wp_saveCursor {cursor : Nat} {f : Unit → Session β}
    (h : ∀ s', R s s' → (∀ message, Q (.error (.other message)) s') ∧
      G s' (writeCursor cursor entry s') ∧ ∀ s'', R (writeCursor cursor entry s') s'' →
        (∀ message, Q (.error (.other message)) s'') ∧ wp R G (f ()) Q s'') :
    wp R G (saveCursor cursor entry >>= f) Q s := by
  intro s' hs _
  obtain ⟨herr, hG, hwritten⟩ := h s' hs
  change wp R G ((match s'.2.host.saveCursor with
    | .saved => do
        modify (writeCursor cursor entry)
        pause
    | .failed message true => do
        modify (writeCursor cursor entry)
        pause
        throw (.other message)
    | .failed message false => throw (.other message) : Session Unit) >>= f) Q s'
  cases s'.2.host.saveCursor with
  | saved => exact ⟨hG, fun s'' hs' _ => (hwritten s'' hs').2⟩
  | failed message written =>
      cases written with
      | true => exact ⟨hG, fun s'' hs' _ => (hwritten s'' hs').1 message⟩
      | false => exact herr message

variable {H : Request → Prop} {T : Net → Net → Prop} {Proper : Host → Prop}

/-- What a call on the network leaves of the device's side. -/
structure Untouched (s s' : Net × Desk) : Prop where
  diary : s'.2.diary = s.2.diary
  cursor : s'.2.cursor ≤ s.2.cursor

theorem Untouched.trans {s s' s'' : Net × Desk} (h : Untouched s s') (h' : Untouched s' s'') :
    Untouched s s'' := ⟨h'.diary.trans h.diary, h'.cursor.trans h.cursor⟩

theorem Around.untouched {s s' : Net × Desk} (h : Around T Proper s s') : Untouched s s' :=
  ⟨h.diary, h.cursor⟩

/-- A call on the network runs as it does without the device's side. -/
theorem wp_network {t : Round α} {Q : Except SyncError α → Net → Prop}
    (hG : ∀ n n' d, Sending H n n' → G (n, d) (n', d)) (h : wp T (Sending H) t Q s.1) :
    wp (Around T Proper) G (lift t) (fun r s' => Q r s'.1 ∧ Untouched s s') s :=
  wp_lift_frame (I := Untouched s) (fun _ _ ha => ha.net) hG
    (fun _ _ ha hu => ⟨ha.diary.trans hu.diary, ha.cursor.trans hu.cursor⟩)
    (fun _ _ _ _ hu => ⟨hu.diary, hu.cursor⟩) ⟨rfl, Nat.le_refl _⟩ h

end Rules

end OpsBlobs.SyncHost
