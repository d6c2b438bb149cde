import OpsBlobs.ApplyRestore
import OpsBlobs.EventRun

namespace OpsBlobs.ConflictDecisions

open Types Hlc SyncApplicator EventRun

inductive DeletePick
  | keepDeleted
  | keepModified
  deriving DecidableEq, Repr

inductive BinaryPick
  | keepLocal
  | keepRemote
  deriving DecidableEq, Repr

def DeletePick.toDecision : DeletePick → DeleteDecision
  | keepDeleted => .keepDeleted
  | keepModified => .keepModified

def BinaryPick.toDecision : BinaryPick → BinaryDecision
  | keepLocal => .keepLocal
  | keepRemote => .keepRemote

/-- What the user picked in the panel. -/
inductive ConflictDecision
  | delete (decision : DeletePick)
  | binary (decision : BinaryPick)
  deriving DecidableEq, Repr

inductive ConflictKind
  | delete (side : DeleteSide)
  | binary (localBytes remoteBytes : Nat) (localDevice remoteDevice : String)
      (localAt remoteAt : Nat)
  deriving DecidableEq, Repr

/-- A conflict that awaits a decision, as the panel shows it. -/
structure ConflictDescriptor where
  fileId : String
  path : Path
  kind : ConflictKind
  recordedAt : Nat
  deriving DecidableEq, Repr

structure DeferredFile where
  fileId : String
  path : Path
  recordedAt : Nat
  deriving DecidableEq, Repr

structure StrandedContent where
  contentHash : String
  recordedAt : Nat
  deriving DecidableEq, Repr

structure SyncRoundSummaryRecord where
  recordedAt : Nat
  pushed : Nat
  pulled : Nat
  conflicts : Nat
  deriving DecidableEq, Repr

structure SyncState where
  deferred : List DeferredFile
  conflicts : List ConflictDescriptor
  pendingDecisions : JsMap String ConflictDecision
  stranded : List StrandedContent
  lastError : Option (String × Nat)
  lastSync : Option SyncRoundSummaryRecord

namespace SyncState

/-- Decisions whose conflict the round does not report are dropped. -/
def setRound (s : SyncState) (record : SyncRoundSummaryRecord) (deferred : List DeferredFile)
    (stranded : List StrandedContent) (conflicts : List ConflictDescriptor) : SyncState :=
  { s with
    lastSync := some record
    deferred := deferred
    stranded := stranded
    conflicts := conflicts
    pendingDecisions := s.pendingDecisions.restrict fun id => id ∈ conflicts.map (·.fileId) }

def recordDecision (s : SyncState) (fileId : String) (decision : ConflictDecision) : SyncState :=
  { s with pendingDecisions := s.pendingDecisions.set fileId decision }

def getDecision (s : SyncState) (fileId : String) : Option ConflictDecision :=
  s.pendingDecisions.get fileId

def setError (s : SyncState) (message : String) (now : Nat) : SyncState :=
  { s with lastError := some (message, now) }

def clearError (s : SyncState) : SyncState := { s with lastError := none }

end SyncState

/-- `settings.deleteConflictStrategy`. -/
inductive DeleteStrategy
  | ask
  | keepDeleted
  | keepModified
  deriving DecidableEq, Repr

/-- `roundConflicts` are the conflicts that the handlers of the round have deferred so far. -/
structure Coordinator where
  syncState : SyncState
  roundConflicts : List ConflictDescriptor

/-- How an action of the round goes: it throws, or finds its file drifted, or is through, with a
resolution if it makes one. -/
structure Attempt where
  action : MergeAction
  failure : Option String
  drifted : Bool
  resolution : Option PendingResolution

/-- One `applyMerge` of the round. -/
structure Pass where
  localState : VaultState
  attempts : List Attempt

inductive RoundError
  | cancelled
  | failed (message : String)
  deriving DecidableEq, Repr

/-- A round: the merge's actions, those of the folds of further heads after it, and what else it
comes to. `broken` is an error of anything but an action. -/
structure Round where
  strategy : DeleteStrategy
  now : Nat
  main : Pass
  folds : List Pass
  broken : Option RoundError
  pushed : Nat
  pulled : Nat
  stranded : List String
  pathOf : String → Option Path

structure SyncRoundSummary where
  pushed : Nat
  pulled : Nat
  deferred : List String
  stranded : List String
  deferredConflicts : List String
  applyFailures : List ApplyFailure

section Sync

variable (r : Round)

def decideDeleteConflict (c : Coordinator) (fileId : String) (path : Path) (side : DeleteSide) :
    DeleteDecision × Coordinator :=
  match c.syncState.getDecision fileId with
  | some (.delete decision) => (decision.toDecision, c)
  | _ =>
      match r.strategy with
      | .keepDeleted => (.keepDeleted, c)
      | .keepModified => (.keepModified, c)
      | .ask => (.deferConflict, { c with
          roundConflicts := c.roundConflicts ++ [⟨fileId, path, .delete side, r.now⟩] })

def decideBinaryConflict (c : Coordinator) (fileId : String) (localPath : Path)
    (localContent remoteContent : Bytes) (localHlc remoteHlc : Hlc) :
    BinaryDecision × Coordinator :=
  match c.syncState.getDecision fileId with
  | some (.binary decision) => (decision.toDecision, c)
  | _ =>
      let kind := .binary localContent.length remoteContent.length localHlc.deviceId
        remoteHlc.deviceId localHlc.wallTime remoteHlc.wallTime
      (.deferConflict, { c with
        roundConflicts := c.roundConflicts ++ [⟨fileId, localPath, kind, r.now⟩] })

/-- What the handlers make of an action: whether they defer it, if it is theirs to decide. -/
def handle (c : Coordinator) : MergeAction → Option Bool × Coordinator
  | .deleteConflict fileId path side _ _ =>
      let answer := decideDeleteConflict r c fileId path side
      (some (answer.1 = .deferConflict), answer.2)
  | .binaryConflict fileId localPath _ localContent remoteContent localHlc remoteHlc _ =>
      let answer := decideBinaryConflict r c fileId localPath localContent remoteContent localHlc
        remoteHlc
      (some (answer.1 = .deferConflict), answer.2)
  | _ => (none, c)

def applyAttempt (c : Coordinator) (t : Attempt) : Except String Applied × Coordinator :=
  let handled := handle r c t.action
  (match t.failure, handled.1 with
    | some message, _ => .error message
    | none, some true => .ok .deferredConflict
    | none, some false => .ok (.done t.resolution)
    | none, none => .ok (if t.drifted then .deferred else .done t.resolution), handled.2)

def failed (localState : VaultState) (st : ApplyState) (action : MergeAction) (message : String) :
    ApplyState :=
  let path := match localState.fileEntries.get action.fileId with
    | some entry => entry.path
    | none => action.fileId
  { st with
    deferred := addOnce st.deferred action.fileId
    failures := st.failures ++ [⟨action.fileId, path, action, message⟩] }

def applyAttempts (localState : VaultState) :
    Coordinator → ApplyState → List Attempt → Except String ApplyState × Coordinator
  | c, st, [] => (.ok st, c)
  | c, st, t :: rest =>
      match applyAttempt r c t with
      | (.ok applied, c) => applyAttempts localState c (st.record t.action.fileId applied) rest
      | (.error message, c) =>
          let st := failed localState st t.action message
          if MAX_ACTION_FAILURES < st.failures.length then (.error message, c)
          else applyAttempts localState c st rest

def applyMerge (c : Coordinator) (pass : Pass) : Except String ApplyState × Coordinator :=
  applyAttempts r pass.localState c ⟨[], [], [], []⟩ pass.attempts

/-- Of the folds only their failures are reported. -/
def reconcileConcurrentHeads :
    Coordinator → List ApplyFailure → List Pass → Except String (List ApplyFailure) × Coordinator
  | c, failures, [] => (.ok failures, c)
  | c, failures, pass :: rest =>
      match applyMerge r c pass with
      | (.ok st, c) => reconcileConcurrentHeads c (failures ++ st.failures) rest
      | (.error message, c) => (.error message, c)

def runRound (c : Coordinator) : Except RoundError SyncRoundSummary × Coordinator :=
  match applyMerge r c r.main with
  | (.error message, c) => (.error (.failed message), c)
  | (.ok st, c) =>
      match reconcileConcurrentHeads r c st.failures r.folds with
      | (.error message, c) => (.error (.failed message), c)
      | (.ok failures, c) =>
          match r.broken with
          | some error => (.error error, c)
          | none => (.ok ⟨r.pushed, r.pulled, st.deferred, r.stranded, st.deferredConflicts,
              failures⟩, c)

def recordRoundOutcome (c : Coordinator) (summary : SyncRoundSummary) : Coordinator :=
  let record : SyncRoundSummaryRecord :=
    ⟨r.now, summary.pushed, summary.pulled, summary.deferredConflicts.length⟩
  let deferred : List DeferredFile :=
    (summary.deferred.filter (· ∉ summary.deferredConflicts)).map fun fileId =>
      ⟨fileId, (r.pathOf fileId).getD fileId, r.now⟩
  let stranded : List StrandedContent := summary.stranded.map (⟨·, r.now⟩)
  { c with syncState := c.syncState.setRound record deferred stranded c.roundConflicts }

def failureMessage (first : ApplyFailure) (rest : List ApplyFailure) : String :=
  "Couldn't apply " ++ toString (rest.length + 1) ++ " change(s): " ++ first.path ++ " — " ++
    first.message ++ if rest = [] then "" else " (and " ++ toString rest.length ++ " more)"

def sync (c : Coordinator) : Coordinator :=
  match runRound r { c with roundConflicts := [] } with
  | (.ok summary, c) =>
      let c := recordRoundOutcome r c summary
      match summary.applyFailures with
      | first :: rest =>
          { c with syncState := c.syncState.setError (failureMessage first rest) r.now }
      | [] => { c with syncState := c.syncState.clearError }
  | (.error .cancelled, c) => c
  | (.error (.failed message), c) => { c with syncState := c.syncState.setError message r.now }

end Sync

inductive Event
  | recordDecision (fileId : String) (decision : ConflictDecision)
  | round (r : Round)

def next (c : Coordinator) : Event → Coordinator
  | .recordDecision fileId decision =>
      { c with syncState := c.syncState.recordDecision fileId decision }
  | .round r => sync r c

def step (c : Coordinator) (e : Event) : Option Coordinator := some (next c e)

section Reported

variable {r : Round} {c c' : Coordinator} {t : Attempt} {action : MergeAction} {fileId : String}
  {d : ConflictDecision}

/-- The decision answers a conflict of its own kind. -/
def Answers : ConflictDecision → MergeAction → Prop
  | .delete _, .deleteConflict .. => True
  | .binary _, .binaryConflict .. => True
  | _, _ => False

instance (d : ConflictDecision) (action : MergeAction) : Decidable (Answers d action) := by
  unfold Answers
  split <;> infer_instance

/-- The handlers defer the action. -/
def Defers (r : Round) (s : SyncState) (action : MergeAction) : Prop :=
  (handle r ⟨s, []⟩ action).1 = some true

def attempts (r : Round) : List Attempt := r.main.attempts ++ r.folds.flatMap (·.attempts)

def failing (l : List Attempt) : Nat := (l.filter (·.failure.isSome)).length

/-- No error outside of the actions, and no pass with so many failures that it is given up. -/
def Completes (r : Round) : Prop :=
  r.broken = none ∧ ∀ pass ∈ r.main :: r.folds,
    failing pass.attempts ≤ MAX_ACTION_FAILURES

/-- The handlers ask the state only, and what they defer they report. -/
structure Handled (r : Round) (c : Coordinator) (action : MergeAction)
    (handled : Option Bool × Coordinator) : Prop where
  answer : handled.1 = (handle r ⟨c.syncState, []⟩ action).1
  syncState : handled.2.syncState = c.syncState
  reported : ∀ f, f ∈ handled.2.roundConflicts.map (·.fileId) ↔
    f ∈ c.roundConflicts.map (·.fileId) ∨ f = action.fileId ∧ Defers r c.syncState action

section Decide

variable {s : SyncState} {fileId : String}

theorem toDecision_ne_defer (pick : DeletePick) : pick.toDecision ≠ .deferConflict := by
  cases pick <;> exact nofun

theorem toDecision_ne_defer' (pick : BinaryPick) : pick.toDecision ≠ .deferConflict := by
  cases pick <;> exact nofun

/-- The handler decides and reports nothing, or defers and reports the conflict. -/
theorem decideDelete_cases (r : Round) (s : SyncState) (fileId : String) (path : Path)
    (side : DeleteSide) :
    (∃ answer, answer ≠ .deferConflict ∧ ∀ reported,
      decideDeleteConflict r ⟨s, reported⟩ fileId path side = (answer, ⟨s, reported⟩)) ∨
    ∀ reported, decideDeleteConflict r ⟨s, reported⟩ fileId path side =
      (.deferConflict, ⟨s, reported ++ [⟨fileId, path, .delete side, r.now⟩]⟩) := by
  unfold decideDeleteConflict
  dsimp only
  split
  · rename_i pick _
    exact Or.inl ⟨_, toDecision_ne_defer pick, fun _ => rfl⟩
  · cases r.strategy with
    | ask => exact Or.inr fun _ => rfl
    | keepDeleted => exact Or.inl ⟨.keepDeleted, nofun, fun _ => rfl⟩
    | keepModified => exact Or.inl ⟨.keepModified, nofun, fun _ => rfl⟩

theorem decideBinary_cases (r : Round) (s : SyncState) (fileId : String) (localPath : Path)
    (localContent remoteContent : Bytes) (localHlc remoteHlc : Hlc) :
    (∃ answer, answer ≠ .deferConflict ∧ ∀ reported,
      decideBinaryConflict r ⟨s, reported⟩ fileId localPath localContent remoteContent localHlc
        remoteHlc = (answer, ⟨s, reported⟩)) ∨
    ∃ kind, ∀ reported, decideBinaryConflict r ⟨s, reported⟩ fileId localPath localContent
      remoteContent localHlc remoteHlc =
        (.deferConflict, ⟨s, reported ++ [⟨fileId, localPath, kind, r.now⟩]⟩) := by
  unfold decideBinaryConflict
  dsimp only
  split
  · rename_i pick _
    exact Or.inl ⟨_, toDecision_ne_defer' pick, fun _ => rfl⟩
  · exact Or.inr ⟨_, fun _ => rfl⟩

theorem handled_decided (b : Option Bool) (hb : b ≠ some true)
    (h : ∀ reported, handle r ⟨s, reported⟩ action = (b, ⟨s, reported⟩))
    (reported : List ConflictDescriptor) :
    Handled r ⟨s, reported⟩ action (handle r ⟨s, reported⟩ action) where
  answer := by rw [h, h]
  syncState := by rw [h]
  reported f := by
    rw [h]
    refine (or_iff_left fun hf => hb ?_).symm
    have hdefers : (handle r ⟨s, []⟩ action).1 = some true := hf.2
    rwa [h] at hdefers

theorem handled_deferred (path : Path) (kind : ConflictKind)
    (h : ∀ reported, handle r ⟨s, reported⟩ action =
      (some true, ⟨s, reported ++ [⟨action.fileId, path, kind, r.now⟩]⟩))
    (reported : List ConflictDescriptor) :
    Handled r ⟨s, reported⟩ action (handle r ⟨s, reported⟩ action) where
  answer := by rw [h, h]
  syncState := by rw [h]
  reported f := by
    have hdefers : Defers r s action := congrArg Prod.fst (h [])
    rw [h, List.map_append, List.mem_append, List.map_singleton, List.mem_singleton]
    exact or_congr_right (and_iff_left hdefers).symm

end Decide

theorem handle_spec (r : Round) (c : Coordinator) (action : MergeAction) :
    Handled r c action (handle r c action) := by
  obtain ⟨s, reported⟩ := c
  cases action with
  | deleteConflict fileId path side content parents =>
      rcases decideDelete_cases r s fileId path side with ⟨answer, hanswer, h⟩ | h
      · refine handled_decided (some false) nofun (fun reported => ?_) reported
        simp only [handle, h, hanswer, decide_false]
      · refine handled_deferred path (.delete side) (fun reported => ?_) reported
        simp only [handle, h, decide_true, MergeAction.fileId]
  | binaryConflict fileId localPath remotePath localContent remoteContent localHlc remoteHlc
      parents =>
      rcases decideBinary_cases r s fileId localPath localContent remoteContent localHlc remoteHlc
        with ⟨answer, hanswer, h⟩ | ⟨kind, h⟩
      · refine handled_decided (some false) nofun (fun reported => ?_) reported
        simp only [handle, h, hanswer, decide_false]
      · refine handled_deferred localPath kind (fun reported => ?_) reported
        simp only [handle, h, decide_true, MergeAction.fileId]
  | writeLocal => exact handled_decided none nofun (fun _ => rfl) reported
  | writeMerge => exact handled_decided none nofun (fun _ => rfl) reported
  | sendRemote => exact handled_decided none nofun (fun _ => rfl) reported
  | deleteLocal => exact handled_decided none nofun (fun _ => rfl) reported
  | deleteRemote => exact handled_decided none nofun (fun _ => rfl) reported
  | moveLocal => exact handled_decided none nofun (fun _ => rfl) reported
  | conflict => exact handled_decided none nofun (fun _ => rfl) reported
  | noOp => exact handled_decided none nofun (fun _ => rfl) reported

/-- Some of the round's actions were gone through. -/
structure Ran (r : Round) (c : Coordinator) (l : List Attempt) (c' : Coordinator) : Prop where
  syncState : c'.syncState = c.syncState
  reported : ∀ f, f ∈ c'.roundConflicts.map (·.fileId) ↔
    f ∈ c.roundConflicts.map (·.fileId) ∨
      ∃ t ∈ l, t.action.fileId = f ∧ Defers r c.syncState t.action

theorem ran_nil (r : Round) (c : Coordinator) : Ran r c [] c where
  syncState := rfl
  reported f := by simp

theorem ran_append {c₁ c₂ : Coordinator} {l more : List Attempt} (h : Ran r c l c₁)
    (h' : Ran r c₁ more c₂) : Ran r c (l ++ more) c₂ where
  syncState := h'.syncState.trans h.syncState
  reported f := by
    rw [h'.reported, h.reported, h.syncState, or_assoc]
    refine or_congr_right ?_
    simp only [List.mem_append, or_and_right, exists_or]

theorem ran_attempt (r : Round) (c : Coordinator) (t : Attempt) :
    Ran r c [t] (applyAttempt r c t).2 where
  syncState := (handle_spec r c t.action).syncState
  reported f := by
    refine ((handle_spec r c t.action).reported f).trans (or_congr_right ?_)
    simp [eq_comm]

theorem applyAttempt_failure {message : String} (h : t.failure = some message) :
    applyAttempt r c t = (.error message, (applyAttempt r c t).2) := by
  rw [applyAttempt, h]

theorem applyAttempt_through (h : t.failure = none) :
    ∃ applied, applyAttempt r c t = (.ok applied, (applyAttempt r c t).2) := by
  rw [applyAttempt, h]
  rcases (handle r c t.action).1 with _ | _ | _
  · exact ⟨_, rfl⟩
  · exact ⟨_, rfl⟩
  · exact ⟨_, rfl⟩

theorem failing_cons (t : Attempt) (rest : List Attempt) :
    failing (t :: rest) = (if t.failure.isSome then 1 else 0) + failing rest := by
  rw [failing, failing, List.filter_cons]
  split
  · rw [List.length_cons, Nat.add_comm]
  · rw [Nat.zero_add]

theorem failures_record (st : ApplyState) (f : String) (applied : Applied) :
    (st.record f applied).failures = st.failures := by
  cases applied <;> rfl

theorem failures_failed (localState : VaultState) (st : ApplyState) (action : MergeAction)
    (message : String) :
    (failed localState st action message).failures.length = st.failures.length + 1 :=
  List.length_append

variable {localState : VaultState} {st : ApplyState} {l : List Attempt}

/-- A pass with few failures goes through all its actions. -/
theorem applyAttempts_through (h : st.failures.length + failing l ≤ MAX_ACTION_FAILURES) :
    ∃ st', (applyAttempts r localState c st l).1 = .ok st' ∧
      Ran r c l (applyAttempts r localState c st l).2 := by
  induction l generalizing c st with
  | nil => exact ⟨st, rfl, ran_nil r c⟩
  | cons t rest ih =>
      rw [failing_cons] at h
      have hone := ran_attempt r c t
      cases hf : t.failure with
      | none =>
          obtain ⟨applied, happlied⟩ := applyAttempt_through (r := r) (c := c) hf
          rw [applyAttempts, happlied]
          have hfew : (st.record t.action.fileId applied).failures.length + failing rest ≤
              MAX_ACTION_FAILURES := by
            rw [failures_record]
            omega
          obtain ⟨st', hok, hran⟩ := ih hfew
          exact ⟨st', hok, ran_append hone hran⟩
      | some message =>
          rw [hf] at h
          have hfew : (failed localState st t.action message).failures.length + failing rest ≤
              MAX_ACTION_FAILURES := by
            rw [failures_failed]
            simp only [Option.isSome_some, if_true] at h
            omega
          rw [applyAttempts, applyAttempt_failure hf]
          dsimp only
          rw [if_neg (by omega)]
          obtain ⟨st', hok, hran⟩ := ih hfew
          exact ⟨st', hok, ran_append hone hran⟩

/-- Any other one throws, and has left the state alone. -/
theorem applyAttempts_throws (hst : st.failures.length ≤ MAX_ACTION_FAILURES)
    (h : MAX_ACTION_FAILURES < st.failures.length + failing l) :
    ∃ message, (applyAttempts r localState c st l).1 = .error message ∧
      (applyAttempts r localState c st l).2.syncState = c.syncState := by
  induction l generalizing c st with
  | nil => exact absurd hst (Nat.not_le.2 h)
  | cons t rest ih =>
      rw [failing_cons] at h
      have hone := (ran_attempt r c t).syncState
      cases hf : t.failure with
      | none =>
          obtain ⟨applied, happlied⟩ := applyAttempt_through (r := r) (c := c) hf
          rw [hf] at h
          rw [applyAttempts, happlied]
          dsimp only
          rw [← hone]
          refine ih (by rwa [failures_record]) ?_
          rw [failures_record]
          simpa using h
      | some message =>
          rw [hf] at h
          rw [applyAttempts, applyAttempt_failure hf]
          dsimp only
          split
          · exact ⟨message, rfl, hone⟩
          · rename_i hfew
            rw [← hone]
            refine ih (Nat.not_lt.1 hfew) ?_
            rw [failures_failed]
            simpa [Nat.add_assoc] using h

theorem applyMerge_through {pass : Pass} (h : failing pass.attempts ≤ MAX_ACTION_FAILURES) :
    ∃ st c', applyMerge r c pass = (.ok st, c') ∧ Ran r c pass.attempts c' := by
  have hfew : ([] : List ApplyFailure).length + failing pass.attempts ≤ MAX_ACTION_FAILURES := by
    rwa [List.length_nil, Nat.zero_add]
  have hthrough : ∃ st', (applyMerge r c pass).1 = .ok st' ∧
      Ran r c pass.attempts (applyMerge r c pass).2 := applyAttempts_through hfew
  obtain ⟨st, hok, hran⟩ := hthrough
  exact ⟨st, _, Prod.ext hok rfl, hran⟩

theorem applyMerge_throws {pass : Pass} (h : MAX_ACTION_FAILURES < failing pass.attempts) :
    ∃ message c', applyMerge r c pass = (.error message, c') ∧ c'.syncState = c.syncState := by
  have hmany : MAX_ACTION_FAILURES <
      ([] : List ApplyFailure).length + failing pass.attempts := by
    rwa [List.length_nil, Nat.zero_add]
  have hthrows : ∃ message, (applyMerge r c pass).1 = .error message ∧
      (applyMerge r c pass).2.syncState = c.syncState :=
    applyAttempts_throws (Nat.zero_le _) hmany
  obtain ⟨message, herr, hsame⟩ := hthrows
  exact ⟨message, _, Prod.ext herr rfl, hsame⟩

theorem reconcile_through {failures : List ApplyFailure} {folds : List Pass}
    (h : ∀ pass ∈ folds, failing pass.attempts ≤ MAX_ACTION_FAILURES) :
    ∃ more c', reconcileConcurrentHeads r c failures folds = (.ok more, c') ∧
      Ran r c (folds.flatMap (·.attempts)) c' := by
  induction folds generalizing c failures with
  | nil => exact ⟨failures, c, rfl, ran_nil r c⟩
  | cons pass rest ih =>
      obtain ⟨st, c₁, hpass, hran⟩ := applyMerge_through (r := r) (c := c)
        (h pass List.mem_cons_self)
      obtain ⟨more, c₂, hrest, hran'⟩ := ih fun p hp => h p (List.mem_cons_of_mem pass hp)
      refine ⟨more, c₂, ?_, ran_append hran hran'⟩
      rw [reconcileConcurrentHeads, hpass]
      exact hrest

theorem reconcile_throws {failures : List ApplyFailure} {folds : List Pass}
    (h : ∃ pass ∈ folds, MAX_ACTION_FAILURES < failing pass.attempts) :
    ∃ message c', reconcileConcurrentHeads r c failures folds = (.error message, c') ∧
      c'.syncState = c.syncState := by
  induction folds generalizing c failures with
  | nil =>
      obtain ⟨pass, hpass, -⟩ := h
      exact absurd hpass List.not_mem_nil
  | cons pass rest ih =>
      by_cases hmany : MAX_ACTION_FAILURES < failing pass.attempts
      · obtain ⟨message, c₁, hpass, hsame⟩ := applyMerge_throws (r := r) (c := c) hmany
        refine ⟨message, c₁, ?_, hsame⟩
        rw [reconcileConcurrentHeads, hpass]
      · obtain ⟨st, c₁, hpass, hran⟩ := applyMerge_through (r := r) (c := c) (Nat.not_lt.1 hmany)
        obtain ⟨p, hp, hlarge⟩ := h
        have hrest : p ∈ rest :=
          (List.mem_cons.1 hp).resolve_left fun heq => hmany (heq ▸ hlarge)
        obtain ⟨message, c₂, herr, hsame⟩ := ih ⟨p, hrest, hlarge⟩
        refine ⟨message, c₂, ?_, hsame.trans hran.syncState⟩
        rw [reconcileConcurrentHeads, hpass]
        exact herr

theorem runRound_completes (h : Completes r) (c : Coordinator) :
    ∃ summary c', runRound r c = (.ok summary, c') ∧ Ran r c (attempts r) c' := by
  obtain ⟨hbroken, hpasses⟩ := h
  obtain ⟨st, c₁, hmain, hran⟩ := applyMerge_through (r := r) (c := c)
    (hpasses r.main List.mem_cons_self)
  have hfew : ∀ pass ∈ r.folds, failing pass.attempts ≤ MAX_ACTION_FAILURES :=
    fun p hp => hpasses p (List.mem_cons_of_mem r.main hp)
  have hthrough : ∃ failures c₂, reconcileConcurrentHeads r c₁ st.failures r.folds =
      (.ok failures, c₂) ∧ Ran r c₁ (r.folds.flatMap (·.attempts)) c₂ := reconcile_through hfew
  obtain ⟨failures, c₂, hfolds, hran'⟩ := hthrough
  have hrun : runRound r c = (.ok ⟨r.pushed, r.pulled, st.deferred, r.stranded,
      st.deferredConflicts, failures⟩, c₂) := by
    rw [runRound, hmain]
    dsimp only
    rw [hfolds]
    dsimp only
    rw [hbroken]
  exact ⟨_, c₂, hrun, ran_append hran hran'⟩

theorem runRound_throws (h : ¬ Completes r) (c : Coordinator) :
    ∃ error c', runRound r c = (.error error, c') ∧ c'.syncState = c.syncState := by
  rw [runRound]
  by_cases hmany : MAX_ACTION_FAILURES < failing r.main.attempts
  · obtain ⟨message, c₁, hmain, hsame⟩ := applyMerge_throws (r := r) (c := c) hmany
    rw [hmain]
    exact ⟨_, c₁, rfl, hsame⟩
  · obtain ⟨st, c₁, hmain, hran⟩ := applyMerge_through (r := r) (c := c) (Nat.not_lt.1 hmany)
    rw [hmain]
    dsimp only
    by_cases hfew : ∀ pass ∈ r.folds, failing pass.attempts ≤ MAX_ACTION_FAILURES
    · have hthrough : ∃ failures c₂, reconcileConcurrentHeads r c₁ st.failures r.folds =
          (.ok failures, c₂) ∧ Ran r c₁ (r.folds.flatMap (·.attempts)) c₂ := reconcile_through hfew
      obtain ⟨failures, c₂, hfolds, hran'⟩ := hthrough
      rw [hfolds]
      dsimp only
      cases hbroken : r.broken with
      | some error => exact ⟨error, c₂, rfl, hran'.syncState.trans hran.syncState⟩
      | none =>
          refine absurd ⟨hbroken, fun pass hpass => ?_⟩ h
          rcases List.mem_cons.1 hpass with rfl | hpass
          · exact Nat.not_lt.1 hmany
          · exact hfew pass hpass
    · push Not at hfew
      have hthrows : ∃ message c₂, reconcileConcurrentHeads r c₁ st.failures r.folds =
          (.error message, c₂) ∧ c₂.syncState = c₁.syncState := reconcile_throws hfew
      obtain ⟨message, c₂, hfolds, hsame⟩ := hthrows
      rw [hfolds]
      exact ⟨_, c₂, rfl, hsame.trans hran.syncState⟩

/-- A completed round keeps the decisions of the conflicts that it deferred, and no others. -/
theorem getDecision_completed (h : Completes r) (c : Coordinator) (f : String) :
    (sync r c).syncState.getDecision f = some d ↔
      c.syncState.getDecision f = some d ∧
        ∃ t ∈ attempts r, t.action.fileId = f ∧ Defers r c.syncState t.action := by
  obtain ⟨summary, c₁, hrun, hran⟩ := runRound_completes h { c with roundConflicts := [] }
  have hpending : (sync r c).syncState.getDecision f =
      (recordRoundOutcome r c₁ summary).syncState.getDecision f := by
    rw [sync, hrun]
    dsimp only
    cases summary.applyFailures <;> rfl
  have hrecorded : (recordRoundOutcome r c₁ summary).syncState.getDecision f =
      if f ∈ c₁.roundConflicts.map (·.fileId) then c₁.syncState.getDecision f else none := by
    refine (JsMap.get_restrict _ _ _).trans ?_
    simp only [decide_eq_true_eq]
    rfl
  have hlive := hran.reported f
  rw [List.map_nil] at hlive
  rw [hpending, hrecorded, hran.syncState, ← hlive.trans (or_iff_right List.not_mem_nil)]
  split
  · rename_i hf
    exact (and_iff_left hf).symm
  · rename_i hf
    exact iff_of_false nofun fun hand => hf hand.2

theorem getDecision_broken (h : ¬ Completes r) (c : Coordinator) (f : String) :
    (sync r c).syncState.getDecision f = c.syncState.getDecision f := by
  obtain ⟨error, c₁, hrun, hsame⟩ := runRound_throws h { c with roundConflicts := [] }
  rw [sync, hrun]
  cases error with
  | cancelled => exact congrArg (·.getDecision f) hsame
  | failed message => exact congrArg (·.getDecision f) hsame

theorem not_defers_of_answers {s : SyncState} (hd : s.getDecision action.fileId = some d)
    (h : Answers d action) : ¬ Defers r s action := by
  cases action with
  | deleteConflict fileId path side content parents =>
      cases d with
      | binary pick => exact h.elim
      | delete pick =>
          have hpick : s.getDecision fileId = some (.delete pick) := hd
          simp [Defers, handle, decideDeleteConflict, hpick, toDecision_ne_defer]
  | binaryConflict fileId localPath remotePath localContent remoteContent localHlc remoteHlc
      parents =>
      cases d with
      | delete pick => exact h.elim
      | binary pick =>
          have hpick : s.getDecision fileId = some (.binary pick) := hd
          simp [Defers, handle, decideBinaryConflict, hpick, toDecision_ne_defer']
  | writeLocal | writeMerge | sendRemote | deleteLocal | deleteRemote | moveLocal | conflict
  | noOp => exact nofun

end Reported

section Honoured

variable {c : Coordinator} {r : Round} {e : Event}

/-- The merge raised a conflict of the file that the decision answers. -/
def Raised (r : Round) (f : String) (d : ConflictDecision) : Prop :=
  ∃ t ∈ attempts r, t.action.fileId = f ∧ Answers d t.action

def Succeeded (r : Round) (f : String) (d : ConflictDecision) : Prop :=
  ∃ t ∈ attempts r, t.action.fileId = f ∧ Answers d t.action ∧ t.failure = none

def Failed (r : Round) (f : String) (d : ConflictDecision) : Prop :=
  ∃ t ∈ attempts r, t.action.fileId = f ∧ Answers d t.action ∧ t.failure ≠ none

/-- No decision goes but with a round that applied it or did not raise its conflict, and one that
a round failed to apply stays. -/
structure Honours (c : Coordinator) (e : Event) : Prop where
  removed : ∀ f d, c.syncState.getDecision f = some d →
    (next c e).syncState.getDecision f = none →
      ∃ r, e = .round r ∧ Completes r ∧ (Succeeded r f d ∨ ¬ Raised r f d)
  retained : ∀ r f d, e = .round r → Completes r → c.syncState.getDecision f = some d →
    Failed r f d → (next c e).syncState.getDecision f = some d

/-- Where the application of a recorded decision fails, the round defers another conflict of the
file. -/
def Careful (c : Coordinator) : Event → Prop
  | .recordDecision .. => True
  | .round r => Completes r → ∀ f d, c.syncState.getDecision f = some d → Failed r f d →
      ∃ t ∈ attempts r, t.action.fileId = f ∧ Defers r c.syncState t.action

theorem honours_iff_careful (c : Coordinator) (e : Event) : Honours c e ↔ Careful c e := by
  cases e with
  | recordDecision fileId decision =>
      refine iff_of_true ⟨fun f d hd hnone => ?_, fun r f d he => by cases he⟩ trivial
      have hset : (c.syncState.pendingDecisions.set fileId decision).get f = none := hnone
      rw [JsMap.get_set] at hset
      split at hset
      · cases hset
      · cases hset.symm.trans hd
  | round r =>
      constructor
      · intro h hdone f d hd hfailed
        exact ((getDecision_completed hdone c f).1 (h.retained r f d rfl hdone hd hfailed)).2
      · intro h
        refine ⟨fun f d hd hnone => ⟨r, rfl, ?_⟩, fun r' f d he hdone hd hfailed => ?_⟩
        · by_cases hdone : Completes r
          · refine ⟨hdone, ?_⟩
            by_contra hnot
            push Not at hnot
            obtain ⟨hunapplied, t, ht, hf, hans⟩ := hnot
            have hfailure : t.failure ≠ none := fun hnone => hunapplied ⟨t, ht, hf, hans, hnone⟩
            have hlive := h hdone f d hd ⟨t, ht, hf, hans, hfailure⟩
            cases hnone.symm.trans ((getDecision_completed hdone c f).2 ⟨hd, hlive⟩)
          · cases hnone.symm.trans ((getDecision_broken hdone c f).trans hd)
        · cases he
          exact (getDecision_completed hdone c f).2 ⟨hd, h hdone f d hd hfailed⟩

/-- In a run of rounds and decisions, every step honours the decisions exactly when in every
round the application of a decision fails only beside a deferred conflict of the same file. -/
theorem decisions_honoured_iff (c : Coordinator) (events : List Event) :
    Along step Honours c events ↔ Along step Careful c events := along_congr honours_iff_careful

/-- A round in which the write of a picked file fails. -/
def deniedWrite : Round where
  strategy := .ask
  now := 5
  main := ⟨ApplyRestore.emptyVault, [⟨.binaryConflict "f" "a.png" "a.png" [1] [2] ⟨1, 0, "a"⟩
    ⟨2, 0, "b"⟩ none, some "EACCES: permission denied", false, none⟩]⟩
  folds := []
  broken := none
  pushed := 0
  pulled := 1
  stranded := []
  pathOf := fun _ => none

def picked : Coordinator :=
  ⟨⟨[], [], JsMap.empty.set "f" (.binary .keepLocal), [], none, none⟩, []⟩

/-- The write that fails is not made up for, and the pick is gone. -/
theorem decision_lost : ¬ ∀ (c : Coordinator) (events : List Event),
    Along step Honours c events := by
  intro h
  have hhonours : Honours picked (.round deniedWrite) := (h picked [.round deniedWrite]).1
  have hdone : Completes deniedWrite := ⟨rfl, by decide⟩
  have hkept := hhonours.retained deniedWrite "f" (.binary .keepLocal) rfl hdone rfl
    ⟨_, List.mem_cons_self, rfl, trivial, nofun⟩
  cases hkept

end Honoured

section Apply

open FileRegistry Coroutine World WriteEffects FailingCalls ApplyRestore

variable {D : Device} {r : Round} {c : Coordinator} {localState : VaultState} {faults : Faults}

/-- The handlers that the coordinator gives to the apply. -/
def handlers (r : Round) (c : Coordinator) : ConflictHandlers where
  onDeleteConflict
    | .deleteConflict fileId path side _ _ => (decideDeleteConflict r c fileId path side).1
    | _ => .deferConflict
  onBinaryConflict
    | .binaryConflict fileId localPath _ localContent remoteContent localHlc remoteHlc _ =>
        (decideBinaryConflict r c fileId localPath localContent remoteContent localHlc remoteHlc).1
    | _ => .deferConflict

theorem does_anything {σ ε α : Type} (t : Coroutine σ ε α) :
    Does (fun _ _ => True) t (fun _ => True) := by
  intro s
  induction t generalizing s with
  | ret a => exact fun _ _ => trivial
  | fail e => exact fun _ _ => trivial
  | read k ih => exact ih s s
  | write s' next ih => exact ⟨trivial, ih s'⟩
  | await ready next ih => exact fun s' _ _ => ih s'

/-- An action that comes through comes to what an attempt at it does. -/
def Outcome (r : Round) (c : Coordinator) (action : MergeAction) (applied : Applied) : Prop :=
  ∃ t : Attempt, t.action = action ∧ t.failure = none ∧ (applyAttempt r c t).1 = .ok applied

theorem outcome_none {action : MergeAction} {applied : Applied} (h : (handle r c action).1 = none)
    (happlied : applied ≠ .deferredConflict) : Outcome r c action applied := by
  cases applied with
  | done resolution =>
      refine ⟨⟨action, none, false, resolution⟩, rfl, rfl, ?_⟩
      simp [applyAttempt, h]
  | deferred =>
      refine ⟨⟨action, none, true, none⟩, rfl, rfl, ?_⟩
      simp [applyAttempt, h]
  | deferredConflict => exact absurd rfl happlied

theorem outcome_deferred {action : MergeAction} (h : (handle r c action).1 = some true) :
    Outcome r c action .deferredConflict :=
  ⟨⟨action, none, false, none⟩, rfl, rfl, by simp [applyAttempt, h]⟩

theorem outcome_done {action : MergeAction} (resolution : Option PendingResolution)
    (h : (handle r c action).1 = some false) : Outcome r c action (.done resolution) :=
  ⟨⟨action, none, false, resolution⟩, rfl, rfl, by simp [applyAttempt, h]⟩

/-- The actions with the drift guard. -/
theorem outcome_guarded {action : MergeAction} {fileId : String} {path : Path}
    {rest : Async Applied} (h : (handle r c action).1 = none)
    (hrest : Does (fun _ _ => True) rest fun applied => ∃ resolution, applied = .done resolution) :
    Does (fun _ _ => True) (do
      if ← driftedSinceSnapshot D fileId path localState then pure .deferred else rest)
      (Outcome r c action) := by
  refine does_then (does_anything _) fun drifted => ?_
  split
  · exact does_pure (outcome_none h nofun)
  · refine does_mono ?_ hrest
    rintro _ ⟨resolution, rfl⟩
    exact outcome_none h nofun

theorem outcome_applyAction (action : MergeAction) :
    Does (fun _ _ => True) (applyAction D (handlers r c) localState action)
      (Outcome r c action) := by
  have hdone : ∀ resolution : Option PendingResolution, Does (fun _ _ => True)
      (pure (.done resolution) : Async Applied) fun applied =>
        ∃ resolution, applied = .done resolution :=
    fun resolution => does_pure ⟨resolution, rfl⟩
  cases action with
  | writeLocal fileId path content hlc headVersionId =>
      refine outcome_guarded rfl ?_
      refine does_then (does_anything _) fun hash => does_then (does_anything _) fun _ => ?_
      refine does_then (does_anything _) fun _ => does_then (does_anything _) fun _ => ?_
      exact does_then (does_anything _) fun _ => hdone _
  | writeMerge fileId path content parents =>
      refine outcome_guarded rfl ?_
      refine does_then (does_anything _) fun hash => does_then does_pause fun _ => ?_
      refine does_then (does_anything _) fun hlcTs => does_then (does_anything _) fun _ => ?_
      refine does_then (does_anything _) fun _ => does_then (does_anything _) fun _ => ?_
      exact does_then (does_anything _) fun _ => hdone _
  | moveLocal fileId fromPath toPath =>
      refine outcome_guarded rfl ?_
      refine does_then (does_anything _) fun _ => does_then (does_anything _) fun _ => ?_
      exact does_then (does_anything _) fun _ => hdone _
  | deleteLocal fileId path =>
      refine outcome_guarded rfl ?_
      refine does_then (does_anything _) fun _ => does_then (does_anything _) fun _ => ?_
      exact does_then (does_anything _) fun _ => hdone _
  | conflict fileId localPath remotePath mergeResult localHlc remoteHlc parents =>
      refine outcome_guarded rfl ?_
      refine does_then (does_anything _) fun hash => does_then (does_anything _) fun _ => ?_
      refine does_then (does_anything _) fun _ => does_then (does_anything _) fun _ => ?_
      exact does_then (does_anything _) fun _ => hdone _
  | deleteConflict fileId path side content parents =>
      have hmine : (handle r c (.deleteConflict fileId path side content parents)).1 =
          some (decide ((handlers r c).onDeleteConflict
            (.deleteConflict fileId path side content parents) = .deferConflict)) := rfl
      refine does_then does_pause fun _ => ?_
      split
      · rename_i hanswer
        rw [hanswer] at hmine
        exact does_pure (outcome_deferred hmine)
      · rename_i hanswer
        rw [hanswer] at hmine
        refine does_then (does_anything _) fun hlcTs => does_then (does_anything _) fun hash => ?_
        refine does_then (does_anything _) fun _ => does_then (does_anything _) fun _ => ?_
        exact does_then (does_anything _) fun resolution => does_pure (outcome_done _ hmine)
      · rename_i hanswer
        rw [hanswer] at hmine
        refine does_then (does_anything _) fun hlcTs => does_then (does_anything _) fun hash => ?_
        refine does_then (does_anything _) fun _ => does_then (does_anything _) fun _ => ?_
        exact does_then (does_anything _) fun resolution => does_pure (outcome_done _ hmine)
  | binaryConflict fileId localPath remotePath localContent remoteContent localHlc remoteHlc
      parents =>
      have hmine : (handle r c (.binaryConflict fileId localPath remotePath localContent
          remoteContent localHlc remoteHlc parents)).1 =
          some (decide ((handlers r c).onBinaryConflict (.binaryConflict fileId localPath
            remotePath localContent remoteContent localHlc remoteHlc parents) =
              .deferConflict)) := rfl
      refine does_then does_pause fun _ => ?_
      split
      · rename_i hanswer
        rw [hanswer] at hmine
        exact does_pure (outcome_deferred hmine)
      · rename_i hanswer
        rw [decide_eq_false hanswer] at hmine
        refine does_then (does_anything _) fun hlcTs => does_then (does_anything _) fun hash => ?_
        refine does_then (does_anything _) fun _ => does_then (does_anything _) fun _ => ?_
        exact does_then (does_anything _) fun resolution => does_pure (outcome_done _ hmine)
  | sendRemote => exact does_pure (outcome_none rfl nofun)
  | deleteRemote => exact does_pure (outcome_none rfl nofun)
  | noOp => exact does_pure (outcome_none rfl nofun)

theorem answer_congr {c c' : Coordinator} (h : c'.syncState = c.syncState) (action : MergeAction) :
    (handle r c' action).1 = (handle r c action).1 := by
  rw [(handle_spec r c' action).answer, (handle_spec r c action).answer, h]

theorem applyAttempt_congr {c c' : Coordinator} (h : c'.syncState = c.syncState) (t : Attempt) :
    (applyAttempt r c' t).1 = (applyAttempt r c t).1 := by
  rw [applyAttempt, applyAttempt, answer_congr h]

/-- Going through the list with this attempt first leads to this state. -/
def Leads (r : Round) (c : Coordinator) (localState : VaultState) (st : ApplyState)
    (action : MergeAction) (st' : ApplyState) : Prop :=
  ∃ t : Attempt, t.action = action ∧ ∀ c' rest, c'.syncState = c.syncState →
    applyAttempts r localState c' st (t :: rest) =
      applyAttempts r localState (applyAttempt r c' t).2 st' rest

theorem leads_outcome {action : MergeAction} {applied : Applied} (st : ApplyState)
    (h : Outcome r c action applied) :
    Leads r c localState st action (st.record action.fileId applied) := by
  obtain ⟨t, rfl, -, happlied⟩ := h
  refine ⟨t, rfl, fun c' rest hc' => ?_⟩
  have hsame : applyAttempt r c' t = (.ok applied, (applyAttempt r c' t).2) :=
    Prod.ext ((applyAttempt_congr hc' t).trans happlied) rfl
  rw [applyAttempts, hsame]

theorem leads_failed {st : ApplyState} {action : MergeAction} {message : String}
    (h : ¬ MAX_ACTION_FAILURES < (failed localState st action message).failures.length) :
    Leads r c localState st action (failed localState st action message) := by
  refine ⟨⟨action, some message, false, none⟩, rfl, fun c' rest _ => ?_⟩
  rw [applyAttempts, applyAttempt_failure rfl]
  exact if_neg h

theorem leads_bail (st : ApplyState) (action : MergeAction) (message : String) :
    Does (fun _ _ => True)
      (if MAX_ACTION_FAILURES < (failed localState st action message).failures.length then
        throw message else pure (failed localState st action message) : Async ApplyState)
      (Leads r c localState st action) := by
  split
  · exact does_throw
  · rename_i hfew
    exact does_pure (leads_failed hfew)

theorem leads_isolated (collected : ApplyState × Nat) (action : MergeAction × Nat) :
    Does (fun _ _ => True)
      (ApplyRestore.applyIsolated D (handlers r c) faults localState collected action)
      fun result => Leads r c localState collected.1 action.1 result.1 := by
  refine does_bind (P := Leads r c localState collected.1 action.1) (does_tryCatch ?_ fun message =>
    leads_bail collected.1 action.1 message) ?_
  · refine does_bind (does_failing _ _ (fun _ => trivial) (outcome_applyAction action.1)) ?_
    exact fun applied happlied => does_pure (leads_outcome collected.1 happlied)
  · exact fun st hst => does_then (does_anything _) fun since => does_pure hst

/-- The apply of a device that comes through is one of the passes. -/
theorem pass_loop (collected : ApplyState × Nat) (actions : List (MergeAction × Nat)) :
    Does (fun _ _ => True)
      (foldM (ApplyRestore.applyIsolated D (handlers r c) faults localState) collected actions)
      fun result => ∃ l : List Attempt, l.map (·.action) = actions.map Prod.fst ∧
        ∀ c', c'.syncState = c.syncState →
          (applyAttempts r localState c' collected.1 l).1 = .ok result.1 := by
  induction actions generalizing collected with
  | nil => exact does_pure ⟨[], rfl, fun _ _ => rfl⟩
  | cons action rest ih =>
      refine does_bind (leads_isolated collected action) fun collected' hone => ?_
      obtain ⟨t, ht, hstep⟩ := hone
      refine does_mono ?_ (ih collected')
      rintro result ⟨l, hl, hrest⟩
      refine ⟨t :: l, by rw [List.map_cons, List.map_cons, ht, hl], fun c' hc' => ?_⟩
      rw [hstep c' l hc']
      exact hrest _ ((ran_attempt r c' t).syncState.trans hc')

end Apply

end OpsBlobs.ConflictDecisions
