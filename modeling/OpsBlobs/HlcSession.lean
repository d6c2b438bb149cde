import OpsBlobs.Hlc
import OpsBlobs.EventRun
import Mathlib.Data.Prod.Lex

namespace OpsBlobs.HlcSession

open Hlc EventRun

/-- Merges a remote timestamp into the clock, at wall clock reading `wall`. -/
def merge (current remote : Hlc) (wall : Nat) : Hlc :=
  let maxWall := max wall (max current.wallTime remote.wallTime)
  let counter :=
    if maxWall = current.wallTime ∧ maxWall = remote.wallTime then
      max current.counter remote.counter + 1
    else if maxWall = current.wallTime then current.counter + 1
    else if maxWall = remote.wallTime then remote.counter + 1
    else 0
  { current with wallTime := maxWall, counter := counter }

/-- The clock is set to `hlc`, but for the device that owns it. -/
def setCurrent (current hlc : Hlc) : Hlc := { hlc with deviceId := current.deviceId }

section Stamp

/-- Logical time, without the device that breaks ties. -/
def logicalTime (h : Hlc) : Nat ×ₗ Nat := toLex (h.wallTime, h.counter)

variable {a b current remote : Hlc} {wall : Nat}

theorem logicalTime_lt_iff : logicalTime a < logicalTime b ↔
    a.wallTime < b.wallTime ∨ a.wallTime = b.wallTime ∧ a.counter < b.counter :=
  Prod.Lex.toLex_lt_toLex

theorem hlcCompare_pos (h : logicalTime b < logicalTime a) : 0 < hlcCompare a b := by
  rw [logicalTime_lt_iff] at h
  unfold hlcCompare
  split
  · omega
  · rw [if_pos (by omega)]
    omega

theorem logicalTime_le_of_compare (h : 0 ≤ hlcCompare a b) : logicalTime b ≤ logicalTime a := by
  by_contra hlt
  have hneg := hlcCompare_pos (not_le.1 hlt)
  rw [hlcCompare_swap] at hneg
  omega

theorem left_le_hlcMax (a b : Hlc) : logicalTime a ≤ logicalTime (hlcMax a b) := by
  unfold hlcMax
  split
  · exact le_refl _
  · rename_i h
    apply logicalTime_le_of_compare
    rw [hlcCompare_swap]
    omega

theorem lt_now (current : Hlc) (wall : Nat) :
    logicalTime current < logicalTime (now current wall) := by
  rw [logicalTime_lt_iff, now]
  split
  · exact Or.inl ‹_›
  · exact Or.inr ⟨rfl, Nat.lt_succ_self _⟩

theorem wall_le_now (current : Hlc) (wall : Nat) : wall ≤ (now current wall).wallTime := by
  rw [now]
  split
  · exact le_refl _
  · exact not_lt.1 ‹_›

theorem current_lt_merge (current remote : Hlc) (wall : Nat) :
    logicalTime current < logicalTime (merge current remote wall) := by
  rw [logicalTime_lt_iff, merge]
  dsimp only
  split
  · omega
  · split
    · omega
    · omega

theorem remote_lt_merge (current remote : Hlc) (wall : Nat) :
    logicalTime remote < logicalTime (merge current remote wall) := by
  rw [logicalTime_lt_iff, merge]
  dsimp only
  split
  · omega
  · split
    · omega
    · split
      · omega
      · omega

@[simp] theorem logicalTime_setCurrent (current hlc : Hlc) :
    logicalTime (setCurrent current hlc) = logicalTime hlc := rfl

end Stamp

section Session

inductive ClockCall
  | now (wall : Nat)
  | merge (remote : Hlc) (wall : Nat)
  | setCurrent (hlc : Hlc)
  deriving DecidableEq, Repr

/-- The clock, with all it returned so far. -/
structure Session where
  current : Hlc
  returned : List Hlc
  deriving DecidableEq, Repr

def Session.issue (s : Session) (hlc : Hlc) : Session := ⟨hlc, s.returned ++ [hlc]⟩

def perform (s : Session) : ClockCall → Option Session
  | .now wall => some (s.issue (now s.current wall))
  | .merge remote wall => some (s.issue (merge s.current remote wall))
  | .setCurrent hlc => some { s with current := setCurrent s.current hlc }

def opened (initial : Hlc) : Session := ⟨initial, []⟩

/-- Time goes on over all that was returned, over a merged timestamp, and over the clock and
the timestamp that the clock is set to. -/
def Advances (s : Session) : ClockCall → Prop
  | .now wall => ∀ earlier ∈ s.returned, 0 < hlcCompare (now s.current wall) earlier
  | .merge remote wall =>
      (∀ earlier ∈ s.returned, 0 < hlcCompare (merge s.current remote wall) earlier) ∧
        logicalTime remote < logicalTime (merge s.current remote wall)
  | .setCurrent hlc =>
      logicalTime s.current ≤ logicalTime (setCurrent s.current hlc) ∧
        logicalTime hlc ≤ logicalTime (setCurrent s.current hlc)

/-- The clock is never set to a timestamp below its own. -/
def Forward (s : Session) : ClockCall → Prop
  | .setCurrent hlc => logicalTime s.current ≤ logicalTime hlc
  | _ => True

/-- Nothing was returned that the clock is not at or past. -/
def Bounded (s : Session) : Prop :=
  ∀ earlier ∈ s.returned, logicalTime earlier ≤ logicalTime s.current

variable {s t : Session} {call : ClockCall}

theorem bounded_issue (h : Bounded s) {hlc : Hlc} (hlt : logicalTime s.current < logicalTime hlc) :
    Bounded (s.issue hlc) := by
  intro earlier hmem
  rcases List.mem_append.1 hmem with hmem | hmem
  · exact (h earlier hmem).trans hlt.le
  · rw [List.mem_singleton.1 hmem]
    rfl

theorem bounded_perform (h : Bounded s) (hforward : Forward s call)
    (hstep : perform s call = some t) : Bounded t := by
  cases call with
  | now wall =>
      obtain rfl := Option.some.inj hstep
      exact bounded_issue h (lt_now s.current wall)
  | merge remote wall =>
      obtain rfl := Option.some.inj hstep
      exact bounded_issue h (current_lt_merge s.current remote wall)
  | setCurrent hlc =>
      obtain rfl := Option.some.inj hstep
      exact fun earlier hmem => (h earlier hmem).trans hforward

theorem advances_of_bounded (h : Bounded s) (hforward : Forward s call) :
    Advances s call := by
  cases call with
  | now wall =>
      intro earlier hmem
      exact hlcCompare_pos ((h earlier hmem).trans_lt (lt_now s.current wall))
  | merge remote wall =>
      refine ⟨fun earlier hmem => ?_, remote_lt_merge s.current remote wall⟩
      exact hlcCompare_pos ((h earlier hmem).trans_lt (current_lt_merge s.current remote wall))
  | setCurrent hlc => exact ⟨hforward, le_refl _⟩

theorem forward_of_advances (h : Advances s call) : Forward s call := by
  cases call with
  | now wall => trivial
  | merge remote wall => trivial
  | setCurrent hlc => exact h.1

/-- Setting the clock to the later of itself and a timestamp never takes it back. -/
theorem forward_hlcMax (s : Session) (hlc : Hlc) :
    Forward s (.setCurrent (hlcMax s.current hlc)) :=
  left_le_hlcMax s.current hlc

/-- Logical time goes on in exactly the sessions that never set the clock back. -/
theorem time_advances_iff (initial : Hlc) (calls : List ClockCall) :
    Along perform Advances (opened initial) calls ↔
      Along perform Forward (opened initial) calls := by
  constructor
  · exact along_mono fun s call h => forward_of_advances h
  · intro h
    have hopened : Bounded (opened initial) := fun earlier hmem => absurd hmem List.not_mem_nil
    exact along_of_invariant (fun s e t hs hf ht => bounded_perform hs hf ht)
      (fun s e hs hf => advances_of_bounded hs hf) hopened h

/-- A timestamp is issued while a round is under way, the clock is set to what the round
merged before that, and the timestamp is issued again. -/
theorem timestamp_reissued :
    let calls := [.now 100, .setCurrent ⟨100, 0, "peer"⟩, .now 100]
    run perform (opened ⟨100, 0, "phone"⟩) calls =
        some ⟨⟨100, 1, "phone"⟩, [⟨100, 1, "phone"⟩, ⟨100, 1, "phone"⟩]⟩ ∧
      ¬ Along perform Advances (opened ⟨100, 0, "phone"⟩) calls := by
  refine ⟨rfl, fun h => ?_⟩
  have hback := (h.2 _ rfl).2 _ rfl
  exact absurd (hback.1 ⟨100, 1, "phone"⟩ (by decide)) (by decide)

end Session

end OpsBlobs.HlcSession
