import OpsBlobs.CodeUnits

/-- A hybrid logical clock reading; `deviceId` breaks ties. -/
structure OpsBlobs.Hlc where
  wallTime : Nat
  counter : Nat
  deviceId : String
  deriving DecidableEq, Repr

namespace OpsBlobs.Hlc

open CodeUnits

def hlcCompare (a b : Hlc) : Int :=
  if a.wallTime ≠ b.wallTime then (a.wallTime : Int) - b.wallTime
  else if a.counter ≠ b.counter then (a.counter : Int) - b.counter
  else if units a.deviceId < units b.deviceId then -1
  else if units b.deviceId < units a.deviceId then 1
  else 0

def hlcMax (a b : Hlc) : Hlc := if 0 ≤ hlcCompare a b then a else b

def padStart (s : String) (width : Nat) : String :=
  String.ofList (List.replicate (width - s.length) '0') ++ s

def hlcToString (h : Hlc) : String :=
  padStart (Nat.repr h.wallTime) 15 ++ "-" ++ padStart (Nat.repr h.counter) 8 ++ "-" ++ h.deviceId

/-- The next local timestamp, at wall clock reading `wall`. -/
def now (current : Hlc) (wall : Nat) : Hlc :=
  if current.wallTime < wall then { current with wallTime := wall, counter := 0 }
  else { current with counter := current.counter + 1 }

theorem hlcCompare_swap (a b : Hlc) : hlcCompare b a = -hlcCompare a b := by
  unfold hlcCompare
  by_cases hw : a.wallTime = b.wallTime
  · by_cases hc : a.counter = b.counter
    · simp only [hw, hc, ne_eq, not_true_eq_false, if_false]
      by_cases hlt : units a.deviceId < units b.deviceId
      · simp [hlt, lt_asymm hlt]
      · by_cases hgt : units b.deviceId < units a.deviceId
        · simp [hlt, hgt]
        · simp [hlt, hgt]
    · rw [if_neg (not_not.2 hw), if_neg (not_not.2 hw.symm), if_pos hc, if_pos (Ne.symm hc)]
      omega
  · rw [if_pos hw, if_pos (Ne.symm hw)]
    omega

theorem hlcCompare_eq_zero_iff {a b : Hlc} : hlcCompare a b = 0 ↔ a = b := by
  refine ⟨fun h => ?_, fun h => by simp [h, hlcCompare]⟩
  obtain ⟨aw, ac, ad⟩ := a
  obtain ⟨bw, bc, bd⟩ := b
  unfold hlcCompare at h
  dsimp only at h
  split at h
  · omega
  · rename_i hw
    split at h
    · omega
    · rename_i hc
      split at h
      · exact absurd h (by decide)
      · rename_i hlt
        split at h
        · exact absurd h (by decide)
        · rename_i hgt
          rw [not_not.1 hw, not_not.1 hc, units_inj (eq_of_not_lt hlt hgt)]

example : hlcToString ⟨1200, 3, "phone-a"⟩ = "000000000001200-00000003-phone-a" := by decide

end OpsBlobs.Hlc
