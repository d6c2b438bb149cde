import Mathlib.Data.List.Basic

namespace OpsBlobs.Slice

variable {α : Type}

def slice (l : List α) (lo hi : Nat) : List α := (l.take hi).drop lo

@[simp] theorem slice_self (l : List α) (i : Nat) : slice l i i = [] :=
  List.drop_eq_nil_of_le (List.length_take_le i l)

@[simp] theorem slice_length (l : List α) (lo : Nat) : slice l lo l.length = l.drop lo := by
  rw [slice, List.take_length]

theorem length_slice {l : List α} {lo hi : Nat} (h : hi ≤ l.length) :
    (slice l lo hi).length = hi - lo := by
  rw [slice, List.length_drop, List.length_take_of_le h]

theorem slice_append {l : List α} {lo mid hi : Nat} (h₁ : lo ≤ mid) (h₂ : mid ≤ hi) :
    slice l lo mid ++ slice l mid hi = slice l lo hi := by
  have hm : l.take mid = (l.take hi).take mid := by rw [List.take_take, Nat.min_eq_left h₂]
  have hd : (l.take hi).drop mid = ((l.take hi).drop lo).drop (mid - lo) := by
    rw [List.drop_drop, Nat.add_sub_of_le h₁]
  rw [slice, slice, slice, hm, List.drop_take, hd, List.take_append_drop]

theorem slice_cons {l : List α} {i hi : Nat} {x : α} (hx : l[i]? = some x) (h : i < hi) :
    slice l i hi = x :: slice l (i + 1) hi := by
  obtain ⟨hi', rfl⟩ := List.getElem?_eq_some_iff.1 hx
  have hl : i < (l.take hi).length := by
    rw [List.length_take]
    omega
  rw [slice, List.drop_eq_getElem_cons hl, List.getElem_take]
  rfl

theorem getElem?_slice (l : List α) (lo hi i : Nat) :
    (slice l lo hi)[i]? = if lo + i < hi then l[lo + i]? else none := by
  rw [slice, List.getElem?_drop, List.getElem?_take]

theorem slice_of_le (l : List α) {lo hi : Nat} (h : hi ≤ lo) : slice l lo hi = [] :=
  List.drop_eq_nil_of_le (Nat.le_trans (List.length_take_le hi l) h)

end OpsBlobs.Slice
