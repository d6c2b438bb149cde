import OpsBlobs.Diff3
import OpsBlobs.EditScript

namespace OpsBlobs.Patch

open Diff3 DiffLines EditScript Slice

variable {α : Type}

/-- Hunks that start at or behind `i`, follow one another and end inside the ancestor. -/
def Ordered (ancestor : List α) : Nat → List (Hunk α) → Prop
  | i, [] => i ≤ ancestor.length
  | i, h :: rest => i ≤ h.ancStart ∧ h.ancStart ≤ h.ancEnd ∧ Ordered ancestor h.ancEnd rest

/-- The text the hunks make of the ancestor from position `i` on. -/
def patch (ancestor : List α) : Nat → List (Hunk α) → List α
  | i, [] => slice ancestor i ancestor.length
  | i, h :: rest => slice ancestor i h.ancStart ++ (h.lines ++ patch ancestor h.ancEnd rest)

def StartsFrom (i : Nat) (hs : List (Hunk α)) : Prop := ∀ h ∈ hs.head?, i ≤ h.ancStart

theorem ordered_le {ancestor : List α} {i : Nat} {hs : List (Hunk α)} (h : Ordered ancestor i hs) :
    i ≤ ancestor.length := by
  induction hs generalizing i with
  | nil => exact h
  | cons hunk rest ih =>
      obtain ⟨h₁, h₂, h₃⟩ := h
      exact Nat.le_trans h₁ (Nat.le_trans h₂ (ih h₃))

theorem ordered_startsFrom {ancestor : List α} {i : Nat} {hs : List (Hunk α)}
    (h : Ordered ancestor i hs) : StartsFrom i hs := by
  cases hs with
  | nil => simp [StartsFrom]
  | cons hunk rest =>
      intro x hx
      obtain rfl : hunk = x := by simpa using hx
      exact h.1

theorem ordered_wellFormed {ancestor : List α} {i : Nat} {hs : List (Hunk α)}
    (h : Ordered ancestor i hs) : ∀ x ∈ hs, x.ancStart ≤ x.ancEnd := by
  induction hs generalizing i with
  | nil => simp
  | cons hunk rest ih =>
      intro x hx
      rcases List.mem_cons.1 hx with rfl | hx
      · exact h.2.1
      · exact ih h.2.2 x hx

theorem ordered_back {ancestor : List α} {i j : Nat} {hs : List (Hunk α)} (hij : i ≤ j)
    (h : Ordered ancestor j hs) : Ordered ancestor i hs := by
  cases hs with
  | nil => exact Nat.le_trans hij h
  | cons hunk rest => exact ⟨Nat.le_trans hij h.1, h.2⟩

theorem ordered_forth {ancestor : List α} {i j : Nat} {hs : List (Hunk α)}
    (h : Ordered ancestor i hs) (hj : j ≤ ancestor.length) (hs' : StartsFrom j hs) :
    Ordered ancestor j hs := by
  cases hs with
  | nil => exact hj
  | cons hunk rest => exact ⟨hs' hunk (by simp), h.2⟩

theorem patch_forth {ancestor : List α} {i j : Nat} {hs : List (Hunk α)} (hij : i ≤ j)
    (h : Ordered ancestor j hs) : patch ancestor i hs = slice ancestor i j ++ patch ancestor j hs := by
  cases hs with
  | nil => exact (slice_append hij h).symm
  | cons hunk rest =>
      rw [patch, patch, ← List.append_assoc (slice ancestor i j), slice_append hij h.1]

/-- `toHunks` from the middle of a diff, with the hunk under construction. -/
def hunksFrom : Nat → Option (Hunk α) → List (DiffOp α) → List (Hunk α)
  | _, cur, [] => cur.toList
  | ai, cur, op :: ops =>
      match op.type with
      | .equal => cur.toList ++ hunksFrom (ai + op.lines.length) none ops
      | .delete =>
          hunksFrom (ai + op.lines.length)
            (some { cur.getD ⟨ai, ai, []⟩ with ancEnd := ai + op.lines.length }) ops
      | .insert =>
          hunksFrom ai
            (some { cur.getD ⟨ai, ai, []⟩ with lines := (cur.getD ⟨ai, ai, []⟩).lines ++ op.lines }) ops

theorem scan_eq (ops : List (DiffOp α)) (s : HunkScan α) :
    (ops.foldl scanOp s).hunks ++ (ops.foldl scanOp s).cur.toList =
      s.hunks ++ hunksFrom s.ai s.cur ops := by
  induction ops generalizing s with
  | nil => rfl
  | cons op rest ih =>
      rw [List.foldl_cons, ih, hunksFrom, scanOp]
      cases op.type with
      | equal => exact List.append_assoc _ _ _
      | delete => rfl
      | insert => rfl

theorem toHunks_eq (diff : List (DiffOp α)) : toHunks diff = hunksFrom 0 none diff :=
  scan_eq diff ⟨[], 0, none⟩

theorem hunksFrom_none (ai : Nat) (op : DiffOp α) (ops : List (DiffOp α)) (h : op.type ≠ .equal) :
    hunksFrom ai none (op :: ops) = hunksFrom ai (some ⟨ai, ai, []⟩) (op :: ops) := by
  unfold hunksFrom
  split
  · rename_i he
    exact absurd he h
  · rfl
  · rfl

theorem slice_of_drop_eq {ancestor xs ys : List α} {i : Nat} (h : ancestor.drop i = xs ++ ys) :
    slice ancestor i (i + xs.length) = xs ∧ ancestor.drop (i + xs.length) = ys := by
  constructor
  · rw [slice, List.drop_take, h, Nat.add_sub_cancel_left, List.take_left]
  · rw [← List.drop_drop, h, List.drop_left]

theorem length_of_drop_eq {ancestor xs ys : List α} {i : Nat} (hi : i ≤ ancestor.length)
    (h : ancestor.drop i = xs ++ ys) : i + xs.length ≤ ancestor.length := by
  have := congrArg List.length h
  rw [List.length_drop, List.length_append] at this
  omega

def Patches (ancestor : List α) (i : Nat) (hs : List (Hunk α)) (text : List α) : Prop :=
  Ordered ancestor i hs ∧ patch ancestor i hs = text

theorem patches_equal {ancestor xs text : List α} {ys : List α} {ai : Nat} {hs : List (Hunk α)}
    (hdrop : ancestor.drop ai = xs ++ ys) (h : Patches ancestor (ai + xs.length) hs text) :
    Patches ancestor ai hs (xs ++ text) := by
  refine ⟨ordered_back (Nat.le_add_right _ _) h.1, ?_⟩
  rw [patch_forth (Nat.le_add_right _ _) h.1, (slice_of_drop_eq hdrop).1, h.2]

theorem patches_cons {ancestor text : List α} {hunk : Hunk α} {hs : List (Hunk α)}
    (hle : hunk.ancStart ≤ hunk.ancEnd) (h : Patches ancestor hunk.ancEnd hs text) :
    Patches ancestor hunk.ancStart (hunk :: hs) (hunk.lines ++ text) :=
  ⟨⟨Nat.le_refl _, hle, h.1⟩, by rw [patch, slice_self, List.nil_append, h.2]⟩

theorem patches_hunksFrom {ancestor : List α} (ops : List (DiffOp α)) (ai : Nat)
    (hai : ai ≤ ancestor.length) (hops : ancestor.drop ai = oldLines ops) :
    Patches ancestor ai (hunksFrom ai none ops) (newLines ops) ∧
      ∀ h : Hunk α, h.ancStart ≤ h.ancEnd → h.ancEnd = ai →
        Patches ancestor h.ancStart (hunksFrom ai (some h) ops) (h.lines ++ newLines ops) := by
  induction ops generalizing ai with
  | nil =>
      have hend : Patches ancestor ai [] ([] : List α) := by
        refine ⟨hai, ?_⟩
        rw [patch, slice_length, hops]
        rfl
      refine ⟨hend, fun h hle he => ?_⟩
      subst he
      exact patches_cons hle hend
  | cons op rest ih =>
      have hsome : ∀ h : Hunk α, h.ancStart ≤ h.ancEnd → h.ancEnd = ai →
          Patches ancestor h.ancStart (hunksFrom ai (some h) (op :: rest))
            (h.lines ++ newLines (op :: rest)) := by
        intro h hle he
        subst he
        cases ht : op.type with
        | equal =>
            simp only [oldLines_cons, ht, reduceCtorEq, if_false] at hops
            simp only [hunksFrom, newLines_cons, ht, reduceCtorEq, if_false]
            obtain ⟨hrest, -⟩ := ih _ (length_of_drop_eq hai hops) (slice_of_drop_eq hops).2
            exact patches_cons hle (patches_equal hops hrest)
        | delete =>
            simp only [oldLines_cons, ht, reduceCtorEq, if_false] at hops
            simp only [hunksFrom, newLines_cons, ht, if_true]
            obtain ⟨-, hrest⟩ := ih _ (length_of_drop_eq hai hops) (slice_of_drop_eq hops).2
            exact hrest ⟨h.ancStart, h.ancEnd + op.lines.length, h.lines⟩
              (Nat.le_trans hle (Nat.le_add_right _ _)) rfl
        | insert =>
            simp only [oldLines_cons, ht, if_true, List.nil_append] at hops
            simp only [hunksFrom, newLines_cons, ht, reduceCtorEq, if_false]
            obtain ⟨-, hrest⟩ := ih _ hai hops
            rw [← List.append_assoc]
            exact hrest ⟨h.ancStart, h.ancEnd, h.lines ++ op.lines⟩ hle rfl
      refine ⟨?_, hsome⟩
      by_cases ht : op.type = .equal
      · simp only [oldLines_cons, ht, reduceCtorEq, if_false] at hops
        simp only [hunksFrom, newLines_cons, ht, reduceCtorEq, if_false]
        obtain ⟨hrest, -⟩ := ih _ (length_of_drop_eq hai hops) (slice_of_drop_eq hops).2
        exact patches_equal hops hrest
      · rw [hunksFrom_none ai op rest ht]
        exact hsome ⟨ai, ai, []⟩ (Nat.le_refl _) rfl

/-- The hunks of a valid edit script patch the ancestor into the other text. -/
theorem patches_toHunks {ancestor text : List α} {diff : List (DiffOp α)}
    (h : IsScript diff ancestor text) : Patches ancestor 0 (toHunks diff) text := by
  rw [toHunks_eq, ← h.new]
  exact (patches_hunksFrom diff 0 (Nat.zero_le _) h.old.symm).1

end OpsBlobs.Patch
