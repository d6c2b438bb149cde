import OpsBlobs.Slice

namespace OpsBlobs.Segments

open Slice

variable {α : Type}

/-- One aligned stretch of a base text and its two variants, with what a merge makes of it. -/
inductive Segment (α : Type)
  | kept (base : List α)
  | left (base new : List α)
  | right (base new : List α)
  | same (base new : List α)
  | union (newLeft newRight : List α)
  | clash (base newLeft newRight : List α)
  deriving DecidableEq

/-- A clash as the merged text records it: where its left lines start, and its three sides. -/
structure Clash (α : Type) where
  start : Nat
  base : List α
  left : List α
  right : List α
  deriving DecidableEq

namespace Segment

def base : Segment α → List α
  | kept base | left base _ | right base _ | same base _ | clash base _ _ => base
  | union _ _ => []

def leftLines : Segment α → List α
  | kept base | right base _ => base
  | left _ new | same _ new | union new _ | clash _ new _ => new

def rightLines : Segment α → List α
  | kept base | left base _ => base
  | right _ new | same _ new | union _ new | clash _ _ new => new

def merged : Segment α → List α
  | kept base => base
  | left _ new | right _ new | same _ new | clash _ new _ => new
  | union newLeft newRight => newLeft ++ newRight

def clashes (start : Nat) : Segment α → List (Clash α)
  | clash base newLeft newRight => [⟨start, base, newLeft, newRight⟩]
  | _ => []

end Segment

def allClashes : Nat → List (Segment α) → List (Clash α)
  | _, [] => []
  | start, s :: rest => s.clashes start ++ allClashes (start + s.merged.length) rest

theorem allClashes_append (start : Nat) (ss ss' : List (Segment α)) :
    allClashes start (ss ++ ss') =
      allClashes start ss ++ allClashes (start + (ss.flatMap Segment.merged).length) ss' := by
  induction ss generalizing start with
  | nil => simp [allClashes]
  | cons s rest ih =>
      rw [List.cons_append, allClashes, allClashes, ih, List.append_assoc, List.flatMap_cons,
        List.length_append, Nat.add_assoc]

/-- A recorded clash is one of the segments. -/
theorem clash_mem {start : Nat} {ss : List (Segment α)} {c : Clash α}
    (h : c ∈ allClashes start ss) : Segment.clash c.base c.left c.right ∈ ss := by
  induction ss generalizing start with
  | nil => cases h
  | cons s rest ih =>
      rcases List.mem_append.1 h with hhead | hrest
      · cases s with
        | clash base newLeft newRight =>
            obtain rfl := List.mem_singleton.1 hhead
            exact List.mem_cons_self
        | _ => cases hhead
      · exact List.mem_cons_of_mem _ (ih hrest)

/-- The segments cut the three texts. -/
structure Cut (ss : List (Segment α)) (base left right : List α) : Prop where
  base : ss.flatMap Segment.base = base
  left : ss.flatMap Segment.leftLines = left
  right : ss.flatMap Segment.rightLines = right

variable {ss ss' : List (Segment α)} {base base' left left' right right' : List α}

theorem Cut.append (h : Cut ss base left right) (h' : Cut ss' base' left' right') :
    Cut (ss ++ ss') (base ++ base') (left ++ left') (right ++ right') where
  base := by rw [List.flatMap_append, h.base, h'.base]
  left := by rw [List.flatMap_append, h.left, h'.left]
  right := by rw [List.flatMap_append, h.right, h'.right]

theorem cut_nil : Cut ([] : List (Segment α)) [] [] [] := ⟨rfl, rfl, rfl⟩

theorem cut_singleton (s : Segment α) : Cut [s] s.base s.leftLines s.rightLines :=
  ⟨List.flatMap_singleton .., List.flatMap_singleton .., List.flatMap_singleton ..⟩

end OpsBlobs.Segments
