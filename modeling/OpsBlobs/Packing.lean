import Mathlib.Data.List.Basic
import Mathlib.Data.List.Induction

namespace OpsBlobs.Packing

variable {α : Type} (fits : List α → Prop) [DecidablePred fits]

/-- The runs that are closed, and the one that is still open. -/
structure Runs (α : Type) where
  closed : List (List α)
  current : List α

/-- An item goes to the open run, or to a new one if it does not fit there. -/
def Runs.push (p : Runs α) (a : α) : Runs α :=
  if p.current ≠ [] ∧ ¬fits (p.current ++ [a]) then ⟨p.closed ++ [p.current], [a]⟩
  else ⟨p.closed, p.current ++ [a]⟩

def Runs.all (p : Runs α) : List (List α) :=
  if p.current = [] then p.closed else p.closed ++ [p.current]

def fill (l : List α) : Runs α := l.foldl (Runs.push fits) ⟨[], []⟩

/-- Runs of consecutive items, filled one after the other. -/
def pack (l : List α) : List (List α) := (fill fits l).all

/-- A run that may be sent: one that fits, or a single item. -/
def Admissible (run : List α) : Prop := run ≠ [] ∧ (fits run ∨ run.length = 1)

variable {fits} {l : List α} {a : α} {p : Runs α} {runs : List (List α)}

theorem fill_concat (l : List α) (a : α) : fill fits (l ++ [a]) = (fill fits l).push fits a := by
  rw [fill, List.foldl_concat, ← fill]

theorem current_push (p : Runs α) (a : α) : (p.push fits a).current ≠ [] := by
  rw [Runs.push]
  split <;> simp

theorem flatten_all (p : Runs α) : p.all.flatten = p.closed.flatten ++ p.current := by
  rw [Runs.all]
  split
  · rename_i h
    rw [h, List.append_nil]
  · rw [List.flatten_append, List.flatten_singleton]

theorem flatten_push (p : Runs α) (a : α) :
    (p.push fits a).all.flatten = p.all.flatten ++ [a] := by
  rw [flatten_all, flatten_all, Runs.push]
  split
  · rw [List.flatten_append, List.flatten_singleton]
  · rw [List.append_assoc]

/-- Nothing is dropped, doubled or moved. -/
theorem flatten_pack (l : List α) : (pack fits l).flatten = l := by
  induction l using List.reverseRecOn with
  | nil => rfl
  | append_singleton l a ih => rw [pack, fill_concat, flatten_push, ← pack, ih]

theorem admissible_push (hp : ∀ run ∈ p.all, Admissible fits run) :
    ∀ run ∈ (p.push fits a).all, Admissible fits run := by
  rw [Runs.all, if_neg (current_push p a), Runs.push]
  by_cases hempty : p.current = []
  · rw [Runs.all, if_pos hempty] at hp
    rw [if_neg fun h => h.1 hempty, hempty, List.nil_append]
    refine List.forall_mem_append.2 ⟨hp, List.forall_mem_singleton.2 ⟨by simp, Or.inr rfl⟩⟩
  · rw [Runs.all, if_neg hempty] at hp
    split
    · exact List.forall_mem_append.2
        ⟨hp, List.forall_mem_singleton.2 ⟨by simp, Or.inr rfl⟩⟩
    · rename_i hfits
      have hfits : fits (p.current ++ [a]) := by
        by_contra hnot
        exact hfits ⟨hempty, hnot⟩
      exact List.forall_mem_append.2 ⟨(List.forall_mem_append.1 hp).1,
        List.forall_mem_singleton.2 ⟨by simp, Or.inl hfits⟩⟩

theorem admissible_pack (l : List α) : ∀ run ∈ pack fits l, Admissible fits run := by
  induction l using List.reverseRecOn with
  | nil => exact List.forall_mem_nil _
  | append_singleton l a ih =>
      rw [pack, fill_concat]
      exact admissible_push ih

section Fewest

/-- The filling is ahead of any other runs: it has opened no more of them, and where it has opened
as many, its last one ends theirs. -/
structure Ahead (p : Runs α) (runs : List (List α)) : Prop where
  count : p.all.length ≤ runs.length
  last : p.all.length = runs.length → ∀ run, runs.getLast? = some run → p.current <:+ run

theorem push_open (h : p.current = [] ∨ ¬fits (p.current ++ [a])) :
    (p.push fits a).all.length = p.all.length + 1 ∧ (p.push fits a).current = [a] := by
  rw [Runs.all, if_neg (current_push p a), Runs.push, Runs.all]
  by_cases hempty : p.current = []
  · simp [hempty]
  · simp [hempty, h.resolve_left hempty]

theorem push_same (hne : p.current ≠ []) (h : fits (p.current ++ [a])) :
    (p.push fits a).all.length = p.all.length ∧ (p.push fits a).current = p.current ++ [a] := by
  rw [Runs.all, if_neg (current_push p a), Runs.push, Runs.all]
  simp [hne, h]

theorem current_fill (hl : l ≠ []) : (fill fits l).current ≠ [] := by
  cases l using List.reverseRecOn with
  | nil => exact absurd rfl hl
  | append_singleton l a =>
      rw [fill_concat]
      exact current_push _ a

/-- Runs of `l` and one more item: the item is a run of its own, or ends the last run of `l`. -/
theorem runs_concat (hflat : runs.flatten = l ++ [a]) (hruns : ∀ run ∈ runs, run ≠ []) :
    ∃ before last, runs = before ++ [last ++ [a]] ∧ before.flatten ++ last = l := by
  cases runs using List.reverseRecOn with
  | nil => simp at hflat
  | append_singleton before run =>
      have hne := hruns run (List.mem_append_right _ (List.mem_singleton_self run))
      cases run using List.reverseRecOn with
      | nil => exact absurd rfl hne
      | append_singleton last b =>
          rw [List.flatten_append, List.flatten_singleton, ← List.append_assoc] at hflat
          obtain ⟨hl, hb⟩ := List.append_inj' hflat rfl
          obtain rfl := List.singleton_inj.1 hb
          exact ⟨before, last, rfl, hl⟩

theorem ahead_fill (hfits : ∀ run run' : List α, run <:+: run' → fits run' → fits run)
    (l : List α) (runs : List (List α)) (hflat : runs.flatten = l)
    (hruns : ∀ run ∈ runs, Admissible fits run) : Ahead (fill fits l) runs := by
  induction l using List.reverseRecOn generalizing runs with
  | nil =>
      cases runs with
      | nil => exact ⟨Nat.le_refl _, by rintro - run ⟨⟩⟩
      | cons run rest =>
          have hnil := (List.append_eq_nil_iff.1 (List.flatten_cons.symm.trans hflat)).1
          exact absurd hnil (hruns run List.mem_cons_self).1
  | append_singleton l a ih =>
      obtain ⟨before, last, rfl, hl⟩ := runs_concat hflat fun run hrun => (hruns run hrun).1
      obtain ⟨hbefore, hlast⟩ := List.forall_mem_append.1 hruns
      rw [fill_concat]
      by_cases hempty : last = []
      · -- the others begin a run with `a`: whatever the filling does, it is not behind
        subst hempty
        rw [List.append_nil] at hl
        obtain ⟨hcount, -⟩ := ih before hl hbefore
        by_cases hopen : (fill fits l).current = [] ∨ ¬fits ((fill fits l).current ++ [a])
        · obtain ⟨hlen, hcur⟩ := push_open hopen
          refine ⟨by simp [hlen, hcount], fun _ run hrun => ?_⟩
          rw [hcur, ← Option.some.inj (List.getLast?_concat.symm.trans hrun)]
          exact List.suffix_rfl
        · rw [not_or, not_not] at hopen
          obtain ⟨hlen, -⟩ := push_same hopen.1 hopen.2
          refine ⟨by simp [hlen]; omega, fun heq => ?_⟩
          rw [hlen, List.length_append, List.length_singleton] at heq
          omega
      · have hrun : fits (last ++ [a]) := by
          refine (List.forall_mem_singleton.1 hlast).2.resolve_right fun hone => hempty ?_
          exact List.length_eq_zero_iff.1 (by simpa using hone)
        have hprefix : fits last := hfits _ _ (List.prefix_append last [a]).isInfix hrun
        obtain ⟨hcount, hsuffix⟩ := ih (before ++ [last])
          (by rw [List.flatten_append, List.flatten_singleton, hl])
          (List.forall_mem_append.2 ⟨hbefore, List.forall_mem_singleton.2 ⟨hempty, Or.inl hprefix⟩⟩)
        rw [List.length_append, List.length_singleton] at hcount hsuffix
        have hne : (fill fits l).current ≠ [] := current_fill fun hnil =>
          hempty (List.append_eq_nil_iff.1 (hl.trans hnil)).2
        -- as many runs as the others, and a last run that is part of theirs: `a` fits as there
        have hfit : (fill fits l).all.length = before.length + 1 →
            fits ((fill fits l).current ++ [a]) := fun heq =>
          hfits _ _ (List.suffix_append_self_iff.2
            (hsuffix heq last List.getLast?_concat)).isInfix hrun
        by_cases hopen : fits ((fill fits l).current ++ [a])
        · obtain ⟨hlen, hcur⟩ := push_same hne hopen
          refine ⟨by simpa [hlen] using hcount, fun heq run hrun => ?_⟩
          rw [hlen, List.length_append, List.length_singleton] at heq
          rw [hcur, ← Option.some.inj (List.getLast?_concat.symm.trans hrun)]
          exact List.suffix_append_self_iff.2 (hsuffix heq last List.getLast?_concat)
        · obtain ⟨hlen, hcur⟩ := push_open (Or.inr hopen)
          have hlt : (fill fits l).all.length ≠ before.length + 1 := fun heq => hopen (hfit heq)
          refine ⟨?_, fun _ run hrun => ?_⟩
          · rw [hlen, List.length_append, List.length_singleton]
            omega
          · rw [hcur, ← Option.some.inj (List.getLast?_concat.symm.trans hrun)]
            exact List.suffix_append last [a]

/-- Where a part of what fits fits, no runs of the same items are fewer. -/
theorem length_pack_le (hfits : ∀ run run' : List α, run <:+: run' → fits run' → fits run)
    (hflat : runs.flatten = l) (hruns : ∀ run ∈ runs, Admissible fits run) :
    (pack fits l).length ≤ runs.length := (ahead_fill hfits l runs hflat hruns).count

end Fewest

end OpsBlobs.Packing
