import Mathlib.Data.List.Chain
import Mathlib.Logic.Relation
import OpsBlobs.EditScript
import OpsBlobs.PileReads

namespace OpsBlobs.DiffReads

open Relation DiffLines EditScript LongestIncreasing PileReads Slice

variable {α : Type}

/-- A pair of ranges that the diff is asked for: old lines from `aLo` up to `aHi`, new lines
from `bLo` up to `bHi`. -/
structure Ranges where
  aLo : Nat
  aHi : Nat
  bLo : Nat
  bHi : Nat
  deriving DecidableEq

def whole (a b : List α) : Ranges := ⟨0, a.length, 0, b.length⟩

def Ranges.Filled (r : Ranges) : Prop := r.aLo ≠ r.aHi ∧ r.bLo ≠ r.bHi

instance (r : Ranges) : Decidable r.Filled := inferInstanceAs (Decidable (_ ≠ _ ∧ _ ≠ _))

/-- The ranges before, between and behind the anchors. -/
def gaps (aHi bHi : Nat) : Nat → Nat → List (Nat × Nat) → List Ranges
  | ai, bi, [] => [⟨ai, aHi, bi, bHi⟩]
  | ai, bi, (la, lb) :: anchors => ⟨ai, la, bi, lb⟩ :: gaps aHi bHi (la + 1) (lb + 1) anchors

section Scripts

theorem ops_pushOp {result : List (DiffOp α)} {op : DiffOp α} (hops : ∀ o ∈ result, o.lines ≠ [])
    (hchain : result.IsChain (fun p q => p.type ≠ q.type)) :
    (∀ o ∈ pushOp result op, o.lines ≠ []) ∧
      (pushOp result op).IsChain (fun p q => p.type ≠ q.type) := by
  unfold pushOp
  split
  · exact ⟨hops, hchain⟩
  · rename_i hop
    have hsnoc : ∀ o ∈ result ++ [op], o.lines ≠ [] := by
      intro o ho
      rcases List.mem_append.1 ho with ho | ho
      · exact hops o ho
      · exact List.mem_singleton.1 ho ▸ hop
    split
    · rename_i last hlast
      obtain ⟨front, rfl⟩ := List.getLast?_eq_some_iff.1 hlast
      rw [List.dropLast_concat]
      split
      · rename_i htype
        obtain ⟨hfront, -, hjoin⟩ := List.isChain_append.1 hchain
        refine ⟨?_, List.isChain_append.2 ⟨hfront, List.isChain_singleton _, ?_⟩⟩
        · intro o ho
          rcases List.mem_append.1 ho with ho | ho
          · exact hops o (List.mem_append_left _ ho)
          · rw [List.mem_singleton.1 ho]
            exact fun hnil => hop (List.append_eq_nil_iff.1 hnil).2
        · intro x hx y hy
          obtain rfl := Option.some.inj hy
          exact hjoin x hx last rfl
      · rename_i htype
        refine ⟨hsnoc, List.isChain_append.2 ⟨hchain, List.isChain_singleton _, ?_⟩⟩
        intro x hx y hy
        obtain rfl := Option.some.inj hy
        rw [hlast] at hx
        exact Option.some.inj hx ▸ htype
    · rename_i hnone
      rw [List.getLast?_eq_none_iff] at hnone
      subst hnone
      exact ⟨hsnoc, List.isChain_singleton _⟩

/-- Coalescing leaves no empty op and no two neighbours of one type. -/
theorem ops_coalesceOps (ops : List (DiffOp α)) : (∀ o ∈ coalesceOps ops, o.lines ≠ []) ∧
    (coalesceOps ops).IsChain (fun p q => p.type ≠ q.type) := by
  have hrun : ∀ (ops result : List (DiffOp α)), (∀ o ∈ result, o.lines ≠ []) →
      result.IsChain (fun p q => p.type ≠ q.type) →
      (∀ o ∈ ops.foldl pushOp result, o.lines ≠ []) ∧
        (ops.foldl pushOp result).IsChain (fun p q => p.type ≠ q.type) := by
    intro ops
    induction ops with
    | nil => exact fun result hops hchain => ⟨hops, hchain⟩
    | cons op rest ih =>
        intro result hops hchain
        obtain ⟨hops', hchain'⟩ := ops_pushOp hops hchain
        exact ih _ hops' hchain'
  exact hrun ops [] (fun _ h => absurd h List.not_mem_nil) List.IsChain.nil

end Scripts

section Gaps

variable {a b : List α} {aHi bHi ai bi : Nat}

theorem emitFromLCS_returns {lcs : List (Nat × Nat)}
    (hm : Matches a b aHi bHi ai bi lcs) (ha : aHi ≤ a.length) :
    ∃ ops, emitFromLCS a b aHi bHi ai bi lcs = some ops := by
  induction lcs generalizing ai bi with
  | nil => exact ⟨_, rfl⟩
  | cons p rest ih =>
      obtain ⟨la, lb⟩ := p
      obtain ⟨-, hla, -, -, -, hrest⟩ := hm
      obtain ⟨ops, hops⟩ := ih hrest
      rw [emitFromLCS, List.getElem?_eq_getElem (Nat.lt_of_lt_of_le hla ha), hops]
      exact ⟨_, rfl⟩

theorem bounds_of_mem_gaps {anchors : List (Nat × Nat)} {r : Ranges}
    (hm : Matches a b aHi bHi ai bi anchors) (h : r ∈ gaps aHi bHi ai bi anchors) :
    ai ≤ r.aLo ∧ r.aLo ≤ r.aHi ∧ r.aHi ≤ aHi ∧ bi ≤ r.bLo ∧ r.bLo ≤ r.bHi ∧ r.bHi ≤ bHi ∧
      (anchors ≠ [] → r.aHi - r.aLo < aHi - ai) := by
  induction anchors generalizing ai bi with
  | nil =>
      obtain rfl := List.mem_singleton.1 h
      obtain ⟨h₁, h₂⟩ := hm
      exact ⟨Nat.le_refl _, h₁, Nat.le_refl _, Nat.le_refl _, h₂, Nat.le_refl _,
        fun hne => absurd rfl hne⟩
  | cons p rest ih =>
      obtain ⟨la, lb⟩ := p
      obtain ⟨h₁, h₂, h₃, h₄, -, hrest⟩ := hm
      rcases List.mem_cons.1 h with rfl | h
      · exact ⟨Nat.le_refl _, h₁, Nat.le_of_lt h₂, Nat.le_refl _, h₃, Nat.le_of_lt h₄,
          fun _ => by simp only; omega⟩
      · obtain ⟨k₁, k₂, k₃, k₄, k₅, k₆, -⟩ := ih hrest h
        exact ⟨by omega, k₂, k₃, by omega, k₅, k₆, fun _ => by omega⟩

theorem betweenAnchors_returns {recurse : Nat → Nat → Nat → Nat → Option (List (DiffOp α))}
    {anchors : List (Nat × Nat)} (hm : Matches a b aHi bHi ai bi anchors) (ha : aHi ≤ a.length) :
    (∃ ops, betweenAnchors recurse a aHi bHi ai bi anchors = some ops) ↔
      ∀ r ∈ gaps aHi bHi ai bi anchors, ∃ ops, recurse r.aLo r.aHi r.bLo r.bHi = some ops := by
  induction anchors generalizing ai bi with
  | nil => simp [betweenAnchors, gaps]
  | cons p rest ih =>
      obtain ⟨la, lb⟩ := p
      obtain ⟨-, hla, -, -, -, hrest⟩ := hm
      rw [gaps, List.forall_mem_cons, ← ih hrest, betweenAnchors,
        List.getElem?_eq_getElem (Nat.lt_of_lt_of_le hla ha)]
      simp only [Option.bind_eq_bind, Option.bind_eq_some_iff]
      constructor
      · rintro ⟨ops, before, hbefore, line, -, tail, htail, -⟩
        exact ⟨⟨before, hbefore⟩, tail, htail⟩
      · rintro ⟨⟨before, hbefore⟩, tail, htail⟩
        exact ⟨_, before, hbefore, _, rfl, tail, htail, rfl⟩

end Gaps

variable [DecidableEq α] {a b : List α}

/-- The lines that occur exactly once in each of the ranges, in old order, by their positions
in the new text. -/
def positions (a b : List α) (r : Ranges) : List Nat :=
  ((uniquePairs a r.aLo r.aHi b r.bLo r.bHi).insertionSort (fun x y => x.1 ≤ y.1)).map Prod.snd

/-- The diff of `r` recurses into `r'`, a range between its anchors. -/
def Recurses (a b : List α) (r r' : Ranges) : Prop :=
  r.Filled ∧ ∃ anchors, patienceAnchors a r.aLo r.aHi b r.bLo r.bHi = some anchors ∧
    anchors ≠ [] ∧ r' ∈ gaps r.aHi r.bHi r.aLo r.bLo anchors

/-- In all the ranges visited from `r` on, the patience sort can be done without a look at
a slot that was refilled. -/
def ReadableFrom (a b : List α) (r : Ranges) : Prop :=
  ∀ r', ReflTransGen (Recurses a b) r r' → r'.Filled → Readable [] (positions a b r')

theorem patienceAnchors_returns (a b : List α) (r : Ranges) :
    (∃ anchors, patienceAnchors a r.aLo r.aHi b r.bLo r.bHi = some anchors) ↔
      Readable [] (positions a b r) := longestIncreasingSubsequence_returns _

theorem walkLCS_returns (aSlice bSlice : List α) (dp : List (List Nat)) (aLo bLo fuel i j : Nat)
    (hfuel : aSlice.length + bSlice.length ≤ fuel + i + j) :
    ∃ lcs, walkLCS aSlice bSlice dp aLo bLo fuel i j = some lcs := by
  induction fuel generalizing i j with
  | zero =>
      unfold walkLCS
      rw [if_neg (by omega)]
      exact ⟨_, rfl⟩
  | succ fuel ih =>
      unfold walkLCS
      split
      · simp only
        split
        · obtain ⟨lcs, h⟩ := ih (i + 1) (j + 1) (by omega)
          exact ⟨_, by rw [h]; rfl⟩
        · split
          · exact ih (i + 1) j (by omega)
          · exact ih i (j + 1) (by omega)
      · exact ⟨_, rfl⟩

theorem myersLCS_returns (a b : List α) (r : Ranges) :
    ∃ lcs, myersLCS a r.aLo r.aHi b r.bLo r.bHi = some lcs :=
  walkLCS_returns _ _ _ _ _ _ _ _ (Nat.le_refl _)

theorem readableFrom_of_stops {r : Ranges} (hstops : ∀ r', ¬ Recurses a b r r') :
    ReadableFrom a b r ↔ (r.Filled → Readable [] (positions a b r)) := by
  constructor
  · exact fun h => h r .refl
  · intro h r' hr'
    rcases hr'.cases_head with rfl | ⟨c, hc, -⟩
    · exact h
    · exact absurd hc (hstops c)

theorem readableFrom_iff {r : Ranges} {anchors : List (Nat × Nat)} (hr : r.Filled)
    (hanchors : patienceAnchors a r.aLo r.aHi b r.bLo r.bHi = some anchors) (hne : anchors ≠ []) :
    ReadableFrom a b r ↔ ∀ r' ∈ gaps r.aHi r.bHi r.aLo r.bLo anchors, ReadableFrom a b r' := by
  constructor
  · exact fun h r' hr' r'' hrun => h r'' (.head ⟨hr, anchors, hanchors, hne, hr'⟩ hrun)
  · intro h r' hrun
    rcases hrun.cases_head with rfl | ⟨c, ⟨-, anchors', hanchors', -, hmem⟩, hrun⟩
    · exact fun _ => (patienceAnchors_returns a b r).1 ⟨anchors, hanchors⟩
    · obtain rfl := Option.some.inj (hanchors.symm.trans hanchors')
      exact h c hmem r' hrun

/-- The recursion returns if and only if every patience sort it does along the way does. -/
theorem diffRecurse_returns (fuel : Nat) (r : Ranges) (ha : r.aLo ≤ r.aHi)
    (ha' : r.aHi ≤ a.length) (hb : r.bLo ≤ r.bHi) (hb' : r.bHi ≤ b.length)
    (hfuel : r.aHi - r.aLo < fuel) :
    (∃ ops, diffRecurse a b fuel r.aLo r.aHi r.bLo r.bHi = some ops) ↔ ReadableFrom a b r := by
  induction fuel generalizing r with
  | zero => exact absurd hfuel (Nat.not_lt_zero _)
  | succ fuel ih =>
      by_cases hfilled : r.Filled
      · have hsome := patienceAnchors_returns a b r
        unfold diffRecurse
        rw [if_neg fun h => hfilled.1 h.1, if_neg hfilled.1, if_neg hfilled.2]
        cases hanchors : patienceAnchors a r.aLo r.aHi b r.bLo r.bHi with
        | none =>
            refine iff_of_false (fun h => ?_) (fun h => ?_)
            · obtain ⟨_, h⟩ := h
              cases h
            · obtain ⟨_, h⟩ := hsome.2 (h r .refl hfilled)
              cases hanchors.symm.trans h
        | some anchors =>
            have hm := patienceAnchors_matches ha hb hanchors
            rw [Option.bind_eq_bind, Option.bind_some]
            by_cases hne : anchors = []
            · rw [if_pos hne, readableFrom_of_stops]
              · refine iff_of_true ?_ fun _ => hsome.1 ⟨anchors, hanchors⟩
                obtain ⟨lcs, hlcs⟩ := myersLCS_returns a b r
                obtain ⟨ops, hops⟩ := emitFromLCS_returns (myersLCS_matches ha ha' hb hb' hlcs) ha'
                exact ⟨ops, by rw [hlcs]; exact hops⟩
              · rintro r' ⟨-, anchors', hanchors', hne', -⟩
                exact hne' (Option.some.inj (hanchors.symm.trans hanchors') ▸ hne)
            · rw [if_neg hne, betweenAnchors_returns hm ha', readableFrom_iff hfilled hanchors hne]
              refine forall₂_congr fun r' hr' => ?_
              obtain ⟨-, h₂, h₃, -, h₅, h₆, h₇⟩ := bounds_of_mem_gaps hm hr'
              have := h₇ hne
              exact ih r' h₂ (h₃.trans ha') h₅ (h₆.trans hb') (by omega)
      · rw [readableFrom_of_stops fun r' h => hfilled h.1]
        refine iff_of_true ?_ fun h => absurd h hfilled
        unfold diffRecurse
        by_cases h₁ : r.aLo = r.aHi
        · by_cases h₂ : r.bLo = r.bHi
          · exact ⟨_, if_pos ⟨h₁, h₂⟩⟩
          · exact ⟨_, by rw [if_neg fun h => h₂ h.2, if_pos h₁]⟩
        · have h₂ : r.bLo = r.bHi := by
            by_contra h₂
            exact hfilled ⟨h₁, h₂⟩
          exact ⟨_, by rw [if_neg fun h => h₁ h.1, if_neg h₁, if_pos h₂]⟩

/-- An edit script for the two texts, without an empty op or two ops in a row of one type. -/
def ValidDiff (a b : List α) : Prop :=
  ∃ ops, diffLines a b = some ops ∧ IsScript ops a b ∧ (∀ op ∈ ops, op.lines ≠ []) ∧
    ops.IsChain (fun p q => p.type ≠ q.type)

theorem diffLines_valid_iff (a b : List α) : ValidDiff a b ↔ ReadableFrom a b (whole a b) := by
  rw [← diffRecurse_returns (a.length + 1) (whole a b) (Nat.zero_le _) (Nat.le_refl _)
    (Nat.zero_le _) (Nat.le_refl _) (Nat.lt_succ_self _)]
  constructor
  · rintro ⟨ops, hops, -⟩
    obtain ⟨raw, hraw, -⟩ := Option.map_eq_some_iff.1 hops
    exact ⟨raw, hraw⟩
  · rintro ⟨raw, hraw⟩
    have hops : diffLines a b = some (coalesceOps raw) := Option.map_eq_some_iff.2 ⟨raw, hraw, rfl⟩
    obtain ⟨hlines, hchain⟩ := ops_coalesceOps raw
    exact ⟨_, hops, isScript_diffLines hops, hlines, hchain⟩

/-- The first of three lines is moved to the end. -/
theorem diffLines_not_valid : ¬ ∀ a b : List String, ValidDiff a b := by
  intro h
  obtain ⟨ops, hops, -⟩ := h ["a", "b", "c"] ["b", "c", "a"]
  have hthrows : diffLines ["a", "b", "c"] ["b", "c", "a"] = none := by decide
  cases hthrows.symm.trans hops

end OpsBlobs.DiffReads
