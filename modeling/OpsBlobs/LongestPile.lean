import Mathlib.Data.List.Sort
import OpsBlobs.PileReads

namespace OpsBlobs.LongestPile

open LongestIncreasing PileReads

section Chain

variable {pairs : List (Nat × Nat)} {prev : List (Option Nat)} {s s' : Piles}

/-- Following `prev` from `k` passes exactly `n` pairs. -/
def Reaches (prev : List (Option Nat)) : Nat → Option Nat → Prop
  | 0, k => k = none
  | n + 1, k => ∃ t, k = some t ∧ Reaches prev n prev[t]?.join

theorem reaches_set {link : Option Nat} {i : Nat}
    (hprev : ∀ t u : Nat, prev[t]? = some (some u) → u < t) (n : Nat) (k : Option Nat)
    (hk : ∀ t, k = some t → t < i) (h : Reaches prev n k) : Reaches (prev.set i link) n k := by
  induction n generalizing k with
  | zero => exact h
  | succ n ih =>
      obtain ⟨t, rfl, ht⟩ := h
      have hti := hk t rfl
      refine ⟨t, rfl, ?_⟩
      rw [List.getElem?_set_ne (Nat.ne_of_gt hti)]
      refine ih _ (fun u hu => ?_) ht
      exact Nat.lt_trans (hprev t u (Option.join_eq_some_iff.1 hu)) hti

/-- The pair on top of a pile is the last of a chain with one pair from each pile up to it. -/
structure Stacked (pairs : List (Nat × Nat)) (s : Piles) : Prop where
  size : s.prev.length = pairs.length
  chain : ∀ j t : Nat, s.pileTop[j]? = some t → Reaches s.prev (j + 1) (some t)

theorem stacked_placePair {i : Nat} (hf : Filed pairs i s) (hs : Stacked pairs s)
    (h : placePair pairs s i = some s') : Stacked pairs s' := by
  obtain ⟨pair, lo, hpair, -, hle, hprev, htop, -⟩ := placePair_eq h
  have hle' : lo ≤ s.pileTop.length := hf.tops ▸ hle
  have hi : i < s.prev.length := hs.size ▸ lt_length_of_getElem? hpair
  have hlink : ∀ t u : Nat, s.prev[t]? = some (some u) → u < t := fun t u ht => (hf.linked t u ht).2.1
  have hold : ∀ j t : Nat, s.pileTop[j]? = some t → Reaches s'.prev (j + 1) (some t) := by
    intro j t ht
    rw [hprev]
    split
    · refine reaches_set hlink _ _ (fun u hu => ?_) (hs.chain j t ht)
      exact Option.some.inj hu ▸ (hf.pile j t ht).1
    · exact hs.chain j t ht
  refine ⟨?_, fun j t ht => ?_⟩
  · rw [hprev]
    split <;> simp [hs.size]
  rw [htop, getElem?_setAt hle'] at ht
  split at ht
  · rename_i hj
    obtain rfl := Option.some.inj ht
    subst hj
    refine ⟨i, rfl, ?_⟩
    cases j with
    | zero =>
        rw [hprev, if_neg (Nat.lt_irrefl 0)]
        refine Option.eq_none_iff_forall_ne_some.2 fun u hu => ?_
        exact Nat.lt_irrefl i (hf.linked i u (Option.join_eq_some_iff.1 hu)).1
    | succ j =>
        have hj : j < s.pileTop.length := hle'
        have hread : s'.prev[i]?.join = some s.pileTop[j] := by
          rw [hprev, if_pos (Nat.succ_pos j), List.getElem?_set_self hi]
          exact List.getElem?_eq_getElem hj
        rw [hread]
        exact hold j _ (List.getElem?_eq_getElem hj)
  · exact hold j t ht

theorem placePairs_stacked (n : Nat)
    (h : (List.range n).foldlM (placePair pairs) (emptyPiles pairs) = some s) :
    Stacked pairs s := by
  induction n generalizing s with
  | zero =>
      obtain rfl : emptyPiles pairs = s := Option.some.inj h
      exact ⟨by simp [emptyPiles], fun j t ht => by simp [emptyPiles] at ht⟩
  | succ n ih =>
      rw [List.range_succ, List.foldlM_append] at h
      simp only [Option.bind_eq_bind, Option.bind_eq_some_iff, List.foldlM_cons, List.foldlM_nil,
        Option.pure_def, Option.some.injEq] at h
      obtain ⟨m, hm, m', hstep, rfl⟩ := h
      exact stacked_placePair (placePairs_filed n hm).1 (ih hm) hstep

theorem length_reconstruct {n fuel : Nat} {k : Option Nat} {acc r : List (Nat × Nat)}
    (h : Reaches prev n k) (hr : reconstruct pairs prev fuel k acc = some r) :
    r.length = n + acc.length := by
  induction n generalizing fuel k acc with
  | zero =>
      obtain rfl : k = none := h
      obtain rfl : acc = r := by simpa [reconstruct] using hr
      exact (Nat.zero_add _).symm
  | succ n ih =>
      obtain ⟨t, rfl, ht⟩ := h
      cases fuel with
      | zero => simp [reconstruct] at hr
      | succ fuel =>
          simp only [reconstruct, Option.bind_eq_bind, Option.bind_eq_some_iff] at hr
          obtain ⟨p, -, hr⟩ := hr
          rw [ih ht hr, List.length_cons]
          omega

end Chain

section Slots

/-- The slots that are filled when the values after the first refill are filed. -/
def slotsPast (run : List Nat) : List Nat → Nat
  | [] => run.length
  | v :: vs => if slotOf run v = run.length then run.length + 1 else slotsPast run vs

def slotsOf (run : List Nat) : List Nat → Nat
  | [] => run.length
  | v :: vs =>
      if slotOf run v = run.length then slotsOf (run ++ [v]) vs else slotsPast run vs

variable {run vs : List Nat} {x y : Nat}

theorem le_slotsPast : run.length ≤ slotsPast run vs := by
  induction vs with
  | nil => exact Nat.le_refl _
  | cons v vs ih =>
      rw [slotsPast]
      split
      · exact Nat.le_succ _
      · exact ih

theorem lt_iff_lt_slotOf (hrun : run.Pairwise (· < ·)) {j : Nat} (hj : j < run.length) :
    run[j] < x ↔ j < slotOf run x := by
  constructor
  · intro hlt
    by_contra hle
    have hslot : slotOf run x < run.length := by omega
    have hge := (slotOf_mem_looksAt hslot).2
    rw [List.getD_eq_getElem _ _ hslot] at hge
    rcases Nat.lt_or_eq_of_le (Nat.not_lt.1 hle) with h | h
    · have := List.pairwise_iff_getElem.1 hrun _ _ hslot hj h
      omega
    · simp only [h] at hge
      omega
  · intro hlt
    have hpos : 0 < slotOf run x := by omega
    have hle : slotOf run x ≤ run.length := slotOf_le
    have hbelow := (pred_mem_looksAt hpos).2
    have hpred : slotOf run x - 1 < run.length := by omega
    rw [List.getD_eq_getElem _ _ hpred] at hbelow
    rcases Nat.lt_or_eq_of_le (Nat.le_pred_of_lt hlt) with h | h
    · have := List.pairwise_iff_getElem.1 hrun _ _ hj hpred h
      omega
    · simp only [Nat.pred_eq_sub_one] at h
      simp only [h]
      exact hbelow

/-- A slot is told by its neighbours. -/
theorem slotOf_eq (hrun : run.Pairwise (· < ·)) {j : Nat} (hj : j < run.length)
    (habove : x ≤ run[j]) (hbelow : 0 < j → run.getD (j - 1) 0 < x) : slotOf run x = j := by
  have hle : ¬ j < slotOf run x := by
    rw [← lt_iff_lt_slotOf hrun hj]
    exact Nat.not_lt.2 habove
  rcases Nat.eq_zero_or_pos j with rfl | hpos
  · omega
  · have hpred : j - 1 < run.length := by omega
    have hlt := hbelow hpos
    rw [List.getD_eq_getElem _ _ hpred, lt_iff_lt_slotOf hrun hpred] at hlt
    omega

theorem slotOf_lt_of_mem (hrun : run.Pairwise (· < ·)) (hx : x ∈ run) :
    slotOf run x < run.length := by
  obtain ⟨j, hj, rfl⟩ := List.getElem_of_mem hx
  have := (lt_iff_lt_slotOf (x := run[j]) hrun hj).not.1 (Nat.lt_irrefl _)
  omega

theorem slotOf_ne_of_mem (hrun : run.Pairwise (· < ·)) (hx : x ∈ run) (hxy : x < y) :
    slotOf run x ≠ slotOf run y := by
  obtain ⟨j, hj, rfl⟩ := List.getElem_of_mem hx
  have h := (lt_iff_lt_slotOf (x := run[j]) hrun hj).not.1 (Nat.lt_irrefl _)
  have h' := (lt_iff_lt_slotOf (x := y) hrun hj).1 hxy
  omega

theorem lt_of_slotOf_eq_length (hrun : run.Pairwise (· < ·)) (h : slotOf run x = run.length) :
    ∀ r ∈ run, r < x := by
  intro r hr
  obtain ⟨j, hj, rfl⟩ := List.getElem_of_mem hr
  exact (lt_iff_lt_slotOf hrun hj).2 (h ▸ hj)

/-- No two of the values that may rise one after the other share a slot. -/
structure Coloring (run vs : List Nat) (n : Nat) (σ : Nat → Nat) : Prop where
  bound : ∀ x ∈ vs, σ x < n
  apart : vs.Pairwise fun x y => x < y → σ x ≠ σ y
  own : ∀ x ∈ vs, σ x = slotOf run x ∨ run.length ≤ σ x

theorem update_of_mem {σ : Nat → Nat} {v a : Nat} (hv : v ∉ vs) (hx : x ∈ vs) :
    Function.update σ v a x = σ x :=
  Function.update_of_ne (ne_of_mem_of_not_mem hx hv) _ _

theorem Coloring.cons {n v : Nat} {σ : Nat → Nat} (h : Coloring run vs n σ) (hv : v ∉ vs)
    (hn : slotOf run v < n) (hne : ∀ x ∈ vs, σ x ≠ slotOf run v) :
    Coloring run (v :: vs) n (Function.update σ v (slotOf run v)) := by
  refine ⟨fun x hx => ?_, List.pairwise_cons.2 ⟨fun x hx _ he => ?_, ?_⟩, fun x hx => ?_⟩
  · rcases List.mem_cons.1 hx with rfl | hx
    · rwa [Function.update_self]
    · rw [update_of_mem hv hx]
      exact h.bound x hx
  · rw [Function.update_self, update_of_mem hv hx] at he
    exact hne x hx he.symm
  · refine h.apart.imp_of_mem fun hx hy hxy hlt => ?_
    rw [update_of_mem hv hx, update_of_mem hv hy]
    exact hxy hlt
  · rcases List.mem_cons.1 hx with rfl | hx
    · exact Or.inl (Function.update_self ..)
    · rw [update_of_mem hv hx]
      exact h.own x hx

theorem length_le_of_nodup {l : List Nat} {n : Nat} (hl : l.Nodup) (h : ∀ x ∈ l, x < n) :
    l.length ≤ n := by
  have hsub : l ⊆ List.range n := fun x hx => List.mem_range.2 (h x hx)
  simpa using (List.subperm_of_subset hl hsub).length_le

theorem Coloring.length_le {n : Nat} {σ : Nat → Nat} (h : Coloring run vs n σ)
    (hrun : run.Pairwise (· < ·)) (hn : run.length ≤ n) {c : List Nat}
    (hc : List.Sublist c (run ++ vs)) (hrise : c.Pairwise (· < ·)) : c.length ≤ n := by
  obtain ⟨c₁, c₂, rfl, h₁, h₂⟩ := List.sublist_append_iff.1 hc
  obtain ⟨hr₁, hr₂, hcross⟩ := List.pairwise_append.1 hrise
  have hnodup : (c₁.map (slotOf run) ++ c₂.map σ).Nodup := by
    refine List.nodup_append.2 ⟨?_, ?_, ?_⟩
    · refine List.pairwise_map.2 (hr₁.imp_of_mem fun hx _ hxy => ?_)
      exact slotOf_ne_of_mem hrun (h₁.subset hx) hxy
    · refine List.pairwise_map.2 ((hr₂.and (h.apart.sublist h₂)).imp fun hxy => ?_)
      exact hxy.2 hxy.1
    · intro a ha b hb
      obtain ⟨x, hx, rfl⟩ := List.mem_map.1 ha
      obtain ⟨y, hy, rfl⟩ := List.mem_map.1 hb
      rcases h.own y (h₂.subset hy) with he | hge
      · rw [he]
        exact slotOf_ne_of_mem hrun (h₁.subset hx) (hcross x hx y hy)
      · have := slotOf_lt_of_mem hrun (h₁.subset hx)
        omega
  have hbound : ∀ a ∈ c₁.map (slotOf run) ++ c₂.map σ, a < n := by
    intro a ha
    rcases List.mem_append.1 ha with ha | ha
    · obtain ⟨x, hx, rfl⟩ := List.mem_map.1 ha
      exact Nat.lt_of_lt_of_le (slotOf_lt_of_mem hrun (h₁.subset hx)) hn
    · obtain ⟨y, hy, rfl⟩ := List.mem_map.1 ha
      exact h.bound y (h₂.subset hy)
  simpa using length_le_of_nodup hnodup hbound

/-- Every slot but the last takes at most one more value, seen against live neighbours. -/
theorem clear_spec {slots stale : List Nat} (h : Clear slots stale vs)
    (hlast : slots.length - 1 ∈ stale) (hpos : 0 < slots.length) :
    vs.Pairwise (fun x y => slotOf slots x ≠ slotOf slots y) ∧
      ∀ x ∈ vs, slotOf slots x < slots.length - 1 ∧ slotOf slots x ∉ stale := by
  induction vs generalizing stale with
  | nil => simp
  | cons v vs ih =>
      obtain ⟨hlooks, hnext⟩ := h
      have hlt : slotOf slots v < slots.length := by
        refine Nat.lt_of_le_of_ne slotOf_le fun he => ?_
        have hpred := (pred_mem_looksAt (he ▸ hpos)).1
        exact hlooks _ hpred (he ▸ hlast)
      have hfresh := hlooks _ (slotOf_mem_looksAt hlt).1
      have hv : slotOf slots v < slots.length - 1 := by
        have hne : slotOf slots v ≠ slots.length - 1 := fun he => hfresh (he ▸ hlast)
        omega
      obtain ⟨hpair, hmem⟩ := ih hnext (List.mem_cons_of_mem _ hlast)
      refine ⟨List.pairwise_cons.2 ⟨fun x hx he => ?_, hpair⟩, ?_⟩
      · exact (hmem x hx).2 (he ▸ List.mem_cons_self)
      · intro x hx
        rcases List.mem_cons.1 hx with rfl | hx
        · exact ⟨hv, hfresh⟩
        · exact ⟨(hmem x hx).1, fun hc => (hmem x hx).2 (List.mem_cons_of_mem _ hc)⟩

/-- Once `w` opened a slot, only the slot it is seen in twice differs from those of `run`. -/
theorem slotOf_reopened (hrun : run.Pairwise (· < ·)) {first w : Nat}
    (hw : ∀ r ∈ run, r < w) (hx : slotOf (run.set first w ++ [w]) x < run.length) :
    slotOf (run.set first w ++ [w]) x = first ∧ x ≤ w ∨
      slotOf (run.set first w ++ [w]) x ≠ first ∧
        slotOf (run.set first w ++ [w]) x = slotOf run x := by
  have hread : ∀ m < run.length, (run.set first w ++ [w]).getD m 0 =
      if m = first then w else run.getD m 0 := by
    intro m hm
    rw [List.getD_eq_getElem?_getD, List.getElem?_append_left (by simpa using hm),
      List.getElem?_set, List.getD_eq_getElem?_getD]
    by_cases hmf : first = m
    · simp [hmf, hm]
    · simp [hmf, Ne.symm hmf]
  have hin : slotOf (run.set first w ++ [w]) x < (run.set first w ++ [w]).length := by
    simp only [List.length_append, List.length_set, List.length_singleton]
    omega
  have habove := (slotOf_mem_looksAt hin).2
  rw [hread _ hx] at habove
  by_cases hf : slotOf (run.set first w ++ [w]) x = first
  · rw [if_pos hf] at habove
    exact Or.inl ⟨hf, habove⟩
  · rw [if_neg hf, List.getD_eq_getElem _ _ hx] at habove
    refine Or.inr ⟨hf, (slotOf_eq hrun hx habove fun hpos => ?_).symm⟩
    have hbelow := (pred_mem_looksAt hpos).2
    rw [hread _ (by omega)] at hbelow
    split at hbelow
    · have := hw _ (List.getElem_mem hx)
      omega
    · exact hbelow

/-- The slots for the values once `w` opened one more: what the slot refilled first takes now
counts for the slot of `w`. -/
def reopened (run : List Nat) (first w x : Nat) : Nat :=
  if x = w ∨ slotOf (run.set first w ++ [w]) x = first then run.length
  else slotOf run x

theorem reopened_spec (hrun : run.Pairwise (· < ·)) {first w : Nat} {stale : List Nat}
    (hw : ∀ r ∈ run, r < w) (hnd : (w :: vs).Nodup)
    (h : Clear (run.set first w ++ [w]) (run.length :: stale) vs) :
    ((w :: vs).Pairwise fun x y => x < y → reopened run first w x ≠ reopened run first w y) ∧
      ∀ x ∈ w :: vs, reopened run first w x = run.length ∨
        reopened run first w x = slotOf run x ∧ slotOf run x < run.length ∧
          slotOf run x ∉ first :: stale := by
  have hlen : (run.set first w ++ [w]).length = run.length + 1 := by simp
  obtain ⟨hapart, hmem⟩ := clear_spec h (by simp [hlen]) (by simp)
  rw [hlen, Nat.add_sub_cancel] at hmem
  have hne : ∀ x ∈ vs, x ≠ w := fun x hx he => (List.nodup_cons.1 hnd).1 (he ▸ hx)
  refine ⟨List.pairwise_cons.2 ⟨fun x hx hlt he => ?_, ?_⟩, fun x hx => ?_⟩
  · rw [reopened, if_pos (Or.inl rfl), reopened] at he
    rcases slotOf_reopened hrun hw (hmem x hx).1 with ⟨-, hle⟩ | ⟨hf, heq⟩
    · omega
    · rw [if_neg (not_or.2 ⟨hne x hx, hf⟩), ← heq] at he
      have := (hmem x hx).1
      omega
  · refine hapart.imp_of_mem fun {x y} hx hy hxy _ he => ?_
    have hx' := slotOf_reopened hrun hw (hmem x hx).1
    have hy' := slotOf_reopened hrun hw (hmem y hy).1
    have hxl := (hmem x hx).1
    have hyl := (hmem y hy).1
    rw [reopened, reopened] at he
    simp only [hne x hx, hne y hy, false_or] at he
    rcases hx' with ⟨hx', -⟩ | ⟨hx', hxe⟩ <;> rcases hy' with ⟨hy', -⟩ | ⟨hy', hye⟩
    · exact hxy (hx'.trans hy'.symm)
    · rw [if_pos hx', if_neg hy'] at he
      omega
    · rw [if_neg hx', if_pos hy'] at he
      omega
    · rw [if_neg hx', if_neg hy'] at he
      omega
  · rcases List.mem_cons.1 hx with rfl | hx
    · exact Or.inl (if_pos (Or.inl rfl))
    · rcases slotOf_reopened hrun hw (hmem x hx).1 with ⟨hf, -⟩ | ⟨hf, heq⟩
      · exact Or.inl (if_pos (Or.inr hf))
      · refine Or.inr ⟨if_neg (not_or.2 ⟨hne x hx, hf⟩), heq ▸ (hmem x hx).1, ?_⟩
        rw [← heq]
        simp only [List.mem_cons, not_or]
        exact ⟨hf, fun hc => (hmem x hx).2 (List.mem_cons_of_mem _ hc)⟩

theorem coloring_past (hrun : run.Pairwise (· < ·)) {first : Nat} {stale : List Nat}
    (hnd : vs.Nodup) (h : ClearPast run first stale vs) :
    ∃ σ, Coloring run vs (slotsPast run vs) σ ∧
      ∀ x ∈ vs, run.length ≤ σ x ∨ σ x ∉ first :: stale := by
  induction vs generalizing stale with
  | nil => exact ⟨slotOf run, ⟨by simp, List.Pairwise.nil, by simp⟩, by simp⟩
  | cons v vs ih =>
      obtain ⟨hlooks, hnext⟩ := h
      obtain ⟨hv, hnd'⟩ := List.nodup_cons.1 hnd
      by_cases hopen : slotOf run v = run.length
      · rw [if_pos hopen] at hnext
        have hw := lt_of_slotOf_eq_length hrun hopen
        obtain ⟨hapart, hmem⟩ := reopened_spec hrun hw hnd hnext
        refine ⟨reopened run first v, ⟨fun x hx => ?_, hapart, fun x hx => ?_⟩, fun x hx => ?_⟩
        · rw [slotsPast, if_pos hopen]
          rcases hmem x hx with he | ⟨he, hlt, -⟩ <;> omega
        · rcases hmem x hx with he | ⟨he, -⟩
          · exact Or.inr (Nat.le_of_eq he.symm)
          · exact Or.inl he
        · rcases hmem x hx with he | ⟨he, -, hfresh⟩
          · exact Or.inl (Nat.le_of_eq he.symm)
          · exact Or.inr (he ▸ hfresh)
      · rw [if_neg hopen] at hnext
        obtain ⟨σ, hσ, hfresh⟩ := ih hnd' hnext
        have hlt : slotOf run v < run.length := Nat.lt_of_le_of_ne slotOf_le hopen
        have hne : ∀ x ∈ vs, σ x ≠ slotOf run v := fun x hx he => by
          rcases hfresh x hx with hge | hnot
          · omega
          · exact hnot (he ▸ List.mem_cons_of_mem _ List.mem_cons_self)
        refine ⟨Function.update σ v (slotOf run v), ?_, fun x hx => ?_⟩
        · rw [slotsPast, if_neg hopen]
          exact hσ.cons hv (Nat.lt_of_lt_of_le hlt le_slotsPast) hne
        · rcases List.mem_cons.1 hx with rfl | hx
          · rw [Function.update_self]
            exact Or.inr (hlooks _ (slotOf_mem_looksAt hlt).1)
          · rw [update_of_mem hv hx]
            refine (hfresh x hx).imp_right fun hnot hc => hnot ?_
            simp only [List.mem_cons] at hc ⊢
            tauto

theorem coloring_refilled (hrun : run.Pairwise (· < ·)) {v : Nat} (hnd : (v :: vs).Nodup)
    (hopen : slotOf run v ≠ run.length) (h : ClearPast run (slotOf run v) [] vs) :
    ∃ σ, Coloring run (v :: vs) (slotsPast run vs) σ := by
  obtain ⟨hv, hnd'⟩ := List.nodup_cons.1 hnd
  have hlt : slotOf run v < run.length := Nat.lt_of_le_of_ne slotOf_le hopen
  obtain ⟨σ, hσ, hfresh⟩ := coloring_past hrun hnd' h
  refine ⟨_, hσ.cons hv (Nat.lt_of_lt_of_le hlt le_slotsPast) fun x hx he => ?_⟩
  rcases hfresh x hx with hge | hnot
  · omega
  · exact hnot (he ▸ List.mem_cons_self)

theorem length_le_slotsOf (hrun : run.Pairwise (· < ·)) (hnd : vs.Nodup) (h : Readable run vs)
    {c : List Nat} (hc : List.Sublist c (run ++ vs)) (hrise : c.Pairwise (· < ·)) :
    c.length ≤ slotsOf run vs := by
  induction vs generalizing run with
  | nil =>
      rw [List.append_nil] at hc
      exact hc.length_le
  | cons v vs ih =>
      rw [Readable] at h
      rw [slotsOf]
      by_cases hopen : slotOf run v = run.length
      · rw [if_pos hopen] at h ⊢
        refine ih ?_ (List.nodup_cons.1 hnd).2 h (by simpa using hc)
        refine List.pairwise_append.2 ⟨hrun, List.pairwise_singleton _ _, fun r hr x hx => ?_⟩
        exact List.mem_singleton.1 hx ▸ lt_of_slotOf_eq_length hrun hopen r hr
      · rw [if_neg hopen] at h ⊢
        obtain ⟨σ, hσ⟩ := coloring_refilled hrun hnd hopen h
        exact hσ.length_le hrun le_slotsPast hc hrise

end Slots

section Longest

variable {pairs before rest : List (Nat × Nat)} {s s' : Piles} {run stale : List Nat} {first : Nat}

theorem length_placePairs_le (l : List Nat) (h : l.foldlM (placePair pairs) s = some s') :
    s.piles.length ≤ s'.piles.length := by
  induction l generalizing s with
  | nil =>
      obtain rfl : s = s' := Option.some.inj h
      exact Nat.le_refl _
  | cons i l ih =>
      obtain ⟨m, hm, h⟩ := Option.bind_eq_some_iff.1 h
      obtain ⟨pair, lo, -, -, -, -, -, hpiles⟩ := placePair_eq hm
      refine Nat.le_trans ?_ (ih h)
      rw [hpiles, length_setAt]
      split <;> omega

theorem slotsPast_le (hpairs : pairs = before ++ rest)
    (h : Refilled s run first stale before.length)
    (hs : (List.range' before.length rest.length).foldlM (placePair pairs) s = some s') :
    slotsPast run (rest.map Prod.snd) ≤ s'.piles.length := by
  induction rest generalizing before s stale with
  | nil =>
      obtain rfl : s = s' := Option.some.inj hs
      exact Nat.le_of_eq h.looks.piles.symm
  | cons pair rest ih =>
      have hpair : pairs[before.length]? = some pair := by simp [hpairs]
      have hsplit : pairs = (before ++ [pair]) ++ rest := by simp [hpairs]
      have hlen : (before ++ [pair]).length = before.length + 1 := by simp
      rw [List.length_cons, placePairs_cons h.looks hpair, ← hlen] at hs
      obtain ⟨hclear, hs⟩ := hs
      rw [List.map_cons, slotsPast]
      split
      · rename_i hopen
        refine Nat.le_trans ?_ (length_placePairs_le _ hs)
        rw [hopen, filed, length_setAt, h.looks.piles, if_pos rfl]
      · rename_i hopen
        exact ih hsplit (hlen.symm ▸ refilled_next h hclear hopen) hs

theorem slotsOf_le (hpairs : pairs = before ++ rest) (h : Looks id s run [])
    (hi : before.length = run.length)
    (hs : (List.range' before.length rest.length).foldlM (placePair pairs) s = some s') :
    slotsOf run (rest.map Prod.snd) ≤ s'.piles.length := by
  induction rest generalizing before s run with
  | nil =>
      obtain rfl : s = s' := Option.some.inj hs
      exact Nat.le_of_eq h.piles.symm
  | cons pair rest ih =>
      have hpair : pairs[before.length]? = some pair := by simp [hpairs]
      have hsplit : pairs = (before ++ [pair]) ++ rest := by simp [hpairs]
      have hlen : (before ++ [pair]).length = before.length + 1 := by simp
      rw [List.length_cons, placePairs_cons h hpair, ← hlen] at hs
      rw [List.map_cons, slotsOf]
      split
      · rename_i hopen
        rw [hopen] at hs
        exact ih hsplit (looks_push h pair hi) (by simp [hi]) hs.2
      · rename_i hopen
        exact slotsPast_le hsplit (hlen.symm ▸ refilled_first h pair hi hopen) hs.2

/-- The result has one pair from each pile, so as many as there are slots. -/
theorem slotsOf_le_length {r : List (Nat × Nat)} (h : longestIncreasingSubsequence pairs = some r) :
    slotsOf [] (pairs.map Prod.snd) ≤ r.length := by
  unfold longestIncreasingSubsequence at h
  split at h
  · rename_i hnil
    subst hnil
    exact Nat.zero_le _
  · obtain ⟨s, hs, hr⟩ := Option.bind_eq_some_iff.1 h
    have hempty : Looks id (emptyPiles pairs) [] [] := ⟨rfl, rfl, by simp, by simp⟩
    have hsplit : pairs = [] ++ pairs := rfl
    have hrun := hs
    rw [List.range_eq_range'] at hrun
    refine Nat.le_trans (slotsOf_le hsplit hempty rfl hrun) ?_
    rcases Nat.eq_zero_or_pos s.piles.length with hzero | hpos
    · omega
    · have hlast : s.piles.length - 1 < s.pileTop.length := by
        rw [(placePairs_filed _ hs).1.tops]
        omega
      rw [List.getElem?_eq_getElem hlast] at hr
      have hchain := (placePairs_stacked _ hs).chain _ _ (List.getElem?_eq_getElem hlast)
      rw [length_reconstruct hchain hr, List.length_nil]
      omega

theorem sublist_of_rises {r : List (Nat × Nat)} (ha : pairs.Pairwise fun p q => p.1 < q.1)
    (hr : r.Pairwise Rises) (hmem : ∀ q ∈ r, q ∈ pairs) : List.Sublist r pairs := by
  have hne : ∀ {p q : Nat × Nat}, Rises p q → p ≠ q := fun hpq he =>
    Nat.ne_of_lt hpq.1 (congrArg Prod.fst he)
  have hnodup : r.Nodup := hr.imp hne
  have hle : ∀ p q : Nat × Nat, p.1 < q.1 → q.1 < p.1 → p = q := fun p q h h' =>
    absurd h (Nat.lt_asymm h')
  have : Std.Antisymm (fun p q : Nat × Nat => p.1 < q.1) := ⟨hle⟩
  exact List.sublist_of_subperm_of_pairwise (List.subperm_of_subset hnodup hmem)
    (hr.imp fun h => h.1) ha

/-- The helper returns a longest subsequence that rises on both sides exactly when its search
never looks at a refilled slot. -/
theorem longestIncreasingSubsequence_longest_iff {pairs : List (Nat × Nat)}
    (ha : pairs.Pairwise fun p q => p.1 < q.1) (hb : (pairs.map Prod.snd).Nodup) :
    (∃ r, longestIncreasingSubsequence pairs = some r ∧ List.Sublist r pairs ∧ r.Pairwise Rises ∧
      ∀ c, List.Sublist c pairs → c.Pairwise Rises → c.length ≤ r.length) ↔
      Readable [] (pairs.map Prod.snd) := by
  rw [← longestIncreasingSubsequence_returns]
  refine ⟨fun ⟨r, hr, _⟩ => ⟨r, hr⟩, fun ⟨r, hr⟩ => ?_⟩
  obtain ⟨hrise, hmem⟩ := longestIncreasingSubsequence_rises ha hr
  refine ⟨r, hr, sublist_of_rises ha hrise hmem, hrise, fun c hc hcr => ?_⟩
  have hread := (longestIncreasingSubsequence_returns pairs).1 ⟨r, hr⟩
  have hvals : List.Sublist (c.map Prod.snd) ([] ++ pairs.map Prod.snd) := hc.map Prod.snd
  have hvrise : (c.map Prod.snd).Pairwise (· < ·) :=
    List.pairwise_map.2 (hcr.imp fun h => h.2)
  have hbound := length_le_slotsOf List.Pairwise.nil hb hread hvals hvrise
  rw [List.length_map] at hbound
  exact Nat.le_trans hbound (slotsOf_le_length hr)

theorem longest_of_moved_back :
    (∃ r, longestIncreasingSubsequence [(0, 1), (1, 3), (2, 0), (3, 4), (4, 2)] = some r ∧
      List.Sublist r [(0, 1), (1, 3), (2, 0), (3, 4), (4, 2)] ∧ r.Pairwise Rises ∧
      ∀ c, List.Sublist c [(0, 1), (1, 3), (2, 0), (3, 4), (4, 2)] → c.Pairwise Rises →
        c.length ≤ r.length) :=
  (longestIncreasingSubsequence_longest_iff (by decide) (by decide)).2 (by decide)

/-- The third search reads past the piles, so no subsequence comes back. -/
theorem longestIncreasingSubsequence_not_longest :
    ¬ ∀ pairs : List (Nat × Nat), pairs.Pairwise (fun p q => p.1 < q.1) →
      (pairs.map Prod.snd).Nodup →
      ∃ r, longestIncreasingSubsequence pairs = some r ∧ List.Sublist r pairs ∧
        r.Pairwise Rises ∧ ∀ c, List.Sublist c pairs → c.Pairwise Rises → c.length ≤ r.length := by
  intro h
  obtain ⟨r, hr, -⟩ := h [(0, 2), (1, 0), (2, 1)] (by decide) (by decide)
  have hnone : longestIncreasingSubsequence [(0, 2), (1, 0), (2, 1)] = none := by decide
  rw [hnone] at hr
  cases hr

end Longest

end OpsBlobs.LongestPile
