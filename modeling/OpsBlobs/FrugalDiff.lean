import Mathlib.Data.List.Nodup
import OpsBlobs.DiffReads

namespace OpsBlobs.FrugalDiff

open DiffLines DiffReads EditScript LongestIncreasing PileReads Slice

section Rising

variable {pairs : List (Nat × Nat)}

/-- The links after the first `n` of rising pairs: each to the pair before it. -/
def links (len n : Nat) : List (Option Nat) :=
  (List.range len).map fun t => if 0 < t ∧ t < n then some (t - 1) else none

theorem links_succ (len n : Nat) :
    (if 0 < n then (links len n).set n (some (n - 1)) else links len n) = links len (n + 1) := by
  split
  · rename_i hpos
    apply List.ext_getElem
    · simp [links]
    · intro t _ _
      rw [List.getElem_set]
      by_cases ht : n = t
      · simp [links, ← ht, hpos]
      · have hiff : t < n ↔ t < n + 1 := by omega
        simp only [links, List.getElem_map, List.getElem_range, if_neg ht, hiff]
  · refine List.map_congr_left fun t _ => if_congr ?_ rfl rfl
    omega

/-- Rising pairs open a slot each. -/
theorem placePairs_rising (h : pairs.Pairwise Rises) (n : Nat) (hn : n ≤ pairs.length) :
    ∃ s, (List.range n).foldlM (placePair pairs) (emptyPiles pairs) = some s ∧
      Looks id s ((pairs.take n).map Prod.snd) [] ∧ s.prev = links pairs.length n := by
  induction n with
  | zero =>
      refine ⟨emptyPiles pairs, rfl, ⟨rfl, rfl, by simp, by simp⟩, ?_⟩
      simp [emptyPiles, links, List.map_const']
  | succ n ih =>
      obtain ⟨s, hs, hlooks, hprev⟩ := ih (by omega)
      have hlen : ((pairs.take n).map Prod.snd).length = n := by simp; omega
      have hpair : pairs[n]? = some pairs[n] := List.getElem?_eq_getElem hn
      have hslot : slotOf ((pairs.take n).map Prod.snd) pairs[n].2 =
          ((pairs.take n).map Prod.snd).length := by
        refine slotOf_of_forall_lt fun x hx => ?_
        obtain ⟨p, hp, rfl⟩ := List.mem_map.1 hx
        obtain ⟨k, hk, rfl⟩ := List.mem_iff_getElem.1 hp
        rw [List.length_take] at hk
        rw [List.getElem_take]
        exact (List.pairwise_iff_getElem.1 h k n (by omega) (by omega) (by omega)).2
      have hstep : placePair pairs s n = some (filed s n pairs[n] n) := by
        rw [placePair_looks hlooks hpair, hslot, hlen]
        exact if_pos fun _ _ => List.not_mem_nil
      have hpush := looks_push hlooks pairs[n] hlen.symm
      refine ⟨filed s n pairs[n] n, ?_, ?_, ?_⟩
      · rw [List.range_succ, List.foldlM_append, hs]
        simp [hstep]
      · rw [hlen] at hpush
        rw [List.take_add_one, hpair, List.map_append]
        exact hpush
      · rw [← links_succ pairs.length n, ← hprev]
        unfold filed
        dsimp only
        split
        · rw [(hlooks.live (n - 1) (by omega) List.not_mem_nil).1]
          rfl
        · rfl

theorem reconstruct_links {n : Nat} (k fuel : Nat) (acc : List (Nat × Nat)) (hn : k < n)
    (hk : k < pairs.length) (hfuel : k < fuel) :
    reconstruct pairs (links pairs.length n) fuel (some k) acc =
      some (pairs.take (k + 1) ++ acc) := by
  induction k generalizing fuel acc with
  | zero =>
      obtain ⟨fuel, rfl⟩ := Nat.exists_eq_succ_of_ne_zero (Nat.ne_of_gt hfuel)
      cases pairs with
      | nil => exact absurd hk (Nat.not_lt_zero _)
      | cons p pairs => cases fuel <;> simp [reconstruct, links]
  | succ k ih =>
      obtain ⟨fuel, rfl⟩ : ∃ f, fuel = f + 1 := ⟨fuel - 1, by omega⟩
      have hlink : (links pairs.length n)[k + 1]?.join = some k := by simp [links, hk, hn]
      rw [reconstruct, List.getElem?_eq_getElem hk, hlink, Option.bind_eq_bind, Option.bind_some,
        ih fuel _ (by omega) (by omega) (by omega), List.take_add_one (i := k + 1),
        List.getElem?_eq_getElem hk, List.append_assoc]
      rfl

/-- Pairs that rise are all kept. -/
theorem longestIncreasingSubsequence_of_rises (h : pairs.Pairwise Rises) :
    longestIncreasingSubsequence pairs = some pairs := by
  unfold longestIncreasingSubsequence
  split
  · rename_i hnil
    rw [hnil]
  · rename_i hne
    have hpos : 0 < pairs.length := List.length_pos_iff.2 hne
    obtain ⟨s, hs, hlooks, hprev⟩ := placePairs_rising h pairs.length (Nat.le_refl _)
    have hlen : s.piles.length = pairs.length := by rw [hlooks.piles]; simp
    have htop := (hlooks.live (pairs.length - 1) (by simp; omega) List.not_mem_nil).1
    rw [hs, Option.bind_eq_bind, Option.bind_some, hlen, htop, hprev, id,
      reconstruct_links _ _ _ (by omega) (by omega) (by omega), Nat.sub_add_cancel hpos,
      List.take_length, List.append_nil]

end Rising

variable {α : Type} {a b : List α}

section Frugal

/-- The script neither deletes a line of the new text nor inserts one of the old text. -/
def Frugal (a b : List α) (ops : List (DiffOp α)) : Prop :=
  ∀ op ∈ ops, (op.type = .delete → ∀ x ∈ op.lines, x ∉ b) ∧
    (op.type = .insert → ∀ x ∈ op.lines, x ∉ a)

/-- No line of the one range occurs in the other text. -/
def Foreign (a b : List α) (lo hi : Nat) : Prop := ∀ i x, lo ≤ i → i < hi → a[i]? = some x → x ∉ b

theorem foreign_slice {lo hi : Nat} (h : Foreign a b lo hi) : ∀ x ∈ slice a lo hi, x ∉ b := by
  intro x hx
  obtain ⟨k, hk⟩ := List.mem_iff_getElem?.1 hx
  rw [getElem?_slice] at hk
  split at hk
  · exact h (lo + k) x (Nat.le_add_right _ _) ‹_› hk
  · cases hk

theorem frugal_gap {ai la bi lb : Nat} (ha : Foreign a b ai la) (hb : Foreign b a bi lb) :
    Frugal a b (deleteGap a ai la ++ insertGap b bi lb) := by
  intro op hop
  rcases List.mem_append.1 hop with hop | hop
  · unfold deleteGap at hop
    split at hop
    · obtain rfl := List.mem_singleton.1 hop
      exact ⟨fun _ => foreign_slice ha, nofun⟩
    · exact absurd hop List.not_mem_nil
  · unfold insertGap at hop
    split at hop
    · obtain rfl := List.mem_singleton.1 hop
      exact ⟨nofun, fun _ => foreign_slice hb⟩
    · exact absurd hop List.not_mem_nil

theorem frugal_coalesceOps {ops : List (DiffOp α)} (h : Frugal a b ops) :
    Frugal a b (coalesceOps ops) := by
  have hpush : ∀ (result : List (DiffOp α)) op, Frugal a b result → Frugal a b [op] →
      Frugal a b (pushOp result op) := by
    intro result op hresult hop
    have hsnoc : Frugal a b (result ++ [op]) := fun o ho =>
      (List.mem_append.1 ho).elim (hresult o) (hop o)
    unfold pushOp
    split
    · exact hresult
    · split
      · rename_i last hlast
        split
        · rename_i htype
          obtain ⟨front, rfl⟩ := List.getLast?_eq_some_iff.1 hlast
          rw [List.dropLast_concat]
          intro o ho
          rcases List.mem_append.1 ho with ho | ho
          · exact hresult o (List.mem_append_left _ ho)
          · obtain rfl := List.mem_singleton.1 ho
            have hl := hresult last (by simp)
            have hr := hop op (by simp)
            rw [← htype] at hr
            exact ⟨fun ht x hx => (List.mem_append.1 hx).elim (hl.1 ht x) (hr.1 ht x),
              fun ht x hx => (List.mem_append.1 hx).elim (hl.2 ht x) (hr.2 ht x)⟩
        · exact hsnoc
      · exact hsnoc
  have hrun : ∀ (ops result : List (DiffOp α)), Frugal a b result → Frugal a b ops →
      Frugal a b (ops.foldl pushOp result) := by
    intro ops
    induction ops with
    | nil => exact fun _ hresult _ => hresult
    | cons op rest ih =>
        intro result hresult hops
        refine ih _ (hpush result op hresult ?_) fun o ho => hops o (List.mem_cons_of_mem _ ho)
        exact fun o ho => List.mem_singleton.1 ho ▸ hops op List.mem_cons_self
  exact hrun ops [] (fun _ ho => absurd ho List.not_mem_nil) h

end Frugal

variable [DecidableEq α]

section Unique

theorem countLines_getD (a : List α) (lo hi : Nat) (x : α) :
    ((countLines a lo hi).get x).getD [] =
      (List.range' lo (hi - lo)).filter (fun i => a[i]? = some x) := by
  have hrun : ∀ (l : List Nat) (m : JsMap α (List Nat)),
      ((l.foldl (noteIndex a) m).get x).getD [] =
        (m.get x).getD [] ++ l.filter (fun i => a[i]? = some x) := by
    intro l
    induction l with
    | nil => simp
    | cons k rest ih =>
        intro m
        rw [List.foldl_cons, ih, noteIndex]
        cases hk : a[k]? with
        | none => simp [hk]
        | some line =>
            by_cases hline : line = x
            · subst hline
              simp [hk]
            · simp [hk, JsMap.get_set, hline]
  rw [countLines, hrun, JsMap.get_empty]
  rfl

theorem countLines_unique {lo hi i : Nat} {x : α} (hlo : lo ≤ i) (hhi : i < hi)
    (hx : a[i]? = some x) (hone : ∀ j, a[j]? = some x → j = i) :
    (countLines a lo hi).get x = some [i] := by
  have hcount := countLines_getD a lo hi x
  have hfilter : (List.range' lo (hi - lo)).filter (fun j => a[j]? = some x) = [i] := by
    have hcongr : (List.range' lo (hi - lo)).filter (fun j => a[j]? = some x) =
        (List.range' lo (hi - lo)).filter (fun j => j = i) :=
      List.filter_congr fun j _ => decide_eq_decide.2 ⟨hone j, fun h => h ▸ hx⟩
    have hmem : i ∈ List.range' lo (hi - lo) := List.mem_range'_1.2 (by omega)
    rw [hcongr, List.filter_eq, List.count_eq_one_of_mem List.nodup_range' hmem]
    rfl
  rw [hfilter] at hcount
  cases hget : (countLines a lo hi).get x with
  | none => rw [hget] at hcount; cases hcount
  | some idxs => rw [hget] at hcount; exact congrArg some hcount

end Unique

/-- The lines that the texts share occur once in each, in one order. -/
def Threaded (a b : List α) : Prop :=
  a.Nodup ∧ b.Pairwise fun x y => x ∈ a → y ∈ a → a.idxOf x < a.idxOf y

section Threads

variable {i i' j j' : Nat} {x x' : α}

theorem threaded_lt (h : Threaded a b) (hi : a[i]? = some x) (hj : b[j]? = some x)
    (hi' : a[i']? = some x') (hj' : b[j']? = some x') (hlt : j < j') : i < i' := by
  obtain ⟨hjl, rfl⟩ := List.getElem?_eq_some_iff.1 hj
  obtain ⟨hjl', rfl⟩ := List.getElem?_eq_some_iff.1 hj'
  obtain ⟨hil, hix⟩ := List.getElem?_eq_some_iff.1 hi
  obtain ⟨hil', hix'⟩ := List.getElem?_eq_some_iff.1 hi'
  have := List.pairwise_iff_getElem.1 h.2 j j' hjl hjl' hlt (List.mem_of_getElem? hi)
    (List.mem_of_getElem? hi')
  rwa [← hix, ← hix', h.1.idxOf_getElem, h.1.idxOf_getElem] at this

theorem threaded_index (h : Threaded a b) (hi : a[i]? = some x) (hj : b[j]? = some x)
    (hj' : b[j']? = some x) : j' = j := by
  rcases Nat.lt_trichotomy j j' with hlt | heq | hlt
  · exact absurd (threaded_lt h hi hj hi hj' hlt) (Nat.lt_irrefl _)
  · exact heq.symm
  · exact absurd (threaded_lt h hi hj' hi hj hlt) (Nat.lt_irrefl _)

theorem threaded_rises (h : Threaded a b) (hi : a[i]? = some x) (hj : b[j]? = some x)
    (hi' : a[i']? = some x') (hj' : b[j']? = some x') (hlt : i < i') : j < j' := by
  rcases Nat.lt_trichotomy j j' with hlt' | rfl | hlt'
  · exact hlt'
  · obtain rfl := Option.some.inj (hj.symm.trans hj')
    obtain ⟨hil, hix⟩ := List.getElem?_eq_some_iff.1 hi
    obtain ⟨hil', hix'⟩ := List.getElem?_eq_some_iff.1 hi'
    have := h.1.getElem_inj_iff.1 (hix.trans hix'.symm)
    omega
  · have := threaded_lt h hi' hj' hi hj hlt'
    omega

/-- The anchors of threaded texts are all the lines they share. -/
theorem patienceAnchors_threaded (h : Threaded a b) (aLo aHi bLo bHi : Nat) :
    ∃ anchors, patienceAnchors a aLo aHi b bLo bHi = some anchors ∧
      ∀ i j x, aLo ≤ i → i < aHi → bLo ≤ j → j < bHi → a[i]? = some x → b[j]? = some x →
        (i, j) ∈ anchors := by
  have hsorted := sortedPairs_lt _ (uniquePairs_ne a b aLo aHi bLo bHi)
  have hmem : ∀ p ∈ (uniquePairs a aLo aHi b bLo bHi).insertionSort (fun x y => x.1 ≤ y.1),
      ∃ x, a[p.1]? = some x ∧ b[p.2]? = some x := by
    intro p hp
    obtain ⟨-, -, -, -, heq⟩ := mem_uniquePairs ((List.mem_insertionSort _).1 hp)
    cases hx : a[p.1]? with
    | some x => exact ⟨x, rfl, heq ▸ hx⟩
    | none =>
        exfalso
        obtain ⟨⟨line, idxs⟩, he, hpair⟩ := List.mem_filterMap.1 ((List.mem_insertionSort _).1 hp)
        have hidxs := (uniquePair_eq hpair).1
        simp only at hidxs
        subst hidxs
        have := (countLines_get ((JsMap.mem_entries_iff _).1 he) p.1 (by simp)).2.2
        cases hx.symm.trans this
  have hrises := hsorted.imp_of_mem (S := Rises) fun {p q} hp hq hlt => by
    obtain ⟨x, hi, hj⟩ := hmem p hp
    obtain ⟨x', hi', hj'⟩ := hmem q hq
    exact ⟨hlt, threaded_rises h hi hj hi' hj' hlt⟩
  refine ⟨_, longestIncreasingSubsequence_of_rises hrises, ?_⟩
  intro i j x h₁ h₂ h₃ h₄ hi hj
  have hone : ∀ k, a[k]? = some x → k = i := fun k hk => by
    obtain ⟨hil, hix⟩ := List.getElem?_eq_some_iff.1 hi
    obtain ⟨hkl, hkx⟩ := List.getElem?_eq_some_iff.1 hk
    exact h.1.getElem_inj_iff.1 (hkx.trans hix.symm)
  have ha := countLines_unique h₁ h₂ hi hone
  have hb := countLines_unique h₃ h₄ hj fun k hk => threaded_index h hi hj hk
  refine (List.mem_insertionSort _).2 (List.mem_filterMap.2 ⟨(x, [i]), ?_, ?_⟩)
  · exact (JsMap.mem_entries_iff _).2 ha
  · simp [uniquePair, hb]

end Threads

section Gaps

variable {ai aHi bi bHi : Nat}

/-- Ranges that share nothing are deleted and inserted whole. -/
theorem diffRecurse_foreign {fuel : Nat} (hfuel : 0 < fuel) (ha : ai ≤ aHi) (ha' : aHi ≤ a.length)
    (hb : bi ≤ bHi) (hb' : bHi ≤ b.length) (h : Foreign a b ai aHi) :
    diffRecurse a b fuel ai aHi bi bHi = some (deleteGap a ai aHi ++ insertGap b bi bHi) := by
  obtain ⟨fuel, rfl⟩ : ∃ f, fuel = f + 1 := ⟨fuel - 1, by omega⟩
  have hnone : ∀ ps : List (Nat × Nat), Matches a b aHi bHi ai bi ps → ps = [] := by
    rintro (_ | ⟨⟨la, lb⟩, ps⟩) hm
    · rfl
    · obtain ⟨h₁, h₂, h₃, h₄, h₅, -⟩ := hm
      have hla := List.getElem?_eq_getElem (Nat.lt_of_lt_of_le h₂ ha')
      exact absurd (List.mem_of_getElem? (h₅ ▸ hla)) (h la _ h₁ h₂ hla)
  unfold diffRecurse deleteGap insertGap
  by_cases hae : ai = aHi
  · by_cases hbe : bi = bHi
    · simp [hae, hbe]
    · have hlt : bi < bHi := Nat.lt_of_le_of_ne hb hbe
      simp [hae, hbe, hlt]
  · by_cases hbe : bi = bHi
    · have hlt : ai < aHi := Nat.lt_of_le_of_ne ha hae
      simp [hae, hbe, hlt]
    · have hpairs : uniquePairs a ai aHi b bi bHi = [] := by
        refine List.eq_nil_iff_forall_not_mem.2 fun p hp => ?_
        obtain ⟨h₁, h₂, -, h₄, h₅⟩ := mem_uniquePairs hp
        have hla := List.getElem?_eq_getElem (Nat.lt_of_lt_of_le h₂ ha')
        exact h p.1 _ h₁ h₂ hla (List.mem_of_getElem? (h₅ ▸ hla))
      obtain ⟨lcs, hlcs⟩ := myersLCS_returns a b ⟨ai, aHi, bi, bHi⟩
      obtain rfl := hnone lcs (myersLCS_matches ha ha' hb hb' hlcs)
      have hanchors : patienceAnchors a ai aHi b bi bHi = some [] := by
        rw [patienceAnchors, hpairs]
        rfl
      simp only at hlcs
      simp only [hae, hbe, hanchors, hlcs, false_and, if_false, Option.bind_eq_bind,
        Option.bind_some, if_true, emitFromLCS, deleteGap, insertGap]

theorem frugal_betweenAnchors {fuel : Nat} (hfuel : 0 < fuel) (ha : aHi ≤ a.length)
    (hb : bHi ≤ b.length) {anchors : List (Nat × Nat)} (hm : Matches a b aHi bHi ai bi anchors)
    (hold : ∀ i x, ai ≤ i → i < aHi → a[i]? = some x → x ∈ b → ∃ j, (i, j) ∈ anchors)
    (hnew : ∀ j x, bi ≤ j → j < bHi → b[j]? = some x → x ∈ a → ∃ i, (i, j) ∈ anchors) :
    ∃ ops, betweenAnchors (diffRecurse a b fuel) a aHi bHi ai bi anchors = some ops ∧
      Frugal a b ops := by
  induction anchors generalizing ai bi with
  | nil =>
      have hforeign : Foreign a b ai aHi := fun i x h₁ h₂ hi hx =>
        absurd (hold i x h₁ h₂ hi hx).choose_spec List.not_mem_nil
      refine ⟨_, diffRecurse_foreign hfuel hm.1 ha hm.2 hb hforeign, frugal_gap hforeign ?_⟩
      exact fun j x h₁ h₂ hj hx => absurd (hnew j x h₁ h₂ hj hx).choose_spec List.not_mem_nil
  | cons p rest ih =>
      obtain ⟨la, lb⟩ := p
      obtain ⟨h₁, h₂, h₃, h₄, h₅, hrest⟩ := hm
      have hbehind : ∀ q ∈ rest, la < q.1 ∧ lb < q.2 := by
        clear hold hnew ih
        have hrun : ∀ (qs : List (Nat × Nat)) (i j : Nat), Matches a b aHi bHi i j qs →
            ∀ q ∈ qs, i ≤ q.1 ∧ j ≤ q.2 := by
          intro qs
          induction qs with
          | nil => exact fun _ _ _ q hq => absurd hq List.not_mem_nil
          | cons r qs ih =>
              rintro i j ⟨k₁, -, k₃, -, -, hm⟩ q hq
              rcases List.mem_cons.1 hq with rfl | hq
              · exact ⟨k₁, k₃⟩
              · have := ih _ _ hm q hq
                omega
        intro q hq
        have := hrun _ _ _ hrest q hq
        omega
      have hgapOld : Foreign a b ai la := by
        intro i x hi₁ hi₂ hi hx
        obtain ⟨j, hj⟩ := hold i x hi₁ (by omega) hi hx
        rcases List.mem_cons.1 hj with hj | hj
        · have := congrArg Prod.fst hj
          simp only at this
          omega
        · have := (hbehind _ hj).1
          simp only at this
          omega
      have hgapNew : Foreign b a bi lb := by
        intro j x hj₁ hj₂ hj hx
        obtain ⟨i, hi⟩ := hnew j x hj₁ (by omega) hj hx
        rcases List.mem_cons.1 hi with hi | hi
        · have := congrArg Prod.snd hi
          simp only at this
          omega
        · have := (hbehind _ hi).2
          simp only at this
          omega
      obtain ⟨ops, hops, hfrugal⟩ := ih hrest
        (fun i x hi₁ hi₂ hi hx => by
          obtain ⟨j, hj⟩ := hold i x (by omega) hi₂ hi hx
          refine ⟨j, (List.mem_cons.1 hj).resolve_left fun he => ?_⟩
          have := congrArg Prod.fst he
          simp only at this
          omega)
        (fun j x hj₁ hj₂ hj hx => by
          obtain ⟨i, hi⟩ := hnew j x (by omega) hj₂ hj hx
          refine ⟨i, (List.mem_cons.1 hi).resolve_left fun he => ?_⟩
          have := congrArg Prod.snd he
          simp only at this
          omega)
      have hgap := diffRecurse_foreign hfuel h₁ (by omega) h₃ (by omega) hgapOld
      have hla : la < a.length := by omega
      refine ⟨deleteGap a ai la ++ insertGap b bi lb ++ ⟨.equal, [a[la]]⟩ :: ops, ?_, ?_⟩
      · rw [betweenAnchors, hgap, List.getElem?_eq_getElem hla, hops]
        rfl
      · intro op hop
        rcases List.mem_append.1 hop with hop | hop
        · exact frugal_gap hgapOld hgapNew op hop
        · rcases List.mem_cons.1 hop with rfl | hop
          · exact ⟨by rintro ⟨⟩, by rintro ⟨⟩⟩
          · exact hfrugal op hop

end Gaps

/-- The diff of threaded texts keeps all the lines they share. -/
theorem diffLines_threaded (h : Threaded a b) : ∃ ops, diffLines a b = some ops ∧
    IsScript ops a b ∧ Frugal a b ops := by
  have hraw : ∃ raw, diffRecurse a b (a.length + 1) 0 a.length 0 b.length = some raw ∧
      Frugal a b raw := by
    by_cases hforeign : Foreign a b 0 a.length
    · refine ⟨_, diffRecurse_foreign (Nat.succ_pos _) (Nat.zero_le _) (Nat.le_refl _)
        (Nat.zero_le _) (Nat.le_refl _) hforeign, frugal_gap hforeign ?_⟩
      intro j x _ _ hj hx
      obtain ⟨i, hi⟩ := List.mem_iff_getElem?.1 hx
      exact hforeign i x (Nat.zero_le _) (List.getElem?_eq_some_iff.1 hi).1 hi
        (List.mem_of_getElem? hj)
    · obtain ⟨anchors, hanchors, hall⟩ := patienceAnchors_threaded h 0 a.length 0 b.length
      simp only [Foreign, not_forall, not_not] at hforeign
      obtain ⟨i, x, -, hilt, hi, hx⟩ := hforeign
      obtain ⟨j, hj⟩ := List.mem_iff_getElem?.1 hx
      have hlt : ∀ {l : List α} {k : Nat} {y : α}, l[k]? = some y → k < l.length :=
        fun hk => (List.getElem?_eq_some_iff.1 hk).1
      have hne : anchors ≠ [] := List.ne_nil_of_mem
        (hall i j x (Nat.zero_le _) hilt (Nat.zero_le _) (hlt hj) hi hj)
      have hpos : 0 < a.length := Nat.lt_of_le_of_lt (Nat.zero_le _) hilt
      have hpos' : 0 < b.length := Nat.lt_of_le_of_lt (Nat.zero_le _) (hlt hj)
      have hm := patienceAnchors_matches (Nat.zero_le _) (Nat.zero_le _) hanchors
      unfold diffRecurse
      rw [if_neg (by omega), if_neg (by omega), if_neg (by omega), hanchors, Option.bind_eq_bind,
        Option.bind_some, if_neg hne]
      refine frugal_betweenAnchors hpos (Nat.le_refl _) (Nat.le_refl _) hm ?_ ?_
      · intro i x _ _ hi hx
        obtain ⟨j, hj⟩ := List.mem_iff_getElem?.1 hx
        exact ⟨j, hall i j x (Nat.zero_le _) (hlt hi) (Nat.zero_le _) (hlt hj) hi hj⟩
      · intro j x _ _ hj hx
        obtain ⟨i, hi⟩ := List.mem_iff_getElem?.1 hx
        exact ⟨i, hall i j x (Nat.zero_le _) (hlt hi) (Nat.zero_le _) (hlt hj) hi hj⟩
  obtain ⟨raw, hraw, hfrugal⟩ := hraw
  have hops : diffLines a b = some (coalesceOps raw) := Option.map_eq_some_iff.2 ⟨raw, hraw, rfl⟩
  exact ⟨_, hops, isScript_diffLines hops, frugal_coalesceOps hfrugal⟩

end OpsBlobs.FrugalDiff
