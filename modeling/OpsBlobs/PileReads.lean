import Mathlib.Data.List.GetD
import OpsBlobs.LongestIncreasing

namespace OpsBlobs.PileReads

open LongestIncreasing

/-- The slots that a bisection for `v` looks at, and the slot it ends at. -/
def bisect (slots : List Nat) (v : Nat) : Nat → Nat → Nat → List Nat × Nat
  | 0, lo, _ => ([], lo)
  | fuel + 1, lo, hi =>
      if lo < hi then
        let mid := (lo + hi) / 2
        let rest := if slots.getD mid 0 < v then bisect slots v fuel (mid + 1) hi
          else bisect slots v fuel lo mid
        (mid :: rest.1, rest.2)
      else ([], lo)

def looksAt (slots : List Nat) (v : Nat) : List Nat := (bisect slots v slots.length 0 slots.length).1

def slotOf (slots : List Nat) (v : Nat) : Nat := (bisect slots v slots.length 0 slots.length).2

/-- Each value is filed without a look at a stale slot, and makes its own slot stale. -/
def Clear (slots : List Nat) : List Nat → List Nat → Prop
  | _, [] => True
  | stale, v :: vs => (∀ m ∈ looksAt slots v, m ∉ stale) ∧ Clear slots (slotOf slots v :: stale) vs

/-- The same once `first` was refilled, until a value opens one more slot: from then on a look
at `first` sees that value, and the new slot is stale. -/
def ClearPast (run : List Nat) (first : Nat) : List Nat → List Nat → Prop
  | _, [] => True
  | stale, v :: vs =>
      (∀ m ∈ looksAt run v, m ∉ first :: stale) ∧
        if slotOf run v = run.length then Clear (run.set first v ++ [v]) (run.length :: stale) vs
        else ClearPast run first (slotOf run v :: stale) vs

/-- The values open a slot each as long as they rise; the first that falls refills one. -/
def Readable (run : List Nat) : List Nat → Prop
  | [] => True
  | v :: vs =>
      if slotOf run v = run.length then Readable (run ++ [v]) vs
      else ClearPast run (slotOf run v) [] vs

instance decidableClear (slots : List Nat) : ∀ stale vs, Decidable (Clear slots stale vs)
  | _, [] => .isTrue trivial
  | stale, v :: vs =>
      have := decidableClear slots (slotOf slots v :: stale) vs
      inferInstanceAs (Decidable ((∀ m ∈ looksAt slots v, m ∉ stale) ∧ Clear slots _ vs))

instance decidableClearPast (run : List Nat) (first : Nat) :
    ∀ stale vs, Decidable (ClearPast run first stale vs)
  | _, [] => .isTrue trivial
  | stale, v :: vs =>
      have := decidableClearPast run first (slotOf run v :: stale) vs
      inferInstanceAs (Decidable ((∀ m ∈ looksAt run v, m ∉ first :: stale) ∧
        if slotOf run v = run.length then Clear (run.set first v ++ [v]) (run.length :: stale) vs
        else ClearPast run first _ vs))

instance decidableReadable : ∀ run vs, Decidable (Readable run vs)
  | _, [] => .isTrue trivial
  | run, v :: vs =>
      have := decidableReadable (run ++ [v]) vs
      inferInstanceAs (Decidable (if slotOf run v = run.length then Readable (run ++ [v]) vs
        else ClearPast run (slotOf run v) [] vs))

example : Readable [] [0, 2, 1] ∧ ¬ Readable [] [2, 0, 1] ∧ Readable [] [1, 3, 0, 4, 2] := by
  decide

section Bisect

variable {slots : List Nat} {v : Nat}

/-- A bisection ends between two neighbours that it looked at, unless it ends at a bound. -/
theorem bisect_spec (fuel lo hi : Nat) (hle : lo ≤ hi) (hfuel : hi - lo ≤ fuel) :
    let r := bisect slots v fuel lo hi
    lo ≤ r.2 ∧ r.2 ≤ hi ∧ (∀ m ∈ r.1, m < hi) ∧
      (lo < r.2 → r.2 - 1 ∈ r.1 ∧ slots.getD (r.2 - 1) 0 < v) ∧
      (r.2 < hi → r.2 ∈ r.1 ∧ v ≤ slots.getD r.2 0) := by
  induction fuel generalizing lo hi with
  | zero =>
      obtain rfl : lo = hi := by omega
      simp [bisect]
  | succ fuel ih =>
      unfold bisect
      split
      · rename_i hlt
        simp only
        split
        · rename_i hv
          obtain ⟨h₁, h₂, h₃, h₄, h₅⟩ := ih ((lo + hi) / 2 + 1) hi (by omega) (by omega)
          refine ⟨by omega, h₂, ?_, fun hr => ?_, fun hr => ?_⟩
          · simp only [List.mem_cons, forall_eq_or_imp]
            exact ⟨by omega, h₃⟩
          · by_cases hm : (lo + hi) / 2 + 1 < (bisect slots v fuel ((lo + hi) / 2 + 1) hi).2
            · exact ⟨List.mem_cons_of_mem _ (h₄ hm).1, (h₄ hm).2⟩
            · have he : (bisect slots v fuel ((lo + hi) / 2 + 1) hi).2 - 1 = (lo + hi) / 2 := by
                omega
              rw [he]
              exact ⟨List.mem_cons_self, hv⟩
          · exact ⟨List.mem_cons_of_mem _ (h₅ hr).1, (h₅ hr).2⟩
        · rename_i hv
          obtain ⟨h₁, h₂, h₃, h₄, h₅⟩ := ih lo ((lo + hi) / 2) (by omega) (by omega)
          refine ⟨h₁, by omega, ?_, fun hr => ?_, fun hr => ?_⟩
          · simp only [List.mem_cons, forall_eq_or_imp]
            exact ⟨by omega, fun m hm => by have := h₃ m hm; omega⟩
          · exact ⟨List.mem_cons_of_mem _ (h₄ hr).1, (h₄ hr).2⟩
          · by_cases hm : (bisect slots v fuel lo ((lo + hi) / 2)).2 < (lo + hi) / 2
            · exact ⟨List.mem_cons_of_mem _ (h₅ hm).1, (h₅ hm).2⟩
            · have he : (bisect slots v fuel lo ((lo + hi) / 2)).2 = (lo + hi) / 2 := by omega
              rw [he]
              exact ⟨List.mem_cons_self, Nat.not_lt.1 hv⟩
      · have hlo : lo = hi := by omega
        simp [hlo]

theorem slotOf_le : slotOf slots v ≤ slots.length :=
  (bisect_spec _ _ _ (Nat.zero_le _) (Nat.le_refl _)).2.1

theorem pred_mem_looksAt (h : 0 < slotOf slots v) :
    slotOf slots v - 1 ∈ looksAt slots v ∧ slots.getD (slotOf slots v - 1) 0 < v :=
  (bisect_spec _ _ _ (Nat.zero_le _) (Nat.le_refl _)).2.2.2.1 h

theorem slotOf_mem_looksAt (h : slotOf slots v < slots.length) :
    slotOf slots v ∈ looksAt slots v ∧ v ≤ slots.getD (slotOf slots v) 0 :=
  (bisect_spec _ _ _ (Nat.zero_le _) (Nat.le_refl _)).2.2.2.2 h

/-- A value above all slots opens a new one. -/
theorem slotOf_of_forall_lt (h : ∀ x ∈ slots, x < v) : slotOf slots v = slots.length := by
  by_contra hne
  have hlt : slotOf slots v < slots.length := Nat.lt_of_le_of_ne slotOf_le hne
  have hge := (slotOf_mem_looksAt hlt).2
  rw [List.getD_eq_getElem _ _ hlt] at hge
  exact Nat.not_lt.2 hge (h _ (List.getElem_mem hlt))

end Bisect

section Piles

variable {pairs before rest : List (Nat × Nat)} {s : Piles} {slots stale run : List Nat}
  {top : Nat → Nat} {first : Nat}

/-- What a look at each slot finds: the value the list gives, or nothing where it is stale. -/
structure Looks (top : Nat → Nat) (s : Piles) (slots stale : List Nat) : Prop where
  piles : s.piles.length = slots.length
  tops : s.pileTop.length = slots.length
  live : ∀ m < slots.length, m ∉ stale → s.pileTop[m]? = some (top m) ∧
    ∃ pile, s.piles[top m]? = some pile ∧ pile.2 = slots.getD m 0
  dead : ∀ m < slots.length, m ∈ stale → ∃ t, s.pileTop[m]? = some t ∧ slots.length ≤ t

theorem pileSearch_looks (h : Looks top s slots stale) (v fuel lo hi : Nat)
    (hhi : hi ≤ slots.length) (hfuel : hi - lo ≤ fuel) :
    pileSearch s v fuel lo hi =
      if ∀ m ∈ (bisect slots v fuel lo hi).1, m ∉ stale then some (bisect slots v fuel lo hi).2
      else none := by
  induction fuel generalizing lo hi with
  | zero =>
      unfold pileSearch
      rw [if_neg (by omega)]
      simp [bisect]
  | succ fuel ih =>
      unfold pileSearch bisect
      split
      · simp only [Option.bind_eq_bind, List.mem_cons, forall_eq_or_imp]
        by_cases hm : (lo + hi) / 2 ∈ stale
        · obtain ⟨t, ht, hle⟩ := h.dead _ (by omega) hm
          rw [ht, Option.bind_some, List.getElem?_eq_none (by rw [h.piles]; exact hle),
            Option.bind_none, if_neg fun hc => hc.1 hm]
        · obtain ⟨ht, pile, hpile, hv⟩ := h.live _ (by omega) hm
          rw [ht, Option.bind_some, hpile, Option.bind_some, hv]
          simp only [hm, not_false_eq_true, true_and]
          split
          · exact ih _ _ hhi (by omega)
          · exact ih _ _ (by omega) (by omega)
      · simp

/-- The three arrays after a pair is filed in a slot. -/
def filed (s : Piles) (i : Nat) (pair : Nat × Nat) (lo : Nat) : Piles where
  prev := if 0 < lo then s.prev.set i s.pileTop[lo - 1]? else s.prev
  pileTop := setAt s.pileTop lo i
  piles := setAt s.piles lo pair

theorem placePair_looks (h : Looks top s slots stale) {i : Nat} {pair : Nat × Nat}
    (hpair : pairs[i]? = some pair) :
    placePair pairs s i =
      if ∀ m ∈ looksAt slots pair.2, m ∉ stale then some (filed s i pair (slotOf slots pair.2))
      else none := by
  unfold placePair
  rw [hpair, Option.bind_eq_bind, Option.bind_some, h.piles,
    pileSearch_looks h pair.2 slots.length 0 slots.length (Nat.le_refl _) (Nat.sub_le _ _)]
  change Option.bind (if ∀ m ∈ looksAt slots pair.2, m ∉ stale then _ else none) _ = _
  split <;> rfl

theorem looks_refill (h : Looks top s slots stale) {i lo : Nat} (pair : Nat × Nat)
    (hlo : lo < slots.length) (hi : slots.length ≤ i)
    (htop : ∀ m < slots.length, m ∉ stale → top m = lo → m = lo) :
    Looks top (filed s i pair lo) slots (lo :: stale) := by
  have hlp : lo ≤ s.piles.length := by rw [h.piles]; omega
  have hlt : lo ≤ s.pileTop.length := by rw [h.tops]; omega
  refine ⟨?_, ?_, ?_, ?_⟩
  · simp only [filed, length_setAt, h.piles]
    rw [if_neg (by omega)]
  · simp only [filed, length_setAt, h.tops]
    rw [if_neg (by omega)]
  · intro m hm hfresh
    simp only [List.mem_cons, not_or] at hfresh
    obtain ⟨ht, pile, hpile, hv⟩ := h.live m hm hfresh.2
    simp only [filed, getElem?_setAt hlp, getElem?_setAt hlt]
    rw [if_neg hfresh.1, if_neg fun he => hfresh.1 (htop m hm hfresh.2 he)]
    exact ⟨ht, pile, hpile, hv⟩
  · intro m hm hstale
    simp only [filed, getElem?_setAt hlt]
    by_cases hml : m = lo
    · exact ⟨i, if_pos hml, hi⟩
    · rw [if_neg hml]
      exact h.dead m hm ((List.mem_cons.1 hstale).resolve_left hml)

/-- A run of the loop over the pairs still to be filed. -/
def Files (pairs : List (Nat × Nat)) (s : Piles) (i count : Nat) : Prop :=
  ∃ s', (List.range' i count).foldlM (placePair pairs) s = some s'

theorem files_nil (i : Nat) : Files pairs s i 0 := ⟨s, rfl⟩

theorem placePairs_cons (h : Looks top s slots stale) {i count : Nat} {pair : Nat × Nat}
    (hpair : pairs[i]? = some pair) (s' : Piles) :
    (List.range' i (count + 1)).foldlM (placePair pairs) s = some s' ↔
      (∀ m ∈ looksAt slots pair.2, m ∉ stale) ∧
        (List.range' (i + 1) count).foldlM (placePair pairs)
          (filed s i pair (slotOf slots pair.2)) = some s' := by
  rw [List.range'_succ, List.foldlM_cons, placePair_looks h hpair]
  by_cases hc : ∀ m ∈ looksAt slots pair.2, m ∉ stale
  · rw [if_pos hc, Option.bind_eq_bind, Option.bind_some, and_iff_right hc]
  · rw [if_neg hc]
    simp [hc]

theorem files_cons (h : Looks top s slots stale) {i count : Nat} {pair : Nat × Nat}
    (hpair : pairs[i]? = some pair) :
    Files pairs s i (count + 1) ↔ (∀ m ∈ looksAt slots pair.2, m ∉ stale) ∧
      Files pairs (filed s i pair (slotOf slots pair.2)) (i + 1) count := by
  simp only [Files, placePairs_cons h hpair, exists_and_left]

theorem files_clear (hpairs : pairs = before ++ rest) (h : Looks top s slots stale)
    (hi : slots.length ≤ before.length)
    (htop : ∀ m < slots.length, m ∉ stale → ∀ m' < slots.length, m' ∉ stale → top m = m' → m = m')
    (hlast : slots.length - 1 ∈ stale) (hpos : 0 < slots.length) :
    Files pairs s before.length rest.length ↔ Clear slots stale (rest.map Prod.snd) := by
  induction rest generalizing before s stale with
  | nil => exact iff_of_true (files_nil _) trivial
  | cons pair rest ih =>
      have hpair : pairs[before.length]? = some pair := by simp [hpairs]
      rw [List.length_cons, files_cons h hpair, List.map_cons, Clear]
      refine and_congr_right fun hclear => ?_
      have hlo : slotOf slots pair.2 < slots.length := by
        refine Nat.lt_of_le_of_ne slotOf_le fun he => ?_
        have hpred := (pred_mem_looksAt (he ▸ hpos)).1
        exact hclear _ hpred (he ▸ hlast)
      have hfresh := hclear _ (slotOf_mem_looksAt hlo).1
      have hstep := looks_refill h pair hlo hi fun m hm hms => htop m hm hms _ hlo hfresh
      have hsplit : pairs = (before ++ [pair]) ++ rest := by simp [hpairs]
      have := ih hsplit hstep
        (by rw [List.length_append]; omega)
        (fun m hm hms m' hm' hms' => htop m hm (fun hc => hms (List.mem_cons_of_mem _ hc)) m' hm'
          fun hc => hms' (List.mem_cons_of_mem _ hc))
        (List.mem_cons_of_mem _ hlast)
      rwa [List.length_append, List.length_singleton] at this

/-- The slot refilled first is seen again once one more slot is opened: its top is the number
of the slots there were. -/
theorem looks_open (h : Looks id s run (first :: stale)) {i : Nat} (pair : Nat × Nat)
    (hfirst : first < run.length) (htop : s.pileTop[first]? = some run.length)
    (hstale : ∀ m ∈ stale, ∃ t, s.pileTop[m]? = some t ∧ run.length < t) (hi : run.length < i) :
    Looks (fun m => if m = first then run.length else m) (filed s i pair run.length)
      (run.set first pair.2 ++ [pair.2]) (run.length :: stale) := by
  have hp : run.length ≤ s.piles.length := Nat.le_of_eq h.piles.symm
  have ht : run.length ≤ s.pileTop.length := Nat.le_of_eq h.tops.symm
  refine ⟨?_, ?_, ?_, ?_⟩
  · simp [filed, h.piles]
  · simp [filed, h.tops]
  · intro m hm hfresh
    simp only [List.length_append, List.length_set, List.length_singleton] at hm
    simp only [List.mem_cons, not_or] at hfresh
    simp only [filed, getElem?_setAt hp, getElem?_setAt ht]
    rw [if_neg hfresh.1]
    by_cases hmf : m = first
    · subst hmf
      refine ⟨by simpa using htop, pair, by simp, ?_⟩
      rw [List.getD_eq_getElem?_getD, List.getElem?_append_left (by simpa using hfirst)]
      simp [hfirst]
    · obtain ⟨hmt, pile, hpile, hv⟩ := h.live m (by omega) (by simp [hmf, hfresh.2])
      rw [if_neg hmf, if_neg (by omega)]
      refine ⟨hmt, pile, hpile, ?_⟩
      rw [hv, List.getD_eq_getElem?_getD, List.getD_eq_getElem?_getD,
        List.getElem?_append_left (by simp; omega), List.getElem?_set_ne (Ne.symm hmf)]
  · intro m hm hmem
    simp only [List.length_append, List.length_set, List.length_singleton] at hm ⊢
    simp only [filed, getElem?_setAt ht]
    by_cases hml : m = run.length
    · exact ⟨i, if_pos hml, hi⟩
    · rw [if_neg hml]
      obtain ⟨t, hmt, hlt⟩ := hstale m ((List.mem_cons.1 hmem).resolve_left hml)
      exact ⟨t, hmt, hlt⟩

/-- The piles from the first refill on, as long as no value opens one more slot. -/
structure Refilled (s : Piles) (run : List Nat) (first : Nat) (stale : List Nat) (i : Nat) :
    Prop where
  looks : Looks id s run (first :: stale)
  inside : first < run.length
  top : s.pileTop[first]? = some run.length
  tops : ∀ m ∈ stale, ∃ t, s.pileTop[m]? = some t ∧ run.length < t
  started : run.length < i

theorem refilled_next {i : Nat} (h : Refilled s run first stale i) {pair : Nat × Nat}
    (hclear : ∀ m ∈ looksAt run pair.2, m ∉ first :: stale)
    (hopen : slotOf run pair.2 ≠ run.length) :
    Refilled (filed s i pair (slotOf run pair.2)) run first (slotOf run pair.2 :: stale)
      (i + 1) := by
  have hlo : slotOf run pair.2 < run.length := Nat.lt_of_le_of_ne slotOf_le hopen
  have hfresh := hclear _ (slotOf_mem_looksAt hlo).1
  simp only [List.mem_cons, not_or] at hfresh
  have hlt : slotOf run pair.2 ≤ s.pileTop.length := by rw [h.looks.tops]; omega
  have hstep := looks_refill h.looks pair hlo (Nat.le_of_lt h.started) fun _ _ _ he => he
  refine ⟨?_, h.inside, ?_, ?_, Nat.lt_succ_of_lt h.started⟩
  · exact ⟨hstep.piles, hstep.tops, fun m hm hms => hstep.live m hm fun hc => hms (by
      simp only [List.mem_cons] at hc ⊢; tauto), fun m hm hms => hstep.dead m hm (by
      simp only [List.mem_cons] at hms ⊢; tauto)⟩
  · simp only [filed, getElem?_setAt hlt]
    rw [if_neg (Ne.symm hfresh.1), h.top]
  · intro m hm
    simp only [filed, getElem?_setAt hlt]
    by_cases hml : m = slotOf run pair.2
    · exact ⟨i, if_pos hml, h.started⟩
    · rw [if_neg hml]
      exact h.tops m ((List.mem_cons.1 hm).resolve_left hml)

theorem files_clearPast (hpairs : pairs = before ++ rest)
    (h : Refilled s run first stale before.length) :
    Files pairs s before.length rest.length ↔ ClearPast run first stale (rest.map Prod.snd) := by
  induction rest generalizing before s stale with
  | nil => exact iff_of_true (files_nil _) trivial
  | cons pair rest ih =>
      have hpair : pairs[before.length]? = some pair := by simp [hpairs]
      have hsplit : pairs = (before ++ [pair]) ++ rest := by simp [hpairs]
      have hlen : (before ++ [pair]).length = before.length + 1 := by simp
      rw [List.length_cons, files_cons h.looks hpair, List.map_cons, ClearPast]
      refine and_congr_right fun hclear => ?_
      by_cases hopen : slotOf run pair.2 = run.length
      · have hstep := looks_open h.looks pair h.inside h.top h.tops h.started
        have hstart := h.started
        rw [if_pos hopen, hopen, ← hlen]
        refine files_clear hsplit hstep (by simp; omega) ?_ (by simp) (by simp)
        intro m hm hms m' hm' hms' he
        simp only [List.mem_cons, not_or] at hms hms'
        split at he
        · exact absurd he.symm hms'.1
        · exact he
      · rw [if_neg hopen, ← hlen]
        exact ih hsplit (hlen.symm ▸ refilled_next h hclear hopen)

theorem looks_push (h : Looks id s run []) {i : Nat} (pair : Nat × Nat) (hi : i = run.length) :
    Looks id (filed s i pair run.length) (run ++ [pair.2]) [] := by
  subst hi
  have hp : run.length ≤ s.piles.length := Nat.le_of_eq h.piles.symm
  have ht : run.length ≤ s.pileTop.length := Nat.le_of_eq h.tops.symm
  refine ⟨by simp [filed, h.piles], by simp [filed, h.tops], ?_, by simp⟩
  intro m hm _
  rw [List.length_append, List.length_singleton] at hm
  simp only [filed, getElem?_setAt hp, getElem?_setAt ht, id]
  by_cases hml : m = run.length
  · subst hml
    refine ⟨if_pos rfl, pair, if_pos rfl, ?_⟩
    rw [List.getD_eq_getElem?_getD, List.getElem?_concat_length]
    rfl
  · obtain ⟨hmt, pile, hpile, hv⟩ := h.live m (by omega) (by simp)
    rw [if_neg hml, if_neg hml]
    refine ⟨hmt, pile, hpile, ?_⟩
    rw [hv, List.getD_eq_getElem?_getD, List.getD_eq_getElem?_getD,
      List.getElem?_append_left (by omega)]

theorem refilled_first (h : Looks id s run []) {i : Nat} (pair : Nat × Nat) (hi : i = run.length)
    (hopen : slotOf run pair.2 ≠ run.length) :
    Refilled (filed s i pair (slotOf run pair.2)) run (slotOf run pair.2) [] (i + 1) := by
  have hlo : slotOf run pair.2 < run.length := Nat.lt_of_le_of_ne slotOf_le hopen
  have hlt : slotOf run pair.2 ≤ s.pileTop.length := by rw [h.tops]; omega
  refine ⟨looks_refill h pair hlo (Nat.le_of_eq hi.symm) fun _ _ _ he => he, hlo, ?_, by simp,
    by omega⟩
  rw [filed, getElem?_setAt hlt, if_pos rfl, hi]

theorem files_readable (hpairs : pairs = before ++ rest) (h : Looks id s run [])
    (hi : before.length = run.length) :
    Files pairs s before.length rest.length ↔ Readable run (rest.map Prod.snd) := by
  induction rest generalizing before s run with
  | nil => exact iff_of_true (files_nil _) trivial
  | cons pair rest ih =>
      have hpair : pairs[before.length]? = some pair := by simp [hpairs]
      have hsplit : pairs = (before ++ [pair]) ++ rest := by simp [hpairs]
      have hlen : (before ++ [pair]).length = before.length + 1 := by simp
      rw [List.length_cons, files_cons h hpair, List.map_cons, Readable,
        and_iff_right (fun m _ => List.not_mem_nil)]
      by_cases hopen : slotOf run pair.2 = run.length
      · rw [if_pos hopen, hopen, ← hlen]
        exact ih hsplit (looks_push h pair hi) (by simp [hi])
      · rw [if_neg hopen, ← hlen]
        exact files_clearPast hsplit (hlen.symm ▸ refilled_first h pair hi hopen)

theorem reconstruct_isSome {prev : List (Option Nat)}
    (hprev : ∀ t u : Nat, prev[t]? = some (some u) → u < t) (fuel : Nat) (k : Option Nat)
    (acc : List (Nat × Nat)) (hk : ∀ t, k = some t → t < fuel ∧ t < pairs.length) :
    ∃ r, reconstruct pairs prev fuel k acc = some r := by
  induction fuel generalizing k acc with
  | zero =>
      cases k with
      | none => exact ⟨acc, by simp [reconstruct]⟩
      | some t => exact absurd (hk t rfl).1 (Nat.not_lt_zero _)
  | succ fuel ih =>
      cases k with
      | none => exact ⟨acc, by simp [reconstruct]⟩
      | some t =>
          obtain ⟨hfuel, hlen⟩ := hk t rfl
          rw [reconstruct, List.getElem?_eq_getElem hlen]
          refine ih _ _ fun u hu => ?_
          have := hprev t u (Option.join_eq_some_iff.1 hu)
          omega

/-- The patience sort returns exactly when it can be done without a look at a stale slot. -/
theorem longestIncreasingSubsequence_returns (pairs : List (Nat × Nat)) :
    (∃ r, longestIncreasingSubsequence pairs = some r) ↔ Readable [] (pairs.map Prod.snd) := by
  have hempty : Looks id (emptyPiles pairs) [] [] := ⟨rfl, rfl, by simp, by simp⟩
  have hsplit : pairs = [] ++ pairs := rfl
  rw [← files_readable hsplit hempty rfl, Files, List.length_nil, ← List.range_eq_range',
    longestIncreasingSubsequence]
  split
  · rename_i hnil
    subst hnil
    exact iff_of_true ⟨_, rfl⟩ ⟨_, rfl⟩
  · constructor
    · rintro ⟨r, hr⟩
      obtain ⟨s, hs, -⟩ := Option.bind_eq_some_iff.1 hr
      exact ⟨s, hs⟩
    · rintro ⟨s, hs⟩
      obtain ⟨hf, -⟩ := placePairs_filed _ hs
      rw [hs, Option.bind_eq_bind, Option.bind_some]
      refine reconstruct_isSome (fun t u ht => (hf.linked t u ht).2.1) _ _ _ fun t ht => ?_
      exact ⟨(hf.pile _ _ ht).1, (hf.pile _ _ ht).1⟩

end Piles

end OpsBlobs.PileReads
