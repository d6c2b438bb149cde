import Mathlib.Data.List.Basic
import Mathlib.Data.List.Pairwise

namespace OpsBlobs.LongestIncreasing

/-- The three working arrays of the patience sort; a `prev` of -1 is `none`. -/
structure Piles where
  piles : List (Nat × Nat)
  prev : List (Option Nat)
  pileTop : List Nat
  deriving DecidableEq, Repr

def setAt {α : Type} (l : List α) (i : Nat) (x : α) : List α :=
  if i = l.length then l ++ [x] else l.set i x

/-- The binary search over the piles. It reads `piles` at the pair index kept in
`pileTop`, so a top that is not below the number of piles is an out-of-range read. -/
def pileSearch (s : Piles) (bVal : Nat) : Nat → Nat → Nat → Option Nat
  | fuel, lo, hi =>
    if lo < hi then
      match fuel with
      | 0 => none
      | fuel + 1 => do
          let mid := (lo + hi) / 2
          let top ← s.pileTop[mid]?
          let pile ← s.piles[top]?
          if pile.2 < bVal then pileSearch s bVal fuel (mid + 1) hi
          else pileSearch s bVal fuel lo mid
    else some lo

def placePair (pairs : List (Nat × Nat)) (s : Piles) (i : Nat) : Option Piles := do
  let pair ← pairs[i]?
  let lo ← pileSearch s pair.2 s.piles.length 0 s.piles.length
  some
    { prev := if 0 < lo then s.prev.set i s.pileTop[lo - 1]? else s.prev
      pileTop := setAt s.pileTop lo i
      piles := setAt s.piles lo pair }

def reconstruct (pairs : List (Nat × Nat)) (prev : List (Option Nat)) :
    Nat → Option Nat → List (Nat × Nat) → Option (List (Nat × Nat))
  | _, none, result => some result
  | 0, some _, _ => none
  | fuel + 1, some k, result => do
      let pair ← pairs[k]?
      reconstruct pairs prev fuel (prev[k]?.join) (pair :: result)

def emptyPiles (pairs : List (Nat × Nat)) : Piles := ⟨[], List.replicate pairs.length none, []⟩

def longestIncreasingSubsequence (pairs : List (Nat × Nat)) : Option (List (Nat × Nat)) :=
  if pairs = [] then some []
  else do
    let s ← (List.range pairs.length).foldlM (placePair pairs) (emptyPiles pairs)
    reconstruct pairs s.prev pairs.length s.pileTop[s.piles.length - 1]? []

example : longestIncreasingSubsequence [(0, 0), (1, 2), (2, 1)] = some [(0, 0), (2, 1)] := by decide

example : longestIncreasingSubsequence [(0, 2), (1, 0), (2, 1)] = none := by decide

@[simp] theorem length_setAt {α : Type} (l : List α) (i : Nat) (x : α) :
    (setAt l i x).length = if i = l.length then l.length + 1 else l.length := by
  unfold setAt
  split <;> simp

theorem getElem?_setAt {α : Type} {l : List α} {i : Nat} (h : i ≤ l.length) (x : α) (j : Nat) :
    (setAt l i x)[j]? = if j = i then some x else l[j]? := by
  unfold setAt
  split
  · rename_i hi
    rw [List.getElem?_append, hi]
    rcases Nat.lt_trichotomy j l.length with hj | hj | hj
    · rw [if_pos hj, if_neg (Nat.ne_of_lt hj)]
    · simp [hj]
    · have hx : [x].length ≤ j - l.length := by simp only [List.length_singleton]; omega
      rw [if_neg (by omega), if_neg (by omega), List.getElem?_eq_none hx,
        List.getElem?_eq_none (Nat.le_of_lt hj)]
  · rename_i hi
    have hlt : i < l.length := by omega
    rw [List.getElem?_set]
    by_cases hj : i = j
    · rw [if_pos hj, if_pos hj.symm, if_pos hlt]
    · rw [if_neg hj, if_neg (Ne.symm hj)]

/-- What one comparison of the search read. -/
def Reads (s : Piles) (mid : Nat) (pile : Nat × Nat) : Prop :=
  ∃ top, s.pileTop[mid]? = some top ∧ s.piles[top]? = some pile

theorem pileSearch_spec (s : Piles) (bVal : Nat) (fuel lo hi r : Nat) (hle : lo ≤ hi)
    (h : pileSearch s bVal fuel lo hi = some r) :
    lo ≤ r ∧ r ≤ hi ∧ (lo < r → ∃ pile, Reads s (r - 1) pile ∧ pile.2 < bVal) ∧
      (r < hi → ∃ pile, Reads s r pile ∧ bVal ≤ pile.2) := by
  induction fuel generalizing lo hi with
  | zero =>
      unfold pileSearch at h
      split at h
      · simp at h
      · simp only [Option.some.injEq] at h
        subst h
        exact ⟨Nat.le_refl _, hle, fun hlt => absurd hlt (Nat.lt_irrefl _), fun hlt => by omega⟩
  | succ fuel ih =>
      unfold pileSearch at h
      split at h
      · rename_i hlt
        simp only [Option.bind_eq_bind, Option.bind_eq_some_iff] at h
        obtain ⟨top, htop, pile, hpile, h⟩ := h
        have hread : Reads s ((lo + hi) / 2) pile := ⟨top, htop, hpile⟩
        split at h
        · rename_i hb
          obtain ⟨h₁, h₂, h₃, h₄⟩ := ih _ _ (by omega) h
          refine ⟨by omega, h₂, fun _ => ?_, h₄⟩
          by_cases hr : (lo + hi) / 2 + 1 < r
          · exact h₃ hr
          · have : r - 1 = (lo + hi) / 2 := by omega
            exact ⟨pile, this ▸ hread, hb⟩
        · rename_i hb
          obtain ⟨h₁, h₂, h₃, h₄⟩ := ih _ _ (by omega) h
          refine ⟨h₁, by omega, h₃, fun _ => ?_⟩
          by_cases hr : r < (lo + hi) / 2
          · exact h₄ hr
          · have : r = (lo + hi) / 2 := by omega
            exact ⟨pile, this ▸ hread, Nat.not_lt.1 hb⟩
      · simp only [Option.some.injEq] at h
        subst h
        exact ⟨Nat.le_refl _, hle, fun hlt => absurd hlt (Nat.lt_irrefl _), fun hlt => by omega⟩

def Below (pairs : List (Nat × Nat)) (u t : Nat) : Prop :=
  ∃ p q, pairs[u]? = some p ∧ pairs[t]? = some q ∧ p.2 < q.2

/-- The bookkeeping of the three arrays after the first `i` pairs. -/
structure Filed (pairs : List (Nat × Nat)) (i : Nat) (s : Piles) : Prop where
  tops : s.pileTop.length = s.piles.length
  bound : s.piles.length ≤ i
  pile : ∀ j top : Nat, s.pileTop[j]? = some top → top < i ∧ s.piles[j]? = pairs[top]?
  linked : ∀ t u : Nat, s.prev[t]? = some (some u) → t < i ∧ u < t ∧ Below pairs u t

structure Fresh (pairs : List (Nat × Nat)) (i : Nat) (s : Piles) : Prop where
  count : s.piles.length = i
  top : ∀ j : Nat, j < i → s.pileTop[j]? = some j
  rising : ∀ j k : Nat, j < k → k < i → Below pairs j k

/-- After the first pair `L` that does not rise, the number of piles stays at `L` or
`L + 1`, and every pile touched since is unreadable but for one whose top is `L`. -/
structure Frozen (pairs : List (Nat × Nat)) (L i : Nat) (s : Piles) : Prop where
  started : L < i
  count : s.piles.length = L ∨ s.piles.length = L + 1
  top : ∀ j : Nat, j < L → ∃ t : Nat, s.pileTop[j]? = some t ∧ (t = j ∨ L ≤ t)
  last : s.piles.length = L + 1 → ∃ t : Nat, s.pileTop[L]? = some t ∧ L < t
  falls : 0 < L ∧ ∃ p q, pairs[L - 1]? = some p ∧ pairs[L]? = some q ∧ q.2 ≤ p.2
  capped : s.piles.length = L + 1 → ∃ p q, pairs[L]? = some p ∧ s.piles[L]? = some q ∧ p.2 < q.2

def Phase (pairs : List (Nat × Nat)) (i : Nat) (s : Piles) : Prop :=
  Fresh pairs i s ∨ ∃ L, Frozen pairs L i s

theorem lt_length_of_getElem? {α : Type} {l : List α} {i : Nat} {x : α} (h : l[i]? = some x) :
    i < l.length := (List.getElem?_eq_some_iff.1 h).1

theorem fresh_reads {pairs : List (Nat × Nat)} {i : Nat} {s : Piles} (hf : Filed pairs i s)
    (h : Fresh pairs i s) {j : Nat} {pile : Nat × Nat} (hr : Reads s j pile) :
    s.piles[j]? = some pile ∧ pairs[j]? = some pile := by
  obtain ⟨top, htop, hpile⟩ := hr
  have hj : j < i := by
    have := lt_length_of_getElem? htop
    rw [hf.tops, h.count] at this
    exact this
  have htj : top = j := by
    rw [h.top j hj] at htop
    exact (Option.some.inj htop).symm
  subst htj
  exact ⟨hpile, (hf.pile _ _ htop).2 ▸ hpile⟩

theorem frozen_reads {pairs : List (Nat × Nat)} {L i : Nat} {s : Piles} (hf : Filed pairs i s)
    (h : Frozen pairs L i s) {j : Nat} {pile : Nat × Nat} (hr : Reads s j pile) :
    j < L ∧ (s.piles[j]? = some pile ∧ s.pileTop[j]? = some j ∨
      s.piles.length = L + 1 ∧ s.pileTop[j]? = some L ∧ s.piles[L]? = some pile) := by
  obtain ⟨top, htop, hpile⟩ := hr
  have htl := lt_length_of_getElem? hpile
  have hjl : j < s.piles.length := hf.tops ▸ lt_length_of_getElem? htop
  have hj : j < L := by
    rcases h.count with hc | hc
    · omega
    · obtain ⟨t, ht, hlt⟩ := h.last hc
      by_contra hge
      have hjL : j = L := by omega
      rw [hjL, ht] at htop
      have := Option.some.inj htop
      omega
  obtain ⟨t, ht, hcase⟩ := h.top j hj
  have htt : t = top := Option.some.inj (ht.symm.trans htop)
  subst htt
  refine ⟨hj, ?_⟩
  rcases hcase with rfl | hge
  · exact Or.inl ⟨hpile, ht⟩
  · have hc : s.piles.length = L + 1 := by rcases h.count with hc | hc <;> omega
    have htL : t = L := by omega
    exact Or.inr ⟨hc, htL ▸ ht, htL ▸ hpile⟩

/-- A comparison never underestimates the pile it stands for. -/
theorem reads_ge {pairs : List (Nat × Nat)} {i : Nat} {s : Piles} (hf : Filed pairs i s)
    (h : Phase pairs i s) {j : Nat} {pile : Nat × Nat} (hr : Reads s j pile) :
    ∃ top own, s.pileTop[j]? = some top ∧ pairs[top]? = some own ∧ own.2 ≤ pile.2 := by
  rcases h with h | ⟨L, h⟩
  · obtain ⟨hp, hj⟩ := fresh_reads hf h hr
    obtain ⟨top, htop, _⟩ := hr
    exact ⟨top, pile, htop, (hf.pile _ _ htop).2 ▸ hp, Nat.le_refl _⟩
  · obtain ⟨hj, ⟨hp, htop⟩ | ⟨hlen, htop, hp⟩⟩ := frozen_reads hf h hr
    · exact ⟨j, pile, htop, (hf.pile _ _ htop).2 ▸ hp, Nat.le_refl _⟩
    · obtain ⟨p, q, hpL, hq, hlt⟩ := h.capped hlen
      rw [hp] at hq
      obtain rfl : pile = q := Option.some.inj hq
      exact ⟨L, p, htop, hpL, Nat.le_of_lt hlt⟩

theorem placePair_eq {pairs : List (Nat × Nat)} {s s' : Piles} {i : Nat}
    (h : placePair pairs s i = some s') :
    ∃ pair lo, pairs[i]? = some pair ∧
      pileSearch s pair.2 s.piles.length 0 s.piles.length = some lo ∧ lo ≤ s.piles.length ∧
      s'.prev = (if 0 < lo then s.prev.set i s.pileTop[lo - 1]? else s.prev) ∧
      s'.pileTop = setAt s.pileTop lo i ∧ s'.piles = setAt s.piles lo pair := by
  simp only [placePair, Option.bind_eq_bind, Option.bind_eq_some_iff, Option.some.injEq] at h
  obtain ⟨pair, hpair, lo, hlo, rfl⟩ := h
  exact ⟨pair, lo, hpair, hlo, (pileSearch_spec _ _ _ _ _ _ (Nat.zero_le _) hlo).2.1, rfl, rfl, rfl⟩

theorem filed_placePair {pairs : List (Nat × Nat)} {s s' : Piles} {i : Nat}
    (hf : Filed pairs i s) (hp : Phase pairs i s) (h : placePair pairs s i = some s') :
    Filed pairs (i + 1) s' := by
  obtain ⟨pair, lo, hpair, hlo, hle, hprev, htop, hpiles⟩ := placePair_eq h
  have hle' : lo ≤ s.pileTop.length := hf.tops ▸ hle
  have hb := hf.bound
  refine ⟨?_, ?_, ?_, ?_⟩
  · rw [htop, hpiles, length_setAt, length_setAt, hf.tops]
  · rw [hpiles, length_setAt]
    split <;> omega
  · intro j top hj
    rw [htop, getElem?_setAt hle'] at hj
    rw [hpiles, getElem?_setAt hle]
    split at hj
    · rename_i hjl
      obtain rfl := Option.some.inj hj
      exact ⟨by omega, by rw [if_pos hjl, hpair]⟩
    · rename_i hjl
      obtain ⟨h₁, h₂⟩ := hf.pile j top hj
      exact ⟨by omega, by rw [if_neg hjl, h₂]⟩
  · intro t u ht
    rw [hprev] at ht
    split at ht
    · rename_i hpos
      rw [List.getElem?_set] at ht
      split at ht
      · rename_i hit
        subst hit
        split at ht
        · obtain ⟨pile, hread, hlt⟩ := (pileSearch_spec _ _ _ _ _ _ (Nat.zero_le _) hlo).2.2.1 hpos
          obtain ⟨top, own, htop', hown, hge⟩ := reads_ge hf hp hread
          have hut : top = u := Option.some.inj (htop'.symm.trans (Option.some.inj ht))
          subst hut
          exact ⟨by omega, (hf.pile _ _ htop').1, own, pair, hown, hpair, by omega⟩
        · simp at ht
      · obtain ⟨h₁, h₂⟩ := hf.linked t u ht
        exact ⟨by omega, h₂⟩
    · obtain ⟨h₁, h₂⟩ := hf.linked t u ht
      exact ⟨by omega, h₂⟩

theorem below_trans {pairs : List (Nat × Nat)} {u t v : Nat} (h : Below pairs u t)
    (h' : Below pairs t v) : Below pairs u v := by
  obtain ⟨p, q, hp, hq, hpq⟩ := h
  obtain ⟨q', r, hq', hr, hqr⟩ := h'
  obtain rfl : q = q' := Option.some.inj (hq.symm.trans hq')
  exact ⟨p, r, hp, hr, by omega⟩

theorem phase_of_fresh {pairs : List (Nat × Nat)} {s s' : Piles} {i : Nat}
    (hf : Filed pairs i s) (hp : Fresh pairs i s) (h : placePair pairs s i = some s') :
    Phase pairs (i + 1) s' := by
  obtain ⟨pair, lo, hpair, hlo, hle, -, htop, hpiles⟩ := placePair_eq h
  obtain ⟨-, -, hleft, hright⟩ := pileSearch_spec _ _ _ _ _ _ (Nat.zero_le _) hlo
  have hle' : lo ≤ s.pileTop.length := hf.tops ▸ hle
  have hc := hp.count
  by_cases hpush : lo = i
  · refine Or.inl ⟨?_, ?_, ?_⟩
    · rw [hpiles, length_setAt, if_pos (by omega), hc]
    · intro j hj
      rw [htop, getElem?_setAt hle']
      split
      · rw [‹j = lo›, hpush]
      · exact hp.top j (by omega)
    · intro j k hjk hk
      by_cases hki : k < i
      · exact hp.rising j k hjk hki
      · obtain ⟨pile, hread, hlt⟩ := hleft (by omega)
        have hlast : Below pairs (i - 1) k := by
          have hk' : k = i := by omega
          subst hk'
          exact ⟨pile, pair, hpush ▸ (fresh_reads hf hp hread).2, hpair, hlt⟩
        by_cases hj : j = i - 1
        · exact hj ▸ hlast
        · exact below_trans (hp.rising j (i - 1) (by omega) (by omega)) hlast
  · refine Or.inr ⟨i, by omega, Or.inl ?_, ?_, ?_, ⟨by omega, ?_⟩, ?_⟩
    · rw [hpiles, length_setAt, if_neg (by omega), hc]
    · intro j hj
      rw [htop, getElem?_setAt hle']
      split
      · exact ⟨i, rfl, Or.inr (Nat.le_refl _)⟩
      · exact ⟨j, hp.top j hj, Or.inl rfl⟩
    · rw [hpiles, length_setAt, if_neg (by omega)]
      omega
    · obtain ⟨pile, hread, hge⟩ := hright (by omega)
      have hpile := (fresh_reads hf hp hread).2
      by_cases hl : lo = i - 1
      · exact ⟨pile, pair, hl ▸ hpile, hpair, hge⟩
      · obtain ⟨p, q, hp', hq, hlt⟩ := hp.rising lo (i - 1) (by omega) (by omega)
        obtain rfl : pile = p := Option.some.inj (hpile.symm.trans hp')
        exact ⟨q, pair, hq, hpair, by omega⟩
    · rw [hpiles, length_setAt, if_neg (by omega)]
      omega

theorem frozen_lo_lt {pairs : List (Nat × Nat)} {s : Piles} {L i lo bVal : Nat}
    (hf : Filed pairs i s) (hp : Frozen pairs L i s)
    (hlo : pileSearch s bVal s.piles.length 0 s.piles.length = some lo) :
    lo < L ∨ lo = L ∧ s.piles.length = L ∧ ∃ p, pairs[L - 1]? = some p ∧ p.2 < bVal := by
  obtain ⟨-, hle, hleft, hright⟩ := pileSearch_spec _ _ _ _ _ _ (Nat.zero_le _) hlo
  have hL := hp.falls.1
  rcases Nat.lt_or_ge lo L with hlt | hge
  · exact Or.inl hlt
  · obtain ⟨pile, hread, hlt⟩ := hleft (by omega)
    rcases hp.count with hc | hc
    · have hloL : lo = L := by omega
      obtain ⟨-, ⟨hpile, htop⟩ | ⟨hlen, -⟩⟩ := frozen_reads hf hp hread
      · exact Or.inr ⟨hloL, hc, pile, by rw [← hloL, ← (hf.pile _ _ htop).2, hpile], hlt⟩
      · omega
    · rcases Nat.lt_or_ge lo (L + 1) with hlo' | hlo'
      · obtain ⟨pile', hread', -⟩ := hright (by omega)
        have := (frozen_reads hf hp hread').1
        omega
      · have := (frozen_reads hf hp hread).1
        omega

theorem phase_of_frozen {pairs : List (Nat × Nat)} {s s' : Piles} {L i : Nat}
    (hf : Filed pairs i s) (hp : Frozen pairs L i s) (h : placePair pairs s i = some s') :
    Frozen pairs L (i + 1) s' := by
  obtain ⟨pair, lo, hpair, hlo, hle, -, htop, hpiles⟩ := placePair_eq h
  have hle' : lo ≤ s.pileTop.length := hf.tops ▸ hle
  have hstart := hp.started
  have htops : ∀ j : Nat, j < L → ∃ t : Nat, s'.pileTop[j]? = some t ∧ (t = j ∨ L ≤ t) := by
    intro j hj
    rw [htop, getElem?_setAt hle']
    split
    · exact ⟨i, rfl, Or.inr (by omega)⟩
    · exact hp.top j hj
  rcases frozen_lo_lt hf hp hlo with hlt | ⟨rfl, hlen, p, hpL, hlt⟩
  · have hcount : s'.piles.length = s.piles.length := by
      have := hp.count
      rw [hpiles, length_setAt, if_neg (by omega)]
    refine ⟨by omega, hcount ▸ hp.count, htops, ?_, hp.falls, ?_⟩
    · rw [htop, getElem?_setAt hle', if_neg (by omega), hcount]
      exact hp.last
    · rw [hcount, hpiles, getElem?_setAt hle, if_neg (by omega)]
      exact hp.capped
  · obtain ⟨hpos, p', q, hp', hq, hge⟩ := hp.falls
    obtain rfl : p = p' := Option.some.inj (hpL.symm.trans hp')
    refine ⟨by omega, Or.inr ?_, htops, fun _ => ⟨i, ?_, by omega⟩, hp.falls, fun _ => ⟨q, pair, hq, ?_, by omega⟩⟩
    · rw [hpiles, length_setAt, if_pos (by omega), hlen]
    · rw [htop, getElem?_setAt hle', if_pos rfl]
    · rw [hpiles, getElem?_setAt hle, if_pos rfl]

theorem placePairs_filed {pairs : List (Nat × Nat)} (n : Nat) {s : Piles}
    (h : (List.range n).foldlM (placePair pairs) (emptyPiles pairs) = some s) :
    Filed pairs n s ∧ Phase pairs n s := by
  induction n generalizing s with
  | zero =>
      obtain rfl : emptyPiles pairs = s := Option.some.inj h
      refine ⟨⟨rfl, Nat.le_refl _, ?_, ?_⟩, Or.inl ⟨rfl, ?_, ?_⟩⟩
      · intro j top hj
        simp [emptyPiles] at hj
      · intro t u ht
        simp [emptyPiles, List.getElem?_replicate] at ht
      · intro j hj
        omega
      · intro j k _ hk
        omega
  | succ n ih =>
      rw [List.range_succ, List.foldlM_append] at h
      simp only [Option.bind_eq_bind, Option.bind_eq_some_iff, List.foldlM_cons, List.foldlM_nil,
        Option.pure_def, Option.some.injEq] at h
      obtain ⟨m, hm, m', hstep, rfl⟩ := h
      obtain ⟨hf, hp⟩ := ih hm
      refine ⟨filed_placePair hf hp hstep, ?_⟩
      rcases hp with hp | ⟨L, hp⟩
      · exact phase_of_fresh hf hp hstep
      · exact Or.inr ⟨L, phase_of_frozen hf hp hstep⟩

/-- Strictly later on both sides. -/
def Rises (p q : Nat × Nat) : Prop := p.1 < q.1 ∧ p.2 < q.2

theorem reconstruct_rises {pairs : List (Nat × Nat)} (ha : pairs.Pairwise (fun p q => p.1 < q.1))
    {prev : List (Option Nat)}
    (hprev : ∀ t u : Nat, prev[t]? = some (some u) → u < t ∧ Below pairs u t)
    (fuel : Nat) (k : Option Nat) (acc r : List (Nat × Nat))
    (hk : ∀ t p, k = some t → pairs[t]? = some p → ∀ q ∈ acc, Rises p q)
    (hacc : acc.Pairwise Rises) (hmem : ∀ q ∈ acc, q ∈ pairs)
    (h : reconstruct pairs prev fuel k acc = some r) :
    r.Pairwise Rises ∧ ∀ q ∈ r, q ∈ pairs := by
  induction fuel generalizing k acc with
  | zero =>
      cases k with
      | none =>
          obtain rfl : acc = r := by simpa [reconstruct] using h
          exact ⟨hacc, hmem⟩
      | some t => simp [reconstruct] at h
  | succ fuel ih =>
      cases k with
      | none =>
          obtain rfl : acc = r := by simpa [reconstruct] using h
          exact ⟨hacc, hmem⟩
      | some t =>
          simp only [reconstruct, Option.bind_eq_bind, Option.bind_eq_some_iff] at h
          obtain ⟨p, hp, h⟩ := h
          have hpacc := hk t p rfl hp
          refine ih prev[t]?.join (p :: acc) ?_ (List.pairwise_cons.2 ⟨hpacc, hacc⟩) ?_ h
          · intro u q hu hq
            rw [Option.join_eq_some_iff] at hu
            obtain ⟨hut, q', p', hq', hp', hlt⟩ := hprev t u hu
            obtain rfl : q = q' := Option.some.inj (hq.symm.trans hq')
            obtain rfl : p = p' := Option.some.inj (hp.symm.trans hp')
            have hqp : Rises q p := by
              refine ⟨?_, hlt⟩
              obtain ⟨hi, hqi⟩ := List.getElem?_eq_some_iff.1 hq
              obtain ⟨hj, hpj⟩ := List.getElem?_eq_some_iff.1 hp
              have := List.pairwise_iff_getElem.1 ha u t hi hj hut
              rwa [hqi, hpj] at this
            intro x hx
            rcases List.mem_cons.1 hx with rfl | hx
            · exact hqp
            · have := hpacc x hx
              exact ⟨Nat.lt_trans hqp.1 this.1, Nat.lt_trans hqp.2 this.2⟩
          · intro x hx
            rcases List.mem_cons.1 hx with rfl | hx
            · exact List.mem_of_getElem? hp
            · exact hmem x hx

/-- When no read is out of range the result rises on both sides and takes its pairs from the input. -/
theorem longestIncreasingSubsequence_rises {pairs r : List (Nat × Nat)}
    (ha : pairs.Pairwise (fun p q => p.1 < q.1))
    (h : longestIncreasingSubsequence pairs = some r) :
    r.Pairwise Rises ∧ ∀ q ∈ r, q ∈ pairs := by
  unfold longestIncreasingSubsequence at h
  split at h
  · obtain rfl := Option.some.inj h
    simp
  · simp only [Option.bind_eq_bind, Option.bind_eq_some_iff] at h
    obtain ⟨s, hs, hr⟩ := h
    have hf := (placePairs_filed _ hs).1
    exact reconstruct_rises ha (fun t u ht => (hf.linked t u ht).2) _ _ _ _ (by simp)
      List.Pairwise.nil (by simp) hr

end OpsBlobs.LongestIncreasing
