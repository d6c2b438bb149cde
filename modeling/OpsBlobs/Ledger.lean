import Mathlib.Data.List.Basic
import Mathlib.Data.List.Forall2
import Mathlib.Data.List.Nodup

namespace OpsBlobs.Ledger

variable {κ α : Type} [DecidableEq κ] (key : α → κ)

/-- An append-only list takes each key once: what is already there is not entered again. -/
def enter (l : List α) (a : α) : List α := if key a ∈ l.map key then l else l ++ [a]

def enterAll (l : List α) (as : List α) : List α := as.foldl (enter key) l

/-- Where the entry of a key stands. -/
def place (l : List α) (k : κ) : Option Nat := l.findIdx? (fun a => key a = k)

variable {key} {l l' as : List α} {a : α} {k : κ} {n : Nat}

section Enter

theorem enter_of_mem (h : key a ∈ l.map key) : enter key l a = l := if_pos h

theorem enter_of_notMem (h : key a ∉ l.map key) : enter key l a = l ++ [a] := if_neg h

theorem prefix_enter : l <+: enter key l a := by
  rw [enter]
  split
  · exact List.prefix_rfl
  · exact List.prefix_append l [a]

theorem mem_keys_enter : k ∈ (enter key l a).map key ↔ k ∈ l.map key ∨ key a = k := by
  by_cases h : key a ∈ l.map key
  · rw [enter_of_mem h]
    constructor
    · exact Or.inl
    · rintro (hk | rfl)
      · exact hk
      · exact h
  · rw [enter_of_notMem h, List.map_append, List.mem_append, List.map_singleton,
      List.mem_singleton]
    exact or_congr_right eq_comm

theorem nodup_enter (h : (l.map key).Nodup) : ((enter key l a).map key).Nodup := by
  rw [enter]
  split
  · exact h
  · rename_i hnot
    rw [List.map_append]
    exact h.append (List.nodup_singleton _) (List.disjoint_singleton.2 hnot)

theorem mem_enter {b : α} (h : b ∈ enter key l a) : b ∈ l ∨ b = a := by
  rw [enter] at h
  split at h
  · exact Or.inl h
  · exact (List.mem_append.1 h).imp_right List.mem_singleton.1

end Enter

section EnterAll

theorem prefix_enterAll : l <+: enterAll key l as := by
  induction as generalizing l with
  | nil => exact List.prefix_rfl
  | cons a as ih => exact prefix_enter.trans ih

theorem mem_keys_enterAll : k ∈ (enterAll key l as).map key ↔ k ∈ l.map key ∨ k ∈ as.map key := by
  induction as generalizing l with
  | nil => simp [enterAll]
  | cons a as ih =>
      rw [enterAll, List.foldl_cons, ← enterAll, ih, mem_keys_enter, List.map_cons, List.mem_cons,
        or_assoc]
      exact or_congr_right (or_congr_left eq_comm)

theorem mem_enterAll {b : α} (h : b ∈ enterAll key l as) : b ∈ l ∨ b ∈ as := by
  induction as generalizing l with
  | nil => exact Or.inl h
  | cons a as ih =>
      rcases ih h with h | h
      · refine (mem_enter h).imp_right ?_
        rintro rfl
        exact List.mem_cons_self
      · exact Or.inr (List.mem_cons_of_mem _ h)

end EnterAll

section Place

theorem place_eq_none_iff : place key l k = none ↔ k ∉ l.map key := by
  rw [place, List.findIdx?_eq_none_iff]
  simp

theorem key_of_place (h : place key l k = some n) : ∃ a, l[n]? = some a ∧ key a = k := by
  obtain ⟨hlt, hk, -⟩ := List.findIdx?_eq_some_iff_getElem.1 h
  exact ⟨l[n], List.getElem?_eq_getElem hlt, of_decide_eq_true hk⟩

theorem place_of_getElem? (hl : (l.map key).Nodup) (h : l[n]? = some a) :
    place key l (key a) = some n := by
  obtain ⟨hlt, rfl⟩ := List.getElem?_eq_some_iff.1 h
  refine List.findIdx?_eq_some_iff_getElem.2 ⟨hlt, decide_eq_true rfl, fun m hm heq => ?_⟩
  have hm' : m < (l.map key).length := by simpa using Nat.lt_trans hm hlt
  have hn' : n < (l.map key).length := by simpa using hlt
  have hkeys : (l.map key)[m] = (l.map key)[n] := by simpa using heq
  exact Nat.ne_of_lt hm (hl.getElem_inj_iff.1 hkeys)

/-- A key keeps its place for good. -/
theorem place_mono (hp : l <+: l') (h : place key l k = some n) : place key l' k = some n :=
  hp.findIdx?_eq_some h

theorem place_concat (h : key a ∉ l.map key) (k : κ) :
    place key (l ++ [a]) k = if key a = k then some l.length else place key l k := by
  rw [place, List.findIdx?_append, List.findIdx?_singleton, ← place]
  by_cases heq : key a = k
  · rw [place_eq_none_iff.2 (heq ▸ h)]
    simp [heq]
  · simp [heq]

end Place

section Page

/-- A reader that has read `m` entries gets the next `n`, and has read as many as there are. -/
def page (l : List α) (m n : Nat) : List α := (l.drop m).take n

theorem take_append_page (l : List α) (m n : Nat) : l.take m ++ page l m n = l.take (m + n) := by
  rw [page, List.take_add]

theorem page_append (l : List α) (m n k : Nat) : page l m n ++ page l (m + n) k = page l m (n + k) := by
  rw [page, page, page, List.take_add, List.drop_drop]

theorem length_page (l : List α) (m n : Nat) : (page l m n).length = min n (l.length - m) := by
  rw [page, List.length_take, List.length_drop]

theorem page_length_page (l : List α) (m n : Nat) : page l m (page l m n).length = page l m n := by
  rw [length_page, page, page, ← List.length_drop]
  exact List.take_eq_take_min.symm

theorem getElem?_page (l : List α) (m : Nat) {n i : Nat} (h : i < n) :
    (page l m n)[i]? = l[m + i]? := by
  rw [page, List.getElem?_take_of_lt h, List.getElem?_drop]

/-- A page that is there stays. -/
theorem page_eq_of_full (hp : l <+: l') {m : Nat} (h : (page l m n).length = n) :
    page l' m n = page l m n := by
  obtain ⟨more, rfl⟩ := hp
  rw [length_page] at h
  rw [page, page, List.drop_append, List.take_append_of_le_length]
  rw [List.length_drop]
  omega

/-- The whole list in parts of at most `n`. -/
def batches (n : Nat) (l : List α) : List (List α) :=
  (List.range ((l.length + n - 1) / n)).map fun i => page l (i * n) n

theorem flatten_pages (l : List α) (n k : Nat) :
    ((List.range k).map fun i => page l (i * n) n).flatten = l.take (k * n) := by
  induction k with
  | zero => simp
  | succ k ih =>
      rw [List.range_succ, List.map_append, List.flatten_append, ih, List.map_singleton,
        List.flatten_singleton, take_append_page, Nat.succ_mul]

theorem flatten_batches {n : Nat} (hn : 0 < n) (l : List α) : (batches n l).flatten = l := by
  rw [batches, flatten_pages, List.take_of_length_le]
  have hdiv := Nat.div_add_mod (l.length + n - 1) n
  have hmod := Nat.mod_lt (l.length + n - 1) hn
  rw [Nat.mul_comm] at hdiv
  omega

theorem mem_batches_iff {n : Nat} (hn : 0 < n) {l : List α} {a : α} :
    (∃ batch ∈ batches n l, a ∈ batch) ↔ a ∈ l := by
  rw [← List.mem_flatten, flatten_batches hn]

end Page

section Related

variable {β : Type} {P : α → β → Prop} {bs : List β} {b : β}

/-- Of two lists that are related entry by entry, each entry has its counterpart. -/
theorem exists_left (h : List.Forall₂ P as bs) (hb : b ∈ bs) : ∃ a ∈ as, P a b := by
  induction h with
  | nil => cases hb
  | cons hab hrest ih =>
      rcases List.mem_cons.1 hb with rfl | hb
      · exact ⟨_, List.mem_cons_self, hab⟩
      · obtain ⟨a, ha, hP⟩ := ih hb
        exact ⟨a, List.mem_cons_of_mem _ ha, hP⟩

theorem exists_right (h : List.Forall₂ P as bs) (ha : a ∈ as) : ∃ b ∈ bs, P a b :=
  exists_left h.flip ha

theorem map_of_related {γ : Type} {f : α → γ} {g : β → γ} (h : List.Forall₂ P as bs)
    (hfg : ∀ a b, P a b → g b = f a) : bs.map g = as.map f := by
  induction h with
  | nil => rfl
  | cons hab _ ih => rw [List.map_cons, List.map_cons, hfg _ _ hab, ih]

end Related

end OpsBlobs.Ledger
