import Mathlib.Algebra.GroupWithZero.Nat
import Mathlib.Data.List.Induction
import Mathlib.Data.List.Nodup

namespace OpsBlobs.JsMap

variable {K V : Type} [DecidableEq K]

def lookup (k : K) : List (K × V) → Option V
  | [] => none
  | (k', v) :: rest => if k' = k then some v else lookup k rest

/-- Overwriting keeps a key's place in the iteration order; a new key goes to the end. -/
def put (k : K) (v : V) : List (K × V) → List (K × V)
  | [] => [(k, v)]
  | (k', v') :: rest => if k' = k then (k', v) :: rest else (k', v') :: put k v rest

def drop (k : K) (m : List (K × V)) : List (K × V) := m.filter (fun e => e.1 ≠ k)

theorem lookup_put (m : List (K × V)) (k k' : K) (v : V) :
    lookup k' (put k v m) = if k = k' then some v else lookup k' m := by
  induction m with
  | nil => by_cases h : k = k' <;> simp [put, lookup, h]
  | cons e rest ih =>
      obtain ⟨a, b⟩ := e
      by_cases ha : a = k
      · subst ha
        by_cases hk : a = k' <;> simp [put, lookup, hk]
      · by_cases hk : a = k'
        · subst hk
          simp [put, lookup, ha, Ne.symm ha]
        · simp [put, lookup, ha, hk, ih]

theorem lookup_drop (m : List (K × V)) (k k' : K) :
    lookup k' (drop k m) = if k = k' then none else lookup k' m := by
  induction m with
  | nil => simp [drop, lookup]
  | cons e rest ih =>
      obtain ⟨a, b⟩ := e
      simp only [drop, ne_eq, decide_not] at ih ⊢
      by_cases ha : a = k
      · subst ha
        by_cases hk : a = k'
        · simpa [List.filter_cons, hk] using ih
        · simpa [List.filter_cons, lookup, hk] using ih
      · by_cases hk : a = k'
        · subst hk
          simp [lookup, ha, Ne.symm ha]
        · simpa [List.filter_cons, lookup, ha, hk] using ih

theorem mem_of_lookup {m : List (K × V)} {k : K} {v : V} (h : lookup k m = some v) :
    (k, v) ∈ m := by
  induction m with
  | nil => simp [lookup] at h
  | cons e rest ih =>
      obtain ⟨a, b⟩ := e
      by_cases ha : a = k
      · simp only [lookup, ha, if_true, Option.some.injEq] at h
        simp [ha, h]
      · simp only [lookup, ha, if_false] at h
        exact List.mem_cons_of_mem _ (ih h)

theorem lookup_of_mem {m : List (K × V)} (hm : (m.map Prod.fst).Nodup) {k : K} {v : V}
    (h : (k, v) ∈ m) : lookup k m = some v := by
  induction m with
  | nil => simp at h
  | cons e rest ih =>
      obtain ⟨a, b⟩ := e
      simp only [List.map_cons, List.nodup_cons] at hm
      rcases List.mem_cons.1 h with he | hr
      · simp [lookup, (Prod.mk.inj he).1, (Prod.mk.inj he).2]
      · have hak : a ≠ k := by
          rintro rfl
          exact hm.1 (List.mem_map_of_mem hr)
        simp [lookup, hak, ih hm.2 hr]

theorem keys_put (m : List (K × V)) (k : K) (v : V) :
    (put k v m).map Prod.fst =
      if k ∈ m.map Prod.fst then m.map Prod.fst else m.map Prod.fst ++ [k] := by
  induction m with
  | nil => simp [put]
  | cons e rest ih =>
      obtain ⟨a, b⟩ := e
      by_cases ha : a = k
      · simp [put, ha]
      · simp only [put, ha, if_false, List.map_cons, ih, List.mem_cons, Ne.symm ha, false_or]
        split <;> simp

theorem nodup_put {m : List (K × V)} (hm : (m.map Prod.fst).Nodup) (k : K) (v : V) :
    ((put k v m).map Prod.fst).Nodup := by
  rw [keys_put]
  split
  · exact hm
  · rename_i h
    exact List.nodup_append.2 ⟨hm, List.nodup_singleton k, by
      intro a ha b hb
      simp only [List.mem_singleton] at hb
      subst hb
      rintro rfl
      exact h ha⟩

end OpsBlobs.JsMap

/-- An insertion-ordered map: iteration is in the order in which the keys were first set. -/
structure OpsBlobs.JsMap (K V : Type) [DecidableEq K] where
  entries : List (K × V)
  nodup : (entries.map Prod.fst).Nodup

namespace OpsBlobs.JsMap

variable {K V : Type} [DecidableEq K]

def empty : JsMap K V := ⟨[], List.nodup_nil⟩

def get (m : JsMap K V) (k : K) : Option V := lookup k m.entries

def has (m : JsMap K V) (k : K) : Bool := (m.get k).isSome

def set (m : JsMap K V) (k : K) (v : V) : JsMap K V := ⟨put k v m.entries, nodup_put m.nodup k v⟩

def delete (m : JsMap K V) (k : K) : JsMap K V :=
  ⟨drop k m.entries, m.nodup.sublist (List.filter_sublist.map _)⟩

def keys (m : JsMap K V) : List K := m.entries.map Prod.fst

def values (m : JsMap K V) : List V := m.entries.map Prod.snd

def ofList (l : List (K × V)) : JsMap K V := l.foldl (fun m e => m.set e.1 e.2) empty

@[ext] theorem ext {m m' : JsMap K V} (h : m.entries = m'.entries) : m = m' := by
  cases m; cases m'; cases h; rfl

@[simp] theorem entries_empty : (empty : JsMap K V).entries = [] := rfl

@[simp] theorem get_empty (k : K) : (empty : JsMap K V).get k = none := rfl

theorem get_set (m : JsMap K V) (k k' : K) (v : V) :
    (m.set k v).get k' = if k = k' then some v else m.get k' := lookup_put m.entries k k' v

@[simp] theorem get_set_self (m : JsMap K V) (k : K) (v : V) : (m.set k v).get k = some v := by
  simp [get_set]

theorem get_set_ne (m : JsMap K V) {k k' : K} (v : V) (h : k ≠ k') :
    (m.set k v).get k' = m.get k' := by
  simp [get_set, h]

theorem get_delete (m : JsMap K V) (k k' : K) :
    (m.delete k).get k' = if k = k' then none else m.get k' := lookup_drop m.entries k k'

@[simp] theorem get_delete_self (m : JsMap K V) (k : K) : (m.delete k).get k = none := by
  simp [get_delete]

theorem get_delete_ne (m : JsMap K V) {k k' : K} (h : k ≠ k') :
    (m.delete k).get k' = m.get k' := by
  simp [get_delete, h]

theorem mem_entries_iff (m : JsMap K V) {k : K} {v : V} :
    (k, v) ∈ m.entries ↔ m.get k = some v :=
  ⟨fun h => lookup_of_mem m.nodup h, fun h => mem_of_lookup h⟩

theorem mem_keys_iff (m : JsMap K V) {k : K} : k ∈ m.keys ↔ ∃ v, m.get k = some v := by
  simp only [keys, List.mem_map, Prod.exists, mem_entries_iff]
  exact ⟨fun ⟨a, v, h, e⟩ => ⟨v, e ▸ h⟩, fun ⟨v, h⟩ => ⟨k, v, h, rfl⟩⟩

theorem mem_values_iff (m : JsMap K V) {v : V} : v ∈ m.values ↔ ∃ k, m.get k = some v := by
  simp only [values, List.mem_map, Prod.exists, mem_entries_iff]
  exact ⟨fun ⟨k, a, h, e⟩ => ⟨k, e ▸ h⟩, fun ⟨k, h⟩ => ⟨k, v, h, rfl⟩⟩

theorem has_iff (m : JsMap K V) (k : K) : m.has k = true ↔ ∃ v, m.get k = some v :=
  Option.isSome_iff_exists

theorem nodup_keys (m : JsMap K V) : m.keys.Nodup := m.nodup

theorem get_foldl_set (l : List (K × V)) (m : JsMap K V) (k : K) :
    (l.foldl (fun m e => m.set e.1 e.2) m).get k = ((ofList l).get k).or (m.get k) := by
  induction l using List.reverseRecOn with
  | nil => rfl
  | append_singleton l e ih =>
      rw [ofList, List.foldl_concat, List.foldl_concat, get_set, get_set, ← ofList]
      split
      · rfl
      · exact ih

theorem ofList_concat (l : List (K × V)) (e : K × V) :
    ofList (l ++ [e]) = (ofList l).set e.1 e.2 := List.foldl_concat ..

theorem mem_of_get_ofList {l : List (K × V)} {k : K} {v : V} (h : (ofList l).get k = some v) :
    (k, v) ∈ l := by
  induction l using List.reverseRecOn with
  | nil => cases h
  | append_singleton l e ih =>
      rw [ofList_concat, get_set] at h
      split at h
      · rename_i he
        exact List.mem_append_right _ (List.mem_singleton.2 (Prod.ext he.symm (Option.some.inj h).symm))
      · exact List.mem_append_left _ (ih h)

theorem get_ofList_eq_none_iff {l : List (K × V)} {k : K} :
    (ofList l).get k = none ↔ k ∉ l.map Prod.fst := by
  induction l using List.reverseRecOn with
  | nil => simp [ofList]
  | append_singleton l e ih =>
      rw [ofList_concat, get_set, List.map_append, List.mem_append, not_or, ← ih]
      by_cases he : e.1 = k
      · simp [he]
      · simp [he, Ne.symm he]

theorem get_ofList_entries (m : JsMap K V) (k : K) : (ofList m.entries).get k = m.get k := by
  cases h : (ofList m.entries).get k with
  | some v => exact ((mem_entries_iff m).1 (mem_of_get_ofList h)).symm
  | none =>
      cases hm : m.get k with
      | none => rfl
      | some v =>
          exact absurd (List.mem_map_of_mem ((mem_entries_iff m).2 hm)) (get_ofList_eq_none_iff.1 h)

theorem put_of_lookup {m : List (K × V)} {k : K} {v : V} (h : lookup k m = some v) :
    put k v m = m := by
  induction m with
  | nil => cases h
  | cons e rest ih =>
      obtain ⟨a, b⟩ := e
      rw [lookup] at h
      rw [put]
      split
      · rename_i ha
        rw [if_pos ha] at h
        rw [Option.some.inj h]
      · rename_i ha
        rw [if_neg ha] at h
        rw [ih h]

/-- Setting a key to what it has changes nothing. -/
theorem set_of_get {m : JsMap K V} {k : K} {v : V} (h : m.get k = some v) : m.set k v = m :=
  ext (put_of_lookup h)

theorem put_of_notMem {m : List (K × V)} {k : K} (v : V) (h : k ∉ m.map Prod.fst) :
    put k v m = m ++ [(k, v)] := by
  induction m with
  | nil => rfl
  | cons e rest ih =>
      rw [List.map_cons, List.mem_cons, not_or] at h
      rw [put, if_neg (Ne.symm h.1), ih h.2, List.cons_append]

theorem entries_foldl_set {l : List (K × V)} {m : JsMap K V}
    (h : ((m.entries ++ l).map Prod.fst).Nodup) :
    (l.foldl (fun m e => m.set e.1 e.2) m).entries = m.entries ++ l := by
  induction l generalizing m with
  | nil => exact (List.append_nil _).symm
  | cons e rest ih =>
      have hfresh : e.1 ∉ m.entries.map Prod.fst := by
        rw [List.map_append, List.nodup_append] at h
        exact fun hmem => h.2.2 e.1 hmem e.1 List.mem_cons_self rfl
      have hset : (m.set e.1 e.2).entries = m.entries ++ [e] := put_of_notMem e.2 hfresh
      rw [List.foldl_cons, ih, hset, List.append_assoc, List.singleton_append]
      rwa [hset, List.append_assoc, List.singleton_append]

/-- A map set up again from its entries is the map. -/
theorem ofList_entries (m : JsMap K V) : ofList m.entries = m :=
  ext ((entries_foldl_set (m := empty) m.nodup).trans (List.nil_append _))

/-- The entries whose key passes, in their order. -/
def restrict (m : JsMap K V) (p : K → Bool) : JsMap K V :=
  ⟨m.entries.filter (fun e => p e.1), m.nodup.sublist (List.filter_sublist.map _)⟩

theorem get_restrict (m : JsMap K V) (p : K → Bool) (k : K) :
    (m.restrict p).get k = if p k then m.get k else none := by
  cases h : (m.restrict p).get k with
  | some v =>
      obtain ⟨hmem, hp⟩ := List.mem_filter.1 ((mem_entries_iff (m.restrict p)).2 h)
      rw [if_pos hp, (mem_entries_iff m).1 hmem]
  | none =>
      split
      · rename_i hp
        cases hm : m.get k with
        | none => rfl
        | some v =>
            have hmem : (k, v) ∈ (m.restrict p).entries :=
              List.mem_filter.2 ⟨(mem_entries_iff m).2 hm, hp⟩
            cases h.symm.trans ((mem_entries_iff (m.restrict p)).1 hmem)
      · rfl

theorem restrict_idem (m : JsMap K V) (p : K → Bool) : (m.restrict p).restrict p = m.restrict p := by
  ext1
  exact List.filter_eq_self.2 fun e he => (List.mem_filter.1 he).2

theorem filter_put (m : List (K × V)) (p : K → Bool) (k : K) (v : V) :
    (put k v m).filter (fun e => p e.1) =
      if p k then put k v (m.filter (fun e => p e.1)) else m.filter (fun e => p e.1) := by
  induction m with
  | nil => by_cases hk : p k <;> simp [put, hk]
  | cons e rest ih =>
      obtain ⟨a, b⟩ := e
      by_cases ha : a = k
      · subst ha
        by_cases hk : p a <;> simp [put, hk]
      · by_cases hp : p a
        · by_cases hk : p k <;> simp_all [put]
        · by_cases hk : p k <;> simp_all [put]

theorem restrict_set (m : JsMap K V) (p : K → Bool) (k : K) (v : V) :
    (m.set k v).restrict p = if p k then (m.restrict p).set k v else m.restrict p := by
  ext1
  rw [apply_ite JsMap.entries]
  exact filter_put m.entries p k v

end OpsBlobs.JsMap
