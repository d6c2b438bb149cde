import Mathlib.Data.List.Sort
import OpsBlobs.FrugalDiff
import OpsBlobs.Patch

namespace OpsBlobs.DisjointEdits

open DiffLines EditScript Slice Diff3 Patch FrugalDiff

variable {α : Type}

section Edited

variable {O : List α} {H A B : List (Hunk α)} {i j : Nat}

def insertedAt (H : List (Hunk α)) (g : Nat) : List α :=
  (H.filter fun h => h.ancStart = g).flatMap Hunk.lines

def kept (H : List (Hunk α)) (k : Nat) : Bool :=
  H.all fun h => !(decide (h.ancStart ≤ k) && decide (k < h.ancEnd))

/-- What the edits leave of line `g`, behind what they insert in front of it. -/
def piece (O : List α) (H : List (Hunk α)) (g : Nat) : List α :=
  insertedAt H g ++ if kept H g then O[g]?.toList else []

def editedFrom (O : List α) (H : List (Hunk α)) (i : Nat) : List α :=
  (List.range' i (O.length + 1 - i)).flatMap (piece O H)

/-- The text with all the edits applied. -/
def edited (O : List α) (H : List (Hunk α)) : List α := editedFrom O H 0

theorem insertedAt_append (g : Nat) : insertedAt (A ++ B) g = insertedAt A g ++ insertedAt B g := by
  simp [insertedAt]

theorem kept_append (k : Nat) : kept (A ++ B) k = (kept A k && kept B k) := List.all_append

theorem mem_insertedAt {g : Nat} {x : α} :
    x ∈ insertedAt H g ↔ ∃ h ∈ H, h.ancStart = g ∧ x ∈ h.lines := by
  simp [insertedAt, and_assoc]

theorem kept_eq_false {k : Nat} :
    kept H k = false ↔ ∃ h ∈ H, h.ancStart ≤ k ∧ k < h.ancEnd := by
  simp [kept]

theorem editedFrom_split (hij : i ≤ j) (hj : j ≤ O.length + 1) :
    editedFrom O H i = (List.range' i (j - i)).flatMap (piece O H) ++ editedFrom O H j := by
  have hrange : List.range' i (O.length + 1 - i) =
      List.range' i (j - i) ++ List.range' j (O.length + 1 - j) := by
    have hj' : j = i + 1 * (j - i) := by omega
    have hlen : O.length + 1 - i = (j - i) + (O.length + 1 - j) := by omega
    rw [hlen]
    nth_rewrite 4 [hj']
    exact (List.range'_append).symm
  rw [editedFrom, hrange, List.flatMap_append, editedFrom]

theorem editedFrom_succ (hi : i ≤ O.length) :
    editedFrom O H i = piece O H i ++ editedFrom O H (i + 1) := by
  have hsplit := editedFrom_split (O := O) (H := H) (Nat.le_succ i) (Nat.succ_le_succ hi)
  have hone : i.succ - i = 1 := by omega
  rwa [hone, List.range'_one, List.flatMap_singleton] at hsplit

theorem editedFrom_of_lt (hi : O.length < i) : editedFrom O H i = [] := by
  have : O.length + 1 - i = 0 := by omega
  rw [editedFrom, this]
  rfl

theorem flatMap_getElem? (hj : j ≤ O.length) :
    (List.range' i (j - i)).flatMap (fun g => O[g]?.toList) = slice O i j := by
  induction hn : j - i generalizing i with
  | zero => rw [slice_of_le O (by omega)]; rfl
  | succ n ih =>
      have hx : O[i]? = some O[i] := List.getElem?_eq_getElem (by omega)
      rw [List.range'_succ, List.flatMap_cons, ih (by omega), slice_cons hx (by omega), hx]
      rfl

/-- The edits do nothing to the gaps and lines from `i` up to `j`. -/
def Quiet (O : List α) (H : List (Hunk α)) (i j : Nat) : Prop :=
  ∀ g, i ≤ g → g < j → insertedAt H g = [] ∧ (g < O.length → kept H g = true)

theorem editedFrom_quiet (hij : i ≤ j) (hj : j ≤ O.length) (h : Quiet O H i j) :
    editedFrom O H i = slice O i j ++ editedFrom O H j := by
  rw [editedFrom_split hij (by omega), ← flatMap_getElem? hj]
  refine congrArg (· ++ _) (List.flatMap_congr fun g hg => ?_)
  obtain ⟨h₁, h₂⟩ := List.mem_range'_1.1 hg
  obtain ⟨hins, hkept⟩ := h g h₁ (by omega)
  rw [piece, hins, hkept (by omega), List.nil_append, if_pos rfl]

theorem editedFrom_deleted (hij : i ≤ j) (hj : j ≤ O.length)
    (h : ∀ k, i ≤ k → k < j → kept H k = false) :
    editedFrom O H i = (List.range' i (j - i)).flatMap (insertedAt H) ++ editedFrom O H j := by
  rw [editedFrom_split hij (by omega)]
  refine congrArg (· ++ _) (List.flatMap_congr fun g hg => ?_)
  obtain ⟨h₁, h₂⟩ := List.mem_range'_1.1 hg
  simp [piece, h g h₁ (by omega)]

theorem edited_quiet (h : Quiet O H 0 (O.length + 1)) : edited O H = O := by
  have hquiet : Quiet O H 0 O.length := fun g h₁ h₂ => h g h₁ (by omega)
  have hend : editedFrom O H O.length = [] := by
    rw [editedFrom_succ (Nat.le_refl _), editedFrom_of_lt (Nat.lt_succ_self _)]
    simp [piece, (h O.length (Nat.zero_le _) (Nat.lt_succ_self _)).1]
  rw [edited, editedFrom_quiet (Nat.zero_le _) (Nat.le_refl _) hquiet, hend, slice_length]
  simp

/-- The two families do the same to the gaps and lines from `i` up to `j`. -/
def Alike (O : List α) (A B : List (Hunk α)) (i j : Nat) : Prop :=
  ∀ g, i ≤ g → g < j → insertedAt A g = insertedAt B g ∧ (g < O.length → kept A g = kept B g)

theorem alike_append_quiet (h : Quiet O B i j) : Alike O (A ++ B) A i j := by
  intro g h₁ h₂
  obtain ⟨hins, hkept⟩ := h g h₁ h₂
  refine ⟨by rw [insertedAt_append, hins, List.append_nil], fun hg => ?_⟩
  rw [kept_append, hkept hg, Bool.and_true]

theorem alike_quiet_append (h : Quiet O A i j) : Alike O (A ++ B) B i j := by
  intro g h₁ h₂
  obtain ⟨hins, hkept⟩ := h g h₁ h₂
  refine ⟨by rw [insertedAt_append, hins, List.nil_append], fun hg => ?_⟩
  rw [kept_append, hkept hg, Bool.true_and]

theorem editedFrom_alike (h : Alike O A B i (O.length + 1)) :
    editedFrom O A i = editedFrom O B i := by
  refine List.flatMap_congr fun g hg => ?_
  obtain ⟨h₁, h₂⟩ := List.mem_range'_1.1 hg
  obtain ⟨hins, hkept⟩ := h g h₁ (by omega)
  rw [piece, piece, hins]
  by_cases hg' : g < O.length
  · rw [hkept hg']
  · rw [List.getElem?_eq_none (Nat.not_lt.1 hg')]
    simp

theorem mem_editedFrom {x : α} : x ∈ editedFrom O H i ↔
    ∃ g, i ≤ g ∧ g ≤ O.length ∧ (x ∈ insertedAt H g ∨ kept H g = true ∧ O[g]? = some x) := by
  simp only [editedFrom, List.mem_flatMap, List.mem_range'_1, piece, List.mem_append]
  constructor
  · rintro ⟨g, ⟨h₁, h₂⟩, hx⟩
    refine ⟨g, h₁, by omega, hx.imp_right fun hx => ?_⟩
    split at hx
    · exact ⟨‹_›, by simpa using hx⟩
    · exact absurd hx List.not_mem_nil
  · rintro ⟨g, h₁, h₂, hx⟩
    refine ⟨g, ⟨h₁, by omega⟩, hx.imp_right fun ⟨hk, hx⟩ => ?_⟩
    rw [if_pos hk, hx]
    exact List.mem_singleton_self x

end Edited

section Represents

variable {O : List α} {H A B : List (Hunk α)} {i j : Nat} {hs la ra : List (Hunk α)}

/-- The hunks are the maximal blocks of changed lines that the edits make from `i` on. -/
def Represents (O : List α) (H : List (Hunk α)) : Nat → List (Hunk α) → Prop
  | i, [] => Quiet O H i (O.length + 1)
  | i, h :: hs =>
      i ≤ h.ancStart ∧ Quiet O H i h.ancStart ∧ h.ancStart ≤ h.ancEnd ∧ h.ancEnd ≤ O.length ∧
        (∀ k, h.ancStart ≤ k → k < h.ancEnd → kept H k = false) ∧
        h.lines = (List.range' h.ancStart (h.ancEnd + 1 - h.ancStart)).flatMap (insertedAt H) ∧
        (h.ancEnd < O.length → kept H h.ancEnd = true) ∧ Represents O H (h.ancEnd + 1) hs

theorem represents_forth (h : Represents O H i hs) (hij : i ≤ j) (hstart : StartsFrom j hs) :
    Represents O H j hs := by
  cases hs with
  | nil => exact fun g h₁ h₂ => h g (by omega) h₂
  | cons hunk rest =>
      obtain ⟨-, hquiet, hrest⟩ := h
      exact ⟨hstart hunk rfl, fun g h₁ h₂ => hquiet g (by omega) h₂, hrest⟩

/-- Patching with the blocks gives the edited text. -/
theorem patch_represents (h : Represents O H i hs) (hi : i ≤ O.length) :
    Ordered O i hs ∧ patch O i hs = editedFrom O H i := by
  induction hs generalizing i with
  | nil =>
      refine ⟨hi, ?_⟩
      have hquiet : Quiet O H i O.length := fun g h₁ h₂ => h g h₁ (by omega)
      have hend : editedFrom O H O.length = [] := by
        rw [editedFrom_succ (Nat.le_refl _), editedFrom_of_lt (Nat.lt_succ_self _)]
        simp [piece, (h O.length hi (Nat.lt_succ_self _)).1]
      rw [patch, editedFrom_quiet hi (Nat.le_refl _) hquiet, hend, List.append_nil]
  | cons hunk rest ih =>
      obtain ⟨h₁, hquiet, h₂, h₃, hdel, hlines, hkept, hrest⟩ := h
      have htail : Ordered O hunk.ancEnd rest ∧ insertedAt H hunk.ancEnd ++ patch O hunk.ancEnd rest =
          editedFrom O H hunk.ancEnd := by
        rw [editedFrom_succ h₃, piece, List.append_assoc]
        by_cases hlt : hunk.ancEnd < O.length
        · obtain ⟨hord, hpatch⟩ := ih hrest hlt
          have hx : O[hunk.ancEnd]? = some O[hunk.ancEnd] := List.getElem?_eq_getElem hlt
          refine ⟨ordered_back (Nat.le_succ _) hord, ?_⟩
          rw [patch_forth (Nat.le_succ _) hord, hpatch, if_pos (hkept hlt),
            slice_cons hx (Nat.lt_succ_self _), slice_self, hx]
          rfl
        · have heq : hunk.ancEnd = O.length := by omega
          cases rest with
          | nil =>
              refine ⟨h₃, ?_⟩
              rw [editedFrom_of_lt (by omega), patch, heq, slice_self]
              simp
          | cons next rest =>
              obtain ⟨k₁, -, k₂, k₃, -⟩ := hrest
              omega
      refine ⟨⟨h₁, h₂, htail.1⟩, ?_⟩
      rw [editedFrom_quiet h₁ (by omega) hquiet, editedFrom_deleted h₂ h₃ hdel, ← htail.2, patch,
        hlines]
      have hlen : hunk.ancEnd + 1 - hunk.ancStart = (hunk.ancEnd - hunk.ancStart) + 1 := by omega
      have hlast : hunk.ancStart + 1 * (hunk.ancEnd - hunk.ancStart) = hunk.ancEnd := by omega
      rw [hlen, List.range'_concat, hlast]
      simp

/-- One change block of a diff: it is not empty, keeps no line and inserts no old one. -/
structure Tight (O text : List α) (h : Hunk α) : Prop where
  full : h.ancStart < h.ancEnd ∨ h.lines ≠ []
  old : ∀ k x, h.ancStart ≤ k → k < h.ancEnd → O[k]? = some x → x ∉ text
  new : ∀ x ∈ h.lines, x ∉ O

/-- Between two blocks stands a line that both leave alone. -/
def Spaced (i : Nat) (hs : List (Hunk α)) : Prop :=
  StartsFrom i hs ∧ hs.IsChain fun h h' => h.ancEnd < h'.ancStart

theorem spaced_tail {h : Hunk α} (hsp : Spaced i (h :: hs)) : Spaced (h.ancEnd + 1) hs :=
  ⟨fun x hx => (List.isChain_cons.1 hsp.2).1 x hx, (List.isChain_cons.1 hsp.2).2⟩

/-- The blocks that `toHunks` makes of a script that keeps all the lines the texts share. -/
theorem tight_hunksFrom {O text : List α} (ops : List (DiffOp α)) (ai : Nat)
    (hdrop : O.drop ai = oldLines ops) (hops : ∀ op ∈ ops, op.lines ≠ [])
    (hfrugal : Frugal O text ops) :
    (Spaced ai (hunksFrom ai none ops) ∧ ∀ h ∈ hunksFrom ai none ops, Tight O text h) ∧
      ∀ h : Hunk α, Tight O text h → h.ancEnd = ai →
        Spaced h.ancStart (hunksFrom ai (some h) ops) ∧
          ∀ x ∈ hunksFrom ai (some h) ops, Tight O text x := by
  induction ops generalizing ai with
  | nil =>
      refine ⟨⟨⟨nofun, List.IsChain.nil⟩, fun x hx => absurd hx List.not_mem_nil⟩,
        fun h hh _ => ⟨⟨fun x hx => ?_, List.isChain_singleton h⟩, fun x hx => ?_⟩⟩
      · obtain rfl := Option.some.inj hx
        exact Nat.le_refl _
      · exact List.mem_singleton.1 hx ▸ hh
  | cons op rest ih =>
      obtain ⟨hne, hrestne⟩ := List.forall_mem_cons.1 hops
      have hrestf : Frugal O text rest := fun o ho => hfrugal o (List.mem_cons_of_mem _ ho)
      obtain ⟨hdel, hins⟩ := hfrugal op List.mem_cons_self
      have hpos : 0 < op.lines.length := List.length_pos_iff.2 hne
      cases ht : op.type with
      | equal =>
          simp only [oldLines_cons, ht, reduceCtorEq, if_false] at hdrop
          simp only [hunksFrom, ht, Option.toList_none, Option.toList_some, List.nil_append,
            List.singleton_append]
          obtain ⟨⟨hsp, htight⟩, -⟩ := ih _ (slice_of_drop_eq hdrop).2 hrestne hrestf
          refine ⟨⟨⟨fun x hx => ?_, hsp.2⟩, htight⟩, fun h hh he => ⟨⟨fun x hx => ?_, ?_⟩, ?_⟩⟩
          · exact Nat.le_trans (Nat.le_add_right _ _) (hsp.1 x hx)
          · obtain rfl := Option.some.inj hx
            exact Nat.le_refl _
          · refine List.isChain_cons.2 ⟨fun x hx => ?_, hsp.2⟩
            have := hsp.1 x hx
            omega
          · exact List.forall_mem_cons.2 ⟨hh, htight⟩
      | delete =>
          simp only [oldLines_cons, ht, reduceCtorEq, if_false] at hdrop
          obtain ⟨-, hsome⟩ := ih _ (slice_of_drop_eq hdrop).2 hrestne hrestf
          have hold : ∀ k x, ai ≤ k → k < ai + op.lines.length → O[k]? = some x → x ∉ text := by
            intro k x h₁ h₂ hx
            have hk : (slice O ai (ai + op.lines.length))[k - ai]? = some x := by
              rw [getElem?_slice, if_pos (by omega), show ai + (k - ai) = k by omega, hx]
            rw [(slice_of_drop_eq hdrop).1] at hk
            exact hdel ht x (List.mem_of_getElem? hk)
          simp only [hunksFrom, ht]
          refine ⟨?_, fun h hh he => ?_⟩
          · exact hsome ⟨ai, ai + op.lines.length, []⟩
              ⟨Or.inl (by simp only; omega), hold, fun x hx => absurd hx List.not_mem_nil⟩ rfl
          · subst he
            refine hsome ⟨h.ancStart, h.ancEnd + op.lines.length, h.lines⟩
              ⟨?_, fun k x h₁ h₂ hx => ?_, hh.new⟩ rfl
            · exact hh.full.imp_left fun hlt => by simp only; omega
            · by_cases hk : k < h.ancEnd
              · exact hh.old k x h₁ hk hx
              · exact hold k x (by omega) h₂ hx
      | insert =>
          simp only [oldLines_cons, ht, if_true, List.nil_append] at hdrop
          obtain ⟨-, hsome⟩ := ih _ hdrop hrestne hrestf
          simp only [hunksFrom, ht]
          refine ⟨?_, fun h hh he => ?_⟩
          · exact hsome ⟨ai, ai, op.lines⟩
              ⟨Or.inr hne, fun k x h₁ h₂ => absurd h₂ (Nat.not_lt.2 h₁), hins ht⟩ rfl
          · subst he
            refine hsome ⟨h.ancStart, h.ancEnd, h.lines ++ op.lines⟩ ⟨?_, hh.old, ?_⟩ rfl
            · exact Or.inr fun hnil => hne (List.append_eq_nil_iff.1 hnil).2
            · exact fun x hx => (List.mem_append.1 hx).elim (hh.new x) (hins ht x)

/-- The edits insert no line of the text. -/
def Fresh (O : List α) (H : List (Hunk α)) : Prop := ∀ h ∈ H, ∀ x ∈ h.lines, x ∉ O

theorem notMem_insertedAt (h : Fresh O H) {g : Nat} {x : α} (hx : x ∈ insertedAt H g) : x ∉ O := by
  obtain ⟨hunk, hmem, -, hx⟩ := mem_insertedAt.1 hx
  exact h hunk hmem x hx

theorem kept_of_mem (hO : O.Nodup) (hH : Fresh O H) {k : Nat} (hk : k < O.length)
    (h : O[k] ∈ editedFrom O H i) : i ≤ k ∧ kept H k = true := by
  obtain ⟨g, hg, -, hx | ⟨hkept, hx⟩⟩ := mem_editedFrom.1 h
  · exact absurd (List.getElem_mem hk) (notMem_insertedAt hH hx)
  · obtain ⟨hgl, hgx⟩ := List.getElem?_eq_some_iff.1 hx
    obtain rfl := hO.getElem_inj_iff.1 hgx
    exact ⟨hg, hkept⟩

/-- Up to the first block the edited text goes along with the old one. -/
theorem walk_quiet (hO : O.Nodup) (hH : Fresh O H) (hord : Ordered O i hs) (hstart : StartsFrom j hs)
    (hij : i ≤ j) (hj : j ≤ O.length) (h : patch O i hs = editedFrom O H i) :
    Quiet O H i j ∧ patch O j hs = editedFrom O H j := by
  induction hn : j - i generalizing i with
  | zero =>
      obtain rfl : i = j := by omega
      exact ⟨fun g h₁ h₂ => absurd h₂ (Nat.not_lt.2 h₁), h⟩
  | succ n ih =>
      have hi : i < O.length := by omega
      have hx : O[i]? = some O[i] := List.getElem?_eq_getElem hi
      have hord' := ordered_forth hord hi fun x hx => by have := hstart x hx; omega
      rw [patch_forth (Nat.le_succ i) hord', slice_cons hx (Nat.lt_succ_self i), slice_self,
        editedFrom_succ (Nat.le_of_lt hi), piece, List.append_assoc] at h
      have hins : insertedAt H i = [] := by
        refine List.eq_nil_iff_forall_not_mem.2 fun y hy => ?_
        cases hl : insertedAt H i with
        | nil => exact absurd (hl ▸ hy) List.not_mem_nil
        | cons z zs =>
            rw [hl] at h
            have hz : O[i] = z := (List.cons.inj h).1
            exact notMem_insertedAt hH (hl ▸ List.mem_cons_self) (hz ▸ List.getElem_mem hi)
      rw [hins, List.nil_append] at h
      have hkept : kept H i = true := by
        by_contra hk
        rw [if_neg hk, List.nil_append] at h
        have hmem : O[i] ∈ editedFrom O H (i + 1) := h ▸ List.mem_cons_self
        exact absurd (kept_of_mem hO hH hi hmem).1 (by omega)
      rw [if_pos hkept, hx] at h
      obtain ⟨hquiet, hpatch⟩ := ih hord' (by omega) (List.cons.inj h).2 (by omega)
      refine ⟨fun g h₁ h₂ => ?_, hpatch⟩
      by_cases hg : g = i
      · exact hg ▸ ⟨hins, fun _ => hkept⟩
      · exact hquiet g (by omega) h₂

/-- The blocks of a diff to the edited text are those of the edits. -/
theorem represents_of_patch (hO : O.Nodup) (hH : Fresh O H) (hi : i ≤ O.length)
    (hord : Ordered O i hs) (hsp : Spaced i hs) (htight : ∀ h ∈ hs, Tight O (edited O H) h)
    (h : patch O i hs = editedFrom O H i) : Represents O H i hs := by
  induction hs generalizing i with
  | nil =>
      obtain ⟨hquiet, hend⟩ := walk_quiet hO hH hord nofun hi (Nat.le_refl _) h
      rw [patch, slice_self, editedFrom_succ (Nat.le_refl _)] at hend
      have hins := (List.append_eq_nil_iff.1 (List.append_eq_nil_iff.1 hend.symm).1).1
      intro g h₁ h₂
      by_cases hg : g < O.length
      · exact hquiet g h₁ hg
      · obtain rfl : g = O.length := by omega
        exact ⟨hins, fun hlt => absurd hlt (Nat.lt_irrefl _)⟩
  | cons hunk rest ih =>
      have hwalk := fun hle hlen => walk_quiet (j := hunk.ancStart) hO hH hord
        (fun x hx => Nat.le_of_eq (congrArg Hunk.ancStart (Option.some.inj hx))) hle hlen h
      obtain ⟨h₁, h₂, hordRest⟩ := hord
      obtain ⟨hhunk, hrest⟩ := List.forall_mem_cons.1 htight
      have h₃ := ordered_le hordRest
      obtain ⟨hquiet, hblock⟩ := hwalk h₁ (by omega)
      have hdel : ∀ k, hunk.ancStart ≤ k → k < hunk.ancEnd → kept H k = false := by
        intro k hk₁ hk₂
        by_contra hk
        refine hhunk.old k _ hk₁ hk₂ (List.getElem?_eq_getElem (by omega)) (mem_editedFrom.2 ?_)
        exact ⟨k, Nat.zero_le _, by omega, Or.inr ⟨by simpa using hk, List.getElem?_eq_getElem _⟩⟩
      have hlen : hunk.ancEnd + 1 - hunk.ancStart = (hunk.ancEnd - hunk.ancStart) + 1 := by omega
      have hlast : hunk.ancStart + 1 * (hunk.ancEnd - hunk.ancStart) = hunk.ancEnd := by omega
      have hrange : (List.range' hunk.ancStart (hunk.ancEnd + 1 - hunk.ancStart)).flatMap
          (insertedAt H) = (List.range' hunk.ancStart (hunk.ancEnd - hunk.ancStart)).flatMap
            (insertedAt H) ++ insertedAt H hunk.ancEnd := by
        rw [hlen, List.range'_concat, hlast, List.flatMap_append, List.flatMap_singleton]
      have hnext := (spaced_tail hsp).1
      rw [editedFrom_deleted h₂ h₃ hdel, editedFrom_succ h₃, piece, patch, slice_self,
        List.nil_append, ← List.append_assoc, ← List.append_assoc, ← hrange] at hblock
      refine ⟨h₁, hquiet, h₂, h₃, hdel, ?_⟩
      by_cases hlt : hunk.ancEnd < O.length
      · have hx : O[hunk.ancEnd]? = some O[hunk.ancEnd] := List.getElem?_eq_getElem hlt
        have hord' := ordered_forth hordRest hlt hnext
        rw [patch_forth (Nat.le_succ _) hord', slice_cons hx (Nat.lt_succ_self _), slice_self,
          List.singleton_append] at hblock
        have hfree : ∀ x ∈ (List.range' hunk.ancStart (hunk.ancEnd + 1 - hunk.ancStart)).flatMap
            (insertedAt H), x ∉ O := by
          intro x hx
          obtain ⟨g, -, hg⟩ := List.mem_flatMap.1 hx
          exact notMem_insertedAt hH hg
        have hkept : kept H hunk.ancEnd = true := by
          by_contra hk
          rw [if_neg hk, List.append_nil] at hblock
          have hmem : O[hunk.ancEnd] ∈ hunk.lines ++ O[hunk.ancEnd] :: patch O (hunk.ancEnd + 1) rest :=
            List.mem_append_right _ List.mem_cons_self
          rw [hblock] at hmem
          rcases List.mem_append.1 hmem with hmem | hmem
          · exact hfree _ hmem (List.getElem_mem hlt)
          · exact absurd (kept_of_mem hO hH hlt hmem).1 (by omega)
        rw [if_pos hkept, hx, Option.toList_some, List.append_assoc, List.singleton_append] at hblock
        have hbehind : O[hunk.ancEnd] ∉ editedFrom O H (hunk.ancEnd + 1) := fun hmem => by
          have := (kept_of_mem hO hH hlt hmem).1
          omega
        obtain ⟨hlines, -, htail⟩ := (List.append_cons_inj_of_notMem
          (fun hmem => hfree _ hmem (List.getElem_mem hlt)) hbehind).1 hblock.symm
        exact ⟨hlines.symm, fun _ => hkept, ih hlt hord' (spaced_tail hsp) hrest htail.symm⟩
      · have heq : hunk.ancEnd = O.length := by omega
        cases rest with
        | nil =>
            rw [editedFrom_of_lt (by omega), patch, heq, slice_self, List.append_nil,
              List.getElem?_eq_none (Nat.le_refl _)] at hblock
            refine ⟨by simpa [heq] using hblock, fun hlt' => absurd hlt' hlt, ?_⟩
            exact fun g k₁ k₂ => by omega
        | cons next rest =>
            have := hnext next rfl
            have := ordered_le hordRest.2.2
            have := hordRest.2.1
            omega

end Represents

section Merging

variable {O : List α} {H A B : List (Hunk α)} {i : Nat} {la ra : List (Hunk α)}

/-- An unchanged line stands between the two ranges. -/
def Separated (h h' : Hunk α) : Prop := h.ancEnd < h'.ancStart ∨ h'.ancEnd < h.ancStart

def Apart (A B : List (Hunk α)) : Prop := ∀ h ∈ A, ∀ h' ∈ B, Separated h h'

instance (h h' : Hunk α) : Decidable (Separated h h') := inferInstanceAs (Decidable (_ ∨ _))

instance (A B : List (Hunk α)) : Decidable (Apart A B) :=
  inferInstanceAs (Decidable (∀ h ∈ A, ∀ h' ∈ B, Separated h h'))

def inOrder (h h' : Hunk α) : Bool := h.ancStart ≤ h'.ancStart

theorem represents_wellFormed (h : Represents O H i la) :
    ∀ x ∈ la, x.ancStart ≤ x.ancEnd := by
  induction la generalizing i with
  | nil => exact fun x hx => absurd hx List.not_mem_nil
  | cons hunk rest ih =>
      obtain ⟨-, -, h₂, -, -, -, -, hrest⟩ := h
      exact List.forall_mem_cons.2 ⟨h₂, ih hrest⟩

/-- A block of one family is one of every other that does the same up to its end. -/
theorem represents_block {h : Hunk α} (hA : Represents O A i (h :: la))
    (hsame : Alike O H A i (h.ancEnd + 1)) (hrest : Represents O H (h.ancEnd + 1) ra) :
    Represents O H i (h :: ra) := by
  obtain ⟨h₁, hquiet, h₂, h₃, hdel, hlines, hkept, -⟩ := hA
  refine ⟨h₁, fun g k₁ k₂ => ?_, h₂, h₃, fun k k₁ k₂ => ?_, hlines.trans ?_, fun hlt => ?_, hrest⟩
  · obtain ⟨hins, hk⟩ := hsame g k₁ (by omega)
    exact ⟨hins.trans (hquiet g k₁ k₂).1, fun hg => (hk hg).trans ((hquiet g k₁ k₂).2 hg)⟩
  · exact ((hsame k (by omega) (by omega)).2 (by omega)).trans (hdel k k₁ k₂)
  · refine List.flatMap_congr fun g hg => ?_
    obtain ⟨k₁, k₂⟩ := List.mem_range'_1.1 hg
    exact (hsame g (by omega) (by omega)).1.symm
  · exact ((hsame h.ancEnd (by omega) (by omega)).2 hlt).trans (hkept hlt)

theorem represents_quiet {h : Hunk α} {j : Nat} (hB : Represents O B i (h :: ra))
    (hj : j ≤ h.ancStart) : Quiet O B i j :=
  fun g k₁ k₂ => hB.2.1 g k₁ (by omega)

theorem represents_rest {h : Hunk α} (hA : Represents O A i (h :: la)) :
    Represents O A (h.ancEnd + 1) la := hA.2.2.2.2.2.2.2

/-- The blocks of two edits that stay apart are, in order, those of both together. -/
theorem represents_merge : ∀ (la ra : List (Hunk α)) (i : Nat), Represents O A i la →
    Represents O B i ra → Apart la ra → Represents O (A ++ B) i (la.merge ra inOrder) := by
  refine loop_induction ?_ ?_ ?_ ?_
  · intro i hA hB _
    rw [List.nil_merge]
    intro g h₁ h₂
    obtain ⟨hins, hkept⟩ := alike_append_quiet (A := A) hB g h₁ h₂
    exact ⟨hins.trans (hA g h₁ h₂).1, fun hg => (hkept hg).trans ((hA g h₁ h₂).2 hg)⟩
  · intro rh ra ih i hA hB _
    rw [List.nil_merge] at ih ⊢
    have hle := hB.2.2.2.1
    have hfirst := hB.1.trans hB.2.2.1
    refine represents_block hB (alike_quiet_append fun g k₁ k₂ => hA g k₁ (by omega)) ?_
    exact ih _ (fun g k₁ k₂ => hA g (by omega) k₂) (represents_rest hB) nofun
  · intro lh la ih i hA hB _
    rw [List.merge_right] at ih ⊢
    have hle := hA.2.2.2.1
    have hfirst := hA.1.trans hA.2.2.1
    refine represents_block hA (alike_append_quiet fun g k₁ k₂ => hB g k₁ (by omega)) ?_
    exact ih _ (represents_rest hA) (fun g k₁ k₂ => hB g (by omega) k₂) fun _ _ => nofun
  · intro lh la rh ra _ ihLeft ihRight i hA hB hap
    have hsep := hap lh List.mem_cons_self rh List.mem_cons_self
    have hwl := represents_wellFormed hA lh List.mem_cons_self
    have hwr := represents_wellFormed hB rh List.mem_cons_self
    rw [List.cons_merge_cons]
    by_cases hle : inOrder lh rh = true
    · have hlt : lh.ancEnd < rh.ancStart := by
        have : lh.ancStart ≤ rh.ancStart := by simpa [inOrder] using hle
        exact hsep.resolve_right fun h => by omega
      rw [if_pos hle]
      refine represents_block hA (alike_append_quiet (represents_quiet hB hlt)) ?_
      refine ihLeft _ (represents_rest hA) (represents_forth hB ?_ fun x hx => ?_)
        fun h hh => hap h (List.mem_cons_of_mem _ hh)
      · exact (hA.1.trans hwl).trans (Nat.le_succ _)
      · exact Option.some.inj hx ▸ hlt
    · have hlt : rh.ancEnd < lh.ancStart := by
        have : ¬ lh.ancStart ≤ rh.ancStart := by simpa [inOrder] using hle
        exact hsep.resolve_left fun h => by omega
      rw [if_neg hle]
      refine represents_block hB (alike_quiet_append (represents_quiet hA hlt)) ?_
      refine ihRight _ (represents_forth hA ?_ fun x hx => ?_) (represents_rest hB)
        fun h hh h' hh' => hap h hh h' (List.mem_cons_of_mem _ hh')
      · exact (hB.1.trans hwr).trans (Nat.le_succ _)
      · exact Option.some.inj hx ▸ hlt

/-- The places of a block are those of some edit. -/
theorem touched (hA : ∀ x ∈ A, x.ancStart ≤ x.ancEnd) (hrep : Represents O A i la)
    (hfull : ∀ h ∈ la, h.ancStart < h.ancEnd ∨ h.lines ≠ []) :
    ∀ h ∈ la, ∀ g, h.ancStart ≤ g → g ≤ h.ancEnd → ∃ x ∈ A, x.ancStart ≤ g ∧ g ≤ x.ancEnd := by
  induction la generalizing i with
  | nil => exact fun h hh => absurd hh List.not_mem_nil
  | cons hunk rest ih =>
      obtain ⟨-, -, -, -, hdel, hlines, -, hrest⟩ := hrep
      obtain ⟨hfirst, hfull⟩ := List.forall_mem_cons.1 hfull
      refine List.forall_mem_cons.2 ⟨fun g h₁ h₂ => ?_, ih hrest hfull⟩
      by_cases hg : g < hunk.ancEnd
      · obtain ⟨x, hx, k₁, k₂⟩ := kept_eq_false.1 (hdel g h₁ hg)
        exact ⟨x, hx, k₁, Nat.le_of_lt k₂⟩
      by_cases hempty : hunk.ancStart < hunk.ancEnd
      · obtain ⟨x, hx, k₁, k₂⟩ := kept_eq_false.1 (hdel (g - 1) (by omega) (by omega))
        exact ⟨x, hx, by omega, by omega⟩
      · have hone : hunk.ancEnd + 1 - hunk.ancStart = 1 := by omega
        rw [hone, List.range'_one, List.flatMap_singleton] at hlines
        obtain ⟨y, hy⟩ := List.exists_mem_of_ne_nil _ (hfirst.resolve_left hempty)
        obtain ⟨x, hx, hstart, -⟩ := mem_insertedAt.1 (hlines ▸ hy)
        have := hA x hx
        exact ⟨x, hx, by omega, by omega⟩

theorem apart_blocks (hA : ∀ x ∈ A, x.ancStart ≤ x.ancEnd) (hB : ∀ x ∈ B, x.ancStart ≤ x.ancEnd)
    (hap : Apart A B) (hla : Represents O A i la) (hra : Represents O B i ra)
    (hfl : ∀ h ∈ la, h.ancStart < h.ancEnd ∨ h.lines ≠ [])
    (hfr : ∀ h ∈ ra, h.ancStart < h.ancEnd ∨ h.lines ≠ []) : Apart la ra := by
  intro h hh h' hh'
  by_contra hsep
  simp only [Separated, not_or, Nat.not_lt] at hsep
  have hwl := represents_wellFormed hla h hh
  have hwr := represents_wellFormed hra h' hh'
  obtain ⟨x, hx, k₁, k₂⟩ := touched hA hla hfl h hh (max h.ancStart h'.ancStart) (by omega) (by omega)
  obtain ⟨y, hy, k₃, k₄⟩ := touched hB hra hfr h' hh' (max h.ancStart h'.ancStart) (by omega)
    (by omega)
  have := hap x hx y hy
  unfold Separated at this
  omega

theorem quiet_of_edited_eq (hO : O.Nodup) (hH : Fresh O H) (h : edited O H = O) :
    Quiet O H 0 (O.length + 1) := by
  refine @represents_of_patch _ _ _ _ [] hO hH (Nat.zero_le _) (Nat.zero_le _)
    ⟨nofun, List.IsChain.nil⟩ nofun ?_
  rw [patch, slice_length, List.drop_zero]
  exact h.symm

theorem not_both_deleted (hap : Apart A B) {k : Nat} (hA : kept A k = false) : kept B k = true := by
  by_contra hB
  obtain ⟨x, hx, h₁, h₂⟩ := kept_eq_false.1 hA
  obtain ⟨y, hy, h₃, h₄⟩ := kept_eq_false.1 (Bool.eq_false_of_not_eq_true hB)
  have := hap x hx y hy
  unfold Separated at this
  omega

/-- An edit that deletes everything leaves nothing for another. -/
theorem quiet_of_edited_nil (hne : O ≠ []) (hB : ∀ x ∈ B, x.ancStart ≤ x.ancEnd) (hap : Apart A B)
    (h : edited O A = []) : Quiet O B 0 (O.length + 1) := by
  have hpos : 0 < O.length := List.length_pos_iff.2 hne
  have hdel : ∀ k, k < O.length → kept A k = false := by
    intro k hk
    by_contra hkept
    have hmem : O[k] ∈ edited O A := mem_editedFrom.2 ⟨k, Nat.zero_le _, Nat.le_of_lt hk,
      Or.inr ⟨by simpa using hkept, List.getElem?_eq_getElem hk⟩⟩
    rw [h] at hmem
    exact absurd hmem List.not_mem_nil
  intro g _ hg
  refine ⟨List.eq_nil_iff_forall_not_mem.2 fun y hy => ?_, fun hlt => not_both_deleted hap (hdel g hlt)⟩
  obtain ⟨z, hz, rfl, -⟩ := mem_insertedAt.1 hy
  have hwf := hB z hz
  by_cases hlt : z.ancStart < O.length
  · obtain ⟨x, hx, h₁, h₂⟩ := kept_eq_false.1 (hdel _ hlt)
    have := hap x hx z hz
    unfold Separated at this
    omega
  · obtain ⟨x, hx, h₁, h₂⟩ := kept_eq_false.1 (hdel (O.length - 1) (by omega))
    have := hap x hx z hz
    unfold Separated at this
    omega

/-- Two edits that stay apart and make the same text do nothing. -/
theorem quiet_of_edited_same (hO : O.Nodup) (hA : Fresh O A) (hap : Apart A B)
    (hnew : ∀ x ∈ A, ∀ y ∈ B, ∀ line ∈ x.lines, line ∉ y.lines) (h : edited O A = edited O B) :
    Quiet O A 0 (O.length + 1) := by
  intro g _ hg
  refine ⟨List.eq_nil_iff_forall_not_mem.2 fun z hz => ?_, fun hlt => ?_⟩
  · have hmem : z ∈ edited O B := h ▸ mem_editedFrom.2 ⟨g, Nat.zero_le _, by omega, Or.inl hz⟩
    obtain ⟨x, hx, -, hzx⟩ := mem_insertedAt.1 hz
    obtain ⟨g', -, -, hz' | ⟨-, hz'⟩⟩ := mem_editedFrom.1 hmem
    · obtain ⟨y, hy, -, hzy⟩ := mem_insertedAt.1 hz'
      exact hnew x hx y hy z hzx hzy
    · exact hA x hx z hzx (List.mem_of_getElem? hz')
  · by_contra hdel
    have hkept := not_both_deleted hap (Bool.eq_false_of_not_eq_true hdel)
    have hmem : O[g] ∈ edited O A := h ▸ mem_editedFrom.2
      ⟨g, Nat.zero_le _, Nat.le_of_lt hlt, Or.inr ⟨hkept, List.getElem?_eq_getElem hlt⟩⟩
    exact hdel (kept_of_mem hO hA hlt hmem).2

variable [DecidableEq α]

/-- Hunks that stay apart are merged like one list of hunks in order. -/
theorem mergeHunks_apart : ∀ (la ra : List (Hunk α)) (st : MergeState α),
    (∀ x ∈ la, x.ancStart ≤ x.ancEnd) → (∀ x ∈ ra, x.ancStart ≤ x.ancEnd) → Apart la ra →
      mergeHunks O la ra st = mergeHunks O (la.merge ra inOrder) [] st := by
  refine loop_induction ?_ ?_ ?_ ?_
  · exact fun st _ _ _ => by rw [List.nil_merge]
  · intro rh ra ih st hl hr _
    rw [List.nil_merge] at ih ⊢
    rw [mergeHunks_nil_cons, mergeHunks_cons_nil]
    exact ih _ hl (List.forall_mem_cons.1 hr).2 nofun
  · exact fun lh la _ st _ _ _ => by rw [List.merge_right]
  · intro lh la rh ra _ ihLeft ihRight st hl hr hap
    have hsep := hap lh List.mem_cons_self rh List.mem_cons_self
    obtain ⟨hwl, hl'⟩ := List.forall_mem_cons.1 hl
    obtain ⟨hwr, hr'⟩ := List.forall_mem_cons.1 hr
    have hint : hunksInteract lh rh = false := by
      unfold Separated at hsep
      unfold hunksInteract isInsert
      rw [if_neg (by omega), if_neg (by simp; omega), if_neg (by simp; omega)]
      simp
      omega
    have hne : lh.ancStart ≠ rh.ancStart := by
      unfold Separated at hsep
      omega
    rw [mergeHunks_cons_cons, List.cons_merge_cons]
    by_cases hle : inOrder lh rh = true
    · have hlt : lh.ancStart < rh.ancStart := by
        have : lh.ancStart ≤ rh.ancStart := by simpa [inOrder] using hle
        omega
      have htake : takeLocal lh rh = true := by simp [takeLocal, hne, hlt]
      rw [if_pos hle, mergeHunks_cons_nil]
      simp only [hint, htake, Bool.false_eq_true, if_false, if_true,
        Nat.min_eq_left (Nat.le_of_lt hlt)]
      exact ihLeft _ hl' hr fun h hh => hap h (List.mem_cons_of_mem _ hh)
    · have hlt : rh.ancStart < lh.ancStart := by
        have : ¬ lh.ancStart ≤ rh.ancStart := by simpa [inOrder] using hle
        omega
      have htake : takeLocal lh rh = false := by
        simp only [takeLocal, hne, ne_eq, not_false_eq_true, if_true]
        simp
        omega
      rw [if_neg hle, mergeHunks_cons_nil]
      simp only [hint, htake, Bool.false_eq_true, if_false, Nat.min_eq_right (Nat.le_of_lt hlt)]
      exact ihRight _ hl hr' fun h hh h' hh' => hap h hh h' (List.mem_cons_of_mem _ hh')

/-- Against a side without hunks the merge is patching. -/
theorem mergeHunks_oneSided {hs : List (Hunk α)} (st : MergeState α)
    (h : Ordered O st.pos hs) :
    (emitEqual O O.length (mergeHunks O hs [] st)).merged = st.merged ++ patch O st.pos hs ∧
      (mergeHunks O hs [] st).conflicts = st.conflicts := by
  induction hs generalizing st with
  | nil => exact ⟨merged_emitEqual O O.length st, rfl⟩
  | cons hunk rest ih =>
      obtain ⟨h₁, h₂, hrest⟩ := h
      have hpos : (mergeOneSided hunk (emitEqual O hunk.ancStart st)).pos = hunk.ancEnd := by
        simp only [mergeOneSided, pos_emitEqual]
        omega
      rw [mergeHunks_cons_nil]
      obtain ⟨hmerged, hconflicts⟩ := ih (mergeOneSided hunk (emitEqual O hunk.ancStart st))
        (by rw [hpos]; exact hrest)
      refine ⟨hmerged.trans ?_, hconflicts.trans (by simp)⟩
      rw [hpos, mergeOneSided, merged_emitEqual, patch, List.append_assoc, List.append_assoc]

theorem threaded_edited (hO : O.Nodup) (hH : Fresh O H) : Threaded O (edited O H) := by
  have hidx : ∀ g x, x ∈ piece O H g → x ∈ O → O.idxOf x = g := by
    intro g x hx hmem
    rcases List.mem_append.1 hx with hx | hx
    · exact absurd hmem (notMem_insertedAt hH hx)
    · split at hx
      · obtain ⟨hg, rfl⟩ := List.getElem?_eq_some_iff.1 (Option.mem_toList.1 hx)
        exact hO.idxOf_getElem g hg
      · exact absurd hx List.not_mem_nil
  refine ⟨hO, List.pairwise_flatMap.2 ⟨fun g _ => ?_, ?_⟩⟩
  · refine List.pairwise_append.2 ⟨?_, ?_, fun x hx y hy hxO => ?_⟩
    · exact List.pairwise_of_forall_mem_list fun x hx y hy hxO =>
        absurd hxO (notMem_insertedAt hH hx)
    · split
      · cases O[g]? <;> simp
      · exact List.Pairwise.nil
    · exact absurd hxO (notMem_insertedAt hH hx)
  · refine (List.pairwise_lt_range' 1 Nat.one_pos).imp fun {g g'} hlt x hx y hy hxO hyO => ?_
    rw [hidx g x hx hxO, hidx g' y hy hyO]
    exact hlt

/-- The diff to the edited text recovers the blocks of the edits. -/
theorem diffLines_edited (hO : O.Nodup) (hH : Fresh O H) :
    ∃ diff, diffLines O (edited O H) = some diff ∧ Represents O H 0 (toHunks diff) ∧
      ∀ h ∈ toHunks diff, h.ancStart < h.ancEnd ∨ h.lines ≠ [] := by
  obtain ⟨diff, hdiff, hscript, hfrugal⟩ := diffLines_threaded (threaded_edited hO hH)
  have hops : ∀ op ∈ diff, op.lines ≠ [] := by
    obtain ⟨raw, -, rfl⟩ := Option.map_eq_some_iff.1 hdiff
    exact (DiffReads.ops_coalesceOps raw).1
  obtain ⟨hord, hpatch⟩ := patches_toHunks hscript
  obtain ⟨⟨hsp, htight⟩, -⟩ := tight_hunksFrom diff 0 hscript.old.symm hops hfrugal
  rw [← toHunks_eq] at hsp htight
  exact ⟨diff, hdiff, represents_of_patch hO hH (Nat.zero_le _) hord hsp htight hpatch,
    fun h hh => (htight h hh).full⟩

/-- The merge of two edited texts whose edits stay apart applies both. -/
theorem mergeFromDiffs_edited (hO : O.Nodup) (hA : Fresh O A) (hB : Fresh O B)
    (hA' : ∀ x ∈ A, x.ancStart ≤ x.ancEnd) (hB' : ∀ x ∈ B, x.ancStart ≤ x.ancEnd)
    (hap : Apart A B) :
    ∃ localDiff remoteDiff, diffLines O (edited O A) = some localDiff ∧
      diffLines O (edited O B) = some remoteDiff ∧
      mergeFromDiffs O localDiff remoteDiff = ⟨edited O (A ++ B), [], false⟩ := by
  obtain ⟨localDiff, hl, hla, hfl⟩ := diffLines_edited hO hA
  obtain ⟨remoteDiff, hr, hra, hfr⟩ := diffLines_edited hO hB
  have hblocks := apart_blocks hA' hB' hap hla hra hfl hfr
  obtain ⟨hord, hpatch⟩ := patch_represents (represents_merge _ _ _ hla hra hblocks) (Nat.zero_le _)
  have hrun := mergeHunks_apart (O := O) _ _ ⟨[], [], 0⟩ (represents_wellFormed hla)
    (represents_wellFormed hra) hblocks
  obtain ⟨hmerged, hconflicts⟩ := mergeHunks_oneSided ⟨[], [], 0⟩ hord
  refine ⟨localDiff, remoteDiff, hl, hr, ?_⟩
  simp only [mergeFromDiffs, hrun, hmerged, conflicts_emitEqual, hconflicts, hpatch,
    List.nil_append]
  rfl

end Merging

end OpsBlobs.DisjointEdits
