import Mathlib.Algebra.GroupWithZero.Nat
import Mathlib.Data.List.Lex
import Mathlib.Order.Fin.Basic

namespace OpsBlobs.CodeUnits

/-- A string of the language: its UTF-16 code units, which `<` compares from the left. -/
abbrev Units := List (Fin 65536)

instance neZeroUnits : NeZero 65536 := ⟨by decide⟩

instance lawfulUnit : LawfulBEq (Fin 65536) := inferInstance

def unit (c : Char) : Fin 65536 := Fin.ofNat 65536 c.toNat

/-- A character past the first plane takes two surrogates. -/
def encode (c : Char) : Units :=
  if c.toNat < 0x10000 then [unit c]
  else
    [Fin.ofNat 65536 (0xD800 + (c.toNat - 0x10000) / 0x400),
      Fin.ofNat 65536 (0xDC00 + (c.toNat - 0x10000) % 0x400)]

def units (s : String) : Units := s.toList.flatMap encode

example : encode 'a' = [0x61] ∧ encode (Char.ofNat 0x1F600) = [0xD83D, 0xDE00] := by decide

section Encode

theorem toNat_lt (c : Char) : c.toNat < 0x110000 := by
  have := c.valid
  simp only [Char.toNat, UInt32.isValidChar, Nat.isValidChar] at *
  omega

theorem not_surrogate (c : Char) : c.toNat < 0xD800 ∨ 0xDFFF < c.toNat := by
  have := c.valid
  simp only [Char.toNat, UInt32.isValidChar, Nat.isValidChar] at *
  omega

theorem val_unit {c : Char} (h : c.toNat < 0x10000) : (unit c).val = c.toNat :=
  Nat.mod_eq_of_lt h

theorem unit_inj {c d : Char} (hc : c.toNat < 0x10000) (hd : d.toNat < 0x10000)
    (h : unit c = unit d) : c = d := by
  apply Char.toNat_inj.1
  rw [← val_unit hc, h, val_unit hd]

/-- No character's units begin another's. -/
theorem encode_append_inj {c d : Char} {x y : Units} (h : encode c ++ x = encode d ++ y) :
    c = d ∧ x = y := by
  have hc := not_surrogate c
  have hd := not_surrogate d
  have hcl := toNat_lt c
  have hdl := toNat_lt d
  unfold encode at h
  split at h
  · rename_i hcs
    split at h
    · rename_i hds
      obtain ⟨hhead, htail⟩ := List.cons.inj h
      exact ⟨unit_inj hcs hds hhead, htail⟩
    · have hhead := congrArg Fin.val (List.cons.inj h).1
      simp only [val_unit hcs, Fin.ofNat] at hhead
      omega
  · split at h
    · rename_i hds
      have hhead := congrArg Fin.val (List.cons.inj h).1
      simp only [val_unit hds, Fin.ofNat] at hhead
      omega
    · obtain ⟨hhigh, hrest⟩ := List.cons.inj h
      obtain ⟨hlow, htail⟩ := List.cons.inj hrest
      have hhigh := congrArg Fin.val hhigh
      have hlow := congrArg Fin.val hlow
      simp only [Fin.ofNat] at hhigh hlow
      refine ⟨Char.toNat_inj.1 ?_, htail⟩
      omega

theorem encode_ne_nil (c : Char) : encode c ≠ [] := by
  unfold encode
  split <;> simp

theorem flatMap_encode_inj {l m : List Char} (h : l.flatMap encode = m.flatMap encode) : l = m := by
  induction l generalizing m with
  | nil =>
      cases m with
      | nil => rfl
      | cons d m =>
          rw [List.flatMap_nil, List.flatMap_cons] at h
          exact absurd (List.append_eq_nil_iff.1 h.symm).1 (encode_ne_nil d)
  | cons c l ih =>
      cases m with
      | nil =>
          rw [List.flatMap_nil, List.flatMap_cons] at h
          exact absurd (List.append_eq_nil_iff.1 h).1 (encode_ne_nil c)
      | cons d m =>
          obtain ⟨rfl, htail⟩ := encode_append_inj h
          rw [ih htail]

theorem units_inj {s t : String} (h : units s = units t) : s = t :=
  String.ext (flatMap_encode_inj h)

@[simp] theorem units_append (s t : String) : units (s ++ t) = units s ++ units t := by
  simp [units]

/-- Characters of the first plane take one unit each. -/
theorem flatMap_encode {l : List Char} (h : ∀ c ∈ l, c.toNat < 0x10000) :
    l.flatMap encode = l.map unit := by
  induction l with
  | nil => rfl
  | cons c l ih =>
      rw [List.flatMap_cons, List.map_cons, ih fun d hd => h d (List.mem_cons_of_mem _ hd), encode,
        if_pos (h c List.mem_cons_self)]
      rfl

end Encode

section Order

/-- Behind parts of equal length, the first part that differs decides. -/
theorem append_lt_append_iff {x y x' y' : Units} (h : x.length = y.length) :
    x ++ x' < y ++ y' ↔ x < y ∨ x = y ∧ x' < y' := by
  induction x generalizing y with
  | nil =>
      obtain rfl : y = [] := List.length_eq_zero_iff.1 h.symm
      simp
  | cons a x ih =>
      cases y with
      | nil => cases h
      | cons b y =>
          have hlen : x.length = y.length := Nat.succ.inj h
          simp only [List.cons_append, List.cons_lt_cons_iff, ih hlen, List.cons.injEq]
          tauto

/-- Trichotomy, by the two comparisons of the language. -/
theorem eq_of_not_lt {x y : Units} (h : ¬ x < y) (h' : ¬ y < x) : x = y :=
  le_antisymm (not_lt.1 h') (not_lt.1 h)

end Order

end OpsBlobs.CodeUnits
