import OpsBlobs.LineJournal
import OpsBlobs.PackedContent

namespace OpsBlobs.PackIndexFile

open LineJournal PackedContent

/-- The fields of an index line are numerals; the empty text counts as 0, as `Number` has it. -/
def number (text : List Char) : Option Nat :=
  if text.all Char.isDigit then some (Nat.ofDigitChars 10 text 0) else none

def numeral (n : Nat) : List Char := (toString n).toList

def indexLine (e : String × PackLoc) : List Char :=
  e.1.toList ++ ' ' :: (numeral e.2.packId ++ ' ' :: (numeral e.2.offset ++ ' ' ::
    numeral e.2.len))

/-- The lines that a flush appends, and those that a rewrite leaves. -/
def indexLines (entries : List (String × PackLoc)) : List Char :=
  entries.flatMap fun e => indexLine e ++ ['\n']

/-- A line of other than four fields is dropped, as the last one may be torn. -/
def parseEntry (line : List Char) : Option (String × PackLoc) :=
  match line.splitOn ' ' with
  | [hash, packId, off, len] =>
      if hash = [] ∨ packId = [] then none
      else do
        let packId ← number packId
        let offset ← number off
        let length ← number len
        pure (String.ofList hash, ⟨packId, offset, length⟩)
  | _ => none

def parseIndex (raw : List Char) : List (String × PackLoc) := recordsOf parseEntry raw

/-- A hash that stays one field of its line. -/
structure Plain (hash : String) : Prop where
  ne_nil : hash.toList ≠ []
  space : ' ' ∉ hash.toList
  newline : '\n' ∉ hash.toList

instance (hash : String) : Decidable (Plain hash) :=
  decidable_of_iff (hash.toList ≠ [] ∧ ' ' ∉ hash.toList ∧ '\n' ∉ hash.toList)
    ⟨fun h => ⟨h.1, h.2.1, h.2.2⟩, fun h => ⟨h.1, h.2, h.3⟩⟩

section Numeral

theorem numeral_eq (n : Nat) : numeral n = Nat.toDigits 10 n := by
  simp [numeral]

theorem isDigit_of_mem_numeral {n : Nat} {c : Char} (h : c ∈ numeral n) : c.isDigit = true := by
  rw [numeral_eq] at h
  exact Nat.isDigit_of_mem_toDigits (by decide) (by decide) h

theorem notMem_numeral {c : Char} (h : c.isDigit = false) (n : Nat) : c ∉ numeral n := by
  intro hmem
  rw [isDigit_of_mem_numeral hmem] at h
  cases h

theorem number_numeral (n : Nat) : number (numeral n) = some n := by
  rw [number, if_pos (List.all_eq_true.2 fun c => isDigit_of_mem_numeral), numeral_eq,
    Nat.ofDigitChars_ten_toDigits]

theorem numeral_ne_nil (n : Nat) : numeral n ≠ [] := by
  rw [numeral_eq]
  exact Nat.toDigits_ne_nil

end Numeral

section Lines

variable {entries : List (String × PackLoc)} {e : String × PackLoc}

theorem newline_notMem_indexLine (h : Plain e.1) : '\n' ∉ indexLine e := by
  have hnum : ∀ n, '\n' ∉ numeral n := notMem_numeral rfl
  simp [indexLine, h.newline, hnum]

theorem parseEntry_indexLine (h : Plain e.1) : parseEntry (indexLine e) = some e := by
  have hnum : ∀ n, ' ' ∉ numeral n := notMem_numeral rfl
  have hfields : (indexLine e).splitOn ' ' =
      [e.1.toList, numeral e.2.packId, numeral e.2.offset, numeral e.2.len] := by
    rw [indexLine, List.splitOn_append_cons_self, List.splitOn_append_cons_self,
      List.splitOn_append_cons_self, List.splitOn_eq_singleton h.space,
      List.splitOn_eq_singleton (hnum _), List.splitOn_eq_singleton (hnum _),
      List.splitOn_eq_singleton (hnum _)]
    rfl
  rw [parseEntry, hfields]
  dsimp only
  rw [if_neg (not_or.2 ⟨h.ne_nil, numeral_ne_nil _⟩)]
  simp [number_numeral]

theorem parseIndex_indexLines (h : ∀ e ∈ entries, Plain e.1) :
    parseIndex (indexLines entries) = entries :=
  recordsOf_lines rfl fun e he => ⟨newline_notMem_indexLine (h e he), parseEntry_indexLine (h e he)⟩

/-- An append that starts on a line of its own adds its entries. -/
theorem parseIndex_append {raw : List Char} (hraw : Ended raw) (h : ∀ e ∈ entries, Plain e.1) :
    parseIndex (raw ++ indexLines entries) = parseIndex raw ++ entries := by
  rw [parseIndex, recordsOf_append rfl hraw, ← parseIndex, ← parseIndex, parseIndex_indexLines h]

end Lines

end OpsBlobs.PackIndexFile
