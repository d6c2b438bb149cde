import Mathlib.Data.Nat.Digits.Defs
import Mathlib.Data.Nat.Log

namespace OpsBlobs.JsNumber

/-- A finite number of the language, as a multiple of the least positive one. -/
structure Finite where
  units : Int
  deriving DecidableEq, Repr

/-- The units in one. -/
def ONE : Nat := 2 ^ 1074

def ofNat (n : Nat) : Finite := ⟨n * ONE⟩

/-- The integer part, towards zero. -/
def Finite.trunc (x : Finite) : Int := x.units.tdiv ONE

section Rounding

/-- `n / d` to the nearest integer, halves to the even one. -/
def roundHalfEven (n d : Nat) : Nat :=
  let q := n / d
  let r := n % d
  if 2 * r < d then q else if d < 2 * r then q + 1 else if q % 2 = 0 then q else q + 1

/-- `n / d` units rounded to 53 bits; none when that is past the largest finite number. -/
def nearest (n d : Nat) : Option Nat :=
  let step := 2 ^ (Nat.log 2 (n / d) - 52)
  let units := roundHalfEven n (d * step) * step
  if units < 2 ^ 1024 * ONE then some units else none

/-- `mantissa * 10 ^ exponent`, rounded. -/
def scaled (mantissa : Nat) (exponent : Int) : Option Nat :=
  match exponent with
  | .ofNat e => nearest (mantissa * 10 ^ e * ONE) 1
  | .negSucc e => nearest (mantissa * ONE) (10 ^ (e + 1))

end Rounding

section Syntax

def isSpace (c : Char) : Bool :=
  c.toNat ∈ [0x9, 0xA, 0xB, 0xC, 0xD, 0x20, 0xA0, 0x1680, 0x2028, 0x2029, 0x202F, 0x205F, 0x3000,
    0xFEFF] || (0x2000 ≤ c.toNat && c.toNat ≤ 0x200A)

def trim (t : List Char) : List Char :=
  ((t.dropWhile isSpace).reverse.dropWhile isSpace).reverse

/-- A sign, if there is one. -/
def sign : List Char → Int × List Char
  | '+' :: t => (1, t)
  | '-' :: t => (-1, t)
  | t => (1, t)

def digitsValue (t : List Char) : Option Nat :=
  if t ≠ [] ∧ t.all Char.isDigit then some (Nat.ofDigitChars 10 t 0) else none

/-- The exponent part, which may be missing. -/
def exponent : List Char → Option Int
  | [] => some 0
  | c :: t =>
      if c = 'e' ∨ c = 'E' then (digitsValue (sign t).2).map fun n => (sign t).1 * n else none

def decimal (t : List Char) : Option Nat :=
  let whole := t.takeWhile Char.isDigit
  let rest := t.dropWhile Char.isDigit
  let fraction := if rest.head? = some '.' then rest.tail.takeWhile Char.isDigit else []
  let rest := if rest.head? = some '.' then rest.tail.dropWhile Char.isDigit else rest
  if whole = [] ∧ fraction = [] then none
  else (exponent rest).bind fun e =>
    scaled (Nat.ofDigitChars 10 (whole ++ fraction) 0) (e - fraction.length)

def hexDigit (c : Char) : Option Nat :=
  if c.isDigit then some (c.toNat - '0'.toNat)
  else if 'a' ≤ c ∧ c ≤ 'f' then some (c.toNat - 'a'.toNat + 10)
  else if 'A' ≤ c ∧ c ≤ 'F' then some (c.toNat - 'A'.toNat + 10)
  else none

/-- The digits after a prefix such as `0x`. -/
def radix (base : Nat) (t : List Char) : Option Nat :=
  if t = [] then none
  else ((t.mapM hexDigit).filter (·.all (· < base))).bind fun digits =>
    nearest (Nat.ofDigits base digits.reverse * ONE) 1

/-- `Number` of a text; none where it gives no finite number. -/
def number (t : List Char) : Option Finite :=
  match trim t with
  | [] => some ⟨0⟩
  | '0' :: 'x' :: t | '0' :: 'X' :: t => (radix 16 t).map fun n => ⟨n⟩
  | '0' :: 'o' :: t | '0' :: 'O' :: t => (radix 8 t).map fun n => ⟨n⟩
  | '0' :: 'b' :: t | '0' :: 'B' :: t => (radix 2 t).map fun n => ⟨n⟩
  | t => (decimal (sign t).2).map fun n => ⟨(sign t).1 * n⟩

example : number "12".toList = some (ofNat 12) ∧ number "0x1f".toList = some (ofNat 31) ∧
    number "-2.50e1\r".toList = some ⟨-25 * ONE⟩ ∧ number "1e400".toList = none ∧
    number "4 ".toList = some (ofNat 4) ∧ number "4a".toList = none := by decide +kernel

end Syntax

end OpsBlobs.JsNumber
