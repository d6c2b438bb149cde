import Mathlib.Data.List.TakeWhile
import Mathlib.Tactic.IntervalCases
import OpsBlobs.CodeUnits
import OpsBlobs.JsNumber
import OpsBlobs.OpIdentity

namespace OpsBlobs.HlcText

open CodeUnits JsNumber

/-- A clock reading whose device id is any string of the source, unpaired surrogates included. -/
structure Stamp where
  wallTime : Nat
  counter : Nat
  deviceId : Units
  deriving DecidableEq, Repr

def hlcCompare (a b : Stamp) : Int :=
  if a.wallTime ≠ b.wallTime then (a.wallTime : Int) - b.wallTime
  else if a.counter ≠ b.counter then (a.counter : Int) - b.counter
  else if a.deviceId < b.deviceId then -1
  else if b.deviceId < a.deviceId then 1
  else 0

def toString (n : Nat) : Units := (Nat.toDigits 10 n).map unit

def padStart (s : Units) (width : Nat) (fill : Fin 65536) : Units :=
  List.replicate (width - s.length) fill ++ s

def hlcToString (hlc : Stamp) : Units :=
  padStart (toString hlc.wallTime) 15 (unit '0') ++ unit '-' ::
    (padStart (toString hlc.counter) 8 (unit '0') ++ unit '-' :: hlc.deviceId)

section Parse

def isSpace (u : Fin 65536) : Bool := JsNumber.isSpace (Char.ofNat u.val)

def isDigit (u : Fin 65536) : Bool := 48 ≤ u.val ∧ u.val ≤ 57

def digitsValue (t : Units) : Nat := t.foldl (fun n u => 10 * n + (u.val - 48)) 0

/-- `parseInt(s, 10)` of a text without a minus sign; none where that is no integer, `NaN` and
`Infinity` alike. -/
def parseInt (s : Units) : Option Nat :=
  let t := s.dropWhile isSpace
  let t := if t.head? = some (unit '+') then t.tail else t
  let digits := t.takeWhile isDigit
  if digits = [] then none
  else (nearest (digitsValue digits * ONE) 1).map (· / ONE)

/-- The parts hold no hyphen, so no minus sign either. -/
def hlcFromString (s : Units) : Option Stamp :=
  match s.splitOn (unit '-') with
  | wall :: count :: device :: rest => do
      let wallTime ← parseInt wall
      let counter ← parseInt count
      some ⟨wallTime, counter, [unit '-'].intercalate (device :: rest)⟩
  | _ => none

end Parse

example : hlcFromString (units "000000000001200-00000003-phone-a") =
      some ⟨1200, 3, units "phone-a"⟩ ∧
    hlcFromString (units " +12x-3-") = some ⟨12, 3, []⟩ ∧
    hlcFromString (units "12-3") = none ∧ hlcFromString (units "x-3-a") = none := by
  decide +kernel

section Rounding

theorem one_pos : 0 < ONE := by
  obtain ⟨e, he⟩ : ∃ e, ONE = 2 ^ e := ⟨_, ONE.eq_1⟩
  rw [he]
  exact Nat.two_pow_pos e

/-- An integer of at most 53 bits is a number of its own. -/
theorem nearest_of_lt {n : Nat} (h : n < 2 ^ 53) : nearest (n * ONE) 1 = some (n * ONE) := by
  obtain ⟨e, he⟩ : ∃ e, ONE = 2 ^ e := ⟨_, ONE.eq_1⟩
  have hlog : Nat.log 2 (n * ONE) - 52 ≤ e := by
    have hlt : n * ONE < 2 ^ (53 + e) := by
      rw [Nat.pow_add, ← he]
      exact Nat.mul_lt_mul_of_pos_right h one_pos
    have := Nat.log_lt_of_lt_pow' (by omega) hlt
    omega
  have hdvd : 2 ^ (Nat.log 2 (n * ONE) - 52) ∣ n * ONE := by
    refine Dvd.dvd.mul_left ?_ n
    conv_rhs => rw [he]
    exact Nat.pow_dvd_pow 2 hlog
  have hround : roundHalfEven (n * ONE) (1 * 2 ^ (Nat.log 2 (n * ONE) - 52)) =
      n * ONE / 2 ^ (Nat.log 2 (n * ONE) - 52) := by
    rw [Nat.one_mul, roundHalfEven, Nat.mod_eq_zero_of_dvd hdvd, Nat.mul_zero]
    exact if_pos (Nat.two_pow_pos _)
  have hwide : ∀ k, 53 ≤ k → n < 2 ^ k := fun k hk =>
    Nat.lt_of_lt_of_le h (Nat.pow_le_pow_right (by decide) hk)
  have hbound : n * ONE < 2 ^ 1024 * ONE :=
    Nat.mul_lt_mul_of_pos_right (hwide 1024 (by decide)) one_pos
  rw [nearest, Nat.div_one, hround, Nat.div_mul_cancel hdvd, if_pos hbound]

end Rounding

section Digits

variable {x y : Units} {n m width : Nat}

theorem foldl_digits (acc : Nat) : x.foldl (fun n u => 10 * n + (u.val - 48)) acc =
    10 ^ x.length * acc + digitsValue x := by
  induction x generalizing acc with
  | nil => simp [digitsValue]
  | cons u x ih =>
      rw [digitsValue, List.foldl_cons, List.foldl_cons, ih, ih (10 * 0 + _), List.length_cons,
        Nat.pow_succ]
      ring

theorem digitsValue_cons (u : Fin 65536) :
    digitsValue (u :: x) = 10 ^ x.length * (u.val - 48) + digitsValue x := by
  rw [digitsValue, List.foldl_cons, foldl_digits, Nat.mul_zero, Nat.zero_add]

theorem digitsValue_append : digitsValue (x ++ y) = 10 ^ y.length * digitsValue x + digitsValue y := by
  rw [digitsValue, List.foldl_append, foldl_digits]
  rfl

theorem isDigit_iff {u : Fin 65536} : isDigit u = true ↔ 48 ≤ u.val ∧ u.val ≤ 57 := by
  simp [isDigit]

theorem digitsValue_lt (h : ∀ u ∈ x, isDigit u = true) : digitsValue x < 10 ^ x.length := by
  induction x with
  | nil => exact Nat.one_pos
  | cons u x ih =>
      have hrest := ih fun v hv => h v (List.mem_cons_of_mem _ hv)
      have hu : u.val - 48 ≤ 9 := by
        have := isDigit_iff.1 (h u List.mem_cons_self)
        omega
      calc digitsValue (u :: x) = 10 ^ x.length * (u.val - 48) + digitsValue x :=
            digitsValue_cons u
        _ < 10 ^ x.length * 9 + 10 ^ x.length :=
            Nat.add_lt_add_of_le_of_lt (Nat.mul_le_mul_left _ hu) hrest
        _ = 10 ^ (u :: x).length := by rw [List.length_cons, Nat.pow_succ]; ring

/-- Digits of one length are ordered as the numbers they write. -/
theorem lt_iff_digitsValue_lt (hx : ∀ u ∈ x, isDigit u = true) (hy : ∀ u ∈ y, isDigit u = true)
    (hlen : x.length = y.length) : x < y ↔ digitsValue x < digitsValue y := by
  induction x generalizing y with
  | nil =>
      obtain rfl : y = [] := List.length_eq_zero_iff.1 hlen.symm
      simp
  | cons u x ih =>
      cases y with
      | nil => cases hlen
      | cons v y =>
          have hxs : ∀ w ∈ x, isDigit w = true := fun w hw => hx w (List.mem_cons_of_mem _ hw)
          have hys : ∀ w ∈ y, isDigit w = true := fun w hw => hy w (List.mem_cons_of_mem _ hw)
          have hl : x.length = y.length := Nat.succ.inj hlen
          have hu := isDigit_iff.1 (hx u List.mem_cons_self)
          have hv := isDigit_iff.1 (hy v List.mem_cons_self)
          have hxlt := digitsValue_lt hxs
          have hylt := digitsValue_lt hys
          rw [List.cons_lt_cons_iff, ih hxs hys hl, digitsValue_cons, digitsValue_cons, hl,
            Fin.lt_def, Fin.ext_iff]
          rw [hl] at hxlt
          rcases Nat.lt_trichotomy u.val v.val with h | h | h
          · refine iff_of_true (Or.inl h) ?_
            have : 10 ^ y.length * (u.val - 48) + 10 ^ y.length ≤ 10 ^ y.length * (v.val - 48) :=
              Nat.mul_succ _ _ ▸ Nat.mul_le_mul_left _ (by omega)
            omega
          · rw [h]
            simp
          · refine iff_of_false (by omega) ?_
            have : 10 ^ y.length * (v.val - 48) + 10 ^ y.length ≤ 10 ^ y.length * (u.val - 48) :=
              Nat.mul_succ _ _ ▸ Nat.mul_le_mul_left _ (by omega)
            omega

def padded (n width : Nat) : Units := padStart (toString n) width (unit '0')

theorem digit_of_isDigit {c : Char} (h : c.isDigit = true) :
    c.toNat < 0x10000 ∧ isDigit (unit c) = true := by
  simp only [Char.isDigit, Bool.and_eq_true, decide_eq_true_eq, UInt32.le_iff_toNat_le] at h
  change 48 ≤ c.toNat ∧ c.toNat ≤ 57 at h
  have hlt : c.toNat < 0x10000 := by omega
  refine ⟨hlt, isDigit_iff.2 ?_⟩
  rw [val_unit hlt]
  exact h

theorem isDigit_of_mem_toString {u : Fin 65536} (h : u ∈ toString n) : isDigit u = true := by
  obtain ⟨c, hc, rfl⟩ := List.mem_map.1 h
  exact (digit_of_isDigit (Nat.isDigit_of_mem_toDigits (by decide) (by decide) hc)).2

theorem isDigit_of_mem_padded {u : Fin 65536} (h : u ∈ padded n width) : isDigit u = true := by
  rcases List.mem_append.1 h with h | h
  · rw [List.eq_of_mem_replicate h]
    rfl
  · exact isDigit_of_mem_toString h

theorem digitsValue_map (l : List Char) (h : ∀ c ∈ l, c.isDigit = true) (acc : Nat) :
    (l.map unit).foldl (fun n u => 10 * n + (u.val - 48)) acc = Nat.ofDigitChars 10 l acc := by
  induction l generalizing acc with
  | nil => rfl
  | cons c l ih =>
      have hc := (digit_of_isDigit (h c List.mem_cons_self)).1
      rw [List.map_cons, List.foldl_cons, ih fun d hd => h d (List.mem_cons_of_mem _ hd),
        Nat.ofDigitChars_cons, val_unit hc]
      rfl

@[simp] theorem digitsValue_toString (n : Nat) : digitsValue (toString n) = n := by
  have hdigits : ∀ c ∈ Nat.toDigits 10 n, c.isDigit = true := fun c hc =>
    Nat.isDigit_of_mem_toDigits (by decide) (by decide) hc
  rw [digitsValue, toString, digitsValue_map _ hdigits, Nat.ofDigitChars_ten_toDigits]

@[simp] theorem digitsValue_padded (n width : Nat) : digitsValue (padded n width) = n := by
  have hzero : ∀ k, digitsValue (List.replicate k (unit '0')) = 0 := by
    intro k
    induction k with
    | zero => rfl
    | succ k ih => rw [List.replicate_succ, digitsValue_cons, ih]; rfl
  rw [padded, padStart, digitsValue_append, hzero, Nat.mul_zero, Nat.zero_add,
    digitsValue_toString]

theorem length_padded (h : n < 10 ^ width) (hw : 0 < width) : (padded n width).length = width := by
  have hle : (toString n).length ≤ width := by
    rw [toString, List.length_map]
    exact (Nat.length_toDigits_le_iff (by decide) hw).2 h
  rw [padded, padStart, List.length_append, List.length_replicate]
  omega

theorem padded_inj (h : padded n width = padded m width) : n = m := by
  rw [← digitsValue_padded n width, h, digitsValue_padded]

theorem padded_lt_iff (hn : n < 10 ^ width) (hm : m < 10 ^ width) (hw : 0 < width) :
    padded n width < padded m width ↔ n < m := by
  rw [lt_iff_digitsValue_lt (fun _ => isDigit_of_mem_padded) (fun _ => isDigit_of_mem_padded)
    (by rw [length_padded hn hw, length_padded hm hw]), digitsValue_padded, digitsValue_padded]

theorem hyphen_notMem_padded (n width : Nat) : unit '-' ∉ padded n width :=
  fun h => absurd (isDigit_of_mem_padded h) (by decide)

end Digits

section Parse

variable {n width : Nat}

theorem not_space_of_isDigit {u : Fin 65536} (h : isDigit u = true) : isSpace u = false := by
  obtain ⟨h₁, h₂⟩ := isDigit_iff.1 h
  rw [isSpace]
  generalize u.val = v at *
  interval_cases v <;> rfl

theorem padded_ne_nil : padded n width ≠ [] := by
  intro h
  have hlen : 0 < (toString n).length := by
    rw [toString, List.length_map]
    exact Nat.length_toDigits_pos
  have := congrArg List.length h
  rw [padded, padStart, List.length_append, List.length_nil] at this
  omega

theorem parseInt_padded (hn : n < 2 ^ 53) : parseInt (padded n width) = some n := by
  have hdigits : ∀ u ∈ padded n width, isDigit u = true := fun u => isDigit_of_mem_padded
  have hspace : (padded n width).dropWhile isSpace = padded n width := by
    cases hp : padded n width with
    | nil => rfl
    | cons u t =>
        have hu := not_space_of_isDigit (hdigits u (hp ▸ List.mem_cons_self))
        rw [List.dropWhile_cons_of_neg (by rw [hu]; decide)]
  have hsign : (padded n width).head? ≠ some (unit '+') := fun h =>
    absurd (hdigits _ (List.mem_of_mem_head? h)) (by decide)
  have htake : (padded n width).takeWhile isDigit = padded n width :=
    List.takeWhile_eq_self_iff.2 hdigits
  simp only [parseInt, hspace, if_neg hsign, htake, if_neg padded_ne_nil, digitsValue_padded,
    nearest_of_lt hn, Option.map_some, Nat.mul_div_cancel _ one_pos]

end Parse

section Order

/-- The readings that the text form has room for. -/
structure InRange (h : Stamp) : Prop where
  wallTime : h.wallTime < 10 ^ 15
  counter : h.counter < 10 ^ 8

variable {a b c : Stamp}

theorem hlcToString_eq (h : Stamp) : hlcToString h =
    padded h.wallTime 15 ++ unit '-' :: (padded h.counter 8 ++ unit '-' :: h.deviceId) := rfl

theorem hlcFromString_hlcToString (ha : InRange a) : hlcFromString (hlcToString a) = some a := by
  have hwall : a.wallTime < 2 ^ 53 := Nat.lt_trans ha.wallTime (by decide)
  have hcounter : a.counter < 2 ^ 53 := Nat.lt_trans ha.counter (by decide)
  rw [hlcFromString, hlcToString_eq,
    List.splitOn_append_cons_self_of_not_mem (hyphen_notMem_padded _ _),
    List.splitOn_append_cons_self_of_not_mem (hyphen_notMem_padded _ _)]
  cases hd : a.deviceId.splitOn (unit '-') with
  | nil => exact absurd hd (List.splitOn_ne_nil _ _)
  | cons device rest =>
      have hjoin : [unit '-'].intercalate (device :: rest) = a.deviceId := by
        rw [← hd, List.intercalate_splitOn]
      simp only [parseInt_padded hwall, parseInt_padded hcounter,
        Option.bind_eq_bind, Option.bind_some, hjoin]

theorem hlcToString_inj (h : hlcToString a = hlcToString b) : a = b := by
  obtain ⟨hwall, h⟩ := OpIdentity.append_cons_inj (hyphen_notMem_padded _ _)
    (hyphen_notMem_padded _ _) h
  obtain ⟨hcounter, hdevice⟩ := OpIdentity.append_cons_inj (hyphen_notMem_padded _ _)
    (hyphen_notMem_padded _ _) h
  obtain ⟨wall, counter, device⟩ := a
  obtain ⟨wall', counter', device'⟩ := b
  obtain rfl : wall = wall' := padded_inj hwall
  obtain rfl : counter = counter' := padded_inj hcounter
  exact congrArg _ hdevice

theorem hlcCompare_swap (a b : Stamp) : hlcCompare b a = -hlcCompare a b := by
  have hasymm : a.deviceId < b.deviceId → ¬ b.deviceId < a.deviceId := lt_asymm
  unfold hlcCompare
  split_ifs <;> first | omega | tauto

theorem hlcCompare_neg_iff : hlcCompare a b < 0 ↔ a.wallTime < b.wallTime ∨
    a.wallTime = b.wallTime ∧ (a.counter < b.counter ∨
      a.counter = b.counter ∧ a.deviceId < b.deviceId) := by
  unfold hlcCompare
  split
  · omega
  · split
    · omega
    · split
      · rename_i hw hc hd
        exact iff_of_true (by decide) (Or.inr ⟨not_not.1 hw, Or.inr ⟨not_not.1 hc, hd⟩⟩)
      · rename_i hw hc hd
        have hnot : ¬ (if b.deviceId < a.deviceId then (1 : Int) else 0) < 0 := by
          split <;> decide
        refine iff_of_false hnot fun h => ?_
        rcases h with h | ⟨-, h | ⟨-, h⟩⟩
        · exact hw (Nat.ne_of_lt h)
        · exact hc (Nat.ne_of_lt h)
        · exact hd h

theorem hlcToString_lt_iff (ha : InRange a) (hb : InRange b) :
    hlcToString a < hlcToString b ↔ hlcCompare a b < 0 := by
  have hwall : (padded a.wallTime 15).length = (padded b.wallTime 15).length := by
    rw [length_padded ha.wallTime (by decide), length_padded hb.wallTime (by decide)]
  have hcounter : (padded a.counter 8).length = (padded b.counter 8).length := by
    rw [length_padded ha.counter (by decide), length_padded hb.counter (by decide)]
  have hpad : ∀ {n m width : Nat}, padded n width = padded m width ↔ n = m := fun {n m width} =>
    ⟨padded_inj, fun h => h ▸ rfl⟩
  rw [hlcToString_eq, hlcToString_eq, append_lt_append_iff hwall, List.cons_lt_cons_self,
    append_lt_append_iff hcounter, List.cons_lt_cons_self, hpad, hpad,
    padded_lt_iff ha.wallTime hb.wallTime (by decide),
    padded_lt_iff ha.counter hb.counter (by decide), hlcCompare_neg_iff]

theorem hlcCompare_eq_zero_iff (ha : InRange a) (hb : InRange b) : hlcCompare a b = 0 ↔ a = b := by
  constructor
  · intro h
    refine hlcToString_inj (eq_of_not_lt ?_ ?_)
    · rw [hlcToString_lt_iff ha hb]
      omega
    · rw [hlcToString_lt_iff hb ha, hlcCompare_swap]
      omega
  · rintro rfl
    have := hlcCompare_swap a a
    omega

theorem hlcToString_le_iff (ha : InRange a) (hb : InRange b) :
    hlcToString a ≤ hlcToString b ↔ hlcCompare a b ≤ 0 := by
  rw [← not_lt, hlcToString_lt_iff hb ha, hlcCompare_swap]
  omega

/-- The text form can be read back, tells readings apart and keeps their order, which is total. -/
theorem hlcToString_orderCode (ha : InRange a) (hb : InRange b) (hc : InRange c) :
    hlcFromString (hlcToString a) = some a ∧
      (hlcToString a = hlcToString b → a = b) ∧
      (hlcToString a < hlcToString b ↔ hlcCompare a b < 0) ∧
      (hlcToString a = hlcToString b ↔ hlcCompare a b = 0) ∧
      (hlcToString b < hlcToString a ↔ 0 < hlcCompare a b) ∧
      hlcCompare a a = 0 ∧
      (hlcCompare a b ≤ 0 → hlcCompare b a ≤ 0 → a = b) ∧
      (hlcCompare a b ≤ 0 → hlcCompare b c ≤ 0 → hlcCompare a c ≤ 0) ∧
      (hlcCompare a b ≤ 0 ∨ hlcCompare b a ≤ 0) := by
  have hswap := hlcCompare_swap a b
  have hzero := hlcCompare_eq_zero_iff ha hb
  refine ⟨hlcFromString_hlcToString ha, hlcToString_inj, hlcToString_lt_iff ha hb, ?_, ?_, ?_, ?_,
    ?_, ?_⟩
  · rw [hzero]
    exact ⟨hlcToString_inj, congrArg _⟩
  · rw [hlcToString_lt_iff hb ha]
    omega
  · exact (hlcCompare_eq_zero_iff ha ha).2 rfl
  · intro hle hge
    exact hzero.1 (by omega)
  · rw [← hlcToString_le_iff ha hb, ← hlcToString_le_iff hb hc, ← hlcToString_le_iff ha hc]
    exact le_trans
  · omega

theorem hlcToString_orderCode_hyphens :
    let phone : Stamp := ⟨1200, 3, units "phone-a"⟩
    let tablet : Stamp := ⟨1200, 3, units "phone-b-2"⟩
    let late : Stamp := ⟨999999999999999, 99999999, []⟩
    hlcFromString (hlcToString phone) = some phone ∧
      (hlcToString phone = hlcToString tablet → phone = tablet) ∧
      (hlcToString phone < hlcToString tablet ↔ hlcCompare phone tablet < 0) ∧
      (hlcToString phone = hlcToString tablet ↔ hlcCompare phone tablet = 0) ∧
      (hlcToString tablet < hlcToString phone ↔ 0 < hlcCompare phone tablet) ∧
      hlcCompare phone phone = 0 ∧
      (hlcCompare phone tablet ≤ 0 → hlcCompare tablet phone ≤ 0 → phone = tablet) ∧
      (hlcCompare phone tablet ≤ 0 → hlcCompare tablet late ≤ 0 → hlcCompare phone late ≤ 0) ∧
      (hlcCompare phone tablet ≤ 0 ∨ hlcCompare tablet phone ≤ 0) :=
  hlcToString_orderCode ⟨by decide, by decide⟩ ⟨by decide, by decide⟩ ⟨by decide, by decide⟩

end Order

section Strings

/-- A reading whose device id is well-formed. -/
def ofHlc (h : Hlc) : Stamp := ⟨h.wallTime, h.counter, units h.deviceId⟩

theorem hlcCompare_ofHlc (a b : Hlc) : hlcCompare (ofHlc a) (ofHlc b) = Hlc.hlcCompare a b := rfl

theorem units_repr (n : Nat) : units (Nat.repr n) = toString n := by
  rw [units, Nat.toList_repr, toString]
  refine flatMap_encode fun c hc => ?_
  exact (digit_of_isDigit (Nat.isDigit_of_mem_toDigits (by decide) (by decide) hc)).1

theorem units_padStart (n width : Nat) :
    units (Hlc.padStart (Nat.repr n) width) = padded n width := by
  have hlen : (Nat.repr n).length = (toString n).length := by
    simp [toString, ← String.length_toList]
  have hzeros : ∀ k, units (String.ofList (List.replicate k '0')) = List.replicate k (unit '0') := by
    intro k
    rw [units, String.toList_ofList, flatMap_encode (fun c hc => by
      rw [List.eq_of_mem_replicate hc]; decide), List.map_replicate]
  rw [Hlc.padStart, units_append, units_repr, hzeros, hlen]
  rfl

theorem units_hlcToString (h : Hlc) : units (Hlc.hlcToString h) = hlcToString (ofHlc h) := by
  have hhyphen : units "-" = [unit '-'] := by decide
  rw [Hlc.hlcToString, units_append, units_append, units_append, units_append, units_padStart,
    units_padStart, hhyphen, hlcToString_eq]
  simp [ofHlc]

end Strings

end OpsBlobs.HlcText
