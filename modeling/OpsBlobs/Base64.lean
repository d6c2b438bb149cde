import Mathlib.Data.List.Basic

namespace OpsBlobs.Base64

def alphabet : List Char :=
  "ABCDEFGHIJKLMNOPQRSTUVWXYZabcdefghijklmnopqrstuvwxyz0123456789+/".toList

def digit (n : Nat) : Char := alphabet.getD n 'A'

def value (c : Char) : Option Nat := alphabet.idxOf? c

/-- Six bits at a time; the last bytes are filled up with zero bits. -/
def sextets : List UInt8 → List Nat
  | a :: b :: c :: rest =>
      a.toNat / 4 :: (a.toNat % 4 * 16 + b.toNat / 16) :: (b.toNat % 16 * 4 + c.toNat / 64) ::
        c.toNat % 64 :: sextets rest
  | [a, b] => [a.toNat / 4, a.toNat % 4 * 16 + b.toNat / 16, b.toNat % 16 * 4]
  | [a] => [a.toNat / 4, a.toNat % 4 * 16]
  | [] => []

/-- Eight bits at a time; the bits that fill up the last bytes are discarded. -/
def octets : List Nat → Option (List UInt8)
  | w :: x :: y :: z :: rest =>
      (octets rest).map fun bytes =>
        UInt8.ofNat (w * 4 + x / 16) :: UInt8.ofNat (x % 16 * 16 + y / 4) ::
          UInt8.ofNat (y % 4 * 64 + z) :: bytes
  | [w, x, y] => some [UInt8.ofNat (w * 4 + x / 16), UInt8.ofNat (x % 16 * 16 + y / 4)]
  | [w, x] => some [UInt8.ofNat (w * 4 + x / 16)]
  | [_] => none
  | [] => some []

def pad (t : List Char) : List Char := t ++ List.replicate ((4 - t.length % 4) % 4) '='

/-- Up to two padding characters come off a text of whole groups. -/
def unpad (t : List Char) : List Char :=
  if t.length % 4 = 0 ∧ t.getLast? = some '=' then
    if t.dropLast.getLast? = some '=' then t.dropLast.dropLast else t.dropLast
  else t

def isSpace (c : Char) : Bool := c ∈ [' ', '\t', '\n', '\x0c', '\r']

def btoa (bytes : List UInt8) : List Char := pad ((sextets bytes).map digit)

/-- None for a text that no bytes are decoded from. -/
def atob (t : List Char) : Option (List UInt8) :=
  ((unpad (t.filter (fun c => !isSpace c))).mapM value).bind octets

theorem digits (n : Nat) (h : n < 64) :
    value (digit n) = some n ∧ digit n ≠ '=' ∧ isSpace (digit n) = false := by
  have hall : ∀ n ∈ List.range 64,
      value (digit n) = some n ∧ digit n ≠ '=' ∧ isSpace (digit n) = false := by decide
  exact hall n (List.mem_range.2 h)

theorem lt_of_mem_sextets {bytes : List UInt8} {n : Nat} (h : n ∈ sextets bytes) : n < 64 := by
  induction bytes using sextets.induct with
  | case1 a b c rest ih =>
      have ha := a.toNat_lt
      have hb := b.toNat_lt
      have hc := c.toNat_lt
      simp only [sextets, List.mem_cons] at h
      rcases h with rfl | rfl | rfl | rfl | h
      · omega
      · omega
      · omega
      · omega
      · exact ih h
  | case2 a b =>
      have ha := a.toNat_lt
      have hb := b.toNat_lt
      simp only [sextets, List.mem_cons, List.not_mem_nil, or_false] at h
      omega
  | case3 a =>
      have ha := a.toNat_lt
      simp only [sextets, List.mem_cons, List.not_mem_nil, or_false] at h
      omega
  | case4 => exact absurd h List.not_mem_nil

theorem length_sextets (bytes : List UInt8) : (sextets bytes).length % 4 ≠ 1 := by
  induction bytes using sextets.induct with
  | case1 a b c rest ih =>
      simp only [sextets, List.length_cons]
      omega
  | case2 a b => simp [sextets]
  | case3 a => simp [sextets]
  | case4 => simp [sextets]

theorem octet_eq {n : Nat} {a : UInt8} (h : n = a.toNat) : UInt8.ofNat n = a := by
  rw [h, UInt8.ofNat_toNat]

theorem octets_sextets (bytes : List UInt8) : octets (sextets bytes) = some bytes := by
  induction bytes using sextets.induct with
  | case1 a b c rest ih =>
      have ha := a.toNat_lt
      have hb := b.toNat_lt
      have hc := c.toNat_lt
      rw [sextets, octets, ih, Option.map_some]
      congr 2
      · exact octet_eq (by omega)
      · congr 1
        · exact octet_eq (by omega)
        · congr 1
          exact octet_eq (by omega)
  | case2 a b =>
      have ha := a.toNat_lt
      have hb := b.toNat_lt
      rw [sextets, octets]
      congr 2
      · exact octet_eq (by omega)
      · congr 1
        exact octet_eq (by omega)
  | case3 a =>
      have ha := a.toNat_lt
      rw [sextets, octets]
      congr 2
      exact octet_eq (by omega)
  | case4 => rfl

theorem values_digits {l : List Nat} (h : ∀ n ∈ l, n < 64) : (l.map digit).mapM value = some l := by
  induction l with
  | nil => rfl
  | cons n l ih =>
      rw [List.map_cons, List.mapM_cons, (digits n (h n List.mem_cons_self)).1,
        ih fun m hm => h m (List.mem_cons_of_mem _ hm)]
      rfl

theorem unpad_pad {t : List Char} (h : '=' ∉ t) (hlen : t.length % 4 ≠ 1) : unpad (pad t) = t := by
  have hlast : t.getLast? ≠ some '=' := fun hl => h (List.mem_of_getLast? hl)
  have hcases : t.length % 4 = 0 ∨ t.length % 4 = 2 ∨ t.length % 4 = 3 := by omega
  rcases hcases with h0 | h2 | h3
  · have hpad : pad t = t := by simp [pad, h0]
    rw [hpad, unpad, if_neg fun hp => hlast hp.2]
  · have hpad : pad t = (t ++ ['=']) ++ ['='] := by simp [pad, h2]
    have hwhole : ((t ++ ['=']) ++ ['=']).length % 4 = 0 := by
      simp only [List.length_append, List.length_singleton]
      omega
    rw [hpad, unpad, if_pos ⟨hwhole, List.getLast?_concat⟩, List.dropLast_concat,
      if_pos List.getLast?_concat, List.dropLast_concat]
  · have hpad : pad t = t ++ ['='] := by simp [pad, h3]
    have hwhole : (t ++ ['=']).length % 4 = 0 := by
      simp only [List.length_append, List.length_singleton]
      omega
    rw [hpad, unpad, if_pos ⟨hwhole, List.getLast?_concat⟩, List.dropLast_concat, if_neg hlast]

theorem atob_btoa (bytes : List UInt8) : atob (btoa bytes) = some bytes := by
  have hdigit : ∀ c ∈ (sextets bytes).map digit, c ≠ '=' ∧ isSpace c = false := by
    intro c hc
    obtain ⟨n, hn, rfl⟩ := List.mem_map.1 hc
    exact (digits n (lt_of_mem_sextets hn)).2
  have hspace : (btoa bytes).filter (fun c => !isSpace c) = btoa bytes := by
    rw [List.filter_eq_self]
    intro c hc
    rcases List.mem_append.1 hc with hc | hc
    · simp [(hdigit c hc).2]
    · rw [(List.mem_replicate.1 hc).2]
      decide
  have hpad : unpad (btoa bytes) = (sextets bytes).map digit := by
    apply unpad_pad
    · exact fun h => (hdigit '=' h).1 rfl
    · rw [List.length_map]
      exact length_sextets bytes
  rw [atob, hspace, hpad, values_digits fun n hn => lt_of_mem_sextets hn, Option.bind_some,
    octets_sextets]

example : btoa [79, 112, 115, 33] = "T3BzIQ==".toList := by decide

end OpsBlobs.Base64
