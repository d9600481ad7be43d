/-
# Fields of bits in a list of bytes

Bit `n` of a list of bytes is bit `n % 8` of byte `n / 8`, and field `i` of width `w` is the
number whose bits are those from `i * w` on, wherever the borders of the bytes are. Setting
a bit changes that bit only (`bitAt_set`), and two bits of different fields are different
(`field_bit_inj`).

Key definitions: `bitAt`, `field`.
Key theorems: `bitAt_set`, `field_eq`.
-/
import Mathlib.Data.Nat.Bitwise
import Mathlib.Data.Nat.Notation
import Mathlib.Order.Basic
import Mathlib.Tactic.Common

namespace KirAi.Lib.Bits

/-- Bit `n`; there is none past the end. -/
def bitAt (bytes : List (BitVec 8)) (n : ℕ) : Bool :=
  ((bytes[n / 8]?).map fun byte => byte.getLsbD (n % 8)).getD false

/-- The number that the bits of field `i` of width `w` make. -/
def field (bytes : List (BitVec 8)) (w i : ℕ) : ℕ :=
  Nat.ofBits fun c : Fin w => bitAt bytes (i * w + c)

theorem bitAt_replicate (k n : ℕ) : bitAt (List.replicate k 0) n = false := by
  unfold bitAt
  cases h : (List.replicate k (0 : BitVec 8))[n / 8]? with
  | none => rfl
  | some byte =>
    obtain rfl := List.eq_of_mem_replicate (List.mem_of_getElem? h)
    simp

theorem getLsbD_or_one_shiftLeft (byte : BitVec 8) {k j : ℕ} (hk : k < 8) (hj : j < 8) :
    (byte ||| 1#8 <<< k).getLsbD j = (decide (j = k) || byte.getLsbD j) := by
  rw [BitVec.getLsbD_or, BitVec.getLsbD_shiftLeft, BitVec.getLsbD_one, Bool.or_comm]
  congr 1
  rcases lt_trichotomy j k with hlt | rfl | hgt
  · simp [hlt, hlt.ne]
  · simp [hj]
  · have hne : j - k ≠ 0 := by omega
    simp [hgt.ne', hne]

/-- One bit is set, the others stay. -/
theorem bitAt_set {bytes : List (BitVec 8)} {byte : BitVec 8} {n : ℕ}
    (h : bytes[n / 8]? = some byte) (m : ℕ) :
    bitAt (bytes.set (n / 8) (byte ||| 1#8 <<< (n % 8))) m = (decide (m = n) || bitAt bytes m) := by
  have hlt : n / 8 < bytes.length := (List.getElem?_eq_some_iff.1 h).1
  unfold bitAt
  by_cases hbyte : n / 8 = m / 8
  · have hmod : (m % 8 = n % 8) ↔ m = n := by omega
    rw [← hbyte, List.getElem?_set_self hlt, h, Option.map_some, Option.map_some, Option.getD_some,
      Option.getD_some, getLsbD_or_one_shiftLeft byte (by omega) (by omega)]
    simp only [hmod]
  · have hne : m ≠ n := by
      rintro rfl
      exact hbyte rfl
    rw [List.getElem?_set_ne hbyte]
    simp [hne]

theorem field_bit_inj {w i j c d : ℕ} (hc : c < w) (hd : d < w) (h : i * w + c = j * w + d) :
    i = j ∧ c = d := by
  have hw : 0 < w := by omega
  have hi : (i * w + c) / w = i := by
    rw [Nat.mul_comm, Nat.mul_add_div hw, Nat.div_eq_of_lt hc, Nat.add_zero]
  have hj : (j * w + d) / w = j := by
    rw [Nat.mul_comm, Nat.mul_add_div hw, Nat.div_eq_of_lt hd, Nat.add_zero]
  have hij : i = j := by rw [← hi, h, hj]
  subst hij
  exact ⟨rfl, by omega⟩

theorem testBit_field (bytes : List (BitVec 8)) (w i c : ℕ) :
    (field bytes w i).testBit c = (decide (c < w) && bitAt bytes (i * w + c)) := by
  rcases Nat.lt_or_ge c w with hc | hc
  · rw [field, Nat.testBit_ofBits_lt _ _ hc]
    simp [hc]
  · rw [field, Nat.testBit_ofBits_ge _ _ hc]
    simp [Nat.not_lt.2 hc]

/-- A field is known by its bits. -/
theorem field_eq {bytes : List (BitVec 8)} {w i a : ℕ} (hlt : a < 2 ^ w)
    (h : ∀ c, c < w → bitAt bytes (i * w + c) = a.testBit c) : field bytes w i = a := by
  refine Nat.eq_of_testBit_eq fun c => ?_
  rw [testBit_field]
  rcases Nat.lt_or_ge c w with hc | hc
  · simp [hc, h c hc]
  · have hpow : 2 ^ w ≤ 2 ^ c := Nat.pow_le_pow_right (by omega) hc
    rw [Nat.testBit_lt_two_pow (by omega)]
    simp [Nat.not_lt.2 hc]

end KirAi.Lib.Bits
