/-
# The total order of floats

`f32::total_cmp`: the bits as a signed word, with the magnitude bits of a
negative one flipped. It tells `-0.0` from `0.0` and puts every NaN somewhere, so
it is a linear order of the bit patterns.

The other comparisons are those of IEEE: zeros are equal, and a NaN is in none.
Scores are ranked the greatest first, the first index first among equals.

Key definitions: `F32.totalKey`, `totalCmp`, `F32.le`, `rankCmp`, `rankKey`.
Key theorems: `totalCmp_lt`, `rankCmp_lt`.
-/
import KirAi.KvCache.Basic
import Mathlib.Data.Prod.Lex
import Mathlib.Order.Basic
import Mathlib.Order.Lattice

namespace KirAi.KvCache

/-- The signed word that `total_cmp` compares. -/
def F32.totalKey (x : F32) : ℤ :=
  if x.bits.toNat < 2 ^ 31 then x.bits.toNat else -1 - (x.bits.toNat - 2 ^ 31 : ℕ)

theorem F32.totalKey_injective : Function.Injective F32.totalKey := by
  intro x y h
  have hbits : x.bits.toNat = y.bits.toNat := by
    unfold F32.totalKey at h
    split at h <;> split at h <;> omega
  obtain ⟨x⟩ := x
  obtain ⟨y⟩ := y
  exact congrArg F32.mk (BitVec.eq_of_toNat_eq hbits)

instance : LinearOrder F32 := LinearOrder.lift' F32.totalKey F32.totalKey_injective

def totalCmp (x y : F32) : Ordering := compare x.totalKey y.totalKey

theorem totalCmp_lt {x y : F32} : totalCmp x y = .lt ↔ x < y := compare_lt_iff_lt

theorem totalCmp_eq {x y : F32} : totalCmp x y = .eq ↔ x = y :=
  compare_eq_iff_eq.trans F32.totalKey_injective.eq_iff

/-! ### The other comparisons -/

namespace F32

def isNan (x : F32) : Bool := !x.isFinite && x.bits.toNat % 2 ^ 23 ≠ 0

/-- The order of the values that are not NaN: `-0.0` is `0.0`. -/
def valueKey (x : F32) : ℤ := if x.totalKey = -1 then 0 else x.totalKey

/-- `x <= y` -/
def le (x y : F32) : Bool := !x.isNan && !y.isNan && x.valueKey ≤ y.valueKey

/-- `x < y` -/
def lt (x y : F32) : Bool := !x.isNan && !y.isNan && x.valueKey < y.valueKey

def one : F32 := ⟨0x3f800000⟩

end F32

/-! ### Ranks -/

def rankCmp (x y : F32) (i j : ℕ) : Ordering := (totalCmp y x).then (compare i j)

/-- The greatest score first, then the first index. -/
def rankKey (x : F32) (i : ℕ) : F32ᵒᵈ ×ₗ ℕ := toLex (OrderDual.toDual x, i)

theorem rankKey_inj {x y : F32} {i j : ℕ} (h : rankKey x i = rankKey y j) : x = y ∧ i = j := by
  obtain ⟨hx, hi⟩ := Prod.mk.inj (toLex.injective h)
  exact ⟨OrderDual.toDual_inj.mp hx, hi⟩

/-- Ranks compare as their keys do. -/
theorem rankCmp_lt {x y : F32} {i j : ℕ} : rankCmp x y i j = .lt ↔ rankKey x i < rankKey y j := by
  rw [rankCmp, Ordering.then_eq_lt, totalCmp_lt, totalCmp_eq, compare_lt_iff_lt, rankKey, rankKey,
    Prod.Lex.toLex_lt_toLex, OrderDual.toDual_lt_toDual, OrderDual.toDual_inj]
  simp only [eq_comm]

end KirAi.KvCache
