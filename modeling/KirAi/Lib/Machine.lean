/-
# Sixty-four bit counters over the naturals

`checkedAdd`, `checkedMul` and `satAdd` are the checked and saturating
operations of an unsigned 64-bit word, on its value as a natural number. A
checked operation answers `none` past the largest word, a saturating one stays
there.
-/
import Mathlib.Algebra.Ring.Nat
import Mathlib.Data.Nat.Notation
import Mathlib.Tactic.Common

namespace KirAi.Lib

/-- The largest value of an unsigned 64-bit word. -/
def wordMax : ℕ := 2 ^ 64 - 1

def checkedAdd (a b : ℕ) : Option ℕ := if a + b ≤ wordMax then some (a + b) else none

def checkedMul (a b : ℕ) : Option ℕ := if a * b ≤ wordMax then some (a * b) else none

def satAdd (a b : ℕ) : ℕ := min (a + b) wordMax

theorem checkedAdd_eq_some {a b c : ℕ} : checkedAdd a b = some c ↔ a + b ≤ wordMax ∧ c = a + b := by
  unfold checkedAdd
  split
  case isTrue h => simp only [Option.some.injEq, eq_comm, h, true_and]
  case isFalse h => simp only [reduceCtorEq, h, false_and]

theorem checkedMul_eq_some {a b c : ℕ} : checkedMul a b = some c ↔ a * b ≤ wordMax ∧ c = a * b := by
  unfold checkedMul
  split
  case isTrue h => simp only [Option.some.injEq, eq_comm, h, true_and]
  case isFalse h => simp only [reduceCtorEq, h, false_and]

theorem checkedAdd_of_le {a b : ℕ} (h : a + b ≤ wordMax) : checkedAdd a b = some (a + b) :=
  checkedAdd_eq_some.mpr ⟨h, rfl⟩

theorem checkedMul_of_le {a b : ℕ} (h : a * b ≤ wordMax) : checkedMul a b = some (a * b) :=
  checkedMul_eq_some.mpr ⟨h, rfl⟩

theorem satAdd_of_le {a b : ℕ} (h : a + b ≤ wordMax) : satAdd a b = a + b := Nat.min_eq_left h

end KirAi.Lib
