/-
# Positions in a ring

Slot `(start + i) % cap` is the `i`-th slot from `start` on in a ring of `cap`
slots. Up to `cap` steps wrap at most once (`ringSlot_eq`), fewer than `cap`
steps reach each slot once (`ringSlot_inj`), and moving the start by one is
taking one step more (`ringSlot_succ_start`).
-/
import Mathlib.Data.Nat.Notation
import Mathlib.Tactic.Common

namespace KirAi.Lib

/-- The `i`-th slot from `start` on. -/
def ringSlot (start i cap : ℕ) : ℕ := (start + i) % cap

variable {start i j cap : ℕ}

theorem ringSlot_lt (h : 0 < cap) : ringSlot start i cap < cap := Nat.mod_lt _ h

theorem ringSlot_eq (hs : start < cap) (hi : i ≤ cap) :
    ringSlot start i cap = if start + i < cap then start + i else start + i - cap := by
  unfold ringSlot
  split
  · exact Nat.mod_eq_of_lt ‹_›
  · rw [Nat.mod_eq_sub_mod (by omega)]
    exact Nat.mod_eq_of_lt (by omega)

theorem ringSlot_zero_start (hi : i < cap) : ringSlot 0 i cap = i := by
  rw [ringSlot, Nat.zero_add, Nat.mod_eq_of_lt hi]

theorem ringSlot_inj (hs : start < cap) (hi : i < cap) (hj : j < cap)
    (h : ringSlot start i cap = ringSlot start j cap) : i = j := by
  rw [ringSlot_eq hs (Nat.le_of_lt hi), ringSlot_eq hs (Nat.le_of_lt hj)] at h
  split at h <;> split at h <;> omega

/-- Starting one slot later is one step more. -/
theorem ringSlot_succ_start : ringSlot ((start + 1) % cap) i cap = ringSlot start (i + 1) cap := by
  rw [ringSlot, ringSlot, Nat.mod_add_mod]
  congr 1
  omega

/-- One round leads back to the start. -/
theorem ringSlot_cap (hs : start < cap) : ringSlot start cap cap = start := by
  rw [ringSlot, Nat.add_mod_right, Nat.mod_eq_of_lt hs]

end KirAi.Lib
