/-
# A notification without a permit

A notifier hands out subscriptions (`notified`) and wakes every subscription that
exists (`notifyWaiters`). It keeps no permit for later: a subscription completes
exactly when `notifyWaiters` was called after it was handed out.

Key definitions:
* `Api`: the operations with that law
* `Api.Issued`: a subscription that the notifier handed out at some time before
-/
import Mathlib.Data.Nat.SuccPred
import Mathlib.Logic.Function.Iterate
import Mathlib.Tactic.Common

namespace KirAi.Lib.Notify

structure Api where
  State : Type
  Notified : Type
  new : State
  notified : State → Notified
  notifyWaiters : State → State
  isReady : State → Notified → Bool
  isReady_iff : ∀ s k, isReady (notifyWaiters^[k] s) (notified s) = true ↔ 0 < k

namespace Api

variable {N : Api} {s : N.State} {n : N.Notified}

variable (N) in
/-- `n` was handed out before, with any number of calls since. -/
def Issued (s : N.State) (n : N.Notified) : Prop :=
  ∃ s₀ k, s = N.notifyWaiters^[k] s₀ ∧ n = N.notified s₀

theorem issued_notified (s : N.State) : N.Issued s (N.notified s) := ⟨s, 0, rfl, rfl⟩

theorem Issued.notifyWaiters (h : N.Issued s n) : N.Issued (N.notifyWaiters s) n := by
  obtain ⟨s₀, k, rfl, rfl⟩ := h
  exact ⟨s₀, k + 1, (Function.iterate_succ_apply' _ _ _).symm, rfl⟩

/-- A call wakes every subscription. -/
theorem Issued.isReady (h : N.Issued s n) : N.isReady (N.notifyWaiters s) n = true := by
  obtain ⟨s₀, k, rfl, rfl⟩ := h
  rw [← Function.iterate_succ_apply' N.notifyWaiters k s₀]
  exact (N.isReady_iff s₀ (k + 1)).mpr k.succ_pos

/-- A subscription just handed out waits. -/
theorem isReady_notified (s : N.State) : N.isReady s (N.notified s) = false :=
  Bool.eq_false_iff.mpr fun h => absurd ((N.isReady_iff s 0).mp h) (Nat.lt_irrefl 0)

/-- The notifier that counts its calls. -/
@[reducible]
def counting : Api where
  State := ℕ
  Notified := ℕ
  new := 0
  notified s := s
  notifyWaiters := Nat.succ
  isReady s n := decide (s ≠ n)
  isReady_iff s k := by
    rw [decide_eq_true_iff, Nat.succ_iterate]
    omega

end Api

end KirAi.Lib.Notify
