/-
# Computations that may panic

A machine's operation on numbers or on a list can have no answer at all: a
difference below zero, an index past the end. A run of such operations stops with
an error it returns or with a panic. A run that panics nowhere is the computation
without the panics (`returning`), and that is shown operation by operation
(`sub_of_le`, `index_of_lt`, `returning_bind`).
-/
import KirAi.Lib.Except

namespace KirAi.Lib

/-- How a run ends that has no answer. -/
inductive Stop (ε : Type) where
  | error (e : ε)
  | panic

variable {ε α β : Type}

/-- A computation that never panics. -/
def returning : Except ε α → Except (Stop ε) α
  | .ok a => .ok a
  | .error e => .error (.error e)

/-- `a - b` on unsigned numbers. -/
def subOrPanic (a b : ℕ) : Except (Stop ε) ℕ := if b ≤ a then pure (a - b) else throw .panic

/-- `l[i]` -/
def indexOrPanic (l : List α) (i : ℕ) : Except (Stop ε) α :=
  match l[i]? with
  | some a => pure a
  | none => throw .panic

theorem subOrPanic_of_le {a b : ℕ} (h : b ≤ a) :
    (subOrPanic a b : Except (Stop ε) ℕ) = .ok (a - b) := if_pos h

theorem indexOrPanic_of_some {l : List α} {i : ℕ} {a : α} (h : l[i]? = some a) :
    (indexOrPanic l i : Except (Stop ε) α) = .ok a := by
  rw [indexOrPanic, h]
  rfl

@[simp] theorem returning_ok (a : α) : (returning (.ok a) : Except (Stop ε) α) = .ok a := rfl

@[simp] theorem returning_pure (a : α) : (returning (pure a) : Except (Stop ε) α) = pure a := rfl

@[simp] theorem returning_throw (e : ε) :
    (returning (throw e) : Except (Stop ε) α) = throw (.error e) := rfl

theorem returning_bind (x : Except ε α) (f : α → Except ε β) :
    returning (x >>= f) = returning x >>= fun a => returning (f a) := by
  cases x with
  | error e => rfl
  | ok a => rfl

theorem returning_mapM (f : α → Except ε β) : ∀ as : List α,
    returning (as.mapM f) = as.mapM fun a => returning (f a)
  | [] => rfl
  | a :: as => by
    rw [List.mapM_cons, List.mapM_cons, returning_bind]
    refine congrArg _ (funext fun b => ?_)
    rw [returning_bind, returning_mapM f as]
    rfl

theorem returning_eq_ok {x : Except ε α} {a : α} : returning x = .ok a ↔ x = .ok a := by
  cases x with
  | error e => simp [returning]
  | ok b => simp

theorem returning_ne_panic (x : Except ε α) : returning x ≠ .error .panic := by
  cases x with
  | error e => exact fun h => by cases h
  | ok a => exact fun h => by cases h

end KirAi.Lib
