/-
# Tasks over a shared state, one atomic step at a time

A program says how a task starts and what one atomic step of a task does to the
shared state and to itself. A configuration is the shared state with the tasks
started so far; a move starts a task or lets one of them take a step, and a run
is a list of moves, so every order of steps is a run.

Three rules carry invariants over every run: `run_inv` (an invariant of one move),
`move_forall` (a fact about each task that the other tasks leave alone) and
`move_account` (an account: what the shared state records is the sum of what the
tasks hold).

Key definitions:
* `Program`, `Config`, `Move`, `Program.move`, `Program.run`
* `Program.Reaches`, `Program.Solo`: one task running while the others rest
-/
import Mathlib.Algebra.BigOperators.Group.List.Basic
import Mathlib.Algebra.Order.Monoid.Canonical.Defs
import Mathlib.Data.Nat.Notation
import Mathlib.Tactic.Abel
import Mathlib.Tactic.Common

namespace KirAi.Lib.Interleaving

/-- How a task starts, and one atomic step of a task. -/
structure Program (σ τ α β : Type) where
  start : β → τ
  step : α → σ → τ → Option (σ × τ)

structure Config (σ τ : Type) where
  shared : σ
  tasks : List τ

inductive Move (α β : Type)
  | spawn (b : β)
  | act (i : ℕ) (a : α)
deriving DecidableEq, Repr

namespace Program

variable {σ τ α β : Type} (P : Program σ τ α β)

def move (c : Config σ τ) : Move α β → Option (Config σ τ)
  | .spawn b => some { c with tasks := c.tasks ++ [P.start b] }
  | .act i a =>
    match c.tasks[i]? with
    | none => none
    | some t => (P.step a c.shared t).map fun r => ⟨r.1, c.tasks.set i r.2⟩

def run (c : Config σ τ) : List (Move α β) → Option (Config σ τ)
  | [] => some c
  | m :: ms => (P.move c m).bind fun c' => run c' ms

variable {P} {c c' c'' : Config σ τ} {m : Move α β} {ms : List (Move α β)}

/-- All a move can do: start a task at the end of the list, or replace one task
by what its step made of it. -/
theorem move_cases (h : P.move c m = some c') :
    (∃ b, m = .spawn b ∧ c' = { c with tasks := c.tasks ++ [P.start b] }) ∨
    ∃ l a t r s t', m = .act l.length a ∧ c.tasks = l ++ t :: r ∧
      P.step a c.shared t = some (s, t') ∧ c' = ⟨s, l ++ t' :: r⟩ := by
  cases m with
  | spawn b => exact .inl ⟨b, rfl, by simpa [move] using h.symm⟩
  | act i a =>
    refine .inr ?_
    simp only [move] at h
    split at h
    · cases h
    · rename_i t ht
      obtain ⟨⟨s, t'⟩, hs, rfl⟩ := Option.map_eq_some_iff.mp h
      obtain ⟨hi, rfl⟩ := List.getElem?_eq_some_iff.mp ht
      refine ⟨c.tasks.take i, a, c.tasks[i], c.tasks.drop (i + 1), s, t', ?_, ?_, hs, ?_⟩
      · rw [List.length_take, Nat.min_eq_left hi.le]
      · rw [List.getElem_cons_drop, List.take_append_drop]
      · rw [List.set_eq_take_append_cons_drop, if_pos hi]

theorem move_act {l r : List τ} {a : α} {s s' : σ} {t t' : τ} (h : P.step a s t = some (s', t')) :
    P.move ⟨s, l ++ t :: r⟩ (.act l.length a) = some ⟨s', l ++ t' :: r⟩ := by
  simp [move, h]

/-! ### Invariants -/

/-- An invariant of one move is an invariant of every run. -/
theorem run_inv {I : Config σ τ → Prop} (hm : ∀ c m c', I c → P.move c m = some c' → I c') :
    ∀ {ms : List (Move α β)} {c : Config σ τ}, I c → P.run c ms = some c' → I c'
  | [], c, hc, h => by
    obtain rfl : c = c' := by simpa [run] using h
    exact hc
  | m :: ms, c, hc, h => by
    obtain ⟨c₁, h₁, h₂⟩ := Option.bind_eq_some_iff.mp h
    exact run_inv hm (hm c m c₁ hc h₁) h₂

/-- A fact about each task: it holds of a fresh task, a task's step keeps it for
the task, and the steps of the others do too. -/
theorem move_forall {J : σ → τ → Prop} (hstart : ∀ s b, J s (P.start b))
    (hself : ∀ a s t s' t', J s t → P.step a s t = some (s', t') → J s' t')
    (hother : ∀ a s t s' t' u, J s t → P.step a s t = some (s', t') → J s u → J s' u)
    (h : P.move c m = some c') (hc : ∀ t ∈ c.tasks, J c.shared t) :
    ∀ t ∈ c'.tasks, J c'.shared t := by
  rcases move_cases h with ⟨b, -, rfl⟩ | ⟨l, a, t, r, s, t', -, ht, hs, rfl⟩
  · intro u hu
    rcases List.mem_append.mp hu with hu | hu
    · exact hc u hu
    · rw [List.mem_singleton.mp hu]
      exact hstart _ b
  · have htj : J c.shared t := hc t (by simp [ht])
    intro u hu
    rcases List.mem_append.mp hu with hu | hu
    · exact hother a _ t _ t' u htj hs (hc u (by simp [ht, hu]))
    · rcases List.mem_cons.mp hu with rfl | hu
      · exact hself a _ t _ _ htj hs
      · exact hother a _ t _ t' u htj hs (hc u (by simp [ht, hu]))

section Account

variable {M : Type} [AddCancelCommMonoid M] [PartialOrder M] [CanonicallyOrderedAdd M]

/-- What one task holds is part of what all of them hold. -/
theorem le_sum_of_mem {f : τ → M} {t : τ} {l : List τ} (h : t ∈ l) : f t ≤ (l.map f).sum := by
  obtain ⟨l₁, l₂, rfl⟩ := List.append_of_mem h
  refine le_iff_exists_add.mpr ⟨(l₁.map f).sum + (l₂.map f).sum, ?_⟩
  simp only [List.map_append, List.map_cons, List.sum_append, List.sum_cons]
  rw [add_left_comm]

/-- An account `g` of what the tasks hold by `f`: when every step changes the
account as it changes what its task holds, the account is exact after it. The
step may rely on the account covering the task. -/
theorem move_account {g : σ → M} {f : τ → M} {J : σ → τ → Prop} (hstart : ∀ b, f (P.start b) = 0)
    (hstep : ∀ a s t s' t', J s t → f t ≤ g s → P.step a s t = some (s', t') →
      g s' + f t = g s + f t')
    (h : P.move c m = some c') (hJ : ∀ t ∈ c.tasks, J c.shared t)
    (hc : g c.shared = (c.tasks.map f).sum) :
    g c'.shared = (c'.tasks.map f).sum := by
  rcases move_cases h with ⟨b, -, rfl⟩ | ⟨l, a, t, r, s, t', -, ht, hs, rfl⟩
  · simp [hc, hstart]
  · have hmem : t ∈ c.tasks := by simp [ht]
    have hle : f t ≤ g c.shared := hc ▸ le_sum_of_mem hmem
    have hg := hstep a _ t _ t' (hJ t hmem) hle hs
    rw [hc, ht] at hg
    simp only [List.map_append, List.map_cons, List.sum_append, List.sum_cons] at hg ⊢
    refine add_right_cancel (b := f t) ?_
    rw [hg]
    abel

end Account

/-! ### Building runs -/

variable (P) in
def Reaches (c c' : Config σ τ) : Prop := ∃ ms, P.run c ms = some c'

theorem Reaches.refl (c : Config σ τ) : P.Reaches c c := ⟨[], rfl⟩

theorem run_append : ∀ (ms ns : List (Move α β)) (c : Config σ τ),
    P.run c (ms ++ ns) = (P.run c ms).bind fun c' => P.run c' ns
  | [], _, _ => rfl
  | m :: ms, ns, c => by
    simp only [List.cons_append, run, run_append ms ns, Option.bind_assoc]

theorem Reaches.trans (h : P.Reaches c c') (h' : P.Reaches c' c'') : P.Reaches c c'' := by
  obtain ⟨ms, hm⟩ := h
  obtain ⟨ns, hn⟩ := h'
  exact ⟨ms ++ ns, by rw [run_append, hm, Option.bind_some, hn]⟩

theorem Reaches.spawn (c : Config σ τ) (b : β) :
    P.Reaches c { c with tasks := c.tasks ++ [P.start b] } := ⟨[.spawn b], rfl⟩

variable (P) in
/-- One task takes steps while the others rest. -/
inductive Solo : σ → τ → σ → τ → Prop
  | refl (s : σ) (t : τ) : Solo s t s t
  | step {s s₁ s' : σ} {t t₁ t' : τ} (a : α) (h : P.step a s t = some (s₁, t₁)) :
      Solo s₁ t₁ s' t' → Solo s t s' t'

theorem Solo.reaches {s s' : σ} {t t' : τ} (h : P.Solo s t s' t') (l r : List τ) :
    P.Reaches ⟨s, l ++ t :: r⟩ ⟨s', l ++ t' :: r⟩ := by
  induction h with
  | refl s t => exact Reaches.refl _
  | step a hs _ ih => exact Reaches.trans ⟨[.act l.length a], by simp [run, move_act hs]⟩ ih

end Program

end KirAi.Lib.Interleaving
