/-
# A log of times behind a window

Events are logged under the time at which they happen; at `now` the window shows those that are
younger than its length (`recent`). A log that only ever drops times in front that the window has
passed (`prune`) shows the same as the whole log, however often it was pruned before
(`prune_prune`, `prune_eq_recent`). If every event came when the window showed fewer than `limit`,
no window holds more than `limit` of them (`Limited.concat`). A window that is full stays so
until its oldest time has passed, and has room from then on (`recent_before`, `recent_after`).

Key definitions: `recent`, `prune`, `Limited`, `untilFree`.
Key theorems: `prune_prune`, `prune_eq_recent`, `Limited.concat`, `recent_before`, `recent_after`.
-/
import Mathlib.Algebra.Ring.Nat
import Mathlib.Data.List.Basic
import Mathlib.Data.List.TakeWhile
import Mathlib.Data.Nat.Notation
import Mathlib.Tactic.Common

namespace KirAi.Lib.SlidingLog

/-- The times that the window shows at `now`. -/
def recent (window now : ℕ) (log : List ℕ) : List ℕ := log.filter fun t => now - t < window

/-- The log without the times in front that the window has passed. -/
def prune (window now : ℕ) (log : List ℕ) : List ℕ := log.dropWhile fun t => window ≤ now - t

/-- The time until the oldest of some times is behind the window. -/
def untilFree (window now : ℕ) (log : List ℕ) : ℕ :=
  (log.head?.map fun t => window - (now - t)).getD 0

/-- No window holds more than `limit` times. -/
def Limited (limit window : ℕ) (log : List ℕ) : Prop :=
  ∀ x, (log.filter fun t => t ≤ x ∧ x < t + window).length ≤ limit

variable {limit window now now' t : ℕ} {log : List ℕ}

/-- An earlier pruning does not matter. -/
theorem prune_prune (h : now ≤ now') :
    ∀ log : List ℕ, prune window now' (prune window now log) = prune window now' log
  | [] => rfl
  | t :: log => by
    unfold prune
    by_cases hold : window ≤ now - t
    · have hold' : window ≤ now' - t := by omega
      rw [List.dropWhile_cons_of_pos (by simpa using hold),
        List.dropWhile_cons_of_pos (by simpa using hold')]
      exact prune_prune h log
    · rw [List.dropWhile_cons_of_neg (by simpa using hold)]

/-- The present stays in the log. -/
theorem prune_concat_now (hw : 0 < window) :
    ∀ log : List ℕ, prune window now (log ++ [now]) = prune window now log ++ [now]
  | [] => by
    unfold prune
    rw [List.nil_append, List.dropWhile_cons_of_neg (by simp; omega)]
    rfl
  | t :: log => by
    have ih := prune_concat_now hw log
    unfold prune at ih ⊢
    rw [List.cons_append]
    by_cases hold : window ≤ now - t
    · rw [List.dropWhile_cons_of_pos (by simpa using hold),
        List.dropWhile_cons_of_pos (by simpa using hold), ih]
    · rw [List.dropWhile_cons_of_neg (by simpa using hold),
        List.dropWhile_cons_of_neg (by simpa using hold), List.cons_append]

/-- A time that the window still shows stays, with all behind it. -/
theorem prune_keeps (hw : 0 < window) (hin : now < t + window) (behind : List ℕ) :
    ∀ front : List ℕ, ∃ front', prune window now (front ++ t :: behind) = front' ++ t :: behind
  | [] => by
    refine ⟨[], ?_⟩
    unfold prune
    rw [List.nil_append, List.dropWhile_cons_of_neg (by simp; omega)]
  | t' :: front => by
    unfold prune
    by_cases hold : window ≤ now - t'
    · rw [List.cons_append, List.dropWhile_cons_of_pos (by simpa using hold)]
      exact prune_keeps hw hin behind front
    · rw [List.cons_append, List.dropWhile_cons_of_neg (by simpa using hold)]
      exact ⟨t' :: front, rfl⟩

theorem prune_sublist (window now : ℕ) (log : List ℕ) : (prune window now log).Sublist log :=
  List.dropWhile_sublist _

/-- The oldest time that is left is in the window. -/
theorem prune_head {more : List ℕ} (h : prune window now log = t :: more) : now - t < window := by
  have hhead := List.head?_dropWhile_not (fun t => decide (window ≤ now - t)) log
  unfold prune at h
  rw [h] at hhead
  simpa using hhead

/-- The pruned log of ordered times is what the window shows. -/
theorem prune_eq_recent :
    ∀ {log : List ℕ}, log.Pairwise (· ≤ ·) → prune window now log = recent window now log
  | [], _ => rfl
  | t :: log, h => by
    obtain ⟨hle, hlog⟩ := List.pairwise_cons.1 h
    unfold prune recent
    by_cases hold : window ≤ now - t
    · rw [List.dropWhile_cons_of_pos (by simpa using hold),
        List.filter_cons_of_neg (by simpa using hold)]
      exact prune_eq_recent hlog
    · have hall : ∀ t' ∈ t :: log, decide (now - t' < window) = true := by
        intro t' ht'
        rcases List.mem_cons.1 ht' with rfl | hmem
        · simpa using hold
        · have := hle t' hmem
          simp only [decide_eq_true_eq]
          omega
      rw [List.dropWhile_cons_of_neg (by simpa using hold), List.filter_eq_self.2 hall]

theorem limited_nil : Limited limit window [] := fun _ => Nat.zero_le _

/-- An event that comes when the window has room keeps all windows within the limit. -/
theorem Limited.concat (h : Limited limit window log)
    (hroom : (recent window now log).length < limit) : Limited limit window (log ++ [now]) := by
  intro x
  have hx := h x
  rw [List.filter_append, List.length_append]
  by_cases hin : now ≤ x ∧ x < now + window
  · -- what stands in this window was also shown at `now`
    have hle : (log.filter fun t => t ≤ x ∧ x < t + window).length ≤
        (recent window now log).length := by
      refine (List.monotone_filter_right log fun t ht => ?_).length_le
      simp only [decide_eq_true_eq] at ht ⊢
      omega
    rw [List.filter_cons_of_pos (by simpa using hin)]
    simp only [List.filter_nil, List.length_singleton]
    omega
  · rw [List.filter_cons_of_neg (by simpa using hin)]
    simpa using hx

/-- At the present the window holds no more than the limit. -/
theorem Limited.recent_le (h : Limited limit window log) (hlog : ∀ t ∈ log, t ≤ now) :
    (recent window now log).length ≤ limit := by
  have hsame : recent window now log = log.filter fun t => t ≤ now ∧ now < t + window := by
    refine List.filter_congr fun t ht => ?_
    have := hlog t ht
    simp only [decide_eq_decide]
    omega
  rw [hsame]
  exact h now

section Oldest

variable {oldest : ℕ} {rest : List ℕ}

/-- Until the oldest time is behind the window, the window shows what it showed. -/
theorem recent_before (hs : log.Pairwise (· ≤ ·)) (hrecent : recent window now log = oldest :: rest)
    (hle : now ≤ now') (hbefore : now' < oldest + window) :
    recent window now' log = recent window now log := by
  unfold recent at hrecent ⊢
  refine List.filter_congr fun t ht => ?_
  simp only [decide_eq_decide]
  constructor
  · omega
  · intro hnow
    -- a time shown at `now` is not older than the oldest
    have hmem : t ∈ oldest :: rest := by
      rw [← hrecent]
      exact List.mem_filter.2 ⟨ht, by simpa using hnow⟩
    have hord : (oldest :: rest).Pairwise (· ≤ ·) := by
      rw [← hrecent]
      exact hs.filter _
    have hold : oldest ≤ t := by
      rcases List.mem_cons.1 hmem with rfl | hrest
      · exact le_rfl
      · exact (List.pairwise_cons.1 hord).1 t hrest
    omega

/-- From then on it shows less. -/
theorem recent_after (hrecent : recent window now log = oldest :: rest)
    (hle : now ≤ now') (hafter : oldest + window ≤ now') :
    (recent window now' log).length < (recent window now log).length := by
  have hsub : (recent window now' log).Sublist (recent window now log) := by
    refine List.monotone_filter_right log fun t ht => ?_
    simp only [decide_eq_true_eq] at ht ⊢
    omega
  refine lt_of_le_of_ne hsub.length_le fun heq => ?_
  have hmem : oldest ∈ recent window now' log := by
    rw [hsub.eq_of_length heq, hrecent]
    exact List.mem_cons_self
  have hin := (List.mem_filter.1 hmem).2
  simp only [decide_eq_true_eq] at hin
  omega

end Oldest

end KirAi.Lib.SlidingLog
