/-
# Lists without their gaps

The elements of a list that satisfy a predicate, moved together: each goes from its
position to its rank among the elements that stay (`kept`). No element changes its
position just if nothing before a kept element was dropped (`Dense`), and that is so just
if at each of the first positions, as many as there are elements that stay, one of them
stands (`dense_iff`).

Key definitions: `kept`, `Dense`.
Key theorems: `kept_of_dense`, `dense_iff`.
-/
import Mathlib.Data.Nat.Notation
import Mathlib.Tactic.Common

namespace KirAi.Lib

variable {α : Type} (p : α → Bool)

/-- The elements that satisfy `p`, with their positions; the first one stands at `i`. -/
def kept : ℕ → List α → List (ℕ × α)
  | _, [] => []
  | i, a :: as => if p a then (i, a) :: kept (i + 1) as else kept (i + 1) as

/-- Before an element that stays all elements stay. -/
def Dense (as : List α) : Prop :=
  ∀ (i j : ℕ) (b : α), i < j → as[j]? = some b → p b = true → ∃ a, as[i]? = some a ∧ p a = true

variable {p}

theorem mem_kept : ∀ {as : List α} {i : ℕ} {e : ℕ × α}, e ∈ kept p i as →
    i ≤ e.1 ∧ as[e.1 - i]? = some e.2 ∧ p e.2 = true
  | [], _, _, h => by cases h
  | a :: as, i, e, h => by
    rw [kept] at h
    by_cases ha : p a = true
    · rw [if_pos ha] at h
      rcases List.mem_cons.1 h with rfl | h
      · exact ⟨Nat.le_refl i, by simp, ha⟩
      · obtain ⟨hle, hget, hp⟩ := mem_kept h
        refine ⟨by omega, ?_, hp⟩
        rw [show e.1 - i = (e.1 - (i + 1)) + 1 by omega, List.getElem?_cons_succ]
        exact hget
    · rw [if_neg ha] at h
      obtain ⟨hle, hget, hp⟩ := mem_kept h
      refine ⟨by omega, ?_, hp⟩
      rw [show e.1 - i = (e.1 - (i + 1)) + 1 by omega, List.getElem?_cons_succ]
      exact hget

theorem kept_eq_nil : ∀ {as : List α} {i : ℕ}, (∀ a ∈ as, p a = false) → kept p i as = []
  | [], _, _ => rfl
  | a :: as, i, h => by
    rw [kept, if_neg (by rw [h a (List.mem_cons_self ..)]; decide)]
    exact kept_eq_nil fun b hb => h b (List.mem_cons_of_mem _ hb)

theorem kept_ne_nil {b : α} (hp : p b = true) : ∀ {as : List α} {i : ℕ}, b ∈ as → kept p i as ≠ []
  | a :: as, i, h => by
    rw [kept]
    by_cases ha : p a = true
    · rw [if_pos ha]
      exact List.cons_ne_nil _ _
    · rw [if_neg ha]
      rcases List.mem_cons.1 h with rfl | h
      · exact absurd hp ha
      · exact kept_ne_nil hp h

theorem Dense.tail {a : α} {as : List α} (h : Dense p (a :: as)) : Dense p as := by
  intro i j b hij hb hp
  simpa using h (i + 1) (j + 1) b (by omega) (by simpa using hb) hp

/-- Without gaps, an element that stays has its position for its rank. -/
theorem kept_of_dense : ∀ {as : List α} {i : ℕ}, Dense p as →
    ∀ k e, (kept p i as)[k]? = some e → e.1 = i + k
  | [], _, _, _, _, he => by simp [kept] at he
  | a :: as, i, h, k, e, he => by
    rw [kept] at he
    by_cases ha : p a = true
    · rw [if_pos ha] at he
      cases k with
      | zero =>
        obtain rfl : (i, a) = e := by simpa using he
        rfl
      | succ k =>
        have := kept_of_dense h.tail k e (by simpa using he)
        omega
    · -- nothing after an element that is dropped stays
      have hnone : ∀ b ∈ as, p b = false := by
        intro b hb
        by_contra hp
        obtain ⟨j, hj⟩ := List.mem_iff_getElem?.1 hb
        obtain ⟨a', ha', hp'⟩ := h 0 (j + 1) b (by omega) (by simpa using hj) (by simpa using hp)
        obtain rfl : a = a' := by simpa using ha'
        exact ha hp'
      rw [if_neg ha, kept_eq_nil hnone] at he
      cases he

theorem dense_of_first : ∀ {as : List α} {i : ℕ},
    (∀ k, k < (kept p i as).length → ∃ a, as[k]? = some a ∧ p a = true) → Dense p as
  | [], _, _ => by
    intro i j b _ hb
    cases hb
  | a :: as, i, h => by
    intro i' j b hij hb hp
    have hne : kept p i (a :: as) ≠ [] := kept_ne_nil hp (List.mem_iff_getElem?.2 ⟨j, hb⟩)
    have ha : p a = true := by
      obtain ⟨a', ha', hp'⟩ := h 0 (List.length_pos_iff.2 hne)
      obtain rfl : a = a' := by simpa using ha'
      exact hp'
    cases i' with
    | zero => exact ⟨a, rfl, ha⟩
    | succ i' =>
      obtain ⟨j', rfl⟩ : ∃ j', j = j' + 1 := ⟨j - 1, by omega⟩
      have hdense : Dense p as := dense_of_first (i := i + 1) fun k hk => by
        have := h (k + 1) (by rw [kept, if_pos ha, List.length_cons]; omega)
        simpa using this
      simpa using hdense i' j' b (by omega) (by simpa using hb) hp

/-- There are no gaps just if elements that stay stand at the first positions. -/
theorem dense_iff {as : List α} {i : ℕ} :
    Dense p as ↔ ∀ k, k < (kept p i as).length → ∃ a, as[k]? = some a ∧ p a = true := by
  refine ⟨fun h k hk => ?_, dense_of_first⟩
  have hget := List.getElem?_eq_getElem hk
  obtain ⟨-, hsome, hp⟩ := mem_kept (List.getElem_mem hk)
  rw [kept_of_dense h k _ hget, Nat.add_sub_cancel_left] at hsome
  exact ⟨_, hsome, hp⟩

end KirAi.Lib
