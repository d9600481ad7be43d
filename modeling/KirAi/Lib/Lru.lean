/-
# Least recently used first

A bounded cache, as a list of its items in the order of their last use, the
least recent first: a use moves an item to the back, and an item that is put
replaces the one under its key, makes room at the front, and goes to the back.

Key definitions: `LruItem`, `Lru.touch`, `Lru.makeRoom`, `Lru.put`.
Key theorems: `Lru.makeRoom_spec`.
-/
import Mathlib.Algebra.Ring.Nat
import Mathlib.Data.List.Basic
import Mathlib.Data.Nat.Notation
import Mathlib.Tactic.Common

namespace KirAi.Lib

structure LruItem (K V : Type) where
  key : K
  value : V
  size : ℕ

namespace Lru

variable {K V : Type}

/-- The keys are distinct. -/
def Distinct (l : List (LruItem K V)) : Prop := l.Pairwise fun x y => x.key ≠ y.key

def total (l : List (LruItem K V)) : ℕ := (l.map (·.size)).sum

/-- As few items as possible go from the front. -/
def makeRoom (limit size : ℕ) : List (LruItem K V) → List (LruItem K V)
  | [] => []
  | x :: l => if total (x :: l) + size ≤ limit then x :: l else makeRoom limit size l

variable {l : List (LruItem K V)} {x : LruItem K V} {limit size : ℕ}

theorem total_append (l l' : List (LruItem K V)) : total (l ++ l') = total l + total l' := by
  rw [total, total, total, List.map_append, List.sum_append]

theorem Distinct.eq_of_key (h : Distinct l) {y : LruItem K V} (hx : x ∈ l) (hy : y ∈ l)
    (hkey : x.key = y.key) : x = y := by
  induction l with
  | nil => cases hx
  | cons z l ih =>
    obtain ⟨hz, hl⟩ := List.pairwise_cons.mp h
    rcases List.mem_cons.mp hx with hxz | hx'
    · rcases List.mem_cons.mp hy with hyz | hy'
      · rw [hxz, hyz]
      · exact absurd (hxz ▸ hkey) (hz y hy')
    · rcases List.mem_cons.mp hy with hyz | hy'
      · exact absurd (hyz ▸ hkey).symm (hz x hx')
      · exact ih hl hx' hy'

theorem makeRoom_sublist (limit size : ℕ) : ∀ l : List (LruItem K V), (makeRoom limit size l).Sublist l
  | [] => .slnil
  | x :: l => by
    rw [makeRoom]
    split
    · exact .refl _
    · exact (makeRoom_sublist limit size l).cons x

theorem total_makeRoom_le (hsize : size ≤ limit) :
    ∀ l : List (LruItem K V), total (makeRoom limit size l) + size ≤ limit
  | [] => by
    rw [makeRoom, total, List.map_nil, List.sum_nil]
    omega
  | x :: l => by
    rw [makeRoom]
    split
    · assumption
    · exact total_makeRoom_le hsize l

/-- What goes is the shortest prefix that makes room. -/
theorem makeRoom_spec (limit size : ℕ) : ∀ l : List (LruItem K V),
    ∃ gone, l = gone ++ makeRoom limit size l ∧
      ∀ n < gone.length, limit < total (l.drop n) + size
  | [] => ⟨[], rfl, fun n hn => absurd hn (Nat.not_lt_zero n)⟩
  | x :: l => by
    rw [makeRoom]
    by_cases hfits : total (x :: l) + size ≤ limit
    · rw [if_pos hfits]
      exact ⟨[], rfl, fun n hn => absurd hn (Nat.not_lt_zero n)⟩
    · rw [if_neg hfits]
      obtain ⟨gone, hsplit, hshort⟩ := makeRoom_spec limit size l
      refine ⟨x :: gone, by rw [List.cons_append, ← hsplit], fun n hn => ?_⟩
      cases n with
      | zero => exact Nat.lt_of_not_le hfits
      | succ n => exact hshort n (Nat.lt_of_succ_lt_succ hn)

/-! ### By key -/

variable [DecidableEq K]

def without (k : K) (l : List (LruItem K V)) : List (LruItem K V) := l.filter (·.key ≠ k)

/-- The item under the key goes to the back. -/
def touch (k : K) (l : List (LruItem K V)) : List (LruItem K V) :=
  without k l ++ l.filter (·.key = k)

def put (limit : ℕ) (item : LruItem K V) (l : List (LruItem K V)) : List (LruItem K V) :=
  makeRoom limit item.size (without item.key l) ++ [item]

variable {k : K}

theorem mem_without : x ∈ without k l ↔ x ∈ l ∧ x.key ≠ k := by
  rw [without, List.mem_filter, decide_eq_true_iff]

theorem without_of_absent (h : ∀ x ∈ l, x.key ≠ k) : without k l = l := by
  rw [without, List.filter_eq_self]
  exact fun x hx => decide_eq_true (h x hx)

theorem filter_key (h : Distinct l) (hx : x ∈ l) : l.filter (·.key = x.key) = [x] := by
  induction l with
  | nil => cases hx
  | cons z l ih =>
    obtain ⟨hz, hl⟩ := List.pairwise_cons.mp h
    rcases List.mem_cons.mp hx with rfl | hx
    · rw [List.filter_cons_of_pos (by simp), List.filter_eq_nil_iff.mpr]
      intro y hy
      simpa using (hz y hy).symm
    · rw [List.filter_cons_of_neg (by simpa using hz x hx), ih hl hx]

theorem touch_eq (h : Distinct l) (hx : x ∈ l) : touch x.key l = without x.key l ++ [x] := by
  rw [touch, filter_key h hx]

theorem total_without (h : Distinct l) (hx : x ∈ l) : total (without x.key l) + x.size = total l := by
  induction l with
  | nil => cases hx
  | cons z l ih =>
    obtain ⟨hz, hl⟩ := List.pairwise_cons.mp h
    have hcons : ∀ y (m : List (LruItem K V)), total (y :: m) = y.size + total m := fun _ _ => rfl
    rcases List.mem_cons.mp hx with rfl | hx
    · have habsent : without x.key l = l := without_of_absent fun y hy => (hz y hy).symm
      rw [without, List.filter_cons_of_neg (by simp), ← without, habsent, hcons]
      omega
    · have hrest := ih hl hx
      rw [without, List.filter_cons_of_pos (by simpa using hz x hx), ← without, hcons, hcons]
      omega

end Lru

end KirAi.Lib
