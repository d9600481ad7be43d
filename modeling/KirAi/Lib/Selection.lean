/-
# The first of a list in order

Over a linear order a list has one sorted arrangement, so whatever sorts it gives
`inOrder`, and the first `k` of it (`firsts`) come out the same by sorting all,
by sorting what a correct partition puts in front, and by keeping the best so
far while the elements come one at a time.

Elements that are sorted by a key are among the first `k` just if fewer than `k` have a
smaller key (`mem_take_inOrderBy`).

Key definitions: `inOrder`, `firsts`, `Sorter`, `Selector`, `insertAfter`, `inOrderBy`.
Key theorems: `firsts_of_partition`, `firsts_snoc`, `Selector.firsts`, `mem_take_inOrderBy`.
-/
import Mathlib.Data.List.Sort
import Mathlib.Data.Nat.Notation

namespace KirAi.Lib

variable {α : Type} [LinearOrder α]

def inOrder (l : List α) : List α := l.insertionSort (· ≤ ·)

/-- The first `k` in order. -/
def firsts (k : ℕ) (l : List α) : List α := (inOrder l).take k

theorem inOrder_perm (l : List α) : (inOrder l).Perm l := List.perm_insertionSort _ l

theorem inOrder_pairwise (l : List α) : (inOrder l).Pairwise (· ≤ ·) := List.pairwise_insertionSort _ l

@[simp] theorem inOrder_length (l : List α) : (inOrder l).length = l.length := (inOrder_perm l).length_eq

/-- There is one sorted arrangement. -/
theorem eq_inOrder {l l' : List α} (hp : l'.Perm l) (hs : l'.Pairwise (· ≤ ·)) : l' = inOrder l :=
  (hp.trans (inOrder_perm l).symm).eq_of_pairwise' hs (inOrder_pairwise l)

theorem inOrder_congr {l l' : List α} (hp : l'.Perm l) : inOrder l' = inOrder l :=
  eq_inOrder ((inOrder_perm l').trans hp) (inOrder_pairwise l')

theorem firsts_congr {k : ℕ} {l l' : List α} (hp : l'.Perm l) : firsts k l' = firsts k l := by
  rw [firsts, firsts, inOrder_congr hp]

theorem firsts_length_le (k : ℕ) (l : List α) : (firsts k l).length ≤ k := by
  rw [firsts, List.length_take]
  exact Nat.min_le_left _ _

theorem firsts_of_length_le {k : ℕ} {l : List α} (h : l.length ≤ k) : firsts k l = inOrder l := by
  rw [firsts, List.take_of_length_le (by rwa [inOrder_length])]

/-! ### By a partition -/

/-- What is in front of a correct partition are the firsts, once sorted. -/
theorem firsts_of_partition {k : ℕ} {l l' : List α} (hp : l'.Perm l)
    (h : ∀ a ∈ l'.take k, ∀ b ∈ l'.drop k, a ≤ b) : inOrder (l'.take k) = firsts k l := by
  have hsplit : inOrder (l'.take k) ++ inOrder (l'.drop k) = inOrder l := by
    refine eq_inOrder ?_ ?_
    · have := (inOrder_perm (l'.take k)).append (inOrder_perm (l'.drop k))
      rw [List.take_append_drop] at this
      exact this.trans hp
    · refine List.pairwise_append.mpr ⟨inOrder_pairwise _, inOrder_pairwise _, fun a ha b hb => ?_⟩
      exact h a ((inOrder_perm _).mem_iff.mp ha) b ((inOrder_perm _).mem_iff.mp hb)
  rw [firsts, ← hsplit]
  by_cases hk : k ≤ l'.length
  · rw [List.take_left' (by rw [inOrder_length, List.length_take, Nat.min_eq_left hk])]
  · have hdrop : l'.drop k = [] := List.drop_eq_nil_of_le (by omega)
    have htake : l'.take k = l' := List.take_of_length_le (by omega)
    rw [hdrop, htake]
    rw [List.take_of_length_le]
    · exact (List.append_nil _).symm
    · rw [List.length_append, inOrder_length, inOrder_length, List.length_nil]
      omega

/-- A sort that is correct. -/
structure Sorter (α : Type) [LinearOrder α] where
  sort : List α → List α
  perm : ∀ l, (sort l).Perm l
  pairwise : ∀ l, (sort l).Pairwise (· ≤ ·)

theorem Sorter.sort_eq (S : Sorter α) (l : List α) : S.sort l = inOrder l :=
  eq_inOrder (S.perm l) (S.pairwise l)

/-- A quickselect that is correct: the element at the index is where sorting would
put it, none before it is greater and none after it less. -/
structure Selector (α : Type) [LinearOrder α] where
  selectNth : ℕ → List α → List α
  perm : ∀ k l, (selectNth k l).Perm l
  pivot : ∀ k l, k < l.length → ∀ a ∈ (selectNth k l).take (k + 1), ∀ b ∈ (selectNth k l).drop k, a ≤ b

def Sorter.ofInsertion : Sorter α := ⟨inOrder, inOrder_perm, inOrder_pairwise⟩

theorem take_le_drop {k : ℕ} {l : List α} (hs : l.Pairwise (· ≤ ·)) :
    ∀ a ∈ l.take (k + 1), ∀ b ∈ l.drop k, a ≤ b := by
  intro a ha b hb
  obtain ⟨i, hi, rfl⟩ := List.mem_iff_getElem.mp ha
  obtain ⟨j, hj, rfl⟩ := List.mem_iff_getElem.mp hb
  rw [List.length_take] at hi
  rw [List.length_drop] at hj
  rw [List.getElem_take, List.getElem_drop]
  rcases Nat.lt_or_ge i (k + j) with hij | hij
  · exact List.pairwise_iff_getElem.mp hs i (k + j) (by omega) (by omega) hij
  · have hsame : i = k + j := by omega
    subst hsame
    exact le_refl _

/-- Sorting selects. -/
def Selector.ofSorting : Selector α where
  selectNth := fun _ => inOrder
  perm := fun _ l => inOrder_perm l
  pivot := fun _ l _ => take_le_drop (inOrder_pairwise l)

/-- The elements before the selected one, sorted. -/
theorem Selector.firsts (Q : Selector α) {k : ℕ} {l : List α} (hk : k < l.length) :
    inOrder ((Q.selectNth k l).take k) = Lib.firsts k l := by
  refine firsts_of_partition (Q.perm k l) fun a ha b hb => Q.pivot k l hk a ?_ b hb
  exact (List.take_subset_take_left _ (Nat.le_succ k)) ha

/-- The elements up to the selected one, sorted. -/
theorem Selector.firsts_succ (Q : Selector α) {k : ℕ} {l : List α} (hk : k < l.length) :
    inOrder ((Q.selectNth k l).take (k + 1)) = Lib.firsts (k + 1) l := by
  refine firsts_of_partition (Q.perm k l) fun a ha b hb => Q.pivot k l hk a ha b ?_
  exact (List.drop_subset_drop_left _ (Nat.le_succ k)) hb

/-! ### One element after the other -/

/-- Behind all that are not greater. -/
def insertAfter (a : α) : List α → List α
  | [] => [a]
  | b :: l => if a < b then a :: b :: l else b :: insertAfter a l

theorem insertAfter_perm (a : α) : ∀ l : List α, (insertAfter a l).Perm (a :: l)
  | [] => .refl _
  | b :: l => by
    by_cases h : a < b
    · rw [insertAfter, if_pos h]
    · rw [insertAfter, if_neg h]
      exact ((insertAfter_perm a l).cons b).trans (.swap a b l)

theorem insertAfter_pairwise {a : α} : ∀ {l : List α}, l.Pairwise (· ≤ ·) →
    (insertAfter a l).Pairwise (· ≤ ·)
  | [], _ => List.pairwise_singleton _ _
  | b :: l, hs => by
    obtain ⟨hb, hl⟩ := List.pairwise_cons.mp hs
    by_cases h : a < b
    · rw [insertAfter, if_pos h]
      refine List.pairwise_cons.mpr ⟨fun c hc => ?_, hs⟩
      rcases List.mem_cons.mp hc with rfl | hc
      · exact le_of_lt h
      · exact le_trans (le_of_lt h) (hb c hc)
    · rw [insertAfter, if_neg h]
      refine List.pairwise_cons.mpr ⟨fun c hc => ?_, insertAfter_pairwise hl⟩
      rcases List.mem_cons.mp ((insertAfter_perm a l).mem_iff.mp hc) with rfl | hc
      · exact not_lt.mp h
      · exact hb c hc

/-- Only the first `k` matter for the first `k` after an insertion. -/
theorem take_insertAfter (a : α) : ∀ (k : ℕ) (l : List α),
    (insertAfter a l).take k = (insertAfter a (l.take k)).take k
  | 0, _ => by rw [List.take_zero, List.take_zero]
  | _ + 1, [] => by rw [List.take_nil]
  | k + 1, b :: l => by
    by_cases h : a < b
    · rw [insertAfter, if_pos h, List.take_succ_cons, List.take_succ_cons, insertAfter, if_pos h,
        List.take_succ_cons]
      cases k with
      | zero => rw [List.take_zero, List.take_zero]
      | succ k => rw [List.take_succ_cons, List.take_succ_cons, List.take_take, Nat.min_eq_left (by omega)]
    · rw [insertAfter, if_neg h, List.take_succ_cons, List.take_succ_cons, insertAfter, if_neg h,
        List.take_succ_cons, take_insertAfter a k l]

theorem firsts_snoc (k : ℕ) (l : List α) (a : α) :
    firsts k (l ++ [a]) = (insertAfter a (firsts k l)).take k := by
  have hsorted : insertAfter a (inOrder l) = inOrder (l ++ [a]) := by
    refine eq_inOrder ?_ (insertAfter_pairwise (inOrder_pairwise l))
    exact ((insertAfter_perm a _).trans ((inOrder_perm l).cons a)).trans
      (List.perm_append_singleton a l).symm
  rw [firsts, firsts, ← hsorted]
  exact take_insertAfter a k (inOrder l)

/-- Found by its position: the first element that is greater. -/
theorem insertAfter_eq (a : α) : ∀ l : List α, insertAfter a l =
    match l.findIdx? (a < ·) with
    | some i => l.insertIdx i a
    | none => l ++ [a]
  | [] => rfl
  | b :: l => by
    rw [List.findIdx?_cons]
    by_cases h : a < b
    · rw [insertAfter, if_pos h, if_pos (by simpa using h)]
      rfl
    · rw [insertAfter, if_neg h, if_neg (by simpa using h), insertAfter_eq a l]
      cases l.findIdx? (a < ·) with
      | some i => rfl
      | none => rfl

/-! ### By a key -/

section Key

variable {β : Type} (key : β → α)

/-- A stable sort by the key. -/
def inOrderBy (l : List β) : List β := l.insertionSort fun a b => key a ≤ key b

theorem inOrderBy_perm (l : List β) : (inOrderBy key l).Perm l := List.perm_insertionSort _ l

theorem inOrderBy_pairwise (l : List β) : (inOrderBy key l).Pairwise fun a b => key a ≤ key b := by
  have : Std.Total fun a b : β => key a ≤ key b := ⟨fun a b => le_total (key a) (key b)⟩
  have : IsTrans β fun a b => key a ≤ key b := ⟨fun _ _ _ hab hbc => le_trans hab hbc⟩
  exact List.pairwise_insertionSort _ l

variable {key}

theorem mem_take_of_pairwise {x : β} : ∀ {l : List β} (k : ℕ),
    (l.Pairwise fun a b => key a < key b) → x ∈ l →
    (x ∈ l.take k ↔ l.countP (fun y => decide (key y < key x)) < k)
  | [], _, _, hx => absurd hx List.not_mem_nil
  | y :: l, 0, _, _ => by simp
  | y :: l, k + 1, hs, hx => by
    obtain ⟨hy, hl⟩ := List.pairwise_cons.1 hs
    rw [List.take_succ_cons, List.mem_cons, List.countP_cons]
    rcases List.mem_cons.1 hx with rfl | hxl
    · have hzero : l.countP (fun z => decide (key z < key x)) = 0 :=
        List.countP_eq_zero.2 fun z hz => by simpa using (hy z hz).le
      simp [hzero]
    · have hlt := hy x hxl
      have hne : x ≠ y := fun heq => absurd hlt (heq ▸ lt_irrefl _)
      rw [mem_take_of_pairwise k hl hxl, decide_eq_true hlt, if_pos rfl, or_iff_right hne]
      omega

/-- An element is among the first `k` just if fewer than `k` come before it. -/
theorem mem_take_inOrderBy {l : List β} (hkeys : (l.map key).Nodup) {x : β} (hx : x ∈ l) (k : ℕ) :
    x ∈ (inOrderBy key l).take k ↔ l.countP (fun y => decide (key y < key x)) < k := by
  have hperm := inOrderBy_perm key l
  have hne : (inOrderBy key l).Pairwise fun a b => key a ≠ key b :=
    List.pairwise_map.1 ((hperm.map key).nodup_iff.2 hkeys)
  have hlt : (inOrderBy key l).Pairwise fun a b => key a < key b :=
    ((inOrderBy_pairwise key l).and hne).imp fun ⟨hle, hneq⟩ => lt_of_le_of_ne hle hneq
  rw [mem_take_of_pairwise k hlt (hperm.mem_iff.2 hx), hperm.countP_eq]

end Key

end KirAi.Lib
