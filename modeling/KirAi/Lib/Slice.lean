/-
# Slices and rows of a flat buffer

A buffer of rows is one flat list: row `i` of width `v` is the slice from
`i * v` on. `slice l a b` reads the positions from `a` up to `b`,
`splice l a src` copies `src` over the positions from `a` on. Reading a row
back after a splice gives the source row at the row written and the old row
elsewhere (`row_splice_self`, `row_splice_ne`); reading all rows in order gives
the buffer back (`flatMap_row_range`).
-/
import Mathlib.Data.Nat.Notation
import Mathlib.Data.List.Basic
import Mathlib.Data.List.Range
import Mathlib.Tactic.Ring
import Mathlib.Tactic.Common

namespace KirAi.Lib

variable {α : Type}

/-- The positions from `a` up to `b` of a buffer. -/
def slice (l : List α) (a b : ℕ) : List α := (l.drop a).take (b - a)

/-- The buffer with `src` copied over the positions from `a` on. -/
def splice (l : List α) (a : ℕ) (src : List α) : List α :=
  l.take a ++ src ++ l.drop (a + src.length)

/-- Row `i` of a buffer of rows of width `v`. -/
def row (l : List α) (v i : ℕ) : List α := slice l (i * v) (i * v + v)

theorem slice_length {l : List α} {a b : ℕ} (h : b ≤ l.length) : (slice l a b).length = b - a := by
  simp only [slice, List.length_take, List.length_drop]
  omega

theorem getElem?_slice (l : List α) (a b i : ℕ) :
    (slice l a b)[i]? = if a + i < b then l[a + i]? else none := by
  simp only [slice, List.getElem?_take, List.getElem?_drop]
  by_cases h : a + i < b
  · rw [if_pos h, if_pos (by omega)]
  · rw [if_neg h, if_neg (by omega)]

theorem splice_length {l : List α} {a : ℕ} {src : List α} (h : a + src.length ≤ l.length) :
    (splice l a src).length = l.length := by
  simp only [splice, List.length_append, List.length_take, List.length_drop]
  omega

theorem getElem?_splice {l : List α} {a : ℕ} {src : List α} (h : a + src.length ≤ l.length)
    (i : ℕ) : (splice l a src)[i]? = if a ≤ i ∧ i < a + src.length then src[i - a]? else l[i]? := by
  have hla : (l.take a).length = a := by simp only [List.length_take]; omega
  unfold splice
  by_cases h1 : i < a
  · rw [List.append_assoc, List.getElem?_append_left (by omega), List.getElem?_take, if_pos h1,
      if_neg (by omega)]
  · by_cases h2 : i < a + src.length
    · rw [List.append_assoc, List.getElem?_append_right (by omega), hla,
        List.getElem?_append_left (by omega), if_pos (by omega)]
    · rw [List.getElem?_append_right (by simp only [List.length_append]; omega), if_neg (by omega),
        List.getElem?_drop]
      congr 1
      simp only [List.length_append]
      omega

theorem row_end_le {v i n : ℕ} (hi : i < n) : i * v + v ≤ n * v := by
  rw [← Nat.add_one_mul]
  exact Nat.mul_le_mul_right v hi

theorem row_length {l : List α} {v i n : ℕ} (hl : l.length = n * v) (hi : i < n) :
    (row l v i).length = v := by
  rw [row, slice_length (by rw [hl]; exact row_end_le hi)]
  omega

theorem getElem?_row (l : List α) (v i j : ℕ) :
    (row l v i)[j]? = if j < v then l[i * v + j]? else none := by
  rw [row, getElem?_slice]
  by_cases h : j < v
  · rw [if_pos h, if_pos (by omega)]
  · rw [if_neg h, if_neg (by omega)]

/-- The row just written reads back. -/
theorem row_splice_self {l src : List α} {v i n : ℕ} (hl : l.length = n * v) (hi : i < n)
    (hs : src.length = v) : row (splice l (i * v) src) v i = src := by
  have hle : i * v + v ≤ l.length := hl ▸ row_end_le hi
  refine List.ext_getElem? fun j => ?_
  rw [getElem?_row, getElem?_splice (by omega)]
  by_cases hj : j < v
  · rw [if_pos hj, if_pos (by omega)]
    congr 1
    omega
  · rw [if_neg hj, List.getElem?_eq_none (by omega)]

/-- The other rows are untouched. -/
theorem row_splice_ne {l src : List α} {v i k n : ℕ} (hl : l.length = n * v) (hi : i < n)
    (hs : src.length = v) (hk : k ≠ i) : row (splice l (i * v) src) v k = row l v k := by
  have hle : i * v + v ≤ l.length := hl ▸ row_end_le hi
  refine List.ext_getElem? fun j => ?_
  rw [getElem?_row, getElem?_row, getElem?_splice (by omega)]
  by_cases hj : j < v
  · rw [if_pos hj, if_pos hj, if_neg]
    intro hc
    rcases Nat.lt_or_ge k i with hlt | hge
    · have : k * v + v ≤ i * v := row_end_le hlt
      omega
    · have : i * v + v ≤ k * v := row_end_le (by omega)
      omega
  · rw [if_neg hj, if_neg hj]

/-- A row of a slice of whole rows is a row of the buffer. -/
theorem row_slice (l : List α) {v s n j : ℕ} (hj : j < n) :
    row (slice l (s * v) (s * v + n * v)) v j = row l v (s + j) := by
  refine List.ext_getElem? fun k => ?_
  rw [getElem?_row, getElem?_row, getElem?_slice]
  by_cases hk : k < v
  · have : j * v + v ≤ n * v := row_end_le hj
    rw [if_pos hk, if_pos hk, if_pos (by omega), Nat.add_mul]
    congr 1
    omega
  · rw [if_neg hk, if_neg hk]

theorem row_map {β : Type} (f : α → β) (l : List α) (v j : ℕ) :
    row (l.map f) v j = (row l v j).map f := by
  simp only [row, slice, List.map_take, List.map_drop]

/-- The rows of a slice of whole rows are the rows of the buffer, in order. -/
theorem flatMap_row_range (l : List α) (v a : ℕ) : ∀ n, (a + n) * v ≤ l.length →
    (List.range n).flatMap (fun i => row l v (a + i)) = slice l (a * v) ((a + n) * v)
  | 0, _ => by simp [slice]
  | n + 1, h => by
    have h' : (a + n) * v ≤ l.length := le_trans (Nat.mul_le_mul_right v (by omega)) h
    rw [List.range_succ, List.flatMap_append, flatMap_row_range l v a n h']
    simp only [List.flatMap_cons, List.flatMap_nil, List.append_nil]
    have hn : (a + (n + 1)) * v = (a + n) * v + v := by ring
    have hle : a * v ≤ (a + n) * v := Nat.mul_le_mul_right v (by omega)
    rw [row, hn]
    unfold slice
    rw [show (a + n) * v + v - (a + n) * v = v by omega,
      show (a + n) * v + v - a * v = ((a + n) * v - a * v) + v by omega, List.take_add]
    congr 2
    rw [List.drop_drop]
    congr 1
    omega

/-- A row of a buffer that is put together row by row. -/
theorem row_flatMap {β : Type} {g : α → List β} {w : ℕ} : ∀ {l : List α} {j : ℕ} {a : α},
    (∀ a ∈ l, (g a).length = w) → l[j]? = some a → row (l.flatMap g) w j = g a
  | [], _, _, _, h => by cases h
  | x :: l, 0, a, hg, h => by
    cases h
    simp only [row, slice, List.flatMap_cons, Nat.zero_mul, List.drop_zero, Nat.zero_add,
      Nat.sub_zero]
    rw [← hg x (List.mem_cons_self ..), List.take_left]
  | x :: l, j + 1, a, hg, h => by
    have ih := row_flatMap (fun a ha => hg a (List.mem_cons_of_mem _ ha)) (List.getElem?_cons_succ ▸ h)
    rw [← ih, row, slice, row, slice, List.flatMap_cons, Nat.add_one_mul, Nat.add_comm (j * w) w,
      ← List.drop_drop, List.drop_left' (hg x (List.mem_cons_self ..))]
    congr 1
    omega

theorem length_flatMap_rows {β : Type} {g : α → List β} {w : ℕ} {l : List α}
    (hg : ∀ a ∈ l, (g a).length = w) : (l.flatMap g).length = l.length * w := by
  induction l with
  | nil => simp
  | cons x l ih =>
    rw [List.flatMap_cons, List.length_append, hg x (List.mem_cons_self ..),
      ih fun a ha => hg a (List.mem_cons_of_mem _ ha), List.length_cons, Nat.add_one_mul]
    omega

/-- Whole rows can be dropped and taken before they are put together. -/
theorem drop_flatMap_rows {β : Type} {g : α → List β} {w : ℕ} : ∀ {l : List α} (a : ℕ),
    (∀ x ∈ l, (g x).length = w) → (l.flatMap g).drop (a * w) = (l.drop a).flatMap g
  | [], a, _ => by simp
  | x :: l, 0, _ => by simp
  | x :: l, a + 1, hg => by
    rw [List.flatMap_cons, Nat.add_one_mul, Nat.add_comm, ← List.drop_drop,
      List.drop_left' (hg x (List.mem_cons_self ..)), List.drop_succ_cons,
      drop_flatMap_rows a fun y hy => hg y (List.mem_cons_of_mem _ hy)]

theorem take_flatMap_rows {β : Type} {g : α → List β} {w : ℕ} : ∀ {l : List α} (a : ℕ),
    (∀ x ∈ l, (g x).length = w) → (l.flatMap g).take (a * w) = (l.take a).flatMap g
  | [], a, _ => by simp
  | x :: l, 0, _ => by simp
  | x :: l, a + 1, hg => by
    have hx := hg x (List.mem_cons_self ..)
    rw [List.flatMap_cons, Nat.add_one_mul, Nat.add_comm, ← hx, List.take_length_add_append, hx,
      take_flatMap_rows a fun y hy => hg y (List.mem_cons_of_mem _ hy), List.take_succ_cons,
      List.flatMap_cons]

/-- A slice of whole rows, put together. -/
theorem slice_flatMap_rows {β : Type} {g : α → List β} {w : ℕ} {l : List α} (a b : ℕ)
    (hg : ∀ x ∈ l, (g x).length = w) :
    slice (l.flatMap g) (a * w) (b * w) = (slice l a b).flatMap g := by
  rw [slice, slice, drop_flatMap_rows a hg, ← Nat.sub_mul,
    take_flatMap_rows _ fun x hx => hg x (List.mem_of_mem_drop hx)]

/-- `chunks_exact`: the whole rows of a buffer. -/
def chunks (l : List α) (v : ℕ) : List (List α) := (List.range (l.length / v)).map (row l v)

/-- A buffer that is put together row by row falls apart into its rows. -/
theorem chunks_flatMap {β : Type} {l : List α} {g : α → List β} {v : ℕ} (hv : 0 < v)
    (hg : ∀ a ∈ l, (g a).length = v) : chunks (l.flatMap g) v = l.map g := by
  refine List.ext_getElem? fun j => ?_
  rw [chunks, length_flatMap_rows hg, Nat.mul_div_cancel _ hv, List.getElem?_map,
    List.getElem?_map]
  rcases Nat.lt_or_ge j l.length with hj | hj
  · rw [List.getElem?_range hj, List.getElem?_eq_getElem hj, Option.map_some, Option.map_some,
      row_flatMap hg (List.getElem?_eq_getElem hj)]
  · rw [List.getElem?_eq_none (by rw [List.length_range]; exact hj), List.getElem?_eq_none hj]
    rfl

/-- `chunks`: rows of width `v`, of which the last may be shorter. -/
def pieces (l : List α) (v : ℕ) : List (List α) :=
  (List.range ((l.length + v - 1) / v)).map fun i => slice l (i * v) ((i + 1) * v)

/-- Setting a position to what is there. -/
theorem list_set_self {l : List α} {i : ℕ} {a : α} (h : l[i]? = some a) : l.set i a = l := by
  refine List.ext_getElem? fun j => ?_
  rw [List.getElem?_set]
  split
  · rename_i hij
    subst hij
    rw [h, if_pos (List.getElem?_eq_some_iff.mp h).1]
  · rfl

end KirAi.Lib
