/-
# Rows written into a mirrored ring

A mirrored ring of `cap` rows is a buffer of `2 * cap` rows: the row of slot `p`
is kept at `p` and at `p + cap`, so that a window that wraps can be read in one
stretch. `mirrored` says which row belongs at which place when the logical rows
from `a` up to `b` are written, `WritesRows` that a write only puts rows where
they belong; a list of such writes that misses no place leaves each place with
its row and all other places alone (`row_applyWrites`).
-/
import KirAi.Lib.Ring
import KirAi.Lib.Slice

namespace KirAi.Lib

variable {β γ : Type}

/-- Which logical row slot `k` (or its mirror) is for. -/
def ringIndex (start k cap : ℕ) : ℕ := (k % cap + cap - start) % cap

variable {start i cap : ℕ}

theorem ringIndex_ringSlot (hs : start < cap) (hi : i < cap) :
    ringIndex start (ringSlot start i cap) cap = i := by
  unfold ringIndex
  rw [Nat.mod_eq_of_lt (ringSlot_lt (by omega)), ringSlot_eq hs (Nat.le_of_lt hi)]
  split
  · rw [show start + i + cap - start = i + cap by omega, Nat.add_mod_right, Nat.mod_eq_of_lt hi]
  · rw [show start + i - cap + cap - start = i by omega, Nat.mod_eq_of_lt hi]

theorem ringIndex_add_cap (start k cap : ℕ) : ringIndex start (k + cap) cap = ringIndex start k cap := by
  unfold ringIndex
  rw [Nat.add_mod_right]

/-- The slot of a place of the mirrored ring. -/
theorem ringSlot_ringIndex (hs : start < cap) (k : ℕ) :
    ringSlot start (ringIndex start k cap) cap = k % cap := by
  have hk : k % cap < cap := Nat.mod_lt _ (by omega)
  unfold ringIndex
  rw [ringSlot, Nat.add_mod_mod, show start + (k % cap + cap - start) = k % cap + cap by omega,
    Nat.add_mod_right, Nat.mod_mod]

/-- What belongs at place `k` when the logical rows from `a` up to `b` are
written. -/
def mirrored (start cap a b : ℕ) (rowAt : ℕ → Option (List β)) (k : ℕ) : Option (List β) :=
  if k < 2 * cap ∧ a ≤ ringIndex start k cap ∧ ringIndex start k cap < b then
    rowAt (ringIndex start k cap) else none

/-- Both places of a logical row that is written. -/
theorem mirrored_slot {a b : ℕ} (rowAt : ℕ → Option (List β)) (hs : start < cap) (hi : i < cap)
    (ha : a ≤ i) (hb : i < b) :
    mirrored start cap a b rowAt (ringSlot start i cap) = rowAt i ∧
      mirrored start cap a b rowAt (ringSlot start i cap + cap) = rowAt i := by
  have hlt : ringSlot start i cap < cap := ringSlot_lt (by omega)
  have h1 := ringIndex_ringSlot hs hi
  have h2 := ringIndex_add_cap start (ringSlot start i cap) cap
  constructor
  · rw [mirrored, h1, if_pos ⟨by omega, ha, hb⟩]
  · rw [mirrored, h2, h1, if_pos ⟨by omega, ha, hb⟩]

/-- A place where something belongs is the place of a row that is written. -/
theorem mirrored_some {a b k : ℕ} {rowAt : ℕ → Option (List β)} {r : List β} (hs : start < cap)
    (h : mirrored start cap a b rowAt k = some r) :
    ∃ i, a ≤ i ∧ i < b ∧ i < cap ∧ rowAt i = some r ∧
      (k = ringSlot start i cap ∨ k = ringSlot start i cap + cap) := by
  unfold mirrored at h
  split at h
  · rename_i hc
    refine ⟨ringIndex start k cap, hc.2.1, hc.2.2, Nat.mod_lt _ (by omega), h, ?_⟩
    rw [ringSlot_ringIndex hs]
    rcases Nat.lt_or_ge k cap with hk | hk
    · exact .inl (Nat.mod_eq_of_lt hk).symm
    · refine .inr ?_
      rw [Nat.mod_eq_sub_mod hk, Nat.mod_eq_of_lt (by omega)]
      omega
  · cases h

/-! ### Writes of whole rows -/

/-- A write of whole rows, each where it belongs. -/
def WritesRows (width : ℕ) (target : ℕ → Option (List β)) (at' : ℕ) (src : List β) : Prop :=
  ∃ q n, 0 < n ∧ at' = q * width ∧ src.length = n * width ∧
    ∀ j, j < n → target (q + j) = some (row src width j)

/-- Place `k` lies in a write. -/
def InWrite (width at' : ℕ) (src : List β) (k : ℕ) : Prop :=
  at' ≤ k * width ∧ k * width + width ≤ at' + src.length

/-- The writes one after the other: where, and what. -/
def applyWrites : List (ℕ × List β) → List β → List β
  | [], l => l
  | (at', src) :: ws, l => applyWrites ws (splice l at' src)

theorem row_splice_rows {l src : List β} {v q n m k : ℕ} (hl : l.length = m * v)
    (hs : src.length = n * v) (hq : q + n ≤ m) :
    row (splice l (q * v) src) v k =
      if q ≤ k ∧ k < q + n then row src v (k - q) else row l v k := by
  have hle : q * v + src.length ≤ l.length := by
    rw [hs, hl, ← Nat.add_mul]
    exact Nat.mul_le_mul_right v hq
  refine List.ext_getElem? fun j => ?_
  rw [getElem?_row, getElem?_splice hle, hs]
  by_cases hj : j < v
  · rw [if_pos hj]
    by_cases hk : q ≤ k ∧ k < q + n
    · have h1 : q * v ≤ k * v := Nat.mul_le_mul_right v hk.1
      have h2 : k * v + v ≤ (q + n) * v := row_end_le hk.2
      rw [Nat.add_mul] at h2
      rw [if_pos (by omega), if_pos hk, getElem?_row, if_pos hj, Nat.sub_mul]
      congr 1
      omega
    · rw [if_neg hk, getElem?_row, if_pos hj, if_neg]
      intro hc
      rcases Nat.lt_or_ge k q with h1 | h1
      · have : k * v + v ≤ q * v := row_end_le h1
        omega
      · have h2 : (q + n) * v ≤ k * v := Nat.mul_le_mul_right v (by omega)
        rw [Nat.add_mul] at h2
        omega
  · rw [if_neg hj]
    split <;> rw [getElem?_row, if_neg hj]

/-- One row written at a slot and at its mirror. -/
theorem row_splice_mirrored {l src : List β} {v cap p : ℕ} (hl : l.length = 2 * cap * v)
    (hs : src.length = v) (hp : p < cap) (k : ℕ) :
    row (splice (splice l (p * v) src) ((p + cap) * v) src) v k =
      if k = p ∨ k = p + cap then src else row l v k := by
  have hone : src.length = 1 * v := by rw [hs, Nat.one_mul]
  have hself : row src v 0 = src := by
    rw [row, slice, Nat.zero_mul, Nat.zero_add, Nat.sub_zero, List.drop_zero, ← hs, List.take_length]
  have hl' : (splice l (p * v) src).length = 2 * cap * v := by
    rw [splice_length, hl]
    rw [hl, hone, ← Nat.add_mul]
    exact Nat.mul_le_mul_right v (by omega)
  rw [row_splice_rows hl' hone (by omega), row_splice_rows hl hone (by omega)]
  by_cases h1 : k = p + cap
  · rw [if_pos (by omega), if_pos (.inr h1), h1, Nat.sub_self, hself]
  · rw [if_neg (by omega)]
    by_cases h2 : k = p
    · rw [if_pos (by omega), if_pos (.inl h2), h2, Nat.sub_self, hself]
    · rw [if_neg (by omega), if_neg (by omega)]

theorem inWrite_iff {width q n k : ℕ} {src : List β} (hv : 0 < width)
    (hs : src.length = n * width) : InWrite width (q * width) src k ↔ q ≤ k ∧ k < q + n := by
  unfold InWrite
  rw [hs, ← Nat.add_mul, ← Nat.add_one_mul, Nat.mul_le_mul_right_iff hv,
    Nat.mul_le_mul_right_iff hv]
  omega

/-- Writes of rows where they belong, into a buffer of `m` rows: a place in a
write gets what belongs there, the other places keep their rows. -/
theorem row_applyWrites {width m : ℕ} {target : ℕ → Option (List β)} (hv : 0 < width)
    (hbound : ∀ k r, target k = some r → k < m) :
    ∀ (ws : List (ℕ × List β)) (l : List β), l.length = m * width →
    (∀ w ∈ ws, WritesRows width target w.1 w.2) →
    (applyWrites ws l).length = m * width ∧
    ∀ k, ((∃ w ∈ ws, InWrite width w.1 w.2 k) →
        target k = some (row (applyWrites ws l) width k)) ∧
      ((¬ ∃ w ∈ ws, InWrite width w.1 w.2 k) →
        row (applyWrites ws l) width k = row l width k)
  | [], l, hl, _ => by
    refine ⟨hl, fun k => ⟨?_, fun _ => rfl⟩⟩
    rintro ⟨w, hw, -⟩
    cases hw
  | (at', src) :: ws, l, hl, hw => by
    obtain ⟨q, n, hn, hq, hs, hrow⟩ := hw (at', src) (List.mem_cons_self ..)
    dsimp only at hq hs hrow
    subst hq
    have hfit : q + n ≤ m := by
      have := hbound _ _ (hrow (n - 1) (by omega))
      omega
    have hl' : (splice l (q * width) src).length = m * width := by
      rw [splice_length, hl]
      rw [hs, hl, ← Nat.add_mul]
      exact Nat.mul_le_mul_right _ hfit
    obtain ⟨hlen, hrows⟩ := row_applyWrites hv hbound ws _ hl'
      fun w hm => hw w (List.mem_cons_of_mem _ hm)
    refine ⟨hlen, fun k => ?_⟩
    obtain ⟨hin, hout⟩ := hrows k
    by_cases hlater : ∃ w ∈ ws, InWrite width w.1 w.2 k
    · -- a later write covers the place
      obtain ⟨w, hm, hk⟩ := hlater
      exact ⟨fun _ => hin ⟨w, hm, hk⟩,
        fun hno => absurd ⟨w, List.mem_cons_of_mem _ hm, hk⟩ hno⟩
    · have hlast : row (applyWrites ((q * width, src) :: ws) l) width k =
          row (splice l (q * width) src) width k := hout hlater
      rw [row_splice_rows hl hs hfit] at hlast
      constructor
      · rintro ⟨w, hm, hk⟩
        rcases List.mem_cons.mp hm with rfl | hm
        · have hqk := (inWrite_iff hv hs).mp hk
          rw [if_pos hqk] at hlast
          have := hrow (k - q) (by omega)
          rw [Nat.add_sub_cancel' hqk.1] at this
          rw [this, hlast]
        · exact absurd ⟨w, hm, hk⟩ hlater
      · intro hno
        rw [hlast, if_neg]
        intro hqk
        exact hno ⟨_, List.mem_cons_self .., (inWrite_iff hv hs).mpr hqk⟩

end KirAi.Lib
