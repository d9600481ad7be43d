/-
# Text addressed by offset

A text is a list of symbols of positive width (characters and their encoded sizes),
and a position in it is an offset: the total width of what stands before. Not every
offset is a position; `isBoundary` says which are, and `slice?` reads between two of
them. `find` and `rfind` give the offset of the first and of the last occurrence of a
pattern, `earliestFrom` the first occurrence of any of several patterns from an
offset on.

The rules about growing texts are what a search over chunks rests on: an occurrence in
a grown text that is not an occurrence in the old one ends past the old end
(`OccursAt.of_append`), so a search that starts one symbol short of the longest pattern
before the old end misses nothing (`earliestFrom_append`).

Key definitions:
* `Width`, `len`, `isBoundary`, `floorBoundary`, `takeTo`, `dropTo`, `slice?`
* `OccursAt`, `hits`, `find`, `rfind`, `cut`, `earliestFrom`

Key theorems:
* `slice?_eq_some_iff`, `find_eq_some_iff`, `rfind_eq_some_iff`
* `earliestFrom_eq_some_iff`, `earliestFrom_append`
-/
import Mathlib.Algebra.BigOperators.Group.List.Basic
import Mathlib.Algebra.Ring.Nat
import Mathlib.Data.List.Infix
import Mathlib.Data.List.MinMax
import Mathlib.Data.Nat.Notation
import Mathlib.Order.Bounds.Basic
import Mathlib.Tactic.Common

namespace KirAi.Lib.Text

/-- Symbols of positive width. -/
class Width (α : Type) where
  width : α → ℕ
  width_pos : ∀ a, 0 < width a

open Width

variable {α : Type} [Width α]

/-! ### Offsets -/

/-- The width of a text. -/
def len (s : List α) : ℕ := (s.map width).sum

@[simp] theorem len_nil : len ([] : List α) = 0 := rfl

@[simp] theorem len_cons (a : α) (s : List α) : len (a :: s) = width a + len s := rfl

@[simp] theorem len_append (s t : List α) : len (s ++ t) = len s + len t := by
  simp only [len, List.map_append, List.sum_append]

theorem len_eq_zero {s : List α} : len s = 0 ↔ s = [] := by
  cases s with
  | nil => simp
  | cons a s =>
    have := width_pos a
    simp only [len_cons, reduceCtorEq, iff_false]
    omega

/-- Two texts that start one text are comparable by width. -/
theorem prefix_of_len_le {u v s : List α} (hu : u <+: s) (hv : v <+: s) (h : len u ≤ len v) :
    u <+: v := by
  rcases List.prefix_or_prefix_of_prefix hu hv with h' | ⟨w, rfl⟩
  · exact h'
  · have hw : w = [] := by
      rw [← len_eq_zero]
      simp only [len_append] at h
      omega
    rw [hw, List.append_nil]

theorem append_inj_of_len {u v u' v' : List α} (h : u ++ v = u' ++ v') (hl : len u = len u') :
    u = u' ∧ v = v' := by
  have hu : u <+: u' := prefix_of_len_le ⟨v, h⟩ ⟨v', rfl⟩ hl.le
  obtain ⟨w, rfl⟩ := hu
  have hw : w = [] := by
    rw [← len_eq_zero]
    simp only [len_append] at hl
    omega
  subst hw
  simpa using h

/-- An offset at which a symbol starts, or the end. -/
def isBoundary : List α → ℕ → Bool
  | _, 0 => true
  | [], _ + 1 => false
  | a :: s, n + 1 => decide (width a ≤ n + 1) && isBoundary s (n + 1 - width a)

theorem isBoundary_iff : ∀ {s : List α} {n : ℕ},
    isBoundary s n = true ↔ ∃ u v, s = u ++ v ∧ len u = n
  | s, 0 => by
    simp only [isBoundary, true_iff]
    exact ⟨[], s, rfl, rfl⟩
  | [], n + 1 => by
    simp only [isBoundary, Bool.false_eq_true, List.nil_eq_append_iff, false_iff]
    rintro ⟨u, v, ⟨rfl, -⟩, hu⟩
    simp at hu
  | a :: s, n + 1 => by
    simp only [isBoundary, Bool.and_eq_true, decide_eq_true_eq, isBoundary_iff (s := s)]
    constructor
    · rintro ⟨ha, u, v, rfl, hu⟩
      exact ⟨a :: u, v, rfl, by simp only [len_cons]; omega⟩
    · rintro ⟨u, v, h, hu⟩
      cases u with
      | nil => simp at hu
      | cons b u =>
        obtain ⟨rfl, rfl⟩ := List.cons.inj h
        simp only [len_cons] at hu
        exact ⟨by omega, u, v, rfl, by omega⟩

theorem isBoundary_zero (s : List α) : isBoundary s 0 = true :=
  isBoundary_iff.2 ⟨[], s, rfl, rfl⟩

theorem isBoundary_len (s : List α) : isBoundary s (len s) = true :=
  isBoundary_iff.2 ⟨s, [], by simp, rfl⟩

theorem isBoundary_append {s : List α} {n : ℕ} (h : isBoundary s n = true) (t : List α) :
    isBoundary (s ++ t) n = true := by
  obtain ⟨u, v, rfl, hu⟩ := isBoundary_iff.1 h
  exact isBoundary_iff.2 ⟨u, v ++ t, by simp, hu⟩

theorem isBoundary_le {s : List α} {n : ℕ} (h : isBoundary s n = true) : n ≤ len s := by
  obtain ⟨u, v, rfl, hu⟩ := isBoundary_iff.1 h
  simp only [len_append]
  omega

/-- The last boundary at or before an offset. -/
def floorBoundary (s : List α) : ℕ → ℕ
  | 0 => 0
  | n + 1 => if isBoundary s (n + 1) then n + 1 else floorBoundary s n

theorem floorBoundary_le (s : List α) : ∀ n, floorBoundary s n ≤ n
  | 0 => le_rfl
  | n + 1 => by
    have := floorBoundary_le s n
    unfold floorBoundary
    split <;> omega

theorem isBoundary_floorBoundary (s : List α) : ∀ n, isBoundary s (floorBoundary s n) = true
  | 0 => isBoundary_zero s
  | n + 1 => by
    unfold floorBoundary
    split
    · assumption
    · exact isBoundary_floorBoundary s n

theorem le_floorBoundary {s : List α} {i : ℕ} (hi : isBoundary s i = true) :
    ∀ {n}, i ≤ n → i ≤ floorBoundary s n
  | 0, h => h
  | n + 1, h => by
    unfold floorBoundary
    split
    · exact h
    · next hn =>
      rcases Nat.lt_or_ge n i with hlt | hle
      · obtain rfl : i = n + 1 := by omega
        exact absurd hi hn
      · exact le_floorBoundary hi hle

/-! ### Slices -/

/-- The longest beginning of a text of at most the given width. -/
def takeTo : List α → ℕ → List α
  | [], _ => []
  | a :: s, n => if width a ≤ n then a :: takeTo s (n - width a) else []

/-- What `takeTo` leaves. -/
def dropTo : List α → ℕ → List α
  | [], _ => []
  | a :: s, n => if width a ≤ n then dropTo s (n - width a) else a :: s

@[simp] theorem takeTo_append : ∀ u v : List α, takeTo (u ++ v) (len u) = u
  | [], [] => rfl
  | [], a :: v => by
    have := width_pos a
    simp only [List.nil_append, len_nil, takeTo, if_neg (by omega : ¬width a ≤ 0)]
  | a :: u, v => by
    simp only [List.cons_append, len_cons, takeTo, if_pos (Nat.le_add_right _ _),
      Nat.add_sub_cancel_left, takeTo_append u v]

@[simp] theorem dropTo_append : ∀ u v : List α, dropTo (u ++ v) (len u) = v
  | [], [] => rfl
  | [], a :: v => by
    have := width_pos a
    simp only [List.nil_append, len_nil, dropTo, if_neg (by omega : ¬width a ≤ 0)]
  | a :: u, v => by
    simp only [List.cons_append, len_cons, dropTo, if_pos (Nat.le_add_right _ _),
      Nat.add_sub_cancel_left, dropTo_append u v]

theorem takeTo_len (s : List α) : takeTo s (len s) = s := by
  simpa using takeTo_append s []

theorem takeTo_isPrefix : ∀ (s : List α) (n : ℕ), takeTo s n <+: s
  | [], _ => List.prefix_refl _
  | a :: s, n => by
    rw [takeTo]
    split
    · exact (List.prefix_cons_inj a).2 (takeTo_isPrefix s _)
    · exact List.nil_prefix

/-- The text between two offsets, if both are boundaries. -/
def slice? (s : List α) (a b : ℕ) : Option (List α) :=
  if a ≤ b ∧ isBoundary s a ∧ isBoundary s b then some (takeTo (dropTo s a) (b - a)) else none

theorem slice?_append (u m v : List α) :
    slice? (u ++ m ++ v) (len u) (len u + len m) = some m := by
  have ha : isBoundary (u ++ m ++ v) (len u) = true :=
    isBoundary_iff.2 ⟨u, m ++ v, by simp, rfl⟩
  have hb : isBoundary (u ++ m ++ v) (len u + len m) = true :=
    isBoundary_iff.2 ⟨u ++ m, v, rfl, by simp⟩
  rw [slice?, if_pos ⟨Nat.le_add_right _ _, ha, hb⟩, List.append_assoc, dropTo_append,
    Nat.add_sub_cancel_left, takeTo_append]

theorem slice?_eq_some_iff {s m : List α} {a b : ℕ} :
    slice? s a b = some m ↔ ∃ u v, s = u ++ m ++ v ∧ len u = a ∧ len u + len m = b := by
  constructor
  · intro h
    unfold slice? at h
    split at h
    · next hab =>
      obtain ⟨hle, ha, hb⟩ := hab
      obtain ⟨u, v, rfl, rfl⟩ := isBoundary_iff.1 ha
      obtain ⟨u', v', h', rfl⟩ := isBoundary_iff.1 hb
      obtain ⟨m', rfl⟩ : u <+: u' := prefix_of_len_le ⟨v, rfl⟩ ⟨v', h'.symm⟩ hle
      rw [List.append_assoc] at h'
      have hv := List.append_cancel_left h'
      rw [hv, dropTo_append, len_append, Nat.add_sub_cancel_left, takeTo_append] at h
      obtain rfl := Option.some.inj h
      exact ⟨u, v', by rw [hv, List.append_assoc], rfl, by simp⟩
    · cases h
  · rintro ⟨u, v, rfl, rfl, rfl⟩
    exact slice?_append u m v

theorem exists_slice? {s : List α} {a b : ℕ} (ha : isBoundary s a = true)
    (hb : isBoundary s b = true) (hab : a ≤ b) : ∃ m, slice? s a b = some m :=
  ⟨_, if_pos ⟨hab, ha, hb⟩⟩

theorem slice?_append_right {s m : List α} {a b : ℕ} (h : slice? s a b = some m) (t : List α) :
    slice? (s ++ t) a b = some m := by
  obtain ⟨u, v, rfl, ha, hb⟩ := slice?_eq_some_iff.1 h
  exact slice?_eq_some_iff.2 ⟨u, v ++ t, by simp, ha, hb⟩

theorem len_takeTo {s : List α} {n : ℕ} (h : isBoundary s n = true) : len (takeTo s n) = n := by
  obtain ⟨u, v, rfl, rfl⟩ := isBoundary_iff.1 h
  rw [takeTo_append]

theorem len_takeTo_le : ∀ (s : List α) (n : ℕ), len (takeTo s n) ≤ n
  | [], n => Nat.zero_le n
  | a :: s, n => by
    have ih := len_takeTo_le s (n - width a)
    unfold takeTo
    split
    · rw [len_cons]
      omega
    · exact Nat.zero_le n

theorem le_of_slice? {s m : List α} {a b : ℕ} (h : slice? s a b = some m) : a ≤ b := by
  obtain ⟨u, v, -, ha, hb⟩ := slice?_eq_some_iff.1 h
  omega

theorem takeTo_append_of_isBoundary {s : List α} {n : ℕ} (h : isBoundary s n = true)
    (t : List α) : takeTo (s ++ t) n = takeTo s n := by
  obtain ⟨u, v, rfl, rfl⟩ := isBoundary_iff.1 h
  rw [takeTo_append, List.append_assoc, takeTo_append]

/-- A slice continues the text up to its start. -/
theorem takeTo_append_slice? {s m : List α} {a b : ℕ} (h : slice? s a b = some m) :
    takeTo s a ++ m = takeTo s b := by
  obtain ⟨u, v, rfl, rfl, rfl⟩ := slice?_eq_some_iff.1 h
  have hb := takeTo_append (u ++ m) v
  rw [len_append] at hb
  rw [hb, List.append_assoc, takeTo_append]

theorem eq_takeTo_of_slice? {s m : List α} {b : ℕ} (h : slice? s 0 b = some m) :
    m = takeTo s b := by
  have hnone : takeTo s 0 = [] := len_eq_zero.1 (Nat.le_zero.1 (len_takeTo_le s 0))
  rw [← takeTo_append_slice? h, hnone, List.nil_append]

/-! ### Occurrences -/

/-- The pattern `p` stands in `s` at the offset `i`. -/
def OccursAt (p s : List α) (i : ℕ) : Prop := ∃ u v, s = u ++ p ++ v ∧ len u = i

theorem OccursAt.end_le {p s : List α} {i : ℕ} (h : OccursAt p s i) : i + len p ≤ len s := by
  obtain ⟨u, v, rfl, rfl⟩ := h
  simp only [len_append]
  omega

theorem OccursAt.isBoundary {p s : List α} {i : ℕ} (h : OccursAt p s i) :
    isBoundary s i = true := by
  obtain ⟨u, v, rfl, hu⟩ := h
  exact isBoundary_iff.2 ⟨u, p ++ v, by simp, hu⟩

theorem OccursAt.isBoundary_end {p s : List α} {i : ℕ} (h : OccursAt p s i) :
    Text.isBoundary s (i + len p) = true := by
  obtain ⟨u, v, rfl, rfl⟩ := h
  exact isBoundary_iff.2 ⟨u ++ p, v, rfl, by simp⟩

theorem OccursAt.append {p s : List α} {i : ℕ} (h : OccursAt p s i) (t : List α) :
    OccursAt p (s ++ t) i := by
  obtain ⟨u, v, rfl, hu⟩ := h
  exact ⟨u, v ++ t, by simp, hu⟩

/-- An occurrence in a grown text that ends within the old text was there before. -/
theorem OccursAt.of_append {p s t : List α} {i : ℕ} (h : OccursAt p (s ++ t) i)
    (hle : i + len p ≤ len s) : OccursAt p s i := by
  obtain ⟨u, v, hs, rfl⟩ := h
  obtain ⟨w, hw⟩ : u ++ p <+: s :=
    prefix_of_len_le ⟨v, hs.symm⟩ ⟨t, rfl⟩ (by simpa using hle)
  exact ⟨u, w, hw.symm, rfl⟩

theorem occursAt_dropTo {p s : List α} {a j : ℕ} (ha : isBoundary s a = true) :
    OccursAt p (dropTo s a) j ↔ OccursAt p s (a + j) := by
  obtain ⟨x, y, rfl, rfl⟩ := isBoundary_iff.1 ha
  rw [dropTo_append]
  constructor
  · rintro ⟨u, v, rfl, rfl⟩
    exact ⟨x ++ u, v, by simp, by simp⟩
  · rintro ⟨u, v, h, hu⟩
    have hpre : u ++ (p ++ v) = x ++ y := by rw [h, List.append_assoc]
    obtain ⟨w, rfl⟩ : x <+: u := prefix_of_len_le ⟨y, rfl⟩ ⟨p ++ v, hpre⟩ (by omega)
    rw [List.append_assoc] at hpre
    refine ⟨w, v, ?_, ?_⟩
    · rw [← List.append_cancel_left hpre, List.append_assoc]
    · simp only [len_append] at hu
      omega

theorem occursAt_nil {p : List α} {i : ℕ} : OccursAt p [] i ↔ p = [] ∧ i = 0 := by
  constructor
  · rintro ⟨u, v, h, rfl⟩
    simp only [List.nil_eq_append_iff, List.append_eq_nil_iff] at h
    exact ⟨h.1.2, by rw [h.1.1, len_nil]⟩
  · rintro ⟨rfl, rfl⟩
    exact ⟨[], [], rfl, rfl⟩

theorem occursAt_cons {p s : List α} {a : α} {i : ℕ} :
    OccursAt p (a :: s) i ↔ (p <+: a :: s ∧ i = 0) ∨ ∃ j, OccursAt p s j ∧ i = width a + j := by
  constructor
  · rintro ⟨u, v, h, rfl⟩
    cases u with
    | nil => exact .inl ⟨⟨v, by simpa using h.symm⟩, rfl⟩
    | cons b u =>
      obtain ⟨rfl, rfl⟩ := List.cons.inj h
      exact .inr ⟨len u, ⟨u, v, rfl, rfl⟩, rfl⟩
  · rintro (⟨⟨v, hv⟩, rfl⟩ | ⟨j, ⟨u, v, rfl, rfl⟩, rfl⟩)
    · exact ⟨[], v, by simpa using hv.symm, rfl⟩
    · exact ⟨a :: u, v, rfl, rfl⟩

/-- The offsets at which some pattern occurs. -/
def hits (ps : List (List α)) (s : List α) : Set ℕ := {i | ∃ p ∈ ps, OccursAt p s i}

theorem mem_hits_append {ps : List (List α)} {s : List α} {i : ℕ} (h : i ∈ hits ps s)
    (t : List α) : i ∈ hits ps (s ++ t) := by
  obtain ⟨p, hp, hocc⟩ := h
  exact ⟨p, hp, hocc.append t⟩

theorem hits_nonempty_iff {ps : List (List α)} {s : List α} :
    (hits ps s).Nonempty ↔ ∃ p ∈ ps, p <:+: s := by
  constructor
  · rintro ⟨i, p, hp, u, v, rfl, -⟩
    exact ⟨p, hp, u, v, rfl⟩
  · rintro ⟨p, hp, u, v, rfl⟩
    exact ⟨len u, p, hp, u, v, rfl, rfl⟩

/-- A pattern that is new in a grown text starts less than its width before the old end. -/
theorem lt_of_mem_hits_append {ps : List (List α)} {s t : List α} {m i : ℕ}
    (hmax : ∀ p ∈ ps, len p ≤ m) (hnew : i ∉ hits ps s) (hi : i ∈ hits ps (s ++ t)) :
    len s < i + m := by
  obtain ⟨p, hp, hocc⟩ := hi
  have := hmax p hp
  by_contra hle
  exact hnew ⟨p, hp, hocc.of_append (by omega)⟩

/-- An occurrence that lies within another is a part of the other pattern. -/
theorem OccursAt.isInfix {p q s : List α} {i j : ℕ} (hp : OccursAt p s i) (hq : OccursAt q s j)
    (hij : i ≤ j) (hend : j + len q ≤ i + len p) : q <:+: p := by
  obtain ⟨u, v, rfl, rfl⟩ := hp
  obtain ⟨u', v', hs, rfl⟩ := hq
  rw [List.append_assoc, List.append_assoc] at hs
  obtain ⟨x, rfl⟩ : u <+: u' := prefix_of_len_le ⟨p ++ v, rfl⟩ ⟨q ++ v', hs.symm⟩ hij
  rw [List.append_assoc] at hs
  have hpx := List.append_cancel_left hs
  rw [← List.append_assoc] at hpx
  simp only [len_append] at hend
  obtain ⟨y, rfl⟩ : x ++ q <+: p :=
    prefix_of_len_le ⟨v', hpx.symm⟩ ⟨v, rfl⟩ (by rw [len_append]; omega)
  exact ⟨x, y, rfl⟩

/-- Of patterns none of which is a part of another, the first one to be complete is the first
one to start. -/
theorem isLeast_hits_append {ps : List (List α)} {s : List α} {e : ℕ}
    (hapart : ∀ p ∈ ps, ∀ q ∈ ps, q ≠ p → ¬q <:+: p) (h : IsLeast (hits ps s) e) (t : List α) :
    IsLeast (hits ps (s ++ t)) e := by
  refine ⟨mem_hits_append h.1 t, fun j hj => ?_⟩
  by_contra hlt
  rw [Nat.not_le] at hlt
  obtain ⟨p, hp, hpj⟩ := hj
  obtain ⟨q, hq, hqe⟩ := h.1
  have hqend := hqe.end_le
  -- `p` starts before `q` and is not complete when `q` is
  have hpend : len s < j + len p := by
    by_contra hle
    have hold : j ∈ hits ps s := ⟨p, hp, hpj.of_append (by omega)⟩
    exact absurd (h.2 hold) (by omega)
  have hne : q ≠ p := by
    rintro rfl
    omega
  exact hapart p hp q hq hne (hpj.isInfix (hqe.append t) hlt.le (by omega))

/-- A pattern that has its first symbol nowhere else is not cut by a pattern that starts
with that symbol. -/
theorem OccursAt.separate {c : α} {p q s : List α} {i j : ℕ} (hp : c ∉ p.tail)
    (hq : q.head? = some c) (hi : OccursAt p s i) (hj : OccursAt q s j) (hij : i < j) :
    i + len p ≤ j := by
  by_contra hcut
  obtain ⟨u, v, rfl, rfl⟩ := hi
  obtain ⟨u', v', hs, rfl⟩ := hj
  rw [List.append_assoc, List.append_assoc] at hs
  obtain ⟨x, rfl⟩ : u <+: u' := prefix_of_len_le ⟨p ++ v, rfl⟩ ⟨q ++ v', hs.symm⟩ hij.le
  rw [List.append_assoc] at hs
  have hpx := List.append_cancel_left hs
  simp only [len_append] at hij hcut
  obtain ⟨y, rfl⟩ : x <+: p := prefix_of_len_le ⟨q ++ v', hpx.symm⟩ ⟨v, rfl⟩ (by omega)
  obtain ⟨q', rfl⟩ : ∃ q', q = c :: q' := List.head?_eq_some_iff.1 hq
  cases x with
  | nil => simp at hij
  | cons a x =>
    cases y with
    | nil =>
      simp only [List.append_nil] at hcut
      omega
    | cons b y =>
      rw [List.append_assoc] at hpx
      obtain ⟨rfl, -⟩ := List.cons.inj (List.append_cancel_left hpx)
      exact hp (by simp)

section Search

variable [DecidableEq α]

/-- The offset of the first occurrence of a pattern. -/
def find (p : List α) : List α → Option ℕ
  | [] => if p.isPrefixOf [] then some 0 else none
  | a :: s => if p.isPrefixOf (a :: s) then some 0 else (find p s).map (width a + ·)

/-- The offset of the last occurrence of a pattern. -/
def rfind (p : List α) : List α → Option ℕ
  | [] => if p.isPrefixOf [] then some 0 else none
  | a :: s =>
    match rfind p s with
    | some i => some (width a + i)
    | none => if p.isPrefixOf (a :: s) then some 0 else none

theorem find_eq_none_iff {p : List α} : ∀ {s : List α}, find p s = none ↔ ∀ i, ¬OccursAt p s i
  | [] => by
    simp only [find, List.isPrefixOf_iff_prefix, List.prefix_nil, occursAt_nil]
    by_cases hp : p = [] <;> simp [hp]
  | a :: s => by
    simp only [find, List.isPrefixOf_iff_prefix, occursAt_cons]
    by_cases hp : p <+: a :: s
    · simp only [hp, if_true, reduceCtorEq, false_iff, not_forall, not_not]
      exact ⟨0, .inl ⟨trivial, rfl⟩⟩
    · simp only [hp, if_false, Option.map_eq_none_iff, find_eq_none_iff (s := s), false_and,
        false_or, not_exists, not_and]
      exact ⟨fun h _ j hj _ => h j hj, fun h j hj => h _ j hj rfl⟩

theorem find_eq_some_iff {p : List α} : ∀ {s : List α} {i : ℕ},
    find p s = some i ↔ IsLeast {j | OccursAt p s j} i
  | [], i => by
    simp only [find, List.isPrefixOf_iff_prefix, List.prefix_nil, occursAt_nil, IsLeast,
      lowerBounds, Set.mem_ofPred_eq]
    by_cases hp : p = []
    · simp only [hp, if_true, Option.some.injEq, true_and]
      exact ⟨fun h => ⟨h.symm, fun j hj => by omega⟩, fun h => h.1.symm⟩
    · simp [hp]
  | a :: s, i => by
    have ha := width_pos a
    simp only [find, List.isPrefixOf_iff_prefix]
    by_cases hp : p <+: a :: s
    · simp only [hp, if_true, Option.some.injEq]
      constructor
      · rintro rfl
        exact ⟨occursAt_cons.2 (.inl ⟨hp, rfl⟩), fun j _ => Nat.zero_le j⟩
      · intro h
        exact (Nat.le_zero.1 (h.2 (occursAt_cons.2 (.inl ⟨hp, rfl⟩)))).symm
    · simp only [hp, if_false, Option.map_eq_some_iff, find_eq_some_iff (s := s)]
      constructor
      · rintro ⟨j, hj, rfl⟩
        refine ⟨occursAt_cons.2 (.inr ⟨j, hj.1, rfl⟩), fun k hk => ?_⟩
        rcases occursAt_cons.1 hk with ⟨h, -⟩ | ⟨k', hk', rfl⟩
        · exact absurd h hp
        · exact Nat.add_le_add_left (hj.2 hk') _
      · intro h
        rcases occursAt_cons.1 h.1 with ⟨h', -⟩ | ⟨j, hj, rfl⟩
        · exact absurd h' hp
        · refine ⟨j, ⟨hj, fun k hk => ?_⟩, rfl⟩
          exact Nat.le_of_add_le_add_left (h.2 (occursAt_cons.2 (.inr ⟨k, hk, rfl⟩)))

theorem rfind_eq_none_iff {p : List α} : ∀ {s : List α}, rfind p s = none ↔ ∀ i, ¬OccursAt p s i
  | [] => by
    simp only [rfind, List.isPrefixOf_iff_prefix, List.prefix_nil, occursAt_nil]
    by_cases hp : p = [] <;> simp [hp]
  | a :: s => by
    have ih := rfind_eq_none_iff (p := p) (s := s)
    simp only [rfind, List.isPrefixOf_iff_prefix, occursAt_cons]
    cases h : rfind p s with
    | some i =>
      simp only [h, reduceCtorEq, false_iff, not_forall, not_not] at ih
      obtain ⟨j, hj⟩ := ih
      simp only [reduceCtorEq, false_iff, not_forall, not_not]
      exact ⟨width a + j, .inr ⟨j, hj, rfl⟩⟩
    | none =>
      have hs := ih.1 h
      by_cases hp : p <+: a :: s
      · simp only [hp, if_true, reduceCtorEq, false_iff, not_forall, not_not]
        exact ⟨0, .inl ⟨trivial, rfl⟩⟩
      · simp only [hp, if_false, true_iff, false_and, false_or, not_exists, not_and]
        exact fun i j hj => absurd hj (hs j)

theorem rfind_eq_some_iff {p : List α} : ∀ {s : List α} {i : ℕ},
    rfind p s = some i ↔ IsGreatest {j | OccursAt p s j} i
  | [], i => by
    simp only [rfind, List.isPrefixOf_iff_prefix, List.prefix_nil, occursAt_nil, IsGreatest,
      upperBounds, Set.mem_ofPred_eq]
    by_cases hp : p = []
    · simp only [hp, if_true, Option.some.injEq, true_and]
      exact ⟨fun h => ⟨h.symm, fun j hj => by omega⟩, fun h => h.1.symm⟩
    · simp [hp]
  | a :: s, i => by
    simp only [rfind]
    cases h : rfind p s with
    | some k =>
      have hk : IsGreatest {j | OccursAt p s j} k := rfind_eq_some_iff.1 h
      have hgreat : IsGreatest {j | OccursAt p (a :: s) j} (width a + k) := by
        refine ⟨occursAt_cons.2 (.inr ⟨k, hk.1, rfl⟩), fun j hj => ?_⟩
        rcases occursAt_cons.1 hj with ⟨-, rfl⟩ | ⟨j', hj', rfl⟩
        · exact Nat.zero_le _
        · exact Nat.add_le_add_left (hk.2 hj') _
      simp only [Option.some.injEq]
      exact ⟨fun h => h ▸ hgreat, fun h => hgreat.unique h⟩
    | none =>
      have hs := rfind_eq_none_iff.1 h
      simp only [List.isPrefixOf_iff_prefix]
      by_cases hp : p <+: a :: s
      · simp only [hp, if_true, Option.some.injEq]
        have hgreat : IsGreatest {j | OccursAt p (a :: s) j} 0 := by
          refine ⟨occursAt_cons.2 (.inl ⟨hp, rfl⟩), fun j hj => ?_⟩
          rcases occursAt_cons.1 hj with ⟨-, rfl⟩ | ⟨j', hj', -⟩
          · exact le_rfl
          · exact absurd hj' (hs j')
        exact ⟨fun h => h ▸ hgreat, fun h => hgreat.unique h⟩
      · simp only [hp, if_false, reduceCtorEq, false_iff]
        intro hi
        rcases occursAt_cons.1 hi.1 with ⟨h', -⟩ | ⟨j, hj, -⟩
        · exact hp h'
        · exact hs j hj

theorem find_eq_none_iff_infix {p s : List α} : find p s = none ↔ ¬p <:+: s := by
  rw [find_eq_none_iff]
  constructor
  · rintro h ⟨u, v, rfl⟩
    exact h (len u) ⟨u, v, rfl, rfl⟩
  · rintro h i ⟨u, v, rfl, -⟩
    exact h ⟨u, v, rfl⟩

/-- A pattern that has its first symbol nowhere else is found after a text that does not
contain it. -/
theorem find_append_iff {c : α} {p u v : List α} (hhead : p.head? = some c) (htail : c ∉ p.tail) :
    find p (u ++ p ++ v) = some (len u) ↔ ¬p <:+: u := by
  rw [find_eq_some_iff]
  constructor
  · rintro h ⟨a, b, rfl⟩
    have hle := h.2 (show OccursAt p (a ++ p ++ b ++ p ++ v) (len a) from
      ⟨a, b ++ p ++ v, by simp, rfl⟩)
    have hp : len p ≠ 0 := by
      intro hzero
      rw [len_eq_zero.1 hzero] at hhead
      cases hhead
    simp only [len_append] at hle
    omega
  · intro h
    refine ⟨⟨u, v, rfl, rfl⟩, fun j hj => ?_⟩
    by_contra hlt
    have hend := OccursAt.separate htail hhead hj (show OccursAt p (u ++ p ++ v) (len u) from
      ⟨u, v, rfl, rfl⟩) (by omega)
    rw [List.append_assoc] at hj
    obtain ⟨a, b, hab, -⟩ := hj.of_append hend
    exact h ⟨a, b, hab.symm⟩

theorem find_singleton_append_iff {c : α} {u v : List α} :
    find [c] (u ++ [c] ++ v) = some (len u) ↔ c ∉ u := by
  rw [find_append_iff rfl List.not_mem_nil, List.singleton_infix_iff]

/-! ### A cut at the first occurrence -/

/-- The text before and the text after the first occurrence of a pattern. -/
def cut (p s : List α) : Option (List α × List α) :=
  (find p s).map fun i => (takeTo s i, dropTo s (i + len p))

theorem cut_eq_none_iff {p s : List α} : cut p s = none ↔ find p s = none :=
  Option.map_eq_none_iff

theorem cut_append {p u v : List α} (h : find p (u ++ p ++ v) = some (len u)) :
    cut p (u ++ p ++ v) = some (u, v) := by
  have hdrop := dropTo_append (u ++ p) v
  rw [len_append] at hdrop
  rw [cut, h, Option.map_some, hdrop, List.append_assoc, takeTo_append]

theorem cut_eq_some_iff {p s u v : List α} :
    cut p s = some (u, v) ↔ s = u ++ p ++ v ∧ find p s = some (len u) := by
  constructor
  · intro h
    obtain ⟨i, hi, huv⟩ := Option.map_eq_some_iff.1 h
    obtain ⟨u', v', rfl, rfl⟩ := (find_eq_some_iff.1 hi).1
    have h' := cut_append hi
    rw [h] at h'
    obtain ⟨rfl, rfl⟩ := Prod.mk.inj (Option.some.inj h')
    exact ⟨rfl, hi⟩
  · rintro ⟨rfl, h⟩
    exact cut_append h

theorem exists_cut {p s : List α} {i : ℕ} (h : find p s = some i) :
    ∃ u v, s = u ++ p ++ v ∧ len u = i ∧ cut p s = some (u, v) := by
  obtain ⟨u, v, rfl, rfl⟩ := (find_eq_some_iff.1 h).1
  exact ⟨u, v, rfl, rfl, cut_append h⟩

/-- In a text that grows at its end, a cut at a pattern that has its first symbol nowhere
else stays where it is. -/
theorem cut_append_right {c : α} {p s u v : List α} (hhead : p.head? = some c)
    (htail : c ∉ p.tail) (h : cut p s = some (u, v)) (t : List α) :
    cut p (s ++ t) = some (u, v ++ t) := by
  obtain ⟨rfl, hfind⟩ := cut_eq_some_iff.1 h
  have hnew := (find_append_iff (v := v ++ t) hhead htail).2 ((find_append_iff hhead htail).1 hfind)
  rw [← List.append_assoc] at hnew
  exact cut_eq_some_iff.2 ⟨by simp, hnew⟩

/-! ### Several patterns -/

/-- The first occurrence of any pattern in the text from the offset `a` on. -/
def earliestFrom (ps : List (List α)) (s : List α) (a : ℕ) : Option ℕ :=
  (ps.filterMap fun p => (find p (dropTo s a)).map (a + ·)).min?

theorem mem_filterMap_find {ps : List (List α)} {s : List α} {a i : ℕ}
    (ha : isBoundary s a = true) :
    i ∈ ps.filterMap (fun p => (find p (dropTo s a)).map (a + ·)) ↔
      ∃ p ∈ ps, IsLeast {j | OccursAt p s j ∧ a ≤ j} i := by
  simp only [List.mem_filterMap, Option.map_eq_some_iff, find_eq_some_iff]
  refine exists_congr fun p => and_congr_right fun _ => ?_
  constructor
  · rintro ⟨j, hj, rfl⟩
    refine ⟨⟨(occursAt_dropTo ha).1 hj.1, Nat.le_add_right _ _⟩, ?_⟩
    rintro k ⟨hk, hak⟩
    obtain ⟨k', rfl⟩ := Nat.exists_eq_add_of_le hak
    exact Nat.add_le_add_left (hj.2 ((occursAt_dropTo ha).2 hk)) _
  · rintro ⟨⟨hi, hai⟩, hleast⟩
    obtain ⟨i', rfl⟩ := Nat.exists_eq_add_of_le hai
    refine ⟨i', ⟨(occursAt_dropTo ha).2 hi, fun k hk => ?_⟩, rfl⟩
    exact Nat.le_of_add_le_add_left (hleast ⟨(occursAt_dropTo ha).1 hk, Nat.le_add_right _ _⟩)

theorem exists_isLeast_of_occursAt {p s : List α} {a i : ℕ} (ha : isBoundary s a = true)
    (hi : OccursAt p s i) (hai : a ≤ i) :
    ∃ k ≤ i, IsLeast {j | OccursAt p s j ∧ a ≤ j} k := by
  obtain ⟨i', rfl⟩ := Nat.exists_eq_add_of_le hai
  have hi' := (occursAt_dropTo ha).2 hi
  cases h : find p (dropTo s a) with
  | none => exact absurd hi' (find_eq_none_iff.1 h i')
  | some k =>
    have hk := find_eq_some_iff.1 h
    have hmem : a + k ∈ [p].filterMap (fun p => (find p (dropTo s a)).map (a + ·)) := by simp [h]
    obtain ⟨q, hq, hleast⟩ := (mem_filterMap_find ha).1 hmem
    rw [List.mem_singleton.1 hq] at hleast
    exact ⟨a + k, Nat.add_le_add_left (hk.2 hi') _, hleast⟩

theorem earliestFrom_eq_some_iff {ps : List (List α)} {s : List α} {a i : ℕ}
    (ha : isBoundary s a = true) :
    earliestFrom ps s a = some i ↔ IsLeast {j | j ∈ hits ps s ∧ a ≤ j} i := by
  rw [earliestFrom, List.min?_eq_some_iff]
  simp only [mem_filterMap_find ha]
  constructor
  · rintro ⟨⟨p, hp, hi⟩, hmin⟩
    refine ⟨⟨⟨p, hp, hi.1.1⟩, hi.1.2⟩, ?_⟩
    rintro j ⟨⟨q, hq, hj⟩, haj⟩
    obtain ⟨k, hkj, hk⟩ := exists_isLeast_of_occursAt ha hj haj
    exact (hmin k ⟨q, hq, hk⟩).trans hkj
  · rintro ⟨⟨⟨p, hp, hi⟩, hai⟩, hleast⟩
    refine ⟨⟨p, hp, ⟨hi, hai⟩, fun j hj => hleast ⟨⟨p, hp, hj.1⟩, hj.2⟩⟩, ?_⟩
    rintro j ⟨q, hq, hj⟩
    exact hleast ⟨⟨q, hq, hj.1.1⟩, hj.1.2⟩

theorem earliestFrom_eq_none_iff {ps : List (List α)} {s : List α} {a : ℕ}
    (ha : isBoundary s a = true) :
    earliestFrom ps s a = none ↔ ∀ j ∈ hits ps s, j < a := by
  rw [earliestFrom, List.min?_eq_none_iff, List.eq_nil_iff_forall_not_mem]
  simp only [mem_filterMap_find ha]
  constructor
  · rintro h j ⟨p, hp, hj⟩
    by_contra hlt
    obtain ⟨k, -, hk⟩ := exists_isLeast_of_occursAt ha hj (by omega)
    exact h k ⟨p, hp, hk⟩
  · rintro h i ⟨p, hp, hi⟩
    exact absurd (h i ⟨p, hp, hi.1.1⟩) (by have := hi.1.2; omega)

/-- Where nothing occurred before the text grew, the search may start one symbol short of
the longest pattern before the old end. -/
theorem earliestFrom_append {ps : List (List α)} {s t : List α} {a m : ℕ}
    (hmax : ∀ p ∈ ps, len p ≤ m) (hnone : hits ps s = ∅) (hle : a ≤ len s - (m - 1))
    (ha : isBoundary (s ++ t) a = true) :
    earliestFrom ps (s ++ t) a = earliestFrom ps (s ++ t) 0 := by
  have hge : ∀ j ∈ hits ps (s ++ t), a ≤ j := by
    intro j hj
    have := lt_of_mem_hits_append hmax (by simp [hnone]) hj
    omega
  cases h : earliestFrom ps (s ++ t) a with
  | none =>
    rw [earliestFrom_eq_none_iff ha] at h
    rw [eq_comm, earliestFrom_eq_none_iff (isBoundary_zero _)]
    intro j hj
    exact absurd (h j hj) (by have := hge j hj; omega)
  | some i =>
    rw [earliestFrom_eq_some_iff ha] at h
    rw [eq_comm, earliestFrom_eq_some_iff (isBoundary_zero _)]
    exact ⟨⟨h.1.1, Nat.zero_le _⟩, fun j hj => h.2 ⟨hj.1, hge j hj.1⟩⟩

end Search

end KirAi.Lib.Text
