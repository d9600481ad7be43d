/-
# Stop sequences

`stop.rs`: the cut at the earliest stop (`applyStopSequences`), the search for a stop in
a text that grows by chunks (`IncrementalStopDetector`), and how much of such a text can
be shown before the next chunk (`safeStreamEmitLen`). A Rust string is its list of
characters, its byte offsets are the offsets of `Lib.Text` with the encoded size of a
character as its width.

Both the search and the part held back are one byte short of the longest stop, moved to
the character boundary before. So as long as no stop has been seen, the incremental
search is the full scan (`observe_eq`), and what may be shown ends before every stop
still to come (`safeStreamEmitLen_le_of_mem_hits`).

Key definitions:
* `Str`, `applyStopSequences`, `earliestStopIndex`, `maxStopSequenceLen`
* `IncrementalStopDetector`, `IncrementalStopDetector.observe`, `safeStreamEmitLen`

Key theorems:
* `applyStopSequences_eq`, `observe_eq`
* `safeStreamEmitLen_append_le`, `safeStreamEmitLen_le_of_mem_hits`
-/
import Mathlib.Data.Nat.Find
import KirAi.Lib.Text

namespace KirAi.Runtime

open Lib Lib.Text

/-- A Rust string, as its characters. -/
abbrev Str := List Char

/-- A character is as wide as its encoding. -/
instance : Width Char := ⟨Char.utf8Size, Char.utf8Size_pos⟩

/-! ### Whitespace -/

/-- The characters of the Unicode property `White_Space`. -/
def isWhitespace (c : Char) : Bool :=
  let n := c.toNat
  (9 ≤ n && n ≤ 13) || n == 0x20 || n == 0x85 || n == 0xA0 || n == 0x1680 ||
    (0x2000 ≤ n && n ≤ 0x200A) || n == 0x2028 || n == 0x2029 || n == 0x202F || n == 0x205F ||
    n == 0x3000

def trimStart (s : Str) : Str := s.dropWhile isWhitespace

def trim (s : Str) : Str := ((trimStart s).reverse.dropWhile isWhitespace).reverse

/-! ### The cut at the earliest stop -/

/-- The text cut at the earliest stop, and whether there was one. -/
def applyStopSequences (content : Str) (stop : List Str) : Str × Bool :=
  match (stop.filterMap fun sequence => find sequence content).min? with
  | none => (content, false)
  | some stopAt => (takeTo content stopAt, true)

/-- The full scan for a stop. -/
def earliestStopIndex (content : Str) (stop : List Str) : Option ℕ :=
  (stop.filterMap fun sequence => find sequence content).min?

def maxStopSequenceLen (stop : List Str) : ℕ := ((stop.map len).max?).getD 0

theorem len_le_maxStopSequenceLen {stop : List Str} {p : Str} (hp : p ∈ stop) :
    len p ≤ maxStopSequenceLen stop := by
  have hmem : len p ∈ stop.map len := List.mem_map_of_mem hp
  unfold maxStopSequenceLen
  cases h : (stop.map len).max? with
  | none =>
    rw [List.max?_eq_none_iff] at h
    rw [h] at hmem
    cases hmem
  | some m => exact (List.max?_eq_some_iff.1 h).2 _ hmem

theorem dropTo_zero (s : Str) : dropTo s 0 = s := by
  simpa using dropTo_append [] s

theorem earliestStopIndex_eq (content : Str) (stop : List Str) :
    earliestStopIndex content stop = earliestFrom stop content 0 := by
  have h : stop.filterMap (fun sequence => find sequence content) =
      stop.filterMap (fun p => (find p (dropTo content 0)).map (0 + ·)) := by
    simp [dropTo_zero]
  rw [earliestStopIndex, earliestFrom, h]

/-- The cut is at the least offset at which a stop occurs. -/
theorem applyStopSequences_eq (content : Str) (stop : List Str) :
    applyStopSequences content stop =
      match earliestFrom stop content 0 with
      | none => (content, false)
      | some stopAt => (takeTo content stopAt, true) := by
  rw [← earliestStopIndex_eq]
  rfl

section Hits

variable {stop : List Str} {T : Str}

theorem isLeast_hits {e : ℕ} (h : earliestFrom stop T 0 = some e) : IsLeast (hits stop T) e := by
  have h' := (earliestFrom_eq_some_iff (isBoundary_zero T)).1 h
  exact ⟨h'.1.1, fun j hj => h'.2 ⟨hj, Nat.zero_le j⟩⟩

theorem hits_eq_empty (h : earliestFrom stop T 0 = none) : hits stop T = ∅ := by
  have h' := (earliestFrom_eq_none_iff (isBoundary_zero T)).1 h
  exact Set.eq_empty_of_forall_notMem fun j hj => absurd (h' j hj) (Nat.not_lt_zero j)

theorem isBoundary_of_mem_hits {e : ℕ} (h : e ∈ hits stop T) : isBoundary T e = true := by
  obtain ⟨p, -, hp⟩ := h
  exact hp.isBoundary

theorem exists_isLeast_hits (hT : (hits stop T).Nonempty) : ∃ e, IsLeast (hits stop T) e := by
  cases h : earliestFrom stop T 0 with
  | none => exact absurd (hits_eq_empty h) hT.ne_empty
  | some e => exact ⟨e, isLeast_hits h⟩

theorem hits_nil (hne : ∀ p ∈ stop, p ≠ []) : hits stop [] = ∅ := by
  refine Set.eq_empty_of_forall_notMem fun j hj => ?_
  obtain ⟨p, hp, hocc⟩ := hj
  exact hne p hp (occursAt_nil.1 hocc).1

/-- A stop occurrence that ends first. -/
theorem exists_first_end (hT : (hits stop T).Nonempty) :
    ∃ q ∈ stop, ∃ j, OccursAt q T j ∧
      ∀ p ∈ stop, ∀ i, OccursAt p T i → j + len q ≤ i + len p := by
  classical
  have hex : ∃ n, ∃ q ∈ stop, ∃ j, OccursAt q T j ∧ j + len q = n := by
    obtain ⟨j, q, hq, hj⟩ := hT
    exact ⟨_, q, hq, j, hj, rfl⟩
  obtain ⟨q, hq, j, hj, hend⟩ := Nat.find_spec hex
  refine ⟨q, hq, j, hj, fun p hp i hi => ?_⟩
  rw [hend]
  exact Nat.find_min' hex ⟨p, hp, i, hi, rfl⟩

end Hits

/-! ### The search over a growing text -/

structure IncrementalStopDetector where
  maxStopLen : ℕ
  previousLen : ℕ
deriving DecidableEq, Repr

namespace IncrementalStopDetector

def new (stop : List Str) : IncrementalStopDetector := ⟨maxStopSequenceLen stop, 0⟩

/-- The earliest stop in the part of the text that is new, or so near to it that the stop
was not complete before. -/
def observe (d : IncrementalStopDetector) (content : Str) (stop : List Str) :
    Option ℕ × IncrementalStopDetector :=
  if stop.isEmpty then (none, { d with previousLen := len content })
  else if stop.any (·.isEmpty) then (some 0, { d with previousLen := len content })
  else
    let overlap := d.maxStopLen - 1
    let searchStart := floorBoundary content (d.previousLen - overlap)
    (earliestFrom stop content searchStart, { d with previousLen := len content })

theorem observe_snd (d : IncrementalStopDetector) (content : Str) (stop : List Str) :
    (d.observe content stop).2 = { d with previousLen := len content } := by
  unfold observe
  split
  · rfl
  · split <;> rfl

/-- While no stop has occurred, the incremental search is the search of the whole text. -/
theorem observe_eq {stop : List Str} (hne : ∀ p ∈ stop, p ≠ []) {s : Str}
    (hnone : hits stop s = ∅) (t : Str) :
    (observe ⟨maxStopSequenceLen stop, len s⟩ (s ++ t) stop).1 =
      earliestFrom stop (s ++ t) 0 := by
  unfold observe
  split
  · next h =>
    rw [List.isEmpty_iff.1 h]
    rfl
  · split
    · next h =>
      obtain ⟨p, hp, hempty⟩ := List.any_eq_true.1 h
      exact absurd (List.isEmpty_iff.1 hempty) (hne p hp)
    · exact earliestFrom_append (fun p hp => len_le_maxStopSequenceLen hp) hnone
        (floorBoundary_le _ _) (isBoundary_floorBoundary _ _)

/-- The same for any stops: an empty stop occurs as soon as there is a text. -/
theorem observe_eq_of_fresh {stop : List Str} {s : Str} (hnone : s ≠ [] → hits stop s = ∅)
    (t : Str) :
    (observe ⟨maxStopSequenceLen stop, len s⟩ (s ++ t) stop).1 =
      earliestFrom stop (s ++ t) 0 := by
  by_cases hne : ∀ p ∈ stop, p ≠ []
  · refine observe_eq hne ?_ t
    by_cases hs : s = []
    · rw [hs]
      exact hits_nil hne
    · exact hnone hs
  · push Not at hne
    obtain ⟨p, hp, rfl⟩ := hne
    have hstop : stop.isEmpty = false := by
      cases stop with
      | nil => cases hp
      | cons a l => rfl
    have hany : stop.any (·.isEmpty) = true := List.any_eq_true.2 ⟨[], hp, rfl⟩
    have hzero : earliestFrom stop (s ++ t) 0 = some 0 :=
      (earliestFrom_eq_some_iff (isBoundary_zero _)).2
        ⟨⟨⟨[], hp, [], s ++ t, rfl, rfl⟩, le_rfl⟩, fun j _ => Nat.zero_le j⟩
    simp [observe, hstop, hany, hzero]

end IncrementalStopDetector

/-! ### The part that can be shown -/

def safeStreamEmitLen (content : Str) (maxStopLen : ℕ) : ℕ :=
  if maxStopLen ≤ 1 then len content
  else floorBoundary content (len content - (maxStopLen - 1))

theorem safeStreamEmitLen_le (content : Str) (m : ℕ) :
    safeStreamEmitLen content m ≤ len content - (m - 1) := by
  unfold safeStreamEmitLen
  split
  · omega
  · exact floorBoundary_le _ _

theorem isBoundary_safeStreamEmitLen (content : Str) (m : ℕ) :
    isBoundary content (safeStreamEmitLen content m) = true := by
  unfold safeStreamEmitLen
  split
  · exact isBoundary_len content
  · exact isBoundary_floorBoundary _ _

theorem safeStreamEmitLen_nil (m : ℕ) : safeStreamEmitLen [] m = 0 := by
  have := safeStreamEmitLen_le [] m
  simp only [len_nil] at this
  omega

/-- What can be shown grows with the text. -/
theorem safeStreamEmitLen_append_le (s t : Str) (m : ℕ) :
    safeStreamEmitLen s m ≤ safeStreamEmitLen (s ++ t) m := by
  have hle := safeStreamEmitLen_le s m
  have hb := isBoundary_append (isBoundary_safeStreamEmitLen s m) t
  have hlen := len_append s t
  rw [safeStreamEmitLen.eq_def (s ++ t)]
  split
  · omega
  · exact le_floorBoundary hb (by omega)

/-- What can be shown ends before every stop that a later chunk completes. -/
theorem safeStreamEmitLen_le_of_mem_hits {stop : List Str} {s t : Str} {i : ℕ}
    (hnew : i ∉ hits stop s) (hi : i ∈ hits stop (s ++ t)) :
    safeStreamEmitLen s (maxStopSequenceLen stop) ≤ i := by
  have h := lt_of_mem_hits_append (fun p hp => len_le_maxStopSequenceLen hp) hnew hi
  have := safeStreamEmitLen_le s (maxStopSequenceLen stop)
  omega

end KirAi.Runtime
