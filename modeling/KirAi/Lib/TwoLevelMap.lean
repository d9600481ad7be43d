/-
# Maps of maps without empty buckets

A table with two keys kept as a map of maps: the outer key finds a bucket, the
inner key an entry of it. Putting an entry makes the bucket if there is none;
deleting the last entry of a bucket deletes the bucket, so there is never an
empty one (`NoEmptyBucket`).

Key definitions: `at2`, `put2`, `del2`, `bucket`, `sum2`.
Key theorems: `at2_put2`, `at2_del2`, `bucket_put2`, `bucket_del2`,
`sum2_put2`, `sum2_del2`.
-/
import KirAi.Lib.FiniteMap

namespace KirAi.Lib

variable {κ₁ κ₂ ν : Type} {cmp₁ : κ₁ → κ₁ → Ordering} {cmp₂ : κ₂ → κ₂ → Ordering}
  [Std.TransCmp cmp₁] [Std.TransCmp cmp₂]

/-- A map of maps. -/
abbrev Map2 (κ₁ κ₂ ν : Type) (cmp₁ : κ₁ → κ₁ → Ordering) (cmp₂ : κ₂ → κ₂ → Ordering)
    [Std.TransCmp cmp₁] [Std.TransCmp cmp₂] :=
  Std.ExtTreeMap κ₁ (Std.ExtTreeMap κ₂ ν cmp₂) cmp₁

/-- The bucket under a key; the empty one when there is none. -/
def bucket (m : Map2 κ₁ κ₂ ν cmp₁ cmp₂) (a : κ₁) : Std.ExtTreeMap κ₂ ν cmp₂ := m[a]?.getD ∅

def at2 (m : Map2 κ₁ κ₂ ν cmp₁ cmp₂) (a : κ₁) (b : κ₂) : Option ν := (bucket m a)[b]?

def put2 (m : Map2 κ₁ κ₂ ν cmp₁ cmp₂) (a : κ₁) (b : κ₂) (v : ν) : Map2 κ₁ κ₂ ν cmp₁ cmp₂ :=
  m.insert a ((bucket m a).insert b v)

def del2 (m : Map2 κ₁ κ₂ ν cmp₁ cmp₂) (a : κ₁) (b : κ₂) : Map2 κ₁ κ₂ ν cmp₁ cmp₂ :=
  if ((bucket m a).erase b).isEmpty then m.erase a else m.insert a ((bucket m a).erase b)

def NoEmptyBucket (m : Map2 κ₁ κ₂ ν cmp₁ cmp₂) : Prop :=
  ∀ (a : κ₁) (c : Std.ExtTreeMap κ₂ ν cmp₂), m[a]? = some c → c ≠ ∅

/-- The sum of `f` over all entries. -/
def sum2 (m : Map2 κ₁ κ₂ ν cmp₁ cmp₂) (f : κ₂ × ν → ℕ) : ℕ := entrySum m fun e => entrySum e.2 f

variable {m : Map2 κ₁ κ₂ ν cmp₁ cmp₂}

theorem noEmptyBucket_empty : NoEmptyBucket (∅ : Map2 κ₁ κ₂ ν cmp₁ cmp₂) :=
  fun a c h => by simp at h

section Buckets

variable [Std.LawfulEqCmp cmp₁] [DecidableEq κ₁]

theorem bucket_insert (m : Map2 κ₁ κ₂ ν cmp₁ cmp₂) (a : κ₁) (c : Std.ExtTreeMap κ₂ ν cmp₂)
    (a' : κ₁) : bucket (m.insert a c) a' = if a = a' then c else bucket m a' := by
  unfold bucket
  rw [getElem?_insert_ite]
  by_cases h : a = a'
  · rw [if_pos h, if_pos h]
    rfl
  · rw [if_neg h, if_neg h]

theorem bucket_erase (m : Map2 κ₁ κ₂ ν cmp₁ cmp₂) (a a' : κ₁) :
    bucket (m.erase a) a' = if a = a' then ∅ else bucket m a' := by
  unfold bucket
  rw [getElem?_erase_ite]
  by_cases h : a = a'
  · rw [if_pos h, if_pos h]
    rfl
  · rw [if_neg h, if_neg h]

theorem bucket_put2 (m : Map2 κ₁ κ₂ ν cmp₁ cmp₂) (a : κ₁) (b : κ₂) (v : ν) (a' : κ₁) :
    bucket (put2 m a b v) a' = if a = a' then (bucket m a).insert b v else bucket m a' :=
  bucket_insert m a _ a'

/-- Deleting an entry erases it from its bucket, also where the bucket goes. -/
theorem bucket_del2 (m : Map2 κ₁ κ₂ ν cmp₁ cmp₂) (a : κ₁) (b : κ₂) (a' : κ₁) :
    bucket (del2 m a b) a' = if a = a' then (bucket m a).erase b else bucket m a' := by
  unfold del2
  by_cases he : ((bucket m a).erase b).isEmpty
  · rw [if_pos he, bucket_erase, Std.ExtTreeMap.isEmpty_iff.mp he]
  · rw [if_neg he, bucket_insert]

theorem NoEmptyBucket.put2 (h : NoEmptyBucket m) (a : κ₁) (b : κ₂) (v : ν) :
    NoEmptyBucket (put2 m a b v) := by
  intro a' c hc
  rw [KirAi.Lib.put2, getElem?_insert_ite] at hc
  by_cases ha : a = a'
  · rw [if_pos ha, Option.some.injEq] at hc
    rw [← hc]
    exact Std.ExtTreeMap.insert_ne_empty
  · rw [if_neg ha] at hc
    exact h a' c hc

theorem NoEmptyBucket.del2 (h : NoEmptyBucket m) (a : κ₁) (b : κ₂) :
    NoEmptyBucket (del2 m a b) := by
  intro a' c hc
  unfold KirAi.Lib.del2 at hc
  by_cases he : ((bucket m a).erase b).isEmpty
  · rw [if_pos he, getElem?_erase_ite] at hc
    by_cases ha : a = a'
    · rw [if_pos ha] at hc
      cases hc
    · rw [if_neg ha] at hc
      exact h a' c hc
  · rw [if_neg he, getElem?_insert_ite] at hc
    by_cases ha : a = a'
    · rw [if_pos ha, Option.some.injEq] at hc
      rw [← hc]
      exact fun hempty => he (Std.ExtTreeMap.isEmpty_iff.mpr hempty)
    · rw [if_neg ha] at hc
      exact h a' c hc

variable [Std.LawfulEqCmp cmp₂] [DecidableEq κ₂]

theorem at2_put2 (m : Map2 κ₁ κ₂ ν cmp₁ cmp₂) (a : κ₁) (b : κ₂) (v : ν) (a' : κ₁) (b' : κ₂) :
    at2 (put2 m a b v) a' b' = if a = a' ∧ b = b' then some v else at2 m a' b' := by
  unfold at2
  rw [bucket_put2]
  by_cases ha : a = a'
  · subst ha
    rw [if_pos rfl, getElem?_insert_ite]
    simp only [true_and]
  · rw [if_neg ha, if_neg fun h => ha h.1]

theorem at2_del2 (m : Map2 κ₁ κ₂ ν cmp₁ cmp₂) (a : κ₁) (b : κ₂) (a' : κ₁) (b' : κ₂) :
    at2 (del2 m a b) a' b' = if a = a' ∧ b = b' then none else at2 m a' b' := by
  unfold at2
  rw [bucket_del2]
  by_cases ha : a = a'
  · subst ha
    rw [if_pos rfl, getElem?_erase_ite]
    simp only [true_and]
  · rw [if_neg ha, if_neg fun h => ha h.1]

end Buckets

section Entries

variable [Std.LawfulEqCmp cmp₁]

/-- The sum splits into one bucket and the others. -/
theorem sum2_eq (m : Map2 κ₁ κ₂ ν cmp₁ cmp₂) (f : κ₂ × ν → ℕ) (a : κ₁) :
    sum2 m f = sum2 (m.erase a) f + entrySum (bucket m a) f := by
  unfold bucket
  cases h : m[a]? with
  | none =>
    rw [erase_of_getElem?_eq_none h, Option.getD_none, entrySum_empty, Nat.add_zero]
  | some c => exact (entrySum_erase (fun e => entrySum e.2 f) h).symm

theorem sum2_insert (m : Map2 κ₁ κ₂ ν cmp₁ cmp₂) (f : κ₂ × ν → ℕ) (a : κ₁)
    (c : Std.ExtTreeMap κ₂ ν cmp₂) : sum2 (m.insert a c) f = sum2 (m.erase a) f + entrySum c f :=
  entrySum_insert m (fun e => entrySum e.2 f) a c

variable [Std.LawfulEqCmp cmp₂]

/-- A table without entries has no buckets. -/
theorem NoEmptyBucket.eq_empty (h : NoEmptyBucket m) (hat : ∀ a b, at2 m a b = none) : m = ∅ := by
  refine Std.ExtTreeMap.ext_getElem? fun a => ?_
  cases hc : m[a]? with
  | none => simp
  | some c =>
    refine absurd (Std.ExtTreeMap.ext_getElem? fun b => ?_) (h a c hc)
    have hb := hat a b
    rw [at2, bucket, hc, Option.getD_some] at hb
    rw [hb]
    simp

theorem sum2_put2 (f : κ₂ × ν → ℕ) {a : κ₁} {b : κ₂} (v : ν) (h : at2 m a b = none) :
    sum2 (put2 m a b v) f = sum2 m f + f (b, v) := by
  have hput : entrySum ((bucket m a).insert b v) f = entrySum (bucket m a) f + f (b, v) := by
    rw [entrySum_insert, erase_of_getElem?_eq_none h]
  rw [put2, sum2_insert, sum2_eq m f a, hput, Nat.add_assoc]

/-- An entry replaced by one of the same weight. -/
theorem sum2_put2_same (f : κ₂ × ν → ℕ) {a : κ₁} {b : κ₂} {v w : ν} (h : at2 m a b = some w)
    (hf : f (b, v) = f (b, w)) : sum2 (put2 m a b v) f = sum2 m f := by
  have herase := entrySum_erase f h
  rw [put2, sum2_insert, sum2_eq m f a, entrySum_insert, hf, herase]

theorem sum2_del2 (f : κ₂ × ν → ℕ) {a : κ₁} {b : κ₂} {v : ν} (h : at2 m a b = some v) :
    sum2 (del2 m a b) f + f (b, v) = sum2 m f := by
  have herase := entrySum_erase f h
  rw [sum2_eq m f a, ← herase]
  unfold del2
  by_cases he : ((bucket m a).erase b).isEmpty
  · rw [if_pos he, Std.ExtTreeMap.isEmpty_iff.mp he, entrySum_empty]
    omega
  · rw [if_neg he, sum2_insert]
    omega

end Entries

end KirAi.Lib
