/-
# Counting the entries of a finite map

`entryCount m P` is the number of entries of an ordered map that satisfy `P`,
and `entrySum m f` the sum of `f` over its entries. Inserting under a key and
erasing it change both by the entry that comes and the entry that goes
(`entryCount_insert`, `entryCount_erase`, `entrySum_insert`, `entrySum_erase`);
an entry that satisfies `P` makes the count positive (`entryCount_pos`).
-/
import Mathlib.Algebra.Ring.Nat
import Mathlib.Data.Nat.Notation
import Mathlib.Data.List.Perm.Basic
import Mathlib.Data.List.Nodup
import Mathlib.Tactic.Common
import Std.Data.ExtTreeMap

namespace KirAi.Lib

variable {κ ν : Type} {cmp : κ → κ → Ordering} [Std.TransCmp cmp] [Std.LawfulEqCmp cmp]

/-- How many entries of the map satisfy `P`. -/
def entryCount (m : Std.ExtTreeMap κ ν cmp) (P : κ × ν → Bool) : ℕ := m.toList.countP P

/-- How much one optional entry counts. -/
def entryWeight (P : κ × ν → Bool) (k : κ) : Option ν → ℕ
  | none => 0
  | some v => if P (k, v) then 1 else 0

omit [Std.LawfulEqCmp cmp] in
theorem nodup_toList (m : Std.ExtTreeMap κ ν cmp) : m.toList.Nodup := by
  have h := m.distinct_keys_toList
  refine h.imp fun {a b} hab he => hab ?_
  rw [he]
  exact Std.ReflCmp.compare_self

/-- Reading after an insertion, with the keys compared by equality. -/
theorem getElem?_insert_ite [DecidableEq κ] (m : Std.ExtTreeMap κ ν cmp) (k a : κ) (v : ν) :
    (m.insert k v)[a]? = if k = a then some v else m[a]? := by
  rw [Std.ExtTreeMap.getElem?_insert]
  exact if_congr Std.LawfulEqCmp.compare_eq_iff_eq rfl rfl

theorem getElem?_erase_ite [DecidableEq κ] (m : Std.ExtTreeMap κ ν cmp) (k a : κ) :
    (m.erase k)[a]? = if k = a then none else m[a]? := by
  rw [Std.ExtTreeMap.getElem?_erase]
  exact if_congr Std.LawfulEqCmp.compare_eq_iff_eq rfl rfl

theorem toList_insert_perm (m : Std.ExtTreeMap κ ν cmp) (k : κ) (v : ν) :
    (m.insert k v).toList.Perm ((k, v) :: (m.erase k).toList) := by
  refine (List.perm_ext_iff_of_nodup (nodup_toList _) ?_).mpr fun a => ?_
  · refine List.nodup_cons.mpr ⟨fun h => ?_, nodup_toList _⟩
    rw [Std.ExtTreeMap.mem_toList_iff_getElem?_eq_some] at h
    simp at h
  · obtain ⟨a, b⟩ := a
    rw [List.mem_cons, Std.ExtTreeMap.mem_toList_iff_getElem?_eq_some,
      Std.ExtTreeMap.mem_toList_iff_getElem?_eq_some, Std.ExtTreeMap.getElem?_insert,
      Std.ExtTreeMap.getElem?_erase]
    by_cases h : cmp k a = .eq
    · have hk := Std.LawfulEqCmp.eq_of_compare h
      subst hk
      simp only [h, ↓reduceIte, Option.some.injEq, Prod.mk.injEq, true_and, reduceCtorEq, or_false]
      exact eq_comm
    · have hk : a ≠ k := fun he => h (he ▸ Std.ReflCmp.compare_self)
      simp [h, hk]

theorem entryCount_insert (m : Std.ExtTreeMap κ ν cmp) (P : κ × ν → Bool) (k : κ) (v : ν) :
    entryCount (m.insert k v) P = entryCount (m.erase k) P + entryWeight P k (some v) := by
  unfold entryCount
  rw [(toList_insert_perm m k v).countP_eq, List.countP_cons]
  rfl

theorem erase_of_getElem?_eq_none {m : Std.ExtTreeMap κ ν cmp} {k : κ} (h : m[k]? = none) :
    m.erase k = m := by
  refine Std.ExtTreeMap.ext_getElem? fun a => ?_
  rw [Std.ExtTreeMap.getElem?_erase]
  split
  · rename_i he
    rw [← Std.LawfulEqCmp.eq_of_compare he, h]
  · rfl

theorem insert_of_getElem?_eq_some {m : Std.ExtTreeMap κ ν cmp} {k : κ} {v : ν}
    (h : m[k]? = some v) : m.insert k v = m := by
  refine Std.ExtTreeMap.ext_getElem? fun a => ?_
  rw [Std.ExtTreeMap.getElem?_insert]
  split
  · rename_i he
    rw [← Std.LawfulEqCmp.eq_of_compare he, h]
  · rfl

theorem erase_insert_self (m : Std.ExtTreeMap κ ν cmp) (k : κ) (v : ν) :
    (m.insert k v).erase k = m.erase k := by
  refine Std.ExtTreeMap.ext_getElem? fun a => ?_
  rw [Std.ExtTreeMap.getElem?_erase, Std.ExtTreeMap.getElem?_erase, Std.ExtTreeMap.getElem?_insert]
  split
  · rfl
  · rfl

theorem entryCount_erase (m : Std.ExtTreeMap κ ν cmp) (P : κ × ν → Bool) (k : κ) :
    entryCount (m.erase k) P + entryWeight P k m[k]? = entryCount m P := by
  cases h : m[k]? with
  | none =>
    rw [erase_of_getElem?_eq_none h]
    rfl
  | some v => rw [← entryCount_insert, insert_of_getElem?_eq_some h]

theorem entryCount_pos {m : Std.ExtTreeMap κ ν cmp} {P : κ × ν → Bool} {k : κ} {v : ν}
    (h : m[k]? = some v) (hP : P (k, v) = true) : 0 < entryCount m P :=
  List.countP_pos_iff.mpr ⟨(k, v), Std.ExtTreeMap.mem_toList_iff_getElem?_eq_some.mpr h, hP⟩

/-- The sum of `f` over the entries. -/
def entrySum (m : Std.ExtTreeMap κ ν cmp) (f : κ × ν → ℕ) : ℕ := (m.toList.map f).sum

theorem entrySum_insert (m : Std.ExtTreeMap κ ν cmp) (f : κ × ν → ℕ) (k : κ) (v : ν) :
    entrySum (m.insert k v) f = entrySum (m.erase k) f + f (k, v) := by
  unfold entrySum
  rw [((toList_insert_perm m k v).map f).sum_nat, List.map_cons, List.sum_cons, Nat.add_comm]

theorem entrySum_erase {m : Std.ExtTreeMap κ ν cmp} {k : κ} {v : ν} (f : κ × ν → ℕ)
    (h : m[k]? = some v) : entrySum (m.erase k) f + f (k, v) = entrySum m f := by
  rw [← entrySum_insert, insert_of_getElem?_eq_some h]

omit [Std.LawfulEqCmp cmp] in
theorem entrySum_empty (f : κ × ν → ℕ) : entrySum (∅ : Std.ExtTreeMap κ ν cmp) f = 0 := by
  have hnil : (∅ : Std.ExtTreeMap κ ν cmp).toList = [] := by
    rw [← List.length_eq_zero_iff, Std.ExtTreeMap.length_toList, Std.ExtTreeMap.size_empty]
  rw [entrySum, hnil]
  rfl

theorem entryCount_empty (P : κ × ν → Bool) : entryCount (∅ : Std.ExtTreeMap κ ν cmp) P = 0 := by
  simp [entryCount]

end KirAi.Lib
