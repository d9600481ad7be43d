/-
# The best logits

`math.rs`, `safetensors.rs`: the `k` best logits of a list, in order: the greatest
first, the first index first among equals. They are kept in a short list while
the logits come (`push_top_logit`), or selected and sorted at once
(`top_logits_partial_select`); a router takes the one or the other by `k`, and an
output head keeps them over the rows of a tensor, read chunk by chunk.

The quickselect and the sort are parameters with what they promise; the dot
product of a row and what a router makes of the selected logits are opaque.

Key definitions: `compareTopLogits`, `pushTopLogit`, `topLogitsBoundedInsert`,
`topLogitsPartialSelect`, `softmaxTopKF32`, `bf16MatvecTopKRowsF32`.
Key theorems: `pushTopLogit_ok`, `boundedInsert_eq`, `partialSelect_eq`.
-/
import KirAi.Backend.TotalCmp
import KirAi.Lib.Bytes
import KirAi.Lib.Except
import KirAi.Lib.Selection
import KirAi.Lib.Slice

namespace KirAi.Backend

open Lib KvCache

inductive MathError where
  | invalidShape (message : String)
deriving DecidableEq, Repr

def MathError.display : MathError → String
  | invalidShape message => "invalid math shape: " ++ message

structure TopKLogit where
  index : ℕ
  logit : F32
deriving DecidableEq, Repr

structure TopKWeight where
  index : ℕ
  weight : F32
deriving DecidableEq, Repr

/-! ### The order -/

def compareTopLogits (left right : TopKLogit) : Ordering :=
  (totalCmp right.logit left.logit).then (compare left.index right.index)

namespace TopKLogit

def rank (t : TopKLogit) : F32ᵒᵈ ×ₗ ℕ := rankKey t.logit t.index

theorem rank_injective : Function.Injective rank := by
  rintro ⟨i, x⟩ ⟨j, y⟩ h
  obtain ⟨rfl, rfl⟩ := rankKey_inj h
  rfl

instance : LinearOrder TopKLogit := LinearOrder.lift' rank rank_injective

end TopKLogit

/-- The comparison is that of the linear order. -/
theorem compareTopLogits_lt {left right : TopKLogit} : compareTopLogits left right = .lt ↔ left < right :=
  rankCmp_lt

/-! ### Keeping the best while they come -/

def pushTopLogit (top : List TopKLogit) (candidate : TopKLogit) (topK : ℕ) :
    Except MathError (List TopKLogit) :=
  if topK = 0 then .error (.invalidShape "top_k must be greater than zero")
  else if !candidate.logit.isFinite then .error (.invalidShape "top-k logits must be finite")
  else
    match top.findIdx? fun existing => (compareTopLogits candidate existing).isLT with
    | some index =>
      if index < topK then
        let top := top.insertIdx index candidate
        .ok (if topK < top.length then top.dropLast else top)
      else .ok top
    | none => .ok (if top.length < topK then top ++ [candidate] else top)

/-- `enumerate`, from an index on. -/
def rankedFrom : ℕ → List F32 → List TopKLogit
  | _, [] => []
  | index, logit :: logits => ⟨index, logit⟩ :: rankedFrom (index + 1) logits

def pushTopLogits (topK : ℕ) (top candidates : List TopKLogit) : Except MathError (List TopKLogit) :=
  candidates.foldlM (fun top candidate => pushTopLogit top candidate topK) top

def topLogitsBoundedInsert (logits : List F32) (topK : ℕ) : Except MathError (List TopKLogit) :=
  pushTopLogits topK [] (rankedFrom 0 logits)

/-- The same, the logits coming in chunks. -/
def topLogitsOfChunks (topK : ℕ) : ℕ → List TopKLogit → List (List F32) →
    Except MathError (List TopKLogit)
  | _, top, [] => .ok top
  | index, top, chunk :: chunks => do
    let top ← pushTopLogits topK top (rankedFrom index chunk)
    topLogitsOfChunks topK (index + chunk.length) top chunks

/-! ### Selecting them at once -/

section Select

variable (Q : Selector TopKLogit) (S : Sorter TopKLogit)

def collectFinite : ℕ → List F32 → Except MathError (List TopKLogit)
  | _, [] => .ok []
  | index, logit :: logits =>
    if !logit.isFinite then .error (.invalidShape "top-k logits must be finite")
    else do
      let selected ← collectFinite (index + 1) logits
      return ⟨index, logit⟩ :: selected

def topLogitsPartialSelect (logits : List F32) (topK : ℕ) : Except MathError (List TopKLogit) := do
  let selected ← collectFinite 0 logits
  let selected := if topK < selected.length then (Q.selectNth topK selected).take topK else selected
  return S.sort selected

def topKBoundedInsertionLimit : ℕ := 16

/-- `weigh` is the softmax of what is selected. -/
def softmaxTopKF32 (weigh : List TopKLogit → Except MathError (List TopKWeight)) (logits : List F32)
    (topK : ℕ) : Except MathError (List TopKWeight) :=
  if topK = 0 ∨ logits.length < topK then
    .error (.invalidShape ("top_k " ++ toString topK ++ " must be in 1..=" ++ toString logits.length))
  else do
    let selected ← if topK ≤ topKBoundedInsertionLimit then topLogitsBoundedInsert logits topK
      else topLogitsPartialSelect Q S logits topK
    weigh selected

/-- Sorting all and taking the first `k`: what the others are compared with. -/
def sortedTopLogits (logits : List F32) (topK : ℕ) : List TopKLogit :=
  (S.sort (rankedFrom 0 logits)).take topK

end Select

/-! ### They agree -/

section Agree

variable {Q : Selector TopKLogit} {S : Sorter TopKLogit} {k : ℕ}

theorem rankedFrom_append : ∀ (index : ℕ) (l l' : List F32),
    rankedFrom index (l ++ l') = rankedFrom index l ++ rankedFrom (index + l.length) l'
  | index, [], l' => by rw [List.length_nil, Nat.add_zero, List.nil_append, rankedFrom, List.nil_append]
  | index, x :: l, l' => by
    rw [List.cons_append, rankedFrom, rankedFrom, rankedFrom_append (index + 1) l l', List.cons_append,
      List.length_cons, Nat.add_right_comm index 1, ← Nat.add_assoc]

theorem pushTopLogit_ok {top : List TopKLogit} {candidate : TopKLogit} (hk : 1 ≤ k)
    (hlen : top.length ≤ k) (hfinite : candidate.logit.isFinite = true) :
    pushTopLogit top candidate k = .ok ((insertAfter candidate top).take k) := by
  have hlt : (fun existing => (compareTopLogits candidate existing).isLT) =
      fun existing => decide (candidate < existing) := by
    funext existing
    rw [Bool.eq_iff_iff, Ordering.isLT_iff_eq_lt, compareTopLogits_lt, decide_eq_true_iff]
  rw [pushTopLogit, if_neg (by omega), if_neg (by simp [hfinite]), hlt, insertAfter_eq]
  cases hfind : top.findIdx? (fun existing => decide (candidate < existing)) with
  | none =>
    dsimp only
    by_cases hroom : top.length < k
    · rw [if_pos hroom, List.take_of_length_le]
      rw [List.length_append, List.length_singleton]
      omega
    · rw [if_neg hroom, List.take_append_of_le_length (by omega), List.take_of_length_le hlen]
  | some i =>
    dsimp only
    have hi : i < top.length := (List.findIdx?_eq_some_iff_getElem.mp hfind).1
    have hins : (top.insertIdx i candidate).length = top.length + 1 :=
      List.length_insertIdx_of_le_length (by omega) candidate
    rw [if_pos (by omega)]
    by_cases hfull : k < (top.insertIdx i candidate).length
    · rw [if_pos hfull, List.dropLast_eq_take, hins, Nat.add_sub_cancel]
      have : k = top.length := by omega
      rw [this]
    · rw [if_neg hfull, List.take_of_length_le (by omega)]

/-- One after the other they leave the first `k` of all so far. -/
theorem pushTopLogits_ok (hk : 1 ≤ k) : ∀ {seen candidates : List TopKLogit},
    (∀ t ∈ candidates, t.logit.isFinite = true) →
    pushTopLogits k (firsts k seen) candidates = .ok (firsts k (seen ++ candidates))
  | seen, [], _ => by rw [pushTopLogits, List.foldlM_nil, List.append_nil]; rfl
  | seen, t :: candidates, h => by
    have hone : pushTopLogit (firsts k seen) t k = .ok (firsts k (seen ++ [t])) := by
      rw [pushTopLogit_ok hk (firsts_length_le k seen) (h t (List.mem_cons_self ..)), firsts_snoc]
    rw [pushTopLogits, List.foldlM_cons, hone, ok_bind]
    have hrest : pushTopLogits k (firsts k (seen ++ [t])) candidates =
        .ok (firsts k (seen ++ [t] ++ candidates)) :=
      pushTopLogits_ok hk fun u hu => h u (List.mem_cons_of_mem _ hu)
    rw [pushTopLogits, List.append_assoc, List.singleton_append] at hrest
    exact hrest

def notFinite : MathError := .invalidShape "top-k logits must be finite"

theorem pushTopLogits_error (hk : 1 ≤ k) : ∀ {top candidates : List TopKLogit},
    (∃ t ∈ candidates, t.logit.isFinite = false) →
    pushTopLogits k top candidates = .error notFinite
  | top, [], h => by
    obtain ⟨t, ht, -⟩ := h
    cases ht
  | top, t :: candidates, h => by
    rw [pushTopLogits, List.foldlM_cons]
    by_cases ht : t.logit.isFinite = true
    · have hrest : ∃ u ∈ candidates, u.logit.isFinite = false := by
        obtain ⟨u, hu, hfalse⟩ := h
        rcases List.mem_cons.mp hu with rfl | hu
        · rw [ht] at hfalse
          cases hfalse
        · exact ⟨u, hu, hfalse⟩
      have hone : ∃ top', pushTopLogit top t k = .ok top' := by
        rw [pushTopLogit, if_neg (by omega), if_neg (by simp [ht])]
        split
        · split <;> exact ⟨_, rfl⟩
        · exact ⟨_, rfl⟩
      obtain ⟨top', hone⟩ := hone
      rw [hone, ok_bind]
      exact pushTopLogits_error hk hrest
    · rw [pushTopLogit, if_neg (by omega), if_pos (by simpa using ht)]
      rfl

theorem rankedFrom_finite : ∀ {index : ℕ} {logits : List F32},
    (∀ t ∈ rankedFrom index logits, t.logit.isFinite = true) ↔ ∀ x ∈ logits, x.isFinite = true
  | _, [] => by simp [rankedFrom]
  | index, x :: logits => by
    rw [rankedFrom, List.forall_mem_cons, List.forall_mem_cons, rankedFrom_finite]

theorem collectFinite_ok : ∀ {index : ℕ} {logits : List F32}, (∀ x ∈ logits, x.isFinite = true) →
    collectFinite index logits = .ok (rankedFrom index logits)
  | _, [], _ => rfl
  | index, x :: logits, h => by
    obtain ⟨hx, hrest⟩ := List.forall_mem_cons.mp h
    rw [collectFinite, if_neg (by simp [hx]), collectFinite_ok hrest]
    rfl

theorem collectFinite_error : ∀ {index : ℕ} {logits : List F32}, (∃ x ∈ logits, x.isFinite = false) →
    collectFinite index logits = .error notFinite
  | _, [], h => by
    obtain ⟨x, hx, -⟩ := h
    cases hx
  | index, x :: logits, h => by
    by_cases hx : x.isFinite = true
    · have hrest : ∃ y ∈ logits, y.isFinite = false := by
        obtain ⟨y, hy, hfalse⟩ := h
        rcases List.mem_cons.mp hy with rfl | hy
        · rw [hx] at hfalse
          cases hfalse
        · exact ⟨y, hy, hfalse⟩
      rw [collectFinite, if_neg (by simp [hx]), collectFinite_error hrest]
      rfl
    · rw [collectFinite, if_pos (by simpa using hx)]
      rfl

theorem boundedInsert_eq (hk : 1 ≤ k) {logits : List F32} (h : ∀ x ∈ logits, x.isFinite = true) :
    topLogitsBoundedInsert logits k = .ok (firsts k (rankedFrom 0 logits)) := by
  have hpush : pushTopLogits k (firsts k []) (rankedFrom 0 logits) =
      .ok (firsts k ([] ++ rankedFrom 0 logits)) := pushTopLogits_ok hk (rankedFrom_finite.mpr h)
  have hnil : firsts k ([] : List TopKLogit) = [] := List.take_nil
  rw [List.nil_append, hnil] at hpush
  exact hpush

theorem partialSelect_eq {logits : List F32} (h : ∀ x ∈ logits, x.isFinite = true) :
    topLogitsPartialSelect Q S logits k = .ok (firsts k (rankedFrom 0 logits)) := by
  rw [topLogitsPartialSelect, collectFinite_ok h, ok_bind]
  dsimp only
  by_cases hk : k < (rankedFrom 0 logits).length
  · rw [if_pos hk, S.sort_eq, Q.firsts hk]
    rfl
  · rw [if_neg hk, S.sort_eq, firsts_of_length_le (by omega)]
    rfl

/-- In chunks or at once. -/
theorem topLogitsOfChunks_eq : ∀ (index : ℕ) (top : List TopKLogit) (chunks : List (List F32)),
    topLogitsOfChunks k index top chunks = pushTopLogits k top (rankedFrom index chunks.flatten)
  | _, top, [] => rfl
  | index, top, chunk :: chunks => by
    rw [topLogitsOfChunks, List.flatten_cons, rankedFrom_append, pushTopLogits, pushTopLogits,
      List.foldlM_append]
    refine congrArg _ (funext fun top' => ?_)
    exact topLogitsOfChunks_eq (index + chunk.length) top' chunks

end Agree

end KirAi.Backend
