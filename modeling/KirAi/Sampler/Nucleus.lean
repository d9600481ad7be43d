/-
# The nucleus of a distribution

`llm-sampler`: the shortest prefix of the probabilities, the greatest first,
whose sum reaches `top_p`. Not all of them are sorted for it: a number of
candidates is selected and sorted, and more of them if their sum falls short.

The quickselect and the sort are parameters with what they promise; the
arithmetic of probabilities is opaque (`FloatOps`).

Key definitions: `selectSortedNucleusPrefix`, `fullSortNucleus`.
Key theorems: `nucleusScan_eq`, `nucleusRounds_eq`.
-/
import KirAi.Backend.TotalCmp
import KirAi.Lib.Except
import KirAi.Lib.Selection

namespace KirAi.Sampler

open Lib KvCache

inductive SamplerError where
  | emptyLogits
  | nonFiniteLogit (index : ℕ)
  | invalidTemperature
  | invalidTopP
  | invalidDraw
  | invalidDistribution
deriving DecidableEq, Repr

/-- The arithmetic of `f32`. -/
structure FloatOps where
  add : F32 → F32 → F32
  sub : F32 → F32 → F32
  mul : F32 → F32 → F32
  div : F32 → F32 → F32
  exp : F32 → F32
  max : F32 → F32 → F32

structure RankedProbability where
  index : ℕ
  probability : F32
deriving DecidableEq, Repr

def rankedProbabilityOrder (left right : RankedProbability) : Ordering :=
  (totalCmp right.probability left.probability).then (compare left.index right.index)

namespace RankedProbability

def rank (t : RankedProbability) : F32ᵒᵈ ×ₗ ℕ := rankKey t.probability t.index

theorem rank_injective : Function.Injective rank := by
  rintro ⟨i, x⟩ ⟨j, y⟩ h
  obtain ⟨rfl, rfl⟩ := rankKey_inj h
  rfl

theorem rankedProbabilityOrder_lt {left right : RankedProbability} :
    rankedProbabilityOrder left right = .lt ↔ left.rank < right.rank := rankCmp_lt

theorem rankedProbabilityOrder_eq {left right : RankedProbability} :
    rankedProbabilityOrder left right = .eq ↔ left = right := by
  rw [rankedProbabilityOrder, Ordering.then_eq_eq, totalCmp_eq, compare_eq_iff_eq]
  cases left
  cases right
  simp [eq_comm, and_comm]

/-- The order of the ranks, compared as the source does. -/
instance : LinearOrder RankedProbability where
  __ := LinearOrder.lift' rank rank_injective
  compare := rankedProbabilityOrder
  compare_eq_compareOfLessAndEq left right := by
    unfold compareOfLessAndEq
    split
    · next hlt => exact rankedProbabilityOrder_lt.2 hlt
    · next hlt =>
      split
      · next heq => exact rankedProbabilityOrder_eq.2 heq
      · next hne =>
        cases hcmp : rankedProbabilityOrder left right with
        | lt => exact absurd (rankedProbabilityOrder_lt.1 hcmp) hlt
        | eq => exact absurd (rankedProbabilityOrder_eq.1 hcmp) hne
        | gt => rfl

end RankedProbability

/-! ### Rounds of candidates -/

def initialCandidateLen (len : ℕ) : ℕ := min len 4096

def growCandidateLen (current len : ℕ) : ℕ := max (min (min (current * 4) wordMax) len) (current + 1)

theorem lt_growCandidateLen (current len : ℕ) : current < growCandidateLen current len := by
  unfold growCandidateLen
  omega

theorem growCandidateLen_le {current len : ℕ} (h : current < len) : growCandidateLen current len ≤ len := by
  unfold growCandidateLen
  omega

section Nucleus

variable (ops : FloatOps) (Q : Selector RankedProbability) (S : Sorter RankedProbability) (topP : F32)

/-- The sum up to the first entry that reaches `top_p`, and how many these are;
or the sum of all. -/
def nucleusScan : ℕ → F32 → List RankedProbability → Except SamplerError (Option ℕ × F32)
  | _, total, [] => .ok (none, total)
  | offset, total, entry :: entries =>
    let total := ops.add total entry.probability
    if !total.isFinite then .error .invalidDistribution
    else if topP.le total then .ok (some (offset + 1), total)
    else nucleusScan (offset + 1) total entries

/-- The loop, with `candidate_len` at most `len`; what it leaves of the entries,
the length of the nucleus and its sum. -/
def nucleusRounds (len : ℕ) (entries : List RankedProbability) (candidateLen : ℕ) :
    Except SamplerError (List RankedProbability × ℕ × F32) :=
  let entries := if candidateLen < len then Q.selectNth (candidateLen - 1) entries else entries
  let candidates := S.sort (entries.take candidateLen)
  let entries := candidates ++ entries.drop candidateLen
  match nucleusScan ops topP 0 .zero candidates with
  | .error e => .error e
  | .ok (some nucleusLen, nucleusTotal) => .ok (entries, nucleusLen, nucleusTotal)
  | .ok (none, nucleusTotal) =>
    if candidateLen < len then nucleusRounds len entries (growCandidateLen candidateLen len)
    -- `candidate_len == len`
    else if candidateLen = 0 ∨ nucleusTotal.le .zero then .error .invalidDistribution
    else .ok (entries, candidateLen, nucleusTotal)
termination_by len - candidateLen
decreasing_by
  have := lt_growCandidateLen candidateLen len
  omega

def selectSortedNucleusPrefix (entries : List RankedProbability) :
    Except SamplerError (List RankedProbability × ℕ × F32) :=
  nucleusRounds ops Q S topP entries.length entries (initialCandidateLen entries.length)

/-! ### Sorting all of them -/

/-- The left fold of the first `n`. -/
def runningSum (total : F32) (entries : List RankedProbability) (n : ℕ) : F32 :=
  (entries.take n).foldl (fun total entry => ops.add total entry.probability) total

/-- The first prefix of a sorted list whose sum reaches `top_p`, or is no number
to compare; all of them if there is none. -/
def shortestPrefix (sorted : List RankedProbability) : Except SamplerError (ℕ × F32) :=
  match (List.range sorted.length).find? fun n =>
      !(runningSum ops .zero sorted (n + 1)).isFinite ||
        topP.le (runningSum ops .zero sorted (n + 1)) with
  | some n =>
    if (runningSum ops .zero sorted (n + 1)).isFinite then
      .ok (n + 1, runningSum ops .zero sorted (n + 1))
    else .error .invalidDistribution
  | none =>
    if sorted.length = 0 ∨ (runningSum ops .zero sorted sorted.length).le .zero then
      .error .invalidDistribution
    else .ok (sorted.length, runningSum ops .zero sorted sorted.length)

/-- What the rounds are compared with. -/
def fullSortNucleus (entries : List RankedProbability) :
    Except SamplerError (List RankedProbability × ℕ × F32) := do
  let sorted := S.sort entries
  let (nucleusLen, nucleusTotal) ← shortestPrefix ops topP sorted
  return (sorted, nucleusLen, nucleusTotal)

end Nucleus

/-! ### The rounds find it -/

section Agree

variable {ops : FloatOps} {Q : Selector RankedProbability} {S : Sorter RankedProbability} {topP : F32}

theorem runningSum_cons (total : F32) (entry : RankedProbability) (entries : List RankedProbability)
    (n : ℕ) : runningSum ops total (entry :: entries) (n + 1) =
      runningSum ops (ops.add total entry.probability) entries n := by
  rw [runningSum, runningSum, List.take_succ_cons, List.foldl_cons]

theorem runningSum_one (total : F32) (entry : RankedProbability) (entries : List RankedProbability) :
    runningSum ops total (entry :: entries) 1 = ops.add total entry.probability := by
  rw [runningSum_cons, runningSum, List.take_zero, List.foldl_nil]

/-- Where the scan stops. -/
theorem nucleusScan_eq : ∀ (entries : List RankedProbability) (offset : ℕ) (total : F32),
    nucleusScan ops topP offset total entries =
      match (List.range entries.length).find? fun n =>
          !(runningSum ops total entries (n + 1)).isFinite ||
            topP.le (runningSum ops total entries (n + 1)) with
      | some n =>
        if (runningSum ops total entries (n + 1)).isFinite then
          .ok (some (offset + n + 1), runningSum ops total entries (n + 1))
        else .error .invalidDistribution
      | none => .ok (none, runningSum ops total entries entries.length)
  | [], _, _ => rfl
  | entry :: entries, offset, total => by
    rw [nucleusScan, List.length_cons, List.range_succ_eq_map, List.find?_cons, runningSum_one]
    by_cases hfinite : (ops.add total entry.probability).isFinite = true
    · by_cases hreach : topP.le (ops.add total entry.probability) = true
      · simp only [hfinite, hreach, Bool.not_true, Bool.false_or, Bool.false_eq_true, if_false,
          if_true, Nat.add_zero, Nat.zero_add, runningSum_one]
      · simp only [hfinite, hreach, Bool.not_true, Bool.false_or, Bool.false_eq_true, if_false,
          List.find?_map, Function.comp_def]
        rw [nucleusScan_eq entries (offset + 1) (ops.add total entry.probability)]
        simp only [Nat.succ_eq_add_one, runningSum_cons]
        cases (List.range entries.length).find? _ with
        | none => rfl
        | some n =>
          dsimp only [Option.map_some]
          rw [Nat.add_right_comm offset 1 n]
          rfl
    · simp only [hfinite, Bool.not_false, Bool.true_or, if_true, Nat.zero_add, runningSum_one,
        Bool.false_eq_true, if_false]

/-- The reference as a scan. -/
theorem shortestPrefix_eq (sorted : List RankedProbability) : shortestPrefix ops topP sorted =
    match nucleusScan ops topP 0 .zero sorted with
    | .error e => .error e
    | .ok (some nucleusLen, nucleusTotal) => .ok (nucleusLen, nucleusTotal)
    | .ok (none, nucleusTotal) =>
      if sorted.length = 0 ∨ nucleusTotal.le .zero then .error .invalidDistribution
      else .ok (sorted.length, nucleusTotal) := by
  rw [shortestPrefix, nucleusScan_eq]
  cases (List.range sorted.length).find? _ with
  | none => rfl
  | some n =>
    dsimp only
    by_cases hfinite : (runningSum ops .zero sorted (n + 1)).isFinite = true
    · rw [if_pos hfinite, if_pos hfinite, Nat.zero_add]
    · rw [if_neg hfinite, if_neg hfinite]

/-- A scan that ends within the first entries has the same end over all of them. -/
theorem nucleusScan_append : ∀ (entries rest : List RankedProbability) (offset : ℕ) (total : F32),
    (∀ t, nucleusScan ops topP offset total entries ≠ .ok (none, t)) →
    nucleusScan ops topP offset total (entries ++ rest) = nucleusScan ops topP offset total entries
  | [], _, _, total, h => absurd rfl (h total)
  | entry :: entries, rest, offset, total, h => by
    rw [nucleusScan] at h
    rw [List.cons_append, nucleusScan, nucleusScan]
    by_cases hfinite : (!(ops.add total entry.probability).isFinite) = true
    · rw [if_pos hfinite, if_pos hfinite]
    · rw [if_neg hfinite] at h
      rw [if_neg hfinite, if_neg hfinite]
      by_cases hreach : topP.le (ops.add total entry.probability) = true
      · rw [if_pos hreach, if_pos hreach]
      · rw [if_neg hreach] at h
        rw [if_neg hreach, if_neg hreach]
        exact nucleusScan_append entries rest _ _ h

theorem nucleusScan_le : ∀ {entries : List RankedProbability} {offset n : ℕ} {total t : F32},
    nucleusScan ops topP offset total entries = .ok (some n, t) → n ≤ offset + entries.length
  | [], _, _, _, _, h => by cases h
  | entry :: entries, offset, n, total, t, h => by
    rw [nucleusScan] at h
    rw [List.length_cons]
    by_cases hfinite : (!(ops.add total entry.probability).isFinite) = true
    · rw [if_pos hfinite] at h
      cases h
    · rw [if_neg hfinite] at h
      by_cases hreach : topP.le (ops.add total entry.probability) = true
      · rw [if_pos hreach] at h
        cases h
        omega
      · rw [if_neg hreach] at h
        have := nucleusScan_le h
        omega

/-- The prefix that is left, its length and its sum. -/
def nucleusOf (r : List RankedProbability × ℕ × F32) : List RankedProbability × ℕ × F32 :=
  (r.1.take r.2.1, r.2)

/-- The candidates of a round are the first of all, in order; what is behind them
are the others. -/
theorem candidates_eq {len candidateLen : ℕ} {entries all : List RankedProbability}
    (hp : entries.Perm all) (hlen : entries.length = len) (hc : candidateLen ≤ len)
    (hpos : 0 < len → 0 < candidateLen) :
    S.sort ((if candidateLen < len then Q.selectNth (candidateLen - 1) entries else entries).take
        candidateLen) = firsts candidateLen all ∧
      (S.sort ((if candidateLen < len then Q.selectNth (candidateLen - 1) entries else entries).take
          candidateLen) ++
        (if candidateLen < len then Q.selectNth (candidateLen - 1) entries else entries).drop
          candidateLen).Perm all := by
  have hselected : (if candidateLen < len then Q.selectNth (candidateLen - 1) entries
      else entries).Perm all := by
    split
    · exact (Q.perm _ _).trans hp
    · exact hp
  refine ⟨?_, ?_⟩
  · rw [S.sort_eq]
    by_cases hlt : candidateLen < len
    · have hone : candidateLen - 1 + 1 = candidateLen := by
        have := hpos (by omega)
        omega
      have hfirsts := Q.firsts_succ (k := candidateLen - 1) (l := entries) (by omega)
      rw [hone] at hfirsts
      rw [if_pos hlt, hfirsts, firsts_congr hp]
    · rw [if_neg hlt, List.take_of_length_le (by omega), inOrder_congr hp,
        firsts_of_length_le (by rw [← hp.length_eq]; omega)]
  · refine ((S.perm _).append_right _).trans ?_
    rw [List.take_append_drop]
    exact hselected

/-- From any round on, whatever the rounds before have done to the entries. -/
theorem nucleusRounds_eq {all : List RankedProbability} (len : ℕ) (entries : List RankedProbability)
    (candidateLen : ℕ) (hp : entries.Perm all) (hlen : entries.length = len)
    (hc : candidateLen ≤ len) (hpos : 0 < len → 0 < candidateLen) :
    (nucleusRounds ops Q S topP len entries candidateLen).map nucleusOf =
      (shortestPrefix ops topP (inOrder all)).map
        fun r => ((inOrder all).take r.1, r) := by
  have hall : (inOrder all).length = len := by rw [inOrder_length, ← hp.length_eq, hlen]
  obtain ⟨hcandidates, hperm⟩ := candidates_eq (Q := Q) (S := S) hp hlen hc hpos
  have hsplit : firsts candidateLen all ++ (inOrder all).drop candidateLen = inOrder all :=
    List.take_append_drop ..
  have hfirsts : (firsts candidateLen all).length = candidateLen := by
    rw [firsts, List.length_take, hall, Nat.min_eq_left hc]
  rw [nucleusRounds, shortestPrefix_eq]
  rw [hcandidates]
  rw [hcandidates] at hperm
  by_cases hends : ∀ t, nucleusScan ops topP 0 .zero (firsts candidateLen all) ≠ .ok (none, t)
  · have hscan := nucleusScan_append (firsts candidateLen all) ((inOrder all).drop candidateLen) 0 .zero hends
    rw [hsplit] at hscan
    rw [hscan]
    cases hs : nucleusScan ops topP 0 .zero (firsts candidateLen all) with
    | error e => rfl
    | ok r =>
      obtain ⟨found, t⟩ := r
      cases found with
      | none => exact absurd hs (hends t)
      | some n =>
        have hn := nucleusScan_le hs
        rw [hfirsts, Nat.zero_add] at hn
        dsimp only
        rw [Except.map, Except.map, nucleusOf]
        dsimp only
        rw [List.take_append_of_le_length (by omega), firsts, List.take_take, Nat.min_eq_left hn]
  · push Not at hends
    obtain ⟨t, ht⟩ := hends
    rw [ht]
    dsimp only
    by_cases hlt : candidateLen < len
    · rw [if_pos hlt, ← shortestPrefix_eq]
      exact nucleusRounds_eq len _ (growCandidateLen candidateLen len) hperm
        (by rw [hperm.length_eq, ← hp.length_eq, hlen]) (growCandidateLen_le hlt)
        fun _ => by have := lt_growCandidateLen candidateLen len; omega
    · have hsame : candidateLen = len := by omega
      have hfull : firsts candidateLen all = inOrder all := by
        rw [firsts, List.take_of_length_le (by omega)]
      rw [hfull] at ht
      rw [if_neg hlt, ht]
      dsimp only
      rw [hall, hsame]
      by_cases hzero : len = 0 ∨ t.le .zero = true
      · rw [if_pos hzero, if_pos hzero]
        rfl
      · rw [if_neg hzero, if_neg hzero, Except.map, Except.map, nucleusOf]
        dsimp only
        rw [← hsame, hfull, List.take_append_of_le_length (by rw [hall, hsame])]
termination_by len - candidateLen
decreasing_by
  have := lt_growCandidateLen candidateLen len
  omega

end Agree

end KirAi.Sampler
