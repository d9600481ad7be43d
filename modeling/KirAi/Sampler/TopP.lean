/-
# Sampling from the nucleus

`llm-sampler`: the logits are scaled and made probabilities, the nucleus is
selected, and the draw picks an entry of it by the running sum. The scratch
buffer is cleared first, so nothing of an earlier sample is in it.

Key definitions: `TopPSampler.sampleWithScratch`, `TopPSampler.sampleByFullSort`.
Key theorem: `nucleus_selection_agrees`.
-/
import KirAi.Sampler.Nucleus

namespace KirAi.Sampler

open Lib KvCache

structure TopPSampler where
  temperature : F32
  topP : F32
deriving DecidableEq, Repr

namespace TopPSampler

def checkControls (sampler : TopPSampler) (draw : F32) : Except SamplerError Unit :=
  if !sampler.temperature.isFinite || sampler.temperature.le .zero then .error .invalidTemperature
  else if !sampler.topP.isFinite || sampler.topP.le .zero || F32.one.lt sampler.topP then
    .error .invalidTopP
  else if !draw.isFinite || !(F32.zero.le draw && draw.lt .one) then .error .invalidDraw
  else .ok ()

end TopPSampler

def negInfinity : F32 := ⟨0xff800000⟩

section Sample

variable (ops : FloatOps)

/-- The scaled logits from an index on, and the greatest of them so far. -/
def scaleLogits (temperature : F32) : ℕ → F32 → List F32 →
    Except SamplerError (List RankedProbability × F32)
  | _, maxScaled, [] => .ok ([], maxScaled)
  | index, maxScaled, logit :: logits =>
    if !logit.isFinite then .error (.nonFiniteLogit index)
    else do
      let value := ops.div logit temperature
      let (rest, maxScaled) ← scaleLogits temperature (index + 1) (ops.max maxScaled value) logits
      return (⟨index, value⟩ :: rest, maxScaled)

def rankedProbabilities (temperature : F32) (logits : List F32) :
    Except SamplerError (List RankedProbability) := do
  let (scaled, maxScaled) ← scaleLogits ops temperature 0 negInfinity logits
  let exps := scaled.map fun entry => { entry with
    probability := ops.exp (ops.sub entry.probability maxScaled) }
  let sum := exps.foldl (fun sum entry => ops.add sum entry.probability) .zero
  if !sum.isFinite || sum.le .zero then .error .invalidDistribution
  else return exps.map fun entry => { entry with probability := ops.div entry.probability sum }

/-- The first entry at which the running sum reaches the threshold. -/
def pickToken (threshold : F32) : F32 → List RankedProbability → Option ℕ
  | _, [] => none
  | cumulative, entry :: entries =>
    let cumulative := ops.add cumulative entry.probability
    if threshold.le cumulative then some entry.index else pickToken threshold cumulative entries

def drawToken (draw : F32) (r : List RankedProbability × ℕ × F32) : Except SamplerError ℕ :=
  let (entries, nucleusLen, nucleusTotal) := r
  match pickToken ops (ops.mul draw nucleusTotal) .zero (entries.take nucleusLen) with
  | some index => .ok index
  | none =>
    match entries[nucleusLen - 1]? with
    | some entry => .ok entry.index
    | none => .error .invalidDistribution

variable (Q : Selector RankedProbability) (S : Sorter RankedProbability)

def TopPSampler.sampleWithScratch (sampler : TopPSampler) (logits : List F32) (draw : F32) :
    Except SamplerError ℕ := do
  sampler.checkControls draw
  if logits.isEmpty then .error .emptyLogits
  else do
    let entries ← rankedProbabilities ops sampler.temperature logits
    let r ← selectSortedNucleusPrefix ops Q S sampler.topP entries
    drawToken ops draw r

/-- With all probabilities sorted. -/
def TopPSampler.sampleByFullSort (sampler : TopPSampler) (logits : List F32) (draw : F32) :
    Except SamplerError ℕ := do
  sampler.checkControls draw
  if logits.isEmpty then .error .emptyLogits
  else do
    let entries ← rankedProbabilities ops sampler.temperature logits
    let r ← fullSortNucleus ops S sampler.topP entries
    drawToken ops draw r

end Sample

section Agree

variable {ops : FloatOps} {Q : Selector RankedProbability} {S : Sorter RankedProbability} {topP : F32}

/-- A nucleus has an entry. -/
theorem shortestPrefix_pos {sorted : List RankedProbability} {n : ℕ} {t : F32}
    (h : shortestPrefix ops topP sorted = .ok (n, t)) : 0 < n := by
  unfold shortestPrefix at h
  split at h
  · split at h
    · cases h
      exact Nat.succ_pos _
    · cases h
  · split at h
    · cases h
    · next hne =>
      cases h
      omega

theorem selectSortedNucleusPrefix_eq {entries all : List RankedProbability} (hp : entries.Perm all) :
    (selectSortedNucleusPrefix ops Q S topP entries).map nucleusOf =
      (fullSortNucleus ops S topP all).map nucleusOf := by
  have hle : initialCandidateLen entries.length ≤ entries.length := Nat.min_le_left _ _
  have hpos : 0 < entries.length → 0 < initialCandidateLen entries.length := by
    unfold initialCandidateLen
    omega
  rw [selectSortedNucleusPrefix, nucleusRounds_eq _ _ _ hp rfl hle hpos, fullSortNucleus, S.sort_eq]
  cases shortestPrefix ops topP (inOrder all) <;> rfl

/-- Of the entries only the nucleus matters. -/
theorem drawToken_congr {draw : F32} {r r' : List RankedProbability × ℕ × F32}
    (h : nucleusOf r = nucleusOf r') (hpos : 0 < r.2.1) : drawToken ops draw r = drawToken ops draw r' := by
  obtain ⟨entries, n, t⟩ := r
  obtain ⟨entries', n', t'⟩ := r'
  obtain ⟨htake, hrest⟩ := Prod.mk.inj h
  obtain ⟨rfl, rfl⟩ := Prod.mk.inj hrest
  dsimp only at htake hpos
  have hlast : entries[n - 1]? = entries'[n - 1]? := by
    have hn : n - 1 < n := by omega
    rw [← List.getElem?_take_of_lt hn, htake, List.getElem?_take_of_lt hn]
  rw [drawToken, drawToken]
  rw [htake, hlast]

theorem sampleWithScratch_eq (sampler : TopPSampler) (logits : List F32) (draw : F32) :
    sampler.sampleWithScratch ops Q S logits draw = sampler.sampleByFullSort ops S logits draw := by
  rw [TopPSampler.sampleWithScratch, TopPSampler.sampleByFullSort]
  refine congrArg _ (funext fun _ => ?_)
  by_cases hempty : logits.isEmpty = true
  · rw [if_pos hempty, if_pos hempty]
  · rw [if_neg hempty, if_neg hempty]
    refine congrArg _ (funext fun entries => ?_)
    have hsame : (selectSortedNucleusPrefix ops Q S sampler.topP entries).map nucleusOf =
        (fullSortNucleus ops S sampler.topP entries).map nucleusOf :=
      selectSortedNucleusPrefix_eq (List.Perm.refl entries)
    cases hfull : fullSortNucleus ops S sampler.topP entries with
    | error e =>
      rw [hfull] at hsame
      cases hselect : selectSortedNucleusPrefix ops Q S sampler.topP entries with
      | error e' =>
        rw [hselect] at hsame
        cases hsame
        rfl
      | ok r =>
        rw [hselect] at hsame
        cases hsame
    | ok r' =>
      rw [hfull] at hsame
      cases hselect : selectSortedNucleusPrefix ops Q S sampler.topP entries with
      | error e' =>
        rw [hselect] at hsame
        cases hsame
      | ok r =>
        rw [hselect] at hsame
        have hnucleus : nucleusOf r = nucleusOf r' := Except.ok.inj hsame
        have hpos : 0 < r'.2.1 := by
          obtain ⟨⟨n, t⟩, hprefix, hr⟩ := bind_eq_ok.mp hfull
          cases hr
          exact shortestPrefix_pos hprefix
        exact (drawToken_congr hnucleus.symm hpos).symm

/-- Growing the candidates gives what sorting all of them gives, from any order
of the entries, and the same token is drawn. -/
theorem nucleus_selection_agrees (ops : FloatOps) (Q : Selector RankedProbability)
    (S : Sorter RankedProbability) :
    (∀ (topP : F32) (all entries : List RankedProbability), entries.Perm all →
      (selectSortedNucleusPrefix ops Q S topP entries).map nucleusOf =
        (fullSortNucleus ops S topP all).map nucleusOf) ∧
    ∀ (sampler : TopPSampler) (logits : List F32) (draw : F32),
      sampler.sampleWithScratch ops Q S logits draw = sampler.sampleByFullSort ops S logits draw :=
  ⟨fun _ _ _ hp => selectSortedNucleusPrefix_eq hp, sampleWithScratch_eq⟩

/-- A half and two quarters, in some order. -/
def sampleEntries : List RankedProbability :=
  [⟨1, ⟨0x3e800000⟩⟩, ⟨0, ⟨0x3f000000⟩⟩, ⟨2, ⟨0x3e800000⟩⟩]

/-- Sums of quarters. -/
def sampleOps : FloatOps where
  add x y :=
    if x = .zero then y
    else if y = ⟨0x3e800000⟩ then if x = ⟨0x3f000000⟩ then ⟨0x3f400000⟩ else .one
    else .zero
  sub x _ := x
  mul x _ := x
  div x _ := x
  exp x := x
  max x _ := x

/-- A nucleus of six tenths. -/
theorem nucleus_selection_agrees_sample :
    (selectSortedNucleusPrefix sampleOps .ofSorting .ofInsertion ⟨0x3f19999a⟩ sampleEntries.reverse).map
        nucleusOf =
      .ok ([⟨0, ⟨0x3f000000⟩⟩, ⟨1, ⟨0x3e800000⟩⟩], 2, ⟨0x3f400000⟩) := by
  have h := (nucleus_selection_agrees sampleOps .ofSorting .ofInsertion).1 ⟨0x3f19999a⟩ sampleEntries
    sampleEntries.reverse (List.reverse_perm _)
  rw [h]
  rfl

end Agree

end KirAi.Sampler
