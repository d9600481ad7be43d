/-
# A lookup in the disk cache

The loops of `lookup` for a task that nothing disturbs, over files and counters that stay: the
prefixes of the prompt are tried from the longest on, and the blocks of a prefix are read until one
of them is missing or bad. A block that cannot be read or decoded is taken out of the index on the
way.

The answer is that of the longest prefix whose blocks are all there and that is not skipped
afterwards (`diskLookup_longest`, and `lookup_returns_longest` for the task). What was taken out on the way does not change it, as every shorter
prefix that would need the block would fail on it as well. An error is the assembly's: where a longer
prefix is read but does not fit together, a shorter one is not tried.

Key definitions: `lookupBlocks`, `lookupPrefixes`, `diskLookup`, `blockAt`, `outcomeAt`, `Pruned`.
Key theorems: `lookupBlocks_eq`, `lookupPrefixes_eq`, `diskLookup_longest`, `diskLookup_solo`,
`lookup_returns_longest`.
-/
import KirAi.NativeRuntime.DiskCache

namespace KirAi.NativeRuntime

open Lib KvCache

section Lookup

variable {S L : Type} (C : NativeTextDiskCacheValue S) (J : SerdeJson)
  (sha256 : List Byte → CacheBlockHash) (cache : NativeTextDiskCache) (value : PrefixCacheValue L S)
  (request : LookupRequest S) (files : Files) (ids : ℕ → ℕ → Statics)

/-- The loop over the blocks of the prefix of `k` blocks, from block `i` on. The counters are those
that reading block `i` for this prefix finds, with `i = k` for the assembly. -/
def lookupBlocks (k : ℕ) : (rest i : ℕ) → List (NativeTextDiskCacheBlock S) →
    NativeTextDiskCacheIndex → Option (DiskResult (PrefixCacheHit L)) × NativeTextDiskCacheIndex
  | 0, _, blocks, index => (finishPrefix C cache value request k blocks (ids k k), index)
  | rest + 1, i, blocks, index =>
    match lookupDescriptor sha256 cache request i with
    | .error err => (some (.error err), index)
    | .ok descriptor =>
      match index (.fromDescriptor descriptor) with
      | none => (none, index)
      | some entry =>
        match readIndexedBlock C J cache descriptor entry (readFile files entry.path) (ids k i) with
        | .unreadable => (none, index.remove (.fromDescriptor descriptor))
        | .mismatched => (none, index)
        | .read block => lookupBlocks k rest (i + 1) (blocks ++ [block]) index

/-- The loop over the prefixes, of `k` blocks and fewer. -/
def lookupPrefixes : ℕ → NativeTextDiskCacheIndex →
    DiskResult (Option (PrefixCacheHit L)) × NativeTextDiskCacheIndex
  | 0, index => (.ok none, index)
  | k + 1, index =>
    match lookupBlocks C J sha256 cache value request files ids (k + 1) (k + 1) 0 [] index with
    | (none, index) => lookupPrefixes k index
    | (some result, index) => (result.map some, index)

/-- `lookup` -/
def diskLookup (index : NativeTextDiskCacheIndex) :
    DiskResult (Option (PrefixCacheHit L)) × NativeTextDiskCacheIndex :=
  if request.tokens.isEmpty then (.ok none, index)
  else
    let blockCount := request.tokens.length / cache.config.blockTokenCount
    if blockCount * cache.config.blockTokenCount = 0 then (.ok none, index)
    else lookupPrefixes C J sha256 cache value request files ids blockCount index

/-! ### What the prefixes come to -/

/-- Block `i` of the prompt. -/
def promptBlock (i : ℕ) : NativeTextDiskCacheBlockDescriptor :=
  blockDescriptor sha256 cache.config.blockTokenCount request.tokens cache.identity request.ns i

/-- Block `i` as it is read for the prefix of `k` blocks. -/
def blockAt (index : NativeTextDiskCacheIndex) (k i : ℕ) : Option (NativeTextDiskCacheBlock S) :=
  match index (.fromDescriptor (promptBlock sha256 cache request i)) with
  | none => none
  | some entry =>
    match readIndexedBlock C J cache (promptBlock sha256 cache request i) entry
      (readFile files entry.path) (ids k i) with
    | .read block => some block
    | _ => none

/-- What the prefix of `k` blocks comes to, `none` when it is skipped. -/
def outcomeAt (index : NativeTextDiskCacheIndex) (k : ℕ) : Option (DiskResult (PrefixCacheHit L)) :=
  ((List.range k).mapM (blockAt C J sha256 cache request files ids index k)).bind fun blocks =>
    finishPrefix C cache value request k blocks (ids k k)

/-- An index from which blocks of the prompt were taken that could not be read. -/
def Pruned (index index' : NativeTextDiskCacheIndex) : Prop :=
  ∀ key, index' key = index key ∨ index' key = none ∧ ∃ k i entry,
    key = .fromDescriptor (promptBlock sha256 cache request i) ∧ index key = some entry ∧
    readIndexedBlock C J cache (promptBlock sha256 cache request i) entry
      (readFile files entry.path) (ids k i) = .unreadable

/-- Whether a block can be read does not depend on the counters. -/
def IdsSuffice : Prop :=
  ∀ k k' i entry, readIndexedBlock C J cache (promptBlock sha256 cache request i) entry
      (readFile files entry.path) (ids k i) = .unreadable →
    readIndexedBlock C J cache (promptBlock sha256 cache request i) entry
      (readFile files entry.path) (ids k' i) = .unreadable

variable {C J sha256 cache value request files ids} {index index' : NativeTextDiskCacheIndex}

/-- Every block of the prompt has its descriptor. -/
theorem lookupDescriptor_eq {i : ℕ}
    (h : (i + 1) * cache.config.blockTokenCount ≤ request.tokens.length) :
    lookupDescriptor sha256 cache request i = .ok (promptBlock sha256 cache request i) :=
  new_block sha256 cache.block_pos h request.tokens_held.length_le cache.identity request.ns

theorem promptBlock_key_injective {i j : ℕ}
    (h : NativeTextDiskCacheIndexKey.fromDescriptor (promptBlock sha256 cache request i) =
      .fromDescriptor (promptBlock sha256 cache request j)) : i = j := by
  have hstart : i * cache.config.blockTokenCount = j * cache.config.blockTokenCount :=
    congrArg NativeTextDiskCacheIndexKey.blockStart h
  exact Nat.eq_of_mul_eq_mul_right cache.block_pos hstart

theorem Pruned.refl : Pruned C J sha256 cache request files ids index index := fun _ => .inl rfl

theorem Pruned.trans {index'' : NativeTextDiskCacheIndex}
    (h : Pruned C J sha256 cache request files ids index index')
    (h' : Pruned C J sha256 cache request files ids index' index'') :
    Pruned C J sha256 cache request files ids index index'' := by
  intro key
  rcases h' key with heq' | ⟨hnone', k, i, entry, hkey, hentry, hread⟩
  · rw [heq']
    exact h key
  · rcases h key with heq | ⟨hnone, -⟩
    · exact .inr ⟨hnone', k, i, entry, hkey, heq ▸ hentry, hread⟩
    · rw [hnone] at hentry
      cases hentry

theorem Pruned.remove {k i : ℕ} {entry : NativeTextDiskCacheIndexedEntry}
    (hentry : index (.fromDescriptor (promptBlock sha256 cache request i)) = some entry)
    (hread : readIndexedBlock C J cache (promptBlock sha256 cache request i) entry
      (readFile files entry.path) (ids k i) = .unreadable) :
    Pruned C J sha256 cache request files ids index
      (index.remove (.fromDescriptor (promptBlock sha256 cache request i))) := by
  intro key
  by_cases hkey : key = .fromDescriptor (promptBlock sha256 cache request i)
  · refine .inr ⟨?_, k, i, entry, hkey, hkey ▸ hentry, hread⟩
    rw [hkey, NativeTextDiskCacheIndex.remove, Function.update_self]
  · refine .inl ?_
    rw [NativeTextDiskCacheIndex.remove, Function.update_of_ne hkey]

/-- A pruned index gives the same blocks. -/
theorem Pruned.blockAt_eq (hids : IdsSuffice C J sha256 cache request files ids)
    (h : Pruned C J sha256 cache request files ids index index') (k i : ℕ) :
    blockAt C J sha256 cache request files ids index' k i =
      blockAt C J sha256 cache request files ids index k i := by
  rcases h (.fromDescriptor (promptBlock sha256 cache request i)) with heq | hgone
  · unfold blockAt
    rw [heq]
  · obtain ⟨hnone, k', j, entry, hkey, hentry, hread⟩ := hgone
    obtain rfl := promptBlock_key_injective hkey
    have hbad := hids k' k i entry hread
    simp only [blockAt, hnone, hentry, hbad]

theorem Pruned.outcomeAt_eq (hids : IdsSuffice C J sha256 cache request files ids)
    (h : Pruned C J sha256 cache request files ids index index') (k : ℕ) :
    outcomeAt C J sha256 cache value request files ids index' k =
      outcomeAt C J sha256 cache value request files ids index k := by
  have hblocks : blockAt C J sha256 cache request files ids index' k =
      blockAt C J sha256 cache request files ids index k := funext (h.blockAt_eq hids k)
  rw [outcomeAt, outcomeAt, hblocks]

/-! ### The loops -/

variable (C J sha256 value files ids index) in
/-- The blocks that are left of a prefix are read in order, and the first that fails skips it. -/
theorem lookupBlocks_eq {k : ℕ} (hk : k * cache.config.blockTokenCount ≤ request.tokens.length) :
    ∀ (rest i : ℕ) (blocks : List (NativeTextDiskCacheBlock S)), i + rest = k →
      (lookupBlocks C J sha256 cache value request files ids k rest i blocks index).1 =
        ((List.range' i rest).mapM (blockAt C J sha256 cache request files ids index k)).bind
          (fun more => finishPrefix C cache value request k (blocks ++ more) (ids k k)) ∧
      Pruned C J sha256 cache request files ids index
        (lookupBlocks C J sha256 cache value request files ids k rest i blocks index).2
  | 0, i, blocks, _ => by
    rw [lookupBlocks, List.range'_zero, List.mapM_nil]
    exact ⟨by simp, Pruned.refl⟩
  | rest + 1, i, blocks, hi => by
    have hlen : (i + 1) * cache.config.blockTokenCount ≤ request.tokens.length :=
      le_trans (Nat.mul_le_mul_right _ (by omega)) hk
    rw [lookupBlocks, lookupDescriptor_eq hlen, List.range'_succ, List.mapM_cons]
    dsimp only
    cases hentry : index (.fromDescriptor (promptBlock sha256 cache request i)) with
    | none =>
      have hnone : blockAt C J sha256 cache request files ids index k i = none := by
        simp only [blockAt, hentry]
      rw [hnone]
      exact ⟨rfl, Pruned.refl⟩
    | some entry =>
      dsimp only
      cases hread : readIndexedBlock C J cache (promptBlock sha256 cache request i) entry
          (readFile files entry.path) (ids k i) with
      | unreadable =>
        have hnone : blockAt C J sha256 cache request files ids index k i = none := by
          simp only [blockAt, hentry, hread]
        rw [hnone]
        dsimp only
        exact ⟨rfl, Pruned.remove hentry hread⟩
      | mismatched =>
        have hnone : blockAt C J sha256 cache request files ids index k i = none := by
          simp only [blockAt, hentry, hread]
        rw [hnone]
        exact ⟨rfl, Pruned.refl⟩
      | read block =>
        have hsome : blockAt C J sha256 cache request files ids index k i = some block := by
          simp only [blockAt, hentry, hread]
        obtain ⟨hresult, hpruned⟩ := lookupBlocks_eq hk rest (i + 1) (blocks ++ [block]) (by omega)
        refine ⟨?_, hpruned⟩
        rw [hresult, hsome]
        cases (List.range' (i + 1) rest).mapM
            (blockAt C J sha256 cache request files ids index k) with
        | none => rfl
        | some more => simp [List.append_assoc]

variable (C J sha256 cache value request files ids) in
/-- The first prefix that is not skipped, from `k` blocks down. -/
def longestOutcome (index : NativeTextDiskCacheIndex) : ℕ → Option (DiskResult (PrefixCacheHit L))
  | 0 => none
  | k + 1 => (outcomeAt C J sha256 cache value request files ids index (k + 1)).or
      (longestOutcome index k)

theorem longestOutcome_eq_none : ∀ {n : ℕ},
    longestOutcome C J sha256 cache value request files ids index n = none ↔
      ∀ k, 0 < k → k ≤ n → outcomeAt C J sha256 cache value request files ids index k = none
  | 0 => ⟨fun _ k hpos hle => absurd hle (by omega), fun _ => rfl⟩
  | n + 1 => by
    rw [longestOutcome, Option.or_eq_none_iff, longestOutcome_eq_none]
    constructor
    · intro h k hpos hle
      rcases Nat.lt_or_ge n k with hlt | hge
      · obtain rfl : k = n + 1 := by omega
        exact h.1
      · exact h.2 k hpos hge
    · intro h
      exact ⟨h (n + 1) (Nat.succ_pos n) le_rfl, fun k hpos hle => h k hpos (by omega)⟩

theorem longestOutcome_eq_some {r : DiskResult (PrefixCacheHit L)} : ∀ {n : ℕ},
    longestOutcome C J sha256 cache value request files ids index n = some r ↔
      ∃ k, 0 < k ∧ k ≤ n ∧ outcomeAt C J sha256 cache value request files ids index k = some r ∧
        ∀ k', k < k' → k' ≤ n →
          outcomeAt C J sha256 cache value request files ids index k' = none
  | 0 => by
    rw [longestOutcome]
    constructor
    · intro h
      cases h
    · intro h
      obtain ⟨k, hpos, hle, -⟩ := h
      omega
  | n + 1 => by
    rw [longestOutcome, Option.or_eq_some_iff, longestOutcome_eq_some]
    constructor
    · intro h
      rcases h with h | ⟨hskip, k, hpos, hle, hk, hlonger⟩
      · exact ⟨n + 1, Nat.succ_pos n, le_rfl, h, fun k' hlt hle => absurd hle (by omega)⟩
      · refine ⟨k, hpos, by omega, hk, fun k' hlt hle' => ?_⟩
        rcases Nat.lt_or_ge n k' with hlt' | hge
        · obtain rfl : k' = n + 1 := by omega
          exact hskip
        · exact hlonger k' hlt hge
    · intro h
      obtain ⟨k, hpos, hle, hk, hlonger⟩ := h
      rcases Nat.lt_or_ge n k with hlt | hge
      · obtain rfl : k = n + 1 := by omega
        exact .inl hk
      · exact .inr ⟨hlonger (n + 1) (by omega) le_rfl, k, hpos, hge, hk,
          fun k' hlt hle' => hlonger k' hlt (by omega)⟩

/-- What is taken from the index for a longer prefix does not change what a shorter one comes to. -/
theorem lookupPrefixes_eq (hids : IdsSuffice C J sha256 cache request files ids) :
    ∀ (k : ℕ) (index : NativeTextDiskCacheIndex),
      k * cache.config.blockTokenCount ≤ request.tokens.length →
      (lookupPrefixes C J sha256 cache value request files ids k index).1 =
        (longestOutcome C J sha256 cache value request files ids index k).elim (.ok none)
          (·.map some) ∧
      Pruned C J sha256 cache request files ids index
        (lookupPrefixes C J sha256 cache value request files ids k index).2
  | 0, index, _ => ⟨rfl, Pruned.refl⟩
  | k + 1, index, hk => by
    obtain ⟨hresult, hpruned⟩ := lookupBlocks_eq C J sha256 value files ids index hk (k + 1) 0 []
      (Nat.zero_add _)
    have hout : (lookupBlocks C J sha256 cache value request files ids (k + 1) (k + 1) 0 [] index).1 =
        outcomeAt C J sha256 cache value request files ids index (k + 1) := by
      rw [hresult, outcomeAt, List.range_eq_range']
      simp only [List.nil_append]
    rw [lookupPrefixes, longestOutcome]
    rcases hround : lookupBlocks C J sha256 cache value request files ids (k + 1) (k + 1) 0 [] index
      with ⟨result, index₁⟩
    rw [hround] at hout hpruned
    rw [← hout]
    cases result with
    | none =>
      have hle : k * cache.config.blockTokenCount ≤ request.tokens.length :=
        le_trans (Nat.mul_le_mul_right _ (Nat.le_succ k)) hk
      obtain ⟨hrest, hprunedRest⟩ := lookupPrefixes_eq hids k index₁ hle
      have hsame : longestOutcome C J sha256 cache value request files ids index₁ k =
          longestOutcome C J sha256 cache value request files ids index k := by
        refine Option.ext fun r => ?_
        rw [longestOutcome_eq_some, longestOutcome_eq_some]
        simp only [hpruned.outcomeAt_eq hids]
      dsimp only
      rw [hrest, hsame]
      exact ⟨rfl, hpruned.trans hprunedRest⟩
    | some r => exact ⟨rfl, hpruned⟩

variable (value index) in
theorem diskLookup_eq (hids : IdsSuffice C J sha256 cache request files ids) :
    (diskLookup C J sha256 cache value request files ids index).1 =
      (longestOutcome C J sha256 cache value request files ids index
        (request.tokens.length / cache.config.blockTokenCount)).elim (.ok none) (·.map some) ∧
    Pruned C J sha256 cache request files ids index
      (diskLookup C J sha256 cache value request files ids index).2 := by
  unfold diskLookup
  by_cases hempty : request.tokens.isEmpty = true
  · have hzero : request.tokens.length / cache.config.blockTokenCount = 0 := by
      rw [List.isEmpty_iff.mp hempty, List.length_nil, Nat.zero_div]
    rw [if_pos hempty, hzero]
    exact ⟨rfl, Pruned.refl⟩
  · rw [if_neg hempty]
    dsimp only
    by_cases hzero : request.tokens.length / cache.config.blockTokenCount *
        cache.config.blockTokenCount = 0
    · have hcount : request.tokens.length / cache.config.blockTokenCount = 0 := by
        rcases Nat.mul_eq_zero.mp hzero with h | h
        · exact h
        · exact absurd h (Nat.pos_iff_ne_zero.mp cache.block_pos)
      rw [if_pos hzero, hcount]
      exact ⟨rfl, Pruned.refl⟩
    · rw [if_neg hzero]
      exact lookupPrefixes_eq hids _ index (Nat.div_mul_le_self _ _)

/-- **A lookup answers for the longest prefix that is not skipped.** It misses just if every prefix
of whole blocks is skipped, and otherwise its answer, a hit or the error of the assembly, is that of
the longest one that is not. What is gone from the index afterwards are blocks of the prompt whose
files could not be read. -/
theorem diskLookup_longest (hids : IdsSuffice C J sha256 cache request files ids) :
    ((diskLookup C J sha256 cache value request files ids index).1 = .ok none ↔
      ∀ k, 0 < k → k * cache.config.blockTokenCount ≤ request.tokens.length →
        outcomeAt C J sha256 cache value request files ids index k = none) ∧
    (∀ r : DiskResult (PrefixCacheHit L),
      (diskLookup C J sha256 cache value request files ids index).1 = r.map some ↔
        ∃ k, 0 < k ∧ k * cache.config.blockTokenCount ≤ request.tokens.length ∧
          outcomeAt C J sha256 cache value request files ids index k = some r ∧
          ∀ k', k < k' → k' * cache.config.blockTokenCount ≤ request.tokens.length →
            outcomeAt C J sha256 cache value request files ids index k' = none) ∧
    Pruned C J sha256 cache request files ids index
      (diskLookup C J sha256 cache value request files ids index).2 := by
  obtain ⟨heq, hpruned⟩ := diskLookup_eq value index hids
  have hbound : ∀ k, k ≤ request.tokens.length / cache.config.blockTokenCount ↔
      k * cache.config.blockTokenCount ≤ request.tokens.length :=
    fun k => Nat.le_div_iff_mul_le cache.block_pos
  refine ⟨?_, fun r => ?_, hpruned⟩
  · rw [heq]
    simp only [← hbound]
    rw [← longestOutcome_eq_none]
    cases longestOutcome C J sha256 cache value request files ids index
        (request.tokens.length / cache.config.blockTokenCount) with
    | none => exact ⟨fun _ => rfl, fun _ => rfl⟩
    | some r => cases r <;> simp [Except.map]
  · rw [heq]
    simp only [← hbound]
    rw [← longestOutcome_eq_some]
    cases longestOutcome C J sha256 cache value request files ids index
        (request.tokens.length / cache.config.blockTokenCount) with
    | none => cases r <;> simp [Except.map]
    | some r' => cases r <;> cases r' <;> simp [Except.map]

/-! ### The task -/

variable {pid : ℕ}

variable (ids) in
/-- The task of a lookup at the blocks that are left of a prefix. -/
theorem lookupBlocks_solo {k : ℕ} {s' : DiskState S} {t' : DiskTask S L} :
    ∀ (rest i : ℕ) (blocks : List (NativeTextDiskCacheBlock S)) (s : DiskState S), i + (rest + 1) = k →
      (diskProgram C J sha256 cache pid value).Solo
        { s with index :=
          (lookupBlocks C J sha256 cache value request s.files ids k (rest + 1) i blocks s.index).2 }
        (.lookup request
          ((lookupBlocks C J sha256 cache value request s.files ids k (rest + 1) i blocks s.index).1.elim
            (nextPrefix k) fun result => .returned (result.map some))) s' t' →
      (diskProgram C J sha256 cache pid value).Solo s (.lookup request (.looking k i blocks)) s' t'
  | rest, i, blocks, s, hi, h => by
    rw [lookupBlocks] at h
    cases hd : lookupDescriptor sha256 cache request i with
    | error err =>
      rw [hd] at h
      have hlook : (diskProgram C J sha256 cache pid value).step .look s
          (.lookup request (.looking k i blocks)) = some (s, .lookup request (.returned (.error err))) := by
        simp [diskProgram, diskStep, lookupStep, hd]
      exact .step .look hlook h
    | ok descriptor =>
      rw [hd] at h
      dsimp only at h
      cases hentry : s.index (.fromDescriptor descriptor) with
      | none =>
        rw [hentry] at h
        have hlook : (diskProgram C J sha256 cache pid value).step .look s
            (.lookup request (.looking k i blocks)) = some (s, .lookup request (nextPrefix k)) := by
          simp [diskProgram, diskStep, lookupStep, hd, hentry]
        exact .step .look hlook h
      | some entry =>
        rw [hentry] at h
        dsimp only at h
        have hlook : (diskProgram C J sha256 cache pid value).step .look s
            (.lookup request (.looking k i blocks)) =
            some (s, .lookup request (.reading k i blocks descriptor entry)) := by
          simp [diskProgram, diskStep, lookupStep, hd, hentry]
        refine .step .look hlook ?_
        -- the block is read, with the counters that are there
        have hload : (diskProgram C J sha256 cache pid value).step
            (.load true (ids k i) (ids k k)) s
            (.lookup request (.reading k i blocks descriptor entry)) =
            some (s, .lookup request (loadBlock C cache value request k i blocks descriptor (ids k k)
              (readIndexedBlock C J cache descriptor entry (readFile s.files entry.path) (ids k i)))) :=
          rfl
        refine .step _ hload ?_
        cases hread : readIndexedBlock C J cache descriptor entry (readFile s.files entry.path)
            (ids k i) with
        | unreadable =>
          rw [hread] at h
          exact .step .remove rfl h
        | mismatched =>
          rw [hread] at h
          exact h
        | read block =>
          rw [hread] at h
          dsimp only at h
          cases rest with
          | zero =>
            rw [lookupBlocks] at h
            have hlast : ¬ i + 1 < k := by omega
            rw [loadBlock, if_neg hlast]
            cases hfinish : finishPrefix C cache value request k (blocks ++ [block]) (ids k k) with
            | none =>
              rw [hfinish] at h
              exact h
            | some result =>
              rw [hfinish] at h
              exact h
          | succ rest =>
            rw [loadBlock, if_pos (show i + 1 < k by omega)]
            exact lookupBlocks_solo rest (i + 1) (blocks ++ [block]) s (by omega) h

theorem lookupPrefixes_solo {s' : DiskState S} {t' : DiskTask S L} : ∀ (k : ℕ) (s : DiskState S),
    (diskProgram C J sha256 cache pid value).Solo
      { s with index := (lookupPrefixes C J sha256 cache value request s.files ids (k + 1) s.index).2 }
      (.lookup request
        (.returned (lookupPrefixes C J sha256 cache value request s.files ids (k + 1) s.index).1))
      s' t' →
    (diskProgram C J sha256 cache pid value).Solo s (.lookup request (.looking (k + 1) 0 [])) s' t'
  | k, s, h => by
    refine lookupBlocks_solo ids k 0 [] s (Nat.zero_add _) ?_
    rw [lookupPrefixes] at h
    rcases hround : lookupBlocks C J sha256 cache value request s.files ids (k + 1) (k + 1) 0 []
      s.index with ⟨result, index₁⟩
    rw [hround] at h
    cases result with
    | some r => exact h
    | none =>
      dsimp only [Option.elim_none] at h ⊢
      cases k with
      | zero => exact h
      | succ k =>
        rw [nextPrefix, if_neg (show ¬ k + 1 + 1 ≤ 1 by omega)]
        exact lookupPrefixes_solo k { s with index := index₁ } h

variable (C J sha256 cache value request ids pid) in
/-- A lookup that runs while the other tasks rest returns what the loops return. -/
theorem diskLookup_solo (s : DiskState S) :
    (diskProgram C J sha256 cache pid value).Solo s (.lookup request (lookupStart cache request))
      { s with index := (diskLookup C J sha256 cache value request s.files ids s.index).2 }
      (.lookup request
        (.returned (diskLookup C J sha256 cache value request s.files ids s.index).1)) := by
  unfold diskLookup lookupStart
  by_cases hempty : request.tokens.isEmpty = true
  · rw [if_pos hempty, if_pos hempty]
    exact .refl _ _
  · rw [if_neg hempty, if_neg hempty]
    dsimp only
    by_cases hzero : request.tokens.length / cache.config.blockTokenCount *
        cache.config.blockTokenCount = 0
    · rw [if_pos hzero, if_pos hzero]
      exact .refl _ _
    · rw [if_neg hzero, if_neg hzero]
      obtain ⟨k, hk⟩ : ∃ k, request.tokens.length / cache.config.blockTokenCount = k + 1 :=
        Nat.exists_eq_succ_of_ne_zero fun h0 => hzero (by rw [h0, Nat.zero_mul])
      rw [hk]
      exact lookupPrefixes_solo k s (.refl _ _)

variable (value pid) in
/-- **A lookup returns the longest prefix that is not skipped.** The task runs to its end while the
others rest. It misses just if every prefix of whole blocks is skipped, and otherwise returns what the
longest one comes to that is not, a hit or the error of the assembly. All that it leaves behind is
that blocks of the prompt are gone from the index whose files could not be read. -/
theorem lookup_returns_longest (s : DiskState S)
    (hids : IdsSuffice C J sha256 cache request s.files ids) :
    ∃ (answer : DiskResult (Option (PrefixCacheHit L))) (index' : NativeTextDiskCacheIndex),
      (diskProgram C J sha256 cache pid value).Solo s (.lookup request (lookupStart cache request))
        { s with index := index' } (.lookup request (.returned answer)) ∧
      (answer = .ok none ↔
        ∀ k, 0 < k → k * cache.config.blockTokenCount ≤ request.tokens.length →
          outcomeAt C J sha256 cache value request s.files ids s.index k = none) ∧
      (∀ r : DiskResult (PrefixCacheHit L), answer = r.map some ↔
        ∃ k, 0 < k ∧ k * cache.config.blockTokenCount ≤ request.tokens.length ∧
          outcomeAt C J sha256 cache value request s.files ids s.index k = some r ∧
          ∀ k', k < k' → k' * cache.config.blockTokenCount ≤ request.tokens.length →
            outcomeAt C J sha256 cache value request s.files ids s.index k' = none) ∧
      Pruned C J sha256 cache request s.files ids s.index index' :=
  ⟨_, _, diskLookup_solo C J sha256 cache value request ids pid s, diskLookup_longest hids⟩

end Lookup

def oneTokenLookup : LookupRequest GemmaLayerCachePrefixState where
  ns := secondBlock.ns
  tokens := [7]
  isCompatible _ := true
  ns_allocated := secondBlock.ns_allocated
  tokens_held := oneToken_held

/-- The block of the prompt is in the index, and its file is gone. -/
def lostFile : DiskState GemmaLayerCachePrefixState where
  files _ := none
  index := Function.update NativeTextDiskCacheIndex.default
    (.fromDescriptor (promptBlock sha256OfBlocks oneTokenCache oneTokenLookup 0))
    (some ⟨["cache", "lost.safetensors"], 0, 1⟩)
  queue := []
  permits := 0
  writer := .receiving
  nextTmpId := 1
  stores := []

theorem lookup_returns_longest_lost_file :
    ∃ index', (diskProgram (gemmaDiskCacheValue .onZeroRows) serdeJson sha256OfBlocks oneTokenCache 1
        keptLayers).Solo lostFile (.lookup oneTokenLookup (lookupStart oneTokenCache oneTokenLookup))
        { lostFile with index := index' } (.lookup oneTokenLookup (.returned (.ok none))) ∧
      Pruned (gemmaDiskCacheValue .onZeroRows) serdeJson sha256OfBlocks oneTokenCache oneTokenLookup
        lostFile.files (fun _ _ => .initial) lostFile.index index' := by
  have hids : IdsSuffice (gemmaDiskCacheValue .onZeroRows) serdeJson sha256OfBlocks oneTokenCache
      oneTokenLookup lostFile.files (fun _ _ => .initial) := fun _ _ _ _ h => h
  obtain ⟨answer, index', hrun, hmiss, -, hpruned⟩ := lookup_returns_longest keptLayers 1 lostFile hids
  have hentry : lostFile.index
      (.fromDescriptor (promptBlock sha256OfBlocks oneTokenCache oneTokenLookup 0)) =
      some ⟨["cache", "lost.safetensors"], 0, 1⟩ := by
    dsimp only [lostFile]
    rw [Function.update_self]
  have hblock : blockAt (gemmaDiskCacheValue .onZeroRows) serdeJson sha256OfBlocks oneTokenCache
      oneTokenLookup lostFile.files (fun _ _ => .initial) lostFile.index 1 0 = none := by
    rw [blockAt, hentry]
    rfl
  have hnone : answer = .ok none := by
    refine hmiss.mpr fun k hpos hle => ?_
    obtain rfl : k = 1 := by
      have hle' : k * 1 ≤ 1 := hle
      omega
    rw [outcomeAt, show List.range 1 = [0] from rfl, List.mapM_cons, hblock]
    rfl
  rw [hnone] at hrun
  exact ⟨index', hrun, hpruned⟩

end KirAi.NativeRuntime
