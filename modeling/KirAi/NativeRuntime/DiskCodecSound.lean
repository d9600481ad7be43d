/-
# The layers of a block of the disk cache

Block `i` of a prompt is written from the prefix state at boundary `i + 1`, which
holds the rows of all blocks up to it. `LayerHistory` says what a layer held at
each boundary; from it follow the tensors that block `i` stores of the layer, what
reading them gives, and what the assembly makes of the blocks of a whole prefix:
the rows of the last boundary (`assembleLayerKvPrefixStateBlocks_rows`). The loops
over the layers follow from what they do with one layer (`traverse_encode`,
`traverse_decode`, `traverse_assemble`).

Key definitions: `HoldsRows`, `LayerHistory`, `LayerHistory.At`, `SameLayer`.
-/
import KirAi.KvCache.LayerBuild
import KirAi.NativeRuntime.DiskCodec
import Mathlib.Algebra.BigOperators.Ring.List

namespace KirAi.NativeRuntime

open Lib KvCache LayerKvCache

variable {K : QuantKernels} {rt : Statics}

/-! ### One layer of rows -/

variable (rt) in
/-- The snapshot of a cache, by way of its prefix state. -/
theorem snapshotOfPrefixState_succeeds {c : LayerKvCache} {W : List Row} {rt' : Statics}
    (hw : Window K c W) (hids : BlockIds c rt') (hf32 : c.config = .f32)
    (hseen : c.tokenCount ≤ c.tokensSeen) (hrt : rt.nextBlockId + c.maxTokens < wordMax) :
    ∃ rt₁, snapshotOfPrefixState K c.prefixCacheState rt = .ok (c.snapshot, rt₁) ∧
      rt₁.nextBlockId ≤ rt.nextBlockId + c.maxTokens := by
  have hbc := blockCount_le c.maxTokens
  obtain ⟨s, hs⟩ := fromPrefixCacheState_succeeds rt hw hids (by rw [hf32]; decide) hseen (by omega)
  obtain ⟨-, hres, -⟩ := fromPrefixCacheState_ok hw hs
  refine ⟨s.rt, ?_, ?_⟩
  · simp only [snapshotOfPrefixState, hs, ofKvCache, ok_bind,
      fromPrefixCacheState_snapshot hw hs]
    rfl
  · rw [hres.nextBlockId, hres.blocks.length]
    omega

/-- The shape of a layer of rows. -/
structure RowShape where
  maxTokens : ℕ
  keyValueHeads : ℕ
  headDim : ℕ

/-- A prefix state of an `f32` cache of this shape that holds all rows it ever
accepted: its window has not wrapped. -/
def HoldsRows (K : QuantKernels) (shape : RowShape) (revision : ℕ) (W : List Row)
    (state : LayerKvCachePrefixState) : Prop :=
  ∃ s, Live K s W ∧ state = s.cache.prefixCacheState ∧ s.cache.config = .f32 ∧
    s.cache.maxTokens = shape.maxTokens ∧ s.cache.keyValueHeads = shape.keyValueHeads ∧
    s.cache.headDim = shape.headDim ∧ s.cache.revision = revision ∧ W.length ≤ shape.maxTokens

/-- The snapshot of rows in such a shape. -/
def RowShape.snapshot (shape : RowShape) (revision tokensSeen : ℕ) (W : List Row) :
    LayerKvCacheSnapshot where
  revision := revision
  config := .f32
  maxTokens := shape.maxTokens
  keyValueHeads := shape.keyValueHeads
  headDim := shape.headDim
  tokenCount := W.length
  tokensSeen := tokensSeen
  keys := W.flatMap (·.1)
  values := W.flatMap (·.2)

/-- What a shape has to be, and how wide its rows are. -/
structure RowShape.Holds (shape : RowShape) (W : List Row) : Prop where
  max_pos : 0 < shape.maxTokens
  vec_pos : 0 < shape.keyValueHeads * shape.headDim
  stage_le : shape.maxTokens * (shape.keyValueHeads * shape.headDim) ≤ vecF32Max
  count_le : W.length ≤ shape.maxTokens
  width : ∀ r ∈ W, r.1.length = shape.keyValueHeads * shape.headDim ∧
    r.2.length = shape.keyValueHeads * shape.headDim

variable {shape : RowShape} {revision : ℕ} {W : List Row} {state : LayerKvCachePrefixState}

/-- A window that has not wrapped is all there is to a cache. -/
theorem HoldsRows.window (h : HoldsRows K shape revision W state) :
    ∃ s : LayerState, Window K s.cache W ∧ BlockIds s.cache s.rt ∧
      state = s.cache.prefixCacheState ∧ s.cache.config = .f32 ∧
      s.cache.tokenCount ≤ s.cache.tokensSeen ∧ s.cache.maxTokens = shape.maxTokens ∧
      s.cache.snapshot = shape.snapshot revision W.length W := by
  obtain ⟨s, hlive, rfl, hf32, hmax, hheads, hdim, hrev, hlen⟩ := h
  obtain ⟨hw, hseen⟩ := hlive.reach.window
  have hall : W.rtake s.cache.maxTokens = W := by
    rw [List.rtake, Nat.sub_eq_zero_of_le (by omega), List.drop_zero]
  rw [hall] at hw
  refine ⟨s, hw, hlive.blockIds, rfl, hf32, ?_, hmax, ?_⟩
  · rw [hseen, hw.length]
  · simp only [snapshot, RowShape.snapshot, hw.keys, hw.values, hf32, hmax, hheads, hdim, hrev, hseen,
      hw.length]

theorem HoldsRows.holds (h : HoldsRows K shape revision W state) : shape.Holds W := by
  obtain ⟨-, -, -, -, -, -, -, -, hlen⟩ := id h
  obtain ⟨s', hw, -, -, -, -, hmax', hsnap⟩ := h.window
  have hheads' : s'.cache.keyValueHeads = shape.keyValueHeads :=
    congrArg LayerKvCacheSnapshot.keyValueHeads hsnap
  have hdim' : s'.cache.headDim = shape.headDim := congrArg LayerKvCacheSnapshot.headDim hsnap
  have hvec : s'.cache.vectorLen = shape.keyValueHeads * shape.headDim := by
    rw [vectorLen, hheads', hdim']
  refine ⟨hmax' ▸ hw.max_pos, hvec ▸ hw.vec_pos, ?_, hlen, fun r hr => ?_⟩
  · rw [← hmax', ← hvec]
    exact hw.stage_le
  · rw [← hvec]
    exact hw.row_length hr

namespace RowShape

/-- What a block stores of the rows `W`. -/
def tensors (shape : RowShape) (pfx : String) (W : List Row) : List NativeTextDiskCacheTensor :=
  [⟨pfx ++ ".keys", [W.length, shape.keyValueHeads, shape.headDim], W.flatMap (·.1)⟩,
    ⟨pfx ++ ".values", [W.length, shape.keyValueHeads, shape.headDim], W.flatMap (·.2)⟩]

def layout (shape : RowShape) (pfx : String) (revision tokensSeen : ℕ) (W : List Row) :
    NativeTextDiskFullAttentionLayout where
  revision := revision
  maxTokens := shape.maxTokens
  keyValueHeads := shape.keyValueHeads
  headDim := shape.headDim
  tokenCount := W.length
  tokensSeen := tokensSeen
  cacheFormat := "f32"
  keyTensor := pfx ++ ".keys"
  valueTensor := pfx ++ ".values"
  shape := [W.length, shape.keyValueHeads, shape.headDim]

theorem Holds.used_le (h : shape.Holds W) :
    W.length * (shape.keyValueHeads * shape.headDim) ≤ vecF32Max :=
  le_trans (Nat.mul_le_mul_right _ h.count_le) h.stage_le

/-- The shape of the tensors multiplies out to the number of values. -/
theorem Holds.product (h : shape.Holds W) :
    [W.length, shape.keyValueHeads, shape.headDim].foldlM checkedMul 1 =
      some (W.length * (shape.keyValueHeads * shape.headDim)) := by
  have hused := h.used_le
  have hvec := h.vec_pos
  have hdim : 0 < shape.headDim := Nat.pos_of_mul_pos_left hvec
  have hmul : W.length * shape.keyValueHeads * shape.headDim =
      W.length * (shape.keyValueHeads * shape.headDim) := Nat.mul_assoc _ _ _
  have h2 : W.length * shape.keyValueHeads ≤ wordMax := by
    have := Nat.le_mul_of_pos_right (W.length * shape.keyValueHeads) hdim
    unfold vecF32Max at hused
    unfold wordMax
    omega
  have h1 : W.length ≤ wordMax := by
    have := Nat.le_mul_of_pos_right W.length hvec
    unfold vecF32Max at hused
    unfold wordMax
    omega
  have h3 : W.length * shape.keyValueHeads * shape.headDim ≤ wordMax := by
    unfold vecF32Max at hused
    unfold wordMax
    omega
  simp only [List.foldlM_cons, List.foldlM_nil, checkedMul_of_le (show 1 * W.length ≤ wordMax by omega),
    Nat.one_mul, Option.bind_eq_bind, Option.bind_some, checkedMul_of_le h2, checkedMul_of_le h3, hmul]
  rfl

theorem Holds.keys_length (h : shape.Holds W) :
    (W.flatMap (·.1)).length = W.length * (shape.keyValueHeads * shape.headDim) :=
  length_flatMap_rows fun r hr => (h.width r hr).1

theorem Holds.values_length (h : shape.Holds W) :
    (W.flatMap (·.2)).length = W.length * (shape.keyValueHeads * shape.headDim) :=
  length_flatMap_rows fun r hr => (h.width r hr).2

/-- Fewer rows. -/
theorem Holds.of_sublist {W' : List Row} (h : shape.Holds W) (hs : W'.Sublist W) : shape.Holds W' :=
  ⟨h.max_pos, h.vec_pos, h.stage_le, le_trans hs.length_le h.count_le,
    fun r hr => h.width r (hs.subset hr)⟩

end RowShape

theorem encodeLayerKvSnapshot_rows (h : shape.Holds W) (pfx : String) (revision tokensSeen : ℕ)
    (sink : NativeTextDiskCacheTensorSink) :
    encodeLayerKvSnapshot pfx (shape.snapshot revision tokensSeen W) sink =
      .ok (shape.layout pfx revision tokensSeen W, ⟨sink.tensors ++ shape.tensors pfx W⟩) := by
  have hf32 : ¬ KvCacheConfig.f32.format.display ≠ "f32" := by decide
  simp only [encodeLayerKvSnapshot, RowShape.snapshot, if_neg hf32,
    NativeTextDiskCacheTensorSink.pushF32, h.product, okOrElse_some, ok_bind, h.keys_length,
    h.values_length, ne_eq, not_true_eq_false, ↓reduceIte, pure_bind, RowShape.tensors,
    List.append_assoc, List.singleton_append]
  rfl

/-- The rows of block `i`. -/
def blockRows (B i : ℕ) (rows : List Row) : List Row := slice rows (i * B) ((i + 1) * B)

theorem blockRows_take (B i : ℕ) (rows : List Row) :
    slice (rows.take ((i + 1) * B)) (i * B) ((i + 1) * B) = blockRows B i rows := by
  rw [blockRows, slice, slice, List.drop_take, List.take_take, Nat.min_self]

/-- Block `i` of a layer of rows, written from the state at boundary `i + 1`. -/
theorem encodeLayerKvBlock_rows {B i : ℕ} {rows : List Row} (hlen : (i + 1) * B ≤ rows.length)
    (h : HoldsRows K shape revision (rows.take ((i + 1) * B)) state)
    (hrt : rt.nextBlockId + shape.maxTokens < wordMax) (pfx : String)
    (sink : NativeTextDiskCacheTensorSink) :
    ∃ rt', encodeLayerKvBlockFromPrefixState K pfx state (i * B) B sink rt =
      .ok (shape.layout pfx revision ((i + 1) * B) (blockRows B i rows),
        ⟨sink.tensors ++ shape.tensors pfx (blockRows B i rows)⟩, rt') ∧
      rt'.nextBlockId ≤ rt.nextBlockId + shape.maxTokens := by
  have hh := h.holds
  obtain ⟨s, hw, hids, rfl, hf32, hseen, hmax, hsnap⟩ := h.window
  obtain ⟨rt', hrt', hle⟩ := snapshotOfPrefixState_succeeds rt hw hids hf32 hseen
    (by rw [hmax]; exact hrt)
  rw [hsnap] at hrt'
  rw [hmax] at hle
  refine ⟨rt', ?_, hle⟩
  have hcount : (rows.take ((i + 1) * B)).length = (i + 1) * B := by
    rw [List.length_take, Nat.min_eq_left hlen]
  have hsub : (blockRows B i rows).Sublist (rows.take ((i + 1) * B)) := by
    rw [← blockRows_take]
    exact (List.take_sublist _ _).trans (List.drop_sublist _ _)
  have hblock := hh.of_sublist hsub
  have hB : (blockRows B i rows).length = B := by
    rw [blockRows, slice_length hlen, Nat.add_one_mul]
    omega
  have hstep : i * B + B = (i + 1) * B := (Nat.add_one_mul i B).symm
  have hused := hh.used_le
  rw [hcount] at hused
  have hpos := hh.vec_pos
  have hend : (i + 1) * B * (shape.keyValueHeads * shape.headDim) ≤ wordMax := by
    unfold vecF32Max at hused
    unfold wordMax
    omega
  have hstart : i * B * (shape.keyValueHeads * shape.headDim) ≤ wordMax :=
    le_trans (Nat.mul_le_mul_right _ (Nat.mul_le_mul_right _ (Nat.le_succ i))) hend
  have hsum : i * B + B ≤ wordMax := by
    rw [hstep]
    exact le_trans (Nat.le_mul_of_pos_right _ hpos) hend
  have hvec : shape.keyValueHeads * shape.headDim ≤ wordMax := by
    have h1 := Nat.le_mul_of_pos_left (shape.keyValueHeads * shape.headDim) hh.max_pos
    have h2 := hh.stage_le
    unfold vecF32Max at h2
    unfold wordMax
    omega
  have henc := encodeLayerKvSnapshot_rows hblock pfx revision ((i + 1) * B) sink
  have hkeys : slice ((rows.take ((i + 1) * B)).flatMap (·.1))
      (i * B * (shape.keyValueHeads * shape.headDim))
      ((i + 1) * B * (shape.keyValueHeads * shape.headDim)) = (blockRows B i rows).flatMap (·.1) := by
    rw [slice_flatMap_rows _ _ fun r hr => (hh.width r hr).1, blockRows_take]
  have hvalues : slice ((rows.take ((i + 1) * B)).flatMap (·.2))
      (i * B * (shape.keyValueHeads * shape.headDim))
      ((i + 1) * B * (shape.keyValueHeads * shape.headDim)) = (blockRows B i rows).flatMap (·.2) := by
    rw [slice_flatMap_rows _ _ fun r hr => (hh.width r hr).2, blockRows_take]
  rw [RowShape.snapshot, hB] at henc
  simp only [encodeLayerKvBlockFromPrefixState, hrt', ok_bind, checkedAdd_of_le hsum, okOrElse_some,
    hstep, RowShape.snapshot, hcount, gt_iff_lt, Nat.lt_irrefl, ↓reduceIte, checkedMul_of_le hvec,
    checkedMul_of_le hstart, checkedMul_of_le hend, hkeys, hvalues, henc]
  rfl

/-- The tensors of a list are in the archive, under their names. -/
def Archived (archive : NativeTextDiskCacheTensorArchive) (tensors : List NativeTextDiskCacheTensor) :
    Prop := ∀ t ∈ tensors, archive.tensor t.name = .ok t

theorem validateTensorShape_of_tensor {archive : NativeTextDiskCacheTensorArchive}
    {t : NativeTextDiskCacheTensor} (h : archive.tensor t.name = .ok t) :
    validateTensorShape archive t.name t.shape = .ok () := by
  simp only [validateTensorShape, NativeTextDiskCacheTensorArchive.f32TensorShape, h, ok_bind, pure_bind,
    ne_eq, not_true_eq_false, ↓reduceIte]
  rfl

/-- A layer of rows that was read: the block's rows alone, under the positions of
the prefix. -/
def DecodedRows (K : QuantKernels) (shape : RowShape) (revision tokensSeen : ℕ) (W : List Row)
    (state : LayerKvCachePrefixState) : Prop :=
  ∃ s, Rebuilt K (shape.snapshot revision tokensSeen W) W s ∧ state = s.cache.prefixCacheState

variable (revision) in
theorem RowShape.snapshotOf (h : shape.Holds W) {tokensSeen : ℕ} (hseen : W.length ≤ tokensSeen) :
    SnapshotOf (shape.snapshot revision tokensSeen W) W :=
  ⟨rfl, rfl, h.count_le, hseen, rfl, rfl, h.width⟩

theorem decodeLayerKvPrefixState_rows (h : shape.Holds W) {pfx : String} {tokensSeen : ℕ}
    (hseen : W.length ≤ tokensSeen) {archive : NativeTextDiskCacheTensorArchive}
    (harch : Archived archive (shape.tensors pfx W))
    (hrt : rt.nextBlockId + 3 * shape.maxTokens < wordMax) :
    ∃ state rt', decodeLayerKvPrefixState K (shape.layout pfx revision tokensSeen W) archive rt =
      .ok (state, rt') ∧ DecodedRows K shape revision tokensSeen W state ∧
      rt'.nextBlockId ≤ rt.nextBlockId + 3 * shape.maxTokens := by
  have hk := harch _ (List.mem_cons_self ..)
  have hv := harch _ (List.mem_cons_of_mem _ (List.mem_cons_self ..))
  have hks := validateTensorShape_of_tensor hk
  have hvs := validateTensorShape_of_tensor hv
  have hbc := blockCount_le shape.maxTokens
  obtain ⟨c, rt₁, hnew⟩ := newWithConfig_succeeds rt
    ⟨h.max_pos, h.vec_pos, h.stage_le, by omega⟩ (show KvCacheConfig.f32.format ≠ .f16 by decide)
  have hn := newWithConfig_ok hnew
  have hnext := hn.nextBlockId
  rw [hn.blocks_length] at hnext
  have hcfg : c.snapshot.config = .f32 := by
    rw [snapshot, hn.cache]
  obtain ⟨s, hs, hre, hle⟩ := fromSnapshot_succeeds (K := K) rt₁
    (RowShape.snapshotOf revision h hseen) h.max_pos h.vec_pos h.stage_le
    (by change rt₁.nextBlockId + blockCount shape.maxTokens ≤ wordMax; omega)
  refine ⟨s.cache.prefixCacheState, s.rt, ?_, ⟨s, hre, rfl⟩, ?_⟩
  · dsimp only at hk hv hks hvs
    have hdec : decodeLayerKvSnapshot (shape.layout pfx revision tokensSeen W) archive rt =
        .ok (shape.snapshot revision tokensSeen W, rt₁) := by
      simp only [decodeLayerKvSnapshot, RowShape.layout, ne_eq, not_true_eq_false, ↓reduceIte,
        NativeTextDiskCacheTensorArchive.f32Tensor, hk, hv, hks, hvs, ok_bind, pure_bind, hnew,
        ofKvCache, hcfg]
      rfl
    simp only [decodeLayerKvPrefixState, hdec, ok_bind, hs, ofKvCache]
    rfl
  · change s.rt.nextBlockId = rt₁.nextBlockId + blockCount shape.maxTokens at hle
    omega

variable (rt) in
theorem DecodedRows.snapshot {tokensSeen : ℕ} (h : DecodedRows K shape revision tokensSeen W state)
    (hseen : W.length ≤ tokensSeen) (hrt : rt.nextBlockId + shape.maxTokens < wordMax) :
    ∃ rt', snapshotOfPrefixState K state rt = .ok (shape.snapshot revision tokensSeen W, rt') ∧
      rt'.nextBlockId ≤ rt.nextBlockId + shape.maxTokens := by
  obtain ⟨s, hre, rfl⟩ := h
  have hmax : s.cache.maxTokens = shape.maxTokens := hre.maxTokens
  have hsnap : s.cache.snapshot = shape.snapshot revision tokensSeen W := by
    simp only [LayerKvCache.snapshot, hre.window.keys, hre.window.values, hre.config, hre.maxTokens,
      hre.keyValueHeads, hre.headDim, hre.tokensSeen, hre.revision, ← hre.window.length]
    rfl
  obtain ⟨rt', hrt', hle⟩ := snapshotOfPrefixState_succeeds rt hre.window hre.ids hre.config
    (by rw [← hre.window.length, hre.tokensSeen]; exact hseen) (by rw [hmax]; exact hrt)
  rw [hsnap] at hrt'
  rw [hmax] at hle
  exact ⟨rt', hrt', hle⟩

/-! ### Assembling the blocks of one layer of rows -/

theorem take_append_blockRows (B i : ℕ) (rows : List Row) :
    rows.take (i * B) ++ blockRows B i rows = rows.take ((i + 1) * B) := by
  rw [blockRows, slice, Nat.add_one_mul, Nat.add_sub_cancel_left, ← List.take_add]

section Assembly

variable {B n : ℕ} {rows : List Row} {revisions : ℕ → ℕ}

/-- The state of a layer of rows in block `i`, after reading. -/
def DecodedBlock (K : QuantKernels) (shape : RowShape) (B : ℕ) (revisions : ℕ → ℕ) (rows : List Row)
    (i : ℕ) (state : LayerKvCachePrefixState) : Prop :=
  DecodedRows K shape (revisions (i + 1)) ((i + 1) * B) (blockRows B i rows) state

theorem blockRows_length {i : ℕ} (hlen : (i + 1) * B ≤ rows.length) :
    (blockRows B i rows).length = B := by
  rw [blockRows, slice_length hlen, Nat.add_one_mul]
  omega

variable (rt) in
theorem DecodedBlock.snapshot {i : ℕ} (h : DecodedBlock K shape B revisions rows i state)
    (hlen : (i + 1) * B ≤ rows.length) (hrt : rt.nextBlockId + shape.maxTokens < wordMax) :
    ∃ rt', snapshotOfPrefixState K state rt =
      .ok (shape.snapshot (revisions (i + 1)) ((i + 1) * B) (blockRows B i rows), rt') ∧
      rt'.nextBlockId ≤ rt.nextBlockId + shape.maxTokens := by
  refine DecodedRows.snapshot rt h ?_ hrt
  rw [blockRows_length hlen]
  exact Nat.le_mul_of_pos_left B (Nat.succ_pos i)

/-- What the loop holds after `i` blocks. -/
def assembledUpTo (B : ℕ) (revisions : ℕ → ℕ) (rows : List Row) (i : ℕ) : AssembledRows where
  revision := revisions i
  tokenCount := i * B
  keys := (rows.take (i * B)).flatMap (·.1)
  values := (rows.take (i * B)).flatMap (·.2)

theorem assembleRows_blocks (first : LayerKvCacheSnapshot) (hcfg : first.config = .f32)
    (hmax : first.maxTokens = shape.maxTokens) (hheads : first.keyValueHeads = shape.keyValueHeads)
    (hdim : first.headDim = shape.headDim) (hn : n * B ≤ rows.length) (hword : n * B ≤ wordMax) :
    ∀ (m i : ℕ) (states : List LayerKvCachePrefixState) (rt : Statics),
    List.Forall₂ (DecodedBlock K shape B revisions rows) (List.range' i m) states → i + m = n →
    rt.nextBlockId + m * shape.maxTokens < wordMax →
    ∃ rt', assembleRows K first states (assembledUpTo B revisions rows i) rt =
      .ok (assembledUpTo B revisions rows n, rt') ∧
      rt'.nextBlockId ≤ rt.nextBlockId + m * shape.maxTokens
  | 0, i, _, rt, .nil, hi, _ => by
    obtain rfl : i = n := by omega
    exact ⟨rt, rfl, by omega⟩
  | m + 1, i, _, rt, h, hi, hrt => by
    rw [List.range'_succ] at h
    cases h with
    | @cons _ state _ states h hrest =>
      rw [Nat.add_one_mul] at hrt ⊢
      have hle : (i + 1) * B ≤ n * B := Nat.mul_le_mul_right B (by omega)
      obtain ⟨rt₁, hsnap, hle₁⟩ := h.snapshot rt (by omega) (by omega)
      obtain ⟨rt', hok, hle'⟩ := assembleRows_blocks first hcfg hmax hheads hdim hn hword m (i + 1) states rt₁
        hrest (by omega) (by omega)
      refine ⟨rt', ?_, by omega⟩
      have hsum : i * B + B = (i + 1) * B := (Nat.add_one_mul i B).symm
      have hsame : ¬ (KvCacheConfig.f32 ≠ first.config ∨ shape.maxTokens ≠ first.maxTokens ∨
          shape.keyValueHeads ≠ first.keyValueHeads ∨ shape.headDim ≠ first.headDim) := by
        rw [hcfg, hmax, hheads, hdim]
        simp
      simp only [assembleRows, hsnap, ok_bind, RowShape.snapshot, if_neg hsame,
        blockRows_length (show (i + 1) * B ≤ rows.length by omega)]
      rw [show (assembledUpTo B revisions rows i).tokenCount = i * B from rfl,
        checkedAdd_of_le (show i * B + B ≤ wordMax by omega), okOrElse_some, ok_bind, hsum]
      simp only [assembledUpTo, ← List.flatMap_append, take_append_blockRows] at hok ⊢
      exact hok

variable (rt) in
/-- The assembly of the blocks of a layer of rows has all its rows. -/
theorem assembleLayerKvPrefixStateBlocks_rows (hpos : 0 < n) (hlen : n * B ≤ rows.length)
    (hh : shape.Holds (rows.take (n * B))) {states : List LayerKvCachePrefixState}
    (h : List.Forall₂ (DecodedBlock K shape B revisions rows) (List.range n) states)
    (hrt : rt.nextBlockId + (n + 2) * shape.maxTokens < wordMax) :
    ∃ state rt', assembleLayerKvPrefixStateBlocks K states rt = .ok (state, rt') ∧
      DecodedRows K shape (revisions n) (n * B) (rows.take (n * B)) state ∧
      rt'.nextBlockId ≤ rt.nextBlockId + (n + 2) * shape.maxTokens := by
  obtain ⟨m, rfl⟩ : ∃ m, n = m + 1 := ⟨n - 1, by omega⟩
  have hcount : (rows.take ((m + 1) * B)).length = (m + 1) * B := by
    rw [List.length_take, Nat.min_eq_left hlen]
  have hcap := hh.count_le
  rw [hcount] at hcap
  have hword : (m + 1) * B ≤ wordMax := by
    have := Nat.le_mul_of_pos_left shape.maxTokens (show 0 < m + 1 + 2 by omega)
    omega
  rw [List.range_eq_range', List.range'_succ] at h
  cases h with
  | @cons _ state _ states h hrest =>
    have hbudget : (m + 1 + 2) * shape.maxTokens =
        shape.maxTokens + m * shape.maxTokens + 2 * shape.maxTokens := by ring
    rw [hbudget] at hrt ⊢
    have hle : (0 + 1) * B ≤ (m + 1) * B := Nat.mul_le_mul_right B (by omega)
    obtain ⟨rt₁, hsnap, hle₁⟩ := h.snapshot rt (by omega) (by omega)
    obtain ⟨rt₂, hrows, hle₂⟩ := assembleRows_blocks
      (shape.snapshot (revisions (0 + 1)) ((0 + 1) * B) (blockRows B 0 rows)) rfl rfl rfl rfl
      hlen hword m (0 + 1) states rt₁ hrest (by omega) (by omega)
    have hbc := blockCount_le shape.maxTokens
    obtain ⟨s, hs, hre, hle₃⟩ := fromSnapshot_succeeds (K := K) rt₂
      (RowShape.snapshotOf (revisions (m + 1)) hh (le_of_eq hcount)) hh.max_pos hh.vec_pos
      hh.stage_le (by change rt₂.nextBlockId + blockCount shape.maxTokens ≤ wordMax; omega)
    change s.rt.nextBlockId = rt₂.nextBlockId + blockCount shape.maxTokens at hle₃
    refine ⟨s.cache.prefixCacheState, s.rt, ?_, ⟨s, hre, rfl⟩, by omega⟩
    have hfirst : blockRows B 0 rows = rows.take ((0 + 1) * B) := by
      rw [← take_append_blockRows, Nat.zero_mul, List.take_zero, List.nil_append]
    have hinit : (⟨revisions (0 + 1), (blockRows B 0 rows).length, (blockRows B 0 rows).flatMap (·.1),
        (blockRows B 0 rows).flatMap (·.2)⟩ : AssembledRows) =
        assembledUpTo B revisions rows (0 + 1) := by
      rw [assembledUpTo, blockRows_length (by omega), ← hfirst, Nat.zero_add, Nat.one_mul]
    simp only [assembleLayerKvPrefixStateBlocks, hsnap, ok_bind]
    rw [show (⟨(shape.snapshot (revisions (0 + 1)) ((0 + 1) * B) (blockRows B 0 rows)).revision,
        (shape.snapshot (revisions (0 + 1)) ((0 + 1) * B) (blockRows B 0 rows)).tokenCount,
        (shape.snapshot (revisions (0 + 1)) ((0 + 1) * B) (blockRows B 0 rows)).keys,
        (shape.snapshot (revisions (0 + 1)) ((0 + 1) * B) (blockRows B 0 rows)).values⟩ :
        AssembledRows) = assembledUpTo B revisions rows (0 + 1) from hinit, hrows]
    have hfit : ¬ (assembledUpTo B revisions rows (m + 1)).tokenCount >
        (shape.snapshot (revisions (0 + 1)) ((0 + 1) * B) (blockRows B 0 rows)).maxTokens := by
      change ¬ (m + 1) * B > shape.maxTokens
      omega
    simp only [ok_bind, if_neg hfit]
    simp only [RowShape.snapshot, hcount] at hs
    simp only [RowShape.snapshot, assembledUpTo, hs]
    rfl

end Assembly

/-- Rows that were assembled are the rows of the last boundary. -/
theorem DecodedRows.same {other : LayerKvCachePrefixState}
    (h : DecodedRows K shape revision W.length W state) (h' : HoldsRows K shape revision W other) :
    state.Same other := by
  obtain ⟨s, hre, rfl⟩ := h
  obtain ⟨s', hw', hids', rfl, -, -, -, hsnap'⟩ := h'.window
  have hsnap : s.cache.snapshot = s'.cache.snapshot := by
    rw [hsnap']
    simp only [LayerKvCache.snapshot, hre.window.keys, hre.window.values, hre.config, hre.maxTokens,
      hre.keyValueHeads, hre.headDim, hre.tokensSeen, hre.revision, ← hre.window.length]
    rfl
  refine ⟨congrArg (·.revision) hsnap, congrArg (·.config) hsnap, congrArg (·.maxTokens) hsnap,
    congrArg (·.keyValueHeads) hsnap, congrArg (·.headDim) hsnap, congrArg (·.tokenCount) hsnap,
    congrArg (·.tokensSeen) hsnap, ?_⟩
  rw [hre.window.prefixState_rows hre.ids, hw'.prefixState_rows hids']

/-! ### Linear layers -/

/-- What a block stores of a linear layer. -/
def linearTensors (pfx : String) (c : LinearAttentionCache) : List NativeTextDiskCacheTensor :=
  [⟨pfx ++ ".conv_window", [c.shape.convKernelSize, c.shape.convDim], c.convWindow⟩,
    ⟨pfx ++ ".recurrent_state", [c.shape.numValueHeads, c.shape.keyHeadDim, c.shape.valueHeadDim],
      c.recurrentState⟩]

def linearLayout (pfx : String) (c : LinearAttentionCache) : NativeTextDiskLinearAttentionLayout where
  revision := c.revision
  convKernelSize := c.shape.convKernelSize
  convDim := c.shape.convDim
  numValueHeads := c.shape.numValueHeads
  keyHeadDim := c.shape.keyHeadDim
  valueHeadDim := c.shape.valueHeadDim
  tokenCount := c.tokenCount
  convWindowTensor := pfx ++ ".conv_window"
  recurrentStateTensor := pfx ++ ".recurrent_state"
  convWindowShape := [c.shape.convKernelSize, c.shape.convDim]
  recurrentStateShape := [c.shape.numValueHeads, c.shape.keyHeadDim, c.shape.valueHeadDim]

theorem encodeLinearAttentionSnapshot_cache (pfx : String) (c : LinearAttentionCache)
    (sink : NativeTextDiskCacheTensorSink) :
    encodeLinearAttentionSnapshot pfx c.snapshot sink =
      .ok (linearLayout pfx c, ⟨sink.tensors ++ linearTensors pfx c⟩) := by
  obtain ⟨hk, hd, hn, hkd, hvd, hconv, hrec⟩ := c.valid
  have hword : vecF32Max ≤ wordMax := by decide
  have h1 : 1 * c.shape.convKernelSize ≤ wordMax := by
    have := Nat.le_mul_of_pos_right c.shape.convKernelSize (Nat.pos_of_ne_zero hd)
    unfold LinearShape.convLen at hconv
    omega
  have h2 : c.shape.convKernelSize * c.shape.convDim ≤ wordMax := le_trans hconv hword
  have hrec' : c.shape.numValueHeads * c.shape.keyHeadDim * c.shape.valueHeadDim ≤ wordMax :=
    le_trans hrec hword
  have h3 : c.shape.numValueHeads * c.shape.keyHeadDim ≤ wordMax :=
    le_trans (Nat.le_mul_of_pos_right _ (Nat.pos_of_ne_zero hvd)) hrec'
  have h4 : 1 * c.shape.numValueHeads ≤ wordMax := by
    have := Nat.le_mul_of_pos_right c.shape.numValueHeads (Nat.pos_of_ne_zero hkd)
    omega
  have hc : c.convWindow.length = c.shape.convKernelSize * c.shape.convDim := c.convWindow_length
  have hr : c.recurrentState.length =
      c.shape.numValueHeads * c.shape.keyHeadDim * c.shape.valueHeadDim := c.recurrentState_length
  simp only [encodeLinearAttentionSnapshot, LinearAttentionCache.snapshot,
    NativeTextDiskCacheTensorSink.pushF32, List.foldlM_cons, List.foldlM_nil, checkedMul_of_le h1,
    checkedMul_of_le h4, Nat.one_mul, Option.bind_eq_bind, Option.bind_some, checkedMul_of_le h2,
    checkedMul_of_le h3, checkedMul_of_le hrec', Option.pure_def, okOrElse_some, ok_bind, hc, hr, ne_eq,
    not_true_eq_false, ↓reduceIte, pure_bind, linearTensors, List.append_assoc, List.singleton_append]
  rfl

theorem decodeLinearAttentionSnapshot_cache {pfx : String} {c : LinearAttentionCache}
    {archive : NativeTextDiskCacheTensorArchive} (h : Archived archive (linearTensors pfx c)) :
    decodeLinearAttentionSnapshot (linearLayout pfx c) archive = .ok c.snapshot := by
  have hc := h _ (List.mem_cons_self ..)
  have hr := h _ (List.mem_cons_of_mem _ (List.mem_cons_self ..))
  have hcs := validateTensorShape_of_tensor hc
  have hrs := validateTensorShape_of_tensor hr
  dsimp only at hc hr hcs hrs
  simp only [decodeLinearAttentionSnapshot, linearLayout, hcs, hrs, ok_bind,
    NativeTextDiskCacheTensorArchive.f32Tensor, hc, hr, pure_bind]
  rfl

/-! ### Layers at the boundaries -/

/-- What a layer held at each block boundary of a prompt: rows that only grew, of
which the first `k * B` were there at boundary `k`, or a linear cache for each
boundary. -/
inductive LayerHistory where
  | rows (shape : RowShape) (revisions : ℕ → ℕ) (all : List Row)
  | linear (caches : ℕ → LinearAttentionCache)

namespace LayerHistory

/-- The prefix state of the layer at boundary `k`, with blocks of `B` tokens. -/
def At (K : QuantKernels) (B k : ℕ) : LayerHistory → QwenLayerCachePrefixState → Prop
  | rows shape revisions all, .full state =>
    k * B ≤ all.length ∧ HoldsRows K shape (revisions k) (all.take (k * B)) state
  | linear caches, .linear snapshot =>
    (caches k).tokenCount = k * B ∧ snapshot = (caches k).snapshot
  | _, _ => False

/-- The state of the layer that reading block `i` gives. -/
def DecodedAt (K : QuantKernels) (B i : ℕ) : LayerHistory → QwenLayerCachePrefixState → Prop
  | rows shape revisions all, .full state => DecodedBlock K shape B revisions all i state
  | linear caches, .linear snapshot => snapshot = (caches (i + 1)).snapshot
  | _, _ => False

/-- What block `i` stores of the layer. -/
def tensors (pfx : String) (B i : ℕ) : LayerHistory → List NativeTextDiskCacheTensor
  | rows shape _ all => shape.tensors pfx (blockRows B i all)
  | linear caches => linearTensors pfx (caches (i + 1))

/-- The block ids a call takes for the layer, at most. -/
def ids : LayerHistory → ℕ
  | rows shape _ _ => shape.maxTokens
  | linear _ => 0

end LayerHistory

/-- The same state of a layer. -/
def SameLayer : QwenLayerCachePrefixState → QwenLayerCachePrefixState → Prop
  | .full a, .full b => a.Same b
  | .linear a, .linear b => a = b
  | _, _ => False

/-! ### The layers of a block -/

section Layers

variable {S : Type} {view : S → QwenLayerCachePrefixState} {kind : LayerHistory → String}
  {layout : String → LayerHistory → NativeTextDiskCacheLayerLayout} {B i n : ℕ}

/-- The names of a layer's tensors start with its index and its kind. -/
def layerPrefix (kind : LayerHistory → String) (h : LayerHistory) (layerIdx : ℕ) : String :=
  "layers." ++ toString layerIdx ++ kind h

/-- The tensors of the layers of block `i`, from layer `j` on. -/
def blockTensors (kind : LayerHistory → String) (B i : ℕ) (layers : List LayerHistory) (j : ℕ) :
    List NativeTextDiskCacheTensor :=
  (layers.zipIdx j).flatMap fun p => p.1.tensors (layerPrefix kind p.1 p.2) B i

def blockLayouts (kind : LayerHistory → String)
    (layout : String → LayerHistory → NativeTextDiskCacheLayerLayout) (layers : List LayerHistory)
    (j : ℕ) : List NativeTextDiskCacheLayerLayout :=
  (layers.zipIdx j).map fun p => layout (layerPrefix kind p.1 p.2) p.1

/-- The states of all layers at a boundary. -/
def AtBoundary (K : QuantKernels) (view : S → QwenLayerCachePrefixState) (B k : ℕ)
    (layers : List LayerHistory) (states : List S) : Prop :=
  List.Forall₂ (fun h state => h.At K B k (view state)) layers states

def idsOf (layers : List LayerHistory) : ℕ := (layers.map LayerHistory.ids).sum

/-- Encoding layer after layer, from what encoding one layer does. -/
theorem traverse_encode {f : S × ℕ → NativeTextDiskCacheTensorSink × Statics →
      DiskResult (NativeTextDiskCacheLayerLayout × NativeTextDiskCacheTensorSink × Statics)}
    (hf : ∀ (h : LayerHistory) (state : S) (j : ℕ) (sink : NativeTextDiskCacheTensorSink)
      (rt : Statics), h.At K B (i + 1) (view state) → rt.nextBlockId + h.ids < wordMax →
      ∃ rt', f (state, j) (sink, rt) = .ok (layout (layerPrefix kind h j) h,
        ⟨sink.tensors ++ h.tensors (layerPrefix kind h j) B i⟩, rt') ∧
        rt'.nextBlockId ≤ rt.nextBlockId + h.ids) :
    ∀ {layers : List LayerHistory} {states : List S} (j : ℕ) (sink : NativeTextDiskCacheTensorSink)
      (rt : Statics), AtBoundary K view B (i + 1) layers states →
      rt.nextBlockId + idsOf layers < wordMax →
      ∃ rt', traverseWith f (states.zipIdx j) (sink, rt) = .ok (blockLayouts kind layout layers j,
        ⟨sink.tensors ++ blockTensors kind B i layers j⟩, rt') ∧
        rt'.nextBlockId ≤ rt.nextBlockId + idsOf layers
  | [], [], _, sink, rt, _, _ => ⟨rt, by simp [traverseWith, blockLayouts, blockTensors], by omega⟩
  | [], _ :: _, _, _, _, hlayers, _ => by cases hlayers
  | _ :: _, [], _, _, _, hlayers, _ => by cases hlayers
  | h :: layers, state :: states, j, sink, rt, hlayers, hrt => by
    obtain ⟨hat, hrest⟩ := List.forall₂_cons.1 hlayers
    rw [idsOf, List.map_cons, List.sum_cons] at hrt
    obtain ⟨rt₁, hok₁, hle₁⟩ := hf h state j sink rt hat (by omega)
    obtain ⟨rt', hok', hle'⟩ := traverse_encode hf (j + 1)
      ⟨sink.tensors ++ h.tensors (layerPrefix kind h j) B i⟩ rt₁ hrest (by unfold idsOf; omega)
    refine ⟨rt', ?_, ?_⟩
    · rw [List.zipIdx_cons, traverseWith, hok₁]
      simp only [ok_bind, hok', blockLayouts, blockTensors, List.zipIdx_cons, List.map_cons,
        List.flatMap_cons, List.append_assoc]
      rfl
    · rw [idsOf, List.map_cons, List.sum_cons]
      unfold idsOf at hle'
      omega

/-- Reading layer after layer. -/
theorem traverse_decode {archive : NativeTextDiskCacheTensorArchive}
    {g : NativeTextDiskCacheLayerLayout → Statics → DiskResult (S × Statics)}
    (hg : ∀ (h : LayerHistory) (state : S) (j : ℕ) (rt : Statics), h.At K B (i + 1) (view state) →
      Archived archive (h.tensors (layerPrefix kind h j) B i) →
      rt.nextBlockId + 3 * h.ids < wordMax →
      ∃ state rt', g (layout (layerPrefix kind h j) h) rt = .ok (state, rt') ∧
        h.DecodedAt K B i (view state) ∧ rt'.nextBlockId ≤ rt.nextBlockId + 3 * h.ids) :
    ∀ {layers : List LayerHistory} {states : List S} (j : ℕ) (rt : Statics),
      AtBoundary K view B (i + 1) layers states →
      Archived archive (blockTensors kind B i layers j) →
      rt.nextBlockId + 3 * idsOf layers < wordMax →
      ∃ decoded rt', traverseWith g (blockLayouts kind layout layers j) rt = .ok (decoded, rt') ∧
        List.Forall₂ (fun h state => h.DecodedAt K B i (view state)) layers decoded
  | [], [], _, rt, _, _, _ => ⟨[], rt, rfl, .nil⟩
  | [], _ :: _, _, _, hlayers, _, _ => by cases hlayers
  | _ :: _, [], _, _, hlayers, _, _ => by cases hlayers
  | h :: layers, state :: states, j, rt, hlayers, harch, hrt => by
    obtain ⟨hat, hrest⟩ := List.forall₂_cons.1 hlayers
    rw [idsOf, List.map_cons, List.sum_cons] at hrt
    rw [blockTensors, List.zipIdx_cons, List.flatMap_cons] at harch
    obtain ⟨d, rt₁, hok₁, hd, hle₁⟩ := hg h state j rt hat
      (fun t ht => harch t (List.mem_append_left _ ht)) (by omega)
    obtain ⟨ds, rt', hok', hds⟩ := traverse_decode hg (j + 1) rt₁ hrest
      (fun t ht => harch t (List.mem_append_right _ ht)) (by unfold idsOf; omega)
    refine ⟨d :: ds, rt', ?_, .cons hd hds⟩
    rw [blockLayouts, List.zipIdx_cons, List.map_cons, traverseWith, hok₁]
    simp only [ok_bind]
    rw [show (layers.zipIdx (j + 1)).map (fun p => layout (layerPrefix kind p.1 p.2) p.1) =
      blockLayouts kind layout layers (j + 1) from rfl, hok']
    rfl

/-- A block that was read: its range, and what its layers hold. -/
structure ReadBlock (K : QuantKernels) (view : S → QwenLayerCachePrefixState) (B : ℕ)
    (layers : List LayerHistory) (i : ℕ) (block : NativeTextDiskCacheStateBlock S) : Prop where
  start : block.blockStart = i * B
  count : block.tokenCount = B
  states : List.Forall₂ (fun h state => h.DecodedAt K B i (view state)) layers block.states

theorem validateContiguousFrom_blocks {layers : List LayerHistory} (hword : n * B ≤ wordMax) :
    ∀ (m i : ℕ) (blocks : List (NativeTextDiskCacheStateBlock S)),
    List.Forall₂ (ReadBlock K view B layers) (List.range' i m) blocks → i + m = n →
    validateContiguousFrom (i * B) blocks = .ok ()
  | 0, _, _, .nil, _ => rfl
  | m + 1, i, _, h, hi => by
    rw [List.range'_succ] at h
    cases h with
    | @cons _ block _ blocks hb hrest =>
      have hle : (i + 1) * B ≤ n * B := Nat.mul_le_mul_right B (by omega)
      have hstep : i * B + B = (i + 1) * B := (Nat.add_one_mul i B).symm
      simp only [validateContiguousFrom, hb.start, hb.count, ne_eq, not_true_eq_false, ↓reduceIte,
        checkedAdd_of_le (show i * B + B ≤ wordMax by omega), okOrElse_some, ok_bind, hstep]
      exact validateContiguousFrom_blocks hword m (i + 1) blocks hrest (by omega)

/-- The state of layer `j` in a block that was read. -/
theorem ReadBlock.layer {layers : List LayerHistory} {block : NativeTextDiskCacheStateBlock S}
    (hb : ReadBlock K view B layers i block) {j : ℕ} {h : LayerHistory} (hj : layers[j]? = some h) :
    ∃ state, block.states[j]? = some state ∧ h.DecodedAt K B i (view state) := by
  obtain ⟨hlt, rfl⟩ := List.getElem?_eq_some_iff.mp hj
  have hlen := hb.states.length_eq
  refine ⟨_, List.getElem?_eq_getElem (by omega), ?_⟩
  exact List.forall₂_iff_get.mp hb.states |>.2 j hlt (by omega)

/-- The states of a layer of rows in all blocks. -/
theorem layerStates_rows (read : S → Option LayerKvCachePrefixState)
    (hread : ∀ state s, view state = .full s → read state = some s) {layers : List LayerHistory}
    {j : ℕ} {shape : RowShape} {revisions : ℕ → ℕ} {all : List Row}
    (hj : layers[j]? = some (.rows shape revisions all)) (countText kindText : String)
    {is : List ℕ} {blocks : List (NativeTextDiskCacheStateBlock S)}
    (hblocks : List.Forall₂ (ReadBlock K view B layers) is blocks) :
    ∃ states, layerStates read layers.length j countText kindText blocks = .ok states ∧
      List.Forall₂ (DecodedBlock K shape B revisions all) is states := by
  induction hblocks with
  | nil => exact ⟨[], rfl, .nil⟩
  | @cons i block is blocks hb _ ih =>
    obtain ⟨states, hok, hall⟩ := ih
    obtain ⟨state, hstate, hdec⟩ := hb.layer hj
    cases hv : view state with
    | linear snapshot =>
      rw [hv] at hdec
      exact hdec.elim
    | full s =>
      rw [hv] at hdec
      refine ⟨s :: states, ?_, .cons hdec hall⟩
      rw [layerStates] at hok
      rw [layerStates, List.mapM_cons, hok]
      simp only [← hb.states.length_eq, ne_eq, not_true_eq_false, ↓reduceIte, hstate, Option.bind_some,
        hread state s hv, okOrElse_some, ok_bind]
      rfl

/-- One layer of rows, assembled from blocks that were read. -/
theorem assembleRowsLayer (read : S → Option LayerKvCachePrefixState)
    (hread : ∀ state s, view state = .full s → read state = some s) {layers : List LayerHistory}
    {j : ℕ} {shape : RowShape} {revisions : ℕ → ℕ} {all : List Row} {final : S}
    (hj : layers[j]? = some (.rows shape revisions all)) (countText kindText : String)
    {blocks : List (NativeTextDiskCacheStateBlock S)} (hpos : 0 < n)
    (hblocks : List.Forall₂ (ReadBlock K view B layers) (List.range n) blocks)
    (hfinal : (LayerHistory.rows shape revisions all).At K B n (view final))
    (hrt : rt.nextBlockId + (n + 2) * shape.maxTokens < wordMax) :
    ∃ states state rt', layerStates read layers.length j countText kindText blocks = .ok states ∧
      assembleLayerKvPrefixStateBlocks K states rt = .ok (state, rt') ∧
      SameLayer (.full state) (view final) ∧
      rt'.nextBlockId ≤ rt.nextBlockId + (n + 2) * shape.maxTokens := by
  obtain ⟨states, hstates, hall⟩ := layerStates_rows read hread hj countText kindText hblocks
  cases hv : view final with
  | linear snapshot =>
    rw [hv] at hfinal
    exact hfinal.elim
  | full other =>
    rw [hv] at hfinal
    obtain ⟨hlen, hholds⟩ := hfinal
    obtain ⟨state, rt', hok, hdec, hle⟩ := assembleLayerKvPrefixStateBlocks_rows rt hpos hlen
      hholds.holds hall hrt
    refine ⟨states, state, rt', hstates, hok, ?_, hle⟩
    have hcount : (all.take (n * B)).length = n * B := by
      rw [List.length_take, Nat.min_eq_left hlen]
    exact DecodedRows.same (by rw [hcount]; exact hdec) hholds

/-- Assembling layer after layer. -/
theorem traverse_assemble {f : ℕ → Statics → DiskResult (S × Statics)} {layers : List LayerHistory}
    {final : List S} (hfinal : AtBoundary K view B n layers final)
    (hf : ∀ (j : ℕ) (h : LayerHistory) (state : S) (rt : Statics), layers[j]? = some h →
      h.At K B n (view state) → rt.nextBlockId + (n + 2) * h.ids < wordMax →
      ∃ state' rt', f j rt = .ok (state', rt') ∧ SameLayer (view state') (view state) ∧
        rt'.nextBlockId ≤ rt.nextBlockId + (n + 2) * h.ids)
    (hrt : rt.nextBlockId + (n + 2) * idsOf layers < wordMax) :
    ∃ states rt', traverseWith f (List.range layers.length) rt = .ok (states, rt') ∧
      List.Forall₂ (fun a b => SameLayer (view a) (view b)) states final := by
  have hlen := hfinal.length_eq
  have hget := (List.forall₂_iff_get.mp hfinal).2
  have hcosts : (List.range layers.length).map
      (fun j => (n + 2) * (layers[j]?.map LayerHistory.ids).getD 0) =
      layers.map fun h => (n + 2) * h.ids := by
    refine List.ext_getElem (by simp) fun j h₁ h₂ => ?_
    have hj : j < layers.length := by simpa using h₂
    simp [List.getElem?_eq_getElem hj]
  obtain ⟨states, rt', hok, hall, -⟩ := traverse_succeeds (f := f)
    (fun j state' => ∃ state, final[j]? = some state ∧ SameLayer (view state') (view state))
    Statics.nextBlockId (fun j => (n + 2) * (layers[j]?.map LayerHistory.ids).getD 0)
    (List.range layers.length) rt
    (fun j hj rt₀ hbudget => by
      have hlt := List.mem_range.mp hj
      rw [List.getElem?_eq_getElem hlt] at hbudget ⊢
      obtain ⟨state', rt₁, hok, hsame, hle⟩ := hf j layers[j] final[j] rt₀
        (List.getElem?_eq_getElem hlt) (hget j hlt (by omega)) hbudget
      exact ⟨state', rt₁, hok, ⟨_, List.getElem?_eq_getElem (by omega), hsame⟩, hle⟩)
    (by rw [hcosts, List.sum_map_mul_left]; exact hrt)
  refine ⟨states, rt', hok, List.forall₂_iff_get.mpr ⟨?_, fun j h₁ h₂ => ?_⟩⟩
  · rw [← hall.length_eq, List.length_range, hlen]
  · obtain ⟨-, hR⟩ := List.forall₂_iff_get.mp hall
    obtain ⟨state, hstate, hsame⟩ := hR j (by rw [List.length_range]; omega) h₁
    have hrange : (List.range layers.length).get ⟨j, by rw [List.length_range]; omega⟩ = j := by simp
    rw [hrange, List.getElem?_eq_getElem h₂] at hstate
    cases hstate
    exact hsame

end Layers

end KirAi.NativeRuntime
