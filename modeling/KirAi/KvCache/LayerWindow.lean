/-
# A layer cache is a window of rows

`Window K c W` says that the cache `c` holds the rows `W`, oldest first: the
blocks, the staged ring, the runs, the contiguous views and the compressed
copies all tell the same story. Appending at the end, sliding and clearing keep
it for the list operation they stand for, and an append that fails leaves the
cache as it was.

Key theorems: `Window.appendWithMetadata`, `Window.appendSlidingWithMetadata`,
`Window.clear`, `newWithConfig_window`.
-/
import KirAi.KvCache.LayerRuns

namespace KirAi.KvCache

open Lib

/-- A row of keys and a row of values. -/
abbrev Row := List F32 × List F32

/-- The layer block as one step of writing it left it: row `j` is written, and
is the last row in use if it was past the others. -/
structure CacheBlock.Written (b b' : CacheBlock) (j : ℕ) (r : Row) : Prop where
  vectorLen : b'.vectorLen = b.vectorLen
  capacityTokens : b'.capacityTokens = b.capacityTokens
  tokenCount : b'.tokenCount = max b.tokenCount (j + 1)
  keys : b'.storage.val.keys = splice b.storage.val.keys (j * b.vectorLen) r.1
  values : b'.storage.val.values = splice b.storage.val.values (j * b.vectorLen) r.2
  key_length : r.1.length = b.vectorLen
  value_length : r.2.length = b.vectorLen

namespace CacheBlock

variable {b b' : CacheBlock} {j : ℕ} {r : Row}

/-- Reading the rows of a block after a write. -/
theorem Written.key (h : Written b b' j r) (hl : b.storage.val.keys.length = b.capacityTokens * b.vectorLen)
    (hj : j < b.capacityTokens) (hjt : j ≤ b.tokenCount) (i : ℕ) :
    b'.key i = if i = j then some r.1 else b.key i := by
  simp only [CacheBlock.key, tokenSlice, h.tokenCount, h.vectorLen, h.keys]
  by_cases hij : i = j
  · subst hij
    rw [if_pos rfl, if_neg (by omega), row_splice_self hl hj h.key_length]
  · rw [if_neg hij, row_splice_ne hl hj h.key_length hij]
    by_cases hi : i < b.tokenCount
    · rw [if_neg (by omega), if_neg (by omega)]
    · rw [if_pos (by omega), if_pos (by omega)]

theorem Written.value (h : Written b b' j r)
    (hl : b.storage.val.values.length = b.capacityTokens * b.vectorLen)
    (hj : j < b.capacityTokens) (hjt : j ≤ b.tokenCount) (i : ℕ) :
    b'.value i = if i = j then some r.2 else b.value i := by
  simp only [CacheBlock.value, tokenSlice, h.tokenCount, h.vectorLen, h.values]
  by_cases hij : i = j
  · subst hij
    rw [if_pos rfl, if_neg (by omega), row_splice_self hl hj h.value_length]
  · rw [if_neg hij, row_splice_ne hl hj h.value_length hij]
    by_cases hi : i < b.tokenCount
    · rw [if_neg (by omega), if_neg (by omega)]
    · rw [if_pos (by omega), if_pos (by omega)]

/-- Writing a finite row into a buffer whose rows in use are finite. -/
theorem allFinite_take_splice {l src : List F32} {v tc j : ℕ} (hf : AllFinite (l.take (tc * v)))
    (hs : AllFinite src) (hsl : src.length = v) (hj : j ≤ tc) (hle : (j + 1) * v ≤ l.length) :
    AllFinite ((splice l (j * v) src).take (max tc (j + 1) * v)) := by
  intro x hx
  rw [Nat.add_one_mul] at hle
  obtain ⟨i, hi⟩ := List.mem_iff_getElem?.mp hx
  rw [List.getElem?_take] at hi
  split at hi
  · rename_i hlt
    rw [getElem?_splice (by omega)] at hi
    split at hi
    · exact hs x (List.mem_of_getElem? hi)
    · rename_i hnot
      refine hf x (List.mem_iff_getElem?.mpr ⟨i, ?_⟩)
      rw [List.getElem?_take, if_pos, hi]
      rcases Nat.lt_or_ge tc (j + 1) with h1 | h1
      · have hm : max tc (j + 1) * v = j * v + v := by
          rw [Nat.max_eq_right (by omega), Nat.add_one_mul]
        have : tc = j := by omega
        rw [this]
        omega
      · rwa [Nat.max_eq_left (by omega)] at hlt
  · cases hi

theorem append_written {shares : Shares} {rt rt' : Statics} {i : ℕ} {key value : List F32}
    (h : b.append shares key value rt = .ok (i, b', rt')) :
    i = b.tokenCount ∧ Written b b' i (key, value) ∧ b'.id = b.id ∧ b'.shared = b.shared ∧
      b'.revision = satAdd b.revision 1 ∧ rt'.nextBlockId = rt.nextBlockId := by
  obtain ⟨hk, hv, -, rfl, storage, hs, rfl⟩ := append_ok h
  have hval := Arc.makeMut_val shares b.storage
    (·.copyRows (b.tokenCount * b.vectorLen) key value) rt
  have hnext := Arc.makeMut_nextBlockId shares b.storage
    (·.copyRows (b.tokenCount * b.vectorLen) key value) rt
  rw [hs] at hval hnext
  refine ⟨rfl, ⟨rfl, rfl, ?_, ?_, ?_, hk, hv⟩, rfl, rfl, rfl, hnext⟩
  · change b.tokenCount + 1 = _
    omega
  · change storage.val.keys = _
    rw [hval]
    rfl
  · change storage.val.values = _
    rw [hval]
    rfl

theorem writeAt_written {shares : Shares} {rt rt' : Statics} {i : ℕ} {key value : List F32}
    (h : b.writeAt shares i key value rt = .ok (b', rt')) :
    i < b.tokenCount ∧ Written b b' i (key, value) ∧ b'.id = b.id ∧ b'.shared = b.shared ∧
      b'.revision = satAdd b.revision 1 ∧ rt'.nextBlockId = rt.nextBlockId := by
  simp only [writeAt, bind_eq_ok, validateTokenShape_ok, throw_bind, guard_eq_ok, pure_eq_ok,
    Prod.mk.injEq] at h
  obtain ⟨-, ⟨hk, hv⟩, hlt, rfl, rfl⟩ := h
  refine ⟨by omega, ⟨rfl, rfl, ?_, ?_, ?_, hk, hv⟩, rfl, rfl, rfl, Arc.makeMut_nextBlockId _ _ _ _⟩
  · change b.tokenCount = max b.tokenCount (i + 1)
    omega
  · simp [CacheBlockStorage.copyRows]
  · simp [CacheBlockStorage.copyRows]

end CacheBlock

namespace LayerKvCache

open LayerM

/-- The row in slot `p`, as the blocks have it. -/
def slotRow (c : LayerKvCache) (p : ℕ) : Option Row := do
  let b ← c.blocks[p / layerKvBlockTokens]?
  pure (← b.key (p % layerKvBlockTokens), ← b.value (p % layerKvBlockTokens))

/-- What block number `i` of a cache has to be. -/
structure BlockShape (c : LayerKvCache) (i : ℕ) (b : CacheBlock) : Prop where
  id : b.id ≠ 0
  vectorLen : b.vectorLen = c.vectorLen
  capacityTokens : b.capacityTokens = min layerKvBlockTokens (c.maxTokens - layerKvBlockTokens * i)
  tokenCount : b.tokenCount = min b.capacityTokens (c.tokenCount - layerKvBlockTokens * i)
  keys_length : b.storage.val.keys.length = b.capacityTokens * b.vectorLen
  values_length : b.storage.val.values.length = b.capacityTokens * b.vectorLen

/-- How a cache is laid out, whatever its rows are. -/
structure Layout (c : LayerKvCache) : Prop where
  max_pos : 0 < c.maxTokens
  vec_pos : 0 < c.vectorLen
  stage_le : c.maxTokens * c.vectorLen ≤ vecF32Max
  count_le : c.tokenCount ≤ c.maxTokens
  start_lt : c.windowStart < c.maxTokens
  start_zero : c.tokenCount < c.maxTokens → c.windowStart = 0
  table : c.blockTable.blocks = c.blocks.map (·.id)
  blocks_length : c.blocks.length = blockCount c.maxTokens
  block : ∀ i b, c.blocks[i]? = some b → c.BlockShape i b
  keyStage_length : c.keyStage.length = c.maxTokens * c.vectorLen
  valueStage_length : c.valueStage.length = c.maxTokens * c.vectorLen
  runs : RunsCover c.activeBlockRuns (c.blocks.map (·.id)) c.maxTokens c.tokenCount c.windowStart

/-- The values kept beside the rows are quantized copies of them. -/
structure Compressed (K : QuantKernels) (c : LayerKvCache) : Prop where
  int8_iff : c.int8Storage.isSome ↔ c.config.format = .int8
  vq_iff : c.quantizedValues.isSome ↔ c.config.asymmetricVq.isSome
  finite : c.int8Storage.isSome ∨ c.quantizedValues.isSome →
    ∀ b ∈ c.blocks, AllFinite b.keys ∧ AllFinite b.values
  int8 : ∀ s, c.int8Storage = some s → s.vectorLen = c.vectorLen ∧
    s.blocks = c.blocks.map fun b =>
      if b.tokenCount = 0 then none else some (int8BlockOf K b.keys b.values c.vectorLen)
  vq : ∀ s, c.quantizedValues = some s → s.vectorLen = c.vectorLen ∧
    s.blocks.length = c.blocks.length

structure Window (K : QuantKernels) (c : LayerKvCache) (W : List Row) : Prop
    extends Layout c, Compressed K c where
  length : W.length = c.tokenCount
  slots : ∀ i, i < c.tokenCount → c.slotRow (ringSlot c.windowStart i c.maxTokens) = W[i]?
  stage : ∀ i r, W[i]? = some r →
    row c.keyStage c.vectorLen (ringSlot c.windowStart i c.maxTokens) = r.1 ∧
      row c.valueStage c.vectorLen (ringSlot c.windowStart i c.maxTokens) = r.2
  keyView : ∀ v, c.keyContiguousView = some v → v = W.flatMap (·.1)
  valueView : ∀ v, c.valueContiguousView = some v → v = W.flatMap (·.2)

variable {K : QuantKernels} {shares : Shares} {c : LayerKvCache} {W : List Row} {s : LayerState}

/-! ### Blocks of slots -/

theorem Layout.block_of_slot (h : Layout c) {p : ℕ} (hp : p < c.maxTokens) :
    ∃ b, c.blocks[p / layerKvBlockTokens]? = some b ∧ c.BlockShape (p / layerKvBlockTokens) b ∧
      p % layerKvBlockTokens < b.capacityTokens := by
  have hlt : p / layerKvBlockTokens < c.blocks.length := by
    rw [h.blocks_length]
    unfold blockCount layerKvBlockTokens
    omega
  refine ⟨_, List.getElem?_eq_getElem hlt, h.block _ _ (List.getElem?_eq_getElem hlt), ?_⟩
  rw [(h.block _ _ (List.getElem?_eq_getElem hlt)).capacityTokens]
  unfold layerKvBlockTokens
  omega

theorem Layout.listedBlock (h : Layout c) {i : ℕ} {b : CacheBlock} (hb : c.blocks[i]? = some b) :
    c.listedBlock i = some b := by
  have : c.blockTable.get i = some b.id := by
    rw [BlockTable.get, h.table, List.getElem?_map, hb]
    rfl
  simp [LayerKvCache.listedBlock, this, hb]

/-- The identity of a block after a write: its own, when nobody shared it, else
a fresh one; the revision goes up. -/
structure Rewritten (shares : Shares) (b : CacheBlock) (rt : Statics) (b' : CacheBlock)
    (rt' : Statics) : Prop where
  revision : b'.revision = satAdd b.revision 1
  unshared : b'.shared = false
  identity : (b.shared = false ∧ b.storage.strongCount shares ≤ 1 ∧ b'.id = b.id ∧
      rt'.nextBlockId = rt.nextBlockId) ∨
    (b'.id = rt.nextBlockId ∧ rt'.nextBlockId = rt.nextBlockId + 1)

/-- A block of the cache needs an identity of its own, and no block id is left. -/
def OutOfIds (shares : Shares) (s : LayerState) : Prop :=
  wordMax ≤ s.rt.nextBlockId ∧
    ∃ b ∈ s.cache.blocks, b.shared = true ∨ b.storage.strongCount shares > 1

theorem ensureExclusiveIdentity_error {b : CacheBlock} {e : KvCacheError} (hb : b ∈ s.cache.blocks)
    (h : b.ensureExclusiveIdentity shares s.rt = .error e) : OutOfIds shares s := by
  unfold CacheBlock.ensureExclusiveIdentity at h
  split at h
  · next hshared =>
    refine ⟨?_, b, hb, hshared⟩
    unfold BlockId.next at h
    cases hn : checkedAdd s.rt.nextBlockId 1 with
    | some n => simp [hn, pure, Except.pure] at h
    | none =>
      by_contra hlt
      rw [checkedAdd_of_le (by omega)] at hn
      cases hn
  · cases h

theorem ensureExclusiveIdentity_ok {b b' : CacheBlock} {rt rt' : Statics}
    (h : b.ensureExclusiveIdentity shares rt = .ok (b', rt')) :
    b' = { b with id := b'.id, shared := b'.shared } ∧ (b.id ≠ 0 → b'.id ≠ 0) ∧
      b'.shared = false ∧
      ((b.shared = false ∧ b.storage.strongCount shares ≤ 1 ∧ b'.id = b.id ∧
          rt'.nextBlockId = rt.nextBlockId) ∨
        (b'.id = rt.nextBlockId ∧ rt'.nextBlockId = rt.nextBlockId + 1)) := by
  unfold CacheBlock.ensureExclusiveIdentity at h
  split at h
  · simp only [bind_eq_ok, pure_eq_ok, Prod.mk.injEq] at h
    obtain ⟨⟨id, rt₁⟩, hn, rfl, rfl⟩ := h
    obtain ⟨rfl, hnext, -⟩ := BlockId.next_ok hn
    exact ⟨rfl, fun _ => Nat.pos_iff_ne_zero.mp rt.nextBlockId_pos, rfl, .inr ⟨rfl, hnext⟩⟩
  · rename_i hc
    rw [not_or] at hc
    simp only [pure_eq_ok, Prod.mk.injEq] at h
    obtain ⟨rfl, rfl⟩ := h
    have hsh : b.shared = false := by simpa using hc.1
    exact ⟨rfl, fun h => h, hsh, .inl ⟨hsh, by omega, rfl, rfl⟩⟩

/-- The cache with block `i` replaced, and the table and the runs told. -/
def withBlock (c : LayerKvCache) (i : ℕ) (b : CacheBlock) : LayerKvCache :=
  { c with
    blocks := c.blocks.set i b
    blockTable := ⟨(c.blocks.set i b).map (·.id)⟩
    activeBlockRuns := refreshActiveBlockRunIds i b.id c.activeBlockRuns }

variable (shares) in
/-- Getting a block ready for a write fails before anything changes, or gives
the block an identity that nobody else writes under. -/
theorem writableBlock_spec (h : Layout s.cache) {p : ℕ} (hp : p < s.cache.maxTokens) {b : CacheBlock}
    (hb : s.cache.blocks[p / layerKvBlockTokens]? = some b) :
    (∃ e, b.ensureExclusiveIdentity shares s.rt = .error e ∧
      writableBlock shares p s = .error e s) ∨
    ∃ b₁ rt₁, b.ensureExclusiveIdentity shares s.rt = .ok (b₁, rt₁) ∧
      writableBlock shares p s = .ok (p / layerKvBlockTokens, p % layerKvBlockTokens)
        ⟨s.cache.withBlock (p / layerKvBlockTokens) b₁, rt₁⟩ := by
  have hpos : s.cache.physicalBlockPosition p =
      some (p / layerKvBlockTokens, p % layerKvBlockTokens) := by
    rw [physicalBlockPosition, if_neg (by omega)]
  cases he : b.ensureExclusiveIdentity shares s.rt with
  | error e => exact .inl ⟨e, rfl, by simp [writableBlock, hpos, h.listedBlock hb, he]⟩
  | ok q =>
    obtain ⟨b₁, rt₁⟩ := q
    refine .inr ⟨b₁, rt₁, rfl, ?_⟩
    obtain ⟨hb₁, hid, -⟩ := ensureExclusiveIdentity_ok he
    have hidb : (s.cache.blocks.map (·.id))[p / layerKvBlockTokens]? = some b.id := by
      rw [List.getElem?_map, hb]
      rfl
    have hmap : (s.cache.blocks.set (p / layerKvBlockTokens) b₁).map (·.id) =
        (s.cache.blocks.map (·.id)).set (p / layerKvBlockTokens) b₁.id := List.map_set
    by_cases hne : b₁.id = b.id
    · have htab : (⟨(s.cache.blocks.map (·.id)).set (p / layerKvBlockTokens) b.id⟩ : BlockTable) =
          s.cache.blockTable := by
        have : s.cache.blockTable = ⟨s.cache.blockTable.blocks⟩ := rfl
        rw [this, h.table, list_set_self hidb]
      simp [writableBlock, hpos, h.listedBlock hb, he, hne, withBlock, hmap, htab,
        h.runs.refresh_same hidb]
    · have hinv : BlockId.isInvalid b₁.id = false := by
        simpa [BlockId.isInvalid] using hid (h.block _ _ hb).id
      have hrep : s.cache.blockTable.replace (p / layerKvBlockTokens) b₁.id =
          .ok (b.id, ⟨(s.cache.blocks.map (·.id)).set (p / layerKvBlockTokens) b₁.id⟩) := by
        simp [BlockTable.replace, hinv, h.table, hb]
      simp [writableBlock, hpos, h.listedBlock hb, he, hne, withBlock, hmap, hrep]

/-! ### The compressed copies follow -/

/-- The quantized copy of whole value rows. -/
def vqBlockOf (K : QuantKernels) (bits : KvCacheValueQuantizationBits) (values : List F32) (v : ℕ) :
    Option QuantizedValueBlock := (QuantizedValueBlock.quantize K bits values v).toOption

/-- The cache with the compressed copies of block `i` made again from `b`. -/
def withCopies (K : QuantKernels) (c : LayerKvCache) (i : ℕ) (b : CacheBlock) : LayerKvCache :=
  { c with
    int8Storage := c.int8Storage.map fun s =>
      { s with blocks := s.blocks.set i (some (int8BlockOf K b.keys b.values c.vectorLen)) }
    quantizedValues := c.quantizedValues.map fun s =>
      { s with blocks := s.blocks.set i (vqBlockOf K s.config.valueBits b.values c.vectorLen) } }

/-- What the copies of a block need: whole rows, finite where there is a copy,
and room for a copy. -/
structure Copyable (c : LayerKvCache) (i : ℕ) (b : CacheBlock) : Prop where
  block : c.blocks[i]? = some b
  count_pos : 0 < b.tokenCount
  vec_pos : 0 < c.vectorLen
  keys : b.keys.length = b.tokenCount * c.vectorLen
  values : b.values.length = b.tokenCount * c.vectorLen
  payload : b.values.length * 8 + 7 ≤ wordMax
  finite : c.int8Storage.isSome ∨ c.quantizedValues.isSome → AllFinite b.keys ∧ AllFinite b.values
  int8 : ∀ s, c.int8Storage = some s → s.vectorLen = c.vectorLen ∧ i < s.blocks.length
  vq : ∀ s, c.quantizedValues = some s → s.vectorLen = c.vectorLen ∧ i < s.blocks.length

theorem refreshInt8Block_spec {i : ℕ} {b : CacheBlock} (h : Copyable s.cache i b) :
    refreshInt8Block K i s = .ok () { s with cache := { s.cache with
      int8Storage := s.cache.int8Storage.map fun st => { st with
        blocks := st.blocks.set i (some (int8BlockOf K b.keys b.values s.cache.vectorLen)) } } } := by
  cases hs : s.cache.int8Storage with
  | none =>
    have : s = { s with cache := { s.cache with int8Storage := none } } := by rw [← hs]
    simp [refreshInt8Block, hs, ← this]
  | some st =>
    obtain ⟨hv, hi⟩ := h.int8 st hs
    obtain ⟨hk, hval⟩ := h.finite (.inl (by rw [hs]; rfl))
    have hpos := Nat.mul_pos h.count_pos h.vec_pos
    have hup := LayerInt8KvStore.updateBlock_ok (K := K) hi (hv ▸ h.vec_pos)
      (List.ne_nil_of_length_pos (h.keys ▸ hpos)) (h.keys.trans h.values.symm)
      (by rw [h.keys, hv, Nat.mul_mod_left]) hk hval
    rw [hv] at hup
    simp [refreshInt8Block, hs, h.block, Nat.ne_of_gt h.count_pos, hup, hv]

theorem refreshQuantizedBlock_spec {i : ℕ} {b : CacheBlock} (h : Copyable s.cache i b) :
    refreshQuantizedBlock K i s = .ok () { s with cache := { s.cache with
      quantizedValues := s.cache.quantizedValues.map fun st => { st with
        blocks := st.blocks.set i
          (vqBlockOf K st.config.valueBits b.values s.cache.vectorLen) } } } := by
  cases hs : s.cache.quantizedValues with
  | none =>
    have : s = { s with cache := { s.cache with quantizedValues := none } } := by rw [← hs]
    simp [refreshQuantizedBlock, hs, ← this]
  | some st =>
    obtain ⟨hv, hi⟩ := h.vq st hs
    obtain ⟨-, hval⟩ := h.finite (.inr (by rw [hs]; rfl))
    have hpos := Nat.mul_pos h.count_pos h.vec_pos
    obtain ⟨vb, hq, hup⟩ := LayerQuantizedValueStore.updateBlock_ok (K := K) (s := st) hi
      (hv ▸ h.vec_pos) (List.ne_nil_of_length_pos (h.values ▸ hpos))
      (by rw [h.values, hv, Nat.mul_mod_left]) hval h.payload
    rw [hv] at hq
    simp [refreshQuantizedBlock, hs, h.block, Nat.ne_of_gt h.count_pos, hup, vqBlockOf, hq,
      Except.toOption]

/-- After a write both copies are made again. -/
theorem refreshCopies_spec {i : ℕ} {b : CacheBlock} (h : Copyable s.cache i b) :
    (do refreshInt8Block K i; refreshQuantizedBlock K i : LayerM Unit) s =
      .ok () ⟨s.cache.withCopies K i b, s.rt⟩ := by
  have h' : Copyable { s.cache with
      int8Storage := s.cache.int8Storage.map fun st => { st with
        blocks := st.blocks.set i (some (int8BlockOf K b.keys b.values s.cache.vectorLen)) } } i b :=
    ⟨h.block, h.count_pos, h.vec_pos, h.keys, h.values, h.payload,
      fun hor => h.finite (hor.imp_left (by simp)), fun st hst => by
        obtain ⟨st₀, hst₀, rfl⟩ := Option.map_eq_some_iff.mp hst
        obtain ⟨hv, hi⟩ := h.int8 st₀ hst₀
        exact ⟨hv, by simpa using hi⟩, h.vq⟩
  rw [bind_apply, refreshInt8Block_spec h]
  exact refreshQuantizedBlock_spec (s := ⟨_, s.rt⟩) h'

/-! ### Writing a row into its block -/

/-- A row the cache accepts: of its width, and finite where it keeps copies. -/
structure Acceptable (c : LayerKvCache) (r : Row) : Prop where
  key : r.1.length = c.vectorLen
  value : r.2.length = c.vectorLen
  finite : c.int8Storage.isSome ∨ c.quantizedValues.isSome → AllFinite r.1 ∧ AllFinite r.2

/-- A written block can be copied. -/
theorem Copyable.of_written (hl : Layout c) (hc : Compressed K c) {i j : ℕ} {b b' : CacheBlock}
    {r : Row} (hb : c.blocks[i]? = some b) (hw : CacheBlock.Written b b' j r)
    (hr : Acceptable c r) (hj : j < b.capacityTokens) (hjt : j ≤ b.tokenCount) :
    Copyable (c.withBlock i b') i b' := by
  have hs := hl.block i b hb
  have hlt : i < c.blocks.length := (List.getElem?_eq_some_iff.mp hb).1
  have htc : b'.tokenCount ≤ b.capacityTokens := by
    rw [hw.tokenCount]
    have := hs.tokenCount
    omega
  have hcap : b.capacityTokens * b.vectorLen ≤ vecF32Max := by
    rw [hs.vectorLen]
    refine le_trans (Nat.mul_le_mul_right _ ?_) hl.stage_le
    have := hs.capacityTokens
    omega
  have hrow : (j + 1) * b.vectorLen ≤ b.capacityTokens * b.vectorLen := Nat.mul_le_mul_right _ hj
  have hused : b'.usedLen ≤ b.capacityTokens * b.vectorLen := by
    rw [CacheBlock.usedLen, hw.vectorLen]
    exact Nat.mul_le_mul_right _ htc
  have hsp : j * b.vectorLen + b.vectorLen ≤ b.capacityTokens * b.vectorLen := by
    rw [← Nat.add_one_mul]
    exact hrow
  have hkl : b'.keys.length = b'.tokenCount * c.vectorLen := by
    rw [CacheBlock.keys, List.length_take, hw.keys, splice_length (by rw [hw.key_length, hs.keys_length]; exact hsp),
      hs.keys_length, Nat.min_eq_left hused, CacheBlock.usedLen, hw.vectorLen, hs.vectorLen]
  have hvl : b'.values.length = b'.tokenCount * c.vectorLen := by
    rw [CacheBlock.values, List.length_take, hw.values,
      splice_length (by rw [hw.value_length, hs.values_length]; exact hsp),
      hs.values_length, Nat.min_eq_left hused, CacheBlock.usedLen, hw.vectorLen, hs.vectorLen]
  refine ⟨List.getElem?_set_self hlt, ?_, hl.vec_pos, hkl, hvl, ?_, fun hor => ?_, fun s hst => ?_,
    fun s hst => ?_⟩
  · rw [hw.tokenCount]
    omega
  · have : b'.values.length ≤ vecF32Max := by
      rw [hvl, ← hs.vectorLen]
      exact le_trans (Nat.mul_le_mul_right _ htc) hcap
    have hmax : vecF32Max * 8 + 7 ≤ wordMax := by decide
    omega
  · obtain ⟨hk, hv⟩ := hr.finite hor
    obtain ⟨hbk, hbv⟩ := hc.finite hor b (List.mem_of_getElem? hb)
    constructor
    · rw [CacheBlock.keys, CacheBlock.usedLen, hw.keys, hw.tokenCount, hw.vectorLen]
      exact CacheBlock.allFinite_take_splice hbk hk hw.key_length hjt (by rw [hs.keys_length]; exact hrow)
    · rw [CacheBlock.values, CacheBlock.usedLen, hw.values, hw.tokenCount, hw.vectorLen]
      exact CacheBlock.allFinite_take_splice hbv hv hw.value_length hjt
        (by rw [hs.values_length]; exact hrow)
  · obtain ⟨hv, hsb⟩ := hc.int8 s hst
    exact ⟨hv, by rw [hsb, List.length_map]; exact hlt⟩
  · obtain ⟨hv, hsb⟩ := hc.vq s hst
    exact ⟨hv, by rw [hsb]; exact hlt⟩

/-- The cache with row `r` written into its block, as `b`, and copied. -/
def withRow (K : QuantKernels) (c : LayerKvCache) (i : ℕ) (b : CacheBlock) : LayerKvCache :=
  (c.withBlock i b).withCopies K i b

/-- Two writes of a block that keep its id are the last one. -/
theorem withBlock_set {i : ℕ} {b₁ b₂ : CacheBlock} (hid : b₂.id = b₁.id) :
    { c.withBlock i b₁ with blocks := (c.withBlock i b₁).blocks.set i b₂ } = c.withBlock i b₂ := by
  have hmap : (c.blocks.set i b₁).map (·.id) = (c.blocks.set i b₂).map (·.id) := by
    rw [List.map_set, List.map_set, hid]
  simp only [withBlock, List.set_set, hmap, hid]

/-- Both block writes, once the block is writable: the copies are made and the
rest is untouched. -/
theorem refreshCopies_withBlock (rt : Statics) (hl : Layout c) (hc : Compressed K c) {i j : ℕ}
    {b b₁ b₂ : CacheBlock} {r : Row} (hb : c.blocks[i]? = some b)
    (hw : CacheBlock.Written b b₂ j r) (hid : b₂.id = b₁.id) (hr : Acceptable c r)
    (hj : j < b.capacityTokens) (hjt : j ≤ b.tokenCount) :
    (do refreshInt8Block K i; refreshQuantizedBlock K i : LayerM Unit)
      ⟨{ c.withBlock i b₁ with blocks := (c.withBlock i b₁).blocks.set i b₂ }, rt⟩ =
      .ok () ⟨c.withRow K i b₂, rt⟩ := by
  rw [withBlock_set hid]
  exact refreshCopies_spec (s := ⟨_, rt⟩) (Copyable.of_written hl hc hb hw hr hj hjt)

/-- A block under a new identity is written as the block it was. -/
theorem written_of_identity {b b₁ b₂ : CacheBlock} {j : ℕ} {r : Row}
    (hb₁ : b₁ = { b with id := b₁.id, shared := b₁.shared }) (hw : CacheBlock.Written b₁ b₂ j r) :
    CacheBlock.Written b b₂ j r := by
  rw [hb₁] at hw
  exact ⟨hw.vectorLen, hw.capacityTokens, hw.tokenCount, hw.keys, hw.values, hw.key_length,
    hw.value_length⟩

variable (shares) in
/-- `append_block_token` at the end of the window: it fails before anything
changes, or writes the row into the block of its slot. -/
theorem appendBlockToken_spec (hl : Layout s.cache) (hc : Compressed K s.cache) {r : Row}
    (hr : Acceptable s.cache r) (hn : s.cache.tokenCount < s.cache.maxTokens) :
    (∃ e, appendBlockToken K shares s.cache.tokenCount r.1 r.2 s = .error e s ∧ OutOfIds shares s) ∨
    ∃ b b' rt', s.cache.blocks[s.cache.tokenCount / layerKvBlockTokens]? = some b ∧
      CacheBlock.Written b b' (s.cache.tokenCount % layerKvBlockTokens) r ∧ b'.id ≠ 0 ∧
      Rewritten shares b s.rt b' rt' ∧
      appendBlockToken K shares s.cache.tokenCount r.1 r.2 s =
        .ok () ⟨s.cache.withRow K (s.cache.tokenCount / layerKvBlockTokens) b', rt'⟩ := by
  obtain ⟨b, hb, hs, hlt⟩ := hl.block_of_slot hn
  have htc : b.tokenCount = s.cache.tokenCount % layerKvBlockTokens := by
    have h1 := hs.tokenCount
    have h2 := hs.capacityTokens
    unfold layerKvBlockTokens at *
    omega
  rcases writableBlock_spec shares hl hn hb with ⟨e, hno, he⟩ | ⟨b₁, rt₁, hok, he⟩
  · exact .inl ⟨e, by simp [appendBlockToken, he],
      ensureExclusiveIdentity_error (List.mem_of_getElem? hb) hno⟩
  · obtain ⟨hb₁, hid, hun, hident⟩ := ensureExclusiveIdentity_ok hok
    have hget : (s.cache.withBlock (s.cache.tokenCount / layerKvBlockTokens) b₁).blocks[
        s.cache.tokenCount / layerKvBlockTokens]? = some b₁ :=
      List.getElem?_set_self (List.getElem?_eq_some_iff.mp hb).1
    have hv₁ : b₁.vectorLen = s.cache.vectorLen := by rw [hb₁]; exact hs.vectorLen
    have hroom : b₁.tokenCount ≠ b₁.capacityTokens := by
      rw [hb₁]
      change b.tokenCount ≠ b.capacityTokens
      omega
    obtain ⟨⟨k, b₂, rt₂⟩, ha⟩ := CacheBlock.append_succeeds shares rt₁
      (hr.key.trans hv₁.symm) (hr.value.trans hv₁.symm) hroom
    obtain ⟨hk, hw, hid₂, hsh₂, hrev₂, hrt₂⟩ := CacheBlock.append_written ha
    have hrew : Rewritten shares b s.rt b₂ rt₂ := ⟨by rw [hrev₂, hb₁], hsh₂.trans hun,
      hid₂ ▸ hrt₂ ▸ hident⟩
    have hk' : k = s.cache.tokenCount % layerKvBlockTokens := by
      rw [hk, hb₁]
      exact htc
    subst hk'
    have hwb := written_of_identity hb₁ hw
    refine .inr ⟨b, b₂, rt₂, hb, hwb, hid₂ ▸ hid hs.id, hrew, ?_⟩
    have hcopy := refreshCopies_withBlock rt₂ hl hc hb hwb hid₂ hr hlt (le_of_eq htc.symm)
    rw [bind_apply] at hcopy
    simp only [appendBlockToken, bind_apply, he, getCache_apply, hget, okOr_some, get_apply, ha,
      ofResult_ok, set_apply, ne_eq, not_true_eq_false, ↓reduceIte]
    exact hcopy

variable (shares) in
/-- `write_block_token` on a slot in use. -/
theorem writeBlockToken_spec (hl : Layout s.cache) (hc : Compressed K s.cache) {r : Row} {p : ℕ}
    (hr : Acceptable s.cache r) (hp : p < s.cache.maxTokens)
    (hfull : s.cache.tokenCount = s.cache.maxTokens) :
    (∃ e, writeBlockToken K shares p r.1 r.2 s = .error e s ∧ OutOfIds shares s) ∨
    ∃ b b' rt', s.cache.blocks[p / layerKvBlockTokens]? = some b ∧
      CacheBlock.Written b b' (p % layerKvBlockTokens) r ∧ b'.id ≠ 0 ∧
      Rewritten shares b s.rt b' rt' ∧
      writeBlockToken K shares p r.1 r.2 s =
        .ok () ⟨s.cache.withRow K (p / layerKvBlockTokens) b', rt'⟩ := by
  obtain ⟨b, hb, hs, hlt⟩ := hl.block_of_slot hp
  have htc : p % layerKvBlockTokens < b.tokenCount := by
    have h1 := hs.tokenCount
    have h2 := hs.capacityTokens
    unfold layerKvBlockTokens at *
    omega
  rcases writableBlock_spec shares hl hp hb with ⟨e, hno, he⟩ | ⟨b₁, rt₁, hok, he⟩
  · exact .inl ⟨e, by simp [writeBlockToken, he],
      ensureExclusiveIdentity_error (List.mem_of_getElem? hb) hno⟩
  · obtain ⟨hb₁, hid, hun, hident⟩ := ensureExclusiveIdentity_ok hok
    have hget : (s.cache.withBlock (p / layerKvBlockTokens) b₁).blocks[p / layerKvBlockTokens]? =
        some b₁ := List.getElem?_set_self (List.getElem?_eq_some_iff.mp hb).1
    have hv₁ : b₁.vectorLen = s.cache.vectorLen := by rw [hb₁]; exact hs.vectorLen
    have htc₁ : p % layerKvBlockTokens < b₁.tokenCount := by rw [hb₁]; exact htc
    obtain ⟨⟨b₂, rt₂⟩, ha⟩ := CacheBlock.writeAt_succeeds shares rt₁
      (hr.key.trans hv₁.symm) (hr.value.trans hv₁.symm) htc₁
    obtain ⟨-, hw, hid₂, hsh₂, hrev₂, hrt₂⟩ := CacheBlock.writeAt_written ha
    have hrew : Rewritten shares b s.rt b₂ rt₂ := ⟨by rw [hrev₂, hb₁], hsh₂.trans hun,
      hid₂ ▸ hrt₂ ▸ hident⟩
    have hwb := written_of_identity hb₁ hw
    refine .inr ⟨b, b₂, rt₂, hb, hwb, hid₂ ▸ hid hs.id, hrew, ?_⟩
    have hcopy := refreshCopies_withBlock rt₂ hl hc hb hwb hid₂ hr hlt (le_of_lt htc)
    rw [bind_apply] at hcopy
    simp only [writeBlockToken, bind_apply, he, getCache_apply, hget, okOr_some, get_apply, ha,
      ofResult_ok, set_apply]
    exact hcopy

/-! ### The staged ring and the runs -/

/-- The cache with row `r` in slot `p` of the rings, and the views dropped. -/
def withStageRow (c : LayerKvCache) (p : ℕ) (r : Row) : LayerKvCache :=
  { c with
    keyStage := splice c.keyStage (p * c.vectorLen) r.1
    valueStage := splice c.valueStage (p * c.vectorLen) r.2
    keyContiguousView := none, valueContiguousView := none }

theorem copyStageToken_spec {r : Row} {p : ℕ} (hk : r.1.length = s.cache.vectorLen)
    (hv : r.2.length = s.cache.vectorLen) (hp : p < s.cache.maxTokens)
    (hkl : s.cache.keyStage.length = s.cache.maxTokens * s.cache.vectorLen)
    (hvl : s.cache.valueStage.length = s.cache.maxTokens * s.cache.vectorLen)
    (hmax : s.cache.maxTokens * s.cache.vectorLen ≤ vecF32Max) :
    copyStageToken p r.1 r.2 s = .ok () ⟨{ s.cache with
      keyStage := splice s.cache.keyStage (p * s.cache.vectorLen) r.1
      valueStage := splice s.cache.valueStage (p * s.cache.vectorLen) r.2 }, s.rt⟩ := by
  have hend : p * s.cache.vectorLen + s.cache.vectorLen ≤ s.cache.maxTokens * s.cache.vectorLen :=
    row_end_le hp
  have hw : vecF32Max ≤ wordMax := by decide
  have h1 : checkedMul p s.cache.vectorLen = some (p * s.cache.vectorLen) :=
    checkedMul_of_le (by omega)
  have h2 : checkedAdd (p * s.cache.vectorLen) s.cache.vectorLen =
      some (p * s.cache.vectorLen + s.cache.vectorLen) := checkedAdd_of_le (by omega)
  have h3 : ¬ (p * s.cache.vectorLen + s.cache.vectorLen > s.cache.keyStage.length) := by omega
  have h4 : ¬ (p * s.cache.vectorLen + s.cache.vectorLen > s.cache.valueStage.length) := by omega
  simp only [copyStageToken, bind_apply, getCache_apply, hk, hv, ne_eq, not_true_eq_false,
    ↓reduceIte, h1, h2, okOr_some, h3, h4, modifyCache_apply]

theorem writeStageToken_spec {r : Row} {p : ℕ} (hk : r.1.length = s.cache.vectorLen)
    (hv : r.2.length = s.cache.vectorLen) (hp : p < s.cache.maxTokens)
    (hkl : s.cache.keyStage.length = s.cache.maxTokens * s.cache.vectorLen)
    (hvl : s.cache.valueStage.length = s.cache.maxTokens * s.cache.vectorLen)
    (hmax : s.cache.maxTokens * s.cache.vectorLen ≤ vecF32Max) :
    writeStageToken p r.1 r.2 s = .ok () ⟨s.cache.withStageRow p r, s.rt⟩ := by
  simp only [writeStageToken, bind_apply, copyStageToken_spec hk hv hp hkl hvl hmax,
    modifyCache_apply]
  rfl

theorem appendActiveBlockRun_spec {p n : ℕ} {b : CacheBlock} (hp : p < s.cache.maxTokens)
    (hb : s.cache.listedBlock (p / layerKvBlockTokens) = some b) :
    appendActiveBlockRun n p s = .ok () ⟨{ s.cache with
      activeBlockRuns := extendRuns s.cache.activeBlockRuns {
        blockIndex := p / layerKvBlockTokens, blockId := b.id, logicalTokenStart := n
        physicalTokenStart := p, blockTokenStart := p % layerKvBlockTokens
        tokenCount := 1 } }, s.rt⟩ := by
  have hpos : s.cache.physicalBlockPosition p =
      some (p / layerKvBlockTokens, p % layerKvBlockTokens) := by
    rw [physicalBlockPosition, if_neg (by omega)]
  simp [appendActiveBlockRun, hpos, hb]

/-- Dropping the oldest row works on the runs of any window with rows. -/
theorem removeOldestActiveBlockToken_spec {ids : List BlockId} {cap n start : ℕ}
    (h : RunsCover s.cache.activeBlockRuns ids cap (n + 1) start) (hcap : cap < wordMax) :
    removeOldestActiveBlockToken s = .ok () ⟨{ s.cache with
      activeBlockRuns := dropOldestRuns s.cache.activeBlockRuns }, s.rt⟩ := by
  cases hr : s.cache.activeBlockRuns with
  | nil =>
    have := congrArg List.length h.cover
    simp [hr] at this
  | cons first rest =>
    have hf := h.inside first (by rw [hr]; simp)
    have hpos := hf.pos
    have hle := hf.le_cap
    have hs := hf.start
    have hmod := Nat.mod_le first.physicalTokenStart layerKvBlockTokens
    have h1 : checkedAdd first.physicalTokenStart 1 = some (first.physicalTokenStart + 1) :=
      checkedAdd_of_le (by omega)
    have h2 : checkedAdd first.blockTokenStart 1 = some (first.blockTokenStart + 1) :=
      checkedAdd_of_le (by omega)
    by_cases hc : first.tokenCount = 1
    · simp [removeOldestActiveBlockToken, hr, hc, dropOldestRuns, shiftRun]
    · simp [removeOldestActiveBlockToken, hr, hc, dropOldestRuns, shiftRun, h1, h2]

/-! ### The window after a write -/

/-- The cache after row `r` went into slot `p`, whose block is then `b`, with
the counters and runs that the append sets. -/
def afterWrite (K : QuantKernels) (c : LayerKvCache) (p : ℕ) (b : CacheBlock) (r : Row)
    (runs : List LayerKvCacheBlockRun) (tokenCount windowStart tokensSeen revision : ℕ) :
    LayerKvCache :=
  { (c.withRow K (p / layerKvBlockTokens) b).withStageRow p r with
    activeBlockRuns := runs, tokenCount, windowStart, tokensSeen, revision }

section AfterWrite

variable {p n start seen rev : ℕ} {b b' : CacheBlock} {r : Row} {runs : List LayerKvCacheBlockRun}

/-- The slots after a write. -/
theorem afterWrite_slotRow (hl : Layout c) (hb : c.blocks[p / layerKvBlockTokens]? = some b)
    (hw : CacheBlock.Written b b' (p % layerKvBlockTokens) r)
    (hj : p % layerKvBlockTokens < b.capacityTokens) (hjt : p % layerKvBlockTokens ≤ b.tokenCount)
    (q : ℕ) : (c.afterWrite K p b' r runs n start seen rev).slotRow q =
      if q = p then some r else c.slotRow q := by
  have hs := hl.block _ _ hb
  have hlt := (List.getElem?_eq_some_iff.mp hb).1
  change (do
    let b ← (c.blocks.set (p / layerKvBlockTokens) b')[q / layerKvBlockTokens]?
    pure (← b.key (q % layerKvBlockTokens), ← b.value (q % layerKvBlockTokens))) = _
  by_cases hq : q / layerKvBlockTokens = p / layerKvBlockTokens
  · have hqp : q = p ↔ q % layerKvBlockTokens = p % layerKvBlockTokens := by
      unfold layerKvBlockTokens at *
      omega
    rw [hq, List.getElem?_set_self hlt]
    simp only [Option.bind_eq_bind, Option.bind_some, hw.key hs.keys_length hj hjt,
      hw.value hs.values_length hj hjt]
    by_cases he : q % layerKvBlockTokens = p % layerKvBlockTokens
    · rw [if_pos (hqp.mpr he), if_pos he, if_pos he]
      rfl
    · rw [if_neg (fun h => he (hqp.mp h)), if_neg he, if_neg he]
      simp only [slotRow, hq, hb, Option.bind_eq_bind, Option.bind_some]
  · rw [List.getElem?_set_ne (Ne.symm hq), if_neg (fun h => hq (by rw [h]))]
    rfl

theorem afterWrite_layout (hl : Layout c) (hb : c.blocks[p / layerKvBlockTokens]? = some b)
    (hw : CacheBlock.Written b b' (p % layerKvBlockTokens) r) (hid : b'.id ≠ 0)
    (hp : p < c.maxTokens) (hn : n ≤ c.maxTokens) (hst : start < c.maxTokens)
    (hz : n < c.maxTokens → start = 0)
    (hcount : ∀ i blk, (c.blocks.set (p / layerKvBlockTokens) b')[i]? = some blk →
      blk.tokenCount = min blk.capacityTokens (n - layerKvBlockTokens * i))
    (hruns : RunsCover runs ((c.blocks.set (p / layerKvBlockTokens) b').map (·.id)) c.maxTokens n
      start) : Layout (c.afterWrite K p b' r runs n start seen rev) := by
  have hs := hl.block _ _ hb
  have hend := row_end_le (v := c.vectorLen) hp
  have hsplice : ∀ {l src : List F32}, src.length = b.vectorLen →
      l.length = c.maxTokens * c.vectorLen → (splice l (p * c.vectorLen) src).length =
        c.maxTokens * c.vectorLen := fun hsrc hlen => by
    rw [splice_length, hlen]
    rw [hsrc, hs.vectorLen, hlen]
    exact hend
  refine ⟨hl.max_pos, hl.vec_pos, hl.stage_le, hn, hst, hz, rfl, ?_, fun i blk hblk => ?_,
    hsplice hw.key_length hl.keyStage_length, hsplice hw.value_length hl.valueStage_length, hruns⟩
  · change (c.blocks.set _ _).length = _
    rw [List.length_set]
    exact hl.blocks_length
  · have hc := hcount i blk hblk
    by_cases hi : i = p / layerKvBlockTokens
    · subst hi
      change (c.blocks.set (p / layerKvBlockTokens) b')[p / layerKvBlockTokens]? = _ at hblk
      rw [List.getElem?_set_self (List.getElem?_eq_some_iff.mp hb).1] at hblk
      cases hblk
      have hrow : p % layerKvBlockTokens * b.vectorLen + b.vectorLen ≤
          b.capacityTokens * b.vectorLen := by
        refine row_end_le ?_
        rw [hs.capacityTokens]
        unfold layerKvBlockTokens
        omega
      refine ⟨hid, hw.vectorLen.trans hs.vectorLen, hw.capacityTokens.trans hs.capacityTokens, hc,
        ?_, ?_⟩
      · rw [hw.keys, splice_length (by rw [hw.key_length, hs.keys_length]; exact hrow), hs.keys_length,
          hw.capacityTokens, hw.vectorLen]
      · rw [hw.values, splice_length (by rw [hw.value_length, hs.values_length]; exact hrow),
          hs.values_length, hw.capacityTokens, hw.vectorLen]
    · change (c.blocks.set (p / layerKvBlockTokens) b')[i]? = _ at hblk
      rw [List.getElem?_set_ne (Ne.symm hi)] at hblk
      have h0 := hl.block i blk hblk
      exact ⟨h0.id, h0.vectorLen, h0.capacityTokens, hc, h0.keys_length, h0.values_length⟩

theorem afterWrite_compressed (hl : Layout c) (hc : Compressed K c)
    (hb : c.blocks[p / layerKvBlockTokens]? = some b)
    (hw : CacheBlock.Written b b' (p % layerKvBlockTokens) r) (hr : Acceptable c r)
    (hj : p % layerKvBlockTokens < b.capacityTokens) (hjt : p % layerKvBlockTokens ≤ b.tokenCount) :
    Compressed K (c.afterWrite K p b' r runs n start seen rev) := by
  have hcopy := Copyable.of_written hl hc hb hw hr hj hjt
  have hsome : (c.afterWrite K p b' r runs n start seen rev).int8Storage.isSome ∨
      (c.afterWrite K p b' r runs n start seen rev).quantizedValues.isSome ↔
      c.int8Storage.isSome ∨ c.quantizedValues.isSome := by
    simp [afterWrite, withStageRow, withRow, withCopies, withBlock]
  refine ⟨?_, ?_, fun hor blk hblk => ?_, fun st hst => ?_, fun st hst => ?_⟩
  · refine Iff.trans ?_ hc.int8_iff
    simp [afterWrite, withStageRow, withRow, withCopies, withBlock]
  · refine Iff.trans ?_ hc.vq_iff
    simp [afterWrite, withStageRow, withRow, withCopies, withBlock]
  · rw [hsome] at hor
    change blk ∈ c.blocks.set (p / layerKvBlockTokens) b' at hblk
    rcases List.mem_or_eq_of_mem_set hblk with hm | rfl
    · exact hc.finite hor blk hm
    · exact hcopy.finite hor
  · obtain ⟨st₀, hst₀, rfl⟩ := Option.map_eq_some_iff.mp hst
    obtain ⟨hv, hsb⟩ := hc.int8 st₀ hst₀
    refine ⟨hv, ?_⟩
    change st₀.blocks.set _ _ = (c.blocks.set (p / layerKvBlockTokens) b').map _
    rw [List.map_set, hsb, if_neg (Nat.ne_of_gt hcopy.count_pos)]
    rfl
  · obtain ⟨st₀, hst₀, rfl⟩ := Option.map_eq_some_iff.mp hst
    obtain ⟨hv, hsb⟩ := hc.vq st₀ hst₀
    refine ⟨hv, ?_⟩
    change (st₀.blocks.set _ _).length = (c.blocks.set (p / layerKvBlockTokens) b').length
    rw [List.length_set, List.length_set]
    exact hsb

variable (K n start seen rev b' runs) in
/-- The rings after a write. -/
theorem afterWrite_stage (hl : Layout c) (hr : Acceptable c r) (hp : p < c.maxTokens) (q : ℕ) :
    row (c.afterWrite K p b' r runs n start seen rev).keyStage c.vectorLen q =
        (if q = p then r.1 else row c.keyStage c.vectorLen q) ∧
      row (c.afterWrite K p b' r runs n start seen rev).valueStage c.vectorLen q =
        (if q = p then r.2 else row c.valueStage c.vectorLen q) := by
  change row (splice c.keyStage (p * c.vectorLen) r.1) c.vectorLen q = _ ∧
    row (splice c.valueStage (p * c.vectorLen) r.2) c.vectorLen q = _
  by_cases hq : q = p
  · subst hq
    rw [if_pos rfl, if_pos rfl, row_splice_self hl.keyStage_length hp hr.key,
      row_splice_self hl.valueStage_length hp hr.value]
    exact ⟨rfl, rfl⟩
  · rw [if_neg hq, if_neg hq, row_splice_ne hl.keyStage_length hp hr.key hq,
      row_splice_ne hl.valueStage_length hp hr.value hq]
    exact ⟨rfl, rfl⟩

end AfterWrite

/-- Appending at the end of a window that is not full. -/
theorem Window.afterAppend (h : Window K c W) {b b' : CacheBlock} {r : Row} {seen rev : ℕ}
    (hn : c.tokenCount < c.maxTokens)
    (hb : c.blocks[c.tokenCount / layerKvBlockTokens]? = some b)
    (hw : CacheBlock.Written b b' (c.tokenCount % layerKvBlockTokens) r) (hid : b'.id ≠ 0)
    (hr : Acceptable c r) :
    Window K (c.afterWrite K c.tokenCount b' r
      (extendRuns (refreshActiveBlockRunIds (c.tokenCount / layerKvBlockTokens) b'.id
        c.activeBlockRuns) {
          blockIndex := c.tokenCount / layerKvBlockTokens, blockId := b'.id
          logicalTokenStart := c.tokenCount, physicalTokenStart := c.tokenCount
          blockTokenStart := c.tokenCount % layerKvBlockTokens, tokenCount := 1 })
      (c.tokenCount + 1) c.windowStart seen rev) (W ++ [r]) := by
  have hl := h.toLayout
  have hz : c.windowStart = 0 := hl.start_zero hn
  have hs := hl.block _ _ hb
  have hlen := h.length
  obtain ⟨b₀, hb₀, -, hj⟩ := hl.block_of_slot hn
  rw [hb] at hb₀
  cases hb₀
  have htc : b.tokenCount = c.tokenCount % layerKvBlockTokens := by
    have h1 := hs.tokenCount
    unfold layerKvBlockTokens at *
    omega
  -- slot `i` of a window that starts at 0 is row `i`
  have hslot : ∀ i, i < c.maxTokens → ringSlot c.windowStart i c.maxTokens = i := fun i hi => by
    rw [hz]
    exact ringSlot_zero_start hi
  have hlast : ringSlot c.windowStart c.tokenCount c.maxTokens = c.tokenCount := hslot _ hn
  refine {
    toLayout := afterWrite_layout hl hb hw hid hn hn hl.start_lt (fun _ => hz) (fun i blk hblk => ?_) ?_
    toCompressed := afterWrite_compressed hl h.toCompressed hb hw hr hj (le_of_eq htc.symm)
    length := by simp [hlen]; rfl
    slots := fun i hi => ?_
    stage := fun i r' hr' => ?_
    keyView := fun v hv => by cases hv
    valueView := fun v hv => by cases hv }
  · by_cases hi : i = c.tokenCount / layerKvBlockTokens
    · subst hi
      rw [List.getElem?_set_self (List.getElem?_eq_some_iff.mp hb).1] at hblk
      cases hblk
      rw [hw.tokenCount, hw.capacityTokens]
      unfold layerKvBlockTokens at *
      omega
    · rw [List.getElem?_set_ne (Ne.symm hi)] at hblk
      have h0 := hl.block i blk hblk
      rw [h0.tokenCount, h0.capacityTokens]
      unfold layerKvBlockTokens at *
      omega
  · have hmap : (c.blocks.set (c.tokenCount / layerKvBlockTokens) b').map (·.id) =
        (c.blocks.map (·.id)).set (c.tokenCount / layerKvBlockTokens) b'.id := List.map_set
    rw [hmap]
    have hlt := (List.getElem?_eq_some_iff.mp hb).1
    have hext := (hl.runs.refresh (c.tokenCount / layerKvBlockTokens) b'.id).extend b'.id hn
    rw [hlast] at hext
    exact hext (List.getElem?_set_self (by rw [List.length_map]; exact hlt))
  · change i < c.tokenCount + 1 at hi
    change (c.afterWrite _ _ _ _ _ _ _ _ _).slotRow (ringSlot c.windowStart i c.maxTokens) = _
    rw [afterWrite_slotRow hl hb hw hj (le_of_eq htc.symm), hslot i (by omega)]
    by_cases he : i = c.tokenCount
    · rw [if_pos he, he, ← hlen, List.getElem?_concat_length]
    · rw [if_neg he, List.getElem?_append_left (by omega), ← h.slots i (by omega), hslot i (by omega)]
  · change row (c.afterWrite _ _ _ _ _ _ _ _ _).keyStage c.vectorLen
        (ringSlot c.windowStart i c.maxTokens) = _ ∧
      row (c.afterWrite _ _ _ _ _ _ _ _ _).valueStage c.vectorLen
        (ringSlot c.windowStart i c.maxTokens) = _
    have hi : i < (W ++ [r]).length := (List.getElem?_eq_some_iff.mp hr').1
    rw [List.length_append, List.length_singleton] at hi
    obtain ⟨hks, hvs⟩ := afterWrite_stage K _ _ seen rev b' _ hl hr hn (ringSlot c.windowStart i c.maxTokens)
    rw [hks, hvs, hslot i (by omega)]
    by_cases he : i = c.tokenCount
    · rw [he, ← hlen, List.getElem?_concat_length] at hr'
      cases hr'
      rw [if_pos he, if_pos he]
      exact ⟨rfl, rfl⟩
    · rw [if_neg he, if_neg he]
      rw [List.getElem?_append_left (by omega)] at hr'
      have := h.stage i r' hr'
      rwa [hslot i (by omega)] at this

/-- Sliding a full window: the oldest row makes room for the new one. -/
theorem Window.afterSlide (h : Window K c W) {b b' : CacheBlock} {r : Row} {seen rev : ℕ}
    (hfull : c.tokenCount = c.maxTokens)
    (hb : c.blocks[c.windowStart / layerKvBlockTokens]? = some b)
    (hw : CacheBlock.Written b b' (c.windowStart % layerKvBlockTokens) r) (hid : b'.id ≠ 0)
    (hr : Acceptable c r) :
    Window K (c.afterWrite K c.windowStart b' r
      (extendRuns (dropOldestRuns (refreshActiveBlockRunIds (c.windowStart / layerKvBlockTokens)
        b'.id c.activeBlockRuns)) {
          blockIndex := c.windowStart / layerKvBlockTokens, blockId := b'.id
          logicalTokenStart := c.maxTokens - 1, physicalTokenStart := c.windowStart
          blockTokenStart := c.windowStart % layerKvBlockTokens, tokenCount := 1 })
      c.tokenCount ((c.windowStart + 1) % c.maxTokens) seen rev) (W.tail ++ [r]) := by
  have hl := h.toLayout
  have hmax := hl.max_pos
  have hst := hl.start_lt
  have hs := hl.block _ _ hb
  have hlen := h.length
  obtain ⟨b₀, hb₀, -, hj⟩ := hl.block_of_slot hst
  rw [hb] at hb₀
  cases hb₀
  have htc : c.windowStart % layerKvBlockTokens < b.tokenCount := by
    have h1 := hs.tokenCount
    have h2 := hs.capacityTokens
    unfold layerKvBlockTokens at *
    omega
  -- the slots move on by one, and the last one is the one just written
  have hsucc : ∀ i, ringSlot ((c.windowStart + 1) % c.maxTokens) i c.maxTokens =
      ringSlot c.windowStart (i + 1) c.maxTokens := fun _ => ringSlot_succ_start
  have hlast : ringSlot c.windowStart (c.maxTokens - 1 + 1) c.maxTokens = c.windowStart := by
    rw [Nat.sub_add_cancel hmax]
    exact ringSlot_cap hst
  have hother : ∀ i, i + 1 < c.maxTokens →
      ringSlot c.windowStart (i + 1) c.maxTokens ≠ c.windowStart := fun i hi he => by
    have h0 : ringSlot c.windowStart 0 c.maxTokens = c.windowStart := Nat.mod_eq_of_lt hst
    have := ringSlot_inj hst hi hmax (he.trans h0.symm)
    omega
  have hWtail : ∀ i, i + 1 < c.maxTokens → (W.tail ++ [r])[i]? = W[i + 1]? := fun i hi => by
    rw [List.getElem?_append_left (by rw [List.length_tail]; omega), List.getElem?_tail]
  have hWlast : (W.tail ++ [r])[c.maxTokens - 1]? = some r := by
    rw [show c.maxTokens - 1 = W.tail.length by rw [List.length_tail]; omega,
      List.getElem?_concat_length]
  refine {
    toLayout := afterWrite_layout hl hb hw hid hst hl.count_le (Nat.mod_lt _ hmax)
      (fun hlt => by omega) (fun i blk hblk => ?_) ?_
    toCompressed := afterWrite_compressed hl h.toCompressed hb hw hr hj (le_of_lt htc)
    length := by
      change _ = c.tokenCount
      simp only [List.length_append, List.length_tail, List.length_singleton]
      omega
    slots := fun i hi => ?_
    stage := fun i r' hr' => ?_
    keyView := fun v hv => by cases hv
    valueView := fun v hv => by cases hv }
  · by_cases hi : i = c.windowStart / layerKvBlockTokens
    · subst hi
      rw [List.getElem?_set_self (List.getElem?_eq_some_iff.mp hb).1] at hblk
      cases hblk
      rw [hw.tokenCount, hw.capacityTokens, ← hs.tokenCount]
      omega
    · rw [List.getElem?_set_ne (Ne.symm hi)] at hblk
      exact (hl.block i blk hblk).tokenCount
  · have hmap : (c.blocks.set (c.windowStart / layerKvBlockTokens) b').map (·.id) =
        (c.blocks.map (·.id)).set (c.windowStart / layerKvBlockTokens) b'.id := List.map_set
    rw [hmap]
    have hlt := (List.getElem?_eq_some_iff.mp hb).1
    have hruns := hl.runs.refresh (c.windowStart / layerKvBlockTokens) b'.id
    rw [show c.tokenCount = c.maxTokens - 1 + 1 by omega] at hruns ⊢
    have hext := hruns.dropOldest.extend b'.id (by omega)
    rw [hsucc, hlast] at hext
    exact hext (List.getElem?_set_self (by rw [List.length_map]; exact hlt))
  · change i < c.tokenCount at hi
    change (c.afterWrite _ _ _ _ _ _ _ _ _).slotRow
      (ringSlot ((c.windowStart + 1) % c.maxTokens) i c.maxTokens) = _
    rw [afterWrite_slotRow hl hb hw hj (le_of_lt htc), hsucc]
    by_cases he : i = c.maxTokens - 1
    · rw [he, hlast, if_pos rfl, hWlast]
    · rw [if_neg (hother i (by omega)), hWtail i (by omega), h.slots (i + 1) (by omega)]
  · change row (c.afterWrite _ _ _ _ _ _ _ _ _).keyStage c.vectorLen
        (ringSlot ((c.windowStart + 1) % c.maxTokens) i c.maxTokens) = _ ∧
      row (c.afterWrite _ _ _ _ _ _ _ _ _).valueStage c.vectorLen
        (ringSlot ((c.windowStart + 1) % c.maxTokens) i c.maxTokens) = _
    have hi : i < (W.tail ++ [r]).length := (List.getElem?_eq_some_iff.mp hr').1
    rw [List.length_append, List.length_singleton, List.length_tail] at hi
    obtain ⟨hks, hvs⟩ := afterWrite_stage K _ _ seen rev b' _ hl hr hst (ringSlot ((c.windowStart + 1) % c.maxTokens) i c.maxTokens)
    rw [hks, hvs, hsucc]
    by_cases he : i = c.maxTokens - 1
    · rw [he, hWlast] at hr'
      cases hr'
      rw [he, hlast, if_pos rfl, if_pos rfl]
      exact ⟨rfl, rfl⟩
    · rw [if_neg (hother i (by omega)), if_neg (hother i (by omega))]
      rw [hWtail i (by omega)] at hr'
      exact h.stage (i + 1) r' hr'

end LayerKvCache

end KirAi.KvCache
