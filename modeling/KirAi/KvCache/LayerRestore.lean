/-
# How a layer cache comes to be

A new cache holds the empty window (`New.window`), a clone the window of its
original (`Window.clone`).

Key definitions: `LayerKvCache.New`, what `new_with_config` makes.
-/
import KirAi.KvCache.LayerReads

namespace KirAi.KvCache
namespace LayerKvCache

open Lib LayerM

variable {K : QuantKernels} {shares : Shares} {c : LayerKvCache} {W : List Row} {s : LayerState}
  {rt rt' : Statics}

/-! ### New caches -/

/-- A block that has just been made. -/
structure NewBlock (b : CacheBlock) (bid : BlockId) (cap v : ℕ) : Prop where
  id : b.id = bid
  revision : b.revision = 0
  shared : b.shared = false
  capacityTokens : b.capacityTokens = cap
  vectorLen : b.vectorLen = v
  tokenCount : b.tokenCount = 0
  storage : b.storage.val = CacheBlockStorage.new (cap * v)

theorem newBlock_of_ok {cap v : ℕ} {b : CacheBlock} (h : CacheBlock.new cap v rt = .ok (b, rt')) :
    NewBlock b rt.nextBlockId cap v ∧ rt'.nextBlockId = rt.nextBlockId + 1 := by
  obtain ⟨-, -, h1, h2, h3, h4, h5, h6, -, -, h7, -, h8, -⟩ := CacheBlock.new_ok h
  exact ⟨⟨h1, h2, h3, h4, h5, h6, by rw [h7]⟩, h8⟩

theorem blockCount_step {remaining : ℕ} (h : remaining ≠ 0) :
    blockCount remaining = blockCount (remaining - min remaining layerKvBlockTokens) + 1 := by
  unfold blockCount layerKvBlockTokens
  omega

/-- The blocks of a new cache have the ids from the counter on. -/
theorem newBlocks_ok {v : ℕ} : ∀ (fuel remaining : ℕ) (rt : Statics) (bs : List CacheBlock)
    (rt' : Statics), remaining ≤ fuel → newBlocks v fuel remaining rt = .ok (bs, rt') →
    bs.length = blockCount remaining ∧ rt'.nextBlockId = rt.nextBlockId + bs.length ∧
      ∀ i b, bs[i]? = some b → NewBlock b (rt.nextBlockId + i)
        (min layerKvBlockTokens (remaining - layerKvBlockTokens * i)) v
  | 0, remaining, rt, bs, rt', hf, h => by
    cases h
    obtain rfl : remaining = 0 := by omega
    exact ⟨rfl, rfl, fun i b hb => by cases hb⟩
  | fuel + 1, remaining, rt, bs, rt', hf, h => by
    unfold newBlocks at h
    by_cases h0 : remaining = 0
    · rw [if_pos h0] at h
      cases h
      subst h0
      exact ⟨rfl, rfl, fun i b hb => by cases hb⟩
    · rw [if_neg h0] at h
      simp only [bind_eq_ok, pure_eq_ok, Prod.mk.injEq] at h
      obtain ⟨⟨b₀, rt₁⟩, hnew, ⟨rest, rt₂⟩, hrest, rfl, rfl⟩ := h
      obtain ⟨hb₀, hrt₁⟩ := newBlock_of_ok hnew
      have hle : remaining - min remaining layerKvBlockTokens ≤ fuel := by
        unfold layerKvBlockTokens
        omega
      obtain ⟨hlen, hrt₂, hblk⟩ := newBlocks_ok fuel _ rt₁ rest rt₂ hle hrest
      refine ⟨?_, ?_, fun i b hb => ?_⟩
      · rw [List.length_cons, hlen, ← blockCount_step h0]
      · rw [hrt₂, hrt₁]
        simp only [List.length_cons]
        omega
      · cases i with
        | zero =>
          cases hb
          rw [Nat.mul_zero, Nat.sub_zero, Nat.min_comm]
          exact hb₀
        | succ i =>
          have := hblk i b hb
          rw [hrt₁] at this
          have hcap : min layerKvBlockTokens (remaining - min remaining layerKvBlockTokens -
              layerKvBlockTokens * i) =
              min layerKvBlockTokens (remaining - layerKvBlockTokens * (i + 1)) := by
            unfold layerKvBlockTokens
            omega
          rw [hcap, Nat.add_assoc, Nat.add_comm 1 i] at this
          exact this

theorem newTable_ok : ∀ (bs : List CacheBlock) (t t' : BlockTable),
    newTable bs t = .ok t' → t'.blocks = t.blocks ++ bs.map (·.id)
  | [], t, t', h => by
    cases h
    simp
  | b :: bs, t, t', h => by
    simp only [newTable, bind_eq_ok] at h
    obtain ⟨t₁, ht₁, h⟩ := h
    rw [newTable_ok bs t₁ t' h]
    unfold BlockTable.append at ht₁
    split at ht₁
    · cases ht₁
    · cases ht₁
      simp

theorem newInt8Storage_ok {config : KvCacheConfig} {maxTokens v : ℕ} {o : Option LayerInt8KvStore}
    (h : newInt8Storage config maxTokens v = .ok o) : (o.isSome ↔ config.format = .int8) ∧
      ∀ st, o = some st → st.vectorLen = v ∧ st.blocks = List.replicate (blockCount maxTokens) none := by
  unfold newInt8Storage LayerInt8KvStore.new at h
  split at h
  · rename_i hf
    simp only [map_eq_pure_bind, bind_eq_ok, guard_eq_ok, pure_eq_ok, throw_bind] at h
    obtain ⟨a, ⟨-, rfl⟩, rfl⟩ := h
    exact ⟨by simp [hf], fun st hst => by cases hst; exact ⟨rfl, rfl⟩⟩
  · rename_i hf
    cases h
    exact ⟨by simp [hf], fun st hst => by cases hst⟩

theorem newQuantizedValues_ok {config : KvCacheConfig} {maxTokens v : ℕ}
    {o : Option LayerQuantizedValueStore} (h : newQuantizedValues config maxTokens v = .ok o) :
    (o.isSome ↔ config.asymmetricVq.isSome) ∧
      ∀ st, o = some st → st.vectorLen = v ∧ st.blocks = List.replicate (blockCount maxTokens) none := by
  unfold newQuantizedValues LayerQuantizedValueStore.new at h
  split at h
  · rename_i hf
    simp only [map_eq_pure_bind, bind_eq_ok, guard_eq_ok, pure_eq_ok, throw_bind] at h
    obtain ⟨a, ⟨-, rfl⟩, rfl⟩ := h
    exact ⟨by simp [hf], fun st hst => by cases hst; exact ⟨rfl, rfl⟩⟩
  · rename_i hf
    cases h
    exact ⟨by simp [hf], fun st hst => by cases hst⟩

/-- What `new_with_config` makes. -/
structure New (maxTokens keyValueHeads headDim : ℕ) (config : KvCacheConfig) (rt : Statics)
    (c : LayerKvCache) (rt' : Statics) : Prop where
  max_pos : 0 < maxTokens
  vec_pos : 0 < keyValueHeads * headDim
  stage_le : maxTokens * (keyValueHeads * headDim) ≤ vecF32Max
  blocks_length : c.blocks.length = blockCount maxTokens
  block : ∀ i b, c.blocks[i]? = some b → NewBlock b (rt.nextBlockId + i)
    (min layerKvBlockTokens (maxTokens - layerKvBlockTokens * i)) (keyValueHeads * headDim)
  table : c.blockTable.blocks = c.blocks.map (·.id)
  int8_iff : c.int8Storage.isSome ↔ config.format = .int8
  vq_iff : c.quantizedValues.isSome ↔ config.asymmetricVq.isSome
  int8 : ∀ st, c.int8Storage = some st → st.vectorLen = keyValueHeads * headDim ∧
    st.blocks = List.replicate (blockCount maxTokens) none
  vq : ∀ st, c.quantizedValues = some st → st.vectorLen = keyValueHeads * headDim ∧
    st.blocks = List.replicate (blockCount maxTokens) none
  cache : c = {
    id := c.id, revision := 0, config, maxTokens, keyValueHeads, headDim, tokenCount := 0
    tokensSeen := 0, windowStart := 0, blockTable := c.blockTable, blocks := c.blocks
    activeBlockRuns := []
    keyStage := List.replicate (maxTokens * (keyValueHeads * headDim)) F32.zero
    valueStage := List.replicate (maxTokens * (keyValueHeads * headDim)) F32.zero
    keyContiguousView := none, valueContiguousView := none, int8Storage := c.int8Storage
    quantizedValues := c.quantizedValues }
  nextBlockId : rt'.nextBlockId = rt.nextBlockId + c.blocks.length

theorem newWithConfig_ok {maxTokens keyValueHeads headDim : ℕ} {config : KvCacheConfig}
    (h : newWithConfig maxTokens keyValueHeads headDim config rt = .ok (c, rt')) :
    New maxTokens keyValueHeads headDim config rt c rt' := by
  unfold newWithConfig at h
  cases hv : checkedMul keyValueHeads headDim with
  | none => simp [hv] at h
  | some v =>
    obtain ⟨-, rfl⟩ := checkedMul_eq_some.mp hv
    cases hl : checkedMul maxTokens (keyValueHeads * headDim) with
    | none => simp [hv, hl] at h
    | some len =>
      obtain ⟨-, rfl⟩ := checkedMul_eq_some.mp hl
      simp only [hv, hl, throw_bind, guard_eq_ok, bind_eq_ok, pure_eq_ok, Prod.mk.injEq, nextCacheId] at h
      obtain ⟨hpos, -, ⟨bs, rt₁⟩, hbs, t, ht, i8, hi8, vq, hvq, hle, rfl, rfl⟩ := h
      obtain ⟨hlen, hnext, hblk⟩ := newBlocks_ok _ _ _ _ _ le_rfl hbs
      obtain ⟨hi8s, hi8b⟩ := newInt8Storage_ok hi8
      obtain ⟨hvqs, hvqb⟩ := newQuantizedValues_ok hvq
      refine ⟨by omega, Nat.mul_pos (by omega) (by omega), by omega, hlen, hblk, ?_, hi8s, hvqs,
        hi8b, hvqb, rfl, hnext⟩
      simpa [BlockTable.new] using newTable_ok _ _ _ ht

section New

variable {maxTokens keyValueHeads headDim : ℕ} {config : KvCacheConfig}

theorem New.vectorLen (h : New maxTokens keyValueHeads headDim config rt c rt') :
    c.vectorLen = keyValueHeads * headDim := by
  rw [h.cache]
  rfl

theorem New.block_empty (h : New maxTokens keyValueHeads headDim config rt c rt') {b : CacheBlock}
    (hb : b ∈ c.blocks) : b.tokenCount = 0 := by
  obtain ⟨i, hi⟩ := List.mem_iff_getElem?.mp hb
  exact (h.block i b hi).tokenCount

/-- A new cache has the shape of an empty one. -/
theorem New.blockShape (h : New maxTokens keyValueHeads headDim config rt c rt') {i : ℕ}
    {b : CacheBlock} (hb : c.blocks[i]? = some b) : c.BlockShape i b := by
  have hnb := h.block i b hb
  have hmax : c.maxTokens = maxTokens := by rw [h.cache]
  have hcount : c.tokenCount = 0 := by rw [h.cache]
  refine ⟨?_, hnb.vectorLen.trans h.vectorLen.symm, by rw [hmax]; exact hnb.capacityTokens, ?_, ?_, ?_⟩
  · rw [hnb.id]
    exact Nat.ne_of_gt (Nat.add_pos_left rt.nextBlockId_pos i)
  · rw [hnb.tokenCount, hcount]
    omega
  · rw [hnb.storage, hnb.capacityTokens, hnb.vectorLen, CacheBlockStorage.new,
      List.length_replicate]
  · rw [hnb.storage, hnb.capacityTokens, hnb.vectorLen, CacheBlockStorage.new,
      List.length_replicate]

theorem New.layout (h : New maxTokens keyValueHeads headDim config rt c rt') : Layout c := by
  have hc := h.cache
  have hmax : c.maxTokens = maxTokens := by rw [hc]
  have hcount : c.tokenCount = 0 := by rw [hc]
  have hstart : c.windowStart = 0 := by rw [hc]
  refine ⟨hmax ▸ h.max_pos, h.vectorLen ▸ h.vec_pos, ?_, ?_, ?_, fun _ => hstart, h.table, ?_,
    fun _ _ => h.blockShape, ?_, ?_, ?_⟩
  · rw [hmax, h.vectorLen]
    exact h.stage_le
  · rw [hcount]
    exact Nat.zero_le _
  · rw [hstart, hmax]
    exact h.max_pos
  · rw [hmax]
    exact h.blocks_length
  · rw [hmax, h.vectorLen, hc]
    exact List.length_replicate
  · rw [hmax, h.vectorLen, hc]
    exact List.length_replicate
  · rw [hcount, show c.activeBlockRuns = [] by rw [hc]]
    exact RunsCover.empty _ _ _

theorem New.window (h : New maxTokens keyValueHeads headDim config rt c rt') : Window K c [] := by
  have hc := h.cache
  have hcount : c.tokenCount = 0 := by rw [hc]
  have hempty : ∀ b ∈ c.blocks, b.keys = [] ∧ b.values = [] := fun b hb => by
    have h0 := h.block_empty hb
    exact ⟨by simp [CacheBlock.keys, CacheBlock.usedLen, h0],
      by simp [CacheBlock.values, CacheBlock.usedLen, h0]⟩
  refine {
    toLayout := h.layout
    int8_iff := h.int8_iff.trans (by rw [hc])
    vq_iff := h.vq_iff.trans (by rw [hc])
    finite := fun _ b hb => ?_
    int8 := fun st hst => ?_
    vq := fun st hst => ?_
    length := hcount.symm
    slots := fun i hi => by omega
    stage := fun i r hr => by simp at hr
    keyView := fun v hv => by rw [hc] at hv; cases hv
    valueView := fun v hv => by rw [hc] at hv; cases hv }
  · rw [(hempty b hb).1, (hempty b hb).2]
    exact ⟨by simp [AllFinite], by simp [AllFinite]⟩
  · obtain ⟨hv, hb⟩ := h.int8 st hst
    refine ⟨hv.trans h.vectorLen.symm, ?_⟩
    rw [hb, List.map_congr_left fun b hb => if_pos (h.block_empty hb), List.map_const',
      h.blocks_length]
  · obtain ⟨hv, hb⟩ := h.vq st hst
    refine ⟨hv.trans h.vectorLen.symm, ?_⟩
    rw [hb, List.length_replicate, h.blocks_length]

end New

/-! ### Clones -/

theorem clone_slotRow (p : ℕ) : (c.clone rt).1.slotRow p = c.slotRow p := by
  have hb : (c.clone rt).1.blocks = c.blocks.map CacheBlock.clone := rfl
  rw [slotRow, slotRow, hb, List.getElem?_map]
  cases c.blocks[p / layerKvBlockTokens]? <;> rfl

/-- A clone holds the rows of its original. -/
theorem Window.clone (h : Window K c W) (rt : Statics) : Window K (c.clone rt).1 W := by
  have hblk : ∀ i b, (c.blocks.map CacheBlock.clone)[i]? = some b →
      ∃ b₀ : CacheBlock, c.blocks[i]? = some b₀ ∧ b = b₀.clone := fun i b hb => by
    rw [List.getElem?_map] at hb
    obtain ⟨b₀, hb₀, rfl⟩ := Option.map_eq_some_iff.mp hb
    exact ⟨b₀, hb₀, rfl⟩
  have hids : (c.blocks.map CacheBlock.clone).map (·.id) = c.blocks.map (·.id) := by
    rw [List.map_map]
    rfl
  refine {
    toLayout := ⟨h.max_pos, h.vec_pos, h.stage_le, h.count_le, h.start_lt, h.start_zero,
      h.table.trans hids.symm, (List.length_map _).trans h.blocks_length, fun i b hb => ?_,
      h.keyStage_length, h.valueStage_length, ?_⟩
    int8_iff := h.int8_iff
    vq_iff := h.vq_iff
    finite := fun hor b hb => ?_
    int8 := fun st hst => ?_
    vq := fun st hst => ?_
    length := h.length
    slots := fun i hi => ?_
    stage := h.stage
    keyView := fun v hv => by cases hv
    valueView := fun v hv => by cases hv }
  · obtain ⟨b₀, hb₀, rfl⟩ := hblk i b hb
    obtain ⟨h1, h2, h3, h4, h5, h6⟩ := h.block i b₀ hb₀
    exact ⟨h1, h2, h3, h4, h5, h6⟩
  · change RunsCover c.activeBlockRuns ((c.blocks.map CacheBlock.clone).map (·.id)) _ _ _
    rw [hids]
    exact h.runs
  · obtain ⟨b₀, hb₀, rfl⟩ := List.mem_map.mp hb
    exact h.finite hor b₀ hb₀
  · obtain ⟨hv, hsb⟩ := h.int8 st hst
    refine ⟨hv, hsb.trans ?_⟩
    change _ = (c.blocks.map CacheBlock.clone).map _
    rw [List.map_map]
    rfl
  · obtain ⟨hv, hsb⟩ := h.vq st hst
    exact ⟨hv, hsb.trans (List.length_map _).symm⟩
  · rw [← h.slots i hi]
    exact clone_slotRow _

end LayerKvCache
end KirAi.KvCache
