/-
# The int8 copy of a layer says what its rows say

A layer in the int8 format keeps a second copy of its rows, quantized block by
block and made again by hand after every write. Whatever was appended, slid
over, cleared, cloned or restored, the copy that `active_int8_blocks` lists has
for every row of the window the codes and scales of that row, and nothing else
changes in it when a row is written. Quantizing a row is a parameter
(`QuantKernels`).

Key definitions: `int8TokenOf`, `Int8View`, `LayerKvCache.int8Token`.
Key theorems: `Window.int8View`, `Window.int8Token`, `int8DirectAppendToken_ok`,
`int8Store_coherent`.
-/
import KirAi.KvCache.LayerRefines

namespace KirAi.KvCache

open Lib

/-- Row `j` of an int8 block: its codes and its scales. -/
def LayerKvCacheInt8Block.token (b : LayerKvCacheInt8Block) (j : ℕ) : LayerInt8KvToken where
  keyCodes := row b.keyCodes b.vectorLen j
  valueCodes := row b.valueCodes b.vectorLen j
  keyScales := row b.keyScales 1 j
  valueScales := row b.valueScales 1 j

/-- What a row and its value are quantized to. -/
def int8TokenOf (K : QuantKernels) (r : Row) : LayerInt8KvToken where
  keyCodes := int8Row K r.1
  valueCodes := int8Row K r.2
  keyScales := [K.int8Scale r.1]
  valueScales := [K.int8Scale r.2]

namespace LayerKvCache

variable {K : QuantKernels} {shares : Shares} {c : LayerKvCache} {W rows : List Row}
  {s s' : LayerState} {r : Row}

/-! ### The copy of a block -/

/-- The rows of the int8 copy of a block: codes and scales, of keys and values. -/
theorem int8BlockOf_rows (h : Layout c) {i : ℕ} {block : CacheBlock}
    (hb : c.blocks[i]? = some block) :
    let copy := int8BlockOf K block.keys block.values c.vectorLen
    (copy.keyCodes.length = block.tokenCount * c.vectorLen ∧ ∀ j, j < block.tokenCount →
      row copy.keyCodes c.vectorLen j = int8Row K (row block.storage.val.keys c.vectorLen j)) ∧
    (copy.valueCodes.length = block.tokenCount * c.vectorLen ∧ ∀ j, j < block.tokenCount →
      row copy.valueCodes c.vectorLen j = int8Row K (row block.storage.val.values c.vectorLen j)) ∧
    (copy.keyScales.length = block.tokenCount * 1 ∧ ∀ j, j < block.tokenCount →
      row copy.keyScales 1 j = [K.int8Scale (row block.storage.val.keys c.vectorLen j)]) ∧
    (copy.valueScales.length = block.tokenCount * 1 ∧ ∀ j, j < block.tokenCount →
      row copy.valueScales 1 j = [K.int8Scale (row block.storage.val.values c.vectorLen j)]) := by
  have hs := h.block _ _ hb
  have hk : block.storage.val.keys.length = block.capacityTokens * c.vectorLen :=
    hs.vectorLen ▸ hs.keys_length
  have hv : block.storage.val.values.length = block.capacityTokens * c.vectorLen :=
    hs.vectorLen ▸ hs.values_length
  have htc : block.tokenCount ≤ block.capacityTokens := by
    rw [hs.tokenCount]
    exact Nat.min_le_left _ _
  have hcodes : ∀ r : List F32, r.length = c.vectorLen → (int8Row K r).length = c.vectorLen :=
    fun r hr => by rw [int8Row, List.length_map, hr]
  dsimp only [int8BlockOf]
  rw [CacheBlock.keys, CacheBlock.values, CacheBlock.usedLen, hs.vectorLen, List.map_eq_flatMap,
    List.map_eq_flatMap]
  exact ⟨chunksExact_copy h.vec_pos hk htc hcodes, chunksExact_copy h.vec_pos hv htc hcodes,
    chunksExact_copy h.vec_pos hk htc fun _ _ => rfl, chunksExact_copy h.vec_pos hv htc fun _ _ => rfl⟩

/-- Row `j` of the copy of a block is the token of row `j` of the block. -/
theorem int8BlockOf_token (h : Layout c) {i : ℕ} {block : CacheBlock}
    (hb : c.blocks[i]? = some block) {j : ℕ} (hj : j < block.tokenCount) :
    let copy := int8BlockOf K block.keys block.values c.vectorLen
    (⟨row copy.keyCodes c.vectorLen j, row copy.valueCodes c.vectorLen j, row copy.keyScales 1 j,
        row copy.valueScales 1 j⟩ : LayerInt8KvToken) =
      int8TokenOf K (row block.storage.val.keys c.vectorLen j,
        row block.storage.val.values c.vectorLen j) := by
  obtain ⟨⟨-, hk⟩, ⟨-, hv⟩, ⟨-, hks⟩, -, hvs⟩ := int8BlockOf_rows (K := K) h hb
  dsimp only
  rw [hk j hj, hv j hj, hks j hj, hvs j hj]
  rfl

/-! ### What is listed -/

/-- The logical rows an int8 block stands for. -/
def int8LogicalRows (b : LayerKvCacheInt8Block) : List ℕ :=
  (List.range b.tokenCount).map (b.logicalTokenStart + ·)

/-- An int8 block and a block of rows describe one stretch of the window. -/
structure Aligned (b : LayerKvCacheInt8Block) (f : LayerKvCacheBlock) : Prop where
  blockId : b.blockId = f.blockId
  revision : b.revision = f.revision
  logicalTokenStart : b.logicalTokenStart = f.logicalTokenStart
  physicalTokenStart : b.physicalTokenStart = f.physicalTokenStart
  blockTokenStart : b.blockTokenStart = f.blockTokenStart
  tokenCount : b.tokenCount = f.tokenCount
  vectorLen : b.vectorLen = f.vectorLen

/-- The int8 blocks list every row of `W` once, in order, as its codes and
scales, and lie where the blocks of rows lie. -/
def Int8View (K : QuantKernels) (c : LayerKvCache) (W : List Row) : Prop :=
  ∃ bs fs, c.activeInt8Blocks = .ok (some bs) ∧ c.activeBlocks = .ok fs ∧
    List.Forall₂ Aligned bs fs ∧ bs.flatMap int8LogicalRows = List.range W.length ∧
    ∀ b ∈ bs, ∀ j, j < b.tokenCount →
      W[b.logicalTokenStart + j]?.map (int8TokenOf K) = some (b.token (b.blockTokenStart + j))

theorem aligned_of_reports {runs : List LayerKvCacheBlockRun} {bs : List LayerKvCacheInt8Block}
    {fs : List LayerKvCacheBlock} (hbs : List.Forall₂ (ReportsInt8 K c) runs bs)
    (hfs : List.Forall₂ (Reports c) runs fs) : List.Forall₂ Aligned bs fs := by
  induction hbs generalizing fs with
  | nil =>
    cases hfs
    exact .nil
  | cons hb _ ih =>
    cases hfs with
    | cons hf hrest =>
      obtain ⟨block, hblock, rfl⟩ := hb
      obtain ⟨block', hblock', rfl⟩ := hf
      rw [hblock] at hblock'
      cases hblock'
      exact .cons ⟨rfl, rfl, rfl, rfl, rfl, rfl, rfl⟩ (ih hrest)

theorem Window.int8View (h : Window K c W) (hint8 : c.config.format = .int8) : Int8View K c W := by
  rcases h.activeInt8Blocks with ⟨hno, -⟩ | ⟨bs, hbs, hrep⟩
  · exact absurd hint8 hno
  obtain ⟨fs, hfs, hreports⟩ := h.toLayout.activeBlocks
  have haligned := aligned_of_reports hrep hreports
  refine ⟨bs, fs, hbs, hfs, haligned, ?_, fun b hb j hj => ?_⟩
  · -- the stretches are those of the blocks of rows
    have hsame : ∀ {bs fs}, List.Forall₂ Aligned bs fs →
        bs.flatMap int8LogicalRows = fs.flatMap logicalRows := by
      intro bs fs ha
      induction ha with
      | nil => rfl
      | cons hbf _ ih =>
        rw [List.flatMap_cons, List.flatMap_cons, ih, int8LogicalRows, logicalRows, hbf.tokenCount,
          hbf.logicalTokenStart]
    rw [hsame haligned]
    exact h.logicalRows_eq hreports
  · obtain ⟨run, hrun, block, hblock, rfl⟩ := forall₂_mem_right hrep hb
    obtain ⟨hlt, hrow⟩ := h.run_row hrun hblock hj
    dsimp only
    rw [hrow, Option.map_some, ← int8BlockOf_token h.toLayout hblock hlt]
    rfl

/-! ### The store, slot by slot -/

/-- What the int8 store holds at slot `p`. -/
def int8Token (c : LayerKvCache) (p : ℕ) : Option LayerInt8KvToken := do
  let store ← c.int8Storage
  let block ← store.blocks[p / layerKvBlockTokens]?.join
  if p % layerKvBlockTokens < block.tokenCount then
    some {
      keyCodes := row block.keyCodes store.vectorLen (p % layerKvBlockTokens)
      valueCodes := row block.valueCodes store.vectorLen (p % layerKvBlockTokens)
      keyScales := row block.keyScales 1 (p % layerKvBlockTokens)
      valueScales := row block.valueScales 1 (p % layerKvBlockTokens) }
  else none

/-- The store has the token of every row, and nothing where there is no row. -/
theorem Window.int8Token (h : Window K c W) (hint8 : c.config.format = .int8) (p : ℕ) :
    c.int8Token p = (c.slotRow p).map (int8TokenOf K) := by
  obtain ⟨store, hst⟩ := Option.isSome_iff_exists.mp (h.int8_iff.mpr hint8)
  obtain ⟨hv, hblocks⟩ := h.int8 store hst
  unfold LayerKvCache.int8Token slotRow
  simp only [hst, Option.bind_eq_bind, Option.bind_some, hblocks, List.getElem?_map, hv]
  cases hb : c.blocks[p / layerKvBlockTokens]? with
  | none => rfl
  | some b =>
    by_cases h0 : b.tokenCount = 0
    · simp [h0, CacheBlock.key, CacheBlock.tokenSlice]
    · have hs := h.block _ _ hb
      have hcount : (int8BlockOf K b.keys b.values c.vectorLen).tokenCount = b.tokenCount := by
        have hle : b.tokenCount * c.vectorLen ≤ b.storage.val.keys.length := by
          rw [hs.keys_length, hs.vectorLen]
          refine Nat.mul_le_mul_right _ ?_
          rw [hs.tokenCount]
          exact Nat.min_le_left _ _
        change b.keys.length / c.vectorLen = _
        rw [CacheBlock.keys, CacheBlock.usedLen, hs.vectorLen, List.length_take, Nat.min_eq_left hle,
          Nat.mul_div_cancel _ h.vec_pos]
      simp only [Option.map_some, if_neg h0, Option.join_some, Option.bind_some, hcount]
      by_cases hj : p % layerKvBlockTokens < b.tokenCount
      · rw [if_pos hj, int8BlockOf_token h.toLayout hb hj]
        simp [CacheBlock.key, CacheBlock.value, CacheBlock.tokenSlice, Nat.not_le.mpr hj,
          hs.vectorLen]
      · simp [hj, CacheBlock.key, CacheBlock.tokenSlice, Nat.le_of_not_lt hj]

/-- An append writes the slot after the last row, a slide the oldest slot;
the other slots keep their rows. -/
theorem Window.slotRow_appended (h : Window K s.cache W) (ha : AppendedAtEnd K shares s r s')
    (p : ℕ) : s'.cache.slotRow p = if p = s.cache.tokenCount then some r else s.cache.slotRow p := by
  obtain ⟨hn, -, -, b, b', hb, hw, -, -, hs'⟩ := ha
  obtain ⟨blk, hblk, hshape, hcap⟩ := h.toLayout.block_of_slot hn
  rw [hb] at hblk
  cases hblk
  rw [hs', afterWrite_slotRow h.toLayout hb hw hcap]
  rw [hshape.tokenCount]
  unfold layerKvBlockTokens at *
  omega

theorem Window.slotRow_slid (h : Window K s.cache W) (ha : Slid K shares s r s') (p : ℕ) :
    s'.cache.slotRow p = if p = s.cache.windowStart then some r else s.cache.slotRow p := by
  obtain ⟨hfull, -, -, b, b', hb, hw, -, -, hs'⟩ := ha
  obtain ⟨blk, hblk, hshape, hcap⟩ := h.toLayout.block_of_slot h.start_lt
  rw [hb] at hblk
  cases hblk
  rw [hs', afterWrite_slotRow h.toLayout hb hw hcap]
  rw [hshape.tokenCount, hfull]
  have := hshape.capacityTokens
  omega

/-! ### A direct append -/

theorem chunksExact_one {r : List F32} {v : ℕ} (hv : 0 < v) (hr : r.length = v) :
    chunksExact r v = [r] := by
  have := chunksExact_flatMap (l := [r]) (g := fun x => x) hv (by simpa using hr)
  simpa using this

/-- A row that may be appended is quantized to its token. -/
theorem int8DirectAppendToken_ok (h : Window K c W) (hint8 : c.config.format = .int8)
    (hr : Acceptable c r) : c.int8DirectAppendToken K r.1 r.2 = .ok (some (int8TokenOf K r)) := by
  have hval : c.validateSlidingAppend r.1 r.2 = .ok () := validateSlidingAppend_ok.mpr hr
  obtain ⟨hk, hv⟩ := hr.finite (.inl (h.int8_iff.mpr hint8))
  have hquant : ∀ {l : List F32}, l.length = c.vectorLen → AllFinite l →
      quantizeInt8Rows K l c.vectorLen = .ok (int8Row K l, [K.int8Scale l]) := by
    intro l hl hfin
    have hne : l ≠ [] := List.ne_nil_of_length_pos (hl ▸ h.vec_pos)
    rw [quantizeInt8Rows_ok hne h.vec_pos (by rw [hl, Nat.mod_self]) hfin,
      chunksExact_one h.vec_pos hl]
    simp
  have hshape : ¬ (r.1.length ≠ c.vectorLen ∨ r.2.length ≠ c.vectorLen) := by
    simp [hr.key, hr.value]
  simp only [int8DirectAppendToken, hint8, ne_eq, not_true_eq_false, ↓reduceIte, hval, ok_bind,
    LayerInt8KvToken.quantize, throw_bind, if_neg hshape, hquant hr.key hk, hquant hr.value hv]
  rfl

theorem slidingAppendTarget_ok (h : Window K c W) : c.slidingAppendTarget = .ok {
    tokenIndex := if c.tokenCount < c.maxTokens then c.tokenCount else c.maxTokens - 1
    physicalTokenIndex := if c.tokenCount < c.maxTokens then c.tokenCount else c.windowStart
    previousTokenCount := c.tokenCount } := by
  have hstart := h.start_lt
  unfold slidingAppendTarget
  by_cases hn : c.tokenCount < c.maxTokens
  · simp [hn, Nat.not_le.mpr hn, pure, Except.pure]
  · simp [hn, Nat.not_le.mpr hstart, pure, Except.pure]

/-- What a sliding append does to the int8 store: the token made beforehand is
where it was announced, and the other slots are as before. -/
def DirectAppend (K : QuantKernels) (s : LayerState) (key value : List F32) (s' : LayerState) : Prop :=
  ∃ token target, s.cache.int8DirectAppendToken K key value = .ok (some token) ∧
    s.cache.slidingAppendTarget = .ok target ∧
    s'.cache.int8Token target.physicalTokenIndex = some token ∧
    ∀ p, p ≠ target.physicalTokenIndex → s'.cache.int8Token p = s.cache.int8Token p

/-- **The int8 copy is coherent.** After every run, the int8 copy of a layer
lists the tokens of the rows that all views of it show; and a sliding append
puts the token that was made before into the slot that was announced before. -/
theorem int8Store_coherent (h : Reach K s rows) (hint8 : s.cache.config.format = .int8) :
    Views s.cache (rows.rtake s.cache.maxTokens) ∧
    Int8View K s.cache (rows.rtake s.cache.maxTokens) ∧
    ∀ shares key value m s', appendSlidingWithMetadata K shares key value s = .ok m s' →
      DirectAppend K s key value s' := by
  have hw := h.window.1
  refine ⟨hw.views, hw.int8View hint8, fun shares key value m s' hok => ?_⟩
  have hw' := (Reach.appendSliding h hok).window.1
  rcases appendSlidingWithMetadata_ok hw hok with ⟨ha, -⟩ | ⟨ha, -⟩
  · have hn := ha.1
    have hr := ha.2.1
    have hint8' : s'.cache.config.format = .int8 := by
      obtain ⟨-, -, -, b, b', -, -, -, -, hs'⟩ := ha
      rw [hs']
      exact hint8
    refine ⟨_, _, int8DirectAppendToken_ok hw hint8 hr, slidingAppendTarget_ok hw, ?_, fun p hp => ?_⟩
    · dsimp only
      rw [if_pos hn, hw'.int8Token hint8', hw.slotRow_appended ha, if_pos rfl, Option.map_some]
    · dsimp only at hp
      rw [if_pos hn] at hp
      rw [hw'.int8Token hint8', hw.int8Token hint8, hw.slotRow_appended ha, if_neg hp]
  · have hn : ¬ (s.cache.tokenCount < s.cache.maxTokens) := by
      have := ha.1
      omega
    have hr := ha.2.1
    have hint8' : s'.cache.config.format = .int8 := by
      obtain ⟨-, -, -, b, b', -, -, -, -, hs'⟩ := ha
      rw [hs']
      exact hint8
    refine ⟨_, _, int8DirectAppendToken_ok hw hint8 hr, slidingAppendTarget_ok hw, ?_, fun p hp => ?_⟩
    · dsimp only
      rw [if_neg hn, hw'.int8Token hint8', hw.slotRow_slid ha, if_pos rfl, Option.map_some]
    · dsimp only at hp
      rw [if_neg hn] at hp
      rw [hw'.int8Token hint8', hw.int8Token hint8, hw.slotRow_slid ha, if_neg hp]

/-- A window of two that wrapped: its rows are listed, and the token of a fourth
row goes where the second one is. -/
theorem int8Store_coherent_wrapped : ∃ s : LayerState,
    Int8View .onZeroRows s.cache [([F32.zero], [F32.zero]), ([F32.zero], [F32.zero])] ∧
    s.cache.windowStart = 1 ∧
    ∃ m s', appendSlidingWithMetadata .onZeroRows (fun _ => 0) [F32.zero] [F32.zero] s = .ok m s' ∧
      DirectAppend .onZeroRows s [F32.zero] [F32.zero] s' := by
  have h : ∃ s, Reach .onZeroRows s [([F32.zero], [F32.zero]), ([F32.zero], [F32.zero]),
      ([F32.zero], [F32.zero])] ∧ s.cache.maxTokens = 2 ∧ s.cache.windowStart = 1 ∧
      s.cache.config.format = .int8 ∧ ∃ m s',
        appendSlidingWithMetadata .onZeroRows (fun _ => 0) [F32.zero] [F32.zero] s = .ok m s' :=
    ⟨_, .appendSliding (.appendSliding (.append
      (.new (show newWithConfig 2 1 1 .int8 .initial = .ok _ from rfl))
      (show appendWithMetadata .onZeroRows (fun _ => 0) [F32.zero] [F32.zero] _ = .ok _ _ from rfl))
      (show appendSlidingWithMetadata .onZeroRows (fun _ => 0) [F32.zero] [F32.zero] _ = .ok _ _
        from rfl))
      (show appendSlidingWithMetadata .onZeroRows (fun _ => 0) [F32.zero] [F32.zero] _ = .ok _ _
        from rfl), rfl, rfl, rfl, _, _, rfl⟩
  obtain ⟨s, hs, hmax, hstart, hint8, m, s', hok⟩ := h
  obtain ⟨-, hview, hdirect⟩ := int8Store_coherent hs hint8
  rw [hmax] at hview
  exact ⟨s, hview, hstart, m, s', hok, hdirect _ _ _ m s' hok⟩

end LayerKvCache
end KirAi.KvCache
