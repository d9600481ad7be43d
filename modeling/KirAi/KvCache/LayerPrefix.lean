/-
# A restored prefix state holds the window it was taken from

`prefix_cache_state` keeps handles of the blocks that the runs name, and
`from_prefix_cache_state` puts them into a new cache and rebuilds everything
else: the runs by logical row, the rings from the blocks, the copies block by
block. A restore that succeeds has read every row of the window from a block,
so no block of the window is missing. A snapshot is read back row by row.

Key definitions: `CacheBlock.reissued`, `LayerKvCache.Restored`.
Key theorems: `fromPrefixCacheState_ok`, `fromSnapshot_ok`.
-/
import KirAi.KvCache.LayerRestore

namespace KirAi.KvCache

open Lib

namespace CacheBlock

/-- The block as a restore issues it again. -/
def reissued (b : CacheBlock) : CacheBlock := { b with shared := true, refCount := 0, lastAccess := 0 }

theorem fromRetained_retainStorage {b b' : CacheBlock} (h : fromRetained b.retainStorage = .ok b') :
    b' = b.reissued := by
  unfold fromRetained at h
  cases hm : checkedMul b.retainStorage.capacityTokens b.retainStorage.vectorLen with
  | none => simp [hm] at h
  | some n =>
    simp only [hm, throw_bind, guard_eq_ok, pure_eq_ok] at h
    obtain ⟨-, -, rfl⟩ := h
    rfl

end CacheBlock

namespace LayerKvCache

open LayerM

variable {K : QuantKernels} {c c' src : LayerKvCache} {W : List Row} {s s' : LayerState}
  {rt rt' : Statics}

/-! ### The blocks -/

/-- A prefix state keeps blocks that the runs name. -/
theorem prefixBlocksOf_mem : ∀ (runs : List LayerKvCacheBlockRun) (seen : List BlockId)
    (pb : LayerKvCachePrefixBlock), pb ∈ c.prefixBlocksOf runs seen →
    ∃ run ∈ runs, run.blockIndex = pb.blockIndex ∧
      ∃ block, c.blocks[pb.blockIndex]? = some block ∧ pb.retained = block.retainStorage
  | [], seen, pb, h => by cases h
  | run :: runs, seen, pb, h => by
    have hrest : ∀ seen', pb ∈ c.prefixBlocksOf runs seen' → ∃ r ∈ run :: runs,
        r.blockIndex = pb.blockIndex ∧ ∃ block, c.blocks[pb.blockIndex]? = some block ∧
          pb.retained = block.retainStorage := fun seen' hm => by
      obtain ⟨r, hr, hx⟩ := prefixBlocksOf_mem runs seen' pb hm
      exact ⟨r, List.mem_cons_of_mem _ hr, hx⟩
    unfold prefixBlocksOf at h
    split at h
    · exact hrest _ h
    · split at h
      · exact hrest _ h
      · split at h
        · exact hrest _ h
        · rename_i block hblock
          split at h
          · exact hrest _ h
          · rcases List.mem_cons.mp h with rfl | hm
            · exact ⟨run, List.mem_cons_self .., rfl, block, hblock, rfl⟩
            · exact hrest _ hm

/-- What each block to be put back has to be: a block of `src`. -/
def FromSource (src : LayerKvCache) (pb : LayerKvCachePrefixBlock) : Prop :=
  ∃ block, src.blocks[pb.blockIndex]? = some block ∧ pb.retained = block.retainStorage

/-- Block `i` after the retained blocks were put back: as it was, or the block
of the source. -/
theorem restoreBlocks_ok : ∀ (pbs : List LayerKvCachePrefixBlock) (c c' : LayerKvCache),
    (∀ pb ∈ pbs, FromSource src pb) → c.blockTable.blocks = c.blocks.map (·.id) →
    restoreBlocks pbs c = .ok c' →
    c' = { c with blockTable := c'.blockTable, blocks := c'.blocks } ∧
      c'.blockTable.blocks = c'.blocks.map (·.id) ∧ c'.blocks.length = c.blocks.length ∧
      ∀ i b, c'.blocks[i]? = some b → c.blocks[i]? = some b ∨
        ∃ pb ∈ pbs, pb.blockIndex = i ∧ ∃ block : CacheBlock, src.blocks[i]? = some block ∧
          b = block.reissued
  | [], c, c', _, ht, h => by
    cases h
    exact ⟨rfl, ht, rfl, fun i b hb => .inl hb⟩
  | pb :: pbs, c, c', hsrc, ht, h => by
    obtain ⟨block, hblock, hret⟩ := hsrc pb (List.mem_cons_self ..)
    unfold restoreBlocks at h
    rw [hret] at h
    simp only [bind_eq_ok] at h
    obtain ⟨b₁, hb₁, h⟩ := h
    obtain rfl := CacheBlock.fromRetained_retainStorage hb₁
    cases hold : c.blocks[pb.blockIndex]? with
    | none => simp [hold] at h
    | some old =>
      simp only [hold, throw_bind, guard_eq_ok, bind_eq_ok] at h
      obtain ⟨-, ⟨prev, t⟩, hrep, h⟩ := h
      have hlt := (List.getElem?_eq_some_iff.mp hold).1
      have htab : t.blocks = (c.blocks.set pb.blockIndex block.reissued).map (·.id) := by
        unfold BlockTable.replace at hrep
        split at hrep
        · cases hrep
        · split at hrep
          · cases hrep
          · cases hrep
            rw [ht, List.map_set]
      obtain ⟨h1, h2, h3, h4⟩ := restoreBlocks_ok pbs _ c'
        (fun pb' hpb' => hsrc pb' (List.mem_cons_of_mem _ hpb')) htab h
      refine ⟨h1, h2, h3.trans (by simp), fun i b hb => ?_⟩
      rcases h4 i b hb with hset | ⟨pb', hpb', hx⟩
      · change (c.blocks.set pb.blockIndex block.reissued)[i]? = some b at hset
        by_cases hi : i = pb.blockIndex
        · subst hi
          rw [List.getElem?_set_self hlt] at hset
          cases hset
          exact .inr ⟨pb, List.mem_cons_self .., rfl, block, hblock, rfl⟩
        · rw [List.getElem?_set_ne (Ne.symm hi)] at hset
          exact .inl hset
      · exact .inr ⟨pb', List.mem_cons_of_mem _ hpb', hx⟩

/-! ### The runs -/

theorem appendRuns_ok {n : ℕ} : ∀ (m i : ℕ) (s : LayerState), i + m = n → n ≤ s.cache.maxTokens →
    (∀ p, p < s.cache.maxTokens →
      ∃ b, s.cache.listedBlock (p / layerKvBlockTokens) = some b ∧
        (s.cache.blocks.map (·.id))[p / layerKvBlockTokens]? = some b.id) →
    RunsCover s.cache.activeBlockRuns (s.cache.blocks.map (·.id)) s.cache.maxTokens i
      s.cache.windowStart →
    ∃ runs, appendRuns (List.range' i m) s = .ok () ⟨{ s.cache with activeBlockRuns := runs }, s.rt⟩ ∧
      RunsCover runs (s.cache.blocks.map (·.id)) s.cache.maxTokens n s.cache.windowStart
  | 0, i, s, hn, _, _, h => by
    obtain rfl : i = n := by omega
    exact ⟨_, rfl, h⟩
  | m + 1, i, s, hn, hle, hlisted, h => by
    have hlt : ringSlot s.cache.windowStart i s.cache.maxTokens < s.cache.maxTokens :=
      ringSlot_lt (by omega)
    obtain ⟨b, hb, hid⟩ := hlisted _ hlt
    have hrun := appendActiveBlockRun_spec (n := i) hlt hb
    obtain ⟨runs, hruns, hcover⟩ := appendRuns_ok m (i + 1) ⟨{ s.cache with
      activeBlockRuns := extendRuns s.cache.activeBlockRuns {
        blockIndex := ringSlot s.cache.windowStart i s.cache.maxTokens / layerKvBlockTokens
        blockId := b.id, logicalTokenStart := i
        physicalTokenStart := ringSlot s.cache.windowStart i s.cache.maxTokens
        blockTokenStart := ringSlot s.cache.windowStart i s.cache.maxTokens % layerKvBlockTokens
        tokenCount := 1 } }, s.rt⟩ (by omega) hle hlisted (h.extend b.id (by omega) hid)
    refine ⟨runs, ?_, hcover⟩
    rw [List.range'_succ, appendRuns, bind_apply, getCache_apply]
    dsimp only
    rw [bind_apply, show (s.cache.windowStart + i) % s.cache.maxTokens =
      ringSlot s.cache.windowStart i s.cache.maxTokens from rfl, hrun]
    exact hruns

/-! ### The rings -/

/-- Slot `p` of the rings. -/
def stageRow (c : LayerKvCache) (p : ℕ) : Row :=
  (row c.keyStage c.vectorLen p, row c.valueStage c.vectorLen p)

/-- What a copy needs of the rings. -/
structure StageShape (c : LayerKvCache) : Prop where
  keys : c.keyStage.length = c.maxTokens * c.vectorLen
  values : c.valueStage.length = c.maxTokens * c.vectorLen
  stage_le : c.maxTokens * c.vectorLen ≤ vecF32Max
  rows : ∀ p r, c.slotRow p = some r → r.1.length = c.vectorLen ∧ r.2.length = c.vectorLen

/-- The cache with the row copied to slot `p`. -/
def withCopiedRow (c : LayerKvCache) (p : ℕ) (r : Row) : LayerKvCache :=
  { c with
    keyStage := splice c.keyStage (p * c.vectorLen) r.1
    valueStage := splice c.valueStage (p * c.vectorLen) r.2 }

theorem StageShape.withCopiedRow (h : StageShape c) {p : ℕ} {r : Row} (hp : p < c.maxTokens)
    (hk : r.1.length = c.vectorLen) (hv : r.2.length = c.vectorLen) :
    StageShape (c.withCopiedRow p r) ∧
      ∀ q, (c.withCopiedRow p r).stageRow q = if q = p then r else c.stageRow q := by
  have hend := row_end_le (v := c.vectorLen) hp
  refine ⟨⟨?_, ?_, h.stage_le, h.rows⟩, fun q => ?_⟩
  · exact (splice_length (by rw [hk, h.keys]; exact hend)).trans h.keys
  · exact (splice_length (by rw [hv, h.values]; exact hend)).trans h.values
  · change (row (splice c.keyStage _ _) c.vectorLen q, row (splice c.valueStage _ _) c.vectorLen q) = _
    by_cases hq : q = p
    · rw [if_pos hq, hq, row_splice_self h.keys hp hk, row_splice_self h.values hp hv]
    · rw [if_neg hq, row_splice_ne h.keys hp hk hq, row_splice_ne h.values hp hv hq]
      rfl

/-- The loop that fills the rings copies the rows of the blocks, and when it
succeeds it has found every one of them. -/
theorem copyRowsToStage_ok {n : ℕ} : ∀ (m i : ℕ) (s s' : LayerState), i + m = n →
    n ≤ s.cache.maxTokens → s.cache.windowStart < s.cache.maxTokens → StageShape s.cache →
    copyRowsToStage (List.range' i m) s = .ok () s' →
    s' = ⟨{ s.cache with
      keyStage := s'.cache.keyStage, valueStage := s'.cache.valueStage }, s.rt⟩ ∧
    StageShape s'.cache ∧
    (∀ j, i ≤ j → j < n → s.cache.slotRow (ringSlot s.cache.windowStart j s.cache.maxTokens) =
      some (s'.cache.stageRow (ringSlot s.cache.windowStart j s.cache.maxTokens))) ∧
    (∀ j, j < i → s'.cache.stageRow (ringSlot s.cache.windowStart j s.cache.maxTokens) =
      s.cache.stageRow (ringSlot s.cache.windowStart j s.cache.maxTokens))
  | 0, i, s, s', hn, _, _, hs, h => by
    cases h
    exact ⟨rfl, hs, fun j h1 h2 => by omega, fun j _ => rfl⟩
  | m + 1, i, s, s', hn, hle, hst, hs, h => by
    have hlt : ringSlot s.cache.windowStart i s.cache.maxTokens < s.cache.maxTokens :=
      ringSlot_lt (by omega)
    rw [List.range'_succ, copyRowsToStage, bind_apply, getCache_apply] at h
    dsimp only at h
    rw [show (s.cache.windowStart + i) % s.cache.maxTokens =
      ringSlot s.cache.windowStart i s.cache.maxTokens from rfl] at h
    obtain ⟨r, hr, h⟩ : ∃ r, s.cache.slotRow (ringSlot s.cache.windowStart i s.cache.maxTokens) =
        some r ∧ (do
          copyStageToken (ringSlot s.cache.windowStart i s.cache.maxTokens) r.1 r.2
          copyRowsToStage (List.range' (i + 1) m) : LayerM Unit) s = .ok () s' := by
      cases hb : s.cache.blocks[ringSlot s.cache.windowStart i s.cache.maxTokens /
          layerKvBlockTokens]? with
      | none => simp [hb] at h
      | some b =>
        cases hk : b.key (ringSlot s.cache.windowStart i s.cache.maxTokens % layerKvBlockTokens) with
        | none => simp [hb, hk] at h
        | some k =>
          cases hv : b.value (ringSlot s.cache.windowStart i s.cache.maxTokens %
              layerKvBlockTokens) with
          | none => simp [hb, hk, hv] at h
          | some v =>
            refine ⟨(k, v), by simp [slotRow, hb, hk, hv], ?_⟩
            simpa only [bind_apply, hb, hk, hv, okOr_some] using h
    obtain ⟨hkr, hvr⟩ := hs.rows _ r hr
    obtain ⟨hs₁, hrow₁⟩ := hs.withCopiedRow hlt hkr hvr
    rw [bind_apply, copyStageToken_spec hkr hvr hlt hs.keys hs.values hs.stage_le] at h
    obtain ⟨h1, h2, h3, h4⟩ := copyRowsToStage_ok m (i + 1) ⟨s.cache.withCopiedRow _ r, s.rt⟩ s'
      (by omega) hle hst hs₁ h
    have hold : ∀ j, j < i + 1 →
        s'.cache.stageRow (ringSlot s.cache.windowStart j s.cache.maxTokens) =
          (s.cache.withCopiedRow _ r).stageRow
            (ringSlot s.cache.windowStart j s.cache.maxTokens) := h4
    refine ⟨h1, h2, fun j hij hjn => ?_, fun j hj => ?_⟩
    · by_cases hji : j = i
      · rw [hji, hr, hold i (Nat.lt_succ_self i), hrow₁, if_pos rfl]
      · exact h3 j (by omega) hjn
    · rw [hold j (by omega), hrow₁, if_neg]
      intro he
      have := ringSlot_inj hst (by omega) (by omega) he
      omega

/-! ### The copies -/

/-- The int8 copy a block has to have. -/
def int8CopyOf (K : QuantKernels) (v : ℕ) (b : CacheBlock) : Option Int8KvBlock :=
  if b.tokenCount = 0 then none else some (int8BlockOf K b.keys b.values v)

/-- Rebuilding the int8 copies block by block copies every block. -/
theorem rebuildInt8Blocks_ok {blocks : List CacheBlock} {v : ℕ} (hv : 0 < v)
    (hblk : ∀ b ∈ blocks, b.keys.length = b.tokenCount * v ∧ b.values.length = b.tokenCount * v ∧
      AllFinite b.keys ∧ AllFinite b.values) :
    ∀ (m i : ℕ) (store : LayerInt8KvStore), i + m = blocks.length → store.vectorLen = v →
    store.blocks.length = blocks.length → (∀ j, i ≤ j → j < blocks.length →
      store.blocks[j]? = some none) →
    ∃ store', rebuildInt8Blocks K blocks (List.range' i m) store = .ok store' ∧
      store'.vectorLen = v ∧ store'.blocks.length = blocks.length ∧
      (∀ j, j < i → store'.blocks[j]? = store.blocks[j]?) ∧
      ∀ j, i ≤ j → store'.blocks[j]? = blocks[j]?.map (int8CopyOf K v)
  | 0, i, store, hn, hsv, hsl, _ => by
    refine ⟨store, rfl, hsv, hsl, fun _ _ => rfl, fun j hj => ?_⟩
    rw [List.getElem?_eq_none (by omega), List.getElem?_eq_none (by omega)]
    rfl
  | m + 1, i, store, hn, hsv, hsl, hnone => by
    have hi : i < blocks.length := by omega
    have hbi := List.getElem?_eq_getElem hi
    obtain ⟨hk, hval, hfk, hfv⟩ := hblk _ (List.getElem_mem hi)
    by_cases h0 : blocks[i].tokenCount = 0
    · obtain ⟨store', h1, h2, h3, h4, h5⟩ := rebuildInt8Blocks_ok hv hblk m (i + 1) store (by omega)
        hsv hsl fun j hj => hnone j (by omega)
      refine ⟨store', ?_, h2, h3, fun j hj => h4 j (by omega), fun j hj => ?_⟩
      · simp [List.range'_succ, rebuildInt8Blocks, hbi, h0, h1]
      · by_cases hji : j = i
        · rw [hji, h4 i (by omega), hnone i le_rfl hi, hbi, Option.map_some, int8CopyOf, if_pos h0]
        · exact h5 j (by omega)
    · have hpos := Nat.mul_pos (Nat.pos_of_ne_zero h0) hv
      have hup := LayerInt8KvStore.updateBlock_ok (K := K) (s := store) (i := i) (by omega)
        (hsv ▸ hv) (List.ne_nil_of_length_pos (hk ▸ hpos)) (hk.trans hval.symm)
        (by rw [hk, hsv, Nat.mul_mod_left]) hfk hfv
      obtain ⟨store', h1, h2, h3, h4, h5⟩ := rebuildInt8Blocks_ok hv hblk m (i + 1)
        ⟨store.vectorLen, store.blocks.set i
          (some (int8BlockOf K blocks[i].keys blocks[i].values store.vectorLen))⟩ (by omega)
        hsv (by rw [List.length_set]; exact hsl) fun j hj hjn => by
          rw [List.getElem?_set_ne (by omega)]
          exact hnone j (by omega) hjn
      refine ⟨store', ?_, h2, h3, fun j hj => ?_, fun j hj => ?_⟩
      · simp [List.range'_succ, rebuildInt8Blocks, hbi, h0, hup, h1]
      · rw [h4 j (by omega)]
        exact List.getElem?_set_ne (by omega)
      · by_cases hji : j = i
        · rw [hji, h4 i (by omega), hbi, Option.map_some, int8CopyOf, if_neg h0, ← hsv]
          exact List.getElem?_set_self (by omega)
        · exact h5 j (by omega)

theorem rebuildInt8Storage_ok (hv : 0 < s.cache.vectorLen)
    (hblk : ∀ b ∈ s.cache.blocks, b.keys.length = b.tokenCount * s.cache.vectorLen ∧
      b.values.length = b.tokenCount * s.cache.vectorLen ∧
      (s.cache.int8Storage.isSome → AllFinite b.keys ∧ AllFinite b.values))
    (hst : ∀ st, s.cache.int8Storage = some st → st.vectorLen = s.cache.vectorLen ∧
      st.blocks.length = s.cache.blocks.length) :
    ∃ o, rebuildInt8Storage K s = .ok () ⟨{ s.cache with int8Storage := o }, s.rt⟩ ∧
      (o.isSome ↔ s.cache.int8Storage.isSome) ∧
      ∀ st, o = some st → st.vectorLen = s.cache.vectorLen ∧
        st.blocks = s.cache.blocks.map (int8CopyOf K s.cache.vectorLen) := by
  cases hi : s.cache.int8Storage with
  | none =>
    have hs : s = ⟨{ s.cache with int8Storage := none }, s.rt⟩ := by rw [← hi]
    exact ⟨none, by simp [rebuildInt8Storage, hi, ← hs], Iff.rfl, fun st h => by cases h⟩
  | some st =>
    obtain ⟨hsv, hsl⟩ := hst st hi
    obtain ⟨store', h1, h2, h3, -, h5⟩ := rebuildInt8Blocks_ok (K := K) hv
      (fun b hb => ⟨(hblk b hb).1, (hblk b hb).2.1, (hblk b hb).2.2 (by rw [hi]; rfl)⟩)
      s.cache.blocks.length 0 st.clear (by omega) hsv (by simpa [LayerInt8KvStore.clear] using hsl)
      fun j _ hj => by
        rw [LayerInt8KvStore.clear, List.getElem?_map, List.getElem?_eq_getElem (by omega)]
        rfl
    refine ⟨some store', ?_, by simp, fun st' hst' => ?_⟩
    · simp [rebuildInt8Storage, hi, List.range_eq_range', h1]
    · cases hst'
      refine ⟨h2, List.ext_getElem? fun j => ?_⟩
      rw [h5 j (Nat.zero_le j), List.getElem?_map]

theorem rebuildQuantizedBlocks_ok {blocks : List CacheBlock} :
    ∀ (is : List ℕ) (store store' : LayerQuantizedValueStore),
    rebuildQuantizedBlocks K blocks is store = .ok store' →
    store'.vectorLen = store.vectorLen ∧ store'.blocks.length = store.blocks.length
  | [], store, store', h => by
    cases h
    exact ⟨rfl, rfl⟩
  | i :: is, store, store', h => by
    unfold rebuildQuantizedBlocks at h
    cases hb : blocks[i]? with
    | none => simp [hb] at h
    | some b =>
      simp only [hb] at h
      split at h
      · exact rebuildQuantizedBlocks_ok is store store' h
      · simp only [bind_eq_ok, LayerQuantizedValueStore.updateBlock, throw_bind, guard_eq_ok,
          pure_eq_ok] at h
        obtain ⟨store₁, ⟨-, vb, -, rfl⟩, h⟩ := h
        obtain ⟨h1, h2⟩ := rebuildQuantizedBlocks_ok is _ store' h
        exact ⟨h1, h2.trans (List.length_set ..)⟩

theorem rebuildQuantizedValues_ok (h : rebuildQuantizedValues K s = .ok () s') :
    s' = ⟨{ s.cache with quantizedValues := s'.cache.quantizedValues }, s.rt⟩ ∧
      (s'.cache.quantizedValues.isSome ↔ s.cache.quantizedValues.isSome) ∧
      ∀ st', s'.cache.quantizedValues = some st' → ∃ st, s.cache.quantizedValues = some st ∧
        st'.vectorLen = st.vectorLen ∧ st'.blocks.length = st.blocks.length := by
  cases hq : s.cache.quantizedValues with
  | none =>
    simp only [rebuildQuantizedValues, bind_apply, getCache_apply, hq, pure_apply] at h
    cases h
    exact ⟨rfl, by rw [hq], fun st' hst' => by rw [hq] at hst'; cases hst'⟩
  | some st =>
    simp only [rebuildQuantizedValues, bind_apply, getCache_apply, hq] at h
    cases hr : rebuildQuantizedBlocks K s.cache.blocks (List.range s.cache.blocks.length)
        st.clear with
    | error e => simp [hr] at h
    | ok store' =>
      simp only [hr, ofResult_ok, modifyCache_apply] at h
      cases h
      obtain ⟨h1, h2⟩ := rebuildQuantizedBlocks_ok _ _ _ hr
      refine ⟨rfl, by simp, fun st' hst' => ⟨st, rfl, ?_⟩⟩
      cases hst'
      exact ⟨h1, h2.trans (by simp [LayerQuantizedValueStore.clear])⟩

/-! ### The restored cache -/

/-- Block `i` is the source's block, issued again from the prefix state. -/
def ReissuedFrom (src : LayerKvCache) (i : ℕ) (b : CacheBlock) : Prop :=
  ∃ block : CacheBlock, src.blocks[i]? = some block ∧ b = block.reissued ∧
    ∃ pb ∈ src.prefixCacheState.blocks, pb.retained = block.retainStorage

/-- The blocks of a cache that is being restored: new ones, and the source's. -/
structure RestoredBlocks (src : LayerKvCache) (rt : Statics) (c : LayerKvCache) : Prop where
  max_eq : c.maxTokens = src.maxTokens
  vec_eq : c.vectorLen = src.vectorLen
  table : c.blockTable.blocks = c.blocks.map (·.id)
  length : c.blocks.length = blockCount src.maxTokens
  origin : ∀ i b, c.blocks[i]? = some b → NewBlock b (rt.nextBlockId + i)
    (min layerKvBlockTokens (src.maxTokens - layerKvBlockTokens * i)) src.vectorLen ∨
    ReissuedFrom src i b

theorem Layout.slotRow_length (h : Layout c) {p : ℕ} {r : Row} (hr : c.slotRow p = some r) :
    r.1.length = c.vectorLen ∧ r.2.length = c.vectorLen := by
  obtain ⟨b, hb, hk, hv⟩ := slotRow_eq_some hr
  have hs := h.block _ _ hb
  simp only [CacheBlock.key, CacheBlock.value, CacheBlock.tokenSlice] at hk hv
  split at hk
  · cases hk
  · rename_i hlt
    have hcap : p % layerKvBlockTokens < b.capacityTokens := by
      have := hs.tokenCount
      omega
    rw [if_neg hlt, Option.some.injEq] at hv
    rw [Option.some.injEq] at hk
    rw [← hk, ← hv, row_length hs.keys_length hcap, row_length hs.values_length hcap]
    exact ⟨hs.vectorLen, hs.vectorLen⟩

/-- The slots in use are the slots of the window. -/
theorem Layout.exists_ringSlot (h : Layout c) {p : ℕ} (hp : p < c.tokenCount) :
    ∃ i, i < c.tokenCount ∧ ringSlot c.windowStart i c.maxTokens = p := by
  have hst := h.start_lt
  have hle := h.count_le
  by_cases hfull : c.tokenCount < c.maxTokens
  · refine ⟨p, hp, ?_⟩
    rw [h.start_zero hfull]
    exact ringSlot_zero_start (by omega)
  · by_cases hge : c.windowStart ≤ p
    · refine ⟨p - c.windowStart, by omega, ?_⟩
      rw [ringSlot_eq hst (by omega), if_pos (by omega)]
      omega
    · refine ⟨p + c.maxTokens - c.windowStart, by omega, ?_⟩
      rw [ringSlot_eq hst (by omega), if_neg (by omega)]
      omega

/-- A row that can be read was restored, and is the source's row. -/
theorem RestoredBlocks.slotRow (h : RestoredBlocks src rt c) {p : ℕ} {r : Row}
    (hr : c.slotRow p = some r) : src.slotRow p = some r := by
  obtain ⟨b, hb, hk, hv⟩ := slotRow_eq_some hr
  rcases h.origin _ b hb with hnew | ⟨block, hblock, rfl, -⟩
  · simp [CacheBlock.key, CacheBlock.tokenSlice, hnew.tokenCount] at hk
  · have hk' : block.key (p % layerKvBlockTokens) = some r.1 := hk
    have hv' : block.value (p % layerKvBlockTokens) = some r.2 := hv
    simp [LayerKvCache.slotRow, hblock, hk', hv']

/-- When every row of the window can be read, the blocks have the shape of the
source's. -/
theorem RestoredBlocks.blockShape (h : RestoredBlocks src rt c) (hsrc : Layout src)
    (hcount : c.tokenCount = src.tokenCount)
    (hfound : ∀ i, i < src.tokenCount →
      ∃ r, c.slotRow (ringSlot src.windowStart i src.maxTokens) = some r)
    {i : ℕ} {b : CacheBlock} (hb : c.blocks[i]? = some b) : c.BlockShape i b := by
  rcases h.origin i b hb with hnew | ⟨block, hblock, rfl, -⟩
  · -- a new block has no rows, so none of its slots is in use
    have hunused : src.tokenCount ≤ layerKvBlockTokens * i := by
      by_contra hlt
      obtain ⟨j, hj, hslot⟩ := hsrc.exists_ringSlot (p := layerKvBlockTokens * i) (by omega)
      obtain ⟨r, hr⟩ := hfound j hj
      obtain ⟨b', hb', hk, -⟩ := slotRow_eq_some hr
      rw [hslot, Nat.mul_div_cancel_left i (by decide), hb] at hb'
      cases hb'
      simp [CacheBlock.key, CacheBlock.tokenSlice, hnew.tokenCount] at hk
    refine ⟨?_, hnew.vectorLen.trans h.vec_eq.symm, by rw [h.max_eq]; exact hnew.capacityTokens, ?_,
      ?_, ?_⟩
    · rw [hnew.id]
      exact Nat.ne_of_gt (Nat.add_pos_left rt.nextBlockId_pos i)
    · rw [hnew.tokenCount, hcount]
      omega
    · rw [hnew.storage, hnew.capacityTokens, hnew.vectorLen, CacheBlockStorage.new,
        List.length_replicate]
    · rw [hnew.storage, hnew.capacityTokens, hnew.vectorLen, CacheBlockStorage.new,
        List.length_replicate]
  · obtain ⟨h1, h2, h3, h4, h5, h6⟩ := hsrc.block i block hblock
    exact ⟨h1, h2.trans h.vec_eq.symm, by rw [h.max_eq]; exact h3, by rw [hcount]; exact h4, h5, h6⟩

theorem RestoredBlocks.listed (h : RestoredBlocks src rt c) {p : ℕ} (hp : p < c.maxTokens) :
    ∃ b, c.listedBlock (p / layerKvBlockTokens) = some b ∧
      (c.blocks.map (·.id))[p / layerKvBlockTokens]? = some b.id := by
  have hlt : p / layerKvBlockTokens < c.blocks.length := by
    rw [h.length, ← h.max_eq]
    unfold blockCount layerKvBlockTokens
    omega
  have hb := List.getElem?_eq_getElem hlt
  have hid : (c.blocks.map (·.id))[p / layerKvBlockTokens]? =
      some (c.blocks[p / layerKvBlockTokens]).id := by
    rw [List.getElem?_map, hb]
    rfl
  refine ⟨_, ?_, hid⟩
  have htab : c.blockTable.get (p / layerKvBlockTokens) =
      some (c.blocks[p / layerKvBlockTokens]).id := by
    rw [BlockTable.get, h.table]
    exact hid
  simp [listedBlock, htab, hb]

/-- What a restore made of the blocks of a source. -/
structure Restored (src : LayerKvCache) (rt : Statics) (s : LayerState) : Prop where
  blocks : RestoredBlocks src rt s.cache
  nextBlockId : s.rt.nextBlockId = rt.nextBlockId + s.cache.blocks.length
  revision : s.cache.revision = src.revision
  tokensSeen : s.cache.tokensSeen = src.tokensSeen

theorem finish_ok {m : LayerM Unit} (h : finish m s = .ok s') : m s = .ok () s' := by
  unfold finish at h
  split at h
  · rename_i heq
    cases h
    exact heq
  · cases h

theorem new_restoredBlocks {c₀ c₁ : LayerKvCache} {rt₀ : Statics}
    (hnew : newWithConfig src.maxTokens src.keyValueHeads src.headDim src.config rt = .ok (c₀, rt₀))
    (hres : restoreBlocks src.prefixCacheState.blocks c₀ = .ok c₁) :
    RestoredBlocks src rt c₁ ∧ c₁ = { c₀ with blockTable := c₁.blockTable, blocks := c₁.blocks } := by
  have hn := newWithConfig_ok hnew
  have hmem : ∀ pb ∈ src.prefixCacheState.blocks, FromSource src pb := fun pb hpb => by
    obtain ⟨-, -, -, hx⟩ := prefixBlocksOf_mem _ _ pb hpb
    exact hx
  obtain ⟨h1, h2, h3, h4⟩ := restoreBlocks_ok _ _ _ hmem hn.table hres
  refine ⟨⟨?_, ?_, h2, h3.trans hn.blocks_length, fun i b hb => ?_⟩, h1⟩
  · rw [h1, hn.cache]
  · rw [h1]
    exact hn.vectorLen
  · rcases h4 i b hb with h0 | ⟨pb, hpb, rfl, block, hblock, rfl⟩
    · exact .inl (hn.block i b h0)
    · refine .inr ⟨block, hblock, rfl, pb, hpb, ?_⟩
      obtain ⟨block', hblock', hret⟩ := hmem pb hpb
      rw [hblock] at hblock'
      cases hblock'
      exact hret

/-- A cache whose blocks are in place, before the runs, the rings and the copies
are rebuilt. -/
structure Refilled (src : LayerKvCache) (rt : Statics) (c : LayerKvCache) : Prop
    extends RestoredBlocks src rt c where
  count_eq : c.tokenCount = src.tokenCount
  start_eq : c.windowStart = src.windowStart
  config_eq : c.config = src.config
  keyStage_length : c.keyStage.length = c.maxTokens * c.vectorLen
  valueStage_length : c.valueStage.length = c.maxTokens * c.vectorLen
  int8_iff : c.int8Storage.isSome ↔ c.config.format = .int8
  vq_iff : c.quantizedValues.isSome ↔ c.config.asymmetricVq.isSome
  int8 : ∀ st, c.int8Storage = some st → st.vectorLen = c.vectorLen ∧
    st.blocks.length = c.blocks.length
  vq : ∀ st, c.quantizedValues = some st → st.vectorLen = c.vectorLen ∧
    st.blocks.length = c.blocks.length

/-- A restored block is finite where the source kept copies. -/
theorem Refilled.finite (h : Refilled src rt c) (hsrc : Compressed K src)
    (hor : c.int8Storage.isSome ∨ c.quantizedValues.isSome) {b : CacheBlock} (hb : b ∈ c.blocks) :
    AllFinite b.keys ∧ AllFinite b.values := by
  obtain ⟨i, hi⟩ := List.mem_iff_getElem?.mp hb
  rcases h.origin i b hi with hnew | ⟨block, hblock, rfl, -⟩
  · have h0 : b.keys = [] ∧ b.values = [] :=
      ⟨by simp [CacheBlock.keys, CacheBlock.usedLen, hnew.tokenCount],
        by simp [CacheBlock.values, CacheBlock.usedLen, hnew.tokenCount]⟩
    rw [h0.1, h0.2]
    exact ⟨by simp [AllFinite], by simp [AllFinite]⟩
  · rw [h.int8_iff, h.vq_iff, h.config_eq, ← hsrc.int8_iff, ← hsrc.vq_iff] at hor
    exact hsrc.finite hor block (List.mem_of_getElem? hblock)

theorem BlockShape.used_length {i : ℕ} {b : CacheBlock} (h : c.BlockShape i b) :
    b.keys.length = b.tokenCount * c.vectorLen ∧ b.values.length = b.tokenCount * c.vectorLen := by
  have hle : b.tokenCount * b.vectorLen ≤ b.capacityTokens * b.vectorLen := by
    refine Nat.mul_le_mul_right _ ?_
    rw [h.tokenCount]
    exact Nat.min_le_left _ _
  rw [CacheBlock.keys, CacheBlock.values, List.length_take, List.length_take, h.keys_length,
    h.values_length, CacheBlock.usedLen, Nat.min_eq_left hle, h.vectorLen]
  exact ⟨rfl, rfl⟩

/-- With the runs, the rings and the copies in place too, the cache holds the
source's window. -/
theorem Refilled.window (h : Refilled src rt c) (hsrc : Window K src W)
    (hruns : RunsCover c.activeBlockRuns (c.blocks.map (·.id)) c.maxTokens c.tokenCount
      c.windowStart)
    (hread : ∀ j, j < src.tokenCount → c.slotRow (ringSlot src.windowStart j src.maxTokens) =
      some (c.stageRow (ringSlot src.windowStart j src.maxTokens)))
    (hcopies : ∀ st, c.int8Storage = some st →
      st.blocks = c.blocks.map (int8CopyOf K c.vectorLen))
    (hkey : c.keyContiguousView = none) (hvalue : c.valueContiguousView = none) : Window K c W := by
  have hrow : ∀ i r, W[i]? = some r →
      c.stageRow (ringSlot src.windowStart i src.maxTokens) = r := fun i r hr => by
    have hi : i < src.tokenCount := by
      rw [← hsrc.length]
      exact (List.getElem?_eq_some_iff.mp hr).1
    have h1 := h.toRestoredBlocks.slotRow (hread i hi)
    rw [hsrc.slotRow_some hr] at h1
    exact (Option.some.inj h1).symm
  refine {
    max_pos := by rw [h.max_eq]; exact hsrc.max_pos
    vec_pos := by rw [h.vec_eq]; exact hsrc.vec_pos
    stage_le := by rw [h.max_eq, h.vec_eq]; exact hsrc.stage_le
    count_le := by rw [h.count_eq, h.max_eq]; exact hsrc.count_le
    start_lt := by rw [h.start_eq, h.max_eq]; exact hsrc.start_lt
    start_zero := by rw [h.count_eq, h.start_eq, h.max_eq]; exact hsrc.start_zero
    table := h.table
    blocks_length := by rw [h.max_eq]; exact h.length
    block := fun i b => h.toRestoredBlocks.blockShape hsrc.toLayout h.count_eq
      fun j hj => ⟨_, hread j hj⟩
    keyStage_length := h.keyStage_length
    valueStage_length := h.valueStage_length
    runs := hruns
    int8_iff := h.int8_iff
    vq_iff := h.vq_iff
    finite := fun hor b => h.finite hsrc.toCompressed hor
    int8 := fun st hst => ⟨(h.int8 st hst).1, hcopies st hst⟩
    vq := h.vq
    length := by rw [h.count_eq]; exact hsrc.length
    slots := fun i hi => ?_
    stage := fun i r hr => ?_
    keyView := fun v hv => by rw [hkey] at hv; cases hv
    valueView := fun v hv => by rw [hvalue] at hv; cases hv }
  · rw [h.count_eq, ← hsrc.length] at hi
    have hr := List.getElem?_eq_getElem hi
    rw [h.start_eq, h.max_eq, hread i (by rw [← hsrc.length]; exact hi), hrow i _ hr, hr]
  · rw [h.start_eq, h.max_eq]
    have hst := hrow i r hr
    exact ⟨congrArg Prod.fst hst, congrArg Prod.snd hst⟩

/-- Rebuilding the runs, the rings and the copies gives the source's window. -/
theorem Refilled.rebuild (h : Refilled src rt c) (hsrc : Window K src W)
    (hok : (do rebuildActiveBlockRunsFromTokens; rebuildStageFromBlocks K : LayerM Unit) ⟨c, rt'⟩ =
      .ok () s) :
    Window K s.cache W ∧ s.rt = rt' ∧ s.cache = { c with
      activeBlockRuns := s.cache.activeBlockRuns, keyStage := s.cache.keyStage
      valueStage := s.cache.valueStage, keyContiguousView := none, valueContiguousView := none
      int8Storage := s.cache.int8Storage, quantizedValues := s.cache.quantizedValues } := by
  have hmax := hsrc.max_pos
  have hst : c.windowStart < c.maxTokens := by
    rw [h.start_eq, h.max_eq]
    exact hsrc.start_lt
  have hcap : c.tokenCount ≤ c.maxTokens := by
    rw [h.count_eq, h.max_eq]
    exact hsrc.count_le
  -- the runs
  obtain ⟨runs, hruns, hcover⟩ := appendRuns_ok c.tokenCount 0
    ⟨{ c with activeBlockRuns := [] }, rt'⟩ (Nat.zero_add _) hcap (fun p => h.listed)
    (RunsCover.empty _ _ _)
  rw [bind_apply_eq_ok] at hok
  obtain ⟨_, s₀, hr, hok⟩ := hok
  simp only [rebuildActiveBlockRunsFromTokens, bind_apply, modifyCache_apply, getCache_apply,
    List.range_eq_range', hruns] at hr
  cases hr
  simp only [rebuildStageFromBlocks, bind_apply_eq_ok, modifyCache_apply, getCache_apply,
    List.range_eq_range'] at hok
  obtain ⟨_, s₀, hmod, _, s₀', hget, _, s₁, hcopy, _, s₂, hint8, hvq⟩ := hok
  cases hmod
  cases hget
  -- the rings
  have hrows : ∀ p r, c.slotRow p = some r → r.1.length = c.vectorLen ∧ r.2.length = c.vectorLen :=
    fun p r hr => by
      rw [h.vec_eq]
      exact hsrc.toLayout.slotRow_length (h.slotRow hr)
  obtain ⟨hs₁, hshape, hfound, -⟩ := copyRowsToStage_ok c.tokenCount 0 _ s₁ (Nat.zero_add _) hcap hst
    ⟨(List.length_replicate).trans h.keyStage_length,
      (List.length_replicate).trans h.valueStage_length,
      (by rw [h.vec_eq, h.max_eq]; exact hsrc.stage_le : c.maxTokens * c.vectorLen ≤ vecF32Max),
      hrows⟩ hcopy
  have hread : ∀ j, j < src.tokenCount →
      c.slotRow (ringSlot src.windowStart j src.maxTokens) =
        some (s₁.cache.stageRow (ringSlot src.windowStart j src.maxTokens)) := fun j hj => by
    rw [← h.start_eq, ← h.max_eq]
    exact hfound j (Nat.zero_le j) (by rw [h.count_eq]; exact hj)
  have hf₁ : s₁.cache = { c with
      activeBlockRuns := runs, keyStage := s₁.cache.keyStage, valueStage := s₁.cache.valueStage
      keyContiguousView := none, valueContiguousView := none } := by
    rw [hs₁]
    rfl
  have hshapes : ∀ i b, c.blocks[i]? = some b → c.BlockShape i b := fun i b =>
    h.toRestoredBlocks.blockShape hsrc.toLayout h.count_eq fun j hj => ⟨_, hread j hj⟩
  have hvec : s₁.cache.vectorLen = c.vectorLen := by
    rw [hf₁]
    rfl
  -- the copies
  obtain ⟨o, ho, hiff, hcopies⟩ := rebuildInt8Storage_ok (K := K) (s := s₁)
    (by rw [hvec, h.vec_eq]; exact hsrc.vec_pos)
    (fun b hb => by
      rw [hf₁] at hb
      obtain ⟨i, hi⟩ := List.mem_iff_getElem?.mp hb
      obtain ⟨hk, hv⟩ := (hshapes i b hi).used_length
      refine ⟨by rw [hvec]; exact hk, by rw [hvec]; exact hv, fun hsome => ?_⟩
      rw [hf₁] at hsome
      exact h.finite hsrc.toCompressed (.inl hsome) hb)
    (by rw [hf₁]; exact h.int8)
  rw [ho] at hint8
  cases hint8
  obtain ⟨hs, hqiff, hq⟩ := rebuildQuantizedValues_ok hvq
  have hf : s.cache = { c with
      activeBlockRuns := runs, keyStage := s₁.cache.keyStage, valueStage := s₁.cache.valueStage
      keyContiguousView := none, valueContiguousView := none
      int8Storage := o, quantizedValues := s.cache.quantizedValues } := by
    rw [hs]
    dsimp only
    rw [hf₁]
  have hmax₁ : s₁.cache.maxTokens = c.maxTokens := by rw [hf₁]
  have hblocks₁ : s₁.cache.blocks = c.blocks := by rw [hf₁]
  have hi₁ : s₁.cache.int8Storage = c.int8Storage := by rw [hf₁]
  have hq₁ : s₁.cache.quantizedValues = c.quantizedValues := by rw [hf₁]
  rw [hi₁] at hiff
  rw [hblocks₁, hvec] at hcopies
  simp only [hq₁] at hqiff hq
  have hkl := hshape.keys
  have hvl := hshape.values
  rw [hvec, hmax₁] at hkl hvl
  have href : Refilled src rt s.cache := by
    rw [hf]
    refine ⟨⟨h.max_eq, h.vec_eq, h.table, h.length, h.origin⟩, h.count_eq, h.start_eq, h.config_eq,
      hkl, hvl, hiff.trans h.int8_iff, hqiff.trans h.vq_iff, fun st hst => ?_, fun st hst => ?_⟩
    · obtain ⟨h1, h2⟩ := hcopies st hst
      exact ⟨h1, by rw [h2, List.length_map]⟩
    · obtain ⟨st₀, hst₀, h1, h2⟩ := hq st hst
      exact ⟨h1.trans (h.vq st₀ hst₀).1, h2.trans (h.vq st₀ hst₀).2⟩
  refine ⟨href.window hsrc ?_ (fun j hj => ?_) ?_ (by rw [hf]) (by rw [hf]), ?_, ?_⟩
  · rw [hf]
    exact hcover
  · have hr := hread j hj
    rw [stageRow, hvec] at hr
    rw [hf]
    exact hr
  · rw [hf]
    exact fun st hst => (hcopies st hst).2
  · rw [hs]
    dsimp only
    rw [hs₁]
  · rw [hf]

/-- The new cache with the source's blocks and counts in place. -/
theorem new_refilled {c₀ c₁ : LayerKvCache} {rt₀ : Statics}
    (hnew : newWithConfig src.maxTokens src.keyValueHeads src.headDim src.config rt = .ok (c₀, rt₀))
    (hres : restoreBlocks src.prefixCacheState.blocks c₀ = .ok c₁) :
    Refilled src rt { c₁ with
      revision := src.revision, tokenCount := src.tokenCount, tokensSeen := src.tokensSeen
      windowStart := src.windowStart } := by
  have hn := newWithConfig_ok hnew
  obtain ⟨hrb, hc₁⟩ := new_restoredBlocks hnew hres
  have hcfg : c₁.config = src.config := by rw [hc₁, hn.cache]
  have hi8 : c₁.int8Storage = c₀.int8Storage := by rw [hc₁]
  have hvq : c₁.quantizedValues = c₀.quantizedValues := by rw [hc₁]
  have hstage : c₁.keyStage.length = c₁.maxTokens * c₁.vectorLen := by
    rw [hrb.max_eq, hrb.vec_eq, hc₁, hn.cache]
    exact List.length_replicate
  have hvstage : c₁.valueStage.length = c₁.maxTokens * c₁.vectorLen := by
    rw [hrb.max_eq, hrb.vec_eq, hc₁, hn.cache]
    exact List.length_replicate
  refine ⟨⟨hrb.max_eq, hrb.vec_eq, hrb.table, hrb.length, hrb.origin⟩, rfl, rfl, hcfg, ?_, ?_, ?_,
    ?_, fun st hst => ?_, fun st hst => ?_⟩
  · exact hstage
  · exact hvstage
  · rw [hi8, hcfg]
    exact hn.int8_iff
  · rw [hvq, hcfg]
    exact hn.vq_iff
  · obtain ⟨h1, h2⟩ := hn.int8 st (hi8.symm.trans hst)
    exact ⟨h1.trans hrb.vec_eq.symm, by rw [h2, List.length_replicate]; exact hrb.length.symm⟩
  · obtain ⟨h1, h2⟩ := hn.vq st (hvq.symm.trans hst)
    exact ⟨h1.trans hrb.vec_eq.symm, by rw [h2, List.length_replicate]; exact hrb.length.symm⟩

/-- A restore that succeeds gives a cache with the source's window and shape. -/
theorem fromPrefixCacheState_ok (hsrc : Window K src W)
    (h : fromPrefixCacheState K src.prefixCacheState rt = .ok s) :
    Window K s.cache W ∧ Restored src rt s ∧ s.cache.config = src.config ∧
      s.cache.keyValueHeads = src.keyValueHeads ∧ s.cache.headDim = src.headDim := by
  unfold fromPrefixCacheState at h
  simp only [throw_bind, guard_eq_ok, bind_eq_ok] at h
  obtain ⟨-, ⟨c₀, rt₀⟩, hnew, c₁, hres, hfin⟩ := h
  have hn := newWithConfig_ok hnew
  obtain ⟨hrb, hc₁⟩ := new_restoredBlocks hnew hres
  obtain ⟨hw, hrt, hf⟩ := (new_refilled hnew hres).rebuild hsrc (finish_ok hfin)
  refine ⟨hw, ⟨?_, ?_, ?_, ?_⟩, ?_, ?_, ?_⟩
  · rw [hf]
    exact ⟨hrb.max_eq, hrb.vec_eq, hrb.table, hrb.length, hrb.origin⟩
  · have hlen : c₀.blocks.length = s.cache.blocks.length := by
      rw [hf]
      exact hn.blocks_length.trans hrb.length.symm
    rw [hrt, ← hlen]
    exact hn.nextBlockId
  · rw [hf]
  · rw [hf]
  · rw [hf]
    exact (new_refilled hnew hres).config_eq
  · rw [hf, hc₁, hn.cache]
    rfl
  · rw [hf, hc₁, hn.cache]
    rfl

/-! ### Snapshots -/

theorem chunksExact_flatMap {α : Type} {l : List α} {g : α → List F32} {v : ℕ} (hv : 0 < v)
    (hg : ∀ a ∈ l, (g a).length = v) : chunksExact (l.flatMap g) v = l.map g :=
  chunks_flatMap hv hg

theorem appendSnapshotRows_ok : ∀ {rs : List Row} {W : List Row} {s : LayerState},
    Window K s.cache W → appendSnapshotRows K rs s = .ok () s' →
    Window K s'.cache (W ++ rs) ∧ s'.cache.maxTokens = s.cache.maxTokens
  | [], W, s, h, hok => by
    cases hok
    rw [List.append_nil]
    exact ⟨h, rfl⟩
  | r :: rs, W, s, h, hok => by
    obtain ⟨m, s₁, h1, h2⟩ := bind_apply_eq_ok.mp hok
    obtain ⟨ha, -⟩ := appendWithMetadata_ok h h1
    have hmax : s₁.cache.maxTokens = s.cache.maxTokens := by
      obtain ⟨-, -, -, b, b', -, -, -, -, hs'⟩ := ha
      rw [hs']
      rfl
    obtain ⟨hw, hm⟩ := appendSnapshotRows_ok (h.appended ha) h2
    rw [List.append_assoc] at hw
    exact ⟨hw, hm.trans hmax⟩

theorem Window.row_length (h : Window K c W) {r : Row} (hr : r ∈ W) :
    r.1.length = c.vectorLen ∧ r.2.length = c.vectorLen := by
  obtain ⟨i, hi⟩ := List.mem_iff_getElem?.mp hr
  exact h.toLayout.slotRow_length (h.slotRow_some hi)

/-- The window does not depend on the counts that a snapshot sets at the end. -/
theorem Window.withSeen (h : Window K c W) (revision tokensSeen : ℕ) :
    Window K { c with revision, tokensSeen } W where
  toLayout := ⟨h.max_pos, h.vec_pos, h.stage_le, h.count_le, h.start_lt, h.start_zero, h.table,
    h.blocks_length, fun i b hb => ⟨(h.block i b hb).id, (h.block i b hb).vectorLen,
      (h.block i b hb).capacityTokens, (h.block i b hb).tokenCount, (h.block i b hb).keys_length,
      (h.block i b hb).values_length⟩, h.keyStage_length, h.valueStage_length, h.runs⟩
  toCompressed := ⟨h.int8_iff, h.vq_iff, h.finite, h.int8, h.vq⟩
  length := h.length
  slots := h.slots
  stage := h.stage
  keyView := h.keyView
  valueView := h.valueView

/-- A snapshot that is read back holds the window it was taken of, from slot 0
on. -/
theorem fromSnapshot_ok (hsrc : Window K src W) (h : fromSnapshot K src.snapshot rt = .ok s) :
    Window K s.cache W ∧ s.cache.maxTokens = src.maxTokens ∧
      s.cache.tokensSeen = src.tokensSeen := by
  unfold fromSnapshot at h
  simp only [throw_bind, guard_eq_ok, bind_eq_ok] at h
  obtain ⟨-, ⟨c₀, rt₀⟩, hnew, h⟩ := h
  have hn := newWithConfig_ok hnew
  have hvec : c₀.vectorLen = src.vectorLen := by
    rw [hn.cache]
    rfl
  have hmax : c₀.maxTokens = src.maxTokens := by
    rw [hn.cache]
    rfl
  dsimp only at h
  split at h
  · simp only [guard_eq_ok, bind_eq_ok, pure_eq_ok] at h
    obtain ⟨-, -, s₁, hfin, rfl⟩ := h
    have hrows : (chunksExact src.snapshot.keys c₀.vectorLen).zip
        (chunksExact src.snapshot.values c₀.vectorLen) = W := by
      rw [hvec, snapshot, hsrc.keys, hsrc.values,
        chunksExact_flatMap hsrc.vec_pos fun r hr => (hsrc.row_length hr).1,
        chunksExact_flatMap hsrc.vec_pos fun r hr => (hsrc.row_length hr).2, List.zip_map', List.map_id']
    rw [hrows] at hfin
    obtain ⟨hw, hm⟩ := appendSnapshotRows_ok (W := []) hn.window (finish_ok hfin)
    rw [List.nil_append] at hw
    exact ⟨hw.withSeen _ _, hm.trans hmax, rfl⟩
  · cases h

end LayerKvCache
end KirAi.KvCache
