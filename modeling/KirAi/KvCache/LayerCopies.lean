/-
# The quantized values of a layer are made of its rows

A layer with asymmetric value quantization keeps quantized values beside its
rows, block by block. `VqCopies` says that the copy of every block is what its
values are quantized to now. Writes make the copy of the block they touch again,
a clear drops all copies, and a restore makes all of them, so the copies are
right in every state (`Reach.vqCopies`), and they depend on the rows only.

Key definitions: `vqCopyOf`, `LayerKvCache.VqCopies`.
Key theorems: `rebuildQuantizedBlocks_copies`, `Reach.vqCopies`.
-/
import KirAi.KvCache.LayerWrites

namespace KirAi.KvCache

open Lib

namespace LayerKvCache

open LayerM

variable {K : QuantKernels} {shares : Shares} {c c' src : LayerKvCache} {W rows : List Row}
  {s s' : LayerState} {r : Row} {rt rt' : Statics}

/-! ### The quantized copy of a block -/

def vqCopyOf (K : QuantKernels) (bits : KvCacheValueQuantizationBits) (v : ℕ) (b : CacheBlock) :
    Option QuantizedValueBlock :=
  if b.tokenCount = 0 then none else vqBlockOf K bits b.values v

/-- The quantized values have the format of the cache, and are those of the
values of every block. -/
def VqCopies (K : QuantKernels) (c : LayerKvCache) : Prop :=
  ∀ st, c.quantizedValues = some st → c.config.asymmetricVq = some st.config ∧
    st.blocks = c.blocks.map (vqCopyOf K st.config.valueBits c.vectorLen)

/-- Rebuilding the quantized copies block by block copies every block. -/
theorem rebuildQuantizedBlocks_copies {blocks : List CacheBlock} {v : ℕ}
    {config : AsymmetricVqCacheConfig} (hv : 0 < v)
    (hblk : ∀ b ∈ blocks, b.values.length = b.tokenCount * v ∧
      b.values.length * 8 + 7 ≤ wordMax ∧ AllFinite b.values) :
    ∀ (m i : ℕ) (store : LayerQuantizedValueStore), i + m = blocks.length → store.config = config →
    store.vectorLen = v → store.blocks.length = blocks.length →
    (∀ j, i ≤ j → j < blocks.length → store.blocks[j]? = some none) →
    ∃ store', rebuildQuantizedBlocks K blocks (List.range' i m) store = .ok store' ∧
      store'.config = config ∧ (∀ j, j < i → store'.blocks[j]? = store.blocks[j]?) ∧
      ∀ j, i ≤ j → store'.blocks[j]? = blocks[j]?.map (vqCopyOf K config.valueBits v)
  | 0, i, store, hn, hcfg, _, hsl, _ => by
    refine ⟨store, rfl, hcfg, fun _ _ => rfl, fun j hj => ?_⟩
    rw [List.getElem?_eq_none (by omega), List.getElem?_eq_none (by omega)]
    rfl
  | m + 1, i, store, hn, hcfg, hsv, hsl, hnone => by
    have hi : i < blocks.length := by omega
    have hbi := List.getElem?_eq_getElem hi
    obtain ⟨hlen, hpay, hfin⟩ := hblk _ (List.getElem_mem hi)
    by_cases h0 : blocks[i].tokenCount = 0
    · obtain ⟨store', h1, h2, h3, h4⟩ := rebuildQuantizedBlocks_copies hv hblk m (i + 1) store
        (by omega) hcfg hsv hsl fun j hj => hnone j (by omega)
      refine ⟨store', ?_, h2, fun j hj => h3 j (by omega), fun j hj => ?_⟩
      · simp [List.range'_succ, rebuildQuantizedBlocks, hbi, h0, h1]
      · by_cases hji : j = i
        · rw [hji, h3 i (by omega), hnone i le_rfl hi, hbi, Option.map_some, vqCopyOf, if_pos h0]
        · exact h4 j (by omega)
    · have hpos := Nat.mul_pos (Nat.pos_of_ne_zero h0) hv
      obtain ⟨vb, hq, hup⟩ := LayerQuantizedValueStore.updateBlock_ok (K := K) (s := store) (i := i)
        (by omega) (hsv ▸ hv) (List.ne_nil_of_length_pos (hlen ▸ hpos))
        (by rw [hlen, hsv, Nat.mul_mod_left]) hfin hpay
      obtain ⟨store', h1, h2, h3, h4⟩ := rebuildQuantizedBlocks_copies hv hblk m (i + 1)
        { store with blocks := store.blocks.set i (some vb) } (by omega) hcfg hsv
        (by rw [List.length_set]; exact hsl) fun j hj hjn => by
          rw [List.getElem?_set_ne (by omega)]
          exact hnone j (by omega) hjn
      refine ⟨store', ?_, h2, fun j hj => ?_, fun j hj => ?_⟩
      · simp [List.range'_succ, rebuildQuantizedBlocks, hbi, h0, hup, h1]
      · rw [h3 j (by omega)]
        exact List.getElem?_set_ne (by omega)
      · by_cases hji : j = i
        · rw [hcfg, hsv] at hq
          rw [hji, h3 i (by omega), hbi, Option.map_some, vqCopyOf, if_neg h0, vqBlockOf, hq]
          exact List.getElem?_set_self (by omega)
        · exact h4 j (by omega)

theorem rebuildQuantizedValues_copies (hv : 0 < s.cache.vectorLen)
    (hblk : s.cache.quantizedValues.isSome → ∀ b ∈ s.cache.blocks,
      b.values.length = b.tokenCount * s.cache.vectorLen ∧ b.values.length * 8 + 7 ≤ wordMax ∧
        AllFinite b.values)
    (hst : ∀ st, s.cache.quantizedValues = some st → st.vectorLen = s.cache.vectorLen ∧
      st.blocks.length = s.cache.blocks.length) :
    ∃ o, rebuildQuantizedValues K s = .ok () ⟨{ s.cache with quantizedValues := o }, s.rt⟩ ∧
      ∀ st', o = some st' → ∃ st, s.cache.quantizedValues = some st ∧ st'.config = st.config ∧
        st'.blocks = s.cache.blocks.map (vqCopyOf K st'.config.valueBits s.cache.vectorLen) := by
  cases hq : s.cache.quantizedValues with
  | none =>
    have hs : s = ⟨{ s.cache with quantizedValues := none }, s.rt⟩ := by rw [← hq]
    exact ⟨none, by simp [rebuildQuantizedValues, hq, ← hs], fun st h => by cases h⟩
  | some st =>
    obtain ⟨hsv, hsl⟩ := hst st hq
    obtain ⟨store', h1, h2, -, h4⟩ := rebuildQuantizedBlocks_copies (K := K) hv
      (hblk (by rw [hq]; rfl)) s.cache.blocks.length 0 st.clear (by omega) rfl hsv
      (by simpa [LayerQuantizedValueStore.clear] using hsl) fun j _ hj => by
        rw [LayerQuantizedValueStore.clear, List.getElem?_map, List.getElem?_eq_getElem (by omega)]
        rfl
    refine ⟨some store', ?_, fun st' hst' => ?_⟩
    · simp [rebuildQuantizedValues, hq, List.range_eq_range', h1]
    · cases hst'
      refine ⟨st, rfl, h2, List.ext_getElem? fun j => ?_⟩
      rw [h4 j (Nat.zero_le j), List.getElem?_map, h2]

/-- Whole rows of a block fit in a payload. -/
theorem BlockShape.payload {i : ℕ} {b : CacheBlock} (h : c.BlockShape i b)
    (hcount_le : c.tokenCount ≤ c.maxTokens) (hstage : c.maxTokens * c.vectorLen ≤ vecF32Max) :
    b.values.length * 8 + 7 ≤ wordMax := by
  have hcap : b.tokenCount ≤ c.maxTokens := by
    rw [h.tokenCount]
    omega
  have hle : b.tokenCount * c.vectorLen ≤ vecF32Max :=
    le_trans (Nat.mul_le_mul_right _ hcap) hstage
  have hmax : vecF32Max * 8 + 7 ≤ wordMax := by decide
  rw [h.used_length.2]
  omega

/-- What a cache needs of its blocks to make its quantized values again. -/
theorem Window.vqBlocks (h : Window K c W) (hq : c.quantizedValues.isSome) :
    ∀ b ∈ c.blocks, b.values.length = b.tokenCount * c.vectorLen ∧
      b.values.length * 8 + 7 ≤ wordMax ∧ AllFinite b.values := by
  intro b hb
  obtain ⟨i, hi⟩ := List.mem_iff_getElem?.mp hb
  have hs := h.block i b hi
  exact ⟨hs.used_length.2, hs.payload h.count_le h.stage_le, (h.finite (.inr hq) b hb).2⟩

/-! ### Every operation keeps the copies right -/

theorem newWithConfig_vqConfig {maxTokens keyValueHeads headDim : ℕ} {config : KvCacheConfig}
    (h : newWithConfig maxTokens keyValueHeads headDim config rt = .ok (c, rt')) :
    ∀ st, c.quantizedValues = some st → config.asymmetricVq = some st.config := by
  unfold newWithConfig at h
  simp only [throw_bind, guard_eq_ok] at h
  obtain ⟨-, -, h⟩ := h
  split at h
  · split at h
    · simp only [bind_eq_ok, guard_eq_ok, pure_eq_ok, Prod.mk.injEq] at h
      obtain ⟨⟨bs, rt₁⟩, -, t, -, o, -, q, hq, -, rfl, -⟩ := h
      intro st hst
      change q = some st at hst
      unfold newQuantizedValues at hq
      split at hq
      · rename_i phase3 hcfg
        simp only [LayerQuantizedValueStore.new, map_eq_pure_bind, throw_bind, bind_eq_ok, guard_eq_ok,
          pure_eq_ok] at hq
        obtain ⟨st', ⟨-, rfl⟩, rfl⟩ := hq
        cases hst
        exact hcfg
      · simp only [pure_eq_ok] at hq
        rw [← hq] at hst
        cases hst
    · cases h
  · cases h

theorem New.vqCopies {maxTokens keyValueHeads headDim : ℕ} {config : KvCacheConfig}
    (h : newWithConfig maxTokens keyValueHeads headDim config rt = .ok (c, rt')) : VqCopies K c := by
  have hn := newWithConfig_ok h
  intro st hst
  have hcfg : c.config = config := by rw [hn.cache]
  refine ⟨by rw [hcfg]; exact newWithConfig_vqConfig h st hst, ?_⟩
  obtain ⟨-, hblocks⟩ := hn.vq st hst
  refine List.ext_getElem? fun i => ?_
  rw [hblocks, List.getElem?_map, ← hn.blocks_length, List.getElem?_replicate]
  split
  · rename_i hi
    have hb := List.getElem?_eq_getElem hi
    rw [hb, Option.map_some, vqCopyOf, if_pos (hn.block i _ hb).tokenCount]
  · rename_i hi
    rw [List.getElem?_eq_none (by omega)]
    rfl

/-- A write makes the copy of its block again. -/
theorem VqCopies.afterWrite (h : VqCopies K c) {p n start seen rev j : ℕ} {b b' : CacheBlock}
    {runs : List LayerKvCacheBlockRun} (hw : CacheBlock.Written b b' j r) :
    VqCopies K (c.afterWrite K p b' r runs n start seen rev) := by
  intro st hst
  obtain ⟨st₀, hst₀, rfl⟩ := Option.map_eq_some_iff.mp hst
  obtain ⟨hcfg, hblocks⟩ := h st₀ hst₀
  refine ⟨hcfg, ?_⟩
  have hpos : b'.tokenCount ≠ 0 := by
    rw [hw.tokenCount]
    omega
  change st₀.blocks.set _ _ = (c.blocks.set (p / layerKvBlockTokens) b').map _
  rw [List.map_set, hblocks, vqCopyOf, if_neg hpos]
  rfl

theorem VqCopies.accepted (h : VqCopies K s.cache)
    (ha : AppendedAtEnd K shares s r s' ∨ Slid K shares s r s') : VqCopies K s'.cache := by
  rcases ha with ⟨-, -, -, b, b', -, hw, -, -, hs'⟩ | ⟨-, -, -, b, b', -, hw, -, -, hs'⟩
  · rw [hs']
    exact h.afterWrite hw
  · rw [hs']
    exact h.afterWrite hw

theorem VqCopies.clear (h : VqCopies K s.cache) (hw : Window K s.cache W) :
    VqCopies K (clear shares s).cache := by
  intro st hst
  obtain ⟨st₀, hst₀, rfl⟩ := Option.map_eq_some_iff.mp hst
  obtain ⟨hcfg, hblocks⟩ := h st₀ hst₀
  refine ⟨hcfg, List.ext_getElem? fun i => ?_⟩
  obtain ⟨rt, hg⟩ := clearBlocks_getElem? shares s.cache.blocks s.rt i
  change (st₀.blocks.map _)[i]? = ((clearBlocks shares s.cache.blocks s.rt).1.map _)[i]?
  rw [List.getElem?_map, List.getElem?_map, hg, hblocks, List.getElem?_map]
  cases hb : s.cache.blocks[i]? with
  | none => rfl
  | some b =>
    have h0 := (clear_shape shares rt (hw.block i b hb)).2.2.2.1
    simp only [Option.map_some, vqCopyOf, if_pos h0]

theorem VqCopies.clone (h : VqCopies K c) (rt : Statics) : VqCopies K (c.clone rt).1 := by
  intro st hst
  obtain ⟨hcfg, hblocks⟩ := h st hst
  refine ⟨hcfg, ?_⟩
  change st.blocks = (c.blocks.map CacheBlock.clone).map _
  rw [hblocks, List.map_map]
  rfl

/-! A restore does not touch the store before it makes the copies. -/

theorem appendRuns_keeps_vq : ∀ is, Keeps (·.cache.quantizedValues) (appendRuns is)
  | [] => .pure _
  | i :: is => .bind .getCache fun c =>
      .bind (appendActiveBlockRun_keeps i ((c.windowStart + i) % c.maxTokens) fun _ _ => rfl)
        fun _ => appendRuns_keeps_vq is

theorem rebuildActiveBlockRuns_keeps_vq :
    Keeps (·.cache.quantizedValues) rebuildActiveBlockRunsFromTokens :=
  .bind (.modifyCache fun _ => rfl) fun _ => .bind .getCache fun _ => appendRuns_keeps_vq _

theorem copyRowsToStage_keeps_vq : ∀ is, Keeps (·.cache.quantizedValues) (copyRowsToStage is)
  | [] => .pure _
  | _ :: is => .bind .getCache fun _ => .bind (.okOr _) fun _ => .bind (.okOr _) fun _ =>
      .bind (.okOr _) fun _ => .bind (copyStageToken_keeps _ _ _ fun _ _ _ => rfl) fun _ =>
        copyRowsToStage_keeps_vq is

theorem rebuildInt8Storage_keeps_vq : Keeps (·.cache.quantizedValues) (rebuildInt8Storage K) := by
  refine .bind .getCache fun c => ?_
  cases c.int8Storage with
  | none => exact .pure _
  | some store => exact .bind (.ofResult _) fun _ => .modifyCache fun _ => rfl

/-- Rebuilding ends with the copies. -/
theorem VqCopies.of_rebuild (hw : Window K s.cache W)
    (hcfg : ∀ st, c.quantizedValues = some st → s.cache.config.asymmetricVq = some st.config)
    (hok : (do rebuildActiveBlockRunsFromTokens; rebuildStageFromBlocks K : LayerM Unit) ⟨c, rt⟩ =
      .ok () s) : VqCopies K s.cache := by
  unfold rebuildStageFromBlocks at hok
  obtain ⟨_, s₀, h₀, hok⟩ := bind_apply_eq_ok.mp hok
  obtain ⟨_, s₁, h₁, hok⟩ := bind_apply_eq_ok.mp hok
  obtain ⟨_, s₂, h₂, hok⟩ := bind_apply_eq_ok.mp hok
  obtain ⟨_, s₃, h₃, hok⟩ := bind_apply_eq_ok.mp hok
  obtain ⟨_, s₄, h₄, hvq⟩ := bind_apply_eq_ok.mp hok
  have hq₀ : s₀.cache.quantizedValues = c.quantizedValues :=
    rebuildActiveBlockRuns_keeps_vq ⟨c, rt⟩ _ s₀ h₀
  have hq₃ : s₃.cache.quantizedValues = s₂.cache.quantizedValues :=
    copyRowsToStage_keeps_vq _ s₂ _ s₃ h₃
  have hq₄ : s₄.cache.quantizedValues = s₃.cache.quantizedValues :=
    rebuildInt8Storage_keeps_vq s₃ _ s₄ h₄
  cases h₁
  cases h₂
  replace hq₄ : s₄.cache.quantizedValues = c.quantizedValues := hq₄.trans (hq₃.trans hq₀)
  -- the last part changes the copies only, so the window's blocks are those it reads
  obtain ⟨hs, hiff, hshape⟩ := rebuildQuantizedValues_ok hvq
  have hblocks : s.cache.blocks = s₄.cache.blocks := by rw [hs]
  have hvec : s.cache.vectorLen = s₄.cache.vectorLen := by rw [hs]; rfl
  intro st hst
  obtain ⟨st₄, hst₄, hv₄, hl₄⟩ := hshape st hst
  obtain ⟨o, ho, hcopies⟩ := rebuildQuantizedValues_copies (K := K) (s := s₄)
    (by rw [← hvec]; exact hw.vec_pos)
    (fun hsome => by
      rw [← hblocks, ← hvec]
      exact hw.vqBlocks (hiff.mpr hsome))
    (fun st' hst' => by
      rw [hst₄] at hst'
      cases hst'
      obtain ⟨h1, h2⟩ := hw.vq st hst
      exact ⟨by rw [← hvec, ← h1, hv₄], by rw [← hblocks, ← h2, hl₄]⟩)
  rw [hvq] at ho
  cases ho
  obtain ⟨st', hst', hcfg', hcopy⟩ := hcopies st hst
  rw [hst₄] at hst'
  cases hst'
  refine ⟨?_, hcopy⟩
  rw [hcfg']
  exact hcfg st₄ (hq₄.symm.trans hst₄)

theorem VqCopies.fromPrefixCacheState (hsrc : Window K src W)
    (h : fromPrefixCacheState K src.prefixCacheState rt = .ok s) : VqCopies K s.cache := by
  obtain ⟨hw, -, hcfg, -⟩ := fromPrefixCacheState_ok hsrc h
  unfold LayerKvCache.fromPrefixCacheState at h
  simp only [throw_bind, guard_eq_ok, bind_eq_ok] at h
  obtain ⟨-, ⟨c₀, rt₀⟩, hnew, c₁, hres, hfin⟩ := h
  obtain ⟨-, hc₁⟩ := new_restoredBlocks hnew hres
  refine VqCopies.of_rebuild hw (fun st hst => ?_) (finish_ok hfin)
  change c₁.quantizedValues = some st at hst
  rw [hc₁] at hst
  rw [hcfg]
  exact newWithConfig_vqConfig hnew st hst

theorem VqCopies.appendSnapshotRows : ∀ {rs : List Row} {W : List Row} {s : LayerState},
    Window K s.cache W → VqCopies K s.cache → appendSnapshotRows K rs s = .ok () s' →
    VqCopies K s'.cache
  | [], _, _, _, h, hok => by
    cases hok
    exact h
  | r :: rs, W, s, hw, h, hok => by
    obtain ⟨m, s₁, h1, h2⟩ := bind_apply_eq_ok.mp hok
    obtain ⟨ha, -⟩ := appendWithMetadata_ok hw h1
    exact VqCopies.appendSnapshotRows (hw.appended ha) (h.accepted (.inl ha)) h2

theorem VqCopies.fromSnapshot {snap : LayerKvCacheSnapshot}
    (h : LayerKvCache.fromSnapshot K snap rt = .ok s) : VqCopies K s.cache := by
  unfold LayerKvCache.fromSnapshot at h
  simp only [throw_bind, guard_eq_ok, bind_eq_ok] at h
  obtain ⟨-, ⟨c₀, rt₀⟩, hnew, h⟩ := h
  dsimp only at h
  split at h
  · simp only [guard_eq_ok, bind_eq_ok, pure_eq_ok] at h
    obtain ⟨-, -, s₁, hfin, rfl⟩ := h
    have hcopies : VqCopies K s₁.cache :=
      VqCopies.appendSnapshotRows (W := []) (newWithConfig_ok hnew).window
        (New.vqCopies hnew) (finish_ok hfin)
    exact hcopies
  · cases h

/-- The run lemma. -/
theorem Reach.vqCopies (h : Reach K s rows) : VqCopies K s.cache := by
  induction h with
  | new h => exact New.vqCopies h
  | elsewhere _ _ ih => exact ih
  | append h hok ih => exact ih.accepted (.inl (appendWithMetadata_ok h.window.1 hok).1)
  | appendFailed h herr ih =>
    obtain ⟨rfl, -⟩ := appendWithMetadata_error h.window.1 herr
    exact ih
  | appendSliding h hok ih =>
    exact ih.accepted ((appendSlidingWithMetadata_ok h.window.1 hok).imp And.left And.left)
  | appendSlidingFailed h herr ih =>
    obtain ⟨rfl, -⟩ := appendSlidingWithMetadata_error h.window.1 herr
    exact ih
  | clear _ h ih => exact ih.clear h.window.1
  | read _ ih => exact ih
  | clone rt _ ih => exact ih.clone rt
  | fromPrefixCacheState h hok _ => exact .fromPrefixCacheState h.window.1 hok
  | fromSnapshot _ hok _ => exact .fromSnapshot hok

/-! ### The format never changes -/

theorem newWithConfig_format {maxTokens keyValueHeads headDim : ℕ} {config : KvCacheConfig}
    (h : newWithConfig maxTokens keyValueHeads headDim config rt = .ok (c, rt')) :
    config.format ≠ .f16 ∧ c.config = config := by
  have hcfg : c.config = config := by rw [(newWithConfig_ok h).cache]
  unfold newWithConfig at h
  simp only [throw_bind, guard_eq_ok] at h
  exact ⟨h.2.1, hcfg⟩

theorem accepted_config (ha : AppendedAtEnd K shares s r s' ∨ Slid K shares s r s') :
    s'.cache.config = s.cache.config := by
  rcases ha with ⟨-, -, -, b, b', -, -, -, -, hs'⟩ | ⟨-, -, -, b, b', -, -, -, -, hs'⟩
  · rw [hs']
    rfl
  · rw [hs']
    rfl

theorem appendSnapshotRows_config : ∀ {rs : List Row} {W : List Row} {s : LayerState},
    Window K s.cache W → appendSnapshotRows K rs s = .ok () s' → s'.cache.config = s.cache.config
  | [], _, _, _, hok => by
    cases hok
    rfl
  | r :: rs, W, s, hw, hok => by
    obtain ⟨m, s₁, h1, h2⟩ := bind_apply_eq_ok.mp hok
    obtain ⟨ha, -⟩ := appendWithMetadata_ok hw h1
    exact (appendSnapshotRows_config (hw.appended ha) h2).trans (accepted_config (.inl ha))

theorem fromSnapshot_format {snap : LayerKvCacheSnapshot}
    (h : LayerKvCache.fromSnapshot K snap rt = .ok s) : s.cache.config.format ≠ .f16 := by
  unfold LayerKvCache.fromSnapshot at h
  simp only [throw_bind, guard_eq_ok, bind_eq_ok] at h
  obtain ⟨-, ⟨c₀, rt₀⟩, hnew, h⟩ := h
  dsimp only at h
  split at h
  · simp only [guard_eq_ok, bind_eq_ok, pure_eq_ok] at h
    obtain ⟨-, -, s₁, hfin, rfl⟩ := h
    have hcfg := appendSnapshotRows_config (W := []) (newWithConfig_ok hnew).window (finish_ok hfin)
    obtain ⟨hne, hcfg₀⟩ := newWithConfig_format hnew
    rw [hcfg, hcfg₀]
    exact hne
  · cases h

/-- No cache has the format `f16`. -/
theorem Reach.format (h : Reach K s rows) : s.cache.config.format ≠ .f16 := by
  induction h with
  | new h =>
    obtain ⟨hne, hcfg⟩ := newWithConfig_format h
    rw [hcfg]
    exact hne
  | elsewhere _ _ ih => exact ih
  | append h hok ih =>
    rw [accepted_config (.inl (appendWithMetadata_ok h.window.1 hok).1)]
    exact ih
  | appendFailed h herr ih =>
    obtain ⟨rfl, -⟩ := appendWithMetadata_error h.window.1 herr
    exact ih
  | appendSliding h hok ih =>
    rw [accepted_config ((appendSlidingWithMetadata_ok h.window.1 hok).imp And.left And.left)]
    exact ih
  | appendSlidingFailed h herr ih =>
    obtain ⟨rfl, -⟩ := appendSlidingWithMetadata_error h.window.1 herr
    exact ih
  | clear _ _ ih => exact ih
  | read _ ih => exact ih
  | clone _ _ ih => exact ih
  | fromPrefixCacheState h hok ih =>
    obtain ⟨-, -, hcfg, -⟩ := fromPrefixCacheState_ok h.window.1 hok
    rw [hcfg]
    exact ih
  | fromSnapshot _ hok _ => exact fromSnapshot_format hok

end LayerKvCache
end KirAi.KvCache
