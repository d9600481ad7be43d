/-
# Reading a layer cache

Every read of a cache that holds the window `W` reads `W`: a single row from
its block (`Window.key`, `Window.value`), the whole window from the staged ring
(`Window.keys`, `Window.values`), and the runs with their blocks
(`Window.activeBlocks`, `Window.activeBlocks_keys`).

Key definitions: `LayerKvCache.Reports`.
-/
import KirAi.KvCache.LayerAppend

namespace KirAi.KvCache
namespace LayerKvCache

open Lib LayerM

variable {K : QuantKernels} {shares : Shares} {c : LayerKvCache} {W : List Row} {s : LayerState}

/-! ### Single rows -/

theorem slotRow_eq_some {p : ℕ} {r : Row} (h : c.slotRow p = some r) :
    ∃ b, c.blocks[p / layerKvBlockTokens]? = some b ∧
      b.key (p % layerKvBlockTokens) = some r.1 ∧ b.value (p % layerKvBlockTokens) = some r.2 := by
  simp only [slotRow, Option.bind_eq_bind, Option.bind_eq_some_iff, Option.pure_def,
    Option.some.injEq] at h
  obtain ⟨b, hb, k, hk, v, hv, rfl⟩ := h
  exact ⟨b, hb, hk, hv⟩

/-- Where logical row `i` of the window is. -/
theorem Window.slotRow_some (h : Window K c W) {i : ℕ} {r : Row} (hr : W[i]? = some r) :
    c.slotRow (ringSlot c.windowStart i c.maxTokens) = some r := by
  have hi := (List.getElem?_eq_some_iff.mp hr).1
  rw [h.slots i (by rw [← h.length]; exact hi), hr]

theorem Window.blockPosition (h : Window K c W) {i : ℕ} (hi : i < c.tokenCount) :
    c.blockPosition i = some (ringSlot c.windowStart i c.maxTokens / layerKvBlockTokens,
      ringSlot c.windowStart i c.maxTokens % layerKvBlockTokens) := by
  have hlt : ringSlot c.windowStart i c.maxTokens < c.maxTokens := ringSlot_lt h.max_pos
  rw [LayerKvCache.blockPosition, if_neg (by omega), physicalBlockPosition, if_neg]
  · rfl
  · exact Nat.not_le.mpr hlt

theorem Window.key (h : Window K c W) (i : ℕ) : c.key i = W[i]?.map (·.1) := by
  cases hr : W[i]? with
  | none =>
    have hi : W.length ≤ i := List.getElem?_eq_none_iff.mp hr
    have : c.blockPosition i = none := by
      rw [LayerKvCache.blockPosition, if_pos (by rw [← h.length]; exact hi)]
    simp [LayerKvCache.key, this]
  | some r =>
    have hi : i < c.tokenCount := by
      rw [← h.length]
      exact (List.getElem?_eq_some_iff.mp hr).1
    obtain ⟨b, hb, hk, -⟩ := slotRow_eq_some (h.slotRow_some hr)
    simp [LayerKvCache.key, h.blockPosition hi, h.listedBlock hb, hk]

theorem Window.value (h : Window K c W) (i : ℕ) : c.value i = W[i]?.map (·.2) := by
  cases hr : W[i]? with
  | none =>
    have hi : W.length ≤ i := List.getElem?_eq_none_iff.mp hr
    have : c.blockPosition i = none := by
      rw [LayerKvCache.blockPosition, if_pos (by rw [← h.length]; exact hi)]
    simp [LayerKvCache.value, this]
  | some r =>
    have hi : i < c.tokenCount := by
      rw [← h.length]
      exact (List.getElem?_eq_some_iff.mp hr).1
    obtain ⟨b, hb, -, hv⟩ := slotRow_eq_some (h.slotRow_some hr)
    simp [LayerKvCache.value, h.blockPosition hi, h.listedBlock hb, hv]

/-! ### The staged rings -/

/-- A list read through its positions. -/
theorem flatMap_eq_range {α β : Type} {l : List α} {f : α → List β} {g : ℕ → List β}
    (h : ∀ i a, l[i]? = some a → g i = f a) : (List.range l.length).flatMap g = l.flatMap f := by
  induction l using List.reverseRecOn with
  | nil => rfl
  | append_singleton l a ih =>
    have ih' := ih fun i x hx => h i x (by
      rw [List.getElem?_append_left (List.getElem?_eq_some_iff.mp hx).1]
      exact hx)
    rw [List.length_append, List.length_singleton, List.range_succ, List.flatMap_append, ih',
      List.flatMap_append]
    simp only [List.flatMap_cons, List.flatMap_nil, List.append_nil]
    rw [h l.length a List.getElem?_concat_length]

/-- A window in a ring: at most two stretches, the second from slot 0 on. -/
theorem contiguousStageView_fst {storage : List F32} {view : Option (List F32)} (h : Layout c)
    (hs : storage.length = c.maxTokens * c.vectorLen)
    (hv : ∀ v, view = some v → v = (List.range c.tokenCount).flatMap fun i =>
      row storage c.vectorLen (ringSlot c.windowStart i c.maxTokens)) :
    (c.contiguousStageView storage view).1 = (List.range c.tokenCount).flatMap fun i =>
      row storage c.vectorLen (ringSlot c.windowStart i c.maxTokens) := by
  have hst := h.start_lt
  have hle := h.count_le
  have hmul : ∀ a b : ℕ, a ≤ b → a * c.vectorLen ≤ b * c.vectorLen :=
    fun a b hab => Nat.mul_le_mul_right _ hab
  unfold contiguousStageView
  dsimp only
  by_cases hw : c.tokenCount ≤ c.maxTokens - c.windowStart
  · -- the window does not wrap
    rw [if_pos hw, usedLen, ← Nat.add_mul, ← flatMap_row_range storage c.vectorLen c.windowStart
      c.tokenCount (by rw [hs]; exact hmul _ _ (by omega))]
    refine List.flatMap_congr fun i hi => ?_
    rw [List.mem_range] at hi
    rw [ringSlot_eq hst (by omega), if_pos (by omega)]
  · rw [if_neg hw]
    cases hvw : view with
    | some v => exact hv v hvw
    | none =>
      dsimp only
      have hfirst : slice storage (c.windowStart * c.vectorLen)
          (c.windowStart * c.vectorLen + (c.maxTokens - c.windowStart) * c.vectorLen) =
          (List.range (c.maxTokens - c.windowStart)).flatMap
            fun i => row storage c.vectorLen (c.windowStart + i) := by
        rw [← Nat.add_mul, flatMap_row_range storage c.vectorLen c.windowStart _
          (by rw [hs]; exact hmul _ _ (by omega))]
      have hsecond : slice storage 0 (c.usedLen - (c.maxTokens - c.windowStart) * c.vectorLen) =
          (List.range (c.tokenCount - (c.maxTokens - c.windowStart))).flatMap
            fun i => row storage c.vectorLen (0 + i) := by
        rw [flatMap_row_range storage c.vectorLen 0 _ (by rw [hs]; exact hmul _ _ (by omega)),
          usedLen, Nat.zero_mul, Nat.zero_add, ← Nat.sub_mul]
      rw [hfirst, hsecond, show c.tokenCount = (c.maxTokens - c.windowStart) +
        (c.tokenCount - (c.maxTokens - c.windowStart)) by omega, List.range_add,
        List.flatMap_append, List.flatMap_map]
      congr 1
      · refine List.flatMap_congr fun i hi => ?_
        rw [List.mem_range] at hi
        rw [ringSlot_eq hst (by omega), if_pos (by omega)]
      · rw [Nat.add_sub_cancel_left]
        refine List.flatMap_congr fun i hi => ?_
        rw [List.mem_range] at hi
        rw [ringSlot_eq hst (by omega), if_neg (by omega)]
        congr 1
        omega

theorem Window.keyStage_rows (h : Window K c W) : (List.range c.tokenCount).flatMap (fun i =>
    row c.keyStage c.vectorLen (ringSlot c.windowStart i c.maxTokens)) = W.flatMap (·.1) := by
  rw [← h.length]
  exact flatMap_eq_range fun i r hr => (h.stage i r hr).1

theorem Window.valueStage_rows (h : Window K c W) : (List.range c.tokenCount).flatMap (fun i =>
    row c.valueStage c.vectorLen (ringSlot c.windowStart i c.maxTokens)) = W.flatMap (·.2) := by
  rw [← h.length]
  exact flatMap_eq_range fun i r hr => (h.stage i r hr).2

theorem Window.keys (h : Window K c W) : c.keys = W.flatMap (·.1) := by
  rw [LayerKvCache.keys, contiguousStageView_fst h.toLayout h.keyStage_length, h.keyStage_rows]
  intro v hv
  rw [h.keyStage_rows]
  exact h.keyView v hv

theorem Window.values (h : Window K c W) : c.values = W.flatMap (·.2) := by
  rw [LayerKvCache.values, contiguousStageView_fst h.toLayout h.valueStage_length,
    h.valueStage_rows]
  intro v hv
  rw [h.valueStage_rows]
  exact h.valueView v hv

/-- A view that is kept is the one that was answered. -/
theorem contiguousStageView_snd {storage : List F32} {view : Option (List F32)} {v : List F32}
    (h : (c.contiguousStageView storage view).2 = some v) :
    view = some v ∨ v = (c.contiguousStageView storage view).1 := by
  unfold contiguousStageView at h ⊢
  dsimp only at h ⊢
  split at h
  · exact .inl h
  · split at h
    · exact .inl h
    · rename_i hw _
      cases h
      rw [if_neg hw]
      exact .inr rfl

/-- Reading the views does not change the window. -/
theorem Window.readContiguous (h : Window K c W) : Window K c.readContiguous W := by
  refine {
    toLayout := ⟨h.max_pos, h.vec_pos, h.stage_le, h.count_le, h.start_lt, h.start_zero, h.table,
      h.blocks_length, fun i b hb => ?_, h.keyStage_length, h.valueStage_length, h.runs⟩
    toCompressed := ⟨h.int8_iff, h.vq_iff, h.finite, h.int8, h.vq⟩
    length := h.length
    slots := h.slots
    stage := h.stage
    keyView := fun v hv => ?_
    valueView := fun v hv => ?_ }
  · obtain ⟨h1, h2, h3, h4, h5, h6⟩ := h.block i b hb
    exact ⟨h1, h2, h3, h4, h5, h6⟩
  · rcases contiguousStageView_snd hv with hold | hnew
    · exact h.keyView v hold
    · rw [hnew]
      exact h.keys
  · rcases contiguousStageView_snd hv with hold | hnew
    · exact h.valueView v hold
    · rw [hnew]
      exact h.values

/-! ### The active blocks -/

/-- What `active_blocks` answers for a run. -/
def Reports (c : LayerKvCache) (run : LayerKvCacheBlockRun) (b : LayerKvCacheBlock) : Prop :=
  ∃ block, c.blocks[run.blockIndex]? = some block ∧ b = {
    blockId := block.id, revision := block.revision
    logicalTokenStart := run.logicalTokenStart, physicalTokenStart := run.physicalTokenStart
    blockTokenStart := run.blockTokenStart, tokenCount := run.tokenCount
    vectorLen := c.vectorLen, keyStorage := block.storage.val.keys
    valueStorage := block.storage.val.values }

theorem Layout.activeBlocksOf (h : Layout c) : ∀ runs : List LayerKvCacheBlockRun,
    (∀ r ∈ runs, r.Inside (c.blocks.map (·.id)) c.maxTokens) →
    ∃ bs, c.activeBlocksOf runs = .ok bs ∧ List.Forall₂ (Reports c) runs bs
  | [], _ => ⟨[], rfl, .nil⟩
  | run :: runs, hin => by
    obtain ⟨bs, hbs, hrep⟩ := h.activeBlocksOf runs fun r hr => hin r (List.mem_cons_of_mem _ hr)
    have hrun := (hin run (List.mem_cons_self ..)).id
    rw [List.getElem?_map] at hrun
    obtain ⟨block, hblock, hid⟩ := Option.map_eq_some_iff.mp hrun
    refine ⟨_, ?_, .cons ⟨block, hblock, rfl⟩ hrep⟩
    simp [LayerKvCache.activeBlocksOf, h.listedBlock hblock, hid, hbs]

theorem Layout.activeBlocks (h : Layout c) :
    ∃ bs, c.activeBlocks = .ok bs ∧ List.Forall₂ (Reports c) c.activeBlockRuns bs :=
  h.activeBlocksOf c.activeBlockRuns h.runs.inside

/-- Where a run says its rows are. -/
theorem Layout.run_slot (h : Layout c) {run : LayerKvCacheBlockRun}
    (hrun : run ∈ c.activeBlockRuns) {j : ℕ} (hj : j < run.tokenCount) :
    run.logicalTokenStart + j < c.tokenCount ∧ run.physicalTokenStart + j =
      ringSlot c.windowStart (run.logicalTokenStart + j) c.maxTokens := by
  have hmem : (run.logicalTokenStart + j, run.physicalTokenStart + j) ∈
      c.activeBlockRuns.flatMap LayerKvCacheBlockRun.rows :=
    List.mem_flatMap.mpr ⟨run, hrun, List.mem_map.mpr ⟨j, List.mem_range.mpr hj, rfl⟩⟩
  rw [h.runs.cover] at hmem
  obtain ⟨i, hi, heq⟩ := List.mem_map.mp hmem
  obtain ⟨rfl, hslot⟩ := Prod.mk.inj heq
  exact ⟨List.mem_range.mp hi, hslot.symm⟩

/-- The first run starts with the first row of the window. -/
theorem Layout.first_run (h : Layout c) {run : LayerKvCacheBlockRun}
    {runs : List LayerKvCacheBlockRun} (hruns : c.activeBlockRuns = run :: runs) :
    run.physicalTokenStart = c.windowStart := by
  have hpos := (h.runs.inside run (by rw [hruns]; exact List.mem_cons_self ..)).pos
  have hcover := congrArg List.head? h.runs.cover
  obtain ⟨n, hn⟩ : ∃ n, run.tokenCount = n + 1 := ⟨run.tokenCount - 1, by omega⟩
  rw [hruns, List.flatMap_cons, LayerKvCacheBlockRun.rows, hn, List.range_succ_eq_map] at hcover
  cases hc : c.tokenCount with
  | zero =>
    rw [hc] at hcover
    cases hcover
  | succ k =>
    rw [hc, List.range_succ_eq_map] at hcover
    have hrow := Option.some.inj hcover
    exact (Prod.mk.inj hrow).2.trans (Nat.mod_eq_of_lt h.start_lt)

/-- Every row of the window is in a run. -/
theorem Layout.exists_run (h : Layout c) {i : ℕ} (hi : i < c.tokenCount) :
    ∃ run ∈ c.activeBlockRuns, ∃ j, j < run.tokenCount ∧ run.logicalTokenStart + j = i := by
  have hmem : (i, ringSlot c.windowStart i c.maxTokens) ∈
      c.activeBlockRuns.flatMap LayerKvCacheBlockRun.rows := by
    rw [h.runs.cover]
    exact List.mem_map.mpr ⟨i, List.mem_range.mpr hi, rfl⟩
  obtain ⟨run, hrun, hrow⟩ := List.mem_flatMap.mp hmem
  obtain ⟨j, hj, heq⟩ := List.mem_map.mp hrow
  exact ⟨run, hrun, j, List.mem_range.mp hj, (Prod.mk.inj heq).1⟩

/-- The rows of a run, as its block has them, are the rows of the window. -/
theorem Window.run_row (h : Window K c W) {run : LayerKvCacheBlockRun}
    (hrun : run ∈ c.activeBlockRuns) {block : CacheBlock}
    (hb : c.blocks[run.blockIndex]? = some block) {j : ℕ} (hj : j < run.tokenCount) :
    run.blockTokenStart + j < block.tokenCount ∧
    W[run.logicalTokenStart + j]? =
      some (row block.storage.val.keys c.vectorLen (run.blockTokenStart + j),
        row block.storage.val.values c.vectorLen (run.blockTokenStart + j)) := by
  obtain ⟨hi, hslot⟩ := h.toLayout.run_slot hrun hj
  obtain ⟨hdiv, hmod⟩ := (h.runs.inside run hrun).slot hj
  have hW : W[run.logicalTokenStart + j]? = some _ :=
    List.getElem?_eq_getElem (by rw [h.length]; exact hi)
  obtain ⟨b, hb', hk, hv⟩ := slotRow_eq_some (h.slotRow_some hW)
  rw [← hslot, hdiv, hb] at hb'
  cases hb'
  rw [← hslot, hmod] at hk hv
  have hlt : run.blockTokenStart + j < block.tokenCount := by
    by_contra hge
    simp [CacheBlock.key, CacheBlock.tokenSlice, Nat.le_of_not_lt hge] at hk
  refine ⟨hlt, ?_⟩
  rw [CacheBlock.key, CacheBlock.tokenSlice, if_neg (by omega), Option.some.injEq] at hk
  rw [CacheBlock.value, CacheBlock.tokenSlice, if_neg (by omega), Option.some.injEq] at hv
  rw [hW, ← (h.block _ _ hb).vectorLen, hk, hv]

/-- A run ends within the rows its block has in use. -/
theorem Window.run_end_le (h : Window K c W) {run : LayerKvCacheBlockRun}
    (hrun : run ∈ c.activeBlockRuns) {block : CacheBlock}
    (hb : c.blocks[run.blockIndex]? = some block) :
    run.blockTokenStart + run.tokenCount ≤ block.tokenCount := by
  have hpos := (h.runs.inside run hrun).pos
  have := (h.run_row hrun hb (Nat.sub_lt hpos Nat.one_pos)).1
  omega

/-- What `active_int8_blocks` answers for a run. -/
def ReportsInt8 (K : QuantKernels) (c : LayerKvCache) (run : LayerKvCacheBlockRun)
    (b : LayerKvCacheInt8Block) : Prop :=
  ∃ block, c.blocks[run.blockIndex]? = some block ∧
    let copy := int8BlockOf K block.keys block.values c.vectorLen
    b = {
      blockId := block.id, revision := block.revision
      logicalTokenStart := run.logicalTokenStart, physicalTokenStart := run.physicalTokenStart
      blockTokenStart := run.blockTokenStart, tokenCount := run.tokenCount
      vectorLen := c.vectorLen, keyCodes := copy.keyCodes, valueCodes := copy.valueCodes
      keyScales := copy.keyScales, valueScales := copy.valueScales }

theorem Window.activeInt8BlocksOf (h : Window K c W) {store : LayerInt8KvStore}
    (hst : c.int8Storage = some store) : ∀ runs : List LayerKvCacheBlockRun,
    (∀ r ∈ runs, r ∈ c.activeBlockRuns) →
    ∃ bs, c.activeInt8BlocksOf store runs = .ok bs ∧ List.Forall₂ (ReportsInt8 K c) runs bs
  | [], _ => ⟨[], rfl, .nil⟩
  | run :: runs, hmem => by
    obtain ⟨bs, hbs, hrep⟩ :=
      h.activeInt8BlocksOf hst runs fun r hr => hmem r (List.mem_cons_of_mem _ hr)
    have hrun := hmem run (List.mem_cons_self ..)
    have hin := h.runs.inside run hrun
    have hid := hin.id
    rw [List.getElem?_map] at hid
    obtain ⟨block, hblock, hid⟩ := Option.map_eq_some_iff.mp hid
    have hne : block.tokenCount ≠ 0 := by
      have := h.run_end_le hrun hblock
      have := hin.pos
      omega
    have hcopy : store.block run.blockIndex =
        .ok (int8BlockOf K block.keys block.values c.vectorLen) := by
      rw [LayerInt8KvStore.block, (h.int8 store hst).2, List.getElem?_map, hblock, Option.map_some,
        if_neg hne]
    refine ⟨_, ?_, .cons ⟨block, hblock, rfl⟩ hrep⟩
    simp [LayerKvCache.activeInt8BlocksOf, h.toLayout.listedBlock hblock, hid, hcopy, hbs]

/-- A cache with an int8 copy reports it for every run; the others report
nothing. -/
theorem Window.activeInt8Blocks (h : Window K c W) :
    (c.config.format ≠ .int8 ∧ c.activeInt8Blocks = .ok none) ∨
    ∃ bs, c.activeInt8Blocks = .ok (some bs) ∧
      List.Forall₂ (ReportsInt8 K c) c.activeBlockRuns bs := by
  cases hst : c.int8Storage with
  | none =>
    refine .inl ⟨fun hf => ?_, by simp [LayerKvCache.activeInt8Blocks, hst, pure, Except.pure]⟩
    have := h.int8_iff.mpr hf
    rw [hst] at this
    cases this
  | some store =>
    obtain ⟨bs, hbs, hrep⟩ := h.activeInt8BlocksOf hst c.activeBlockRuns fun _ hr => hr
    exact .inr ⟨bs, by simp [LayerKvCache.activeInt8Blocks, hst, hbs], hrep⟩

/-- The rows of one active block, as rows of the window. -/
theorem Window.report_rows (h : Window K c W) {run : LayerKvCacheBlockRun} {b : LayerKvCacheBlock}
    (hrun : run ∈ c.activeBlockRuns) (hb : c.Reports run b) :
    b.keys = run.rows.flatMap (fun ip => (W[ip.1]?.map (·.1)).getD []) ∧
      b.values = run.rows.flatMap (fun ip => (W[ip.1]?.map (·.2)).getD []) := by
  obtain ⟨block, hblock, rfl⟩ := hb
  have hend := h.run_end_le hrun hblock
  have hs := h.block _ _ hblock
  have htc : block.tokenCount ≤ block.capacityTokens := by
    rw [hs.tokenCount]
    exact Nat.min_le_left _ _
  have hlen : ∀ {l : List F32}, l.length = block.capacityTokens * block.vectorLen →
      (run.blockTokenStart + run.tokenCount) * c.vectorLen ≤ l.length := fun hl => by
    rw [hl, hs.vectorLen]
    exact Nat.mul_le_mul_right _ (by omega)
  constructor
  · change slice block.storage.val.keys _ _ = _
    rw [← Nat.add_mul, ← flatMap_row_range _ _ _ _ (hlen hs.keys_length),
      LayerKvCacheBlockRun.rows, List.flatMap_map]
    refine List.flatMap_congr fun j hj => ?_
    rw [List.mem_range] at hj
    rw [(h.run_row hrun hblock hj).2]
    rfl
  · change slice block.storage.val.values _ _ = _
    rw [← Nat.add_mul, ← flatMap_row_range _ _ _ _ (hlen hs.values_length),
      LayerKvCacheBlockRun.rows, List.flatMap_map]
    refine List.flatMap_congr fun j hj => ?_
    rw [List.mem_range] at hj
    rw [(h.run_row hrun hblock hj).2]
    rfl

/-- The rows of the active blocks, one after the other, are the window. -/
theorem Window.activeBlocks_rows (h : Window K c W) {bs : List LayerKvCacheBlock}
    (hbs : List.Forall₂ (Reports c) c.activeBlockRuns bs) :
    bs.flatMap (·.keys) = W.flatMap (·.1) ∧ bs.flatMap (·.values) = W.flatMap (·.2) := by
  have hall : ∀ runs bs, runs ⊆ c.activeBlockRuns → List.Forall₂ (Reports c) runs bs →
      bs.flatMap (·.keys) =
        (runs.flatMap LayerKvCacheBlockRun.rows).flatMap
          (fun ip => (W[ip.1]?.map (·.1)).getD []) ∧
      bs.flatMap (·.values) =
        (runs.flatMap LayerKvCacheBlockRun.rows).flatMap
          (fun ip => (W[ip.1]?.map (·.2)).getD []) := by
    intro runs bs hsub hrep
    induction hrep with
    | nil => exact ⟨rfl, rfl⟩
    | cons hb _ ih =>
      obtain ⟨h1, h2⟩ := h.report_rows (hsub (List.mem_cons_self ..)) hb
      obtain ⟨h3, h4⟩ := ih fun r hr => hsub (List.mem_cons_of_mem _ hr)
      simp only [List.flatMap_cons, List.flatMap_append, h1, h2, h3, h4, and_self]
  obtain ⟨h1, h2⟩ := hall _ _ (fun _ hr => hr) hbs
  rw [h1, h2, h.runs.cover, List.flatMap_map, List.flatMap_map, ← h.length]
  exact ⟨flatMap_eq_range fun i r hr => by rw [hr]; rfl, flatMap_eq_range fun i r hr => by rw [hr]; rfl⟩

end LayerKvCache
end KirAi.KvCache
