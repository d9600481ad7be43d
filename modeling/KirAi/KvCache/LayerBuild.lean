/-
# A layer cache can be built

`new_with_config`, `from_prefix_cache_state` and `from_snapshot` refuse what
they are given for many reasons. None of them is left when the rows fit in
memory and the process has block ids left: a prefix state that was taken of a
cache can be restored (`fromPrefixCacheState_succeeds`), and `f32` rows of the
right width can be read back from a snapshot (`fromSnapshot_succeeds`).

A prefix state lists each block once, by its id, so the blocks of a cache must
have different ids. They do in every run that takes its ids from the counter
(`Live.blockIds`).

Key definitions: `LayerKvCache.BlockIds`, `LayerKvCache.Live`,
`LayerKvCachePrefixState.row`.
-/
import KirAi.KvCache.LayerCopies

namespace KirAi.KvCache

open Lib

variable {rt rt' : Statics}

theorem BlockId.next_succeeds (h : rt.nextBlockId < wordMax) :
    ∃ rt', BlockId.next rt = .ok (rt.nextBlockId, rt') := by
  unfold BlockId.next
  rw [checkedAdd_of_le (by omega)]
  exact ⟨_, rfl⟩

variable (rt) in
theorem CacheBlock.new_succeeds {cap v : ℕ} (hc : 0 < cap) (hv : 0 < v) (hle : cap * v ≤ vecF32Max)
    (hid : rt.nextBlockId < wordMax) : ∃ b rt', CacheBlock.new cap v rt = .ok (b, rt') := by
  obtain ⟨rt₁, hn⟩ := BlockId.next_succeeds hid
  have hw : cap * v ≤ wordMax := by
    unfold vecF32Max wordMax at *
    omega
  simp only [new, checkedMul_of_le hw, hn, ok_bind, if_neg (show ¬ (cap = 0 ∨ v = 0) by omega),
    if_neg (show ¬ cap * v > vecF32Max by omega)]
  exact ⟨_, _, rfl⟩

namespace LayerKvCache

open LayerM

variable {K : QuantKernels} {shares : Shares} {c c' src : LayerKvCache} {W rows : List Row}
  {s s' : LayerState} {r : Row}

/-! ### New caches -/

theorem newBlocks_succeeds {v : ℕ} (hv : 0 < v) : ∀ (fuel remaining : ℕ) (rt : Statics),
    remaining * v ≤ vecF32Max → rt.nextBlockId + blockCount remaining ≤ wordMax →
    ∃ q, newBlocks v fuel remaining rt = .ok q
  | 0, _, _, _, _ => ⟨_, rfl⟩
  | fuel + 1, remaining, rt, hle, hid => by
    unfold newBlocks
    by_cases h0 : remaining = 0
    · rw [if_pos h0]
      exact ⟨_, rfl⟩
    · rw [if_neg h0]
      have hstep := blockCount_step h0
      have hpos : 0 < min remaining layerKvBlockTokens := by
        unfold layerKvBlockTokens
        omega
      obtain ⟨b, rt₁, hb⟩ := CacheBlock.new_succeeds rt hpos hv
        (le_trans (Nat.mul_le_mul_right v (Nat.min_le_left _ _)) hle) (by omega)
      obtain ⟨-, hrt₁⟩ := newBlock_of_ok hb
      obtain ⟨⟨rest, rt₂⟩, hrest⟩ := newBlocks_succeeds hv fuel
        (remaining - min remaining layerKvBlockTokens) rt₁
        (le_trans (Nat.mul_le_mul_right v (Nat.sub_le _ _)) hle) (by omega)
      simp only [hb, hrest, ok_bind]
      exact ⟨_, rfl⟩

theorem newTable_succeeds : ∀ (bs : List CacheBlock) (t : BlockTable), (∀ b ∈ bs, b.id ≠ 0) →
    ∃ t', newTable bs t = .ok t'
  | [], t, _ => ⟨t, rfl⟩
  | b :: bs, t, h => by
    have hb : t.append b.id = .ok ⟨t.blocks ++ [b.id]⟩ := by
      simp [BlockTable.append, BlockId.isInvalid, h b (List.mem_cons_self ..)]
    simp only [newTable, hb, ok_bind]
    exact newTable_succeeds bs _ fun b hb => h b (List.mem_cons_of_mem _ hb)

/-- A shape that fits in memory, and enough block ids. -/
structure Fits (maxTokens keyValueHeads headDim : ℕ) (rt : Statics) : Prop where
  max_pos : 0 < maxTokens
  vec_pos : 0 < keyValueHeads * headDim
  stage_le : maxTokens * (keyValueHeads * headDim) ≤ vecF32Max
  ids : rt.nextBlockId + blockCount maxTokens ≤ wordMax

theorem newInt8Storage_succeeds (config : KvCacheConfig) {maxTokens v : ℕ} (hmax : 0 < maxTokens)
    (hv : 0 < v) : ∃ o, newInt8Storage config maxTokens v = .ok o := by
  have hne : ¬ (blockCount maxTokens = 0 ∨ v = 0) := by
    unfold blockCount layerKvBlockTokens
    omega
  unfold newInt8Storage
  split
  · exact ⟨_, by simp only [LayerInt8KvStore.new, throw_bind, if_neg hne]; rfl⟩
  · exact ⟨_, rfl⟩

theorem newQuantizedValues_succeeds (config : KvCacheConfig) {maxTokens v : ℕ} (hmax : 0 < maxTokens)
    (hv : 0 < v) : ∃ o, newQuantizedValues config maxTokens v = .ok o := by
  have hne : ¬ (blockCount maxTokens = 0 ∨ v = 0) := by
    unfold blockCount layerKvBlockTokens
    omega
  unfold newQuantizedValues
  split
  · exact ⟨_, by simp only [LayerQuantizedValueStore.new, throw_bind, if_neg hne]; rfl⟩
  · exact ⟨_, rfl⟩

variable (rt) in
/-- Every format but `f16` can be built. -/
theorem newWithConfig_succeeds {maxTokens keyValueHeads headDim : ℕ} {config : KvCacheConfig}
    (h : Fits maxTokens keyValueHeads headDim rt) (hf16 : config.format ≠ .f16) :
    ∃ c rt', newWithConfig maxTokens keyValueHeads headDim config rt = .ok (c, rt') := by
  have hmax := h.max_pos
  have hvec := h.vec_pos
  have hne : ¬ (maxTokens = 0 ∨ keyValueHeads = 0 ∨ headDim = 0) := by
    rintro (h0 | h0 | h0)
    · omega
    · simp [h0] at hvec
    · simp [h0] at hvec
  have hstage : maxTokens * (keyValueHeads * headDim) ≤ wordMax := by
    have := h.stage_le
    unfold vecF32Max wordMax at *
    omega
  have hv : keyValueHeads * headDim ≤ wordMax :=
    le_trans (Nat.le_mul_of_pos_left _ hmax) hstage
  obtain ⟨⟨bs, rt₁⟩, hbs⟩ := newBlocks_succeeds hvec maxTokens maxTokens rt h.stage_le h.ids
  obtain ⟨-, -, hblk⟩ := newBlocks_ok _ _ _ _ _ le_rfl hbs
  obtain ⟨t, ht⟩ := newTable_succeeds bs .new fun b hb => by
    obtain ⟨i, hi⟩ := List.mem_iff_getElem?.mp hb
    rw [(hblk i b hi).id]
    exact Nat.ne_of_gt (Nat.add_pos_left rt.nextBlockId_pos i)
  obtain ⟨o, ho⟩ := newInt8Storage_succeeds config hmax hvec
  obtain ⟨q, hq⟩ := newQuantizedValues_succeeds config hmax hvec
  simp only [newWithConfig, if_neg hne, if_neg hf16, checkedMul_of_le hv, checkedMul_of_le hstage,
    hbs, ht, ho, hq, ok_bind, if_neg (show ¬ maxTokens * (keyValueHeads * headDim) > vecF32Max from
      Nat.not_lt.mpr h.stage_le)]
  exact ⟨_, _, rfl⟩

/-! ### The ids of the blocks -/

/-- Different blocks have different ids, all of them handed out already. -/
structure BlockIds (c : LayerKvCache) (rt : Statics) : Prop where
  inj : ∀ (i j : ℕ) (b b' : CacheBlock), c.blocks[i]? = some b → c.blocks[j]? = some b' → b.id = b'.id → i = j
  lt : ∀ b ∈ c.blocks, b.id < rt.nextBlockId

/-- Only the ids matter, and the counter may go on. -/
theorem BlockIds.of_ids (h : BlockIds c rt) (hids : c'.blocks.map (·.id) = c.blocks.map (·.id))
    (hrt : rt.nextBlockId ≤ rt'.nextBlockId) : BlockIds c' rt' := by
  have hfind : ∀ {i : ℕ} {b : CacheBlock}, c'.blocks[i]? = some b →
      ∃ b₀ : CacheBlock, c.blocks[i]? = some b₀ ∧ b₀.id = b.id := fun {i b} hb => by
    have hi := congrArg (·[i]?) hids
    simp only [List.getElem?_map, hb, Option.map_some] at hi
    obtain ⟨b₀, hb₀, hid⟩ := Option.map_eq_some_iff.mp hi.symm
    exact ⟨b₀, hb₀, hid⟩
  refine ⟨fun i j b b' hb hb' heq => ?_, fun b hb => ?_⟩
  · obtain ⟨b₀, hb₀, h₀⟩ := hfind hb
    obtain ⟨b₁, hb₁, h₁⟩ := hfind hb'
    exact h.inj i j b₀ b₁ hb₀ hb₁ (by rw [h₀, h₁, heq])
  · obtain ⟨i, hi⟩ := List.mem_iff_getElem?.mp hb
    obtain ⟨b₀, hb₀, h₀⟩ := hfind hi
    rw [← h₀]
    exact lt_of_lt_of_le (h.lt b₀ (List.mem_of_getElem? hb₀)) hrt

theorem New.blockIds {maxTokens keyValueHeads headDim : ℕ} {config : KvCacheConfig}
    (h : New maxTokens keyValueHeads headDim config rt c rt') : BlockIds c rt' := by
  refine ⟨fun i j b b' hb hb' heq => ?_, fun b hb => ?_⟩
  · rw [(h.block i b hb).id, (h.block j b' hb').id] at heq
    exact Nat.add_left_cancel heq
  · obtain ⟨i, hi⟩ := List.mem_iff_getElem?.mp hb
    have hlt := (List.getElem?_eq_some_iff.mp hi).1
    rw [(h.block i b hi).id, h.nextBlockId]
    exact Nat.add_lt_add_left hlt _

/-- A write keeps the id of its block or takes the next one. -/
theorem BlockIds.set (h : BlockIds c rt) {i : ℕ} {b b' : CacheBlock} (hb : c.blocks[i]? = some b)
    (hw : Rewritten shares b rt b' rt') (hc' : c'.blocks = c.blocks.set i b') : BlockIds c' rt' := by
  have hlt := (List.getElem?_eq_some_iff.mp hb).1
  rcases hw.identity with ⟨-, -, hid, hrt⟩ | ⟨hid, hrt⟩
  · refine h.of_ids ?_ (le_of_eq hrt.symm)
    have hidb : (c.blocks.map (·.id))[i]? = some b.id := by
      rw [List.getElem?_map, hb]
      rfl
    rw [hc', List.map_set, hid, list_set_self hidb]
  · -- the fresh id is above all others
    have hold : ∀ {k : ℕ} {x : CacheBlock}, k ≠ i → c'.blocks[k]? = some x → c.blocks[k]? = some x :=
      fun hk hx => by rwa [hc', List.getElem?_set_ne (Ne.symm hk)] at hx
    have hnew : ∀ {x : CacheBlock}, c'.blocks[i]? = some x → x = b' := fun hx => by
      rw [hc', List.getElem?_set_self hlt] at hx
      exact (Option.some.inj hx).symm
    refine ⟨fun k j x y hx hy heq => ?_, fun x hx => ?_⟩
    · by_cases hk : k = i
      · by_cases hj : j = i
        · rw [hk, hj]
        · have := h.lt y (List.mem_of_getElem? (hold hj hy))
          rw [hk] at hx
          rw [hnew hx, hid] at heq
          exact absurd heq.symm (Nat.ne_of_lt this)
      · by_cases hj : j = i
        · have := h.lt x (List.mem_of_getElem? (hold hk hx))
          rw [hj] at hy
          rw [hnew hy, hid] at heq
          exact absurd heq (Nat.ne_of_lt this)
        · exact h.inj k j x y (hold hk hx) (hold hj hy) heq
    · obtain ⟨k, hk⟩ := List.mem_iff_getElem?.mp hx
      by_cases hki : k = i
      · rw [hki] at hk
        rw [hnew hk, hid, hrt]
        exact Nat.lt_succ_self _
      · rw [hrt]
        exact Nat.lt_succ_of_lt (h.lt x (List.mem_of_getElem? (hold hki hk)))

theorem BlockIds.appended (h : BlockIds s.cache s.rt) (ha : AppendedAtEnd K shares s r s') :
    BlockIds s'.cache s'.rt := by
  obtain ⟨-, -, -, b, b', hb, -, -, hw, hs'⟩ := ha
  exact h.set hb hw (by rw [hs']; rfl)

theorem BlockIds.slid (h : BlockIds s.cache s.rt) (ha : Slid K shares s r s') :
    BlockIds s'.cache s'.rt := by
  obtain ⟨-, -, -, b, b', hb, -, -, hw, hs'⟩ := ha
  exact h.set hb hw (by rw [hs']; rfl)

/-- A restored block has its old id, the other blocks have new ones. -/
theorem BlockIds.restored (h : BlockIds src rt) (hr : Restored src rt s) :
    BlockIds s.cache s.rt := by
  have hcase : ∀ {i : ℕ} {b : CacheBlock}, s.cache.blocks[i]? = some b →
      b.id = rt.nextBlockId + i ∨ ∃ b₀ : CacheBlock, src.blocks[i]? = some b₀ ∧ b.id = b₀.id :=
    fun {i b} hb => (hr.blocks.origin i b hb).imp (·.id) fun ⟨block, hblock, hre, _⟩ =>
      ⟨block, hblock, by rw [hre]; rfl⟩
  refine ⟨fun i j b b' hb hb' heq => ?_, fun b hb => ?_⟩
  · rcases hcase hb with h₁ | ⟨b₁, hb₁, h₁⟩ <;> rcases hcase hb' with h₂ | ⟨b₂, hb₂, h₂⟩
    · rw [h₁, h₂] at heq
      exact Nat.add_left_cancel heq
    · rw [h₁, h₂] at heq
      exact absurd heq.symm (Nat.ne_of_lt (Nat.lt_add_right i (h.lt b₂ (List.mem_of_getElem? hb₂))))
    · rw [h₁, h₂] at heq
      exact absurd heq (Nat.ne_of_lt (Nat.lt_add_right j (h.lt b₁ (List.mem_of_getElem? hb₁))))
    · exact h.inj i j b₁ b₂ hb₁ hb₂ (by rw [← h₁, ← h₂, heq])
  · obtain ⟨i, hi⟩ := List.mem_iff_getElem?.mp hb
    have hlt := (List.getElem?_eq_some_iff.mp hi).1
    rw [hr.nextBlockId]
    rcases hcase hi with h₁ | ⟨b₁, hb₁, h₁⟩
    · rw [h₁]
      exact Nat.add_lt_add_left hlt _
    · rw [h₁]
      exact Nat.lt_add_right _ (h.lt b₁ (List.mem_of_getElem? hb₁))

theorem BlockIds.appendSnapshotRows : ∀ {rs : List Row} {W : List Row} {s : LayerState},
    Window K s.cache W → BlockIds s.cache s.rt → appendSnapshotRows K rs s = .ok () s' →
    BlockIds s'.cache s'.rt
  | [], _, _, _, h, hok => by
    cases hok
    exact h
  | r :: rs, W, s, hw, h, hok => by
    obtain ⟨m, s₁, h1, h2⟩ := bind_apply_eq_ok.mp hok
    obtain ⟨ha, -⟩ := appendWithMetadata_ok hw h1
    exact BlockIds.appendSnapshotRows (hw.appended ha) (h.appended ha) h2

/-! ### Restoring a prefix state -/

/-- Every block that a run names is in the prefix state. -/
theorem prefixBlocksOf_named (hl : Layout c) (hids : BlockIds c rt) :
    ∀ (runs : List LayerKvCacheBlockRun) (seen : List BlockId),
    (∀ run ∈ runs, run.Inside (c.blocks.map (·.id)) c.maxTokens) →
    ∀ run ∈ runs, run.blockId ∉ seen →
      ∃ pb ∈ c.prefixBlocksOf runs seen, pb.blockIndex = run.blockIndex
  | [], _, _, run, hrun, _ => by cases hrun
  | run₀ :: runs, seen, hin, run, hrun, hseen => by
    have hin' : ∀ r ∈ runs, r.Inside (c.blocks.map (·.id)) c.maxTokens := fun r hr =>
      hin r (List.mem_cons_of_mem _ hr)
    have hblock : ∀ r ∈ run₀ :: runs, ∃ b, c.blocks[r.blockIndex]? = some b ∧ b.id = r.blockId := by
      intro r hr
      have hid := (hin r hr).id
      rw [List.getElem?_map] at hid
      exact Option.map_eq_some_iff.mp hid
    obtain ⟨b₀, hb₀, hid₀⟩ := hblock run₀ (List.mem_cons_self ..)
    have htab : c.blockTable.get run₀.blockIndex = some run₀.blockId := by
      rw [BlockTable.get, hl.table]
      exact (hin run₀ (List.mem_cons_self ..)).id
    unfold prefixBlocksOf
    simp only [htab, ne_eq, not_true_eq_false, false_or, hb₀, hid₀, ↓reduceIte]
    by_cases hs : run₀.blockId ∈ seen
    · rw [if_pos hs]
      rcases List.mem_cons.mp hrun with rfl | hrun
      · exact absurd hs hseen
      · exact prefixBlocksOf_named hl hids runs seen hin' run hrun hseen
    · rw [if_neg hs]
      by_cases heq : run.blockId = run₀.blockId
      · obtain ⟨b, hb, hid⟩ := hblock run hrun
        exact ⟨_, List.mem_cons_self .., hids.inj _ _ b₀ b hb₀ hb (by rw [hid₀, hid, heq])⟩
      · rcases List.mem_cons.mp hrun with rfl | hrun
        · exact absurd rfl heq
        · obtain ⟨pb, hpb, hi⟩ := prefixBlocksOf_named hl hids runs (run₀.blockId :: seen) hin' run
            hrun (by simp [heq, hseen])
          exact ⟨pb, List.mem_cons_of_mem _ hpb, hi⟩

/-- A block of a cache can be issued again. -/
theorem BlockShape.fromRetained {i : ℕ} {b : CacheBlock} (h : c.BlockShape i b) (hl : Layout c)
    (hb : c.blocks[i]? = some b) : CacheBlock.fromRetained b.retainStorage = .ok b.reissued := by
  have hlt := (List.getElem?_eq_some_iff.mp hb).1
  have hcap := h.capacityTokens
  have hpos : 0 < b.capacityTokens := by
    rw [hl.blocks_length] at hlt
    unfold blockCount layerKvBlockTokens at *
    omega
  have hle : b.capacityTokens * b.vectorLen ≤ wordMax := by
    have hmul : b.capacityTokens * b.vectorLen ≤ c.maxTokens * c.vectorLen := by
      rw [h.vectorLen]
      exact Nat.mul_le_mul_right _ (by omega)
    have := hl.stage_le
    unfold vecF32Max wordMax at *
    omega
  have hvec := hl.vec_pos
  rw [← h.vectorLen] at hvec
  have hcount := h.tokenCount
  have h1 : ¬ (b.retainStorage.capacityTokens = 0 ∨ b.retainStorage.vectorLen = 0 ∨
      b.retainStorage.tokenCount > b.retainStorage.capacityTokens) := by
    change ¬ (b.capacityTokens = 0 ∨ b.vectorLen = 0 ∨ b.tokenCount > b.capacityTokens)
    omega
  have h2 : ¬ (b.retainStorage.storage.val.keys.length ≠ b.capacityTokens * b.vectorLen ∨
      b.retainStorage.storage.val.values.length ≠ b.capacityTokens * b.vectorLen) := by
    simp only [not_or, not_not]
    exact ⟨h.keys_length, h.values_length⟩
  have hmul : checkedMul b.retainStorage.capacityTokens b.retainStorage.vectorLen =
      some (b.capacityTokens * b.vectorLen) := checkedMul_of_le hle
  simp only [CacheBlock.fromRetained, if_neg h1, hmul, if_neg h2]
  rfl

/-- Blocks of a source can be put into a cache of its shape, and they are there
afterwards. -/
theorem restoreBlocks_succeeds (hl : Layout src) : ∀ (pbs : List LayerKvCachePrefixBlock)
    (c : LayerKvCache), (∀ pb ∈ pbs, FromSource src pb) → c.vectorLen = src.vectorLen →
    c.blockTable.blocks = c.blocks.map (·.id) →
    c.blocks.map (·.capacityTokens) = src.blocks.map (·.capacityTokens) →
    ∃ c', restoreBlocks pbs c = .ok c' ∧ ∀ i b, src.blocks[i]? = some b →
      (c.blocks[i]? = some b.reissued ∨ ∃ pb ∈ pbs, pb.blockIndex = i) →
      c'.blocks[i]? = some b.reissued
  | [], c, _, _, _, _ => ⟨c, rfl, fun i b _ h => h.elim (fun h => h) fun ⟨_, hpb, _⟩ => by cases hpb⟩
  | pb :: pbs, c, hsrc, hvec, htab, hcap => by
    obtain ⟨block, hblock, hret⟩ := hsrc pb (List.mem_cons_self ..)
    have hshape := hl.block _ _ hblock
    have hissue := hshape.fromRetained hl hblock
    have hcapi := congrArg (·[pb.blockIndex]?) hcap
    simp only [List.getElem?_map, hblock, Option.map_some] at hcapi
    obtain ⟨old, hold, hcold⟩ := Option.map_eq_some_iff.mp hcapi
    have hlt := (List.getElem?_eq_some_iff.mp hold).1
    have hrep : c.blockTable.replace pb.blockIndex block.reissued.id =
        .ok (old.id, ⟨(c.blocks.set pb.blockIndex block.reissued).map (·.id)⟩) := by
      have hid : BlockId.isInvalid block.reissued.id = false := decide_eq_false hshape.id
      have hget : c.blockTable.blocks[pb.blockIndex]? = some old.id := by
        rw [htab, List.getElem?_map, hold]
        rfl
      simp only [BlockTable.replace, hid, Bool.false_eq_true, ↓reduceIte, hget]
      rw [htab, List.map_set]
    have hguard : ¬ (block.reissued.vectorLen ≠ c.vectorLen ∨
        block.reissued.capacityTokens ≠ old.capacityTokens) := by
      simp only [not_or, not_not]
      exact ⟨hshape.vectorLen.trans hvec.symm, hcold.symm⟩
    obtain ⟨c', hc', hall⟩ := restoreBlocks_succeeds hl pbs { c with
        blockTable := ⟨(c.blocks.set pb.blockIndex block.reissued).map (·.id)⟩
        blocks := c.blocks.set pb.blockIndex block.reissued }
      (fun pb' h => hsrc pb' (List.mem_cons_of_mem _ h)) hvec rfl (by
        change (c.blocks.set _ _).map _ = _
        rw [List.map_set, show block.reissued.capacityTokens = old.capacityTokens from hcold.symm,
          list_set_self (by rw [List.getElem?_map, hold]; rfl), hcap])
    refine ⟨c', ?_, fun i b hb h => hall i b hb ?_⟩
    · simp only [restoreBlocks, hret, hissue, ok_bind, hold, if_neg hguard, hrep]
      exact hc'
    · change (c.blocks.set pb.blockIndex block.reissued)[i]? = _ ∨ _
      by_cases hi : i = pb.blockIndex
      · subst hi
        rw [hblock] at hb
        cases hb
        exact .inl (List.getElem?_set_self hlt)
      · rw [List.getElem?_set_ne (Ne.symm hi)]
        rcases h with h | ⟨pb', hpb', hi'⟩
        · exact .inl h
        · rcases List.mem_cons.mp hpb' with rfl | hpb'
          · exact absurd hi'.symm hi
          · exact .inr ⟨pb', hpb', hi'⟩

/-- The rings can be filled when every row of the window is in a block. -/
theorem copyRowsToStage_succeeds {n : ℕ} : ∀ (m i : ℕ) (s : LayerState), i + m = n →
    n ≤ s.cache.maxTokens → StageShape s.cache →
    (∀ j, i ≤ j → j < n →
      ∃ r, s.cache.slotRow (ringSlot s.cache.windowStart j s.cache.maxTokens) = some r) →
    ∃ s', copyRowsToStage (List.range' i m) s = .ok () s'
  | 0, _, s, _, _, _, _ => ⟨s, rfl⟩
  | m + 1, i, s, hn, hle, hs, hrows => by
    have hlt : ringSlot s.cache.windowStart i s.cache.maxTokens < s.cache.maxTokens :=
      ringSlot_lt (by omega)
    obtain ⟨r, hr⟩ := hrows i le_rfl (by omega)
    obtain ⟨b, hb, hk, hv⟩ := slotRow_eq_some hr
    obtain ⟨hkr, hvr⟩ := hs.rows _ r hr
    obtain ⟨s', hs'⟩ := copyRowsToStage_succeeds m (i + 1) ⟨s.cache.withCopiedRow _ r, s.rt⟩ (by omega)
      hle (hs.withCopiedRow hlt hkr hvr).1 fun j hij => hrows j (by omega)
    refine ⟨s', ?_⟩
    rw [List.range'_succ, copyRowsToStage, bind_apply, getCache_apply]
    dsimp only
    rw [show (s.cache.windowStart + i) % s.cache.maxTokens =
      ringSlot s.cache.windowStart i s.cache.maxTokens from rfl]
    simp only [bind_apply, hb, hk, hv, okOr_some,
      copyStageToken_spec hkr hvr hlt hs.keys hs.values hs.stage_le]
    exact hs'

variable (rt') in
/-- The runs, the rings and the copies can be rebuilt when every row of the window
is in a block. -/
theorem Refilled.rebuild_succeeds (h : Refilled src rt c) (hsrc : Window K src W)
    (hrows : ∀ j, j < src.tokenCount →
      ∃ r, c.slotRow (ringSlot src.windowStart j src.maxTokens) = some r) :
    ∃ s, (do rebuildActiveBlockRunsFromTokens; rebuildStageFromBlocks K : LayerM Unit) ⟨c, rt'⟩ =
      .ok () s := by
  have hl := hsrc.toLayout
  have hcap : c.tokenCount ≤ c.maxTokens := by
    rw [h.count_eq, h.max_eq]
    exact hl.count_le
  have hstage : c.maxTokens * c.vectorLen ≤ vecF32Max := by
    rw [h.vec_eq, h.max_eq]
    exact hl.stage_le
  have hvec : 0 < c.vectorLen := by
    rw [h.vec_eq]
    exact hl.vec_pos
  -- the runs and the rings
  obtain ⟨runs, hruns, -⟩ := appendRuns_ok c.tokenCount 0
    ⟨{ c with activeBlockRuns := [] }, rt'⟩ (Nat.zero_add _) hcap (fun p => h.listed)
    (RunsCover.empty _ _ _)
  have hshape : StageShape ({ c with activeBlockRuns := runs } : LayerKvCache).clearStageStorage := by
    refine ⟨(List.length_replicate).trans h.keyStage_length,
      (List.length_replicate).trans h.valueStage_length, hstage, fun p r hr => ?_⟩
    change _ = c.vectorLen ∧ _ = c.vectorLen
    rw [h.vec_eq]
    exact hl.slotRow_length (h.slotRow hr)
  obtain ⟨s₁, hs₁⟩ := copyRowsToStage_succeeds c.tokenCount 0
    ⟨({ c with activeBlockRuns := runs } : LayerKvCache).clearStageStorage, rt'⟩ (Nat.zero_add _) hcap
    hshape fun j _ hj => by
      change ∃ r, c.slotRow (ringSlot c.windowStart j c.maxTokens) = some r
      rw [h.start_eq, h.max_eq]
      exact hrows j (by rw [← h.count_eq]; exact hj)
  obtain ⟨hs₁', -⟩ := copyRowsToStage_ok c.tokenCount 0 _ s₁ (Nat.zero_add _) hcap
    (by change c.windowStart < c.maxTokens; rw [h.start_eq, h.max_eq]; exact hl.start_lt) hshape hs₁
  have hf₁ : s₁.cache = { c with
      activeBlockRuns := runs, keyStage := s₁.cache.keyStage, valueStage := s₁.cache.valueStage
      keyContiguousView := none, valueContiguousView := none } := by
    rw [hs₁']
    rfl
  have hvec₁ : s₁.cache.vectorLen = c.vectorLen := by
    rw [hf₁]
    rfl
  -- the copies
  have hblocks : ∀ b ∈ c.blocks, b.keys.length = b.tokenCount * c.vectorLen ∧
      b.values.length = b.tokenCount * c.vectorLen ∧ b.values.length * 8 + 7 ≤ wordMax := by
    intro b hb
    obtain ⟨i, hi⟩ := List.mem_iff_getElem?.mp hb
    have hs := h.toRestoredBlocks.blockShape hl h.count_eq hrows hi
    exact ⟨hs.used_length.1, hs.used_length.2, hs.payload hcap hstage⟩
  obtain ⟨o, ho, -, -⟩ := rebuildInt8Storage_ok (K := K) (s := s₁) (by rw [hvec₁]; exact hvec)
    (fun b hb => by
      rw [hf₁] at hb
      obtain ⟨hk, hv, -⟩ := hblocks b hb
      refine ⟨by rw [hvec₁]; exact hk, by rw [hvec₁]; exact hv, fun hsome => ?_⟩
      rw [hf₁] at hsome
      exact h.finite hsrc.toCompressed (.inl hsome) hb)
    (by rw [hf₁]; exact h.int8)
  obtain ⟨q, hq, -⟩ := rebuildQuantizedValues_copies (K := K)
    (s := ⟨{ s₁.cache with int8Storage := o }, s₁.rt⟩) (by change 0 < s₁.cache.vectorLen; rw [hvec₁]; exact hvec)
    (fun hsome b hb => by
      change s₁.cache.quantizedValues.isSome at hsome
      change b ∈ s₁.cache.blocks at hb
      rw [hf₁] at hsome hb
      obtain ⟨-, hv, hpay⟩ := hblocks b hb
      refine ⟨?_, hpay, (h.finite hsrc.toCompressed (.inr hsome) hb).2⟩
      change _ = _ * s₁.cache.vectorLen
      rw [hvec₁]
      exact hv)
    (by
      change ∀ st, s₁.cache.quantizedValues = some st → st.vectorLen = s₁.cache.vectorLen ∧
        st.blocks.length = s₁.cache.blocks.length
      rw [hf₁]
      exact h.vq)
  refine ⟨⟨{ s₁.cache with int8Storage := o, quantizedValues := q }, s₁.rt⟩, ?_⟩
  rw [List.range_eq_range'.symm] at hruns hs₁
  simp only [rebuildActiveBlockRunsFromTokens, bind_apply, modifyCache_apply, getCache_apply, hruns,
    rebuildStageFromBlocks]
  rw [show (clearStageStorage { c with activeBlockRuns := runs }).tokenCount = c.tokenCount from rfl,
    hs₁]
  simp only [ho]
  exact hq

variable (rt) in
/-- A prefix state of a cache can be restored. -/
theorem fromPrefixCacheState_succeeds (hsrc : Window K src W) (hids : BlockIds src rt')
    (hf16 : src.config.format ≠ .f16) (hseen : src.tokenCount ≤ src.tokensSeen)
    (hrt : rt.nextBlockId + blockCount src.maxTokens ≤ wordMax) :
    ∃ s, fromPrefixCacheState K src.prefixCacheState rt = .ok s := by
  have hl := hsrc.toLayout
  have hmax := hl.max_pos
  have hcount := hl.count_le
  have hstart := hl.start_lt
  have hvec : 0 < src.keyValueHeads * src.headDim := hl.vec_pos
  have hne : ¬ (src.prefixCacheState.maxTokens = 0 ∨ src.prefixCacheState.keyValueHeads = 0 ∨
      src.prefixCacheState.headDim = 0 ∨
      src.prefixCacheState.tokenCount > src.prefixCacheState.maxTokens ∨
      src.prefixCacheState.tokensSeen < src.prefixCacheState.tokenCount ∨
      src.prefixCacheState.windowStart ≥ src.prefixCacheState.maxTokens) := by
    change ¬ (src.maxTokens = 0 ∨ src.keyValueHeads = 0 ∨ src.headDim = 0 ∨
      src.tokenCount > src.maxTokens ∨ src.tokensSeen < src.tokenCount ∨
      src.windowStart ≥ src.maxTokens)
    rintro (h0 | h0 | h0 | h0 | h0 | h0)
    · omega
    · simp [h0] at hvec
    · simp [h0] at hvec
    · omega
    · omega
    · omega
  obtain ⟨c₀, rt₀, hnew⟩ := newWithConfig_succeeds rt ⟨hmax, hvec, hl.stage_le, hrt⟩ hf16
  have hn := newWithConfig_ok hnew
  have hmem : ∀ pb ∈ src.prefixCacheState.blocks, FromSource src pb := fun pb hpb => by
    obtain ⟨-, -, -, hx⟩ := prefixBlocksOf_mem _ _ pb hpb
    exact hx
  have hcaps : c₀.blocks.map (·.capacityTokens) = src.blocks.map (·.capacityTokens) := by
    refine List.ext_getElem? fun i => ?_
    rw [List.getElem?_map, List.getElem?_map]
    rcases Nat.lt_or_ge i (blockCount src.maxTokens) with hi | hi
    · have h₀ := List.getElem?_eq_getElem (hn.blocks_length ▸ hi : i < c₀.blocks.length)
      have h₁ := List.getElem?_eq_getElem (hl.blocks_length ▸ hi : i < src.blocks.length)
      rw [h₀, h₁, Option.map_some, Option.map_some, (hn.block i _ h₀).capacityTokens,
        (hl.block i _ h₁).capacityTokens]
    · rw [List.getElem?_eq_none (by rw [hn.blocks_length]; exact hi),
        List.getElem?_eq_none (by rw [hl.blocks_length]; exact hi)]
  obtain ⟨c₁, hres, hput⟩ := restoreBlocks_succeeds hl _ _ hmem hn.vectorLen hn.table hcaps
  -- every row of the window is in a block that was put back
  have hrows : ∀ j, j < src.tokenCount →
      ∃ r, c₁.slotRow (ringSlot src.windowStart j src.maxTokens) = some r := fun j hj => by
    obtain ⟨r, hr⟩ : ∃ r, W[j]? = some r :=
      ⟨_, List.getElem?_eq_getElem (by rw [hsrc.length]; exact hj)⟩
    obtain ⟨b, hb, hk, hv⟩ := slotRow_eq_some (hsrc.slotRow_some hr)
    obtain ⟨run, hrun, k, hk', rfl⟩ := hl.exists_run hj
    obtain ⟨-, hslot⟩ := hl.run_slot hrun hk'
    obtain ⟨hdiv, -⟩ := (hl.runs.inside run hrun).slot hk'
    obtain ⟨pb, hpb, hi⟩ := prefixBlocksOf_named hl hids src.activeBlockRuns [] hl.runs.inside run hrun
      List.not_mem_nil
    have hput' := hput _ b hb (.inr ⟨pb, hpb, by rw [hi, ← hslot, hdiv]⟩)
    have hkey : b.reissued.key (ringSlot src.windowStart (run.logicalTokenStart + k) src.maxTokens %
      layerKvBlockTokens) = _ := hk
    have hval : b.reissued.value (ringSlot src.windowStart (run.logicalTokenStart + k) src.maxTokens %
      layerKvBlockTokens) = _ := hv
    refine ⟨r, ?_⟩
    simp only [LayerKvCache.slotRow, hput', Option.bind_eq_bind, Option.bind_some, hkey, hval]
    rfl
  obtain ⟨s, hs⟩ := (new_refilled hnew hres).rebuild_succeeds rt₀ hsrc hrows
  refine ⟨s, ?_⟩
  have hnew' : newWithConfig src.prefixCacheState.maxTokens src.prefixCacheState.keyValueHeads
      src.prefixCacheState.headDim src.prefixCacheState.config rt = .ok (c₀, rt₀) := hnew
  have hfin : finish (do rebuildActiveBlockRunsFromTokens; rebuildStageFromBlocks K) ⟨{ c₁ with
      revision := src.revision, tokenCount := src.tokenCount, tokensSeen := src.tokensSeen
      windowStart := src.windowStart }, rt₀⟩ = .ok s := by
    rw [finish, hs]
  unfold fromPrefixCacheState
  rw [if_neg hne]
  simp only [hnew', hres, ok_bind]
  exact hfin

/-- The snapshot of a restored cache is the snapshot of the original. -/
theorem fromPrefixCacheState_snapshot (hsrc : Window K src W)
    (h : fromPrefixCacheState K src.prefixCacheState rt = .ok s) :
    s.cache.snapshot = src.snapshot := by
  obtain ⟨hw, hres, hcfg, hheads, hdim⟩ := fromPrefixCacheState_ok hsrc h
  simp only [snapshot, hw.keys, hw.values, hsrc.keys, hsrc.values, hcfg, hheads, hdim, hres.revision,
    hres.tokensSeen, hres.blocks.max_eq, ← hw.length, ← hsrc.length]

/-! ### Reading a snapshot back -/

theorem New.unshared {maxTokens keyValueHeads headDim : ℕ} {config : KvCacheConfig}
    (h : New maxTokens keyValueHeads headDim config rt c rt') : Unshared c := by
  intro b hb
  obtain ⟨i, hi⟩ := List.mem_iff_getElem?.mp hb
  exact (h.block i b hi).shared

/-- Rows of the right width can be appended to an `f32` cache that shares
nothing while it has room, and they take no block id. -/
theorem appendSnapshotRows_succeeds : ∀ (rs : List Row) {W : List Row} {s : LayerState},
    Window K s.cache W → s.cache.config = .f32 → Unshared s.cache →
    (∀ r ∈ rs, r.1.length = s.cache.vectorLen ∧ r.2.length = s.cache.vectorLen) →
    s.cache.tokenCount + rs.length ≤ s.cache.maxTokens →
    s.cache.tokensSeen + rs.length ≤ wordMax →
    ∃ s', appendSnapshotRows K rs s = .ok () s' ∧
      s'.rt.nextBlockId = s.rt.nextBlockId ∧ s'.cache.config = s.cache.config ∧
      s'.cache.keyValueHeads = s.cache.keyValueHeads ∧ s'.cache.headDim = s.cache.headDim
  | [], W, s, _, _, _, _, _, _ => ⟨s, rfl, rfl, rfl, rfl, rfl⟩
  | r :: rs, W, s, h, hf32, hun, hrows, hroom, hseen => by
    rw [List.length_cons] at hroom hseen
    have hacc : Acceptable s.cache r := by
      refine ⟨(hrows r (List.mem_cons_self ..)).1, (hrows r (List.mem_cons_self ..)).2, fun hor => ?_⟩
      rw [h.int8_iff, h.vq_iff, hf32] at hor
      simp [KvCacheConfig.f32] at hor
    rcases appendWithMetadata_spec (fun _ => 0) (r := r) h with
      ⟨e, -, hno | ⟨-, hno⟩ | hno | hno⟩ | ⟨s₁, ha, hok⟩
    · exact absurd hacc hno
    · omega
    · omega
    · obtain ⟨-, b, hb, hshared⟩ := hno
      simp [hun b hb, Arc.strongCount] at hshared
    · have hw₁ := h.appended ha
      obtain ⟨hun₁, hrt⟩ := (appendWithMetadata_wrote hok).unshared hun
      obtain ⟨-, -, -, b, b', -, -, -, -, hs₁⟩ := ha
      have hcfg : s₁.cache.config = s.cache.config := by rw [hs₁]; rfl
      have hmax : s₁.cache.maxTokens = s.cache.maxTokens := by rw [hs₁]; rfl
      have hheads : s₁.cache.keyValueHeads = s.cache.keyValueHeads := by rw [hs₁]; rfl
      have hdim : s₁.cache.headDim = s.cache.headDim := by rw [hs₁]; rfl
      have hvec : s₁.cache.vectorLen = s.cache.vectorLen := by rw [hs₁]; rfl
      have hcount : s₁.cache.tokenCount = s.cache.tokenCount + 1 := by rw [hs₁]; rfl
      have hseen₁ : s₁.cache.tokensSeen = s.cache.tokensSeen + 1 := by rw [hs₁]; rfl
      obtain ⟨s', hs', hrt', hcfg', hheads', hdim'⟩ := appendSnapshotRows_succeeds rs hw₁
        (hcfg.trans hf32) hun₁
        (fun q hq => by rw [hvec]; exact hrows q (List.mem_cons_of_mem _ hq)) (by omega) (by omega)
      refine ⟨s', ?_, hrt'.trans hrt, hcfg'.trans hcfg, hheads'.trans hheads, hdim'.trans hdim⟩
      rw [appendSnapshotRows, bind_apply, hok]
      exact hs'

/-- A snapshot of rows of the right width. -/
structure SnapshotOf (snap : LayerKvCacheSnapshot) (rows : List Row) : Prop where
  f32 : snap.config = .f32
  count : rows.length = snap.tokenCount
  count_le : snap.tokenCount ≤ snap.maxTokens
  seen : snap.tokenCount ≤ snap.tokensSeen
  keys : snap.keys = rows.flatMap (·.1)
  values : snap.values = rows.flatMap (·.2)
  width : ∀ r ∈ rows, r.1.length = snap.keyValueHeads * snap.headDim ∧
    r.2.length = snap.keyValueHeads * snap.headDim

theorem blockCount_le (n : ℕ) : blockCount n ≤ n := by
  unfold blockCount layerKvBlockTokens
  omega

/-- What a snapshot of `rows` is read back as. -/
structure Rebuilt (K : QuantKernels) (snap : LayerKvCacheSnapshot) (rows : List Row) (s : LayerState) :
    Prop where
  window : Window K s.cache rows
  ids : BlockIds s.cache s.rt
  config : s.cache.config = snap.config
  maxTokens : s.cache.maxTokens = snap.maxTokens
  keyValueHeads : s.cache.keyValueHeads = snap.keyValueHeads
  headDim : s.cache.headDim = snap.headDim
  tokensSeen : s.cache.tokensSeen = snap.tokensSeen
  revision : s.cache.revision = snap.revision

variable (rt) in
theorem fromSnapshot_succeeds {snap : LayerKvCacheSnapshot} (h : SnapshotOf snap rows)
    (hmax : 0 < snap.maxTokens) (hvec : 0 < snap.keyValueHeads * snap.headDim)
    (hle : snap.maxTokens * (snap.keyValueHeads * snap.headDim) ≤ vecF32Max)
    (hrt : rt.nextBlockId + blockCount snap.maxTokens ≤ wordMax) :
    ∃ s, fromSnapshot K snap rt = .ok s ∧ Rebuilt K snap rows s ∧
      s.rt.nextBlockId = rt.nextBlockId + blockCount snap.maxTokens := by
  have hcount := h.count_le
  have hseen := h.seen
  have hword : snap.maxTokens ≤ wordMax := by
    have hmul : snap.maxTokens * 1 ≤ snap.maxTokens * (snap.keyValueHeads * snap.headDim) :=
      Nat.mul_le_mul_left _ hvec
    unfold vecF32Max wordMax at *
    omega
  obtain ⟨c₀, rt₀, hnew⟩ := newWithConfig_succeeds rt ⟨hmax, hvec, hle, by omega⟩
    (show KvCacheConfig.f32.format ≠ .f16 by decide)
  have hn := newWithConfig_ok hnew
  have hvec₀ : c₀.vectorLen = snap.keyValueHeads * snap.headDim := hn.vectorLen
  have hw₀ : Window K c₀ [] := hn.window
  have hnext := hn.nextBlockId
  rw [hn.blocks_length] at hnext
  have hcount₀ : c₀.tokenCount = 0 := by rw [hn.cache]
  have hseen₀ : c₀.tokensSeen = 0 := by rw [hn.cache]
  have hmax₀ : c₀.maxTokens = snap.maxTokens := by rw [hn.cache]
  have hcfg₀ : c₀.config = .f32 := by rw [hn.cache]
  have hused : snap.tokenCount * c₀.vectorLen ≤ wordMax := by
    have hmul : snap.tokenCount * c₀.vectorLen ≤ snap.maxTokens * c₀.vectorLen :=
      Nat.mul_le_mul_right _ hcount
    rw [hvec₀] at hmul ⊢
    unfold vecF32Max wordMax at *
    omega
  have hk : snap.keys.length = snap.tokenCount * c₀.vectorLen := by
    rw [h.keys, hvec₀, ← h.count]
    exact length_flatMap_rows fun r hr => (h.width r hr).1
  have hv : snap.values.length = snap.tokenCount * c₀.vectorLen := by
    rw [h.values, hvec₀, ← h.count]
    exact length_flatMap_rows fun r hr => (h.width r hr).2
  have hrows : (chunksExact snap.keys c₀.vectorLen).zip (chunksExact snap.values c₀.vectorLen) =
      rows := by
    rw [hvec₀, h.keys, h.values, chunksExact_flatMap hvec fun r hr => (h.width r hr).1,
      chunksExact_flatMap hvec fun r hr => (h.width r hr).2, List.zip_map', List.map_id']
  have hlen := h.count
  obtain ⟨s₁, hs₁, hrt₁, hcfg, hheads, hdim⟩ := appendSnapshotRows_succeeds (K := K) (s := ⟨c₀, rt₀⟩)
    rows hw₀ hcfg₀ hn.unshared (fun r hr => by rw [hvec₀]; exact h.width r hr)
    (by dsimp only; omega) (by dsimp only; omega)
  obtain ⟨hw₁, hmax₁⟩ := appendSnapshotRows_ok (W := []) hw₀ hs₁
  have hids₁ := BlockIds.appendSnapshotRows hw₀ hn.blockIds hs₁
  rw [List.nil_append] at hw₁
  refine ⟨⟨{ s₁.cache with revision := snap.revision, tokensSeen := snap.tokensSeen }, s₁.rt⟩, ?_, ?_,
    ?_⟩
  · unfold fromSnapshot
    rw [if_neg (show ¬ (snap.tokenCount > snap.maxTokens ∨ snap.tokensSeen < snap.tokenCount) by
      omega)]
    simp only [h.f32, hnew, ok_bind, checkedMul_of_le hused, hk, hv, ne_eq,
      not_true_eq_false, ↓reduceIte, hrows, finish, hs₁]
    rfl
  · exact ⟨hw₁.withSeen _ _, ⟨hids₁.inj, hids₁.lt⟩, hcfg.trans (hcfg₀.trans h.f32.symm),
      hmax₁.trans hmax₀, hheads.trans (by dsimp only; rw [hn.cache]),
      hdim.trans (by dsimp only; rw [hn.cache]), rfl, rfl⟩
  · exact hrt₁.trans hnext

/-! ### Caches of one process -/

/-- The caches a process can have, with the rows each accepted since its last
clear: as `Reach`, but the block ids come from the one counter of the process,
which `elsewhere` only moves forward. -/
inductive Live (K : QuantKernels) : LayerState → List Row → Prop where
  | new {maxTokens keyValueHeads headDim : ℕ} {config : KvCacheConfig} {rt rt' : Statics}
      {c : LayerKvCache} : newWithConfig maxTokens keyValueHeads headDim config rt = .ok (c, rt') →
      Live K ⟨c, rt'⟩ []
  | elsewhere {s : LayerState} {rows : List Row} {rt : Statics} :
      s.rt.nextBlockId ≤ rt.nextBlockId → Live K s rows → Live K ⟨s.cache, rt⟩ rows
  | append {s s' : LayerState} {rows : List Row} {shares : Shares} {key value : List F32}
      {m : LayerKvCacheAppend} : Live K s rows →
      appendWithMetadata K shares key value s = .ok m s' → Live K s' (rows ++ [(key, value)])
  | appendSliding {s s' : LayerState} {rows : List Row} {shares : Shares} {key value : List F32}
      {m : LayerKvCacheAppend} : Live K s rows →
      appendSlidingWithMetadata K shares key value s = .ok m s' → Live K s' (rows ++ [(key, value)])
  | clear {s : LayerState} {rows : List Row} (shares : Shares) : Live K s rows →
      Live K (clear shares s) []
  | read {s : LayerState} {rows : List Row} : Live K s rows →
      Live K ⟨s.cache.readContiguous, s.rt⟩ rows
  | clone {s : LayerState} {rows : List Row} : Live K s rows →
      Live K ⟨(s.cache.clone s.rt).1, (s.cache.clone s.rt).2⟩ rows
  | fromPrefixCacheState {s s' : LayerState} {rows : List Row} : Live K s rows →
      fromPrefixCacheState K s.cache.prefixCacheState s.rt = .ok s' → Live K s' rows
  | fromSnapshot {s s' : LayerState} {rows : List Row} : Live K s rows →
      fromSnapshot K s.cache.snapshot s.rt = .ok s' → Live K s' rows

theorem Live.reach (h : Live K s rows) : Reach K s rows := by
  induction h with
  | new h => exact .new h
  | elsewhere _ _ ih => exact .elsewhere _ ih
  | append _ hok ih => exact .append ih hok
  | appendSliding _ hok ih => exact .appendSliding ih hok
  | clear shares _ ih => exact .clear shares ih
  | read _ ih => exact .read ih
  | clone _ ih => exact .clone _ ih
  | fromPrefixCacheState _ hok ih => exact .fromPrefixCacheState ih hok
  | fromSnapshot _ hok ih => exact .fromSnapshot ih hok

theorem BlockIds.fromSnapshot {snap : LayerKvCacheSnapshot} (h : fromSnapshot K snap rt = .ok s) :
    BlockIds s.cache s.rt := by
  unfold LayerKvCache.fromSnapshot at h
  simp only [throw_bind, guard_eq_ok, bind_eq_ok] at h
  obtain ⟨-, ⟨c₀, rt₀⟩, hnew, h⟩ := h
  have hn := newWithConfig_ok hnew
  dsimp only at h
  split at h
  · simp only [guard_eq_ok, bind_eq_ok, pure_eq_ok] at h
    obtain ⟨-, -, s₁, hfin, rfl⟩ := h
    have hids := BlockIds.appendSnapshotRows (W := []) hn.window hn.blockIds (finish_ok hfin)
    exact ⟨hids.inj, hids.lt⟩
  · cases h

/-- The run lemma: the blocks of a cache have different ids. -/
theorem Live.blockIds (h : Live K s rows) : BlockIds s.cache s.rt := by
  induction h with
  | new h => exact (newWithConfig_ok h).blockIds
  | elsewhere hrt _ ih => exact ih.of_ids rfl hrt
  | append h hok ih => exact ih.appended (appendWithMetadata_ok h.reach.window.1 hok).1
  | appendSliding h hok ih =>
    rcases appendSlidingWithMetadata_ok h.reach.window.1 hok with ⟨ha, -⟩ | ⟨ha, -⟩
    · exact ih.appended ha
    · exact ih.slid ha
  | clear shares _ ih =>
    exact ih.of_ids (clearBlocks_ids _ _) (le_of_eq (clearBlocks_nextBlockId _ _).symm)
  | read _ ih => exact ih.of_ids rfl le_rfl
  | clone _ ih =>
    refine ih.of_ids ?_ le_rfl
    change (List.map CacheBlock.clone _).map _ = _
    rw [List.map_map]
    rfl
  | fromPrefixCacheState h hok ih =>
    exact ih.restored (fromPrefixCacheState_ok h.reach.window.1 hok).2.1
  | fromSnapshot _ hok _ => exact .fromSnapshot hok

end LayerKvCache

/-! ### The rows of a prefix state -/

namespace LayerKvCachePrefixState

/-- Logical row `i`, as the retained blocks have it. -/
def row (st : LayerKvCachePrefixState) (i : ℕ) : Option Row := do
  let p := (st.windowStart + i) % st.maxTokens
  let pb ← st.blocks.find? (·.blockIndex = p / layerKvBlockTokens)
  let j := p % layerKvBlockTokens
  if j < pb.retained.tokenCount then
    some (Lib.row pb.retained.storage.val.keys pb.retained.vectorLen j,
      Lib.row pb.retained.storage.val.values pb.retained.vectorLen j)
  else none

def rows (st : LayerKvCachePrefixState) : List (Option Row) := (List.range st.tokenCount).map st.row

/-- The same rows in the same order, at the same positions, in the same shape. -/
structure Same (a b : LayerKvCachePrefixState) : Prop where
  revision : a.revision = b.revision
  config : a.config = b.config
  maxTokens : a.maxTokens = b.maxTokens
  keyValueHeads : a.keyValueHeads = b.keyValueHeads
  headDim : a.headDim = b.headDim
  tokenCount : a.tokenCount = b.tokenCount
  tokensSeen : a.tokensSeen = b.tokensSeen
  rows : a.rows = b.rows

end LayerKvCachePrefixState

namespace LayerKvCache

variable {K : QuantKernels} {c : LayerKvCache} {W : List Row}

theorem Window.prefixState_row (h : Window K c W) (hids : BlockIds c rt) {i : ℕ}
    (hi : i < c.tokenCount) : c.prefixCacheState.row i = W[i]? := by
  have hl := h.toLayout
  obtain ⟨r, hr⟩ : ∃ r, W[i]? = some r := ⟨_, List.getElem?_eq_getElem (by rw [h.length]; exact hi)⟩
  obtain ⟨b, hb, hk, hv⟩ := slotRow_eq_some (h.slotRow_some hr)
  obtain ⟨run, hrun, k, hk', rfl⟩ := hl.exists_run hi
  obtain ⟨-, hslot⟩ := hl.run_slot hrun hk'
  obtain ⟨hdiv, -⟩ := (hl.runs.inside run hrun).slot hk'
  obtain ⟨pb₀, hpb₀, hi₀⟩ := prefixBlocksOf_named hl hids c.activeBlockRuns [] hl.runs.inside run hrun
    List.not_mem_nil
  generalize hp : ringSlot c.windowStart (run.logicalTokenStart + k) c.maxTokens = p at *
  have hidx : pb₀.blockIndex = p / layerKvBlockTokens := by rw [hi₀, ← hdiv, hslot]
  cases hfind : c.prefixCacheState.blocks.find? (·.blockIndex = p / layerKvBlockTokens) with
  | none =>
    have := List.find?_eq_none.mp hfind pb₀ hpb₀
    simp [hidx] at this
  | some pb =>
    have hpbi : pb.blockIndex = p / layerKvBlockTokens := by simpa using List.find?_some hfind
    obtain ⟨-, -, -, block, hblock, hret⟩ := prefixBlocksOf_mem _ _ pb (List.mem_of_find?_eq_some hfind)
    rw [hpbi, hb] at hblock
    cases hblock
    rw [CacheBlock.key, CacheBlock.tokenSlice] at hk
    rw [CacheBlock.value, CacheBlock.tokenSlice] at hv
    by_cases hj : p % layerKvBlockTokens < b.tokenCount
    · rw [if_neg (by omega), Option.some.injEq] at hk hv
      have hslot' : (c.prefixCacheState.windowStart + (run.logicalTokenStart + k)) %
          c.prefixCacheState.maxTokens = p := hp
      have hj' : p % layerKvBlockTokens < b.retainStorage.tokenCount := hj
      simp only [LayerKvCachePrefixState.row, hslot', hfind, hret, Option.bind_eq_bind,
        Option.bind_some, if_pos hj', hr]
      exact congrArg some (Prod.ext hk hv)
    · rw [if_pos (by omega)] at hk
      cases hk

/-- The rows of a prefix state are the rows of the window it was taken of. -/
theorem Window.prefixState_rows (h : Window K c W) (hids : BlockIds c rt) :
    c.prefixCacheState.rows = W.map some := by
  refine List.ext_getElem? fun i => ?_
  rw [LayerKvCachePrefixState.rows, List.getElem?_map, List.getElem?_map,
    show c.prefixCacheState.tokenCount = W.length from h.length.symm]
  rcases Nat.lt_or_ge i W.length with hi | hi
  · rw [List.getElem?_range hi, Option.map_some, h.prefixState_row hids (h.length ▸ hi),
      List.getElem?_eq_getElem hi]
    rfl
  · rw [List.getElem?_eq_none (by rw [List.length_range]; exact hi), List.getElem?_eq_none hi]
    rfl

end LayerKvCache
end KirAi.KvCache
