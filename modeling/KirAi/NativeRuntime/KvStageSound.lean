/-
# When a staged read is up to date

The stage of a cache holds a window row when the row, converted, is at its slot
and at the slot's mirror (`Held`). `StageInv` says what the counters of the last
sync promise: as long as the revision moved on exactly as far as `tokens_seen`
did (no clear came between), the rows that were in the window then and still
are now are held. A clear shows in the revision and not in `tokens_seen` once
the cache is refilled past the old count, and the plan does not look at how far
the revision moved (`Missed`).

Key definitions: `Held`, `StageInv`, `Missed`, `StageRun`.
Key theorems: `plan_sound`, `stagedKvCacheRows_ok`, `stagedRead_eq_window`.
-/
import KirAi.NativeRuntime.KvStage
import KirAi.NativeRuntime.KvStageWrites

namespace KirAi.NativeRuntime

open Lib KvCache KvCache.LayerKvCache StageM

variable {K : QuantKernels} {toF16 : F32 → BitVec 16} {garbage : ℕ → BitVec 16} {shares : Shares}
  {c c' : LayerKvCache} {W W' : List Row} {m m' : MetalLayerKvStageMirror} {st st' : StageState}
  {r : Row}

/-! ### Writes into the stage -/

/-- The writes as the device makes them. -/
def f16Writes (toF16 : F32 → BitVec 16) (ws : List (ℕ × List F32)) : List (ℕ × List (BitVec 16)) :=
  ws.map fun w => (w.1, w.2.map toF16)

variable (toF16) in
theorem writeF16_ok (buffer : List (BitVec 16)) (start : ℕ) (values : List F32)
    (h : start + values.length ≤ buffer.length) (hw : buffer.length ≤ wordMax) :
    writeF16BufferRangeFromF32 toF16 buffer start values =
      .ok (splice buffer start (values.map toF16)) := by
  unfold writeF16BufferRangeFromF32
  rw [checkedAdd_of_le (by omega), okOrShape_some, ok_bind,
    if_neg (show ¬ start + values.length > buffer.length by omega)]
  rfl

variable (toF16 st) in
theorem writeStage_ok (start : ℕ) (keys values : List F32) {len : ℕ} (hst : st.stage = some m)
    (hk : m.keys.length = len) (hv : m.values.length = len) (hlen : len ≤ wordMax)
    (hks : start + keys.length ≤ len) (hvs : start + values.length ≤ len) :
    writeStage toF16 start keys values st = .ok () ⟨st.layer, some { m with
      keys := splice m.keys start (keys.map toF16)
      values := splice m.values start (values.map toF16) }⟩ := by
  have h1 := writeF16_ok toF16 m.keys start keys (by omega) (by omega)
  have h2 := writeF16_ok toF16 m.values start values (by omega) (by omega)
  unfold writeStage
  rw [bind_apply, get_apply]
  dsimp only
  rw [hst]
  simp only [h1, h2, bind_apply, ofResult_ok, setStage_apply]

/-- A list of writes that stay inside the stage. -/
theorem writeStageAll_ok {len : ℕ} (hlen : len ≤ wordMax) : ∀ (ws : List MetalStageWrite)
    (m : MetalLayerKvStageMirror) (st : StageState), st.stage = some m → m.keys.length = len →
    m.values.length = len → (∀ w ∈ keyWrites ws, w.1 + w.2.length ≤ len) →
    (∀ w ∈ valueWrites ws, w.1 + w.2.length ≤ len) →
    writeStageAll toF16 ws st = .ok () ⟨st.layer, some { m with
      keys := applyWrites (f16Writes toF16 (keyWrites ws)) m.keys
      values := applyWrites (f16Writes toF16 (valueWrites ws)) m.values }⟩
  | [], m, ⟨layer, stage⟩, hst, _, _, _, _ => by
    cases hst
    rfl
  | w :: ws, m, st, hst, hk, hv, hkw, hvw => by
    have h1 := hkw _ (List.mem_cons_self ..)
    have h2 := hvw _ (List.mem_cons_self ..)
    have hone := writeStage_ok toF16 st _ _ _ hst hk hv hlen h1 h2
    dsimp only at h1 h2
    rw [writeStageAll, bind_apply, hone]
    dsimp only
    rw [writeStageAll_ok hlen ws _ _ rfl
      (by rw [splice_length (by rw [List.length_map]; omega)]; exact hk)
      (by rw [splice_length (by rw [List.length_map]; omega)]; exact hv)
      (fun w' hw' => hkw w' (List.mem_cons_of_mem _ hw'))
      (fun w' hw' => hvw w' (List.mem_cons_of_mem _ hw'))]
    rfl

/-! ### Rows held by the stage -/

/-- The two places of logical row `i`. -/
def Place (c : LayerKvCache) (i p : ℕ) : Prop :=
  p = ringSlot c.windowStart i c.maxTokens ∨ p = ringSlot c.windowStart i c.maxTokens + c.maxTokens

theorem Place.ne (h : Layout c) {i j p q : ℕ} (hi : i < c.maxTokens) (hj : j < c.maxTokens)
    (hij : i ≠ j) (hp : Place c i p) (hq : Place c j q) : p ≠ q := by
  have hne : ringSlot c.windowStart i c.maxTokens ≠ ringSlot c.windowStart j c.maxTokens :=
    fun heq => hij (ringSlot_inj h.start_lt hi hj heq)
  have h1 : ringSlot c.windowStart i c.maxTokens < c.maxTokens := ringSlot_lt h.max_pos
  have h2 : ringSlot c.windowStart j c.maxTokens < c.maxTokens := ringSlot_lt h.max_pos
  rcases hp with rfl | rfl <;> rcases hq with rfl | rfl <;> omega

/-- The first `n` rows of the window are in the stage, converted, at both their
places. -/
def Held (toF16 : F32 → BitVec 16) (c : LayerKvCache) (W : List Row) (m : MetalLayerKvStageMirror)
    (n : ℕ) : Prop :=
  ∀ i r p, i < n → W[i]? = some r → Place c i p →
    row m.keys c.vectorLen p = r.1.map toF16 ∧ row m.values c.vectorLen p = r.2.map toF16

/-- A stage of a cache has the shape the code asks for. -/
abbrev Shaped (c : LayerKvCache) (m : MetalLayerKvStageMirror) : Prop :=
  m.isFor c (2 * c.maxTokens * c.vectorLen)

/-- Writing the rows from `a` on into a stage that holds the ones before. -/
theorem Held.written {a : ℕ} {ws : List MetalStageWrite} (hheld : Held toF16 c W m a)
    (h : Window K c W) (hm : Shaped c m)
    (hks : StageRows c W a c.tokenCount c.vectorLen (·.1) (keyWrites ws))
    (hvs : StageRows c W a c.tokenCount c.vectorLen (·.2) (valueWrites ws)) :
    let m' := { m with
      keys := applyWrites (f16Writes toF16 (keyWrites ws)) m.keys
      values := applyWrites (f16Writes toF16 (valueWrites ws)) m.values }
    Shaped c m' ∧ Held toF16 c W m' W.length := by
  have hl := h.toLayout
  obtain ⟨hid, hmax, hvec, hk, hv⟩ := hm
  have hks' := hks.map toF16
  have hvs' := hvs.map toF16
  refine ⟨⟨hid, hmax, hvec, hks'.length hl.vec_pos hk, hvs'.length hl.vec_pos hv⟩,
    fun i r p hi hr hp => ?_⟩
  have hcount := hl.count_le
  rw [h.length] at hi
  rcases Nat.lt_or_ge i a with hia | hia
  · -- a row before the range keeps its places
    have hkeep : ∀ j, a ≤ j → j < c.tokenCount → p ≠ ringSlot c.windowStart j c.maxTokens ∧
        p ≠ ringSlot c.windowStart j c.maxTokens + c.maxTokens := fun j hj hjc =>
      ⟨hp.ne hl (by omega) (by omega) (by omega) (.inl rfl),
        hp.ne hl (by omega) (by omega) (by omega) (.inr rfl)⟩
    obtain ⟨h1, h2⟩ := hheld i r p hia hr hp
    exact ⟨(hks'.kept hl hl.vec_pos hk hkeep).trans h1, (hvs'.kept hl hl.vec_pos hv hkeep).trans h2⟩
  · exact ⟨hks'.placed hl h.length hl.vec_pos hk hia hi hr hp,
      hvs'.placed hl h.length hl.vec_pos hv hia hi hr hp⟩

variable (st) in
/-- The sync of a range, as the code runs it. -/
theorem writeRange_ok {a : ℕ} (h : Window K st.layer.cache W) (hst : st.stage = some m)
    (hm : Shaped st.layer.cache m) (hheld : Held toF16 st.layer.cache W m a)
    {blocks : List LayerKvCacheBlock} (hblocks : st.layer.cache.activeBlocks = .ok blocks) :
    ∃ ws m', kvStageWritesFromActiveBlocks blocks a st.layer.cache.tokenCount
        st.layer.cache.vectorLen st.layer.cache.maxTokens = .ok ws ∧
      writeStageAll toF16 ws st = .ok () ⟨st.layer, some m'⟩ ∧ Shaped st.layer.cache m' ∧
      Held toF16 st.layer.cache W m' W.length ∧
      m' = { m with keys := m'.keys, values := m'.values } := by
  obtain ⟨ws, hws, hks, hvs, -⟩ := kvStageWrites_ok (a := a) h (le_of_eq h.length.symm) hblocks
  obtain ⟨hs, hheld'⟩ := hheld.written h hm hks hvs
  obtain ⟨-, -, -, hk, hv⟩ := hm
  refine ⟨ws, _, hws, ?_, hs, hheld', rfl⟩
  exact writeStageAll_ok (stage_words h.toLayout).1 ws m st hst hk hv (fun w => hks.inside)
    fun w => hvs.inside

/-! ### What the counters promise -/

/-- The invariant of the stage of a cache that holds the window `W`. -/
structure StageInv (toF16 : F32 → BitVec 16) (c : LayerKvCache) (W : List Row)
    (m : MetalLayerKvStageMirror) : Prop where
  shaped : Shaped c m
  /-- Every row seen since the sync has moved the revision. -/
  moved : ∀ rev, m.revisionAtLastSync = some rev → c.revision < wordMax →
    rev + (c.tokensSeen - m.tokensSeenAtLastSync) ≤ c.revision
  unmoved : m.revisionAtLastSync = some c.revision → c.revision < wordMax →
    m.tokensSeenAtLastSync = c.tokensSeen
  /-- The revision moved on with the rows seen: the rows seen before are held. -/
  held : ∀ rev, m.revisionAtLastSync = some rev → c.revision < wordMax →
    m.tokensSeenAtLastSync ≤ c.tokensSeen →
    c.revision = rev + (c.tokensSeen - m.tokensSeenAtLastSync) →
    Held toF16 c W m (c.tokenCount - (c.tokensSeen - m.tokensSeenAtLastSync))

/-- A clear that the plan does not see: the revision moved further than
`tokens_seen`, which is past the count of the last sync, but by fewer rows than
the window has. -/
def Missed (c : LayerKvCache) (m : MetalLayerKvStageMirror) : Prop :=
  ∃ rev, m.revisionAtLastSync = some rev ∧ m.tokensSeenAtLastSync < c.tokensSeen ∧
    c.tokensSeen - m.tokensSeenAtLastSync < c.tokenCount ∧
    rev + (c.tokensSeen - m.tokensSeenAtLastSync) < c.revision

/-- The rows before the range of a plan are held; all of them, when there is
nothing to write. -/
def PlanSound (toF16 : F32 → BitVec 16) (c : LayerKvCache) (W : List Row)
    (m : MetalLayerKvStageMirror) : MetalStageSyncPlan → Prop
  | .clean => Held toF16 c W m W.length
  | .write logicalStart logicalEnd _ => logicalEnd = c.tokenCount ∧ Held toF16 c W m logicalStart

theorem Held.zero : Held toF16 c W m 0 := fun _ _ _ hi => absurd hi (Nat.not_lt_zero _)

/-- A stage at the cache's revision holds the whole window. -/
theorem StageInv.held_all (hinv : StageInv toF16 c W m) (hlen : W.length = c.tokenCount)
    (hclean : m.revisionAtLastSync = some c.revision) (hrev : c.revision < wordMax) :
    Held toF16 c W m W.length := by
  have hseen := hinv.unmoved hclean hrev
  have hheld := hinv.held _ hclean hrev (le_of_eq hseen) (by rw [hseen]; omega)
  rwa [hseen, Nat.sub_self, Nat.sub_zero, ← hlen] at hheld

theorem plan_sound (h : Window K c W) (hinv : StageInv toF16 c W m) (hrev : c.revision < wordMax)
    (hmiss : ¬ Missed c m) : PlanSound toF16 c W m (m.plan c) := by
  unfold MetalLayerKvStageMirror.plan kvStageSyncPlan nextPosition
  dsimp only
  by_cases hclean : m.revisionAtLastSync = some c.revision
  · rw [if_pos hclean]
    exact hinv.held_all h.length hclean hrev
  · rw [if_neg hclean]
    by_cases hfull : m.revisionAtLastSync.isNone ∨ c.tokensSeen < m.tokensSeenAtLastSync ∨
        c.tokenCount < m.tokenCountAtLastSync
    · rw [if_pos hfull]
      exact ⟨rfl, Held.zero⟩
    · rw [if_neg hfull]
      by_cases hdirty : c.tokensSeen - m.tokensSeenAtLastSync = 0 ∨
          c.tokensSeen - m.tokensSeenAtLastSync > c.tokenCount
      · rw [if_pos hdirty]
        exact ⟨rfl, Held.zero⟩
      · rw [if_neg hdirty]
        refine ⟨rfl, ?_⟩
        -- an incremental write: either it writes all rows, or no clear came between
        obtain ⟨hsome, hseen⟩ := not_or.mp hfull
        obtain ⟨rev, hrev'⟩ := Option.isSome_iff_exists.mp
          (Option.isNone_eq_false_iff.mp (Bool.eq_false_iff.mpr hsome))
        by_cases hall : c.tokensSeen - m.tokensSeenAtLastSync = c.tokenCount
        · rw [hall, Nat.sub_self]
          exact Held.zero
        · have hmoved := hinv.moved rev hrev' hrev
          refine hinv.held rev hrev' hrev (by omega) ?_
          by_contra hne
          exact hmiss ⟨rev, hrev', by omega, by omega, by omega⟩

/-! ### The invariant under changes of the cache -/

/-- A row was accepted: `δ` rows left the window at its front, the others keep
their places. -/
structure Advanced (δ : ℕ) (c : LayerKvCache) (W : List Row) (r : Row) (c' : LayerKvCache)
    (W' : List Row) : Prop where
  id : c'.id = c.id
  maxTokens : c'.maxTokens = c.maxTokens
  vectorLen : c'.vectorLen = c.vectorLen
  revision : c'.revision = satAdd c.revision 1
  tokensSeen : c'.tokensSeen = c.tokensSeen + 1
  count : c'.tokenCount + δ = c.tokenCount + 1
  count_pos : 0 < c'.tokenCount
  old : ∀ i, i + 1 < c'.tokenCount → W'[i]? = W[i + δ]? ∧
    ringSlot c'.windowStart i c'.maxTokens = ringSlot c.windowStart (i + δ) c.maxTokens
  new : W'[c'.tokenCount - 1]? = some r

theorem advanced_of_appended {s s' : LayerState} (h : Window K s.cache W)
    (ha : AppendedAtEnd K shares s r s') : Advanced 0 s.cache W r s'.cache (W ++ [r]) ∧
      ringSlot s'.cache.windowStart (s'.cache.tokenCount - 1) s'.cache.maxTokens =
        s.cache.tokenCount := by
  obtain ⟨hn, -, -, b, b', -, -, -, -, hs'⟩ := ha
  have hcount : s'.cache.tokenCount = s.cache.tokenCount + 1 := by rw [hs']; rfl
  have hstart : s'.cache.windowStart = s.cache.windowStart := by rw [hs']; rfl
  have hmax : s'.cache.maxTokens = s.cache.maxTokens := by rw [hs']; rfl
  refine ⟨⟨by rw [hs']; rfl, hmax, by rw [hs']; rfl, by rw [hs']; rfl, by rw [hs']; rfl, by omega,
    by omega, fun i hi => ⟨?_, by rw [hstart, hmax]; rfl⟩, ?_⟩, ?_⟩
  · exact List.getElem?_append_left (by rw [h.length]; omega)
  · rw [hcount, Nat.add_sub_cancel, ← h.length, List.getElem?_concat_length]
  · rw [hstart, hmax, hcount, h.start_zero hn, Nat.add_sub_cancel, ringSlot_zero_start hn]

theorem advanced_of_slid {s s' : LayerState} (h : Window K s.cache W) (ha : Slid K shares s r s') :
    Advanced 1 s.cache W r s'.cache (W.tail ++ [r]) ∧
      ringSlot s'.cache.windowStart (s'.cache.tokenCount - 1) s'.cache.maxTokens =
        s.cache.windowStart := by
  obtain ⟨hfull, -, -, b, b', -, -, -, -, hs'⟩ := ha
  have hpos := h.max_pos
  have hcount : s'.cache.tokenCount = s.cache.tokenCount := by rw [hs']; rfl
  have hstart : s'.cache.windowStart = (s.cache.windowStart + 1) % s.cache.maxTokens := by
    rw [hs']; rfl
  have hmax : s'.cache.maxTokens = s.cache.maxTokens := by rw [hs']; rfl
  have htail : W.tail.length = s.cache.tokenCount - 1 := by rw [List.length_tail, h.length]
  refine ⟨⟨by rw [hs']; rfl, hmax, by rw [hs']; rfl, by rw [hs']; rfl, by rw [hs']; rfl, by omega,
    by omega, fun i hi => ⟨?_, by rw [hstart, hmax, ringSlot_succ_start]⟩, ?_⟩, ?_⟩
  · rw [List.getElem?_append_left (by omega), List.getElem?_tail]
  · rw [hcount, ← htail, List.getElem?_concat_length]
  · rw [hstart, hmax, hcount, ringSlot_succ_start, hfull,
      show s.cache.maxTokens - 1 + 1 = s.cache.maxTokens by omega, ringSlot_cap h.start_lt]

theorem satAdd_lt_wordMax {n : ℕ} (h : satAdd n 1 < wordMax) : satAdd n 1 = n + 1 ∧ n < wordMax := by
  unfold satAdd at h ⊢
  omega

/-- A row that is accepted leaves the rows held at their places. -/
theorem Held.advance {δ n : ℕ} (n' : ℕ) (ha : Advanced δ c W r c' W') (hheld : Held toF16 c W m n)
    (hn : ∀ i, i < n' → i + δ < n) (hn' : n' < c'.tokenCount) : Held toF16 c' W' m n' := by
  intro i x p hi hx hp
  obtain ⟨hw, hslot⟩ := ha.old i (by omega)
  rw [hw] at hx
  rw [ha.vectorLen]
  refine hheld (i + δ) x p (hn i hi) hx ?_
  unfold Place at hp ⊢
  rwa [hslot, ha.maxTokens] at hp

theorem Advanced.shaped {δ : ℕ} (ha : Advanced δ c W r c' W') (hm : Shaped c m) : Shaped c' m := by
  unfold Shaped MetalLayerKvStageMirror.isFor at hm ⊢
  rw [ha.id, ha.maxTokens, ha.vectorLen]
  exact hm

theorem StageInv.advance {δ : ℕ} (hinv : StageInv toF16 c W m) (ha : Advanced δ c W r c' W') :
    StageInv toF16 c' W' m := by
  have hcount := ha.count
  have hpos := ha.count_pos
  refine ⟨ha.shaped hinv.shaped, fun rev hr hlt => ?_, fun hr hlt => ?_,
    fun rev hr hlt hle heq => ?_⟩
  · rw [ha.revision] at hlt ⊢
    rw [ha.tokensSeen]
    obtain ⟨h1, h2⟩ := satAdd_lt_wordMax hlt
    have := hinv.moved rev hr h2
    omega
  · rw [ha.revision] at hr hlt
    obtain ⟨h1, h2⟩ := satAdd_lt_wordMax hlt
    have := hinv.moved _ hr h2
    omega
  · rw [ha.revision] at hlt heq
    rw [ha.tokensSeen] at hle heq ⊢
    obtain ⟨h1, h2⟩ := satAdd_lt_wordMax hlt
    have hmoved := hinv.moved rev hr h2
    exact (hinv.held rev hr h2 (by omega) (by omega)).advance _ ha (fun i hi => by omega) (by omega)

/-- A clear moves the revision and takes `tokens_seen` back. -/
theorem StageInv.clear {s : LayerState} (hinv : StageInv toF16 s.cache W m) :
    StageInv toF16 (clear shares s).cache [] m := by
  have hrev : (LayerKvCache.clear shares s).cache.revision = satAdd s.cache.revision 1 := rfl
  have hseen : (LayerKvCache.clear shares s).cache.tokensSeen = 0 := rfl
  refine ⟨hinv.shaped, fun rev hr hlt => ?_, fun hr hlt => ?_, fun rev hr hlt hle heq => ?_⟩
  · rw [hrev] at hlt ⊢
    obtain ⟨h1, h2⟩ := satAdd_lt_wordMax hlt
    have := hinv.moved rev hr h2
    omega
  · rw [hrev] at hr hlt
    obtain ⟨h1, h2⟩ := satAdd_lt_wordMax hlt
    have := hinv.moved _ hr h2
    omega
  · exact fun i x p hi hx => by cases hx

/-- A stage that was brought up to date. -/
theorem StageInv.synced (hm : Shaped c m) (hheld : Held toF16 c W m W.length)
    (hlen : W.length = c.tokenCount) (hrev : m.revisionAtLastSync = some c.revision)
    (hseen : m.tokensSeenAtLastSync = c.tokensSeen) : StageInv toF16 c W m := by
  refine ⟨hm, fun rev hr _ => ?_, fun _ _ => hseen, fun rev hr hlt hle heq => ?_⟩
  · rw [hrev, Option.some.injEq] at hr
    omega
  · rw [hseen, Nat.sub_self, Nat.sub_zero, ← hlen]
    exact hheld

/-- A stage that was never synced. -/
theorem StageInv.unsynced (hm : Shaped c m) (hrev : m.revisionAtLastSync = none) :
    StageInv toF16 c W m := by
  refine ⟨hm, fun rev hr _ => ?_, fun hr _ => ?_, fun rev hr _ _ _ => ?_⟩ <;>
    · rw [hrev] at hr
      cases hr

/-! ### Staged reads -/

theorem kvCacheStageElementLen_ok (h : Layout c) :
    kvCacheStageElementLen c = .ok (2 * c.maxTokens * c.vectorLen) := by
  have hw := (stage_words h).1
  rw [Nat.mul_assoc] at hw
  rw [kvCacheStageElementLen, checkedMul_of_le (by omega), Option.bind_some,
    checkedMul_of_le (by omega), okOrShape_some, Nat.mul_comm _ 2, Nat.mul_assoc]

variable (garbage) in
theorem newStage_ok (h : Layout c) :
    ∃ m, newStage garbage c (2 * c.maxTokens * c.vectorLen) = .ok m ∧ Shaped c m ∧
      m.revisionAtLastSync = none := by
  have hw : 2 * c.maxTokens * c.vectorLen * 2 ≤ wordMax := by
    have h1 := h.stage_le
    have h3 : 4 * vecF32Max ≤ wordMax := by decide
    rw [Nat.mul_assoc 2]
    omega
  have hnew : newF16BufferLen garbage (2 * c.maxTokens * c.vectorLen) =
      .ok ((List.range (2 * c.maxTokens * c.vectorLen)).map garbage) := by
    rw [newF16BufferLen, checkedMul_of_le hw, okOrShape_some, ok_bind]
    rfl
  refine ⟨_, by rw [newStage, hnew, ok_bind, ok_bind]; rfl, ⟨rfl, rfl, rfl, ?_, ?_⟩, rfl⟩ <;>
    simp only [List.length_map, List.length_range]

variable (garbage) in
/-- The entry that a read or a direct append finds or makes. -/
theorem stageForRead_ok (h : Layout st.layer.cache)
    (hinv : ∀ m, st.stage = some m → StageInv toF16 st.layer.cache W m) :
    ∃ m, stageForRead garbage (2 * st.layer.cache.maxTokens * st.layer.cache.vectorLen) st =
        .ok m ⟨st.layer, some m⟩ ∧ StageInv toF16 st.layer.cache W m ∧
      (st.stage = some m ∨ m.revisionAtLastSync = none) := by
  obtain ⟨layer, stage⟩ := st
  cases stage with
  | some m =>
    have hm := hinv m rfl
    refine ⟨m, ?_, hm, .inl rfl⟩
    simp only [stageForRead, bind_apply, getCache_apply, get_apply, if_pos hm.shaped, pure_apply]
  | none =>
    obtain ⟨m, hnew, hs, hrev⟩ := newStage_ok garbage h
    refine ⟨m, ?_, .unsynced hs hrev, .inr hrev⟩
    simp only [stageForRead, bind_apply, getCache_apply, get_apply, hnew, ofResult_ok,
      setStage_apply, pure_apply]

variable (garbage) in
theorem stageForAppend_ok (h : Layout st.layer.cache)
    (hinv : ∀ m, st.stage = some m → StageInv toF16 st.layer.cache W m) :
    ∃ m, stageForAppend garbage (2 * st.layer.cache.maxTokens * st.layer.cache.vectorLen) st =
        .ok m ⟨st.layer, some m⟩ ∧ StageInv toF16 st.layer.cache W m := by
  obtain ⟨layer, stage⟩ := st
  cases stage with
  | some m =>
    have hm := hinv m rfl
    refine ⟨m, ?_, hm⟩
    simp only [stageForAppend, bind_apply, getCache_apply, get_apply, if_pos hm.shaped, pure_apply]
  | none =>
    obtain ⟨m, hnew, hs, hrev⟩ := newStage_ok garbage h
    refine ⟨m, ?_, .unsynced hs hrev⟩
    simp only [stageForAppend, bind_apply, getCache_apply, get_apply, hnew, ofResult_ok,
      setStage_apply, pure_apply]

/-- The first active block starts where the window does. -/
theorem stagedKeyOffset_ok (h : Layout c) {blocks : List LayerKvCacheBlock}
    (hblocks : c.activeBlocks = .ok blocks) {n : ℕ} (hn : n ≤ c.tokenCount) :
    ∃ offset, stagedKeyOffset blocks c.vectorLen n = .ok offset ∧
      (0 < n → offset = c.windowStart * c.vectorLen) := by
  by_cases h0 : n = 0
  · exact ⟨0, by rw [stagedKeyOffset, if_pos h0], fun hpos => by omega⟩
  · obtain ⟨bs, hbs, hrep⟩ := h.activeBlocks
    obtain rfl := Except.ok.inj (hbs.symm.trans hblocks)
    cases hruns : c.activeBlockRuns with
    | nil =>
      obtain ⟨run, hrun, -⟩ := h.exists_run (i := 0) (by omega)
      rw [hruns] at hrun
      cases hrun
    | cons run runs =>
      rw [hruns] at hrep
      obtain _ | ⟨⟨block, -, rfl⟩, -⟩ := hrep
      have hw : c.windowStart * c.vectorLen ≤ wordMax := by
        refine le_trans (Nat.mul_le_mul_right _ ?_) (stage_words h).1
        have := h.start_lt
        omega
      refine ⟨_, ?_, fun _ => rfl⟩
      rw [stagedKeyOffset, if_neg h0, List.head?_cons, okOrShape_some, ok_bind, h.first_run hruns,
        checkedMul_of_le hw, okOrShape_some]

/-- The stage marked with the counters of the cache. -/
def MetalLayerKvStageMirror.marked (m : MetalLayerKvStageMirror) (c : LayerKvCache) :
    MetalLayerKvStageMirror :=
  { m with
    revisionAtLastSync := some c.revision, tokensSeenAtLastSync := c.tokensSeen
    tokenCountAtLastSync := c.tokenCount }

theorem StageInv.marked (hm : Shaped c m) (hheld : Held toF16 c W m W.length)
    (hlen : W.length = c.tokenCount) : StageInv toF16 c W (m.marked c) :=
  .synced (m := m.marked c) hm hheld hlen rfl rfl

variable (garbage) in
/-- A staged read of a cache whose stage is as the counters promise. -/
theorem stagedKvCacheRows_ok (h : Window K st.layer.cache W)
    (hinv : ∀ m, st.stage = some m → StageInv toF16 st.layer.cache W m)
    (hrev : st.layer.cache.revision < wordMax)
    (hmiss : ∀ m, st.stage = some m → ¬ Missed st.layer.cache m) {n : ℕ}
    (hn : n ≤ st.layer.cache.tokenCount) :
    ∃ offset m', stagedKvCacheRows toF16 garbage n st =
        .ok (m'.keys, offset, m'.values, offset) ⟨st.layer, some m'⟩ ∧
      StageInv toF16 st.layer.cache W m' ∧ Held toF16 st.layer.cache W m' W.length ∧
      (0 < n → offset = st.layer.cache.windowStart * st.layer.cache.vectorLen) := by
  have hl := h.toLayout
  obtain ⟨blocks, hblocks, -⟩ := hl.activeBlocks
  obtain ⟨offset, hoff, hoffset⟩ := stagedKeyOffset_ok hl hblocks hn
  obtain ⟨m, hstage, hm, hfrom⟩ := stageForRead_ok garbage hl hinv
  have hnot : ¬ Missed st.layer.cache m := by
    rcases hfrom with hst | hnone
    · exact hmiss m hst
    · rintro ⟨rev, hr, -⟩
      rw [hnone] at hr
      cases hr
  have hplan := plan_sound h hm hrev hnot
  cases hp : m.plan st.layer.cache with
  | clean =>
    rw [hp] at hplan
    refine ⟨offset, m, ?_, hm, hplan, hoffset⟩
    unfold stagedKvCacheRows
    simp only [bind_apply, getCache_apply, if_neg (Nat.not_lt.mpr hn), kvCacheStageElementLen_ok hl,
      ofResult_ok, hblocks, ofCache_ok, hoff, hstage, hp, pure_apply, stageBuffers, get_apply]
  | write a b full =>
    rw [hp] at hplan
    obtain ⟨rfl, hheld⟩ := hplan
    obtain ⟨ws, m', hws, hwrite, hs, hheld', -⟩ :=
      writeRange_ok ⟨st.layer, some m⟩ h rfl hm.shaped hheld hblocks
    refine ⟨offset, m'.marked st.layer.cache, ?_, .marked hs hheld' h.length, hheld', hoffset⟩
    unfold stagedKvCacheRows
    simp only [bind_apply, getCache_apply, if_neg (Nat.not_lt.mpr hn), kvCacheStageElementLen_ok hl,
      ofResult_ok, hblocks, ofCache_ok, hoff, hstage, hp, hws, hwrite, recordStageSync,
      setStage_apply, stageBuffers, get_apply, pure_apply]
    rfl

/-- The rows of a stage that holds the window, read from the window's start on. -/
theorem Held.read (hheld : Held toF16 c W m W.length) (h : Window K c W) (hm : Shaped c m) {n : ℕ}
    (hn : n ≤ c.tokenCount) :
    slice m.keys (c.windowStart * c.vectorLen) ((c.windowStart + n) * c.vectorLen) =
        (W.take n).flatMap (fun r => r.1.map toF16) ∧
      slice m.values (c.windowStart * c.vectorLen) ((c.windowStart + n) * c.vectorLen) =
        (W.take n).flatMap (fun r => r.2.map toF16) := by
  have hl := h.toLayout
  have hst := hl.start_lt
  have hcount := hl.count_le
  have hlen : (W.take n).length = n := by
    rw [List.length_take, h.length]
    omega
  obtain ⟨-, -, -, hk, hv⟩ := hm
  have hle : (c.windowStart + n) * c.vectorLen ≤ 2 * c.maxTokens * c.vectorLen :=
    Nat.mul_le_mul_right _ (by omega)
  have hrow : ∀ i r, (W.take n)[i]? = some r →
      row m.keys c.vectorLen (c.windowStart + i) = r.1.map toF16 ∧
        row m.values c.vectorLen (c.windowStart + i) = r.2.map toF16 := fun i r hr => by
    rw [List.getElem?_take] at hr
    split at hr
    · have hi := (List.getElem?_eq_some_iff.mp hr).1
      exact hheld i r _ hi hr (window_place hst (by rw [h.length] at hi; omega))
    · cases hr
  have hkeys := flatMap_eq_range fun i r hr => (hrow i r hr).1
  have hvalues := flatMap_eq_range fun i r hr => (hrow i r hr).2
  rw [hlen] at hkeys hvalues
  rw [← flatMap_row_range m.keys _ _ _ (by omega), ← flatMap_row_range m.values _ _ _ (by omega)]
  exact ⟨hkeys, hvalues⟩

/-! ### Direct appends -/

/-- The stage with a row written at slot `p` and at its mirror. -/
def MetalLayerKvStageMirror.withRow (m : MetalLayerKvStageMirror) (toF16 : F32 → BitVec 16)
    (p cap v : ℕ) (r : Row) : MetalLayerKvStageMirror :=
  { m with
    keys := splice (splice m.keys (p * v) (r.1.map toF16)) ((p + cap) * v) (r.1.map toF16)
    values := splice (splice m.values (p * v) (r.2.map toF16)) ((p + cap) * v) (r.2.map toF16) }

section WithRow

variable {p : ℕ} (hm : Shaped c m) (hkey : r.1.length = c.vectorLen)
  (hvalue : r.2.length = c.vectorLen) (hp : p < c.maxTokens)

include hm hkey hvalue hp

theorem Shaped.withRow : Shaped c (m.withRow toF16 p c.maxTokens c.vectorLen r) := by
  obtain ⟨h1, h2, h3, hk, hv⟩ := hm
  have hfit : ∀ q, q < 2 * c.maxTokens →
      q * c.vectorLen + c.vectorLen ≤ 2 * c.maxTokens * c.vectorLen := fun q hq => row_end_le hq
  have h4 := hfit p (by omega)
  have h5 := hfit (p + c.maxTokens) (by omega)
  have hlen : ∀ (l : List (BitVec 16)) (src : List F32), l.length = 2 * c.maxTokens * c.vectorLen →
      src.length = c.vectorLen →
      (splice (splice l (p * c.vectorLen) (src.map toF16)) ((p + c.maxTokens) * c.vectorLen)
        (src.map toF16)).length = 2 * c.maxTokens * c.vectorLen := fun l src hl hs => by
    have hone : (splice l (p * c.vectorLen) (src.map toF16)).length =
        2 * c.maxTokens * c.vectorLen := by
      rw [splice_length (by rw [List.length_map]; omega), hl]
    rw [splice_length (by rw [List.length_map]; omega), hone]
  exact ⟨h1, h2, h3, hlen _ _ hk hkey, hlen _ _ hv hvalue⟩

variable (toF16) in
theorem row_withRow (q : ℕ) :
    row (m.withRow toF16 p c.maxTokens c.vectorLen r).keys c.vectorLen q =
        (if q = p ∨ q = p + c.maxTokens then r.1.map toF16 else row m.keys c.vectorLen q) ∧
      row (m.withRow toF16 p c.maxTokens c.vectorLen r).values c.vectorLen q =
        (if q = p ∨ q = p + c.maxTokens then r.2.map toF16 else row m.values c.vectorLen q) := by
  obtain ⟨-, -, -, hk, hv⟩ := hm
  exact ⟨row_splice_mirrored hk ((List.length_map _).trans hkey) hp q,
    row_splice_mirrored hv ((List.length_map _).trans hvalue) hp q⟩

/-- A row written where none of the window is. -/
theorem Held.withRow_outside {n : ℕ} (hheld : Held toF16 c W m n)
    (hout : ∀ i q, i < n → Place c i q → q ≠ p ∧ q ≠ p + c.maxTokens) :
    Held toF16 c W (m.withRow toF16 p c.maxTokens c.vectorLen r) n := by
  intro i x q hi hx hq
  obtain ⟨h1, h2⟩ := hout i q hi hq
  obtain ⟨h3, h4⟩ := row_withRow toF16 hm hkey hvalue hp q
  rw [if_neg (not_or.mpr ⟨h1, h2⟩)] at h3 h4
  rw [h3, h4]
  exact hheld i x q hi hx hq

/-- The row that was accepted, written at its slot into a stage that held the
window before. -/
theorem Held.withRow_advance {δ : ℕ} (ha : Advanced δ c W r c' W') (hw' : Window K c' W')
    (hlen : W.length = c.tokenCount) (hheld : Held toF16 c W m W.length)
    (hslot : ringSlot c'.windowStart (c'.tokenCount - 1) c'.maxTokens = p) :
    Held toF16 c' W' (m.withRow toF16 p c.maxTokens c.vectorLen r) W'.length := by
  intro i x q hi hx hq
  have hcount := ha.count
  have hle := hw'.count_le
  rw [hw'.length] at hi
  obtain ⟨h3, h4⟩ := row_withRow toF16 hm hkey hvalue hp q
  rw [ha.vectorLen, h3, h4]
  by_cases hlast : i = c'.tokenCount - 1
  · have hqp : q = p ∨ q = p + c.maxTokens := by
      unfold Place at hq
      rwa [hlast, hslot, ha.maxTokens] at hq
    rw [hlast, ha.new, Option.some.injEq] at hx
    rw [if_pos hqp, if_pos hqp, hx]
    exact ⟨rfl, rfl⟩
  · have hlastPlace : ∀ q', q' = p ∨ q' = p + c.maxTokens → Place c' (c'.tokenCount - 1) q' :=
      fun q' hq' => by
        unfold Place
        rwa [hslot, ha.maxTokens]
    have hne : ¬ (q = p ∨ q = p + c.maxTokens) := fun hqp =>
      (hq.ne hw'.toLayout (by omega) (by omega) hlast (hlastPlace q hqp)) rfl
    rw [if_neg hne, if_neg hne, ← ha.vectorLen]
    exact (hheld.advance (c'.tokenCount - 1) ha (fun j hj => by omega) (by omega))
      i x q (by omega) hx hq

end WithRow

/-- Where the row of a sliding append goes. -/
def appendTargetOf (c : LayerKvCache) : LayerKvCacheAppendTarget :=
  if c.tokenCount < c.maxTokens then ⟨c.tokenCount, c.tokenCount, c.tokenCount⟩
  else ⟨c.maxTokens - 1, c.windowStart, c.tokenCount⟩

theorem appendTargetOf_lt (h : Layout c) : (appendTargetOf c).physicalTokenIndex < c.maxTokens := by
  unfold appendTargetOf
  split
  · assumption
  · exact h.start_lt

theorem slidingAppendTarget_ok (h : Layout c) : c.slidingAppendTarget = .ok (appendTargetOf c) := by
  have hlt := appendTargetOf_lt h
  unfold slidingAppendTarget
  unfold appendTargetOf at hlt ⊢
  split at hlt
  · rename_i hc
    simp only [if_pos hc, if_neg (Nat.not_le.mpr hlt)]
    rfl
  · rename_i hc
    simp only [if_neg hc, if_neg (Nat.not_le.mpr hlt)]
    rfl

variable (st) in
/-- The rebuild before a direct append leaves a stage that holds the window,
with the counters it had. -/
theorem rebuild_ok (h : Window K st.layer.cache W) (hst : st.stage = some m)
    (hm : StageInv toF16 st.layer.cache W m) (hrev : st.layer.cache.revision < wordMax)
    {blocks : List LayerKvCacheBlock} (hblocks : st.layer.cache.activeBlocks = .ok blocks) :
    ∃ ws m', m.rebuildWrites st.layer.cache blocks = .ok ws ∧
      writeStageAll toF16 ws st = .ok () ⟨st.layer, some m'⟩ ∧ Shaped st.layer.cache m' ∧
      Held toF16 st.layer.cache W m' W.length ∧
      m' = { m with keys := m'.keys, values := m'.values } := by
  by_cases hclean : m.revisionAtLastSync = some st.layer.cache.revision
  · refine ⟨[], m, if_pos hclean, ?_, hm.shaped, hm.held_all h.length hclean hrev, rfl⟩
    rw [← hst]
    rfl
  · obtain ⟨ws, m', hws, hwrite, hs, hheld, heq⟩ :=
      writeRange_ok st (a := 0) h hst hm.shaped Held.zero hblocks
    exact ⟨ws, m', (if_neg hclean).trans hws, hwrite, hs, hheld, heq⟩

/-- The invariant looks at the rows held and at the counters. -/
theorem StageInv.of_held (hinv : StageInv toF16 c W m) (hs : Shaped c m')
    (hheld : Held toF16 c W m' W.length) (hlen : W.length = c.tokenCount)
    (heq : m' = { m with keys := m'.keys, values := m'.values }) : StageInv toF16 c W m' := by
  have hrev : m'.revisionAtLastSync = m.revisionAtLastSync := by rw [heq]
  have hseen : m'.tokensSeenAtLastSync = m.tokensSeenAtLastSync := by rw [heq]
  refine ⟨hs, ?_, ?_, fun rev _ _ _ _ i r p hi => hheld i r p (by omega)⟩
  · rw [hrev, hseen]
    exact hinv.moved
  · rw [hrev, hseen]
    exact hinv.unmoved

variable (toF16 st r) in
/-- The two writes of the row itself. -/
theorem writeRow_ok {p : ℕ} (h : Layout st.layer.cache) (hst : st.stage = some m)
    (hm : Shaped st.layer.cache m) (hkey : r.1.length = st.layer.cache.vectorLen)
    (hvalue : r.2.length = st.layer.cache.vectorLen) (hp : p < st.layer.cache.maxTokens) :
    ∃ st₁, writeStage toF16 (p * st.layer.cache.vectorLen) r.1 r.2 st = .ok () st₁ ∧
      writeStage toF16 ((p + st.layer.cache.maxTokens) * st.layer.cache.vectorLen) r.1 r.2 st₁ =
        .ok () ⟨st.layer, some (m.withRow toF16 p st.layer.cache.maxTokens
          st.layer.cache.vectorLen r)⟩ := by
  obtain ⟨-, -, -, hk, hv⟩ := hm
  have hlen := (stage_words h).1
  have h1 : p * st.layer.cache.vectorLen + st.layer.cache.vectorLen ≤
      2 * st.layer.cache.maxTokens * st.layer.cache.vectorLen := row_end_le (by omega)
  have h2 : (p + st.layer.cache.maxTokens) * st.layer.cache.vectorLen + st.layer.cache.vectorLen ≤
      2 * st.layer.cache.maxTokens * st.layer.cache.vectorLen := row_end_le (by omega)
  have hks : (splice m.keys (p * st.layer.cache.vectorLen) (r.1.map toF16)).length =
      2 * st.layer.cache.maxTokens * st.layer.cache.vectorLen := by
    rw [splice_length (by rw [List.length_map]; omega), hk]
  have hvs : (splice m.values (p * st.layer.cache.vectorLen) (r.2.map toF16)).length =
      2 * st.layer.cache.maxTokens * st.layer.cache.vectorLen := by
    rw [splice_length (by rw [List.length_map]; omega), hv]
  have hone := writeStage_ok toF16 st (p * st.layer.cache.vectorLen) r.1 r.2 hst hk hv hlen (by omega) (by omega)
  let m₁ := { m with
    keys := splice m.keys (p * st.layer.cache.vectorLen) (r.1.map toF16)
    values := splice m.values (p * st.layer.cache.vectorLen) (r.2.map toF16) }
  have htwo := writeStage_ok toF16 ⟨st.layer, some m₁⟩
    ((p + st.layer.cache.maxTokens) * st.layer.cache.vectorLen) r.1 r.2 (m := m₁) rfl hks hvs hlen (by omega) (by omega)
  exact ⟨_, hone, htwo⟩

variable (c') in
theorem verifyDirectAppendMetadata_ok (h : Layout c)
    (hcount : c'.tokenCount = if c.tokenCount < c.maxTokens then c.tokenCount + 1 else c.maxTokens) :
    verifyDirectAppendMetadata c.maxTokens (appendTargetOf c)
      (c'.metadataOf (appendTargetOf c).tokenIndex (appendTargetOf c).physicalTokenIndex) = .ok () := by
  have hprev : (appendTargetOf c).previousTokenCount = c.tokenCount := by
    unfold appendTargetOf
    split <;> rfl
  have hw := (stage_words h).2
  have hc := h.count_le
  have hpos := h.max_pos
  have hexp : c'.tokenCount =
      if c.tokenCount < c.maxTokens then satAdd c.tokenCount 1 else c.maxTokens := by
    rw [hcount, satAdd_of_le (by omega)]
  unfold verifyDirectAppendMetadata
  dsimp only
  rw [hprev, ← hexp, if_neg]
  simp [metadataOf]

variable (garbage) in
/-- A row that is acceptable is written into a stage that held the window; the
counters of the stage stay. -/
theorem writeDirectAppend_ok {key value : List F32} (h : Window K st.layer.cache W)
    (hinv : ∀ m, st.stage = some m → StageInv toF16 st.layer.cache W m)
    (hrev : st.layer.cache.revision < wordMax) (hacc : Acceptable st.layer.cache (key, value)) :
    ∃ m₀ m, StageInv toF16 st.layer.cache W m₀ ∧ Shaped st.layer.cache m ∧
      Held toF16 st.layer.cache W m W.length ∧
      m = { m₀ with keys := m.keys, values := m.values } ∧
      writeDirectAppend toF16 garbage key value st = .ok (appendTargetOf st.layer.cache)
        ⟨st.layer, some (m.withRow toF16 (appendTargetOf st.layer.cache).physicalTokenIndex
          st.layer.cache.maxTokens st.layer.cache.vectorLen (key, value))⟩ := by
  have hl := h.toLayout
  have hval := validateSlidingAppend_ok (u := ()).mpr hacc
  obtain ⟨blocks, hblocks, -⟩ := hl.activeBlocks
  obtain ⟨m₀, hstage, hm₀⟩ := stageForAppend_ok garbage hl hinv
  obtain ⟨ws, m, hws, hwrite, hs, hheld, heq⟩ :=
    rebuild_ok ⟨st.layer, some m₀⟩ h rfl hm₀ hrev hblocks
  have hp := appendTargetOf_lt hl
  have hdest := kvStageDestinationStarts_ok "direct KV cache stage append"
    (show (appendTargetOf st.layer.cache).physicalTokenIndex + 1 ≤ st.layer.cache.maxTokens by omega)
    (stage_words hl).1 (stage_words hl).2
  obtain ⟨st₁, hrow1, hrow2⟩ := writeRow_ok toF16 ⟨st.layer, some m⟩ (key, value) hl rfl hs hacc.key hacc.value hp
  refine ⟨m₀, m, hm₀, hs, hheld, heq, ?_⟩
  dsimp only at hws hwrite hrow1 hrow2
  simp only [writeDirectAppend, bind_apply, getCache_apply, hval, ofCache_ok,
    slidingAppendTarget_ok hl, kvCacheStageElementLen_ok hl, ofResult_ok, hblocks, hstage, hws,
    hwrite, hdest, hrow1, hrow2, pure_apply]

/-- The end of a direct append that the cache accepts. -/
theorem finishDirectAppend_ok {key value : List F32} {layer layer' : LayerState}
    (hl : Layout layer.cache) (hmax : layer'.cache.maxTokens = layer.cache.maxTokens)
    (hcount : layer'.cache.tokenCount = if layer.cache.tokenCount < layer.cache.maxTokens then
      layer.cache.tokenCount + 1 else layer.cache.maxTokens)
    (hok : appendSlidingWithMetadata K shares key value layer = .ok
      (layer'.cache.metadataOf (appendTargetOf layer.cache).tokenIndex
        (appendTargetOf layer.cache).physicalTokenIndex) layer') :
    finishDirectAppend K shares (appendTargetOf layer.cache) key value ⟨layer, some m⟩ =
      .ok () ⟨layer', some (m.marked layer'.cache)⟩ := by
  have hverify := verifyDirectAppendMetadata_ok layer'.cache hl hcount
  simp only [finishDirectAppend, bind_apply, onCache, hok, getCache_apply, hmax, hverify, ofResult_ok,
    markF16StageSynced, get_apply, setStage_apply]
  rfl

variable (garbage shares) in
/-- A direct append either fails and leaves the cache, or appends the row; the
stage keeps the promise either way, unless a counter of the process is at its
end when a full window slides. -/
theorem appendDirect_spec (key value : List F32) (h : Window K st.layer.cache W)
    (hinv : ∀ m, st.stage = some m → StageInv toF16 st.layer.cache W m)
    (hrev : st.layer.cache.revision < wordMax)
    (hroom : st.layer.cache.tokenCount < st.layer.cache.maxTokens ∨
      st.layer.cache.tokensSeen < wordMax ∧ st.layer.rt.nextBlockId < wordMax) :
    (∃ e st', appendF16KvCacheSlidingDirect K toF16 shares garbage key value st = .error e st' ∧
      st'.layer = st.layer ∧ ∀ m, st'.stage = some m → StageInv toF16 st.layer.cache W m) ∨
    ∃ st' W' m, appendF16KvCacheSlidingDirect K toF16 shares garbage key value st = .ok () st' ∧
      appendSlidingWithMetadata K shares key value st.layer = .ok m st'.layer ∧
      Window K st'.layer.cache W' ∧
      ∀ m, st'.stage = some m → StageInv toF16 st'.layer.cache W' m := by
  have hl := h.toLayout
  by_cases hacc : Acceptable st.layer.cache (key, value)
  · obtain ⟨m₀, m, hm₀, hs, hheld, heq, hwrite⟩ :=
      writeDirectAppend_ok garbage h hinv hrev hacc
    have hp := appendTargetOf_lt hl
    rw [appendF16KvCacheSlidingDirect, bind_apply, hwrite]
    dsimp only
    rcases appendSlidingWithMetadata_spec shares (r := (key, value)) h with
      ⟨e, he, href⟩ | ⟨s', ha, hok⟩ | ⟨s', ha, hok⟩
    · -- the append is refused after the row was written: past the end of the window
      have hfree : st.layer.cache.tokenCount < st.layer.cache.maxTokens := by
        rcases href with hno | ⟨hf, -⟩ | hseen | hid
        · exact absurd hacc hno
        · cases hf
        · omega
        · have hout := hid.1
          omega
      have htarget : (appendTargetOf st.layer.cache).physicalTokenIndex =
          ringSlot st.layer.cache.windowStart st.layer.cache.tokenCount st.layer.cache.maxTokens := by
        rw [h.start_zero hfree, ringSlot_zero_start hfree, appendTargetOf, if_pos hfree]
      have hout : ∀ i q, i < W.length → Place st.layer.cache i q →
          q ≠ (appendTargetOf st.layer.cache).physicalTokenIndex ∧
          q ≠ (appendTargetOf st.layer.cache).physicalTokenIndex + st.layer.cache.maxTokens :=
        fun i q hi hq => by
          rw [h.length] at hi
          rw [htarget]
          exact ⟨hq.ne hl (by omega) hfree (by omega) (.inl rfl),
            hq.ne hl (by omega) hfree (by omega) (.inr rfl)⟩
      refine .inl ⟨kvCacheShapeError e, ⟨st.layer, some (m.withRow toF16
        (appendTargetOf st.layer.cache).physicalTokenIndex st.layer.cache.maxTokens
        st.layer.cache.vectorLen (key, value))⟩, ?_, rfl, fun m₂ hm₂ => ?_⟩
      · dsimp only at he
        simp only [finishDirectAppend, bind_apply, onCache, he]
      · cases hm₂
        refine hm₀.of_held (Shaped.withRow hs hacc.key hacc.value hp)
          (Held.withRow_outside hs hacc.key hacc.value hp hheld hout) h.length ?_
        rw [heq]
        rfl
    · -- appended at the end
      have htarget : appendTargetOf st.layer.cache =
          ⟨st.layer.cache.tokenCount, st.layer.cache.tokenCount, st.layer.cache.tokenCount⟩ :=
        if_pos ha.1
      obtain ⟨hadv, hslot⟩ := advanced_of_appended h ha
      have hw' := h.appended ha
      have hcount := hadv.count
      refine .inr ⟨_, _, _, finishDirectAppend_ok hl hadv.maxTokens ?_ (by rw [htarget]; exact hok),
        hok, hw', fun m₂ hm₂ => ?_⟩
      · rw [if_pos ha.1]
        omega
      · cases hm₂
        refine .marked (hadv.shaped (Shaped.withRow hs hacc.key hacc.value hp)) ?_ hw'.length
        refine Held.withRow_advance hs hacc.key hacc.value hp hadv hw' h.length hheld ?_
        rw [hslot, htarget]
    · -- the window slid
      have hfull : ¬ st.layer.cache.tokenCount < st.layer.cache.maxTokens := by
        have := ha.1
        omega
      have htarget : appendTargetOf st.layer.cache = ⟨st.layer.cache.maxTokens - 1,
          st.layer.cache.windowStart, st.layer.cache.tokenCount⟩ := if_neg hfull
      obtain ⟨hadv, hslot⟩ := advanced_of_slid h ha
      have hw' := h.slid ha
      have hcount := hadv.count
      have hcap := ha.1
      refine .inr ⟨_, _, _, finishDirectAppend_ok hl hadv.maxTokens ?_ (by rw [htarget]; exact hok),
        hok, hw', fun m₂ hm₂ => ?_⟩
      · rw [if_neg hfull]
        omega
      · cases hm₂
        refine .marked (hadv.shaped (Shaped.withRow hs hacc.key hacc.value hp)) ?_ hw'.length
        refine Held.withRow_advance hs hacc.key hacc.value hp hadv hw' h.length hheld ?_
        rw [hslot, htarget]
  · cases hval : st.layer.cache.validateSlidingAppend key value with
    | ok u => exact absurd (validateSlidingAppend_ok.mp hval) hacc
    | error e =>
      refine .inl ⟨kvCacheShapeError e, st, ?_, rfl, hinv⟩
      simp only [appendF16KvCacheSlidingDirect, writeDirectAppend, bind_apply, getCache_apply, hval,
        ofCache_error]

/-! ### Runs -/

/-- What can happen to a cache that has a stage; `removeCacheMirrors` drops the
stage, and `elsewhere` is what other caches of the process do to the counters. -/
inductive StageOp where
  | append (shares : Shares) (key value : List F32)
  | appendSliding (shares : Shares) (key value : List F32)
  | appendDirect (shares : Shares) (garbage : ℕ → BitVec 16) (key value : List F32)
  | clear (shares : Shares)
  | stagedRead (garbage : ℕ → BitVec 16) (rowCount : ℕ)
  | removeCacheMirrors
  | elsewhere (rt : Statics)

/-- The state that an operation leaves, and whether it succeeded. -/
def answered {α : Type} : EStateM.Result MetalError StageState α → Bool × StageState
  | .ok _ st => (true, st)
  | .error _ st => (false, st)

namespace StageOp

def run (K : QuantKernels) (toF16 : F32 → BitVec 16) : StageOp → StageState → Bool × StageState
  | append shares key value, st => answered (onCache (appendWithMetadata K shares key value) st)
  | appendSliding shares key value, st =>
    answered (onCache (appendSlidingWithMetadata K shares key value) st)
  | appendDirect shares garbage key value, st =>
    answered (appendF16KvCacheSlidingDirect K toF16 shares garbage key value st)
  | clear shares, st => (true, ⟨LayerKvCache.clear shares st.layer, st.stage⟩)
  | stagedRead garbage rowCount, st => answered (stagedKvCacheRows toF16 garbage rowCount st)
  | removeCacheMirrors, st => (true, ⟨st.layer, none⟩)
  | elsewhere rt, st => (true, ⟨⟨st.layer.cache, rt⟩, st.stage⟩)

/-- The rows accepted since the last clear. -/
def rowsAfter (rows : List Row) : StageOp → Bool → List Row
  | append _ key value, true => rows ++ [(key, value)]
  | appendSliding _ key value, true => rows ++ [(key, value)]
  | appendDirect _ _ key value, true => rows ++ [(key, value)]
  | clear _, _ => []
  | _, _ => rows

end StageOp

/-- The states of a cache with its stage, from a cache that has none, with the
rows accepted since the last clear; every step is one that `allowed` allows. -/
inductive StageRun (K : QuantKernels) (toF16 : F32 → BitVec 16)
    (allowed : StageState → StageOp → Prop) : StageState → List Row → Prop where
  | start {s : LayerState} {rows : List Row} : Reach K s rows →
      StageRun K toF16 allowed ⟨s, none⟩ rows
  | step {st : StageState} {rows : List Row} (op : StageOp) : StageRun K toF16 allowed st rows →
      allowed st op →
      StageRun K toF16 allowed (op.run K toF16 st).2 (op.rowsAfter rows (op.run K toF16 st).1)

/-- The steps that the counters can tell apart: the revision is not saturated,
no staged read comes after a clear that the plan does not see, and a full
window does not slide when a counter is at its end. -/
def Careful (st : StageState) : StageOp → Prop
  | .stagedRead _ _ => st.layer.cache.revision < wordMax ∧
      ∀ m, st.stage = some m → ¬ Missed st.layer.cache m
  | .appendDirect _ _ _ _ => st.layer.cache.revision < wordMax ∧
      (st.layer.cache.tokenCount < st.layer.cache.maxTokens ∨
        st.layer.cache.tokensSeen < wordMax ∧ st.layer.rt.nextBlockId < wordMax)
  | _ => True

/-- A cache holds one window. -/
theorem window_unique (h : Window K c W) (h' : Window K c W') : W = W' := by
  refine List.ext_getElem? fun i => ?_
  rcases Nat.lt_or_ge i c.tokenCount with hi | hi
  · rw [← h.slots i hi, ← h'.slots i hi]
  · rw [List.getElem?_eq_none (by rw [h.length]; exact hi),
      List.getElem?_eq_none (by rw [h'.length]; exact hi)]

/-- The stage keeps its promise. -/
def StageOk (toF16 : F32 → BitVec 16) (st : StageState) (rows : List Row) : Prop :=
  ∀ m, st.stage = some m →
    StageInv toF16 st.layer.cache (rows.rtake st.layer.cache.maxTokens) m

variable {rows : List Row} {layer' : LayerState} {key value : List F32}

/-- A row that the cache accepts outside of the stage. -/
theorem StageOk.accepted (hok : StageOk toF16 st rows) (hr : Reach K st.layer rows)
    (ha : AppendedAtEnd K shares st.layer (key, value) layer' ∨
      Slid K shares st.layer (key, value) layer') :
    StageOk toF16 ⟨layer', st.stage⟩ (rows ++ [(key, value)]) := by
  obtain ⟨hw, hseen⟩ := hr.window
  have hw' := (hw.accepted hseen ha).1
  intro m hm
  rcases ha with ha | ha
  · have := (hok m hm).advance (advanced_of_appended hw ha).1
    rwa [window_unique (hw.appended ha) hw'] at this
  · have := (hok m hm).advance (advanced_of_slid hw ha).1
    rwa [window_unique (hw.slid ha) hw'] at this

/-- One careful step. -/
theorem StageOk.step (op : StageOp) (hok : StageOk toF16 st rows) (hr : Reach K st.layer rows)
    (hcare : Careful st op) :
    Reach K (op.run K toF16 st).2.layer (op.rowsAfter rows (op.run K toF16 st).1) ∧
      StageOk toF16 (op.run K toF16 st).2 (op.rowsAfter rows (op.run K toF16 st).1) := by
  obtain ⟨hw, hseen⟩ := hr.window
  cases op with
  | append shares key value =>
    cases hres : appendWithMetadata K shares key value st.layer with
    | ok m layer' =>
      simp only [StageOp.run, onCache, hres, answered, StageOp.rowsAfter]
      exact ⟨.append hr hres, hok.accepted hr (.inl (appendWithMetadata_ok hw hres).1)⟩
    | error e layer' =>
      obtain ⟨rfl, -⟩ := appendWithMetadata_error hw hres
      simp only [StageOp.run, onCache, hres, answered, StageOp.rowsAfter]
      exact ⟨hr, hok⟩
  | appendSliding shares key value =>
    cases hres : appendSlidingWithMetadata K shares key value st.layer with
    | ok m layer' =>
      have ha := (appendSlidingWithMetadata_ok hw hres).imp And.left And.left
      simp only [StageOp.run, onCache, hres, answered, StageOp.rowsAfter]
      exact ⟨.appendSliding hr hres, hok.accepted hr ha⟩
    | error e layer' =>
      obtain ⟨rfl, -⟩ := appendSlidingWithMetadata_error hw hres
      simp only [StageOp.run, onCache, hres, answered, StageOp.rowsAfter]
      exact ⟨hr, hok⟩
  | appendDirect shares garbage key value =>
    rcases appendDirect_spec garbage shares key value
      hw hok hcare.1 hcare.2 with ⟨e, st', hres, hlayer, hinv⟩ | ⟨st', W', m, hres, happ, hw', hinv⟩
    · simp only [StageOp.run, hres, answered, StageOp.rowsAfter]
      refine ⟨hlayer ▸ hr, fun m hm => ?_⟩
      rw [hlayer]
      exact hinv m hm
    · simp only [StageOp.run, hres, answered, StageOp.rowsAfter]
      have hr' := Reach.appendSliding hr happ
      refine ⟨hr', fun m hm => ?_⟩
      rw [← window_unique hw' hr'.window.1]
      exact hinv m hm
  | clear shares =>
    refine ⟨.clear shares hr, fun m hm => ?_⟩
    rw [StageOp.rowsAfter, List.rtake_nil]
    exact (hok m hm).clear
  | stagedRead garbage n =>
    rcases Nat.lt_or_ge st.layer.cache.tokenCount n with hn | hn
    · have hres : (StageOp.stagedRead garbage n).run K toF16 st = (false, st) := by
        simp only [StageOp.run, stagedKvCacheRows, bind_apply, getCache_apply, if_pos hn, throw_apply,
          answered]
      rw [hres]
      exact ⟨hr, hok⟩
    · obtain ⟨offset, m', hres, hinv, -⟩ :=
        stagedKvCacheRows_ok garbage hw hok hcare.1 hcare.2 hn
      simp only [StageOp.run, hres, answered, StageOp.rowsAfter]
      refine ⟨hr, fun m hm => ?_⟩
      cases hm
      exact hinv
  | removeCacheMirrors => exact ⟨hr, fun m hm => by cases hm⟩
  | elsewhere rt => exact ⟨.elsewhere rt hr, hok⟩

/-- The run lemma. -/
theorem StageRun.ok (h : StageRun K toF16 Careful st rows) :
    Reach K st.layer rows ∧ StageOk toF16 st rows := by
  induction h with
  | start hr => exact ⟨hr, fun m hm => by cases hm⟩
  | step op _ hcare ih => exact ih.2.step op ih.1 hcare

/-- In every run of careful steps a staged read finds the window: the plan
leaves out only rows that are held, and the rows read from the stage are the
rows of the cache, converted. -/
theorem stagedRead_eq_window {n : ℕ} (h : StageRun K toF16 Careful st rows)
    (hcare : Careful st (.stagedRead garbage n)) :
    let c := st.layer.cache
    let W := rows.rtake c.maxTokens
    (∀ m, st.stage = some m → PlanSound toF16 c W m (m.plan c)) ∧
    (n ≤ c.tokenCount → ∃ keys values offset st',
      stagedKvCacheRows toF16 garbage n st = .ok (keys, offset, values, offset) st' ∧
      st'.layer = st.layer ∧
      slice keys offset (offset + n * c.vectorLen) = (W.take n).flatMap (fun r => r.1.map toF16) ∧
      slice values offset (offset + n * c.vectorLen) =
        (W.take n).flatMap (fun r => r.2.map toF16)) ∧
    (c.tokenCount < n →
      stagedKvCacheRows toF16 garbage n st = .error (rowCountError n c.tokenCount) st) := by
  obtain ⟨hr, hok⟩ := h.ok
  have hw := hr.window.1
  refine ⟨fun m hm => plan_sound hw (hok m hm) hcare.1 (hcare.2 m hm), fun hn => ?_, fun hn => ?_⟩
  · obtain ⟨offset, m', hres, hinv, hheld, hoff⟩ :=
      stagedKvCacheRows_ok garbage hw hok hcare.1 hcare.2 hn
    refine ⟨_, _, offset, _, hres, rfl, ?_⟩
    rcases Nat.eq_zero_or_pos n with rfl | hpos
    · simp [slice]
    · rw [hoff hpos, ← Nat.add_mul]
      exact hheld.read hw hinv.shaped hn
  · simp only [stagedKvCacheRows, bind_apply, getCache_apply, if_pos hn, throw_apply]

/-- Half precision of a normal value that has it exactly: the exponent is moved
to its bias and the low bits of the mantissa are zeros. -/
def exactF16 (x : F32) : BitVec 16 :=
  ((x.bits >>> 16).truncate 16 &&& 0x8000#16) |||
    (((x.bits >>> 13) - 0x1c000#32).truncate 16 &&& 0x7fff#16)

/-- A row appended to cache and stage at once is read from the stage. -/
theorem stagedRead_eq_window_direct : ∃ st keys values offset st',
    StageRun .onZeroRows exactF16 Careful st [([⟨0x3f800000⟩], [⟨0x40000000⟩])] ∧
    stagedKvCacheRows exactF16 (fun _ => 0) 1 st = .ok (keys, offset, values, offset) st' ∧
    slice keys offset (offset + 1) = [0x3c00] ∧ slice values offset (offset + 1) = [0x4000] := by
  let op : StageOp := .appendDirect (fun _ => 0) (fun _ => 0) [⟨0x3f800000⟩] [⟨0x40000000⟩]
  have hrun : (newWithConfig 4 1 1 .f32 .initial).toOption.map (fun p =>
      let next := op.run .onZeroRows exactF16 ⟨⟨p.1, p.2⟩, none⟩
      let c := next.2.layer.cache
      ([p.1.revision, p.1.tokenCount, p.1.maxTokens, c.revision, c.tokensSeen, c.tokenCount,
        c.maxTokens, c.vectorLen], next.1, next.2.stage.map (·.tokensSeenAtLastSync))) =
      some ([0, 0, 4, 1, 1, 1, 4, 1], true, some 1) := by decide +kernel
  obtain ⟨p, hp, hs⟩ := Option.map_eq_some_iff.mp hrun
  cases hnew : newWithConfig 4 1 1 .f32 .initial with
  | error e =>
    rw [hnew] at hp
    cases hp
  | ok q =>
    rw [hnew] at hp
    cases hp
    simp only [Prod.mk.injEq, List.cons.injEq, and_true] at hs
    obtain ⟨⟨h1, h2, h3, h5, h6, h7, h8, h9⟩, h4, h10⟩ := hs
    have hstep : StageRun .onZeroRows exactF16 Careful
        (op.run .onZeroRows exactF16 ⟨⟨p.1, p.2⟩, none⟩).2
        (op.rowsAfter [] (op.run .onZeroRows exactF16 ⟨⟨p.1, p.2⟩, none⟩).1) :=
      .step op (.start (.new hnew)) ⟨by rw [h1]; decide, .inl (by rw [h2, h3]; decide)⟩
    rw [h4] at hstep
    obtain ⟨-, hread, -⟩ := stagedRead_eq_window (n := 1) hstep
      (show Careful _ (.stagedRead (fun _ => 0) 1) from ⟨by rw [h5]; decide, fun m hm hmiss => by
        obtain ⟨rev, -, hlt, -⟩ := hmiss
        rw [hm, Option.map_some, Option.some.injEq] at h10
        rw [h10, h6] at hlt
        exact absurd hlt (by decide)⟩)
    obtain ⟨keys, values, offset, st', hok, -, hkeys, hvalues⟩ := hread (by rw [h7])
    rw [h9, h8] at hkeys hvalues
    exact ⟨_, keys, values, offset, st', hstep, hok, hkeys.trans (by decide), hvalues.trans (by decide)⟩

/-- A run of steps, with the rows accepted since the last clear. -/
def StageOp.runAll (K : QuantKernels) (toF16 : F32 → BitVec 16) (ops : List StageOp)
    (s : StageState × List Row) : StageState × List Row :=
  ops.foldl (fun s op => ((op.run K toF16 s.1).2, op.rowsAfter s.2 (op.run K toF16 s.1).1)) s

theorem StageRun.runAll {allowed : StageState → StageOp → Prop} (hall : ∀ st op, allowed st op) :
    ∀ (ops : List StageOp) {s : StageState × List Row}, StageRun K toF16 allowed s.1 s.2 →
      StageRun K toF16 allowed (StageOp.runAll K toF16 ops s).1 (StageOp.runAll K toF16 ops s).2
  | [], _, h => h
  | op :: ops, _, h => StageRun.runAll hall ops (.step op h (hall _ _))

/-- The keys that a staged read of `n` rows finds. -/
def stagedKeys (toF16 : F32 → BitVec 16) (n : ℕ) (st : StageState) : Option (List (BitVec 16)) :=
  match stagedKvCacheRows toF16 (fun _ => 0) n st with
  | .ok (keys, offset, _, _) _ =>
    some (slice keys offset (offset + n * st.layer.cache.vectorLen))
  | .error _ _ => none

/-- Two rows, a staged read, a clear and three rows: the next staged read plans
to write the third row only, and finds the two rows from before the clear. -/
theorem stagedRead_after_clear_stale :
    ¬ ∀ st rows, StageRun .onZeroRows exactF16 (fun _ _ => True) st rows →
      st.layer.cache.tokenCount = 3 → stagedKeys exactF16 3 st =
        some ((rows.rtake st.layer.cache.maxTokens).flatMap fun r => r.1.map exactF16) := by
  intro hall
  let x (bits : BitVec 32) : StageOp := .append (fun _ => 0) [⟨bits⟩] [⟨bits⟩]
  let ops := [x 0x3f800000, x 0x40000000, .stagedRead (fun _ => 0) 2, .clear fun _ => 0,
    x 0x40400000, x 0x40800000, x 0x40a00000]
  have hrun : (newWithConfig 4 1 1 .f32 .initial).toOption.map (fun p =>
      let s := StageOp.runAll .onZeroRows exactF16 ops (⟨⟨p.1, p.2⟩, none⟩, [])
      (s.1.layer.cache.tokenCount, stagedKeys exactF16 3 s.1,
        (s.2.rtake s.1.layer.cache.maxTokens).flatMap fun r => r.1.map exactF16)) =
      some (3, some [0x3c00, 0x4000, 0x4500], [0x4200, 0x4400, 0x4500]) := by decide +kernel
  obtain ⟨p, hp, hs⟩ := Option.map_eq_some_iff.mp hrun
  cases hnew : newWithConfig 4 1 1 .f32 .initial with
  | error e =>
    rw [hnew] at hp
    cases hp
  | ok q =>
    have hstart : StageRun .onZeroRows exactF16 (fun _ _ => True) ⟨⟨q.1, q.2⟩, none⟩ [] :=
      .start (.new hnew)
    rw [hnew] at hp
    cases hp
    obtain ⟨hcount, hkeys⟩ := Prod.mk.inj hs
    obtain ⟨hkeys, hrows⟩ := Prod.mk.inj hkeys
    have hread := hall _ _ (hstart.runAll (fun _ _ => trivial) ops) hcount
    rw [hkeys, hrows] at hread
    revert hread
    decide

end KirAi.NativeRuntime
