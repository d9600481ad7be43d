/-
# What the operations of a layer cache do to its window

An append either fails and leaves the state as it was, for one of the reasons
in `Refusal`, or writes one row: at the end while there is room
(`AppendedAtEnd`), over the oldest row afterwards (`Slid`). With
`KvCache/LayerWindow.lean` each operation is its list operation on the window.

Key theorems: `appendWithMetadata_spec`, `appendSlidingWithMetadata_spec`,
`Window.appended`, `Window.slid`, `Window.clear`, `Window.clone`,
`newWithConfig_window`.
-/
import KirAi.KvCache.LayerWindow

namespace KirAi.KvCache
namespace LayerKvCache

open Lib LayerM

variable {K : QuantKernels} {shares : Shares} {c : LayerKvCache} {W : List Row} {s s' : LayerState}
  {r : Row}

/-! ### Validation -/

theorem validateTokenShape_ok {key value : List F32} {u : Unit} :
    c.validateTokenShape key value = .ok u ↔
      key.length = c.vectorLen ∧ value.length = c.vectorLen := by
  simp [validateTokenShape]

theorem validateCompressedTokenPayload_ok {key value : List F32} {u : Unit} :
    c.validateCompressedTokenPayload key value = .ok u ↔
      (c.int8Storage.isSome ∨ c.quantizedValues.isSome → AllFinite key ∧ AllFinite value) := by
  unfold validateCompressedTokenPayload
  by_cases hc : c.quantizedValues.isNone = true ∧ c.int8Storage.isNone = true
  · have hnone : ¬ (c.int8Storage.isSome = true ∨ c.quantizedValues.isSome = true) := by
      rw [Option.isNone_iff_eq_none, Option.isNone_iff_eq_none] at hc
      simp [hc.1, hc.2]
    simp [hc, hnone]
  · have hsome : c.int8Storage.isSome = true ∨ c.quantizedValues.isSome = true := by
      rw [Option.isNone_iff_eq_none, Option.isNone_iff_eq_none, not_and_or] at hc
      rcases hc with hc | hc
      · exact .inr (Option.isSome_iff_ne_none.mpr hc)
      · exact .inl (Option.isSome_iff_ne_none.mpr hc)
    simp only [hc, hsome, ↓reduceIte, guard_eq_ok, pure_eq_ok, and_true, forall_const]
    simp [AllFinite]

theorem validateSlidingAppend_ok {key value : List F32} {u : Unit} :
    c.validateSlidingAppend key value = .ok u ↔ Acceptable c (key, value) := by
  simp only [validateSlidingAppend, bind_eq_ok, validateTokenShape_ok,
    validateCompressedTokenPayload_ok, exists_const]
  exact ⟨fun ⟨⟨h1, h2⟩, h3⟩ => ⟨h1, h2, h3⟩, fun h => ⟨⟨h.key, h.value⟩, h.finite⟩⟩

/-! ### Appends -/

/-- Why an append is refused: a row that is not acceptable, a full window that
may not slide, a counter of rows that is at its end, or a block that is shared
and finds no block id of its own. -/
def Refusal (shares : Shares) (s : LayerState) (r : Row) (sliding : Bool) : Prop :=
  ¬ Acceptable s.cache r ∨ (sliding = false ∧ s.cache.tokenCount = s.cache.maxTokens) ∨
    wordMax ≤ s.cache.tokensSeen ∨ OutOfIds shares s

/-- The state after a row was appended at the end. -/
def AppendedAtEnd (K : QuantKernels) (shares : Shares) (s : LayerState) (r : Row) (s' : LayerState) :
    Prop :=
  s.cache.tokenCount < s.cache.maxTokens ∧ Acceptable s.cache r ∧
    s.cache.tokensSeen + 1 ≤ wordMax ∧ ∃ b b',
    s.cache.blocks[s.cache.tokenCount / layerKvBlockTokens]? = some b ∧
    CacheBlock.Written b b' (s.cache.tokenCount % layerKvBlockTokens) r ∧ b'.id ≠ 0 ∧
    Rewritten shares b s.rt b' s'.rt ∧
    s'.cache = s.cache.afterWrite K s.cache.tokenCount b' r
      (extendRuns (refreshActiveBlockRunIds (s.cache.tokenCount / layerKvBlockTokens) b'.id
        s.cache.activeBlockRuns) {
          blockIndex := s.cache.tokenCount / layerKvBlockTokens, blockId := b'.id
          logicalTokenStart := s.cache.tokenCount, physicalTokenStart := s.cache.tokenCount
          blockTokenStart := s.cache.tokenCount % layerKvBlockTokens, tokenCount := 1 })
      (s.cache.tokenCount + 1) s.cache.windowStart (s.cache.tokensSeen + 1)
      (satAdd s.cache.revision 1)

/-- The state after a full window slid. -/
def Slid (K : QuantKernels) (shares : Shares) (s : LayerState) (r : Row) (s' : LayerState) : Prop :=
  s.cache.tokenCount = s.cache.maxTokens ∧ Acceptable s.cache r ∧
    s.cache.tokensSeen + 1 ≤ wordMax ∧ ∃ b b',
    s.cache.blocks[s.cache.windowStart / layerKvBlockTokens]? = some b ∧
    CacheBlock.Written b b' (s.cache.windowStart % layerKvBlockTokens) r ∧ b'.id ≠ 0 ∧
    Rewritten shares b s.rt b' s'.rt ∧
    s'.cache = s.cache.afterWrite K s.cache.windowStart b' r
      (extendRuns (dropOldestRuns (refreshActiveBlockRunIds
        (s.cache.windowStart / layerKvBlockTokens) b'.id s.cache.activeBlockRuns)) {
          blockIndex := s.cache.windowStart / layerKvBlockTokens, blockId := b'.id
          logicalTokenStart := s.cache.maxTokens - 1, physicalTokenStart := s.cache.windowStart
          blockTokenStart := s.cache.windowStart % layerKvBlockTokens, tokenCount := 1 })
      s.cache.tokenCount ((s.cache.windowStart + 1) % s.cache.maxTokens) (s.cache.tokensSeen + 1)
      (satAdd s.cache.revision 1)

/-- What an append answers about the state it leaves. -/
def metadataOf (c : LayerKvCache) (tokenIndex physicalTokenIndex : ℕ) : LayerKvCacheAppend where
  tokenIndex := tokenIndex
  physicalTokenIndex := physicalTokenIndex
  tokenCount := c.tokenCount
  tokensSeen := c.tokensSeen
  revision := c.revision

theorem withRow_listedBlock {i : ℕ} {b b' : CacheBlock} (hb : c.blocks[i]? = some b) :
    (c.withRow K i b').listedBlock i = some b' := by
  have hlt := (List.getElem?_eq_some_iff.mp hb).1
  have h1 : (c.withRow K i b').blocks[i]? = some b' := List.getElem?_set_self hlt
  have h2 : (c.withRow K i b').blockTable.get i = some b'.id := by
    change ((c.blocks.set i b').map (·.id))[i]? = _
    rw [List.getElem?_map, List.getElem?_set_self hlt]
    rfl
  simp [listedBlock, h1, h2]

variable (shares) in
theorem appendAtEndValidated_spec (h : Window K s.cache W) (hr : Acceptable s.cache r)
    (hn : s.cache.tokenCount < s.cache.maxTokens) :
    (∃ e, appendAtEndValidated K shares r.1 r.2 s = .error e s ∧ Refusal shares s r false) ∨
    ∃ s', AppendedAtEnd K shares s r s' ∧ appendAtEndValidated K shares r.1 r.2 s =
      .ok (s'.cache.metadataOf s.cache.tokenCount s.cache.tokenCount) s' := by
  have hne : s.cache.tokenCount ≠ s.cache.maxTokens := by omega
  cases hseen : checkedAdd s.cache.tokensSeen 1 with
  | none =>
    refine .inl ⟨.invalidShape, by simp [appendAtEndValidated, hne, hseen], .inr (.inr (.inl ?_))⟩
    by_contra hlt
    rw [checkedAdd_of_le (by omega)] at hseen
    cases hseen
  | some seen =>
    obtain ⟨hle, rfl⟩ := checkedAdd_eq_some.mp hseen
    rcases appendBlockToken_spec shares h.toLayout h.toCompressed hr hn with
      ⟨e, he, hmax⟩ | ⟨b, b', rt', hb, hw, hid, hrew, hok⟩
    · exact .inl ⟨e, by simp [appendAtEndValidated, hne, hseen, he], .inr (.inr (.inr hmax))⟩
    · have hstage := writeStageToken_spec
        (s := ⟨s.cache.withRow K (s.cache.tokenCount / layerKvBlockTokens) b', rt'⟩) (r := r)
        hr.key hr.value hn h.keyStage_length h.valueStage_length h.stage_le
      have hrun := appendActiveBlockRun_spec (n := s.cache.tokenCount) (b := b')
        (s := ⟨(s.cache.withRow K (s.cache.tokenCount / layerKvBlockTokens) b').withStageRow
          s.cache.tokenCount r, rt'⟩) hn (withRow_listedBlock (K := K) hb)
      refine .inr ⟨⟨_, rt'⟩, ⟨hn, hr, hle, b, b', hb, hw, hid, hrew, rfl⟩, ?_⟩
      simp only [appendAtEndValidated, bind_apply, getCache_apply, hne, ↓reduceIte, hseen,
        okOr_some, hok, hstage, hrun, modifyCache_apply, pure_apply]
      rfl

variable (shares) in
theorem slidingBranch_spec (h : Window K s.cache W) (hr : Acceptable s.cache r)
    (hfull : s.cache.tokenCount = s.cache.maxTokens) :
    (∃ e, appendSlidingWithMetadata K shares r.1 r.2 s = .error e s ∧ Refusal shares s r true) ∨
    ∃ s', Slid K shares s r s' ∧ appendSlidingWithMetadata K shares r.1 r.2 s =
      .ok (s'.cache.metadataOf (s.cache.maxTokens - 1) s.cache.windowStart) s' := by
  have hne : ¬ (s.cache.tokenCount < s.cache.maxTokens) := by omega
  have hval : s.cache.validateSlidingAppend r.1 r.2 = .ok () := validateSlidingAppend_ok.mpr hr
  cases hseen : checkedAdd s.cache.tokensSeen 1 with
  | none =>
    refine .inl ⟨.invalidShape, by simp [appendSlidingWithMetadata, hval, hne, hseen],
      .inr (.inr (.inl ?_))⟩
    by_contra hlt
    rw [checkedAdd_of_le (by omega)] at hseen
    cases hseen
  | some seen =>
    obtain ⟨hle, rfl⟩ := checkedAdd_eq_some.mp hseen
    rcases writeBlockToken_spec shares h.toLayout h.toCompressed hr h.start_lt hfull with
      ⟨e, he, hmax⟩ | ⟨b, b', rt', hb, hw, hid, hrew, hok⟩
    · exact .inl ⟨e, by simp [appendSlidingWithMetadata, hval, hne, hseen, he],
        .inr (.inr (.inr hmax))⟩
    · have hmaxw : s.cache.maxTokens < wordMax := by
        have h1 : s.cache.maxTokens * 1 ≤ s.cache.maxTokens * s.cache.vectorLen :=
          Nat.mul_le_mul_left _ h.vec_pos
        have h2 := h.stage_le
        have h3 : vecF32Max < wordMax := by decide
        omega
      have hstage := writeStageToken_spec
        (s := ⟨s.cache.withRow K (s.cache.windowStart / layerKvBlockTokens) b', rt'⟩) (r := r)
        hr.key hr.value h.start_lt h.keyStage_length h.valueStage_length h.stage_le
      have hcover := h.runs.refresh (s.cache.windowStart / layerKvBlockTokens) b'.id
      rw [show s.cache.tokenCount = s.cache.maxTokens - 1 + 1 by have := h.max_pos; omega] at hcover
      have hdrop := removeOldestActiveBlockToken_spec
        (s := ⟨(s.cache.withRow K (s.cache.windowStart / layerKvBlockTokens) b').withStageRow
          s.cache.windowStart r, rt'⟩) hcover hmaxw
      have hrun := fun runs => appendActiveBlockRun_spec (n := s.cache.maxTokens - 1) (b := b')
        (s := ⟨{ (s.cache.withRow K (s.cache.windowStart / layerKvBlockTokens) b').withStageRow
          s.cache.windowStart r with activeBlockRuns := runs }, rt'⟩)
        h.start_lt (withRow_listedBlock (K := K) hb)
      refine .inr ⟨⟨_, rt'⟩, ⟨hfull, hr, hle, b, b', hb, hw, hid, hrew, rfl⟩, ?_⟩
      simp only [appendSlidingWithMetadata, bind_apply, getCache_apply, hval, ofResult_ok, hne,
        ↓reduceIte, hseen, okOr_some, hok, hstage, hdrop, hrun, modifyCache_apply, pure_apply]
      rfl

variable (shares) in
/-- Plain append: refused and nothing changed, or one row at the end. -/
theorem appendWithMetadata_spec (h : Window K s.cache W) :
    (∃ e, appendWithMetadata K shares r.1 r.2 s = .error e s ∧ Refusal shares s r false) ∨
    ∃ s', AppendedAtEnd K shares s r s' ∧ appendWithMetadata K shares r.1 r.2 s =
      .ok (s'.cache.metadataOf s.cache.tokenCount s.cache.tokenCount) s' := by
  cases hv : s.cache.validateTokenShape r.1 r.2 with
  | error e =>
    refine .inl ⟨e, by simp [appendWithMetadata, hv], .inl fun ha => ?_⟩
    rw [validateTokenShape_ok (u := ()).mpr ⟨ha.key, ha.value⟩] at hv
    cases hv
  | ok u =>
    cases hp : s.cache.validateCompressedTokenPayload r.1 r.2 with
    | error e =>
      refine .inl ⟨e, by simp [appendWithMetadata, hv, hp], .inl fun ha => ?_⟩
      rw [validateCompressedTokenPayload_ok (u := ()).mpr ha.finite] at hp
      cases hp
    | ok u' =>
      obtain ⟨hk, hval⟩ := validateTokenShape_ok.mp hv
      have hr : Acceptable s.cache r := ⟨hk, hval, validateCompressedTokenPayload_ok.mp hp⟩
      by_cases hfull : s.cache.tokenCount = s.cache.maxTokens
      · exact .inl ⟨.capacityExceeded 1 0, by simp only [appendWithMetadata, bind_apply,
          getCache_apply, hv, hp, ofResult_ok, hfull, ↓reduceIte, throw_apply],
          .inr (.inl ⟨rfl, hfull⟩)⟩
      · have hn : s.cache.tokenCount < s.cache.maxTokens := by
          have := h.count_le
          omega
        have heq : appendWithMetadata K shares r.1 r.2 s = appendAtEndValidated K shares r.1 r.2 s := by
          simp only [appendWithMetadata, bind_apply, getCache_apply, hv, hp, ofResult_ok, hfull,
            ↓reduceIte]
        rw [heq]
        exact appendAtEndValidated_spec shares h hr hn

variable (shares) in
/-- Sliding append: refused and nothing changed, or one row at the end, or one
row over the oldest. -/
theorem appendSlidingWithMetadata_spec (h : Window K s.cache W) :
    (∃ e, appendSlidingWithMetadata K shares r.1 r.2 s = .error e s ∧ Refusal shares s r true) ∨
    (∃ s', AppendedAtEnd K shares s r s' ∧ appendSlidingWithMetadata K shares r.1 r.2 s =
      .ok (s'.cache.metadataOf s.cache.tokenCount s.cache.tokenCount) s') ∨
    ∃ s', Slid K shares s r s' ∧ appendSlidingWithMetadata K shares r.1 r.2 s =
      .ok (s'.cache.metadataOf (s.cache.maxTokens - 1) s.cache.windowStart) s' := by
  cases hv : s.cache.validateSlidingAppend r.1 r.2 with
  | error e =>
    refine .inl ⟨e, by simp [appendSlidingWithMetadata, hv], .inl fun ha => ?_⟩
    rw [validateSlidingAppend_ok (u := ()).mpr ha] at hv
    cases hv
  | ok u =>
    have hr : Acceptable s.cache r := validateSlidingAppend_ok.mp hv
    by_cases hn : s.cache.tokenCount < s.cache.maxTokens
    · have heq : appendSlidingWithMetadata K shares r.1 r.2 s =
          appendAtEndValidated K shares r.1 r.2 s := by
        simp only [appendSlidingWithMetadata, bind_apply, getCache_apply, hv, ofResult_ok, hn,
          ↓reduceIte]
      rw [heq]
      rcases appendAtEndValidated_spec shares h hr hn with ⟨e, he, href⟩ | hok
      · refine .inl ⟨e, he, ?_⟩
        rcases href with h1 | ⟨-, h1⟩ | h1 | h1
        · exact .inl h1
        · omega
        · exact .inr (.inr (.inl h1))
        · exact .inr (.inr (.inr h1))
      · exact .inr (.inl hok)
    · have hfull : s.cache.tokenCount = s.cache.maxTokens := by
        have := h.count_le
        omega
      rcases slidingBranch_spec shares h hr hfull with hno | hok
      · exact .inl hno
      · exact .inr (.inr hok)

/-! What the answer of an append says. -/

section Answers

variable {key value : List F32} {m : LayerKvCacheAppend} {e : KvCacheError}

theorem appendWithMetadata_ok (h : Window K s.cache W)
    (hok : appendWithMetadata K shares key value s = .ok m s') :
    AppendedAtEnd K shares s (key, value) s' ∧
      m = s'.cache.metadataOf s.cache.tokenCount s.cache.tokenCount := by
  rcases appendWithMetadata_spec shares (r := (key, value)) h with
    ⟨e, he, -⟩ | ⟨s₁, ha, he⟩
  · rw [he] at hok
    cases hok
  · rw [he] at hok
    cases hok
    exact ⟨ha, rfl⟩

theorem appendWithMetadata_error (h : Window K s.cache W)
    (herr : appendWithMetadata K shares key value s = .error e s') :
    s' = s ∧ Refusal shares s (key, value) false := by
  rcases appendWithMetadata_spec shares (r := (key, value)) h with
    ⟨e', he, href⟩ | ⟨s₁, -, he⟩
  · rw [he] at herr
    cases herr
    exact ⟨rfl, href⟩
  · rw [he] at herr
    cases herr

theorem appendSlidingWithMetadata_ok (h : Window K s.cache W)
    (hok : appendSlidingWithMetadata K shares key value s = .ok m s') :
    (AppendedAtEnd K shares s (key, value) s' ∧
      m = s'.cache.metadataOf s.cache.tokenCount s.cache.tokenCount) ∨
    (Slid K shares s (key, value) s' ∧
      m = s'.cache.metadataOf (s.cache.maxTokens - 1) s.cache.windowStart) := by
  rcases appendSlidingWithMetadata_spec shares (r := (key, value)) h with
    ⟨e, he, -⟩ | ⟨s₁, ha, he⟩ | ⟨s₁, ha, he⟩
  · rw [he] at hok
    cases hok
  · rw [he] at hok
    cases hok
    exact .inl ⟨ha, rfl⟩
  · rw [he] at hok
    cases hok
    exact .inr ⟨ha, rfl⟩

theorem appendSlidingWithMetadata_error (h : Window K s.cache W)
    (herr : appendSlidingWithMetadata K shares key value s = .error e s') :
    s' = s ∧ Refusal shares s (key, value) true := by
  rcases appendSlidingWithMetadata_spec shares (r := (key, value)) h with
    ⟨e', he, href⟩ | ⟨s₁, -, he⟩ | ⟨s₁, -, he⟩
  · rw [he] at herr
    cases herr
    exact ⟨rfl, href⟩
  · rw [he] at herr
    cases herr
  · rw [he] at herr
    cases herr

end Answers

theorem Window.appended (h : Window K s.cache W) (ha : AppendedAtEnd K shares s r s') :
    Window K s'.cache (W ++ [r]) := by
  obtain ⟨hn, hr, -, b, b', hb, hw, hid, -, hs'⟩ := ha
  rw [hs']
  exact h.afterAppend hn hb hw hid hr

theorem Window.slid (h : Window K s.cache W) (ha : Slid K shares s r s') :
    Window K s'.cache (W.tail ++ [r]) := by
  obtain ⟨hfull, hr, -, b, b', hb, hw, hid, -, hs'⟩ := ha
  rw [hs']
  exact h.afterSlide hfull hb hw hid hr

/-! ### Clearing and cloning -/

variable (shares) in
theorem clearBlocks_getElem? : ∀ (bs : List CacheBlock) (rt : Statics) (i : ℕ),
    ∃ rt', (clearBlocks shares bs rt).1[i]? = bs[i]?.map fun b => (b.clear shares rt').1
  | [], rt, i => ⟨rt, by simp [clearBlocks]⟩
  | b :: bs, rt, 0 => ⟨rt, by simp [clearBlocks]⟩
  | b :: bs, rt, i + 1 => by
    obtain ⟨rt', h⟩ := clearBlocks_getElem? bs (b.clear shares rt).2 i
    exact ⟨rt', by simpa [clearBlocks] using h⟩

theorem clearBlocks_length (bs : List CacheBlock) (rt : Statics) :
    (clearBlocks shares bs rt).1.length = bs.length := by
  induction bs generalizing rt with
  | nil => rfl
  | cons b bs ih => simp [clearBlocks, ih]

theorem clearBlocks_ids (bs : List CacheBlock) (rt : Statics) :
    (clearBlocks shares bs rt).1.map (·.id) = bs.map (·.id) := by
  induction bs generalizing rt with
  | nil => rfl
  | cons b bs ih => simp [clearBlocks, ih]

theorem clearBlocks_nextBlockId (bs : List CacheBlock) (rt : Statics) :
    (clearBlocks shares bs rt).2.nextBlockId = rt.nextBlockId := by
  induction bs generalizing rt with
  | nil => rfl
  | cons b bs ih =>
    have hb : (b.clear shares rt).2.nextBlockId = rt.nextBlockId := by
      unfold CacheBlock.clear
      split
      · rfl
      · exact Arc.makeMut_nextBlockId _ _ _ _
    simp [clearBlocks, ih, hb]

variable (shares) in
/-- A cleared block keeps its shape and has no rows. -/
theorem clear_shape (rt : Statics) {i : ℕ} {b : CacheBlock} (h : c.BlockShape i b) :
    (b.clear shares rt).1.id ≠ 0 ∧ (b.clear shares rt).1.vectorLen = b.vectorLen ∧
      (b.clear shares rt).1.capacityTokens = b.capacityTokens ∧
      (b.clear shares rt).1.tokenCount = 0 ∧
      (b.clear shares rt).1.storage.val.keys.length = b.capacityTokens * b.vectorLen ∧
      (b.clear shares rt).1.storage.val.values.length = b.capacityTokens * b.vectorLen := by
  have hk := h.keys_length
  have hv := h.values_length
  unfold CacheBlock.clear
  split
  · exact ⟨h.id, rfl, rfl, rfl, by simp [Arc.new, CacheBlockStorage.new, hk],
      by simp [Arc.new, CacheBlockStorage.new, hk]⟩
  · refine ⟨h.id, rfl, rfl, rfl, ?_, ?_⟩
    · simp only [Arc.makeMut_val, CacheBlockStorage.fillZero, List.length_map, hk]
    · simp only [Arc.makeMut_val, CacheBlockStorage.fillZero, List.length_map, hv]

theorem Window.clear (h : Window K s.cache W) : Window K (clear shares s).cache [] := by
  have hblk : ∀ i b, (clearBlocks shares s.cache.blocks s.rt).1[i]? = some b →
      ∃ (b₀ : CacheBlock) (rt : Statics), s.cache.blocks[i]? = some b₀ ∧
        b = (b₀.clear shares rt).1 := fun i b hb => by
    obtain ⟨rt, hg⟩ := clearBlocks_getElem? shares s.cache.blocks s.rt i
    rw [hg] at hb
    obtain ⟨b₀, hb₀, rfl⟩ := Option.map_eq_some_iff.mp hb
    exact ⟨b₀, rt, hb₀, rfl⟩
  have hempty : ∀ b ∈ (clearBlocks shares s.cache.blocks s.rt).1,
      b.tokenCount = 0 ∧ b.keys = [] ∧ b.values = [] := fun b hb => by
    obtain ⟨i, hi⟩ := List.mem_iff_getElem?.mp hb
    obtain ⟨b₀, rt, hb₀, rfl⟩ := hblk i b hi
    have h0 := (clear_shape shares rt (h.block i b₀ hb₀)).2.2.2.1
    exact ⟨h0, by simp [CacheBlock.keys, CacheBlock.usedLen, h0],
      by simp [CacheBlock.values, CacheBlock.usedLen, h0]⟩
  refine {
    max_pos := h.max_pos
    vec_pos := h.vec_pos
    stage_le := h.stage_le
    count_le := Nat.zero_le _
    start_lt := h.max_pos
    start_zero := fun _ => rfl
    table := h.table.trans (clearBlocks_ids _ _).symm
    blocks_length := (clearBlocks_length _ _).trans h.blocks_length
    block := fun i b hb => ?_
    keyStage_length := (List.length_replicate).trans h.keyStage_length
    valueStage_length := (List.length_replicate).trans h.valueStage_length
    runs := RunsCover.empty _ _ _
    int8_iff := Option.isSome_map.symm ▸ h.int8_iff
    vq_iff := Option.isSome_map.symm ▸ h.vq_iff
    finite := fun _ b hb => ?_
    int8 := fun st hst => ?_
    vq := fun st hst => ?_
    length := rfl
    slots := fun i hi => absurd hi (Nat.not_lt_zero i)
    stage := fun i r hr => by simp at hr
    keyView := fun v hv => by cases hv
    valueView := fun v hv => by cases hv }
  · obtain ⟨b₀, rt, hb₀, rfl⟩ := hblk i b hb
    have hs := h.block i b₀ hb₀
    obtain ⟨h1, h2, h3, h4, h5, h6⟩ := clear_shape shares rt hs
    refine ⟨h1, h2.trans hs.vectorLen, h3.trans hs.capacityTokens, ?_, ?_, ?_⟩
    · rw [h4]
      change 0 = min _ (0 - _)
      omega
    · rw [h5, h3, h2]
    · rw [h6, h3, h2]
  · obtain ⟨-, h1, h2⟩ := hempty b hb
    rw [h1, h2]
    exact ⟨by simp [AllFinite], by simp [AllFinite]⟩
  · obtain ⟨st₀, hst₀, rfl⟩ := Option.map_eq_some_iff.mp hst
    obtain ⟨hv, hsb⟩ := h.int8 st₀ hst₀
    refine ⟨hv, ?_⟩
    change st₀.blocks.map _ = (clearBlocks shares s.cache.blocks s.rt).1.map _
    have hrep : ∀ {α β γ : Type} (l : List α) (l' : List β) (f : α → Option γ) (g : β → Option γ),
        l.length = l'.length → (∀ a ∈ l, f a = none) → (∀ b ∈ l', g b = none) →
        l.map f = l'.map g := fun l l' f g hlen hf hg => by
      rw [List.map_congr_left hf, List.map_congr_left hg, List.map_const', List.map_const', hlen]
    refine hrep _ _ _ _ ?_ (fun _ _ => rfl) fun b hb => if_pos (hempty b hb).1
    rw [clearBlocks_length, hsb, List.length_map]
  · obtain ⟨st₀, hst₀, rfl⟩ := Option.map_eq_some_iff.mp hst
    obtain ⟨hv, hsb⟩ := h.vq st₀ hst₀
    refine ⟨hv, ?_⟩
    change (st₀.blocks.map _).length = (clearBlocks shares s.cache.blocks s.rt).1.length
    rw [List.length_map, clearBlocks_length]
    exact hsb

end LayerKvCache
end KirAi.KvCache
