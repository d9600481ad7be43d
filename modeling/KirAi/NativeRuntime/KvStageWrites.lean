/-
# Where the stage writes go

For a cache that holds a window, the writes cut out of its active blocks put
every row asked for at its slot and at the slot's mirror, and touch nothing
else. A stage has several channels (keys and values in half precision; codes
and scales of both in int8); all of them are cut and moved alike, so what a
channel's writes do is said once, for any width and any image of a row
(`StageWritten`).

Key definitions: `RunWritten`, `StageRows`, `StageWritten`.
Key theorems: `kvStageWrites_ok`, `int8KvStageWrites_ok`,
`stageWrites_geometry`.
-/
import KirAi.KvCache.LayerInt8
import KirAi.NativeRuntime.KvSync

namespace KirAi.NativeRuntime

open Lib KvCache KvCache.LayerKvCache

variable {K : QuantKernels} {c : LayerKvCache} {W : List Row} {a b : ℕ}

/-- The sizes of a stage are words. -/
theorem stage_words (h : Layout c) :
    2 * c.maxTokens * c.vectorLen ≤ wordMax ∧ 2 * c.maxTokens ≤ wordMax := by
  have h1 := h.stage_le
  have h2 : c.maxTokens * 1 ≤ c.maxTokens * c.vectorLen := Nat.mul_le_mul_left _ h.vec_pos
  have h3 : 2 * vecF32Max ≤ wordMax := by decide
  rw [Nat.mul_assoc]
  omega

/-! ### Cutting a run -/

/-- What a run cut to a range is: `n` rows from row `o` of the run on. -/
structure Cut (run : LayerKvCacheBlockRun) (a b o n : ℕ) : Prop where
  pos : 0 < n
  le : o + n ≤ run.tokenCount
  mem : ∀ j, j < n → a ≤ run.logicalTokenStart + (o + j) ∧ run.logicalTokenStart + (o + j) < b
  cover : ∀ j, j < run.tokenCount → a ≤ run.logicalTokenStart + j → run.logicalTokenStart + j < b →
    o ≤ j ∧ j < o + n

/-- Cutting a run of a window never overflows, and leaves nothing or a cut. -/
theorem intersect_run (h : Layout c) {run : LayerKvCacheBlockRun} (hrun : run ∈ c.activeBlockRuns) :
    (intersectStageLogicalRange run.logicalTokenStart run.physicalTokenStart run.blockTokenStart
        run.tokenCount a b = .ok none ∧
      ∀ j, j < run.tokenCount → ¬ (a ≤ run.logicalTokenStart + j ∧ run.logicalTokenStart + j < b)) ∨
    ∃ o n, Cut run a b o n ∧
      intersectStageLogicalRange run.logicalTokenStart run.physicalTokenStart run.blockTokenStart
        run.tokenCount a b =
        .ok (some ⟨run.blockTokenStart + o, run.physicalTokenStart + o, n⟩) := by
  have hin := h.runs.inside run hrun
  have hlast := (h.run_slot hrun (Nat.sub_lt hin.pos Nat.one_pos)).1
  have hpos := hin.pos
  have hcount := h.count_le
  have hcap := hin.le_cap
  have hwords := (stage_words h).2
  have hwithin := hin.within
  have h256 : layerKvBlockTokens ≤ wordMax := by decide
  rw [intersectStageLogicalRange_ok (by omega) (by omega) (by omega)]
  by_cases hc : max run.logicalTokenStart a < min (run.logicalTokenStart + run.tokenCount) b
  · rw [if_pos hc]
    refine .inr ⟨_, _, ⟨?_, ?_, fun j hj => ?_, fun j hj h1 h2 => ?_⟩, rfl⟩ <;> omega
  · rw [if_neg hc]
    exact .inl ⟨rfl, fun j hj hab => by omega⟩

/-! ### One channel of the stage -/

variable {β : Type} {f : Row → List β} {width : ℕ}

/-- What belongs at a place of the mirrored ring of a cache: the image under
`f` of the window's row. -/
def stageTarget (c : LayerKvCache) (W : List Row) (a b : ℕ) (f : Row → List β) :
    ℕ → Option (List β) :=
  mirrored c.windowStart c.maxTokens a b fun i => W[i]?.map f

/-- The writes of a channel for one run: only rows of the window where they
belong, and every row of the run in the range. -/
structure RunWritten (c : LayerKvCache) (W : List Row) (a b width : ℕ) (f : Row → List β)
    (run : LayerKvCacheBlockRun) (ws : List (ℕ × List β)) : Prop where
  rows : ∀ w ∈ ws, WritesRows width (stageTarget c W a b f) w.1 w.2
  cover : ∀ j, j < run.tokenCount → a ≤ run.logicalTokenStart + j → run.logicalTokenStart + j < b →
    (∃ w ∈ ws, InWrite width w.1 w.2 (run.physicalTokenStart + j)) ∧
    ∃ w ∈ ws, InWrite width w.1 w.2 (run.physicalTokenStart + j + c.maxTokens)

/-- The stretch of a source that a cut copies. -/
def cutSource (l : List β) (width s n : ℕ) : List β := slice l (s * width) (s * width + n * width)

/-- A stretch of `n` rows, at its slots and at their mirrors. -/
def stageCopies (slot cap width : ℕ) (src : List β) : List (ℕ × List β) :=
  [(slot * width, src), ((slot + cap) * width, src)]

/-- A run no row of which is in the range. -/
theorem RunWritten.nil {run : LayerKvCacheBlockRun} (h : ∀ j, j < run.tokenCount →
    ¬ (a ≤ run.logicalTokenStart + j ∧ run.logicalTokenStart + j < b)) :
    RunWritten c W a b width f run [] :=
  ⟨fun _ hw => (by cases hw), fun j hj h1 h2 => absurd ⟨h1, h2⟩ (h j hj)⟩

/-- The places of a cut are where its rows belong. -/
theorem cut_target (h : Layout c) {run : LayerKvCacheBlockRun} (hrun : run ∈ c.activeBlockRuns)
    {o n j : ℕ} (hcut : Cut run a b o n) (hj : j < n) :
    stageTarget c W a b f (run.physicalTokenStart + o + j) =
        W[run.logicalTokenStart + (o + j)]?.map f ∧
      stageTarget c W a b f (run.physicalTokenStart + o + c.maxTokens + j) =
        W[run.logicalTokenStart + (o + j)]?.map f := by
  have hle := hcut.le
  obtain ⟨hlt, hslot⟩ := h.run_slot hrun (j := o + j) (by omega)
  obtain ⟨hja, hjb⟩ := hcut.mem j hj
  obtain ⟨h1, h2⟩ := mirrored_slot (fun i => W[i]?.map f) h.start_lt
    (lt_of_lt_of_le hlt h.count_le) hja hjb
  rw [← hslot] at h1 h2
  constructor
  · rw [Nat.add_assoc]
    exact h1
  · rw [show run.physicalTokenStart + o + c.maxTokens + j =
      run.physicalTokenStart + (o + j) + c.maxTokens by omega]
    exact h2

/-- The two writes of a cut, from a source that has the images of the run's
rows. -/
theorem RunWritten.copies (h : Layout c) {run : LayerKvCacheBlockRun}
    (hrun : run ∈ c.activeBlockRuns) {o n : ℕ} (hcut : Cut run a b o n) (hw : 0 < width) {l : List β}
    (hlen : (cutSource l width (run.blockTokenStart + o) n).length = n * width)
    (hrow : ∀ j, j < run.tokenCount →
      W[run.logicalTokenStart + j]?.map f = some (row l width (run.blockTokenStart + j))) :
    RunWritten c W a b width f run (stageCopies (run.physicalTokenStart + o) c.maxTokens width
      (cutSource l width (run.blockTokenStart + o) n)) := by
  have hle := hcut.le
  have hsrc : ∀ j, j < n → W[run.logicalTokenStart + (o + j)]?.map f =
      some (row (cutSource l width (run.blockTokenStart + o) n) width j) := fun j hj => by
    rw [cutSource, row_slice l hj, Nat.add_assoc]
    exact hrow (o + j) (by omega)
  refine ⟨fun w hw' => ?_, fun j hj hja hjb => ?_⟩
  · simp only [stageCopies, List.mem_cons, List.not_mem_nil, or_false] at hw'
    rcases hw' with rfl | rfl
    · exact ⟨_, n, hcut.pos, rfl, hlen, fun j hj => (cut_target h hrun hcut hj).1.trans (hsrc j hj)⟩
    · exact ⟨_, n, hcut.pos, rfl, hlen, fun j hj => (cut_target h hrun hcut hj).2.trans (hsrc j hj)⟩
  · obtain ⟨hoj, hjn⟩ := hcut.cover j hj hja hjb
    refine ⟨⟨_, List.mem_cons_self .., ?_⟩, _, List.mem_cons_of_mem _ (List.mem_cons_self ..), ?_⟩
    · exact (inWrite_iff hw hlen).mpr (by omega)
    · exact (inWrite_iff hw hlen).mpr (by omega)

/-- What the writes of a channel do to the stage: they stay inside it and touch
the places of the rows asked for and no others; each of these places has its
row afterwards, and the others what they had. When all rows are asked for, the
window is read off in one stretch. -/
structure StageWritten (c : LayerKvCache) (W : List Row) (a b width : ℕ) (f : Row → List β)
    (ws : List (ℕ × List β)) : Prop where
  inside : ∀ w ∈ ws, w.1 + w.2.length ≤ 2 * c.maxTokens * width
  touched : ∀ e, (∃ w ∈ ws, w.1 ≤ e ∧ e < w.1 + w.2.length) ↔
    ∃ i p, a ≤ i ∧ i < b ∧ (p = ringSlot c.windowStart i c.maxTokens ∨
      p = ringSlot c.windowStart i c.maxTokens + c.maxTokens) ∧ p * width ≤ e ∧ e < p * width + width
  placed : ∀ stage : List β, stage.length = 2 * c.maxTokens * width → ∀ i r, a ≤ i → i < b →
    W[i]? = some r →
    row (applyWrites ws stage) width (ringSlot c.windowStart i c.maxTokens) = f r ∧
    row (applyWrites ws stage) width (ringSlot c.windowStart i c.maxTokens + c.maxTokens) = f r
  kept : ∀ stage : List β, stage.length = 2 * c.maxTokens * width → ∀ p,
    (∀ i, a ≤ i → i < b → p ≠ ringSlot c.windowStart i c.maxTokens ∧
      p ≠ ringSlot c.windowStart i c.maxTokens + c.maxTokens) →
    row (applyWrites ws stage) width p = row stage width p
  window : a = 0 → b = W.length → ∀ stage : List β, stage.length = 2 * c.maxTokens * width →
    let start := ringSlot c.windowStart 0 c.maxTokens
    slice (applyWrites ws stage) (start * width) ((start + W.length) * width) = W.flatMap f

theorem stageTarget_lt {k : ℕ} {r : List β} (h : stageTarget c W a b f k = some r) :
    k < 2 * c.maxTokens := by
  unfold stageTarget mirrored at h
  split at h
  · rename_i hc
    exact hc.1
  · cases h

/-- The places from the window's start on are slots up to the end of the ring,
mirrors after it. -/
theorem window_place {start i cap : ℕ} (hs : start < cap) (hi : i < cap) :
    start + i = ringSlot start i cap ∨ start + i = ringSlot start i cap + cap := by
  rw [ringSlot_eq hs (by omega)]
  split
  · exact .inl rfl
  · exact .inr (by omega)

/-- The writes of a channel for all runs. -/
structure StageRows (c : LayerKvCache) (W : List Row) (a b width : ℕ) (f : Row → List β)
    (ws : List (ℕ × List β)) : Prop where
  rows : ∀ w ∈ ws, WritesRows width (stageTarget c W a b f) w.1 w.2
  cover : ∀ i, a ≤ i → i < b →
    (∃ w ∈ ws, InWrite width w.1 w.2 (ringSlot c.windowStart i c.maxTokens)) ∧
    ∃ w ∈ ws, InWrite width w.1 w.2 (ringSlot c.windowStart i c.maxTokens + c.maxTokens)

namespace StageRows

variable {ws : List (ℕ × List β)}

theorem touched (hs : StageRows c W a b width f ws) (h : Layout c) (hwidth : 0 < width) (e : ℕ) :
    (∃ w ∈ ws, w.1 ≤ e ∧ e < w.1 + w.2.length) ↔
    ∃ i p, a ≤ i ∧ i < b ∧ (p = ringSlot c.windowStart i c.maxTokens ∨
      p = ringSlot c.windowStart i c.maxTokens + c.maxTokens) ∧
      p * width ≤ e ∧ e < p * width + width := by
  constructor
  · rintro ⟨w, hw, h1, h2⟩
    obtain ⟨q, n, hn, hq, hs, hrow⟩ := hs.rows w hw
    have hdiv : e / width * width ≤ e := Nat.div_mul_le_self e width
    have hmod : e < e / width * width + width := by
      have := Nat.mod_lt e hwidth
      have := Nat.div_add_mod' e width
      omega
    have hqe : q ≤ e / width := (Nat.le_div_iff_mul_le hwidth).mpr (by omega)
    have hen : e / width < q + n := (Nat.div_lt_iff_lt_mul hwidth).mpr (by rw [Nat.add_mul]; omega)
    have ht := hrow (e / width - q) (by omega)
    rw [Nat.add_sub_cancel' hqe] at ht
    obtain ⟨i, ha, hib, -, -, hp⟩ := mirrored_some h.start_lt ht
    exact ⟨i, e / width, ha, hib, hp, hdiv, hmod⟩
  · rintro ⟨i, p, ha, hib, hp, h1, h2⟩
    obtain ⟨hslot, hmirror⟩ := hs.cover i ha hib
    have hin : ∃ w ∈ ws, InWrite width w.1 w.2 p := by
      rcases hp with rfl | rfl
      · exact hslot
      · exact hmirror
    obtain ⟨w, hw, h3, h4⟩ := hin
    exact ⟨w, hw, by omega, by omega⟩

theorem inside (hs : StageRows c W a b width f ws) {w : ℕ × List β} (hw : w ∈ ws) :
    w.1 + w.2.length ≤ 2 * c.maxTokens * width := by
  obtain ⟨q, n, hn, hq, hl, hrow⟩ := hs.rows w hw
  have := stageTarget_lt (hrow (n - 1) (by omega))
  rw [hq, hl, ← Nat.add_mul]
  exact Nat.mul_le_mul_right _ (by omega)

variable {stage : List β}

theorem length (hs : StageRows c W a b width f ws) (hwidth : 0 < width)
    (hl : stage.length = 2 * c.maxTokens * width) :
    (applyWrites ws stage).length = 2 * c.maxTokens * width :=
  (row_applyWrites hwidth (fun _ _ => stageTarget_lt) ws stage hl hs.rows).1

/-- The places of the rows asked for have their rows. -/
theorem placed (hs : StageRows c W a b width f ws) (h : Layout c) (hlen : W.length = c.tokenCount)
    (hwidth : 0 < width) (hl : stage.length = 2 * c.maxTokens * width) {i : ℕ} {r : Row}
    (ha : a ≤ i) (hib : i < b) (hr : W[i]? = some r) {p : ℕ}
    (hp : p = ringSlot c.windowStart i c.maxTokens ∨
      p = ringSlot c.windowStart i c.maxTokens + c.maxTokens) :
    row (applyWrites ws stage) width p = f r := by
  have hi : i < c.maxTokens := by
    have := (List.getElem?_eq_some_iff.mp hr).1
    have := h.count_le
    omega
  have hset := ((row_applyWrites hwidth (fun _ _ => stageTarget_lt) ws stage hl hs.rows).2 p).1
  obtain ⟨h1, h2⟩ := mirrored_slot (fun i => W[i]?.map f) h.start_lt hi ha hib
  obtain ⟨hslot, hmirror⟩ := hs.cover i ha hib
  rw [hr] at h1 h2
  rcases hp with rfl | rfl
  · exact (Option.some.inj (h1.symm.trans (hset hslot))).symm
  · exact (Option.some.inj (h2.symm.trans (hset hmirror))).symm

/-- The other places have what they had. -/
theorem kept (hs : StageRows c W a b width f ws) (h : Layout c) (hwidth : 0 < width)
    (hl : stage.length = 2 * c.maxTokens * width) {p : ℕ}
    (hp : ∀ i, a ≤ i → i < b → p ≠ ringSlot c.windowStart i c.maxTokens ∧
      p ≠ ringSlot c.windowStart i c.maxTokens + c.maxTokens) :
    row (applyWrites ws stage) width p = row stage width p := by
  obtain ⟨hset, hkept⟩ :=
    (row_applyWrites hwidth (fun _ _ => stageTarget_lt) ws stage hl hs.rows).2 p
  refine hkept fun hin => ?_
  obtain ⟨i, ha, hib, -, -, hpi⟩ := mirrored_some h.start_lt (hset hin)
  obtain ⟨h1, h2⟩ := hp i ha hib
  exact hpi.elim h1 h2

theorem written (hs : StageRows c W a b width f ws) (h : Layout c) (hlen : W.length = c.tokenCount)
    (hwidth : 0 < width) : StageWritten c W a b width f ws := by
  refine ⟨fun w => hs.inside, hs.touched h hwidth, fun stage hl i r ha hib hr => ?_,
    fun stage hl p hp => hs.kept h hwidth hl hp, fun ha hbW stage hl => ?_⟩
  · exact ⟨hs.placed h hlen hwidth hl ha hib hr (.inl rfl),
      hs.placed h hlen hwidth hl ha hib hr (.inr rfl)⟩
  · have hst := h.start_lt
    have hcount := h.count_le
    have hstart : ringSlot c.windowStart 0 c.maxTokens = c.windowStart := Nat.mod_eq_of_lt hst
    dsimp only
    rw [hstart, ← flatMap_row_range _ _ _ _
      (by rw [hs.length hwidth hl]; exact Nat.mul_le_mul_right _ (by omega))]
    refine flatMap_eq_range fun i r hr => ?_
    have hi := (List.getElem?_eq_some_iff.mp hr).1
    exact hs.placed h hlen hwidth hl (by omega) (by omega) hr (window_place hst (by omega))

/-- Rows converted value by value go to the same places. -/
theorem map {γ : Type} (g : β → γ) (hs : StageRows c W a b width f ws) :
    StageRows c W a b width (fun r => (f r).map g) (ws.map fun w => (w.1, w.2.map g)) := by
  refine ⟨fun w hw => ?_, fun i ha hib => ?_⟩
  · obtain ⟨w₀, hw₀, rfl⟩ := List.mem_map.mp hw
    obtain ⟨q, n, hn, hq, hl, hrow⟩ := hs.rows w₀ hw₀
    refine ⟨q, n, hn, hq, (List.length_map _).trans hl, fun j hj => ?_⟩
    have ht := hrow j hj
    rw [row_map]
    unfold stageTarget mirrored at ht ⊢
    split at ht
    · rename_i hc
      obtain ⟨r, hr, hfr⟩ := Option.map_eq_some_iff.mp ht
      rw [if_pos hc, ← hfr]
      dsimp only
      rw [hr, Option.map_some]
    · cases ht
  · have hmap : ∀ p, (∃ w ∈ ws, InWrite width w.1 w.2 p) →
        ∃ w ∈ ws.map fun w => (w.1, w.2.map g), InWrite width w.1 w.2 p := fun p hp => by
      obtain ⟨w, hw, hin⟩ := hp
      refine ⟨_, List.mem_map.mpr ⟨w, hw, rfl⟩, ?_⟩
      unfold InWrite at hin ⊢
      rw [List.length_map]
      exact hin
    exact ⟨hmap _ (hs.cover i ha hib).1, hmap _ (hs.cover i ha hib).2⟩

end StageRows

/-- The writes of all runs of a cache, one after the other. -/
theorem stageRows_of_runs (h : Window K c W) (hb : b ≤ W.length) {parts : List (List (ℕ × List β))}
    (hp : List.Forall₂ (RunWritten c W a b width f) c.activeBlockRuns parts) :
    StageRows c W a b width f parts.flatten := by
  refine ⟨fun w hw => ?_, fun i ha hib => ?_⟩
  · obtain ⟨ws, hws, hmem⟩ := List.mem_flatten.mp hw
    obtain ⟨run, -, hrun⟩ := forall₂_mem_right hp hws
    exact hrun.rows w hmem
  · obtain ⟨run, hrun, j, hj, rfl⟩ := h.toLayout.exists_run (i := i) (by rw [← h.length]; omega)
    obtain ⟨ws, hws, hwritten⟩ := forall₂_mem_left hp hrun
    obtain ⟨⟨w1, hm1, hw1⟩, w2, hm2, hw2⟩ := hwritten.cover j hj ha hib
    rw [← (h.toLayout.run_slot hrun hj).2]
    exact ⟨⟨w1, List.mem_flatten.mpr ⟨ws, hws, hm1⟩, hw1⟩,
      w2, List.mem_flatten.mpr ⟨ws, hws, hm2⟩, hw2⟩

/-! ### Half-precision writes -/

/-- Where the rows of a cut are in their source. -/
theorem cutSource_ok {l : List β} {width m s n : ℕ} (hl : l.length = m * width) (hs : s + n ≤ m)
    (hm : m * width ≤ wordMax) :
    checkedMul s width = some (s * width) ∧ checkedMul n width = some (n * width) ∧
      checkedAdd (s * width) (n * width) = some (s * width + n * width) ∧
      getRange l (s * width) (s * width + n * width) = some (cutSource l width s n) ∧
      (cutSource l width s n).length = n * width := by
  have hle : (s + n) * width ≤ m * width := Nat.mul_le_mul_right width hs
  rw [Nat.add_mul] at hle
  refine ⟨checkedMul_of_le (by omega), checkedMul_of_le (by omega), checkedAdd_of_le (by omega),
    getRange_of_le (by omega) (by omega), ?_⟩
  rw [cutSource, slice_length (by omega)]
  omega

/-- The writes of the keys of a stage, and those of its values. -/
def keyWrites (ws : List MetalStageWrite) : List (ℕ × List F32) :=
  ws.map fun w => (w.destinationStart, w.sourceKeys)

def valueWrites (ws : List MetalStageWrite) : List (ℕ × List F32) :=
  ws.map fun w => (w.destinationStart, w.sourceValues)

/-- The writes of one active block. -/
structure BlockWritten (c : LayerKvCache) (W : List Row) (a b : ℕ) (run : LayerKvCacheBlockRun)
    (ws : List MetalStageWrite) : Prop where
  keys : RunWritten c W a b c.vectorLen (·.1) run (keyWrites ws)
  values : RunWritten c W a b c.vectorLen (·.2) run (valueWrites ws)
  counts : ∀ w ∈ ws, w.sourceKeys.length = w.elementCount ∧ w.sourceValues.length = w.elementCount

/-- A block of a window holds at most as many rows as the ring. -/
theorem block_words (h : Layout c) {i : ℕ} {block : CacheBlock} (hb : c.blocks[i]? = some block) :
    block.tokenCount ≤ block.capacityTokens ∧ block.capacityTokens * c.vectorLen ≤ wordMax := by
  have hs := h.block _ _ hb
  constructor
  · rw [hs.tokenCount]
    exact Nat.min_le_left _ _
  · have hcap : block.capacityTokens ≤ 2 * c.maxTokens := by
      have := hs.capacityTokens
      omega
    exact le_trans (Nat.mul_le_mul_right _ hcap) (stage_words h).1

theorem stageWritesOfBlock_ok (h : Window K c W) {run : LayerKvCacheBlockRun}
    (hrun : run ∈ c.activeBlockRuns) {blk : LayerKvCacheBlock} (hrep : c.Reports run blk) :
    ∃ ws, stageWritesOfBlock blk a b c.vectorLen c.maxTokens = .ok ws ∧
      BlockWritten c W a b run ws := by
  obtain ⟨block, hblock, rfl⟩ := hrep
  have hl := h.toLayout
  rcases intersect_run (a := a) (b := b) hl hrun with ⟨hnone, hno⟩ | ⟨o, n, hcut, hsome⟩
  · refine ⟨[], ?_, ⟨.nil hno, .nil hno, fun w hw => (by cases hw)⟩⟩
    simp only [stageWritesOfBlock, hnone, ok_bind]
    rfl
  · have hs := hl.block _ _ hblock
    have hend := h.run_end_le hrun hblock
    have hcutle := hcut.le
    obtain ⟨htc, hwords⟩ := block_words hl hblock
    have hfit : run.blockTokenStart + o + n ≤ block.capacityTokens := by omega
    obtain ⟨h1, h2, h3, h4, hklen⟩ := cutSource_ok (hs.vectorLen ▸ hs.keys_length) hfit hwords
    obtain ⟨-, -, -, h5, hvlen⟩ := cutSource_ok (hs.vectorLen ▸ hs.values_length) hfit hwords
    have hdest := kvStageDestinationStarts_ok "KV cache stage"
      (show run.physicalTokenStart + o + n ≤ c.maxTokens by
        have := (hl.runs.inside run hrun).le_cap
        omega) (stage_words hl).1 (stage_words hl).2
    refine ⟨[⟨_, _, _, n * c.vectorLen⟩, ⟨_, _, _, n * c.vectorLen⟩], ?_,
      ⟨.copies hl hrun hcut hl.vec_pos hklen fun j hj => ?_,
        .copies hl hrun hcut hl.vec_pos hvlen fun j hj => ?_, fun w hw => ?_⟩⟩
    · simp only [stageWritesOfBlock, hsome, ok_bind, h1, h2, h3, h4, h5, okOrShape_some, hdest]
      rfl
    · rw [(h.run_row hrun hblock hj).2]
      rfl
    · rw [(h.run_row hrun hblock hj).2]
      rfl
    · simp only [List.mem_cons, List.not_mem_nil, or_false] at hw
      rcases hw with rfl | rfl <;> exact ⟨hklen, hvlen⟩

/-- A channel of the blocks' writes is a channel of the whole. -/
theorem map_flatten_forall₂ {σ τ : Type} {R : σ → List τ → Prop} {g : τ → ℕ × List β}
    {P : σ → List (ℕ × List β) → Prop} {l : List σ} {parts : List (List τ)}
    (h : List.Forall₂ R l parts) (hP : ∀ x ws, R x ws → P x (ws.map g)) :
    List.Forall₂ P l (parts.map (List.map g)) := by
  rw [List.forall₂_map_right_iff]
  exact h.imp hP

/-- Half-precision writes of the rows from `a` up to `b`. -/
theorem kvStageWrites_ok (h : Window K c W) (hb : b ≤ W.length)
    {blocks : List LayerKvCacheBlock} (hblocks : c.activeBlocks = .ok blocks) :
    ∃ ws, kvStageWritesFromActiveBlocks blocks a b c.vectorLen c.maxTokens = .ok ws ∧
      StageRows c W a b c.vectorLen (·.1) (keyWrites ws) ∧
      StageRows c W a b c.vectorLen (·.2) (valueWrites ws) ∧
      ∀ w ∈ ws, w.sourceKeys.length = w.elementCount ∧ w.sourceValues.length = w.elementCount := by
  obtain ⟨bs, hbs, hrep⟩ := h.toLayout.activeBlocks
  obtain rfl := Except.ok.inj (hbs.symm.trans hblocks)
  obtain ⟨parts, hparts, hall⟩ := collect_ok (P := BlockWritten c W a b) hrep
    fun run hrun blk hr => stageWritesOfBlock_ok h hrun hr
  refine ⟨parts.flatten, hparts, ?_, ?_, fun w hw => ?_⟩
  · rw [keyWrites, List.map_flatten]
    exact stageRows_of_runs h hb (map_flatten_forall₂ hall fun _ _ hr => hr.keys)
  · rw [valueWrites, List.map_flatten]
    exact stageRows_of_runs h hb (map_flatten_forall₂ hall fun _ _ hr => hr.values)
  · obtain ⟨ws, hws, hmem⟩ := List.mem_flatten.mp hw
    obtain ⟨run, -, hr⟩ := forall₂_mem_right hall hws
    exact hr.counts w hmem

/-! ### int8 writes -/

def keyCodeWrites (ws : List MetalInt8StageWrite) : List (ℕ × List (BitVec 8)) :=
  ws.map fun w => (w.destinationStart, w.sourceKeys)

def valueCodeWrites (ws : List MetalInt8StageWrite) : List (ℕ × List (BitVec 8)) :=
  ws.map fun w => (w.destinationStart, w.sourceValues)

def keyScaleWrites (ws : List MetalInt8StageWrite) : List (ℕ × List F32) :=
  ws.map fun w => (w.destinationScaleStart, w.sourceKeyScales)

def valueScaleWrites (ws : List MetalInt8StageWrite) : List (ℕ × List F32) :=
  ws.map fun w => (w.destinationScaleStart, w.sourceValueScales)

/-- The lengths a write says its sources have. -/
def MetalInt8StageWrite.Counts (w : MetalInt8StageWrite) : Prop :=
  w.sourceKeys.length = w.elementCount ∧ w.sourceValues.length = w.elementCount ∧
    w.sourceKeyScales.length = w.tokenCount ∧ w.sourceValueScales.length = w.tokenCount

/-- The writes of one active block: a row's codes and its one scale. -/
structure Int8BlockWritten (K : QuantKernels) (c : LayerKvCache) (W : List Row) (a b : ℕ)
    (run : LayerKvCacheBlockRun) (ws : List MetalInt8StageWrite) : Prop where
  keys : RunWritten c W a b c.vectorLen (fun r => int8Row K r.1) run (keyCodeWrites ws)
  values : RunWritten c W a b c.vectorLen (fun r => int8Row K r.2) run (valueCodeWrites ws)
  keyScales : RunWritten c W a b 1 (fun r => [K.int8Scale r.1]) run (keyScaleWrites ws)
  valueScales : RunWritten c W a b 1 (fun r => [K.int8Scale r.2]) run (valueScaleWrites ws)
  counts : ∀ w ∈ ws, w.Counts

theorem int8StageWritesOfBlock_ok (h : Window K c W) {run : LayerKvCacheBlockRun}
    (hrun : run ∈ c.activeBlockRuns) {blk : LayerKvCacheInt8Block} (hrep : ReportsInt8 K c run blk) :
    ∃ ws, int8StageWritesOfBlock blk a b c.vectorLen c.maxTokens = .ok ws ∧
      Int8BlockWritten K c W a b run ws := by
  obtain ⟨block, hblock, rfl⟩ := hrep
  have hl := h.toLayout
  rcases intersect_run (a := a) (b := b) hl hrun with ⟨hnone, hno⟩ | ⟨o, n, hcut, hsome⟩
  · refine ⟨[], ?_, ⟨.nil hno, .nil hno, .nil hno, .nil hno, fun w hw => (by cases hw)⟩⟩
    simp only [int8StageWritesOfBlock, hnone, ok_bind]
    rfl
  · have hend := h.run_end_le hrun hblock
    have hcutle := hcut.le
    have hcap := (hl.runs.inside run hrun).le_cap
    obtain ⟨hwords, hwords'⟩ := stage_words hl
    obtain ⟨htc, hbw⟩ := block_words hl hblock
    have hcw : block.tokenCount * c.vectorLen ≤ wordMax :=
      le_trans (Nat.mul_le_mul_right _ htc) hbw
    have hsw : block.tokenCount * 1 ≤ wordMax :=
      le_trans (Nat.mul_le_mul_left _ hl.vec_pos) hcw
    have hfit : run.blockTokenStart + o + n ≤ block.tokenCount := by omega
    let copy := int8BlockOf K block.keys block.values c.vectorLen
    obtain ⟨⟨hkl, hkr⟩, ⟨hvl, hvr⟩, ⟨hksl, hksr⟩, hvsl, hvsr⟩ :=
      int8BlockOf_rows (K := K) hl hblock
    obtain ⟨h1, h2, h3, h4, hklen⟩ := cutSource_ok hkl hfit hcw
    obtain ⟨-, -, -, h5, hvlen⟩ := cutSource_ok hvl hfit hcw
    obtain ⟨-, -, h6, h7, hkslen⟩ := cutSource_ok hksl hfit hsw
    obtain ⟨-, -, -, h8, hvslen⟩ := cutSource_ok hvsl hfit hsw
    have hdest := kvStageDestinationStarts_ok "INT8 KV cache stage"
      (show run.physicalTokenStart + o + n ≤ c.maxTokens by omega) hwords hwords'
    have hrow := fun j hj => (h.run_row hrun hblock (j := j) hj)
    let keys := cutSource copy.keyCodes c.vectorLen (run.blockTokenStart + o) n
    let values := cutSource copy.valueCodes c.vectorLen (run.blockTokenStart + o) n
    let keyScales := cutSource copy.keyScales 1 (run.blockTokenStart + o) n
    let valueScales := cutSource copy.valueScales 1 (run.blockTokenStart + o) n
    let slot := run.physicalTokenStart + o
    refine ⟨[⟨keys, keyScales, values, valueScales, _, slot * 1, n * c.vectorLen, n⟩,
        ⟨keys, keyScales, values, valueScales, _, (slot + c.maxTokens) * 1, n * c.vectorLen, n⟩], ?_,
      ⟨.copies hl hrun hcut hl.vec_pos hklen fun j hj => ?_,
        .copies hl hrun hcut hl.vec_pos hvlen fun j hj => ?_,
        .copies hl hrun hcut Nat.one_pos hkslen fun j hj => ?_,
        .copies hl hrun hcut Nat.one_pos hvslen fun j hj => ?_, fun w hw => ?_⟩⟩
    · simp only [Nat.mul_one] at h6 h7 h8
      simp only [int8StageWritesOfBlock, hsome, ok_bind, h1, h2, h3, h4, h5, h6, h7, h8,
        okOrShape_some, hdest,
        checkedAdd_of_le (show run.physicalTokenStart + o + c.maxTokens ≤ wordMax by omega),
        Nat.mul_one, copy, keys, values, keyScales, valueScales, slot]
      rfl
    · rw [(hrow j hj).2, hkr _ (hrow j hj).1]
      rfl
    · rw [(hrow j hj).2, hvr _ (hrow j hj).1]
      rfl
    · rw [(hrow j hj).2, hksr _ (hrow j hj).1]
      rfl
    · rw [(hrow j hj).2, hvsr _ (hrow j hj).1]
      rfl
    · rw [Nat.mul_one] at hkslen hvslen
      simp only [List.mem_cons, List.not_mem_nil, or_false] at hw
      rcases hw with rfl | rfl <;> exact ⟨hklen, hvlen, hkslen, hvslen⟩

/-- int8 writes of the rows from `a` up to `b`: codes and scales. -/
theorem int8KvStageWrites_ok (h : Window K c W) (hb : b ≤ W.length)
    {blocks : List LayerKvCacheInt8Block} (hblocks : c.activeInt8Blocks = .ok (some blocks)) :
    ∃ ws, int8KvStageWritesFromActiveBlocks blocks a b c.vectorLen c.maxTokens = .ok ws ∧
      StageRows c W a b c.vectorLen (fun r => int8Row K r.1) (keyCodeWrites ws) ∧
      StageRows c W a b c.vectorLen (fun r => int8Row K r.2) (valueCodeWrites ws) ∧
      StageRows c W a b 1 (fun r => [K.int8Scale r.1]) (keyScaleWrites ws) ∧
      StageRows c W a b 1 (fun r => [K.int8Scale r.2]) (valueScaleWrites ws) ∧
      ∀ w ∈ ws, w.Counts := by
  obtain ⟨-, hnone⟩ | ⟨bs, hbs, hrep⟩ := h.activeInt8Blocks
  · rw [hnone] at hblocks
    cases hblocks
  · rw [hbs] at hblocks
    cases hblocks
    obtain ⟨parts, hparts, hall⟩ := collect_ok (P := Int8BlockWritten K c W a b) hrep
      fun run hrun blk hr => int8StageWritesOfBlock_ok h hrun hr
    refine ⟨parts.flatten, hparts, ?_, ?_, ?_, ?_, fun w hw => ?_⟩
    · rw [keyCodeWrites, List.map_flatten]
      exact stageRows_of_runs h hb (map_flatten_forall₂ hall fun _ _ hr => hr.keys)
    · rw [valueCodeWrites, List.map_flatten]
      exact stageRows_of_runs h hb (map_flatten_forall₂ hall fun _ _ hr => hr.values)
    · rw [keyScaleWrites, List.map_flatten]
      exact stageRows_of_runs h hb (map_flatten_forall₂ hall fun _ _ hr => hr.keyScales)
    · rw [valueScaleWrites, List.map_flatten]
      exact stageRows_of_runs h hb
        (map_flatten_forall₂ hall fun _ _ hr => hr.valueScales)
    · obtain ⟨ws, hws, hmem⟩ := List.mem_flatten.mp hw
      obtain ⟨run, -, hr⟩ := forall₂_mem_right hall hws
      exact hr.counts w hmem

/-! ### Every cache a run can leave -/

/-- Stage writes of the rows from `a` up to `b` of any cache: the rows go to
their slots and to the mirrors of these, in half precision and, for a cache
with an int8 copy, as codes and scales. -/
theorem stageWrites_geometry {s : LayerState} {rows : List Row} (h : Reach K s rows)
    (hb : b ≤ s.cache.tokenCount) :
    let c := s.cache
    let W := rows.rtake c.maxTokens
    (∃ blocks ws, c.activeBlocks = .ok blocks ∧
      kvStageWritesFromActiveBlocks blocks a b c.vectorLen c.maxTokens = .ok ws ∧
      StageWritten c W a b c.vectorLen (·.1) (keyWrites ws) ∧
      StageWritten c W a b c.vectorLen (·.2) (valueWrites ws) ∧
      ∀ w ∈ ws, w.sourceKeys.length = w.elementCount ∧ w.sourceValues.length = w.elementCount) ∧
    (c.config.format = .int8 → ∃ blocks ws, c.activeInt8Blocks = .ok (some blocks) ∧
      int8KvStageWritesFromActiveBlocks blocks a b c.vectorLen c.maxTokens = .ok ws ∧
      StageWritten c W a b c.vectorLen (fun r => int8Row K r.1) (keyCodeWrites ws) ∧
      StageWritten c W a b c.vectorLen (fun r => int8Row K r.2) (valueCodeWrites ws) ∧
      StageWritten c W a b 1 (fun r => [K.int8Scale r.1]) (keyScaleWrites ws) ∧
      StageWritten c W a b 1 (fun r => [K.int8Scale r.2]) (valueScaleWrites ws) ∧
      ∀ w ∈ ws, w.Counts) := by
  obtain ⟨hw, -⟩ := h.window
  have hb' : b ≤ (rows.rtake s.cache.maxTokens).length := by rwa [hw.length]
  obtain ⟨blocks, hblocks, -⟩ := hw.toLayout.activeBlocks
  obtain ⟨ws, hws, hkeys, hvalues, hcounts⟩ := kvStageWrites_ok (a := a) hw hb' hblocks
  have hl := hw.toLayout
  have hlen := hw.length
  refine ⟨⟨blocks, ws, hblocks, hws, hkeys.written hl hlen hl.vec_pos,
    hvalues.written hl hlen hl.vec_pos, hcounts⟩, fun hf => ?_⟩
  obtain ⟨hne, -⟩ | ⟨blocks8, hblocks8, -⟩ := hw.activeInt8Blocks
  · exact absurd hf hne
  · obtain ⟨ws8, hws8, h1, h2, h3, h4, h5⟩ := int8KvStageWrites_ok (a := a) hw hb' hblocks8
    exact ⟨blocks8, ws8, hblocks8, hws8, h1.written hl hlen hl.vec_pos, h2.written hl hlen hl.vec_pos,
      h3.written hl hlen Nat.one_pos, h4.written hl hlen Nat.one_pos, h5⟩

/-- A window of two rows that wraps, in a cache with an int8 copy: written whole
and read from slot 1 on, the stage has the rows in order. -/
theorem stageWrites_geometry_wrapped : ∃ (s : LayerState) (blocks : List LayerKvCacheBlock)
    (ws : List MetalStageWrite), s.cache.windowStart = 1 ∧ s.cache.activeBlocks = .ok blocks ∧
    kvStageWritesFromActiveBlocks blocks 0 2 1 2 = .ok ws ∧
    slice (applyWrites (keyWrites ws) (List.replicate 4 F32.zero)) 1 3 = [⟨3⟩, ⟨5⟩] := by
  have h : ∃ s, Reach .onZeroRows s [([⟨1⟩], [⟨2⟩]), ([⟨3⟩], [⟨4⟩]), ([⟨5⟩], [⟨6⟩])] ∧
      s.cache.maxTokens = 2 ∧ s.cache.vectorLen = 1 ∧ s.cache.tokenCount = 2 ∧
      s.cache.windowStart = 1 :=
    ⟨_, .appendSliding (.appendSliding (.append
      (.new (show newWithConfig 2 1 1 .int8 .initial = .ok _ from rfl))
      (show appendWithMetadata .onZeroRows (fun _ => 1) [⟨1⟩] [⟨2⟩] _ = .ok _ _ from rfl))
      (show appendSlidingWithMetadata .onZeroRows (fun _ => 0) [⟨3⟩] [⟨4⟩] _ = .ok _ _ from rfl))
      (show appendSlidingWithMetadata .onZeroRows (fun _ => 0) [⟨5⟩] [⟨6⟩] _ = .ok _ _ from rfl),
      rfl, rfl, rfl, rfl⟩
  obtain ⟨s, hs, hmax, hvec, hcount, hstart⟩ := h
  obtain ⟨⟨blocks, ws, hblocks, hws, hkeys, -, -⟩, -⟩ :=
    stageWrites_geometry (a := 0) (b := 2) hs (by omega)
  rw [hmax, hvec] at hws hkeys
  have hread := hkeys.window rfl rfl (List.replicate 4 F32.zero) (by rw [hmax]; rfl)
  rw [hstart, hmax] at hread
  exact ⟨s, blocks, ws, hstart, hblocks, hws, hread⟩

end KirAi.NativeRuntime
