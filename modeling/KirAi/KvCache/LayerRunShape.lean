/-
# The runs follow from the fill of the ring

The run list of a layer is kept up incrementally: a row is joined to the last
run or starts a new one, and the oldest row is taken off the first run. A
restore makes the list anew, row by row. Both give the same runs, up to the ids
of the blocks: the list is a function of the size of the ring, the slot of the
oldest row and the number of rows (`Reach.runShape`).

Key definitions: `runsOf`, `LayerKvCache.RunShape`.
Key theorems: `dropOldestRuns_runsOf`, `Reach.runShape`.
-/
import KirAi.KvCache.LayerCopies

namespace KirAi.KvCache

open Lib LayerKvCacheBlockRun LayerKvCache

variable {runs : List LayerKvCacheBlockRun} {ids : List BlockId} {cap n start : ℕ}

/-! ### Runs without ids -/

/-- A run, whichever id its block has. -/
def eraseId (run : LayerKvCacheBlockRun) : LayerKvCacheBlockRun := { run with blockId := 0 }

/-- The run of one row. -/
def slotRun (cap start i : ℕ) : LayerKvCacheBlockRun where
  blockIndex := ringSlot start i cap / layerKvBlockTokens
  blockId := 0
  logicalTokenStart := i
  physicalTokenStart := ringSlot start i cap
  blockTokenStart := ringSlot start i cap % layerKvBlockTokens
  tokenCount := 1

/-- The runs of the rows `0 .. n` of a ring, each row joined to the runs before
it. -/
def runsOf (cap start : ℕ) : ℕ → List LayerKvCacheBlockRun
  | 0 => []
  | n + 1 => extendRuns (runsOf cap start n) (slotRun cap start n)

theorem runsOf_pos (h : 0 < n) :
    runsOf cap start n = extendRuns (runsOf cap start (n - 1)) (slotRun cap start (n - 1)) := by
  cases n with
  | zero => omega
  | succ n => rfl

theorem canExtend_iff {a b : LayerKvCacheBlockRun} (hl : b.logicalTokenStart ≤ wordMax)
    (hp : b.physicalTokenStart ≤ wordMax) (hs : b.blockTokenStart ≤ wordMax) :
    a.canExtend b.blockIndex b.blockId b.logicalTokenStart b.physicalTokenStart b.blockTokenStart =
      true ↔ a.blockIndex = b.blockIndex ∧ a.blockId = b.blockId ∧
        a.logicalTokenStart + a.tokenCount = b.logicalTokenStart ∧
        a.physicalTokenStart + a.tokenCount = b.physicalTokenStart ∧
        a.blockTokenStart + a.tokenCount = b.blockTokenStart := by
  simp only [canExtend, Bool.and_eq_true, decide_eq_true_eq, checkedAdd_eq_some]
  constructor
  · rintro ⟨⟨⟨⟨h1, h2⟩, -, h3⟩, -, h4⟩, -, h5⟩
    exact ⟨h1, h2, h3.symm, h4.symm, h5.symm⟩
  · rintro ⟨h1, h2, h3, h4, h5⟩
    exact ⟨⟨⟨⟨h1, h2⟩, by omega, h3.symm⟩, by omega, h4.symm⟩, by omega, h5.symm⟩

theorem extendRuns_concat (l : List LayerKvCacheBlockRun) (a run : LayerKvCacheBlockRun) :
    extendRuns (l ++ [a]) run =
      if a.canExtend run.blockIndex run.blockId run.logicalTokenStart run.physicalTokenStart
        run.blockTokenStart then l ++ [{ a with tokenCount := a.tokenCount + 1 }]
      else l ++ [a] ++ [run] := by
  unfold extendRuns
  rw [List.getLast?_concat]
  dsimp only
  rw [List.dropLast_concat]

/-- Joining a row does not depend on the ids, as long as a block has one. -/
theorem extendRuns_eraseId {run : LayerKvCacheBlockRun}
    (hruns : ∀ r ∈ runs, ids[r.blockIndex]? = some r.blockId)
    (hrun : ids[run.blockIndex]? = some run.blockId) :
    (extendRuns runs run).map eraseId = extendRuns (runs.map eraseId) (eraseId run) := by
  rcases List.eq_nil_or_concat' runs with rfl | ⟨l, a, rfl⟩
  · rfl
  · have ha := hruns a (List.mem_append_right _ (List.mem_singleton_self a))
    have hcan : (eraseId a).canExtend (eraseId run).blockIndex (eraseId run).blockId
        (eraseId run).logicalTokenStart (eraseId run).physicalTokenStart
        (eraseId run).blockTokenStart = a.canExtend run.blockIndex run.blockId run.logicalTokenStart
        run.physicalTokenStart run.blockTokenStart := by
      by_cases hi : a.blockIndex = run.blockIndex
      · rw [hi, hrun] at ha
        simp only [canExtend, eraseId, hi, Option.some.inj ha, decide_true]
      · simp [canExtend, eraseId, hi]
    rw [extendRuns_concat, List.map_append, List.map_singleton, extendRuns_concat, hcan]
    split
    · rw [List.map_append]
      rfl
    · rw [List.map_append, List.map_append]
      rfl

theorem refresh_eraseId (bi : ℕ) (id : BlockId) :
    (refreshActiveBlockRunIds bi id runs).map eraseId = runs.map eraseId := by
  rw [refreshActiveBlockRunIds, List.map_map]
  refine List.map_congr_left fun r _ => ?_
  simp only [Function.comp_apply]
  split
  · rfl
  · rfl

theorem dropOldestRuns_eraseId : (dropOldestRuns runs).map eraseId = dropOldestRuns (runs.map eraseId) := by
  cases runs with
  | nil => rfl
  | cons first rest =>
    simp only [dropOldestRuns, List.map_cons]
    change List.map eraseId (List.map shiftRun (if first.tokenCount = 1 then _ else _)) =
      List.map shiftRun (if first.tokenCount = 1 then _ else _)
    split
    · simp only [List.map_map]
      rfl
    · simp only [List.map_cons, List.map_map]
      rfl

/-! ### Taking the oldest row off -/

/-- Joining and shifting can be exchanged after the first run. -/
theorem extendRuns_shift {run : LayerKvCacheBlockRun}
    (hruns : ∀ r ∈ runs, 0 < r.logicalTokenStart) (hl : 0 < run.logicalTokenStart)
    (hle : run.logicalTokenStart ≤ wordMax) (hp : run.physicalTokenStart ≤ wordMax)
    (hs : run.blockTokenStart ≤ wordMax) :
    (extendRuns runs run).map shiftRun = extendRuns (runs.map shiftRun) (shiftRun run) := by
  rcases List.eq_nil_or_concat' runs with rfl | ⟨l, a, rfl⟩
  · rfl
  · have ha := hruns a (List.mem_append_right _ (List.mem_singleton_self a))
    have hcan : (shiftRun a).canExtend (shiftRun run).blockIndex (shiftRun run).blockId
        (shiftRun run).logicalTokenStart (shiftRun run).physicalTokenStart
        (shiftRun run).blockTokenStart = a.canExtend run.blockIndex run.blockId
        run.logicalTokenStart run.physicalTokenStart run.blockTokenStart := by
      rw [Bool.eq_iff_iff, canExtend_iff hle hp hs,
        canExtend_iff (b := shiftRun run) (by change run.logicalTokenStart - 1 ≤ _; omega) hp hs]
      simp only [shiftRun]
      constructor
      · rintro ⟨h1, h2, h3, h4, h5⟩
        exact ⟨h1, h2, by omega, h4, h5⟩
      · rintro ⟨h1, h2, h3, h4, h5⟩
        exact ⟨h1, h2, by omega, h4, h5⟩
    rw [extendRuns_concat, List.map_append, List.map_singleton, extendRuns_concat, hcan]
    split
    · rw [List.map_append]
      rfl
    · rw [List.map_append, List.map_append]
      rfl

theorem extendRuns_cons {first : LayerKvCacheBlockRun} {run : LayerKvCacheBlockRun} (h : runs ≠ []) :
    extendRuns (first :: runs) run = first :: extendRuns runs run := by
  rcases List.eq_nil_or_concat' runs with rfl | ⟨l, a, rfl⟩
  · exact absurd rfl h
  · rw [← List.cons_append, extendRuns_concat, extendRuns_concat]
    split
    · rfl
    · rfl

theorem run_ext {a b : LayerKvCacheBlockRun} (h1 : a.blockIndex = b.blockIndex)
    (h2 : a.blockId = b.blockId) (h3 : a.logicalTokenStart = b.logicalTokenStart)
    (h4 : a.physicalTokenStart = b.physicalTokenStart) (h5 : a.blockTokenStart = b.blockTokenStart)
    (h6 : a.tokenCount = b.tokenCount) : a = b := by
  cases a
  cases b
  dsimp only at *
  subst_vars
  rfl

/-- A run without its first row. -/
def dropRow (r : LayerKvCacheBlockRun) : LayerKvCacheBlockRun := shiftRun { r with
  physicalTokenStart := r.physicalTokenStart + 1
  blockTokenStart := r.blockTokenStart + 1
  tokenCount := r.tokenCount - 1 }

theorem dropOldestRuns_one {first : LayerKvCacheBlockRun} (h : first.tokenCount = 1) :
    dropOldestRuns (first :: runs) = runs.map shiftRun := by
  rw [dropOldestRuns, if_pos h]

theorem dropOldestRuns_more {first : LayerKvCacheBlockRun} (h : first.tokenCount ≠ 1) :
    dropOldestRuns (first :: runs) = dropRow first :: runs.map shiftRun := by
  rw [dropOldestRuns, if_neg h]
  rfl

/-- The end of the first run does not move when its first row goes. -/
theorem dropRow_canExtend {first run : LayerKvCacheBlockRun} (hfirst : first.logicalTokenStart = 0)
    (hpos : 0 < first.tokenCount) (hl : 0 < run.logicalTokenStart)
    (hle : run.logicalTokenStart ≤ wordMax) (hp : run.physicalTokenStart ≤ wordMax)
    (hs : run.blockTokenStart ≤ wordMax) :
    (dropRow first).canExtend (shiftRun run).blockIndex (shiftRun run).blockId
      (shiftRun run).logicalTokenStart (shiftRun run).physicalTokenStart
      (shiftRun run).blockTokenStart = first.canExtend run.blockIndex run.blockId
        run.logicalTokenStart run.physicalTokenStart run.blockTokenStart := by
  rw [Bool.eq_iff_iff, canExtend_iff hle hp hs,
    canExtend_iff (b := shiftRun run) (by change run.logicalTokenStart - 1 ≤ _; omega) hp hs]
  simp only [shiftRun, dropRow]
  constructor
  · rintro ⟨h1, h2, h3, h4, h5⟩
    exact ⟨h1, h2, by omega, by omega, by omega⟩
  · rintro ⟨h1, h2, h3, h4, h5⟩
    exact ⟨h1, h2, by omega, by omega, by omega⟩

/-- Joining a row and taking the oldest one off can be exchanged. -/
theorem dropOldestRuns_extendRuns {first run : LayerKvCacheBlockRun}
    (hfirst : first.logicalTokenStart = 0) (hpos : 0 < first.tokenCount)
    (hrest : ∀ r ∈ runs, 0 < r.logicalTokenStart) (hone : run.tokenCount = 1)
    (hl : 0 < run.logicalTokenStart) (hle : run.logicalTokenStart ≤ wordMax)
    (hp : run.physicalTokenStart ≤ wordMax) (hs : run.blockTokenStart ≤ wordMax) :
    dropOldestRuns (extendRuns (first :: runs) run) =
      extendRuns (dropOldestRuns (first :: runs)) (shiftRun run) := by
  by_cases hnil : runs = []
  · -- the first run is the last one too
    subst hnil
    have hrow := dropRow_canExtend hfirst hpos hl hle hp hs
    have hjoin : extendRuns [first] run = if first.canExtend run.blockIndex run.blockId
        run.logicalTokenStart run.physicalTokenStart run.blockTokenStart then
          [{ first with tokenCount := first.tokenCount + 1 }] else [first, run] :=
      extendRuns_concat [] first run
    have hmore : dropOldestRuns [{ first with tokenCount := first.tokenCount + 1 }] =
        [dropRow { first with tokenCount := first.tokenCount + 1 }] :=
      dropOldestRuns_more (by dsimp only; omega)
    rw [hjoin]
    by_cases h1 : first.tokenCount = 1
    · rw [dropOldestRuns_one h1]
      change _ = [shiftRun run]
      split
      · rename_i hc
        obtain ⟨h2, h3, h4, h5, h6⟩ := (canExtend_iff hle hp hs).mp hc
        rw [hmore]
        congr 1
        refine run_ext h2 h3 ?_ ?_ ?_ ?_
        · change first.logicalTokenStart - 1 = run.logicalTokenStart - 1
          omega
        · change first.physicalTokenStart + 1 = run.physicalTokenStart
          omega
        · change first.blockTokenStart + 1 = run.blockTokenStart
          omega
        · change first.tokenCount + 1 - 1 = run.tokenCount
          omega
      · exact dropOldestRuns_one h1
    · have hjoin' : extendRuns [dropRow first] (shiftRun run) = if (dropRow first).canExtend
          (shiftRun run).blockIndex (shiftRun run).blockId (shiftRun run).logicalTokenStart
          (shiftRun run).physicalTokenStart (shiftRun run).blockTokenStart then
            [{ dropRow first with tokenCount := (dropRow first).tokenCount + 1 }]
          else [dropRow first, shiftRun run] := extendRuns_concat [] _ _
      rw [dropOldestRuns_more h1, List.map_nil, hjoin', hrow]
      split
      · rw [hmore]
        congr 1
        refine run_ext rfl rfl rfl rfl rfl ?_
        change first.tokenCount + 1 - 1 = first.tokenCount - 1 + 1
        omega
      · exact dropOldestRuns_more h1
  · have hshift := extendRuns_shift hrest hl hle hp hs
    rw [extendRuns_cons hnil]
    by_cases h1 : first.tokenCount = 1
    · rw [dropOldestRuns_one h1, dropOldestRuns_one h1]
      exact hshift
    · rw [dropOldestRuns_more h1, dropOldestRuns_more h1, extendRuns_cons (by simpa using hnil),
        hshift]

/-- The runs of a ring name its slots. -/
theorem runsOf_cover (hcap : cap ≤ wordMax) (hst : start < cap) : ∀ n, n ≤ cap →
    RunsCover (runsOf cap start n) (List.replicate (cap / layerKvBlockTokens + 1) 0) cap n start
  | 0, _ => .empty _ _ _
  | n + 1, hn => by
    refine (runsOf_cover hcap hst n (by omega)).extend 0 hn ?_
    have hlt : ringSlot start n cap < cap := ringSlot_lt (by omega)
    rw [List.getElem?_replicate, if_pos]
    exact Nat.lt_succ_of_le (Nat.div_le_div_right (le_of_lt hlt))

/-- The first run starts at row 0, the others after it. -/
theorem RunsCover.starts {first : LayerKvCacheBlockRun}
    (h : RunsCover (first :: runs) ids cap n start) : first.logicalTokenStart = 0 ∧
      ∀ r ∈ runs, 0 < r.logicalTokenStart := by
  have hpos := (h.inside first (List.mem_cons_self ..)).pos
  have hrow : ∀ r : LayerKvCacheBlockRun, 0 < r.tokenCount → r.logicalTokenStart ∈
      r.rows.map Prod.fst := by
    intro r hr
    rw [rows, List.map_map]
    exact List.mem_map.mpr ⟨0, List.mem_range.mpr hr, rfl⟩
  have hcov := congrArg (List.map Prod.fst) h.cover
  rw [List.map_map, List.flatMap_cons, List.map_append] at hcov
  have hlist : (List.range n).map (Prod.fst ∘ fun i => (i, ringSlot start i cap)) = List.range n :=
    List.map_id _
  rw [hlist] at hcov
  obtain ⟨k, hk⟩ : ∃ k, first.tokenCount = k + 1 := ⟨first.tokenCount - 1, by omega⟩
  have hhead : first.rows.map Prod.fst = first.logicalTokenStart ::
      (List.range k).map (fun j => first.logicalTokenStart + (j + 1)) := by
    rw [rows, hk, List.range_succ_eq_map]
    simp [Function.comp_def]
  rw [hhead, List.cons_append] at hcov
  cases n with
  | zero => cases hcov
  | succ n =>
    rw [List.range_succ_eq_map] at hcov
    obtain ⟨h0, htail⟩ := List.cons.inj hcov
    refine ⟨h0, fun r hr => ?_⟩
    have hmem : r.logicalTokenStart ∈ (List.range n).map Nat.succ := by
      rw [← htail]
      refine List.mem_append_right _ ?_
      rw [List.map_flatMap]
      exact List.mem_flatMap.mpr
        ⟨r, hr, hrow r (h.inside r (List.mem_cons_of_mem _ hr)).pos⟩
    obtain ⟨i, -, hi⟩ := List.mem_map.mp hmem
    omega

/-- **Sliding the ring.** Without its oldest row a ring has the runs of the ring
that starts one slot later. -/
theorem dropOldestRuns_runsOf (hcap : cap ≤ wordMax) (hst : start < cap) : ∀ n, n < cap →
    dropOldestRuns (runsOf cap start (n + 1)) = runsOf cap ((start + 1) % cap) n
  | 0, _ => by
    change dropOldestRuns [slotRun cap start 0] = []
    exact dropOldestRuns_one rfl
  | n + 1, hn => by
    have hc := runsOf_cover hcap hst (n + 1) (by omega)
    have ih := dropOldestRuns_runsOf hcap hst n (by omega)
    have hslot : ringSlot start (n + 1) cap < cap := ringSlot_lt (by omega)
    have hshift : shiftRun (slotRun cap start (n + 1)) = slotRun cap ((start + 1) % cap) n := by
      simp only [shiftRun, slotRun, ringSlot_succ_start, Nat.add_sub_cancel]
    rw [runsOf]
    cases hr : runsOf cap start (n + 1) with
    | nil =>
      rw [hr] at hc
      simpa using congrArg List.length hc.cover
    | cons first rest =>
      rw [hr] at hc ih
      obtain ⟨h0, hrest⟩ := hc.starts
      rw [dropOldestRuns_extendRuns h0 (hc.inside first (List.mem_cons_self ..)).pos hrest rfl
        (Nat.succ_pos n) (by change n + 1 ≤ _; omega) (by change ringSlot _ _ _ ≤ _; omega)
        (le_trans (Nat.mod_le _ _) (by change ringSlot _ _ _ ≤ _; omega)), ih, hshift]
      rfl

/-! ### The runs of a layer -/

namespace LayerKvCache

open LayerM

variable {K : QuantKernels} {shares : Shares} {c src : LayerKvCache} {W rows : List Row}
  {s s' : LayerState} {r : Row} {rt : Statics}

/-- Up to the ids of the blocks, the runs are those of the ring. -/
def RunShape (c : LayerKvCache) : Prop :=
  c.activeBlockRuns.map eraseId = runsOf c.maxTokens c.windowStart c.tokenCount

theorem Layout.maxTokens_le (h : Layout c) : c.maxTokens ≤ wordMax := by
  have h1 : c.maxTokens * 1 ≤ c.maxTokens * c.vectorLen := Nat.mul_le_mul_left _ h.vec_pos
  have h2 := h.stage_le
  unfold vecF32Max wordMax at *
  omega

/-- The row that an append joins to the runs of the block it wrote. -/
theorem extendRuns_shape {i p l : ℕ} {id : BlockId} (hi : i < ids.length)
    (hruns : RunsCover runs (ids.set i id) cap n start) (hid : p / layerKvBlockTokens = i) :
    (extendRuns runs {
      blockIndex := p / layerKvBlockTokens, blockId := id, logicalTokenStart := l
      physicalTokenStart := p, blockTokenStart := p % layerKvBlockTokens
      tokenCount := 1 }).map eraseId = extendRuns (runs.map eraseId) {
      blockIndex := p / layerKvBlockTokens, blockId := 0, logicalTokenStart := l
      physicalTokenStart := p, blockTokenStart := p % layerKvBlockTokens, tokenCount := 1 } := by
  refine extendRuns_eraseId (fun r hr => (hruns.inside r hr).id) ?_
  change (ids.set i id)[p / layerKvBlockTokens]? = _
  rw [hid, List.getElem?_set_self hi]

theorem RunShape.appended (h : RunShape s.cache) (hl : Layout s.cache)
    (ha : AppendedAtEnd K shares s r s') : RunShape s'.cache := by
  obtain ⟨hn, -, -, b, b', hb, -, -, -, hs'⟩ := ha
  have hlt := (List.getElem?_eq_some_iff.mp hb).1
  have hslot : ringSlot s.cache.windowStart s.cache.tokenCount s.cache.maxTokens =
      s.cache.tokenCount := by
    rw [hl.start_zero hn]
    exact ringSlot_zero_start hn
  have hjoin := extendRuns_shape (l := s.cache.tokenCount) (by rw [List.length_map]; exact hlt)
    (hl.runs.refresh (s.cache.tokenCount / layerKvBlockTokens) b'.id) rfl
  rw [hs']
  change (extendRuns _ _).map eraseId = runsOf s.cache.maxTokens s.cache.windowStart
    (s.cache.tokenCount + 1)
  rw [hjoin, refresh_eraseId, h, runsOf, slotRun, hslot]

theorem RunShape.slid (h : RunShape s.cache) (hl : Layout s.cache) (ha : Slid K shares s r s') :
    RunShape s'.cache := by
  obtain ⟨hfull, -, -, b, b', hb, -, -, -, hs'⟩ := ha
  have hmax := hl.max_pos
  have hlt := (List.getElem?_eq_some_iff.mp hb).1
  have hslot : ringSlot ((s.cache.windowStart + 1) % s.cache.maxTokens) (s.cache.maxTokens - 1)
      s.cache.maxTokens = s.cache.windowStart := by
    rw [ringSlot_succ_start, Nat.sub_add_cancel hmax]
    exact ringSlot_cap hl.start_lt
  have hruns := hl.runs.refresh (s.cache.windowStart / layerKvBlockTokens) b'.id
  rw [hfull, show s.cache.maxTokens = s.cache.maxTokens - 1 + 1 by omega] at hruns
  have hjoin := extendRuns_shape (l := s.cache.maxTokens - 1) (by rw [List.length_map]; exact hlt)
    hruns.dropOldest rfl
  have hdrop := dropOldestRuns_runsOf hl.maxTokens_le hl.start_lt (s.cache.maxTokens - 1) (by omega)
  rw [hs']
  change (extendRuns _ _).map eraseId = runsOf s.cache.maxTokens
    ((s.cache.windowStart + 1) % s.cache.maxTokens) s.cache.tokenCount
  rw [hjoin, dropOldestRuns_eraseId, refresh_eraseId, h, hfull]
  rw [Nat.sub_add_cancel hmax] at hdrop
  rw [hdrop]
  rw [runsOf_pos hmax, slotRun, hslot]

theorem RunShape.clone (h : RunShape c) (rt : Statics) : RunShape (c.clone rt).1 := h

theorem RunShape.clear : RunShape (clear shares s).cache := rfl

/-! A restore joins the rows one by one. -/

theorem appendRuns_shape : ∀ (m i : ℕ) (s : LayerState), i + m = n → n ≤ s.cache.maxTokens →
    (∀ p, p < s.cache.maxTokens →
      ∃ b, s.cache.listedBlock (p / layerKvBlockTokens) = some b ∧
        (s.cache.blocks.map (·.id))[p / layerKvBlockTokens]? = some b.id) →
    RunsCover s.cache.activeBlockRuns (s.cache.blocks.map (·.id)) s.cache.maxTokens i
      s.cache.windowStart →
    s.cache.activeBlockRuns.map eraseId = runsOf s.cache.maxTokens s.cache.windowStart i →
    ∃ runs, appendRuns (List.range' i m) s = .ok () ⟨{ s.cache with activeBlockRuns := runs }, s.rt⟩ ∧
      runs.map eraseId = runsOf s.cache.maxTokens s.cache.windowStart n
  | 0, i, s, hn, _, _, _, h => by
    obtain rfl : i = n := by omega
    exact ⟨_, rfl, h⟩
  | m + 1, i, s, hn, hle, hlisted, hcover, h => by
    have hlt : ringSlot s.cache.windowStart i s.cache.maxTokens < s.cache.maxTokens :=
      ringSlot_lt (by omega)
    obtain ⟨b, hb, hid⟩ := hlisted _ hlt
    have hrun := appendActiveBlockRun_spec (n := i) hlt hb
    have hjoin := extendRuns_eraseId (fun r hr => (hcover.inside r hr).id)
      (show (s.cache.blocks.map (·.id))[LayerKvCacheBlockRun.blockIndex {
        blockIndex := ringSlot s.cache.windowStart i s.cache.maxTokens / layerKvBlockTokens
        blockId := b.id, logicalTokenStart := i
        physicalTokenStart := ringSlot s.cache.windowStart i s.cache.maxTokens
        blockTokenStart := ringSlot s.cache.windowStart i s.cache.maxTokens % layerKvBlockTokens
        tokenCount := 1 }]? = some _ from hid)
    obtain ⟨runs, hruns, hshape⟩ := appendRuns_shape m (i + 1) ⟨{ s.cache with
      activeBlockRuns := extendRuns s.cache.activeBlockRuns {
        blockIndex := ringSlot s.cache.windowStart i s.cache.maxTokens / layerKvBlockTokens
        blockId := b.id, logicalTokenStart := i
        physicalTokenStart := ringSlot s.cache.windowStart i s.cache.maxTokens
        blockTokenStart := ringSlot s.cache.windowStart i s.cache.maxTokens % layerKvBlockTokens
        tokenCount := 1 } }, s.rt⟩ (by omega) hle hlisted (hcover.extend b.id (by omega) hid)
      (by dsimp only; rw [hjoin, h]; rfl)
    refine ⟨runs, ?_, hshape⟩
    rw [List.range'_succ, appendRuns, bind_apply, getCache_apply]
    dsimp only
    rw [bind_apply, show (s.cache.windowStart + i) % s.cache.maxTokens =
      ringSlot s.cache.windowStart i s.cache.maxTokens from rfl, hrun]
    exact hruns

theorem copyRowsToStage_keeps_runs : ∀ is, Keeps (·.cache.activeBlockRuns) (copyRowsToStage is)
  | [] => .pure _
  | _ :: is => .bind .getCache fun _ => .bind (.okOr _) fun _ => .bind (.okOr _) fun _ =>
      .bind (.okOr _) fun _ => .bind (copyStageToken_keeps _ _ _ fun _ _ _ => rfl) fun _ =>
        copyRowsToStage_keeps_runs is

theorem rebuildStageFromBlocks_keeps_runs :
    Keeps (·.cache.activeBlockRuns) (rebuildStageFromBlocks K) := by
  refine .bind (.modifyCache fun _ => rfl) fun _ => .bind .getCache fun c =>
    .bind (copyRowsToStage_keeps_runs _) fun _ => .bind (.bind .getCache fun c => ?_) fun _ =>
      .bind .getCache fun c => ?_
  · cases c.int8Storage with
    | none => exact .pure _
    | some store => exact .bind (.ofResult _) fun _ => .modifyCache fun _ => rfl
  · cases c.quantizedValues with
    | none => exact .pure _
    | some store => exact .bind (.ofResult _) fun _ => .modifyCache fun _ => rfl

theorem RunShape.of_rebuild {rt' : Statics} (h : Refilled src rt c) (hsrc : Window K src W)
    (hok : (do rebuildActiveBlockRunsFromTokens; rebuildStageFromBlocks K : LayerM Unit) ⟨c, rt'⟩ =
      .ok () s) : RunShape s.cache := by
  obtain ⟨-, -, hf⟩ := h.rebuild hsrc hok
  obtain ⟨u, s₁, hruns, hstage⟩ := bind_apply_eq_ok.mp hok
  have hkeep : s.cache.activeBlockRuns = s₁.cache.activeBlockRuns :=
    rebuildStageFromBlocks_keeps_runs _ _ _ hstage
  have hcap : c.tokenCount ≤ c.maxTokens := by
    rw [h.count_eq, h.max_eq]
    exact hsrc.count_le
  obtain ⟨runs, happ, hshape⟩ := appendRuns_shape (n := c.tokenCount) c.tokenCount 0
    ⟨{ c with activeBlockRuns := [] }, rt'⟩ (Nat.zero_add _) hcap (fun p => h.listed)
    (RunsCover.empty _ _ _) rfl
  simp only [rebuildActiveBlockRunsFromTokens, bind_apply, modifyCache_apply, getCache_apply,
    List.range_eq_range', happ] at hruns
  cases hruns
  have hmax : s.cache.maxTokens = c.maxTokens := by rw [hf]
  have hstart : s.cache.windowStart = c.windowStart := by rw [hf]
  have hcount : s.cache.tokenCount = c.tokenCount := by rw [hf]
  rw [RunShape, hkeep, hmax, hstart, hcount]
  exact hshape

theorem RunShape.fromPrefixCacheState (hsrc : Window K src W)
    (h : fromPrefixCacheState K src.prefixCacheState rt = .ok s) : RunShape s.cache := by
  unfold LayerKvCache.fromPrefixCacheState at h
  simp only [throw_bind, guard_eq_ok, bind_eq_ok] at h
  obtain ⟨-, ⟨c₀, rt₀⟩, hnew, c₁, hres, hfin⟩ := h
  exact .of_rebuild (new_refilled hnew hres) hsrc (finish_ok hfin)

theorem RunShape.appendSnapshotRows : ∀ {rs : List Row} {W : List Row} {s : LayerState},
    Window K s.cache W → RunShape s.cache → appendSnapshotRows K rs s = .ok () s' →
    RunShape s'.cache
  | [], _, _, _, h, hok => by
    cases hok
    exact h
  | r :: rs, W, s, hw, h, hok => by
    obtain ⟨m, s₁, h1, h2⟩ := bind_apply_eq_ok.mp hok
    obtain ⟨ha, -⟩ := appendWithMetadata_ok hw h1
    exact RunShape.appendSnapshotRows (hw.appended ha) (h.appended hw.toLayout ha) h2

theorem New.runShape {maxTokens keyValueHeads headDim : ℕ} {config : KvCacheConfig} {rt' : Statics}
    (h : New maxTokens keyValueHeads headDim config rt c rt') : RunShape c := by
  rw [RunShape, h.cache]
  rfl

theorem RunShape.fromSnapshot {snap : LayerKvCacheSnapshot}
    (h : LayerKvCache.fromSnapshot K snap rt = .ok s) : RunShape s.cache := by
  unfold LayerKvCache.fromSnapshot at h
  simp only [throw_bind, guard_eq_ok, bind_eq_ok] at h
  obtain ⟨-, ⟨c₀, rt₀⟩, hnew, h⟩ := h
  dsimp only at h
  split at h
  · simp only [guard_eq_ok, bind_eq_ok, pure_eq_ok] at h
    obtain ⟨-, -, s₁, hfin, rfl⟩ := h
    have hn := newWithConfig_ok hnew
    have hshape : RunShape s₁.cache :=
      RunShape.appendSnapshotRows (W := []) hn.window hn.runShape (finish_ok hfin)
    exact hshape
  · cases h

/-- The run lemma. -/
theorem Reach.runShape (h : Reach K s rows) : RunShape s.cache := by
  induction h with
  | new h => exact (newWithConfig_ok h).runShape
  | elsewhere _ _ ih => exact ih
  | append h hok ih =>
    have hw := h.window.1
    exact ih.appended hw.toLayout (appendWithMetadata_ok hw hok).1
  | appendFailed h herr ih =>
    obtain ⟨rfl, -⟩ := appendWithMetadata_error h.window.1 herr
    exact ih
  | appendSliding h hok ih =>
    have hw := h.window.1
    rcases appendSlidingWithMetadata_ok hw hok with ⟨ha, -⟩ | ⟨ha, -⟩
    · exact ih.appended hw.toLayout ha
    · exact ih.slid hw.toLayout ha
  | appendSlidingFailed h herr ih =>
    obtain ⟨rfl, -⟩ := appendSlidingWithMetadata_error h.window.1 herr
    exact ih
  | clear _ _ _ => exact .clear
  | read _ ih => exact ih
  | clone rt _ ih => exact ih.clone rt
  | fromPrefixCacheState h hok _ => exact .fromPrefixCacheState h.window.1 hok
  | fromSnapshot _ hok _ => exact .fromSnapshot hok

end LayerKvCache
end KirAi.KvCache
