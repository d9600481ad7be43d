/-
# The runs of a layer cache

The run list says which slot of the ring holds which logical row. `RunsCover`
is what it has to say: read in order, the runs list the logical rows `0 .. n`
with the slots from the window's start on, and each run stays inside one block.
Adding the next row, dropping the oldest one and renaming a block keep it
(`RunsCover.extend`, `RunsCover.dropOldest`, `RunsCover.refresh`).
-/
import KirAi.KvCache.Layer
import KirAi.Lib.Ring

namespace KirAi.KvCache

open Lib

namespace LayerKvCacheBlockRun

/-- The rows of a run: logical index and slot. -/
def rows (r : LayerKvCacheBlockRun) : List (ℕ × ℕ) :=
  (List.range r.tokenCount).map fun j => (r.logicalTokenStart + j, r.physicalTokenStart + j)

/-- A run that is not empty, lies inside one block of the ring, and knows the
block's id. -/
structure Inside (r : LayerKvCacheBlockRun) (ids : List BlockId) (cap : ℕ) : Prop where
  pos : 0 < r.tokenCount
  index : r.blockIndex = r.physicalTokenStart / layerKvBlockTokens
  start : r.blockTokenStart = r.physicalTokenStart % layerKvBlockTokens
  within : r.blockTokenStart + r.tokenCount ≤ layerKvBlockTokens
  le_cap : r.physicalTokenStart + r.tokenCount ≤ cap
  id : ids[r.blockIndex]? = some r.blockId

/-- All rows of such a run are in its block. -/
theorem Inside.slot {r : LayerKvCacheBlockRun} {ids : List BlockId} {cap j : ℕ} (h : r.Inside ids cap)
    (hj : j < r.tokenCount) :
    (r.physicalTokenStart + j) / layerKvBlockTokens = r.blockIndex ∧
      (r.physicalTokenStart + j) % layerKvBlockTokens = r.blockTokenStart + j := by
  have h1 := h.index
  have h2 := h.start
  have h3 := h.within
  unfold layerKvBlockTokens at *
  omega

end LayerKvCacheBlockRun

open LayerKvCacheBlockRun LayerKvCache

structure RunsCover (runs : List LayerKvCacheBlockRun) (ids : List BlockId) (cap n start : ℕ) :
    Prop where
  cover : runs.flatMap rows = (List.range n).map fun i => (i, ringSlot start i cap)
  inside : ∀ r ∈ runs, r.Inside ids cap

variable {runs : List LayerKvCacheBlockRun} {ids : List BlockId} {cap n start : ℕ}

theorem RunsCover.empty (ids : List BlockId) (cap start : ℕ) : RunsCover [] ids cap 0 start :=
  ⟨rfl, fun _ hr => by cases hr⟩

/-- Renaming a block renames it in its runs. -/
theorem RunsCover.refresh (h : RunsCover runs ids cap n start) (bi : ℕ) (id : BlockId) :
    RunsCover (refreshActiveBlockRunIds bi id runs) (ids.set bi id) cap n start := by
  have hrows : ∀ r : LayerKvCacheBlockRun,
      (if r.blockIndex = bi then { r with blockId := id } else r).rows = r.rows := fun r => by
    split <;> rfl
  refine ⟨?_, fun r hr => ?_⟩
  · rw [← h.cover, refreshActiveBlockRunIds, List.flatMap_map]
    simp only [hrows]
  · obtain ⟨r₀, hr₀, rfl⟩ := List.mem_map.mp hr
    have h₀ := h.inside r₀ hr₀
    have hlt : r₀.blockIndex < ids.length := (List.getElem?_eq_some_iff.mp h₀.id).1
    by_cases hb : r₀.blockIndex = bi
    · subst hb
      rw [if_pos rfl]
      exact ⟨h₀.pos, h₀.index, h₀.start, h₀.within, h₀.le_cap, List.getElem?_set_self hlt⟩
    · rw [if_neg hb]
      refine ⟨h₀.pos, h₀.index, h₀.start, h₀.within, h₀.le_cap, ?_⟩
      rw [List.getElem?_set_ne (Ne.symm hb)]
      exact h₀.id

/-- Runs that know a block's id do not change when they are told it again. -/
theorem RunsCover.refresh_same (h : RunsCover runs ids cap n start) {i : ℕ} {id : BlockId}
    (hi : ids[i]? = some id) : refreshActiveBlockRunIds i id runs = runs := by
  conv_rhs => rw [← List.map_id runs]
  refine List.map_congr_left fun r hr => ?_
  split
  · rename_i he
    have := (h.inside r hr).id
    rw [he, hi] at this
    cases this
    rfl
  · rfl

theorem rows_succ (r : LayerKvCacheBlockRun) :
    ({ r with tokenCount := r.tokenCount + 1 } : LayerKvCacheBlockRun).rows =
      r.rows ++ [(r.logicalTokenStart + r.tokenCount, r.physicalTokenStart + r.tokenCount)] := by
  simp [rows, List.range_succ]

/-- Joining a row to the runs lists it last. -/
theorem extendRuns_rows (runs : List LayerKvCacheBlockRun) (run : LayerKvCacheBlockRun)
    (h1 : run.tokenCount = 1) : (extendRuns runs run).flatMap rows =
      runs.flatMap rows ++ [(run.logicalTokenStart, run.physicalTokenStart)] := by
  have hone : run.rows = [(run.logicalTokenStart, run.physicalTokenStart)] := by
    simp [rows, h1, List.range_succ]
  unfold extendRuns
  split
  · rename_i previous hp
    obtain ⟨l, rfl⟩ := List.getLast?_eq_some_iff.mp hp
    split
    · rename_i hc
      simp only [canExtend, Bool.and_eq_true, decide_eq_true_eq] at hc
      obtain ⟨⟨⟨-, hl⟩, hph⟩, -⟩ := hc
      obtain ⟨-, hl'⟩ := checkedAdd_eq_some.mp hl
      obtain ⟨-, hp'⟩ := checkedAdd_eq_some.mp hph
      rw [List.dropLast_concat, List.flatMap_append, List.flatMap_append, List.append_assoc]
      simp only [List.flatMap_cons, List.flatMap_nil, List.append_nil]
      rw [rows_succ, hl', hp']
    · simp [hone]
  · simp [hone]

/-- The next row of the window. -/
theorem RunsCover.extend (h : RunsCover runs ids cap n start) (id : BlockId) (hn : n < cap)
    (hid : ids[ringSlot start n cap / layerKvBlockTokens]? = some id) :
    RunsCover (extendRuns runs {
      blockIndex := ringSlot start n cap / layerKvBlockTokens, blockId := id
      logicalTokenStart := n, physicalTokenStart := ringSlot start n cap
      blockTokenStart := ringSlot start n cap % layerKvBlockTokens, tokenCount := 1 })
      ids cap (n + 1) start := by
  have hlt : ringSlot start n cap < cap := ringSlot_lt (by omega)
  have hnew : LayerKvCacheBlockRun.Inside {
      blockIndex := ringSlot start n cap / layerKvBlockTokens, blockId := id
      logicalTokenStart := n, physicalTokenStart := ringSlot start n cap
      blockTokenStart := ringSlot start n cap % layerKvBlockTokens, tokenCount := 1 } ids cap :=
    ⟨Nat.one_pos, rfl, rfl, Nat.mod_lt _ (by decide), hlt, hid⟩
  refine ⟨?_, fun r hr => ?_⟩
  · rw [extendRuns_rows _ _ rfl, h.cover, List.range_succ, List.map_append]
    rfl
  · unfold extendRuns at hr
    split at hr
    · rename_i previous hp
      have hprev := h.inside previous (List.mem_of_getLast? hp)
      split at hr
      · rename_i hc
        rcases List.mem_append.mp hr with hr | hr
        · exact h.inside r (List.dropLast_subset _ hr)
        · -- the run that grows: the row it takes is in the same block
          simp only [canExtend, Bool.and_eq_true, decide_eq_true_eq] at hc
          obtain ⟨⟨⟨-, -⟩, hph⟩, hbt⟩ := hc
          obtain ⟨-, hp'⟩ := checkedAdd_eq_some.mp hph
          obtain ⟨-, hb'⟩ := checkedAdd_eq_some.mp hbt
          rw [List.mem_singleton.mp hr]
          have hmod : ringSlot start n cap % layerKvBlockTokens < layerKvBlockTokens :=
            Nat.mod_lt _ (by decide)
          refine ⟨Nat.succ_pos _, hprev.index, hprev.start, ?_, ?_, hprev.id⟩
          · change previous.blockTokenStart + (previous.tokenCount + 1) ≤ _
            omega
          · change previous.physicalTokenStart + (previous.tokenCount + 1) ≤ _
            omega
      · rcases List.mem_append.mp hr with hr | hr
        · exact h.inside r hr
        · rw [List.mem_singleton.mp hr]
          exact hnew
    · rcases List.mem_append.mp hr with hr | hr
      · exact h.inside r hr
      · rw [List.mem_singleton.mp hr]
        exact hnew

/-- A run one logical row earlier. -/
def shiftRun (r : LayerKvCacheBlockRun) : LayerKvCacheBlockRun :=
  { r with logicalTokenStart := r.logicalTokenStart - 1 }

/-- The runs without the oldest row, as `remove_oldest_active_block_token`
leaves them. -/
def dropOldestRuns : List LayerKvCacheBlockRun → List LayerKvCacheBlockRun
  | [] => []
  | first :: rest => (if first.tokenCount = 1 then rest else { first with
      physicalTokenStart := first.physicalTokenStart + 1
      blockTokenStart := first.blockTokenStart + 1
      tokenCount := first.tokenCount - 1 } :: rest).map shiftRun

theorem shiftRun_rows {r : LayerKvCacheBlockRun} (h : 0 < r.logicalTokenStart) :
    (shiftRun r).rows = r.rows.map fun e => (e.1 - 1, e.2) := by
  simp only [rows, shiftRun, List.map_map]
  refine List.map_congr_left fun j _ => ?_
  simp only [Function.comp_apply, Prod.mk.injEq, and_true]
  omega

/-- The oldest row goes, and the others move up. -/
theorem RunsCover.dropOldest (h : RunsCover runs ids cap (n + 1) start) :
    RunsCover (dropOldestRuns runs) ids cap n ((start + 1) % cap) := by
  cases runs with
  | nil => simpa using congrArg List.length h.cover
  | cons first rest =>
    have hf := h.inside first (by simp)
    have hpos := hf.pos
    -- the first run starts at logical row 0, and the later ones after it
    have hcov := h.cover
    rw [List.flatMap_cons, List.range_succ_eq_map, List.map_cons, List.map_map] at hcov
    have hfirst : first.rows = (first.logicalTokenStart, first.physicalTokenStart) ::
        (List.range (first.tokenCount - 1)).map fun j =>
          (first.logicalTokenStart + (j + 1), first.physicalTokenStart + (j + 1)) := by
      rw [rows, show first.tokenCount = first.tokenCount - 1 + 1 by omega, List.range_succ_eq_map]
      simp [Function.comp_def]
    rw [hfirst, List.cons_append] at hcov
    obtain ⟨h0, htail⟩ := List.cons.inj hcov
    have hl0 : first.logicalTokenStart = 0 := congrArg Prod.fst h0
    have hrest : ∀ r ∈ rest, 0 < r.logicalTokenStart := fun r hr => by
      have hp := (h.inside r (by simp [hr])).pos
      have hm : (r.logicalTokenStart, r.physicalTokenStart) ∈ rest.flatMap rows :=
        List.mem_flatMap.mpr ⟨r, hr, List.mem_map.mpr ⟨0, List.mem_range.mpr hp, rfl⟩⟩
      have hm' := List.mem_append_right ((List.range (first.tokenCount - 1)).map fun j =>
        (first.logicalTokenStart + (j + 1), first.physicalTokenStart + (j + 1))) hm
      rw [htail] at hm'
      obtain ⟨i, -, hi⟩ := List.mem_map.mp hm'
      have := congrArg Prod.fst hi
      simp only [Function.comp_apply] at this
      omega
    have hshift : (rest.map shiftRun).flatMap rows =
        (rest.flatMap rows).map fun e => (e.1 - 1, e.2) := by
      rw [List.flatMap_map, List.map_flatMap]
      exact List.flatMap_congr fun r hr => shiftRun_rows (hrest r hr)
    have hrun : (dropOldestRuns (first :: rest)).flatMap rows =
        ((List.range (first.tokenCount - 1)).map (fun j =>
          (first.logicalTokenStart + (j + 1), first.physicalTokenStart + (j + 1))) ++
          rest.flatMap rows).map fun e => (e.1 - 1, e.2) := by
      rw [List.map_append, ← hshift, dropOldestRuns]
      split
      · rename_i h1
        simp [h1]
      · rw [List.map_cons, List.flatMap_cons]
        congr 1
        simp only [rows, shiftRun, List.map_map]
        refine List.map_congr_left fun j _ => ?_
        simp only [Function.comp_apply, Prod.mk.injEq]
        omega
    refine ⟨?_, fun r hr => ?_⟩
    · rw [hrun, htail, List.map_map]
      refine List.map_congr_left fun i _ => ?_
      simp only [Function.comp_apply, Nat.succ_eq_add_one, Nat.add_sub_cancel, Prod.mk.injEq,
        true_and]
      exact ringSlot_succ_start.symm
    · rw [dropOldestRuns] at hr
      obtain ⟨r₀, hr₀, rfl⟩ := List.mem_map.mp hr
      have key : r₀.Inside ids cap := by
        split at hr₀
        · exact h.inside r₀ (by simp [hr₀])
        · rename_i h1
          rcases List.mem_cons.mp hr₀ with rfl | hr₀
          · have hi := hf.index
            have hs := hf.start
            have hw := hf.within
            have hc := hf.le_cap
            unfold layerKvBlockTokens at *
            refine ⟨?_, ?_, ?_, ?_, ?_, hf.id⟩
            · change 0 < first.tokenCount - 1
              omega
            · change first.blockIndex = (first.physicalTokenStart + 1) / 256
              omega
            · change first.blockTokenStart + 1 = (first.physicalTokenStart + 1) % 256
              omega
            · change first.blockTokenStart + 1 + (first.tokenCount - 1) ≤ 256
              omega
            · change first.physicalTokenStart + 1 + (first.tokenCount - 1) ≤ cap
              omega
          · exact h.inside r₀ (by simp [hr₀])
      exact ⟨key.pos, key.index, key.start, key.within, key.le_cap, key.id⟩

end KirAi.KvCache
