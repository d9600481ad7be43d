/-
# Saving a layer and restoring it

A layer can be saved as a prefix state, which shares its storages and keeps the
slots, or as a snapshot, which copies the rows and forgets the slots. Both can
be restored while the process has block ids left. A layer restored from a prefix
state has the model of its source and cannot be told apart from it; one restored
from a snapshot has its window in the first slots and cannot be told apart by
rows.

Key theorems: `prefixCacheState_roundTrip`, `snapshot_roundTrip`.
-/
import KirAi.KvCache.LayerSharing

namespace KirAi.KvCache

open Lib

namespace LayerKvCache

variable {K : QuantKernels} {c src : LayerKvCache} {W rows : List Row} {s : LayerState} {rt : Statics}

/-! ### The model of a restored layer -/

theorem fromPrefixCacheState_windowStart (hsrc : Window K src W)
    (h : fromPrefixCacheState K src.prefixCacheState rt = .ok s) :
    s.cache.windowStart = src.windowStart := by
  unfold fromPrefixCacheState at h
  simp only [throw_bind, guard_eq_ok, bind_eq_ok] at h
  obtain ⟨-, ⟨c₀, rt₀⟩, hnew, c₁, hres, hfin⟩ := h
  obtain ⟨-, -, hf⟩ := (new_refilled hnew hres).rebuild hsrc (finish_ok hfin)
  rw [hf]

/-- A layer restored from a prefix state has the model of its source. -/
theorem fromPrefixCacheState_modelOf (hsrc : Window K src W)
    (h : fromPrefixCacheState K src.prefixCacheState rt = .ok s) :
    s.cache.modelOf W = src.modelOf W := by
  obtain ⟨-, hres, hcfg, hheads, hdim⟩ := fromPrefixCacheState_ok hsrc h
  simp only [modelOf, hcfg, hres.blocks.max_eq, hheads, hdim, hres.tokensSeen, hres.revision,
    fromPrefixCacheState_windowStart hsrc h]

theorem Rebuilt.modelOf_unwrapped (h : Rebuilt K src.snapshot W s) :
    (s.cache.modelOf W).unwrapped = (src.modelOf W).unwrapped := by
  simp only [modelOf, LayerModel.unwrapped, h.config, h.maxTokens, h.keyValueHeads, h.headDim,
    h.tokensSeen, h.revision]
  rfl

/-- A cache has seen the rows it holds. -/
theorem Live.count_le_seen (h : Live K s rows) : s.cache.tokenCount ≤ s.cache.tokensSeen := by
  obtain ⟨hw, hseen⟩ := h.reach.window
  have hlen := hw.length
  rw [length_rtake] at hlen
  omega

theorem Live.snapshotOf (h : Live K s rows) (hf32 : s.cache.config = .f32) :
    SnapshotOf s.cache.snapshot (rows.rtake s.cache.maxTokens) := by
  have hw := h.reach.window.1
  exact ⟨hf32, hw.length, hw.count_le, h.count_le_seen, hw.keys, hw.values,
    fun r hr => hw.row_length hr⟩

end LayerKvCache

/-! ### Prefix states -/

namespace World

open LayerKvCache

variable {K : QuantKernels} {w : World} {i : ℕ} {c : LayerKvCache}

/-- The world after cache `i` was saved and restored. -/
def restored (K : QuantKernels) (w : World) (i : ℕ) : World :=
  (w.step K (.prefixCacheState i)).step K (.fromPrefixCacheState w.prefixes.length)

/-- What is saved, restored and kept. -/
structure Restores (K : QuantKernels) (w : World) (i : ℕ) (c d : LayerKvCache) : Prop where
  original : (w.restored K i).cache i = some c
  copy : (w.restored K i).cache w.caches.length = some d
  saved : (w.restored K i).prefixState w.prefixes.length = some c.prefixCacheState

theorem restores {s : LayerState} (hc : w.cache i = some c)
    (hok : fromPrefixCacheState K c.prefixCacheState w.rt = .ok s) : Restores K w i c s.cache := by
  have hst : (w.step K (.prefixCacheState i)) =
      { w with prefixes := w.prefixes ++ [some c.prefixCacheState] } := by
    simp only [step, hc]
  have hsaved : World.prefixState { w with prefixes := w.prefixes ++ [some c.prefixCacheState] }
      w.prefixes.length = some c.prefixCacheState := by
    rw [prefixState, List.getElem?_concat_length]
    rfl
  have hstep : w.restored K i =
      World.addCache { w with prefixes := w.prefixes ++ [some c.prefixCacheState] } s := by
    rw [restored, hst]
    simp only [step, hsaved, hok]
  refine ⟨?_, ?_, ?_⟩
  · rw [hstep, addCache_cache, if_neg (Nat.ne_of_lt (cache_lt hc))]
    exact hc
  · rw [hstep, addCache_cache, if_pos rfl]
  · rw [hstep]
    exact hsaved

/-- **Round trip through a prefix state.** While the process has block ids left,
restoring what was saved succeeds. The restored cache has the rows of the source
in the same order, all reads agree, and they go on to agree whatever is asked of
both. Whatever happens next, a row appended through one cache is seen through no
other cache and through no saved state. -/
theorem prefixCacheState_roundTrip (hw : w.Reachable K) (hc : w.cache i = some c)
    (hids : w.rt.nextBlockId + blockCount c.maxTokens ≤ wordMax) :
    ∃ s W, fromPrefixCacheState K c.prefixCacheState w.rt = .ok s ∧
      Views c W ∧ Views s.cache W ∧ c.prefixCacheState.rows = W.map some ∧
      s.cache.tokenCount = c.tokenCount ∧ s.cache.nextPosition = c.nextPosition ∧
      s.cache.maxTokens = c.maxTokens ∧ s.cache.view = c.view ∧
      (∀ steps : List (LayerOp × Process × Process),
        c.trace K (steps.map fun x => (x.1, x.2.1)) =
          s.cache.trace K (steps.map fun x => (x.1, x.2.2))) ∧
      Restores K w i c s.cache ∧
      ∀ v, Relation.ReflTransGen (Next K) (w.restored K i) v → ∀ (k : ℕ) (op : Op),
        op.appendsTo k → Isolated v (v.step K op) k := by
  have hsound := hw.sound
  obtain ⟨rows, hl⟩ := hsound.live i c hc
  obtain ⟨hW, hseen⟩ := hl.reach.window
  obtain ⟨s, hok⟩ := fromPrefixCacheState_succeeds w.rt hW hl.blockIds hl.reach.format hl.count_le_seen
    hids
  obtain ⟨hW', hres, -⟩ := fromPrefixCacheState_ok hW hok
  have href := hl.reach.refines
  have href' := (Live.fromPrefixCacheState hl hok).reach.refines
  rw [hres.blocks.max_eq, fromPrefixCacheState_modelOf hW hok] at href'
  have hcount : s.cache.tokenCount = c.tokenCount := by rw [← hW'.length, ← hW.length]
  refine ⟨s, rows.rtake c.maxTokens, hok, hW.views, hW'.views, hW.prefixState_rows hl.blockIds,
    hcount, hres.tokensSeen, hres.blocks.max_eq, href'.view_eq href, href.trace_eq href',
    restores hc hok, fun v hv k op hop => ?_⟩
  exact ((((hsound.step (.prefixCacheState i)).step _).run hv).isolated hop)

/-- A wrapped cache of two rows, saved and restored. -/
theorem prefixCacheState_roundTrip_wrapped : ∃ w c s, World.cache w 0 = some c ∧ c.windowStart = 1 ∧
    fromPrefixCacheState .onZeroRows c.prefixCacheState w.rt = .ok s ∧ s.cache.view = c.view := by
  obtain ⟨w, c, hw, hc, hstart, hids⟩ : ∃ w c, Reachable .onZeroRows w ∧ World.cache w 0 = some c ∧
      c.windowStart = 1 ∧ w.rt.nextBlockId + blockCount c.maxTokens ≤ wordMax := by
    refine ⟨_, _, ⟨.initial, .tail (.tail (.tail (.tail .refl (.step (.new 2 1 1 .f32)))
      (.step (.append 0 [⟨1⟩] [⟨2⟩]))) (.step (.append 0 [⟨3⟩] [⟨4⟩])))
      (.step (.appendSliding 0 [⟨5⟩] [⟨6⟩]))⟩, rfl, ?_, ?_⟩
    · rfl
    · decide
  obtain ⟨s, W, hok, -, -, -, -, -, -, hview, -⟩ := prefixCacheState_roundTrip hw hc hids
  exact ⟨w, c, s, hc, hstart, hok, hview⟩

/-- A process that has run out of block ids restores nothing. -/
theorem prefixCacheState_not_restored : ∃ w c, Reachable .onZeroRows w ∧ World.cache w 0 = some c ∧
    fromPrefixCacheState .onZeroRows c.prefixCacheState w.rt = .error .invalidShape :=
  ⟨_, _, ⟨.initial, .tail (.tail .refl (.step (.new 1 1 1 .f32))) (.step (.elsewhere (wordMax - 2)))⟩,
    rfl, rfl⟩

/-! ### Snapshots -/

/-- **Round trip through a snapshot.** While the process has block ids left, an
`f32` cache restored from its snapshot has the same rows in the same order.
Whatever is asked of both, they accept and refuse the same calls with the same
errors, and the same rows are read of them. -/
theorem snapshot_roundTrip (hw : w.Reachable K) (hc : w.cache i = some c) (hf32 : c.config = .f32)
    (hids : w.rt.nextBlockId + blockCount c.maxTokens ≤ wordMax) :
    ∃ s W, fromSnapshot K c.snapshot w.rt = .ok s ∧ Views c W ∧ Views s.cache W ∧
      s.cache.tokenCount = c.tokenCount ∧ s.cache.nextPosition = c.nextPosition ∧
      s.cache.maxTokens = c.maxTokens ∧ s.cache.rowView = c.rowView ∧
      ∀ steps : List (LayerOp × Process × Process),
        (c.trace K (steps.map fun x => (x.1, x.2.1))).map rowsSeen =
          (s.cache.trace K (steps.map fun x => (x.1, x.2.2))).map rowsSeen := by
  obtain ⟨rows, hl⟩ := hw.sound.live i c hc
  have hW := hl.reach.window.1
  obtain ⟨s, hok, hre, -⟩ := fromSnapshot_succeeds (K := K) w.rt (hl.snapshotOf hf32) hW.max_pos
    hW.vec_pos hW.stage_le hids
  have href := hl.reach.refines
  have href' := (Live.fromSnapshot hl hok).reach.refines
  rw [hre.maxTokens] at href'
  have hun := hre.modelOf_unwrapped
  have hview : s.cache.rowView = c.rowView := by
    rw [href.rowView, href'.rowView]
    have := congrArg LayerModel.rowView hun
    exact this
  exact ⟨s, _, hok, hW.views, hre.window.views, congrArg RowView.tokenCount hview, hre.tokensSeen,
    hre.maxTokens, hview, href.trace_rows_eq href' hun.symm⟩

theorem snapshot_roundTrip_wrapped : ∃ w c s, World.cache w 0 = some c ∧ c.windowStart = 1 ∧
    fromSnapshot .onZeroRows c.snapshot w.rt = .ok s ∧ s.cache.rowView = c.rowView := by
  obtain ⟨w, c, hw, hc, hstart, hf32, hids⟩ : ∃ w c, Reachable .onZeroRows w ∧
      World.cache w 0 = some c ∧ c.windowStart = 1 ∧ c.config = .f32 ∧
      w.rt.nextBlockId + blockCount c.maxTokens ≤ wordMax := by
    refine ⟨_, _, ⟨.initial, .tail (.tail (.tail (.tail .refl (.step (.new 2 1 1 .f32)))
      (.step (.append 0 [⟨1⟩] [⟨2⟩]))) (.step (.append 0 [⟨3⟩] [⟨4⟩])))
      (.step (.appendSliding 0 [⟨5⟩] [⟨6⟩]))⟩, rfl, ?_, ?_, ?_⟩
    · rfl
    · rfl
    · decide
  obtain ⟨s, W, hok, -, -, -, -, -, hview, -⟩ := snapshot_roundTrip hw hc hf32 hids
  exact ⟨w, c, s, hc, hstart, hok, hview⟩

theorem snapshot_not_restored : ∃ w c, Reachable .onZeroRows w ∧ World.cache w 0 = some c ∧
    c.config = .f32 ∧ fromSnapshot .onZeroRows c.snapshot w.rt = .error .invalidShape :=
  ⟨_, _, ⟨.initial, .tail (.tail .refl (.step (.new 1 1 1 .f32))) (.step (.elsewhere (wordMax - 2)))⟩,
    rfl, rfl, rfl⟩

end World

end KirAi.KvCache
