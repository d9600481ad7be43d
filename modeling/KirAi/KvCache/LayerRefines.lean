/-
# A layer cache refines a bounded window list

The cache as its callers see it is a list: the last `max_tokens` rows accepted
since it was made or cleared. `Reach` is every run of appends, sliding appends,
clears and reads, also through clones, prefix states and snapshots, with the
rows accepted since the last clear as a ghost; other caches of the process move
the counters in between, and every step is given any number of handles held
elsewhere. At the end of every run all views of the
cache are that list.

Key definitions: `LayerKvCache.Views`, `LayerKvCache.Reach`.
Key theorems: `Reach.window`, `layerKvCache_refines_window`.
-/
import KirAi.KvCache.LayerPrefix
import Mathlib.Data.List.DropRight

namespace KirAi.KvCache
namespace LayerKvCache

open Lib LayerM

variable {K : QuantKernels} {shares : Shares} {c : LayerKvCache} {W rows : List Row}
  {s s' : LayerState} {r : Row}

/-! ### The views -/

/-- An active block lies inside the rows in use of one block of the cache. -/
def InsideBlock (c : LayerKvCache) (b : LayerKvCacheBlock) : Prop :=
  0 < b.tokenCount ∧ ∃ block, c.blocks[b.physicalTokenStart / layerKvBlockTokens]? = some block ∧
    block.id = b.blockId ∧ b.blockTokenStart = b.physicalTokenStart % layerKvBlockTokens ∧
    b.blockTokenStart + b.tokenCount ≤ block.tokenCount

/-- The logical rows an active block stands for. -/
def logicalRows (b : LayerKvCacheBlock) : List ℕ :=
  (List.range b.tokenCount).map (b.logicalTokenStart + ·)

/-- Every view of the cache is the list `W`. -/
structure Views (c : LayerKvCache) (W : List Row) : Prop where
  keys : c.keys = W.flatMap (·.1)
  values : c.values = W.flatMap (·.2)
  key : ∀ i, c.key i = W[i]?.map (·.1)
  value : ∀ i, c.value i = W[i]?.map (·.2)
  active : ∃ bs, c.activeBlocks = .ok bs ∧ bs.flatMap (·.keys) = W.flatMap (·.1) ∧
    bs.flatMap (·.values) = W.flatMap (·.2) ∧ bs.flatMap logicalRows = List.range W.length ∧
    ∀ b ∈ bs, InsideBlock c b

theorem Window.logicalRows_eq (h : Window K c W) {bs : List LayerKvCacheBlock}
    (hbs : List.Forall₂ (Reports c) c.activeBlockRuns bs) :
    bs.flatMap logicalRows = List.range W.length := by
  have hall : ∀ {runs bs}, List.Forall₂ (Reports c) runs bs →
      bs.flatMap logicalRows = (runs.flatMap LayerKvCacheBlockRun.rows).map (·.1) := by
    intro runs bs hrep
    induction hrep with
    | nil => rfl
    | cons hb _ ih =>
      obtain ⟨block, -, rfl⟩ := hb
      rw [List.flatMap_cons, List.flatMap_cons, List.map_append, ih]
      congr 1
      simp [logicalRows, LayerKvCacheBlockRun.rows, Function.comp_def]
  rw [hall hbs, h.runs.cover, List.map_map, h.length]
  exact List.map_id _

theorem Window.insideBlock (h : Window K c W) {run : LayerKvCacheBlockRun} {b : LayerKvCacheBlock}
    (hrun : run ∈ c.activeBlockRuns) (hb : c.Reports run b) : InsideBlock c b := by
  obtain ⟨block, hblock, rfl⟩ := hb
  have hin := h.runs.inside run hrun
  refine ⟨hin.pos, block, ?_, rfl, hin.start, h.run_end_le hrun hblock⟩
  rw [← hin.index]
  exact hblock

theorem Window.views (h : Window K c W) : Views c W := by
  obtain ⟨bs, hbs, hrep⟩ := h.toLayout.activeBlocks
  obtain ⟨hk, hv⟩ := h.activeBlocks_rows hrep
  refine ⟨h.keys, h.values, h.key, h.value, bs, hbs, hk, hv, h.logicalRows_eq hrep, fun b hb => ?_⟩
  obtain ⟨run, hrun, hr⟩ := forall₂_mem_right hrep hb
  exact h.insideBlock hrun hr

/-! ### Runs -/

/-- The states a cache can be in, with the rows it accepted since the last
clear. `elsewhere` is what other caches of the process do to the counters. -/
inductive Reach (K : QuantKernels) : LayerState → List Row → Prop where
  | new {maxTokens keyValueHeads headDim : ℕ} {config : KvCacheConfig} {rt rt' : Statics}
      {c : LayerKvCache} : newWithConfig maxTokens keyValueHeads headDim config rt = .ok (c, rt') →
      Reach K ⟨c, rt'⟩ []
  | elsewhere {s : LayerState} {rows : List Row} (rt : Statics) : Reach K s rows →
      Reach K ⟨s.cache, rt⟩ rows
  | append {s s' : LayerState} {rows : List Row} {shares : Shares} {key value : List F32}
      {m : LayerKvCacheAppend} : Reach K s rows →
      appendWithMetadata K shares key value s = .ok m s' → Reach K s' (rows ++ [(key, value)])
  | appendFailed {s s' : LayerState} {rows : List Row} {shares : Shares} {key value : List F32}
      {e : KvCacheError} : Reach K s rows →
      appendWithMetadata K shares key value s = .error e s' → Reach K s' rows
  | appendSliding {s s' : LayerState} {rows : List Row} {shares : Shares} {key value : List F32}
      {m : LayerKvCacheAppend} : Reach K s rows →
      appendSlidingWithMetadata K shares key value s = .ok m s' → Reach K s' (rows ++ [(key, value)])
  | appendSlidingFailed {s s' : LayerState} {rows : List Row} {shares : Shares}
      {key value : List F32} {e : KvCacheError} : Reach K s rows →
      appendSlidingWithMetadata K shares key value s = .error e s' → Reach K s' rows
  | clear {s : LayerState} {rows : List Row} (shares : Shares) : Reach K s rows →
      Reach K (clear shares s) []
  | read {s : LayerState} {rows : List Row} : Reach K s rows →
      Reach K ⟨s.cache.readContiguous, s.rt⟩ rows
  | clone {s : LayerState} {rows : List Row} (rt : Statics) : Reach K s rows →
      Reach K ⟨(s.cache.clone rt).1, (s.cache.clone rt).2⟩ rows
  | fromPrefixCacheState {s s' : LayerState} {rows : List Row} {rt : Statics} : Reach K s rows →
      fromPrefixCacheState K s.cache.prefixCacheState rt = .ok s' → Reach K s' rows
  | fromSnapshot {s s' : LayerState} {rows : List Row} {rt : Statics} : Reach K s rows →
      fromSnapshot K s.cache.snapshot rt = .ok s' → Reach K s' rows

theorem rtake_concat_of_lt {α : Type} {l : List α} {a : α} {n : ℕ} (h : l.length < n) :
    (l ++ [a]).rtake n = l.rtake n ++ [a] := by
  have h1 : l.length + 1 - n = 0 := by omega
  have h2 : l.length - n = 0 := by omega
  simp [List.rtake, h1, h2]

theorem rtake_concat_of_le {α : Type} {l : List α} {a : α} {n : ℕ} (hn : 0 < n) (h : n ≤ l.length) :
    (l ++ [a]).rtake n = (l.rtake n).tail ++ [a] := by
  rw [List.rtake, List.rtake, List.tail_drop, List.length_append, List.length_singleton,
    List.drop_append_of_le_length (by omega)]
  congr 2
  omega

theorem length_rtake {α : Type} (l : List α) (n : ℕ) : (l.rtake n).length = min l.length n := by
  rw [List.rtake, List.length_drop]
  omega

/-- An accepted row joins the window; a full window loses its oldest row. -/
theorem Window.accepted (h : Window K s.cache (rows.rtake s.cache.maxTokens))
    (hseen : s.cache.tokensSeen = rows.length)
    (ha : AppendedAtEnd K shares s r s' ∨ Slid K shares s r s') :
    Window K s'.cache ((rows ++ [r]).rtake s'.cache.maxTokens) ∧
      s'.cache.tokensSeen = (rows ++ [r]).length := by
  have hlen := h.length
  rw [length_rtake] at hlen
  rw [List.length_append, List.length_singleton, ← hseen]
  rcases ha with ha | ha
  · have hw := h.appended ha
    obtain ⟨hn, -, -, b, b', -, -, -, -, hs'⟩ := ha
    have hmax : s'.cache.maxTokens = s.cache.maxTokens := by rw [hs']; rfl
    rw [hmax, rtake_concat_of_lt (by omega)]
    exact ⟨hw, by rw [hs']; rfl⟩
  · have hw := h.slid ha
    obtain ⟨hfull, -, -, b, b', -, -, -, -, hs'⟩ := ha
    have hmax : s'.cache.maxTokens = s.cache.maxTokens := by rw [hs']; rfl
    rw [hmax, rtake_concat_of_le h.max_pos (by omega)]
    exact ⟨hw, by rw [hs']; rfl⟩

/-- The run lemma: the cache holds the last rows accepted, and has seen them
all. -/
theorem Reach.window (h : Reach K s rows) :
    Window K s.cache (rows.rtake s.cache.maxTokens) ∧ s.cache.tokensSeen = rows.length := by
  induction h with
  | new h =>
    have hn := newWithConfig_ok h
    rw [List.rtake_nil]
    exact ⟨hn.window, by rw [hn.cache]; rfl⟩
  | elsewhere _ _ ih => exact ih
  | append _ hok ih => exact ih.1.accepted ih.2 (.inl (appendWithMetadata_ok ih.1 hok).1)
  | appendFailed _ herr ih =>
    obtain ⟨rfl, -⟩ := appendWithMetadata_error ih.1 herr
    exact ih
  | appendSliding _ hok ih =>
    have ha := (appendSlidingWithMetadata_ok ih.1 hok).imp And.left And.left
    exact ih.1.accepted ih.2 ha
  | appendSlidingFailed _ herr ih =>
    obtain ⟨rfl, -⟩ := appendSlidingWithMetadata_error ih.1 herr
    exact ih
  | clear _ _ ih =>
    rw [List.rtake_nil]
    exact ⟨ih.1.clear, rfl⟩
  | read _ ih => exact ⟨ih.1.readContiguous, ih.2⟩
  | clone rt _ ih => exact ⟨ih.1.clone rt, ih.2⟩
  | fromPrefixCacheState _ hok ih =>
    obtain ⟨hw, hres, -⟩ := fromPrefixCacheState_ok ih.1 hok
    rw [hres.blocks.max_eq]
    exact ⟨hw, hres.tokensSeen.trans ih.2⟩
  | fromSnapshot _ hok ih =>
    obtain ⟨hw, hmax, hseen⟩ := fromSnapshot_ok ih.1 hok
    rw [hmax]
    exact ⟨hw, hseen.trans ih.2⟩

/-- A layer cache is the list of the last `max_tokens` rows accepted since the
last clear, in every view; it counts the rows accepted; a failed append changes
nothing, and an append fails only for the reasons in `Refusal`. -/
theorem layerKvCache_refines_window (h : Reach K s rows) :
    Views s.cache (rows.rtake s.cache.maxTokens) ∧
    s.cache.tokenCount = min rows.length s.cache.maxTokens ∧
    s.cache.nextPosition = rows.length ∧
    (∀ shares key value e s', appendWithMetadata K shares key value s = .error e s' →
      s' = s ∧ Refusal shares s (key, value) false) ∧
    (∀ shares key value e s', appendSlidingWithMetadata K shares key value s = .error e s' →
      s' = s ∧ Refusal shares s (key, value) true) ∧
    (s.cache.tokenCount = s.cache.maxTokens → ∀ shares key value,
      ∃ e, appendWithMetadata K shares key value s = .error e s) := by
  obtain ⟨hw, hseen⟩ := h.window
  refine ⟨hw.views, ?_, hseen, fun shares key value e s' => appendWithMetadata_error hw,
    fun shares key value e s' => appendSlidingWithMetadata_error hw,
    fun hfull shares key value => ?_⟩
  · rw [← hw.length, length_rtake]
  · rcases appendWithMetadata_spec shares (r := (key, value)) hw with
      ⟨e', he, -⟩ | ⟨s₁, ha, -⟩
    · exact ⟨e', he⟩
    · exact absurd ha.1 (by omega)

/-- Three rows in a cache of two, after a clear: the first one is gone. -/
theorem layerKvCache_refines_window_three_rows :
    ∃ s : LayerState, s.cache.tokenCount = 2 ∧ s.cache.nextPosition = 3 ∧
      Views s.cache [([⟨3⟩], [⟨4⟩]), ([⟨5⟩], [⟨6⟩])] := by
  have h : ∃ s, Reach .onZeroRows s [([⟨1⟩], [⟨2⟩]), ([⟨3⟩], [⟨4⟩]), ([⟨5⟩], [⟨6⟩])] ∧
      s.cache.maxTokens = 2 :=
    ⟨_, .appendSliding (.appendSliding (.append (.clear (fun _ => 0) (.append
      (.new (show newWithConfig 2 1 1 .f32 .initial = .ok _ from rfl))
      (show appendWithMetadata .onZeroRows (fun _ => 0) [⟨7⟩] [⟨8⟩] _ = .ok _ _ from rfl)))
      (show appendWithMetadata .onZeroRows (fun _ => 1) [⟨1⟩] [⟨2⟩] _ = .ok _ _ from rfl))
      (show appendSlidingWithMetadata .onZeroRows (fun _ => 0) [⟨3⟩] [⟨4⟩] _ = .ok _ _ from rfl))
      (show appendSlidingWithMetadata .onZeroRows (fun _ => 0) [⟨5⟩] [⟨6⟩] _ = .ok _ _ from rfl), rfl⟩
  obtain ⟨s, hs, hmax⟩ := h
  obtain ⟨hv, hcount, hnext, -⟩ := layerKvCache_refines_window hs
  rw [hmax] at hv hcount
  exact ⟨s, hcount, hnext, hv⟩

end LayerKvCache
end KirAi.KvCache
