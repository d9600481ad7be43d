/-
# A layer answers from the rows it accepted

`LayerModel` is a layer as its callers know it: its shape, the rows of the
window, the slot of the oldest one, and its counters. It says what every call is
answered, with the very error, as long as the process has block ids left
(`Process`). `Refines` ties a cache to it, and holds of every cache that can be
reached (`Reach.refines`). What a cache answers and what can be read of it
follow from its model, so two caches with one model cannot be told apart, and
two caches whose models differ in the slot of the oldest row only can be told
apart by slots only.

Key definitions: `LayerModel`, `LayerKvCache.Refines`, `LayerKvCache.act`,
`LayerKvCache.view`, `LayerKvCache.trace`.
Key theorems: `Refines.act`, `Refines.view_eq`, `Refines.trace_eq`,
`Refines.trace_rows_eq`.
-/
import KirAi.KvCache.LayerRunShape

namespace KirAi.KvCache

open Lib

/-! ### The model -/

structure LayerModel where
  config : KvCacheConfig
  maxTokens : ℕ
  keyValueHeads : ℕ
  headDim : ℕ
  /-- The window, oldest row first. -/
  rows : List Row
  /-- The slot of the oldest row. -/
  start : ℕ
  seen : ℕ
  revision : ℕ

/-- What is asked of a layer. -/
inductive LayerOp where
  | append (key value : List F32)
  | appendSliding (key value : List F32)
  | clear
  /-- `keys()` and `values()`, which leave a view behind. -/
  | read

/-- What an append is answered; nothing for the other calls. -/
abbrev LayerAnswer := Except KvCacheError (Option LayerKvCacheAppend)

namespace LayerModel

variable (m : LayerModel)

def vectorLen : ℕ := m.keyValueHeads * m.headDim

/-- Whether quantized values are kept, which have to be finite. -/
def quantized : Prop := m.config.format = .int8 ∨ m.config.asymmetricVq.isSome

instance : Decidable m.quantized := inferInstanceAs (Decidable (_ ∨ _))

def check (r : Row) : Except KvCacheError Unit := do
  if r.1.length ≠ m.vectorLen then throw (.shapeMismatch m.vectorLen r.1.length)
  if r.2.length ≠ m.vectorLen then throw (.shapeMismatch m.vectorLen r.2.length)
  if m.quantized ∧ (r.1 ++ r.2).any (!·.isFinite) then throw .nonFiniteValue

def answer (tokenIndex physicalTokenIndex : ℕ) : LayerKvCacheAppend where
  tokenIndex := tokenIndex
  physicalTokenIndex := physicalTokenIndex
  tokenCount := m.rows.length
  tokensSeen := m.seen
  revision := m.revision

/-- The model with a row joined. -/
def joined (r : Row) : LayerModel :=
  { m with rows := m.rows ++ [r], seen := m.seen + 1, revision := satAdd m.revision 1 }

/-- The model with a row in the place of the oldest one. -/
def slid (r : Row) : LayerModel :=
  { m with
    rows := m.rows.tail ++ [r], start := (m.start + 1) % m.maxTokens, seen := m.seen + 1
    revision := satAdd m.revision 1 }

def append (r : Row) : Except KvCacheError (LayerKvCacheAppend × LayerModel) := do
  m.check r
  if m.rows.length = m.maxTokens then throw (.capacityExceeded 1 0)
  if wordMax < m.seen + 1 then throw .invalidShape
  pure ((m.joined r).answer m.rows.length m.rows.length, m.joined r)

def appendSliding (r : Row) : Except KvCacheError (LayerKvCacheAppend × LayerModel) := do
  m.check r
  if wordMax < m.seen + 1 then throw .invalidShape
  if m.rows.length < m.maxTokens then
    pure ((m.joined r).answer m.rows.length m.rows.length, m.joined r)
  else pure ((m.slid r).answer (m.maxTokens - 1) m.start, m.slid r)

def cleared : LayerModel :=
  { m with rows := [], start := 0, seen := 0, revision := satAdd m.revision 1 }

/-- The answer to an append and the model after it. -/
def settle : Except KvCacheError (LayerKvCacheAppend × LayerModel) → LayerAnswer × LayerModel
  | .ok (a, m') => (.ok (some a), m')
  | .error e => (.error e, m)

def act : LayerOp → LayerAnswer × LayerModel
  | .append key value => m.settle (m.append (key, value))
  | .appendSliding key value => m.settle (m.appendSliding (key, value))
  | .clear => (.ok none, m.cleared)
  | .read => (.ok none, m)

/-! ### Models that differ in their slots -/

/-- The model with its window in the first slots. -/
def unwrapped : LayerModel := { m with start := 0 }

/-- An answer, up to the slot of the row. -/
def withoutSlot (a : LayerKvCacheAppend) : LayerKvCacheAppend := { a with physicalTokenIndex := 0 }

/-- Outcomes that differ in slots only. -/
def SameRows (a b : Except KvCacheError (LayerKvCacheAppend × LayerModel)) : Prop :=
  a.map (Prod.map withoutSlot unwrapped) = b.map (Prod.map withoutSlot unwrapped)

theorem append_unwrapped (r : Row) : SameRows (m.append r) (m.unwrapped.append r) := by
  unfold append
  change SameRows _ (m.check r >>= _)
  cases m.check r with
  | error e => rfl
  | ok u =>
    simp only [ok_bind, throw_bind]
    change SameRows _ (if m.rows.length = m.maxTokens then _ else
      if wordMax < m.seen + 1 then _ else _)
    split
    · rfl
    · split
      · rfl
      · rfl

theorem appendSliding_unwrapped (r : Row) :
    SameRows (m.appendSliding r) (m.unwrapped.appendSliding r) := by
  unfold appendSliding
  change SameRows _ (m.check r >>= _)
  cases m.check r with
  | error e => rfl
  | ok u =>
    simp only [ok_bind, throw_bind]
    change SameRows _ (if wordMax < m.seen + 1 then _ else
      if m.rows.length < m.maxTokens then _ else _)
    split
    · rfl
    · split
      · rfl
      · rfl

variable {m} in
theorem SameRows.settle {a b : Except KvCacheError (LayerKvCacheAppend × LayerModel)}
    (h : SameRows a b) :
    (m.settle a).1.map (·.map withoutSlot) = (m.unwrapped.settle b).1.map (·.map withoutSlot) ∧
      (m.settle a).2.unwrapped = (m.unwrapped.settle b).2.unwrapped := by
  cases a with
  | error e =>
    cases b with
    | error e' =>
      cases h
      exact ⟨rfl, rfl⟩
    | ok y => cases h
  | ok x =>
    cases b with
    | error e' => cases h
    | ok y =>
      obtain ⟨h1, h2⟩ := Prod.mk.inj (Except.ok.inj h)
      exact ⟨congrArg (fun a => Except.ok (some a)) h1, h2⟩

/-- What a model does depends on its first slot only in the slots it answers. -/
theorem act_unwrapped (op : LayerOp) :
    (m.act op).1.map (·.map withoutSlot) = (m.unwrapped.act op).1.map (·.map withoutSlot) ∧
      (m.act op).2.unwrapped = (m.unwrapped.act op).2.unwrapped := by
  cases op with
  | append key value => exact (m.append_unwrapped (key, value)).settle
  | appendSliding key value => exact (m.appendSliding_unwrapped (key, value)).settle
  | clear => exact ⟨rfl, rfl⟩
  | read => exact ⟨rfl, rfl⟩

end LayerModel

/-! ### What can be read -/

/-- What is read of the rows, whichever slots they are in. -/
structure RowView where
  config : KvCacheConfig
  maxTokens : ℕ
  keyValueHeads : ℕ
  headDim : ℕ
  tokenCount : ℕ
  nextPosition : ℕ
  revision : ℕ
  keys : List F32
  values : List F32
  key : ℕ → Option (List F32)
  value : ℕ → Option (List F32)
  /-- The rows of the active blocks, one after the other, and which rows of the
  window they are. -/
  activeKeys : Except KvCacheError (List F32)
  activeValues : Except KvCacheError (List F32)
  activeRows : Except KvCacheError (List ℕ)

/-- An active block: where its rows are, and the rows. -/
structure ActiveRows where
  logicalTokenStart : ℕ
  physicalTokenStart : ℕ
  blockTokenStart : ℕ
  tokenCount : ℕ
  vectorLen : ℕ
  keys : List F32
  values : List F32

/-- All that is read of a layer, up to the ids and revisions of its blocks. -/
structure LayerView extends RowView where
  activeBlocks : Except KvCacheError (List ActiveRows)
  activeInt8Blocks : Except KvCacheError (Option (List LayerKvCacheInt8Block))
  int8Storage : Option LayerInt8KvStore
  quantizedValues : Option LayerQuantizedValueStore

def LayerKvCacheBlock.activeRows (b : LayerKvCacheBlock) : ActiveRows where
  logicalTokenStart := b.logicalTokenStart
  physicalTokenStart := b.physicalTokenStart
  blockTokenStart := b.blockTokenStart
  tokenCount := b.tokenCount
  vectorLen := b.vectorLen
  keys := b.keys
  values := b.values

def LayerKvCacheInt8Block.eraseId (b : LayerKvCacheInt8Block) : LayerKvCacheInt8Block :=
  { b with blockId := 0, revision := 0 }

def LayerModel.rowView (m : LayerModel) : RowView where
  config := m.config
  maxTokens := m.maxTokens
  keyValueHeads := m.keyValueHeads
  headDim := m.headDim
  tokenCount := m.rows.length
  nextPosition := m.seen
  revision := m.revision
  keys := m.rows.flatMap (·.1)
  values := m.rows.flatMap (·.2)
  key i := m.rows[i]?.map (·.1)
  value i := m.rows[i]?.map (·.2)
  activeKeys := .ok (m.rows.flatMap (·.1))
  activeValues := .ok (m.rows.flatMap (·.2))
  activeRows := .ok (List.range m.rows.length)

/-- The process that a call meets: how many handles of the storages others have,
and counters that have block ids left. -/
structure Process where
  shares : Shares
  rt : Statics
  ids : rt.nextBlockId < wordMax

namespace LayerKvCache

open LayerM

variable (K : QuantKernels)

/-- The answer to an append and the cache after it. -/
def settle : EStateM.Result KvCacheError LayerState LayerKvCacheAppend → LayerAnswer × LayerKvCache
  | .ok a s => (.ok (some a), s.cache)
  | .error e s => (.error e, s.cache)

def act (c : LayerKvCache) (p : Process) : LayerOp → LayerAnswer × LayerKvCache
  | .append key value => settle (appendWithMetadata K p.shares key value ⟨c, p.rt⟩)
  | .appendSliding key value => settle (appendSlidingWithMetadata K p.shares key value ⟨c, p.rt⟩)
  | .clear => (.ok none, (clear p.shares ⟨c, p.rt⟩).cache)
  | .read => (.ok none, c.readContiguous)

/-- A cache that holds what the model says. -/
structure Refines (c : LayerKvCache) (m : LayerModel) : Prop where
  window : Window K c m.rows
  vqCopies : VqCopies K c
  runShape : RunShape c
  config : c.config = m.config
  maxTokens : c.maxTokens = m.maxTokens
  keyValueHeads : c.keyValueHeads = m.keyValueHeads
  headDim : c.headDim = m.headDim
  start : c.windowStart = m.start
  seen : c.tokensSeen = m.seen
  revision : c.revision = m.revision

variable {K} {c d : LayerKvCache} {m m' : LayerModel} {s s' : LayerState} {shares : Shares} {r : Row}
  {W rows : List Row} {p : Process}

/-- The model of a cache with the window `W`. -/
def modelOf (c : LayerKvCache) (W : List Row) : LayerModel where
  config := c.config
  maxTokens := c.maxTokens
  keyValueHeads := c.keyValueHeads
  headDim := c.headDim
  rows := W
  start := c.windowStart
  seen := c.tokensSeen
  revision := c.revision

theorem Reach.refines (h : Reach K s rows) :
    Refines K s.cache (s.cache.modelOf (rows.rtake s.cache.maxTokens)) :=
  ⟨h.window.1, h.vqCopies, h.runShape, rfl, rfl, rfl, rfl, rfl, rfl, rfl⟩

/-! ### Steps -/

theorem Refines.vectorLen (h : Refines K c m) : c.vectorLen = m.vectorLen := by
  rw [LayerKvCache.vectorLen, LayerModel.vectorLen, h.keyValueHeads, h.headDim]

theorem Refines.tokenCount (h : Refines K c m) : c.tokenCount = m.rows.length :=
  h.window.length.symm

theorem Refines.quantized (h : Refines K c m) :
    c.int8Storage.isSome ∨ c.quantizedValues.isSome ↔ m.quantized := by
  rw [h.window.int8_iff, h.window.vq_iff, h.config]
  rfl

/-- The two validations of an append, in order. -/
theorem Refines.validate (h : Refines K c m) (key value : List F32) :
    c.validateSlidingAppend key value = m.check (key, value) := by
  have hpay : c.validateCompressedTokenPayload key value =
      if m.quantized ∧ (key ++ value).any (!·.isFinite) then .error .nonFiniteValue else .ok () := by
    unfold validateCompressedTokenPayload
    by_cases hq : m.quantized
    · have hsome := h.quantized.mpr hq
      have hnone : ¬ (c.quantizedValues.isNone = true ∧ c.int8Storage.isNone = true) := by
        rintro ⟨h1, h2⟩
        rw [Option.isNone_iff_eq_none] at h1 h2
        simp [h1, h2] at hsome
      simp only [if_neg hnone, hq, true_and]
      rfl
    · have hnone : c.quantizedValues.isNone = true ∧ c.int8Storage.isNone = true := by
        rw [← h.quantized, not_or] at hq
        simpa [Option.not_isSome_iff_eq_none] using hq.symm
      simp only [if_pos hnone, hq, false_and, if_false]
      rfl
  simp only [validateSlidingAppend, validateTokenShape, LayerModel.check, hpay, h.vectorLen]
  split
  · rfl
  · split
    · rfl
    · rfl

/-- The model of the state after a row was joined or put over the oldest one. -/
theorem Refines.appended (h : Refines K s.cache m) (ha : AppendedAtEnd K shares s r s') :
    Refines K s'.cache (m.joined r) := by
  have hw := h.window.appended ha
  have hv := h.vqCopies.accepted (.inl ha)
  have hr := h.runShape.appended h.window.toLayout ha
  obtain ⟨-, -, -, b, b', -, -, -, -, hs'⟩ := ha
  refine ⟨hw, hv, hr, ?_, ?_, ?_, ?_, ?_, ?_, ?_⟩
  · rw [hs']; exact h.config
  · rw [hs']; exact h.maxTokens
  · rw [hs']; exact h.keyValueHeads
  · rw [hs']; exact h.headDim
  · rw [hs']; exact h.start
  · rw [hs']; exact congrArg (· + 1) h.seen
  · rw [hs']; exact congrArg (satAdd · 1) h.revision

theorem Refines.slid (h : Refines K s.cache m) (ha : Slid K shares s r s') :
    Refines K s'.cache (m.slid r) := by
  have hw := h.window.slid ha
  have hv := h.vqCopies.accepted (.inr ha)
  have hr := h.runShape.slid h.window.toLayout ha
  obtain ⟨-, -, -, b, b', -, -, -, -, hs'⟩ := ha
  refine ⟨hw, hv, hr, ?_, ?_, ?_, ?_, ?_, ?_, ?_⟩
  · rw [hs']; exact h.config
  · rw [hs']; exact h.maxTokens
  · rw [hs']; exact h.keyValueHeads
  · rw [hs']; exact h.headDim
  · rw [hs']
    change (s.cache.windowStart + 1) % s.cache.maxTokens = _
    rw [h.start, h.maxTokens]
    rfl
  · rw [hs']; exact congrArg (· + 1) h.seen
  · rw [hs']; exact congrArg (satAdd · 1) h.revision

theorem Refines.metadata (h : Refines K c m) (i j : ℕ) : c.metadataOf i j = m.answer i j := by
  simp only [metadataOf, LayerModel.answer, h.tokenCount, h.seen, h.revision]

/-- A state and its model after an append that may have been refused. -/
def Settles (K : QuantKernels) (s : LayerState)
    (a : EStateM.Result KvCacheError LayerState LayerKvCacheAppend)
    (b : Except KvCacheError (LayerKvCacheAppend × LayerModel)) : Prop :=
  (∃ e, a = .error e s ∧ b = .error e) ∨
    ∃ x s' m', a = .ok x s' ∧ b = .ok (x, m') ∧ Refines K s'.cache m'

theorem Settles.act {a : EStateM.Result KvCacheError LayerState LayerKvCacheAppend}
    {b : Except KvCacheError (LayerKvCacheAppend × LayerModel)} (h : Refines K s.cache m)
    (hs : Settles K s a b) :
    (settle a).1 = (m.settle b).1 ∧ Refines K (settle a).2 (m.settle b).2 := by
  rcases hs with ⟨e, rfl, rfl⟩ | ⟨x, s', m', rfl, rfl, h'⟩
  · exact ⟨rfl, h⟩
  · exact ⟨rfl, h'⟩

theorem Refines.acceptable (h : Refines K c m) {u : Unit} (hr : m.check r = .ok u) :
    Acceptable c r := by
  rw [← h.validate] at hr
  exact validateSlidingAppend_ok.mp hr

/-- A refused validation is the answer of plain append too. -/
theorem appendWithMetadata_invalid {key value : List F32} {e : KvCacheError}
    (h : s.cache.validateSlidingAppend key value = .error e) :
    LayerKvCache.appendWithMetadata K shares key value s = .error e s := by
  unfold validateSlidingAppend at h
  cases hv : s.cache.validateTokenShape key value with
  | error e' =>
    rw [hv] at h
    cases h
    simp [LayerKvCache.appendWithMetadata, hv]
  | ok u =>
    rw [hv] at h
    have h' : s.cache.validateCompressedTokenPayload key value = .error e := h
    simp [LayerKvCache.appendWithMetadata, hv, h']

theorem checkedAdd_eq_none {a b : ℕ} (h : wordMax < a + b) : checkedAdd a b = none := by
  cases hs : checkedAdd a b with
  | none => rfl
  | some n =>
    have := (checkedAdd_eq_some.mp hs).1
    omega

/-- Plain append does what the model says. -/
theorem Refines.appendWithMetadata (h : Refines K s.cache m) (hids : s.rt.nextBlockId < wordMax)
    (key value : List F32) :
    Settles K s (appendWithMetadata K shares key value s) (m.append (key, value)) := by
  cases hc : m.check (key, value) with
  | error e =>
    refine .inl ⟨e, appendWithMetadata_invalid (by rw [h.validate, hc]), ?_⟩
    rw [LayerModel.append, hc]
    rfl
  | ok u =>
    have hr := h.acceptable hc
    have hv : s.cache.validateTokenShape key value = .ok () :=
      validateTokenShape_ok.mpr ⟨hr.key, hr.value⟩
    have hp : s.cache.validateCompressedTokenPayload key value = .ok () :=
      validateCompressedTokenPayload_ok.mpr hr.finite
    by_cases hfull : s.cache.tokenCount = s.cache.maxTokens
    · have hfull' : m.rows.length = m.maxTokens := by rw [← h.tokenCount, hfull, h.maxTokens]
      refine .inl ⟨.capacityExceeded 1 0, ?_, ?_⟩
      · simp only [LayerKvCache.appendWithMetadata, bind_apply, getCache_apply, hv, hp, ofResult_ok,
          hfull, ↓reduceIte, throw_apply]
      · simp only [LayerModel.append, hc, ok_bind, throw_bind, if_pos hfull']
        rfl
    · have hfull' : ¬ m.rows.length = m.maxTokens := by rwa [← h.tokenCount, ← h.maxTokens]
      by_cases hseen : wordMax < s.cache.tokensSeen + 1
      · refine .inl ⟨.invalidShape, ?_, ?_⟩
        · simp only [LayerKvCache.appendWithMetadata, appendAtEndValidated, bind_apply,
            getCache_apply, hv, hp, ofResult_ok, if_neg hfull, checkedAdd_eq_none hseen, okOr_none]
        · rw [h.seen] at hseen
          simp only [LayerModel.append, hc, ok_bind, throw_bind, if_neg hfull', if_pos hseen]
          rfl
      · rcases appendWithMetadata_spec shares (r := (key, value)) h.window with
          ⟨e, -, hno | ⟨-, hno⟩ | hno | hno⟩ | ⟨s', ha, hok⟩
        · exact absurd hr hno
        · exact absurd hno hfull
        · omega
        · exact absurd hno.1 (Nat.not_le.2 hids)
        · have h' := h.appended ha
          refine .inr ⟨_, s', m.joined (key, value), hok, ?_, h'⟩
          rw [h.seen] at hseen
          simp only [LayerModel.append, hc, ok_bind, throw_bind, if_neg hfull', if_neg hseen]
          rw [h'.metadata, h.tokenCount]
          rfl

/-- Sliding append does what the model says. -/
theorem Refines.appendSlidingWithMetadata (h : Refines K s.cache m)
    (hids : s.rt.nextBlockId < wordMax) (key value : List F32) :
    Settles K s (appendSlidingWithMetadata K shares key value s) (m.appendSliding (key, value)) := by
  cases hc : m.check (key, value) with
  | error e =>
    have hv : s.cache.validateSlidingAppend key value = .error e := by rw [h.validate, hc]
    refine .inl ⟨e, by simp [LayerKvCache.appendSlidingWithMetadata, hv], ?_⟩
    rw [LayerModel.appendSliding, hc]
    rfl
  | ok u =>
    have hr := h.acceptable hc
    have hv : s.cache.validateSlidingAppend key value = .ok () := by rw [h.validate, hc]
    have hroom : s.cache.tokenCount < s.cache.maxTokens ↔ m.rows.length < m.maxTokens := by
      rw [h.tokenCount, h.maxTokens]
    by_cases hseen : wordMax < s.cache.tokensSeen + 1
    · refine .inl ⟨.invalidShape, ?_, ?_⟩
      · by_cases hn : s.cache.tokenCount < s.cache.maxTokens
        · simp only [LayerKvCache.appendSlidingWithMetadata, appendAtEndValidated, bind_apply,
            getCache_apply, hv, ofResult_ok, if_pos hn, if_neg (Nat.ne_of_lt hn),
            checkedAdd_eq_none hseen, okOr_none]
        · simp only [LayerKvCache.appendSlidingWithMetadata, bind_apply, getCache_apply, hv,
            ofResult_ok, if_neg hn, checkedAdd_eq_none hseen, okOr_none]
      · rw [h.seen] at hseen
        simp only [LayerModel.appendSliding, hc, ok_bind, throw_bind, if_pos hseen]
        rfl
    · rcases appendSlidingWithMetadata_spec shares (r := (key, value)) h.window with
        ⟨e, -, hno | ⟨hno, -⟩ | hno | hno⟩ | ⟨s', ha, hok⟩ | ⟨s', ha, hok⟩
      · exact absurd hr hno
      · cases hno
      · omega
      · exact absurd hno.1 (Nat.not_le.2 hids)
      · have h' := h.appended ha
        refine .inr ⟨_, s', m.joined (key, value), hok, ?_, h'⟩
        rw [h.seen] at hseen
        simp only [LayerModel.appendSliding, hc, ok_bind, throw_bind, if_neg hseen,
          if_pos (hroom.mp ha.1)]
        rw [h'.metadata, h.tokenCount]
        rfl
      · have h' := h.slid ha
        have hn : ¬ m.rows.length < m.maxTokens := by
          rw [← hroom, ha.1]
          omega
        refine .inr ⟨_, s', m.slid (key, value), hok, ?_, h'⟩
        rw [h.seen] at hseen
        simp only [LayerModel.appendSliding, hc, ok_bind, throw_bind, if_neg hseen, if_neg hn]
        rw [h'.metadata, h.maxTokens, h.start]
        rfl

theorem Refines.cleared (h : Refines K s.cache m) : Refines K (clear shares s).cache m.cleared :=
  ⟨h.window.clear, h.vqCopies.clear h.window, .clear, h.config, h.maxTokens, h.keyValueHeads,
    h.headDim, rfl, rfl, congrArg (satAdd · 1) h.revision⟩

/-- The step lemma: a cache answers what its model answers. -/
theorem Refines.act (h : Refines K c m) (p : Process) (op : LayerOp) :
    (c.act K p op).1 = (m.act op).1 ∧ Refines K (c.act K p op).2 (m.act op).2 := by
  cases op with
  | append key value => exact (h.appendWithMetadata (s := ⟨c, p.rt⟩) p.ids key value).act h
  | appendSliding key value =>
    exact (h.appendSlidingWithMetadata (s := ⟨c, p.rt⟩) p.ids key value).act h
  | clear => exact ⟨rfl, h.cleared (s := ⟨c, p.rt⟩)⟩
  | read =>
    exact ⟨rfl, h.window.readContiguous, h.vqCopies, h.runShape, h.config, h.maxTokens,
      h.keyValueHeads, h.headDim, h.start, h.seen, h.revision⟩

/-! ### Views -/

def rowView (c : LayerKvCache) : RowView where
  config := c.config
  maxTokens := c.maxTokens
  keyValueHeads := c.keyValueHeads
  headDim := c.headDim
  tokenCount := c.tokenCount
  nextPosition := c.nextPosition
  revision := c.revision
  keys := c.keys
  values := c.values
  key := c.key
  value := c.value
  activeKeys := (·.flatMap (·.keys)) <$> c.activeBlocks
  activeValues := (·.flatMap (·.values)) <$> c.activeBlocks
  activeRows := (·.flatMap logicalRows) <$> c.activeBlocks

def view (c : LayerKvCache) : LayerView where
  toRowView := c.rowView
  activeBlocks := (·.map (·.activeRows)) <$> c.activeBlocks
  activeInt8Blocks := (·.map (·.map (·.eraseId))) <$> c.activeInt8Blocks
  int8Storage := c.int8Storage
  quantizedValues := c.quantizedValues

/-- The rows that are read are the rows of the model. -/
theorem Refines.rowView (h : Refines K c m) : c.rowView = m.rowView := by
  obtain ⟨hkeys, hvalues, hkey, hvalue, bs, hbs, hk, hv, hrows, -⟩ := h.window.views
  have hkey' : c.key = fun i => m.rows[i]?.map (·.1) := funext hkey
  have hvalue' : c.value = fun i => m.rows[i]?.map (·.2) := funext hvalue
  simp only [LayerKvCache.rowView, LayerModel.rowView, hbs, hkeys, hvalues, hkey', hvalue',
    nextPosition, h.config, h.maxTokens, h.keyValueHeads, h.headDim, h.tokenCount, h.seen,
    h.revision]
  change RowView.mk _ _ _ _ _ _ _ _ _ _ _ (.ok _) (.ok _) (.ok _) = _
  dsimp only
  rw [hk, hv, hrows]

theorem Refines.slotRow_eq (h : Refines K c m) (h' : Refines K d m) {p : ℕ} (hp : p < c.tokenCount) :
    c.slotRow p = d.slotRow p := by
  obtain ⟨i, hi, rfl⟩ := h.window.exists_ringSlot hp
  have hi' : i < d.tokenCount := by rwa [h'.tokenCount, ← h.tokenCount]
  rw [h.window.slots i hi, h.start, h.maxTokens, ← h'.start, ← h'.maxTokens, h'.window.slots i hi']

/-- The rows a block has in use. -/
def usedRows (b : CacheBlock) : ℕ × List F32 × List F32 := (b.tokenCount, b.keys, b.values)

theorem BlockShape.used_rows {i : ℕ} {b : CacheBlock} (h : c.BlockShape i b)
    (hb : c.blocks[i]? = some b) :
    b.keys = (List.range b.tokenCount).flatMap (fun j =>
      ((c.slotRow (layerKvBlockTokens * i + j)).map (·.1)).getD []) ∧
    b.values = (List.range b.tokenCount).flatMap (fun j =>
      ((c.slotRow (layerKvBlockTokens * i + j)).map (·.2)).getD []) := by
  have hcount := h.tokenCount
  have hcap := h.capacityTokens
  have hle : (0 + b.tokenCount) * b.vectorLen ≤ b.capacityTokens * b.vectorLen :=
    Nat.mul_le_mul_right _ (by omega)
  have hslot : ∀ j, j < b.tokenCount → c.slotRow (layerKvBlockTokens * i + j) =
      some (row b.storage.val.keys b.vectorLen j, row b.storage.val.values b.vectorLen j) := by
    intro j hj
    have hdiv : (layerKvBlockTokens * i + j) / layerKvBlockTokens = i := by
      unfold layerKvBlockTokens at *
      omega
    have hmod : (layerKvBlockTokens * i + j) % layerKvBlockTokens = j := by
      unfold layerKvBlockTokens at *
      omega
    simp [slotRow, hdiv, hmod, hb, CacheBlock.key, CacheBlock.value, CacheBlock.tokenSlice,
      Nat.not_le.mpr hj]
  have hk := flatMap_row_range b.storage.val.keys b.vectorLen 0 b.tokenCount
    (by rw [h.keys_length]; exact hle)
  have hv := flatMap_row_range b.storage.val.values b.vectorLen 0 b.tokenCount
    (by rw [h.values_length]; exact hle)
  simp only [Nat.zero_mul, Nat.zero_add, slice, List.drop_zero, Nat.sub_zero] at hk hv
  constructor
  · rw [CacheBlock.keys, CacheBlock.usedLen, ← hk]
    refine List.flatMap_congr fun j hj => ?_
    rw [hslot j (List.mem_range.mp hj)]
    rfl
  · rw [CacheBlock.values, CacheBlock.usedLen, ← hv]
    refine List.flatMap_congr fun j hj => ?_
    rw [hslot j (List.mem_range.mp hj)]
    rfl

/-- The blocks of two caches with one model have the same rows in use. -/
theorem Refines.usedRows_eq (h : Refines K c m) (h' : Refines K d m) :
    c.blocks.map usedRows = d.blocks.map usedRows := by
  have hmax : c.maxTokens = d.maxTokens := by rw [h.maxTokens, h'.maxTokens]
  have hn : c.tokenCount = d.tokenCount := by rw [h.tokenCount, h'.tokenCount]
  have hlen : c.blocks.length = d.blocks.length := by
    rw [h.window.blocks_length, h'.window.blocks_length, hmax]
  refine List.ext_getElem (by rw [List.length_map, List.length_map, hlen]) fun i hi hi' => ?_
  rw [List.length_map] at hi hi'
  rw [List.getElem_map, List.getElem_map]
  have hb := List.getElem?_eq_getElem hi
  have hb' := List.getElem?_eq_getElem hi'
  have hs := h.window.block _ _ hb
  have hs' := h'.window.block _ _ hb'
  have hcount : c.blocks[i].tokenCount = d.blocks[i].tokenCount := by
    rw [hs.tokenCount, hs.capacityTokens, hs'.tokenCount, hs'.capacityTokens, hmax, hn]
  have hslots : ∀ j ∈ List.range c.blocks[i].tokenCount,
      c.slotRow (layerKvBlockTokens * i + j) = d.slotRow (layerKvBlockTokens * i + j) := by
    intro j hj
    rw [List.mem_range] at hj
    have := hs.tokenCount
    exact h.slotRow_eq h' (by omega)
  obtain ⟨hk, hv⟩ := hs.used_rows hb
  obtain ⟨hk', hv'⟩ := hs'.used_rows hb'
  rw [usedRows, usedRows, hk, hv, hk', hv', ← hcount]
  refine congrArg₂ (fun x y => (_, x, y)) ?_ ?_
  · exact List.flatMap_congr fun j hj => by rw [hslots j hj]
  · exact List.flatMap_congr fun j hj => by rw [hslots j hj]

/-! What is reported of a run depends on its slots and on the rows in use. -/

theorem map_eq_of_forall₂ {α β γ : Type} {R : α → β → Prop} {f : α → γ} {g : β → γ} {l : List α}
    {l' : List β} (h : List.Forall₂ R l l') (hfg : ∀ a ∈ l, ∀ b, R a b → g b = f a) :
    l'.map g = l.map f := by
  induction h with
  | nil => rfl
  | cons hab _ ih =>
    rw [List.map_cons, List.map_cons, hfg _ (List.mem_cons_self ..) _ hab,
      ih fun a ha => hfg a (List.mem_cons_of_mem _ ha)]

def reportOf (m : LayerModel) (run : LayerKvCacheBlockRun) : ActiveRows where
  logicalTokenStart := run.logicalTokenStart
  physicalTokenStart := run.physicalTokenStart
  blockTokenStart := run.blockTokenStart
  tokenCount := run.tokenCount
  vectorLen := m.vectorLen
  keys := run.rows.flatMap (fun ip => (m.rows[ip.1]?.map (·.1)).getD [])
  values := run.rows.flatMap (fun ip => (m.rows[ip.1]?.map (·.2)).getD [])

theorem Refines.activeBlocks (h : Refines K c m) : (·.map (·.activeRows)) <$> c.activeBlocks =
    .ok ((runsOf m.maxTokens m.start m.rows.length).map (reportOf m)) := by
  obtain ⟨bs, hbs, hrep⟩ := h.window.toLayout.activeBlocks
  have hruns := h.runShape
  rw [RunShape, h.maxTokens, h.start, h.tokenCount] at hruns
  rw [hbs, ← hruns, List.map_map]
  refine congrArg Except.ok (map_eq_of_forall₂ hrep fun run hrun b hb => ?_)
  obtain ⟨hk, hv⟩ := h.window.report_rows hrun hb
  rw [LayerKvCacheBlock.activeRows, hk, hv]
  obtain ⟨block, -, rfl⟩ := hb
  simp only [h.vectorLen]
  rfl

/-- The int8 report of a run over blocks with the rows `used`. -/
def int8ReportOf (K : QuantKernels) (m : LayerModel) (used : List (ℕ × List F32 × List F32))
    (run : LayerKvCacheBlockRun) : LayerKvCacheInt8Block :=
  let rows := (used[run.blockIndex]?).getD (0, [], [])
  let copy := int8BlockOf K rows.2.1 rows.2.2 m.vectorLen
  { blockId := 0, revision := 0
    logicalTokenStart := run.logicalTokenStart, physicalTokenStart := run.physicalTokenStart
    blockTokenStart := run.blockTokenStart, tokenCount := run.tokenCount
    vectorLen := m.vectorLen, keyCodes := copy.keyCodes, valueCodes := copy.valueCodes
    keyScales := copy.keyScales, valueScales := copy.valueScales }

theorem Refines.activeInt8Blocks (h : Refines K c m) :
    (·.map (·.map (·.eraseId))) <$> c.activeInt8Blocks =
      .ok (if m.config.format = .int8 then
        some ((runsOf m.maxTokens m.start m.rows.length).map
          (int8ReportOf K m (c.blocks.map usedRows))) else none) := by
  have hruns := h.runShape
  rw [RunShape, h.maxTokens, h.start, h.tokenCount] at hruns
  cases hst : c.int8Storage with
  | none =>
    have hno : ¬ m.config.format = .int8 := by
      rw [← h.config, ← h.window.int8_iff, hst]
      simp
    rw [if_neg hno]
    simp [LayerKvCache.activeInt8Blocks, hst]
  | some store =>
    have hyes : m.config.format = .int8 := by
      rw [← h.config, ← h.window.int8_iff, hst]
      rfl
    obtain ⟨bs, hbs, hrep⟩ := h.window.activeInt8BlocksOf hst c.activeBlockRuns fun _ hr => hr
    have hact : c.activeInt8Blocks = .ok (some bs) := by
      simp [LayerKvCache.activeInt8Blocks, hst, hbs]
    rw [if_pos hyes, hact, ← hruns, List.map_map]
    refine congrArg (fun l => Except.ok (some l)) (map_eq_of_forall₂ hrep fun run hrun b hb => ?_)
    obtain ⟨block, hblock, rfl⟩ := hb
    simp only [Function.comp_apply, int8ReportOf, eraseId, List.getElem?_map, hblock,
      Option.map_some, Option.getD_some, usedRows, LayerKvCacheInt8Block.eraseId, h.vectorLen]

theorem Refines.int8Storage (h : Refines K c m) : c.int8Storage =
    if m.config.format = .int8 then some {
      vectorLen := m.vectorLen
      blocks := (c.blocks.map usedRows).map fun u =>
        if u.1 = 0 then none else some (int8BlockOf K u.2.1 u.2.2 m.vectorLen) } else none := by
  cases hst : c.int8Storage with
  | none =>
    have hno : ¬ m.config.format = .int8 := by
      rw [← h.config, ← h.window.int8_iff, hst]
      simp
    rw [if_neg hno]
  | some store =>
    have hyes : m.config.format = .int8 := by
      rw [← h.config, ← h.window.int8_iff, hst]
      rfl
    obtain ⟨hv, hb⟩ := h.window.int8 store hst
    rw [if_pos hyes, List.map_map, ← h.vectorLen]
    cases store
    dsimp only at hv hb
    rw [hv, hb]
    rfl

theorem Refines.quantizedValues (h : Refines K c m) : c.quantizedValues =
    m.config.asymmetricVq.map fun config => {
      config := config, vectorLen := m.vectorLen
      blocks := (c.blocks.map usedRows).map fun u =>
        if u.1 = 0 then none else vqBlockOf K config.valueBits u.2.2 m.vectorLen } := by
  cases hst : c.quantizedValues with
  | none =>
    have hno : m.config.asymmetricVq = none := by
      rw [← h.config, ← Option.not_isSome_iff_eq_none, ← h.window.vq_iff, hst]
      simp
    rw [hno]
    rfl
  | some store =>
    obtain ⟨hcfg, hb⟩ := h.vqCopies store hst
    have hv := (h.window.vq store hst).1
    rw [← h.config, hcfg, Option.map_some, List.map_map, ← h.vectorLen]
    cases store
    dsimp only at hv hb
    rw [hv, hb]
    rfl

/-- **Caches with one model read alike.** -/
theorem Refines.view_eq (h : Refines K c m) (h' : Refines K d m) : c.view = d.view := by
  simp only [view, h.rowView, h'.rowView, h.activeBlocks, h'.activeBlocks, h.activeInt8Blocks,
    h'.activeInt8Blocks, h.int8Storage, h'.int8Storage, h.quantizedValues, h'.quantizedValues,
    h.usedRows_eq h']

/-! ### Runs -/

/-- What a list of calls is answered, and what is read after each. -/
def trace (K : QuantKernels) : LayerKvCache → List (LayerOp × Process) →
    List (LayerAnswer × LayerView)
  | _, [] => []
  | c, (op, p) :: steps =>
    ((c.act K p op).1, (c.act K p op).2.view) :: trace K (c.act K p op).2 steps

/-- The same calls, answered by two caches in processes of their own. -/
theorem Refines.trace_eq {c d : LayerKvCache} {m : LayerModel} (h : Refines K c m)
    (h' : Refines K d m) : ∀ steps : List (LayerOp × Process × Process),
      c.trace K (steps.map fun x => (x.1, x.2.1)) = d.trace K (steps.map fun x => (x.1, x.2.2))
  | [] => rfl
  | (op, p, q) :: steps => by
    obtain ⟨ha, hc⟩ := h.act p op
    obtain ⟨ha', hd⟩ := h'.act q op
    simp only [List.map_cons, trace, ha, ha', hc.view_eq hd, hc.trace_eq hd steps]

/-- What is seen of a step when slots are not looked at. -/
def rowsSeen (x : LayerAnswer × LayerView) : LayerAnswer × RowView :=
  (x.1.map (·.map LayerModel.withoutSlot), x.2.toRowView)

/-- **Two layouts of one window.** The same calls, answered by two caches that
hold the same rows in different slots. -/
theorem Refines.trace_rows_eq {c d : LayerKvCache} {m m' : LayerModel} (h : Refines K c m)
    (h' : Refines K d m') (hm : m.unwrapped = m'.unwrapped) :
    ∀ steps : List (LayerOp × Process × Process),
      (c.trace K (steps.map fun x => (x.1, x.2.1))).map rowsSeen =
        (d.trace K (steps.map fun x => (x.1, x.2.2))).map rowsSeen
  | [] => rfl
  | (op, p, q) :: steps => by
    obtain ⟨ha, hc⟩ := h.act p op
    obtain ⟨ha', hd⟩ := h'.act q op
    obtain ⟨h1, h2⟩ := m.act_unwrapped op
    obtain ⟨h1', h2'⟩ := m'.act_unwrapped op
    have hans := h1.trans ((congrArg _ (by rw [hm])).trans h1'.symm)
    have hnext := h2.trans ((congrArg _ (by rw [hm])).trans h2'.symm)
    have hrows := congrArg LayerModel.rowView hnext
    change (m.act op).2.rowView = (m'.act op).2.rowView at hrows
    simp only [List.map_cons, trace, ha, ha', rowsSeen, view, hc.rowView, hd.rowView, hans, hrows]
    rw [← Refines.trace_rows_eq hc hd hnext steps]

end LayerKvCache
end KirAi.KvCache
