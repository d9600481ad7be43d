/-
# The KV cache of one layer

`layer.rs`: a window of at most `max_tokens` rows of keys and values, in three
representations at once. The rows are in blocks of 256 (slot `p` is row
`p % 256` of block `p / 256`), again in a staged ring (slot `p` is row `p`),
and a list of runs says which slots hold which logical rows. Once the window is
full a sliding append overwrites the oldest slot and moves `window_start`.

The operations run in `LayerM`, where an error keeps what was done before it.
The staged rings are copy-on-write allocations that nothing identifies, so they
are their values.

Key definitions: `LayerKvCache.appendWithMetadata`,
`LayerKvCache.appendSlidingWithMetadata`, `LayerKvCache.clear`,
`LayerKvCache.keys`, `LayerKvCache.key`, `LayerKvCache.activeBlocks`,
`LayerKvCache.prefixCacheState`, `LayerKvCache.fromPrefixCacheState`.
-/
import KirAi.KvCache.Block
import KirAi.KvCache.BlockTable
import KirAi.KvCache.Format

namespace KirAi.KvCache

open Lib

def layerKvBlockTokens : ℕ := 256

/-- Logical rows `logical_token_start ..` are slots `physical_token_start ..`,
rows `block_token_start ..` of one block. -/
structure LayerKvCacheBlockRun where
  blockIndex : ℕ
  blockId : BlockId
  logicalTokenStart : ℕ
  physicalTokenStart : ℕ
  blockTokenStart : ℕ
  tokenCount : ℕ
deriving DecidableEq, Repr

def LayerKvCacheBlockRun.canExtend (run : LayerKvCacheBlockRun) (blockIndex : ℕ) (blockId : BlockId)
    (logicalTokenIndex physicalTokenIndex blockTokenStart : ℕ) : Bool :=
  run.blockIndex = blockIndex && run.blockId = blockId &&
    checkedAdd run.logicalTokenStart run.tokenCount = some logicalTokenIndex &&
    checkedAdd run.physicalTokenStart run.tokenCount = some physicalTokenIndex &&
    checkedAdd run.blockTokenStart run.tokenCount = some blockTokenStart

structure LayerKvCache where
  id : ℕ
  revision : ℕ
  config : KvCacheConfig
  maxTokens : ℕ
  keyValueHeads : ℕ
  headDim : ℕ
  tokenCount : ℕ
  tokensSeen : ℕ
  windowStart : ℕ
  blockTable : BlockTable
  blocks : List CacheBlock
  activeBlockRuns : List LayerKvCacheBlockRun
  keyStage : List F32
  valueStage : List F32
  /-- The views of a wrapped window, made when first read. -/
  keyContiguousView : Option (List F32)
  valueContiguousView : Option (List F32)
  int8Storage : Option LayerInt8KvStore
  quantizedValues : Option LayerQuantizedValueStore
deriving DecidableEq, Repr

structure LayerKvCacheAppend where
  tokenIndex : ℕ
  physicalTokenIndex : ℕ
  tokenCount : ℕ
  tokensSeen : ℕ
  revision : ℕ
deriving DecidableEq, Repr

structure LayerKvCacheAppendTarget where
  tokenIndex : ℕ
  physicalTokenIndex : ℕ
  previousTokenCount : ℕ
deriving DecidableEq, Repr

/-- What `active_blocks` says of a run: where it lies, and the whole storage of
its block. -/
structure LayerKvCacheBlock where
  blockId : BlockId
  revision : ℕ
  logicalTokenStart : ℕ
  physicalTokenStart : ℕ
  blockTokenStart : ℕ
  tokenCount : ℕ
  vectorLen : ℕ
  keyStorage : List F32
  valueStorage : List F32
deriving DecidableEq, Repr

namespace LayerKvCacheBlock

def rowSlice (b : LayerKvCacheBlock) (storage : List F32) : List F32 :=
  slice storage (b.blockTokenStart * b.vectorLen)
    (b.blockTokenStart * b.vectorLen + b.tokenCount * b.vectorLen)

def keys (b : LayerKvCacheBlock) : List F32 := b.rowSlice b.keyStorage

def values (b : LayerKvCacheBlock) : List F32 := b.rowSlice b.valueStorage

end LayerKvCacheBlock

structure LayerKvCacheInt8Block where
  blockId : BlockId
  revision : ℕ
  logicalTokenStart : ℕ
  physicalTokenStart : ℕ
  blockTokenStart : ℕ
  tokenCount : ℕ
  vectorLen : ℕ
  keyCodes : List (BitVec 8)
  valueCodes : List (BitVec 8)
  keyScales : List F32
  valueScales : List F32
deriving DecidableEq, Repr

/-- A cache and the process counters. -/
structure LayerState where
  cache : LayerKvCache
  rt : Statics

abbrev LayerM := EStateM KvCacheError LayerState

namespace LayerM

def okOr {α : Type} : Option α → LayerM α
  | some a => pure a
  | none => throw .invalidShape

def ofResult {α : Type} : Except KvCacheError α → LayerM α
  | .ok a => pure a
  | .error e => throw e

def getCache : LayerM LayerKvCache := do return (← get).cache

def modifyCache (f : LayerKvCache → LayerKvCache) : LayerM Unit :=
  modify fun s => { s with cache := f s.cache }

/-! A run of a `do` block, step by step. -/

variable {α β : Type} (s : LayerState)

@[simp] theorem bind_apply (x : LayerM α) (f : α → LayerM β) :
    (x >>= f) s = match x s with
      | .ok a s => f a s
      | .error e s => .error e s := by
  change EStateM.bind x f s = _
  unfold EStateM.bind
  cases x s <;> rfl

/-- A sequence that succeeds. -/
theorem bind_apply_eq_ok {x : LayerM α} {f : α → LayerM β} {s s' : LayerState} {b : β} :
    (x >>= f) s = .ok b s' ↔ ∃ a s₁, x s = .ok a s₁ ∧ f a s₁ = .ok b s' := by
  rw [bind_apply]
  cases x s <;> simp

@[simp] theorem map_apply (g : α → β) (x : LayerM α) :
    (g <$> x) s = match x s with
      | .ok a s => .ok (g a) s
      | .error e s => .error e s := by
  change EStateM.map g x s = _
  unfold EStateM.map
  cases x s <;> rfl

@[simp] theorem pure_apply (a : α) : (pure a : LayerM α) s = .ok a s := rfl

@[simp] theorem throw_apply (e : KvCacheError) : (throw e : LayerM α) s = .error e s := rfl

@[simp] theorem get_apply : (get : LayerM LayerState) s = .ok s s := rfl

@[simp] theorem set_apply (s' : LayerState) : (set s' : LayerM PUnit) s = .ok () s' := rfl

@[simp] theorem getCache_apply : getCache s = .ok s.cache s := rfl

@[simp] theorem modifyCache_apply (f : LayerKvCache → LayerKvCache) :
    modifyCache f s = .ok () { s with cache := f s.cache } := rfl

@[simp] theorem okOr_some (a : α) : okOr (some a) s = .ok a s := rfl

@[simp] theorem okOr_none : okOr (none : Option α) s = .error .invalidShape s := rfl

@[simp] theorem ofResult_ok (a : α) : ofResult (.ok a) s = .ok a s := rfl

@[simp] theorem ofResult_error (e : KvCacheError) :
    ofResult (.error e : Except KvCacheError α) s = .error e s := rfl

end LayerM

namespace LayerKvCache

open LayerM

variable (K : QuantKernels) (shares : Shares)

def vectorLen (c : LayerKvCache) : ℕ := c.keyValueHeads * c.headDim

def usedLen (c : LayerKvCache) : ℕ := c.tokenCount * c.vectorLen

def nextPosition (c : LayerKvCache) : ℕ := c.tokensSeen

/-! ### Construction -/

/-- The loop of `new_with_config`: blocks of 256 tokens, the last one smaller.
Every round takes tokens off `remaining`, so `remaining` rounds are enough. -/
def newBlocks (vectorLen : ℕ) : ℕ → ℕ → Statics → Except KvCacheError (List CacheBlock × Statics)
  | 0, _, rt => pure ([], rt)
  | fuel + 1, remaining, rt =>
    if remaining = 0 then pure ([], rt)
    else do
      let capacityTokens := min remaining layerKvBlockTokens
      let (block, rt) ← CacheBlock.new capacityTokens vectorLen rt
      let (rest, rt) ← newBlocks vectorLen fuel (remaining - capacityTokens) rt
      pure (block :: rest, rt)

/-- The table built along with the blocks. -/
def newTable : List CacheBlock → BlockTable → Except KvCacheError BlockTable
  | [], t => pure t
  | b :: bs, t => do newTable bs (← t.append b.id)

/-- `div_ceil` -/
def blockCount (maxTokens : ℕ) : ℕ := (maxTokens + (layerKvBlockTokens - 1)) / layerKvBlockTokens

/-- The compressed copies a format asks for. -/
def newInt8Storage (config : KvCacheConfig) (maxTokens vectorLen : ℕ) :
    Except KvCacheError (Option LayerInt8KvStore) :=
  if config.format = .int8 then some <$> LayerInt8KvStore.new (blockCount maxTokens) vectorLen
  else pure none

def newQuantizedValues (config : KvCacheConfig) (maxTokens vectorLen : ℕ) :
    Except KvCacheError (Option LayerQuantizedValueStore) :=
  match config.asymmetricVq with
  | some phase3 => some <$> LayerQuantizedValueStore.new (blockCount maxTokens) vectorLen phase3
  | none => pure none

/-- The staged rings are vectors of `max_tokens * vector_len` values: like a
block's storage, one that the allocator refuses is answered with an error. -/
def newWithConfig (maxTokens keyValueHeads headDim : ℕ) (config : KvCacheConfig) (rt : Statics) :
    Except KvCacheError (LayerKvCache × Statics) := do
  if maxTokens = 0 ∨ keyValueHeads = 0 ∨ headDim = 0 then throw .invalidShape
  if config.format = .f16 then throw (.unsupportedFormat config.format)
  let some vectorLen := checkedMul keyValueHeads headDim | throw .invalidShape
  let some storageLen := checkedMul maxTokens vectorLen | throw .invalidShape
  let (blocks, rt) ← newBlocks vectorLen maxTokens maxTokens rt
  let blockTable ← newTable blocks .new
  let int8Storage ← newInt8Storage config maxTokens vectorLen
  let quantizedValues ← newQuantizedValues config maxTokens vectorLen
  if storageLen > vecF32Max then throw .invalidShape
  let (id, rt) := nextCacheId rt
  pure ({
    id, revision := 0, config, maxTokens, keyValueHeads, headDim, tokenCount := 0, tokensSeen := 0,
    windowStart := 0, blockTable, blocks, activeBlockRuns := []
    keyStage := List.replicate storageLen F32.zero
    valueStage := List.replicate storageLen F32.zero
    keyContiguousView := none, valueContiguousView := none, int8Storage, quantizedValues }, rt)

/-- `Clone`: a fresh cache id, blocks that know they are shared, no views. -/
def clone (c : LayerKvCache) (rt : Statics) : LayerKvCache × Statics :=
  let (id, rt) := nextCacheId rt
  ({ c with
    id, blocks := c.blocks.map CacheBlock.clone
    keyContiguousView := none, valueContiguousView := none }, rt)

/-! ### Positions and runs -/

def physicalBlockPosition (c : LayerKvCache) (tokenIndex : ℕ) : Option (ℕ × ℕ) :=
  if tokenIndex ≥ c.maxTokens then none
  else some (tokenIndex / layerKvBlockTokens, tokenIndex % layerKvBlockTokens)

def blockPosition (c : LayerKvCache) (tokenIndex : ℕ) : Option (ℕ × ℕ) :=
  if tokenIndex ≥ c.tokenCount then none
  else c.physicalBlockPosition ((c.windowStart + tokenIndex) % c.maxTokens)

/-- The block at `blockIndex`, when the table agrees on its id. -/
def listedBlock (c : LayerKvCache) (blockIndex : ℕ) : Option CacheBlock :=
  match c.blockTable.get blockIndex, c.blocks[blockIndex]? with
  | some blockId, some block => if block.id = blockId then some block else none
  | _, _ => none

/-- The runs with one more row, joined to the last run where it continues it. -/
def extendRuns (runs : List LayerKvCacheBlockRun) (run : LayerKvCacheBlockRun) :
    List LayerKvCacheBlockRun :=
  match runs.getLast? with
  | some previous =>
    if previous.canExtend run.blockIndex run.blockId run.logicalTokenStart run.physicalTokenStart
        run.blockTokenStart then
      runs.dropLast ++ [{ previous with tokenCount := previous.tokenCount + 1 }]
    else runs ++ [run]
  | none => runs ++ [run]

def appendActiveBlockRun (logicalTokenIndex physicalTokenIndex : ℕ) : LayerM Unit := do
  let c ← getCache
  let (blockIndex, blockTokenStart) ← okOr (c.physicalBlockPosition physicalTokenIndex)
  let block ← okOr (c.listedBlock blockIndex)
  modifyCache fun c => { c with
    activeBlockRuns := extendRuns c.activeBlockRuns {
      blockIndex, blockId := block.id, logicalTokenStart := logicalTokenIndex
      physicalTokenStart := physicalTokenIndex, blockTokenStart, tokenCount := 1 } }

def removeOldestActiveBlockToken : LayerM Unit := do
  let setRuns := fun runs => modifyCache fun c => { c with activeBlockRuns := runs }
  match (← getCache).activeBlockRuns with
  | [] => throw .invalidShape
  | first :: rest => do
    if first.tokenCount = 1 then setRuns rest
    else do
      let physicalTokenStart ← okOr (checkedAdd first.physicalTokenStart 1)
      setRuns ({ first with physicalTokenStart } :: rest)
      let blockTokenStart ← okOr (checkedAdd first.blockTokenStart 1)
      setRuns ({ first with
        physicalTokenStart, blockTokenStart, tokenCount := first.tokenCount - 1 } :: rest)
    modifyCache fun c => { c with
      activeBlockRuns := c.activeBlockRuns.map fun run =>
        { run with logicalTokenStart := run.logicalTokenStart - 1 } }

def refreshActiveBlockRunIds (blockIndex : ℕ) (blockId : BlockId)
    (runs : List LayerKvCacheBlockRun) : List LayerKvCacheBlockRun :=
  runs.map fun run => if run.blockIndex = blockIndex then { run with blockId } else run

/-! ### Writing a row -/

/-- The first half of `append_block_token` and of `write_block_token`: finds the
block of a slot and gives it an identity of its own; answers the block's index
and the row in it. -/
def writableBlock (tokenIndex : ℕ) : LayerM (ℕ × ℕ) := do
  let c ← getCache
  let (blockIndex, blockTokenIndex) ← okOr (c.physicalBlockPosition tokenIndex)
  let block ← okOr (c.listedBlock blockIndex)
  let (block', rt) ← ofResult (block.ensureExclusiveIdentity shares (← get).rt)
  set ({ cache := { c with blocks := c.blocks.set blockIndex block' }, rt } : LayerState)
  if block'.id ≠ block.id then do
    let (_, blockTable) ← ofResult (c.blockTable.replace blockIndex block'.id)
    modifyCache fun c => { c with
      blockTable
      activeBlockRuns := refreshActiveBlockRunIds blockIndex block'.id c.activeBlockRuns }
  pure (blockIndex, blockTokenIndex)

def refreshInt8Block (blockIndex : ℕ) : LayerM Unit := do
  let c ← getCache
  match c.int8Storage with
  | none => pure ()
  | some store => do
    let block ← okOr c.blocks[blockIndex]?
    if block.tokenCount = 0 then pure ()
    else do
      let store ← ofResult (store.updateBlock K blockIndex block.keys block.values)
      modifyCache fun c => { c with int8Storage := some store }

def refreshQuantizedBlock (blockIndex : ℕ) : LayerM Unit := do
  let c ← getCache
  match c.quantizedValues with
  | none => pure ()
  | some store => do
    let block ← okOr c.blocks[blockIndex]?
    if block.tokenCount = 0 then pure ()
    else do
      let store ← ofResult (store.updateBlock K blockIndex block.values)
      modifyCache fun c => { c with quantizedValues := some store }

def appendBlockToken (tokenIndex : ℕ) (key value : List F32) : LayerM Unit := do
  let (blockIndex, expectedBlockTokenIndex) ← writableBlock shares tokenIndex
  let c ← getCache
  let block ← okOr c.blocks[blockIndex]?
  let (blockTokenIndex, block, rt) ← ofResult (block.append shares key value (← get).rt)
  set ({ cache := { c with blocks := c.blocks.set blockIndex block }, rt } : LayerState)
  if blockTokenIndex ≠ expectedBlockTokenIndex then throw .invalidShape
  refreshInt8Block K blockIndex
  refreshQuantizedBlock K blockIndex

def writeBlockToken (tokenIndex : ℕ) (key value : List F32) : LayerM Unit := do
  let (blockIndex, blockTokenIndex) ← writableBlock shares tokenIndex
  let c ← getCache
  let block ← okOr c.blocks[blockIndex]?
  let (block, rt) ← ofResult (block.writeAt shares blockTokenIndex key value (← get).rt)
  set ({ cache := { c with blocks := c.blocks.set blockIndex block }, rt } : LayerState)
  refreshInt8Block K blockIndex
  refreshQuantizedBlock K blockIndex

def copyStageToken (tokenIndex : ℕ) (key value : List F32) : LayerM Unit := do
  let c ← getCache
  if key.length ≠ c.vectorLen then throw (.shapeMismatch c.vectorLen key.length)
  if value.length ≠ c.vectorLen then throw (.shapeMismatch c.vectorLen value.length)
  let start ← okOr (checkedMul tokenIndex c.vectorLen)
  let stop ← okOr (checkedAdd start c.vectorLen)
  if stop > c.keyStage.length then throw .invalidShape
  modifyCache fun c => { c with keyStage := splice c.keyStage start key }
  if stop > c.valueStage.length then throw .invalidShape
  modifyCache fun c => { c with valueStage := splice c.valueStage start value }

def invalidateContiguousStageViews (c : LayerKvCache) : LayerKvCache :=
  { c with keyContiguousView := none, valueContiguousView := none }

def writeStageToken (tokenIndex : ℕ) (key value : List F32) : LayerM Unit := do
  copyStageToken tokenIndex key value
  modifyCache invalidateContiguousStageViews

/-! ### Appending -/

def validateTokenShape (c : LayerKvCache) (key value : List F32) : Except KvCacheError Unit := do
  if key.length ≠ c.vectorLen then throw (.shapeMismatch c.vectorLen key.length)
  if value.length ≠ c.vectorLen then throw (.shapeMismatch c.vectorLen value.length)

def validateCompressedTokenPayload (c : LayerKvCache) (key value : List F32) :
    Except KvCacheError Unit := do
  if c.quantizedValues.isNone ∧ c.int8Storage.isNone then return ()
  if (key ++ value).any (!·.isFinite) then throw .nonFiniteValue

def validateSlidingAppend (c : LayerKvCache) (key value : List F32) : Except KvCacheError Unit := do
  c.validateTokenShape key value
  c.validateCompressedTokenPayload key value

def slidingAppendTarget (c : LayerKvCache) : Except KvCacheError LayerKvCacheAppendTarget := do
  let (tokenIndex, physicalTokenIndex) := if c.tokenCount < c.maxTokens then
    (c.tokenCount, c.tokenCount) else (c.maxTokens - 1, c.windowStart)
  if physicalTokenIndex ≥ c.maxTokens then throw .invalidShape
  pure { tokenIndex, physicalTokenIndex, previousTokenCount := c.tokenCount }

def int8DirectAppendToken (c : LayerKvCache) (key value : List F32) :
    Except KvCacheError (Option LayerInt8KvToken) := do
  if c.config.format ≠ .int8 then return none
  c.validateSlidingAppend key value
  some <$> LayerInt8KvToken.quantize K key value c.vectorLen

def appendAtEndValidated (key value : List F32) : LayerM LayerKvCacheAppend := do
  let c ← getCache
  if c.tokenCount = c.maxTokens then throw (.capacityExceeded 1 0)
  let tokensSeen ← okOr (checkedAdd c.tokensSeen 1)
  let tokenIndex := c.tokenCount
  let physicalTokenIndex := tokenIndex
  appendBlockToken K shares tokenIndex key value
  writeStageToken tokenIndex key value
  appendActiveBlockRun tokenIndex physicalTokenIndex
  modifyCache fun c => { c with
    tokenCount := c.tokenCount + 1, tokensSeen, revision := satAdd c.revision 1 }
  let c ← getCache
  pure {
    tokenIndex, physicalTokenIndex, tokenCount := c.tokenCount, tokensSeen := c.tokensSeen
    revision := c.revision }

def appendWithMetadata (key value : List F32) : LayerM LayerKvCacheAppend := do
  let c ← getCache
  ofResult (c.validateTokenShape key value)
  ofResult (c.validateCompressedTokenPayload key value)
  if c.tokenCount = c.maxTokens then throw (.capacityExceeded 1 0)
  appendAtEndValidated K shares key value

def appendSlidingWithMetadata (key value : List F32) : LayerM LayerKvCacheAppend := do
  let c ← getCache
  ofResult (c.validateSlidingAppend key value)
  if c.tokenCount < c.maxTokens then appendAtEndValidated K shares key value
  else do
    let tokensSeen ← okOr (checkedAdd c.tokensSeen 1)
    let physicalTokenIndex := c.windowStart
    let tokenIndex := c.maxTokens - 1
    writeBlockToken K shares physicalTokenIndex key value
    writeStageToken physicalTokenIndex key value
    removeOldestActiveBlockToken
    appendActiveBlockRun tokenIndex physicalTokenIndex
    modifyCache fun c => { c with
      windowStart := (c.windowStart + 1) % c.maxTokens, tokensSeen
      revision := satAdd c.revision 1 }
    let c ← getCache
    pure {
      tokenIndex, physicalTokenIndex, tokenCount := c.tokenCount, tokensSeen := c.tokensSeen
      revision := c.revision }

/-! ### Clearing -/

/-- The loop of `clear` over the blocks. -/
def clearBlocks : List CacheBlock → Statics → List CacheBlock × Statics
  | [], rt => ([], rt)
  | b :: bs, rt =>
    let (b, rt) := b.clear shares rt
    let (bs, rt) := clearBlocks bs rt
    (b :: bs, rt)

/-- Zeroed in place or replaced: the rings keep their length. -/
def clearStageStorage (c : LayerKvCache) : LayerKvCache :=
  { c with
    keyStage := List.replicate c.keyStage.length F32.zero
    valueStage := List.replicate c.valueStage.length F32.zero }.invalidateContiguousStageViews

def clear (s : LayerState) : LayerState :=
  let (blocks, rt) := clearBlocks shares s.cache.blocks s.rt
  let c := { s.cache with
    tokenCount := 0, tokensSeen := 0, windowStart := 0, blocks
    quantizedValues := s.cache.quantizedValues.map LayerQuantizedValueStore.clear
    int8Storage := s.cache.int8Storage.map LayerInt8KvStore.clear
    activeBlockRuns := [] }
  { cache := { c.clearStageStorage with revision := satAdd c.revision 1 }, rt }

/-! ### Reading -/

def key (c : LayerKvCache) (tokenIndex : ℕ) : Option (List F32) := do
  let (blockIndex, blockTokenIndex) ← c.blockPosition tokenIndex
  (← c.listedBlock blockIndex).key blockTokenIndex

def value (c : LayerKvCache) (tokenIndex : ℕ) : Option (List F32) := do
  let (blockIndex, blockTokenIndex) ← c.blockPosition tokenIndex
  (← c.listedBlock blockIndex).value blockTokenIndex

/-- The loop of `active_blocks`. -/
def activeBlocksOf (c : LayerKvCache) : List LayerKvCacheBlockRun →
    Except KvCacheError (List LayerKvCacheBlock)
  | [] => pure []
  | run :: runs => do
    let some block := c.listedBlock run.blockIndex | throw .invalidShape
    if block.id ≠ run.blockId then throw .invalidShape
    let rest ← c.activeBlocksOf runs
    pure ({
      blockId := block.id, revision := block.revision
      logicalTokenStart := run.logicalTokenStart, physicalTokenStart := run.physicalTokenStart
      blockTokenStart := run.blockTokenStart, tokenCount := run.tokenCount
      vectorLen := c.vectorLen, keyStorage := block.storage.val.keys
      valueStorage := block.storage.val.values } :: rest)

def activeBlocks (c : LayerKvCache) : Except KvCacheError (List LayerKvCacheBlock) :=
  c.activeBlocksOf c.activeBlockRuns

/-- The loop of `active_int8_blocks`. -/
def activeInt8BlocksOf (c : LayerKvCache) (store : LayerInt8KvStore) :
    List LayerKvCacheBlockRun → Except KvCacheError (List LayerKvCacheInt8Block)
  | [] => pure []
  | run :: runs => do
    let some block := c.listedBlock run.blockIndex | throw .invalidShape
    if block.id ≠ run.blockId then throw .invalidShape
    let int8Block ← store.block run.blockIndex
    let rest ← c.activeInt8BlocksOf store runs
    pure ({
      blockId := block.id, revision := block.revision
      logicalTokenStart := run.logicalTokenStart, physicalTokenStart := run.physicalTokenStart
      blockTokenStart := run.blockTokenStart, tokenCount := run.tokenCount
      vectorLen := c.vectorLen, keyCodes := int8Block.keyCodes, valueCodes := int8Block.valueCodes
      keyScales := int8Block.keyScales, valueScales := int8Block.valueScales } :: rest)

def activeInt8Blocks (c : LayerKvCache) : Except KvCacheError (Option (List LayerKvCacheInt8Block)) :=
  match c.int8Storage with
  | none => pure none
  | some store => some <$> c.activeInt8BlocksOf store c.activeBlockRuns

/-- The window read off a ring: directly when it does not wrap, else through
the view, which is made when there is none. The second component is the view
afterwards. -/
def contiguousStageView (c : LayerKvCache) (storage : List F32) (view : Option (List F32)) :
    List F32 × Option (List F32) :=
  let firstTokenCount := c.maxTokens - c.windowStart
  let start := c.windowStart * c.vectorLen
  if c.tokenCount ≤ firstTokenCount then (slice storage start (start + c.usedLen), view)
  else match view with
    | some v => (v, some v)
    | none =>
      let firstLen := firstTokenCount * c.vectorLen
      let v := slice storage start (start + firstLen) ++ slice storage 0 (c.usedLen - firstLen)
      (v, some v)

def keys (c : LayerKvCache) : List F32 := (c.contiguousStageView c.keyStage c.keyContiguousView).1

def values (c : LayerKvCache) : List F32 :=
  (c.contiguousStageView c.valueStage c.valueContiguousView).1

/-- The cache after `keys()` and `values()` have been read. -/
def readContiguous (c : LayerKvCache) : LayerKvCache :=
  { c with
    keyContiguousView := (c.contiguousStageView c.keyStage c.keyContiguousView).2
    valueContiguousView := (c.contiguousStageView c.valueStage c.valueContiguousView).2 }

end LayerKvCache

/-! ### Prefix states -/

structure LayerKvCachePrefixBlock where
  blockIndex : ℕ
  retained : RetainedCacheBlock
deriving DecidableEq, Repr

/-- What a prefix cache keeps of a layer: the blocks in use, by handle. -/
structure LayerKvCachePrefixState where
  revision : ℕ
  config : KvCacheConfig
  maxTokens : ℕ
  keyValueHeads : ℕ
  headDim : ℕ
  tokenCount : ℕ
  tokensSeen : ℕ
  windowStart : ℕ
  blocks : List LayerKvCachePrefixBlock
deriving DecidableEq, Repr

/-- An owned copy of a layer's rows. -/
structure LayerKvCacheSnapshot where
  revision : ℕ
  config : KvCacheConfig
  maxTokens : ℕ
  keyValueHeads : ℕ
  headDim : ℕ
  tokenCount : ℕ
  tokensSeen : ℕ
  keys : List F32
  values : List F32
deriving DecidableEq, Repr

namespace LayerKvCache

open LayerM

variable (K : QuantKernels)

/-- The loop of `prefix_cache_state`: one entry for each block in use, in the
order of the runs. -/
def prefixBlocksOf (c : LayerKvCache) : List LayerKvCacheBlockRun → List BlockId →
    List LayerKvCachePrefixBlock
  | [], _ => []
  | run :: runs, seen =>
    match c.blockTable.get run.blockIndex with
    | none => c.prefixBlocksOf runs seen
    | some blockId =>
      if blockId ≠ run.blockId ∨ blockId ∈ seen then c.prefixBlocksOf runs seen
      else match c.blocks[run.blockIndex]? with
        | none => c.prefixBlocksOf runs (blockId :: seen)
        | some block =>
          if block.id ≠ blockId then c.prefixBlocksOf runs (blockId :: seen)
          else ⟨run.blockIndex, block.retainStorage⟩ :: c.prefixBlocksOf runs (blockId :: seen)

def prefixCacheState (c : LayerKvCache) : LayerKvCachePrefixState where
  revision := c.revision
  config := c.config
  maxTokens := c.maxTokens
  keyValueHeads := c.keyValueHeads
  headDim := c.headDim
  tokenCount := c.tokenCount
  tokensSeen := c.tokensSeen
  windowStart := c.windowStart
  blocks := c.prefixBlocksOf c.activeBlockRuns []

/-- The loop of `from_prefix_cache_state` that puts the retained blocks in
their places. -/
def restoreBlocks : List LayerKvCachePrefixBlock → LayerKvCache → Except KvCacheError LayerKvCache
  | [], c => pure c
  | pb :: pbs, c => do
    let block ← CacheBlock.fromRetained pb.retained
    let some old := c.blocks[pb.blockIndex]? | throw .invalidShape
    if block.vectorLen ≠ c.vectorLen ∨ block.capacityTokens ≠ old.capacityTokens then
      throw .invalidShape
    let (_, blockTable) ← c.blockTable.replace pb.blockIndex block.id
    restoreBlocks pbs { c with blockTable, blocks := c.blocks.set pb.blockIndex block }

/-- The loop of `rebuild_active_block_runs_from_tokens`. -/
def appendRuns : List ℕ → LayerM Unit
  | [] => pure ()
  | i :: is => do
    let c ← getCache
    appendActiveBlockRun i ((c.windowStart + i) % c.maxTokens)
    appendRuns is

def rebuildActiveBlockRunsFromTokens : LayerM Unit := do
  modifyCache fun c => { c with activeBlockRuns := [] }
  appendRuns (List.range (← getCache).tokenCount)

/-- The loop of `rebuild_stage_from_blocks`. -/
def copyRowsToStage : List ℕ → LayerM Unit
  | [] => pure ()
  | i :: is => do
    let c ← getCache
    let physicalTokenIndex := (c.windowStart + i) % c.maxTokens
    let block ← okOr c.blocks[physicalTokenIndex / layerKvBlockTokens]?
    let key ← okOr (block.key (physicalTokenIndex % layerKvBlockTokens))
    let value ← okOr (block.value (physicalTokenIndex % layerKvBlockTokens))
    copyStageToken physicalTokenIndex key value
    copyRowsToStage is

/-- The loop of `rebuild_int8_storage`. -/
def rebuildInt8Blocks (blocks : List CacheBlock) : List ℕ → LayerInt8KvStore →
    Except KvCacheError LayerInt8KvStore
  | [], store => pure store
  | i :: is, store => do
    let some block := blocks[i]? | throw .invalidShape
    if block.tokenCount = 0 then rebuildInt8Blocks blocks is store
    else rebuildInt8Blocks blocks is (← store.updateBlock K i block.keys block.values)

def rebuildInt8Storage : LayerM Unit := do
  let c ← getCache
  match c.int8Storage with
  | none => pure ()
  | some store => do
    let store ← ofResult (rebuildInt8Blocks K c.blocks (List.range c.blocks.length) store.clear)
    modifyCache fun c => { c with int8Storage := some store }

/-- The loop of `rebuild_quantized_values`. -/
def rebuildQuantizedBlocks (blocks : List CacheBlock) : List ℕ → LayerQuantizedValueStore →
    Except KvCacheError LayerQuantizedValueStore
  | [], store => pure store
  | i :: is, store => do
    let some block := blocks[i]? | throw .invalidShape
    if block.tokenCount = 0 then rebuildQuantizedBlocks blocks is store
    else rebuildQuantizedBlocks blocks is (← store.updateBlock K i block.values)

def rebuildQuantizedValues : LayerM Unit := do
  let c ← getCache
  match c.quantizedValues with
  | none => pure ()
  | some store => do
    let store ← ofResult (rebuildQuantizedBlocks K c.blocks (List.range c.blocks.length) store.clear)
    modifyCache fun c => { c with quantizedValues := some store }

def rebuildStageFromBlocks : LayerM Unit := do
  modifyCache clearStageStorage
  copyRowsToStage (List.range (← getCache).tokenCount)
  rebuildInt8Storage K
  rebuildQuantizedValues K

/-- The end of a construction: what is left of a cache that failed is dropped. -/
def finish (m : LayerM Unit) (s : LayerState) : Except KvCacheError LayerState :=
  match m s with
  | .ok _ s => .ok s
  | .error e _ => .error e

def fromPrefixCacheState (state : LayerKvCachePrefixState) (rt : Statics) :
    Except KvCacheError LayerState := do
  if state.maxTokens = 0 ∨ state.keyValueHeads = 0 ∨ state.headDim = 0 ∨
      state.tokenCount > state.maxTokens ∨ state.tokensSeen < state.tokenCount ∨
      state.windowStart ≥ state.maxTokens then
    throw .invalidShape
  let (cache, rt) ← newWithConfig state.maxTokens state.keyValueHeads state.headDim state.config rt
  let cache ← restoreBlocks state.blocks cache
  let cache := { cache with
    revision := state.revision, tokenCount := state.tokenCount, tokensSeen := state.tokensSeen
    windowStart := state.windowStart }
  finish (do rebuildActiveBlockRunsFromTokens; rebuildStageFromBlocks K) { cache, rt }

/-! ### Snapshots -/

def snapshot (c : LayerKvCache) : LayerKvCacheSnapshot where
  revision := c.revision
  config := c.config
  maxTokens := c.maxTokens
  keyValueHeads := c.keyValueHeads
  headDim := c.headDim
  tokenCount := c.tokenCount
  tokensSeen := c.tokensSeen
  keys := c.keys
  values := c.values

/-- The loop of `from_snapshot`. The storages are fresh, so nobody else has a
handle of one. -/
def appendSnapshotRows : List (List F32 × List F32) → LayerM Unit
  | [] => pure ()
  | r :: rs => do
    let _ ← appendWithMetadata K (fun _ => 0) r.1 r.2
    appendSnapshotRows rs

def fromSnapshot (snap : LayerKvCacheSnapshot) (rt : Statics) : Except KvCacheError LayerState := do
  if snap.tokenCount > snap.maxTokens ∨ snap.tokensSeen < snap.tokenCount then throw .invalidShape
  let (cache, rt) ← newWithConfig snap.maxTokens snap.keyValueHeads snap.headDim snap.config rt
  let some usedLen := checkedMul snap.tokenCount cache.vectorLen | throw .invalidShape
  if snap.keys.length ≠ usedLen then throw (.shapeMismatch usedLen snap.keys.length)
  if snap.values.length ≠ usedLen then throw (.shapeMismatch usedLen snap.values.length)
  let s ← finish (appendSnapshotRows K
    ((chunksExact snap.keys cache.vectorLen).zip (chunksExact snap.values cache.vectorLen)))
    { cache, rt }
  pure { s with cache := { s.cache with revision := snap.revision, tokensSeen := snap.tokensSeen } }

end LayerKvCache

end KirAi.KvCache
