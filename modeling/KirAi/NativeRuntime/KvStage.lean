/-
# The half-precision stage of a layer cache

`native_matvec.rs`: a backend keeps one stage for a cache, a mirrored ring of
its rows in half precision on the device, with the counters of the cache at the
last sync. `stagedKvCacheRows` brings the stage up to date as the plan says and
answers where the window starts in it; `appendF16KvCacheSlidingDirect` appends a
row to the cache and writes it into the stage at once.

A run is on one cache: the state has the entry of `kv_stages` under the cache's
id. The buffers are shared with the device, so what is written stays written
when an operation fails later on. What a fresh buffer holds is up to the device
(`garbage`), and the conversion of a value to half precision is a parameter.

Key definitions: `stagedKvCacheRows`, `appendF16KvCacheSlidingDirect`.
-/
import KirAi.NativeRuntime.KvSync

namespace KirAi.NativeRuntime

open Lib KvCache

structure MetalLayerKvStageMirror where
  cacheId : ℕ
  keys : List (BitVec 16)
  values : List (BitVec 16)
  revisionAtLastSync : Option ℕ
  tokensSeenAtLastSync : ℕ
  tokenCountAtLastSync : ℕ
  maxTokens : ℕ
  vectorLen : ℕ
deriving DecidableEq, Repr

/-- A cache with the process counters, and the stage kept under its id. -/
structure StageState where
  layer : LayerState
  stage : Option MetalLayerKvStageMirror

abbrev StageM := EStateM MetalError StageState

namespace StageM

def ofResult {α : Type} : Except MetalError α → StageM α
  | .ok a => pure a
  | .error e => throw e

/-- `map_err(kv_cache_shape_error)` -/
def kvCacheShapeError (err : KvCacheError) : MetalError :=
  .invalidShape ("invalid block KV cache shape: " ++ err.display)

def ofCache {α : Type} : Except KvCacheError α → StageM α
  | .ok a => pure a
  | .error e => throw (kvCacheShapeError e)

/-- A call that changes the cache. -/
def onCache {α : Type} (m : LayerM α) : StageM α := fun st =>
  match m st.layer with
  | .ok a layer => .ok a { st with layer }
  | .error e layer => .error (kvCacheShapeError e) { st with layer }

def getCache : StageM LayerKvCache := do return (← get).layer.cache

def setStage (stage : MetalLayerKvStageMirror) : StageM Unit :=
  modify fun st => { st with stage := some stage }

/-! A run of a `do` block, step by step. -/

variable {α β : Type} (st : StageState)

@[simp] theorem bind_apply (x : StageM α) (f : α → StageM β) :
    (x >>= f) st = match x st with
      | .ok a st => f a st
      | .error e st => .error e st := by
  change EStateM.bind x f st = _
  unfold EStateM.bind
  cases x st <;> rfl

@[simp] theorem pure_apply (a : α) : (pure a : StageM α) st = .ok a st := rfl

@[simp] theorem throw_apply (e : MetalError) : (throw e : StageM α) st = .error e st := rfl

@[simp] theorem get_apply : (get : StageM StageState) st = .ok st st := rfl

@[simp] theorem getCache_apply : getCache st = .ok st.layer.cache st := rfl

@[simp] theorem setStage_apply (m : MetalLayerKvStageMirror) :
    setStage m st = .ok () { st with stage := some m } := rfl

@[simp] theorem ofResult_ok (a : α) : ofResult (.ok a) st = .ok a st := rfl

@[simp] theorem ofResult_error (e : MetalError) :
    ofResult (.error e : Except MetalError α) st = .error e st := rfl

@[simp] theorem ofCache_ok (a : α) : ofCache (.ok a) st = .ok a st := rfl

@[simp] theorem ofCache_error (e : KvCacheError) :
    ofCache (.error e : Except KvCacheError α) st = .error (kvCacheShapeError e) st := rfl

end StageM

open StageM

/-! ### Device buffers -/

def newF16BufferLen (garbage : ℕ → BitVec 16) (len : ℕ) : Except MetalError (List (BitVec 16)) := do
  let _ ← okOrShape "f16 buffer byte length overflows usize" (checkedMul len 2)
  return (List.range len).map garbage

def writeF16BufferRangeFromF32 (toF16 : F32 → BitVec 16) (buffer : List (BitVec 16)) (start : ℕ)
    (values : List F32) : Except MetalError (List (BitVec 16)) := do
  let stop ← okOrShape "f16 buffer write range overflows usize" (checkedAdd start values.length)
  if stop > buffer.length then
    throw (.invalidShape ("f16 buffer write range " ++ toString start ++ ".." ++ toString stop ++
      " exceeds buffer length " ++ toString buffer.length))
  return splice buffer start (values.map toF16)

/-- One write into the stage, keys first. The handles written through are those
of the entry, so there is one. -/
def writeStage (toF16 : F32 → BitVec 16) (destinationStart : ℕ) (sourceKeys sourceValues : List F32) :
    StageM Unit := do
  match (← get).stage with
  | none => pure ()
  | some stage => do
    let keys ← ofResult (writeF16BufferRangeFromF32 toF16 stage.keys destinationStart sourceKeys)
    setStage { stage with keys }
    let values ← ofResult (writeF16BufferRangeFromF32 toF16 stage.values destinationStart sourceValues)
    setStage { stage with keys, values }

def writeStageAll (toF16 : F32 → BitVec 16) : List MetalStageWrite → StageM Unit
  | [] => pure ()
  | w :: ws => do
    writeStage toF16 w.destinationStart w.sourceKeys w.sourceValues
    writeStageAll toF16 ws

/-! ### The entry of a cache -/

/-- The guard under which an entry is used as it is. -/
def MetalLayerKvStageMirror.isFor (stage : MetalLayerKvStageMirror) (cache : LayerKvCache)
    (stageLen : ℕ) : Prop :=
  stage.cacheId = cache.id ∧ stage.maxTokens = cache.maxTokens ∧
    stage.vectorLen = cache.vectorLen ∧ stage.keys.length = stageLen ∧ stage.values.length = stageLen

instance (stage : MetalLayerKvStageMirror) (cache : LayerKvCache) (stageLen : ℕ) :
    Decidable (stage.isFor cache stageLen) :=
  inferInstanceAs (Decidable (_ ∧ _ ∧ _ ∧ _ ∧ _))

def newStage (garbage : ℕ → BitVec 16) (cache : LayerKvCache) (stageLen : ℕ) :
    Except MetalError MetalLayerKvStageMirror := do
  let keys ← newF16BufferLen garbage stageLen
  let values ← newF16BufferLen garbage stageLen
  return {
    cacheId := cache.id, keys, values, revisionAtLastSync := none, tokensSeenAtLastSync := 0
    tokenCountAtLastSync := 0, maxTokens := cache.maxTokens, vectorLen := cache.vectorLen }

/-- The entry for a staged read: one that does not fit the cache is replaced. -/
def stageForRead (garbage : ℕ → BitVec 16) (stageLen : ℕ) : StageM MetalLayerKvStageMirror := do
  let cache ← getCache
  let makeStage : StageM MetalLayerKvStageMirror := do
    let stage ← ofResult (newStage garbage cache stageLen)
    setStage stage
    pure stage
  match (← get).stage with
  | some stage => if stage.isFor cache stageLen then pure stage else makeStage
  | none => makeStage

/-- The entry for a direct append: one that does not fit the cache is an error. -/
def stageForAppend (garbage : ℕ → BitVec 16) (stageLen : ℕ) : StageM MetalLayerKvStageMirror := do
  let cache ← getCache
  match (← get).stage with
  | some stage =>
    if stage.isFor cache stageLen then pure stage
    else throw (.invalidShape ("Metal KV direct append stage residency mismatch for cache " ++
      toString cache.id ++ ": stage cache_id=" ++ toString stage.cacheId ++ ", max_tokens=" ++
      toString stage.maxTokens ++ ", vector_len=" ++ toString stage.vectorLen ++ ", key_len=" ++
      toString stage.keys.length ++ ", value_len=" ++ toString stage.values.length))
  | none => do
    let stage ← ofResult (newStage garbage cache stageLen)
    setStage stage
    pure stage

/-! ### Direct appends -/

def verifyDirectAppendMetadata (maxTokens : ℕ) (target : LayerKvCacheAppendTarget)
    (append : LayerKvCacheAppend) : Except MetalError Unit :=
  let expectedTokenCount := if target.previousTokenCount < maxTokens then
    satAdd target.previousTokenCount 1 else maxTokens
  if append.tokenIndex ≠ target.tokenIndex ∨ append.physicalTokenIndex ≠ target.physicalTokenIndex ∨
      append.tokenCount ≠ expectedTokenCount then
    .error (.invalidShape ("KV cache direct append metadata mismatch: target token=" ++
      toString target.tokenIndex ++ ", physical=" ++ toString target.physicalTokenIndex ++
      ", previous_count=" ++ toString target.previousTokenCount ++ ", expected_count=" ++
      toString expectedTokenCount ++ "; append token=" ++ toString append.tokenIndex ++
      ", physical=" ++ toString append.physicalTokenIndex ++ ", token_count=" ++
      toString append.tokenCount))
  else .ok ()

def markF16StageSynced (append : LayerKvCacheAppend) : StageM Unit := do
  let st ← get
  match st.stage with
  | none => throw (.invalidShape ("missing Metal KV direct append stage for cache " ++
      toString st.layer.cache.id))
  | some stage => setStage { stage with
      revisionAtLastSync := some append.revision, tokensSeenAtLastSync := append.tokensSeen
      tokenCountAtLastSync := append.tokenCount }

/-- The whole window, unless the stage is at the cache's revision. -/
def MetalLayerKvStageMirror.rebuildWrites (stage : MetalLayerKvStageMirror) (cache : LayerKvCache)
    (activeBlocks : List LayerKvCacheBlock) : Except MetalError (List MetalStageWrite) :=
  if stage.revisionAtLastSync = some cache.revision then .ok []
  else kvStageWritesFromActiveBlocks activeBlocks 0 cache.tokenCount cache.vectorLen cache.maxTokens

/-- The first part of a direct append: the row goes into the stage, which is
rebuilt before if it is not at the cache's revision. -/
def writeDirectAppend (toF16 : F32 → BitVec 16) (garbage : ℕ → BitVec 16) (key value : List F32) :
    StageM LayerKvCacheAppendTarget := do
  let cache ← getCache
  ofCache (cache.validateSlidingAppend key value)
  let target ← ofCache cache.slidingAppendTarget
  let stageLen ← ofResult (kvCacheStageElementLen cache)
  let activeBlocks ← ofCache cache.activeBlocks
  let stage ← stageForAppend garbage stageLen
  let rebuildWrites ← ofResult (stage.rebuildWrites cache activeBlocks)
  writeStageAll toF16 rebuildWrites
  let (destinationStart, mirrorDestinationStart) ← ofResult (kvStageDestinationStarts
    target.physicalTokenIndex 1 cache.vectorLen cache.maxTokens "direct KV cache stage append")
  writeStage toF16 destinationStart key value
  writeStage toF16 mirrorDestinationStart key value
  pure target

/-- The second part: the row goes into the cache, and the stage is marked. -/
def finishDirectAppend (K : QuantKernels) (shares : Shares) (target : LayerKvCacheAppendTarget)
    (key value : List F32) : StageM Unit := do
  let append ← onCache (LayerKvCache.appendSlidingWithMetadata K shares key value)
  ofResult (verifyDirectAppendMetadata (← getCache).maxTokens target append)
  markF16StageSynced append

def appendF16KvCacheSlidingDirect (K : QuantKernels) (toF16 : F32 → BitVec 16) (shares : Shares)
    (garbage : ℕ → BitVec 16) (key value : List F32) : StageM Unit := do
  let target ← writeDirectAppend toF16 garbage key value
  finishDirectAppend K shares target key value

/-! ### Staged reads -/

/-- Where the window starts in the stage. -/
def stagedKeyOffset (activeBlocks : List LayerKvCacheBlock) (vectorLen rowCount : ℕ) :
    Except MetalError ℕ :=
  if rowCount = 0 then .ok 0
  else do
    let first ← okOrShape "non-empty KV cache has no active blocks" activeBlocks.head?
    okOrShape "KV cache stage offset overflows usize" (checkedMul first.physicalTokenStart vectorLen)

/-- The counters of the cache become those of the last sync. -/
def recordStageSync : StageM Unit := do
  let st ← get
  match st.stage with
  | none => pure ()
  | some stage => setStage { stage with
      revisionAtLastSync := some st.layer.cache.revision
      tokensSeenAtLastSync := st.layer.cache.nextPosition
      tokenCountAtLastSync := st.layer.cache.tokenCount }

def MetalLayerKvStageMirror.plan (stage : MetalLayerKvStageMirror) (cache : LayerKvCache) :
    MetalStageSyncPlan :=
  kvStageSyncPlan stage.revisionAtLastSync stage.tokensSeenAtLastSync stage.tokenCountAtLastSync
    cache.revision cache.nextPosition cache.tokenCount

/-- The buffers of the entry, as the device finds them. -/
def stageBuffers : StageM (List (BitVec 16) × List (BitVec 16)) := do
  match (← get).stage with
  | none => pure ([], [])
  | some stage => pure (stage.keys, stage.values)

def rowCountError (rowCount tokenCount : ℕ) : MetalError :=
  .invalidShape ("KV cache row_count " ++ toString rowCount ++ " exceeds token_count " ++
    toString tokenCount)

/-- The keys and the values of the stage, each with the offset of the window. -/
def stagedKvCacheRows (toF16 : F32 → BitVec 16) (garbage : ℕ → BitVec 16) (rowCount : ℕ) :
    StageM (List (BitVec 16) × ℕ × List (BitVec 16) × ℕ) := do
  let cache ← getCache
  if rowCount > cache.tokenCount then throw (rowCountError rowCount cache.tokenCount)
  let stageLen ← ofResult (kvCacheStageElementLen cache)
  let activeBlocks ← ofCache cache.activeBlocks
  let keyOffset ← ofResult (stagedKeyOffset activeBlocks cache.vectorLen rowCount)
  let stage ← stageForRead garbage stageLen
  match stage.plan cache with
  | .clean => pure ()
  | .write logicalStart logicalEnd _ => do
    let writes ← ofResult (kvStageWritesFromActiveBlocks activeBlocks logicalStart logicalEnd
      cache.vectorLen cache.maxTokens)
    writeStageAll toF16 writes
    recordStageSync
  let (keys, values) ← stageBuffers
  pure (keys, keyOffset, values, keyOffset)

end KirAi.NativeRuntime
