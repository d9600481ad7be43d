/-
# Stages on a device that may fail

`native_matvec.rs`: the stage of a half-precision cache and the stage of an int8
cache are kept by two families of functions that do the same with other buffers:
keys and values, or the codes and scales of both. `StageKind` is what they
differ in, `f16Kind` and `int8Kind` are the two. Every write of a buffer is a
call of the device, which may fail; what was written before stays written. A
`fault` says which write of a loop fails, and with what.

Key definitions: `StageKind`, `StageKind.appendKvCacheSlidingDirect`,
`StageKind.stagedRows`, `f16Kind`, `int8Kind`.
-/
import KirAi.NativeRuntime.KvStage

namespace KirAi.NativeRuntime

open Lib KvCache

/-- A write of one of the buffers of a stage. -/
structure ChannelWrite {Channel : Type} (Elem : Channel → Type) where
  channel : Channel
  start : ℕ
  data : List (Elem channel)

/-- The texts of a direct append and of a staged read. -/
structure StageTexts (Channel : Type) where
  /-- The entry of the cache does not fit it: the cache's id, then the entry's
  id, sizes and buffer lengths. -/
  mismatch : ℕ → ℕ → ℕ → ℕ → (Channel → ℕ) → String
  missing : String
  noBlocks : String
  offsetOverflow : String
  rowCount : ℕ → ℕ → String

/-- What the stage of a format consists of. -/
structure StageKind where
  Channel : Type
  [channelEq : DecidableEq Channel]
  Elem : Channel → Type
  /-- The buffers, in the order in which a write goes to them. -/
  channels : List Channel
  /-- The buffers, in the order in which they are made. -/
  created : List Channel
  /-- How many elements a row has, given the width of the cache's rows. -/
  width : Channel → ℕ → ℕ
  label : Channel → String
  elemBytes : Channel → ℕ
  /-- The lengths of the buffers for a direct append (`true`) or a read. -/
  stageLens : Bool → LayerKvCache → Except MetalError (Channel → ℕ)
  Blocks : Type
  activeBlocks : LayerKvCache → Except MetalError Blocks
  firstSlot : Blocks → Option ℕ
  /-- The writes of the rows from one logical row up to another. -/
  stageWrites : Blocks → ℕ → ℕ → ℕ → ℕ → Except MetalError (List (ChannelWrite Elem))
  /-- A row, validated, as it goes to the buffers. -/
  rowData : LayerKvCache → List F32 → List F32 → Except MetalError ((ch : Channel) → List (Elem ch))
  /-- Where the row of a slot goes: the slot and its mirror. -/
  rowStarts : ℕ → ℕ → ℕ → Except MetalError (List (Channel → ℕ))
  texts : StageTexts Channel

attribute [instance] StageKind.channelEq

/-- The entry that is kept for a cache. -/
structure StageMirror (κ : StageKind) where
  cacheId : ℕ
  buffers : (ch : κ.Channel) → List (κ.Elem ch)
  revisionAtLastSync : Option ℕ
  tokensSeenAtLastSync : ℕ
  tokenCountAtLastSync : ℕ
  maxTokens : ℕ
  vectorLen : ℕ

/-- A cache with the process counters, and the stage kept under its id. -/
structure DeviceState (κ : StageKind) where
  layer : LayerState
  stage : Option (StageMirror κ)

abbrev DeviceM (κ : StageKind) := EStateM MetalError (DeviceState κ)

namespace DeviceM

variable {κ : StageKind} {α β : Type}

def ofResult : Except MetalError α → DeviceM κ α
  | .ok a => pure a
  | .error e => throw e

/-- A call that changes the cache. -/
def onCache (m : LayerM α) : DeviceM κ α := fun st =>
  match m st.layer with
  | .ok a layer => .ok a { st with layer }
  | .error e layer => .error (StageM.kvCacheShapeError e) { st with layer }

def getCache : DeviceM κ LayerKvCache := do return (← get).layer.cache

def setStage (stage : StageMirror κ) : DeviceM κ Unit := modify fun st => { st with stage := some stage }

variable (st : DeviceState κ)

@[simp] theorem bind_apply (x : DeviceM κ α) (f : α → DeviceM κ β) :
    (x >>= f) st = match x st with
      | .ok a st => f a st
      | .error e st => .error e st := by
  change EStateM.bind x f st = _
  unfold EStateM.bind
  cases x st <;> rfl

@[simp] theorem pure_apply (a : α) : (pure a : DeviceM κ α) st = .ok a st := rfl

@[simp] theorem throw_apply (e : MetalError) : (throw e : DeviceM κ α) st = .error e st := rfl

@[simp] theorem get_apply : (get : DeviceM κ (DeviceState κ)) st = .ok st st := rfl

@[simp] theorem getCache_apply : (getCache : DeviceM κ _) st = .ok st.layer.cache st := rfl

@[simp] theorem setStage_apply (m : StageMirror κ) :
    setStage m st = .ok () { st with stage := some m } := rfl

@[simp] theorem ofResult_ok (a : α) : (ofResult (.ok a) : DeviceM κ α) st = .ok a st := rfl

@[simp] theorem ofResult_error (e : MetalError) :
    (ofResult (.error e) : DeviceM κ α) st = .error e st := rfl

end DeviceM

open DeviceM

/-- `map_err(kv_cache_shape_error)` -/
def mapShapeError {α : Type} : Except KvCacheError α → Except MetalError α
  | .ok a => .ok a
  | .error e => .error (StageM.kvCacheShapeError e)

/-! ### Device buffers -/

def newBufferLen {α : Type} (label : String) (elemBytes : ℕ) (garbage : ℕ → α) (len : ℕ) :
    Except MetalError (List α) := do
  let _ ← okOrShape (label ++ " buffer byte length overflows usize") (checkedMul len elemBytes)
  return (List.range len).map garbage

def writeBufferRange {α : Type} (label : String) (buffer : List α) (start : ℕ) (values : List α) :
    Except MetalError (List α) := do
  let stop ← okOrShape (label ++ " buffer write range overflows usize")
    (checkedAdd start values.length)
  if stop > buffer.length then
    throw (.invalidShape (label ++ " buffer write range " ++ toString start ++ ".." ++
      toString stop ++ " exceeds buffer length " ++ toString buffer.length))
  return splice buffer start values

/-- Which write of a loop fails, and with what. -/
abbrev Fault := ℕ → Option MetalError

namespace StageKind

variable {κ : StageKind}

/-- One write, unless the device fails it. -/
def writeChannel (fault : Option MetalError) (w : ChannelWrite κ.Elem) : DeviceM κ Unit := do
  match fault, (← get).stage with
  | some e, _ => throw e
  | none, none => pure ()
  | none, some stage => do
    let buffer ← ofResult (writeBufferRange (κ.label w.channel) (stage.buffers w.channel) w.start w.data)
    setStage { stage with buffers := Function.update stage.buffers w.channel buffer }

/-- The writes one after the other, up to the first that fails; `i` have been
made. -/
def writeAll (fault : Fault) : ℕ → List (ChannelWrite κ.Elem) → DeviceM κ Unit
  | _, [] => pure ()
  | i, w :: ws => do
    writeChannel (fault i) w
    writeAll fault (i + 1) ws

/-! ### The entry of a cache -/

/-- The guard under which an entry is used as it is. -/
def isFor (stage : StageMirror κ) (cache : LayerKvCache) (lens : κ.Channel → ℕ) : Prop :=
  stage.cacheId = cache.id ∧ stage.maxTokens = cache.maxTokens ∧
    stage.vectorLen = cache.vectorLen ∧ ∀ ch ∈ κ.channels, (stage.buffers ch).length = lens ch

instance (stage : StageMirror κ) (cache : LayerKvCache) (lens : κ.Channel → ℕ) :
    Decidable (isFor stage cache lens) :=
  inferInstanceAs (Decidable (_ ∧ _ ∧ _ ∧ _))

/-- What the device has in a buffer that was not written yet. -/
abbrev Garbage (κ : StageKind) := (ch : κ.Channel) → ℕ → κ.Elem ch

/-- The buffers are made one after the other; their lengths are checked first to
last. -/
def newStage (garbage : Garbage κ) (cache : LayerKvCache) (lens : κ.Channel → ℕ) :
    Except MetalError (StageMirror κ) := do
  κ.created.forM fun ch => do
    let _ ← newBufferLen (κ.label ch) (κ.elemBytes ch) (garbage ch) (lens ch)
  return {
    cacheId := cache.id, buffers := fun ch => (List.range (lens ch)).map (garbage ch)
    revisionAtLastSync := none, tokensSeenAtLastSync := 0, tokenCountAtLastSync := 0
    maxTokens := cache.maxTokens, vectorLen := cache.vectorLen }

def makeStage (garbage : Garbage κ) (cache : LayerKvCache) (lens : κ.Channel → ℕ) :
    DeviceM κ (StageMirror κ) := do
  let stage ← ofResult (newStage garbage cache lens)
  setStage stage
  pure stage

/-- The entry for a staged read: one that does not fit the cache is replaced. -/
def stageForRead (garbage : Garbage κ) (lens : κ.Channel → ℕ) : DeviceM κ (StageMirror κ) := do
  let cache ← getCache
  match (← get).stage with
  | some stage => if isFor stage cache lens then pure stage else makeStage garbage cache lens
  | none => makeStage garbage cache lens

/-- The entry for a direct append: one that does not fit the cache is an error. -/
def stageForAppend (garbage : Garbage κ) (lens : κ.Channel → ℕ) : DeviceM κ (StageMirror κ) := do
  let cache ← getCache
  match (← get).stage with
  | some stage =>
    if isFor stage cache lens then pure stage
    else throw (.invalidShape (κ.texts.mismatch cache.id stage.cacheId stage.maxTokens
      stage.vectorLen fun ch => (stage.buffers ch).length))
  | none => makeStage garbage cache lens

/-! ### Direct appends -/

/-- The faults of a direct append: in the rebuild, and in the writes of the row. -/
structure AppendFaults where
  rebuild : Fault
  row : Fault

/-- The whole window, unless the stage is at the cache's revision. -/
def rebuildWrites (stage : StageMirror κ) (cache : LayerKvCache) (blocks : κ.Blocks) :
    Except MetalError (List (ChannelWrite κ.Elem)) :=
  if stage.revisionAtLastSync = some cache.revision then .ok []
  else κ.stageWrites blocks 0 cache.tokenCount cache.vectorLen cache.maxTokens

/-- The writes of a row: all buffers at the slot, then all at its mirror. -/
def rowWrites (row : (ch : κ.Channel) → List (κ.Elem ch)) (starts : List (κ.Channel → ℕ)) :
    List (ChannelWrite κ.Elem) :=
  starts.flatMap fun start => κ.channels.map fun ch => ⟨ch, start ch, row ch⟩

/-- The first part of a direct append: the row goes into the stage, which is
rebuilt before if it is not at the cache's revision. -/
def writeDirectAppend (garbage : Garbage κ) (fault : AppendFaults) (key value : List F32) :
    DeviceM κ LayerKvCacheAppendTarget := do
  let cache ← getCache
  let row ← ofResult (κ.rowData cache key value)
  let target ← ofResult (mapShapeError cache.slidingAppendTarget)
  let lens ← ofResult (κ.stageLens true cache)
  let blocks ← ofResult (κ.activeBlocks cache)
  let stage ← stageForAppend garbage lens
  let rebuild ← ofResult (rebuildWrites stage cache blocks)
  writeAll fault.rebuild 0 rebuild
  let starts ← ofResult (κ.rowStarts target.physicalTokenIndex cache.vectorLen cache.maxTokens)
  writeAll fault.row 0 (rowWrites row starts)
  pure target

/-- `mark_f16_stage_synced`, `mark_int8_stage_synced` -/
def markStageSynced (append : LayerKvCacheAppend) : DeviceM κ Unit := do
  let st ← get
  match st.stage with
  | none => throw (.invalidShape (κ.texts.missing ++ toString st.layer.cache.id))
  | some stage => setStage { stage with
      revisionAtLastSync := some append.revision, tokensSeenAtLastSync := append.tokensSeen
      tokenCountAtLastSync := append.tokenCount }

/-- The second part: the row goes into the cache, and the stage is marked. -/
def finishDirectAppend (K : QuantKernels) (shares : Shares) (target : LayerKvCacheAppendTarget)
    (key value : List F32) : DeviceM κ Unit := do
  let append ← onCache (LayerKvCache.appendSlidingWithMetadata K shares key value)
  ofResult (verifyDirectAppendMetadata (← getCache).maxTokens target append)
  markStageSynced append

variable (κ) in
def appendKvCacheSlidingDirect (K : QuantKernels) (shares : Shares) (garbage : Garbage κ)
    (fault : AppendFaults) (key value : List F32) : DeviceM κ Unit := do
  let target ← writeDirectAppend garbage fault key value
  finishDirectAppend K shares target key value

/-! ### Staged reads -/

/-- Where the window starts in every buffer. -/
def stageOffset (blocks : κ.Blocks) (vectorLen rowCount : ℕ) : Except MetalError (κ.Channel → ℕ) :=
  if rowCount = 0 then .ok fun _ => 0
  else do
    let first ← okOrShape κ.texts.noBlocks (κ.firstSlot blocks)
    let _ ← okOrShape κ.texts.offsetOverflow (checkedMul first vectorLen)
    return fun ch => first * κ.width ch vectorLen

def plan (stage : StageMirror κ) (cache : LayerKvCache) : MetalStageSyncPlan :=
  kvStageSyncPlan stage.revisionAtLastSync stage.tokensSeenAtLastSync stage.tokenCountAtLastSync
    cache.revision cache.nextPosition cache.tokenCount

/-- The counters of the cache become those of the last sync. -/
def recordStageSync : DeviceM κ Unit := do
  let st ← get
  match st.stage with
  | none => pure ()
  | some stage => setStage { stage with
      revisionAtLastSync := some st.layer.cache.revision
      tokensSeenAtLastSync := st.layer.cache.nextPosition
      tokenCountAtLastSync := st.layer.cache.tokenCount }

/-- The buffers of the entry, as the device finds them. -/
def stageBuffers : DeviceM κ ((ch : κ.Channel) → List (κ.Elem ch)) := do
  match (← get).stage with
  | none => pure fun _ => []
  | some stage => pure stage.buffers

variable (κ) in
/-- The buffers of the stage, each with the offset of the window. -/
def stagedRows (garbage : Garbage κ) (fault : Fault) (rowCount : ℕ) :
    DeviceM κ (((ch : κ.Channel) → List (κ.Elem ch)) × (κ.Channel → ℕ)) := do
  let cache ← getCache
  if rowCount > cache.tokenCount then
    throw (.invalidShape (κ.texts.rowCount rowCount cache.tokenCount))
  let lens ← ofResult (κ.stageLens false cache)
  let blocks ← ofResult (κ.activeBlocks cache)
  let offset ← ofResult (stageOffset blocks cache.vectorLen rowCount)
  let stage ← stageForRead garbage lens
  match plan stage cache with
  | .clean => pure ()
  | .write logicalStart logicalEnd _ => do
    let writes ← ofResult (κ.stageWrites blocks logicalStart logicalEnd cache.vectorLen cache.maxTokens)
    writeAll fault 0 writes
    recordStageSync
  let buffers ← stageBuffers
  pure (buffers, offset)

end StageKind

/-! ### The half-precision stage -/

inductive F16Channel where
  | keys
  | values
deriving DecidableEq, Repr

def f16StageWrites (toF16 : F32 → BitVec 16) (w : MetalStageWrite) :
    List (ChannelWrite fun _ : F16Channel => BitVec 16) :=
  [⟨.keys, w.destinationStart, w.sourceKeys.map toF16⟩,
    ⟨.values, w.destinationStart, w.sourceValues.map toF16⟩]

def f16Kind (toF16 : F32 → BitVec 16) : StageKind where
  Channel := F16Channel
  Elem _ := BitVec 16
  channels := [.keys, .values]
  created := [.keys, .values]
  width _ v := v
  label _ := "f16"
  elemBytes _ := 2
  stageLens _ cache := do
    let len ← kvCacheStageElementLen cache
    return fun _ => len
  Blocks := List LayerKvCacheBlock
  activeBlocks cache := mapShapeError cache.activeBlocks
  firstSlot blocks := blocks.head?.map (·.physicalTokenStart)
  stageWrites blocks logicalStart logicalEnd vectorLen maxTokens := do
    let writes ← kvStageWritesFromActiveBlocks blocks logicalStart logicalEnd vectorLen maxTokens
    return writes.flatMap (f16StageWrites toF16)
  rowData cache key value := do
    mapShapeError (cache.validateSlidingAppend key value)
    return fun
      | .keys => key.map toF16
      | .values => value.map toF16
  rowStarts physicalTokenIndex vectorLen maxTokens := do
    let (start, mirror) ← kvStageDestinationStarts physicalTokenIndex 1 vectorLen maxTokens
      "direct KV cache stage append"
    return [fun _ => start, fun _ => mirror]
  texts := {
    mismatch := fun id stageId maxTokens vectorLen len =>
      "Metal KV direct append stage residency mismatch for cache " ++ toString id ++
        ": stage cache_id=" ++ toString stageId ++ ", max_tokens=" ++ toString maxTokens ++
        ", vector_len=" ++ toString vectorLen ++ ", key_len=" ++ toString (len .keys) ++
        ", value_len=" ++ toString (len .values)
    missing := "missing Metal KV direct append stage for cache "
    noBlocks := "non-empty KV cache has no active blocks"
    offsetOverflow := "KV cache stage offset overflows usize"
    rowCount := fun rowCount tokenCount => "KV cache row_count " ++ toString rowCount ++
      " exceeds token_count " ++ toString tokenCount }

/-! ### The int8 stage -/

inductive Int8Channel where
  | keys
  | values
  | keyScales
  | valueScales
deriving DecidableEq, Repr

def Int8Channel.Elem : Int8Channel → Type
  | .keys | .values => BitVec 8
  | .keyScales | .valueScales => F32

/-- A row has `v` codes and one scale. -/
def Int8Channel.width : Int8Channel → ℕ → ℕ
  | .keys, v | .values, v => v
  | .keyScales, _ | .valueScales, _ => 1

def Int8Channel.isScale : Int8Channel → Bool
  | .keys | .values => false
  | .keyScales | .valueScales => true

def int8StageWrites (w : MetalInt8StageWrite) : List (ChannelWrite Int8Channel.Elem) :=
  [⟨.keys, w.destinationStart, w.sourceKeys⟩, ⟨.values, w.destinationStart, w.sourceValues⟩,
    ⟨.keyScales, w.destinationScaleStart, w.sourceKeyScales⟩,
    ⟨.valueScales, w.destinationScaleStart, w.sourceValueScales⟩]

def int8Kind (K : QuantKernels) : StageKind where
  Channel := Int8Channel
  Elem := Int8Channel.Elem
  channels := [.keys, .values, .keyScales, .valueScales]
  created := [.keys, .keyScales, .values, .valueScales]
  width := Int8Channel.width
  label ch := if ch.isScale then "f32" else "i8"
  elemBytes ch := if ch.isScale then 4 else 1
  stageLens append cache := do
    let len ← kvCacheStageElementLen cache
    let scaleLen ← okOrShape (if append then "INT8 KV direct append scale stage length overflows usize"
      else "INT8 KV cache scale stage length overflows usize") (checkedMul cache.maxTokens 2)
    return fun ch => if ch.isScale then scaleLen else len
  Blocks := List LayerKvCacheInt8Block
  activeBlocks cache := do
    let blocks ← mapShapeError cache.activeInt8Blocks
    okOrShape "INT8 KV cache format has no INT8 block storage" blocks
  firstSlot blocks := blocks.head?.map (·.physicalTokenStart)
  stageWrites blocks logicalStart logicalEnd vectorLen maxTokens := do
    let writes ← int8KvStageWritesFromActiveBlocks blocks logicalStart logicalEnd vectorLen maxTokens
    return writes.flatMap int8StageWrites
  rowData cache key value := do
    let token ← mapShapeError (cache.int8DirectAppendToken K key value)
    let token ← okOrShape "INT8 direct append requires an INT8 KV cache" token
    return fun
      | .keys => token.keyCodes
      | .values => token.valueCodes
      | .keyScales => token.keyScales
      | .valueScales => token.valueScales
  rowStarts physicalTokenIndex vectorLen maxTokens := do
    let (start, mirror) ← kvStageDestinationStarts physicalTokenIndex 1 vectorLen maxTokens
      "direct INT8 KV cache stage append"
    let scaleMirror ← okOrShape "direct INT8 KV cache scale mirror destination overflows usize"
      (checkedAdd physicalTokenIndex maxTokens)
    return [fun ch => if ch.isScale then physicalTokenIndex else start,
      fun ch => if ch.isScale then scaleMirror else mirror]
  texts := {
    mismatch := fun id stageId maxTokens vectorLen len =>
      "Metal INT8 KV direct append stage residency mismatch for cache " ++ toString id ++
        ": stage cache_id=" ++ toString stageId ++ ", max_tokens=" ++ toString maxTokens ++
        ", vector_len=" ++ toString vectorLen ++ ", key_len=" ++ toString (len .keys) ++
        ", value_len=" ++ toString (len .values) ++ ", key_scale_len=" ++
        toString (len .keyScales) ++ ", value_scale_len=" ++ toString (len .valueScales)
    missing := "missing Metal INT8 KV direct append stage for cache "
    noBlocks := "non-empty INT8 KV cache has no active blocks"
    offsetOverflow := "INT8 KV cache stage offset overflows usize"
    rowCount := fun rowCount tokenCount => "INT8 KV cache row_count " ++ toString rowCount ++
      " exceeds token_count " ++ toString tokenCount }

/-! ### The functions of the source -/

section Source

variable (K : QuantKernels) (toF16 : F32 → BitVec 16)

/-- `append_f16_kv_cache_sliding_direct`, write by write. -/
abbrev appendF16Direct := (f16Kind toF16).appendKvCacheSlidingDirect K

abbrev appendInt8KvCacheSlidingDirect := (int8Kind K).appendKvCacheSlidingDirect K

/-- `staged_kv_cache_rows`, write by write. -/
abbrev stagedF16Rows := (f16Kind toF16).stagedRows

abbrev stagedInt8KvCacheRows := (int8Kind K).stagedRows

end Source

end KirAi.NativeRuntime
