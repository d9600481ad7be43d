/-
# Blocks of the disk cache

`disk_cache/codec.rs` and the block type of `disk_cache/io.rs`: what a model
family stores of its layers in a block of the disk cache, and how blocks that
were read become prefix states again. A layer of rows stores the rows of the
block, taken from the prefix state at the block's end; a linear layer stores its
whole state there. Reading gives one state for each block, and the assembly puts
the rows of consecutive blocks together and keeps the last linear state.

The two families differ in the kinds of layers they have. The layer enums of the
source are `non_exhaustive`; the error branches for kinds that do not exist are
left out. A call that makes caches takes their ids from the process counters.

Key definitions: `encodeLayerKvBlockFromPrefixState`,
`assembleLayerKvPrefixStateBlocks`, `qwenDiskCacheValue`, `gemmaDiskCacheValue`,
`NativeTextDiskCacheBlock.encode`, `NativeTextDiskCacheBlock.decode`.
-/
import KirAi.KvCache.Layer
import KirAi.KvCache.Linear
import KirAi.NativeRuntime.DiskTensors

namespace KirAi.NativeRuntime

open Lib KvCache

/-- `QwenLayerCachePrefixState` -/
inductive QwenLayerCachePrefixState where
  | linear (snapshot : LinearAttentionCacheSnapshot)
  | full (state : LayerKvCachePrefixState)
deriving DecidableEq, Repr

/-- `GemmaLayerCachePrefixState` -/
inductive GemmaLayerCachePrefixState where
  | attention (state : LayerKvCachePrefixState)
deriving DecidableEq, Repr

structure NativeTextDiskCacheStateBlock (S : Type) where
  blockStart : ℕ
  tokenCount : ℕ
  states : List S

/-! ### Snapshots of one layer -/

def encodeLayerKvSnapshot (pfx : String) (snapshot : LayerKvCacheSnapshot)
    (sink : NativeTextDiskCacheTensorSink) :
    DiskResult (NativeTextDiskFullAttentionLayout × NativeTextDiskCacheTensorSink) := do
  if snapshot.config.format.display ≠ "f32" then
    throw (integrity "only f32 KV cache snapshots can be written to disk")
  let shape := [snapshot.tokenCount, snapshot.keyValueHeads, snapshot.headDim]
  let keyTensor := pfx ++ ".keys"
  let valueTensor := pfx ++ ".values"
  let sink ← sink.pushF32 keyTensor shape snapshot.keys
  let sink ← sink.pushF32 valueTensor shape snapshot.values
  pure ({
    revision := snapshot.revision, maxTokens := snapshot.maxTokens
    keyValueHeads := snapshot.keyValueHeads, headDim := snapshot.headDim
    tokenCount := snapshot.tokenCount, tokensSeen := snapshot.tokensSeen
    cacheFormat := "f32", keyTensor, valueTensor, shape }, sink)

def validateTensorShape (archive : NativeTextDiskCacheTensorArchive) (tensor : String)
    (expected : List ℕ) : DiskResult Unit := do
  let actual ← archive.f32TensorShape tensor
  if actual ≠ expected then throw (integrity (aboutTensor tensor "shape mismatch"))

def decodeLayerKvSnapshot (layout : NativeTextDiskFullAttentionLayout)
    (archive : NativeTextDiskCacheTensorArchive) (rt : Statics) :
    DiskResult (LayerKvCacheSnapshot × Statics) := do
  if layout.cacheFormat ≠ "f32" then throw (integrity "unsupported KV cache disk format")
  let keys ← archive.f32Tensor layout.keyTensor
  let values ← archive.f32Tensor layout.valueTensor
  validateTensorShape archive layout.keyTensor layout.shape
  validateTensorShape archive layout.valueTensor layout.shape
  let (cache, rt) ← ofKvCache (LayerKvCache.newWithConfig layout.maxTokens layout.keyValueHeads
    layout.headDim .f32 rt)
  pure ({
    revision := layout.revision, config := cache.snapshot.config, maxTokens := layout.maxTokens
    keyValueHeads := layout.keyValueHeads, headDim := layout.headDim
    tokenCount := layout.tokenCount, tokensSeen := layout.tokensSeen, keys, values }, rt)

def encodeLinearAttentionSnapshot (pfx : String) (snapshot : LinearAttentionCacheSnapshot)
    (sink : NativeTextDiskCacheTensorSink) :
    DiskResult (NativeTextDiskLinearAttentionLayout × NativeTextDiskCacheTensorSink) := do
  let shape := snapshot.shape
  let convWindowShape := [shape.convKernelSize, shape.convDim]
  let recurrentStateShape := [shape.numValueHeads, shape.keyHeadDim, shape.valueHeadDim]
  let convWindowTensor := pfx ++ ".conv_window"
  let recurrentStateTensor := pfx ++ ".recurrent_state"
  let sink ← sink.pushF32 convWindowTensor convWindowShape snapshot.convWindow
  let sink ← sink.pushF32 recurrentStateTensor recurrentStateShape snapshot.recurrentState
  pure ({
    revision := snapshot.revision, convKernelSize := shape.convKernelSize
    convDim := shape.convDim, numValueHeads := shape.numValueHeads
    keyHeadDim := shape.keyHeadDim, valueHeadDim := shape.valueHeadDim
    tokenCount := snapshot.tokenCount, convWindowTensor, recurrentStateTensor, convWindowShape
    recurrentStateShape }, sink)

def decodeLinearAttentionSnapshot (layout : NativeTextDiskLinearAttentionLayout)
    (archive : NativeTextDiskCacheTensorArchive) : DiskResult LinearAttentionCacheSnapshot := do
  validateTensorShape archive layout.convWindowTensor layout.convWindowShape
  validateTensorShape archive layout.recurrentStateTensor layout.recurrentStateShape
  let convWindow ← archive.f32Tensor layout.convWindowTensor
  let recurrentState ← archive.f32Tensor layout.recurrentStateTensor
  pure {
    revision := layout.revision
    shape := ⟨layout.convKernelSize, layout.convDim, layout.numValueHeads, layout.keyHeadDim,
      layout.valueHeadDim⟩
    tokenCount := layout.tokenCount, convWindow, recurrentState }

/-! ### Blocks of rows -/

section Rows

variable (K : QuantKernels)

/-- `from_prefix_cache_state` and `snapshot` in one. -/
def snapshotOfPrefixState (state : LayerKvCachePrefixState) (rt : Statics) :
    DiskResult (LayerKvCacheSnapshot × Statics) := do
  let s ← ofKvCache (LayerKvCache.fromPrefixCacheState K state rt)
  pure (s.cache.snapshot, s.rt)

/-- The rows from `block_start` on of a prefix state that ends with the block. -/
def encodeLayerKvBlockFromPrefixState (pfx : String) (state : LayerKvCachePrefixState)
    (blockStart blockTokenCount : ℕ) (sink : NativeTextDiskCacheTensorSink) (rt : Statics) :
    DiskResult (NativeTextDiskFullAttentionLayout × NativeTextDiskCacheTensorSink × Statics) := do
  let (snapshot, rt) ← snapshotOfPrefixState K state rt
  let prefixEnd ← okOrElse (checkedAdd blockStart blockTokenCount) "disk cache block range overflow"
  if prefixEnd > snapshot.tokenCount then
    throw (integrity "KV block range exceeds retained prefix state")
  let vectorLen ← okOrElse (checkedMul snapshot.keyValueHeads snapshot.headDim)
    "KV block vector shape overflow"
  let start ← okOrElse (checkedMul blockStart vectorLen) "KV block start overflow"
  let stop ← okOrElse (checkedMul prefixEnd vectorLen) "KV block end overflow"
  let (layout, sink) ← encodeLayerKvSnapshot pfx { snapshot with
    tokenCount := blockTokenCount, tokensSeen := prefixEnd
    keys := slice snapshot.keys start stop, values := slice snapshot.values start stop } sink
  pure (layout, sink, rt)

/-- What the assembly has put together so far. -/
structure AssembledRows where
  revision : ℕ
  tokenCount : ℕ
  keys : List F32
  values : List F32

/-- The loop of `assemble_layer_kv_prefix_state_blocks` after the first block. -/
def assembleRows (first : LayerKvCacheSnapshot) : List LayerKvCachePrefixState → AssembledRows →
    Statics → DiskResult (AssembledRows × Statics)
  | [], rows, rt => pure (rows, rt)
  | state :: states, rows, rt => do
    let (snapshot, rt) ← snapshotOfPrefixState K state rt
    if snapshot.config ≠ first.config ∨ snapshot.maxTokens ≠ first.maxTokens ∨
        snapshot.keyValueHeads ≠ first.keyValueHeads ∨ snapshot.headDim ≠ first.headDim then
      throw (integrity "incompatible KV block shapes")
    let tokenCount ← okOrElse (checkedAdd rows.tokenCount snapshot.tokenCount)
      "KV block token count overflow"
    assembleRows first states {
      revision := snapshot.revision, tokenCount
      keys := rows.keys ++ snapshot.keys, values := rows.values ++ snapshot.values } rt

def assembleLayerKvPrefixStateBlocks (states : List LayerKvCachePrefixState) (rt : Statics) :
    DiskResult (LayerKvCachePrefixState × Statics) :=
  match states with
  | [] => .error (integrity "missing KV block state")
  | state :: states => do
    let (first, rt) ← snapshotOfPrefixState K state rt
    let (rows, rt) ← assembleRows K first states
      ⟨first.revision, first.tokenCount, first.keys, first.values⟩ rt
    if rows.tokenCount > first.maxTokens then
      throw (integrity "assembled KV prefix exceeds cache capacity")
    let s ← ofKvCache (LayerKvCache.fromSnapshot K { first with
      revision := rows.revision, tokenCount := rows.tokenCount, tokensSeen := rows.tokenCount
      keys := rows.keys, values := rows.values } rt)
    pure (s.cache.prefixCacheState, s.rt)

/-- `from_snapshot` and `prefix_cache_state` of a layer of rows that was read. -/
def decodeLayerKvPrefixState (layout : NativeTextDiskFullAttentionLayout)
    (archive : NativeTextDiskCacheTensorArchive) (rt : Statics) :
    DiskResult (LayerKvCachePrefixState × Statics) := do
  let (snapshot, rt) ← decodeLayerKvSnapshot layout archive rt
  let s ← ofKvCache (LayerKvCache.fromSnapshot K snapshot rt)
  pure (s.cache.prefixCacheState, s.rt)

end Rows

/-- The loop of `validate_contiguous_disk_blocks`. -/
def validateContiguousFrom {S : Type} : ℕ → List (NativeTextDiskCacheStateBlock S) → DiskResult Unit
  | _, [] => pure ()
  | expectedStart, block :: blocks => do
    if block.blockStart ≠ expectedStart then
      throw (integrity "disk cache blocks are not contiguous")
    let expectedStart ← okOrElse (checkedAdd expectedStart block.tokenCount)
      "disk cache block range overflow"
    validateContiguousFrom expectedStart blocks

def validateContiguousDiskBlocks {S : Type} (blocks : List (NativeTextDiskCacheStateBlock S)) :
    DiskResult Unit := validateContiguousFrom 0 blocks

/-! ### The model families -/

/-- `NativeTextDiskCacheValue`: what a family does with its layers. -/
structure NativeTextDiskCacheValue (S : Type) where
  encodeDiskBlockStates : (states : List S) → (blockStart blockTokenCount : ℕ) →
    NativeTextDiskCacheTensorSink → Statics →
    DiskResult (List NativeTextDiskCacheLayerLayout × NativeTextDiskCacheTensorSink × Statics)
  decodeDiskStates : List NativeTextDiskCacheLayerLayout → NativeTextDiskCacheTensorArchive →
    Statics → DiskResult (List S × Statics)
  assembleDiskBlockStates : List (NativeTextDiskCacheStateBlock S) → Statics →
    DiskResult (List S × Statics)

section Families

variable (K : QuantKernels)

/-- The states of layer `layerIdx` in all blocks, as the family reads them. -/
def layerStates {S : Type} (read : S → Option LayerKvCachePrefixState) (layerCount layerIdx : ℕ)
    (countText kindText : String) (blocks : List (NativeTextDiskCacheStateBlock S)) :
    DiskResult (List LayerKvCachePrefixState) :=
  blocks.mapM fun block => do
    if block.states.length ≠ layerCount then throw (integrity countText)
    okOrElse (block.states[layerIdx]?.bind read) kindText

def encodeQwenLayer (blockStart blockTokenCount : ℕ) (layer : QwenLayerCachePrefixState × ℕ)
    (s : NativeTextDiskCacheTensorSink × Statics) : DiskResult
    (NativeTextDiskCacheLayerLayout × NativeTextDiskCacheTensorSink × Statics) :=
  match layer with
  | (.full state, layerIdx) => do
    let (layout, sink, rt) ← encodeLayerKvBlockFromPrefixState K
      ("layers." ++ toString layerIdx ++ ".full") state blockStart blockTokenCount s.1 s.2
    pure (.qwenFull layout, sink, rt)
  | (.linear snapshot, layerIdx) => do
    let prefixEnd ← okOrElse (checkedAdd blockStart blockTokenCount) "linear block range overflow"
    if snapshot.tokenCount ≠ prefixEnd then
      throw (integrity "linear attention snapshot is not at the block boundary")
    let (layout, sink) ← encodeLinearAttentionSnapshot
      ("layers." ++ toString layerIdx ++ ".linear") snapshot s.1
    pure (.qwenLinear layout, sink, s.2)

def decodeQwenLayer (archive : NativeTextDiskCacheTensorArchive)
    (layout : NativeTextDiskCacheLayerLayout) (rt : Statics) :
    DiskResult (QwenLayerCachePrefixState × Statics) :=
  match layout with
  | .qwenFull layout => do
    let (state, rt) ← decodeLayerKvPrefixState K layout archive rt
    pure (.full state, rt)
  | .qwenLinear layout => do
    let snapshot ← decodeLinearAttentionSnapshot layout archive
    pure (.linear snapshot, rt)
  | .gemmaFull _ => throw (integrity "non-Qwen layer layout in Qwen disk cache block")

def QwenLayerCachePrefixState.full? : QwenLayerCachePrefixState → Option LayerKvCachePrefixState
  | .full state => some state
  | .linear _ => none

/-- The round of `assemble_disk_block_states` for one layer. -/
def assembleQwenLayer (first : NativeTextDiskCacheStateBlock QwenLayerCachePrefixState)
    (blocks : List (NativeTextDiskCacheStateBlock QwenLayerCachePrefixState)) (layerIdx : ℕ)
    (rt : Statics) : DiskResult (QwenLayerCachePrefixState × Statics) := do
  match ← okOrElse first.states[layerIdx]? "missing Qwen disk block layer" with
  | .full _ => do
    let states ← layerStates QwenLayerCachePrefixState.full? first.states.length layerIdx
      "inconsistent Qwen disk block layer count" "mixed Qwen disk block layer layout" blocks
    let (state, rt) ← assembleLayerKvPrefixStateBlocks K states rt
    pure (.full state, rt)
  | .linear _ =>
    match blocks.getLast?.bind (·.states[layerIdx]?) with
    | some (.linear snapshot) => pure (.linear snapshot, rt)
    | _ => throw (integrity "missing Qwen linear disk block terminal state")

/-- `impl NativeTextDiskCacheValue for QwenLayerCache` -/
def qwenDiskCacheValue : NativeTextDiskCacheValue QwenLayerCachePrefixState where
  encodeDiskBlockStates states blockStart blockTokenCount sink rt :=
    traverseWith (encodeQwenLayer K blockStart blockTokenCount) states.zipIdx (sink, rt)
  decodeDiskStates layouts archive rt := traverseWith (decodeQwenLayer K archive) layouts rt
  assembleDiskBlockStates blocks rt := do
    validateContiguousDiskBlocks blocks
    match blocks with
    | [] => pure ([], rt)
    | first :: _ =>
      traverseWith (assembleQwenLayer K first blocks) (List.range first.states.length) rt

def encodeGemmaLayer (blockStart blockTokenCount : ℕ) (layer : GemmaLayerCachePrefixState × ℕ)
    (s : NativeTextDiskCacheTensorSink × Statics) : DiskResult
    (NativeTextDiskCacheLayerLayout × NativeTextDiskCacheTensorSink × Statics) :=
  match layer with
  | (.attention state, layerIdx) => do
    let (layout, sink, rt) ← encodeLayerKvBlockFromPrefixState K
      ("layers." ++ toString layerIdx ++ ".attention") state blockStart blockTokenCount s.1 s.2
    pure (.gemmaFull layout, sink, rt)

def decodeGemmaLayer (archive : NativeTextDiskCacheTensorArchive)
    (layout : NativeTextDiskCacheLayerLayout) (rt : Statics) :
    DiskResult (GemmaLayerCachePrefixState × Statics) :=
  match layout with
  | .gemmaFull layout => do
    let (state, rt) ← decodeLayerKvPrefixState K layout archive rt
    pure (.attention state, rt)
  | _ => throw (integrity "non-Gemma layer layout in Gemma disk cache block")

def GemmaLayerCachePrefixState.attention? :
    GemmaLayerCachePrefixState → Option LayerKvCachePrefixState
  | .attention state => some state

def assembleGemmaLayer (layerCount : ℕ)
    (blocks : List (NativeTextDiskCacheStateBlock GemmaLayerCachePrefixState)) (layerIdx : ℕ)
    (rt : Statics) : DiskResult (GemmaLayerCachePrefixState × Statics) := do
  let states ← layerStates GemmaLayerCachePrefixState.attention? layerCount layerIdx
    "inconsistent Gemma disk block layer count" "mixed Gemma disk block layer layout" blocks
  let (state, rt) ← assembleLayerKvPrefixStateBlocks K states rt
  pure (.attention state, rt)

/-- `impl NativeTextDiskCacheValue for GemmaLayerCache` -/
def gemmaDiskCacheValue : NativeTextDiskCacheValue GemmaLayerCachePrefixState where
  encodeDiskBlockStates states blockStart blockTokenCount sink rt :=
    traverseWith (encodeGemmaLayer K blockStart blockTokenCount) states.zipIdx (sink, rt)
  decodeDiskStates layouts archive rt := traverseWith (decodeGemmaLayer K archive) layouts rt
  assembleDiskBlockStates blocks rt := do
    validateContiguousDiskBlocks blocks
    match blocks with
    | [] => pure ([], rt)
    | first :: _ =>
      traverseWith (assembleGemmaLayer K first.states.length blocks) (List.range first.states.length) rt

end Families

/-! ### Blocks -/

structure NativeTextDiskCacheIdentity where
  modelHash : String
  snapshotHash : String
  modelFamily : String
  allowedNamespaceHash : Option String
deriving DecidableEq, Repr

structure NativeTextDiskCacheBlockDescriptor where
  modelHash : String
  snapshotHash : String
  modelFamily : String
  namespaceHash : String
  previousBlockHash : String
  blockHash : String
  blockStart : ℕ
  tokenCount : ℕ
  cacheLayoutVersion : ℕ
deriving DecidableEq, Repr

def nativeTextDiskCacheCodec : String := "kir-ai-native-text-prefix-block"

def nativeTextDiskCacheLayoutVersion : ℕ := 2

/-- The checks that a descriptor and the metadata of a block go through alike. -/
def validateHashes (modelHash snapshotHash modelFamily namespaceHash : String)
    (identity : NativeTextDiskCacheIdentity) : DiskResult Unit := do
  if modelHash ≠ identity.modelHash then throw (integrity "model hash mismatch")
  if snapshotHash ≠ identity.snapshotHash then throw (integrity "snapshot hash mismatch")
  if modelFamily ≠ identity.modelFamily then throw (integrity "model family mismatch")
  if identity.allowedNamespaceHash.any (namespaceHash ≠ ·) then
    throw (integrity "namespace hash mismatch")

def NativeTextDiskCacheBlockDescriptor.validateForIdentity
    (descriptor : NativeTextDiskCacheBlockDescriptor) (identity : NativeTextDiskCacheIdentity) :
    DiskResult Unit :=
  validateHashes descriptor.modelHash descriptor.snapshotHash descriptor.modelFamily
    descriptor.namespaceHash identity

def validateMetadataCodecAndLayout (metadata : NativeTextDiskCacheBlockMetadata) : DiskResult Unit := do
  if metadata.codec ≠ nativeTextDiskCacheCodec then throw (integrity "unsupported disk cache codec")
  if metadata.layoutVersion ≠ nativeTextDiskCacheLayoutVersion then
    throw (integrity "unsupported disk cache layout version")

def validateMetadataForIdentity (metadata : NativeTextDiskCacheBlockMetadata)
    (identity : NativeTextDiskCacheIdentity) : DiskResult Unit := do
  validateMetadataCodecAndLayout metadata
  validateHashes metadata.modelHash metadata.snapshotHash metadata.modelFamily
    metadata.namespaceHash identity

structure NativeTextDiskCacheBlock (S : Type) where
  blockStart : ℕ
  tokenCount : ℕ
  hidden : List F32
  states : List S

namespace NativeTextDiskCacheBlock

variable {S : Type} (C : NativeTextDiskCacheValue S) (J : SerdeJson)

def encode (descriptor : NativeTextDiskCacheBlockDescriptor) (hidden : List F32) (states : List S)
    (rt : Statics) : DiskResult (List Byte × Statics) := do
  let sink ← NativeTextDiskCacheTensorSink.default.pushF32 "hidden" [hidden.length] hidden
  let (layers, sink, rt) ← C.encodeDiskBlockStates states descriptor.blockStart
    descriptor.tokenCount sink rt
  let bytes ← encodeSafetensors J {
    codec := nativeTextDiskCacheCodec, layoutVersion := nativeTextDiskCacheLayoutVersion
    cacheLayoutVersion := descriptor.cacheLayoutVersion, modelFamily := descriptor.modelFamily
    modelHash := descriptor.modelHash, snapshotHash := descriptor.snapshotHash
    namespaceHash := descriptor.namespaceHash, previousBlockHash := descriptor.previousBlockHash
    blockHash := descriptor.blockHash, blockStart := descriptor.blockStart
    tokenCount := descriptor.tokenCount, hiddenShape := [hidden.length], layers } sink.tensors
  pure (bytes, rt)

def decode (bytes : List Byte) (identity : NativeTextDiskCacheIdentity)
    (descriptor : NativeTextDiskCacheBlockDescriptor) (rt : Statics) :
    DiskResult (NativeTextDiskCacheBlock S × Statics) := do
  let (metadata, archive) ← NativeTextDiskCacheTensorArchive.fromBytes J bytes
  if metadata.namespaceHash ≠ descriptor.namespaceHash ∨
      metadata.previousBlockHash ≠ descriptor.previousBlockHash ∨
      metadata.blockHash ≠ descriptor.blockHash ∨ metadata.blockStart ≠ descriptor.blockStart ∨
      metadata.tokenCount ≠ descriptor.tokenCount then
    throw (integrity "disk cache block descriptor mismatch")
  descriptor.validateForIdentity identity
  validateMetadataForIdentity metadata identity
  if metadata.cacheLayoutVersion ≠ descriptor.cacheLayoutVersion then
    throw (integrity "cache layout version mismatch")
  let hidden ← archive.f32Tensor "hidden"
  if metadata.hiddenShape ≠ [hidden.length] then
    throw (integrity "hidden tensor shape does not match metadata")
  let (states, rt) ← C.decodeDiskStates metadata.layers archive rt
  pure ({ blockStart := metadata.blockStart, tokenCount := metadata.tokenCount, hidden, states }, rt)

/-- What the assembly takes of a block. -/
def stateBlock (block : NativeTextDiskCacheBlock S) : NativeTextDiskCacheStateBlock S where
  blockStart := block.blockStart
  tokenCount := block.tokenCount
  states := block.states

end NativeTextDiskCacheBlock

end KirAi.NativeRuntime
