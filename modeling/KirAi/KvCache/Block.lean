/-
# Cache blocks

`block.rs`: a block of `capacity_tokens` rows of keys and values in a shared
allocation, with the identity (`id`, `revision`, `shared`) under which mirrors
know its contents and the reference count under which the pool knows its
owners.

Key definitions: `CacheBlock.append`, `CacheBlock.writeAt`, `CacheBlock.clear`,
`CacheBlock.ensureExclusiveIdentity`, `CacheBlock.clone`, `RetainedCacheBlock`.
-/
import KirAi.KvCache.Basic
import KirAi.Lib.Except
import KirAi.Lib.Slice

namespace KirAi.KvCache

open Lib

/-- The rows of a block, flat: row `i` of keys starts at `i * vector_len`. -/
structure CacheBlockStorage where
  keys : List F32
  values : List F32
deriving DecidableEq, Repr

namespace CacheBlockStorage

def new (storageLen : ℕ) : CacheBlockStorage :=
  ⟨List.replicate storageLen F32.zero, List.replicate storageLen F32.zero⟩

def fillZero (s : CacheBlockStorage) : CacheBlockStorage :=
  ⟨s.keys.map fun _ => F32.zero, s.values.map fun _ => F32.zero⟩

/-- `copy_from_slice` of a key row and a value row at `start`. -/
def copyRows (s : CacheBlockStorage) (start : ℕ) (key value : List F32) : CacheBlockStorage :=
  ⟨splice s.keys start key, splice s.values start value⟩

end CacheBlockStorage

structure CacheBlock where
  id : BlockId
  revision : ℕ
  shared : Bool
  capacityTokens : ℕ
  vectorLen : ℕ
  tokenCount : ℕ
  refCount : ℕ
  contentHash : Option CacheBlockHash
  lastAccess : ℕ
  storage : Arc CacheBlockStorage
deriving DecidableEq, Repr

/-- What a prefix state keeps of a block: another handle of its storage. -/
structure RetainedCacheBlock where
  id : BlockId
  revision : ℕ
  capacityTokens : ℕ
  vectorLen : ℕ
  tokenCount : ℕ
  contentHash : Option CacheBlockHash
  storage : Arc CacheBlockStorage
deriving DecidableEq, Repr

/-- The largest `f32` vector the allocator serves: `isize::MAX` bytes. -/
def vecF32Max : ℕ := (2 ^ 63 - 1) / 4

namespace CacheBlock

/-- `vec![0.0; n]` panics past `vecF32Max` elements; a caller that gets a block
has not panicked, so the model answers with an error there. -/
def new (capacityTokens vectorLen : ℕ) (rt : Statics) :
    Except KvCacheError (CacheBlock × Statics) := do
  if capacityTokens = 0 ∨ vectorLen = 0 then throw .invalidShape
  let some storageLen := checkedMul capacityTokens vectorLen | throw .invalidShape
  let (id, rt) ← BlockId.next rt
  if storageLen > vecF32Max then throw .invalidShape
  let (storage, rt) := Arc.new (CacheBlockStorage.new storageLen) rt
  pure ({
    id, revision := 0, shared := false, capacityTokens, vectorLen, tokenCount := 0,
    refCount := 0, contentHash := none, lastAccess := 0, storage }, rt)

def ensureExclusiveIdentity (shares : Shares) (b : CacheBlock) (rt : Statics) :
    Except KvCacheError (CacheBlock × Statics) :=
  if b.shared ∨ b.storage.strongCount shares > 1 then do
    let (id, rt) ← BlockId.next rt
    pure ({ b with id, shared := false }, rt)
  else pure (b, rt)

def fromRetained (retained : RetainedCacheBlock) : Except KvCacheError CacheBlock := do
  if retained.capacityTokens = 0 ∨ retained.vectorLen = 0 ∨
      retained.tokenCount > retained.capacityTokens then
    throw .invalidShape
  let some expectedLen := checkedMul retained.capacityTokens retained.vectorLen
    | throw .invalidShape
  if retained.storage.val.keys.length ≠ expectedLen ∨
      retained.storage.val.values.length ≠ expectedLen then
    throw .invalidShape
  pure {
    id := retained.id, revision := retained.revision, shared := true,
    capacityTokens := retained.capacityTokens, vectorLen := retained.vectorLen,
    tokenCount := retained.tokenCount, refCount := 0, contentHash := retained.contentHash,
    lastAccess := 0, storage := retained.storage }

def isFull (b : CacheBlock) : Bool := b.tokenCount = b.capacityTokens

def retainStorage (b : CacheBlock) : RetainedCacheBlock :=
  ⟨b.id, b.revision, b.capacityTokens, b.vectorLen, b.tokenCount, b.contentHash, b.storage⟩

def incrementRefCount (b : CacheBlock) : CacheBlock := { b with refCount := satAdd b.refCount 1 }

def decrementRefCount (b : CacheBlock) : CacheBlock := { b with refCount := b.refCount - 1 }

def setContentHash (b : CacheBlock) (contentHash : Option CacheBlockHash) : CacheBlock :=
  { b with contentHash }

def touch (b : CacheBlock) (lastAccess : ℕ) : CacheBlock := { b with lastAccess }

def validateTokenShape (b : CacheBlock) (key value : List F32) : Except KvCacheError Unit := do
  if key.length ≠ b.vectorLen then throw (.shapeMismatch b.vectorLen key.length)
  if value.length ≠ b.vectorLen then throw (.shapeMismatch b.vectorLen value.length)

def append (shares : Shares) (b : CacheBlock) (key value : List F32) (rt : Statics) :
    Except KvCacheError (ℕ × CacheBlock × Statics) := do
  b.validateTokenShape key value
  if b.isFull then throw (.capacityExceeded 1 0)
  let tokenIndex := b.tokenCount
  let start := tokenIndex * b.vectorLen
  let (storage, rt) := b.storage.makeMut shares (·.copyRows start key value) rt
  pure (tokenIndex, { b with
    storage, tokenCount := b.tokenCount + 1, contentHash := none,
    revision := satAdd b.revision 1 }, rt)

def writeAt (shares : Shares) (b : CacheBlock) (tokenIndex : ℕ) (key value : List F32)
    (rt : Statics) : Except KvCacheError (CacheBlock × Statics) := do
  b.validateTokenShape key value
  if tokenIndex ≥ b.tokenCount then throw .invalidShape
  let start := tokenIndex * b.vectorLen
  let (storage, rt) := b.storage.makeMut shares (·.copyRows start key value) rt
  pure ({ b with storage, contentHash := none, revision := satAdd b.revision 1 }, rt)

/-- Row `tokenIndex` of one of the two buffers, while it is in use. -/
def tokenSlice (b : CacheBlock) (storage : List F32) (tokenIndex : ℕ) : Option (List F32) :=
  if tokenIndex ≥ b.tokenCount then none else some (row storage b.vectorLen tokenIndex)

def key (b : CacheBlock) (tokenIndex : ℕ) : Option (List F32) :=
  b.tokenSlice b.storage.val.keys tokenIndex

def value (b : CacheBlock) (tokenIndex : ℕ) : Option (List F32) :=
  b.tokenSlice b.storage.val.values tokenIndex

def usedLen (b : CacheBlock) : ℕ := b.tokenCount * b.vectorLen

def keys (b : CacheBlock) : List F32 := b.storage.val.keys.take b.usedLen

def values (b : CacheBlock) : List F32 := b.storage.val.values.take b.usedLen

/-- A block whose storage others still hold gets a storage of its own and stays
`shared`; one that holds the only handle is zeroed in place and is not. -/
def clear (shares : Shares) (b : CacheBlock) (rt : Statics) : CacheBlock × Statics :=
  if b.storage.strongCount shares > 1 then
    let (storage, rt) := Arc.new (CacheBlockStorage.new b.storage.val.keys.length) rt
    ({ b with
      tokenCount := 0, refCount := 0, contentHash := none, lastAccess := 0, storage,
      shared := true, revision := satAdd b.revision 1 }, rt)
  else
    let (storage, rt) := b.storage.makeMut shares CacheBlockStorage.fillZero rt
    ({ b with
      tokenCount := 0, refCount := 0, contentHash := none, lastAccess := 0, storage,
      shared := false, revision := satAdd b.revision 1 }, rt)

def resetForAllocation (shares : Shares) (b : CacheBlock) (lastAccess : ℕ) (rt : Statics) :
    CacheBlock × Statics :=
  let (b, rt) := b.clear shares rt
  ({ b with refCount := 1, lastAccess }, rt)

def copyContentsFrom (shares : Shares) (b source : CacheBlock) (lastAccess : ℕ) (rt : Statics) :
    Except KvCacheError (CacheBlock × Statics) := do
  if b.capacityTokens ≠ source.capacityTokens ∨ b.vectorLen ≠ source.vectorLen then
    throw .invalidShape
  let (storage, rt) := b.storage.makeMut shares (fun _ => source.storage.val) rt
  pure ({ b with
    tokenCount := source.tokenCount, refCount := 1, contentHash := source.contentHash,
    lastAccess, storage, revision := satAdd b.revision 1 }, rt)

/-- `Clone`: the clone shares the storage and knows it; the original does not. -/
def clone (b : CacheBlock) : CacheBlock := { b with shared := true }

/-! ### What the operations keep -/

variable {shares : Shares} {b b' : CacheBlock} {rt rt' : Statics}

@[simp] theorem clear_id : (b.clear shares rt).1.id = b.id := by
  unfold clear
  split <;> rfl

@[simp] theorem clear_refCount : (b.clear shares rt).1.refCount = 0 := by
  unfold clear
  split <;> rfl

@[simp] theorem resetForAllocation_id (access : ℕ) :
    (b.resetForAllocation shares access rt).1.id = b.id := by
  simp [resetForAllocation]

@[simp] theorem resetForAllocation_refCount (access : ℕ) :
    (b.resetForAllocation shares access rt).1.refCount = 1 := rfl

theorem validateTokenShape_ok {key value : List F32} {u : Unit} :
    b.validateTokenShape key value = .ok u ↔
      key.length = b.vectorLen ∧ value.length = b.vectorLen := by
  simp [validateTokenShape]

/-- What a successful append is. -/
theorem append_ok {key value : List F32} {i : ℕ} (h : b.append shares key value rt = .ok (i, b', rt')) :
    key.length = b.vectorLen ∧ value.length = b.vectorLen ∧
      b.tokenCount ≠ b.capacityTokens ∧ i = b.tokenCount ∧ ∃ storage,
      b.storage.makeMut shares (·.copyRows (b.tokenCount * b.vectorLen) key value) rt =
        (storage, rt') ∧
      b' = { b with
        storage, tokenCount := b.tokenCount + 1, contentHash := none,
        revision := satAdd b.revision 1 } := by
  simp only [append, bind_eq_ok, validateTokenShape_ok, isFull, decide_eq_true_eq, throw_bind,
    guard_eq_ok, pure_eq_ok, Prod.mk.injEq] at h
  obtain ⟨-, ⟨hk, hv⟩, hf, rfl, rfl, rfl⟩ := h
  exact ⟨hk, hv, hf, rfl, _, rfl, rfl⟩

variable (shares rt) in
/-- Appends and writes of a row of the block's width succeed where there is
room for it. -/
theorem append_succeeds {key value : List F32} (hk : key.length = b.vectorLen)
    (hv : value.length = b.vectorLen) (hf : b.tokenCount ≠ b.capacityTokens) :
    ∃ r, b.append shares key value rt = .ok r := by
  have hs : b.validateTokenShape key value = .ok () := validateTokenShape_ok.mpr ⟨hk, hv⟩
  exact ⟨_, by simp only [append, hs, ok_bind, isFull, hf, decide_false, Bool.false_eq_true,
    ↓reduceIte]; rfl⟩

variable (shares rt) in
theorem writeAt_succeeds {key value : List F32} {i : ℕ} (hk : key.length = b.vectorLen)
    (hv : value.length = b.vectorLen) (hi : i < b.tokenCount) :
    ∃ r, b.writeAt shares i key value rt = .ok r := by
  have hs : b.validateTokenShape key value = .ok () := validateTokenShape_ok.mpr ⟨hk, hv⟩
  exact ⟨_, by simp only [writeAt, hs, ok_bind, if_neg (show ¬ i ≥ b.tokenCount by omega)]; rfl⟩

theorem copyContentsFrom_ok {source : CacheBlock} {access : ℕ}
    (h : b.copyContentsFrom shares source access rt = .ok (b', rt')) :
    b'.id = b.id ∧ b'.refCount = 1 := by
  simp only [copyContentsFrom, throw_bind, guard_eq_ok, pure_eq_ok, Prod.mk.injEq] at h
  obtain ⟨-, rfl, -⟩ := h
  exact ⟨rfl, rfl⟩

theorem new_ok {capacityTokens vectorLen : ℕ} (h : new capacityTokens vectorLen rt = .ok (b, rt')) :
    0 < capacityTokens ∧ 0 < vectorLen ∧ b.id = rt.nextBlockId ∧ b.revision = 0 ∧
      b.shared = false ∧ b.capacityTokens = capacityTokens ∧ b.vectorLen = vectorLen ∧
      b.tokenCount = 0 ∧ b.refCount = 0 ∧ b.contentHash = none ∧
      b.storage = ⟨rt.nextArc, CacheBlockStorage.new (capacityTokens * vectorLen)⟩ ∧
      capacityTokens * vectorLen ≤ vecF32Max ∧
      rt'.nextBlockId = rt.nextBlockId + 1 ∧ rt'.nextArc = rt.nextArc + 1 := by
  cases hm : checkedMul capacityTokens vectorLen with
  | none => simp [new, hm] at h
  | some n =>
    obtain ⟨-, rfl⟩ := checkedMul_eq_some.mp hm
    simp only [new, hm, throw_bind, guard_eq_ok, bind_eq_ok, pure_eq_ok, Prod.mk.injEq,
      Arc.new] at h
    obtain ⟨h0, ⟨id, rt1⟩, hn, hv, rfl, rfl⟩ := h
    obtain ⟨rfl, h1, h2, -⟩ := BlockId.next_ok hn
    exact ⟨by omega, by omega, rfl, rfl, rfl, rfl, rfl, rfl, rfl, rfl, by rw [h2], by omega, h1,
      by rw [h2]⟩

end CacheBlock

end KirAi.KvCache
