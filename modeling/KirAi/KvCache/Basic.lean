/-
# The KV cache crate: values, errors and process-wide counters

What every part of `llm-kv-cache` shares: the error type of `lib.rs`, the cache
formats of `format.rs`, single-precision values by their bits, and the
counters behind block ids, cache ids and `Arc` allocations.

An `Arc` is its allocation's address with the value stored there. How many
handles an allocation has is not stored anywhere: it is the number of handles
that are alive, so an operation is given the number of handles held by others
(`Shares`), and `Arc.strongCount` adds the handle at hand.
-/
import KirAi.Lib.Machine

namespace KirAi.KvCache

open Lib

/-- A single-precision value, by its bits. Arithmetic on it is never needed
here: the kernels that compute are parameters. -/
structure F32 where
  bits : BitVec 32
deriving DecidableEq, Repr

def F32.zero : F32 := ⟨0⟩

/-- Neither an infinity nor a NaN: the exponent is not all ones. -/
def F32.isFinite (x : F32) : Bool := x.bits.extractLsb' 23 8 ≠ 255#8

inductive KvCacheFormat where
  | f32
  | f16
  | int8
  | asymmetricVq
deriving DecidableEq, Repr

inductive KvCacheValueQuantizationBits where
  | three
  | four
  | eight
deriving DecidableEq, Repr

structure AsymmetricVqCacheConfig where
  valueBits : KvCacheValueQuantizationBits
deriving DecidableEq, Repr

structure KvCacheConfig where
  format : KvCacheFormat
  asymmetricVq : Option AsymmetricVqCacheConfig
deriving DecidableEq, Repr

namespace KvCacheConfig

def f32 : KvCacheConfig := ⟨.f32, none⟩

def f16 : KvCacheConfig := ⟨.f16, none⟩

def int8 : KvCacheConfig := ⟨.int8, none⟩

def asymmetricVqConfig (config : AsymmetricVqCacheConfig) : KvCacheConfig :=
  ⟨.asymmetricVq, some config⟩

end KvCacheConfig

inductive KvCacheError where
  | capacityExceeded (requested available : ℕ)
  | shapeMismatch (expected actual : ℕ)
  | unsupportedFormat (format : KvCacheFormat)
  | nonFiniteValue
  | invalidShape
deriving DecidableEq, Repr

def KvCacheFormat.display : KvCacheFormat → String
  | f32 => "f32"
  | f16 => "f16"
  | int8 => "int8"
  | asymmetricVq => "asymmetric_vq"

def KvCacheError.display : KvCacheError → String
  | capacityExceeded requested available =>
    "KV cache capacity exceeded: requested " ++ toString requested ++ " tokens, " ++
      toString available ++ " available"
  | shapeMismatch expected actual =>
    "KV cache shape mismatch: expected " ++ toString expected ++ " values, got " ++ toString actual
  | unsupportedFormat format => "KV cache format " ++ format.display ++ " is not supported"
  | nonFiniteValue => "KV cache values must be finite"
  | invalidShape => "KV cache shape must be non-zero and fit usize"

/-- A block id; `0` is `BlockId::INVALID`. -/
abbrev BlockId := ℕ

def BlockId.isInvalid (b : BlockId) : Bool := b = 0

/-- The 32 bytes of a content hash. -/
abbrev CacheBlockHash := BitVec 256

/-- The address of an `Arc` allocation. -/
abbrev ArcPtr := ℕ

/-- The process-wide counters: `NEXT_BLOCK_ID`, `NEXT_CACHE_ID`, and the next
address the allocator hands out. -/
structure Statics where
  nextBlockId : ℕ
  nextCacheId : ℕ
  nextArc : ArcPtr
  nextBlockId_pos : 0 < nextBlockId

/-- The counters of a process that has just started. -/
def Statics.initial : Statics := ⟨1, 1, 0, by decide⟩

/-- `BlockId::next`: the counter's old value, an error when it cannot grow. -/
def BlockId.next (rt : Statics) : Except KvCacheError (BlockId × Statics) :=
  match checkedAdd rt.nextBlockId 1 with
  | some next => .ok (rt.nextBlockId, { rt with
      nextBlockId := if next = 0 then 1 else next
      nextBlockId_pos := by split <;> omega })
  | none => .error .invalidShape

/-- `next_cache_id`: a wrapping `fetch_add`. -/
def nextCacheId (rt : Statics) : ℕ × Statics :=
  (rt.nextCacheId, { rt with nextCacheId := (rt.nextCacheId + 1) % (wordMax + 1) })

/-- How many other handles each allocation has. -/
abbrev Shares := ArcPtr → ℕ

/-- A handle of a shared allocation. -/
structure Arc (α : Type) where
  ptr : ArcPtr
  val : α
deriving DecidableEq, Repr

namespace Arc

variable {α : Type}

/-- `Arc::new`: a fresh allocation. -/
def new (val : α) (rt : Statics) : Arc α × Statics :=
  (⟨rt.nextArc, val⟩, { rt with nextArc := rt.nextArc + 1 })

def strongCount (shares : Shares) (a : Arc α) : ℕ := shares a.ptr + 1

/-- `Arc::make_mut` followed by the write `f`: in place when this is the only
handle, else in a fresh copy. -/
def makeMut (shares : Shares) (a : Arc α) (f : α → α) (rt : Statics) : Arc α × Statics :=
  if a.strongCount shares > 1 then new (f a.val) rt else (⟨a.ptr, f a.val⟩, rt)

@[simp] theorem makeMut_val (shares : Shares) (a : Arc α) (f : α → α) (rt : Statics) :
    (a.makeMut shares f rt).1.val = f a.val := by
  unfold makeMut new
  split <;> rfl

@[simp] theorem makeMut_nextBlockId (shares : Shares) (a : Arc α) (f : α → α) (rt : Statics) :
    (a.makeMut shares f rt).2.nextBlockId = rt.nextBlockId := by
  unfold makeMut new
  split <;> rfl

end Arc

theorem BlockId.next_ok {rt rt' : Statics} {b : BlockId} (h : BlockId.next rt = .ok (b, rt')) :
    b = rt.nextBlockId ∧ rt'.nextBlockId = rt.nextBlockId + 1 ∧ rt'.nextArc = rt.nextArc ∧
      rt'.nextCacheId = rt.nextCacheId := by
  unfold BlockId.next at h
  split at h
  · rename_i next hn
    obtain ⟨-, rfl⟩ := checkedAdd_eq_some.mp hn
    obtain ⟨rfl, rfl⟩ := Prod.mk.inj (Except.ok.inj h)
    simp
  · cases h

end KirAi.KvCache
