/-
# The cache of a linear attention layer

`linear.rs`: the last inputs of the convolution and the recurrent state, both of
a size that the shape fixes. The cache carries the proofs of these sizes, so an
operation that is given data of another size has to answer with an error.

Key definitions: `LinearAttentionCache.new`, `LinearAttentionCache.pushConvInput`,
`LinearAttentionCache.replaceRecurrentState`, `LinearAttentionCache.snapshot`,
`LinearAttentionCache.fromSnapshot`.
-/
import KirAi.KvCache.Block

namespace KirAi.KvCache

open Lib

/-- A shape of which both buffers can be allocated. -/
structure LinearShape where
  convKernelSize : ℕ
  convDim : ℕ
  numValueHeads : ℕ
  keyHeadDim : ℕ
  valueHeadDim : ℕ
deriving DecidableEq, Repr

namespace LinearShape

def convLen (d : LinearShape) : ℕ := d.convKernelSize * d.convDim

def recurrentStateLen (d : LinearShape) : ℕ := d.numValueHeads * d.keyHeadDim * d.valueHeadDim

/-- What `LinearAttentionCache::new` checks: no dimension is zero, and no product
overflows. The buffers are vectors, so the allocator has to serve them too. -/
def Valid (d : LinearShape) : Prop :=
  d.convKernelSize ≠ 0 ∧ d.convDim ≠ 0 ∧ d.numValueHeads ≠ 0 ∧ d.keyHeadDim ≠ 0 ∧
    d.valueHeadDim ≠ 0 ∧ d.convLen ≤ vecF32Max ∧ d.recurrentStateLen ≤ vecF32Max

instance (d : LinearShape) : Decidable d.Valid := inferInstanceAs (Decidable (_ ∧ _))

end LinearShape

structure LinearAttentionCache where
  id : ℕ
  revision : ℕ
  shape : LinearShape
  tokenCount : ℕ
  convWindow : List F32
  recurrentState : List F32
  valid : shape.Valid
  convWindow_length : convWindow.length = shape.convLen
  recurrentState_length : recurrentState.length = shape.recurrentStateLen

/-- An owned copy, without the cache's identity. -/
structure LinearAttentionCacheSnapshot where
  revision : ℕ
  shape : LinearShape
  tokenCount : ℕ
  convWindow : List F32
  recurrentState : List F32
deriving DecidableEq, Repr

namespace LinearAttentionCache

variable (c : LinearAttentionCache)

def new (shape : LinearShape) (rt : Statics) :
    Except KvCacheError (LinearAttentionCache × Statics) :=
  if valid : shape.Valid then
    let (id, rt) := nextCacheId rt
    .ok ({
      id, revision := 0, shape, tokenCount := 0
      convWindow := List.replicate shape.convLen F32.zero
      recurrentState := List.replicate shape.recurrentStateLen F32.zero
      valid
      convWindow_length := List.length_replicate
      recurrentState_length := List.length_replicate }, rt)
  else .error .invalidShape

def clone (rt : Statics) : LinearAttentionCache × Statics :=
  let (id, rt) := nextCacheId rt
  ({ c with id }, rt)

def snapshot : LinearAttentionCacheSnapshot where
  revision := c.revision
  shape := c.shape
  tokenCount := c.tokenCount
  convWindow := c.convWindow
  recurrentState := c.recurrentState

def fromSnapshot (snap : LinearAttentionCacheSnapshot) (rt : Statics) :
    Except KvCacheError (LinearAttentionCache × Statics) := do
  let (cache, rt) ← new snap.shape rt
  if hc : snap.convWindow.length = cache.shape.convLen then
    if hr : snap.recurrentState.length = cache.shape.recurrentStateLen then
      pure ({ cache with
        revision := snap.revision, tokenCount := snap.tokenCount
        convWindow := snap.convWindow, recurrentState := snap.recurrentState
        convWindow_length := hc, recurrentState_length := hr }, rt)
    else throw (.shapeMismatch cache.shape.recurrentStateLen snap.recurrentState.length)
  else throw (.shapeMismatch cache.shape.convLen snap.convWindow.length)

/-- `copy_within` drops the oldest input, and the new one takes the place at the
end. -/
def pushConvInput (input : List F32) : Except KvCacheError LinearAttentionCache :=
  if h : input.length = c.shape.convDim then
    .ok { c with
      convWindow := c.convWindow.drop c.shape.convDim ++ input
      tokenCount := satAdd c.tokenCount 1, revision := satAdd c.revision 1
      convWindow_length := by
        have hle : c.shape.convDim ≤ c.shape.convLen :=
          Nat.le_mul_of_pos_left _ (Nat.pos_of_ne_zero c.valid.1)
        rw [List.length_append, List.length_drop, c.convWindow_length, h]
        omega }
  else .error (.shapeMismatch c.shape.convDim input.length)

def replaceRecurrentState (state : List F32) : Except KvCacheError LinearAttentionCache :=
  if h : state.length = c.recurrentState.length then
    .ok { c with
      recurrentState := state, revision := satAdd c.revision 1
      recurrentState_length := h.trans c.recurrentState_length }
  else .error (.shapeMismatch c.recurrentState.length state.length)

def replaceRecurrentStateRange (start : ℕ) (state : List F32) :
    Except KvCacheError LinearAttentionCache :=
  match checkedAdd start state.length with
  | none => .error .invalidShape
  | some _ =>
    if h : start + state.length ≤ c.recurrentState.length then
      .ok { c with
        recurrentState := splice c.recurrentState start state, revision := satAdd c.revision 1
        recurrentState_length := (splice_length h).trans c.recurrentState_length }
    else .error (.shapeMismatch (c.recurrentState.length - start) state.length)

def clear : LinearAttentionCache :=
  { c with
    tokenCount := 0, revision := satAdd c.revision 1
    convWindow := List.replicate c.convWindow.length F32.zero
    recurrentState := List.replicate c.recurrentState.length F32.zero
    convWindow_length := List.length_replicate.trans c.convWindow_length
    recurrentState_length := List.length_replicate.trans c.recurrentState_length }

end LinearAttentionCache

end KirAi.KvCache
