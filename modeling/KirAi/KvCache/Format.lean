/-
# Compressed copies of a layer's rows

`format.rs`: a layer cache may keep, beside its rows, an int8 copy of them
(`LayerInt8KvStore`) or a quantized copy of its values
(`LayerQuantizedValueStore`, whose codes are packed into bytes). Both are
rebuilt block by block from the rows.

The floating-point formulas behind a scale or a code are parameters
(`QuantKernels`); what a code is bounded by is part of the parameter, since
packing refuses codes that are too large.

Key theorems: `LayerInt8KvStore.updateBlock_ok`,
`LayerQuantizedValueStore.updateBlock_ok`: on whole rows of finite values an
update succeeds.
-/
import KirAi.KvCache.Basic
import KirAi.Lib.Except
import KirAi.Lib.Slice

namespace KirAi.KvCache

open Lib

namespace KvCacheValueQuantizationBits

def bitWidth : KvCacheValueQuantizationBits → ℕ
  | three => 3
  | four => 4
  | eight => 8

def levelCount (bits : KvCacheValueQuantizationBits) : ℕ := 2 ^ bits.bitWidth

def payloadBytes (bits : KvCacheValueQuantizationBits) (valueCount : ℕ) : Except KvCacheError ℕ :=
  match checkedMul valueCount bits.bitWidth >>= (checkedAdd · 7) with
  | some n => .ok (n / 8)
  | none => .error .invalidShape

end KvCacheValueQuantizationBits

/-- The formulas of the quantizers, on rows of finite values. -/
structure QuantKernels where
  int8Scale : List F32 → F32
  int8Code : (scale value : F32) → BitVec 8
  vqZeroPoint : List F32 → F32
  vqScale : KvCacheValueQuantizationBits → List F32 → F32
  vqCode : KvCacheValueQuantizationBits → (zeroPoint scale value : F32) → ℕ
  /-- A code is clamped to the largest one. -/
  vqCode_le : ∀ bits zeroPoint scale value,
    vqCode bits zeroPoint scale value ≤ bits.levelCount - 1

/-- What the formulas answer on rows of zeros: scale, code and zero point are 0. -/
def QuantKernels.onZeroRows : QuantKernels where
  int8Scale _ := F32.zero
  int8Code _ _ := 0
  vqZeroPoint _ := F32.zero
  vqScale _ _ := F32.zero
  vqCode _ _ _ _ := 0
  vqCode_le _ _ _ _ := Nat.zero_le _

/-- `chunks_exact`: the whole rows of a buffer. -/
def chunksExact (values : List F32) (vectorLen : ℕ) : List (List F32) :=
  (List.range (values.length / vectorLen)).map (row values vectorLen)

/-! ### int8 -/

/-- The loop of `quantize_int8_rows`: the codes of all rows and one scale a row. -/
def quantizeInt8Loop (K : QuantKernels) : List (List F32) →
    Except KvCacheError (List (BitVec 8) × List F32)
  | [] => pure ([], [])
  | r :: rs => do
    if r.any (!·.isFinite) then throw .nonFiniteValue
    let scale := K.int8Scale r
    let (codes, scales) ← quantizeInt8Loop K rs
    pure (r.map (K.int8Code scale) ++ codes, scale :: scales)

def quantizeInt8Rows (K : QuantKernels) (values : List F32) (vectorLen : ℕ) :
    Except KvCacheError (List (BitVec 8) × List F32) := do
  if values.isEmpty ∨ vectorLen = 0 ∨ values.length % vectorLen ≠ 0 then throw .invalidShape
  quantizeInt8Loop K (chunksExact values vectorLen)

structure Int8KvBlock where
  vectorLen : ℕ
  tokenCount : ℕ
  keyScales : List F32
  valueScales : List F32
  keyCodes : List (BitVec 8)
  valueCodes : List (BitVec 8)
deriving DecidableEq, Repr

def Int8KvBlock.quantize (K : QuantKernels) (keys values : List F32) (vectorLen : ℕ) :
    Except KvCacheError Int8KvBlock := do
  if keys.isEmpty ∨ vectorLen = 0 ∨ keys.length ≠ values.length ∨ keys.length % vectorLen ≠ 0 then
    throw .invalidShape
  let (keyCodes, keyScales) ← quantizeInt8Rows K keys vectorLen
  let (valueCodes, valueScales) ← quantizeInt8Rows K values vectorLen
  pure {
    vectorLen, tokenCount := keys.length / vectorLen, keyScales, valueScales, keyCodes, valueCodes }

/-- One row's codes and scales, for a direct append. -/
structure LayerInt8KvToken where
  keyCodes : List (BitVec 8)
  valueCodes : List (BitVec 8)
  keyScales : List F32
  valueScales : List F32
deriving DecidableEq, Repr

def LayerInt8KvToken.quantize (K : QuantKernels) (key value : List F32) (vectorLen : ℕ) :
    Except KvCacheError LayerInt8KvToken := do
  if key.length ≠ vectorLen ∨ value.length ≠ vectorLen then throw .invalidShape
  let (keyCodes, keyScales) ← quantizeInt8Rows K key vectorLen
  let (valueCodes, valueScales) ← quantizeInt8Rows K value vectorLen
  pure { keyCodes, valueCodes, keyScales, valueScales }

structure LayerInt8KvStore where
  vectorLen : ℕ
  blocks : List (Option Int8KvBlock)
deriving DecidableEq, Repr

namespace LayerInt8KvStore

def new (blockCount vectorLen : ℕ) : Except KvCacheError LayerInt8KvStore := do
  if blockCount = 0 ∨ vectorLen = 0 then throw .invalidShape
  pure ⟨vectorLen, List.replicate blockCount none⟩

def updateBlock (K : QuantKernels) (s : LayerInt8KvStore) (blockIndex : ℕ) (keys values : List F32) :
    Except KvCacheError LayerInt8KvStore := do
  if blockIndex ≥ s.blocks.length ∨ keys.isEmpty ∨ keys.length ≠ values.length ∨
      keys.length % s.vectorLen ≠ 0 then
    throw .invalidShape
  let block ← Int8KvBlock.quantize K keys values s.vectorLen
  pure { s with blocks := s.blocks.set blockIndex (some block) }

def clear (s : LayerInt8KvStore) : LayerInt8KvStore := { s with blocks := s.blocks.map fun _ => none }

def block (s : LayerInt8KvStore) (blockIndex : ℕ) : Except KvCacheError Int8KvBlock :=
  match s.blocks[blockIndex]? with
  | some (some b) => .ok b
  | _ => .error .invalidShape

end LayerInt8KvStore

/-! ### Packed value codes -/

/-- Sets one bit of the payload. -/
def setPayloadBit (bytes : List (BitVec 8)) (bitIndex : ℕ) :
    Except KvCacheError (List (BitVec 8)) :=
  match bytes[bitIndex / 8]? with
  | none => .error .invalidShape
  | some byte => .ok (bytes.set (bitIndex / 8) (byte ||| (1#8 <<< (bitIndex % 8))))

/-- The inner loop of `pack_codes`: the bits of one code. -/
def packCodeBits (code baseBit : ℕ) : List ℕ → List (BitVec 8) →
    Except KvCacheError (List (BitVec 8))
  | [], bytes => .ok bytes
  | codeBit :: rest, bytes =>
    if (code >>> codeBit) % 2 = 1 then
      match checkedAdd baseBit codeBit with
      | none => .error .invalidShape
      | some bitIndex => setPayloadBit bytes bitIndex >>= packCodeBits code baseBit rest
    else packCodeBits code baseBit rest bytes

/-- The outer loop of `pack_codes`, from code number `valueIndex` on. -/
def packCodesLoop (bits : KvCacheValueQuantizationBits) : List ℕ → ℕ → List (BitVec 8) →
    Except KvCacheError (List (BitVec 8))
  | [], _, bytes => .ok bytes
  | code :: codes, valueIndex, bytes => do
    if code > bits.levelCount - 1 then throw .invalidShape
    let some baseBit := checkedMul valueIndex bits.bitWidth | throw .invalidShape
    let bytes ← packCodeBits code baseBit (List.range bits.bitWidth) bytes
    packCodesLoop bits codes (valueIndex + 1) bytes

def packCodes (bits : KvCacheValueQuantizationBits) (codes : List ℕ) :
    Except KvCacheError (List (BitVec 8)) := do
  let n ← bits.payloadBytes codes.length
  packCodesLoop bits codes 0 (List.replicate n 0)

structure QuantizedValueRow where
  zeroPoint : F32
  scale : F32
deriving DecidableEq, Repr

structure QuantizedValueBlock where
  bits : KvCacheValueQuantizationBits
  vectorLen : ℕ
  valueCount : ℕ
  rows : List QuantizedValueRow
  payload : List (BitVec 8)
deriving DecidableEq, Repr

/-- The loop of `QuantizedValueBlock::quantize`. -/
def quantizeVqLoop (K : QuantKernels) (bits : KvCacheValueQuantizationBits) : List (List F32) →
    Except KvCacheError (List QuantizedValueRow × List (BitVec 8))
  | [] => pure ([], [])
  | r :: rs => do
    if r.any (!·.isFinite) then throw .nonFiniteValue
    let zeroPoint := K.vqZeroPoint r
    let scale := K.vqScale bits r
    let packed ← packCodes bits (r.map (K.vqCode bits zeroPoint scale))
    let (rows, payload) ← quantizeVqLoop K bits rs
    pure (⟨zeroPoint, scale⟩ :: rows, packed ++ payload)

def QuantizedValueBlock.quantize (K : QuantKernels) (bits : KvCacheValueQuantizationBits)
    (values : List F32) (vectorLen : ℕ) : Except KvCacheError QuantizedValueBlock := do
  if values.isEmpty ∨ vectorLen = 0 ∨ values.length % vectorLen ≠ 0 then throw .invalidShape
  let _ ← bits.payloadBytes values.length
  let (rows, payload) ← quantizeVqLoop K bits (chunksExact values vectorLen)
  pure { bits, vectorLen, valueCount := values.length, rows, payload }

structure LayerQuantizedValueStore where
  config : AsymmetricVqCacheConfig
  vectorLen : ℕ
  blocks : List (Option QuantizedValueBlock)
deriving DecidableEq, Repr

namespace LayerQuantizedValueStore

def new (blockCount vectorLen : ℕ) (config : AsymmetricVqCacheConfig) :
    Except KvCacheError LayerQuantizedValueStore := do
  if blockCount = 0 ∨ vectorLen = 0 then throw .invalidShape
  pure ⟨config, vectorLen, List.replicate blockCount none⟩

def updateBlock (K : QuantKernels) (s : LayerQuantizedValueStore) (blockIndex : ℕ)
    (values : List F32) : Except KvCacheError LayerQuantizedValueStore := do
  if blockIndex ≥ s.blocks.length ∨ values.isEmpty ∨ values.length % s.vectorLen ≠ 0 then
    throw .invalidShape
  let block ← QuantizedValueBlock.quantize K s.config.valueBits values s.vectorLen
  pure { s with blocks := s.blocks.set blockIndex (some block) }

def clear (s : LayerQuantizedValueStore) : LayerQuantizedValueStore :=
  { s with blocks := s.blocks.map fun _ => none }

end LayerQuantizedValueStore

/-! ### Updates of finite rows succeed -/

variable {K : QuantKernels}

/-- Every value of the buffer is finite. -/
def AllFinite (values : List F32) : Prop := ∀ x ∈ values, x.isFinite = true

theorem AllFinite.not_any {values : List F32} (h : AllFinite values) :
    values.any (!·.isFinite) = false := by
  simpa [AllFinite] using h

theorem AllFinite.chunk {values r : List F32} {v : ℕ} (h : AllFinite values)
    (hr : r ∈ chunksExact values v) : AllFinite r := by
  obtain ⟨i, -, rfl⟩ := List.mem_map.mp hr
  exact fun x hx => h x (List.mem_of_mem_drop (List.mem_of_mem_take hx))

theorem chunk_length {values r : List F32} {v : ℕ} (hr : r ∈ chunksExact values v) :
    r.length = v := by
  obtain ⟨i, hi, rfl⟩ := List.mem_map.mp hr
  rw [row, slice_length]
  · omega
  · exact le_trans (row_end_le (List.mem_range.mp hi)) (Nat.div_mul_le_self _ _)

/-- A copy made row by row of the rows in use of a buffer. -/
theorem chunksExact_copy {β : Type} {l : List F32} {v cap n w : ℕ} {g : List F32 → List β}
    (hv : 0 < v) (hl : l.length = cap * v) (hn : n ≤ cap) (hg : ∀ r, r.length = v → (g r).length = w) :
    ((chunksExact (l.take (n * v)) v).flatMap g).length = n * w ∧
      ∀ j, j < n → row ((chunksExact (l.take (n * v)) v).flatMap g) w j = g (row l v j) := by
  have hle : n * v ≤ cap * v := Nat.mul_le_mul_right v hn
  have hlen : (l.take (n * v)).length / v = n := by
    rw [List.length_take, hl, Nat.min_eq_left hle, Nat.mul_div_cancel _ hv]
  have hg' : ∀ r ∈ chunksExact (l.take (n * v)) v, (g r).length = w :=
    fun r hr => hg r (chunk_length hr)
  constructor
  · rw [length_flatMap_rows hg', chunksExact, List.length_map, List.length_range, hlen]
  · intro j hj
    refine row_flatMap hg' ?_
    rw [chunksExact, hlen, List.getElem?_map, List.getElem?_range hj, Option.map_some]
    congr 1
    refine List.ext_getElem? fun k => ?_
    rw [getElem?_row, getElem?_row]
    split
    · have : j * v + v ≤ n * v := row_end_le hj
      rw [List.getElem?_take, if_pos (by omega)]
    · rfl

/-- The codes of one row. -/
def int8Row (K : QuantKernels) (r : List F32) : List (BitVec 8) := r.map (K.int8Code (K.int8Scale r))

theorem quantizeInt8Loop_ok : ∀ rs : List (List F32), (∀ r ∈ rs, AllFinite r) →
    quantizeInt8Loop K rs = .ok (rs.flatMap (int8Row K), rs.map K.int8Scale)
  | [], _ => rfl
  | r :: rs, h => by
    have ih := quantizeInt8Loop_ok rs fun r' hr' => h r' (by simp [hr'])
    simp only [quantizeInt8Loop, (h r (by simp)).not_any, Bool.false_eq_true, ↓reduceIte, ih, ok_bind]
    rfl

theorem quantizeInt8Rows_ok {values : List F32} {v : ℕ} (hne : values ≠ []) (hv : 0 < v)
    (hd : values.length % v = 0) (hf : AllFinite values) :
    quantizeInt8Rows K values v = .ok ((chunksExact values v).flatMap (int8Row K),
      (chunksExact values v).map K.int8Scale) := by
  have hg : ¬ (values.isEmpty ∨ v = 0 ∨ values.length % v ≠ 0) := by
    simp only [List.isEmpty_iff, hne, hd, ne_eq, not_true_eq_false, or_false, false_or]
    omega
  simp only [quantizeInt8Rows, throw_bind, if_neg hg]
  exact quantizeInt8Loop_ok _ fun r hr => hf.chunk hr

/-- The int8 copy of whole rows. -/
def int8BlockOf (K : QuantKernels) (keys values : List F32) (v : ℕ) : Int8KvBlock where
  vectorLen := v
  tokenCount := keys.length / v
  keyScales := (chunksExact keys v).map K.int8Scale
  valueScales := (chunksExact values v).map K.int8Scale
  keyCodes := (chunksExact keys v).flatMap (int8Row K)
  valueCodes := (chunksExact values v).flatMap (int8Row K)

theorem LayerInt8KvStore.updateBlock_ok {s : LayerInt8KvStore} {i : ℕ} {keys values : List F32}
    (hi : i < s.blocks.length) (hv : 0 < s.vectorLen) (hne : keys ≠ [])
    (hl : keys.length = values.length) (hd : keys.length % s.vectorLen = 0) (hk : AllFinite keys)
    (hval : AllFinite values) : s.updateBlock K i keys values =
      .ok { s with blocks := s.blocks.set i (some (int8BlockOf K keys values s.vectorLen)) } := by
  have hne' : values ≠ [] := by
    rintro rfl
    exact hne (List.length_eq_zero_iff.mp hl)
  have hd' : values.length % s.vectorLen = 0 := hl ▸ hd
  have hg : ¬ (i ≥ s.blocks.length ∨ keys.isEmpty ∨ keys.length ≠ values.length ∨
      keys.length % s.vectorLen ≠ 0) := by
    simp only [List.isEmpty_iff, hne, hl, hd', ne_eq, not_true_eq_false, or_false]
    omega
  have hg' : ¬ (keys.isEmpty ∨ s.vectorLen = 0 ∨ keys.length ≠ values.length ∨
      keys.length % s.vectorLen ≠ 0) := by
    simp only [List.isEmpty_iff, hne, hl, hd', ne_eq, not_true_eq_false, or_false, false_or]
    omega
  simp only [updateBlock, Int8KvBlock.quantize, throw_bind, if_neg hg, if_neg hg',
    quantizeInt8Rows_ok hne hv hd hk, quantizeInt8Rows_ok hne' hv hd' hval, ok_bind]
  rfl

theorem setPayloadBit_ok {bytes : List (BitVec 8)} {n : ℕ} (h : n < bytes.length * 8) :
    ∃ bytes', setPayloadBit bytes n = .ok bytes' ∧ bytes'.length = bytes.length := by
  have hlt : n / 8 < bytes.length := Nat.div_lt_of_lt_mul (by omega)
  unfold setPayloadBit
  rw [List.getElem?_eq_getElem hlt]
  exact ⟨_, rfl, List.length_set⟩

theorem packCodeBits_ok (code base : ℕ) : ∀ (cs : List ℕ) (bytes : List (BitVec 8)),
    (∀ c ∈ cs, base + c < bytes.length * 8) → bytes.length * 8 ≤ wordMax →
    ∃ bytes', packCodeBits code base cs bytes = .ok bytes' ∧ bytes'.length = bytes.length
  | [], bytes, _, _ => ⟨bytes, rfl, rfl⟩
  | c :: cs, bytes, h, hmax => by
    have hc := h c (by simp)
    have hrest : ∀ c' ∈ cs, base + c' < bytes.length * 8 := fun c' hc' => h c' (by simp [hc'])
    unfold packCodeBits
    split
    · obtain ⟨bytes₁, h₁, hl₁⟩ := setPayloadBit_ok hc
      obtain ⟨bytes₂, h₂, hl₂⟩ := packCodeBits_ok code base cs bytes₁
        (by rw [hl₁]; exact hrest) (by rw [hl₁]; exact hmax)
      rw [checkedAdd_of_le (by omega)]
      refine ⟨bytes₂, ?_, hl₂.trans hl₁⟩
      simp only [h₁, ok_bind, h₂]
    · exact packCodeBits_ok code base cs bytes hrest hmax

theorem packCodesLoop_ok {bits : KvCacheValueQuantizationBits} : ∀ (codes : List ℕ) (k : ℕ)
    (bytes : List (BitVec 8)), (∀ c ∈ codes, c ≤ bits.levelCount - 1) →
    (k + codes.length) * bits.bitWidth ≤ bytes.length * 8 → bytes.length * 8 ≤ wordMax →
    ∃ bytes', packCodesLoop bits codes k bytes = .ok bytes' ∧ bytes'.length = bytes.length
  | [], k, bytes, _, _, _ => ⟨bytes, rfl, rfl⟩
  | c :: cs, k, bytes, hc, hk, hmax => by
    have hstep : (k + 1) * bits.bitWidth ≤ bytes.length * 8 :=
      le_trans (Nat.mul_le_mul_right _ (by simp only [List.length_cons]; omega)) hk
    rw [Nat.add_one_mul] at hstep
    obtain ⟨bytes₁, h₁, hl₁⟩ := packCodeBits_ok c (k * bits.bitWidth) (List.range bits.bitWidth)
      bytes
      (fun j hj => by have := List.mem_range.mp hj; omega) hmax
    obtain ⟨bytes₂, h₂, hl₂⟩ := packCodesLoop_ok cs (k + 1) bytes₁
      (fun c' hc' => hc c' (by simp [hc']))
      (by rw [hl₁, Nat.add_assoc, Nat.add_comm 1]; exact hk) (by rw [hl₁]; exact hmax)
    refine ⟨bytes₂, ?_, hl₂.trans hl₁⟩
    have hg : ¬ (c > bits.levelCount - 1) := by
      have := hc c (by simp)
      omega
    simp only [packCodesLoop, throw_bind, if_neg hg,
      checkedMul_of_le (show k * bits.bitWidth ≤ wordMax by omega), h₁, ok_bind, h₂]

theorem payloadBytes_ok {bits : KvCacheValueQuantizationBits} {n : ℕ} (h : n * 8 + 7 ≤ wordMax) :
    bits.payloadBytes n = .ok ((n * bits.bitWidth + 7) / 8) := by
  have hw : bits.bitWidth ≤ 8 := by cases bits <;> decide
  have hle : n * bits.bitWidth ≤ n * 8 := Nat.mul_le_mul_left n hw
  unfold KvCacheValueQuantizationBits.payloadBytes
  rw [checkedMul_of_le (by omega)]
  simp only [Option.bind_eq_bind, Option.bind_some]
  rw [checkedAdd_of_le (by omega)]

theorem packCodes_ok {bits : KvCacheValueQuantizationBits} (codes : List ℕ)
    (hc : ∀ c ∈ codes, c ≤ bits.levelCount - 1) (hmax : codes.length * 8 + 7 ≤ wordMax) :
    ∃ bytes, packCodes bits codes = .ok bytes := by
  have hw : bits.bitWidth ≤ 8 := by cases bits <;> decide
  have hle : codes.length * bits.bitWidth ≤ codes.length * 8 := Nat.mul_le_mul_left _ hw
  obtain ⟨bytes, h, -⟩ := packCodesLoop_ok codes 0
    (List.replicate ((codes.length * bits.bitWidth + 7) / 8) 0) hc
    (by simp only [Nat.zero_add, List.length_replicate]; omega)
    (by simp only [List.length_replicate]; omega)
  exact ⟨bytes, by simp only [packCodes, payloadBytes_ok hmax, ok_bind, h]⟩

theorem quantizeVqLoop_ok (bits : KvCacheValueQuantizationBits) : ∀ rs : List (List F32),
    (∀ r ∈ rs, AllFinite r ∧ r.length * 8 + 7 ≤ wordMax) → ∃ q, quantizeVqLoop K bits rs = .ok q
  | [], _ => ⟨_, rfl⟩
  | r :: rs, h => by
    obtain ⟨⟨rows, payload⟩, hq⟩ :=
      quantizeVqLoop_ok bits rs fun r' hr' => h r' (by simp [hr'])
    obtain ⟨hf, hl⟩ := h r (by simp)
    obtain ⟨bytes, hp⟩ := packCodes_ok (r.map (K.vqCode bits (K.vqZeroPoint r) (K.vqScale bits r)))
      (fun c hc => by
        obtain ⟨x, -, rfl⟩ := List.mem_map.mp hc
        exact K.vqCode_le _ _ _ _)
      (by rw [List.length_map]; exact hl)
    exact ⟨(⟨K.vqZeroPoint r, K.vqScale bits r⟩ :: rows, bytes ++ payload), by
      simp only [quantizeVqLoop, hf.not_any, Bool.false_eq_true, ↓reduceIte, hp, hq, ok_bind]
      rfl⟩

theorem LayerQuantizedValueStore.updateBlock_ok {s : LayerQuantizedValueStore} {i : ℕ}
    {values : List F32} (hi : i < s.blocks.length) (hv : 0 < s.vectorLen) (hne : values ≠ [])
    (hd : values.length % s.vectorLen = 0) (hf : AllFinite values)
    (hmax : values.length * 8 + 7 ≤ wordMax) :
    ∃ b, QuantizedValueBlock.quantize K s.config.valueBits values s.vectorLen = .ok b ∧
      s.updateBlock K i values = .ok { s with blocks := s.blocks.set i (some b) } := by
  have hrow : ∀ r ∈ chunksExact values s.vectorLen, r.length ≤ values.length := fun r hr => by
    obtain ⟨j, -, rfl⟩ := List.mem_map.mp hr
    exact ((List.take_sublist _ _).trans (List.drop_sublist _ _)).length_le
  obtain ⟨⟨rows, payload⟩, hq⟩ := quantizeVqLoop_ok (K := K) s.config.valueBits _
    fun r hr => ⟨hf.chunk hr, le_trans (Nat.add_le_add_right (Nat.mul_le_mul_right 8 (hrow r hr)) 7) hmax⟩
  have hg : ¬ (i ≥ s.blocks.length ∨ values.isEmpty ∨ values.length % s.vectorLen ≠ 0) := by
    simp only [List.isEmpty_iff, hne, hd, ne_eq, not_true_eq_false, or_false]
    omega
  have hg' : ¬ (values.isEmpty ∨ s.vectorLen = 0 ∨ values.length % s.vectorLen ≠ 0) := by
    simp only [List.isEmpty_iff, hne, hd, ne_eq, not_true_eq_false, or_false, false_or]
    omega
  have hquant : QuantizedValueBlock.quantize K s.config.valueBits values s.vectorLen =
      .ok ⟨s.config.valueBits, s.vectorLen, values.length, rows, payload⟩ := by
    simp only [QuantizedValueBlock.quantize, throw_bind, if_neg hg', payloadBytes_ok hmax, hq,
      ok_bind]
    rfl
  refine ⟨_, hquant, ?_⟩
  simp only [updateBlock, throw_bind, if_neg hg, hquant, ok_bind]
  rfl

end KirAi.KvCache
