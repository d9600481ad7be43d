/-
# Packed codes read back

`format.rs`, the other direction: `unpack_codes` takes the codes out of the bytes that
`pack_codes` made, and `QuantizedValueBlock::dequantize` takes the bytes of each row out of the
payload of a block.

Packing writes code `j` to field `j` of the bytes and unpacking reads the fields
(`Lib.Bits.field`), so where the borders of the bytes are does not matter. The rows of a block
are packed one by one, so each of them starts at a whole byte and all take the same number.

Key definitions: `unpackCodes`, `QuantizedValueBlock.dequantize`.
Key theorems: `packCodesLoop_bits`, `unpackCodes_packCodes`, `quantize_rows`,
`value_codes_round_trip`.
-/
import KirAi.KvCache.Format
import KirAi.Lib.Bits
import KirAi.Lib.Bytes

namespace KirAi.KvCache

open Lib Lib.Bits

/-! ### Unpacking -/

/-- The inner loop of `unpack_codes`: the bits of one code. -/
def unpackCodeBits (bytes : List (BitVec 8)) (baseBit : ℕ) : List ℕ → ℕ → Except KvCacheError ℕ
  | [], code => .ok code
  | codeBit :: rest, code => do
    let some bitIndex := checkedAdd baseBit codeBit | throw .invalidShape
    let some byte := bytes[bitIndex / 8]? | throw .invalidShape
    let set := (byte >>> (bitIndex % 8)) &&& 1#8 = 1#8
    unpackCodeBits bytes baseBit rest (if set then code ||| (1 <<< codeBit) else code)

/-- The outer loop of `unpack_codes`. -/
def unpackCodesLoop (bits : KvCacheValueQuantizationBits) (bytes : List (BitVec 8)) :
    List ℕ → Except KvCacheError (List ℕ)
  | [] => .ok []
  | valueIndex :: rest => do
    let some baseBit := checkedMul valueIndex bits.bitWidth | throw .invalidShape
    let code ← unpackCodeBits bytes baseBit (List.range bits.bitWidth) 0
    let codes ← unpackCodesLoop bits bytes rest
    pure (code :: codes)

def unpackCodes (bits : KvCacheValueQuantizationBits) (valueCount : ℕ) (bytes : List (BitVec 8)) :
    Except KvCacheError (List ℕ) := do
  let n ← bits.payloadBytes valueCount
  if bytes.length ≠ n then throw .invalidShape
  unpackCodesLoop bits bytes (List.range valueCount)

/-- The loop of `QuantizedValueBlock::dequantize`, from row number `rowIndex` on; `value` is the
formula that takes a code of a row to a number. -/
def dequantizeLoop (value : QuantizedValueRow → ℕ → F32) (b : QuantizedValueBlock)
    (rowPayloadBytes : ℕ) : List QuantizedValueRow → ℕ → Except KvCacheError (List F32)
  | [], _ => .ok []
  | r :: rs, rowIndex => do
    let some payloadStart := checkedMul rowIndex rowPayloadBytes | throw .invalidShape
    let some payloadEnd := checkedAdd payloadStart rowPayloadBytes | throw .invalidShape
    let some bytes := getRange b.payload payloadStart payloadEnd | throw .invalidShape
    let codes ← unpackCodes b.bits b.vectorLen bytes
    let values ← dequantizeLoop value b rowPayloadBytes rs (rowIndex + 1)
    pure (codes.map (value r) ++ values)

def QuantizedValueBlock.dequantize (value : QuantizedValueRow → ℕ → F32) (b : QuantizedValueBlock) :
    Except KvCacheError (List F32) := do
  if b.vectorLen = 0 ∨ b.valueCount % b.vectorLen ≠ 0 then throw .invalidShape
  let rowPayloadBytes ← b.bits.payloadBytes b.vectorLen
  let some expectedPayloadBytes := checkedMul rowPayloadBytes b.rows.length | throw .invalidShape
  if b.payload.length ≠ expectedPayloadBytes then throw .invalidShape
  dequantizeLoop value b rowPayloadBytes b.rows 0

/-! ### The bits of packed codes -/

variable {bits : KvCacheValueQuantizationBits}

theorem bitWidth_pos (bits : KvCacheValueQuantizationBits) : 0 < bits.bitWidth := by
  cases bits <;> decide

theorem testBit_iff {code c : ℕ} : (code >>> c) % 2 = 1 ↔ code.testBit c = true := by
  rw [Nat.testBit_eq_decide_div_mod_eq, Nat.shiftRight_eq_div_pow, decide_eq_true_eq]

theorem setPayloadBit_bits {bytes bytes' : List (BitVec 8)} {n : ℕ}
    (h : setPayloadBit bytes n = .ok bytes') (m : ℕ) :
    bitAt bytes' m = true ↔ m = n ∨ bitAt bytes m = true := by
  unfold setPayloadBit at h
  cases hbyte : bytes[n / 8]? with
  | none => simp [hbyte] at h
  | some byte =>
    rw [hbyte] at h
    obtain rfl := Except.ok.inj h
    rw [bitAt_set hbyte, Bool.or_eq_true, decide_eq_true_eq]

/-- What one code sets. -/
theorem packCodeBits_bits (code base : ℕ) : ∀ (cs : List ℕ) {bytes bytes' : List (BitVec 8)},
    packCodeBits code base cs bytes = .ok bytes' → ∀ m,
    (bitAt bytes' m = true ↔
      bitAt bytes m = true ∨ ∃ c ∈ cs, code.testBit c = true ∧ m = base + c)
  | [], bytes, bytes', h, m => by
    obtain rfl := Except.ok.inj h
    simp
  | c :: cs, bytes, bytes', h, m => by
    unfold packCodeBits at h
    by_cases hbit : (code >>> c) % 2 = 1
    · have htest := testBit_iff.1 hbit
      rw [if_pos hbit] at h
      cases hadd : checkedAdd base c with
      | none => simp [hadd] at h
      | some bitIndex =>
        obtain ⟨-, rfl⟩ := checkedAdd_eq_some.1 hadd
        rw [hadd] at h
        obtain ⟨bytes₁, hset, hrest⟩ := bind_eq_ok.1 h
        rw [packCodeBits_bits code base cs hrest m, setPayloadBit_bits hset m]
        simp only [List.mem_cons, exists_eq_or_imp, htest, true_and]
        constructor
        · rintro ((h | h) | h)
          · exact .inr (.inl h)
          · exact .inl h
          · exact .inr (.inr h)
        · rintro (h | h | h)
          · exact .inl (.inr h)
          · exact .inl (.inl h)
          · exact .inr h
    · have htest : code.testBit c = false := by
        rw [← Bool.not_eq_true, ← testBit_iff]
        exact hbit
      rw [if_neg hbit] at h
      rw [packCodeBits_bits code base cs h m]
      simp [htest]

/-- What all codes set, from code number `k` on. -/
theorem packCodesLoop_bits : ∀ (codes : List ℕ) {k : ℕ} {bytes bytes' : List (BitVec 8)},
    packCodesLoop bits codes k bytes = .ok bytes' → ∀ m,
    (bitAt bytes' m = true ↔ bitAt bytes m = true ∨ ∃ j code c, codes[j]? = some code ∧
      c < bits.bitWidth ∧ code.testBit c = true ∧ m = (k + j) * bits.bitWidth + c)
  | [], k, bytes, bytes', h, m => by
    obtain rfl := Except.ok.inj h
    simp
  | code :: codes, k, bytes, bytes', h, m => by
    simp only [packCodesLoop, throw_bind] at h
    split at h
    · simp at h
    · cases hmul : checkedMul k bits.bitWidth with
      | none => simp [hmul] at h
      | some baseBit =>
        obtain ⟨-, rfl⟩ := checkedMul_eq_some.1 hmul
        rw [hmul] at h
        obtain ⟨bytes₁, hcode, hrest⟩ := bind_eq_ok.1 h
        rw [packCodesLoop_bits codes hrest m, packCodeBits_bits code _ _ hcode m, or_assoc]
        refine or_congr_right ⟨?_, ?_⟩
        · rintro (⟨c, hc, htest, rfl⟩ | ⟨j, code', c, hj, hc, htest, rfl⟩)
          · exact ⟨0, code, c, rfl, List.mem_range.1 hc, htest, rfl⟩
          · exact ⟨j + 1, code', c, hj, hc, htest, by rw [Nat.add_assoc, Nat.add_comm 1]⟩
        · rintro ⟨j, code', c, hj, hc, htest, rfl⟩
          cases j with
          | zero =>
            obtain rfl := Option.some.inj hj
            exact .inl ⟨c, List.mem_range.2 hc, htest, rfl⟩
          | succ j => exact .inr ⟨j, code', c, hj, hc, htest, by rw [Nat.add_assoc, Nat.add_comm 1]⟩

/-- Code `j` is field `j` of the bytes. -/
theorem packCodes_field {codes : List ℕ} {bytes : List (BitVec 8)}
    (hcodes : ∀ code ∈ codes, code < bits.levelCount) (h : packCodes bits codes = .ok bytes) {j code : ℕ}
    (hj : codes[j]? = some code) : field bytes bits.bitWidth j = code := by
  obtain ⟨n, -, hloop⟩ := bind_eq_ok.1 h
  refine field_eq (hcodes code (List.mem_of_getElem? hj)) fun c hc => ?_
  rw [Bool.eq_iff_iff, packCodesLoop_bits codes hloop, bitAt_replicate]
  constructor
  · rintro (hzero | ⟨j', code', c', hj', hc', htest, heq⟩)
    · exact absurd hzero (by decide)
    · rw [Nat.zero_add] at heq
      obtain ⟨rfl, rfl⟩ := field_bit_inj hc hc' heq
      rw [hj] at hj'
      rwa [Option.some.inj hj']
  · intro htest
    exact .inr ⟨j, code, c, hj, hc, htest, by rw [Nat.zero_add]⟩

/-! ### The codes come back -/

theorem bit_test_iff {bytes : List (BitVec 8)} {byte : BitVec 8} {n : ℕ}
    (h : bytes[n / 8]? = some byte) :
    (byte >>> (n % 8)) &&& 1#8 = 1#8 ↔ bitAt bytes n = true := by
  have hbit : bitAt bytes n = byte.getLsbD (n % 8) := by rw [bitAt, h, Option.map_some, Option.getD_some]
  rw [hbit]
  constructor
  · intro hone
    have hzero := congrArg (·.getLsbD 0) hone
    simpa using hzero
  · intro hset
    refine BitVec.eq_of_getLsbD_eq fun i hi => ?_
    rw [BitVec.getLsbD_and, BitVec.getLsbD_ushiftRight, BitVec.getLsbD_one]
    by_cases hi0 : i = 0
    · subst hi0
      simp [hset]
    · simp [hi0]

theorem unpackCodeBits_ok {bytes : List (BitVec 8)} {base : ℕ} (hmax : bytes.length * 8 ≤ wordMax) :
    ∀ (cs : List ℕ) (code : ℕ), (∀ c ∈ cs, base + c < bytes.length * 8) →
    ∃ code', unpackCodeBits bytes base cs code = .ok code' ∧ ∀ i, (code'.testBit i = true ↔
      code.testBit i = true ∨ i ∈ cs ∧ bitAt bytes (base + i) = true)
  | [], code, _ => ⟨code, rfl, by simp⟩
  | c :: cs, code, h => by
    have hc := h c List.mem_cons_self
    have hlt : (base + c) / 8 < bytes.length := Nat.div_lt_of_lt_mul (by omega)
    have hbyte := List.getElem?_eq_getElem hlt
    have hadd := checkedAdd_of_le (show base + c ≤ wordMax by omega)
    by_cases hset : (bytes[(base + c) / 8] >>> ((base + c) % 8)) &&& 1#8 = 1#8
    · obtain ⟨code', hcode, hbits⟩ := unpackCodeBits_ok hmax cs (code ||| (1 <<< c))
        fun c' hc' => h c' (List.mem_cons_of_mem c hc')
      refine ⟨code', ?_, fun i => ?_⟩
      · simp only [unpackCodeBits, hadd, hbyte, hset, if_true, hcode]
      · have hbit := (bit_test_iff hbyte).1 hset
        rw [hbits i, Nat.testBit_or, Nat.one_shiftLeft, Nat.testBit_two_pow, Bool.or_eq_true,
          decide_eq_true_eq, List.mem_cons]
        constructor
        · rintro ((hi | rfl) | ⟨hi, hbiti⟩)
          · exact .inl hi
          · exact .inr ⟨.inl rfl, hbit⟩
          · exact .inr ⟨.inr hi, hbiti⟩
        · rintro (hi | ⟨rfl | hi, hbiti⟩)
          · exact .inl (.inl hi)
          · exact .inl (.inr rfl)
          · exact .inr ⟨hi, hbiti⟩
    · obtain ⟨code', hcode, hbits⟩ := unpackCodeBits_ok hmax cs code
        fun c' hc' => h c' (List.mem_cons_of_mem c hc')
      refine ⟨code', ?_, fun i => ?_⟩
      · simp only [unpackCodeBits, hadd, hbyte, hset, if_false, hcode]
      · have hbit := (bit_test_iff hbyte).not.1 hset
        rw [hbits i, List.mem_cons]
        refine or_congr_right ⟨fun ⟨hi, hbiti⟩ => ⟨.inr hi, hbiti⟩, ?_⟩
        rintro ⟨rfl | hi, hbiti⟩
        · exact absurd hbiti hbit
        · exact ⟨hi, hbiti⟩

/-- Unpacking reads the fields. -/
theorem unpackCodesLoop_ok {bytes : List (BitVec 8)} (hmax : bytes.length * 8 ≤ wordMax) :
    ∀ indices : List ℕ, (∀ i ∈ indices, (i + 1) * bits.bitWidth ≤ bytes.length * 8) →
    unpackCodesLoop bits bytes indices = .ok (indices.map (field bytes bits.bitWidth))
  | [], _ => rfl
  | i :: indices, h => by
    have hi := h i List.mem_cons_self
    rw [Nat.add_one_mul] at hi
    obtain ⟨code, hcode, hbits⟩ := @unpackCodeBits_ok bytes (i * bits.bitWidth) hmax
      (List.range bits.bitWidth) 0 fun c hc => by
        have := List.mem_range.1 hc
        omega
    have hfield : code = field bytes bits.bitWidth i := by
      refine Nat.eq_of_testBit_eq fun c => ?_
      rw [testBit_field, Bool.eq_iff_iff, hbits c, Nat.zero_testBit, List.mem_range]
      simp
    have ih := unpackCodesLoop_ok hmax indices fun j hj => h j (List.mem_cons_of_mem i hj)
    simp only [unpackCodesLoop, checkedMul_of_le (show i * bits.bitWidth ≤ wordMax by omega), hcode,
      ih, ok_bind, hfield]
    rfl

theorem payloadBytes_eq_ok {n k : ℕ} :
    bits.payloadBytes n = .ok k ↔ n * bits.bitWidth + 7 ≤ wordMax ∧ k = (n * bits.bitWidth + 7) / 8 := by
  unfold KvCacheValueQuantizationBits.payloadBytes
  constructor
  · intro h
    cases hmul : checkedMul n bits.bitWidth with
    | none => simp [hmul] at h
    | some m =>
      obtain ⟨-, rfl⟩ := checkedMul_eq_some.1 hmul
      rw [hmul, Option.bind_eq_bind, Option.bind_some] at h
      cases hadd : checkedAdd (n * bits.bitWidth) 7 with
      | none => simp [hadd] at h
      | some l =>
        obtain ⟨hle, rfl⟩ := checkedAdd_eq_some.1 hadd
        rw [hadd] at h
        exact ⟨hle, (Except.ok.inj h).symm⟩
  · rintro ⟨hle, rfl⟩
    rw [checkedMul_of_le (by omega), Option.bind_eq_bind, Option.bind_some, checkedAdd_of_le hle]

theorem payloadBytes_error {n : ℕ} (h : wordMax < n * bits.bitWidth + 7) :
    bits.payloadBytes n = .error .invalidShape := by
  unfold KvCacheValueQuantizationBits.payloadBytes
  cases hmul : checkedMul n bits.bitWidth with
  | none => rfl
  | some m =>
    obtain ⟨-, rfl⟩ := checkedMul_eq_some.1 hmul
    have hadd : checkedAdd (n * bits.bitWidth) 7 = none := if_neg (by omega)
    rw [Option.bind_eq_bind, Option.bind_some, hadd]

/-- Packing fails just if the layout has no size for so many codes, and fills that size. -/
theorem packCodes_length {codes : List ℕ} {n : ℕ} (hcodes : ∀ code ∈ codes, code < bits.levelCount)
    (h : bits.payloadBytes codes.length = .ok n) :
    ∃ bytes, packCodes bits codes = .ok bytes ∧ bytes.length = n := by
  obtain ⟨hle, hn⟩ := payloadBytes_eq_ok.1 h
  obtain ⟨bytes, hloop, hlen⟩ := @packCodesLoop_ok bits codes 0 (List.replicate n 0)
    (fun code hcode => Nat.le_sub_one_of_lt (hcodes code hcode))
    (by rw [List.length_replicate, Nat.zero_add]; omega) (by rw [List.length_replicate]; omega)
  refine ⟨bytes, ?_, hlen.trans (List.length_replicate ..)⟩
  simp only [packCodes, h, ok_bind, hloop]

theorem unpackCodes_packCodes {codes : List ℕ} {bytes : List (BitVec 8)}
    (hcodes : ∀ code ∈ codes, code < bits.levelCount) (h : packCodes bits codes = .ok bytes) :
    bits.payloadBytes codes.length = .ok bytes.length ∧
      unpackCodes bits codes.length bytes = .ok codes := by
  obtain ⟨n, hn, -⟩ := bind_eq_ok.1 h
  obtain ⟨bytes', h', rfl⟩ := packCodes_length hcodes hn
  obtain rfl : bytes' = bytes := Except.ok.inj (h'.symm.trans h)
  obtain ⟨hle, hlen⟩ := payloadBytes_eq_ok.1 hn
  refine ⟨hn, ?_⟩
  have hloop := @unpackCodesLoop_ok bits bytes' (by omega)
    (List.range codes.length) fun i hi => by
      have hi' : i + 1 ≤ codes.length := List.mem_range.1 hi
      have := Nat.mul_le_mul_right bits.bitWidth hi'
      omega
  have hfields : (List.range codes.length).map (field bytes' bits.bitWidth) = codes := by
    refine List.ext_getElem? fun j => ?_
    rw [List.getElem?_map]
    rcases Nat.lt_or_ge j codes.length with hj | hj
    · rw [List.getElem?_range hj, List.getElem?_eq_getElem hj, Option.map_some,
        packCodes_field hcodes h (List.getElem?_eq_getElem hj)]
    · rw [List.getElem?_eq_none (by rw [List.length_range]; exact hj), List.getElem?_eq_none hj]
      rfl
  rw [unpackCodes, hn, ok_bind, if_neg (by simp), hloop, hfields]

/-! ### The rows of a block -/

section Rows

variable {K : QuantKernels} {values : List F32} {vectorLen : ℕ}

/-- The codes of a row. -/
def rowCodes (K : QuantKernels) (bits : KvCacheValueQuantizationBits) (r : List F32) : List ℕ :=
  r.map (K.vqCode bits (K.vqZeroPoint r) (K.vqScale bits r))

def rowOf (K : QuantKernels) (bits : KvCacheValueQuantizationBits) (r : List F32) : QuantizedValueRow :=
  ⟨K.vqZeroPoint r, K.vqScale bits r⟩

/-- The bytes of a row, as far as it can be packed. -/
def rowPayload (K : QuantKernels) (bits : KvCacheValueQuantizationBits) (r : List F32) :
    List (BitVec 8) :=
  (packCodes bits (rowCodes K bits r)).toOption.getD []

theorem rowCodes_lt (r : List F32) : ∀ code ∈ rowCodes K bits r, code < bits.levelCount := by
  intro code hcode
  obtain ⟨x, -, rfl⟩ := List.mem_map.1 hcode
  have hle := K.vqCode_le bits (K.vqZeroPoint r) (K.vqScale bits r) x
  have hpos : 0 < bits.levelCount := Nat.two_pow_pos _
  omega

/-- The loop packs the rows one behind the other. -/
theorem quantizeVqLoop_rows : ∀ {rs : List (List F32)} {rows : List QuantizedValueRow}
    {payload : List (BitVec 8)}, quantizeVqLoop K bits rs = .ok (rows, payload) →
    rows = rs.map (rowOf K bits) ∧ payload = rs.flatMap (rowPayload K bits) ∧
      ∀ r ∈ rs, packCodes bits (rowCodes K bits r) = .ok (rowPayload K bits r)
  | [], rows, payload, h => by
    obtain ⟨rfl, rfl⟩ := Prod.mk.inj (Except.ok.inj h)
    exact ⟨rfl, rfl, fun r hr => absurd hr List.not_mem_nil⟩
  | r :: rs, rows, payload, h => by
    simp only [quantizeVqLoop, throw_bind] at h
    split at h
    · simp at h
    · obtain ⟨packed, hpack, hrest⟩ := bind_eq_ok.1 h
      obtain ⟨⟨rows', payload'⟩, hloop, hpure⟩ := bind_eq_ok.1 hrest
      obtain ⟨rfl, rfl⟩ := Prod.mk.inj (Except.ok.inj hpure)
      obtain ⟨rfl, rfl, hall⟩ := quantizeVqLoop_rows hloop
      have hbytes : rowPayload K bits r = packed := by rw [rowPayload, rowCodes, hpack]; rfl
      refine ⟨rfl, by rw [List.flatMap_cons, hbytes], fun r' hr' => ?_⟩
      rcases List.mem_cons.1 hr' with rfl | hr'
      · rw [hbytes]
        exact hpack
      · exact hall r' hr'

/-- What a block is made of. -/
theorem quantize_rows {b : QuantizedValueBlock}
    (h : QuantizedValueBlock.quantize K bits values vectorLen = .ok b) :
    0 < vectorLen ∧ vectorLen ≤ values.length ∧ values.length % vectorLen = 0 ∧
      values.length * bits.bitWidth + 7 ≤ wordMax ∧
      b = { bits, vectorLen, valueCount := values.length,
            rows := (chunksExact values vectorLen).map (rowOf K bits),
            payload := (chunksExact values vectorLen).flatMap (rowPayload K bits) } ∧
      ∀ r ∈ chunksExact values vectorLen,
        packCodes bits (rowCodes K bits r) = .ok (rowPayload K bits r) := by
  simp only [QuantizedValueBlock.quantize, throw_bind] at h
  split at h
  · simp at h
  · next hshape =>
    obtain ⟨n, hn, hrest⟩ := bind_eq_ok.1 h
    obtain ⟨⟨rows, payload⟩, hloop, hpure⟩ := bind_eq_ok.1 hrest
    obtain rfl := Except.ok.inj hpure
    obtain ⟨rfl, rfl, hall⟩ := quantizeVqLoop_rows hloop
    simp only [not_or, ne_eq, not_not, List.isEmpty_iff] at hshape
    obtain ⟨hne, hv, hmod⟩ := hshape
    have hle : vectorLen ≤ values.length :=
      Nat.le_of_dvd (List.length_pos_of_ne_nil hne) (Nat.dvd_of_mod_eq_zero hmod)
    exact ⟨Nat.pos_of_ne_zero hv, hle, hmod, (payloadBytes_eq_ok.1 hn).1, rfl, hall⟩

theorem rowCodes_length {r : List F32} (hr : r ∈ chunksExact values vectorLen) :
    (rowCodes K bits r).length = vectorLen := by
  rw [rowCodes, List.length_map, chunk_length hr]

/-- The rows that are left are read where they were written. -/
theorem dequantizeLoop_ok {value : QuantizedValueRow → ℕ → F32} {b : QuantizedValueBlock}
    {rowBytes : ℕ} (hmax : b.payload.length ≤ wordMax) :
    ∀ rs done : List (List F32), (∀ r ∈ done ++ rs, (rowPayload K bits r).length = rowBytes) →
    (∀ r ∈ rs, unpackCodes b.bits b.vectorLen (rowPayload K bits r) = .ok (rowCodes K bits r)) →
    b.payload = done.flatMap (rowPayload K bits) ++ rs.flatMap (rowPayload K bits) →
    dequantizeLoop value b rowBytes (rs.map (rowOf K bits)) done.length =
      .ok (rs.flatMap fun r => (rowCodes K bits r).map (value (rowOf K bits r)))
  | [], _, _, _, _ => rfl
  | r :: rs, done, hlen, hunpack, hpayload => by
    have hdone : (done.flatMap (rowPayload K bits)).length = done.length * rowBytes :=
      length_flatMap_rows fun r' hr' => hlen r' (List.mem_append_left _ hr')
    have hr := hlen r (by simp)
    rw [List.flatMap_cons, ← List.append_assoc] at hpayload
    have htotal := congrArg List.length hpayload
    simp only [List.length_append] at htotal
    have hget : getRange b.payload (done.length * rowBytes) (done.length * rowBytes + rowBytes) =
        some (rowPayload K bits r) := by
      rw [hpayload]
      exact getRange_append hdone.symm (by rw [hdone, hr])
    have ih := @dequantizeLoop_ok value b rowBytes hmax rs (done ++ [r])
      (fun r' hr' => hlen r' (by simpa using hr'))
      (fun r' hr' => hunpack r' (List.mem_cons_of_mem r hr'))
      (by rw [List.flatMap_append, List.flatMap_singleton, hpayload])
    rw [List.length_append, List.length_singleton] at ih
    simp only [List.map_cons, dequantizeLoop, checkedMul_of_le (show done.length * rowBytes ≤ wordMax by omega),
      checkedAdd_of_le (show done.length * rowBytes + rowBytes ≤ wordMax by omega), hget,
      hunpack r List.mem_cons_self, ih, ok_bind]
    rfl

/-- **Codes come back from their bytes, and the rows of a block from its payload.** -/
theorem value_codes_round_trip (bits : KvCacheValueQuantizationBits) :
    (∀ codes : List ℕ, (∀ code ∈ codes, code < bits.levelCount) →
      (codes.length * bits.bitWidth + 7 ≤ wordMax → ∃ bytes, packCodes bits codes = .ok bytes ∧
        bits.payloadBytes codes.length = .ok bytes.length ∧
        unpackCodes bits codes.length bytes = .ok codes) ∧
      (wordMax < codes.length * bits.bitWidth + 7 →
        packCodes bits codes = .error .invalidShape)) ∧
    ∀ (K : QuantKernels) (values : List F32) (vectorLen : ℕ) (b : QuantizedValueBlock),
      QuantizedValueBlock.quantize K bits values vectorLen = .ok b →
      b.rows.length = values.length / vectorLen ∧
      ∃ rowBytes, bits.payloadBytes vectorLen = .ok rowBytes ∧
        b.payload.length = b.rows.length * rowBytes ∧
        (∀ i, i < b.rows.length →
          packCodes bits (rowCodes K bits (row values vectorLen i)) =
            .ok (row b.payload rowBytes i) ∧
          getRange b.payload (i * rowBytes) (i * rowBytes + rowBytes) =
            some (row b.payload rowBytes i) ∧
          unpackCodes bits vectorLen (row b.payload rowBytes i) =
            .ok (rowCodes K bits (row values vectorLen i))) ∧
        ∀ value, b.dequantize value = .ok ((chunksExact values vectorLen).flatMap fun r =>
          (rowCodes K bits r).map (value (rowOf K bits r))) := by
  constructor
  · intro codes hcodes
    constructor
    · intro hle
      obtain ⟨bytes, hpack, -⟩ := packCodes_length hcodes (payloadBytes_eq_ok.2 ⟨hle, rfl⟩)
      exact ⟨bytes, hpack, unpackCodes_packCodes hcodes hpack⟩
    · intro hlt
      rw [packCodes, payloadBytes_error hlt]
      rfl
  · intro K values vectorLen b h
    obtain ⟨hv, hle, hmod, hmax, rfl, hpack⟩ := quantize_rows h
    have hcount : (chunksExact values vectorLen).length = values.length / vectorLen := by
      rw [chunksExact, List.length_map, List.length_range]
    have hwidth : vectorLen * bits.bitWidth ≤ values.length * bits.bitWidth :=
      Nat.mul_le_mul_right _ hle
    obtain ⟨rowBytes, hrow⟩ : ∃ n, bits.payloadBytes vectorLen = .ok n :=
      ⟨_, payloadBytes_eq_ok.2 ⟨by omega, rfl⟩⟩
    have hunpack : ∀ r ∈ chunksExact values vectorLen, (rowPayload K bits r).length = rowBytes ∧
        unpackCodes bits vectorLen (rowPayload K bits r) = .ok (rowCodes K bits r) := by
      intro r hr
      obtain ⟨hlen, hcodes⟩ := unpackCodes_packCodes (rowCodes_lt r) (hpack r hr)
      rw [rowCodes_length hr] at hlen hcodes
      exact ⟨Except.ok.inj (hlen.symm.trans hrow), hcodes⟩
    have hpayload : ((chunksExact values vectorLen).flatMap (rowPayload K bits)).length =
        values.length / vectorLen * rowBytes := by
      rw [length_flatMap_rows fun r hr => (hunpack r hr).1, hcount]
    have hfits : values.length / vectorLen * rowBytes ≤ wordMax := by
      have hbytes : rowBytes ≤ vectorLen * bits.bitWidth := by
        have hpos := Nat.mul_pos hv (bitWidth_pos bits)
        rw [(payloadBytes_eq_ok.1 hrow).2]
        omega
      calc values.length / vectorLen * rowBytes
          ≤ values.length / vectorLen * (vectorLen * bits.bitWidth) := Nat.mul_le_mul_left _ hbytes
        _ = values.length * bits.bitWidth := by
          rw [← Nat.mul_assoc, Nat.div_mul_cancel (Nat.dvd_of_mod_eq_zero hmod)]
        _ ≤ wordMax := by omega
    refine ⟨by rw [List.length_map, hcount], rowBytes, hrow, ?_, ?_, ?_⟩
    · rw [List.length_map, hcount, hpayload]
    · intro i hi
      rw [List.length_map, hcount] at hi
      have hchunk : (chunksExact values vectorLen)[i]? = some (row values vectorLen i) := by
        rw [chunksExact, List.getElem?_map, List.getElem?_range hi, Option.map_some]
      have hmem := List.mem_of_getElem? hchunk
      have hread := row_flatMap (fun r hr => (hunpack r hr).1) hchunk
      dsimp only
      rw [hread]
      refine ⟨hpack _ hmem, ?_, (hunpack _ hmem).2⟩
      have hend : i * rowBytes + rowBytes ≤ values.length / vectorLen * rowBytes := row_end_le hi
      rw [getRange, if_pos ⟨by omega, by rw [hpayload]; exact hend⟩]
      exact congrArg some hread
    · intro value
      have hloop := @dequantizeLoop_ok bits K value
        { bits, vectorLen, valueCount := values.length,
          rows := (chunksExact values vectorLen).map (rowOf K bits),
          payload := (chunksExact values vectorLen).flatMap (rowPayload K bits) }
        rowBytes (by dsimp only; rw [hpayload]; exact hfits)
        (chunksExact values vectorLen) [] (fun r hr => (hunpack r hr).1)
        (fun r hr => (hunpack r hr).2) rfl
      have hmul : checkedMul rowBytes (values.length / vectorLen) =
          some (values.length / vectorLen * rowBytes) := by
        rw [checkedMul_of_le (by rw [Nat.mul_comm]; exact hfits), Nat.mul_comm]
      have hshape : ¬(vectorLen = 0 ∨ values.length % vectorLen ≠ 0) := by
        rw [not_or, not_not]
        exact ⟨hv.ne', hmod⟩
      simp only [QuantizedValueBlock.dequantize, throw_bind, if_neg hshape, hrow, ok_bind,
        List.length_map, hcount, hmul, hpayload, ne_eq, not_true, if_false]
      exact hloop

/-- `7.0` -/
def F32.seven : F32 := ⟨0x40E00000⟩

/-- What the formulas answer for three bits on rows of `0.0` and `7.0`: a row with both has the
scale `1.0`. -/
def QuantKernels.onZeroAndSeven : QuantKernels where
  int8Scale := QuantKernels.onZeroRows.int8Scale
  int8Code := QuantKernels.onZeroRows.int8Code
  vqZeroPoint r := if F32.zero ∈ r then F32.zero else F32.seven
  vqScale _ r := if F32.zero ∈ r ∧ F32.seven ∈ r then ⟨0x3F800000⟩ else F32.zero
  vqCode bits zeroPoint scale value :=
    if scale = F32.zero ∨ value = zeroPoint then 0 else bits.levelCount - 1
  vqCode_le bits zeroPoint scale value := by
    split
    · exact Nat.zero_le _
    · exact le_rfl

/-- Three codes of three bits share two bytes, and so does each row of a block of two. -/
theorem three_codes_round_trip :
    (∃ bytes, packCodes .three [5, 7, 1] = .ok bytes ∧
      KvCacheValueQuantizationBits.three.payloadBytes 3 = .ok bytes.length ∧
      unpackCodes .three 3 bytes = .ok [5, 7, 1]) ∧
    ∃ b, QuantizedValueBlock.quantize .onZeroAndSeven .three
        [.zero, .seven, .zero, .seven, .seven, .zero] 3 = .ok b ∧
      b.payload.length = 4 ∧ unpackCodes .three 3 (row b.payload 2 1) = .ok [7, 7, 0] := by
  refine ⟨((value_codes_round_trip .three).1 [5, 7, 1] (by decide)).1 (by decide), ?_⟩
  obtain ⟨b, hb⟩ : ∃ b, QuantizedValueBlock.quantize .onZeroAndSeven .three
      [.zero, .seven, .zero, .seven, .seven, .zero] 3 = .ok b := ⟨_, rfl⟩
  obtain ⟨hcount, rowBytes, hbytes, hlen, hrows, -⟩ :=
    (value_codes_round_trip .three).2 .onZeroAndSeven _ 3 b hb
  obtain rfl : 2 = rowBytes := Except.ok.inj hbytes
  have htwo : b.rows.length = 2 := hcount
  rw [htwo] at hlen hrows
  exact ⟨b, hb, hlen, (hrows 1 (by decide)).2.2⟩

end Rows

end KirAi.KvCache
