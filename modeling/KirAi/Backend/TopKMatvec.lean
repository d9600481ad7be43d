/-
# The best logits of an output head

`safetensors.rs`: the rows of a BF16 tensor are read chunk by chunk, each row is
multiplied with the input, and the best `k` products are kept. The chunks are
read from one range of bytes each; what a row gives does not depend on the chunk
it is read in, so the result is that of one pass over all rows.

Key definitions: `withBf16TensorBytesRange`, `bf16MatvecTopKRowsF32`.
Key theorems: `bf16MatvecTopKRowsF32_eq`, `top_k_selections_agree`.
-/
import KirAi.Backend.TopK

namespace KirAi.Backend

open Lib KvCache

structure TensorLoadError where
  code : String
  message : String
deriving DecidableEq, Repr

namespace TensorLoadError

def integrity (message : String) : TensorLoadError := ⟨"model_integrity_failed", message⟩

def unsupported (message : String) : TensorLoadError := ⟨"unsupported_capability", message⟩

end TensorLoadError

/-- `map_err(|err| TensorLoadError::integrity(err.to_string()))` -/
def ofMath {α : Type} : Except MathError α → Except TensorLoadError α
  | .ok a => .ok a
  | .error e => .error (.integrity e.display)

/-- `ok_or_else(|| TensorLoadError::integrity(message))` -/
def orIntegrity {α : Type} (o : Option α) (message : String) : Except TensorLoadError α :=
  match o with
  | some a => .ok a
  | none => .error (.integrity message)

/-- `if !c { return Err(e) }` -/
def check (c : Prop) [Decidable c] (e : TensorLoadError) : Except TensorLoadError Unit :=
  if c then .ok () else .error e

/-- A tensor of a file, with the bytes of its range. -/
structure Bf16Tensor where
  name : String
  dtype : String
  shape : List ℕ
  bytes : List Byte

namespace Bf16Tensor

variable (t : Bf16Tensor)

def about (text : String) : String := "tensor " ++ "`" ++ t.name ++ "`" ++ text

def withTensorBytesRange {α : Type} (byteOffset byteLen : ℕ)
    (read : List Byte → Except TensorLoadError α) : Except TensorLoadError α := do
  let requestedEnd ← orIntegrity (checkedAdd byteOffset byteLen) (t.about " range overflow")
  check (requestedEnd ≤ t.bytes.length)
    (.integrity (t.about " requested byte range exceeds tensor length"))
  read (slice t.bytes byteOffset requestedEnd)

def withBf16TensorBytesRange {α : Type} (elementOffset elementCount : ℕ)
    (read : List Byte → Except TensorLoadError α) : Except TensorLoadError α := do
  check (t.dtype = "BF16") (.unsupported (t.about (" has dtype " ++ t.dtype ++ ", expected BF16")))
  let byteOffset ← orIntegrity (checkedMul elementOffset 2) "BF16 element offset overflow"
  let byteLen ← orIntegrity (checkedMul elementCount 2) "BF16 element count overflow"
  t.withTensorBytesRange byteOffset byteLen read

end Bf16Tensor

def bf16RowByteLen (columns : ℕ) (context : String) : Except TensorLoadError ℕ :=
  orIntegrity (checkedMul columns 2) (context ++ " row byte length overflow")

def bf16RowBytes (bytes : List Byte) (rowOffset rowByteLen : ℕ) (context : String) :
    Except TensorLoadError (List Byte) := do
  let start ← orIntegrity (checkedMul rowOffset rowByteLen) (context ++ " row offset overflow")
  let stop ← orIntegrity (checkedAdd start rowByteLen) (context ++ " row range overflow")
  orIntegrity (getRange bytes start stop) (context ++ " BF16 row range is invalid")

section Matvec

variable (kernel : List Byte → List F32 → F32)

/-- `kernel` is the scalar or the vector loop. -/
def bf16DotF32 (rowBytes : List Byte) (input : List F32) : Except TensorLoadError F32 := do
  let expectedByteLen ← orIntegrity (checkedMul input.length 2) "BF16 dot input byte length overflow"
  check (rowBytes.length = expectedByteLen) (.integrity ("BF16 row byte length " ++
    toString rowBytes.length ++ " does not match input byte length " ++ toString expectedByteLen))
  return kernel rowBytes input

/-- `(0..rows).step_by(chunk_rows)` -/
def rowStarts (rows chunkRows : ℕ) : List ℕ :=
  (List.range ((rows + chunkRows - 1) / chunkRows)).map (· * chunkRows)

/-- One row of a chunk. -/
def topKRow (input : List F32) (topK rowByteLen rowStart : ℕ) (weights : List Byte)
    (top : List TopKLogit) (rowOffset : ℕ) : Except TensorLoadError (List TopKLogit) := do
  let row ← bf16RowBytes weights rowOffset rowByteLen "top-k matvec chunk"
  let logit ← bf16DotF32 kernel row input
  ofMath (pushTopLogit top ⟨rowStart + rowOffset, logit⟩ topK)

def topKChunk (t : Bf16Tensor) (input : List F32) (topK chunkRows rows columns rowByteLen : ℕ)
    (top : List TopKLogit) (rowStart : ℕ) : Except TensorLoadError (List TopKLogit) := do
  let rowsInChunk := min chunkRows (rows - rowStart)
  let elementOffset ← orIntegrity (checkedMul rowStart columns) "top-k matvec offset overflow"
  let elementCount ← orIntegrity (checkedMul rowsInChunk columns) "top-k matvec chunk overflow"
  t.withBf16TensorBytesRange elementOffset elementCount fun weights =>
    (List.range rowsInChunk).foldlM (topKRow kernel input topK rowByteLen rowStart weights) top

def bf16MatvecTopKRowsF32 (t : Bf16Tensor) (input : List F32) (topK chunkRows : ℕ) :
    Except TensorLoadError (List TopKLogit) :=
  match t.shape with
  | [rows, columns] => do
    check (input.length = columns) (.integrity ("input length " ++ toString input.length ++
      " does not match " ++ t.about (" columns " ++ toString columns)))
    check (1 ≤ topK ∧ topK ≤ rows)
      (.integrity ("top_k " ++ toString topK ++ " must be in 1..=" ++ toString rows))
    check (chunkRows ≠ 0) (.integrity "chunk_rows must be greater than zero")
    let rowByteLen ← bf16RowByteLen columns "top-k matvec"
    (rowStarts rows chunkRows).foldlM (topKChunk kernel t input topK chunkRows rows columns rowByteLen) []
  | shape => .error (.unsupported (t.about (" top-k matvec expects rank 2, got rank " ++
      toString shape.length)))

/-- What each row gives. -/
def rowLogits (t : Bf16Tensor) (input : List F32) (rows columns : ℕ) : List F32 :=
  (List.range rows).map fun r => kernel (row t.bytes (columns * 2) r) input

end Matvec

/-! ### In chunks as in one pass -/

/-- A matrix in memory: as many bytes as its shape says. -/
structure Bf16Tensor.IsMatrix (t : Bf16Tensor) (rows columns : ℕ) : Prop where
  dtype : t.dtype = "BF16"
  shape : t.shape = [rows, columns]
  bytes : t.bytes.length = rows * (columns * 2)
  fits : t.bytes.length ≤ wordMax

section Rows

variable {kernel : List Byte → List F32 → F32} {t : Bf16Tensor} {input : List F32}
  {rows columns k chunkRows : ℕ}

@[simp] theorem check_ok {c : Prop} [Decidable c] {e : TensorLoadError} (h : c) : check c e = .ok () :=
  if_pos h

theorem foldlM_congr {σ ε β : Type} {f g : σ → β → Except ε σ} : ∀ {l : List β} {s : σ},
    (∀ s, ∀ b ∈ l, f s b = g s b) → l.foldlM f s = l.foldlM g s
  | [], _, _ => rfl
  | b :: l, s, h => by
    rw [List.foldlM_cons, List.foldlM_cons, h s b (List.mem_cons_self ..)]
    refine congrArg _ (funext fun s' => ?_)
    exact foldlM_congr fun s c hc => h s c (List.mem_cons_of_mem _ hc)

theorem ofMath_bind {α β : Type} {x : Except MathError α} {f : α → Except MathError β} :
    ofMath (x >>= f) = ofMath x >>= fun a => ofMath (f a) := by
  cases x <;> rfl

theorem ofMath_foldlM {σ β : Type} {f : σ → β → Except MathError σ} : ∀ {l : List β} {s : σ},
    ofMath (l.foldlM f s) = l.foldlM (fun s b => ofMath (f s b)) s
  | [], _ => rfl
  | b :: l, s => by
    rw [List.foldlM_cons, List.foldlM_cons, ofMath_bind]
    exact congrArg _ (funext fun s' => ofMath_foldlM)

theorem foldlM_flatMap {σ ε β γ : Type} {f : γ → List β} {g : σ → β → Except ε σ} :
    ∀ {l : List γ} {s : σ}, (l.flatMap f).foldlM g s = l.foldlM (fun s c => (f c).foldlM g s) s
  | [], _ => rfl
  | c :: l, s => by
    rw [List.flatMap_cons, List.foldlM_append, List.foldlM_cons]
    exact congrArg _ (funext fun s' => foldlM_flatMap)

/-- The chunks list the rows in order. -/
theorem rowStarts_flatMap (hchunk : 0 < chunkRows) :
    (rowStarts rows chunkRows).flatMap
      (fun start => (List.range (min chunkRows (rows - start))).map (start + ·)) = List.range rows := by
  have hpartial : ∀ m, ((List.range m).map (· * chunkRows)).flatMap
      (fun start => (List.range (min chunkRows (rows - start))).map (start + ·)) =
        List.range (min (m * chunkRows) rows) := by
    intro m
    induction m with
    | zero => rw [Nat.zero_mul, Nat.zero_min]; rfl
    | succ m ih =>
      rw [List.range_succ, List.map_append, List.flatMap_append, ih, List.map_cons, List.map_nil,
        List.flatMap_singleton, Nat.succ_mul]
      rcases Nat.le_total (m * chunkRows) rows with hle | hle
      · rw [Nat.min_eq_left hle, ← List.range_add]
        congr 1
        omega
      · rw [Nat.sub_eq_zero_of_le hle, Nat.min_zero, List.range_zero, List.map_nil, List.append_nil]
        congr 1
        omega
  have hall : rows ≤ (rows + chunkRows - 1) / chunkRows * chunkRows := by
    have := Nat.lt_div_mul_add (a := rows + chunkRows - 1) hchunk
    omega
  rw [rowStarts, hpartial, Nat.min_eq_right hall]

/-- A row of a chunk is the row of the tensor. -/
theorem row_slice {l : List Byte} {w start n j : ℕ} (hj : j < n) :
    row (slice l (start * w) (start * w + n * w)) w j = row l w (start + j) := by
  have hle : j * w + w ≤ n * w := by
    have := Nat.mul_le_mul_right w (show j + 1 ≤ n by omega)
    rwa [Nat.succ_mul] at this
  rw [row, row, slice, slice, slice, Nat.add_mul, List.drop_take, List.take_take, List.drop_drop]
  congr 1
  omega

/-- One row of a chunk of a matrix, on its own index. -/
theorem topKRow_eq (ht : t.IsMatrix rows columns) (hinput : input.length = columns) {start n j : ℕ}
    (hn : start + n ≤ rows) (hj : j < n) (top : List TopKLogit) :
    topKRow kernel input k (columns * 2) start
        (slice t.bytes (start * (columns * 2)) (start * (columns * 2) + n * (columns * 2))) top j =
      ofMath (pushTopLogit top ⟨start + j, kernel (row t.bytes (columns * 2) (start + j)) input⟩ k) := by
  have hall : (start + n) * (columns * 2) ≤ t.bytes.length :=
    ht.bytes ▸ Nat.mul_le_mul_right _ hn
  rw [Nat.add_mul] at hall
  have hend : j * (columns * 2) + columns * 2 ≤ n * (columns * 2) := by
    have := Nat.mul_le_mul_right (columns * 2) (show j + 1 ≤ n by omega)
    rwa [Nat.succ_mul] at this
  have hfits := ht.fits
  have hlen : (slice t.bytes (start * (columns * 2)) (start * (columns * 2) + n * (columns * 2))).length =
      n * (columns * 2) := by
    rw [slice_length hall, Nat.add_sub_cancel_left]
  have hrow : bf16RowBytes (slice t.bytes (start * (columns * 2))
      (start * (columns * 2) + n * (columns * 2))) j (columns * 2) "top-k matvec chunk" =
        .ok (row t.bytes (columns * 2) (start + j)) := by
    rw [bf16RowBytes, checkedMul_of_le (by omega), orIntegrity, ok_bind, checkedAdd_of_le (by omega),
      orIntegrity, ok_bind, getRange, if_pos ⟨by omega, by rw [hlen]; exact hend⟩, orIntegrity]
    exact congrArg _ (row_slice hj)
  have hwidth : (row t.bytes (columns * 2) (start + j)).length = columns * 2 := by
    rw [← row_slice hj, row, slice_length (by rw [hlen]; exact hend), Nat.add_sub_cancel_left]
  have hdot : bf16DotF32 kernel (row t.bytes (columns * 2) (start + j)) input =
      .ok (kernel (row t.bytes (columns * 2) (start + j)) input) := by
    rw [bf16DotF32, hinput, checkedMul_of_le (by omega), orIntegrity, ok_bind, check_ok hwidth]
    rfl
  rw [topKRow, hrow, ok_bind, hdot, ok_bind]

/-- A chunk of a matrix. -/
theorem topKChunk_eq (ht : t.IsMatrix rows columns) (hinput : input.length = columns) {start : ℕ}
    (hstart : start < rows) (top : List TopKLogit) :
    topKChunk kernel t input k chunkRows rows columns (columns * 2) top start =
      (List.range (min chunkRows (rows - start))).foldlM (fun top j => ofMath (pushTopLogit top
        ⟨start + j, kernel (row t.bytes (columns * 2) (start + j)) input⟩ k)) top := by
  have hn : start + min chunkRows (rows - start) ≤ rows := by omega
  have hall : (start + min chunkRows (rows - start)) * (columns * 2) ≤ t.bytes.length :=
    ht.bytes ▸ Nat.mul_le_mul_right _ hn
  rw [Nat.add_mul, ← Nat.mul_assoc, ← Nat.mul_assoc] at hall
  have hfits := ht.fits
  rw [topKChunk]
  rw [checkedMul_of_le (by omega), orIntegrity, ok_bind, checkedMul_of_le (by omega), orIntegrity,
    ok_bind, Bf16Tensor.withBf16TensorBytesRange, check_ok ht.dtype, ok_bind,
    checkedMul_of_le (by omega), orIntegrity, ok_bind, checkedMul_of_le (by omega), orIntegrity, ok_bind,
    Bf16Tensor.withTensorBytesRange, checkedAdd_of_le (by omega), orIntegrity, ok_bind,
    check_ok hall, ok_bind]
  refine foldlM_congr fun top j hj => ?_
  rw [Nat.mul_assoc, Nat.mul_assoc]
  exact topKRow_eq ht hinput hn (List.mem_range.mp hj) top

theorem rankedFrom_rows (f : ℕ → F32) : ∀ (n start : ℕ),
    rankedFrom start ((List.range n).map fun j => f (start + j)) =
      (List.range n).map fun j => ⟨start + j, f (start + j)⟩
  | 0, _ => rfl
  | n + 1, start => by
    rw [List.range_succ_eq_map, List.map_cons, List.map_map, List.map_cons, List.map_map, rankedFrom]
    congr 1
    have hrest := rankedFrom_rows f n (start + 1)
    simp only [Nat.add_assoc, Nat.add_comm 1] at hrest
    exact hrest

/-- The output head in chunks is one pass over what its rows give. -/
theorem bf16MatvecTopKRowsF32_eq (ht : t.IsMatrix rows columns) (hinput : input.length = columns)
    (hk : 1 ≤ k) (hrows : k ≤ rows) (hchunk : 0 < chunkRows) :
    bf16MatvecTopKRowsF32 kernel t input k chunkRows =
      ofMath (topLogitsBoundedInsert (rowLogits kernel t input rows columns) k) := by
  have hwidth : columns * 2 ≤ t.bytes.length :=
    ht.bytes ▸ Nat.le_mul_of_pos_left _ (by omega)
  have hfits := ht.fits
  rw [bf16MatvecTopKRowsF32, ht.shape]
  dsimp only
  rw [check_ok hinput, ok_bind, check_ok ⟨hk, hrows⟩, ok_bind, check_ok (by omega), ok_bind,
    bf16RowByteLen, checkedMul_of_le (by omega), orIntegrity, ok_bind]
  have hranked : rankedFrom 0 (rowLogits kernel t input rows columns) =
      (List.range rows).map fun r => ⟨r, kernel (row t.bytes (columns * 2) r) input⟩ := by
    have := rankedFrom_rows (fun r => kernel (row t.bytes (columns * 2) r) input) rows 0
    simp only [Nat.zero_add] at this
    exact this
  rw [topLogitsBoundedInsert, hranked, pushTopLogits, ofMath_foldlM, List.foldlM_map,
    ← rowStarts_flatMap hchunk, foldlM_flatMap]
  refine foldlM_congr fun top start hstart => ?_
  obtain ⟨m, hm, rfl⟩ := List.mem_map.mp hstart
  have hlt : m * chunkRows < rows := by
    have hm' := List.mem_range.mp hm
    have := (Nat.le_div_iff_mul_le hchunk).mp (show m + 1 ≤ (rows + chunkRows - 1) / chunkRows from hm')
    rw [Nat.succ_mul] at this
    omega
  rw [topKChunk_eq ht hinput hlt, List.foldlM_map]

end Rows

/-! ### All the selections -/

/-- One pass, chunks, partial selection and a full sort give the same list, or
the same error; a router and an output head have it whatever they choose. -/
theorem top_k_selections_agree (Q : Selector TopKLogit) (S : Sorter TopKLogit) (logits : List F32)
    {k : ℕ} (hk : 1 ≤ k) :
    ((∀ x ∈ logits, x.isFinite = true) →
      topLogitsBoundedInsert logits k = .ok (sortedTopLogits S logits k) ∧
      topLogitsPartialSelect Q S logits k = .ok (sortedTopLogits S logits k)) ∧
    ((∃ x ∈ logits, x.isFinite = false) →
      topLogitsBoundedInsert logits k = .error notFinite ∧
      topLogitsPartialSelect Q S logits k = .error notFinite) ∧
    (∀ chunks : List (List F32), chunks.flatten = logits →
      topLogitsOfChunks k 0 [] chunks = topLogitsBoundedInsert logits k) ∧
    (∀ weigh : List TopKLogit → Except MathError (List TopKWeight), k ≤ logits.length →
      softmaxTopKF32 Q S weigh logits k = topLogitsBoundedInsert logits k >>= weigh) ∧
    ∀ (kernel : List Byte → List F32 → F32) (t : Bf16Tensor) (input : List F32)
      (rows columns chunkRows : ℕ), t.IsMatrix rows columns → input.length = columns → k ≤ rows →
      0 < chunkRows → rowLogits kernel t input rows columns = logits →
      bf16MatvecTopKRowsF32 kernel t input k chunkRows = ofMath (topLogitsBoundedInsert logits k) := by
  have hsorted : sortedTopLogits S logits k = firsts k (rankedFrom 0 logits) := by
    rw [sortedTopLogits, S.sort_eq, firsts]
  have hok : (∀ x ∈ logits, x.isFinite = true) →
      topLogitsBoundedInsert logits k = .ok (sortedTopLogits S logits k) ∧
      topLogitsPartialSelect Q S logits k = .ok (sortedTopLogits S logits k) := by
    intro hfinite
    rw [hsorted]
    exact ⟨boundedInsert_eq hk hfinite, partialSelect_eq hfinite⟩
  have herror : (∃ x ∈ logits, x.isFinite = false) →
      topLogitsBoundedInsert logits k = .error notFinite ∧
      topLogitsPartialSelect Q S logits k = .error notFinite := by
    intro hbad
    refine ⟨pushTopLogits_error hk ?_, ?_⟩
    · by_contra hnone
      push Not at hnone
      obtain ⟨x, hx, hfalse⟩ := hbad
      have hall : ∀ x ∈ logits, x.isFinite = true := rankedFrom_finite.mp
        fun t (ht : t ∈ rankedFrom 0 logits) => Bool.not_eq_false _ |>.mp (hnone t ht)
      rw [hall x hx] at hfalse
      cases hfalse
    · rw [topLogitsPartialSelect, collectFinite_error hbad]
      rfl
  refine ⟨hok, herror, ?_, ?_, ?_⟩
  · rintro chunks rfl
    exact topLogitsOfChunks_eq 0 [] chunks
  · intro weigh hlen
    rw [softmaxTopKF32, if_neg (by omega)]
    by_cases hlimit : k ≤ topKBoundedInsertionLimit
    · rw [if_pos hlimit]
    · rw [if_neg hlimit]
      by_cases hbad : ∃ x ∈ logits, x.isFinite = false
      · rw [(herror hbad).1, (herror hbad).2]
      · have hfinite : ∀ x ∈ logits, x.isFinite = true := by
          intro x hx
          exact Bool.not_eq_false _ |>.mp fun hfalse => hbad ⟨x, hx, hfalse⟩
        rw [(hok hfinite).1, (hok hfinite).2]
  · rintro kernel t input rows columns chunkRows ht hinput hrows hchunk rfl
    exact bf16MatvecTopKRowsF32_eq ht hinput hk hrows hchunk

/-- `1`, `4`, `4` and `3`. -/
def sampleLogits : List F32 := [⟨0x3f800000⟩, ⟨0x40800000⟩, ⟨0x40800000⟩, ⟨0x40400000⟩]

/-- The same, as a column of BF16 rows. -/
def sampleTensor : Bf16Tensor :=
  ⟨"lm_head.weight", "BF16", [4, 1], [0x80, 0x3f, 0x80, 0x40, 0x80, 0x40, 0x40, 0x40]⟩

/-- What the dot product is for one column and the input `1`. -/
def widen (row : List Byte) (_ : List F32) : F32 := ⟨BitVec.ofNat 32 (fromLe row * 2 ^ 16)⟩

theorem top_k_selections_agree_sample :
    topLogitsBoundedInsert sampleLogits 2 = .ok [⟨1, ⟨0x40800000⟩⟩, ⟨2, ⟨0x40800000⟩⟩] ∧
    topLogitsPartialSelect .ofSorting .ofInsertion sampleLogits 2 =
      .ok [⟨1, ⟨0x40800000⟩⟩, ⟨2, ⟨0x40800000⟩⟩] ∧
    topLogitsOfChunks 2 0 [] [sampleLogits.take 3, sampleLogits.drop 3] =
      .ok [⟨1, ⟨0x40800000⟩⟩, ⟨2, ⟨0x40800000⟩⟩] ∧
    bf16MatvecTopKRowsF32 widen sampleTensor [⟨0x3f800000⟩] 2 3 =
      .ok [⟨1, ⟨0x40800000⟩⟩, ⟨2, ⟨0x40800000⟩⟩] := by
  obtain ⟨hok, -, hchunks, -, hmatvec⟩ :=
    top_k_selections_agree .ofSorting .ofInsertion sampleLogits (k := 2) (by decide)
  obtain ⟨hinsert, hselect⟩ := hok (by decide)
  have hsorted : sortedTopLogits .ofInsertion sampleLogits 2 =
      [⟨1, ⟨0x40800000⟩⟩, ⟨2, ⟨0x40800000⟩⟩] := by decide
  rw [hsorted] at hinsert hselect
  refine ⟨hinsert, hselect, ?_, ?_⟩
  · rw [hchunks _ (by decide), hinsert]
  · rw [hmatvec widen sampleTensor [⟨0x3f800000⟩] 4 1 3 ⟨rfl, rfl, rfl, by decide⟩ rfl (by decide)
      (by decide) (by decide), hinsert]
    rfl

end KirAi.Backend
