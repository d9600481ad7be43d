/-
# The tensor archive reads only what is there

A file of the disk cache may hold any bytes: it may be cut short or name ranges
outside of it. The readers are written a second time with the operations on which
the source would panic, a difference of offsets and an index into a list or a chunk.
They panic on no file (`fromBytesSteps_eq`), and every tensor they give is made of
the whole four-byte values of a range of the file behind the header
(`fromBytes_inRange`). What `encode_safetensors` wrote is read back.

Key definitions: `fromBytesSteps`, `NativeTextDiskCacheTensor.FromRange`.
Key theorems: `fromBytesSteps_eq`, `fromBytes_inRange`, `archive_roundTrip_and_ranges`.
-/
import Mathlib.Data.List.Permutation
import KirAi.Lib.Panics
import KirAi.NativeRuntime.DiskRoundTrip

namespace KirAi.NativeRuntime

open Lib KvCache

/-! ### The readers, operation by operation -/

abbrev DiskSteps := Except (Stop NativeTextDiskCacheError)

/-- `f32::from_le_bytes([chunk[0], chunk[1], chunk[2], chunk[3]])` -/
def f32FromChunk (chunk : List Byte) : DiskSteps F32 := do
  let b₀ ← indexOrPanic chunk 0
  let b₁ ← indexOrPanic chunk 1
  let b₂ ← indexOrPanic chunk 2
  let b₃ ← indexOrPanic chunk 3
  pure (F32.fromLeBytes [b₀, b₁, b₂, b₃])

/-- `end < start || (end - start) % size_of::<f32>() != 0` -/
def invalidRange (start stop : ℕ) : DiskSteps Bool :=
  if stop < start then pure true
  else do
    let size ← subOrPanic stop start
    pure (size % 4 ≠ 0)

/-- The round of `tensors_from_header` for one entry. -/
def tensorFromEntrySteps (bytes : List Byte) (dataStart : ℕ) (name : String) (value : Json) :
    DiskSteps NativeTextDiskCacheTensor := do
  let object ← returning (okOrElse value.asObject (aboutTensor name "header is not an object"))
  if (lookupKey object "dtype").bind Json.asStr ≠ some "F32" then
    throw (.error (integrity (aboutTensor name "is not F32")))
  let shapeValues ← returning (okOrElse ((lookupKey object "shape").bind Json.asArray)
    (aboutTensor name "is missing shape"))
  let shape ← shapeValues.mapM fun value =>
    returning (okOrElse value.asU64 (aboutTensor name "has invalid shape"))
  let offsets ← returning (okOrElse ((lookupKey object "data_offsets").bind Json.asArray)
    (aboutTensor name "is missing data offsets"))
  if offsets.length ≠ 2 then
    throw (.error (integrity (aboutTensor name "data offsets are invalid")))
  let first ← indexOrPanic offsets 0
  let start ← returning (okOrElse first.asU64 (aboutTensor name "offset is invalid"))
  let second ← indexOrPanic offsets 1
  let stop ← returning (okOrElse second.asU64 (aboutTensor name "offset is invalid"))
  if ← invalidRange start stop then
    throw (.error (integrity (aboutTensor name "byte range is invalid")))
  let fileStart ← returning (okOrElse (checkedAdd dataStart start) "tensor start overflow")
  let fileEnd ← returning (okOrElse (checkedAdd dataStart stop) "tensor end overflow")
  let data ← returning (okOrElse (getRange bytes fileStart fileEnd)
    (aboutTensor name "payload is truncated"))
  let values ← (chunks data 4).mapM f32FromChunk
  pure { name, shape, values }

def tensorsFromHeaderSteps (bytes : List Byte) (header : List (String × Json)) :
    DiskSteps (List NativeTextDiskCacheTensor) := do
  let headerLenBytes ← returning (okOrElse (getRange bytes 0 8) "missing header length")
  let headerLen := fromLe headerLenBytes
  let dataStart ← returning (okOrElse (checkedAdd 8 headerLen) "safetensors data start overflow")
  let tensors ← (header.filter (·.1 ≠ "__metadata__")).mapM fun e =>
    tensorFromEntrySteps bytes dataStart e.1 e.2
  if tensors.isEmpty then throw (.error (integrity "disk cache block has no tensors"))
  pure tensors

/-- `from_bytes`; the header and the metadata are read with checked operations only. -/
def fromBytesSteps (J : SerdeJson) (bytes : List Byte) :
    DiskSteps (NativeTextDiskCacheBlockMetadata × NativeTextDiskCacheTensorArchive) := do
  let header ← returning (safetensorsHeaderJson J bytes)
  let metadata ← returning (metadataFromHeader J header)
  let tensors ← tensorsFromHeaderSteps bytes header
  pure (metadata, ⟨tensors⟩)

/-! ### No operation panics -/

theorem chunk_length {data : List Byte} {chunk : List Byte} (h : chunk ∈ chunks data 4) :
    chunk.length = 4 := by
  obtain ⟨i, hi, rfl⟩ := List.mem_map.mp h
  rw [List.mem_range] at hi
  have hle : (i + 1) * 4 ≤ data.length :=
    le_trans (Nat.mul_le_mul_right 4 hi) (Nat.div_mul_le_self data.length 4)
  rw [row, slice_length (by omega)]
  omega

theorem f32FromChunk_eq {chunk : List Byte} (h : chunk.length = 4) :
    f32FromChunk chunk = .ok (F32.fromLeBytes chunk) := by
  match chunk, h with
  | [b₀, b₁, b₂, b₃], _ => rfl

theorem chunks_mapM : ∀ {l : List (List Byte)}, (∀ chunk ∈ l, chunk.length = 4) →
    l.mapM f32FromChunk = .ok (l.map F32.fromLeBytes)
  | [], _ => rfl
  | chunk :: l, h => by
    rw [List.mapM_cons, f32FromChunk_eq (h _ (List.mem_cons_self ..)),
      chunks_mapM fun c hc => h c (List.mem_cons_of_mem _ hc)]
    rfl

theorem invalidRange_eq (start stop : ℕ) :
    invalidRange start stop = .ok (decide (stop < start ∨ (stop - start) % 4 ≠ 0)) := by
  unfold invalidRange
  by_cases h : stop < start
  · rw [if_pos h]
    simp [h]
  · rw [if_neg h, subOrPanic_of_le (by omega)]
    simp [h]

theorem tensorFromEntrySteps_eq (bytes : List Byte) (dataStart : ℕ) (name : String) (value : Json) :
    tensorFromEntrySteps bytes dataStart name value =
      returning (tensorFromEntry bytes dataStart name value) := by
  rw [tensorFromEntrySteps, tensorFromEntry, returning_bind]
  refine bind_congr fun object => ?_
  by_cases htype : (lookupKey object "dtype").bind Json.asStr ≠ some "F32"
  · rw [if_pos htype, if_pos htype]
    rfl
  rw [if_neg htype, if_neg htype]
  dsimp only
  rw [returning_bind]
  refine bind_congr fun shapeValues => ?_
  rw [returning_bind, returning_mapM]
  refine bind_congr fun shape => ?_
  rw [returning_bind]
  refine bind_congr fun offsets => ?_
  rcases offsets with _ | ⟨first, _ | ⟨second, _ | ⟨third, rest⟩⟩⟩
  · rfl
  · rfl
  · rw [if_neg (show ¬ [first, second].length ≠ 2 from fun h => h rfl),
      indexOrPanic_of_some (show [first, second][0]? = some first from rfl),
      indexOrPanic_of_some (show [first, second][1]? = some second from rfl)]
    simp only [ok_bind, returning_bind]
    refine bind_congr fun start => bind_congr fun stop => ?_
    rw [invalidRange_eq, ok_bind]
    by_cases hrange : stop < start ∨ (stop - start) % 4 ≠ 0
    · rw [if_pos (decide_eq_true hrange), if_pos hrange]
      rfl
    · rw [if_neg (by simpa using hrange), if_neg hrange]
      simp only [returning_bind]
      refine bind_congr fun fileStart => bind_congr fun fileEnd => bind_congr fun data => ?_
      rw [chunks_mapM fun chunk h => chunk_length h]
      rfl
  · rfl

theorem tensorsFromHeaderSteps_eq (bytes : List Byte) (header : List (String × Json)) :
    tensorsFromHeaderSteps bytes header = returning (tensorsFromHeader bytes header) := by
  rw [tensorsFromHeaderSteps, tensorsFromHeader, returning_bind]
  refine bind_congr fun headerLenBytes => ?_
  rw [returning_bind]
  refine bind_congr fun dataStart => ?_
  rw [returning_bind, returning_mapM]
  simp only [tensorFromEntrySteps_eq]
  refine bind_congr fun tensors => ?_
  by_cases hempty : tensors.isEmpty = true
  · rw [if_pos hempty, if_pos hempty]
    rfl
  · rw [if_neg hempty, if_neg hempty]
    rfl

/-- On every file the reader answers or returns an error. -/
theorem fromBytesSteps_eq (J : SerdeJson) (bytes : List Byte) :
    fromBytesSteps J bytes = returning (NativeTextDiskCacheTensorArchive.fromBytes J bytes) := by
  rw [fromBytesSteps, NativeTextDiskCacheTensorArchive.fromBytes, returning_bind]
  refine bind_congr fun header => ?_
  rw [returning_bind]
  refine bind_congr fun metadata => ?_
  rw [returning_bind, tensorsFromHeaderSteps_eq]
  rfl

/-! ### What was read is in the file -/

/-- The values are those of `lo .. hi` of the file, which begins at `dataStart` or later. -/
structure NativeTextDiskCacheTensor.FromRange (t : NativeTextDiskCacheTensor) (bytes : List Byte)
    (dataStart lo hi : ℕ) : Prop where
  behindHeader : dataStart ≤ lo
  ordered : lo ≤ hi
  inFile : hi ≤ bytes.length
  whole : (hi - lo) % 4 = 0
  values : t.values = (chunks (slice bytes lo hi) 4).map F32.fromLeBytes

theorem getRange_eq_some {α : Type} {l r : List α} {a b : ℕ} :
    getRange l a b = some r ↔ a ≤ b ∧ b ≤ l.length ∧ r = slice l a b := by
  unfold getRange
  by_cases h : a ≤ b ∧ b ≤ l.length
  · rw [if_pos h]
    exact ⟨fun hr => ⟨h.1, h.2, (Option.some.inj hr).symm⟩, fun hr => by rw [hr.2.2]⟩
  · rw [if_neg h]
    exact ⟨fun hr => (by cases hr), fun hr => absurd ⟨hr.1, hr.2.1⟩ h⟩

@[simp] theorem okOrElse_eq_ok {α : Type} {o : Option α} {message : String} {a : α} :
    okOrElse o message = .ok a ↔ o = some a := by
  cases o with
  | none => simp [okOrElse]
  | some b => simp [okOrElse]

/-- A tensor that was read is a range of the file. -/
theorem tensorFromEntry_inRange {bytes : List Byte} {dataStart : ℕ} {name : String} {value : Json}
    {t : NativeTextDiskCacheTensor} (h : tensorFromEntry bytes dataStart name value = .ok t) :
    t.name = name ∧ ∃ lo hi, t.FromRange bytes dataStart lo hi := by
  rw [tensorFromEntry] at h
  obtain ⟨object, -, h⟩ := bind_eq_ok.1 h
  obtain ⟨-, h⟩ := guard_eq_ok.1 h
  obtain ⟨shapeValues, -, h⟩ := bind_eq_ok.1 h
  obtain ⟨shape, -, h⟩ := bind_eq_ok.1 h
  obtain ⟨offsets, -, h⟩ := bind_eq_ok.1 h
  rcases offsets with _ | ⟨first, _ | ⟨second, _ | ⟨third, rest⟩⟩⟩
  · cases h
  · cases h
  · obtain ⟨start, -, h⟩ := bind_eq_ok.1 h
    obtain ⟨stop, -, h⟩ := bind_eq_ok.1 h
    obtain ⟨hrange, h⟩ := guard_eq_ok.1 h
    obtain ⟨fileStart, hstart, h⟩ := bind_eq_ok.1 h
    obtain ⟨fileEnd, hend, h⟩ := bind_eq_ok.1 h
    obtain ⟨data, hdata, h⟩ := bind_eq_ok.1 h
    obtain ⟨-, rfl⟩ := checkedAdd_eq_some.mp (okOrElse_eq_ok.mp hstart)
    obtain ⟨-, rfl⟩ := checkedAdd_eq_some.mp (okOrElse_eq_ok.mp hend)
    obtain ⟨hle, hin, rfl⟩ := getRange_eq_some.mp (okOrElse_eq_ok.mp hdata)
    obtain rfl := pure_eq_ok.1 h
    exact ⟨rfl, dataStart + start, dataStart + stop, by omega, hle, hin, by omega, rfl⟩
  · cases h

theorem tensorsFromHeader_inRange {bytes : List Byte} {header : List (String × Json)}
    {tensors : List NativeTextDiskCacheTensor} (h : tensorsFromHeader bytes header = .ok tensors) :
    ∀ t ∈ tensors, ∃ lo hi, t.FromRange bytes (8 + fromLe (bytes.take 8)) lo hi := by
  rw [tensorsFromHeader] at h
  obtain ⟨headerLenBytes, hlen, h⟩ := bind_eq_ok.1 h
  obtain ⟨dataStart, hstart, h⟩ := bind_eq_ok.1 h
  obtain ⟨read, hread, h⟩ := bind_eq_ok.1 h
  obtain ⟨-, h⟩ := guard_eq_ok.1 h
  obtain rfl := pure_eq_ok.1 h
  obtain ⟨-, -, rfl⟩ := getRange_eq_some.mp (okOrElse_eq_ok.mp hlen)
  obtain ⟨-, rfl⟩ := checkedAdd_eq_some.mp (okOrElse_eq_ok.mp hstart)
  intro t ht
  obtain ⟨e, -, he⟩ := mem_of_mapM_ok hread t ht
  exact (tensorFromEntry_inRange he).2

/-- The header is in the file, and every tensor comes from a range behind it. -/
theorem fromBytes_inRange {J : SerdeJson} {bytes : List Byte}
    {metadata : NativeTextDiskCacheBlockMetadata} {archive : NativeTextDiskCacheTensorArchive}
    (h : NativeTextDiskCacheTensorArchive.fromBytes J bytes = .ok (metadata, archive)) :
    8 + fromLe (bytes.take 8) ≤ bytes.length ∧
      ∀ t ∈ archive.tensors, ∃ lo hi, t.FromRange bytes (8 + fromLe (bytes.take 8)) lo hi := by
  rw [NativeTextDiskCacheTensorArchive.fromBytes] at h
  obtain ⟨header, hheader, h⟩ := bind_eq_ok.1 h
  obtain ⟨_, _, h⟩ := bind_eq_ok.1 h
  obtain ⟨tensors, htensors, h⟩ := bind_eq_ok.1 h
  obtain ⟨-, rfl⟩ := Prod.mk.inj (pure_eq_ok.1 h)
  refine ⟨?_, tensorsFromHeader_inRange htensors⟩
  rw [safetensorsHeaderJson] at hheader
  obtain ⟨headerLenBytes, hlen, h⟩ := bind_eq_ok.1 hheader
  obtain ⟨-, h⟩ := guard_eq_ok.1 h
  obtain ⟨headerEnd, hend, h⟩ := bind_eq_ok.1 h
  obtain ⟨_, hget, _⟩ := bind_eq_ok.1 h
  obtain ⟨-, -, rfl⟩ := getRange_eq_some.mp (okOrElse_eq_ok.mp hlen)
  obtain ⟨-, rfl⟩ := checkedAdd_eq_some.mp (okOrElse_eq_ok.mp hend)
  exact (getRange_eq_some.mp (okOrElse_eq_ok.mp hget)).2.1

/-! ### The archive -/

/-- What was written is read back in the order of the names, and no file makes the
reader panic or take a tensor from outside of the payload. -/
theorem archive_roundTrip_and_ranges (J : SerdeJson) :
    (J.Lawful → ∀ (metadata : NativeTextDiskCacheBlockMetadata)
      (tensors : List NativeTextDiskCacheTensor), tensors ≠ [] → (tensors.map (·.name)).Nodup →
      "__metadata__" ∉ tensors.map (·.name) →
      ∃ bytes, encodeSafetensors J metadata tensors = .ok bytes ∧ (Readable bytes →
        ∃ sorted, sorted.Perm tensors ∧ sorted.Pairwise (fun left right => left.name ≤ right.name) ∧
          fromBytesSteps J bytes = .ok (metadata, ⟨sorted⟩))) ∧
    ∀ bytes, fromBytesSteps J bytes ≠ .error .panic ∧
      ∀ metadata archive, fromBytesSteps J bytes = .ok (metadata, archive) →
        8 + fromLe (bytes.take 8) ≤ bytes.length ∧
        ∀ t ∈ archive.tensors, ∃ lo hi, t.FromRange bytes (8 + fromLe (bytes.take 8)) lo hi := by
  refine ⟨fun hJ metadata tensors hne hnames hmeta => ?_, fun bytes => ⟨?_, ?_⟩⟩
  · obtain ⟨bytes, hbytes, hread⟩ := fromBytes_encodeSafetensors hJ metadata hne hnames hmeta
    refine ⟨bytes, hbytes, fun hreadable => ?_⟩
    obtain ⟨sorted, hperm, hordered, hfrom⟩ := hread hreadable
    exact ⟨sorted, hperm, hordered, by rw [fromBytesSteps_eq, hfrom, returning_ok]⟩
  · rw [fromBytesSteps_eq]
    exact returning_ne_panic _
  · intro metadata archive h
    rw [fromBytesSteps_eq] at h
    exact fromBytes_inRange (returning_eq_ok.mp h)

def archivedMetadata : NativeTextDiskCacheBlockMetadata where
  codec := nativeTextDiskCacheCodec
  layoutVersion := nativeTextDiskCacheLayoutVersion
  cacheLayoutVersion := 1
  modelFamily := "gemma"
  modelHash := "m"
  snapshotHash := "s"
  namespaceHash := "n"
  previousBlockHash := "p"
  blockHash := "b"
  blockStart := 0
  tokenCount := 1
  hiddenShape := [2]
  layers := []

def archivedTensor : NativeTextDiskCacheTensor := ⟨"hidden", [2], [⟨5⟩, ⟨0x7fc00001⟩]⟩

def windowTensor : NativeTextDiskCacheTensor := ⟨"conv_window", [1, 1], [⟨7⟩]⟩

theorem archived_sorted : [archivedTensor, windowTensor].mergeSort
    (fun left right => left.name ≤ right.name) = [windowTensor, archivedTensor] := by
  have hafter : ¬archivedTensor.name ≤ windowTensor.name := by decide
  simp [List.mergeSort, List.MergeSort.Internal.splitInTwo, hafter]

/-- Two tensors that are not in the order of their names, with a NaN with a payload. -/
theorem archive_roundTrip_and_ranges_two_tensors :
    ∃ bytes, encodeSafetensors serdeJson archivedMetadata [archivedTensor, windowTensor] = .ok bytes ∧
      fromBytesSteps serdeJson bytes = .ok (archivedMetadata, ⟨[windowTensor, archivedTensor]⟩) ∧
      ∀ t ∈ [windowTensor, archivedTensor],
        ∃ lo hi, t.FromRange bytes (8 + fromLe (bytes.take 8)) lo hi := by
  obtain ⟨hround, hranges⟩ := archive_roundTrip_and_ranges serdeJson
  obtain ⟨bytes, hbytes, hread⟩ := hround serdeJson_lawful archivedMetadata
    [archivedTensor, windowTensor] (List.cons_ne_nil _ _) (by decide) (by decide)
  have hreadable : Readable bytes := by
    refine readable_of_small archived_sorted ?_ ?_ ?_ ?_ hbytes <;> decide +kernel
  obtain ⟨sorted, hperm, hordered, hfrom⟩ := hread hreadable
  -- the names leave one order
  have hsorted : sorted = [windowTensor, archivedTensor] := by
    have hafter : ¬archivedTensor.name ≤ windowTensor.name := by decide
    obtain rfl | rfl := List.perm_pair.1 hperm
    · exact absurd (List.rel_of_pairwise_cons hordered List.mem_cons_self) hafter
    · rfl
  rw [hsorted] at hfrom
  exact ⟨bytes, hbytes, hfrom, ((hranges bytes).2 _ _ hfrom).2⟩

end KirAi.NativeRuntime
