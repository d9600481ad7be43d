/-
# The files of the disk cache

`disk_cache/io.rs`: a block is a safetensors file. Eight bytes give the length
of the header, the header is a JSON object with an entry for the metadata and
one for each tensor, and the payload is the values of the tensors, sorted by
name, as little-endian `f32`. A reader takes the metadata from the header and
every tensor from its range of the payload.

`serde_json` is a parameter (`SerdeJson`), with what the code relies on stated
apart (`SerdeJson.Lawful`). The object type of the header keeps its keys in the
order of insertion, as the workspace builds it.

Key definitions: `encodeSafetensors`, `safetensorsHeaderJson`,
`metadataFromHeader`, `tensorsFromHeader`, `NativeTextDiskCacheTensorArchive.fromBytes`.
-/
import KirAi.KvCache.Basic
import KirAi.Lib.Bytes
import KirAi.Lib.Except
import KirAi.Lib.Json

namespace KirAi.NativeRuntime

open Lib KvCache

structure NativeTextDiskCacheError where
  message : String
deriving DecidableEq, Repr

abbrev DiskResult := Except NativeTextDiskCacheError

def integrity (message : String) : NativeTextDiskCacheError := ⟨message⟩

/-- `From<KvCacheError>`: a cache's error, by its text. -/
def ofKvCache {α : Type} : Except KvCacheError α → DiskResult α
  | .ok a => .ok a
  | .error e => .error (integrity e.display)

/-- `ok_or_else` -/
def okOrElse {α : Type} (o : Option α) (message : String) : DiskResult α :=
  match o with
  | some a => .ok a
  | none => .error (integrity message)

@[simp] theorem okOrElse_some {α : Type} (a : α) (message : String) :
    okOrElse (some a) message = .ok a := rfl

/-! ### Layouts and metadata -/

/-- What the metadata says of a layer of rows. -/
structure NativeTextDiskFullAttentionLayout where
  revision : ℕ
  maxTokens : ℕ
  keyValueHeads : ℕ
  headDim : ℕ
  tokenCount : ℕ
  tokensSeen : ℕ
  cacheFormat : String
  keyTensor : String
  valueTensor : String
  shape : List ℕ
deriving DecidableEq, Repr

structure NativeTextDiskLinearAttentionLayout where
  revision : ℕ
  convKernelSize : ℕ
  convDim : ℕ
  numValueHeads : ℕ
  keyHeadDim : ℕ
  valueHeadDim : ℕ
  tokenCount : ℕ
  convWindowTensor : String
  recurrentStateTensor : String
  convWindowShape : List ℕ
  recurrentStateShape : List ℕ
deriving DecidableEq, Repr

inductive NativeTextDiskCacheLayerLayout where
  | qwenFull (layout : NativeTextDiskFullAttentionLayout)
  | qwenLinear (layout : NativeTextDiskLinearAttentionLayout)
  | gemmaFull (layout : NativeTextDiskFullAttentionLayout)
deriving DecidableEq, Repr

structure NativeTextDiskCacheBlockMetadata where
  codec : String
  layoutVersion : ℕ
  cacheLayoutVersion : ℕ
  modelFamily : String
  modelHash : String
  snapshotHash : String
  namespaceHash : String
  previousBlockHash : String
  blockHash : String
  blockStart : ℕ
  tokenCount : ℕ
  hiddenShape : List ℕ
  layers : List NativeTextDiskCacheLayerLayout
deriving DecidableEq, Repr

/-- The functions of `serde_json` that the disk cache calls; the derived
serializers of the metadata are part of them. An error is its text. -/
structure SerdeJson where
  toVec : Json → Except String (List Byte)
  fromSlice : List Byte → Except String Json
  metadataToString : NativeTextDiskCacheBlockMetadata → Except String String
  metadataFromStr : String → Except String NativeTextDiskCacheBlockMetadata

/-- `serde_json` prints every value that is not nested more than 127 deep, where
its parser stops, and parses what it printed. -/
structure SerdeJson.Lawful (J : SerdeJson) : Prop where
  value : ∀ v, v.Printable 127 → ∃ bytes, J.toVec v = .ok bytes ∧ J.fromSlice bytes = .ok v
  metadata : ∀ m, ∃ text, J.metadataToString m = .ok text ∧ J.metadataFromStr text = .ok m

/-- `map_err(|err| integrity(format!("{context}: {err}")))` -/
def mapErr {α : Type} (context : String) : Except String α → DiskResult α
  | .ok a => .ok a
  | .error err => .error (integrity (context ++ ": " ++ err))

/-! ### Tensors -/

structure NativeTextDiskCacheTensor where
  name : String
  shape : List ℕ
  values : List F32
deriving DecidableEq, Repr

/-- The tensors of a block that is being written. -/
structure NativeTextDiskCacheTensorSink where
  tensors : List NativeTextDiskCacheTensor
deriving DecidableEq, Repr

namespace NativeTextDiskCacheTensorSink

def default : NativeTextDiskCacheTensorSink := ⟨[]⟩

def pushF32 (sink : NativeTextDiskCacheTensorSink) (name : String) (shape : List ℕ)
    (values : List F32) : DiskResult NativeTextDiskCacheTensorSink := do
  let expected ← okOrElse (shape.foldlM checkedMul 1) "tensor shape overflow"
  if expected ≠ values.length then throw (integrity "tensor shape does not match value count")
  pure ⟨sink.tensors ++ [⟨name, shape, values⟩]⟩

end NativeTextDiskCacheTensorSink

def F32.toLeBytes (x : F32) : List Byte := toLe 4 x.bits.toNat

def F32.fromLeBytes (bytes : List Byte) : F32 := ⟨BitVec.ofNat 32 (fromLe bytes)⟩

namespace NativeTextDiskCacheTensor

def payload (t : NativeTextDiskCacheTensor) : List Byte := t.values.flatMap F32.toLeBytes

/-- The header's entry for a tensor at `start ..` of the payload. -/
def entry (t : NativeTextDiskCacheTensor) (start stop : ℕ) : Json :=
  .object [
    ("dtype", .string "F32"),
    ("shape", .array (t.shape.map .u64)),
    ("data_offsets", .array [.u64 start, .u64 stop])]

end NativeTextDiskCacheTensor

/-! ### Writing -/

/-- The loop of `encode_safetensors` over the sorted tensors. -/
def layTensors : List NativeTextDiskCacheTensor → List Byte → List (String × Json) →
    List Byte × List (String × Json)
  | [], payload, header => (payload, header)
  | t :: ts, payload, header =>
    let start := payload.length
    let payload := payload ++ t.payload
    layTensors ts payload (insertKey header t.name (t.entry start payload.length))

def encodeSafetensors (J : SerdeJson) (metadata : NativeTextDiskCacheBlockMetadata)
    (tensors : List NativeTextDiskCacheTensor) : DiskResult (List Byte) := do
  let text ← mapErr "disk cache metadata encode failed" (J.metadataToString metadata)
  let sorted := tensors.mergeSort (fun left right => left.name ≤ right.name)
  let (payload, header) := layTensors sorted []
    (insertKey [] "__metadata__" (.object [("kir_ai", .string text)]))
  let headerBytes ← mapErr "safetensors header encode failed" (J.toVec (.object header))
  -- a `usize` is a `u64`: the conversion of the length cannot fail, here and below
  pure (toLe 8 headerBytes.length ++ headerBytes ++ payload)

/-! ### Reading -/

def maxSafetensorsHeaderLen : ℕ := 64 * 1024 * 1024

def safetensorsHeaderJson (J : SerdeJson) (bytes : List Byte) : DiskResult (List (String × Json)) := do
  let headerLenBytes ← okOrElse (getRange bytes 0 8) "safetensors file is missing header length"
  let headerLen := fromLe headerLenBytes
  if headerLen > maxSafetensorsHeaderLen then throw (integrity "safetensors header exceeds limit")
  let headerEnd ← okOrElse (checkedAdd 8 headerLen) "safetensors header overflow"
  let header ← okOrElse (getRange bytes 8 headerEnd) "safetensors header is truncated"
  let value ← mapErr "invalid safetensors header json" (J.fromSlice header)
  okOrElse value.asObject "safetensors header is not an object"

def metadataFromHeader (J : SerdeJson) (header : List (String × Json)) :
    DiskResult NativeTextDiskCacheBlockMetadata := do
  let text ← okOrElse (do
    let object ← (← lookupKey header "__metadata__").asObject
    (← lookupKey object "kir_ai").asStr) "missing disk cache metadata"
  mapErr "invalid disk cache metadata" (J.metadataFromStr text)

/-- `format!` of the texts about one tensor. -/
def aboutTensor (name text : String) : String := "tensor `" ++ name ++ "` " ++ text

/-- The round of `tensors_from_header` for one entry. -/
def tensorFromEntry (bytes : List Byte) (dataStart : ℕ) (name : String) (value : Json) :
    DiskResult NativeTextDiskCacheTensor := do
  let object ← okOrElse value.asObject (aboutTensor name "header is not an object")
  if (lookupKey object "dtype").bind Json.asStr ≠ some "F32" then
    throw (integrity (aboutTensor name "is not F32"))
  let shapeValues ← okOrElse ((lookupKey object "shape").bind Json.asArray)
    (aboutTensor name "is missing shape")
  let shape ← shapeValues.mapM fun value =>
    okOrElse value.asU64 (aboutTensor name "has invalid shape")
  let offsets ← okOrElse ((lookupKey object "data_offsets").bind Json.asArray)
    (aboutTensor name "is missing data offsets")
  let [first, second] := offsets | throw (integrity (aboutTensor name "data offsets are invalid"))
  let start ← okOrElse first.asU64 (aboutTensor name "offset is invalid")
  let stop ← okOrElse second.asU64 (aboutTensor name "offset is invalid")
  if stop < start ∨ (stop - start) % 4 ≠ 0 then
    throw (integrity (aboutTensor name "byte range is invalid"))
  let fileStart ← okOrElse (checkedAdd dataStart start) "tensor start overflow"
  let fileEnd ← okOrElse (checkedAdd dataStart stop) "tensor end overflow"
  let data ← okOrElse (getRange bytes fileStart fileEnd) (aboutTensor name "payload is truncated")
  pure { name, shape, values := (chunks data 4).map F32.fromLeBytes }

def tensorsFromHeader (bytes : List Byte) (header : List (String × Json)) :
    DiskResult (List NativeTextDiskCacheTensor) := do
  let headerLenBytes ← okOrElse (getRange bytes 0 8) "missing header length"
  let headerLen := fromLe headerLenBytes
  let dataStart ← okOrElse (checkedAdd 8 headerLen) "safetensors data start overflow"
  let tensors ← (header.filter (·.1 ≠ "__metadata__")).mapM fun e =>
    tensorFromEntry bytes dataStart e.1 e.2
  if tensors.isEmpty then throw (integrity "disk cache block has no tensors")
  pure tensors

/-- The tensors of a block that was read. -/
structure NativeTextDiskCacheTensorArchive where
  tensors : List NativeTextDiskCacheTensor
deriving DecidableEq, Repr

namespace NativeTextDiskCacheTensorArchive

def fromBytes (J : SerdeJson) (bytes : List Byte) :
    DiskResult (NativeTextDiskCacheBlockMetadata × NativeTextDiskCacheTensorArchive) := do
  let header ← safetensorsHeaderJson J bytes
  let metadata ← metadataFromHeader J header
  let tensors ← tensorsFromHeader bytes header
  pure (metadata, ⟨tensors⟩)

def tensor (archive : NativeTextDiskCacheTensorArchive) (name : String) :
    DiskResult NativeTextDiskCacheTensor :=
  okOrElse (archive.tensors.find? (·.name = name)) (aboutTensor name "not found")

def f32Tensor (archive : NativeTextDiskCacheTensorArchive) (name : String) : DiskResult (List F32) := do
  return (← archive.tensor name).values

def f32TensorShape (archive : NativeTextDiskCacheTensorArchive) (name : String) :
    DiskResult (List ℕ) := do
  return (← archive.tensor name).shape

end NativeTextDiskCacheTensorArchive

/-! ### What was written is read -/

@[simp] theorem F32.toLeBytes_length (x : F32) : (F32.toLeBytes x).length = 4 := toLe_length _ _

theorem F32.fromLeBytes_toLeBytes (x : F32) : F32.fromLeBytes (F32.toLeBytes x) = x := by
  rw [F32.fromLeBytes, F32.toLeBytes, fromLe_toLe x.bits.isLt]
  simp

namespace NativeTextDiskCacheTensor

theorem payload_length (t : NativeTextDiskCacheTensor) : t.payload.length = t.values.length * 4 :=
  length_flatMap_rows fun _ _ => F32.toLeBytes_length _

theorem values_of_payload (t : NativeTextDiskCacheTensor) :
    (chunks t.payload 4).map F32.fromLeBytes = t.values := by
  rw [payload, chunks_flatMap (by decide) fun _ _ => F32.toLeBytes_length _, List.map_map]
  refine (List.map_congr_left fun x _ => ?_).trans (List.map_id _)
  exact F32.fromLeBytes_toLeBytes x

end NativeTextDiskCacheTensor

/-- The header's entries for tensors that are laid out one after the other. -/
def entriesFrom : ℕ → List NativeTextDiskCacheTensor → List (String × Json)
  | _, [] => []
  | start, t :: ts =>
    (t.name, t.entry start (start + t.payload.length)) :: entriesFrom (start + t.payload.length) ts

theorem entriesFrom_names : ∀ (start : ℕ) (ts : List NativeTextDiskCacheTensor),
    (entriesFrom start ts).map (·.1) = ts.map (·.name)
  | _, [] => rfl
  | start, t :: ts => by rw [entriesFrom, List.map_cons, List.map_cons, entriesFrom_names _ ts]

theorem entriesFrom_printable : ∀ (start : ℕ) (ts : List NativeTextDiskCacheTensor),
    ∀ e ∈ entriesFrom start ts, e.2.Printable 126
  | _, [], e, he => by cases he
  | start, t :: ts, e, he => by
    rw [entriesFrom] at he
    rcases List.mem_cons.mp he with rfl | he
    · simp [NativeTextDiskCacheTensor.entry, Json.Printable]
    · exact entriesFrom_printable _ ts e he

/-- With names that are all new, the loop puts payloads and entries one after the
other. -/
theorem layTensors_eq : ∀ (ts : List NativeTextDiskCacheTensor) (payload : List Byte)
    (header : List (String × Json)), (header.map (·.1) ++ ts.map (·.name)).Nodup →
    layTensors ts payload header =
      (payload ++ ts.flatMap (·.payload), header ++ entriesFrom payload.length ts)
  | [], payload, header, _ => by simp [layTensors, entriesFrom]
  | t :: ts, payload, header, h => by
    have hnew : t.name ∉ header.map (·.1) := fun hm =>
      (List.nodup_append.mp h).2.2 _ hm _ (List.mem_cons_self ..) rfl
    have hrest : ((header ++ [(t.name, t.entry payload.length (payload ++ t.payload).length)]).map
        (·.1) ++ ts.map (·.name)).Nodup := by
      simpa using h
    rw [layTensors, insertKey_of_notMem hnew, layTensors_eq ts _ _ hrest, List.flatMap_cons,
      entriesFrom, List.length_append]
    simp only [List.append_assoc, List.cons_append, List.nil_append]

theorem shape_mapM (name : String) : ∀ shape : List ℕ,
    (shape.map Json.u64).mapM (fun value =>
      okOrElse value.asU64 (aboutTensor name "has invalid shape")) = .ok shape
  | [] => rfl
  | n :: ns => by
    rw [List.map_cons, List.mapM_cons, shape_mapM name ns]
    rfl

/-- A tensor is read back from the range its entry names. -/
theorem tensorFromEntry_entry {t : NativeTextDiskCacheTensor} {pre post : List Byte}
    {dataStart start : ℕ} (hpre : pre.length = dataStart + start)
    (hlen : (pre ++ t.payload ++ post).length ≤ wordMax) :
    tensorFromEntry (pre ++ t.payload ++ post) dataStart t.name
      (t.entry start (start + t.payload.length)) = .ok t := by
  simp only [List.length_append] at hlen
  have hrange : ¬ (start + t.payload.length < start ∨
      (start + t.payload.length - start) % 4 ≠ 0) := by
    rw [t.payload_length]
    omega
  have hget : getRange (pre ++ t.payload ++ post) (dataStart + start)
      (dataStart + (start + t.payload.length)) = some t.payload :=
    getRange_append hpre.symm (by omega)
  simp only [tensorFromEntry, NativeTextDiskCacheTensor.entry, Json.asObject, okOrElse_some, ok_bind,
    lookupKey, List.find?_cons, String.reduceEq, decide_true, decide_false, Option.map_some,
    Option.bind_some, Json.asStr, ne_eq, not_true_eq_false, ↓reduceIte, Json.asArray, shape_mapM,
    Json.asU64_u64, if_neg hrange, checkedAdd_of_le (show dataStart + start ≤ wordMax by omega),
    checkedAdd_of_le (show dataStart + (start + t.payload.length) ≤ wordMax by omega), hget,
    t.values_of_payload]
  rfl

theorem tensorFromEntry_entriesFrom (dataStart : ℕ) : ∀ (ts : List NativeTextDiskCacheTensor)
    (pre : List Byte) (start : ℕ), pre.length = dataStart + start →
    (pre ++ ts.flatMap (·.payload)).length ≤ wordMax →
    (entriesFrom start ts).mapM (fun e =>
      tensorFromEntry (pre ++ ts.flatMap (·.payload)) dataStart e.1 e.2) = .ok ts
  | [], _, _, _, _ => rfl
  | t :: ts, pre, start, hpre, hlen => by
    have hsplit : pre ++ (t :: ts).flatMap (·.payload) =
        pre ++ t.payload ++ ts.flatMap (·.payload) := by
      rw [List.flatMap_cons, List.append_assoc]
    rw [hsplit] at hlen ⊢
    have ih := tensorFromEntry_entriesFrom dataStart ts (pre ++ t.payload)
      (start + t.payload.length) (by rw [List.length_append]; omega) hlen
    rw [entriesFrom, List.mapM_cons, ih, tensorFromEntry_entry hpre hlen]
    rfl

/-- The largest vector of bytes the allocator serves. -/
def vecU8Max : ℕ := 2 ^ 63 - 1

/-- A file that fits in memory and whose header the reader accepts. -/
def Readable (bytes : List Byte) : Prop :=
  fromLe (bytes.take 8) ≤ maxSafetensorsHeaderLen ∧ bytes.length ≤ vecU8Max

/-- A file that can be read back gives the metadata and the tensors that were
written, in the order of their names. -/
theorem fromBytes_encodeSafetensors {J : SerdeJson} (hJ : J.Lawful)
    (metadata : NativeTextDiskCacheBlockMetadata) {tensors : List NativeTextDiskCacheTensor}
    (hne : tensors ≠ []) (hnames : (tensors.map (·.name)).Nodup)
    (hmeta : "__metadata__" ∉ tensors.map (·.name)) :
    ∃ bytes, encodeSafetensors J metadata tensors = .ok bytes ∧ (Readable bytes →
      ∃ sorted, sorted.Perm tensors ∧ sorted.Pairwise (fun left right => left.name ≤ right.name) ∧
        NativeTextDiskCacheTensorArchive.fromBytes J bytes = .ok (metadata, ⟨sorted⟩)) := by
  obtain ⟨text, htext, hparse⟩ := hJ.metadata metadata
  generalize hsorted : tensors.mergeSort (fun left right => left.name ≤ right.name) = sorted
  have hperm : sorted.Perm tensors := hsorted ▸ List.mergeSort_perm _ _
  have hordered : sorted.Pairwise (fun left right => left.name ≤ right.name) := by
    have h := @List.pairwise_mergeSort _ (fun left right : NativeTextDiskCacheTensor =>
      decide (left.name ≤ right.name)) (fun a b c hab hbc => by
        simp only [decide_eq_true_eq] at *
        exact String.le_trans hab hbc) (fun a b => by simpa using String.le_total a.name b.name) tensors
    simpa [hsorted] using h
  have hnames' : ("__metadata__" :: sorted.map (·.name)).Nodup :=
    List.nodup_cons.mpr ⟨fun hm => hmeta ((hperm.map _).mem_iff.mp hm), (hperm.map _).nodup_iff.mpr hnames⟩
  have hlay := layTensors_eq sorted [] [("__metadata__", .object [("kir_ai", .string text)])] hnames'
  rw [List.nil_append, List.length_nil, List.singleton_append] at hlay
  have hprint : (Json.object (("__metadata__", .object [("kir_ai", .string text)]) ::
      entriesFrom 0 sorted)).Printable 127 := by
    refine ⟨?_, fun e he => ?_⟩
    · rw [List.map_cons, entriesFrom_names]
      exact hnames'
    · rcases List.mem_cons.mp he with rfl | he
      · simp [Json.Printable]
      · exact entriesFrom_printable 0 sorted e he
  obtain ⟨header, htoVec, hfrom⟩ := hJ.value _ hprint
  refine ⟨toLe 8 header.length ++ header ++ sorted.flatMap (·.payload), ?_, fun ⟨hlimit, hfits⟩ => ?_⟩
  · simp only [encodeSafetensors, htext, mapErr, ok_bind, hsorted]
    rw [insertKey_of_notMem (by simp), List.nil_append, hlay]
    simp only [htoVec, ok_bind]
    rfl
  · refine ⟨sorted, hperm, hordered, ?_⟩
    have hword : (toLe 8 header.length ++ header ++ sorted.flatMap (·.payload)).length ≤ wordMax := by
      unfold vecU8Max at hfits
      unfold wordMax
      omega
    have hle := hword
    simp only [List.length_append, toLe_length] at hle
    have hlen : fromLe (toLe 8 header.length) = header.length := by
      refine fromLe_toLe ?_
      unfold wordMax at hle
      omega
    have hget8 : getRange (toLe 8 header.length ++ header ++ sorted.flatMap (·.payload)) 0 8 =
        some (toLe 8 header.length) := by
      rw [List.append_assoc]
      exact getRange_append (show 0 = ([] : List Byte).length from rfl) (by simp)
    have hgetH : getRange (toLe 8 header.length ++ header ++ sorted.flatMap (·.payload)) 8
        (8 + header.length) = some header := getRange_append (by simp) (by simp)
    have hlim : ¬ header.length > maxSafetensorsHeaderLen := by
      rw [List.append_assoc, List.take_left' (by simp), hlen] at hlimit
      omega
    have hjson : safetensorsHeaderJson J
        (toLe 8 header.length ++ header ++ sorted.flatMap (·.payload)) =
        .ok (("__metadata__", .object [("kir_ai", .string text)]) :: entriesFrom 0 sorted) := by
      simp only [safetensorsHeaderJson, hget8, okOrElse_some, ok_bind, hlen, if_neg hlim,
        checkedAdd_of_le (show 8 + header.length ≤ wordMax by omega), hgetH, hfrom, mapErr,
        Json.asObject]
    have hmetadata : metadataFromHeader J
        (("__metadata__", .object [("kir_ai", .string text)]) :: entriesFrom 0 sorted) =
        .ok metadata := by
      simp [metadataFromHeader, lookupKey, Json.asObject, Json.asStr, okOrElse, mapErr, hparse]
    have hfilter : (("__metadata__", Json.object [("kir_ai", .string text)]) ::
        entriesFrom 0 sorted).filter (·.1 ≠ "__metadata__") = entriesFrom 0 sorted := by
      rw [List.filter_cons_of_neg (by simp), List.filter_eq_self]
      intro e he
      have hmem : e.1 ∈ sorted.map (·.name) := by
        rw [← entriesFrom_names 0 sorted]
        exact List.mem_map_of_mem he
      have hne : e.1 ≠ "__metadata__" := fun heq => (List.nodup_cons.mp hnames').1 (heq ▸ hmem)
      simpa using hne
    have hread := tensorFromEntry_entriesFrom (8 + header.length) sorted
      (toLe 8 header.length ++ header) 0 (by simp) hword
    have hempty : sorted.isEmpty = false := by
      rw [List.isEmpty_eq_false_iff]
      intro h0
      rw [h0] at hperm
      exact hne hperm.nil_eq.symm
    have htensors : tensorsFromHeader
        (toLe 8 header.length ++ header ++ sorted.flatMap (·.payload))
        (("__metadata__", .object [("kir_ai", .string text)]) :: entriesFrom 0 sorted) =
        .ok sorted := by
      simp only [tensorsFromHeader, hget8, okOrElse_some, ok_bind, hlen,
        checkedAdd_of_le (show 8 + header.length ≤ wordMax by omega), hfilter, hread, hempty]
      rfl
    simp only [NativeTextDiskCacheTensorArchive.fromBytes, hjson, hmetadata, htensors, ok_bind]
    rfl

/-- A tensor that was written is found by its name. -/
theorem NativeTextDiskCacheTensorArchive.tensor_of_mem {sorted tensors : List NativeTextDiskCacheTensor}
    (hperm : sorted.Perm tensors) (hnames : (tensors.map (·.name)).Nodup)
    {t : NativeTextDiskCacheTensor} (ht : t ∈ tensors) :
    (⟨sorted⟩ : NativeTextDiskCacheTensorArchive).tensor t.name = .ok t := by
  have hfind := find?_of_nodup (f := NativeTextDiskCacheTensor.name)
    ((hperm.map _).nodup_iff.mpr hnames) (hperm.mem_iff.mpr ht)
  rw [tensor, hfind]
  rfl

end KirAi.NativeRuntime
