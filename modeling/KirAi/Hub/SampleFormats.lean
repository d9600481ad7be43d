/-
# Formats of a sample

A `Formats` that can be built: for one plan, the JSON texts and digests that the
program makes of its manifest and of its stamp; for all else, a code that reads
back.

Key definitions: `samplePlan`, `sampleManifest`, `sampleStamp`, `sampleFormats`.
-/
import KirAi.Hub.Snapshot
import Mathlib.Logic.Equiv.List
import Mathlib.Tactic.DeriveEncodable

namespace KirAi.Hub

instance encodableChar : Encodable Char :=
  Encodable.ofLeftInjection Char.toNat (fun n => some (Char.ofNat n)) fun c => by rw [Char.ofNat_toNat]

instance encodableString : Encodable String :=
  Encodable.ofLeftInjection String.toList (fun l => some (String.ofList l)) fun s => by
    rw [String.ofList_toList]

deriving instance Encodable for RepoType
deriving instance Encodable for ArtifactClass
deriving instance Encodable for ManifestFile
deriving instance Encodable for SnapshotManifest
deriving instance Encodable for SnapshotVerificationMode
deriving instance Encodable for VerificationStampFile
deriving instance Encodable for SnapshotVerificationStamp

section Known

variable {α : Type} [Encodable α] [DecidableEq α] (known : α) (text : Bytes)

/-- The known value has its text, which starts with a brace; any other has a code. -/
def printKnown (a : α) : Bytes :=
  if a = known then 123 :: text else List.replicate (Encodable.encode a) 0

def readKnown (bytes : Bytes) : Except String α :=
  if bytes = 123 :: text then .ok known
  else
    match Encodable.decode bytes.length with
    | some a => .ok a
    | none => .error "expected value at line 1 column 1"

theorem read_printKnown (a : α) : readKnown known text (printKnown known text a) = .ok a := by
  by_cases h : a = known
  · rw [printKnown, if_pos h, readKnown, if_pos rfl, h]
  · have hne : List.replicate (Encodable.encode a) (0 : UInt8) ≠ 123 :: text := by
      intro he
      have h123 : (123 : UInt8) ∈ List.replicate (Encodable.encode a) (0 : UInt8) :=
        he ▸ List.mem_cons_self ..
      exact absurd (List.eq_of_mem_replicate h123) (by decide)
    rw [printKnown, if_neg h, readKnown, if_neg hne, List.length_replicate, Encodable.encodek]

end Known

/-! ### The sample -/

def ascii (text : String) : Bytes := text.toList.map (·.toNat.toUInt8)

def sampleWeights : PlannedFile where
  path := "model.safetensors"
  size := 2
  etag := none
  sha256 := some "fb8e20fc2e4c3f248c60c39bd652f3c1347298bb977b8b4d5903b85055620603"
  artifactClass := .weights

def samplePlan : DownloadPlan where
  repoId := "a/b"
  requestedRevision := "main"
  resolvedCommit := "c1"
  profile := ⟨"custom", "qwen", "mlx", "4bit", ["*"], []⟩
  filesToDownload := [⟨"config.json", 2, none, none, .config⟩,
    ⟨"tokenizer.json", 2, none, none, .tokenizer⟩, sampleWeights]
  metadataOnly := false

def sampleRoot : String := "/h/huggingface/models--a--b/snapshots/c1.custom"

def sampleManifest : SnapshotManifest := .fromPlan 1 samplePlan sampleRoot

def sampleDigest : String := "fcadca474a512fee3a65f7c8c3d2716c1c11f3946a1c9ae8163ad01f128dfbf0"

def sampleStamp : SnapshotVerificationStamp where
  schemaVersion := 1
  toolName := "llm-engine"
  toolVersion := "0.1.0"
  manifestDigest := sampleDigest
  verificationMode := .pull
  verifiedAt := 1
  files := [⟨"config.json", 2, 1⟩, ⟨"tokenizer.json", 2, 1⟩, ⟨"model.safetensors", 2, 1⟩]

/-- The compact text of the manifest, after its brace. -/
def sampleManifestText : Bytes :=
  ascii "\"schema_version\":1,\"source\":\"huggingface\",\"repo_type\":\"model\"," ++
  ascii "\"repo_id\":\"a/b\",\"requested_revision\":\"main\",\"resolved_commit\":\"c1\"," ++
  ascii "\"profile\":\"custom\",\"family\":\"qwen\",\"loader\":\"mlx\"," ++
  ascii "\"quantization\":\"4bit\",\"created_at\":\"1970-01-01T00:00:00.000000001Z\"," ++
  ascii "\"snapshot_path\":\"/h/huggingface/models--a--b/snapshots/c1.custom\"," ++
  ascii "\"files\":[\x7b\"path\":\"config.json\",\"size\":2,\"etag\":null," ++
  ascii "\"sha256\":null,\"class\":\"config\"\x7d,\x7b\"path\":\"tokenizer.json\"," ++
  ascii "\"size\":2,\"etag\":null,\"sha256\":null,\"class\":\"tokenizer\"\x7d," ++
  ascii "\x7b\"path\":\"model.safetensors\",\"size\":2,\"etag\":null," ++
  ascii "\"sha256\":\"fb8e20fc2e4c3f248c60c39bd652f3c1347298bb977b8b4d5903b85055620603\"," ++
  ascii "\"class\":\"weights\"\x7d],\"allow_patterns\":[\"*\"],\"ignore_patterns\":[]\x7d"

def sampleManifestPretty : Bytes := ascii "\n  \"schema_version\": 1,
  \"source\": \"huggingface\",
  \"repo_type\": \"model\",
  \"repo_id\": \"a/b\",
  \"requested_revision\": \"main\",
  \"resolved_commit\": \"c1\",
  \"profile\": \"custom\",
  \"family\": \"qwen\",
  \"loader\": \"mlx\",
  \"quantization\": \"4bit\",
  \"created_at\": \"1970-01-01T00:00:00.000000001Z\",
  \"snapshot_path\": \"/h/huggingface/models--a--b/snapshots/c1.custom\",
  \"files\": [
    \x7b
      \"path\": \"config.json\",
      \"size\": 2,
      \"etag\": null,
      \"sha256\": null,
      \"class\": \"config\"
    \x7d,
    \x7b
      \"path\": \"tokenizer.json\",
      \"size\": 2,
      \"etag\": null,
      \"sha256\": null,
      \"class\": \"tokenizer\"
    \x7d,
    \x7b
      \"path\": \"model.safetensors\",
      \"size\": 2,
      \"etag\": null,
      \"sha256\": \"fb8e20fc2e4c3f248c60c39bd652f3c1347298bb977b8b4d5903b85055620603\",
      \"class\": \"weights\"
    \x7d
  ],
  \"allow_patterns\": [
    \"*\"
  ],
  \"ignore_patterns\": []\n\x7d"

def sampleStampPretty : Bytes := ascii "\n  \"schema_version\": 1,
  \"tool_name\": \"llm-engine\",
  \"tool_version\": \"0.1.0\",
  \"manifest_digest\": \"fcadca474a512fee3a65f7c8c3d2716c1c11f3946a1c9ae8163ad01f128dfbf0\",
  \"verification_mode\": \"pull\",
  \"verified_at\": \"1970-01-01T00:00:00.000000001Z\",
  \"files\": [
    \x7b
      \"path\": \"config.json\",
      \"size\": 2,
      \"modified_at\": \"1970-01-01T00:00:00.000000001Z\"
    \x7d,
    \x7b
      \"path\": \"tokenizer.json\",
      \"size\": 2,
      \"modified_at\": \"1970-01-01T00:00:00.000000001Z\"
    \x7d,
    \x7b
      \"path\": \"model.safetensors\",
      \"size\": 2,
      \"modified_at\": \"1970-01-01T00:00:00.000000001Z\"
    \x7d
  ]\n\x7d"

/-- `ab`, `cd` and the manifest. -/
def sampleSha256 (bytes : Bytes) : String :=
  if bytes = [97, 98] then "fb8e20fc2e4c3f248c60c39bd652f3c1347298bb977b8b4d5903b85055620603"
  else if bytes = [99, 100] then "21e721c35a5823fdb452fa2f9f0a612c74fb952e06927489c6b27a43b817bed4"
  else if bytes = 123 :: sampleManifestText then sampleDigest
  else ""

def sampleFormats : Formats where
  sha256 := sampleSha256
  manifestBytes := printKnown sampleManifest sampleManifestText
  manifestPretty := printKnown sampleManifest sampleManifestPretty
  readManifest := readKnown sampleManifest sampleManifestPretty
  read_manifestPretty := read_printKnown _ _
  stampPretty := printKnown sampleStamp sampleStampPretty
  readStamp := readKnown sampleStamp sampleStampPretty
  read_stampPretty := read_printKnown _ _
  readIndex := fun _ => .error "expected value at line 1 column 1"
  toolVersion := "0.1.0"

end KirAi.Hub
