/-
# Plans, manifests and verification stamps

`plan.rs`, `manifest.rs`: a plan lists the artifacts of a model at a commit; a
manifest is what a snapshot says it holds, and is made of a plan; a stamp is
what a verification leaves beside it, the sizes and times of the files. All of
them are kept as JSON: how they are printed and read is a parameter
(`Formats`), with the round trips and the hash that the code uses.

Key definitions: `DownloadPlan`, `SnapshotManifest.fromPlan`, `validateArtifactPath`,
`Formats`.
-/
import KirAi.Lib.Except
import Mathlib.Data.Nat.Notation

namespace KirAi.Hub

abbrev Bytes := List UInt8

structure HubError where
  code : String
  message : String
deriving DecidableEq, Repr

namespace HubError

def invalidRequest (message : String) : HubError := ⟨"invalid_request", message⟩

def integrityFailed (message : String) : HubError := ⟨"model_integrity_failed", message⟩

def io (message : String) : HubError := ⟨"model_download_interrupted", message⟩

/-- `to_string` -/
def display (e : HubError) : String := e.code ++ ": " ++ e.message

end HubError

/-! ### Plans -/

inductive ArtifactClass where
  | config
  | tokenizer
  | weights
  | quantization
  | license
  | other
deriving DecidableEq, Repr

/-- The `Debug` name. -/
def ArtifactClass.debug : ArtifactClass → String
  | config => "Config"
  | tokenizer => "Tokenizer"
  | weights => "Weights"
  | quantization => "Quantization"
  | license => "License"
  | other => "Other"

structure PlannedFile where
  path : String
  size : ℕ
  etag : Option String
  sha256 : Option String
  artifactClass : ArtifactClass
deriving DecidableEq, Repr

/-- A profile, with the slugs of its family and its loader. -/
structure ModelProfile where
  name : String
  familySlug : String
  loaderSlug : String
  quantization : String
  allowPatterns : List String
  ignorePatterns : List String
deriving DecidableEq, Repr

structure DownloadPlan where
  repoId : String
  requestedRevision : String
  resolvedCommit : String
  profile : ModelProfile
  filesToDownload : List PlannedFile
  metadataOnly : Bool
deriving DecidableEq, Repr

/-- Neither empty nor absolute, no backslash and no NUL, and every component a
name of its own. -/
def isSafeArtifactPath (path : String) : Bool :=
  let chars := path.toList
  !(chars.isEmpty || chars.head? = some '/' || chars.contains '\\' || chars.contains (Char.ofNat 0) ||
    (chars.splitOn '/').any fun component =>
      component.isEmpty || component = ['.'] || component = ['.', '.'])

def validateArtifactPath (path : String) : Except HubError Unit :=
  if isSafeArtifactPath path then .ok ()
  else .error (.invalidRequest ("unsafe Hugging Face artifact path " ++ "`" ++ path ++ "`"))

/-! ### Manifests -/

def snapshotManifestFile : String := "llm-engine-manifest.json"

def snapshotVerificationFile : String := "llm-engine-verification.json"

inductive RepoType where
  | model
deriving DecidableEq, Repr

structure ManifestFile where
  path : String
  size : ℕ
  etag : Option String
  sha256 : Option String
  artifactClass : ArtifactClass
deriving DecidableEq, Repr

structure SnapshotManifest where
  schemaVersion : ℕ
  source : String
  repoType : RepoType
  repoId : String
  requestedRevision : String
  resolvedCommit : String
  profile : String
  family : String
  loader : String
  quantization : String
  createdAt : ℕ
  snapshotPath : String
  files : List ManifestFile
  allowPatterns : List String
  ignorePatterns : List String
deriving DecidableEq, Repr

def PlannedFile.toManifest (file : PlannedFile) : ManifestFile where
  path := file.path
  size := file.size
  etag := file.etag
  sha256 := file.sha256
  artifactClass := file.artifactClass

/-- `from_plan` at the time `now`. -/
def SnapshotManifest.fromPlan (now : ℕ) (plan : DownloadPlan) (snapshotPath : String) :
    SnapshotManifest where
  schemaVersion := 1
  source := "huggingface"
  repoType := .model
  repoId := plan.repoId
  requestedRevision := plan.requestedRevision
  resolvedCommit := plan.resolvedCommit
  profile := plan.profile.name
  family := plan.profile.familySlug
  loader := plan.profile.loaderSlug
  quantization := plan.profile.quantization
  createdAt := now
  snapshotPath
  files := plan.filesToDownload.map (·.toManifest)
  allowPatterns := plan.profile.allowPatterns
  ignorePatterns := plan.profile.ignorePatterns

/-! ### Stamps -/

inductive SnapshotVerificationMode where
  | pull
  | deep
deriving DecidableEq, Repr

structure VerificationStampFile where
  path : String
  size : ℕ
  modifiedAt : ℕ
deriving DecidableEq, Repr

structure SnapshotVerificationStamp where
  schemaVersion : ℕ
  toolName : String
  toolVersion : String
  manifestDigest : String
  verificationMode : SnapshotVerificationMode
  verifiedAt : ℕ
  files : List VerificationStampFile
deriving DecidableEq, Repr

def snapshotVerificationSchemaVersion : ℕ := 1

def snapshotVerificationToolName : String := "llm-engine"

/-! ### Formats -/

/-- Hashing and JSON: the digest of a manifest is the hash of its compact text;
what is written pretty reads back. -/
structure Formats where
  sha256 : Bytes → String
  manifestBytes : SnapshotManifest → Bytes
  manifestPretty : SnapshotManifest → Bytes
  readManifest : Bytes → Except String SnapshotManifest
  read_manifestPretty : ∀ m, readManifest (manifestPretty m) = .ok m
  stampPretty : SnapshotVerificationStamp → Bytes
  readStamp : Bytes → Except String SnapshotVerificationStamp
  read_stampPretty : ∀ s, readStamp (stampPretty s) = .ok s
  /-- The shards that the weight map of a safetensors index names, in order. -/
  readIndex : Bytes → Except String (List String)
  toolVersion : String

def Formats.digest (F : Formats) (manifest : SnapshotManifest) : String :=
  F.sha256 (F.manifestBytes manifest)

end KirAi.Hub
