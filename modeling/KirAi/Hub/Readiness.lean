/-
# Whether a snapshot can be served

`store.rs`: a snapshot is ready when its manifest makes sense for its profile,
has the classes of files it needs and covers the shards that its safetensors
indexes name, and when its files are verified: by hashing them in deep mode; in
fast mode by a stamp that matches, and by hashing them only if none does.

Key definitions: `validateRunnableSnapshot`, `validateFastRunnableSnapshot`,
`validateDeepRunnableSnapshot`.
-/
import KirAi.Hub.Snapshot

namespace KirAi.Hub

open Lib

/-- Name, family, loader and quantization of a built-in profile. -/
structure BuiltinProfile where
  name : String
  familySlug : String
  loaderSlug : String
  quantization : String

def builtinProfiles : List BuiltinProfile := [
  ⟨"gemma4-e2b-it-mlx-4bit", "gemma", "mlx", "4bit"⟩,
  ⟨"gemma4-text-safetensors-bf16", "gemma", "native-metal", "bf16"⟩,
  ⟨"llama32-3b-instruct-mlx-4bit", "llama", "mlx", "4bit"⟩,
  ⟨"qwen35-4b-mlx-4bit", "qwen", "mlx", "4bit"⟩,
  ⟨"qwen35-4b-mlx-8bit", "qwen", "mlx", "8bit"⟩,
  ⟨"qwen35-4b-mlx-optiq-4bit", "qwen", "mlx", "optiq-4bit"⟩,
  ⟨"qwen3-dense-safetensors-bf16", "qwen", "native-metal", "bf16"⟩,
  ⟨"qwen36-mlx-4bit", "qwen", "mlx", "4bit"⟩,
  ⟨"qwen36-safetensors-bf16", "qwen", "native-metal", "bf16"⟩]

/-- `ModelProfile::builtin`, what the manifest is compared with. -/
def builtin (name : String) : Option BuiltinProfile := builtinProfiles.find? (·.name = name)

/-- A field of the manifest that is not the profile's. -/
def mismatch (field found expected : String) : List String :=
  if found ≠ expected then [field ++ " " ++ quoted found ++ ", expected " ++ quoted expected] else []

def validateBuiltinProfileMetadata (manifest : SnapshotManifest) : Except String Unit :=
  match builtin manifest.profile with
  | none => .ok ()
  | some profile =>
    let mismatches := mismatch "family" manifest.family profile.familySlug ++
      mismatch "loader" manifest.loader profile.loaderSlug ++
      mismatch "quantization" manifest.quantization profile.quantization
    if mismatches.isEmpty then .ok ()
    else .error ("snapshot manifest profile " ++ quoted manifest.profile ++
      " is stale or inconsistent: " ++ ", ".intercalate mismatches)

/-- `if !c { return Err(reason) }` -/
def require (c : Bool) (reason : String) : Except String Unit := if c then .ok () else .error reason

def validateManifestFileClasses (manifest : SnapshotManifest) (path : String) : Except String Unit := do
  let has := fun c : ArtifactClass => manifest.files.any fun file => file.artifactClass = c
  require (has .config) ("snapshot " ++ quoted path ++ " is missing config artifacts")
  require (has .tokenizer) ("snapshot " ++ quoted path ++ " is missing tokenizer artifacts")
  require (has .weights) ("snapshot " ++ quoted path ++
    " contains no weight files; pull without --metadata-only before serving")

section Runnable

variable (F : Formats) (root : String) (dir : Dir)

/-- The reason of a failed call, as text. -/
def asReason {α : Type} : Except HubError α → Except String α
  | .ok a => .ok a
  | .error e => .error e.display

/-- The shards of an index are safe paths. -/
def validateShards : List String → Except String Unit
  | [] => .ok ()
  | shard :: shards => do
    asReason (validateArtifactPath shard)
    validateShards shards

/-- Every shard that an index names is a weight file of the manifest. -/
def checkShards (manifest : SnapshotManifest) : List String → Except String Unit
  | [] => .ok ()
  | shard :: shards =>
    match manifest.files.find? (·.path = shard) with
    | none => .error ("safetensors index references shard " ++ quoted shard ++
        " that is not recorded in the snapshot manifest")
    | some file => do
      require (file.artifactClass = .weights) ("safetensors index references shard " ++ quoted shard ++
        " recorded as " ++ file.artifactClass.debug ++ ", expected weights")
      checkShards manifest shards

/-- A `BTreeSet` of texts, in order. -/
def sortedSet (texts : List String) : List String := (texts.mergeSort (· ≤ ·)).dedup

def indexShards (index : ManifestFile) : Except String (List String) := do
  let indexPath := joinPath root index.path
  let bytes ← match dir index.path with
    | some node => .ok node.content
    | none => .error ("could not read safetensors index " ++ quoted indexPath ++
        ": No such file or directory (os error 2)")
  let shards ← match F.readIndex bytes with
    | .ok shards => .ok shards
    | .error text => .error ("invalid safetensors index JSON: " ++ text)
  validateShards shards
  require (!shards.isEmpty) "safetensors index does not reference any weight shards"
  return sortedSet shards

def collectIndexedShards (manifest : SnapshotManifest) : List ManifestFile → Except String (List String)
  | [] => .ok []
  | index :: indexes => do
    let shards ← indexShards F root dir index
    checkShards manifest shards
    let rest ← collectIndexedShards manifest indexes
    return shards ++ rest

/-- Every safetensors weight file is covered, if there is an index at all. -/
def checkCovered (indexed : List String) : List ManifestFile → Except String Unit
  | [] => .ok ()
  | file :: files => do
    require (indexed.contains file.path) ("snapshot weight file " ++ quoted file.path ++
      " is not covered by a safetensors index")
    checkCovered indexed files

def validateSafetensorsIndexShards (manifest : SnapshotManifest) : Except String Unit := do
  let indexed ← collectIndexedShards F root dir manifest
    (manifest.files.filter fun file => ".safetensors.index.json".toList.isSuffixOf file.path.toList)
  if indexed.isEmpty then .ok ()
  else checkCovered indexed (manifest.files.filter fun file =>
    file.artifactClass = .weights && ".safetensors".toList.isSuffixOf file.path.toList)

def validateRunnableSnapshot (manifest : SnapshotManifest) : Except String Unit := do
  validateBuiltinProfileMetadata manifest
  validateManifestFileClasses manifest root
  validateSafetensorsIndexShards F root dir manifest

/-! ### Readiness -/

/-- How a snapshot was accepted: through a stamp, or by a verification, which is
stamped then. -/
inductive Accepted where
  | throughStamp (stamp : SnapshotVerificationStamp)
  | verified (stamp : SnapshotVerificationStamp)
deriving DecidableEq, Repr

variable (now : ℕ) (write : Option String)

def validateDeepRunnableSnapshot (manifest : SnapshotManifest) : Except String Accepted := do
  let _ ← asReason (verifyPromotedSnapshot F root dir manifest)
  validateRunnableSnapshot F root dir manifest
  let stamp ← asReason (writeSnapshotVerificationStamp F root dir write manifest .deep now)
  return .verified stamp

def validateFastRunnableSnapshot (manifest : SnapshotManifest) : Except String Accepted := do
  validateRunnableSnapshot F root dir manifest
  match verificationStampMatchesSnapshot F root dir manifest with
  | .ok stamp => return .throughStamp stamp
  | .error _ => validateDeepRunnableSnapshot F root dir now write manifest

end Runnable

/-! ### A stamp that can be trusted -/

section Trust

variable {F : Formats} {root : String} {dir : Dir} {now : ℕ} {write : Option String}
  {manifest : SnapshotManifest} {stamp : SnapshotVerificationStamp}

/-- An acceptance through a stamp: the stamp matches, and the rest is what a deep
check makes too. -/
theorem fast_throughStamp
    (h : validateFastRunnableSnapshot F root dir now write manifest = .ok (.throughStamp stamp)) :
    verificationStampMatchesSnapshot F root dir manifest = .ok stamp ∧
      validateRunnableSnapshot F root dir manifest = .ok () := by
  obtain ⟨_, hrun, hrest⟩ := bind_eq_ok.mp h
  cases hstamp : verificationStampMatchesSnapshot F root dir manifest with
  | ok s =>
    rw [hstamp] at hrest
    cases hrest
    exact ⟨rfl, hrun⟩
  | error e =>
    rw [hstamp] at hrest
    obtain ⟨_, _, hdeep⟩ := bind_eq_ok.mp hrest
    obtain ⟨_, _, hdeep⟩ := bind_eq_ok.mp hdeep
    obtain ⟨_, _, hlast⟩ := bind_eq_ok.mp hdeep
    cases hlast

/-- Where a deep verification accepts, a snapshot that is accepted through a
stamp is ready in deep mode. -/
theorem deep_of_throughStamp {counts : ℕ × ℕ}
    (h : validateFastRunnableSnapshot F root dir now write manifest = .ok (.throughStamp stamp))
    (hdeep : verifyPromotedSnapshot F root dir manifest = .ok counts) :
    validateDeepRunnableSnapshot F root dir now none manifest =
      .ok (.verified (stampOf F manifest .deep now stamp.files)) := by
  obtain ⟨hstamp, hrun⟩ := fast_throughStamp h
  obtain ⟨-, -, hfiles⟩ := stampMatches_ok hstamp
  have hwrite : writeSnapshotVerificationStamp F root dir none manifest .deep now =
      .ok (stampOf F manifest .deep now stamp.files) := by
    rw [writeSnapshotVerificationStamp, hfiles, ok_bind, answer]
  rw [validateDeepRunnableSnapshot, hdeep, asReason, ok_bind, hrun, ok_bind, hwrite]
  rfl

end Trust

end KirAi.Hub
