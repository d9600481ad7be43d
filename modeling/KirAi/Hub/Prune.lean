/-
# Pruning the model home

`prune.rs`, with what it reads of `store.rs`: the snapshots that are listed, the alias records,
and when a snapshot was last used. A plan tells the snapshots that can go from those that are
protected by an alias, by being among the last used of their profile, or by being used recently;
applying it removes or quarantines the candidates.

The file system is a `ModelHome`: a path leads to a directory (links followed), and a directory
has a manifest and a usage file, or the call for it fails with a text. Paths are compared as
paths, so two paths can lead to one directory.

Key definitions: `ModelHome`, `listSnapshots`, `listAliases`, `resolveSnapshotAlias`,
`prunePlan`, `applyPrunePlan`.
-/
import KirAi.Hub.Snapshot
import KirAi.Lib.Selection
import Mathlib.Data.Prod.Lex
import Mathlib.Data.String.Basic
import Mathlib.Order.OrderDual

namespace KirAi.Hub

open Lib

def HubError.modelNotFound (message : String) : HubError := ⟨"model_not_found", message⟩

/-! ### What there is -/

structure ModelAlias (Path : Type) where
  schemaVersion : ℕ
  alias' : String
  snapshotPath : Path
  manifestDigest : Option String
  updatedAt : ℤ
deriving DecidableEq, Repr

structure SnapshotUsage where
  schemaVersion : ℕ
  lastUsedAt : ℤ
deriving DecidableEq, Repr

structure PromotedSnapshot (Path : Type) where
  path : Path
  manifest : SnapshotManifest
  manifestDigest : String
deriving DecidableEq, Repr

/-- The JSON of the records beside the snapshots, and how a path is written. -/
structure Records (Path : Type) where
  readAlias : Bytes → Except String (ModelAlias Path)
  readUsage : Bytes → Except String SnapshotUsage
  display : Path → String

/-- An entry of the directory of the aliases; a link to a file is no regular file. -/
structure AliasFile where
  name : String
  isFile : Bool
  content : Bytes
deriving DecidableEq, Repr

structure ModelHome (Path Dir : Type) where
  dirOf : Path → Option Dir
  manifestFile : Dir → Except String (Option Bytes)
  usageFile : Dir → Except String (Option Bytes)
  /-- The directories `huggingface/*/snapshots/*`, as the system lists them. -/
  snapshotDirs : List Path
  /-- The names in a directory are different. -/
  nodup : snapshotDirs.Nodup
  aliasFiles : List AliasFile

section Store

variable {Path Dir : Type} [LinearOrder Path] (F : Formats) (R : Records Path)
  (H : ModelHome Path Dir)

def ModelHome.manifestAt (path : Path) : Except String (Option Bytes) :=
  match H.dirOf path with
  | some dir => H.manifestFile dir
  | none => .ok none

def ModelHome.usageAt (path : Path) : Except String (Option Bytes) :=
  match H.dirOf path with
  | some dir => H.usageFile dir
  | none => .ok none

def promoted (path : Path) (manifest : SnapshotManifest) : PromotedSnapshot Path where
  path
  manifest
  manifestDigest := F.digest manifest

def parseManifest (path : Path) (bytes : Bytes) : Except HubError (PromotedSnapshot Path) :=
  match F.readManifest bytes with
  | .ok manifest => .ok (promoted F path manifest)
  | .error err => .error (.integrityFailed ("invalid snapshot manifest " ++
      quoted (joinPath (R.display path) snapshotManifestFile) ++ ": " ++ err))

/-- `read_promoted_snapshot` -/
def readPromotedSnapshot (path : Path) : Except HubError (PromotedSnapshot Path) := do
  let unreadable (text : String) : HubError := .integrityFailed ("snapshot manifest " ++
    quoted (joinPath (R.display path) snapshotManifestFile) ++ " is missing or unreadable: " ++ text)
  match H.manifestAt path with
  | .error text => .error (unreadable text)
  | .ok none => .error (unreadable "No such file or directory (os error 2)")
  | .ok (some bytes) => parseManifest F R path bytes

/-- The snapshot in a directory that is listed, if it has a manifest. -/
def listedSnapshot (path : Path) : Except HubError (Option (PromotedSnapshot Path)) :=
  match H.manifestAt path with
  | .error text => .error (.io text)
  | .ok none => .ok none
  | .ok (some bytes) => (parseManifest F R path bytes).map some

def listedSnapshots : List Path → Except HubError (List (PromotedSnapshot Path))
  | [] => .ok []
  | path :: paths => do
    let snapshot ← listedSnapshot F R H path
    let snapshots ← listedSnapshots paths
    return snapshot.toList ++ snapshots

/-- `list_snapshots`, sorted by repository, commit and path. -/
def listSnapshots : Except HubError (List (PromotedSnapshot Path)) := do
  let snapshots ← listedSnapshots F R H H.snapshotDirs
  return inOrderBy (fun s : PromotedSnapshot Path =>
    toLex (s.manifest.repoId, toLex (s.manifest.resolvedCommit, s.path))) snapshots

/-! ### Aliases -/

def parseAlias (file : AliasFile) : Except HubError (ModelAlias Path) :=
  match R.readAlias file.content with
  | .ok record => .ok record
  | .error err => .error (.integrityFailed ("invalid model alias record " ++
      quoted (joinPath "aliases" file.name) ++ ": " ++ err))

def readAliases : List AliasFile → Except HubError (List (ModelAlias Path))
  | [] => .ok []
  | file :: files => do
    if file.isFile then
      let record ← parseAlias R file
      let records ← readAliases files
      return record :: records
    else readAliases files

/-- `list_aliases`: the records that are regular files, sorted by alias. -/
def listAliases : Except HubError (List (ModelAlias Path)) := do
  let aliases ← readAliases R H.aliasFiles
  return inOrderBy (fun a : ModelAlias Path => a.alias') aliases

def validateAlias (alias' : String) : Except HubError Unit :=
  ensure (¬(alias' = "" ∨ alias' = "." ∨ alias' = ".." ∨
      (alias'.toList.any fun c => c = Char.ofNat 0 || c = '/') = true))
    (.invalidRequest "model alias must be non-empty and must not contain path separators")

/-- A byte of an alias as it stands in the name of its file. -/
def aliasFileChar (byte : UInt8) : Char :=
  let c := Char.ofNat byte.toNat
  if byte < 128 && (c.isAlphanum || c = '.' || c = '_' || c = '-' || c = ':') then c else '_'

def aliasFileName (alias' : String) : String :=
  let bytes := alias'.toUTF8.data.toList
  String.ofList (bytes.map aliasFileChar) ++ "." ++
    String.ofList ((F.sha256 bytes).toList.take 16) ++ ".json"

def aliasMismatch (file : AliasFile) (recorded alias' : String) : HubError :=
  .integrityFailed ("model alias record " ++ quoted (joinPath "aliases" file.name) ++
    " points at alias " ++ quoted recorded ++ " instead of " ++ quoted alias')

def aliasDigestMismatch (alias' expected found : String) : HubError :=
  .integrityFailed ("model alias " ++ quoted alias' ++ " manifest digest mismatch: alias recorded " ++
    expected ++ ", snapshot has " ++ found)

/-- `resolve_snapshot_alias` -/
def resolveSnapshotAlias (alias' : String) : Except HubError (PromotedSnapshot Path) := do
  validateAlias alias'
  match H.aliasFiles.find? (·.name = aliasFileName F alias') with
  | none => .error (.modelNotFound ("model alias " ++ quoted alias' ++ " was not found"))
  | some file => do
    let record ← parseAlias R file
    ensure (record.alias' = alias') (aliasMismatch file record.alias' alias')
    let snapshot ← readPromotedSnapshot F R H record.snapshotPath
    match record.manifestDigest with
    | none => return snapshot
    | some expected => do
      ensure (expected = snapshot.manifestDigest)
        (aliasDigestMismatch alias' expected snapshot.manifestDigest)
      return snapshot

/-! ### Plans -/

structure PrunePolicy where
  now : ℤ
  keepRecent : Option ℕ
  keepMinPerProfile : ℕ
  profile : Option String
deriving DecidableEq, Repr

/-- What a plan says of a snapshot. -/
structure PruneSnapshotEntry (Path : Type) where
  path : Path
  repoId : String
  resolvedCommit : String
  profile : String
  manifestDigest : String
  bytes : ℕ
  lastUsedAt : ℤ
  aliases : List String
deriving DecidableEq, Repr

/-- A candidate is what the entry says. -/
abbrev PruneCandidate (Path : Type) := PruneSnapshotEntry Path

structure ProtectedSnapshot (Path : Type) extends PruneSnapshotEntry Path where
  reasons : List String
deriving DecidableEq, Repr

structure PrunePlan (Path : Type) where
  scannedSnapshots : ℕ
  totalBytes : ℕ
  reclaimableBytes : ℕ
  candidates : List (PruneCandidate Path)
  protected' : List (ProtectedSnapshot Path)
deriving DecidableEq, Repr

/-- A sum of `u64`s, which wraps. -/
def sumU64 (values : List ℕ) : ℕ := values.sum % 2 ^ 64

def snapshotLastUsedAt (path : Path) (manifest : SnapshotManifest) : Except HubError ℤ :=
  match H.usageAt path with
  | .error text => .error (.io text)
  | .ok none => .ok manifest.createdAt
  | .ok (some bytes) =>
    match R.readUsage bytes with
    | .ok usage => .ok usage.lastUsedAt
    | .error err => .error (.integrityFailed ("invalid snapshot usage " ++
        quoted (joinPath (R.display path) "llm-engine-usage.json") ++ ": " ++ err))

/-- `aliases_by_snapshot_path`: the aliases recorded with a path, sorted. -/
def aliasesBySnapshotPath (aliases : List (ModelAlias Path)) (path : Path) : List String :=
  inOrderBy id ((aliases.filter (·.snapshotPath = path)).map (·.alias'))

def PrunePolicy.selects (policy : PrunePolicy) (s : PromotedSnapshot Path) : Bool :=
  match policy.profile with
  | some profile => profile == s.manifest.profile
  | none => true

def snapshotBytes (s : PromotedSnapshot Path) : ℕ := sumU64 (s.manifest.files.map (·.size))

def entryOf (aliases : List (ModelAlias Path)) (s : PromotedSnapshot Path) (lastUsedAt : ℤ) :
    PruneSnapshotEntry Path where
  path := s.path
  repoId := s.manifest.repoId
  resolvedCommit := s.manifest.resolvedCommit
  profile := s.manifest.profile
  manifestDigest := s.manifestDigest
  bytes := snapshotBytes s
  lastUsedAt
  aliases := aliasesBySnapshotPath aliases s.path

/-- The first loop of `prune_plan`. -/
def pruneEntries (policy : PrunePolicy) (aliases : List (ModelAlias Path)) :
    List (PromotedSnapshot Path) → Except HubError (List (PruneSnapshotEntry Path))
  | [] => .ok []
  | s :: snapshots => do
    if policy.selects s then
      let lastUsedAt ← snapshotLastUsedAt R H s.path s.manifest
      let entries ← pruneEntries policy aliases snapshots
      return entryOf aliases s lastUsedAt :: entries
    else pruneEntries policy aliases snapshots

/-- Used last first; of those used at the same time, by path. -/
def recency (e : PruneSnapshotEntry Path) : ℤᵒᵈ ×ₗ Path :=
  toLex (OrderDual.toDual e.lastUsedAt, e.path)

/-- The entries of one profile that are kept for it. -/
def retainedOfProfile (entries : List (PruneSnapshotEntry Path)) (keepMinPerProfile : ℕ)
    (profile : String) : List (PruneSnapshotEntry Path) :=
  (inOrderBy recency (entries.filter (·.profile = profile))).take keepMinPerProfile

def minimumRetainedSnapshotPaths (entries : List (PruneSnapshotEntry Path))
    (keepMinPerProfile : ℕ) : List Path :=
  if keepMinPerProfile = 0 then []
  else (entries.map (·.profile)).dedup.flatMap fun profile =>
    (retainedOfProfile entries keepMinPerProfile profile).map (·.path)

/-- Used in the last `keep_recent`, or later than now. -/
def PrunePolicy.recentlyUsed (policy : PrunePolicy) (lastUsedAt : ℤ) : Bool :=
  match policy.keepRecent with
  | none => false
  | some keepRecent =>
    let age := policy.now - lastUsedAt
    if 0 ≤ age then decide (age ≤ keepRecent) else true

def protectionReasons (policy : PrunePolicy) (retainedMinimumPaths : List Path)
    (e : PruneSnapshotEntry Path) : List String :=
  e.aliases.map ("active_alias:" ++ ·) ++
    (if retainedMinimumPaths.contains e.path then ["minimum_retained_for_profile"] else []) ++
    (if policy.recentlyUsed e.lastUsedAt then ["recently_used"] else [])

def planOf (policy : PrunePolicy) (entries : List (PruneSnapshotEntry Path)) : PrunePlan Path :=
  let retained := minimumRetainedSnapshotPaths entries policy.keepMinPerProfile
  let reasons := protectionReasons policy retained
  let candidates := inOrderBy (·.path) (entries.filter fun e => (reasons e).isEmpty)
  let protected' := inOrderBy (fun p : ProtectedSnapshot Path => p.path)
    ((entries.filter fun e => !(reasons e).isEmpty).map fun e =>
      { toPruneSnapshotEntry := e, reasons := reasons e })
  { scannedSnapshots := candidates.length + protected'.length
    totalBytes := sumU64 (candidates.map (·.bytes) ++ protected'.map (·.bytes))
    reclaimableBytes := sumU64 (candidates.map (·.bytes))
    candidates
    protected' }

def prunePlan (policy : PrunePolicy) : Except HubError (PrunePlan Path) := do
  let snapshots ← listSnapshots F R H
  let aliases ← listAliases R H
  let entries ← pruneEntries R H policy aliases snapshots
  return planOf policy entries

end Store

/-! ### Applying a plan -/

structure QuarantineMetadata (Path : Type) where
  originalPath : Path
  quarantinedPath : Path
  reason : String
  quarantinedAt : ℤ
  manifestDigest : Option String
deriving DecidableEq, Repr

structure QuarantinedSnapshot (Path : Type) where
  path : Path
  metadata : QuarantineMetadata Path
  bytes : ℕ
deriving DecidableEq, Repr

structure DeletedSnapshot (Path : Type) where
  path : Path
  bytes : ℕ
deriving DecidableEq, Repr

structure PruneReport (Path : Type) where
  candidates : List (PruneCandidate Path)
  protected' : List (ProtectedSnapshot Path)
  deleted : List (DeletedSnapshot Path)
  quarantined : List (QuarantinedSnapshot Path)
  deletedBytes : ℕ
deriving DecidableEq, Repr

/-- What the calls for a snapshot answer. -/
structure PruneCalls (Path : Type) where
  verifySnapshot : Path → Except HubError Unit
  removeSnapshotDir : Path → Except HubError Unit
  quarantineSnapshot : Path → String → Except HubError (QuarantinedSnapshot Path)

/-- The calls that take a snapshot away. -/
inductive PruneEffect (Path : Type)
  | remove (path : Path)
  | quarantine (path : Path)
deriving DecidableEq, Repr

def PruneEffect.path {Path : Type} : PruneEffect Path → Path
  | .remove path => path
  | .quarantine path => path

section Apply

variable {Path : Type} (C : PruneCalls Path)

/-- The loop of `apply_prune_plan`, with the calls that it made; an error ends it. -/
def applyCandidates : List (PruneCandidate Path) → PruneReport Path →
    List (PruneEffect Path) × Except HubError (PruneReport Path)
  | [], report => ([], .ok report)
  | c :: candidates, report =>
    match C.verifySnapshot c.path with
    | .ok _ =>
      match C.removeSnapshotDir c.path with
      | .error err => ([.remove c.path], .error err)
      | .ok _ =>
        let (effects, result) := applyCandidates candidates { report with
          deletedBytes := min (report.deletedBytes + c.bytes) (2 ^ 64 - 1)
          deleted := report.deleted ++ [⟨c.path, c.bytes⟩] }
        (.remove c.path :: effects, result)
    | .error err =>
      match C.quarantineSnapshot c.path err.display with
      | .error err => ([.quarantine c.path], .error err)
      | .ok quarantined =>
        let (effects, result) := applyCandidates candidates { report with
          quarantined := report.quarantined ++ [quarantined] }
        (.quarantine c.path :: effects, result)

def applyPrunePlan (plan : PrunePlan Path) :
    List (PruneEffect Path) × Except HubError (PruneReport Path) :=
  applyCandidates C plan.candidates
    { candidates := plan.candidates, protected' := plan.protected', deleted := [],
      quarantined := [], deletedBytes := 0 }

end Apply

end KirAi.Hub
