/-
# Verifying a snapshot, and stamping it

`manifest.rs`: a deep verification hashes every file of the manifest; a stamp is
taken of the sizes and times of the same files, and matches as long as these are
what they were. What the system says of a file is a `Node`, and a directory is
what it says of every path. A call of the system can fail for reasons of its
own (`ReadFaults`).

Key definitions: `Node`, `verifySnapshotFile`, `verifyPromotedSnapshot`,
`writeSnapshotVerificationStamp`, `verificationStampMatchesSnapshot`, `Intact`.
Key theorems: `verifySnapshotFile_ok`, `collectStampFile_ok`,
`verifyPromotedSnapshot_ok`, `stampMatches_ok`.
-/
import KirAi.Hub.Manifest

namespace KirAi.Hub

open Lib

/-- What the system says of a path, its last link not followed: whether it is a
link, whether it resolves inside the root of the snapshot, whether it is a file,
and the bytes and the time of the file that is read there. -/
structure Node where
  isSymlink : Bool
  inside : Bool
  isFile : Bool
  content : Bytes
  modified : ℕ
deriving DecidableEq, Repr

/-- A file as a program writes it. -/
def Node.file (content : Bytes) (modified : ℕ) : Node where
  isSymlink := false
  inside := true
  isFile := true
  content
  modified

/-- What there is under each relative path. -/
abbrev Dir := String → Option Node

/-- The calls for one file that fail, with the system's text. -/
structure ReadFaults where
  metadata : Option String
  canonicalize : Option String
  open' : Option String
deriving DecidableEq, Repr

def ReadFaults.none : ReadFaults := ⟨.none, .none, .none⟩

def quoted (s : String) : String := "`" ++ s ++ "`"

def joinPath (root path : String) : String := root ++ "/" ++ path

/-- `map_err` of a call: its own failure, or that there is nothing. -/
def answer {α : Type} (fault : Option String) (found : Option α) (error : String → HubError) :
    Except HubError α :=
  match fault, found with
  | some text, _ => .error (error text)
  | none, none => .error (error "No such file or directory (os error 2)")
  | none, some a => .ok a

/-- `if !c { return Err(e) }` -/
def ensure (c : Prop) [Decidable c] (e : HubError) : Except HubError Unit :=
  if c then .ok () else .error e

def unreadable (path text : String) : HubError :=
  .integrityFailed ("snapshot file " ++ quoted path ++ " is missing or unreadable: " ++ text)

/-- The checks that a verification and a stamp have in common. -/
def checkSnapshotNode (root : String) (dir : Dir) (fault : ReadFaults) (relativePath : String)
    (expectedSize : ℕ) : Except HubError Node := do
  validateArtifactPath relativePath
  let path := joinPath root relativePath
  let metadata ← answer fault.metadata (dir relativePath) (unreadable path)
  ensure (metadata.isSymlink = false)
    (.integrityFailed ("snapshot path " ++ quoted path ++ " is a symlink"))
  let canonical ← answer fault.canonicalize (some metadata) (unreadable path)
  ensure (canonical.inside = true) (.integrityFailed ("snapshot file " ++ quoted path ++
    " resolves outside snapshot root " ++ quoted root))
  ensure (metadata.isFile = true)
    (.integrityFailed ("snapshot path " ++ quoted path ++ " is not a file"))
  ensure (metadata.content.length = expectedSize) (.integrityFailed ("snapshot file " ++ quoted path ++
    " has size " ++ toString metadata.content.length ++ ", expected " ++ toString expectedSize))
  return metadata

/-! ### Deep verification -/

section Verify

variable (F : Formats) (root : String) (dir : Dir)

def verifyFileSha256 (path : String) (fault : Option String) (node : Node)
    (expectedSha256 : String) : Except HubError Unit := do
  let file ← answer fault (some node) .io
  let actual := F.sha256 file.content
  ensure (actual = expectedSha256) (.integrityFailed ("snapshot file " ++ quoted path ++
    " has sha256 " ++ actual ++ ", expected " ++ expectedSha256))

def verifyFileSha256ForArtifact (path : String) (fault : Option String) (node : Node)
    (expectedSha256 : Option String) (artifactClass : ArtifactClass) : Except HubError Unit :=
  match expectedSha256 with
  | some expected => verifyFileSha256 F path fault node expected
  | none =>
    if artifactClass = .weights then
      .error (.integrityFailed ("snapshot weight file " ++ quoted path ++ " is missing sha256 digest"))
    else .ok ()

def verifySnapshotFile (fault : ReadFaults) (file : ManifestFile) : Except HubError Unit := do
  let node ← checkSnapshotNode root dir fault file.path file.size
  verifyFileSha256ForArtifact F (joinPath root file.path) fault.open' node file.sha256 file.artifactClass

/-- `fault i` is for the `i`-th file. -/
def verifySnapshotFiles (fault : ℕ → ReadFaults) : ℕ → List ManifestFile → Except HubError Unit
  | _, [] => .ok ()
  | i, file :: files => do
    verifySnapshotFile F root dir (fault i) file
    verifySnapshotFiles fault (i + 1) files

/-- `verify_promoted_snapshot`, with the files and bytes that it counts; nothing
fails but what is found. -/
def verifyPromotedSnapshot (manifest : SnapshotManifest) : Except HubError (ℕ × ℕ) := do
  verifySnapshotFiles F root dir (fun _ => .none) 0 manifest.files
  return (manifest.files.length, (manifest.files.map (·.size)).sum)

end Verify

/-! ### Stamps -/

section Stamp

variable (F : Formats) (root : String) (dir : Dir)

def collectStampFile (file : ManifestFile) : Except HubError VerificationStampFile := do
  let node ← checkSnapshotNode root dir .none file.path file.size
  return { path := file.path, size := node.content.length, modifiedAt := node.modified }

def collectVerificationStampFiles : List ManifestFile → Except HubError (List VerificationStampFile)
  | [] => .ok []
  | file :: files => do
    let entry ← collectStampFile root dir file
    let entries ← collectVerificationStampFiles files
    return entry :: entries

def stampOf (manifest : SnapshotManifest) (mode : SnapshotVerificationMode) (now : ℕ)
    (files : List VerificationStampFile) : SnapshotVerificationStamp where
  schemaVersion := snapshotVerificationSchemaVersion
  toolName := snapshotVerificationToolName
  toolVersion := F.toolVersion
  manifestDigest := F.digest manifest
  verificationMode := mode
  verifiedAt := now
  files

/-- `write_snapshot_verification_stamp`, with the call that writes it. -/
def writeSnapshotVerificationStamp (write : Option String) (manifest : SnapshotManifest)
    (mode : SnapshotVerificationMode) (now : ℕ) : Except HubError SnapshotVerificationStamp := do
  let files ← collectVerificationStampFiles root dir manifest.files
  answer write (some (stampOf F manifest mode now files)) .io

def stampError (text : String) : HubError :=
  .integrityFailed ("snapshot verification stamp " ++ quoted (joinPath root snapshotVerificationFile) ++
    text)

def readStampError (bytes : Bytes) : Except HubError SnapshotVerificationStamp :=
  match F.readStamp bytes with
  | .ok stamp => .ok stamp
  | .error text => .error (.integrityFailed ("invalid snapshot verification stamp " ++
      quoted (joinPath root snapshotVerificationFile) ++ ": " ++ text))

def verificationStampMatchesSnapshot (manifest : SnapshotManifest) :
    Except HubError SnapshotVerificationStamp := do
  let node ← answer none (dir snapshotVerificationFile)
    fun text => stampError root (" is missing or unreadable: " ++ text)
  let stamp ← readStampError F root node.content
  ensure (stamp.schemaVersion = snapshotVerificationSchemaVersion) (stampError root
    (" has schema version " ++ toString stamp.schemaVersion ++ ", expected " ++
      toString snapshotVerificationSchemaVersion))
  ensure (stamp.toolName = snapshotVerificationToolName) (stampError root
    (" was written by " ++ quoted stamp.toolName ++ ", expected " ++ quoted snapshotVerificationToolName))
  ensure (stamp.manifestDigest = F.digest manifest) (stampError root
    (" manifest digest " ++ stamp.manifestDigest ++ ", expected " ++ F.digest manifest))
  let currentFiles ← collectVerificationStampFiles root dir manifest.files
  ensure (stamp.files = currentFiles) (stampError root
    (" is stale for manifest digest " ++ F.digest manifest))
  return stamp

end Stamp

/-! ### What the checks say -/

@[simp] theorem ensure_ok {c : Prop} [Decidable c] {e : HubError} {u : Unit} :
    ensure c e = .ok u ↔ c := by
  unfold ensure
  split <;> simp [*]

@[simp] theorem answer_ok {α : Type} {fault : Option String} {found : Option α}
    {error : String → HubError} {a : α} :
    answer fault found error = .ok a ↔ fault = none ∧ found = some a := by
  cases fault <;> cases found <;> simp [answer]

@[simp] theorem validateArtifactPath_ok {path : String} {u : Unit} :
    validateArtifactPath path = .ok u ↔ isSafeArtifactPath path = true := by
  unfold validateArtifactPath
  split <;> simp [*]

/-- A file of the given size, inside the root, and no link. -/
structure Node.Plain (node : Node) (size : ℕ) : Prop where
  isSymlink : node.isSymlink = false
  inside : node.inside = true
  isFile : node.isFile = true
  size : node.content.length = size

theorem Node.file_plain (content : Bytes) (modified : ℕ) :
    (Node.file content modified).Plain content.length := ⟨rfl, rfl, rfl, rfl⟩

/-- The content has the planned digest; weights have one. -/
def Node.Hashed (F : Formats) (node : Node) (sha256 : Option String) (artifactClass : ArtifactClass) :
    Prop :=
  match sha256 with
  | some expected => F.sha256 node.content = expected
  | none => artifactClass ≠ .weights

instance (F : Formats) (node : Node) (sha256 : Option String) (artifactClass : ArtifactClass) :
    Decidable (node.Hashed F sha256 artifactClass) := by
  unfold Node.Hashed
  split <;> infer_instance

/-- A directory has a file of the manifest, as the manifest says it is. -/
structure Intact (F : Formats) (dir : Dir) (file : ManifestFile) (node : Node) : Prop where
  safe : isSafeArtifactPath file.path = true
  found : dir file.path = some node
  plain : node.Plain file.size
  hashed : node.Hashed F file.sha256 file.artifactClass

def Holds (F : Formats) (dir : Dir) (file : ManifestFile) : Prop := ∃ node, Intact F dir file node

section Specs

variable {F : Formats} {root : String} {dir : Dir} {fault : ReadFaults} {file : ManifestFile}
  {node : Node} {u : Unit}

theorem checkSnapshotNode_ok {path : String} {size : ℕ} :
    checkSnapshotNode root dir fault path size = .ok node ↔ isSafeArtifactPath path = true ∧
      fault.metadata = none ∧ fault.canonicalize = none ∧ dir path = some node ∧ node.Plain size := by
  simp only [checkSnapshotNode, bind_eq_ok, validateArtifactPath_ok, answer_ok, ensure_ok,
    Option.some.injEq, pure_eq_ok]
  constructor
  · rintro ⟨-, hsafe, n, ⟨hmeta, hn⟩, -, hlink, c, ⟨hcanon, rfl⟩, -, hin, -, hfile, -, hsize, rfl⟩
    exact ⟨hsafe, hmeta, hcanon, hn, hlink, hin, hfile, hsize⟩
  · rintro ⟨hsafe, hmeta, hcanon, hn, hlink, hin, hfile, hsize⟩
    exact ⟨(), hsafe, node, ⟨hmeta, hn⟩, (), hlink, node, ⟨hcanon, rfl⟩, (), hin, (), hfile, (), hsize,
      rfl⟩

theorem verifyFileSha256ForArtifact_ok {path : String} {open' : Option String} {sha256 : Option String}
    {artifactClass : ArtifactClass} :
    verifyFileSha256ForArtifact F path open' node sha256 artifactClass = .ok u ↔
      (sha256.isSome → open' = none) ∧ node.Hashed F sha256 artifactClass := by
  cases sha256 with
  | some expected =>
    simp only [verifyFileSha256ForArtifact, verifyFileSha256, bind_eq_ok, answer_ok,
      Option.some.injEq, ensure_ok, Node.Hashed, Option.isSome_some, forall_const]
    constructor
    · rintro ⟨n, ⟨hopen, rfl⟩, hsha⟩
      exact ⟨hopen, hsha⟩
    · rintro ⟨hopen, hsha⟩
      exact ⟨node, ⟨hopen, rfl⟩, hsha⟩
  | none => by_cases hw : artifactClass = .weights <;> simp [verifyFileSha256ForArtifact, Node.Hashed, hw]

/-- A file verifies when it is as the manifest says and no call fails. -/
theorem verifySnapshotFile_ok : verifySnapshotFile F root dir fault file = .ok u ↔
    Holds F dir file ∧ fault.metadata = none ∧ fault.canonicalize = none ∧
      (file.sha256.isSome → fault.open' = none) := by
  simp only [verifySnapshotFile, bind_eq_ok, checkSnapshotNode_ok, verifyFileSha256ForArtifact_ok]
  constructor
  · rintro ⟨n, ⟨hsafe, hmeta, hcanon, hn, hplain⟩, hopen, hsha⟩
    exact ⟨⟨n, hsafe, hn, hplain, hsha⟩, hmeta, hcanon, hopen⟩
  · rintro ⟨⟨n, hsafe, hn, hplain, hsha⟩, hmeta, hcanon, hopen⟩
    exact ⟨n, ⟨hsafe, hmeta, hcanon, hn, hplain⟩, hopen, hsha⟩

theorem verifySnapshotFiles_ok {faults : ℕ → ReadFaults} : ∀ {files : List ManifestFile} {i : ℕ},
    verifySnapshotFiles F root dir faults i files = .ok u → ∀ file ∈ files, Holds F dir file
  | [], _, _, _, hf => by cases hf
  | file :: files, i, h, g, hg => by
    obtain ⟨_, hone, hrest⟩ := bind_eq_ok.mp h
    rcases List.mem_cons.mp hg with rfl | hg
    · exact (verifySnapshotFile_ok.mp hone).1
    · exact verifySnapshotFiles_ok hrest g hg

theorem verifySnapshotFiles_calm : ∀ {files : List ManifestFile} {i : ℕ},
    (∀ file ∈ files, Holds F dir file) →
    verifySnapshotFiles F root dir (fun _ => .none) i files = .ok ()
  | [], _, _ => rfl
  | file :: files, i, h => by
    have hone : verifySnapshotFile F root dir .none file = .ok () :=
      verifySnapshotFile_ok.mpr ⟨h file (List.mem_cons_self ..), rfl, rfl, fun _ => rfl⟩
    rw [verifySnapshotFiles, hone, ok_bind]
    exact verifySnapshotFiles_calm fun g hg => h g (List.mem_cons_of_mem _ hg)

/-- A deep verification accepts when every file of the manifest is as it says. -/
theorem verifyPromotedSnapshot_ok {manifest : SnapshotManifest} :
    (∃ counts, verifyPromotedSnapshot F root dir manifest = .ok counts) ↔
      ∀ file ∈ manifest.files, Holds F dir file := by
  constructor
  · rintro ⟨counts, h⟩
    obtain ⟨_, hfiles, -⟩ := bind_eq_ok.mp h
    exact verifySnapshotFiles_ok hfiles
  · intro h
    exact ⟨_, by rw [verifyPromotedSnapshot, verifySnapshotFiles_calm h, ok_bind]; rfl⟩

theorem collectStampFile_ok {entry : VerificationStampFile} :
    collectStampFile root dir file = .ok entry ↔ isSafeArtifactPath file.path = true ∧
      ∃ node, dir file.path = some node ∧ node.Plain file.size ∧
        entry = ⟨file.path, file.size, node.modified⟩ := by
  simp only [collectStampFile, bind_eq_ok, checkSnapshotNode_ok, pure_eq_ok, ReadFaults.none, true_and]
  constructor
  · rintro ⟨n, ⟨hsafe, hn, hplain⟩, rfl⟩
    exact ⟨hsafe, n, hn, hplain, by rw [hplain.size]⟩
  · rintro ⟨hsafe, n, hn, hplain, rfl⟩
    exact ⟨n, ⟨hsafe, hn, hplain⟩, by rw [hplain.size]⟩

theorem collectVerificationStampFiles_ok : ∀ {files : List ManifestFile}
    {entries : List VerificationStampFile},
    collectVerificationStampFiles root dir files = .ok entries ↔
      List.Forall₂ (fun file entry => collectStampFile root dir file = .ok entry) files entries
  | [], entries => by
    cases entries with
    | nil => simp [collectVerificationStampFiles]
    | cons entry entries => simp [collectVerificationStampFiles]
  | file :: files, entries => by
    simp only [collectVerificationStampFiles, bind_eq_ok, pure_eq_ok, List.forall₂_cons_left_iff,
      collectVerificationStampFiles_ok]
    constructor
    · rintro ⟨entry, hentry, rest, hrest, rfl⟩
      exact ⟨entry, rest, hentry, hrest, rfl⟩
    · rintro ⟨entry, rest, hentry, hrest, rfl⟩
      exact ⟨entry, hentry, rest, hrest, rfl⟩

theorem readStampError_ok {bytes : Bytes} {stamp : SnapshotVerificationStamp} :
    readStampError F root bytes = .ok stamp ↔ F.readStamp bytes = .ok stamp := by
  unfold readStampError
  cases F.readStamp bytes <;> simp

/-- What a stamp that matches says. -/
theorem stampMatches_ok {manifest : SnapshotManifest} {stamp : SnapshotVerificationStamp}
    (h : verificationStampMatchesSnapshot F root dir manifest = .ok stamp) :
    (∃ node, dir snapshotVerificationFile = some node ∧ F.readStamp node.content = .ok stamp) ∧
      stamp.manifestDigest = F.digest manifest ∧
      collectVerificationStampFiles root dir manifest.files = .ok stamp.files := by
  simp only [verificationStampMatchesSnapshot, bind_eq_ok, answer_ok, readStampError_ok, ensure_ok,
    pure_eq_ok, true_and] at h
  obtain ⟨node, hnode, stamp, hstamp, -, -, -, -, -, hdigest, files, hfiles, -, rfl, rfl⟩ := h
  exact ⟨⟨node, hnode, hstamp⟩, hdigest, hfiles⟩

end Specs

end KirAi.Hub
