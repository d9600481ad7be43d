/-
# Histories of a snapshot: verifications, stamps and changes

What happens to one snapshot directory: processes verify its files one after the
other, each by its metadata and then by reading it through for its hash, a buffer
at a time; a pull downloads the files to a directory of its own, verifies them
there and puts the directory in place; then the sizes and times are taken one
after the other for a stamp, which is written. Anyone may change anything at any
time, a file that is open for its hash as well. The stamp is taken of the files
as they are then, not as they were when they were hashed.

Key definitions: `Snapshot`, `Step`, `History`, `Honest`, `Careful`, `Trusted`.
Key theorems: `Trusted.step`, `History.trusted`, `Trusted.holds`.
-/
import KirAi.Hub.Readiness
import Mathlib.Data.List.Forall2
import Mathlib.Logic.Function.Basic

namespace KirAi.Hub

open Lib

/-! ### The snapshot and who is at work on it -/

/-- A file as a process found it. -/
structure Version where
  path : String
  content : Bytes
  modified : ℕ
deriving DecidableEq, Repr

/-- Where a process verifies files: in the snapshot, or where it downloads them to. -/
inductive Place where
  | snapshot
  | staging
deriving DecidableEq, Repr

/-- How far the verification of one file has come. -/
inductive Hashing where
  | idle
  /-- Its metadata is taken, and its path is to be resolved. -/
  | looked (file : ManifestFile) (node : Node)
  /-- It is to be opened. -/
  | checked (file : ManifestFile)
  /-- It is open, and this much of it is read. -/
  | reading (file : ManifestFile) (soFar : Bytes)
deriving DecidableEq, Repr

/-- A process at work: verifying the files of a manifest, or taking the entries
of its stamp. One file at a time has its metadata taken and its path not yet
resolved (`seen`). A pull that finds the snapshot in place when it promotes
stamps it, and stamps it `again` at its end. -/
inductive Task where
  | verifying (place : Place) (verified : List ManifestFile) (hashing : Hashing)
      (todo : List ManifestFile)
  | stamping (manifest : SnapshotManifest) (entries : List VerificationStampFile)
      (seen : Option (ManifestFile × Node)) (todo : List ManifestFile) (again : Bool)
deriving DecidableEq, Repr

namespace Task

def place : Task → Place
  | verifying place _ _ _ => place
  | stamping _ _ _ _ _ => .snapshot

/-- The files it has verified and has yet to take for a stamp. -/
def pending : Task → List ManifestFile
  | verifying _ verified _ _ => verified
  | stamping manifest _ _ todo again => if again then manifest.files else todo

/-- The file that it has open, and what it has read of it. -/
def reading? : Task → Option (ManifestFile × Bytes)
  | verifying _ _ (.reading file soFar) _ => some (file, soFar)
  | _ => none

/-- `verify_file_sha256_for_artifact` before it opens the file: a file with a
digest is to be hashed, one without is verified if it is none of the weights. -/
def afterChecks (place : Place) (verified : List ManifestFile) (file : ManifestFile)
    (todo : List ManifestFile) : Option Task :=
  match file.sha256 with
  | some _ => some (verifying place verified (.checked file) todo)
  | none =>
    if file.artifactClass = .weights then none
    else some (verifying place (verified ++ [file]) .idle todo)

end Task

/-- A snapshot directory, for each process the directory that it downloads to and
the bytes of the file that it has open, the processes at work, and what they have
found and written so far. -/
structure Snapshot where
  dir : Dir
  staging : ℕ → Dir
  handles : ℕ → Bytes
  tasks : ℕ → Option Task
  versions : List Version
  stamps : List (SnapshotManifest × SnapshotVerificationStamp)

namespace Snapshot

def fresh (dir : Dir) : Snapshot where
  dir
  staging := fun _ _ => none
  handles := fun _ => []
  tasks := fun _ => none
  versions := []
  stamps := []

def setTask (s : Snapshot) (i : ℕ) (task : Option Task) : Snapshot :=
  { s with tasks := Function.update s.tasks i task }

def setHandle (s : Snapshot) (i : ℕ) (content : Bytes) : Snapshot :=
  { s with handles := Function.update s.handles i content }

def redirect (s : Snapshot) (dir : Dir) (staging : ℕ → Dir) (handles : ℕ → Bytes) : Snapshot :=
  { s with dir, staging, handles }

/-- The directory that a process verifies in. -/
def under (s : Snapshot) (i : ℕ) : Place → Dir
  | .snapshot => s.dir
  | .staging => s.staging i

/-- What is at the path of the snapshot has been looked at. -/
def look (s : Snapshot) (path : String) : Snapshot :=
  match s.dir path with
  | some node => { s with versions := ⟨path, node.content, node.modified⟩ :: s.versions }
  | none => s

/-- A file is verified. -/
def verified (s : Snapshot) (place : Place) (path : String) : Snapshot :=
  match place with
  | .snapshot => s.look path
  | .staging => s

/-- What a process has downloaded of a file is written. -/
def downloaded (s : Snapshot) (i : ℕ) (path : String) (content : Bytes) (modified : ℕ) : ℕ → Dir :=
  Function.update s.staging i
    (Function.update (s.staging i) path (some (.file content modified)))

/-- The downloaded files with their manifest. -/
def promoted (F : Formats) (s : Snapshot) (i : ℕ) (manifest : SnapshotManifest) (modified : ℕ) : Dir :=
  Function.update (s.staging i) snapshotManifestFile
    (some (.file (F.manifestPretty manifest) modified))

def cleared (s : Snapshot) (i : ℕ) : ℕ → Dir := Function.update s.staging i fun _ => none

/-- The directory once the stamp is written. -/
def stamped (F : Formats) (s : Snapshot) (stamp : SnapshotVerificationStamp) (modified : ℕ) : Dir :=
  Function.update s.dir snapshotVerificationFile (some (.file (F.stampPretty stamp) modified))

def record (s : Snapshot) (manifest : SnapshotManifest) (stamp : SnapshotVerificationStamp) :
    Snapshot := { s with stamps := (manifest, stamp) :: s.stamps }

end Snapshot

inductive Event where
  /-- Anything changes in any way, by anyone: an edit, a quarantine, a manifest
  written; in a directory, or only in a file that is open. -/
  | change (dir : Dir) (staging : ℕ → Dir) (handles : ℕ → Bytes)
  | start (i : ℕ) (files : List ManifestFile)
  | pull (i : ℕ) (files : List ManifestFile)
  | download (i : ℕ) (path : String) (content : Bytes) (modified : ℕ)
  | look (i : ℕ)
  | resolve (i : ℕ)
  | store (i : ℕ)
  | openFile (i : ℕ)
  | read (i n : ℕ)
  | hash (i : ℕ)
  | settle (i : ℕ) (manifest : SnapshotManifest) (again : Bool)
  | promote (i : ℕ) (manifest : SnapshotManifest) (modified : ℕ)
  | see (i : ℕ)
  | collect (i : ℕ)
  | stamp (i : ℕ) (mode : SnapshotVerificationMode) (now modified : ℕ)
  | stop (i : ℕ)

/-- The buffer that a file is read into for its hash. -/
def hashBuffer : ℕ := 1024 * 1024

section Histories

variable (F : Formats)

inductive Step (s : Snapshot) : Event → Snapshot → Prop where
  | change (dir : Dir) (staging : ℕ → Dir) (handles : ℕ → Bytes) :
      Step s (.change dir staging handles) (s.redirect dir staging handles)
  | start {i : ℕ} (files : List ManifestFile) (free : s.tasks i = none) :
      Step s (.start i files) (s.setTask i (some (.verifying .snapshot [] .idle files)))
  /-- A pull, with an empty directory for what it downloads. -/
  | pull {i : ℕ} (files : List ManifestFile) (free : s.tasks i = none) :
      Step s (.pull i files) ((s.redirect s.dir (s.cleared i) s.handles).setTask i
        (some (.verifying .staging [] .idle files)))
  | downloaded {i : ℕ} {verified todo : List ManifestFile} {file : ManifestFile}
      (content : Bytes) (modified : ℕ)
      (task : s.tasks i = some (.verifying .staging verified .idle (file :: todo))) :
      Step s (.download i file.path content modified)
        (s.redirect s.dir (s.downloaded i file.path content modified) s.handles)
  | looked {i : ℕ} {verified todo : List ManifestFile} {file : ManifestFile} {node : Node}
      (task : s.tasks i = some (.verifying .snapshot verified .idle (file :: todo)))
      (safe : isSafeArtifactPath file.path = true) (found : s.dir file.path = some node)
      (isSymlink : node.isSymlink = false) :
      Step s (.look i) (s.setTask i (some (.verifying .snapshot verified (.looked file node) todo)))
  /-- The path is resolved as it is now, and the rest was in the metadata. -/
  | resolved {i : ℕ} {verified todo : List ManifestFile} {file : ManifestFile} {node now : Node}
      (task : s.tasks i = some (.verifying .snapshot verified (.looked file node) todo))
      (found : s.dir file.path = some now) (inside : now.inside = true)
      (isFile : node.isFile = true) (size : node.content.length = file.size) :
      Step s (.resolve i) (s.setTask i (Task.afterChecks .snapshot verified file todo))
  /-- The file is downloaded, and has its length. -/
  | stored {i : ℕ} {verified todo : List ManifestFile} {file : ManifestFile} {node : Node}
      (task : s.tasks i = some (.verifying .staging verified .idle (file :: todo)))
      (safe : isSafeArtifactPath file.path = true) (found : s.staging i file.path = some node)
      (size : node.content.length = file.size) :
      Step s (.store i) (s.setTask i (Task.afterChecks .staging verified file todo))
  | opened {i : ℕ} {place : Place} {verified todo : List ManifestFile} {file : ManifestFile}
      {node : Node} (task : s.tasks i = some (.verifying place verified (.checked file) todo))
      (found : s.under i place file.path = some node) :
      Step s (.openFile i) ((s.setHandle i node.content).setTask i
        (some (.verifying place verified (.reading file []) todo)))
  | read {i n : ℕ} {place : Place} {verified todo : List ManifestFile} {file : ManifestFile}
      {soFar : Bytes} (task : s.tasks i = some (.verifying place verified (.reading file soFar) todo))
      (pos : 0 < n) (buffer : n ≤ hashBuffer) (more : soFar.length + n ≤ (s.handles i).length) :
      Step s (.read i n) (s.setTask i (some (.verifying place verified
        (.reading file (soFar ++ ((s.handles i).drop soFar.length).take n)) todo)))
  /-- Nothing is left to read, and the digest is the planned one. -/
  | hashed {i : ℕ} {place : Place} {verified todo : List ManifestFile} {file : ManifestFile}
      {soFar : Bytes} (task : s.tasks i = some (.verifying place verified (.reading file soFar) todo))
      (all : (s.handles i).length ≤ soFar.length) (digest : file.sha256 = some (F.sha256 soFar)) :
      Step s (.hash i) ((s.verified place file.path).setTask i
        (some (.verifying place (verified ++ [file]) .idle todo)))
  /-- All is verified; the stamp is for a manifest of these files. -/
  | settle {i : ℕ} {manifest : SnapshotManifest} (again : Bool)
      (task : s.tasks i = some (.verifying .snapshot manifest.files .idle [])) :
      Step s (.settle i manifest again)
        (s.setTask i (some (.stamping manifest [] none manifest.files again)))
  /-- All is downloaded; the directory gets its manifest and is put in place. -/
  | promote {i : ℕ} {manifest : SnapshotManifest} (modified : ℕ)
      (task : s.tasks i = some (.verifying .staging manifest.files .idle [])) :
      Step s (.promote i manifest modified)
        ((s.redirect (s.promoted F i manifest modified) (s.cleared i) s.handles).setTask i
          (some (.stamping manifest [] none manifest.files false)))
  | seen {i : ℕ} {manifest : SnapshotManifest} {entries : List VerificationStampFile}
      {todo : List ManifestFile} {again : Bool} {file : ManifestFile} {node : Node}
      (task : s.tasks i = some (.stamping manifest entries none (file :: todo) again))
      (safe : isSafeArtifactPath file.path = true) (found : s.dir file.path = some node)
      (isSymlink : node.isSymlink = false) :
      Step s (.see i) ((s.look file.path).setTask i
        (some (.stamping manifest entries (some (file, node)) todo again)))
  | collected {i : ℕ} {manifest : SnapshotManifest} {entries : List VerificationStampFile}
      {todo : List ManifestFile} {again : Bool} {file : ManifestFile} {node now : Node}
      (task : s.tasks i = some (.stamping manifest entries (some (file, node)) todo again))
      (found : s.dir file.path = some now) (inside : now.inside = true)
      (isFile : node.isFile = true) (size : node.content.length = file.size) :
      Step s (.collect i) (s.setTask i (some (.stamping manifest
        (entries ++ [⟨file.path, node.content.length, node.modified⟩]) none todo again)))
  | stamp {i : ℕ} {manifest : SnapshotManifest} {entries : List VerificationStampFile} {again : Bool}
      (mode : SnapshotVerificationMode) (now modified : ℕ)
      (task : s.tasks i = some (.stamping manifest entries none [] again)) :
      Step s (.stamp i mode now modified)
        (((s.record manifest (stampOf F manifest mode now entries)).redirect
          (s.stamped F (stampOf F manifest mode now entries) modified) s.staging s.handles).setTask i
            (if again then some (.stamping manifest [] none manifest.files false) else none))
  /-- A process that a check refuses, that fails at a call, or that dies. -/
  | stop (i : ℕ) : Step s (.stop i) (s.setTask i none)

/-- A file that has the size and the time of a version that was looked at is that
version: every change has changed the size or the time. -/
def Honest (s : Snapshot) : Prop :=
  ∀ v ∈ s.versions, ∀ node, s.dir v.path = some node → node.content.length = v.content.length →
    node.modified = v.modified → node.content = v.content

/-- There is no stamp in a directory that nobody has verified. -/
def Unstamped (dir : Dir) : Prop :=
  ∀ node stamp, dir snapshotVerificationFile = some node → F.readStamp node.content ≠ .ok stamp

/-- The states a snapshot comes to, by steps that `Allowed` admits. -/
inductive History (Allowed : Snapshot → Event → Prop) : Snapshot → Prop where
  | start {dir : Dir} : Unstamped F dir → History Allowed (.fresh dir)
  | step {s s' : Snapshot} {e : Event} : History Allowed s → Step F s e s' → Honest s' →
      Allowed s e → History Allowed s'

/-! ### What a change must not do -/

/-- Whatever of the planned size is where the file belongs has its digest. -/
def Sound (dir : Dir) (file : ManifestFile) : Prop :=
  ∀ node, dir file.path = some node → node.content.length = file.size →
    node.Hashed F file.sha256 file.artifactClass

/-- Any stamp that is read is one that was written. -/
def Genuine (stamps : List (SnapshotManifest × SnapshotVerificationStamp)) (dir : Dir) : Prop :=
  ∀ node stamp, dir snapshotVerificationFile = some node → F.readStamp node.content = .ok stamp →
    ∃ manifest, (manifest, stamp) ∈ stamps

/-- No file that the process verified and has yet to stamp is another, and one that
it is reading is what it was. -/
structure Task.Keeps (task : Task) (dir dir' : Dir) (handle handle' : Bytes) : Prop where
  pending : ∀ file ∈ task.pending, Sound F dir' file
  reading : ∀ file soFar, task.reading? = some (file, soFar) →
    dir' file.path = dir file.path ∧ handle' = handle

def Keeps (s s' : Snapshot) : Prop :=
  ∀ i task, s.tasks i = some task →
    task.Keeps F (s.under i task.place) (s'.under i task.place) (s.handles i) (s'.handles i)

/-- No change comes between the first byte that is read of a file for its hash and
the file's entry in a stamp, and nobody else writes stamps. -/
def Careful (s : Snapshot) : Event → Prop
  | .change dir staging handles =>
    Keeps F s (s.redirect dir staging handles) ∧ Genuine F s.stamps dir
  | .download i path content modified =>
    Keeps F s (s.redirect s.dir (s.downloaded i path content modified) s.handles)
  | .promote i manifest modified =>
    Keeps F s (s.redirect (s.promoted F i manifest modified) (s.cleared i) s.handles) ∧
      Genuine F s.stamps (s.promoted F i manifest modified) ∧
      ∀ file ∈ manifest.files, file.path = snapshotManifestFile →
        Sound F (s.promoted F i manifest modified) file
  | .stamp i mode now modified =>
    ∀ manifest entries again, s.tasks i = some (.stamping manifest entries none [] again) →
      Keeps F s (s.redirect (s.stamped F (stampOf F manifest mode now entries) modified)
        s.staging s.handles)
  | _ => True

end Histories

/-! ### What the stamps can be trusted for -/

section Trust

variable {F : Formats} {root : String} {s s' : Snapshot} {e : Event} {i : ℕ}

/-- The entry is of a version that was looked at and has the digest of the file. -/
structure Vouched (F : Formats) (versions : List Version) (file : ManifestFile)
    (entry : VerificationStampFile) : Prop where
  safe : isSafeArtifactPath file.path = true
  version : ∃ v ∈ versions, v.path = file.path ∧ v.content.length = file.size ∧
    v.modified = entry.modifiedAt ∧
    (Node.file v.content v.modified).Hashed F file.sha256 file.artifactClass

/-- What was seen of the file, before its path is resolved, is a version that was looked at, and
has the digest of the file if it has its size. -/
structure Sighted (F : Formats) (versions : List Version) (file : ManifestFile) (node : Node) :
    Prop where
  safe : isSafeArtifactPath file.path = true
  version : ⟨file.path, node.content, node.modified⟩ ∈ versions
  hashed : node.content.length = file.size → node.Hashed F file.sha256 file.artifactClass

/-- The entries of a task are for the files it is done with. -/
def Task.Collected (F : Formats) (versions : List Version) : Task → Prop
  | verifying _ _ _ _ => True
  | stamping manifest entries seen todo _ =>
    ∃ done, manifest.files = done ++ ((seen.map (·.1)).toList ++ todo) ∧
      List.Forall₂ (Vouched F versions) done entries ∧
      ∀ file node, seen = some (file, node) → Sighted F versions file node

/-- What a process knows: the files that it verified have their digests, and what it has read of a
file is the start of what is there. -/
structure Task.Right (F : Formats) (versions : List Version) (dir : Dir) (handle : Bytes)
    (task : Task) : Prop where
  pending : ∀ file ∈ task.pending, Sound F dir file
  reading : ∀ file soFar, task.reading? = some (file, soFar) →
    soFar <+: handle ∧ ∃ node, dir file.path = some node ∧ handle = node.content
  collected : task.Collected F versions

structure Trusted (F : Formats) (s : Snapshot) : Prop where
  tasks : ∀ i task, s.tasks i = some task →
    task.Right F s.versions (s.under i task.place) (s.handles i)
  stamps : ∀ p ∈ s.stamps, p.2.manifestDigest = F.digest p.1 ∧
    List.Forall₂ (Vouched F s.versions) p.1.files p.2.files
  genuine : Genuine F s.stamps s.dir

theorem Node.Hashed.congr {node node' : Node} {sha256 : Option String} {artifactClass : ArtifactClass}
    (hc : node.content = node'.content) (h : node.Hashed F sha256 artifactClass) :
    node'.Hashed F sha256 artifactClass := by
  unfold Node.Hashed at h ⊢
  rwa [← hc]

theorem Vouched.mono {versions versions' : List Version} {file : ManifestFile}
    {entry : VerificationStampFile} (hsub : versions ⊆ versions') (h : Vouched F versions file entry) :
    Vouched F versions' file entry := by
  obtain ⟨v, hv, hrest⟩ := h.version
  exact ⟨h.safe, v, hsub hv, hrest⟩

theorem Task.Collected.mono {versions versions' : List Version} {task : Task}
    (hsub : versions ⊆ versions') (h : task.Collected F versions) : task.Collected F versions' := by
  cases task with
  | verifying place verified hashing todo => trivial
  | stamping manifest entries seen todo again =>
    obtain ⟨done, hfiles, hdone, hseen⟩ := h
    exact ⟨done, hfiles, hdone.imp fun _ _ => .mono hsub, fun file node heq =>
      ⟨(hseen file node heq).safe, hsub (hseen file node heq).version, (hseen file node heq).hashed⟩⟩

theorem Task.Right.mono {versions versions' : List Version} {task : Task} {dir : Dir} {handle : Bytes}
    (hsub : versions ⊆ versions') (h : task.Right F versions dir handle) :
    task.Right F versions' dir handle :=
  ⟨h.pending, h.reading, h.collected.mono hsub⟩

/-- What does not touch the files of a process leaves it what it knows. -/
theorem Task.Right.keeps {versions : List Version} {task : Task} {dir dir' : Dir}
    {handle handle' : Bytes} (h : task.Right F versions dir handle)
    (hkeeps : task.Keeps F dir dir' handle handle') : task.Right F versions dir' handle' where
  pending := hkeeps.pending
  reading file soFar hreading := by
    obtain ⟨hdir, hhandle⟩ := hkeeps.reading file soFar hreading
    rw [hdir, hhandle]
    exact h.reading file soFar hreading
  collected := h.collected

theorem Task.Right.self {versions : List Version} {task : Task} {dir : Dir} {handle : Bytes}
    (h : task.Right F versions dir handle) : task.Keeps F dir dir handle handle :=
  ⟨h.pending, fun _ _ _ => ⟨rfl, rfl⟩⟩

/-! ### What a step does to the state -/

theorem setTask_self (i : ℕ) (task : Option Task) : (s.setTask i task).tasks i = task :=
  Function.update_self ..

theorem setHandle_self (i : ℕ) : s.setHandle i (s.handles i) = s := by
  rw [Snapshot.setHandle, Function.update_eq_self]

theorem setHandle_handles (i : ℕ) (content : Bytes) : (s.setHandle i content).handles i = content :=
  Function.update_self ..

/-- A task that is replaced, and what it has open. -/
theorem Trusted.opens (h : Trusted F s) (i : ℕ) {task : Option Task} {content : Bytes}
    (hright : ∀ t ∈ task, t.Right F s.versions (s.under i t.place) content) :
    Trusted F ((s.setHandle i content).setTask i task) where
  tasks j t ht := by
    by_cases hji : j = i
    · subst hji
      rw [setTask_self] at ht
      have hhandle : ((s.setHandle j content).setTask j task).handles j = content :=
        setHandle_handles j content
      rw [hhandle]
      exact hright t ht
    · have hold : s.tasks j = some t := by
        rw [← ht]
        exact (Function.update_of_ne hji ..).symm
      have hhandle : ((s.setHandle i content).setTask i task).handles j = s.handles j :=
        Function.update_of_ne hji ..
      rw [hhandle]
      exact h.tasks j t hold
  stamps := h.stamps
  genuine := h.genuine

theorem Trusted.setTask (h : Trusted F s) (i : ℕ) {task : Option Task}
    (hright : ∀ t ∈ task, t.Right F s.versions (s.under i t.place) (s.handles i)) :
    Trusted F (s.setTask i task) := by
  have hopens := h.opens i hright
  rwa [setHandle_self] at hopens

theorem Trusted.clear (h : Trusted F s) (i : ℕ) : Trusted F (s.setTask i none) :=
  h.setTask i (by simp)

theorem look_dir (path : String) : (s.look path).dir = s.dir := by
  unfold Snapshot.look
  split <;> rfl

theorem look_staging (path : String) : (s.look path).staging = s.staging := by
  unfold Snapshot.look
  split <;> rfl

theorem look_handles (path : String) : (s.look path).handles = s.handles := by
  unfold Snapshot.look
  split <;> rfl

theorem look_tasks (path : String) : (s.look path).tasks = s.tasks := by
  unfold Snapshot.look
  split <;> rfl

theorem look_stamps (path : String) : (s.look path).stamps = s.stamps := by
  unfold Snapshot.look
  split <;> rfl

theorem look_under (path : String) : (s.look path).under = s.under := by
  unfold Snapshot.look
  split <;> rfl

theorem look_versions (path : String) : s.versions ⊆ (s.look path).versions := by
  unfold Snapshot.look
  split
  · exact List.subset_cons_self _ _
  · exact List.Subset.refl _

theorem mem_look {path : String} {node : Node} (h : s.dir path = some node) :
    ⟨path, node.content, node.modified⟩ ∈ (s.look path).versions := by
  unfold Snapshot.look
  rw [h]
  exact List.mem_cons_self ..

theorem Trusted.look (h : Trusted F s) (path : String) : Trusted F (s.look path) where
  tasks i task htask := by
    rw [look_under, look_handles]
    exact (h.tasks i task (look_tasks path ▸ htask)).mono (look_versions path)
  stamps p hp := by
    obtain ⟨hdigest, hfiles⟩ := h.stamps p (look_stamps path ▸ hp)
    exact ⟨hdigest, hfiles.imp fun _ _ => .mono (look_versions path)⟩
  genuine := by
    rw [look_stamps, look_dir]
    exact h.genuine

theorem Trusted.redirect {dir : Dir} {staging : ℕ → Dir} {handles : ℕ → Bytes} (h : Trusted F s)
    (hkeeps : Keeps F s (s.redirect dir staging handles)) (hgenuine : Genuine F s.stamps dir) :
    Trusted F (s.redirect dir staging handles) where
  tasks i task htask := (h.tasks i task htask).keeps (hkeeps i task htask)
  stamps := h.stamps
  genuine := hgenuine

/-! ### The steps -/

/-- A pull starts: its directory is emptied, and nobody else is at work there. -/
theorem Trusted.pull (h : Trusted F s) (free : s.tasks i = none) (files : List ManifestFile) :
    Trusted F ((s.redirect s.dir (s.cleared i) s.handles).setTask i
      (some (.verifying .staging [] .idle files))) := by
  have hkeeps : Keeps F s (s.redirect s.dir (s.cleared i) s.handles) := by
    intro j task htask
    have hji : j ≠ i := by
      rintro rfl
      cases free.symm.trans htask
    have hunder : (s.redirect s.dir (s.cleared i) s.handles).under j task.place =
        s.under j task.place := by
      cases task.place with
      | snapshot => rfl
      | staging => exact Function.update_of_ne hji ..
    rw [hunder]
    exact (h.tasks j task htask).self
  refine (h.redirect hkeeps h.genuine).setTask i fun t ht => ?_
  obtain rfl := Option.mem_some_iff.mp ht
  exact ⟨fun _ hfile => (by cases hfile), fun _ _ hreading => (by cases hreading), trivial⟩

/-- A file passes its checks: it is verified if it has no digest. -/
theorem Trusted.afterChecks {place : Place} {verified todo todo' : List ManifestFile}
    {hashing : Hashing} (h : Trusted F s)
    (task : s.tasks i = some (.verifying place verified hashing todo')) (file : ManifestFile) :
    Trusted F (s.setTask i (Task.afterChecks place verified file todo)) := by
  refine h.setTask i fun t ht => ?_
  have hverified := (h.tasks i _ task).pending
  unfold Task.afterChecks at ht
  split at ht
  · obtain rfl := Option.mem_some_iff.mp ht
    exact ⟨hverified, fun _ _ hreading => (by cases hreading), trivial⟩
  · next hdigest =>
    split at ht
    · cases ht
    · next hweights =>
      obtain rfl := Option.mem_some_iff.mp ht
      refine ⟨fun g hg => ?_, fun _ _ hreading => (by cases hreading), trivial⟩
      rcases List.mem_append.mp hg with hg | hg
      · exact hverified g hg
      · obtain rfl := List.mem_singleton.mp hg
        intro node _ _
        rw [hdigest]
        exact hweights

section Hash

variable {place : Place} {verified todo : List ManifestFile} {file : ManifestFile} {soFar : Bytes}

theorem Trusted.opened {node : Node} (h : Trusted F s)
    (task : s.tasks i = some (.verifying place verified (.checked file) todo))
    (found : s.under i place file.path = some node) :
    Trusted F ((s.setHandle i node.content).setTask i
      (some (.verifying place verified (.reading file []) todo))) := by
  refine h.opens i fun t ht => ?_
  obtain rfl := Option.mem_some_iff.mp ht
  refine ⟨(h.tasks i _ task).pending, fun file' soFar hreading => ?_, trivial⟩
  obtain ⟨rfl, rfl⟩ := Prod.mk.inj (Option.some.inj hreading)
  exact ⟨List.nil_prefix, node, found, rfl⟩

/-- What is read next goes on from what was read. -/
theorem Trusted.read {n : ℕ} (h : Trusted F s)
    (task : s.tasks i = some (.verifying place verified (.reading file soFar) todo)) :
    Trusted F (s.setTask i (some (.verifying place verified
      (.reading file (soFar ++ ((s.handles i).drop soFar.length).take n)) todo))) := by
  obtain ⟨hstart, hthere⟩ := (h.tasks i _ task).reading file soFar rfl
  refine h.setTask i fun t ht => ?_
  obtain rfl := Option.mem_some_iff.mp ht
  refine ⟨(h.tasks i _ task).pending, fun file' soFar' hreading => ?_, trivial⟩
  obtain ⟨rfl, rfl⟩ := Prod.mk.inj (Option.some.inj hreading)
  refine ⟨?_, hthere⟩
  obtain ⟨rest, hrest⟩ := hstart
  rw [← hrest, List.drop_left]
  exact (List.prefix_append_right_inj soFar).mpr (List.take_prefix n rest)

theorem Trusted.hashed (h : Trusted F s)
    (task : s.tasks i = some (.verifying place verified (.reading file soFar) todo))
    (all : (s.handles i).length ≤ soFar.length) (digest : file.sha256 = some (F.sha256 soFar)) :
    Trusted F ((s.verified place file.path).setTask i
      (some (.verifying place (verified ++ [file]) .idle todo))) := by
  obtain ⟨hstart, node, hnode, hcontent⟩ := (h.tasks i _ task).reading file soFar rfl
  have hread : soFar = node.content := (hstart.eq_of_length_le all).trans hcontent
  have hsound : Sound F (s.under i place) file := by
    intro node' hnode' _
    obtain rfl := Option.some.inj (hnode.symm.trans hnode')
    rw [digest]
    exact congrArg F.sha256 hread.symm
  have hfiles : ∀ g ∈ verified ++ [file], Sound F (s.under i place) g := by
    intro g hg
    rcases List.mem_append.mp hg with hg | hg
    · exact (h.tasks i _ task).pending g hg
    · rwa [List.mem_singleton.mp hg]
  have hright : ∀ versions content, (Task.verifying place (verified ++ [file]) .idle todo).Right F
      versions (s.under i place) content :=
    fun _ _ => ⟨hfiles, fun _ _ hreading => (by cases hreading), trivial⟩
  cases place with
  | snapshot =>
    refine (h.look file.path).setTask i fun t ht => ?_
    obtain rfl := Option.mem_some_iff.mp ht
    rw [look_under]
    exact hright _ _
  | staging =>
    refine h.setTask i fun t ht => ?_
    obtain rfl := Option.mem_some_iff.mp ht
    exact hright _ _

end Hash

section Stamps

variable {manifest : SnapshotManifest} {entries : List VerificationStampFile}
  {todo : List ManifestFile} {again : Bool} {file : ManifestFile} {node : Node}

/-- A stamp is begun when all its files have their digests. -/
theorem Trusted.begins (h : Trusted F s) (hfiles : ∀ file ∈ manifest.files, Sound F s.dir file)
    (i : ℕ) (again : Bool) :
    Trusted F (s.setTask i (some (.stamping manifest [] none manifest.files again))) := by
  refine h.setTask i fun t ht => ?_
  obtain rfl := Option.mem_some_iff.mp ht
  refine ⟨fun file hfile => hfiles file ?_, fun _ _ hreading => (by cases hreading),
    [], rfl, .nil, fun _ _ hseen => (by cases hseen)⟩
  rwa [Task.pending, ite_self] at hfile

theorem Trusted.promote {modified : ℕ} (h : Trusted F s)
    (task : s.tasks i = some (.verifying .staging manifest.files .idle []))
    (hc : Careful F s (.promote i manifest modified)) :
    Trusted F ((s.redirect (s.promoted F i manifest modified) (s.cleared i) s.handles).setTask i
      (some (.stamping manifest [] none manifest.files false))) := by
  obtain ⟨hkeeps, hgenuine, hover⟩ := hc
  refine (h.redirect hkeeps hgenuine).begins (fun file hfile => ?_) i false
  by_cases hpath : file.path = snapshotManifestFile
  · exact hover file hfile hpath
  · intro node hnode
    have hstaged : s.promoted F i manifest modified file.path = some node := hnode
    rw [Snapshot.promoted, Function.update_of_ne hpath] at hstaged
    exact (h.tasks i _ task).pending file hfile node hstaged

/-- The file is still sound when its size and time are taken. -/
theorem Trusted.seen (h : Trusted F s)
    (task : s.tasks i = some (.stamping manifest entries none (file :: todo) again))
    (safe : isSafeArtifactPath file.path = true) (found : s.dir file.path = some node) :
    Trusted F ((s.look file.path).setTask i
      (some (.stamping manifest entries (some (file, node)) todo again))) := by
  have hright := h.tasks i _ task
  obtain ⟨done, hfiles, hdone, -⟩ := hright.collected
  have hsound : Sound F s.dir file := by
    refine hright.pending file ?_
    rw [Task.pending]
    split
    · rw [hfiles]
      simp
    · exact List.mem_cons_self ..
  refine (h.look file.path).setTask i fun t ht => ?_
  obtain rfl := Option.mem_some_iff.mp ht
  refine ⟨fun g hg => ?_, fun _ _ hreading => (by cases hreading), done, hfiles,
    hdone.imp fun _ _ => .mono (look_versions file.path), fun file' node' hseen => ?_⟩
  · rw [look_under]
    refine hright.pending g ?_
    rw [Task.pending] at hg ⊢
    split
    · rwa [if_pos ‹_›] at hg
    · rw [if_neg ‹_›] at hg
      exact List.mem_cons_of_mem _ hg
  · obtain ⟨rfl, rfl⟩ := Prod.mk.inj (Option.some.inj hseen)
    exact ⟨safe, mem_look found, hsound node found⟩

theorem Trusted.collected (h : Trusted F s)
    (task : s.tasks i = some (.stamping manifest entries (some (file, node)) todo again))
    (size : node.content.length = file.size) :
    Trusted F (s.setTask i (some (.stamping manifest
      (entries ++ [⟨file.path, node.content.length, node.modified⟩]) none todo again))) := by
  have hright := h.tasks i _ task
  obtain ⟨done, hfiles, hdone, hseen⟩ := hright.collected
  have hsighted := hseen file node rfl
  have hvouched : Vouched F s.versions file ⟨file.path, node.content.length, node.modified⟩ :=
    ⟨hsighted.safe, _, hsighted.version, rfl, size, rfl, (hsighted.hashed size).congr rfl⟩
  refine h.setTask i fun t ht => ?_
  obtain rfl := Option.mem_some_iff.mp ht
  refine ⟨hright.pending, fun _ _ hreading => (by cases hreading), done ++ [file], ?_,
    List.rel_append hdone (.cons hvouched .nil), fun _ _ hnone => (by cases hnone)⟩
  rw [hfiles]
  simp

/-- The stamp is written; the files that are stamped again are still what they were. -/
theorem Trusted.stamp {mode : SnapshotVerificationMode} {now modified : ℕ} (h : Trusted F s)
    (task : s.tasks i = some (.stamping manifest entries none [] again))
    (hc : Careful F s (.stamp i mode now modified)) :
    Trusted F (((s.record manifest (stampOf F manifest mode now entries)).redirect
      (s.stamped F (stampOf F manifest mode now entries) modified) s.staging s.handles).setTask i
        (if again then some (.stamping manifest [] none manifest.files false) else none)) := by
  have hkeeps := hc manifest entries again task
  obtain ⟨done, hfiles, hdone, -⟩ := (h.tasks i _ task).collected
  rw [Option.map_none, Option.toList_none, List.nil_append, List.append_nil] at hfiles
  have hput : Trusted F ((s.record manifest (stampOf F manifest mode now entries)).redirect
      (s.stamped F (stampOf F manifest mode now entries) modified) s.staging s.handles) := by
    refine ⟨fun j t ht => (h.tasks j t ht).keeps (hkeeps j t ht), fun p hp => ?_,
      fun node stamp hnode hread => ?_⟩
    · rcases List.mem_cons.mp hp with rfl | hp
      · exact ⟨rfl, hfiles ▸ hdone⟩
      · exact h.stamps p hp
    · have hnode' : s.stamped F (stampOf F manifest mode now entries) modified
          snapshotVerificationFile = some node := hnode
      rw [Snapshot.stamped, Function.update_self, Option.some.injEq] at hnode'
      rw [← hnode', Node.file, F.read_stampPretty, Except.ok.injEq] at hread
      exact ⟨manifest, hread ▸ List.mem_cons_self ..⟩
  cases again with
  | false => exact hput.clear i
  | true => exact hput.begins (fun file hfile => (hkeeps i _ task).pending file hfile) i false

end Stamps

theorem Trusted.step (h : Trusted F s) (hstep : Step F s e s') (hc : Careful F s e) :
    Trusted F s' := by
  cases hstep with
  | change dir staging handles => exact h.redirect hc.1 hc.2
  | start files free =>
    refine h.setTask _ fun t ht => ?_
    obtain rfl := Option.mem_some_iff.mp ht
    exact ⟨fun _ hfile => (by cases hfile), fun _ _ hreading => (by cases hreading), trivial⟩
  | pull files free => exact h.pull free files
  | downloaded content modified task => exact h.redirect hc h.genuine
  | looked task safe found isSymlink =>
    refine h.setTask _ fun t ht => ?_
    obtain rfl := Option.mem_some_iff.mp ht
    exact ⟨(h.tasks _ _ task).pending, fun _ _ hreading => (by cases hreading), trivial⟩
  | resolved task found inside isFile size => exact h.afterChecks task _
  | stored task safe found size => exact h.afterChecks task _
  | opened task found => exact h.opened task found
  | read task pos buffer more => exact h.read task
  | hashed task all digest => exact h.hashed task all digest
  | settle again task => exact h.begins (h.tasks _ _ task).pending _ again
  | promote modified task => exact h.promote task hc
  | seen task safe found isSymlink => exact h.seen task safe found
  | collected task found inside isFile size => exact h.collected task size
  | stamp mode now modified task => exact h.stamp task hc
  | stop i => exact h.clear i

/-! ### A whole history -/

theorem Trusted.fresh {dir : Dir} (h : Unstamped F dir) : Trusted F (.fresh dir) where
  tasks := by simp [Snapshot.fresh]
  stamps := by simp [Snapshot.fresh]
  genuine node stamp hnode hread := absurd hread (h node stamp hnode)

theorem History.trusted (h : History F (Careful F) s) : Trusted F s := by
  induction h with
  | start hdir => exact .fresh hdir
  | step _ hstep _ hc ih => exact ih.step hstep hc

theorem History.honest {Allowed : Snapshot → Event → Prop} (h : History F Allowed s) :
    Honest s := by
  cases h with
  | start hdir => simp [Honest, Snapshot.fresh]
  | step _ _ hs _ => exact hs

/-- A file whose entry is still the one that was vouched for. -/
theorem Vouched.holds {file : ManifestFile} {entry : VerificationStampFile} (hs : Honest s)
    (h : Vouched F s.versions file entry) (hnow : collectStampFile root s.dir file = .ok entry) :
    Holds F s.dir file := by
  obtain ⟨hsafe, node, hnode, hplain, rfl⟩ := collectStampFile_ok.mp hnow
  obtain ⟨v, hv, hpath, hsize, htime, hhashed⟩ := h.version
  have hsame : node.content = v.content :=
    hs v hv node (hpath ▸ hnode) (by rw [hplain.size, hsize]) htime.symm
  exact ⟨node, hsafe, hnode, hplain, hhashed.congr hsame.symm⟩

/-- A stamp that matches, among the stamps of a trusted snapshot. -/
theorem Trusted.holds {manifest : SnapshotManifest} {stamp : SnapshotVerificationStamp}
    (h : Trusted F s) (hs : Honest s)
    (hdigest : ∀ p ∈ s.stamps, F.digest p.1 = F.digest manifest → p.1 = manifest)
    (hmatch : verificationStampMatchesSnapshot F root s.dir manifest = .ok stamp) :
    ∀ file ∈ manifest.files, Holds F s.dir file := by
  obtain ⟨⟨node, hnode, hread⟩, hd, hnow⟩ := stampMatches_ok hmatch
  obtain ⟨m, hm⟩ := h.genuine node stamp hnode hread
  obtain ⟨hmd, hvouched⟩ := h.stamps _ hm
  have hmanifest : m = manifest := hdigest _ hm (hmd.symm.trans hd)
  subst hmanifest
  have hcollected := collectVerificationStampFiles_ok.mp hnow
  intro file hfile
  obtain ⟨k, hk, rfl⟩ := List.mem_iff_getElem.mp hfile
  have hk' : k < stamp.files.length := hvouched.length_eq ▸ hk
  exact (List.Forall₂.get hvouched hk hk').holds hs (List.Forall₂.get hcollected hk hk')

end Trust

end KirAi.Hub
