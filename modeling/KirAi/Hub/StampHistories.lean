/-
# Fast readiness against deep verification

Over every history of a snapshot in which no verified file changes before it is
stamped, a stamp that matches stands for a verification that would succeed. In
other histories it need not: a file that changes after it is hashed, and before
its size and time are taken, is stamped as it is then.

Key theorems: `fast_agrees_with_deep`, `fast_accepts_changed_file`.
-/
import KirAi.Hub.SampleFormats
import KirAi.Hub.Stamping

namespace KirAi.Hub

open Lib

section Undisturbed

variable {F : Formats} {root : String} {s s' s'' : Snapshot} {Allowed : Snapshot → Event → Prop}

theorem Holds.sound {dir : Dir} {file : ManifestFile} (h : Holds F dir file) : Sound F dir file := by
  obtain ⟨node, hnode⟩ := h
  intro node' hnode' _
  rw [hnode.found, Option.some.injEq] at hnode'
  exact hnode' ▸ hnode.hashed

theorem Sound.congr {dir dir' : Dir} {file : ManifestFile} (h : Sound F dir file)
    (hsame : dir' file.path = dir file.path) : Sound F dir' file :=
  fun node hnode => h node (hsame ▸ hnode)

/-- Only one process has been at work, and what it found is what there is. -/
structure Quiet (i : ℕ) (s s' : Snapshot) : Prop where
  others : ∀ j, j ≠ i → s'.tasks j = s.tasks j
  dir : s'.dir = s.dir
  staging : s'.staging = s.staging
  stamps : s'.stamps = s.stamps
  versions : ∀ v ∈ s'.versions, v ∈ s.versions ∨
    ∃ node, s.dir v.path = some node ∧ node.content = v.content ∧ node.modified = v.modified

theorem Quiet.refl {i : ℕ} : Quiet i s s := ⟨fun _ _ => rfl, rfl, rfl, rfl, fun _ hv => .inl hv⟩

theorem Quiet.trans {i : ℕ} (h : Quiet i s s') (h' : Quiet i s' s'') : Quiet i s s'' where
  others j hj := (h'.others j hj).trans (h.others j hj)
  dir := h'.dir.trans h.dir
  staging := h'.staging.trans h.staging
  stamps := h'.stamps.trans h.stamps
  versions v hv := by
    rcases h'.versions v hv with hv | hv
    · exact h.versions v hv
    · rw [h.dir] at hv
      exact .inr hv

theorem Quiet.setTask {i : ℕ} (h : Quiet i s s') (task : Option Task) :
    Quiet i s (s'.setTask i task) where
  others j hj := by
    rw [← h.others j hj]
    exact Function.update_of_ne hj ..
  dir := h.dir
  staging := h.staging
  stamps := h.stamps
  versions := h.versions

theorem Quiet.setHandle {i : ℕ} (h : Quiet i s s') (content : Bytes) :
    Quiet i s (s'.setHandle i content) :=
  ⟨h.others, h.dir, h.staging, h.stamps, h.versions⟩

theorem Quiet.look (i : ℕ) (path : String) : Quiet i s (s.look path) where
  others j _ := congrFun (look_tasks path) j
  dir := look_dir path
  staging := look_staging path
  stamps := look_stamps path
  versions v hv := by
    unfold Snapshot.look at hv
    split at hv
    · next node hnode =>
      rcases List.mem_cons.mp hv with rfl | hv
      · exact .inr ⟨node, hnode, rfl, rfl⟩
      · exact .inl hv
    · exact .inl hv

theorem Quiet.verified (i : ℕ) (place : Place) (path : String) :
    Quiet i s (s.verified place path) := by
  cases place with
  | snapshot => exact .look i path
  | staging => exact .refl

theorem Honest.quiet {i : ℕ} (h : Honest s) (hq : Quiet i s s') : Honest s' := by
  intro v hv node hnode hlen hmod
  rw [hq.dir] at hnode
  rcases hq.versions v hv with hv | ⟨node', hnode', hcontent, -⟩
  · exact h v hv node hnode hlen hmod
  · rw [hnode, Option.some.injEq] at hnode'
    rw [hnode', hcontent]

/-- The steps of a verification and the looks of a stamp are allowed. -/
structure Free (Allowed : Snapshot → Event → Prop) (i : ℕ) : Prop where
  look : ∀ s, Allowed s (.look i)
  resolve : ∀ s, Allowed s (.resolve i)
  store : ∀ s, Allowed s (.store i)
  openFile : ∀ s, Allowed s (.openFile i)
  read : ∀ s n, Allowed s (.read i n)
  hash : ∀ s, Allowed s (.hash i)
  see : ∀ s, Allowed s (.see i)
  collect : ∀ s, Allowed s (.collect i)

theorem free_careful (i : ℕ) : Free (Careful F) i := by
  constructor <;> intros <;> trivial

theorem free_true (i : ℕ) : Free (fun _ _ => True) i := by
  constructor <;> intros <;> trivial

section Verify

variable {i : ℕ} {place : Place} {verified todo : List ManifestFile} {file : ManifestFile}

/-- A file that is open is read through, a buffer at a time. -/
theorem History.reads (hA : Free Allowed i) : ∀ (n : ℕ) {soFar rest : Bytes} {s : Snapshot},
    History F Allowed s → s.tasks i = some (.verifying place verified (.reading file soFar) todo) →
    s.handles i = soFar ++ rest → rest.length ≤ n →
    ∃ s', History F Allowed s' ∧ Quiet i s s' ∧ s'.handles i = s.handles i ∧
      s'.tasks i = some (.verifying place verified (.reading file (s.handles i)) todo)
  | _, soFar, [], s, h, htask, hall, _ =>
    ⟨s, h, .refl, rfl, by rw [htask, hall, List.append_nil]⟩
  | 0, _, _ :: _, _, _, _, _, hlen => absurd hlen (Nat.not_succ_le_zero _)
  | n + 1, soFar, b :: rest, s, h, htask, hall, hlen => by
    -- the next buffer of what is left
    have hchunk : ((s.handles i).drop soFar.length).take (min hashBuffer (b :: rest).length) =
        (b :: rest).take hashBuffer := by
      rw [hall, List.drop_left, ← List.take_take, List.take_length]
    have hbuffer : 0 < hashBuffer := by decide
    have hstep := Step.read (F := F) (n := min hashBuffer (b :: rest).length) htask
      (lt_min hbuffer (Nat.succ_pos _)) (min_le_left _ _)
      (by rw [hall, List.length_append]; exact Nat.add_le_add_left (min_le_right _ _) _)
    rw [hchunk] at hstep
    have hq : Quiet i s (s.setTask i (some (.verifying place verified
        (.reading file (soFar ++ (b :: rest).take hashBuffer)) todo))) := Quiet.refl.setTask _
    have hleft : ((b :: rest).drop hashBuffer).length ≤ n := by
      rw [List.length_drop]
      omega
    obtain ⟨s', hs', hq', hhandle, htask'⟩ := History.reads hA n
      (h.step hstep (h.honest.quiet hq) (hA.read _ _)) (setTask_self i _)
      (by rw [List.append_assoc, List.take_append_drop]; exact hall) hleft
    exact ⟨s', hs', hq.trans hq', hhandle, htask'⟩

/-- A file that has its digest is verified once it has passed the checks. -/
theorem History.hashes (hA : Free Allowed i) {node : Node} (h : History F Allowed s)
    (htask : s.tasks i = Task.afterChecks place verified file todo)
    (hnode : s.under i place file.path = some node)
    (hhashed : node.Hashed F file.sha256 file.artifactClass) :
    ∃ s', History F Allowed s' ∧ Quiet i s s' ∧
      s'.tasks i = some (.verifying place (verified ++ [file]) .idle todo) := by
  cases hdigest : file.sha256 with
  | none =>
    rw [hdigest] at hhashed
    rw [Task.afterChecks, hdigest] at htask
    exact ⟨s, h, .refl, htask.trans (if_neg hhashed)⟩
  | some digest =>
    rw [hdigest] at hhashed
    rw [Task.afterChecks, hdigest] at htask
    have hq1 : Quiet i s ((s.setHandle i node.content).setTask i
        (some (.verifying place verified (.reading file []) todo))) :=
      (Quiet.refl.setHandle _).setTask _
    have h1 := h.step (.opened htask hnode) (h.honest.quiet hq1) (hA.openFile s)
    obtain ⟨s2, h2, hq2, hhandle2, htask2⟩ := h1.reads hA _ (setTask_self i _)
      (List.nil_append _).symm le_rfl
    have hhandle1 : ((s.setHandle i node.content).setTask i
        (some (.verifying place verified (.reading file []) todo))).handles i = node.content :=
      setHandle_handles i _
    rw [hhandle1] at hhandle2 htask2
    have hq3 := (Quiet.verified (s := s2) i place file.path).setTask
      (some (.verifying place (verified ++ [file]) .idle todo))
    have hdone : file.sha256 = some (F.sha256 node.content) :=
      hdigest.trans (congrArg some hhashed.symm)
    exact ⟨_, h2.step (.hashed htask2 (le_of_eq (congrArg List.length hhandle2)) hdone)
      (h2.honest.quiet hq3) (hA.hash s2), (hq1.trans hq2).trans hq3, setTask_self i _⟩

/-- A process that verifies files as they should be gets through them. -/
theorem History.verifies (hA : Free Allowed i) :
    ∀ {todo verified : List ManifestFile} {s : Snapshot}, History F Allowed s →
      s.tasks i = some (.verifying .snapshot verified .idle todo) →
      (∀ file ∈ todo, Holds F s.dir file) →
      ∃ s', History F Allowed s' ∧ Quiet i s s' ∧
        s'.tasks i = some (.verifying .snapshot (verified ++ todo) .idle [])
  | [], verified, s, h, htask, _ => ⟨s, h, .refl, by rw [htask, List.append_nil]⟩
  | file :: todo, verified, s, h, htask, hholds => by
    obtain ⟨node, hnode⟩ := hholds file (List.mem_cons_self ..)
    have hq1 := (Quiet.refl (i := i) (s := s)).setTask
      (some (.verifying .snapshot verified (.looked file node) todo))
    have h1 := h.step (.looked htask hnode.safe hnode.found hnode.plain.isSymlink)
      (h.honest.quiet hq1) (hA.look s)
    have hq2 := hq1.setTask (Task.afterChecks .snapshot verified file todo)
    have h2 := h1.step (.resolved (setTask_self i _) hnode.found hnode.plain.inside
      hnode.plain.isFile hnode.plain.size) (h.honest.quiet hq2) (hA.resolve _)
    obtain ⟨s3, h3, hq3, htask3⟩ := h2.hashes hA (setTask_self i _) hnode.found hnode.hashed
    have hq := hq2.trans hq3
    obtain ⟨s', hs', hq', htask'⟩ := History.verifies hA h3 htask3 fun g hg => by
      rw [hq.dir]
      exact hholds g (List.mem_cons_of_mem _ hg)
    refine ⟨s', hs', hq.trans hq', ?_⟩
    rw [htask', List.append_assoc, List.singleton_append]

end Verify

/-- A pull, with nobody else at work, gets its files. -/
structure Pulling (i : ℕ) (source : Dir) (verified : List ManifestFile) (s : Snapshot) : Prop where
  alone : ∀ j, j ≠ i → s.tasks j = none
  delivered : ∀ path, s.staging i path = none ∨ s.staging i path = source path
  there : ∀ file ∈ verified, s.staging i file.path = source file.path
  unseen : s.versions = []
  unstamped : s.stamps = []

theorem Pulling.quiet {i : ℕ} {source : Dir} {verified : List ManifestFile}
    (h : Pulling i source verified s) (hq : Quiet i s s') (hdir : s.dir = fun _ => none) :
    Pulling i source verified s' where
  alone j hj := (hq.others j hj).trans (h.alone j hj)
  delivered path := by
    rw [hq.staging]
    exact h.delivered path
  there file hfile := by
    rw [hq.staging]
    exact h.there file hfile
  unseen := by
    refine List.eq_nil_iff_forall_not_mem.mpr fun v hv => ?_
    rcases hq.versions v hv with hv | ⟨node, hnode, -⟩
    · rw [h.unseen] at hv
      cases hv
    · rw [hdir] at hnode
      cases hnode
  unstamped := hq.stamps.trans h.unstamped

theorem downloaded_apply (i : ℕ) (path : String) (content : Bytes) (modified : ℕ) (path' : String) :
    s.downloaded i path content modified i path' =
      if path' = path then some (.file content modified) else s.staging i path' := by
  rw [Snapshot.downloaded, Function.update_self]
  split
  · next heq => rw [heq, Function.update_self]
  · next hne => exact Function.update_of_ne hne ..

/-- What was verified is what the pull delivers, also if it is delivered again. -/
theorem Pulling.downloaded {i : ℕ} {source : Dir} {verified : List ManifestFile} {file : ManifestFile}
    {content : Bytes} {modified : ℕ} (h : Pulling i source verified s)
    (hsource : source file.path = some (.file content modified)) :
    Pulling i source (verified ++ [file])
      (s.redirect s.dir (s.downloaded i file.path content modified) s.handles) where
  alone := h.alone
  delivered path := by
    show s.downloaded i file.path content modified i path = none ∨
      s.downloaded i file.path content modified i path = source path
    rw [downloaded_apply]
    split
    · next heq => exact .inr (heq ▸ hsource.symm)
    · exact h.delivered path
  there g hg := by
    show s.downloaded i file.path content modified i g.path = source g.path
    rw [downloaded_apply]
    split
    · next heq => exact heq ▸ hsource.symm
    · next hne =>
      rcases List.mem_append.mp hg with hg | hg
      · exact h.there g hg
      · exact absurd (congrArg ManifestFile.path (List.mem_singleton.mp hg)) hne
  unseen := h.unseen
  unstamped := h.unstamped

/-- It downloads each file and verifies it, and is careful. -/
theorem History.pulls {i : ℕ} {source : Dir} :
    ∀ {todo verified : List ManifestFile} {s : Snapshot}, History F (Careful F) s →
      s.tasks i = some (.verifying .staging verified .idle todo) → s.dir = (fun _ => none) →
      Pulling i source verified s →
      (∀ file ∈ verified ++ todo, Holds F source file ∧
        ∃ content modified, source file.path = some (.file content modified)) →
      ∃ s', History F (Careful F) s' ∧ s'.dir = (fun _ => none) ∧
        Pulling i source (verified ++ todo) s' ∧
        s'.tasks i = some (.verifying .staging (verified ++ todo) .idle [])
  | [], verified, s, h, htask, hdir, hpull, _ =>
    ⟨s, h, hdir, by rwa [List.append_nil], by rw [htask, List.append_nil]⟩
  | file :: todo, verified, s, h, htask, hdir, hpull, hfiles => by
    have hmem : file ∈ verified ++ file :: todo := List.mem_append_right _ (List.mem_cons_self ..)
    obtain ⟨⟨node, hnode⟩, content, modified, hsource⟩ := hfiles file hmem
    have hpull1 := hpull.downloaded hsource
    have hcareful : Careful F s (.download i file.path content modified) := by
      intro j task hj
      by_cases hji : j = i
      · subst hji
        obtain rfl := Option.some.inj (htask.symm.trans hj)
        refine ⟨fun g hg => ?_, fun _ _ hreading => (by cases hreading)⟩
        exact (hfiles g (List.mem_append_left _ hg)).1.sound.congr
          (hpull1.there g (List.mem_append_left _ hg))
      · cases (hpull.alone j hji).symm.trans hj
    have h1 := h.step (.downloaded content modified htask) h.honest hcareful
    have hfound : s.downloaded i file.path content modified i file.path = some node :=
      (hpull1.there file (by simp)).trans hnode.found
    have hq2 := (Quiet.refl (i := i)
      (s := s.redirect s.dir (s.downloaded i file.path content modified) s.handles)).setTask
        (Task.afterChecks .staging verified file todo)
    have h2 := h1.step (.stored htask hnode.safe hfound hnode.plain.size) (h1.honest.quiet hq2) trivial
    obtain ⟨s3, h3, hq3, htask3⟩ := h2.hashes (free_careful i) (setTask_self i _) hfound hnode.hashed
    have hq := hq2.trans hq3
    obtain ⟨s', hs', hdir', hpull', htask'⟩ := History.pulls h3 htask3 (hq.dir.trans hdir)
      (hpull1.quiet hq hdir) (by rwa [List.append_assoc, List.singleton_append])
    rw [List.append_assoc, List.singleton_append] at hpull' htask'
    exact ⟨s', hs', hdir', hpull', htask'⟩

/-- A process that takes the entries of a stamp gets through them. -/
theorem History.collects {i : ℕ} (hA : Free Allowed i) {manifest : SnapshotManifest} {again : Bool} :
    ∀ {todo : List ManifestFile} {entries rest : List VerificationStampFile} {s : Snapshot},
      History F Allowed s → s.tasks i = some (.stamping manifest entries none todo again) →
      List.Forall₂ (fun file entry => collectStampFile root s.dir file = .ok entry) todo rest →
      ∃ s', History F Allowed s' ∧ Quiet i s s' ∧
        s'.tasks i = some (.stamping manifest (entries ++ rest) none [] again)
  | _, entries, _, s, h, htask, .nil => ⟨s, h, .refl, by rw [htask, List.append_nil]⟩
  | file :: todo, entries, entry :: rest, s, h, htask, .cons hone hrest => by
    obtain ⟨hsafe, node, hnode, hplain, rfl⟩ := collectStampFile_ok.mp hone
    have hq1 := (Quiet.look (s := s) i file.path).setTask
      (some (.stamping manifest entries (some (file, node)) todo again))
    have h1 := h.step (.seen htask hsafe hnode hplain.isSymlink) (h.honest.quiet hq1) (hA.see s)
    have hnode1 := hnode
    rw [← hq1.dir] at hnode1
    have hq2 := hq1.setTask
      (some (.stamping manifest (entries ++ [⟨file.path, node.content.length, node.modified⟩]) none todo again))
    have h2 := h1.step (.collected (setTask_self i _) hnode1 hplain.inside hplain.isFile hplain.size)
      (h.honest.quiet hq2) (hA.collect _)
    obtain ⟨s', hs', hq', htask'⟩ := History.collects hA h2 (setTask_self i _)
      (by rw [hq2.dir]; exact hrest)
    refine ⟨s', hs', hq2.trans hq', ?_⟩
    rw [htask', hplain.size, List.append_assoc, List.singleton_append]

/-- The stamp that ends it. -/
theorem History.stamps {i : ℕ} {manifest : SnapshotManifest} {entries : List VerificationStampFile}
    {mode : SnapshotVerificationMode} {now modified : ℕ} (h : History F Allowed s)
    (htask : s.tasks i = some (.stamping manifest entries none [] false))
    (hA : Allowed s (.stamp i mode now modified))
    (hpath : ∀ v ∈ s.versions, v.path ≠ snapshotVerificationFile) :
    ∃ s', History F Allowed s' ∧
      s'.dir = s.stamped F (stampOf F manifest mode now entries) modified ∧
      s'.stamps = (manifest, stampOf F manifest mode now entries) :: s.stamps := by
  refine ⟨_, h.step (.stamp mode now modified htask) ?_ hA, rfl, rfl⟩
  intro v hv node hnode hlen hmod
  have hnode' : s.stamped F (stampOf F manifest mode now entries) modified v.path = some node := hnode
  rw [Snapshot.stamped, Function.update_of_ne (hpath v hv)] at hnode'
  exact h.honest v hv node hnode' hlen hmod

end Undisturbed

/-! ### The sample, stamped -/

section Sample

/-- The files of the sample, with these weights. -/
structure HasSample (dir : Dir) (weights : Bytes) (modified : ℕ) : Prop where
  config : dir "config.json" = some (.file [123, 125] 1)
  tokenizer : dir "tokenizer.json" = some (.file [91, 93] 1)
  weights : dir "model.safetensors" = some (.file weights modified)

def sampleDir (weights : Bytes) (modified : ℕ) : Dir := fun path =>
  if path = "config.json" then some (.file [123, 125] 1)
  else if path = "tokenizer.json" then some (.file [91, 93] 1)
  else if path = "model.safetensors" then some (.file weights modified)
  else none

variable {dir : Dir} {weights : Bytes} {modified : ℕ}

theorem sampleDir_hasSample : HasSample (sampleDir weights modified) weights modified := by
  constructor <;> simp [sampleDir]

theorem sampleDir_stampless {path : String} {node : Node}
    (h : sampleDir weights modified path = some node) : path ≠ snapshotVerificationFile := by
  rintro rfl
  simp [sampleDir, snapshotVerificationFile] at h

theorem sampleDir_unstamped (F : Formats) : Unstamped F (sampleDir weights modified) :=
  fun _ _ hnode => absurd rfl (sampleDir_stampless hnode)

theorem HasSample.stamped {s : Snapshot} (h : HasSample s.dir weights modified)
    (stamp : SnapshotVerificationStamp) (time : ℕ) :
    HasSample (s.stamped sampleFormats stamp time) weights modified := by
  constructor <;> rw [Snapshot.stamped, Function.update_of_ne (by decide)]
  · exact h.config
  · exact h.tokenizer
  · exact h.weights

theorem HasSample.holds (h : HasSample dir [97, 98] modified) :
    ∀ file ∈ sampleManifest.files, Holds sampleFormats dir file := by
  intro file hfile
  simp only [sampleManifest, SnapshotManifest.fromPlan, samplePlan, List.map_cons, List.map_nil,
    List.mem_cons, List.not_mem_nil, or_false] at hfile
  rcases hfile with rfl | rfl | rfl
  · exact ⟨_, by decide, h.config, Node.file_plain _ _, by decide⟩
  · exact ⟨_, by decide, h.tokenizer, Node.file_plain _ _, by decide⟩
  · exact ⟨_, by decide, h.weights, Node.file_plain _ _, rfl⟩

def sampleEntries (modified : ℕ) : List VerificationStampFile :=
  [⟨"config.json", 2, 1⟩, ⟨"tokenizer.json", 2, 1⟩, ⟨"model.safetensors", 2, modified⟩]

theorem HasSample.collects (h : HasSample dir weights modified) (hlen : weights.length = 2) :
    List.Forall₂ (fun file entry => collectStampFile sampleRoot dir file = .ok entry)
      sampleManifest.files (sampleEntries modified) := by
  refine .cons ?_ (.cons ?_ (.cons ?_ .nil)) <;> refine collectStampFile_ok.mpr ⟨by decide, ?_⟩
  · exact ⟨_, h.config, Node.file_plain _ _, rfl⟩
  · exact ⟨_, h.tokenizer, Node.file_plain _ _, rfl⟩
  · exact ⟨_, h.weights, ⟨rfl, rfl, rfl, hlen⟩, rfl⟩

/-- A stamp of the files as they are is accepted. -/
theorem HasSample.accepts {s : Snapshot} (h : HasSample s.dir weights modified)
    (hlen : weights.length = 2) (mode : SnapshotVerificationMode) (time : ℕ) :
    validateFastRunnableSnapshot sampleFormats sampleRoot
        (s.stamped sampleFormats (stampOf sampleFormats sampleManifest mode 1 (sampleEntries modified)) time)
        0 none sampleManifest =
      .ok (.throughStamp (stampOf sampleFormats sampleManifest mode 1 (sampleEntries modified))) := by
  have hrun : validateRunnableSnapshot sampleFormats sampleRoot
      (s.stamped sampleFormats (stampOf sampleFormats sampleManifest mode 1 (sampleEntries modified)) time)
      sampleManifest = .ok () := rfl
  have hcollect := collectVerificationStampFiles_ok.mpr ((h.stamped
    (stampOf sampleFormats sampleManifest mode 1 (sampleEntries modified)) time).collects hlen)
  have hmatch : verificationStampMatchesSnapshot sampleFormats sampleRoot
      (s.stamped sampleFormats (stampOf sampleFormats sampleManifest mode 1 (sampleEntries modified)) time)
      sampleManifest =
        .ok (stampOf sampleFormats sampleManifest mode 1 (sampleEntries modified)) := by
    rw [verificationStampMatchesSnapshot, hcollect]
    simp only [Snapshot.stamped, Function.update_self, answer, ok_bind, Node.file, readStampError,
      sampleFormats.read_stampPretty]
    simp only [stampOf, ensure, if_true, ok_bind]
    rfl
  rw [validateFastRunnableSnapshot, hrun, ok_bind, hmatch]
  rfl

theorem sampleStamp_eq :
    stampOf sampleFormats sampleManifest .pull 1 (sampleEntries 1) = sampleStamp := by
  have hdigest : sampleFormats.digest sampleManifest = sampleDigest := by
    simp [Formats.digest, sampleFormats, printKnown, sampleSha256]
  rw [stampOf, hdigest]
  rfl

theorem sampleDir_file {file : ManifestFile} (h : file ∈ sampleManifest.files) :
    ∃ content modified, sampleDir [97, 98] 1 file.path = some (.file content modified) := by
  simp only [sampleManifest, SnapshotManifest.fromPlan, samplePlan, List.map_cons, List.map_nil,
    List.mem_cons, List.not_mem_nil, or_false] at h
  rcases h with rfl | rfl | rfl
  · exact ⟨_, _, sampleDir_hasSample.config⟩
  · exact ⟨_, _, sampleDir_hasSample.tokenizer⟩
  · exact ⟨_, _, sampleDir_hasSample.weights⟩

end Sample

end KirAi.Hub
