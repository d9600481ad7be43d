/-
# The files of the disk cache are whole

A block is written under a temporary name and renamed. So in every run, over any number of restarts,
a file under the name of a block holds all of what some store encoded for exactly this name
(`block_files_whole`): a write that broke off, a rename that failed, a block that is stored again
meanwhile or a file that was deleted leaves no torn block. What the files of a run hold is what the
next one starts from, so the theorem carries over a restart.

The invariant follows a block from the store to its name: a job of the writer is a block that was
stored, and its temporary file holds all of it or is gone. A temporary name is never that of a block
(`extension_tmp`).

Key definitions: `StoredBlock.At`, `FilesStored`, `DiskState.Whole`.
Key theorems: `extension_tmp`, `writerStep_whole`, `diskStep_whole`, `block_files_whole`.
-/
import KirAi.NativeRuntime.DiskCache

namespace KirAi.NativeRuntime

open Lib KvCache

/-! ### Names of files -/

theorem splitFileName_append {a b : String} (ha : a ≠ "") (hb : '.' ∉ b.toList) :
    splitFileName (a ++ "." ++ b) = (a, some b) := by
  have hchars : (a ++ "." ++ b).toList = a.toList ++ '.' :: b.toList := by
    simp [String.toList_append]
  have hafter : ((a.toList ++ '.' :: b.toList).reverse.takeWhile (· ≠ '.')).reverse = b.toList := by
    have hall : ∀ c ∈ b.toList.reverse, decide (c ≠ '.') = true := fun c hc =>
      decide_eq_true fun h => hb (h ▸ List.mem_reverse.mp hc)
    rw [List.reverse_append, List.reverse_cons, List.append_assoc, List.singleton_append,
      List.takeWhile_append_of_pos hall, List.takeWhile_cons_of_neg (by simp), List.append_nil,
      List.reverse_reverse]
  have hlength : (a.toList ++ '.' :: b.toList).length - b.toList.length - 1 = a.toList.length := by
    rw [List.length_append, List.length_cons]
    omega
  have hne : ¬ (b.toList.length = (a.toList ++ '.' :: b.toList).length ∨ a.toList = []) := by
    rw [List.length_append, List.length_cons, String.toList_eq_nil_iff]
    intro h
    rcases h with h | h
    · omega
    · exact ha h
  rw [splitFileName, hchars]
  simp only [hafter, hlength, List.take_left', if_neg hne, String.ofList_toList]

theorem dot_notMem_toString (n : ℕ) : '.' ∉ (toString n).toList := by
  intro h
  rw [show (toString n).toList = Nat.toDigits 10 n from Nat.toList_repr] at h
  have hdigit := Nat.isDigit_of_mem_toDigits (by decide) (by decide) h
  exact absurd hdigit (by decide)

theorem tmpName_eq (stem : String) (pid tmpId : ℕ) :
    stem ++ "." ++ tmpExtension pid tmpId =
      (stem ++ ".safetensors") ++ "." ++ ("tmp-" ++ toString pid ++ "-" ++ toString tmpId) := by
  have htmp : "safetensors.tmp-" = "safetensors" ++ ("." ++ "tmp-") := by decide +kernel
  have hext : ".safetensors" = "." ++ "safetensors" := by decide +kernel
  unfold tmpExtension
  generalize toString pid = p
  generalize toString tmpId = t
  rw [htmp, hext]
  simp only [String.append_assoc]

/-- The name of a temporary file is not the name of a block. -/
theorem extension_tmp (path : DiskPath) (pid tmpId : ℕ) :
    DiskPath.extension (DiskPath.withExtension path (tmpExtension pid tmpId)) ≠
      some "safetensors" := by
  rw [DiskPath.extension, DiskPath.withExtension]
  cases hlast : path.getLast? with
  | none =>
    dsimp only
    rw [hlast]
    exact Option.some_ne_none _ |>.symm
  | some name =>
    dsimp only
    have hdot : '.' ∉ ("tmp-" ++ toString pid ++ "-" ++ toString tmpId).toList := by
      simp only [String.toList_append, List.mem_append, not_or]
      exact ⟨⟨⟨by decide, dot_notMem_toString pid⟩, by decide⟩, dot_notMem_toString tmpId⟩
    have hne : (splitFileName name).1 ++ ".safetensors" ≠ "" := by
      intro h
      have hlen := congrArg (fun s : String => s.toList.length) h
      simp [String.toList_append] at hlen
    rw [List.getLast?_concat, Option.bind_some, tmpName_eq, splitFileName_append hne hdot]
    intro h
    have hhead := congrArg (fun s : String => s.toList.head?) (Option.some.inj h)
    simp [String.toList_append] at hhead

/-! ### What was stored -/

section Invariant

variable {S L : Type} (C : NativeTextDiskCacheValue S) (J : SerdeJson)
  (sha256 : List Byte → CacheBlockHash) (cache : NativeTextDiskCache)

/-- The block was encoded whole, for this name. -/
def StoredBlock.At (r : StoredBlock S) (path : DiskPath) : Prop :=
  ∃ descriptor ids ids',
    NativeTextDiskCacheBlockDescriptor.new sha256 r.cache.identity r.call.ns
      (r.call.tokens.length - r.cache.config.blockTokenCount) r.call.tokens = .ok descriptor ∧
    path = pathForDescriptor r.cache.config descriptor ∧
    NativeTextDiskCacheBlock.encode C J descriptor r.call.hidden r.call.states ids =
      .ok (r.bytes, ids')

/-- The bytes are those of a block that was stored for this name. -/
def Stored (stores : List (StoredBlock S)) (path : DiskPath) (bytes : List Byte) : Prop :=
  ∃ r ∈ stores, r.bytes = bytes ∧ r.At C J sha256 path

/-- Under the names of blocks there is only what was stored for them. -/
def FilesStored (stores : List (StoredBlock S)) (files : Files) : Prop :=
  ∀ path bytes, files path = some bytes → DiskPath.extension path = some "safetensors" →
    Stored C J sha256 stores path bytes

def WriterProgress.Whole (files : Files) (stores : List (StoredBlock S)) : WriterProgress → Prop
  | .receiving => True
  | .received job | .parentCreated job | .promoted job => Stored C J sha256 stores job.path job.bytes
  | .wrote job tmpPath => Stored C J sha256 stores job.path job.bytes ∧
      ∀ bytes ∈ files tmpPath, bytes = job.bytes

/-- What holds of the files and of what is on its way to them. -/
structure DiskState.Whole (s : DiskState S) : Prop where
  files : FilesStored C J sha256 s.stores s.files
  queue : ∀ job ∈ s.queue, Stored C J sha256 s.stores job.path job.bytes
  writer : s.writer.Whole C J sha256 s.files s.stores

/-- A place in the queue is held for a block of the prompt. -/
def DiskTask.Whole : DiskTask S L → Prop
  | .store call (.reserved descriptor) =>
    NativeTextDiskCacheBlockDescriptor.new sha256 cache.identity call.ns
      (call.tokens.length - cache.config.blockTokenCount) call.tokens = .ok descriptor
  | _ => True

variable {C J sha256 cache} {value : PrefixCacheValue L S} {pid : ℕ}
  {stores stores' : List (StoredBlock S)} {files : Files} {s s' : DiskState S} {act : DiskAct}

/-! ### More stores, other files -/

theorem Stored.mono {path : DiskPath} {bytes : List Byte} (h : Stored C J sha256 stores path bytes)
    (hsub : stores ⊆ stores') : Stored C J sha256 stores' path bytes :=
  h.imp fun _ hr => ⟨hsub hr.1, hr.2⟩

theorem FilesStored.mono (h : FilesStored C J sha256 stores files) (hsub : stores ⊆ stores') :
    FilesStored C J sha256 stores' files :=
  fun path bytes hfile hext => (h path bytes hfile hext).mono hsub

theorem WriterProgress.Whole.mono {w : WriterProgress} (h : w.Whole C J sha256 files stores)
    (hsub : stores ⊆ stores') : w.Whole C J sha256 files stores' := by
  cases w with
  | receiving => trivial
  | received job => exact Stored.mono h hsub
  | parentCreated job => exact Stored.mono h hsub
  | wrote job tmpPath => exact ⟨Stored.mono h.1 hsub, h.2⟩
  | promoted job => exact Stored.mono h hsub

theorem FilesStored.update (h : FilesStored C J sha256 stores files) (path : DiskPath)
    {content : Option (List Byte)}
    (hcontent : DiskPath.extension path = some "safetensors" →
      ∀ bytes ∈ content, Stored C J sha256 stores path bytes) :
    FilesStored C J sha256 stores (Function.update files path content) := by
  intro p bytes hfile hext
  by_cases hp : p = path
  · rw [hp] at hfile hext ⊢
    rw [Function.update_self] at hfile
    exact hcontent hext bytes hfile
  · rw [Function.update_of_ne hp] at hfile
    exact h p bytes hfile hext

/-- A temporary file is under no block's name. -/
theorem FilesStored.updateTmp (h : FilesStored C J sha256 stores files) (path : DiskPath)
    (tmpId : ℕ) (content : Option (List Byte)) :
    FilesStored C J sha256 stores
      (Function.update files (DiskPath.withExtension path (tmpExtension pid tmpId)) content) :=
  h.update _ fun hext => absurd hext (extension_tmp path pid tmpId)

theorem FilesStored.remove (h : FilesStored C J sha256 stores files) (path : DiskPath) :
    FilesStored C J sha256 stores (Function.update files path none) := by
  refine h.update path fun _ bytes hbytes => ?_
  cases hbytes

/-! ### One step -/

theorem writerStep_whole (h : writerStep pid act s = some s') (hs : s.Whole C J sha256) :
    s'.Whole C J sha256 := by
  have hw := hs.writer
  unfold writerStep at h
  split at h
  · rename_i hwriter
    split at h
    · cases h
    · rename_i job queue hqueue
      cases h
      have hall := hs.queue
      rw [hqueue] at hall
      exact ⟨hs.files, fun j hj => hall j (List.mem_cons_of_mem _ hj), hall job (List.mem_cons_self ..)⟩
  · rename_i works job hwriter
    rw [hwriter] at hw
    cases h
    refine ⟨hs.files, hs.queue, ?_⟩
    cases works with
    | true => exact hw
    | false => trivial
  · rename_i ending job hwriter
    rw [hwriter] at hw
    dsimp only at h
    cases ending with
    | complete =>
      cases h
      refine ⟨hs.files.updateTmp job.path s.nextTmpId _, hs.queue, hw, fun bytes hbytes => ?_⟩
      dsimp only at hbytes
      rw [Function.update_self] at hbytes
      exact (Option.some.inj hbytes).symm
    | broken written =>
      cases h
      exact ⟨hs.files.updateTmp job.path s.nextTmpId _, hs.queue, trivial⟩
    | failed =>
      cases h
      exact ⟨hs.files, hs.queue, trivial⟩
  · rename_i works job tmpPath hwriter
    rw [hwriter] at hw
    split at h
    · cases h
      exact ⟨hs.files, hs.queue, trivial⟩
    · rename_i bytes hbytes
      -- what is renamed is all of the block
      have hwhole : bytes = job.bytes := hw.2 bytes hbytes
      split at h
      · cases h
        refine ⟨(hs.files.remove tmpPath).update job.path fun _ b hb => ?_, hs.queue, hw.1⟩
        rw [← Option.some.inj hb, hwhole]
        exact hw.1
      · cases h
        exact ⟨hs.files, hs.queue, trivial⟩
  · cases h
    exact ⟨hs.files, hs.queue, trivial⟩
  · cases h

theorem delete_whole (path : DiskPath) (hs : s.Whole C J sha256) :
    ({ s with files := Function.update s.files path none } : DiskState S).Whole C J sha256 := by
  refine ⟨hs.files.remove path, hs.queue, ?_⟩
  have hw := hs.writer
  cases hwriter : s.writer with
  | receiving => trivial
  | received job => rw [hwriter] at hw; exact hw
  | parentCreated job => rw [hwriter] at hw; exact hw
  | promoted job => rw [hwriter] at hw; exact hw
  | wrote job tmpPath =>
    rw [hwriter] at hw
    refine ⟨hw.1, fun bytes hbytes => ?_⟩
    dsimp only at hbytes
    by_cases hp : tmpPath = path
    · rw [hp, Function.update_self] at hbytes
      cases hbytes
    · rw [Function.update_of_ne hp] at hbytes
      exact hw.2 bytes hbytes

theorem diskStep_whole {t t' : DiskTask S L}
    (h : diskStep C J sha256 cache pid value act s t = some (s', t')) (hs : s.Whole C J sha256)
    (ht : t.Whole sha256 cache) : s'.Whole C J sha256 ∧ t'.Whole sha256 cache := by
  cases t with
  | store call p =>
    obtain ⟨⟨s₁, p₁⟩, hstep, heq⟩ := Option.map_eq_some_iff.mp h
    cases heq
    unfold storeStep at hstep
    split at hstep
    · rcases queueStoreReserve_cases sha256 cache s call with hreturned | hreserved
      · obtain ⟨status, hr⟩ := hreturned
        obtain ⟨rfl, rfl⟩ := Prod.mk.inj (hr.symm.trans (Option.some.inj hstep))
        exact ⟨hs, trivial⟩
      · obtain ⟨descriptor, hnew, -, hr⟩ := hreserved
        obtain ⟨rfl, rfl⟩ := Prod.mk.inj (hr.symm.trans (Option.some.inj hstep))
        exact ⟨⟨hs.files, hs.queue, hs.writer⟩, hnew⟩
    · rename_i ids descriptor
      rcases queueStoreSend_cases C J cache s call descriptor ids with hr | hqueued
      · obtain ⟨rfl, rfl⟩ := Prod.mk.inj (hr.symm.trans (Option.some.inj hstep))
        exact ⟨⟨hs.files, hs.queue, hs.writer⟩, trivial⟩
      · obtain ⟨bytes, ids', hencode, hr⟩ := hqueued
        obtain ⟨rfl, rfl⟩ := Prod.mk.inj (hr.symm.trans (Option.some.inj hstep))
        have hsub : s.stores ⊆ s.stores ++ [⟨cache, call, bytes⟩] := List.subset_append_left _ _
        refine ⟨⟨hs.files.mono hsub, fun job hjob => ?_, hs.writer.mono hsub⟩, trivial⟩
        rcases List.mem_append.mp hjob with hold | hlast
        · exact (hs.queue job hold).mono hsub
        · rw [List.mem_singleton.mp hlast]
          exact ⟨⟨cache, call, bytes⟩, by simp, rfl, descriptor, ids, ids', ht, rfl, hencode⟩
    · cases hstep
  | lookup request p =>
    obtain ⟨⟨s₁, p₁⟩, hstep, heq⟩ := Option.map_eq_some_iff.mp h
    obtain ⟨index, rfl⟩ := lookupStep_index hstep
    cases heq
    exact ⟨⟨hs.files, hs.queue, hs.writer⟩, trivial⟩
  | writer =>
    obtain ⟨s₁, hstep, heq⟩ := Option.map_eq_some_iff.mp h
    cases heq
    exact ⟨writerStep_whole hstep hs, trivial⟩
  | outside =>
    cases act with
    | delete path =>
      cases h
      exact ⟨delete_whole path hs, trivial⟩
    | _ => cases h

/-! ### Every run -/

variable (C J sha256 cache) in
def WholeInv (c : Interleaving.Config (DiskState S) (DiskTask S L)) : Prop :=
  c.shared.Whole C J sha256 ∧ ∀ t ∈ c.tasks, t.Whole sha256 cache

theorem WholeInv.move {c c' : Interleaving.Config (DiskState S) (DiskTask S L)}
    {m : Interleaving.Move DiskAct (DiskStart S)} (hc : WholeInv C J sha256 cache c)
    (h : (diskProgram C J sha256 cache pid value).move c m = some c') :
    WholeInv C J sha256 cache c' := by
  rcases Interleaving.Program.move_cases h with hspawn | hact
  · obtain ⟨b, -, rfl⟩ := hspawn
    refine ⟨hc.1, fun t ht => ?_⟩
    rcases List.mem_append.mp ht with hold | hnew
    · exact hc.2 t hold
    · rw [List.mem_singleton.mp hnew]
      cases b <;> trivial
  · obtain ⟨l, a, t, r, s, t', -, htasks, hs, rfl⟩ := hact
    have hmem : t ∈ c.tasks := by simp [htasks]
    obtain ⟨hshared, htask⟩ := diskStep_whole hs hc.1 (hc.2 t hmem)
    refine ⟨hshared, fun u hu => ?_⟩
    rcases List.mem_append.mp hu with hleft | hright
    · exact hc.2 u (by simp [htasks, hleft])
    · rcases List.mem_cons.mp hright with hself | hafter
      · rw [hself]
        exact htask
      · exact hc.2 u (by simp [htasks, hafter])

/-- **A file under the name of a block is all of a block that was stored for this name.** It holds in
every state that a run of an opened cache reaches, in any order of the steps of stores, lookups, the
writer and deletions, provided that it holds of the files the cache was opened over. -/
theorem block_files_whole (walk : List WalkedFile) (nextTmpId : ℕ)
    (ms : List (Interleaving.Move DiskAct (DiskStart S)))
    {c : Interleaving.Config (DiskState S) (DiskTask S L)} (h0 : FilesStored C J sha256 stores files)
    (h : (diskProgram C J sha256 cache pid value).run (openedCache J cache files stores walk nextTmpId)
      ms = some c) :
    FilesStored C J sha256 c.shared.stores c.shared.files := by
  have hstart : WholeInv C J sha256 cache
      (openedCache J cache files stores walk nextTmpId : Interleaving.Config _ (DiskTask S L)) := by
    refine ⟨⟨h0, fun job hjob => ?_, trivial⟩, fun t ht => ?_⟩
    · cases hjob
    · rw [List.mem_singleton.mp ht]
      trivial
  exact (Interleaving.Program.run_inv (fun _ _ _ hc hm => WholeInv.move hc hm) hstart h).1.files

end Invariant

/-! ### A block that is renamed, and one that is not -/

def oneTokenDescriptor : NativeTextDiskCacheBlockDescriptor :=
  blockDescriptor sha256OfBlocks 1 [7] oneTokenCache.identity oneTokenStore.ns 0

def oneTokenPath : DiskPath :=
  ["cache", "model", "d1cd6cfa5acec1d24f5af35ea1431fdd0ca6b328b47a87e9da3842ce60ff27ce", "32",
    "3227798dbd27825a63a6cf4dfd7973f04e287674c884fca6eb0fe399ca13552b.safetensors"]

theorem pathForDescriptor_oneToken :
    pathForDescriptor oneTokenCache.config oneTokenDescriptor = oneTokenPath := by
  decide +kernel

theorem queueStoreReserve_oneToken (s : DiskState GemmaLayerCachePrefixState)
    (hfree : s.queue.length + s.permits < 1) :
    queueStoreReserve sha256OfBlocks oneTokenCache oneTokenStore s =
      ({ s with permits := s.permits + 1 }, .reserved oneTokenDescriptor) := by
  have hnew : NativeTextDiskCacheBlockDescriptor.new sha256OfBlocks oneTokenCache.identity
      oneTokenStore.ns (oneTokenStore.tokens.length - oneTokenCache.config.blockTokenCount)
      oneTokenStore.tokens = .ok oneTokenDescriptor := rfl
  simp only [queueStoreReserve, hnew]
  rw [if_neg (by decide), if_neg (by decide)]
  exact if_pos hfree

/-- A store up to where the file has its name and is indexed, and the same store again, whose write
breaks off after three bytes. -/
def writtenAndBroken : List (Interleaving.Move DiskAct (DiskStart GemmaLayerCachePrefixState)) :=
  [.spawn (.store oneTokenStore), .act 1 .reserve, .act 1 (.send .initial), .act 0 .receive,
    .act 0 (.createParent true), .act 0 (.write .complete), .act 0 (.rename true), .act 0 .enter,
    .spawn (.store oneTokenStore), .act 2 .reserve, .act 2 (.send .initial), .act 0 .receive,
    .act 0 (.createParent true), .act 0 (.write (.broken 3))]

/-- Over an empty directory: in the end the file has the bytes of the block. -/
theorem block_files_whole_renamed :
    ∃ c bytes ids, NativeTextDiskCacheBlock.encode (gemmaDiskCacheValue .onZeroRows) serdeJson
        oneTokenDescriptor oneTokenStore.hidden oneTokenStore.states .initial = .ok (bytes, ids) ∧
      (diskProgram (gemmaDiskCacheValue .onZeroRows) serdeJson sha256OfBlocks oneTokenCache 1
        keptLayers).run (openedCache serdeJson oneTokenCache (fun _ => none) [] [] 1)
        writtenAndBroken = some c ∧
      c.shared.files oneTokenPath = some bytes ∧
      FilesStored (gemmaDiskCacheValue .onZeroRows) serdeJson sha256OfBlocks c.shared.stores
        c.shared.files := by
  have hempty : FilesStored (gemmaDiskCacheValue .onZeroRows) serdeJson sha256OfBlocks []
      (fun _ => none) := by
    intro path bytes hfile
    cases hfile
  obtain ⟨bytes, ids, hencode⟩ : ∃ bytes ids,
      NativeTextDiskCacheBlock.encode (gemmaDiskCacheValue .onZeroRows) serdeJson oneTokenDescriptor
        oneTokenStore.hidden oneTokenStore.states .initial = .ok (bytes, ids) := ⟨_, _, rfl⟩
  have hrun : ∃ c, (diskProgram (gemmaDiskCacheValue .onZeroRows) serdeJson sha256OfBlocks
        oneTokenCache 1 keptLayers).run
        (openedCache serdeJson oneTokenCache (fun _ => none) [] [] 1) writtenAndBroken = some c ∧
      c.shared.files oneTokenPath = some bytes := by
    simp only [writtenAndBroken, Interleaving.Program.run, Interleaving.Program.move, openedCache,
      diskProgram, diskStep, storeStep, writerStep, List.nil_append, List.cons_append,
      List.getElem?_cons_zero, List.getElem?_cons_succ, List.set_cons_zero, List.set_cons_succ,
      Option.map_some, Option.bind_some, List.length_nil, zero_add, Nat.lt_one_iff,
      queueStoreReserve_oneToken, queueStoreSend, hencode, pathForDescriptor_oneToken, tsub_self,
      Function.update_self, if_true]
    refine ⟨_, rfl, ?_⟩
    dsimp only
    rw [Function.update_of_ne (by decide +kernel), Function.update_self]
  obtain ⟨c, hc, hfile⟩ := hrun
  exact ⟨c, bytes, ids, hencode, hc, hfile, block_files_whole [] 1 writtenAndBroken hempty hc⟩

end KirAi.NativeRuntime
