/-
# The disk cache of prefix states

`native_text/disk_cache.rs` with its index and its writer: a store encodes the last block of a prefix
and hands it to the writer, which writes a temporary file, renames it and enters it in the index. A
lookup tries the prefixes of a prompt, longest first, and reads the blocks of each in order. Opening
the cache enters the files that are there.

Stores, lookups and the writer are tasks over one set of files and one index, and a step is what a
task does before another may run. An action says what the step is told from outside: whether a call
of the file system works and how much of a file was written when it does not, and the process
counters that the codec takes its block ids from. Files may be deleted from outside at any time. A
path is the list of its components, a missing directory is one of the ways a write fails, and a file
that no `Vec` can hold cannot be read. What opening walks over is given in the order the file system
lists it.

`stores` is a history that no step reads: every block that was handed to the writer.

A store encodes its block only when it has a place in the writer's queue, and it gives the place back
when the block cannot be encoded.

Key definitions: `pathForDescriptor`, `queueStoreReserve`, `queueStoreSend`, `writerStep`,
`lookupStep`, `diskProgram`, `reindexDiskCacheRoot`.
Key theorems: `queueStoreReserve_cases`, `queueStoreSend_cases`, `lookupStep_index`.
-/
import KirAi.Lib.Interleaving
import KirAi.NativeRuntime.DiskHashing
import KirAi.NativeRuntime.DiskRoundTrip
import KirAi.NativeRuntime.PrefixCache
import Mathlib.Logic.Function.Basic

namespace KirAi.NativeRuntime

open Lib KvCache

/-! ### Paths and files -/

abbrev DiskPath := List String

abbrev Files := DiskPath → Option (List Byte)

/-- `file_stem` and `extension` of a file name: what is before its last dot and after it. -/
def splitFileName (name : String) : String × Option String :=
  let chars := name.toList
  let after := (chars.reverse.takeWhile (· ≠ '.')).reverse
  let before := chars.take (chars.length - after.length - 1)
  if after.length = chars.length ∨ before = [] then (name, none)
  else (String.ofList before, some (String.ofList after))

namespace DiskPath

def fileStem (path : DiskPath) : Option String := path.getLast?.map fun name => (splitFileName name).1

def extension (path : DiskPath) : Option String := path.getLast?.bind fun name => (splitFileName name).2

def withExtension (path : DiskPath) (ext : String) : DiskPath :=
  match path.getLast? with
  | none => path
  | some name => path.dropLast ++ [(splitFileName name).1 ++ "." ++ ext]

end DiskPath

/-- What reading a file gives. -/
def readFile (files : Files) (path : DiskPath) : Option (List Byte) :=
  (files path).filter (·.length ≤ vecU8Max)

/-! ### The cache and its index -/

structure NativeTextDiskCacheConfig where
  root : DiskPath
  writerQueueDepth : ℕ
  blockTokenCount : ℕ

namespace NativeTextDiskCacheConfig

def withWriterQueueDepth (config : NativeTextDiskCacheConfig) (writerQueueDepth : ℕ) :
    NativeTextDiskCacheConfig := { config with writerQueueDepth := max writerQueueDepth 1 }

def withBlockTokenCount (config : NativeTextDiskCacheConfig) (blockTokenCount : ℕ) :
    NativeTextDiskCacheConfig := { config with blockTokenCount := max blockTokenCount 1 }

end NativeTextDiskCacheConfig

/-- `NativeTextDiskCache`, without the index and the writer that the tasks share. -/
structure NativeTextDiskCache where
  config : NativeTextDiskCacheConfig
  identity : NativeTextDiskCacheIdentity
  block_pos : 0 < config.blockTokenCount
  identity_allocated : Allocated identity.modelHash

structure NativeTextDiskCacheIndexKey where
  namespaceHash : String
  previousBlockHash : String
  blockStart : ℕ
  blockHash : String
deriving DecidableEq, Repr

def NativeTextDiskCacheIndexKey.fromDescriptor (descriptor : NativeTextDiskCacheBlockDescriptor) :
    NativeTextDiskCacheIndexKey where
  namespaceHash := descriptor.namespaceHash
  previousBlockHash := descriptor.previousBlockHash
  blockStart := descriptor.blockStart
  blockHash := descriptor.blockHash

structure NativeTextDiskCacheIndexedEntry where
  path : DiskPath
  blockStart : ℕ
  tokenCount : ℕ
deriving DecidableEq, Repr

abbrev NativeTextDiskCacheIndex :=
  NativeTextDiskCacheIndexKey → Option NativeTextDiskCacheIndexedEntry

namespace NativeTextDiskCacheIndex

def default : NativeTextDiskCacheIndex := fun _ => none

def insert (index : NativeTextDiskCacheIndex) (key : NativeTextDiskCacheIndexKey)
    (entry : NativeTextDiskCacheIndexedEntry) : NativeTextDiskCacheIndex :=
  Function.update index key (some entry)

def remove (index : NativeTextDiskCacheIndex) (key : NativeTextDiskCacheIndexKey) :
    NativeTextDiskCacheIndex := Function.update index key none

end NativeTextDiskCacheIndex

/-- `block_hash.get(..2)`: two bytes that end at a character. -/
def firstTwoBytes (hash : String) : Option String :=
  match hash.toList with
  | [] => none
  | c :: rest =>
    if c.utf8Size = 2 then some (String.ofList [c])
    else if c.utf8Size ≠ 1 then none
    else (rest.head?.filter (·.utf8Size = 1)).map fun d => String.ofList [c, d]

def pathForDescriptor (config : NativeTextDiskCacheConfig)
    (descriptor : NativeTextDiskCacheBlockDescriptor) : DiskPath :=
  config.root ++ [descriptor.modelHash, descriptor.namespaceHash,
    (firstTwoBytes descriptor.blockHash).getD "00", descriptor.blockHash ++ ".safetensors"]

def indexedEntry (config : NativeTextDiskCacheConfig)
    (descriptor : NativeTextDiskCacheBlockDescriptor) : NativeTextDiskCacheIndexedEntry where
  path := pathForDescriptor config descriptor
  blockStart := descriptor.blockStart
  tokenCount := descriptor.tokenCount

/-! ### Opening -/

section Opening

variable (J : SerdeJson)

def decodeSafetensorsMetadata (bytes : List Byte) : DiskResult NativeTextDiskCacheBlockMetadata := do
  metadataFromHeader J (← safetensorsHeaderJson J bytes)

def decodeDescriptor (bytes : List Byte) : DiskResult NativeTextDiskCacheBlockDescriptor := do
  let metadata ← decodeSafetensorsMetadata J bytes
  validateMetadataCodecAndLayout metadata
  pure {
    modelHash := metadata.modelHash, snapshotHash := metadata.snapshotHash
    modelFamily := metadata.modelFamily, namespaceHash := metadata.namespaceHash
    previousBlockHash := metadata.previousBlockHash, blockHash := metadata.blockHash
    blockStart := metadata.blockStart, tokenCount := metadata.tokenCount
    cacheLayoutVersion := metadata.cacheLayoutVersion }

/-- What was walked over: a file, and what reading it gave. -/
structure WalkedFile where
  path : DiskPath
  bytes : Option (List Byte)

/-- The descriptor under which the file is entered, when it is. -/
def reindexedDescriptor (identity : NativeTextDiskCacheIdentity) (file : WalkedFile) :
    Option NativeTextDiskCacheBlockDescriptor := do
  let bytes ← file.bytes
  let descriptor ← (decodeDescriptor J bytes).toOption
  let _ ← (descriptor.validateForIdentity identity).toOption
  if DiskPath.fileStem file.path = some descriptor.blockHash then some descriptor else none

def reindexDiskCacheFile (identity : NativeTextDiskCacheIdentity) (index : NativeTextDiskCacheIndex)
    (file : WalkedFile) : NativeTextDiskCacheIndex :=
  match reindexedDescriptor J identity file with
  | none => index
  | some descriptor => index.insert (.fromDescriptor descriptor) {
      path := file.path, blockStart := descriptor.blockStart, tokenCount := descriptor.tokenCount }

def reindexDiskCacheRoot (identity : NativeTextDiskCacheIdentity) (walk : List WalkedFile) :
    NativeTextDiskCacheIndex :=
  (walk.filter fun file => DiskPath.extension file.path = some "safetensors").foldl
    (reindexDiskCacheFile J identity) .default

end Opening

/-! ### Requests -/

/-- The arguments of `queue_store`, of the sizes their vectors can have. -/
structure StoreCall (S : Type) where
  ns : NativeTextPrefixCacheNamespace
  tokens : List ℕ
  hidden : List F32
  states : List S
  ns_allocated : ns.Allocated
  tokens_held : HeldTokens tokens
  hidden_le : hidden.length ≤ vecF32Max

/-- The arguments of `lookup`. -/
structure LookupRequest (S : Type) where
  ns : NativeTextPrefixCacheNamespace
  tokens : List ℕ
  isCompatible : List S → Bool
  ns_allocated : ns.Allocated
  tokens_held : HeldTokens tokens

/-- A block that was handed to the writer. -/
structure StoredBlock (S : Type) where
  cache : NativeTextDiskCache
  call : StoreCall S
  bytes : List Byte

/-! ### The tasks -/

structure NativeTextDiskCacheWriteJob where
  path : DiskPath
  bytes : List Byte
  indexKey : NativeTextDiskCacheIndexKey
  indexEntry : NativeTextDiskCacheIndexedEntry

/-- Where the writer is. -/
inductive WriterProgress where
  | receiving
  | received (job : NativeTextDiskCacheWriteJob)
  | parentCreated (job : NativeTextDiskCacheWriteJob)
  | wrote (job : NativeTextDiskCacheWriteJob) (tmpPath : DiskPath)
  | promoted (job : NativeTextDiskCacheWriteJob)

/-- What the tasks share, and the one writer. -/
structure DiskState (S : Type) where
  files : Files
  index : NativeTextDiskCacheIndex
  queue : List NativeTextDiskCacheWriteJob
  permits : ℕ
  writer : WriterProgress
  nextTmpId : ℕ
  stores : List (StoredBlock S)

inductive NativeTextDiskCacheStoreStatus where
  | queued | dropped | skipped
deriving DecidableEq, Repr

inductive StoreProgress where
  | called
  | reserved (descriptor : NativeTextDiskCacheBlockDescriptor)
  | returned (status : NativeTextDiskCacheStoreStatus)

/-- A lookup at block `i` of the prefix of `k` blocks. -/
inductive LookupProgress (S L : Type) where
  | looking (k i : ℕ) (blocks : List (NativeTextDiskCacheBlock S))
  | reading (k i : ℕ) (blocks : List (NativeTextDiskCacheBlock S))
      (descriptor : NativeTextDiskCacheBlockDescriptor) (entry : NativeTextDiskCacheIndexedEntry)
  | removing (k : ℕ) (key : NativeTextDiskCacheIndexKey)
  | returned (result : DiskResult (Option (PrefixCacheHit L)))

inductive DiskTask (S L : Type) where
  | store (call : StoreCall S) (progress : StoreProgress)
  | lookup (request : LookupRequest S) (progress : LookupProgress S L)
  | writer
  | outside

/-- How the write of the temporary file ends. -/
inductive WriteEnd where
  | complete
  | broken (written : ℕ)
  | failed

inductive DiskAct where
  | reserve
  | send (ids : Statics)
  | receive
  | createParent (works : Bool)
  | write (ending : WriteEnd)
  | rename (works : Bool)
  | enter
  | look
  | load (works : Bool) (decodeIds assembleIds : Statics)
  | remove
  | delete (path : DiskPath)

section Tasks

variable {S L : Type} (C : NativeTextDiskCacheValue S) (J : SerdeJson)
  (sha256 : List Byte → CacheBlockHash) (cache : NativeTextDiskCache)

/-! ### Stores -/

/-- `queue_store` until it has a place in the writer's queue. -/
def queueStoreReserve (call : StoreCall S) (s : DiskState S) : DiskState S × StoreProgress :=
  let blockTokenCount := cache.config.blockTokenCount
  if call.tokens.isEmpty ∨ call.tokens.length % blockTokenCount ≠ 0 then (s, .returned .skipped)
  else if call.tokens.length < blockTokenCount then (s, .returned .skipped)
  else
    match NativeTextDiskCacheBlockDescriptor.new sha256 cache.identity call.ns
      (call.tokens.length - blockTokenCount) call.tokens with
    | .error _ => (s, .returned .dropped)
    | .ok descriptor =>
      if s.queue.length + s.permits < max cache.config.writerQueueDepth 1 then
        ({ s with permits := s.permits + 1 }, .reserved descriptor)
      else (s, .returned .dropped)

/-- The rest of `queue_store`. -/
def queueStoreSend (call : StoreCall S) (descriptor : NativeTextDiskCacheBlockDescriptor)
    (ids : Statics) (s : DiskState S) : DiskState S × StoreProgress :=
  match NativeTextDiskCacheBlock.encode C J descriptor call.hidden call.states ids with
  | .error _ => ({ s with permits := s.permits - 1 }, .returned .dropped)
  | .ok (bytes, _) =>
    let job : NativeTextDiskCacheWriteJob := {
      path := pathForDescriptor cache.config descriptor, bytes
      indexKey := .fromDescriptor descriptor, indexEntry := indexedEntry cache.config descriptor }
    ({ s with
      queue := s.queue ++ [job], permits := s.permits - 1
      stores := s.stores ++ [⟨cache, call, bytes⟩] }, .returned .queued)

def storeStep (call : StoreCall S) :
    DiskAct → DiskState S → StoreProgress → Option (DiskState S × StoreProgress)
  | .reserve, s, .called => some (queueStoreReserve sha256 cache call s)
  | .send ids, s, .reserved descriptor => some (queueStoreSend C J cache call descriptor ids s)
  | _, _, _ => none

/-! ### The writer -/

/-- The name of a temporary file. -/
def tmpExtension (pid tmpId : ℕ) : String :=
  "safetensors.tmp-" ++ toString pid ++ "-" ++ toString tmpId

variable (pid : ℕ)

/-- A step of `native_text_disk_cache_writer_loop` and of `write_disk_cache_job` in it. -/
def writerStep (act : DiskAct) (s : DiskState S) : Option (DiskState S) :=
  match act, s.writer with
  | .receive, .receiving =>
    match s.queue with
    | [] => none
    | job :: queue => some { s with queue, writer := .received job }
  | .createParent works, .received job =>
    some { s with writer := if works then .parentCreated job else .receiving }
  | .write ending, .parentCreated job =>
    let tmpPath := DiskPath.withExtension job.path (tmpExtension pid s.nextTmpId)
    let s := { s with nextTmpId := s.nextTmpId + 1 }
    match ending with
    | .complete => some { s with
        files := Function.update s.files tmpPath (some job.bytes), writer := .wrote job tmpPath }
    | .broken written => some { s with
        files := Function.update s.files tmpPath (some (job.bytes.take written))
        writer := .receiving }
    | .failed => some { s with writer := .receiving }
  | .rename works, .wrote job tmpPath =>
    match s.files tmpPath with
    | none => some { s with writer := .receiving }
    | some bytes =>
      if works then
        some { s with
          files := Function.update (Function.update s.files tmpPath none) job.path (some bytes)
          writer := .promoted job }
      else some { s with writer := .receiving }
  | .enter, .promoted job =>
    some { s with index := s.index.insert job.indexKey job.indexEntry, writer := .receiving }
  | _, _ => none

/-! ### Lookups -/

variable (value : PrefixCacheValue L S) (request : LookupRequest S)

/-- `continue 'prefixes` -/
def nextPrefix (k : ℕ) : LookupProgress S L :=
  if k ≤ 1 then .returned (.ok none) else .looking (k - 1) 0 []

def lookupStart : LookupProgress S L :=
  if request.tokens.isEmpty then .returned (.ok none)
  else
    let blockCount := request.tokens.length / cache.config.blockTokenCount
    if blockCount * cache.config.blockTokenCount = 0 then .returned (.ok none)
    else .looking blockCount 0 []

/-- The descriptor of block `i` of the prompt. -/
def lookupDescriptor (i : ℕ) : DiskResult NativeTextDiskCacheBlockDescriptor :=
  let blockTokenCount := cache.config.blockTokenCount
  NativeTextDiskCacheBlockDescriptor.new sha256 cache.identity request.ns (i * blockTokenCount)
    (request.tokens.take ((i + 1) * blockTokenCount))

/-- What comes of an indexed block. -/
inductive BlockRead (S : Type) where
  | unreadable
  | mismatched
  | read (block : NativeTextDiskCacheBlock S)

def readIndexedBlock (descriptor : NativeTextDiskCacheBlockDescriptor)
    (entry : NativeTextDiskCacheIndexedEntry) (bytes : Option (List Byte)) (ids : Statics) :
    BlockRead S :=
  match bytes with
  | none => .unreadable
  | some bytes =>
    match NativeTextDiskCacheBlock.decode C J bytes cache.identity descriptor ids with
    | .error _ => .unreadable
    | .ok (block, _) =>
      if block.blockStart ≠ entry.blockStart ∨ block.tokenCount ≠ entry.tokenCount then .mismatched
      else .read block

/-- What comes of the prefix of `k` blocks when all of them are read, `none` when the next shorter
one is tried. -/
def finishPrefix (k : ℕ) (blocks : List (NativeTextDiskCacheBlock S)) (ids : Statics) :
    Option (DiskResult (PrefixCacheHit L)) :=
  match C.assembleDiskBlockStates (blocks.map (·.stateBlock)) ids with
  | .error err => some (.error err)
  | .ok (states, _) =>
    if request.isCompatible states then
      match value.prefixCacheFromState states, blocks.getLast? with
      | some caches, some lastBlock => some (.ok {
          tokenCount := k * cache.config.blockTokenCount, hidden := lastBlock.hidden, caches })
      | _, _ => none
    else none

/-- What a lookup does with an indexed block that it has read. -/
def loadBlock (k i : ℕ) (blocks : List (NativeTextDiskCacheBlock S))
    (descriptor : NativeTextDiskCacheBlockDescriptor) (ids : Statics) :
    BlockRead S → LookupProgress S L
  | .unreadable => .removing k (.fromDescriptor descriptor)
  | .mismatched => nextPrefix k
  | .read block =>
    if i + 1 < k then .looking k (i + 1) (blocks ++ [block])
    else
      match finishPrefix C cache value request k (blocks ++ [block]) ids with
      | none => nextPrefix k
      | some result => .returned (result.map some)

def lookupStep :
    DiskAct → DiskState S → LookupProgress S L → Option (DiskState S × LookupProgress S L)
  | .look, s, .looking k i blocks =>
    match lookupDescriptor sha256 cache request i with
    | .error err => some (s, .returned (.error err))
    | .ok descriptor =>
      match s.index (.fromDescriptor descriptor) with
      | none => some (s, nextPrefix k)
      | some entry => some (s, .reading k i blocks descriptor entry)
  | .load works decodeIds assembleIds, s, .reading k i blocks descriptor entry =>
    let bytes := if works then readFile s.files entry.path else none
    some (s, loadBlock C cache value request k i blocks descriptor assembleIds
      (readIndexedBlock C J cache descriptor entry bytes decodeIds))
  | .remove, s, .removing k key => some ({ s with index := s.index.remove key }, nextPrefix k)
  | _, _, _ => none

/-! ### The program -/

/-- What starts a task. -/
inductive DiskStart (S : Type) where
  | store (call : StoreCall S)
  | lookup (request : LookupRequest S)
  | outside

def diskStep : DiskAct → DiskState S → DiskTask S L → Option (DiskState S × DiskTask S L)
  | act, s, .store call p => (storeStep C J sha256 cache call act s p).map fun r =>
      (r.1, .store call r.2)
  | act, s, .lookup request p => (lookupStep C J sha256 cache value request act s p).map fun r =>
      (r.1, .lookup request r.2)
  | act, s, .writer => (writerStep pid act s).map fun s => (s, .writer)
  | .delete path, s, .outside => some ({ s with files := Function.update s.files path none }, .outside)
  | _, _, .outside => none

def diskProgram : Interleaving.Program (DiskState S) (DiskTask S L) DiskAct (DiskStart S) where
  start
    | .store call => .store call .called
    | .lookup request => .lookup request (lookupStart cache request)
    | .outside => .outside
  step := diskStep C J sha256 cache pid value

/-- An opened cache, over the files that are there. -/
def openedCache (files : Files) (stores : List (StoredBlock S)) (walk : List WalkedFile)
    (nextTmpId : ℕ) : Interleaving.Config (DiskState S) (DiskTask S L) where
  shared := {
    files, index := reindexDiskCacheRoot J cache.identity walk, queue := [], permits := 0
    writer := .receiving, nextTmpId, stores }
  tasks := [.writer]

/-! ### What a step can do -/

variable {C J sha256 cache pid value request} {act : DiskAct} {s s' : DiskState S}

variable (sha256 cache s) in
/-- All that a reservation can do. -/
theorem queueStoreReserve_cases (call : StoreCall S) :
    (∃ status, queueStoreReserve sha256 cache call s = (s, .returned status)) ∨
      ∃ descriptor, NativeTextDiskCacheBlockDescriptor.new sha256 cache.identity call.ns
          (call.tokens.length - cache.config.blockTokenCount) call.tokens = .ok descriptor ∧
        s.queue.length + s.permits < max cache.config.writerQueueDepth 1 ∧
        queueStoreReserve sha256 cache call s =
          ({ s with permits := s.permits + 1 }, .reserved descriptor) := by
  cases hnew : NativeTextDiskCacheBlockDescriptor.new sha256 cache.identity call.ns
      (call.tokens.length - cache.config.blockTokenCount) call.tokens with
  | error err =>
    refine .inl ?_
    simp only [queueStoreReserve, hnew]
    split
    · exact ⟨_, rfl⟩
    · split <;> exact ⟨_, rfl⟩
  | ok descriptor =>
    simp only [queueStoreReserve, hnew]
    split
    · exact .inl ⟨_, rfl⟩
    split
    · exact .inl ⟨_, rfl⟩
    split
    · rename_i hfree
      exact .inr ⟨descriptor, rfl, hfree, rfl⟩
    · exact .inl ⟨_, rfl⟩

variable (C J cache s) in
/-- A block that is encoded goes to the writer, and one that is not gives its place back. -/
theorem queueStoreSend_cases (call : StoreCall S) (descriptor : NativeTextDiskCacheBlockDescriptor)
    (ids : Statics) :
    queueStoreSend C J cache call descriptor ids s =
        ({ s with permits := s.permits - 1 }, .returned .dropped) ∨
      ∃ bytes ids', NativeTextDiskCacheBlock.encode C J descriptor call.hidden call.states ids =
          .ok (bytes, ids') ∧
        queueStoreSend C J cache call descriptor ids s =
          ({ s with
            queue := s.queue ++ [{
              path := pathForDescriptor cache.config descriptor, bytes
              indexKey := .fromDescriptor descriptor
              indexEntry := indexedEntry cache.config descriptor }]
            permits := s.permits - 1
            stores := s.stores ++ [⟨cache, call, bytes⟩] }, .returned .queued) := by
  cases hencode : NativeTextDiskCacheBlock.encode C J descriptor call.hidden call.states ids with
  | error err =>
    refine .inl ?_
    rw [queueStoreSend, hencode]
  | ok encoded =>
    obtain ⟨bytes, ids'⟩ := encoded
    refine .inr ⟨bytes, ids', rfl, ?_⟩
    rw [queueStoreSend, hencode]

/-- A lookup changes the index alone. -/
theorem lookupStep_index {p p' : LookupProgress S L}
    (h : lookupStep C J sha256 cache value request act s p = some (s', p')) :
    ∃ index, s' = { s with index := index } := by
  unfold lookupStep at h
  split at h
  · split at h
    · cases h
      exact ⟨_, rfl⟩
    · split at h <;> cases h <;> exact ⟨_, rfl⟩
  · cases h
    exact ⟨_, rfl⟩
  · cases h
    exact ⟨_, rfl⟩
  · cases h

end Tasks

/-! ### A cache of one place -/

/-- A cache with blocks of one token, whose writer has room for one block. -/
def oneTokenCache : NativeTextDiskCache where
  config := ⟨["cache"], 1, 1⟩
  identity := secondBlock.identity
  block_pos := by decide
  identity_allocated := secondBlock.identity_allocated

/-- Layers are kept as they are. -/
def keptLayers : PrefixCacheValue GemmaLayerCachePrefixState GemmaLayerCachePrefixState where
  prefixCacheState := id
  prefixCacheFromState := some
  prefixCacheEntryBytes _ _ := 0
  entryBytes_lt _ _ := by decide

theorem oneToken_held : HeldTokens [7] := ⟨by decide, by decide⟩

def oneTokenStore : StoreCall GemmaLayerCachePrefixState where
  ns := secondBlock.ns
  tokens := [7]
  hidden := [⟨5⟩]
  states := []
  ns_allocated := secondBlock.ns_allocated
  tokens_held := oneToken_held
  hidden_le := by decide

end KirAi.NativeRuntime
