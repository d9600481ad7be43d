/-
# The block pool

`block_pool.rs`: a fixed set of blocks shared by sessions. A block with no
reference is on the free list; a session owns one reference to each block it
lists; clients may hold references of their own (`allocate`, `retain`,
`release`). When the free list is empty, the least recently used sessions are
released until it is not.

Every operation runs under the pool's mutex, so an operation is a function of
the state. The pool's metrics are counters that no operation reads; they are
not modelled.
-/
import KirAi.KvCache.Block
import KirAi.KvCache.BlockTable
import Mathlib.Data.List.MinMax
import Mathlib.Data.Prod.Lex
import Std.Data.ExtTreeMap

namespace KirAi.KvCache

open Lib

structure PrefixBlockSnapshot where
  blockId : BlockId
  contentHash : CacheBlockHash
deriving DecidableEq, Repr

structure PrefixEntry where
  blocks : List PrefixBlockSnapshot
deriving DecidableEq, Repr

namespace PrefixEntry

def blockIds (e : PrefixEntry) : List BlockId := e.blocks.map (·.blockId)

def terminalHash (e : PrefixEntry) : Option CacheBlockHash := e.blocks.getLast?.map (·.contentHash)

end PrefixEntry

structure BlockPoolInner where
  blocks : Std.ExtTreeMap BlockId CacheBlock
  freeList : List BlockId
  prefixes : Std.ExtTreeMap CacheBlockHash PrefixEntry
  sessions : Std.ExtTreeMap SessionId SessionBlockTable
  nextSessionId : SessionId
  accessClock : ℕ
  /-- The process counters, which a fresh allocation advances. -/
  rt : Statics

/-- What an operation cannot choose: which storages have handles outside the
pool, and the order in which a hash set is iterated. -/
structure Ambient where
  shares : Shares
  order : Std.ExtTreeSet BlockId → List BlockId
  order_perm : ∀ s, (order s).Perm s.toList

/-- Nothing outside the pool holds a storage, and sets are iterated in
ascending order. -/
def Ambient.plain : Ambient := ⟨fun _ => 0, fun s => s.toList, fun _ => List.Perm.refl _⟩

namespace BlockPoolInner

variable (env : Ambient)

/-- The blocks made by the loop of `new`, in order. -/
def newBlocks (capacityTokens vectorLen : ℕ) :
    ℕ → Statics → Except KvCacheError (List CacheBlock × Statics)
  | 0, rt => pure ([], rt)
  | n + 1, rt => do
    let (block, rt) ← CacheBlock.new capacityTokens vectorLen rt
    let (rest, rt) ← newBlocks capacityTokens vectorLen n rt
    pure (block :: rest, rt)

def new (blockCount blockCapacityTokens vectorLen : ℕ) (rt : Statics) :
    Except KvCacheError BlockPoolInner := do
  if blockCount = 0 then throw .invalidShape
  let (blocks, rt) ← newBlocks blockCapacityTokens vectorLen blockCount rt
  pure {
    blocks := blocks.foldl (fun m b => m.insert b.id b) ∅
    freeList := blocks.map (·.id)
    prefixes := ∅, sessions := ∅, nextSessionId := 1, accessClock := 0, rt }

def nextAccess (p : BlockPoolInner) : ℕ × BlockPoolInner :=
  let accessClock := satAdd p.accessClock 1
  (accessClock, { p with accessClock })

def takeSessionId (p : BlockPoolInner) : Except KvCacheError (SessionId × BlockPoolInner) :=
  match (checkedAdd p.nextSessionId 1).filter (· ≠ 0) with
  | some next => .ok (p.nextSessionId, { p with nextSessionId := next })
  | none => .error .invalidShape

def createSession (p : BlockPoolInner) : Except KvCacheError SessionId × BlockPoolInner :=
  match p.takeSessionId with
  | .error e => (.error e, p)
  | .ok (sessionId, p) =>
    let (access, p) := p.nextAccess
    match SessionBlockTable.new sessionId access with
    | .error e => (.error e, p)
    | .ok session => (.ok sessionId, { p with sessions := p.sessions.insert sessionId session })

def allocate (p : BlockPoolInner) : Option BlockId × BlockPoolInner :=
  match p.freeList.getLast? with
  | none => (none, p)
  | some blockId =>
    let (access, p) := { p with freeList := p.freeList.dropLast }.nextAccess
    match p.blocks[blockId]? with
    | none => (none, p)
    | some block =>
      let (block, rt) := block.resetForAllocation env.shares access p.rt
      (some blockId, { p with blocks := p.blocks.insert blockId block, rt })

def retain (p : BlockPoolInner) (blockId : BlockId) : Bool × BlockPoolInner :=
  match p.blocks[blockId]? with
  | none => (false, p)
  | some block =>
    if block.refCount = 0 then (false, p)
    else (true, { p with blocks := p.blocks.insert blockId block.incrementRefCount })

def release (p : BlockPoolInner) (blockId : BlockId) : Bool × BlockPoolInner :=
  match p.blocks[blockId]? with
  | none => (false, p)
  | some block =>
    if block.refCount = 0 then (false, p)
    else
      let block := block.decrementRefCount
      if block.refCount = 0 then
        let (block, rt) := block.clear env.shares p.rt
        (true, { p with
          blocks := p.blocks.insert blockId block, freeList := p.freeList ++ [blockId], rt })
      else (true, { p with blocks := p.blocks.insert blockId block })

def touch (p : BlockPoolInner) (blockId : BlockId) : Option Unit × BlockPoolInner :=
  let (access, p) := p.nextAccess
  match p.blocks[blockId]? with
  | none => (none, p)
  | some block =>
    if block.refCount = 0 then (none, p)
    else (some (), { p with blocks := p.blocks.insert blockId (block.touch access) })

/-- `block_mut`: a block that has exactly one reference. -/
def blockMut (p : BlockPoolInner) (blockId : BlockId) : Option CacheBlock :=
  p.blocks[blockId]?.filter (·.refCount = 1)

/-- `with_block_mut`, for a closure that turns the block and the process
counters into new ones. -/
def withBlockMut (p : BlockPoolInner) (blockId : BlockId)
    (f : CacheBlock → Statics → CacheBlock × Statics) : Option Unit × BlockPoolInner :=
  match p.blockMut blockId with
  | none => (none, p)
  | some block =>
    let (block, rt) := f block p.rt
    (some (), { p with blocks := p.blocks.insert blockId block, rt })

def appendBlockToSessionInner (p : BlockPoolInner) (sessionId : SessionId) (blockId : BlockId)
    (retainNewOwner : Bool) : Except KvCacheError Unit × BlockPoolInner :=
  match p.blocks[blockId]? with
  | none => (.error .invalidShape, p)
  | some block =>
    if block.refCount = 0 then (.error .invalidShape, p)
    else
      let (access, p) := p.nextAccess
      match p.sessions[sessionId]? with
      | none => (.error .invalidShape, p)
      | some session =>
        match session.appendOwnedBlock blockId with
        | .error e => (.error e, p)
        | .ok (newlyOwned, session) =>
          let block := if retainNewOwner && newlyOwned then block.incrementRefCount else block
          (.ok (), { p with
            sessions := p.sessions.insert sessionId (session.touch access)
            blocks := p.blocks.insert blockId (block.touch access) })

def appendBlockToSession (p : BlockPoolInner) (sessionId : SessionId) (blockId : BlockId) :
    Except KvCacheError Unit × BlockPoolInner :=
  p.appendBlockToSessionInner sessionId blockId true

/-- The loop of `release_session_inner`: releases one reference to each block,
and counts the blocks that became free. -/
def releaseAll : List BlockId → ℕ → BlockPoolInner → ℕ × BlockPoolInner
  | [], released, p => (released, p)
  | b :: bs, released, p =>
    let wasResident := p.blocks[b]?.any (·.refCount > 0)
    let (ok, p) := p.release env b
    let released := if ok && wasResident && p.blocks[b]?.any (·.refCount = 0) then
      satAdd released 1 else released
    releaseAll bs released p

def releaseSessionInner (p : BlockPoolInner) (sessionId : SessionId) : Option ℕ × BlockPoolInner :=
  match p.sessions[sessionId]? with
  | none => (none, p)
  | some session =>
    let p := { p with sessions := p.sessions.erase sessionId }
    let (released, p) := releaseAll env (env.order session.ownedBlocks) 0 p
    (some released, p)

def releaseSession (p : BlockPoolInner) (sessionId : SessionId) : Bool × BlockPoolInner :=
  let (released, p) := p.releaseSessionInner env sessionId
  (released.isSome, p)

/-- The order in which sessions are evicted. -/
def lruKey (t : SessionBlockTable) : ℕ ×ₗ ℕ ×ₗ ℕ :=
  toLex (t.lastAccess, toLex (t.createdAt, t.sessionId))

def lruSessionExcept (p : BlockPoolInner) (excluded : Option SessionId) : Option SessionId :=
  (((((p.sessions.toList.map (·.2)).filter (some ·.sessionId ≠ excluded)).filter (!·.isEmpty)).argmin
    lruKey).map (·.sessionId))

def lruSession (p : BlockPoolInner) : Option SessionId := p.lruSessionExcept none

/-- The loop of `evict_sessions_until_free`; every round removes a session, so
as many rounds as there are sessions are enough (`evictLoop_done`). -/
def evictLoop (excluded : SessionId) : ℕ → BlockPoolInner → BlockPoolInner
  | 0, p => p
  | n + 1, p =>
    if p.freeList.isEmpty then
      match p.lruSessionExcept (some excluded) with
      | none => p
      | some sessionId =>
        match p.releaseSessionInner env sessionId with
        | (none, p) => p
        | (some _, p) => evictLoop excluded n p
    else p

def evictSessionsUntilFree (p : BlockPoolInner) (excluded : SessionId) : BlockPoolInner :=
  evictLoop env excluded p.sessions.size p

def allocateForSession (p : BlockPoolInner) (sessionId : SessionId) :
    Option BlockId × BlockPoolInner :=
  if ¬ p.sessions.contains sessionId then (none, p)
  else
    let p := if p.freeList.isEmpty then p.evictSessionsUntilFree env sessionId else p
    match p.allocate env with
    | (none, p) => (none, p)
    | (some blockId, p) =>
      match p.appendBlockToSessionInner sessionId blockId false with
      | (.error _, p) => (none, p)
      | (.ok _, p) => (some blockId, p)

def readSessionBlock (p : BlockPoolInner) (sessionId : SessionId) (index : ℕ) :
    Option BlockId × BlockPoolInner :=
  let (access, p) := p.nextAccess
  match p.sessions[sessionId]? with
  | none => (none, p)
  | some session =>
    match session.readBlock index with
    | none => (none, p)
    | some blockId =>
      let p := { p with sessions := p.sessions.insert sessionId (session.touch access) }
      match p.blocks[blockId]? with
      | none => (none, p)
      | some block =>
        if block.refCount = 0 then (none, p)
        else (some blockId, { p with blocks := p.blocks.insert blockId (block.touch access) })

def prefixEntryFor (p : BlockPoolInner) (blockIds : List BlockId) : Option PrefixEntry := do
  let blocks ← blockIds.mapM fun blockId => do
    let block ← p.blocks[blockId]?
    if block.refCount = 0 then none
    else pure ⟨blockId, ← block.contentHash⟩
  pure ⟨blocks⟩

def registerPrefix (p : BlockPoolInner) (prefixHash : CacheBlockHash) (blockIds : List BlockId) :
    BlockPoolInner :=
  match p.prefixEntryFor blockIds with
  | some entry =>
    if entry.terminalHash = some prefixHash then
      { p with prefixes := p.prefixes.insert prefixHash entry }
    else { p with prefixes := p.prefixes.erase prefixHash }
  | none => { p with prefixes := p.prefixes.erase prefixHash }

def prefixBlocksMatch (p : BlockPoolInner) (prefixHash : CacheBlockHash) (entry : PrefixEntry) :
    Bool :=
  entry.terminalHash = some prefixHash &&
    entry.blocks.all fun snapshot =>
      p.blocks[snapshot.blockId]?.any fun block =>
        block.refCount > 0 && block.contentHash = some snapshot.contentHash

def lookupPrefix (p : BlockPoolInner) (prefixHash : CacheBlockHash) : Option (List BlockId) :=
  match p.prefixes[prefixHash]? with
  | none => none
  | some entry => if p.prefixBlocksMatch prefixHash entry then some entry.blockIds else none

/-- The loop of `attach_prefix_to_session`. -/
def attachAll (sessionId : SessionId) :
    List BlockId → BlockPoolInner → Except KvCacheError Unit × BlockPoolInner
  | [], p => (.ok (), p)
  | b :: bs, p =>
    match p.appendBlockToSessionInner sessionId b true with
    | (.error e, p) => (.error e, p)
    | (.ok _, p) => attachAll sessionId bs p

def attachPrefixToSession (p : BlockPoolInner) (sessionId : SessionId)
    (prefixHash : CacheBlockHash) : Option (List BlockId) × BlockPoolInner :=
  if ¬ p.sessions.contains sessionId then (none, p)
  else match p.lookupPrefix prefixHash with
    | none => (none, p)
    | some blockIds =>
      match attachAll sessionId blockIds p with
      | (.error _, p) => (none, p)
      | (.ok _, p) => (some blockIds, p)

def touchSessionBlock (p : BlockPoolInner) (sessionId : SessionId) (blockId : BlockId) :
    Except KvCacheError Unit × BlockPoolInner :=
  let (access, p) := p.nextAccess
  match p.sessions[sessionId]? with
  | none => (.error .invalidShape, p)
  | some session =>
    let p := { p with sessions := p.sessions.insert sessionId (session.touch access) }
    match p.blocks[blockId]? with
    | none => (.error .invalidShape, p)
    | some block =>
      if block.refCount = 0 then (.error .invalidShape, p)
      else (.ok (), { p with blocks := p.blocks.insert blockId (block.touch access) })

/-- The copy itself, once a destination is needed: a fresh block gets the
contents and takes the place of the old one in the session's table. -/
def copySessionBlock (p : BlockPoolInner) (sessionId : SessionId) (index : ℕ) (blockId : BlockId) :
    Except KvCacheError BlockId × BlockPoolInner :=
  match p.allocate env with
  | (none, p) => (.error (.capacityExceeded 1 0), p)
  | (some newBlockId, p) =>
    let (access, p) := p.nextAccess
    match p.blocks[blockId]?, p.blocks[newBlockId]? with
    | some source, some destination =>
      match destination.copyContentsFrom env.shares source access p.rt with
      | .error e => (.error e, (p.release env newBlockId).2)
      | .ok (destination, rt) =>
        let p := { p with blocks := p.blocks.insert newBlockId destination, rt }
        match p.sessions[sessionId]? with
        | none => (.error .invalidShape, p)
        | some session =>
          match session.replaceOwnedBlock index newBlockId with
          | .error e =>
            let p := { p with sessions := p.sessions.insert sessionId (session.touch access) }
            (.error e, (p.release env newBlockId).2)
          | .ok ((_, shouldReleasePrevious), session) =>
            let p := { p with sessions := p.sessions.insert sessionId (session.touch access) }
            (.ok newBlockId, if shouldReleasePrevious then (p.release env blockId).2 else p)
    | _, _ => (.error .invalidShape, (p.release env newBlockId).2)

/-- A block with a single reference is the session's own and is only touched. -/
def touchOwnBlock (p : BlockPoolInner) (sessionId : SessionId) (blockId : BlockId) :
    Except KvCacheError BlockId × BlockPoolInner :=
  match p.touchSessionBlock sessionId blockId with
  | (.error e, p) => (.error e, p)
  | (.ok _, p) => (.ok blockId, p)

def copyOnWriteSessionBlock (p : BlockPoolInner) (sessionId : SessionId) (index : ℕ) :
    Except KvCacheError BlockId × BlockPoolInner :=
  match p.sessions[sessionId]? >>= (·.readBlock index) with
  | none => (.error .invalidShape, p)
  | some blockId =>
    match p.blocks[blockId]?.filter (·.refCount > 0) with
    | none => (.error .invalidShape, p)
    | some block =>
      if block.refCount = 1 then p.touchOwnBlock sessionId blockId
      else
        let p := if p.freeList.isEmpty then p.evictSessionsUntilFree env sessionId else p
        match p.blocks[blockId]?.filter (·.refCount > 0) with
        | none => (.error .invalidShape, p)
        | some block =>
          if block.refCount = 1 then p.touchOwnBlock sessionId blockId
          else p.copySessionBlock env sessionId index blockId

end BlockPoolInner

end KirAi.KvCache
