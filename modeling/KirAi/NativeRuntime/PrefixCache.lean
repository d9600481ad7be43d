/-
# The prefix cache of the native text driver

`native_text/prefix_cache.rs`: for each namespace, the cache states left by
prompts that were prefilled, under their tokens. A lookup takes the longest
entry whose tokens start the prompt and whose states the caller can use; a
store evicts the least recently used entries until the new one fits.

Four structures are kept together by hand: the entries in a map of maps, the
lengths in use for each namespace (`PrefixCacheLengthIndex`), the order of use
(`PrefixCacheLruIndex`) and the number of bytes. A namespace is only compared,
so its type is any type with a lawful order; the metrics that lookups and
stores record are counters nobody reads here and are left out.

Key definitions: `PrefixCacheInner.removeEntry`, `NativeTextPrefixCache.lookupCompatible`,
`NativeTextPrefixCache.store`.
-/
import KirAi.KvCache.Basic
import KirAi.Lib.Machine
import KirAi.Lib.TwoLevelMap
import Std.Data.ExtTreeSet

namespace KirAi.NativeRuntime

open Lib KvCache

/-- `NativeTextPrefixCacheValue`: how layer caches (`C`) become the states that
are kept (`S`) and come back. -/
structure PrefixCacheValue (C S : Type) where
  prefixCacheState : List C → List S
  prefixCacheFromState : List S → Option (List C)
  prefixCacheEntryBytes : List F32 → List S → ℕ
  /-- The byte count is a `u64`. -/
  entryBytes_lt : ∀ hidden states, prefixCacheEntryBytes hidden states < 2 ^ 64

structure PrefixCacheEntryPayload (S : Type) where
  hidden : List F32
  states : List S

structure PrefixCacheEntry (S : Type) where
  payload : PrefixCacheEntryPayload S
  byteLen : ℕ
  lastUsed : ℕ

structure PrefixCacheHit (C : Type) where
  tokenCount : ℕ
  hidden : List F32
  caches : List C

/-! ### The lengths in use -/

/-- `partition_point` of a slice that is partitioned by `p`. -/
def partitionPoint (p : ℕ → Bool) (l : List ℕ) : ℕ := (l.takeWhile p).length

/-- The lengths of the entries of one namespace, in order, and how many entries
have each. -/
structure PrefixCacheLengthIndex where
  lengths : List ℕ
  lengthCounts : Std.ExtTreeMap ℕ ℕ

namespace PrefixCacheLengthIndex

def default : PrefixCacheLengthIndex := ⟨[], ∅⟩

def insert (index : PrefixCacheLengthIndex) (tokens : List ℕ) : PrefixCacheLengthIndex :=
  let tokenCount := tokens.length
  let count := index.lengthCounts[tokenCount]?.getD 0
  let lengths := if count = 0 then
      index.lengths.insertIdx (partitionPoint (· < tokenCount) index.lengths) tokenCount
    else index.lengths
  ⟨lengths, index.lengthCounts.insert tokenCount (count + 1)⟩

def remove (index : PrefixCacheLengthIndex) (tokens : List ℕ) : PrefixCacheLengthIndex :=
  let tokenCount := tokens.length
  match index.lengthCounts[tokenCount]? with
  | none => index
  | some count =>
    if count > 1 then { index with lengthCounts := index.lengthCounts.insert tokenCount (count - 1) }
    else
      ⟨index.lengths.erase tokenCount, index.lengthCounts.erase tokenCount⟩

/-- The lengths a prefix of a prompt can have, longest first. -/
def prefixCandidateLengths (index : PrefixCacheLengthIndex) (maxTokenCount : ℕ) : List ℕ :=
  (index.lengths.take (partitionPoint (· ≤ maxTokenCount) index.lengths)).reverse

def isEmpty (index : PrefixCacheLengthIndex) : Bool := index.lengthCounts.isEmpty

end PrefixCacheLengthIndex

/-! ### The order of use -/

structure PrefixCacheLruKey (N : Type) where
  access : ℕ
  ns : N
  tokens : List ℕ
deriving DecidableEq

section

variable {N : Type} [Ord N] [Std.TransOrd N] [Std.LawfulEqOrd N]

/-- The derived order: by access, then namespace, then tokens. -/
def PrefixCacheLruKey.cmp : PrefixCacheLruKey N → PrefixCacheLruKey N → Ordering :=
  compareLex (compareOn (·.access)) (compareLex (compareOn (·.ns)) (compareOn (·.tokens)))

instance : Std.TransCmp (PrefixCacheLruKey.cmp (N := N)) :=
  inferInstanceAs (Std.TransCmp (compareLex _ _))

instance : Std.LawfulEqCmp (PrefixCacheLruKey.cmp (N := N)) where
  eq_of_compare {a b} h := by
    simp only [PrefixCacheLruKey.cmp, compareLex, compareOn, Ordering.then_eq_eq,
      Std.LawfulEqCmp.compare_eq_iff_eq] at h
    obtain ⟨a1, a2, a3⟩ := a
    obtain ⟨b1, b2, b3⟩ := b
    obtain ⟨rfl, rfl, rfl⟩ := h
    rfl

variable (N) in
structure PrefixCacheLruIndex where
  entries : Std.ExtTreeSet (PrefixCacheLruKey N) PrefixCacheLruKey.cmp

namespace PrefixCacheLruIndex

variable (lru : PrefixCacheLruIndex N) (ns : N) (tokens : List ℕ)

def insert (access : ℕ) : PrefixCacheLruIndex N := ⟨lru.entries.insert ⟨access, ns, tokens⟩⟩

def remove (access : ℕ) : PrefixCacheLruIndex N := ⟨lru.entries.erase ⟨access, ns, tokens⟩⟩

def promote (previousAccess nextAccess : ℕ) : PrefixCacheLruIndex N :=
  (lru.remove ns tokens previousAccess).insert ns tokens nextAccess

/-- `iter().next()`: the iteration is in ascending order. -/
def oldest : Option (PrefixCacheLruKey N) := lru.entries.toList.head?

def len : ℕ := lru.entries.size

end PrefixCacheLruIndex

/-! ### The cache -/

variable (N) in
structure PrefixCacheInner (S : Type) where
  entries : Std.ExtTreeMap N (Std.ExtTreeMap (List ℕ) (PrefixCacheEntry S))
  indexes : Std.ExtTreeMap N PrefixCacheLengthIndex
  lru : PrefixCacheLruIndex N
  usedBytes : ℕ
  nextAccess : ℕ

namespace PrefixCacheInner

variable {C S : Type}

def default : PrefixCacheInner N S := ⟨∅, ∅, ⟨∅⟩, 0, 0⟩

/-- `next_access`: the stamp of this access, and the counter moved on. -/
def takeAccess (inner : PrefixCacheInner N S) : ℕ × PrefixCacheInner N S :=
  (inner.nextAccess, { inner with nextAccess := satAdd inner.nextAccess 1 })

/-- The part of `remove_entry` that runs when the entry was there. -/
def forget (inner : PrefixCacheInner N S) (ns : N) (tokens : List ℕ) (entry : PrefixCacheEntry S) :
    PrefixCacheInner N S :=
  let lru := inner.lru.remove ns tokens entry.lastUsed
  match inner.indexes[ns]? with
  | none => { inner with lru }
  | some index =>
    let index := index.remove tokens
    if index.isEmpty then { inner with lru, indexes := inner.indexes.erase ns }
    else { inner with lru, indexes := inner.indexes.insert ns index }

def removeEntry (inner : PrefixCacheInner N S) (ns : N) (tokens : List ℕ) :
    Option (PrefixCacheEntry S) × PrefixCacheInner N S :=
  match inner.entries[ns]? with
  | none => (none, inner)
  | some bucket =>
    let entry := bucket[tokens]?
    let bucket := bucket.erase tokens
    let removeBucket := bucket.isEmpty
    let inner := { inner with entries := inner.entries.insert ns bucket }
    let inner := match entry with
      | none => inner
      | some e => inner.forget ns tokens e
    (entry, if removeBucket then { inner with entries := inner.entries.erase ns } else inner)

def removeLruEntry (inner : PrefixCacheInner N S) :
    Option (PrefixCacheEntry S) × PrefixCacheInner N S :=
  match inner.lru.oldest with
  | none => (none, inner)
  | some oldest => inner.removeEntry oldest.ns oldest.tokens

/-- The loop of `store` that makes room for `byteLen`; every round removes an
entry, so as many rounds as there are keys in the order of use are enough
(`Inv.evictLoop`). -/
def evictLoop (maxBytes byteLen : ℕ) : ℕ → PrefixCacheInner N S → PrefixCacheInner N S
  | 0, inner => inner
  | n + 1, inner =>
    if satAdd inner.usedBytes byteLen > maxBytes then
      match inner.removeLruEntry with
      | (none, inner) => inner
      | (some evicted, inner) =>
        evictLoop maxBytes byteLen n { inner with usedBytes := inner.usedBytes - evicted.byteLen }
    else inner

/-- The loop of `lookup_compatible` over the candidate lengths. -/
def scan (isCompatible : List S → Bool) (ns : N) (tokens : List ℕ)
    (bucket : Std.ExtTreeMap (List ℕ) (PrefixCacheEntry S)) :
    List ℕ → PrefixCacheInner N S → Option (ℕ × PrefixCacheEntryPayload S) × PrefixCacheInner N S
  | [], inner => (none, inner)
  | tokenCount :: candidates, inner =>
    let entryTokens := tokens.take tokenCount
    match bucket[entryTokens]? with
    | none => scan isCompatible ns tokens bucket candidates inner
    | some entry =>
      if isCompatible entry.payload.states then
        let (access, inner) := inner.takeAccess
        let bucket := bucket.insert entryTokens { entry with lastUsed := access }
        (some (tokenCount, entry.payload), { inner with
          entries := inner.entries.insert ns bucket
          lru := inner.lru.promote ns entryTokens entry.lastUsed access })
      else scan isCompatible ns tokens bucket candidates inner

end PrefixCacheInner

namespace NativeTextPrefixCache

variable {C S : Type} (value : PrefixCacheValue C S)

def lookupCompatible (inner : PrefixCacheInner N S) (ns : N) (tokens : List ℕ)
    (isCompatible : List S → Bool) : Option (PrefixCacheHit C) × PrefixCacheInner N S :=
  let candidates := (inner.indexes[ns]?.map (·.prefixCandidateLengths tokens.length)).getD []
  let (hit, inner) := match inner.entries[ns]? with
    | none => (none, inner)
    | some bucket => inner.scan isCompatible ns tokens bucket candidates
  match hit with
  | none => (none, inner)
  | some (bestLen, payload) =>
    match value.prefixCacheFromState payload.states with
    | none => (none, inner)
    | some caches => (some ⟨bestLen, payload.hidden, caches⟩, inner)

/-- `store` first takes out the entry that is under the same tokens. -/
def dropExisting (inner : PrefixCacheInner N S) (ns : N) (tokens : List ℕ) : PrefixCacheInner N S :=
  match inner.removeEntry ns tokens with
  | (none, inner) => inner
  | (some existing, inner) => { inner with usedBytes := inner.usedBytes - existing.byteLen }

/-- The part of `store` after the checks: replace, make room, insert. -/
def storeEntry (maxBytes : ℕ) (inner : PrefixCacheInner N S) (ns : N) (tokens : List ℕ)
    (payload : PrefixCacheEntryPayload S) (byteLen : ℕ) : PrefixCacheInner N S :=
  let inner := dropExisting inner ns tokens
  let inner := inner.evictLoop maxBytes byteLen inner.lru.len
  let (access, inner) := inner.takeAccess
  { inner with
    entries := inner.entries.insert ns
      ((inner.entries[ns]?.getD ∅).insert tokens ⟨payload, byteLen, access⟩)
    lru := inner.lru.insert ns tokens access
    indexes := inner.indexes.insert ns ((inner.indexes[ns]?.getD .default).insert tokens)
    usedBytes := satAdd inner.usedBytes byteLen }

def store (maxBytes : ℕ) (inner : PrefixCacheInner N S) (ns : N) (tokens : List ℕ)
    (hidden : List F32) (caches : List C) : Bool × PrefixCacheInner N S :=
  if tokens.isEmpty then (false, inner)
  else
    let states := value.prefixCacheState caches
    let byteLen := value.prefixCacheEntryBytes hidden states
    if byteLen > maxBytes then (false, inner)
    else (true, storeEntry maxBytes inner ns tokens ⟨hidden, states⟩ byteLen)

/-- One use of the cache. -/
inductive Access (N C S : Type) where
  | lookup (ns : N) (tokens : List ℕ) (isCompatible : List S → Bool)
  | store (ns : N) (tokens : List ℕ) (hidden : List F32) (caches : List C)

def Access.run (value : PrefixCacheValue C S) (maxBytes : ℕ) (inner : PrefixCacheInner N S) :
    Access N C S → PrefixCacheInner N S
  | .lookup ns tokens isCompatible => (lookupCompatible value inner ns tokens isCompatible).2
  | .store ns tokens hidden caches => (NativeTextPrefixCache.store value maxBytes inner ns tokens hidden caches).2

/-- The cache after a sequence of uses. -/
def afterAll (value : PrefixCacheValue C S) (maxBytes : ℕ) (accesses : List (Access N C S)) :
    PrefixCacheInner N S :=
  accesses.foldl (Access.run value maxBytes) .default

end NativeTextPrefixCache

end

end KirAi.NativeRuntime
