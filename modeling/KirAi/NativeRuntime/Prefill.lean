/-
# The prefill of the native text driver

`native_text/driver.rs`: the part of the prompt that no cache has is run through the model
chunk by chunk. After a chunk the driver stores a checkpoint in the memory cache, unless the
prompt is at its end, and offers the prefix to the disk cache if it ends with a block.

The model behind the adapter is a parameter. Cancellation, a client that went away and a
scheduler that refuses the next chunk stop the loop from outside (`Interruptions`); the
calls made until then stay made. Metrics and the scratch buffers of the model, which carry
nothing from call to call, are left out.

Key definitions: `prefillChunkTokens`, `prefillLoop`, `prefill`, `offered`.
-/
import KirAi.Lib.Slice
import KirAi.NativeRuntime.PrefixCache
import KirAi.Runtime.Chunk

namespace KirAi.NativeRuntime

open Lib KvCache

/-- `BackendError`, as far as the driver makes errors itself. -/
inductive BackendError where
  | cancelled
  | modelNotFound (requested available : String)
  | unsupportedRequest (message : String)
  | config (message : String)
  | internalInvariant (message : String)
  | sampler (message : String)
  | tokenizer (message : String)
  | other (message : String)
deriving DecidableEq, Repr

/-- What the prefill uses of the adapter; the caches are those of the layers. -/
structure PrefillAdapter (C : Type) where
  familyDisplayName : String
  maxPrefillTokens : ℕ
  /-- The block size of the disk cache, if the adapter has one. -/
  diskBlockTokenCount : Option ℕ
  prefillChunkWithCache : List ℕ → List C → Except BackendError (List (List F32) × List C)

/-- What stops a prefill from outside: before or during a chunk, after it, or when the client
was told of it and the next one may not begin. -/
structure Interruptions where
  before : ℕ → Option BackendError
  after : ℕ → Option BackendError
  refused : ℕ → Option BackendError

def undisturbed : Interruptions := ⟨fun _ => none, fun _ => none, fun _ => none⟩

/-- The calls to the two caches of prefixes. -/
inductive PrefillCall (C : Type) where
  | store (tokens : List ℕ) (hidden : List F32) (caches : List C)
  | queueStore (tokens : List ℕ) (hidden : List F32) (caches : List C)

/-- What a prefill did: the tokens it gave to the model, the calls to the caches, what a
listening client was told, and what came out. -/
structure PrefillRun (C : Type) where
  fed : List ℕ
  calls : List (PrefillCall C)
  progress : List Runtime.BackendStreamProgress
  result : Except BackendError (Option (List F32) × List C)

def nativeTextCancellablePrefillChunkTokens : ℕ := 8

section Prefill

variable {C : Type} (A : PrefillAdapter C) (stops : Interruptions) (contextTokens : List ℕ)
  (cachedPrefixLen : ℕ)

def prefillChunkTokens : ℕ :=
  let limit := match A.diskBlockTokenCount with
    | some blockTokenCount => min A.maxPrefillTokens blockTokenCount
    | none => A.maxPrefillTokens
  max 1 (min limit nativeTextCancellablePrefillChunkTokens)

/-- The calls after a chunk that ends at `currentPrefixLen` and whose last hidden state is
`hidden`. -/
def callsAfterChunk (currentPrefixLen : ℕ) (hidden : Option (List F32)) (caches : List C) :
    List (PrefillCall C) :=
  match hidden with
  | none => []
  | some hidden =>
    let checkpoint := if currentPrefixLen < contextTokens.length then
      [.store (contextTokens.take currentPrefixLen) hidden caches] else []
    let offer := match A.diskBlockTokenCount with
      | some blockTokenCount => if currentPrefixLen % blockTokenCount = 0 then
          [.queueStore (contextTokens.take currentPrefixLen) hidden caches] else []
      | none => []
    checkpoint ++ offer

/-- What the client is told after a chunk. -/
def prefillProgress (completedChunks completedTokens : ℕ) : Runtime.BackendStreamProgress :=
  let uncachedPrefillTokens := contextTokens.length - cachedPrefixLen
  let chunkTokens := prefillChunkTokens A
  .prefillProgress completedChunks ((uncachedPrefillTokens + chunkTokens - 1) / chunkTokens)
    completedTokens uncachedPrefillTokens

/-- The loop over the chunks; `completedChunks` and `completedTokens` are behind. -/
def prefillLoop : (chunks : List (List ℕ)) → (completedChunks completedTokens : ℕ) →
    (prefillHidden : Option (List F32)) → (caches : List C) → PrefillRun C
  | [], _, _, prefillHidden, caches => ⟨[], [], [], .ok (prefillHidden, caches)⟩
  | chunk :: chunks, completedChunks, completedTokens, _, caches =>
    match stops.before completedChunks with
    | some e => ⟨[], [], [], .error e⟩
    | none =>
      match A.prefillChunkWithCache chunk caches with
      | .error e => ⟨chunk, [], [], .error e⟩
      | .ok (hiddenStates, caches) =>
        let completedTokens := completedTokens + chunk.length
        let calls := callsAfterChunk A contextTokens (cachedPrefixLen + completedTokens)
          hiddenStates.getLast? caches
        match stops.after completedChunks with
        | some e => ⟨chunk, calls, [], .error e⟩
        | none =>
          let progress := prefillProgress A contextTokens cachedPrefixLen (completedChunks + 1)
            completedTokens
          match stops.refused completedChunks with
          | some e => ⟨chunk, calls, [progress], .error e⟩
          | none =>
            let rest := prefillLoop chunks (completedChunks + 1) completedTokens
              hiddenStates.getLast? caches
            ⟨chunk ++ rest.fed, calls ++ rest.calls, progress :: rest.progress, rest.result⟩

/-- The chunks of the tokens that are not cached. -/
def prefillChunks : List (List ℕ) :=
  pieces (contextTokens.drop cachedPrefixLen) (prefillChunkTokens A)

/-- Everything behind the cached prefix, if there is something. -/
def prefill (hidden : Option (List F32)) (caches : List C) : PrefillRun C :=
  if cachedPrefixLen < contextTokens.length then
    let run := prefillLoop A stops contextTokens cachedPrefixLen
      (prefillChunks A contextTokens cachedPrefixLen) 0 0 none caches
    { run with
      result := run.result.bind fun r => match r.1 with
        | some hidden => .ok (some hidden, r.2)
        | none => .error (.internalInvariant
            (A.familyDisplayName ++ " prefill returned no hidden states")) }
  else ⟨[], [], [], .ok (hidden, caches)⟩

/-- The prefixes that were offered to the disk cache. -/
def offered : List (PrefillCall C) → List (List ℕ)
  | [] => []
  | .store .. :: calls => offered calls
  | .queueStore tokens .. :: calls => tokens :: offered calls

theorem offered_append : ∀ calls calls' : List (PrefillCall C),
    offered (calls ++ calls') = offered calls ++ offered calls'
  | [], _ => rfl
  | .store .. :: calls, calls' => by
    rw [List.cons_append, offered, offered, offered_append calls calls']
  | .queueStore .. :: calls, calls' => by
    rw [List.cons_append, offered, offered, offered_append calls calls', List.cons_append]

end Prefill

end KirAi.NativeRuntime
