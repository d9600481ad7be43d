/-
# Generation of the native text driver

`native_text/driver.rs` and `generation.rs`: a request is turned into prompt tokens and a
budget, its prompt is brought into layer caches of a fixed capacity, and tokens are sampled
one by one until a stop token comes or the budget is used up. The batch form returns all text
at the end, the streaming form sends what the text decoder lets out after each token and
reports the tokens with it.

The model, the sampler, the tokenizer and the two prefix caches are parameters (the adapter);
a promotion from the disk to the memory cache is part of the lookup. The random draws of a
request are a sequence. Where the request can be cancelled and where a send can fail is
`GenerationStops`. What both forms do alike is written once.

Key definitions: `nativeTextCacheTokenCapacity`, `startDecodeSession`, `nextOutput`,
`batchLoop`, `streamLoop`, `generateAsync`, `generateStreamAsync`.
-/
import KirAi.NativeRuntime.Prefill

namespace KirAi.NativeRuntime

open Lib KvCache KirAi.Runtime

/-! ### Budget and capacity -/

/-- `resolve_native_text_max_tokens` -/
def resolveNativeTextMaxTokens (requested : Option ℕ) (configuredMax : ℕ)
    (familyDisplayName : String) : Except BackendError ℕ :=
  let configuredMax := max configuredMax 1
  match requested with
  | none => .ok configuredMax
  | some 0 => .error (.unsupportedRequest "max_tokens must be greater than 0")
  | some value =>
    if value > configuredMax then
      .error (.unsupportedRequest ("requested max_tokens " ++ toString value ++
        " exceeds configured native " ++ familyDisplayName ++ " limit " ++ toString configuredMax))
    else .ok value

/-- A `u32` always fits a `usize`, so the conversions of the source do not fail. -/
def nativeTextCacheTokenCapacity (contextTokens maxNewTokens minCacheTokens
    maxPositionEmbeddings : ℕ) (familyDisplayName : String) : Except BackendError ℕ :=
  if maxPositionEmbeddings = 0 then
    .error (.config ("native " ++ familyDisplayName ++
      " model declares zero max_position_embeddings"))
  else
    match checkedAdd contextTokens maxNewTokens with
    | none => .error (.unsupportedRequest ("native " ++ familyDisplayName ++
        " context length plus generation budget overflows usize"))
    | some requestedContext =>
      if requestedContext > maxPositionEmbeddings then
        .error (.unsupportedRequest ("native " ++ familyDisplayName ++ " request needs " ++
          toString contextTokens ++ " prompt tokens plus " ++ toString maxNewTokens ++
          " generation tokens, exceeding model context limit " ++ toString maxPositionEmbeddings))
      else .ok (min (max requestedContext (max minCacheTokens 1)) maxPositionEmbeddings)

def nativeTextCacheNamespaceTokenBucket (cacheTokens maxPositionEmbeddings : ℕ) : ℕ :=
  let power := Nat.nextPowerOfTwo cacheTokens
  min (if power ≤ wordMax then power else maxPositionEmbeddings) maxPositionEmbeddings

/-! ### The adapter and the request -/

inductive SamplingConfig where
  | greedy
  | topP (temperature topP : F32)
deriving DecidableEq, Repr

def SamplingConfig.isGreedy : SamplingConfig → Bool
  | .greedy => true
  | .topP .. => false

/-- The fields that the driver reads; `prompt` is what the adapter encodes. -/
structure BackendRequest (P : Type) where
  model : String
  maxTokens : Option ℕ
  sampling : SamplingConfig
  prompt : P

inductive NativeTextCandidateDecision where
  | emit (tokenId : ℕ)
  | stop

inductive NativeTextPrefixLookupSource where
  | inMemory
  | ssd

/-- The text of the lookup's source in an error. -/
def NativeTextPrefixLookupSource.kind : NativeTextPrefixLookupSource → String
  | .inMemory => "prefix"
  | .ssd => "SSD prefix"

/-- The adapter of a model family: `S` are decode sessions, `D` text decoders. -/
structure NativeTextAdapter (P C S D : Type) extends PrefillAdapter C where
  encodePrompt : P → Except BackendError (List ℕ)
  decodeOutput : List ℕ → Except BackendError Str
  streamDecoder : D
  decoderStep : D → ℕ → Except BackendError (Option Str × D)
  observeCandidate : List ℕ → ℕ → Except BackendError NativeTextCandidateDecision
  maxPositionEmbeddings : ℕ
  /-- The memory cache's answer, or the disk cache's: for the capacity that names the
  namespace, the capacity and the prompt. -/
  prefixLookup : ℕ → ℕ → List ℕ → Option (NativeTextPrefixLookupSource × PrefixCacheHit C)
  layerCount : ℕ
  allocateCaches : ℕ → Except BackendError (List C)
  makeDecodeSession : List F32 → List C → S
  nextTokenFromHidden : S → SamplingConfig → Option F32 → Except BackendError ℕ
  step : S → ℕ → Except BackendError S
  /-- A hit is a prefix of the prompt. -/
  prefixLookup_le : ∀ {n k tokens source hit}, prefixLookup n k tokens = some (source, hit) →
    hit.tokenCount ≤ tokens.length

/-- Where the driver looks whether its request was cancelled. -/
inductive Checkpoint where
  | entry
  | validated
  | sessionStart
  | cachesReady
  | prefilled
  | started
  | stepStart (stepIdx : ℕ)
  | sampled (stepIdx : ℕ)
  | decoded (stepIdx : ℕ)
  | beforeStep (stepIdx : ℕ)
  | atEnd
deriving DecidableEq

/-- What comes from outside: cancellation, sends that fail, and a scheduler that refuses to go
on with a prefill. -/
structure GenerationStops where
  cancelled : Checkpoint → Bool
  prefill : Interruptions
  send : ℕ → Option BackendError
  sendLast : Option BackendError

structure NativeTextDriver (P C S D : Type) where
  modelId : String
  adapter : NativeTextAdapter P C S D
  maxNewTokens : ℕ

structure BackendOutput where
  text : Str
  promptTokens : ℕ
  promptCachedTokens : Option ℕ
  completionTokens : ℕ
  finishReason : BackendFinishReason
deriving DecidableEq, Repr

section Driver

variable {P C S D : Type} (driver : NativeTextDriver P C S D) (stops : GenerationStops)
  (request : BackendRequest P) (draws : ℕ → F32)

/-! ### The session -/

/-- What the start of a session did: the length of the prefix it found, the prefill and
what came out. -/
structure SessionRun (C S : Type) where
  cachedPrefixLen : ℕ
  fed : List ℕ
  calls : List (PrefillCall C)
  progress : List BackendStreamProgress
  outcome : Except BackendError S

/-- The session once its caches are there. -/
def sessionFromCaches (contextTokens : List ℕ) (cachedPrefixLen : ℕ) (hidden : Option (List F32))
    (caches : List C) : SessionRun C S :=
  if stops.cancelled .cachesReady then ⟨cachedPrefixLen, [], [], [], .error .cancelled⟩
  else
    let run := prefill driver.adapter.toPrefillAdapter stops.prefill contextTokens cachedPrefixLen
      hidden caches
    match run.result with
    | .error e => ⟨cachedPrefixLen, run.fed, run.calls, run.progress, .error e⟩
    | .ok (none, _) => ⟨cachedPrefixLen, run.fed, run.calls, run.progress, .error (.internalInvariant
        (driver.adapter.familyDisplayName ++ " prefill returned no hidden states"))⟩
    | .ok (some hidden, caches) =>
      if stops.cancelled .prefilled then
        ⟨cachedPrefixLen, run.fed, run.calls, run.progress, .error .cancelled⟩
      else
        ⟨cachedPrefixLen, run.fed, run.calls ++ [.store contextTokens hidden caches], run.progress,
          .ok (driver.adapter.makeDecodeSession hidden caches)⟩

/-- `start_decode_session_with_cache_report` -/
def startDecodeSession (contextTokens : List ℕ) (maxNewTokens : ℕ) : SessionRun C S :=
  if stops.cancelled .sessionStart then ⟨0, [], [], [], .error .cancelled⟩
  else
    let A := driver.adapter
    match nativeTextCacheTokenCapacity contextTokens.length maxNewTokens A.maxPrefillTokens
        A.maxPositionEmbeddings A.familyDisplayName with
    | .error e => ⟨0, [], [], [], .error e⟩
    | .ok cacheTokens =>
      let bucket := nativeTextCacheNamespaceTokenBucket cacheTokens A.maxPositionEmbeddings
      match A.prefixLookup bucket cacheTokens contextTokens with
      | some (source, hit) =>
        if hit.caches.length ≠ A.layerCount then
          ⟨hit.tokenCount, [], [], [], .error (.internalInvariant ("native " ++ A.familyDisplayName ++
            " " ++ source.kind ++ " cache entry had " ++ toString hit.caches.length ++
            " layers, expected " ++ toString A.layerCount))⟩
        else sessionFromCaches driver stops contextTokens hit.tokenCount (some hit.hidden) hit.caches
      | none =>
        match A.allocateCaches cacheTokens with
        | .error e => ⟨0, [], [], [], .error e⟩
        | .ok caches => sessionFromCaches driver stops contextTokens 0 none caches

/-! ### One token -/

/-- The prompt's tokens and the budget. -/
def promptAndBudget : Except BackendError (List ℕ × ℕ) :=
  if stops.cancelled .entry then .error .cancelled
  else if request.model ≠ driver.modelId then
    .error (.modelNotFound request.model driver.modelId)
  else if stops.cancelled .validated then .error .cancelled
  else
    match driver.adapter.encodePrompt request.prompt with
    | .error e => .error e
    | .ok promptTokens =>
      if promptTokens.isEmpty then
        .error (.internalInvariant
          (driver.adapter.familyDisplayName ++ " prompt encoded to zero tokens"))
      else
        (resolveNativeTextMaxTokens request.maxTokens driver.maxNewTokens
          driver.adapter.familyDisplayName).map fun requested => (promptTokens, requested)

def samplingDraw (stepIdx : ℕ) : Option F32 :=
  if request.sampling.isGreedy then none else some (draws stepIdx)

/-- The token of a step, or nothing at a stop token. -/
def nextOutput (stepIdx : ℕ) (session : S) (outputIds : List ℕ) : Except BackendError (Option ℕ) :=
  if stops.cancelled (.stepStart stepIdx) then .error .cancelled
  else
    match driver.adapter.nextTokenFromHidden session request.sampling
        (samplingDraw request draws stepIdx) with
    | .error e => .error e
    | .ok candidate =>
      if stops.cancelled (.sampled stepIdx) then .error .cancelled
      else
        match driver.adapter.observeCandidate outputIds candidate with
        | .error e => .error e
        | .ok .stop => .ok none
        | .ok (.emit tokenId) =>
          if tokenId < 2 ^ 32 then .ok (some tokenId)
          else .error (.internalInvariant (driver.adapter.familyDisplayName ++
            " token id does not fit u32: out of range integral type conversion attempted"))

/-! ### Batch -/

/-- What a loop did: the tokens given to the model, the ids put out, and how it ended. -/
structure BatchLoopRun where
  fed : List ℕ
  outputIds : List ℕ
  outcome : Except BackendError BackendFinishReason

/-- The loop of `generate_async`. -/
def batchLoop (requested : ℕ) : (remaining stepIdx : ℕ) → S → List ℕ → BatchLoopRun
  | 0, _, _, outputIds => ⟨[], outputIds, .ok .length⟩
  | remaining + 1, stepIdx, session, outputIds =>
    match nextOutput driver stops request draws stepIdx session outputIds with
    | .error e => ⟨[], outputIds, .error e⟩
    | .ok none => ⟨[], outputIds, .ok .stop⟩
    | .ok (some tokenId) =>
      let outputIds := outputIds ++ [tokenId]
      if stepIdx + 1 < requested then
        match driver.adapter.step session tokenId with
        | .error e => ⟨[tokenId], outputIds, .error e⟩
        | .ok session =>
          let rest := batchLoop requested remaining (stepIdx + 1) session outputIds
          { rest with fed := tokenId :: rest.fed }
      else batchLoop requested remaining (stepIdx + 1) session outputIds

/-- What a request did: how many tokens its caches were given, those of the prefix that was
found included, the ids put out, and what came out. -/
structure BatchRun where
  fedTokens : ℕ
  outputIds : List ℕ
  outcome : Except BackendError BackendOutput

/-- A prefill that tells nobody of its chunks is not refused one either. -/
def GenerationStops.withoutClient (stops : GenerationStops) : GenerationStops :=
  { stops with prefill := { stops.prefill with refused := fun _ => none } }

def generateAsync : BatchRun :=
  match promptAndBudget driver stops request with
  | .error e => ⟨0, [], .error e⟩
  | .ok (promptTokens, requested) =>
    let start := startDecodeSession driver stops.withoutClient promptTokens requested
    let prefilled := start.cachedPrefixLen + start.fed.length
    match start.outcome with
    | .error e => ⟨prefilled, [], .error e⟩
    | .ok session =>
      if stops.cancelled .started then ⟨prefilled, [], .error .cancelled⟩
      else
        let run := batchLoop driver stops request draws requested requested 0 session []
        ⟨prefilled + run.fed.length, run.outputIds,
          match run.outcome with
          | .error e => .error e
          | .ok finishReason =>
            (driver.adapter.decodeOutput run.outputIds).map fun text => {
              text, promptTokens := promptTokens.length
              promptCachedTokens := some start.cachedPrefixLen
              completionTokens := run.outputIds.length, finishReason }⟩

/-! ### Streaming -/

/-- What a client is sent: the text that the decoder let out, and the tokens since the last
chunk. -/
def deltaChunk (promptTokens cachedTokens : ℕ) (text : Str) (completionTokens : ℕ) :
    BackendStreamChunk where
  text := text
  promptTokens := promptTokens
  promptCachedTokens := some cachedTokens
  completionTokens := completionTokens

/-- The loop's run, the chunks sent and the tokens no chunk has reported. -/
structure StreamLoopRun where
  fed : List ℕ
  outputIds : List ℕ
  chunks : List BackendStreamChunk
  unreported : ℕ
  outcome : Except BackendError BackendFinishReason

/-- The loop of `generate_stream_async`. The count of unreported tokens stays far below the
end of `u64`, as the budget is a `u32`. -/
def streamLoop (promptTokens cachedTokens requested : ℕ) : (remaining stepIdx : ℕ) → S → List ℕ →
    (decoder : D) → (unreported : ℕ) → StreamLoopRun
  | 0, _, _, outputIds, _, unreported => ⟨[], outputIds, [], unreported, .ok .length⟩
  | remaining + 1, stepIdx, session, outputIds, decoder, unreported =>
    match nextOutput driver stops request draws stepIdx session outputIds with
    | .error e => ⟨[], outputIds, [], unreported, .error e⟩
    | .ok none => ⟨[], outputIds, [], unreported, .ok .stop⟩
    | .ok (some tokenId) =>
      let outputIds := outputIds ++ [tokenId]
      match driver.adapter.decoderStep decoder tokenId with
      | .error e => ⟨[], outputIds, [], unreported + 1, .error e⟩
      | .ok (delta, decoder) =>
        if stops.cancelled (.decoded stepIdx) then
          ⟨[], outputIds, [], unreported + 1, .error .cancelled⟩
        else
          match delta.bind fun _ => stops.send stepIdx with
          | some e => ⟨[], outputIds, [], 0, .error e⟩
          | none =>
            let sent := delta.toList.map fun text =>
              deltaChunk promptTokens cachedTokens text (unreported + 1)
            let unreported := if delta.isSome then 0 else unreported + 1
            if stepIdx + 1 < requested then
              if stops.cancelled (.beforeStep stepIdx) then
                ⟨[], outputIds, sent, unreported, .error .cancelled⟩
              else
                match driver.adapter.step session tokenId with
                | .error e => ⟨[tokenId], outputIds, sent, unreported, .error e⟩
                | .ok session =>
                  let rest := streamLoop promptTokens cachedTokens requested remaining (stepIdx + 1)
                    session outputIds decoder unreported
                  { rest with fed := tokenId :: rest.fed, chunks := sent ++ rest.chunks }
            else
              let rest := streamLoop promptTokens cachedTokens requested remaining (stepIdx + 1)
                session outputIds decoder unreported
              { rest with chunks := sent ++ rest.chunks }

structure StreamRun where
  fedTokens : ℕ
  outputIds : List ℕ
  chunks : List BackendStreamChunk
  outcome : Except BackendError Unit

/-- What the client is told of the prefill. -/
def progressChunk (promptTokens cachedTokens : ℕ) (progress : BackendStreamProgress) :
    BackendStreamChunk where
  text := []
  promptTokens := promptTokens
  promptCachedTokens := some cachedTokens
  progress := some progress

def generateStreamAsync : StreamRun :=
  match promptAndBudget driver stops request with
  | .error e => ⟨0, [], [], .error e⟩
  | .ok (promptTokens, requested) =>
    let start := startDecodeSession driver stops promptTokens requested
    let prefilled := start.cachedPrefixLen + start.fed.length
    let told := start.progress.map (progressChunk promptTokens.length start.cachedPrefixLen)
    match start.outcome with
    | .error e => ⟨prefilled, [], told, .error e⟩
    | .ok session =>
      if stops.cancelled .started then ⟨prefilled, [], told, .error .cancelled⟩
      else
        let run := streamLoop driver stops request draws promptTokens.length start.cachedPrefixLen
          requested requested 0 session [] driver.adapter.streamDecoder 0
        let fedTokens := prefilled + run.fed.length
        match run.outcome with
        | .error e => ⟨fedTokens, run.outputIds, told ++ run.chunks, .error e⟩
        | .ok finishReason =>
          if stops.cancelled .atEnd then
            ⟨fedTokens, run.outputIds, told ++ run.chunks, .error .cancelled⟩
          else
            match stops.sendLast with
            | some e => ⟨fedTokens, run.outputIds, told ++ run.chunks, .error e⟩
            | none =>
              let last := { deltaChunk promptTokens.length start.cachedPrefixLen [] run.unreported with
                finishReason := some finishReason }
              ⟨fedTokens, run.outputIds, told ++ run.chunks ++ [last], .ok ()⟩

end Driver

end KirAi.NativeRuntime
