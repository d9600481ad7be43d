/-
# Streaming and batch generation agree

The two forms of generation are two loops over one adapter. With nothing that stops them from
outside the streaming loop takes the steps of the batch loop, whatever its text decoder keeps
back, until the text decoder fails: `streamLoop_follows`. The tokens that no chunk has
reported are carried along, and the last chunk, the only one with a finish reason, reports
what is left of them.

Both forms give their caches no more tokens than `nativeTextCacheTokenCapacity` makes room
for, wherever they are stopped: the prompt goes in once, and the token of the last step never
does.

Key definitions: `quiet`, `decodeIds`, `Follows`, `requestCapacity`, `StreamEnds`.
Key theorems: `batchLoop_fed`, `streamLoop_fed`, `streamLoop_follows`, `startDecodeSession_fed`,
`stream_agrees_with_batch`.
-/
import KirAi.NativeRuntime.Generation
import KirAi.NativeRuntime.PrefillOffers

namespace KirAi.NativeRuntime

open Lib KvCache KirAi.Runtime

/-- No cancellation, and a channel that takes everything; a scheduler may still refuse to go on
with the prefill of a streaming request. -/
def quiet (refused : ℕ → Option BackendError) : GenerationStops :=
  ⟨fun _ => false, { undisturbed with refused }, fun _ => none, none⟩

section Agree

variable {P C S D : Type} (driver : NativeTextDriver P C S D) (stops : GenerationStops)
  (request : BackendRequest P) (draws : ℕ → F32) (refused : ℕ → Option BackendError)

/-- The text decoder over the ids of a run. -/
def decodeIds (A : NativeTextAdapter P C S D) : D → List ℕ → Except BackendError D
  | decoder, [] => .ok decoder
  | decoder, id :: ids =>
    match A.decoderStep decoder id with
    | .error e => .error e
    | .ok (_, decoder) => decodeIds A decoder ids

/-! ### What the caches are given -/

/-- The token of the last step of the budget is not given to the model. -/
theorem batchLoop_fed (requested : ℕ) : ∀ (remaining stepIdx : ℕ) (session : S) (outputIds : List ℕ),
    stepIdx + remaining = requested →
    (batchLoop driver stops request draws requested remaining stepIdx session outputIds).fed.length ≤
      remaining - 1
  | 0, _, _, _, _ => Nat.zero_le _
  | remaining + 1, stepIdx, session, outputIds, h => by
    rw [batchLoop]
    cases nextOutput driver stops request draws stepIdx session outputIds with
    | error e => exact Nat.zero_le _
    | ok next =>
      cases next with
      | none => exact Nat.zero_le _
      | some tokenId =>
        dsimp only
        by_cases hlast : stepIdx + 1 < requested
        · rw [if_pos hlast]
          cases driver.adapter.step session tokenId with
          | error e =>
            dsimp only [List.length_singleton]
            omega
          | ok session' =>
            have ih := batchLoop_fed requested remaining (stepIdx + 1) session' (outputIds ++ [tokenId])
              (by omega)
            dsimp only [List.length_cons]
            omega
        · rw [if_neg hlast]
          have ih := batchLoop_fed requested remaining (stepIdx + 1) session (outputIds ++ [tokenId])
            (by omega)
          omega

theorem streamLoop_fed (promptTokens cachedTokens requested : ℕ) :
    ∀ (remaining stepIdx : ℕ) (session : S) (outputIds : List ℕ) (decoder : D) (unreported : ℕ),
    stepIdx + remaining = requested →
    (streamLoop driver stops request draws promptTokens cachedTokens requested remaining stepIdx
      session outputIds decoder unreported).fed.length ≤ remaining - 1
  | 0, _, _, _, _, _, _ => Nat.zero_le _
  | remaining + 1, stepIdx, session, outputIds, decoder, unreported, h => by
    rw [streamLoop]
    cases nextOutput driver stops request draws stepIdx session outputIds with
    | error e => exact Nat.zero_le _
    | ok next =>
      cases next with
      | none => exact Nat.zero_le _
      | some tokenId =>
        dsimp only
        cases driver.adapter.decoderStep decoder tokenId with
        | error e => exact Nat.zero_le _
        | ok step =>
          obtain ⟨delta, decoder'⟩ := step
          dsimp only
          by_cases hcancelled : stops.cancelled (.decoded stepIdx)
          · rw [if_pos hcancelled]
            exact Nat.zero_le _
          · rw [if_neg hcancelled]
            cases delta.bind fun _ => stops.send stepIdx with
            | some e => exact Nat.zero_le _
            | none =>
              dsimp only
              by_cases hlast : stepIdx + 1 < requested
              · rw [if_pos hlast]
                by_cases hbefore : stops.cancelled (.beforeStep stepIdx)
                · rw [if_pos hbefore]
                  exact Nat.zero_le _
                · rw [if_neg hbefore]
                  cases driver.adapter.step session tokenId with
                  | error e =>
                    dsimp only [List.length_singleton]
                    omega
                  | ok session' =>
                    have ih := streamLoop_fed promptTokens cachedTokens requested remaining
                      (stepIdx + 1) session' (outputIds ++ [tokenId]) decoder'
                      (if delta.isSome then 0 else unreported + 1) (by omega)
                    dsimp only [List.length_cons]
                    omega
              · rw [if_neg hlast]
                have ih := streamLoop_fed promptTokens cachedTokens requested remaining
                  (stepIdx + 1) session (outputIds ++ [tokenId]) decoder'
                  (if delta.isSome then 0 else unreported + 1) (by omega)
                dsimp only
                omega

theorem prefillLoop_fed (A : PrefillAdapter C) (interruptions : Interruptions) (contextTokens : List ℕ)
    (cachedPrefixLen : ℕ) : ∀ (chunks : List (List ℕ)) (completedChunks completedTokens : ℕ)
      (hidden : Option (List F32)) (caches : List C),
    (prefillLoop A interruptions contextTokens cachedPrefixLen chunks completedChunks completedTokens
      hidden caches).fed.length ≤ chunks.flatten.length
  | [], _, _, _, _ => Nat.zero_le _
  | chunk :: chunks, completedChunks, completedTokens, _, caches => by
    have hchunk : chunk.length ≤ (chunk :: chunks).flatten.length := by
      rw [List.flatten_cons, List.length_append]
      exact Nat.le_add_right _ _
    rw [prefillLoop]
    cases interruptions.before completedChunks with
    | some e => exact Nat.zero_le _
    | none =>
      dsimp only
      cases A.prefillChunkWithCache chunk caches with
      | error e => exact hchunk
      | ok answer =>
        obtain ⟨states, caches'⟩ := answer
        dsimp only
        cases interruptions.after completedChunks with
        | some e => exact hchunk
        | none =>
          dsimp only
          cases interruptions.refused completedChunks with
          | some e => exact hchunk
          | none =>
            have ih := prefillLoop_fed A interruptions contextTokens cachedPrefixLen chunks
              (completedChunks + 1) (completedTokens + chunk.length) states.getLast? caches'
            rw [List.flatten_cons, List.length_append, List.length_append]
            exact Nat.add_le_add_left ih _

theorem prefill_fed (A : PrefillAdapter C) (interruptions : Interruptions) (contextTokens : List ℕ)
    {cachedPrefixLen : ℕ} (hle : cachedPrefixLen ≤ contextTokens.length) (hidden : Option (List F32))
    (caches : List C) :
    cachedPrefixLen + (prefill A interruptions contextTokens cachedPrefixLen hidden caches).fed.length ≤
      contextTokens.length := by
  have hchunks : (prefillChunks A contextTokens cachedPrefixLen).flatten.length ≤
      contextTokens.length - cachedPrefixLen := by
    rw [prefillChunks, pieces, flatten_slices, List.length_take, List.length_drop]
    exact Nat.min_le_right _ _
  rw [prefill]
  by_cases hlt : cachedPrefixLen < contextTokens.length
  · rw [if_pos hlt]
    have hloop := prefillLoop_fed A interruptions contextTokens cachedPrefixLen
      (prefillChunks A contextTokens cachedPrefixLen) 0 0 none caches
    dsimp only
    omega
  · rw [if_neg hlt]
    exact hle

theorem sessionFromCaches_fed (contextTokens : List ℕ) {cachedPrefixLen : ℕ}
    (hle : cachedPrefixLen ≤ contextTokens.length) (hidden : Option (List F32)) (caches : List C) :
    (sessionFromCaches driver stops contextTokens cachedPrefixLen hidden caches).cachedPrefixLen +
        (sessionFromCaches driver stops contextTokens cachedPrefixLen hidden caches).fed.length ≤
      contextTokens.length := by
  have hprefill := prefill_fed driver.adapter.toPrefillAdapter stops.prefill contextTokens hle hidden caches
  rw [sessionFromCaches]
  by_cases hcancelled : stops.cancelled .cachesReady
  · rw [if_pos hcancelled]
    exact hle
  · rw [if_neg hcancelled]
    dsimp only
    cases (prefill driver.adapter.toPrefillAdapter stops.prefill contextTokens cachedPrefixLen hidden
      caches).result with
    | error e => exact hprefill
    | ok r =>
      obtain ⟨hidden', caches'⟩ := r
      cases hidden' with
      | none => exact hprefill
      | some hidden' =>
        dsimp only
        by_cases hdone : stops.cancelled .prefilled
        · rw [if_pos hdone]
          exact hprefill
        · rw [if_neg hdone]
          exact hprefill

/-- A session begins with no more tokens in its caches than the prompt has, and with none if
there is no capacity for the request. -/
theorem startDecodeSession_fed (contextTokens : List ℕ) (maxNewTokens : ℕ) :
    (startDecodeSession driver stops contextTokens maxNewTokens).cachedPrefixLen +
        (startDecodeSession driver stops contextTokens maxNewTokens).fed.length ≤
      contextTokens.length := by
  rw [startDecodeSession]
  by_cases hcancelled : stops.cancelled .sessionStart
  · rw [if_pos hcancelled]
    exact Nat.zero_le _
  · rw [if_neg hcancelled]
    dsimp only
    cases nativeTextCacheTokenCapacity contextTokens.length maxNewTokens driver.adapter.maxPrefillTokens
      driver.adapter.maxPositionEmbeddings driver.adapter.familyDisplayName with
    | error e => exact Nat.zero_le _
    | ok cacheTokens =>
      dsimp only
      cases hlookup : driver.adapter.prefixLookup (nativeTextCacheNamespaceTokenBucket cacheTokens
        driver.adapter.maxPositionEmbeddings) cacheTokens contextTokens with
      | none =>
        dsimp only
        cases driver.adapter.allocateCaches cacheTokens with
        | error e => exact Nat.zero_le _
        | ok caches => exact sessionFromCaches_fed driver stops contextTokens (Nat.zero_le _) none caches
      | some found =>
        obtain ⟨source, hit⟩ := found
        have hle := driver.adapter.prefixLookup_le hlookup
        dsimp only
        by_cases hlayers : hit.caches.length ≠ driver.adapter.layerCount
        · rw [if_pos hlayers]
          exact hle
        · rw [if_neg hlayers]
          exact sessionFromCaches_fed driver stops contextTokens hle (some hit.hidden) hit.caches

/-- The capacity that a request asks its caches for. -/
def requestCapacity : Except BackendError ℕ :=
  (promptAndBudget driver stops request).bind fun p =>
    nativeTextCacheTokenCapacity p.1.length p.2 driver.adapter.maxPrefillTokens
      driver.adapter.maxPositionEmbeddings driver.adapter.familyDisplayName

theorem le_nativeTextCacheTokenCapacity {contextTokens maxNewTokens minCacheTokens
    maxPositionEmbeddings capacity : ℕ} {familyDisplayName : String}
    (h : nativeTextCacheTokenCapacity contextTokens maxNewTokens minCacheTokens
      maxPositionEmbeddings familyDisplayName = .ok capacity) :
    contextTokens + maxNewTokens ≤ capacity := by
  rw [nativeTextCacheTokenCapacity] at h
  by_cases hzero : maxPositionEmbeddings = 0
  · rw [if_pos hzero] at h
    cases h
  · rw [if_neg hzero] at h
    cases hadd : checkedAdd contextTokens maxNewTokens with
    | none =>
      rw [hadd] at h
      cases h
    | some requestedContext =>
      obtain ⟨-, hsum⟩ := checkedAdd_eq_some.mp hadd
      rw [hadd] at h
      dsimp only at h
      by_cases hlimit : requestedContext > maxPositionEmbeddings
      · rw [if_pos hlimit] at h
        cases h
      · rw [if_neg hlimit] at h
        have hcapacity := Except.ok.inj h
        omega

/-- Without a capacity no session starts. -/
theorem startDecodeSession_no_capacity {contextTokens : List ℕ} {maxNewTokens : ℕ} {e : BackendError}
    (h : nativeTextCacheTokenCapacity contextTokens.length maxNewTokens driver.adapter.maxPrefillTokens
      driver.adapter.maxPositionEmbeddings driver.adapter.familyDisplayName = .error e) :
    ∃ e', startDecodeSession driver stops contextTokens maxNewTokens = ⟨0, [], [], [], .error e'⟩ := by
  rw [startDecodeSession]
  by_cases hcancelled : stops.cancelled .sessionStart
  · rw [if_pos hcancelled]
    exact ⟨_, rfl⟩
  · rw [if_neg hcancelled]
    dsimp only
    rw [h]
    exact ⟨e, rfl⟩

/-- What the caches of a request were given fits its capacity. -/
def WithinCapacity (fedTokens : ℕ) : Prop :=
  match requestCapacity driver stops request with
  | .error _ => fedTokens = 0
  | .ok capacity => fedTokens ≤ capacity

theorem withinCapacity_of {fedTokens : ℕ}
    (herror : ∀ e, promptAndBudget driver stops request = .error e → fedTokens = 0)
    (hok : ∀ promptTokens requested,
      promptAndBudget driver stops request = .ok (promptTokens, requested) →
      fedTokens ≤ promptTokens.length + requested ∧
        ((∃ e, nativeTextCacheTokenCapacity promptTokens.length requested
          driver.adapter.maxPrefillTokens driver.adapter.maxPositionEmbeddings
          driver.adapter.familyDisplayName = .error e) → fedTokens = 0)) :
    WithinCapacity driver stops request fedTokens := by
  rw [WithinCapacity, requestCapacity]
  cases hp : promptAndBudget driver stops request with
  | error e => exact herror e hp
  | ok p =>
    obtain ⟨hle, hnone⟩ := hok p.1 p.2 hp
    rw [Except.bind]
    cases hcapacity : nativeTextCacheTokenCapacity p.1.length p.2 driver.adapter.maxPrefillTokens
      driver.adapter.maxPositionEmbeddings driver.adapter.familyDisplayName with
    | error e => exact hnone ⟨e, hcapacity⟩
    | ok capacity => exact le_trans hle (le_nativeTextCacheTokenCapacity hcapacity)

theorem generateAsync_fed :
    WithinCapacity driver stops request (generateAsync driver stops request draws).fedTokens := by
  refine withinCapacity_of driver stops request (fun e h => ?_) fun promptTokens requested h => ?_
  · rw [generateAsync, h]
  · have hstart := startDecodeSession_fed driver stops.withoutClient promptTokens requested
    rw [generateAsync, h]
    dsimp only
    constructor
    · cases (startDecodeSession driver stops.withoutClient promptTokens requested).outcome with
      | error e =>
        dsimp only
        omega
      | ok session =>
        have hloop := batchLoop_fed driver stops request draws requested requested 0 session []
          (Nat.zero_add _)
        dsimp only
        by_cases hstarted : stops.cancelled .started
        · rw [if_pos hstarted]
          dsimp only
          omega
        · rw [if_neg hstarted]
          dsimp only
          omega
    · rintro ⟨e, he⟩
      obtain ⟨e', hnone⟩ := startDecodeSession_no_capacity driver stops.withoutClient he
      rw [hnone]
      rfl

theorem generateStreamAsync_fed :
    WithinCapacity driver stops request (generateStreamAsync driver stops request draws).fedTokens := by
  refine withinCapacity_of driver stops request (fun e h => ?_) fun promptTokens requested h => ?_
  · rw [generateStreamAsync, h]
  · have hstart := startDecodeSession_fed driver stops promptTokens requested
    rw [generateStreamAsync, h]
    dsimp only
    constructor
    · cases (startDecodeSession driver stops promptTokens requested).outcome with
      | error e =>
        dsimp only
        omega
      | ok session =>
        have hloop := streamLoop_fed driver stops request draws promptTokens.length
          (startDecodeSession driver stops promptTokens requested).cachedPrefixLen requested requested 0
          session [] driver.adapter.streamDecoder 0 (Nat.zero_add _)
        dsimp only
        by_cases hstarted : stops.cancelled .started
        · rw [if_pos hstarted]
          dsimp only
          omega
        · rw [if_neg hstarted]
          have hfed : (startDecodeSession driver stops promptTokens requested).cachedPrefixLen +
              (startDecodeSession driver stops promptTokens requested).fed.length +
              (streamLoop driver stops request draws promptTokens.length
                (startDecodeSession driver stops promptTokens requested).cachedPrefixLen requested
                requested 0 session [] driver.adapter.streamDecoder 0).fed.length ≤
              promptTokens.length + requested := by omega
          cases (streamLoop driver stops request draws promptTokens.length
            (startDecodeSession driver stops promptTokens requested).cachedPrefixLen requested requested
            0 session [] driver.adapter.streamDecoder 0).outcome with
          | error e => exact hfed
          | ok finishReason =>
            dsimp only
            by_cases hend : stops.cancelled .atEnd
            · rw [if_pos hend]
              exact hfed
            · rw [if_neg hend]
              cases stops.sendLast with
              | some e => exact hfed
              | none => exact hfed
    · rintro ⟨e, he⟩
      obtain ⟨e', hnone⟩ := startDecodeSession_no_capacity driver stops he
      rw [hnone]
      rfl

/-! ### One loop follows the other -/

/-- The tokens that a list of chunks reports. -/
def reported (chunks : List BackendStreamChunk) : ℕ := (chunks.map (·.completionTokens)).sum

/-- How a streaming loop that put out the ids `new` ended beside the batch loop: as the text
decoder failed on them, or alike, with each of them reported or counted as unreported. -/
def Follows (decoder : D) (unreported : ℕ) (new : List ℕ) (batch : BatchLoopRun)
    (stream : StreamLoopRun) : Prop :=
  match decodeIds driver.adapter decoder new with
  | .error e => stream.outcome = .error e ∧ stream.outputIds <+: batch.outputIds
  | .ok _ => stream.outputIds = batch.outputIds ∧ stream.outcome = batch.outcome ∧
      reported stream.chunks + stream.unreported = unreported + new.length

/-- A step that both loops take. -/
theorem Follows.cons {decoder decoder' : D} {tokenId : ℕ} {delta : Option Str} {unreported : ℕ}
    {new : List ℕ} {batch : BatchLoopRun} {stream : StreamLoopRun} (fed : List ℕ)
    (promptTokens cachedTokens : ℕ)
    (hstep : driver.adapter.decoderStep decoder tokenId = .ok (delta, decoder'))
    (h : Follows driver decoder' (if delta.isSome then 0 else unreported + 1) new batch stream) :
    Follows driver decoder unreported (tokenId :: new) { batch with fed := fed }
      { stream with
        fed := fed
        chunks := (delta.toList.map fun text =>
          deltaChunk promptTokens cachedTokens text (unreported + 1)) ++ stream.chunks } := by
  rw [Follows] at h ⊢
  rw [decodeIds, hstep]
  dsimp only
  cases hdecode : decodeIds driver.adapter decoder' new with
  | error e =>
    rw [hdecode] at h
    exact h
  | ok last =>
    rw [hdecode] at h
    obtain ⟨hids, houtcome, hcount⟩ := h
    refine ⟨hids, houtcome, ?_⟩
    rw [reported] at hcount
    rw [reported, List.map_append, List.sum_append, List.length_cons]
    cases delta with
    | none =>
      rw [if_neg (by simp)] at hcount
      simp only [Option.toList_none, List.map_nil, List.sum_nil]
      omega
    | some text =>
      rw [if_pos (by simp)] at hcount
      simp only [Option.toList_some, List.map_cons, List.map_nil, List.sum_cons, List.sum_nil, deltaChunk]
      omega

theorem batchLoop_outputIds (requested : ℕ) : ∀ (remaining stepIdx : ℕ) (session : S)
    (outputIds : List ℕ), ∃ new,
    (batchLoop driver stops request draws requested remaining stepIdx session outputIds).outputIds =
      outputIds ++ new
  | 0, _, _, outputIds => ⟨[], (List.append_nil _).symm⟩
  | remaining + 1, stepIdx, session, outputIds => by
    rw [batchLoop]
    cases nextOutput driver stops request draws stepIdx session outputIds with
    | error e => exact ⟨[], (List.append_nil _).symm⟩
    | ok next =>
      cases next with
      | none => exact ⟨[], (List.append_nil _).symm⟩
      | some tokenId =>
        dsimp only
        by_cases hlast : stepIdx + 1 < requested
        · rw [if_pos hlast]
          cases driver.adapter.step session tokenId with
          | error e => exact ⟨[tokenId], rfl⟩
          | ok session' =>
            obtain ⟨new, hnew⟩ := batchLoop_outputIds requested remaining (stepIdx + 1) session'
              (outputIds ++ [tokenId])
            exact ⟨tokenId :: new, by rw [hnew, List.append_assoc, List.singleton_append]⟩
        · rw [if_neg hlast]
          obtain ⟨new, hnew⟩ := batchLoop_outputIds requested remaining (stepIdx + 1) session
            (outputIds ++ [tokenId])
          exact ⟨tokenId :: new, by rw [hnew, List.append_assoc, List.singleton_append]⟩

/-- Left alone, the streaming loop takes the steps of the batch loop. -/
theorem streamLoop_follows (promptTokens cachedTokens requested : ℕ) :
    ∀ (remaining stepIdx : ℕ) (session : S) (outputIds : List ℕ) (decoder : D) (unreported : ℕ),
    ∃ new, (batchLoop driver (quiet refused) request draws requested remaining stepIdx session
        outputIds).outputIds = outputIds ++ new ∧
      Follows driver decoder unreported new
        (batchLoop driver (quiet refused) request draws requested remaining stepIdx session outputIds)
        (streamLoop driver (quiet refused) request draws promptTokens cachedTokens requested remaining stepIdx
          session outputIds decoder unreported)
  | 0, _, _, outputIds, _, unreported =>
    ⟨[], (List.append_nil _).symm, rfl, rfl, Nat.zero_add _⟩
  | remaining + 1, stepIdx, session, outputIds, decoder, unreported => by
    rw [batchLoop, streamLoop]
    cases nextOutput driver (quiet refused) request draws stepIdx session outputIds with
    | error e => exact ⟨[], (List.append_nil _).symm, rfl, rfl, Nat.zero_add _⟩
    | ok next =>
      cases next with
      | none => exact ⟨[], (List.append_nil _).symm, rfl, rfl, Nat.zero_add _⟩
      | some tokenId =>
        dsimp only
        cases hstep : driver.adapter.decoderStep decoder tokenId with
        | error e =>
          -- the batch loop goes on, the streaming loop ends with the text decoder's error
          have hfirst : ∀ {new : List ℕ} {batch : BatchLoopRun},
              batch.outputIds = (outputIds ++ [tokenId]) ++ new →
              ∃ new', batch.outputIds = outputIds ++ new' ∧
                Follows driver decoder unreported new' batch
                  ⟨[], outputIds ++ [tokenId], [], unreported + 1, .error e⟩ := by
            intro new batch hnew
            refine ⟨tokenId :: new, by rw [hnew, List.append_assoc, List.singleton_append], ?_⟩
            rw [Follows, decodeIds, hstep]
            exact ⟨rfl, new, hnew.symm⟩
          by_cases hlast : stepIdx + 1 < requested
          · rw [if_pos hlast]
            cases driver.adapter.step session tokenId with
            | error e' => exact hfirst (List.append_nil _).symm
            | ok session' =>
              obtain ⟨new, hnew⟩ := batchLoop_outputIds driver (quiet refused) request draws requested remaining
                (stepIdx + 1) session' (outputIds ++ [tokenId])
              exact hfirst hnew
          · rw [if_neg hlast]
            obtain ⟨new, hnew⟩ := batchLoop_outputIds driver (quiet refused) request draws requested remaining
              (stepIdx + 1) session (outputIds ++ [tokenId])
            exact hfirst hnew
        | ok step =>
          obtain ⟨delta, decoder'⟩ := step
          have hsend : (delta.bind fun _ => (quiet refused).send stepIdx) = none := by cases delta <;> rfl
          have hquiet : ∀ checkpoint, ¬ (quiet refused).cancelled checkpoint = true := fun _ => Bool.false_ne_true
          dsimp only
          rw [if_neg (hquiet _), hsend]
          dsimp only
          by_cases hlast : stepIdx + 1 < requested
          · rw [if_pos hlast, if_pos hlast, if_neg (hquiet _)]
            cases driver.adapter.step session tokenId with
            | error e =>
              have hdone : Follows driver decoder' (if delta.isSome then 0 else unreported + 1) []
                  ⟨[tokenId], outputIds ++ [tokenId], .error e⟩
                  ⟨[tokenId], outputIds ++ [tokenId], [], if delta.isSome then 0 else unreported + 1,
                    .error e⟩ := ⟨rfl, rfl, Nat.zero_add _⟩
              have hcons := Follows.cons driver [tokenId] promptTokens cachedTokens hstep hdone
              dsimp only at hcons
              rw [List.append_nil] at hcons
              exact ⟨[tokenId], rfl, hcons⟩
            | ok session' =>
              obtain ⟨new, hnew, hrest⟩ := streamLoop_follows promptTokens cachedTokens requested
                remaining (stepIdx + 1) session' (outputIds ++ [tokenId]) decoder'
                (if delta.isSome then 0 else unreported + 1)
              refine ⟨tokenId :: new, by rw [hnew, List.append_assoc, List.singleton_append], ?_⟩
              exact Follows.cons driver _ promptTokens cachedTokens hstep hrest
          · rw [if_neg hlast, if_neg hlast]
            obtain ⟨new, hnew, hrest⟩ := streamLoop_follows promptTokens cachedTokens requested
              remaining (stepIdx + 1) session (outputIds ++ [tokenId]) decoder'
              (if delta.isSome then 0 else unreported + 1)
            refine ⟨tokenId :: new, by rw [hnew, List.append_assoc, List.singleton_append], ?_⟩
            exact Follows.cons driver _ promptTokens cachedTokens hstep hrest

/-! ### A session that was refused a chunk -/

/-- A scheduler refused with this error. -/
def Refusal (e : BackendError) : Prop := ∃ k, refused k = some e

theorem prefillLoop_refused (A : PrefillAdapter C) (contextTokens : List ℕ) (cachedPrefixLen : ℕ) :
    ∀ (chunks : List (List ℕ)) (completedChunks completedTokens : ℕ) (hidden : Option (List F32))
      (caches : List C),
    (∃ e, Refusal refused e ∧ (prefillLoop A { undisturbed with refused } contextTokens
      cachedPrefixLen chunks completedChunks completedTokens hidden caches).result = .error e) ∨
    prefillLoop A { undisturbed with refused } contextTokens cachedPrefixLen chunks completedChunks
        completedTokens hidden caches =
      prefillLoop A undisturbed contextTokens cachedPrefixLen chunks completedChunks completedTokens
        hidden caches
  | [], _, _, _, _ => .inr rfl
  | chunk :: chunks, completedChunks, completedTokens, _, caches => by
    rw [prefillLoop, prefillLoop]
    dsimp only [undisturbed]
    cases A.prefillChunkWithCache chunk caches with
    | error e => exact .inr rfl
    | ok answer =>
      obtain ⟨states, caches'⟩ := answer
      dsimp only
      cases hrefused : refused completedChunks with
      | some e => exact .inl ⟨e, ⟨completedChunks, hrefused⟩, rfl⟩
      | none =>
        rcases prefillLoop_refused A contextTokens cachedPrefixLen chunks (completedChunks + 1)
          (completedTokens + chunk.length) states.getLast? caches' with ⟨e, he, hresult⟩ | heq
        · exact .inl ⟨e, he, hresult⟩
        · right
          dsimp only [undisturbed] at heq
          dsimp only
          rw [heq]

theorem sessionFromCaches_refused (contextTokens : List ℕ) (cachedPrefixLen : ℕ)
    (hidden : Option (List F32)) (caches : List C) :
    (∃ e, Refusal refused e ∧ (sessionFromCaches driver (quiet refused) contextTokens cachedPrefixLen
      hidden caches).outcome = .error e) ∨
    sessionFromCaches driver (quiet refused) contextTokens cachedPrefixLen hidden caches =
      sessionFromCaches driver (quiet refused).withoutClient contextTokens cachedPrefixLen hidden
        caches := by
  have hloop := prefillLoop_refused refused driver.adapter.toPrefillAdapter contextTokens
    cachedPrefixLen (prefillChunks driver.adapter.toPrefillAdapter contextTokens cachedPrefixLen) 0 0
    none caches
  have hcalm : (quiet refused).withoutClient.prefill = undisturbed := rfl
  have hprefill : (quiet refused).prefill = { undisturbed with refused } := rfl
  have hquiet : ∀ checkpoint, ¬ (quiet refused).cancelled checkpoint = true :=
    fun _ => Bool.false_ne_true
  have hcalmQuiet : ∀ checkpoint, ¬ (quiet refused).withoutClient.cancelled checkpoint = true :=
    fun _ => Bool.false_ne_true
  rw [sessionFromCaches, sessionFromCaches, if_neg (hquiet _), if_neg (hcalmQuiet _), hcalm, hprefill,
    prefill, prefill]
  by_cases hlt : cachedPrefixLen < contextTokens.length
  · rw [if_pos hlt, if_pos hlt]
    rcases hloop with ⟨e, he, hresult⟩ | heq
    · left
      refine ⟨e, he, ?_⟩
      dsimp only
      rw [hresult]
      rfl
    · right
      rw [heq]
      rfl
  · rw [if_neg hlt, if_neg hlt]
    exact .inr rfl

theorem startDecodeSession_refused (contextTokens : List ℕ) (maxNewTokens : ℕ) :
    (∃ e, Refusal refused e ∧
      (startDecodeSession driver (quiet refused) contextTokens maxNewTokens).outcome = .error e) ∨
    startDecodeSession driver (quiet refused) contextTokens maxNewTokens =
      startDecodeSession driver (quiet refused).withoutClient contextTokens maxNewTokens := by
  have hquiet : ¬ (quiet refused).cancelled .sessionStart = true := Bool.false_ne_true
  have hcalmQuiet : ¬ (quiet refused).withoutClient.cancelled .sessionStart = true :=
    Bool.false_ne_true
  rw [startDecodeSession, startDecodeSession, if_neg hquiet, if_neg hcalmQuiet]
  dsimp only
  cases nativeTextCacheTokenCapacity contextTokens.length maxNewTokens driver.adapter.maxPrefillTokens
    driver.adapter.maxPositionEmbeddings driver.adapter.familyDisplayName with
  | error e => exact .inr rfl
  | ok cacheTokens =>
    dsimp only
    cases driver.adapter.prefixLookup (nativeTextCacheNamespaceTokenBucket cacheTokens
      driver.adapter.maxPositionEmbeddings) cacheTokens contextTokens with
    | none =>
      dsimp only
      cases driver.adapter.allocateCaches cacheTokens with
      | error e => exact .inr rfl
      | ok caches => exact sessionFromCaches_refused driver refused contextTokens 0 none caches
    | some found =>
      obtain ⟨source, hit⟩ := found
      dsimp only
      by_cases hlayers : hit.caches.length ≠ driver.adapter.layerCount
      · rw [if_pos hlayers, if_pos hlayers]
        exact .inr rfl
      · rw [if_neg hlayers, if_neg hlayers]
        exact sessionFromCaches_refused driver refused contextTokens hit.tokenCount (some hit.hidden)
          hit.caches

/-! ### The two forms -/

/-- No chunk of a loop has a finish reason. -/
theorem streamLoop_unfinished (promptTokens cachedTokens requested : ℕ) :
    ∀ (remaining stepIdx : ℕ) (session : S) (outputIds : List ℕ) (decoder : D) (unreported : ℕ),
    ∀ chunk ∈ (streamLoop driver stops request draws promptTokens cachedTokens requested remaining
      stepIdx session outputIds decoder unreported).chunks, chunk.finishReason = none
  | 0, _, _, _, _, _ => nofun
  | remaining + 1, stepIdx, session, outputIds, decoder, unreported => by
    rw [streamLoop]
    cases nextOutput driver stops request draws stepIdx session outputIds with
    | error e => exact nofun
    | ok next =>
      cases next with
      | none => exact nofun
      | some tokenId =>
        dsimp only
        cases driver.adapter.decoderStep decoder tokenId with
        | error e => exact nofun
        | ok step =>
          obtain ⟨delta, decoder'⟩ := step
          have hsent : ∀ chunk ∈ delta.toList.map fun text =>
              deltaChunk promptTokens cachedTokens text (unreported + 1), chunk.finishReason = none := by
            intro chunk hchunk
            obtain ⟨text, -, rfl⟩ := List.mem_map.mp hchunk
            rfl
          have hrest := fun session' => streamLoop_unfinished promptTokens cachedTokens requested
            remaining (stepIdx + 1) session' (outputIds ++ [tokenId]) decoder'
            (if delta.isSome then 0 else unreported + 1)
          dsimp only
          by_cases hcancelled : stops.cancelled (.decoded stepIdx)
          · rw [if_pos hcancelled]
            exact nofun
          · rw [if_neg hcancelled]
            cases delta.bind fun _ => stops.send stepIdx with
            | some e => exact nofun
            | none =>
              dsimp only
              by_cases hlast : stepIdx + 1 < requested
              · rw [if_pos hlast]
                by_cases hbefore : stops.cancelled (.beforeStep stepIdx)
                · rw [if_pos hbefore]
                  exact hsent
                · rw [if_neg hbefore]
                  cases driver.adapter.step session tokenId with
                  | error e => exact hsent
                  | ok session' =>
                    exact List.forall_mem_append.mpr ⟨hsent, hrest session'⟩
              · rw [if_neg hlast]
                exact List.forall_mem_append.mpr ⟨hsent, hrest session⟩

/-- What a client of a finished stream was sent: one chunk with a finish reason, at the end, and
a report of every token; the batch form answers with that reason and that many tokens. -/
def StreamEnds (outputIds : List ℕ) (chunks : List BackendStreamChunk)
    (batch : Except BackendError BackendOutput) : Prop :=
  ∃ front last reason, chunks = front ++ [last] ∧ (∀ chunk ∈ front, chunk.finishReason = none) ∧
    last.finishReason = some reason ∧ reported chunks = outputIds.length ∧
    match driver.adapter.decodeOutput outputIds with
    | .error e => batch = .error e
    | .ok text => ∃ output, batch = .ok output ∧ output.text = text ∧ output.finishReason = reason ∧
        output.completionTokens = reported chunks

/-- The two runs agree, up to an error of the text decoder, which only the streaming form steps
while it generates. -/
def RunsAgree (batch : BatchRun) (stream : StreamRun) : Prop :=
  match decodeIds driver.adapter driver.adapter.streamDecoder batch.outputIds with
  | .error e => stream.outcome = .error e ∧ stream.outputIds <+: batch.outputIds
  | .ok _ => stream.outputIds = batch.outputIds ∧
      match stream.outcome with
      | .error e => batch.outcome = .error e
      | .ok () => StreamEnds driver batch.outputIds stream.chunks batch.outcome

/-- From one session the two loops and what is made of them agree. -/
theorem runsAgree_of_loops (promptTokens cachedTokens requested : ℕ) (session : S)
    (told : List BackendStreamChunk) (htold : ∀ chunk ∈ told, chunk.finishReason = none)
    (hnothing : reported told = 0) (prefilled prefilled' : ℕ) :
    let batch := batchLoop driver (quiet refused) request draws requested requested 0 session []
    let stream := streamLoop driver (quiet refused) request draws promptTokens cachedTokens requested
      requested 0 session [] driver.adapter.streamDecoder 0
    RunsAgree driver
      ⟨prefilled, batch.outputIds,
        match batch.outcome with
        | .error e => .error e
        | .ok finishReason =>
          (driver.adapter.decodeOutput batch.outputIds).map fun text => {
            text, promptTokens, promptCachedTokens := some cachedTokens
            completionTokens := batch.outputIds.length, finishReason }⟩
      (match stream.outcome with
        | .error e => ⟨prefilled', stream.outputIds, told ++ stream.chunks, .error e⟩
        | .ok finishReason => ⟨prefilled', stream.outputIds,
            told ++ stream.chunks ++ [{ deltaChunk promptTokens cachedTokens [] stream.unreported with
              finishReason := some finishReason }], .ok ()⟩) := by
  intro batch stream
  obtain ⟨new, hnew, hfollows⟩ := streamLoop_follows driver request draws refused promptTokens
    cachedTokens requested requested 0 session [] driver.adapter.streamDecoder 0
  have hchunks : ∀ chunk ∈ stream.chunks, chunk.finishReason = none :=
    streamLoop_unfinished driver (quiet refused) request draws promptTokens cachedTokens requested
      requested 0 session [] driver.adapter.streamDecoder 0
  change batch.outputIds = [] ++ new at hnew
  change Follows driver driver.adapter.streamDecoder 0 new batch stream at hfollows
  rw [List.nil_append] at hnew
  rw [Follows] at hfollows
  rw [RunsAgree]
  dsimp only
  rw [hnew]
  cases hdecode : decodeIds driver.adapter driver.adapter.streamDecoder new with
  | error e =>
    rw [hdecode] at hfollows
    obtain ⟨houtcome, hids⟩ := hfollows
    dsimp only
    rw [houtcome, ← hnew]
    exact ⟨rfl, hids⟩
  | ok decoder =>
    rw [hdecode] at hfollows
    obtain ⟨hids, houtcome, hcount⟩ := hfollows
    dsimp only
    rw [hnew] at hids
    cases hend : stream.outcome with
    | error e =>
      rw [← houtcome, hend]
      exact ⟨hids, rfl⟩
    | ok finishReason =>
      rw [← houtcome, hend]
      refine ⟨hids, told ++ stream.chunks, _, finishReason, rfl,
        List.forall_mem_append.mpr ⟨htold, hchunks⟩, rfl, ?_⟩
      have hreported : reported (told ++ stream.chunks ++
          [{ deltaChunk promptTokens cachedTokens [] stream.unreported with
            finishReason := some finishReason }]) = new.length := by
        rw [reported] at hnothing hcount
        rw [reported, List.map_append, List.sum_append, List.map_append, List.sum_append, hnothing]
        simp only [List.map_cons, List.map_nil, List.sum_cons, List.sum_nil, deltaChunk]
        omega
      refine ⟨hreported, ?_⟩
      dsimp only
      cases driver.adapter.decodeOutput new with
      | error e => rfl
      | ok text => exact ⟨_, rfl, rfl, rfl, hreported.symm⟩

theorem reported_progress (promptTokens cachedTokens : ℕ) : ∀ progress : List BackendStreamProgress,
    reported (progress.map (progressChunk promptTokens cachedTokens)) = 0
  | [] => rfl
  | _ :: progress => by
    rw [List.map_cons, reported, List.map_cons, List.sum_cons]
    exact (Nat.zero_add _).trans (reported_progress promptTokens cachedTokens progress)

/-- Streaming and batch generation from one state put out the same ids and end alike; both stay
within the capacity of the request's caches, also when they are stopped. -/
theorem stream_agrees_with_batch :
    ((∃ e, Refusal refused e ∧
        (generateStreamAsync driver (quiet refused) request draws).outcome = .error e) ∨
      RunsAgree driver (generateAsync driver (quiet refused) request draws)
        (generateStreamAsync driver (quiet refused) request draws)) ∧
    ∀ stops,
      WithinCapacity driver stops request (generateAsync driver stops request draws).fedTokens ∧
      WithinCapacity driver stops request (generateStreamAsync driver stops request draws).fedTokens := by
  refine ⟨?_, fun stops => ⟨generateAsync_fed driver stops request draws,
    generateStreamAsync_fed driver stops request draws⟩⟩
  have hquiet : ∀ checkpoint, ¬ (quiet refused).cancelled checkpoint = true :=
    fun _ => Bool.false_ne_true
  rw [generateAsync, generateStreamAsync]
  cases promptAndBudget driver (quiet refused) request with
  | error e => exact .inr ⟨rfl, rfl⟩
  | ok p =>
    obtain ⟨promptTokens, requested⟩ := p
    dsimp only
    rcases startDecodeSession_refused driver refused promptTokens requested with ⟨e, he, hstart⟩ | hstart
    · left
      refine ⟨e, he, ?_⟩
      rw [hstart]
    · right
      rw [hstart]
      cases (startDecodeSession driver (quiet refused).withoutClient promptTokens requested).outcome with
      | error e => exact ⟨rfl, rfl⟩
      | ok session =>
        dsimp only
        rw [if_neg (hquiet _), if_neg (hquiet _)]
        have htold : ∀ chunk ∈ (startDecodeSession driver (quiet refused).withoutClient promptTokens
            requested).progress.map (progressChunk promptTokens.length (startDecodeSession driver
              (quiet refused).withoutClient promptTokens requested).cachedPrefixLen),
            chunk.finishReason = none := by
          intro chunk hchunk
          obtain ⟨progress, -, rfl⟩ := List.mem_map.mp hchunk
          rfl
        have hagree := runsAgree_of_loops driver request draws refused promptTokens.length
          (startDecodeSession driver (quiet refused).withoutClient promptTokens requested).cachedPrefixLen
          requested session _ htold (reported_progress _ _ _) 0 0
        have hsendLast : (quiet refused).sendLast = none := rfl
        cases hend : (streamLoop driver (quiet refused) request draws promptTokens.length
          (startDecodeSession driver (quiet refused).withoutClient promptTokens requested).cachedPrefixLen
          requested requested 0 session [] driver.adapter.streamDecoder 0).outcome with
        | error e =>
          dsimp only at hagree
          rw [hend] at hagree
          exact hagree
        | ok finishReason =>
          dsimp only at hagree
          rw [hend] at hagree
          dsimp only
          rw [if_neg (hquiet _), hsendLast]
          exact hagree

end Agree

/-- A model that counts on from the last token and stops at seven; its text decoder lets text
out after every second token. -/
def countingDriver : NativeTextDriver (List ℕ) Unit ℕ Bool where
  modelId := "counting"
  maxNewTokens := 16
  adapter := {
    familyDisplayName := "Qwen"
    maxPrefillTokens := 8
    diskBlockTokenCount := none
    prefillChunkWithCache := fun tokens caches => .ok (tokens.map fun _ => [F32.zero], caches)
    encodePrompt := .ok
    decodeOutput := fun ids => .ok (List.replicate ids.length 'x')
    streamDecoder := false
    decoderStep := fun held _ => .ok (if held then some "xx".toList else none, !held)
    observeCandidate := fun _ candidate => .ok (if candidate < 7 then .emit candidate else .stop)
    maxPositionEmbeddings := 32
    prefixLookup := fun _ _ _ => none
    layerCount := 1
    allocateCaches := fun _ => .ok [()]
    makeDecodeSession := fun _ _ => 3
    nextTokenFromHidden := fun session _ _ => .ok (session + 1)
    step := fun _ tokenId => .ok tokenId
    prefixLookup_le := nofun }

def countingRequest : BackendRequest (List ℕ) := ⟨"counting", some 5, .greedy, [1, 2, 3]⟩

/-- Three tokens before the stop, reported as two and one. -/
theorem counting_stream_agrees :
    (generateStreamAsync countingDriver (quiet fun _ => none) countingRequest fun _ => F32.zero).chunks.map
        (fun chunk => (chunk.completionTokens, chunk.finishReason)) =
      [(0, none), (2, none), (1, some .stop)] ∧
    RunsAgree countingDriver
      (generateAsync countingDriver (quiet fun _ => none) countingRequest fun _ => F32.zero)
      (generateStreamAsync countingDriver (quiet fun _ => none) countingRequest fun _ => F32.zero) ∧
    WithinCapacity countingDriver (quiet fun _ => none) countingRequest 6 := by
  have h := stream_agrees_with_batch countingDriver countingRequest (fun _ => F32.zero) fun _ => none
  refine ⟨by rfl, h.1.resolve_left ?_, (h.2 _).2⟩
  rintro ⟨e, ⟨k, hk⟩, -⟩
  cases hk

end KirAi.NativeRuntime
