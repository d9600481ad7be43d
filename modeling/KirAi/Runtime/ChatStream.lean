/-
# The streaming chat completion

`streaming_chat_stream` of `streaming.rs`, with the assembly of structured tool-call
deltas and their serialization (`tool_call.rs`). Content is shown at three places: up to
a stop sequence when one is seen, up to what is safe after every chunk, and at the end
the rest. In the deferred modes it is shown after the parse instead.

What the stream asks of other modules is a parameter (`ChatDeps`): the parser of the
model family, the checks of the parsed calls against the request, the classification of
runs without progress, and JSON reading and printing. A chunk event records beside the
response the range of the backend text its content was cut from; the range is not part
of the response, it says which bytes of the backend text a delta carries.

Key definitions:
* `ChatDeps`, `ChatRequest`, `DeferredEmission`, `ChatCompletionStreamEvent`
* `StructuredToolDeltaAssembler`, `ToolCallDeltaSerializer`
* `ChatState`, `readChatText`, `readChatChunk`, `finishChat`, `streamingChatStream`
-/
import KirAi.Runtime.Assistant
import KirAi.Runtime.Chunk
import KirAi.Runtime.ToolMarkup

namespace KirAi.Runtime

open Lib Lib.Text
open TryStream (Flow)

/-! ### Requests, calls and events -/

inductive ResponseFormat
  | text
  | jsonObject
  | jsonSchema
deriving DecidableEq, Repr

inductive ToolChoice
  | auto
  | none
  | required
  | function (name : Str)
deriving DecidableEq, Repr

/-- The fields of a request that the stream reads; `τ` is the type of a declared tool. -/
structure ChatRequest (τ : Type) where
  stop : List Str := []
  responseFormat : Option ResponseFormat := none
  toolChoice : Option ToolChoice := none
  tools : List τ := []

structure ToolCallFunctionDelta where
  name : Option Str
  arguments : Option Str
deriving DecidableEq, Repr

structure ToolCallDelta where
  index : ℕ
  id : Option Str
  callType : Option ToolCallType
  function : Option ToolCallFunctionDelta
deriving DecidableEq, Repr

inductive ChatRole
  | assistant
deriving DecidableEq, Repr

structure ChatCompletionDelta where
  role : Option ChatRole := none
  content : Option Str := none
  toolCalls : List ToolCallDelta := []
deriving DecidableEq, Repr

structure ChatCompletionStreamChoice where
  delta : ChatCompletionDelta
  finishReason : Option FinishReason
deriving DecidableEq, Repr

structure ChatCompletionStreamResponse where
  choices : List ChatCompletionStreamChoice
  usage : Option Usage
deriving DecidableEq, Repr

def streamSeedChunk (delta : ChatCompletionDelta) (finishReason : Option FinishReason)
    (usage : Option Usage) : ChatCompletionStreamResponse where
  choices := if usage.isSome then [] else [⟨delta, finishReason⟩]
  usage := usage

inductive ChatCompletionStreamStage
  | toolArgumentAssemblyComplete
  | toolIntentFillComplete
  | toolSchemaValidationComplete
deriving DecidableEq, Repr

/-- The events of a chat stream. The range of a chunk says where in the backend text its
content stands. -/
inductive ChatCompletionStreamEvent
  | chunk (response : ChatCompletionStreamResponse) (range : Option (ℕ × ℕ))
  | progress (progress : BackendStreamProgress)
  | internalProgress (bytes : ℕ)
  | stage (stage : ChatCompletionStreamStage)
  | complete (usage : Usage)
deriving DecidableEq, Repr

inductive DeferredEmission
  | none
  | jsonObjectMode
  | toolChoiceRequired
  | unmarkedToolBuffer
deriving DecidableEq, Repr

def unmarkedToolBufferFlushThreshold : ℕ := 256

def deferredEmissionStrategy (jsonObjectMode requiresToolChoice buffersUnmarkedToolCandidates : Bool) :
    DeferredEmission :=
  if jsonObjectMode then .jsonObjectMode
  else if requiresToolChoice then .toolChoiceRequired
  else if buffersUnmarkedToolCandidates then .unmarkedToolBuffer
  else .none

def requestRequiresToolChoice {τ : Type} (request : ChatRequest τ) : Bool :=
  match request.toolChoice with
  | some .required => true
  | some (.function _) => true
  | _ => false

def parsesUnmarkedToolCalls (family : ModelFamily) : Bool := family == .llama

def deferredOf {τ : Type} (family : ModelFamily) (request : ChatRequest τ) : DeferredEmission :=
  deferredEmissionStrategy (request.responseFormat == some .jsonObject)
    (requestRequiresToolChoice request)
    (parsesUnmarkedToolCalls family && !request.tools.isEmpty)

def looksLikeUnmarkedToolJsonCandidate (rawText : Str) : Bool :=
  let trimmed := trimStart rawText
  trimmed.isEmpty || trimmed.head? == some '{' || trimmed.head? == some '[' ||
    "```".toList.isPrefixOf trimmed

def unmarkedToolBufferCanStreamText (rawText : Str) (markup : ToolMarkupStreamState) : Bool :=
  !markup.containsStart && !looksLikeUnmarkedToolJsonCandidate rawText

/-- What the stream calls in other modules. -/
structure ChatDeps (J τ ε : Type) where
  parseComplete : ModelFamily → Str → Except ε (ParsedAssistant J)
  parseChatText : ModelFamily → Str → ChatRequest τ → Except ε (ParsedAssistant J)
  splitReasoning : Str → Except ε (Option Str × Str)
  validateToolCallArguments : ParsedAssistant J → Except ε Unit
  fillMissingToolIntentArguments : ParsedAssistant J → ChatRequest τ → ParsedAssistant J
  classifyRepeatedInvalidToolCallNoProgress :
    ParsedAssistant J → ChatRequest τ → Option NoProgressClass
  validateToolCallsAgainstRequest : ParsedAssistant J → ChatRequest τ → Except ε Unit
  validateJsonObjectResponse : ParsedAssistant J → Except ε Unit
  classifyChatNoProgress :
    Str → ParsedAssistant J → ℕ → Bool → ChatRequest τ → ToolMarkupPolicy → Option NoProgressClass
  requestMayFillToolIntentArguments : ChatRequest τ → Bool
  /-- The error of a streamed call without a function name. -/
  missingFunctionName : ℕ → ε
  /-- The arguments of a streamed call, read as JSON. -/
  parseStructuredToolArguments : ℕ → Str → Except ε J
  /-- Arguments printed as JSON. -/
  jsonToString : J → Except ε Str
  /-- The error of an index that does not fit its type. -/
  indexOverflow : ℕ → ε
  generatedToolCallId : ℕ → Str

/-! ### Structured tool-call deltas -/

structure StructuredToolCallAccumulator where
  id : Option Str := none
  callType : Option ToolCallType := none
  name : Str := []
  arguments : Str := []
deriving DecidableEq, Repr

structure StructuredToolDeltaAssembler where
  calls : List StructuredToolCallAccumulator := []
deriving DecidableEq, Repr

def apiToolCallType : BackendToolCallType → ToolCallType
  | .function => .function

def apiToolCallDelta (delta : BackendToolCallDelta) : ToolCallDelta where
  index := delta.index
  id := delta.id
  callType := delta.callType.map apiToolCallType
  function := delta.function.map fun f => ⟨f.name, f.arguments⟩

def StructuredToolCallAccumulator.add (call : StructuredToolCallAccumulator)
    (delta : ToolCallDelta) : StructuredToolCallAccumulator where
  id := delta.id.orElse fun _ => call.id
  callType := delta.callType.orElse fun _ => call.callType
  name := call.name ++ ((delta.function.bind (·.name)).getD [])
  arguments := call.arguments ++ ((delta.function.bind (·.arguments)).getD [])

/-- The list of calls grows up to the index of the delta. -/
def StructuredToolDeltaAssembler.push (a : StructuredToolDeltaAssembler) (delta : ToolCallDelta) :
    StructuredToolDeltaAssembler :=
  ⟨(a.calls ++ List.replicate (delta.index + 1 - a.calls.length) ({} : StructuredToolCallAccumulator)).modify delta.index
    (·.add delta)⟩

def structuredToolDeltaHasProgress (delta : ToolCallDelta) : Bool :=
  delta.id.isSome || delta.callType.isSome ||
    delta.function.any fun f => f.name.isSome || f.arguments.isSome

def structuredToolDeltaWithoutArguments (delta : ToolCallDelta) : Option ToolCallDelta :=
  let stripped : ToolCallDelta :=
    { delta with function := delta.function.bind fun f => f.name.map fun name => ⟨some name, none⟩ }
  if structuredToolDeltaHasProgress stripped then some stripped else none

structure ToolCallDeltaSerializer where
  arguments : List (Option Str) := []
deriving DecidableEq, Repr

section Stream

variable {J τ ε : Type} (deps : ChatDeps J τ ε)

/-- The calls of the assembler, from the index `i` on. -/
def assembleCalls : ℕ → List StructuredToolCallAccumulator → Except ε (List (ToolCall J))
  | _, [] => .ok []
  | i, call :: calls =>
    if trim call.name = [] ∧ trim call.arguments = [] then assembleCalls (i + 1) calls
    else if trim call.name = [] then .error (deps.missingFunctionName i)
    else do
      let arguments ← deps.parseStructuredToolArguments i call.arguments
      let rest ← assembleCalls (i + 1) calls
      return ⟨call.id.getD (deps.generatedToolCallId i), call.callType.getD .function,
        ⟨call.name, arguments⟩⟩ :: rest

def StructuredToolDeltaAssembler.intoParsed (a : StructuredToolDeltaAssembler) (content : Str) :
    Except ε (ParsedAssistant J) := do
  let toolCalls ← assembleCalls deps 0 a.calls
  let (reasoning, content) ← deps.splitReasoning content
  return ⟨reasoning, content, toolCalls⟩

def apiToolCallIndex (index : ℕ) : Except ε ℕ :=
  if index < 2 ^ 32 then .ok index else .error (deps.indexOverflow index)

namespace ToolCallDeltaSerializer

def serializedArguments (s : ToolCallDeltaSerializer) (index : ℕ) (arguments : J) :
    Except ε (Str × ToolCallDeltaSerializer) := do
  let slots := s.arguments ++ List.replicate (index + 1 - s.arguments.length) none
  match slots[index]?.join with
  | some serialized => return (serialized, ⟨slots⟩)
  | none =>
    let serialized ← deps.jsonToString arguments
    return (serialized, ⟨slots.set index (some serialized)⟩)

def toolCallDelta (s : ToolCallDeltaSerializer) (index : ℕ) (call : ToolCall J) :
    Except ε (ToolCallDelta × ToolCallDeltaSerializer) := do
  let apiIndex ← apiToolCallIndex deps index
  let (arguments, s) ← s.serializedArguments deps index call.function.arguments
  return (⟨apiIndex, some call.id, some call.callType, some ⟨some call.function.name,
    some arguments⟩⟩, s)

def toolCallArgumentsDelta (s : ToolCallDeltaSerializer) (index : ℕ) (call : ToolCall J) :
    Except ε (ToolCallDelta × ToolCallDeltaSerializer) := do
  let apiIndex ← apiToolCallIndex deps index
  let (arguments, s) ← s.serializedArguments deps index call.function.arguments
  return (⟨apiIndex, none, none, some ⟨none, some arguments⟩⟩, s)

end ToolCallDeltaSerializer

/-! ### One chunk -/

structure ChatState where
  rawText : Str := []
  emittedLen : ℕ := 0
  tokens : TokenCounts := {}
  finishReason : FinishReason := .length
  stoppedBySequence : Bool := false
  stopAtLen : Option ℕ := none
  emittedToolCalls : ℕ := 0
  parsedToolPrefixLen : ℕ := 0
  toolMarkupState : ToolMarkupStreamState
  serializer : ToolCallDeltaSerializer := {}
  assembler : StructuredToolDeltaAssembler := {}
  stopDetector : IncrementalStopDetector
  /-- Whether the present chunk has led to a public event. -/
  emittedPublicChunk : Bool := false
deriving DecidableEq, Repr

abbrev ChatBody (ε α : Type) := TryStream ChatCompletionStreamEvent (StreamError ε) α

def yieldDelta (delta : ChatCompletionDelta) : ChatBody ε Unit :=
  TryStream.yield (.chunk (streamSeedChunk delta none none) none)

/-- The content delta with the text of `raw` between two offsets. -/
def emitContent (raw : Str) (a b : ℕ) : ChatBody ε Unit := do
  let text ← sliceText raw a b
  TryStream.yield (.chunk (streamSeedChunk { content := some text } none none) (some (a, b)))

def check (r : Except ε Unit) : ChatBody ε Unit := TryStream.orFail (r.mapError .failed)

def failOn : Option NoProgressClass → ChatBody ε Unit
  | some cls => TryStream.fail (.noProgress cls)
  | none => pure ()

/-- The deltas of the calls from the index `i` on. -/
def yieldToolCalls
    (serialize : ToolCallDeltaSerializer → ℕ → ToolCall J →
      Except ε (ToolCallDelta × ToolCallDeltaSerializer)) :
    ToolCallDeltaSerializer → ℕ → List (ToolCall J) → ChatBody ε ToolCallDeltaSerializer
  | s, _, [] => pure s
  | s, i, call :: calls => do
    let (delta, s) ← TryStream.orFail ((serialize s i call).mapError .failed)
    yieldDelta { toolCalls := [delta] }
    yieldToolCalls serialize s (i + 1) calls

def readToolCallDeltas (bufferArguments : Bool) (s : ChatState)
    (toolCallDeltas : List BackendToolCallDelta) : ChatBody ε ChatState :=
  let deltas := toolCallDeltas.map apiToolCallDelta
  let s := { s with assembler := deltas.foldl (·.push ·) s.assembler }
  let shown := if bufferArguments then deltas.filterMap structuredToolDeltaWithoutArguments
    else deltas
  if shown.isEmpty then pure s
  else do
    yieldDelta { toolCalls := shown }
    return { s with emittedPublicChunk := true }

/-- What is safe of the content: neither a stop nor a start marker may be forming in it. -/
def safeContentLen (request : ChatRequest τ) (s : ChatState) : ℕ :=
  min (safeStreamEmitLen s.rawText (maxStopSequenceLen request.stop))
    (s.toolMarkupState.safeEmitLen s.rawText)

/-- Show the safe content, in the mode that shows it at once. -/
def emitSafeContent (deferred : DeferredEmission) (request : ChatRequest τ) (s : ChatState) :
    ChatBody ε ChatState :=
  let safeLen := safeContentLen request s
  if deferred = .none ∧ safeLen > s.emittedLen then do
    emitContent s.rawText s.emittedLen safeLen
    return { s with emittedLen := safeLen, emittedPublicChunk := true }
  else pure s

/-- Parse the text up to the last end marker, and show the calls it adds. -/
def emitToolPrefix (family : ModelFamily) (deferred : DeferredEmission) (request : ChatRequest τ)
    (s : ChatState) : ChatBody ε ChatState :=
  match s.toolMarkupState.completedPrefixLen with
  | none => pure s
  | some toolPrefixLen =>
    if toolPrefixLen ≤ s.parsedToolPrefixLen then pure s
    else do
      let text ← sliceText s.rawText 0 toolPrefixLen
      let parsed ← TryStream.orFail ((deps.parseComplete family text).mapError .failed)
      check (deps.validateToolCallArguments parsed)
      let parsed := deps.fillMissingToolIntentArguments parsed request
      failOn (deps.classifyRepeatedInvalidToolCallNoProgress parsed request)
      check (deps.validateToolCallsAgainstRequest parsed request)
      if deferred = .toolChoiceRequired ∧ parsed.content ≠ [] then
        return { s with parsedToolPrefixLen := toolPrefixLen }
      else do
        let calls := parsed.toolCalls.drop s.emittedToolCalls
        let serializer ← yieldToolCalls (fun z => z.toolCallDelta deps) s.serializer
          s.emittedToolCalls calls
        return { s with
          serializer := serializer
          emittedPublicChunk := s.emittedPublicChunk || !calls.isEmpty
          emittedToolCalls := parsed.toolCalls.length
          emittedLen := max s.emittedLen toolPrefixLen
          parsedToolPrefixLen := toolPrefixLen }

/-- Show buffered text once enough of it is safe and cannot be an unmarked call. -/
def emitUnmarkedText (deferred : DeferredEmission) (request : ChatRequest τ) (s : ChatState) :
    ChatBody ε ChatState :=
  let safeLen := safeContentLen request s
  if deferred = .unmarkedToolBuffer ∧
      unmarkedToolBufferCanStreamText s.rawText s.toolMarkupState ∧
      unmarkedToolBufferFlushThreshold ≤ safeLen - s.emittedLen then do
    emitContent s.rawText s.emittedLen safeLen
    return { s with emittedLen := safeLen, emittedPublicChunk := true }
  else pure s

/-- A stop is seen: show the text before it and leave the loop. -/
def stopChat (deferred : DeferredEmission) (s : ChatState) (stopAt : ℕ) : ChatBody ε ChatState := do
  let s := { s with stopAtLen := some stopAt, finishReason := .stop, stoppedBySequence := true }
  if deferred = .none ∧ stopAt > s.emittedLen then
    emitContent s.rawText s.emittedLen stopAt
    return { s with emittedLen := stopAt }
  else
    return s

/-- The text of a chunk, where it has one. -/
def readChatText (family : ModelFamily) (deferred : DeferredEmission) (request : ChatRequest τ)
    (s : ChatState) (text : Str) : ChatBody ε (Flow ChatState) :=
  if text.isEmpty then pure (.next s)
  else
    let raw := s.rawText ++ text
    let observed := s.stopDetector.observe raw request.stop
    let s := { s with
      rawText := raw
      toolMarkupState := s.toolMarkupState.observe raw
      stopDetector := observed.2 }
    match observed.1 with
    | some stopAt => do
      let s ← stopChat deferred s stopAt
      return .exit s
    | none => do
      let s ← emitSafeContent deferred request s
      let s ← emitToolPrefix deps family deferred request s
      let s ← emitUnmarkedText deferred request s
      return .next s

def internalProgressBytes (chunk : BackendStreamChunk) : ℕ :=
  len chunk.text +
    (chunk.toolCallDeltas.map fun delta =>
      ((delta.function.bind (·.arguments)).map len).getD 0).sum

def yieldChatProgress : Option BackendStreamProgress → ChatBody ε Unit
  | some progress => TryStream.yield (.progress progress)
  | none => pure ()

/-- A sign of life where the chunk has led to no public event. -/
def yieldInternalProgress (chunk : BackendStreamChunk) (s : ChatState) : ChatBody ε Unit :=
  if internalProgressBytes chunk > 0 ∧ s.emittedPublicChunk = false then
    TryStream.yield (.internalProgress (internalProgressBytes chunk))
  else pure ()

/-- The end of an iteration that has not met a stop. -/
def closeChat (chunk : BackendStreamChunk) : Flow ChatState → ChatBody ε (Flow ChatState)
  | .exit s => pure (.exit s)
  | .next s => do
    yieldInternalProgress chunk s
    match chunk.finishReason with
    | some reason => return .exit { s with finishReason := apiFinishReason reason }
    | none => return .next s

/-- One item of the backend stream. -/
def readChatChunk (family : ModelFamily) (request : ChatRequest τ) (s : ChatState)
    (item : Except ε BackendStreamChunk) : ChatBody ε (Flow ChatState) := do
  let chunk ← TryStream.orFail (item.mapError StreamError.failed)
  yieldChatProgress chunk.progress
  let s ← readToolCallDeltas (deps.requestMayFillToolIntentArguments request)
    { s with tokens := s.tokens.add chunk, emittedPublicChunk := false } chunk.toolCallDeltas
  let flow ← readChatText deps family (deferredOf family request) request s chunk.text
  closeChat chunk flow

/-! ### After the loop -/

/-- The rest of the content, if there is no start marker in the text. -/
def flushContent (deferred : DeferredEmission) (s : ChatState) : ChatBody ε Unit :=
  let visibleLen := s.stopAtLen.getD (len s.rawText)
  if s.stoppedBySequence = false ∧ s.emittedLen < visibleLen ∧ deferred = .none ∧
      s.toolMarkupState.containsStart = false then
    emitContent s.rawText s.emittedLen visibleLen
  else pure ()

def yieldStage (seen : Bool) (stage : ChatCompletionStreamStage) : ChatBody ε Unit :=
  if seen then TryStream.yield (.stage stage) else pure ()

/-- Parse what is visible and check it against the request. -/
def parseVisible (family : ModelFamily) (deferred : DeferredEmission) (request : ChatRequest τ)
    (s : ChatState) : ChatBody ε (ParsedAssistant J) := do
  let visibleText ← sliceText s.rawText 0 (s.stopAtLen.getD (len s.rawText))
  let parsed ← TryStream.orFail ((if s.assembler.calls.isEmpty
    then deps.parseChatText family visibleText request
    else s.assembler.intoParsed deps visibleText).mapError .failed)
  let toolCallsSeen := !parsed.toolCalls.isEmpty
  yieldStage toolCallsSeen .toolArgumentAssemblyComplete
  check (deps.validateToolCallArguments parsed)
  let parsed := deps.fillMissingToolIntentArguments parsed request
  failOn (deps.classifyRepeatedInvalidToolCallNoProgress parsed request)
  yieldStage toolCallsSeen .toolIntentFillComplete
  check (deps.validateToolCallsAgainstRequest parsed request)
  yieldStage toolCallsSeen .toolSchemaValidationComplete
  check (if deferred = .jsonObjectMode then deps.validateJsonObjectResponse parsed else .ok ())
  failOn (deps.classifyChatNoProgress visibleText parsed s.tokens.completionTokens
    (deferred = .toolChoiceRequired ∧ parsed.toolCalls.isEmpty) request (toolMarkupPolicy family))
  return parsed

/-- The content of the deferred modes. -/
def emitDeferredContent (deferred : DeferredEmission) (emittedLen : ℕ)
    (parsed : ParsedAssistant J) : ChatBody ε Unit :=
  match deferred with
  | .none => pure ()
  | .jsonObjectMode | .toolChoiceRequired =>
    if parsed.content ≠ [] then yieldDelta { content := some parsed.content } else pure ()
  | .unmarkedToolBuffer =>
    if parsed.toolCalls.isEmpty then
      match slice? parsed.content emittedLen (len parsed.content) with
      | some remaining =>
        if remaining ≠ [] then yieldDelta { content := some remaining } else pure ()
      | none => pure ()
    else pure ()

/-- The calls that were not shown before. -/
def emitRemainingToolCalls (request : ChatRequest τ) (s : ChatState) (parsed : ParsedAssistant J) :
    ChatBody ε ToolCallDeltaSerializer :=
  if s.assembler.calls.isEmpty then
    yieldToolCalls (fun z => z.toolCallDelta deps) s.serializer s.emittedToolCalls
      (parsed.toolCalls.drop s.emittedToolCalls)
  else if deps.requestMayFillToolIntentArguments request then
    yieldToolCalls (fun z => z.toolCallArgumentsDelta deps) s.serializer 0 parsed.toolCalls
  else pure s.serializer

def yieldChatClosing (includeUsage : Bool) (finishReason : FinishReason) (usage : Usage) :
    ChatBody ε Unit := do
  TryStream.yield (.chunk (streamSeedChunk {} (some finishReason) none) none)
  if includeUsage then TryStream.yield (.chunk (streamSeedChunk {} none (some usage)) none)
  TryStream.yield (.complete usage)

/-- What follows the loop. -/
def finishChat (family : ModelFamily) (request : ChatRequest τ) (includeUsage : Bool)
    (s : ChatState) : ChatBody ε Unit := do
  let deferred := deferredOf family request
  flushContent deferred s
  let parsed ← parseVisible deps family deferred request s
  emitDeferredContent deferred s.emittedLen parsed
  let _ ← emitRemainingToolCalls deps request s parsed
  yieldChatClosing includeUsage (if parsed.toolCalls.isEmpty then s.finishReason else .toolCalls)
    s.tokens.usage

def initialChat (family : ModelFamily) (request : ChatRequest τ) : ChatState where
  toolMarkupState := (toolMarkupPolicy family).streamState
  stopDetector := .new request.stop

def streamingChatStream (family : ModelFamily) (request : ChatRequest τ) (includeUsage : Bool)
    (backend : List (Except ε BackendStreamChunk)) : ChatBody ε Unit := do
  yieldDelta { role := some .assistant }
  let s ← TryStream.loop (readChatChunk deps family request) (initialChat family request) backend
  finishChat deps family request includeUsage s

end Stream

/-- The content a chat event shows. -/
def ChatCompletionStreamEvent.content : ChatCompletionStreamEvent → Option Str
  | .chunk response _ => response.choices.head?.bind (·.delta.content)
  | _ => none

end KirAi.Runtime
