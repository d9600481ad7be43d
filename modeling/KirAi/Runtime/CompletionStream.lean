/-
# The streaming text completion

`streaming_completion_stream` of `streaming.rs`: read the backend chunks, show what can
be shown, cut at a stop sequence, and close with a finish reason and the usage. The
constant fields of a response (id, object, creation time, model and index) are left out.

Key definitions:
* `CompletionStreamEvent`, `CompletionState`
* `readCompletionText`, `readCompletionChunk`, `finishCompletion`
* `streamingCompletionStream`, `deltas`
-/
import KirAi.Runtime.Chunk

namespace KirAi.Runtime

open Lib Lib.Text
open TryStream (Flow)

/-! ### The stream -/

structure CompletionChoice where
  text : Str
  finishReason : Option FinishReason
deriving DecidableEq, Repr

structure CompletionStreamResponse where
  choices : List CompletionChoice
  usage : Option Usage
deriving DecidableEq, Repr

inductive CompletionStreamEvent
  | chunk (response : CompletionStreamResponse)
  | progress (progress : BackendStreamProgress)
  | complete (usage : Usage)
deriving DecidableEq, Repr

def completionStreamSeedChunk (text : Str) (finishReason : Option FinishReason)
    (usage : Option Usage) : CompletionStreamResponse where
  choices := if usage.isSome then [] else [⟨text, finishReason⟩]
  usage := usage

structure CompletionState where
  rawText : Str
  emittedLen : ℕ
  tokens : TokenCounts
  finishReason : FinishReason
  stopDetector : IncrementalStopDetector
deriving DecidableEq, Repr

section Body

variable {ε : Type} (stop : List Str)

abbrev CompletionBody (ε α : Type) := TryStream CompletionStreamEvent (StreamError ε) α

/-- The chunk event with the text of `raw` between two offsets. -/
def emitCompletionText (raw : Str) (a b : ℕ) : CompletionBody ε Unit := do
  let text ← sliceText raw a b
  TryStream.yield (.chunk (completionStreamSeedChunk text none none))

/-- The text of a chunk, where it has one: exit at a stop, else show what is safe. -/
def readCompletionText (s : CompletionState) (text : Str) :
    CompletionBody ε (Flow CompletionState) :=
  if text.isEmpty then pure (.next s)
  else
    let raw := s.rawText ++ text
    let observed := s.stopDetector.observe raw stop
    let s := { s with rawText := raw, stopDetector := observed.2 }
    match observed.1 with
    | some stopAt => do
      if stopAt > s.emittedLen then emitCompletionText raw s.emittedLen stopAt
      return .exit { s with emittedLen := stopAt, finishReason := .stop }
    | none => do
      let safeLen := safeStreamEmitLen raw (maxStopSequenceLen stop)
      if safeLen > s.emittedLen then
        emitCompletionText raw s.emittedLen safeLen
        return .next { s with emittedLen := safeLen }
      else
        return .next s

def yieldProgress : Option BackendStreamProgress → CompletionBody ε Unit
  | some progress => TryStream.yield (.progress progress)
  | none => pure ()

/-- A finish reason on the chunk ends the loop, unless a stop has. -/
def closeCompletion : Flow CompletionState → Option BackendFinishReason → Flow CompletionState
  | .next s, some reason => .exit { s with finishReason := apiFinishReason reason }
  | flow, _ => flow

/-- One item of the backend stream. -/
def readCompletionChunk (s : CompletionState) (item : Except ε BackendStreamChunk) :
    CompletionBody ε (Flow CompletionState) := do
  let chunk ← TryStream.orFail (item.mapError StreamError.failed)
  yieldProgress chunk.progress
  let flow ← readCompletionText stop { s with tokens := s.tokens.add chunk } chunk.text
  return closeCompletion flow chunk.finishReason

/-- The text held back is shown, unless the stream ended with the reason `stop`. -/
def releaseTail (s : CompletionState) : CompletionBody ε ℕ :=
  if s.finishReason ≠ .stop ∧ s.emittedLen < len s.rawText then do
    emitCompletionText s.rawText s.emittedLen (len s.rawText)
    return len s.rawText
  else
    return s.emittedLen

def yieldClosing (includeUsage : Bool) (s : CompletionState) : CompletionBody ε Unit := do
  TryStream.yield (.chunk (completionStreamSeedChunk [] (some s.finishReason) none))
  if includeUsage then
    TryStream.yield (.chunk (completionStreamSeedChunk [] none (some s.tokens.usage)))
  TryStream.yield (.complete s.tokens.usage)

/-- What follows the loop. -/
def finishCompletion (includeUsage : Bool) (s : CompletionState) : CompletionBody ε Unit := do
  let emittedLen ← releaseTail s
  let visibleText ← sliceText s.rawText 0 emittedLen
  match classifyNoProgress visibleText s.tokens.completionTokens with
  | some cls => TryStream.fail (.noProgress cls)
  | none => yieldClosing includeUsage s

def initialCompletion : CompletionState where
  rawText := []
  emittedLen := 0
  tokens := {}
  finishReason := .length
  stopDetector := .new stop

def streamingCompletionStream (includeUsage : Bool) (backend : List (Except ε BackendStreamChunk)) :
    CompletionBody ε Unit := do
  let s ← TryStream.loop (readCompletionChunk stop) (initialCompletion stop) backend
  finishCompletion includeUsage s

end Body

/-- The text of the choices of an event. -/
def CompletionStreamEvent.text : CompletionStreamEvent → Str
  | .chunk response => response.choices.flatMap (·.text)
  | .progress _ => []
  | .complete _ => []

/-- The concatenated text deltas of a stream. -/
def deltas (evs : List CompletionStreamEvent) : Str := evs.flatMap (·.text)

@[simp] theorem deltas_nil : deltas [] = [] := rfl

@[simp] theorem deltas_concat (evs : List CompletionStreamEvent) (e : CompletionStreamEvent) :
    deltas (evs ++ [e]) = deltas evs ++ e.text := by
  simp [deltas]

@[simp] theorem text_seedChunk (text : Str) (finishReason : Option FinishReason) :
    (CompletionStreamEvent.chunk (completionStreamSeedChunk text finishReason none)).text =
      text := by
  simp [CompletionStreamEvent.text, completionStreamSeedChunk]

@[simp] theorem text_usageChunk (text : Str) (finishReason : Option FinishReason) (u : Usage) :
    (CompletionStreamEvent.chunk (completionStreamSeedChunk text finishReason (some u))).text =
      [] := by
  simp [CompletionStreamEvent.text, completionStreamSeedChunk]

@[simp] theorem text_progress (p : BackendStreamProgress) :
    (CompletionStreamEvent.progress p).text = [] := rfl

@[simp] theorem text_complete (u : Usage) : (CompletionStreamEvent.complete u).text = [] := rfl

end KirAi.Runtime
