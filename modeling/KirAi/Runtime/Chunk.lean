/-
# What a backend streams

The chunks of a backend stream (`llm-backend-contracts`), the usage a stream reports
(`llm-api`), and the errors that end one. The text of a stream is the text of its chunks
one after another.

Key definitions:
* `BackendStreamChunk`, `textOf`, `reportedFinish`, `EndsAtFinish`
* `Usage`, `TokenCounts`, `StreamError`, `classifyNoProgress`
-/
import KirAi.Lib.TryStream
import KirAi.Runtime.Stop

namespace KirAi.Runtime

open Lib Lib.Text

inductive BackendFinishReason
  | stop
  | length
  | toolCalls
  | contentFilter
  | error
deriving DecidableEq, Repr

inductive FinishReason
  | stop
  | length
  | toolCalls
  | contentFilter
  | error
deriving DecidableEq, Repr

def apiFinishReason : BackendFinishReason → FinishReason
  | .stop => .stop
  | .length => .length
  | .toolCalls => .toolCalls
  | .contentFilter => .contentFilter
  | .error => .error

inductive BackendStreamTimingMilestone
  | responseHeaders
  | firstUpstreamByte
  | firstParsedChunk
  | firstToolDelta
  | upstreamComplete
deriving DecidableEq, Repr

inductive BackendStreamProgress
  | prefillProgress (chunk total tokens totalTokens : ℕ)
  | mlxStreamTiming (milestone : BackendStreamTimingMilestone) (latencyMs : ℕ)
deriving DecidableEq, Repr

inductive BackendToolCallType
  | function
deriving DecidableEq, Repr

structure BackendToolCallFunctionDelta where
  name : Option Str
  arguments : Option Str
deriving DecidableEq, Repr

structure BackendToolCallDelta where
  index : ℕ
  id : Option Str
  callType : Option BackendToolCallType
  function : Option BackendToolCallFunctionDelta
deriving DecidableEq, Repr

structure BackendStreamChunk where
  text : Str
  toolCallDeltas : List BackendToolCallDelta := []
  promptTokens : ℕ := 0
  promptCachedTokens : Option ℕ := none
  completionTokens : ℕ := 0
  finishReason : Option BackendFinishReason := none
  progress : Option BackendStreamProgress := none
deriving DecidableEq, Repr

/-- The text of a chunk sequence. -/
def textOf (chunks : List BackendStreamChunk) : Str := chunks.flatMap (·.text)

@[simp] theorem textOf_nil : textOf [] = [] := rfl

theorem textOf_append (cs ds : List BackendStreamChunk) :
    textOf (cs ++ ds) = textOf cs ++ textOf ds := by
  simp only [textOf, List.flatMap_append]

theorem textOf_concat (cs : List BackendStreamChunk) (c : BackendStreamChunk) :
    textOf (cs ++ [c]) = textOf cs ++ c.text := by
  simp [textOf]

/-- Only the last chunk may carry a finish reason. -/
def EndsAtFinish (chunks : List BackendStreamChunk) : Prop :=
  ∀ c ∈ chunks.dropLast, c.finishReason = none

instance (chunks : List BackendStreamChunk) : Decidable (EndsAtFinish chunks) :=
  inferInstanceAs (Decidable (∀ c ∈ chunks.dropLast, _))

/-- The finish reason a chunk sequence ends with. -/
def reportedFinish (chunks : List BackendStreamChunk) : Option BackendFinishReason :=
  chunks.getLast?.bind (·.finishReason)

theorem reportedFinish_concat (cs : List BackendStreamChunk) (c : BackendStreamChunk) :
    reportedFinish (cs ++ [c]) = c.finishReason := by
  simp [reportedFinish]

theorem EndsAtFinish.eq_nil {chunks cs rest : List BackendStreamChunk} {c : BackendStreamChunk}
    (h : EndsAtFinish chunks) (hall : cs ++ c :: rest = chunks) (hc : c.finishReason ≠ none) :
    rest = [] := by
  by_contra hrest
  refine hc (h c ?_)
  rw [← hall, List.dropLast_append_of_ne_nil (List.cons_ne_nil c rest),
    List.dropLast_cons_of_ne_nil hrest]
  simp

/-! ### Token counts -/

def u64Max : ℕ := 2 ^ 64 - 1

structure Usage where
  promptTokens : ℕ
  completionTokens : ℕ
  totalTokens : ℕ
  cachedTokens : Option ℕ
deriving DecidableEq, Repr

def usageFromTokens (promptTokens completionTokens : ℕ) (promptCachedTokens : Option ℕ) : Usage :=
  ⟨promptTokens, completionTokens, min (promptTokens + completionTokens) u64Max,
    promptCachedTokens⟩

def maxOptionalU64 : Option ℕ → Option ℕ → Option ℕ
  | some current, some next => some (max current next)
  | some current, none => some current
  | none, some next => some next
  | none, none => none

/-- The three counts a stream keeps while it reads chunks. -/
structure TokenCounts where
  promptTokens : ℕ := 0
  promptCachedTokens : Option ℕ := none
  completionTokens : ℕ := 0
deriving DecidableEq, Repr

def TokenCounts.add (t : TokenCounts) (chunk : BackendStreamChunk) : TokenCounts where
  promptTokens := max t.promptTokens chunk.promptTokens
  promptCachedTokens := maxOptionalU64 t.promptCachedTokens chunk.promptCachedTokens
  completionTokens := min (t.completionTokens + chunk.completionTokens) u64Max

def TokenCounts.usage (t : TokenCounts) : Usage :=
  usageFromTokens t.promptTokens t.completionTokens t.promptCachedTokens

/-! ### Errors -/

inductive NoProgressClass
  | emptyCompletion
  | emptyHighOutputCompletion
  | hiddenOnlyOutput
  | textFallbackRequiredTool
  | repeatedInvalidToolCall
  | fuzzyRepeatedInvalidToolCall
  | repeatedAssistantContent
  | stalledAssistantTurn
deriving DecidableEq, Repr

/-- How a stream ends early: no progress, an error of the backend, the parser or the
validation, or a string slice outside the character boundaries. -/
inductive StreamError (ε : Type)
  | noProgress (cls : NoProgressClass)
  | failed (source : ε)
  | panicked
deriving DecidableEq, Repr

def classifyNoProgress (content : Str) (completionTokens : ℕ) : Option NoProgressClass :=
  if trim content = [] ∧ 1024 ≤ completionTokens then some .emptyHighOutputCompletion
  else if trim content = [] then some .emptyCompletion
  else none

theorem classifyNoProgress_eq_none {content : Str} {completionTokens : ℕ} :
    classifyNoProgress content completionTokens = none ↔ trim content ≠ [] := by
  unfold classifyNoProgress
  split
  · next h => simp [h.1]
  · split
    · next h => simp [h]
    · next h => simp [h]

/-- The slice `raw_text[a..b]`. -/
def sliceText {ev ε : Type} (raw : Str) (a b : ℕ) : TryStream ev (StreamError ε) Str :=
  match slice? raw a b with
  | some m => pure m
  | none => TryStream.fail .panicked

/-- A slice between two boundaries does not panic, and continues the text before it. -/
theorem ensures_sliceText {ev ε : Type} {raw : Str} {a b : ℕ} {evs : List ev}
    {Q : List ev → Str → Prop} {E : List ev → StreamError ε → Prop}
    (ha : isBoundary raw a = true) (hb : isBoundary raw b = true) (hab : a ≤ b)
    (h : ∀ m, slice? raw a b = some m → Q evs m) :
    TryStream.Ensures (sliceText raw a b) evs Q E := by
  obtain ⟨m, hm⟩ := exists_slice? ha hb hab
  simp only [sliceText, hm]
  exact TryStream.ensures_pure (h m hm)

end KirAi.Runtime
