/-
# The chat completion in one piece

`parse_chat_text` of `json_mode.rs` and `complete_chat` of `chat.rs`: the whole output is cut at
the first stop, parsed, and checked against the request. An output that is JSON and could only
be a call is content as it stands where no tools are declared; so is an object in JSON mode.
Everything else goes to the parser of the family.

`withParsers` is the chat stream with these parsers in the place of its parameters; `withChecks`
has the check of the calls too, so that every call of an answer is one that the request admits.

Key definitions: `parseChatText`, `completeChat`, `withParsers`, `withChecks`.
Key theorems: `parseChatText_of_tools`, `completeChat_ok`, `completeChat_admits`.
-/
import KirAi.Runtime.StructuredTools
import KirAi.ToolParser.Family

namespace KirAi.Runtime

open Lib Lib.Text
open ToolParser (Env Failure Parse codeFence slice sliceFrom sliceTo startsWith stripPrefix
  trimAfterStopControl)

/-! ### JSON without declared tools -/

def unmarkedToolJsonTruncationTokens : ModelFamily → List Str
  | .llama => ["<|eot_id|>".toList, "<|end_of_text|>".toList, "<|start_header_id|>".toList]
  | .qwen | .deepSeek | .gemma => []

def unmarkedToolJsonCandidate (text : Str) (truncationTokens : List Str) : Parse Str := do
  let content ← trimAfterStopControl truncationTokens text
  return trim content

section JsonMode

variable (E : Env)

def jsonValueIsObject (text : Str) : Bool :=
  match E.fromStr text with
  | .ok (.object _) => true
  | _ => false

def jsonValueIsObjectOrArray (text : Str) : Bool :=
  match E.fromStr text with
  | .ok (.object _) => true
  | .ok (.array _) => true
  | _ => false

def markdownFencedJsonObjectCandidate (text : Str) : Parse (Option Str) :=
  match stripPrefix text codeFence with
  | none => return none
  | some rest =>
    match find ['\n'] rest with
    | none => return none
    | some newline => do
      let bodyWithClose ← sliceFrom rest (newline + 1)
      match find codeFence bodyWithClose with
      | none => return none
      | some bodyEnd => do
        let body ← sliceTo bodyWithClose bodyEnd
        return if jsonValueIsObject E (trim body) then some (trim body) else none

/-- Where the first object of a text closes, with the offset of the rest. -/
def balancedEnd : (depth : ℕ) → (inString escaped : Bool) → (offset : ℕ) → Str → Option ℕ
  | _, _, _, _, [] => none
  | depth, true, escaped, offset, ch :: rest =>
    let offset := offset + len [ch]
    if escaped then balancedEnd depth true false offset rest
    else if ch = '\\' then balancedEnd depth true true offset rest
    else if ch = '"' then balancedEnd depth false false offset rest
    else balancedEnd depth true false offset rest
  | depth, false, escaped, offset, ch :: rest =>
    let offset := offset + len [ch]
    if ch = '"' then balancedEnd depth true escaped offset rest
    else if ch = '{' then balancedEnd (depth + 1) false escaped offset rest
    else if ch = '}' then
      match depth with
      | 0 => none
      | 1 => some offset
      | depth + 2 => balancedEnd (depth + 1) false escaped offset rest
    else balancedEnd depth false escaped offset rest

def firstBalancedJsonObject (text : Str) : Parse (Option Str) :=
  match find ['{'] text with
  | none => return none
  | some start => do
    let tail ← sliceFrom text start
    match balancedEnd 0 false false start tail with
    | none => return none
    | some stop => do
      let found ← slice text start stop
      return some (trim found)

def jsonObjectResponseCandidate (text : Str) : Parse (Option Str) := do
  let trimmed := trim text
  if jsonValueIsObject E trimmed then return some trimmed
  match ← markdownFencedJsonObjectCandidate E trimmed with
  | some fenced => return some fenced
  | none =>
    if startsWith trimmed ['{'] then return none
    match ← firstBalancedJsonObject trimmed with
    | some candidate => return if jsonValueIsObject E candidate then some candidate else none
    | none => return none

variable {τ : Type}

def unmarkedToolJsonWithoutDeclaredTools (request : ChatRequest τ) (text : Str)
    (family : ModelFamily) : Parse (Option Str) :=
  if !parsesUnmarkedToolCalls family || !request.tools.isEmpty ||
      (toolMarkupPolicy family).containsStart text then return none
  else do
    let content ← unmarkedToolJsonCandidate text (unmarkedToolJsonTruncationTokens family)
    return if jsonValueIsObjectOrArray E content then some content else none

def jsonObjectModeWithoutTools (request : ChatRequest τ) (text : Str) (family : ModelFamily) :
    Parse (Option Str) :=
  if request.responseFormat != some .jsonObject || !request.tools.isEmpty ||
      (toolMarkupPolicy family).containsStart text then return none
  else do
    let content ← unmarkedToolJsonCandidate text (unmarkedToolJsonTruncationTokens family)
    jsonObjectResponseCandidate E content

def parseChatText (family : ModelFamily) (text : Str) (request : ChatRequest τ) :
    Parse (ParsedAssistant Json) := do
  match ← unmarkedToolJsonWithoutDeclaredTools E request text family with
  | some content => return ⟨none, content, []⟩
  | none =>
    match ← jsonObjectModeWithoutTools E request text family with
    | some content => return ⟨none, content, []⟩
    | none => ToolParser.parseComplete E family text

/-- With declared tools the output goes to the parser of the family. -/
theorem parseChatText_of_tools {request : ChatRequest τ} (htools : request.tools ≠ [])
    (family : ModelFamily) (text : Str) :
    parseChatText E family text request = ToolParser.parseComplete E family text := by
  have hsome : request.tools.isEmpty = false := by simpa using htools
  rw [parseChatText, unmarkedToolJsonWithoutDeclaredTools, jsonObjectModeWithoutTools, hsome]
  rw [if_pos (by simp), if_pos (by simp)]
  rfl

end JsonMode

/-- The stream with the parsers and the intent arguments of the source. -/
def withParsers {ε : Type} (E : Env) (failed : Failure → ε)
    (deps : ChatDeps Json Api.ToolDefinition ε) : ChatDeps Json Api.ToolDefinition ε :=
  { withIntents deps with
    parseComplete := fun family text => (ToolParser.parseComplete E family text).mapError failed
    parseChatText := fun family text request => (parseChatText E family text request).mapError failed
    splitReasoning := fun text => (ToolParser.splitReasoning text).mapError failed }

/-! ### The completion -/

structure BackendOutput where
  text : Str
  promptTokens : ℕ
  promptCachedTokens : Option ℕ
  completionTokens : ℕ
  finishReason : BackendFinishReason
deriving DecidableEq, Repr

structure RuntimeChatCompletion (J : Type) where
  parsed : ParsedAssistant J
  finishReason : FinishReason
  usage : Usage

section Complete

variable {J τ ε : Type} (deps : ChatDeps J τ ε)

def errorOn : Option NoProgressClass → Except (StreamError ε) Unit
  | some cls => .error (.noProgress cls)
  | none => .ok ()

def completeChat (family : ModelFamily) (request : ChatRequest τ) (output : BackendOutput) :
    Except (StreamError ε) (RuntimeChatCompletion J) := do
  let (rawText, stopped) := applyStopSequences output.text request.stop
  let parsed ← (deps.parseChatText family rawText request).mapError .failed
  (deps.validateToolCallArguments parsed).mapError .failed
  let parsed := deps.fillMissingToolIntentArguments parsed request
  errorOn (deps.classifyRepeatedInvalidToolCallNoProgress parsed request)
  (deps.validateToolCallsAgainstRequest parsed request).mapError .failed
  (if request.responseFormat = some .jsonObject then deps.validateJsonObjectResponse parsed
    else .ok ()).mapError .failed
  errorOn (deps.classifyChatNoProgress rawText parsed output.completionTokens
    (requestRequiresToolChoice request && parsed.toolCalls.isEmpty) request
    (toolMarkupPolicy family))
  return {
    parsed := parsed
    finishReason := if !parsed.toolCalls.isEmpty then .toolCalls
      else if stopped then .stop
      else apiFinishReason output.finishReason
    usage := usageFromTokens output.promptTokens output.completionTokens output.promptCachedTokens }

variable {deps}

/-- A completion that is answered is the parse of the text before the first stop, with the
missing intents filled in, and its calls passed the check against the request. -/
theorem completeChat_ok {family : ModelFamily} {request : ChatRequest τ} {output : BackendOutput}
    {completion : RuntimeChatCompletion J}
    (h : completeChat deps family request output = .ok completion) :
    ∃ parsed, deps.parseChatText family (applyStopSequences output.text request.stop).1 request =
        .ok parsed ∧ completion.parsed = deps.fillMissingToolIntentArguments parsed request ∧
      deps.validateToolCallsAgainstRequest completion.parsed request = .ok () := by
  unfold completeChat at h
  dsimp only at h
  obtain ⟨parsed, hparsed, h⟩ := bind_eq_ok.1 h
  obtain ⟨-, -, h⟩ := bind_eq_ok.1 h
  obtain ⟨-, -, h⟩ := bind_eq_ok.1 h
  obtain ⟨_, hchecked, h⟩ := bind_eq_ok.1 h
  obtain ⟨-, -, h⟩ := bind_eq_ok.1 h
  obtain ⟨-, -, h⟩ := bind_eq_ok.1 h
  obtain rfl := pure_eq_ok.1 h
  exact ⟨parsed, mapError_eq_ok.1 hparsed, rfl, mapError_eq_ok.1 hchecked⟩

end Complete

/-! ### What an answer admits -/

section Admitted

variable {ε : Type} (sameFloat : String → String → Bool) (E : Env) (failed : Failure → ε)
  (refused : RuntimeError → ε) (deps : ChatDeps Json Api.ToolDefinition ε)

/-- The completion with the parsers, the intent arguments and the check of the calls of the
source. -/
def withChecks : ChatDeps Json Api.ToolDefinition ε :=
  { withParsers E failed deps with
    validateToolCallsAgainstRequest := fun parsed request =>
      (validateToolCallsAgainstRequest sameFloat parsed request).mapError refused }

variable {sameFloat E failed refused deps}

/-- **An answer has only calls that the request admits.** They are those that the parser reads
from the text before the first stop, with a missing intent filled in. -/
theorem completeChat_admits {family : ModelFamily} {request : ChatRequest Api.ToolDefinition}
    {output : BackendOutput} {completion : RuntimeChatCompletion Json}
    (hschemas : ∀ tool ∈ request.tools, WellFormedSchema tool.function.parameters)
    (h : completeChat (withChecks sameFloat E failed refused deps) family request output =
      .ok completion) :
    ∃ parsed, parseChatText E family (applyStopSequences output.text request.stop).1 request =
        .ok parsed ∧
      completion.parsed = fillMissingToolIntentArguments parsed request ∧
      (completion.parsed.toolCalls = [] ∨ request.toolChoice ≠ some .none ∧
        ∀ toolCall ∈ completion.parsed.toolCalls, Admits sameFloat request toolCall) := by
  obtain ⟨parsed, hparsed, hfilled, hchecked⟩ := completeChat_ok h
  have hadmitted := (validateToolCallsAgainstRequest_ok hschemas).1 (mapError_eq_ok.1 hchecked)
  exact ⟨parsed, mapError_eq_ok.1 hparsed, hfilled, hadmitted⟩

end Admitted

/-- A call of `f` without the intent that its tool requires. -/
def unintended : BackendOutput where
  text := "<tool_call>\x7b\"name\":\"f\"\x7d</tool_call>".toList
  promptTokens := 1
  promptCachedTokens := none
  completionTokens := 8
  finishReason := .stop

def intendedCall : ToolCall Json :=
  ⟨ToolParser.compactEnv.generatedToolCallId 0, .function,
    ⟨['f'], .object [("_i", .string genericToolIntent)]⟩⟩

/-- The intent is filled in, and the call with it is admitted. -/
theorem unintended_call_admitted :
    ∃ completion, completeChat (withChecks (· == ·) ToolParser.compactEnv (fun _ => ()) (fun _ => ())
        structuredDeps) .qwen intentRequest unintended = .ok completion ∧
      completion.parsed.toolCalls = [intendedCall] ∧
      Admits (· == ·) intentRequest intendedCall := by
  have hformed : ∀ tool ∈ intentRequest.tools, WellFormedSchema tool.function.parameters := by
    intro tool htool
    obtain rfl := List.mem_singleton.1 htool
    exact show WellFormedSchema (oneFieldSchema "_i" .string) from oneFieldSchema_wellFormed
  have hsatisfies : Satisfies (· == ·) (.object [("_i", .string genericToolIntent)])
      (oneFieldSchema "_i" .string) := oneFieldSchema_satisfied ⟨_, rfl⟩
  have hchecked : validateToolCallsAgainstRequest (· == ·) ⟨none, [], [intendedCall]⟩ intentRequest =
      .ok () := by
    refine (validateToolCallsAgainstRequest_ok hformed).2 (.inr ⟨by decide, fun toolCall h => ?_⟩)
    obtain rfl := List.mem_singleton.1 h
    exact ⟨fun _ h => (by cases h), ⟨_, rfl, hsatisfies⟩, _, rfl⟩
  have hanswer : completeChat (withChecks (· == ·) ToolParser.compactEnv (fun _ => ()) (fun _ => ())
      structuredDeps) .qwen intentRequest unintended =
        .ok ⟨⟨none, [], [intendedCall]⟩, .toolCalls, usageFromTokens 1 8 none⟩ := by
    have hsteps : completeChat (withChecks (· == ·) ToolParser.compactEnv (fun _ => ()) (fun _ => ())
        structuredDeps) .qwen intentRequest unintended =
          (((validateToolCallsAgainstRequest (· == ·) ⟨none, [], [intendedCall]⟩ intentRequest).mapError
            fun _ => ()).mapError .failed >>= fun _ =>
              .ok ⟨⟨none, [], [intendedCall]⟩, .toolCalls, usageFromTokens 1 8 none⟩) := rfl
    rw [hsteps, hchecked]
    rfl
  obtain ⟨-, -, -, hnone | ⟨-, hadmits⟩⟩ := completeChat_admits hformed hanswer
  · cases hnone
  · exact ⟨_, hanswer, rfl, hadmits _ List.mem_cons_self⟩

end KirAi.Runtime
