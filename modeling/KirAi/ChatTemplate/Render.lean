/-
# The templates of Qwen, DeepSeek and Llama

`llm-chat-template`, `lib.rs`: the renderers of the three families and of their turns, as
the source writes them. `toolInstruction` is the sentence an adapter puts before the
declared tools (`adapters.rs`); it belongs to the template.

Key definitions:
* `renderQwenChatml`, `renderDeepseekChatTemplate`, `renderLlama3ChatTemplate`
* `renderAssistant`, `renderDeepseekAssistantTurn`, `renderLlama3AssistantTurn`
-/
import KirAi.ChatTemplate.Basic

namespace KirAi.ChatTemplate

open Lib Lib.Text Lib.Marked Prompt
open KirAi.Runtime (Str ToolCall trim)
open KirAi.Api (ChatMessage ChatRole ToolDefinition toolsJson)

/-- The first message, if it is a system message. -/
def firstSystem (messages : List ChatMessage) : Option ChatMessage :=
  messages.head?.filter fun message => message.role == .system

def pushInstruction (out : Prompt) : Option String → Prompt
  | some instruction => out.pushStr instruction
  | none => out

/-! ### Qwen -/

structure QwenPromptOptions where
  enableThinking : Bool
  addGenerationPrompt : Bool
deriving DecidableEq, Repr

def qwenReserved : List String :=
  ["<|im_start|>", "<|im_end|>", "<tool_call>", "</tool_call>", "<think>", "</think>"]

def renderPlain (out : Prompt) (role : String) (message : ChatMessage) : Render Prompt := do
  let out := ((out.pushStr "<|im_start|>").pushStr role).pushStr "\n"
  let out ← pushContent qwenReserved id out message.content
  return out.pushStr "<|im_end|>\n"

def renderToolCall (out : Prompt) (call : ToolCall Json) : Render Prompt := do
  let payloadJson := (callPayload call).chars
  rejectPromptControls qwenReserved payloadJson
  return ((out.pushStr "<tool_call>").pushText payloadJson).pushStr "</tool_call>"

def renderAssistant (out : Prompt) (message : ChatMessage) : Render Prompt := do
  let out := out.pushStr "<|im_start|>assistant\n"
  let out ← pushContent qwenReserved id out message.content
  let out ← message.toolCalls.foldlM renderToolCall out
  return out.pushStr "<|im_end|>\n"

def renderQwenMessage (out : Prompt) (message : ChatMessage) : Render Prompt :=
  match message.role with
  | .system => renderPlain out "system" message
  | .user => renderPlain out "user" message
  | .tool => renderPlain out "tool" message
  | .assistant => renderAssistant out message

/-- The system turn that declares the tools, after the content of a first system message. -/
def renderQwenTools (messages : List ChatMessage) (tools : List ToolDefinition)
    (toolInstruction : Option String) : Render Prompt := do
  let toolsJson := toolsJson tools
  rejectPromptControls qwenReserved toolsJson
  let out := pushStr [] "<|im_start|>system\n"
  let content := (firstSystem messages).bind (·.content)
  let out ← pushContent qwenReserved id out content
  let out := if content.isSome then out.pushStr "\n\n" else out
  let out := pushInstruction out toolInstruction
  return (out.pushText toolsJson).pushStr "<|im_end|>\n"

/-- What stands before the messages, and how many of them it has used up. -/
def renderQwenSystem (messages : List ChatMessage) (tools : List ToolDefinition)
    (toolInstruction : Option String) : Render (Prompt × ℕ) :=
  if tools.isEmpty then .ok ([], 0)
  else do
    let out ← renderQwenTools messages tools toolInstruction
    return (out, if (firstSystem messages).isSome then 1 else 0)

def renderQwenChatml (messages : List ChatMessage) (tools : List ToolDefinition)
    (options : QwenPromptOptions) (toolInstruction : Option String) : Render Prompt := do
  let (out, messageIndex) ← renderQwenSystem messages tools toolInstruction
  let out ← (messages.drop messageIndex).foldlM renderQwenMessage out
  if options.addGenerationPrompt then
    let out := out.pushStr "<|im_start|>assistant\n"
    return if options.enableThinking then out.pushStr "<think>\n"
      else out.pushStr "<think>\n\n</think>\n\n"
  else return out

/-! ### DeepSeek -/

structure DeepSeekPromptOptions where
  enableThinking : Bool
  addGenerationPrompt : Bool
deriving DecidableEq, Repr

def deepseekReserved : List String :=
  ["<｜begin▁of▁sentence｜>", "<｜end▁of▁sentence｜>", "<｜User｜>", "<｜Assistant｜>",
    "<｜tool▁calls▁begin｜>", "<｜tool▁calls▁end｜>", "<｜tool▁call▁begin｜>", "<｜tool▁call▁end｜>",
    "<｜tool▁sep｜>", "<｜tool▁outputs▁begin｜>", "<｜tool▁outputs▁end｜>", "<｜tool▁output▁begin｜>",
    "<｜tool▁output▁end｜>", "<think>", "</think>"]

/-- What follows the first `</think>`, or everything. -/
def stripDeepseekHistoryReasoning (content : Str) : Str :=
  match cut "</think>".toList content with
  | some (_, answer) => answer
  | none => content

def renderDeepseekPlainTurn (out : Prompt) (marker : String) (message : ChatMessage) :
    Render Prompt :=
  pushContent deepseekReserved id (out.pushStr marker) message.content

def renderDeepseekCall (out : Prompt) (call : ToolCall Json) : Render Prompt := do
  rejectPromptControls deepseekReserved call.function.name
  let argumentsJson := call.function.arguments.chars
  rejectPromptControls deepseekReserved argumentsJson
  let out := (out.pushStr "<｜tool▁call▁begin｜>function<｜tool▁sep｜>").pushText call.function.name
  return ((out.pushStr "\n```json\n").pushText argumentsJson).pushStr "\n```<｜tool▁call▁end｜>"

def renderDeepseekCalls (out : Prompt) (calls : List (ToolCall Json)) : Render Prompt :=
  if calls.isEmpty then .ok out
  else do
    let out ← calls.foldlM renderDeepseekCall (out.pushStr "<｜tool▁calls▁begin｜>")
    return out.pushStr "<｜tool▁calls▁end｜>"

def renderDeepseekAssistantTurn (out : Prompt) (message : ChatMessage) : Render Prompt := do
  let out := out.pushStr "<｜Assistant｜>"
  let out ← pushContent deepseekReserved stripDeepseekHistoryReasoning out message.content
  let out ← renderDeepseekCalls out message.toolCalls
  return out.pushStr "<｜end▁of▁sentence｜>"

/-- The prompt so far, and whether a list of tool outputs is open in it. -/
abbrev ToolOutputs := Prompt × Bool

def closeToolOutputs (state : ToolOutputs) : Prompt :=
  if state.2 then state.1.pushStr "<｜tool▁outputs▁end｜>" else state.1

def renderDeepseekToolResponse (state : ToolOutputs) (message : ChatMessage) :
    Render ToolOutputs := do
  let content := message.content.getD []
  rejectPromptControls deepseekReserved content
  let out := if state.2 then state.1 else state.1.pushStr "<｜tool▁outputs▁begin｜>"
  let out := (out.pushStr "<｜tool▁output▁begin｜>").pushText content
  return (out.pushStr "<｜tool▁output▁end｜>", true)

def renderDeepseekMessage (state : ToolOutputs) (message : ChatMessage) : Render ToolOutputs :=
  match message.role with
  | .system => .ok state
  | .user => do
    let out ← renderDeepseekPlainTurn (closeToolOutputs state) "<｜User｜>" message
    return (out, false)
  | .assistant => do
    let out ← renderDeepseekAssistantTurn (closeToolOutputs state) message
    return (out, false)
  | .tool => renderDeepseekToolResponse state message

def renderDeepseekSystem (out : Prompt) (system : Str) : Render Prompt := do
  rejectPromptControls deepseekReserved system
  return (out.pushText system).pushStr "\n\n"

def renderDeepseekTools (out : Prompt) (tools : List ToolDefinition)
    (toolInstruction : Option String) : Render Prompt :=
  if tools.isEmpty then .ok out
  else do
    let toolsJson := toolsJson tools
    rejectPromptControls deepseekReserved toolsJson
    let out := pushInstruction out toolInstruction
    return (out.pushText toolsJson).pushStr "\n\n"

/-- The contents of the system messages, wherever they stand. -/
def systemContents (messages : List ChatMessage) : List Str :=
  (messages.filter fun message => message.role == .system).filterMap (·.content)

def renderDeepseekChatTemplate (messages : List ChatMessage) (tools : List ToolDefinition)
    (options : DeepSeekPromptOptions) (toolInstruction : Option String) : Render Prompt := do
  let out := pushStr [] "<｜begin▁of▁sentence｜>"
  let out ← (systemContents messages).foldlM renderDeepseekSystem out
  let out ← renderDeepseekTools out tools toolInstruction
  let state ← messages.foldlM renderDeepseekMessage (out, false)
  let out := closeToolOutputs state
  if options.addGenerationPrompt then
    let out := out.pushStr "<｜Assistant｜>"
    return if options.enableThinking then out.pushStr "<think>\n" else out
  else return out

/-! ### Llama -/

structure LlamaPromptOptions where
  addGenerationPrompt : Bool
deriving DecidableEq, Repr

def llamaReserved : List String :=
  ["<|begin_of_text|>", "<|end_of_text|>", "<|start_header_id|>", "<|end_header_id|>", "<|eot_id|>",
    "<|eom_id|>", "<|python_tag|>"]

def renderLlama3PlainTurn (out : Prompt) (role : String) (message : ChatMessage) :
    Render Prompt := do
  let out := ((out.pushStr "<|start_header_id|>").pushStr role).pushStr "<|end_header_id|>\n\n"
  let out ← pushContent llamaReserved trim out message.content
  return out.pushStr "<|eot_id|>"

/-- One call; a line break goes before it unless it is the first after an empty content. -/
def renderLlama3Call (contentShown : Bool) (state : Prompt × ℕ) (call : ToolCall Json) :
    Render (Prompt × ℕ) := do
  let out := if contentShown || 0 < state.2 then state.1.pushStr "\n" else state.1
  let payloadJson := (callPayload call).chars
  rejectPromptControls llamaReserved payloadJson
  return (out.pushText payloadJson, state.2 + 1)

def renderLlama3AssistantTurn (out : Prompt) (message : ChatMessage) : Render Prompt := do
  let out := out.pushStr "<|start_header_id|>assistant<|end_header_id|>\n\n"
  let out ← pushContent llamaReserved trim out message.content
  let contentShown := message.content.any fun content => !(trim content).isEmpty
  let (out, _) ← message.toolCalls.foldlM (renderLlama3Call contentShown) (out, 0)
  return out.pushStr "<|eot_id|>"

def renderLlama3ToolResponse (out : Prompt) (message : ChatMessage) : Render Prompt := do
  let content := message.content.getD []
  rejectPromptControls llamaReserved content
  let out := out.pushStr "<|start_header_id|>ipython<|end_header_id|>\n\n"
  return (out.pushText (trim content)).pushStr "<|eot_id|>"

def renderLlama3Message (out : Prompt) (message : ChatMessage) : Render Prompt :=
  match message.role with
  | .system => renderLlama3PlainTurn out "system" message
  | .user => renderLlama3PlainTurn out "user" message
  | .assistant => renderLlama3AssistantTurn out message
  | .tool => renderLlama3ToolResponse out message

def renderLlama3Tools (out : Prompt) (messages : List ChatMessage) (tools : List ToolDefinition)
    (toolInstruction : Option String) : Render Prompt :=
  if tools.isEmpty then .ok out
  else do
    let out := if (firstSystem messages).isSome then out.pushStr "\n\n" else out
    let toolsJson := toolsJson tools
    rejectPromptControls llamaReserved toolsJson
    return (pushInstruction out toolInstruction).pushText toolsJson

/-- The system turn, with the content of a first system message and the declared tools, and
how many messages it has used up. -/
def renderLlama3System (out : Prompt) (messages : List ChatMessage) (tools : List ToolDefinition)
    (toolInstruction : Option String) : Render (Prompt × ℕ) :=
  if (firstSystem messages).isSome || !tools.isEmpty then do
    let out := out.pushStr "<|start_header_id|>system<|end_header_id|>\n\n"
    let out ← pushContent llamaReserved trim out ((firstSystem messages).bind (·.content))
    let out ← renderLlama3Tools out messages tools toolInstruction
    return (out.pushStr "<|eot_id|>", if (firstSystem messages).isSome then 1 else 0)
  else .ok (out, 0)

def renderLlama3ChatTemplate (messages : List ChatMessage) (tools : List ToolDefinition)
    (options : LlamaPromptOptions) (toolInstruction : Option String) : Render Prompt := do
  let out := pushStr [] "<|begin_of_text|>"
  let (out, messageIndex) ← renderLlama3System out messages tools toolInstruction
  let out ← (messages.drop messageIndex).foldlM renderLlama3Message out
  return if options.addGenerationPrompt then
      out.pushStr "<|start_header_id|>assistant<|end_header_id|>\n\n"
    else out

end KirAi.ChatTemplate
