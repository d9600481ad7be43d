/-
# The template of Gemma

`llm-chat-template`, `lib.rs`: the renderer of Gemma and of its turns, tool declarations and
argument texts. A string is printed between two delimiters, with the delimiters inside of it
deleted (`renderGemma4String`).

Key definitions: `renderGemma4ChatTemplate`, `renderGemma4Argument`, `renderGemma4String`.
-/
import KirAi.ChatTemplate.Render

namespace KirAi.ChatTemplate

open Lib Lib.Text Lib.Marked Prompt
open KirAi.Runtime (Str ToolCall trim)
open KirAi.Api (ChatMessage ChatRole ToolDefinition)

structure GemmaPromptOptions where
  enableThinking : Bool
  addGenerationPrompt : Bool
deriving DecidableEq, Repr

def gemmaReserved : List String :=
  ["<|turn>", "<turn|>", "<|channel>", "<channel|>", "<|tool_call>", "<tool_call|>", "<|tool>",
    "<tool|>", "<|tool_response>", "<tool_response|>", "<|think|>", "<|image|>", "<|audio|>",
    "<|video|>"]

/-! ### Arguments -/

/-- `value.replace(pattern, "")`, scanning from the left; `inside` symbols of an occurrence
are still to be passed over. -/
def removeFrom (pattern : Str) : (inside : ℕ) → Str → Str
  | _, [] => []
  | inside + 1, _ :: s => removeFrom pattern inside s
  | 0, c :: s =>
    if pattern.isPrefixOf (c :: s) then removeFrom pattern (pattern.length - 1) s
    else c :: removeFrom pattern 0 s

def stringDelimiter : Str := "<|\"|>".toList

def withoutDelimiter (value : Str) : Str := removeFrom stringDelimiter 0 value

def renderGemma4String (value : Str) : Str :=
  stringDelimiter ++ withoutDelimiter value ++ stringDelimiter

mutual

def renderGemma4Argument : Json → Str
  | .null => "null".toList
  | .bool true => "true".toList
  | .bool false => "false".toList
  | .u64 n => Nat.toDigits 10 n
  | .number text => text.toList
  | .string value => renderGemma4String value.toList
  | .array items => '[' :: (Json.commas (renderGemma4Items items) ++ [']'])
  | .object entries => '\x7b' :: (Json.commas (renderGemma4Entries entries) ++ ['\x7d'])

def renderGemma4Items : List Json → List Str
  | [] => []
  | item :: items => renderGemma4Argument item :: renderGemma4Items items

def renderGemma4Entries : List (String × Json) → List Str
  | [] => []
  | (key, value) :: entries =>
    (key.toList ++ ':' :: renderGemma4Argument value) :: renderGemma4Entries entries

end

def renderGemma4ToolDefinition (tool : ToolDefinition) : Str :=
  let description := match tool.function.description with
    | some description => "description:".toList ++ renderGemma4String description ++ [',']
    | none => []
  "declaration:".toList ++ tool.function.name ++ '\x7b' :: description ++ "parameters:".toList ++
    renderGemma4Argument tool.function.parameters ++ ['\x7d']

/-! ### Turns -/

def renderGemma4Turn (out : Prompt) (role : String) (message : ChatMessage) : Render Prompt := do
  let out := ((out.pushStr "<|turn>").pushStr role).pushStr "\n"
  let out ← pushContent gemmaReserved trim out message.content
  return out.pushStr "<turn|>\n"

/-- A call: the check covers the arguments, not the name. -/
def renderGemma4Call (out : Prompt) (call : ToolCall Json) : Render Prompt := do
  let arguments := renderGemma4Argument call.function.arguments
  rejectPromptControls gemmaReserved arguments
  let out := (out.pushStr "<|tool_call>call:").pushText call.function.name
  return (out.pushText arguments).pushStr "<tool_call|>"

def renderGemma4AssistantTurn (out : Prompt) (message : ChatMessage) : Render Prompt := do
  let out := out.pushStr "<|turn>model\n"
  let out ← pushContent gemmaReserved trim out message.content
  let out ← message.toolCalls.foldlM renderGemma4Call out
  return out.pushStr "<turn|>\n"

/-- `tool_names_by_id`: the name of the last call with the id. -/
def toolNamesById (messages : List ChatMessage) (id : Str) : Option Str :=
  ((messages.flatMap (·.toolCalls)).reverse.find? fun call => call.id == id).map (·.function.name)

/-- The name a tool response is printed under. -/
def responseName (messages : List ChatMessage) (message : ChatMessage) : Str :=
  ((message.toolCallId.bind (toolNamesById messages)).or message.name).getD "unknown".toList

/-- A tool response: the check covers the content before the delimiters are deleted from it. -/
def renderGemma4ToolResponse (messages : List ChatMessage) (out : Prompt) (message : ChatMessage) :
    Render Prompt := do
  let content := message.content.getD []
  rejectPromptControls gemmaReserved content
  let out := (out.pushStr "<|tool_response>response:").pushText (responseName messages message)
  let out := (out.pushStr "\x7bvalue:").pushText (renderGemma4String content)
  return out.pushStr "\x7d<tool_response|>"

def renderGemma4Message (messages : List ChatMessage) (out : Prompt) (message : ChatMessage) :
    Render Prompt :=
  match message.role with
  | .system => renderGemma4Turn out "system" message
  | .user => renderGemma4Turn out "user" message
  | .assistant => renderGemma4AssistantTurn out message
  | .tool => renderGemma4ToolResponse messages out message

def renderGemma4Tool (out : Prompt) (tool : ToolDefinition) : Render Prompt := do
  let rendered := renderGemma4ToolDefinition tool
  rejectPromptControls gemmaReserved rendered
  return ((out.pushStr "<|tool>").pushText rendered).pushStr "<tool|>"

/-- The system turn, with the content of a first system message and the declared tools, and
how many messages it has used up. -/
def renderGemma4System (out : Prompt) (messages : List ChatMessage) (tools : List ToolDefinition)
    (options : GemmaPromptOptions) (toolInstruction : Option String) : Render (Prompt × ℕ) :=
  if options.enableThinking || !tools.isEmpty || (firstSystem messages).isSome then do
    let out := out.pushStr "<|turn>system\n"
    let out := if options.enableThinking then out.pushStr "<|think|>\n" else out
    let out := pushInstruction out toolInstruction
    let out ← pushContent gemmaReserved trim out ((firstSystem messages).bind (·.content))
    let out ← tools.foldlM renderGemma4Tool out
    return (out.pushStr "<turn|>\n", if (firstSystem messages).isSome then 1 else 0)
  else .ok (out, 0)

def renderGemma4ChatTemplateWithToolInstruction (messages : List ChatMessage)
    (tools : List ToolDefinition) (options : GemmaPromptOptions) (toolInstruction : Option String) :
    Render Prompt := do
  let out := pushStr [] "<bos>"
  let (out, messageIndex) ← renderGemma4System out messages tools options toolInstruction
  let out ← (messages.drop messageIndex).foldlM (renderGemma4Message messages) out
  if options.addGenerationPrompt then
    let out := out.pushStr "<|turn>model\n"
    return if options.enableThinking then out else out.pushStr "<|channel>thought\n<channel|>"
  else return out

/-- The adapters of the runtime have no tool instruction for Gemma either. -/
def renderGemma4ChatTemplate (messages : List ChatMessage) (tools : List ToolDefinition)
    (options : GemmaPromptOptions) : Render Prompt :=
  renderGemma4ChatTemplateWithToolInstruction messages tools options none

end KirAi.ChatTemplate
