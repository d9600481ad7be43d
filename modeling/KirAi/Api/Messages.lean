/-
# Messages and tools of a chat request

`llm-api`, `types.rs` and `tool_schema.rs`: the messages of a conversation, the tools that
are declared to the model, and the JSON that `serde` derives for a tool.
-/
import KirAi.Lib.Json
import KirAi.Runtime.Assistant

namespace KirAi.Api

open Lib
open KirAi.Runtime (Str ToolCall ToolCallType)

inductive ChatRole
  | system
  | user
  | assistant
  | tool
deriving DecidableEq, Repr

def ChatRole.asStr : ChatRole → String
  | .system => "system"
  | .user => "user"
  | .assistant => "assistant"
  | .tool => "tool"

structure ChatMessage where
  role : ChatRole
  content : Option Str
  name : Option Str
  toolCallId : Option Str
  toolCalls : List (ToolCall Json)

structure FunctionDefinition where
  name : Str
  description : Option Str
  parameters : Json

structure ToolDefinition where
  toolType : ToolCallType
  function : FunctionDefinition

def ToolCallType.json : ToolCallType → Json
  | .function => .string "function"

/-- A description that is not given is not printed. -/
def FunctionDefinition.json (function : FunctionDefinition) : Json :=
  let description :=
    match function.description with
    | none => []
    | some description => [("description", Json.string (String.ofList description))]
  .object ([("name", .string (String.ofList function.name))] ++ description ++
    [("parameters", function.parameters)])

def ToolDefinition.json (tool : ToolDefinition) : Json :=
  .object [("type", ToolCallType.json tool.toolType), ("function", tool.function.json)]

/-- The text `serde_json::to_string` gives for a list of tools. -/
def toolsJson (tools : List ToolDefinition) : Str := (Json.array (tools.map ToolDefinition.json)).chars

end KirAi.Api
