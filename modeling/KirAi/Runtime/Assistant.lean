/-
# An assistant turn

What the parser of a model family makes of an output text (`llm-tool-parser`, `types.rs`):
the reasoning, the content a user sees, and the tool calls (`llm-api`, `tool_schema.rs`).
`J` is the type of JSON values.
-/
import KirAi.Runtime.Stop

namespace KirAi.Runtime

inductive ToolCallType
  | function
deriving DecidableEq, Repr

structure ToolCallFunction (J : Type) where
  name : Str
  arguments : J
deriving DecidableEq, Repr

structure ToolCall (J : Type) where
  id : Str
  callType : ToolCallType
  function : ToolCallFunction J
deriving DecidableEq, Repr

structure ParsedAssistant (J : Type) where
  reasoning : Option Str
  content : Str
  toolCalls : List (ToolCall J)
deriving DecidableEq, Repr

end KirAi.Runtime
