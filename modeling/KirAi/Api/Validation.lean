/-
# Validation of a chat request

`llm-api`, `validation.rs` and `validation/helpers.rs`, as far as messages and tools go: the
fields each role may have, the order of the messages, the sizes of texts and of serialized
JSON, and the shape of a tool's schema. Texts are measured in bytes, as the source does.

Of what a validated list of messages guarantees, the templates rest on two facts: only
assistant messages carry tool calls, and a tool message answers a call of a message before
it (`validateChatMessages_ok`).

Key definitions: `validateChatMessages`, `validateTools`, `validateMessagesAndTools`.
Key theorems: `validateChatMessages_ok`.
-/
import KirAi.Api.Messages
import KirAi.Lib.Except

namespace KirAi.Api

open Lib Lib.Text
open KirAi.Runtime (Str ToolCall trim)

/-- `ApiError::invalid_request`, with its message. -/
structure ApiError where
  message : String
deriving DecidableEq, Repr

abbrev Validate (α : Type) := Except ApiError α

def invalidRequest {α : Type} (message : String) : Validate α := .error ⟨message⟩

def maxChatMessages : ℕ := 128
def maxNameBytes : ℕ := 1024
def maxTools : ℕ := 128
def maxToolDescriptionBytes : ℕ := 1024 * 1024
def maxToolSchemaBytes : ℕ := 1024 * 1024
def maxToolCallsPerMessage : ℕ := 128
def maxToolArgumentBytes : ℕ := 1024 * 1024

/-- The limits that concern messages and tools. -/
structure RequestLimits where
  messageContentBytes : ℕ
  toolSchemaDepth : ℕ
  toolSchemaEnumValues : ℕ
deriving DecidableEq, Repr

def RequestLimits.default : RequestLimits := ⟨8 * 1024 * 1024, 16, 256⟩

/-! ### Sizes -/

def validateLenAtMost (label : String) (actual max : ℕ) : Validate Unit :=
  if actual > max then invalidRequest s!"{label} must contain at most {max} entries" else .ok ()

def validateStringBytes (label : String) (value : Str) (max : ℕ) : Validate Unit :=
  if len value > max then invalidRequest s!"{label} must be at most {max} bytes" else .ok ()

def validateNonEmptyString (label : String) (value : Str) : Validate Unit :=
  if (trim value).isEmpty then invalidRequest s!"{label} must not be empty" else .ok ()

/-- The bytes of a character inside of a JSON string. -/
def jsonCharBytes (c : Char) : ℕ :=
  if c = '"' ∨ c = '\\' ∨ c.toNat = 8 ∨ c = '\t' ∨ c = '\n' ∨ c.toNat = 12 ∨ c = '\r' then 2
  else if c.toNat < 32 then 6
  else c.utf8Size

/-- `JsonByteCounter`: counting stops when the limit is passed. -/
def addBytes (max written bytes : ℕ) : Option ℕ :=
  if written + bytes > max then none else some (written + bytes)

def addJsonString (max written : ℕ) (value : Str) : Option ℕ := do
  let written ← addBytes max written 2
  value.foldlM (fun written c => addBytes max written (jsonCharBytes c)) written

mutual

/-- The values on the stack of the source are those the recursion still has to visit. -/
def countValue (max written : ℕ) : Json → Option ℕ
  | .null => addBytes max written 4
  | .bool true => addBytes max written 4
  | .bool false => addBytes max written 5
  | .u64 n => addBytes max written (len (Nat.toDigits 10 n))
  | .number text => addBytes max written (len text.toList)
  | .string value => addJsonString max written value.toList
  | .array values => do
    let written ← addBytes max written 1
    let written ← countValues max written true values
    addBytes max written 1
  | .object entries => do
    let written ← addBytes max written 1
    let written ← countEntries max written true entries
    addBytes max written 1

def countValues (max written : ℕ) (first : Bool) : List Json → Option ℕ
  | [] => some written
  | value :: values => do
    let written ← addBytes max written (if first then 0 else 1)
    let written ← countValue max written value
    countValues max written false values

def countEntries (max written : ℕ) (first : Bool) : List (String × Json) → Option ℕ
  | [] => some written
  | (key, value) :: entries => do
    let written ← addBytes max written (if first then 0 else 1)
    let written ← addJsonString max written key.toList
    let written ← addBytes max written 1
    let written ← countValue max written value
    countEntries max written false entries

end

def validateJsonBytesAtMost (label : String) (value : Json) (max : ℕ) : Validate Unit :=
  if (countValue max 0 value).isSome then .ok ()
  else invalidRequest s!"{label} must serialize to at most {max} bytes"

/-! ### Messages -/

def rejectToolCallIdForNonToolMessage (index : ℕ) (message : ChatMessage) : Validate Unit :=
  if message.toolCallId.isSome then
    invalidRequest s!"messages[{index}].tool_call_id is only allowed for tool messages"
  else .ok ()

def rejectToolCallsForNonAssistantMessage (index : ℕ) (message : ChatMessage) : Validate Unit :=
  if !message.toolCalls.isEmpty then
    invalidRequest s!"messages[{index}].tool_calls is only allowed for assistant messages"
  else .ok ()

def validateChatMessageRoleFields (index : ℕ) (message : ChatMessage) (contentLabel : String) :
    Validate Unit :=
  let role := message.role.asStr
  match message.role with
  | .system | .user =>
    if message.content.isNone then
      invalidRequest s!"{contentLabel} is required for {role} messages"
    else do
      rejectToolCallIdForNonToolMessage index message
      rejectToolCallsForNonAssistantMessage index message
  | .assistant =>
    if message.content.isNone && message.toolCalls.isEmpty then
      invalidRequest s!"{contentLabel} is required for assistant messages without tool_calls"
    else rejectToolCallIdForNonToolMessage index message
  | .tool =>
    if message.content.isNone then
      invalidRequest s!"{contentLabel} is required for tool messages"
    else if message.toolCallId.isNone then
      invalidRequest s!"messages[{index}].tool_call_id is required for tool messages"
    else rejectToolCallsForNonAssistantMessage index message

/-- What the check of the order carries from message to message. -/
structure MessageOrder where
  seenConversationMessage : Bool
  pendingToolCallIds : List Str
  pendingToolCallMessage : Option ℕ
deriving DecidableEq, Repr

def rejectNonToolMessageWhileToolCallsPending (index : ℕ) (order : MessageOrder) : Validate Unit :=
  if order.pendingToolCallIds.isEmpty then .ok ()
  else
    let pending := match order.pendingToolCallMessage with
      | some pending => s!" from messages[{pending}].tool_calls"
      | none => ""
    invalidRequest s!"messages[{index}].role must be tool while assistant tool calls{pending} are pending"

/-- The ids of the calls of a message, which must differ. -/
def insertToolCallIds (index : ℕ) : ℕ → List (ToolCall Json) → List Str → Validate (List Str)
  | _, [], ids => .ok ids
  | callIndex, call :: calls, ids =>
    if ids.contains call.id then
      invalidRequest s!"messages[{index}].tool_calls[{callIndex}].id duplicates another tool call id in the same assistant message"
    else insertToolCallIds index (callIndex + 1) calls (ids ++ [call.id])

def validateChatMessageOrder (index : ℕ) (message : ChatMessage) (order : MessageOrder) :
    Validate MessageOrder :=
  match message.role with
  | .system =>
    if order.seenConversationMessage then
      invalidRequest s!"messages[{index}].role system messages must appear before user, assistant, or tool messages"
    else .ok order
  | .user => do
    rejectNonToolMessageWhileToolCallsPending index order
    return { order with seenConversationMessage := true }
  | .assistant => do
    rejectNonToolMessageWhileToolCallsPending index order
    let ids ← insertToolCallIds index 0 message.toolCalls []
    return ⟨true, ids, if ids.isEmpty then none else some index⟩
  | .tool =>
    match message.toolCallId with
    | none => invalidRequest s!"messages[{index}].tool_call_id is required for tool messages"
    | some toolCallId =>
      if order.pendingToolCallIds.isEmpty then
        invalidRequest s!"messages[{index}].role tool messages must follow an assistant message with tool_calls"
      else if !order.pendingToolCallIds.contains toolCallId then
        let id := String.ofList toolCallId
        invalidRequest s!"messages[{index}].tool_call_id `{id}` does not match a pending assistant tool call"
      else
        let ids := order.pendingToolCallIds.erase toolCallId
        .ok ⟨true, ids, if ids.isEmpty then none else order.pendingToolCallMessage⟩

def validateToolCall (index callIndex : ℕ) (call : ToolCall Json) : Validate Unit := do
  validateStringBytes s!"messages[{index}].tool_calls[{callIndex}].id" call.id maxNameBytes
  validateNonEmptyString s!"messages[{index}].tool_calls[{callIndex}].function.name"
    call.function.name
  validateStringBytes s!"messages[{index}].tool_calls[{callIndex}].function.name"
    call.function.name maxNameBytes
  validateJsonBytesAtMost s!"messages[{index}].tool_calls[{callIndex}].function.arguments"
    call.function.arguments maxToolArgumentBytes

def validateToolCalls (index : ℕ) : ℕ → List (ToolCall Json) → Validate Unit
  | _, [] => .ok ()
  | callIndex, call :: calls => do
    validateToolCall index callIndex call
    validateToolCalls index (callIndex + 1) calls

def validateContent (label : String) (limits : RequestLimits) : Option Str → Validate Unit
  | none => .ok ()
  | some content => validateStringBytes label content limits.messageContentBytes

def validateName (index : ℕ) : Option Str → Validate Unit
  | none => .ok ()
  | some name => validateStringBytes s!"messages[{index}].name" name maxNameBytes

def validateToolCallId (index : ℕ) (role : ChatRole) : Option Str → Validate Unit
  | none => .ok ()
  | some toolCallId =>
    if role = .tool then do
      validateNonEmptyString s!"messages[{index}].tool_call_id" toolCallId
      validateStringBytes s!"messages[{index}].tool_call_id" toolCallId maxNameBytes
    else validateStringBytes s!"messages[{index}].tool_call_id" toolCallId maxNameBytes

def validateChatMessage (limits : RequestLimits) (index : ℕ) (message : ChatMessage)
    (order : MessageOrder) : Validate MessageOrder := do
  let label := s!"messages[{index}].content"
  validateChatMessageRoleFields index message label
  let order ← validateChatMessageOrder index message order
  validateContent label limits message.content
  validateName index message.name
  validateToolCallId index message.role message.toolCallId
  validateLenAtMost s!"messages[{index}].tool_calls" message.toolCalls.length
    maxToolCallsPerMessage
  validateToolCalls index 0 message.toolCalls
  return order

def validateEachMessage (limits : RequestLimits) :
    ℕ → MessageOrder → List ChatMessage → Validate MessageOrder
  | _, order, [] => .ok order
  | index, order, message :: messages => do
    let order ← validateChatMessage limits index message order
    validateEachMessage limits (index + 1) order messages

def validateChatMessages (messages : List ChatMessage) (limits : RequestLimits) :
    Validate Unit := do
  let order ← validateEachMessage limits 0 ⟨false, [], none⟩ messages
  match order.pendingToolCallMessage with
  | some index =>
    invalidRequest s!"messages[{index}].tool_calls must be followed by tool messages for every pending tool call"
  | none => .ok ()

/-! ### Tools -/

def supportedJsonSchemaTypes : List String :=
  ["array", "boolean", "integer", "null", "number", "object", "string"]

def getEntry (key : String) (entries : List (String × Json)) : Option Json :=
  (entries.find? fun entry => entry.1 == key).map (·.2)

def validateSchemaTypeName (label typeName : String) : Validate Unit :=
  if supportedJsonSchemaTypes.contains typeName then .ok ()
  else
    let supported := ", ".intercalate supportedJsonSchemaTypes
    invalidRequest s!"{label} has unsupported JSON Schema type `{typeName}`; supported types: {supported}"

def validateSchemaTypes (label : String) : ℕ → List Json → Validate Unit
  | _, [] => .ok ()
  | index, value :: values =>
    match value.asStr with
    | none => invalidRequest s!"{label}.type must be a string or array of strings"
    | some typeName => do
      validateSchemaTypeName s!"{label}.type[{index}]" typeName
      validateSchemaTypes label (index + 1) values

def validateSchemaType (label : String) : Json → Validate Unit
  | .string typeName => validateSchemaTypeName s!"{label}.type" typeName
  | .array types =>
    if types.isEmpty then
      invalidRequest s!"{label}.type must contain at least one JSON Schema type"
    else validateSchemaTypes label 0 types
  | _ => invalidRequest s!"{label}.type must be a string or array of strings"

def validateSchemaRequired (label : String) (required : Json) : Validate Unit :=
  match required.asArray with
  | none => invalidRequest s!"{label}.required must be an array of strings"
  | some required =>
    if required.all fun value => value.asStr.isSome then .ok ()
    else invalidRequest s!"{label}.required must contain only strings"

def validateSchemaEnum (label : String) (maxEnumValues : ℕ) (enumValues : Json) : Validate Unit :=
  match enumValues.asArray with
  | none => invalidRequest s!"{label}.enum must be an array"
  | some enumValues =>
    let size := enumValues.length
    if size > maxEnumValues then
      invalidRequest s!"{label}.enum size {size} exceeds maximum {maxEnumValues}"
    else .ok ()

/-- A check of an entry that may be missing. -/
def validateEntry (check : Json → Validate Unit) : Option Json → Validate Unit
  | none => .ok ()
  | some value => check value

/-- A nested schema; `left` counts how many levels are allowed below and including it, so
that the depth of the source is `max_depth + 1 - left`. -/
def validateSchemaObject (maxDepth maxEnumValues : ℕ) :
    (left : ℕ) → (label : String) → Json → Validate Unit
  | 0, label, value =>
    match value.asObject with
    | none => invalidRequest s!"{label} must be a JSON object"
    | some _ =>
      let depth := maxDepth + 1
      invalidRequest s!"{label} schema depth {depth} exceeds maximum {maxDepth}"
  | left + 1, label, value =>
    match value.asObject with
    | none => invalidRequest s!"{label} must be a JSON object"
    | some schema => do
      validateEntry (validateSchemaType label) (getEntry "type" schema)
      validateEntry (validateSchemaRequired label) (getEntry "required" schema)
      validateEntry (validateSchemaEnum label maxEnumValues) (getEntry "enum" schema)
      validateEntry (fun properties =>
          match properties.asObject with
          | none => invalidRequest s!"{label}.properties must be a JSON object"
          | some properties => properties.forM fun (name, propertySchema) =>
            validateSchemaObject maxDepth maxEnumValues left s!"{label}.properties.{name}"
              propertySchema)
        (getEntry "properties" schema)
      validateEntry (validateSchemaObject maxDepth maxEnumValues left s!"{label}.items")
        (getEntry "items" schema)

def validateDescription (label : String) : Option Str → Validate Unit
  | none => .ok ()
  | some description => validateStringBytes label description maxToolDescriptionBytes

def validateTool (limits : RequestLimits) (index : ℕ) (tool : ToolDefinition) : Validate Unit := do
  validateNonEmptyString s!"tools[{index}].function.name" tool.function.name
  validateStringBytes s!"tools[{index}].function.name" tool.function.name maxNameBytes
  validateDescription s!"tools[{index}].function.description" tool.function.description
  validateSchemaObject limits.toolSchemaDepth limits.toolSchemaEnumValues
    (limits.toolSchemaDepth + 1) s!"tools[{index}].function.parameters" tool.function.parameters
  validateJsonBytesAtMost s!"tools[{index}].function.parameters" tool.function.parameters
    maxToolSchemaBytes

def validateEachTool (limits : RequestLimits) : ℕ → List ToolDefinition → Validate Unit
  | _, [] => .ok ()
  | index, tool :: tools => do
    validateTool limits index tool
    validateEachTool limits (index + 1) tools

def validateTools (tools : List ToolDefinition) (limits : RequestLimits) : Validate Unit :=
  validateEachTool limits 0 tools

def validateMessagesPresent (messages : List ChatMessage) : Validate Unit :=
  if messages.isEmpty then invalidRequest "messages must not be empty" else .ok ()

/-- The checks of `ChatCompletionRequest::validate_with_limits` that concern the messages and
the tools. -/
def validateMessagesAndTools (messages : List ChatMessage) (tools : List ToolDefinition)
    (limits : RequestLimits) : Validate Unit := do
  validateMessagesPresent messages
  validateLenAtMost "messages" messages.length maxChatMessages
  validateChatMessages messages limits
  validateLenAtMost "tools" tools.length maxTools
  validateTools tools limits

/-! ### What validation guarantees -/

theorem roleFields_ok {index : ℕ} {message : ChatMessage} {label : String}
    (h : validateChatMessageRoleFields index message label = .ok ())
    (hrole : message.role ≠ .assistant) : message.toolCalls = [] := by
  have hnone : rejectToolCallsForNonAssistantMessage index message = .ok () := by
    unfold validateChatMessageRoleFields at h
    cases hr : message.role with
    | assistant => exact absurd hr hrole
    | system | user =>
      rw [hr] at h
      dsimp only at h
      split at h
      · cases h
      · obtain ⟨_, -, hcalls⟩ := bind_eq_ok.1 h
        exact hcalls
    | tool =>
      rw [hr] at h
      dsimp only at h
      split at h
      · cases h
      · split at h
        · cases h
        · exact h
  unfold rejectToolCallsForNonAssistantMessage at hnone
  split at hnone
  · cases hnone
  · next hempty => simpa using hempty

theorem insertToolCallIds_ok {index : ℕ} : ∀ {callIndex : ℕ} {calls : List (ToolCall Json)}
    {ids ids' : List Str}, insertToolCallIds index callIndex calls ids = .ok ids' →
    ids' = ids ++ calls.map (·.id)
  | _, [], ids, ids', h => by
    obtain rfl := Except.ok.inj h
    simp
  | callIndex, call :: calls, ids, ids', h => by
    unfold insertToolCallIds at h
    split at h
    · cases h
    · rw [insertToolCallIds_ok h, List.map_cons, List.append_assoc, List.singleton_append]

/-- The pending ids are ids of calls in the messages `before`. -/
def PendingIn (before : List ChatMessage) (order : MessageOrder) : Prop :=
  ∀ id ∈ order.pendingToolCallIds, ∃ message ∈ before, ∃ call ∈ message.toolCalls, call.id = id

/-- A tool message answers a call in the messages `before`. -/
def Answers (before : List ChatMessage) (message : ChatMessage) : Prop :=
  message.role = .tool →
    ∃ id, message.toolCallId = some id ∧
      ∃ m ∈ before, ∃ call ∈ m.toolCalls, call.id = id

theorem messageOrder_ok {index : ℕ} {message : ChatMessage} {order order' : MessageOrder}
    {before : List ChatMessage} (hpending : PendingIn before order)
    (h : validateChatMessageOrder index message order = .ok order') :
    PendingIn (before ++ [message]) order' ∧ Answers before message := by
  have hgrow : PendingIn (before ++ [message]) order := by
    intro id hid
    obtain ⟨m, hm, hcall⟩ := hpending id hid
    exact ⟨m, List.mem_append_left _ hm, hcall⟩
  unfold validateChatMessageOrder at h
  cases hrole : message.role with
  | system =>
    rw [hrole] at h
    dsimp only at h
    split at h
    · cases h
    · obtain rfl := Except.ok.inj h
      exact ⟨hgrow, fun htool => by rw [hrole] at htool; cases htool⟩
  | user =>
    rw [hrole] at h
    obtain ⟨_, -, hout⟩ := bind_eq_ok.1 h
    obtain rfl := pure_eq_ok.1 hout
    exact ⟨hgrow, fun htool => by rw [hrole] at htool; cases htool⟩
  | assistant =>
    rw [hrole] at h
    obtain ⟨_, -, hrest⟩ := bind_eq_ok.1 h
    obtain ⟨ids, hids, hout⟩ := bind_eq_ok.1 hrest
    obtain rfl := pure_eq_ok.1 hout
    refine ⟨fun id hid => ?_, fun htool => by rw [hrole] at htool; cases htool⟩
    rw [insertToolCallIds_ok hids, List.nil_append] at hid
    obtain ⟨call, hcall, rfl⟩ := List.mem_map.1 hid
    exact ⟨message, by simp, call, hcall, rfl⟩
  | tool =>
    rw [hrole] at h
    dsimp only at h
    split at h
    · cases h
    · next toolCallId hid =>
      split at h
      · cases h
      · split at h
        · cases h
        · next hmem =>
          obtain rfl := Except.ok.inj h
          refine ⟨fun id hid' => hgrow id (List.mem_of_mem_erase hid'), fun _ => ⟨toolCallId, hid, ?_⟩⟩
          exact hpending toolCallId (by simpa using hmem)

theorem chatMessage_ok {limits : RequestLimits} {index : ℕ} {message : ChatMessage}
    {order order' : MessageOrder} {before : List ChatMessage} (hpending : PendingIn before order)
    (h : validateChatMessage limits index message order = .ok order') :
    (message.role ≠ .assistant → message.toolCalls = []) ∧
      PendingIn (before ++ [message]) order' ∧ Answers before message := by
  obtain ⟨_, hfields, hrest⟩ := bind_eq_ok.1 h
  obtain ⟨order₁, horder, hrest⟩ := bind_eq_ok.1 hrest
  obtain ⟨_, -, hrest⟩ := bind_eq_ok.1 hrest
  obtain ⟨_, -, hrest⟩ := bind_eq_ok.1 hrest
  obtain ⟨_, -, hrest⟩ := bind_eq_ok.1 hrest
  obtain ⟨_, -, hrest⟩ := bind_eq_ok.1 hrest
  obtain ⟨_, -, hout⟩ := bind_eq_ok.1 hrest
  obtain rfl := pure_eq_ok.1 hout
  exact ⟨roleFields_ok hfields, messageOrder_ok hpending horder⟩

theorem eachMessage_ok {limits : RequestLimits} : ∀ {index : ℕ} {messages before : List ChatMessage}
    {order order' : MessageOrder}, PendingIn before order →
    validateEachMessage limits index order messages = .ok order' →
    ∀ message ∈ messages, (message.role ≠ .assistant → message.toolCalls = []) ∧
      Answers (before ++ messages) message
  | _, [], _, _, _, _, _ => by simp
  | index, message :: messages, before, order, order', hpending, h => by
    obtain ⟨order₁, hfirst, hrest⟩ := bind_eq_ok.1 h
    obtain ⟨hcalls, hpending₁, hanswers⟩ := chatMessage_ok hpending hfirst
    have ih := eachMessage_ok hpending₁ hrest
    intro m hm
    rcases List.mem_cons.1 hm with rfl | hm
    · refine ⟨hcalls, fun htool => ?_⟩
      obtain ⟨id, hid, m', hm', hcall⟩ := hanswers htool
      exact ⟨id, hid, m', List.mem_append_left _ hm', hcall⟩
    · have hm := ih m hm
      rwa [List.append_assoc, List.singleton_append] at hm

/-- In a list of messages that passes validation only assistant messages carry tool calls, and
a tool message answers a call of the list. -/
theorem validateChatMessages_ok {messages : List ChatMessage} {limits : RequestLimits}
    (h : validateChatMessages messages limits = .ok ()) {message : ChatMessage}
    (hmessage : message ∈ messages) :
    (message.role ≠ .assistant → message.toolCalls = []) ∧ Answers messages message := by
  obtain ⟨order, horder, -⟩ := bind_eq_ok.1 h
  have hpending : PendingIn [] ⟨false, [], none⟩ := nofun
  exact eachMessage_ok hpending horder message hmessage

end KirAi.Api
