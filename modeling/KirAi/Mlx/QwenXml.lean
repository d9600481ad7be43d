/-
# The parser for Qwen's XML tool calls

`llm-engine`, `mlx/sse.rs`: the parser that the MLX adapter puts behind a model that calls
tools as `<tool_call><function=f><parameter=k>v</parameter></function></tool_call>`. It is
given the text of the model in fragments and emits the text a user sees and the calls: as
deltas, or in text mode as JSON in `<tool_call>` tags. Five states say what it expects
next; in each of them it uses a piece of its buffer or waits for more.

A `process…` function answers `none` when it waits. Where the source drains the buffer and
then fails, nothing looks at the parser again.

Key definitions:
* `QwenXmlToolParser`, `QwenXmlToolParser.process`, `QwenXmlToolParser.pushStr`
* `QwenXmlToolParser.finish`, `QwenXmlToolParser.finishTruncated`
* `QwenXmlToolSchema.fromTools`
-/
import KirAi.Api.Messages
import KirAi.Lib.Pending
import KirAi.Runtime.Chunk
import KirAi.ToolParser.Basic

namespace KirAi.Mlx

open Lib Lib.Text
open KirAi.Api (ToolDefinition)
open KirAi.Runtime (Str BackendToolCallDelta isWhitespace trim trimStart)
open KirAi.ToolParser (Env contains startsWith)

inductive BackendError
  | other (message : Str)
deriving DecidableEq, Repr

def qwenXmlError {α : Type} (message : Str) : Except BackendError α :=
  .error (.other ("Qwen XML tool parser error: ".toList ++ message))

def qwenXmlToolStart : Str := "<tool_call>".toList
def qwenXmlToolEnd : Str := "</tool_call>".toList
def qwenXmlFunctionStart : Str := "<function=".toList
def qwenXmlFunctionEnd : Str := "</function>".toList
def qwenXmlParameterStart : Str := "<parameter=".toList
def qwenXmlParameterEnd : Str := "</parameter>".toList
def qwenReasoningStart : Str := "<think>".toList
def qwenReasoningEnd : Str := "</think>".toList

/-! ### The schema of the tools -/

inductive QwenXmlParameterKind
  | string
  | json
deriving DecidableEq, Repr

structure QwenXmlToolSchema where
  functions : List (String × List (String × QwenXmlParameterKind)) := []

/-- `Value::get` with a key. -/
def valueGet (v : Json) (key : String) : Option Json := v.asObject.bind (lookupKey · key)

def schemaPropertyIsString (property : Json) : Bool :=
  match valueGet property "type" with
  | some (.string kind) => kind == "string"
  | some (.array kinds) => kinds.any fun kind => kind.asStr == some "string"
  | _ => false

def parameterKindOf (property : Json) : QwenXmlParameterKind :=
  if schemaPropertyIsString property then .string else .json

def QwenXmlToolSchema.fromTools (tools : List ToolDefinition) : QwenXmlToolSchema where
  functions := tools.foldl (fun functions tool =>
    let properties := ((valueGet tool.function.parameters "properties").bind Json.asObject).getD []
    let parameters := properties.foldl (fun parameters entry =>
      insertKey parameters entry.1 (parameterKindOf entry.2)) []
    insertKey functions (String.ofList tool.function.name) parameters) []

def QwenXmlToolSchema.parameterKind (schema : QwenXmlToolSchema) (function key : Str) :
    QwenXmlParameterKind :=
  ((lookupKey schema.functions (String.ofList function)).bind fun parameters =>
    lookupKey parameters (String.ofList key)).getD .string

/-! ### The parser -/

inductive QwenXmlState
  | outside
  | expectFunction
  | inFunction
  | inParameter
  | expectToolClose
deriving DecidableEq, Repr

/-- The name of a state in the text of an error. -/
def QwenXmlState.debug : QwenXmlState → String
  | .outside => "Outside"
  | .expectFunction => "ExpectFunction"
  | .inFunction => "InFunction"
  | .inParameter => "InParameter"
  | .expectToolClose => "ExpectToolClose"

structure QwenXmlEmission where
  text : Str
  toolCallDeltas : List BackendToolCallDelta
deriving DecidableEq, Repr

def QwenXmlEmission.ofText (text : Str) : QwenXmlEmission := ⟨text, []⟩

def QwenXmlEmission.ofDelta (delta : BackendToolCallDelta) : QwenXmlEmission := ⟨[], [delta]⟩

structure QwenXmlActiveCall where
  index : ℕ
  name : Str
  argumentCount : ℕ
  argumentsJson : Str
deriving DecidableEq, Repr

structure QwenXmlActiveParameter where
  key : Str
  keyText : Str
  kind : QwenXmlParameterKind
  value : Str
deriving DecidableEq, Repr

structure QwenXmlToolParser where
  structuredDeltas : Bool
  schema : QwenXmlToolSchema
  state : QwenXmlState := .outside
  buffer : Str := []
  nextIndex : ℕ := 0
  currentCall : Option QwenXmlActiveCall := none
  currentParameter : Option QwenXmlActiveParameter := none

/-- `escape_json_string_fragment`. -/
def escapeJsonStringFragment (value : Str) : Str := Json.escape value

inductive QwenXmlOutsideMarker
  | toolStart
  | reasoningStart
deriving DecidableEq, Repr

/-- The marker that is found first; of two in one place, the first of the two. -/
def earliestQwenMarker (buffer : Str) : Option (ℕ × QwenXmlOutsideMarker) :=
  match find qwenXmlToolStart buffer, find qwenReasoningStart buffer with
  | none, none => none
  | some i, none => some (i, .toolStart)
  | none, some j => some (j, .reasoningStart)
  | some i, some j => if j < i then some (j, .reasoningStart) else some (i, .toolStart)

def pendingTagPrefixLen (buffer tag : Str) : ℕ := ((pendingLens tag buffer).max?).getD 0

def isPartialTagPrefix (buffer tag : Str) : Bool :=
  decide (len buffer < len tag) && startsWith tag buffer

/-- What a tag that the buffer starts with says up to its `>`, and the text after it. -/
def tagArgument (tag buffer : Str) : Option (Str × Str) :=
  (find ['>'] buffer).map fun stop =>
    (takeTo (dropTo buffer (len tag)) (stop - len tag), dropTo buffer (stop + 1))

/-- A name that is blank or holds a `<`. -/
def badName (name : Str) : Bool := (trim name).isEmpty || contains name ['<']

/-- The text before the value of a parameter: `next_parameter_prefix`. -/
def QwenXmlActiveCall.nextParameterPrefix (call : QwenXmlActiveCall) (key : Str) :
    QwenXmlActiveCall × Str :=
  ({ call with argumentCount := call.argumentCount + 1 },
    (if call.argumentCount = 0 then ['{'] else [',']) ++ Json.quote key ++ [':'])

namespace QwenXmlToolParser

variable (E : Env) (p : QwenXmlToolParser)

/-- The first `n` bytes of the buffer as text. -/
def emitTo (n : ℕ) : QwenXmlToolParser × List QwenXmlEmission :=
  ({ p with buffer := dropTo p.buffer n }, [.ofText (takeTo p.buffer n)])

def drainLeadingWhitespace : Option QwenXmlToolParser :=
  let trimmed := trimStart p.buffer
  if 0 < len p.buffer - len trimmed then some { p with buffer := trimmed } else none

def drainLeadingReasoningBlock : Option (QwenXmlToolParser × List QwenXmlEmission) :=
  if startsWith p.buffer qwenReasoningStart then
    let bodyStart := len qwenReasoningStart
    (find qwenReasoningEnd (dropTo p.buffer bodyStart)).map fun endRel =>
      p.emitTo (bodyStart + endRel + len qwenReasoningEnd)
  else none

def pushArgumentFragment (fragment : Str) :
    Except BackendError (QwenXmlToolParser × List QwenXmlEmission) :=
  match p.currentCall with
  | none => qwenXmlError "argument fragment without active function".toList
  | some call =>
    let emissions :=
      if p.structuredDeltas && !fragment.isEmpty then
        [.ofDelta { index := call.index, id := none, callType := none,
                    function := some { name := none, arguments := some fragment } }]
      else []
    .ok ({ p with
      currentCall := some { call with argumentsJson := call.argumentsJson ++ fragment } }, emissions)

def startParameter (key : Str) : Except BackendError (QwenXmlToolParser × List QwenXmlEmission) :=
  match p.currentCall with
  | none => qwenXmlError "parameter started without active function".toList
  | some call =>
    let kind := p.schema.parameterKind call.name key
    let (call, keyText) := call.nextParameterPrefix key
    let p := { p with currentCall := some call }
    let parameter : QwenXmlActiveParameter := { key, keyText, kind, value := [] }
    match kind with
    | .string => do
      let (p, emissions) ← p.pushArgumentFragment (keyText ++ ['"'])
      return ({ p with currentParameter := some parameter }, emissions)
    | .json => .ok ({ p with currentParameter := some parameter }, [])

def finishParameter (finalPiece : Str) :
    Except BackendError (QwenXmlToolParser × List QwenXmlEmission) :=
  match p.currentParameter with
  | none => qwenXmlError "parameter close without active parameter".toList
  | some parameter =>
    let p := { p with currentParameter := none }
    match parameter.kind with
    | .string => p.pushArgumentFragment (escapeJsonStringFragment finalPiece ++ ['"'])
    | .json =>
      match E.fromStr (trim (parameter.value ++ finalPiece)) with
      | .error err =>
        qwenXmlError ("parameter `".toList ++ parameter.key ++ "` was not valid JSON: ".toList ++ err)
      | .ok value => p.pushArgumentFragment (parameter.keyText ++ value.chars)

/-- The text of a call in text mode. -/
def callText (name : Str) (arguments : Json) : Str :=
  qwenXmlToolStart ++
    (Json.object [("name", .string (String.ofList name)), ("arguments", arguments)]).chars ++
    qwenXmlToolEnd

/-- The call as text, from the arguments that were assembled. -/
def renderCurrentCall : Except BackendError (List QwenXmlEmission) :=
  if p.structuredDeltas then .ok []
  else
    match p.currentCall with
    | none => qwenXmlError "function close without active function".toList
    | some call =>
      match E.fromStr call.argumentsJson with
      | .error err =>
        qwenXmlError ("assembled function arguments were not valid JSON: ".toList ++ err)
      | .ok arguments => .ok [.ofText (callText call.name arguments)]

def finishFunction : Except BackendError (QwenXmlToolParser × List QwenXmlEmission) :=
  match p.currentCall with
  | none => qwenXmlError "function close without active function".toList
  | some call => do
    let argumentClose := if call.argumentCount = 0 then ['{', '}'] else ['}']
    let (p, emissions) ← p.pushArgumentFragment argumentClose
    let rendered ← p.renderCurrentCall E
    return ({ p with currentCall := none }, emissions ++ rendered)

/-! ### One step -/

abbrev Progress := Except BackendError (Option (QwenXmlToolParser × List QwenXmlEmission))

def processOutside : Progress :=
  match earliestQwenMarker p.buffer with
  | some (index, .toolStart) =>
    if 0 < index then .ok (some (p.emitTo index))
    else .ok (some ({ p with buffer := dropTo p.buffer (len qwenXmlToolStart),
                             state := .expectFunction }, []))
  | some (index, .reasoningStart) =>
    if 0 < index then .ok (some (p.emitTo index)) else .ok p.drainLeadingReasoningBlock
  | none =>
    let pending := max (pendingTagPrefixLen p.buffer qwenXmlToolStart)
      (pendingTagPrefixLen p.buffer qwenReasoningStart)
    let emitLen := len p.buffer - pending
    if 0 < emitLen then .ok (some (p.emitTo emitLen)) else .ok none

/-- A call starts with the function tag that the buffer starts with. -/
def startFunction : Progress :=
  if !startsWith p.buffer qwenXmlFunctionStart then .ok none
  else
    match tagArgument qwenXmlFunctionStart p.buffer with
    | none => .ok none
    | some (name, rest) =>
      if badName name then qwenXmlError ("invalid function tag `<function=".toList ++ name ++ ">`".toList)
      else if p.nextIndex + 1 ≥ 2 ^ 32 then qwenXmlError "tool call index overflow".toList
      else
        let emissions :=
          if p.structuredDeltas then
            [.ofDelta { index := p.nextIndex, id := some (E.generatedToolCallId p.nextIndex),
                        callType := some .function,
                        function := some { name := some name, arguments := none } }]
          else []
        .ok (some ({ p with
          buffer := rest
          nextIndex := p.nextIndex + 1
          currentCall := some { index := p.nextIndex, name, argumentCount := 0, argumentsJson := [] }
          state := .inFunction }, emissions))

def processExpectedFunction : Progress :=
  match p.drainLeadingWhitespace with
  | some p => .ok (some (p, []))
  | none =>
    match p.drainLeadingReasoningBlock with
    | some progress => .ok (some progress)
    | none =>
      if p.buffer.isEmpty || isPartialTagPrefix p.buffer qwenXmlFunctionStart ||
          isPartialTagPrefix p.buffer qwenReasoningStart then .ok none
      else
        match find qwenXmlFunctionStart p.buffer with
        | some index => if 0 < index then .ok (some (p.emitTo index)) else p.startFunction E
        | none => p.startFunction E

/-- A parameter starts with the parameter tag that the buffer starts with. -/
def openParameter : Progress :=
  match tagArgument qwenXmlParameterStart p.buffer with
  | none => .ok none
  | some (key, rest) =>
    if badName key then qwenXmlError ("invalid parameter tag `<parameter=".toList ++ key ++ ">`".toList)
    else do
      let (p, emissions) ← { p with buffer := rest }.startParameter key
      return some ({ p with state := .inParameter }, emissions)

def closeFunction : Progress := do
  let p := { p with buffer := dropTo p.buffer (len qwenXmlFunctionEnd) }
  let (p, emissions) ← p.finishFunction E
  return some ({ p with state := .expectToolClose }, emissions)

def processInFunction : Progress :=
  match p.drainLeadingWhitespace with
  | some p => .ok (some (p, []))
  | none =>
    if p.buffer.isEmpty || isPartialTagPrefix p.buffer qwenXmlParameterStart ||
        isPartialTagPrefix p.buffer qwenXmlFunctionEnd then .ok none
    else if startsWith p.buffer qwenXmlParameterStart then p.openParameter
    else if startsWith p.buffer qwenXmlFunctionEnd then p.closeFunction E
    else qwenXmlError "expected Qwen XML parameter or function close tag".toList

/-- A piece of the value of a parameter that has not ended. -/
def pushValue (value : Str) : Except BackendError (QwenXmlToolParser × List QwenXmlEmission) :=
  match p.currentParameter with
  | none => qwenXmlError "parameter value without active parameter".toList
  | some parameter =>
    match parameter.kind with
    | .string => p.pushArgumentFragment (escapeJsonStringFragment value)
    | .json =>
      .ok ({ p with
        currentParameter := some { parameter with value := parameter.value ++ value } }, [])

def processInParameter : Progress :=
  match find qwenXmlParameterEnd p.buffer with
  | some index => do
    let finalPiece := takeTo p.buffer index
    let p := { p with buffer := dropTo p.buffer (index + len qwenXmlParameterEnd) }
    let (p, emissions) ← p.finishParameter E finalPiece
    return some ({ p with state := .inFunction }, emissions)
  | none =>
    let pending := pendingTagPrefixLen p.buffer qwenXmlParameterEnd
    let emitLen := len p.buffer - pending
    if emitLen = 0 then .ok none
    else do
      let value := takeTo p.buffer emitLen
      let progress ← { p with buffer := dropTo p.buffer emitLen }.pushValue value
      return some progress

def processExpectedToolClose : Progress :=
  match p.drainLeadingWhitespace with
  | some p => .ok (some (p, []))
  | none =>
    if p.buffer.isEmpty || isPartialTagPrefix p.buffer qwenXmlToolEnd then .ok none
    else if !startsWith p.buffer qwenXmlToolEnd then
      qwenXmlError "expected `</tool_call>` after `</function>`".toList
    else .ok (some ({ p with buffer := dropTo p.buffer (len qwenXmlToolEnd), state := .outside }, []))

def process : Progress :=
  match p.state with
  | .outside => p.processOutside
  | .expectFunction => p.processExpectedFunction E
  | .inFunction => p.processInFunction E
  | .inParameter => p.processInParameter E
  | .expectToolClose => p.processExpectedToolClose

/-! ### Fragments and the end -/

/-- Steps until the parser waits, for at most so many. -/
def drain : ℕ → QwenXmlToolParser → Except BackendError (QwenXmlToolParser × List QwenXmlEmission)
  | 0, p => .ok (p, [])
  | fuel + 1, p =>
    match process E p with
    | .error e => .error e
    | .ok none => .ok (p, [])
    | .ok (some (p', out)) => (drain fuel p').map fun r => (r.1, out ++ r.2)

/-- Each step uses a piece of the buffer, so there are at most as many as it is long. -/
def pushStr (text : Str) : Except BackendError (QwenXmlToolParser × List QwenXmlEmission) :=
  let p := { p with buffer := p.buffer ++ text }
  drain E (p.buffer.length + 1) p

def finish : Except BackendError (QwenXmlToolParser × List QwenXmlEmission) :=
  if p.state ≠ .outside then
    .error (.other ("Qwen XML tool call ended while parser was in ".toList ++ p.state.debug.toList))
  else if p.buffer.isEmpty then .ok (p, [])
  else .ok ({ p with buffer := [] }, [.ofText p.buffer])

/-- The call ends here, if there is one. -/
def finishOpenFunction : Except BackendError (QwenXmlToolParser × List QwenXmlEmission) :=
  match p.currentCall with
  | none => .ok (p, [])
  | some _ => p.finishFunction E

/-- The value ends here; one that is not JSON is dropped with its parameter. -/
def finishOpenParameter (finalPiece : Str) :
    Except BackendError (QwenXmlToolParser × List QwenXmlEmission) :=
  match p.currentParameter with
  | none => .ok (p, [])
  | some parameter =>
    match parameter.kind with
    | .string => p.finishParameter E finalPiece
    | .json =>
      match p.finishParameter E finalPiece with
      | .ok r => .ok r
      | .error _ => .ok ({ p with
          currentParameter := none
          currentCall := p.currentCall.map fun call =>
            { call with argumentCount := call.argumentCount - 1 } }, [])

/-- The end of a text that was cut off. -/
def finishTruncated : Except BackendError (QwenXmlToolParser × List QwenXmlEmission) :=
  match p.state with
  | .outside => .ok (p, [])
  | .expectFunction | .expectToolClose =>
    .ok ({ p with currentCall := none, currentParameter := none, buffer := [], state := .outside }, [])
  | .inFunction => do
    let (p, emissions) ← { p with buffer := [] }.finishOpenFunction E
    return ({ p with state := .outside }, emissions)
  | .inParameter => do
    let (p, ended) ← { p with buffer := [] }.finishOpenParameter E p.buffer
    let (p, emissions) ← p.finishOpenFunction E
    return ({ p with state := .outside }, ended ++ emissions)

end QwenXmlToolParser

end KirAi.Mlx
