/-
# DeepSeek tool calls

`deepseek.rs`: calls between the native markers, whose body is a name and a JSON value in
a code fence; calls between `<dsml_tool_call>` tags; and the tags of Qwen. What follows an
end of sentence or a user marker is dropped before.

Key definitions:
* `parseDeepseekNativeCall`, `parseDeepseekNativeToolCalls`, `parseDeepseekDsmlToolCalls`
* `DeepSeekParser.parseComplete`
-/
import KirAi.ToolParser.Common

namespace KirAi.ToolParser

open Lib Lib.Text
open KirAi.Runtime (Str ToolCall ToolCallFunction ParsedAssistant isWhitespace trim trimStart)

def toolCallsBegin : Str := "<｜tool▁calls▁begin｜>".toList

def toolCallsEnd : Str := "<｜tool▁calls▁end｜>".toList

def nativeCallBegin : Str := "<｜tool▁call▁begin｜>".toList

def nativeCallEnd : Str := "<｜tool▁call▁end｜>".toList

def toolSep : Str := "<｜tool▁sep｜>".toList

def dsmlStart : Str := "<dsml_tool_call>".toList

def dsmlEnd : Str := "</dsml_tool_call>".toList

def endOfSentence : Str := "<｜end▁of▁sentence｜>".toList

def deepseekUser : Str := "<｜User｜>".toList

def deepseekAssistant : Str := "<｜Assistant｜>".toList

def stripDeepseekAssistantPrefix (rest : Str) : Str :=
  (stripPrefix rest deepseekAssistant).getD rest

def trimDeepseekAfterStopControl (rest : Str) : Parse Str :=
  trimAfterStopControl [endOfSentence, deepseekUser] rest

/-- `trim_start_matches` of a text: it is taken off as often as it stands in front. -/
def trimStartMatches (p : Str) : ℕ → Str → Str
  | 0, s => s
  | fuel + 1, s =>
    match stripPrefix s p with
    | some r => trimStartMatches p fuel r
    | none => s

section Parser

variable (E : Env)

/-- The JSON value of an arguments block, with or without a code fence around it. -/
def parseDeepseekMarkdownJson (argumentsBlock : Str) : Except ParserError Json :=
  let trimmed := trim argumentsBlock
  let fence := "```".toList
  let json := (((stripPrefix trimmed "```json".toList).bind (stripSuffix · fence)).orElse fun _ =>
    (stripPrefix trimmed fence).bind (stripSuffix · fence)).getD trimmed
  mapMalformed "invalid DeepSeek native tool JSON: " (E.fromStr (trim json))

def parseDeepseekNativeCall (inner : Str) (index : ℕ) : Except ParserError (ToolCall Json) := do
  let (callType, rest) ← okOrMalformed "DeepSeek native tool call missing separator"
    (cut toolSep inner)
  if trim callType ≠ "function".toList then
    throw (.malformedTool ("unsupported DeepSeek native tool call type `".toList ++
      trim callType ++ "`".toList))
  let (name, argumentsBlock) ← okOrMalformed "DeepSeek native tool call missing arguments block"
    (cut ['\n'] rest)
  let name := trim name
  if name.isEmpty then
    throw (.malformedTool "DeepSeek native tool call missing name".toList)
  let arguments ← parseDeepseekMarkdownJson E (trim argumentsBlock)
  return ⟨E.generatedToolCallId index, .function, ⟨name, arguments⟩⟩

def parseDeepseekJsonCall (inner : Str) (index : ℕ) : Except ParserError (ToolCall Json) := do
  let value ← mapMalformed "invalid DeepSeek tool JSON: " (E.fromStr inner)
  let name ← okOrMalformed "DeepSeek tool JSON missing name"
    ((jsonGet value "name").bind Json.asStr)
  let arguments := (jsonGet value "arguments").getD (.object [])
  return ⟨toolCallId E value index, .function, ⟨name.toList, arguments⟩⟩

def parseDeepseekDsmlToolCalls (reasoning : Option Str) (rest : Str) :
    Parse (ParsedAssistant Json) := do
  let (content, calls) ← parseBlocks dsmlStart dsmlEnd "unterminated DeepSeek dsml_tool_call tag"
    (fun inner index => ofResult (parseDeepseekJsonCall E inner index)) (rest.length + 1) rest [] []
  return ⟨reasoning, content, calls⟩

/-- The calls of a native block. The text between them is dropped. -/
def parseDeepseekNativeBody (callsBody : Str) : Parse (List (ToolCall Json)) := do
  let (_, calls) ← parseBlocks nativeCallBegin nativeCallEnd "unterminated DeepSeek native tool call"
    (fun inner index => ofResult (parseDeepseekNativeCall E inner index)) (callsBody.length + 1)
    callsBody [] []
  return calls

def parseDeepseekNativeToolCalls (reasoning : Option Str) (rest : Str) :
    Parse (ParsedAssistant Json) :=
  match find toolCallsBegin rest with
  | none => .ok ⟨reasoning, rest, []⟩
  | some start => do
    let content ← sliceTo rest start
    let callsStart := start + len toolCallsBegin
    let tail ← sliceFrom rest callsStart
    match find toolCallsEnd tail with
    | none => malformedTool "unterminated DeepSeek native tool calls block"
    | some endRel => do
      let callsEnd := callsStart + endRel
      let callsBody ← slice rest callsStart callsEnd
      let calls ← parseDeepseekNativeBody E callsBody
      let after ← sliceFrom rest (callsEnd + len toolCallsEnd)
      let after ← trimDeepseekAfterStopControl (trimStart after)
      return ⟨reasoning, content ++ trimStartMatches endOfSentence after.length after, calls⟩

def DeepSeekParser.parseComplete (text : Str) : Parse (ParsedAssistant Json) := do
  let (reasoning, rest) ← splitReasoning text
  let rest ← trimDeepseekAfterStopControl (stripDeepseekAssistantPrefix rest)
  if contains rest toolCallsBegin then parseDeepseekNativeToolCalls E reasoning rest
  else if contains rest dsmlStart then parseDeepseekDsmlToolCalls E reasoning rest
  else if contains rest toolCallStart then parseToolCalls E reasoning rest
  else return ⟨reasoning, rest, []⟩

end Parser

/-! ### The native and the DSML form always return -/

theorem returns_parseEach {parseCall : Str → ℕ → Parse (ToolCall Json)}
    (h : ∀ inner index, Returns (parseCall inner index)) :
    ∀ (index : ℕ) (blocks : List (Str × Str)), Returns (parseEach parseCall index blocks)
  | _, [] => returns_ok _
  | index, _ :: blocks =>
    returns_bind (h _ _) fun _ _ =>
      returns_bind (returns_parseEach h (index + 1) blocks) fun _ _ => returns_pure _

theorem returns_parseBlocks {start stop : Str} {unterminated : String}
    {parseCall : Str → ℕ → Parse (ToolCall Json)} (hstart : start ≠ []) (hstop : stop ≠ [])
    (h : ∀ inner index, Returns (parseCall inner index)) (rest : Str) :
    Returns (parseBlocks start stop unterminated parseCall (rest.length + 1) rest [] []) := by
  rw [parseBlocks_eq hstart hstop (Nat.lt_succ_self _)]
  refine returns_bind (returns_parseEach h _ _) fun found _ => ?_
  cases (blocksOf start stop rest).tail with
  | none => exact returns_malformedTool _
  | some tail => exact returns_ok _

theorem returns_parseDeepseekDsmlToolCalls (E : Env) (reasoning : Option Str) (rest : Str) :
    Returns (parseDeepseekDsmlToolCalls E reasoning rest) :=
  returns_bind (returns_parseBlocks (by decide) (by decide) (fun _ _ => returns_ofResult _) rest)
    fun _ _ => returns_pure _

theorem returns_parseDeepseekNativeToolCalls (E : Env) (reasoning : Option Str) (rest : Str) :
    Returns (parseDeepseekNativeToolCalls E reasoning rest) := by
  rw [parseDeepseekNativeToolCalls]
  cases hstart : find toolCallsBegin rest with
  | none => exact returns_ok _
  | some i =>
    obtain ⟨before, tail, rfl, rfl, -, hbefore, htail⟩ := slices_of_find hstart
    simp only [hbefore, htail, ok_bind]
    cases hend : find toolCallsEnd tail with
    | none => exact returns_malformedTool _
    | some j =>
      obtain ⟨body, after, -, rfl, -, hbody, hafter⟩ :=
        slices_of_find_after (u := before) (p := toolCallsBegin) hend
      simp only [hbody, hafter, ok_bind, trimDeepseekAfterStopControl, trimAfterStopControl_eq]
      refine returns_bind (returns_bind ?_ fun _ _ => returns_pure _) fun _ _ => returns_pure _
      exact returns_parseBlocks (by decide) (by decide) (fun _ _ => returns_ofResult _) body

end KirAi.ToolParser
