/-
# Unmarked JSON tool calls

`json.rs` and `llama.rs`: a text that is, or holds in a code fence or after a
`[TOOL_CALLS]` marker, a JSON value of the shape of tool calls. The text around the
candidate is content; a text whose candidate is no call is content as it stands.

The offsets of the candidate are those of the tags that were found and of trimmed texts,
so no slice of it fails (`returns_extractJsonToolCandidate`).

Key definitions:
* `extractJsonToolCandidate`, `parseJsonToolValue`, `jsonValueHasToolShape`
* `parseJsonToolOutputIfToolLike`, `LlamaParser.parseComplete`

Key theorems:
* `returns_extractJsonToolCandidate`, `returns_parseJsonToolOutputIfToolLike`
-/
import KirAi.ToolParser.Common

namespace KirAi.ToolParser

open Lib Lib.Text
open KirAi.Runtime (Str ToolCall ToolCallFunction ParsedAssistant isWhitespace trim trimStart)

/-! ### The candidate -/

def toolCallsMarker : Str := "[TOOL_CALLS]".toList

def codeFence : Str := "```".toList

/-- After a marker: the rest of its line, if any, is the candidate. -/
def markedCandidate (rest : Str) (markerStart : ℕ) : Parse (Option (Str × Str)) := do
  let sourceStart := markerStart + len toolCallsMarker
  let tail ← sliceFrom rest sourceStart
  let source := trimStart tail
  let sourceEnd := (find ['\n'] source).getD (len source)
  let before ← sliceTo rest markerStart
  let content := trimEnd before
  let line ← sliceFrom source sourceEnd
  let suffix := line.dropWhile (· == '\n')
  let content := if !content.isEmpty && !suffix.isEmpty then content ++ ['\n'] else content
  let candidate ← sliceTo source sourceEnd
  return some (content ++ suffix, candidate)

/-- A value that makes up the whole text. -/
def wholeCandidate (rest : Str) : Option (Str × Str) :=
  let trimmed := trim rest
  if startsWith trimmed ['{'] || startsWith trimmed ['['] then some ([], trimmed) else none

/-- In a code fence, if it has an end. -/
def fencedCandidate (rest : Str) (fenceStart : ℕ) : Parse (Option (Str × Str)) := do
  let languageStart := fenceStart + len codeFence
  let tail ← sliceFrom rest languageStart
  let afterLanguage := (stripPrefix tail "json".toList).getD tail
  let afterNewline := (stripPrefix afterLanguage ['\n']).getD (trimStart afterLanguage)
  match find codeFence afterNewline with
  | none => return wholeCandidate rest
  | some fenceEndRel => do
    let bodyStart := len rest - len afterNewline
    let fenceEnd := bodyStart + fenceEndRel + len codeFence
    let before ← sliceTo rest fenceStart
    let after ← sliceFrom rest fenceEnd
    let candidate ← sliceTo afterNewline fenceEndRel
    return some (trimEnd before ++ trimStart after, candidate)

/-- The content beside the candidate, and the candidate. -/
def extractJsonToolCandidate (rest : Str) : Parse (Option (Str × Str)) :=
  match find toolCallsMarker rest with
  | some markerStart => markedCandidate rest markerStart
  | none =>
    match find codeFence rest with
    | some fenceStart => fencedCandidate rest fenceStart
    | none => .ok (wholeCandidate rest)

/-! ### The calls of a value -/

section Value

variable (E : Env)

def parseJsonToolValueAsCall (value : Json) (index : ℕ) : Except ParserError (ToolCall Json) :=
  match value with
  | .object object => do
    let function := (lookupKey object "function").bind Json.asObject
    let name ← okOrMalformed "JSON tool-call entry missing name"
      (((((function.bind (lookupKey · "name")).orElse fun _ => lookupKey object "name").orElse
        fun _ => lookupKey object "tool_name").orElse fun _ => lookupKey object "function").bind
        Json.asStr)
    let arguments ← argumentsOr E
      ((((function.bind (lookupKey · "arguments")).orElse fun _ => lookupKey object "arguments").orElse
        fun _ => lookupKey object "parameters").orElse fun _ => lookupKey object "args")
    return ⟨toolCallId E value index, .function, ⟨name.toList, arguments⟩⟩
  | _ => .error (.malformedTool "JSON tool-call entry must be an object".toList)

def parseJsonToolValues (items : List Json) : Except ParserError (List (ToolCall Json)) :=
  items.zipIdx.mapM fun (value, index) => parseJsonToolValueAsCall E value index

/-- The first of the keys under which an object has a list of calls. -/
def toolListKeys : List String := ["tool_calls", "calls", "tools"]

def parseJsonToolValue (value : Json) : Except ParserError (List (ToolCall Json)) :=
  match value with
  | .array items => parseJsonToolValues E items
  | .object object =>
    match toolListKeys.findSome? fun key => (lookupKey object key).bind Json.asArray with
    | some items => parseJsonToolValues E items
    | none => do return [← parseJsonToolValueAsCall E value 0]
  | _ => .error (.malformedTool "JSON tool-call payload must be an object or array".toList)

end Value

def jsonObjectHasDirectToolShape (object : List (String × Json)) : Bool :=
  let function := lookupKey object "function"
  let hasName :=
    (((function.bind Json.asObject).bind (lookupKey · "name")).bind Json.asStr).isSome ||
      (function.bind Json.asStr).isSome || ((lookupKey object "name").bind Json.asStr).isSome ||
      ((lookupKey object "tool_name").bind Json.asStr).isSome
  let hasArguments :=
    ((function.bind Json.asObject).bind (lookupKey · "arguments")).isSome ||
      (lookupKey object "arguments").isSome || (lookupKey object "parameters").isSome ||
      (lookupKey object "args").isSome
  hasName && hasArguments

def jsonValueHasDirectToolShape : Json → Bool
  | .object object => jsonObjectHasDirectToolShape object
  | _ => false

def jsonValueHasToolShape : Json → Bool
  | .array items => !items.isEmpty && items.all jsonValueHasDirectToolShape
  | .object object =>
    toolListKeys.any (fun key => ((lookupKey object key).bind Json.asArray).isSome) ||
      jsonObjectHasDirectToolShape object
  | _ => false

/-! ### The parser -/

section Parser

variable (E : Env)

def parseJsonToolOutputIfToolLike (reasoning : Option Str) (rest : Str) :
    Parse (ParsedAssistant Json) := do
  let plain : ParsedAssistant Json := ⟨reasoning, rest, []⟩
  match ← extractJsonToolCandidate rest with
  | none => return plain
  | some (content, source) =>
    match E.fromStr (trim source) with
    | .error _ => return plain
    | .ok value =>
      if !jsonValueHasToolShape value then return plain
      else
        match parseJsonToolValue E value with
        | .error _ => return plain
        | .ok toolCalls => return ⟨reasoning, content, toolCalls⟩

def llamaStopControls : List Str :=
  ["<|eot_id|>".toList, "<|end_of_text|>".toList, "<|start_header_id|>".toList]

def LlamaParser.parseComplete (text : Str) : Parse (ParsedAssistant Json) := do
  let (reasoning, rest) ← splitReasoning text
  let rest ← trimAfterStopControl llamaStopControls rest
  if contains rest toolCallStart then parseToolCalls E reasoning rest
  else parseJsonToolOutputIfToolLike E reasoning rest

end Parser

/-! ### No slice of the candidate fails -/

theorem trimStart_suffix (s : Str) : trimStart s <:+ s := List.dropWhile_suffix _

theorem stripPrefix_suffix {s p r : Str} (h : stripPrefix s p = some r) : r <:+ s := by
  unfold stripPrefix at h
  split at h
  · exact Option.some.inj h ▸ List.drop_suffix _ _
  · cases h

theorem returns_markedCandidate {rest : Str} {i : ℕ} (h : find toolCallsMarker rest = some i) :
    Returns (markedCandidate rest i) := by
  obtain ⟨before, tail, rfl, rfl, -, hbefore, htail⟩ := slices_of_find h
  obtain ⟨line, rest, hsource, hend⟩ : ∃ line rest, trimStart tail = line ++ rest ∧
      (find ['\n'] (trimStart tail)).getD (len (trimStart tail)) = len line := by
    cases hnl : find ['\n'] (trimStart tail) with
    | none => exact ⟨trimStart tail, [], by simp, rfl⟩
    | some j =>
      obtain ⟨u, v, huv, rfl, -⟩ := exists_cut hnl
      exact ⟨u, ['\n'] ++ v, by rw [huv, List.append_assoc], rfl⟩
  rw [hsource] at hend
  rw [markedCandidate]
  simp only [htail, hbefore, ok_bind, hsource, hend, sliceFrom_append, sliceTo_append]
  exact returns_pure _

theorem returns_fencedCandidate {rest : Str} {i : ℕ} (h : find codeFence rest = some i) :
    Returns (fencedCandidate rest i) := by
  obtain ⟨before, tail, rfl, rfl, -, hbefore, htail⟩ := slices_of_find h
  rw [fencedCandidate]
  simp only [htail, ok_bind]
  generalize hlanguage : (stripPrefix tail "json".toList).getD tail = afterLanguage
  generalize hnewline : (stripPrefix afterLanguage ['\n']).getD (trimStart afterLanguage) =
    afterNewline
  -- the body of the fence is an end of the text
  have hsuffix : afterNewline <:+ tail := by
    have h₁ : afterLanguage <:+ tail := by
      rw [← hlanguage]
      cases hs : stripPrefix tail "json".toList with
      | none => exact List.suffix_refl tail
      | some r => exact stripPrefix_suffix hs
    have h₂ : afterNewline <:+ afterLanguage := by
      rw [← hnewline]
      cases hs : stripPrefix afterLanguage ['\n'] with
      | none => exact trimStart_suffix afterLanguage
      | some r => exact stripPrefix_suffix hs
    exact h₂.trans h₁
  cases hfence : find codeFence afterNewline with
  | none => exact returns_pure _
  | some j =>
    obtain ⟨body, after, rfl, rfl, -⟩ := exists_cut hfence
    obtain ⟨x, rfl⟩ := hsuffix
    have hcandidate : sliceTo (body ++ codeFence ++ after) (len body) = .ok body := by
      rw [List.append_assoc, sliceTo_append]
    have hafter : sliceFrom (before ++ codeFence ++ (x ++ (body ++ codeFence ++ after)))
        (len (before ++ codeFence ++ (x ++ (body ++ codeFence ++ after))) -
          len (body ++ codeFence ++ after) + len body + len codeFence) = .ok after := by
      refine sliceFrom_eq (before ++ codeFence ++ x ++ body ++ codeFence) after (by simp) ?_
      simp only [len_append]
      omega
    simp only [hbefore, hafter, hcandidate, ok_bind]
    exact returns_pure _

theorem returns_extractJsonToolCandidate (rest : Str) :
    Returns (extractJsonToolCandidate rest) := by
  unfold extractJsonToolCandidate
  cases hmarker : find toolCallsMarker rest with
  | some i => exact returns_markedCandidate hmarker
  | none =>
    cases hfence : find codeFence rest with
    | some i => exact returns_fencedCandidate hfence
    | none => exact returns_ok _

theorem returns_parseJsonToolOutputIfToolLike (E : Env) (reasoning : Option Str) (rest : Str) :
    Returns (parseJsonToolOutputIfToolLike E reasoning rest) := by
  refine returns_bind (returns_extractJsonToolCandidate rest) fun candidate _ => ?_
  cases candidate with
  | none => exact returns_pure _
  | some c =>
    dsimp only
    cases E.fromStr (trim c.2) with
    | error err => exact returns_pure _
    | ok value =>
      dsimp only
      split
      · exact returns_pure _
      · cases parseJsonToolValue E value with
        | error err => exact returns_pure _
        | ok calls => exact returns_pure _

end KirAi.ToolParser
