/-
# Gemma tool calls

`gemma.rs`: the reasoning channel, the calls between `<|tool_call>` tags, and the parser
of their arguments, a superset of JSON with bare words for keys and strings between
`<|"|>` delimiters.

The argument parser works on an input and a position in it. Its loops are fed with fuel;
a value that is nested in another starts after at least one more character, so twice the
length of the input is enough for the values.

Key definitions:
* `GemmaArgumentParser.parseValue`, `parseObjectEntries`, `parseArrayValues`
* `parseGemmaCall`, `parseGemmaToolCalls`, `GemmaParser.parseComplete`
-/
import KirAi.ToolParser.Common

namespace KirAi.ToolParser

open Lib Lib.Text
open KirAi.Runtime (Str ToolCall ToolCallFunction ParsedAssistant isWhitespace trim trimStart)
open Width (width)

/-! ### Arguments -/

/-- The delimiter of a string. -/
def gemmaQuote : Str := "<|\"|>".toList

namespace GemmaArgumentParser

section Cursor

variable (input : Str)

def remaining (position : ℕ) : Parse Str := sliceFrom input position

def peekChar (position : ℕ) : Parse (Option Char) := do
  return (← remaining input position).head?

/-- The loop that advances over the characters that satisfy `p`. -/
def advanceWhile (p : Char → Bool) : ℕ → ℕ → Parse ℕ
  | 0, _ => .error .outOfFuel
  | fuel + 1, position => do
    match ← peekChar input position with
    | none => return position
    | some ch => if p ch then advanceWhile p fuel (position + width ch) else return position

def skipWs (position : ℕ) : Parse ℕ :=
  advanceWhile input isWhitespace (input.length + 1) position

def consumeChar (expected : Char) (position : ℕ) : Parse (Bool × ℕ) := do
  if (← peekChar input position) = some expected then return (true, position + width expected)
  else return (false, position)

def expectChar (expected : Char) (position : ℕ) : Parse ℕ := do
  let (consumed, position) ← consumeChar input expected position
  if consumed then return position
  else .error (.error (.malformedTool ("expected Gemma tool argument character `".toList ++
    expected :: "`".toList)))

def expectStr (expected : Str) (position : ℕ) : Parse ℕ := do
  if startsWith (← remaining input position) expected then return position + len expected
  else .error (.error (.malformedTool ("expected Gemma tool argument token `".toList ++ expected ++
    "`".toList)))

def parseGemmaString (position : ℕ) : Parse (Str × ℕ) := do
  let position ← expectStr input gemmaQuote position
  let start := position
  match find gemmaQuote (← remaining input position) with
  | none => malformedTool "unterminated Gemma escaped string"
  | some endRel => do
    let endAt := position + endRel
    let text ← slice input start endAt
    return (text, endAt + len gemmaQuote)

variable (E : Env)

/-- The loop to the closing quote of a JSON string that starts at `start`. -/
def parseJsonStringLoop (start : ℕ) : ℕ → Bool → ℕ → Parse (Str × ℕ)
  | 0, _, _ => .error .outOfFuel
  | fuel + 1, escaped, position => do
    match ← peekChar input position with
    | none => malformedTool "unterminated Gemma JSON string"
    | some ch =>
      let position := position + width ch
      if escaped then parseJsonStringLoop start fuel false position
      else if ch = '\\' then parseJsonStringLoop start fuel true position
      else if ch = '"' then do
        let text ← slice input start position
        let s ← ofResult (mapMalformed "invalid Gemma JSON string: " (E.stringFromStr text))
        return (s, position)
      else parseJsonStringLoop start fuel false position

def parseJsonString (position : ℕ) : Parse (Str × ℕ) := do
  let start := position
  let position ← expectChar input '"' position
  parseJsonStringLoop input E start (input.length + 1) false position

/-- The characters of a key without quotes. -/
def isKeyChar (ch : Char) : Bool := !(ch == ':' || isWhitespace ch)

def parseKey (position : ℕ) : Parse (Str × ℕ) := do
  let position ← skipWs input position
  match ← peekChar input position with
  | none => malformedTool "Gemma object ended before key"
  | some ch =>
    if ch = '"' then parseJsonString input E position
    else if ch = '<' ∧ startsWith (← remaining input position) gemmaQuote then
      parseGemmaString input position
    else do
      let start := position
      let position ← advanceWhile input isKeyChar (input.length + 1) position
      if position = start then malformedTool "Gemma object key is empty"
      else do
        let key ← slice input start position
        return (key, position)

/-- The characters of a word. -/
def isAtomChar (ch : Char) : Bool := !(ch == ',' || ch == '}' || ch == ']' || isWhitespace ch)

/-- What a word means: a word of JSON, any other JSON value, or itself. -/
def atomValue (atom : Str) : Json :=
  if atom = "true".toList then .bool true
  else if atom = "false".toList then .bool false
  else if atom = "null".toList then .null
  else
    match E.fromStr atom with
    | .ok value => value
    | .error _ => .string (String.ofList atom)

def parseAtom (position : ℕ) : Parse (Json × ℕ) := do
  let start := position
  let position ← advanceWhile input isAtomChar (input.length + 1) position
  let atom ← slice input start position
  if atom.isEmpty then malformedTool "Gemma atom is empty"
  else return (atomValue E atom, position)

mutual

def parseValue : ℕ → ℕ → Parse (Json × ℕ)
  | 0, _ => .error .outOfFuel
  | fuel + 1, position => do
    let position ← skipWs input position
    match ← peekChar input position with
    | none => malformedTool "Gemma tool argument ended before value"
    | some ch =>
      if ch = '{' then do
        let position ← expectChar input '{' position
        parseObjectEntries fuel position []
      else if ch = '[' then do
        let position ← expectChar input '[' position
        parseArrayValues fuel position []
      else if ch = '"' then do
        let (text, position) ← parseJsonString input E position
        return (.string (String.ofList text), position)
      else if ch = '<' ∧ startsWith (← remaining input position) gemmaQuote then do
        let (text, position) ← parseGemmaString input position
        return (.string (String.ofList text), position)
      else parseAtom input E position

/-- The loop of `parse_object`. -/
def parseObjectEntries : ℕ → ℕ → List (String × Json) → Parse (Json × ℕ)
  | 0, _, _ => .error .outOfFuel
  | fuel + 1, position, map => do
    let position ← skipWs input position
    let (closed, position) ← consumeChar input '}' position
    if closed then return (.object map, position)
    else do
      let (key, position) ← parseKey input E position
      let position ← skipWs input position
      let position ← expectChar input ':' position
      let (value, position) ← parseValue fuel position
      let map := insertKey map (String.ofList key) value
      let position ← skipWs input position
      let (more, position) ← consumeChar input ',' position
      if more then parseObjectEntries fuel position map
      else do
        let position ← expectChar input '}' position
        return (.object map, position)

/-- The loop of `parse_array`. -/
def parseArrayValues : ℕ → ℕ → List Json → Parse (Json × ℕ)
  | 0, _, _ => .error .outOfFuel
  | fuel + 1, position, values => do
    let position ← skipWs input position
    let (closed, position) ← consumeChar input ']' position
    if closed then return (.array values, position)
    else do
      let (value, position) ← parseValue fuel position
      let values := values ++ [value]
      let position ← skipWs input position
      let (more, position) ← consumeChar input ',' position
      if more then parseArrayValues fuel position values
      else do
        let position ← expectChar input ']' position
        return (.array values, position)

end

end Cursor

def parseComplete (E : Env) (input : Str) : Parse Json := do
  let (value, position) ← parseValue input E (2 * input.length + 2) 0
  let position ← skipWs input position
  if position ≠ len input then do
    let suffix ← sliceFrom input position
    .error (.error (.malformedTool ("unexpected Gemma tool argument suffix `".toList ++ suffix ++
      "`".toList)))
  else return value

end GemmaArgumentParser

/-! ### Calls and reasoning -/

def gemmaCallStart : Str := "<|tool_call>".toList

def gemmaCallEnd : Str := "<tool_call|>".toList

def gemmaThoughtStart : Str := "<|channel>thought\n".toList

def gemmaChannelEnd : Str := "<channel|>".toList

def gemmaMultimodalMarkers : List Str :=
  ["<start_of_image>".toList, "<|image|>".toList, "<image|>".toList, "<|audio|>".toList,
    "<audio|>".toList, "<|video|>".toList]

def rejectGemmaMultimodalMarkers (text : Str) : Except ParserError Unit :=
  match gemmaMultimodalMarkers.find? (contains text ·) with
  | some token => .error ⟨.unsupportedMultimodalOutput, "Gemma multimodal output marker `".toList ++
      token ++ "` is not supported by the text parser".toList⟩
  | none => .ok ()

def gemmaStopControls : List Str :=
  ["<turn|>".toList, "<|tool_response>".toList, "<eos>".toList]

def splitGemmaReasoning (text : Str) : Parse (Option Str × Str) :=
  match find gemmaThoughtStart text with
  | none => .ok (none, text)
  | some start => do
    let bodyStart := start + len gemmaThoughtStart
    let tail ← sliceFrom text bodyStart
    match find gemmaChannelEnd tail with
    | none => do
      let body ← sliceFrom text bodyStart
      let reasoning := trim body
      let rest ← sliceTo text start
      return (if reasoning.isEmpty then none else some reasoning, rest)
    | some endRel => do
      let endAt := bodyStart + endRel
      let body ← slice text bodyStart endAt
      let before ← sliceTo text start
      let after ← sliceFrom text (endAt + len gemmaChannelEnd)
      return (some (trim body), before ++ after)

section Parser

variable (E : Env)

def parseGemmaCall (inner : Str) (index : ℕ) : Parse (ToolCall Json) :=
  match stripPrefix inner "call:".toList with
  | none => malformedTool "missing Gemma call prefix"
  | some body =>
    match find ['{'] body with
    | none => malformedTool "Gemma tool call missing arguments"
    | some argsStart => do
      let name ← sliceTo body argsStart
      let name := trim name
      if name.isEmpty then malformedTool "Gemma tool call missing name"
      else do
        let args ← sliceFrom body argsStart
        let arguments ← GemmaArgumentParser.parseComplete E args
        return ⟨E.generatedToolCallId index, .function, ⟨name, arguments⟩⟩

def parseGemmaToolCalls (rest : Str) : Parse (Str × List (ToolCall Json)) :=
  parseBlocks gemmaCallStart gemmaCallEnd "unterminated Gemma tool_call tag" (parseGemmaCall E)
    (rest.length + 1) rest [] []

def GemmaParser.parseComplete (text : Str) : Parse (ParsedAssistant Json) := do
  ofResult (rejectGemmaMultimodalMarkers text)
  let text ← trimAfterStopControl gemmaStopControls text
  let (reasoning, rest) ← splitGemmaReasoning text
  let (content, toolCalls) ← parseGemmaToolCalls E rest
  return ⟨reasoning, content, toolCalls⟩

end Parser

/-- The split at the reasoning channel, by cuts. -/
def splitGemmaCut (text : Str) : Option Str × Str :=
  match cut gemmaThoughtStart text with
  | none => (none, text)
  | some (before, body) =>
    match cut gemmaChannelEnd body with
    | none => (if (trim body).isEmpty then none else some (trim body), before)
    | some (inner, after) => (some (trim inner), before ++ after)

theorem splitGemmaReasoning_eq (text : Str) :
    splitGemmaReasoning text = .ok (splitGemmaCut text) := by
  unfold splitGemmaReasoning splitGemmaCut
  cases hstart : find gemmaThoughtStart text with
  | none => rw [cut_eq_none_iff.2 hstart]
  | some i =>
    obtain ⟨before, body, rfl, rfl, hcut, hbefore, hbody⟩ := slices_of_find hstart
    simp only [hcut, hbefore, hbody, ok_bind]
    cases hstop : find gemmaChannelEnd body with
    | none =>
      rw [cut_eq_none_iff.2 hstop]
      rfl
    | some j =>
      obtain ⟨inner, after, -, rfl, hcut', hinner, hafter⟩ :=
        slices_of_find_after (u := before) (p := gemmaThoughtStart) hstop
      simp only [hcut', hinner, hafter, ok_bind]
      rfl

end KirAi.ToolParser
