/-
# Reasoning blocks and Qwen tool calls

`common.rs` and `qwen.rs`: the split of a text at its first `<think>` block, and the tool
calls between `<tool_call>` tags, whose body is either a JSON object or the XML form with
a `<function=…>` tag and one `<parameter=…>` tag for each argument.

The split takes no slice that could fail (`splitReasoning_eq`). Reading an XML body does:
the end of the function tag and its close tag are looked for independently of each other,
and the slice between them panics if the close tag comes first. That is so just for the
bodies in which the function tag is not closed before its close tag (`Unclosed`,
`returns_parseXmlCall_iff`).

Key definitions:
* `splitReasoning`, `parseJsonCall`, `parseXmlCall`, `parseToolCalls`, `QwenParser.parseComplete`
* `Unclosed`

Key theorems:
* `splitReasoning_eq`, `returns_parseXmlCall_iff`
-/
import KirAi.ToolParser.Basic

namespace KirAi.ToolParser

open Lib Lib.Text
open KirAi.Runtime (Str ToolCall ToolCallFunction ParsedAssistant isWhitespace trim trimStart)

/-! ### Reasoning -/

def thinkStart : Str := "<think>".toList

def thinkEnd : Str := "</think>".toList

def splitReasoning (text : Str) : Parse (Option Str × Str) :=
  match find thinkStart text with
  | none => .ok (none, text)
  | some start => do
    let bodyStart := start + len thinkStart
    let tail ← sliceFrom text bodyStart
    match find thinkEnd tail with
    | none => do
      let reasoning ← sliceFrom text bodyStart
      let rest ← sliceTo text start
      return (some reasoning, rest)
    | some endRel => do
      let endAt := bodyStart + endRel
      let reasoning ← slice text bodyStart endAt
      let before ← sliceTo text start
      let after ← sliceFrom text (endAt + len thinkEnd)
      return (some reasoning, before ++ after)

/-- The split at a first block, by cuts; what follows an open block is all reasoning. -/
def splitBlock (start stop text : Str) : Option Str × Str :=
  match cut start text with
  | none => (none, text)
  | some (before, body) =>
    match cut stop body with
    | none => (some body, before)
    | some (inner, after) => (some inner, before ++ after)

theorem splitReasoning_eq (text : Str) :
    splitReasoning text = .ok (splitBlock thinkStart thinkEnd text) := by
  unfold splitReasoning splitBlock
  cases hstart : find thinkStart text with
  | none => rw [cut_eq_none_iff.2 hstart]
  | some i =>
    obtain ⟨before, body, rfl, rfl, hcut, hbefore, hbody⟩ := slices_of_find hstart
    simp only [hcut, hbefore, hbody, ok_bind]
    cases hstop : find thinkEnd body with
    | none =>
      rw [cut_eq_none_iff.2 hstop]
      rfl
    | some j =>
      obtain ⟨inner, after, -, rfl, hcut', hinner, hafter⟩ :=
        slices_of_find_after (u := before) (p := thinkStart) hstop
      simp only [hcut', hinner, hafter, ok_bind]
      rfl

/-! ### Calls -/

/-- A result of a parser that takes no slice. -/
def ofResult {α : Type} : Except ParserError α → Parse α
  | .ok a => .ok a
  | .error e => .error (.error e)

@[simp] theorem returns_ofResult {α : Type} (r : Except ParserError α) : Returns (ofResult r) := by
  cases r with
  | ok a => exact returns_ok a
  | error e => exact returns_error e

/-- `ok_or_else(|| ParserError::malformed_tool(message))` -/
def okOrMalformed {α : Type} (message : String) : Option α → Except ParserError α
  | some a => .ok a
  | none => .error (.malformedTool message.toList)

/-- `map_err(|err| ParserError::malformed_tool(format!("{context}: {err}")))` -/
def mapMalformed {α : Type} (context : String) : Except Str α → Except ParserError α
  | .ok a => .ok a
  | .error err => .error (.malformedTool (context.toList ++ err))

/-- The value of a key, for an object that has it. -/
def jsonGet (value : Json) (key : String) : Option Json := value.asObject.bind (lookupKey · key)

section Calls

variable (E : Env)

def parseJsonToolArguments : Json → Except ParserError Json
  | .string arguments =>
    let trimmed := trim arguments.toList
    if trimmed.isEmpty then .ok (.object [])
    else if startsWith trimmed ['{'] || startsWith trimmed ['['] then
      mapMalformed "invalid JSON tool-call arguments: " (E.fromStr trimmed)
    else .ok (.string arguments)
  | other => .ok other

/-- The id of a call: the one it has, if it is not empty, or a generated one. -/
def toolCallId (value : Json) (index : ℕ) : Str :=
  match (jsonGet value "id").bind Json.asStr with
  | some id => if id.isEmpty then E.generatedToolCallId index else id.toList
  | none => E.generatedToolCallId index

/-- `.map(parse_json_tool_arguments).transpose()?.unwrap_or_else(|| json!({}))` -/
def argumentsOr (value : Option Json) : Except ParserError Json :=
  match value with
  | some value => parseJsonToolArguments E value
  | none => .ok (.object [])

def parseJsonCall (inner : Str) (index : ℕ) : Except ParserError (ToolCall Json) := do
  let value ← mapMalformed "invalid qwen tool JSON: " (E.fromStr inner)
  let name ← okOrMalformed "qwen tool JSON missing name" ((jsonGet value "name").bind Json.asStr)
  let arguments ← argumentsOr E (((jsonGet value "arguments").orElse
    fun _ => jsonGet value "parameters").orElse fun _ => jsonGet value "args")
  return ⟨toolCallId E value index, .function, ⟨name.toList, arguments⟩⟩

def functionStart : Str := "<function=".toList

def functionEnd : Str := "</function>".toList

def parameterStart : Str := "<parameter=".toList

def parameterEnd : Str := "</parameter>".toList

/-- The loop over the parameters of an XML call. -/
def parseXmlParameters : ℕ → Str → List (String × Json) → Parse (List (String × Json))
  | 0, _, _ => .error .outOfFuel
  | fuel + 1, rest, map =>
    match find parameterStart rest with
    | none => .ok map
    | some start => do
      let keyStart := start + len parameterStart
      let tail ← sliceFrom rest keyStart
      match find ['>'] tail with
      | none => malformedTool "unterminated qwen parameter tag"
      | some keyEndRel => do
        let keyEnd := keyStart + keyEndRel
        let key ← slice rest keyStart keyEnd
        let valueStart := keyEnd + 1
        let tail ← sliceFrom rest valueStart
        match find parameterEnd tail with
        | none => malformedTool "missing qwen parameter close tag"
        | some valueEndRel => do
          let valueEnd := valueStart + valueEndRel
          let value ← slice rest valueStart valueEnd
          let rest ← sliceFrom rest (valueEnd + len parameterEnd)
          parseXmlParameters fuel rest
            (insertKey map (String.ofList key) (.string (String.ofList value)))

def parseXmlCall (inner : Str) (index : ℕ) : Parse (ToolCall Json) :=
  match find functionStart inner with
  | none => malformedTool "missing qwen function tag"
  | some nameStart => do
    let nameBodyStart := nameStart + len functionStart
    let tail ← sliceFrom inner nameBodyStart
    match find ['>'] tail with
    | none => malformedTool "unterminated qwen function tag"
    | some nameEndRel => do
      let nameEnd := nameBodyStart + nameEndRel
      let name ← slice inner nameBodyStart nameEnd
      match find functionEnd inner with
      | none => malformedTool "missing qwen function close tag"
      | some functionEndAt => do
        let params ← slice inner (nameEnd + 1) functionEndAt
        let map ← parseXmlParameters (params.length + 1) params []
        return ⟨E.generatedToolCallId index, .function, ⟨name, .object map⟩⟩

/-- The body of a block: the XML form, or JSON. -/
def parseQwenCall (inner : Str) (index : ℕ) : Parse (ToolCall Json) :=
  if startsWith inner functionStart then parseXmlCall E inner index
  else ofResult (parseJsonCall E inner index)

def toolCallStart : Str := "<tool_call>".toList

def toolCallEnd : Str := "</tool_call>".toList

def parseToolCalls (reasoning : Option Str) (rest : Str) : Parse (ParsedAssistant Json) := do
  let (content, calls) ← parseBlocks toolCallStart toolCallEnd "unterminated qwen tool_call tag"
    (parseQwenCall E) (rest.length + 1) rest [] []
  return ⟨reasoning, content, calls⟩

def QwenParser.parseComplete (text : Str) : Parse (ParsedAssistant Json) := do
  let (reasoning, rest) ← splitReasoning text
  if contains rest toolCallStart then parseToolCalls E reasoning rest
  else return ⟨reasoning, rest, []⟩

end Calls

/-! ### When reading an XML call returns -/

/-- The function tag of the body is not closed before its close tag. -/
def Unclosed (inner : Str) : Prop :=
  ∃ name rest, inner = functionStart ++ (name ++ functionEnd ++ rest) ∧ '>' ∉ name

/-- One round of the loop over parameters, by cuts. -/
theorem parseXmlParameters_step (fuel : ℕ) (rest : Str) (map : List (String × Json)) :
    parseXmlParameters (fuel + 1) rest map =
      match cut parameterStart rest with
      | none => .ok map
      | some (_, tail) =>
        match cut ['>'] tail with
        | none => malformedTool "unterminated qwen parameter tag"
        | some (key, body) =>
          match cut parameterEnd body with
          | none => malformedTool "missing qwen parameter close tag"
          | some (value, rest) => parseXmlParameters fuel rest
              (insertKey map (String.ofList key) (.string (String.ofList value))) := by
  rw [parseXmlParameters]
  cases hstart : find parameterStart rest with
  | none => rw [cut_eq_none_iff.2 hstart]
  | some i =>
    obtain ⟨before, tail, rfl, rfl, hcut, -, htail⟩ := slices_of_find hstart
    simp only [hcut, htail, ok_bind]
    cases hgt : find ['>'] tail with
    | none => rw [cut_eq_none_iff.2 hgt]
    | some j =>
      have hone : len ['>'] = 1 := rfl
      obtain ⟨key, body, rfl, rfl, hcut', hkey, hbody⟩ :=
        slices_of_find_after (u := before) (p := parameterStart) hgt
      rw [hone] at hbody
      simp only [hcut', hkey, hbody, ok_bind]
      cases hend : find parameterEnd body with
      | none => rw [cut_eq_none_iff.2 hend]
      | some k =>
        obtain ⟨value, rest', rfl, rfl, hcut''⟩ := exists_cut hend
        have hvalue : slice (before ++ parameterStart ++ (key ++ ['>'] ++
              (value ++ parameterEnd ++ rest')))
            (len before + len parameterStart + len key + 1)
            (len before + len parameterStart + len key + 1 + len value) = .ok value :=
          slice_eq (before ++ parameterStart ++ key ++ ['>']) value (parameterEnd ++ rest')
            (by simp) (by simp only [len_append, hone]) (by simp only [len_append, hone])
        have hrest : sliceFrom (before ++ parameterStart ++ (key ++ ['>'] ++
              (value ++ parameterEnd ++ rest')))
            (len before + len parameterStart + len key + 1 + len value + len parameterEnd) =
            .ok rest' :=
          sliceFrom_eq (before ++ parameterStart ++ key ++ ['>'] ++ value ++ parameterEnd) rest'
            (by simp) (by simp only [len_append, hone])
        simp only [hcut'', hvalue, hrest, ok_bind]

/-- Every round of the loop over parameters consumes input, and no slice of it fails. -/
theorem returns_parseXmlParameters : ∀ {fuel : ℕ} {rest : Str} {map : List (String × Json)},
    rest.length < fuel → Returns (parseXmlParameters fuel rest map)
  | fuel + 1, rest, map, hfuel => by
    rw [parseXmlParameters_step]
    cases hstart : cut parameterStart rest with
    | none => exact returns_ok map
    | some r =>
      obtain ⟨before, tail⟩ := r
      have hlt := length_lt_of_cut (by decide) hstart
      dsimp only
      cases hgt : cut ['>'] tail with
      | none => exact returns_malformedTool _
      | some r =>
        obtain ⟨key, body⟩ := r
        have hlt' := length_lt_of_cut (by decide) hgt
        dsimp only
        cases hend : cut parameterEnd body with
        | none => exact returns_malformedTool _
        | some r =>
          obtain ⟨value, rest'⟩ := r
          have hlt'' := length_lt_of_cut (by decide) hend
          exact returns_parseXmlParameters (by omega)

/-- The first `>` of an unclosed function tag is that of the close tag. -/
theorem not_unclosed_of_closed {name body : Str} {f : ℕ}
    (hf : find functionEnd (functionStart ++ (name ++ ['>'] ++ body)) = some f)
    (hclosed : len functionStart + len name + 1 ≤ f) :
    ¬Unclosed (functionStart ++ (name ++ ['>'] ++ body)) := by
  rintro ⟨name', rest, heq, hname'⟩
  have hfirst := (find_eq_some_iff.1 hf).2 (show OccursAt functionEnd _ _ from
    ⟨functionStart ++ name', rest, by rw [heq]; simp only [List.append_assoc], rfl⟩)
  have htail : name ++ ['>'] ++ body = name' ++ functionEnd ++ rest := List.append_cancel_left heq
  rw [len_append] at hfirst
  rw [List.append_assoc, List.append_assoc] at htail
  -- one of the names starts the other
  rcases List.append_eq_append_iff.1 htail with ⟨x, rfl, hx⟩ | ⟨x, rfl, -⟩
  · cases x with
    | nil => cases hx
    | cons a x =>
      obtain ⟨rfl, -⟩ := List.cons.inj hx
      exact hname' (by simp)
  · rw [len_append] at hclosed
    omega

theorem unclosed_of_open {name body : Str} (hname : '>' ∉ name) {f : ℕ}
    (hf : find functionEnd (functionStart ++ (name ++ ['>'] ++ body)) = some f)
    (hopen : f < len functionStart + len name + 1) :
    Unclosed (functionStart ++ (name ++ ['>'] ++ body)) := by
  have hocc := (find_eq_some_iff.1 hf).1
  obtain ⟨u, w, heq, rfl⟩ := hocc
  have hstart : OccursAt functionStart (functionStart ++ (name ++ ['>'] ++ body)) 0 :=
    ⟨[], name ++ ['>'] ++ body, rfl, rfl⟩
  have hpos : 0 < len u := by
    refine Nat.pos_of_ne_zero fun hzero => ?_
    rw [len_eq_zero.1 hzero] at heq
    cases heq
  have htag : '<' ∉ functionStart.tail := by decide
  have hle := OccursAt.separate htag (q := functionEnd) rfl hstart ⟨u, w, heq, rfl⟩ hpos
  obtain ⟨name', rfl⟩ : functionStart <+: u :=
    prefix_of_len_le ⟨_, rfl⟩ ⟨functionEnd ++ w, by rw [heq, List.append_assoc]⟩ (by omega)
  have heq' : functionStart ++ (name ++ ['>'] ++ body) =
      functionStart ++ (name' ++ functionEnd ++ w) := by
    rw [heq]
    simp only [List.append_assoc]
  have htail : name ++ ['>'] ++ body = name' ++ functionEnd ++ w := List.append_cancel_left heq'
  refine ⟨name', w, heq', fun hmem => hname ?_⟩
  rw [len_append] at hopen
  rw [List.append_assoc, List.append_assoc] at htail
  have hpre : name' <+: name :=
    prefix_of_len_le ⟨functionEnd ++ w, htail.symm⟩ ⟨['>'] ++ body, rfl⟩ (by omega)
  exact hpre.subset hmem

theorem gt_mem_functionEnd : '>' ∈ functionEnd := by decide

theorem returns_parseXmlCall_iff (E : Env) {inner : Str} (h : startsWith inner functionStart = true)
    (index : ℕ) : Returns (parseXmlCall E inner index) ↔ ¬Unclosed inner := by
  obtain ⟨tail, rfl⟩ := startsWith_iff.1 h
  have hstart : find functionStart (functionStart ++ tail) = some 0 :=
    find_eq_some_iff.2 ⟨⟨[], tail, rfl, rfl⟩, fun j _ => Nat.zero_le j⟩
  have htail : sliceFrom (functionStart ++ tail) (0 + len functionStart) = .ok tail :=
    sliceFrom_eq functionStart tail rfl (Nat.zero_add _)
  rw [parseXmlCall]
  simp only [hstart, htail, ok_bind]
  cases hgt : find ['>'] tail with
  | none =>
    refine iff_of_true (returns_malformedTool _) ?_
    rintro ⟨name, rest, heq, -⟩
    have hmem : '>' ∈ tail := by
      have htail : tail = name ++ functionEnd ++ rest := List.append_cancel_left heq
      rw [htail]
      exact List.mem_append_left _ (List.mem_append_right _ gt_mem_functionEnd)
    obtain ⟨u, v, huv⟩ := List.append_of_mem hmem
    exact find_eq_none_iff.1 hgt (len u) ⟨u, v, by simp [huv], rfl⟩
  | some i =>
    obtain ⟨name, body, rfl, rfl, -⟩ := exists_cut hgt
    have hname := find_singleton_append_iff.1 hgt
    have hslice : slice (functionStart ++ (name ++ ['>'] ++ body)) (0 + len functionStart)
        (0 + len functionStart + len name) = .ok name :=
      slice_eq functionStart name (['>'] ++ body) (by simp) (Nat.zero_add _) (by rw [Nat.zero_add])
    simp only [hslice, ok_bind]
    cases hend : find functionEnd (functionStart ++ (name ++ ['>'] ++ body)) with
    | none =>
      refine iff_of_true (returns_malformedTool _) ?_
      rintro ⟨name', rest, heq, -⟩
      refine find_eq_none_iff.1 hend (len (functionStart ++ name')) ⟨functionStart ++ name', rest, ?_, rfl⟩
      rw [heq]
      simp only [List.append_assoc]
    | some f =>
      rcases Nat.lt_or_ge f (len functionStart + len name + 1) with hlt | hge
      · refine iff_of_false ?_ fun hclosed => hclosed (unclosed_of_open hname hend hlt)
        have hpanic : slice (functionStart ++ (name ++ ['>'] ++ body))
            (0 + len functionStart + len name + 1) f = .error .panicked := by
          rw [slice, slice?, if_neg (by omega)]
        simp only [hpanic]
        exact not_returns_panicked
      · refine iff_of_true ?_ (not_unclosed_of_closed hend hge)
        refine returns_bind ?_ fun params _ =>
          returns_bind (returns_parseXmlParameters (Nat.lt_succ_self _)) fun map _ => returns_pure _
        have ha : isBoundary (functionStart ++ (name ++ ['>'] ++ body))
            (0 + len functionStart + len name + 1) = true := by
          refine isBoundary_iff.2 ⟨functionStart ++ name ++ ['>'], body, by simp, ?_⟩
          rw [len_append, len_append, Nat.zero_add]
          rfl
        obtain ⟨m, hm⟩ := exists_slice? ha ((find_eq_some_iff.1 hend).1).isBoundary (by omega)
        rw [slice, hm]
        exact returns_ok m

end KirAi.ToolParser
