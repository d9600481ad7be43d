/-
# The parser of a model family

`parse_assistant_for_family` of `lib.rs`, and when it returns. Every slice the parsers take
lies between character boundaries in order, and every loop consumes input, with one
exception: the XML form of a Qwen call whose function tag is not closed before its close
tag (`Unclosed`). Qwen, Llama and DeepSeek texts get there through `parse_tool_calls`, if
all calls in front are well formed (`ReachesUnclosed`); so the parser of a family returns
just on the texts that do not (`parseComplete_returns_iff`).

Key definitions:
* `parseComplete`, `toolCallsText`, `ReachesUnclosed`

Key theorems:
* `returns_parseEach_iff`, `parseComplete_returns_iff`
-/
import KirAi.Runtime.ToolMarkup
import KirAi.ToolParser.DeepSeek
import KirAi.ToolParser.GemmaReader
import KirAi.ToolParser.Llama

namespace KirAi.ToolParser

open Lib Lib.Text
open KirAi.Runtime (Str ToolCall ToolCallFunction ParsedAssistant ModelFamily isWhitespace trim
  trimStart)

def parseComplete (E : Env) : ModelFamily → Str → Parse (ParsedAssistant Json)
  | .qwen => QwenParser.parseComplete E
  | .deepSeek => DeepSeekParser.parseComplete E
  | .gemma => GemmaParser.parseComplete E
  | .llama => LlamaParser.parseComplete E

/-! ### Blocks with an unclosed function tag -/

/-- A text in which Qwen tool calls are looked for. -/
def markedText (rest : Str) : Option Str := if contains rest toolCallStart then some rest else none

/-- The text that a family gives to `parse_tool_calls`, if it does. -/
def toolCallsText (family : ModelFamily) (text : Str) : Option Str :=
  let rest := (splitBlock thinkStart thinkEnd text).2
  match family with
  | .qwen => markedText rest
  | .llama => markedText (beforeStopControl llamaStopControls rest)
  | .deepSeek =>
    let rest := beforeStopControl [endOfSentence, deepseekUser] (stripDeepseekAssistantPrefix rest)
    if contains rest toolCallsBegin || contains rest dsmlStart then none else markedText rest
  | .gemma => none

/-- The function tag of a block is unclosed, and all blocks in front of it are calls. -/
def ReachesUnclosed (E : Env) (rest : Str) : Prop :=
  ∃ before block after, (blocksOf toolCallStart toolCallEnd rest).blocks = before ++ block :: after ∧
    (∃ calls, parseEach (parseQwenCall E) 0 before = .ok calls) ∧ Unclosed (trim block.2)

/-- Reading the blocks returns just if every block that is reached does. -/
theorem returns_parseEach_iff {parseCall : Str → ℕ → Parse (ToolCall Json)} :
    ∀ (blocks : List (Str × Str)) (index : ℕ), Returns (parseEach parseCall index blocks) ↔
      ∀ before block after, blocks = before ++ block :: after →
        (∃ calls, parseEach parseCall index before = .ok calls) →
        Returns (parseCall (trim block.2) (index + before.length))
  | [], index => by
    refine iff_of_true (returns_ok _) fun before block after h => ?_
    simp at h
  | (gap, inner) :: blocks, index => by
    have ih : Returns (parseEach parseCall (index + 1) blocks) ↔ _ :=
      returns_parseEach_iff blocks (index + 1)
    rw [parseEach, returns_bind_iff]
    constructor
    · rintro ⟨hfirst, hrest⟩ before block after hblocks ⟨calls, hcalls⟩
      cases before with
      | nil =>
        obtain ⟨rfl, -⟩ := List.cons.inj hblocks
        exact hfirst
      | cons b before =>
        obtain ⟨rfl, rfl⟩ := List.cons.inj hblocks
        rw [parseEach, bind_eq_ok] at hcalls
        obtain ⟨call, hcall, hcalls⟩ := hcalls
        obtain ⟨calls', hcalls', -⟩ := bind_eq_ok.1 hcalls
        have h := ih.1 (returns_bind_iff.1 (hrest call hcall)).1 before block after rfl ⟨_, hcalls'⟩
        rwa [List.length_cons, ← Nat.add_assoc, Nat.add_right_comm]
    · intro h
      refine ⟨h [] (gap, inner) blocks rfl ⟨[], rfl⟩, fun call hcall => ?_⟩
      refine returns_bind (ih.2 fun before block after hblocks hcalls => ?_) fun _ _ => returns_pure _
      obtain ⟨calls, hcalls⟩ := hcalls
      have h := h ((gap, inner) :: before) block after (by rw [hblocks]; rfl)
        ⟨call :: calls, by rw [parseEach, hcall, ok_bind, hcalls]; rfl⟩
      rwa [List.length_cons, ← Nat.add_assoc, Nat.add_right_comm] at h

theorem returns_parseQwenCall_iff (E : Env) (inner : Str) (index : ℕ) :
    Returns (parseQwenCall E inner index) ↔ ¬Unclosed inner := by
  unfold parseQwenCall
  cases hxml : startsWith inner functionStart with
  | true => exact returns_parseXmlCall_iff E hxml index
  | false =>
    refine iff_of_true (returns_ofResult _) ?_
    rintro ⟨name, rest, rfl, -⟩
    rw [startsWith_iff.2 ⟨_, rfl⟩] at hxml
    cases hxml

theorem returns_parseToolCalls_iff (E : Env) (reasoning : Option Str) (rest : Str) :
    Returns (parseToolCalls E reasoning rest) ↔ ¬ReachesUnclosed E rest := by
  have hblocks : Returns (parseToolCalls E reasoning rest) ↔
      Returns (parseEach (parseQwenCall E) 0 (blocksOf toolCallStart toolCallEnd rest).blocks) := by
    rw [parseToolCalls, parseBlocks_eq (by decide) (by decide) (Nat.lt_succ_self _)]
    refine ⟨fun h => (returns_bind_iff.1 (returns_bind_iff.1 h).1).1, fun h => ?_⟩
    refine returns_bind (returns_bind h fun found _ => ?_) fun _ _ => returns_pure _
    cases (blocksOf toolCallStart toolCallEnd rest).tail with
    | none => exact returns_malformedTool _
    | some tail => exact returns_ok _
  rw [hblocks, returns_parseEach_iff]
  constructor
  · rintro h ⟨before, block, after, hsplit, hcalls, hopen⟩
    exact (returns_parseQwenCall_iff E _ _).1 (h before block after hsplit hcalls) hopen
  · intro h before block after hsplit hcalls
    exact (returns_parseQwenCall_iff E _ _).2 fun hopen =>
      h ⟨before, block, after, hsplit, hcalls, hopen⟩

/-- A family that looks for Qwen calls in `rest`, or else reads on with something that returns. -/
theorem returns_marked_iff (E : Env) (reasoning : Option Str) (rest : Str)
    {other : Parse (ParsedAssistant Json)} (hother : Returns other) :
    Returns (if contains rest toolCallStart then parseToolCalls E reasoning rest else other) ↔
      ∀ text, markedText rest = some text → ¬ReachesUnclosed E text := by
  unfold markedText
  split
  · rw [returns_parseToolCalls_iff]
    exact ⟨fun h text heq => Option.some.inj heq ▸ h, fun h => h rest rfl⟩
  · exact iff_of_true hother fun text h => by cases h

theorem returns_gemma (E : Env) (text : Str) : Returns (GemmaParser.parseComplete E text) := by
  refine returns_bind (returns_ofResult _) fun _ _ => ?_
  rw [trimAfterStopControl_eq, ok_bind, splitGemmaReasoning_eq, ok_bind]
  refine returns_bind ?_ fun _ _ => returns_pure _
  refine returns_parseBlocks (by decide) (by decide) (fun inner index => ?_) _
  unfold parseGemmaCall
  cases stripPrefix inner "call:".toList with
  | none => exact returns_malformedTool _
  | some body =>
    dsimp only
    cases hbrace : find ['{'] body with
    | none => exact returns_malformedTool _
    | some i =>
      obtain ⟨u, v, rfl, rfl, -, hname, -⟩ := slices_of_find hbrace
      have hargs : sliceFrom (u ++ ['{'] ++ v) (len u) = .ok (['{'] ++ v) :=
        sliceFrom_eq u (['{'] ++ v) (by simp) rfl
      simp only [hname, hargs, ok_bind]
      split
      · exact returns_malformedTool _
      · exact returns_bind (returns_parseArguments E _) fun _ _ => returns_pure _

/-- For every family and every text: the parser returns `Ok` or `Err` just if it does not
reach a block with an unclosed function tag. -/
theorem parseComplete_returns_iff (E : Env) (family : ModelFamily) (text : Str) :
    Returns (parseComplete E family text) ↔
      ∀ rest, toolCallsText family text = some rest → ¬ReachesUnclosed E rest := by
  cases family with
  | qwen =>
    show Returns (QwenParser.parseComplete E text) ↔ _
    rw [QwenParser.parseComplete, splitReasoning_eq, ok_bind]
    exact returns_marked_iff E _ _ (returns_pure _)
  | deepSeek =>
    show Returns (DeepSeekParser.parseComplete E text) ↔ _
    rw [DeepSeekParser.parseComplete, splitReasoning_eq, ok_bind]
    simp only [trimDeepseekAfterStopControl, trimAfterStopControl_eq, ok_bind, toolCallsText]
    generalize beforeStopControl [endOfSentence, deepseekUser] _ = rest
    cases hnative : contains rest toolCallsBegin with
    | true => exact iff_of_true (returns_parseDeepseekNativeToolCalls E _ rest) (by simp)
    | false =>
      cases hdsml : contains rest dsmlStart with
      | true => exact iff_of_true (returns_parseDeepseekDsmlToolCalls E _ rest) (by simp)
      | false => exact returns_marked_iff E _ rest (returns_pure _)
  | gemma => exact iff_of_true (returns_gemma E text) fun rest h => by cases h
  | llama =>
    show Returns (LlamaParser.parseComplete E text) ↔ _
    rw [LlamaParser.parseComplete, splitReasoning_eq, ok_bind]
    simp only [trimAfterStopControl_eq, ok_bind]
    exact returns_marked_iff E _ _ (returns_parseJsonToolOutputIfToolLike E _ _)

/-- A function tag that its close tag ends. -/
def unclosedCallText : Str := "<tool_call><function=f</function></tool_call>".toList

/-- The slice for the parameters starts past its end. -/
theorem parseComplete_panics : ¬Returns (parseComplete compactEnv .qwen unclosedCallText) :=
  fun h => h.1 rfl

end KirAi.ToolParser
