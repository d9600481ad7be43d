/-
# Where a parser opens the first tool call

The parser of a family looks for its start tags in what is left of an output: without the
reasoning, without a prefix of the assistant, and before the first control token. So a tag in the
reasoning opens nothing, and a tag with reasoning inside it opens a call. `blockStart` is the
place in the output at which the first tag stands that the parser opens a call with.

Key definitions: `blockStart`.
Key theorems: `blockStart_lt`, `toolCalls_of_blockStart_none`.
-/
import KirAi.ToolParser.Family

namespace KirAi.ToolParser

open Lib Lib.Text
open KirAi.Runtime (Str ToolCall ToolCallFunction ParsedAssistant ModelFamily)

/-- The place in a text of a place in what is left of it without the first block. -/
def splitPlace (start stop text : Str) (i : ℕ) : ℕ :=
  match cut start text with
  | none => i
  | some (before, _) =>
    if i < len before then i else i + (len text - len (splitBlock start stop text).2)

/-- The tag that DeepSeek's parser reads the calls of a text by. -/
def deepseekStart (rest : Str) : Option Str :=
  if contains rest toolCallsBegin then some toolCallsBegin
  else if contains rest dsmlStart then some dsmlStart
  else if contains rest toolCallStart then some toolCallStart
  else none

/-- The place of the start tag that `parse_complete` of a family opens the first tool call with. -/
def blockStart (family : ModelFamily) (text : Str) : Option ℕ :=
  let rest := (splitBlock thinkStart thinkEnd text).2
  let place := splitPlace thinkStart thinkEnd text
  match family with
  | .qwen => (find toolCallStart rest).map place
  | .llama => (find toolCallStart (beforeStopControl llamaStopControls rest)).map place
  | .deepSeek =>
    let answer := stripDeepseekAssistantPrefix rest
    let visible := beforeStopControl [endOfSentence, deepseekUser] answer
    ((deepseekStart visible).bind (find · visible)).map fun i => place (len rest - len answer + i)
  | .gemma =>
    let kept := beforeStopControl gemmaStopControls text
    if (gemmaMultimodalMarkers.find? (contains text ·)).isSome then none
    else (find gemmaCallStart (splitGemmaCut kept).2).map
      (splitPlace gemmaThoughtStart gemmaChannelEnd kept)

/-! ### The place lies in the text -/

section Place

variable {start stop text : Str} {i n : ℕ}

theorem len_splitBlock_le (start stop text : Str) : len (splitBlock start stop text).2 ≤ len text := by
  unfold splitBlock
  cases hcut : cut start text with
  | none => exact le_rfl
  | some r =>
    obtain ⟨before, body⟩ := r
    have htext := congrArg len (cut_eq_some_iff.1 hcut).1
    rw [len_append, len_append] at htext
    dsimp only
    cases hcut' : cut stop body with
    | none =>
      dsimp only
      omega
    | some r' =>
      obtain ⟨inner, after⟩ := r'
      have hbody := congrArg len (cut_eq_some_iff.1 hcut').1
      rw [len_append, len_append] at hbody
      dsimp only
      rw [len_append]
      omega

theorem splitPlace_lt (hi : i < len (splitBlock start stop text).2) :
    splitPlace start stop text i < len text := by
  have hle := len_splitBlock_le start stop text
  unfold splitPlace
  split
  · exact hi.trans_le hle
  · split
    · exact hi.trans_le hle
    · omega

/-- A tag that is found starts before the end. -/
theorem lt_len_of_find {tag rest : Str} (htag : tag ≠ []) (h : find tag rest = some i) :
    i < len rest := by
  have hend := (find_eq_some_iff.1 h).1.end_le
  have hpos := Nat.pos_of_ne_zero fun hz => htag (len_eq_zero.1 hz)
  omega

theorem len_stripPrefix_le (rest : Str) : len (stripDeepseekAssistantPrefix rest) ≤ len rest := by
  unfold stripDeepseekAssistantPrefix stripPrefix
  split
  · next hprefix =>
    obtain ⟨v, rfl⟩ := List.isPrefixOf_iff_prefix.1 hprefix
    rw [Option.getD_some, List.drop_left, len_append]
    exact Nat.le_add_left _ _
  · exact le_rfl

theorem splitGemmaCut_snd (text : Str) :
    (splitGemmaCut text).2 = (splitBlock gemmaThoughtStart gemmaChannelEnd text).2 := by
  unfold splitGemmaCut splitBlock
  cases cut gemmaThoughtStart text with
  | none => rfl
  | some r =>
    dsimp only
    cases cut gemmaChannelEnd r.2 <;> rfl

theorem len_beforeStopControl_le (tokens : List Str) (text : Str) :
    len (beforeStopControl tokens text) ≤ len text := by
  obtain ⟨v, hv⟩ := takeTo_isPrefix text ((tokens.filterMap (find · text)).min?.getD (len text))
  have hlen := congrArg len hv
  rw [len_append] at hlen
  exact Nat.le.intro hlen

theorem deepseekStart_ne_nil {rest tag : Str} (h : deepseekStart rest = some tag) : tag ≠ [] := by
  unfold deepseekStart at h
  split at h
  · exact Option.some.inj h ▸ by decide
  · split at h
    · exact Option.some.inj h ▸ by decide
    · split at h
      · exact Option.some.inj h ▸ by decide
      · cases h

theorem blockStart_lt {family : ModelFamily} (h : blockStart family text = some n) : n < len text := by
  cases family with
  | qwen =>
    obtain ⟨i, hi, rfl⟩ := Option.map_eq_some_iff.1 h
    exact splitPlace_lt (lt_len_of_find (by decide) hi)
  | llama =>
    obtain ⟨i, hi, rfl⟩ := Option.map_eq_some_iff.1 h
    exact splitPlace_lt ((lt_len_of_find (by decide) hi).trans_le (len_beforeStopControl_le _ _))
  | deepSeek =>
    obtain ⟨i, hi, rfl⟩ := Option.map_eq_some_iff.1 h
    obtain ⟨tag, htag, hi⟩ := Option.bind_eq_some_iff.1 hi
    have hvisible := lt_len_of_find (deepseekStart_ne_nil htag) hi
    have hanswer := len_beforeStopControl_le [endOfSentence, deepseekUser]
      (stripDeepseekAssistantPrefix (splitBlock thinkStart thinkEnd text).2)
    have hrest := len_stripPrefix_le (splitBlock thinkStart thinkEnd text).2
    exact splitPlace_lt (by omega)
  | gemma =>
    unfold blockStart at h
    dsimp only at h
    split at h
    · cases h
    · obtain ⟨i, hi, rfl⟩ := Option.map_eq_some_iff.1 h
      rw [splitGemmaCut_snd] at hi
      exact (splitPlace_lt (lt_len_of_find (by decide) hi)).trans_le (len_beforeStopControl_le _ _)

/-- The reasoning stands inside the tag, and what is left of the text has the tag. -/
example : blockStart .qwen "Hi <tool_<think>x</think>call>\x7b\x7d</tool_call>".toList = some 3 := by
  decide +kernel

end Place

/-! ### Without a start there is no call -/

theorem parseBlocks_of_find_none {start stop rest : Str} {unterminated : String}
    {parseCall : Str → ℕ → Parse (ToolCall Json)} (h : find start rest = none) :
    parseBlocks start stop unterminated parseCall (rest.length + 1) rest [] [] = .ok (rest, []) := by
  rw [parseBlocks, h]
  rfl

/-- What DeepSeek's parser finds no tag in has none of the three. -/
theorem contains_of_deepseekStart {visible : Str}
    (h : (deepseekStart visible).bind (find · visible) = none) :
    contains visible toolCallsBegin = false ∧ contains visible dsmlStart = false ∧
      contains visible toolCallStart = false := by
  have hfind : ∀ {tag : Str}, contains visible tag = true → find tag visible ≠ none := by
    intro tag hcontains hnone
    rw [contains, hnone] at hcontains
    cases hcontains
  cases hnative : contains visible toolCallsBegin with
  | true =>
    rw [deepseekStart, if_pos hnative] at h
    exact absurd h (hfind hnative)
  | false =>
    cases hdsml : contains visible dsmlStart with
    | true =>
      simp only [deepseekStart, hnative, Bool.false_eq_true, if_false, hdsml, if_true] at h
      exact absurd h (hfind hdsml)
    | false =>
      cases hqwen : contains visible toolCallStart with
      | true =>
        simp only [deepseekStart, hnative, hdsml, hqwen, Bool.false_eq_true, if_false, if_true] at h
        exact absurd h (hfind hqwen)
      | false => exact ⟨rfl, rfl, rfl⟩

/-- Where no tag opens a call, a parser that looks for tags alone answers with none. -/
theorem toolCalls_of_blockStart_none {E : Env} {family : ModelFamily} {text : Str}
    {parsed : ParsedAssistant Json} (hfamily : family ≠ .llama) (hnone : blockStart family text = none)
    (h : parseComplete E family text = .ok parsed) : parsed.toolCalls = [] := by
  cases family with
  | llama => exact absurd rfl hfamily
  | qwen =>
    have hfind := Option.map_eq_none_iff.1 hnone
    have hparse : QwenParser.parseComplete E text = .ok parsed := h
    rw [QwenParser.parseComplete, splitReasoning_eq, ok_bind] at hparse
    simp only [contains, hfind, Option.isSome_none, Bool.false_eq_true, if_false] at hparse
    exact Except.ok.inj hparse ▸ rfl
  | deepSeek =>
    obtain ⟨hnative, hdsml, hqwen⟩ := contains_of_deepseekStart (Option.map_eq_none_iff.1 hnone)
    have hparse : DeepSeekParser.parseComplete E text = .ok parsed := h
    rw [DeepSeekParser.parseComplete, splitReasoning_eq, ok_bind] at hparse
    simp only [trimDeepseekAfterStopControl, trimAfterStopControl_eq, ok_bind, hnative, hdsml, hqwen,
      Bool.false_eq_true, if_false] at hparse
    exact Except.ok.inj hparse ▸ rfl
  | gemma =>
    have hparse : GemmaParser.parseComplete E text = .ok parsed := h
    obtain ⟨_, hreject, hparse⟩ := bind_eq_ok.1 hparse
    rw [trimAfterStopControl_eq, ok_bind, splitGemmaReasoning_eq, ok_bind] at hparse
    unfold blockStart at hnone
    dsimp only at hnone
    split at hnone
    · next hmarker =>
      obtain ⟨token, htoken⟩ := Option.isSome_iff_exists.1 hmarker
      rw [rejectGemmaMultimodalMarkers, htoken] at hreject
      cases hreject
    · have hcalls : parseGemmaToolCalls E (splitGemmaCut (beforeStopControl gemmaStopControls text)).2 =
          .ok (_, []) := parseBlocks_of_find_none (Option.map_eq_none_iff.1 hnone)
      dsimp only at hparse
      rw [hcalls, ok_bind] at hparse
      exact Except.ok.inj hparse ▸ rfl

end KirAi.ToolParser
