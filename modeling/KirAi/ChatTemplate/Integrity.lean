/-
# Control tokens come from the template

Whatever stands in the messages and the tools, a reserved token of Qwen, DeepSeek or Llama
in a rendered prompt was written by the template (`reserved_tokens_from_template`). A
reserved token has `<` only at its start and `>` only at its end. What is inserted contains
none of them; what is written next to it begins with `<`, with a line break or with a
bracket, or ends with `>` or a line break, so none arises at a border either.

Each renderer of a turn keeps the prompt `Guarded`; the parts that insert right at their
start need it to be `Ready`, with no token under way.

Key definitions: `Ready`, `Template`, `Template.render`.
Key theorems: `reserved_tokens_from_template`.
-/
import KirAi.ChatTemplate.Render

namespace KirAi.ChatTemplate

open Lib Lib.Text Lib.Marked Prompt
open KirAi.Runtime (Str ToolCall trim trimStart isWhitespace)
open KirAi.Api (ChatMessage ChatRole ToolDefinition toolsJson)

/-! ### Steps of a renderer -/

section Steps

variable {reserved : List String} {out out' : Prompt}

/-- Nothing but the template's own tokens, and none under way. -/
structure Ready (reserved : List String) (out : Prompt) : Prop where
  guarded : Guarded (tokensOf reserved) out
  shut : Shut (tokensOf reserved) (text out)

/-- The template writes a text that starts outside of every token. -/
theorem guarded_pushStr (h : Guarded (tokensOf reserved) out) {s : String}
    (hs : startsOutside (tokensOf reserved) s.toList = true) :
    Guarded (tokensOf reserved) (out.pushStr s) :=
  h.write (.inr (anew_of_startsOutside hs))

theorem Ready.pushStr (h : Ready reserved out) (s : String) :
    Guarded (tokensOf reserved) (out.pushStr s) :=
  h.guarded.write (.inl h.shut)

/-- After a text that ends outside of every token, none is under way. -/
theorem ready_pushStr {s : String} (h : Guarded (tokensOf reserved) (out.pushStr s))
    (hs : endsOutside (tokensOf reserved) s.toList = true) : Ready reserved (out.pushStr s) := by
  refine ⟨h, ?_⟩
  rw [text_pushStr]
  exact shut_append hs _

theorem Ready.pushText (h : Ready reserved out) {s : Str} (hs : FreeOf (tokensOf reserved) s) :
    Guarded (tokensOf reserved) (out.pushText s) :=
  h.guarded.insert hs (.inl h.shut)

/-- The tools are printed as an array, and no token goes on with a bracket. -/
theorem guarded_pushTools (h : Guarded (tokensOf reserved) out) {tools : List ToolDefinition}
    (hs : FreeOf (tokensOf reserved) (toolsJson tools))
    (hbracket : startsOutside (tokensOf reserved) ['['] = true) :
    Guarded (tokensOf reserved) (out.pushText (toolsJson tools)) := by
  refine h.insert hs (.inr ?_)
  rw [toolsJson, Json.chars, ← List.singleton_append]
  exact anew_append hbracket _

theorem guarded_pushContent (h : Ready reserved out) {shown : Str → Str} {content : Option Str}
    (hshown : ∀ text, shown text <:+: text)
    (hpush : pushContent reserved shown out content = .ok out') :
    Guarded (tokensOf reserved) out' := by
  rcases pushContent_ok hpush with ⟨-, rfl⟩ | ⟨text, -, hfree, rfl⟩
  · exact h.guarded
  · exact h.pushText (hfree.of_infix (hshown text))

end Steps

theorem infix_id (text : Str) : id text <:+: text := List.infix_rfl

theorem infix_trim (text : Str) : trim text <:+: text := by
  have hend : trim text <+: trimStart text := by
    have h := List.dropWhile_suffix isWhitespace (l := (trimStart text).reverse)
    rw [← List.reverse_prefix, List.reverse_reverse] at h
    exact h
  exact hend.isInfix.trans (List.dropWhile_suffix _).isInfix

theorem infix_stripDeepseekHistoryReasoning (text : Str) :
    stripDeepseekHistoryReasoning text <:+: text := by
  unfold stripDeepseekHistoryReasoning
  cases hcut : cut "</think>".toList text with
  | none => exact List.infix_rfl
  | some r =>
    obtain ⟨before, answer⟩ := r
    exact ⟨before ++ "</think>".toList, [], by rw [List.append_nil, (cut_eq_some_iff.1 hcut).1]⟩

/-! ### Qwen -/

theorem guarded_renderPlain {out out' : Prompt} {role : String} {message : ChatMessage}
    (h : Guarded (tokensOf qwenReserved) out) (hrender : renderPlain out role message = .ok out') :
    Guarded (tokensOf qwenReserved) out' := by
  obtain ⟨out₁, hcontent, hout⟩ := bind_eq_ok.1 hrender
  have hstart := ready_pushStr (guarded_pushStr h (s := "<|im_start|>") (by decide)) (by decide)
  have hrole := guarded_pushStr (hstart.pushStr role) (s := "\n") (by decide)
  have hcontent := guarded_pushContent (ready_pushStr hrole (by decide)) infix_id hcontent
  obtain rfl := pure_eq_ok.1 hout
  exact guarded_pushStr hcontent (by decide)

theorem guarded_renderToolCall {out out' : Prompt} {call : ToolCall Json}
    (h : Guarded (tokensOf qwenReserved) out) (hrender : renderToolCall out call = .ok out') :
    Guarded (tokensOf qwenReserved) out' := by
  obtain ⟨hfree, hout⟩ := reject_bind_ok hrender
  have hstart := ready_pushStr (guarded_pushStr h (s := "<tool_call>") (by decide)) (by decide)
  obtain rfl := pure_eq_ok.1 hout
  exact guarded_pushStr (hstart.pushText hfree) (by decide)

theorem guarded_renderAssistant {out out' : Prompt} {message : ChatMessage}
    (h : Guarded (tokensOf qwenReserved) out) (hrender : renderAssistant out message = .ok out') :
    Guarded (tokensOf qwenReserved) out' := by
  obtain ⟨out₁, hcontent, hrest⟩ := bind_eq_ok.1 hrender
  obtain ⟨out₂, hcalls, hout⟩ := bind_eq_ok.1 hrest
  have hstart :=
    ready_pushStr (guarded_pushStr h (s := "<|im_start|>assistant\n") (by decide)) (by decide)
  have hcontent := guarded_pushContent hstart infix_id hcontent
  have hcalls := foldlM_preserves (fun _ _ _ _ => guarded_renderToolCall) hcontent hcalls
  obtain rfl := pure_eq_ok.1 hout
  exact guarded_pushStr hcalls (by decide)

theorem guarded_renderQwenMessage {out out' : Prompt} {message : ChatMessage}
    (h : Guarded (tokensOf qwenReserved) out) (hrender : renderQwenMessage out message = .ok out') :
    Guarded (tokensOf qwenReserved) out' := by
  unfold renderQwenMessage at hrender
  cases hrole : message.role with
  | system =>
    rw [hrole] at hrender
    exact guarded_renderPlain h hrender
  | user =>
    rw [hrole] at hrender
    exact guarded_renderPlain h hrender
  | tool =>
    rw [hrole] at hrender
    exact guarded_renderPlain h hrender
  | assistant =>
    rw [hrole] at hrender
    exact guarded_renderAssistant h hrender

/-- Tools after an instruction, which may end as it likes. -/
theorem guarded_instruction {reserved : List String} {out : Prompt} (h : Ready reserved out)
    {tools : List ToolDefinition} (toolInstruction : Option String)
    (hs : FreeOf (tokensOf reserved) (toolsJson tools))
    (hbracket : startsOutside (tokensOf reserved) ['['] = true) :
    Guarded (tokensOf reserved) (Prompt.pushText (pushInstruction out toolInstruction)
      (toolsJson tools)) := by
  refine guarded_pushTools ?_ hs hbracket
  cases toolInstruction with
  | none => exact h.guarded
  | some instruction => exact h.pushStr instruction

theorem guarded_renderQwenTools {messages : List ChatMessage} {tools : List ToolDefinition}
    {toolInstruction : Option String} {out : Prompt}
    (h : renderQwenTools messages tools toolInstruction = .ok out) :
    Guarded (tokensOf qwenReserved) out := by
  obtain ⟨hfree, hrest⟩ := reject_bind_ok h
  obtain ⟨out₁, hcontent, hout⟩ := bind_eq_ok.1 hrest
  obtain rfl := pure_eq_ok.1 hout
  have hstart : Ready qwenReserved (pushStr [] "<|im_start|>system\n") :=
    ready_pushStr (guarded_pushStr (guarded_nil (by decide)) (by decide)) (by decide)
  refine guarded_pushStr (guarded_instruction ?_ toolInstruction hfree (by decide)) (by decide)
  cases hc : (firstSystem messages).bind (·.content) with
  | none =>
    rw [hc] at hcontent
    obtain rfl := Except.ok.inj hcontent
    exact hstart
  | some content =>
    have hcontent := guarded_pushContent hstart infix_id hcontent
    exact ready_pushStr (guarded_pushStr hcontent (s := "\n\n") (by decide)) (by decide)

theorem guarded_renderQwenChatml {messages : List ChatMessage} {tools : List ToolDefinition}
    {options : QwenPromptOptions} {toolInstruction : Option String} {out : Prompt}
    (h : renderQwenChatml messages tools options toolInstruction = .ok out) :
    Guarded (tokensOf qwenReserved) out := by
  obtain ⟨⟨out₁, messageIndex⟩, hsystem, hrest⟩ := bind_eq_ok.1 h
  obtain ⟨out₂, hmessages, hout⟩ := bind_eq_ok.1 hrest
  have hsystem : Guarded (tokensOf qwenReserved) out₁ := by
    unfold renderQwenSystem at hsystem
    split at hsystem
    · obtain ⟨rfl, -⟩ := Prod.mk.inj (Except.ok.inj hsystem)
      exact guarded_nil (by decide)
    · obtain ⟨out₃, htools, hout₃⟩ := bind_eq_ok.1 hsystem
      obtain ⟨rfl, -⟩ := Prod.mk.inj (Except.ok.inj hout₃)
      exact guarded_renderQwenTools htools
  have hmessages := foldlM_preserves (fun _ _ _ _ => guarded_renderQwenMessage) hsystem hmessages
  split at hout
  · obtain rfl := pure_eq_ok.1 hout
    have hturn := guarded_pushStr hmessages (s := "<|im_start|>assistant\n") (by decide)
    split
    · exact guarded_pushStr hturn (by decide)
    · exact guarded_pushStr hturn (by decide)
  · obtain rfl := pure_eq_ok.1 hout
    exact hmessages

/-! ### DeepSeek -/

theorem guarded_renderDeepseekPlainTurn {out out' : Prompt} {message : ChatMessage}
    (h : Guarded (tokensOf deepseekReserved) out)
    (hrender : renderDeepseekPlainTurn out "<｜User｜>" message = .ok out') :
    Guarded (tokensOf deepseekReserved) out' :=
  guarded_pushContent (ready_pushStr (guarded_pushStr h (by decide)) (by decide)) infix_id hrender

theorem guarded_renderDeepseekCall {out out' : Prompt} {call : ToolCall Json}
    (h : Guarded (tokensOf deepseekReserved) out) (hrender : renderDeepseekCall out call = .ok out') :
    Guarded (tokensOf deepseekReserved) out' := by
  obtain ⟨hname, hrest⟩ := reject_bind_ok hrender
  obtain ⟨harguments, hout⟩ := reject_bind_ok hrest
  obtain rfl := pure_eq_ok.1 hout
  have hstart := ready_pushStr (guarded_pushStr h
    (s := "<｜tool▁call▁begin｜>function<｜tool▁sep｜>") (by decide)) (by decide)
  have hfence := ready_pushStr (guarded_pushStr (hstart.pushText hname) (s := "\n```json\n")
    (by decide)) (by decide)
  exact guarded_pushStr (hfence.pushText harguments) (by decide)

theorem guarded_renderDeepseekCalls {out out' : Prompt} {calls : List (ToolCall Json)}
    (h : Guarded (tokensOf deepseekReserved) out)
    (hrender : renderDeepseekCalls out calls = .ok out') :
    Guarded (tokensOf deepseekReserved) out' := by
  unfold renderDeepseekCalls at hrender
  split at hrender
  · obtain rfl := Except.ok.inj hrender
    exact h
  · obtain ⟨out₁, hcalls, hout⟩ := bind_eq_ok.1 hrender
    obtain rfl := pure_eq_ok.1 hout
    have hbegin := guarded_pushStr h (s := "<｜tool▁calls▁begin｜>") (by decide)
    have hcalls := foldlM_preserves (fun _ _ _ _ => guarded_renderDeepseekCall) hbegin hcalls
    exact guarded_pushStr hcalls (by decide)

theorem guarded_renderDeepseekAssistantTurn {out out' : Prompt} {message : ChatMessage}
    (h : Guarded (tokensOf deepseekReserved) out)
    (hrender : renderDeepseekAssistantTurn out message = .ok out') :
    Guarded (tokensOf deepseekReserved) out' := by
  obtain ⟨out₁, hcontent, hrest⟩ := bind_eq_ok.1 hrender
  obtain ⟨out₂, hcalls, hout⟩ := bind_eq_ok.1 hrest
  obtain rfl := pure_eq_ok.1 hout
  have hstart := ready_pushStr (guarded_pushStr h (s := "<｜Assistant｜>") (by decide)) (by decide)
  have hcontent := guarded_pushContent hstart infix_stripDeepseekHistoryReasoning hcontent
  exact guarded_pushStr (guarded_renderDeepseekCalls hcontent hcalls) (by decide)

theorem guarded_closeToolOutputs {state : ToolOutputs}
    (h : Guarded (tokensOf deepseekReserved) state.1) :
    Guarded (tokensOf deepseekReserved) (closeToolOutputs state) := by
  unfold closeToolOutputs
  split
  · exact guarded_pushStr h (by decide)
  · exact h

theorem guarded_renderDeepseekToolResponse {state state' : ToolOutputs} {message : ChatMessage}
    (h : Guarded (tokensOf deepseekReserved) state.1)
    (hrender : renderDeepseekToolResponse state message = .ok state') :
    Guarded (tokensOf deepseekReserved) state'.1 := by
  obtain ⟨hfree, hout⟩ := reject_bind_ok hrender
  obtain rfl := pure_eq_ok.1 hout
  have hopen : Guarded (tokensOf deepseekReserved)
      (if state.2 then state.1 else state.1.pushStr "<｜tool▁outputs▁begin｜>") := by
    split
    · exact h
    · exact guarded_pushStr h (by decide)
  have hstart := ready_pushStr (guarded_pushStr hopen (s := "<｜tool▁output▁begin｜>") (by decide))
    (by decide)
  exact guarded_pushStr (hstart.pushText hfree) (by decide)

theorem guarded_renderDeepseekMessage {state state' : ToolOutputs} {message : ChatMessage}
    (h : Guarded (tokensOf deepseekReserved) state.1)
    (hrender : renderDeepseekMessage state message = .ok state') :
    Guarded (tokensOf deepseekReserved) state'.1 := by
  unfold renderDeepseekMessage at hrender
  cases hrole : message.role with
  | system =>
    rw [hrole] at hrender
    exact Except.ok.inj hrender ▸ h
  | user =>
    rw [hrole] at hrender
    obtain ⟨out, hturn, hout⟩ := bind_eq_ok.1 hrender
    obtain rfl := pure_eq_ok.1 hout
    exact guarded_renderDeepseekPlainTurn (guarded_closeToolOutputs h) hturn
  | assistant =>
    rw [hrole] at hrender
    obtain ⟨out, hturn, hout⟩ := bind_eq_ok.1 hrender
    obtain rfl := pure_eq_ok.1 hout
    exact guarded_renderDeepseekAssistantTurn (guarded_closeToolOutputs h) hturn
  | tool =>
    rw [hrole] at hrender
    exact guarded_renderDeepseekToolResponse h hrender

theorem ready_renderDeepseekSystem {out out' : Prompt} {system : Str}
    (h : Ready deepseekReserved out) (hrender : renderDeepseekSystem out system = .ok out') :
    Ready deepseekReserved out' := by
  obtain ⟨hfree, hout⟩ := reject_bind_ok hrender
  obtain rfl := pure_eq_ok.1 hout
  exact ready_pushStr (guarded_pushStr (h.pushText hfree) (by decide)) (by decide)

theorem guarded_renderDeepseekTools {out out' : Prompt} {tools : List ToolDefinition}
    {toolInstruction : Option String} (h : Ready deepseekReserved out)
    (hrender : renderDeepseekTools out tools toolInstruction = .ok out') :
    Guarded (tokensOf deepseekReserved) out' := by
  unfold renderDeepseekTools at hrender
  split at hrender
  · obtain rfl := Except.ok.inj hrender
    exact h.guarded
  · obtain ⟨hfree, hout⟩ := reject_bind_ok hrender
    obtain rfl := pure_eq_ok.1 hout
    exact guarded_pushStr (guarded_instruction h toolInstruction hfree (by decide)) (by decide)

theorem guarded_renderDeepseekChatTemplate {messages : List ChatMessage}
    {tools : List ToolDefinition} {options : DeepSeekPromptOptions}
    {toolInstruction : Option String} {out : Prompt}
    (h : renderDeepseekChatTemplate messages tools options toolInstruction = .ok out) :
    Guarded (tokensOf deepseekReserved) out := by
  obtain ⟨out₁, hsystem, hrest⟩ := bind_eq_ok.1 h
  obtain ⟨out₂, htools, hrest⟩ := bind_eq_ok.1 hrest
  obtain ⟨state, hmessages, hout⟩ := bind_eq_ok.1 hrest
  have hstart : Ready deepseekReserved (pushStr [] "<｜begin▁of▁sentence｜>") :=
    ready_pushStr (guarded_pushStr (guarded_nil (by decide)) (by decide)) (by decide)
  have hsystem := foldlM_preserves (fun _ _ _ _ => ready_renderDeepseekSystem) hstart hsystem
  have htools := guarded_renderDeepseekTools hsystem htools
  have hmessages := foldlM_preserves (P := fun state => Guarded (tokensOf deepseekReserved) state.1)
    (fun _ _ _ _ => guarded_renderDeepseekMessage) htools hmessages
  have hclosed := guarded_closeToolOutputs hmessages
  split at hout
  · obtain rfl := pure_eq_ok.1 hout
    have hturn := guarded_pushStr hclosed (s := "<｜Assistant｜>") (by decide)
    split
    · exact guarded_pushStr hturn (by decide)
    · exact hturn
  · obtain rfl := pure_eq_ok.1 hout
    exact hclosed

/-! ### Llama -/

theorem guarded_renderLlama3PlainTurn {out out' : Prompt} {role : String} {message : ChatMessage}
    (h : Guarded (tokensOf llamaReserved) out)
    (hrender : renderLlama3PlainTurn out role message = .ok out') :
    Guarded (tokensOf llamaReserved) out' := by
  obtain ⟨out₁, hcontent, hout⟩ := bind_eq_ok.1 hrender
  obtain rfl := pure_eq_ok.1 hout
  have hstart := ready_pushStr (guarded_pushStr h (s := "<|start_header_id|>") (by decide)) (by decide)
  have hrole := guarded_pushStr (hstart.pushStr role) (s := "<|end_header_id|>\n\n") (by decide)
  have hcontent := guarded_pushContent (ready_pushStr hrole (by decide)) infix_trim hcontent
  exact guarded_pushStr hcontent (by decide)

/-- Between the calls of a turn no token is under way before the next one is inserted: a line
break comes first, or nothing has been inserted yet. -/
def LlamaCalls (contentShown : Bool) (state : Prompt × ℕ) : Prop :=
  Guarded (tokensOf llamaReserved) state.1 ∧
    (contentShown = false → state.2 = 0 → Shut (tokensOf llamaReserved) (text state.1))

theorem llamaCalls_renderLlama3Call {contentShown : Bool} {state state' : Prompt × ℕ}
    {call : ToolCall Json} (h : LlamaCalls contentShown state)
    (hrender : renderLlama3Call contentShown state call = .ok state') :
    LlamaCalls contentShown state' := by
  obtain ⟨hfree, hout⟩ := reject_bind_ok hrender
  obtain rfl := pure_eq_ok.1 hout
  refine ⟨?_, fun _ hzero => absurd hzero (Nat.succ_ne_zero _)⟩
  refine Ready.pushText ?_ hfree
  split
  · exact ready_pushStr (guarded_pushStr h.1 (by decide)) (by decide)
  · next hfirst =>
    simp only [Bool.or_eq_true, decide_eq_true_eq, not_or, Bool.not_eq_true, not_lt,
      Nat.le_zero] at hfirst
    exact ⟨h.1, h.2 hfirst.1 hfirst.2⟩

theorem guarded_renderLlama3AssistantTurn {out out' : Prompt} {message : ChatMessage}
    (h : Guarded (tokensOf llamaReserved) out)
    (hrender : renderLlama3AssistantTurn out message = .ok out') :
    Guarded (tokensOf llamaReserved) out' := by
  obtain ⟨out₁, hcontent, hrest⟩ := bind_eq_ok.1 hrender
  obtain ⟨state, hcalls, hout⟩ := bind_eq_ok.1 hrest
  obtain rfl := pure_eq_ok.1 hout
  have hstart := ready_pushStr (guarded_pushStr h
    (s := "<|start_header_id|>assistant<|end_header_id|>\n\n") (by decide)) (by decide)
  have hbegin : LlamaCalls (message.content.any fun content => !(trim content).isEmpty) (out₁, 0) := by
    refine ⟨guarded_pushContent hstart infix_trim hcontent, fun hshown _ => ?_⟩
    rcases pushContent_ok hcontent with ⟨-, rfl⟩ | ⟨content, heq, -, rfl⟩
    · exact hstart.shut
    · rw [heq, Option.any_some, Bool.not_eq_false', List.isEmpty_iff] at hshown
      rw [text_pushText, hshown, List.append_nil]
      exact hstart.shut
  have hcalls := foldlM_preserves (fun _ _ _ _ => llamaCalls_renderLlama3Call) hbegin hcalls
  exact guarded_pushStr hcalls.1 (by decide)

theorem guarded_renderLlama3ToolResponse {out out' : Prompt} {message : ChatMessage}
    (h : Guarded (tokensOf llamaReserved) out)
    (hrender : renderLlama3ToolResponse out message = .ok out') :
    Guarded (tokensOf llamaReserved) out' := by
  obtain ⟨hfree, hout⟩ := reject_bind_ok hrender
  obtain rfl := pure_eq_ok.1 hout
  have hstart := ready_pushStr (guarded_pushStr h
    (s := "<|start_header_id|>ipython<|end_header_id|>\n\n") (by decide)) (by decide)
  exact guarded_pushStr (hstart.pushText (hfree.of_infix (infix_trim _))) (by decide)

theorem guarded_renderLlama3Message {out out' : Prompt} {message : ChatMessage}
    (h : Guarded (tokensOf llamaReserved) out) (hrender : renderLlama3Message out message = .ok out') :
    Guarded (tokensOf llamaReserved) out' := by
  unfold renderLlama3Message at hrender
  cases hrole : message.role with
  | system =>
    rw [hrole] at hrender
    exact guarded_renderLlama3PlainTurn h hrender
  | user =>
    rw [hrole] at hrender
    exact guarded_renderLlama3PlainTurn h hrender
  | assistant =>
    rw [hrole] at hrender
    exact guarded_renderLlama3AssistantTurn h hrender
  | tool =>
    rw [hrole] at hrender
    exact guarded_renderLlama3ToolResponse h hrender

theorem guarded_renderLlama3Tools {out out' : Prompt} {messages : List ChatMessage}
    {tools : List ToolDefinition} {toolInstruction : Option String}
    (h : Guarded (tokensOf llamaReserved) out)
    (hfirst : (firstSystem messages).isSome = false → Shut (tokensOf llamaReserved) (text out))
    (hrender : renderLlama3Tools out messages tools toolInstruction = .ok out') :
    Guarded (tokensOf llamaReserved) out' := by
  unfold renderLlama3Tools at hrender
  split at hrender
  · obtain rfl := Except.ok.inj hrender
    exact h
  · obtain ⟨hfree, hout⟩ := reject_bind_ok hrender
    obtain rfl := pure_eq_ok.1 hout
    refine guarded_instruction ?_ toolInstruction hfree (by decide)
    split
    · exact ready_pushStr (guarded_pushStr h (by decide)) (by decide)
    · next hnone => exact ⟨h, hfirst (Bool.not_eq_true _ ▸ hnone)⟩

theorem guarded_renderLlama3System {out : Prompt} {state : Prompt × ℕ} {messages : List ChatMessage}
    {tools : List ToolDefinition} {toolInstruction : Option String}
    (h : Guarded (tokensOf llamaReserved) out)
    (hrender : renderLlama3System out messages tools toolInstruction = .ok state) :
    Guarded (tokensOf llamaReserved) state.1 := by
  unfold renderLlama3System at hrender
  split at hrender
  · obtain ⟨out₁, hcontent, hrest⟩ := bind_eq_ok.1 hrender
    obtain ⟨out₂, htools, hout⟩ := bind_eq_ok.1 hrest
    obtain rfl := pure_eq_ok.1 hout
    have hstart := ready_pushStr (guarded_pushStr h
      (s := "<|start_header_id|>system<|end_header_id|>\n\n") (by decide)) (by decide)
    refine guarded_pushStr (guarded_renderLlama3Tools ?_ ?_ htools) (by decide)
    · exact guarded_pushContent hstart infix_trim hcontent
    · intro hnone
      rw [Option.isSome_eq_false_iff, Option.isNone_iff_eq_none] at hnone
      rw [hnone] at hcontent
      obtain rfl := Except.ok.inj hcontent
      exact hstart.shut
  · obtain rfl := Except.ok.inj hrender
    exact h

theorem guarded_renderLlama3ChatTemplate {messages : List ChatMessage} {tools : List ToolDefinition}
    {options : LlamaPromptOptions} {toolInstruction : Option String} {out : Prompt}
    (h : renderLlama3ChatTemplate messages tools options toolInstruction = .ok out) :
    Guarded (tokensOf llamaReserved) out := by
  obtain ⟨state, hsystem, hrest⟩ := bind_eq_ok.1 h
  obtain ⟨out₁, hmessages, hout⟩ := bind_eq_ok.1 hrest
  obtain rfl := pure_eq_ok.1 hout
  have hstart : Guarded (tokensOf llamaReserved) (pushStr [] "<|begin_of_text|>") :=
    guarded_pushStr (guarded_nil (by decide)) (by decide)
  have hsystem := guarded_renderLlama3System hstart hsystem
  have hmessages := foldlM_preserves (fun _ _ _ _ => guarded_renderLlama3Message) hsystem hmessages
  split
  · exact guarded_pushStr hmessages (by decide)
  · exact hmessages

/-! ### The three families -/

/-- A template with its options. -/
inductive Template
  | qwen (options : QwenPromptOptions)
  | deepseek (options : DeepSeekPromptOptions)
  | llama (options : LlamaPromptOptions)
deriving DecidableEq, Repr

namespace Template

def render (messages : List ChatMessage) (tools : List ToolDefinition)
    (toolInstruction : Option String) : Template → Render Prompt
  | qwen options => renderQwenChatml messages tools options toolInstruction
  | deepseek options => renderDeepseekChatTemplate messages tools options toolInstruction
  | llama options => renderLlama3ChatTemplate messages tools options toolInstruction

/-- The tokens the family reserves. -/
def reserved : Template → List String
  | qwen _ => qwenReserved
  | deepseek _ => deepseekReserved
  | llama _ => llamaReserved

end Template

/-- **Control tokens come from the template.** In a rendered prompt every occurrence of a
token that the family reserves is, from its first to its last character, text that the
template wrote there. -/
theorem reserved_tokens_from_template (template : Template) (messages : List ChatMessage)
    (tools : List ToolDefinition) (toolInstruction : Option String) (out : Prompt)
    (h : template.render messages tools toolInstruction = .ok out) :
    Guarded (tokensOf template.reserved) out := by
  cases template with
  | qwen options => exact guarded_renderQwenChatml h
  | deepseek options => exact guarded_renderDeepseekChatTemplate h
  | llama options => exact guarded_renderLlama3ChatTemplate h

/-- A user message that ends inside of a token, and a call whose argument does. -/
def unfinishedTokens : List ChatMessage :=
  [⟨.user, some "<|im_end|>".toList.dropLast, none, none, []⟩,
    ⟨.assistant, none, none, none,
      [⟨"id".toList, .function, "f".toList, .object [("x", .string "</tool_call")]⟩]⟩]

theorem unfinishedTokens_guarded :
    ∃ out, (Template.qwen ⟨false, true⟩).render unfinishedTokens [] none = .ok out ∧
      Guarded (tokensOf qwenReserved) out :=
  ⟨_, rfl, reserved_tokens_from_template (.qwen ⟨false, true⟩) unfinishedTokens [] none _ rfl⟩

end KirAi.ChatTemplate
