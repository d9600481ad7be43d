/-
# A rendered assistant turn is parsed back

The template prints the content and the calls of an assistant message; the parser of the
family reads the model's answers in the same form. Applied to what the template printed
between the markers of the turn, it gives the calls and the content back
(`renderedTurn_parsedBack`): what is inserted contains none of the tags and tokens the
parser looks for, since the template refuses them.

For DeepSeek a name has to be there: the parser takes a call without a name for malformed,
and the template prints one (`nameless_call_not_parsedBack`).

Key definitions: `ParsedBack`, `ProperName`.
Key theorems: `renderedTurn_parsedBack`.
-/
import KirAi.ChatTemplate.Integrity
import KirAi.ToolParser.DeepSeek
import KirAi.ToolParser.Printed

namespace KirAi.ChatTemplate

open Lib Lib.Text Lib.Marked Prompt ToolParser
open KirAi.Runtime (Str ToolCall ToolCallFunction ParsedAssistant isWhitespace trim)
open KirAi.Api (ChatMessage)

/-- The parser returns the calls of the message in order, and its content if it has one. -/
def ParsedBack (message : ChatMessage) (result : Parse (ParsedAssistant Json)) : Prop :=
  ∃ parsed, result = .ok parsed ∧
    parsed.toolCalls.map (·.function) = message.toolCalls.map (·.function) ∧
    ∀ content, message.content = some content → parsed.content = content

/-! ### What was printed -/

/-- What a loop over calls prints, and what it checked on the way. -/
theorem foldlM_printed {render : Prompt → ToolCall Json → Render Prompt} {shown : ToolCall Json → Str}
    {checked : ToolCall Json → Prop}
    (hrender : ∀ out call out', render out call = .ok out' →
      text out' = text out ++ shown call ∧ checked call) :
    ∀ {calls : List (ToolCall Json)} {out out' : Prompt}, calls.foldlM render out = .ok out' →
      text out' = text out ++ calls.flatMap shown ∧ ∀ call ∈ calls, checked call
  | [], out, out', h => by
    rw [List.foldlM_nil, pure_eq_ok] at h
    simp [h]
  | call :: calls, out, out', h => by
    rw [List.foldlM_cons] at h
    obtain ⟨out₁, hfirst, hrest⟩ := bind_eq_ok.1 h
    obtain ⟨hout₁, hcall⟩ := hrender _ _ _ hfirst
    obtain ⟨hout', hcalls⟩ := foldlM_printed hrender hrest
    refine ⟨?_, List.forall_mem_cons.2 ⟨hcall, hcalls⟩⟩
    rw [hout', hout₁, List.flatMap_cons, List.append_assoc]

/-- The content as printed: nothing, or a text without reserved tokens. -/
theorem pushContent_printed {reserved : List String} {shown : Str → Str} {out out' : Prompt}
    {content : Option Str} (h : pushContent reserved shown out content = .ok out')
    (hne : [] ∉ tokensOf reserved)
    (hshown : ∀ text, FreeOf (tokensOf reserved) text → shown text = text) :
    text out' = text out ++ content.getD [] ∧ FreeOf (tokensOf reserved) (content.getD []) := by
  rcases pushContent_ok h with ⟨rfl, rfl⟩ | ⟨t, rfl, hfree, rfl⟩
  · exact ⟨(List.append_nil _).symm, freeOf_nil hne⟩
  · rw [text_pushText, hshown t hfree]
    exact ⟨rfl, hfree⟩

/-! ### Qwen -/

theorem callPayload_chars (call : ToolCall Json) :
    ∃ mid, (callPayload call).chars = '\x7b' :: (mid ++ ['\x7d']) := by
  rw [callPayload, Json.chars]
  exact ⟨_, rfl⟩

theorem trim_callPayload (call : ToolCall Json) :
    trim (callPayload call).chars = (callPayload call).chars := by
  obtain ⟨mid, hmid⟩ := callPayload_chars call
  rw [hmid]
  exact (Plain.of_ends (by decide) (by decide) mid).trim

/-- The payload of a call is read back as the call. -/
theorem parseQwenCall_payload {E : Env} {call : ToolCall Json}
    (hback : ParsesBack E (callPayload call))
    (harguments : ∃ entries, call.function.arguments = .object entries) (index : ℕ) :
    ∃ parsed, parseQwenCall E (trim (callPayload call).chars) index = .ok parsed ∧
      parsed.function = call.function := by
  obtain ⟨entries, hentries⟩ := harguments
  obtain ⟨mid, hmid⟩ := callPayload_chars call
  have hxml : startsWith (callPayload call).chars functionStart = false := by
    rw [hmid]
    rfl
  have hjson : parseJsonCall E (callPayload call).chars index = .ok
      ⟨E.generatedToolCallId index, .function, ⟨call.function.name, .object entries⟩⟩ := by
    rw [parseJsonCall, hback]
    simp only [mapMalformed, callPayload, hentries]
    simp [jsonGet, lookupKey, Json.asObject, okOrMalformed, Json.asStr, argumentsOr,
      parseJsonToolArguments, toolCallId, bind, Except.bind, pure, Except.pure]
  refine ⟨⟨E.generatedToolCallId index, .function, ⟨call.function.name, .object entries⟩⟩, ?_, ?_⟩
  · rw [trim_callPayload, parseQwenCall, hxml, if_neg Bool.false_ne_true, hjson]
    rfl
  · rw [← hentries]

theorem renderToolCall_printed (out : Prompt) (call : ToolCall Json) (out' : Prompt)
    (h : renderToolCall out call = .ok out') :
    text out' = text out ++ (toolCallStart ++ (callPayload call).chars ++ toolCallEnd) ∧
      FreeOf (tokensOf qwenReserved) (callPayload call).chars := by
  obtain ⟨hfree, hout⟩ := reject_bind_ok h
  refine ⟨?_, hfree⟩
  have hassoc : ∀ a b c d : Str, a ++ b ++ c ++ d = a ++ (b ++ c ++ d) := by simp
  rw [← pure_eq_ok.1 hout, text_pushStr, text_pushText, text_pushStr]
  exact hassoc _ _ _ _

/-- A printed call contains a token only if its payload does. -/
theorem freeOf_toolCall {payload : Str} (h : FreeOf (tokensOf qwenReserved) payload) :
    FreeOf [thinkStart] (toolCallStart ++ payload ++ toolCallEnd) := by
  have hne : [] ∉ [thinkStart] := by decide
  have hstart : Shut [thinkStart] toolCallStart := shut_of_endsOutside (by decide)
  have hend : Anew [thinkStart] toolCallEnd := anew_of_startsOutside (by decide)
  rw [freeOf_append_iff hne (.inr hend), freeOf_append_iff hne (.inl hstart)]
  exact ⟨⟨by decide, List.forall_mem_singleton.2 (h _ (by decide))⟩, by decide⟩

/-- What stands between the markers of a turn. -/
def qwenBody (content : Str) (calls : List (ToolCall Json)) : Str :=
  content ++ calls.flatMap fun call => toolCallStart ++ (callPayload call).chars ++ toolCallEnd

/-- Reading the content and the calls as they were printed. -/
theorem parseComplete_qwenBody {E : Env} {content : Str} {calls : List (ToolCall Json)}
    (hcontent : FreeOf (tokensOf qwenReserved) content)
    (hcalls : ∀ call ∈ calls, FreeOf (tokensOf qwenReserved) (callPayload call).chars ∧
      ParsesBack E (callPayload call) ∧ ∃ entries, call.function.arguments = .object entries) :
    ∃ parsed, QwenParser.parseComplete E (qwenBody content calls) = .ok parsed ∧
      parsed.toolCalls.map (·.function) = calls.map (·.function) ∧ parsed.content = content := by
  have hstart : ¬toolCallStart <:+: content := hcontent _ (by decide)
  have hfree : FreeOf [thinkStart] (qwenBody content calls) := by
    refine freeOf_flatMap (by decide) ?_ fun call hcall =>
      ⟨freeOf_toolCall (hcalls call hcall).1, rfl⟩
    exact List.forall_mem_singleton.2 (hcontent _ (by decide))
  have hsplit := splitReasoning_eq (qwenBody content calls)
  rw [splitBlock, cut_eq_none_of_free (hfree _ (List.mem_singleton_self _))] at hsplit
  rw [QwenParser.parseComplete, hsplit, ok_bind]
  dsimp only
  cases hcontains : contains (qwenBody content calls) toolCallStart with
  | true =>
    obtain ⟨parsed, hparse, hmap⟩ : ∃ parsed, parseBlocks toolCallStart toolCallEnd
        "unterminated qwen tool_call tag" (parseQwenCall E) ((qwenBody content calls).length + 1)
        (qwenBody content calls) [] [] = .ok (content, parsed) ∧
        parsed.map (·.function) = calls.map (·.function) :=
      parseBlocks_printed (by decide) (by decide) hstart
        (fun call hcall => (hcalls call hcall).1 _ (by decide))
        (fun call hcall index => parseQwenCall_payload (hcalls call hcall).2.1
          (hcalls call hcall).2.2 index) rfl
    refine ⟨⟨none, content, parsed⟩, ?_, hmap, rfl⟩
    rw [if_pos rfl, parseToolCalls, hparse]
    rfl
  | false =>
    cases calls with
    | nil =>
      refine ⟨⟨none, content, []⟩, ?_, rfl, rfl⟩
      rw [if_neg Bool.false_ne_true, qwenBody, List.flatMap_nil, List.append_nil]
      rfl
    | cons call calls =>
      have hinfix : toolCallStart <:+: qwenBody content (call :: calls) := by
        refine ⟨content, (callPayload call).chars ++ toolCallEnd ++ calls.flatMap fun call =>
          toolCallStart ++ (callPayload call).chars ++ toolCallEnd, ?_⟩
        rw [qwenBody, List.flatMap_cons]
        simp only [List.append_assoc]
      rw [contains_iff.2 hinfix] at hcontains
      cases hcontains

/-- A turn of Qwen is its markers around what the parser reads back. -/
theorem renderAssistant_parsedBack {E : Env} {out out' : Prompt} {message : ChatMessage}
    (hcalls : ∀ call ∈ message.toolCalls, ParsesBack E (callPayload call) ∧
      ∃ entries, call.function.arguments = .object entries)
    (h : renderAssistant out message = .ok out') :
    ∃ body, text out' =
        text out ++ "<|im_start|>assistant\n".toList ++ body ++ "<|im_end|>\n".toList ∧
      ParsedBack message (QwenParser.parseComplete E body) := by
  obtain ⟨out₁, hcontent, hrest⟩ := bind_eq_ok.1 h
  obtain ⟨out₂, hrender, hout⟩ := bind_eq_ok.1 hrest
  obtain ⟨htext₁, hfree⟩ := pushContent_printed hcontent (by decide) fun _ _ => rfl
  obtain ⟨htext₂, hchecked⟩ := foldlM_printed renderToolCall_printed hrender
  obtain ⟨parsed, hparse, hfunctions, hsame⟩ := parseComplete_qwenBody (E := E) hfree
    fun call hcall => ⟨hchecked call hcall, hcalls call hcall⟩
  refine ⟨qwenBody (message.content.getD []) message.toolCalls, ?_, parsed, hparse, hfunctions, ?_⟩
  · rw [← pure_eq_ok.1 hout, text_pushStr, htext₂, htext₁, text_pushStr, qwenBody]
    simp only [List.append_assoc]
  · intro content heq
    rw [hsame, heq, Option.getD_some]

/-! ### DeepSeek -/

/-- A name that is printed on a line of its own and found there again. -/
structure ProperName (name : Str) : Prop where
  ne_nil : name ≠ []
  line : '\n' ∉ name
  trimmed : trim name = name

def functionType : Str := "function".toList

def fenceOpen : Str := "```json\n".toList

def fenceClose : Str := "\n```".toList

/-- The arguments of a call in a code fence. -/
def fenced (call : ToolCall Json) : Str := fenceOpen ++ call.function.arguments.chars ++ fenceClose

/-- A call between its tags. -/
def deepseekInner (call : ToolCall Json) : Str :=
  functionType ++ toolSep ++ (call.function.name ++ ['\n'] ++ fenced call)

theorem renderDeepseekCall_printed (out : Prompt) (call : ToolCall Json) (out' : Prompt)
    (h : renderDeepseekCall out call = .ok out') :
    text out' = text out ++ (nativeCallBegin ++ deepseekInner call ++ nativeCallEnd) ∧
      FreeOf (tokensOf deepseekReserved) call.function.name ∧
      FreeOf (tokensOf deepseekReserved) call.function.arguments.chars := by
  obtain ⟨hname, hrest⟩ := reject_bind_ok h
  obtain ⟨harguments, hout⟩ := reject_bind_ok hrest
  refine ⟨?_, hname, harguments⟩
  have hassoc : ∀ o b n f a e b₁ b₂ b₃ f₁ f₂ e₁ e₂ : Str, b = b₁ ++ b₂ ++ b₃ → f = f₁ ++ f₂ →
      e = e₁ ++ e₂ → o ++ b ++ n ++ f ++ a ++ e =
        o ++ (b₁ ++ (b₂ ++ b₃ ++ (n ++ f₁ ++ (f₂ ++ a ++ e₁))) ++ e₂) := by
    rintro o _ n _ a _ b₁ b₂ b₃ f₁ f₂ e₁ e₂ rfl rfl rfl
    simp
  rw [← pure_eq_ok.1 hout, text_pushStr, text_pushText, text_pushStr, text_pushText, text_pushStr]
  exact hassoc _ _ _ _ _ _ _ _ _ _ _ _ _ (by decide) (by decide) (by decide)

theorem plain_fenced (call : ToolCall Json) : Plain (fenced call) :=
  .of_outer (by decide) (by decide) _

theorem plain_deepseekInner (call : ToolCall Json) : Plain (deepseekInner call) := by
  have houter : deepseekInner call = functionType ++ (toolSep ++ (call.function.name ++ ['\n'] ++
      (fenceOpen ++ call.function.arguments.chars))) ++ fenceClose := by
    rw [deepseekInner, fenced]
    simp only [List.append_assoc]
  rw [houter]
  exact .of_outer (by decide) (by decide) _

/-- The fence and the line breaks inside of it are taken off. -/
theorem parseDeepseekMarkdownJson_fenced {E : Env} {call : ToolCall Json} {depth : ℕ}
    (hvalue : call.function.arguments.Printable depth)
    (hback : ParsesBack E call.function.arguments) :
    parseDeepseekMarkdownJson E (fenced call) = .ok call.function.arguments := by
  have hopen : stripPrefix (fenced call) "```json".toList =
      some (['\n'] ++ call.function.arguments.chars ++ ['\n'] ++ "```".toList) := by
    have hsplit : ∀ o a c o₁ o₂ c₁ c₂ : Str, o = o₁ ++ o₂ → c = c₁ ++ c₂ →
        o ++ a ++ c = o₁ ++ (o₂ ++ a ++ c₁ ++ c₂) := by
      rintro _ a _ o₁ o₂ c₁ c₂ rfl rfl
      simp
    rw [fenced, hsplit fenceOpen call.function.arguments.chars fenceClose "```json".toList ['\n']
      ['\n'] "```".toList rfl rfl]
    exact stripPrefix_append _ _
  have htrim : trim (['\n'] ++ call.function.arguments.chars ++ ['\n']) =
      call.function.arguments.chars :=
    (plain_chars hvalue).trim_surrounded (by simp [isWhitespace]) (by simp [isWhitespace])
  rw [parseDeepseekMarkdownJson, (plain_fenced call).trim]
  simp only [hopen, Option.bind_some, stripSuffix_append, Option.orElse_some, Option.getD_some,
    htrim]
  rw [hback]
  rfl

/-- A printed call is read back as the call. -/
theorem parseDeepseekNativeCall_inner {E : Env} {call : ToolCall Json} {depth : ℕ}
    (hname : ProperName call.function.name) (hvalue : call.function.arguments.Printable depth)
    (hback : ParsesBack E call.function.arguments) (index : ℕ) :
    parseDeepseekNativeCall E (trim (deepseekInner call)) index =
      .ok ⟨E.generatedToolCallId index, .function, call.function⟩ := by
  have hsep : cut toolSep (deepseekInner call) =
      some (functionType, call.function.name ++ ['\n'] ++ fenced call) :=
    IsTag.cut_append (by decide) (by decide) _
  have hline : cut ['\n'] (call.function.name ++ ['\n'] ++ fenced call) =
      some (call.function.name, fenced call) :=
    Text.cut_append (find_singleton_append_iff.2 hname.line)
  have htype : ¬trim functionType ≠ "function".toList := by decide
  have hempty : ¬call.function.name.isEmpty = true := by simpa using hname.ne_nil
  rw [parseDeepseekNativeCall, (plain_deepseekInner call).trim, hsep]
  simp only [okOrMalformed, ok_bind, hline, hname.trimmed]
  rw [if_neg htype, if_neg hempty, (plain_fenced call).trim,
    parseDeepseekMarkdownJson_fenced hvalue hback]
  rfl

/-- The tokens a parser of DeepSeek looks for outside of a call. -/
def turnTokens : List Str := [thinkStart, endOfSentence, deepseekUser, deepseekAssistant]

theorem freeOf_deepseekInner {call : ToolCall Json}
    (hname : FreeOf (tokensOf deepseekReserved) call.function.name)
    (harguments : FreeOf (tokensOf deepseekReserved) call.function.arguments.chars) :
    FreeOf (nativeCallEnd :: toolCallsEnd :: turnTokens) (deepseekInner call) := by
  have hsub : nativeCallEnd :: toolCallsEnd :: turnTokens ⊆ tokensOf deepseekReserved := by decide
  have hne : [] ∉ nativeCallEnd :: toolCallsEnd :: turnTokens := by decide
  have hfenced : FreeOf (nativeCallEnd :: toolCallsEnd :: turnTokens) (fenced call) := by
    rw [fenced, freeOf_append_iff hne (.inr (anew_of_startsOutside (by decide))),
      freeOf_append_iff hne (.inl (shut_of_endsOutside (by decide)))]
    exact ⟨⟨by decide, harguments.mono hsub⟩, by decide⟩
  have hline : FreeOf (nativeCallEnd :: toolCallsEnd :: turnTokens)
      (call.function.name ++ ['\n'] ++ fenced call) := by
    rw [freeOf_append_iff hne (.inl (shut_append (by decide) _)),
      freeOf_append_iff hne (.inr (anew_of_startsOutside (by decide)))]
    exact ⟨⟨hname.mono hsub, by decide⟩, hfenced⟩
  rw [deepseekInner, freeOf_append_iff hne (.inl (shut_append (by decide) _))]
  exact ⟨by decide, hline⟩

/-- A call with its tags. -/
def deepseekCall (call : ToolCall Json) : Str := nativeCallBegin ++ deepseekInner call ++ nativeCallEnd

theorem freeOf_deepseekCall {call : ToolCall Json}
    (h : FreeOf (nativeCallEnd :: toolCallsEnd :: turnTokens) (deepseekInner call)) :
    FreeOf (toolCallsEnd :: turnTokens) (deepseekCall call) := by
  have hne : [] ∉ toolCallsEnd :: turnTokens := by decide
  rw [deepseekCall, freeOf_append_iff hne (.inr (anew_of_startsOutside (by decide))),
    freeOf_append_iff hne (.inl (shut_of_endsOutside (by decide)))]
  exact ⟨⟨by decide, h.mono (List.subset_cons_self _ _)⟩, by decide⟩

/-- What stands between the markers of a turn with calls. -/
def deepseekBody (content : Str) (calls : List (ToolCall Json)) : Str :=
  content ++ toolCallsBegin ++ (calls.flatMap deepseekCall ++ toolCallsEnd)

/-- A call that the template has checked and the parser can read. -/
structure ReadableCall (E : Env) (call : ToolCall Json) : Prop where
  inner : FreeOf (nativeCallEnd :: toolCallsEnd :: turnTokens) (deepseekInner call)
  name : ProperName call.function.name
  proper : ∃ depth, call.function.arguments.Printable depth
  back : ParsesBack E call.function.arguments

theorem freeOf_deepseekCalls {E : Env} {calls : List (ToolCall Json)}
    (h : ∀ call ∈ calls, ReadableCall E call) :
    FreeOf (toolCallsEnd :: turnTokens) (calls.flatMap deepseekCall) := by
  have hprinted : FreeOf (toolCallsEnd :: turnTokens) ([] ++ calls.flatMap deepseekCall) :=
    freeOf_flatMap (by decide) (by decide) fun call hcall =>
      ⟨freeOf_deepseekCall (h call hcall).inner, rfl⟩
  exact hprinted

/-- The calls of a native block are read back. -/
theorem parseDeepseekNativeBody_printed {E : Env} {calls : List (ToolCall Json)}
    (h : ∀ call ∈ calls, ReadableCall E call) :
    ∃ parsed, parseDeepseekNativeBody E (calls.flatMap deepseekCall) = .ok parsed ∧
      parsed.map (·.function) = calls.map (·.function) := by
  obtain ⟨parsed, hparse, hmap⟩ : ∃ parsed, parseBlocks nativeCallBegin nativeCallEnd
      "unterminated DeepSeek native tool call"
      (fun inner index => ofResult (parseDeepseekNativeCall E inner index))
      ((calls.flatMap deepseekCall).length + 1) (calls.flatMap deepseekCall) [] [] =
        .ok ([], parsed) ∧ parsed.map (·.function) = calls.map (·.function) := by
    refine parseBlocks_printed (by decide) (by decide) (by decide)
      (fun call hcall => (h call hcall).inner _ (List.mem_cons_self ..)) (fun call hcall index => ?_) rfl
    obtain ⟨-, hname, ⟨depth, hvalue⟩, hback⟩ := h call hcall
    refine ⟨⟨E.generatedToolCallId index, .function, call.function⟩, ?_, rfl⟩
    rw [parseDeepseekNativeCall_inner hname hvalue hback]
    rfl
  refine ⟨parsed, ?_, hmap⟩
  rw [parseDeepseekNativeBody, hparse]
  rfl

theorem parseDeepseekNativeToolCalls_printed {E : Env} {content : Str} {calls : List (ToolCall Json)}
    (hcontent : ¬toolCallsBegin <:+: content) (h : ∀ call ∈ calls, ReadableCall E call) :
    ∃ parsed, parseDeepseekNativeToolCalls E none (deepseekBody content calls) =
        .ok ⟨none, content, parsed⟩ ∧ parsed.map (·.function) = calls.map (·.function) := by
  obtain ⟨parsed, hparse, hmap⟩ := parseDeepseekNativeBody_printed h
  refine ⟨parsed, ?_, hmap⟩
  have hend : ¬toolCallsEnd <:+: calls.flatMap deepseekCall :=
    freeOf_deepseekCalls h _ (List.mem_cons_self ..)
  have hbegin : find toolCallsBegin (deepseekBody content calls) = some (len content) :=
    (find_append_iff (c := '<') (by decide) (by decide)).2 hcontent
  have hstop : find toolCallsEnd (calls.flatMap deepseekCall ++ toolCallsEnd) =
      some (len (calls.flatMap deepseekCall)) := by
    have hfind := (find_append_iff (c := '<') (v := []) (by decide) (by decide)).2 hend
    rwa [List.append_nil] at hfind
  have hbefore : sliceTo (deepseekBody content calls) (len content) = .ok content := by
    rw [deepseekBody, List.append_assoc, sliceTo_append]
  have htail : sliceFrom (deepseekBody content calls) (len content + len toolCallsBegin) =
      .ok (calls.flatMap deepseekCall ++ toolCallsEnd) :=
    sliceFrom_eq (content ++ toolCallsBegin) _ rfl (len_append _ _).symm
  have hbody : ToolParser.slice (deepseekBody content calls) (len content + len toolCallsBegin)
      (len content + len toolCallsBegin + len (calls.flatMap deepseekCall)) =
      .ok (calls.flatMap deepseekCall) :=
    slice_eq (content ++ toolCallsBegin) _ toolCallsEnd (List.append_assoc _ _ _).symm
      (len_append _ _).symm (by rw [len_append])
  have hafter : sliceFrom (deepseekBody content calls) (len content + len toolCallsBegin +
      len (calls.flatMap deepseekCall) + len toolCallsEnd) = .ok [] :=
    sliceFrom_eq (deepseekBody content calls) [] (List.append_nil _).symm
      (by rw [deepseekBody, len_append, len_append, len_append]; omega)
  have hempty : trimDeepseekAfterStopControl (Runtime.trimStart []) = .ok [] := by decide
  rw [parseDeepseekNativeToolCalls]
  simp only [hbegin, hbefore, htail, ok_bind, hstop, hbody, hparse, hafter, hempty]
  rw [List.length_nil, trimStartMatches, List.append_nil]
  rfl

/-- Reading the content and the calls as they were printed. -/
theorem parseComplete_deepseekBody {E : Env} {content : Str} {calls : List (ToolCall Json)}
    (hcontent : FreeOf (tokensOf deepseekReserved) content)
    (h : ∀ call ∈ calls, ReadableCall E call) :
    ∃ parsed, DeepSeekParser.parseComplete E (deepseekBody content calls) =
        .ok ⟨none, content, parsed⟩ ∧ parsed.map (·.function) = calls.map (·.function) := by
  obtain ⟨parsed, hparse, hmap⟩ := parseDeepseekNativeToolCalls_printed
    (hcontent toolCallsBegin (by decide)) h
  refine ⟨parsed, ?_, hmap⟩
  have hfree : FreeOf turnTokens (deepseekBody content calls) := by
    have hne : [] ∉ turnTokens := by decide
    have hcalls := (freeOf_deepseekCalls h).mono (List.subset_cons_self toolCallsEnd turnTokens)
    rw [deepseekBody, freeOf_append_iff hne (.inl (shut_append (by decide) _)),
      freeOf_append_iff hne (.inr (anew_of_startsOutside (by decide))),
      freeOf_append_iff hne (.inr (anew_of_startsOutside (by decide)))]
    exact ⟨⟨hcontent.mono (by decide), by decide⟩, hcalls, by decide⟩
  have hsplit := splitReasoning_eq (deepseekBody content calls)
  rw [splitBlock, cut_eq_none_of_free (hfree _ (by decide))] at hsplit
  have hprefix : startsWith (deepseekBody content calls) deepseekAssistant = false := by
    rw [Bool.eq_false_iff]
    exact fun hstarts => hfree _ (by decide) (startsWith_iff.1 hstarts).isInfix
  have hstop : trimDeepseekAfterStopControl (deepseekBody content calls) =
      .ok (deepseekBody content calls) := by
    rw [trimDeepseekAfterStopControl, trimAfterStopControl_eq,
      beforeStopControl_of_free (hfree.mono (by decide))]
  have hbegin : contains (deepseekBody content calls) toolCallsBegin = true :=
    contains_iff.2 ⟨content, calls.flatMap deepseekCall ++ toolCallsEnd, rfl⟩
  rw [DeepSeekParser.parseComplete, hsplit, ok_bind]
  dsimp only
  rw [stripDeepseekAssistantPrefix, stripPrefix_eq_none hprefix, Option.getD_none, hstop, ok_bind,
    if_pos hbegin, hparse]

theorem stripDeepseekHistoryReasoning_of_free (content : Str)
    (h : FreeOf (tokensOf deepseekReserved) content) :
    stripDeepseekHistoryReasoning content = content := by
  have hnone : cut "</think>".toList content = none := cut_eq_none_of_free (h _ (by decide))
  rw [stripDeepseekHistoryReasoning, hnone]

/-- A turn of DeepSeek with calls is its markers around what the parser reads back. -/
theorem renderDeepseekAssistantTurn_parsedBack {E : Env} {out out' : Prompt} {message : ChatMessage}
    (hne : message.toolCalls ≠ [])
    (hcalls : ∀ call ∈ message.toolCalls, ProperName call.function.name ∧
      (∃ depth, call.function.arguments.Printable depth) ∧ ParsesBack E call.function.arguments)
    (h : renderDeepseekAssistantTurn out message = .ok out') :
    ∃ body, text out' =
        text out ++ "<｜Assistant｜>".toList ++ body ++ "<｜end▁of▁sentence｜>".toList ∧
      ParsedBack message (DeepSeekParser.parseComplete E body) := by
  obtain ⟨out₁, hcontent, hrest⟩ := bind_eq_ok.1 h
  obtain ⟨out₂, hrender, hout⟩ := bind_eq_ok.1 hrest
  obtain ⟨htext₁, hfree⟩ :=
    pushContent_printed hcontent (by decide) stripDeepseekHistoryReasoning_of_free
  have hsome : ¬message.toolCalls.isEmpty = true := by simpa using hne
  rw [renderDeepseekCalls, if_neg hsome] at hrender
  obtain ⟨out₃, hfold, hout₃⟩ := bind_eq_ok.1 hrender
  obtain ⟨htext₃, hchecked⟩ := foldlM_printed renderDeepseekCall_printed hfold
  have hreadable : ∀ call ∈ message.toolCalls, ReadableCall E call := by
    intro call hcall
    obtain ⟨hname, hvalue, hback⟩ := hcalls call hcall
    obtain ⟨hfreeName, hfreeArguments⟩ := hchecked call hcall
    exact ⟨freeOf_deepseekInner hfreeName hfreeArguments, hname, hvalue, hback⟩
  obtain ⟨parsed, hparse, hfunctions⟩ := parseComplete_deepseekBody hfree hreadable
  refine ⟨deepseekBody (message.content.getD []) message.toolCalls, ?_, _, hparse, hfunctions, ?_⟩
  · have hassoc : ∀ o a c b x e z : Str, o ++ a ++ c ++ b ++ x ++ e ++ z =
        o ++ a ++ (c ++ b ++ (x ++ e)) ++ z := by simp
    rw [← pure_eq_ok.1 hout, text_pushStr, ← pure_eq_ok.1 hout₃, text_pushStr, htext₃, text_pushStr,
      htext₁, text_pushStr]
    exact hassoc _ _ _ _ _ _ _
  · intro content heq
    show message.content.getD [] = content
    rw [heq, Option.getD_some]

/-! ### Both families -/

/-- **Rendered turns are parsed back.** For Qwen, if the arguments of the calls are JSON objects,
and for DeepSeek, if there are calls and their names can stand on a line of their own: what the
template prints between the markers of an assistant turn is read back by the parser of the
family as the calls and the content of the message, given that `serde_json` reads back what it
has printed. -/
theorem renderedTurn_parsedBack (E : Env) (out out' : Prompt) (message : ChatMessage) :
    ((∀ call ∈ message.toolCalls, ParsesBack E (callPayload call) ∧
        ∃ entries, call.function.arguments = .object entries) →
      renderAssistant out message = .ok out' →
      ∃ body, text out' =
          text out ++ "<|im_start|>assistant\n".toList ++ body ++ "<|im_end|>\n".toList ∧
        ParsedBack message (QwenParser.parseComplete E body)) ∧
    (message.toolCalls ≠ [] →
      (∀ call ∈ message.toolCalls, ProperName call.function.name ∧
        (∃ depth, call.function.arguments.Printable depth) ∧ ParsesBack E call.function.arguments) →
      renderDeepseekAssistantTurn out message = .ok out' →
      ∃ body, text out' =
          text out ++ "<｜Assistant｜>".toList ++ body ++ "<｜end▁of▁sentence｜>".toList ∧
        ParsedBack message (DeepSeekParser.parseComplete E body)) :=
  ⟨fun hcalls h => renderAssistant_parsedBack hcalls h,
    fun hne hcalls h => renderDeepseekAssistantTurn_parsedBack hne hcalls h⟩

/-- An assistant message with a content and calls. -/
def helloCalls (calls : List (String × Json)) : ChatMessage :=
  ⟨.assistant, some "Hello".toList, none, none, calls.map fun call =>
    ⟨"id".toList, .function, call.1.toList, call.2⟩⟩

def twoCalls : ChatMessage :=
  helloCalls [("f", .object [("x", .u64 1)]), ("g", .object [("y", .string "a<b")])]

theorem twoCalls_parsedBack :
    (∃ out body, renderAssistant [] twoCalls = .ok out ∧
      text out = "<|im_start|>assistant\n".toList ++ body ++ "<|im_end|>\n".toList ∧
      ParsedBack twoCalls (QwenParser.parseComplete compactEnv body)) ∧
    ∃ out body, renderDeepseekAssistantTurn [] twoCalls = .ok out ∧
      text out = "<｜Assistant｜>".toList ++ body ++ "<｜end▁of▁sentence｜>".toList ∧
      ParsedBack twoCalls (DeepSeekParser.parseComplete compactEnv body) := by
  constructor
  · obtain ⟨body, htext, hback⟩ := (renderedTurn_parsedBack compactEnv [] _ twoCalls).1 (by
        refine List.forall_mem_cons.2 ⟨⟨?_, _, rfl⟩, List.forall_mem_singleton.2 ⟨?_, _, rfl⟩⟩
        · rfl
        · rfl) rfl
    exact ⟨_, body, rfl, htext, hback⟩
  · obtain ⟨body, htext, hback⟩ := (renderedTurn_parsedBack compactEnv [] _ twoCalls).2
      (List.cons_ne_nil _ _) (by
        refine List.forall_mem_cons.2 ⟨⟨⟨by decide, by decide, by decide⟩, ⟨1, ?_⟩, ?_⟩,
          List.forall_mem_singleton.2 ⟨⟨by decide, by decide, by decide⟩, ⟨1, ?_⟩, ?_⟩⟩
        · simp [Json.Printable]
        · rfl
        · simp [Json.Printable]
        · rfl) rfl
    exact ⟨_, body, rfl, htext, hback⟩

/-- A call without a name is rendered by DeepSeek and not parsed back. -/
theorem nameless_call_not_parsedBack :
    ∃ out body, renderDeepseekAssistantTurn [] (helloCalls [("", .object [])]) = .ok out ∧
      text out = "<｜Assistant｜>".toList ++ body ++ "<｜end▁of▁sentence｜>".toList ∧
      ParsesBack compactEnv (.object []) ∧
      ¬ParsedBack (helloCalls [("", .object [])]) (DeepSeekParser.parseComplete compactEnv body) := by
  refine ⟨_, deepseekBody "Hello".toList (helloCalls [("", .object [])]).toolCalls, rfl, by rfl, rfl,
    ?_⟩
  rintro ⟨parsed, hparsed, -⟩
  have herror : (DeepSeekParser.parseComplete compactEnv
      (deepseekBody "Hello".toList (helloCalls [("", .object [])]).toolCalls)).isOk = false := by
    decide +kernel
  rw [hparsed] at herror
  cases herror

end KirAi.ChatTemplate
