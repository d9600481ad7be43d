/-
# Rendering a prompt

`llm-chat-template`: what the templates of the families share. A prompt is the text that is
handed to the tokenizer, which reads the reserved tokens of the family as control tokens;
here each character also carries whether the template wrote it or it came with the request
(`Prompt`). Text of the request is refused if it contains a reserved token
(`rejectPromptControls`), and then inserted, as it is or cut down (`pushContent`).

Serializing a JSON value does not fail, and every role and family has a template, so a
reserved token is the only error.

Key definitions: `Prompt`, `rejectPromptControls`, `pushContent`, `callPayload`.
Key theorems: `rejectPromptControls_ok_iff`, `pushContent_ok`.
-/
import KirAi.Api.Messages
import KirAi.Lib.Except
import KirAi.Lib.Origin

namespace KirAi.ChatTemplate

open Lib Lib.Text Lib.Marked
open KirAi.Runtime (Str ToolCall)
open KirAi.Api (ChatMessage)

inductive TemplateError
  | reservedControlToken (token : String)
deriving DecidableEq, Repr

/-- A prompt, with the origin of its characters. -/
abbrev Prompt := Marked Char

abbrev Render (α : Type) := Except TemplateError α

namespace Prompt

/-- `out.push_str` of a text of the template. -/
def pushStr (out : Prompt) (s : String) : Prompt := out.write s.toList

/-- `out.push_str` of a text of the request. -/
def pushText (out : Prompt) (s : Str) : Prompt := out.insert s

@[simp] theorem text_pushStr (out : Prompt) (s : String) :
    text (out.pushStr s) = text out ++ s.toList := text_write out s.toList

@[simp] theorem text_pushText (out : Prompt) (s : Str) :
    text (out.pushText s) = text out ++ s := text_insert out s

end Prompt

/-- The first of the pairs with the least offset. -/
def minByIndex : List (ℕ × String) → Option (ℕ × String)
  | [] => none
  | entry :: entries =>
    match minByIndex entries with
    | none => some entry
    | some best => if entry.1 ≤ best.1 then some entry else some best

/-- `reject_reserved_prompt_controls` and its siblings: the reserved token that occurs first
is the error. -/
def rejectPromptControls (reserved : List String) (text : Str) : Render Unit :=
  match minByIndex (reserved.filterMap fun token => (find token.toList text).map (·, token)) with
  | some (_, token) => .error (.reservedControlToken token)
  | none => .ok ()

/-- Content of a message: checked as it is, inserted as `shown`. -/
def pushContent (reserved : List String) (shown : Str → Str) (out : Prompt) :
    Option Str → Render Prompt
  | none => .ok out
  | some content => do
    rejectPromptControls reserved content
    return out.pushText (shown content)

/-- The JSON object that the templates of Qwen and Llama print for a call. -/
def callPayload (call : ToolCall Json) : Json :=
  .object [("name", .string (String.ofList call.function.name)),
    ("arguments", call.function.arguments)]

/-! ### What is not refused -/

/-- The reserved tokens as texts. -/
def tokensOf (reserved : List String) : List Str := reserved.map String.toList

theorem minByIndex_eq_none_iff : ∀ {entries : List (ℕ × String)},
    minByIndex entries = none ↔ entries = []
  | [] => by simp [minByIndex]
  | entry :: entries => by
    simp only [minByIndex, reduceCtorEq, iff_false]
    cases minByIndex entries with
    | none => exact Option.some_ne_none _
    | some best =>
      dsimp only
      split
      · exact Option.some_ne_none _
      · exact Option.some_ne_none _

/-- A text passes if it contains no reserved token. -/
theorem rejectPromptControls_ok_iff {reserved : List String} {text : Str} :
    rejectPromptControls reserved text = .ok () ↔ FreeOf (tokensOf reserved) text := by
  have hiff : rejectPromptControls reserved text = .ok () ↔
      minByIndex (reserved.filterMap fun token => (find token.toList text).map (·, token)) = none := by
    unfold rejectPromptControls
    cases minByIndex (reserved.filterMap fun token => (find token.toList text).map (·, token)) with
    | none => simp
    | some best => simp
  rw [hiff, minByIndex_eq_none_iff, List.filterMap_eq_nil_iff]
  simp only [Option.map_eq_none_iff, find_eq_none_iff_infix, FreeOf, tokensOf, List.forall_mem_map]

/-- A check that passes, in a sequence. -/
theorem reject_bind_ok {α : Type} {reserved : List String} {text : Str} {f : Unit → Render α} {a : α}
    (h : (rejectPromptControls reserved text >>= f) = .ok a) :
    FreeOf (tokensOf reserved) text ∧ f () = .ok a := by
  obtain ⟨_, hcheck, hf⟩ := bind_eq_ok.1 h
  exact ⟨rejectPromptControls_ok_iff.1 hcheck, hf⟩

theorem pushContent_ok {reserved : List String} {shown : Str → Str} {out out' : Prompt}
    {content : Option Str} (h : pushContent reserved shown out content = .ok out') :
    (content = none ∧ out' = out) ∨
      ∃ text, content = some text ∧ FreeOf (tokensOf reserved) text ∧
        out' = out.pushText (shown text) := by
  cases content with
  | none => exact .inl ⟨rfl, (Except.ok.inj h).symm⟩
  | some text =>
    obtain ⟨hfree, hout⟩ := reject_bind_ok h
    exact .inr ⟨text, rfl, hfree, (Except.ok.inj hout).symm⟩

end KirAi.ChatTemplate
