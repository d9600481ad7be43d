/-
# The two modes of the parser for Qwen's XML tool calls

In both modes the parser takes the same steps through the text. In text mode a step emits
nothing but the text of the other mode's step (`textResult`), with one exception: the step that
closes a call reads the arguments that were assembled again and emits the call as text, or
fails (`finishFunction_inTextMode`).

Key definitions: `QwenXmlToolParser.inTextMode`, `textResult`, `Closes`.
Key theorems: `process_inTextMode`, `finishFunction_inTextMode`.
-/
import KirAi.Mlx.QwenCalls

namespace KirAi.Mlx

open Lib Lib.Text
open KirAi.Runtime (Str trim trimStart)
open KirAi.ToolParser (Env startsWith)

def QwenXmlToolParser.inTextMode (p : QwenXmlToolParser) : QwenXmlToolParser :=
  { p with structuredDeltas := false }

/-- The emissions without the deltas. -/
def shownOnly (out : List QwenXmlEmission) : List QwenXmlEmission :=
  out.filter (·.toolCallDeltas.isEmpty)

@[simp] theorem shownOnly_nil : shownOnly [] = [] := rfl

@[simp] theorem shownOnly_ofText (text : Str) :
    shownOnly [.ofText text] = [.ofText text] := rfl

/-- What text mode has for the result of a step, if that closes no call. -/
def textResult (r : QwenXmlToolParser × List QwenXmlEmission) :
    QwenXmlToolParser × List QwenXmlEmission :=
  (r.1.inTextMode, shownOnly r.2)

namespace QwenXmlToolParser

variable (E : Env) (p : QwenXmlToolParser)

theorem inTextMode_new (schema : QwenXmlToolSchema) :
    (new true schema).inTextMode = new false schema := rfl

theorem drainLeadingWhitespace_inTextMode :
    p.inTextMode.drainLeadingWhitespace = p.drainLeadingWhitespace.map inTextMode := by
  unfold drainLeadingWhitespace
  dsimp only
  by_cases h : 0 < len p.buffer - len (trimStart p.buffer)
  · rw [if_pos h]
    exact if_pos h
  · rw [if_neg h]
    exact if_neg h

theorem drainLeadingReasoningBlock_inTextMode :
    p.inTextMode.drainLeadingReasoningBlock = p.drainLeadingReasoningBlock.map textResult := by
  unfold drainLeadingReasoningBlock
  dsimp only
  by_cases h : startsWith p.buffer qwenReasoningStart = true
  · rw [if_pos h, Option.map_map]
    exact if_pos h
  · rw [if_neg h]
    exact if_neg h

/-! ### The parts of a call -/

theorem pushArgumentFragment_inTextMode (fragment : Str) :
    p.inTextMode.pushArgumentFragment fragment =
      (p.pushArgumentFragment fragment).map textResult := by
  unfold pushArgumentFragment
  cases hcall : p.currentCall with
  | none => simp only [inTextMode, hcall]; rfl
  | some call =>
    simp only [inTextMode, hcall, Bool.false_and, Bool.false_eq_true, if_false, Except.map]
    split <;> rfl

theorem startParameter_inTextMode (key : Str) :
    p.inTextMode.startParameter key = (p.startParameter key).map textResult := by
  unfold startParameter
  cases hcall : p.currentCall with
  | none => simp only [inTextMode, hcall]; rfl
  | some call =>
    simp only [inTextMode, hcall]
    cases p.schema.parameterKind call.name key with
    | json => rfl
    | string =>
      have hpush := pushArgumentFragment_inTextMode
        { p with currentCall := some (call.nextParameterPrefix key).1 }
        ((call.nextParameterPrefix key).2 ++ ['"'])
      simp only [inTextMode] at hpush
      simp only [hpush]
      cases pushArgumentFragment { p with currentCall := some (call.nextParameterPrefix key).1 }
        ((call.nextParameterPrefix key).2 ++ ['"']) <;> rfl

theorem finishParameter_inTextMode (finalPiece : Str) :
    p.inTextMode.finishParameter E finalPiece =
      (p.finishParameter E finalPiece).map textResult := by
  unfold finishParameter
  cases hparameter : p.currentParameter with
  | none => simp only [inTextMode, hparameter]; rfl
  | some parameter =>
    have hpush := pushArgumentFragment_inTextMode { p with currentParameter := none }
    simp only [inTextMode] at hpush
    simp only [inTextMode, hparameter]
    cases hkind : parameter.kind with
    | string => exact hpush (escapeJsonStringFragment finalPiece ++ ['"'])
    | json =>
      dsimp only
      cases E.fromStr (trim (parameter.value ++ finalPiece)) with
      | error err => rfl
      | ok value => exact hpush (parameter.keyText ++ value.chars)

theorem pushValue_inTextMode (value : Str) :
    p.inTextMode.pushValue value = (p.pushValue value).map textResult := by
  have hpush := p.pushArgumentFragment_inTextMode (escapeJsonStringFragment value)
  unfold pushValue
  rw [show p.inTextMode.currentParameter = p.currentParameter from rfl]
  cases p.currentParameter with
  | none => rfl
  | some parameter =>
    cases hkind : parameter.kind with
    | string =>
      simp only [hkind]
      exact hpush
    | json =>
      simp only [hkind]
      rfl

/-- What closes the arguments of a call. -/
def argumentClose (call : QwenXmlActiveCall) : Str :=
  if call.argumentCount = 0 then ['{', '}'] else ['}']

/-- The state after a call was closed. -/
def callClosed : QwenXmlToolParser := { p with currentCall := none }

/-- The deltas of a fragment. -/
def fragmentEmissions (index : ℕ) (fragment : Str) : List QwenXmlEmission :=
  if fragment.isEmpty then [] else [.ofDelta (fragmentDelta index fragment)]

def withArguments (call : QwenXmlActiveCall) (fragment : Str) : QwenXmlToolParser :=
  { p with currentCall := some { call with argumentsJson := call.argumentsJson ++ fragment } }

variable {p} {call : QwenXmlActiveCall}

theorem pushArgumentFragment_structured (hmode : p.structuredDeltas = true)
    (hcall : p.currentCall = some call) (fragment : Str) : p.pushArgumentFragment fragment =
      .ok (p.withArguments call fragment, fragmentEmissions call.index fragment) := by
  have hemits : (p.structuredDeltas && !fragment.isEmpty) = !fragment.isEmpty := by
    rw [hmode, Bool.true_and]
  rw [pushArgumentFragment, hcall]
  dsimp only
  rw [hemits]
  cases fragment <;> rfl

theorem finishFunction_structured (hmode : p.structuredDeltas = true)
    (hcall : p.currentCall = some call) : p.finishFunction E =
      .ok (p.callClosed, fragmentEmissions call.index (argumentClose call)) := by
  have hpush := pushArgumentFragment_structured hmode hcall (argumentClose call)
  have hrender : (p.withArguments call (argumentClose call)).renderCurrentCall E = .ok [] :=
    if_pos hmode
  rw [finishFunction, hcall]
  show (p.pushArgumentFragment (argumentClose call) >>= _) = _
  rw [hpush, ok_bind]
  show (renderCurrentCall E (p.withArguments call (argumentClose call)) >>= _) = _
  rw [hrender, ok_bind, List.append_nil]
  rfl

/-- In text mode the call is emitted with the value that its arguments are read as. -/
theorem finishFunction_inTextMode (hcall : p.currentCall = some call) :
    p.inTextMode.finishFunction E =
      match E.fromStr (call.argumentsJson ++ argumentClose call) with
      | .ok arguments => .ok (p.callClosed.inTextMode, [.ofText (callText call.name arguments)])
      | .error err => qwenXmlError
          ("assembled function arguments were not valid JSON: ".toList ++ err) := by
  have hcall' : p.inTextMode.currentCall = some call := hcall
  have hpush : p.inTextMode.pushArgumentFragment (argumentClose call) =
      .ok (p.inTextMode.withArguments call (argumentClose call), []) := by
    rw [pushArgumentFragment, hcall']
    rfl
  rw [finishFunction, hcall']
  show (p.inTextMode.pushArgumentFragment (argumentClose call) >>= _) = _
  rw [hpush, ok_bind]
  show (renderCurrentCall E (p.inTextMode.withArguments call (argumentClose call)) >>= _) = _
  rw [renderCurrentCall, if_neg (by exact Bool.false_ne_true)]
  dsimp only [withArguments, inTextMode]
  cases E.fromStr (call.argumentsJson ++ argumentClose call) <;> rfl

/-! ### One step -/

variable (p)

theorem withBuffer_inTextMode (buffer : Str) :
    { p.inTextMode with buffer } = ({ p with buffer } : QwenXmlToolParser).inTextMode := rfl

theorem startFunction_inTextMode : p.inTextMode.startFunction E =
    (p.startFunction E).map (Option.map textResult) := by
  unfold startFunction
  rw [show p.inTextMode.buffer = p.buffer from rfl,
    show p.inTextMode.nextIndex = p.nextIndex from rfl]
  by_cases hstart : (!startsWith p.buffer qwenXmlFunctionStart) = true
  · rw [if_pos hstart, if_pos hstart]
    rfl
  rw [if_neg hstart, if_neg hstart]
  cases tagArgument qwenXmlFunctionStart p.buffer with
  | none => rfl
  | some tag =>
    dsimp only
    by_cases hbad : badName tag.1 = true
    · rw [if_pos hbad, if_pos hbad]
      rfl
    rw [if_neg hbad, if_neg hbad]
    by_cases hover : p.nextIndex + 1 ≥ 2 ^ 32
    · rw [if_pos hover, if_pos hover]
      rfl
    rw [if_neg hover, if_neg hover]
    cases p.structuredDeltas <;> rfl

theorem processOutside_inTextMode :
    p.inTextMode.processOutside = p.processOutside.map (Option.map textResult) := by
  unfold processOutside
  rw [drainLeadingReasoningBlock_inTextMode, show p.inTextMode.buffer = p.buffer from rfl]
  cases earliestQwenMarker p.buffer with
  | none =>
    dsimp only
    split <;> rfl
  | some found =>
    obtain ⟨index, marker⟩ := found
    cases marker with
    | toolStart =>
      dsimp only
      split <;> rfl
    | reasoningStart =>
      dsimp only
      split
      · rfl
      · cases p.drainLeadingReasoningBlock <;> rfl

theorem processExpectedFunction_inTextMode : p.inTextMode.processExpectedFunction E =
    (p.processExpectedFunction E).map (Option.map textResult) := by
  unfold processExpectedFunction
  rw [drainLeadingWhitespace_inTextMode, drainLeadingReasoningBlock_inTextMode,
    startFunction_inTextMode, show p.inTextMode.buffer = p.buffer from rfl]
  cases p.drainLeadingWhitespace with
  | some q => rfl
  | none =>
    cases p.drainLeadingReasoningBlock with
    | some r => rfl
    | none =>
      simp only [Option.map_none]
      split
      · rfl
      cases find qwenXmlFunctionStart p.buffer with
      | none => rfl
      | some index =>
        dsimp only
        split <;> rfl

theorem openParameter_inTextMode :
    p.inTextMode.openParameter = p.openParameter.map (Option.map textResult) := by
  unfold openParameter
  rw [show p.inTextMode.buffer = p.buffer from rfl]
  cases tagArgument qwenXmlParameterStart p.buffer with
  | none => rfl
  | some tag =>
    dsimp only
    split
    · rfl
    · rw [withBuffer_inTextMode, startParameter_inTextMode]
      cases startParameter { p with buffer := tag.2 } tag.1 <;> rfl

theorem processInParameter_inTextMode : p.inTextMode.processInParameter E =
    (p.processInParameter E).map (Option.map textResult) := by
  unfold processInParameter
  rw [show p.inTextMode.buffer = p.buffer from rfl]
  cases find qwenXmlParameterEnd p.buffer with
  | some index =>
    dsimp only
    rw [withBuffer_inTextMode, finishParameter_inTextMode]
    cases finishParameter E { p with buffer := dropTo p.buffer (index + len qwenXmlParameterEnd) }
      (takeTo p.buffer index) <;> rfl
  | none =>
    dsimp only
    split
    · rfl
    · rw [withBuffer_inTextMode, pushValue_inTextMode]
      generalize len p.buffer - pendingTagPrefixLen p.buffer qwenXmlParameterEnd = emitLen
      cases pushValue { p with buffer := dropTo p.buffer emitLen } (takeTo p.buffer emitLen) <;> rfl

theorem processExpectedToolClose_inTextMode : p.inTextMode.processExpectedToolClose =
    p.processExpectedToolClose.map (Option.map textResult) := by
  unfold processExpectedToolClose
  rw [drainLeadingWhitespace_inTextMode, show p.inTextMode.buffer = p.buffer from rfl]
  cases p.drainLeadingWhitespace with
  | some q => rfl
  | none =>
    simp only [Option.map_none]
    split
    · rfl
    split <;> rfl

/-- The next step closes a call. -/
structure Closes : Prop where
  state : p.state = .inFunction
  trimmed : p.drainLeadingWhitespace = none
  whole : ¬(p.buffer.isEmpty || isPartialTagPrefix p.buffer qwenXmlParameterStart ||
    isPartialTagPrefix p.buffer qwenXmlFunctionEnd) = true
  other : ¬startsWith p.buffer qwenXmlParameterStart = true
  close : startsWith p.buffer qwenXmlFunctionEnd = true

variable {p} in
theorem Closes.inTextMode (h : p.Closes) : p.inTextMode.Closes where
  state := h.state
  trimmed := by rw [drainLeadingWhitespace_inTextMode, h.trimmed, Option.map_none]
  whole := h.whole
  other := h.other
  close := h.close

variable {p} in
theorem Closes.process (h : p.Closes) : p.process E = p.closeFunction E := by
  rw [QwenXmlToolParser.process, h.state]
  show p.processInFunction E = _
  rw [processInFunction, h.trimmed]
  dsimp only
  rw [if_neg h.whole, if_neg h.other, if_pos h.close]

theorem processInFunction_inTextMode (hstate : p.state = .inFunction) (h : ¬p.Closes) :
    p.inTextMode.processInFunction E = (p.processInFunction E).map (Option.map textResult) := by
  unfold processInFunction
  rw [drainLeadingWhitespace_inTextMode, openParameter_inTextMode,
    show p.inTextMode.buffer = p.buffer from rfl]
  cases hspace : p.drainLeadingWhitespace with
  | some q => rfl
  | none =>
    simp only [Option.map_none]
    split
    · rfl
    next hwhole =>
    split
    · rfl
    next hother =>
    split
    · next hclose => exact absurd ⟨hstate, hspace, hwhole, hother, hclose⟩ h
    · rfl

/-- **The modes take the same steps**, but for the one that closes a call. -/
theorem process_inTextMode (h : ¬p.Closes) :
    p.inTextMode.process E = (p.process E).map (Option.map textResult) := by
  unfold process
  rw [show p.inTextMode.state = p.state from rfl]
  cases hstate : p.state with
  | outside => exact p.processOutside_inTextMode
  | expectFunction => exact p.processExpectedFunction_inTextMode E
  | inFunction => exact p.processInFunction_inTextMode E hstate h
  | inParameter => exact p.processInParameter_inTextMode E
  | expectToolClose => exact p.processExpectedToolClose_inTextMode

end QwenXmlToolParser

end KirAi.Mlx
