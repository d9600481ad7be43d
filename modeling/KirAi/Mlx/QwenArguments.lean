/-
# The arguments of a call are JSON

Whatever the text, its fragments and where it is cut off, the fragments of the arguments of
each call that the parser for Qwen's XML tool calls reports are together a JSON text of its
members (`qwen_arguments`). Text mode reads that text again to report the call. The reader of
JSON may refuse it, since the object is nested one deeper than its values, and it may answer
with another value, where a number is not read as what it was printed from. So the two modes
report the same just if the arguments of every call are read back as their value.

Key definitions: `NumericValues`.
Key theorems: `drain_advances`, `pushAll_advances`, `finishTruncated_advances`, `qwen_arguments`.
-/
import KirAi.Mlx.QwenSteps

namespace KirAi.Mlx

open Lib Lib.Text
open KirAi.Runtime (Str isWhitespace trim)
open KirAi.ToolParser (Env startsWith)

variable {E : Env} {schema : QwenXmlToolSchema} {p q : QwenXmlToolParser} {index : ℕ}

/-! ### Text mode after text mode -/

theorem allRead_append {items more : List QwenItem} : AllRead E schema (items ++ more) ↔
    AllRead E schema items ∧ AllRead E schema more := by
  constructor
  · exact fun h => ⟨fun c fragments hin => h c fragments (List.mem_append_left _ hin),
      fun c fragments hin => h c fragments (List.mem_append_right _ hin)⟩
  · rintro ⟨h, h'⟩ c fragments hin
    rcases List.mem_append.1 hin with hin | hin
    · exact h c fragments hin
    · exact h' c fragments hin

/-- Items after items, where text mode goes on from the state it got to. -/
theorem InText.next {items items' : List QwenItem} {q' : QwenXmlToolParser}
    {t t' : Except BackendError (QwenXmlToolParser × List QwenXmlEmission)}
    {k : QwenXmlToolParser → Except BackendError (QwenXmlToolParser × List QwenXmlEmission)}
    (h : InText E schema items q t) (hk : k q.inTextMode = t') (h' : InText E schema items' q' t') :
    InText E schema (items ++ items') q'
      (t >>= fun r => k r.1 >>= fun r' => .ok (r'.1, r.2 ++ r'.2)) := by
  rcases h with ⟨hread, rfl⟩ | ⟨hnot, err, rfl⟩
  · rw [ok_bind, hk]
    rcases h' with ⟨hread', rfl⟩ | ⟨hnot, err, rfl⟩
    · exact .inl ⟨allRead_append.2 ⟨hread, hread'⟩, by rw [ok_bind, List.flatMap_append]⟩
    · exact .inr ⟨fun hall => hnot (allRead_append.1 hall).2, err, rfl⟩
  · exact .inr ⟨fun hall => hnot (allRead_append.1 hall).1, err, rfl⟩

theorem InText.refl (q : QwenXmlToolParser) : InText E schema [] q (.ok (q.inTextMode, [])) :=
  .inl ⟨fun _ _ hin => absurd hin List.not_mem_nil, rfl⟩

/-! ### Steps until the parser waits -/

theorem process_error {pending : Option (SeenCall × List Str)} {err : BackendError}
    (hmode : p.structuredDeltas = true) (hschema : p.schema = schema)
    (h : Tracks E schema p index pending) (hstep : p.process E = .error err) :
    p.inTextMode.process E = .error err := by
  by_cases hcloses : p.Closes
  · cases h with
    | between hfunction => exact absurd hcloses.state hfunction
    | inParameter h => exact absurd (hcloses.state.symm.trans h.state) (by decide)
    | inFunction h =>
      obtain ⟨q', out', c', fragments', hok, -⟩ := closeFunction_advances hmode hschema h hcloses
      rw [hcloses.process, hok] at hstep
      cases hstep
  · rw [p.process_inTextMode E hcloses, hstep]
    rfl

theorem drain_advances : ∀ {n : ℕ} {p q : QwenXmlToolParser} {index : ℕ}
    {pending : Option (SeenCall × List Str)} {out : List QwenXmlEmission},
    p.buffer.length < n → p.structuredDeltas = true → p.schema = schema →
    Tracks E schema p index pending →
    QwenXmlToolParser.drain E n p = .ok (q, out) →
    ∃ used items pending', p.buffer = used ++ q.buffer ∧
      Advances E schema SeenCall.Ends index pending used out items pending' q ∧
      InText E schema items q (QwenXmlToolParser.drain E n p.inTextMode) ∧
      q.process E = .ok none
  | 0, _, _, _, _, _, hlen, _, _, _, _ => absurd hlen (Nat.not_lt_zero _)
  | n + 1, p, q, index, pending, out, hlen, hmode, hschema, h, hdrain => by
    unfold QwenXmlToolParser.drain at hdrain ⊢
    cases hstep : p.process E with
    | error err =>
      rw [hstep] at hdrain
      cases hdrain
    | ok progress =>
      cases progress with
      | none =>
        rw [hstep] at hdrain
        obtain ⟨rfl, rfl⟩ := Prod.mk.inj (Except.ok.inj hdrain)
        have hnot : ¬p.Closes := by
          intro hcloses
          cases h with
          | between hfunction => exact hfunction hcloses.state
          | inParameter h => exact absurd (hcloses.state.symm.trans h.state) (by decide)
          | inFunction h =>
            obtain ⟨_, _, _, _, hok, -⟩ := closeFunction_advances hmode hschema h hcloses
            rw [hcloses.process, hok] at hstep
            cases hstep
        refine ⟨[], [], pending, rfl, .refl hmode hschema h, ?_, hstep⟩
        rw [p.process_inTextMode E hnot, hstep]
        exact .refl p
      | some r =>
        obtain ⟨p', first⟩ := r
        rw [hstep] at hdrain
        obtain ⟨used, items, pending', t, hne, hbuffer, hadvances, htext, hin⟩ :=
          process_advances hmode hschema h hstep
        dsimp only at hdrain
        cases hlater : QwenXmlToolParser.drain E n p' with
        | error err =>
          rw [hlater] at hdrain
          cases hdrain
        | ok r =>
          obtain ⟨q', later⟩ := r
          rw [hlater] at hdrain
          obtain ⟨rfl, rfl⟩ := Prod.mk.inj (Except.ok.inj hdrain)
          have hshorter : p'.buffer.length < n := by
            have hused := List.length_pos_iff.2 hne
            rw [hbuffer, List.length_append] at hlen
            omega
          obtain ⟨used', items', pending'', hbuffer', hadvances', htext', hwaits⟩ :=
            drain_advances hshorter hadvances.mode hadvances.known hadvances.tracks hlater
          refine ⟨used ++ used', items ++ items', pending'',
            by rw [hbuffer, hbuffer', List.append_assoc], hadvances.trans hadvances', ?_, hwaits⟩
          have hnext := hin.next rfl htext'
          rw [htext]
          cases t with
          | error err => exact hnext
          | ok r =>
            rw [ok_bind] at hnext
            show InText E schema _ _ ((QwenXmlToolParser.drain E n r.1).map _)
            cases hdrain' : QwenXmlToolParser.drain E n r.1 with
            | error err =>
              rw [hdrain'] at hnext
              exact hnext
            | ok r' =>
              rw [hdrain'] at hnext
              exact hnext

/-- Where the parser fails text mode fails. -/
theorem drain_error : ∀ {n : ℕ} {p : QwenXmlToolParser} {index : ℕ}
    {pending : Option (SeenCall × List Str)} {err : BackendError},
    p.structuredDeltas = true → p.schema = schema → Tracks E schema p index pending →
    QwenXmlToolParser.drain E n p = .error err →
    ∃ err', QwenXmlToolParser.drain E n p.inTextMode = .error err'
  | 0, _, _, _, _, _, _, _, hdrain => by cases hdrain
  | n + 1, p, index, pending, err, hmode, hschema, h, hdrain => by
    unfold QwenXmlToolParser.drain at hdrain ⊢
    cases hstep : p.process E with
    | error err =>
      rw [process_error hmode hschema h hstep]
      exact ⟨err, rfl⟩
    | ok progress =>
      cases progress with
      | none =>
        rw [hstep] at hdrain
        cases hdrain
      | some r =>
        obtain ⟨p', first⟩ := r
        rw [hstep] at hdrain
        obtain ⟨used, items, pending', t, -, -, hadvances, htext, hin⟩ :=
          process_advances hmode hschema h hstep
        dsimp only at hdrain
        cases hlater : QwenXmlToolParser.drain E n p' with
        | ok r =>
          rw [hlater] at hdrain
          cases hdrain
        | error err =>
          obtain ⟨err', herr⟩ :=
            drain_error hadvances.mode hadvances.known hadvances.tracks hlater
          rw [htext]
          rcases hin with ⟨-, rfl⟩ | ⟨-, err, rfl⟩
          · show ∃ err', (QwenXmlToolParser.drain E n p'.inTextMode).map _ = .error err'
            rw [herr]
            exact ⟨err', rfl⟩
          · exact ⟨err, rfl⟩

/-! ### Fragments -/

/-- More text at the end of the buffer. -/
theorem Tracks.feed {pending : Option (SeenCall × List Str)} (h : Tracks E schema p index pending)
    (text : Str) : Tracks E schema { p with buffer := p.buffer ++ text } index pending := by
  cases h with
  | between hfunction hparameter hnone hnext => exact .between hfunction hparameter hnone hnext
  | inFunction h =>
    exact .inFunction ⟨h.state, h.proper, h.uncut, h.space, h.call, h.written, h.next⟩
  | inParameter h =>
    exact .inParameter ⟨h.state, h.proper, h.cut, h.rest, h.settled.append text, h.call,
      h.parameter, h.written, h.next⟩

theorem pushAll_advances : ∀ {texts : List Str} {p q : QwenXmlToolParser} {index : ℕ}
    {pending : Option (SeenCall × List Str)} {out : List QwenXmlEmission},
    p.structuredDeltas = true → p.schema = schema → Tracks E schema p index pending →
    p.process E = .ok none → p.pushAll E texts = .ok (q, out) →
    ∃ used items pending', p.buffer ++ texts.flatten = used ++ q.buffer ∧
      Advances E schema SeenCall.Ends index pending used out items pending' q ∧
      InText E schema items q (p.inTextMode.pushAll E texts) ∧ q.process E = .ok none
  | [], p, q, index, pending, out, hmode, hschema, h, hwaits, hpush => by
    obtain ⟨rfl, rfl⟩ := Prod.mk.inj (Except.ok.inj hpush)
    exact ⟨[], [], pending, List.append_nil _, .refl hmode hschema h, .refl p, hwaits⟩
  | text :: texts, p, q, index, pending, out, hmode, hschema, h, _, hpush => by
    rw [QwenXmlToolParser.pushAll] at hpush ⊢
    obtain ⟨⟨p', first⟩, hfirst, hrest⟩ := bind_eq_ok.1 hpush
    obtain ⟨⟨q', later⟩, hlater, hpure⟩ := bind_eq_ok.1 hrest
    obtain ⟨rfl, rfl⟩ := Prod.mk.inj (Except.ok.inj hpure)
    obtain ⟨used, items, pending', hbuffer, hadvances, hin, hwaits⟩ :=
      drain_advances (p := { p with buffer := p.buffer ++ text }) (Nat.lt_succ_self _) hmode
        hschema (h.feed text) hfirst
    obtain ⟨used', items', pending'', hbuffer', hadvances', hin', hwaits'⟩ :=
      pushAll_advances hadvances.mode hadvances.known hadvances.tracks hwaits hlater
    refine ⟨used ++ used', items ++ items', pending'', ?_, hadvances.trans hadvances', ?_, hwaits'⟩
    · rw [List.flatten_cons, ← List.append_assoc, show p.buffer ++ text = used ++ p'.buffer from
        hbuffer, List.append_assoc, hbuffer', List.append_assoc]
    · exact hin.next (k := fun p => p.pushAll E texts) rfl hin'

theorem pushAll_error : ∀ {texts : List Str} {p : QwenXmlToolParser} {index : ℕ}
    {pending : Option (SeenCall × List Str)} {err : BackendError},
    p.structuredDeltas = true → p.schema = schema → Tracks E schema p index pending →
    p.pushAll E texts = .error err → ∃ err', p.inTextMode.pushAll E texts = .error err'
  | [], _, _, _, _, _, _, _, hpush => by cases hpush
  | text :: texts, p, index, pending, err, hmode, hschema, h, hpush => by
    rw [QwenXmlToolParser.pushAll] at hpush ⊢
    cases hfirst : p.pushStr E text with
    | error err =>
      obtain ⟨err', herr⟩ := drain_error (p := { p with buffer := p.buffer ++ text }) hmode
        hschema (h.feed text) hfirst
      exact ⟨err', by rw [show p.inTextMode.pushStr E text = .error err' from herr]; rfl⟩
    | ok r =>
      obtain ⟨p', first⟩ := r
      obtain ⟨used, items, pending', hbuffer, hadvances, hin, hwaits⟩ :=
        drain_advances (p := { p with buffer := p.buffer ++ text }) (Nat.lt_succ_self _) hmode
          hschema (h.feed text) hfirst
      rw [hfirst, ok_bind] at hpush
      dsimp only at hpush
      rcases hin with ⟨-, hok⟩ | ⟨-, err', herr⟩
      · cases hlater : p'.pushAll E texts with
        | ok r =>
          rw [hlater, ok_bind] at hpush
          cases hpush
        | error err =>
          obtain ⟨err', herr⟩ :=
            pushAll_error hadvances.mode hadvances.known hadvances.tracks hlater
          exact ⟨err', by
            rw [show p.inTextMode.pushStr E text = _ from hok, ok_bind]
            dsimp only
            rw [herr]
            rfl⟩
      · exact ⟨err', by rw [show p.inTextMode.pushStr E text = .error err' from herr]; rfl⟩

/-! ### The end -/

/-- The text ends outside of calls. -/
theorem finish_advances {Done : SeenCall → Prop} {pending : Option (SeenCall × List Str)}
    {last : List QwenXmlEmission} (hmode : p.structuredDeltas = true) (hschema : p.schema = schema)
    (h : Tracks E schema p index pending) (hfinish : p.finish = .ok (q, last)) :
    ∃ items, items.length ≤ 1 ∧ Advances E schema Done index pending p.buffer last items none q ∧
      InText E schema items q p.inTextMode.finish := by
  unfold QwenXmlToolParser.finish at hfinish ⊢
  split at hfinish
  · cases hfinish
  next houtside =>
  have hstate : p.state = .outside := of_not_not houtside
  obtain rfl : pending = none := by
    cases h with
    | between => rfl
    | inFunction h => exact absurd (hstate.symm.trans h.state) (by decide)
    | inParameter h => exact absurd (hstate.symm.trans h.state) (by decide)
  rw [if_neg (show ¬p.inTextMode.state ≠ .outside from houtside)]
  split at hfinish
  · next hempty =>
    obtain ⟨rfl, rfl⟩ := Prod.mk.inj (Except.ok.inj hfinish)
    rw [if_pos (show p.inTextMode.buffer.isEmpty = true from hempty), List.isEmpty_iff.1 hempty]
    exact ⟨[], Nat.zero_le 1, .refl hmode hschema h, .refl p⟩
  · next hfull =>
    obtain ⟨rfl, rfl⟩ := Prod.mk.inj (Except.ok.inj hfinish)
    rw [if_neg (show ¬p.inTextMode.buffer.isEmpty = true from hfull)]
    exact ⟨[.shown p.buffer], le_refl 1, .of_none hmode hschema rfl
      (h.between_of rfl rfl (not_in_call h).1 (not_in_call h).2) (List.append_nil _).symm rfl,
      .inl ⟨allRead_of_none rfl, rfl⟩⟩

theorem finish_error {err : BackendError} (hfinish : p.finish = .error err) :
    p.inTextMode.finish = .error err := by
  unfold QwenXmlToolParser.finish at hfinish ⊢
  split at hfinish
  · next hstate =>
    rw [if_pos (show p.inTextMode.state ≠ .outside from hstate)]
    exact hfinish
  · split at hfinish <;> cases hfinish

/-- In text mode a call that ends is emitted with its arguments, if they are read again. -/
theorem inText_of_call {c : SeenCall} {fragments : List Str} {call : QwenXmlActiveCall}
    {p' : QwenXmlToolParser} (hcall : p.currentCall = some call) (hname : call.name = c.name)
    (htext : call.argumentsJson ++ QwenXmlToolParser.argumentClose call =
      (c.arguments E schema).chars) (hq : p'.inTextMode = { p.callClosed.inTextMode with state := .outside }) :
    InText E schema [.call c fragments] p' (p.inTextMode.finishOpenFunction E >>= fun r =>
      .ok ({ r.1 with state := .outside }, r.2)) := by
  have hopen : p.inTextMode.finishOpenFunction E = p.inTextMode.finishFunction E := by
    rw [QwenXmlToolParser.finishOpenFunction,
      show p.inTextMode.currentCall = some call from hcall]
  rw [hopen, QwenXmlToolParser.finishFunction_inTextMode E hcall, htext, hname]
  cases hread : E.fromStr (c.arguments E schema).chars with
  | ok arguments =>
    refine .inl ⟨?_, ?_⟩
    · intro c' fragments' hin
      obtain ⟨rfl, rfl⟩ := QwenItem.call.inj (List.mem_singleton.1 hin)
      rw [hread]
      rfl
    · rw [List.flatMap_singleton, QwenItem.asRead, hread, hq]
      rfl
  | error err =>
    refine .inr ⟨fun hall => ?_, _, rfl⟩
    have hok := hall c fragments (List.mem_singleton_self _)
    rw [hread] at hok
    cases hok

/-- A parser that waits in a function has no whole tag. -/
theorem InFunction.waits {c : SeenCall} {fragments : List Str}
    (h : InFunction E schema p index c fragments) (hwaits : p.process E = .ok none) :
    '>' ∉ p.buffer := by
  have hpartial : ∀ {tag : Str}, '>' ∉ tag.dropLast → isPartialTagPrefix p.buffer tag = true →
      '>' ∉ p.buffer := by
    intro tag htag hprefix hin
    rw [isPartialTagPrefix, Bool.and_eq_true, decide_eq_true_eq] at hprefix
    obtain ⟨rest, hrest⟩ := startsWith_iff.1 hprefix.2
    have hne : rest ≠ [] := by
      rintro rfl
      rw [List.append_nil] at hrest
      rw [hrest] at hprefix
      exact Nat.lt_irrefl _ hprefix.1
    refine htag ?_
    rw [hrest, List.dropLast_append_of_ne_nil hne]
    exact List.mem_append_left _ hin
  rw [QwenXmlToolParser.process, h.state] at hwaits
  dsimp only at hwaits
  unfold QwenXmlToolParser.processInFunction at hwaits
  split at hwaits
  · cases hwaits
  split at hwaits
  · next hwhole =>
    rw [Bool.or_eq_true, Bool.or_eq_true] at hwhole
    rcases hwhole with (hempty | hparameter) | hfunction
    · rw [List.isEmpty_iff.1 hempty]
      exact List.not_mem_nil
    · exact hpartial (by decide) hparameter
    · exact hpartial (by decide) hfunction
  split at hwaits
  · next hstart =>
    unfold QwenXmlToolParser.openParameter at hwaits
    split at hwaits
    · next hnone =>
      rw [tagArgument, Option.map_eq_none_iff, find_eq_none_iff_infix,
        List.singleton_infix_iff] at hnone
      exact hnone
    · split at hwaits
      · cases hwaits
      · obtain ⟨r, -, hpure⟩ := bind_eq_ok.1 hwaits
        cases hpure
  split at hwaits
  · rw [QwenXmlToolParser.closeFunction] at hwaits
    obtain ⟨r, -, hpure⟩ := bind_eq_ok.1 hwaits
    cases hpure
  · cases hwaits

/-- A parser that waits in a parameter has not all of its close tag. -/
theorem InParameter.waits {c : SeenCall} {s : SeenParameter} {fragments : List Str}
    (h : InParameter E schema p index c s fragments) (hwaits : p.process E = .ok none) :
    ¬qwenXmlParameterEnd <:+: s.text ++ p.buffer := by
  rw [QwenXmlToolParser.process, h.state] at hwaits
  dsimp only at hwaits
  unfold QwenXmlToolParser.processInParameter at hwaits
  split at hwaits
  · obtain ⟨r, -, hpure⟩ := bind_eq_ok.1 hwaits
    cases hpure
  · next hfind =>
    have hall := h.settled.find_eq (List.mem_singleton_self qwenXmlParameterEnd)
    rw [hfind, Option.map_none] at hall
    exact find_eq_none_iff_infix.1 hall

theorem finishOpenFunction_structured {call : QwenXmlActiveCall} (hmode : p.structuredDeltas = true)
    (hcall : p.currentCall = some call) : p.finishOpenFunction E =
      .ok (p.callClosed, QwenXmlToolParser.fragmentEmissions call.index
        (QwenXmlToolParser.argumentClose call)) := by
  rw [QwenXmlToolParser.finishOpenFunction, hcall]
  exact QwenXmlToolParser.finishFunction_structured E hmode hcall

theorem finishTruncated_inFunction (h : p.state = .inFunction) : p.finishTruncated E =
    (QwenXmlToolParser.finishOpenFunction E { p with buffer := [] } >>= fun r =>
      .ok ({ r.1 with state := .outside }, r.2)) := by
  obtain ⟨mode, schema, state, buffer, nextIndex, call, parameter⟩ := p
  obtain rfl : state = .inFunction := h
  rfl

theorem finishTruncated_inParameter (h : p.state = .inParameter) : p.finishTruncated E =
    (QwenXmlToolParser.finishOpenParameter E { p with buffer := [] } p.buffer >>= fun ended =>
      ended.1.finishOpenFunction E >>= fun r =>
        .ok ({ r.1 with state := .outside }, ended.2 ++ r.2)) := by
  obtain ⟨mode, schema, state, buffer, nextIndex, call, parameter⟩ := p
  obtain rfl : state = .inParameter := h
  rfl

/-- The function is cut off where the text ends. -/
theorem cutFunction_advances {c : SeenCall} {fragments : List Str}
    (hmode : p.structuredDeltas = true) (hschema : p.schema = schema)
    (h : InFunction E schema p index c fragments) (hwaits : p.process E = .ok none) :
    ∃ q last items, p.finishTruncated E = .ok (q, last) ∧ items.length ≤ 1 ∧
      Advances E schema SeenCall.CutOff index (some (c, fragments)) p.buffer last items none q ∧
      InText E schema items q (p.inTextMode.finishTruncated E) := by
  have htext := h.argumentsText (c.rest ++ p.buffer)
  have hfinish := finishOpenFunction_structured (E := E) (p := { p with buffer := [] }) hmode h.call
  have hcut : '>' ∉ c.rest ++ p.buffer := by
    intro hin
    rcases List.mem_append.1 hin with hin | hin
    · exact absurd (h.space '>' hin) (by decide)
    · exact h.waits hwaits hin
  refine ⟨{ QwenXmlToolParser.callClosed { p with buffer := [] } with state := .outside },
    QwenXmlToolParser.fragmentEmissions index (QwenXmlToolParser.argumentClose
      ⟨index, c.name, c.parameters.length, fragments.flatten⟩),
    [.call { c with rest := c.rest ++ p.buffer } (addFragment fragments
      (QwenXmlToolParser.argumentClose ⟨index, c.name, c.parameters.length, fragments.flatten⟩))],
    ?_, le_refl 1, ?_, ?_⟩
  · rw [finishTruncated_inFunction h.state, hfinish, ok_bind]
  · exact .of_call hmode hschema (.between (fun hs => by cases hs) (fun hs => by cases hs) rfl h.next)
      (emissionsFrom_addFragment rfl index fragments _) ((addFragment_flatten _ _).trans htext)
      ⟨h.proper.name, h.proper.named, h.proper.parameters, h.proper.values⟩
      ⟨hcut, fun hne => absurd h.uncut hne⟩ (by simp [SeenCall.source])
  · have hin := @inText_of_call E schema { p with buffer := [] } { c with rest := c.rest ++ p.buffer }
      (addFragment fragments (QwenXmlToolParser.argumentClose
        ⟨index, c.name, c.parameters.length, fragments.flatten⟩)) _
      { QwenXmlToolParser.callClosed { p with buffer := [] } with state := .outside }
      h.call rfl htext rfl
    rw [@finishTruncated_inFunction E p.inTextMode h.state]
    exact hin

theorem finishOpenParameter_inTextMode (piece : Str) : p.inTextMode.finishOpenParameter E piece =
    (p.finishOpenParameter E piece).map textResult := by
  unfold QwenXmlToolParser.finishOpenParameter
  rw [show p.inTextMode.currentParameter = p.currentParameter from rfl,
    QwenXmlToolParser.finishParameter_inTextMode]
  cases p.currentParameter with
  | none => rfl
  | some parameter =>
    dsimp only
    cases parameter.kind with
    | string => rfl
    | json =>
      dsimp only
      cases p.finishParameter E piece <;> rfl

theorem finishOpenParameter_of_ok {parameter : QwenXmlActiveParameter} {piece : Str}
    {r : QwenXmlToolParser × List QwenXmlEmission}
    (hparameter : p.currentParameter = some parameter) (hok : p.finishParameter E piece = .ok r) :
    p.finishOpenParameter E piece = .ok r := by
  rw [QwenXmlToolParser.finishOpenParameter, hparameter]
  dsimp only
  rw [hok]
  cases parameter.kind <;> rfl

theorem finishOpenParameter_of_error {c : SeenCall} {s : SeenParameter} {piece : Str}
    {err : BackendError} (hparameter : p.currentParameter = some (activeParameter schema c s))
    (hkind : schema.parameterKind c.name s.key = .json)
    (herr : p.finishParameter E piece = .error err) :
    p.finishOpenParameter E piece = .ok ({ p with
      currentParameter := none
      currentCall := p.currentCall.map fun call =>
        { call with argumentCount := call.argumentCount - 1 } }, []) := by
  rw [QwenXmlToolParser.finishOpenParameter, hparameter]
  simp only [activeParameter, hkind, herr]

theorem members_of_cut {c : SeenCall} {s : SeenParameter} (hcut : c.cut = some s) :
    c.members E schema = closedMembers E schema c ++ (s.member E schema c.name).toList := by
  rw [SeenCall.members, SeenCall.seen, hcut, closedMembers, Option.toList_some,
    List.filterMap_append]
  cases hmember : s.member E schema c.name with
  | none => rw [List.filterMap_cons_none hmember]; rfl
  | some entry => rw [List.filterMap_cons_some hmember]; rfl

/-- What the parameter adds where it is cut off: its value if what there is of it is one, and
nothing otherwise. With the closing brace the arguments are those of the call that is cut off. -/
theorem finishOpenParameter_written {c : SeenCall} {s : SeenParameter} {fragments : List Str}
    (hmode : p.structuredDeltas = true) (hschema : p.schema = schema)
    (h : InParameter E schema p index c s fragments) (hnew : (s.grow p.buffer).Proper) :
    ∃ p' fragment call, QwenXmlToolParser.finishOpenParameter E { p with buffer := [] } p.buffer =
        .ok (p', QwenXmlToolParser.fragmentEmissions index fragment) ∧
      p'.currentCall = some call ∧
      (p'.structuredDeltas = true ∧ p'.schema = schema ∧ p'.nextIndex = index + 1 ∧
        call.index = index ∧ call.name = c.name ∧
        call.argumentsJson = fragments.flatten ++ fragment) ∧
      call.argumentsJson ++ QwenXmlToolParser.argumentClose call =
        (({ c with cut := some (s.grow p.buffer) } : SeenCall).arguments E schema).chars := by
  rw [SeenCall.arguments, members_of_cut (s := s.grow p.buffer) rfl]
  cases hvalue : (s.grow p.buffer).value E schema c.name with
  | some v =>
    obtain ⟨fragment, hok, hwritten⟩ := finishParameter_value (q := { p with buffer := [] })
      hmode h.call h.parameter p.buffer hvalue
    refine ⟨_, fragment, _, finishOpenParameter_of_ok h.parameter hok, rfl,
      ⟨hmode, hschema, h.next, rfl, rfl, rfl⟩, ?_⟩
    have hmembers : closedMembers E schema c ++
        ((s.grow p.buffer).member E schema c.name).toList =
        closedMembers E schema (c.close (s.grow p.buffer)) := by
      rw [closedMembers_close hvalue, SeenParameter.member, hvalue]
      rfl
    have hlength : (closedMembers E schema (c.close (s.grow p.buffer))).length =
        c.parameters.length + 1 := by
      rw [length_closedMembers (close_proper h.proper hnew hvalue).values, SeenCall.close,
        List.length_append, List.length_singleton]
    have hopened : fragments.flatten ++ fragment =
        openedText (closedMembers E schema (c.close (s.grow p.buffer))) := by
      rw [h.written, List.append_assoc, hwritten, openedText_closed h.proper hvalue]
      rfl
    show fragments.flatten ++ fragment ++ _ = (Json.object (closedMembers E schema c ++
      ((s.grow p.buffer).member E schema c.name).toList)).chars
    rw [hmembers, ← openedText_close, hlength, hopened]
    rfl
  | none =>
    obtain ⟨hkind, err, herr⟩ : schema.parameterKind c.name s.key = .json ∧ ∃ err,
        QwenXmlToolParser.finishParameter E { p with buffer := [] } p.buffer = .error err := by
      refine ⟨?_, finishParameter_none (q := { p with buffer := [] }) h.parameter p.buffer hvalue⟩
      rw [SeenParameter.value, show (s.grow p.buffer).key = s.key from rfl] at hvalue
      cases hkind : schema.parameterKind c.name s.key with
      | json => rfl
      | string =>
        rw [hkind] at hvalue
        cases hvalue
    have hopened : fragments.flatten = openedText (closedMembers E schema c) := by
      rw [h.written, openedValue, hkind]
      exact List.append_nil _
    refine ⟨{ p with
        buffer := []
        currentParameter := none
        currentCall := some ⟨index, c.name, c.parameters.length, fragments.flatten⟩ }, [],
      ⟨index, c.name, c.parameters.length, fragments.flatten⟩, ?_, rfl,
      ⟨hmode, hschema, h.next, rfl, rfl, (List.append_nil _).symm⟩, ?_⟩
    · rw [finishOpenParameter_of_error (p := { p with buffer := [] }) h.parameter hkind herr,
        h.call]
      rfl
    · have hmember : (s.grow p.buffer).member E schema c.name = none := by
        rw [SeenParameter.member, hvalue]
        rfl
      show fragments.flatten ++ _ = (Json.object (closedMembers E schema c ++
        ((s.grow p.buffer).member E schema c.name).toList)).chars
      rw [hmember, Option.toList_none, List.append_nil, ← openedText_close,
        length_closedMembers h.proper.values, hopened]
      rfl

/-- The parameter is cut off where the text ends: its value is what there is of it, if that is
one. -/
theorem cutParameter_advances {c : SeenCall} {s : SeenParameter} {fragments : List Str}
    (hmode : p.structuredDeltas = true) (hschema : p.schema = schema)
    (h : InParameter E schema p index c s fragments) (hwaits : p.process E = .ok none) :
    ∃ q last items, p.finishTruncated E = .ok (q, last) ∧ items.length ≤ 1 ∧
      Advances E schema SeenCall.CutOff index (some (c, fragments)) p.buffer last items none q ∧
      InText E schema items q (p.inTextMode.finishTruncated E) := by
  have hnew := h.grow_proper (h.waits hwaits)
  have hproper : ({ c with cut := some (s.grow p.buffer) } : SeenCall).Proper E schema := {
    name := h.proper.name
    named := h.proper.named
    values := h.proper.values
    parameters := by
      intro s' hs'
      rcases List.mem_append.1 hs' with hs' | hs'
      · exact h.proper.parameters s' (List.mem_append_left _ hs')
      · obtain rfl := List.mem_singleton.1 hs'
        exact hnew }
  have hsource : c.source ++ p.buffer =
      ({ c with cut := some (s.grow p.buffer) } : SeenCall).source := by
    simp [SeenCall.source, SeenParameter.openedSource, SeenParameter.grow, h.cut, h.rest]
  have hcut : ({ c with cut := some (s.grow p.buffer) } : SeenCall).CutOff :=
    ⟨by rw [h.rest]; exact List.not_mem_nil, fun _ => h.rest⟩
  obtain ⟨p', fragment, call, hopen, hcall, hp', htext⟩ :=
    finishOpenParameter_written hmode hschema h hnew
  obtain ⟨hmode', hschema', hnext', hindex, hname, hjson⟩ := hp'
  have hfinish := finishOpenFunction_structured (E := E) hmode' hcall
  refine ⟨{ p'.callClosed with state := .outside },
    QwenXmlToolParser.fragmentEmissions index fragment ++
      QwenXmlToolParser.fragmentEmissions index (QwenXmlToolParser.argumentClose call),
    [.call { c with cut := some (s.grow p.buffer) } (addFragment (addFragment fragments fragment)
      (QwenXmlToolParser.argumentClose call))], ?_, le_refl 1, ?_, ?_⟩
  · rw [finishTruncated_inParameter h.state, hopen, ok_bind, hfinish, ok_bind, hindex]
  · refine .of_call hmode' hschema' (.between (fun hs => by cases hs) (fun hs => by cases hs) rfl hnext')
      ?_ ?_ hproper hcut hsource
    · have hname' : ({ c with cut := some (s.grow p.buffer) } : SeenCall).name = c.name := rfl
      rw [@emissionsFrom_addFragment E { c with cut := some (s.grow p.buffer) } _ rfl,
        emissionsFrom_addFragment hname', List.append_assoc]
    · rw [addFragment_flatten, addFragment_flatten, ← hjson, htext]
  · have hin := @inText_of_call E schema p' { c with cut := some (s.grow p.buffer) }
      (addFragment (addFragment fragments fragment) (QwenXmlToolParser.argumentClose call)) call
      { p'.callClosed with state := .outside } hcall hname htext rfl
    have hopen' : QwenXmlToolParser.finishOpenParameter E { p.inTextMode with buffer := [] }
        p.buffer = .ok (p'.inTextMode, []) := by
      rw [QwenXmlToolParser.withBuffer_inTextMode, finishOpenParameter_inTextMode, hopen]
      show Except.ok (p'.inTextMode, shownOnly _) = _
      rw [shownOnly_fragmentEmissions]
    rw [@finishTruncated_inParameter E p.inTextMode h.state,
      show p.inTextMode.buffer = p.buffer from rfl, hopen', ok_bind]
    exact hin

/-- **The end of a text that was cut off** never fails, but for a call that text mode does not
read again. -/
theorem finishTruncated_advances {pending : Option (SeenCall × List Str)}
    (hmode : p.structuredDeltas = true) (hschema : p.schema = schema)
    (h : Tracks E schema p index pending) (hwaits : p.process E = .ok none) :
    ∃ q last items, p.finishTruncated E = .ok (q, last) ∧ items.length ≤ 1 ∧
      Advances E schema SeenCall.CutOff index pending p.buffer last items none q ∧
      InText E schema items q (p.inTextMode.finishTruncated E) := by
  cases h with
  | inFunction h => exact cutFunction_advances hmode hschema h hwaits
  | inParameter h => exact cutParameter_advances hmode hschema h hwaits
  | between hfunction hparameter hnone hnext =>
    -- what is left is not part of a call
    have hsilent : ∀ q : QwenXmlToolParser, q.structuredDeltas = true → q.schema = schema →
        Tracks E schema q index none → Advances E schema SeenCall.CutOff index none p.buffer []
          [.silent p.buffer] none q ∧
        InText E schema [.silent p.buffer] q (.ok (q.inTextMode, [])) :=
      fun q hmode hschema h => ⟨.of_none hmode hschema rfl h (List.append_nil _).symm rfl,
        .inl ⟨allRead_of_none rfl, rfl⟩⟩
    have hclosed := hsilent { p with
        currentCall := none
        currentParameter := none
        buffer := []
        state := .outside } hmode hschema
      (.between (fun hs => by cases hs) (fun hs => by cases hs) rfl hnext)
    unfold QwenXmlToolParser.finishTruncated
    rw [show p.inTextMode.state = p.state from rfl]
    cases hstate : p.state with
    | outside => exact ⟨p, [], [.silent p.buffer], rfl, le_refl 1,
        hsilent p hmode hschema (.between hfunction hparameter hnone hnext)⟩
    | expectFunction => exact ⟨_, [], [.silent p.buffer], rfl, le_refl 1, hclosed⟩
    | expectToolClose => exact ⟨_, [], [.silent p.buffer], rfl, le_refl 1, hclosed⟩
    | inFunction => exact absurd hstate hfunction
    | inParameter => exact absurd hstate hparameter

/-! ### Whole runs -/

/-- The numbers that the reader of JSON answers with are printed as numbers. -/
def NumericValues (E : Env) : Prop :=
  ∀ text v, E.fromStr text = .ok v → v.Numeric

theorem arguments_numeric (hE : NumericValues E) (c : SeenCall) :
    (c.arguments E schema).Numeric := by
  rw [SeenCall.arguments, Json.Numeric, Json.numericEntries_iff]
  intro entry hentry
  obtain ⟨s, -, hmember⟩ := List.mem_filterMap.1 hentry
  obtain ⟨v, hvalue, rfl⟩ := Option.map_eq_some_iff.1 hmember
  unfold SeenParameter.value at hvalue
  split at hvalue
  · obtain rfl := Option.some.inj hvalue
    trivial
  · cases hread : E.fromStr (trim s.text) with
    | error err =>
      rw [hread] at hvalue
      cases hvalue
    | ok value =>
      rw [hread] at hvalue
      obtain rfl := Option.some.inj hvalue
      exact hE _ _ hread

theorem new_waits (schema : QwenXmlToolSchema) :
    (QwenXmlToolParser.new true schema).process E = .ok none := rfl

theorem new_tracks (schema : QwenXmlToolSchema) :
    Tracks E schema (QwenXmlToolParser.new true schema) 0 none :=
  .between (fun hs => by cases hs) (fun hs => by cases hs) rfl rfl

theorem callOf_emissions (pending : Option (SeenCall × List Str)) (index : ℕ) :
    ∀ e ∈ QwenItem.emissionsFrom E index (callOf pending),
      ∃ delta, e = .ofDelta delta ∧ delta.index = index := by
  intro e he
  cases pending with
  | none => cases he
  | some call =>
    simp only [callOf, Option.toList_some, List.map_cons, List.map_nil, QwenItem.emissionsFrom,
      List.append_nil, List.mem_cons, List.mem_map] at he
    rcases he with rfl | ⟨fragment, -, rfl⟩
    · exact ⟨_, rfl, rfl⟩
    · exact ⟨_, rfl, rfl⟩

/-- Items of a run, of which the last may have come with its end. -/
theorem reported_of_advances {texts : List Str} {ending : Option QwenEnd} {items last : List QwenItem}
    {emissions : List QwenXmlEmission} {used : Str} {pending : Option (SeenCall × List Str)}
    {Done : SeenCall → Prop} (hE : NumericValues E)
    (h : Advances E schema Done 0 none used emissions (items ++ last) pending q)
    (hends : ∀ c fragments, QwenItem.call c fragments ∈ items → c.Ends)
    (hlast : ∀ c fragments, QwenItem.call c fragments ∈ last →
      ending = some .finishTruncated ∧ c.CutOff) (hone : last.length ≤ 1)
    (hused : used <+: texts.flatten)
    (hwhole : ending ≠ none → pending = none ∧ used = texts.flatten) :
    Reported E schema texts ending emissions (items ++ last) := by
  have hsource : used = (items ++ last).flatMap QwenItem.source ++
      (callOf pending).flatMap QwenItem.source := by
    rw [← List.flatMap_append]
    exact h.source
  exact {
    text := (List.prefix_append _ _).trans (hsource ▸ hused)
    whole := by
      intro hne
      obtain ⟨rfl, hall⟩ := hwhole hne
      rw [← hall, hsource]
      exact (List.append_nil _).symm
    proper := fun c fragments hin => (h.ended c fragments hin).1
    ends := by
      intro i c fragments hi
      rcases lt_or_ge i items.length with hlt | hge
      · rw [List.getElem?_append_left hlt] at hi
        exact .inl (hends c fragments (List.mem_of_getElem? hi))
      · rw [List.getElem?_append_right hge] at hi
        obtain ⟨hending, hcut⟩ := hlast c fragments (List.mem_of_getElem? hi)
        have hlt := (List.getElem?_eq_some_iff.1 hi).1
        refine .inr ⟨hending, ?_, hcut⟩
        rw [List.length_append]
        omega
    valid := by
      intro c fragments hin
      rw [(h.ended c fragments hin).2.2]
      exact Json.spells_chars (arguments_numeric hE c)
    emitted := by
      refine ⟨QwenItem.emissionsFrom E (QwenItem.calls (items ++ last)) (callOf pending), ?_, ?_,
        callOf_emissions pending _⟩
      · have hemitted := h.emitted
        rw [QwenItem.emissionsFrom_append, Nat.zero_add] at hemitted
        exact hemitted.symm
      · intro hne
        obtain ⟨rfl, -⟩ := hwhole hne
        rfl }

/-- The text of a call says what its arguments print as. -/
theorem callText_inj (name : Str) {v w : Json} :
    QwenXmlToolParser.callText name v = QwenXmlToolParser.callText name w ↔ v.chars = w.chars := by
  have hchars : ∀ v : Json, (Json.object [("name", .string (String.ofList name)),
      ("arguments", v)]).chars =
        '{' :: (Json.charsOfEntry ("name", .string (String.ofList name)) ++
          ',' :: (Json.quote "arguments".toList ++ ':' :: v.chars) ++ ['}']) := by
    intro v
    rw [Json.chars, Json.charsOfEntries_eq, List.map_cons, List.map_cons, List.map_nil, Json.commas,
      Json.commas, Json.charsOfEntry]
    · rfl
    · exact fun h => by cases h
  rw [QwenXmlToolParser.callText, QwenXmlToolParser.callText, hchars, hchars]
  simp

/-- What text mode gets to report is what it is to report, just if the values are read back. -/
theorem asRead_eq_asText_iff : ∀ {items : List QwenItem}, AllRead E schema items →
    (items.flatMap (QwenItem.asRead E schema) = items.flatMap (QwenItem.asText E schema) ↔
      ReadAgain E schema items)
  | [], _ => ⟨fun _ _ _ hin => absurd hin List.not_mem_nil, fun _ => rfl⟩
  | item :: items, h => by
    have hcons : ReadAgain E schema (item :: items) ↔
        ReadAgain E schema [item] ∧ ReadAgain E schema items := by
      constructor
      · exact fun h => ⟨fun c fragments hin => h c fragments (by simp_all),
          fun c fragments hin => h c fragments (List.mem_cons_of_mem _ hin)⟩
      · rintro ⟨h, h'⟩ c fragments hin
        rcases List.mem_cons.1 hin with hin | hin
        · exact h c fragments (hin ▸ List.mem_singleton_self _)
        · exact h' c fragments hin
    have hrest : items.flatMap (QwenItem.asRead E schema) =
        items.flatMap (QwenItem.asText E schema) ↔ ReadAgain E schema items :=
      asRead_eq_asText_iff fun c fragments hin =>
        h c fragments (List.mem_cons_of_mem _ hin)
    rw [hcons, List.flatMap_cons, List.flatMap_cons, ← hrest]
    cases item with
    | shown text =>
      have hnone : ReadAgain E schema [.shown text] := fun c fragments hin => by
        cases List.mem_singleton.1 hin
      simp [QwenItem.asRead, QwenItem.asText, hnone]
    | silent text =>
      have hnone : ReadAgain E schema [.silent text] := fun c fragments hin => by
        cases List.mem_singleton.1 hin
      simp [QwenItem.asRead, QwenItem.asText, hnone]
    | call c fragments =>
      have hread := h c fragments (List.mem_cons_self ..)
      cases hv : E.fromStr (c.arguments E schema).chars with
      | error err =>
        rw [hv] at hread
        cases hread
      | ok v =>
        have hone : ReadAgain E schema [.call c fragments] ↔ v.chars = (c.value E schema).chars := by
          constructor
          · intro hall
            obtain ⟨v', hv', hsame⟩ := hall c fragments (List.mem_singleton_self _)
            obtain rfl := Except.ok.inj (hv.symm.trans hv')
            exact hsame
          · intro hsame c' fragments' hin
            obtain ⟨rfl, rfl⟩ := QwenItem.call.inj (List.mem_singleton.1 hin)
            exact ⟨v, hv, hsame⟩
        rw [hone, ← callText_inj c.name, QwenItem.asRead, QwenItem.asText, hv]
        simp [QwenXmlEmission.ofText]

theorem InText.iff {items : List QwenItem}
    {t : Except BackendError (QwenXmlToolParser × List QwenXmlEmission)}
    (h : InText E schema items q t) :
    t.map (·.2) = .ok (items.flatMap (QwenItem.asText E schema)) ↔ ReadAgain E schema items := by
  rcases h with ⟨hread, rfl⟩ | ⟨hnot, err, rfl⟩
  · rw [← asRead_eq_asText_iff hread]
    exact ⟨fun h => Except.ok.inj h, fun h => congrArg Except.ok h⟩
  · refine ⟨fun h => (by cases h), fun hall => absurd (fun c fragments hin => ?_) hnot⟩
    obtain ⟨v, hv, -⟩ := hall c fragments hin
    rw [hv]
    rfl

theorem run_of_pushAll_error {texts : List Str} {err : BackendError}
    (h : p.pushAll E texts = .error err) (ending : Option QwenEnd) :
    p.run E texts ending = .error err := by
  cases ending with
  | none =>
    rw [QwenXmlToolParser.run, h]
    rfl
  | some ending =>
    rw [QwenXmlToolParser.run, h]
    rfl

theorem run_some_of_pushAll {texts : List Str} {out : List QwenXmlEmission}
    (h : p.pushAll E texts = .ok (q, out)) {ending : QwenEnd} :
    p.run E texts (some ending) = (q.close E ending).map fun r => out ++ r.2 := by
  rw [QwenXmlToolParser.run, h, ok_bind]
  dsimp only
  cases q.close E ending <;> rfl

section End

variable {Done : SeenCall → Prop} {pending pending' : Option (SeenCall × List Str)} {used : Str}
  {out : List QwenXmlEmission} {items : List QwenItem} {ending : QwenEnd}

theorem close_advances {q' : QwenXmlToolParser} {last : List QwenXmlEmission}
    (h : Advances E schema Done index pending used out items pending' q)
    (hwaits : q.process E = .ok none) (hclose : q.close E ending = .ok (q', last)) :
    ∃ items', items'.length ≤ 1 ∧
      Advances E schema (fun c => ending = .finishTruncated ∧ c.CutOff)
        (index + QwenItem.calls items) pending' q.buffer last items' none q' ∧
      InText E schema items' q' (q.inTextMode.close E ending) := by
  cases ending with
  | finish => exact finish_advances h.mode h.known h.tracks hclose
  | finishTruncated =>
    obtain ⟨q'', last', items', hok, hone, hadvances, hin⟩ :=
      finishTruncated_advances h.mode h.known h.tracks hwaits
    obtain ⟨rfl, rfl⟩ := Prod.mk.inj (Except.ok.inj (hok.symm.trans hclose))
    exact ⟨items', hone, hadvances.mono fun c hcut => ⟨rfl, hcut⟩, hin⟩

theorem close_error {err : BackendError}
    (h : Advances E schema Done index pending used out items pending' q)
    (hwaits : q.process E = .ok none) (hclose : q.close E ending = .error err) :
    q.inTextMode.close E ending = .error err := by
  cases ending with
  | finish => exact finish_error hclose
  | finishTruncated =>
    obtain ⟨q'', last', items', hok, -⟩ := finishTruncated_advances h.mode h.known h.tracks hwaits
    cases hok.symm.trans hclose

end End

/-- **What is reported of a run.** Of each call that is reported without an error the fragments
are together a JSON text of the members that were seen, and text mode reports the same just if
the arguments of each call are read again; where there is an error there is one in text mode. -/
theorem qwen_arguments (hE : NumericValues E) (schema : QwenXmlToolSchema) (texts : List Str)
    (ending : Option QwenEnd) :
    match (QwenXmlToolParser.new true schema).run E texts ending with
    | .ok emissions => ∃ items, Reported E schema texts ending emissions items ∧
        ((QwenXmlToolParser.new false schema).run E texts ending =
          .ok (items.flatMap (QwenItem.asText E schema)) ↔ ReadAgain E schema items)
    | .error _ => ∃ err, (QwenXmlToolParser.new false schema).run E texts ending = .error err := by
  rw [← QwenXmlToolParser.inTextMode_new]
  have htracks := new_tracks (E := E) schema
  have hschema : (QwenXmlToolParser.new true schema).schema = schema := rfl
  cases hpush : (QwenXmlToolParser.new true schema).pushAll E texts with
  | error err =>
    obtain ⟨err', herr⟩ := pushAll_error rfl hschema htracks hpush
    rw [run_of_pushAll_error hpush]
    exact ⟨err', run_of_pushAll_error herr ending⟩
  | ok r =>
    obtain ⟨q, out⟩ := r
    obtain ⟨used, items, pending, hbuffer, hadvances, hin, hwaits⟩ :=
      pushAll_advances rfl hschema htracks (new_waits schema) hpush
    have htexts : texts.flatten = used ++ q.buffer := hbuffer
    cases ending with
    | none =>
      rw [QwenXmlToolParser.run, hpush]
      have hall := hadvances
      rw [← List.append_nil items] at hall
      have hreported := @reported_of_advances E schema q texts none items [] out used pending _ hE hall
        (fun c fragments hc => (hadvances.ended c fragments hc).2.1) (fun _ _ hc => by cases hc)
        (Nat.zero_le 1) (htexts ▸ List.prefix_append used _) (fun hne => absurd rfl hne)
      rw [List.append_nil] at hreported
      exact ⟨items, hreported, hin.iff⟩
    | some ending =>
      cases hclose : q.close E ending with
      | error err =>
        rw [run_some_of_pushAll hpush, hclose]
        rcases hin with ⟨-, hok⟩ | ⟨-, err', herr⟩
        · rw [run_some_of_pushAll hok, close_error hadvances hwaits hclose]
          exact ⟨err, rfl⟩
        · exact ⟨err', run_of_pushAll_error herr _⟩
      | ok r =>
        obtain ⟨q', last⟩ := r
        obtain ⟨items', hone, hadvances', hin'⟩ := close_advances hadvances hwaits hclose
        have hall := (hadvances.mono fun c => Or.inl).trans
          (hadvances'.mono fun c (hdone : ending = .finishTruncated ∧ c.CutOff) =>
            (Or.inr hdone : c.Ends ∨ _))
        have hreported := @reported_of_advances E schema q' texts (some ending) items items' _ _ none _ hE hall
          (fun c fragments hc => (hadvances.ended c fragments hc).2.1)
          (fun c fragments hc => by
            obtain ⟨hending, hcut⟩ := (hadvances'.ended c fragments hc).2.1
            exact ⟨congrArg some hending, hcut⟩)
          hone (htexts ▸ List.prefix_refl _) (fun _ => ⟨rfl, htexts.symm⟩)
        rw [run_some_of_pushAll hpush, hclose]
        refine ⟨items ++ items', hreported, ?_⟩
        have hiff := (hin.next (k := fun q => q.close E ending) rfl hin').iff
        rw [← hiff, QwenXmlToolParser.run]
        cases (QwenXmlToolParser.new true schema).inTextMode.pushAll E texts with
        | error err => rfl
        | ok r =>
          rw [ok_bind, ok_bind]
          dsimp only
          cases r.1.close E ending <;> rfl

/-! ### A value nested to the limit -/

/-- An array in an array, and so on. -/
def nestedArray : ℕ → Json
  | 0 => .array []
  | n + 1 => .array [nestedArray n]

theorem nestedArray_numeric : ∀ n, (nestedArray n).Numeric
  | 0 => trivial
  | n + 1 => ⟨nestedArray_numeric n, trivial⟩

/-- A reader of values that are nested at most 127 deep, as far as this one, and of objects of
strings. -/
def nestedReader : Env where
  fromStr text :=
    if text = (nestedArray 126).chars then .ok (nestedArray 126)
    else
      match Json.parseValue 127 text with
      | some (.object entries, []) =>
        if entries.all (·.2.asStr.isSome) ∧ (entries.map (·.1)).Nodup then .ok (.object entries)
        else .error "expected value at line 1 column 1".toList
      | _ => .error "recursion limit exceeded at line 1 column 133".toList
  stringFromStr _ := .error "expected value at line 1 column 1".toList
  generatedToolCallId _ := "call_0".toList

theorem nestedReader_numeric : NumericValues nestedReader := by
  intro text v hread
  unfold nestedReader at hread
  dsimp only at hread
  split at hread
  · obtain rfl := Except.ok.inj hread
    exact nestedArray_numeric 126
  · split at hread
    · split at hread
      · next hstrings =>
        obtain rfl := Except.ok.inj hread
        rw [Json.Numeric, Json.numericEntries_iff]
        intro entry hentry
        have hstring := List.all_eq_true.1 hstrings.1 entry hentry
        cases hvalue : entry.2 with
        | string s => trivial
        | _ =>
          rw [hvalue] at hstring
          cases hstring
      · cases hread
    · cases hread

def nestedSchema : QwenXmlToolSchema := ⟨[("f", [("k", .json)])]⟩

def nestedText : Str :=
  "<tool_call><function=f><parameter=k>".toList ++ (nestedArray 126).chars ++
    "</parameter></function></tool_call>".toList

/-- A call that is cut off in the text of its second string, and what text mode makes of it. -/
theorem arguments_cut_off : ∃ items,
    Reported nestedReader nestedSchema ["<tool_call><function=record><parameter=path>a</parameter>".toList,
      "<parameter=name>Car".toList, "go</pa".toList] (some .finishTruncated)
      [.ofDelta (headerDelta nestedReader 0 "record".toList),
        .ofDelta (fragmentDelta 0 "\x7b\"path\":\"".toList),
        .ofDelta (fragmentDelta 0 "a\"".toList), .ofDelta (fragmentDelta 0 ",\"name\":\"".toList),
        .ofDelta (fragmentDelta 0 "Car".toList), .ofDelta (fragmentDelta 0 "go".toList),
        .ofDelta (fragmentDelta 0 "</pa\"".toList), .ofDelta (fragmentDelta 0 "\x7d".toList)]
      items ∧
    ((QwenXmlToolParser.new false nestedSchema).run nestedReader
        ["<tool_call><function=record><parameter=path>a</parameter>".toList,
          "<parameter=name>Car".toList, "go</pa".toList] (some .finishTruncated) =
      .ok (items.flatMap (QwenItem.asText nestedReader nestedSchema)) ↔
        ReadAgain nestedReader nestedSchema items) ∧
    (QwenXmlToolParser.new false nestedSchema).run nestedReader
        ["<tool_call><function=record><parameter=path>a</parameter>".toList,
          "<parameter=name>Car".toList, "go</pa".toList] (some .finishTruncated) =
      .ok [.ofText "<tool_call>\x7b\"name\":\"record\",\"arguments\":\x7b\"path\":\"a\",\"name\":\"Cargo</pa\"\x7d\x7d</tool_call>".toList] := by
  have hrun : (QwenXmlToolParser.new true nestedSchema).run nestedReader
      ["<tool_call><function=record><parameter=path>a</parameter>".toList,
        "<parameter=name>Car".toList, "go</pa".toList]
      (some .finishTruncated) = .ok
      [.ofDelta (headerDelta nestedReader 0 "record".toList),
        .ofDelta (fragmentDelta 0 "\x7b\"path\":\"".toList),
        .ofDelta (fragmentDelta 0 "a\"".toList), .ofDelta (fragmentDelta 0 ",\"name\":\"".toList),
        .ofDelta (fragmentDelta 0 "Car".toList), .ofDelta (fragmentDelta 0 "go".toList),
        .ofDelta (fragmentDelta 0 "</pa\"".toList), .ofDelta (fragmentDelta 0 "\x7d".toList)] := by
    decide +kernel
  have h := qwen_arguments nestedReader_numeric nestedSchema
    ["<tool_call><function=record><parameter=path>a</parameter>".toList,
      "<parameter=name>Car".toList, "go</pa".toList] (some .finishTruncated)
  rw [hrun] at h
  obtain ⟨items, hreported, hiff⟩ := h
  exact ⟨items, hreported, hiff, by decide +kernel⟩

/-- The parser reports a value that is nested as deep as can be read, and text mode fails at the
object around it. -/
theorem nested_arguments_refused :
    ∃ emissions, (QwenXmlToolParser.new true nestedSchema).run nestedReader [nestedText]
        (some .finish) = .ok emissions ∧
      ¬∃ items, Reported nestedReader nestedSchema [nestedText] (some .finish) emissions items ∧
        (QwenXmlToolParser.new false nestedSchema).run nestedReader [nestedText] (some .finish) =
          .ok (items.flatMap (QwenItem.asText nestedReader nestedSchema)) := by
  have hok : ((QwenXmlToolParser.new true nestedSchema).run nestedReader [nestedText]
      (some .finish)).isOk = true := by
    decide +kernel
  have hfails : ((QwenXmlToolParser.new false nestedSchema).run nestedReader [nestedText]
      (some .finish)).isOk = false := by
    decide +kernel
  cases hrun : (QwenXmlToolParser.new true nestedSchema).run nestedReader [nestedText]
      (some .finish) with
  | error err =>
    rw [hrun] at hok
    cases hok
  | ok emissions =>
    refine ⟨emissions, rfl, ?_⟩
    rintro ⟨items, -, htext⟩
    rw [htext] at hfails
    cases hfails

end KirAi.Mlx
