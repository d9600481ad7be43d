/-
# The steps of the parser for Qwen's XML tool calls

In a call a step opens a parameter, takes more of its text, closes it, or closes the call. Each
adds a fragment to the arguments such that they are again the text of the members that were
seen, up to what is still open (`openParameter_moves`, `pushValue_moves`, `closeParameter_moves`,
`closeFunction_advances`). So every step accounts for what it uses and emits, and in text mode
the same items end, until one has arguments that are not read again (`process_advances`).

Key definitions: `addFragment`, `InText`.
Key theorems: `finishParameter_value`, `closeFunction_advances`, `process_advances`.
-/
import KirAi.Mlx.QwenTracks

namespace KirAi.Mlx

open Lib Lib.Text
open KirAi.Runtime (Str isWhitespace trim)
open KirAi.ToolParser (Env startsWith)

variable {E : Env} {schema : QwenXmlToolSchema} {p q : QwenXmlToolParser} {index : ℕ}

/-! ### In a call -/

/-- Fragments are not empty. -/
def addFragment (fragments : List Str) (fragment : Str) : List Str :=
  if fragment.isEmpty then fragments else fragments ++ [fragment]

@[simp] theorem addFragment_nil (fragments : List Str) : addFragment fragments [] = fragments := rfl

theorem addFragment_flatten (fragments : List Str) (fragment : Str) :
    (addFragment fragments fragment).flatten = fragments.flatten ++ fragment := by
  cases fragment with
  | nil => exact (List.append_nil _).symm
  | cons ch fragment =>
    show (fragments ++ [ch :: fragment]).flatten = _
    rw [List.flatten_append, List.flatten_singleton]

theorem emissionsFrom_addFragment {c c' : SeenCall} (hname : c'.name = c.name) (index : ℕ)
    (fragments : List Str) (fragment : Str) :
    QwenItem.emissionsFrom E index [.call c' (addFragment fragments fragment)] =
      QwenItem.emissionsFrom E index [.call c fragments] ++
        QwenXmlToolParser.fragmentEmissions index fragment := by
  rw [QwenItem.emissionsFrom, hname]
  cases fragment with
  | nil => simp [QwenItem.emissionsFrom, QwenXmlToolParser.fragmentEmissions]
  | cons ch fragment =>
    simp [QwenItem.emissionsFrom, QwenXmlToolParser.fragmentEmissions, addFragment]

theorem shownOnly_fragmentEmissions (index : ℕ) (fragment : Str) :
    shownOnly (QwenXmlToolParser.fragmentEmissions index fragment) = [] := by
  cases fragment <;> rfl

theorem moves_call {c c' : SeenCall} {fragments : List Str} {fragment used : Str}
    (hmode : q.structuredDeltas = true) (hschema : q.schema = schema)
    (h : Tracks E schema q index (some (c', addFragment fragments fragment))) (hne : used ≠ [])
    (hbuffer : p.buffer = used ++ q.buffer) (hsource : c.source ++ used = c'.source)
    (hname : c'.name = c.name) : Moves E schema p index (some (c, fragments))
      (q, QwenXmlToolParser.fragmentEmissions index fragment) := by
  refine ⟨used, [], some (c', addFragment fragments fragment), hne, hbuffer,
    .of_none hmode hschema rfl h ?_ (emissionsFrom_addFragment hname index fragments fragment),
    allRead_of_none rfl, shownOnly_fragmentEmissions index fragment⟩
  simpa [callOf, QwenItem.source] using hsource

/-- The key and, of a string, its opening quote. -/
def openFragment (schema : QwenXmlToolSchema) (function : Str) (n : ℕ) (key : Str) : Str :=
  match schema.parameterKind function key with
  | .string => keyText n key ++ ['"']
  | .json => []

theorem startParameter_eq {call : QwenXmlActiveCall} (hmode : p.structuredDeltas = true)
    (hcall : p.currentCall = some call) (key : Str) : p.startParameter key =
      .ok ({ p with
        currentCall := some { call with
          argumentCount := call.argumentCount + 1
          argumentsJson := call.argumentsJson ++
            openFragment p.schema call.name call.argumentCount key }
        currentParameter := some {
          key
          keyText := keyText call.argumentCount key
          kind := p.schema.parameterKind call.name key
          value := [] } },
        QwenXmlToolParser.fragmentEmissions call.index
          (openFragment p.schema call.name call.argumentCount key)) := by
  rw [QwenXmlToolParser.startParameter, hcall]
  dsimp only
  unfold openFragment
  cases p.schema.parameterKind call.name key with
  | json => simp [QwenXmlActiveCall.nextParameterPrefix, keyText,
      QwenXmlToolParser.fragmentEmissions]
  | string =>
    have hpush := QwenXmlToolParser.pushArgumentFragment_structured
      (p := { p with currentCall := some (call.nextParameterPrefix key).1 }) hmode rfl
      ((call.nextParameterPrefix key).2 ++ ['"'])
    dsimp only
    rw [hpush, ok_bind]
    rfl

theorem openParameter_moves {c : SeenCall} {fragments : List Str}
    {r : QwenXmlToolParser × List QwenXmlEmission} (hmode : p.structuredDeltas = true)
    (hschema : p.schema = schema) (h : InFunction E schema p index c fragments)
    (hstart : startsWith p.buffer qwenXmlParameterStart = true)
    (hstep : p.openParameter = .ok (some r)) :
    Moves E schema p index (some (c, fragments)) r := by
  unfold QwenXmlToolParser.openParameter at hstep
  split at hstep
  · cases hstep
  next key rest htag =>
  obtain ⟨hbuffer, hkey⟩ := tagArgument_eq_some (by decide) hstart htag
  split at hstep
  · cases hstep
  next hnamed =>
  rw [startParameter_eq (p := { p with buffer := rest }) hmode h.call, ok_bind] at hstep
  obtain rfl := Option.some.inj (Except.ok.inj hstep)
  have hnew : SeenParameter.Proper ⟨c.rest, key, []⟩ :=
    ⟨h.space, hkey, Bool.eq_false_iff.2 hnamed,
      fun hin => absurd (List.infix_nil.1 hin) (by decide)⟩
  have hseen : c.seen = c.parameters := by
    rw [SeenCall.seen, h.uncut, Option.toList_none, List.append_nil]
  have hsource : c.source ++ (qwenXmlParameterStart ++ (key ++ ['>'])) =
      ({ c with cut := some ⟨c.rest, key, []⟩, rest := [] } : SeenCall).source := by
    simp [SeenCall.source, SeenParameter.openedSource, h.uncut]
  have hne : qwenXmlParameterStart ++ (key ++ ['>']) ≠ [] :=
    fun hnil => absurd (List.append_eq_nil_iff.1 hnil).1 (by decide)
  have hused : p.buffer = qwenXmlParameterStart ++ (key ++ ['>']) ++ rest :=
    hbuffer.trans (by simp)
  refine moves_call hmode hschema (.inParameter (s := ⟨c.rest, key, []⟩) ?_) hne hused hsource rfl
  exact {
    state := rfl
    proper := {
      name := h.proper.name
      named := h.proper.named
      values := h.proper.values
      parameters := by
        intro s hs
        rcases List.mem_append.1 hs with hs | hs
        · exact h.proper.parameters s (hseen ▸ hs)
        · obtain rfl := List.mem_singleton.1 hs
          exact hnew }
    cut := rfl
    rest := rfl
    settled := fun z hz hsuffix => absurd (List.suffix_nil.1 hsuffix) hz
    call := by rw [addFragment_flatten]
    parameter := by
      rw [activeParameter, hschema]
      cases schema.parameterKind c.name key <;> rfl
    written := by
      rw [addFragment_flatten, h.written, openedValue, openFragment, hschema]
      cases schema.parameterKind c.name key <;> rfl
    next := h.next }

theorem inFunction_moves {c : SeenCall} {fragments : List Str}
    {r : QwenXmlToolParser × List QwenXmlEmission} (hmode : p.structuredDeltas = true)
    (hschema : p.schema = schema) (h : InFunction E schema p index c fragments) (hnot : ¬p.Closes)
    (hstep : p.processInFunction E = .ok (some r)) :
    Moves E schema p index (some (c, fragments)) r := by
  unfold QwenXmlToolParser.processInFunction at hstep
  split at hstep
  · next q hspace =>
    obtain rfl := Option.some.inj (Except.ok.inj hstep)
    obtain ⟨w, rest, hne, hw, hbuffer, rfl⟩ := drainLeadingWhitespace_eq_some hspace
    have hsource : c.source ++ w = ({ c with rest := c.rest ++ w } : SeenCall).source := by
      simp [SeenCall.source]
    have hspaces : ∀ ch ∈ c.rest ++ w, isWhitespace ch = true := by
      intro ch hch
      rcases List.mem_append.1 hch with hch | hch
      · exact h.space ch hch
      · exact hw ch hch
    have htracks : InFunction E schema { p with buffer := rest } index
        { c with rest := c.rest ++ w } (addFragment fragments []) := {
      state := h.state
      proper := ⟨h.proper.name, h.proper.named, h.proper.parameters, h.proper.values⟩
      uncut := h.uncut
      space := hspaces
      call := h.call
      written := h.written
      next := h.next }
    show Moves E schema p index _ (_, QwenXmlToolParser.fragmentEmissions index [])
    exact moves_call hmode hschema (.inFunction htracks) hne hbuffer hsource rfl
  next hspace =>
  split at hstep
  · cases hstep
  next hwhole =>
  split at hstep
  · next hstart => exact openParameter_moves hmode hschema h hstart hstep
  next hother =>
  split at hstep
  · next hclose => exact absurd ⟨h.state, hspace, hwhole, hother, hclose⟩ hnot
  · cases hstep

/-! ### In a parameter -/

/-- The parameter with more of its text. -/
def SeenParameter.grow (s : SeenParameter) (x : Str) : SeenParameter := { s with text := s.text ++ x }

theorem openedText_closed {c : SeenCall} {s : SeenParameter} {v : Json} (hproper : c.Proper E schema)
    (hvalue : s.value E schema c.name = some v) :
    openedText (closedMembers E schema (c.close s)) =
      openedText (closedMembers E schema c) ++ (keyText c.parameters.length s.key ++ v.chars) := by
  rw [closedMembers_close hvalue, openedText_concat, length_closedMembers hproper.values]

/-- More of the text of a parameter, without its close tag. -/
theorem InParameter.grow_proper {c : SeenCall} {s : SeenParameter} {fragments : List Str}
    (h : InParameter E schema p index c s fragments) {x : Str}
    (hfree : ¬qwenXmlParameterEnd <:+: s.text ++ x) : (s.grow x).Proper := by
  have hs := h.proper.parameters s (by rw [SeenCall.seen, h.cut]; simp)
  exact ⟨hs.space, hs.key, hs.named, hfree⟩

theorem Settled.free_of_tag {tags : List Str} {x y tag : Str} (h : Settled tags x y)
    (htag : tag ∈ tags) (hne : tag ≠ []) : ¬tag <:+: x := by
  rintro ⟨u, v, rfl⟩
  refine (h (tag ++ v) (fun hnil => hne (List.append_eq_nil_iff.1 hnil).1)
    ⟨u, (List.append_assoc ..).symm⟩ tag htag).1 ?_
  rw [List.append_assoc]
  exact List.prefix_append tag _

theorem pushValue_string {parameter : QwenXmlActiveParameter}
    (hparameter : p.currentParameter = some parameter) (hkind : parameter.kind = .string)
    (value : Str) : p.pushValue value = p.pushArgumentFragment (escapeJsonStringFragment value) := by
  rw [QwenXmlToolParser.pushValue, hparameter]
  dsimp only
  rw [hkind]

theorem pushValue_json {parameter : QwenXmlActiveParameter}
    (hparameter : p.currentParameter = some parameter) (hkind : parameter.kind = .json)
    (value : Str) : p.pushValue value = .ok ({ p with
      currentParameter := some { parameter with value := parameter.value ++ value } }, []) := by
  rw [QwenXmlToolParser.pushValue, hparameter]
  dsimp only
  rw [hkind]

/-- The parameter goes on. -/
theorem pushValue_moves {c : SeenCall} {s : SeenParameter} {fragments : List Str} {x y : Str}
    {r : QwenXmlToolParser × List QwenXmlEmission} (hmode : p.structuredDeltas = true)
    (hschema : p.schema = schema) (h : InParameter E schema p index c s fragments)
    (hbuffer : p.buffer = x ++ y) (hne : x ≠ []) (hsettled : Settled [qwenXmlParameterEnd] x y)
    (hstep : QwenXmlToolParser.pushValue { p with buffer := y } x = .ok r) :
    Moves E schema p index (some (c, fragments)) r := by
  have hgrown : Settled [qwenXmlParameterEnd] (s.text ++ x) y :=
    (hbuffer ▸ h.settled).concat hsettled
  have hnew := h.grow_proper (Settled.free_of_tag hgrown (List.mem_singleton_self _) (by decide))
  have hproper : ({ c with cut := some (s.grow x) } : SeenCall).Proper E schema := {
    name := h.proper.name
    named := h.proper.named
    values := h.proper.values
    parameters := by
      intro s' hs'
      rcases List.mem_append.1 hs' with hs' | hs'
      · exact h.proper.parameters s' (List.mem_append_left _ hs')
      · obtain rfl := List.mem_singleton.1 hs'
        exact hnew }
  have hsource : c.source ++ x = ({ c with cut := some (s.grow x) } : SeenCall).source := by
    simp [SeenCall.source, SeenParameter.openedSource, SeenParameter.grow, h.cut, h.rest]
  cases hkind : schema.parameterKind c.name s.key with
  | string =>
    have hactive : activeParameter schema c (s.grow x) = activeParameter schema c s := by
      simp only [activeParameter, SeenParameter.grow, hkind]
    rw [pushValue_string (p := { p with buffer := y }) h.parameter hkind,
      QwenXmlToolParser.pushArgumentFragment_structured
        (p := { p with buffer := y }) hmode h.call] at hstep
    obtain rfl := Except.ok.inj hstep
    refine moves_call hmode hschema (.inParameter (s := s.grow x) ?_) hne hbuffer hsource rfl
    exact {
      state := h.state
      proper := hproper
      cut := rfl
      rest := h.rest
      settled := hgrown
      call := by
        rw [addFragment_flatten]
        rfl
      parameter := h.parameter.trans (congrArg some hactive.symm)
      written := by
        rw [addFragment_flatten, h.written]
        simp only [openedValue, SeenParameter.grow, hkind, escapeJsonStringFragment, Json.escape,
          List.flatMap_append, List.append_assoc, List.cons_append]
        rfl
      next := h.next }
  | json =>
    have hactive : activeParameter schema c (s.grow x) =
        { activeParameter schema c s with value := s.text ++ x } := by
      simp only [activeParameter, SeenParameter.grow, hkind]
    have hvalue : (activeParameter schema c s).value = s.text := by
      simp only [activeParameter, hkind]
    rw [pushValue_json (p := { p with buffer := y }) h.parameter hkind] at hstep
    obtain rfl := Except.ok.inj hstep
    have htracks : InParameter E schema { p with
        buffer := y
        currentParameter := some { activeParameter schema c s with
          value := (activeParameter schema c s).value ++ x } } index
        { c with cut := some (s.grow x) } (s.grow x) (addFragment fragments []) := {
      state := h.state
      proper := hproper
      cut := rfl
      rest := h.rest
      settled := hgrown
      call := h.call
      parameter := by
        rw [hvalue]
        exact congrArg some hactive.symm
      written := by
        rw [addFragment_nil, h.written]
        simp only [openedValue, SeenParameter.grow, hkind]
        rfl
      next := h.next }
    show Moves E schema p index _ (_, QwenXmlToolParser.fragmentEmissions index [])
    exact moves_call hmode hschema (.inParameter htracks) hne hbuffer hsource rfl

/-- The value of a parameter that ends is written, if it has one. -/
theorem finishParameter_value {c : SeenCall} {s : SeenParameter} {call : QwenXmlActiveCall}
    {v : Json} (hmode : q.structuredDeltas = true) (hcall : q.currentCall = some call)
    (hparameter : q.currentParameter = some (activeParameter schema c s)) (piece : Str)
    (hvalue : (s.grow piece).value E schema c.name = some v) :
    ∃ fragment, q.finishParameter E piece =
        .ok (QwenXmlToolParser.withArguments { q with currentParameter := none } call fragment,
          QwenXmlToolParser.fragmentEmissions call.index fragment) ∧
      openedValue schema c s ++ fragment = keyText c.parameters.length s.key ++ v.chars := by
  rw [SeenParameter.value, show (s.grow piece).key = s.key from rfl] at hvalue
  have hpush := QwenXmlToolParser.pushArgumentFragment_structured
    (p := { q with currentParameter := none }) hmode hcall
  rw [QwenXmlToolParser.finishParameter, hparameter]
  simp only [activeParameter, openedValue]
  cases hkind : schema.parameterKind c.name s.key with
  | string =>
    rw [hkind] at hvalue
    obtain rfl := Option.some.inj hvalue
    refine ⟨escapeJsonStringFragment piece ++ ['"'], hpush _, ?_⟩
    simp [Json.chars, Json.quote, escapeJsonStringFragment, Json.escape, SeenParameter.grow]
  | json =>
    rw [hkind] at hvalue
    dsimp only at hvalue
    cases hread : E.fromStr (trim (s.grow piece).text) with
    | error err =>
      rw [hread] at hvalue
      cases hvalue
    | ok value =>
      rw [hread] at hvalue
      obtain rfl := Option.some.inj hvalue
      refine ⟨keyText c.parameters.length s.key ++ value.chars, ?_, rfl⟩
      rw [show trim (s.text ++ piece) = trim (s.grow piece).text from rfl, hread]
      exact hpush _

/-- A parameter without a value is an error. -/
theorem finishParameter_none {c : SeenCall} {s : SeenParameter}
    (hparameter : q.currentParameter = some (activeParameter schema c s)) (piece : Str)
    (hvalue : (s.grow piece).value E schema c.name = none) :
    ∃ err, q.finishParameter E piece = .error err := by
  rw [SeenParameter.value, show (s.grow piece).key = s.key from rfl] at hvalue
  rw [QwenXmlToolParser.finishParameter, hparameter]
  simp only [activeParameter]
  cases hkind : schema.parameterKind c.name s.key with
  | string =>
    rw [hkind] at hvalue
    cases hvalue
  | json =>
    rw [hkind] at hvalue
    dsimp only at hvalue
    rw [show trim (s.text ++ piece) = trim (s.grow piece).text from rfl]
    cases hread : E.fromStr (trim (s.grow piece).text) with
    | error err => exact ⟨_, rfl⟩
    | ok value =>
      rw [hread] at hvalue
      cases hvalue

theorem close_proper {c : SeenCall} {s : SeenParameter} {v : Json} (hproper : c.Proper E schema)
    (hs : s.Proper) (hvalue : s.value E schema c.name = some v) :
    (c.close s).Proper E schema where
  name := hproper.name
  named := hproper.named
  parameters := by
    intro s' hs'
    rw [SeenCall.seen, SeenCall.close, Option.toList_none, List.append_nil] at hs'
    rcases List.mem_append.1 hs' with hs' | hs'
    · exact hproper.parameters s' (List.mem_append_left _ hs')
    · obtain rfl := List.mem_singleton.1 hs'
      exact hs
  values := by
    intro s' hs'
    rcases List.mem_append.1 hs' with hs' | hs'
    · exact hproper.values s' hs'
    · obtain rfl := List.mem_singleton.1 hs'
      exact Option.isSome_iff_exists.2 ⟨v, hvalue⟩

/-- The parameter ends with its close tag. -/
theorem closeParameter_moves {c : SeenCall} {s : SeenParameter} {fragments : List Str} {u v : Str}
    {r : QwenXmlToolParser × List QwenXmlEmission} (hmode : p.structuredDeltas = true)
    (hschema : p.schema = schema) (h : InParameter E schema p index c s fragments)
    (hfind : find qwenXmlParameterEnd p.buffer = some (len u))
    (hbuffer : p.buffer = u ++ qwenXmlParameterEnd ++ v)
    (hstep : QwenXmlToolParser.finishParameter E { p with buffer := v } u = .ok r) :
    Moves E schema p index (some (c, fragments)) ({ r.1 with state := .inFunction }, r.2) := by
  have hfree : ¬qwenXmlParameterEnd <:+: s.text ++ u := by
    have hall := h.settled.find_eq (List.mem_singleton_self qwenXmlParameterEnd)
    rw [hfind, Option.map_some, ← len_append, hbuffer, List.append_assoc, ← List.append_assoc,
      ← List.append_assoc] at hall
    exact (find_append_iff (c := '<') rfl (by decide)).1 hall
  cases hvalue : (s.grow u).value E schema c.name with
  | none =>
    obtain ⟨err, herr⟩ := finishParameter_none (q := { p with buffer := v }) h.parameter u hvalue
    rw [herr] at hstep
    cases hstep
  | some value =>
    obtain ⟨fragment, hok, hwritten⟩ := finishParameter_value (q := { p with buffer := v }) hmode
      h.call h.parameter u hvalue
    rw [hok] at hstep
    obtain rfl := Except.ok.inj hstep
    have hsource : c.source ++ (u ++ qwenXmlParameterEnd) = (c.close (s.grow u)).source := by
      simp [SeenCall.source, SeenCall.close, SeenParameter.source, SeenParameter.openedSource,
        SeenParameter.grow, h.cut, h.rest]
    have hne : u ++ qwenXmlParameterEnd ≠ [] := fun hnil =>
      absurd (List.append_eq_nil_iff.1 hnil).2 (by decide)
    refine moves_call hmode hschema (.inFunction ?_) hne hbuffer hsource rfl
    exact {
      state := rfl
      proper := close_proper h.proper (h.grow_proper hfree) hvalue
      uncut := rfl
      space := fun _ hin => absurd hin List.not_mem_nil
      call := by
        rw [addFragment_flatten]
        show some _ = some _
        rw [SeenCall.close, List.length_append, List.length_singleton]
      written := by
        rw [addFragment_flatten, h.written, List.append_assoc, hwritten]
        exact (openedText_closed h.proper hvalue).symm
      next := h.next }

theorem inParameter_moves {c : SeenCall} {s : SeenParameter} {fragments : List Str}
    {r : QwenXmlToolParser × List QwenXmlEmission} (hmode : p.structuredDeltas = true)
    (hschema : p.schema = schema) (h : InParameter E schema p index c s fragments)
    (hstep : p.processInParameter E = .ok (some r)) :
    Moves E schema p index (some (c, fragments)) r := by
  unfold QwenXmlToolParser.processInParameter at hstep
  split at hstep
  · next n hfind =>
    obtain ⟨u, v, hbuffer, rfl, -⟩ := exists_cut hfind
    have htake : takeTo p.buffer (len u) = u := by
      rw [hbuffer, List.append_assoc, takeTo_append]
    have hdrop : dropTo p.buffer (len u + len qwenXmlParameterEnd) = v := by
      rw [hbuffer, ← len_append, dropTo_append]
    dsimp only at hstep
    rw [htake, hdrop] at hstep
    obtain ⟨r', hfinish, hpure⟩ := bind_eq_ok.1 hstep
    obtain rfl := Option.some.inj (Except.ok.inj hpure)
    exact closeParameter_moves hmode hschema h hfind hbuffer hfinish
  · next hfind =>
    dsimp only at hstep
    split at hstep
    · cases hstep
    next hemit =>
    obtain ⟨x, y, hbuffer, hlen, hwithholds⟩ := pendingTag_split qwenXmlParameterEnd p.buffer
    have hx : len p.buffer - pendingTagPrefixLen p.buffer qwenXmlParameterEnd = len x := by
      rw [← hlen, hbuffer, len_append, Nat.add_sub_cancel]
    have htake : takeTo p.buffer (len x) = x := by rw [hbuffer, takeTo_append]
    have hdrop : dropTo p.buffer (len x) = y := by rw [hbuffer, dropTo_append]
    rw [hx] at hemit hstep
    rw [htake, hdrop] at hstep
    obtain ⟨r', hpush, hpure⟩ := bind_eq_ok.1 hstep
    obtain rfl := Option.some.inj (Except.ok.inj hpure)
    have hne : x ≠ [] := fun hnil => hemit (by rw [hnil, len_nil])
    have hsettled : Settled [qwenXmlParameterEnd] x y := by
      obtain ⟨x', y', hsplit, hlen', hsettled⟩ := hwithholds.settled fun tag htag => by
        obtain rfl := List.mem_singleton.1 htag
        exact find_eq_none_iff_infix.1 hfind
      have hpair := append_inj_of_len (hbuffer.symm.trans hsplit)
        (by
          have htotal := congrArg len (hbuffer.symm.trans hsplit)
          rw [len_append, len_append] at htotal
          omega)
      rwa [hpair.1, hpair.2]
    exact pushValue_moves hmode hschema h hbuffer hne hsettled hpush

/-! ### The end of a call -/

/-- A call ends where its fragments are the text of its arguments. -/
theorem Advances.of_call {Done : SeenCall → Prop} {c c' : SeenCall} {fragments fragments' : List Str}
    {used : Str} {out : List QwenXmlEmission} (hmode : q.structuredDeltas = true)
    (hschema : q.schema = schema) (h : Tracks E schema q (index + 1) none)
    (hemitted : QwenItem.emissionsFrom E index [.call c' fragments'] =
      QwenItem.emissionsFrom E index [.call c fragments] ++ out)
    (hflatten : fragments'.flatten = (c'.arguments E schema).chars)
    (hproper : c'.Proper E schema) (hdone : Done c') (hsource : c.source ++ used = c'.source) :
    Advances E schema Done index (some (c, fragments)) used out [.call c' fragments'] none q where
  mode := hmode
  known := hschema
  tracks := h
  source := by simpa [callOf, QwenItem.source] using hsource
  emitted := hemitted
  ended := by
    intro c'' fragments'' hin
    obtain ⟨rfl, rfl⟩ := QwenItem.call.inj (List.mem_singleton.1 hin)
    exact ⟨hproper, hdone, hflatten⟩

theorem InFunction.argumentsText {c : SeenCall} {fragments : List Str}
    (h : InFunction E schema p index c fragments) (rest : Str) :
    fragments.flatten ++ QwenXmlToolParser.argumentClose
        ⟨index, c.name, c.parameters.length, fragments.flatten⟩ =
      (({ c with rest } : SeenCall).arguments E schema).chars := by
  have hmembers : ({ c with rest } : SeenCall).members E schema = closedMembers E schema c :=
    members_of_uncut h.uncut
  rw [SeenCall.arguments, hmembers, ← openedText_close, length_closedMembers h.proper.values,
    h.written]
  rfl

/-- A function is closed by its tag. -/
theorem closeFunction_advances {c : SeenCall} {fragments : List Str}
    (hmode : p.structuredDeltas = true) (hschema : p.schema = schema)
    (h : InFunction E schema p index c fragments) (hclose : p.Closes) :
    ∃ q out c' fragments', p.closeFunction E = .ok (some (q, out)) ∧
      p.buffer = qwenXmlFunctionEnd ++ q.buffer ∧
      Advances E schema SeenCall.Ends index (some (c, fragments)) qwenXmlFunctionEnd out
        [.call c' fragments'] none q ∧
      p.inTextMode.closeFunction E =
        match E.fromStr (c'.arguments E schema).chars with
        | .ok arguments => .ok (some (q.inTextMode,
            [.ofText (QwenXmlToolParser.callText c'.name arguments)]))
        | .error err => qwenXmlError
            ("assembled function arguments were not valid JSON: ".toList ++ err) := by
  obtain ⟨rest, hbuffer⟩ := startsWith_iff.1 hclose.close
  have hdrop : dropTo p.buffer (len qwenXmlFunctionEnd) = rest := by rw [hbuffer, dropTo_append]
  have htext := h.argumentsText (c.rest ++ qwenXmlFunctionEnd)
  have hfinish := QwenXmlToolParser.finishFunction_structured (p := { p with buffer := rest }) E
    hmode h.call
  have hfinish' := QwenXmlToolParser.finishFunction_inTextMode (p := { p with buffer := rest }) E
    h.call
  rw [htext] at hfinish'
  refine ⟨{ QwenXmlToolParser.callClosed { p with buffer := rest } with state := .expectToolClose },
    QwenXmlToolParser.fragmentEmissions index (QwenXmlToolParser.argumentClose
      ⟨index, c.name, c.parameters.length, fragments.flatten⟩),
    { c with rest := c.rest ++ qwenXmlFunctionEnd },
    addFragment fragments (QwenXmlToolParser.argumentClose
      ⟨index, c.name, c.parameters.length, fragments.flatten⟩), ?_, hbuffer, ?_, ?_⟩
  · rw [QwenXmlToolParser.closeFunction, hdrop]
    dsimp only
    rw [hfinish, ok_bind]
    rfl
  · exact .of_call hmode hschema (.between (fun hs => by cases hs) (fun hs => by cases hs) rfl h.next)
      (emissionsFrom_addFragment rfl index fragments _) ((addFragment_flatten _ _).trans htext)
      ⟨h.proper.name, h.proper.named, h.proper.parameters, h.proper.values⟩
      ⟨h.uncut, c.rest, h.space, rfl⟩ (by simp [SeenCall.source])
  · rw [QwenXmlToolParser.closeFunction, show p.inTextMode.buffer = p.buffer from rfl, hdrop]
    dsimp only
    rw [QwenXmlToolParser.withBuffer_inTextMode, hfinish']
    cases E.fromStr ((({ c with rest := c.rest ++ qwenXmlFunctionEnd } : SeenCall).arguments E
      schema).chars) <;> rfl

/-! ### Every step -/

variable (E schema) in
/-- Text mode gets to the same state with the items as text, or fails at one that is not read
again. -/
def InText (items : List QwenItem) (q : QwenXmlToolParser)
    (t : Except BackendError (QwenXmlToolParser × List QwenXmlEmission)) : Prop :=
  AllRead E schema items ∧ t = .ok (q.inTextMode, items.flatMap (QwenItem.asRead E schema)) ∨
    ¬AllRead E schema items ∧ ∃ err, t = .error err

/-- **A step accounts for what it uses and emits**, and text mode takes the same step. -/
theorem process_advances {pending : Option (SeenCall × List Str)} {out : List QwenXmlEmission}
    (hmode : p.structuredDeltas = true) (hschema : p.schema = schema)
    (h : Tracks E schema p index pending) (hstep : p.process E = .ok (some (q, out))) :
    ∃ used items pending' t, used ≠ [] ∧ p.buffer = used ++ q.buffer ∧
      Advances E schema SeenCall.Ends index pending used out items pending' q ∧
      p.inTextMode.process E = t.map some ∧ InText E schema items q t := by
  by_cases hcloses : p.Closes
  · cases h with
    | between hfunction => exact absurd hcloses.state hfunction
    | inParameter h => exact absurd (hcloses.state.symm.trans h.state) (by decide)
    | inFunction h =>
      obtain ⟨q', out', c', fragments', hok, hbuffer, hadvances, htext⟩ :=
        closeFunction_advances hmode hschema h hcloses
      rw [hcloses.process, hok] at hstep
      obtain ⟨rfl, rfl⟩ := Prod.mk.inj (Option.some.inj (Except.ok.inj hstep))
      rw [← hcloses.inTextMode.process] at htext
      cases hread : E.fromStr (c'.arguments E schema).chars with
      | ok arguments =>
        rw [hread] at htext
        refine ⟨_, _, _, .ok _, by decide, hbuffer, hadvances, htext, .inl ⟨?_, ?_⟩⟩
        · intro c fragments hin
          obtain ⟨rfl, rfl⟩ := QwenItem.call.inj (List.mem_singleton.1 hin)
          rw [hread]
          rfl
        · rw [List.flatMap_singleton, QwenItem.asRead, hread]
      | error err =>
        rw [hread] at htext
        refine ⟨_, _, _, .error _, by decide, hbuffer, hadvances, htext, .inr ⟨?_, _, rfl⟩⟩
        intro hall
        have hok := hall c' fragments' (List.mem_singleton_self _)
        rw [hread] at hok
        cases hok
  · have hmoves : Moves E schema p index pending (q, out) := by
      rw [QwenXmlToolParser.process] at hstep
      cases h with
      | between hfunction hparameter hnone hnext =>
        have h : Tracks E schema p index none := .between hfunction hparameter hnone hnext
        cases hstate : p.state with
        | outside =>
          rw [hstate] at hstep
          exact outside_moves hmode hschema h hstep
        | expectFunction =>
          rw [hstate] at hstep
          exact expectedFunction_moves hmode hschema h hstep
        | expectToolClose =>
          rw [hstate] at hstep
          exact toolClose_moves hmode hschema h hstep
        | inFunction => exact absurd hstate hfunction
        | inParameter => exact absurd hstate hparameter
      | inFunction h =>
        rw [h.state] at hstep
        exact inFunction_moves hmode hschema h hcloses hstep
      | inParameter h =>
        rw [h.state] at hstep
        exact inParameter_moves hmode hschema h hstep
    obtain ⟨used, items, pending', hne, hbuffer, hadvances, hread, hshown⟩ := hmoves
    refine ⟨used, items, pending', .ok (textResult (q, out)), hne, hbuffer, hadvances, ?_,
      .inl ⟨hread, ?_⟩⟩
    · rw [p.process_inTextMode E hcloses, hstep]
      rfl
    · rw [← hshown]
      rfl

end KirAi.Mlx
