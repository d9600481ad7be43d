/-
# Where the parser for Qwen's XML tool calls is in a call

The parser writes the arguments of a call as it reads them: the brace with the first
parameter, a comma before each further one, the text of a string as it comes and a JSON value
when it is whole. `Tracks` says what has been written when: in a function the members of the
parameters that were closed (`openedText`), in a parameter also its key and the part of its
text that has been used. `Advances` says what steps do: they use a piece of the buffer, and the
items they end and the call that goes on account for that piece and for what is emitted.

Here are the steps between calls, up to the one that starts a call.

Key definitions: `openedText`, `Tracks`, `Advances`, `Moves`.
Key theorems: `openedText_concat`, `openedText_close`, `Advances.trans`, `outside_moves`,
`expectedFunction_moves`.
-/
import KirAi.Mlx.QwenModes
import Mathlib.Data.List.TakeWhile

namespace KirAi.Mlx

open Lib Lib.Text
open KirAi.Runtime (Str isWhitespace trim trimStart)
open KirAi.ToolParser (Env startsWith)

/-! ### Taking the buffer apart -/

theorem startsWith_iff {s tag : Str} : startsWith s tag = true ↔ ∃ rest, s = tag ++ rest := by
  rw [startsWith, List.isPrefixOf_iff_prefix]
  exact ⟨fun ⟨rest, h⟩ => ⟨rest, h.symm⟩, fun ⟨rest, h⟩ => ⟨rest, h.symm⟩⟩

/-- Space at the start, and the rest. -/
theorem drainLeadingWhitespace_eq_some {p q : QwenXmlToolParser}
    (h : p.drainLeadingWhitespace = some q) : ∃ w rest, w ≠ [] ∧
      (∀ c ∈ w, isWhitespace c = true) ∧ p.buffer = w ++ rest ∧ q = { p with buffer := rest } := by
  unfold QwenXmlToolParser.drainLeadingWhitespace at h
  dsimp only at h
  split at h
  · next hlen =>
    have hsplit : p.buffer.takeWhile isWhitespace ++ trimStart p.buffer = p.buffer :=
      List.takeWhile_append_dropWhile
    refine ⟨p.buffer.takeWhile isWhitespace, trimStart p.buffer, ?_,
      fun c hc => List.mem_takeWhile_imp hc, hsplit.symm, (Option.some.inj h).symm⟩
    intro hnil
    rw [hnil, List.nil_append] at hsplit
    rw [hsplit, Nat.sub_self] at hlen
    exact Nat.lt_irrefl 0 hlen
  · cases h

/-- A tag ends at its first `>`. -/
theorem tagArgument_eq_some {tag buffer name rest : Str} (htag : '>' ∉ tag)
    (hstart : startsWith buffer tag = true) (h : tagArgument tag buffer = some (name, rest)) :
    buffer = tag ++ (name ++ '>' :: rest) ∧ '>' ∉ name := by
  obtain ⟨stop, hfind, hpair⟩ := Option.map_eq_some_iff.1 h
  obtain ⟨u, v, rfl, rfl, -⟩ := exists_cut hfind
  have hfree : '>' ∉ u := find_singleton_append_iff.1 hfind
  obtain ⟨tail, htail⟩ := startsWith_iff.1 hstart
  -- the tag lies before its `>`
  have hu : ∃ name', u = tag ++ name' := by
    have htagle : tag <+: u ++ ['>'] ++ v := ⟨tail, htail.symm⟩
    rw [List.append_assoc] at htagle
    rcases List.prefix_or_prefix_of_prefix htagle (List.prefix_append u _) with hp | ⟨w, rfl⟩
    · obtain ⟨name', rfl⟩ := hp
      exact ⟨name', rfl⟩
    · cases w with
      | nil => exact ⟨[], by simp⟩
      | cons c w =>
        have hc : c = '>' := by
          simp only [List.append_assoc, List.cons_append, List.nil_append] at htail
          exact (List.cons.inj (List.append_cancel_left htail)).1.symm
        exact absurd (by simp [hc]) htag
  obtain ⟨name', rfl⟩ := hu
  rw [len_append, Nat.add_sub_cancel_left] at hpair
  have hwidth : len tag + len name' + 1 = len (tag ++ name' ++ ['>']) := by
    rw [len_append, len_append]
    rfl
  rw [hwidth, dropTo_append] at hpair
  simp only [List.append_assoc, dropTo_append, takeTo_append] at hpair
  obtain ⟨rfl, rfl⟩ := Prod.mk.inj hpair
  exact ⟨by simp, fun hin => hfree (List.mem_append_right tag hin)⟩

/-- What is kept back is the end of the buffer. -/
theorem pendingTag_split (tag buffer : Str) : ∃ x y, buffer = x ++ y ∧
    len y = pendingTagPrefixLen buffer tag ∧ Withholds [tag] buffer (len y) := by
  have h := withholds_max [tag] buffer
  rw [List.flatMap_cons, List.flatMap_nil, List.append_nil] at h
  obtain ⟨x, y, hxy, hlen⟩ : ∃ x y, buffer = x ++ y ∧ len y = pendingTagPrefixLen buffer tag := by
    rcases h.attained with hzero | ⟨y, -, ⟨x, hx⟩, hlen⟩
    · exact ⟨buffer, [], (List.append_nil _).symm, hzero.symm⟩
    · exact ⟨x, y, hx.symm, hlen⟩
  exact ⟨x, y, hxy, hlen, hlen ▸ h⟩

/-! ### The text of the arguments -/

section Arguments

theorem commas_concat : ∀ {parts : List Str}, parts ≠ [] → ∀ part : Str,
    Json.commas (parts ++ [part]) = Json.commas parts ++ ',' :: part
  | [], hne, _ => absurd rfl hne
  | [first], _, part => rfl
  | first :: second :: parts, _, part => by
    rw [List.cons_append, List.cons_append, Json.commas_cons_cons, ← List.cons_append,
      commas_concat (List.cons_ne_nil second parts), Json.commas_cons_cons, List.append_assoc,
      List.cons_append]

/-- The text of an object that is still open. -/
def openedText (members : List (String × Json)) : Str :=
  if members = [] then [] else '{' :: Json.commas (members.map Json.charsOfEntry)

/-- The text before the value of the next member, when there are `n`. -/
def keyText (n : ℕ) (key : Str) : Str := (if n = 0 then ['{'] else [',']) ++ Json.quote key ++ [':']

theorem openedText_concat (members : List (String × Json)) (key : Str) (v : Json) :
    openedText (members ++ [(String.ofList key, v)]) =
      openedText members ++ (keyText members.length key ++ v.chars) := by
  have hentry : Json.charsOfEntry (String.ofList key, v) = Json.quote key ++ ':' :: v.chars := by
    rw [Json.charsOfEntry, String.toList_ofList]
  by_cases hnil : members = []
  · subst hnil
    rw [openedText, if_neg (by simp), openedText, if_pos rfl, keyText, List.length_nil, if_pos rfl]
    show '{' :: Json.charsOfEntry (String.ofList key, v) = _
    rw [hentry]
    simp
  · have hlen : members.length ≠ 0 := fun h => hnil (List.length_eq_zero_iff.1 h)
    rw [openedText, if_neg (by simp), openedText, if_neg hnil, keyText, if_neg hlen,
      List.map_append, List.map_cons, List.map_nil, commas_concat (by simpa using hnil), hentry]
    simp

theorem openedText_close (members : List (String × Json)) :
    openedText members ++ (if members.length = 0 then ['{', '}'] else ['}']) =
      (Json.object members).chars := by
  rw [Json.chars, Json.charsOfEntries_eq]
  by_cases hnil : members = []
  · subst hnil
    rfl
  · rw [openedText, if_neg hnil, if_neg fun h => hnil (List.length_eq_zero_iff.1 h),
      List.cons_append]

end Arguments

/-! ### A call that goes on -/

section Tracks

variable (E : Env) (schema : QwenXmlToolSchema)

/-- The parameter that the parser is in, when `n` came before it. -/
def activeParameter (c : SeenCall) (s : SeenParameter) : QwenXmlActiveParameter where
  key := s.key
  keyText := keyText c.parameters.length s.key
  kind := schema.parameterKind c.name s.key
  value := match schema.parameterKind c.name s.key with
    | .string => []
    | .json => s.text

/-- What has been written of a parameter that goes on. -/
def openedValue (c : SeenCall) (s : SeenParameter) : Str :=
  match schema.parameterKind c.name s.key with
  | .string => keyText c.parameters.length s.key ++ '"' :: Json.escape s.text
  | .json => []

/-- The members of the parameters that were closed. -/
def closedMembers (c : SeenCall) : List (String × Json) :=
  c.parameters.filterMap (·.member E schema c.name)

/-- In a function, after `c` so far, of which the fragments tell. -/
structure InFunction (p : QwenXmlToolParser) (index : ℕ) (c : SeenCall) (fragments : List Str) :
    Prop where
  state : p.state = .inFunction
  proper : c.Proper E schema
  uncut : c.cut = none
  space : ∀ ch ∈ c.rest, isWhitespace ch = true
  call : p.currentCall = some ⟨index, c.name, c.parameters.length, fragments.flatten⟩
  written : fragments.flatten = openedText (closedMembers E schema c)
  next : p.nextIndex = index + 1

/-- In the parameter `s`, of whose text the part that has been used settles where it ends. -/
structure InParameter (p : QwenXmlToolParser) (index : ℕ) (c : SeenCall) (s : SeenParameter)
    (fragments : List Str) : Prop where
  state : p.state = .inParameter
  proper : c.Proper E schema
  cut : c.cut = some s
  rest : c.rest = []
  settled : Settled [qwenXmlParameterEnd] s.text p.buffer
  call : p.currentCall = some ⟨index, c.name, c.parameters.length + 1, fragments.flatten⟩
  parameter : p.currentParameter = some (activeParameter schema c s)
  written : fragments.flatten = openedText (closedMembers E schema c) ++ openedValue schema c s
  next : p.nextIndex = index + 1

/-- Where the parser is, with the call that goes on and its fragments so far; `index` calls
have ended. -/
inductive Tracks (p : QwenXmlToolParser) (index : ℕ) : Option (SeenCall × List Str) → Prop
  | between : p.state ≠ .inFunction → p.state ≠ .inParameter → p.currentCall = none →
      p.nextIndex = index → Tracks p index none
  | inFunction {c : SeenCall} {fragments : List Str} : InFunction E schema p index c fragments →
      Tracks p index (some (c, fragments))
  | inParameter {c : SeenCall} {s : SeenParameter} {fragments : List Str} :
      InParameter E schema p index c s fragments → Tracks p index (some (c, fragments))

end Tracks

section Members

variable {E : Env} {schema : QwenXmlToolSchema}

theorem length_closedMembers {c : SeenCall}
    (h : ∀ s ∈ c.parameters, (s.value E schema c.name).isSome = true) :
    (closedMembers E schema c).length = c.parameters.length := by
  unfold closedMembers
  generalize c.parameters = parameters at h
  induction parameters with
  | nil => rfl
  | cons s parameters ih =>
    obtain ⟨v, hv⟩ := Option.isSome_iff_exists.1 (h s List.mem_cons_self)
    have hmember : s.member E schema c.name = some (String.ofList s.key, v) := by
      rw [SeenParameter.member, hv]
      rfl
    rw [List.filterMap_cons_some hmember, List.length_cons, List.length_cons,
      ih fun s' hs' => h s' (List.mem_cons_of_mem s hs')]

theorem members_of_uncut {c : SeenCall} (h : c.cut = none) :
    c.members E schema = closedMembers E schema c := by
  rw [SeenCall.members, SeenCall.seen, h, closedMembers, Option.toList_none, List.append_nil]

/-- The call once its parameter has been closed. -/
def SeenCall.close (c : SeenCall) (s : SeenParameter) : SeenCall :=
  { c with parameters := c.parameters ++ [s], cut := none, rest := [] }

theorem closedMembers_close {c : SeenCall} {s : SeenParameter} {v : Json}
    (h : s.value E schema c.name = some v) : closedMembers E schema (c.close s) =
      closedMembers E schema c ++ [(String.ofList s.key, v)] := by
  have hmember : s.member E schema c.name = some (String.ofList s.key, v) := by
    rw [SeenParameter.member, h]
    rfl
  rw [closedMembers, SeenCall.close, List.filterMap_append, List.filterMap_cons_some hmember]
  rfl

end Members

/-! ### What has been used accounts for what was emitted -/

/-- The call that goes on, as an item. -/
def callOf (pending : Option (SeenCall × List Str)) : List QwenItem :=
  pending.toList.map fun call => .call call.1 call.2

/-- With the text `used` and the emissions `out` the parser gets to `p`: some items have ended,
and a call may go on. `Done` says how calls have ended. -/
structure Advances (E : Env) (schema : QwenXmlToolSchema) (Done : SeenCall → Prop) (index : ℕ)
    (pending : Option (SeenCall × List Str)) (used : Str) (out : List QwenXmlEmission)
    (items : List QwenItem) (pending' : Option (SeenCall × List Str)) (p : QwenXmlToolParser) :
    Prop where
  mode : p.structuredDeltas = true
  known : p.schema = schema
  tracks : Tracks E schema p (index + QwenItem.calls items) pending'
  source : (callOf pending).flatMap QwenItem.source ++ used =
    (items ++ callOf pending').flatMap QwenItem.source
  emitted : QwenItem.emissionsFrom E index (items ++ callOf pending') =
    QwenItem.emissionsFrom E index (callOf pending) ++ out
  ended : ∀ c fragments, QwenItem.call c fragments ∈ items →
    c.Proper E schema ∧ Done c ∧ fragments.flatten = (c.arguments E schema).chars

namespace QwenItem

theorem calls_append (items more : List QwenItem) : calls (items ++ more) =
    calls items + calls more := List.countP_append

theorem emissionsFrom_append (E : Env) : ∀ (n : ℕ) (items more : List QwenItem),
    emissionsFrom E n (items ++ more) =
      emissionsFrom E n items ++ emissionsFrom E (n + calls items) more
  | _, [], _ => rfl
  | n, shown text :: items, more => by
    rw [List.cons_append, emissionsFrom, emissionsFrom_append E n items, emissionsFrom,
      List.cons_append]
    rfl
  | n, silent text :: items, more => by
    rw [List.cons_append, emissionsFrom, emissionsFrom_append E n items, emissionsFrom]
    rfl
  | n, call c fragments :: items, more => by
    have hcalls : n + 1 + calls items = n + calls (call c fragments :: items) := by
      rw [calls, calls, List.countP_cons_of_pos rfl]
      omega
    rw [List.cons_append, emissionsFrom, emissionsFrom_append E (n + 1) items, emissionsFrom,
      hcalls, List.cons_append, List.append_assoc]

end QwenItem

namespace Advances

variable {E : Env} {schema : QwenXmlToolSchema} {Done Done' : SeenCall → Prop} {index : ℕ}
  {pending pending' pending'' : Option (SeenCall × List Str)} {used used' : Str}
  {out out' : List QwenXmlEmission} {items items' : List QwenItem} {p q : QwenXmlToolParser}

/-- Nothing is used. -/
theorem refl (hmode : p.structuredDeltas = true) (hschema : p.schema = schema)
    (h : Tracks E schema p index pending) :
    Advances E schema Done index pending [] [] [] pending p where
  mode := hmode
  known := hschema
  tracks := h
  source := List.append_nil _
  emitted := (List.append_nil _).symm
  ended := fun _ _ hin => absurd hin List.not_mem_nil

theorem trans (h : Advances E schema Done index pending used out items pending' p)
    (h' : Advances E schema Done (index + QwenItem.calls items) pending' used' out' items' pending'' q) :
    Advances E schema Done index pending (used ++ used') (out ++ out') (items ++ items') pending'' q where
  mode := h'.mode
  known := h'.known
  tracks := by
    rw [QwenItem.calls_append, ← Nat.add_assoc]
    exact h'.tracks
  source := by
    rw [← List.append_assoc, h.source, List.flatMap_append, List.append_assoc, h'.source,
      List.append_assoc items]
    simp only [List.flatMap_append]
  emitted := by
    rw [List.append_assoc, QwenItem.emissionsFrom_append, h'.emitted, ← List.append_assoc,
      ← QwenItem.emissionsFrom_append, h.emitted, List.append_assoc]
  ended := by
    intro c fragments hin
    rcases List.mem_append.1 hin with hin | hin
    · exact h.ended c fragments hin
    · exact h'.ended c fragments hin

theorem mono (h : Advances E schema Done index pending used out items pending' p)
    (hsub : ∀ c, Done c → Done' c) :
    Advances E schema Done' index pending used out items pending' p where
  mode := h.mode
  known := h.known
  tracks := h.tracks
  source := h.source
  emitted := h.emitted
  ended := fun c fragments hin =>
    ⟨(h.ended c fragments hin).1, hsub c (h.ended c fragments hin).2.1, (h.ended c fragments hin).2.2⟩

end Advances

/-! ### One step -/

section Steps

variable (E : Env) (schema : QwenXmlToolSchema)

/-- One step that ends no call: it uses a piece of the buffer, and text mode shows its text. -/
def Moves (p : QwenXmlToolParser) (index : ℕ) (pending : Option (SeenCall × List Str))
    (r : QwenXmlToolParser × List QwenXmlEmission) : Prop :=
  ∃ used items pending', used ≠ [] ∧ p.buffer = used ++ r.1.buffer ∧
    Advances E schema SeenCall.Ends index pending used r.2 items pending' r.1 ∧
    AllRead E schema items ∧ shownOnly r.2 = items.flatMap (QwenItem.asRead E schema)

variable {E schema} {p q : QwenXmlToolParser} {index : ℕ}

theorem allRead_of_none {items : List QwenItem} (h : QwenItem.calls items = 0) :
    AllRead E schema items := by
  intro c fragments hin
  exact absurd (List.countP_eq_zero.1 h _ hin) (fun hnot => hnot rfl)

theorem Advances.of_none {Done : SeenCall → Prop} {pending pending' : Option (SeenCall × List Str)} {used : Str}
    {out : List QwenXmlEmission} {items : List QwenItem} (hmode : q.structuredDeltas = true)
    (hschema : q.schema = schema) (hnone : QwenItem.calls items = 0)
    (h : Tracks E schema q index pending')
    (hsource : (callOf pending).flatMap QwenItem.source ++ used =
      (items ++ callOf pending').flatMap QwenItem.source)
    (hemitted : QwenItem.emissionsFrom E index (items ++ callOf pending') =
      QwenItem.emissionsFrom E index (callOf pending) ++ out) :
    Advances E schema Done index pending used out items pending' q where
  mode := hmode
  known := hschema
  tracks := by rwa [hnone, Nat.add_zero]
  source := hsource
  emitted := hemitted
  ended := fun _ _ hin => absurd (List.countP_eq_zero.1 hnone _ hin) fun hnot => hnot rfl

/-- Text between calls that is passed on. -/
theorem moves_shown {text : Str} (hmode : q.structuredDeltas = true) (hschema : q.schema = schema)
    (h : Tracks E schema q index none) (hne : text ≠ []) (hbuffer : p.buffer = text ++ q.buffer) :
    Moves E schema p index none (q, [.ofText text]) :=
  ⟨text, [.shown text], none, hne, hbuffer,
    .of_none hmode hschema rfl h (List.append_nil text).symm rfl, allRead_of_none rfl, rfl⟩

/-- Markup between calls. -/
theorem moves_silent {text : Str} (hmode : q.structuredDeltas = true) (hschema : q.schema = schema)
    (h : Tracks E schema q index none) (hne : text ≠ []) (hbuffer : p.buffer = text ++ q.buffer) :
    Moves E schema p index none (q, []) :=
  ⟨text, [.silent text], none, hne, hbuffer,
    .of_none hmode hschema rfl h (List.append_nil text).symm rfl, allRead_of_none rfl, rfl⟩

/-- Between calls only the state and the buffer change. -/
theorem Tracks.between_of (h : Tracks E schema p index none) (hcall : q.currentCall = p.currentCall)
    (hindex : q.nextIndex = p.nextIndex) (hfunction : q.state ≠ .inFunction)
    (hparameter : q.state ≠ .inParameter) : Tracks E schema q index none := by
  cases h with
  | between _ _ hnone hnext =>
    exact .between hfunction hparameter (hcall.trans hnone) (hindex.trans hnext)

theorem not_in_call (h : Tracks E schema p index none) :
    p.state ≠ .inFunction ∧ p.state ≠ .inParameter := by
  cases h with
  | between hfunction hparameter _ _ => exact ⟨hfunction, hparameter⟩

section Between

variable (hmode : p.structuredDeltas = true) (hschema : p.schema = schema)
  (h : Tracks E schema p index none)

include hmode hschema h

theorem moves_emitTo {u v : Str} (hne : u ≠ []) (hbuffer : p.buffer = u ++ v) :
    Moves E schema p index none (p.emitTo (len u)) := by
  have hpair : p.emitTo (len u) = ({ p with buffer := v }, [.ofText u]) := by
    rw [QwenXmlToolParser.emitTo, hbuffer, dropTo_append, takeTo_append]
  rw [hpair]
  exact moves_shown hmode hschema (h.between_of rfl rfl (not_in_call h).1 (not_in_call h).2) hne
    hbuffer

theorem moves_space (hspace : p.drainLeadingWhitespace = some q) :
    Moves E schema p index none (q, []) := by
  obtain ⟨w, rest, hne, -, hbuffer, rfl⟩ := drainLeadingWhitespace_eq_some hspace
  exact moves_silent hmode hschema (h.between_of rfl rfl (not_in_call h).1 (not_in_call h).2) hne
    hbuffer

theorem moves_tag {tag rest : Str} {state : QwenXmlState} (hne : tag ≠ [])
    (hbuffer : p.buffer = tag ++ rest) (hfunction : state ≠ .inFunction)
    (hparameter : state ≠ .inParameter) : Moves E schema p index none
      ({ p with buffer := dropTo p.buffer (len tag), state }, []) := by
  refine moves_silent hmode hschema (h.between_of rfl rfl hfunction hparameter) hne ?_
  rw [hbuffer, dropTo_append]

theorem moves_reasoning {r : QwenXmlToolParser × List QwenXmlEmission}
    (hblock : p.drainLeadingReasoningBlock = some r) : Moves E schema p index none r := by
  unfold QwenXmlToolParser.drainLeadingReasoningBlock at hblock
  split at hblock
  · next hstart =>
    obtain ⟨rest, hrest⟩ := startsWith_iff.1 hstart
    obtain ⟨endRel, hfind, rfl⟩ := Option.map_eq_some_iff.1 hblock
    rw [hrest, dropTo_append] at hfind
    obtain ⟨u, v, rfl, rfl, -⟩ := exists_cut hfind
    have hblocklen : len qwenReasoningStart + len u + len qwenReasoningEnd =
        len (qwenReasoningStart ++ u ++ qwenReasoningEnd) := by rw [len_append, len_append]
    rw [hblocklen]
    refine moves_emitTo hmode hschema h (v := v) ?_ (hrest.trans (by simp only [List.append_assoc]))
    exact fun hnil => absurd (List.append_eq_nil_iff.1 hnil).2 (by decide)
  · cases hblock

theorem moves_found {tag : Str} {n : ℕ} (hfind : find tag p.buffer = some n) (hpos : 0 < n) :
    Moves E schema p index none (p.emitTo n) := by
  obtain ⟨u, v, hbuffer, rfl, -⟩ := exists_cut hfind
  refine moves_emitTo hmode hschema h ?_ (hbuffer.trans (List.append_assoc ..))
  rintro rfl
  exact Nat.lt_irrefl 0 hpos

theorem outside_moves {r : QwenXmlToolParser × List QwenXmlEmission}
    (hstep : p.processOutside = .ok (some r)) : Moves E schema p index none r := by
  unfold QwenXmlToolParser.processOutside at hstep
  cases hmarker : earliestQwenMarker p.buffer with
  | some found =>
    obtain ⟨n, marker⟩ := found
    rw [hmarker] at hstep
    cases marker with
    | toolStart =>
      have hfind : find qwenXmlToolStart p.buffer = some n := by
        unfold earliestQwenMarker at hmarker
        split at hmarker
        · cases hmarker
        · next i hi _ => cases hmarker; exact hi
        · cases hmarker
        · next i j hi hj =>
          split at hmarker
          · cases hmarker
          · cases hmarker
            exact hi
      dsimp only at hstep
      split at hstep
      · next hpos =>
        obtain rfl := Option.some.inj (Except.ok.inj hstep)
        exact moves_found hmode hschema h hfind hpos
      · next hzero =>
        obtain rfl := Option.some.inj (Except.ok.inj hstep)
        obtain ⟨u, v, hbuffer, hu, -⟩ := exists_cut hfind
        obtain rfl : u = [] := len_eq_zero.1 (by omega)
        exact moves_tag hmode hschema h (by decide) hbuffer (by decide) (by decide)
    | reasoningStart =>
      have hfind : find qwenReasoningStart p.buffer = some n := by
        unfold earliestQwenMarker at hmarker
        split at hmarker
        · cases hmarker
        · cases hmarker
        · next j _ hj => cases hmarker; exact hj
        · next i j hi hj =>
          split at hmarker
          · cases hmarker
            exact hj
          · cases hmarker
      dsimp only at hstep
      split at hstep
      · next hpos =>
        obtain rfl := Option.some.inj (Except.ok.inj hstep)
        exact moves_found hmode hschema h hfind hpos
      · exact moves_reasoning hmode hschema h (Except.ok.inj hstep)
  | none =>
    rw [hmarker] at hstep
    dsimp only at hstep
    split at hstep
    · next hpos =>
      obtain rfl := Option.some.inj (Except.ok.inj hstep)
      -- what is kept back is the longer of two ends of the buffer
      obtain ⟨x, y, hxy, hlen⟩ : ∃ x y, p.buffer = x ++ y ∧
          len y = max (pendingTagPrefixLen p.buffer qwenXmlToolStart)
            (pendingTagPrefixLen p.buffer qwenReasoningStart) := by
        obtain ⟨x, y, hxy, hy, -⟩ := pendingTag_split qwenXmlToolStart p.buffer
        obtain ⟨x', y', hxy', hy', -⟩ := pendingTag_split qwenReasoningStart p.buffer
        rcases le_total (pendingTagPrefixLen p.buffer qwenXmlToolStart)
          (pendingTagPrefixLen p.buffer qwenReasoningStart) with hle | hle
        · exact ⟨x', y', hxy', by rw [hy', max_eq_right hle]⟩
        · exact ⟨x, y, hxy, by rw [hy, max_eq_left hle]⟩
      have hemit : len p.buffer - max (pendingTagPrefixLen p.buffer qwenXmlToolStart)
          (pendingTagPrefixLen p.buffer qwenReasoningStart) = len x := by
        rw [← hlen, hxy, len_append]
        omega
      rw [hemit] at hpos ⊢
      refine moves_emitTo hmode hschema h ?_ hxy
      rintro rfl
      exact Nat.lt_irrefl 0 hpos
    · cases hstep

theorem toolClose_moves {r : QwenXmlToolParser × List QwenXmlEmission}
    (hstep : p.processExpectedToolClose = .ok (some r)) : Moves E schema p index none r := by
  unfold QwenXmlToolParser.processExpectedToolClose at hstep
  split at hstep
  · next q hspace =>
    obtain rfl := Option.some.inj (Except.ok.inj hstep)
    exact moves_space hmode hschema h hspace
  · split at hstep
    · cases hstep
    split at hstep
    · cases hstep
    · next hstart =>
      obtain rfl := Option.some.inj (Except.ok.inj hstep)
      rw [Bool.not_eq_true', Bool.not_eq_false] at hstart
      obtain ⟨rest, hbuffer⟩ := startsWith_iff.1 hstart
      exact moves_tag hmode hschema h (by decide) hbuffer (by decide) (by decide)

theorem startFunction_moves {r : QwenXmlToolParser × List QwenXmlEmission}
    (hstep : p.startFunction E = .ok (some r)) : Moves E schema p index none r := by
  unfold QwenXmlToolParser.startFunction at hstep
  split at hstep
  · cases hstep
  next hstart =>
  rw [Bool.not_eq_true', Bool.not_eq_false] at hstart
  split at hstep
  · cases hstep
  next name rest htag =>
  split at hstep
  · cases hstep
  next hnamed =>
  split at hstep
  · cases hstep
  obtain rfl := Option.some.inj (Except.ok.inj hstep)
  obtain ⟨hbuffer, hname⟩ := tagArgument_eq_some (by decide) hstart htag
  have hproper : SeenCall.Proper E schema ⟨name, [], none, []⟩ :=
    ⟨hname, Bool.eq_false_iff.2 hnamed, fun _ hin => absurd hin List.not_mem_nil,
      fun _ hin => absurd hin List.not_mem_nil⟩
  have hnext : p.nextIndex = index := by
    cases h with
    | between _ _ _ hnext => exact hnext
  refine ⟨qwenXmlFunctionStart ++ (name ++ ['>']), [], some (⟨name, [], none, []⟩, []),
    fun hnil => absurd (List.append_eq_nil_iff.1 hnil).1 (by decide), hbuffer.trans (by simp),
    .of_none hmode hschema rfl (.inFunction ?_) ?_ ?_, allRead_of_none rfl, rfl⟩
  · exact {
      state := rfl
      proper := hproper
      uncut := rfl
      space := fun _ hin => absurd hin List.not_mem_nil
      call := by
        rw [hnext]
        rfl
      written := rfl
      next := by rw [hnext] }
  · simp [callOf, QwenItem.source, SeenCall.source]
  · rw [hnext]
    rfl

theorem expectedFunction_moves {r : QwenXmlToolParser × List QwenXmlEmission}
    (hstep : p.processExpectedFunction E = .ok (some r)) : Moves E schema p index none r := by
  unfold QwenXmlToolParser.processExpectedFunction at hstep
  split at hstep
  · next q hspace =>
    obtain rfl := Option.some.inj (Except.ok.inj hstep)
    exact moves_space hmode hschema h hspace
  split at hstep
  · next progress hblock =>
    obtain rfl := Option.some.inj (Except.ok.inj hstep)
    exact moves_reasoning hmode hschema h hblock
  split at hstep
  · cases hstep
  split at hstep
  · next n hfind =>
    split at hstep
    · next hpos =>
      obtain rfl := Option.some.inj (Except.ok.inj hstep)
      exact moves_found hmode hschema h hfind hpos
    · exact startFunction_moves hmode hschema h hstep
  · exact startFunction_moves hmode hschema h hstep

end Between

end Steps

end KirAi.Mlx
