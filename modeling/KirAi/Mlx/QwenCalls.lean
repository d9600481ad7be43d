/-
# The calls in a text

What the parser for Qwen's XML tool calls is for. A call stands in the text as its function
tag, its parameters one after another and its close tag (`SeenCall`), or it is cut off where
the text ends. Its arguments are the object with a member for each parameter, in order
(`SeenCall.arguments`): the text of the parameter, or the JSON value that the text is read as.

A run gives the parser a text in fragments and then says that it ended or was cut off
(`QwenXmlToolParser.run`). What it emitted is right if the text decomposes into calls and what
stands between them such that the fragments of each call's arguments are together a JSON text
of its arguments (`Reported`). In text mode each call is to be reported as JSON instead, with the
value of its arguments (`QwenItem.asText`). What is reported is what the reader of JSON makes of
the printed arguments (`QwenItem.asRead`); the two are the same where it reads the value back
(`ReadAgain`).

Key definitions: `SeenCall`, `SeenCall.arguments`, `SeenCall.value`, `Reported`, `ReadAgain`,
`QwenItem.asText`.
-/
import KirAi.Lib.JsonGrammar
import KirAi.Mlx.QwenXml

namespace KirAi.Mlx

open Lib Lib.Text
open KirAi.Runtime (Str BackendToolCallDelta isWhitespace trim)
open KirAi.ToolParser (Env)

/-! ### Parameters and calls as they stand in the text -/

/-- The space before a parameter's tag, its key, and the text of its value. -/
structure SeenParameter where
  space : Str
  key : Str
  text : Str
deriving DecidableEq, Repr

namespace SeenParameter

variable (E : Env) (schema : QwenXmlToolSchema) (function : Str) (s : SeenParameter)

def openedSource : Str := s.space ++ (qwenXmlParameterStart ++ (s.key ++ '>' :: s.text))

def source : Str := s.openedSource ++ qwenXmlParameterEnd

/-- The tag ends at its first `>` and the value at the first close tag. -/
structure Proper : Prop where
  space : ∀ c ∈ s.space, isWhitespace c = true
  key : '>' ∉ s.key
  named : badName s.key = false
  text : ¬qwenXmlParameterEnd <:+: s.text

/-- The value that the schema gives the text, if there is one. -/
def value : Option Json :=
  match schema.parameterKind function s.key with
  | .string => some (.string (String.ofList s.text))
  | .json => (E.fromStr (trim s.text)).toOption

def member : Option (String × Json) :=
  (s.value E schema function).map fun v => (String.ofList s.key, v)

end SeenParameter

/-- A call: its parameters that were closed, one that the text ends in, and what comes after
them. -/
structure SeenCall where
  name : Str
  parameters : List SeenParameter
  cut : Option SeenParameter
  rest : Str
deriving DecidableEq, Repr

namespace SeenCall

variable (E : Env) (schema : QwenXmlToolSchema) (c : SeenCall)

def seen : List SeenParameter := c.parameters ++ c.cut.toList

def source : Str :=
  qwenXmlFunctionStart ++ (c.name ++ '>' :: (c.parameters.flatMap SeenParameter.source ++
    (c.cut.toList.flatMap SeenParameter.openedSource ++ c.rest)))

def members : List (String × Json) := c.seen.filterMap (·.member E schema c.name)

def arguments : Json := .object (c.members E schema)

/-- The value of the arguments: of two members with one key the later value stays. -/
def value : Json :=
  .object ((c.members E schema).foldl (fun entries entry => insertKey entries entry.1 entry.2) [])

/-- Every parameter that was closed has a value. -/
structure Proper : Prop where
  name : '>' ∉ c.name
  named : badName c.name = false
  parameters : ∀ s ∈ c.seen, s.Proper
  values : ∀ s ∈ c.parameters, (s.value E schema c.name).isSome = true

/-- The call ends with its close tag. -/
def Ends : Prop :=
  c.cut = none ∧ ∃ space, (∀ ch ∈ space, isWhitespace ch = true) ∧
    c.rest = space ++ qwenXmlFunctionEnd

/-- The text ends in a parameter, or after one with nothing more than a part of a tag. -/
def CutOff : Prop := '>' ∉ c.rest ∧ (c.cut ≠ none → c.rest = [])

end SeenCall

/-! ### What a text is made of -/

/-- Text that is passed on, markup that is not, or a call with its arguments in fragments. -/
inductive QwenItem
  | shown (text : Str)
  | silent (text : Str)
  | call (call : SeenCall) (fragments : List Str)
deriving DecidableEq, Repr

def headerDelta (E : Env) (index : ℕ) (name : Str) : BackendToolCallDelta where
  index := index
  id := some (E.generatedToolCallId index)
  callType := some .function
  function := some { name := some name, arguments := none }

def fragmentDelta (index : ℕ) (fragment : Str) : BackendToolCallDelta where
  index := index
  id := none
  callType := none
  function := some { name := none, arguments := some fragment }

namespace QwenItem

def source : QwenItem → Str
  | shown text => text
  | silent text => text
  | call c _ => c.source

/-- How many calls there are. -/
def calls (items : List QwenItem) : ℕ :=
  items.countP fun
    | call _ _ => true
    | _ => false

/-- The deltas of the items, with calls numbered from `n`. -/
def emissionsFrom (E : Env) : ℕ → List QwenItem → List QwenXmlEmission
  | _, [] => []
  | n, shown text :: items => .ofText text :: emissionsFrom E n items
  | n, silent _ :: items => emissionsFrom E n items
  | n, call c fragments :: items =>
    .ofDelta (headerDelta E n c.name) :: (fragments.map (fun f => .ofDelta (fragmentDelta n f)) ++
      emissionsFrom E (n + 1) items)

/-- An item as it is to be reported in text mode: a call with the value of its arguments. -/
def asText (E : Env) (schema : QwenXmlToolSchema) : QwenItem → List QwenXmlEmission
  | shown text => [.ofText text]
  | silent _ => []
  | call c _ => [.ofText (QwenXmlToolParser.callText c.name (c.value E schema))]

/-- An item as text mode gets to report it: a call with what the text of its arguments is
read as. -/
def asRead (E : Env) (schema : QwenXmlToolSchema) : QwenItem → List QwenXmlEmission
  | shown text => [.ofText text]
  | silent _ => []
  | call c _ =>
    match E.fromStr (c.arguments E schema).chars with
    | .ok arguments => [.ofText (QwenXmlToolParser.callText c.name arguments)]
    | .error _ => []

end QwenItem

/-- The text of the arguments of every call is read. -/
def AllRead (E : Env) (schema : QwenXmlToolSchema) (items : List QwenItem) : Prop :=
  ∀ c fragments, QwenItem.call c fragments ∈ items →
    (E.fromStr (c.arguments E schema).chars).isOk = true

/-- The text of the arguments of every call is read as their value: as one with the same text. -/
def ReadAgain (E : Env) (schema : QwenXmlToolSchema) (items : List QwenItem) : Prop :=
  ∀ c fragments, QwenItem.call c fragments ∈ items →
    ∃ v, E.fromStr (c.arguments E schema).chars = .ok v ∧ v.chars = (c.value E schema).chars

/-! ### Runs -/

inductive QwenEnd
  | finish
  | finishTruncated
deriving DecidableEq, Repr

namespace QwenXmlToolParser

variable (E : Env)

def new (structuredDeltas : Bool) (schema : QwenXmlToolSchema) : QwenXmlToolParser :=
  { structuredDeltas, schema }

/-- One fragment after another. -/
def pushAll (p : QwenXmlToolParser) :
    List Str → Except BackendError (QwenXmlToolParser × List QwenXmlEmission)
  | [] => .ok (p, [])
  | text :: texts => do
    let (p, out) ← p.pushStr E text
    let (p, later) ← p.pushAll texts
    return (p, out ++ later)

def close (p : QwenXmlToolParser) : QwenEnd → Except BackendError (QwenXmlToolParser × List QwenXmlEmission)
  | .finish => p.finish
  | .finishTruncated => p.finishTruncated E

/-- Fragments, and the end if it has come. -/
def run (p : QwenXmlToolParser) (texts : List Str) :
    Option QwenEnd → Except BackendError (List QwenXmlEmission)
  | none => (p.pushAll E texts).map (·.2)
  | some ending => do
    let (p, out) ← p.pushAll E texts
    let (_, last) ← p.close E ending
    return out ++ last

end QwenXmlToolParser

/-- The emissions are those of a text with these items; of a run that has not ended, those of
the call that goes on come after them. -/
structure Reported (E : Env) (schema : QwenXmlToolSchema) (texts : List Str)
    (ending : Option QwenEnd) (emissions : List QwenXmlEmission) (items : List QwenItem) :
    Prop where
  text : items.flatMap QwenItem.source <+: texts.flatten
  whole : ending ≠ none → items.flatMap QwenItem.source = texts.flatten
  proper : ∀ c fragments, QwenItem.call c fragments ∈ items → c.Proper E schema
  ends : ∀ i c fragments, items[i]? = some (.call c fragments) →
    c.Ends ∨ ending = some .finishTruncated ∧ i + 1 = items.length ∧ c.CutOff
  valid : ∀ c fragments, QwenItem.call c fragments ∈ items →
    Json.Spells fragments.flatten (c.arguments E schema)
  emitted : ∃ more, emissions = QwenItem.emissionsFrom E 0 items ++ more ∧
    (ending ≠ none → more = []) ∧
    ∀ e ∈ more, ∃ delta, e = .ofDelta delta ∧ delta.index = QwenItem.calls items

end KirAi.Mlx
