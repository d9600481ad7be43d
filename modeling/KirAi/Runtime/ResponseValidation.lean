/-
# Validation of generated arguments against a tool's schema

`response_validation.rs`: before a generated tool call is handed to the client, its
arguments are checked against the JSON schema of the declared tool. The checks read five
keywords (`type`, `enum`, `required`, `properties`, `items`) and pass over the others; a
keyword that is malformed is an error of the tool, not of the call.

`Satisfies` says what the keywords mean, apart from any order of checks, and for a
well-formed schema the check answers `Ok` for exactly the values that satisfy it
(`validate_json_schema_value_exact`). Two numbers that are not integers are compared as
`f64`, which is a parameter (`sameFloat`).

Key definitions: `validateJsonSchemaValue`, `WellFormedSchema`, `Satisfies`.
Key theorems: `validate_json_schema_value_exact`, `validateToolCallsAgainstRequest_ok`.
-/
import KirAi.Api.Messages
import KirAi.Lib.Bytes
import KirAi.Lib.Except
import KirAi.Runtime.ChatStream

namespace KirAi.Runtime

open Lib

/-- The errors of the runtime that the checks answer with. -/
inductive RuntimeError
  | jsonMode (message : String)
  | toolCallValidation (message : String)
deriving DecidableEq, Repr

abbrev Checked (α : Type) := Except RuntimeError α

def toolCallValidation {α : Type} (message : String) : Checked α :=
  .error (.toolCallValidation message)

/-! ### Numbers and equality of values -/

/-- `Value::as_i64`: a negative integer is kept by its text, a minus sign and its digits. -/
def asI64 : Json → Option ℤ
  | .u64 n => if n < 2 ^ 63 then some n else none
  | .number text =>
    match text.toList with
    | '-' :: digits =>
      let n := Nat.ofDigitChars 10 digits 0
      if digits.all Char.isDigit ∧ 0 < n ∧ n ≤ 2 ^ 63 then some (-n) else none
    | _ => none
  | _ => none

section Equality

variable (sameFloat : String → String → Bool)

/-- Two numbers that are not natural are equal as `i64`, or as `f64` if neither is an `i64`. -/
def sameNumber (a b : String) : Bool :=
  match asI64 (.number a), asI64 (.number b) with
  | some i, some j => i == j
  | none, none => sameFloat a b
  | _, _ => false

mutual

/-- `==` of two values of `serde_json`. Objects are equal as maps, in whatever order their
keys stand. -/
def valueEq : Json → Json → Bool
  | .null, .null => true
  | .bool a, .bool b => a == b
  | .u64 a, .u64 b => a == b
  | .number a, .number b => sameNumber sameFloat a b
  | .string a, .string b => a == b
  | .array as, .array bs => valuesEq as bs
  | .object as, .object bs => as.length == bs.length && entriesEq as bs
  | _, _ => false

def valuesEq : List Json → List Json → Bool
  | [], [] => true
  | a :: as, b :: bs => valueEq a b && valuesEq as bs
  | _, _ => false

def entriesEq : List (String × Json) → List (String × Json) → Bool
  | [], _ => true
  | e :: es, bs => entryEq e bs && entriesEq es bs

def entryEq : String × Json → List (String × Json) → Bool
  | (key, a), bs =>
    match lookupKey bs key with
    | some b => valueEq a b
    | none => false

end

end Equality

/-! ### The texts of the errors -/

def displaySchemaPath (path : String) : String := if path.isEmpty then "$" else path

def joinSchemaPath (parent field : String) : String :=
  if parent.isEmpty then field else s!"{parent}.{field}"

def displaySchemaType : Json → String
  | .string typeName => s!"`{typeName}`"
  | .array types =>
    let names := ", ".intercalate ((types.filterMap Json.asStr).map fun name => s!"`{name}`")
    s!"[{names}]"
  | other => other.text

def firstSchemaTypeName : Json → Option String
  | .string typeName => some typeName
  | .array types => types.findSome? Json.asStr
  | _ => none

def schemaTypePlaceholder : String → String
  | "array" => "<array>"
  | "boolean" => "<boolean>"
  | "integer" => "<integer>"
  | "null" => "<null>"
  | "number" => "<number>"
  | "object" => "<object>"
  | "string" => "<string>"
  | _ => "<value>"

def expectedSchemaValueHint (schema : Option Json) : Json :=
  match schema.bind Json.asObject with
  | none => .string "<value>"
  | some schemaObject =>
    match ((lookupKey schemaObject "enum").bind Json.asArray).bind List.head? with
    | some first => first
    | none =>
      .string ((((lookupKey schemaObject "type").bind firstSchemaTypeName).map
        schemaTypePlaceholder).getD "<value>")

def expectedArgumentsObjectHint (requiredFields : List String)
    (schemaObject : List (String × Json)) : String :=
  let properties := (lookupKey schemaObject "properties").bind Json.asObject
  let hint := requiredFields.foldl (fun hint field =>
    insertKey hint field (expectedSchemaValueHint (properties.bind (lookupKey · field)))) []
  (Json.object hint).text

def missingRequiredArgumentMessage (toolName path field : String) (requiredFields : List String)
    (schemaObject : List (String × Json)) : String :=
  let required :=
    ", ".intercalate (requiredFields.map fun field => s!"`{joinSchemaPath path field}`")
  let hint := expectedArgumentsObjectHint requiredFields schemaObject
  s!"generated tool call `{toolName}` missing required argument `{joinSchemaPath path field}`; required arguments: {required}; expected arguments object: {hint}"

/-! ### The checks of one schema -/

def isBoolean : Json → Bool
  | .bool _ => true
  | _ => false

def isNull : Json → Bool
  | .null => true
  | _ => false

def isNumber : Json → Bool
  | .u64 _ => true
  | .number _ => true
  | _ => false

def jsonTypeMatches (typeName : String) (value : Json) : Bool :=
  match typeName with
  | "object" => value.asObject.isSome
  | "array" => value.asArray.isSome
  | "string" => value.asStr.isSome
  | "boolean" => isBoolean value
  | "null" => isNull value
  | "integer" => (asI64 value).isSome || value.asU64.isSome
  | "number" => isNumber value
  | _ => true

def schemaTypeMatches (schemaType value : Json) : Bool :=
  match schemaType with
  | .string typeName => jsonTypeMatches typeName value
  | .array types => (types.filterMap Json.asStr).any fun typeName => jsonTypeMatches typeName value
  | _ => true

section Checks

variable (sameFloat : String → String → Bool) (toolName : String)

/-- The check of `type`. -/
def checkType (path : String) (value : Json) (schemaObject : List (String × Json)) : Checked Unit :=
  match lookupKey schemaObject "type" with
  | none => .ok ()
  | some allowedType =>
    if schemaTypeMatches allowedType value then .ok ()
    else
      toolCallValidation s!"generated tool call `{toolName}` argument `{displaySchemaPath path}` does not match schema type {displaySchemaType allowedType}"

/-- The check of `enum`. -/
def checkEnum (path : String) (value : Json) (schemaObject : List (String × Json)) : Checked Unit :=
  match lookupKey schemaObject "enum" with
  | none => .ok ()
  | some enumValues =>
    match enumValues.asArray with
    | none =>
      toolCallValidation s!"tool `{toolName}` schema enum for `{displaySchemaPath path}` must be an array"
    | some enumValues =>
      if enumValues.any fun allowed => valueEq sameFloat allowed value then .ok ()
      else
        toolCallValidation s!"generated tool call `{toolName}` argument `{displaySchemaPath path}` is not one of the allowed enum values"

def requiredField (path : String) (field : Json) : Checked String :=
  match field.asStr with
  | some field => .ok field
  | none =>
    toolCallValidation s!"tool `{toolName}` schema required entries for `{displaySchemaPath path}` must be strings"

/-- The check of `required`. -/
def checkRequired (path : String) (object schemaObject : List (String × Json)) : Checked Unit :=
  match lookupKey schemaObject "required" with
  | none => .ok ()
  | some required =>
    match required.asArray with
    | none =>
      toolCallValidation s!"tool `{toolName}` schema required for `{displaySchemaPath path}` must be an array"
    | some required => do
      let requiredFields ← required.mapM (requiredField toolName path)
      requiredFields.forM fun field =>
        if (lookupKey object field).isSome then .ok ()
        else
          toolCallValidation
            (missingRequiredArgumentMessage toolName path field requiredFields schemaObject)

theorem sizeOf_lookupKey_lt {schemaObject : List (String × Json)} {key : String} {v : Json}
    (h : lookupKey schemaObject key = some v) : sizeOf v < sizeOf (Json.object schemaObject) := by
  obtain ⟨e, he, rfl⟩ := Option.map_eq_some_iff.1 h
  have hmem := List.sizeOf_lt_of_mem (List.mem_of_find?_eq_some he)
  have hentry : sizeOf e = 1 + sizeOf e.1 + sizeOf e.2 := rfl
  simp only [Json.object.sizeOf_spec]
  omega

theorem sizeOf_entry_lt {entries : List (String × Json)} {e : String × Json} (h : e ∈ entries) :
    sizeOf e.2 < sizeOf (Json.object entries) := by
  have hmem := List.sizeOf_lt_of_mem h
  have hentry : sizeOf e = 1 + sizeOf e.1 + sizeOf e.2 := rfl
  simp only [Json.object.sizeOf_spec]
  omega

/-- `validate_json_schema_value`. A schema that is no object constrains nothing. -/
def validateJsonSchemaValue (path : String) (value schema : Json) : Checked Unit :=
  match schema with
  | .object schemaObject => do
    checkType toolName path value schemaObject
    checkEnum sameFloat toolName path value schemaObject
    match value with
    | .object object =>
      checkRequired toolName path object schemaObject
      match _h : lookupKey schemaObject "properties" with
      | none => .ok ()
      | some (.object properties) =>
        properties.attach.forM fun field =>
          match lookupKey object field.1.1 with
          | none => .ok ()
          | some fieldValue =>
            validateJsonSchemaValue (joinSchemaPath path field.1.1) fieldValue field.1.2
      | some _ =>
        toolCallValidation s!"tool `{toolName}` schema properties for `{displaySchemaPath path}` must be an object"
    | .array array =>
      match _h : lookupKey schemaObject "items" with
      | none => .ok ()
      | some itemsSchema =>
        array.zipIdx.forM fun (item, index) =>
          validateJsonSchemaValue s!"{displaySchemaPath path}[{index}]" item itemsSchema
    | _ => .ok ()
  | _ => .ok ()
termination_by sizeOf schema
decreasing_by
  · have h1 := sizeOf_entry_lt field.2
    have h2 := sizeOf_lookupKey_lt _h
    omega
  · exact sizeOf_lookupKey_lt _h

/-- A generated call against the schema of the tool it names. -/
def validateToolCallArgumentsAgainstSchema (toolCall : ToolCall Json) (schema : Json) :
    Checked Unit :=
  let name := String.ofList toolCall.function.name
  match toolCall.function.arguments with
  | .object _ => validateJsonSchemaValue sameFloat name "" toolCall.function.arguments schema
  | _ =>
    toolCallValidation s!"generated tool call `{name}` arguments must be a JSON object"

end Checks

/-! ### The intent argument -/

def schemaTypeAcceptsString : Json → Bool
  | .string typeName => typeName == "string"
  | .array types => types.any fun typeName => typeName.asStr == some "string"
  | _ => false

/-- Whether a tool requires a text `_i` that says what the call is for. -/
def schemaRequiresStringIntentArgument (schema : Json) : Bool :=
  match schema.asObject with
  | none => false
  | some schemaObject =>
    match (lookupKey schemaObject "required").bind Json.asArray with
    | none => false
    | some required =>
      (required.any fun field => field.asStr == some "_i") &&
        match ((lookupKey schemaObject "properties").bind Json.asObject).bind (lookupKey · "_i") with
        | none => false
        | some intentSchema =>
          ((intentSchema.asObject.bind (lookupKey · "type")).map schemaTypeAcceptsString).getD false

def genericToolIntent : String := "Calling requested tool"

def toolIntentDefault (schema : Json) : String :=
  let intentSchema := ((schema.asObject.bind (lookupKey · "properties")).bind Json.asObject).bind
    (lookupKey · "_i")
  (((intentSchema.bind Json.asObject).bind (lookupKey · "default")).bind Json.asStr).filter
    (fun intent => trim intent.toList ≠ []) |>.getD genericToolIntent

section Request

variable (sameFloat : String → String → Bool)

/-- The checks of one generated call. -/
def validateToolCallAgainstRequest (request : ChatRequest Api.ToolDefinition)
    (toolCall : ToolCall Json) : Checked Unit :=
  let name := String.ofList toolCall.function.name
  match request.tools.find? fun tool => tool.function.name = toolCall.function.name with
  | none =>
    toolCallValidation s!"generated tool call `{name}` was not declared in request tools"
  | some tool =>
    match request.toolChoice with
    | some (.function required) =>
      if toolCall.function.name ≠ required then
        let required := String.ofList required
        toolCallValidation s!"generated tool call `{name}` did not match required tool `{required}`"
      else validateToolCallArgumentsAgainstSchema sameFloat toolCall tool.function.parameters
    | _ => validateToolCallArgumentsAgainstSchema sameFloat toolCall tool.function.parameters

def validateToolCallsAgainstRequest (parsed : ParsedAssistant Json)
    (request : ChatRequest Api.ToolDefinition) : Checked Unit :=
  if parsed.toolCalls.isEmpty then .ok ()
  else if request.toolChoice = some .none then
    toolCallValidation "tool_choice none does not allow generated tool calls"
  else parsed.toolCalls.forM (validateToolCallAgainstRequest sameFloat request)

end Request

/-! ### What the keywords mean -/

/-- The seven standard names of types. -/
inductive SchemaType
  | object
  | array
  | string
  | boolean
  | null
  | integer
  | number
deriving DecidableEq, Repr

def SchemaType.name : SchemaType → String
  | .object => "object"
  | .array => "array"
  | .string => "string"
  | .boolean => "boolean"
  | .null => "null"
  | .integer => "integer"
  | .number => "number"

/-- A number that is held as a `u64` or as an `i64`; `1.0` is neither. -/
inductive HoldsInteger : Json → Prop
  | natural (n : ℕ) : HoldsInteger (.u64 n)
  | negative (text : String) (digits : List Char) : text.toList = '-' :: digits →
      digits.all Char.isDigit = true → 0 < Nat.ofDigitChars 10 digits 0 →
      Nat.ofDigitChars 10 digits 0 ≤ 2 ^ 63 → HoldsInteger (.number text)

def SchemaType.Holds : SchemaType → Json → Prop
  | .object, value => ∃ entries, value = .object entries
  | .array, value => ∃ values, value = .array values
  | .string, value => ∃ s, value = .string s
  | .boolean, value => ∃ b, value = .bool b
  | .null, value => value = .null
  | .integer, value => HoldsInteger value
  | .number, value => (∃ n, value = .u64 n) ∨ ∃ text, value = .number text

/-- The `type` keyword: one of the seven names or a list of them. -/
def WellFormedType (schemaType : Json) : Prop :=
  (∃ t : SchemaType, schemaType = .string t.name) ∨
    ∃ ts : List SchemaType, schemaType = .array (ts.map fun t => .string t.name)

def HasType (schemaType value : Json) : Prop :=
  ∃ t : SchemaType, t.Holds value ∧
    (schemaType = .string t.name ∨ ∃ types, schemaType = .array types ∧ .string t.name ∈ types)

/-- A schema whose five keywords, where they are given, have the form they should have, in
the schemas inside it too. Other keywords may stand beside them. -/
inductive WellFormedSchema : Json → Prop
  | mk {schemaObject : List (String × Json)}
      (type : ∀ t, lookupKey schemaObject "type" = some t → WellFormedType t)
      (enum : ∀ e, lookupKey schemaObject "enum" = some e → ∃ values, e = .array values)
      (required : ∀ r, lookupKey schemaObject "required" = some r →
        ∃ fields : List String, r = .array (fields.map .string))
      (properties : ∀ p, lookupKey schemaObject "properties" = some p → ∃ ps, p = .object ps)
      (property : ∀ ps, lookupKey schemaObject "properties" = some (.object ps) →
        ∀ e ∈ ps, WellFormedSchema e.2)
      (items : ∀ s, lookupKey schemaObject "items" = some s → WellFormedSchema s) :
      WellFormedSchema (.object schemaObject)

/-- The meaning of the keywords. Those of objects constrain objects only, and `items`
arrays only. -/
inductive Satisfies (sameFloat : String → String → Bool) : Json → Json → Prop
  | mk {value : Json} {schemaObject : List (String × Json)}
      (type : ∀ t, lookupKey schemaObject "type" = some t → HasType t value)
      (enum : ∀ values, lookupKey schemaObject "enum" = some (.array values) →
        ∃ allowed ∈ values, valueEq sameFloat allowed value = true)
      (required : ∀ object fields, value = .object object →
        lookupKey schemaObject "required" = some (.array fields) →
        ∀ field, .string field ∈ fields → ∃ v, lookupKey object field = some v)
      (properties : ∀ object ps field fieldSchema v, value = .object object →
        lookupKey schemaObject "properties" = some (.object ps) → (field, fieldSchema) ∈ ps →
        lookupKey object field = some v → Satisfies sameFloat v fieldSchema)
      (items : ∀ values itemsSchema item, value = .array values →
        lookupKey schemaObject "items" = some itemsSchema → item ∈ values →
        Satisfies sameFloat item itemsSchema) :
      Satisfies sameFloat value (.object schemaObject)

/-! ### The checks one by one -/

theorem asI64_isSome_iff {value : Json} :
    ((asI64 value).isSome || value.asU64.isSome) = true ↔ HoldsInteger value := by
  constructor
  · intro h
    cases value with
    | u64 n => exact .natural n
    | number text =>
      have hsome : (asI64 (.number text)).isSome = true := by simpa [Json.asU64] using h
      unfold asI64 at hsome
      dsimp only at hsome
      split at hsome
      · rename_i digits htext
        by_cases hdigits : digits.all Char.isDigit = true ∧
            0 < Nat.ofDigitChars 10 digits 0 ∧ Nat.ofDigitChars 10 digits 0 ≤ 2 ^ 63
        · exact .negative text digits htext hdigits.1 hdigits.2.1 hdigits.2.2
        · rw [if_neg hdigits] at hsome
          cases hsome
      · cases hsome
    | null | bool _ | string _ | array _ | object _ => simp [asI64, Json.asU64] at h
  · intro h
    cases h with
    | natural n => simp
    | negative text digits htext hall hpos hle =>
      have hsome : asI64 (.number text) = some (-(Nat.ofDigitChars 10 digits 0 : ℤ)) := by
        unfold asI64
        simp only [htext]
        rw [if_pos ⟨hall, hpos, hle⟩]
      rw [hsome]
      rfl

theorem jsonTypeMatches_name (t : SchemaType) (value : Json) :
    jsonTypeMatches t.name value = true ↔ t.Holds value := by
  cases t with
  | integer => exact asI64_isSome_iff
  | object | array | string | boolean | null | number =>
    cases value <;>
      simp [jsonTypeMatches, SchemaType.name, SchemaType.Holds, Json.asObject, Json.asArray,
        Json.asStr, isBoolean, isNull, isNumber]

theorem name_injective {t t' : SchemaType} (h : t.name = t'.name) : t = t' := by
  cases t <;> cases t' <;> first | rfl | (revert h; decide)

/-- The types a list names are among its strings. -/
theorem schemaTypeMatches_iff {schemaType value : Json} (h : WellFormedType schemaType) :
    schemaTypeMatches schemaType value = true ↔ HasType schemaType value := by
  rcases h with ⟨t, rfl⟩ | ⟨ts, rfl⟩
  · rw [schemaTypeMatches, jsonTypeMatches_name]
    constructor
    · exact fun ht => ⟨t, ht, .inl rfl⟩
    · rintro ⟨t', ht', hname | ⟨_, hname, -⟩⟩
      · rw [name_injective (Json.string.inj hname)]
        exact ht'
      · cases hname
  · have hstrs : (ts.map fun t : SchemaType => Json.string t.name).filterMap Json.asStr =
        ts.map SchemaType.name := by
      rw [List.filterMap_map]
      exact List.filterMap_eq_map' ▸ rfl
    rw [schemaTypeMatches, hstrs, List.any_eq_true]
    constructor
    · rintro ⟨_, hmem, ht⟩
      obtain ⟨t, ht', rfl⟩ := List.mem_map.1 hmem
      exact ⟨t, (jsonTypeMatches_name t value).1 ht,
        .inr ⟨_, rfl, List.mem_map.2 ⟨t, ht', rfl⟩⟩⟩
    · rintro ⟨t, ht, hname | ⟨types, htypes, hmem⟩⟩
      · cases hname
      · obtain ⟨t', ht', hname⟩ := List.mem_map.1 (Json.array.inj htypes ▸ hmem)
        refine ⟨t.name, List.mem_map.2 ⟨t', ht', Json.string.inj hname⟩, ?_⟩
        exact (jsonTypeMatches_name t value).2 ht

section Checks

variable {sameFloat : String → String → Bool} {toolName path : String} {value : Json}
  {schemaObject : List (String × Json)}

@[simp] theorem toolCallValidation_ne_ok {α : Type} {message : String} {a : α} :
    (toolCallValidation message : Checked α) = .ok a ↔ False := ⟨nofun, False.elim⟩

theorem checkType_ok_iff (h : ∀ t, lookupKey schemaObject "type" = some t → WellFormedType t) :
    checkType toolName path value schemaObject = .ok () ↔
      ∀ t, lookupKey schemaObject "type" = some t → HasType t value := by
  unfold checkType
  cases ht : lookupKey schemaObject "type" with
  | none => simp
  | some t =>
    dsimp only
    by_cases hm : schemaTypeMatches t value = true
    · rw [if_pos hm]
      exact iff_of_true rfl fun _ he => Option.some.inj he ▸ (schemaTypeMatches_iff (h t ht)).1 hm
    · rw [if_neg hm]
      refine iff_of_false (by simp) fun hall => hm ?_
      exact (schemaTypeMatches_iff (h t ht)).2 (hall t rfl)

theorem checkEnum_ok_iff
    (h : ∀ e, lookupKey schemaObject "enum" = some e → ∃ values, e = .array values) :
    checkEnum sameFloat toolName path value schemaObject = .ok () ↔
      ∀ values, lookupKey schemaObject "enum" = some (.array values) →
        ∃ allowed ∈ values, valueEq sameFloat allowed value = true := by
  unfold checkEnum
  cases he : lookupKey schemaObject "enum" with
  | none => simp
  | some e =>
    obtain ⟨values, rfl⟩ := h e he
    simp only [Json.asArray]
    by_cases hany : (values.any fun allowed => valueEq sameFloat allowed value) = true
    · rw [if_pos hany]
      refine iff_of_true rfl fun values' heq => ?_
      obtain rfl := Json.array.inj (Option.some.inj heq)
      exact List.any_eq_true.1 hany
    · rw [if_neg hany]
      exact iff_of_false (by simp) fun hall => hany (List.any_eq_true.2 (hall values rfl))

/-- The entries of `required` are read when all of them are strings. -/
theorem requiredFields_eq : ∀ fields : List String,
    (fields.map Json.string).mapM (requiredField toolName path) = .ok fields
  | [] => rfl
  | field :: fields => by
    rw [List.map_cons, List.mapM_cons, requiredFields_eq fields]
    rfl

theorem checkRequired_ok_iff {object : List (String × Json)}
    (h : ∀ r, lookupKey schemaObject "required" = some r →
      ∃ fields : List String, r = .array (fields.map .string)) :
    checkRequired toolName path object schemaObject = .ok () ↔
      ∀ fields, lookupKey schemaObject "required" = some (.array fields) →
        ∀ field, .string field ∈ fields → ∃ v, lookupKey object field = some v := by
  unfold checkRequired
  cases hr : lookupKey schemaObject "required" with
  | none => simp
  | some r =>
    obtain ⟨fields, rfl⟩ := h r hr
    simp only [Json.asArray, requiredFields_eq, ok_bind, forM_eq_ok_iff]
    constructor
    · intro hall fields' heq field hfield
      obtain rfl := Json.array.inj (Option.some.inj heq)
      obtain ⟨field', hfield', hname⟩ := List.mem_map.1 hfield
      have hpresent := hall field' hfield'
      rw [Json.string.inj hname] at hpresent
      by_cases hv : (lookupKey object field).isSome = true
      · exact Option.isSome_iff_exists.1 hv
      · rw [if_neg hv] at hpresent
        cases hpresent
    · intro hall field hfield
      obtain ⟨v, hv⟩ := hall _ rfl field (List.mem_map.2 ⟨field, hfield, rfl⟩)
      rw [hv]
      rfl

/-- When a schema accepts: each of its checks does, and the schemas inside it accept the
fields and the items. -/
theorem validateJsonSchemaValue_object :
    validateJsonSchemaValue sameFloat toolName path value (.object schemaObject) = .ok () ↔
      checkType toolName path value schemaObject = .ok () ∧
      checkEnum sameFloat toolName path value schemaObject = .ok () ∧
      (∀ object, value = .object object →
        checkRequired toolName path object schemaObject = .ok () ∧
        ∀ p, lookupKey schemaObject "properties" = some p → ∃ ps, p = .object ps ∧
          ∀ e ∈ ps, ∀ v, lookupKey object e.1 = some v →
            validateJsonSchemaValue sameFloat toolName (joinSchemaPath path e.1) v e.2 = .ok ()) ∧
      (∀ array, value = .array array → ∀ s, lookupKey schemaObject "items" = some s →
        ∀ item ∈ array.zipIdx, validateJsonSchemaValue sameFloat toolName
          s!"{displaySchemaPath path}[{item.2}]" item.1 s = .ok ()) := by
  rw [validateJsonSchemaValue.eq_def]
  dsimp only
  rw [check_bind_eq_ok, check_bind_eq_ok]
  refine and_congr_right fun _ => and_congr_right fun _ => ?_
  cases value with
  | null | bool _ | u64 _ | number _ | string _ =>
    exact iff_of_true rfl ⟨fun _ h => (by cases h), fun _ h => (by cases h)⟩
  | object object =>
    dsimp only
    rw [and_iff_left (fun _ h => by cases h), check_bind_eq_ok]
    constructor
    · rintro ⟨hrequired, h⟩ _ heq
      obtain rfl := Json.object.inj heq
      refine ⟨hrequired, fun p hp => ?_⟩
      split at h
      · rename_i hnone
        rw [hnone] at hp
        cases hp
      · rename_i ps hps
        refine ⟨ps, Option.some.inj (hp.symm.trans hps), fun e he v hv => ?_⟩
        have hfield := forM_eq_ok_iff.1 h ⟨e, he⟩ (List.mem_attach ..)
        rw [hv] at hfield
        exact hfield
      · rw [toolCallValidation_ne_ok] at h
        exact h.elim
    · intro h
      obtain ⟨hrequired, hproperties⟩ := h object rfl
      refine ⟨hrequired, ?_⟩
      split
      · rfl
      · rename_i ps hps
        refine forM_eq_ok_iff.2 fun field _ => ?_
        obtain ⟨ps', heq, hall⟩ := hproperties _ hps
        obtain rfl := Json.object.inj heq
        split
        · rfl
        · rename_i v hv
          exact hall field.1 field.2 v hv
      · rename_i p hne hp
        obtain ⟨ps, rfl, -⟩ := hproperties _ hp
        exact absurd rfl (hne ps)
  | array array =>
    dsimp only
    rw [and_iff_right (fun _ h => by cases h)]
    constructor
    · rintro h _ heq s hs
      obtain rfl := Json.array.inj heq
      split at h
      · rename_i hnone
        rw [hnone] at hs
        cases hs
      · rename_i s' hs'
        obtain rfl := Option.some.inj (hs.symm.trans hs')
        exact forM_eq_ok_iff.1 h
    · intro h
      split
      · rfl
      · rename_i s hs
        exact forM_eq_ok_iff.2 (h array rfl s hs)

end Checks

/-- The check of a value against a schema and what the schema means, by induction on the schema. -/
theorem validateJsonSchemaValue_ok {sameFloat : String → String → Bool} {toolName path : String}
    {schema value : Json} (h : WellFormedSchema schema) :
    validateJsonSchemaValue sameFloat toolName path value schema = .ok () ↔
      Satisfies sameFloat value schema := by
  induction h generalizing path value with
  | mk type enum required properties property items ihproperty ihitems =>
    rw [validateJsonSchemaValue_object, checkType_ok_iff type, checkEnum_ok_iff enum]
    constructor
    · rintro ⟨htype, henum, hobject, harray⟩
      refine .mk htype henum (fun object fields hvalue => ?_) ?_ ?_
      · exact (checkRequired_ok_iff required).1 (hobject object hvalue).1 fields
      · intro object ps field fieldSchema v hvalue hps hmem hv
        obtain ⟨ps', heq, hall⟩ := (hobject object hvalue).2 _ hps
        obtain rfl := Json.object.inj heq
        exact (ihproperty ps hps _ hmem).1 (hall _ hmem v hv)
      · intro values itemsSchema item hvalue hitems hmem
        obtain ⟨index, hindex⟩ := List.mem_iff_getElem?.1 hmem
        have hitem : (item, index) ∈ values.zipIdx := List.mk_mem_zipIdx_iff_getElem?.2 hindex
        exact (ihitems itemsSchema hitems).1 (harray values hvalue itemsSchema hitems _ hitem)
    · rintro ⟨htype, henum, hrequired, hproperties, hitems⟩
      refine ⟨htype, henum, fun object hvalue => ⟨?_, fun p hp => ?_⟩, ?_⟩
      · exact (checkRequired_ok_iff required).2 fun fields => hrequired object fields hvalue
      · obtain ⟨ps, rfl⟩ := properties p hp
        refine ⟨ps, rfl, fun e he v hv => (ihproperty ps hp e he).2 ?_⟩
        exact hproperties object ps e.1 e.2 v hvalue hp he hv
      · intro values hvalue itemsSchema hitemsSchema item hitem
        refine (ihitems itemsSchema hitemsSchema).2 ?_
        exact hitems values itemsSchema item.1 hvalue hitemsSchema (List.fst_mem_of_mem_zipIdx hitem)

/-- **Validation is exact.** For a well-formed schema, however deep, and every value the
answer is `Ok` just if the value satisfies the schema. -/
theorem validate_json_schema_value_exact (sameFloat : String → String → Bool)
    (toolName path : String) {schema : Json} (h : WellFormedSchema schema) (value : Json) :
    validateJsonSchemaValue sameFloat toolName path value schema = .ok () ↔
      Satisfies sameFloat value schema :=
  validateJsonSchemaValue_ok h

/-- A schema that requires one field of a type. -/
def oneFieldSchema (field : String) (type : SchemaType) : Json :=
  .object [("required", .array [.string field]),
    ("properties", .object [(field, .object [("type", .string type.name)])])]

section OneField

variable {field : String} {type : SchemaType}

theorem oneFieldSchema_wellFormed : WellFormedSchema (oneFieldSchema field type) := by
  refine .mk (fun _ h => by cases h) (fun _ h => by cases h) ?_ ?_ ?_ (fun _ h => by cases h)
  · exact fun _ h => ⟨[field], (Option.some.inj h).symm⟩
  · exact fun _ h => ⟨_, (Option.some.inj h).symm⟩
  · intro ps h e he
    obtain rfl := Json.object.inj (Option.some.inj h)
    obtain rfl := List.mem_singleton.1 he
    refine .mk ?_ ?_ ?_ ?_ ?_ ?_
    · exact fun _ h => .inl ⟨type, (Option.some.inj h).symm⟩
    all_goals exact fun _ h => by cases h

theorem oneFieldSchema_satisfied {sameFloat : String → String → Bool} {value : Json}
    (hvalue : type.Holds value) :
    Satisfies sameFloat (.object [(field, value)]) (oneFieldSchema field type) := by
  have hlookup : lookupKey [(field, value)] field = some value := by simp [lookupKey]
  have hsatisfies : Satisfies sameFloat value (.object [("type", .string type.name)]) := by
    refine .mk (fun t h => ?_) (fun _ h => by cases h) (fun _ _ _ h => by cases h)
      (fun _ _ _ _ _ _ h => by cases h) (fun _ _ _ _ h => by cases h)
    rw [← Option.some.inj h]
    exact ⟨type, hvalue, .inl rfl⟩
  refine .mk (fun _ h => by cases h) (fun _ h => by cases h) ?_ ?_ (fun _ _ _ h => by cases h)
  · intro object fields hobject hfields field' hfield
    cases hobject
    cases hfields
    cases List.mem_singleton.1 hfield
    exact ⟨value, hlookup⟩
  · intro object ps field' fieldSchema v hobject hps hmem hv
    cases hobject
    cases hps
    cases List.mem_singleton.1 hmem
    obtain rfl := Option.some.inj (hlookup.symm.trans hv)
    exact hsatisfies

end OneField

/-- Arguments with the field `n` are accepted, arguments without it are not. -/
theorem validate_json_schema_value_exact_missing :
    validateJsonSchemaValue (· == ·) "lookup" "" (.object [("n", .u64 1)])
        (oneFieldSchema "n" .integer) = .ok () ∧
      validateJsonSchemaValue (· == ·) "lookup" "" (.object [("q", .string "x")])
        (oneFieldSchema "n" .integer) ≠ .ok () := by
  have hformed : WellFormedSchema (oneFieldSchema "n" .integer) := oneFieldSchema_wellFormed
  have hexact := validate_json_schema_value_exact (· == ·) "lookup" "" hformed
  refine ⟨(hexact _).2 (oneFieldSchema_satisfied (.natural 1)), (hexact _).not.2 ?_⟩
  rintro ⟨-, -, hrequired, -, -⟩
  obtain ⟨v, hv⟩ := hrequired _ _ rfl rfl "n" List.mem_cons_self
  cases hv

section Request

variable {sameFloat : String → String → Bool} {request : ChatRequest Api.ToolDefinition}

/-- What the checks of a request promise of the calls they let pass. -/
structure Admits (sameFloat : String → String → Bool) (request : ChatRequest Api.ToolDefinition)
    (toolCall : ToolCall Json) : Prop where
  chosen : ∀ required, request.toolChoice = some (.function required) →
    toolCall.function.name = required
  declared : ∃ tool,
    request.tools.find? (fun tool => tool.function.name = toolCall.function.name) = some tool ∧
      Satisfies sameFloat toolCall.function.arguments tool.function.parameters
  object : ∃ entries, toolCall.function.arguments = .object entries

theorem validateToolCallArgumentsAgainstSchema_ok {toolCall : ToolCall Json} {schema : Json}
    (h : WellFormedSchema schema) :
    validateToolCallArgumentsAgainstSchema sameFloat toolCall schema = .ok () ↔
      (∃ entries, toolCall.function.arguments = .object entries) ∧
        Satisfies sameFloat toolCall.function.arguments schema := by
  unfold validateToolCallArgumentsAgainstSchema
  dsimp only
  split
  · rename_i entries heq
    rw [validateJsonSchemaValue_ok h, and_iff_right ⟨entries, heq⟩]
  · rename_i hne
    exact iff_of_false (by simp) fun ⟨⟨entries, heq⟩, _⟩ => hne entries heq

theorem validateToolCallAgainstRequest_ok {toolCall : ToolCall Json}
    (h : ∀ tool ∈ request.tools, WellFormedSchema tool.function.parameters) :
    validateToolCallAgainstRequest sameFloat request toolCall = .ok () ↔
      Admits sameFloat request toolCall := by
  unfold validateToolCallAgainstRequest
  dsimp only
  cases htool : request.tools.find? fun tool => tool.function.name = toolCall.function.name with
  | none =>
    refine iff_of_false (by simp) fun hadmits => ?_
    obtain ⟨tool, hfind, -⟩ := hadmits.declared
    rw [htool] at hfind
    cases hfind
  | some tool =>
    have hschema : validateToolCallArgumentsAgainstSchema sameFloat toolCall
          tool.function.parameters = .ok () ↔
        (∃ entries, toolCall.function.arguments = .object entries) ∧
          Satisfies sameFloat toolCall.function.arguments tool.function.parameters :=
      validateToolCallArgumentsAgainstSchema_ok (h tool (List.mem_of_find?_eq_some htool))
    have hadmits : Admits sameFloat request toolCall ↔
        (∀ required, request.toolChoice = some (.function required) →
          toolCall.function.name = required) ∧
        (∃ entries, toolCall.function.arguments = .object entries) ∧
          Satisfies sameFloat toolCall.function.arguments tool.function.parameters := by
      constructor
      · rintro ⟨hchosen, ⟨tool', hfind, hsatisfies⟩, hobject⟩
        obtain rfl := Option.some.inj (htool.symm.trans hfind)
        exact ⟨hchosen, hobject, hsatisfies⟩
      · rintro ⟨hchosen, hobject, hsatisfies⟩
        exact ⟨hchosen, ⟨tool, htool, hsatisfies⟩, hobject⟩
    rw [hadmits, ← hschema]
    dsimp only
    split
    · rename_i required hchoice
      by_cases hname : toolCall.function.name = required
      · rw [if_neg (not_not.2 hname)]
        refine (and_iff_right fun required' hrequired' => ?_).symm
        obtain rfl := ToolChoice.function.inj (Option.some.inj (hchoice.symm.trans hrequired'))
        exact hname
      · rw [if_pos hname]
        exact iff_of_false (by simp) fun hall => hname (hall.1 required hchoice)
    · rename_i hne
      exact (and_iff_right fun required hrequired => absurd hrequired (hne required)).symm

/-- What a request promises when its checks pass: every generated call names a declared tool,
the required one if there is one, with arguments that satisfy its schema. -/
theorem validateToolCallsAgainstRequest_ok {parsed : ParsedAssistant Json}
    (h : ∀ tool ∈ request.tools, WellFormedSchema tool.function.parameters) :
    validateToolCallsAgainstRequest sameFloat parsed request = .ok () ↔
      parsed.toolCalls = [] ∨ request.toolChoice ≠ some .none ∧
        ∀ toolCall ∈ parsed.toolCalls, Admits sameFloat request toolCall := by
  unfold validateToolCallsAgainstRequest
  by_cases hempty : parsed.toolCalls = []
  · rw [hempty]
    exact iff_of_true rfl (.inl rfl)
  · rw [if_neg (by simpa using hempty), or_iff_right hempty]
    by_cases hnone : request.toolChoice = some .none
    · rw [if_pos hnone]
      exact iff_of_false (by simp) fun hall => hall.1 hnone
    · rw [if_neg hnone, forM_eq_ok_iff, and_iff_right hnone]
      exact forall_congr' fun _ => imp_congr_right fun _ => validateToolCallAgainstRequest_ok h

end Request

end KirAi.Runtime
