/-
# Tool-call deltas in a chat stream

A backend may send tool calls in parts, each with the index of its call. Where a tool
requires an intent argument the arguments are held back until the stream has ended
(`tool_call.rs`, `streaming.rs`): names and ids go out at once, under the index of the
backend, and the arguments at the end, under the position of the call in the list of
assembled calls. That list leaves out the calls that were never named. Beside its
structured calls a backend may write calls into the text (`textCalls`); they are sent
whole as soon as their block is closed.

`chunksRead` says which chunks a stream reads, `textsRead` at which texts it looks for
closed blocks, and `merged` is a client that puts the deltas of an index together.

Key definitions: `fillMissingToolIntentArguments`, `chunksRead`, `textCalls`, `merged`,
`KeepsIndices`, `NoGap`.
Key theorems: `assembleCalls_ok`, `noGap_iff_dense`, `merged_without_arguments`.
-/
import KirAi.Lib.Compaction
import KirAi.Runtime.ChatStreamMarkup
import KirAi.Runtime.ResponseValidation

namespace KirAi.Runtime

open Lib Lib.Text
open TryStream (Flow Ensures Emits ensures_pure ensures_yield ensures_fail ensures_bind
  ensures_mono ensures_and ensures_mem ensures_orFail ensures_after emits_pure emits_fail
  emits_orFail emits_yield emits_bind)

/-! ### The intent argument of generated calls -/

def requestMayFillToolIntentArguments (request : ChatRequest Api.ToolDefinition) : Bool :=
  request.tools.any fun tool => schemaRequiresStringIntentArgument tool.function.parameters

/-- A call whose tool requires an intent gets the default one, if it has none. -/
def fillToolIntentArgument (request : ChatRequest Api.ToolDefinition) (toolCall : ToolCall Json) :
    ToolCall Json :=
  match toolCall.function.arguments with
  | .object arguments =>
    if (lookupKey arguments "_i").isSome then toolCall
    else
      match request.tools.find? fun tool => tool.function.name = toolCall.function.name with
      | none => toolCall
      | some tool =>
        if schemaRequiresStringIntentArgument tool.function.parameters then
          let intent := Json.string (toolIntentDefault tool.function.parameters)
          { toolCall with function := { toolCall.function with
              arguments := .object (insertKey arguments "_i" intent) } }
        else toolCall
  | _ => toolCall

theorem fillToolIntentArgument_keeps (request : ChatRequest Api.ToolDefinition)
    (call : ToolCall Json) : (fillToolIntentArgument request call).function.name = call.function.name ∧
      (fillToolIntentArgument request call).id = call.id := by
  unfold fillToolIntentArgument
  split
  · split
    · exact ⟨rfl, rfl⟩
    · split
      · exact ⟨rfl, rfl⟩
      · split <;> exact ⟨rfl, rfl⟩
  · exact ⟨rfl, rfl⟩

def fillMissingToolIntentArguments (parsed : ParsedAssistant Json)
    (request : ChatRequest Api.ToolDefinition) : ParsedAssistant Json :=
  { parsed with toolCalls := parsed.toolCalls.map (fillToolIntentArgument request) }

/-- The stream with the intent arguments of the source. -/
def withIntents {ε : Type} (deps : ChatDeps Json Api.ToolDefinition ε) :
    ChatDeps Json Api.ToolDefinition ε :=
  { deps with
    fillMissingToolIntentArguments := fillMissingToolIntentArguments
    requestMayFillToolIntentArguments := requestMayFillToolIntentArguments }

/-! ### What is read and what a client makes of it -/

/-- Whether a stop is seen in the text once the chunk is read. -/
def stopsIn (stop : List Str) (raw : Str) (chunk : BackendStreamChunk) : Bool :=
  !chunk.text.isEmpty && (earliestStopIndex (raw ++ chunk.text) stop).isSome

/-- Whether the chunk after the text `raw` is the last that is read. -/
def endsReading (stop : List Str) (raw : Str) (chunk : BackendStreamChunk) : Bool :=
  chunk.finishReason.isSome || stopsIn stop raw chunk

/-- The chunks a stream reads: up to an error, a finish reason or the first stop. -/
def chunksRead {ε : Type} (stop : List Str) :
    Str → List (Except ε BackendStreamChunk) → List BackendStreamChunk
  | raw, .ok chunk :: rest =>
    if endsReading stop raw chunk then [chunk]
    else chunk :: chunksRead stop (raw ++ chunk.text) rest
  | _, _ => []

/-- The texts in which a stream looks for closed tool blocks: one after each chunk it reads,
but for the chunk with the first stop. -/
def textsRead {ε : Type} (stop : List Str) : Str → List (Except ε BackendStreamChunk) → List Str
  | raw, .ok chunk :: rest =>
    if stopsIn stop raw chunk then []
    else
      (raw ++ chunk.text) ::
        if chunk.finishReason.isSome then [] else textsRead stop (raw ++ chunk.text) rest
  | _, _ => []

def deltasOf (chunks : List BackendStreamChunk) : List ToolCallDelta :=
  chunks.flatMap fun chunk => chunk.toolCallDeltas.map apiToolCallDelta

/-- The calls that the text amounts to up to its last end marker. A required choice of a tool
holds them back when there is content beside them. -/
def textCalls {J τ ε : Type} (deps : ChatDeps J τ ε) (family : ModelFamily)
    (request : ChatRequest τ) (raw : Str) : List (ToolCall J) :=
  match (toolMarkupPolicy family).latestCompletedPrefixFrom raw 0 with
  | none => []
  | some prefixLen =>
    match deps.parseComplete family (takeTo raw prefixLen) with
    | .error _ => []
    | .ok parsed =>
      if deferredOf family request = .toolChoiceRequired ∧ parsed.content ≠ [] then []
      else parsed.toolCalls

/-- The tool-call deltas of an event. -/
def ChatCompletionStreamEvent.toolCalls : ChatCompletionStreamEvent → List ToolCallDelta
  | .chunk response _ => response.choices.flatMap (·.delta.toolCalls)
  | _ => []

/-- The tool-call deltas that a client gets. -/
def sent (evs : List ChatCompletionStreamEvent) : List ToolCallDelta :=
  evs.flatMap (·.toolCalls)

def ToolCallDelta.name (d : ToolCallDelta) : Option Str := d.function.bind (·.name)

def ToolCallDelta.arguments (d : ToolCallDelta) : Option Str := d.function.bind (·.arguments)

/-- A delta with arguments alone. -/
def ToolCallDelta.isArguments (d : ToolCallDelta) : Bool :=
  d.id.isNone && d.name.isNone && d.arguments.isSome

def argumentDeltas (evs : List ChatCompletionStreamEvent) : List ToolCallDelta :=
  (sent evs).filter (·.isArguments)

/-- What a client makes of the deltas of an index. -/
def merged (ds : List ToolCallDelta) (index : ℕ) : StructuredToolCallAccumulator :=
  (ds.filter (·.index = index)).foldl (·.add ·) {}

/-- The parts in which the arguments of an index come. -/
def argumentParts (ds : List ToolCallDelta) (index : ℕ) : List Str :=
  (ds.filter (·.index = index)).filterMap (·.arguments)

/-- The calls that the structured deltas amount to. -/
def assembled {J τ ε : Type} (deps : ChatDeps J τ ε) (ds : List ToolCallDelta) :
    Except ε (List (ToolCall J)) :=
  assembleCalls deps 0 (ds.foldl StructuredToolDeltaAssembler.push {}).calls

/-- A client that puts the deltas of `index` together has `call`: its name, an id only if it
is that of the call, and its printed arguments, which come in one delta. -/
structure Obtains {J τ ε : Type} (deps : ChatDeps J τ ε) (ds : List ToolCallDelta) (index : ℕ)
    (call : ToolCall J) : Prop where
  name : (merged ds index).name = call.function.name
  id : ∀ id, (merged ds index).id = some id → call.id = id
  arguments : deps.jsonToString call.function.arguments = .ok (merged ds index).arguments
  parts : (argumentParts ds index).length = 1

/-- There is an arguments delta for every call, and under its index a client has the call. -/
structure KeepsIndices {J τ ε : Type} (deps : ChatDeps J τ ε)
    (evs : List ChatCompletionStreamEvent) (calls : List (ToolCall J)) : Prop where
  count : (argumentDeltas evs).length = calls.length
  obtains : ∀ (k : ℕ) (d : ToolCallDelta) (call : ToolCall J), (argumentDeltas evs)[k]? = some d →
    calls[k]? = some call → Obtains deps (sent evs) d.index call

/-- No call is named behind one that is not. -/
def NoGap (ds : List ToolCallDelta) : Prop :=
  ∀ i j : ℕ, i < j → trim (merged ds j).name ≠ [] → trim (merged ds i).name ≠ []

/-! ### The assembler -/

theorem push_slot (a : StructuredToolDeltaAssembler) (d : ToolCallDelta) (i : ℕ) :
    ((a.push d).calls[i]?).getD {} =
      if d.index = i then ((a.calls[i]?).getD {}).add d else (a.calls[i]?).getD {} := by
  unfold StructuredToolDeltaAssembler.push
  dsimp only
  have hslot : ((a.calls ++ List.replicate (d.index + 1 - a.calls.length)
      ({} : StructuredToolCallAccumulator))[i]?).getD {} = (a.calls[i]?).getD {} := by
    rcases Nat.lt_or_ge i a.calls.length with hlt | hge
    · rw [List.getElem?_append_left hlt]
    · rw [List.getElem?_append_right hge, List.getElem?_eq_none hge, List.getElem?_replicate]
      split <;> rfl
  rw [List.getElem?_modify]
  by_cases hi : d.index = i
  · have hlen : i < (a.calls ++ List.replicate (d.index + 1 - a.calls.length)
        ({} : StructuredToolCallAccumulator)).length := by
      rw [List.length_append, List.length_replicate]
      omega
    rw [if_pos hi, ← hslot, List.getElem?_eq_getElem hlen]
    simp only [if_pos hi, Option.map_eq_map, Option.map_some, Option.getD_some]
  · rw [if_neg hi, ← hslot]
    simp only [if_neg hi]
    rw [Option.map_eq_map, Option.map_id']

/-- A slot of the assembler holds the deltas of its index. -/
theorem slot_eq_merged (i : ℕ) : ∀ (ds : List ToolCallDelta) (a : StructuredToolDeltaAssembler),
    ((ds.foldl StructuredToolDeltaAssembler.push a).calls[i]?).getD {} =
      (ds.filter (·.index = i)).foldl (·.add ·) ((a.calls[i]?).getD {})
  | [], _ => rfl
  | d :: ds, a => by
    rw [List.foldl_cons, slot_eq_merged i ds (a.push d), push_slot]
    by_cases hi : d.index = i
    · rw [if_pos hi, List.filter_cons_of_pos (by simpa using hi), List.foldl_cons]
    · rw [if_neg hi, List.filter_cons_of_neg (by simpa using hi)]

/-- Without its arguments a delta keeps its index, its id and its name; if it has neither,
it is not sent. -/
theorem withoutArguments_cases (d : ToolCallDelta) :
    (∃ d', structuredToolDeltaWithoutArguments d = some d' ∧ d'.arguments = none ∧
      d'.index = d.index ∧ d'.id = d.id ∧
      d'.function.bind (·.name) = d.function.bind (·.name)) ∨
    (structuredToolDeltaWithoutArguments d = none ∧ d.id = none ∧
      d.function.bind (·.name) = none) := by
  obtain ⟨index, id, callType, function⟩ := d
  unfold structuredToolDeltaWithoutArguments
  dsimp only
  split
  · refine .inl ⟨_, rfl, ?_, rfl, rfl, ?_⟩ <;>
      rcases function with _ | ⟨_ | name, arguments⟩ <;> rfl
  · next h =>
    refine .inr ⟨rfl, ?_⟩
    rcases function with _ | ⟨_ | name, arguments⟩ <;>
      simp [structuredToolDeltaHasProgress] at h ⊢ <;> exact h.1

theorem withoutArguments_arguments {d d' : ToolCallDelta}
    (h : structuredToolDeltaWithoutArguments d = some d') : d'.arguments = none := by
  rcases withoutArguments_cases d with ⟨d'', hd, harguments, -⟩ | ⟨hd, -⟩
  · obtain rfl := Option.some.inj (h.symm.trans hd)
    exact harguments
  · rw [hd] at h
    cases h

/-- The name and the id of a call come through when its arguments are left out. -/
theorem merged_without_arguments (i : ℕ) : ∀ (ds : List ToolCallDelta)
    (x y : StructuredToolCallAccumulator), x.name = y.name → x.id = y.id →
    (((ds.filterMap structuredToolDeltaWithoutArguments).filter (·.index = i)).foldl
        (·.add ·) x).name = ((ds.filter (·.index = i)).foldl (·.add ·) y).name ∧
      (((ds.filterMap structuredToolDeltaWithoutArguments).filter (·.index = i)).foldl
        (·.add ·) x).id = ((ds.filter (·.index = i)).foldl (·.add ·) y).id
  | [], _, _, hname, hid => ⟨hname, hid⟩
  | d :: ds, x, y, hname, hid => by
    rcases withoutArguments_cases d with ⟨d', hd, -, hindex, hdid, hdname⟩ | ⟨hd, hdid, hdname⟩
    · rw [List.filterMap_cons_some hd]
      by_cases hi : d.index = i
      · rw [List.filter_cons_of_pos (by simpa using hindex.trans hi),
          List.filter_cons_of_pos (by simpa using hi), List.foldl_cons, List.foldl_cons]
        refine merged_without_arguments i ds _ _ ?_ ?_
        · simp only [StructuredToolCallAccumulator.add, hname, hdname]
        · simp only [StructuredToolCallAccumulator.add, hid, hdid]
      · rw [List.filter_cons_of_neg (by simpa [hindex] using hi),
          List.filter_cons_of_neg (by simpa using hi)]
        exact merged_without_arguments i ds x y hname hid
    · rw [List.filterMap_cons_none hd]
      by_cases hi : d.index = i
      · rw [List.filter_cons_of_pos (l := ds) (by simpa using hi), List.foldl_cons]
        refine merged_without_arguments i ds _ _ ?_ ?_
        · simp only [StructuredToolCallAccumulator.add, hname, hdname, Option.getD_none,
            List.append_nil]
        · rw [StructuredToolCallAccumulator.add, hdid]
          exact hid
      · rw [List.filter_cons_of_neg (l := ds) (by simpa using hi)]
        exact merged_without_arguments i ds x y hname hid

/-- The calls with a name, with their indices. -/
def namedCalls (i : ℕ) (calls : List StructuredToolCallAccumulator) :
    List (ℕ × StructuredToolCallAccumulator) :=
  kept (fun call => decide (trim call.name ≠ [])) i calls

/-- The assembled calls are the ones with a name. -/
theorem assembleCalls_ok {J τ ε : Type} {deps : ChatDeps J τ ε} :
    ∀ {accs : List StructuredToolCallAccumulator} {i : ℕ} {calls : List (ToolCall J)},
      assembleCalls deps i accs = .ok calls →
      List.Forall₂ (fun e call => call.function.name = e.2.name ∧
        ∀ id, e.2.id = some id → call.id = id) (namedCalls i accs) calls
  | [], _, _, h => by
    obtain rfl := Except.ok.inj h
    exact .nil
  | acc :: accs, i, calls, h => by
    rw [assembleCalls] at h
    unfold namedCalls
    rw [kept]
    by_cases hname : trim acc.name = []
    · rw [if_neg (by simpa using hname)]
      by_cases hargs : trim acc.arguments = []
      · rw [if_pos ⟨hname, hargs⟩] at h
        exact assembleCalls_ok h
      · rw [if_neg (fun hboth => hargs hboth.2), if_pos hname] at h
        cases h
    · rw [if_neg (fun hboth => hname hboth.1), if_neg hname] at h
      obtain ⟨arguments, -, h⟩ := bind_eq_ok.1 h
      obtain ⟨rest, hrest, h⟩ := bind_eq_ok.1 h
      obtain rfl := pure_eq_ok.1 h
      rw [if_pos (by simpa using hname)]
      refine .cons ⟨rfl, fun id hid => ?_⟩ (assembleCalls_ok hrest)
      show acc.id.getD _ = id
      rw [show acc.id = some id from hid, Option.getD_some]

theorem merged_eq_slot (ds : List ToolCallDelta) (i : ℕ) : merged ds i =
    ((ds.foldl StructuredToolDeltaAssembler.push {}).calls[i]?).getD {} :=
  (slot_eq_merged i ds {}).symm

theorem noGap_iff_dense (ds : List ToolCallDelta) :
    NoGap ds ↔ Dense (fun call => decide (trim call.name ≠ []))
      (ds.foldl StructuredToolDeltaAssembler.push {}).calls := by
  have hsome : ∀ i, trim (merged ds i).name ≠ [] ↔
      ∃ call, (ds.foldl StructuredToolDeltaAssembler.push {}).calls[i]? = some call ∧
        decide (trim call.name ≠ []) = true := by
    intro i
    rw [merged_eq_slot]
    cases (ds.foldl StructuredToolDeltaAssembler.push {}).calls[i]? with
    | none => simp [trim, trimStart]
    | some call => simp
  constructor
  · intro h i j b hij hb hp
    exact (hsome i).1 (h i j hij ((hsome j).2 ⟨b, hb, hp⟩))
  · intro h i j hij hj
    obtain ⟨b, hb, hp⟩ := (hsome j).1 hj
    exact (hsome i).2 (h i j b hij hb hp)

/-! ### Deltas of the arguments -/

theorem isArguments_of_none {d : ToolCallDelta} (h : d.arguments = none) : d.isArguments = false := by
  simp [ToolCallDelta.isArguments, h]

/-- The delta with the arguments of the call at `index`. -/
def argumentsDelta (index : ℕ) (text : Str) : ToolCallDelta :=
  ⟨index, none, none, some ⟨none, some text⟩⟩

/-- Arguments deltas under consecutive indices. -/
def argumentsFrom : ℕ → List Str → List ToolCallDelta
  | _, [] => []
  | i, text :: texts => argumentsDelta i text :: argumentsFrom (i + 1) texts

theorem filter_argumentsFrom : ∀ (texts : List Str) (i : ℕ),
    (argumentsFrom i texts).filter (·.isArguments) = argumentsFrom i texts
  | [], _ => rfl
  | text :: texts, i => by
    rw [argumentsFrom, List.filter_cons_of_pos (by rfl), filter_argumentsFrom texts (i + 1)]

theorem getElem?_argumentsFrom : ∀ (texts : List Str) (i k : ℕ),
    (argumentsFrom i texts)[k]? = (texts[k]?).map (argumentsDelta (i + k))
  | [], _, _ => by simp [argumentsFrom]
  | text :: texts, i, 0 => rfl
  | text :: texts, i, k + 1 => by
    rw [argumentsFrom, List.getElem?_cons_succ, List.getElem?_cons_succ,
      getElem?_argumentsFrom texts (i + 1) k, Nat.add_right_comm, Nat.add_assoc]

theorem length_argumentsFrom : ∀ (texts : List Str) (i : ℕ),
    (argumentsFrom i texts).length = texts.length
  | [], _ => rfl
  | _ :: texts, i => congrArg (· + 1) (length_argumentsFrom texts (i + 1))

/-- Under an index there is the text at its position. -/
theorem filter_index_argumentsFrom : ∀ (texts : List Str) (i k : ℕ),
    (argumentsFrom i texts).filter (·.index = i + k) =
      (texts[k]?).toList.map (argumentsDelta (i + k))
  | [], _, _ => by simp [argumentsFrom]
  | text :: texts, i, 0 => by
    have hnone : (argumentsFrom (i + 1) texts).filter (·.index = i + 0) = [] := by
      refine List.filter_eq_nil_iff.2 fun d hd => ?_
      obtain ⟨k, hk⟩ := List.mem_iff_getElem?.1 hd
      rw [getElem?_argumentsFrom] at hk
      obtain ⟨text, -, rfl⟩ := Option.map_eq_some_iff.1 hk
      have : (argumentsDelta (i + 1 + k) text).index = i + 1 + k := rfl
      rw [decide_eq_true_eq]
      omega
    rw [argumentsFrom, List.filter_cons_of_pos (by simp [argumentsDelta]), hnone]
    rfl
  | text :: texts, i, k + 1 => by
    have hne : ¬decide ((argumentsDelta i text).index = i + (k + 1)) = true := by
      have : (argumentsDelta i text).index = i := rfl
      rw [decide_eq_true_eq]
      omega
    rw [argumentsFrom, List.filter_cons_of_neg (by exact hne), show i + (k + 1) = i + 1 + k by omega,
      filter_index_argumentsFrom texts (i + 1) k]
    rfl

theorem merged_arguments (ds : List ToolCallDelta) (i : ℕ) :
    (merged ds i).arguments = (argumentParts ds i).flatten := by
  unfold merged argumentParts
  have hfold : ∀ (ds : List ToolCallDelta) (acc : StructuredToolCallAccumulator),
      (ds.foldl (·.add ·) acc).arguments = acc.arguments ++ (ds.filterMap (·.arguments)).flatten := by
    intro ds
    induction ds with
    | nil => intro acc; simp
    | cons d ds ih =>
      intro acc
      rw [List.foldl_cons, ih]
      cases hd : d.arguments with
      | none =>
        rw [List.filterMap_cons_none hd]
        simp [StructuredToolCallAccumulator.add, show d.function.bind (·.arguments) = none from hd]
      | some text =>
        rw [List.filterMap_cons_some hd]
        simp [StructuredToolCallAccumulator.add, show d.function.bind (·.arguments) = some text from hd]
  rw [hfold]
  rfl

theorem argumentParts_append (ds ds' : List ToolCallDelta) (i : ℕ) :
    argumentParts (ds ++ ds') i = argumentParts ds i ++ argumentParts ds' i := by
  simp only [argumentParts, List.filter_append, List.filterMap_append]

theorem argumentParts_argumentsFrom (texts : List Str) (k : ℕ) :
    argumentParts (argumentsFrom 0 texts) k = (texts[k]?).toList := by
  have hfilter := filter_index_argumentsFrom texts 0 k
  rw [Nat.zero_add] at hfilter
  rw [argumentParts, hfilter]
  cases texts[k]? <;> rfl

theorem argumentParts_without (ds : List ToolCallDelta) (k : ℕ) :
    argumentParts (ds.filterMap structuredToolDeltaWithoutArguments) k = [] := by
  refine List.filterMap_eq_nil_iff.2 fun d hd => ?_
  obtain ⟨d₀, -, hd₀⟩ := List.mem_filterMap.1 (List.mem_of_mem_filter hd)
  exact withoutArguments_arguments hd₀

/-- Arguments deltas leave the names and the ids that were sent before them. -/
theorem merged_append_argumentsFrom (ds : List ToolCallDelta) (texts : List Str) (k : ℕ) :
    (merged (ds ++ argumentsFrom 0 texts) k).name = (merged ds k).name ∧
      (merged (ds ++ argumentsFrom 0 texts) k).id = (merged ds k).id := by
  have hfilter := filter_index_argumentsFrom texts 0 k
  rw [Nat.zero_add] at hfilter
  rw [merged, merged, List.filter_append, hfilter, List.foldl_append]
  cases texts[k]? with
  | none => exact ⟨rfl, rfl⟩
  | some text => exact ⟨List.append_nil _, rfl⟩

/-! ### Steps without deltas -/

theorem sent_append (evs evs' : List ChatCompletionStreamEvent) :
    sent (evs ++ evs') = sent evs ++ sent evs' :=
  List.flatMap_append

/-- An event without deltas. -/
def Mute (e : ChatCompletionStreamEvent) : Prop := e.toolCalls = []

theorem sent_mute {evs : List ChatCompletionStreamEvent} (h : ∀ e ∈ evs, Mute e) : sent evs = [] :=
  List.flatMap_eq_nil_iff.2 h

theorem toolCalls_seedChunk (delta : ChatCompletionDelta) (range : Option (ℕ × ℕ)) :
    (ChatCompletionStreamEvent.chunk (streamSeedChunk delta none none) range).toolCalls =
      delta.toolCalls := by
  simp [ChatCompletionStreamEvent.toolCalls, streamSeedChunk]

/-- Arguments under the index 0, before the end of the stream. -/
def Spoiled (evs : List ChatCompletionStreamEvent) : Prop :=
  ∃ e ∈ evs, ∃ d ∈ e.toolCalls, d.index = 0 ∧ d.arguments.isSome = true

section Steps

variable {J τ ε : Type} {deps : ChatDeps J τ ε} {request : ChatRequest τ} {s : ChatState}
  {evs : List ChatCompletionStreamEvent}

/-- A step without deltas leaves those sent so far. -/
theorem ensures_mute {α : Type} {m : ChatBody ε α} (hm : Emits Mute m)
    {Q : List ChatCompletionStreamEvent → α → Prop}
    (hQ : ∀ evs' a, sent evs' = sent evs → (Spoiled evs → Spoiled evs') → Q evs' a) :
    Ensures m evs Q (fun _ _ => True) := by
  refine ensures_after hm fun es a hes => hQ _ a ?_ ?_
  · rw [sent_append, sent_mute hes, List.append_nil]
  · rintro ⟨e, he, hd⟩
    exact ⟨e, List.mem_append_left _ he, hd⟩

theorem mute_sliceText {raw : Str} {a b : ℕ} : Emits Mute (sliceText raw a b : ChatBody ε Str) := by
  unfold sliceText
  split
  · exact emits_pure _
  · exact emits_fail _

theorem mute_yieldDelta {delta : ChatCompletionDelta} (h : delta.toolCalls = []) :
    Emits Mute (yieldDelta delta : ChatBody ε Unit) :=
  emits_yield ((toolCalls_seedChunk delta none).trans h)

theorem mute_emitContent {raw : Str} {a b : ℕ} :
    Emits Mute (emitContent raw a b : ChatBody ε Unit) :=
  emits_bind mute_sliceText fun _ => emits_yield (toolCalls_seedChunk _ _)

theorem mute_failOn (c : Option NoProgressClass) : Emits Mute (failOn c : ChatBody ε Unit) := by
  cases c with
  | none => exact emits_pure _
  | some c => exact emits_fail _

theorem mute_yieldStage (seen : Bool) (stage : ChatCompletionStreamStage) :
    Emits Mute (yieldStage seen stage : ChatBody ε Unit) := by
  unfold yieldStage
  split
  · exact emits_yield rfl
  · exact emits_pure _

theorem mute_yieldChatClosing (includeUsage : Bool) (reason : FinishReason) (usage : Usage) :
    Emits Mute (yieldChatClosing includeUsage reason usage : ChatBody ε Unit) := by
  refine emits_bind (emits_yield rfl) fun _ => ?_
  split
  · exact emits_bind (emits_yield rfl) fun _ => emits_yield rfl
  · exact emits_yield rfl

theorem mute_yieldChatProgress (p : Option BackendStreamProgress) :
    Emits Mute (yieldChatProgress p : ChatBody ε Unit) := by
  cases p with
  | none => exact emits_pure _
  | some p => exact emits_yield rfl

theorem mute_yieldInternalProgress (chunk : BackendStreamChunk) (s : ChatState) :
    Emits Mute (yieldInternalProgress chunk s : ChatBody ε Unit) := by
  unfold yieldInternalProgress
  split
  · exact emits_yield rfl
  · exact emits_pure _

theorem mute_emitDeferredContent (deferred : DeferredEmission) (emittedLen : ℕ)
    (parsed : ParsedAssistant J) :
    Emits Mute (emitDeferredContent deferred emittedLen parsed : ChatBody ε Unit) := by
  unfold emitDeferredContent
  split
  · exact emits_pure _
  · split
    · exact mute_yieldDelta rfl
    · exact emits_pure _
  · split
    · exact mute_yieldDelta rfl
    · exact emits_pure _
  · split
    · split
      · split
        · exact mute_yieldDelta rfl
        · exact emits_pure _
      · exact emits_pure _
    · exact emits_pure _

theorem mute_flushContent (deferred : DeferredEmission) (s : ChatState) :
    Emits Mute (flushContent deferred s : ChatBody ε Unit) := by
  unfold flushContent
  dsimp only
  split
  · exact mute_emitContent
  · exact emits_pure _

end Steps

/-! ### The calls of the text -/

section TextCalls

variable {J τ ε : Type} {deps : ChatDeps J τ ε} {evs : List ChatCompletionStreamEvent}

/-- No arguments delta yet. -/
def ArgumentsHeld (evs : List ChatCompletionStreamEvent) : Prop :=
  ∀ d ∈ sent evs, d.isArguments = false

/-- A call of the text comes whole. -/
theorem toolCallDelta_whole {z z' : ToolCallDeltaSerializer} {i : ℕ} {call : ToolCall J}
    {d : ToolCallDelta} (h : z.toolCallDelta deps i call = .ok (d, z')) :
    d.index = i ∧ d.arguments.isSome = true ∧ d.isArguments = false := by
  unfold ToolCallDeltaSerializer.toolCallDelta at h
  obtain ⟨index, hindex, h⟩ := bind_eq_ok.1 h
  obtain ⟨_, -, h⟩ := bind_eq_ok.1 h
  obtain ⟨rfl, -⟩ := Prod.mk.inj (pure_eq_ok.1 h)
  refine ⟨?_, rfl, rfl⟩
  unfold apiToolCallIndex at hindex
  split at hindex
  · exact (Except.ok.inj hindex).symm
  · cases hindex

theorem ArgumentsHeld.concat (h : ArgumentsHeld evs) {d : ToolCallDelta} (hd : d.isArguments = false) :
    ArgumentsHeld (evs ++ [.chunk (streamSeedChunk { toolCalls := [d] } none none) none]) := by
  intro d' hd'
  rw [sent_append, List.mem_append] at hd'
  rcases hd' with hd' | hd'
  · exact h d' hd'
  · obtain ⟨e, he, hd'⟩ := List.mem_flatMap.1 hd'
    rw [List.mem_singleton.1 he, toolCalls_seedChunk] at hd'
    rw [List.mem_singleton.1 hd']
    exact hd

/-- Whole calls are no arguments deltas. -/
theorem ensures_yieldWhole_held : ∀ (calls : List (ToolCall J)) (z : ToolCallDeltaSerializer)
    (i : ℕ) {evs : List ChatCompletionStreamEvent}, ArgumentsHeld evs →
    Ensures (yieldToolCalls (fun z => z.toolCallDelta deps) z i calls) evs
      (fun evs' _ => ArgumentsHeld evs') (fun _ _ => True)
  | [], _, _, _, h => ensures_pure h
  | call :: calls, z, i, evs, h => by
    refine ensures_bind (ensures_orFail (fun r hr => ?_) fun _ _ => trivial)
    obtain ⟨-, -, hd⟩ := toolCallDelta_whole (mapError_eq_ok.1 hr)
    exact ensures_bind (ensures_yield (ensures_yieldWhole_held calls r.2 (i + 1) (h.concat hd)))

/-- The first of them has the index 0. -/
theorem ensures_yieldWhole_spoils {calls : List (ToolCall J)} (hcalls : calls ≠ [])
    (z : ToolCallDeltaSerializer) :
    Ensures (yieldToolCalls (fun z => z.toolCallDelta deps) z 0 calls) evs
      (fun evs' _ => Spoiled evs') (fun _ _ => True) := by
  cases calls with
  | nil => exact absurd rfl hcalls
  | cons call calls =>
    refine ensures_bind (ensures_orFail (fun r hr => ?_) fun _ _ => trivial)
    obtain ⟨hindex, harguments, -⟩ := toolCallDelta_whole (mapError_eq_ok.1 hr)
    refine ensures_bind (ensures_yield (ensures_mono
      (ensures_mem (List.mem_append_right _ (List.mem_singleton_self _)))
      (fun evs' _ hmem => ⟨_, hmem, r.1, ?_, hindex, harguments⟩) fun _ _ _ => trivial))
    rw [toolCalls_seedChunk]
    exact List.mem_singleton_self _

end TextCalls

end KirAi.Runtime
