/-
# Structured tool calls in a chat stream

With the arguments held back, a client that merges the deltas by index has the assembled
calls just if no call is named behind one that is not (`NoGap`) and, where there is a named
call, no call stood in the text. A gap moves the arguments to other indices than the names.
The calls of the text are numbered from 0 as well, and the serializer keeps their printed
arguments: the first assembled call gets the arguments of the first call of the text.

`Collected` is the invariant of the loop: as long as no text has had a call, what was sent
are the structured deltas without their arguments; once one had, there are arguments under
the index 0.

Key definitions: `Collected`, `Searched`, `Delivers`.
Key theorems: `ensures_chat_loop_calls`, `buffered_arguments_keep_index_iff`.
-/
import KirAi.Runtime.StructuredDeltas

namespace KirAi.Runtime

open Lib Lib.Text
open TryStream (Flow Ensures ensures_pure ensures_yield ensures_fail ensures_bind ensures_mono
  ensures_and ensures_mem ensures_orFail emits_orFail)

/-! ### The loop -/

section Loop

variable {ε : Type} {deps : ChatDeps Json Api.ToolDefinition ε} {family : ModelFamily}
  {request : ChatRequest Api.ToolDefinition} {s : ChatState} {P t : Str}
  {ds : List ToolCallDelta} {texts : List Str} {evs : List ChatCompletionStreamEvent}

variable (deps family request) in
/-- What has been collected and sent of the calls. As long as no text has had a call, the
client has the structured deltas without their arguments, and nothing is printed yet; once
one had, it has arguments under the index 0. -/
structure Collected (ds : List ToolCallDelta) (texts : List Str)
    (evs : List ChatCompletionStreamEvent) (s : ChatState) : Prop where
  assembler : s.assembler = ds.foldl StructuredToolDeltaAssembler.push {}
  held : ArgumentsHeld evs
  unsent : (∀ T ∈ texts, textCalls deps family request T = []) →
    sent evs = ds.filterMap structuredToolDeltaWithoutArguments ∧ s.serializer = {}
  spoiled : (∃ T ∈ texts, textCalls deps family request T ≠ []) → Spoiled evs

variable (deps family request) in
/-- The text `P` has been searched for closed blocks. -/
structure Searched (texts : List Str) (P : Str) (s : ChatState) : Prop where
  completes : Completes (toolMarkupPolicy family) P s.toolMarkupState
  parsed : (∀ T ∈ texts, textCalls deps family request T = []) →
    textCalls deps family request P = [] ∧ s.emittedToolCalls = 0 ∧ s.parsedToolPrefixLen =
      ((toolMarkupPolicy family).latestCompletedPrefixFrom P 0).getD 0

/-- What a step that sends no delta keeps of the state. -/
structure SameCalls (s s' : ChatState) : Prop extends SameText s s' where
  assembler : s'.assembler = s.assembler
  serializer : s'.serializer = s.serializer
  emittedToolCalls : s'.emittedToolCalls = s.emittedToolCalls
  parsedToolPrefixLen : s'.parsedToolPrefixLen = s.parsedToolPrefixLen

theorem Collected.mute {evs' : List ChatCompletionStreamEvent} {s' : ChatState}
    (h : Collected deps family request ds texts evs s) (hsent : sent evs' = sent evs)
    (hspoiled : Spoiled evs → Spoiled evs') (ha : s'.assembler = s.assembler)
    (hz : s'.serializer = s.serializer) : Collected deps family request ds texts evs' s' where
  assembler := ha.trans h.assembler
  held := fun d hd => h.held d (hsent ▸ hd)
  unsent := fun hall => ⟨hsent.trans (h.unsent hall).1, hz.trans (h.unsent hall).2⟩
  spoiled := fun hex => hspoiled (h.spoiled hex)

theorem Searched.same {s' : ChatState} (h : Searched deps family request texts P s)
    (hs : SameCalls s s') : Searched deps family request texts P s' where
  completes := hs.toolMarkupState ▸ h.completes
  parsed := fun hall => by
    rw [hs.emittedToolCalls, hs.parsedToolPrefixLen]
    exact h.parsed hall

/-- A text without calls adds nothing. -/
theorem Collected.snoc {T : Str} (h : Collected deps family request ds texts evs s)
    (hT : (∀ T ∈ texts, textCalls deps family request T = []) → textCalls deps family request T = []) :
    Collected deps family request ds (texts ++ [T]) evs s where
  assembler := h.assembler
  held := h.held
  unsent := fun hall => h.unsent fun T' hT' => hall T' (List.mem_append_left _ hT')
  spoiled := by
    rintro ⟨T', hT', hne⟩
    by_cases hall : ∀ T ∈ texts, textCalls deps family request T = []
    · rcases List.mem_append.1 hT' with hT' | hT'
      · exact absurd (hall T' hT') hne
      · rw [List.mem_singleton.1 hT'] at hne
        exact absurd (hT hall) hne
    · push Not at hall
      exact h.spoiled hall

/-- The last end marker of a text that stays the last as the text grows. -/
theorem latest_of_le {markup : ToolMarkupPolicy} {p : ℕ} (hp : markup.latestCompletedPrefixFrom (P ++ t) 0 = some p)
    (hpos : 0 < p) (hle : p ≤ (markup.latestCompletedPrefixFrom P 0).getD 0) :
    markup.latestCompletedPrefixFrom P 0 = some p := by
  cases hq : markup.latestCompletedPrefixFrom P 0 with
  | none =>
    rw [hq, Option.getD_none] at hle
    omega
  | some q =>
    rw [hq, Option.getD_some] at hle
    have hgreatest := (latestCompletedPrefixFrom_eq_some_iff p).1 hp
    have hmem := ((latestCompletedPrefixFrom_eq_some_iff q).1 hq).1
    rw [le_antisymm hle (hgreatest.2 (blockEnds_append hmem t))]

/-- A beginning of a text without an end marker has none. -/
theorem latest_none_of_append {markup : ToolMarkupPolicy}
    (hp : markup.latestCompletedPrefixFrom (P ++ t) 0 = none) :
    markup.latestCompletedPrefixFrom P 0 = none := by
  cases hq : markup.latestCompletedPrefixFrom P 0 with
  | none => rfl
  | some q =>
    have hmem := blockEnds_append ((latestCompletedPrefixFrom_eq_some_iff q).1 hq).1 t
    obtain ⟨i, hi, j, hj, rfl⟩ := hmem
    obtain ⟨last, hlast, -⟩ := le_latest (isBoundary_zero (P ++ t)) hi hj (Nat.zero_le j)
    cases hp.symm.trans hlast

theorem textCalls_of_parsed {p : ℕ} {T : Str} {parsed : ParsedAssistant Json}
    (hp : (toolMarkupPolicy family).latestCompletedPrefixFrom T 0 = some p)
    (hparsed : deps.parseComplete family (takeTo T p) = .ok parsed) :
    textCalls deps family request T =
      if deferredOf family request = .toolChoiceRequired ∧ parsed.content ≠ [] then []
      else parsed.toolCalls := by
  rw [textCalls, hp]
  dsimp only
  rw [hparsed]

theorem textCalls_of_latest {p : ℕ} (hp : (toolMarkupPolicy family).latestCompletedPrefixFrom (P ++ t) 0 = some p)
    (hq : (toolMarkupPolicy family).latestCompletedPrefixFrom P 0 = some p) :
    textCalls deps family request (P ++ t) = textCalls deps family request P := by
  have hmem := ((latestCompletedPrefixFrom_eq_some_iff p).1 hq).1
  rw [textCalls, textCalls, hp, hq]
  simp only [takeTo_append_of_isBoundary (isBoundary_of_mem_blockEnds hmem)]

theorem ensures_emitSafeContent_mute (deferred : DeferredEmission) :
    Ensures (emitSafeContent deferred request s : ChatBody ε ChatState) evs
      (fun evs' s' => sent evs' = sent evs ∧ (Spoiled evs → Spoiled evs') ∧ SameCalls s s')
      (fun _ _ => True) := by
  unfold emitSafeContent
  dsimp only
  split
  · exact ensures_bind (ensures_mute mute_emitContent fun _ _ hsent hspoiled =>
      ensures_pure ⟨hsent, hspoiled, ⟨rfl, rfl, rfl, rfl, rfl⟩, rfl, rfl, rfl, rfl⟩)
  · exact ensures_pure ⟨rfl, id, ⟨rfl, rfl, rfl, rfl, rfl⟩, rfl, rfl, rfl, rfl⟩

theorem ensures_emitUnmarkedText_mute (deferred : DeferredEmission) :
    Ensures (emitUnmarkedText deferred request s : ChatBody ε ChatState) evs
      (fun evs' s' => sent evs' = sent evs ∧ (Spoiled evs → Spoiled evs') ∧ SameCalls s s')
      (fun _ _ => True) := by
  unfold emitUnmarkedText
  dsimp only
  split
  · exact ensures_bind (ensures_mute mute_emitContent fun _ _ hsent hspoiled =>
      ensures_pure ⟨hsent, hspoiled, ⟨rfl, rfl, rfl, rfl, rfl⟩, rfl, rfl, rfl, rfl⟩)
  · exact ensures_pure ⟨rfl, id, ⟨rfl, rfl, rfl, rfl, rfl⟩, rfl, rfl, rfl, rfl⟩

theorem ensures_stopChat_mute (deferred : DeferredEmission) (stopAt : ℕ) :
    Ensures (stopChat deferred s stopAt : ChatBody ε ChatState) evs
      (fun evs' s' => sent evs' = sent evs ∧ (Spoiled evs → Spoiled evs') ∧
        s'.assembler = s.assembler ∧ s'.serializer = s.serializer) (fun _ _ => True) := by
  unfold stopChat
  dsimp only
  split
  · exact ensures_bind (ensures_mute mute_emitContent fun _ _ hsent hspoiled =>
      ensures_pure ⟨hsent, hspoiled, rfl, rfl⟩)
  · exact ensures_pure ⟨rfl, id, rfl, rfl⟩

/-- The calls of the text up to a new end marker: they are sent from the index 0 on, if none
was sent before. -/
theorem ensures_yieldTextCalls {calls : List (ToolCall Json)} {T : Str}
    (h : Collected deps family request ds texts evs s)
    (hcalls : (∀ T ∈ texts, textCalls deps family request T = []) → s.emittedToolCalls = 0)
    (hT : textCalls deps family request T = [] ↔ calls = []) :
    Ensures (yieldToolCalls (fun z => z.toolCallDelta (withIntents deps)) s.serializer
        s.emittedToolCalls (calls.drop s.emittedToolCalls)) evs
      (fun evs' z => ∀ s' : ChatState, s'.assembler = s.assembler → s'.serializer = z →
        Collected deps family request ds (texts ++ [T]) evs' s') (fun _ _ => True) := by
  by_cases hall : ∀ T ∈ texts, textCalls deps family request T = []
  · rw [hcalls hall, List.drop_zero]
    rcases List.eq_nil_or_concat calls with rfl | ⟨_, _, hcons⟩
    · exact ensures_pure fun s' ha hz => (h.snoc fun _ => hT.2 rfl).mute rfl id ha hz
    · have hne : calls ≠ [] := by simp [hcons]
      refine ensures_mono (ensures_and (ensures_yieldWhole_held calls s.serializer 0 h.held)
        (ensures_yieldWhole_spoils hne s.serializer)) (fun evs' z h' s' ha hz => ?_)
        fun _ _ _ => trivial
      refine ⟨ha.trans h.assembler, h'.1, fun hall' => ?_, fun _ => h'.2⟩
      exact absurd (hT.1 (hall' T (List.mem_append_right _ (List.mem_singleton_self T)))) hne
  · push Not at hall
    obtain ⟨e, he, hd⟩ := h.spoiled hall
    refine ensures_mono (ensures_and (ensures_yieldWhole_held _ s.serializer _ h.held)
      (ensures_mem he)) (fun evs' z h' s' ha hz => ?_) fun _ _ _ => trivial
    refine ⟨ha.trans h.assembler, h'.1, fun hall' => ?_, fun _ => ⟨e, h'.2, hd⟩⟩
    obtain ⟨T', hT', hne⟩ := hall
    exact absurd (hall' T' (List.mem_append_left _ hT')) hne

/-- A text is searched for closed blocks: the calls of a new one are sent. -/
theorem ensures_emitToolPrefix_search (deferred : DeferredEmission)
    (hdeferred : deferred = deferredOf family request)
    (h : Collected deps family request ds texts evs s)
    (hP : (∀ T ∈ texts, textCalls deps family request T = []) →
      textCalls deps family request P = [] ∧ s.emittedToolCalls = 0 ∧ s.parsedToolPrefixLen =
        ((toolMarkupPolicy family).latestCompletedPrefixFrom P 0).getD 0)
    (hcompletes : Completes (toolMarkupPolicy family) (P ++ t) s.toolMarkupState)
    (hraw : s.rawText = P ++ t) :
    Ensures (emitToolPrefix (withIntents deps) family deferred request s) evs
      (fun evs' s' => Collected deps family request ds (texts ++ [P ++ t]) evs' s' ∧
        Searched deps family request (texts ++ [P ++ t]) (P ++ t) s' ∧ SameText s s')
      (fun _ _ => True) := by
  have hlatest : s.toolMarkupState.completedPrefixLen =
      (toolMarkupPolicy family).latestCompletedPrefixFrom (P ++ t) 0 :=
    Option.ext fun c => by
      rw [hcompletes.isGreatest_iff c, latestCompletedPrefixFrom_eq_some_iff c]
  have hmem : ∀ {T : Str}, T ∈ texts → T ∈ texts ++ [P ++ t] := fun hT => List.mem_append_left _ hT
  have hlast : P ++ t ∈ texts ++ [P ++ t] := List.mem_append_right _ (List.mem_singleton_self _)
  unfold emitToolPrefix
  rw [hlatest]
  cases hp : (toolMarkupPolicy family).latestCompletedPrefixFrom (P ++ t) 0 with
  | none =>
    have hnil : textCalls deps family request (P ++ t) = [] := by rw [textCalls, hp]
    refine ensures_pure ⟨h.snoc fun _ => hnil, ⟨hcompletes, fun hall => ⟨hnil, ?_⟩⟩,
      ⟨rfl, rfl, rfl, rfl, rfl⟩⟩
    obtain ⟨-, hzero, hlen⟩ := hP fun T hT => hall T (hmem hT)
    rw [latest_none_of_append hp] at hlen
    rw [hp]
    exact ⟨hzero, hlen⟩
  | some p =>
    have hmemEnds := ((latestCompletedPrefixFrom_eq_some_iff p).1 hp).1
    dsimp only
    by_cases hle : p ≤ s.parsedToolPrefixLen
    · -- no new end marker
      rw [if_pos hle]
      have hold : (∀ T ∈ texts, textCalls deps family request T = []) →
          (toolMarkupPolicy family).latestCompletedPrefixFrom P 0 = some p ∧
            textCalls deps family request (P ++ t) = [] := fun hall => by
        obtain ⟨hnil, -, hlen⟩ := hP hall
        have hsame := latest_of_le hp (blockEnds_pos hmemEnds) (hlen ▸ hle)
        exact ⟨hsame, (textCalls_of_latest hp hsame).trans hnil⟩
      refine ensures_pure ⟨h.snoc fun hall => (hold hall).2, ⟨hcompletes, fun hall => ?_⟩,
        ⟨rfl, rfl, rfl, rfl, rfl⟩⟩
      have hall' := fun T hT => hall T (hmem hT)
      obtain ⟨-, hzero, hlen⟩ := hP hall'
      obtain ⟨hsame, hnil⟩ := hold hall'
      rw [hp, ← hsame]
      exact ⟨hnil, hzero, hlen⟩
    · rw [if_neg hle, hraw]
      refine ensures_bind (ensures_sliceText (isBoundary_zero _)
        (isBoundary_of_mem_blockEnds hmemEnds) (Nat.zero_le p) fun text htext => ?_)
      obtain rfl := eq_takeTo_of_slice? htext
      refine ensures_bind (ensures_orFail (fun parsed hparsed => ?_) fun _ _ => trivial)
      have hparsed := mapError_eq_ok.1 hparsed
      refine ensures_bind (ensures_mute (emits_orFail _) fun _ _ hs₁ hsp₁ => ?_)
      refine ensures_bind (ensures_mute (mute_failOn _) fun _ _ hs₂ hsp₂ => ?_)
      refine ensures_bind (ensures_mute (emits_orFail _) fun evs₃ _ hs₃ hsp₃ => ?_)
      have h₃ : Collected deps family request ds texts evs₃ s :=
        ((h.mute hs₁ hsp₁ rfl rfl).mute hs₂ hsp₂ rfl rfl).mute hs₃ hsp₃ rfl rfl
      have hcalls : textCalls deps family request (P ++ t) =
          if deferred = .toolChoiceRequired ∧ parsed.content ≠ [] then [] else parsed.toolCalls :=
        hdeferred ▸ textCalls_of_parsed hp hparsed
      split
      · next hdefer =>
        have hnil : textCalls deps family request (P ++ t) = [] := by
          rw [hcalls]
          exact if_pos hdefer
        refine ensures_pure ⟨(h₃.snoc fun _ => hnil).mute rfl id rfl rfl,
          ⟨hcompletes, fun hall => ⟨hnil, ?_, ?_⟩⟩, ⟨hraw.symm, rfl, rfl, rfl, rfl⟩⟩
        · exact (hP fun T hT => hall T (hmem hT)).2.1
        · rw [hp]
          rfl
      · next hdefer =>
        have hcalls' : textCalls deps family request (P ++ t) = parsed.toolCalls := by
          rw [hcalls]
          exact if_neg hdefer
        refine ensures_bind (ensures_mono (ensures_yieldTextCalls (T := P ++ t) h₃
          (fun hall => (hP hall).2.1) (by rw [hcalls']; exact List.map_eq_nil_iff.symm))
          (fun evs₄ z h₄ => ?_) fun _ _ _ => trivial)
        refine ensures_pure ⟨h₄ _ rfl rfl, ⟨hcompletes, fun hall => ?_⟩,
          ⟨hraw.symm, rfl, rfl, rfl, rfl⟩⟩
        have hnil := hall _ hlast
        refine ⟨hnil, ?_, by rw [hp]; rfl⟩
        rw [hcalls'] at hnil
        exact List.length_eq_zero_iff.2 (List.map_eq_nil_iff.2 hnil)

/-- The deltas of a chunk go to the assembler, and without their arguments to the client. -/
theorem ensures_readToolCallDeltas_collect (chunk : BackendStreamChunk)
    (h : Collected deps family request ds texts evs s) :
    Ensures (readToolCallDeltas true s chunk.toolCallDeltas : ChatBody ε ChatState) evs
      (fun evs' s' => Collected deps family request (ds ++ deltasOf [chunk]) texts evs' s' ∧
        SameText s s' ∧ s'.emittedToolCalls = s.emittedToolCalls ∧
        s'.parsedToolPrefixLen = s.parsedToolPrefixLen) (fun _ _ => True) := by
  have hds : deltasOf [chunk] = chunk.toolCallDeltas.map apiToolCallDelta := by
    simp [deltasOf]
  have hassembler : (deltasOf [chunk]).foldl StructuredToolDeltaAssembler.push s.assembler =
      (ds ++ deltasOf [chunk]).foldl StructuredToolDeltaAssembler.push {} := by
    rw [h.assembler, List.foldl_append]
  unfold readToolCallDeltas
  simp only [if_true, ← hds]
  split
  · next hempty =>
    refine ensures_pure ⟨⟨hassembler, h.held, fun hall => ?_, h.spoiled⟩, ⟨rfl, rfl, rfl, rfl, rfl⟩,
      rfl, rfl⟩
    rw [List.filterMap_append, List.isEmpty_iff.1 hempty, List.append_nil]
    exact h.unsent hall
  · refine ensures_bind (ensures_yield (ensures_pure ⟨⟨hassembler, fun d hd => ?_, fun hall => ?_,
      fun hex => ?_⟩, ⟨rfl, rfl, rfl, rfl, rfl⟩, rfl, rfl⟩))
    · rw [sent_append, List.mem_append] at hd
      rcases hd with hd | hd
      · exact h.held d hd
      · obtain ⟨e, he, hd⟩ := List.mem_flatMap.1 hd
        rw [List.mem_singleton.1 he, toolCalls_seedChunk] at hd
        obtain ⟨d₀, -, hd₀⟩ := List.mem_filterMap.1 hd
        exact isArguments_of_none (withoutArguments_arguments hd₀)
    · rw [sent_append, (h.unsent hall).1, List.filterMap_append]
      refine ⟨?_, (h.unsent hall).2⟩
      rw [sent, List.flatMap_cons, List.flatMap_nil, List.append_nil, toolCalls_seedChunk]
    · obtain ⟨e, he, hd⟩ := h.spoiled hex
      exact ⟨e, List.mem_append_left _ he, hd⟩

variable (deps family request) in
/-- What a chunk leads to: to the next one, with its text searched, as long as no stop is
seen. -/
def AfterText (chunk : BackendStreamChunk) (P : Str) (ds : List ToolCallDelta) (texts : List Str)
    (evs : List ChatCompletionStreamEvent) : Flow ChatState → Prop
  | .next s => stopsIn request.stop P chunk = false ∧
      Collected deps family request ds (texts ++ [P ++ chunk.text]) evs s ∧
      Searched deps family request (texts ++ [P ++ chunk.text]) (P ++ chunk.text) s ∧
      Reading family request (P ++ chunk.text) s
  | .exit s => stopsIn request.stop P chunk = true ∧ Collected deps family request ds texts evs s

theorem ensures_readChatText_collect {deferred : DeferredEmission}
    (hdeferred : deferred = deferredOf family request) {chunk : BackendStreamChunk}
    (h : Collected deps family request ds texts evs s)
    (hsearched : Searched deps family request texts P s) (hR : Reading family request P s) :
    Ensures (readChatText (withIntents deps) family deferred request s chunk.text) evs
      (AfterText deps family request chunk P ds texts) (fun _ _ => True) := by
  unfold readChatText
  by_cases hempty : chunk.text = []
  · rw [if_pos (by simpa using hempty)]
    have hsame : P ++ chunk.text = P := by rw [hempty, List.append_nil]
    refine ensures_pure ⟨by simp [stopsIn, hempty], ?_⟩
    rw [hsame]
    refine ⟨h.snoc fun hall => (hsearched.parsed hall).1, ⟨hsearched.completes, fun hall => ?_⟩, hR⟩
    exact hsearched.parsed fun T hT => hall T (List.mem_append_left _ hT)
  · rw [if_neg (by simpa using hempty)]
    have hobserve : (s.stopDetector.observe (P ++ chunk.text) request.stop).1 =
        earliestFrom request.stop (P ++ chunk.text) 0 := by
      rw [hR.stopDetector]
      exact IncrementalStopDetector.observe_eq_of_fresh hR.noStop chunk.text
    have hdetector : (s.stopDetector.observe (P ++ chunk.text) request.stop).2 =
        ⟨maxStopSequenceLen request.stop, len (P ++ chunk.text)⟩ := by
      rw [IncrementalStopDetector.observe_snd, hR.stopDetector]
    have hstops : stopsIn request.stop P chunk =
        (earliestFrom request.stop (P ++ chunk.text) 0).isSome := by
      simp [stopsIn, hempty, earliestStopIndex_eq]
    simp only [hR.rawText, hobserve, hdetector]
    cases hstop : earliestFrom request.stop (P ++ chunk.text) 0 with
    | some stopAt =>
      refine ensures_bind (ensures_mono (ensures_stopChat_mute deferred stopAt)
        (fun evs' s' h' => ?_) fun _ _ h => h)
      obtain ⟨hsent, hspoiled, ha, hz⟩ := h'
      refine ensures_pure ⟨by rw [hstops, hstop, Option.isSome_some], ?_⟩
      exact h.mute hsent hspoiled ha hz
    | none =>
      have hR' : Reading family request (P ++ chunk.text)
          { s with
            rawText := P ++ chunk.text
            toolMarkupState := s.toolMarkupState.observe (P ++ chunk.text)
            stopDetector := ⟨maxStopSequenceLen request.stop, len (P ++ chunk.text)⟩ } :=
        ⟨rfl, hR.markup.observe (opens_startMarkers family) chunk.text, rfl,
          fun _ => hits_eq_empty hstop, hR.running, hR.uncut⟩
      have hcompletes := hsearched.completes.observe hR.markup chunk.text
      refine ensures_bind (ensures_mono (ensures_emitSafeContent_mute deferred)
        (fun evs₁ s₁ h₁ => ?_) fun _ _ h => h)
      obtain ⟨hsent₁, hspoiled₁, hsame₁⟩ := h₁
      have hR₁ := hR'.same hsame₁.toSameText
      refine ensures_bind (ensures_mono (ensures_emitToolPrefix_search deferred hdeferred
        (h.mute hsent₁ hspoiled₁ hsame₁.assembler hsame₁.serializer) (fun hall => ?_)
        (hsame₁.toolMarkupState ▸ hcompletes) hR₁.rawText) (fun evs₂ s₂ h₂ => ?_) fun _ _ h => h)
      · rw [hsame₁.emittedToolCalls, hsame₁.parsedToolPrefixLen]
        exact hsearched.parsed hall
      obtain ⟨hcollected₂, hsearched₂, hsame₂⟩ := h₂
      refine ensures_bind (ensures_mono (ensures_emitUnmarkedText_mute deferred)
        (fun evs₃ s₃ h₃ => ?_) fun _ _ h => h)
      obtain ⟨hsent₃, hspoiled₃, hsame₃⟩ := h₃
      refine ensures_pure ⟨by rw [hstops, hstop, Option.isSome_none], ?_, hsearched₂.same hsame₃,
        (hR₁.same hsame₂).same hsame₃.toSameText⟩
      exact hcollected₂.mute hsent₃ hspoiled₃ hsame₃.assembler hsame₃.serializer

variable (deps family request) in
/-- How an iteration ends: on to the next chunk, or out of the loop at a stop or a finish
reason. -/
def AfterChunk (chunk : BackendStreamChunk) (P : Str) (ds : List ToolCallDelta) (texts : List Str)
    (evs : List ChatCompletionStreamEvent) : Flow ChatState → Prop
  | .next s => chunk.finishReason.isSome = false ∧
      AfterText deps family request chunk P ds texts evs (.next s)
  | .exit s => AfterText deps family request chunk P ds texts evs (.exit s) ∨
      (stopsIn request.stop P chunk = false ∧ chunk.finishReason.isSome = true ∧
        Collected deps family request ds (texts ++ [P ++ chunk.text]) evs s)

theorem ensures_closeChat_collect {chunk : BackendStreamChunk} {r : Flow ChatState}
    (h : AfterText deps family request chunk P ds texts evs r) :
    Ensures (closeChat chunk r : ChatBody ε (Flow ChatState)) evs
      (AfterChunk deps family request chunk P ds texts) (fun _ _ => True) := by
  cases r with
  | exit s' => exact ensures_pure (.inl h)
  | next s' =>
    obtain ⟨hstops, hcollected, hsearched, hR⟩ := h
    refine ensures_bind (ensures_mute (mute_yieldInternalProgress _ _)
      fun evs' _ hsent hspoiled => ?_)
    have hcollected' : Collected deps family request ds (texts ++ [P ++ chunk.text]) evs' s' :=
      hcollected.mute hsent hspoiled rfl rfl
    cases hreason : chunk.finishReason with
    | some reason =>
      refine ensures_pure (.inr ⟨hstops, by rw [hreason]; rfl, ?_⟩)
      exact hcollected'.mute rfl id rfl rfl
    | none => exact ensures_pure ⟨by rw [hreason]; rfl, hstops, hcollected', hsearched, hR⟩

/-- One chunk. -/
theorem ensures_readChatChunk_collect (hbuffer : requestMayFillToolIntentArguments request = true)
    {chunk : BackendStreamChunk} (h : Collected deps family request ds texts evs s)
    (hsearched : Searched deps family request texts P s) (hR : Reading family request P s) :
    Ensures (readChatChunk (withIntents deps) family request s (.ok chunk)) evs
      (AfterChunk deps family request chunk P (ds ++ deltasOf [chunk]) texts)
      (fun _ _ => True) := by
  unfold readChatChunk
  rw [show (withIntents deps).requestMayFillToolIntentArguments request = true from hbuffer]
  refine ensures_bind (ensures_pure ?_)
  refine ensures_bind (ensures_mute (mute_yieldChatProgress _) fun evs₁ _ hsent₁ hspoiled₁ => ?_)
  have h₁ : Collected deps family request ds texts evs₁
      { s with tokens := s.tokens.add chunk, emittedPublicChunk := false } :=
    h.mute hsent₁ hspoiled₁ rfl rfl
  refine ensures_bind (ensures_mono (ensures_readToolCallDeltas_collect chunk h₁)
    (fun evs₂ s₂ h₂ => ?_) fun _ _ h => h)
  obtain ⟨hcollected₂, hsame₂, hemitted₂, hparsed₂⟩ := h₂
  have hR₁ : Reading family request P
      { s with tokens := s.tokens.add chunk, emittedPublicChunk := false } :=
    hR.same ⟨rfl, rfl, rfl, rfl, rfl⟩
  have hR₂ : Reading family request P s₂ := hR₁.same hsame₂
  have hsearched₂ : Searched deps family request texts P s₂ := by
    refine ⟨hsame₂.toolMarkupState ▸ hsearched.completes, fun hall => ?_⟩
    rw [hemitted₂, hparsed₂]
    exact hsearched.parsed hall
  exact ensures_bind (ensures_mono (ensures_readChatText_collect rfl hcollected₂ hsearched₂ hR₂)
    (fun _ _ h₃ => ensures_closeChat_collect h₃) fun _ _ h => h)

/-- The whole loop: it collects the deltas of the chunks it reads, and the calls of the texts
it searches. -/
theorem ensures_chat_loop_calls (hbuffer : requestMayFillToolIntentArguments request = true) :
    ∀ (backend : List (Except ε BackendStreamChunk)) {P : Str} {ds : List ToolCallDelta}
      {texts : List Str} {evs : List ChatCompletionStreamEvent} {s : ChatState},
    Collected deps family request ds texts evs s → Searched deps family request texts P s →
    Reading family request P s →
    Ensures (TryStream.loop (readChatChunk (withIntents deps) family request) s backend) evs
      (Collected deps family request (ds ++ deltasOf (chunksRead request.stop P backend))
        (texts ++ textsRead request.stop P backend)) (fun _ _ => True)
  | [], _, _, _, _, _, h, _, _ => ensures_pure (by simpa [chunksRead, textsRead, deltasOf] using h)
  | .error e :: rest, _, _, _, _, _, _, _, _ => ensures_bind (ensures_bind (ensures_fail trivial))
  | .ok chunk :: rest, P, ds, texts, evs, s, h, hsearched, hR => by
    have hcons : ∀ cs, deltasOf (chunk :: cs) = deltasOf [chunk] ++ deltasOf cs := fun cs => by
      simp [deltasOf]
    rw [chunksRead, textsRead, endsReading]
    refine ensures_bind (ensures_mono (ensures_readChatChunk_collect hbuffer h hsearched hR)
      (fun evs₁ r h₁ => ?_) fun _ _ h => h)
    cases r with
    | exit s₁ =>
      rcases h₁ with ⟨hstops, hcollected⟩ | ⟨hstops, hreason, hcollected⟩
      · rw [hstops, Bool.or_true, if_pos rfl, if_pos rfl, List.append_nil]
        exact ensures_pure hcollected
      · rw [hstops, hreason, Bool.true_or, if_pos rfl, if_neg Bool.false_ne_true, if_pos rfl]
        exact ensures_pure hcollected
    | next s₁ =>
      obtain ⟨hreason, hstops, hcollected, hsearched₁, hR₁⟩ := h₁
      rw [hstops, hreason, Bool.or_false, if_neg Bool.false_ne_true, if_neg Bool.false_ne_true,
        if_neg Bool.false_ne_true, hcons, ← List.append_assoc, List.append_cons texts]
      exact ensures_chat_loop_calls hbuffer rest hcollected hsearched₁ hR₁

end Loop

/-! ### The end of the stream -/

section Finish

variable {ε : Type} {deps : ChatDeps Json Api.ToolDefinition ε} {family : ModelFamily}
  {request : ChatRequest Api.ToolDefinition} {evs : List ChatCompletionStreamEvent} {s : ChatState}

theorem reading_initialChat : Reading family request [] (initialChat family request) where
  rawText := rfl
  markup := .streamState (opens_startMarkers family)
  stopDetector := by simp [initialChat, IncrementalStopDetector.new]
  noStop := fun h => absurd rfl h
  running := rfl
  uncut := rfl

/-- What is not in the serializer is printed. -/
theorem serializedArguments_fresh {z z' : ToolCallDeltaSerializer} {i : ℕ} {arguments : Json}
    {text : Str} (hz : z.arguments.length ≤ i)
    (h : z.serializedArguments deps i arguments = .ok (text, z')) :
    deps.jsonToString arguments = .ok text ∧ z'.arguments.length ≤ i + 1 := by
  have hfresh : (z.arguments ++ List.replicate (i + 1 - z.arguments.length)
      (none : Option Str))[i]?.join = none := by
    rw [List.getElem?_append_right hz, List.getElem?_replicate, if_pos (by omega)]
    rfl
  unfold ToolCallDeltaSerializer.serializedArguments at h
  simp only [hfresh] at h
  obtain ⟨text', htext', h⟩ := bind_eq_ok.1 h
  obtain ⟨rfl, rfl⟩ := Prod.mk.inj (pure_eq_ok.1 h)
  refine ⟨htext', ?_⟩
  simp only [List.length_set, List.length_append, List.length_replicate]
  omega

/-- The calls with their arguments as they are printed. -/
def Printed (deps : ChatDeps Json Api.ToolDefinition ε) : List (ToolCall Json) → List Str → Prop :=
  List.Forall₂ fun call text => deps.jsonToString call.function.arguments = .ok text

/-- The arguments go out under the positions of the calls, printed if nothing was printed
under these before. -/
theorem ensures_yieldArguments : ∀ (calls : List (ToolCall Json)) (z : ToolCallDeltaSerializer)
    (i : ℕ) {evs : List ChatCompletionStreamEvent},
    Ensures (yieldToolCalls (fun z => z.toolCallArgumentsDelta deps) z i calls) evs
      (fun evs' _ => ∃ parts, sent evs' = sent evs ++ argumentsFrom i parts ∧
        parts.length = calls.length ∧ (z.arguments.length ≤ i → Printed deps calls parts))
      (fun _ _ => True)
  | [], z, i, evs => ensures_pure ⟨[], by simp [argumentsFrom], rfl, fun _ => .nil⟩
  | call :: calls, z, i, evs => by
    refine ensures_bind (ensures_orFail (fun r hr => ?_) fun _ _ => trivial)
    have hdelta := mapError_eq_ok.1 hr
    unfold ToolCallDeltaSerializer.toolCallArgumentsDelta at hdelta
    obtain ⟨index, hindex, hdelta⟩ := bind_eq_ok.1 hdelta
    obtain ⟨⟨text, z'⟩, htext, hdelta⟩ := bind_eq_ok.1 hdelta
    obtain rfl := pure_eq_ok.1 hdelta
    obtain rfl : i = index := by
      unfold apiToolCallIndex at hindex
      split at hindex
      · exact Except.ok.inj hindex
      · cases hindex
    refine ensures_bind (ensures_yield (ensures_mono (ensures_yieldArguments calls z' (i + 1))
      (fun evs' _ h => ?_) fun _ _ h => h))
    obtain ⟨parts, hsent, hlength, hprinted⟩ := h
    refine ⟨text :: parts, ?_, by rw [List.length_cons, List.length_cons, hlength], fun hz => ?_⟩
    · rw [hsent, sent_append, List.append_assoc, argumentsFrom]
      rfl
    · obtain ⟨hprint, hz'⟩ := serializedArguments_fresh hz htext
      exact .cons hprint (hprinted hz')

theorem intoParsed_ok {a : StructuredToolDeltaAssembler} {content : Str}
    {parsed : ParsedAssistant Json} (h : a.intoParsed deps content = .ok parsed) :
    assembleCalls deps 0 a.calls = .ok parsed.toolCalls := by
  unfold StructuredToolDeltaAssembler.intoParsed at h
  obtain ⟨calls, hcalls, h⟩ := bind_eq_ok.1 h
  obtain ⟨_, -, h⟩ := bind_eq_ok.1 h
  obtain rfl := pure_eq_ok.1 h
  exact hcalls

/-- The calls at the end are the assembled ones, with their intents. -/
theorem ensures_parseVisible_calls (deferred : DeferredEmission) :
    Ensures (parseVisible (withIntents deps) family deferred request s) evs
      (fun evs' parsed => sent evs' = sent evs ∧
        (s.assembler.calls ≠ [] → ∃ calls,
          assembleCalls (withIntents deps) 0 s.assembler.calls = .ok calls ∧
            parsed.toolCalls = calls.map (fillToolIntentArgument request))) (fun _ _ => True) := by
  refine ensures_bind (ensures_mute mute_sliceText fun _ text h₁ _ => ?_)
  refine ensures_bind (ensures_orFail (fun parsed hparsed => ?_) fun _ _ => trivial)
  refine ensures_bind (ensures_mute (mute_yieldStage _ _) fun _ _ h₂ _ => ?_)
  refine ensures_bind (ensures_mute (emits_orFail _) fun _ _ h₃ _ => ?_)
  refine ensures_bind (ensures_mute (mute_failOn _) fun _ _ h₄ _ => ?_)
  refine ensures_bind (ensures_mute (mute_yieldStage _ _) fun _ _ h₅ _ => ?_)
  refine ensures_bind (ensures_mute (emits_orFail _) fun _ _ h₆ _ => ?_)
  refine ensures_bind (ensures_mute (mute_yieldStage _ _) fun _ _ h₇ _ => ?_)
  refine ensures_bind (ensures_mute (emits_orFail _) fun _ _ h₈ _ => ?_)
  refine ensures_bind (ensures_mute (mute_failOn _) fun _ _ h₉ _ => ?_)
  refine ensures_pure ⟨?_, fun hne => ?_⟩
  · rw [h₉, h₈, h₇, h₆, h₅, h₄, h₃, h₂, h₁]
  · have hsome := mapError_eq_ok.1 hparsed
    rw [if_neg (by simpa using hne)] at hsome
    exact ⟨parsed.toolCalls, intoParsed_ok hsome, rfl⟩

/-- At the end the assembled calls get their arguments, each under its position. Without
structured deltas there are no such calls, and what the text has left is sent whole. -/
theorem ensures_finishChat_calls (includeUsage : Bool)
    (hbuffer : requestMayFillToolIntentArguments request = true) (hheld : ArgumentsHeld evs) :
    Ensures (finishChat (withIntents deps) family request includeUsage s) evs
      (fun evs' _ => ∃ calls, assembleCalls (withIntents deps) 0 s.assembler.calls = .ok calls ∧
        ((calls = [] ∧ ArgumentsHeld evs') ∨ ∃ parts,
          sent evs' = sent evs ++ argumentsFrom 0 parts ∧ parts.length = calls.length ∧
            (s.serializer = {} →
              Printed deps (calls.map (fillToolIntentArgument request)) parts)))
      (fun _ _ => True) := by
  refine ensures_bind (ensures_mute (mute_flushContent _ _) fun _ _ h₁ _ => ?_)
  refine ensures_bind (ensures_mono (ensures_parseVisible_calls _)
    (fun evs₂ parsed h₂ => ?_) fun _ _ h => h)
  obtain ⟨h₂, hcalls⟩ := h₂
  refine ensures_bind (ensures_mute (mute_emitDeferredContent _ _ _) fun evs₃ _ h₃ _ => ?_)
  have hsent₃ : sent evs₃ = sent evs := by rw [h₃, h₂, h₁]
  unfold emitRemainingToolCalls
  by_cases hempty : s.assembler.calls = []
  · rw [if_pos (by simpa using hempty), hempty]
    have hheld₃ : ArgumentsHeld evs₃ := fun d hd => hheld d (hsent₃ ▸ hd)
    refine ensures_bind (ensures_mono (ensures_yieldWhole_held _ _ _ hheld₃) (fun _ _ hheld₄ => ?_)
      fun _ _ h => h)
    refine ensures_mute (mute_yieldChatClosing _ _ _) fun _ _ h₅ _ => ?_
    exact ⟨[], rfl, .inl ⟨rfl, fun d hd => hheld₄ d (h₅ ▸ hd)⟩⟩
  · obtain ⟨calls, hassembled, hparsed⟩ := hcalls hempty
    rw [if_neg (by simpa using hempty), if_pos (show (withIntents deps).requestMayFillToolIntentArguments
      request = true from hbuffer), hparsed]
    refine ensures_bind (ensures_mono (ensures_yieldArguments _ _ _) (fun _ _ h₄ => ?_)
      fun _ _ h => h)
    obtain ⟨parts, hsent₄, hlength, hprinted⟩ := h₄
    refine ensures_mute (mute_yieldChatClosing _ _ _) fun _ _ h₅ _ => ?_
    refine ⟨calls, hassembled, .inr ⟨parts, ?_, ?_, fun hz => hprinted ?_⟩⟩
    · rw [h₅, hsent₄, hsent₃]
    · rw [hlength, List.length_map]
    · rw [hz]
      exact Nat.le_refl 0

variable (deps family request) in
/-- What a client gets of the calls of a stream that ends well: the arguments of the assembled
calls come last. Without calls of the text, the structured deltas come before them without
their arguments; with such calls, arguments under the index 0 do. -/
structure Delivers (ds : List ToolCallDelta) (texts : List Str)
    (evs : List ChatCompletionStreamEvent) (calls : List (ToolCall Json)) (pre : List ToolCallDelta)
    (parts : List Str) : Prop where
  assembled : assembled (withIntents deps) ds = .ok calls
  sent : sent evs = pre ++ argumentsFrom 0 parts
  length : parts.length = calls.length
  held : ∀ d ∈ pre, d.isArguments = false
  unsent : calls ≠ [] → (∀ T ∈ texts, textCalls deps family request T = []) →
    pre = ds.filterMap structuredToolDeltaWithoutArguments ∧
      Printed deps (calls.map (fillToolIntentArgument request)) parts
  spoiled : calls ≠ [] → (∃ T ∈ texts, textCalls deps family request T ≠ []) →
    ∃ d ∈ pre, d.index = 0 ∧ d.arguments.isSome = true

theorem ensures_stream_calls (includeUsage : Bool)
    (hbuffer : requestMayFillToolIntentArguments request = true)
    (backend : List (Except ε BackendStreamChunk)) :
    Ensures (streamingChatStream (withIntents deps) family request includeUsage backend) []
      (fun evs _ => ∃ calls pre parts,
        Delivers deps family request (deltasOf (chunksRead request.stop [] backend))
          (textsRead request.stop [] backend) evs calls pre parts) (fun _ _ => True) := by
  refine ensures_bind (ensures_mute (mute_yieldDelta rfl) fun evs₁ _ h₁ _ => ?_)
  have hnone : sent evs₁ = [] := h₁
  have hcollected : Collected deps family request [] [] evs₁ (initialChat family request) := by
    refine ⟨rfl, fun d hd => ?_, fun _ => ⟨hnone, rfl⟩, fun hex => ?_⟩
    · rw [hnone] at hd
      cases hd
    · obtain ⟨T, hT, -⟩ := hex
      cases hT
  have hlatest : (toolMarkupPolicy family).latestCompletedPrefixFrom [] 0 = none := by
    cases family <;> decide
  have hsearched : Searched deps family request [] [] (initialChat family request) := by
    refine ⟨.streamState fun p hp => (closes_endMarkers family p hp).ne_nil, fun _ => ⟨?_, rfl, ?_⟩⟩
    · rw [textCalls, hlatest]
    · rw [hlatest]
      rfl
  refine ensures_bind (ensures_mono (ensures_chat_loop_calls hbuffer backend hcollected hsearched
    reading_initialChat) (fun evs₂ s₂ h₂ => ?_) fun _ _ h => h)
  rw [List.nil_append, List.nil_append] at h₂
  refine ensures_mono (ensures_finishChat_calls includeUsage hbuffer h₂.held)
    (fun evs₃ _ h₃ => ?_) fun _ _ h => h
  obtain ⟨calls, hassembled, h₃⟩ := h₃
  rw [h₂.assembler] at hassembled
  rcases h₃ with ⟨rfl, hheld⟩ | ⟨parts, hsent, hlength, hprinted⟩
  · exact ⟨[], _, [], hassembled, (List.append_nil _).symm, rfl, hheld, fun h => absurd rfl h,
      fun h => absurd rfl h⟩
  · refine ⟨calls, _, parts, hassembled, hsent, hlength, h₂.held, fun _ hall => ?_, fun _ hex => ?_⟩
    · obtain ⟨hpre, hz⟩ := h₂.unsent hall
      exact ⟨hpre, hprinted hz⟩
    · obtain ⟨e, he, d, hd, hindex⟩ := h₂.spoiled hex
      exact ⟨d, List.mem_flatMap.2 ⟨e, he, hd⟩, hindex⟩

end Finish

/-! ### The index of a call -/

section Index

variable {ε : Type} {deps : ChatDeps Json Api.ToolDefinition ε} {family : ModelFamily}
  {request : ChatRequest Api.ToolDefinition} {evs : List ChatCompletionStreamEvent}
  {ds pre : List ToolCallDelta} {texts parts : List Str} {calls : List (ToolCall Json)}

/-- An index has a name. -/
def Named (ds : List ToolCallDelta) : Prop := ∃ i, trim (merged ds i).name ≠ []

/-- Calls are assembled just if an index has a name. -/
theorem named_iff (hcalls : assembled (withIntents deps) ds = .ok calls) : Named ds ↔ calls ≠ [] := by
  have hall := assembleCalls_ok hcalls
  have hlength := hall.length_eq
  constructor
  · rintro ⟨i, hi⟩ rfl
    rw [merged_eq_slot] at hi
    cases hslot : (ds.foldl StructuredToolDeltaAssembler.push {}).calls[i]? with
    | none =>
      rw [hslot] at hi
      exact hi (by decide)
    | some call =>
      rw [hslot, Option.getD_some] at hi
      have hkept : namedCalls 0 (ds.foldl StructuredToolDeltaAssembler.push {}).calls ≠ [] :=
        kept_ne_nil (p := fun call : StructuredToolCallAccumulator => decide (trim call.name ≠ [])) (decide_eq_true hi)
          (List.mem_of_getElem? hslot)
      exact hkept (List.length_eq_zero_iff.1 hlength)
  · intro hne
    obtain ⟨e, he⟩ := List.exists_mem_of_length_pos
      (hlength ▸ List.length_pos_iff.2 hne : 0 < (namedCalls 0 _).length)
    obtain ⟨-, hslot, hname⟩ := mem_kept he
    refine ⟨e.1, ?_⟩
    rw [merged_eq_slot]
    rw [Nat.sub_zero] at hslot
    rw [hslot, Option.getD_some]
    exact of_decide_eq_true hname

theorem Delivers.argumentDeltas_eq (h : Delivers deps family request ds texts evs calls pre parts) :
    argumentDeltas evs = argumentsFrom 0 parts := by
  have hpre : pre.filter (·.isArguments) = [] :=
    List.filter_eq_nil_iff.2 fun d hd => by simp [h.held d hd]
  rw [argumentDeltas, h.sent, List.filter_append, hpre, filter_argumentsFrom, List.nil_append]

theorem Delivers.count (h : Delivers deps family request ds texts evs calls pre parts) :
    (argumentDeltas evs).length = (calls.map (fillToolIntentArgument request)).length := by
  rw [h.argumentDeltas_eq, length_argumentsFrom, h.length, List.length_map]

/-- Arguments that came before spoil the first call. -/
theorem Delivers.not_keepsIndices (h : Delivers deps family request ds texts evs calls pre parts)
    (hne : calls ≠ []) (hex : ∃ T ∈ texts, textCalls deps family request T ≠ []) :
    ¬KeepsIndices (withIntents deps) evs (calls.map (fillToolIntentArgument request)) := by
  intro hkeeps
  obtain ⟨call, rest, rfl⟩ := List.exists_cons_of_ne_nil hne
  obtain ⟨part, parts, rfl⟩ := List.exists_cons_of_length_eq_add_one h.length
  have hparts := (hkeeps.obtains 0 (argumentsDelta 0 part) _ (by rw [h.argumentDeltas_eq]; rfl)
    rfl).parts
  obtain ⟨d, hd, hindex, harguments⟩ := h.spoiled hne hex
  obtain ⟨text, htext⟩ := Option.isSome_iff_exists.1 harguments
  have hmem : text ∈ argumentParts pre 0 :=
    List.mem_filterMap.2 ⟨d, List.mem_filter.2 ⟨hd, decide_eq_true hindex⟩, htext⟩
  have hpos := List.length_pos_of_mem hmem
  rw [h.sent, argumentParts_append, argumentParts_argumentsFrom, List.length_append] at hparts
  simp only [argumentsDelta, List.getElem?_cons_zero, Option.toList_some, List.length_singleton] at hparts
  omega

/-- Without calls of the text, what a client has under the index of an arguments delta. -/
theorem Delivers.client (h : Delivers deps family request ds texts evs calls pre parts)
    (hne : calls ≠ []) (hall : ∀ T ∈ texts, textCalls deps family request T = []) (k : ℕ) :
    (merged (KirAi.Runtime.sent evs) k).name = (merged ds k).name ∧
      (merged (KirAi.Runtime.sent evs) k).id = (merged ds k).id ∧
      argumentParts (KirAi.Runtime.sent evs) k = (parts[k]?).toList := by
  obtain ⟨hpre, -⟩ := h.unsent hne hall
  obtain ⟨hname, hid⟩ := merged_append_argumentsFrom pre parts k
  obtain ⟨hname', hid'⟩ := merged_without_arguments k ds {} {} rfl rfl
  rw [h.sent]
  refine ⟨hname.trans ?_, hid.trans ?_, ?_⟩
  · rw [hpre]
    exact hname'
  · rw [hpre]
    exact hid'
  · rw [argumentParts_append, argumentParts_argumentsFrom, hpre, argumentParts_without, List.nil_append]

/-- Without calls of the text, the indices are kept just if there is no gap. -/
theorem Delivers.keepsIndices_iff (h : Delivers deps family request ds texts evs calls pre parts)
    (hne : calls ≠ []) (hall : ∀ T ∈ texts, textCalls deps family request T = []) :
    KeepsIndices (withIntents deps) evs (calls.map (fillToolIntentArgument request)) ↔ NoGap ds := by
  have hcalls := assembleCalls_ok h.assembled
  obtain ⟨-, hprinted⟩ := h.unsent hne hall
  have hentry : ∀ (k : ℕ) (call : ToolCall Json), calls[k]? = some call → ∃ e,
      (namedCalls 0 (ds.foldl StructuredToolDeltaAssembler.push {}).calls)[k]? = some e ∧
        call.function.name = e.2.name ∧ ∀ id, e.2.id = some id → call.id = id := by
    intro k call hcall
    obtain ⟨hlt, hget⟩ := List.getElem?_eq_some_iff.1 hcall
    have hlt' := hcalls.length_eq.symm ▸ hlt
    refine ⟨_, List.getElem?_eq_getElem hlt', ?_⟩
    rw [← hget]
    exact hcalls.get hlt' hlt
  rw [noGap_iff_dense]
  constructor
  · intro hkeeps
    refine (dense_iff (i := 0)).2 fun k hk => ?_
    have hk' : k < calls.length := hcalls.length_eq ▸ hk
    have hcall := List.getElem?_eq_getElem hk'
    have hk'' : k < parts.length := h.length.symm ▸ hk'
    have hpart := List.getElem?_eq_getElem hk''
    -- the name at the position of a call is the name of the call, so it is not blank
    have hname := (hkeeps.obtains k (argumentsDelta k parts[k]) _
      (by rw [h.argumentDeltas_eq, getElem?_argumentsFrom, hpart, Nat.zero_add]; rfl)
      (by rw [List.getElem?_map, hcall]; rfl)).name
    obtain ⟨e, he, hcallName, -⟩ := hentry k _ hcall
    obtain ⟨-, -, hnamed⟩ := mem_kept (List.mem_of_getElem? he)
    rw [show (argumentsDelta k parts[k]).index = k from rfl, (h.client hne hall k).1, merged_eq_slot,
      (fillToolIntentArgument_keeps request _).1, hcallName] at hname
    rw [← hname] at hnamed
    cases hslot : (ds.foldl StructuredToolDeltaAssembler.push {}).calls[k]? with
    | none =>
      rw [hslot] at hnamed
      simp [trim, trimStart] at hnamed
    | some acc =>
      rw [hslot] at hnamed
      exact ⟨acc, rfl, hnamed⟩
  · intro hdense
    refine ⟨h.count, fun k d call hd hcall => ?_⟩
    rw [h.argumentDeltas_eq, getElem?_argumentsFrom, Nat.zero_add] at hd
    obtain ⟨part, hpart, rfl⟩ := Option.map_eq_some_iff.1 hd
    rw [List.getElem?_map] at hcall
    obtain ⟨call, hat, rfl⟩ := Option.map_eq_some_iff.1 hcall
    obtain ⟨e, he, hname, hid⟩ := hentry k call hat
    have hindex := kept_of_dense hdense k e he
    obtain ⟨-, hslot, -⟩ := mem_kept (List.mem_of_getElem? he)
    rw [hindex, Nat.zero_add, Nat.sub_zero] at hslot
    obtain ⟨hclientName, hclientId, hclientParts⟩ := h.client hne hall k
    have hmerged : merged ds k = e.2 := by rw [merged_eq_slot, hslot, Option.getD_some]
    rw [hpart, Option.toList_some] at hclientParts
    refine ⟨?_, fun id hsome => ?_, ?_, ?_⟩
    · exact (hclientName.trans (by rw [hmerged])).trans
        (hname.symm.trans (fillToolIntentArgument_keeps request call).1.symm)
    · rw [(fillToolIntentArgument_keeps request call).2]
      refine hid id ?_
      rw [← hmerged, ← hclientId]
      exact hsome
    · show deps.jsonToString _ = .ok (merged (KirAi.Runtime.sent evs) k).arguments
      rw [merged_arguments, hclientParts, List.flatten_singleton]
      obtain ⟨hlt, hget⟩ := List.getElem?_eq_some_iff.1 hpart
      obtain ⟨hlt', hget'⟩ := List.getElem?_eq_some_iff.1 hat
      have hprint := hprinted.get (by rwa [List.length_map]) hlt
      simpa [hget, hget'] using hprint
    · rw [show (argumentsDelta k part).index = k from rfl, hclientParts, List.length_singleton]

end Index

/-- A tool `f` that requires an intent. -/
def intentRequest : ChatRequest Api.ToolDefinition where
  tools := [⟨.function, ⟨['f'], none, .object [("required", .array [.string "_i"]),
    ("properties", .object [("_i", .object [("type", .string "string")])])]⟩⟩]

def structuredDeps : ChatDeps Json Api.ToolDefinition Unit where
  parseComplete _ text := .ok ⟨none, text, []⟩
  parseChatText _ text _ := .ok ⟨none, text, []⟩
  splitReasoning text := .ok (none, text)
  validateToolCallArguments _ := .ok ()
  fillMissingToolIntentArguments parsed _ := parsed
  classifyRepeatedInvalidToolCallNoProgress _ _ := none
  validateToolCallsAgainstRequest _ _ := .ok ()
  validateJsonObjectResponse _ := .ok ()
  classifyChatNoProgress _ _ _ _ _ _ := none
  requestMayFillToolIntentArguments _ := true
  missingFunctionName _ := ()
  parseStructuredToolArguments _ text :=
    if trim text = [] then .ok (.object [])
    else
      match Json.parseValue 127 (trim text) with
      | some (value, []) => .ok value
      | _ => .error ()
  jsonToString value := .ok value.chars
  indexOverflow _ := ()
  generatedToolCallId _ := "call".toList

/-- One part of a call of `f`. -/
def partOf (index : ℕ) (name arguments : Option Str) : BackendToolCallDelta :=
  ⟨index, none, none, some ⟨name, arguments⟩⟩

/-- Two calls, their parts mixed. -/
def mixedBackend : List (Except Unit BackendStreamChunk) :=
  [.ok { text := [], toolCallDeltas := [partOf 1 (some ['f']) none, partOf 0 (some ['f']) none] },
    .ok { text := [], toolCallDeltas := [partOf 1 none (some "\x7b\"_i\":\"b\"\x7d".toList),
            partOf 0 none (some "\x7b\"_i\":\"a\"\x7d".toList)],
          finishReason := some .toolCalls }]

/-- The index, the name and the arguments of the deltas that a client gets. -/
def shownDeltas (backend : List (Except Unit BackendStreamChunk)) :
    List (ℕ × Option Str × Option Str) :=
  (sent (streamingChatStream (withIntents structuredDeps) .qwen intentRequest false
    backend).events).map fun d => (d.index, d.name, d.arguments)

/-- One call, under the index 1. -/
def gapBackend : List (Except Unit BackendStreamChunk) :=
  [.ok { text := [], toolCallDeltas := [partOf 1 (some ['f']) (some "\x7b\x7d".toList)],
         finishReason := some .toolCalls }]

/-- A call in the text and a structured one: both go out under the index 0, with the arguments
of the first. -/
example :
    let deps : ChatDeps Json Api.ToolDefinition Unit := { structuredDeps with
      parseComplete := fun _ _ => .ok ⟨none, [],
        [⟨['a'], .function, ⟨['f'], .object [("_i", .string "text")]⟩⟩]⟩ }
    let backend : List (Except Unit BackendStreamChunk) :=
      [.ok { text := "<tool_call></tool_call>".toList },
        .ok { text := [], toolCallDeltas := [partOf 0 (some ['f'])
                (some "\x7b\"_i\":\"b\"\x7d".toList)],
              finishReason := some .toolCalls }]
    (argumentParts (sent (streamingChatStream (withIntents deps) .qwen intentRequest false
      backend).events) 0) =
        ["\x7b\"_i\":\"text\"\x7d".toList, "\x7b\"_i\":\"text\"\x7d".toList] := by
  decide +kernel

end KirAi.Runtime
