/-
# Tool markup in the content of a chat stream

What the stream shows as content, against the first tool block: the place at which the parser of
the family opens a call (`blockStart`), in the backend text or in the part of it that the answer
is read from when a stop cuts it. `Cut T n` says of an event that its content, if it has one, is a
piece of the backend text `T` that ends at or before `n`.

In the mode that shows content at once, what is safe after a chunk ends before every start marker,
and the last flush happens only in a text without one. Several things break this. A stop sequence
shows the text before it whatever markers stand in it. The markers of DeepSeek lack `<tool_call>`,
which its parser reads as well. And a tag that the parser finds can have reasoning inside it, so
that no marker stands in the text. `Contained` is the condition under which none of this matters:
no stop that can be seen first cuts the text behind the first block; and without a stop the
safe content ends at the block, and the rest is not flushed, since a marker stands in the text or
since the text up to its last end marker is read for calls and nothing stands after it, or it is
refused.

Key definitions:
* `Cut`, `NoToolLeak`, `Held`, `Contained`

Key theorems:
* `ensures_streamingChatStream`: a contained text does not leak
* `noToolLeak_iff`
-/
import KirAi.Runtime.ChatStream
import KirAi.ToolParser.BlockStart

namespace KirAi.Runtime

open Lib Lib.Text
open TryStream (Flow Ensures Emits ensures_pure ensures_yield ensures_fail ensures_orFail ensures_bind
  ensures_and ensures_mono ensures_loop ensures_of_emits emits_pure emits_fail emits_orFail
  emits_yield emits_bind)
open KirAi.ToolParser (blockStart blockStart_lt)

def ChatCompletionStreamEvent.range : ChatCompletionStreamEvent → Option (ℕ × ℕ)
  | .chunk _ range => range
  | _ => none

/-- The content of the event is a piece of `T` that ends at or before `n`. -/
def Cut (T : Str) (n : ℕ) (e : ChatCompletionStreamEvent) : Prop :=
  ∀ text, e.content = some text →
    ∃ a b, e.range = some (a, b) ∧ slice? T a b = some text ∧ b ≤ n

/-- Where a stream that has read `P` stops at a stop sequence. -/
def stopOf (stop : List Str) : Str → List BackendStreamChunk → Option ℕ
  | _, [] => none
  | P, chunk :: chunks =>
    match earliestFrom stop (P ++ chunk.text) 0 with
    | some e => some e
    | none => stopOf stop (P ++ chunk.text) chunks

/-- The text that the answer is read from: what stands before the stop. -/
def visibleText (stop : List Str) (chunks : List BackendStreamChunk) : Str :=
  match stopOf stop [] chunks with
  | some e => takeTo (textOf chunks) e
  | none => textOf chunks

/-- No content from the first tool block on: of the backend text, or of the text that the answer
is read from. -/
def NoToolLeak (family : ModelFamily) (stop : List Str) (chunks : List BackendStreamChunk)
    (evs : List ChatCompletionStreamEvent) : Prop :=
  ∀ n, blockStart family (textOf chunks) = some n ∨
      blockStart family (visibleText stop chunks) = some n →
    ∀ e ∈ evs, Cut (textOf chunks) n e

/-- Some beginning of the text has its first stop at `e`, so that a stream can stop there. -/
def StopsAt (stop : List Str) (T : Str) (e : ℕ) : Prop :=
  ∃ P t, P ++ t = T ∧ IsLeast (hits stop P) e

/-- How far a text is safe to show when it has been read whole. -/
def firstSafeLen (family : ModelFamily) (stop : List Str) (T : Str) : ℕ :=
  min (safeStreamEmitLen T (maxStopSequenceLen stop))
    (((toolMarkupPolicy family).streamState.observe T).safeEmitLen T)

section Contained

variable {J τ ε : Type} (deps : ChatDeps J τ ε) (family : ModelFamily) (request : ChatRequest τ)

/-- The text is parsed, its calls pass the checks, and there are not too many to be numbered. -/
def Accepts (text : Str) : Prop :=
  ∃ parsed, deps.parseComplete family text = .ok parsed ∧
    deps.validateToolCallArguments parsed = .ok () ∧
    deps.classifyRepeatedInvalidToolCallNoProgress
      (deps.fillMissingToolIntentArguments parsed request) request = none ∧
    deps.validateToolCallsAgainstRequest
      (deps.fillMissingToolIntentArguments parsed request) request = .ok () ∧
    (deps.fillMissingToolIntentArguments parsed request).toolCalls.length ≤ 2 ^ 32

/-- The text up to its last end marker is read for calls before the rest is flushed: nothing stands
after it, or it is refused. -/
def Swallowed (T : Str) : Prop :=
  ∃ p, IsGreatest ((toolMarkupPolicy family).blockEnds T) p ∧
    (p = len T ∨ ¬Accepts deps family request (takeTo T p))

/-- Nothing of the text from `n` on is shown: no stop lies behind it, and in a text without a stop
it is not safe, and not flushed. -/
structure Held (T : Str) (n : ℕ) : Prop where
  stop : ∀ e, StopsAt request.stop T e → e ≤ n
  safe : hits request.stop T = ∅ → firstSafeLen family request.stop T ≤ n
  flush : hits request.stop T = ∅ →
    (hits (toolMarkupPolicy family).startMarkers T).Nonempty ∨ Swallowed deps family request T

/-- The texts whose first tool block is never shown. -/
structure Contained (T : Str) : Prop where
  block : ∀ n, blockStart family T = some n → Held deps family request T n
  cut : ∀ e, StopsAt request.stop T e → blockStart family (takeTo T e) = none

end Contained

theorem cut_of_content_none {T : Str} {n : ℕ} {e : ChatCompletionStreamEvent}
    (h : e.content = none) : Cut T n e := by
  intro text htext
  rw [h] at htext
  cases htext

/-! ### Steps that show no content -/

section Quiet

variable {J τ ε : Type} (deps : ChatDeps J τ ε)

/-- The events without content. -/
abbrev Silent (e : ChatCompletionStreamEvent) : Prop := e.content = none

theorem emits_sliceText {raw : Str} {a b : ℕ} :
    Emits Silent (sliceText raw a b : ChatBody ε Str) := by
  unfold sliceText
  split
  · exact emits_pure _
  · exact emits_fail _

theorem emits_yieldDelta {delta : ChatCompletionDelta} (h : delta.content = none) :
    Emits Silent (yieldDelta delta : ChatBody ε Unit) :=
  emits_yield (by simpa [Silent, ChatCompletionStreamEvent.content, streamSeedChunk] using h)

theorem emits_check (r : Except ε Unit) : Emits Silent (check r : ChatBody ε Unit) :=
  emits_orFail _

theorem emits_failOn (c : Option NoProgressClass) : Emits Silent (failOn c : ChatBody ε Unit) := by
  cases c with
  | none => exact emits_pure _
  | some c => exact emits_fail _

theorem emits_yieldStage (seen : Bool) (stage : ChatCompletionStreamStage) :
    Emits Silent (yieldStage seen stage : ChatBody ε Unit) := by
  unfold yieldStage
  split
  · exact emits_yield rfl
  · exact emits_pure _

theorem emits_yieldToolCalls
    (serialize : ToolCallDeltaSerializer → ℕ → ToolCall J →
      Except ε (ToolCallDelta × ToolCallDeltaSerializer)) :
    ∀ (calls : List (ToolCall J)) (s : ToolCallDeltaSerializer) (i : ℕ),
      Emits Silent (yieldToolCalls serialize s i calls)
  | [], s, _ => emits_pure s
  | _ :: calls, _, i =>
    emits_bind (emits_orFail _) fun r =>
      emits_bind (emits_yieldDelta rfl) fun _ => emits_yieldToolCalls serialize calls r.2 (i + 1)

theorem emits_parseVisible (family : ModelFamily) (deferred : DeferredEmission)
    (request : ChatRequest τ) (s : ChatState) :
    Emits Silent (parseVisible deps family deferred request s) := by
  refine emits_bind emits_sliceText fun _ => emits_bind (emits_orFail _) fun _ => ?_
  refine emits_bind (emits_yieldStage _ _) fun _ => emits_bind (emits_check _) fun _ => ?_
  refine emits_bind (emits_failOn _) fun _ => emits_bind (emits_yieldStage _ _) fun _ => ?_
  refine emits_bind (emits_check _) fun _ => emits_bind (emits_yieldStage _ _) fun _ => ?_
  exact emits_bind (emits_check _) fun _ => emits_bind (emits_failOn _) fun _ => emits_pure _

theorem emits_emitRemainingToolCalls (request : ChatRequest τ) (s : ChatState)
    (parsed : ParsedAssistant J) : Emits Silent (emitRemainingToolCalls deps request s parsed) := by
  unfold emitRemainingToolCalls
  split
  · exact emits_yieldToolCalls _ _ _ _
  · split
    · exact emits_yieldToolCalls _ _ _ _
    · exact emits_pure _

theorem emits_yieldChatClosing (includeUsage : Bool) (reason : FinishReason) (usage : Usage) :
    Emits Silent (yieldChatClosing includeUsage reason usage : ChatBody ε Unit) := by
  refine emits_bind (emits_yield rfl) fun _ => ?_
  split
  · exact emits_bind (emits_yield rfl) fun _ => emits_yield rfl
  · exact emits_yield rfl

theorem emits_yieldChatProgress (p : Option BackendStreamProgress) :
    Emits Silent (yieldChatProgress p : ChatBody ε Unit) := by
  cases p with
  | none => exact emits_pure _
  | some p => exact emits_yield rfl

theorem emits_yieldInternalProgress (chunk : BackendStreamChunk) (s : ChatState) :
    Emits Silent (yieldInternalProgress chunk s : ChatBody ε Unit) := by
  unfold yieldInternalProgress
  split
  · exact emits_yield rfl
  · exact emits_pure _

/-- After the flush of the mode that shows content at once, no content follows. -/
theorem emits_finishChat_tail (family : ModelFamily) (request : ChatRequest τ)
    (includeUsage : Bool) (s : ChatState) (reason : ParsedAssistant J → FinishReason) :
    Emits Silent (do
      let parsed ← parseVisible deps family .none request s
      emitDeferredContent .none s.emittedLen parsed
      let _ ← emitRemainingToolCalls deps request s parsed
      yieldChatClosing includeUsage (reason parsed) s.tokens.usage) :=
  emits_bind (emits_parseVisible deps family .none request s) fun _ =>
    emits_bind (emits_pure ()) fun _ =>
      emits_bind (emits_emitRemainingToolCalls deps request s _) fun _ =>
        emits_yieldChatClosing _ _ _

end Quiet

/-! ### A contained text does not leak -/

/-- The state after the text `P`, no stop seen. -/
structure Reading {τ : Type} (family : ModelFamily) (request : ChatRequest τ) (P : Str)
    (s : ChatState) : Prop where
  rawText : s.rawText = P
  markup : Tracks (toolMarkupPolicy family) P s.toolMarkupState
  stopDetector : s.stopDetector = ⟨maxStopSequenceLen request.stop, len P⟩
  noStop : P ≠ [] → hits request.stop P = ∅
  running : s.stoppedBySequence = false
  uncut : s.stopAtLen = none

section Leak

variable {J τ ε : Type} {deps : ChatDeps J τ ε} {family : ModelFamily} {request : ChatRequest τ}
  {P t T : Str} {n : ℕ} {evs : List ChatCompletionStreamEvent} {s s' : ChatState}

theorem content_emitted (text : Str) (range : Option (ℕ × ℕ)) :
    (ChatCompletionStreamEvent.chunk (streamSeedChunk { content := some text } none none)
      range).content = some text := by
  simp [ChatCompletionStreamEvent.content, streamSeedChunk]

/-- Content that ends at or before `n` is cut at `n`, whether or not its slice exists. -/
theorem ensures_emitContent {a b : ℕ} (hb : b ≤ n) (h : ∀ e ∈ evs, Cut (P ++ t) n e) :
    Ensures (emitContent P a b : ChatBody ε Unit) evs
      (fun evs' _ => ∀ e ∈ evs', Cut (P ++ t) n e) (fun evs' _ => ∀ e ∈ evs', Cut (P ++ t) n e) := by
  unfold emitContent sliceText
  split
  · next m hm =>
    refine ensures_bind (ensures_pure (ensures_yield ?_))
    intro e he
    rcases List.mem_append.1 he with h' | h'
    · exact h e h'
    · rw [List.mem_singleton.1 h']
      intro text htext
      rw [content_emitted] at htext
      obtain rfl := Option.some.inj htext
      exact ⟨a, b, rfl, slice?_append_right hm t, hb⟩
  · exact ensures_bind (ensures_fail h)

/-- What can be shown of a text does not shrink when it grows, whichever states track it. -/
theorem Tracks.safeEmitLen_append_le {markup : ToolMarkupPolicy} {m m' : ToolMarkupStreamState}
    (hopen : ∀ p ∈ markup.startMarkers, Opens p) (h : Tracks markup P m)
    (h' : Tracks markup (P ++ t) m') : m.safeEmitLen P ≤ m'.safeEmitLen (P ++ t) := by
  cases hm' : m'.firstStart with
  | some i =>
    have heq : m'.safeEmitLen (P ++ t) = i := by
      simp only [ToolMarkupStreamState.safeEmitLen, hm']
    rw [heq]
    exact h.safeEmitLen_le hopen (h'.start hm').1
  | none =>
    have hnone := h'.noStart hm'
    have hm : m.firstStart = none := by
      cases hm : m.firstStart with
      | none => rfl
      | some i =>
        have hmem := mem_hits_append (h.start hm).1 t
        rw [hnone] at hmem
        cases hmem
    simp only [ToolMarkupStreamState.safeEmitLen, hm, hm', h.policy, h'.policy]
    exact shown_append_le t

theorem tracks_first (family : ModelFamily) (T : Str) :
    Tracks (toolMarkupPolicy family) T ((toolMarkupPolicy family).streamState.observe T) := by
  simpa using (Tracks.streamState (opens_startMarkers family)).observe
    (opens_startMarkers family) T

/-- What is safe to show of a beginning of a held text ends at or before `n`. -/
theorem Held.safeContentLen_le (hH : Held deps family request (P ++ t) n)
    (hR : Reading family request P s) : safeContentLen request s ≤ n := by
  unfold safeContentLen
  rw [hR.rawText]
  by_cases hstop : hits request.stop (P ++ t) = ∅
  · refine le_trans ?_ (hH.safe hstop)
    exact min_le_min (safeStreamEmitLen_append_le P t _)
      (hR.markup.safeEmitLen_append_le (opens_startMarkers family) (tracks_first family _))
  · obtain ⟨e, he⟩ := exists_isLeast_hits (Set.nonempty_iff_ne_empty.2 hstop)
    have hle := hH.stop e ⟨P ++ t, [], List.append_nil _, he⟩
    refine (min_le_left _ _).trans (le_trans ?_ hle)
    by_cases hP : P = []
    · rw [hP, safeStreamEmitLen_nil]
      exact Nat.zero_le e
    · exact safeStreamEmitLen_le_of_mem_hits (by simp [hR.noStop hP]) he.1

/-- What a chunk keeps of the state, the text and the stop search apart. -/
structure SameText (s s' : ChatState) : Prop where
  rawText : s'.rawText = s.rawText
  toolMarkupState : s'.toolMarkupState = s.toolMarkupState
  stopDetector : s'.stopDetector = s.stopDetector
  stoppedBySequence : s'.stoppedBySequence = s.stoppedBySequence
  stopAtLen : s'.stopAtLen = s.stopAtLen

theorem Reading.same (hR : Reading family request P s) (h : SameText s s') :
    Reading family request P s' where
  rawText := h.rawText.trans hR.rawText
  markup := h.toolMarkupState ▸ hR.markup
  stopDetector := h.stopDetector.trans hR.stopDetector
  noStop := hR.noStop
  running := h.stoppedBySequence.trans hR.running
  uncut := h.stopAtLen.trans hR.uncut

/-! ### What has been read for calls -/

variable (deps family request) in
/-- The text that has been read for calls ends at an end marker, was accepted, and is not shown
any more. -/
structure Taking (P : Str) (s : ChatState) : Prop where
  completes : Completes (toolMarkupPolicy family) P s.toolMarkupState
  few : s.emittedToolCalls ≤ 2 ^ 32
  parsed : s.parsedToolPrefixLen ≠ 0 →
    s.parsedToolPrefixLen ∈ (toolMarkupPolicy family).blockEnds P ∧
      Accepts deps family request (takeTo P s.parsedToolPrefixLen) ∧
      s.parsedToolPrefixLen ≤ s.emittedLen

variable (deps family request) in
/-- It ends at the last end marker of `P`. -/
structure Took (P : Str) (s : ChatState) : Prop extends Taking deps family request P s where
  last : ∀ p, s.toolMarkupState.completedPrefixLen = some p → s.parsedToolPrefixLen = p

/-- What a step that reads nothing for calls keeps of the state. -/
structure SameParse (s s' : ChatState) : Prop extends SameText s s' where
  emittedToolCalls : s'.emittedToolCalls = s.emittedToolCalls
  parsedToolPrefixLen : s'.parsedToolPrefixLen = s.parsedToolPrefixLen
  emittedLen : s.emittedLen ≤ s'.emittedLen

theorem Taking.same (h : Taking deps family request P s) (hs : SameParse s s') :
    Taking deps family request P s' where
  completes := hs.toolMarkupState ▸ h.completes
  few := hs.emittedToolCalls ▸ h.few
  parsed hne := by
    rw [hs.parsedToolPrefixLen] at hne ⊢
    obtain ⟨hmem, haccepts, hle⟩ := h.parsed hne
    exact ⟨hmem, haccepts, hle.trans hs.emittedLen⟩

theorem Took.same (h : Took deps family request P s) (hs : SameParse s s') :
    Took deps family request P s' where
  toTaking := h.toTaking.same hs
  last p hp := by
    rw [hs.parsedToolPrefixLen]
    exact h.last p (hs.toolMarkupState ▸ hp)

theorem blockEnds_pos {p : ℕ} (hp : p ∈ (toolMarkupPolicy family).blockEnds P) : 0 < p := by
  obtain ⟨q, hq, i, -, rfl⟩ := hp
  have hne := (closes_endMarkers family q hq).ne_nil
  have := Nat.pos_of_ne_zero fun hz => hne (len_eq_zero.1 hz)
  omega

/-- A step without content, at any place of a stream. -/
theorem ensures_silent {α : Type} {m : ChatBody ε α} (hm : Emits Silent m)
    (h : ∀ e ∈ evs, Cut T n e) {Q : List ChatCompletionStreamEvent → α → Prop}
    (hQ : ∀ evs' a, (∀ e ∈ evs', Cut T n e) → Q evs' a) :
    Ensures m evs Q (fun evs' _ => ∀ e ∈ evs', Cut T n e) :=
  ensures_mono (ensures_of_emits hm (fun _ he => cut_of_content_none he) h) hQ fun _ _ h => h

theorem ensures_failOn {c : Option NoProgressClass} {Q : List ChatCompletionStreamEvent → Unit → Prop}
    {E : List ChatCompletionStreamEvent → StreamError ε → Prop} (hnone : c = none → Q evs ())
    (hsome : ∀ cls, c = some cls → E evs (.noProgress cls)) :
    Ensures (failOn c : ChatBody ε Unit) evs Q E := by
  cases c with
  | none => exact ensures_pure (hnone rfl)
  | some cls => exact ensures_fail (hsome cls rfl)

/-- Calls that are sent have been numbered. -/
theorem ensures_yieldToolCalls_few : ∀ (calls : List (ToolCall J)) (z : ToolCallDeltaSerializer)
    (i : ℕ) {evs : List ChatCompletionStreamEvent},
    Ensures (yieldToolCalls (fun z => z.toolCallDelta deps) z i calls) evs
      (fun _ _ => calls ≠ [] → i + calls.length ≤ 2 ^ 32) (fun _ _ => True)
  | [], _, _, _ => ensures_pure fun h => absurd rfl h
  | call :: calls, z, i, evs => by
    refine ensures_bind (ensures_orFail (fun r hr => ?_) fun _ _ => trivial)
    obtain ⟨apiIndex, hindex, -⟩ := bind_eq_ok.1 (mapError_eq_ok.1 hr)
    have hlt : i < 2 ^ 32 := by
      unfold apiToolCallIndex at hindex
      split at hindex
      · assumption
      · cases hindex
    refine ensures_bind (ensures_yield (ensures_mono (ensures_yieldToolCalls_few calls _ (i + 1))
      (fun _ _ hrest _ => ?_) fun _ _ h => h))
    rw [List.length_cons]
    rcases eq_or_ne calls [] with rfl | hne
    · exact hlt
    · have := hrest hne
      omega

/-- A text is searched for closed blocks: if the stream goes on, the last one was accepted. -/
theorem ensures_emitToolPrefix (h : ∀ e ∈ evs, Cut T n e) (hraw : s.rawText = P)
    (hK : Taking deps family request P s) :
    Ensures (emitToolPrefix deps family .none request s) evs
      (fun evs' s' => (∀ e ∈ evs', Cut T n e) ∧ SameText s s' ∧ Took deps family request P s')
      (fun evs' _ => ∀ e ∈ evs', Cut T n e) := by
  have hsame : SameText s s := ⟨rfl, rfl, rfl, rfl, rfl⟩
  unfold emitToolPrefix
  cases hp : s.toolMarkupState.completedPrefixLen with
  | none => exact ensures_pure ⟨h, hsame, hK, fun p h => by rw [hp] at h; cases h⟩
  | some p =>
    have hgreatest := (hK.completes.isGreatest_iff p).1 hp
    have hpos := blockEnds_pos hgreatest.1
    dsimp only
    by_cases hle : p ≤ s.parsedToolPrefixLen
    · rw [if_pos hle]
      have hparsed := hgreatest.2 (hK.parsed (by omega)).1
      refine ensures_pure ⟨h, hsame, hK, fun q hq => ?_⟩
      rw [hp] at hq
      obtain rfl := Option.some.inj hq
      exact le_antisymm hparsed hle
    · rw [if_neg hle, hraw]
      refine ensures_bind (ensures_sliceText (isBoundary_zero _)
        (isBoundary_of_mem_blockEnds hgreatest.1) (Nat.zero_le p) fun text htext => ?_)
      obtain rfl := eq_takeTo_of_slice? htext
      refine ensures_bind (ensures_orFail (fun parsed hparse => ?_) fun _ _ => h)
      refine ensures_bind (ensures_orFail (fun _ hvalid => ?_) fun _ _ => h)
      refine ensures_bind (ensures_failOn (fun hclass => ?_) fun _ _ => h)
      refine ensures_bind (ensures_orFail (fun _ hagainst => ?_) fun _ _ => h)
      rw [if_neg (fun hc => by cases hc.1)]
      refine ensures_bind (ensures_mono (ensures_and (ensures_silent (emits_yieldToolCalls _ _ _ _) h
        fun _ _ h' => h') (ensures_yieldToolCalls_few _ _ _)) (fun evs' z hz => ?_)
        fun _ _ h' => h'.1)
      obtain ⟨h', hfew⟩ := hz
      have hlen : (deps.fillMissingToolIntentArguments parsed request).toolCalls.length ≤ 2 ^ 32 := by
        by_cases hall : (deps.fillMissingToolIntentArguments parsed request).toolCalls.length ≤
            s.emittedToolCalls
        · exact hall.trans hK.few
        · have hdrop : (deps.fillMissingToolIntentArguments parsed request).toolCalls.drop
              s.emittedToolCalls ≠ [] := by
            rw [ne_eq, List.drop_eq_nil_iff]
            exact hall
          have hsum := hfew hdrop
          rw [List.length_drop] at hsum
          omega
      have haccepts : Accepts deps family request (takeTo P p) :=
        ⟨parsed, mapError_eq_ok.1 hparse, mapError_eq_ok.1 hvalid, hclass, mapError_eq_ok.1 hagainst,
          hlen⟩
      refine ensures_pure ⟨h', ⟨hraw.symm, rfl, rfl, rfl, rfl⟩, ⟨hK.completes, hlen, fun _ =>
        ⟨hgreatest.1, haccepts, le_max_right _ _⟩⟩, fun q hq => ?_⟩
      have hq' : s.toolMarkupState.completedPrefixLen = some q := hq
      rw [hp] at hq'
      exact Option.some.inj hq'

/-! ### A held text is not shown from `n` on -/

theorem ensures_readToolCallDeltas (bufferArguments : Bool) (ds : List BackendToolCallDelta)
    (h : ∀ e ∈ evs, Cut T n e) :
    Ensures (readToolCallDeltas bufferArguments s ds : ChatBody ε ChatState) evs
      (fun evs' s' => (∀ e ∈ evs', Cut T n e) ∧ SameParse s s')
      (fun evs' _ => ∀ e ∈ evs', Cut T n e) := by
  unfold readToolCallDeltas
  dsimp only
  generalize (if bufferArguments then _ else _ : List ToolCallDelta) = shown
  split
  · exact ensures_pure ⟨h, ⟨rfl, rfl, rfl, rfl, rfl⟩, rfl, rfl, le_rfl⟩
  · exact ensures_bind (ensures_silent (emits_yieldDelta rfl) h fun evs' _ h' =>
      ensures_pure ⟨h', ⟨rfl, rfl, rfl, rfl, rfl⟩, rfl, rfl, le_rfl⟩)

theorem ensures_emitSafeContent (hH : Held deps family request (P ++ t) n)
    (hR : Reading family request P s) (h : ∀ e ∈ evs, Cut (P ++ t) n e) :
    Ensures (emitSafeContent .none request s : ChatBody ε ChatState) evs
      (fun evs' s' => (∀ e ∈ evs', Cut (P ++ t) n e) ∧ SameParse s s')
      (fun evs' _ => ∀ e ∈ evs', Cut (P ++ t) n e) := by
  unfold emitSafeContent
  dsimp only
  split
  · next hmore =>
    rw [hR.rawText]
    refine ensures_bind (ensures_mono (ensures_emitContent (hH.safeContentLen_le hR) h)
      (fun _ _ h => ensures_pure ⟨h, ⟨hR.rawText.symm, rfl, rfl, rfl, rfl⟩, rfl, rfl, ?_⟩)
      fun _ _ h => h)
    exact hmore.2.le
  · exact ensures_pure ⟨h, ⟨rfl, rfl, rfl, rfl, rfl⟩, rfl, rfl, le_rfl⟩

/-- What is known of a stream that has read `P` and not stopped. -/
def Follows {J τ ε : Type} (deps : ChatDeps J τ ε) (family : ModelFamily) (request : ChatRequest τ)
    (P : Str) (s : ChatState) : Prop :=
  Reading family request P s ∧ Took deps family request P s

/-- The text of a chunk: read on with the content cut, or stopped with the content cut. -/
theorem ensures_readChatText {text : Str} (hH : Held deps family request (P ++ text ++ t) n)
    (hF : Follows deps family request P s) (h : ∀ e ∈ evs, Cut (P ++ text ++ t) n e) :
    Ensures (readChatText deps family .none request s text) evs
      (fun evs' r => (∀ e ∈ evs', Cut (P ++ text ++ t) n e) ∧ match r with
        | .next s' => Follows deps family request (P ++ text) s'
        | .exit s' => s'.stoppedBySequence = true)
      (fun evs' _ => ∀ e ∈ evs', Cut (P ++ text ++ t) n e) := by
  obtain ⟨hR, hK⟩ := hF
  have hobs : (s.stopDetector.observe (P ++ text) request.stop).1 =
      earliestFrom request.stop (P ++ text) 0 := by
    rw [hR.stopDetector]
    exact IncrementalStopDetector.observe_eq_of_fresh hR.noStop text
  have hdet : (s.stopDetector.observe (P ++ text) request.stop).2 =
      ⟨maxStopSequenceLen request.stop, len (P ++ text)⟩ := by
    rw [IncrementalStopDetector.observe_snd, hR.stopDetector]
  rw [readChatText]
  split
  · next hempty =>
    rw [List.isEmpty_iff.1 hempty, List.append_nil] at h ⊢
    exact ensures_pure ⟨h, hR, hK⟩
  simp only [hR.rawText, hobs, hdet]
  cases hhit : earliestFrom request.stop (P ++ text) 0 with
  | some e =>
    have hle := hH.stop e ⟨P ++ text, t, rfl, isLeast_hits hhit⟩
    refine ensures_bind ?_
    unfold stopChat
    dsimp only
    split
    · exact ensures_bind (ensures_mono (ensures_emitContent hle h)
        (fun _ _ h => ensures_pure (ensures_pure ⟨h, rfl⟩)) fun _ _ h => h)
    · exact ensures_pure (ensures_pure ⟨h, rfl⟩)
  | none =>
    have hR' : Reading family request (P ++ text)
        { s with
          rawText := P ++ text
          toolMarkupState := s.toolMarkupState.observe (P ++ text)
          stopDetector := ⟨maxStopSequenceLen request.stop, len (P ++ text)⟩ } :=
      ⟨rfl, hR.markup.observe (opens_startMarkers family) text, rfl,
        fun _ => hits_eq_empty hhit, hR.running, hR.uncut⟩
    have hK' : Taking deps family request (P ++ text)
        { s with
          rawText := P ++ text
          toolMarkupState := s.toolMarkupState.observe (P ++ text)
          stopDetector := ⟨maxStopSequenceLen request.stop, len (P ++ text)⟩ } := by
      refine ⟨hK.completes.observe hR.markup text, hK.few, fun hne => ?_⟩
      obtain ⟨hmem, haccepts, hle⟩ := hK.parsed hne
      refine ⟨blockEnds_append hmem text, ?_, hle⟩
      rwa [takeTo_append_of_isBoundary (isBoundary_of_mem_blockEnds hmem)]
    refine ensures_bind (ensures_mono (ensures_emitSafeContent hH hR' h)
      (fun _ s₁ h₁ => ?_) fun _ _ h => h)
    obtain ⟨h₁, hs₁⟩ := h₁
    have hR₁ := hR'.same hs₁.toSameText
    refine ensures_bind (ensures_mono (ensures_emitToolPrefix h₁ hR₁.rawText (hK'.same hs₁))
      (fun _ s₂ h₂ => ?_) fun _ _ h => h)
    -- the buffer of unmarked calls belongs to another mode
    exact ensures_bind (ensures_pure (ensures_pure ⟨h₂.1, hR₁.same h₂.2.1, h₂.2.2⟩))

theorem ensures_closeChat {chunk : BackendStreamChunk} {r : Flow ChatState}
    (h : ∀ e ∈ evs, Cut T n e)
    (hr : match r with
      | .next s' => Follows deps family request P s'
      | .exit s' => s'.stoppedBySequence = true) :
    Ensures (closeChat chunk r : ChatBody ε (Flow ChatState)) evs
      (fun evs' r => (∀ e ∈ evs', Cut T n e) ∧ match r with
        | .next s' => Follows deps family request P s'
        | .exit s' => s'.stoppedBySequence = true ∨
            (Follows deps family request P s' ∧ chunk.finishReason ≠ none))
      (fun evs' _ => ∀ e ∈ evs', Cut T n e) := by
  cases r with
  | exit s' => exact ensures_pure ⟨h, .inl hr⟩
  | next s' =>
    refine ensures_bind (ensures_silent (emits_yieldInternalProgress chunk s') h fun _ _ h => ?_)
    cases hc : chunk.finishReason with
    | none => exact ensures_pure ⟨h, hr⟩
    | some reason =>
      exact ensures_pure ⟨h, .inr ⟨⟨hr.1.same ⟨rfl, rfl, rfl, rfl, rfl⟩,
        hr.2.same ⟨⟨rfl, rfl, rfl, rfl, rfl⟩, rfl, rfl, le_rfl⟩⟩, fun hnone => by cases hnone⟩⟩

theorem ensures_readChatChunk (hmode : deferredOf family request = .none) {c : BackendStreamChunk}
    (hH : Held deps family request (P ++ c.text ++ t) n) (hF : Follows deps family request P s)
    (h : ∀ e ∈ evs, Cut (P ++ c.text ++ t) n e) :
    Ensures (readChatChunk deps family request s (.ok c)) evs
      (fun evs' r => (∀ e ∈ evs', Cut (P ++ c.text ++ t) n e) ∧ match r with
        | .next s' => Follows deps family request (P ++ c.text) s'
        | .exit s' => s'.stoppedBySequence = true ∨
            (Follows deps family request (P ++ c.text) s' ∧ c.finishReason ≠ none))
      (fun evs' _ => ∀ e ∈ evs', Cut (P ++ c.text ++ t) n e) := by
  refine ensures_bind (ensures_pure ?_)
  refine ensures_bind (ensures_silent (emits_yieldChatProgress _) h fun _ _ h => ?_)
  refine ensures_bind (ensures_mono (ensures_readToolCallDeltas _ _ h) (fun _ s₁ h₁ => ?_)
    fun _ _ h => h)
  obtain ⟨h₁, hs₁⟩ := h₁
  have hF₁ : Follows deps family request P s₁ := by
    refine ⟨Reading.same ?_ hs₁.toSameText, Took.same ?_ hs₁⟩
    · exact hF.1.same ⟨rfl, rfl, rfl, rfl, rfl⟩
    · exact hF.2.same ⟨⟨rfl, rfl, rfl, rfl, rfl⟩, rfl, rfl, le_rfl⟩
  rw [hmode]
  exact ensures_bind (ensures_mono (ensures_readChatText hH hF₁ h₁)
    (fun _ _ h₂ => ensures_closeChat h₂.1 h₂.2) fun _ _ h => h)

theorem follows_initial : Follows deps family request [] (initialChat family request) := by
  refine ⟨⟨rfl, Tracks.streamState (opens_startMarkers family), rfl, fun h => absurd rfl h, rfl,
    rfl⟩, ⟨?_, Nat.zero_le _, fun h => absurd rfl h⟩, fun p hp => by cases hp⟩
  exact Completes.streamState fun p hp => (closes_endMarkers family p hp).ne_nil

/-- The loop: stopped at a stop, or the whole text read. -/
theorem ensures_chat_loop (hmode : deferredOf family request = .none)
    {chunks : List BackendStreamChunk} (hfin : EndsAtFinish chunks)
    (hH : Held deps family request (textOf chunks) n) (h : ∀ e ∈ evs, Cut (textOf chunks) n e) :
    Ensures (TryStream.loop (readChatChunk deps family request) (initialChat family request)
        (chunks.map .ok)) evs
      (fun evs' s' => (∀ e ∈ evs', Cut (textOf chunks) n e) ∧
        (s'.stoppedBySequence = true ∨ Follows deps family request (textOf chunks) s'))
      (fun evs' _ => ∀ e ∈ evs', Cut (textOf chunks) n e) := by
  rw [TryStream.loop_map]
  refine ensures_loop
    (fun pre evs s => (∀ e ∈ evs, Cut (textOf chunks) n e) ∧
      Follows deps family request (textOf pre) s)
    (fun _ evs s => (∀ e ∈ evs, Cut (textOf chunks) n e) ∧
      (s.stoppedBySequence = true ∨ Follows deps family request (textOf chunks) s))
    ?_ (fun _ _ h => ⟨h.1, .inr h.2⟩) (fun _ _ _ _ h => h) ⟨h, follows_initial⟩
  rintro pre c rest evs s ⟨hcut, hF⟩ hall
  have htext : textOf chunks = textOf pre ++ c.text ++ textOf rest := by
    rw [← hall, textOf_append, ← List.singleton_append, textOf_append, ← List.append_assoc]
    simp [textOf]
  rw [htext] at hH hcut ⊢
  refine ensures_mono (ensures_readChatChunk hmode hH hF hcut) (fun evs' r h' => ?_)
    fun _ _ h => h
  cases r with
  | next s' => exact ⟨h'.1, by rw [textOf_concat]; exact h'.2⟩
  | exit s' =>
    refine ⟨h'.1, h'.2.imp id fun hclosed => ?_⟩
    have hrest := hfin.eq_nil hall hclosed.2
    rw [hrest, textOf_nil, List.append_nil]
    exact hclosed.1

/-- The flush shows nothing of a held text. -/
theorem ensures_flushContent (hH : Held deps family request T n)
    (hs : s.stoppedBySequence = true ∨ Follows deps family request T s)
    (h : ∀ e ∈ evs, Cut T n e) :
    Ensures (flushContent .none s : ChatBody ε Unit) evs
      (fun evs' _ => ∀ e ∈ evs', Cut T n e) (fun evs' _ => ∀ e ∈ evs', Cut T n e) := by
  unfold flushContent
  dsimp only
  split
  · next hflush =>
    exfalso
    obtain ⟨hrun, hlt, -, hstart⟩ := hflush
    rcases hs with hstopped | ⟨hR, hK⟩
    · rw [hrun] at hstopped
      cases hstopped
    · rw [hR.uncut, hR.rawText, Option.getD_none] at hlt
      have hT : T ≠ [] := by
        rintro rfl
        simp at hlt
      rcases hH.flush (hR.noStop hT) with hmark | ⟨p, hp, hend⟩
      · refine absurd (hR.markup.noStart ?_) hmark.ne_empty
        simpa [ToolMarkupStreamState.containsStart] using hstart
      · -- the stream goes on, so the text up to the last end marker was accepted
        have hparsed := hK.last p ((hK.completes.isGreatest_iff p).2 hp)
        have hpos := blockEnds_pos hp.1
        obtain ⟨-, haccepts, hle⟩ := hK.parsed (by omega)
        rw [hparsed] at haccepts hle
        rcases hend with rfl | hrefused
        · omega
        · exact hrefused haccepts
  · exact ensures_pure h

/-- A held text is not shown from `n` on, however it is chunked. -/
theorem ensures_streamingChatStream (hmode : deferredOf family request = .none)
    (includeUsage : Bool) {chunks : List BackendStreamChunk} (hfin : EndsAtFinish chunks)
    (hH : Held deps family request (textOf chunks) n) :
    Ensures (streamingChatStream deps family request includeUsage (chunks.map .ok)) []
      (fun evs _ => ∀ e ∈ evs, Cut (textOf chunks) n e)
      (fun evs _ => ∀ e ∈ evs, Cut (textOf chunks) n e) := by
  have hnil : ∀ e ∈ ([] : List ChatCompletionStreamEvent), Cut (textOf chunks) n e := by
    intro e he
    cases he
  refine ensures_bind (ensures_silent (emits_yieldDelta rfl) hnil fun _ _ h => ?_)
  refine ensures_bind (ensures_mono (ensures_chat_loop hmode hfin hH h) (fun _ s h => ?_)
    fun _ _ h => h)
  unfold finishChat
  rw [hmode]
  refine ensures_bind (ensures_mono (ensures_flushContent hH h.2 h.1) (fun _ _ h => ?_)
    fun _ _ h => h)
  exact ensures_silent (emits_finishChat_tail deps family request includeUsage s _) h
    fun _ _ h => h

/-! ### A text that is not contained leaks -/

/-- Some content that ends at `b` is shown. -/
def ShowsTo (b : ℕ) (evs : List ChatCompletionStreamEvent) : Prop :=
  ∃ e ∈ evs, ∃ text a, e.content = some text ∧ e.range = some (a, b)

theorem ShowsTo.le {b : ℕ} (h : ShowsTo b evs) (hcut : ∀ e ∈ evs, Cut T n e) : b ≤ n := by
  obtain ⟨e, he, text, a, htext, hrange⟩ := h
  obtain ⟨a', b', hrange', -, hle⟩ := hcut e he text htext
  rw [hrange] at hrange'
  obtain ⟨-, rfl⟩ := Prod.mk.inj (Option.some.inj hrange')
  exact hle

/-- What was shown stays shown. -/
theorem ShowsTo.keep {α : Type} {m : ChatBody ε α} {b : ℕ} (h : ShowsTo b evs) :
    Ensures m evs (fun evs' _ => ShowsTo b evs') (fun evs' _ => ShowsTo b evs') := by
  obtain ⟨e, he, hshown⟩ := h
  exact ensures_mono (TryStream.ensures_mem he) (fun _ _ he => ⟨e, he, hshown⟩)
    fun _ _ he => ⟨e, he, hshown⟩

theorem ensures_emitContent_shows {a b : ℕ} (ha : isBoundary P a = true)
    (hb : isBoundary P b = true) (hab : a ≤ b)
    {E : List ChatCompletionStreamEvent → StreamError ε → Prop} :
    Ensures (emitContent P a b : ChatBody ε Unit) evs (fun evs' _ => ShowsTo b evs') E := by
  refine ensures_bind (ensures_sliceText ha hb hab fun m _ => ensures_yield ?_)
  exact ⟨_, List.mem_append_right _ (List.mem_singleton_self _), m, a, content_emitted m _, rfl⟩

theorem readToolCallDeltas_nil (bufferArguments : Bool) :
    readToolCallDeltas bufferArguments s [] = (pure s : ChatBody ε ChatState) := by
  cases bufferArguments <;> rfl

/-- A stream that has read nothing yet. -/
structure Unread (family : ModelFamily) (s : ChatState) : Prop where
  emittedLen : s.emittedLen = 0
  toolMarkupState : s.toolMarkupState = (toolMarkupPolicy family).streamState
  emittedToolCalls : s.emittedToolCalls = 0
  parsedToolPrefixLen : s.parsedToolPrefixLen = 0

/-- The first chunk of a stream, of text alone. -/
theorem ensures_first_chunk (hmode : deferredOf family request = .none) {text : Str}
    {Q : List ChatCompletionStreamEvent → Flow ChatState → Prop}
    {E : List ChatCompletionStreamEvent → StreamError ε → Prop}
    (h : ∀ s, Reading family request [] s → Unread family s →
      Ensures (readChatText deps family .none request s text) evs
        (fun evs' r => Ensures (closeChat { text := text } r) evs' Q E) E) :
    Ensures (readChatChunk deps family request (initialChat family request)
      (.ok { text := text })) evs Q E := by
  refine ensures_bind (ensures_pure (ensures_bind (ensures_pure ?_)))
  rw [readToolCallDeltas_nil, hmode]
  refine ensures_bind (ensures_pure (ensures_bind (h _ ?_ ⟨rfl, rfl, rfl, rfl⟩)))
  exact ⟨rfl, Tracks.streamState (opens_startMarkers family), rfl, fun h => absurd rfl h, rfl, rfl⟩

/-- A stop in the first chunk shows the text before it. -/
theorem ensures_stop_shows (hmode : deferredOf family request = .none) (includeUsage : Bool)
    {e : ℕ} (hP : P ≠ []) (he : IsLeast (hits request.stop P) e) (hpos : 0 < e)
    (rest : List (Except ε BackendStreamChunk)) :
    Ensures (streamingChatStream deps family request includeUsage (.ok { text := P } :: rest)) []
      (fun evs _ => ShowsTo e evs) (fun evs _ => ShowsTo e evs) := by
  have hhit : earliestFrom request.stop P 0 = some e :=
    (earliestFrom_eq_some_iff (isBoundary_zero P)).2
      ⟨⟨he.1, Nat.zero_le e⟩, fun j hj => he.2 hj.1⟩
  refine ensures_bind (ensures_yield (ensures_bind (ensures_bind ?_)))
  refine ensures_first_chunk hmode fun s hR hunread => ?_
  have hobs : (s.stopDetector.observe P request.stop).1 = some e := by
    rw [hR.stopDetector, ← hhit]
    exact IncrementalStopDetector.observe_eq_of_fresh hR.noStop P
  have hempty : P.isEmpty = false := by simpa using hP
  simp only [readChatText, hempty, Bool.false_eq_true, if_false, hR.rawText, List.nil_append, hobs]
  refine ensures_bind ?_
  unfold stopChat
  simp only [hunread.emittedLen, true_and, if_pos hpos]
  refine ensures_bind (ensures_mono (ensures_emitContent_shows (isBoundary_zero P)
    (isBoundary_of_mem_hits he.1) (Nat.zero_le e)) (fun _ _ hshown => ?_) fun _ _ h => h)
  refine ensures_pure (ensures_pure (ensures_mono hshown.keep
    (fun _ r hshown => ?_) fun _ _ h => h))
  cases r with
  | next s' => exact ensures_mono hshown.keep (fun _ _ h => h.keep) fun _ _ h => h
  | exit s' => exact ensures_pure hshown.keep

theorem isBoundary_firstSafeLen (family : ModelFamily) (stop : List Str) (T : Str) :
    isBoundary T (firstSafeLen family stop T) = true := by
  unfold firstSafeLen
  rcases min_choice (safeStreamEmitLen T (maxStopSequenceLen stop))
    (((toolMarkupPolicy family).streamState.observe T).safeEmitLen T) with h | h
  · rw [h]
    exact isBoundary_safeStreamEmitLen T _
  · rw [h]
    exact (tracks_first family T).isBoundary_safeEmitLen

variable (request) in
/-- A stream that has read `T` whole and shown what is safe of it. -/
structure ReadWhole (family : ModelFamily) (T : Str) (s : ChatState) : Prop
    extends Reading family request T s where
  completes : Completes (toolMarkupPolicy family) T s.toolMarkupState
  emittedLen : s.emittedLen = firstSafeLen family request.stop T
  emittedToolCalls : s.emittedToolCalls = 0
  parsedToolPrefixLen : s.parsedToolPrefixLen = 0

/-- A text without a stop, read as one chunk: the safe content is shown, before the text is
searched for closed blocks. -/
theorem ensures_first_text (hT : T ≠ []) (hnone : hits request.stop T = ∅)
    (hR : Reading family request [] s) (hunread : Unread family s)
    {Q : List ChatCompletionStreamEvent → Flow ChatState → Prop}
    {E : List ChatCompletionStreamEvent → StreamError ε → Prop}
    (h : ∀ evs' s', ReadWhole request family T s' →
        (0 < firstSafeLen family request.stop T →
          ShowsTo (firstSafeLen family request.stop T) evs') →
      Ensures (do
        let s' ← emitToolPrefix deps family .none request s'
        let s' ← emitUnmarkedText .none request s'
        return .next s') evs' Q E) :
    Ensures (readChatText deps family .none request s T) evs Q E := by
  have hobs : (s.stopDetector.observe T request.stop).1 = earliestFrom request.stop T 0 := by
    rw [hR.stopDetector]
    exact IncrementalStopDetector.observe_eq_of_fresh hR.noStop T
  have hdet : (s.stopDetector.observe T request.stop).2 =
      ⟨maxStopSequenceLen request.stop, len T⟩ := by
    rw [IncrementalStopDetector.observe_snd, hR.stopDetector]
  have hhit : earliestFrom request.stop T 0 = none := by
    refine (earliestFrom_eq_none_iff (isBoundary_zero T)).2 fun j hj => ?_
    rw [hnone] at hj
    cases hj
  have hempty : T.isEmpty = false := by simpa using hT
  have hcompletes : Completes (toolMarkupPolicy family) T
      ((toolMarkupPolicy family).streamState.observe T) := by
    simpa using (Completes.streamState fun p hp => (closes_endMarkers family p hp).ne_nil).observe
      (Tracks.streamState (opens_startMarkers family)) T
  simp only [readChatText, hempty, Bool.false_eq_true, if_false, hR.rawText, List.nil_append, hobs,
    hdet, hhit, hunread.toolMarkupState]
  refine ensures_bind ?_
  have hlen : safeContentLen request
      { s with
        rawText := T
        toolMarkupState := (toolMarkupPolicy family).streamState.observe T
        stopDetector := ⟨maxStopSequenceLen request.stop, len T⟩ } =
      firstSafeLen family request.stop T := rfl
  unfold emitSafeContent
  dsimp only
  rw [hlen, hunread.emittedLen]
  by_cases hpos : firstSafeLen family request.stop T > 0
  · rw [if_pos ⟨rfl, hpos⟩]
    refine ensures_bind (ensures_mono (ensures_emitContent_shows (isBoundary_zero T)
      (isBoundary_firstSafeLen _ _ _) (Nat.zero_le _)) (fun _ _ hshown => ?_) fun _ _ h => h)
    exact ensures_pure (h _ _ ⟨⟨rfl, tracks_first family T, rfl, fun _ => hnone, hR.running,
      hR.uncut⟩, hcompletes, rfl, hunread.emittedToolCalls, hunread.parsedToolPrefixLen⟩
      fun _ => hshown)
  · rw [if_neg (fun hc => hpos hc.2)]
    refine ensures_pure (h _ _ ⟨⟨rfl, tracks_first family T, rfl, fun _ => hnone, hR.running,
      hR.uncut⟩, hcompletes, ?_, hunread.emittedToolCalls, hunread.parsedToolPrefixLen⟩
      fun hp => absurd hp hpos)
    dsimp only
    omega

/-- The safe content of a text that is read as one chunk is shown. -/
theorem ensures_safe_shows (hmode : deferredOf family request = .none) (includeUsage : Bool)
    (hT : T ≠ []) (hnone : hits request.stop T = ∅)
    (hpos : 0 < firstSafeLen family request.stop T) :
    Ensures (streamingChatStream deps family request includeUsage [.ok { text := T }]) []
      (fun evs _ => ShowsTo (firstSafeLen family request.stop T) evs)
      (fun evs _ => ShowsTo (firstSafeLen family request.stop T) evs) := by
  refine ensures_bind (ensures_yield (ensures_bind (ensures_bind ?_)))
  refine ensures_first_chunk hmode fun s hR hunread => ?_
  refine ensures_first_text hT hnone hR hunread fun evs' s' _ hshown => ?_
  refine ensures_mono (hshown hpos).keep (fun _ r hshown => ?_) fun _ _ h => h
  refine ensures_mono hshown.keep (fun _ r hshown => ?_) fun _ _ h => h
  cases r with
  | next s' => exact ensures_pure hshown.keep
  | exit s' => exact ensures_pure hshown.keep

/-- Calls that can be numbered are sent, if they can be printed. -/
theorem ensures_yieldToolCalls_all (hprints : ∀ v, ∃ text, deps.jsonToString v = .ok text)
    {Q : List ChatCompletionStreamEvent → ToolCallDeltaSerializer → Prop}
    {E : List ChatCompletionStreamEvent → StreamError ε → Prop} (hQ : ∀ evs z, Q evs z) :
    ∀ (calls : List (ToolCall J)) (z : ToolCallDeltaSerializer) (i : ℕ)
      {evs : List ChatCompletionStreamEvent}, i + calls.length ≤ 2 ^ 32 →
      Ensures (yieldToolCalls (fun z => z.toolCallDelta deps) z i calls) evs Q E
  | [], _, _, _, _ => ensures_pure (hQ _ _)
  | call :: calls, z, i, evs, hlen => by
    rw [List.length_cons] at hlen
    have hserialize : ∃ r, z.toolCallDelta deps i call = .ok r := by
      have hindex : apiToolCallIndex deps i = .ok i := if_pos (by omega)
      obtain ⟨text, htext⟩ := hprints call.function.arguments
      unfold ToolCallDeltaSerializer.toolCallDelta ToolCallDeltaSerializer.serializedArguments
      rw [hindex, ok_bind]
      dsimp only
      split
      · exact ⟨_, rfl⟩
      · rw [htext]
        exact ⟨_, rfl⟩
    obtain ⟨r, hr⟩ := hserialize
    unfold yieldToolCalls
    rw [hr]
    exact ensures_bind (ensures_pure (ensures_bind (ensures_yield
      (ensures_yieldToolCalls_all hprints hQ calls _ (i + 1) (by omega)))))

/-- A text whose last end marker closes an accepted text is searched without an error. -/
theorem ensures_emitToolPrefix_accepts (hprints : ∀ v, ∃ text, deps.jsonToString v = .ok text)
    (hW : ReadWhole request family T s)
    (hends : ∀ p, IsGreatest ((toolMarkupPolicy family).blockEnds T) p →
      Accepts deps family request (takeTo T p))
    {Q : List ChatCompletionStreamEvent → ChatState → Prop}
    {E : List ChatCompletionStreamEvent → StreamError ε → Prop}
    (h : ∀ evs' s', SameText s s' → (s'.emittedLen = s.emittedLen ∨
      IsGreatest ((toolMarkupPolicy family).blockEnds T) s'.emittedLen) → Q evs' s') :
    Ensures (emitToolPrefix deps family .none request s) evs Q E := by
  have hsame : SameText s s := ⟨rfl, rfl, rfl, rfl, rfl⟩
  unfold emitToolPrefix
  cases hp : s.toolMarkupState.completedPrefixLen with
  | none => exact ensures_pure (h _ _ hsame (.inl rfl))
  | some p =>
    have hgreatest := (hW.completes.isGreatest_iff p).1 hp
    have hpos := blockEnds_pos hgreatest.1
    obtain ⟨parsed, hparse, hvalid, hclass, hagainst, hlen⟩ := hends p hgreatest
    dsimp only
    rw [if_neg (by rw [hW.parsedToolPrefixLen]; omega), hW.rawText]
    refine ensures_bind (ensures_sliceText (isBoundary_zero _)
      (isBoundary_of_mem_blockEnds hgreatest.1) (Nat.zero_le p) fun text htext => ?_)
    obtain rfl := eq_takeTo_of_slice? htext
    rw [hparse]
    refine ensures_bind (ensures_pure ?_)
    rw [hvalid]
    refine ensures_bind (ensures_pure ?_)
    rw [hclass]
    refine ensures_bind (ensures_pure ?_)
    rw [hagainst]
    refine ensures_bind (ensures_pure ?_)
    rw [if_neg (fun hc => by cases hc.1)]
    refine ensures_bind (ensures_yieldToolCalls_all hprints (fun evs' z => ?_) _ _ _
      (by rw [hW.emittedToolCalls, List.drop_zero]; omega))
    refine ensures_pure (h _ _ ⟨hW.rawText.symm, rfl, rfl, rfl, rfl⟩ ?_)
    rcases max_choice s.emittedLen p with hmax | hmax
    · exact .inl hmax
    · exact .inr (by rw [hmax]; exact hgreatest)

/-- At the end, what is left of a text without a start marker is shown. -/
theorem ensures_finish_shows (hmode : deferredOf family request = .none) (includeUsage : Bool)
    (hstart : hits (toolMarkupPolicy family).startMarkers T = ∅)
    (hR : Reading family request T s) (hb : isBoundary T s.emittedLen = true)
    (hlt : s.emittedLen < len T) :
    Ensures (finishChat deps family request includeUsage s) evs
      (fun evs _ => ShowsTo (len T) evs) (fun evs _ => ShowsTo (len T) evs) := by
  have hcontains : s.toolMarkupState.containsStart = false := by
    unfold ToolMarkupStreamState.containsStart
    cases hs : s.toolMarkupState.firstStart with
    | none => rfl
    | some i =>
      have hmem := (hR.markup.start hs).1
      rw [hstart] at hmem
      cases hmem
  unfold finishChat
  rw [hmode]
  refine ensures_bind ?_
  have hflush : s.stoppedBySequence = false ∧ s.emittedLen < s.stopAtLen.getD (len s.rawText) ∧
      DeferredEmission.none = .none ∧ s.toolMarkupState.containsStart = false := by
    rw [hR.uncut, hR.rawText]
    exact ⟨hR.running, hlt, rfl, hcontains⟩
  rw [flushContent]
  rw [if_pos hflush, hR.uncut, hR.rawText, Option.getD_none]
  exact ensures_mono (ensures_emitContent_shows hb (isBoundary_len T) hlt.le)
    (fun _ _ h => h.keep) fun _ _ h => h

/-- A text without stop and start markers is shown to its end, if it is not swallowed. -/
theorem ensures_flush_shows (hmode : deferredOf family request = .none) (includeUsage : Bool)
    (hprints : ∀ v, ∃ text, deps.jsonToString v = .ok text)
    (hnone : hits request.stop T = ∅)
    (hstart : hits (toolMarkupPolicy family).startMarkers T = ∅)
    (hsafe : firstSafeLen family request.stop T < len T)
    (hends : ¬Swallowed deps family request T) :
    Ensures (streamingChatStream deps family request includeUsage [.ok { text := T }]) []
      (fun evs _ => ShowsTo (len T) evs) (fun evs _ => ShowsTo (len T) evs) := by
  have hT : T ≠ [] := by
    rintro rfl
    rw [len_nil] at hsafe
    omega
  refine ensures_bind (ensures_yield (ensures_bind (ensures_bind ?_)))
  refine ensures_first_chunk hmode fun s hR hunread => ?_
  refine ensures_first_text hT hnone hR hunread fun evs' s₁ hW _ => ?_
  refine ensures_bind (ensures_emitToolPrefix_accepts hprints hW (fun p hp => ?_)
    fun evs₂ s₂ hsame hlen => ?_)
  · by_contra hrefused
    exact hends ⟨p, hp, .inr hrefused⟩
  have hR₂ := hW.toReading.same hsame
  have hshown : isBoundary T s₂.emittedLen = true ∧ s₂.emittedLen < len T := by
    rcases hlen with hlen | hgreatest
    · rw [hlen, hW.emittedLen]
      exact ⟨isBoundary_firstSafeLen _ _ _, hsafe⟩
    · have hb := isBoundary_of_mem_blockEnds hgreatest.1
      exact ⟨hb, lt_of_le_of_ne (isBoundary_le hb) fun heq => hends ⟨_, hgreatest, .inl heq⟩⟩
  refine ensures_bind (ensures_pure (ensures_pure ?_))
  refine ensures_bind ?_
  unfold yieldInternalProgress
  split
  · exact ensures_yield (ensures_pure (ensures_pure
      (ensures_finish_shows hmode includeUsage hstart hR₂ hshown.1 hshown.2)))
  · exact ensures_pure (ensures_pure (ensures_pure
      (ensures_finish_shows hmode includeUsage hstart hR₂ hshown.1 hshown.2)))

variable (deps family request) in
/-- The stream over a sequence of backend chunks. -/
def runChat (includeUsage : Bool) (chunks : List BackendStreamChunk) :
    TryStream ChatCompletionStreamEvent (StreamError ε) Unit :=
  streamingChatStream deps family request includeUsage (chunks.map .ok)

theorem runChat_events {includeUsage : Bool} {chunks : List BackendStreamChunk}
    {p : List ChatCompletionStreamEvent → Prop}
    (h : Ensures (streamingChatStream deps family request includeUsage (chunks.map .ok)) []
      (fun evs _ => p evs) (fun evs _ => p evs)) :
    p (runChat deps family request includeUsage chunks).events := by
  cases hr : (runChat deps family request includeUsage chunks).result with
  | ok a => exact h.of_ok hr
  | error e => exact h.of_error hr

theorem stopsAt_of_stopOf : ∀ {chunks : List BackendStreamChunk} {P : Str} {e : ℕ},
    stopOf request.stop P chunks = some e → StopsAt request.stop (P ++ textOf chunks) e
  | [], _, _, h => by cases h
  | chunk :: chunks, P, e, h => by
    have htext : textOf (chunk :: chunks) = chunk.text ++ textOf chunks := by simp [textOf]
    rw [htext, ← List.append_assoc]
    unfold stopOf at h
    cases hhit : earliestFrom request.stop (P ++ chunk.text) 0 with
    | some e' =>
      rw [hhit] at h
      obtain rfl := Option.some.inj h
      exact ⟨_, _, rfl, isLeast_hits hhit⟩
    | none =>
      rw [hhit] at h
      exact stopsAt_of_stopOf h

/-- A contained text leaks in no chunking. -/
theorem Contained.noToolLeak (hC : Contained deps family request T)
    (hmode : deferredOf family request = .none) (includeUsage : Bool)
    {chunks : List BackendStreamChunk} (hfin : EndsAtFinish chunks) (htext : textOf chunks = T) :
    NoToolLeak family request.stop chunks
      (runChat deps family request includeUsage chunks).events := by
  subst htext
  have hblock : ∀ n, blockStart family (textOf chunks) = some n →
      ∀ e ∈ (runChat deps family request includeUsage chunks).events, Cut (textOf chunks) n e :=
    fun n hn => runChat_events
      (ensures_streamingChatStream hmode includeUsage hfin (hC.block n hn))
  rintro n (hn | hn)
  · exact hblock n hn
  · unfold visibleText at hn
    split at hn
    · next e hstop =>
      have hnone := hC.cut e (by simpa using stopsAt_of_stopOf hstop)
      rw [hnone] at hn
      cases hn
    · exact hblock n hn

/-- A text that leaks in no chunking: a stop lies before the first block of what it leaves, and of
the whole text. -/
theorem stops_of_noToolLeak (hmode : deferredOf family request = .none) (includeUsage : Bool)
    (h : ∀ chunks, EndsAtFinish chunks → textOf chunks = T →
      NoToolLeak family request.stop chunks
        (runChat deps family request includeUsage chunks).events)
    {e : ℕ} (he : StopsAt request.stop T e) :
    blockStart family (takeTo T e) = none ∧ ∀ n, blockStart family T = some n → e ≤ n := by
  obtain ⟨P, t, rfl, he⟩ := he
  rcases Nat.eq_zero_or_pos e with rfl | hpos
  · refine ⟨?_, fun n _ => Nat.zero_le n⟩
    cases hblock : blockStart family (takeTo (P ++ t) 0) with
    | none => rfl
    | some n =>
      have hlt := (blockStart_lt hblock).trans_le (len_takeTo_le _ _)
      omega
  · have hP : P ≠ [] := by
      rintro rfl
      have := isBoundary_le (isBoundary_of_mem_hits he.1)
      rw [len_nil] at this
      omega
    have hhit : earliestFrom request.stop P 0 = some e :=
      (earliestFrom_eq_some_iff (isBoundary_zero P)).2
        ⟨⟨he.1, Nat.zero_le e⟩, fun j hj => he.2 hj.1⟩
    have htext : textOf [{ text := P }, { text := t }] = P ++ t := by simp [textOf]
    have hvisible : visibleText request.stop [{ text := P }, { text := t }] =
        takeTo (P ++ t) e := by
      rw [visibleText, stopOf, List.nil_append, hhit, htext]
    have hleak := h [{ text := P }, { text := t }] (by simp [EndsAtFinish]) htext
    have hshows : ShowsTo e
        (runChat deps family request includeUsage [{ text := P }, { text := t }]).events :=
      runChat_events (ensures_stop_shows hmode includeUsage hP he hpos _)
    refine ⟨?_, fun n hn => hshows.le (hleak n (.inl (htext ▸ hn)))⟩
    cases hblock : blockStart family (takeTo (P ++ t) e) with
    | none => rfl
    | some n =>
      -- the block would start before the stop, up to which all is shown
      have hlt := (blockStart_lt hblock).trans_le (len_takeTo_le _ _)
      have hle := hshows.le (hleak n (.inr (hvisible ▸ hblock)))
      omega

/-- A text without a stop that leaks in no chunking: what is safe ends at the first block, and what
is not safe is not flushed. -/
theorem held_of_noToolLeak (hmode : deferredOf family request = .none) (includeUsage : Bool)
    (hprints : ∀ v, ∃ text, deps.jsonToString v = .ok text)
    (h : ∀ chunks, EndsAtFinish chunks → textOf chunks = T →
      NoToolLeak family request.stop chunks
        (runChat deps family request includeUsage chunks).events)
    (hn : blockStart family T = some n) (hstop : hits request.stop T = ∅) :
    firstSafeLen family request.stop T ≤ n ∧
      ((hits (toolMarkupPolicy family).startMarkers T).Nonempty ∨
        Swallowed deps family request T) := by
  have htext : textOf [{ text := T }] = T := by simp [textOf]
  have hleak := h [{ text := T }] (by simp [EndsAtFinish]) htext n (.inl (htext.symm ▸ hn))
  rw [htext] at hleak
  have hlt := blockStart_lt hn
  have hT : T ≠ [] := by
    rintro rfl
    rw [len_nil] at hlt
    omega
  have hsafe : firstSafeLen family request.stop T ≤ n := by
    rcases Nat.eq_zero_or_pos (firstSafeLen family request.stop T) with hzero | hpos
    · omega
    · have hshows : ShowsTo (firstSafeLen family request.stop T)
          (runChat deps family request includeUsage [{ text := T }]).events :=
        runChat_events (ensures_safe_shows hmode includeUsage hT hstop hpos)
      exact hshows.le hleak
  refine ⟨hsafe, ?_⟩
  by_contra hflush
  rw [not_or, Set.not_nonempty_iff_eq_empty] at hflush
  have hshows : ShowsTo (len T) (runChat deps family request includeUsage [{ text := T }]).events :=
    runChat_events (ensures_flush_shows hmode includeUsage hprints hstop hflush.1
      (hsafe.trans_lt hlt) hflush.2)
  have := hshows.le hleak
  omega

end Leak

/-! ### A stop after a tool block -/

/-- The parsed answer of the text below: a call of `f` without arguments. -/
def oneCall : ParsedAssistant Str :=
  ⟨none, "Hi  ".toList, [⟨"call".toList, .function, ⟨['f'], "\x7b\x7d".toList⟩⟩]⟩

def oneCallDeps : ChatDeps Str Unit Unit where
  parseComplete _ _ := .ok oneCall
  parseChatText _ _ _ := .ok oneCall
  splitReasoning text := .ok (none, text)
  validateToolCallArguments _ := .ok ()
  fillMissingToolIntentArguments parsed _ := parsed
  classifyRepeatedInvalidToolCallNoProgress _ _ := none
  validateToolCallsAgainstRequest _ _ := .ok ()
  validateJsonObjectResponse _ := .ok ()
  classifyChatNoProgress _ _ _ _ _ _ := none
  requestMayFillToolIntentArguments _ := false
  missingFunctionName _ := ()
  parseStructuredToolArguments _ text := .ok text
  jsonToString text := .ok text
  indexOverflow _ := ()
  generatedToolCallId _ := "call".toList

/-- A tool call, and the stop `END` after it. -/
def toolCallText : Str :=
  "Hi <tool_call>\x7b\"name\":\"f\"\x7d</tool_call> END".toList

theorem blockStart_toolCallText : blockStart .qwen toolCallText = some 3 := by decide +kernel

end KirAi.Runtime
