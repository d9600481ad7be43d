/-
# Unmarked calls in a buffered stream

Llama may answer with a call that no marker opens. With declared tools the stream therefore
holds the content back until the parse (`UnmarkedToolBuffer`), but shows backend text early once
256 bytes of it are safe and it cannot be a call any more (`streaming.rs`). What is left of the
parsed content follows at the end, from the offset in the backend text that was reached. The two
offsets are not the same: the parser leaves out reasoning and what follows a stop control, and an
end marker moves the offset past itself without showing anything.

`Early` is what the texts at the chunk borders let out before the parse. All content comes out
once just if the text shown early is how the parsed content begins and no end marker stood at a
border, or what was shown early is all of the content (`KeepsContent`).

Key definitions: `Early`, `borders`, `early`, `KeepsContent`, `Buffered`.
Key theorems: `early_cases`, `ensures_chat_loop_buffered`, `unmarked_buffer_content_iff`.
-/
import KirAi.Runtime.ChatCompletion
import KirAi.Runtime.ChatStreamContent

namespace KirAi.Runtime

open Lib Lib.Text
open ToolParser (Env Failure)
open TryStream (Flow Ensures ensures_pure ensures_yield ensures_fail ensures_bind ensures_mono
  ensures_orFail ensures_after emits_orFail)

/-! ### What is shown before the parse -/

/-- What is safe of a text without a start marker. -/
def safeTextLen (stop : List Str) (raw : Str) : ℕ :=
  min (safeStreamEmitLen raw (maxStopSequenceLen stop))
    (len raw - (toolMarkupPolicy .llama).withheldStartPrefixLen raw)

/-- No call has begun in the text, with a marker or without. -/
def streamsUnmarked (raw : Str) : Bool :=
  !(toolMarkupPolicy .llama).containsStart raw && !looksLikeUnmarkedToolJsonCandidate raw

/-- The end of the last end marker. -/
def passedLen (raw : Str) : ℕ := ((toolMarkupPolicy .llama).latestCompletedPrefixFrom raw 0).getD 0

/-- The text shown so far, and the offset that was reached. -/
structure Early where
  shown : Str := []
  upTo : ℕ := 0

namespace Early

def pass (x : Early) (raw : Str) : Early := { x with upTo := max x.upTo (passedLen raw) }

def flush (stop : List Str) (x : Early) (raw : Str) : Early :=
  if streamsUnmarked raw ∧ unmarkedToolBufferFlushThreshold ≤ safeTextLen stop raw - x.upTo then
    ⟨x.shown ++ (slice? raw x.upTo (safeTextLen stop raw)).getD [], safeTextLen stop raw⟩
  else x

/-- All of the text up to the offset is shown. -/
def Whole (x : Early) (raw : Str) : Prop :=
  isBoundary raw x.upTo = true ∧ x.shown = takeTo raw x.upTo

/-- Less than the offset is shown. -/
def Gap (x : Early) : Prop := len x.shown < x.upTo

end Early

/-- The texts after the chunks that the stream goes on from. -/
def borders (stop : List Str) : Str → List BackendStreamChunk → List Str
  | _, [] => []
  | raw, chunk :: chunks =>
    if chunk.text.isEmpty then borders stop raw chunks
    else if (earliestStopIndex (raw ++ chunk.text) stop).isSome then []
    else (raw ++ chunk.text) :: borders stop (raw ++ chunk.text) chunks

def early (stop : List Str) (x : Early) (raws : List Str) : Early :=
  raws.foldl (fun x raw => (x.pass raw).flush stop raw) x

/-- The runs whose parsed content comes out whole. -/
def KeepsContent {τ : Type} (request : ChatRequest τ) (chunks : List BackendStreamChunk)
    (content : Str) : Prop :=
  deferredOf .llama request ≠ .unmarkedToolBuffer ∨
    (early request.stop {} (borders request.stop [] chunks)).shown = content ∨
    (∀ raw ∈ borders request.stop [] chunks, hits (toolMarkupPolicy .llama).endMarkers raw = ∅) ∧
      takeTo (textOf chunks) (early request.stop {} (borders request.stop [] chunks)).upTo <+: content

section Early

variable {stop : List Str} {raw t : Str} {x : Early}

theorem passedLen_of_none (h : hits (toolMarkupPolicy .llama).endMarkers raw = ∅) :
    passedLen raw = 0 := by
  unfold passedLen
  cases hlast : (toolMarkupPolicy .llama).latestCompletedPrefixFrom raw 0 with
  | none => rfl
  | some c =>
    obtain ⟨p, hp, i, hi, -⟩ := mem_blockEnds_of_latest (isBoundary_zero raw) hlast
    have hmem : i ∈ hits (toolMarkupPolicy .llama).endMarkers raw := ⟨p, hp, hi⟩
    rw [h] at hmem
    cases hmem

/-- An end marker that a chunk completes ends in the text of the chunk. -/
theorem lt_passedLen (hold : hits (toolMarkupPolicy .llama).endMarkers raw = ∅)
    (hnew : hits (toolMarkupPolicy .llama).endMarkers (raw ++ t) ≠ ∅) :
    len raw < passedLen (raw ++ t) := by
  obtain ⟨i, p, hp, hi⟩ := Set.nonempty_iff_ne_empty.2 hnew
  obtain ⟨c, hc, hle⟩ := le_latest (isBoundary_zero _) hp hi (Nat.zero_le i)
  unfold passedLen
  rw [hc, Option.getD_some]
  by_contra hlt
  have hmem : i ∈ hits (toolMarkupPolicy .llama).endMarkers raw := ⟨p, hp, hi.of_append (by omega)⟩
  rw [hold] at hmem
  cases hmem

theorem isBoundary_safeTextLen (stop : List Str) (raw : Str) :
    isBoundary raw (safeTextLen stop raw) = true := by
  have hheld : isBoundary raw (len raw - (toolMarkupPolicy .llama).withheldStartPrefixLen raw) =
      true := by
    obtain ⟨u, v, huv, hv, -⟩ := withheldStartPrefixLen_marker (toolMarkupPolicy .llama) raw
    refine isBoundary_iff.2 ⟨u, v, huv, ?_⟩
    have hlen := congrArg len huv
    rw [len_append] at hlen
    omega
  unfold safeTextLen
  rcases min_choice (safeStreamEmitLen raw (maxStopSequenceLen stop))
      (len raw - (toolMarkupPolicy .llama).withheldStartPrefixLen raw) with h | h
  · rw [h]
    exact isBoundary_safeStreamEmitLen raw _
  · rw [h]
    exact hheld

theorem Early.Whole.append (h : x.Whole raw) (t : Str) : x.Whole (raw ++ t) :=
  ⟨isBoundary_append h.1 t, by rw [h.2, takeTo_append_of_isBoundary h.1]⟩

theorem Early.Whole.len_shown (h : x.Whole raw) : len x.shown = x.upTo := by
  rw [h.2, len_takeTo h.1]

theorem Early.Whole.flush (h : x.Whole raw) : (x.flush stop raw).Whole raw := by
  unfold Early.flush
  split
  · next hcond =>
    obtain ⟨m, hm⟩ := exists_slice? h.1 (isBoundary_safeTextLen stop raw)
      (Nat.le_of_lt (Nat.lt_of_sub_pos (lt_of_lt_of_le (by decide) hcond.2)))
    refine ⟨isBoundary_safeTextLen stop raw, ?_⟩
    dsimp only
    rw [hm, Option.getD_some, h.2]
    exact takeTo_append_slice? hm
  · exact h

theorem Early.Gap.pass (h : x.Gap) (raw : Str) : (x.pass raw).Gap :=
  lt_of_lt_of_le h (le_max_left _ _)

theorem Early.Gap.flush (h : x.Gap) (raw : Str) : (x.flush stop raw).Gap := by
  unfold Early.flush
  split
  · next hcond =>
    have hgrow : x.upTo < safeTextLen stop raw :=
      Nat.lt_of_sub_pos (lt_of_lt_of_le (by decide) hcond.2)
    unfold Early.Gap at h ⊢
    dsimp only
    rw [len_append]
    cases hm : slice? raw x.upTo (safeTextLen stop raw) with
    | none =>
      rw [Option.getD_none, len_nil]
      omega
    | some m =>
      obtain ⟨u, v, -, hu, hum⟩ := slice?_eq_some_iff.1 hm
      rw [Option.getD_some]
      omega
  · exact h

theorem Early.Gap.early : ∀ (raws : List Str) {x : Early}, x.Gap → (early stop x raws).Gap
  | [], _, h => h
  | raw :: raws, _, h => Early.Gap.early raws ((h.pass raw).flush raw)

/-- Nothing is passed over just if no end marker stands at a border. -/
theorem early_cases : ∀ (chunks : List BackendStreamChunk) {raw : Str} {x : Early},
    hits (toolMarkupPolicy .llama).endMarkers raw = ∅ → x.Whole raw →
    (∀ b ∈ borders stop raw chunks, hits (toolMarkupPolicy .llama).endMarkers b = ∅) ∧
        (early stop x (borders stop raw chunks)).Whole (raw ++ textOf chunks) ∨
      (∃ b ∈ borders stop raw chunks, hits (toolMarkupPolicy .llama).endMarkers b ≠ ∅) ∧
        (early stop x (borders stop raw chunks)).Gap
  | [], raw, x, _, hx => by
    refine .inl ⟨fun b hb => absurd hb List.not_mem_nil, ?_⟩
    rw [textOf_nil, List.append_nil]
    exact hx
  | chunk :: chunks, raw, x, hraw, hx => by
    have htext : raw ++ textOf (chunk :: chunks) = raw ++ chunk.text ++ textOf chunks := by
      rw [textOf, List.flatMap_cons, List.append_assoc]
      rfl
    rw [borders, htext]
    by_cases hempty : chunk.text = []
    · rw [if_pos (List.isEmpty_iff.2 hempty), hempty, List.append_nil]
      exact early_cases chunks hraw hx
    rw [if_neg (fun h => hempty (List.isEmpty_iff.1 h))]
    by_cases hstop : (earliestStopIndex (raw ++ chunk.text) stop).isSome = true
    · rw [if_pos hstop, List.append_assoc]
      exact .inl ⟨fun b hb => absurd hb List.not_mem_nil, hx.append _⟩
    rw [if_neg hstop]
    by_cases hnew : hits (toolMarkupPolicy .llama).endMarkers (raw ++ chunk.text) = ∅
    · have hpass : x.pass (raw ++ chunk.text) = x := by
        rw [Early.pass, passedLen_of_none hnew, max_eq_left (Nat.zero_le _)]
      have hstep : ((x.pass (raw ++ chunk.text)).flush stop (raw ++ chunk.text)).Whole
          (raw ++ chunk.text) := by
        rw [hpass]
        exact (hx.append chunk.text).flush
      rcases early_cases chunks hnew hstep with ⟨hall, hwhole⟩ | ⟨⟨b, hb, hmark⟩, hgap⟩
      · exact .inl ⟨List.forall_mem_cons.2 ⟨hnew, hall⟩, hwhole⟩
      · exact .inr ⟨⟨b, List.mem_cons_of_mem _ hb, hmark⟩, hgap⟩
    · -- the marker ends behind all that was shown
      have hlt := lt_passedLen hraw hnew
      have hle := isBoundary_le hx.1
      have hgap : (x.pass (raw ++ chunk.text)).Gap := by
        unfold Early.Gap Early.pass
        dsimp only
        rw [hx.len_shown]
        omega
      exact .inr ⟨⟨raw ++ chunk.text, List.mem_cons_self, hnew⟩,
        Early.Gap.early (borders stop (raw ++ chunk.text) chunks) (hgap.flush (raw ++ chunk.text))⟩

/-- What was shown, with what follows in the content from the offset on. -/
theorem shown_append_rest_iff {content : Str} (hle : len x.shown ≤ x.upTo) :
    x.shown ++ (slice? content x.upTo (len content)).getD [] = content ↔
      x.shown = content ∨ len x.shown = x.upTo ∧ x.shown <+: content := by
  cases hrest : slice? content x.upTo (len content) with
  | none =>
    rw [Option.getD_none, List.append_nil]
    refine ⟨.inl, fun h => h.elim id fun ⟨hlen, v, hv⟩ => ?_⟩
    have hsome := slice?_append x.shown v []
    rw [List.append_nil, hv, hlen, ← hlen, ← len_append, hv, hlen, hrest] at hsome
    cases hsome
  | some rest =>
    obtain ⟨u, v, rfl, hu, hlen⟩ := slice?_eq_some_iff.1 hrest
    have hv : v = [] := by
      rw [len_append, len_append] at hlen
      exact len_eq_zero.1 (by omega)
    rw [hv, List.append_nil, Option.getD_some]
    constructor
    · intro h
      have hsame := List.append_cancel_right h
      exact .inr ⟨by rw [hsame, hu], ⟨rest, h⟩⟩
    · rintro (h | ⟨hsame, y, hy⟩)
      · have hnil : rest = [] := by
          have := congrArg len h
          rw [len_append] at this
          exact len_eq_zero.1 (by omega)
        rw [h, hnil, List.append_nil, List.append_nil]
      · rw [(append_inj_of_len hy (hsame.trans hu.symm)).1]

end Early

/-! ### The loop -/

section Loop

variable {J τ ε : Type} {deps : ChatDeps J τ ε} {request : ChatRequest τ}
  {deferred : DeferredEmission} {evs evs' : List ChatCompletionStreamEvent} {s s' : ChatState}
  {x : Early}

theorem completedPrefixLen_getD {T : Str} {markup : ToolMarkupStreamState}
    (h : Completes (toolMarkupPolicy .llama) T markup) :
    markup.completedPrefixLen.getD 0 = passedLen T := by
  have hsame : markup.completedPrefixLen =
      (toolMarkupPolicy .llama).latestCompletedPrefixFrom T 0 :=
    Option.ext fun c => by rw [h.isGreatest_iff c, latestCompletedPrefixFrom_eq_some_iff c]
  rw [hsame, passedLen]

/-- The account of the content: in the buffering mode `x` is out, in the others nothing. -/
structure Accounted (deferred : DeferredEmission) (x : Early)
    (evs : List ChatCompletionStreamEvent) (s : ChatState) : Prop where
  shown : deferred = .unmarkedToolBuffer → shownContent evs = x.shown
  upTo : deferred = .unmarkedToolBuffer → s.emittedLen = x.upTo
  parsed : deferred = .unmarkedToolBuffer → s.parsedToolPrefixLen ≤ s.emittedLen
  quiet : deferred ≠ .unmarkedToolBuffer → shownContent evs = []

/-- The stream between two chunks. -/
structure Buffered (deferred : DeferredEmission) (request : ChatRequest τ) (x : Early)
    (evs : List ChatCompletionStreamEvent) (s : ChatState) : Prop where
  reading : Reading .llama request s.rawText s
  completes : Completes (toolMarkupPolicy .llama) s.rawText s.toolMarkupState
  assembler : s.assembler = {}
  accounted : Accounted deferred x evs s

/-- The stream when it has left the loop. -/
structure Read (deferred : DeferredEmission) (request : ChatRequest τ) (x : Early) (T : Str)
    (evs : List ChatCompletionStreamEvent) (s : ChatState) : Prop where
  visible : slice? s.rawText 0 (s.stopAtLen.getD (len s.rawText)) =
    some (applyStopSequences T request.stop).1
  assembler : s.assembler = {}
  accounted : Accounted deferred x evs s

theorem Accounted.same (h : Accounted deferred x evs s) (hevs : shownContent evs' = shownContent evs)
    (he : s'.emittedLen = s.emittedLen) (hp : s'.parsedToolPrefixLen = s.parsedToolPrefixLen) :
    Accounted deferred x evs' s' where
  shown hd := hevs.trans (h.shown hd)
  upTo hd := he.trans (h.upTo hd)
  parsed hd := by
    rw [he, hp]
    exact h.parsed hd
  quiet hd := hevs.trans (h.quiet hd)

theorem Buffered.same (h : Buffered deferred request x evs s) (hsame : SameText s s')
    (hevs : shownContent evs' = shownContent evs) (ha : s'.assembler = s.assembler)
    (he : s'.emittedLen = s.emittedLen) (hp : s'.parsedToolPrefixLen = s.parsedToolPrefixLen) :
    Buffered deferred request x evs' s' where
  reading := by
    rw [hsame.rawText]
    exact h.reading.same hsame
  completes := by
    rw [hsame.rawText, hsame.toolMarkupState]
    exact h.completes
  assembler := ha.trans h.assembler
  accounted := h.accounted.same hevs he hp

theorem slice?_zero {raw : Str} {b : ℕ} (h : isBoundary raw b = true) :
    slice? raw 0 b = some (takeTo raw b) := by
  obtain ⟨m, hm⟩ := exists_slice? (isBoundary_zero raw) h (Nat.zero_le b)
  rw [hm, eq_takeTo_of_slice? hm]

/-- At the end of the backend the visible text is all of it. -/
theorem Buffered.read (h : Buffered deferred request x evs s) :
    Read deferred request x s.rawText evs s where
  visible := by
    rw [h.reading.uncut, Option.getD_none, slice?_zero (isBoundary_len _), takeTo_len,
      applyStopSequences_eq]
    by_cases hnil : s.rawText = []
    · rw [hnil]
      cases earliestFrom request.stop [] 0 with
      | none => rfl
      | some i => rfl
    · rw [(earliestFrom_eq_none_iff (isBoundary_zero _)).2 fun j hj => by
        rw [h.reading.noStop hnil] at hj
        cases hj]
  assembler := h.assembler
  accounted := h.accounted

/-- The parse of a prefix moves the offset to the last block end. -/
theorem ensures_emitToolPrefix_passes (h : Accounted deferred x evs s)
    (hc : Completes (toolMarkupPolicy .llama) s.rawText s.toolMarkupState) :
    Ensures (emitToolPrefix deps .llama deferred request s) evs
      (fun evs' s' => SameText s s' ∧ s'.assembler = s.assembler ∧
        Accounted deferred (x.pass s.rawText) evs' s') (fun _ _ => True) := by
  have hlast := completedPrefixLen_getD hc
  have hstay : ∀ c, s.toolMarkupState.completedPrefixLen = some c → passedLen s.rawText = c := by
    intro c hsome
    rw [← hlast, hsome, Option.getD_some]
  unfold emitToolPrefix
  split
  · next hnone =>
    rw [hnone, Option.getD_none] at hlast
    refine ensures_pure ⟨⟨rfl, rfl, rfl, rfl, rfl⟩, rfl, h.shown, fun hd => ?_, h.parsed, h.quiet⟩
    rw [h.upTo hd, Early.pass, ← hlast, max_eq_left (Nat.zero_le _)]
  · next toolPrefixLen hsome =>
    have hpass := hstay toolPrefixLen hsome
    split
    · next hle =>
      refine ensures_pure ⟨⟨rfl, rfl, rfl, rfl, rfl⟩, rfl, h.shown, fun hd => ?_, h.parsed, h.quiet⟩
      have hparsed := h.parsed hd
      rw [h.upTo hd] at hparsed ⊢
      rw [Early.pass, hpass, max_eq_left (hle.trans hparsed)]
    · refine ensures_bind (ensures_shown emits_sliceText fun _ _ h₁ => ?_)
      refine ensures_bind (ensures_shown (emits_orFail _) fun _ parsed h₂ => ?_)
      refine ensures_bind (ensures_shown (emits_check _) fun _ _ h₃ => ?_)
      refine ensures_bind (ensures_shown (emits_failOn _) fun _ _ h₄ => ?_)
      refine ensures_bind (ensures_shown (emits_check _) fun _ _ h₅ => ?_)
      have hevs := h₅.trans (h₄.trans (h₃.trans (h₂.trans h₁)))
      split
      · next hchoice =>
        have hother : deferred ≠ .unmarkedToolBuffer := by
          rw [hchoice.1]
          decide
        exact ensures_pure ⟨⟨rfl, rfl, rfl, rfl, rfl⟩, rfl, fun hd => absurd hd hother,
          fun hd => absurd hd hother, fun hd => absurd hd hother, fun hd => hevs.trans (h.quiet hd)⟩
      · refine ensures_bind (ensures_shown (emits_yieldToolCalls _ _ _ _) fun _ _ h₆ => ?_)
        refine ensures_pure ⟨⟨rfl, rfl, rfl, rfl, rfl⟩, rfl, fun hd => ?_, fun hd => ?_, fun _ => ?_,
          fun hd => ?_⟩
        · exact (h₆.trans hevs).trans (h.shown hd)
        · dsimp only
          rw [h.upTo hd, Early.pass, hpass]
        · exact le_max_right _ _
        · exact (h₆.trans hevs).trans (h.quiet hd)

/-- What is safe, as long as no call has begun. -/
theorem safeContentLen_of_unmarked (hR : Reading .llama request s.rawText s)
    (hnone : s.toolMarkupState.containsStart = false) :
    safeContentLen request s = safeTextLen request.stop s.rawText := by
  have hfirst : s.toolMarkupState.firstStart = none := by
    simpa [ToolMarkupStreamState.containsStart] using hnone
  rw [safeContentLen, safeTextLen, ToolMarkupStreamState.safeEmitLen, hfirst, hR.markup.policy]

theorem streamsUnmarked_eq (hR : Reading .llama request s.rawText s) :
    unmarkedToolBufferCanStreamText s.rawText s.toolMarkupState = streamsUnmarked s.rawText := by
  rw [unmarkedToolBufferCanStreamText, streamsUnmarked, ToolMarkupStreamState.containsStart,
    hR.markup.firstStart]
  rfl

theorem ensures_emitUnmarkedText_flush (h : Buffered deferred request x evs s) :
    Ensures (emitUnmarkedText deferred request s : ChatBody ε ChatState) evs
      (fun evs' s' => SameText s s' ∧
        Buffered deferred request (x.flush request.stop s.rawText) evs' s') (fun _ _ => True) := by
  have hR := h.reading
  unfold emitUnmarkedText
  dsimp only
  rw [streamsUnmarked_eq hR]
  split
  · next hcond =>
    obtain ⟨hd, hstreams, hmuch⟩ := hcond
    have hnone : s.toolMarkupState.containsStart = false := by
      rw [← streamsUnmarked_eq hR, unmarkedToolBufferCanStreamText, Bool.and_eq_true,
        Bool.not_eq_true'] at hstreams
      exact hstreams.1
    rw [safeContentLen_of_unmarked hR hnone] at hmuch ⊢
    rw [h.accounted.upTo hd] at hmuch ⊢
    unfold emitContent sliceText
    split
    · next m hm =>
      refine ensures_bind (ensures_bind (ensures_pure (ensures_yield (ensures_pure ?_))))
      have hflush : x.flush request.stop s.rawText =
          ⟨x.shown ++ m, safeTextLen request.stop s.rawText⟩ := by
        rw [Early.flush, if_pos ⟨hstreams, hmuch⟩, hm, Option.getD_some]
      have hparsed := h.accounted.parsed hd
      rw [h.accounted.upTo hd] at hparsed
      refine ⟨⟨rfl, rfl, rfl, rfl, rfl⟩, hR.same ⟨rfl, rfl, rfl, rfl, rfl⟩, h.completes,
        h.assembler, fun _ => ?_, fun _ => ?_, fun _ => ?_, fun hother => absurd hd hother⟩
      · rw [shownContent_concat, h.accounted.shown hd, hflush]
      · rw [hflush]
      · exact hparsed.trans (le_of_slice? hm)
    · exact ensures_bind (ensures_bind (ensures_fail trivial))
  · next hcond =>
    refine ensures_pure ⟨⟨rfl, rfl, rfl, rfl, rfl⟩, hR, h.completes, h.assembler, fun hd => ?_,
      fun hd => ?_, h.accounted.parsed, h.accounted.quiet⟩
    all_goals
      have hkeep : x.flush request.stop s.rawText = x := by
        refine if_neg fun hflush => hcond ⟨hd, hflush.1, ?_⟩
        have hnone : s.toolMarkupState.containsStart = false := by
          have hstreams := hflush.1
          rw [← streamsUnmarked_eq hR, unmarkedToolBufferCanStreamText, Bool.and_eq_true,
            Bool.not_eq_true'] at hstreams
          exact hstreams.1
        rw [safeContentLen_of_unmarked hR hnone, h.accounted.upTo hd]
        exact hflush.2
      rw [hkeep]
    · exact h.accounted.shown hd
    · exact h.accounted.upTo hd

theorem deferredOf_ne_none (htools : request.tools ≠ []) : deferredOf .llama request ≠ .none := by
  have hsome : request.tools.isEmpty = false := by simpa using htools
  unfold deferredOf deferredEmissionStrategy parsesUnmarkedToolCalls
  rw [hsome]
  split
  · decide
  · split <;> decide

/-- What the text of a chunk leads to: the next chunk, or the end at a stop. -/
def AfterBorder (deferred : DeferredEmission) (request : ChatRequest τ) (x : Early) (raw : Str)
    (chunk : BackendStreamChunk) (evs : List ChatCompletionStreamEvent) : Flow ChatState → Prop
  | .next s => stopsIn request.stop raw chunk = false ∧ s.rawText = raw ++ chunk.text ∧
      ∃ x', Buffered deferred request x' evs s ∧ ∀ chunks,
        early request.stop x (borders request.stop raw (chunk :: chunks)) =
          early request.stop x' (borders request.stop (raw ++ chunk.text) chunks)
  | .exit s => stopsIn request.stop raw chunk = true ∧
      Read deferred request x (raw ++ chunk.text) evs s ∧
      ∀ chunks, borders request.stop raw (chunk :: chunks) = []

theorem ensures_readChatText_buffered (hd : deferred ≠ .none) {chunk : BackendStreamChunk}
    (h : Buffered deferred request x evs s) :
    Ensures (readChatText deps .llama deferred request s chunk.text) evs
      (fun evs' r => AfterBorder deferred request x s.rawText chunk evs' r)
      (fun _ _ => True) := by
  have hR := h.reading
  unfold readChatText
  by_cases hempty : chunk.text = []
  · rw [if_pos (List.isEmpty_iff.2 hempty)]
    refine ensures_pure ⟨by simp [stopsIn, hempty], by rw [hempty, List.append_nil], x, h,
      fun chunks => ?_⟩
    rw [borders, if_pos (List.isEmpty_iff.2 hempty), hempty, List.append_nil]
  have hsome : ¬chunk.text.isEmpty = true := fun h => hempty (List.isEmpty_iff.1 h)
  rw [if_neg hsome]
  have hobs : (s.stopDetector.observe (s.rawText ++ chunk.text) request.stop).1 =
      earliestStopIndex (s.rawText ++ chunk.text) request.stop := by
    rw [hR.stopDetector, IncrementalStopDetector.observe_eq_of_fresh hR.noStop,
      earliestStopIndex_eq]
  have hdet : (s.stopDetector.observe (s.rawText ++ chunk.text) request.stop).2 =
      ⟨maxStopSequenceLen request.stop, len (s.rawText ++ chunk.text)⟩ := by
    rw [IncrementalStopDetector.observe_snd, hR.stopDetector]
  have hstops : stopsIn request.stop s.rawText chunk =
      (earliestStopIndex (s.rawText ++ chunk.text) request.stop).isSome := by
    simp [stopsIn, hempty]
  dsimp only
  rw [hobs, hdet]
  cases hstop : earliestStopIndex (s.rawText ++ chunk.text) request.stop with
  | some stopAt =>
    have hfull : earliestFrom request.stop (s.rawText ++ chunk.text) 0 = some stopAt :=
      (earliestStopIndex_eq _ _).symm.trans hstop
    unfold stopChat
    dsimp only
    rw [if_neg fun hnow => hd hnow.1]
    refine ensures_bind (ensures_pure (ensures_pure ⟨?_, ⟨?_, h.assembler, h.accounted.same rfl rfl
      rfl⟩, fun chunks => ?_⟩))
    · rw [hstops, hstop, Option.isSome_some]
    · dsimp only
      rw [Option.getD_some, slice?_zero (isBoundary_of_mem_hits (isLeast_hits hfull).1),
        applyStopSequences_eq, hfull]
    · rw [borders, if_neg hsome, hstop]
      rfl
  | none =>
    have hfull : earliestFrom request.stop (s.rawText ++ chunk.text) 0 = none :=
      (earliestStopIndex_eq _ _).symm.trans hstop
    have hR' : Reading .llama request (s.rawText ++ chunk.text)
        { s with
          rawText := s.rawText ++ chunk.text
          toolMarkupState := s.toolMarkupState.observe (s.rawText ++ chunk.text)
          stopDetector := ⟨maxStopSequenceLen request.stop, len (s.rawText ++ chunk.text)⟩ } :=
      ⟨rfl, hR.markup.observe (opens_startMarkers .llama) chunk.text, rfl,
        fun _ => hits_eq_empty hfull, hR.running, hR.uncut⟩
    have hcomp := h.completes.observe hR.markup chunk.text
    have hskip : ∀ s : ChatState,
        (emitSafeContent deferred request s : ChatBody ε ChatState) = pure s :=
      fun s => if_neg fun hnow => hd hnow.1
    rw [hskip]
    refine ensures_bind (ensures_pure ?_)
    refine ensures_bind (ensures_mono (ensures_emitToolPrefix_passes
      (h.accounted.same rfl rfl rfl) hcomp) (fun evs₁ s₁ h₁ => ?_) fun _ _ h => h)
    obtain ⟨hsame₁, hassembler₁, haccounted₁⟩ := h₁
    have hraw₁ : s₁.rawText = s.rawText ++ chunk.text := hsame₁.rawText
    have h₁ : Buffered deferred request (x.pass (s.rawText ++ chunk.text)) evs₁ s₁ := by
      refine ⟨?_, ?_, hassembler₁.trans h.assembler, haccounted₁⟩
      · rw [hraw₁]
        exact hR'.same hsame₁
      · rw [hraw₁, hsame₁.toolMarkupState]
        exact hcomp
    refine ensures_bind (ensures_mono (ensures_emitUnmarkedText_flush h₁) (fun evs₂ s₂ h₂ => ?_)
      fun _ _ h => h)
    obtain ⟨hsame₂, h₂⟩ := h₂
    refine ensures_pure ⟨?_, hsame₂.rawText.trans hraw₁, _, h₂, fun chunks => ?_⟩
    · rw [hstops, hstop, Option.isSome_none]
    · rw [borders, if_neg hsome, hstop, hraw₁]
      rfl

/-- The loop over chunks without structured calls: what is out when it is left. -/
theorem ensures_chat_loop_buffered (hd : deferredOf .llama request ≠ .none) :
    ∀ (backend : List (Except ε BackendStreamChunk)) {x : Early}
      {evs : List ChatCompletionStreamEvent} {s : ChatState},
    Buffered (deferredOf .llama request) request x evs s →
    (∀ chunk ∈ chunksRead request.stop s.rawText backend, chunk.toolCallDeltas = []) →
    Ensures (TryStream.loop (readChatChunk deps .llama request) s backend) evs
      (fun evs' s' => Read (deferredOf .llama request) request
        (early request.stop x (borders request.stop s.rawText
          (chunksRead request.stop s.rawText backend)))
        (s.rawText ++ textOf (chunksRead request.stop s.rawText backend)) evs' s')
      (fun _ _ => True)
  | [], x, evs, s, h, _ => by
    refine ensures_pure ?_
    rw [chunksRead, textOf_nil, List.append_nil]
    exact h.read
    exact fun _ _ h => by cases h
  | .error e :: rest, _, _, _, _, _ => ensures_bind (ensures_bind (ensures_fail trivial))
  | .ok chunk :: rest, x, evs, s, h, htext => by
    rw [chunksRead] at htext ⊢
    have hnone : chunk.toolCallDeltas = [] := by
      by_cases hends : endsReading request.stop s.rawText chunk = true
      · rw [if_pos hends] at htext
        exact htext chunk List.mem_cons_self
      · rw [if_neg hends] at htext
        exact htext chunk List.mem_cons_self
    refine ensures_bind (ensures_bind (ensures_pure ?_))
    refine ensures_bind (ensures_shown (emits_yieldChatProgress _) fun evs₁ _ hevs₁ => ?_)
    rw [hnone, readToolCallDeltas_nil]
    refine ensures_bind (ensures_pure ?_)
    have hkeep : Buffered (deferredOf .llama request) request x evs₁
        { s with tokens := s.tokens.add chunk, emittedPublicChunk := false } :=
      h.same ⟨rfl, rfl, rfl, rfl, rfl⟩ hevs₁ rfl rfl rfl
    refine ensures_bind (ensures_mono (ensures_readChatText_buffered hd hkeep)
      (fun evs₂ r h₂ => ?_) fun _ _ h => h)
    have hends : endsReading request.stop s.rawText chunk =
        (chunk.finishReason.isSome || stopsIn request.stop s.rawText chunk) := rfl
    cases r with
    | exit s₂ =>
      obtain ⟨hstops, hread, hborders⟩ := h₂
      have hstops' : stopsIn request.stop s.rawText chunk = true := hstops
      rw [if_pos (by rw [hends, hstops', Bool.or_true])]
      refine ensures_pure (ensures_pure ?_)
      rw [show borders request.stop s.rawText [chunk] = [] from hborders []]
      rw [textOf, List.flatMap_cons, List.flatMap_nil, List.append_nil]
      exact hread
    | next s₂ =>
      obtain ⟨hstops, hraw₂, x', h₂, hearly⟩ := h₂
      have hstops' : stopsIn request.stop s.rawText chunk = false := hstops
      have hraw' : s₂.rawText = s.rawText ++ chunk.text := hraw₂
      refine ensures_bind (ensures_shown (emits_yieldInternalProgress _ _) fun evs₃ _ hevs₃ => ?_)
      have h₃ : Buffered (deferredOf .llama request) request x' evs₃ s₂ :=
        h₂.same ⟨rfl, rfl, rfl, rfl, rfl⟩ hevs₃ rfl rfl rfl
      cases hreason : chunk.finishReason with
      | some reason =>
        rw [if_pos (by rw [hends, hreason, Option.isSome_some, Bool.true_or]), hearly]
        rw [textOf, List.flatMap_cons, List.flatMap_nil, List.append_nil, ← hraw']
        have hread := h₃.read
        exact ensures_pure (ensures_pure ⟨hread.visible, hread.assembler,
          hread.accounted.same rfl rfl rfl⟩)
      | none =>
        have hgoes : endsReading request.stop s.rawText chunk = false := by
          rw [hends, hreason, hstops']
          rfl
        rw [if_neg (by rw [hgoes]; exact Bool.false_ne_true)] at htext ⊢
        rw [hearly]
        refine ensures_pure (ensures_mono (ensures_chat_loop_buffered hd rest h₃ ?_)
          (fun evs' s' h' => ?_) fun _ _ h => h)
        · rw [hraw']
          exact fun c hc => htext c (List.mem_cons_of_mem _ hc)
        · rw [hraw'] at h'
          rw [textOf, List.flatMap_cons, ← List.append_assoc]
          exact h'

end Loop

/-! ### The end of the stream -/

section Finish

variable {J τ ε : Type} {deps : ChatDeps J τ ε} {request : ChatRequest τ}
  {deferred : DeferredEmission} {evs : List ChatCompletionStreamEvent} {s : ChatState}
  {x : Early} {T : Str}

/-- What is shown in all when the parsed content is `content` and there are no calls. -/
def shownInAll (deferred : DeferredEmission) (x : Early) (content : Str) : Str :=
  if deferred = .unmarkedToolBuffer then
    x.shown ++ (slice? content x.upTo (len content)).getD []
  else content

theorem shownInAll_of_ne (hd : deferred ≠ .unmarkedToolBuffer) (x : Early) (content : Str) :
    shownInAll deferred x content = content := if_neg hd

theorem ensures_parseVisible_read (h : Read deferred request x T evs s) :
    Ensures (parseVisible deps .llama deferred request s) evs
      (fun evs' filled => shownContent evs' = shownContent evs ∧ ∃ parsed,
        deps.parseChatText .llama (applyStopSequences T request.stop).1 request = .ok parsed ∧
          filled = deps.fillMissingToolIntentArguments parsed request) (fun _ _ => True) := by
  unfold parseVisible sliceText
  rw [h.visible]
  refine ensures_bind (ensures_pure ?_)
  refine ensures_bind (ensures_orFail (fun parsed hparsed => ?_) fun _ _ => trivial)
  rw [h.assembler] at hparsed
  have hparse := mapError_eq_ok.1 hparsed
  refine ensures_bind (ensures_shown (emits_yieldStage _ _) fun _ _ h₁ => ?_)
  refine ensures_bind (ensures_shown (emits_check _) fun _ _ h₂ => ?_)
  refine ensures_bind (ensures_shown (emits_failOn _) fun _ _ h₃ => ?_)
  refine ensures_bind (ensures_shown (emits_yieldStage _ _) fun _ _ h₄ => ?_)
  refine ensures_bind (ensures_shown (emits_check _) fun _ _ h₅ => ?_)
  refine ensures_bind (ensures_shown (emits_yieldStage _ _) fun _ _ h₆ => ?_)
  refine ensures_bind (ensures_shown (emits_check _) fun _ _ h₇ => ?_)
  refine ensures_bind (ensures_shown (emits_failOn _) fun _ _ h₈ => ?_)
  refine ensures_pure ⟨?_, parsed, hparse, rfl⟩
  rw [h₈, h₇, h₆, h₅, h₄, h₃, h₂, h₁]

theorem ensures_emitDeferredContent (hd : deferred ≠ .none) (h : Accounted deferred x evs s)
    (parsed : ParsedAssistant J) (hcalls : parsed.toolCalls = []) :
    Ensures (emitDeferredContent deferred s.emittedLen parsed : ChatBody ε Unit) evs
      (fun evs' _ => shownContent evs' = shownInAll deferred x parsed.content)
      (fun _ _ => True) := by
  have hyield : ∀ text : Str, Ensures (if text ≠ [] then yieldDelta { content := some text }
      else pure () : ChatBody ε Unit) evs
      (fun evs' _ => shownContent evs' = shownContent evs ++ text) (fun _ _ => True) := by
    intro text
    split
    · exact ensures_yield shownContent_concat
    · next hnil =>
      rw [not_not] at hnil
      rw [hnil, List.append_nil]
      exact ensures_pure rfl
  cases deferred with
  | none => exact absurd rfl hd
  | jsonObjectMode =>
    have hquiet := h.quiet (by decide)
    rw [shownInAll_of_ne (by decide)]
    refine ensures_mono (hyield parsed.content) (fun evs' _ h' => ?_) fun _ _ h => h
    rw [h', hquiet, List.nil_append]
  | toolChoiceRequired =>
    have hquiet := h.quiet (by decide)
    rw [shownInAll_of_ne (by decide)]
    refine ensures_mono (hyield parsed.content) (fun evs' _ h' => ?_) fun _ _ h => h
    rw [h', hquiet, List.nil_append]
  | unmarkedToolBuffer =>
    unfold emitDeferredContent shownInAll
    dsimp only
    rw [if_pos rfl, h.upTo rfl, ← h.shown rfl, hcalls, List.isEmpty_nil, if_pos rfl]
    cases slice? parsed.content x.upTo (len parsed.content) with
    | none => exact ensures_pure (by rw [Option.getD_none, List.append_nil])
    | some remaining => exact hyield remaining

theorem ensures_finishChat_read (hd : deferredOf .llama request ≠ .none) (includeUsage : Bool)
    (h : Read (deferredOf .llama request) request x T evs s) :
    Ensures (finishChat deps .llama request includeUsage s) evs
      (fun evs' _ => ∃ parsed,
        deps.parseChatText .llama (applyStopSequences T request.stop).1 request = .ok parsed ∧
          ((deps.fillMissingToolIntentArguments parsed request).toolCalls = [] →
            shownContent evs' = shownInAll (deferredOf .llama request) x
              (deps.fillMissingToolIntentArguments parsed request).content))
      (fun _ _ => True) := by
  have hflush : (flushContent (deferredOf .llama request) s : ChatBody ε Unit) = pure () :=
    if_neg fun hnow => hd hnow.2.2.1
  unfold finishChat
  dsimp only
  rw [hflush]
  refine ensures_bind (ensures_pure (ensures_bind (ensures_mono (ensures_parseVisible_read h)
    (fun evs₁ filled h₁ => ?_) fun _ _ h => h)))
  obtain ⟨hevs₁, parsed, hparse, rfl⟩ := h₁
  by_cases hcalls : (deps.fillMissingToolIntentArguments parsed request).toolCalls = []
  · refine ensures_bind (ensures_mono (ensures_emitDeferredContent hd
      (h.accounted.same hevs₁ rfl rfl) _ hcalls) (fun evs₂ _ h₂ => ?_) fun _ _ h => h)
    refine ensures_bind (ensures_shown (emits_emitRemainingToolCalls deps request s _)
      fun _ _ h₃ => ?_)
    refine ensures_shown (emits_yieldChatClosing _ _ _) fun _ _ h₄ => ?_
    exact ⟨parsed, hparse, fun _ => h₄.trans (h₃.trans h₂)⟩
  · refine ensures_bind (ensures_after (p := fun _ => True) (fun _ _ => trivial) fun _ _ _ => ?_)
    refine ensures_bind (ensures_after (p := fun _ => True) (fun _ _ => trivial) fun _ _ _ => ?_)
    exact ensures_after (p := fun _ => True) (fun _ _ => trivial) fun _ _ _ =>
      ⟨parsed, hparse, fun hnone => absurd hnone hcalls⟩

end Finish

/-! ### All of the content -/

section Stream

variable {ε : Type} {request : ChatRequest Api.ToolDefinition}

theorem early_nil_whole : ({} : Early).Whole [] := ⟨rfl, rfl⟩

theorem fillMissing_toolCalls (parsed : ParsedAssistant Json) :
    (fillMissingToolIntentArguments parsed request).toolCalls = [] ↔ parsed.toolCalls = [] :=
  List.map_eq_nil_iff

/-- What the modes show in all is the content just if the early texts keep it. -/
theorem shownInAll_iff (chunks : List BackendStreamChunk) (content : Str) :
    shownInAll (deferredOf .llama request)
        (early request.stop {} (borders request.stop [] chunks)) content = content ↔
      KeepsContent request chunks content := by
  have hnomark : hits (toolMarkupPolicy .llama).endMarkers [] = ∅ :=
    hits_nil fun p hp => (closes_endMarkers .llama p hp).ne_nil
  have hcases := @early_cases request.stop chunks [] {} hnomark early_nil_whole
  rw [List.nil_append] at hcases
  unfold shownInAll KeepsContent
  by_cases hd : deferredOf .llama request = .unmarkedToolBuffer
  · rw [if_pos hd]
    rcases hcases with ⟨hall, hwhole⟩ | ⟨⟨b, hb, hmark⟩, hgap⟩
    · rw [shown_append_rest_iff hwhole.len_shown.le, hwhole.len_shown]
      constructor
      · rintro (h | ⟨-, h⟩)
        · exact .inr (.inl h)
        · exact .inr (.inr ⟨hall, hwhole.2 ▸ h⟩)
      · rintro (h | h | ⟨-, h⟩)
        · exact absurd hd h
        · exact .inl h
        · exact .inr ⟨rfl, hwhole.2.symm ▸ h⟩
    · rw [shown_append_rest_iff (Nat.le_of_lt hgap)]
      constructor
      · rintro (h | ⟨hlen, -⟩)
        · exact .inr (.inl h)
        · exact absurd hlen (Nat.ne_of_lt hgap)
      · rintro (h | h | ⟨hall, -⟩)
        · exact absurd hd h
        · exact .inl h
        · exact absurd (hall b hb) hmark
  · rw [if_neg hd]
    exact iff_of_true rfl (.inl hd)

/-- Declared tools, a backend without structured calls, and a stream that ends well: the visible
text parses; where the parse has no calls, the stream shows the parsed content just if
`KeepsContent`. The completion in one piece answers that content always. -/
theorem unmarked_buffer_content_iff (E : Env) (failed : Failure → ε)
    (deps : ChatDeps Json Api.ToolDefinition ε) (htools : request.tools ≠ []) (includeUsage : Bool)
    {backend : List (Except ε BackendStreamChunk)}
    (htext : ∀ chunk ∈ chunksRead request.stop [] backend, chunk.toolCallDeltas = [])
    (hok : (streamingChatStream (withParsers E failed deps) .llama request includeUsage
      backend).result = .ok ()) :
    ∃ parsed, ToolParser.parseComplete E .llama (applyStopSequences
        (textOf (chunksRead request.stop [] backend)) request.stop).1 = .ok parsed ∧
      (∀ output completion, output.text = textOf (chunksRead request.stop [] backend) →
        completeChat (withParsers E failed deps) .llama request output = .ok completion →
        completion.parsed.content = parsed.content ∧
          (completion.parsed.toolCalls = [] ↔ parsed.toolCalls = [])) ∧
      (parsed.toolCalls = [] →
        (shownContent (streamingChatStream (withParsers E failed deps) .llama request includeUsage
            backend).events = parsed.content ↔
          KeepsContent request (chunksRead request.stop [] backend) parsed.content)) := by
  have hd := deferredOf_ne_none htools
  have hrun : Ensures (streamingChatStream (withParsers E failed deps) .llama request includeUsage
      backend) [] (fun evs _ => ∃ parsed, (withParsers E failed deps).parseChatText .llama
        (applyStopSequences (textOf (chunksRead request.stop [] backend)) request.stop).1 request =
          .ok parsed ∧
        ((fillMissingToolIntentArguments parsed request).toolCalls = [] →
          shownContent evs = shownInAll (deferredOf .llama request)
            (early request.stop {} (borders request.stop [] (chunksRead request.stop [] backend)))
            parsed.content)) (fun _ _ => True) := by
    refine ensures_bind (ensures_shown (emits_yieldDelta rfl) fun evs _ hevs => ?_)
    have hinit : Buffered (deferredOf .llama request) request {} evs
        (initialChat .llama request) :=
      ⟨⟨rfl, Tracks.streamState (opens_startMarkers .llama), rfl, fun h => absurd rfl h, rfl, rfl⟩,
        Completes.streamState fun p hp => (closes_endMarkers .llama p hp).ne_nil, rfl,
        fun _ => hevs, fun _ => rfl, fun _ => le_rfl, fun _ => hevs⟩
    refine ensures_bind (ensures_mono (ensures_chat_loop_buffered hd backend hinit htext)
      (fun evs' s' h => ?_) fun _ _ h => h)
    exact ensures_mono (ensures_finishChat_read hd includeUsage h) (fun _ _ h => h) fun _ _ h => h
  obtain ⟨parsed, hparse, hshown⟩ := hrun.of_ok hok
  have hparse' := mapError_eq_ok.1 hparse
  rw [parseChatText_of_tools E htools] at hparse'
  refine ⟨parsed, hparse', fun output completion htext hcomplete => ?_, fun hcalls => ?_⟩
  · obtain ⟨parsed', hparsed', hcompletion, -⟩ := completeChat_ok hcomplete
    rw [htext] at hparsed'
    rw [hparse] at hparsed'
    obtain rfl := Except.ok.inj hparsed'
    rw [hcompletion]
    exact ⟨rfl, fillMissing_toolCalls parsed⟩
  · rw [hshown ((fillMissing_toolCalls parsed).2 hcalls)]
    exact shownInAll_iff _ _

end Stream

/-- A first chunk that is long enough to be shown before the parse, and a second one. -/
def greetingBackend : List (Except Unit BackendStreamChunk) :=
  [.ok { text := List.replicate 300 'h' }, .ok { text := "i there".toList, finishReason := some .stop }]

/-- The whole greeting comes out, of which the first chunk early. -/
theorem greeting_comes_out_whole :
    KeepsContent intentRequest (chunksRead intentRequest.stop [] greetingBackend)
        (List.replicate 300 'h' ++ "i there".toList) ∧
      shownContent (streamingChatStream (withParsers ToolParser.compactEnv (fun _ => ())
        structuredDeps) .llama intentRequest false greetingBackend).events =
          List.replicate 300 'h' ++ "i there".toList ∧
      (early intentRequest.stop {} (borders intentRequest.stop []
        (chunksRead intentRequest.stop [] greetingBackend))).shown = List.replicate 300 'h' ∧
      ∀ output completion,
        output.text = textOf (chunksRead intentRequest.stop [] greetingBackend) →
        completeChat (withParsers ToolParser.compactEnv (fun _ => ()) structuredDeps) .llama
          intentRequest output = .ok completion →
        completion.parsed.content = List.replicate 300 'h' ++ "i there".toList ∧
          completion.parsed.toolCalls = [] := by
  have htools : intentRequest.tools ≠ [] := by decide
  have hok : (streamingChatStream (withParsers ToolParser.compactEnv (fun _ => ()) structuredDeps)
      .llama intentRequest false greetingBackend).result = .ok () := by decide +kernel
  obtain ⟨parsed, hparsed, hcomplete, hshown⟩ :=
    unmarked_buffer_content_iff ToolParser.compactEnv (fun _ => ()) structuredDeps htools false
      (by decide +kernel) hok
  have hplain : (ToolParser.parseComplete ToolParser.compactEnv .llama (applyStopSequences
      (textOf (chunksRead intentRequest.stop [] greetingBackend)) intentRequest.stop).1).toOption.map
        (fun parsed => (parsed.content, parsed.toolCalls.isEmpty)) =
          some (List.replicate 300 'h' ++ "i there".toList, true) := by decide +kernel
  rw [hparsed] at hplain
  obtain ⟨hcontent, hnone⟩ := Prod.mk.inj (Option.some.inj hplain)
  have hcalls := List.isEmpty_iff.1 hnone
  have hall : shownContent (streamingChatStream (withParsers ToolParser.compactEnv (fun _ => ())
      structuredDeps) .llama intentRequest false greetingBackend).events =
        List.replicate 300 'h' ++ "i there".toList := by decide +kernel
  refine ⟨hcontent ▸ (hshown hcalls).1 (hall.trans hcontent.symm), hall, by decide +kernel,
    fun output completion htext hok => ?_⟩
  obtain ⟨hsame, hempty⟩ := hcomplete output completion htext hok
  exact ⟨hsame.trans hcontent, hempty.2 hcalls⟩

/-- Reasoning that is long enough is shown as content before it is parsed. -/
example :
    let backend : List (Except Unit BackendStreamChunk) :=
      [.ok { text := "<think>".toList ++ List.replicate 260 'a' },
        .ok { text := "</think>b".toList, finishReason := some .stop }]
    shownContent (streamingChatStream (withParsers ToolParser.compactEnv (fun _ => ())
      structuredDeps) .llama intentRequest false backend).events =
        "<think>".toList ++ List.replicate 260 'a' := by
  decide +kernel

end KirAi.Runtime
