/-
# What a streaming completion shows

While no stop has occurred the stream has shown exactly the safe part of the text read
(`Following`); when one occurs it has shown the text up to the earliest stop of the text
read so far (`StoppedAt`). How the rest of the text is treated depends on how the loop
ended, and `streamed_no_stop` and `streamed_stop` say what the client has then seen.

The held-back tail is released only when the final finish reason is not `stop`. A backend
that itself reports `stop` at the end of the sequence gives the same reason as a stop
sequence does, so its tail is lost: `completion_lossless_iff` is the exact condition.
The chat stream keeps a flag of its own for a stop sequence and releases the tail.

A stop that starts later but ends earlier than the earliest one is seen first when a
chunk ends between the two: `completion_truncates_iff` is the condition on the stops and
the text under which every chunking gives the text of `applyStopSequences`.

Key definitions:
* `Following`, `StoppedAt`: the loop invariant

Key theorems:
* `ensures_readCompletionChunk`, `streamed_no_stop`, `streamed_stop`
* `completion_lossless_iff`, `completion_truncates_iff`
-/
import KirAi.Runtime.CompletionStream

namespace KirAi.Runtime

open Lib Lib.Text
open TryStream (Flow Ensures ensures_pure ensures_yield ensures_fail ensures_bind ensures_mono
  ensures_loop)

variable {ε : Type} {stop : List Str} {T : Str} {evs : List CompletionStreamEvent}
  {s : CompletionState}

/-- No stop in the text `T` read so far, and its safe part shown. -/
structure Following (stop : List Str) (T : Str) (evs : List CompletionStreamEvent)
    (s : CompletionState) : Prop where
  rawText : s.rawText = T
  noStop : hits stop T = ∅
  stopDetector : s.stopDetector = ⟨maxStopSequenceLen stop, len T⟩
  emittedLen : s.emittedLen = safeStreamEmitLen T (maxStopSequenceLen stop)
  shown : deltas evs = takeTo T s.emittedLen

/-- The text `T` read so far shown up to its earliest stop. -/
structure StoppedAt (stop : List Str) (T : Str) (evs : List CompletionStreamEvent)
    (s : CompletionState) : Prop where
  rawText : s.rawText = T
  earliest : IsLeast (hits stop T) s.emittedLen
  finishReason : s.finishReason = .stop
  shown : deltas evs = takeTo T s.emittedLen

/-! ### One chunk -/

theorem ensures_emitCompletionText {raw : Str} {a b : ℕ}
    {Q : List CompletionStreamEvent → Unit → Prop}
    {E : List CompletionStreamEvent → StreamError ε → Prop}
    (ha : isBoundary raw a = true) (hb : isBoundary raw b = true) (hab : a ≤ b)
    (hshown : deltas evs = takeTo raw a)
    (h : ∀ evs', deltas evs' = takeTo raw b → Q evs' ()) :
    Ensures (emitCompletionText raw a b) evs Q E := by
  refine ensures_bind (ensures_sliceText ha hb hab fun m hm => ensures_yield (h _ ?_))
  rw [deltas_concat, text_seedChunk, hshown]
  exact takeTo_append_slice? hm

theorem ensures_readCompletionText (hne : ∀ p ∈ stop, p ≠ [])
    {E : List CompletionStreamEvent → StreamError ε → Prop} (hF : Following stop T evs s)
    (text : Str) :
    Ensures (readCompletionText stop s text) evs (fun evs' r => match r with
      | .next s' => Following stop (T ++ text) evs' s' ∧ s'.finishReason = s.finishReason
      | .exit s' => StoppedAt stop (T ++ text) evs' s') E := by
  have hobs : (s.stopDetector.observe (T ++ text) stop).1 = earliestFrom stop (T ++ text) 0 := by
    rw [hF.stopDetector]
    exact IncrementalStopDetector.observe_eq hne hF.noStop text
  have hdet : (s.stopDetector.observe (T ++ text) stop).2 =
      ⟨maxStopSequenceLen stop, len (T ++ text)⟩ := by
    rw [IncrementalStopDetector.observe_snd, hF.stopDetector]
  have hbT : isBoundary T s.emittedLen = true := by
    rw [hF.emittedLen]
    exact isBoundary_safeStreamEmitLen T _
  have hb := isBoundary_append hbT text
  have hshown : deltas evs = takeTo (T ++ text) s.emittedLen := by
    rw [hF.shown, takeTo_append_of_isBoundary hbT]
  rw [readCompletionText]
  split
  · next hempty =>
    rw [List.isEmpty_iff.1 hempty, List.append_nil]
    exact ensures_pure ⟨hF, rfl⟩
  simp only [hF.rawText, hobs, hdet]
  cases hhit : earliestFrom stop (T ++ text) 0 with
  | some e =>
    have hleast := isLeast_hits hhit
    -- the part shown ends before every stop that the new text completes
    have hle : s.emittedLen ≤ e := by
      rw [hF.emittedLen]
      exact safeStreamEmitLen_le_of_mem_hits (by simp [hF.noStop]) hleast.1
    dsimp only
    split
    · refine ensures_bind (ensures_emitCompletionText hb (isBoundary_of_mem_hits hleast.1) hle
        hshown fun evs' hevs' => ensures_pure ?_)
      exact ⟨rfl, hleast, rfl, hevs'⟩
    · next hgt =>
      have heq : e = s.emittedLen := by omega
      exact ensures_bind (ensures_pure (ensures_pure ⟨rfl, hleast, rfl, by rw [hshown, heq]⟩))
  | none =>
    have hnone := hits_eq_empty hhit
    have hmono := safeStreamEmitLen_append_le T text (maxStopSequenceLen stop)
    rw [← hF.emittedLen] at hmono
    dsimp only
    split
    · refine ensures_bind (ensures_emitCompletionText hb (isBoundary_safeStreamEmitLen _ _) hmono
        hshown fun evs' hevs' => ensures_pure ?_)
      exact ⟨⟨rfl, hnone, rfl, rfl, hevs'⟩, rfl⟩
    · exact ensures_pure ⟨⟨rfl, hnone, rfl, by dsimp only; omega, hshown⟩, rfl⟩

theorem Following.tokens (h : Following stop T evs s) (t : TokenCounts) :
    Following stop T evs { s with tokens := t } :=
  ⟨h.rawText, h.noStop, h.stopDetector, h.emittedLen, h.shown⟩

theorem Following.finish (h : Following stop T evs s) (reason : FinishReason) :
    Following stop T evs { s with finishReason := reason } :=
  ⟨h.rawText, h.noStop, h.stopDetector, h.emittedLen, h.shown⟩

theorem Following.events (h : Following stop T evs s) {evs' : List CompletionStreamEvent}
    (he : deltas evs' = deltas evs) : Following stop T evs' s :=
  ⟨h.rawText, h.noStop, h.stopDetector, h.emittedLen, he.trans h.shown⟩

theorem ensures_yieldProgress {p : Option BackendStreamProgress}
    {Q : List CompletionStreamEvent → Unit → Prop}
    {E : List CompletionStreamEvent → StreamError ε → Prop}
    (h : ∀ evs', deltas evs' = deltas evs → Q evs' ()) : Ensures (yieldProgress p) evs Q E := by
  cases p with
  | none => exact ensures_pure (h evs rfl)
  | some p => exact ensures_yield (h _ (by simp))

/-- One chunk: the stream follows on, stops at a stop, or is closed by the backend. -/
theorem ensures_readCompletionChunk (hne : ∀ p ∈ stop, p ≠ [])
    {E : List CompletionStreamEvent → StreamError ε → Prop} (hF : Following stop T evs s)
    (c : BackendStreamChunk) :
    Ensures (readCompletionChunk stop s (.ok c)) evs (fun evs' r => match r with
      | .next s' => Following stop (T ++ c.text) evs' s' ∧ s'.finishReason = s.finishReason ∧
          c.finishReason = none
      | .exit s' => StoppedAt stop (T ++ c.text) evs' s' ∨
          (Following stop (T ++ c.text) evs' s' ∧
            ∃ reason, c.finishReason = some reason ∧
              s'.finishReason = apiFinishReason reason)) E := by
  refine ensures_bind (ensures_pure (ensures_bind (ensures_yieldProgress fun evs' he => ?_)))
  have hF' := (hF.events he).tokens (s.tokens.add c)
  refine ensures_bind (ensures_mono (ensures_readCompletionText hne hF' c.text)
    (fun evs'' r h => ensures_pure ?_) fun _ _ h => h)
  cases r with
  | exit s' => exact .inl h
  | next s' =>
    cases hc : c.finishReason with
    | none => exact ⟨h.1, h.2, rfl⟩
    | some reason => exact .inr ⟨h.1.finish _, reason, rfl, rfl⟩

/-! ### Chunk by chunk -/

/-- The texts of a stream read one after another, until a stop is reported. A slice that does
not fall on character boundaries ends the run with an error. -/
def readTexts (stop : List Str) : CompletionState → List Str → CompletionBody ε (Flow CompletionState)
  | s, [] => pure (.next s)
  | s, text :: texts =>
    readCompletionText stop s text >>= fun
      | .next s' => readTexts stop s' texts
      | .exit s' => pure (.exit s')

/-- How a run over texts stands: behind `T` without a stop, or at the first stop of a beginning
of the texts. -/
def TextsRead (stop : List Str) (T : Str) (texts : List Str) (evs : List CompletionStreamEvent) :
    Flow CompletionState → Prop
  | .next s => Following stop (T ++ texts.flatten) evs s
  | .exit s => ∃ before, before <+: texts ∧ StoppedAt stop (T ++ before.flatten) evs s

theorem ensures_readTexts (hne : ∀ p ∈ stop, p ≠ []) : ∀ (texts : List Str) {T : Str}
    {evs : List CompletionStreamEvent} {s : CompletionState}, Following stop T evs s →
    Ensures (readTexts (ε := ε) stop s texts) evs (fun evs' r => TextsRead stop T texts evs' r)
      (fun _ _ => False)
  | [], T, evs, s, hF => by
    refine ensures_pure ?_
    rw [TextsRead, List.flatten_nil, List.append_nil]
    exact hF
  | text :: texts, T, evs, s, hF => by
    refine ensures_bind (ensures_mono (ensures_readCompletionText hne hF text) (fun evs' r h => ?_)
      fun _ _ h => h)
    cases r with
    | next s' =>
      refine ensures_mono (ensures_readTexts hne texts h.1) (fun evs'' r hr => ?_) fun _ _ h => h
      cases r with
      | next s'' =>
        rw [TextsRead, List.append_assoc] at hr
        exact hr
      | exit s'' =>
        obtain ⟨before, hbefore, hstop⟩ := hr
        refine ⟨text :: before, (List.cons_prefix_cons.mpr ⟨rfl, hbefore⟩), ?_⟩
        rw [List.flatten_cons, ← List.append_assoc]
        exact hstop
    | exit s' =>
      refine ensures_pure ⟨[text], ⟨texts, rfl⟩, ?_⟩
      rw [List.flatten_singleton]
      exact h

theorem following_initial (hne : ∀ p ∈ stop, p ≠ []) :
    Following stop [] [] (initialCompletion stop) where
  rawText := rfl
  noStop := hits_nil hne
  stopDetector := rfl
  emittedLen := (safeStreamEmitLen_nil _).symm
  shown := rfl

theorem earliestStopIndex_eq_some {e : ℕ} (h : IsLeast (hits stop T) e) :
    earliestStopIndex T stop = some e := by
  rw [earliestStopIndex_eq]
  exact (earliestFrom_eq_some_iff (isBoundary_zero T)).2
    ⟨⟨h.1, Nat.zero_le e⟩, fun j hj => h.2 hj.1⟩

theorem earliestStopIndex_eq_none (h : hits stop T = ∅) : earliestStopIndex T stop = none := by
  rw [earliestStopIndex_eq]
  refine (earliestFrom_eq_none_iff (isBoundary_zero T)).2 fun j hj => ?_
  rw [h] at hj
  cases hj

/-- After any texts the run stands without a slice that failed. Where a stop was reported it is
the earliest of the text read, and everything before it is shown. Where none was, there is none;
whatever comes next, the search answers what the full scan answers, and what is shown ends
before every stop that the next text completes. -/
theorem stop_search_exact (ε : Type) (stop : List Str) (hne : ∀ p ∈ stop, p ≠ []) (texts : List Str)
    (next : Str) :
    ∃ flow, (readTexts (ε := ε) stop (initialCompletion stop) texts).result = .ok flow ∧
      match flow with
      | .exit s => (∃ before, before <+: texts ∧ s.rawText = before.flatten) ∧
          earliestStopIndex s.rawText stop = some s.emittedLen ∧
          deltas (readTexts (ε := ε) stop (initialCompletion stop) texts).events =
            takeTo s.rawText s.emittedLen
      | .next s => s.rawText = texts.flatten ∧ earliestStopIndex texts.flatten stop = none ∧
          (s.stopDetector.observe (texts.flatten ++ next) stop).1 =
            earliestStopIndex (texts.flatten ++ next) stop ∧
          isBoundary texts.flatten s.emittedLen = true ∧
          deltas (readTexts (ε := ε) stop (initialCompletion stop) texts).events =
            takeTo texts.flatten s.emittedLen ∧
          ∀ stopAt, earliestStopIndex (texts.flatten ++ next) stop = some stopAt →
            s.emittedLen ≤ stopAt := by
  have hrun := ensures_readTexts (ε := ε) hne texts (following_initial hne)
  cases hresult : (readTexts (ε := ε) stop (initialCompletion stop) texts).result with
  | error e => exact (hrun.of_error hresult).elim
  | ok flow =>
    have hread := hrun.of_ok hresult
    refine ⟨flow, rfl, ?_⟩
    cases flow with
    | exit s =>
      obtain ⟨before, hbefore, hstop⟩ := hread
      rw [List.nil_append] at hstop
      refine ⟨⟨before, hbefore, hstop.rawText⟩, ?_, ?_⟩
      · rw [hstop.rawText]
        exact earliestStopIndex_eq_some hstop.earliest
      · rw [hstop.rawText]
        exact hstop.shown
    | next s =>
      have hF : Following stop ([] ++ texts.flatten) _ s := hread
      rw [List.nil_append] at hF
      refine ⟨hF.rawText, earliestStopIndex_eq_none hF.noStop, ?_, ?_, hF.shown, fun stopAt hstop => ?_⟩
      · rw [hF.stopDetector, earliestStopIndex_eq]
        exact IncrementalStopDetector.observe_eq hne hF.noStop next
      · rw [hF.emittedLen]
        exact isBoundary_safeStreamEmitLen _ _
      · rw [earliestStopIndex_eq] at hstop
        rw [hF.emittedLen]
        exact safeStreamEmitLen_le_of_mem_hits (by simp [hF.noStop]) (isLeast_hits hstop).1

/-- A stop split over two chunks, behind a character of four bytes. -/
theorem stop_search_exact_split :
    ∃ flow, (readTexts (ε := Empty) ["🙂END".toList] (initialCompletion ["🙂END".toList])
        ["alpha 🙂".toList, "EN".toList]).result = .ok flow ∧
      match flow with
      | .exit _ => False
      | .next s => s.emittedLen = 6 ∧
          (s.stopDetector.observe "alpha 🙂END beta".toList ["🙂END".toList]).1 = some 6 := by
  obtain ⟨flow, hresult, h⟩ := stop_search_exact Empty ["🙂END".toList] (by decide)
    ["alpha 🙂".toList, "EN".toList] "D beta".toList
  refine ⟨flow, hresult, ?_⟩
  cases flow with
  | exit s =>
    cases hresult
  | next s =>
    refine ⟨?_, h.2.2.1.trans (by decide)⟩
    obtain rfl := Flow.next.inj (Except.ok.inj hresult)
    decide

/-! ### The loop -/

/-- How the loop ends: the whole text read without a stop, with the reason reported for
it, or the first chunk read that completes a stop. -/
def LoopEnd (stop : List Str) (chunks : List BackendStreamChunk)
    (evs : List CompletionStreamEvent) (s : CompletionState) : Prop :=
  (Following stop (textOf chunks) evs s ∧
    s.finishReason = ((reportedFinish chunks).map apiFinishReason).getD .length) ∨
  ∃ pre c rest, pre ++ c :: rest = chunks ∧ hits stop (textOf pre) = ∅ ∧
    StoppedAt stop (textOf (pre ++ [c])) evs s

theorem ensures_completion_loop (hne : ∀ p ∈ stop, p ≠ []) {chunks : List BackendStreamChunk}
    (hfin : EndsAtFinish chunks) {E : List CompletionStreamEvent → StreamError ε → Prop} :
    Ensures (TryStream.loop (readCompletionChunk stop) (initialCompletion stop)
      (chunks.map .ok)) [] (LoopEnd stop chunks) E := by
  rw [TryStream.loop_map]
  refine ensures_loop
    (fun pre evs s => Following stop (textOf pre) evs s ∧ s.finishReason = .length ∧
      reportedFinish pre = none)
    (fun _ evs s => LoopEnd stop chunks evs s) ?_ ?_ (fun _ _ _ _ h => h)
    ⟨following_initial hne, rfl, rfl⟩
  · rintro pre c rest evs s ⟨hF, hlength, -⟩ hall
    refine ensures_mono (ensures_readCompletionChunk hne hF c) (fun evs' r h => ?_) fun _ _ h => h
    rw [← textOf_concat] at h
    cases r with
    | next s' =>
      exact ⟨h.1, h.2.1.trans hlength, (reportedFinish_concat pre c).trans h.2.2⟩
    | exit s' =>
      rcases h with hstop | ⟨hF', reason, hreason, hs'⟩
      · exact .inr ⟨pre, c, rest, hall, hF.noStop, hstop⟩
      · have hrest := hfin.eq_nil hall (by rw [hreason]; exact nofun)
        rw [hrest] at hall
        refine .inl ⟨hall ▸ hF', ?_⟩
        rw [← hall, reportedFinish_concat, hreason, hs']
        rfl
  · rintro evs s ⟨hF, hlength, hnone⟩
    exact .inl ⟨hF, by rw [hnone]; exact hlength⟩

/-! ### After the loop -/

/-- What the client has seen when the stream has read its text. -/
def visible (s : CompletionState) : Str :=
  if s.finishReason = .stop then takeTo s.rawText s.emittedLen else s.rawText

theorem ensures_releaseTail {Q : List CompletionStreamEvent → ℕ → Prop}
    {E : List CompletionStreamEvent → StreamError ε → Prop}
    (hb : isBoundary s.rawText s.emittedLen = true)
    (hshown : deltas evs = takeTo s.rawText s.emittedLen)
    (h : ∀ evs' n, isBoundary s.rawText n = true → visible s = takeTo s.rawText n →
      deltas evs' = visible s → Q evs' n) :
    Ensures (releaseTail s) evs Q E := by
  have hend := isBoundary_len s.rawText
  have hle := isBoundary_le hb
  unfold releaseTail visible at *
  split
  · next hrel =>
    rw [if_neg hrel.1] at h
    refine ensures_bind (ensures_emitCompletionText hb hend hle hshown fun evs' hevs' =>
      ensures_pure (h evs' _ hend (takeTo_len _).symm ?_))
    rw [hevs', takeTo_len]
  · next hkeep =>
    have hvis : (if s.finishReason = .stop then takeTo s.rawText s.emittedLen else s.rawText) =
        takeTo s.rawText s.emittedLen := by
      split
      · rfl
      · next hstop =>
        have : s.emittedLen = len s.rawText := by
          simp only [ne_eq, hstop, not_false_iff, true_and] at hkeep
          omega
        rw [this, takeTo_len]
    exact ensures_pure (h evs _ hb hvis (hshown.trans hvis.symm))

theorem ensures_yieldClosing (includeUsage : Bool)
    {Q : List CompletionStreamEvent → Unit → Prop}
    {E : List CompletionStreamEvent → StreamError ε → Prop}
    (h : ∀ evs', deltas evs' = deltas evs → Q evs' ()) :
    Ensures (yieldClosing includeUsage s) evs Q E := by
  refine ensures_bind (ensures_yield ?_)
  split
  · refine ensures_bind (ensures_yield (ensures_yield (h _ ?_)))
    simp only [deltas_concat, text_seedChunk, text_usageChunk, text_complete, List.append_nil]
  · refine ensures_yield (h _ ?_)
    simp only [deltas_concat, text_seedChunk, text_complete, List.append_nil]

/-- A stream ends with what is visible shown, well if that is not blank. -/
theorem ensures_finishCompletion (includeUsage : Bool)
    (hb : isBoundary s.rawText s.emittedLen = true)
    (hshown : deltas evs = takeTo s.rawText s.emittedLen) :
    Ensures (finishCompletion (ε := ε) includeUsage s) evs
      (fun evs' _ => deltas evs' = visible s ∧ trim (visible s) ≠ [])
      (fun evs' _ => deltas evs' = visible s ∧ trim (visible s) = []) := by
  refine ensures_bind (ensures_releaseTail hb hshown fun evs' n hn hvis hevs' => ?_)
  refine ensures_bind (ensures_sliceText (isBoundary_zero _) hn (Nat.zero_le n) fun m hm => ?_)
  have hm' : m = visible s := by
    have h := takeTo_append_slice? hm
    have h0 : takeTo s.rawText 0 = [] := by simpa using takeTo_append [] s.rawText
    rw [hvis, ← h, h0, List.nil_append]
  rw [hm']
  cases hcls : classifyNoProgress (visible s) s.tokens.completionTokens with
  | none =>
    exact ensures_yieldClosing includeUsage fun evs'' he =>
      ⟨he.trans hevs', classifyNoProgress_eq_none.1 hcls⟩
  | some cls =>
    refine ensures_fail ⟨hevs', ?_⟩
    by_contra hblank
    rw [classifyNoProgress_eq_none.2 hblank] at hcls
    cases hcls

/-! ### What is shown -/

/-- The text `v` shown of a chunk sequence: all of it, or its safe part where the backend
reports `stop`, if no stop occurs; else what stands before the earliest stop of the
first text read that has one. -/
def Shown (stop : List Str) (chunks : List BackendStreamChunk) (v : Str) : Prop :=
  (hits stop (textOf chunks) = ∅ ∧
    v = if reportedFinish chunks = some .stop then
        takeTo (textOf chunks) (safeStreamEmitLen (textOf chunks) (maxStopSequenceLen stop))
      else textOf chunks) ∨
  ∃ pre c rest e, pre ++ c :: rest = chunks ∧ hits stop (textOf pre) = ∅ ∧
    IsLeast (hits stop (textOf (pre ++ [c]))) e ∧ v = takeTo (textOf (pre ++ [c])) e

theorem apiFinishReason_getD_eq_stop {r : Option BackendFinishReason} :
    (r.map apiFinishReason).getD .length = .stop ↔ r = some .stop := by
  cases r with
  | none => simp
  | some r => cases r <;> simp [apiFinishReason]

theorem LoopEnd.isBoundary {chunks : List BackendStreamChunk} (h : LoopEnd stop chunks evs s) :
    isBoundary s.rawText s.emittedLen = true := by
  rcases h with ⟨hF, -⟩ | ⟨pre, c, rest, -, -, hS⟩
  · rw [hF.rawText, hF.emittedLen]
    exact isBoundary_safeStreamEmitLen _ _
  · rw [hS.rawText]
    exact isBoundary_of_mem_hits hS.earliest.1

theorem LoopEnd.shown {chunks : List BackendStreamChunk} (h : LoopEnd stop chunks evs s) :
    deltas evs = takeTo s.rawText s.emittedLen := by
  rcases h with ⟨hF, -⟩ | ⟨pre, c, rest, -, -, hS⟩
  · rw [hF.rawText, hF.shown]
  · rw [hS.rawText, hS.shown]

theorem LoopEnd.visible {chunks : List BackendStreamChunk} (h : LoopEnd stop chunks evs s) :
    Shown stop chunks (visible s) := by
  unfold Runtime.visible
  rcases h with ⟨hF, hreason⟩ | ⟨pre, c, rest, hall, hpre, hS⟩
  · refine .inl ⟨hF.noStop, ?_⟩
    rw [hreason, hF.rawText, hF.emittedLen]
    by_cases hr : reportedFinish chunks = some .stop
    · rw [if_pos (apiFinishReason_getD_eq_stop.2 hr), if_pos hr]
    · rw [if_neg (fun h => hr (apiFinishReason_getD_eq_stop.1 h)), if_neg hr]
  · refine .inr ⟨pre, c, rest, s.emittedLen, hall, hpre, hS.earliest, ?_⟩
    rw [if_pos hS.finishReason, hS.rawText]

/-- What a stream shows, and that it fails exactly when that is blank. -/
theorem ensures_streamingCompletionStream (hne : ∀ p ∈ stop, p ≠ []) (includeUsage : Bool)
    {chunks : List BackendStreamChunk} (hfin : EndsAtFinish chunks) :
    Ensures (streamingCompletionStream (ε := ε) stop includeUsage (chunks.map .ok)) []
      (fun evs _ => Shown stop chunks (deltas evs) ∧ trim (deltas evs) ≠ [])
      (fun evs _ => Shown stop chunks (deltas evs) ∧ trim (deltas evs) = []) := by
  refine ensures_bind (ensures_mono (ensures_completion_loop hne hfin) (fun evs s h => ?_)
    fun _ _ h => h)
  refine ensures_mono (ensures_finishCompletion includeUsage h.isBoundary h.shown) ?_ ?_
  · rintro evs' - ⟨hd, ht⟩
    exact ⟨hd ▸ h.visible, hd ▸ ht⟩
  · rintro evs' - ⟨hd, ht⟩
    exact ⟨hd ▸ h.visible, hd ▸ ht⟩

section Run

variable {includeUsage : Bool} {chunks : List BackendStreamChunk}

variable (ε stop includeUsage chunks) in
/-- The stream over a sequence of backend chunks. -/
def runCompletion : TryStream CompletionStreamEvent (StreamError ε) Unit :=
  streamingCompletionStream stop includeUsage (chunks.map .ok)

variable (ε includeUsage) in
theorem shown_runCompletion (hne : ∀ p ∈ stop, p ≠ []) (hfin : EndsAtFinish chunks) :
    Shown stop chunks (deltas (runCompletion ε stop includeUsage chunks).events) := by
  have h := ensures_streamingCompletionStream (ε := ε) hne includeUsage hfin
  cases hr : (runCompletion ε stop includeUsage chunks).result with
  | ok a => exact (h.of_ok hr).1
  | error e => exact (h.of_error hr).1

variable (ε includeUsage) in
theorem runCompletion_ok_iff (hne : ∀ p ∈ stop, p ≠ []) (hfin : EndsAtFinish chunks) :
    (runCompletion ε stop includeUsage chunks).result = .ok () ↔
      trim (deltas (runCompletion ε stop includeUsage chunks).events) ≠ [] := by
  have h := ensures_streamingCompletionStream (ε := ε) hne includeUsage hfin
  cases hr : (runCompletion ε stop includeUsage chunks).result with
  | ok a => exact iff_of_true rfl (h.of_ok hr).2
  | error e => exact iff_of_false (by simp) (fun hne' => hne' (h.of_error hr).2)

variable (ε includeUsage) in
/-- Without a stop in the text, the client sees all of it, or the safe part of it where
the backend itself reports `stop`. -/
theorem streamed_no_stop (hne : ∀ p ∈ stop, p ≠ []) (hfin : EndsAtFinish chunks)
    (hT : hits stop (textOf chunks) = ∅) :
    deltas (runCompletion ε stop includeUsage chunks).events =
      if reportedFinish chunks = some .stop then
        takeTo (textOf chunks) (safeStreamEmitLen (textOf chunks) (maxStopSequenceLen stop))
      else textOf chunks := by
  rcases shown_runCompletion ε includeUsage hne hfin with
    ⟨-, h⟩ | ⟨pre, c, rest, e, hall, -, he, -⟩
  · exact h
  · have hmem : e ∈ hits stop (textOf chunks) := by
      rw [← hall, ← List.singleton_append, ← List.append_assoc, textOf_append]
      exact mem_hits_append he.1 _
    rw [hT] at hmem
    cases hmem

variable (ε includeUsage) in
/-- With a stop in the text, the client sees what stands before the earliest stop of the
first text read that has one. -/
theorem streamed_stop (hne : ∀ p ∈ stop, p ≠ []) (hfin : EndsAtFinish chunks)
    (hT : (hits stop (textOf chunks)).Nonempty) :
    ∃ pre c rest e, pre ++ c :: rest = chunks ∧ hits stop (textOf pre) = ∅ ∧
      IsLeast (hits stop (textOf (pre ++ [c]))) e ∧
      deltas (runCompletion ε stop includeUsage chunks).events =
        takeTo (textOf (pre ++ [c])) e := by
  rcases shown_runCompletion ε includeUsage hne hfin with ⟨h, -⟩ | h
  · exact absurd h hT.ne_empty
  · exact h

variable (ε includeUsage) in
/-- A stream over a text without a stop shows all of it exactly when the backend does not
itself report `stop`, or nothing is ever held back, or what is shown at once is blank, so
that the stream ends with an error. -/
theorem completion_lossless_iff (hne : ∀ p ∈ stop, p ≠ []) (hfin : EndsAtFinish chunks)
    (hT : ∀ p ∈ stop, ¬p <:+: textOf chunks) :
    ((runCompletion ε stop includeUsage chunks).result = .ok () →
        deltas (runCompletion ε stop includeUsage chunks).events = textOf chunks) ↔
      reportedFinish chunks ≠ some .stop ∨ maxStopSequenceLen stop ≤ 1 ∨
        trim (takeTo (textOf chunks)
          (safeStreamEmitLen (textOf chunks) (maxStopSequenceLen stop))) = [] := by
  have hnone : hits stop (textOf chunks) = ∅ := by
    rw [Set.eq_empty_iff_forall_notMem]
    intro i hi
    obtain ⟨p, hp, hinfix⟩ := hits_nonempty_iff.1 ⟨i, hi⟩
    exact hT p hp hinfix
  rw [runCompletion_ok_iff ε includeUsage hne hfin,
    streamed_no_stop ε includeUsage hne hfin hnone]
  by_cases hr : reportedFinish chunks = some .stop
  · simp only [hr, if_true, ne_eq, not_true, false_or]
    constructor
    · intro h
      by_contra hcon
      rw [not_or] at hcon
      -- the tail held back is not empty, as the text shown is not
      have heq := h hcon.2
      have hlen := congrArg len heq
      rw [len_takeTo (isBoundary_safeStreamEmitLen _ _)] at hlen
      have hle := safeStreamEmitLen_le (textOf chunks) (maxStopSequenceLen stop)
      have hzero : textOf chunks = [] := len_eq_zero.1 (by omega)
      rw [hzero] at hcon
      exact hcon.2 rfl
    · rintro (hsmall | hblank) hok
      · have hsafe : safeStreamEmitLen (textOf chunks) (maxStopSequenceLen stop) =
            len (textOf chunks) := if_pos hsmall
        rw [hsafe, takeTo_len]
      · exact absurd hblank hok
  · simp [hr]

theorem completion_lossless_length :
    deltas (runCompletion Empty ["END".toList] false [{ text := "hello world".toList }]).events =
      textOf [{ text := "hello world".toList }] :=
  (completion_lossless_iff Empty false (by decide) (by decide) (by decide +kernel)).2
    (.inl (by decide)) (by decide +kernel)

/-- A backend that ends with `stop`, and a stop sequence that does not occur. -/
def lostTailChunks : List BackendStreamChunk :=
  [{ text := "hello ".toList }, { text := "world".toList, finishReason := some .stop }]

theorem completion_tail_lost :
    EndsAtFinish lostTailChunks ∧ (∀ p ∈ ["END".toList], ¬p <:+: textOf lostTailChunks) ∧
      textOf lostTailChunks = "hello world".toList ∧
      (runCompletion Empty ["END".toList] false lostTailChunks).result = .ok () ∧
      deltas (runCompletion Empty ["END".toList] false lostTailChunks).events =
        "hello wor".toList := by
  decide +kernel

/-- Some stop both starts and ends before every other in the text. -/
def EarliestEndsFirst (stop : List Str) (T : Str) : Prop :=
  ∃ p ∈ stop, ∃ e, OccursAt p T e ∧
    ∀ q ∈ stop, ∀ j, OccursAt q T j → e ≤ j ∧ e + len p ≤ j + len q

theorem applyStopSequences_of_isLeast {e : ℕ} (h : IsLeast (hits stop T) e) :
    (applyStopSequences T stop).1 = takeTo T e := by
  have he : earliestFrom stop T 0 = some e :=
    (earliestFrom_eq_some_iff (isBoundary_zero T)).2
      ⟨⟨h.1, Nat.zero_le e⟩, fun j hj => h.2 hj.1⟩
  rw [applyStopSequences_eq, he]

variable (ε includeUsage) in
/-- Cut after a stop that ends first, the stream shows what stands before the earliest
stop of the first part. -/
theorem streamed_cut (hne : ∀ p ∈ stop, p ≠ []) {u q v : Str} (hq : q ∈ stop) :
    ∃ e, IsLeast (hits stop (u ++ q)) e ∧
      deltas (runCompletion ε stop includeUsage [{ text := u ++ q }, { text := v }]).events =
        takeTo (u ++ q) e := by
  have hmem : len u ∈ hits stop (u ++ q) := ⟨q, hq, u, [], by simp, rfl⟩
  have hmem' : len u ∈ hits stop (textOf [{ text := u ++ q }, { text := v }]) := by
    simpa [textOf] using mem_hits_append hmem v
  have hfin : EndsAtFinish [{ text := u ++ q }, { text := v }] := by simp [EndsAtFinish]
  obtain ⟨pre, c, rest, e, hall, hpre, he, hshown⟩ :=
    streamed_stop ε includeUsage hne hfin ⟨_, hmem'⟩
  cases pre with
  | nil =>
    obtain ⟨rfl, -⟩ := List.cons.inj hall
    exact ⟨e, by simpa [textOf] using he, by simpa [textOf] using hshown⟩
  | cons a pre =>
    obtain ⟨rfl, hall'⟩ := List.cons.inj hall
    -- a chunk before the last one read has no stop, and the first chunk has one
    have hfirst : len u ∈ hits stop (textOf ({ text := u ++ q } :: pre)) := by
      simpa [textOf] using mem_hits_append hmem (textOf pre)
    rw [hpre] at hfirst
    cases hfirst

variable (ε includeUsage) in
/-- A stream over a text with a stop shows the text of `applyStopSequences`, however the
text is chunked, exactly when some stop both starts and ends before every other. -/
theorem completion_truncates_iff (hne : ∀ p ∈ stop, p ≠ []) (hT : ∃ p ∈ stop, p <:+: T) :
    (∀ chunks, EndsAtFinish chunks → textOf chunks = T →
        deltas (runCompletion ε stop includeUsage chunks).events =
          (applyStopSequences T stop).1) ↔
      EarliestEndsFirst stop T := by
  have hhits := hits_nonempty_iff.2 hT
  constructor
  · intro h
    obtain ⟨q, hq, j, ⟨u, v, rfl, rfl⟩, hfirst⟩ := exists_first_end hhits
    obtain ⟨e, he⟩ := exists_isLeast_hits hhits
    obtain ⟨e', he', hshown⟩ := streamed_cut ε includeUsage hne (u := u) (v := v) hq
    have heq := h [{ text := u ++ q }, { text := v }] (by simp [EndsAtFinish]) (by simp [textOf])
    rw [hshown, applyStopSequences_of_isLeast he] at heq
    have hlen := congrArg len heq
    rw [len_takeTo (isBoundary_of_mem_hits he'.1), len_takeTo (isBoundary_of_mem_hits he.1)] at hlen
    obtain ⟨p, hp, hocc⟩ := he'.1
    have hend := hocc.end_le
    rw [len_append] at hend
    rw [hlen] at hocc hend
    refine ⟨p, hp, e, hocc.append v, fun q' hq' j' hj' => ⟨he.2 ⟨q', hq', hj'⟩, ?_⟩⟩
    exact hend.trans (hfirst q' hq' j' hj')
  · rintro ⟨p, hp, e, he, hfirst⟩ chunks hfin rfl
    have hleast : IsLeast (hits stop (textOf chunks)) e :=
      ⟨⟨p, hp, he⟩, by rintro j ⟨q, hq, hj⟩; exact (hfirst q hq j hj).1⟩
    rw [applyStopSequences_of_isLeast hleast]
    obtain ⟨pre, c, rest, e', hall, -, he', hshown⟩ := streamed_stop ε includeUsage hne hfin hhits
    have htext : textOf chunks = textOf (pre ++ [c]) ++ textOf rest := by
      rw [← hall, ← textOf_append, List.append_assoc, List.singleton_append]
    rw [htext] at he hfirst hleast ⊢
    have hbefore : e ≤ e' := hleast.2 (mem_hits_append he'.1 _)
    have hafter : e' ≤ e := by
      obtain ⟨q, hq, hocc⟩ := he'.1
      have hend := hocc.end_le
      have := (hfirst q hq e' (hocc.append _)).2
      exact he'.2 ⟨p, hp, he.of_append (by omega)⟩
    obtain rfl : e = e' := by omega
    rw [hshown, takeTo_append_of_isBoundary (isBoundary_of_mem_hits he'.1)]

theorem earliestEndsFirst_single : EarliestEndsFirst ["END".toList] "one END two".toList := by
  have hleast : IsLeast (hits ["END".toList] "one END two".toList) 4 :=
    isLeast_hits (by decide +kernel)
  obtain ⟨p, hp, hocc⟩ := hleast.1
  refine ⟨p, hp, 4, hocc, fun q hq j hj => ⟨hleast.2 ⟨q, hq, hj⟩, ?_⟩⟩
  rw [List.mem_singleton.1 hp, List.mem_singleton.1 hq]
  have := hleast.2 ⟨q, hq, hj⟩
  omega

theorem completion_truncates_single :
    deltas (runCompletion Empty ["END".toList] false
        [{ text := "one E".toList }, { text := "ND two".toList }]).events =
      (applyStopSequences "one END two".toList ["END".toList]).1 :=
  (completion_truncates_iff Empty false (by decide) (by decide +kernel)).2
    earliestEndsFirst_single _ (by decide) (by decide +kernel)

/-- The text `abcd`, cut after the stop `c` and before the end of the stop `abcd`. -/
def splitStopChunks : List BackendStreamChunk := [{ text := "abc".toList }, { text := "d".toList }]

theorem completion_split_stop :
    EndsAtFinish splitStopChunks ∧ textOf splitStopChunks = "abcd".toList ∧
      deltas (runCompletion Empty ["abcd".toList, "c".toList] false splitStopChunks).events =
        "ab".toList ∧
      (applyStopSequences "abcd".toList ["abcd".toList, "c".toList]).1 = [] := by
  decide +kernel

end Run

end KirAi.Runtime
