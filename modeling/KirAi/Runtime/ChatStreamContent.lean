/-
# The content before a tool call

What the stream shows of the text before the first start marker, in the mode that shows
content at once. The bytes held back for a stop that may be forming come out with later
text; but a completed tool block moves `emitted_len` past itself, over what is held back
in front of it, and the last flush is left out as soon as a start marker stands in the
text. So the text before the marker comes out whole just if the text that arrives with an
end marker is long enough (`Released`): at every chunk border, what is not held back
reaches every block end before the marker, and the marker itself once a block after it is
complete; and at the end it reaches the marker.

`Followed` is the invariant of the loop: all of the text up to `emitted_len` (and up to
the marker) has been shown, or some of it never will be.

Key definitions:
* `shownContent`, `KeepsUp`, `Released`, `Followed`

Key theorems:
* `ensures_chat_content`, `content_before_tool_call_iff`
-/
import KirAi.Runtime.ChatStreamMarkup

namespace KirAi.Runtime

open Lib Lib.Text
open TryStream (Flow Ensures Emits ensures_pure ensures_yield ensures_fail ensures_bind
  ensures_mono ensures_loop emits_orFail)

/-- The content of a stream: its content deltas one after another. -/
def shownContent (evs : List ChatCompletionStreamEvent) : Str :=
  evs.flatMap fun e => e.content.getD []

/-- What is not held back for a stop reaches every block end, as far as it stands before `n`,
and reaches `n` once a block ends past it. -/
def Caught (family : ModelFamily) (stop : List Str) (n : ℕ) (P : Str) : Prop :=
  ∀ c ∈ (toolMarkupPolicy family).blockEnds P,
    min c n ≤ safeStreamEmitLen P (maxStopSequenceLen stop)

/-- So it is at every border between chunks. -/
def KeepsUp (family : ModelFamily) (stop : List Str) (n : ℕ) (chunks : List BackendStreamChunk) :
    Prop :=
  ∀ pre, pre <+: chunks → Caught family stop n (textOf pre)

/-- The texts before a tool call at `n` that are shown whole. -/
def Released (family : ModelFamily) (stop : List Str) (n : ℕ) (chunks : List BackendStreamChunk) :
    Prop :=
  KeepsUp family stop n chunks ∧
    n ≤ safeStreamEmitLen (textOf chunks) (maxStopSequenceLen stop)

theorem keepsUp_nil {family : ModelFamily} {stop : List Str} {n : ℕ} :
    KeepsUp family stop n [] := by
  rintro pre hpre c ⟨p, hp, i, hi, -⟩
  rw [List.prefix_nil.1 hpre, textOf_nil] at hi
  exact absurd (occursAt_nil.1 hi).1 (closes_endMarkers family p hp).ne_nil

theorem keepsUp_concat {family : ModelFamily} {stop : List Str} {n : ℕ}
    {cs : List BackendStreamChunk} {c : BackendStreamChunk} :
    KeepsUp family stop n (cs ++ [c]) ↔
      KeepsUp family stop n cs ∧ Caught family stop n (textOf cs ++ c.text) := by
  constructor
  · intro h
    refine ⟨fun pre hpre => h pre (hpre.trans (List.prefix_append _ _)), ?_⟩
    rw [← textOf_concat]
    exact h _ (List.prefix_refl _)
  · rintro ⟨hcs, hc⟩ pre hpre
    rcases List.prefix_concat_iff.1 hpre with rfl | hpre
    · rwa [textOf_concat]
    · exact hcs pre hpre

/-! ### What has been shown -/

theorem shownContent_append (evs evs' : List ChatCompletionStreamEvent) :
    shownContent (evs ++ evs') = shownContent evs ++ shownContent evs' := by
  simp only [shownContent, List.flatMap_append]

theorem shownContent_silent {evs : List ChatCompletionStreamEvent}
    (h : ∀ e ∈ evs, e.content = none) : shownContent evs = [] := by
  refine List.flatMap_eq_nil_iff.2 fun e he => ?_
  rw [h e he]
  rfl

theorem shownContent_concat {evs : List ChatCompletionStreamEvent} {text : Str}
    {range : Option (ℕ × ℕ)} :
    shownContent (evs ++ [.chunk (streamSeedChunk { content := some text } none none) range]) =
      shownContent evs ++ text := by
  rw [shownContent_append]
  simp [shownContent, content_emitted]

/-- All of `T` up to `e`, and up to `n`, is shown. -/
def Whole (T : Str) (n e : ℕ) (shown : Str) : Prop := shown = takeTo T (min e n)

/-- Less than the text up to `e`, and up to `n`, is shown. -/
def Gap (n e : ℕ) (shown : Str) : Prop := len shown < min e n

section Shown

variable {T shown m : Str} {n e b c : ℕ}

/-- A slice from `e` on, within `n`, continues what is shown. -/
theorem Whole.advance (hm : slice? T e b = some m) (hb : b ≤ n) (h : Whole T n e shown) :
    Whole T n b (shown ++ m) := by
  have heb := le_of_slice? hm
  unfold Whole at h ⊢
  rw [h, min_eq_left (heb.trans hb), min_eq_left hb]
  exact takeTo_append_slice? hm

theorem Gap.advance (hm : slice? T e b = some m) (hb : b ≤ n) (h : Gap n e shown) :
    Gap n b (shown ++ m) := by
  obtain ⟨u, v, -, hu, hum⟩ := slice?_eq_some_iff.1 hm
  unfold Gap at h ⊢
  rw [len_append]
  omega

/-- A jump to `c` leaves no gap if all up to `c`, or up to `n`, is shown. -/
theorem Whole.jump (h : Whole T n e shown) (hc : min c n ≤ e) : Whole T n (max e c) shown := by
  have hmin : min (max e c) n = min e n := by omega
  unfold Whole
  rw [hmin]
  exact h

theorem Whole.gap (h : Whole T n e shown) (hc : e < min c n) : Gap n (max e c) shown := by
  have hlen := len_takeTo_le T (min e n)
  unfold Gap
  rw [h]
  omega

theorem Gap.jump (h : Gap n e shown) (c : ℕ) : Gap n (max e c) shown := by
  unfold Gap at h ⊢
  omega

theorem Whole.eq_takeTo_iff (h : Whole T n e shown) (hn : isBoundary T n = true) :
    shown = takeTo T n ↔ n ≤ e := by
  constructor
  · intro heq
    have hlen := len_takeTo_le T (min e n)
    rw [← h, heq, len_takeTo hn] at hlen
    omega
  · intro hle
    rw [h, min_eq_right hle]

theorem Gap.ne_takeTo (h : Gap n e shown) (hn : isBoundary T n = true) : shown ≠ takeTo T n := by
  rintro rfl
  unfold Gap at h
  rw [len_takeTo hn] at h
  omega

end Shown

section Content

variable {J τ ε : Type} {deps : ChatDeps J τ ε} {family : ModelFamily} {request : ChatRequest τ}
  {P t T : Str} {n : ℕ} {evs : List ChatCompletionStreamEvent} {s : ChatState}

/-- A step without content shows nothing more. -/
theorem ensures_shown {α : Type} {m : ChatBody ε α} (hm : Emits Silent m)
    {Q : List ChatCompletionStreamEvent → α → Prop}
    (hQ : ∀ evs' a, shownContent evs' = shownContent evs → Q evs' a) :
    Ensures m evs Q (fun _ _ => True) := by
  unfold Ensures
  split
  · refine hQ _ _ ?_
    rw [shownContent_append, shownContent_silent hm, List.append_nil]
  · trivial

/-- The part of the state that the content depends on, after the text `P`. -/
structure Followed (family : ModelFamily) (request : ChatRequest τ) (T : Str) (n : ℕ)
    (cs : List BackendStreamChunk) (evs : List ChatCompletionStreamEvent) (s : ChatState) :
    Prop where
  reading : Reading family request (textOf cs) s
  completes : Completes (toolMarkupPolicy family) (textOf cs) s.toolMarkupState
  shown : (KeepsUp family request.stop n cs ∧ Whole T n s.emittedLen (shownContent evs) ∧
      min (max s.emittedLen s.parsedToolPrefixLen) n ≤
        safeStreamEmitLen (textOf cs) (maxStopSequenceLen request.stop) ∧
      safeContentLen request s ≤ s.emittedLen) ∨
    (¬KeepsUp family request.stop n cs ∧ Gap n s.emittedLen (shownContent evs))

theorem safeContentLen_same {s' : ChatState} (h : SameText s s') (request : ChatRequest τ) :
    safeContentLen request s' = safeContentLen request s := by
  unfold safeContentLen
  rw [h.rawText, h.toolMarkupState]

/-- What is safe of the content, before the first marker of the whole text. -/
theorem safeContentLen_le (hn : IsLeast (hits (toolMarkupPolicy family).startMarkers (P ++ t)) n)
    (hR : Reading family request P s) :
    safeContentLen request s ≤ min n (safeStreamEmitLen P (maxStopSequenceLen request.stop)) := by
  unfold safeContentLen
  rw [hR.rawText]
  exact le_min ((min_le_right _ _).trans
    (hR.markup.safeEmitLen_le (opens_startMarkers family) hn.1)) (min_le_left _ _)

/-- What the markers let through reaches every block end before the first marker. -/
theorem min_le_safeEmitLen (hn : IsLeast (hits (toolMarkupPolicy family).startMarkers (P ++ t)) n)
    (hR : Reading family request P s) {c : ℕ} (hc : c ∈ (toolMarkupPolicy family).blockEnds P) :
    min c n ≤ s.toolMarkupState.safeEmitLen P := by
  unfold ToolMarkupStreamState.safeEmitLen
  cases hs : s.toolMarkupState.firstStart with
  | none =>
    dsimp only
    rw [hR.markup.policy]
    have := blockEnds_le_withheld (startMarkers_inner family) (closes_endMarkers family) hc
    omega
  | some start =>
    have hstart := isLeast_hits_append (opens_startMarkers family) (hR.markup.start hs) t
    rw [hstart.unique hn]
    exact min_le_right _ _

theorem ensures_emitSafeContent_shown
    (hn : IsLeast (hits (toolMarkupPolicy family).startMarkers (P ++ t)) n)
    (hR : Reading family request P s) :
    Ensures (emitSafeContent .none request s : ChatBody ε ChatState) evs
      (fun evs' s' => SameText s s' ∧ s'.parsedToolPrefixLen = s.parsedToolPrefixLen ∧
        s'.emittedLen = max s.emittedLen (safeContentLen request s) ∧
        (Whole (P ++ t) n s.emittedLen (shownContent evs) →
          Whole (P ++ t) n s'.emittedLen (shownContent evs')) ∧
        (Gap n s.emittedLen (shownContent evs) → Gap n s'.emittedLen (shownContent evs')))
      (fun _ _ => True) := by
  have hsafe := safeContentLen_le hn hR
  unfold emitSafeContent emitContent sliceText
  dsimp only
  split
  · next hgrow =>
    split
    · next m hm =>
      rw [hR.rawText] at hm
      have hm' := slice?_append_right hm t
      have hle : safeContentLen request s ≤ n := hsafe.trans (min_le_left _ _)
      refine ensures_bind (ensures_bind (ensures_pure (ensures_yield (ensures_pure ?_))))
      rw [shownContent_concat]
      refine ⟨⟨rfl, rfl, rfl, rfl, rfl⟩, rfl, ?_, fun h => h.advance hm' hle,
        fun h => h.advance hm' hle⟩
      dsimp only
      omega
    · exact ensures_bind (ensures_bind (ensures_fail trivial))
  · next hkeep =>
    refine ensures_pure ⟨⟨rfl, rfl, rfl, rfl, rfl⟩, rfl, ?_, id, id⟩
    have : ¬safeContentLen request s > s.emittedLen := fun h => hkeep ⟨rfl, h⟩
    omega

/-- The parse of a prefix shows no content; it moves the emitted length to the last block
end, if it has not parsed so far before. -/
theorem ensures_emitToolPrefix_shown :
    Ensures (emitToolPrefix deps family .none request s) evs
      (fun evs' s' => SameText s s' ∧ shownContent evs' = shownContent evs ∧
        ((s'.emittedLen = s.emittedLen ∧ s'.parsedToolPrefixLen = s.parsedToolPrefixLen ∧
          ∀ c, s.toolMarkupState.completedPrefixLen = some c → c ≤ s.parsedToolPrefixLen) ∨
        ∃ c, s.toolMarkupState.completedPrefixLen = some c ∧
          s'.emittedLen = max s.emittedLen c ∧ s'.parsedToolPrefixLen = c))
      (fun _ _ => True) := by
  have hsame : SameText s s := ⟨rfl, rfl, rfl, rfl, rfl⟩
  unfold emitToolPrefix
  split
  · next hnone =>
    refine ensures_pure ⟨hsame, rfl, .inl ⟨rfl, rfl, fun c hc => ?_⟩⟩
    rw [hnone] at hc
    cases hc
  · next toolPrefixLen hsome =>
    split
    · next hle =>
      refine ensures_pure ⟨hsame, rfl, .inl ⟨rfl, rfl, fun c hc => ?_⟩⟩
      rw [hsome] at hc
      cases hc
      exact hle
    · refine ensures_bind (ensures_shown emits_sliceText fun _ _ h₁ => ?_)
      refine ensures_bind (ensures_shown (emits_orFail _) fun _ _ h₂ => ?_)
      refine ensures_bind (ensures_shown (emits_check _) fun _ _ h₃ => ?_)
      refine ensures_bind (ensures_shown (emits_failOn _) fun _ _ h₄ => ?_)
      refine ensures_bind (ensures_shown (emits_check _) fun _ _ h₅ => ?_)
      rw [if_neg (by simp)]
      refine ensures_bind (ensures_shown (emits_yieldToolCalls _ _ _ _) fun _ _ h₆ => ?_)
      refine ensures_pure ⟨⟨rfl, rfl, rfl, rfl, rfl⟩, ?_, .inr ⟨toolPrefixLen, hsome, rfl, rfl⟩⟩
      rw [h₆, h₅, h₄, h₃, h₂, h₁]

/-- The account of a chunk: what was shown before it, what it adds, and the jump over a
completed block. -/
theorem shown_step {s s₁ s₂ : ChatState} {Q shown shown₁ : Str} {K : Prop}
    (hn : IsLeast (hits (toolMarkupPolicy family).startMarkers (P ++ t)) n)
    (hR : Reading family request P s₁)
    (hcomp : Completes (toolMarkupPolicy family) P s₁.toolMarkupState) (hQ : Q <+: P)
    (hparsed : s₁.parsedToolPrefixLen = s.parsedToolPrefixLen)
    (hemitted : s₁.emittedLen = max s.emittedLen (safeContentLen request s₁))
    (hwhole : Whole (P ++ t) n s.emittedLen shown → Whole (P ++ t) n s₁.emittedLen shown₁)
    (hgap : Gap n s.emittedLen shown → Gap n s₁.emittedLen shown₁)
    (hmove : (s₂.emittedLen = s₁.emittedLen ∧ s₂.parsedToolPrefixLen = s₁.parsedToolPrefixLen ∧
        ∀ c, s₁.toolMarkupState.completedPrefixLen = some c → c ≤ s₁.parsedToolPrefixLen) ∨
      ∃ c, s₁.toolMarkupState.completedPrefixLen = some c ∧
        s₂.emittedLen = max s₁.emittedLen c ∧ s₂.parsedToolPrefixLen = c)
    (h : (K ∧ Whole (P ++ t) n s.emittedLen shown ∧
        min (max s.emittedLen s.parsedToolPrefixLen) n ≤
          safeStreamEmitLen Q (maxStopSequenceLen request.stop)) ∨
      (¬K ∧ Gap n s.emittedLen shown)) :
    ((K ∧ Caught family request.stop n P) ∧ Whole (P ++ t) n s₂.emittedLen shown₁ ∧
        min (max s₂.emittedLen s₂.parsedToolPrefixLen) n ≤
          safeStreamEmitLen P (maxStopSequenceLen request.stop) ∧
        safeContentLen request s₁ ≤ s₂.emittedLen) ∨
      (¬(K ∧ Caught family request.stop n P) ∧ Gap n s₂.emittedLen shown₁) := by
  have hsafe := safeContentLen_le hn hR
  have hgrow : safeStreamEmitLen Q (maxStopSequenceLen request.stop) ≤
      safeStreamEmitLen P (maxStopSequenceLen request.stop) := by
    obtain ⟨x, rfl⟩ := hQ
    exact safeStreamEmitLen_append_le Q x _
  rcases h with ⟨hK, hw, hle⟩ | ⟨hK, hg⟩
  · have hw₁ := hwhole hw
    rcases hmove with ⟨he, hp, hold⟩ | ⟨c, hc, he, hp⟩
    · refine .inl ⟨⟨hK, fun c hc => ?_⟩, he ▸ hw₁, by omega, by omega⟩
      obtain ⟨last, hlast, hcl⟩ := hcomp.le c hc
      have := hold last hlast
      omega
    · by_cases hreach : min c n ≤ s₁.emittedLen
      · refine .inl ⟨⟨hK, fun c' hc' => ?_⟩, he ▸ hw₁.jump hreach, by omega, by omega⟩
        obtain ⟨last, hlast, hcl⟩ := hcomp.le c' hc'
        rw [hc] at hlast
        cases hlast
        omega
      · -- what is not held back has not reached the end of the block
        refine .inr ⟨fun hcaught => hreach ?_, he ▸ hw₁.gap (by omega)⟩
        have hmem := hcomp.mem c hc
        have hstop := hcaught.2 c hmem
        have hmark := min_le_safeEmitLen hn hR hmem
        have hboth : min c n ≤ safeContentLen request s₁ := by
          unfold safeContentLen
          rw [hR.rawText]
          exact le_min hstop hmark
        omega
  · refine .inr ⟨fun hcaught => hK hcaught.1, ?_⟩
    rcases hmove with ⟨he, -⟩ | ⟨c, -, he, -⟩
    · exact he ▸ hgap hg
    · exact he ▸ (hgap hg).jump c

/-- The whole text holds no stop, so no beginning of it does. -/
theorem earliestFrom_of_append (hnone : hits request.stop (P ++ t) = ∅) :
    earliestFrom request.stop P 0 = none := by
  refine (earliestFrom_eq_none_iff (isBoundary_zero P)).2 fun j hj => ?_
  have hmem := mem_hits_append hj t
  rw [hnone] at hmem
  cases hmem

/-- What the text of a chunk makes of the content. -/
theorem ensures_readChatText_shown {cs : List BackendStreamChunk} {c : BackendStreamChunk}
    (hT : textOf cs ++ c.text ++ t = T)
    (hn : IsLeast (hits (toolMarkupPolicy family).startMarkers T) n)
    (hnone : hits request.stop T = ∅) (h : Followed family request T n cs evs s) :
    Ensures (readChatText deps family .none request s c.text) evs
      (fun evs' r => ∃ s', r = .next s' ∧ Followed family request T n (cs ++ [c]) evs' s')
      (fun _ _ => True) := by
  have hR := h.reading
  rw [← hT] at hnone
  have hobs : (s.stopDetector.observe (textOf cs ++ c.text) request.stop).1 = none := by
    rw [hR.stopDetector, IncrementalStopDetector.observe_eq_of_fresh hR.noStop c.text]
    exact earliestFrom_of_append hnone
  have hdet : (s.stopDetector.observe (textOf cs ++ c.text) request.stop).2 =
      ⟨maxStopSequenceLen request.stop, len (textOf cs ++ c.text)⟩ := by
    rw [IncrementalStopDetector.observe_snd, hR.stopDetector]
  rw [readChatText]
  split
  · next hempty =>
    have htext : textOf (cs ++ [c]) = textOf cs := by
      rw [textOf_concat, List.isEmpty_iff.1 hempty, List.append_nil]
    refine ensures_pure ⟨s, rfl, ?_, ?_, ?_⟩
    · rw [htext]
      exact hR
    · rw [htext]
      exact h.completes
    · rw [keepsUp_concat, ← textOf_concat, htext]
      rcases h.shown with ⟨hkeeps, hrest⟩ | ⟨hlate, hgap⟩
      · exact .inl ⟨⟨hkeeps, hkeeps cs (List.prefix_refl cs)⟩, hrest⟩
      · exact .inr ⟨fun hkeeps => hlate hkeeps.1, hgap⟩
  simp only [hR.rawText, hobs, hdet]
  subst hT
  have hR' : Reading family request (textOf cs ++ c.text)
      { s with
        rawText := textOf cs ++ c.text
        toolMarkupState := s.toolMarkupState.observe (textOf cs ++ c.text)
        stopDetector := ⟨maxStopSequenceLen request.stop, len (textOf cs ++ c.text)⟩ } :=
    ⟨rfl, hR.markup.observe (opens_startMarkers family) c.text, rfl,
      fun _ => hits_eq_empty (earliestFrom_of_append hnone), hR.running, hR.uncut⟩
  have hcomp := h.completes.observe hR.markup c.text
  refine ensures_bind (ensures_mono (ensures_emitSafeContent_shown hn hR')
    (fun evs₁ s₁ h₁ => ?_) fun _ _ h => h)
  obtain ⟨hsame₁, hparsed₁, hemitted₁, hwhole₁, hgap₁⟩ := h₁
  refine ensures_bind (ensures_mono ensures_emitToolPrefix_shown
    (fun evs₂ s₂ h₂ => ?_) fun _ _ h => h)
  obtain ⟨hsame₂, hshown₂, hmove⟩ := h₂
  -- the buffer of unmarked calls belongs to another mode
  refine ensures_bind (ensures_pure (ensures_pure ⟨s₂, rfl, ?_, ?_, ?_⟩))
  · rw [textOf_concat]
    exact (hR'.same hsame₁).same hsame₂
  · rw [textOf_concat, hsame₂.toolMarkupState, hsame₁.toolMarkupState]
    exact hcomp
  · have hsafe₁ := safeContentLen_same hsame₁ request
    have hsafe₂ := safeContentLen_same hsame₂ request
    rw [keepsUp_concat, textOf_concat, hshown₂, hsafe₂]
    refine shown_step hn (hR'.same hsame₁) (hsame₁.toolMarkupState ▸ hcomp)
      (List.prefix_append _ _) hparsed₁ (hsafe₁ ▸ hemitted₁) hwhole₁ hgap₁ hmove ?_
    exact h.shown.imp (fun h => ⟨h.1, h.2.1, h.2.2.1⟩) id

/-- The account survives steps that touch neither the text nor the emitted length. -/
theorem Followed.same {cs : List BackendStreamChunk} {evs' : List ChatCompletionStreamEvent}
    {s' : ChatState} (h : Followed family request T n cs evs s) (hsame : SameText s s')
    (hevs : shownContent evs' = shownContent evs) (he : s'.emittedLen = s.emittedLen)
    (hp : s'.parsedToolPrefixLen = s.parsedToolPrefixLen) :
    Followed family request T n cs evs' s' where
  reading := h.reading.same hsame
  completes := hsame.toolMarkupState ▸ h.completes
  shown := by
    rw [hevs, he, hp, safeContentLen_same hsame request]
    exact h.shown

theorem ensures_readToolCallDeltas_shown (bufferArguments : Bool)
    (ds : List BackendToolCallDelta) :
    Ensures (readToolCallDeltas bufferArguments s ds : ChatBody ε ChatState) evs
      (fun evs' s' => SameText s s' ∧ shownContent evs' = shownContent evs ∧
        s'.emittedLen = s.emittedLen ∧ s'.parsedToolPrefixLen = s.parsedToolPrefixLen)
      (fun _ _ => True) := by
  unfold readToolCallDeltas
  dsimp only
  generalize (if bufferArguments then _ else _ : List ToolCallDelta) = shown
  split
  · exact ensures_pure ⟨⟨rfl, rfl, rfl, rfl, rfl⟩, rfl, rfl, rfl⟩
  · exact ensures_bind (ensures_shown (emits_yieldDelta rfl) fun _ _ h =>
      ensures_pure ⟨⟨rfl, rfl, rfl, rfl, rfl⟩, h, rfl, rfl⟩)

theorem ensures_closeChat_shown {cs : List BackendStreamChunk} {chunk : BackendStreamChunk}
    (h : Followed family request T n cs evs s) :
    Ensures (closeChat chunk (.next s) : ChatBody ε (Flow ChatState)) evs
      (fun evs' r => match r with
        | .next s' => Followed family request T n cs evs' s'
        | .exit s' => Followed family request T n cs evs' s' ∧ chunk.finishReason ≠ none)
      (fun _ _ => True) := by
  refine ensures_bind (ensures_shown (emits_yieldInternalProgress chunk s) fun evs' _ hevs => ?_)
  have hsame : ∀ s', SameText s s' → s'.emittedLen = s.emittedLen →
      s'.parsedToolPrefixLen = s.parsedToolPrefixLen →
      Followed family request T n cs evs' s' := fun s' hs he hp => h.same hs hevs he hp
  cases hc : chunk.finishReason with
  | none => exact ensures_pure (hsame _ ⟨rfl, rfl, rfl, rfl, rfl⟩ rfl rfl)
  | some reason => exact ensures_pure ⟨hsame _ ⟨rfl, rfl, rfl, rfl, rfl⟩ rfl rfl, nofun⟩

theorem ensures_readChatChunk_shown (hmode : deferredOf family request = .none)
    {cs : List BackendStreamChunk} {c : BackendStreamChunk} (hT : textOf cs ++ c.text ++ t = T)
    (hn : IsLeast (hits (toolMarkupPolicy family).startMarkers T) n)
    (hnone : hits request.stop T = ∅) (h : Followed family request T n cs evs s) :
    Ensures (readChatChunk deps family request s (.ok c)) evs
      (fun evs' r => match r with
        | .next s' => Followed family request T n (cs ++ [c]) evs' s'
        | .exit s' => Followed family request T n (cs ++ [c]) evs' s' ∧ c.finishReason ≠ none)
      (fun _ _ => True) := by
  refine ensures_bind (ensures_pure ?_)
  refine ensures_bind (ensures_shown (emits_yieldChatProgress _) fun _ _ hevs => ?_)
  refine ensures_bind (ensures_mono (ensures_readToolCallDeltas_shown _ _)
    (fun _ s₁ h₁ => ?_) fun _ _ h => h)
  obtain ⟨hsame, hevs₁, he, hp⟩ := h₁
  rw [hmode]
  have hkeep : Followed family request T n cs evs
      { s with tokens := s.tokens.add c, emittedPublicChunk := false } :=
    h.same ⟨rfl, rfl, rfl, rfl, rfl⟩ rfl rfl rfl
  refine ensures_bind (ensures_mono
    (ensures_readChatText_shown hT hn hnone (hkeep.same hsame (hevs₁.trans hevs) he hp))
    (fun _ r h₂ => ?_) fun _ _ h => h)
  obtain ⟨s₂, rfl, h₂⟩ := h₂
  exact ensures_closeChat_shown h₂

theorem followed_initial (hevs : shownContent evs = []) :
    Followed family request T n [] evs (initialChat family request) where
  reading := ⟨rfl, Tracks.streamState (opens_startMarkers family), rfl,
    fun h => absurd rfl h, rfl, rfl⟩
  completes := Completes.streamState fun p hp => (closes_endMarkers family p hp).ne_nil
  shown := by
    refine .inl ⟨keepsUp_nil, ?_, ?_, ?_⟩
    · rw [hevs]
      show [] = takeTo T (min 0 n)
      have hlen := len_takeTo_le T (min 0 n)
      exact (len_eq_zero.1 (by omega)).symm
    · simp [initialChat]
    · have := safeStreamEmitLen_nil (maxStopSequenceLen request.stop)
      simp [safeContentLen, initialChat, this]

/-- The loop: the account of the whole text. -/
theorem ensures_chat_loop_shown (hmode : deferredOf family request = .none)
    {chunks : List BackendStreamChunk} (hfin : EndsAtFinish chunks)
    (hn : IsLeast (hits (toolMarkupPolicy family).startMarkers (textOf chunks)) n)
    (hnone : hits request.stop (textOf chunks) = ∅) (hevs : shownContent evs = []) :
    Ensures (TryStream.loop (readChatChunk deps family request) (initialChat family request)
        (chunks.map .ok)) evs
      (fun evs' s' => Followed family request (textOf chunks) n chunks evs' s')
      (fun _ _ => True) := by
  rw [TryStream.loop_map]
  refine ensures_loop (fun pre evs s => Followed family request (textOf chunks) n pre evs s)
    (fun _ evs s => Followed family request (textOf chunks) n chunks evs s)
    ?_ (fun _ _ h => h) (fun _ _ _ _ h => h) (followed_initial hevs)
  intro pre c rest evs s h hall
  have htext : textOf pre ++ c.text ++ textOf rest = textOf chunks := by
    rw [← hall, textOf_append, ← List.singleton_append, textOf_append, ← List.append_assoc]
    simp [textOf]
  refine ensures_mono (ensures_readChatChunk_shown hmode htext hn hnone h) (fun evs' r h' => ?_)
    fun _ _ h => h
  cases r with
  | next s' => exact h'
  | exit s' =>
    have hrest := hfin.eq_nil hall h'.2
    rw [hrest] at hall
    exact hall ▸ h'.1

/-- With a start marker in the text, no flush follows the loop. -/
theorem ensures_finishChat_shown (hmode : deferredOf family request = .none) (includeUsage : Bool)
    {chunks : List BackendStreamChunk}
    (hn : IsLeast (hits (toolMarkupPolicy family).startMarkers (textOf chunks)) n)
    (h : Followed family request (textOf chunks) n chunks evs s) :
    Ensures (finishChat deps family request includeUsage s) evs
      (fun evs' _ => shownContent evs' = shownContent evs) (fun _ _ => True) := by
  have hstart : s.toolMarkupState.containsStart = true := by
    unfold ToolMarkupStreamState.containsStart
    cases hs : s.toolMarkupState.firstStart with
    | some i => rfl
    | none =>
      have hmem := hn.1
      rw [h.reading.markup.noStart hs] at hmem
      cases hmem
  unfold finishChat
  rw [hmode]
  have hflush : (flushContent .none s : ChatBody ε Unit) = pure () := by
    unfold flushContent
    simp [hstart]
  dsimp only
  rw [hflush]
  exact ensures_bind (ensures_pure
    (ensures_shown (emits_finishChat_tail deps family request includeUsage s _) fun _ _ h => h))

/-- At the end of the text, all of it up to the marker is shown just if it was released. -/
theorem Followed.shown_iff {chunks : List BackendStreamChunk}
    (hn : IsLeast (hits (toolMarkupPolicy family).startMarkers (textOf chunks)) n)
    (h : Followed family request (textOf chunks) n chunks evs s) :
    shownContent evs = takeTo (textOf chunks) n ↔ Released family request.stop n chunks := by
  have hb := isBoundary_of_mem_hits hn.1
  rcases h.shown with ⟨hkeeps, hwhole, hle, hsafe⟩ | ⟨hlate, hgap⟩
  · rw [hwhole.eq_takeTo_iff hb]
    have hmark : s.toolMarkupState.safeEmitLen (textOf chunks) = n := by
      have hfirst := h.reading.markup.firstStart
      have hsome : earliestFrom (toolMarkupPolicy family).startMarkers (textOf chunks) 0 = some n :=
        (earliestFrom_eq_some_iff (isBoundary_zero _)).2
          ⟨⟨hn.1, Nat.zero_le n⟩, fun j hj => hn.2 hj.1⟩
      rw [hsome] at hfirst
      simp only [ToolMarkupStreamState.safeEmitLen, hfirst]
    rw [safeContentLen, h.reading.rawText, hmark] at hsafe
    constructor
    · intro hreach
      exact ⟨hkeeps, by omega⟩
    · rintro ⟨-, hreach⟩
      omega
  · exact iff_of_false (hgap.ne_takeTo hb) fun hrel => hlate hrel.1

variable (deps) in
/-- In the mode that shows content at once, over a text without a stop whose first start
marker stands at `n`: a stream that ends well has shown the text before the marker just if
the text was released. -/
theorem content_before_tool_call_iff (hmode : deferredOf family request = .none)
    (includeUsage : Bool) {chunks : List BackendStreamChunk} (hfin : EndsAtFinish chunks)
    (hnone : hits request.stop (textOf chunks) = ∅)
    (hn : IsLeast (hits (toolMarkupPolicy family).startMarkers (textOf chunks)) n)
    (hok : (runChat deps family request includeUsage chunks).result = .ok ()) :
    shownContent (runChat deps family request includeUsage chunks).events =
        takeTo (textOf chunks) n ↔
      Released family request.stop n chunks := by
  have hrun : Ensures (runChat deps family request includeUsage chunks) []
      (fun evs _ => shownContent evs = takeTo (textOf chunks) n ↔
        Released family request.stop n chunks) (fun _ _ => True) := by
    refine ensures_bind (ensures_shown (emits_yieldDelta rfl) fun _ _ hevs => ?_)
    refine ensures_bind (ensures_mono (ensures_chat_loop_shown hmode hfin hn hnone hevs)
      (fun evs s h => ?_) fun _ _ h => h)
    refine ensures_mono (ensures_finishChat_shown hmode includeUsage hn h)
      (fun _ _ hshown => ?_) fun _ _ h => h
    rw [hshown]
    exact h.shown_iff hn
  exact hrun.of_ok hok

end Content

/-- Where no stop is longer than one byte nothing is held back for it, so the text before
a tool call is always released. -/
theorem released_of_short_stops {family : ModelFamily} {stop : List Str} {n : ℕ}
    {chunks : List BackendStreamChunk} (hshort : maxStopSequenceLen stop ≤ 1)
    (hn : n ∈ hits (toolMarkupPolicy family).startMarkers (textOf chunks)) :
    Released family stop n chunks := by
  have hall : ∀ P, safeStreamEmitLen P (maxStopSequenceLen stop) = len P := by
    intro P
    rw [safeStreamEmitLen, if_pos hshort]
  refine ⟨fun pre _ c hc => ?_, ?_⟩
  · rw [hall]
    exact (min_le_left _ _).trans (isBoundary_le (isBoundary_of_mem_blockEnds hc))
  · rw [hall]
    exact isBoundary_le (isBoundary_of_mem_hits hn)

/-! ### Text held back in front of a tool call -/

/-- A greeting, then a call of `f` without arguments. -/
def greetingCallText : Str := "Hi <tool_call>\x7b\"name\":\"f\"\x7d</tool_call>".toList

def greetingCallDeps : ChatDeps Str Unit Unit :=
  { oneCallDeps with
    parseComplete := fun _ _ => .ok { oneCall with content := "Hi ".toList }
    parseChatText := fun _ _ _ => .ok { oneCall with content := "Hi ".toList } }

theorem isLeast_greetingCallText :
    IsLeast (hits (toolMarkupPolicy .qwen).startMarkers greetingCallText) 3 :=
  isLeast_hits (by decide +kernel)

theorem greeting_shown_without_stop :
    shownContent (runChat greetingCallDeps .qwen {} false [{ text := greetingCallText }]).events =
      takeTo greetingCallText 3 := by
  have htext : textOf [{ text := greetingCallText }] = greetingCallText := by simp [textOf]
  have hleast := isLeast_greetingCallText
  rw [← htext] at hleast ⊢
  exact (content_before_tool_call_iff greetingCallDeps rfl false (by decide) (by simp [hits]) hleast
    (by decide +kernel)).2 (released_of_short_stops (by decide) hleast.1)

/-- A stop longer than the tool block. -/
def longStop : List Str := ["\n### Instruction: go on with the next user turn".toList]

/-- The greeting is held back for the stop when the block ends, and never shown. -/
theorem greeting_lost :
    deferredOf .qwen ({ stop := longStop } : ChatRequest Unit) = .none ∧
      hits longStop greetingCallText = ∅ ∧
      IsLeast (hits (toolMarkupPolicy .qwen).startMarkers greetingCallText) 3 ∧
      (runChat greetingCallDeps .qwen { stop := longStop } false
        [{ text := greetingCallText }]).result = .ok () ∧
      shownContent (runChat greetingCallDeps .qwen { stop := longStop } false
        [{ text := greetingCallText }]).events ≠ takeTo greetingCallText 3 :=
  ⟨by decide, hits_eq_empty (by decide +kernel), isLeast_greetingCallText, by decide +kernel,
    by decide +kernel⟩

end KirAi.Runtime
