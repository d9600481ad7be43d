/-
# Tool markup in a growing text

`adapters.rs`: the markers between which a model family writes its tool calls, and the
state that follows them over the chunks of a stream (`ToolMarkupStreamState`): where the
first start marker is, up to where the last end marker reaches, and how far the text can
be shown without showing a part of a start marker (`safeEmitLen`).

As for stop sequences, the incremental search is the full scan (`Tracks.observe`). What
can be shown ends before every start marker, in the text so far and in every text it may
grow to (`Tracks.safeEmitLen_le`).

Key definitions:
* `ModelFamily`, `ToolMarkupMarkers`, `ToolMarkupPolicy`, `toolMarkupPolicy`
* `ToolMarkupStreamState`, `ToolMarkupStreamState.observe`, `safeEmitLen`
* `Tracks`, `Completes`: the state after the text read so far

Key theorems:
* `Tracks.observe`, `Tracks.safeEmitLen_le`, `Tracks.isBoundary_safeEmitLen`
* `Completes.observe`, `marker_tracking_exact`
-/
import KirAi.Runtime.Stop

namespace KirAi.Runtime

open Lib Lib.Text

inductive ModelFamily
  | qwen
  | deepSeek
  | gemma
  | llama
deriving DecidableEq, Repr

structure ToolMarkupMarkers where
  startMarker : Str
  endMarker : Str
deriving DecidableEq, Repr

def jsonToolMarkers : List ToolMarkupMarkers := [⟨"<tool_call>".toList, "</tool_call>".toList⟩]

def deepseekToolMarkers : List ToolMarkupMarkers :=
  [⟨"<｜tool▁calls▁begin｜>".toList, "<｜tool▁calls▁end｜>".toList⟩,
    ⟨"<dsml_tool_call>".toList, "</dsml_tool_call>".toList⟩]

def gemmaToolMarkers : List ToolMarkupMarkers := [⟨"<|tool_call>".toList, "<tool_call|>".toList⟩]

structure ToolMarkupPolicy where
  markers : List ToolMarkupMarkers
deriving DecidableEq, Repr

def toolMarkupPolicy : ModelFamily → ToolMarkupPolicy
  | .qwen => ⟨jsonToolMarkers⟩
  | .llama => ⟨jsonToolMarkers⟩
  | .deepSeek => ⟨deepseekToolMarkers⟩
  | .gemma => ⟨gemmaToolMarkers⟩

namespace ToolMarkupPolicy

variable (policy : ToolMarkupPolicy)

def startMarkers : List Str := policy.markers.map (·.startMarker)

def endMarkers : List Str := policy.markers.map (·.endMarker)

def findStartFrom (content : Str) (searchStart : ℕ) : Option ℕ :=
  earliestFrom policy.startMarkers content searchStart

def containsStart (content : Str) : Bool := (policy.findStartFrom content 0).isSome

def latestCompletedPrefixFrom (content : Str) (searchStart : ℕ) : Option ℕ :=
  (policy.markers.filterMap fun markers =>
    (rfind markers.endMarker (dropTo content searchStart)).map
      (searchStart + · + len markers.endMarker)).max?

/-- The lengths of the beginnings of a start marker that the text ends with. -/
def withheldLens (content : Str) (markers : ToolMarkupMarkers) : List ℕ :=
  (List.range' 1 (len markers.startMarker - 1)).filter fun prefixLen =>
    isBoundary markers.startMarker prefixLen &&
      (takeTo markers.startMarker prefixLen).isSuffixOf content

def withheldStartPrefixLen (content : Str) : ℕ :=
  ((policy.markers.flatMap (withheldLens content)).max?).getD 0

end ToolMarkupPolicy

structure ToolMarkupStreamState where
  policy : ToolMarkupPolicy
  firstStart : Option ℕ
  completedPrefixLen : Option ℕ
  previousLen : ℕ
  maxStartMarkerLen : ℕ
  maxEndMarkerLen : ℕ
deriving DecidableEq, Repr

def ToolMarkupPolicy.streamState (policy : ToolMarkupPolicy) : ToolMarkupStreamState where
  policy := policy
  firstStart := none
  completedPrefixLen := none
  previousLen := 0
  maxStartMarkerLen := maxStopSequenceLen policy.startMarkers
  maxEndMarkerLen := maxStopSequenceLen policy.endMarkers

namespace ToolMarkupStreamState

def observeStart (s : ToolMarkupStreamState) (content : Str) : Option ℕ :=
  match s.firstStart with
  | some start => some start
  | none =>
    let searchStart := floorBoundary content (s.previousLen - (s.maxStartMarkerLen - 1))
    s.policy.findStartFrom content searchStart

def observeEnd (s : ToolMarkupStreamState) (content : Str) : Option ℕ :=
  let searchStart := floorBoundary content (s.previousLen - (s.maxEndMarkerLen - 1))
  match s.policy.latestCompletedPrefixFrom content searchStart, s.completedPrefixLen with
  | some prefixLen, some current => some (max current prefixLen)
  | some prefixLen, none => some prefixLen
  | none, current => current

def observe (s : ToolMarkupStreamState) (content : Str) : ToolMarkupStreamState :=
  { s with
    firstStart := s.observeStart content
    completedPrefixLen := s.observeEnd content
    previousLen := len content }

def safeEmitLen (s : ToolMarkupStreamState) (content : Str) : ℕ :=
  match s.firstStart with
  | some start => start
  | none => len content - s.policy.withheldStartPrefixLen content

def containsStart (s : ToolMarkupStreamState) : Bool := s.firstStart.isSome

end ToolMarkupStreamState

/-! ### The part of a marker held back -/

section Withheld

variable {policy : ToolMarkupPolicy} {content : Str}

theorem mem_withheldLens {markers : ToolMarkupMarkers} {n : ℕ} :
    n ∈ ToolMarkupPolicy.withheldLens content markers ↔
      ∃ x y, markers.startMarker = x ++ y ∧ x ≠ [] ∧ y ≠ [] ∧ x <:+ content ∧ len x = n := by
  simp only [ToolMarkupPolicy.withheldLens, List.mem_filter, List.mem_range', Bool.and_eq_true,
    List.isSuffixOf_iff_suffix, isBoundary_iff]
  constructor
  · rintro ⟨⟨i, hi, rfl⟩, ⟨x, y, hxy, hx⟩, hsuf⟩
    have htake : takeTo markers.startMarker (1 + 1 * i) = x := by rw [hxy, ← hx, takeTo_append]
    have hlen := congrArg len hxy
    rw [len_append] at hlen
    refine ⟨x, y, hxy, ?_, ?_, htake ▸ hsuf, hx⟩
    · rintro rfl
      simp only [len_nil] at hx
      omega
    · rintro rfl
      simp only [len_nil] at hlen
      omega
  · rintro ⟨x, y, hxy, hx, hy, hsuf, rfl⟩
    have hlen := congrArg len hxy
    rw [len_append] at hlen
    have hx' : len x ≠ 0 := fun h => hx (len_eq_zero.1 h)
    have hy' : len y ≠ 0 := fun h => hy (len_eq_zero.1 h)
    refine ⟨⟨len x - 1, by omega, by omega⟩, ⟨x, y, hxy, rfl⟩, ?_⟩
    rwa [hxy, takeTo_append]

variable (policy content) in
/-- What is held back is a beginning of a marker at the end of the text, or nothing. -/
theorem withheldStartPrefixLen_marker :
    ∃ u x, content = u ++ x ∧ len x = policy.withheldStartPrefixLen content ∧
      (x = [] ∨ ∃ p ∈ policy.startMarkers, ∃ y, y ≠ [] ∧ p = x ++ y) := by
  unfold ToolMarkupPolicy.withheldStartPrefixLen
  cases h : (policy.markers.flatMap (ToolMarkupPolicy.withheldLens content)).max? with
  | none => exact ⟨content, [], by simp, rfl, .inl rfl⟩
  | some n =>
    have hmem := (List.max?_eq_some_iff.1 h).1
    obtain ⟨markers, hm, hn⟩ := List.mem_flatMap.1 hmem
    obtain ⟨x, y, hxy, -, hy, ⟨u, hu⟩, hx⟩ := mem_withheldLens.1 hn
    exact ⟨u, x, hu.symm, hx, .inr ⟨_, List.mem_map_of_mem hm, y, hy, hxy⟩⟩

theorem le_withheldStartPrefixLen {markers : ToolMarkupMarkers} {n : ℕ}
    (hm : markers ∈ policy.markers) (hn : n ∈ ToolMarkupPolicy.withheldLens content markers) :
    n ≤ policy.withheldStartPrefixLen content := by
  have hmem : n ∈ policy.markers.flatMap (ToolMarkupPolicy.withheldLens content) :=
    List.mem_flatMap.2 ⟨markers, hm, hn⟩
  unfold ToolMarkupPolicy.withheldStartPrefixLen
  cases h : (policy.markers.flatMap (ToolMarkupPolicy.withheldLens content)).max? with
  | none =>
    rw [List.max?_eq_none_iff.1 h] at hmem
    cases hmem
  | some k => exact (List.max?_eq_some_iff.1 h).2 n hmem

/-- A start marker that a later chunk completes starts where text is held back. -/
theorem withheld_of_append {t : Str} {i : ℕ} (hnone : hits policy.startMarkers content = ∅)
    (hi : i ∈ hits policy.startMarkers (content ++ t)) :
    len content - policy.withheldStartPrefixLen content ≤ i := by
  obtain ⟨p, hp, u, v, hs, rfl⟩ := hi
  obtain ⟨markers, hm, rfl⟩ := List.mem_map.1 hp
  rcases Nat.lt_or_ge (len u) (len content) with hlt | hge
  · -- the marker starts inside the text and is cut by its end
    rw [List.append_assoc] at hs
    obtain ⟨x, rfl⟩ : u <+: content :=
      prefix_of_len_le ⟨markers.startMarker ++ v, hs.symm⟩ ⟨t, rfl⟩ hlt.le
    rw [List.append_assoc] at hs
    have hxt := List.append_cancel_left hs
    have hcut : len x < len markers.startMarker := by
      by_contra hle
      obtain ⟨w, hw⟩ : markers.startMarker <+: x :=
        prefix_of_len_le ⟨v, hxt.symm⟩ ⟨t, rfl⟩ (by omega)
      have hmem : len u ∈ hits policy.startMarkers (u ++ x) :=
        ⟨_, hp, u, w, by rw [← hw, List.append_assoc], rfl⟩
      rw [hnone] at hmem
      cases hmem
    obtain ⟨y, hy⟩ : x <+: markers.startMarker :=
      prefix_of_len_le ⟨t, rfl⟩ ⟨v, hxt.symm⟩ hcut.le
    simp only [len_append] at hlt
    have hxpos : x ≠ [] := by
      rintro rfl
      simp at hlt
    have hypos : y ≠ [] := by
      rintro rfl
      rw [← hy, List.append_nil] at hcut
      omega
    have hheld : len x ∈ ToolMarkupPolicy.withheldLens (u ++ x) markers :=
      mem_withheldLens.2 ⟨x, y, hy.symm, hxpos, hypos, ⟨u, rfl⟩, rfl⟩
    have hle := le_withheldStartPrefixLen hm hheld
    rw [len_append]
    omega
  · omega

/-- While no marker starts in it, what a grown text can show does not shrink. -/
theorem shown_append_le (t : Str) :
    len content - policy.withheldStartPrefixLen content ≤
      len (content ++ t) - policy.withheldStartPrefixLen (content ++ t) := by
  obtain ⟨u, x, hux, hx, hmarker⟩ := withheldStartPrefixLen_marker policy (content ++ t)
  have hlen := congrArg len hux
  rw [len_append, len_append] at hlen
  rcases Nat.lt_or_ge (len u) (len content) with hlt | hge
  · -- what is held back begins in the old text, which then held back its part of it
    obtain ⟨y, rfl⟩ : u <+: content := prefix_of_len_le ⟨x, hux.symm⟩ ⟨t, rfl⟩ hlt.le
    rw [List.append_assoc] at hux
    have hyx : y ++ t = x := List.append_cancel_left hux
    have hy : y ≠ [] := by
      rintro rfl
      rw [List.append_nil] at hlt
      exact absurd hlt (lt_irrefl _)
    have hheld : len y ≤ policy.withheldStartPrefixLen (u ++ y) := by
      rcases hmarker with rfl | ⟨p, hp, z, hz, hpz⟩
      · exact absurd (List.append_eq_nil_iff.mp hyx).1 hy
      · obtain ⟨markers, hm, rfl⟩ := List.mem_map.1 hp
        refine le_withheldStartPrefixLen hm (mem_withheldLens.2 ⟨y, t ++ z, ?_, hy, ?_, ⟨u, rfl⟩, rfl⟩)
        · rw [hpz, ← hyx, List.append_assoc]
        · exact fun h => hz (List.append_eq_nil_iff.mp h).2
    rw [len_append] at hlen ⊢
    rw [len_append, len_append]
    omega
  · rw [len_append]
    omega

end Withheld

/-! ### The state over a stream -/

/-- A marker opens with `<` and has no other `<`. -/
def Opens (p : Str) : Prop := p.head? = some '<' ∧ '<' ∉ p.tail

instance (p : Str) : Decidable (Opens p) := inferInstanceAs (Decidable (_ ∧ _))

theorem Opens.ne_nil {p : Str} (h : Opens p) : p ≠ [] := by
  rintro rfl
  cases h.1

theorem opens_startMarkers (family : ModelFamily) :
    ∀ p ∈ (toolMarkupPolicy family).startMarkers, Opens p := by
  cases family <;> decide

/-- The earliest marker of a text stays the earliest when the text grows. -/
theorem isLeast_hits_append {ps : List Str} {T : Str} {i : ℕ} (hopen : ∀ p ∈ ps, Opens p)
    (h : IsLeast (hits ps T) i) (t : Str) : IsLeast (hits ps (T ++ t)) i := by
  refine ⟨mem_hits_append h.1 t, ?_⟩
  rintro j ⟨q, hq, hj⟩
  by_contra hlt
  obtain ⟨p, hp, hi⟩ := h.1
  have hsep := OccursAt.separate (hopen q hq).2 (hopen p hp).1 hj (hi.append t) (by omega)
  have hend := hi.end_le
  exact hlt (h.2 ⟨q, hq, hj.of_append (by omega)⟩)

/-- The first start marker of the text `T` is known, and the state is ready for more. -/
structure Tracks (markup : ToolMarkupPolicy) (T : Str) (s : ToolMarkupStreamState) : Prop where
  policy : s.policy = markup
  firstStart : s.firstStart = earliestFrom markup.startMarkers T 0
  previousLen : s.previousLen = len T
  maxStartMarkerLen : s.maxStartMarkerLen = maxStopSequenceLen markup.startMarkers

namespace Tracks

variable {markup : ToolMarkupPolicy} {T : Str} {s : ToolMarkupStreamState}

theorem streamState (hopen : ∀ p ∈ markup.startMarkers, Opens p) :
    Tracks markup [] markup.streamState where
  policy := rfl
  firstStart := by
    rw [eq_comm]
    refine (earliestFrom_eq_none_iff (isBoundary_zero _)).2 ?_
    rintro j ⟨p, hp, hocc⟩
    exact absurd (occursAt_nil.1 hocc).1 (hopen p hp).ne_nil
  previousLen := rfl
  maxStartMarkerLen := rfl

theorem noStart (h : Tracks markup T s) (hs : s.firstStart = none) :
    hits markup.startMarkers T = ∅ := by
  have hfirst := h.firstStart
  rw [hs, eq_comm] at hfirst
  exact hits_eq_empty hfirst

theorem start (h : Tracks markup T s) {i : ℕ} (hs : s.firstStart = some i) :
    IsLeast (hits markup.startMarkers T) i := by
  have hfirst := h.firstStart
  rw [hs, eq_comm] at hfirst
  exact isLeast_hits hfirst

/-- While a text grows, the state knows its first start marker. -/
theorem observe (hopen : ∀ p ∈ markup.startMarkers, Opens p) (h : Tracks markup T s) (t : Str) :
    Tracks markup (T ++ t) (s.observe (T ++ t)) := by
  refine ⟨h.policy, ?_, rfl, h.maxStartMarkerLen⟩
  show s.observeStart (T ++ t) = earliestFrom markup.startMarkers (T ++ t) 0
  unfold ToolMarkupStreamState.observeStart
  cases hs : s.firstStart with
  | none =>
    rw [h.policy, h.previousLen, h.maxStartMarkerLen]
    exact earliestFrom_append (fun p hp => len_le_maxStopSequenceLen hp) (h.noStart hs)
      (floorBoundary_le _ _) (isBoundary_floorBoundary _ _)
  | some i =>
    have hleast := isLeast_hits_append hopen (h.start hs) t
    rw [eq_comm]
    exact (earliestFrom_eq_some_iff (isBoundary_zero _)).2
      ⟨⟨hleast.1, Nat.zero_le i⟩, fun j hj => hleast.2 hj.1⟩

/-- What can be shown ends before every start marker, now or after the text has grown. -/
theorem safeEmitLen_le (hopen : ∀ p ∈ markup.startMarkers, Opens p) (h : Tracks markup T s)
    {t : Str} {i : ℕ} (hi : i ∈ hits markup.startMarkers (T ++ t)) : s.safeEmitLen T ≤ i := by
  unfold ToolMarkupStreamState.safeEmitLen
  cases hs : s.firstStart with
  | none =>
    rw [h.policy]
    exact withheld_of_append (h.noStart hs) hi
  | some start => exact (isLeast_hits_append hopen (h.start hs) t).2 hi

theorem isBoundary_safeEmitLen (h : Tracks markup T s) : isBoundary T (s.safeEmitLen T) = true := by
  unfold ToolMarkupStreamState.safeEmitLen
  cases hs : s.firstStart with
  | none =>
    obtain ⟨u, x, hux, hx, -⟩ := withheldStartPrefixLen_marker s.policy T
    refine isBoundary_iff.2 ⟨u, x, hux, ?_⟩
    have hlen := congrArg len hux
    rw [len_append] at hlen
    dsimp only
    omega
  | some start => exact isBoundary_of_mem_hits (h.start hs).1

end Tracks

/-! ### Completed blocks -/

/-- The offsets at which an end marker ends. -/
def ToolMarkupPolicy.blockEnds (policy : ToolMarkupPolicy) (content : Str) : Set ℕ :=
  {c | ∃ p ∈ policy.endMarkers, ∃ i, OccursAt p content i ∧ i + len p = c}

section Ends

variable {policy : ToolMarkupPolicy} {content : Str} {a c : ℕ}

theorem blockEnds_append (h : c ∈ policy.blockEnds content) (t : Str) :
    c ∈ policy.blockEnds (content ++ t) := by
  obtain ⟨p, hp, i, hi, hc⟩ := h
  exact ⟨p, hp, i, hi.append t, hc⟩

theorem isBoundary_of_mem_blockEnds (h : c ∈ policy.blockEnds content) :
    isBoundary content c = true := by
  obtain ⟨p, -, i, hi, rfl⟩ := h
  exact hi.isBoundary_end

/-- A marker closes with `>`. -/
def Closes (p : Str) : Prop := p.getLast? = some '>'

instance (p : Str) : Decidable (Closes p) := inferInstanceAs (Decidable (_ = _))

theorem Closes.ne_nil {p : Str} (h : Closes p) : p ≠ [] := by
  rintro rfl
  cases h

theorem closes_endMarkers (family : ModelFamily) :
    ∀ p ∈ (toolMarkupPolicy family).endMarkers, Closes p := by
  cases family <;> decide

theorem startMarkers_inner (family : ModelFamily) :
    ∀ p ∈ (toolMarkupPolicy family).startMarkers, '>' ∉ p.dropLast := by
  cases family <;> decide

/-- No block end stands in what is held back for a start marker. -/
theorem blockEnds_le_withheld (hinner : ∀ p ∈ policy.startMarkers, '>' ∉ p.dropLast)
    (hclose : ∀ p ∈ policy.endMarkers, Closes p) (hc : c ∈ policy.blockEnds content) :
    c ≤ len content - policy.withheldStartPrefixLen content := by
  obtain ⟨p, hp, i, ⟨w, v, hw, rfl⟩, rfl⟩ := hc
  obtain ⟨u, x, hux, hx, hmarker⟩ := withheldStartPrefixLen_marker policy content
  have hgt : '>' ∉ x := by
    rcases hmarker with rfl | ⟨q, hq, y, hy, rfl⟩
    · exact List.not_mem_nil
    · intro hmem
      refine hinner _ hq ?_
      rw [List.dropLast_append_of_ne_nil hy]
      exact List.mem_append_left _ hmem
  have hlen := congrArg len hux
  rw [len_append] at hlen
  by_contra hlt
  -- the last `>` of the end marker would stand in the part held back
  obtain ⟨y, hy⟩ : u <+: w ++ p :=
    prefix_of_len_le ⟨x, hux.symm⟩ ⟨v, hw.symm⟩ (by rw [len_append]; omega)
  have hyx : y ++ v = x := by
    rw [hux, ← hy, List.append_assoc] at hw
    exact (List.append_cancel_left hw).symm
  have hyne : y ≠ [] := by
    rintro rfl
    rw [List.append_nil] at hy
    rw [hy, len_append] at hlen
    omega
  have hlast : y.getLast? = some '>' := by
    have h := congrArg List.getLast? hy
    rwa [List.getLast?_append_of_ne_nil _ hyne,
      List.getLast?_append_of_ne_nil _ (hclose p hp).ne_nil, hclose p hp] at h
  refine hgt ?_
  rw [← hyx]
  exact List.mem_append_left _ (List.mem_of_getLast? hlast)

theorem mem_blockEnds_of_latest (ha : isBoundary content a = true)
    (h : policy.latestCompletedPrefixFrom content a = some c) : c ∈ policy.blockEnds content := by
  have hmem := (List.max?_eq_some_iff.1 h).1
  obtain ⟨markers, hm, hc⟩ := List.mem_filterMap.1 hmem
  obtain ⟨j, hj, rfl⟩ := Option.map_eq_some_iff.1 hc
  have hocc := (occursAt_dropTo ha).1 (rfind_eq_some_iff.1 hj).1
  exact ⟨_, List.mem_map_of_mem hm, a + j, hocc, rfl⟩

theorem le_latest (ha : isBoundary content a = true) {p : Str} (hp : p ∈ policy.endMarkers) {i : ℕ}
    (hi : OccursAt p content i) (hai : a ≤ i) :
    ∃ c, policy.latestCompletedPrefixFrom content a = some c ∧ i + len p ≤ c := by
  obtain ⟨markers, hm, rfl⟩ := List.mem_map.1 hp
  obtain ⟨j, rfl⟩ := Nat.exists_eq_add_of_le hai
  have hj := (occursAt_dropTo ha).2 hi
  cases hr : rfind markers.endMarker (dropTo content a) with
  | none => exact absurd hj (rfind_eq_none_iff.1 hr j)
  | some k =>
    have hjk : j ≤ k := (rfind_eq_some_iff.1 hr).2 hj
    have hmem : a + k + len markers.endMarker ∈ policy.markers.filterMap fun markers =>
        (rfind markers.endMarker (dropTo content a)).map (a + · + len markers.endMarker) :=
      List.mem_filterMap.2 ⟨markers, hm, by rw [hr]; rfl⟩
    unfold ToolMarkupPolicy.latestCompletedPrefixFrom
    cases hmax : (policy.markers.filterMap fun markers =>
        (rfind markers.endMarker (dropTo content a)).map (a + · + len markers.endMarker)).max? with
    | none =>
      rw [List.max?_eq_none_iff.1 hmax] at hmem
      cases hmem
    | some c =>
      have hle := (List.max?_eq_some_iff.1 hmax).2 _ hmem
      exact ⟨c, rfl, by omega⟩

end Ends

/-- The last end marker of the text `T` is known, and the state is ready for more. -/
structure Completes (markup : ToolMarkupPolicy) (T : Str) (s : ToolMarkupStreamState) : Prop where
  maxEndMarkerLen : s.maxEndMarkerLen = maxStopSequenceLen markup.endMarkers
  mem : ∀ c, s.completedPrefixLen = some c → c ∈ markup.blockEnds T
  le : ∀ c ∈ markup.blockEnds T, ∃ last, s.completedPrefixLen = some last ∧ c ≤ last

namespace Completes

variable {markup : ToolMarkupPolicy} {T : Str} {s : ToolMarkupStreamState}

theorem streamState (hne : ∀ p ∈ markup.endMarkers, p ≠ []) :
    Completes markup [] markup.streamState where
  maxEndMarkerLen := rfl
  mem := fun c hc => by cases hc
  le := by
    rintro c ⟨p, hp, i, hi, -⟩
    exact absurd (occursAt_nil.1 hi).1 (hne p hp)

/-- While a text grows, the state knows its last end marker. -/
theorem observe (htracks : Tracks markup T s) (h : Completes markup T s) (t : Str) :
    Completes markup (T ++ t) (s.observe (T ++ t)) := by
  have hb := isBoundary_floorBoundary (T ++ t) (s.previousLen - (s.maxEndMarkerLen - 1))
  have hstart := floorBoundary_le (T ++ t) (s.previousLen - (s.maxEndMarkerLen - 1))
  have hend : (s.observe (T ++ t)).completedPrefixLen = s.observeEnd (T ++ t) := rfl
  refine ⟨h.maxEndMarkerLen, fun c hc => ?_, ?_⟩
  · rw [hend, ToolMarkupStreamState.observeEnd, htracks.policy] at hc
    have hnew := fun c (hc : markup.latestCompletedPrefixFrom (T ++ t) _ = some c) =>
      mem_blockEnds_of_latest hb hc
    have hold := fun c hc => blockEnds_append (h.mem c hc) t
    split at hc
    · next new current hlatest hcur =>
      rcases max_choice current new with hmax | hmax
      · rw [hmax] at hc
        exact hold c (hcur.trans hc)
      · rw [hmax] at hc
        exact hnew c (hlatest.trans hc)
    · next hlatest _ => exact hnew c (hlatest.trans hc)
    · exact hold c hc
  · rintro c ⟨p, hp, i, hi, rfl⟩
    rw [hend, ToolMarkupStreamState.observeEnd, htracks.policy]
    by_cases hin : i + len p ≤ len T
    · obtain ⟨last, hlast, hle⟩ := h.le _ ⟨p, hp, i, hi.of_append hin, rfl⟩
      rw [hlast]
      split
      · next hcur =>
        cases hcur
        exact ⟨_, rfl, hle.trans (le_max_left _ _)⟩
      · next hcur => cases hcur
      · exact ⟨last, rfl, hle⟩
    · -- the marker ends in the new text, so the search has seen it
      have hmax := len_le_maxStopSequenceLen hp
      rw [← h.maxEndMarkerLen] at hmax
      have hprev := htracks.previousLen
      obtain ⟨last, hlast, hle⟩ := le_latest hb hp hi (by omega)
      rw [hlast]
      split
      · next hcur _ =>
        cases hcur
        exact ⟨_, rfl, hle.trans (le_max_right _ _)⟩
      · next hcur _ =>
        cases hcur
        exact ⟨_, rfl, hle⟩
      · next hcur => cases hcur

end Completes

/-! ### Over any chunks -/

/-- The tables of markers of `adapters.rs`; a family without one has the empty table. -/
def markerTables : List ToolMarkupPolicy :=
  [⟨jsonToolMarkers⟩, ⟨deepseekToolMarkers⟩, ⟨gemmaToolMarkers⟩, ⟨[]⟩]

theorem opens_markerTables : ∀ markup ∈ markerTables, ∀ p ∈ markup.startMarkers, Opens p := by
  decide

theorem closes_markerTables : ∀ markup ∈ markerTables, ∀ p ∈ markup.endMarkers, Closes p := by
  decide

/-- The text of some chunks and the state after they were observed one by one. -/
def observeChunks (markup : ToolMarkupPolicy) (chunks : List Str) : Str × ToolMarkupStreamState :=
  chunks.foldl (fun seen chunk => (seen.1 ++ chunk, seen.2.observe (seen.1 ++ chunk)))
    ([], markup.streamState)

theorem observeChunks_concat (markup : ToolMarkupPolicy) (chunks : List Str) (chunk : Str) :
    observeChunks markup (chunks ++ [chunk]) =
      ((observeChunks markup chunks).1 ++ chunk,
        (observeChunks markup chunks).2.observe ((observeChunks markup chunks).1 ++ chunk)) := by
  rw [observeChunks, List.foldl_append]
  rfl

theorem observeChunks_text (markup : ToolMarkupPolicy) (chunks : List Str) :
    (observeChunks markup chunks).1 = chunks.flatten := by
  induction chunks using List.reverseRecOn with
  | nil => rfl
  | append_singleton chunks chunk ih =>
    rw [observeChunks_concat, ih, List.flatten_append, List.flatten_singleton]

theorem observeChunks_tracks {markup : ToolMarkupPolicy} (h : markup ∈ markerTables)
    (chunks : List Str) :
    Tracks markup chunks.flatten (observeChunks markup chunks).2 ∧
      Completes markup chunks.flatten (observeChunks markup chunks).2 := by
  induction chunks using List.reverseRecOn with
  | nil =>
    exact ⟨.streamState (opens_markerTables markup h),
      .streamState fun p hp => (closes_markerTables markup h p hp).ne_nil⟩
  | append_singleton chunks chunk ih =>
    rw [observeChunks_concat, observeChunks_text, List.flatten_append, List.flatten_singleton]
    exact ⟨ih.1.observe (opens_markerTables markup h) chunk, ih.2.observe ih.1 chunk⟩

/-- The last end marker that a state knows is the last of the text. -/
theorem Completes.isGreatest_iff {markup : ToolMarkupPolicy} {T : Str} {s : ToolMarkupStreamState}
    (h : Completes markup T s) (c : ℕ) :
    s.completedPrefixLen = some c ↔ IsGreatest (markup.blockEnds T) c := by
  constructor
  · intro hc
    refine ⟨h.mem c hc, fun d hd => ?_⟩
    obtain ⟨last, hlast, hle⟩ := h.le d hd
    rw [hc, Option.some.injEq] at hlast
    exact hlast ▸ hle
  · intro hc
    obtain ⟨last, hlast, hle⟩ := h.le c hc.1
    rw [hlast, le_antisymm (hc.2 (h.mem last hlast)) hle]

/-- The full scan for the last end marker. -/
theorem latestCompletedPrefixFrom_eq_some_iff {markup : ToolMarkupPolicy} {T : Str} (c : ℕ) :
    markup.latestCompletedPrefixFrom T 0 = some c ↔ IsGreatest (markup.blockEnds T) c := by
  have hle : ∀ d ∈ markup.blockEnds T, ∃ last,
      markup.latestCompletedPrefixFrom T 0 = some last ∧ d ≤ last := by
    rintro d ⟨p, hp, i, hi, rfl⟩
    exact le_latest (isBoundary_zero T) hp hi (Nat.zero_le i)
  constructor
  · intro hc
    refine ⟨mem_blockEnds_of_latest (isBoundary_zero T) hc, fun d hd => ?_⟩
    obtain ⟨last, hlast, hdl⟩ := hle d hd
    rw [hc, Option.some.injEq] at hlast
    exact hlast ▸ hdl
  · intro hc
    obtain ⟨last, hlast, hdl⟩ := hle c hc.1
    rw [hlast, le_antisymm (hc.2 (mem_blockEnds_of_latest (isBoundary_zero T) hlast)) hdl]

/-- After any chunks the state knows the first start marker and the last end marker of their
text, as the full scans do. What it lets out is a whole number of characters, does not shrink
while no marker starts, and ends before every start marker that the text may grow to. -/
theorem marker_tracking_exact (markup : ToolMarkupPolicy) (h : markup ∈ markerTables)
    (chunks : List Str) (next : Str) :
    let s := (observeChunks markup chunks).2
    let s' := (observeChunks markup (chunks ++ [next])).2
    let T := chunks.flatten
    s.firstStart = markup.findStartFrom T 0 ∧
      (∀ i, s.firstStart = some i ↔ IsLeast (hits markup.startMarkers T) i) ∧
      s.completedPrefixLen = markup.latestCompletedPrefixFrom T 0 ∧
      (∀ c, s.completedPrefixLen = some c ↔ IsGreatest (markup.blockEnds T) c) ∧
      isBoundary T (s.safeEmitLen T) = true ∧
      (s'.firstStart = none → s.safeEmitLen T ≤ s'.safeEmitLen (T ++ next)) ∧
      ∀ i ∈ hits markup.startMarkers (T ++ next), s.safeEmitLen T ≤ i := by
  intro s s' T
  obtain ⟨htracks, hcompletes⟩ := observeChunks_tracks h chunks
  have htracks' : Tracks markup (T ++ next) s' := by
    have ht := (observeChunks_tracks h (chunks ++ [next])).1
    rwa [List.flatten_append, List.flatten_singleton] at ht
  have hopen := opens_markerTables markup h
  refine ⟨htracks.firstStart, fun i => ⟨htracks.start, fun hi => ?_⟩, ?_, hcompletes.isGreatest_iff,
    htracks.isBoundary_safeEmitLen, fun hnone => ?_, fun i hi => htracks.safeEmitLen_le hopen hi⟩
  · rw [htracks.firstStart]
    exact (earliestFrom_eq_some_iff (isBoundary_zero _)).2
      ⟨⟨hi.1, Nat.zero_le i⟩, fun j hj => hi.2 hj.1⟩
  · refine Option.ext fun c => ?_
    rw [hcompletes.isGreatest_iff c, latestCompletedPrefixFrom_eq_some_iff c]
  · -- the shorter text has no start marker either
    have hfirst : s.firstStart = none := by
      cases hs : s.firstStart with
      | none => rfl
      | some i =>
        have hmem := mem_hits_append (htracks.start hs).1 next
        rw [htracks'.noStart hnone] at hmem
        cases hmem
    rw [ToolMarkupStreamState.safeEmitLen, ToolMarkupStreamState.safeEmitLen, hfirst, hnone,
      htracks.policy, htracks'.policy]
    exact shown_append_le next

/-- A marker cut in its middle is held back, and found when it is complete. -/
theorem marker_tracking_exact_split :
    (observeChunks ⟨jsonToolMarkers⟩ ["hello <to".toList]).2.safeEmitLen "hello <to".toList = 6 ∧
      (observeChunks ⟨jsonToolMarkers⟩ (["hello <to".toList] ++ ["ol_call>".toList])).2.firstStart =
        some 6 ∧
      ∀ i ∈ hits (⟨jsonToolMarkers⟩ : ToolMarkupPolicy).startMarkers
        ("hello <to".toList ++ "ol_call>".toList), 6 ≤ i := by
  have hshown : (observeChunks ⟨jsonToolMarkers⟩ ["hello <to".toList]).2.safeEmitLen
      "hello <to".toList = 6 := by decide
  refine ⟨hshown, by decide, fun i hi => ?_⟩
  have h := (marker_tracking_exact ⟨jsonToolMarkers⟩ (by decide) ["hello <to".toList]
    "ol_call>".toList).2.2.2.2.2.2 i hi
  exact hshown ▸ h

end KirAi.Runtime
