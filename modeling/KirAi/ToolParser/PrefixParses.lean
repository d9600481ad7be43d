/-
# Parses of a prefix

The chat stream parses what it has of a DeepSeek output whenever a block of calls is closed,
emits the calls that are new by their number, and counts on it that the final parse begins with
the same calls and shows nothing of their markup (`StablePrefix`).

A continuation can close a reasoning block that was open, complete a tag or add a stop control.
It cannot take away a beginning of the remainder that ends with `>` (`Keeps`), and the blocks of
the calls are one. So the calls stay as long as the remainder is read in the same dialect, and
if it is read in another one, their markup becomes content (`prefix_stable_iff`).

Every character of an output is content, markup of calls or dropped (`labels`).

Key definitions: `Keeps`, `Dialect`, `labels`, `StablePrefix`.
Key theorems: `keeps_remainder`, `prefix_stable_iff`.
-/
import KirAi.ToolParser.BlockGrammar

namespace KirAi.ToolParser

open Lib Lib.Text
open KirAi.Runtime (Str ToolCall ToolCallFunction ParsedAssistant isWhitespace trim trimStart)

/-! ### Closed beginnings -/

/-- A text that ends with `>`, as every tag does. -/
def Closed (s : Str) : Prop := s.getLast? = some '>'

instance (s : Str) : Decidable (Closed s) := inferInstanceAs (Decidable (_ = _))

/-- Every closed beginning of the first text is one of the second. -/
def Keeps (s t : Str) : Prop := ∀ J, Closed J → J <+: s → J <+: t

/-- A tag that ends at its only `>`. -/
structure IsClosedTag (p : Str) : Prop extends IsTag p where
  closed : Closed p
  once : '>' ∉ p.dropLast

instance (p : Str) : Decidable (IsClosedTag p) :=
  decidable_of_iff (IsTag p ∧ Closed p ∧ '>' ∉ p.dropLast)
    ⟨fun h => ⟨h.1, h.2.1, h.2.2⟩, fun h => ⟨h.toIsTag, h.closed, h.once⟩⟩

section Closed

variable {p s t u v J : Str}

theorem Closed.append (u : Str) (hv : Closed v) : Closed (u ++ v) := by
  rw [Closed, List.getLast?_append, show v.getLast? = some '>' from hv]
  rfl

theorem keeps_append (s t : Str) : Keeps s (s ++ t) :=
  fun _ _ hJ => hJ.trans (List.prefix_append s t)

/-- A closed beginning without the tag lies in front of the tag. -/
theorem IsClosedTag.prefix_of_cut (hp : IsClosedTag p) (hclosed : Closed J) (hfree : ¬p <:+: J)
    (hJ : J <+: s) (hcut : cut p s = some (u, v)) : J <+: u := by
  obtain ⟨rfl, -⟩ := cut_eq_some_iff.1 hcut
  rw [List.append_assoc] at hJ
  rcases List.prefix_or_prefix_of_prefix hJ (List.prefix_append u (p ++ v)) with h | ⟨x, rfl⟩
  · exact h
  · have hx : x <+: p ++ v := (List.prefix_append_right_inj u).1 hJ
    rcases List.eq_nil_or_concat' x with rfl | ⟨y, a, rfl⟩
    · rw [List.append_nil]
    · -- the beginning would end inside the tag, and there is no `>` there
      obtain rfl : a = '>' := by
        rw [Closed, ← List.append_assoc, List.getLast?_concat] at hclosed
        exact Option.some.inj hclosed
      rcases List.prefix_or_prefix_of_prefix hx (List.prefix_append p v) with h | h
      · rw [← List.dropLast_append_getLast? '>' hp.closed] at h
        rcases List.prefix_concat_iff.1 h with h | h
        · refine absurd ?_ hfree
          rw [h, List.dropLast_append_getLast? '>' hp.closed]
          exact (List.suffix_append u p).isInfix
        · exact absurd (h.subset (by simp)) hp.once
      · exact absurd (h.isInfix.trans (List.suffix_append u _).isInfix) hfree

/-- What is cut at some control tokens begins with the closed beginnings without them. -/
theorem prefix_beforeStopControl_iff {tokens : List Str} (htokens : ∀ p ∈ tokens, IsClosedTag p)
    (hclosed : Closed J) :
    J <+: beforeStopControl tokens s ↔ J <+: s ∧ ∀ p ∈ tokens, ¬p <:+: J := by
  unfold beforeStopControl
  cases hmin : (tokens.filterMap (find · s)).min? with
  | none =>
    rw [Option.getD_none, takeTo_len]
    have hnone : tokens.filterMap (find · s) = [] := List.min?_eq_none_iff.1 hmin
    refine ⟨fun hJ => ⟨hJ, fun p hp hin => ?_⟩, fun h => h.1⟩
    exact find_eq_none_iff_infix.1 (List.filterMap_eq_nil_iff.1 hnone p hp) (hin.trans hJ.isInfix)
  | some i =>
    obtain ⟨hmem, hleast⟩ := List.min?_eq_some_iff.1 hmin
    obtain ⟨token, htoken, hfind⟩ := List.mem_filterMap.1 hmem
    obtain ⟨u, v, rfl, rfl, hcut⟩ := exists_cut hfind
    rw [Option.getD_some, List.append_assoc, takeTo_append, ← List.append_assoc]
    refine ⟨fun hJ => ⟨hJ.trans ⟨token ++ v, by simp⟩, fun p hp hin => ?_⟩, fun h => ?_⟩
    · obtain ⟨a, b, hab⟩ := hin.trans hJ.isInfix
      have hocc : OccursAt p (u ++ token ++ v) (len a) :=
        ⟨a, b ++ (token ++ v), by rw [← hab]; simp only [List.append_assoc], rfl⟩
      cases hp' : find p (u ++ token ++ v) with
      | none => exact find_eq_none_iff.1 hp' _ hocc
      | some j =>
        have hle := hleast j (List.mem_filterMap.2 ⟨p, hp, hp'⟩)
        have hfirst := (find_eq_some_iff.1 hp').2 hocc
        have hpos : 0 < len p := Nat.pos_of_ne_zero fun h => (htokens p hp).ne_nil (len_eq_zero.1 h)
        have hlen := congrArg len hab
        simp only [len_append] at hlen
        omega
    · exact (htokens token htoken).prefix_of_cut hclosed (h.2 token htoken) h.1 hcut

/-- No token is left in front of the first one. -/
theorem beforeStopControl_free {tokens : List Str} (htokens : ∀ p ∈ tokens, IsClosedTag p)
    (s : Str) : FreeOf tokens (beforeStopControl tokens s) := by
  rintro p hp ⟨a, b, hab⟩
  have hclosed : Closed (a ++ p) := Closed.append a (htokens p hp).closed
  have hkept := (prefix_beforeStopControl_iff htokens hclosed).1 ⟨b, hab⟩
  exact hkept.2 p hp (List.suffix_append a p).isInfix

theorem Keeps.beforeStopControl {tokens : List Str} (htokens : ∀ p ∈ tokens, IsClosedTag p)
    (h : Keeps s t) : Keeps (beforeStopControl tokens s) (beforeStopControl tokens t) := by
  intro J hclosed hJ
  rw [prefix_beforeStopControl_iff htokens hclosed] at hJ ⊢
  exact ⟨h J hclosed hJ.1, hJ.2⟩

/-- A continuation keeps what is left without the first reasoning block. -/
theorem keeps_splitBlock {start stop : Str} (hstart : IsClosedTag start) (hstop : IsTag stop)
    (P Q : Str) : Keeps (splitBlock start stop P).2 (splitBlock start stop (P ++ Q)).2 := by
  unfold splitBlock
  cases hcut : cut start P with
  | none =>
    intro J hclosed hJ
    have hfree : ¬start <:+: J := fun hin => cut_eq_none_iff_free.1 hcut (hin.trans hJ.isInfix)
    have hPQ : J <+: P ++ Q := hJ.trans (List.prefix_append P Q)
    cases hcut' : cut start (P ++ Q) with
    | none => exact hPQ
    | some r =>
      obtain ⟨before, body⟩ := r
      have hbefore := hstart.prefix_of_cut hclosed hfree hPQ hcut'
      cases hstop' : cut stop body with
      | none =>
        simp only [hstop']
        exact hbefore
      | some r =>
        simp only [hstop']
        exact hbefore.trans (List.prefix_append _ _)
  | some r =>
    obtain ⟨before, body⟩ := r
    rw [cut_append_right hstart.head hstart.tail hcut Q]
    dsimp only
    cases hstop' : cut stop body with
    | none =>
      dsimp only
      cases cut stop (body ++ Q) with
      | none => exact fun _ _ hJ => hJ
      | some r => exact keeps_append before r.2
    | some r =>
      obtain ⟨inner, after⟩ := r
      rw [cut_append_right hstop.head hstop.tail hstop' Q]
      dsimp only
      rw [← List.append_assoc]
      exact keeps_append _ Q

end Closed

/-! ### The remainder and its dialect -/

/-- The text in which calls are looked for. -/
def remainder (text : Str) : Str :=
  beforeStopControl [endOfSentence, deepseekUser]
    (stripDeepseekAssistantPrefix (splitBlock thinkStart thinkEnd text).2)

inductive Dialect
  | native
  | dsml
  | qwen
deriving DecidableEq, Repr

def Dialect.startTag : Dialect → Str
  | native => toolCallsBegin
  | dsml => dsmlStart
  | qwen => toolCallStart

/-- The dialect in which a remainder is read: the first one of which a start tag occurs. -/
def dialect (rest : Str) : Option Dialect :=
  if contains rest toolCallsBegin then some .native
  else if contains rest dsmlStart then some .dsml
  else if contains rest toolCallStart then some .qwen
  else none

/-- The parse of a remainder. -/
def parseRemainder (E : Env) (reasoning : Option Str) (rest : Str) : Parse (ParsedAssistant Json) :=
  match dialect rest with
  | some .native => parseDeepseekNativeToolCalls E reasoning rest
  | some .dsml => parseDeepseekDsmlToolCalls E reasoning rest
  | some .qwen => parseToolCalls E reasoning rest
  | none => .ok ⟨reasoning, rest, []⟩

theorem parseComplete_remainder (E : Env) (text : Str) :
    DeepSeekParser.parseComplete E text =
      parseRemainder E (splitBlock thinkStart thinkEnd text).1 (remainder text) := by
  rw [DeepSeekParser.parseComplete, splitReasoning_eq, ok_bind]
  simp only [trimDeepseekAfterStopControl, trimAfterStopControl_eq, ok_bind]
  rw [← remainder, parseRemainder, dialect]
  split
  · rfl
  · split
    · rfl
    · split <;> rfl

/-- The assistant marker in front of a text, if it is there. -/
def lead (rest : Str) : Str := if startsWith rest deepseekAssistant then deepseekAssistant else []

theorem lead_append_strip (rest : Str) : lead rest ++ stripDeepseekAssistantPrefix rest = rest := by
  unfold lead stripDeepseekAssistantPrefix
  by_cases h : startsWith rest deepseekAssistant = true
  · obtain ⟨v, rfl⟩ := startsWith_iff.1 h
    rw [if_pos h, stripPrefix_append]
    rfl
  · rw [if_neg h, stripPrefix_eq_none (by simpa using h)]
    rfl

section Lead

variable {X Y J : Str}

/-- Kept beginnings stand behind the same marker. -/
theorem Keeps.lead_eq (h : Keeps X Y) (hclosed : Closed J)
    (hJ : J <+: stripDeepseekAssistantPrefix X) : lead Y = lead X := by
  have hfull : lead X ++ J <+: X := by
    have hwhole := (List.prefix_append_right_inj (lead X)).2 hJ
    rwa [lead_append_strip] at hwhole
  have hkept : lead X ++ J <+: Y := h _ (hclosed.append _) hfull
  unfold lead at hfull hkept ⊢
  by_cases hX : startsWith X deepseekAssistant = true
  · rw [if_pos hX] at hkept ⊢
    rw [if_pos (startsWith_iff.2 ((List.prefix_append _ _).trans hkept))]
  · rw [if_neg hX, List.nil_append] at hfull hkept
    rw [if_neg hX, if_neg]
    intro hY
    -- the beginning would be the marker or end inside it
    rcases List.prefix_or_prefix_of_prefix hkept (startsWith_iff.1 hY) with hin | hin
    · have htag : IsClosedTag deepseekAssistant := by decide
      have hlast : deepseekAssistant = deepseekAssistant.dropLast ++ ['>'] := by decide
      rw [hlast] at hin
      rcases List.prefix_concat_iff.1 hin with heq | hshort
      · rw [← hlast] at heq
        exact hX (startsWith_iff.2 (heq ▸ hfull))
      · refine htag.once (hshort.subset ?_)
        exact List.mem_of_getLast? hclosed
    · exact hX (startsWith_iff.2 (hin.trans hfull))

theorem Keeps.strip (h : Keeps X Y) :
    Keeps (stripDeepseekAssistantPrefix X) (stripDeepseekAssistantPrefix Y) := by
  intro J hclosed hJ
  have hlead := h.lead_eq hclosed hJ
  have hfull : lead X ++ J <+: lead X ++ stripDeepseekAssistantPrefix X :=
    (List.prefix_append_right_inj (lead X)).2 hJ
  rw [lead_append_strip] at hfull
  have hkept := h _ (hclosed.append _) hfull
  rw [← lead_append_strip Y, hlead] at hkept
  exact (List.prefix_append_right_inj (lead X)).1 hkept

end Lead

theorem stopControls_closed : ∀ p ∈ [endOfSentence, deepseekUser], IsClosedTag p := by
  simp only [List.forall_mem_cons, List.not_mem_nil, false_implies, implies_true, and_true]
  exact ⟨by decide, by decide⟩

theorem remainder_free (text : Str) : FreeOf [endOfSentence, deepseekUser] (remainder text) :=
  beforeStopControl_free stopControls_closed _

/-- A continuation keeps the closed beginnings of the remainder. -/
theorem keeps_remainder (P Q : Str) : Keeps (remainder P) (remainder (P ++ Q)) :=
  (keeps_splitBlock (by decide) (by decide) P Q).strip.beforeStopControl stopControls_closed

/-- How early a dialect is looked for. -/
def Dialect.rank : Dialect → ℕ
  | native => 0
  | dsml => 1
  | qwen => 2

theorem Dialect.rank_injective {d d' : Dialect} (h : d.rank = d'.rank) : d = d' := by
  cases d <;> cases d' <;> first | rfl | cases h

theorem dialect_some {rest : Str} {d : Dialect} (h : dialect rest = some d) :
    d.startTag <:+: rest ∧ ∀ d' : Dialect, d'.rank < d.rank → ¬d'.startTag <:+: rest := by
  unfold dialect at h
  by_cases hnative : contains rest toolCallsBegin = true
  · rw [if_pos hnative] at h
    obtain rfl := Option.some.inj h
    exact ⟨contains_iff.1 hnative, fun d' hd' => absurd hd' (Nat.not_lt_zero _)⟩
  · rw [if_neg hnative] at h
    have hnonative := mt contains_iff.2 hnative
    by_cases hdsml : contains rest dsmlStart = true
    · rw [if_pos hdsml] at h
      obtain rfl := Option.some.inj h
      refine ⟨contains_iff.1 hdsml, fun d' hd' => ?_⟩
      cases d' with
      | native => exact hnonative
      | dsml => exact absurd hd' (lt_irrefl _)
      | qwen => exact absurd hd' (by decide)
    · rw [if_neg hdsml] at h
      have hnodsml := mt contains_iff.2 hdsml
      by_cases hqwen : contains rest toolCallStart = true
      · rw [if_pos hqwen] at h
        obtain rfl := Option.some.inj h
        refine ⟨contains_iff.1 hqwen, fun d' hd' => ?_⟩
        cases d' with
        | native => exact hnonative
        | dsml => exact hnodsml
        | qwen => exact absurd hd' (lt_irrefl _)
      · rw [if_neg hqwen] at h
        cases h

/-- A text with a start tag is read in the dialect of the tag or one that is looked for before. -/
theorem dialect_of_startTag {rest : Str} {d : Dialect} (h : d.startTag <:+: rest) :
    ∃ d', dialect rest = some d' ∧ d'.rank ≤ d.rank := by
  unfold dialect
  split
  · exact ⟨.native, rfl, Nat.zero_le _⟩
  · next hnative =>
    split
    · refine ⟨.dsml, rfl, ?_⟩
      cases d with
      | native => exact absurd (contains_iff.2 h) hnative
      | dsml => exact le_refl _
      | qwen => decide
    · next hdsml =>
      cases d with
      | native => exact absurd (contains_iff.2 h) hnative
      | dsml => exact absurd (contains_iff.2 h) hdsml
      | qwen =>
        rw [if_pos (contains_iff.2 (show toolCallStart <:+: rest from h))]
        exact ⟨.qwen, rfl, le_refl _⟩

/-! ### Blocks of a text that goes on -/

section Blocks

variable {start stop : Str}

theorem joinBlocks_cons (b : Str × Str) (blocks : List (Str × Str)) (t : Str) :
    joinBlocks start stop (b :: blocks) t =
      b.1 ++ (start ++ b.2 ++ stop ++ joinBlocks start stop blocks t) := by
  simp only [joinBlocks, List.flatMap_cons, List.append_assoc]

/-- A text whose blocks are all closed is joined from them. -/
theorem blocksOf_joins (hstart : IsTag start) (hstop : IsTag stop) :
    ∀ {n : ℕ} {rest : Str} {blocks : List (Str × Str)} {tail : Str}, rest.length < n →
      blocksOf start stop rest = ⟨blocks, some tail⟩ →
      rest = joinBlocks start stop blocks tail ∧
        (∀ b ∈ blocks, ¬start <:+: b.1 ∧ ¬stop <:+: b.2) ∧ ¬start <:+: tail
  | n + 1, rest, blocks, tail, hn, h => by
    rw [blocksOf_eq hstart.ne_nil hstop.ne_nil] at h
    cases hcut : cut start rest with
    | none =>
      rw [hcut] at h
      obtain ⟨rfl, htail⟩ := BlockList.mk.inj h
      obtain rfl := Option.some.inj htail
      exact ⟨rfl, fun b hb => (by cases hb), cut_eq_none_iff_free.1 hcut⟩
    | some r =>
      obtain ⟨before, after⟩ := r
      have hlt := length_lt_of_cut hstart.ne_nil hcut
      rw [hcut] at h
      dsimp only at h
      cases hcut' : cut stop after with
      | none =>
        rw [hcut'] at h
        cases h
      | some r =>
        obtain ⟨inner, rest'⟩ := r
        have hlt' := length_lt_of_cut hstop.ne_nil hcut'
        rw [hcut'] at h
        obtain ⟨hblocks, htail⟩ := BlockList.mk.inj h
        have hn' : rest'.length < n := by omega
        obtain ⟨hrest, hparts, hafter⟩ := blocksOf_joins hstart hstop hn'
          (show blocksOf start stop rest' = ⟨(blocksOf start stop rest').blocks, some tail⟩ by
            rw [← htail])
        rw [← hblocks]
        refine ⟨?_, ?_, hafter⟩
        · obtain ⟨rfl, -⟩ := cut_eq_some_iff.1 hcut
          obtain ⟨rfl, -⟩ := cut_eq_some_iff.1 hcut'
          rw [joinBlocks_cons, ← hrest]
          simp only [List.append_assoc]
        · intro b hb
          rcases List.mem_cons.1 hb with rfl | hb
          · exact ⟨hstart.infix_cut hcut, hstop.infix_cut hcut'⟩
          · exact hparts b hb

/-- The blocks at the beginning of a text, and those of what follows. -/
theorem blocksOf_joined (hstart : IsTag start) (hstop : IsTag stop) (t : Str) :
    ∀ {blocks : List (Str × Str)}, (∀ b ∈ blocks, ¬start <:+: b.1 ∧ ¬stop <:+: b.2) →
      blocksOf start stop (joinBlocks start stop blocks t) =
        ⟨blocks ++ (blocksOf start stop t).blocks, (blocksOf start stop t).tail⟩
  | [], _ => rfl
  | b :: blocks, hparts => by
    obtain ⟨hbefore, hinner⟩ := hparts b (List.mem_cons_self ..)
    rw [joinBlocks_cons, blocksOf_append hstart hstop hbefore hinner,
      blocksOf_joined hstart hstop t fun b hb => hparts b (List.mem_cons_of_mem _ hb)]
    rfl

theorem joinBlocks_append (blocks : List (Str × Str)) (t : Str) :
    joinBlocks start stop blocks [] ++ t = joinBlocks start stop blocks t := by
  rw [joinBlocks, joinBlocks, List.append_nil]

theorem closed_joinBlocks (hstop : Closed stop) {blocks : List (Str × Str)} (hne : blocks ≠ []) :
    Closed (joinBlocks start stop blocks []) := by
  obtain ⟨blocks, b, rfl⟩ := List.eq_nil_or_concat' blocks |>.resolve_left hne
  rw [joinBlocks, List.append_nil, List.flatMap_append, List.flatMap_singleton]
  exact Closed.append _ (Closed.append _ (Closed.append _ hstop))

end Blocks

/-! ### What becomes of every character -/

inductive Label
  | content
  | markup
  | dropped
deriving DecidableEq, Repr

/-- One label for all of a text. -/
def allOf (l : Label) (s : Str) : List Label := List.replicate s.length l

/-- A text read block by block: texts around the blocks are content. -/
def blockLabels (start stop rest : Str) : List Label :=
  (blocksOf start stop rest).blocks.flatMap (fun b =>
      allOf .content b.1 ++ allOf .markup (start ++ b.2 ++ stop)) ++
    allOf .content ((blocksOf start stop rest).tail.getD [])

/-- A text with a native block of calls, after which space is dropped. -/
def nativeLabels (rest : Str) : List Label :=
  match cut toolCallsBegin rest with
  | none => allOf .content rest
  | some (before, tail) =>
    allOf .content before ++
      match cut toolCallsEnd tail with
      | none => allOf .dropped (toolCallsBegin ++ tail)
      | some (body, after) =>
        allOf .markup (toolCallsBegin ++ body ++ toolCallsEnd) ++
          (allOf .dropped (after.takeWhile isWhitespace) ++ allOf .content (trimStart after))

def dialectLabels (rest : Str) : List Label :=
  match dialect rest with
  | some .native => nativeLabels rest
  | some .dsml => blockLabels dsmlStart dsmlEnd rest
  | some .qwen => blockLabels toolCallStart toolCallEnd rest
  | none => allOf .content rest

/-- The labels of what is left without the reasoning. -/
def restLabels (rest : Str) : List Label :=
  let body := stripDeepseekAssistantPrefix rest
  let shown := beforeStopControl [endOfSentence, deepseekUser] body
  allOf .dropped (lead rest) ++ dialectLabels shown ++ allOf .dropped (body.drop shown.length)

/-- Where the reasoning with its tags begins, and how long it is. -/
def reasoningAt (text : Str) : ℕ × ℕ :=
  match cut thinkStart text with
  | none => (text.length, 0)
  | some (before, body) =>
    match cut thinkEnd body with
    | none => (before.length, (thinkStart ++ body).length)
    | some (inner, _) => (before.length, (thinkStart ++ inner ++ thinkEnd).length)

/-- What becomes of every character of an output. -/
def labels (text : Str) : List Label :=
  let found := reasoningAt text
  let rest := restLabels (splitBlock thinkStart thinkEnd text).2
  rest.take found.1 ++ List.replicate found.2 .dropped ++ rest.drop found.1

/-- The characters of a text with a label. -/
def picked (l : Label) (s : Str) (ls : List Label) : Str :=
  ((s.zip ls).filter (·.2 == l)).map Prod.fst

section Picked

variable {l m : Label} {s t : Str} {ls ms : List Label}

theorem length_allOf (l : Label) (s : Str) : (allOf l s).length = s.length :=
  List.length_replicate

theorem picked_append (h : s.length = ls.length) :
    picked l (s ++ t) (ls ++ ms) = picked l s ls ++ picked l t ms := by
  rw [picked, List.zip_append h, List.filter_append, List.map_append]
  rfl

theorem picked_allOf (l : Label) : ∀ s : Str, picked l s (allOf l s) = s
  | [] => rfl
  | c :: s => by
    have ih := picked_allOf l s
    simp only [picked, allOf, List.length_cons, List.replicate_succ, List.zip_cons_cons] at ih ⊢
    rw [List.filter_cons_of_pos (by simp), List.map_cons, ih]

theorem picked_other (h : m ≠ l) : ∀ s : Str, picked l s (allOf m s) = []
  | [] => rfl
  | c :: s => by
    have ih := picked_other h s
    simp only [picked, allOf, List.length_cons, List.replicate_succ, List.zip_cons_cons] at ih ⊢
    rwa [List.filter_cons_of_neg (by simpa using h)]

end Picked

section Blocks

variable {start stop : Str}

/-- The labels of blocks and the texts before them. -/
def joinLabels (start stop : Str) (blocks : List (Str × Str)) : List Label :=
  blocks.flatMap fun b => allOf .content b.1 ++ allOf .markup (start ++ b.2 ++ stop)

theorem length_joinLabels : ∀ blocks : List (Str × Str),
    (joinLabels start stop blocks).length = (joinBlocks start stop blocks []).length
  | [] => rfl
  | b :: blocks => by
    have ih := length_joinLabels blocks
    rw [joinBlocks_cons, joinLabels, List.flatMap_cons, ← joinLabels]
    simp only [List.length_append, length_allOf, ih]
    omega

theorem picked_joinLabels : ∀ blocks : List (Str × Str),
    picked .content (joinBlocks start stop blocks []) (joinLabels start stop blocks) =
      blocks.flatMap (·.1)
  | [] => rfl
  | b :: blocks => by
    have ih := picked_joinLabels blocks
    rw [joinBlocks_cons, joinLabels, List.flatMap_cons, ← joinLabels,
      List.append_assoc (allOf .content b.1), picked_append (length_allOf _ _).symm, picked_append (length_allOf _ _).symm,
      picked_allOf, picked_other (by decide), ih, List.flatMap_cons]
    rfl

/-- What the loop over the blocks answers, by the blocks. -/
theorem parseBlocks_ok {unterminated : String} {parseCall : Str → ℕ → Parse (ToolCall Json)}
    {rest content : Str} {calls : List (ToolCall Json)} (hstart : start ≠ []) (hstop : stop ≠ [])
    (h : parseBlocks start stop unterminated parseCall (rest.length + 1) rest [] [] =
      .ok (content, calls)) :
    ∃ blocks tail, blocksOf start stop rest = ⟨blocks, some tail⟩ ∧
      parseEach parseCall 0 blocks = .ok calls ∧ content = blocks.flatMap (·.1) ++ tail := by
  rw [parseBlocks_eq hstart hstop (Nat.lt_succ_self _)] at h
  obtain ⟨found, hfound, h⟩ := bind_eq_ok.1 h
  cases htail : (blocksOf start stop rest).tail with
  | none =>
    rw [htail] at h
    cases h
  | some tail =>
    rw [htail] at h
    obtain ⟨hcontent, hcalls⟩ := Prod.mk.inj (Except.ok.inj h)
    rw [List.nil_append] at hcontent hcalls
    refine ⟨_, tail, ?_, hcalls ▸ hfound, hcontent.symm⟩
    rw [← htail]

end Blocks

/-- The native form, by cuts, of a text without stop controls. -/
theorem parseDeepseekNativeToolCalls_ok {E : Env} {reasoning : Option Str} {rest before tail : Str}
    {parsed : ParsedAssistant Json} (hfree : FreeOf [endOfSentence, deepseekUser] rest)
    (hcut : cut toolCallsBegin rest = some (before, tail))
    (h : parseDeepseekNativeToolCalls E reasoning rest = .ok parsed) :
    ∃ body after, cut toolCallsEnd tail = some (body, after) ∧
      parseDeepseekNativeBody E body = .ok parsed.toolCalls ∧
      parsed.content = before ++ trimStart after := by
  rw [parseDeepseekNativeToolCalls] at h
  cases hstart : find toolCallsBegin rest with
  | none =>
    rw [cut_eq_none_iff.2 hstart] at hcut
    cases hcut
  | some i =>
    obtain ⟨u, v, rfl, rfl, hcut', hbefore, htail⟩ := slices_of_find hstart
    rw [hcut'] at hcut
    obtain ⟨rfl, rfl⟩ := Prod.mk.inj (Option.some.inj hcut)
    rw [hstart] at h
    simp only [hbefore, htail, ok_bind] at h
    cases hend : find toolCallsEnd v with
    | none =>
      rw [hend] at h
      cases h
    | some j =>
      obtain ⟨body, after, rfl, rfl, hcutEnd, hbody, hafter⟩ :=
        slices_of_find_after (u := u) (p := toolCallsBegin) hend
      rw [hend] at h
      simp only [hbody, hafter, ok_bind, trimDeepseekAfterStopControl, trimAfterStopControl_eq] at h
      obtain ⟨calls, hcalls, h⟩ := bind_eq_ok.1 h
      obtain rfl := pure_eq_ok.1 h
      have hpart : trimStart after <:+: u ++ toolCallsBegin ++ (body ++ toolCallsEnd ++ after) :=
        (List.dropWhile_suffix _).isInfix.trans ((List.suffix_append _ after).isInfix.trans
          (List.suffix_append _ _).isInfix)
      have hstops : FreeOf [endOfSentence, deepseekUser] (trimStart after) :=
        fun p hp hin => hfree p hp (hin.trans hpart)
      refine ⟨body, after, hcutEnd, hcalls, ?_⟩
      rw [beforeStopControl_of_free hstops]
      cases hs : trimStart after with
      | nil => rfl
      | cons c s =>
        rw [List.length_cons, trimStartMatches, stripPrefix_eq_none]
        by_contra hcontra
        refine hstops endOfSentence (List.mem_cons_self ..) ?_
        rw [hs]
        exact (startsWith_iff.1 (by simpa using hcontra)).isInfix

/-- A remainder with calls is a closed beginning up to the end of the last block, with its
labels, and content and dropped space after it. -/
structure Reading (rest : Str) (parsed : ParsedAssistant Json) (J after : Str)
    (K L : List Label) : Prop where
  text : rest = J ++ after
  closed : Closed J
  labels : dialectLabels rest = K ++ L
  length : K.length = J.length
  length_after : L.length = after.length
  marked : .markup ∈ K
  unmarked : .markup ∉ L
  content : parsed.content = picked .content rest (K ++ L)

theorem not_markup_allOf {l : Label} (h : l ≠ .markup) (s : Str) : .markup ∉ allOf l s := by
  intro hmem
  exact h (List.eq_of_mem_replicate hmem).symm

section Readings

variable {rest : Str} {parsed : ParsedAssistant Json}

/-- A remainder of blocks. -/
theorem Reading.blocks {start stop tail : Str} {blocks : List (Str × Str)}
    (hstart : IsTag start) (hstop : IsClosedTag stop) (hne : blocks ≠ [])
    (hblocks : blocksOf start stop rest = ⟨blocks, some tail⟩)
    (hlabels : dialectLabels rest = blockLabels start stop rest)
    (hcontent : parsed.content = blocks.flatMap (·.1) ++ tail) :
    Reading rest parsed (joinBlocks start stop blocks []) tail (joinLabels start stop blocks)
      (allOf .content tail) where
  text := by
    rw [joinBlocks_append]
    exact (blocksOf_joins hstart hstop.toIsTag (Nat.lt_succ_self _) hblocks).1
  closed := closed_joinBlocks hstop.closed hne
  labels := by
    rw [hlabels, blockLabels, hblocks]
    rfl
  length := length_joinLabels blocks
  length_after := length_allOf _ _
  marked := by
    obtain ⟨b, blocks, rfl⟩ := List.exists_cons_of_ne_nil hne
    refine List.mem_append_left _ (List.mem_append_right _ ?_)
    refine List.mem_replicate.2 ⟨?_, rfl⟩
    have hpos := List.length_pos_of_ne_nil hstart.ne_nil
    simp only [List.length_append]
    omega
  unmarked := not_markup_allOf (by decide) tail
  content := by
    have htext := (blocksOf_joins hstart hstop.toIsTag (Nat.lt_succ_self _) hblocks).1
    rw [htext, ← joinBlocks_append, picked_append (length_joinLabels blocks).symm,
      picked_joinLabels, picked_allOf, hcontent]

/-- A remainder with a native block. -/
theorem Reading.native {before body after : Str} (hdialect : dialect rest = some .native)
    (hcut : cut toolCallsBegin rest = some (before, body ++ toolCallsEnd ++ after))
    (hcutEnd : cut toolCallsEnd (body ++ toolCallsEnd ++ after) = some (body, after))
    (hcontent : parsed.content = before ++ trimStart after) :
    Reading rest parsed (before ++ (toolCallsBegin ++ body ++ toolCallsEnd)) after
      (allOf .content before ++ allOf .markup (toolCallsBegin ++ body ++ toolCallsEnd))
      (allOf .dropped (after.takeWhile isWhitespace) ++ allOf .content (trimStart after)) := by
  have hafter : after.takeWhile isWhitespace ++ trimStart after = after :=
    List.takeWhile_append_dropWhile
  have htext : rest = before ++ (toolCallsBegin ++ body ++ toolCallsEnd) ++ after := by
    rw [(cut_eq_some_iff.1 hcut).1]
    simp only [List.append_assoc]
  have hlabels : dialectLabels rest =
      allOf .content before ++ allOf .markup (toolCallsBegin ++ body ++ toolCallsEnd) ++
        (allOf .dropped (after.takeWhile isWhitespace) ++ allOf .content (trimStart after)) := by
    rw [dialectLabels, hdialect]
    dsimp only
    rw [nativeLabels, hcut]
    dsimp only
    rw [hcutEnd]
    simp only [List.append_assoc]
  have hlength : (allOf .content before ++
      allOf .markup (toolCallsBegin ++ body ++ toolCallsEnd)).length =
        (before ++ (toolCallsBegin ++ body ++ toolCallsEnd)).length := by
    rw [List.length_append, List.length_append, length_allOf, length_allOf]
  refine ⟨htext, ?_, hlabels, hlength, ?_, ?_, ?_, ?_⟩
  · exact Closed.append _ (Closed.append _ (show Closed toolCallsEnd by decide))
  · rw [List.length_append, length_allOf, length_allOf, ← List.length_append, hafter]
  · refine List.mem_append_right _ (List.mem_replicate.2 ⟨?_, rfl⟩)
    have hpos : 0 < toolCallsBegin.length := by decide
    simp only [List.length_append]
    omega
  · rw [List.mem_append, not_or]
    exact ⟨not_markup_allOf (by decide) _, not_markup_allOf (by decide) _⟩
  · have hpicked : picked .content after (allOf .dropped (after.takeWhile isWhitespace) ++
        allOf .content (trimStart after)) = trimStart after := by
      rw [← hafter, picked_append, hafter]
      · rw [picked_other (by decide), picked_allOf, List.nil_append]
      · rw [length_allOf, hafter]
    rw [htext, picked_append hlength.symm, hpicked, picked_append (length_allOf _ _).symm,
      picked_allOf, picked_other (by decide), List.append_nil, hcontent]

end Readings

/-! ### The same calls -/

/-- The ids that are generated in another parse. -/
def Env.withIds (E : Env) (ids : ℕ → Str) : Env := { E with generatedToolCallId := ids }

/-- The calls at a place in two parses, which may differ in an id that is generated. -/
structure SameCall (E : Env) (ids : ℕ → Str) (i : ℕ) (call call' : ToolCall Json) : Prop where
  callType : call'.callType = call.callType
  function : call'.function = call.function
  id : call'.id = call.id ∨ call.id = E.generatedToolCallId i ∧ call'.id = ids i

/-- The second calls begin with the first ones. -/
def CallsBegin (E : Env) (ids : ℕ → Str) (calls calls' : List (ToolCall Json)) : Prop :=
  ∀ (i : ℕ) (call : ToolCall Json), calls[i]? = some call →
    ∃ call', calls'[i]? = some call' ∧ SameCall E ids i call call'

section Calls

variable {E : Env} {ids : ℕ → Str} {inner : Str} {i : ℕ} {call call' : ToolCall Json}

theorem toolCallId_withIds (value : Json) :
    toolCallId (E.withIds ids) value i = toolCallId E value i ∨
      toolCallId E value i = E.generatedToolCallId i ∧ toolCallId (E.withIds ids) value i = ids i := by
  unfold toolCallId
  cases (jsonGet value "id").bind Json.asStr with
  | none => exact .inr ⟨rfl, rfl⟩
  | some id =>
    by_cases hempty : id.isEmpty = true
    · exact .inr (by simp [hempty, Env.withIds])
    · exact .inl (by simp [hempty])

theorem parseDeepseekNativeCall_sameCall (h : parseDeepseekNativeCall E inner i = .ok call)
    (h' : parseDeepseekNativeCall (E.withIds ids) inner i = .ok call') :
    SameCall E ids i call call' := by
  unfold parseDeepseekNativeCall at h h'
  obtain ⟨⟨callType, rest⟩, hsep, h⟩ := bind_eq_ok.1 h
  rw [hsep, ok_bind] at h'
  by_cases htype : trim callType ≠ "function".toList
  · simp only [if_pos htype] at h
    cases h
  · simp only [if_neg htype] at h h'
    obtain ⟨⟨name, argumentsBlock⟩, hname, h⟩ := bind_eq_ok.1 h
    rw [hname] at h'
    simp only [ok_bind] at h'
    by_cases hempty : (trim name).isEmpty = true
    · simp only [if_pos hempty] at h
      cases h
    · simp only [if_neg hempty] at h h'
      obtain ⟨arguments, harguments, h⟩ := bind_eq_ok.1 h
      have harguments' : parseDeepseekMarkdownJson (E.withIds ids) (trim argumentsBlock) =
          .ok arguments := harguments
      rw [harguments'] at h'
      obtain rfl := pure_eq_ok.1 h
      obtain rfl := pure_eq_ok.1 h'
      exact ⟨rfl, rfl, .inr ⟨rfl, rfl⟩⟩

theorem parseDeepseekJsonCall_sameCall (h : parseDeepseekJsonCall E inner i = .ok call)
    (h' : parseDeepseekJsonCall (E.withIds ids) inner i = .ok call') :
    SameCall E ids i call call' := by
  unfold parseDeepseekJsonCall at h h'
  obtain ⟨value, hvalue, h⟩ := bind_eq_ok.1 h
  obtain ⟨name, hname, h⟩ := bind_eq_ok.1 h
  rw [show (E.withIds ids).fromStr = E.fromStr from rfl, hvalue, ok_bind, hname] at h'
  obtain rfl := pure_eq_ok.1 h
  obtain rfl := pure_eq_ok.1 h'
  exact ⟨rfl, rfl, toolCallId_withIds value⟩

theorem parseJsonCall_sameCall (h : parseJsonCall E inner i = .ok call)
    (h' : parseJsonCall (E.withIds ids) inner i = .ok call') : SameCall E ids i call call' := by
  unfold parseJsonCall at h h'
  obtain ⟨value, hvalue, h⟩ := bind_eq_ok.1 h
  obtain ⟨name, hname, h⟩ := bind_eq_ok.1 h
  obtain ⟨arguments, harguments, h⟩ := bind_eq_ok.1 h
  have harguments' : argumentsOr (E.withIds ids) (((jsonGet value "arguments").orElse
      fun _ => jsonGet value "parameters").orElse fun _ => jsonGet value "args") =
        .ok arguments := harguments
  rw [show (E.withIds ids).fromStr = E.fromStr from rfl, hvalue, ok_bind, hname, ok_bind,
    harguments'] at h'
  obtain rfl := pure_eq_ok.1 h
  obtain rfl := pure_eq_ok.1 h'
  exact ⟨rfl, rfl, toolCallId_withIds value⟩

theorem parseXmlCall_sameCall (h : parseXmlCall E inner i = .ok call)
    (h' : parseXmlCall (E.withIds ids) inner i = .ok call') : SameCall E ids i call call' := by
  unfold parseXmlCall at h h'
  cases hstart : find functionStart inner with
  | none =>
    rw [hstart] at h
    cases h
  | some nameStart =>
    rw [hstart] at h h'
    dsimp only at h h'
    obtain ⟨tail, htail, h⟩ := bind_eq_ok.1 h
    rw [htail, ok_bind] at h'
    cases hgt : find ['>'] tail with
    | none =>
      rw [hgt] at h
      cases h
    | some nameEndRel =>
      rw [hgt] at h h'
      dsimp only at h h'
      obtain ⟨name, hname, h⟩ := bind_eq_ok.1 h
      rw [hname, ok_bind] at h'
      cases hend : find functionEnd inner with
      | none =>
        rw [hend] at h
        cases h
      | some functionEndAt =>
        rw [hend] at h h'
        dsimp only at h h'
        obtain ⟨params, hparams, h⟩ := bind_eq_ok.1 h
        obtain ⟨map, hmap, h⟩ := bind_eq_ok.1 h
        rw [hparams, ok_bind, hmap] at h'
        obtain rfl := pure_eq_ok.1 h
        obtain rfl := pure_eq_ok.1 h'
        exact ⟨rfl, rfl, .inr ⟨rfl, rfl⟩⟩

theorem parseQwenCall_sameCall (h : parseQwenCall E inner i = .ok call)
    (h' : parseQwenCall (E.withIds ids) inner i = .ok call') : SameCall E ids i call call' := by
  unfold parseQwenCall at h h'
  by_cases hxml : startsWith inner functionStart = true
  · rw [if_pos hxml] at h h'
    exact parseXmlCall_sameCall h h'
  · rw [if_neg hxml] at h h'
    exact parseJsonCall_sameCall (ofResult_eq_ok.1 h) (ofResult_eq_ok.1 h')

/-- The calls of some blocks, and of these and more. -/
theorem callsBegin_parseEach {f f' : Str → ℕ → Parse (ToolCall Json)}
    (hsame : ∀ inner i call call', f inner i = .ok call → f' inner i = .ok call' →
      SameCall E ids i call call')
    {blocks more : List (Str × Str)} {calls calls' : List (ToolCall Json)}
    (h : parseEach f 0 blocks = .ok calls) (h' : parseEach f' 0 (blocks ++ more) = .ok calls') :
    CallsBegin E ids calls calls' := by
  obtain ⟨hlen, hall⟩ := parseEach_ok_iff.1 h
  obtain ⟨hlen', hall'⟩ := parseEach_ok_iff.1 h'
  intro i call hcall
  have hi : i < calls.length := (List.getElem?_eq_some_iff.1 hcall).1
  have hb : blocks[i]? = some blocks[i] := List.getElem?_eq_getElem (hlen ▸ hi)
  have hi' : i < calls'.length := by
    rw [hlen', List.length_append]
    omega
  have hb' : (blocks ++ more)[i]? = some blocks[i] := by
    rw [List.getElem?_append_left (hlen ▸ hi), hb]
  have hcall' := List.getElem?_eq_getElem hi'
  have hread := hall i _ call hb hcall
  have hread' := hall' i _ _ hb' hcall'
  rw [Nat.zero_add] at hread hread'
  exact ⟨_, hcall', hsame _ _ _ _ hread hread'⟩

end Calls

/-! ### Remainders that begin alike -/

section Remainders

variable {E : Env} {ids : ℕ → Str} {reasoning : Option Str} {rest : Str}
  {parsed : ParsedAssistant Json}

/-- What a remainder that goes on after `J` is read as, where it is read in the same dialect. -/
def ReadsOn (E : Env) (ids : ℕ → Str) (d : Dialect) (parsed : ParsedAssistant Json) (J : Str)
    (K : List Label) : Prop :=
  ∀ t reasoning whole, dialect (J ++ t) = some d → FreeOf [endOfSentence, deepseekUser] (J ++ t) →
    parseRemainder (E.withIds ids) reasoning (J ++ t) = .ok whole →
    K <+: dialectLabels (J ++ t) ∧ CallsBegin E ids parsed.toolCalls whole.toolCalls

/-- A remainder of blocks and one that goes on after them. -/
theorem readsOn_of_blocks {d : Dialect} (start stop : Str) (unterminated : String)
    (parse : Env → Str → ℕ → Parse (ToolCall Json)) (hstart : IsTag start) (hstop : IsClosedTag stop)
    (hsame : ∀ inner i call call', parse E inner i = .ok call →
      parse (E.withIds ids) inner i = .ok call' → SameCall E ids i call call')
    (hlabels : ∀ rest, dialect rest = some d → dialectLabels rest = blockLabels start stop rest)
    (hparse : ∀ (E : Env) reasoning rest, dialect rest = some d → parseRemainder E reasoning rest =
      (parseBlocks start stop unterminated (parse E) (rest.length + 1) rest [] []).bind
        fun r => .ok ⟨reasoning, r.1, r.2⟩)
    (htag : start = d.startTag) (hdialect : dialect rest = some d)
    (h : parseRemainder E reasoning rest = .ok parsed) :
    ∃ J after K L, Reading rest parsed J after K L ∧ ReadsOn E ids d parsed J K := by
  rw [hparse E reasoning rest hdialect] at h
  obtain ⟨⟨content, calls⟩, hblocks, h⟩ := bind_eq_ok.1 h
  obtain rfl := Except.ok.inj h
  obtain ⟨blocks, tail, hfound, hcalls, hcontent⟩ :=
    parseBlocks_ok hstart.ne_nil hstop.ne_nil hblocks
  have hjoin := blocksOf_joins hstart hstop.toIsTag (Nat.lt_succ_self _) hfound
  have hne : blocks ≠ [] := by
    rintro rfl
    refine hjoin.2.2 ?_
    rw [htag, ← show joinBlocks start stop [] tail = tail from rfl, ← hjoin.1]
    exact (dialect_some hdialect).1
  refine ⟨_, _, _, _, Reading.blocks hstart hstop hne hfound (hlabels rest hdialect) hcontent, ?_⟩
  intro t reasoning' whole hdialect' _ h'
  have hfound' := blocksOf_joined hstart hstop.toIsTag t hjoin.2.1
  rw [← joinBlocks_append] at hfound'
  constructor
  · rw [hlabels _ hdialect', blockLabels, hfound', List.flatMap_append, List.append_assoc]
    exact List.prefix_append _ _
  · rw [hparse _ _ _ hdialect'] at h'
    obtain ⟨⟨content', calls'⟩, hblocks', h'⟩ := bind_eq_ok.1 h'
    obtain rfl := Except.ok.inj h'
    obtain ⟨blocks', tail', hfound'', hcalls', -⟩ :=
      parseBlocks_ok hstart.ne_nil hstop.ne_nil hblocks'
    rw [hfound'] at hfound''
    obtain ⟨rfl, -⟩ := BlockList.mk.inj hfound''
    exact callsBegin_parseEach hsame hcalls hcalls'

/-- The calls of a native block do not depend on what stands around it. -/
theorem readsOn_of_native (hfree : FreeOf [endOfSentence, deepseekUser] rest)
    (hdialect : dialect rest = some .native)
    (h : parseRemainder E reasoning rest = .ok parsed) :
    ∃ J after K L, Reading rest parsed J after K L ∧ ReadsOn E ids .native parsed J K := by
  rw [parseRemainder, hdialect] at h
  dsimp only at h
  obtain ⟨before, tail, hcut⟩ : ∃ before tail, cut toolCallsBegin rest = some (before, tail) := by
    cases hcut : cut toolCallsBegin rest with
    | none => exact absurd (dialect_some hdialect).1 (cut_eq_none_iff_free.1 hcut)
    | some r => exact ⟨r.1, r.2, rfl⟩
  obtain ⟨body, after, hcutEnd, hcalls, hcontent⟩ := parseDeepseekNativeToolCalls_ok hfree hcut h
  obtain ⟨rfl, -⟩ := cut_eq_some_iff.1 hcutEnd
  have hbefore : ¬toolCallsBegin <:+: before := IsTag.infix_cut (by decide) hcut
  have hbody : ¬toolCallsEnd <:+: body := IsTag.infix_cut (by decide) hcutEnd
  refine ⟨_, _, _, _, Reading.native hdialect hcut hcutEnd hcontent, ?_⟩
  intro t reasoning' whole hdialect' hfree' h'
  have hsplit : before ++ (toolCallsBegin ++ body ++ toolCallsEnd) ++ t =
      before ++ toolCallsBegin ++ (body ++ toolCallsEnd ++ t) := by
    simp only [List.append_assoc]
  have hcut' : cut toolCallsBegin (before ++ (toolCallsBegin ++ body ++ toolCallsEnd) ++ t) =
      some (before, body ++ toolCallsEnd ++ t) := by
    rw [hsplit]
    exact IsTag.cut_append (by decide) hbefore _
  have hcutEnd' : cut toolCallsEnd (body ++ toolCallsEnd ++ t) = some (body, t) :=
    IsTag.cut_append (by decide) hbody t
  rw [parseRemainder, hdialect'] at h'
  obtain ⟨body', after', hcutEnd'', hcalls', hcontent'⟩ :=
    parseDeepseekNativeToolCalls_ok hfree' hcut' h'
  rw [hcutEnd'] at hcutEnd''
  obtain ⟨rfl, rfl⟩ := Prod.mk.inj (Option.some.inj hcutEnd'')
  constructor
  · exact ⟨_, (Reading.native hdialect' hcut' hcutEnd' hcontent').labels.symm⟩
  · unfold parseDeepseekNativeBody at hcalls hcalls'
    obtain ⟨⟨between, calls⟩, hblocks, hcalls⟩ := bind_eq_ok.1 hcalls
    obtain ⟨⟨between', calls'⟩, hblocks', hcalls'⟩ := bind_eq_ok.1 hcalls'
    rw [← pure_eq_ok.1 hcalls, ← pure_eq_ok.1 hcalls']
    obtain ⟨blocks, tail, hfound, heach, -⟩ := parseBlocks_ok (by decide) (by decide) hblocks
    obtain ⟨blocks', tail', hfound', heach', -⟩ := parseBlocks_ok (by decide) (by decide) hblocks'
    rw [hfound] at hfound'
    obtain ⟨rfl, -⟩ := BlockList.mk.inj hfound'
    rw [← List.append_nil blocks] at heach'
    refine callsBegin_parseEach (fun inner i call call' h h' => ?_) heach heach'
    exact parseDeepseekNativeCall_sameCall (ofResult_eq_ok.1 h) (ofResult_eq_ok.1 h')

theorem exists_readsOn {d : Dialect} (hfree : FreeOf [endOfSentence, deepseekUser] rest)
    (hdialect : dialect rest = some d) (h : parseRemainder E reasoning rest = .ok parsed) :
    ∃ J after K L, Reading rest parsed J after K L ∧ ReadsOn E ids d parsed J K := by
  cases d with
  | native => exact readsOn_of_native hfree hdialect h
  | dsml =>
    refine readsOn_of_blocks dsmlStart dsmlEnd "unterminated DeepSeek dsml_tool_call tag"
      (fun E inner index => ofResult (parseDeepseekJsonCall E inner index)) (by decide) (by decide)
      (fun inner i call call' h h' => ?_) (fun rest hd => ?_) (fun E r rest hd => ?_) rfl
      hdialect h
    · exact parseDeepseekJsonCall_sameCall (ofResult_eq_ok.1 h) (ofResult_eq_ok.1 h')
    · rw [dialectLabels, hd]
    · rw [parseRemainder, hd]
      rfl
  | qwen =>
    refine readsOn_of_blocks toolCallStart toolCallEnd "unterminated qwen tool_call tag"
      parseQwenCall (by decide) (by decide)
      (fun inner i call call' h h' => parseQwenCall_sameCall h h') (fun rest hd => ?_)
      (fun E r rest hd => ?_) rfl hdialect h
    · rw [dialectLabels, hd]
    · rw [parseRemainder, hd]
      rfl

/-- Everything in front of the first start tag of its dialect is content. -/
theorem content_before_startTag {d : Dialect} {before x : Str}
    (hdialect : dialect rest = some d) (hcut : cut d.startTag rest = some (before, x))
    (h : parseRemainder E reasoning rest = .ok parsed) :
    allOf .content before <+: dialectLabels rest := by
  have hblocks : ∀ {start stop : Str}, IsTag start → IsClosedTag stop →
      (blocksOf start stop rest).tail ≠ none → cut start rest = some (before, x) →
      allOf .content before <+: blockLabels start stop rest := by
    intro start stop hstart hstop htail hcut
    rw [blocksOf_eq hstart.ne_nil hstop.ne_nil, hcut] at htail
    rw [blockLabels, blocksOf_eq hstart.ne_nil hstop.ne_nil, hcut]
    dsimp only at htail ⊢
    cases hcut' : cut stop x with
    | none =>
      rw [hcut'] at htail
      exact absurd rfl htail
    | some r =>
      simp only [List.flatMap_cons, List.append_assoc]
      exact List.prefix_append _ _
  rw [parseRemainder, hdialect] at h
  rw [dialectLabels, hdialect]
  cases d with
  | native =>
    have hcut' : cut toolCallsBegin rest = some (before, x) := hcut
    dsimp only
    rw [nativeLabels, hcut']
    exact List.prefix_append _ _
  | dsml =>
    obtain ⟨r, hr, -⟩ := bind_eq_ok.1 h
    obtain ⟨blocks, tail, hfound, -⟩ := parseBlocks_ok (by decide) (by decide) hr
    exact hblocks (by decide) (by decide) (by rw [hfound]; exact nofun) hcut
  | qwen =>
    obtain ⟨r, hr, -⟩ := bind_eq_ok.1 h
    obtain ⟨blocks, tail, hfound, -⟩ := parseBlocks_ok (by decide) (by decide) hr
    exact hblocks (by decide) (by decide) (by rw [hfound]; exact nofun) hcut

/-- In another dialect the calls of a kept remainder are content. -/
theorem content_of_switched {d : Dialect} {rest' J : Str} {whole : ParsedAssistant Json}
    (hkeeps : Keeps rest rest') (hdialect : dialect rest = some d) (hne : dialect rest' ≠ some d)
    (hclosed : Closed J) (hJ : J <+: rest)
    (h' : parseRemainder E reasoning rest' = .ok whole) :
    allOf .content J <+: dialectLabels rest' := by
  obtain ⟨htag, hfirst⟩ := dialect_some hdialect
  have htag' : d.startTag <:+: rest' := by
    obtain ⟨a, b, hab⟩ := htag
    have hend : Closed (a ++ d.startTag) := Closed.append a (by cases d <;> decide)
    exact (List.suffix_append a _).isInfix.trans (hkeeps _ hend ⟨b, hab⟩).isInfix
  obtain ⟨d', hdialect', hrank⟩ := dialect_of_startTag htag'
  have hlt : d'.rank < d.rank := by
    refine lt_of_le_of_ne hrank fun heq => hne ?_
    rw [hdialect', Dialect.rank_injective heq]
  have hJfree : ¬d'.startTag <:+: J := fun hin => hfirst d' hlt (hin.trans hJ.isInfix)
  cases hcut : cut d'.startTag rest' with
  | none => exact absurd (dialect_some hdialect').1 (cut_eq_none_iff_free.1 hcut)
  | some r =>
    obtain ⟨before, x⟩ := r
    have hclosedTag : IsClosedTag d'.startTag := by cases d' <;> decide
    have hbefore := hclosedTag.prefix_of_cut hclosed hJfree (hkeeps J hclosed hJ) hcut
    obtain ⟨t, rfl⟩ := hbefore
    have hstart := content_before_startTag hdialect' hcut h'
    rw [allOf, List.length_append, ← List.replicate_append_replicate] at hstart
    exact (List.prefix_append _ _).trans hstart

/-- The labels of a remainder with an answer. -/
theorem dialectLabels_ok (hfree : FreeOf [endOfSentence, deepseekUser] rest)
    (h : parseRemainder E reasoning rest = .ok parsed) :
    (dialectLabels rest).length = rest.length ∧
      parsed.content = picked .content rest (dialectLabels rest) := by
  cases hdialect : dialect rest with
  | none =>
    rw [parseRemainder, hdialect] at h
    obtain rfl := Except.ok.inj h
    rw [dialectLabels, hdialect]
    exact ⟨length_allOf _ _, (picked_allOf _ _).symm⟩
  | some d =>
    obtain ⟨J, after, K, L, hread, -⟩ : ∃ J after K L, Reading rest parsed J after K L ∧
        ReadsOn E (fun _ => []) d parsed J K := exists_readsOn hfree hdialect h
    rw [hread.labels]
    refine ⟨?_, hread.content⟩
    rw [List.length_append, hread.length, hread.length_after, ← List.length_append, ← hread.text]

end Remainders

/-! ### Places in an output -/

/-- What is left without the first reasoning block. -/
def restOf (text : Str) : Str := (splitBlock thinkStart thinkEnd text).2

/-- Where a character of the rest stands in the output. -/
def place (text : Str) (j : ℕ) : ℕ :=
  if j < (reasoningAt text).1 then j else j + (reasoningAt text).2

/-- The rest is the output without the reasoning and its tags. -/
theorem restOf_eq (text : Str) :
    (reasoningAt text).1 + (reasoningAt text).2 ≤ text.length ∧
      restOf text = text.take (reasoningAt text).1 ++
        text.drop ((reasoningAt text).1 + (reasoningAt text).2) := by
  unfold restOf reasoningAt splitBlock
  cases hcut : cut thinkStart text with
  | none => simp
  | some r =>
    obtain ⟨before, body⟩ := r
    obtain ⟨rfl, -⟩ := cut_eq_some_iff.1 hcut
    dsimp only
    cases hcut' : cut thinkEnd body with
    | none => simp
    | some r =>
      obtain ⟨inner, after⟩ := r
      obtain ⟨rfl, -⟩ := cut_eq_some_iff.1 hcut'
      have hsplit : before ++ thinkStart ++ (inner ++ thinkEnd ++ after) =
          before ++ ((thinkStart ++ inner ++ thinkEnd) ++ after) := by
        simp only [List.append_assoc]
      dsimp only
      rw [hsplit, List.take_left, ← List.append_assoc, ← List.length_append, List.drop_left]
      refine ⟨?_, rfl⟩
      simp only [List.length_append]
      omega

section Places

variable {P Q C text : Str} {E : Env} {ids : ℕ → Str} {parsed whole : ParsedAssistant Json}

theorem place_of_lt {j : ℕ} (h : j < (reasoningAt text).1) : place text j = j :=
  if_pos h

theorem reasoningAt_of_cut {before body : Str} (h : cut thinkStart text = some (before, body)) :
    (reasoningAt text).1 = before.length := by
  rw [reasoningAt, h]
  dsimp only
  cases cut thinkEnd body <;> rfl

/-- A continuation leaves what is kept in its place. -/
theorem place_append (hC : Closed C) (h : C <+: restOf P) {j : ℕ} (hj : j < C.length) :
    place (P ++ Q) j = place P j := by
  unfold restOf splitBlock at h
  cases hcut : cut thinkStart P with
  | none =>
    rw [hcut] at h
    dsimp only at h
    have hle := h.length_le
    have hfree : ¬thinkStart <:+: C := fun hin => cut_eq_none_iff_free.1 hcut (hin.trans h.isInfix)
    have hPQ : C <+: P ++ Q := h.trans (List.prefix_append P Q)
    have hP : place P j = j := by
      refine place_of_lt ?_
      rw [reasoningAt, hcut]
      exact Nat.lt_of_lt_of_le hj hle
    rw [hP]
    refine place_of_lt ?_
    cases hcut' : cut thinkStart (P ++ Q) with
    | none =>
      rw [reasoningAt, hcut']
      exact Nat.lt_of_lt_of_le hj hPQ.length_le
    | some r =>
      have htag : IsClosedTag thinkStart := by decide
      rw [reasoningAt_of_cut hcut']
      exact Nat.lt_of_lt_of_le hj (htag.prefix_of_cut hC hfree hPQ hcut').length_le
  | some r =>
    obtain ⟨before, body⟩ := r
    have hstart : IsTag thinkStart := by decide
    have hend : IsTag thinkEnd := by decide
    have hcutQ := cut_append_right hstart.head hstart.tail hcut Q
    rw [hcut] at h
    dsimp only at h
    cases hcut' : cut thinkEnd body with
    | none =>
      rw [hcut'] at h
      have hbefore : j < before.length := Nat.lt_of_lt_of_le hj h.length_le
      have hP : place P j = j := place_of_lt (by rwa [reasoningAt_of_cut hcut])
      rw [hP]
      exact place_of_lt (by rwa [reasoningAt_of_cut hcutQ])
    | some r =>
      obtain ⟨inner, after⟩ := r
      have hsame : reasoningAt (P ++ Q) = reasoningAt P := by
        rw [reasoningAt, hcutQ, reasoningAt, hcut]
        dsimp only
        rw [hcut', cut_append_right hend.head hend.tail hcut' Q]
      rw [place, place, hsame]

theorem getElem?_spliced {R : List Label} {a n : ℕ} (ha : a ≤ R.length) (j : ℕ) :
    (R.take a ++ List.replicate n Label.dropped ++ R.drop a)[if j < a then j else j + n]? = R[j]? := by
  have hlen : (R.take a).length = a := List.length_take_of_le ha
  by_cases hj : j < a
  · rw [if_pos hj, List.append_assoc, List.getElem?_append_left (by omega), List.getElem?_take,
      if_pos hj]
  · rw [if_neg hj, List.getElem?_append_right (by simp; omega), List.getElem?_drop]
    congr 1
    simp only [List.length_append, hlen, List.length_replicate]
    omega

theorem spliced_getElem? {R : List Label} {a n i : ℕ} {l : Label} (ha : a ≤ R.length)
    (hl : l ≠ .dropped)
    (h : (R.take a ++ List.replicate n Label.dropped ++ R.drop a)[i]? = some l) :
    ∃ j, i = (if j < a then j else j + n) ∧ R[j]? = some l := by
  have hlen : (R.take a).length = a := List.length_take_of_le ha
  by_cases hi : i < a
  · refine ⟨i, (if_pos hi).symm, ?_⟩
    rwa [← getElem?_spliced (n := n) ha, if_pos hi]
  · by_cases hmid : i < a + n
    · rw [List.append_assoc, List.getElem?_append_right (by omega),
        List.getElem?_append_left (by rw [List.length_replicate]; omega)] at h
      exact absurd (List.eq_of_mem_replicate (List.mem_of_getElem? h)) hl
    · have hback : i = if i - n < a then i - n else i - n + n := by
        rw [if_neg (by omega)]
        omega
      refine ⟨i - n, hback, ?_⟩
      rw [← getElem?_spliced (n := n) ha, ← hback]
      exact h

/-- The remainder stands in the rest, behind the marker and in front of what is cut off. -/
theorem restOf_remainder (text : Str) :
    ∃ cutOff, stripDeepseekAssistantPrefix (restOf text) = remainder text ++ cutOff ∧
      restLabels (restOf text) = allOf .dropped (lead (restOf text)) ++
        (dialectLabels (remainder text) ++ allOf .dropped cutOff) := by
  have hprefix : remainder text <+: stripDeepseekAssistantPrefix (restOf text) := by
    unfold remainder beforeStopControl
    exact takeTo_isPrefix _ _
  obtain ⟨cutOff, hcutOff⟩ := hprefix
  refine ⟨cutOff, hcutOff.symm, ?_⟩
  have hdrop : (stripDeepseekAssistantPrefix (restOf text)).drop (remainder text).length =
      cutOff := by rw [← hcutOff, List.drop_left]
  rw [← hdrop, restLabels, List.append_assoc]
  rfl

/-- The labels of the rest of an output with an answer. -/
theorem restLabels_ok (h : DeepSeekParser.parseComplete E text = .ok parsed) :
    (restLabels (restOf text)).length = (restOf text).length ∧
      parsed.content = picked .content (restOf text) (restLabels (restOf text)) := by
  rw [parseComplete_remainder] at h
  obtain ⟨hlen, hcontent⟩ := dialectLabels_ok (remainder_free text) h
  obtain ⟨cutOff, hstrip, hlabels⟩ := restOf_remainder text
  have htext := lead_append_strip (restOf text)
  rw [hstrip] at htext
  have hpicked : picked .content (lead (restOf text) ++ (remainder text ++ cutOff))
      (allOf .dropped (lead (restOf text)) ++
        (dialectLabels (remainder text) ++ allOf .dropped cutOff)) =
      picked .content (remainder text) (dialectLabels (remainder text)) := by
    rw [picked_append (length_allOf _ _).symm, picked_append hlen.symm, picked_other (by decide),
      picked_other (by decide), List.nil_append, List.append_nil]
  rw [hlabels]
  refine ⟨?_, ?_⟩
  · rw [← congrArg List.length htext]
    simp only [List.length_append, length_allOf, hlen]
  · rw [hcontent, ← hpicked, htext]

theorem reasoningAt_le (text : Str) : (reasoningAt text).1 ≤ (restOf text).length := by
  obtain ⟨hle, hrest⟩ := restOf_eq text
  rw [hrest, List.length_append, List.length_take_of_le (by omega)]
  exact Nat.le_add_right _ _

/-- The labels of an output at the places of its rest. -/
theorem getElem?_labels (h : DeepSeekParser.parseComplete E text = .ok parsed) (j : ℕ) :
    (labels text)[place text j]? = (restLabels (restOf text))[j]? := by
  have hat := reasoningAt_le text
  rw [← (restLabels_ok h).1] at hat
  exact getElem?_spliced hat j

/-- What is not dropped stands in the rest. -/
theorem labels_getElem? (h : DeepSeekParser.parseComplete E text = .ok parsed) {i : ℕ} {l : Label}
    (hl : l ≠ .dropped) (hi : (labels text)[i]? = some l) :
    ∃ j, i = place text j ∧ (restLabels (restOf text))[j]? = some l := by
  have hat := reasoningAt_le text
  rw [← (restLabels_ok h).1] at hat
  exact spliced_getElem? hat hl hi

end Places

/-! ### Stable prefixes -/

/-- What the stream counts on when it has emitted the calls of `P` and the output goes on with
`Q`: the calls of the whole begin with them, and no character of their markup is content of it. -/
structure StablePrefix (E : Env) (ids : ℕ → Str) (P Q : Str) (parsed whole : ParsedAssistant Json) :
    Prop where
  calls : CallsBegin E ids parsed.toolCalls whole.toolCalls
  hidden : ∀ i : ℕ, (labels P)[i]? = some Label.markup → (labels (P ++ Q))[i]? ≠ some Label.content

section Stable

variable {P Q : Str} {E : Env} {ids : ℕ → Str} {parsed whole : ParsedAssistant Json}

/-- The labels of the rest, at the end of a beginning of the remainder. -/
theorem restLabels_prefix {text : Str} {M : List Label} (h : M <+: dialectLabels (remainder text)) :
    allOf .dropped (lead (restOf text)) ++ M <+: restLabels (restOf text) := by
  obtain ⟨cutOff, -, hlabels⟩ := restOf_remainder text
  rw [hlabels]
  exact (List.prefix_append_right_inj _).2 (h.trans (List.prefix_append _ _))

theorem getElem?_of_prefix {M R : List Label} (h : M <+: R) {j : ℕ} (hj : j < M.length) :
    R[j]? = M[j]? := by
  obtain ⟨x, rfl⟩ := h
  exact List.getElem?_append_left hj

/-- **Stable prefixes.** The calls of a prefix are the first calls of the whole output, and none
of their markup is content of it, just if the prefix has no dialect or the whole is read in the
same one. -/
theorem prefix_stable_iff (hP : DeepSeekParser.parseComplete E P = .ok parsed)
    (hPQ : DeepSeekParser.parseComplete (E.withIds ids) (P ++ Q) = .ok whole) :
    StablePrefix E ids P Q parsed whole ↔
      dialect (remainder P) = none ∨ dialect (remainder (P ++ Q)) = dialect (remainder P) := by
  have hrest := hP
  have hrest' := hPQ
  rw [parseComplete_remainder] at hrest hrest'
  cases hdialect : dialect (remainder P) with
  | none =>
    refine ⟨fun _ => .inl rfl, fun _ => ⟨?_, fun i hi => ?_⟩⟩
    · rw [parseRemainder, hdialect] at hrest
      obtain rfl := Except.ok.inj hrest
      intro i call hcall
      cases hcall
    · obtain ⟨j, -, hj⟩ := labels_getElem? hP (by decide) hi
      obtain ⟨cutOff, -, hlabels⟩ := restOf_remainder P
      rw [hlabels, dialectLabels, hdialect] at hj
      have hmem := List.mem_of_getElem? hj
      simp only [List.mem_append] at hmem
      rcases hmem with hmem | hmem | hmem
      · exact absurd hmem (not_markup_allOf (by decide) _)
      · exact absurd hmem (not_markup_allOf (by decide) _)
      · exact absurd hmem (not_markup_allOf (by decide) _)
  | some d =>
    obtain ⟨J, after, K, L, hread, hon⟩ : ∃ J after K L, Reading (remainder P) parsed J after K L ∧
        ReadsOn E ids d parsed J K := exists_readsOn (remainder_free P) hdialect hrest
    have hJ : J <+: remainder P := ⟨after, hread.text.symm⟩
    have hkeeps := keeps_remainder P Q
    obtain ⟨t, ht⟩ := hkeeps J hread.closed hJ
    obtain ⟨cutOff, hstrip, hlabels⟩ := restOf_remainder P
    have hbegins : J <+: stripDeepseekAssistantPrefix (restOf P) := by
      rw [hstrip]
      exact hJ.trans (List.prefix_append _ _)
    have hlead : lead (restOf (P ++ Q)) = lead (restOf P) :=
      (keeps_splitBlock (by decide) (by decide) P Q).lead_eq hread.closed hbegins
    -- the rest up to the end of the last block
    have hC : Closed (lead (restOf P) ++ J) := hread.closed.append _
    have hCP : lead (restOf P) ++ J <+: restOf P := by
      have hwhole := (List.prefix_append_right_inj (lead (restOf P))).2 hbegins
      rwa [lead_append_strip] at hwhole
    have hlen : (allOf .dropped (lead (restOf P)) ++ K).length = (lead (restOf P) ++ J).length := by
      rw [List.length_append, List.length_append, length_allOf, hread.length]
    have hsplit : restLabels (restOf P) =
        allOf .dropped (lead (restOf P)) ++ K ++ (L ++ allOf .dropped cutOff) := by
      rw [hlabels, hread.labels]
      simp only [List.append_assoc]
    constructor
    · intro hstable
      refine .inr ?_
      by_contra hne
      obtain ⟨k, hk, hmark⟩ := List.getElem_of_mem hread.marked
      have hcontent := restLabels_prefix
        (content_of_switched hkeeps hdialect hne hread.closed hJ hrest')
      have hj : (lead (restOf P)).length + k < (lead (restOf P) ++ J).length := by
        rw [List.length_append, ← hread.length]
        omega
      refine hstable.hidden (place P ((lead (restOf P)).length + k)) ?_ ?_
      · rw [getElem?_labels hP, hsplit, List.getElem?_append_left (hlen ▸ hj),
          List.getElem?_append_right (by rw [length_allOf]; omega), length_allOf,
          Nat.add_sub_cancel_left, List.getElem?_eq_getElem hk, hmark]
      · rw [← place_append (Q := Q) hC hCP hj, getElem?_labels hPQ, getElem?_of_prefix hcontent,
          hlead, List.getElem?_append_right (by rw [length_allOf]; omega), length_allOf,
          Nat.add_sub_cancel_left, allOf, List.getElem?_replicate, if_pos (hread.length ▸ hk)]
        rw [hlead]
        simpa only [List.length_append, length_allOf] using hj
    · rintro (hnone | hsame)
      · cases hnone
      · rw [← ht] at hrest' hsame
        have hfree' := remainder_free (P ++ Q)
        rw [← ht] at hfree'
        obtain ⟨hkeep, hcalls⟩ := hon t _ _ hsame hfree' hrest'
        refine ⟨hcalls, fun i hi => ?_⟩
        rw [ht] at hkeep
        have hkept := restLabels_prefix hkeep
        obtain ⟨j, rfl, hj⟩ := labels_getElem? hP (by decide) hi
        rw [hsplit] at hj
        have hlt : j < (allOf .dropped (lead (restOf P)) ++ K).length := by
          by_contra hge
          rw [List.getElem?_append_right (by omega)] at hj
          rcases List.mem_append.1 (List.mem_of_getElem? hj) with hmem | hmem
          · exact hread.unmarked hmem
          · exact not_markup_allOf (by decide) _ hmem
        rw [List.getElem?_append_left hlt] at hj
        rw [← place_append (Q := Q) hC hCP (hlen ▸ hlt), getElem?_labels hPQ,
          getElem?_of_prefix hkept (by rwa [hlead]), hlead, hj]
        exact nofun

end Stable

theorem exists_of_isOk {α : Type} {r : Parse α} (h : r.isOk = true) : ∃ a, r = .ok a := by
  cases r with
  | error e => cases h
  | ok a => exact ⟨a, rfl⟩

/-- A call, and the output that goes on with a text and a second call. -/
theorem greeted_call_stays :
    ∃ parsed whole, DeepSeekParser.parseComplete compactEnv greetedBlock = .ok parsed ∧
      DeepSeekParser.parseComplete (compactEnv.withIds fun _ => "call_b".toList)
        (greetedBlock ++ greetedBlock) = .ok whole ∧
      StablePrefix compactEnv (fun _ => "call_b".toList) greetedBlock greetedBlock parsed whole := by
  obtain ⟨parsed, hparsed⟩ := exists_of_isOk
    (show (DeepSeekParser.parseComplete compactEnv greetedBlock).isOk = true by decide +kernel)
  obtain ⟨whole, hwhole⟩ := exists_of_isOk
    (show (DeepSeekParser.parseComplete (compactEnv.withIds fun _ => "call_b".toList)
      (greetedBlock ++ greetedBlock)).isOk = true by decide +kernel)
  exact ⟨parsed, whole, hparsed, hwhole,
    (prefix_stable_iff hparsed hwhole).2 (.inr (by decide +kernel))⟩

/-- A native block without calls. -/
def emptyNativeBlock : Str := toolCallsBegin ++ toolCallsEnd

/-- Behind a call in the DSML dialect a native block takes the call back. -/
theorem native_block_switches :
    dsmlEnd <:+ greetedBlock ∧
      ∃ parsed whole, DeepSeekParser.parseComplete compactEnv greetedBlock = .ok parsed ∧
        DeepSeekParser.parseComplete (compactEnv.withIds fun _ => "call_b".toList)
          (greetedBlock ++ emptyNativeBlock) = .ok whole ∧
        parsed.toolCalls.length = 1 ∧ whole.toolCalls = [] ∧
        ¬StablePrefix compactEnv (fun _ => "call_b".toList) greetedBlock emptyNativeBlock parsed
          whole := by
  refine ⟨by decide +kernel, ?_⟩
  have hcount : (DeepSeekParser.parseComplete compactEnv greetedBlock).toOption.map
      (fun parsed => parsed.toolCalls.length) = some 1 := by decide +kernel
  have hnone : (DeepSeekParser.parseComplete (compactEnv.withIds fun _ => "call_b".toList)
      (greetedBlock ++ emptyNativeBlock)).toOption.map
      (fun whole => whole.toolCalls.length) = some 0 := by decide +kernel
  cases hparsed : DeepSeekParser.parseComplete compactEnv greetedBlock with
  | error e =>
    rw [hparsed] at hcount
    cases hcount
  | ok parsed =>
    cases hwhole : DeepSeekParser.parseComplete (compactEnv.withIds fun _ => "call_b".toList)
        (greetedBlock ++ emptyNativeBlock) with
    | error e =>
      rw [hwhole] at hnone
      cases hnone
    | ok whole =>
      rw [hparsed] at hcount
      rw [hwhole] at hnone
      have hone : parsed.toolCalls.length = 1 := Option.some.inj hcount
      have hempty : whole.toolCalls = [] := List.length_eq_zero_iff.1 (Option.some.inj hnone)
      refine ⟨parsed, whole, rfl, rfl, hone, hempty, fun hstable => ?_⟩
      have hfirst := List.getElem?_eq_getElem (l := parsed.toolCalls) (i := 0) (by omega)
      obtain ⟨call', hcall', -⟩ := hstable.calls 0 _ hfirst
      rw [hempty] at hcall'
      cases hcall'

end KirAi.ToolParser
