/-
# The grammar of tool-call blocks

The parsers of Qwen, Gemma and DeepSeek (in its DSML dialect) take a text apart in the same
way: what is left of it after the stop controls and the reasoning (`BlockFamily.split`) is
read as text and blocks, text and blocks, from the first start tag to the first end tag after
it. If the remainder is such an alternation (`Decomposes`) the parser answers exactly if every
body is a call for itself, with these calls in order and the texts around them as content. A
start tag without a later end tag is never accepted (`block_grammar`).

A tag starts with `<` and has it nowhere else, so no tag is made of the end of one part and
the beginning of the next, except where a reasoning block between them is taken out.

Key definitions: `BlockFamily`, `Decomposes`, `ValidBody`.
Key theorems: `IsTag.cut_past`, `blocksOf_decomposed`, `blocksOf_unterminated`, `block_grammar`.
-/
import KirAi.ToolParser.Family
import KirAi.ToolParser.Printed

namespace KirAi.ToolParser

open Lib Lib.Text
open KirAi.Runtime (Str ToolCall ToolCallFunction ParsedAssistant isWhitespace trim trimStart)

/-! ### Tags -/

/-- Neither of two tags begins with the other. -/
def Distinct (p q : Str) : Prop := ¬p <+: q ∧ ¬q <+: p

instance (p q : Str) : Decidable (Distinct p q) := inferInstanceAs (Decidable (_ ∧ _))

section Tags

variable {p q u v r : Str}

/-- A text without `<` contains no beginning of a tag. -/
theorem IsTag.infix_skip (hp : IsTag p) (hu : '<' ∉ u) : p <:+: u ++ v ↔ p <:+: v := by
  refine ⟨fun h => ?_, fun h => h.trans (List.infix_append u v [] |>.trans (by simp))⟩
  induction u with
  | nil => exact h
  | cons a u ih =>
    rw [List.mem_cons, not_or] at hu
    refine ih hu.2 ?_
    rcases List.infix_cons_iff.1 (show p <:+: a :: (u ++ v) from h) with hpre | hin
    · obtain ⟨p', rfl⟩ := List.head?_eq_some_iff.1 hp.head
      exact absurd (List.cons_prefix_cons.1 hpre).1 hu.1
    · exact hin

/-- A tag in a text and one that starts anew is in one of them. -/
theorem IsTag.infix_append (hp : IsTag p) (hv : ∀ a ∈ v.head?, a = '<') :
    p <:+: u ++ v ↔ p <:+: u ∨ p <:+: v := by
  constructor
  · rintro ⟨a, b, hab⟩
    rw [List.append_assoc] at hab
    rcases List.append_eq_append_iff.1 hab with ⟨x, rfl, hx⟩ | ⟨x, rfl, rfl⟩
    · rcases List.append_eq_append_iff.1 hx with ⟨y, rfl, -⟩ | ⟨y, rfl, rfl⟩
      · exact .inl ⟨a, y, by simp⟩
      · -- the tag reaches into the second text, which starts like a tag
        cases y with
        | nil => exact .inl ⟨a, [], by simp⟩
        | cons c y =>
          obtain rfl : c = '<' := hv c rfl
          cases x with
          | nil => exact .inr ⟨[], b, by simp⟩
          | cons d x => exact absurd (by simp) hp.tail
    · exact .inr ⟨x, b, by simp⟩
  · rintro (h | h)
    · exact h.trans ⟨[], v, by simp⟩
    · exact h.trans ⟨u, [], by simp⟩

/-- A tag is not found in another one, nor across its end. -/
theorem IsTag.infix_past (hp : IsTag p) (hq : IsTag q) (hd : Distinct p q) :
    p <:+: q ++ r ↔ p <:+: r := by
  obtain ⟨q', rfl⟩ := List.head?_eq_some_iff.1 hq.head
  have hskip : p <:+: q' ++ r ↔ p <:+: r := hp.infix_skip hq.tail
  rw [List.cons_append, List.infix_cons_iff, hskip, or_iff_right]
  intro hpre
  rcases List.prefix_or_prefix_of_prefix hpre (show '<' :: q' <+: '<' :: (q' ++ r) from ⟨r, rfl⟩) with
    h | h
  · exact hd.1 h
  · exact hd.2 h

theorem IsTag.infix_cut (hp : IsTag p) (h : cut p r = some (u, v)) : ¬p <:+: u := by
  obtain ⟨rfl, hfind⟩ := cut_eq_some_iff.1 h
  exact (find_append_iff hp.head hp.tail).1 hfind

/-- A cut at a tag goes past another tag in front. -/
theorem IsTag.cut_past (hp : IsTag p) (hq : IsTag q) (hd : Distinct p q) :
    cut p (q ++ r) = (cut p r).map fun x => (q ++ x.1, x.2) := by
  cases hcut : cut p r with
  | none =>
    have hfree := cut_eq_none_iff_free.1 hcut
    exact cut_eq_none_of_free fun h => hfree ((hp.infix_past hq hd).1 h)
  | some x =>
    obtain ⟨u, v⟩ := x
    have hfree := hp.infix_cut hcut
    obtain ⟨rfl, -⟩ := cut_eq_some_iff.1 hcut
    have h := hp.cut_append (fun h => hfree ((hp.infix_past hq hd).1 h)) v
    rwa [List.append_assoc, List.append_assoc, ← List.append_assoc u] at h

end Tags

/-! ### Texts and blocks -/

/-- Texts and blocks one after another, and a last text. -/
def joinBlocks (start stop : Str) (blocks : List (Str × Str)) (tail : Str) : Str :=
  blocks.flatMap (fun b => b.1 ++ (start ++ b.2 ++ stop)) ++ tail

section Blocks

variable {start stop : Str} (hstart : IsTag start) (hstop : IsTag stop)

include hstart hstop

/-- The blocks of a joined text are those it was joined from. -/
theorem blocksOf_decomposed : ∀ {blocks : List (Str × Str)} {tail : Str},
    (∀ b ∈ blocks, ¬start <:+: b.1 ∧ ¬stop <:+: b.2) → ¬start <:+: tail →
    blocksOf start stop (joinBlocks start stop blocks tail) = ⟨blocks, some tail⟩
  | [], tail, _, htail => blocksOf_of_free hstart hstop htail
  | b :: blocks, tail, hblocks, htail => by
    obtain ⟨hbefore, hinner⟩ := hblocks b (List.mem_cons_self ..)
    have ih := blocksOf_decomposed (fun b hb => hblocks b (List.mem_cons_of_mem _ hb)) htail
    have hjoin : joinBlocks start stop (b :: blocks) tail =
        b.1 ++ (start ++ b.2 ++ stop ++ joinBlocks start stop blocks tail) := by
      simp only [joinBlocks, List.flatMap_cons, List.append_assoc]
    rw [hjoin, blocksOf_append hstart hstop hbefore hinner, ih]

/-- A start tag without a later end tag stands behind every block in front of it. -/
theorem start_past_block (hd : Distinct start stop) {before inner rest u v : Str}
    (heq : before ++ start ++ (inner ++ stop ++ rest) = u ++ start ++ v) (hv : ¬stop <:+: v) :
    ∃ u', rest = u' ++ start ++ v := by
  have hopen : OccursAt start (u ++ start ++ v) (len u) := ⟨u, v, rfl, rfl⟩
  have hclose : OccursAt stop (u ++ start ++ v) (len (before ++ start ++ inner)) :=
    ⟨before ++ start ++ inner, rest, by rw [← heq]; simp only [List.append_assoc], rfl⟩
  rcases Nat.lt_trichotomy (len (before ++ start ++ inner)) (len u) with hlt | heqlen | hgt
  · have hend := OccursAt.separate hstop.tail hstart.head hclose hopen hlt
    rw [← len_append] at hend
    obtain ⟨u', rfl⟩ : before ++ start ++ inner ++ stop <+: u :=
      prefix_of_len_le (s := u ++ start ++ v) ⟨rest, by rw [← heq]; simp only [List.append_assoc]⟩
        ⟨start ++ v, by simp only [List.append_assoc]⟩ hend
    refine ⟨u', ?_⟩
    have hsame : before ++ start ++ inner ++ stop ++ rest =
        before ++ start ++ inner ++ stop ++ (u' ++ start ++ v) := by simpa using heq
    exact List.append_cancel_left hsame
  · have hsplit : before ++ start ++ inner ++ (stop ++ rest) = u ++ (start ++ v) := by
      simpa using heq
    obtain ⟨-, htags⟩ := append_inj_of_len hsplit heqlen
    rcases List.prefix_or_prefix_of_prefix (show start <+: start ++ v from ⟨v, rfl⟩)
      (show stop <+: start ++ v from ⟨rest, htags⟩) with h | h
    · exact absurd h hd.1
    · exact absurd h hd.2
  · have hend := OccursAt.separate hstart.tail hstop.head hopen hclose hgt
    rw [← len_append] at hend
    obtain ⟨y, hy⟩ : u ++ start <+: before ++ start ++ inner :=
      prefix_of_len_le ⟨v, rfl⟩ ⟨stop ++ rest, by rw [← heq]; simp only [List.append_assoc]⟩ hend
    refine absurd ⟨y, rest, ?_⟩ hv
    have hsame : u ++ start ++ (y ++ stop ++ rest) = u ++ start ++ v := by
      rw [← heq, ← List.append_assoc, ← List.append_assoc, hy]
      simp only [List.append_assoc]
    exact List.append_cancel_left hsame

/-- A start tag without a later end tag leaves the last block open. -/
theorem blocksOf_unterminated (hd : Distinct start stop) : ∀ {n : ℕ} {rest u v : Str},
    rest.length < n → rest = u ++ start ++ v → ¬stop <:+: v →
    (blocksOf start stop rest).tail = none
  | n + 1, rest, u, v, hn, hrest, hv => by
    rw [blocksOf_eq hstart.ne_nil hstop.ne_nil]
    cases hcut : cut start rest with
    | none => exact absurd ⟨u, v, hrest.symm⟩ (cut_eq_none_iff_free.1 hcut)
    | some x =>
      obtain ⟨before, after⟩ := x
      have hlt := length_lt_of_cut hstart.ne_nil hcut
      dsimp only
      cases hcut' : cut stop after with
      | none => rfl
      | some y =>
        obtain ⟨inner, rest'⟩ := y
        have hlt' := length_lt_of_cut hstop.ne_nil hcut'
        obtain ⟨rfl, -⟩ := cut_eq_some_iff.1 hcut
        obtain ⟨rfl, -⟩ := cut_eq_some_iff.1 hcut'
        obtain ⟨u', hrest'⟩ := start_past_block hstart hstop hd hrest hv
        exact blocksOf_unterminated hd (show rest'.length < n by omega) hrest' hv

end Blocks

/-- The bodies are read one after another, each under its place. -/
theorem parseEach_ok_iff {parseCall : Str → ℕ → Parse (ToolCall Json)} :
    ∀ {blocks : List (Str × Str)} {index : ℕ} {calls : List (ToolCall Json)},
      parseEach parseCall index blocks = .ok calls ↔ calls.length = blocks.length ∧
        ∀ (i : ℕ) (b : Str × Str) (call : ToolCall Json), blocks[i]? = some b →
          calls[i]? = some call → parseCall (trim b.2) (index + i) = .ok call
  | [], index, calls => by
    rw [parseEach]
    constructor
    · intro h
      obtain rfl := Except.ok.inj h
      exact ⟨rfl, fun i b call hb => by cases hb⟩
    · rintro ⟨hlen, -⟩
      rw [List.length_eq_zero_iff.1 hlen]
  | (gap, inner) :: blocks, index, calls => by
    rw [parseEach]
    constructor
    · intro h
      obtain ⟨call, hcall, h⟩ := bind_eq_ok.1 h
      obtain ⟨rest, hrest, h⟩ := bind_eq_ok.1 h
      obtain rfl := pure_eq_ok.1 h
      obtain ⟨hlen, hall⟩ := parseEach_ok_iff.1 hrest
      refine ⟨by rw [List.length_cons, List.length_cons, hlen], fun i b call' hb hcall' => ?_⟩
      cases i with
      | zero =>
        obtain rfl : (gap, inner) = b := by simpa using hb
        obtain rfl : call = call' := by simpa using hcall'
        exact hcall
      | succ i =>
        rw [← Nat.add_assoc, Nat.add_right_comm]
        exact hall i b call' (by simpa using hb) (by simpa using hcall')
    · rintro ⟨hlen, hall⟩
      cases calls with
      | nil => cases hlen
      | cons call rest =>
        have hcall := hall 0 _ _ rfl rfl
        have hrest : parseEach parseCall (index + 1) blocks = .ok rest := by
          refine parseEach_ok_iff.2 ⟨by simpa using hlen, fun i b call' hb hcall' => ?_⟩
          have h := hall (i + 1) b call' (by simpa using hb) (by simpa using hcall')
          rwa [← Nat.add_assoc, Nat.add_right_comm] at h
        rw [Nat.add_zero] at hcall
        rw [hcall, ok_bind, hrest]
        rfl

/-- All bodies are read if each is, whatever its place. -/
theorem parseEach_succeeds {parseCall : Str → ℕ → Parse (ToolCall Json)} :
    ∀ {blocks : List (Str × Str)} {index : ℕ},
      (∀ b ∈ blocks, ∀ i, ∃ call, parseCall (trim b.2) i = .ok call) →
      ∃ calls, parseEach parseCall index blocks = .ok calls
  | [], _, _ => ⟨[], rfl⟩
  | (gap, inner) :: blocks, index, h => by
    obtain ⟨call, hcall⟩ := h _ (List.mem_cons_self ..) index
    obtain ⟨calls, hcalls⟩ : ∃ calls, parseEach parseCall (index + 1) blocks = .ok calls :=
      parseEach_succeeds fun b hb => h b (List.mem_cons_of_mem _ hb)
    refine ⟨call :: calls, ?_⟩
    rw [parseEach, hcall, ok_bind, hcalls]
    rfl

/-! ### The families -/

/-- The parsers that read blocks between tags. -/
inductive BlockFamily
  | qwen
  | gemma
  | deepseekDsml
deriving DecidableEq, Repr

namespace BlockFamily

def startTag : BlockFamily → Str
  | qwen => toolCallStart
  | gemma => gemmaCallStart
  | deepseekDsml => dsmlStart

def endTag : BlockFamily → Str
  | qwen => toolCallEnd
  | gemma => gemmaCallEnd
  | deepseekDsml => dsmlEnd

def unterminated : BlockFamily → String
  | qwen => "unterminated qwen tool_call tag"
  | gemma => "unterminated Gemma tool_call tag"
  | deepseekDsml => "unterminated DeepSeek dsml_tool_call tag"

def parseCall (E : Env) : BlockFamily → Str → ℕ → Parse (ToolCall Json)
  | qwen => parseQwenCall E
  | gemma => parseGemmaCall E
  | deepseekDsml => fun inner index => ofResult (parseDeepseekJsonCall E inner index)

def parseComplete (E : Env) : BlockFamily → Str → Parse (ParsedAssistant Json)
  | qwen => QwenParser.parseComplete E
  | gemma => GemmaParser.parseComplete E
  | deepseekDsml => DeepSeekParser.parseComplete E

/-- The reasoning of a text, and the remainder in which calls are looked for. -/
def split : BlockFamily → Str → Option Str × Str
  | qwen, text => splitBlock thinkStart thinkEnd text
  | gemma, text => splitGemmaCut (beforeStopControl gemmaStopControls text)
  | deepseekDsml, text =>
    ((splitBlock thinkStart thinkEnd text).1,
      beforeStopControl [endOfSentence, deepseekUser]
        (stripDeepseekAssistantPrefix (splitBlock thinkStart thinkEnd text).2))

/-- The texts whose blocks the parser reads: without a multimodal marker, and in a dialect
without the calls marker of the other one. -/
def Covers : BlockFamily → Str → Prop
  | qwen, _ => True
  | gemma, text => ∀ marker ∈ gemmaMultimodalMarkers, ¬marker <:+: text
  | deepseekDsml, text => ¬toolCallsBegin <:+: (split deepseekDsml text).2

theorem startTag_isTag (family : BlockFamily) : IsTag family.startTag := by
  cases family <;> decide

theorem endTag_isTag (family : BlockFamily) : IsTag family.endTag := by
  cases family <;> decide

theorem tags_distinct (family : BlockFamily) : Distinct family.startTag family.endTag := by
  cases family <;> decide

end BlockFamily

theorem gemmaMarkers_ok {text : Str} (h : ∀ marker ∈ gemmaMultimodalMarkers, ¬marker <:+: text) :
    rejectGemmaMultimodalMarkers text = .ok () := by
  unfold rejectGemmaMultimodalMarkers
  rw [List.find?_eq_none.2 fun marker hmarker => ?_]
  rw [contains_iff]
  exact h marker hmarker

/-- A covered text is read block by block. -/
theorem parseComplete_blocks (E : Env) (family : BlockFamily) {text : Str}
    (hcover : family.Covers text)
    (hstarts : family = .deepseekDsml → family.startTag <:+: (family.split text).2) :
    family.parseComplete E text =
      (parseBlocks family.startTag family.endTag family.unterminated (family.parseCall E)
        ((family.split text).2.length + 1) (family.split text).2 [] []).bind fun r =>
          .ok ⟨(family.split text).1, r.1, r.2⟩ := by
  cases family with
  | qwen =>
    show QwenParser.parseComplete E text = _
    rw [QwenParser.parseComplete, splitReasoning_eq, ok_bind]
    dsimp only
    by_cases hcontains : contains (splitBlock thinkStart thinkEnd text).2 toolCallStart = true
    · rw [if_pos hcontains]
      rfl
    · rw [if_neg hcontains]
      have hfree := mt contains_iff.2 hcontains
      rw [parseBlocks_eq (by decide) (by decide) (Nat.lt_succ_self _)]
      have hblocks : blocksOf BlockFamily.qwen.startTag BlockFamily.qwen.endTag
          (BlockFamily.qwen.split text).2 = ⟨[], some (BlockFamily.qwen.split text).2⟩ :=
        blocksOf_of_free (by decide) (by decide) hfree
      rw [hblocks]
      rfl
  | gemma =>
    show GemmaParser.parseComplete E text = _
    rw [GemmaParser.parseComplete, gemmaMarkers_ok hcover]
    simp only [ofResult, ok_bind, trimAfterStopControl_eq, splitGemmaReasoning_eq]
    rfl
  | deepseekDsml =>
    show DeepSeekParser.parseComplete E text = _
    rw [DeepSeekParser.parseComplete, splitReasoning_eq, ok_bind]
    simp only [trimDeepseekAfterStopControl, trimAfterStopControl_eq, ok_bind]
    have hnative : ¬contains (beforeStopControl [endOfSentence, deepseekUser]
        (stripDeepseekAssistantPrefix (splitBlock thinkStart thinkEnd text).2)) toolCallsBegin =
        true := mt contains_iff.1 hcover
    have hdsml : contains (beforeStopControl [endOfSentence, deepseekUser]
        (stripDeepseekAssistantPrefix (splitBlock thinkStart thinkEnd text).2)) dsmlStart = true :=
      contains_iff.2 (hstarts rfl)
    rw [if_neg hnative, if_pos hdsml]
    rfl

/-! ### A body for itself -/

section Bodies

variable {E : Env} {inner : Str} {i : ℕ} {call : ToolCall Json}

/-- The place of a body is only part of its id. -/
theorem parseXmlCall_index (h : parseXmlCall E inner i = .ok call) (j : ℕ) :
    ∃ call, parseXmlCall E inner j = .ok call := by
  unfold parseXmlCall at h ⊢
  cases hstart : find functionStart inner with
  | none =>
    rw [hstart] at h
    cases h
  | some nameStart =>
    rw [hstart] at h
    dsimp only at h ⊢
    obtain ⟨tail, htail, h⟩ := bind_eq_ok.1 h
    rw [htail, ok_bind]
    cases hgt : find ['>'] tail with
    | none =>
      rw [hgt] at h
      cases h
    | some nameEndRel =>
      rw [hgt] at h
      dsimp only at h ⊢
      obtain ⟨name, hname, h⟩ := bind_eq_ok.1 h
      rw [hname, ok_bind]
      cases hend : find functionEnd inner with
      | none =>
        rw [hend] at h
        cases h
      | some functionEndAt =>
        rw [hend] at h
        dsimp only at h ⊢
        obtain ⟨params, hparams, h⟩ := bind_eq_ok.1 h
        obtain ⟨map, hmap, -⟩ := bind_eq_ok.1 h
        rw [hparams, ok_bind, hmap, ok_bind]
        exact ⟨_, rfl⟩

theorem parseJsonCall_index (h : parseJsonCall E inner i = .ok call) (j : ℕ) :
    ∃ call, parseJsonCall E inner j = .ok call := by
  unfold parseJsonCall at h ⊢
  obtain ⟨value, hvalue, h⟩ := bind_eq_ok.1 h
  obtain ⟨name, hname, h⟩ := bind_eq_ok.1 h
  obtain ⟨arguments, harguments, -⟩ := bind_eq_ok.1 h
  rw [hvalue, ok_bind, hname, ok_bind, harguments, ok_bind]
  exact ⟨_, rfl⟩

theorem parseDeepseekJsonCall_index (h : parseDeepseekJsonCall E inner i = .ok call) (j : ℕ) :
    ∃ call, parseDeepseekJsonCall E inner j = .ok call := by
  unfold parseDeepseekJsonCall at h ⊢
  obtain ⟨value, hvalue, h⟩ := bind_eq_ok.1 h
  obtain ⟨name, hname, -⟩ := bind_eq_ok.1 h
  rw [hvalue, ok_bind, hname, ok_bind]
  exact ⟨_, rfl⟩

theorem parseGemmaCall_index (h : parseGemmaCall E inner i = .ok call) (j : ℕ) :
    ∃ call, parseGemmaCall E inner j = .ok call := by
  unfold parseGemmaCall at h ⊢
  cases hlead : stripPrefix inner "call:".toList with
  | none =>
    rw [hlead] at h
    cases h
  | some body =>
    rw [hlead] at h
    dsimp only at h ⊢
    cases hbrace : find ['{'] body with
    | none =>
      rw [hbrace] at h
      cases h
    | some argsStart =>
      rw [hbrace] at h
      dsimp only at h ⊢
      obtain ⟨name, hname, h⟩ := bind_eq_ok.1 h
      rw [hname, ok_bind]
      by_cases hempty : (trim name).isEmpty = true
      · rw [if_pos hempty] at h
        cases h
      · rw [if_neg hempty] at h ⊢
        obtain ⟨args, hargs, h⟩ := bind_eq_ok.1 h
        obtain ⟨arguments, harguments, -⟩ := bind_eq_ok.1 h
        rw [hargs, ok_bind, harguments, ok_bind]
        exact ⟨_, rfl⟩

theorem ofResult_eq_ok {α : Type} {r : Except ParserError α} {a : α} :
    ofResult r = .ok a ↔ r = .ok a := by
  cases r <;> simp [ofResult]

theorem parseCall_index {family : BlockFamily} (h : family.parseCall E inner i = .ok call) (j : ℕ) :
    ∃ call, family.parseCall E inner j = .ok call := by
  cases family with
  | qwen =>
    have hcall : parseQwenCall E inner i = .ok call := h
    show ∃ call, parseQwenCall E inner j = .ok call
    unfold parseQwenCall at hcall ⊢
    by_cases hxml : startsWith inner functionStart = true
    · rw [if_pos hxml] at hcall ⊢
      exact parseXmlCall_index hcall j
    · rw [if_neg hxml] at hcall ⊢
      obtain ⟨call', hcall'⟩ := parseJsonCall_index (ofResult_eq_ok.1 hcall) j
      exact ⟨call', ofResult_eq_ok.2 hcall'⟩
  | gemma => exact parseGemmaCall_index h j
  | deepseekDsml =>
    obtain ⟨call', hcall'⟩ := parseDeepseekJsonCall_index (ofResult_eq_ok.1 h) j
    exact ⟨call', ofResult_eq_ok.2 hcall'⟩

end Bodies

/-! ### The grammar -/

/-- A remainder as texts without a start tag and blocks whose bodies have no end tag. -/
structure Decomposes (family : BlockFamily) (rest : Str) (blocks : List (Str × Str))
    (tail : Str) : Prop where
  text : rest = joinBlocks family.startTag family.endTag blocks tail
  parts : ∀ b ∈ blocks, ¬family.startTag <:+: b.1 ∧ ¬family.endTag <:+: b.2
  after : ¬family.startTag <:+: tail

/-- A body that is a call on its own. -/
def ValidBody (E : Env) (family : BlockFamily) (inner : Str) : Prop :=
  ∃ call, family.parseCall E (trim inner) 0 = .ok call

/-- What is parsed of a decomposed text: the calls of the blocks in order, and the texts. -/
structure ReadsBlocks (E : Env) (family : BlockFamily) (reasoning : Option Str)
    (blocks : List (Str × Str)) (tail : Str) (parsed : ParsedAssistant Json) : Prop where
  count : parsed.toolCalls.length = blocks.length
  calls : ∀ (i : ℕ) (b : Str × Str) (call : ToolCall Json), blocks[i]? = some b →
    parsed.toolCalls[i]? = some call → family.parseCall E (trim b.2) i = .ok call
  content : parsed.content = blocks.flatMap (·.1) ++ tail
  reasoning : parsed.reasoning = reasoning

theorem startTag_infix {family : BlockFamily} {blocks : List (Str × Str)} {tail : Str}
    (hne : blocks ≠ []) :
    family.startTag <:+: joinBlocks family.startTag family.endTag blocks tail := by
  obtain ⟨b, blocks, rfl⟩ := List.exists_cons_of_ne_nil hne
  refine ⟨b.1, b.2 ++ family.endTag ++ joinBlocks family.startTag family.endTag blocks tail, ?_⟩
  simp only [joinBlocks, List.flatMap_cons, List.append_assoc]

section Grammar

variable {E : Env} {family : BlockFamily} {text : Str} {blocks : List (Str × Str)} {tail : Str}

/-- The parse of a decomposed text. -/
theorem parseComplete_decomposed (hcover : family.Covers text)
    (h : Decomposes family (family.split text).2 blocks tail)
    (hne : family = .deepseekDsml → blocks ≠ []) :
    family.parseComplete E text =
      (parseEach (family.parseCall E) 0 blocks).bind fun calls =>
        .ok ⟨(family.split text).1, blocks.flatMap (·.1) ++ tail, calls⟩ := by
  have hstarts : family = .deepseekDsml → family.startTag <:+: (family.split text).2 := by
    intro hdsml
    rw [h.text]
    exact startTag_infix (hne hdsml)
  rw [parseComplete_blocks E family hcover hstarts, parseBlocks_eq family.startTag_isTag.ne_nil
    family.endTag_isTag.ne_nil (Nat.lt_succ_self _), h.text,
    blocksOf_decomposed family.startTag_isTag family.endTag_isTag h.parts h.after]
  rw [List.length_nil]
  cases parseEach (family.parseCall E) 0 blocks with
  | error e => rfl
  | ok calls => simp [Except.bind]

end Grammar

/-- **Blocks and texts.** A text whose remainder is an alternation of texts and blocks is
parsed just if every body is a call, and then into these calls and these texts; a start tag
that no end tag follows is not accepted: the answer is an error, if not, for Qwen, a block in
front of it has an unclosed function tag. -/
theorem block_grammar (E : Env) (family : BlockFamily) (text : Str) (hcover : family.Covers text) :
    (∀ blocks tail, Decomposes family (family.split text).2 blocks tail →
      (family = .deepseekDsml → blocks ≠ []) →
      ((∃ parsed, family.parseComplete E text = .ok parsed) ↔
        ∀ b ∈ blocks, ValidBody E family b.2) ∧
      ∀ parsed, family.parseComplete E text = .ok parsed →
        ReadsBlocks E family (family.split text).1 blocks tail parsed) ∧
    ∀ u v, (family.split text).2 = u ++ family.startTag ++ v → ¬family.endTag <:+: v →
      (∀ parsed, family.parseComplete E text ≠ .ok parsed) ∧
        (Returns (family.parseComplete E text) ↔
          (family = .qwen → ¬ReachesUnclosed E (family.split text).2)) := by
  refine ⟨fun blocks tail h hne => ⟨⟨?_, ?_⟩, ?_⟩, fun u v huv hv => ⟨?_, ?_⟩⟩
  · rintro ⟨parsed, hparsed⟩ b hb
    rw [parseComplete_decomposed hcover h hne] at hparsed
    obtain ⟨calls, hcalls, -⟩ := bind_eq_ok.1 hparsed
    obtain ⟨hlen, hall⟩ := parseEach_ok_iff.1 hcalls
    obtain ⟨i, hi⟩ := List.mem_iff_getElem?.1 hb
    have hlt : i < calls.length := by
      rw [hlen]
      exact (List.getElem?_eq_some_iff.1 hi).1
    exact parseCall_index (hall i b _ hi (List.getElem?_eq_getElem hlt)) 0
  · intro hvalid
    obtain ⟨calls, hcalls⟩ : ∃ calls, parseEach (family.parseCall E) 0 blocks = .ok calls :=
      parseEach_succeeds fun b hb i => (hvalid b hb).elim fun _ hcall => parseCall_index hcall i
    rw [parseComplete_decomposed hcover h hne, hcalls]
    exact ⟨_, rfl⟩
  · intro parsed hparsed
    rw [parseComplete_decomposed hcover h hne] at hparsed
    obtain ⟨calls, hcalls, hparsed⟩ := bind_eq_ok.1 hparsed
    obtain rfl := Except.ok.inj hparsed
    obtain ⟨hlen, hall⟩ := parseEach_ok_iff.1 hcalls
    refine ⟨hlen, fun i b call hb hcall => ?_, rfl, rfl⟩
    have h := hall i b call hb hcall
    rwa [Nat.zero_add] at h
  · intro parsed hparsed
    have hopen := blocksOf_unterminated family.startTag_isTag family.endTag_isTag
      family.tags_distinct (Nat.lt_succ_self _) huv hv
    rw [parseComplete_blocks E family hcover fun _ => ⟨u, v, huv.symm⟩,
      parseBlocks_eq family.startTag_isTag.ne_nil family.endTag_isTag.ne_nil (Nat.lt_succ_self _),
      hopen] at hparsed
    obtain ⟨_, hblocks, -⟩ := bind_eq_ok.1 hparsed
    obtain ⟨_, -, hfail⟩ := bind_eq_ok.1 hblocks
    cases hfail
  · cases family with
    | qwen =>
      have hmarked : markedText (BlockFamily.qwen.split text).2 =
          some (BlockFamily.qwen.split text).2 := if_pos (contains_iff.2 ⟨u, v, huv.symm⟩)
      show Returns (QwenParser.parseComplete E text) ↔ _
      rw [QwenParser.parseComplete, splitReasoning_eq, ok_bind]
      refine (returns_marked_iff E _ _ (returns_pure _)).trans ⟨fun h _ => h _ hmarked, ?_⟩
      rintro h rest hrest
      rw [← Option.some.inj (hmarked.symm.trans hrest)]
      exact h rfl
    | gemma => exact iff_of_true (returns_gemma E text) fun h => by cases h
    | deepseekDsml =>
      rw [parseComplete_blocks E _ hcover fun _ => ⟨u, v, huv.symm⟩]
      refine iff_of_true (returns_bind (returns_parseBlocks (by decide) (by decide)
        (fun _ _ => returns_ofResult _) _) fun _ _ => returns_ok _) fun h => by cases h

/-- The body of a call of `f`. -/
def namedBody : Str := "\x7b\"name\":\"f\"\x7d".toList

theorem namedBody_valid : ValidBody compactEnv .deepseekDsml namedBody := by
  have h : (BlockFamily.deepseekDsml.parseCall compactEnv (trim namedBody) 0).isOk = true := by
    decide +kernel
  unfold ValidBody
  cases hcall : BlockFamily.deepseekDsml.parseCall compactEnv (trim namedBody) 0 with
  | error e =>
    rw [hcall] at h
    cases h
  | ok call => exact ⟨call, rfl⟩

/-- A greeting and a call. -/
def greetedBlock : Str := "Hi ".toList ++ (dsmlStart ++ namedBody ++ dsmlEnd)

/-- A greeting and two calls, with a word between them. -/
def greetedBlocks : Str :=
  greetedBlock ++ "then".toList ++ (dsmlStart ++ namedBody ++ dsmlEnd) ++ ".".toList

theorem block_grammar_greeted :
    ∃ parsed, BlockFamily.deepseekDsml.parseComplete compactEnv greetedBlocks = .ok parsed ∧
      parsed.toolCalls.length = 2 ∧ parsed.content = "Hi then.".toList := by
  obtain ⟨hiff, hreads⟩ := (block_grammar compactEnv .deepseekDsml greetedBlocks
    (show ¬_ by decide +kernel)).1 [("Hi ".toList, namedBody), ("then".toList, namedBody)]
    ".".toList ⟨by decide +kernel, by decide +kernel, by decide +kernel⟩
    fun _ => List.cons_ne_nil _ _
  obtain ⟨parsed, hparsed⟩ := hiff.2 <| by
    simpa using namedBody_valid
  exact ⟨parsed, hparsed, (hreads parsed hparsed).count, (hreads parsed hparsed).content⟩

/-- A text in which the removal of a reasoning block makes the marker of the other dialect. -/
def joinedMarkerText : Str :=
  "<｜tool▁calls<think></think>▁begin｜>".toList ++ (dsmlStart ++ namedBody ++ dsmlEnd)

/-- The text has no native marker, its remainder is a text and a block with a valid body, and
still it is not parsed. -/
theorem joined_marker_rejected :
    ¬toolCallsBegin <:+: joinedMarkerText ∧
      Decomposes .deepseekDsml (BlockFamily.deepseekDsml.split joinedMarkerText).2
        [(toolCallsBegin, namedBody)] [] ∧
      ValidBody compactEnv .deepseekDsml namedBody ∧
      ∀ parsed, DeepSeekParser.parseComplete compactEnv joinedMarkerText ≠ .ok parsed := by
  refine ⟨by decide +kernel, ⟨by decide +kernel, by decide +kernel, by decide +kernel⟩,
    namedBody_valid, fun parsed hparsed => ?_⟩
  have h : (DeepSeekParser.parseComplete compactEnv joinedMarkerText).isOk = false := by
    decide +kernel
  rw [hparsed] at h
  cases h

end KirAi.ToolParser
