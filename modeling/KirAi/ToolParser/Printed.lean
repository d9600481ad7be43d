/-
# Reading printed calls

A list of calls, each printed between a start and an end tag, after a text that does not
contain the start tag: the loop over the blocks gives back the text and the calls, provided
that no printed call contains the end tag and that each is read back for itself
(`parseBlocks_printed`).

A tag starts with `<` and has it nowhere else, so it is not found across a border
(`IsTag`). A control token that is in none of the parts of a text is not in the text, if
each part after the first starts with `<` (`freeOf_flatMap`).

Key definitions: `IsTag`, `ParsesBack`, `Plain`.
Key theorems: `blocksOf_append`, `parseBlocks_printed`, `freeOf_flatMap`, `plain_chars`.
-/
import KirAi.Lib.Origin
import KirAi.ToolParser.Common

namespace KirAi.ToolParser

open Lib Lib.Text
open KirAi.Runtime (Str ToolCall ToolCallFunction isWhitespace trim trimStart)

/-- `serde_json` reads a value back that it has printed. -/
def ParsesBack (E : Env) (value : Json) : Prop := E.fromStr value.chars = .ok value

/-! ### Blocks -/

/-- A tag, or a control token that is built like one. -/
structure IsTag (p : Str) : Prop where
  head : p.head? = some '<'
  tail : '<' ∉ p.tail

instance (p : Str) : Decidable (IsTag p) :=
  decidable_of_iff (p.head? = some '<' ∧ '<' ∉ p.tail) ⟨fun h => ⟨h.1, h.2⟩, fun h => ⟨h.1, h.2⟩⟩

theorem IsTag.ne_nil {p : Str} (h : IsTag p) : p ≠ [] := by
  rintro rfl
  cases h.head

theorem IsTag.cut_append {p u : Str} (h : IsTag p) (hu : ¬p <:+: u) (v : Str) :
    cut p (u ++ p ++ v) = some (u, v) :=
  Text.cut_append ((find_append_iff h.head h.tail).2 hu)

theorem contains_iff {s p : Str} : contains s p = true ↔ p <:+: s := by
  rw [contains, Option.isSome_iff_ne_none, Ne, find_eq_none_iff_infix, not_not]

theorem cut_eq_none_iff_free {p s : Str} : cut p s = none ↔ ¬p <:+: s := by
  rw [cut_eq_none_iff, find_eq_none_iff_infix]

theorem cut_eq_none_of_free {p s : Str} (h : ¬p <:+: s) : cut p s = none :=
  cut_eq_none_iff_free.2 h

section Blocks

variable {start stop : Str} (hstart : IsTag start) (hstop : IsTag stop)

include hstart hstop

theorem blocksOf_append {before inner : Str} (hbefore : ¬start <:+: before) (hinner : ¬stop <:+: inner)
    (rest : Str) :
    blocksOf start stop (before ++ (start ++ inner ++ stop ++ rest)) =
      ⟨(before, inner) :: (blocksOf start stop rest).blocks, (blocksOf start stop rest).tail⟩ := by
  have hsplit : before ++ (start ++ inner ++ stop ++ rest) =
      before ++ start ++ (inner ++ stop ++ rest) := by simp only [List.append_assoc]
  rw [blocksOf_eq hstart.ne_nil hstop.ne_nil, hsplit, hstart.cut_append hbefore]
  simp only [hstop.cut_append hinner]

theorem blocksOf_of_free {rest : Str} (h : ¬start <:+: rest) :
    blocksOf start stop rest = ⟨[], some rest⟩ := by
  rw [blocksOf_eq hstart.ne_nil hstop.ne_nil, cut_eq_none_of_free h]

variable {γ : Type} {inner : γ → Str}

/-- The blocks of printed calls are what was printed. -/
theorem blocksOf_printed : ∀ {gs : List γ} {before : Str}, ¬start <:+: before →
    (∀ g ∈ gs, ¬stop <:+: inner g) →
    ∃ blocks tail, blocksOf start stop (before ++ gs.flatMap fun g => start ++ inner g ++ stop) =
      ⟨blocks, some tail⟩ ∧ blocks.map (·.2) = gs.map inner ∧ blocks.flatMap (·.1) ++ tail = before
  | [], before, hbefore, _ => by
    refine ⟨[], before, ?_, rfl, rfl⟩
    rw [List.flatMap_nil, List.append_nil]
    exact blocksOf_of_free hstart hstop hbefore
  | g :: gs, before, hbefore, hinner => by
    have hnil : ¬start <:+: [] := fun h => hstart.ne_nil (List.infix_nil.1 h)
    obtain ⟨blocks, tail, hblocks, hinners, htext⟩ :=
      blocksOf_printed hnil fun g hg => hinner g (List.mem_cons_of_mem _ hg)
    refine ⟨(before, inner g) :: blocks, tail, ?_, ?_, ?_⟩
    · rw [List.flatMap_cons, blocksOf_append hstart hstop hbefore (hinner g (List.mem_cons_self ..))]
      rw [List.nil_append] at hblocks
      rw [hblocks]
    · rw [List.map_cons, List.map_cons, hinners]
    · rw [List.flatMap_cons, List.append_assoc, htext, List.append_nil]

omit hstart hstop in
theorem parseEach_printed {parseCall : Str → ℕ → Parse (ToolCall Json)}
    {result : γ → ToolCallFunction Json} : ∀ {gs : List γ} {blocks : List (Str × Str)} {index : ℕ},
    blocks.map (·.2) = gs.map inner →
    (∀ g ∈ gs, ∀ index, ∃ call, parseCall (trim (inner g)) index = .ok call ∧
      call.function = result g) →
    ∃ calls, parseEach parseCall index blocks = .ok calls ∧ calls.map (·.function) = gs.map result
  | [], [], _, _, _ => ⟨[], rfl, rfl⟩
  | g :: gs, (before, text) :: blocks, index, hblocks, hread => by
    obtain ⟨rfl, hrest⟩ := List.cons.inj hblocks
    obtain ⟨call, hcall, hfunction⟩ := hread g (List.mem_cons_self ..) index
    obtain ⟨calls, hcalls, hmap⟩ : ∃ calls, parseEach parseCall (index + 1) blocks = .ok calls ∧
        calls.map (·.function) = gs.map result :=
      parseEach_printed hrest fun g hg => hread g (List.mem_cons_of_mem _ hg)
    refine ⟨call :: calls, ?_, ?_⟩
    · rw [parseEach, hcall, ok_bind, hcalls, ok_bind]
      rfl
    · rw [List.map_cons, List.map_cons, hfunction, hmap]

/-- **Printed calls are read back**, with the text in front of them. -/
theorem parseBlocks_printed {unterminated : String} {parseCall : Str → ℕ → Parse (ToolCall Json)}
    {result : γ → ToolCallFunction Json} {gs : List γ} {before : Str}
    (hbefore : ¬start <:+: before) (hinner : ∀ g ∈ gs, ¬stop <:+: inner g)
    (hread : ∀ g ∈ gs, ∀ index, ∃ call, parseCall (trim (inner g)) index = .ok call ∧
      call.function = result g) {rest : Str}
    (hrest : rest = before ++ gs.flatMap fun g => start ++ inner g ++ stop) :
    ∃ calls, parseBlocks start stop unterminated parseCall (rest.length + 1) rest [] [] =
        .ok (before, calls) ∧ calls.map (·.function) = gs.map result := by
  obtain ⟨blocks, tail, hblocks, hinners, htext⟩ := blocksOf_printed hstart hstop hbefore hinner
  obtain ⟨calls, hcalls, hmap⟩ : ∃ calls, parseEach parseCall 0 blocks = .ok calls ∧
      calls.map (·.function) = gs.map result := parseEach_printed hinners hread
  refine ⟨calls, ?_, hmap⟩
  rw [parseBlocks_eq hstart.ne_nil hstop.ne_nil (Nat.lt_succ_self _), hrest, hblocks]
  rw [List.length_nil, hcalls]
  simp only [Except.bind, List.nil_append, htext]

end Blocks

/-! ### Tokens in printed texts -/

/-- A token that is in no part of a text is not in the text, if no part goes on with it. -/
theorem freeOf_flatMap {γ : Type} {tokens : List Str} (hne : [] ∉ tokens) {shown : γ → Str} :
    ∀ {gs : List γ} {before : Str}, FreeOf tokens before →
      (∀ g ∈ gs, FreeOf tokens (shown g) ∧ startsOutside tokens (shown g) = true) →
      FreeOf tokens (before ++ gs.flatMap shown)
  | [], before, hbefore, _ => by
    rwa [List.flatMap_nil, List.append_nil]
  | g :: gs, before, hbefore, hgs => by
    obtain ⟨hfree, hstarts⟩ := hgs g (List.mem_cons_self ..)
    rw [List.flatMap_cons, ← List.append_assoc]
    refine freeOf_flatMap hne ?_ fun g hg => hgs g (List.mem_cons_of_mem _ hg)
    exact (freeOf_append_iff hne (.inr (anew_of_startsOutside hstarts))).2 ⟨hbefore, hfree⟩

theorem beforeStopControl_of_free {tokens : List Str} {s : Str} (h : FreeOf tokens s) :
    beforeStopControl tokens s = s := by
  have hnone : tokens.filterMap (find · s) = [] :=
    List.filterMap_eq_nil_iff.2 fun t ht => find_eq_none_iff_infix.2 (h t ht)
  rw [beforeStopControl, hnone, List.min?_nil, Option.getD_none, takeTo_len]

/-! ### Outer whitespace -/

/-- A text without whitespace at its ends. -/
structure Plain (s : Str) : Prop where
  ne_nil : s ≠ []
  head : ∀ c ∈ s.head?, isWhitespace c = false
  last : ∀ c ∈ s.getLast?, isWhitespace c = false

theorem dropWhile_whitespace {w s : Str} (hw : ∀ c ∈ w, isWhitespace c = true)
    (h : ∀ c ∈ s.head?, isWhitespace c = false) : (w ++ s).dropWhile isWhitespace = s := by
  rw [List.dropWhile_append_of_pos hw]
  cases s with
  | nil => rfl
  | cons c s => rw [List.dropWhile_cons, h c (by simp), if_neg Bool.false_ne_true]

namespace Plain

variable {s : Str}

/-- Whitespace around a plain text is what `trim` takes off. -/
theorem trim_surrounded (h : Plain s) {w w' : Str} (hw : ∀ c ∈ w, isWhitespace c = true)
    (hw' : ∀ c ∈ w', isWhitespace c = true) : trim (w ++ s ++ w') = s := by
  have hstart : trimStart (w ++ s ++ w') = s ++ w' := by
    rw [List.append_assoc]
    refine dropWhile_whitespace hw fun c hc => h.head c ?_
    rwa [List.head?_append_of_ne_nil _ h.ne_nil] at hc
  have hend : (w'.reverse ++ s.reverse).dropWhile isWhitespace = s.reverse := by
    refine dropWhile_whitespace (fun c hc => hw' c (List.mem_reverse.1 hc)) fun c hc => h.last c ?_
    rwa [List.head?_reverse] at hc
  rw [trim, hstart, List.reverse_append, hend, List.reverse_reverse]

theorem trim (h : Plain s) : Runtime.trim s = s := by
  have htrim : Runtime.trim ([] ++ s ++ []) = s := h.trim_surrounded nofun nofun
  rwa [List.nil_append, List.append_nil] at htrim

theorem of_forall (hne : s ≠ []) (h : ∀ c ∈ s, isWhitespace c = false) : Plain s :=
  ⟨hne, fun c hc => h c (List.mem_of_head? hc), fun c hc => h c (List.mem_of_getLast? hc)⟩

/-- A text that begins and ends with given plain ends. -/
theorem of_outer {a b : Str} (ha : a.head?.any (fun c => !isWhitespace c) = true)
    (hb : b.getLast?.any (fun c => !isWhitespace c) = true) (mid : Str) : Plain (a ++ mid ++ b) := by
  obtain ⟨x, hx, hxw⟩ := (Option.any_eq_true ..).1 ha
  obtain ⟨y, hy, hyw⟩ := (Option.any_eq_true ..).1 hb
  obtain ⟨a', rfl⟩ := List.head?_eq_some_iff.1 hx
  refine ⟨List.cons_ne_nil _ _, fun c hc => ?_, fun c hc => ?_⟩
  · obtain rfl : x = c := Option.some.inj hc
    simpa using hxw
  · rw [List.getLast?_append, hy, Option.some_or] at hc
    obtain rfl : y = c := Option.some.inj hc
    simpa using hyw

theorem of_ends {a b : Char} (ha : isWhitespace a = false) (hb : isWhitespace b = false)
    (mid : Str) : Plain (a :: (mid ++ [b])) := by
  have h : Plain ([a] ++ mid ++ [b]) := of_outer (by simp [ha]) (by simp [hb]) mid
  exact h

end Plain

theorem stripSuffix_append (v p : Str) : stripSuffix (v ++ p) p = some v := by
  have hsuffix : p.isSuffixOf (v ++ p) = true := List.isSuffixOf_iff_suffix.2 (List.suffix_append v p)
  rw [stripSuffix, if_pos hsuffix, List.length_append, Nat.add_sub_cancel, List.take_left]

theorem isWhitespace_of_isNumberChar {c : Char} (h : Json.isNumberChar c = true) :
    isWhitespace c = false := by
  have hrange : 43 ≤ c.toNat ∧ c.toNat ≤ 101 := by
    simp only [Json.isNumberChar, Bool.or_eq_true, beq_iff_eq] at h
    rcases h with ((((h | rfl) | rfl) | rfl) | rfl) | rfl
    · have hdigit : 48 ≤ c.toNat ∧ c.toNat ≤ 57 := Char.isDigit_iff_toNat.1 h
      omega
    all_goals decide
  simp only [isWhitespace, Bool.or_eq_false_iff, Bool.and_eq_false_iff, decide_eq_false_iff_not,
    beq_eq_false_iff_ne]
  omega

/-- JSON is printed without outer whitespace. -/
theorem plain_chars {depth : ℕ} {value : Json} (h : value.Printable depth) : Plain value.chars := by
  unfold Json.chars
  split
  · exact .of_forall (by decide) (by simp [isWhitespace])
  · exact .of_forall (by decide) (by simp [isWhitespace])
  · exact .of_forall (by decide) (by simp [isWhitespace])
  · next n =>
    refine .of_forall Nat.toDigits_ne_nil fun c hc => isWhitespace_of_isNumberChar ?_
    exact Json.isNumberChar_of_isDigit (List.all_eq_true.1 (Json.toDigits_all_digits n) c hc)
  · next text =>
    have hnumber : Json.isNumberText text.toList = true := by
      cases depth <;> exact h
    unfold Json.isNumberText at hnumber
    split at hnumber
    · cases hnumber
    · next heq =>
      simp only [Bool.and_eq_true] at hnumber
      rw [heq]
      refine .of_forall (List.cons_ne_nil _ _) fun c hc => isWhitespace_of_isNumberChar ?_
      exact List.all_eq_true.1 hnumber.1.2 c (heq ▸ hc)
  · exact .of_ends (by decide) (by decide) _
  · exact .of_ends (by decide) (by decide) _
  · exact .of_ends (by decide) (by decide) _

end KirAi.ToolParser
