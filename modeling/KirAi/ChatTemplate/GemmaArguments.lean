/-
# Arguments printed for Gemma are read back

The arguments of a call in the history are printed for Gemma with bare keys
(`renderGemma4Argument`), and the arguments of a call that the model makes are read by a
parser that takes bare keys too, up to a colon or space, besides quoted ones. What is printed
is read back if every key is a bare one for the parser and `serde_json` reads every number back
from its text (`Survives`). Other keys change the arguments without an error: `{"a:b": 1}`
comes back as `{"a": "b:1"}`.

Nor can it come back by chance. A text that is read as the object it was printed from has as
many marks as the object, so nothing may be lost on the way. Then no key was quoted and no
entry replaced another one, the keys come in their order, each from its own place, and so each
is a bare one (`arguments_survive_iff`).

Key definitions: `BareKey`, `Undelimited`, `Survives`.
Key theorems: `marks_render`, `read_rendered`, `survives_of_read`, `arguments_survive_iff`.
-/
import KirAi.ChatTemplate.Gemma
import KirAi.ToolParser.GemmaMarks

namespace KirAi.ChatTemplate

open Lib Lib.Text ToolParser GemmaReader
open KirAi.Runtime (Str isWhitespace trimStart)
open GemmaArgumentParser (isKeyChar isAtomChar atomValue)

/-! ### Values and their keys -/

/-- A key that is read again where it was printed as it is. -/
structure BareKey (key : Str) : Prop where
  ne_nil : key ≠ []
  chars : ∀ c ∈ key, isKeyChar c = true
  first : ∀ c ∈ key.head?, c ≠ '"' ∧ c ≠ '\x7d'

instance (key : Str) : Decidable (BareKey key) :=
  decidable_of_iff (key ≠ [] ∧ key.all isKeyChar = true ∧
      key.head?.all (fun c => decide (c ≠ '"' ∧ c ≠ '\x7d')) = true)
    ⟨fun h => ⟨h.1, List.all_eq_true.1 h.2.1, fun c hc => by
        have hfirst := h.2.2
        rw [Option.mem_def.1 hc] at hfirst
        exact of_decide_eq_true hfirst⟩,
      fun h => ⟨h.ne_nil, List.all_eq_true.2 h.chars, by
        have hfirst := h.first
        cases key with
        | nil => rfl
        | cons c key => exact decide_eq_true (hfirst c rfl)⟩⟩

mutual

/-- A value, with texts of numbers and distinct keys as they are, in which no string and no key
contains the delimiter of strings. -/
def Undelimited : Json → Prop
  | .number text => Json.isNumberText text.toList = true
  | .string s => ¬stringDelimiter <:+: s.toList
  | .array items => UndelimitedItems items
  | .object entries => (entries.map Prod.fst).Nodup ∧ UndelimitedEntries entries
  | _ => True

def UndelimitedItems : List Json → Prop
  | [] => True
  | item :: items => Undelimited item ∧ UndelimitedItems items

def UndelimitedEntries : List (String × Json) → Prop
  | [] => True
  | (key, value) :: entries =>
    ¬stringDelimiter <:+: key.toList ∧ Undelimited value ∧ UndelimitedEntries entries

end

section Survives

variable (E : Env)

mutual

/-- Every key is a bare one, at any depth, and every number is read back from its text. -/
def Survives : Json → Prop
  | .u64 n => ParsesBack E (.u64 n)
  | .number text => ParsesBack E (.number text)
  | .array items => SurviveItems items
  | .object entries => SurviveEntries entries
  | _ => True

def SurviveItems : List Json → Prop
  | [] => True
  | item :: items => Survives item ∧ SurviveItems items

def SurviveEntries : List (String × Json) → Prop
  | [] => True
  | (key, value) :: entries => BareKey key.toList ∧ Survives value ∧ SurviveEntries entries

end

end Survives

/-! ### The printed text -/

/-- What comes after a part of a list: the end, or a comma and the other parts. -/
def afterPart (close : Char) (parts : List Str) (rest : Str) : Str :=
  if parts = [] then close :: rest else ',' :: (Json.commas parts ++ close :: rest)

theorem commas_cons_append (part : Str) (parts : List Str) (close : Char) (rest : Str) :
    Json.commas (part :: parts) ++ close :: rest = part ++ afterPart close parts rest := by
  cases parts with
  | nil => rfl
  | cons part' parts =>
    rw [afterPart, if_neg (List.cons_ne_nil _ _), Json.commas, List.append_assoc, List.cons_append]
    exact fun h => by cases h

theorem stops_afterPart {close : Char} (hclose : close = ']' ∨ close = '\x7d') (parts : List Str)
    (rest : Str) : Stops (afterPart close parts rest) := by
  unfold afterPart
  split
  · rcases hclose with rfl | rfl <;> exact stops_cons (by decide) rest
  · exact stops_cons (by decide) _

theorem fresh_of_stops {rest : Str} (h : Stops rest) : Fresh rest := by
  intro c hc hmem
  have hnone : ∀ d ∈ gemmaQuote.tail, isAtomChar d = true := List.all_eq_true.1 (by decide)
  have hstop := h c hc
  rw [hnone c hmem] at hstop
  cases hstop

theorem marks_afterPart {close : Char} (hclose : close = ']' ∨ close = '\x7d') (parts : List Str)
    (rest : Str) : marks (afterPart close parts rest) =
      marks (if parts = [] then rest else Json.commas parts ++ close :: rest) := by
  unfold afterPart
  split
  · rcases hclose with rfl | rfl <;> rw [marks_cons_ne (by decide)] <;> exact Nat.zero_add _
  · rw [marks_cons_ne (by decide)]
    exact Nat.zero_add _

/-- A text without a delimiter is printed as it is. -/
theorem withoutDelimiter_eq {s : Str} (h : ¬stringDelimiter <:+: s) : withoutDelimiter s = s := by
  unfold withoutDelimiter
  induction s with
  | nil => rfl
  | cons c s ih =>
    have hprefix : ¬stringDelimiter.isPrefixOf (c :: s) = true := fun hpre =>
      h (List.isPrefixOf_iff_prefix.1 hpre).isInfix
    rw [removeFrom, if_neg hprefix, ih fun hin => h (hin.trans (List.suffix_cons c s).isInfix)]

theorem renderGemma4String_eq {s : Str} (h : ¬stringDelimiter <:+: s) :
    renderGemma4String s = gemmaQuote ++ (s ++ gemmaQuote) := by
  rw [renderGemma4String, withoutDelimiter_eq h, List.append_assoc]
  rfl

/-- The text of a number. -/
structure NumberText (text : Str) (c : Char) (token : Str) : Prop where
  eq : text = c :: token
  first : (c.isDigit || c == '-') = true
  chars : ∀ d ∈ token, Json.isNumberChar d = true

theorem numberText_u64 (n : ℕ) : ∃ c token, NumberText (Nat.toDigits 10 n) c token := by
  have hall := List.all_eq_true.1 (Json.toDigits_all_digits n)
  obtain ⟨c, token, heq⟩ := List.exists_cons_of_ne_nil (Nat.toDigits_ne_nil (n := n) (b := 10))
  rw [heq] at hall
  refine ⟨c, token, heq, ?_, fun d hd => ?_⟩
  · rw [hall c (List.mem_cons_self ..), Bool.true_or]
  · exact Json.isNumberChar_of_isDigit (hall d (List.mem_cons_of_mem _ hd))

theorem numberText_number {text : String} (h : Json.isNumberText text.toList = true) :
    ∃ c token, NumberText text.toList c token := by
  unfold Json.isNumberText at h
  split at h
  · cases h
  · next c token heq =>
    simp only [Bool.and_eq_true] at h
    refine ⟨c, token, heq, h.1.1, fun d hd => List.all_eq_true.1 h.1.2 d ?_⟩
    rw [heq]
    exact List.mem_cons_of_mem _ hd

theorem mark_numberChar {c : Char} (h : Json.isNumberChar c = true) : mark c = 0 := by
  unfold mark
  rw [if_neg]
  intro hmark
  simp only [isMark, Bool.or_eq_true, beq_iff_eq] at hmark
  rcases hmark with (rfl | rfl) | rfl <;> exact absurd h (by decide)

/-- A number has no marks. -/
theorem NumberText.marks {text : Str} {c : Char} {token : Str} (h : NumberText text c token)
    (rest : Str) : ToolParser.marks (text ++ rest) = ToolParser.marks rest := by
  have hall : ∀ d ∈ text, Json.isNumberChar d = true := by
    rw [h.eq]
    exact List.forall_mem_cons.2 ⟨isNumberChar_of_first h.first, h.chars⟩
  have hfree : '<' ∉ text := fun hmem => absurd (hall _ hmem) (by decide)
  have hzero : (text.map mark).sum = 0 := by
    refine List.sum_eq_zero fun m hm => ?_
    obtain ⟨d, hd, rfl⟩ := List.mem_map.1 hm
    exact mark_numberChar (hall d hd)
  rw [marks_skip hfree, hzero, Nat.zero_add]

theorem marks_string {s rest : Str} (h : ¬stringDelimiter <:+: s) :
    marks (renderGemma4String s ++ rest) = marks s + marks rest := by
  have hfresh : Fresh (gemmaQuote ++ rest) := fresh_cons (by decide) _
  rw [renderGemma4String_eq h, List.append_assoc, List.append_assoc, marks_quote,
    marks_append hfresh, marks_quote]

mutual

/-- A printed value has the marks of the value. -/
theorem marks_render : ∀ (v : Json) {rest : Str}, Undelimited v → Fresh rest →
    marks (renderGemma4Argument v ++ rest) = jsonMarks v + marks rest
  | .null, rest, _, _ => by
    rw [renderGemma4Argument, marks_skip (by decide), jsonMarks]
    · rfl
    all_goals exact fun _ h => by cases h
  | .bool true, rest, _, _ => by
    rw [renderGemma4Argument, marks_skip (by decide), jsonMarks]
    · rfl
    all_goals exact fun _ h => by cases h
  | .bool false, rest, _, _ => by
    rw [renderGemma4Argument, marks_skip (by decide), jsonMarks]
    · rfl
    all_goals exact fun _ h => by cases h
  | .u64 n, rest, _, _ => by
    obtain ⟨c, token, hnumber⟩ := numberText_u64 n
    rw [renderGemma4Argument, hnumber.marks, jsonMarks, Nat.zero_add]
    all_goals exact fun _ h => by cases h
  | .number text, rest, h, _ => by
    obtain ⟨c, token, hnumber⟩ := (@numberText_number text) (by rwa [Undelimited] at h)
    rw [renderGemma4Argument, hnumber.marks, jsonMarks, Nat.zero_add]
    all_goals exact fun _ h => by cases h
  | .string s, rest, h, _ => by
    rw [Undelimited] at h
    rw [renderGemma4Argument, marks_string h, jsonMarks]
  | .array items, rest, h, _ => by
    rw [Undelimited] at h
    have hzero : mark '[' = 0 := rfl
    rw [renderGemma4Argument, List.cons_append, List.append_assoc, List.singleton_append,
      marks_cons_ne (by decide), marks_items items h, jsonMarks, hzero, Nat.zero_add]
  | .object entries, rest, h, _ => by
    rw [Undelimited] at h
    have hzero : mark '\x7b' = 0 := rfl
    rw [renderGemma4Argument, List.cons_append, List.append_assoc, List.singleton_append,
      marks_cons_ne (by decide), marks_entries entries h.2, jsonMarks, hzero, Nat.zero_add]

theorem marks_items : ∀ (items : List Json) {rest : Str}, UndelimitedItems items →
    marks (Json.commas (renderGemma4Items items) ++ ']' :: rest) = valuesMarks items + marks rest
  | [], rest, _ => by
    rw [renderGemma4Items, Json.commas, List.nil_append, marks_cons_ne (by decide), valuesMarks]
    rfl
  | item :: items, rest, h => by
    rw [UndelimitedItems] at h
    rw [renderGemma4Items, commas_cons_append,
      marks_render item h.1 (fresh_of_stops (stops_afterPart (.inl rfl) _ _)),
      marks_afterPart (.inl rfl), valuesMarks, Nat.add_assoc]
    congr 1
    have ih := @marks_items items rest h.2
    cases items with
    | nil => rw [renderGemma4Items, if_pos rfl, valuesMarks, Nat.zero_add]
    | cons item' items =>
      rw [if_neg (by rw [renderGemma4Items]; exact List.cons_ne_nil _ _), ih]

theorem marks_entries : ∀ (entries : List (String × Json)) {rest : Str}, UndelimitedEntries entries →
    marks (Json.commas (renderGemma4Entries entries) ++ '\x7d' :: rest) =
      entriesMarks entries + marks rest
  | [], rest, _ => by
    rw [renderGemma4Entries, Json.commas, List.nil_append, marks_cons_ne (by decide), entriesMarks]
    rfl
  | (key, value) :: entries, rest, h => by
    rw [UndelimitedEntries] at h
    obtain ⟨-, hvalue, hrest⟩ := h
    have hone : mark ':' = 1 := rfl
    rw [renderGemma4Entries, commas_cons_append, List.append_assoc, List.cons_append,
      marks_append (fresh_cons (by decide) _), marks_cons_ne (by decide),
      marks_render value hvalue (fresh_of_stops (stops_afterPart (.inr rfl) _ _)),
      marks_afterPart (.inr rfl), entriesMarks, hone]
    have ih := @marks_entries entries rest hrest
    have htail : marks (if renderGemma4Entries entries = [] then rest
        else Json.commas (renderGemma4Entries entries) ++ '\x7d' :: rest) =
        entriesMarks entries + marks rest := by
      cases entries with
      | nil => rw [renderGemma4Entries, if_pos rfl, entriesMarks, Nat.zero_add]
      | cons entry entries =>
        obtain ⟨key', value'⟩ := entry
        rw [if_neg (by rw [renderGemma4Entries]; exact List.cons_ne_nil _ _), ih]
    rw [htail]
    omega

end

/-! ### Reading the parts of a printed text -/

section Parts

variable {E : Env} {fuel : ℕ}

theorem readValue_numberText {text : Str} {c : Char} {token : Str} (h : NumberText text c token)
    {rest : Str} (hrest : Stops rest) :
    readValue E (fuel + 1) (text ++ rest) = .ok (atomValue E text, rest) := by
  have hword : ∀ d ∈ c :: token, isAtomChar d = true := by
    refine List.forall_mem_cons.2 ⟨isAtomChar_of_isNumberChar (isNumberChar_of_first h.first), ?_⟩
    exact fun d hd => isAtomChar_of_isNumberChar (h.chars d hd)
  have hfirst : c ≠ '\x7b' ∧ c ≠ '[' ∧ c ≠ '"' ∧ c ≠ '<' := by
    have hc := h.first
    refine ⟨?_, ?_, ?_, ?_⟩ <;> rintro rfl <;> exact absurd hc (by decide)
  rw [h.eq, List.cons_append, readValue_word hword hfirst hrest]

/-- A number comes out as itself just if it is read back. -/
theorem atomValue_numberText {text : Str} {c : Char} {token : Str} (h : NumberText text c token)
    {v : Json} (hv : v.asStr = none) : atomValue E text = v ↔ E.fromStr text = .ok v := by
  rw [h.eq]
  constructor
  · intro hatom
    cases hread : E.fromStr (c :: token) with
    | ok value =>
      rw [← hatom, atomValue_number h.first hread]
    | error e =>
      exfalso
      have hne : ∀ word : Str, word.head?.any (fun d => d.isDigit || d == '-') = false →
          c :: token ≠ word := by
        rintro _ hfirst rfl
        have hany : (c.isDigit || c == '-') = false := hfirst
        rw [h.first] at hany
        cases hany
      rw [atomValue, if_neg (hne "true".toList rfl), if_neg (hne "false".toList rfl),
        if_neg (hne "null".toList rfl), hread] at hatom
      rw [← hatom] at hv
      cases hv
  · exact fun hread => atomValue_number h.first hread

theorem readGemmaString_printed {s : Str} (h : ¬stringDelimiter <:+: s) (rest : Str) :
    readGemmaString (renderGemma4String s ++ rest) = .ok (s, rest) := by
  have hcut : cut gemmaQuote (s ++ gemmaQuote ++ rest) = some (s, rest) :=
    IsTag.cut_append (by decide) h rest
  rw [renderGemma4String_eq h, List.append_assoc, readGemmaString, stripPrefix_append]
  simp only [hcut]

theorem readValue_printed {s : Str} (h : ¬stringDelimiter <:+: s) (rest : Str) :
    readValue E (fuel + 1) (renderGemma4String s ++ rest) =
      .ok (.string (String.ofList s), rest) := by
  have hread := readGemmaString_printed h rest
  have hstarts : startsWith (renderGemma4String s ++ rest) gemmaQuote = true := by
    rw [renderGemma4String_eq h, List.append_assoc]
    exact startsWith_iff.2 ⟨_, rfl⟩
  obtain ⟨t, ht⟩ : ∃ t, renderGemma4String s ++ rest = '<' :: t := ⟨_, rfl⟩
  rw [ht] at hread hstarts ⊢
  rw [readValue, trimStart_cons (by decide)]
  dsimp only [List.head?_cons]
  rw [if_neg (by decide), if_neg (by decide), if_neg (by decide), if_pos ⟨rfl, hstarts⟩, hread]
  rfl

theorem not_space_of_isKeyChar {c : Char} (h : isKeyChar c = true) : isWhitespace c = false := by
  by_contra hw
  rw [Bool.not_eq_false] at hw
  rw [isKeyChar, hw, Bool.or_true] at h
  cases h

theorem takeWhile_key {key : Str} (h : ∀ c ∈ key, isKeyChar c = true) (rest : Str) :
    (key ++ ':' :: rest).takeWhile isKeyChar = key ∧
      (key ++ ':' :: rest).dropWhile isKeyChar = ':' :: rest := by
  rw [List.takeWhile_append_of_pos h, List.dropWhile_append_of_pos h]
  exact ⟨List.append_nil key, rfl⟩

/-- A bare key is read as it was printed. -/
theorem readKey_bare {key : Str} (h : BareKey key) (hfree : ¬stringDelimiter <:+: key) (rest : Str) :
    ∃ c t, key ++ ':' :: rest = c :: t ∧ c ≠ '\x7d' ∧ trimStart (key ++ ':' :: rest) = c :: t ∧
      readKey E (c :: t) = .ok (key, ':' :: rest) := by
  obtain ⟨c, k, rfl⟩ := List.exists_cons_of_ne_nil h.ne_nil
  obtain ⟨hquote, hclose⟩ := h.first c rfl
  have hspace := not_space_of_isKeyChar (h.chars c (List.mem_cons_self ..))
  obtain ⟨htake, hdrop⟩ := takeWhile_key h.chars rest
  have htag : ¬(c = '<' ∧ startsWith (c :: (k ++ ':' :: rest)) gemmaQuote = true) := by
    rintro ⟨-, hstarts⟩
    have hpre : gemmaQuote <+: c :: k :=
      quote_prefix_append (fresh_cons (by decide) rest) (List.cons_ne_nil _ _)
        (startsWith_iff.1 hstarts)
    exact hfree hpre.isInfix
  refine ⟨c, k ++ ':' :: rest, rfl, hclose, trimStart_cons hspace _, ?_⟩
  rw [List.cons_append] at htake hdrop
  rw [readKey, trimStart_cons hspace]
  dsimp only [List.head?_cons]
  rw [if_neg hquote, if_neg htag, htake, hdrop, if_neg (List.cons_ne_nil _ _)]

/-- What a printed value starts with. -/
theorem render_head {v : Json} (h : Undelimited v) :
    ∃ c t, renderGemma4Argument v = c :: t ∧ isWhitespace c = false ∧ c ≠ ']' := by
  have hnumber : ∀ {text : Str} {c : Char} {token : Str}, NumberText text c token →
      ∃ c t, text = c :: t ∧ isWhitespace c = false ∧ c ≠ ']' := by
    intro text c token hnumber
    have hc := isNumberChar_of_first hnumber.first
    refine ⟨c, token, hnumber.eq, isWhitespace_of_isNumberChar hc, ?_⟩
    rintro rfl
    exact absurd hc (by decide)
  unfold renderGemma4Argument
  split
  · exact ⟨_, _, rfl, by decide, by decide⟩
  · exact ⟨_, _, rfl, by decide, by decide⟩
  · exact ⟨_, _, rfl, by decide, by decide⟩
  · next n =>
    obtain ⟨c, token, hn⟩ := numberText_u64 n
    exact hnumber hn
  · next text =>
    obtain ⟨c, token, hn⟩ := (@numberText_number text) (by rwa [Undelimited] at h)
    exact hnumber hn
  · exact ⟨_, _, rfl, by decide, by decide⟩
  · exact ⟨_, _, rfl, by decide, by decide⟩
  · exact ⟨_, _, rfl, by decide, by decide⟩

end Parts

/-! ### A value whose keys are bare is read back -/

theorem afterPart_items (items : List Json) (rest : Str) :
    (items = [] ∧ afterPart ']' (renderGemma4Items items) rest = ']' :: rest) ∨
      (items ≠ [] ∧ afterPart ']' (renderGemma4Items items) rest =
        ',' :: (Json.commas (renderGemma4Items items) ++ ']' :: rest)) := by
  cases items with
  | nil => exact .inl ⟨rfl, rfl⟩
  | cons item items => exact .inr ⟨List.cons_ne_nil _ _, rfl⟩

theorem afterPart_entries (entries : List (String × Json)) (rest : Str) :
    (entries = [] ∧ afterPart '\x7d' (renderGemma4Entries entries) rest = '\x7d' :: rest) ∨
      (entries ≠ [] ∧ afterPart '\x7d' (renderGemma4Entries entries) rest =
        ',' :: (Json.commas (renderGemma4Entries entries) ++ '\x7d' :: rest)) := by
  cases entries with
  | nil => exact .inl ⟨rfl, rfl⟩
  | cons entry entries => exact .inr ⟨List.cons_ne_nil _ _, rfl⟩

theorem commas_entries (key : String) (value : Json) (entries : List (String × Json)) (rest : Str) :
    Json.commas (renderGemma4Entries ((key, value) :: entries)) ++ '\x7d' :: rest =
      key.toList ++ ':' :: (renderGemma4Argument value ++
        afterPart '\x7d' (renderGemma4Entries entries) rest) := by
  rw [renderGemma4Entries, commas_cons_append, List.append_assoc, List.cons_append]

theorem commas_items (item : Json) (items : List Json) (rest : Str) :
    Json.commas (renderGemma4Items (item :: items)) ++ ']' :: rest =
      renderGemma4Argument item ++ afterPart ']' (renderGemma4Items items) rest := by
  rw [renderGemma4Items, commas_cons_append]

/-- What was printed with bare keys is read, whatever follows, by induction on the fuel. -/
theorem read_rendered {E : Env} : ∀ fuel : ℕ,
    (∀ v rest, Undelimited v → Survives E v → Stops rest →
      2 * (renderGemma4Argument v ++ rest).length + 1 ≤ fuel →
      readValue E fuel (renderGemma4Argument v ++ rest) = .ok (v, rest)) ∧
    (∀ entries map rest, UndelimitedEntries entries → SurviveEntries E entries →
      ((map ++ entries).map Prod.fst).Nodup →
      2 * (Json.commas (renderGemma4Entries entries) ++ '\x7d' :: rest).length + 2 ≤ fuel →
      readEntries E fuel (Json.commas (renderGemma4Entries entries) ++ '\x7d' :: rest) map =
        .ok (.object (map ++ entries), rest)) ∧
    (∀ items values rest, UndelimitedItems items → SurviveItems E items →
      2 * (Json.commas (renderGemma4Items items) ++ ']' :: rest).length + 2 ≤ fuel →
      readValues E fuel (Json.commas (renderGemma4Items items) ++ ']' :: rest) values =
        .ok (.array (values ++ items), rest))
  | 0 => ⟨fun _ _ _ _ _ h => by omega, fun _ _ _ _ _ _ h => by omega, fun _ _ _ _ _ h => by omega⟩
  | fuel + 1 => by
    obtain ⟨ihValue, ihEntries, ihItems⟩ := read_rendered (E := E) fuel
    refine ⟨fun v rest hv hs hrest hfuel => ?_, fun entries map rest hv hs hnodup hfuel => ?_,
      fun items values rest hv hs hfuel => ?_⟩
    · cases v with
      | null => exact readValue_word (List.all_eq_true.1 (by decide)) (by decide) hrest
      | bool b => cases b <;> exact readValue_word (List.all_eq_true.1 (by decide)) (by decide) hrest
      | u64 n =>
        obtain ⟨c, token, hn⟩ := numberText_u64 n
        have hback : E.fromStr (Nat.toDigits 10 n) = .ok (.u64 n) := by
          rw [Survives, ParsesBack, Json.chars] at hs
          exact hs
        rw [renderGemma4Argument, readValue_numberText hn hrest,
          (atomValue_numberText hn rfl).2 hback]
      | number text =>
        obtain ⟨c, token, hn⟩ := (@numberText_number text) (by rwa [Undelimited] at hv)
        have hback : E.fromStr text.toList = .ok (.number text) := by
          rw [Survives, ParsesBack, Json.chars] at hs
          exact hs
        rw [renderGemma4Argument, readValue_numberText hn hrest,
          (atomValue_numberText hn rfl).2 hback]
      | string s =>
        rw [Undelimited] at hv
        rw [renderGemma4Argument, readValue_printed hv, String.ofList_toList]
      | array items =>
        rw [Undelimited] at hv
        rw [Survives] at hs
        rw [renderGemma4Argument, List.cons_append, List.append_assoc, List.singleton_append] at hfuel ⊢
        rw [List.length_cons] at hfuel
        rw [readValue_array, ihItems items [] rest hv hs (by omega), List.nil_append]
      | object entries =>
        rw [Undelimited] at hv
        rw [Survives] at hs
        rw [renderGemma4Argument, List.cons_append, List.append_assoc, List.singleton_append] at hfuel ⊢
        rw [List.length_cons] at hfuel
        rw [readValue_object, ihEntries entries [] rest hv.2 hs hv.1 (by omega), List.nil_append]
    · cases entries with
      | nil =>
        rw [renderGemma4Entries, Json.commas, List.nil_append,
          readEntries_close map (trimStart_cons (by decide) rest), List.append_nil]
      | cons entry entries =>
        obtain ⟨key, value⟩ := entry
        rw [UndelimitedEntries] at hv
        rw [SurviveEntries] at hs
        obtain ⟨hfree, hvalue, hmore⟩ := hv
        obtain ⟨hkey, hsvalue, hsmore⟩ := hs
        rw [commas_entries] at hfuel ⊢
        obtain ⟨c, t, hct, hc, htrim, hread⟩ := readKey_bare (E := E) hkey hfree
          (renderGemma4Argument value ++ afterPart '\x7d' (renderGemma4Entries entries) rest)
        have hfresh : key ∉ map.map Prod.fst := by
          intro hmem
          rw [List.map_append, List.map_cons, List.nodup_append] at hnodup
          exact hnodup.2.2 key hmem key (List.mem_cons_self ..) rfl
        have hlen : 2 * (renderGemma4Argument value ++
            afterPart '\x7d' (renderGemma4Entries entries) rest).length + 1 ≤ fuel := by
          simp only [List.length_append, List.length_cons] at hfuel ⊢
          omega
        have hreadValue := ihValue value (afterPart '\x7d' (renderGemma4Entries entries) rest) hvalue
          hsvalue (stops_afterPart (.inr rfl) _ _) hlen
        have hassoc : map ++ (key, value) :: entries = map ++ [(key, value)] ++ entries := by simp
        rw [hassoc] at hnodup ⊢
        rcases afterPart_entries entries rest with ⟨rfl, hafter⟩ | ⟨-, hafter⟩
        · have hround := (readEntries_round map htrim hc hread (trimStart_cons (by decide) _)
            hreadValue (hafter ▸ trimStart_cons (by decide) rest)).2 rfl
          rw [hround, String.ofList_toList, insertKey_of_notMem hfresh, List.append_nil]
        · have hsep := trimStart_cons (c := ',') (by decide)
            (Json.commas (renderGemma4Entries entries) ++ '\x7d' :: rest)
          rw [← hafter] at hsep
          have hround := (readEntries_round map htrim hc hread (trimStart_cons (by decide) _)
            hreadValue (hsep.trans hafter)).1 rfl
          rw [hround, String.ofList_toList, insertKey_of_notMem hfresh]
          refine ihEntries entries _ rest hmore hsmore hnodup ?_
          simp only [hafter, List.length_append, List.length_cons] at hlen ⊢
          omega
    · cases items with
      | nil =>
        rw [renderGemma4Items, Json.commas, List.nil_append,
          readValues_close values (trimStart_cons (by decide) rest), List.append_nil]
      | cons item items =>
        rw [UndelimitedItems] at hv
        rw [SurviveItems] at hs
        rw [commas_items] at hfuel ⊢
        obtain ⟨c, t, hct, hspace, hc⟩ := render_head hv.1
        have hreadValue := ihValue item (afterPart ']' (renderGemma4Items items) rest) hv.1
          hs.1 (stops_afterPart (.inl rfl) _ _) (by omega)
        have htrim : trimStart (renderGemma4Argument item ++
            afterPart ']' (renderGemma4Items items) rest) =
            c :: (t ++ afterPart ']' (renderGemma4Items items) rest) := by
          rw [hct]
          exact trimStart_cons hspace _
        rw [hct, List.cons_append] at hreadValue
        have hassoc : values ++ item :: items = values ++ [item] ++ items := by simp
        rw [hassoc]
        rcases afterPart_items items rest with ⟨rfl, hafter⟩ | ⟨-, hafter⟩
        · have hround := (readValues_round values htrim hc hreadValue
            (hafter ▸ trimStart_cons (by decide) rest)).2 rfl
          rw [hround, List.append_nil]
        · have hsep := trimStart_cons (c := ',') (by decide)
            (Json.commas (renderGemma4Items items) ++ ']' :: rest)
          rw [← hafter] at hsep
          have hround := (readValues_round values htrim hc hreadValue (hsep.trans hafter)).1 rfl
          rw [hround]
          refine ihItems items _ rest hv.2 hs.2 ?_
          simp only [hafter, hct, List.length_append, List.length_cons] at hfuel ⊢
          omega

/-! ### What is read back has bare keys -/

theorem marks_afterItems {items : List Json} (h : UndelimitedItems items) (rest : Str) :
    marks (afterPart ']' (renderGemma4Items items) rest) = valuesMarks items + marks rest := by
  rcases afterPart_items items rest with ⟨rfl, hafter⟩ | ⟨-, hafter⟩
  · rw [hafter, marks_cons_ne (by decide), valuesMarks]
    rfl
  · rw [hafter, marks_cons_ne (by decide), marks_items items h]
    exact Nat.zero_add _

theorem marks_afterEntries {entries : List (String × Json)} (h : UndelimitedEntries entries)
    (rest : Str) : marks (afterPart '\x7d' (renderGemma4Entries entries) rest) =
      entriesMarks entries + marks rest := by
  rcases afterPart_entries entries rest with ⟨rfl, hafter⟩ | ⟨-, hafter⟩
  · rw [hafter, marks_cons_ne (by decide), entriesMarks]
    rfl
  · rw [hafter, marks_cons_ne (by decide), marks_entries entries h]
    exact Nat.zero_add _

/-- A key that is read as it was printed, without quotes around it. -/
theorem bareKey_of_read {E : Env} {key rest r₁ : Str} (hfree : ¬stringDelimiter <:+: key)
    (hclose : (trimStart (key ++ ':' :: rest)).head? ≠ some '\x7d')
    (hquote : (trimStart (key ++ ':' :: rest)).head? ≠ some '"')
    (h : readKey E (trimStart (key ++ ':' :: rest)) = .ok (key, r₁)) : BareKey key := by
  have htag : ¬gemmaQuote <+: trimStart (key ++ ':' :: rest) := by
    intro hpre
    rw [trimStart, List.dropWhile_append] at hpre
    split at hpre
    · exact not_starts_quote (by decide) rest hpre
    · next hne =>
      have hkey := quote_prefix_append (fresh_cons (by decide) rest)
        (fun hnil => hne (List.isEmpty_iff.2 hnil)) hpre
      exact hfree (hkey.isInfix.trans (List.dropWhile_suffix isWhitespace).isInfix)
  rw [readKey, trimStart_trimStart] at h
  cases hhead : (trimStart (key ++ ':' :: rest)).head? with
  | none =>
    rw [hhead] at h
    cases h
  | some c =>
    rw [hhead] at h hclose hquote
    dsimp only at h
    rw [if_neg fun heq => hquote (congrArg some heq),
      if_neg fun heq => htag (startsWith_iff.1 heq.2)] at h
    by_cases hempty : (trimStart (key ++ ':' :: rest)).takeWhile isKeyChar = []
    · rw [if_pos hempty] at h
      cases h
    · rw [if_neg hempty] at h
      obtain ⟨hkey, -⟩ := Prod.mk.inj (Except.ok.inj h)
      have hchars : ∀ d ∈ key, isKeyChar d = true := by
        rw [← hkey]
        exact List.all_eq_true.1 List.all_takeWhile
      rw [hkey] at hempty
      refine ⟨hempty, hchars, fun d hd => ?_⟩
      obtain ⟨k, rfl⟩ := List.head?_eq_some_iff.1 hd
      have hspace := not_space_of_isKeyChar (hchars d (List.mem_cons_self ..))
      rw [List.cons_append, trimStart_cons hspace] at hhead
      obtain rfl : d = c := Option.some.inj hhead
      exact ⟨fun heq => hquote (congrArg some heq), fun heq => hclose (congrArg some heq)⟩

/-- An entry of a printed object that is read as this object was read from its own place: its
key is a bare one, and no mark of its value was lost. -/
theorem entry_in_place {E : Env} (hE : SerdeReads E) {fuel : ℕ} {key : String} {value : Json}
    {entries map : List (String × Json)} {rest r' : Str}
    (hv : UndelimitedEntries ((key, value) :: entries)) (hnodup : (map.map Prod.fst).Nodup)
    (h : readEntries E (fuel + 1)
      (Json.commas (renderGemma4Entries ((key, value) :: entries)) ++ '\x7d' :: rest) map =
        .ok (.object (map ++ (key, value) :: entries), r'))
    (htight : marks rest ≤ marks r') :
    BareKey key.toList ∧ ∃ r₃, readValue E fuel (renderGemma4Argument value ++
        afterPart '\x7d' (renderGemma4Entries entries) rest) = .ok (value, r₃) ∧
      marks (afterPart '\x7d' (renderGemma4Entries entries) rest) ≤ marks r₃ ∧
      ∀ r₄, trimStart r₃ = ',' :: r₄ → readEntries E fuel r₄ (map ++ [(key, value)]) =
        .ok (.object (map ++ (key, value) :: entries), r') := by
  obtain ⟨ihValue, ihEntries, -⟩ := marks_read hE fuel
  have htotal := @marks_entries ((key, value) :: entries) rest hv
  rw [UndelimitedEntries] at hv
  obtain ⟨hfree, hvalue, hmore⟩ := hv
  rw [commas_entries] at h htotal
  have hafter := marks_afterEntries hmore rest
  have htext := marks_render value hvalue
    (fresh_of_stops (stops_afterPart (.inr rfl) (renderGemma4Entries entries) rest))
  rcases readEntries_cases h with ⟨-, hclosed⟩ | ⟨key', r₁, r₂, value', r₃, hclose, hkey', hcolon,
    hvalue', hrest⟩
  · exact absurd (Json.object.inj hclosed) (by simp)
  have hfresh : Fresh r₃ := by
    rcases hrest with ⟨r₄, hr₄, -⟩ | ⟨hr₄, -⟩
    · exact fresh_of_separator hr₄ (by decide)
    · exact fresh_of_separator hr₄ (by decide)
  obtain ⟨hentry, hquoted⟩ := marks_entry hE hkey' hcolon (ihValue r₂ value' r₃ hvalue' hfresh)
  obtain ⟨hinsert, hold⟩ := entriesMarks_insertKey hnodup (String.ofList key') value'
  rw [String.toList_ofList] at hinsert hold
  have hsum := entriesMarks_append map ((key, value) :: entries)
  -- the entries that are read later add no more than the text after this one has
  have hlater : entriesMarks (map ++ (key, value) :: entries) + marks r' ≤
        entriesMarks (insertKey map (String.ofList key') value') + marks r₃ ∧
      (entriesMarks (insertKey map (String.ofList key') value') + marks r₃ ≤
          entriesMarks (map ++ (key, value) :: entries) + marks r' →
        insertKey map (String.ofList key') value' <+: map ++ (key, value) :: entries) := by
    rcases hrest with ⟨r₄, hr₄, hrest⟩ | ⟨hr₄, hrest⟩
    · have hsep := marks_separator hr₄ (by decide)
      obtain ⟨final, hfinal, hle, hpre⟩ := ihEntries r₄ _ _ r'
        (nodup_insertKey hnodup (String.ofList key') value') hrest
      obtain rfl := Json.object.inj hfinal
      exact ⟨by omega, fun hge => hpre (by omega)⟩
    · have hsep := marks_separator hr₄ (by decide)
      rw [Json.object.inj hrest]
      exact ⟨by omega, fun _ => List.prefix_rfl⟩
  have hnew : String.ofList key' ∉ map.map Prod.fst := hold (by omega)
  have hpre := hlater.2 (by omega)
  rw [insertKey_of_notMem hnew] at hpre
  have hsame : (String.ofList key', value') = (key, value) :=
    List.singleton_prefix_cons_iff.1 ((List.prefix_append_right_inj map).1 hpre)
  obtain ⟨hkey, rfl⟩ := Prod.mk.inj hsame
  obtain rfl : key' = key.toList := by rw [← hkey, String.toList_ofList]
  have hquote : (trimStart (key.toList ++ ':' :: (renderGemma4Argument value' ++
      afterPart '\x7d' (renderGemma4Entries entries) rest))).head? ≠ some '"' := by
    intro hhead
    have := hquoted hhead
    omega
  have hbare := bareKey_of_read hfree hclose hquote hkey'
  obtain ⟨c, t, hct, -, htrim, hread⟩ := readKey_bare (E := E) hbare hfree
    (renderGemma4Argument value' ++ afterPart '\x7d' (renderGemma4Entries entries) rest)
  rw [htrim, hread] at hkey'
  obtain ⟨-, rfl⟩ := Prod.mk.inj (Except.ok.inj hkey')
  rw [trimStart_cons (by decide)] at hcolon
  obtain rfl := (List.cons.inj hcolon).2
  refine ⟨hbare, r₃, hvalue', ?_, fun r₄ hr₄ => ?_⟩
  · have hlast := hlater.1
    rw [hsum, entriesMarks, insertKey_of_notMem hnew, entriesMarks_append, entriesMarks, entriesMarks,
      String.toList_ofList] at hlast
    omega
  · rcases hrest with ⟨r₅, hr₅, hrest⟩ | ⟨hr₅, -⟩
    · rw [hr₄] at hr₅
      obtain rfl := (List.cons.inj hr₅).2
      rwa [insertKey_of_notMem hnew, hkey] at hrest
    · rw [hr₄] at hr₅
      exact absurd (List.cons.inj hr₅).1 (by decide)

/-- An item of a printed array that is read as this array was read from its own place. -/
theorem item_in_place {E : Env} (hE : SerdeReads E) {fuel : ℕ} {item : Json} {items values : List Json}
    {rest r' : Str} (hv : UndelimitedItems (item :: items))
    (h : readValues E (fuel + 1)
      (Json.commas (renderGemma4Items (item :: items)) ++ ']' :: rest) values =
        .ok (.array (values ++ item :: items), r'))
    (htight : marks rest ≤ marks r') :
    ∃ r₁, readValue E fuel (renderGemma4Argument item ++
        afterPart ']' (renderGemma4Items items) rest) = .ok (item, r₁) ∧
      marks (afterPart ']' (renderGemma4Items items) rest) ≤ marks r₁ ∧
      ∀ r₂, trimStart r₁ = ',' :: r₂ → readValues E fuel r₂ (values ++ [item]) =
        .ok (.array (values ++ item :: items), r') := by
  obtain ⟨-, -, ihValues⟩ := marks_read hE fuel
  rw [UndelimitedItems] at hv
  rw [commas_items] at h
  have hafter := marks_afterItems hv.2 rest
  obtain ⟨c, t, hct, hspace, -⟩ := render_head hv.1
  have htrim : trimStart (renderGemma4Argument item ++ afterPart ']' (renderGemma4Items items) rest) =
      renderGemma4Argument item ++ afterPart ']' (renderGemma4Items items) rest := by
    rw [hct]
    exact trimStart_cons hspace _
  rcases readValues_cases h with ⟨-, hclosed⟩ | ⟨value, r₁, -, hvalue, hrest⟩
  · exact absurd (Json.array.inj hclosed) (by simp)
  rw [htrim] at hvalue
  obtain ⟨more, hmore, hle⟩ : ∃ more, values ++ item :: items = values ++ [value] ++ more ∧
      valuesMarks more + marks r' ≤ marks r₁ := by
    rcases hrest with ⟨r₂, hr₂, hrest⟩ | ⟨hr₂, hrest⟩
    · have hsep := marks_separator hr₂ (by decide)
      obtain ⟨more, hfinal, hle⟩ := ihValues r₂ _ _ r' hrest
      exact ⟨more, Json.array.inj hfinal, by omega⟩
    · have hsep := marks_separator hr₂ (by decide)
      exact ⟨[], by rw [Json.array.inj hrest, List.append_nil], by rw [valuesMarks]; omega⟩
  rw [List.append_assoc, List.singleton_append] at hmore
  obtain ⟨rfl, rfl⟩ := List.cons.inj (List.append_cancel_left hmore)
  refine ⟨r₁, hvalue, by omega, fun r₂ hr₂ => ?_⟩
  rcases hrest with ⟨r₃, hr₃, hrest⟩ | ⟨hr₃, -⟩
  · rw [hr₂] at hr₃
    obtain rfl := (List.cons.inj hr₃).2
    exact hrest
  · rw [hr₂] at hr₃
    exact absurd (List.cons.inj hr₃).1 (by decide)

/-- If a printed value is read as itself, and no mark of what follows is lost, its keys are bare
and its numbers are read back. By induction on the fuel. -/
theorem survives_of_read {E : Env} (hE : SerdeReads E) : ∀ fuel : ℕ,
    (∀ v rest r', Undelimited v → Stops rest →
      2 * (renderGemma4Argument v ++ rest).length + 1 ≤ fuel →
      readValue E fuel (renderGemma4Argument v ++ rest) = .ok (v, r') →
      marks rest ≤ marks r' → Survives E v) ∧
    (∀ entries map rest r', UndelimitedEntries entries → ((map ++ entries).map Prod.fst).Nodup →
      2 * (Json.commas (renderGemma4Entries entries) ++ '\x7d' :: rest).length + 2 ≤ fuel →
      readEntries E fuel (Json.commas (renderGemma4Entries entries) ++ '\x7d' :: rest) map =
        .ok (.object (map ++ entries), r') →
      marks rest ≤ marks r' → SurviveEntries E entries) ∧
    (∀ items values rest r', UndelimitedItems items →
      2 * (Json.commas (renderGemma4Items items) ++ ']' :: rest).length + 2 ≤ fuel →
      readValues E fuel (Json.commas (renderGemma4Items items) ++ ']' :: rest) values =
        .ok (.array (values ++ items), r') →
      marks rest ≤ marks r' → SurviveItems E items)
  | 0 => ⟨fun _ _ _ _ _ h => by omega, fun _ _ _ _ _ _ h => by omega, fun _ _ _ _ _ h => by omega⟩
  | fuel + 1 => by
    obtain ⟨ihValue, ihEntries, ihItems⟩ := survives_of_read hE fuel
    obtain ⟨hreadValue, -, -⟩ := read_rendered (E := E) fuel
    refine ⟨fun v rest r' hv hrest hfuel h htight => ?_,
      fun entries map rest r' hv hnodup hfuel h htight => ?_,
      fun items values rest r' hv hfuel h htight => ?_⟩
    · cases v with
      | null => trivial
      | bool b => trivial
      | string s => trivial
      | u64 n =>
        obtain ⟨c, token, hn⟩ := numberText_u64 n
        rw [renderGemma4Argument, readValue_numberText hn hrest] at h
        rw [Survives, ParsesBack, Json.chars]
        exact (atomValue_numberText hn rfl).1 (Prod.mk.inj (Except.ok.inj h)).1
      | number text =>
        obtain ⟨c, token, hn⟩ := (@numberText_number text) (by rwa [Undelimited] at hv)
        rw [renderGemma4Argument, readValue_numberText hn hrest] at h
        rw [Survives, ParsesBack, Json.chars]
        exact (atomValue_numberText hn rfl).1 (Prod.mk.inj (Except.ok.inj h)).1
      | array items =>
        rw [Undelimited] at hv
        rw [renderGemma4Argument, List.cons_append, List.append_assoc, List.singleton_append,
          readValue_array] at h
        rw [renderGemma4Argument, List.cons_append, List.append_assoc, List.singleton_append,
          List.length_cons] at hfuel
        rw [Survives]
        exact ihItems items [] rest r' hv (by omega) h htight
      | object entries =>
        rw [Undelimited] at hv
        rw [renderGemma4Argument, List.cons_append, List.append_assoc, List.singleton_append,
          readValue_object] at h
        rw [renderGemma4Argument, List.cons_append, List.append_assoc, List.singleton_append,
          List.length_cons] at hfuel
        rw [Survives]
        exact ihEntries entries [] rest r' hv.2 hv.1 (by omega) h htight
    · cases entries with
      | nil => trivial
      | cons entry entries =>
        obtain ⟨key, value⟩ := entry
        have hmap : (map.map Prod.fst).Nodup := by
          rw [List.map_append] at hnodup
          exact hnodup.of_append_left
        obtain ⟨hbare, r₃, hvalue', hle, hlater⟩ := entry_in_place hE hv hmap h htight
        rw [UndelimitedEntries] at hv
        obtain ⟨-, hvalue, hmore⟩ := hv
        rw [commas_entries] at hfuel
        have hlen : 2 * (renderGemma4Argument value ++
            afterPart '\x7d' (renderGemma4Entries entries) rest).length + 1 ≤ fuel := by
          simp only [List.length_append, List.length_cons] at hfuel ⊢
          omega
        have hstops := stops_afterPart (.inr rfl) (renderGemma4Entries entries) rest
        have hs := ihValue value _ r₃ hvalue hstops hlen hvalue' hle
        rw [hreadValue value _ hvalue hs hstops hlen] at hvalue'
        obtain rfl := (Prod.mk.inj (Except.ok.inj hvalue')).2
        rw [SurviveEntries]
        refine ⟨hbare, hs, ?_⟩
        rcases afterPart_entries entries rest with ⟨rfl, -⟩ | ⟨-, hafter⟩
        · trivial
        · rw [hafter] at hlater hlen
          have hassoc : map ++ (key, value) :: entries = map ++ [(key, value)] ++ entries := by simp
          rw [hassoc] at hnodup hlater
          refine ihEntries entries _ rest r' hmore hnodup ?_
            (hlater _ (trimStart_cons (by decide) _)) htight
          simp only [List.length_append, List.length_cons] at hlen ⊢
          omega
    · cases items with
      | nil => trivial
      | cons item items =>
        obtain ⟨r₁, hvalue', hle, hlater⟩ := item_in_place hE hv h htight
        rw [UndelimitedItems] at hv
        rw [commas_items] at hfuel
        have hstops := stops_afterPart (.inl rfl) (renderGemma4Items items) rest
        have hs := ihValue item _ r₁ hv.1 hstops (by omega) hvalue' hle
        rw [hreadValue item _ hv.1 hs hstops (by omega)] at hvalue'
        obtain rfl := (Prod.mk.inj (Except.ok.inj hvalue')).2
        rw [SurviveItems]
        refine ⟨hs, ?_⟩
        rcases afterPart_items items rest with ⟨rfl, -⟩ | ⟨-, hafter⟩
        · trivial
        · rw [hafter] at hlater hfuel
          have hassoc : values ++ item :: items = values ++ [item] ++ items := by simp
          rw [hassoc] at hlater
          refine ihItems items _ rest r' hv.2 ?_ (hlater _ (trimStart_cons (by decide) _)) htight
          obtain ⟨c, t, hct, -, -⟩ := render_head hv.1
          simp only [hct, List.length_append, List.length_cons] at hfuel ⊢
          omega

/-- **Arguments come back just if their keys are bare.** An object that was printed is read as
itself if and only if no key in it is empty, contains a colon or space or starts like a quoted
key or the end of an object, and every number is read back from its text. -/
theorem arguments_survive_iff {E : Env} (hE : SerdeReads E) {value : Json} (hv : Undelimited value) :
    GemmaArgumentParser.parseComplete E (renderGemma4Argument value) = .ok value ↔
      Survives E value := by
  have hstops : Stops [] := nofun
  rw [parseComplete_eq, readComplete]
  constructor
  · intro h
    obtain ⟨⟨value', r'⟩, hread, h⟩ := bind_eq_ok.1 h
    dsimp only at h
    split at h
    · cases h
    · obtain rfl := pure_eq_ok.1 h
      refine (survives_of_read hE _).1 value' [] r' hv hstops ?_ (by rwa [List.append_nil])
        (Nat.zero_le _)
      rw [List.append_nil]
      omega
  · intro hs
    have hread := (read_rendered (E := E) (2 * (renderGemma4Argument value).length + 2)).1 value []
      hv hs hstops (by rw [List.append_nil]; omega)
    rw [List.append_nil] at hread
    rw [hread, ok_bind]
    rfl

/-! ### The reader of compact JSON -/

theorem parseString_unescapes {cs s rest : Str} (h : Json.parseString cs = some (s, rest)) :
    ∃ body, cs = body ++ '"' :: rest ∧ Unescapes body s := by
  induction cs using Json.parseString.induct generalizing s with
  | case1 => cases h
  | case2 cs =>
    rw [Json.parseString] at h
    obtain ⟨rfl, rfl⟩ := Prod.mk.inj (Option.some.inj h)
    exact ⟨[], rfl, .nil⟩
  | case3 a b c d cs ih =>
    rw [Json.parseString] at h
    simp only [Option.bind_eq_bind, Option.bind_eq_some_iff, Option.map_eq_some_iff] at h
    obtain ⟨_, ha, _, hb, _, hc, _, hd, ⟨s', rest'⟩, hs, heq⟩ := h
    obtain ⟨rfl, rfl⟩ := Prod.mk.inj heq
    obtain ⟨body, rfl, hbody⟩ := ih hs
    have hhex : ∀ x ∈ [a, b, c, d], (Json.hexValue x).isSome = true := by
      simp [ha, hb, hc, hd]
    exact ⟨_, rfl, .escape (@EscapeText.unicode [a, b, c, d] _ rfl hhex) hbody⟩
  | case4 e cs hne ih =>
    rw [Json.parseString.eq_4 e cs hne] at h
    simp only [Option.bind_eq_bind, Option.bind_eq_some_iff, Option.map_eq_some_iff] at h
    obtain ⟨c, hc, ⟨s', rest'⟩, hs, heq⟩ := h
    obtain ⟨rfl, rfl⟩ := Prod.mk.inj heq
    obtain ⟨body, rfl, hbody⟩ := ih hs
    exact ⟨_, rfl, .escape (.simple hc) hbody⟩
  | case5 c cs hquote hunicode hescape hcontrol =>
    rw [Json.parseString.eq_5 c cs hquote hunicode hescape, if_pos hcontrol] at h
    cases h
  | case6 c cs hquote hunicode hescape hcontrol ih =>
    rw [Json.parseString.eq_5 c cs hquote hunicode hescape, if_neg hcontrol,
      Option.map_eq_some_iff] at h
    obtain ⟨⟨s', rest'⟩, hs, heq⟩ := h
    obtain ⟨rfl, rfl⟩ := Prod.mk.inj heq
    obtain ⟨body, rfl, hbody⟩ := ih hs
    refine ⟨c :: body, rfl, .char hquote ?_ hbody⟩
    rintro rfl
    obtain ⟨d, ds, hcs⟩ : ∃ d ds, body ++ '"' :: rest' = d :: ds :=
      List.exists_cons_of_ne_nil (by simp)
    exact hescape d ds rfl hcs

theorem parseValue_scalar {depth : ℕ} {text rest : Str} {value : Json}
    (h : Json.parseValue depth text = some (value, rest))
    (hhead : ∀ c ∈ text.head?, c ≠ '"' ∧ c ≠ '[' ∧ c ≠ '\x7b' ∧ isWhitespace c = false) :
    value.asStr = none ∧ value.asArray = none ∧ value.asObject = none := by
  rw [Json.parseValue.eq_def] at h
  split at h
  · obtain ⟨rfl, -⟩ := Prod.mk.inj (Option.some.inj h)
    exact ⟨rfl, rfl, rfl⟩
  · obtain ⟨rfl, -⟩ := Prod.mk.inj (Option.some.inj h)
    exact ⟨rfl, rfl, rfl⟩
  · obtain ⟨rfl, -⟩ := Prod.mk.inj (Option.some.inj h)
    exact ⟨rfl, rfl, rfl⟩
  · exact absurd rfl (hhead '"' rfl).1
  · exact absurd rfl (hhead '[' rfl).2.1
  · exact absurd rfl (hhead '\x7b' rfl).2.2.1
  · split at h
    · obtain ⟨v, hv, h⟩ := Option.bind_eq_some_iff.1 h
      obtain ⟨rfl, -⟩ := Prod.mk.inj (Option.some.inj h)
      unfold Json.numberOf at hv
      split at hv
      · obtain rfl := Option.some.inj hv
        exact ⟨rfl, rfl, rfl⟩
      split at hv
      · obtain rfl := Option.some.inj hv
        exact ⟨rfl, rfl, rfl⟩
      · cases hv
    · cases h
  · cases h

theorem compactEnv_serdeReads : SerdeReads compactEnv := by
  refine ⟨fun body s h => ?_, fun text value h hhead => ?_⟩
  · rcases hread : Json.parseString (body ++ ['"']) with _ | ⟨s', _ | ⟨c, rest⟩⟩
    · simp only [compactEnv, hread, reduceCtorEq] at h
    · simp only [compactEnv, hread, Except.ok.injEq] at h
      subst h
      obtain ⟨body', hbody, hs⟩ := parseString_unescapes hread
      obtain ⟨rfl, -⟩ := List.append_inj' hbody rfl
      exact hs
    · simp only [compactEnv, hread, reduceCtorEq] at h
  · rcases hread : Json.parseValue 127 text with _ | ⟨v, _ | ⟨c, rest⟩⟩
    · simp only [compactEnv, hread, reduceCtorEq] at h
    · simp only [compactEnv, hread, Except.ok.injEq] at h
      subst h
      exact parseValue_scalar hread hhead
    · simp only [compactEnv, hread, reduceCtorEq] at h

/-- Arguments with lists, numbers and text with markup. -/
def plainArguments : Json :=
  .object [("path", .string "a: \"b\"\n"), ("lines", .array [.u64 1, .object [("x.y", .null)]])]

theorem plainArguments_undelimited : Undelimited plainArguments :=
  ⟨by decide, by decide +kernel, (show ¬_ by decide +kernel), by decide +kernel,
    ⟨trivial, ⟨by decide, by decide +kernel, trivial, trivial⟩, trivial⟩, trivial⟩

theorem plainArguments_survive : Survives compactEnv plainArguments :=
  ⟨by decide, trivial, by decide, ⟨rfl, ⟨by decide, trivial, trivial⟩, trivial⟩, trivial⟩

theorem plainArguments_come_back :
    GemmaArgumentParser.parseComplete compactEnv (renderGemma4Argument plainArguments) =
      .ok plainArguments :=
  (arguments_survive_iff compactEnv_serdeReads plainArguments_undelimited).2 plainArguments_survive

/-- Arguments with a colon in a key. -/
def colonArguments : Json := .object [("a:b", .u64 1)]

theorem colon_splits_key :
    Undelimited colonArguments ∧
      GemmaArgumentParser.parseComplete compactEnv (renderGemma4Argument colonArguments) ≠
        .ok colonArguments ∧
      GemmaArgumentParser.parseComplete compactEnv (renderGemma4Argument colonArguments) =
        .ok (.object [("a", .string "b:1")]) := by
  have hread : GemmaArgumentParser.parseComplete compactEnv (renderGemma4Argument colonArguments) =
      .ok (.object [("a", .string "b:1")]) := by rfl
  refine ⟨⟨by decide, by decide +kernel, trivial, trivial⟩, ?_, hread⟩
  rw [hread]
  intro heq
  have hentries := Json.object.inj (Except.ok.inj heq)
  exact absurd (congrArg (List.map Prod.fst) hentries) (by decide)

end KirAi.ChatTemplate
