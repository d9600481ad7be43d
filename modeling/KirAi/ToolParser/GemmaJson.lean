/-
# The Gemma argument parser reads JSON

The argument parser of Gemma takes words without quotes for keys and values, and a comma in
front of a closing bracket. Here JSON is written down as a grammar of its own
(`ValueText` and the rules next to it): space in the four characters that JSON has for it,
quoted keys, and a later entry of a key in the place of an earlier one. What a string or a
number stands for is what `serde_json` reads from it.

Whatever the grammar derives the argument parser reads, up to the end, and with the same
value (`parseComplete_jsonText`). Its rounds are those of the grammar: a word ends where a
number does, since space and the characters after a value end both.

Key definitions: `ValueText`, `PaddedText`, `StringBody`.
Key theorems: `readAtom_word`, `read_jsonText`, `parseComplete_jsonText`.
-/
import KirAi.ToolParser.GemmaReader
import KirAi.ToolParser.Printed

namespace KirAi.ToolParser

open Lib Lib.Text
open KirAi.Runtime (Str ToolCall ToolCallFunction ParsedAssistant isWhitespace trim trimStart)
open GemmaArgumentParser (isKeyChar isAtomChar atomValue)
open GemmaReader

/-! ### The grammar -/

/-- `ws`: space, tab, line feed and carriage return. -/
def isJsonSpace (c : Char) : Bool := c == ' ' || c == '\t' || c == '\n' || c == '\r'

def JsonSpace (w : Str) : Prop := ∀ c ∈ w, isJsonSpace c = true

instance (w : Str) : Decidable (JsonSpace w) :=
  decidable_of_iff (w.all isJsonSpace = true) List.all_eq_true

/-- What stands between the quotes of a string. Which of the escapes there are is left to the
reader of strings. -/
inductive StringBody : Str → Prop
  | nil : StringBody []
  | char {c : Char} {body : Str} : c ≠ '"' → c ≠ '\\' → StringBody body → StringBody (c :: body)
  | escape {c : Char} {body : Str} : StringBody body → StringBody ('\\' :: c :: body)

/-- A string after its opening quote, and what it stands for. -/
inductive StringText (E : Env) : Str → Str → Prop
  | quoted {body s : Str} : StringBody body → E.stringFromStr ('"' :: (body ++ ['"'])) = .ok s →
      StringText E (body ++ ['"']) s

mutual

/-- A value without space around it. -/
inductive ValueText (E : Env) : Str → Json → Prop
  | wordNull : ValueText E "null".toList .null
  | wordTrue : ValueText E "true".toList (.bool true)
  | wordFalse : ValueText E "false".toList (.bool false)
  | number {c : Char} {token : Str} {value : Json} : (c.isDigit || c == '-') = true →
      (∀ d ∈ token, Json.isNumberChar d = true) → E.fromStr (c :: token) = .ok value →
      ValueText E (c :: token) value
  | string {text s : Str} : StringText E text s →
      ValueText E ('"' :: text) (.string (String.ofList s))
  | emptyArray {w : Str} : JsonSpace w → ValueText E ('[' :: (w ++ [']'])) (.array [])
  | array {text : Str} {values : List Json} : ItemsText E text values →
      ValueText E ('[' :: (text ++ [']'])) (.array values)
  | emptyObject {w : Str} : JsonSpace w → ValueText E ('\x7b' :: (w ++ ['\x7d'])) (.object [])
  | object {text : Str} {entries : List (String × Json)} : EntriesText E text entries →
      ValueText E ('\x7b' :: (text ++ ['\x7d']))
        (.object (entries.foldl (fun map entry => insertKey map entry.1 entry.2) []))

/-- A value with space around it. -/
inductive PaddedText (E : Env) : Str → Json → Prop
  | padded {w text w' : Str} {value : Json} : JsonSpace w → ValueText E text value → JsonSpace w' →
      PaddedText E (w ++ text ++ w') value

inductive ItemsText (E : Env) : Str → List Json → Prop
  | last {text : Str} {value : Json} : PaddedText E text value → ItemsText E text [value]
  | more {text rest : Str} {value : Json} {values : List Json} : PaddedText E text value →
      ItemsText E rest values → ItemsText E (text ++ ',' :: rest) (value :: values)

inductive EntryText (E : Env) : Str → String × Json → Prop
  | entry {w key w' text k : Str} {value : Json} : JsonSpace w → StringText E key k →
      JsonSpace w' → PaddedText E text value →
      EntryText E (w ++ '"' :: (key ++ (w' ++ ':' :: text))) (String.ofList k, value)

inductive EntriesText (E : Env) : Str → List (String × Json) → Prop
  | last {text : Str} {entry : String × Json} : EntryText E text entry → EntriesText E text [entry]
  | more {text rest : Str} {entry : String × Json} {entries : List (String × Json)} :
      EntryText E text entry → EntriesText E rest entries →
      EntriesText E (text ++ ',' :: rest) (entry :: entries)

end

/-! ### Words and strings -/

/-- No character that goes on with a word. -/
def Stops (rest : Str) : Prop := ∀ c ∈ rest.head?, isAtomChar c = false

theorem stops_cons {c : Char} (h : isAtomChar c = false) (rest : Str) : Stops (c :: rest) := by
  intro d hd
  rwa [← Option.some.inj hd]

theorem isWhitespace_of_isJsonSpace {c : Char} (h : isJsonSpace c = true) :
    isWhitespace c = true := by
  simp only [isJsonSpace, Bool.or_eq_true, beq_iff_eq] at h
  rcases h with ((rfl | rfl) | rfl) | rfl <;> decide

theorem isAtomChar_of_isWhitespace {c : Char} (h : isWhitespace c = true) :
    isAtomChar c = false := by
  simp [isAtomChar, h]

theorem Stops.append {w rest : Str} (hw : JsonSpace w) (h : Stops rest) : Stops (w ++ rest) := by
  cases w with
  | nil => exact h
  | cons c w =>
    exact stops_cons (isAtomChar_of_isWhitespace
      (isWhitespace_of_isJsonSpace (hw c (List.mem_cons_self ..)))) (w ++ rest)

/-- Space in front of a text that starts without is taken off. -/
theorem trimStart_space {w s : Str} (hw : JsonSpace w)
    (hs : ∀ c ∈ s.head?, isWhitespace c = false) : trimStart (w ++ s) = s :=
  dropWhile_whitespace (fun c hc => isWhitespace_of_isJsonSpace (hw c hc)) hs

theorem trimStart_cons {c : Char} (hc : isWhitespace c = false) (s : Str) :
    trimStart (c :: s) = c :: s := by
  refine trimStart_space (w := []) (fun _ h => by cases h) fun d hd => ?_
  rwa [← Option.some.inj hd]

theorem isAtomChar_of_isNumberChar {c : Char} (h : Json.isNumberChar c = true) :
    isAtomChar c = true := by
  have hw := isWhitespace_of_isNumberChar h
  have hcomma : c ≠ ',' := by
    rintro rfl
    exact absurd h (by decide)
  have hbrace : c ≠ '\x7d' := by
    rintro rfl
    exact absurd h (by decide)
  have hbracket : c ≠ ']' := by
    rintro rfl
    exact absurd h (by decide)
  simp [isAtomChar, hw, hcomma, hbrace, hbracket]

/-- A word in front of something that ends it. -/
theorem readAtom_word (E : Env) {word rest : Str} (hne : word ≠ [])
    (hword : ∀ c ∈ word, isAtomChar c = true) (hrest : Stops rest) :
    readAtom E (word ++ rest) = .ok (atomValue E word, rest) := by
  have htake : (word ++ rest).takeWhile isAtomChar = word := by
    rw [List.takeWhile_append_of_pos hword]
    cases rest with
    | nil => simp
    | cons c rest => simp [hrest c rfl]
  have hdrop : (word ++ rest).dropWhile isAtomChar = rest := by
    rw [List.dropWhile_append_of_pos hword]
    cases rest with
    | nil => rfl
    | cons c rest => simp [hrest c rfl]
  rw [readAtom, htake, hdrop, if_neg hne]

/-- The closing quote is the first one that no backslash escapes. -/
theorem stringEnd_body {body : Str} (h : StringBody body) (rest : Str) :
    stringEnd false (body ++ '"' :: rest) = some (body ++ ['"'], rest) := by
  induction h with
  | nil => rfl
  | char hquote hback _ ih =>
    rw [List.cons_append, stringEnd, if_neg Bool.false_ne_true, if_neg hback, if_neg hquote, ih]
    rfl
  | escape _ ih =>
    rw [List.cons_append, List.cons_append, stringEnd, if_neg Bool.false_ne_true, if_pos rfl,
      stringEnd, if_pos rfl, ih]
    rfl

theorem readJsonString_text {E : Env} {text s : Str} (h : StringText E text s) (rest : Str) :
    readJsonString E ('"' :: (text ++ rest)) = .ok (s, rest) := by
  obtain ⟨hbody, hs⟩ := h
  rename_i body
  have hexpect : expectChar '"' ('"' :: (body ++ ['"'] ++ rest)) = .ok (body ++ ['"'] ++ rest) := rfl
  rw [readJsonString, hexpect, ok_bind, List.append_assoc, List.singleton_append,
    stringEnd_body hbody, closeString, List.singleton_append, hs]
  rfl

theorem isNumberChar_of_first {c : Char} (h : (c.isDigit || c == '-') = true) :
    Json.isNumberChar c = true := by
  rw [Bool.or_eq_true] at h
  rcases h with h | h
  · exact Json.isNumberChar_of_isDigit h
  · rw [beq_iff_eq.1 h]
    decide

/-- What a value starts with. -/
theorem ValueText.head {E : Env} {text : Str} {value : Json} (h : ValueText E text value) :
    ∃ c rest, text = c :: rest ∧ isWhitespace c = false ∧ c ≠ ']' := by
  cases h with
  | wordNull => exact ⟨_, _, rfl, by decide, by decide⟩
  | wordTrue => exact ⟨_, _, rfl, by decide, by decide⟩
  | wordFalse => exact ⟨_, _, rfl, by decide, by decide⟩
  | @number c token _ hc =>
    refine ⟨c, token, rfl, isWhitespace_of_isNumberChar (isNumberChar_of_first hc), ?_⟩
    rintro rfl
    exact absurd hc (by decide)
  | string => exact ⟨_, _, rfl, by decide, by decide⟩
  | emptyArray => exact ⟨_, _, rfl, by decide, by decide⟩
  | array => exact ⟨_, _, rfl, by decide, by decide⟩
  | emptyObject => exact ⟨_, _, rfl, by decide, by decide⟩
  | object => exact ⟨_, _, rfl, by decide, by decide⟩

/-! ### Reading what the grammar derives -/

section Reading

variable {E : Env}

/-- A value that is a word, whatever it starts with besides the characters of other values. -/
theorem readValue_word {fuel : ℕ} {c : Char} {word rest : Str}
    (hword : ∀ d ∈ c :: word, isAtomChar d = true)
    (hc : c ≠ '\x7b' ∧ c ≠ '[' ∧ c ≠ '"' ∧ c ≠ '<') (hrest : Stops rest) :
    readValue E (fuel + 1) (c :: (word ++ rest)) = .ok (atomValue E (c :: word), rest) := by
  have hspace : isWhitespace c = false := by
    have h := hword c (List.mem_cons_self ..)
    by_contra hw
    rw [isAtomChar_of_isWhitespace (by simpa using hw)] at h
    cases h
  obtain ⟨hbrace, hbracket, hquote, htag⟩ := hc
  rw [readValue, trimStart_cons hspace]
  dsimp only [List.head?_cons]
  rw [if_neg hbrace, if_neg hbracket, if_neg hquote, if_neg (fun h => htag h.1)]
  exact readAtom_word E (List.cons_ne_nil _ _) hword hrest

theorem consumeChar_cons (c : Char) (r : Str) : consumeChar c (c :: r) = (true, r) := if_pos rfl

theorem consumeChar_ne {c d : Char} (h : d ≠ c) (r : Str) :
    consumeChar c (d :: r) = (false, d :: r) :=
  if_neg fun heq => h (Option.some.inj heq)

theorem expectChar_cons (c : Char) (r : Str) : expectChar c (c :: r) = .ok r := if_pos rfl

/-- A round over the values of an array. -/
theorem readValues_round {fuel : ℕ} {r r₀ r₁ r₂ : Str} {c sep : Char} {value : Json}
    (values : List Json) (htrim : trimStart r = c :: r₀) (hc : c ≠ ']')
    (hvalue : readValue E fuel (c :: r₀) = .ok (value, r₁)) (hsep : trimStart r₁ = sep :: r₂) :
    (sep = ',' → readValues E (fuel + 1) r values = readValues E fuel r₂ (values ++ [value])) ∧
      (sep = ']' → readValues E (fuel + 1) r values = .ok (.array (values ++ [value]), r₂)) := by
  have hround := readValues.eq_2 E r values fuel
  rw [htrim, consumeChar_ne hc] at hround
  dsimp only at hround
  rw [if_neg Bool.false_ne_true, hvalue, ok_bind] at hround
  dsimp only at hround
  rw [hsep] at hround
  refine ⟨?_, ?_⟩
  · rintro rfl
    rw [hround, consumeChar_cons, if_pos rfl]
  · rintro rfl
    rw [hround, consumeChar_ne (by decide), if_neg Bool.false_ne_true, expectChar_cons]
    rfl

/-- A round over the entries of an object. -/
theorem readEntries_round {fuel : ℕ} {r r₀ r₁ r₂ r₃ r₄ : Str} {c sep : Char} {key : Str}
    {value : Json} (map : List (String × Json)) (htrim : trimStart r = c :: r₀) (hc : c ≠ '\x7d')
    (hkey : readKey E (c :: r₀) = .ok (key, r₁)) (hcolon : trimStart r₁ = ':' :: r₂)
    (hvalue : readValue E fuel r₂ = .ok (value, r₃)) (hsep : trimStart r₃ = sep :: r₄) :
    (sep = ',' → readEntries E (fuel + 1) r map =
        readEntries E fuel r₄ (insertKey map (String.ofList key) value)) ∧
      (sep = '\x7d' → readEntries E (fuel + 1) r map =
        .ok (.object (insertKey map (String.ofList key) value), r₄)) := by
  have hround := readEntries.eq_2 E r map fuel
  rw [htrim, consumeChar_ne hc] at hround
  dsimp only at hround
  rw [if_neg Bool.false_ne_true, hkey, ok_bind] at hround
  dsimp only at hround
  rw [hcolon, expectChar_cons, ok_bind, hvalue, ok_bind] at hround
  dsimp only at hround
  rw [hsep] at hround
  refine ⟨?_, ?_⟩
  · rintro rfl
    rw [hround, consumeChar_cons, if_pos rfl]
  · rintro rfl
    rw [hround, consumeChar_ne (by decide), if_neg Bool.false_ne_true, expectChar_cons]
    rfl

theorem readValues_close {fuel : ℕ} {r r₀ : Str} (values : List Json)
    (htrim : trimStart r = ']' :: r₀) : readValues E (fuel + 1) r values = .ok (.array values, r₀) := by
  rw [readValues, htrim, consumeChar_cons]
  rfl

theorem readEntries_close {fuel : ℕ} {r r₀ : Str} (map : List (String × Json))
    (htrim : trimStart r = '\x7d' :: r₀) :
    readEntries E (fuel + 1) r map = .ok (.object map, r₀) := by
  rw [readEntries, htrim, consumeChar_cons]
  rfl

/-- The first value of an array, with space around it. -/
theorem trimStart_padded {w text r : Str} {value : Json} (hw : JsonSpace w)
    (h : ValueText E text value) :
    ∃ c t, text = c :: t ∧ c ≠ ']' ∧ trimStart (w ++ (text ++ r)) = c :: (t ++ r) := by
  obtain ⟨c, t, rfl, hspace, hc⟩ := h.head
  refine ⟨c, t, rfl, hc, trimStart_space hw fun d hd => ?_⟩
  rwa [← Option.some.inj hd]

theorem trimStart_separator {w : Str} {sep : Char} (hw : JsonSpace w) (hsep : isWhitespace sep = false)
    (r : Str) : trimStart (w ++ sep :: r) = sep :: r := by
  refine trimStart_space hw fun d hd => ?_
  rwa [← Option.some.inj hd]

theorem readValue_object (fuel : ℕ) (r : Str) :
    readValue E (fuel + 1) ('\x7b' :: r) = readEntries E fuel r [] := by
  rw [readValue, trimStart_cons (by decide)]
  rfl

theorem readValue_array (fuel : ℕ) (r : Str) :
    readValue E (fuel + 1) ('[' :: r) = readValues E fuel r [] := by
  rw [readValue, trimStart_cons (by decide)]
  rfl

theorem readValue_string {text s : Str} (h : StringText E text s) (fuel : ℕ) (rest : Str) :
    readValue E (fuel + 1) ('"' :: (text ++ rest)) = .ok (.string (String.ofList s), rest) := by
  rw [readValue, trimStart_cons (by decide)]
  dsimp only [List.head?_cons]
  rw [if_neg (by decide), if_neg (by decide), if_pos rfl, readJsonString_text h]
  rfl

theorem readKey_string {text s : Str} (h : StringText E text s) (rest : Str) :
    readKey E ('"' :: (text ++ rest)) = .ok (s, rest) := by
  rw [readKey, trimStart_cons (by decide)]
  dsimp only [List.head?_cons]
  rw [if_pos rfl, readJsonString_text h]

/-- A number is what the reader of numbers makes of it. -/
theorem atomValue_number {c : Char} {token : Str} {value : Json} (hc : (c.isDigit || c == '-') = true)
    (h : E.fromStr (c :: token) = .ok value) : atomValue E (c :: token) = value := by
  have hne : ∀ word : Str, word.head?.any (fun d => d.isDigit || d == '-') = false →
      c :: token ≠ word := by
    rintro _ hfirst rfl
    have hany : (c.isDigit || c == '-') = false := hfirst
    rw [hany] at hc
    cases hc
  rw [atomValue, if_neg (hne "true".toList rfl), if_neg (hne "false".toList rfl),
    if_neg (hne "null".toList rfl), h]

/-- With this fuel every value is read, whatever follows. -/
def ReadsValues (E : Env) (fuel : ℕ) : Prop :=
  ∀ w text value rest, JsonSpace w → ValueText E text value → Stops rest →
    2 * (w ++ (text ++ rest)).length + 1 ≤ fuel →
    readValue E fuel (w ++ (text ++ rest)) = .ok (value, rest)

/-- A value of an array and what comes after it, a comma or the end. -/
theorem readValues_padded {fuel : ℕ} (ih : ReadsValues E fuel) {text : Str} {value : Json}
    (h : PaddedText E text value) {sep : Char} (hsep : sep = ',' ∨ sep = ']') {rest : Str}
    (values : List Json) (hfuel : 2 * (text ++ sep :: rest).length + 2 ≤ fuel + 1) :
    (sep = ',' → readValues E (fuel + 1) (text ++ sep :: rest) values =
        readValues E fuel rest (values ++ [value])) ∧
      (sep = ']' → readValues E (fuel + 1) (text ++ sep :: rest) values =
        .ok (.array (values ++ [value]), rest)) := by
  obtain ⟨hw, htext, hw'⟩ := h
  rename_i w text w'
  have hatom : isAtomChar sep = false ∧ isWhitespace sep = false := by
    rcases hsep with rfl | rfl <;> decide
  have hjoin : w ++ text ++ w' ++ sep :: rest = w ++ (text ++ (w' ++ sep :: rest)) := by
    simp only [List.append_assoc]
  rw [hjoin] at hfuel ⊢
  obtain ⟨c, t, rfl, hc, htrim⟩ := trimStart_padded (r := w' ++ sep :: rest) hw htext
  have hvalue : readValue E fuel (c :: (t ++ (w' ++ sep :: rest))) = .ok (value, w' ++ sep :: rest) := by
    refine ih [] (c :: t) value _ (fun _ h => by cases h) htext
      ((stops_cons hatom.1 rest).append hw') ?_
    rw [List.length_append] at hfuel
    rw [List.nil_append]
    omega
  exact readValues_round values htrim hc hvalue (trimStart_separator hw' hatom.2 rest)

/-- An entry of an object and what comes after it, a comma or the end. -/
theorem readEntries_entry {fuel : ℕ} (ih : ReadsValues E fuel) {text : Str}
    {entry : String × Json} (h : EntryText E text entry) {sep : Char} (hsep : sep = ',' ∨ sep = '\x7d')
    {rest : Str} (map : List (String × Json))
    (hfuel : 2 * (text ++ sep :: rest).length + 2 ≤ fuel + 1) :
    (sep = ',' → readEntries E (fuel + 1) (text ++ sep :: rest) map =
        readEntries E fuel rest (insertKey map entry.1 entry.2)) ∧
      (sep = '\x7d' → readEntries E (fuel + 1) (text ++ sep :: rest) map =
        .ok (.object (insertKey map entry.1 entry.2), rest)) := by
  obtain ⟨hw, hkey, hw', hw₁, htext, hw₂⟩ := h
  rename_i w key w' k value w₁ text w₂
  have hatom : isAtomChar sep = false ∧ isWhitespace sep = false := by
    rcases hsep with rfl | rfl <;> decide
  have hjoin : w ++ '"' :: (key ++ (w' ++ ':' :: (w₁ ++ text ++ w₂))) ++ sep :: rest =
      w ++ '"' :: (key ++ (w' ++ ':' :: (w₁ ++ (text ++ (w₂ ++ sep :: rest))))) := by
    simp only [List.append_assoc, List.cons_append]
  rw [hjoin] at hfuel ⊢
  have hvalue : readValue E fuel (w₁ ++ (text ++ (w₂ ++ sep :: rest))) =
      .ok (value, w₂ ++ sep :: rest) := by
    refine ih w₁ text value _ hw₁ htext ((stops_cons hatom.1 rest).append hw₂) ?_
    simp only [List.length_append, List.length_cons] at hfuel ⊢
    omega
  exact readEntries_round map (trimStart_separator hw (by decide) _) (by decide)
    (readKey_string hkey _) (trimStart_separator hw' (by decide) _) hvalue
    (trimStart_separator hw₂ hatom.2 rest)

/-- What the grammar derives is read, by induction on the fuel. -/
theorem read_jsonText : ∀ fuel : ℕ,
    ReadsValues E fuel ∧
    (∀ text entries map rest, EntriesText E text entries →
      2 * (text ++ '\x7d' :: rest).length + 2 ≤ fuel →
      readEntries E fuel (text ++ '\x7d' :: rest) map =
        .ok (.object (entries.foldl (fun map entry => insertKey map entry.1 entry.2) map), rest)) ∧
    (∀ text values done rest, ItemsText E text values →
      2 * (text ++ ']' :: rest).length + 2 ≤ fuel →
      readValues E fuel (text ++ ']' :: rest) done = .ok (.array (done ++ values), rest))
  | 0 => ⟨fun _ _ _ _ _ _ _ h => by omega, fun _ _ _ _ _ h => by omega,
      fun _ _ _ _ _ h => by omega⟩
  | fuel + 1 => by
    obtain ⟨ihValue, ihEntries, ihValues⟩ := read_jsonText fuel
    refine ⟨fun w text value rest hw htext hrest hfuel => ?_,
      fun text entries map rest htext hfuel => ?_, fun text values done rest htext hfuel => ?_⟩
    · obtain ⟨c, t, hct, -, htrim⟩ := trimStart_padded (r := rest) hw htext
      obtain ⟨c', t', hct', -, htrim'⟩ := trimStart_padded (w := []) (r := rest)
        (fun _ h => by cases h) htext
      have hskip : readValue E (fuel + 1) (w ++ (text ++ rest)) =
          readValue E (fuel + 1) (text ++ rest) := by
        have hsame : trimStart (w ++ (text ++ rest)) = trimStart (text ++ rest) := by
          rw [htrim, ← List.nil_append (text ++ rest), htrim', ← List.cons_append,
            ← List.cons_append, ← hct, ← hct']
        rw [readValue, readValue, hsame]
      have hlen : 2 * (text ++ rest).length ≤ fuel := by
        rw [List.length_append] at hfuel
        omega
      rw [hskip]
      cases htext with
      | wordNull => exact readValue_word (List.all_eq_true.1 (by decide)) (by decide) hrest
      | wordTrue => exact readValue_word (List.all_eq_true.1 (by decide)) (by decide) hrest
      | wordFalse => exact readValue_word (List.all_eq_true.1 (by decide)) (by decide) hrest
      | @number c token value hc htoken hvalue =>
        have hword : ∀ d ∈ c :: token, isAtomChar d = true := by
          refine List.forall_mem_cons.2 ⟨isAtomChar_of_isNumberChar (isNumberChar_of_first hc), ?_⟩
          exact fun d hd => isAtomChar_of_isNumberChar (htoken d hd)
        have hfirst : c ≠ '\x7b' ∧ c ≠ '[' ∧ c ≠ '"' ∧ c ≠ '<' := by
          refine ⟨?_, ?_, ?_, ?_⟩ <;> rintro rfl <;> exact absurd hc (by decide)
        rw [List.cons_append, readValue_word hword hfirst hrest, atomValue_number hc hvalue]
      | string hs => exact readValue_string hs fuel rest
      | @emptyArray w hw =>
        obtain ⟨fuel, rfl⟩ : ∃ n, fuel = n + 1 := ⟨fuel - 1, by simp at hlen; omega⟩
        rw [List.cons_append, List.append_assoc, readValue_array]
        exact readValues_close [] (trimStart_separator hw (by decide) rest)
      | @array text values hvalues =>
        rw [List.cons_append, List.append_assoc, List.singleton_append] at hlen ⊢
        rw [readValue_array, ihValues text values [] rest hvalues (by rwa [List.length_cons] at hlen)]
        rfl
      | @emptyObject w hw =>
        obtain ⟨fuel, rfl⟩ : ∃ n, fuel = n + 1 := ⟨fuel - 1, by simp at hlen; omega⟩
        rw [List.cons_append, List.append_assoc, readValue_object]
        exact readEntries_close [] (trimStart_separator hw (by decide) rest)
      | @object text entries hentries =>
        rw [List.cons_append, List.append_assoc, List.singleton_append] at hlen ⊢
        rw [readValue_object, ihEntries text entries [] rest hentries
          (by rwa [List.length_cons] at hlen)]
    · cases htext with
      | last hentry => exact (readEntries_entry ihValue hentry (.inr rfl) map hfuel).2 rfl
      | @more text rest' entry entries hentry hmore =>
        rw [List.append_assoc, List.cons_append] at hfuel ⊢
        rw [(readEntries_entry ihValue hentry (.inl rfl) map hfuel).1 rfl]
        refine ihEntries rest' entries _ rest hmore ?_
        simp only [List.length_append, List.length_cons] at hfuel ⊢
        omega
    · cases htext with
      | last hvalue => exact (readValues_padded ihValue hvalue (.inr rfl) done hfuel).2 rfl
      | @more text rest' value values hvalue hmore =>
        rw [List.append_assoc, List.cons_append] at hfuel ⊢
        rw [(readValues_padded ihValue hvalue (.inl rfl) done hfuel).1 rfl]
        rw [ihValues rest' values _ rest hmore]
        · rw [List.append_assoc, List.singleton_append]
        · simp only [List.length_append, List.length_cons] at hfuel ⊢
          omega

theorem parseComplete_padded {text : Str} {value : Json} (h : PaddedText E text value) :
    GemmaArgumentParser.parseComplete E text = .ok value := by
  obtain ⟨hw, htext, hw'⟩ := h
  rename_i w text w'
  have hstops : Stops w' := by
    have h := @Stops.append _ [] hw' nofun
    rwa [List.append_nil] at h
  have hread := (read_jsonText (2 * (w ++ text ++ w').length + 2)).1 w text value w' hw htext hstops
    (by rw [List.append_assoc]; omega)
  have hend : trimStart w' = [] := by
    have h := trimStart_space (s := []) hw' nofun
    rwa [List.append_nil] at h
  rw [← List.append_assoc] at hread
  rw [parseComplete_eq, readComplete, hread, ok_bind]
  dsimp only
  rw [hend, if_neg (by simp)]
  rfl

/-- **The argument parser reads JSON.** A text of the grammar is read up to its end, and as the
value that the grammar derives, of which there is one. A number that `serde_json` refuses
(`1e400`) has no value in the grammar; the parser reads it as a bare word. -/
theorem parseComplete_jsonText {text : Str} {value : Json} (h : PaddedText E text value) :
    GemmaArgumentParser.parseComplete E text = .ok value ∧
      ∀ value', PaddedText E text value' → value' = value := by
  refine ⟨parseComplete_padded h, fun value' h' => ?_⟩
  have hsame := parseComplete_padded h'
  rw [parseComplete_padded h] at hsame
  exact (Except.ok.inj hsame).symm

end Reading

/-- An object with space in it, and with a key twice. -/
def spacedText : Str := "\x7b \"k\":[1],\n\"k\" : \"\\n\" \x7d".toList

theorem spacedText_padded :
    PaddedText compactEnv spacedText (.object [("k", .string "\n")]) := by
  have hspace : JsonSpace [' '] := by decide
  have hline : JsonSpace ['\n'] := by decide
  have hnone : JsonSpace [] := by decide
  have hkey : StringText compactEnv "k\"".toList "k".toList :=
    .quoted (.char (by decide) (by decide) .nil) (by decide +kernel)
  have hnewline : StringText compactEnv "\\n\"".toList "\n".toList :=
    .quoted (.escape .nil) (by decide +kernel)
  have hone : ValueText compactEnv "1".toList (.u64 1) := .number (by decide) nofun rfl
  have hlist : ValueText compactEnv "[1]".toList (.array [.u64 1]) :=
    .array (.last (.padded hnone hone hnone))
  exact .padded hnone (.object (.more (.entry hspace hkey hnone (.padded hnone hlist hnone))
    (.last (.entry hline hkey hspace (.padded hspace (.string hnewline) hspace))))) hnone

theorem spacedText_parsed :
    GemmaArgumentParser.parseComplete compactEnv spacedText =
      .ok (.object [("k", .string "\n")]) :=
  (parseComplete_jsonText spacedText_padded).1

end KirAi.ToolParser
