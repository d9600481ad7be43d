/-
# JSON values and their text

Values, the compact text of a value (`Json.text`) and a reader of such texts
(`Json.ofText`). Numbers that are not natural ones are kept by their text. What was
printed is read back, up to a depth of nesting that the reader is given
(`ofText_text`).

Key definitions: `Json`, `Json.Printable`, `Json.chars`, `Json.parseValue`.
Key theorems: `Json.parseValue_chars`, `Json.ofText_text`.
-/
import Mathlib.Data.List.Nodup
import Mathlib.Data.Nat.Notation
import Mathlib.Tactic.Common

namespace KirAi.Lib

/-- A JSON value. A number that is not a natural one is kept by its text. -/
inductive Json where
  | null
  | bool (b : Bool)
  | u64 (n : ℕ)
  | number (text : String)
  | string (s : String)
  | array (values : List Json)
  | object (entries : List (String × Json))

namespace Json

def asObject : Json → Option (List (String × Json))
  | object entries => some entries
  | _ => none

def asArray : Json → Option (List Json)
  | array values => some values
  | _ => none

def asStr : Json → Option String
  | string s => some s
  | _ => none

def asU64 : Json → Option ℕ
  | u64 n => some n
  | _ => none

@[simp] theorem asU64_u64 (n : ℕ) : (u64 n).asU64 = some n := rfl

/-- The characters of numbers. -/
def isNumberChar (c : Char) : Bool :=
  c.isDigit || c == '-' || c == '+' || c == '.' || c == 'e' || c == 'E'

/-- The text of a number that is not a natural one. -/
def isNumberText (text : List Char) : Bool :=
  match text with
  | [] => false
  | c :: _ => (c.isDigit || c == '-') && text.all isNumberChar && !text.all Char.isDigit

/-- A value nested at most `depth` deep, in which no object has a key twice. -/
def Printable : ℕ → Json → Prop
  | _, null => True
  | _, bool _ => True
  | _, u64 _ => True
  | _, number text => isNumberText text.toList = true
  | _, string _ => True
  | 0, array _ => False
  | depth + 1, array values => ∀ v ∈ values, Printable depth v
  | 0, object _ => False
  | depth + 1, object entries => (entries.map (·.1)).Nodup ∧ ∀ e ∈ entries, Printable depth e.2

/-! ### Printing -/

def hexDigit (n : ℕ) : Char := "0123456789abcdef".toList.getD n '0'

/-- A character inside a string. -/
def escapeChar (c : Char) : List Char :=
  if c = '"' then ['\\', '"']
  else if c = '\\' then ['\\', '\\']
  else if c = '\n' then ['\\', 'n']
  else if c = '\r' then ['\\', 'r']
  else if c = '\t' then ['\\', 't']
  else if c.toNat = 8 then ['\\', 'b']
  else if c.toNat = 12 then ['\\', 'f']
  else if c.toNat < 32 then ['\\', 'u', '0', '0', hexDigit (c.toNat / 16), hexDigit (c.toNat % 16)]
  else [c]

def escape (s : List Char) : List Char := s.flatMap escapeChar

theorem length_escape_le : ∀ s : List Char, (escape s).length ≤ 6 * s.length
  | [] => Nat.le_refl 0
  | c :: s => by
    have hchar : (escapeChar c).length ≤ 6 := by
      unfold escapeChar
      repeat' split
      all_goals simp only [List.length_cons, List.length_nil]; omega
    have hrest := length_escape_le s
    unfold escape at *
    rw [List.flatMap_cons, List.length_append, List.length_cons]
    omega

def quote (s : List Char) : List Char := '"' :: (escape s ++ ['"'])

/-- Parts with commas between them. -/
def commas : List (List Char) → List Char
  | [] => []
  | [part] => part
  | part :: parts => part ++ ',' :: commas parts

mutual

/-- The compact text of a value. -/
def chars : Json → List Char
  | null => ['n', 'u', 'l', 'l']
  | bool true => ['t', 'r', 'u', 'e']
  | bool false => ['f', 'a', 'l', 's', 'e']
  | u64 n => Nat.toDigits 10 n
  | number text => text.toList
  | string s => quote s.toList
  | array values => '[' :: (commas (charsOfValues values) ++ [']'])
  | object entries => '{' :: (commas (charsOfEntries entries) ++ ['}'])

def charsOfValues : List Json → List (List Char)
  | [] => []
  | v :: vs => chars v :: charsOfValues vs

def charsOfEntries : List (String × Json) → List (List Char)
  | [] => []
  | e :: es => charsOfEntry e :: charsOfEntries es

def charsOfEntry : String × Json → List Char
  | (key, v) => quote key.toList ++ ':' :: chars v

end

def text (v : Json) : String := String.ofList v.chars

theorem charsOfValues_eq : ∀ vs : List Json, charsOfValues vs = vs.map chars
  | [] => by rw [charsOfValues, List.map_nil]
  | v :: vs => by rw [charsOfValues, List.map_cons, charsOfValues_eq vs]

theorem charsOfEntries_eq : ∀ es : List (String × Json), charsOfEntries es = es.map charsOfEntry
  | [] => by rw [charsOfEntries, List.map_nil]
  | e :: es => by rw [charsOfEntries, List.map_cons, charsOfEntries_eq es]

/-! ### Reading -/

def hexValue (c : Char) : Option ℕ :=
  if c.isDigit then some (c.toNat - '0'.toNat)
  else if 'a' ≤ c ∧ c ≤ 'f' then some (c.toNat - 'a'.toNat + 10)
  else if 'A' ≤ c ∧ c ≤ 'F' then some (c.toNat - 'A'.toNat + 10)
  else none

/-- The character after a backslash. -/
def unescape : Char → Option Char
  | '"' => some '"'
  | '\\' => some '\\'
  | '/' => some '/'
  | 'n' => some '\n'
  | 'r' => some '\r'
  | 't' => some '\t'
  | 'b' => some (Char.ofNat 8)
  | 'f' => some (Char.ofNat 12)
  | _ => none

/-- The rest of a string after its opening quote, and what follows it. -/
def parseString : List Char → Option (List Char × List Char)
  | [] => none
  | '"' :: cs => some ([], cs)
  | '\\' :: 'u' :: a :: b :: c :: d :: cs => do
    let code := (((← hexValue a) * 16 + (← hexValue b)) * 16 + (← hexValue c)) * 16 + (← hexValue d)
    (parseString cs).map fun p => (Char.ofNat code :: p.1, p.2)
  | '\\' :: c :: cs => do
    let c ← unescape c
    (parseString cs).map fun p => (c :: p.1, p.2)
  | c :: cs =>
    if c.toNat < 32 then none
    else (parseString cs).map fun p => (c :: p.1, p.2)

/-- Values with commas between them, up to a closing character. -/
def parseSequence {α : Type} (p : List Char → Option (α × List Char)) (close : Char) :
    ℕ → List Char → Option (List α × List Char)
  | 0, _ => none
  | fuel + 1, cs => do
    let (a, cs) ← p cs
    match cs with
    | ',' :: cs =>
      let (as, rest) ← parseSequence p close fuel cs
      some (a :: as, rest)
    | c :: rest => if c = close then some ([a], rest) else none
    | [] => none

/-- The number a text stands for. -/
def numberOf (text : List Char) : Option Json :=
  if text.all Char.isDigit then some (u64 (Nat.ofDigitChars 10 text 0))
  else if isNumberText text then some (number (String.ofList text))
  else none

/-- A key and its value. -/
def parseEntry (p : List Char → Option (Json × List Char)) :
    List Char → Option ((String × Json) × List Char)
  | '"' :: cs => do
    let (key, cs) ← parseString cs
    match cs with
    | ':' :: cs =>
      let (v, rest) ← p cs
      some ((String.ofList key, v), rest)
    | _ => none
  | _ => none

/-- A value nested at most `depth` deep, and what follows it. -/
def parseValue (depth : ℕ) (cs : List Char) : Option (Json × List Char) :=
  match cs with
  | 'n' :: 'u' :: 'l' :: 'l' :: rest => some (null, rest)
  | 't' :: 'r' :: 'u' :: 'e' :: rest => some (bool true, rest)
  | 'f' :: 'a' :: 'l' :: 's' :: 'e' :: rest => some (bool false, rest)
  | '"' :: rest => do
    let (s, rest) ← parseString rest
    some (string (String.ofList s), rest)
  | '[' :: rest =>
    match depth with
    | 0 => none
    | depth + 1 =>
      match rest with
      | ']' :: rest => some (array [], rest)
      | _ => do
        let (values, rest) ← parseSequence (parseValue depth) ']' rest.length rest
        some (array values, rest)
  | '{' :: rest =>
    match depth with
    | 0 => none
    | depth + 1 =>
      match rest with
      | '}' :: rest => some (object [], rest)
      | _ => do
        let (entries, rest) ← parseSequence (parseEntry (parseValue depth)) '}' rest.length rest
        some (object entries, rest)
  | c :: rest =>
    if c.isDigit || c == '-' then do
      let v ← numberOf ((c :: rest).takeWhile isNumberChar)
      some (v, (c :: rest).dropWhile isNumberChar)
    else none
  | [] => none
termination_by structural depth

/-- `from_str`, with the depth at which the reader gives up. -/
def ofText (depth : ℕ) (s : String) : Option Json :=
  match parseValue depth s.toList with
  | some (v, []) => some v
  | _ => none

/-! ### What was printed is read back -/

theorem hexValue_hexDigit : ∀ n, n < 16 → hexValue (hexDigit n) = some n := by
  decide

theorem parseString_plain {c : Char} (h1 : c ≠ '"') (h2 : c ≠ '\\') (h3 : ¬ c.toNat < 32)
    (cs : List Char) :
    parseString (c :: cs) = (parseString cs).map fun p => (c :: p.1, p.2) := by
  rw [parseString]
  · exact if_neg h3
  · exact h1
  · exact fun _ _ _ _ _ h => absurd h h2
  · exact fun _ _ h => absurd h h2

theorem parseString_escapeChar (c : Char) (cs : List Char) :
    parseString (escapeChar c ++ cs) = (parseString cs).map fun p => (c :: p.1, p.2) := by
  have hsimple : ∀ {x y : Char}, x ≠ 'u' → unescape x = some y →
      parseString ('\\' :: x :: cs) = (parseString cs).map fun p => (y :: p.1, p.2) := by
    intro x y hx hy
    rw [parseString, hy]
    · rfl
    · exact fun _ _ _ _ _ h => absurd h hx
  have hnat : ∀ n : ℕ, c.toNat = n → c = Char.ofNat n := fun n hn => by
    rw [← hn, Char.ofNat_toNat]
  unfold escapeChar
  by_cases h1 : c = '"'
  · rw [if_pos h1, h1]
    exact hsimple (by decide) rfl
  by_cases h2 : c = '\\'
  · rw [if_neg h1, if_pos h2, h2]
    exact hsimple (by decide) rfl
  by_cases h3 : c = '\n'
  · rw [if_neg h1, if_neg h2, if_pos h3, h3]
    exact hsimple (by decide) rfl
  by_cases h4 : c = '\r'
  · rw [if_neg h1, if_neg h2, if_neg h3, if_pos h4, h4]
    exact hsimple (by decide) rfl
  by_cases h5 : c = '\t'
  · rw [if_neg h1, if_neg h2, if_neg h3, if_neg h4, if_pos h5, h5]
    exact hsimple (by decide) rfl
  rw [if_neg h1, if_neg h2, if_neg h3, if_neg h4, if_neg h5]
  by_cases h6 : c.toNat = 8
  · rw [if_pos h6, hnat 8 h6]
    exact hsimple (by decide) rfl
  by_cases h7 : c.toNat = 12
  · rw [if_neg h6, if_pos h7, hnat 12 h7]
    exact hsimple (by decide) rfl
  rw [if_neg h6, if_neg h7]
  by_cases h8 : c.toNat < 32
  · have hcode : c.toNat / 16 * 16 + c.toNat % 16 = c.toNat := by omega
    rw [if_pos h8]
    simp only [List.cons_append, List.nil_append, parseString]
    rw [hexValue_hexDigit _ (by omega), hexValue_hexDigit _ (by omega),
      show hexValue '0' = some 0 from rfl]
    simp only [Option.bind_eq_bind, Option.bind_some, Nat.zero_mul, Nat.zero_add, hcode,
      Char.ofNat_toNat]
  · rw [if_neg h8]
    exact parseString_plain h1 h2 h8 cs

theorem parseString_escape : ∀ s rest : List Char,
    parseString (escape s ++ '"' :: rest) = some (s, rest)
  | [], rest => by rw [escape, List.flatMap_nil, List.nil_append, parseString]
  | c :: s, rest => by
    have ih := parseString_escape s rest
    rw [escape] at ih ⊢
    rw [List.flatMap_cons, List.append_assoc, parseString_escapeChar, ih]
    rfl

/-- A sequence is read when each of its parts is, whatever follows it. -/
theorem parseSequence_commas {α : Type} {p : List Char → Option (α × List Char)}
    (print : α → List Char) {close : Char} (hclose : close ≠ ',') :
    ∀ (as : List α) (fuel : ℕ) (rest : List Char), as ≠ [] → as.length ≤ fuel →
    (∀ a ∈ as, ∀ c cs, c = ',' ∨ c = close → p (print a ++ c :: cs) = some (a, c :: cs)) →
    parseSequence p close fuel (commas (as.map print) ++ close :: rest) = some (as, rest)
  | [], _, _, h, _, _ => absurd rfl h
  | a :: as, 0, _, _, h, _ => by simp at h
  | [a], fuel + 1, rest, _, _, hp => by
    have ha := hp a (List.mem_cons_self ..) close rest (.inr rfl)
    rw [List.map_cons, List.map_nil, commas, parseSequence, ha]
    simp
  | a :: b :: as, fuel + 1, rest, _, hfuel, hp => by
    have ha := hp a (List.mem_cons_self ..) ',' (commas ((b :: as).map print) ++ close :: rest)
      (.inl rfl)
    have ih := parseSequence_commas print hclose (b :: as) fuel rest (List.cons_ne_nil _ _)
      (by simpa using hfuel) fun x hx => hp x (List.mem_cons_of_mem _ hx)
    rw [List.map_cons, List.map_cons, commas, ← List.map_cons, List.append_assoc, List.cons_append,
      parseSequence, ha]
    · simp only [Option.bind_eq_bind, Option.bind_some, ih]
    · exact fun h => by cases h

theorem length_le_commas : ∀ parts : List (List Char), parts.length ≤ (commas parts).length + 1
  | [] => Nat.zero_le _
  | [_] => by simp
  | a :: b :: parts => by
    have := length_le_commas (b :: parts)
    rw [commas] <;> simp only [List.length_cons, List.length_append] at this ⊢
    · omega
    · exact fun h => by cases h

/-- What may follow a value: not a character that could go on with a number. -/
def Ends (rest : List Char) : Prop := ∀ c ∈ rest.head?, isNumberChar c = false

theorem takeWhile_number {text rest : List Char} (h : text.all isNumberChar = true)
    (hrest : Ends rest) : (text ++ rest).takeWhile isNumberChar = text ∧
      (text ++ rest).dropWhile isNumberChar = rest := by
  have hall : ∀ c ∈ text, isNumberChar c = true := List.all_eq_true.mp h
  rw [List.takeWhile_append_of_pos hall, List.dropWhile_append_of_pos hall]
  cases rest with
  | nil => simp
  | cons c rest =>
    have hc := hrest c rfl
    simp [hc]

theorem isNumberChar_of_isDigit {c : Char} (h : c.isDigit = true) : isNumberChar c = true := by
  simp [isNumberChar, h]

/-- A text that starts as a number is read as one. -/
theorem parseValue_number {c : Char} (hc : (c.isDigit || c == '-') = true) (depth : ℕ)
    (cs : List Char) : parseValue depth (c :: cs) =
      (numberOf ((c :: cs).takeWhile isNumberChar)).bind fun v =>
        some (v, (c :: cs).dropWhile isNumberChar) := by
  have hne : ∀ d : Char, (d.isDigit || d == '-') = false → c ≠ d := by
    rintro d hd rfl
    rw [hd] at hc
    cases hc
  rw [parseValue.eq_def]
  split
  · rename_i heq
    exact absurd (List.cons.inj heq).1 (hne 'n' (by decide))
  · rename_i heq
    exact absurd (List.cons.inj heq).1 (hne 't' (by decide))
  · rename_i heq
    exact absurd (List.cons.inj heq).1 (hne 'f' (by decide))
  · rename_i heq
    exact absurd (List.cons.inj heq).1 (hne '"' (by decide))
  · rename_i heq
    exact absurd (List.cons.inj heq).1 (hne '[' (by decide))
  · rename_i heq
    exact absurd (List.cons.inj heq).1 (hne '{' (by decide))
  · rename_i heq
    obtain ⟨rfl, rfl⟩ := List.cons.inj heq
    rw [if_pos hc]
    rfl
  · rename_i heq
    cases heq

theorem toDigits_all_digits (n : ℕ) : (Nat.toDigits 10 n).all Char.isDigit = true :=
  List.all_eq_true.mpr fun _ hc => Nat.isDigit_of_mem_toDigits (by decide) (by decide) hc

theorem parseValue_u64 (depth n : ℕ) {rest : List Char} (hrest : Ends rest) :
    parseValue depth (Nat.toDigits 10 n ++ rest) = some (u64 n, rest) := by
  have hall := toDigits_all_digits n
  have hnum : (Nat.toDigits 10 n).all isNumberChar = true :=
    List.all_eq_true.mpr fun c hc => isNumberChar_of_isDigit (List.all_eq_true.mp hall c hc)
  obtain ⟨htake, hdrop⟩ := takeWhile_number hnum hrest
  cases hd : Nat.toDigits 10 n with
  | nil => exact absurd hd Nat.toDigits_ne_nil
  | cons c cs =>
    have hc : c.isDigit = true := List.all_eq_true.mp hall c (by rw [hd]; exact List.mem_cons_self ..)
    rw [hd, List.cons_append] at htake hdrop
    rw [List.cons_append, parseValue_number (by rw [hc]; rfl), htake, hdrop, ← hd, numberOf,
      if_pos hall, Nat.ofDigitChars_ten_toDigits]
    rfl

theorem parseValue_numberText (depth : ℕ) {text : String} (h : isNumberText text.toList = true)
    {rest : List Char} (hrest : Ends rest) :
    parseValue depth (text.toList ++ rest) = some (number text, rest) := by
  cases hcs : text.toList with
  | nil =>
    rw [hcs] at h
    cases h
  | cons c cs =>
    rw [hcs] at h
    have hparts := h
    simp only [isNumberText, Bool.and_eq_true, Bool.not_eq_true'] at hparts
    obtain ⟨⟨hc, hall⟩, hdigits⟩ := hparts
    obtain ⟨htake, hdrop⟩ := takeWhile_number hall hrest
    rw [List.cons_append] at htake hdrop ⊢
    rw [parseValue_number hc, htake, hdrop, numberOf, if_neg (by rw [hdigits]; decide), if_pos h, ← hcs,
      String.ofList_toList]
    rfl

theorem ends_of_separator {c : Char} {cs : List Char} (h : c = ',' ∨ c = ']' ∨ c = '}') :
    Ends (c :: cs) := by
  intro d hd
  obtain rfl : c = d := by simpa using hd
  rcases h with rfl | rfl | rfl <;> decide

/-- A value does not start with a closing bracket. -/
theorem chars_head {depth : ℕ} {v : Json} (h : v.Printable depth) :
    ∃ c cs, v.chars = c :: cs ∧ c ≠ ']' := by
  cases v with
  | null => exact ⟨_, _, by rw [chars], by decide⟩
  | bool b => cases b <;> exact ⟨_, _, by rw [chars], by decide⟩
  | u64 n =>
    cases hd : Nat.toDigits 10 n with
    | nil => exact absurd hd Nat.toDigits_ne_nil
    | cons c cs =>
      refine ⟨c, cs, by rw [chars, hd], ?_⟩
      have hc := List.all_eq_true.mp (toDigits_all_digits n) c (by rw [hd]; exact List.mem_cons_self ..)
      rintro rfl
      exact absurd hc (by decide)
  | number text =>
    have hnum : isNumberText text.toList = true := by
      cases depth <;> exact h
    cases hd : text.toList with
    | nil =>
      rw [hd] at hnum
      cases hnum
    | cons c cs =>
      refine ⟨c, cs, by rw [chars, hd], ?_⟩
      rw [hd] at hnum
      simp only [isNumberText, Bool.and_eq_true] at hnum
      rintro rfl
      exact absurd hnum.1.1 (by decide)
  | string s => exact ⟨_, _, by rw [chars, quote], by decide⟩
  | array values => exact ⟨_, _, by rw [chars], by decide⟩
  | object entries => exact ⟨_, _, by rw [chars], by decide⟩

theorem commas_cons (part : List Char) : ∀ parts : List (List Char),
    ∃ tail, commas (part :: parts) = part ++ tail
  | [] => ⟨[], by rw [commas, List.append_nil]⟩
  | p :: ps => ⟨',' :: commas (p :: ps), by
    rw [commas]
    exact fun h => by cases h⟩

theorem length_le_fuel {α : Type} (print : α → List Char) (as : List α) (cs : List Char) {close : Char} :
    as.length ≤ (commas (as.map print) ++ close :: cs).length := by
  have := length_le_commas (as.map print)
  simp only [List.length_append, List.length_cons, List.length_map] at this ⊢
  omega

theorem parseEntry_entry {p : List Char → Option (Json × List Char)} {e : String × Json}
    {cs : List Char} (h : p (e.2.chars ++ cs) = some (e.2, cs)) :
    parseEntry p (charsOfEntry e ++ cs) = some (e, cs) := by
  obtain ⟨key, v⟩ := e
  rw [charsOfEntry, quote, List.append_assoc, List.cons_append, List.append_assoc,
    List.singleton_append, List.cons_append, parseEntry, parseString_escape]
  simp only [Option.bind_eq_bind, Option.bind_some, h, String.ofList_toList]

/-- A value that was printed is read, whatever follows it. -/
theorem parseValue_chars : ∀ (depth : ℕ) (v : Json), v.Printable depth → ∀ {rest : List Char},
    Ends rest → parseValue depth (v.chars ++ rest) = some (v, rest)
  | _, null, _, rest, _ => by rw [chars, parseValue.eq_def]; rfl
  | _, bool true, _, rest, _ => by rw [chars, parseValue.eq_def]; rfl
  | _, bool false, _, rest, _ => by rw [chars, parseValue.eq_def]; rfl
  | depth, u64 n, _, rest, hrest => by rw [chars, parseValue_u64 depth n hrest]
  | depth, number text, h, rest, hrest => by
    have hnum : isNumberText text.toList = true := by
      cases depth <;> exact h
    rw [chars, parseValue_numberText depth hnum hrest]
  | depth, string s, _, rest, _ => by
    rw [chars, quote, List.cons_append, List.append_assoc, List.singleton_append, parseValue.eq_def]
    simp only [parseString_escape, Option.bind_eq_bind, Option.bind_some, String.ofList_toList]
  | 0, array _, h, _, _ => h.elim
  | depth + 1, array values, h, rest, _ => by
    have hvalues : ∀ v ∈ values, v.Printable depth := h
    rw [chars, charsOfValues_eq, List.cons_append, List.append_assoc, List.singleton_append]
    cases values with
    | nil => rw [parseValue.eq_def]; rfl
    | cons v vs =>
      obtain ⟨c, cs, hhead, hc⟩ := chars_head (hvalues v (List.mem_cons_self ..))
      obtain ⟨tail, htail⟩ := commas_cons v.chars (vs.map chars)
      have hseq := parseSequence_commas (p := parseValue depth) chars (by decide) (v :: vs)
        (commas ((v :: vs).map chars) ++ ']' :: rest).length rest (List.cons_ne_nil _ _)
        (length_le_fuel _ _ _)
        (fun a ha c cs hc => parseValue_chars depth a (hvalues a ha)
          (ends_of_separator (hc.imp id Or.inl)))
      rw [List.map_cons, htail, hhead, List.cons_append, List.cons_append] at hseq ⊢
      rw [parseValue]
      · simp only [hseq, Option.bind_eq_bind, Option.bind_some]
      · exact fun _ heq => hc (List.cons.inj heq).1
  | 0, object _, h, _, _ => h.elim
  | depth + 1, object entries, h, rest, _ => by
    have hentries : ∀ e ∈ entries, e.2.Printable depth := h.2
    rw [chars, charsOfEntries_eq, List.cons_append, List.append_assoc, List.singleton_append]
    cases entries with
    | nil => rw [parseValue.eq_def]; rfl
    | cons e es =>
      obtain ⟨tail, htail⟩ := commas_cons (charsOfEntry e) (es.map charsOfEntry)
      have hseq := parseSequence_commas (p := parseEntry (parseValue depth)) charsOfEntry (by decide)
        (e :: es) (commas ((e :: es).map charsOfEntry) ++ '}' :: rest).length rest
        (List.cons_ne_nil _ _) (length_le_fuel _ _ _)
        (fun a ha c cs hc => parseEntry_entry (parseValue_chars depth a.2 (hentries a ha)
          (ends_of_separator (hc.imp id Or.inr))))
      rw [List.map_cons, htail, charsOfEntry, quote, List.cons_append, List.cons_append,
        List.cons_append] at hseq ⊢
      rw [parseValue]
      · simp only [hseq, Option.bind_eq_bind, Option.bind_some]
      · exact fun _ heq => absurd (List.cons.inj heq).1 (by decide)

/-- What was printed is read back, when it is not nested too deep. -/
theorem ofText_text {depth : ℕ} {v : Json} (h : v.Printable depth) : ofText depth v.text = some v := by
  have hread : parseValue depth (v.chars ++ []) = some (v, []) :=
    parseValue_chars depth v h fun _ hc => by cases hc
  rw [List.append_nil] at hread
  rw [ofText, text, String.toList_ofList, hread]

end Json
end KirAi.Lib
