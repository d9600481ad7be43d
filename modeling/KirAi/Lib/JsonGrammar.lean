/-
# The grammar of JSON

Which texts are JSON, as rules of their own (`Json.Spells`): space in the four characters that
there are for it, numbers without leading zeros, strings with their escapes, and the members
of an object in the order in which they stand, a key that comes twice included. The compact
text of a value is one of its texts, if its numbers are numbers (`Json.spells_chars`).

An escape for half a character (a surrogate) is left out: nothing here writes one.

Key definitions: `Json.Spells`, `Json.NumberText`, `Json.CharsText`, `Json.Numeric`.
Key theorems: `Json.charsText_escape`, `Json.spells_chars`.
-/
import KirAi.Lib.Json

namespace KirAi.Lib

namespace Json

/-! ### Numbers -/

/-- One digit or more. -/
def Digits (t : List Char) : Prop := t ≠ [] ∧ ∀ c ∈ t, c.isDigit = true

/-- Zero, or digits that do not start with it. -/
def IntText (t : List Char) : Prop := Digits t ∧ (t.head? = some '0' → t = ['0'])

def FracText (t : List Char) : Prop := t = [] ∨ ∃ ds, Digits ds ∧ t = '.' :: ds

def ExpText (t : List Char) : Prop :=
  t = [] ∨ ∃ e sign ds, (e = 'e' ∨ e = 'E') ∧ (sign = [] ∨ sign = ['+'] ∨ sign = ['-']) ∧
    Digits ds ∧ t = e :: (sign ++ ds)

def NumberText (t : List Char) : Prop :=
  ∃ sign int frac exp, (sign = [] ∨ sign = ['-']) ∧ IntText int ∧ FracText frac ∧ ExpText exp ∧
    t = sign ++ int ++ frac ++ exp

theorem intText_toDigits (n : ℕ) : IntText (Nat.toDigits 10 n) := by
  refine ⟨⟨Nat.toDigits_ne_nil, List.all_eq_true.1 (toDigits_all_digits n)⟩, ?_⟩
  -- the first digit is that of a smaller number, until there is one digit
  induction n using Nat.strongRecOn with
  | ind n ih =>
    by_cases hlt : n < 10
    · rw [Nat.toDigits_of_lt_base hlt]
      intro hhead
      rw [Option.some.inj hhead]
    · intro hhead
      rw [Nat.toDigits_of_base_le (by decide) (by omega)] at hhead
      have hfirst : (Nat.toDigits 10 (n / 10)).head? = some '0' := by
        cases hd : Nat.toDigits 10 (n / 10) with
        | nil => exact absurd hd Nat.toDigits_ne_nil
        | cons c cs => rwa [hd] at hhead
      -- then the smaller number is zero
      have hzero := ih (n / 10) (by omega) hfirst
      have hvalue : Nat.ofDigitChars 10 (Nat.toDigits 10 (n / 10)) 0 = n / 10 :=
        Nat.ofDigitChars_ten_toDigits
      rw [hzero] at hvalue
      have : (0 : ℕ) = n / 10 := hvalue
      omega

/-! ### Strings -/

/-- What stands for one character of a string. -/
inductive CharText : List Char → Char → Prop
  | plain {c : Char} : c ≠ '"' → c ≠ '\\' → 32 ≤ c.toNat → CharText [c] c
  | short {e c : Char} : unescape e = some c → CharText ['\\', e] c
  | hex {a b c d : Char} {i j k l : ℕ} : hexValue a = some i → hexValue b = some j →
      hexValue c = some k → hexValue d = some l →
      (((i * 16 + j) * 16 + k) * 16 + l).isValidChar →
      CharText ['\\', 'u', a, b, c, d] (Char.ofNat (((i * 16 + j) * 16 + k) * 16 + l))

/-- What stands between the quotes, and the string that it stands for. -/
inductive CharsText : List Char → List Char → Prop
  | nil : CharsText [] []
  | cons {t rest : List Char} {c : Char} {s : List Char} : CharText t c → CharsText rest s →
      CharsText (t ++ rest) (c :: s)

theorem charText_escapeChar (c : Char) : CharText (escapeChar c) c := by
  have hnat : ∀ n : ℕ, c.toNat = n → c = Char.ofNat n := fun n hn => by
    rw [← hn, Char.ofNat_toNat]
  unfold escapeChar
  by_cases h1 : c = '"'
  · rw [if_pos h1, h1]
    exact .short rfl
  by_cases h2 : c = '\\'
  · rw [if_neg h1, if_pos h2, h2]
    exact .short rfl
  by_cases h3 : c = '\n'
  · rw [if_neg h1, if_neg h2, if_pos h3, h3]
    exact .short rfl
  by_cases h4 : c = '\r'
  · rw [if_neg h1, if_neg h2, if_neg h3, if_pos h4, h4]
    exact .short rfl
  by_cases h5 : c = '\t'
  · rw [if_neg h1, if_neg h2, if_neg h3, if_neg h4, if_pos h5, h5]
    exact .short rfl
  rw [if_neg h1, if_neg h2, if_neg h3, if_neg h4, if_neg h5]
  by_cases h6 : c.toNat = 8
  · rw [if_pos h6, hnat 8 h6]
    exact .short rfl
  by_cases h7 : c.toNat = 12
  · rw [if_neg h6, if_pos h7, hnat 12 h7]
    exact .short rfl
  rw [if_neg h6, if_neg h7]
  by_cases h8 : c.toNat < 32
  · have hcode : ((0 * 16 + 0) * 16 + c.toNat / 16) * 16 + c.toNat % 16 = c.toNat := by omega
    have hzero : hexValue '0' = some 0 := rfl
    have htext := CharText.hex hzero hzero (hexValue_hexDigit (c.toNat / 16) (by omega))
      (hexValue_hexDigit (c.toNat % 16) (by omega)) (.inl (by omega))
    rw [hcode, Char.ofNat_toNat] at htext
    rwa [if_pos h8]
  · rw [if_neg h8]
    exact .plain h1 h2 (by omega)

theorem charsText_escape : ∀ s : List Char, CharsText (escape s) s
  | [] => .nil
  | c :: s => .cons (charText_escapeChar c) (charsText_escape s)

/-! ### Values -/

def Space (w : List Char) : Prop := ∀ c ∈ w, c = ' ' ∨ c = '\t' ∨ c = '\n' ∨ c = '\r'

theorem space_nil : Space [] := fun _ h => absurd h List.not_mem_nil

mutual

/-- A text of a value, without space around it. -/
inductive Spells : List Char → Json → Prop
  | null : Spells ['n', 'u', 'l', 'l'] .null
  | wordTrue : Spells ['t', 'r', 'u', 'e'] (.bool true)
  | wordFalse : Spells ['f', 'a', 'l', 's', 'e'] (.bool false)
  | natural {t : List Char} : IntText t → Spells t (.u64 (Nat.ofDigitChars 10 t 0))
  | number {text : String} : NumberText text.toList → Spells text.toList (.number text)
  | string {t : List Char} {s : String} : CharsText t s.toList →
      Spells ('"' :: (t ++ ['"'])) (.string s)
  | emptyArray {w : List Char} : Space w → Spells ('[' :: (w ++ [']'])) (.array [])
  | array {t : List Char} {values : List Json} : SpellsItems t values →
      Spells ('[' :: (t ++ [']'])) (.array values)
  | emptyObject {w : List Char} : Space w → Spells ('{' :: (w ++ ['}'])) (.object [])
  | object {t : List Char} {entries : List (String × Json)} : SpellsMembers t entries →
      Spells ('{' :: (t ++ ['}'])) (.object entries)

inductive SpellsItems : List Char → List Json → Prop
  | last {w t w' : List Char} {v : Json} : Space w → Spells t v → Space w' →
      SpellsItems (w ++ t ++ w') [v]
  | more {w t w' rest : List Char} {v : Json} {values : List Json} : Space w → Spells t v →
      Space w' → SpellsItems rest values → SpellsItems (w ++ t ++ w' ++ ',' :: rest) (v :: values)

inductive SpellsMember : List Char → String × Json → Prop
  | member {w k w1 w2 t w3 : List Char} {key : String} {v : Json} : Space w →
      CharsText k key.toList → Space w1 → Space w2 → Spells t v → Space w3 →
      SpellsMember (w ++ '"' :: (k ++ '"' :: (w1 ++ ':' :: (w2 ++ t ++ w3)))) (key, v)

inductive SpellsMembers : List Char → List (String × Json) → Prop
  | last {t : List Char} {entry : String × Json} : SpellsMember t entry → SpellsMembers t [entry]
  | more {t rest : List Char} {entry : String × Json} {entries : List (String × Json)} :
      SpellsMember t entry → SpellsMembers rest entries →
      SpellsMembers (t ++ ',' :: rest) (entry :: entries)

end

/-! ### The compact text -/

mutual

/-- The numbers that are kept by their text are texts of numbers. -/
def Numeric : Json → Prop
  | null | bool _ | u64 _ | string _ => True
  | number text => NumberText text.toList
  | array values => NumericValues values
  | object entries => NumericEntries entries

def NumericValues : List Json → Prop
  | [] => True
  | v :: vs => Numeric v ∧ NumericValues vs

def NumericEntries : List (String × Json) → Prop
  | [] => True
  | e :: es => NumericEntry e ∧ NumericEntries es

def NumericEntry : String × Json → Prop
  | (_, v) => Numeric v

end

theorem numericEntries_iff : ∀ {es : List (String × Json)},
    NumericEntries es ↔ ∀ e ∈ es, Numeric e.2
  | [] => ⟨fun _ _ h => (nomatch h), fun _ => trivial⟩
  | (key, v) :: es => by
    rw [NumericEntries, NumericEntry, numericEntries_iff, List.forall_mem_cons]

theorem commas_cons_cons (part part' : List Char) (parts : List (List Char)) :
    commas (part :: part' :: parts) = part ++ ',' :: commas (part' :: parts) := by
  rw [commas]
  exact List.cons_ne_nil _ _

mutual

theorem spells_chars : ∀ {v : Json}, Numeric v → Spells v.chars v
  | null, _ => .null
  | bool true, _ => .wordTrue
  | bool false, _ => .wordFalse
  | u64 n, _ => by
    have htext := Spells.natural (intText_toDigits n)
    rwa [Nat.ofDigitChars_ten_toDigits] at htext
  | number text, h => .number h
  | string s, _ => by
    rw [chars, quote]
    exact .string (charsText_escape s.toList)
  | array values, h => by
    rw [chars]
    by_cases hne : values = []
    · rw [hne]
      exact .emptyArray space_nil
    · exact .array (spells_items hne h)
  | object entries, h => by
    rw [chars]
    by_cases hne : entries = []
    · rw [hne]
      exact .emptyObject space_nil
    · exact .object (spells_members hne h)

theorem spells_items : ∀ {vs : List Json}, vs ≠ [] → NumericValues vs →
    SpellsItems (commas (charsOfValues vs)) vs
  | [], hne, _ => absurd rfl hne
  | [v], _, h => by
    have hlast := SpellsItems.last space_nil (spells_chars h.1) space_nil
    rwa [List.nil_append, List.append_nil] at hlast
  | v :: v' :: vs, _, h => by
    have hmore := SpellsItems.more space_nil (spells_chars h.1) space_nil
      (spells_items (List.cons_ne_nil v' vs) h.2)
    rw [List.nil_append, List.append_nil] at hmore
    rwa [charsOfValues, charsOfValues, commas_cons_cons, ← charsOfValues]

theorem spells_members : ∀ {es : List (String × Json)}, es ≠ [] → NumericEntries es →
    SpellsMembers (commas (charsOfEntries es)) es
  | [], hne, _ => absurd rfl hne
  | [_], _, h => .last (spells_member h.1)
  | _ :: e' :: es, _, h => by
    rw [charsOfEntries, charsOfEntries, commas_cons_cons, ← charsOfEntries]
    exact .more (spells_member h.1) (spells_members (List.cons_ne_nil e' es) h.2)

theorem spells_member : ∀ {e : String × Json}, NumericEntry e → SpellsMember (charsOfEntry e) e
  | (key, v), h => by
    have hmember := SpellsMember.member space_nil (charsText_escape key.toList) space_nil space_nil
      (spells_chars h) space_nil
    rw [charsOfEntry, quote]
    simpa using hmember

end

end Json

end KirAi.Lib
