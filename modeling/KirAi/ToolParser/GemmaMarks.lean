/-
# What reading arguments cannot make more of

The argument parser of Gemma reads a text that was printed from an object, and where it takes a
key for something else it goes on in the middle of keys and strings. To see that it cannot come
out at the same object all the same, count the marks of a text: its colons, quotes and
backslashes outside of the delimiters of strings.

A value that is read has no more marks than the text that was taken off for it: numbers and
brackets have none, a string between delimiters or a word has those of its text, and an escape
in a quoted string has one at least for the character it stands for. What is lost can be
counted too. A quoted string costs two, and an entry whose key was there before costs the colon
after it (`marks_read`).

Key definitions: `marks`, `jsonMarks`, `SerdeReads`.
Key theorems: `marks_append`, `marks_readKey`, `marks_read`.
-/
import KirAi.ToolParser.GemmaJson
import Mathlib.Data.List.DropRight

namespace KirAi.ToolParser

open Lib Lib.Text
open KirAi.Runtime (Str ToolCall ToolCallFunction ParsedAssistant isWhitespace trim trimStart)
open GemmaArgumentParser (isKeyChar isAtomChar atomValue)
open GemmaReader

/-! ### The marks of a text -/

def isMark (c : Char) : Bool := c == ':' || c == '"' || c == '\\'

def mark (c : Char) : ℕ := if isMark c then 1 else 0

/-- The marks, where `inside` symbols of a delimiter are still to be passed over. -/
def marksFrom : (inside : ℕ) → Str → ℕ
  | _, [] => 0
  | inside + 1, _ :: s => marksFrom inside s
  | 0, c :: s =>
    if gemmaQuote.isPrefixOf (c :: s) then marksFrom (gemmaQuote.length - 1) s
    else mark c + marksFrom 0 s

def marks (s : Str) : ℕ := marksFrom 0 s

/-- No delimiter reaches into the text from the left. -/
def Fresh (s : Str) : Prop := ∀ c ∈ s.head?, c ∉ gemmaQuote.tail

theorem fresh_nil : Fresh [] := nofun

theorem fresh_cons {c : Char} (h : c ∉ gemmaQuote.tail) (s : Str) : Fresh (c :: s) := by
  intro d hd
  rwa [← Option.some.inj hd]

@[simp] theorem marks_nil : marks [] = 0 := rfl

theorem marksFrom_skip : ∀ (u s : Str), marksFrom u.length (u ++ s) = marksFrom 0 s
  | [], _ => rfl
  | c :: u, s => by
    rw [List.length_cons, List.cons_append, marksFrom, marksFrom_skip u s]

theorem marks_quote (s : Str) : marks (gemmaQuote ++ s) = marks s := by
  have hskip := marksFrom_skip gemmaQuote.tail s
  have hsplit : gemmaQuote ++ s = '<' :: (gemmaQuote.tail ++ s) := rfl
  have hprefix : gemmaQuote.isPrefixOf (gemmaQuote ++ s) = true :=
    List.isPrefixOf_iff_prefix.2 ⟨s, rfl⟩
  rw [hsplit] at hprefix
  rw [marks, hsplit, marksFrom, if_pos hprefix]
  exact hskip

theorem marks_cons {c : Char} {s : Str} (h : ¬gemmaQuote <+: c :: s) :
    marks (c :: s) = mark c + marks s := by
  rw [marks, marksFrom, if_neg (mt List.isPrefixOf_iff_prefix.1 h)]
  rfl

theorem not_starts_quote {c : Char} (h : c ≠ '<') (s : Str) : ¬gemmaQuote <+: c :: s := by
  rintro ⟨t, ht⟩
  exact h (List.cons.inj ht).1.symm

theorem marks_cons_ne {c : Char} (h : c ≠ '<') (s : Str) : marks (c :: s) = mark c + marks s :=
  marks_cons (not_starts_quote h s)

/-- A text without `<` in front of another one. -/
theorem marks_skip : ∀ {u : Str}, '<' ∉ u → ∀ s : Str, marks (u ++ s) = (u.map mark).sum + marks s
  | [], _, s => by simp
  | c :: u, h, s => by
    rw [List.mem_cons, not_or] at h
    rw [List.cons_append, marks_cons_ne (Ne.symm h.1), marks_skip h.2, List.map_cons, List.sum_cons,
      Nat.add_assoc]

/-- A delimiter does not begin in a text and end in a fresh one after it. -/
theorem quote_prefix_append {u v : Str} (hv : Fresh v) (hne : u ≠ [])
    (h : gemmaQuote <+: u ++ v) : gemmaQuote <+: u := by
  rcases List.prefix_or_prefix_of_prefix h (List.prefix_append u v) with h | ⟨x, hx⟩
  · exact h
  · cases x with
    | nil => exact ⟨[], by rw [← hx, List.append_nil, List.append_nil]⟩
    | cons d x =>
      exfalso
      obtain ⟨c, u, rfl⟩ := List.exists_cons_of_ne_nil hne
      obtain ⟨w, hw⟩ := h
      rw [← hx, List.append_assoc] at hw
      have hrest : d :: x ++ w = v := List.append_cancel_left hw
      refine hv d (by rw [← hrest]; rfl) ?_
      rw [← hx]
      simp

/-- The marks of two texts are counted apart if no delimiter goes across. -/
theorem marks_append {u v : Str} (hv : Fresh v) : marks (u ++ v) = marks u + marks v := by
  obtain ⟨n, hn⟩ : ∃ n, u.length ≤ n := ⟨_, le_rfl⟩
  induction n generalizing u with
  | zero =>
    rw [List.length_eq_zero_iff.1 (Nat.le_zero.1 hn), List.nil_append, marks_nil, Nat.zero_add]
  | succ n ih =>
    cases u with
    | nil => rw [List.nil_append, marks_nil, Nat.zero_add]
    | cons c u =>
      by_cases hquote : gemmaQuote <+: c :: u
      · obtain ⟨t, ht⟩ := hquote
        have hlen : t.length ≤ n := by
          have hlen := congrArg List.length ht
          rw [List.length_append, List.length_cons] at hlen
          have hfive : gemmaQuote.length = 5 := rfl
          rw [List.length_cons] at hn
          omega
        rw [← ht, List.append_assoc, marks_quote, marks_quote, ih hlen]
      · rw [List.length_cons] at hn
        rw [List.cons_append, marks_cons hquote, marks_cons, ih (by omega), Nat.add_assoc]
        exact fun h => hquote (quote_prefix_append hv (List.cons_ne_nil _ _) h)

/-- One more character adds its mark at most. -/
theorem marks_cons_le (c : Char) (s : Str) : marks (c :: s) ≤ mark c + marks s := by
  by_cases hquote : gemmaQuote <+: c :: s
  · obtain ⟨t, ht⟩ := hquote
    obtain ⟨rfl, hs⟩ : '<' = c ∧ gemmaQuote.tail ++ t = s := List.cons.inj ht
    rw [← ht, marks_quote, ← hs, marks_skip (by decide)]
    omega
  · rw [marks_cons hquote]

theorem mark_le_one (c : Char) : mark c ≤ 1 := by
  unfold mark
  split <;> omega

theorem marks_trimStart_le (r : Str) : marks (trimStart r) ≤ marks r := by
  induction r with
  | nil => exact le_rfl
  | cons c r ih =>
    by_cases hspace : isWhitespace c = true
    · have hne : c ≠ '<' := by
        rintro rfl
        exact absurd hspace (by decide)
      rw [marks_cons_ne hne, trimStart, List.dropWhile_cons_of_pos hspace]
      exact ih.trans (Nat.le_add_left _ _)
    · rw [trimStart, List.dropWhile_cons_of_neg hspace]

theorem fresh_of_trimStart {r : Str} (h : Fresh (trimStart r)) : Fresh r := by
  cases r with
  | nil => exact fresh_nil
  | cons c r =>
    by_cases hspace : isWhitespace c = true
    · refine fresh_cons (fun hmem => ?_) r
      have hnone : ∀ d ∈ gemmaQuote.tail, (!isWhitespace d) = true :=
        List.all_eq_true.1 (by decide)
      have hmark := hnone c hmem
      rw [hspace] at hmark
      cases hmark
    · rwa [trimStart, List.dropWhile_cons_of_neg hspace] at h

/-! ### What the reader of strings and numbers is relied on for -/

/-- An escape and its character. Which one the digits stand for does not matter here. -/
inductive EscapeText : Str → Char → Prop
  | simple {e c : Char} : Json.unescape e = some c → EscapeText ['\\', e] c
  | unicode {digits : Str} {c : Char} : digits.length = 4 →
      (∀ d ∈ digits, (Json.hexValue d).isSome = true) → EscapeText ('\\' :: 'u' :: digits) c
  | pair {high low : Str} {c : Char} : high.length = 4 → low.length = 4 →
      (∀ d ∈ high ++ low, (Json.hexValue d).isSome = true) →
      EscapeText ('\\' :: 'u' :: (high ++ '\\' :: 'u' :: low)) c

/-- What stands between the quotes of a string, and the string. -/
inductive Unescapes : Str → Str → Prop
  | nil : Unescapes [] []
  | char {c : Char} {body s : Str} : c ≠ '"' → c ≠ '\\' → Unescapes body s →
      Unescapes (c :: body) (c :: s)
  | escape {e body s : Str} {c : Char} : EscapeText e c → Unescapes body s →
      Unescapes (e ++ body) (c :: s)

/-- `serde_json` reads strings by their escapes, and a text that starts like none of them is not
a string, an array or an object. -/
structure SerdeReads (E : Env) : Prop where
  string : ∀ body s, E.stringFromStr ('"' :: (body ++ ['"'])) = .ok s → Unescapes body s
  scalar : ∀ text value, E.fromStr text = .ok value →
    (∀ c ∈ text.head?, c ≠ '"' ∧ c ≠ '[' ∧ c ≠ '\x7b' ∧ isWhitespace c = false) →
    value.asStr = none ∧ value.asArray = none ∧ value.asObject = none

theorem unescape_ne {e c : Char} (h : Json.unescape e = some c) : e ≠ '<' := by
  rintro rfl
  cases h

theorem hexValue_ne {d : Char} (h : (Json.hexValue d).isSome = true) : d ≠ '<' := by
  rintro rfl
  exact absurd h (by decide)

/-- An escape starts with a backslash, and no delimiter starts in it. -/
theorem EscapeText.shape {e : Str} {c : Char} (h : EscapeText e c) :
    ∃ t, e = '\\' :: t ∧ '<' ∉ t := by
  cases h with
  | simple hc => exact ⟨_, rfl, by simpa using (unescape_ne hc).symm⟩
  | unicode _ hhex =>
    refine ⟨_, rfl, fun hmem => ?_⟩
    rcases List.mem_cons.1 hmem with h | h
    · exact absurd h (by decide)
    · exact hexValue_ne (hhex _ h) rfl
  | pair _ _ hhex =>
    refine ⟨_, rfl, fun hmem => ?_⟩
    rcases List.mem_cons.1 hmem with h | h
    · exact absurd h (by decide)
    rcases List.mem_append.1 h with h | h
    · exact hexValue_ne (hhex _ (List.mem_append_left _ h)) rfl
    rcases List.mem_cons.1 h with h | h
    · exact absurd h (by decide)
    rcases List.mem_cons.1 h with h | h
    · exact absurd h (by decide)
    · exact hexValue_ne (hhex _ (List.mem_append_right _ h)) rfl

/-- The first character of what is quoted, the closing quote included. -/
theorem Unescapes.head {body s r : Str} (h : Unescapes body s) {c : Char} {t : Str}
    (heq : body ++ '"' :: r = c :: t) :
    (c = '"' ∧ t = r) ∨ c = '\\' ∨ ∃ body' s', Unescapes body' s' ∧ t = body' ++ '"' :: r ∧ c ≠ '"' := by
  cases h with
  | nil =>
    obtain ⟨rfl, rfl⟩ := List.cons.inj heq
    exact .inl ⟨rfl, rfl⟩
  | char hquote _ hrest =>
    obtain ⟨rfl, rfl⟩ := List.cons.inj heq
    exact .inr (.inr ⟨_, _, hrest, rfl, hquote⟩)
  | escape he _ =>
    obtain ⟨u, rfl, -⟩ := he.shape
    exact .inr (.inl (List.cons.inj heq).1.symm)

/-- The quote in a delimiter would end the string. -/
theorem Unescapes.no_quote {c : Char} {body s r : Str} (h : Unescapes body s) (hr : Fresh r) :
    ¬gemmaQuote <+: c :: (body ++ '"' :: r) := by
  rintro ⟨w, hw⟩
  have hbar : body ++ '"' :: r = '|' :: ('"' :: ('|' :: '>' :: w)) := (List.cons.inj hw).2.symm
  rcases h.head hbar with ⟨hc, -⟩ | hc | ⟨body', s', h', ht, -⟩
  · exact absurd hc (by decide)
  · exact absurd hc (by decide)
  · rcases h'.head ht.symm with ⟨-, rfl⟩ | hc | ⟨_, _, _, _, hc⟩
    · exact hr '|' rfl (by decide)
    · exact absurd hc (by decide)
    · exact hc rfl

/-- A quoted string has two marks more than its text. -/
theorem Unescapes.marks_le {body s : Str} (h : Unescapes body s) {r : Str} (hr : Fresh r) :
    marks s + 1 + marks r ≤ marks (body ++ '"' :: r) := by
  induction h with
  | nil =>
    rw [List.nil_append, marks_cons_ne (by decide), marks_nil]
    exact le_rfl
  | @char c body s _ _ hrest ih =>
    have hle := marks_cons_le c s
    rw [List.cons_append, marks_cons (hrest.no_quote hr)]
    omega
  | @escape e body s c he hrest ih =>
    obtain ⟨t, rfl, ht⟩ := he.shape
    have hle := marks_cons_le c s
    have hone := mark_le_one c
    have hback : mark '\\' = 1 := rfl
    have hfree : '<' ∉ '\\' :: t := by
      rw [List.mem_cons, not_or]
      exact ⟨by decide, ht⟩
    rw [List.append_assoc, marks_skip hfree, List.map_cons, List.sum_cons]
    omega

/-! ### The marks of a value -/

mutual

/-- The marks of the strings and keys of a value, and a colon for each key. -/
def jsonMarks : Json → ℕ
  | .string s => marks s.toList
  | .array values => valuesMarks values
  | .object entries => entriesMarks entries
  | _ => 0

def valuesMarks : List Json → ℕ
  | [] => 0
  | value :: values => jsonMarks value + valuesMarks values

def entriesMarks : List (String × Json) → ℕ
  | [] => 0
  | (key, value) :: entries => marks key.toList + 1 + jsonMarks value + entriesMarks entries

end

theorem entriesMarks_append : ∀ entries entries' : List (String × Json),
    entriesMarks (entries ++ entries') = entriesMarks entries + entriesMarks entries'
  | [], entries' => by rw [List.nil_append, entriesMarks, Nat.zero_add]
  | (key, value) :: entries, entries' => by
    rw [List.cons_append, entriesMarks, entriesMarks_append entries entries', entriesMarks]
    omega

/-- A new value for a key adds no more than its own marks. -/
theorem entriesMarks_replace {key : String} {value : Json} : ∀ {map : List (String × Json)},
    (map.map Prod.fst).Nodup →
    entriesMarks (map.map fun e => if e.1 = key then (key, value) else e) ≤
      entriesMarks map + jsonMarks value
  | [], _ => by simp [entriesMarks]
  | (key', value') :: map, h => by
    rw [List.map_cons, List.nodup_cons] at h
    rw [List.map_cons]
    by_cases hkey : key' = key
    · subst hkey
      have hsame : (map.map fun e => if e.1 = key' then (key', value) else e) = map := by
        refine (List.map_congr_left fun e he => if_neg fun heq => h.1 ?_).trans (List.map_id map)
        have hmem : e.1 ∈ map.map Prod.fst := List.mem_map_of_mem he
        rwa [heq] at hmem
      rw [if_pos rfl, hsame, entriesMarks, entriesMarks]
      omega
    · have ih : entriesMarks (map.map fun e => if e.1 = key then (key, value) else e) ≤
          entriesMarks map + jsonMarks value := entriesMarks_replace h.2
      rw [if_neg hkey, entriesMarks, entriesMarks]
      omega

/-- What an entry adds, and that it adds less if its key was there before. -/
theorem entriesMarks_insertKey {map : List (String × Json)} (h : (map.map Prod.fst).Nodup)
    (key : String) (value : Json) :
    entriesMarks (insertKey map key value) ≤
        entriesMarks map + (marks key.toList + 1 + jsonMarks value) ∧
      (entriesMarks map + (marks key.toList + 1 + jsonMarks value) ≤
        entriesMarks (insertKey map key value) → key ∉ map.map Prod.fst) := by
  unfold insertKey
  by_cases hmem : key ∈ map.map Prod.fst
  · have hle : entriesMarks (map.map fun e => if e.1 = key then (key, value) else e) ≤
        entriesMarks map + jsonMarks value := entriesMarks_replace h
    rw [if_pos hmem]
    exact ⟨by omega, fun hge => by omega⟩
  · rw [if_neg hmem, entriesMarks_append, entriesMarks, entriesMarks]
    exact ⟨by omega, fun _ => hmem⟩

theorem nodup_insertKey {map : List (String × Json)} (h : (map.map Prod.fst).Nodup) (key : String)
    (value : Json) : ((insertKey map key value).map Prod.fst).Nodup := by
  unfold insertKey
  by_cases hmem : key ∈ map.map Prod.fst
  · have hkeys : (map.map fun e => if e.1 = key then (key, value) else e).map Prod.fst =
        map.map Prod.fst := by
      rw [List.map_map]
      refine List.map_congr_left fun e _ => ?_
      by_cases he : e.1 = key
      · simp [he]
      · simp [he]
    rw [if_pos hmem, hkeys]
    exact h
  · rw [if_neg hmem, List.map_append, List.map_singleton, ← List.concat_eq_append]
    exact h.concat hmem

/-! ### Reading a part of a text -/

section Reading

variable {E : Env} {r r' : Str}

theorem ofResult_mapMalformed_ok {context : String} {α : Type} {x : Except Str α} {a : α}
    (h : ofResult (mapMalformed context x) = .ok a) : x = .ok a := by
  cases x with
  | error e => cases h
  | ok b =>
    obtain rfl := Except.ok.inj h
    rfl

theorem marks_readJsonString (hE : SerdeReads E) {s : Str}
    (h : readJsonString E r = .ok (s, r')) (hr : Fresh r') : marks s + 2 + marks r' ≤ marks r := by
  rw [readJsonString] at h
  rcases expectChar_cases '"' r with ⟨tail, rfl, hexpect⟩ | ⟨e, hexpect⟩
  · rw [hexpect, ok_bind] at h
    cases hend : stringEnd false tail with
    | none =>
      rw [hend] at h
      cases h
    | some found =>
      obtain ⟨text, rest⟩ := found
      obtain ⟨body, rfl, rfl⟩ := stringEnd_split hend
      rw [hend] at h
      obtain ⟨s', hs', h⟩ := bind_eq_ok.1 h
      obtain ⟨rfl, rfl⟩ := Prod.mk.inj (pure_eq_ok.1 h)
      have hbody := hE.string body _ (ofResult_mapMalformed_ok hs')
      have hle := hbody.marks_le hr
      have hquote : mark '"' = 1 := rfl
      rw [marks_cons_ne (by decide), List.append_assoc, List.singleton_append]
      omega
  · rw [hexpect] at h
    cases h

theorem marks_readGemmaString {s : Str} (h : readGemmaString r = .ok (s, r')) :
    marks s + marks r' = marks r := by
  rw [readGemmaString] at h
  cases hq : startsWith r gemmaQuote with
  | false =>
    rw [stripPrefix_eq_none hq] at h
    cases h
  | true =>
    obtain ⟨tail, rfl⟩ := startsWith_iff.1 hq
    rw [stripPrefix_append] at h
    dsimp only at h
    cases hcut : cut gemmaQuote tail with
    | none =>
      rw [hcut] at h
      cases h
    | some found =>
      obtain ⟨text, rest⟩ := found
      rw [hcut] at h
      obtain ⟨rfl, rfl⟩ := Prod.mk.inj (Except.ok.inj h)
      obtain ⟨rfl, -⟩ := cut_eq_some_iff.1 hcut
      have hfresh : Fresh (gemmaQuote ++ rest) := fresh_cons (by decide) _
      rw [marks_quote, List.append_assoc, marks_append hfresh, marks_quote]

/-- A word, up to a character that is in no delimiter. -/
theorem marks_word {p : Char → Bool} (hp : ∀ c ∈ gemmaQuote.tail, p c = true) (r : Str) :
    marks (r.takeWhile p) + marks (r.dropWhile p) = marks r := by
  have hfresh : Fresh (r.dropWhile p) := by
    intro c hc hmem
    have hstop := List.head?_dropWhile_not p r
    rw [Option.mem_def.1 hc] at hstop
    have htrue := hp c hmem
    simp [htrue] at hstop
  rw [← marks_append hfresh, List.takeWhile_append_dropWhile]

/-- A key, and a quoted one with the two marks of its quotes. -/
theorem marks_readKey (hE : SerdeReads E) {key : Str} (h : readKey E r = .ok (key, r'))
    (hr : Fresh r') : marks key + marks r' ≤ marks r ∧
      ((trimStart r).head? = some '"' → marks key + 2 + marks r' ≤ marks r) := by
  have htrim := marks_trimStart_le r
  rw [readKey] at h
  cases hhead : (trimStart r).head? with
  | none =>
    rw [hhead] at h
    cases h
  | some c =>
    rw [hhead] at h
    dsimp only at h
    by_cases hquote : c = '"'
    · rw [if_pos hquote] at h
      have hle := marks_readJsonString hE h hr
      exact ⟨by omega, fun _ => by omega⟩
    have hne : some c = some '"' → marks key + 2 + marks r' ≤ marks r := fun heq =>
      absurd (Option.some.inj heq) hquote
    rw [if_neg hquote] at h
    by_cases htag : c = '<' ∧ startsWith (trimStart r) gemmaQuote = true
    · rw [if_pos htag] at h
      have heq := marks_readGemmaString h
      exact ⟨by omega, hne⟩
    rw [if_neg htag] at h
    by_cases hempty : (trimStart r).takeWhile isKeyChar = []
    · rw [if_pos hempty] at h
      cases h
    · rw [if_neg hempty] at h
      obtain ⟨rfl, rfl⟩ := Prod.mk.inj (Except.ok.inj h)
      have heq := marks_word (p := isKeyChar) (List.all_eq_true.1 (by decide)) (trimStart r)
      exact ⟨by omega, hne⟩

theorem jsonMarks_atomValue (hE : SerdeReads E) {atom : Str}
    (hatom : ∀ c ∈ atom.head?, c ≠ '"' ∧ c ≠ '[' ∧ c ≠ '\x7b' ∧ isWhitespace c = false) :
    jsonMarks (atomValue E atom) ≤ marks atom := by
  unfold atomValue
  split
  · exact Nat.zero_le _
  split
  · exact Nat.zero_le _
  split
  · exact Nat.zero_le _
  split
  · next value hvalue =>
    obtain ⟨hstring, harray, hobject⟩ := hE.scalar atom value hvalue hatom
    cases value with
    | string s => cases hstring
    | array values => cases harray
    | object entries => cases hobject
    | null => exact Nat.zero_le _
    | bool b => exact Nat.zero_le _
    | u64 n => exact Nat.zero_le _
    | number text => exact Nat.zero_le _
  · rw [jsonMarks, String.toList_ofList]

theorem marks_readAtom (hE : SerdeReads E) {value : Json} (h : readAtom E r = .ok (value, r'))
    (hhead : ∀ c ∈ r.head?, c ≠ '"' ∧ c ≠ '[' ∧ c ≠ '\x7b') :
    jsonMarks value + marks r' ≤ marks r := by
  rw [readAtom] at h
  by_cases hempty : r.takeWhile isAtomChar = []
  · rw [if_pos hempty] at h
    cases h
  · rw [if_neg hempty] at h
    obtain ⟨rfl, rfl⟩ := Prod.mk.inj (Except.ok.inj h)
    have hle : jsonMarks (atomValue E (r.takeWhile isAtomChar)) ≤ marks (r.takeWhile isAtomChar) := by
      refine jsonMarks_atomValue hE fun c hc => ?_
      cases r with
      | nil => cases hc
      | cons d r =>
        have hd : isAtomChar d = true := by
          by_contra hd
          exact hempty (List.takeWhile_cons_of_neg hd)
        have hspace : isWhitespace d = false := by
          by_contra hw
          rw [isAtomChar_of_isWhitespace (by simpa using hw)] at hd
          cases hd
        rw [List.takeWhile_cons_of_pos hd] at hc
        obtain rfl : d = c := Option.some.inj hc
        obtain ⟨h₁, h₂, h₃⟩ := hhead d rfl
        exact ⟨h₁, h₂, h₃, hspace⟩
    have heq := marks_word (p := isAtomChar) (List.all_eq_true.1 (by decide)) r
    omega

/-! ### The rounds of the reader -/

theorem consumeChar_cases (c : Char) (r : Str) :
    (∃ r', r = c :: r' ∧ consumeChar c r = (true, r')) ∨
      (r.head? ≠ some c ∧ consumeChar c r = (false, r)) := by
  by_cases hc : r.head? = some c
  · obtain ⟨r', rfl⟩ := List.head?_eq_some_iff.1 hc
    exact .inl ⟨r', rfl, consumeChar_cons c r'⟩
  · exact .inr ⟨hc, if_neg hc⟩

theorem expectChar_eq_ok {c : Char} (h : expectChar c r = .ok r') : r = c :: r' := by
  rcases expectChar_cases c r with ⟨r₁, rfl, hr₁⟩ | ⟨e, he⟩
  · rw [hr₁] at h
    rw [Except.ok.inj h]
  · rw [he] at h
    cases h

variable {fuel : ℕ} {v : Json}

theorem readValue_cases (h : readValue E (fuel + 1) r = .ok (v, r')) :
    (∃ r₀, trimStart r = '\x7b' :: r₀ ∧ readEntries E fuel r₀ [] = .ok (v, r')) ∨
      (∃ r₀, trimStart r = '[' :: r₀ ∧ readValues E fuel r₀ [] = .ok (v, r')) ∨
      (∃ s, readJsonString E (trimStart r) = .ok (s, r') ∧ v = .string (String.ofList s)) ∨
      (∃ s, readGemmaString (trimStart r) = .ok (s, r') ∧ v = .string (String.ofList s)) ∨
      ((∀ c ∈ (trimStart r).head?, c ≠ '"' ∧ c ≠ '[' ∧ c ≠ '\x7b') ∧
        readAtom E (trimStart r) = .ok (v, r')) := by
  rw [readValue] at h
  dsimp only at h
  cases hhead : (trimStart r).head? with
  | none =>
    rw [hhead] at h
    cases h
  | some c =>
    rw [hhead] at h
    dsimp only at h
    by_cases hbrace : c = '\x7b'
    · rw [if_pos hbrace] at h
      obtain ⟨r₀, hr₀, h⟩ := bind_eq_ok.1 h
      exact .inl ⟨r₀, expectChar_eq_ok hr₀, h⟩
    rw [if_neg hbrace] at h
    by_cases hbracket : c = '['
    · rw [if_pos hbracket] at h
      obtain ⟨r₀, hr₀, h⟩ := bind_eq_ok.1 h
      exact .inr (.inl ⟨r₀, expectChar_eq_ok hr₀, h⟩)
    rw [if_neg hbracket] at h
    by_cases hquote : c = '"'
    · rw [if_pos hquote] at h
      obtain ⟨⟨s, r₀⟩, hs, h⟩ := bind_eq_ok.1 h
      obtain ⟨rfl, rfl⟩ := Prod.mk.inj (pure_eq_ok.1 h)
      exact .inr (.inr (.inl ⟨s, hs, rfl⟩))
    rw [if_neg hquote] at h
    by_cases htag : c = '<' ∧ startsWith (trimStart r) gemmaQuote = true
    · rw [if_pos htag] at h
      obtain ⟨⟨s, r₀⟩, hs, h⟩ := bind_eq_ok.1 h
      obtain ⟨rfl, rfl⟩ := Prod.mk.inj (pure_eq_ok.1 h)
      exact .inr (.inr (.inr (.inl ⟨s, hs, rfl⟩)))
    rw [if_neg htag] at h
    refine .inr (.inr (.inr (.inr ⟨fun d hd => ?_, h⟩)))
    obtain rfl : c = d := Option.some.inj hd
    exact ⟨hquote, hbracket, hbrace⟩

theorem readValues_cases {values : List Json} (h : readValues E (fuel + 1) r values = .ok (v, r')) :
    (trimStart r = ']' :: r' ∧ v = .array values) ∨
      ∃ value r₁, (trimStart r).head? ≠ some ']' ∧
        readValue E fuel (trimStart r) = .ok (value, r₁) ∧
        ((∃ r₂, trimStart r₁ = ',' :: r₂ ∧
            readValues E fuel r₂ (values ++ [value]) = .ok (v, r')) ∨
          (trimStart r₁ = ']' :: r' ∧ v = .array (values ++ [value]))) := by
  rw [readValues] at h
  dsimp only at h
  rcases consumeChar_cases ']' (trimStart r) with ⟨r₀, hr₀, hclose⟩ | ⟨hne, hclose⟩
  · rw [hclose, if_pos rfl] at h
    obtain ⟨rfl, rfl⟩ := Prod.mk.inj (pure_eq_ok.1 h)
    exact .inl ⟨hr₀, rfl⟩
  · rw [hclose, if_neg Bool.false_ne_true] at h
    obtain ⟨⟨value, r₁⟩, hvalue, h⟩ := bind_eq_ok.1 h
    refine .inr ⟨value, r₁, hne, hvalue, ?_⟩
    dsimp only at h
    rcases consumeChar_cases ',' (trimStart r₁) with ⟨r₂, hr₂, hmore⟩ | ⟨-, hmore⟩
    · rw [hmore, if_pos rfl] at h
      exact .inl ⟨r₂, hr₂, h⟩
    · rw [hmore, if_neg Bool.false_ne_true] at h
      obtain ⟨r₂, hr₂, h⟩ := bind_eq_ok.1 h
      obtain ⟨rfl, rfl⟩ := Prod.mk.inj (pure_eq_ok.1 h)
      exact .inr ⟨expectChar_eq_ok hr₂, rfl⟩

theorem readEntries_cases {map : List (String × Json)}
    (h : readEntries E (fuel + 1) r map = .ok (v, r')) :
    (trimStart r = '\x7d' :: r' ∧ v = .object map) ∨
      ∃ key r₁ r₂ value r₃, (trimStart r).head? ≠ some '\x7d' ∧
        readKey E (trimStart r) = .ok (key, r₁) ∧ trimStart r₁ = ':' :: r₂ ∧
        readValue E fuel r₂ = .ok (value, r₃) ∧
        ((∃ r₄, trimStart r₃ = ',' :: r₄ ∧
            readEntries E fuel r₄ (insertKey map (String.ofList key) value) = .ok (v, r')) ∨
          (trimStart r₃ = '\x7d' :: r' ∧ v = .object (insertKey map (String.ofList key) value))) := by
  rw [readEntries] at h
  dsimp only at h
  rcases consumeChar_cases '\x7d' (trimStart r) with ⟨r₀, hr₀, hclose⟩ | ⟨hne, hclose⟩
  · rw [hclose, if_pos rfl] at h
    obtain ⟨rfl, rfl⟩ := Prod.mk.inj (pure_eq_ok.1 h)
    exact .inl ⟨hr₀, rfl⟩
  · rw [hclose, if_neg Bool.false_ne_true] at h
    obtain ⟨⟨key, r₁⟩, hkey, h⟩ := bind_eq_ok.1 h
    obtain ⟨r₂, hr₂, h⟩ := bind_eq_ok.1 h
    obtain ⟨⟨value, r₃⟩, hvalue, h⟩ := bind_eq_ok.1 h
    refine .inr ⟨key, r₁, r₂, value, r₃, hne, hkey, expectChar_eq_ok hr₂, hvalue, ?_⟩
    dsimp only at h
    rcases consumeChar_cases ',' (trimStart r₃) with ⟨r₄, hr₄, hmore⟩ | ⟨-, hmore⟩
    · rw [hmore, if_pos rfl] at h
      exact .inl ⟨r₄, hr₄, h⟩
    · rw [hmore, if_neg Bool.false_ne_true] at h
      obtain ⟨r₄, hr₄, h⟩ := bind_eq_ok.1 h
      obtain ⟨rfl, rfl⟩ := Prod.mk.inj (pure_eq_ok.1 h)
      exact .inr ⟨expectChar_eq_ok hr₄, rfl⟩

/-! ### No reading adds marks -/

theorem trimStart_trimStart (r : Str) : trimStart (trimStart r) = trimStart r :=
  List.dropWhile_idempotent isWhitespace r

/-- What follows a part is fresh if it is a separator, after space. -/
theorem fresh_of_separator {c : Char} (h : trimStart r = c :: r') (hc : c ∉ gemmaQuote.tail) :
    Fresh r := by
  refine fresh_of_trimStart ?_
  rw [h]
  exact fresh_cons hc r'

theorem marks_separator {c : Char} (h : trimStart r = c :: r') (hc : c ≠ '<') :
    mark c + marks r' ≤ marks r := by
  have hle := marks_trimStart_le r
  rwa [h, marks_cons_ne hc] at hle

/-- An entry has the marks of its key and of its value, and a colon. -/
theorem marks_entry (hE : SerdeReads E) {key r₁ r₂ r₃ : Str} {value : Json}
    (hkey : readKey E (trimStart r) = .ok (key, r₁)) (hcolon : trimStart r₁ = ':' :: r₂)
    (hvalue : jsonMarks value + marks r₃ ≤ marks r₂) :
    marks key + 1 + jsonMarks value + marks r₃ ≤ marks r ∧
      ((trimStart r).head? = some '"' → marks key + 1 + jsonMarks value + 2 + marks r₃ ≤ marks r) := by
  obtain ⟨hle, hquoted⟩ := marks_readKey hE hkey (fresh_of_separator hcolon (by decide))
  have htrim := marks_trimStart_le r
  have hsep := marks_separator hcolon (by decide)
  have hone : mark ':' = 1 := rfl
  rw [trimStart_trimStart] at hquoted
  exact ⟨by omega, fun hhead => by have := hquoted hhead; omega⟩

/-- A value has no more marks than the text it was read from; an object that has as many keeps
the entries that were there. By induction on the fuel. -/
theorem marks_read (hE : SerdeReads E) : ∀ fuel : ℕ,
    (∀ r v r', readValue E fuel r = .ok (v, r') → Fresh r' →
      jsonMarks v + marks r' ≤ marks r) ∧
    (∀ r map v r', (map.map Prod.fst).Nodup → readEntries E fuel r map = .ok (v, r') →
      ∃ final, v = .object final ∧ entriesMarks final + marks r' ≤ entriesMarks map + marks r ∧
        (entriesMarks map + marks r ≤ entriesMarks final + marks r' → map <+: final)) ∧
    (∀ r values v r', readValues E fuel r values = .ok (v, r') →
      ∃ more, v = .array (values ++ more) ∧ valuesMarks more + marks r' ≤ marks r)
  | 0 => ⟨fun _ _ _ h => (by cases h), fun _ _ _ _ _ h => (by cases h),
      fun _ _ _ _ h => (by cases h)⟩
  | fuel + 1 => by
    obtain ⟨ihValue, ihEntries, ihValues⟩ := marks_read hE fuel
    refine ⟨fun r v r' h hr' => ?_, fun r map v r' hnodup h => ?_, fun r values v r' h => ?_⟩
    · have htrim := marks_trimStart_le r
      rcases readValue_cases h with ⟨r₀, hr₀, h⟩ | ⟨r₀, hr₀, h⟩ | ⟨s, hs, rfl⟩ | ⟨s, hs, rfl⟩ |
        ⟨hhead, hatom⟩
      · obtain ⟨final, rfl, hle, -⟩ := ihEntries r₀ [] v r' List.nodup_nil h
        have hsep := marks_separator hr₀ (by decide)
        rw [entriesMarks] at hle
        rw [jsonMarks]
        omega
      · obtain ⟨more, rfl, hle⟩ := ihValues r₀ [] v r' h
        have hsep := marks_separator hr₀ (by decide)
        rw [List.nil_append, jsonMarks]
        omega
      · have hle := marks_readJsonString hE hs hr'
        rw [jsonMarks, String.toList_ofList]
        omega
      · have heq := marks_readGemmaString hs
        rw [jsonMarks, String.toList_ofList]
        omega
      · exact (marks_readAtom hE hatom hhead).trans htrim
    · rcases readEntries_cases h with ⟨hr₀, rfl⟩ |
        ⟨key, r₁, r₂, value, r₃, -, hkey, hcolon, hvalue, hrest⟩
      · have hsep := marks_separator hr₀ (by decide)
        exact ⟨map, rfl, by omega, fun _ => List.prefix_rfl⟩
      · have hfresh : Fresh r₃ := by
          rcases hrest with ⟨r₄, hr₄, -⟩ | ⟨hr₄, -⟩
          · exact fresh_of_separator hr₄ (by decide)
          · exact fresh_of_separator hr₄ (by decide)
        obtain ⟨hentry, -⟩ := marks_entry hE hkey hcolon (ihValue r₂ value r₃ hvalue hfresh)
        obtain ⟨hinsert, hold⟩ := entriesMarks_insertKey hnodup (String.ofList key) value
        rw [String.toList_ofList] at hinsert hold
        have hkeep : String.ofList key ∉ map.map Prod.fst →
            map <+: insertKey map (String.ofList key) value := fun hnew => by
          rw [insertKey_of_notMem hnew]
          exact List.prefix_append _ _
        rcases hrest with ⟨r₄, hr₄, h⟩ | ⟨hr₄, rfl⟩
        · obtain ⟨final, rfl, hle, hpre⟩ := ihEntries r₄ _ v r'
            (nodup_insertKey hnodup (String.ofList key) value) h
          have hsep := marks_separator hr₄ (by decide)
          exact ⟨final, rfl, by omega, fun hge =>
            (hkeep (hold (by omega))).trans (hpre (by omega))⟩
        · have hsep := marks_separator hr₄ (by decide)
          exact ⟨_, rfl, by omega, fun hge => hkeep (hold (by omega))⟩
    · rcases readValues_cases h with ⟨hr₀, rfl⟩ | ⟨value, r₁, -, hvalue, hrest⟩
      · have hsep := marks_separator hr₀ (by decide)
        exact ⟨[], by rw [List.append_nil], by rw [valuesMarks]; omega⟩
      · have htrim := marks_trimStart_le r
        rcases hrest with ⟨r₂, hr₂, h⟩ | ⟨hr₂, rfl⟩
        · have hle := ihValue _ value r₁ hvalue (fresh_of_separator hr₂ (by decide))
          obtain ⟨more, rfl, hmore⟩ := ihValues r₂ _ v r' h
          have hsep := marks_separator hr₂ (by decide)
          refine ⟨value :: more, by rw [List.append_assoc, List.singleton_append], ?_⟩
          rw [valuesMarks]
          omega
        · have hle := ihValue _ value r₁ hvalue (fresh_of_separator hr₂ (by decide))
          have hsep := marks_separator hr₂ (by decide)
          refine ⟨[value], rfl, ?_⟩
          rw [valuesMarks, valuesMarks]
          omega

end Reading

end KirAi.ToolParser
