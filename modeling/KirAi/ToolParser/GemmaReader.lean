/-
# The Gemma argument parser on the text that remains

The argument parser of Gemma keeps its input and a position. Here the same parser is
written on the text from the position on, without offsets: `GemmaReader.readValue` and the
functions below it. A position that stands at a character boundary stays at one, and the
two parsers give the same answers (`parse_follows`, `parseComplete_eq`). So no slice
of the argument parser fails; and since every value takes at least one character off the
text, the fuel it is given is enough (`returns_parseArguments`).

Key definitions:
* `Follows`, `Mirrors`
* `GemmaReader.readValue`, `readEntries`, `readValues`, `readComplete`

Key theorems:
* `parse_follows`, `parseComplete_eq`, `returns_parseArguments`
-/
import KirAi.ToolParser.Gemma

namespace KirAi.ToolParser

open Lib Lib.Text
open KirAi.Runtime (Str ToolCall ToolCallFunction ParsedAssistant isWhitespace trim trimStart)
open Width (width)
open GemmaArgumentParser (isKeyChar isAtomChar atomValue)

namespace GemmaReader

/-! ### The parser without offsets -/

def consumeChar (expected : Char) (r : Str) : Bool × Str :=
  if r.head? = some expected then (true, r.tail) else (false, r)

def expectChar (expected : Char) (r : Str) : Parse Str :=
  if r.head? = some expected then .ok r.tail
  else .error (.error (.malformedTool ("expected Gemma tool argument character `".toList ++
    expected :: "`".toList)))

def readGemmaString (r : Str) : Parse (Str × Str) :=
  match stripPrefix r gemmaQuote with
  | none => .error (.error (.malformedTool ("expected Gemma tool argument token `".toList ++
      gemmaQuote ++ "`".toList)))
  | some r =>
    match cut gemmaQuote r with
    | none => malformedTool "unterminated Gemma escaped string"
    | some (text, rest) => .ok (text, rest)

/-- The text up to the closing quote of a JSON string, and the text after it. -/
def stringEnd : Bool → Str → Option (Str × Str)
  | _, [] => none
  | escaped, ch :: r =>
    if escaped then (stringEnd false r).map fun t => (ch :: t.1, t.2)
    else if ch = '\\' then (stringEnd true r).map fun t => (ch :: t.1, t.2)
    else if ch = '"' then some ([ch], r)
    else (stringEnd false r).map fun t => (ch :: t.1, t.2)

variable (E : Env)

/-- The string that starts with `u` and ends where it was found to end. -/
def closeString (u : Str) : Option (Str × Str) → Parse (Str × Str)
  | none => malformedTool "unterminated Gemma JSON string"
  | some (text, rest) => do
    let s ← ofResult (mapMalformed "invalid Gemma JSON string: " (E.stringFromStr (u ++ text)))
    return (s, rest)

def readJsonString (r : Str) : Parse (Str × Str) := do
  let tail ← expectChar '"' r
  closeString E ['"'] (stringEnd false tail)

def readKey (r : Str) : Parse (Str × Str) :=
  let r := trimStart r
  match r.head? with
  | none => malformedTool "Gemma object ended before key"
  | some ch =>
    if ch = '"' then readJsonString E r
    else if ch = '<' ∧ startsWith r gemmaQuote then readGemmaString r
    else if r.takeWhile isKeyChar = [] then malformedTool "Gemma object key is empty"
    else .ok (r.takeWhile isKeyChar, r.dropWhile isKeyChar)

def readAtom (r : Str) : Parse (Json × Str) :=
  if r.takeWhile isAtomChar = [] then malformedTool "Gemma atom is empty"
  else .ok (atomValue E (r.takeWhile isAtomChar), r.dropWhile isAtomChar)

mutual

def readValue : ℕ → Str → Parse (Json × Str)
  | 0, _ => .error .outOfFuel
  | fuel + 1, r => do
    let r := trimStart r
    match r.head? with
    | none => malformedTool "Gemma tool argument ended before value"
    | some ch =>
      if ch = '{' then do
        let r ← expectChar '{' r
        readEntries fuel r []
      else if ch = '[' then do
        let r ← expectChar '[' r
        readValues fuel r []
      else if ch = '"' then do
        let (text, r) ← readJsonString E r
        return (.string (String.ofList text), r)
      else if ch = '<' ∧ startsWith r gemmaQuote then do
        let (text, r) ← readGemmaString r
        return (.string (String.ofList text), r)
      else readAtom E r

def readEntries : ℕ → Str → List (String × Json) → Parse (Json × Str)
  | 0, _, _ => .error .outOfFuel
  | fuel + 1, r, map => do
    let (closed, r) := consumeChar '}' (trimStart r)
    if closed then return (.object map, r)
    else do
      let (key, r) ← readKey E r
      let r ← expectChar ':' (trimStart r)
      let (value, r) ← readValue fuel r
      let map := insertKey map (String.ofList key) value
      let (more, r) := consumeChar ',' (trimStart r)
      if more then readEntries fuel r map
      else do
        let r ← expectChar '}' r
        return (.object map, r)

def readValues : ℕ → Str → List Json → Parse (Json × Str)
  | 0, _, _ => .error .outOfFuel
  | fuel + 1, r, values => do
    let (closed, r) := consumeChar ']' (trimStart r)
    if closed then return (.array values, r)
    else do
      let (value, r) ← readValue fuel r
      let values := values ++ [value]
      let (more, r) := consumeChar ',' (trimStart r)
      if more then readValues fuel r values
      else do
        let r ← expectChar ']' r
        return (.array values, r)

end

def readComplete (input : Str) : Parse Json := do
  let (value, r) ← readValue E (2 * input.length + 2) input
  let r := trimStart r
  if r ≠ [] then
    .error (.error (.malformedTool ("unexpected Gemma tool argument suffix `".toList ++ r ++
      "`".toList)))
  else return value

end GemmaReader

/-! ### The position and the text that remains -/

/-- The text `r` remains of the input at the position. -/
def Follows (input : Str) (position : ℕ) (r : Str) : Prop := ∃ u, input = u ++ r ∧ len u = position

/-- An answer with a position, and the same answer with the text that remains there. -/
def Mirrors {α : Type} (input : Str) (x : Parse (α × ℕ)) (y : Parse (α × Str)) : Prop :=
  match y with
  | .error e => x = .error e
  | .ok (a, r) => ∃ position, Follows input position r ∧ x = .ok (a, position)

section Mirrors

variable {α β : Type} {input : Str} {position : ℕ} {r : Str}

theorem Follows.advance {u r : Str} (h : Follows input position (u ++ r)) :
    Follows input (position + len u) r := by
  obtain ⟨v, rfl, rfl⟩ := h
  exact ⟨v ++ u, by simp, by simp⟩

theorem Follows.remaining (h : Follows input position r) :
    GemmaArgumentParser.remaining input position = .ok r := by
  obtain ⟨u, rfl, rfl⟩ := h
  exact sliceFrom_append u r

theorem Follows.peekChar (h : Follows input position r) :
    GemmaArgumentParser.peekChar input position = .ok r.head? := by
  rw [GemmaArgumentParser.peekChar, h.remaining]
  rfl

theorem Follows.slice {u : Str} (h : Follows input position (u ++ r)) :
    ToolParser.slice input position (position + len u) = .ok u := by
  obtain ⟨v, rfl, rfl⟩ := h
  exact slice_eq v u r (by simp) rfl rfl

theorem Follows.length_lt (h : Follows input position r) : r.length < input.length + 1 := by
  obtain ⟨u, rfl, -⟩ := h
  rw [List.length_append]
  omega

theorem mirrors_ok {a : α} (h : Follows input position r) :
    Mirrors input (.ok (a, position)) (.ok (a, r)) := ⟨position, h, rfl⟩

theorem mirrors_error (e : Failure) :
    Mirrors input (.error e : Parse (α × ℕ)) (.error e) := rfl

theorem mirrors_bind {x : Parse (α × ℕ)} {y : Parse (α × Str)} {f : α × ℕ → Parse (β × ℕ)}
    {g : α × Str → Parse (β × Str)} (h : Mirrors input x y)
    (hfg : ∀ a position r, Follows input position r →
      Mirrors input (f (a, position)) (g (a, r))) :
    Mirrors input (x >>= f) (y >>= g) := by
  rcases y with e | ⟨a, r⟩
  · have hx : x = .error e := h
    rw [hx]
    exact mirrors_error e
  · obtain ⟨p, hp, hx⟩ := h
    rw [hx]
    exact hfg a p r hp

/-! ### The steps -/

theorem Follows.advanceWhile {p : Char → Bool} : ∀ {fuel position : ℕ} {r : Str},
    r.length < fuel → Follows input position r →
      ∃ q, GemmaArgumentParser.advanceWhile input p fuel position = .ok q ∧
        q = position + len (r.takeWhile p) ∧ Follows input q (r.dropWhile p)
  | fuel + 1, position, [], _, h => by
    refine ⟨position, ?_, rfl, h⟩
    rw [GemmaArgumentParser.advanceWhile, h.peekChar]
    rfl
  | fuel + 1, position, ch :: r, hfuel, h => by
    rw [GemmaArgumentParser.advanceWhile, h.peekChar]
    simp only [List.head?_cons, ok_bind]
    by_cases hp : p ch
    · have hnext : Follows input (position + width ch) r := Follows.advance (u := [ch]) h
      have hfuel' : r.length < fuel := by simpa using hfuel
      obtain ⟨q, hq, hpos, hrest⟩ := Follows.advanceWhile (p := p) hfuel' hnext
      refine ⟨q, by rw [if_pos hp, hq], ?_, ?_⟩
      · rw [List.takeWhile_cons_of_pos hp, len_cons]
        omega
      · rwa [List.dropWhile_cons_of_pos hp]
    · refine ⟨position, by rw [if_neg hp]; rfl, ?_, ?_⟩
      · rw [List.takeWhile_cons_of_neg hp, len_nil, Nat.add_zero]
      · rwa [List.dropWhile_cons_of_neg hp]

theorem Follows.skipWs (h : Follows input position r) :
    ∃ q, GemmaArgumentParser.skipWs input position = .ok q ∧ Follows input q (trimStart r) := by
  obtain ⟨q, hq, -, hrest⟩ := Follows.advanceWhile (p := isWhitespace) h.length_lt h
  exact ⟨q, hq, hrest⟩

theorem Follows.consumeChar (c : Char) (h : Follows input position r) :
    ∃ q, GemmaArgumentParser.consumeChar input c position = .ok ((GemmaReader.consumeChar c r).1, q) ∧
      Follows input q (GemmaReader.consumeChar c r).2 := by
  rw [GemmaArgumentParser.consumeChar, h.peekChar]
  simp only [ok_bind, GemmaReader.consumeChar]
  by_cases hc : r.head? = some c
  · obtain ⟨r', rfl⟩ := List.head?_eq_some_iff.1 hc
    rw [if_pos hc, if_pos hc]
    exact ⟨_, rfl, Follows.advance (u := [c]) h⟩
  · rw [if_neg hc, if_neg hc]
    exact ⟨_, rfl, h⟩

/-- The character is there, and the position moves past it, or both parsers fail. -/
theorem Follows.expectChar (c : Char) (h : Follows input position r) :
    (∃ r', GemmaArgumentParser.expectChar input c position = .ok (position + width c) ∧
      GemmaReader.expectChar c r = .ok r' ∧ r = c :: r' ∧
      Follows input (position + width c) r') ∨
    ∃ e, GemmaArgumentParser.expectChar input c position = .error (.error e) ∧
      GemmaReader.expectChar c r = .error (.error e) := by
  rw [GemmaArgumentParser.expectChar, GemmaArgumentParser.consumeChar, h.peekChar,
    GemmaReader.expectChar]
  simp only [ok_bind]
  by_cases hc : r.head? = some c
  · obtain ⟨r', rfl⟩ := List.head?_eq_some_iff.1 hc
    rw [if_pos hc, if_pos hc]
    exact .inl ⟨r', rfl, rfl, rfl, Follows.advance (u := [c]) h⟩
  · rw [if_neg hc, if_neg hc]
    exact .inr ⟨_, rfl, rfl⟩

theorem parseGemmaString_follows (h : Follows input position r) :
    Mirrors input (GemmaArgumentParser.parseGemmaString input position)
      (GemmaReader.readGemmaString r) := by
  rw [GemmaArgumentParser.parseGemmaString, GemmaArgumentParser.expectStr, h.remaining,
    GemmaReader.readGemmaString]
  simp only [ok_bind]
  cases hq : startsWith r gemmaQuote with
  | true =>
    obtain ⟨tail, rfl⟩ := startsWith_iff.1 hq
    have htail := h.advance
    rw [stripPrefix_append, if_pos rfl]
    simp only [pure, Except.pure, ok_bind, htail.remaining]
    cases hfind : find gemmaQuote tail with
    | none =>
      rw [cut_eq_none_iff.2 hfind]
      exact mirrors_error _
    | some i =>
      obtain ⟨text, rest, rfl, rfl, hcut⟩ := exists_cut hfind
      rw [List.append_assoc] at htail
      simp only [hcut, htail.slice, ok_bind]
      exact mirrors_ok htail.advance.advance
  | false =>
    rw [stripPrefix_eq_none hq, if_neg Bool.false_ne_true]
    exact mirrors_error _

theorem closeString_map (E : Env) (u : Str) (ch : Char) (t : Option (Str × Str)) :
    GemmaReader.closeString E u (t.map fun t => (ch :: t.1, t.2)) =
      GemmaReader.closeString E (u ++ [ch]) t := by
  cases t with
  | none => rfl
  | some t => simp [GemmaReader.closeString]

/-- The loop over a string: from its start the characters read so far are `u`. -/
theorem parseJsonStringLoop_follows (E : Env) {start : ℕ} : ∀ {fuel position : ℕ} {escaped : Bool}
    {u r : Str}, r.length < fuel → Follows input start (u ++ r) → position = start + len u →
      Mirrors input (GemmaArgumentParser.parseJsonStringLoop input E start fuel escaped position)
        (GemmaReader.closeString E u (GemmaReader.stringEnd escaped r))
  | fuel + 1, position, escaped, u, [], _, h, hpos => by
    subst hpos
    rw [GemmaArgumentParser.parseJsonStringLoop, h.advance.peekChar]
    exact mirrors_error _
  | fuel + 1, position, escaped, u, ch :: r, hfuel, h, hpos => by
    subst hpos
    have hfuel' : r.length < fuel := by simpa using hfuel
    have hread : Follows input start ((u ++ [ch]) ++ r) := by simpa using h
    have hnext : start + len u + width ch = start + len (u ++ [ch]) := by
      simp [Nat.add_assoc]
    rw [GemmaArgumentParser.parseJsonStringLoop, h.advance.peekChar, GemmaReader.stringEnd]
    simp only [List.head?_cons, ok_bind]
    by_cases hesc : escaped
    · rw [if_pos hesc, if_pos hesc, closeString_map]
      exact parseJsonStringLoop_follows E hfuel' hread hnext
    · rw [if_neg hesc, if_neg hesc]
      by_cases hback : ch = '\\'
      · rw [if_pos hback, if_pos hback, closeString_map]
        exact parseJsonStringLoop_follows E hfuel' hread hnext
      · rw [if_neg hback, if_neg hback]
        by_cases hquote : ch = '"'
        · rw [if_pos hquote, if_pos hquote, hnext, hread.slice]
          simp only [ok_bind, GemmaReader.closeString]
          cases ofResult (mapMalformed "invalid Gemma JSON string: "
            (E.stringFromStr (u ++ [ch]))) with
          | error e => exact mirrors_error e
          | ok s => exact mirrors_ok hread.advance
        · rw [if_neg hquote, if_neg hquote, closeString_map]
          exact parseJsonStringLoop_follows E hfuel' hread hnext

theorem parseJsonString_follows (E : Env) (h : Follows input position r) :
    Mirrors input (GemmaArgumentParser.parseJsonString input E position)
      (GemmaReader.readJsonString E r) := by
  rw [GemmaArgumentParser.parseJsonString, GemmaReader.readJsonString]
  rcases h.expectChar '"' with ⟨r', hq, hr', rfl, hfollows⟩ | ⟨e, hq, hr⟩
  · simp only [hq, hr', ok_bind]
    exact parseJsonStringLoop_follows E (u := ['"']) hfollows.length_lt h rfl
  · simp only [hq, hr]
    exact mirrors_error _

/-- A word of the input: it is cut out between two positions. -/
theorem Follows.word {p : Char → Bool} (h : Follows input position r) :
    ∃ q, GemmaArgumentParser.advanceWhile input p (input.length + 1) position = .ok q ∧
      ToolParser.slice input position q = .ok (r.takeWhile p) ∧
      (q = position ↔ r.takeWhile p = []) ∧ Follows input q (r.dropWhile p) := by
  obtain ⟨q, hq, rfl, hrest⟩ := Follows.advanceWhile (p := p) h.length_lt h
  refine ⟨_, hq, ?_, ?_, hrest⟩
  · have h' := h
    rw [← List.takeWhile_append_dropWhile (p := p) (l := r)] at h'
    exact h'.slice
  · rw [← len_eq_zero]
    omega

variable (E : Env)

theorem parseKey_follows (h : Follows input position r) :
    Mirrors input (GemmaArgumentParser.parseKey input E position) (GemmaReader.readKey E r) := by
  obtain ⟨q, hq, hfollows⟩ := h.skipWs
  rw [GemmaArgumentParser.parseKey, hq, GemmaReader.readKey]
  simp only [ok_bind, hfollows.peekChar, hfollows.remaining]
  cases (trimStart r).head? with
  | none => exact mirrors_error _
  | some ch =>
    dsimp only
    split
    · exact parseJsonString_follows E hfollows
    · split
      · exact parseGemmaString_follows hfollows
      · obtain ⟨q', hq', hslice, hempty, hrest⟩ := hfollows.word (p := isKeyChar)
        rw [hq']
        simp only [ok_bind, hempty]
        split
        · exact mirrors_error _
        · rw [hslice]
          exact mirrors_ok hrest

theorem parseAtom_follows (h : Follows input position r) :
    Mirrors input (GemmaArgumentParser.parseAtom input E position) (GemmaReader.readAtom E r) := by
  obtain ⟨q, hq, hslice, -, hrest⟩ := h.word (p := isAtomChar)
  rw [GemmaArgumentParser.parseAtom, hq, GemmaReader.readAtom]
  simp only [ok_bind, hslice, List.isEmpty_iff]
  split
  · exact mirrors_error _
  · exact mirrors_ok hrest

/-- The two parsers give the same answers, by induction on the fuel. -/
theorem parse_follows : ∀ fuel : ℕ,
    (∀ position r, Follows input position r →
      Mirrors input (GemmaArgumentParser.parseValue input E fuel position)
        (GemmaReader.readValue E fuel r)) ∧
    (∀ position r map, Follows input position r →
      Mirrors input (GemmaArgumentParser.parseObjectEntries input E fuel position map)
        (GemmaReader.readEntries E fuel r map)) ∧
    (∀ position r values, Follows input position r →
      Mirrors input (GemmaArgumentParser.parseArrayValues input E fuel position values)
        (GemmaReader.readValues E fuel r values))
  | 0 => ⟨fun _ _ _ => mirrors_error _, fun _ _ _ _ => mirrors_error _,
      fun _ _ _ _ => mirrors_error _⟩
  | fuel + 1 => by
    obtain ⟨ihValue, ihEntries, ihValues⟩ := parse_follows fuel
    refine ⟨fun position r h => ?_, fun position r map h => ?_, fun position r values h => ?_⟩
    · obtain ⟨q, hq, hfollows⟩ := h.skipWs
      rw [GemmaArgumentParser.parseValue, hq, GemmaReader.readValue]
      simp only [ok_bind, hfollows.peekChar, hfollows.remaining]
      cases (trimStart r).head? with
      | none => exact mirrors_error _
      | some ch =>
        dsimp only
        split
        · rcases hfollows.expectChar '{' with ⟨r', hx, hy, -, hr'⟩ | ⟨e, hx, hy⟩
          · rw [hx, hy]
            exact ihEntries _ r' [] hr'
          · rw [hx, hy]
            exact mirrors_error _
        split
        · rcases hfollows.expectChar '[' with ⟨r', hx, hy, -, hr'⟩ | ⟨e, hx, hy⟩
          · rw [hx, hy]
            exact ihValues _ r' [] hr'
          · rw [hx, hy]
            exact mirrors_error _
        split
        · exact mirrors_bind (parseJsonString_follows E hfollows) fun _ _ _ hr => mirrors_ok hr
        split
        · exact mirrors_bind (parseGemmaString_follows hfollows) fun _ _ _ hr => mirrors_ok hr
        · exact parseAtom_follows E hfollows
    · obtain ⟨q, hq, hfollows⟩ := h.skipWs
      obtain ⟨q₁, hclose, hfollows₁⟩ := hfollows.consumeChar '}'
      rw [GemmaArgumentParser.parseObjectEntries, hq, GemmaReader.readEntries]
      simp only [ok_bind, hclose]
      split
      · exact mirrors_ok hfollows₁
      · refine mirrors_bind (parseKey_follows E hfollows₁) fun key p₂ r₂ hr₂ => ?_
        obtain ⟨q₃, hq₃, hfollows₃⟩ := hr₂.skipWs
        dsimp only
        rw [hq₃, ok_bind]
        rcases hfollows₃.expectChar ':' with ⟨r₄, hx, hy, -, hr₄⟩ | ⟨e, hx, hy⟩
        · rw [hx, hy]
          refine mirrors_bind (ihValue _ r₄ hr₄) fun value p₅ r₅ hr₅ => ?_
          obtain ⟨q₆, hq₆, hfollows₆⟩ := hr₅.skipWs
          obtain ⟨q₇, hmore, hfollows₇⟩ := hfollows₆.consumeChar ','
          dsimp only
          rw [hq₆, ok_bind, hmore, ok_bind]
          dsimp only
          split
          · exact ihEntries _ _ _ hfollows₇
          · rcases hfollows₇.expectChar '}' with ⟨r₈, hx, hy, -, hr₈⟩ | ⟨e, hx, hy⟩
            · rw [hx, hy]
              exact mirrors_ok hr₈
            · rw [hx, hy]
              exact mirrors_error _
        · rw [hx, hy]
          exact mirrors_error _
    · obtain ⟨q, hq, hfollows⟩ := h.skipWs
      obtain ⟨q₁, hclose, hfollows₁⟩ := hfollows.consumeChar ']'
      rw [GemmaArgumentParser.parseArrayValues, hq, GemmaReader.readValues]
      simp only [ok_bind, hclose]
      split
      · exact mirrors_ok hfollows₁
      · refine mirrors_bind (ihValue _ _ hfollows₁) fun value p₅ r₅ hr₅ => ?_
        obtain ⟨q₆, hq₆, hfollows₆⟩ := hr₅.skipWs
        obtain ⟨q₇, hmore, hfollows₇⟩ := hfollows₆.consumeChar ','
        dsimp only
        rw [hq₆, ok_bind, hmore, ok_bind]
        dsimp only
        split
        · exact ihValues _ _ _ hfollows₇
        · rcases hfollows₇.expectChar ']' with ⟨r₈, hx, hy, -, hr₈⟩ | ⟨e, hx, hy⟩
          · rw [hx, hy]
            exact mirrors_ok hr₈
          · rw [hx, hy]
            exact mirrors_error _

theorem parseComplete_eq (input : Str) :
    GemmaArgumentParser.parseComplete E input = GemmaReader.readComplete E input := by
  have hzero : Follows input 0 input := ⟨[], rfl, rfl⟩
  have h := (parse_follows E (2 * input.length + 2)).1 0 input hzero
  rw [GemmaArgumentParser.parseComplete, GemmaReader.readComplete]
  rcases hread : GemmaReader.readValue E (2 * input.length + 2) input with e | ⟨value, r⟩
  · rw [hread] at h
    have hx : GemmaArgumentParser.parseValue input E (2 * input.length + 2) 0 = .error e := h
    rw [hx]
    rfl
  · rw [hread] at h
    obtain ⟨position, hfollows, hx⟩ := h
    obtain ⟨q, hq, hrest⟩ := hfollows.skipWs
    rw [hx, ok_bind, ok_bind]
    dsimp only
    rw [hq, ok_bind]
    have hend : q ≠ len input ↔ trimStart r ≠ [] := by
      obtain ⟨u, rfl, rfl⟩ := hrest
      rw [not_iff_not, ← len_eq_zero, len_append]
      omega
    have hslice : sliceFrom input q = .ok (trimStart r) := hrest.remaining
    by_cases hempty : trimStart r ≠ []
    · rw [if_pos (hend.2 hempty), if_pos hempty, hslice]
      rfl
    · rw [if_neg (fun h => hempty (hend.1 h)), if_neg hempty]

end Mirrors

/-! ### The fuel is enough -/

/-- The parser returns, and what remains is shorter than `n`. -/
def Shortens {α : Type} (n : ℕ) (x : Parse (α × Str)) : Prop :=
  Returns x ∧ ∀ a r, x = .ok (a, r) → r.length < n

section Shortens

variable {α β : Type} {n : ℕ} {r : Str}

theorem shortens_ok {a : α} (h : r.length < n) : Shortens n (.ok (a, r) : Parse (α × Str)) := by
  refine ⟨returns_ok _, fun a' r' heq => ?_⟩
  obtain ⟨-, rfl⟩ := Prod.mk.inj (Except.ok.inj heq)
  exact h

theorem shortens_error (e : ParserError) : Shortens n (.error (.error e) : Parse (α × Str)) :=
  ⟨returns_error e, nofun⟩

theorem shortens_bind {x : Parse (α × Str)} {f : α × Str → Parse (β × Str)} {m : ℕ}
    (hx : Shortens m x) (hf : ∀ a r, r.length < m → Shortens n (f (a, r))) :
    Shortens n (x >>= f) := by
  rcases x with e | ⟨a, r⟩
  · refine ⟨?_, nofun⟩
    have h := hx.1
    simpa [Returns] using h
  · exact hf a r (hx.2 a r rfl)

theorem length_trimStart_le (r : Str) : (trimStart r).length ≤ r.length :=
  (List.dropWhile_suffix isWhitespace).length_le

theorem length_consumeChar_le (c : Char) (r : Str) :
    (GemmaReader.consumeChar c r).2.length ≤ r.length := by
  unfold GemmaReader.consumeChar
  split
  · simp
  · exact le_rfl

theorem length_consumeChar_lt {c : Char} {r : Str} (h : (GemmaReader.consumeChar c r).1 = true) :
    (GemmaReader.consumeChar c r).2.length < r.length := by
  unfold GemmaReader.consumeChar at h ⊢
  split
  · next hc =>
    obtain ⟨r', rfl⟩ := List.head?_eq_some_iff.1 hc
    simp
  · next hc =>
    rw [if_neg hc] at h
    cases h

/-- The character is there and is taken off, or the parser fails. -/
theorem expectChar_cases (c : Char) (r : Str) :
    (∃ r', r = c :: r' ∧ GemmaReader.expectChar c r = .ok r') ∨
      ∃ e, GemmaReader.expectChar c r = .error (.error e) := by
  unfold GemmaReader.expectChar
  by_cases hc : r.head? = some c
  · obtain ⟨r', rfl⟩ := List.head?_eq_some_iff.1 hc
    rw [if_pos hc]
    exact .inl ⟨r', rfl, rfl⟩
  · rw [if_neg hc]
    exact .inr ⟨_, rfl⟩

/-- A string ends with a quote, and what remains comes right after it. -/
theorem stringEnd_split : ∀ {escaped : Bool} {r text rest : Str},
    GemmaReader.stringEnd escaped r = some (text, rest) →
    ∃ body, text = body ++ ['"'] ∧ r = text ++ rest
  | escaped, ch :: r, text, rest, h => by
    have hskip : ∀ {escaped : Bool}, (GemmaReader.stringEnd escaped r).map
        (fun t => (ch :: t.1, t.2)) = some (text, rest) →
        ∃ body, text = body ++ ['"'] ∧ ch :: r = text ++ rest := by
      intro escaped h
      obtain ⟨t, ht, heq⟩ := Option.map_eq_some_iff.1 h
      obtain ⟨body, hbody, hr⟩ := stringEnd_split ht
      obtain ⟨rfl, rfl⟩ := Prod.mk.inj heq
      exact ⟨ch :: body, by rw [hbody, List.cons_append], by rw [hr, List.cons_append]⟩
    unfold GemmaReader.stringEnd at h
    split at h
    · exact hskip h
    split at h
    · exact hskip h
    split at h
    · next hquote =>
      obtain ⟨rfl, rfl⟩ := Prod.mk.inj (Option.some.inj h)
      exact ⟨[], by rw [hquote, List.nil_append], rfl⟩
    · exact hskip h

theorem stringEnd_length {escaped : Bool} {r text rest : Str}
    (h : GemmaReader.stringEnd escaped r = some (text, rest)) : rest.length < r.length := by
  obtain ⟨body, rfl, rfl⟩ := stringEnd_split h
  simp only [List.length_append, List.length_singleton]
  omega

variable (E : Env)

theorem readJsonString_shortens (r : Str) :
    Shortens r.length (GemmaReader.readJsonString E r) := by
  rw [GemmaReader.readJsonString]
  rcases expectChar_cases '"' r with ⟨r', rfl, h⟩ | ⟨e, h⟩
  · rw [h, ok_bind]
    cases hend : GemmaReader.stringEnd false r' with
    | none => exact shortens_error _
    | some t =>
      have hlen := stringEnd_length hend
      simp only [GemmaReader.closeString]
      cases E.stringFromStr (['"'] ++ t.1) with
      | error err => exact shortens_error _
      | ok s => exact shortens_ok (by rw [List.length_cons]; omega)
  · rw [h]
    exact shortens_error e

theorem readGemmaString_shortens (r : Str) :
    Shortens r.length (GemmaReader.readGemmaString r) := by
  rw [GemmaReader.readGemmaString]
  cases hstrip : stripPrefix r gemmaQuote with
  | none => exact shortens_error _
  | some tail =>
    have htail : tail.length ≤ r.length := by
      unfold stripPrefix at hstrip
      split at hstrip
      · rw [← Option.some.inj hstrip]
        simp
      · cases hstrip
    dsimp only
    cases hcut : cut gemmaQuote tail with
    | none => exact shortens_error _
    | some t =>
      have hlt := length_lt_of_cut (by decide) hcut
      exact shortens_ok (by omega)

theorem length_dropWhile_lt {p : Char → Bool} (h : r.takeWhile p ≠ []) :
    (r.dropWhile p).length < r.length := by
  have hlen := congrArg List.length (List.takeWhile_append_dropWhile (p := p) (l := r))
  rw [List.length_append] at hlen
  have := List.length_pos_of_ne_nil h
  omega

theorem readKey_shortens (r : Str) : Shortens r.length (GemmaReader.readKey E r) := by
  have hle := length_trimStart_le r
  have hmono : ∀ {x : Parse (Str × Str)}, Shortens (trimStart r).length x → Shortens r.length x :=
    fun h => ⟨h.1, fun a r' hx => (h.2 a r' hx).trans_le hle⟩
  rw [GemmaReader.readKey]
  cases (trimStart r).head? with
  | none => exact shortens_error _
  | some ch =>
    dsimp only
    split
    · exact hmono (readJsonString_shortens E _)
    split
    · exact hmono (readGemmaString_shortens _)
    split
    · exact shortens_error _
    · next hne => exact hmono (shortens_ok (length_dropWhile_lt hne))

theorem readAtom_shortens (r : Str) : Shortens r.length (GemmaReader.readAtom E r) := by
  rw [GemmaReader.readAtom]
  split
  · exact shortens_error _
  · next hne => exact shortens_ok (length_dropWhile_lt hne)

/-- Twice the length of the text is enough fuel: a nested value starts after a character
of its own. -/
theorem read_shortens : ∀ fuel : ℕ,
    (∀ r, 2 * r.length + 1 ≤ fuel → Shortens r.length (GemmaReader.readValue E fuel r)) ∧
    (∀ r map, 2 * r.length + 2 ≤ fuel → Shortens r.length (GemmaReader.readEntries E fuel r map)) ∧
    (∀ r values, 2 * r.length + 2 ≤ fuel →
      Shortens r.length (GemmaReader.readValues E fuel r values))
  | 0 => ⟨fun r h => by omega, fun r map h => by omega, fun r values h => by omega⟩
  | fuel + 1 => by
    obtain ⟨ihValue, ihEntries, ihValues⟩ := read_shortens fuel
    refine ⟨fun r hfuel => ?_, fun r map hfuel => ?_, fun r values hfuel => ?_⟩
    · have hle := length_trimStart_le r
      have hmono : ∀ {m : ℕ} {x : Parse (Json × Str)}, Shortens m x → m ≤ (trimStart r).length →
          Shortens r.length x :=
        fun h hm => ⟨h.1, fun a r' hx => (h.2 a r' hx).trans_le (hm.trans hle)⟩
      rw [GemmaReader.readValue]
      dsimp only
      cases (trimStart r).head? with
      | none => exact shortens_error _
      | some ch =>
        dsimp only
        split
        · rcases expectChar_cases '{' (trimStart r) with ⟨r', hr', h⟩ | ⟨e, h⟩
          · rw [h, ok_bind]
            have hlen : (trimStart r).length = r'.length + 1 := by rw [hr', List.length_cons]
            exact hmono (ihEntries r' [] (by omega)) (by omega)
          · rw [h]
            exact shortens_error e
        split
        · rcases expectChar_cases '[' (trimStart r) with ⟨r', hr', h⟩ | ⟨e, h⟩
          · rw [h, ok_bind]
            have hlen : (trimStart r).length = r'.length + 1 := by rw [hr', List.length_cons]
            exact hmono (ihValues r' [] (by omega)) (by omega)
          · rw [h]
            exact shortens_error e
        split
        · exact hmono (shortens_bind (readJsonString_shortens E _) fun _ _ h => shortens_ok h) le_rfl
        split
        · exact hmono (shortens_bind (readGemmaString_shortens _) fun _ _ h => shortens_ok h) le_rfl
        · exact hmono (readAtom_shortens E _) le_rfl
    · have hle := length_trimStart_le r
      have hclose := length_consumeChar_le '}' (trimStart r)
      rw [GemmaReader.readEntries]
      dsimp only
      split
      · next hclosed => exact shortens_ok ((length_consumeChar_lt hclosed).trans_le hle)
      · refine shortens_bind (readKey_shortens E _) fun key r₂ hr₂ => ?_
        have hle₂ := length_trimStart_le r₂
        dsimp only
        rcases expectChar_cases ':' (trimStart r₂) with ⟨r₃, hr₃, h⟩ | ⟨e, h⟩
        · rw [h, ok_bind]
          have hlen₃ : (trimStart r₂).length = r₃.length + 1 := by rw [hr₃, List.length_cons]
          refine shortens_bind (ihValue r₃ (by omega)) fun value r₄ hr₄ => ?_
          have hle₄ := length_trimStart_le r₄
          have hmore := length_consumeChar_le ',' (trimStart r₄)
          dsimp only
          split
          · have h := ihEntries (GemmaReader.consumeChar ',' (trimStart r₄)).2
              (insertKey map (String.ofList key) value) (by omega)
            exact ⟨h.1, fun a r' hx => (h.2 a r' hx).trans (by omega)⟩
          · rcases expectChar_cases '}' (GemmaReader.consumeChar ',' (trimStart r₄)).2 with
              ⟨r₅, hr₅, h⟩ | ⟨e, h⟩
            · rw [h]
              have hlen₅ := congrArg List.length hr₅
              rw [List.length_cons] at hlen₅
              exact shortens_ok (by omega)
            · rw [h]
              exact shortens_error e
        · rw [h]
          exact shortens_error e
    · have hle := length_trimStart_le r
      have hclose := length_consumeChar_le ']' (trimStart r)
      rw [GemmaReader.readValues]
      dsimp only
      split
      · next hclosed => exact shortens_ok ((length_consumeChar_lt hclosed).trans_le hle)
      · refine shortens_bind (ihValue _ (by omega)) fun value r₄ hr₄ => ?_
        have hle₄ := length_trimStart_le r₄
        have hmore := length_consumeChar_le ',' (trimStart r₄)
        dsimp only
        split
        · have h := ihValues (GemmaReader.consumeChar ',' (trimStart r₄)).2 (values ++ [value])
            (by omega)
          exact ⟨h.1, fun a r' hx => (h.2 a r' hx).trans (by omega)⟩
        · rcases expectChar_cases ']' (GemmaReader.consumeChar ',' (trimStart r₄)).2 with
            ⟨r₅, hr₅, h⟩ | ⟨e, h⟩
          · rw [h]
            have hlen₅ := congrArg List.length hr₅
            rw [List.length_cons] at hlen₅
            exact shortens_ok (by omega)
          · rw [h]
            exact shortens_error e

theorem returns_parseArguments (input : Str) :
    Returns (GemmaArgumentParser.parseComplete E input) := by
  rw [parseComplete_eq, GemmaReader.readComplete]
  have h := (read_shortens E (2 * input.length + 2)).1 input (by omega)
  refine returns_bind h.1 fun a _ => ?_
  dsimp only
  split
  · exact returns_error _
  · exact returns_pure _

end Shortens

end KirAi.ToolParser
