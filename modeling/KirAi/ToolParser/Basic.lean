/-
# Parsing assistant output

What the parsers of `llm-tool-parser` share: their errors (`types.rs`), the string
operations of the standard library they use, and the loop that reads the blocks between a
start and an end tag, which the parsers of Qwen, DeepSeek and Gemma write out each for
itself (`parseBlocks`).

A parser answers, fails with a `ParserError`, or panics: a slice of a string panics if its
ends are not character boundaries in order. `Returns` says that it does not panic. A loop
is given fuel, and that it never runs out is part of `Returns`.

The first occurrence of a tag cuts a text in two; in these terms the loop over the blocks
takes no slice that could fail (`parseBlocks_step`), and what it answers is what the blocks
of the text (`blocksOf`) answer one after another (`parseBlocks_eq`).

Key definitions:
* `ParserError`, `Failure`, `Parse`, `Env`, `Returns`
* `parseBlocks`, `blocksOf`, `parseEach`

Key theorems:
* `parseBlocks_eq`
-/
import KirAi.Lib.Bytes
import KirAi.Lib.Except
import KirAi.Lib.Json
import KirAi.Runtime.Assistant

namespace KirAi.ToolParser

open Lib Lib.Text
open KirAi.Runtime (Str ToolCall ToolCallFunction ParsedAssistant isWhitespace trim trimStart)

inductive ParserErrorCode
  | malformedToolCall
  | unsupportedMultimodalOutput
deriving DecidableEq, Repr

structure ParserError where
  code : ParserErrorCode
  message : Str
deriving DecidableEq, Repr

/-- How a parser ends without an answer. -/
inductive Failure
  | error (e : ParserError)
  | panicked
  | outOfFuel
deriving DecidableEq, Repr

abbrev Parse (α : Type) := Except Failure α

def ParserError.malformedTool (message : Str) : ParserError := ⟨.malformedToolCall, message⟩

def malformedTool {α : Type} (message : String) : Parse α :=
  .error (.error (.malformedTool message.toList))

/-- What the parsers call in other crates: `serde_json::from_str` for a value and for a
string, with the text of the error, and the id generated for a call. -/
structure Env where
  fromStr : Str → Except Str Json
  stringFromStr : Str → Except Str Str
  generatedToolCallId : ℕ → Str

/-- The answer of a parser is `Ok` or `Err`. -/
def Returns {α : Type} (r : Parse α) : Prop :=
  r ≠ .error .panicked ∧ r ≠ .error .outOfFuel

/-! ### Strings -/

/-- The slice `s[a..b]`. -/
def slice (s : Str) (a b : ℕ) : Parse Str :=
  match slice? s a b with
  | some m => .ok m
  | none => .error .panicked

/-- The slice `s[..b]`. -/
def sliceTo (s : Str) (b : ℕ) : Parse Str := slice s 0 b

/-- The slice `s[a..]`. -/
def sliceFrom (s : Str) (a : ℕ) : Parse Str := slice s a (len s)

def contains (s p : Str) : Bool := (find p s).isSome

def startsWith (s p : Str) : Bool := p.isPrefixOf s

def stripPrefix (s p : Str) : Option Str := if p.isPrefixOf s then some (s.drop p.length) else none

def stripSuffix (s p : Str) : Option Str :=
  if p.isSuffixOf s then some (s.take (s.length - p.length)) else none

def trimEnd (s : Str) : Str := (s.reverse.dropWhile isWhitespace).reverse

/-- The text before the first of some control tokens. -/
def trimAfterStopControl (tokens : List Str) (text : Str) : Parse Str :=
  match (tokens.filterMap (find · text)).min? with
  | none => .ok text
  | some index => sliceTo text index

theorem startsWith_iff {s p : Str} : startsWith s p = true ↔ p <+: s :=
  List.isPrefixOf_iff_prefix

theorem stripPrefix_append (p v : Str) : stripPrefix (p ++ v) p = some v := by
  rw [stripPrefix, if_pos (List.isPrefixOf_iff_prefix.2 (List.prefix_append p v)), List.drop_left]

theorem stripPrefix_eq_none {s p : Str} (h : startsWith s p = false) : stripPrefix s p = none := by
  unfold startsWith at h
  rw [stripPrefix, h, if_neg Bool.false_ne_true]

theorem slice_append (u m v : Str) : slice (u ++ m ++ v) (len u) (len u + len m) = .ok m := by
  rw [slice, slice?_append]

/-- The slice of a text that is known in three parts. -/
theorem slice_eq {s : Str} {a b : ℕ} (u m v : Str) (hs : s = u ++ m ++ v) (ha : a = len u)
    (hb : b = len u + len m) : slice s a b = .ok m := by
  rw [hs, ha, hb, slice_append]

theorem sliceTo_append (u v : Str) : sliceTo (u ++ v) (len u) = .ok u := by
  have h := slice_append [] u v
  simpa [sliceTo] using h

theorem sliceFrom_append (u v : Str) : sliceFrom (u ++ v) (len u) = .ok v := by
  have h := slice_append u v []
  simpa [sliceFrom] using h

theorem sliceFrom_eq {s : Str} {a : ℕ} (u v : Str) (hs : s = u ++ v) (ha : a = len u) :
    sliceFrom s a = .ok v := by
  rw [hs, ha, sliceFrom_append]

/-- The slices around the first occurrence of a tag. -/
theorem slices_of_find {s p : Str} {i : ℕ} (h : find p s = some i) :
    ∃ u v, s = u ++ p ++ v ∧ len u = i ∧ cut p s = some (u, v) ∧ sliceTo s i = .ok u ∧
      sliceFrom s (i + len p) = .ok v := by
  obtain ⟨u, v, rfl, rfl, hcut⟩ := exists_cut h
  refine ⟨u, v, rfl, rfl, hcut, ?_, ?_⟩
  · rw [List.append_assoc, sliceTo_append]
  · rw [← len_append, sliceFrom_append]

/-- The slices around the first occurrence of a second tag, after a first one. -/
theorem slices_of_find_after {u p v q : Str} {j : ℕ} (h : find q v = some j) :
    ∃ m w, v = m ++ q ++ w ∧ len m = j ∧ cut q v = some (m, w) ∧
      slice (u ++ p ++ v) (len u + len p) (len u + len p + j) = .ok m ∧
      sliceFrom (u ++ p ++ v) (len u + len p + j + len q) = .ok w := by
  obtain ⟨m, w, rfl, rfl, hcut⟩ := exists_cut h
  refine ⟨m, w, rfl, rfl, hcut, ?_, ?_⟩
  · exact slice_eq (u ++ p) m (q ++ w) (by simp) (len_append _ _).symm (by simp only [len_append])
  · exact sliceFrom_eq (u ++ p ++ m ++ q) w (by simp) (by simp only [len_append])

/-! ### Results that return -/

section Returns

variable {α β : Type}

@[simp] theorem returns_ok (a : α) : Returns (.ok a : Parse α) := ⟨nofun, nofun⟩

@[simp] theorem returns_pure (a : α) : Returns (pure a : Parse α) := returns_ok a

@[simp] theorem returns_error (e : ParserError) : Returns (.error (.error e) : Parse α) :=
  ⟨nofun, nofun⟩

@[simp] theorem returns_malformedTool (message : String) :
    Returns (malformedTool message : Parse α) := returns_error _

@[simp] theorem not_returns_panicked : ¬Returns (.error .panicked : Parse α) := fun h => h.1 rfl

/-- A sequence returns just if its first part does, and the rest does after an answer. -/
theorem returns_bind_iff {x : Parse α} {f : α → Parse β} :
    Returns (x >>= f) ↔ Returns x ∧ ∀ a, x = .ok a → Returns (f a) := by
  rcases x with e | a
  · have hbind : ((.error e : Parse α) >>= f) = .error e := rfl
    have herr : Returns (.error e : Parse β) ↔ Returns (.error e : Parse α) := by
      simp [Returns]
    rw [hbind, herr]
    exact ⟨fun h => ⟨h, nofun⟩, fun h => h.1⟩
  · rw [ok_bind]
    exact ⟨fun h => ⟨returns_ok a, fun b hb => Except.ok.inj hb ▸ h⟩, fun h => h.2 a rfl⟩

theorem returns_bind {x : Parse α} {f : α → Parse β} (hx : Returns x)
    (hf : ∀ a, x = .ok a → Returns (f a)) : Returns (x >>= f) :=
  returns_bind_iff.2 ⟨hx, hf⟩

end Returns

/-- The text before the first of some control tokens, without slices. -/
def beforeStopControl (tokens : List Str) (text : Str) : Str :=
  takeTo text (((tokens.filterMap (find · text)).min?).getD (len text))

/-- Cutting a text at the first control token takes no slice that could fail. -/
theorem trimAfterStopControl_eq (tokens : List Str) (text : Str) :
    trimAfterStopControl tokens text = .ok (beforeStopControl tokens text) := by
  unfold trimAfterStopControl beforeStopControl
  cases h : (tokens.filterMap (find · text)).min? with
  | none => rw [Option.getD_none, takeTo_len]
  | some index =>
    obtain ⟨token, -, hfind⟩ := List.mem_filterMap.1 (List.min?_eq_some_iff.1 h).1
    obtain ⟨u, v, rfl, rfl, -⟩ := exists_cut hfind
    rw [List.append_assoc, Option.getD_some, takeTo_append]
    exact sliceTo_append u (token ++ v)

/-- A reader of compact JSON. -/
def compactEnv : Env where
  fromStr text :=
    match Json.parseValue 127 text with
    | some (value, []) => .ok value
    | _ => .error "not compact JSON".toList
  stringFromStr text :=
    match text with
    | '"' :: text =>
      match Json.parseString text with
      | some (s, []) => .ok s
      | _ => .error "not a JSON string".toList
    | _ => .error "not a JSON string".toList
  generatedToolCallId index := "call_".toList ++ Nat.toDigits 10 index

/-! ### Blocks between tags -/

section Blocks

variable (start stop : Str)

/-- The loop over the blocks between a start and an end tag: what stands between the
blocks is content, what stands in a block is read by `parseCall`. -/
def parseBlocks (unterminated : String) (parseCall : Str → ℕ → Parse (ToolCall Json)) :
    ℕ → Str → Str → List (ToolCall Json) → Parse (Str × List (ToolCall Json))
  | 0, _, _, _ => .error .outOfFuel
  | fuel + 1, rest, content, calls =>
    match find start rest with
    | none => .ok (content ++ rest, calls)
    | some startAt => do
      let before ← sliceTo rest startAt
      let innerStart := startAt + len start
      let tail ← sliceFrom rest innerStart
      match find stop tail with
      | none => malformedTool unterminated
      | some endRel => do
        let innerEnd := innerStart + endRel
        let inner ← slice rest innerStart innerEnd
        let call ← parseCall (trim inner) calls.length
        let rest ← sliceFrom rest (innerEnd + len stop)
        parseBlocks unterminated parseCall fuel rest (content ++ before) (calls ++ [call])

/-- The blocks of a text, each with the text in front of it, and the text after the last
one; there is none if a block is not terminated. -/
structure BlockList where
  blocks : List (Str × Str)
  tail : Option Str
deriving DecidableEq, Repr

def scanBlocks : ℕ → Str → BlockList
  | 0, rest => ⟨[], some rest⟩
  | fuel + 1, rest =>
    match cut start rest with
    | none => ⟨[], some rest⟩
    | some (before, after) =>
      match cut stop after with
      | none => ⟨[], none⟩
      | some (inner, rest) =>
        let found := scanBlocks fuel rest
        ⟨(before, inner) :: found.blocks, found.tail⟩

def blocksOf (rest : Str) : BlockList := scanBlocks start stop (rest.length + 1) rest

/-- The blocks read one after another. -/
def parseEach (parseCall : Str → ℕ → Parse (ToolCall Json)) :
    ℕ → List (Str × Str) → Parse (List (ToolCall Json))
  | _, [] => .ok []
  | index, (_, inner) :: blocks => do
    let call ← parseCall (trim inner) index
    let calls ← parseEach parseCall (index + 1) blocks
    return call :: calls

variable {start stop} {unterminated : String} {parseCall : Str → ℕ → Parse (ToolCall Json)}

/-- One round of the loop, by cuts. -/
theorem parseBlocks_step (fuel : ℕ) (rest content : Str) (calls : List (ToolCall Json)) :
    parseBlocks start stop unterminated parseCall (fuel + 1) rest content calls =
      match cut start rest with
      | none => .ok (content ++ rest, calls)
      | some (before, after) =>
        match cut stop after with
        | none => malformedTool unterminated
        | some (inner, rest) => (parseCall (trim inner) calls.length).bind fun call =>
          parseBlocks start stop unterminated parseCall fuel rest (content ++ before)
            (calls ++ [call]) := by
  rw [parseBlocks]
  cases hstart : find start rest with
  | none => rw [cut_eq_none_iff.2 hstart]
  | some i =>
    obtain ⟨before, after, rfl, rfl, hcut, hbefore, hafter⟩ := slices_of_find hstart
    simp only [hcut, hbefore, hafter, ok_bind]
    cases hstop : find stop after with
    | none => rw [cut_eq_none_iff.2 hstop]
    | some j =>
      obtain ⟨inner, rest', -, rfl, hcut', hinner, hrest⟩ :=
        slices_of_find_after (u := before) (p := start) hstop
      simp only [hcut', hinner, hrest, ok_bind]
      rfl

theorem length_lt_of_cut {p s u v : Str} (hp : p ≠ []) (h : cut p s = some (u, v)) :
    v.length < s.length := by
  have hlen := congrArg List.length (cut_eq_some_iff.1 h).1
  have hpos := List.length_pos_of_ne_nil hp
  simp only [List.length_append] at hlen
  omega

/-- The blocks do not depend on the fuel, if there is enough of it. -/
theorem scanBlocks_fuel (hstart : start ≠ []) (hstop : stop ≠ []) :
    ∀ {fuel fuel' : ℕ} {rest : Str}, rest.length < fuel → rest.length < fuel' →
      scanBlocks start stop fuel rest = scanBlocks start stop fuel' rest
  | fuel + 1, fuel' + 1, rest, h, h' => by
    rw [scanBlocks, scanBlocks]
    cases hcut : cut start rest with
    | none => rfl
    | some r =>
      obtain ⟨before, after⟩ := r
      have hlt := length_lt_of_cut hstart hcut
      cases hcut' : cut stop after with
      | none => simp only [hcut']
      | some r' =>
        obtain ⟨inner, rest'⟩ := r'
        have hlt' := length_lt_of_cut hstop hcut'
        have ih : scanBlocks start stop fuel rest' = scanBlocks start stop fuel' rest' :=
          scanBlocks_fuel hstart hstop (by omega) (by omega)
        simp only [hcut', ih]

theorem blocksOf_eq (hstart : start ≠ []) (hstop : stop ≠ []) (rest : Str) :
    blocksOf start stop rest =
      match cut start rest with
      | none => ⟨[], some rest⟩
      | some (before, after) =>
        match cut stop after with
        | none => ⟨[], none⟩
        | some (inner, rest) =>
          ⟨(before, inner) :: (blocksOf start stop rest).blocks, (blocksOf start stop rest).tail⟩ := by
  rw [blocksOf, scanBlocks]
  cases hcut : cut start rest with
  | none => rfl
  | some r =>
    obtain ⟨before, after⟩ := r
    have hlt := length_lt_of_cut hstart hcut
    cases hcut' : cut stop after with
    | none => simp only [hcut']
    | some r' =>
      obtain ⟨inner, rest'⟩ := r'
      have hlt' := length_lt_of_cut hstop hcut'
      simp only [hcut']
      rw [scanBlocks_fuel hstart hstop (by omega) (Nat.lt_succ_self rest'.length)]
      rfl

/-- The loop answers what the blocks answer one after another. -/
theorem parseBlocks_eq (hstart : start ≠ []) (hstop : stop ≠ []) :
    ∀ {fuel : ℕ} {rest content : Str} {calls : List (ToolCall Json)}, rest.length < fuel →
      parseBlocks start stop unterminated parseCall fuel rest content calls =
        (parseEach parseCall calls.length (blocksOf start stop rest).blocks).bind fun found =>
          match (blocksOf start stop rest).tail with
          | none => malformedTool unterminated
          | some tail =>
            .ok (content ++ ((blocksOf start stop rest).blocks.flatMap (·.1)) ++ tail,
              calls ++ found)
  | fuel + 1, rest, content, calls, hfuel => by
    rw [parseBlocks_step, blocksOf_eq hstart hstop]
    cases hcut : cut start rest with
    | none => simp [parseEach, Except.bind]
    | some r =>
      obtain ⟨before, after⟩ := r
      have hlt := length_lt_of_cut hstart hcut
      cases hcut' : cut stop after with
      | none => simp [hcut', parseEach, Except.bind]
      | some r' =>
        obtain ⟨inner, rest'⟩ := r'
        have hlt' := length_lt_of_cut hstop hcut'
        simp only [hcut', parseEach]
        cases hcall : parseCall (trim inner) calls.length with
        | error e => rfl
        | ok call =>
          have hfuel' : rest'.length < fuel := by omega
          simp only [Except.bind, ok_bind]
          rw [parseBlocks_eq hstart hstop hfuel']
          simp only [List.length_append, List.length_singleton, List.flatMap_cons]
          cases parseEach parseCall (calls.length + 1) (blocksOf start stop rest').blocks with
          | error e => rfl
          | ok found =>
            cases (blocksOf start stop rest').tail with
            | none => rfl
            | some tail => simp [Except.bind, bind, pure, Except.pure]

end Blocks

end KirAi.ToolParser
