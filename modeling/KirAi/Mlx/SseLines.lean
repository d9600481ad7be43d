/-
# The lines of an event stream

`llm-engine`, `mlx/sse.rs`: `MlxSseParser` is given the body of a response in fragments, takes
the lines out of it that have ended and reads what the `data:` lines say; `finish` flushes the
rest. What it does with the data of a line (JSON, the stop filter, the tool parsers) and what
is left for the end are parameters here (`Completions`): the framing does not depend on them.

However the body is cut, the lines that are parsed are those that end, in their order
(`seen_run`). The end is another matter: `finish` asks for the `[DONE]` event before it looks at
a last line that has no newline, so such a line only counts when the event came before it
(`readsLines_iff`).

The parser here also keeps the lines it parsed, which nothing reads.

Key definitions: `MlxSseParser`, `run`, `sseLines`, `ReadsLines`.
Key theorems: `seen_run`, `readsLines_iff`.
-/
import KirAi.Lib.Lines
import KirAi.Mlx.QwenXml

namespace KirAi.Mlx

open Lib Lib.Text Lib.Lines
open KirAi.Runtime (Str)
open KirAi.ToolParser (startsWith)

inductive MlxSseError
  | endedBeforeDone
  | completion (err : BackendError)
deriving DecidableEq, Repr

def MlxSseError.backendError : MlxSseError → BackendError
  | .endedBeforeDone => .other "MLX SSE completion ended before data: [DONE]".toList
  | .completion err => err

/-- What the parser does with the data of a line, and at the end with what it kept back. -/
structure Completions (σ χ : Type) where
  parseCompletion : σ → Str → Except BackendError (List χ) × σ
  flushCompletion : σ → Except BackendError (List χ) × σ

structure MlxSseParser (σ : Type) where
  sawDone : Bool := false
  lineBuffer : Str := []
  completion : σ
  parsedLines : List Str := []
deriving DecidableEq, Repr

/-- The chunks of a call that may fail, and the parser after it. -/
abbrev Emits (σ χ : Type) := Except MlxSseError (List χ) × MlxSseParser σ

variable {σ χ : Type}

/-- A call and, if it did not fail, the next one: `chunks.extend(call()?)`. -/
def Emits.andThen (r : Emits σ χ) (next : MlxSseParser σ → Emits σ χ) : Emits σ χ :=
  match r with
  | (.error e, p) => (.error e, p)
  | (.ok chunks, p) => ((next p).1.map (chunks ++ ·), (next p).2)

/-- The line without a carriage return at its end. -/
def stripCarriageReturn (line : Str) : Str :=
  if line.getLast? = some '\r' then line.dropLast else line

/-- `trim_end_matches('\r')`. -/
def trimEndCarriageReturns (line : Str) : Str := (line.reverse.dropWhile (· == '\r')).reverse

def stripPrefix (start line : Str) : Option Str :=
  if startsWith line start then some (line.drop start.length) else none

def mlxSseData (line : Str) : Option Str :=
  (stripPrefix "data:".toList line).map fun data => (stripPrefix [' '] data).getD data

/-- The line is the event that ends the stream. -/
def isDone (line : Str) : Bool := mlxSseData line == some "[DONE]".toList

namespace MlxSseParser

def new (completion : σ) : MlxSseParser σ := { completion }

variable (C : Completions σ χ) (p : MlxSseParser σ)

def parseLine (line : Str) : Emits σ χ :=
  let p := { p with parsedLines := p.parsedLines ++ [line] }
  match mlxSseData line with
  | none => (.ok [], p)
  | some data =>
    if data = "[DONE]".toList then (.ok [], { p with sawDone := true })
    else
      let (chunks, completion) := C.parseCompletion p.completion data
      (chunks.mapError .completion, { p with completion })

/-- The loop of `push_str`: each round takes a line, so the buffer bounds the rounds. -/
def parseBuffered : ℕ → MlxSseParser σ → Emits σ χ
  | 0, p => (.ok [], p)
  | rounds + 1, p =>
    match cut ['\n'] p.lineBuffer with
    | none => (.ok [], p)
    | some (line, rest) =>
      Emits.andThen (parseLine C { p with lineBuffer := rest } (stripCarriageReturn line))
        (parseBuffered rounds)

def pushStr (chunk : Str) : Emits σ χ :=
  let p := { p with lineBuffer := p.lineBuffer ++ chunk }
  p.parseBuffered C (p.lineBuffer.length + 1)

def flushCompletion : Emits σ χ :=
  let (chunks, completion) := C.flushCompletion p.completion
  (chunks.mapError .completion, { p with completion })

def flushPending : Emits σ χ :=
  if p.lineBuffer.isEmpty then p.flushCompletion C
  else
    Emits.andThen
      (parseLine C { p with lineBuffer := [] } (trimEndCarriageReturns p.lineBuffer))
      (flushCompletion C)

def finish : Emits σ χ :=
  if !p.sawDone then (.error .endedBeforeDone, p) else p.flushPending C

/-- The fragments one after the other, then the end; a failure ends it. -/
def run (p : MlxSseParser σ) : List Str → Emits σ χ
  | [] => p.finish C
  | text :: texts => Emits.andThen (p.pushStr C text) fun p => run p texts

/-! ### The lines -/

/-- One line after the other, until one fails. -/
def parseLines (p : MlxSseParser σ) : List Str → Emits σ χ
  | [] => (.ok [], p)
  | line :: lines => Emits.andThen (p.parseLine C line) fun p => parseLines p lines

/-- The lines of a stream that end. -/
def endedLines (text : Str) : List Str := (split '\n' text).1.map stripCarriageReturn

/-- The text after the last newline of a stream. -/
def openLine (text : Str) : Str := (split '\n' text).2

end MlxSseParser

open MlxSseParser

/-- The lines of a stream, each without its line end; the last may lack its newline. -/
def sseLines (text : Str) : List Str :=
  endedLines text ++ if (openLine text).isEmpty then [] else [stripCarriageReturn (openLine text)]

/-- A stream in fragments is read as its lines: they are what is parsed, as far as none fails,
and it is reported to have ended early just if no line fails and none is the `[DONE]` event. -/
structure ReadsLines (C : Completions σ χ) (completion : σ) (texts : List Str) : Prop where
  parsed : (run C (new completion) texts).2.parsedLines =
    (parseLines C (new completion) (sseLines texts.flatten)).2.parsedLines
  ended : (run C (new completion) texts).1 = .error .endedBeforeDone ↔
    (parseLines C (new completion) (sseLines texts.flatten)).1.isOk = true ∧
      ∀ line ∈ sseLines texts.flatten, isDone line = false

/-! ### What one call leaves -/

namespace Emits

variable {r : Emits σ χ} {k k' : MlxSseParser σ → Emits σ χ}

/-- What a caller sees of a call, and the lines that were parsed. -/
def seen (r : Emits σ χ) : Except MlxSseError (List χ) × List Str := (r.1, r.2.parsedLines)

theorem andThen_error {e : MlxSseError} (h : r.1 = .error e) : r.andThen k = (.error e, r.2) := by
  obtain ⟨result, p⟩ := r
  cases h
  rfl

theorem andThen_ok {chunks : List χ} (h : r.1 = .ok chunks) :
    r.andThen k = ((k r.2).1.map (chunks ++ ·), (k r.2).2) := by
  obtain ⟨result, p⟩ := r
  cases h
  rfl

theorem map_append_map (x : Except MlxSseError (List χ)) (a b : List χ) :
    (x.map (b ++ ·)).map (a ++ ·) = x.map ((a ++ b) ++ ·) := by
  cases x with
  | error e => rfl
  | ok c => exact congrArg Except.ok (List.append_assoc a b c).symm

theorem map_nil_append (x : Except MlxSseError (List χ)) : x.map (([] : List χ) ++ ·) = x := by
  cases x <;> rfl

theorem map_eq_error {x : Except MlxSseError (List χ)} {a : List χ} {e : MlxSseError}
    (h : x.map (a ++ ·) = .error e) : x = .error e := by
  cases x with
  | error e' => exact congrArg Except.error (Except.error.inj h)
  | ok c => cases h

theorem andThen_assoc : (r.andThen k).andThen k' = r.andThen fun p => (k p).andThen k' := by
  cases hr : r.1 with
  | error e =>
    rw [andThen_error hr, andThen_error hr]
    rfl
  | ok a =>
    rw [andThen_ok hr, andThen_ok hr]
    cases hk : (k r.2).1 with
    | error e =>
      rw [@andThen_error σ χ _ _ e (by rw [Except.map]), andThen_error hk]
      rfl
    | ok b =>
      rw [@andThen_ok σ χ _ _ (a ++ b) (by rw [Except.map]), andThen_ok hk, map_append_map]

theorem seen_map {r' : Emits σ χ} (h : r.seen = r'.seen) (chunks : List χ) :
    seen (r.1.map (chunks ++ ·), r.2) = seen (r'.1.map (chunks ++ ·), r'.2) := by
  obtain ⟨hresult, hlines⟩ := Prod.mk.inj h
  simp only [seen, hresult, hlines]

theorem seen_andThen (h : ∀ chunks, r.1 = .ok chunks → (k r.2).seen = (k' r.2).seen) :
    (r.andThen k).seen = (r.andThen k').seen := by
  cases hr : r.1 with
  | error e => rw [andThen_error hr, andThen_error hr]
  | ok chunks =>
    rw [andThen_ok hr, andThen_ok hr]
    exact seen_map (h chunks hr) chunks

end Emits

namespace MlxSseParser

variable {C : Completions σ χ} {p q : MlxSseParser σ}

/-- The parser with another buffer. -/
def setBuffer (p : MlxSseParser σ) (buffer : Str) : MlxSseParser σ := { p with lineBuffer := buffer }

@[simp] theorem setBuffer_parsedLines (buffer : Str) :
    (p.setBuffer buffer).parsedLines = p.parsedLines := rfl

@[simp] theorem setBuffer_sawDone (buffer : Str) : (p.setBuffer buffer).sawDone = p.sawDone := rfl

@[simp] theorem setBuffer_lineBuffer (buffer : Str) : (p.setBuffer buffer).lineBuffer = buffer := rfl

@[simp] theorem setBuffer_setBuffer (a b : Str) : (p.setBuffer a).setBuffer b = p.setBuffer b := rfl

theorem seen_andThen_setBuffer (r : Emits σ χ) (k : MlxSseParser σ → Emits σ χ) (buffer : Str) :
    (Emits.andThen (r.1, r.2.setBuffer buffer) k).seen =
      (r.andThen fun q => k (q.setBuffer buffer)).seen := by
  obtain ⟨result, q⟩ := r
  cases result <;> rfl

theorem parseLine_setBuffer (buffer line : Str) :
    (p.setBuffer buffer).parseLine C line =
      ((p.parseLine C line).1, (p.parseLine C line).2.setBuffer buffer) := by
  unfold parseLine
  cases mlxSseData line with
  | none => rfl
  | some data =>
    by_cases hdone : data = "[DONE]".toList
    · simp only [hdone, if_true]
      rfl
    · simp only [hdone, if_false]
      rfl

theorem parseLines_setBuffer (buffer : Str) : ∀ {p : MlxSseParser σ} (lines : List Str),
    (p.setBuffer buffer).parseLines C lines =
      ((p.parseLines C lines).1, (p.parseLines C lines).2.setBuffer buffer)
  | p, [] => rfl
  | p, line :: lines => by
    rw [parseLines, parseLines, parseLine_setBuffer]
    cases hline : (p.parseLine C line).1 with
    | error e => rw [Emits.andThen_error hline, Emits.andThen_error rfl]
    | ok chunks =>
      rw [Emits.andThen_ok hline, Emits.andThen_ok rfl, parseLines_setBuffer buffer lines]

theorem parseLines_append : ∀ {p : MlxSseParser σ} (ls ms : List Str),
    p.parseLines C (ls ++ ms) = (p.parseLines C ls).andThen fun q => q.parseLines C ms
  | p, [], ms => by
    rw [List.nil_append, parseLines, Emits.andThen_ok rfl, Emits.map_nil_append]
  | p, line :: ls, ms => by
    rw [List.cons_append, parseLines, parseLines, Emits.andThen_assoc]
    congr 1
    exact funext fun q => parseLines_append ls ms

theorem completion_ne_ended (x : Except BackendError (List χ)) :
    x.mapError MlxSseError.completion ≠ .error .endedBeforeDone := by
  cases x with
  | error e => exact fun h => nomatch Except.error.inj h
  | ok chunks => exact fun h => nomatch h

/-- A line is parsed whatever comes of it, and is the event or leaves what was seen. -/
theorem parseLine_spec (line : Str) :
    (p.parseLine C line).2.parsedLines = p.parsedLines ++ [line] ∧
      (p.parseLine C line).2.sawDone = (p.sawDone || isDone line) ∧
      (p.parseLine C line).1 ≠ .error .endedBeforeDone := by
  unfold parseLine isDone
  cases hdata : mlxSseData line with
  | none => simp
  | some data =>
    by_cases hdone : data = "[DONE]".toList
    · simp [hdone]
    · have hbeq : (some data == some "[DONE]".toList) = false := by simpa using hdone
      simp only [hdone, if_false, hbeq, Bool.or_false, true_and]
      exact completion_ne_ended _

/-- What is parsed of some lines, if none of them fails. -/
theorem parseLines_spec : ∀ {p : MlxSseParser σ} (lines : List Str),
    (p.parseLines C lines).1 ≠ .error .endedBeforeDone ∧
      ((p.parseLines C lines).1.isOk = true →
        (p.parseLines C lines).2.parsedLines = p.parsedLines ++ lines ∧
        (p.parseLines C lines).2.sawDone = (p.sawDone || lines.any isDone))
  | p, [] => ⟨fun h => (by cases h), fun _ => ⟨by simp [parseLines], by simp [parseLines]⟩⟩
  | p, line :: lines => by
    obtain ⟨hparsed, hdone, hended⟩ := parseLine_spec (C := C) (p := p) line
    obtain ⟨ihended, ih⟩ := parseLines_spec (p := (p.parseLine C line).2) lines
    rw [parseLines]
    cases hline : (p.parseLine C line).1 with
    | error e =>
      rw [Emits.andThen_error hline]
      rw [hline] at hended
      exact ⟨hended, fun h => (by cases h)⟩
    | ok chunks =>
      rw [Emits.andThen_ok hline]
      cases hrest : (((p.parseLine C line).2).parseLines C lines).1 with
      | error e =>
        rw [hrest] at ihended
        exact ⟨fun h => ihended (Emits.map_eq_error (a := chunks) h), fun h => (by cases h)⟩
      | ok more =>
        obtain ⟨ihparsed, ihdone⟩ := ih (by rw [hrest]; rfl)
        refine ⟨fun h => (by cases h), fun _ => ⟨?_, ?_⟩⟩
        · rw [ihparsed, hparsed, List.append_assoc, List.singleton_append]
        · rw [ihdone, hdone, List.any_cons, Bool.or_assoc]

/-! ### The fragments -/

/-- The rounds of the loop parse the lines that have ended. -/
theorem seen_parseBuffered : ∀ {rounds : ℕ} {p : MlxSseParser σ} (k : MlxSseParser σ → Emits σ χ),
    p.lineBuffer.length < rounds →
    ((p.parseBuffered C rounds).andThen k).seen =
      ((p.parseLines C (endedLines p.lineBuffer)).andThen
        fun q => k (q.setBuffer (openLine p.lineBuffer))).seen
  | 0, _, _, h => absurd h (Nat.not_lt_zero _)
  | rounds + 1, p, k, h => by
    rw [parseBuffered]
    cases hcut : cut ['\n'] p.lineBuffer with
    | none =>
      have hfree : '\n' ∉ p.lineBuffer := by
        rw [cut_eq_none_iff, find_eq_none_iff_infix, List.singleton_infix_iff] at hcut
        exact hcut
      rw [endedLines, openLine, split_free hfree]
      rfl
    | some parts =>
      obtain ⟨line, rest⟩ := parts
      obtain ⟨hbuffer, hfind⟩ := cut_eq_some_iff.1 hcut
      have hline : '\n' ∉ line := by
        rw [hbuffer] at hfind
        exact find_singleton_append_iff.1 hfind
      have hlt : rest.length < rounds := by
        rw [hbuffer] at h
        simp only [List.length_append, List.length_cons, List.length_nil] at h
        omega
      have hsplit : split '\n' p.lineBuffer = (line :: (split '\n' rest).1, (split '\n' rest).2) := by
        rw [hbuffer, List.append_assoc, List.singleton_append]
        exact split_line rest hline
      have hended : endedLines p.lineBuffer = stripCarriageReturn line :: endedLines rest := by
        rw [endedLines, hsplit, List.map_cons, endedLines]
      have hopen : openLine p.lineBuffer = openLine rest := by
        rw [openLine, hsplit, openLine]
      have hset : { p with lineBuffer := rest } = p.setBuffer rest := rfl
      dsimp only
      rw [hended, hopen, hset, parseLines, Emits.andThen_assoc, Emits.andThen_assoc,
        parseLine_setBuffer, seen_andThen_setBuffer]
      refine Emits.seen_andThen fun chunks _ => ?_
      rw [seen_parseBuffered k hlt, setBuffer_lineBuffer, parseLines_setBuffer,
        seen_andThen_setBuffer]
      rfl

theorem seen_pushStr (k : MlxSseParser σ → Emits σ χ) (text : Str) :
    ((p.pushStr C text).andThen k).seen =
      ((p.parseLines C (endedLines (p.lineBuffer ++ text))).andThen
        fun q => k (q.setBuffer (openLine (p.lineBuffer ++ text)))).seen := by
  have h := seen_parseBuffered (C := C) (p := p.setBuffer (p.lineBuffer ++ text)) k
    (Nat.lt_succ_self _)
  rw [setBuffer_lineBuffer, parseLines_setBuffer, seen_andThen_setBuffer] at h
  exact h

theorem endedLines_append (s t : Str) :
    endedLines (s ++ t) = endedLines s ++ endedLines (openLine s ++ t) := by
  rw [endedLines, endedLines, endedLines, openLine, split_append, List.map_append]

theorem openLine_append (s t : Str) : openLine (s ++ t) = openLine (openLine s ++ t) := by
  rw [openLine, openLine, openLine, split_append]

theorem endedLines_openLine (s : Str) : endedLines (openLine s) = [] := by
  have h := endedLines_append s []
  rw [List.append_nil, List.append_nil] at h
  exact List.self_eq_append_right.1 h

theorem openLine_openLine (s : Str) : openLine (openLine s) = openLine s := by
  have h := openLine_append s []
  rw [List.append_nil, List.append_nil] at h
  exact h.symm

/-- **A run parses the lines that end, however they were cut**, and then finishes with what
stands after them. -/
theorem seen_run : ∀ {p : MlxSseParser σ} (texts : List Str), openLine p.lineBuffer = p.lineBuffer →
    (p.run C texts).seen =
      ((p.parseLines C (endedLines (p.lineBuffer ++ texts.flatten))).andThen fun q =>
        (q.setBuffer (openLine (p.lineBuffer ++ texts.flatten))).finish C).seen
  | p, [], hp => by
    have hended : endedLines p.lineBuffer = [] := by
      rw [← hp]
      exact endedLines_openLine p.lineBuffer
    rw [List.flatten_nil, List.append_nil, hended, hp, parseLines, Emits.andThen_ok rfl,
      Emits.map_nil_append]
    rfl
  | p, text :: texts, _ => by
    have hended : endedLines (p.lineBuffer ++ (text ++ texts.flatten)) =
        endedLines (p.lineBuffer ++ text) ++
          endedLines (openLine (p.lineBuffer ++ text) ++ texts.flatten) := by
      rw [← List.append_assoc]
      exact endedLines_append (p.lineBuffer ++ text) texts.flatten
    have hopen : openLine (p.lineBuffer ++ (text ++ texts.flatten)) =
        openLine (openLine (p.lineBuffer ++ text) ++ texts.flatten) := by
      rw [← List.append_assoc]
      exact openLine_append (p.lineBuffer ++ text) texts.flatten
    rw [run, seen_pushStr, List.flatten_cons, hended, hopen, parseLines_append,
      Emits.andThen_assoc]
    refine Emits.seen_andThen fun chunks _ => ?_
    rw [seen_run texts (openLine_openLine _), setBuffer_lineBuffer, parseLines_setBuffer,
      seen_andThen_setBuffer]
    rfl

/-! ### The end -/

theorem flushCompletion_spec (p : MlxSseParser σ) :
    (p.flushCompletion C).1 ≠ .error .endedBeforeDone ∧
      (p.flushCompletion C).2.parsedLines = p.parsedLines := by
  exact ⟨completion_ne_ended _, rfl⟩

theorem finish_not_done (h : p.sawDone = false) : p.finish C = (.error .endedBeforeDone, p) := by
  rw [finish, h]
  rfl

/-- After the event, what stands in the buffer is parsed as a line. -/
theorem finish_done (h : p.sawDone = true) :
    (p.finish C).1 ≠ .error .endedBeforeDone ∧
      (p.finish C).2.parsedLines = p.parsedLines ++
        if p.lineBuffer.isEmpty then [] else [trimEndCarriageReturns p.lineBuffer] := by
  rw [finish, h, Bool.not_true, if_neg (by decide), flushPending]
  by_cases hempty : p.lineBuffer.isEmpty = true
  · rw [if_pos hempty, if_pos hempty, List.append_nil]
    exact flushCompletion_spec p
  · rw [if_neg hempty, if_neg hempty]
    obtain ⟨hparsed, -, hended⟩ := parseLine_spec (C := C) (p := { p with lineBuffer := [] })
      (trimEndCarriageReturns p.lineBuffer)
    generalize parseLine C { p with lineBuffer := [] } (trimEndCarriageReturns p.lineBuffer) = r at *
    cases hr : r.1 with
    | error e =>
      rw [Emits.andThen_error hr]
      rw [hr] at hended
      exact ⟨hended, hparsed⟩
    | ok chunks =>
      rw [Emits.andThen_ok hr]
      obtain ⟨hflush, hsame⟩ := flushCompletion_spec (C := C) r.2
      exact ⟨fun h => hflush (Emits.map_eq_error h), hsame.trans hparsed⟩

theorem trimEnd_eq_strip_iff (line : Str) :
    trimEndCarriageReturns line = stripCarriageReturn line ↔ ¬['\r', '\r'] <:+ line := by
  obtain ⟨l, rfl⟩ : ∃ l : Str, line = l.reverse := ⟨line.reverse, line.reverse_reverse.symm⟩
  rw [trimEndCarriageReturns, stripCarriageReturn, List.reverse_reverse, List.getLast?_reverse,
    List.dropLast_reverse]
  have hsuffix : ['\r', '\r'] <:+ l.reverse ↔ ['\r', '\r'] <+: l := by
    rw [← List.reverse_prefix, List.reverse_reverse]
    rfl
  rw [hsuffix]
  cases l with
  | nil => simp
  | cons a l =>
    by_cases ha : a = '\r'
    · subst ha
      rw [List.head?_cons, if_pos rfl, List.tail_cons, List.reverse_inj,
        List.cons_prefix_cons, List.dropWhile_cons_of_pos (by rfl)]
      cases l with
      | nil => simp
      | cons b l =>
        by_cases hb : b = '\r'
        · subst hb
          have hshort := (List.dropWhile_suffix (l := l) (· == '\r')).length_le
          rw [List.dropWhile_cons_of_pos (by rfl)]
          simp only [List.cons_prefix_cons, List.nil_prefix, and_self, not_true, iff_false]
          intro heq
          have hlen := congrArg List.length heq
          rw [List.length_cons] at hlen
          omega
        · have hbeq : ¬(b == '\r') = true := by simpa using hb
          rw [List.dropWhile_cons_of_neg (p := (· == '\r')) hbeq]
          simp [hb, eq_comm]
    · have hbeq : ¬(a == '\r') = true := by simpa using ha
      rw [List.dropWhile_cons_of_neg (p := (· == '\r')) hbeq, List.head?_cons, if_neg (by simpa using ha)]
      simp [ha, eq_comm]

/-- The end of the stream is known when its last line is looked at: it has a newline, a line
has failed, or the event was before it and it ends in one carriage return at most. -/
def EndKnown (C : Completions σ χ) (completion : σ) (text : Str) : Prop :=
  openLine text = [] ∨
    (parseLines C (new completion) (endedLines text)).1.isOk = false ∨
    (∃ line ∈ endedLines text, isDone line = true) ∧ ¬['\r', '\r'] <:+ openLine text

end MlxSseParser

open MlxSseParser

section Ends

variable {C : Completions σ χ} {completion : σ} {texts : List Str}

theorem seen_run_new (C : Completions σ χ) (completion : σ) (texts : List Str) :
    (run C (new completion) texts).seen =
      ((parseLines C (new completion) (endedLines texts.flatten)).andThen fun q =>
        (q.setBuffer (openLine texts.flatten)).finish C).seen := seen_run texts rfl

/-- Nothing stands after a line that fails. -/
theorem readsLines_of_failure {e : MlxSseError}
    (h : (parseLines C (new completion) (endedLines texts.flatten)).1 = .error e) :
    ReadsLines C completion texts := by
  have hne := (parseLines_spec (C := C) (p := new completion) (endedLines texts.flatten)).1
  obtain ⟨hresult, hparsed⟩ := Prod.mk.inj (seen_run_new C completion texts)
  rw [Emits.andThen_error h] at hresult hparsed
  rw [h] at hne
  constructor
  · rw [sseLines, parseLines_append, Emits.andThen_error h]
    exact hparsed
  · rw [hresult, sseLines, parseLines_append, Emits.andThen_error h]
    exact ⟨fun heq => absurd heq hne, fun hok => nomatch hok.1⟩

variable {chunks : List χ}

/-- Without the event, nothing is parsed that has no newline. -/
theorem run_of_not_done
    (hok : (parseLines C (new completion) (endedLines texts.flatten)).1 = .ok chunks)
    (hdone : (endedLines texts.flatten).any isDone = false) :
    (run C (new completion) texts).1 = .error .endedBeforeDone ∧
      (run C (new completion) texts).2.parsedLines = endedLines texts.flatten := by
  obtain ⟨hparsed, hsaw⟩ :=
    (parseLines_spec (C := C) (p := new completion) (endedLines texts.flatten)).2 (by rw [hok]; rfl)
  obtain ⟨hresult, hlines⟩ := Prod.mk.inj (seen_run_new C completion texts)
  rw [Emits.andThen_ok hok] at hresult hlines
  rw [hdone, Bool.or_false] at hsaw
  rw [finish_not_done (by rw [setBuffer_sawDone, hsaw]; rfl)] at hresult hlines
  exact ⟨hresult, hlines.trans hparsed⟩

/-- With the event, the text after the last newline is parsed as well. -/
theorem run_of_done
    (hok : (parseLines C (new completion) (endedLines texts.flatten)).1 = .ok chunks)
    (hdone : (endedLines texts.flatten).any isDone = true) :
    (run C (new completion) texts).1 ≠ .error .endedBeforeDone ∧
      (run C (new completion) texts).2.parsedLines = endedLines texts.flatten ++
        if (openLine texts.flatten).isEmpty then []
        else [trimEndCarriageReturns (openLine texts.flatten)] := by
  obtain ⟨hparsed, hsaw⟩ :=
    (parseLines_spec (C := C) (p := new completion) (endedLines texts.flatten)).2 (by rw [hok]; rfl)
  obtain ⟨hresult, hlines⟩ := Prod.mk.inj (seen_run_new C completion texts)
  rw [Emits.andThen_ok hok] at hresult hlines
  rw [hdone, Bool.or_true] at hsaw
  obtain ⟨hended, hrest⟩ := finish_done (C := C)
    (p := (parseLines C (new completion) (endedLines texts.flatten)).2.setBuffer
      (openLine texts.flatten)) hsaw
  rw [hresult, hlines, hrest, setBuffer_parsedLines, hparsed]
  exact ⟨fun h => hended (Emits.map_eq_error h), rfl⟩

/-- All lines of a stream, if one of them lacks its newline. -/
theorem parseLines_sseLines
    (hok : (parseLines C (new completion) (endedLines texts.flatten)).1 = .ok chunks)
    (hopen : openLine texts.flatten ≠ []) :
    (parseLines C (new completion) (sseLines texts.flatten)).2.parsedLines =
      endedLines texts.flatten ++ [stripCarriageReturn (openLine texts.flatten)] := by
  obtain ⟨hparsed, -⟩ :=
    (parseLines_spec (C := C) (p := new completion) (endedLines texts.flatten)).2 (by rw [hok]; rfl)
  have hempty : ¬(openLine texts.flatten).isEmpty = true := by simpa using hopen
  rw [sseLines, if_neg hempty, parseLines_append, Emits.andThen_ok hok]
  generalize hq : (parseLines C (new completion) (endedLines texts.flatten)).2 = q at hparsed ⊢
  obtain ⟨hline, -, -⟩ := parseLine_spec (C := C) (p := q) (stripCarriageReturn (openLine texts.flatten))
  have hone : (parseLines C q [stripCarriageReturn (openLine texts.flatten)]).2.parsedLines =
      (parseLine C q (stripCarriageReturn (openLine texts.flatten))).2.parsedLines := by
    rw [parseLines]
    cases hr : (parseLine C q (stripCarriageReturn (openLine texts.flatten))).1 with
    | error e => rw [Emits.andThen_error hr]
    | ok more =>
      rw [Emits.andThen_ok hr]
      rfl
  rw [hone, hline, hparsed]
  rfl

theorem sseLines_of_ended (h : openLine texts.flatten = []) :
    sseLines texts.flatten = endedLines texts.flatten := by
  rw [sseLines, h, List.isEmpty_nil, if_pos rfl, List.append_nil]

theorem readsLines_of_ended
    (hok : (parseLines C (new completion) (endedLines texts.flatten)).1 = .ok chunks)
    (hopen : openLine texts.flatten = []) : ReadsLines C completion texts := by
  obtain ⟨hparsed, -⟩ :=
    (parseLines_spec (C := C) (p := new completion) (endedLines texts.flatten)).2 (by rw [hok]; rfl)
  rw [show (new completion).parsedLines ++ endedLines texts.flatten = endedLines texts.flatten from
    rfl] at hparsed
  cases hdone : (endedLines texts.flatten).any isDone with
  | false =>
    obtain ⟨hresult, hlines⟩ := run_of_not_done hok hdone
    constructor
    · rw [sseLines_of_ended hopen, hlines, hparsed]
    · rw [sseLines_of_ended hopen, hok]
      refine ⟨fun _ => ⟨rfl, fun line hline => ?_⟩, fun _ => hresult⟩
      exact Bool.not_eq_true _ ▸ List.any_eq_false.1 hdone line hline
  | true =>
    obtain ⟨hresult, hlines⟩ := run_of_done hok hdone
    obtain ⟨line, hline, hevent⟩ := List.any_eq_true.1 hdone
    constructor
    · rw [sseLines_of_ended hopen, hlines, hparsed, hopen, List.isEmpty_nil, if_pos rfl,
        List.append_nil]
    · rw [sseLines_of_ended hopen]
      refine ⟨fun h => absurd h hresult, fun h => ?_⟩
      rw [h.2 line hline] at hevent
      exact absurd hevent (by decide)

/-- **A stream is read as its lines just if its end is known when its last line is looked at.** -/
theorem readsLines_iff (C : Completions σ χ) (completion : σ) (texts : List Str) :
    ReadsLines C completion texts ↔ EndKnown C completion texts.flatten := by
  cases hok : (parseLines C (new completion) (endedLines texts.flatten)).1 with
  | error e => exact ⟨fun _ => .inr (.inl (by rw [hok]; rfl)), fun _ => readsLines_of_failure hok⟩
  | ok chunks =>
    by_cases hopen : openLine texts.flatten = []
    · exact ⟨fun _ => .inl hopen, fun _ => readsLines_of_ended hok hopen⟩
    · have hempty : ¬(openLine texts.flatten).isEmpty = true := by simpa using hopen
      have hspec := parseLines_sseLines hok hopen
      cases hdone : (endedLines texts.flatten).any isDone with
      | false =>
        -- the last line is not parsed
        obtain ⟨-, hlines⟩ := run_of_not_done hok hdone
        constructor
        · intro h
          have hparsed := h.parsed
          rw [hlines, hspec] at hparsed
          exact absurd (List.self_eq_append_right.1 hparsed) (List.cons_ne_nil _ _)
        · rintro (hnil | hfail | ⟨⟨line, hline, hevent⟩, -⟩)
          · exact absurd hnil hopen
          · rw [hok] at hfail
            exact nomatch hfail
          · exact absurd hevent (List.any_eq_false.1 hdone line hline)
      | true =>
        obtain ⟨hresult, hlines⟩ := run_of_done hok hdone
        rw [if_neg hempty] at hlines
        obtain ⟨line, hline, hevent⟩ := List.any_eq_true.1 hdone
        constructor
        · intro h
          have hparsed := h.parsed
          rw [hlines, hspec, List.append_right_inj, List.singleton_inj] at hparsed
          exact .inr (.inr ⟨⟨line, hline, hevent⟩, (trimEnd_eq_strip_iff _).1 hparsed⟩)
        · intro h
          have hreturns : ¬['\r', '\r'] <:+ openLine texts.flatten := by
            rcases h with hnil | hfail | ⟨-, hreturns⟩
            · exact absurd hnil hopen
            · rw [hok] at hfail
              exact nomatch hfail
            · exact hreturns
          constructor
          · rw [hlines, hspec, (trimEnd_eq_strip_iff _).2 hreturns]
          · refine ⟨fun heq => absurd heq hresult, fun hnone => ?_⟩
            have hin : line ∈ sseLines texts.flatten := List.mem_append_left _ hline
            rw [hnone.2 line hin] at hevent
            exact absurd hevent (by decide)

end Ends

/-- A server that answers nothing. -/
def noCompletions : Completions Unit Str where
  parseCompletion completion _ := (.ok [], completion)
  flushCompletion completion := (.ok [], completion)

/-- The event is the last line and has no newline. -/
theorem done_without_newline : ¬ReadsLines noCompletions () ["data: [DO".toList, "NE]".toList] := by
  intro h
  have hparsed := h.parsed
  revert hparsed
  decide +kernel

end KirAi.Mlx
