/-
# Counting the bytes of a JSON value

`JsonByteCounter` in `validation/helpers.rs` counts the bytes of the compact text of a value
without writing it: values and half-read containers are frames on a stack, and counting stops
when the limit is passed. At every point what is counted and what the frames still stand for
add up to the length of the text (`Reached.exact`), so a value is accepted just if its text is
no longer than the limit (`json_bytes_exact`).

The count is a `usize` that saturates. It is exact if the limit is not `usize::MAX`, or if the
length of the text is a `usize` (`Exact`).

Key definitions: `JsonByteFrame`, `JsonByteCounter.step`, `countOnStack`, `Exact`.
Key theorems: `step_spec`, `countOnStack_eq`, `Reached.exact`, `json_bytes_exact`.
-/
import KirAi.Api.Validation

namespace KirAi.Api

open Lib Lib.Text
open KirAi.Runtime (Str)

/-! ### The counter -/

/-- `usize::MAX` -/
def usizeMax : ℕ := 2 ^ 64 - 1

inductive CountStop
  | limitExceeded
  | outOfFuel
deriving DecidableEq, Repr

structure JsonByteCounter where
  written : ℕ
  max : ℕ
deriving DecidableEq, Repr

inductive JsonByteFrame
  | value (value : Json)
  | array (iter : List Json) (first : Bool)
  | object (iter : List (String × Json)) (first : Bool)

namespace JsonByteCounter

def new (max : ℕ) : JsonByteCounter := ⟨0, max⟩

def exceeded (counter : JsonByteCounter) : Bool := counter.written > counter.max

def add (counter : JsonByteCounter) (bytes : ℕ) : Except CountStop JsonByteCounter :=
  let counter : JsonByteCounter := ⟨min (counter.written + bytes) usizeMax, counter.max⟩
  if counter.exceeded then .error .limitExceeded else .ok counter

def addChars : Str → JsonByteCounter → Except CountStop JsonByteCounter
  | [], counter => .ok counter
  | c :: value, counter => do
    let counter ← counter.add (jsonCharBytes c)
    addChars value counter

def addJsonString (counter : JsonByteCounter) (value : Str) : Except CountStop JsonByteCounter := do
  let counter ← counter.add 2
  addChars value counter

/-- `if !first { self.add(1)?; }` -/
def addComma (counter : JsonByteCounter) (first : Bool) : Except CountStop JsonByteCounter :=
  if first then .ok counter else counter.add 1

/-- One round of the loop: the frame that was popped, and the rest of the stack. -/
def step (counter : JsonByteCounter) (stack : List JsonByteFrame) :
    JsonByteFrame → Except CountStop (JsonByteCounter × List JsonByteFrame)
  | .value .null => do return (← counter.add 4, stack)
  | .value (.bool true) => do return (← counter.add 4, stack)
  | .value (.bool false) => do return (← counter.add 5, stack)
  | .value (.u64 n) => do return (← counter.add (len (Nat.toDigits 10 n)), stack)
  | .value (.number text) => do return (← counter.add (len text.toList), stack)
  | .value (.string value) => do return (← counter.addJsonString value.toList, stack)
  | .value (.array values) => do
    let counter ← counter.add 1
    if values.isEmpty then return (← counter.add 1, stack)
    else return (counter, .array values true :: stack)
  | .value (.object entries) => do
    let counter ← counter.add 1
    if entries.isEmpty then return (← counter.add 1, stack)
    else return (counter, .object entries true :: stack)
  | .array [] _ => do return (← counter.add 1, stack)
  | .array (value :: iter) first => do
    let counter ← counter.addComma first
    return (counter, .value value :: .array iter false :: stack)
  | .object [] _ => do return (← counter.add 1, stack)
  | .object ((key, value) :: iter) first => do
    let counter ← counter.addComma first
    let counter ← counter.addJsonString key.toList
    let counter ← counter.add 1
    return (counter, .value value :: .object iter false :: stack)

def countLoop : ℕ → List JsonByteFrame → JsonByteCounter → Except CountStop JsonByteCounter
  | _, [], counter => .ok counter
  | 0, _ :: _, _ => .error .outOfFuel
  | fuel + 1, frame :: stack, counter => do
    let (counter, stack) ← counter.step stack frame
    countLoop fuel stack counter

end JsonByteCounter

/-- `count_value` of a new counter. -/
def countOnStack (fuel max : ℕ) (value : Json) : Except CountStop JsonByteCounter :=
  JsonByteCounter.countLoop fuel [.value value] (.new max)

/-! ### What frames stand for -/

/-- The bytes of the values of an array that are left, with their commas and the bracket. -/
def arrayBytes : Bool → List Json → ℕ
  | _, [] => 1
  | first, value :: values => (if first then 0 else 1) + len value.chars + arrayBytes false values

def objectBytes : Bool → List (String × Json) → ℕ
  | _, [] => 1
  | first, (key, value) :: entries =>
    (if first then 0 else 1) + len (Json.quote key.toList) + 1 + len value.chars +
      objectBytes false entries

def JsonByteFrame.bytes : JsonByteFrame → ℕ
  | .value v => len v.chars
  | .array iter first => arrayBytes first iter
  | .object iter first => objectBytes first iter

def stackBytes (stack : List JsonByteFrame) : ℕ := (stack.map JsonByteFrame.bytes).sum

mutual

/-- How many rounds a value takes at most. -/
def valueWork : Json → ℕ
  | .array values => 1 + valuesWork values
  | .object entries => 1 + entriesWork entries
  | _ => 1

def valuesWork : List Json → ℕ
  | [] => 1
  | value :: values => 1 + valueWork value + valuesWork values

def entriesWork : List (String × Json) → ℕ
  | [] => 1
  | (_, value) :: entries => 1 + valueWork value + entriesWork entries

end

def JsonByteFrame.work : JsonByteFrame → ℕ
  | .value v => valueWork v
  | .array iter _ => valuesWork iter
  | .object iter _ => entriesWork iter

def stackWork (stack : List JsonByteFrame) : ℕ := (stack.map JsonByteFrame.work).sum

/-! ### The bytes of the compact text -/

theorem width_of_ascii {c : Char} (h : c.toNat < 128) : Width.width c = 1 := by
  refine Char.utf8Size_eq_one_iff.2 (UInt32.le_iff_toNat_le.2 ?_)
  show c.toNat ≤ 127
  omega

theorem width_hexDigit {n : ℕ} (h : n < 16) : Width.width (Json.hexDigit n) = 1 := by
  have hall : ∀ m : Fin 16, (Json.hexDigit m).toNat < 128 := by decide
  exact width_of_ascii (hall ⟨n, h⟩)

/-- The bytes of a character are those of its escape. -/
theorem len_escapeChar (c : Char) : len (Json.escapeChar c) = jsonCharBytes c := by
  unfold jsonCharBytes
  by_cases hshort : c = '"' ∨ c = '\\' ∨ c.toNat = 8 ∨ c = '\t' ∨ c = '\n' ∨ c.toNat = 12 ∨ c = '\r'
  · rw [if_pos hshort]
    rcases hshort with rfl | rfl | h | rfl | rfl | h | rfl
    · rfl
    · rfl
    · obtain rfl : c = '\x08' := Char.ext (UInt32.toNat_inj.1 h)
      rfl
    · rfl
    · rfl
    · obtain rfl : c = '\x0c' := Char.ext (UInt32.toNat_inj.1 h)
      rfl
    · rfl
  · rw [if_neg hshort]
    simp only [not_or] at hshort
    obtain ⟨hquote, hback, hbs, htab, hnl, hff, hcr⟩ := hshort
    rw [Json.escapeChar, if_neg hquote, if_neg hback, if_neg hnl, if_neg hcr, if_neg htab, if_neg hbs,
      if_neg hff]
    by_cases hcontrol : c.toNat < 32
    · rw [if_pos hcontrol, if_pos hcontrol]
      simp only [len_cons, len_nil, width_hexDigit (show c.toNat / 16 < 16 by omega),
        width_hexDigit (show c.toNat % 16 < 16 by omega)]
      rfl
    · rw [if_neg hcontrol, if_neg hcontrol]
      rfl

theorem len_escape : ∀ s : Str, len (Json.escape s) = (s.map jsonCharBytes).sum
  | [] => rfl
  | c :: s => by
    have ih := len_escape s
    rw [Json.escape] at ih ⊢
    rw [List.flatMap_cons, len_append, len_escapeChar, ih, List.map_cons, List.sum_cons]

theorem len_quote (s : Str) : len (Json.quote s) = 2 + (s.map jsonCharBytes).sum := by
  have hwidth : Width.width '"' = 1 := rfl
  rw [Json.quote, len_cons, len_append, len_escape, len_cons, len_nil, hwidth]
  omega

theorem len_commas (part : Str) : ∀ parts : List Str,
    len (Json.commas (part :: parts)) = len part + (parts.map fun p => 1 + len p).sum
  | [] => rfl
  | p :: parts => by
    have hwidth : Width.width ',' = 1 := rfl
    rw [Json.commas, len_append, len_cons, len_commas p parts, hwidth, List.map_cons, List.sum_cons]
    · omega
    · exact List.cons_ne_nil _ _

theorem arrayBytes_false : ∀ values : List Json,
    arrayBytes false values = ((Json.charsOfValues values).map fun p => 1 + len p).sum + 1
  | [] => by rw [Json.charsOfValues]; rfl
  | value :: values => by
    rw [arrayBytes, arrayBytes_false values, Json.charsOfValues, List.map_cons, List.sum_cons,
      if_neg Bool.false_ne_true]
    omega

theorem len_array (values : List Json) : len (Json.array values).chars = 1 + arrayBytes true values := by
  have hopen : Width.width '[' = 1 := rfl
  have hclose : Width.width ']' = 1 := rfl
  rw [Json.chars, len_cons, len_append, len_cons, len_nil, hopen, hclose]
  cases values with
  | nil =>
    rw [Json.charsOfValues]
    rfl
  | cons value values =>
    rw [Json.charsOfValues, len_commas, arrayBytes, arrayBytes_false, if_pos rfl]
    omega

theorem len_charsOfEntry (key : String) (value : Json) :
    len (Json.charsOfEntry (key, value)) = len (Json.quote key.toList) + 1 + len value.chars := by
  have hwidth : Width.width ':' = 1 := rfl
  rw [Json.charsOfEntry, len_append, len_cons, hwidth]
  omega

theorem objectBytes_false : ∀ entries : List (String × Json),
    objectBytes false entries = ((Json.charsOfEntries entries).map fun p => 1 + len p).sum + 1
  | [] => by rw [Json.charsOfEntries]; rfl
  | (key, value) :: entries => by
    rw [objectBytes, objectBytes_false entries, Json.charsOfEntries, List.map_cons, List.sum_cons,
      len_charsOfEntry, if_neg Bool.false_ne_true]
    omega

theorem len_object (entries : List (String × Json)) :
    len (Json.object entries).chars = 1 + objectBytes true entries := by
  have hopen : Width.width '\x7b' = 1 := rfl
  have hclose : Width.width '\x7d' = 1 := rfl
  rw [Json.chars, len_cons, len_append, len_cons, len_nil, hopen, hclose]
  cases entries with
  | nil =>
    rw [Json.charsOfEntries]
    rfl
  | cons entry entries =>
    obtain ⟨key, value⟩ := entry
    rw [Json.charsOfEntries, len_commas, objectBytes, objectBytes_false, len_charsOfEntry, if_pos rfl]
    omega

/-! ### Exact counting -/

/-- The saturating count decides on this total as an exact one would. -/
def Exact (max total : ℕ) : Prop := max < usizeMax ∨ total ≤ usizeMax

theorem Exact.mono {max total total' : ℕ} (h : Exact max total) (hle : total' ≤ total) :
    Exact max total' :=
  h.imp_right hle.trans

/-- A counter that goes on by some bytes, if the limit allows it. -/
def exactly (counter : JsonByteCounter) (bytes : ℕ) : Except CountStop JsonByteCounter :=
  if counter.written + bytes ≤ counter.max then .ok ⟨counter.written + bytes, counter.max⟩
  else .error .limitExceeded

section Exactly

variable {counter : JsonByteCounter} {a b : ℕ}

theorem exactly_bind {f : JsonByteCounter → Except CountStop JsonByteCounter}
    (h : counter.written + a ≤ counter.max →
      f ⟨counter.written + a, counter.max⟩ = exactly ⟨counter.written + a, counter.max⟩ b) :
    (exactly counter a >>= f) = exactly counter (a + b) := by
  unfold exactly at h ⊢
  by_cases ha : counter.written + a ≤ counter.max
  · rw [if_pos ha, ok_bind, h ha]
    simp only [Nat.add_assoc]
  · rw [if_neg ha, if_neg (by omega)]
    rfl

theorem add_eq (h : Exact counter.max (counter.written + a)) :
    counter.add a = exactly counter a := by
  unfold JsonByteCounter.add JsonByteCounter.exceeded exactly
  by_cases hfit : counter.written + a ≤ usizeMax
  · rw [min_eq_left hfit]
    by_cases hle : counter.written + a ≤ counter.max
    · rw [if_pos hle, if_neg (by simpa using hle)]
    · rw [if_neg hle, if_pos (by simpa using hle)]
  · have hmax : counter.max < usizeMax := h.resolve_right hfit
    rw [min_eq_right (by omega), if_pos (by simpa using hmax), if_neg (by omega)]

theorem addChars_eq : ∀ {value : Str} {counter : JsonByteCounter}, counter.written ≤ counter.max →
    Exact counter.max (counter.written + (value.map jsonCharBytes).sum) →
    JsonByteCounter.addChars value counter = exactly counter (value.map jsonCharBytes).sum
  | [], counter, hle, _ => by
    rw [JsonByteCounter.addChars, List.map_nil, List.sum_nil, exactly, Nat.add_zero, if_pos hle]
  | c :: value, counter, hle, h => by
    rw [List.map_cons, List.sum_cons] at h ⊢
    rw [JsonByteCounter.addChars, add_eq (h.mono (by omega))]
    refine exactly_bind fun hfit => ?_
    exact @addChars_eq value ⟨counter.written + jsonCharBytes c, counter.max⟩ hfit
      (h.mono (by dsimp only; omega))

theorem addJsonString_eq {value : Str} (h : Exact counter.max (counter.written + len (Json.quote value))) :
    counter.addJsonString value = exactly counter (len (Json.quote value)) := by
  rw [len_quote] at h ⊢
  rw [JsonByteCounter.addJsonString, add_eq (h.mono (by omega))]
  refine exactly_bind fun hfit => ?_
  exact @addChars_eq value ⟨counter.written + 2, counter.max⟩ hfit (h.mono (by dsimp only; omega))

/-- Two additions are one. -/
theorem exactly_add (h : Exact counter.max (counter.written + (a + b))) :
    (exactly counter a >>= fun counter => counter.add b) = exactly counter (a + b) := by
  refine exactly_bind fun _ => add_eq (h.mono ?_)
  dsimp only
  omega

end Exactly

theorem stackBytes_cons (frame : JsonByteFrame) (stack : List JsonByteFrame) :
    stackBytes (frame :: stack) = frame.bytes + stackBytes stack := by
  rw [stackBytes, List.map_cons, List.sum_cons]
  rfl

theorem stackWork_cons (frame : JsonByteFrame) (stack : List JsonByteFrame) :
    stackWork (frame :: stack) = frame.work + stackWork stack := by
  rw [stackWork, List.map_cons, List.sum_cons]
  rfl

/-- One round counts some bytes, which the stack loses, and does some of the work. -/
def Rounds (counter : JsonByteCounter) (stack : List JsonByteFrame) (frame : JsonByteFrame) : Prop :=
  ∃ bytes stack', counter.step stack frame =
      (exactly counter bytes >>= fun counter => .ok (counter, stack')) ∧
    bytes + stackBytes stack' = stackBytes (frame :: stack) ∧
    stackWork stack' < stackWork (frame :: stack)

section Rounds

variable {counter : JsonByteCounter} {stack : List JsonByteFrame}

theorem exactly_zero (hle : counter.written ≤ counter.max) : exactly counter 0 = .ok counter := by
  rw [exactly, Nat.add_zero, if_pos hle]

/-- A frame that is counted at once. -/
theorem Rounds.popped {frame : JsonByteFrame} {bytes : ℕ}
    (h : Exact counter.max (counter.written + (frame.bytes + stackBytes stack)))
    (hstep : counter.step stack frame = (counter.add bytes >>= fun counter => .ok (counter, stack)))
    (hbytes : frame.bytes = bytes) (hwork : 0 < frame.work) : Rounds counter stack frame := by
  refine ⟨bytes, stack, ?_, ?_, ?_⟩
  · rw [hstep, add_eq (h.mono (by omega))]
  · rw [stackBytes_cons, hbytes]
  · rw [stackWork_cons]
    omega

/-- An empty container: its brackets. -/
theorem Rounds.empty {v : Json}
    (h : Exact counter.max (counter.written + (len v.chars + stackBytes stack)))
    (hstep : counter.step stack (.value v) = (counter.add 1 >>= fun counter =>
      counter.add 1 >>= fun counter => .ok (counter, stack)))
    (hbytes : len v.chars = 2) (hwork : 0 < valueWork v) : Rounds counter stack (.value v) := by
  refine ⟨2, stack, ?_, ?_, ?_⟩
  · rw [hstep, add_eq (h.mono (by omega)), ← bind_assoc,
      exactly_add (h.mono (show counter.written + (1 + 1) ≤ _ by omega))]
  · rw [stackBytes_cons, JsonByteFrame.bytes, hbytes]
  · rw [stackWork_cons, JsonByteFrame.work]
    omega

/-- A container with entries: its opening bracket, and a frame for the entries. -/
theorem Rounds.opened {v : Json} {frame : JsonByteFrame}
    (h : Exact counter.max (counter.written + (len v.chars + stackBytes stack)))
    (hstep : counter.step stack (.value v) = (counter.add 1 >>= fun counter =>
      .ok (counter, frame :: stack)))
    (hbytes : len v.chars = 1 + frame.bytes) (hwork : valueWork v = 1 + frame.work) :
    Rounds counter stack (.value v) := by
  refine ⟨1, frame :: stack, ?_, ?_, ?_⟩
  · rw [hstep, add_eq (h.mono (by omega))]
  · rw [stackBytes_cons, stackBytes_cons, JsonByteFrame.bytes, hbytes]
    omega
  · rw [stackWork_cons, stackWork_cons, JsonByteFrame.work, hwork]
    omega

/-- The bytes of the comma in front of an entry. -/
def commaBytes (first : Bool) : ℕ := if first then 0 else 1

/-- A comma stands in front of an entry that is not the first. -/
theorem addComma_eq {first : Bool} (hle : counter.written ≤ counter.max)
    (h : Exact counter.max (counter.written + commaBytes first)) :
    counter.addComma first = exactly counter (commaBytes first) := by
  cases first with
  | true => exact (exactly_zero hle).symm
  | false => exact add_eq h

theorem rounds (frame : JsonByteFrame) (hle : counter.written ≤ counter.max)
    (h : Exact counter.max (counter.written + stackBytes (frame :: stack))) :
    Rounds counter stack frame := by
  rw [stackBytes_cons] at h
  match frame with
  | .value .null => exact .popped h rfl (by rw [JsonByteFrame.bytes, Json.chars]; rfl) (Nat.one_pos)
  | .value (.bool true) =>
    exact .popped h rfl (by rw [JsonByteFrame.bytes, Json.chars]; rfl) (Nat.one_pos)
  | .value (.bool false) =>
    exact .popped h rfl (by rw [JsonByteFrame.bytes, Json.chars]; rfl) (Nat.one_pos)
  | .value (.u64 n) => exact .popped h rfl (by rw [JsonByteFrame.bytes, Json.chars]) (Nat.one_pos)
  | .value (.number text) =>
    exact .popped h rfl (by rw [JsonByteFrame.bytes, Json.chars]) (Nat.one_pos)
  | .value (.string value) =>
    have hchars : len (Json.string value).chars = len (Json.quote value.toList) := by
      rw [Json.chars]
    refine ⟨len (Json.quote value.toList), stack, ?_, ?_, ?_⟩
    · have hstep := @addJsonString_eq counter value.toList
        (h.mono (by rw [JsonByteFrame.bytes, hchars]; omega))
      rw [JsonByteCounter.step, hstep]
      rfl
    · rw [stackBytes_cons, JsonByteFrame.bytes, hchars]
    · rw [stackWork_cons]
      exact Nat.lt_add_of_pos_left Nat.one_pos
  | .value (.array []) =>
    exact .empty h rfl (len_array []) (by rw [valueWork]; omega)
  | .value (.array (value :: values)) =>
    exact .opened h rfl (len_array _) (by rw [valueWork]; rfl)
  | .value (.object []) =>
    exact .empty h rfl (len_object []) (by rw [valueWork]; omega)
  | .value (.object (entry :: entries)) =>
    exact .opened h rfl (len_object _) (by rw [valueWork]; rfl)
  | .array [] first => exact .popped h rfl rfl (by rw [JsonByteFrame.work, valuesWork]; omega)
  | .object [] first => exact .popped h rfl rfl (by rw [JsonByteFrame.work, entriesWork]; omega)
  | .array (value :: iter) first =>
    have hbytes : (JsonByteFrame.array (value :: iter) first).bytes =
        commaBytes first + len value.chars + arrayBytes false iter := rfl
    refine ⟨commaBytes first, .value value :: .array iter false :: stack, ?_, ?_, ?_⟩
    · rw [JsonByteCounter.step, addComma_eq hle (h.mono (by rw [hbytes]; omega))]
      rfl
    · rw [stackBytes_cons, stackBytes_cons, stackBytes_cons, hbytes]
      simp only [JsonByteFrame.bytes]
      omega
    · rw [stackWork_cons, stackWork_cons, stackWork_cons]
      simp only [JsonByteFrame.work]
      rw [valuesWork]
      omega
  | .object ((key, value) :: iter) first =>
    have hbytes : (JsonByteFrame.object ((key, value) :: iter) first).bytes =
        commaBytes first + len (Json.quote key.toList) + 1 + len value.chars +
          objectBytes false iter := rfl
    rw [hbytes] at h
    -- the comma, the key and the colon are counted one after another
    have hentry : (exactly counter (commaBytes first) >>= fun counter =>
        (counter.addJsonString key.toList >>= fun counter => counter.add 1)) =
          exactly counter (commaBytes first + (len (Json.quote key.toList) + 1)) := by
      refine exactly_bind fun hfit => ?_
      rw [@addJsonString_eq ⟨counter.written + commaBytes first, counter.max⟩ key.toList
        (h.mono (by dsimp only; omega))]
      exact exactly_add (h.mono (by dsimp only; omega))
    refine ⟨commaBytes first + (len (Json.quote key.toList) + 1),
      .value value :: .object iter false :: stack, ?_, ?_, ?_⟩
    · rw [JsonByteCounter.step, addComma_eq hle (h.mono (by omega)), ← hentry]
      simp only [bind_assoc]
      rfl
    · rw [stackBytes_cons, stackBytes_cons, stackBytes_cons, hbytes]
      simp only [JsonByteFrame.bytes]
      omega
    · rw [stackWork_cons, stackWork_cons, stackWork_cons]
      simp only [JsonByteFrame.work]
      rw [entriesWork]
      omega

/-- The loop counts what the stack stands for. -/
theorem countLoop_eq : ∀ {fuel : ℕ} {stack : List JsonByteFrame} {counter : JsonByteCounter},
    stackWork stack ≤ fuel → counter.written ≤ counter.max →
    Exact counter.max (counter.written + stackBytes stack) →
    JsonByteCounter.countLoop fuel stack counter = exactly counter (stackBytes stack)
  | fuel, [], counter, _, hle, _ => by
    rw [JsonByteCounter.countLoop]
    exact (exactly_zero hle).symm
  | 0, frame :: stack, counter, hfuel, hle, h => by
    obtain ⟨bytes, stack', -, -, hwork⟩ := rounds frame hle h
    omega
  | fuel + 1, frame :: stack, counter, hfuel, hle, h => by
    obtain ⟨bytes, stack', hstep, hbytes, hwork⟩ := rounds frame hle h
    rw [JsonByteCounter.countLoop, hstep, bind_assoc, ← hbytes]
    refine exactly_bind fun hfit => ?_
    rw [ok_bind]
    exact @countLoop_eq fuel stack' ⟨counter.written + bytes, counter.max⟩ (by omega) hfit
      (h.mono (by dsimp only; omega))

end Rounds

/-! ### The recursive count -/

section Recursive

variable {max : ℕ}

theorem addBytes_bind {w a b : ℕ} {f : ℕ → Option ℕ}
    (h : w + a ≤ max → f (w + a) = addBytes max (w + a) b) :
    (addBytes max w a >>= f) = addBytes max w (a + b) := by
  unfold addBytes at h ⊢
  by_cases ha : w + a > max
  · rw [if_pos ha, if_pos (by omega)]
    rfl
  · rw [if_neg ha, Option.bind_eq_bind, Option.bind_some, h (by omega)]
    simp only [Nat.add_assoc]

theorem foldlM_addBytes : ∀ {value : Str} {w : ℕ}, w ≤ max →
    value.foldlM (fun written c => addBytes max written (jsonCharBytes c)) w =
      addBytes max w (value.map jsonCharBytes).sum
  | [], w, hle => by
    rw [List.foldlM_nil, List.map_nil, List.sum_nil, addBytes, Nat.add_zero, if_neg (by omega)]
    rfl
  | c :: value, w, _ => by
    rw [List.foldlM_cons, List.map_cons, List.sum_cons]
    exact addBytes_bind fun hfit => foldlM_addBytes hfit

theorem addJsonString_recursive (value : Str) (w : ℕ) :
    Api.addJsonString max w value = addBytes max w (len (Json.quote value)) := by
  rw [len_quote]
  exact addBytes_bind fun hfit => foldlM_addBytes hfit

mutual

/-- The recursion counts the text of a value. -/
theorem countValue_eq : ∀ (w : ℕ) (v : Json), countValue max w v = addBytes max w (len v.chars)
  | w, .null => by rw [countValue, Json.chars]; rfl
  | w, .bool true => by rw [countValue, Json.chars]; rfl
  | w, .bool false => by rw [countValue, Json.chars]; rfl
  | w, .u64 n => by rw [countValue, Json.chars]
  | w, .number text => by rw [countValue, Json.chars]
  | w, .string value => by rw [countValue, Json.chars, addJsonString_recursive]
  | w, .array values => by
    rw [countValue, len_array]
    exact addBytes_bind fun hfit => countValues_eq (w + 1) true values hfit
  | w, .object entries => by
    rw [countValue, len_object]
    exact addBytes_bind fun hfit => countEntries_eq (w + 1) true entries hfit

theorem countValues_eq : ∀ (w : ℕ) (first : Bool) (values : List Json), w ≤ max →
    (countValues max w first values >>= fun w => addBytes max w 1) =
      addBytes max w (arrayBytes first values)
  | w, first, [], hle => by
    rw [countValues, arrayBytes]
    rfl
  | w, first, value :: values, hle => by
    rw [countValues, arrayBytes, Nat.add_assoc]
    simp only [bind_assoc]
    refine addBytes_bind fun _ => ?_
    rw [countValue_eq]
    exact addBytes_bind fun hfit => countValues_eq _ false values hfit

theorem countEntries_eq : ∀ (w : ℕ) (first : Bool) (entries : List (String × Json)), w ≤ max →
    (countEntries max w first entries >>= fun w => addBytes max w 1) =
      addBytes max w (objectBytes first entries)
  | w, first, [], hle => by
    rw [countEntries, objectBytes]
    rfl
  | w, first, (key, value) :: entries, hle => by
    rw [countEntries, objectBytes]
    simp only [bind_assoc, Nat.add_assoc]
    refine addBytes_bind fun _ => ?_
    rw [addJsonString_recursive]
    refine addBytes_bind fun _ => ?_
    refine addBytes_bind fun _ => ?_
    rw [countValue_eq]
    exact addBytes_bind fun hfit => countEntries_eq _ false entries hfit

end

end Recursive

/-! ### The check of a value -/

/-- The states of the loop on a value. -/
inductive Reached (max : ℕ) (value : Json) : JsonByteCounter → List JsonByteFrame → Prop
  | start : Reached max value (.new max) [.value value]
  | step {counter counter' : JsonByteCounter} {frame : JsonByteFrame}
      {stack stack' : List JsonByteFrame} : Reached max value counter (frame :: stack) →
      counter.step stack frame = .ok (counter', stack') → Reached max value counter' stack'

/-- What is counted and what is left make up the text; no count was cut off. -/
theorem Reached.exact {max : ℕ} {value : Json} {counter : JsonByteCounter}
    {stack : List JsonByteFrame} (hexact : Exact max (len value.chars))
    (h : Reached max value counter stack) :
    counter.max = max ∧ counter.written ≤ max ∧
      counter.written + stackBytes stack = len value.chars := by
  induction h with
  | start =>
    refine ⟨rfl, Nat.zero_le _, ?_⟩
    rw [stackBytes_cons]
    exact Nat.zero_add _
  | step hreached hstep ih =>
    obtain ⟨hmax, hle, htotal⟩ := ih
    obtain ⟨bytes, stack', hround, hbytes, -⟩ := rounds _ (hmax ▸ hle) (by rwa [hmax, htotal])
    rw [hround] at hstep
    obtain ⟨counter'', hcount, hout⟩ := bind_eq_ok.1 hstep
    obtain ⟨rfl, rfl⟩ := Prod.mk.inj (Except.ok.inj hout)
    unfold exactly at hcount
    split at hcount
    · next hfit =>
      obtain rfl := Except.ok.inj hcount
      refine ⟨hmax, hmax ▸ hfit, ?_⟩
      dsimp only
      omega
    · cases hcount

/-- `validate_json_bytes_at_most`, with the stack. -/
def validateJsonBytesOnStack (fuel : ℕ) (label : String) (value : Json) (max : ℕ) :
    Except CountStop (Validate Unit) :=
  match countOnStack fuel max value with
  | .ok _ => .ok (.ok ())
  | .error .limitExceeded => .ok (invalidRequest s!"{label} must serialize to at most {max} bytes")
  | .error .outOfFuel => .error .outOfFuel

/-- The loop with the stack answers what the recursion does. -/
theorem validateJsonBytesOnStack_eq (label : String) (value : Json) {max fuel : ℕ}
    (hexact : Exact max (len value.chars)) (hfuel : valueWork value ≤ fuel) :
    validateJsonBytesOnStack fuel label value max = .ok (validateJsonBytesAtMost label value max) := by
  have hbytes : stackBytes [.value value] = len value.chars := by
    rw [stackBytes_cons]
    rfl
  have hloop : countOnStack fuel max value = exactly (.new max) (len value.chars) := by
    rw [countOnStack, countLoop_eq, hbytes]
    · rw [stackWork_cons]
      exact hfuel
    · exact Nat.zero_le _
    · rw [hbytes]
      exact hexact.mono (Nat.zero_add _).le
  have hwritten : (JsonByteCounter.new max).written = 0 := rfl
  have hmax : (JsonByteCounter.new max).max = max := rfl
  rw [validateJsonBytesOnStack, hloop, validateJsonBytesAtMost, countValue_eq, exactly, addBytes,
    hwritten, hmax]
  by_cases hfit : 0 + len value.chars ≤ max
  · rw [if_pos hfit, if_neg (Nat.not_lt.2 hfit)]
    rfl
  · rw [if_neg hfit, if_pos (Nat.not_le.1 hfit)]
    rfl

/-- **The size of a value.** The loop ends, accepts a value just if its compact text has at most
`max` bytes, and on the way its count is the number of bytes that are no longer on the stack. -/
theorem json_bytes_exact (label : String) (value : Json) {max fuel : ℕ}
    (hexact : max < usizeMax ∨ len value.chars ≤ usizeMax) (hfuel : valueWork value ≤ fuel) :
    (∃ answer, validateJsonBytesOnStack fuel label value max = .ok answer ∧
      (answer = .ok () ↔ len value.chars ≤ max)) ∧
    ∀ counter stack, Reached max value counter stack →
      counter.written + stackBytes stack = len value.chars ∧ counter.written ≤ max := by
  refine ⟨⟨_, validateJsonBytesOnStack_eq label value hexact hfuel, ?_⟩, fun counter stack h => ?_⟩
  · rw [validateJsonBytesAtMost, countValue_eq, addBytes, Nat.zero_add]
    by_cases hfit : len value.chars ≤ max
    · rw [if_neg (Nat.not_lt.2 hfit)]
      exact ⟨fun _ => hfit, fun _ => rfl⟩
    · rw [if_pos (Nat.not_le.1 hfit)]
      exact ⟨nofun, fun h => absurd h hfit⟩
  · obtain ⟨-, hle, htotal⟩ := h.exact hexact
    exact ⟨htotal, hle⟩

/-- A list with a quotation mark and a control character: one byte more than the limit below. -/
def sampleValue : Json := .array [.bool true, .string "\"\x01"]

theorem sampleValue_counted :
    (∃ answer, validateJsonBytesOnStack 6 "value" sampleValue 16 = .ok answer ∧
      (answer = .ok () ↔ len sampleValue.chars ≤ 16)) ∧
    ∀ counter stack, Reached 16 sampleValue counter stack →
      counter.written + stackBytes stack = len sampleValue.chars ∧ counter.written ≤ 16 :=
  json_bytes_exact "value" sampleValue (.inl (by decide)) (by decide)

example : len sampleValue.chars = 17 := by decide +kernel

end KirAi.Api
