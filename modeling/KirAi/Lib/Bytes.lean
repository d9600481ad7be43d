/-
# Bytes of a file

What a binary file is read and written with: numbers as little-endian bytes
(`fromLe_toLe`), a range of a buffer that may be too short for it
(`getRange_append`), and a map that remembers the order in which its keys came
(`insertKey_of_notMem`, `find?_of_nodup`). A text is its UTF-8 bytes (`ofUtf8_utf8`).
-/
import KirAi.Lib.Slice
import Mathlib.Data.List.Nodup

namespace KirAi.Lib

abbrev Byte := BitVec 8

variable {α β : Type}

/-! ### Little-endian numbers -/

/-- The lowest `w` bytes of a number, the lowest first. -/
def toLe : ℕ → ℕ → List Byte
  | 0, _ => []
  | w + 1, n => BitVec.ofNat 8 n :: toLe w (n / 256)

def fromLe : List Byte → ℕ
  | [] => 0
  | b :: bs => b.toNat + 256 * fromLe bs

@[simp] theorem toLe_length : ∀ w n, (toLe w n).length = w
  | 0, _ => rfl
  | w + 1, n => by rw [toLe, List.length_cons, toLe_length w]

theorem fromLe_toLe : ∀ {w n : ℕ}, n < 256 ^ w → fromLe (toLe w n) = n
  | 0, n, h => by
    rw [Nat.pow_zero] at h
    simp only [toLe, fromLe]
    omega
  | w + 1, n, h => by
    have hdiv : n / 256 < 256 ^ w := by
      rw [Nat.pow_succ] at h
      exact Nat.div_lt_of_lt_mul (by omega)
    rw [toLe, fromLe, fromLe_toLe hdiv, BitVec.toNat_ofNat]
    omega

/-! ### Ranges -/

/-- `get(a..b)`: nothing when the range is not inside the buffer. -/
def getRange (l : List α) (a b : ℕ) : Option (List α) :=
  if a ≤ b ∧ b ≤ l.length then some (slice l a b) else none

/-- The middle of a buffer. -/
theorem getRange_append {l₁ l₂ l₃ : List α} {a b : ℕ} (ha : a = l₁.length)
    (hb : b = l₁.length + l₂.length) : getRange (l₁ ++ l₂ ++ l₃) a b = some l₂ := by
  subst ha hb
  rw [getRange, if_pos ⟨by omega, by simp only [List.length_append]; omega⟩, slice,
    List.append_assoc, List.drop_left, Nat.add_sub_cancel_left, List.take_left]

/-! ### Maps in order of insertion -/

/-- A key that is there gets the new value in its place, another one goes to the
end. -/
def insertKey (m : List (String × β)) (k : String) (v : β) : List (String × β) :=
  if k ∈ m.map (·.1) then m.map fun e => if e.1 = k then (k, v) else e else m ++ [(k, v)]

def lookupKey (m : List (String × β)) (k : String) : Option β :=
  (m.find? fun e => e.1 = k).map (·.2)

theorem insertKey_of_notMem {m : List (String × β)} {k : String} {v : β} (h : k ∉ m.map (·.1)) :
    insertKey m k v = m ++ [(k, v)] := if_neg h

/-- In a list without repetitions of the key, the entry with a key is the one
that is found. -/
theorem find?_of_nodup {l : List α} {f : α → String} (h : (l.map f).Nodup) {a : α} (ha : a ∈ l) :
    l.find? (fun x => f x = f a) = some a := by
  induction l with
  | nil => cases ha
  | cons x l ih =>
    rw [List.map_cons, List.nodup_cons] at h
    rcases List.mem_cons.mp ha with rfl | ha
    · simp
    · have hne : f x ≠ f a := fun he => h.1 (he ▸ List.mem_map_of_mem ha)
      rw [List.find?_cons_of_neg (by simpa using hne), ih h.2 ha]

/-! ### Texts -/

/-- The UTF-8 bytes of a text. -/
def utf8 (s : String) : List Byte := s.toUTF8.data.toList.map (·.toBitVec)

def ofUtf8 (bytes : List Byte) : Option String :=
  String.fromUTF8? ⟨(bytes.map UInt8.ofBitVec).toArray⟩

theorem ofUtf8_utf8 (s : String) : ofUtf8 (utf8 s) = some s := by
  have hbytes : (⟨((utf8 s).map UInt8.ofBitVec).toArray⟩ : ByteArray) = s.toByteArray := by
    simp [utf8, Function.comp_def]
  rw [ofUtf8, hbytes, String.fromUTF8?, dif_pos s.isValidUTF8]
  rfl

theorem utf8_injective {s s' : String} (h : utf8 s = utf8 s') : s = s' :=
  Option.some.inj (by rw [← ofUtf8_utf8, h, ofUtf8_utf8])

/-- No character has more than four bytes. -/
theorem utf8_length_le (s : String) : (utf8 s).length ≤ 4 * s.toList.length := by
  have hflat : ∀ l : List Char, (l.flatMap String.utf8EncodeChar).length ≤ 4 * l.length := by
    intro l
    induction l with
    | nil => simp
    | cons c l ih =>
      rw [List.flatMap_cons, List.length_append, String.length_utf8EncodeChar, List.length_cons]
      have hsize := c.utf8Size_le_four
      omega
  have hbytes : (utf8 s).length = (s.toList.flatMap String.utf8EncodeChar).length := by
    rw [utf8, show s.toUTF8 = s.toList.utf8Encode from String.utf8Encode_toList.symm]
    simp [List.utf8Encode]
  rw [hbytes]
  exact hflat s.toList

/-- A number is its decimal digits. -/
theorem toString_nat_inj {a b : ℕ} (h : (toString a).toList = (toString b).toList) : a = b := by
  have hrepr : ∀ n : ℕ, (toString n).toList = Nat.toDigits 10 n := fun n => Nat.toList_repr
  rw [hrepr, hrepr] at h
  have := congrArg (Nat.ofDigitChars 10 · 0) h
  simpa [Nat.ofDigitChars_ten_toDigits] using this

end KirAi.Lib
