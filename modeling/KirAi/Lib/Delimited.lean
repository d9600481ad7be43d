/-
# Encodings that say where they end

An encoding is delimited when no word behind an encoded value can change which value is
read: from `e a ++ r = e a' ++ r'` follows that the values and the rests are the same. What
is delimited is injective, and stays delimited when encodings are put one behind the other
(`Delimited.append`), counted (`Delimited.counted`, `Delimited.countedWord`), given a tag
(`Delimited.option`) or made of the parts of a value (`Delimited.comp`). An encoding of one
width is delimited when it is injective (`Delimited.of_length`).

`P` says which values are encoded; a count or a number has to fit its width.
-/
import KirAi.Lib.Bytes

namespace KirAi.Lib

variable {α β γ : Type} {P : α → Prop} {Q : β → Prop} {e : α → List γ} {f : β → List γ}

def Delimited (P : α → Prop) (e : α → List γ) : Prop :=
  ∀ ⦃a a' : α⦄, P a → P a' → ∀ ⦃r r' : List γ⦄, e a ++ r = e a' ++ r' → a = a' ∧ r = r'

/-- A value that may be absent: a tag, and the value if there is one. -/
def optionCode (absent present : γ) (e : α → List γ) : Option α → List γ
  | some a => present :: e a
  | none => [absent]

namespace Delimited

theorem injective (h : Delimited P e) {a a' : α} (ha : P a) (ha' : P a') (heq : e a = e a') :
    a = a' := (h ha ha' (congrArg (· ++ []) heq)).1

theorem mono {P' : α → Prop} (h : Delimited P e) (hP : ∀ a, P' a → P a) : Delimited P' e :=
  fun _ _ ha ha' => h (hP _ ha) (hP _ ha')

theorem of_length {w : ℕ} (hlen : ∀ a, P a → (e a).length = w)
    (hinj : ∀ a a', P a → P a' → e a = e a' → a = a') : Delimited P e := by
  intro a a' ha ha' r r' h
  obtain ⟨heq, hr⟩ := List.append_inj h ((hlen a ha).trans (hlen a' ha').symm)
  exact ⟨hinj a a' ha ha' heq, hr⟩

/-- One encoding behind another. -/
theorem append (he : Delimited P e) (hf : Delimited Q f) :
    Delimited (fun x : α × β => P x.1 ∧ Q x.2) fun x => e x.1 ++ f x.2 := by
  rintro ⟨a, b⟩ ⟨a', b'⟩ ⟨ha, hb⟩ ⟨ha', hb'⟩ r r' h
  rw [List.append_assoc, List.append_assoc] at h
  obtain ⟨rfl, hrest⟩ := he ha ha' h
  obtain ⟨rfl, hr⟩ := hf hb hb' hrest
  exact ⟨rfl, hr⟩

/-- The encoding of a part that determines the value. -/
theorem comp (he : Delimited P e) {g : β → α} (hP : ∀ b, Q b → P (g b))
    (hg : ∀ b b', Q b → Q b' → g b = g b' → b = b') : Delimited Q fun b => e (g b) := by
  intro b b' hb hb' r r' h
  obtain ⟨hgb, hr⟩ := he (hP b hb) (hP b' hb') h
  exact ⟨hg b b' hb hb' hgb, hr⟩

/-- Equally many values one behind the other. -/
theorem flatMap (he : Delimited P e) : ∀ {as as' : List α} {r r' : List γ}, as.length = as'.length →
    (∀ a ∈ as, P a) → (∀ a ∈ as', P a) → as.flatMap e ++ r = as'.flatMap e ++ r' → as = as' ∧ r = r'
  | [], [], _, _, _, _, _, h => ⟨rfl, h⟩
  | a :: as, a' :: as', r, r', hlen, ha, ha', h => by
    rw [List.flatMap_cons, List.flatMap_cons, List.append_assoc, List.append_assoc] at h
    obtain ⟨rfl, hrest⟩ := he (ha _ (List.mem_cons_self ..)) (ha' _ (List.mem_cons_self ..)) h
    obtain ⟨rfl, hr⟩ := he.flatMap (Nat.succ.inj hlen) (fun x hx => ha x (List.mem_cons_of_mem _ hx))
      (fun x hx => ha' x (List.mem_cons_of_mem _ hx)) hrest
    exact ⟨rfl, hr⟩

/-- A list with its length before it. -/
theorem counted {C : ℕ → Prop} {count : ℕ → List γ} (hc : Delimited C count) (he : Delimited P e) :
    Delimited (fun as : List α => C as.length ∧ ∀ a ∈ as, P a)
      fun as => count as.length ++ as.flatMap e := by
  intro as as' ha ha' r r' h
  rw [List.append_assoc, List.append_assoc] at h
  obtain ⟨hlen, h⟩ := hc ha.1 ha'.1 h
  exact he.flatMap hlen ha.2 ha'.2 h

/-- A word with its length before it. -/
theorem countedWord {C : ℕ → Prop} {count : ℕ → List γ} (hc : Delimited C count) :
    Delimited (fun w : List γ => C w.length) fun w => count w.length ++ w := by
  intro w w' hw hw' r r' h
  rw [List.append_assoc, List.append_assoc] at h
  obtain ⟨hlen, hrest⟩ := hc hw hw' h
  exact List.append_inj hrest hlen

/-- A value that may be absent, behind one of two tags. -/
theorem option {absent present : γ} (htag : absent ≠ present) (he : Delimited P e) :
    Delimited (fun o : Option α => ∀ a ∈ o, P a) (optionCode absent present e) := by
  intro o o' ho ho' r r' h
  cases o with
  | none =>
    cases o' with
    | none => exact ⟨rfl, (List.cons.inj h).2⟩
    | some a' => exact absurd (List.cons.inj h).1 htag
  | some a =>
    cases o' with
    | none => exact absurd (List.cons.inj h).1.symm htag
    | some a' =>
      obtain ⟨rfl, hr⟩ := he (ho a rfl) (ho' a' rfl) (List.cons.inj h).2
      exact ⟨rfl, hr⟩

/-- Little-endian numbers of `w` bytes. -/
theorem toLe (w : ℕ) : Delimited (· < 256 ^ w) (Lib.toLe w) :=
  of_length (fun n _ => toLe_length w n) fun m n hm hn h => by rw [← fromLe_toLe hm, h, fromLe_toLe hn]

end Delimited

end KirAi.Lib
