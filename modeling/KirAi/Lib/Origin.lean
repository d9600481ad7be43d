/-
# Text with the origin of its symbols

A text that a template writes around texts it is given: every symbol carries where it
comes from (`Origin`). `Guarded tokens out` says that each occurrence of a token is written
by the template from its first symbol to its last. It survives what the template writes and
what it inserts, as long as a token cannot begin in the old text and end in the new one:
the old text ends where no token can be under way (`Shut`), or the new one starts with a
symbol that no token has after its first (`Anew`).

Key definitions: `Origin`, `Marked`, `Guarded`, `Shut`, `Anew`.
Key theorems: `Guarded.append`, `guarded_append_iff`, `guarded_insert_iff`, `shut_append`,
`anew_append`.
-/
import Mathlib.Data.List.Infix
import Mathlib.Tactic.Common

namespace KirAi.Lib

inductive Origin
  | template
  | inserted
deriving DecidableEq, Repr

/-- A text whose symbols carry their origin. -/
abbrev Marked (α : Type) := List (α × Origin)

namespace Marked

variable {α : Type}

def text (out : Marked α) : List α := out.map (·.1)

def mark (origin : Origin) (s : List α) : Marked α := s.map (·, origin)

/-- The template writes `s`. -/
def write (out : Marked α) (s : List α) : Marked α := out ++ mark .template s

/-- The template inserts `s`, which it was given. -/
def insert (out : Marked α) (s : List α) : Marked α := out ++ mark .inserted s

@[simp] theorem text_append (out out' : Marked α) : text (out ++ out') = text out ++ text out' :=
  List.map_append

@[simp] theorem text_mark (origin : Origin) (s : List α) : text (mark origin s) = s := by
  rw [text, mark, List.map_map]
  exact List.map_id s

@[simp] theorem text_write (out : Marked α) (s : List α) : (out.write s).text = out.text ++ s := by
  rw [write, text_append, text_mark]

@[simp] theorem text_insert (out : Marked α) (s : List α) :
    (out.insert s).text = out.text ++ s := by
  rw [insert, text_append, text_mark]

theorem mem_mark {origin : Origin} {s : List α} {x : α × Origin} (h : x ∈ mark origin s) :
    x.2 = origin := by
  obtain ⟨a, -, rfl⟩ := List.mem_map.1 h
  rfl

end Marked

open Marked

variable {α : Type} (tokens : List (List α))

/-- Every occurrence of a token is written by the template. -/
def Guarded (out : Marked α) : Prop :=
  ∀ p : Marked α, p <:+: out → text p ∈ tokens → ∀ x ∈ p, x.2 = .template

/-- No token is under way at the end of the text. -/
def Shut (s : List α) : Prop := ∀ x y, x ++ y ∈ tokens → x ≠ [] → y ≠ [] → ¬x <:+ s

/-- No token that is under way goes on with the text. -/
def Anew (s : List α) : Prop := ∀ x y, x ++ y ∈ tokens → x ≠ [] → y ≠ [] → ¬y <+: s

/-- No token stands in the text. -/
def FreeOf (s : List α) : Prop := ∀ t ∈ tokens, ¬t <:+: s

instance [DecidableEq α] (s : List α) : Decidable (FreeOf tokens s) :=
  inferInstanceAs (Decidable (∀ t ∈ tokens, ¬t <:+: s))

variable {tokens}

theorem guarded_nil (h : [] ∉ tokens) : Guarded tokens ([] : Marked α) := by
  intro p hp htoken
  rw [List.infix_nil.1 hp] at htoken
  exact absurd htoken h

/-- A text that is continued where no token can cross the border. -/
theorem Guarded.append {out new : Marked α} (h : Guarded tokens out) (hnew : Guarded tokens new)
    (hborder : Shut tokens out.text ∨ Anew tokens new.text) : Guarded tokens (out ++ new) := by
  intro p hp htoken
  rcases List.infix_append_iff_ne_nil.1 hp with hp | hp | ⟨x, y, hx, hy, rfl, hxs, hys⟩
  · exact h p hp htoken
  · exact hnew p hp htoken
  · exfalso
    rw [text_append] at htoken
    have hx' : text x ≠ [] := fun hnil => hx (List.map_eq_nil_iff.1 hnil)
    have hy' : text y ≠ [] := fun hnil => hy (List.map_eq_nil_iff.1 hnil)
    rcases hborder with hshut | hanew
    · exact hshut _ _ htoken hx' hy' (hxs.map _)
    · exact hanew _ _ htoken hx' hy' (hys.map _)

theorem guarded_mark_template (s : List α) : Guarded tokens (mark .template s) :=
  fun _ hp _ _ hx => mem_mark (hp.subset hx)

theorem FreeOf.of_infix {s s' : List α} (h : FreeOf tokens s) (hs : s' <:+: s) :
    FreeOf tokens s' :=
  fun t ht hts => h t ht (hts.trans hs)

theorem FreeOf.mono {tokens' : List (List α)} {s : List α} (h : FreeOf tokens s)
    (hsub : tokens' ⊆ tokens) : FreeOf tokens' s :=
  fun t ht => h t (hsub ht)

theorem freeOf_nil (h : [] ∉ tokens) : FreeOf tokens ([] : List α) := by
  intro t ht hnil
  exact h (List.infix_nil.1 hnil ▸ ht)

theorem FreeOf.guarded_mark {s : List α} (h : FreeOf tokens s) (origin : Origin) :
    Guarded tokens (mark origin s) := by
  intro p hp htoken
  have hinfix := hp.map Prod.fst
  rw [← text, ← text, text_mark] at hinfix
  exact absurd hinfix (h _ htoken)

theorem Guarded.write {out : Marked α} (h : Guarded tokens out) {s : List α}
    (hborder : Shut tokens out.text ∨ Anew tokens s) : Guarded tokens (out.write s) :=
  h.append (guarded_mark_template s) (hborder.imp id fun ha => by rwa [text_mark])

theorem Guarded.insert {out : Marked α} (h : Guarded tokens out) {s : List α}
    (hs : FreeOf tokens s) (hborder : Shut tokens out.text ∨ Anew tokens s) :
    Guarded tokens (out.insert s) :=
  h.append (hs.guarded_mark .inserted) (hborder.imp id fun ha => by rwa [text_mark])

/-- A token in an inserted text is not written by the template. -/
theorem not_guarded_of_infix {out : Marked α} {s t : List α} (hs : mark .inserted s <:+: out)
    (ht : t ∈ tokens) (hne : t ≠ []) (hts : t <:+: s) : ¬Guarded tokens out := by
  intro h
  have hinfix : mark .inserted t <:+: out := (hts.map _).trans hs
  have hown := h (mark .inserted t) hinfix (by rwa [text_mark])
  obtain ⟨a, t, rfl⟩ := List.exists_cons_of_ne_nil hne
  cases hown (a, .inserted) List.mem_cons_self

/-! ### Exactly when a text is guarded -/

theorem Guarded.of_infix {out out' : Marked α} (h : Guarded tokens out') (hsub : out <:+: out') :
    Guarded tokens out :=
  fun p hp => h p (hp.trans hsub)

theorem guarded_append_iff {out new : Marked α}
    (hborder : Shut tokens out.text ∨ Anew tokens new.text) :
    Guarded tokens (out ++ new) ↔ Guarded tokens out ∧ Guarded tokens new :=
  ⟨fun h => ⟨h.of_infix (List.prefix_append ..).isInfix, h.of_infix (List.suffix_append ..).isInfix⟩,
    fun h => h.1.append h.2 hborder⟩

theorem guarded_write_iff {out : Marked α} {s : List α}
    (hborder : Shut tokens out.text ∨ Anew tokens s) :
    Guarded tokens (out.write s) ↔ Guarded tokens out :=
  ⟨fun h => h.of_infix (List.prefix_append ..).isInfix, fun h => h.write hborder⟩

theorem guarded_mark_inserted_iff (hne : [] ∉ tokens) {s : List α} :
    Guarded tokens (mark .inserted s) ↔ FreeOf tokens s := by
  refine ⟨fun h t ht hts => ?_, fun h => h.guarded_mark .inserted⟩
  exact not_guarded_of_infix List.infix_rfl ht (fun hnil => hne (hnil ▸ ht)) hts h

theorem guarded_insert_iff (hne : [] ∉ tokens) {out : Marked α} {s : List α}
    (hborder : Shut tokens out.text ∨ Anew tokens s) :
    Guarded tokens (out.insert s) ↔ Guarded tokens out ∧ FreeOf tokens s := by
  rw [Marked.insert, guarded_append_iff (hborder.imp id fun ha => by rwa [text_mark]),
    guarded_mark_inserted_iff hne]

theorem freeOf_append_iff (hne : [] ∉ tokens) {s s' : List α}
    (hborder : Shut tokens s ∨ Anew tokens s') :
    FreeOf tokens (s ++ s') ↔ FreeOf tokens s ∧ FreeOf tokens s' := by
  have hmark : mark .inserted (s ++ s') = mark .inserted s ++ mark .inserted s' := List.map_append
  rw [← guarded_mark_inserted_iff hne, ← guarded_mark_inserted_iff hne,
    ← guarded_mark_inserted_iff hne, hmark, guarded_append_iff]
  rwa [text_mark, text_mark]

/-! ### Borders by their symbols -/

/-- A text that ends with a symbol that no token has before its last. -/
def endsOutside [DecidableEq α] (tokens : List (List α)) (s : List α) : Bool :=
  s.getLast?.any fun c => tokens.all fun t => decide (c ∉ t.dropLast)

/-- A text that starts with a symbol that no token has after its first. -/
def startsOutside [DecidableEq α] (tokens : List (List α)) (s : List α) : Bool :=
  s.head?.any fun c => tokens.all fun t => decide (c ∉ t.tail)

variable [DecidableEq α]

theorem shut_append {s : List α} (hs : endsOutside tokens s = true) (u : List α) :
    Shut tokens (u ++ s) := by
  intro x y htoken hx hy hsuffix
  obtain ⟨c, hc, hall⟩ := (Option.any_eq_true ..).1 hs
  have hlast : (u ++ s).getLast? = some c := by rw [List.getLast?_append, hc, Option.some_or]
  obtain ⟨x', a, rfl⟩ := List.eq_nil_or_concat x |>.resolve_left hx
  obtain ⟨v, hv⟩ := hsuffix
  rw [List.concat_eq_append] at hv htoken
  rw [← hv, ← List.append_assoc, List.getLast?_concat] at hlast
  obtain rfl := Option.some.inj hlast
  have hnot := List.all_eq_true.1 hall _ htoken
  rw [decide_eq_true_eq, List.dropLast_append_of_ne_nil hy] at hnot
  exact hnot (by simp)

theorem shut_of_endsOutside {s : List α} (hs : endsOutside tokens s = true) : Shut tokens s := by
  have h := shut_append hs []
  rwa [List.nil_append] at h

theorem anew_append {s : List α} (hs : startsOutside tokens s = true) (u : List α) :
    Anew tokens (s ++ u) := by
  intro x y htoken hx hy hpre
  obtain ⟨c, hc, hall⟩ := (Option.any_eq_true ..).1 hs
  obtain ⟨s', rfl⟩ := List.head?_eq_some_iff.1 hc
  obtain ⟨b, y', rfl⟩ := List.exists_cons_of_ne_nil hy
  obtain ⟨a, x', rfl⟩ := List.exists_cons_of_ne_nil hx
  obtain ⟨v, hv⟩ := hpre
  obtain ⟨rfl, -⟩ := List.cons.inj hv
  have hnot := List.all_eq_true.1 hall _ htoken
  rw [decide_eq_true_eq] at hnot
  exact hnot (by simp)

theorem anew_of_startsOutside {s : List α} (hs : startsOutside tokens s = true) : Anew tokens s := by
  have h := anew_append hs []
  rwa [List.append_nil] at h

end KirAi.Lib
