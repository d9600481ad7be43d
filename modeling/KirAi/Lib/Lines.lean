/-
# The lines of a text

A line ends with a newline. `split` gives the lines of a text that have ended, and what
stands after the last newline. A text that grows keeps its lines: the ones that are new are
those of the rest with the text that was added (`split_append`).

Key definitions: `split`.
Key theorems: `split_line`, `split_append`.
-/
import Mathlib.Data.List.Basic
import Mathlib.Tactic.Common

namespace KirAi.Lib.Lines

variable {α : Type} [DecidableEq α]

/-- A symbol before a text. -/
def consLine (a : α) : List (List α) × List α → List (List α) × List α
  | ([], rest) => ([], a :: rest)
  | (line :: lines, rest) => ((a :: line) :: lines, rest)

/-- The lines that have ended, and the text after them. -/
def split (newline : α) : List α → List (List α) × List α
  | [] => ([], [])
  | a :: s =>
    if a = newline then ([] :: (split newline s).1, (split newline s).2)
    else consLine a (split newline s)

variable {newline : α}

/-- Text without a newline has no line that ends. -/
theorem split_free : ∀ {s : List α}, newline ∉ s → split newline s = ([], s)
  | [], _ => rfl
  | a :: s, h => by
    have ha : a ≠ newline := fun heq => h (heq ▸ List.mem_cons_self)
    rw [split, if_neg ha, split_free fun hs => h (List.mem_cons_of_mem a hs)]
    rfl

theorem split_line : ∀ {line : List α} (s : List α), newline ∉ line →
    split newline (line ++ newline :: s) =
      (line :: (split newline s).1, (split newline s).2)
  | [], s, _ => by rw [List.nil_append, split, if_pos rfl]
  | a :: line, s, h => by
    have ha : a ≠ newline := fun heq => h (heq ▸ List.mem_cons_self)
    rw [List.cons_append, split, if_neg ha,
      split_line s fun hs => h (List.mem_cons_of_mem a hs)]
    rfl

/-- The lines of a text that grows. -/
theorem split_append : ∀ s t : List α, split newline (s ++ t) =
    ((split newline s).1 ++ (split newline ((split newline s).2 ++ t)).1,
      (split newline ((split newline s).2 ++ t)).2)
  | [], t => rfl
  | a :: s, t => by
    have ih := split_append s t
    rw [List.cons_append, split, split]
    by_cases ha : a = newline
    · rw [if_pos ha, if_pos ha, ih]
      rfl
    · rw [if_neg ha, if_neg ha, ih]
      cases hsplit : split newline s with
      | mk lines rest =>
        cases lines with
        | nil =>
          show consLine a ([] ++ (split newline (rest ++ t)).1, (split newline (rest ++ t)).2) =
            ([] ++ (split newline (a :: (rest ++ t))).1, (split newline (a :: (rest ++ t))).2)
          rw [List.nil_append, List.nil_append, split, if_neg ha]
        | cons line lines => rfl

end KirAi.Lib.Lines
