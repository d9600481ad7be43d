/-
# A channel with one receiver, and the handle of a task

A channel has places for so many items. A send waits while all are taken and
fails once the receiver is gone; a receive waits for an item, and is told of
the end when nothing is left and no sender. The handle of a task gets ready
with what the task came to. A runtime brings both; what a program can rely on
are laws of their operations.

Key definitions:
* `Mpsc.View`: what a channel holds, and who is there
* `Mpsc.Api`: the operations of a channel, with their laws
* `JoinHandle.Api`: those of a handle
-/
import Mathlib.Tactic.Common

namespace KirAi.Lib

namespace Mpsc

structure View (α : Type) where
  /-- What was sent and not received. -/
  held : List α
  sending : Bool
  receiving : Bool
deriving DecidableEq, Repr

structure Api (α : Type) (places : ℕ) where
  State : Type
  channel : State
  /-- A send that completes, `none` where it waits or fails. -/
  send : State → α → Option State
  /-- Whether a send fails. -/
  isClosed : State → Bool
  /-- A receive that completes, with no item at the end, `none` where it waits. -/
  recv : State → Option (Option α × State)
  dropSender : State → State
  dropReceiver : State → State
  view : State → View α
  view_channel : view channel = ⟨[], true, true⟩
  view_send : ∀ {c x c'}, send c x = some c' →
    (view c).receiving = true ∧ view c' = { view c with held := (view c).held ++ [x] }
  full_of_send : ∀ {c x}, send c x = none → (view c).receiving = true →
    places ≤ (view c).held.length
  isClosed_eq : ∀ c, isClosed c = !(view c).receiving
  view_recv : ∀ {c x c'}, recv c = some (some x, c') →
    ∃ rest, (view c).held = x :: rest ∧ view c' = { view c with held := rest }
  view_end : ∀ {c c'}, recv c = some (none, c') →
    (view c).held = [] ∧ (view c).sending = false ∧ view c' = view c
  view_wait : ∀ {c}, recv c = none → (view c).receiving = true →
    (view c).held = [] ∧ (view c).sending = true
  view_dropSender : ∀ c, view (dropSender c) = { view c with sending := false }
  view_dropReceiver : ∀ c, view (dropReceiver c) = { view c with held := [], receiving := false }

/-- The channel that is its view. -/
@[reducible]
def Api.queue (α : Type) (places : ℕ) : Api α places where
  State := View α
  channel := ⟨[], true, true⟩
  send c x :=
    if c.receiving = true ∧ c.held.length < places then some { c with held := c.held ++ [x] }
    else none
  isClosed c := !c.receiving
  recv c :=
    match c.held, c.sending with
    | x :: rest, _ => some (some x, { c with held := rest })
    | [], false => some (none, c)
    | [], true => none
  dropSender c := { c with sending := false }
  dropReceiver c := { c with held := [], receiving := false }
  view c := c
  view_channel := rfl
  view_send {c x c'} h := by
    split at h
    · next hroom => exact ⟨hroom.1, (Option.some.inj h).symm⟩
    · cases h
  full_of_send {c x} h hreceiving := by
    split at h
    · cases h
    · next hfull => exact Nat.le_of_not_lt fun hlt => hfull ⟨hreceiving, hlt⟩
  isClosed_eq _ := rfl
  view_recv {c x c'} h := by
    obtain ⟨held, sending, receiving⟩ := c
    cases held with
    | nil => cases sending <;> cases h
    | cons y rest =>
      obtain ⟨hitem, rfl⟩ := Prod.mk.inj (Option.some.inj h)
      obtain rfl := Option.some.inj hitem
      exact ⟨rest, rfl, rfl⟩
  view_end {c c'} h := by
    obtain ⟨held, sending, receiving⟩ := c
    cases held with
    | nil =>
      cases sending with
      | true => cases h
      | false => exact ⟨rfl, rfl, (congrArg Prod.snd (Option.some.inj h)).symm⟩
    | cons y rest => cases h
  view_wait {c} h _ := by
    obtain ⟨held, sending, receiving⟩ := c
    cases held with
    | nil =>
      cases sending with
      | true => exact ⟨rfl, rfl⟩
      | false => cases h
    | cons y rest => cases h
  view_dropSender _ := rfl
  view_dropReceiver _ := rfl

end Mpsc

namespace JoinHandle

structure Api (ρ : Type) where
  State : Type
  spawned : State
  /-- The task has come to its end. -/
  finish : ρ → State → State
  poll : State → Option ρ
  poll_spawned : poll spawned = none
  poll_finish : ∀ r h, poll (finish r h) = some r

/-- The handle that is its answer. -/
@[reducible]
def Api.answer (ρ : Type) : Api ρ where
  State := Option ρ
  spawned := none
  finish r _ := some r
  poll h := h
  poll_spawned := rfl
  poll_finish _ _ := rfl

end JoinHandle

end KirAi.Lib
