/-
# Streams of events that may fail

A stream body yields events one after another and ends with a value or an error; an
error ends it at once, and what was yielded before it stays. `TryStream` is the monad
of such bodies and `loop` the loop over the items of an input stream, left by an exit
or when the input ends.

`Ensures` is the triple of the logic for it: what holds of the events so far and of the
value when the body ends well, and what holds of the events so far and of the error when
it does not. There is one rule for each construct; `ensures_loop` is the loop rule, its
invariant speaks of the items read, the events so far and the loop state.

Where only the events matter, `Emits p` says that all of them satisfy `p`.

Key definitions:
* `TryStream`, `yield`, `fail`, `orFail`, `Flow`, `loop`
* `Ensures`, `Emits`

Key theorems:
* `ensures_bind`, `ensures_loop`, `ensures_mono`
-/
import Mathlib.Data.List.Basic
import Mathlib.Tactic.Common

namespace KirAi.Lib

/-- The events a stream yields, and how it ends. -/
structure TryStream (ev err α : Type) where
  events : List ev
  result : Except err α

namespace TryStream

variable {ev err α β σ ι : Type}

def yield (e : ev) : TryStream ev err Unit := ⟨[e], .ok ()⟩

def fail (e : err) : TryStream ev err α := ⟨[], .error e⟩

def orFail : Except err α → TryStream ev err α
  | .ok a => ⟨[], .ok a⟩
  | .error e => fail e

/-- The events of `m`, then those of `f` if `m` ended well. -/
def andThen (m : TryStream ev err α) (f : α → TryStream ev err β) : TryStream ev err β :=
  match m.result with
  | .ok a => ⟨m.events ++ (f a).events, (f a).result⟩
  | .error e => ⟨m.events, .error e⟩

instance : Monad (TryStream ev err) where
  pure a := ⟨[], .ok a⟩
  bind := andThen

/-- How an iteration ends: on to the next item, or out of the loop. -/
inductive Flow (σ : Type)
  | next (s : σ)
  | exit (s : σ)

/-- One iteration for each item of the input, until one exits. -/
def loop (body : σ → ι → TryStream ev err (Flow σ)) : σ → List ι → TryStream ev err σ
  | s, [] => pure s
  | s, i :: is =>
    body s i >>= fun
      | .next s' => loop body s' is
      | .exit s' => pure s'

theorem loop_map {κ : Type} (f : κ → ι) (body : σ → ι → TryStream ev err (Flow σ)) :
    ∀ (s : σ) (ks : List κ), loop body s (ks.map f) = loop (fun s k => body s (f k)) s ks
  | _, [] => rfl
  | s, k :: ks => by
    simp only [List.map_cons, loop]
    congr 1
    funext r
    cases r with
    | next s' => exact loop_map f body s' ks
    | exit s' => rfl

/-- After the events `evs`, the stream ends with `Q` of all events and the value, or with
`E` of all events and the error. -/
def Ensures (m : TryStream ev err α) (evs : List ev) (Q : List ev → α → Prop)
    (E : List ev → err → Prop) : Prop :=
  match m.result with
  | .ok a => Q (evs ++ m.events) a
  | .error e => E (evs ++ m.events) e

variable {evs : List ev} {Q : List ev → α → Prop} {E : List ev → err → Prop}

theorem ensures_pure {a : α} (h : Q evs a) : Ensures (pure a) evs Q E := by
  simpa [Ensures, pure] using h

theorem ensures_yield {e : ev} {Q : List ev → Unit → Prop} (h : Q (evs ++ [e]) ()) :
    Ensures (yield e) evs Q E := h

theorem ensures_fail {e : err} (h : E evs e) : Ensures (fail e) evs Q E := by
  simpa [Ensures, fail] using h

theorem ensures_orFail {r : Except err α} (hok : ∀ a, r = .ok a → Q evs a)
    (herr : ∀ e, r = .error e → E evs e) : Ensures (orFail r) evs Q E := by
  cases r with
  | ok a => exact ensures_pure (hok a rfl)
  | error e => exact ensures_fail (herr e rfl)

theorem ensures_bind {m : TryStream ev err α} {f : α → TryStream ev err β}
    {Q : List ev → β → Prop}
    (h : Ensures m evs (fun evs' a => Ensures (f a) evs' Q E) E) :
    Ensures (m >>= f) evs Q E := by
  obtain ⟨es, r⟩ := m
  cases r with
  | ok a => simpa [Ensures, bind, andThen, List.append_assoc] using h
  | error e => exact h

theorem ensures_mono {m : TryStream ev err α} {Q' : List ev → α → Prop}
    {E' : List ev → err → Prop} (h : Ensures m evs Q E) (hQ : ∀ evs a, Q evs a → Q' evs a)
    (hE : ∀ evs e, E evs e → E' evs e) : Ensures m evs Q' E' := by
  unfold Ensures at h ⊢
  split at h
  · exact hQ _ _ h
  · exact hE _ _ h

theorem ensures_and {m : TryStream ev err α} {Q' : List ev → α → Prop} {E' : List ev → err → Prop}
    (h : Ensures m evs Q E) (h' : Ensures m evs Q' E') :
    Ensures m evs (fun evs' a => Q evs' a ∧ Q' evs' a) (fun evs' e => E evs' e ∧ E' evs' e) := by
  unfold Ensures at h h' ⊢
  split at h
  · next hr =>
    rw [hr] at h'
    exact ⟨h, h'⟩
  · next hr =>
    rw [hr] at h'
    exact ⟨h, h'⟩

theorem Ensures.of_ok {m : TryStream ev err α} {a : α} (h : Ensures m [] Q E)
    (hr : m.result = .ok a) : Q m.events a := by
  simpa [Ensures, hr] using h

theorem Ensures.of_error {m : TryStream ev err α} {e : err} (h : Ensures m [] Q E)
    (hr : m.result = .error e) : E m.events e := by
  simpa [Ensures, hr] using h

section Loop

variable {body : σ → ι → TryStream ev err (Flow σ)} {Q : List ev → σ → Prop} {all : List ι}
  (I D : List ι → List ev → σ → Prop)

theorem ensures_loop_from
    (hbody : ∀ pre i rest evs s, I pre evs s → pre ++ i :: rest = all →
      Ensures (body s i) evs (fun evs' r => match r with
        | .next s' => I (pre ++ [i]) evs' s'
        | .exit s' => D (pre ++ [i]) evs' s') E)
    (hend : ∀ evs s, I all evs s → Q evs s)
    (hexit : ∀ pre evs s, pre <+: all → D pre evs s → Q evs s) :
    ∀ (is pre : List ι) (evs : List ev) (s : σ), pre ++ is = all → I pre evs s →
      Ensures (loop body s is) evs Q E
  | [], pre, evs, s, hall, hI => by
    rw [List.append_nil] at hall
    exact ensures_pure (hend evs s (hall ▸ hI))
  | i :: is, pre, evs, s, hall, hI => by
    refine ensures_bind (ensures_mono (hbody pre i is evs s hI hall) (fun evs' r h => ?_)
      fun _ _ h => h)
    have hall' : (pre ++ [i]) ++ is = all := by simpa using hall
    cases r with
    | next s' => exact ensures_loop_from hbody hend hexit is (pre ++ [i]) evs' s' hall' h
    | exit s' => exact ensures_pure (hexit (pre ++ [i]) evs' s' ⟨is, hall'⟩ h)

/-- The loop rule. `I` holds after the items read so far, `D` where an iteration exits. -/
theorem ensures_loop {s : σ}
    (hbody : ∀ pre i rest evs s, I pre evs s → pre ++ i :: rest = all →
      Ensures (body s i) evs (fun evs' r => match r with
        | .next s' => I (pre ++ [i]) evs' s'
        | .exit s' => D (pre ++ [i]) evs' s') E)
    (hend : ∀ evs s, I all evs s → Q evs s)
    (hexit : ∀ pre evs s, pre <+: all → D pre evs s → Q evs s) (hI : I [] evs s) :
    Ensures (loop body s all) evs Q E :=
  ensures_loop_from I D hbody hend hexit all [] evs s rfl hI

end Loop

/-! ### Events alone -/

/-- Every event of the stream satisfies `p`. -/
def Emits (p : ev → Prop) (m : TryStream ev err α) : Prop := ∀ e ∈ m.events, p e

section Emits

variable {p : ev → Prop} {m : TryStream ev err α}

theorem emits_pure (a : α) : Emits p (pure a : TryStream ev err α) := by
  intro e he
  cases he

theorem emits_fail (e : err) : Emits p (fail e : TryStream ev err α) := by
  intro e he
  cases he

theorem emits_orFail (r : Except err α) : Emits p (orFail r : TryStream ev err α) := by
  cases r with
  | ok a => exact emits_pure a
  | error e => exact emits_fail e

theorem emits_yield {e : ev} (h : p e) : Emits p (yield e : TryStream ev err Unit) := by
  intro e' he
  rwa [List.mem_singleton.1 he]

theorem emits_bind {f : α → TryStream ev err β} (hm : Emits p m) (hf : ∀ a, Emits p (f a)) :
    Emits p (m >>= f) := by
  obtain ⟨es, r⟩ := m
  cases r with
  | ok a =>
    intro e he
    rcases List.mem_append.1 he with h | h
    · exact hm e h
    · exact hf a e h
  | error e => exact hm

/-- A stream whose events all satisfy `p` keeps what holds of the events so far. -/
theorem ensures_of_emits {q : ev → Prop} (hm : Emits p m) (hp : ∀ e, p e → q e)
    (h : ∀ e ∈ evs, q e) :
    Ensures m evs (fun evs' _ => ∀ e ∈ evs', q e) (fun evs' _ => ∀ e ∈ evs', q e) := by
  have hall : ∀ e ∈ evs ++ m.events, q e := by
    intro e he
    rcases List.mem_append.1 he with h' | h'
    · exact h e h'
    · exact hp e (hm e h')
  unfold Ensures
  split <;> exact hall

/-- After a stream whose events all satisfy `p`, only such events have been added. -/
theorem ensures_after (hm : Emits p m) {Q : List ev → α → Prop}
    (hQ : ∀ es a, (∀ e ∈ es, p e) → Q (evs ++ es) a) : Ensures m evs Q (fun _ _ => True) := by
  unfold Ensures
  split
  · exact hQ _ _ hm
  · trivial

/-- An event that was yielded stays. -/
theorem ensures_mem {e : ev} (h : e ∈ evs) :
    Ensures m evs (fun evs' _ => e ∈ evs') (fun evs' _ => e ∈ evs') := by
  have hall : e ∈ evs ++ m.events := List.mem_append_left _ h
  unfold Ensures
  split <;> exact hall

end Emits

end TryStream

end KirAi.Lib
