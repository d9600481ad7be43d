/-
# The registry of active requests

`engine/requests.rs`: one entry for each request id, made by `register` together with
a guard (`ActiveRequest`) and removed when that guard is dropped. Every method is
one lock, so a run is a sequence of method calls by any parties, and the guards alive
are part of the state. A guard and its entry share a cancellation token; tokens are
numbered as they are made.

The owner of a guard reports how its request ended (`lifecycle.rs`, `streaming.rs`):
`Finish` lists the ways, and `Finish.report` is what is reported for each answer of
`mark_finished`.

Key definitions:
* `Registry`, `RegistryEvent`, `Registry.step`, `Registry.run`
* `RegistryInv`: entries and live guards are the same
* `RegistryProtocol`: the guarantee

Key theorem:
* `registry_protocol`
-/
import KirAi.Lib.FiniteMap

namespace KirAi.Server

open Lib

inductive ActiveRequestState
  | queued
  | running
  | cancelled
  | finished
deriving DecidableEq, Repr

structure ActiveRequestEntry where
  cancellation : ℕ
  state : ActiveRequestState
deriving DecidableEq, Repr

/-- The guard of a registered request. -/
structure ActiveRequest where
  id : String
  cancellation : ℕ
deriving DecidableEq, Repr

inductive RequestRegistrationError
  | conflict (id : String)
deriving DecidableEq, Repr

inductive CancelRequestResult
  | cancelled
  | alreadyCancelled
  | finished
  | notFound
deriving DecidableEq, Repr

inductive RequestStartResult
  | running
  | cancelled
  | finished
  | missing
deriving DecidableEq, Repr

inductive RequestFinishResult
  | finished
  | cancelled
  | missing
deriving DecidableEq, Repr

/-- The registry, with the tokens made and cancelled so far and the guards alive. -/
structure Registry where
  active : Std.ExtTreeMap String ActiveRequestEntry
  nextToken : ℕ
  cancelled : List ℕ
  guards : List ActiveRequest

namespace Registry

def empty : Registry := ⟨∅, 0, [], []⟩

def register (r : Registry) (id : String) :
    Except RequestRegistrationError (Registry × ActiveRequest) :=
  if r.active.contains id then .error (.conflict id)
  else
    let guard : ActiveRequest := ⟨id, r.nextToken⟩
    .ok ({ r with
      active := r.active.insert id ⟨r.nextToken, .queued⟩
      nextToken := r.nextToken + 1
      guards := r.guards ++ [guard] }, guard)

def cancel (r : Registry) (id : String) : Registry × CancelRequestResult :=
  match r.active[id]? with
  | none => (r, .notFound)
  | some entry =>
    match entry.state with
    | .queued | .running =>
      ({ r with
        active := r.active.insert id { entry with state := .cancelled }
        cancelled := entry.cancellation :: r.cancelled }, .cancelled)
    | .cancelled => (r, .alreadyCancelled)
    | .finished => (r, .finished)

def markRunning (r : Registry) (guard : ActiveRequest) : Registry × RequestStartResult :=
  match r.active[guard.id]? with
  | none => (r, .missing)
  | some entry =>
    match entry.state with
    | .queued =>
      ({ r with active := r.active.insert guard.id { entry with state := .running } }, .running)
    | .running => (r, .running)
    | .cancelled => (r, .cancelled)
    | .finished => (r, .finished)

def markFinished (r : Registry) (guard : ActiveRequest) : Registry × RequestFinishResult :=
  match r.active[guard.id]? with
  | none => (r, .missing)
  | some entry =>
    match entry.state with
    | .queued | .running =>
      ({ r with active := r.active.insert guard.id { entry with state := .finished } }, .finished)
    | .cancelled => (r, .cancelled)
    | .finished => (r, .finished)

def dropGuard (r : Registry) (guard : ActiveRequest) : Registry :=
  { r with active := r.active.erase guard.id, guards := r.guards.erase guard }

end Registry

/-- A call of some party. `cancelToken` is the owner cancelling its own token, as a
stalled or disconnected stream does. -/
inductive RegistryEvent
  | register (id : String)
  | cancel (id : String)
  | markRunning (guard : ActiveRequest)
  | markFinished (guard : ActiveRequest)
  | cancelToken (guard : ActiveRequest)
  | drop (guard : ActiveRequest)
deriving DecidableEq, Repr

namespace Registry

/-- One call; only a guard that is alive can be used. -/
def step (r : Registry) : RegistryEvent → Option Registry
  | .register id =>
    match r.register id with
    | .ok (r', _) => some r'
    | .error _ => some r
  | .cancel id => some (r.cancel id).1
  | .markRunning guard => if guard ∈ r.guards then some (r.markRunning guard).1 else none
  | .markFinished guard => if guard ∈ r.guards then some (r.markFinished guard).1 else none
  | .cancelToken guard =>
    if guard ∈ r.guards then some { r with cancelled := guard.cancellation :: r.cancelled } else none
  | .drop guard => if guard ∈ r.guards then some (r.dropGuard guard) else none

def run (r : Registry) : List RegistryEvent → Option Registry
  | [] => some r
  | e :: es => (r.step e).bind fun r' => run r' es

end Registry

/-! ### How a request is reported to have ended -/

inductive EndReport
  | success
  | runtimeError
  | requestCancelled (phase message : String)
  | backendFailed (message : String)
  | stalled
  | endedWithoutCompletion
deriving DecidableEq, Repr

/-- The ways the owner of a guard ends its request. -/
inductive Finish
  | success
  | runtimeError
  | cancellation (message phase : String)
  | stall
  | eof
deriving DecidableEq, Repr

/-- The common shape: a report of its own, unless the request was cancelled or is gone. -/
def EndReport.unlessCancelled (report : EndReport) (before : String) :
    RequestFinishResult → EndReport
  | .finished => report
  | .cancelled => .requestCancelled "decode" ("request was cancelled before " ++ before)
  | .missing => .backendFailed ("request lifecycle was missing before " ++ before)

def Finish.report : Finish → RequestFinishResult → EndReport
  | .success => EndReport.success.unlessCancelled "response delivery"
  | .runtimeError => EndReport.runtimeError.unlessCancelled "error delivery"
  | .stall => EndReport.stalled.unlessCancelled "stream stall"
  | .eof => EndReport.endedWithoutCompletion.unlessCancelled "stream completion"
  -- a stream that ends by cancellation says so whether or not the registry knew
  | .cancellation message phase => fun
    | .finished | .cancelled => .requestCancelled phase message
    | .missing => .backendFailed "request lifecycle was missing before stream cancellation"

/-- Success is reported only by a successful end of a request that was not cancelled. -/
theorem Finish.report_eq_success {finish : Finish} {result : RequestFinishResult}
    (h : finish.report result = .success) : finish = .success ∧ result = .finished := by
  cases finish <;> cases result <;> first | exact ⟨rfl, rfl⟩ | cases h

/-! ### What a call can do -/

def ActiveRequestState.IsOpen (state : ActiveRequestState) : Prop :=
  state = .queued ∨ state = .running

namespace Registry

variable {r r' : Registry} {e : RegistryEvent} {id : String} {guard : ActiveRequest}

/-- The entry of `id` moves on to `state`. -/
def update (r : Registry) (id : String) (entry : ActiveRequestEntry) (state : ActiveRequestState) :
    Registry :=
  { r with active := r.active.insert id { entry with state := state } }

theorem cancel_cases (r : Registry) (id : String) :
    r.cancel id = (r, .notFound) ∧ r.active[id]? = none ∨
    ∃ entry, r.active[id]? = some entry ∧
      (r.cancel id = (r, .alreadyCancelled) ∧ entry.state = .cancelled ∨
        r.cancel id = (r, .finished) ∧ entry.state = .finished ∨
        r.cancel id = ({ r.update id entry .cancelled with
          cancelled := entry.cancellation :: r.cancelled }, .cancelled) ∧ entry.state.IsOpen) := by
  unfold cancel
  cases h : r.active[id]? with
  | none => exact .inl ⟨rfl, rfl⟩
  | some entry =>
    refine .inr ⟨entry, rfl, ?_⟩
    cases hs : entry.state with
    | queued => exact .inr (.inr ⟨by simp only [hs]; rfl, .inl rfl⟩)
    | running => exact .inr (.inr ⟨by simp only [hs]; rfl, .inr rfl⟩)
    | cancelled => exact .inl ⟨by simp only [hs], rfl⟩
    | finished => exact .inr (.inl ⟨by simp only [hs], rfl⟩)

theorem markFinished_cases (r : Registry) (guard : ActiveRequest) :
    r.markFinished guard = (r, .missing) ∧ r.active[guard.id]? = none ∨
    ∃ entry, r.active[guard.id]? = some entry ∧
      (r.markFinished guard = (r, .cancelled) ∧ entry.state = .cancelled ∨
        r.markFinished guard = (r, .finished) ∧ entry.state = .finished ∨
        r.markFinished guard = (r.update guard.id entry .finished, .finished) ∧
          entry.state.IsOpen) := by
  unfold markFinished
  cases h : r.active[guard.id]? with
  | none => exact .inl ⟨rfl, rfl⟩
  | some entry =>
    refine .inr ⟨entry, rfl, ?_⟩
    cases hs : entry.state with
    | queued => exact .inr (.inr ⟨by simp only [hs]; rfl, .inl rfl⟩)
    | running => exact .inr (.inr ⟨by simp only [hs]; rfl, .inr rfl⟩)
    | cancelled => exact .inl ⟨by simp only [hs], rfl⟩
    | finished => exact .inr (.inl ⟨by simp only [hs], rfl⟩)

theorem markRunning_cases (r : Registry) (guard : ActiveRequest) :
    (r.markRunning guard).1 = r ∨ ∃ entry, r.active[guard.id]? = some entry ∧
      entry.state.IsOpen ∧ (r.markRunning guard).1 = r.update guard.id entry .running := by
  unfold markRunning
  cases h : r.active[guard.id]? with
  | none => exact .inl rfl
  | some entry =>
    cases hs : entry.state with
    | queued => exact .inr ⟨entry, rfl, .inl hs, by simp only [hs]; rfl⟩
    | running => exact .inl (by simp only [hs])
    | cancelled => exact .inl (by simp only [hs])
    | finished => exact .inl (by simp only [hs])

/-- All a call can do to the registry. -/
inductive Change (r : Registry) : Registry → Prop
  | same : Change r r
  | registered (id : String) (h : r.active[id]? = none) :
      Change r { r with
        active := r.active.insert id ⟨r.nextToken, .queued⟩
        nextToken := r.nextToken + 1
        guards := r.guards ++ [⟨id, r.nextToken⟩] }
  | moved (id : String) (entry : ActiveRequestEntry) (state : ActiveRequestState)
      (h : r.active[id]? = some entry) (ho : entry.state.IsOpen) (hs : state ≠ .cancelled) :
      Change r (r.update id entry state)
  | cancelled (id : String) (entry : ActiveRequestEntry) (h : r.active[id]? = some entry)
      (ho : entry.state.IsOpen) :
      Change r { r.update id entry .cancelled with cancelled := entry.cancellation :: r.cancelled }
  | token (guard : ActiveRequest) :
      Change r { r with cancelled := guard.cancellation :: r.cancelled }
  | dropped (guard : ActiveRequest) (h : guard ∈ r.guards) : Change r (r.dropGuard guard)

theorem step_change (h : r.step e = some r') : Change r r' := by
  cases e with
  | register id =>
    simp only [step, register] at h
    by_cases hc : r.active.contains id = true
    · simp only [hc, if_true] at h
      obtain rfl := Option.some.inj h
      exact .same
    · simp only [hc, Bool.false_eq_true, if_false] at h
      obtain rfl := Option.some.inj h
      refine .registered id ?_
      rw [Std.ExtTreeMap.contains_eq_isSome_getElem?] at hc
      simpa using hc
  | cancel id =>
    obtain rfl := Option.some.inj h
    rcases cancel_cases r id with ⟨hc, -⟩ | ⟨entry, he, ⟨hc, -⟩ | ⟨hc, -⟩ | ⟨hc, ho⟩⟩
    · rw [hc]; exact .same
    · rw [hc]; exact .same
    · rw [hc]; exact .same
    · rw [hc]; exact .cancelled id entry he ho
  | markRunning guard =>
    obtain ⟨-, h⟩ := Option.ite_none_right_eq_some.mp h
    obtain rfl := Option.some.inj h
    rcases markRunning_cases r guard with hm | ⟨entry, he, ho, hm⟩
    · rw [hm]; exact .same
    · rw [hm]; exact .moved _ entry _ he ho nofun
  | markFinished guard =>
    obtain ⟨-, h⟩ := Option.ite_none_right_eq_some.mp h
    obtain rfl := Option.some.inj h
    rcases markFinished_cases r guard with ⟨hm, -⟩ | ⟨entry, he, ⟨hm, -⟩ | ⟨hm, -⟩ | ⟨hm, ho⟩⟩
    · rw [hm]; exact .same
    · rw [hm]; exact .same
    · rw [hm]; exact .same
    · rw [hm]; exact .moved _ entry _ he ho nofun
  | cancelToken guard =>
    obtain ⟨-, h⟩ := Option.ite_none_right_eq_some.mp h
    obtain rfl := Option.some.inj h
    exact .token guard
  | drop guard =>
    obtain ⟨hg, h⟩ := Option.ite_none_right_eq_some.mp h
    obtain rfl := Option.some.inj h
    exact .dropped guard hg

end Registry

/-! ### Entries and live guards -/

/-- An entry is there exactly while its guard is alive, and an entry marked as
cancelled has its token cancelled. -/
structure RegistryInv (r : Registry) : Prop where
  entries : ∀ (id : String) (token : ℕ),
    (∃ state, r.active[id]? = some ⟨token, state⟩) ↔ (⟨id, token⟩ : ActiveRequest) ∈ r.guards
  nodup : r.guards.Nodup
  fresh : ∀ guard ∈ r.guards, guard.cancellation < r.nextToken
  token : ∀ (id : String) (entry : ActiveRequestEntry), r.active[id]? = some entry →
    entry.state = .cancelled → entry.cancellation ∈ r.cancelled

namespace RegistryInv

variable {r r' : Registry} {id : String} {guard : ActiveRequest}

theorem empty : RegistryInv Registry.empty where
  entries id token := by simp [Registry.empty]
  nodup := List.nodup_nil
  fresh _ h := by simp [Registry.empty] at h
  token id entry h := by simp [Registry.empty] at h

/-- Two live guards of one id are one. -/
theorem guard_unique (h : RegistryInv r) {g₁ g₂ : ActiveRequest} (h₁ : g₁ ∈ r.guards)
    (h₂ : g₂ ∈ r.guards) (hid : g₁.id = g₂.id) : g₁ = g₂ := by
  obtain ⟨s₁, e₁⟩ := (h.entries g₁.id g₁.cancellation).mpr h₁
  obtain ⟨s₂, e₂⟩ := (h.entries g₂.id g₂.cancellation).mpr h₂
  rw [← hid, e₁, Option.some.injEq, ActiveRequestEntry.mk.injEq] at e₂
  cases g₁
  cases g₂
  simp_all

/-- A new state of an entry, with the tokens it needs. -/
theorem update (h : RegistryInv r) {entry : ActiveRequestEntry} (he : r.active[id]? = some entry)
    (state : ActiveRequestState) {tokens : List ℕ} (hsub : r.cancelled ⊆ tokens)
    (htok : state = .cancelled → entry.cancellation ∈ tokens) :
    RegistryInv { r.update id entry state with cancelled := tokens } where
  entries i token := by
    simp only [Registry.update, getElem?_insert_ite]
    by_cases hi : id = i
    · subst hi
      rw [← h.entries id token, he]
      simp only [if_true, Option.some.injEq]
      constructor
      · rintro ⟨s, hs⟩
        obtain ⟨rfl, -⟩ := ActiveRequestEntry.mk.inj hs
        exact ⟨entry.state, rfl⟩
      · rintro ⟨s, rfl⟩
        exact ⟨state, rfl⟩
    · rw [if_neg hi]
      exact h.entries i token
  nodup := h.nodup
  fresh := h.fresh
  token i entry' hi hc := by
    simp only [Registry.update, getElem?_insert_ite] at hi
    split at hi
    · obtain rfl := Option.some.inj hi
      exact htok hc
    · exact hsub (h.token i entry' hi hc)

theorem registered (h : RegistryInv r) (hnone : r.active[id]? = none) :
    RegistryInv { r with
      active := r.active.insert id ⟨r.nextToken, .queued⟩
      nextToken := r.nextToken + 1
      guards := r.guards ++ [⟨id, r.nextToken⟩] } where
  entries i token := by
    simp only [getElem?_insert_ite, List.mem_append, List.mem_singleton,
      ActiveRequest.mk.injEq, ← h.entries i token]
    by_cases hi : id = i
    · subst hi
      simp only [if_true, hnone, Option.some.injEq, ActiveRequestEntry.mk.injEq,
        reduceCtorEq, exists_false, false_or, true_and]
      exact ⟨fun ⟨_, ht, _⟩ => ht.symm, fun ht => ⟨_, ht.symm, rfl⟩⟩
    · rw [if_neg hi]
      simp [Ne.symm hi]
  nodup := by
    refine List.nodup_append.mpr ⟨h.nodup, List.nodup_singleton _, fun a ha b hb hab => ?_⟩
    have hlt := h.fresh a ha
    rw [hab, List.mem_singleton.mp hb] at hlt
    exact absurd hlt (Nat.lt_irrefl _)
  fresh guard hg := by
    rcases List.mem_append.mp hg with hg | hg
    · exact Nat.lt_succ_of_lt (h.fresh guard hg)
    · rw [List.mem_singleton.mp hg]
      exact Nat.lt_succ_self _
  token i entry hi hc := by
    simp only [getElem?_insert_ite] at hi
    split at hi
    · obtain rfl := Option.some.inj hi
      cases hc
    · exact h.token i entry hi hc

theorem dropped (h : RegistryInv r) (hg : guard ∈ r.guards) : RegistryInv (r.dropGuard guard) where
  entries i token := by
    simp only [Registry.dropGuard, getElem?_erase_ite]
    rw [h.nodup.mem_erase_iff]
    by_cases hi : guard.id = i
    · subst hi
      simp only [if_true, reduceCtorEq, exists_false, false_iff, not_and]
      exact fun hne hm => hne (h.guard_unique hm hg rfl)
    · have hne : (⟨i, token⟩ : ActiveRequest) ≠ guard := fun he => hi (he ▸ rfl)
      rw [if_neg hi, h.entries i token]
      exact ⟨fun hm => ⟨hne, hm⟩, fun hm => hm.2⟩
  nodup := h.nodup.erase guard
  fresh g hm := h.fresh g (List.mem_of_mem_erase hm)
  token i entry hi hc := by
    simp only [Registry.dropGuard, getElem?_erase_ite] at hi
    split at hi
    · cases hi
    · exact h.token i entry hi hc

theorem change (h : RegistryInv r) (hc : r.Change r') : RegistryInv r' := by
  cases hc with
  | same => exact h
  | registered id hnone => exact h.registered hnone
  | moved id entry state he _ hs =>
    exact h.update he state (List.Subset.refl _) fun hc => absurd hc hs
  | cancelled id entry he _ =>
    exact h.update he .cancelled (List.subset_cons_self _ _) fun _ => List.mem_cons_self
  | token guard =>
    exact ⟨h.entries, h.nodup, h.fresh, fun id entry he hc => List.mem_cons_of_mem _ (h.token id entry he hc)⟩
  | dropped guard hg => exact h.dropped hg

end RegistryInv

/-- An invariant of every change is one of every run. -/
theorem Registry.run_inv {I : Registry → Prop} (hI : ∀ r r', I r → Registry.Change r r' → I r')
    {r' : Registry} : ∀ {es : List RegistryEvent} {r : Registry}, I r → r.run es = some r' → I r'
  | [], r, h, hr => by
    obtain rfl : r = r' := by simpa [Registry.run] using hr
    exact h
  | e :: es, r, h, hr => by
    obtain ⟨r₁, h₁, h₂⟩ := Option.bind_eq_some_iff.mp hr
    exact Registry.run_inv hI (hI r r₁ h (Registry.step_change h₁)) h₂

theorem RegistryInv.run {r r' : Registry} {es : List RegistryEvent} (h : RegistryInv r)
    (hr : r.run es = some r') : RegistryInv r' :=
  Registry.run_inv (fun _ _ hi hc => hi.change hc) h hr

/-! ### Cancelled and finished requests stay so -/

/-- The guard was made, and while it is alive its entry is in this state. -/
structure Settled (guard : ActiveRequest) (state : ActiveRequestState) (r : Registry) : Prop where
  inv : RegistryInv r
  made : guard.cancellation < r.nextToken
  entry : guard ∈ r.guards → r.active[guard.id]? = some ⟨guard.cancellation, state⟩

theorem Settled.change {guard : ActiveRequest} {state : ActiveRequestState} {r r' : Registry}
    (hs : ¬ state.IsOpen) (h : Settled guard state r) (hc : r.Change r') :
    Settled guard state r' := by
  have hinv := h.inv.change hc
  -- an entry that moves is open, so it is not this one
  have hother (id : String) (entry : ActiveRequestEntry) (he : r.active[id]? = some entry)
      (ho : entry.state.IsOpen) (hg : guard ∈ r.guards) : id ≠ guard.id := by
    rintro rfl
    rw [h.entry hg] at he
    obtain rfl := Option.some.inj he
    exact hs ho
  cases hc with
  | same => exact h
  | registered id hnone =>
    refine ⟨hinv, Nat.lt_succ_of_lt h.made, fun hg => ?_⟩
    have hold : guard ∈ r.guards := by
      rcases List.mem_append.mp hg with hg | hg
      · exact hg
      · have := h.made
        rw [List.mem_singleton.mp hg] at this
        exact absurd this (Nat.lt_irrefl _)
    have hne : id ≠ guard.id := fun he => by
      rw [he, h.entry hold] at hnone
      cases hnone
    rw [getElem?_insert_ite, if_neg hne]
    exact h.entry hold
  | moved id entry next he ho _ =>
    refine ⟨hinv, h.made, fun hg => ?_⟩
    simp only [Registry.update, getElem?_insert_ite]
    rw [if_neg (hother id entry he ho hg)]
    exact h.entry hg
  | cancelled id entry he ho =>
    refine ⟨hinv, h.made, fun hg => ?_⟩
    simp only [Registry.update, getElem?_insert_ite]
    rw [if_neg (hother id entry he ho hg)]
    exact h.entry hg
  | token g => exact ⟨hinv, h.made, h.entry⟩
  | dropped g hg =>
    refine ⟨hinv, h.made, fun hm => ?_⟩
    simp only [Registry.dropGuard] at hm ⊢
    obtain ⟨hne, hold⟩ := (h.inv.nodup.mem_erase_iff).mp hm
    rw [getElem?_erase_ite, if_neg fun he => hne (h.inv.guard_unique hold hg he.symm)]
    exact h.entry hold

theorem Registry.cancelled_mono {r r' : Registry} (hc : r.Change r') {token : ℕ}
    (h : token ∈ r.cancelled) : token ∈ r'.cancelled := by
  cases hc with
  | same | registered | moved | dropped => exact h
  | cancelled | token => exact List.mem_cons_of_mem _ h

/-! ### The guarantee -/

/-- What holds of a registry that a run has reached, and from there on. -/
structure RegistryProtocol (r : Registry) : Prop where
  /-- An entry is there exactly while the guard that was made with it is alive. -/
  entry : ∀ (id : String) (token : ℕ),
    (∃ state, r.active[id]? = some ⟨token, state⟩) ↔ (⟨id, token⟩ : ActiveRequest) ∈ r.guards
  /-- Dropping a guard removes its own entry and no other. -/
  drop : ∀ guard ∈ r.guards, (r.dropGuard guard).active[guard.id]? = none ∧
    ∀ other ∈ r.guards, other ≠ guard →
      (r.dropGuard guard).active[other.id]? = r.active[other.id]?
  /-- A cancellation that is accepted is of a live request that has not finished; its
  token is cancelled from then on, and it never reports success. -/
  cancel : ∀ id r', r.cancel id = (r', .cancelled) → ∃ guard ∈ r.guards, guard.id = id ∧
    r.active[id]? ≠ some ⟨guard.cancellation, .finished⟩ ∧
    ∀ es r'', r'.run es = some r'' → guard.cancellation ∈ r''.cancelled ∧
      (guard ∈ r''.guards → (r''.markFinished guard).2 = .cancelled) ∧
      (guard ∈ r''.guards → ∀ finish : Finish, finish.report (r''.markFinished guard).2 ≠ .success)
  /-- A request that has finished is never cancelled. -/
  finished : ∀ guard ∈ r.guards, ∀ r', r.markFinished guard = (r', .finished) →
    ∀ es r'', r'.run es = some r'' → guard ∈ r''.guards → (r''.cancel guard.id).2 = .finished
  /-- An id in use is refused, and nothing changes. -/
  register : ∀ id, (∃ entry, r.active[id]? = some entry) →
    r.register id = .error (.conflict id) ∧ r.step (.register id) = some r

theorem RegistryInv.mem_guards {r : Registry} (h : RegistryInv r) {id : String}
    {entry : ActiveRequestEntry} (he : r.active[id]? = some entry) :
    (⟨id, entry.cancellation⟩ : ActiveRequest) ∈ r.guards :=
  (h.entries id entry.cancellation).mp ⟨entry.state, he⟩

theorem RegistryInv.drop {r : Registry} (h : RegistryInv r) {guard : ActiveRequest}
    (hg : guard ∈ r.guards) : (r.dropGuard guard).active[guard.id]? = none ∧
      ∀ other ∈ r.guards, other ≠ guard →
        (r.dropGuard guard).active[other.id]? = r.active[other.id]? := by
  refine ⟨?_, fun other ho hne => ?_⟩
  · simp only [Registry.dropGuard, getElem?_erase_ite, if_true]
  · simp only [Registry.dropGuard, getElem?_erase_ite]
    exact if_neg fun he => hne (h.guard_unique ho hg he.symm)

theorem Settled.markFinished {guard : ActiveRequest} {r : Registry}
    (h : Settled guard .cancelled r) (hg : guard ∈ r.guards) :
    (r.markFinished guard).2 = .cancelled := by
  unfold Registry.markFinished
  rw [h.entry hg]

theorem RegistryInv.cancelled {r r' : Registry} (h : RegistryInv r) {id : String}
    (hc : r.cancel id = (r', .cancelled)) : ∃ guard ∈ r.guards, guard.id = id ∧
      r.active[id]? ≠ some ⟨guard.cancellation, .finished⟩ ∧ guard.cancellation ∈ r'.cancelled ∧
      Settled guard .cancelled r' := by
  have hchange : r.Change r' := Registry.step_change (e := .cancel id) (by
    simp only [Registry.step, hc])
  rcases Registry.cancel_cases r id with ⟨hn, -⟩ | ⟨entry, he, ⟨hn, -⟩ | ⟨hn, -⟩ | ⟨hn, ho⟩⟩
  · rw [hn] at hc; cases hc
  · rw [hn] at hc; cases hc
  · rw [hn] at hc; cases hc
  · rw [hn] at hc
    obtain rfl := (Prod.mk.inj hc).1
    have hmem := h.mem_guards he
    refine ⟨⟨id, entry.cancellation⟩, hmem, rfl, fun hf => ?_, List.mem_cons_self, ?_⟩
    · rw [he] at hf
      have hstate : entry.state = .finished := congrArg (·.state) (Option.some.inj hf)
      rcases ho with ho | ho <;> rw [hstate] at ho <;> cases ho
    · refine ⟨h.change hchange, h.fresh _ hmem, fun _ => ?_⟩
      simp only [Registry.update, getElem?_insert_ite, if_true]

theorem RegistryInv.finished {r r' : Registry} (h : RegistryInv r) {guard : ActiveRequest}
    (hg : guard ∈ r.guards) (hf : r.markFinished guard = (r', .finished)) :
    Settled guard .finished r' := by
  have hchange : r.Change r' := Registry.step_change (e := .markFinished guard) (by
    simp only [Registry.step, if_pos hg, hf])
  obtain ⟨state, hentry⟩ := (h.entries guard.id guard.cancellation).mpr hg
  rcases Registry.markFinished_cases r guard with
    ⟨hn, -⟩ | ⟨entry, he, ⟨hn, -⟩ | ⟨hn, hs⟩ | ⟨hn, ho⟩⟩
  · rw [hn] at hf; cases hf
  · rw [hn] at hf; cases hf
  · rw [hn] at hf
    obtain rfl := (Prod.mk.inj hf).1
    refine ⟨h, h.fresh guard hg, fun _ => ?_⟩
    rw [hentry] at he
    obtain rfl := Option.some.inj he
    rw [hentry]
    exact congrArg _ (congrArg _ hs)
  · rw [hn] at hf
    obtain rfl := (Prod.mk.inj hf).1
    refine ⟨h.change hchange, h.fresh guard hg, fun _ => ?_⟩
    rw [hentry] at he
    obtain rfl := Option.some.inj he
    simp only [Registry.update, getElem?_insert_ite, if_true]

theorem RegistryInv.protocol {r : Registry} (h : RegistryInv r) : RegistryProtocol r where
  entry := h.entries
  drop guard hg := h.drop hg
  cancel id r' hc := by
    obtain ⟨guard, hg, hid, hopen, htok, hset⟩ := h.cancelled hc
    refine ⟨guard, hg, hid, hopen, fun es r'' hr => ?_⟩
    have hset' : Settled guard .cancelled r'' :=
      Registry.run_inv (fun _ _ hi hc => hi.change (by rintro (h | h) <;> cases h) hc) hset hr
    refine ⟨?_, hset'.markFinished, fun hg' finish hsucc => ?_⟩
    · exact Registry.run_inv (I := fun r => guard.cancellation ∈ r.cancelled)
        (fun _ _ hi hc => Registry.cancelled_mono hc hi) htok hr
    · have := (Finish.report_eq_success hsucc).2
      rw [hset'.markFinished hg'] at this
      cases this
  finished guard hg r' hf es r'' hr hg' := by
    have hset' : Settled guard .finished r'' :=
      Registry.run_inv (fun _ _ hi hc => hi.change (by rintro (h | h) <;> cases h) hc)
        (h.finished hg hf) hr
    unfold Registry.cancel
    rw [hset'.entry hg']
  register id hentry := by
    obtain ⟨entry, he⟩ := hentry
    have hreg : r.register id = .error (.conflict id) := by
      unfold Registry.register
      rw [if_pos]
      rw [Std.ExtTreeMap.contains_eq_isSome_getElem?, he]
      rfl
    exact ⟨hreg, by simp only [Registry.step, hreg]⟩

/-- Every run of the registry keeps the protocol. -/
theorem registry_protocol {es : List RegistryEvent} {r : Registry}
    (h : Registry.empty.run es = some r) : RegistryProtocol r :=
  (RegistryInv.empty.run h).protocol

/-- A request is cancelled while it runs; its id is taken again after its guard is gone. -/
theorem registry_protocol_reused : ∃ r,
    Registry.empty.run [.register "a", .markRunning ⟨"a", 0⟩, .cancel "a", .markFinished ⟨"a", 0⟩,
      .drop ⟨"a", 0⟩, .register "a"] = some r ∧
    r.guards = [⟨"a", 1⟩] ∧ r.cancelled = [0] ∧ RegistryProtocol r := by
  have hrun : (Registry.empty.run [.register "a", .markRunning ⟨"a", 0⟩, .cancel "a",
      .markFinished ⟨"a", 0⟩, .drop ⟨"a", 0⟩, .register "a"]).map
      (fun r => (r.guards, r.cancelled)) = some ([⟨"a", 1⟩], [0]) := by
    decide +kernel
  obtain ⟨r, hr, he⟩ := Option.map_eq_some_iff.mp hrun
  obtain ⟨hg, hc⟩ := Prod.mk.inj he
  exact ⟨r, hr, hg, hc, registry_protocol hr⟩

end KirAi.Server
