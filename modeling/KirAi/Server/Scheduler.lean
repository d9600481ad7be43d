/-
# The model scheduler: its state and its critical sections

`engine/scheduler.rs` of the server crate. Everything here happens under the
scheduler's one mutex: each definition is the body of one lock, as a function on
`ModelSchedulerState`. Permits and tickets are the values handed out by these
sections; what a task does between them is in `Server/SchedulerTask.lean`.

Clock readings are arguments, in nanoseconds. The 64-bit counters that the source
increments with `+= 1` are natural numbers here.

Key definitions:
* `ModelSchedulerState` with `startActive`, `finishActive`, `releasePrefillForYield`
* `ModelSchedulerState.nextAdmissibleClass`: which queue goes next
* `tryAcquireImmediate`, `enqueue`, `tryAdmitQueued`
* `SchedulerPermit.drop`, `QueuedSchedulerTicket.drop`
-/
import KirAi.Lib.Machine
import Mathlib.Tactic.Common

namespace KirAi.Server

open Lib

inductive GenerationPhase
  | prefill
  | decode
deriving DecidableEq, Repr

inductive SchedulerClass
  | prefill
  | decode
deriving DecidableEq, Repr

inductive SchedulerOutcome
  | completed
  | cancelled
  | failed
deriving DecidableEq, Repr

inductive SchedulerAcquireError
  | queueFull
  | queueTimedOut
  | cancelled
  | cancelledAfterAdmission
deriving DecidableEq, Repr

structure ModelSchedulerOptions where
  concurrencyLimit : ℕ
  queueLimit : ℕ
  queueTimeout : Option ℕ
  prefillBurst : ℕ

structure ModelSchedulerState where
  nextTicket : ℕ := 0
  queuedPrefill : List ℕ := []
  queuedDecode : List ℕ := []
  activePrefill : ℕ := 0
  activeDecode : ℕ := 0
  prefillAdmissionsSinceDecode : ℕ := 0
  admittedPrefill : ℕ := 0
  admittedDecode : ℕ := 0
  completed : ℕ := 0
  cancelled : ℕ := 0
  failed : ℕ := 0
  queuedCancelled : ℕ := 0
  queueTimeouts : ℕ := 0
  prefillYields : ℕ := 0
  prefillYieldsToDecode : ℕ := 0
  prefillYieldReacquireWaits : ℕ := 0
  prefillYieldReacquireWaitNanosTotal : ℕ := 0
  prefillYieldReacquireWaitNanosMax : ℕ := 0
  decodeStarvationEvents : ℕ := 0
  decodeStarvationWaits : ℕ := 0
  decodeStarvationWaitNanosTotal : ℕ := 0
  decodeStarvationWaitNanosMax : ℕ := 0
deriving DecidableEq, Repr

structure PrefillYieldRelease where
  admittedDecodeBefore : ℕ
deriving DecidableEq, Repr

structure SchedulerPermit where
  phase : GenerationPhase
  outcome : SchedulerOutcome
  active : Bool
  terminalOnDrop : Bool
deriving DecidableEq, Repr

structure QueuedSchedulerTicket where
  id : ℕ
  cls : SchedulerClass
  admitted : Bool
  timeout : Bool
  decodeStarvation : Bool
deriving DecidableEq, Repr

def durationNanosU64 (nanos : ℕ) : ℕ := min nanos wordMax

namespace ModelSchedulerState

def activeTotal (st : ModelSchedulerState) : ℕ := st.activePrefill + st.activeDecode

def queuedTotal (st : ModelSchedulerState) : ℕ := st.queuedPrefill.length + st.queuedDecode.length

def queue (st : ModelSchedulerState) : SchedulerClass → List ℕ
  | .prefill => st.queuedPrefill
  | .decode => st.queuedDecode

/-- `queue_mut` of the source: `f` is what is done to the queue. -/
def modifyQueue (st : ModelSchedulerState) (cls : SchedulerClass) (f : List ℕ → List ℕ) :
    ModelSchedulerState :=
  match cls with
  | .prefill => { st with queuedPrefill := f st.queuedPrefill }
  | .decode => { st with queuedDecode := f st.queuedDecode }

/-- The two slot counters, by phase. -/
def active (st : ModelSchedulerState) : GenerationPhase → ℕ
  | .prefill => st.activePrefill
  | .decode => st.activeDecode

/-- The admission counters, by class. -/
def admitted (st : ModelSchedulerState) : SchedulerClass → ℕ
  | .prefill => st.admittedPrefill
  | .decode => st.admittedDecode

/-- The requests that have ended, by any outcome. -/
def terminal (st : ModelSchedulerState) : ℕ := st.completed + st.cancelled + st.failed

def startActive (st : ModelSchedulerState) (admissionClass : SchedulerClass)
    (initialPhase : GenerationPhase) : ModelSchedulerState :=
  let st := match initialPhase with
    | .prefill => { st with activePrefill := st.activePrefill + 1 }
    | .decode => { st with activeDecode := st.activeDecode + 1 }
  match admissionClass with
  | .prefill =>
    { st with
      prefillAdmissionsSinceDecode := st.prefillAdmissionsSinceDecode + 1
      admittedPrefill := st.admittedPrefill + 1 }
  | .decode =>
    { st with
      prefillAdmissionsSinceDecode := 0
      admittedDecode := st.admittedDecode + 1 }

def finishInactive (st : ModelSchedulerState) : SchedulerOutcome → ModelSchedulerState
  | .completed => { st with completed := st.completed + 1 }
  | .cancelled => { st with cancelled := st.cancelled + 1 }
  | .failed => { st with failed := st.failed + 1 }

-- The subtraction of the source saturates, as that of the naturals does.
def finishActive (st : ModelSchedulerState) (phase : GenerationPhase)
    (outcome : SchedulerOutcome) : ModelSchedulerState :=
  let st := match phase with
    | .prefill => { st with activePrefill := st.activePrefill - 1 }
    | .decode => { st with activeDecode := st.activeDecode - 1 }
  st.finishInactive outcome

def transitionToDecode (st : ModelSchedulerState) : ModelSchedulerState :=
  { st with
    activePrefill := st.activePrefill - 1
    activeDecode := st.activeDecode + 1 }

def releasePrefillForYield (st : ModelSchedulerState) : ModelSchedulerState × PrefillYieldRelease :=
  ({ st with activePrefill := st.activePrefill - 1 }, ⟨st.admittedDecode⟩)

def recordPrefillYieldReacquireWait (st : ModelSchedulerState) (wait : ℕ) : ModelSchedulerState :=
  { st with
    prefillYieldReacquireWaits := satAdd st.prefillYieldReacquireWaits 1
    prefillYieldReacquireWaitNanosTotal :=
      satAdd st.prefillYieldReacquireWaitNanosTotal (durationNanosU64 wait)
    prefillYieldReacquireWaitNanosMax :=
      max st.prefillYieldReacquireWaitNanosMax (durationNanosU64 wait) }

def recordPrefillYieldSuccess (st : ModelSchedulerState) (release : PrefillYieldRelease)
    (wait : ℕ) : ModelSchedulerState :=
  let st := { st with prefillYields := st.prefillYields + 1 }
  let st := if release.admittedDecodeBefore < st.admittedDecode then
      { st with prefillYieldsToDecode := st.prefillYieldsToDecode + 1 }
    else st
  st.recordPrefillYieldReacquireWait wait

def recordDecodeStarvationWait (st : ModelSchedulerState) (wait : ℕ) : ModelSchedulerState :=
  { st with
    decodeStarvationWaits := satAdd st.decodeStarvationWaits 1
    decodeStarvationWaitNanosTotal :=
      satAdd st.decodeStarvationWaitNanosTotal (durationNanosU64 wait)
    decodeStarvationWaitNanosMax :=
      max st.decodeStarvationWaitNanosMax (durationNanosU64 wait) }

def recordDecodeStarvationEvent (st : ModelSchedulerState) : ModelSchedulerState :=
  { st with decodeStarvationEvents := satAdd st.decodeStarvationEvents 1 }

def hasPrefillPressure (st : ModelSchedulerState) : Bool :=
  0 < st.activePrefill || !st.queuedPrefill.isEmpty

def nextAdmissibleClass (st : ModelSchedulerState) (prefillBurst : ℕ) : Option SchedulerClass :=
  match !st.queuedPrefill.isEmpty, !st.queuedDecode.isEmpty with
  | false, false => none
  | true, false => some .prefill
  | false, true => some .decode
  | true, true =>
    if prefillBurst ≤ st.prefillAdmissionsSinceDecode then some .decode
    else
      let prefillTicket := st.queuedPrefill.head?.getD wordMax
      let decodeTicket := st.queuedDecode.head?.getD wordMax
      if decodeTicket < prefillTicket then some .decode else some .prefill

end ModelSchedulerState

/-- The permit of a request that was just admitted. -/
def SchedulerPermit.new (phase : GenerationPhase) : SchedulerPermit :=
  ⟨phase, .completed, true, true⟩

namespace ModelSchedulerState

variable (opts : ModelSchedulerOptions) (st : ModelSchedulerState)

def tryAcquireImmediate (admissionClass : SchedulerClass) (initialPhase : GenerationPhase) :
    Option (ModelSchedulerState × SchedulerPermit) :=
  if opts.concurrencyLimit ≤ st.activeTotal ∨ 0 < st.queuedTotal then none
  else some (st.startActive admissionClass initialPhase, SchedulerPermit.new initialPhase)

def enqueue (cls : SchedulerClass) :
    Except SchedulerAcquireError (ModelSchedulerState × QueuedSchedulerTicket) :=
  if opts.queueLimit ≤ st.queuedTotal then .error .queueFull
  else
    let decodeStarvation := decide (cls = .decode) && st.hasPrefillPressure
    let st := if decodeStarvation then st.recordDecodeStarvationEvent else st
    let id := st.nextTicket + 1
    let st := { st with nextTicket := id }
    .ok (st.modifyQueue cls (· ++ [id]), ⟨id, cls, false, false, decodeStarvation⟩)

def tryAdmitQueued (ticket : ℕ) (admissionClass : SchedulerClass)
    (initialPhase : GenerationPhase) : Option (ModelSchedulerState × SchedulerPermit) :=
  if opts.concurrencyLimit ≤ st.activeTotal then none
  else
    match st.nextAdmissibleClass opts.prefillBurst with
    | none => none
    | some cls =>
      if cls ≠ admissionClass then none
      else if (st.queue admissionClass).head? ≠ some ticket then none
      else
        some ((st.modifyQueue admissionClass List.tail).startActive admissionClass initialPhase,
          SchedulerPermit.new initialPhase)

end ModelSchedulerState

namespace SchedulerPermit

/-- What dropping a permit does under the lock; `none` when it takes no lock. -/
def drop (p : SchedulerPermit) (st : ModelSchedulerState) : Option ModelSchedulerState :=
  if p.terminalOnDrop then
    some (if p.active then st.finishActive p.phase p.outcome else st.finishInactive p.outcome)
  else none

def markFailed (p : SchedulerPermit) : SchedulerPermit := { p with outcome := .failed }

def markCancelled (p : SchedulerPermit) : SchedulerPermit := { p with outcome := .cancelled }

def completeReadmissionError (p : SchedulerPermit) : SchedulerAcquireError → SchedulerPermit
  | .cancelled => { p with outcome := .cancelled, terminalOnDrop := true }
  | .cancelledAfterAdmission => { p with terminalOnDrop := false }
  | .queueFull => { p with outcome := .failed, terminalOnDrop := true }
  | .queueTimedOut => { p with outcome := .failed, terminalOnDrop := true }

end SchedulerPermit

namespace QueuedSchedulerTicket

def timedOut (ticket : QueuedSchedulerTicket) : QueuedSchedulerTicket :=
  { ticket with timeout := true }

/-- What dropping a ticket does under the lock; `none` when it takes no lock. -/
def drop (ticket : QueuedSchedulerTicket) (st : ModelSchedulerState) :
    Option ModelSchedulerState :=
  if ticket.admitted then none
  else if ticket.id ∈ st.queue ticket.cls then
    let st := st.modifyQueue ticket.cls (List.erase · ticket.id)
    some (if ticket.timeout then { st with queueTimeouts := st.queueTimeouts + 1 }
      else { st with queuedCancelled := st.queuedCancelled + 1 })
  else some st

end QueuedSchedulerTicket

/-! ### What the sections leave alone

`Quiet` is what every metric update is: the slots, the queues, the order of
admission and the ended requests are as before. -/

namespace ModelSchedulerState

variable {opts : ModelSchedulerOptions} {st st' : ModelSchedulerState}

structure Quiet (st st' : ModelSchedulerState) : Prop where
  active : st'.active = st.active
  queue : st'.queue = st.queue
  since : st'.prefillAdmissionsSinceDecode = st.prefillAdmissionsSinceDecode
  terminal : st'.terminal = st.terminal
  nextTicket : st'.nextTicket = st.nextTicket
  admitted : st'.admitted = st.admitted

theorem Quiet.refl (st : ModelSchedulerState) : Quiet st st := ⟨rfl, rfl, rfl, rfl, rfl, rfl⟩

theorem quiet_recordPrefillYieldSuccess (st : ModelSchedulerState) (release : PrefillYieldRelease)
    (wait : ℕ) : Quiet st (st.recordPrefillYieldSuccess release wait) := by
  unfold recordPrefillYieldSuccess
  by_cases h : release.admittedDecodeBefore < st.admittedDecode
  · simp only [h, if_true]
    exact ⟨rfl, rfl, rfl, rfl, rfl, rfl⟩
  · simp only [h, if_false]
    exact ⟨rfl, rfl, rfl, rfl, rfl, rfl⟩

theorem quiet_recordDecodeStarvationWait (st : ModelSchedulerState) (wait : ℕ) :
    Quiet st (st.recordDecodeStarvationWait wait) := ⟨rfl, rfl, rfl, rfl, rfl, rfl⟩

theorem activeTotal_eq (st : ModelSchedulerState) :
    st.activeTotal = st.active .prefill + st.active .decode := rfl

theorem queuedTotal_eq (st : ModelSchedulerState) :
    st.queuedTotal = (st.queue .prefill).length + (st.queue .decode).length := rfl

/-! ### Slots -/

@[simp] theorem active_startActive (st : ModelSchedulerState) (cls : SchedulerClass)
    (phase ph : GenerationPhase) :
    (st.startActive cls phase).active ph = st.active ph + if phase = ph then 1 else 0 := by
  cases cls <;> cases phase <;> cases ph <;> rfl

@[simp] theorem active_finishInactive (st : ModelSchedulerState) (outcome : SchedulerOutcome) :
    (st.finishInactive outcome).active = st.active := by
  cases outcome <;> rfl

@[simp] theorem active_finishActive (st : ModelSchedulerState) (phase ph : GenerationPhase)
    (outcome : SchedulerOutcome) :
    (st.finishActive phase outcome).active ph = st.active ph - if phase = ph then 1 else 0 := by
  cases outcome <;> cases phase <;> cases ph <;> rfl

@[simp] theorem active_modifyQueue (st : ModelSchedulerState) (cls : SchedulerClass)
    (f : List ℕ → List ℕ) : (st.modifyQueue cls f).active = st.active := by
  cases cls <;> rfl

/-! ### Queues -/

@[simp] theorem queue_modifyQueue (st : ModelSchedulerState) (cls c : SchedulerClass)
    (f : List ℕ → List ℕ) :
    (st.modifyQueue cls f).queue c = if cls = c then f (st.queue c) else st.queue c := by
  cases cls <;> cases c <;> rfl

@[simp] theorem queue_startActive (st : ModelSchedulerState) (cls : SchedulerClass)
    (phase : GenerationPhase) : (st.startActive cls phase).queue = st.queue := by
  cases cls <;> cases phase <;> rfl

@[simp] theorem queue_finishInactive (st : ModelSchedulerState) (outcome : SchedulerOutcome) :
    (st.finishInactive outcome).queue = st.queue := by
  cases outcome <;> rfl

@[simp] theorem queue_finishActive (st : ModelSchedulerState) (phase : GenerationPhase)
    (outcome : SchedulerOutcome) : (st.finishActive phase outcome).queue = st.queue := by
  cases outcome <;> cases phase <;> rfl

/-! ### Ended requests -/

@[simp] theorem terminal_startActive (st : ModelSchedulerState) (cls : SchedulerClass)
    (phase : GenerationPhase) : (st.startActive cls phase).terminal = st.terminal := by
  cases cls <;> cases phase <;> rfl

@[simp] theorem terminal_finishInactive (st : ModelSchedulerState) (outcome : SchedulerOutcome) :
    (st.finishInactive outcome).terminal = st.terminal + 1 := by
  cases outcome <;> simp only [finishInactive, terminal] <;> omega

@[simp] theorem terminal_finishActive (st : ModelSchedulerState) (phase : GenerationPhase)
    (outcome : SchedulerOutcome) :
    (st.finishActive phase outcome).terminal = st.terminal + 1 := by
  cases phase <;> exact terminal_finishInactive _ outcome

@[simp] theorem terminal_modifyQueue (st : ModelSchedulerState) (cls : SchedulerClass)
    (f : List ℕ → List ℕ) : (st.modifyQueue cls f).terminal = st.terminal := by
  cases cls <;> rfl

@[simp] theorem nextTicket_startActive (st : ModelSchedulerState) (cls : SchedulerClass)
    (phase : GenerationPhase) : (st.startActive cls phase).nextTicket = st.nextTicket := by
  cases cls <;> cases phase <;> rfl

@[simp] theorem nextTicket_modifyQueue (st : ModelSchedulerState) (cls : SchedulerClass)
    (f : List ℕ → List ℕ) : (st.modifyQueue cls f).nextTicket = st.nextTicket := by
  cases cls <;> rfl

@[simp] theorem nextTicket_finishInactive (st : ModelSchedulerState) (outcome : SchedulerOutcome) :
    (st.finishInactive outcome).nextTicket = st.nextTicket := by
  cases outcome <;> rfl

@[simp] theorem nextTicket_finishActive (st : ModelSchedulerState) (phase : GenerationPhase)
    (outcome : SchedulerOutcome) :
    (st.finishActive phase outcome).nextTicket = st.nextTicket := by
  cases phase <;> exact nextTicket_finishInactive _ outcome

/-! ### What each section does -/

theorem tryAcquireImmediate_eq_some {cls : SchedulerClass} {phase : GenerationPhase}
    {p : SchedulerPermit} (h : st.tryAcquireImmediate opts cls phase = some (st', p)) :
    st.activeTotal < opts.concurrencyLimit ∧ st.queuedTotal = 0 ∧
      st' = st.startActive cls phase ∧ p = SchedulerPermit.new phase := by
  unfold tryAcquireImmediate at h
  split at h
  · cases h
  · rename_i hc
    simp only [Option.some.injEq, Prod.mk.injEq] at h
    exact ⟨by omega, by omega, h.1.symm, h.2.symm⟩

/-- A ticket that may go: a slot is free and it heads the queue whose turn it is. -/
def Admissible (opts : ModelSchedulerOptions) (st : ModelSchedulerState) (cls : SchedulerClass)
    (id : ℕ) : Prop :=
  st.activeTotal < opts.concurrencyLimit ∧ st.nextAdmissibleClass opts.prefillBurst = some cls ∧
    (st.queue cls).head? = some id

instance (opts : ModelSchedulerOptions) (st : ModelSchedulerState) (cls : SchedulerClass)
    (id : ℕ) : Decidable (Admissible opts st cls id) :=
  inferInstanceAs (Decidable (_ ∧ _ ∧ _))

theorem tryAdmitQueued_of_admissible {cls : SchedulerClass} {id : ℕ} (phase : GenerationPhase)
    (h : Admissible opts st cls id) :
    st.tryAdmitQueued opts id cls phase =
      some ((st.modifyQueue cls List.tail).startActive cls phase, SchedulerPermit.new phase) := by
  obtain ⟨hfree, hnext, hhead⟩ := h
  unfold tryAdmitQueued
  rw [if_neg (by omega), hnext]
  simp [hhead]

/-- Admission from the queue succeeds for no other ticket. -/
theorem tryAdmitQueued_of_not_admissible {cls : SchedulerClass} {id : ℕ} (phase : GenerationPhase)
    (h : ¬ Admissible opts st cls id) : st.tryAdmitQueued opts id cls phase = none := by
  unfold tryAdmitQueued
  by_cases hfull : opts.concurrencyLimit ≤ st.activeTotal
  · rw [if_pos hfull]
  · rw [if_neg hfull]
    cases hnext : st.nextAdmissibleClass opts.prefillBurst with
    | none => rfl
    | some c =>
      dsimp only
      split
      · rfl
      · rename_i hc
        refine if_pos fun hh => h ⟨by omega, ?_, hh⟩
        rw [hnext, not_not.mp hc]

theorem enqueue_eq_ok {cls : SchedulerClass} {ticket : QueuedSchedulerTicket}
    (h : st.enqueue opts cls = .ok (st', ticket)) :
    st.queuedTotal < opts.queueLimit ∧ ticket.id = st.nextTicket + 1 ∧ ticket.cls = cls ∧
      ticket.admitted = false ∧ st'.active = st.active ∧ st'.terminal = st.terminal ∧
      st'.nextTicket = st.nextTicket + 1 ∧
      ∀ c, st'.queue c = if cls = c then st.queue c ++ [st.nextTicket + 1] else st.queue c := by
  unfold enqueue at h
  split at h
  · cases h
  · rename_i hfull
    simp only [Except.ok.injEq, Prod.mk.injEq] at h
    obtain ⟨rfl, rfl⟩ := h
    split
    all_goals
      refine ⟨by omega, rfl, rfl, rfl, ?_, ?_, ?_, fun c => ?_⟩
      · exact active_modifyQueue _ _ _
      · exact terminal_modifyQueue _ _ _
      · exact nextTicket_modifyQueue _ _ _
      · exact queue_modifyQueue _ _ _ _

theorem enqueue_eq_error {cls : SchedulerClass} {err : SchedulerAcquireError}
    (h : st.enqueue opts cls = .error err) : err = .queueFull := by
  unfold enqueue at h
  split at h
  · exact (Except.error.inj h).symm
  · cases h

end ModelSchedulerState

theorem QueuedSchedulerTicket.drop_eq_some {ticket : QueuedSchedulerTicket}
    {st st' : ModelSchedulerState} (h : ticket.drop st = some st') :
    st'.active = st.active ∧ st'.terminal = st.terminal ∧ st'.nextTicket = st.nextTicket ∧
      ∀ c, st'.queue c = if ticket.cls = c then (st.queue c).erase ticket.id else st.queue c := by
  unfold QueuedSchedulerTicket.drop at h
  split at h
  · cases h
  · split at h
    · obtain rfl := Option.some.inj h
      split
      all_goals
        refine ⟨?_, ?_, ?_, fun c => ?_⟩
        · exact ModelSchedulerState.active_modifyQueue _ _ _
        · exact ModelSchedulerState.terminal_modifyQueue _ _ _
        · exact ModelSchedulerState.nextTicket_modifyQueue _ _ _
        · exact ModelSchedulerState.queue_modifyQueue _ _ _ _
    · rename_i hmem
      obtain rfl := Option.some.inj h
      refine ⟨rfl, rfl, rfl, fun c => ?_⟩
      split
      · rename_i hc
        subst hc
        rw [List.erase_of_not_mem hmem]
      · rfl

end KirAi.Server
