/-
# What a step of a request can do

A step of `Task.step` does one of eleven things to the scheduler (`Effect`): it
starts or ends a slot, moves one from prefill to decode, adds or removes a queue
entry, calls the notifier, goes to sleep, or leaves all of that alone. Every
invariant of the scheduler is proved from this list, never from the code again.

`Task.Wf` is what the places of the code say about the flags of the permits and
tickets there; `Wf.step` carries it along.

Key theorems:
* `Task.Wf.step`
* `Task.step_effect`
-/
import KirAi.Server.SchedulerTask
import Mathlib.Data.Multiset.OrderedMonoid

namespace KirAi.Server

open Lib

/-! ### What a request holds -/

namespace Pc

variable {ν : Type}

/-- The permit at a place, if there is one. -/
def permit : Pc ν → Option SchedulerPermit
  | .starvationWait _ p => some p
  | .admitUnlessCancelled p => some p
  | .dropPermit p _ => some p
  | .recordYield p _ => some p
  | .held p => some p
  | _ => none

/-- The slots that the permit at a place holds. -/
def slots (pc : Pc ν) (ph : GenerationPhase) : ℕ :=
  pc.permit.toList.countP fun p => p.active && decide (p.phase = ph)

/-- The ticket at a place, if there is one. -/
def ticket : Pc ν → Option QueuedSchedulerTicket
  | .enqueued ticket => some ticket
  | .loopTop ticket => some ticket
  | .subscribe ticket => some ticket
  | .tryAdmitQueued ticket _ => some ticket
  | .select ticket _ => some ticket
  | .dropTicket ticket _ => some ticket
  | _ => none

/-- `notify_waiters` is what the code does next. -/
def notifies : Pc ν → Bool
  | .enqueued _ => true
  | .ticketDropped _ => true
  | .permitDropped _ => true
  | .yielded => true
  | _ => false

/-- The subscription a request sleeps on. -/
def sleeping : Pc ν → Option ν
  | .select _ notified => some notified
  | _ => none

/-- The subscription at a place, if there is one. -/
def subscription : Pc ν → Option ν
  | .tryAdmitQueued _ notified => some notified
  | .select _ notified => some notified
  | _ => none

theorem sleeping_of_subscription {pc : Pc ν} (h : pc.subscription = none) : pc.sleeping = none := by
  cases pc <;> first | rfl | cases h

end Pc

namespace Task

variable {N : Notify.Api} {opts : ModelSchedulerOptions} {sh sh' : Shared N}
  {t t' : Task N.Notified} {p : SchedulerPermit} {ticket : QueuedSchedulerTicket}
  {notified : N.Notified}

def permits {ν : Type} (t : Task ν) : List SchedulerPermit :=
  (t.suspended.map Prod.fst).toList ++ t.pc.permit.toList

/-- How many live permits of a request hold a slot of a phase. -/
def slots {ν : Type} (ph : GenerationPhase) (t : Task ν) : ℕ :=
  t.permits.countP fun p => p.active && decide (p.phase = ph)

/-- The queue entries that the live ticket of a request stands for. -/
def waits {ν : Type} (cls : SchedulerClass) (t : Task ν) : Multiset ℕ :=
  match t.pc.ticket with
  | none => 0
  | some ticket => if ticket.cls = cls then {ticket.id} else 0

/-- A permit that `acquire` has just made. -/
def Fresh (p : SchedulerPermit) : Prop := p.active = true ∧ p.terminalOnDrop = true

/-- The flags at each place of the code. -/
def Wf (t : Task N.Notified) : Prop :=
  (∀ q ∈ t.suspended, q.1.active = false ∧ q.1.terminalOnDrop = false) ∧
  (∀ ticket ∈ t.pc.ticket, ticket.admitted = false ∧ ticket.cls = t.cls) ∧
  match t.pc with
  | .starvationWait _ p => Fresh p
  | .admitUnlessCancelled p => Fresh p
  | .dropPermit p .acquire => Fresh p
  | .recordYield p _ => Fresh p ∧ t.suspended.isSome = true
  | .held p => t.suspended = none ∧ (p.active = true → p.terminalOnDrop = true)
  | .dropPermit p .owner => t.suspended = none ∧ (p.active = true → p.terminalOnDrop = true)
  | .permitDropped .owner => t.suspended = none
  | .yielded => t.suspended.isSome = true
  | .dropTicket _ err => err ≠ some .cancelledAfterAdmission
  | .ticketDropped err => err ≠ some .cancelledAfterAdmission
  | .finished => t.suspended = none
  | .permitDropped .acquire => True
  | _ => t.suspended = none → t.admissions = 0

theorem wf_start (r : SchedulerClass × GenerationPhase) : Wf (start r : Task N.Notified) :=
  ⟨nofun, nofun, fun _ => rfl⟩

theorem fresh_new (phase : GenerationPhase) : Fresh (SchedulerPermit.new phase) := ⟨rfl, rfl⟩

/-- A request that was admitted, has no slot and is not counted as ended: it waits to
be admitted again, or that failed and its permit is still to be dropped. -/
def readmission (t : Task N.Notified) : ℕ :=
  match t.pc with
  | .held p => if !p.active && p.terminalOnDrop then 1 else 0
  | .dropPermit p .owner => if !p.active && p.terminalOnDrop then 1 else 0
  | .dropPermit _ .acquire => 0
  | .starvationWait _ _ => 0
  | .admitUnlessCancelled _ => 0
  | .recordYield _ _ => 0
  | .permitDropped _ => 0
  | .dropTicket _ none => 0
  | .ticketDropped none => 0
  | .finished => 0
  | _ => if t.suspended.isSome then 1 else 0

/-! ### Returning from `acquire` -/

theorem completeReadmissionError_active (p : SchedulerPermit) (err : SchedulerAcquireError) :
    (p.completeReadmissionError err).active = p.active := by
  cases err <;> rfl

theorem wf_returnErr (h : ∀ q ∈ t.suspended, q.1.active = false ∧ q.1.terminalOnDrop = false)
    (err : SchedulerAcquireError) : (t.returnErr err).Wf := by
  unfold returnErr
  cases hs : t.suspended with
  | none => exact ⟨by simp [goto, hs], nofun, hs⟩
  | some q =>
    refine ⟨nofun, nofun, rfl, fun ha => ?_⟩
    rw [completeReadmissionError_active, (h q (by simp [hs])).1] at ha
    cases ha

theorem wf_returnDropped (h : ∀ q ∈ t.suspended, q.1.active = false ∧ q.1.terminalOnDrop = false) :
    t.returnDropped.Wf := by
  unfold returnDropped
  cases hs : t.suspended with
  | none => exact ⟨by simp [goto, hs], nofun, hs⟩
  | some q =>
    refine ⟨nofun, nofun, rfl, fun ha => ?_⟩
    rw [(h q (by simp [hs])).1] at ha
    cases ha

theorem wf_returnOk (h : ∀ q ∈ t.suspended, q.1.active = false ∧ q.1.terminalOnDrop = false)
    (hp : Fresh p) : (t.returnOk p).Wf := by
  unfold returnOk
  cases hs : t.suspended with
  | none => exact ⟨by simp [goto, hs], nofun, hs, fun _ => hp.2⟩
  | some q => exact ⟨fun q' hq' => h q' hq', nofun, hp, by simp [goto, hs]⟩

theorem wf_afterTicketDrop
    (h : ∀ q ∈ t.suspended, q.1.active = false ∧ q.1.terminalOnDrop = false)
    (err : Option SchedulerAcquireError) : (t.afterTicketDrop err).Wf := by
  cases err with
  | none => exact wf_returnDropped h
  | some err => exact wf_returnErr h err

/-! ### The flags along a step -/

theorem Wf.poll {elapsed : ℕ} (h : t.Wf) (hs : t.poll opts elapsed sh = some (sh', t')) : t'.Wf := by
  obtain ⟨cancelled, cls, phase, suspended, pc, admissions, recorded, abandoned⟩ := t
  obtain ⟨hsus, htick, hpc⟩ := h
  cases pc with
  | acquire =>
    obtain ⟨-, rfl⟩ := Prod.mk.inj (Option.some.inj hs)
    dsimp only
    split
    · exact wf_returnErr hsus _
    · exact ⟨hsus, nofun, hpc⟩
  | tryAcquireImmediate =>
    simp only [Task.poll] at hs
    split at hs
    · rename_i st p hi
      obtain ⟨-, rfl⟩ := Prod.mk.inj (Option.some.inj hs)
      obtain ⟨-, -, -, rfl⟩ := ModelSchedulerState.tryAcquireImmediate_eq_some hi
      exact ⟨hsus, nofun, fresh_new _⟩
    · obtain ⟨-, rfl⟩ := Prod.mk.inj (Option.some.inj hs)
      exact ⟨hsus, nofun, hpc⟩
  | enqueue =>
    simp only [Task.poll] at hs
    split at hs
    · rename_i st ticket he
      obtain ⟨-, rfl⟩ := Prod.mk.inj (Option.some.inj hs)
      obtain ⟨-, -, hc, ha, -⟩ := ModelSchedulerState.enqueue_eq_ok he
      exact ⟨hsus, fun _ hx => Option.some.inj hx ▸ ⟨ha, hc⟩, hpc⟩
    · obtain ⟨-, rfl⟩ := Prod.mk.inj (Option.some.inj hs)
      exact wf_returnErr hsus _
  | enqueued ticket =>
    obtain ⟨-, rfl⟩ := Prod.mk.inj (Option.some.inj hs)
    exact ⟨hsus, htick, hpc⟩
  | loopTop ticket =>
    obtain ⟨-, rfl⟩ := Prod.mk.inj (Option.some.inj hs)
    dsimp only
    split
    · exact ⟨hsus, htick, nofun⟩
    · exact ⟨hsus, htick, hpc⟩
  | subscribe ticket =>
    obtain ⟨-, rfl⟩ := Prod.mk.inj (Option.some.inj hs)
    exact ⟨hsus, htick, hpc⟩
  | tryAdmitQueued ticket notified =>
    simp only [Task.poll] at hs
    by_cases ha : ModelSchedulerState.Admissible opts sh.state cls ticket.id
    · rw [ModelSchedulerState.tryAdmitQueued_of_admissible phase ha] at hs
      obtain ⟨-, rfl⟩ := Prod.mk.inj (Option.some.inj hs)
      exact ⟨hsus, nofun, fresh_new _⟩
    · rw [ModelSchedulerState.tryAdmitQueued_of_not_admissible phase ha] at hs
      obtain ⟨-, rfl⟩ := Prod.mk.inj (Option.some.inj hs)
      exact ⟨hsus, htick, hpc⟩
  | select ticket notified => cases hs
  | starvationWait b p =>
    obtain ⟨-, rfl⟩ := Prod.mk.inj (Option.some.inj hs)
    exact ⟨hsus, nofun, hpc⟩
  | admitUnlessCancelled p =>
    obtain ⟨-, rfl⟩ := Prod.mk.inj (Option.some.inj hs)
    dsimp only
    split
    · exact ⟨hsus, nofun, hpc⟩
    · exact wf_returnOk hsus hpc
  | dropTicket ticket err =>
    simp only [Task.poll] at hs
    split at hs
    · obtain ⟨-, rfl⟩ := Prod.mk.inj (Option.some.inj hs)
      exact ⟨hsus, nofun, hpc⟩
    · obtain ⟨-, rfl⟩ := Prod.mk.inj (Option.some.inj hs)
      exact wf_afterTicketDrop hsus err
  | ticketDropped err =>
    obtain ⟨-, rfl⟩ := Prod.mk.inj (Option.some.inj hs)
    exact wf_afterTicketDrop hsus err
  | dropPermit p by_ =>
    simp only [Task.poll] at hs
    split at hs
    · obtain ⟨-, rfl⟩ := Prod.mk.inj (Option.some.inj hs)
      cases by_
      · exact ⟨hsus, nofun, trivial⟩
      · exact ⟨hsus, nofun, hpc.1⟩
    · obtain ⟨-, rfl⟩ := Prod.mk.inj (Option.some.inj hs)
      cases by_
      · exact wf_returnErr hsus _
      · exact ⟨hsus, nofun, hpc.1⟩
  | permitDropped by_ =>
    obtain ⟨-, rfl⟩ := Prod.mk.inj (Option.some.inj hs)
    cases by_
    · exact wf_returnErr hsus _
    · exact ⟨hsus, nofun, hpc⟩
  | recordYield p release =>
    obtain ⟨-, rfl⟩ := Prod.mk.inj (Option.some.inj hs)
    exact ⟨nofun, nofun, rfl, fun _ => hpc.1.2⟩
  | held p => cases hs
  | yielded =>
    obtain ⟨-, rfl⟩ := Prod.mk.inj (Option.some.inj hs)
    exact ⟨hsus, nofun, fun hn => by rw [hn] at hpc; cases hpc⟩
  | finished => cases hs

theorem Wf.wake {w : Wakeup} (h : t.Wf) (hs : t.wake opts w sh = some t') : t'.Wf := by
  obtain ⟨cancelled, cls, phase, suspended, pc, admissions, recorded, abandoned⟩ := t
  obtain ⟨hsus, htick, hpc⟩ := h
  cases pc with
  | select ticket notified =>
    have hticket := htick ticket rfl
    simp only [Task.wake] at hs
    split at hs
    · split at hs
      · obtain rfl := Option.some.inj hs
        exact ⟨hsus, htick, hpc⟩
      · cases hs
    · split at hs
      · obtain rfl := Option.some.inj hs
        exact ⟨hsus, htick, nofun⟩
      · cases hs
    · split at hs
      · obtain rfl := Option.some.inj hs
        exact ⟨hsus, fun _ hx => Option.some.inj hx ▸ hticket, nofun⟩
      · cases hs
    · obtain rfl := Option.some.inj hs
      exact ⟨hsus, htick, nofun⟩
  | _ => cases hs

theorem Wf.permitOp {op : PermitOp} (h : t.Wf) (hs : permitOp op sh t = some (sh', t')) : t'.Wf := by
  obtain ⟨cancelled, cls, phase, suspended, pc, admissions, recorded, abandoned⟩ := t
  obtain ⟨hsus, htick, hpc⟩ := h
  cases pc with
  | held p =>
    cases op with
    | transitionToDecode =>
      simp only [Task.permitOp] at hs
      split at hs
      · obtain ⟨-, rfl⟩ := Prod.mk.inj (Option.some.inj hs)
        exact ⟨hsus, htick, hpc⟩
      · obtain ⟨-, rfl⟩ := Prod.mk.inj (Option.some.inj hs)
        exact ⟨hsus, nofun, hpc⟩
    | yieldPrefillChunk =>
      simp only [Task.permitOp, yieldPrefillChunk] at hs
      split at hs
      · obtain ⟨-, rfl⟩ := Prod.mk.inj (Option.some.inj hs)
        exact ⟨hsus, htick, hpc⟩
      · split at hs
        · obtain ⟨-, rfl⟩ := Prod.mk.inj (Option.some.inj hs)
          exact ⟨hsus, nofun, hpc⟩
        · obtain ⟨-, rfl⟩ := Prod.mk.inj (Option.some.inj hs)
          exact ⟨fun _ hx => Option.some.inj hx ▸ ⟨rfl, rfl⟩, nofun, rfl⟩
    | markFailed =>
      obtain ⟨-, rfl⟩ := Prod.mk.inj (Option.some.inj hs)
      exact ⟨hsus, nofun, hpc⟩
    | markCancelled =>
      obtain ⟨-, rfl⟩ := Prod.mk.inj (Option.some.inj hs)
      exact ⟨hsus, nofun, hpc⟩
    | drop =>
      obtain ⟨-, rfl⟩ := Prod.mk.inj (Option.some.inj hs)
      exact ⟨hsus, nofun, hpc⟩
  | _ => cases hs

theorem Wf.step {a : Action} (h : t.Wf) (hs : step opts a sh t = some (sh', t')) : t'.Wf := by
  cases a with
  | cancel =>
    obtain ⟨-, rfl⟩ := Prod.mk.inj (Option.some.inj hs)
    exact h
  | poll elapsed => exact h.poll hs
  | wake w =>
    obtain ⟨t₁, ht, he⟩ := Option.map_eq_some_iff.mp hs
    obtain ⟨-, rfl⟩ := Prod.mk.inj he
    exact h.wake ht
  | permit op => exact h.permitOp hs

/-! ### The effect of a step -/

/-- The request holds after a step what it held before. -/
structure Kept (t t' : Task N.Notified) : Prop where
  slots : ∀ ph, t'.slots ph = t.slots ph
  waits : ∀ cls, t'.waits cls = t.waits cls
  admissions : t'.admissions = t.admissions
  recorded : t'.recorded = t.recorded
  pending : t'.readmission + t'.abandoned = t.readmission + t.abandoned

/-- What a step of a request can do. -/
inductive Effect (opts : ModelSchedulerOptions) (sh : Shared N) (t : Task N.Notified) :
    Shared N → Task N.Notified → Prop
  | quiet (st' : ModelSchedulerState) (t' : Task N.Notified) (hq : sh.state.Quiet st')
      (hk : Kept t t') (hn : t'.pc.notifies = t.pc.notifies)
      (hs : t'.pc.sleeping = none ∨ t'.pc = t.pc)
      (hsub : ∀ n, t'.pc.subscription = some n →
        t.pc.subscription = some n ∨ n = N.notified sh.notify) :
      Effect opts sh t { sh with state := st' } t'
  | notify (t' : Task N.Notified) (hk : Kept t t') (hs : t'.pc.subscription = none) :
      Effect opts sh t sh.notifyWaiters t'
  | sleep (ticket : QueuedSchedulerTicket) (notified : N.Notified)
      (hpc : t.pc = .tryAdmitQueued ticket notified)
      (hno : ¬ ModelSchedulerState.Admissible opts sh.state t.cls ticket.id) :
      Effect opts sh t sh (t.goto (.select ticket notified))
  | admitImmediate (hpc : t.pc = .tryAcquireImmediate)
      (hfree : sh.state.activeTotal < opts.concurrencyLimit) (hempty : sh.state.queuedTotal = 0) :
      Effect opts sh t { sh with state := sh.state.startActive t.cls t.phase }
        (t.countAdmission.goto (.admitUnlessCancelled (.new t.phase)))
  | admitQueued (ticket : QueuedSchedulerTicket) (notified : N.Notified)
      (hpc : t.pc = .tryAdmitQueued ticket notified)
      (ha : ModelSchedulerState.Admissible opts sh.state t.cls ticket.id) :
      Effect opts sh t
        { sh with state := (sh.state.modifyQueue t.cls List.tail).startActive t.cls t.phase }
        (t.countAdmission.goto (.starvationWait ticket.decodeStarvation (.new t.phase)))
  | enqueue (st' : ModelSchedulerState) (ticket : QueuedSchedulerTicket) (hpc : t.pc = .enqueue)
      (he : sh.state.enqueue opts t.cls = .ok (st', ticket)) :
      Effect opts sh t { sh with state := st' } (t.goto (.enqueued ticket))
  | dropTicket (st' : ModelSchedulerState) (ticket : QueuedSchedulerTicket)
      (err : Option SchedulerAcquireError) (hpc : t.pc = .dropTicket ticket err)
      (hd : ticket.drop sh.state = some st') :
      Effect opts sh t { sh with state := st' } (t.goto (.ticketDropped err))
  | finishActive (p : SchedulerPermit) (by_ : Dropper) (hpc : t.pc = .dropPermit p by_)
      (hp : p.active = true) :
      Effect opts sh t { sh with state := sh.state.finishActive p.phase p.outcome }
        { t with pc := .permitDropped by_, recorded := t.recorded + 1 }
  | finishInactive (p : SchedulerPermit) (hpc : t.pc = .dropPermit p .owner)
      (hp : p.active = false) (ht : p.terminalOnDrop = true) :
      Effect opts sh t { sh with state := sh.state.finishInactive p.outcome }
        { t with pc := .permitDropped .owner, recorded := t.recorded + 1 }
  | transition (p : SchedulerPermit) (hpc : t.pc = .held p) (hp : p.active = true)
      (hph : p.phase = .prefill) :
      Effect opts sh t { sh with state := sh.state.transitionToDecode }
        (t.goto (.held { p with phase := .decode }))
  | release (p : SchedulerPermit) (r : PrefillYieldRelease) (hpc : t.pc = .held p)
      (hp : p.active = true) (hph : p.phase = .prefill) :
      Effect opts sh t { sh with state := sh.state.releasePrefillForYield.1 }
        { t with
          suspended := some ({ p with active := false, terminalOnDrop := false }, r)
          pc := .yielded }

theorem waits_of_ticket_none (h : t.pc.ticket = none) (cls : SchedulerClass) : t.waits cls = 0 := by
  unfold waits
  rw [h]

theorem Wf.slots_eq (h : t.Wf) (ph : GenerationPhase) : t.slots ph = t.pc.slots ph := by
  unfold slots permits Pc.slots
  cases hs : t.suspended with
  | none => rfl
  | some q => simp [(h.1 q (by simp [hs])).1]

/-- For requests with the flags right, what they hold is what stands at their
places. -/
theorem Wf.kept (h : t.Wf) (h' : t'.Wf) (hslots : t'.pc.slots = t.pc.slots)
    (hwaits : ∀ cls, t'.waits cls = t.waits cls) (hadm : t'.admissions = t.admissions)
    (hrec : t'.recorded = t.recorded)
    (hpend : t'.readmission + t'.abandoned = t.readmission + t.abandoned) : Kept t t' :=
  ⟨fun ph => by rw [h.slots_eq, h'.slots_eq, hslots], hwaits, hadm, hrec, hpend⟩

theorem pc_returnErr (t : Task N.Notified) (err : SchedulerAcquireError) :
    (t.returnErr err).pc.ticket = none ∧ (t.returnErr err).pc.notifies = false ∧
      (t.returnErr err).pc.subscription = none := by
  unfold returnErr
  cases t.suspended <;> exact ⟨rfl, rfl, rfl⟩

theorem history_returnErr (t : Task N.Notified) (err : SchedulerAcquireError) :
    (t.returnErr err).admissions = t.admissions ∧ (t.returnErr err).recorded = t.recorded ∧
      (t.returnErr err).abandoned = t.abandoned := by
  unfold returnErr
  cases t.suspended <;> exact ⟨rfl, rfl, rfl⟩

theorem slots_returnErr (h : ∀ q ∈ t.suspended, q.1.active = false ∧ q.1.terminalOnDrop = false)
    (err : SchedulerAcquireError) : (t.returnErr err).pc.slots = fun _ => 0 := by
  unfold returnErr
  cases hs : t.suspended with
  | none => rfl
  | some q =>
    funext ph
    simp [Pc.slots, Pc.permit, completeReadmissionError_active, (h q (by simp [hs])).1]

theorem readmission_returnErr (h : ∀ q ∈ t.suspended, q.1.active = false ∧ q.1.terminalOnDrop = false)
    (err : SchedulerAcquireError) : (t.returnErr err).readmission =
      if t.suspended.isSome ∧ err ≠ .cancelledAfterAdmission then 1 else 0 := by
  unfold returnErr
  cases hs : t.suspended with
  | none => simp [readmission, goto]
  | some q =>
    have hq := h q (by simp [hs])
    cases err <;> simp [readmission, SchedulerPermit.completeReadmissionError, hq.1]

/-- `acquire` returns an error from a place without a permit or a ticket. -/
theorem Wf.kept_returnErr (h : t.Wf) (err : SchedulerAcquireError)
    (hslots : t.pc.slots = fun _ => 0) (ht : t.pc.ticket = none)
    (hr : t.readmission = if t.suspended.isSome ∧ err ≠ .cancelledAfterAdmission then 1 else 0) :
    Kept t (t.returnErr err) := by
  obtain ⟨hadm, hrec, haband⟩ := history_returnErr t err
  refine h.kept (wf_returnErr h.1 err) ?_ (fun cls => ?_) hadm hrec ?_
  · rw [slots_returnErr h.1, hslots]
  · rw [waits_of_ticket_none (pc_returnErr t err).1, waits_of_ticket_none ht]
  · rw [readmission_returnErr h.1, haband, hr]

theorem Wf.effect_returnErr (h : t.Wf) (err : SchedulerAcquireError)
    (hslots : t.pc.slots = fun _ => 0) (ht : t.pc.ticket = none)
    (hr : t.readmission = if t.suspended.isSome ∧ err ≠ .cancelledAfterAdmission then 1 else 0)
    (hn : t.pc.notifies = false) : Effect opts sh t sh (t.returnErr err) := by
  obtain ⟨-, hn', hsub⟩ := pc_returnErr t err
  refine .quiet _ _ (.refl _) (h.kept_returnErr err hslots ht hr) (hn'.trans hn.symm)
    (.inl (Pc.sleeping_of_subscription hsub)) fun n h => ?_
  rw [hsub] at h
  cases h

theorem Wf.kept_returnDropped (h : t.Wf) (hpc : t.pc = .ticketDropped none) :
    Kept t t.returnDropped := by
  have hslots : t.pc.slots = fun _ => 0 := by rw [hpc]; rfl
  have hr : t.readmission = 0 := by simp [readmission, hpc]
  have hw : ∀ cls, t.waits cls = 0 := waits_of_ticket_none (by rw [hpc]; rfl)
  have hd := wf_returnDropped h.1
  unfold returnDropped at hd ⊢
  cases hs : t.suspended with
  | none =>
    simp only [hs] at hd
    exact h.kept hd hslots.symm (fun cls => (hw cls).symm) rfl rfl (by rw [hr]; rfl)
  | some q =>
    have hq := h.1 q (by simp [hs])
    simp only [hs] at hd
    refine h.kept hd ?_ (fun cls => (hw cls).symm) rfl rfl ?_
    · rw [hslots]
      funext ph
      simp [Pc.slots, Pc.permit, hq.1]
    · rw [hr]
      simp [readmission, hq.1, hq.2]

theorem pc_afterTicketDrop (t : Task N.Notified) (err : Option SchedulerAcquireError) :
    (t.afterTicketDrop err).pc.subscription = none := by
  cases err with
  | none =>
    simp only [afterTicketDrop, returnDropped]
    cases t.suspended <;> rfl
  | some err => exact (pc_returnErr t err).2.2

theorem Wf.kept_afterTicketDrop {err : Option SchedulerAcquireError} (h : t.Wf)
    (hpc : t.pc = .ticketDropped err) (he : err ≠ some .cancelledAfterAdmission) :
    Kept t (t.afterTicketDrop err) := by
  cases err with
  | none => exact h.kept_returnDropped hpc
  | some err =>
    refine h.kept_returnErr err ?_ ?_ ?_
    · rw [hpc]
      rfl
    · rw [hpc]
      rfl
    · have he' : err ≠ .cancelledAfterAdmission := fun e => he (e ▸ rfl)
      simp [readmission, hpc, he']

theorem Wf.kept_afterPermitDrop {by_ : Dropper} (h : t.Wf) (hpc : t.pc = .permitDropped by_) :
    Kept t (t.afterPermitDrop by_) := by
  have hslots : t.pc.slots = fun _ => 0 := by rw [hpc]; rfl
  have ht : t.pc.ticket = none := by rw [hpc]; rfl
  have hr : t.readmission = 0 := by simp [readmission, hpc]
  cases by_ with
  | acquire => exact h.kept_returnErr _ hslots ht (by simp [hr])
  | owner =>
    have hsus : t.suspended = none := by
      have hp := h.2.2
      rw [hpc] at hp
      exact hp
    have hf : (t.goto .finished).Wf := ⟨h.1, nofun, hsus⟩
    exact h.kept hf hslots.symm (fun cls => (waits_of_ticket_none ht cls).symm) rfl rfl
      (by rw [hr]; rfl)

theorem prefill_of_not (h : ¬ (p.phase = .decode ∨ p.active = false)) :
    p.phase = .prefill ∧ p.active = true := by
  rw [not_or, Bool.not_eq_false] at h
  refine ⟨?_, h.2⟩
  cases hp : p.phase with
  | prefill => rfl
  | decode => exact absurd hp h.1

theorem poll_effect {elapsed : ℕ} (h : t.Wf) (hs : t.poll opts elapsed sh = some (sh', t')) :
    Effect opts sh t sh' t' := by
  have h' := h.poll hs
  obtain ⟨cancelled, cls, phase, suspended, pc, admissions, recorded, abandoned⟩ := t
  cases pc with
  | acquire =>
    obtain ⟨rfl, rfl⟩ := Prod.mk.inj (Option.some.inj hs)
    cases cancelled with
    | true => exact h.effect_returnErr _ rfl rfl (by simp [readmission]) rfl
    | false => exact .quiet _ _ (.refl _) (h.kept h' rfl (fun _ => rfl) rfl rfl rfl) rfl (.inl rfl) nofun
  | tryAcquireImmediate =>
    simp only [Task.poll] at hs
    split at hs
    · rename_i st p hi
      obtain ⟨rfl, rfl⟩ := Prod.mk.inj (Option.some.inj hs)
      obtain ⟨hfree, hempty, rfl, rfl⟩ := ModelSchedulerState.tryAcquireImmediate_eq_some hi
      exact .admitImmediate rfl hfree hempty
    · obtain ⟨rfl, rfl⟩ := Prod.mk.inj (Option.some.inj hs)
      exact .quiet _ _ (.refl _) (h.kept h' rfl (fun _ => rfl) rfl rfl rfl) rfl (.inl rfl) nofun
  | enqueue =>
    simp only [Task.poll] at hs
    split at hs
    · rename_i st ticket he
      obtain ⟨rfl, rfl⟩ := Prod.mk.inj (Option.some.inj hs)
      exact .enqueue st ticket rfl he
    · rename_i err he
      obtain ⟨rfl, rfl⟩ := Prod.mk.inj (Option.some.inj hs)
      obtain rfl : err = .queueFull := ModelSchedulerState.enqueue_eq_error he
      exact h.effect_returnErr _ rfl rfl (by simp [readmission]) rfl
  | enqueued ticket =>
    obtain ⟨rfl, rfl⟩ := Prod.mk.inj (Option.some.inj hs)
    exact .notify _ (h.kept h' rfl (fun _ => rfl) rfl rfl rfl) rfl
  | loopTop ticket =>
    obtain ⟨rfl, rfl⟩ := Prod.mk.inj (Option.some.inj hs)
    cases cancelled with
    | true => exact .quiet _ _ (.refl _) (h.kept h' rfl (fun _ => rfl) rfl rfl rfl) rfl (.inl rfl) nofun
    | false => exact .quiet _ _ (.refl _) (h.kept h' rfl (fun _ => rfl) rfl rfl rfl) rfl (.inl rfl) nofun
  | subscribe ticket =>
    obtain ⟨rfl, rfl⟩ := Prod.mk.inj (Option.some.inj hs)
    exact .quiet _ _ (.refl _) (h.kept h' rfl (fun _ => rfl) rfl rfl rfl) rfl (.inl rfl)
      fun _ hn => .inr (Option.some.inj hn).symm
  | tryAdmitQueued ticket notified =>
    simp only [Task.poll] at hs
    by_cases ha : ModelSchedulerState.Admissible opts sh.state cls ticket.id
    · rw [ModelSchedulerState.tryAdmitQueued_of_admissible phase ha] at hs
      obtain ⟨rfl, rfl⟩ := Prod.mk.inj (Option.some.inj hs)
      exact .admitQueued ticket notified rfl ha
    · rw [ModelSchedulerState.tryAdmitQueued_of_not_admissible phase ha] at hs
      obtain ⟨rfl, rfl⟩ := Prod.mk.inj (Option.some.inj hs)
      exact .sleep ticket notified rfl ha
  | select ticket notified => cases hs
  | starvationWait b p =>
    obtain ⟨rfl, rfl⟩ := Prod.mk.inj (Option.some.inj hs)
    refine .quiet _ _ ?_ (h.kept h' rfl (fun _ => rfl) rfl rfl rfl) rfl (.inl rfl) nofun
    cases b with
    | true => exact ModelSchedulerState.quiet_recordDecodeStarvationWait _ _
    | false => exact .refl _
  | admitUnlessCancelled p =>
    obtain ⟨rfl, rfl⟩ := Prod.mk.inj (Option.some.inj hs)
    cases cancelled with
    | true => exact .quiet _ _ (.refl _) (h.kept h' rfl (fun _ => rfl) rfl rfl rfl) rfl (.inl rfl) nofun
    | false =>
      cases suspended with
      | none =>
        refine .quiet _ _ (.refl _) (h.kept h' rfl (fun _ => rfl) rfl rfl ?_) rfl (.inl rfl) nofun
        have hp : Fresh p := h.2.2
        simp [readmission, returnOk, goto, hp.1]
      | some q => exact .quiet _ _ (.refl _) (h.kept h' rfl (fun _ => rfl) rfl rfl rfl) rfl (.inl rfl) nofun
  | dropTicket ticket err =>
    simp only [Task.poll] at hs
    split at hs
    · rename_i st hd
      obtain ⟨rfl, rfl⟩ := Prod.mk.inj (Option.some.inj hs)
      exact .dropTicket st ticket err rfl hd
    · rename_i hd
      have hadm := (h.2.1 ticket rfl).1
      simp only [QueuedSchedulerTicket.drop, hadm, Bool.false_eq_true, if_false] at hd
      split at hd <;> cases hd
  | ticketDropped err =>
    obtain ⟨rfl, rfl⟩ := Prod.mk.inj (Option.some.inj hs)
    exact .notify _ (h.kept_afterTicketDrop rfl (h.2.2)) (pc_afterTicketDrop _ err)
  | dropPermit p by_ =>
    simp only [Task.poll, SchedulerPermit.drop] at hs
    cases hterm : p.terminalOnDrop with
    | true =>
      simp only [hterm, if_true] at hs
      obtain ⟨rfl, rfl⟩ := Prod.mk.inj (Option.some.inj hs)
      cases hact : p.active with
      | true => exact .finishActive p by_ rfl hact
      | false =>
        cases by_ with
        | acquire => exact absurd (h.2.2 : Fresh p).1 (by simp [hact])
        | owner => exact .finishInactive p rfl hact hterm
    | false =>
      simp only [hterm, Bool.false_eq_true, if_false] at hs
      obtain ⟨rfl, rfl⟩ := Prod.mk.inj (Option.some.inj hs)
      cases by_ with
      | acquire => exact absurd (h.2.2 : Fresh p).2 (by simp [hterm])
      | owner =>
        have hact : p.active = false := by
          cases hact : p.active with
          | true => exact absurd (h.2.2.2 hact) (by simp [hterm])
          | false => rfl
        refine .quiet _ _ (.refl _) (h.kept h' ?_ (fun _ => rfl) rfl rfl ?_) rfl (.inl rfl) nofun
        · funext ph
          simp [afterPermitDrop, goto, Pc.slots, Pc.permit, hact]
        · simp [afterPermitDrop, goto, readmission, hterm]
  | permitDropped by_ =>
    obtain ⟨rfl, rfl⟩ := Prod.mk.inj (Option.some.inj hs)
    refine .notify _ (h.kept_afterPermitDrop rfl) ?_
    cases by_ with
    | acquire => exact (pc_returnErr _ _).2.2
    | owner => rfl
  | recordYield p release =>
    obtain ⟨rfl, rfl⟩ := Prod.mk.inj (Option.some.inj hs)
    have hp : Fresh p := h.2.2.1
    refine .quiet _ _ (ModelSchedulerState.quiet_recordPrefillYieldSuccess _ _ _)
      (h.kept h' rfl (fun _ => rfl) rfl rfl ?_) rfl (.inl rfl) nofun
    simp [readmission, hp.1]
  | held p => cases hs
  | yielded =>
    obtain ⟨rfl, rfl⟩ := Prod.mk.inj (Option.some.inj hs)
    exact .notify _ (h.kept h' rfl (fun _ => rfl) rfl rfl rfl) rfl
  | finished => cases hs

theorem wake_effect {w : Wakeup} (h : t.Wf) (hs : t.wake opts w sh = some t') :
    Effect opts sh t sh t' := by
  have h' := h.wake hs
  obtain ⟨cancelled, cls, phase, suspended, pc, admissions, recorded, abandoned⟩ := t
  cases pc with
  | select ticket notified =>
    simp only [Task.wake] at hs
    cases w with
    | notified =>
      obtain ⟨-, he⟩ := Option.ite_none_right_eq_some.mp hs
      obtain rfl := Option.some.inj he
      exact .quiet _ _ (.refl _) (h.kept h' rfl (fun _ => rfl) rfl rfl rfl) rfl (.inl rfl) nofun
    | cancelled =>
      obtain ⟨-, he⟩ := Option.ite_none_right_eq_some.mp hs
      obtain rfl := Option.some.inj he
      exact .quiet _ _ (.refl _) (h.kept h' rfl (fun _ => rfl) rfl rfl rfl) rfl (.inl rfl) nofun
    | deadline =>
      obtain ⟨-, he⟩ := Option.ite_none_right_eq_some.mp hs
      obtain rfl := Option.some.inj he
      exact .quiet _ _ (.refl _) (h.kept h' rfl (fun _ => rfl) rfl rfl rfl) rfl (.inl rfl) nofun
    | dropped =>
      obtain rfl := Option.some.inj hs
      refine .quiet _ _ (.refl _) (h.kept h' rfl (fun _ => rfl) rfl rfl ?_) rfl (.inl rfl) nofun
      simp only [readmission]
      omega
  | _ => cases hs

theorem permitOp_effect {op : PermitOp} (h : t.Wf) (hs : permitOp op sh t = some (sh', t')) :
    Effect opts sh t sh' t' := by
  have h' := h.permitOp hs
  obtain ⟨cancelled, cls, phase, suspended, pc, admissions, recorded, abandoned⟩ := t
  cases pc with
  | held p =>
    cases op with
    | transitionToDecode =>
      simp only [Task.permitOp] at hs
      split at hs
      · obtain ⟨rfl, rfl⟩ := Prod.mk.inj (Option.some.inj hs)
        exact .quiet _ _ (.refl _) (h.kept h rfl (fun _ => rfl) rfl rfl rfl) rfl (.inr rfl)
          fun _ hn => .inl hn
      · rename_i hp
        obtain ⟨rfl, rfl⟩ := Prod.mk.inj (Option.some.inj hs)
        obtain ⟨hph, hact⟩ := prefill_of_not hp
        exact .transition p rfl hact hph
    | yieldPrefillChunk =>
      simp only [Task.permitOp, yieldPrefillChunk] at hs
      split at hs
      · obtain ⟨rfl, rfl⟩ := Prod.mk.inj (Option.some.inj hs)
        exact .quiet _ _ (.refl _) (h.kept h rfl (fun _ => rfl) rfl rfl rfl) rfl (.inr rfl)
          fun _ hn => .inl hn
      · rename_i hp
        obtain ⟨hph, hact⟩ := prefill_of_not hp
        split at hs
        · obtain ⟨rfl, rfl⟩ := Prod.mk.inj (Option.some.inj hs)
          exact .quiet _ _ (.refl _) (h.kept h' rfl (fun _ => rfl) rfl rfl rfl) rfl (.inl rfl) nofun
        · obtain ⟨rfl, rfl⟩ := Prod.mk.inj (Option.some.inj hs)
          exact .release p _ rfl hact hph
    | markFailed =>
      obtain ⟨rfl, rfl⟩ := Prod.mk.inj (Option.some.inj hs)
      exact .quiet _ _ (.refl _) (h.kept h' rfl (fun _ => rfl) rfl rfl rfl) rfl (.inl rfl) nofun
    | markCancelled =>
      obtain ⟨rfl, rfl⟩ := Prod.mk.inj (Option.some.inj hs)
      exact .quiet _ _ (.refl _) (h.kept h' rfl (fun _ => rfl) rfl rfl rfl) rfl (.inl rfl) nofun
    | drop =>
      obtain ⟨rfl, rfl⟩ := Prod.mk.inj (Option.some.inj hs)
      exact .quiet _ _ (.refl _) (h.kept h' rfl (fun _ => rfl) rfl rfl rfl) rfl (.inl rfl) nofun
  | _ => cases hs

/-- Every step of a request is one of the effects. -/
theorem step_effect {a : Action} (h : t.Wf) (hs : step opts a sh t = some (sh', t')) :
    Effect opts sh t sh' t' := by
  cases a with
  | cancel =>
    obtain ⟨rfl, rfl⟩ := Prod.mk.inj (Option.some.inj hs)
    exact .quiet _ _ (.refl _) (h.kept h rfl (fun _ => rfl) rfl rfl rfl) rfl (.inr rfl)
          fun _ hn => .inl hn
  | poll elapsed => exact poll_effect h hs
  | wake w =>
    obtain ⟨t₁, ht, he⟩ := Option.map_eq_some_iff.mp hs
    obtain ⟨rfl, rfl⟩ := Prod.mk.inj he
    exact wake_effect h ht
  | permit op => exact permitOp_effect h hs

end Task

end KirAi.Server
