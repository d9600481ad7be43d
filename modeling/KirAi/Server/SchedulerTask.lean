/-
# A request's way through the scheduler

`ModelScheduler::acquire` and the methods of `SchedulerPermit` are async: a
request runs from one lock or notification to the next, and other requests run in
between. `Pc` names the places where another request may come in. One `Task.step`
goes from one place to the next: it takes the lock once, or calls the notifier
once, or only looks at the request's own cancellation token.

The await of the source is `select`: there the request waits for its
notification, for its cancellation or for the deadline, and there its future can
be dropped. A permit in the hands of its owner (`held`) can be dropped at any
time. `yield_prefill_chunk` gives the slot back and calls `acquire` again with its
own permit set aside (`suspended`).

Key definitions:
* `Pc`, `Task`, `Shared`, `Action`
* `Task.poll`: the code from one place to the next
* `Task.wake`: how the await ends
* `PermitOp`, `Task.permitOp`: what an owner does with a permit
* `scheduler`: all of it as a program of interleaved tasks
-/
import KirAi.Lib.Interleaving
import KirAi.Lib.Notify
import KirAi.Server.Scheduler

namespace KirAi.Server

open Lib

/-- Who drops a permit: `acquire`, cancelled after admission, or its owner. -/
inductive Dropper
  | acquire
  | owner
deriving DecidableEq, Repr

/-- Where a request is. The places after a lock that come before its
`notify_waiters` are `enqueued`, `ticketDropped`, `permitDropped` and `yielded`. -/
inductive Pc (ν : Type)
  | acquire
  | tryAcquireImmediate
  | enqueue
  | enqueued (ticket : QueuedSchedulerTicket)
  | loopTop (ticket : QueuedSchedulerTicket)
  | subscribe (ticket : QueuedSchedulerTicket)
  | tryAdmitQueued (ticket : QueuedSchedulerTicket) (notified : ν)
  | select (ticket : QueuedSchedulerTicket) (notified : ν)
  | starvationWait (decodeStarvation : Bool) (permit : SchedulerPermit)
  | admitUnlessCancelled (permit : SchedulerPermit)
  -- `err` is what `acquire` returns after the drop, `none` when its future is dropped.
  | dropTicket (ticket : QueuedSchedulerTicket) (err : Option SchedulerAcquireError)
  | ticketDropped (err : Option SchedulerAcquireError)
  | dropPermit (permit : SchedulerPermit) (by_ : Dropper)
  | permitDropped (by_ : Dropper)
  | recordYield (permit : SchedulerPermit) (release : PrefillYieldRelease)
  | held (permit : SchedulerPermit)
  | yielded
  | finished
deriving DecidableEq, Repr

/-- A request. `cls` and `phase` are the arguments of the `acquire` it is in. The
last three fields are its history: how often it was admitted, how often it was
counted as ended, and whether a pending yield of it was dropped. -/
structure Task (ν : Type) where
  cancelled : Bool
  cls : SchedulerClass
  phase : GenerationPhase
  suspended : Option (SchedulerPermit × PrefillYieldRelease)
  pc : Pc ν
  admissions : ℕ
  recorded : ℕ
  abandoned : ℕ
deriving DecidableEq, Repr

structure Shared (N : Notify.Api) where
  state : ModelSchedulerState
  notify : N.State

/-- How the await of `acquire` ends. -/
inductive Wakeup
  | notified
  | cancelled
  | deadline
  | dropped
deriving DecidableEq, Repr

/-- What the owner of a permit does with it. -/
inductive PermitOp
  | transitionToDecode
  | yieldPrefillChunk
  | markFailed
  | markCancelled
  | drop
deriving DecidableEq, Repr

inductive Action
  | cancel
  | poll (elapsed : ℕ)
  | wake (w : Wakeup)
  | permit (op : PermitOp)
deriving DecidableEq, Repr

def Shared.notifyWaiters {N : Notify.Api} (sh : Shared N) : Shared N :=
  { sh with notify := N.notifyWaiters sh.notify }

namespace Task

def start {ν : Type} (r : SchedulerClass × GenerationPhase) : Task ν :=
  ⟨false, r.1, r.2, none, .acquire, 0, 0, 0⟩

variable {N : Notify.Api}

def goto (t : Task N.Notified) (pc : Pc N.Notified) : Task N.Notified := { t with pc := pc }

def countAdmission (t : Task N.Notified) : Task N.Notified := { t with admissions := t.admissions + 1 }

/-- `acquire` returns a permit, to the request or to its yield. -/
def returnOk (t : Task N.Notified) (p : SchedulerPermit) : Task N.Notified :=
  match t.suspended with
  | none => t.goto (.held p)
  | some (_, release) => t.goto (.recordYield p release)

/-- `acquire` returns an error: a request ends, a yield settles its own permit
and leaves it to its owner. -/
def returnErr (t : Task N.Notified) (err : SchedulerAcquireError) : Task N.Notified :=
  match t.suspended with
  | none => t.goto .finished
  | some (p, _) => { t with suspended := none, pc := .held (p.completeReadmissionError err) }

/-- The future of `acquire` is gone: so is the request, or only its yield. -/
def returnDropped (t : Task N.Notified) : Task N.Notified :=
  match t.suspended with
  | none => t.goto .finished
  | some (p, _) => { t with suspended := none, pc := .held p }

def afterTicketDrop (t : Task N.Notified) : Option SchedulerAcquireError → Task N.Notified
  | some err => t.returnErr err
  | none => t.returnDropped

def afterPermitDrop (t : Task N.Notified) : Dropper → Task N.Notified
  | .acquire => t.returnErr .cancelledAfterAdmission
  | .owner => t.goto .finished

/-- The code from one place to the next. -/
def poll (opts : ModelSchedulerOptions) (elapsed : ℕ) (sh : Shared N) (t : Task N.Notified) :
    Option (Shared N × Task N.Notified) :=
  match t.pc with
  | .acquire =>
    some (sh, if t.cancelled then t.returnErr .cancelled else t.goto .tryAcquireImmediate)
  | .tryAcquireImmediate =>
    match sh.state.tryAcquireImmediate opts t.cls t.phase with
    | some (st, p) => some ({ sh with state := st }, t.countAdmission.goto (.admitUnlessCancelled p))
    | none => some (sh, t.goto .enqueue)
  | .enqueue =>
    match sh.state.enqueue opts t.cls with
    | .ok (st, ticket) => some ({ sh with state := st }, t.goto (.enqueued ticket))
    | .error err => some (sh, t.returnErr err)
  | .enqueued ticket => some (sh.notifyWaiters, t.goto (.loopTop ticket))
  | .loopTop ticket =>
    some (sh, if t.cancelled then t.goto (.dropTicket ticket (some .cancelled))
      else t.goto (.subscribe ticket))
  | .subscribe ticket => some (sh, t.goto (.tryAdmitQueued ticket (N.notified sh.notify)))
  | .tryAdmitQueued ticket notified =>
    match sh.state.tryAdmitQueued opts ticket.id t.cls t.phase with
    -- The ticket is marked as admitted, so that dropping it does nothing more.
    | some (st, p) =>
      some ({ sh with state := st }, t.countAdmission.goto (.starvationWait ticket.decodeStarvation p))
    | none => some (sh, t.goto (.select ticket notified))
  | .select _ _ => none
  | .starvationWait decodeStarvation p =>
    some ({ sh with state :=
        if decodeStarvation then sh.state.recordDecodeStarvationWait elapsed else sh.state },
      t.goto (.admitUnlessCancelled p))
  | .admitUnlessCancelled p =>
    some (sh, if t.cancelled then t.goto (.dropPermit p.markCancelled .acquire) else t.returnOk p)
  | .dropTicket ticket err =>
    match ticket.drop sh.state with
    | some st => some ({ sh with state := st }, t.goto (.ticketDropped err))
    | none => some (sh, t.afterTicketDrop err)
  | .ticketDropped err => some (sh.notifyWaiters, t.afterTicketDrop err)
  | .dropPermit p by_ =>
    match p.drop sh.state with
    | some st =>
      some ({ sh with state := st },
        { t with pc := .permitDropped by_, recorded := t.recorded + 1 })
    | none => some (sh, t.afterPermitDrop by_)
  | .permitDropped by_ => some (sh.notifyWaiters, t.afterPermitDrop by_)
  | .recordYield p release =>
    some ({ sh with state := sh.state.recordPrefillYieldSuccess release elapsed },
      { t with suspended := none, pc := .held p })
  | .yielded => some (sh.notifyWaiters, { t with cls := .prefill, phase := .prefill, pc := .acquire })
  | .held _ => none
  | .finished => none

/-- The end of the await. -/
def wake (opts : ModelSchedulerOptions) (w : Wakeup) (sh : Shared N) (t : Task N.Notified) :
    Option (Task N.Notified) :=
  match t.pc with
  | .select ticket notified =>
    match w with
    | .notified => if N.isReady sh.notify notified then some (t.goto (.loopTop ticket)) else none
    | .cancelled =>
      if t.cancelled then some (t.goto (.dropTicket ticket (some .cancelled))) else none
    | .deadline =>
      if opts.queueTimeout.isSome then
        some (t.goto (.dropTicket ticket.timedOut (some .queueTimedOut)))
      else none
    | .dropped =>
      some { t with
        pc := .dropTicket ticket none
        abandoned := t.abandoned + if t.suspended.isSome then 1 else 0 }
  | _ => none

/-- `yield_prefill_chunk` up to its `notify_waiters`. -/
def yieldPrefillChunk (sh : Shared N) (t : Task N.Notified) (p : SchedulerPermit) :
    Shared N × Task N.Notified :=
  if p.phase = .decode ∨ p.active = false then (sh, t)
  else if t.cancelled then (sh, t.goto (.held p.markCancelled))
  else
    ({ sh with state := sh.state.releasePrefillForYield.1 },
      { t with
        suspended := some ({ p with active := false, terminalOnDrop := false },
          sh.state.releasePrefillForYield.2)
        pc := .yielded })

def permitOp (op : PermitOp) (sh : Shared N) (t : Task N.Notified) :
    Option (Shared N × Task N.Notified) :=
  match t.pc with
  | .held p =>
    match op with
    | .transitionToDecode =>
      if p.phase = .decode ∨ p.active = false then some (sh, t)
      else some ({ sh with state := sh.state.transitionToDecode },
        t.goto (.held { p with phase := .decode }))
    | .yieldPrefillChunk => some (yieldPrefillChunk sh t p)
    | .markFailed => some (sh, t.goto (.held p.markFailed))
    | .markCancelled => some (sh, t.goto (.held p.markCancelled))
    | .drop => some (sh, t.goto (.dropPermit p .owner))
  | _ => none

def step (opts : ModelSchedulerOptions) (a : Action) (sh : Shared N) (t : Task N.Notified) :
    Option (Shared N × Task N.Notified) :=
  match a with
  | .cancel => some (sh, { t with cancelled := true })
  | .poll elapsed => t.poll opts elapsed sh
  | .wake w => (t.wake opts w sh).map fun t' => (sh, t')
  | .permit op => permitOp op sh t

end Task

/-- The scheduler with its requests, as a program of interleaved tasks. -/
def scheduler (N : Notify.Api) (opts : ModelSchedulerOptions) :
    Interleaving.Program (Shared N) (Task N.Notified) Action (SchedulerClass × GenerationPhase) where
  start := Task.start
  step := Task.step opts

/-- A scheduler just made, with no request. -/
def initial (N : Notify.Api) : Interleaving.Config (Shared N) (Task N.Notified) :=
  ⟨⟨{}, N.new⟩, []⟩

end KirAi.Server
