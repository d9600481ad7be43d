/-
# Wake-ups of the admission queue

A request whose ticket may go must not sleep with nothing on its way that would
wake it (`NoLostWakeup`). The notifications of the scheduler come after a slot or a
queue entry is given back, and after a request queues; none comes after an
admission from the queue. With a single slot, or a single place in the queue, that
is enough: an admission then leaves no free slot, or nobody to wake. With two of
both it is not: two slots come free, the second of two waiting requests looks
first and goes back to sleep, the first one is admitted, and the second sleeps
beside a free slot (`stranded`).

Key definitions:
* `Task.Asleep`, `NoLostWakeup`

Key theorem:
* `no_lost_wakeup_iff`
-/
import KirAi.Server.SchedulerCapacity

namespace KirAi.Server

open Lib Interleaving

variable {N : Notify.Api} {opts : ModelSchedulerOptions}

/-- Suspended at the await, and the notification is not there. -/
def Task.Asleep (notify : N.State) (t : Task N.Notified) : Prop :=
  ∃ n ∈ t.pc.sleeping, N.isReady notify n = false

/-- Where a ticket may go, its request is awake or somebody is about to notify. -/
def NoLostWakeup (opts : ModelSchedulerOptions) (c : Config (Shared N) (Task N.Notified)) : Prop :=
  ∀ t ∈ c.tasks, ∀ ticket ∈ t.pc.ticket,
    ModelSchedulerState.Admissible opts c.shared.state ticket.cls ticket.id →
      t.Asleep c.shared.notify → ∃ u ∈ c.tasks, u.pc.notifies = true

/-! ### What a step does to the ticket that may go -/

namespace ModelSchedulerState

variable {st st' : ModelSchedulerState} {cls : SchedulerClass} {id : ℕ}

theorem nextAdmissibleClass_congr (hq : st'.queue = st.queue)
    (hs : st'.prefillAdmissionsSinceDecode = st.prefillAdmissionsSinceDecode) (burst : ℕ) :
    st'.nextAdmissibleClass burst = st.nextAdmissibleClass burst := by
  have hp : st'.queuedPrefill = st.queuedPrefill := congrFun hq .prefill
  have hd : st'.queuedDecode = st.queuedDecode := congrFun hq .decode
  unfold nextAdmissibleClass
  rw [hp, hd, hs]

theorem Admissible.congr (hq : st'.queue = st.queue) (hact : st'.activeTotal = st.activeTotal)
    (hs : st'.prefillAdmissionsSinceDecode = st.prefillAdmissionsSinceDecode)
    (h : Admissible opts st' cls id) : Admissible opts st cls id := by
  obtain ⟨hfree, hnext, hhead⟩ := h
  rw [nextAdmissibleClass_congr hq hs] at hnext
  exact ⟨hact ▸ hfree, hnext, hq ▸ hhead⟩

theorem Quiet.admissible (hq : Quiet st st') (h : Admissible opts st' cls id) :
    Admissible opts st cls id :=
  h.congr hq.queue (by rw [activeTotal_eq, activeTotal_eq, hq.active]) hq.since

theorem Admissible.queuedTotal_pos (h : Admissible opts st cls id) : 0 < st.queuedTotal := by
  have hne : 0 < (st.queue cls).length :=
    List.length_pos_iff.mpr fun he => by simp [Admissible, he] at h
  rw [queuedTotal_eq]
  cases cls <;> omega

/-- After an admission from the queue no ticket may go, when there is one slot or
one place to wait. -/
theorem not_admissible_after_admission {c : SchedulerClass} {i : ℕ} (phase : GenerationPhase)
    (hone : opts.concurrencyLimit ≤ 1 ∨ opts.queueLimit ≤ 1)
    (hbound : st.queuedTotal ≤ opts.queueLimit) (ha : Admissible opts st cls id) :
    ¬ Admissible opts ((st.modifyQueue cls List.tail).startActive cls phase) c i := by
  intro h
  rcases hone with hone | hone
  · have hfree := h.1
    simp only [activeTotal_eq, active_startActive, active_modifyQueue] at hfree
    cases phase <;> simp at hfree <;> omega
  · have hpos := h.queuedTotal_pos
    obtain ⟨tail, htail⟩ := List.head?_eq_some_iff.mp ha.2.2
    have hlen : (st.queue cls).length = tail.length + 1 := by rw [htail, List.length_cons]
    simp only [queuedTotal_eq, queue_startActive, queue_modifyQueue] at hpos hbound
    cases cls <;> simp at hpos <;> omega

end ModelSchedulerState

/-! ### Subscriptions are always ones that were handed out -/

namespace Task

variable {sh sh' : Shared N} {t t' : Task N.Notified}

/-- The subscription of a request comes from the scheduler's notifier. -/
def Subscribed (sh : Shared N) (t : Task N.Notified) : Prop :=
  ∀ n, t.pc.subscription = some n → N.Issued sh.notify n

theorem Effect.notify_eq (he : Effect opts sh t sh' t') :
    sh'.notify = sh.notify ∨ sh'.notify = N.notifyWaiters sh.notify := by
  cases he with
  | notify _ _ _ => exact .inr rfl
  | _ => exact .inl rfl

theorem Effect.subscribed_other {u : Task N.Notified} (he : Effect opts sh t sh' t')
    (hu : Subscribed sh u) : Subscribed sh' u := by
  intro n hn
  rcases he.notify_eq with h | h
  · rw [h]
    exact hu n hn
  · rw [h]
    exact (hu n hn).notifyWaiters

theorem Effect.subscribed (he : Effect opts sh t sh' t') (ht : Subscribed sh t) :
    Subscribed sh' t' := by
  intro n hn
  cases he with
  | quiet _ _ _ _ _ _ hsub =>
    rcases hsub n hn with h | rfl
    · exact ht n h
    · exact Notify.Api.issued_notified _
  | notify _ _ hs =>
    rw [hs] at hn
    cases hn
  | sleep ticket notified hpc _ => exact ht n (by rw [hpc]; exact hn)
  | _ => cases hn

theorem not_asleep_of_sleeping_none {notify : N.State} (h : t.pc.sleeping = none) :
    ¬ t.Asleep notify := by
  rintro ⟨n, hn, -⟩
  rw [h] at hn
  cases hn

theorem Subscribed.isReady {n : N.Notified} (h : Subscribed sh t) (hn : t.pc.sleeping = some n) :
    N.isReady (N.notifyWaiters sh.notify) n = true := by
  refine (h n ?_).isReady
  cases hpc : t.pc with
  | select ticket notified =>
    rw [hpc] at hn
    exact hn
  | _ =>
    rw [hpc] at hn
    cases hn

end Task

variable {c c' : Config (Shared N) (Task N.Notified)}
  {m : Move Action (SchedulerClass × GenerationPhase)}
  {ms : List (Move Action (SchedulerClass × GenerationPhase))}

/-! ### With one slot, or one place in the queue -/

/-- A step that leaves everything as it was for the others: whoever was about to
notify still is, unless it is the request of the step. -/
theorem notifier_kept {l r : List (Task N.Notified)} {t t' : Task N.Notified}
    (h : ∃ u ∈ l ++ t :: r, u.pc.notifies = true)
    (ht : t.pc.notifies = true → t'.pc.notifies = true) :
    ∃ u ∈ l ++ t' :: r, u.pc.notifies = true := by
  obtain ⟨u, hu, hn⟩ := h
  rcases List.mem_append.mp hu with hu | hu
  · exact ⟨u, by simp [hu], hn⟩
  · rcases List.mem_cons.mp hu with rfl | hu
    · exact ⟨t', by simp, ht hn⟩
    · exact ⟨u, by simp [hu], hn⟩

theorem NoLostWakeup.of_notifier {l r : List (Task N.Notified)} {t' : Task N.Notified}
    {sh' : Shared N} (ht : t'.pc.notifies = true) : NoLostWakeup opts ⟨sh', l ++ t' :: r⟩ :=
  fun _ _ _ _ _ _ => ⟨t', by simp, ht⟩

/-- A step that makes no ticket admissible that was not, and wakes and hushes nobody
else, keeps the guarantee. -/
theorem NoLostWakeup.of_same {l r : List (Task N.Notified)} {t t' : Task N.Notified}
    {sh sh' : Shared N} (h : NoLostWakeup opts ⟨sh, l ++ t :: r⟩)
    (hadm : ∀ cls id, ModelSchedulerState.Admissible opts sh'.state cls id →
      ModelSchedulerState.Admissible opts sh.state cls id)
    (hn : sh'.notify = sh.notify) (hnot : t.pc.notifies = true → t'.pc.notifies = true)
    (hself : ∀ ticket ∈ t'.pc.ticket,
      ModelSchedulerState.Admissible opts sh'.state ticket.cls ticket.id →
        t'.Asleep sh'.notify → ∃ u ∈ l ++ t :: r, u.pc.notifies = true) :
    NoLostWakeup opts ⟨sh', l ++ t' :: r⟩ := by
  intro u hu ticket hticket ha hs
  refine notifier_kept ?_ hnot
  have hother (hmem : u ∈ l ++ t :: r) : ∃ u ∈ l ++ t :: r, u.pc.notifies = true :=
    h u hmem ticket hticket (hadm _ _ ha) (hn ▸ hs)
  rcases List.mem_append.mp hu with hu | hu
  · exact hother (by simp [hu])
  · rcases List.mem_cons.mp hu with rfl | hu
    · exact hself ticket hticket ha hs
    · exact hother (by simp [hu])

theorem NoLostWakeup.effect {l r : List (Task N.Notified)} {t t' : Task N.Notified}
    {sh sh' : Shared N} (hone : opts.concurrencyLimit ≤ 1 ∨ opts.queueLimit ≤ 1)
    (hinv : Inv opts ⟨sh, l ++ t :: r⟩)
    (hsub : ∀ u ∈ l ++ t :: r, Task.Subscribed sh u) (h : NoLostWakeup opts ⟨sh, l ++ t :: r⟩)
    (he : Task.Effect opts sh t sh' t') : NoLostWakeup opts ⟨sh', l ++ t' :: r⟩ := by
  have hwf : t.Wf := hinv.wf t (by simp)
  cases he with
  | quiet st' _ hq hk hn hs _ =>
    refine h.of_same (fun _ _ => hq.admissible) rfl (fun he => hn.trans he) ?_
    intro ticket hticket ha hsleep
    rcases hs with hs | hs
    · exact absurd hsleep (Task.not_asleep_of_sleeping_none hs)
    · refine h t (by simp) ticket (hs ▸ hticket) (hq.admissible ha) ?_
      obtain ⟨n, hn, hr⟩ := hsleep
      exact ⟨n, hs ▸ hn, hr⟩
  | notify _ hk hs =>
    -- everybody who sleeps has been notified
    intro u hu ticket _ _ hsleep
    obtain ⟨n, hn, hr⟩ := hsleep
    exfalso
    have hready (hmem : u ∈ l ++ t :: r) : False := by
      have := (hsub u hmem).isReady hn
      exact absurd (hr.symm.trans this) (by decide)
    rcases List.mem_append.mp hu with hu | hu
    · exact hready (by simp [hu])
    · rcases List.mem_cons.mp hu with rfl | hu
      · rw [Pc.sleeping_of_subscription hs] at hn
        cases hn
      · exact hready (by simp [hu])
  | sleep ticket notified hpc hno =>
    refine h.of_same (fun _ _ ha => ha) rfl (fun hn => by rw [hpc] at hn; cases hn) ?_
    intro ticket' hticket ha _
    obtain rfl : ticket = ticket' := Option.some.inj hticket
    have hcls : ticket.cls = t.cls := (hwf.2.1 ticket (by rw [hpc]; rfl)).2
    exact absurd (hcls ▸ ha) hno
  | admitImmediate _ _ hempty =>
    intro u _ ticket _ ha _
    have hpos := ha.queuedTotal_pos
    simp only [ModelSchedulerState.queuedTotal_eq, ModelSchedulerState.queue_startActive]
      at hpos hempty
    omega
  | admitQueued ticket notified _ ha =>
    intro u _ ticket' _ ha' _
    exact absurd ha'
      (ModelSchedulerState.not_admissible_after_admission t.phase hone hinv.bounded ha)
  | enqueue _ _ _ _ => exact .of_notifier rfl
  | dropTicket _ _ _ _ _ => exact .of_notifier rfl
  | finishActive _ _ _ _ => exact .of_notifier rfl
  | finishInactive _ _ _ _ => exact .of_notifier rfl
  | release _ _ _ _ _ => exact .of_notifier rfl
  | transition p hpc hp hph =>
    have hle : t.slots .prefill ≤ sh.state.active .prefill := by
      rw [show sh.state.active .prefill = _ from hinv.active .prefill]
      exact Program.le_sum_of_mem (by simp)
    have hone' : 1 ≤ sh.state.active .prefill := by
      rw [hwf.slots_eq, hpc] at hle
      simpa [Pc.slots, Pc.permit, hp, hph] using hle
    have htotal : sh.state.transitionToDecode.activeTotal = sh.state.activeTotal := by
      simp only [ModelSchedulerState.activeTotal, ModelSchedulerState.transitionToDecode,
        ModelSchedulerState.active] at hone' ⊢
      omega
    have hqueue : sh.state.transitionToDecode.queue = sh.state.queue := rfl
    have hadm : ∀ cls id, ModelSchedulerState.Admissible opts sh.state.transitionToDecode cls id →
        ModelSchedulerState.Admissible opts sh.state cls id :=
      fun _ _ ha => ha.congr hqueue htotal rfl
    exact h.of_same hadm rfl (fun hn => by rw [hpc] at hn; cases hn)
      fun _ h => by cases h

/-- What one move keeps, beside `Inv`. -/
structure WakeInv (opts : ModelSchedulerOptions) (c : Config (Shared N) (Task N.Notified)) :
    Prop where
  inv : Inv opts c
  subscribed : ∀ t ∈ c.tasks, Task.Subscribed c.shared t
  noLost : NoLostWakeup opts c

theorem WakeInv.move (hone : opts.concurrencyLimit ≤ 1 ∨ opts.queueLimit ≤ 1) (h : WakeInv opts c)
    (hm : (scheduler N opts).move c m = some c') : WakeInv opts c' := by
  refine ⟨h.inv.move hm, ?_, ?_⟩
  · refine fun t ht => (Program.move_forall (J := fun sh t => t.Wf ∧ Task.Subscribed sh t)
      (fun _ r => ⟨Task.wf_start r, fun n hn => by cases hn⟩) (fun _ _ _ _ _ hj hs => ?_)
      (fun _ _ _ _ _ _ hj hs hu => ?_) hm (fun t ht => ⟨h.inv.wf t ht, h.subscribed t ht⟩) t ht).2
    · exact ⟨hj.1.step hs, (Task.step_effect hj.1 hs).subscribed hj.2⟩
    · exact ⟨hu.1, (Task.step_effect hj.1 hs).subscribed_other hu.2⟩
  · rcases Program.move_cases hm with ⟨b, -, rfl⟩ | ⟨l, a, t, r, sh, t', -, ht, hs, rfl⟩
    · intro u hu ticket hticket ha hsleep
      rcases List.mem_append.mp hu with hu | hu
      · obtain ⟨v, hv, hn⟩ := h.noLost u hu ticket hticket ha hsleep
        exact ⟨v, List.mem_append_left _ hv, hn⟩
      · rw [List.mem_singleton.mp hu] at hticket
        cases hticket
    · obtain ⟨sh₀, tasks⟩ := c
      obtain rfl : tasks = l ++ t :: r := ht
      exact h.noLost.effect hone h.inv h.subscribed
        (Task.step_effect (h.inv.wf t (by simp)) hs)

theorem WakeInv.run (hone : opts.concurrencyLimit ≤ 1 ∨ opts.queueLimit ≤ 1)
    (h : (scheduler N opts).run (initial N) ms = some c) : WakeInv opts c := by
  refine Program.run_inv (fun _ _ _ hc hm => hc.move hone hm) ⟨Inv.initial opts, ?_, ?_⟩ h
  · intro t ht
    simp [initial] at ht
  · intro t ht
    simp [initial] at ht

/-! ### With two slots and two places

Decode requests only: `k` of them hold a slot, and the ids `q` wait. -/

structure Loaded (st : ModelSchedulerState) (k : ℕ) (q : List ℕ) (n : ℕ) : Prop where
  activePrefill : st.active .prefill = 0
  activeDecode : st.active .decode = k
  queuedPrefill : st.queue .prefill = []
  queuedDecode : st.queue .decode = q
  nextTicket : st.nextTicket = n

namespace Loaded

variable {st : ModelSchedulerState} {k n : ℕ} {q : List ℕ}

theorem activeTotal (h : Loaded st k q n) : st.activeTotal = k := by
  rw [ModelSchedulerState.activeTotal_eq, h.activePrefill, h.activeDecode, zero_add]

theorem queuedTotal (h : Loaded st k q n) : st.queuedTotal = q.length := by
  rw [ModelSchedulerState.queuedTotal_eq, h.queuedPrefill, h.queuedDecode]
  exact zero_add _

theorem admissible {id : ℕ} (h : Loaded st k (id :: q) n) (hk : k < opts.concurrencyLimit) :
    ModelSchedulerState.Admissible opts st .decode id := by
  have hp : st.queuedPrefill = [] := h.queuedPrefill
  have hd : st.queuedDecode = id :: q := h.queuedDecode
  refine ⟨h.activeTotal ▸ hk, ?_, by rw [h.queuedDecode]; rfl⟩
  simp [ModelSchedulerState.nextAdmissibleClass, hp, hd]

theorem startActive (h : Loaded st k q n) : Loaded (st.startActive .decode .decode) (k + 1) q n where
  activePrefill := h.activePrefill
  activeDecode := congrArg (· + 1) h.activeDecode
  queuedPrefill := h.queuedPrefill
  queuedDecode := h.queuedDecode
  nextTicket := h.nextTicket

theorem admitted {id : ℕ} (h : Loaded st k (id :: q) n) :
    Loaded ((st.modifyQueue .decode List.tail).startActive .decode .decode) (k + 1) q n where
  activePrefill := h.activePrefill
  activeDecode := congrArg (· + 1) h.activeDecode
  queuedPrefill := h.queuedPrefill
  queuedDecode := congrArg List.tail h.queuedDecode
  nextTicket := h.nextTicket

theorem finished (h : Loaded st (k + 1) q n) :
    Loaded (st.finishActive .decode .completed) k q n where
  activePrefill := h.activePrefill
  activeDecode := congrArg (· - 1) h.activeDecode
  queuedPrefill := h.queuedPrefill
  queuedDecode := h.queuedDecode
  nextTicket := h.nextTicket

end Loaded

/-- A decode request of the run: where it is, and its history. -/
def decodeTask (pc : Pc N.Notified) (admissions recorded : ℕ) : Task N.Notified :=
  ⟨false, .decode, .decode, none, pc, admissions, recorded, 0⟩

section Segments

variable {sh : Shared N} {k n : ℕ} {q : List ℕ} {ticket : QueuedSchedulerTicket}
  {notified : N.Notified}

theorem solo_admitted (h : Loaded sh.state k [] n) (hk : k < opts.concurrencyLimit) :
    (scheduler N opts).Solo sh (Task.start (.decode, .decode))
      { sh with state := sh.state.startActive .decode .decode }
      (decodeTask (.held (.new .decode)) 1 0) := by
  have hi : sh.state.tryAcquireImmediate opts .decode .decode =
      some (sh.state.startActive .decode .decode, .new .decode) := by
    unfold ModelSchedulerState.tryAcquireImmediate
    rw [if_neg]
    rw [h.activeTotal, h.queuedTotal, List.length_nil]
    omega
  have htry : (scheduler N opts).step (.poll 0) sh (decodeTask .tryAcquireImmediate 0 0) =
      some ({ sh with state := sh.state.startActive .decode .decode },
        decodeTask (.admitUnlessCancelled (.new .decode)) 1 0) := by
    simp only [scheduler, Task.step, Task.poll, decodeTask, hi]
    rfl
  exact .step (.poll 0) rfl (.step (.poll 0) htry (.step (.poll 0) rfl (.refl _ _)))

variable (sh) in
/-- A request queues behind a full scheduler and goes to sleep. -/
theorem solo_queue (h : Loaded sh.state k q n) (hk : opts.concurrencyLimit ≤ k)
    (hq : q.length < opts.queueLimit) :
    ∃ st' ticket, Loaded st' k (q ++ [n + 1]) (n + 1) ∧ ticket.id = n + 1 ∧ ticket.cls = .decode ∧
      (scheduler N opts).Solo sh (Task.start (.decode, .decode)) ⟨st', N.notifyWaiters sh.notify⟩
        (decodeTask (.select ticket (N.notified (N.notifyWaiters sh.notify))) 0 0) := by
  have hi : sh.state.tryAcquireImmediate opts .decode .decode = none := by
    unfold ModelSchedulerState.tryAcquireImmediate
    rw [if_pos]
    rw [h.activeTotal]
    exact .inl hk
  obtain ⟨⟨st', ticket⟩, he⟩ : ∃ r, sh.state.enqueue opts .decode = .ok r := by
    unfold ModelSchedulerState.enqueue
    rw [if_neg (by rw [h.queuedTotal]; omega)]
    exact ⟨_, rfl⟩
  obtain ⟨-, hid, hcls, -, hact, -, hnext, hqueue⟩ := ModelSchedulerState.enqueue_eq_ok he
  have h' : Loaded st' k (q ++ [n + 1]) (n + 1) := by
    refine ⟨?_, ?_, ?_, ?_, ?_⟩
    · rw [hact, h.activePrefill]
    · rw [hact, h.activeDecode]
    · rw [hqueue, if_neg (by decide), h.queuedPrefill]
    · rw [hqueue, if_pos rfl, h.queuedDecode, h.nextTicket]
    · rw [hnext, h.nextTicket]
  have hno : st'.tryAdmitQueued opts ticket.id .decode .decode = none :=
    ModelSchedulerState.tryAdmitQueued_of_not_admissible _ fun ha => by
      have := ha.1
      rw [h'.activeTotal] at this
      omega
  refine ⟨st', ticket, h', hid.trans (by rw [h.nextTicket]), hcls, ?_⟩
  have htry : (scheduler N opts).step (.poll 0) sh (decodeTask .tryAcquireImmediate 0 0) =
      some (sh, decodeTask .enqueue 0 0) := by
    simp only [scheduler, Task.step, Task.poll, decodeTask, hi]
    rfl
  have hqueue : (scheduler N opts).step (.poll 0) sh (decodeTask .enqueue 0 0) =
      some ({ sh with state := st' }, decodeTask (.enqueued ticket) 0 0) := by
    simp only [scheduler, Task.step, Task.poll, decodeTask, he]
    rfl
  have hfail (s : N.State) (notified : N.Notified) :
      (scheduler N opts).step (.poll 0) ⟨st', s⟩ (decodeTask (.tryAdmitQueued ticket notified) 0 0) =
        some (⟨st', s⟩, decodeTask (.select ticket notified) 0 0) := by
    simp only [scheduler, Task.step, Task.poll, decodeTask, hno]
    rfl
  exact .step (.poll 0) rfl (.step (.poll 0) htry (.step (.poll 0) hqueue (.step (.poll 0) rfl
    (.step (.poll 0) rfl (.step (.poll 0) rfl (.step (.poll 0) (hfail _ _) (.refl _ _)))))))

/-- A permit is dropped. -/
theorem solo_drop :
    (scheduler N opts).Solo sh (decodeTask (.held (.new .decode)) 1 0)
      ⟨sh.state.finishActive .decode .completed, N.notifyWaiters sh.notify⟩
      (decodeTask .finished 1 1) :=
  .step (.permit .drop) rfl (.step (.poll 0) rfl (.step (.poll 0) rfl (.refl _ _)))

theorem step_wake (hready : N.isReady sh.notify notified = true) :
    (scheduler N opts).step (.wake .notified) sh (decodeTask (.select ticket notified) 0 0) =
      some (sh, decodeTask (.loopTop ticket) 0 0) := by
  simp only [scheduler, Task.step, Task.wake, decodeTask, hready, if_true, Option.map_some]
  rfl

/-- A request wakes up, may not go and sleeps again. -/
theorem solo_sleep (hready : N.isReady sh.notify notified = true)
    (hno : ¬ ModelSchedulerState.Admissible opts sh.state .decode ticket.id) :
    (scheduler N opts).Solo sh (decodeTask (.select ticket notified) 0 0) sh
      (decodeTask (.select ticket (N.notified sh.notify)) 0 0) := by
  have hn := ModelSchedulerState.tryAdmitQueued_of_not_admissible .decode hno
  have hfail (n : N.Notified) :
      (scheduler N opts).step (.poll 0) sh (decodeTask (.tryAdmitQueued ticket n) 0 0) =
        some (sh, decodeTask (.select ticket n) 0 0) := by
    simp only [scheduler, Task.step, Task.poll, decodeTask, hn]
    rfl
  exact .step (.wake .notified) (step_wake hready) (.step (.poll 0) rfl (.step (.poll 0) rfl
    (.step (.poll 0) (hfail _) (.refl _ _))))

/-- A request wakes up and is admitted. -/
theorem solo_admitQueued (hready : N.isReady sh.notify notified = true)
    (ha : ModelSchedulerState.Admissible opts sh.state .decode ticket.id) :
    (scheduler N opts).Solo sh (decodeTask (.select ticket notified) 0 0)
      { sh with state := (sh.state.modifyQueue .decode List.tail).startActive .decode .decode }
      (decodeTask (.starvationWait ticket.decodeStarvation (.new .decode)) 1 0) := by
  have hn := ModelSchedulerState.tryAdmitQueued_of_admissible .decode ha
  have hadm (n : N.Notified) :
      (scheduler N opts).step (.poll 0) sh (decodeTask (.tryAdmitQueued ticket n) 0 0) =
        some ({ sh with state := (sh.state.modifyQueue .decode List.tail).startActive .decode .decode },
          decodeTask (.starvationWait ticket.decodeStarvation (.new .decode)) 1 0) := by
    simp only [scheduler, Task.step, Task.poll, decodeTask, hn]
    rfl
  exact .step (.wake .notified) (step_wake hready) (.step (.poll 0) rfl (.step (.poll 0) rfl
    (.step (.poll 0) (hadm _) (.refl _ _))))

end Segments

variable (N opts) in
/-- `k` decode requests take a slot each. -/
theorem fill : ∀ k ≤ opts.concurrencyLimit, ∃ sh : Shared N, Loaded sh.state k [] 0 ∧
    (scheduler N opts).Reaches (initial N)
      ⟨sh, List.replicate k (decodeTask (.held (.new .decode)) 1 0)⟩
  | 0, _ => ⟨⟨{}, N.new⟩, ⟨rfl, rfl, rfl, rfl, rfl⟩, .refl _⟩
  | k + 1, hk => by
    obtain ⟨sh, hsh, hreach⟩ := fill k (by omega)
    refine ⟨{ sh with state := sh.state.startActive .decode .decode }, hsh.startActive,
      (hreach.trans (.spawn _ (.decode, .decode))).trans ?_⟩
    rw [List.replicate_succ']
    exact (solo_admitted hsh (by omega)).reaches _ []

variable (N) in
/-- With two slots and two places in the queue, a request can be left asleep beside a
free slot. -/
theorem stranded (hslots : 2 ≤ opts.concurrencyLimit) (hplaces : 2 ≤ opts.queueLimit) :
    ∃ c, (scheduler N opts).Reaches (initial N) c ∧ ¬ NoLostWakeup opts c := by
  obtain ⟨k, hk⟩ : ∃ k, opts.concurrencyLimit = k + 2 := ⟨opts.concurrencyLimit - 2, by omega⟩
  -- all slots are taken, and two more requests queue and sleep
  obtain ⟨sh₀, h₀, r₀⟩ := fill N opts (k + 2) hk.ge
  obtain ⟨st₁, ticketA, h₁, hidA, -, s₁⟩ := solo_queue sh₀ h₀ hk.le (by simp; omega)
  obtain ⟨st₂, ticketB, h₂, hidB, hclsB, s₂⟩ :=
    solo_queue ⟨st₁, N.notifyWaiters sh₀.notify⟩ h₁ hk.le (by simp; omega)
  have r₁ := (r₀.trans (.spawn _ (.decode, .decode))).trans (s₁.reaches _ [])
  have r₂ := (r₁.trans (.spawn _ (.decode, .decode))).trans (s₂.reaches _ [])
  -- two slots are given back, each with a notification
  have h₄ := h₂.finished.finished
  set nB := N.notifyWaiters (N.notifyWaiters sh₀.notify)
  set sh₄ : Shared N :=
    ⟨(st₂.finishActive .decode .completed).finishActive .decode .completed,
      N.notifyWaiters (N.notifyWaiters nB)⟩ with hsh₄
  set tokenA := N.notified (N.notifyWaiters sh₀.notify)
  set tokenB := N.notified nB
  have hA : N.isReady sh₄.notify tokenA = true :=
    (Notify.Api.issued_notified _).notifyWaiters.notifyWaiters.isReady
  have hB : N.isReady sh₄.notify tokenB = true :=
    (Notify.Api.issued_notified _).notifyWaiters.isReady
  have r₃ := r₂.trans (solo_drop.reaches [] _)
  have r₄ : (scheduler N opts).Reaches (initial N)
      ⟨sh₄, decodeTask .finished 1 1 :: decodeTask .finished 1 1 ::
        (List.replicate k (decodeTask (.held (.new .decode)) 1 0) ++
          [decodeTask (.select ticketA tokenA) 0 0]) ++ [decodeTask (.select ticketB tokenB) 0 0]⟩ :=
    r₃.trans (solo_drop.reaches [decodeTask .finished 1 1] _)
  -- the second request looks first and goes back to sleep
  have hno : ¬ ModelSchedulerState.Admissible opts sh₄.state .decode ticketB.id := fun ha => by
    have hhead := ha.2.2
    rw [h₄.queuedDecode, hidB] at hhead
    simp at hhead
  have r₅ := r₄.trans ((solo_sleep hB hno).reaches _ [])
  -- the first request is admitted, and a slot is still free
  have ha : ModelSchedulerState.Admissible opts sh₄.state .decode ticketA.id :=
    hidA ▸ h₄.admissible (by omega)
  set A' : Task N.Notified :=
    decodeTask (.starvationWait ticketA.decodeStarvation (.new .decode)) 1 0
  set B' : Task N.Notified := decodeTask (.select ticketB (N.notified sh₄.notify)) 0 0 with hB'
  have s₆ := (solo_admitQueued hA ha).reaches
    (decodeTask .finished 1 1 :: decodeTask .finished 1 1 ::
      List.replicate k (decodeTask (.held (.new .decode)) 1 0)) [B']
  refine ⟨_, r₅.trans (by simpa using s₆), fun hlost => ?_⟩
  have hadm : ModelSchedulerState.Admissible opts
      ((sh₄.state.modifyQueue .decode List.tail).startActive .decode .decode)
      ticketB.cls ticketB.id := by
    rw [hclsB, hidB]
    exact h₄.admitted.admissible (by omega)
  obtain ⟨u, hu, hn⟩ := hlost B' (by simp) ticketB rfl hadm
    ⟨_, rfl, Notify.Api.isReady_notified _⟩
  -- nobody is about to notify: the requests are finished, hold a permit, were just
  -- admitted, or sleep
  simp only [List.mem_cons, List.mem_append, List.mem_replicate, List.not_mem_nil,
    or_false] at hu
  rcases hu with rfl | rfl | ⟨-, rfl⟩ | rfl | rfl <;> cases hn

variable (N opts) in
/-- No run loses a wake-up exactly when there is at most one slot or at most one place in
the queue. -/
theorem no_lost_wakeup_iff :
    (∀ ms c, (scheduler N opts).run (initial N) ms = some c → NoLostWakeup opts c) ↔
      opts.concurrencyLimit ≤ 1 ∨ opts.queueLimit ≤ 1 := by
  constructor
  · intro h
    by_contra hmany
    rw [not_or, not_le, not_le] at hmany
    obtain ⟨c, ⟨ms, hrun⟩, hlost⟩ := stranded N hmany.1 hmany.2
    exact hlost (h ms c hrun)
  · intro hone ms c hrun
    exact (WakeInv.run hone hrun).noLost

/-- Two decode requests hold the two slots, two more queue; the slots come free, the
request queued last looks first, then the other one is admitted. -/
def strandedRun : List (Move Action (SchedulerClass × GenerationPhase)) :=
  .spawn (.decode, .decode) :: polls 0 3 ++ .spawn (.decode, .decode) :: polls 1 3 ++
    .spawn (.decode, .decode) :: polls 2 7 ++ .spawn (.decode, .decode) :: polls 3 7 ++
    .act 0 (.permit .drop) :: polls 0 2 ++ .act 1 (.permit .drop) :: polls 1 2 ++
    .act 3 (.wake .notified) :: polls 3 3 ++ .act 2 (.wake .notified) :: polls 2 3

instance (notify : ℕ) (t : Task ℕ) : Decidable (Task.Asleep (N := .counting) notify t) :=
  inferInstanceAs (Decidable (∃ n ∈ t.pc.sleeping, _ = false))

instance (opts : ModelSchedulerOptions) (c : Config (Shared .counting) (Task ℕ)) :
    Decidable (NoLostWakeup opts c) :=
  inferInstanceAs (Decidable (∀ t ∈ c.tasks, ∀ ticket ∈ t.pc.ticket, _ → _ → ∃ u ∈ c.tasks, _))

theorem no_lost_wakeup_strandedRun : ∃ c : Config (Shared .counting) (Task ℕ),
    (scheduler .counting ⟨2, 2, none, 1⟩).run (initial .counting) strandedRun = some c ∧
      ¬ NoLostWakeup ⟨2, 2, none, 1⟩ c := by
  have hrun : ((scheduler .counting ⟨2, 2, none, 1⟩).run (initial .counting) strandedRun).map
      (fun c => decide (NoLostWakeup ⟨2, 2, none, 1⟩ c)) = some false := by
    decide +kernel
  obtain ⟨c, hc, hd⟩ := Option.map_eq_some_iff.mp hrun
  exact ⟨c, hc, of_decide_eq_false hd⟩

end KirAi.Server
