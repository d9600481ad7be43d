/-
# The order of admission

Who is admitted, and past whom: a request from the queue goes when it heads the
queue of its class, a request that does not queue goes only past empty queues,
and prefill requests pass a waiting decode request at most `prefillBurst` times
between two decode admissions.

Key definitions:
* `Admits`: a move admits a request
* `prefillsPastDecode`: the prefill admissions of a run with a decode request queued

Key theorem:
* `admission_order`
-/
import KirAi.Server.SchedulerCapacity

namespace KirAi.Server

open Lib Interleaving

variable {N : Notify.Api} {opts : ModelSchedulerOptions}

/-! ### The admission counters -/

namespace ModelSchedulerState

variable {st st' : ModelSchedulerState}

theorem admitted_startActive (st : ModelSchedulerState) (cls c : SchedulerClass)
    (phase : GenerationPhase) :
    (st.startActive cls phase).admitted c = st.admitted c + if cls = c then 1 else 0 := by
  cases cls <;> cases c <;> cases phase <;> rfl

theorem since_startActive (st : ModelSchedulerState) (cls : SchedulerClass)
    (phase : GenerationPhase) : (st.startActive cls phase).prefillAdmissionsSinceDecode =
      if cls = .prefill then st.prefillAdmissionsSinceDecode + 1 else 0 := by
  cases cls <;> cases phase <;> rfl

/-- What no section but an admission touches. -/
structure SameAdmissions (st st' : ModelSchedulerState) : Prop where
  admitted : st'.admitted = st.admitted
  since : st'.prefillAdmissionsSinceDecode = st.prefillAdmissionsSinceDecode

theorem sameAdmissions_modifyQueue (st : ModelSchedulerState) (cls : SchedulerClass)
    (f : List ℕ → List ℕ) : SameAdmissions st (st.modifyQueue cls f) := by
  cases cls <;> exact ⟨rfl, rfl⟩

theorem sameAdmissions_finishInactive (st : ModelSchedulerState) (outcome : SchedulerOutcome) :
    SameAdmissions st (st.finishInactive outcome) := by
  cases outcome <;> exact ⟨rfl, rfl⟩

theorem sameAdmissions_finishActive (st : ModelSchedulerState) (phase : GenerationPhase)
    (outcome : SchedulerOutcome) : SameAdmissions st (st.finishActive phase outcome) := by
  cases phase <;> cases outcome <;> exact ⟨rfl, rfl⟩

theorem sameAdmissions_enqueue {cls : SchedulerClass} {ticket : QueuedSchedulerTicket}
    (h : st.enqueue opts cls = .ok (st', ticket)) : SameAdmissions st st' := by
  unfold enqueue at h
  split at h
  · cases h
  · simp only [Except.ok.injEq, Prod.mk.injEq] at h
    obtain ⟨rfl, -⟩ := h
    cases cls <;> split <;> exact ⟨rfl, rfl⟩

theorem sameAdmissions_dropTicket {ticket : QueuedSchedulerTicket}
    (h : ticket.drop st = some st') : SameAdmissions st st' := by
  unfold QueuedSchedulerTicket.drop at h
  split at h
  · cases h
  · split at h
    · obtain rfl := Option.some.inj h
      have hsame := sameAdmissions_modifyQueue st ticket.cls (List.erase · ticket.id)
      split <;> exact ⟨hsame.admitted, hsame.since⟩
    · obtain rfl := Option.some.inj h
      exact ⟨rfl, rfl⟩

/-- A prefill ticket goes past a queued decode only below the burst. -/
theorem since_lt_of_admissible_prefill {id : ℕ} (h : Admissible opts st .prefill id)
    (hd : st.queue .decode ≠ []) : st.prefillAdmissionsSinceDecode < opts.prefillBurst := by
  obtain ⟨-, hnext, hhead⟩ := h
  have hp : st.queuedPrefill ≠ [] := fun he => by
    rw [show st.queue .prefill = [] from he] at hhead
    cases hhead
  have hpe : st.queuedPrefill.isEmpty = false := List.isEmpty_eq_false_iff.mpr hp
  have hde : st.queuedDecode.isEmpty = false := List.isEmpty_eq_false_iff.mpr hd
  by_contra hge
  have hb : opts.prefillBurst ≤ st.prefillAdmissionsSinceDecode := by omega
  simp [nextAdmissibleClass, hpe, hde, hb] at hnext

end ModelSchedulerState

/-! ### What an admission needs -/

namespace Task

variable {sh sh' : Shared N} {t t' : Task N.Notified}

/-- A request is admitted from nowhere past empty queues, or from the head of its
queue. -/
inductive Admission (opts : ModelSchedulerOptions) (st : ModelSchedulerState)
    (t : Task N.Notified) : Prop
  | immediate (hpc : t.pc.ticket = none) (hempty : st.queuedTotal = 0)
  | queued (ticket : QueuedSchedulerTicket) (hpc : t.pc.ticket = some ticket)
      (hcls : ticket.cls = t.cls)
      (ha : ModelSchedulerState.Admissible opts st t.cls ticket.id)

/-- A step either admits the request, counting it under its class, or leaves the
admission counters alone. -/
theorem Effect.admission (he : Effect opts sh t sh' t') (h : t.Wf) :
    (ModelSchedulerState.SameAdmissions sh.state sh'.state ∧ t'.admissions = t.admissions) ∨
      (t'.admissions = t.admissions + 1 ∧ Admission opts sh.state t ∧
        (∀ c, sh'.state.admitted c = sh.state.admitted c + if t.cls = c then 1 else 0) ∧
        sh'.state.prefillAdmissionsSinceDecode =
          if t.cls = .prefill then sh.state.prefillAdmissionsSinceDecode + 1 else 0) := by
  cases he with
  | quiet _ _ hq hk _ _ _ => exact .inl ⟨⟨hq.admitted, hq.since⟩, hk.admissions⟩
  | notify _ hk _ => exact .inl ⟨⟨rfl, rfl⟩, hk.admissions⟩
  | sleep _ _ _ _ => exact .inl ⟨⟨rfl, rfl⟩, rfl⟩
  | admitImmediate hpc _ hempty =>
    refine .inr ⟨rfl, .immediate (by rw [hpc]; rfl) hempty, fun c => ?_, ?_⟩
    · exact ModelSchedulerState.admitted_startActive _ _ _ _
    · exact ModelSchedulerState.since_startActive _ _ _
  | admitQueued ticket notified hpc ha =>
    have hticket : t.pc.ticket = some ticket := by rw [hpc]; rfl
    have hsame := ModelSchedulerState.sameAdmissions_modifyQueue sh.state t.cls List.tail
    refine .inr ⟨rfl, .queued ticket hticket (h.2.1 ticket hticket).2 ha, fun c => ?_, ?_⟩
    · rw [← hsame.admitted]
      exact ModelSchedulerState.admitted_startActive _ _ _ _
    · rw [← hsame.since]
      exact ModelSchedulerState.since_startActive _ _ _
  | enqueue _ _ _ he => exact .inl ⟨ModelSchedulerState.sameAdmissions_enqueue he, rfl⟩
  | dropTicket _ _ _ _ hd => exact .inl ⟨ModelSchedulerState.sameAdmissions_dropTicket hd, rfl⟩
  | finishActive _ _ _ _ =>
    exact .inl ⟨ModelSchedulerState.sameAdmissions_finishActive _ _ _, rfl⟩
  | finishInactive _ _ _ _ =>
    exact .inl ⟨ModelSchedulerState.sameAdmissions_finishInactive _ _, rfl⟩
  | transition _ _ _ _ => exact .inl ⟨⟨rfl, rfl⟩, rfl⟩
  | release _ _ _ _ _ => exact .inl ⟨⟨rfl, rfl⟩, rfl⟩

/-- The queues are in the order of the ids, which is the order of queueing. -/
def Sorted (st : ModelSchedulerState) : Prop := ∀ cls, (st.queue cls).Pairwise (· < ·)

theorem Effect.sorted (he : Effect opts sh t sh' t') (hi : Ids sh.state) (h : Sorted sh.state) :
    Sorted sh'.state := by
  intro cls
  cases he with
  | quiet _ _ hq _ _ _ _ => rw [hq.queue]; exact h cls
  | notify _ _ _ => exact h cls
  | sleep _ _ _ _ => exact h cls
  | admitImmediate _ _ _ => rw [ModelSchedulerState.queue_startActive]; exact h cls
  | admitQueued _ _ _ _ =>
    rw [ModelSchedulerState.queue_startActive, ModelSchedulerState.queue_modifyQueue]
    split
    · exact (h cls).sublist (List.tail_sublist _)
    · exact h cls
  | enqueue st' ticket _ he =>
    obtain ⟨-, -, -, -, -, -, -, hq⟩ := ModelSchedulerState.enqueue_eq_ok he
    rw [hq cls]
    split
    · refine List.pairwise_append.mpr ⟨h cls, List.pairwise_singleton _ _, fun i hid j hj => ?_⟩
      rw [List.mem_singleton.mp hj]
      exact Nat.lt_succ_of_le (hi.le cls i hid)
    · exact h cls
  | dropTicket st' ticket err _ hd =>
    obtain ⟨-, -, -, hq⟩ := QueuedSchedulerTicket.drop_eq_some hd
    rw [hq cls]
    split
    · exact (h cls).sublist List.erase_sublist
    · exact h cls
  | finishActive _ _ _ _ => rw [ModelSchedulerState.queue_finishActive]; exact h cls
  | finishInactive _ _ _ _ => rw [ModelSchedulerState.queue_finishInactive]; exact h cls
  | transition _ _ _ _ => exact h cls
  | release _ _ _ _ _ => exact h cls

/-- A queue entry that a step adds has the next id. -/
theorem Effect.queue_mem (he : Effect opts sh t sh' t') {cls : SchedulerClass} {id : ℕ}
    (hid : id ∈ sh'.state.queue cls) :
    id ∈ sh.state.queue cls ∨ id = sh.state.nextTicket + 1 := by
  cases he with
  | quiet _ _ hq _ _ _ _ => exact .inl (hq.queue ▸ hid)
  | notify _ _ _ => exact .inl hid
  | sleep _ _ _ _ => exact .inl hid
  | admitImmediate _ _ _ => exact .inl (by simpa using hid)
  | admitQueued _ _ _ _ =>
    rw [ModelSchedulerState.queue_startActive, ModelSchedulerState.queue_modifyQueue] at hid
    split at hid
    · exact .inl (List.mem_of_mem_tail hid)
    · exact .inl hid
  | enqueue st' ticket _ he =>
    obtain ⟨-, -, -, -, -, -, -, hq⟩ := ModelSchedulerState.enqueue_eq_ok he
    rw [hq cls] at hid
    split at hid
    · rcases List.mem_append.mp hid with hid | hid
      · exact .inl hid
      · exact .inr (List.mem_singleton.mp hid)
    · exact .inl hid
  | dropTicket st' ticket err _ hd =>
    obtain ⟨-, -, -, hq⟩ := QueuedSchedulerTicket.drop_eq_some hd
    rw [hq cls] at hid
    split at hid
    · exact .inl (List.mem_of_mem_erase hid)
    · exact .inl hid
  | finishActive _ _ _ _ => exact .inl (by simpa using hid)
  | finishInactive _ _ _ _ => exact .inl (by simpa using hid)
  | transition _ _ _ _ => exact .inl hid
  | release _ _ _ _ _ => exact .inl hid

end Task

variable {c c' : Config (Shared N) (Task N.Notified)}
  {m : Move Action (SchedulerClass × GenerationPhase)}
  {ms : List (Move Action (SchedulerClass × GenerationPhase))}

/-! ### Along a run -/

/-- What one move keeps, beside `Inv`. -/
structure OrderInv (opts : ModelSchedulerOptions) (c : Config (Shared N) (Task N.Notified)) :
    Prop where
  inv : Inv opts c
  sorted : Task.Sorted c.shared.state

theorem OrderInv.move (h : OrderInv opts c) (hm : (scheduler N opts).move c m = some c') :
    OrderInv opts c' where
  inv := h.inv.move hm
  sorted := by
    rcases Program.move_cases hm with ⟨_, -, rfl⟩ | ⟨l, a, t, r, sh, t', -, ht, hs, rfl⟩
    · exact h.sorted
    · exact (Task.step_effect (h.inv.wf t (by simp [ht])) hs).sorted h.inv.ids h.sorted

theorem OrderInv.run (h : (scheduler N opts).run (initial N) ms = some c) : OrderInv opts c := by
  refine Program.run_inv (fun _ _ _ hc hm => hc.move hm) ⟨Inv.initial opts, fun cls => ?_⟩ h
  cases cls <;> exact List.Pairwise.nil

/-- The move admits request `i`, which was `t` before. -/
def Admits (c : Config (Shared N) (Task N.Notified))
    (m : Move Action (SchedulerClass × GenerationPhase))
    (c' : Config (Shared N) (Task N.Notified)) (i : ℕ) (t : Task N.Notified) : Prop :=
  ∃ a t', m = .act i a ∧ c.tasks[i]? = some t ∧ c'.tasks[i]? = some t' ∧
    t'.admissions = t.admissions + 1

/-- An admission of a move is one of its step. -/
theorem OrderInv.admission {i : ℕ} {t : Task N.Notified} (h : OrderInv opts c)
    (hm : (scheduler N opts).move c m = some c') (ha : Admits c m c' i t) :
    Task.Admission opts c.shared.state t := by
  obtain ⟨a, t', rfl, ht, ht', hadm⟩ := ha
  rcases Program.move_cases hm with ⟨_, hb, -⟩ | ⟨l, b, u, r, sh, u', hb, htasks, hs, rfl⟩
  · cases hb
  · obtain ⟨rfl, rfl⟩ := Move.act.inj hb
    obtain rfl : u = t := by simpa [htasks] using ht
    obtain rfl : u' = t' := by simpa using ht'
    have hwf := h.inv.wf u (by simp [htasks])
    rcases (Task.step_effect hwf hs).admission hwf with ⟨-, hsame⟩ | ⟨-, hadmission, -⟩
    · omega
    · exact hadmission

/-- The prefill admissions of a run that are made while a decode request is queued. -/
def prefillsPastDecode (opts : ModelSchedulerOptions) (c : Config (Shared N) (Task N.Notified)) :
    List (Move Action (SchedulerClass × GenerationPhase)) → ℕ
  | [] => 0
  | m :: ms =>
    match (scheduler N opts).move c m with
    | none => 0
    | some c' =>
      (if c.shared.state.admittedPrefill < c'.shared.state.admittedPrefill ∧
          c.shared.state.queuedDecode ≠ [] then 1 else 0) + prefillsPastDecode opts c' ms

/-- What a move does to the admission counters. -/
theorem OrderInv.counters (h : OrderInv opts c) (hm : (scheduler N opts).move c m = some c') :
    c.shared.state.admittedDecode < c'.shared.state.admittedDecode ∨
      (c'.shared.state.admittedDecode = c.shared.state.admittedDecode ∧
        c.shared.state.prefillAdmissionsSinceDecode ≤
          c'.shared.state.prefillAdmissionsSinceDecode ∧
        (c.shared.state.admittedPrefill < c'.shared.state.admittedPrefill →
          c.shared.state.queuedDecode ≠ [] →
            c.shared.state.prefillAdmissionsSinceDecode < opts.prefillBurst ∧
            c'.shared.state.prefillAdmissionsSinceDecode =
              c.shared.state.prefillAdmissionsSinceDecode + 1)) := by
  rcases Program.move_cases hm with ⟨_, -, rfl⟩ | ⟨l, a, t, r, sh, t', -, ht, hs, rfl⟩
  · exact .inr ⟨rfl, le_rfl, fun hlt => absurd hlt (lt_irrefl _)⟩
  · have hwf := h.inv.wf t (by simp [ht])
    rcases (Task.step_effect hwf hs).admission hwf with ⟨hsame, -⟩ | ⟨-, hadm, hcount, hsince⟩
    · have hp := congrFun hsame.admitted .prefill
      have hd := congrFun hsame.admitted .decode
      refine .inr ⟨hd, hsame.since.ge, fun hlt => ?_⟩
      simp only [ModelSchedulerState.admitted] at hp
      dsimp only at hlt
      omega
    · have hd := hcount .decode
      have hp := hcount .prefill
      cases hcls : t.cls with
      | decode =>
        simp only [ModelSchedulerState.admitted, hcls, if_true] at hd
        exact .inl (by dsimp only; omega)
      | prefill =>
        simp only [hcls, if_true] at hsince
        simp only [ModelSchedulerState.admitted, hcls, reduceCtorEq, if_false] at hd
        refine .inr ⟨hd, by dsimp only; omega, fun _ hq => ⟨?_, hsince⟩⟩
        cases hadm with
        | immediate _ hempty =>
          unfold ModelSchedulerState.queuedTotal at hempty
          exact absurd (List.length_eq_zero_iff.mp (by omega)) hq
        | queued ticket _ _ ha =>
          rw [hcls] at ha
          exact ModelSchedulerState.since_lt_of_admissible_prefill ha hq

theorem OrderInv.admittedDecode_le : ∀ {ms : List (Move Action (SchedulerClass × GenerationPhase))}
    {c : Config (Shared N) (Task N.Notified)}, OrderInv opts c →
    (scheduler N opts).run c ms = some c' →
      c.shared.state.admittedDecode ≤ c'.shared.state.admittedDecode
  | [], c, _, hr => by
    obtain rfl : c = c' := by simpa [Program.run] using hr
    exact le_rfl
  | m :: ms, c, h, hr => by
    obtain ⟨c₁, hm, hr₁⟩ := Option.bind_eq_some_iff.mp hr
    have ih := OrderInv.admittedDecode_le (h.move hm) hr₁
    rcases h.counters hm with hlt | ⟨heq, -⟩
    · omega
    · omega

/-- Without a decode admission, each prefill admission past a queued decode uses up one of
the burst. -/
theorem OrderInv.burst : ∀ {ms : List (Move Action (SchedulerClass × GenerationPhase))}
    {c : Config (Shared N) (Task N.Notified)}, OrderInv opts c →
    (scheduler N opts).run c ms = some c' →
      c'.shared.state.admittedDecode = c.shared.state.admittedDecode →
        prefillsPastDecode opts c ms = 0 ∨
          c.shared.state.prefillAdmissionsSinceDecode + prefillsPastDecode opts c ms ≤
            opts.prefillBurst
  | [], _, _, _, _ => .inl rfl
  | m :: ms, c, h, hr, hsame => by
    obtain ⟨c₁, hm, hr₁⟩ := Option.bind_eq_some_iff.mp hr
    have hmono := OrderInv.admittedDecode_le (h.move hm) hr₁
    rcases h.counters hm with hlt | ⟨heq, hle, hstep⟩
    · omega
    · have ih := OrderInv.burst (h.move hm) hr₁ (by omega)
      simp only [prefillsPastDecode, hm]
      split
      · rename_i hpast
        obtain ⟨hlt, hsince⟩ := hstep hpast.1 hpast.2
        omega
      · omega

/-! ### The guarantee -/

/-- What holds of every admission from a configuration on. -/
structure AdmissionOrder (opts : ModelSchedulerOptions)
    (c : Config (Shared N) (Task N.Notified)) : Prop where
  arrival : ∀ m c', (scheduler N opts).move c m = some c' → ∀ ticket ∈ liveTickets c',
    ticket.id ∉ (liveTickets c).map (·.id) → ∀ earlier ∈ liveTickets c, earlier.id < ticket.id
  fifo : ∀ m c' i t ticket, (scheduler N opts).move c m = some c' → Admits c m c' i t →
    t.pc.ticket = some ticket →
      ∀ other ∈ liveTickets c, other.cls = ticket.cls → ticket.id ≤ other.id
  immediate : ∀ m c' i t, (scheduler N opts).move c m = some c' → Admits c m c' i t →
    t.pc.ticket = none → liveTickets c = []
  burst : ∀ ms c', (scheduler N opts).run c ms = some c' →
    c'.shared.state.admittedDecode = c.shared.state.admittedDecode →
      prefillsPastDecode opts c ms ≤ opts.prefillBurst

theorem Inv.mem_queue {ticket : QueuedSchedulerTicket} (h : Inv opts c)
    (ht : ticket ∈ liveTickets c) : ticket.id ∈ c.shared.state.queue ticket.cls := by
  refine ((h.capacity.queued ticket.cls).mem_iff).mpr (List.mem_map.mpr ⟨ticket, ?_, rfl⟩)
  exact List.mem_filter.mpr ⟨ht, by simp⟩

theorem Inv.mem_liveTickets {cls : SchedulerClass} {id : ℕ} (h : Inv opts c)
    (hid : id ∈ c.shared.state.queue cls) : id ∈ (liveTickets c).map (·.id) := by
  obtain ⟨ticket, ht, rfl⟩ := List.mem_map.mp (((h.capacity.queued cls).mem_iff).mp hid)
  exact List.mem_map.mpr ⟨ticket, (List.mem_filter.mp ht).1, rfl⟩

theorem OrderInv.arrival (h : OrderInv opts c) (hm : (scheduler N opts).move c m = some c')
    {ticket earlier : QueuedSchedulerTicket} (ht : ticket ∈ liveTickets c')
    (hnew : ticket.id ∉ (liveTickets c).map (·.id)) (he : earlier ∈ liveTickets c) :
    earlier.id < ticket.id := by
  have hmem := (h.inv.move hm).mem_queue ht
  have hle := h.inv.ids.le _ _ (h.inv.mem_queue he)
  rcases Program.move_cases hm with ⟨_, -, rfl⟩ | ⟨l, a, t, r, sh, t', -, htasks, hs, rfl⟩
  · exact absurd (h.inv.mem_liveTickets hmem) hnew
  · have heff := Task.step_effect (h.inv.wf t (by simp [htasks])) hs
    rcases heff.queue_mem hmem with hold | hid
    · exact absurd (h.inv.mem_liveTickets hold) hnew
    · omega

theorem OrderInv.fifo {i : ℕ} {t : Task N.Notified} (h : OrderInv opts c)
    (hm : (scheduler N opts).move c m = some c') (ha : Admits c m c' i t)
    {ticket other : QueuedSchedulerTicket} (hpc : t.pc.ticket = some ticket)
    (ho : other ∈ liveTickets c) (hcls : other.cls = ticket.cls) : ticket.id ≤ other.id := by
  cases h.admission hm ha with
  | immediate hnone _ => rw [hnone] at hpc; cases hpc
  | queued ticket' hpc' hcls' hadm =>
    obtain rfl : ticket' = ticket := Option.some.inj (hpc'.symm.trans hpc)
    obtain ⟨tail, hq⟩ := List.head?_eq_some_iff.mp hadm.2.2
    have hmem := h.inv.mem_queue ho
    have hsorted := h.sorted t.cls
    rw [hcls, hcls', hq] at hmem
    rw [hq] at hsorted
    rcases List.mem_cons.mp hmem with heq | htail
    · exact heq.ge
    · exact (List.rel_of_pairwise_cons hsorted htail).le

theorem OrderInv.immediate {i : ℕ} {t : Task N.Notified} (h : OrderInv opts c)
    (hm : (scheduler N opts).move c m = some c') (ha : Admits c m c' i t)
    (hpc : t.pc.ticket = none) : liveTickets c = [] := by
  cases h.admission hm ha with
  | queued ticket hpc' _ _ => rw [hpc'] at hpc; cases hpc
  | immediate _ hempty =>
    refine List.eq_nil_iff_forall_not_mem.mpr fun ticket ht => ?_
    have hmem := List.length_pos_of_mem (h.inv.mem_queue ht)
    rw [ModelSchedulerState.queuedTotal_eq] at hempty
    cases hc : ticket.cls with
    | prefill => rw [hc] at hmem; omega
    | decode => rw [hc] at hmem; omega

/-- In every run, for every configuration: requests leave the queue of their class in
the order they came, nobody takes a slot past a waiting request, and at most the burst of
prefill requests passes a queued decode between two decode admissions. -/
theorem admission_order (h : (scheduler N opts).run (initial N) ms = some c) :
    AdmissionOrder opts c := by
  have hinv := OrderInv.run h
  refine ⟨fun m c' hm ticket ht hnew earlier he => ?_, fun m c' i t ticket hm ha hpc other ho hc => ?_,
    fun m c' i t hm ha hpc => ?_, fun ms' c' hr hd => ?_⟩
  · exact hinv.arrival hm ht hnew he
  · exact hinv.fifo hm ha hpc ho hc
  · exact hinv.immediate hm ha hpc
  · rcases hinv.burst hr hd with hz | hle
    · rw [hz]
      exact Nat.zero_le _
    · omega

theorem admission_order_yieldToDecode : ∃ c : Config (Shared .counting) (Task ℕ),
    (scheduler .counting ⟨1, 2, none, 1⟩).run (initial .counting) yieldToDecode = some c ∧
      (liveTickets c).map (·.id) = [2] ∧ AdmissionOrder ⟨1, 2, none, 1⟩ c := by
  have hrun : ((scheduler .counting ⟨1, 2, none, 1⟩).run (initial .counting) yieldToDecode).map
      (fun c => (liveTickets c).map (·.id)) = some [2] := by
    decide +kernel
  obtain ⟨c, hc, he⟩ := Option.map_eq_some_iff.mp hrun
  exact ⟨c, hc, he, admission_order hc⟩

end KirAi.Server
