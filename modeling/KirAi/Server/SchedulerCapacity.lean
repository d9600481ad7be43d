/-
# Slots and queue entries are neither lost nor made up

In every run of the scheduler, whatever order the requests take their steps in and
wherever they are cancelled, time out or are dropped, the two slot counters count
the permits that hold a slot, and the queues hold the tickets that wait. `Inv` is
what one step keeps: the counters and queues are accounts of what the requests
hold, in the sense of `Lib/Interleaving.lean`.

Key definitions:
* `livePermits`, `liveTickets`
* `Capacity`: the guarantee

Key theorem:
* `scheduler_capacity`
-/
import KirAi.Server.SchedulerEffect

namespace KirAi.Server

open Lib Interleaving

variable {N : Notify.Api} {opts : ModelSchedulerOptions}

namespace Task

variable {sh sh' : Shared N} {t t' : Task N.Notified}

/-- A slot is taken when a permit of the request gets it, and given back when the
permit lets it go. -/
theorem Effect.active (he : Effect opts sh t sh' t') (h : t.Wf) (h' : t'.Wf) (ph : GenerationPhase)
    (hle : t.slots ph ≤ sh.state.active ph) :
    sh'.state.active ph + t.slots ph = sh.state.active ph + t'.slots ph := by
  cases he with
  | quiet st' _ hq hk _ _ _ => rw [hk.slots ph, show st'.active = sh.state.active from hq.active]
  | notify _ hk _ =>
    rw [hk.slots ph]
    rfl
  | sleep ticket notified hpc _ =>
    rw [h.slots_eq, h'.slots_eq, hpc]
    rfl
  | admitImmediate hpc _ _ =>
    rw [h.slots_eq, h'.slots_eq, hpc]
    simp [goto, countAdmission, Pc.slots, Pc.permit, SchedulerPermit.new, List.countP_cons]
  | admitQueued ticket notified hpc _ =>
    rw [h.slots_eq, h'.slots_eq, hpc]
    simp [goto, countAdmission, Pc.slots, Pc.permit, SchedulerPermit.new, List.countP_cons]
  | enqueue st' ticket hpc he =>
    obtain ⟨-, -, -, -, hact, -⟩ := ModelSchedulerState.enqueue_eq_ok he
    rw [h.slots_eq, h'.slots_eq, hpc, show st'.active = sh.state.active from hact]
    rfl
  | dropTicket st' ticket err hpc hd =>
    rw [h.slots_eq, h'.slots_eq, hpc,
      show st'.active = sh.state.active from (QueuedSchedulerTicket.drop_eq_some hd).1]
    rfl
  | finishActive p by_ hpc hp =>
    rw [h.slots_eq, hpc] at hle
    rw [h.slots_eq, h'.slots_eq, hpc]
    simp only [Pc.slots, Pc.permit, Option.toList_some, Option.toList_none, List.countP_cons,
      List.countP_nil, hp, Bool.true_and, decide_eq_true_eq,
      ModelSchedulerState.active_finishActive] at hle ⊢
    omega
  | finishInactive p hpc hp _ =>
    rw [h.slots_eq, h'.slots_eq, hpc]
    simp [Pc.slots, Pc.permit, hp]
  | transition p hpc hp hph =>
    rw [h.slots_eq, hpc] at hle
    rw [h.slots_eq, h'.slots_eq, hpc]
    cases ph <;>
      simp [Pc.slots, Pc.permit, goto, hp, hph, ModelSchedulerState.active,
        ModelSchedulerState.transitionToDecode] at hle ⊢
    omega
  | release p r hpc hp hph =>
    rw [h.slots_eq, hpc] at hle
    rw [h.slots_eq, h'.slots_eq, hpc]
    cases ph <;>
      simp [Pc.slots, Pc.permit, hp, hph, ModelSchedulerState.active,
        ModelSchedulerState.releasePrefillForYield] at hle ⊢
    omega

/-- A queue entry comes with a ticket and goes with it. -/
theorem Effect.queue (he : Effect opts sh t sh' t') (h : t.Wf) (cls : SchedulerClass)
    (hle : t.waits cls ≤ (sh.state.queue cls : Multiset ℕ)) :
    (sh'.state.queue cls : Multiset ℕ) + t.waits cls =
      (sh.state.queue cls : Multiset ℕ) + t'.waits cls := by
  cases he with
  | quiet st' _ hq hk _ _ _ => rw [hk.waits cls, show st'.queue = sh.state.queue from hq.queue]
  | notify _ hk _ =>
    rw [hk.waits cls]
    rfl
  | sleep ticket notified hpc _ => simp [waits, goto, hpc, Pc.ticket]
  | admitImmediate hpc _ _ => simp [waits, goto, countAdmission, hpc, Pc.ticket]
  | admitQueued ticket notified hpc ha =>
    have hcls : ticket.cls = t.cls := (h.2.1 ticket (by rw [hpc]; rfl)).2
    simp only [waits, goto, countAdmission, hpc, Pc.ticket, hcls, ModelSchedulerState.queue_startActive,
      ModelSchedulerState.queue_modifyQueue]
    split
    · rename_i hc
      subst hc
      obtain ⟨tail, hq⟩ := List.head?_eq_some_iff.mp ha.2.2
      rw [hq, List.tail_cons, add_zero, ← Multiset.cons_coe, add_comm, Multiset.singleton_add]
    · rfl
  | enqueue st' ticket hpc he =>
    obtain ⟨-, hid, hcls, -, -, -, -, hq⟩ := ModelSchedulerState.enqueue_eq_ok he
    simp only [waits, goto, hpc, Pc.ticket, hq cls, hcls, hid]
    split
    · rw [← Multiset.coe_add, Multiset.coe_singleton, add_zero]
    · rfl
  | dropTicket st' ticket err hpc hd =>
    obtain ⟨-, -, -, hq⟩ := QueuedSchedulerTicket.drop_eq_some hd
    simp only [waits, goto, hpc, Pc.ticket] at hle ⊢
    rw [hq cls]
    split
    · rename_i hc
      rw [if_pos hc, Multiset.singleton_le, Multiset.mem_coe] at hle
      rw [add_zero, add_comm, Multiset.singleton_add, Multiset.cons_coe]
      exact Multiset.coe_eq_coe.mpr (List.perm_cons_erase hle).symm
    · rfl
  | finishActive p by_ hpc _ => simp [waits, hpc, Pc.ticket]
  | finishInactive p hpc _ _ => simp [waits, hpc, Pc.ticket]
  | transition p hpc _ _ =>
    simp only [waits, goto, hpc, Pc.ticket]
    rfl
  | release p r hpc _ _ =>
    simp only [waits, hpc, Pc.ticket]
    rfl

/-- Ids are given out in order, and every queue entry has its own. -/
structure Ids (st : ModelSchedulerState) : Prop where
  nodup : (st.queue .prefill ++ st.queue .decode).Nodup
  le : ∀ cls, ∀ id ∈ st.queue cls, id ≤ st.nextTicket

theorem Ids.of_sublist {st st' : ModelSchedulerState} (h : Ids st)
    (hq : ∀ cls, (st'.queue cls).Sublist (st.queue cls)) (hn : st'.nextTicket = st.nextTicket) :
    Ids st' where
  nodup := h.nodup.sublist ((hq .prefill).append (hq .decode))
  le cls id hid := hn ▸ h.le cls id ((hq cls).subset hid)

theorem Ids.of_append {st st' : ModelSchedulerState} {cls : SchedulerClass} (h : Ids st)
    (hq : ∀ c, st'.queue c = if cls = c then st.queue c ++ [st.nextTicket + 1] else st.queue c)
    (hn : st'.nextTicket = st.nextTicket + 1) : Ids st' where
  nodup := by
    have hfresh : st.nextTicket + 1 ∉ st.queue .prefill ++ st.queue .decode := by
      intro hm
      rcases List.mem_append.mp hm with hm | hm
      · exact absurd (h.le _ _ hm) (by omega)
      · exact absurd (h.le _ _ hm) (by omega)
    have hall : ((st.nextTicket + 1) :: (st.queue .prefill ++ st.queue .decode)).Nodup :=
      List.nodup_cons.mpr ⟨hfresh, h.nodup⟩
    rw [hq .prefill, hq .decode]
    cases cls with
    | prefill =>
      refine (List.Perm.nodup_iff ?_).mpr hall
      simp only [if_true, reduceCtorEq, if_false, List.append_assoc, List.singleton_append]
      exact List.perm_middle
    | decode =>
      refine (List.Perm.nodup_iff ?_).mpr hall
      simp only [reduceCtorEq, if_false, if_true, ← List.append_assoc]
      exact List.perm_append_singleton _ _
  le c id hid := by
    rw [hq c] at hid
    rw [hn]
    split at hid
    · rcases List.mem_append.mp hid with hid | hid
      · exact (h.le c id hid).trans (by omega)
      · rw [List.mem_singleton.mp hid]
    · exact (h.le c id hid).trans (by omega)

theorem Effect.ids (he : Effect opts sh t sh' t') (h : Ids sh.state) : Ids sh'.state := by
  cases he with
  | quiet st' _ hq _ _ _ _ => exact h.of_sublist (fun c => by rw [hq.queue]) hq.nextTicket
  | notify _ _ _ => exact h
  | sleep _ _ _ _ => exact h
  | admitImmediate _ _ _ => exact h.of_sublist (fun c => by simp) (by simp)
  | admitQueued _ _ _ _ =>
    refine h.of_sublist (fun c => ?_) (by simp)
    simp only [ModelSchedulerState.queue_startActive, ModelSchedulerState.queue_modifyQueue]
    split
    · exact List.tail_sublist _
    · exact List.Sublist.refl _
  | enqueue st' ticket _ he =>
    obtain ⟨-, -, -, -, -, -, hn, hq⟩ := ModelSchedulerState.enqueue_eq_ok he
    exact h.of_append hq hn
  | dropTicket st' ticket err _ hd =>
    obtain ⟨-, -, hn, hq⟩ := QueuedSchedulerTicket.drop_eq_some hd
    refine h.of_sublist (fun c => ?_) hn
    rw [hq c]
    split
    · exact List.erase_sublist
    · exact List.Sublist.refl _
  | finishActive _ _ _ _ => exact h.of_sublist (fun c => by simp) (by simp)
  | finishInactive _ _ _ _ => exact h.of_sublist (fun c => by simp) (by simp)
  | transition _ _ _ _ => exact h.of_sublist (fun c => List.Sublist.refl _) rfl
  | release _ _ _ _ _ => exact h.of_sublist (fun c => List.Sublist.refl _) rfl

/-- A slot is only taken below the limit. -/
theorem Effect.activeTotal_le (he : Effect opts sh t sh' t') (h : t.Wf)
    (hle : t.slots .prefill ≤ sh.state.active .prefill)
    (hlim : sh.state.activeTotal ≤ opts.concurrencyLimit) :
    sh'.state.activeTotal ≤ opts.concurrencyLimit := by
  have hcount (p : SchedulerPermit) (hp : p.active = true) (hph : p.phase = .prefill)
      (hpc : t.pc = .held p) : 1 ≤ sh.state.active .prefill := by
    rw [h.slots_eq, hpc] at hle
    simpa [Pc.slots, Pc.permit, hp, hph] using hle
  simp only [ModelSchedulerState.activeTotal_eq] at hlim ⊢
  cases he with
  | quiet st' _ hq _ _ _ _ => rwa [hq.active]
  | notify _ _ _ => exact hlim
  | sleep _ _ _ _ => exact hlim
  | admitImmediate _ hfree _ =>
    simp only [ModelSchedulerState.activeTotal_eq] at hfree
    simp only [ModelSchedulerState.active_startActive]
    cases t.phase <;> simp <;> omega
  | admitQueued _ _ _ ha =>
    have hfree := ha.1
    simp only [ModelSchedulerState.activeTotal_eq] at hfree
    simp only [ModelSchedulerState.active_startActive, ModelSchedulerState.active_modifyQueue]
    cases t.phase <;> simp <;> omega
  | enqueue st' _ _ he =>
    obtain ⟨-, -, -, -, hact, -⟩ := ModelSchedulerState.enqueue_eq_ok he
    rwa [hact]
  | dropTicket st' _ _ _ hd => rwa [(QueuedSchedulerTicket.drop_eq_some hd).1]
  | finishActive p _ _ _ =>
    simp only [ModelSchedulerState.active_finishActive]
    omega
  | finishInactive p _ _ _ => rwa [ModelSchedulerState.active_finishInactive]
  | transition p hpc hp hph =>
    have := hcount p hp hph hpc
    simp only [ModelSchedulerState.active, ModelSchedulerState.transitionToDecode] at this hlim ⊢
    omega
  | release p _ _ _ _ =>
    simp only [ModelSchedulerState.active, ModelSchedulerState.releasePrefillForYield] at hlim ⊢
    omega

/-- A queue entry is only added below the limit. -/
theorem Effect.queuedTotal_le (he : Effect opts sh t sh' t')
    (hlim : sh.state.queuedTotal ≤ opts.queueLimit) :
    sh'.state.queuedTotal ≤ opts.queueLimit := by
  have of_sublist (st' : ModelSchedulerState)
      (hq : ∀ cls, (st'.queue cls).Sublist (sh.state.queue cls)) :
      st'.queuedTotal ≤ opts.queueLimit :=
    (Nat.add_le_add (hq .prefill).length_le (hq .decode).length_le).trans hlim
  cases he with
  | quiet st' _ hq _ _ _ _ => exact of_sublist _ fun c => by rw [hq.queue]
  | notify _ _ _ => exact hlim
  | sleep _ _ _ _ => exact hlim
  | admitImmediate _ _ _ => exact of_sublist _ fun c => by simp
  | admitQueued _ _ _ _ =>
    refine of_sublist _ fun c => ?_
    simp only [ModelSchedulerState.queue_startActive, ModelSchedulerState.queue_modifyQueue]
    split
    · exact List.tail_sublist _
    · exact List.Sublist.refl _
  | enqueue st' ticket _ he =>
    obtain ⟨hlt, -, -, -, -, -, -, hq⟩ := ModelSchedulerState.enqueue_eq_ok he
    rw [ModelSchedulerState.queuedTotal_eq] at hlt ⊢
    simp only [hq]
    cases t.cls <;> simp <;> omega
  | dropTicket st' ticket err _ hd =>
    obtain ⟨-, -, -, hq⟩ := QueuedSchedulerTicket.drop_eq_some hd
    refine of_sublist _ fun c => ?_
    rw [hq c]
    split
    · exact List.erase_sublist
    · exact List.Sublist.refl _
  | finishActive _ _ _ _ => exact of_sublist _ fun c => by simp
  | finishInactive _ _ _ _ => exact of_sublist _ fun c => by simp
  | transition _ _ _ _ => exact hlim
  | release _ _ _ _ _ => exact hlim

end Task

/-! ### The invariant of every run -/

/-- What one move keeps. -/
structure Inv (opts : ModelSchedulerOptions) (c : Config (Shared N) (Task N.Notified)) : Prop where
  wf : ∀ t ∈ c.tasks, t.Wf
  active : ∀ ph, c.shared.state.active ph = (c.tasks.map (Task.slots ph)).sum
  queued : ∀ cls, (c.shared.state.queue cls : Multiset ℕ) = (c.tasks.map (Task.waits cls)).sum
  ids : Task.Ids c.shared.state
  within : c.shared.state.activeTotal ≤ opts.concurrencyLimit
  bounded : c.shared.state.queuedTotal ≤ opts.queueLimit

theorem Inv.initial (opts : ModelSchedulerOptions) : Inv opts (Server.initial N) where
  wf t ht := by simp [Server.initial] at ht
  active ph := by cases ph <;> simp [Server.initial, ModelSchedulerState.active]
  queued cls := by cases cls <;> simp [Server.initial, ModelSchedulerState.queue]
  ids := ⟨by simp [Server.initial, ModelSchedulerState.queue],
    fun cls => by cases cls <;> simp [Server.initial, ModelSchedulerState.queue]⟩
  within := by simp [Server.initial, ModelSchedulerState.activeTotal]
  bounded := by simp [Server.initial, ModelSchedulerState.queuedTotal]

variable {c c' : Config (Shared N) (Task N.Notified)}
  {m : Move Action (SchedulerClass × GenerationPhase)}
  {ms : List (Move Action (SchedulerClass × GenerationPhase))}

theorem Inv.move (h : Inv opts c) (hm : (scheduler N opts).move c m = some c') : Inv opts c' where
  wf := Program.move_forall (fun _ r => Task.wf_start r) (fun _ _ _ _ _ hw hs => hw.step hs)
    (fun _ _ _ _ _ _ _ _ hu => hu) hm h.wf
  active ph := by
    refine Program.move_account (J := fun _ t => t.Wf) (g := fun sh => sh.state.active ph) (fun r => rfl)
      (fun a sh t sh' t' hw hle hs => ?_) hm h.wf (h.active ph)
    exact (Task.step_effect hw hs).active hw (hw.step hs) ph hle
  queued cls := by
    refine Program.move_account (J := fun _ t => t.Wf)
      (g := fun sh => (sh.state.queue cls : Multiset ℕ)) (fun r => rfl) (fun a sh t sh' t' hw hle hs => ?_) hm h.wf (h.queued cls)
    exact (Task.step_effect hw hs).queue hw cls hle
  ids := by
    rcases Program.move_cases hm with ⟨_, -, rfl⟩ | ⟨l, a, t, r, sh, t', -, ht, hs, rfl⟩
    · exact h.ids
    · exact (Task.step_effect (h.wf t (by simp [ht])) hs).ids h.ids
  within := by
    rcases Program.move_cases hm with ⟨_, -, rfl⟩ | ⟨l, a, t, r, sh, t', -, ht, hs, rfl⟩
    · exact h.within
    · have hmem : t ∈ c.tasks := by simp [ht]
      have hle : t.slots .prefill ≤ c.shared.state.active .prefill :=
        h.active .prefill ▸ Program.le_sum_of_mem hmem
      exact (Task.step_effect (h.wf t hmem) hs).activeTotal_le (h.wf t hmem) hle h.within
  bounded := by
    rcases Program.move_cases hm with ⟨_, -, rfl⟩ | ⟨l, a, t, r, sh, t', -, ht, hs, rfl⟩
    · exact h.bounded
    · exact (Task.step_effect (h.wf t (by simp [ht])) hs).queuedTotal_le h.bounded

theorem Inv.run (h : (scheduler N opts).run (Server.initial N) ms = some c) : Inv opts c :=
  Program.run_inv (fun _ _ _ hc hm => hc.move hm) (Inv.initial opts) h

/-! ### The guarantee -/

def livePermits (c : Config (Shared N) (Task N.Notified)) : List SchedulerPermit :=
  c.tasks.flatMap Task.permits

/-- The tickets that wait: each is at a place of its request. -/
def liveTickets (c : Config (Shared N) (Task N.Notified)) : List QueuedSchedulerTicket :=
  c.tasks.filterMap fun t => t.pc.ticket

/-- The slots in use are within the limit and are those of the live permits, a permit
that gives its slot back finds its counter above zero, and the queues hold the ids of the
live tickets, each once. -/
structure Capacity (opts : ModelSchedulerOptions) (c : Config (Shared N) (Task N.Notified)) :
    Prop where
  within : c.shared.state.activeTotal ≤ opts.concurrencyLimit
  counted : ∀ ph, c.shared.state.active ph =
    (livePermits c).countP fun p => p.active && decide (p.phase = ph)
  positive : ∀ p ∈ livePermits c, p.active = true → 0 < c.shared.state.active p.phase
  bounded : c.shared.state.queuedTotal ≤ opts.queueLimit
  queued : ∀ cls, (c.shared.state.queue cls).Perm
    (((liveTickets c).filter fun ticket => decide (ticket.cls = cls)).map (·.id))
  unique : ((liveTickets c).map (·.id)).Nodup

theorem sum_waits (cls : SchedulerClass) : ∀ tasks : List (Task N.Notified),
    (tasks.map (Task.waits cls)).sum =
      (((tasks.filterMap fun t => t.pc.ticket).filter fun ticket =>
        decide (ticket.cls = cls)).map (·.id) : Multiset ℕ)
  | [] => rfl
  | t :: ts => by
    rw [List.map_cons, List.sum_cons, sum_waits cls ts, List.filterMap_cons, Task.waits]
    cases t.pc.ticket with
    | none => exact zero_add _
    | some ticket =>
      dsimp only
      by_cases hc : ticket.cls = cls
      · rw [if_pos hc, List.filter_cons_of_pos (by simpa using hc), List.map_cons,
          ← Multiset.cons_coe, Multiset.singleton_add]
      · rw [if_neg hc, List.filter_cons_of_neg (by simpa using hc), zero_add]

theorem filter_class_perm : ∀ l : List QueuedSchedulerTicket,
    ((l.filter fun ticket => decide (ticket.cls = .prefill)) ++
      l.filter fun ticket => decide (ticket.cls = .decode)).Perm l
  | [] => .nil
  | ticket :: l => by
    have ih := filter_class_perm l
    cases hc : ticket.cls with
    | prefill => simpa [hc] using ih
    | decode =>
      simp only [List.filter_cons, hc, reduceCtorEq, decide_false, decide_true, if_true,
        Bool.false_eq_true, if_false]
      exact List.perm_middle.trans (ih.cons ticket)

theorem Inv.capacity (h : Inv opts c) : Capacity opts c := by
  have hcounted : ∀ ph, c.shared.state.active ph =
      (livePermits c).countP fun p => p.active && decide (p.phase = ph) := by
    intro ph
    rw [h.active ph, livePermits, List.countP_flatMap]
    rfl
  have hqueued : ∀ cls, (c.shared.state.queue cls).Perm
      (((liveTickets c).filter fun ticket => decide (ticket.cls = cls)).map (·.id)) :=
    fun cls => Multiset.coe_eq_coe.mp ((h.queued cls).trans (sum_waits cls c.tasks))
  refine ⟨h.within, hcounted, fun p hp ha => ?_, h.bounded, hqueued, ?_⟩
  · rw [hcounted p.phase]
    exact List.countP_pos_iff.mpr ⟨p, hp, by simp [ha]⟩
  · have hperm := ((hqueued .prefill).append (hqueued .decode))
    rw [← List.map_append] at hperm
    have hall := hperm.trans ((filter_class_perm (liveTickets c)).map (·.id))
    exact hall.nodup_iff.mp h.ids.nodup

variable (N opts) in
/-- In every run, for every configuration: slots and queue entries are those of the live
permits and tickets, within the limits. -/
theorem scheduler_capacity (ms : List (Move Action (SchedulerClass × GenerationPhase)))
    (c : Config (Shared N) (Task N.Notified))
    (h : (scheduler N opts).run (initial N) ms = some c) : Capacity opts c :=
  (Inv.run h).capacity

/-- Request `i` runs for `n` steps. -/
def polls (i n : ℕ) : List (Move Action (SchedulerClass × GenerationPhase)) :=
  List.replicate n (.act i (.poll 0))

/-- A prefill yields its only slot to a decode that was queued behind it, and queues
again. -/
def yieldToDecode : List (Move Action (SchedulerClass × GenerationPhase)) :=
  .spawn (.prefill, .prefill) :: polls 0 3 ++ .spawn (.decode, .decode) :: polls 1 7 ++
    .act 0 (.permit .yieldPrefillChunk) :: polls 0 8 ++ .act 1 (.wake .notified) :: polls 1 5

theorem scheduler_capacity_yieldToDecode : ∃ c : Config (Shared .counting) (Task ℕ),
    (scheduler .counting ⟨1, 2, none, 1⟩).run (initial .counting) yieldToDecode = some c ∧
      c.shared.state.active .decode = 1 ∧ c.shared.state.queue .prefill = [2] ∧
      Capacity ⟨1, 2, none, 1⟩ c := by
  have hrun : ((scheduler .counting ⟨1, 2, none, 1⟩).run (initial .counting) yieldToDecode).map
      (fun c => (c.shared.state.active .decode, c.shared.state.queue .prefill)) =
        some (1, [2]) := by
    decide +kernel
  obtain ⟨c, hc, he⟩ := Option.map_eq_some_iff.mp hrun
  obtain ⟨hact, hq⟩ := Prod.mk.inj he
  exact ⟨c, hc, hact, hq, scheduler_capacity .counting ⟨1, 2, none, 1⟩ yieldToDecode c hc⟩

end KirAi.Server
