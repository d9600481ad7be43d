/-
# Every admitted request ends once

A request that was admitted holds a slot, waits to be admitted again after a
yield, or has been counted as completed, cancelled or failed, once. The one way out
of this account is a pending yield whose future is dropped: its permit was told
not to count itself, and nothing else does (`Task.Balanced` with its `abandoned`
term). So the account of a run is exact exactly when the run drops no pending
yield.

Key definitions:
* `Task.Balanced`: the account of one request
* `Accounted`: the guarantee
* `DropsPendingYield`, `Careful`

Key theorem:
* `accounted_iff_careful`
-/
import KirAi.Server.SchedulerCapacity
import Mathlib.Data.List.Induction

namespace KirAi.Server

open Lib Interleaving

variable {N : Notify.Api} {opts : ModelSchedulerOptions}

namespace Task

variable {sh sh' : Shared N} {t t' : Task N.Notified}

/-- The account of a request: once it was admitted, it is in one place. -/
def Balanced (t : Task N.Notified) : Prop :=
  t.recorded + (t.slots .prefill + t.slots .decode) + t.readmission + t.abandoned =
    if t.admissions = 0 then 0 else 1

theorem balanced_start (r : SchedulerClass × GenerationPhase) :
    Balanced (start r : Task N.Notified) := rfl

/-- At a place of `acquire` before admission, a request with no permit set aside was
never admitted; one with a permit set aside waits for readmission. -/
theorem Wf.balance_before_admission (h : t.Wf) (hb : t.Balanced) (hslots : t.pc.slots = fun _ => 0)
    (hread : t.readmission = if t.suspended.isSome then 1 else 0)
    (hnew : t.suspended = none → t.admissions = 0) :
    t.recorded + t.abandoned = 0 := by
  unfold Balanced at hb
  rw [h.slots_eq, h.slots_eq, hslots, hread] at hb
  cases hs : t.suspended with
  | none =>
    rw [hs, hnew hs] at hb
    simp at hb
    omega
  | some q =>
    have hle : (if t.admissions = 0 then 0 else 1) ≤ 1 := by split <;> omega
    simp only [hs, Option.isSome_some, if_true] at hb
    omega

theorem Effect.balanced (he : Effect opts sh t sh' t') (h : t.Wf) (h' : t'.Wf) (hb : t.Balanced) :
    t'.Balanced := by
  cases he with
  | quiet _ _ _ hk _ _ _ =>
    unfold Balanced at hb ⊢
    rw [hk.recorded, hk.slots, hk.slots, hk.admissions]
    have := hk.pending
    omega
  | notify _ hk _ =>
    unfold Balanced at hb ⊢
    rw [hk.recorded, hk.slots, hk.slots, hk.admissions]
    have := hk.pending
    omega
  | sleep ticket notified hpc _ =>
    unfold Balanced at hb ⊢
    rw [h.slots_eq, h.slots_eq, hpc] at hb
    rw [h'.slots_eq, h'.slots_eq]
    simp only [readmission, hpc] at hb
    exact hb
  | admitImmediate hpc _ _ =>
    have hnew := h.2.2
    rw [hpc] at hnew
    have hzero := h.balance_before_admission hb (by rw [hpc]; rfl) (by simp [readmission, hpc]) hnew
    unfold Balanced
    rw [h'.slots_eq, h'.slots_eq]
    cases hp : t.phase <;>
      simp [goto, countAdmission, Pc.slots, Pc.permit, SchedulerPermit.new, readmission] <;> omega
  | admitQueued ticket notified hpc _ =>
    have hnew := h.2.2
    rw [hpc] at hnew
    have hzero := h.balance_before_admission hb (by rw [hpc]; rfl) (by simp [readmission, hpc]) hnew
    unfold Balanced
    rw [h'.slots_eq, h'.slots_eq]
    cases hp : t.phase <;>
      simp [goto, countAdmission, Pc.slots, Pc.permit, SchedulerPermit.new, readmission] <;> omega
  | enqueue st' ticket hpc _ =>
    unfold Balanced at hb ⊢
    rw [h.slots_eq, h.slots_eq, hpc] at hb
    rw [h'.slots_eq, h'.slots_eq]
    simp only [readmission, hpc] at hb
    exact hb
  | dropTicket st' ticket err hpc _ =>
    unfold Balanced at hb ⊢
    rw [h.slots_eq, h.slots_eq, hpc] at hb
    rw [h'.slots_eq, h'.slots_eq]
    simp only [readmission, hpc] at hb
    cases err <;> exact hb
  | finishActive p by_ hpc hp =>
    unfold Balanced at hb ⊢
    rw [h.slots_eq, h.slots_eq, hpc] at hb
    rw [h'.slots_eq, h'.slots_eq]
    cases hph : p.phase <;> cases by_ <;>
      simp [readmission, hpc, Pc.slots, Pc.permit, hp, hph] at hb ⊢ <;> omega
  | finishInactive p hpc hp ht =>
    unfold Balanced at hb ⊢
    rw [h.slots_eq, h.slots_eq, hpc] at hb
    rw [h'.slots_eq, h'.slots_eq]
    simp [readmission, hpc, Pc.slots, Pc.permit, hp, ht] at hb ⊢
    omega
  | transition p hpc hp hph =>
    unfold Balanced at hb ⊢
    rw [h.slots_eq, h.slots_eq, hpc] at hb
    rw [h'.slots_eq, h'.slots_eq]
    simp [readmission, hpc, goto, Pc.slots, Pc.permit, hp, hph] at hb ⊢
    omega
  | release p r hpc hp hph =>
    unfold Balanced at hb ⊢
    rw [h.slots_eq, h.slots_eq, hpc] at hb
    rw [h'.slots_eq, h'.slots_eq]
    simp [readmission, hpc, Pc.slots, Pc.permit, hp, hph] at hb ⊢
    omega

/-- The counters of ended requests count what the requests have on record. -/
theorem Effect.terminal (he : Effect opts sh t sh' t') :
    sh'.state.terminal + t.recorded = sh.state.terminal + t'.recorded := by
  cases he with
  | quiet _ _ hq hk _ _ _ => rw [hk.recorded, hq.terminal]
  | notify _ hk _ =>
    rw [hk.recorded]
    rfl
  | sleep _ _ _ _ => rfl
  | admitImmediate _ _ _ =>
    rw [ModelSchedulerState.terminal_startActive]
    rfl
  | admitQueued _ _ _ _ =>
    rw [ModelSchedulerState.terminal_startActive, ModelSchedulerState.terminal_modifyQueue]
    rfl
  | enqueue st' ticket _ he =>
    obtain ⟨-, -, -, -, -, ht, -⟩ := ModelSchedulerState.enqueue_eq_ok he
    rw [ht]
    rfl
  | dropTicket st' ticket err _ hd =>
    rw [(QueuedSchedulerTicket.drop_eq_some hd).2.1]
    rfl
  | finishActive p _ _ _ =>
    rw [ModelSchedulerState.terminal_finishActive]
    dsimp only
    omega
  | finishInactive p _ _ _ =>
    rw [ModelSchedulerState.terminal_finishInactive]
    dsimp only
    omega
  | transition _ _ _ _ => rfl
  | release _ _ _ _ _ => rfl

/-! ### Only the drop of a pending yield abandons a request -/

theorem abandoned_afterTicketDrop (t : Task N.Notified) (err : Option SchedulerAcquireError) :
    (t.afterTicketDrop err).abandoned = t.abandoned := by
  cases err with
  | none =>
    simp only [afterTicketDrop, returnDropped]
    cases t.suspended <;> rfl
  | some err => exact (history_returnErr t err).2.2

theorem abandoned_afterPermitDrop (t : Task N.Notified) (by_ : Dropper) :
    (t.afterPermitDrop by_).abandoned = t.abandoned := by
  cases by_ with
  | acquire => exact (history_returnErr t _).2.2
  | owner => rfl

theorem abandoned_poll {elapsed : ℕ} (hs : t.poll opts elapsed sh = some (sh', t')) :
    t'.abandoned = t.abandoned := by
  obtain ⟨cancelled, cls, phase, suspended, pc, admissions, recorded, abandoned⟩ := t
  cases pc with
  | enqueued | subscribe | starvationWait | recordYield | yielded =>
    obtain ⟨-, rfl⟩ := Prod.mk.inj (Option.some.inj hs)
    rfl
  | select | held | finished => cases hs
  | acquire =>
    obtain ⟨-, rfl⟩ := Prod.mk.inj (Option.some.inj hs)
    dsimp only
    split
    · exact (history_returnErr _ _).2.2
    · rfl
  | loopTop ticket =>
    obtain ⟨-, rfl⟩ := Prod.mk.inj (Option.some.inj hs)
    dsimp only
    split <;> rfl
  | admitUnlessCancelled p =>
    obtain ⟨-, rfl⟩ := Prod.mk.inj (Option.some.inj hs)
    dsimp only
    split
    · rfl
    · cases suspended <;> rfl
  | tryAcquireImmediate | tryAdmitQueued =>
    simp only [poll] at hs
    split at hs <;> obtain ⟨-, rfl⟩ := Prod.mk.inj (Option.some.inj hs) <;> rfl
  | enqueue =>
    simp only [poll] at hs
    split at hs
    · obtain ⟨-, rfl⟩ := Prod.mk.inj (Option.some.inj hs)
      rfl
    · obtain ⟨-, rfl⟩ := Prod.mk.inj (Option.some.inj hs)
      exact (history_returnErr _ _).2.2
  | dropTicket ticket err =>
    simp only [poll] at hs
    split at hs
    · obtain ⟨-, rfl⟩ := Prod.mk.inj (Option.some.inj hs)
      rfl
    · obtain ⟨-, rfl⟩ := Prod.mk.inj (Option.some.inj hs)
      exact abandoned_afterTicketDrop _ err
  | ticketDropped err =>
    obtain ⟨-, rfl⟩ := Prod.mk.inj (Option.some.inj hs)
    exact abandoned_afterTicketDrop _ err
  | dropPermit p by_ =>
    simp only [poll] at hs
    split at hs
    · obtain ⟨-, rfl⟩ := Prod.mk.inj (Option.some.inj hs)
      rfl
    · obtain ⟨-, rfl⟩ := Prod.mk.inj (Option.some.inj hs)
      exact abandoned_afterPermitDrop _ by_
  | permitDropped by_ =>
    obtain ⟨-, rfl⟩ := Prod.mk.inj (Option.some.inj hs)
    exact abandoned_afterPermitDrop _ by_

theorem abandoned_permitOp {op : PermitOp} (hs : permitOp op sh t = some (sh', t')) :
    t'.abandoned = t.abandoned := by
  obtain ⟨cancelled, cls, phase, suspended, pc, admissions, recorded, abandoned⟩ := t
  cases pc with
  | held p =>
    cases op with
    | transitionToDecode =>
      simp only [permitOp] at hs
      split at hs <;> obtain ⟨-, rfl⟩ := Prod.mk.inj (Option.some.inj hs) <;> rfl
    | yieldPrefillChunk =>
      simp only [permitOp, yieldPrefillChunk] at hs
      split at hs
      · obtain ⟨-, rfl⟩ := Prod.mk.inj (Option.some.inj hs)
        rfl
      · split at hs <;> obtain ⟨-, rfl⟩ := Prod.mk.inj (Option.some.inj hs) <;> rfl
    | markFailed | markCancelled | drop =>
      obtain ⟨-, rfl⟩ := Prod.mk.inj (Option.some.inj hs)
      rfl
  | _ => cases hs

theorem abandoned_wake {w : Wakeup} (hs : t.wake opts w sh = some t') :
    t'.abandoned = t.abandoned + if w = .dropped ∧ t.suspended.isSome = true then 1 else 0 := by
  obtain ⟨cancelled, cls, phase, suspended, pc, admissions, recorded, abandoned⟩ := t
  cases pc with
  | select ticket notified =>
    cases w with
    | dropped =>
      obtain rfl := Option.some.inj hs
      simp
    | notified | cancelled | deadline =>
      obtain ⟨-, he⟩ := Option.ite_none_right_eq_some.mp hs
      obtain rfl := Option.some.inj he
      simp [goto]
  | _ => cases hs

/-- The step is the drop of a pending yield. -/
def DropsYield (a : Action) (t : Task N.Notified) : Prop :=
  a = .wake .dropped ∧ t.suspended.isSome = true

instance (a : Action) (t : Task N.Notified) : Decidable (DropsYield a t) :=
  inferInstanceAs (Decidable (_ ∧ _))

theorem abandoned_step {a : Action} (hs : step opts a sh t = some (sh', t')) :
    t'.abandoned = t.abandoned + if DropsYield a t then 1 else 0 := by
  cases a with
  | cancel =>
    obtain ⟨-, rfl⟩ := Prod.mk.inj (Option.some.inj hs)
    simp [DropsYield]
  | poll elapsed => simp [DropsYield, abandoned_poll hs]
  | wake w =>
    obtain ⟨t₁, ht, he⟩ := Option.map_eq_some_iff.mp hs
    obtain ⟨-, rfl⟩ := Prod.mk.inj he
    simp [DropsYield, abandoned_wake ht]
  | permit op => simp [DropsYield, abandoned_permitOp hs]

end Task

variable {c c' : Config (Shared N) (Task N.Notified)}
  {m : Move Action (SchedulerClass × GenerationPhase)}
  {ms : List (Move Action (SchedulerClass × GenerationPhase))}

/-! ### The account of a run -/

/-- What one move keeps, beside `Inv`. -/
structure AccountInv (opts : ModelSchedulerOptions) (c : Config (Shared N) (Task N.Notified)) :
    Prop where
  inv : Inv opts c
  balanced : ∀ t ∈ c.tasks, t.Balanced
  terminal : c.shared.state.terminal = (c.tasks.map Task.recorded).sum

theorem AccountInv.initial (opts : ModelSchedulerOptions) : AccountInv opts (Server.initial N) where
  inv := Inv.initial opts
  balanced t ht := by simp [Server.initial] at ht
  terminal := by simp [Server.initial, ModelSchedulerState.terminal]

theorem AccountInv.move (h : AccountInv opts c) (hm : (scheduler N opts).move c m = some c') :
    AccountInv opts c' where
  inv := h.inv.move hm
  balanced t ht := by
    refine (Program.move_forall
      (J := fun (_ : Shared N) (t : Task N.Notified) => t.Wf ∧ t.Balanced)
      (fun _ r => ⟨Task.wf_start r, Task.balanced_start r⟩) (fun _ _ _ _ _ hj hs => ?_)
      (fun _ _ _ _ _ _ _ _ hu => hu) hm (fun t ht => ⟨h.inv.wf t ht, h.balanced t ht⟩) t ht).2
    exact ⟨hj.1.step hs, (Task.step_effect hj.1 hs).balanced hj.1 (hj.1.step hs) hj.2⟩
  terminal := by
    refine Program.move_account (J := fun _ t => t.Wf) (g := fun sh => sh.state.terminal)
      (fun r => rfl) (fun a sh t sh' t' hw _ hs => ?_) hm h.inv.wf h.terminal
    exact (Task.step_effect hw hs).terminal

theorem AccountInv.run (h : (scheduler N opts).run (Server.initial N) ms = some c) :
    AccountInv opts c :=
  Program.run_inv (fun _ _ _ hc hm => hc.move hm) (AccountInv.initial opts) h

/-- The requests that were ever admitted. -/
def admittedRequests (c : Config (Shared N) (Task N.Notified)) : ℕ :=
  c.tasks.countP fun t => decide (t.admissions ≠ 0)

/-- The requests between a yield and their readmission. -/
def awaitingReadmission (c : Config (Shared N) (Task N.Notified)) : ℕ :=
  (c.tasks.map Task.readmission).sum

def abandonedYields (c : Config (Shared N) (Task N.Notified)) : ℕ :=
  (c.tasks.map Task.abandoned).sum

theorem sum_balanced : ∀ tasks : List (Task N.Notified), (∀ t ∈ tasks, t.Balanced) →
    (tasks.map Task.recorded).sum +
        ((tasks.map (Task.slots .prefill)).sum + (tasks.map (Task.slots .decode)).sum) +
        (tasks.map Task.readmission).sum + (tasks.map Task.abandoned).sum =
      tasks.countP fun t => decide (t.admissions ≠ 0)
  | [], _ => rfl
  | t :: ts, h => by
    have ih := sum_balanced ts fun u hu => h u (List.mem_cons_of_mem _ hu)
    have ht : t.Balanced := h t List.mem_cons_self
    unfold Task.Balanced at ht
    simp only [List.map_cons, List.sum_cons, List.countP_cons, decide_eq_true_eq]
    by_cases ha : t.admissions = 0
    · rw [if_pos ha] at ht
      rw [if_neg (not_not.mpr ha)]
      omega
    · rw [if_neg ha] at ht
      rw [if_pos ha]
      omega

/-- The account of every run: what is missing are the dropped yields. -/
theorem AccountInv.total (h : AccountInv opts c) :
    admittedRequests c = c.shared.state.activeTotal + awaitingReadmission c +
      c.shared.state.terminal + abandonedYields c := by
  have hsum := sum_balanced c.tasks h.balanced
  rw [← h.terminal, ← h.inv.active .prefill, ← h.inv.active .decode] at hsum
  unfold admittedRequests awaitingReadmission abandonedYields
  rw [ModelSchedulerState.activeTotal_eq]
  omega

/-! ### The guarantee -/

/-- Every admitted request that is over was counted as ended once, no request twice, and
the counters add up. -/
structure Accounted (c : Config (Shared N) (Task N.Notified)) : Prop where
  recorded : (c.tasks.map Task.recorded).sum =
    c.shared.state.completed + c.shared.state.cancelled + c.shared.state.failed
  ended : ∀ t ∈ c.tasks, t.pc = .finished → t.admissions ≠ 0 → t.recorded = 1
  once : ∀ t ∈ c.tasks, t.recorded ≤ 1
  total : admittedRequests c = c.shared.state.activeTotal + awaitingReadmission c +
    (c.shared.state.completed + c.shared.state.cancelled + c.shared.state.failed)

/-- A move drops the future of a yield that waits to be admitted again. -/
def DropsPendingYield (c : Config (Shared N) (Task N.Notified))
    (m : Move Action (SchedulerClass × GenerationPhase)) : Prop :=
  ∃ i t, m = .act i (.wake .dropped) ∧ c.tasks[i]? = some t ∧ t.suspended.isSome = true

/-- No step of the run drops a pending yield. -/
def Careful (N : Notify.Api) (opts : ModelSchedulerOptions)
    (ms : List (Move Action (SchedulerClass × GenerationPhase))) : Prop :=
  ∀ ms₁ m ms₂ c₁, ms = ms₁ ++ m :: ms₂ → (scheduler N opts).run (initial N) ms₁ = some c₁ →
    ¬ DropsPendingYield c₁ m

theorem abandonedYields_move (hm : (scheduler N opts).move c m = some c') :
    abandonedYields c ≤ abandonedYields c' ∧
      (abandonedYields c < abandonedYields c' ↔ DropsPendingYield c m) := by
  rcases Program.move_cases hm with ⟨b, rfl, rfl⟩ | ⟨l, a, t, r, sh, t', rfl, ht, hs, rfl⟩
  · have hsame : abandonedYields { c with tasks := c.tasks ++ [Task.start b] } =
        abandonedYields c := by
      simp [abandonedYields, Task.start]
    refine ⟨hsame.ge, fun hlt => absurd hlt (by rw [scheduler, hsame]; omega), ?_⟩
    rintro ⟨i, u, hi, -⟩
    cases hi
  · have hstep := Task.abandoned_step hs
    have hdrop : DropsPendingYield c (.act l.length a) ↔ Task.DropsYield a t := by
      constructor
      · rintro ⟨i, u, hi, hu, hsus⟩
        obtain ⟨rfl, rfl⟩ := Move.act.inj hi
        rw [ht, List.getElem?_append_right le_rfl, Nat.sub_self] at hu
        obtain rfl : t = u := Option.some.inj hu
        exact ⟨rfl, hsus⟩
      · rintro ⟨rfl, hsus⟩
        exact ⟨l.length, t, rfl, by simp [ht], hsus⟩
    rw [hdrop]
    simp only [abandonedYields, ht, List.map_append, List.map_cons, List.sum_append, List.sum_cons,
      hstep]
    by_cases hd : Task.DropsYield a t
    · simp only [hd, if_true]
      exact ⟨by omega, fun _ => trivial, fun _ => by omega⟩
    · simp only [hd, if_false]
      exact ⟨by omega, fun h => by omega, fun h => h.elim⟩

/-- A run abandons no yield exactly when it drops none. -/
theorem abandonedYields_run (h : (scheduler N opts).run (initial N) ms = some c) :
    abandonedYields c = 0 ↔ Careful N opts ms := by
  induction ms using List.reverseRecOn generalizing c with
  | nil =>
    obtain rfl : initial N = c := by simpa [Program.run] using h
    refine ⟨fun _ ms₁ m ms₂ c₁ he => ?_, fun _ => rfl⟩
    simp at he
  | append_singleton ms m ih =>
    rw [Program.run_append] at h
    obtain ⟨c₀, h₀, hlast⟩ := Option.bind_eq_some_iff.mp h
    have hm : (scheduler N opts).move c₀ m = some c := by simpa [Program.run] using hlast
    obtain ⟨hle, hlt⟩ := abandonedYields_move hm
    constructor
    · intro hzero ms₁ m₁ ms₂ c₁ he h₁ hd
      rcases List.eq_nil_or_concat ms₂ with rfl | ⟨ms₂, m₂, rfl⟩
      · obtain ⟨rfl, hm₁⟩ := List.append_inj' he rfl
        obtain rfl : m = m₁ := by simpa using hm₁
        obtain rfl : c₀ = c₁ := Option.some.inj (h₀.symm.trans h₁)
        have := hlt.mpr hd
        omega
      · have he' : ms ++ [m] = (ms₁ ++ m₁ :: ms₂) ++ [m₂] := by simpa using he
        obtain ⟨rfl, -⟩ := List.append_inj' he' rfl
        exact (ih h₀).mp (by omega) ms₁ m₁ ms₂ c₁ rfl h₁ hd
    · intro hcareful
      have hzero : abandonedYields c₀ = 0 := (ih h₀).mpr fun ms₁ m₁ ms₂ c₁ he h₁ =>
        hcareful ms₁ m₁ (ms₂ ++ [m]) c₁ (by simp [he]) h₁
      have hnot := hcareful ms m [] c₀ rfl h₀
      have := mt hlt.mp hnot
      omega

theorem AccountInv.accounted (h : AccountInv opts c) (hz : abandonedYields c = 0) : Accounted c := by
  have hab : ∀ t ∈ c.tasks, t.abandoned = 0 := by
    intro t ht
    have := Program.le_sum_of_mem (f := Task.abandoned) ht
    unfold abandonedYields at hz
    omega
  have htotal := h.total
  rw [hz, add_zero] at htotal
  refine ⟨h.terminal.symm, fun t ht hf ha => ?_, fun t ht => ?_, htotal⟩
  · have hb : t.Balanced := h.balanced t ht
    unfold Task.Balanced at hb
    have hwf := h.inv.wf t ht
    rw [hwf.slots_eq, hwf.slots_eq, hf, hab t ht, if_neg ha] at hb
    simpa [Pc.slots, Pc.permit, Task.readmission, hf] using hb
  · have hb : t.Balanced := h.balanced t ht
    unfold Task.Balanced at hb
    split at hb <;> omega

/-- For every run: its account is exact exactly when no step of it drops a pending
yield. -/
theorem accounted_iff_careful (h : (scheduler N opts).run (initial N) ms = some c) :
    Accounted c ↔ Careful N opts ms := by
  have hinv := AccountInv.run h
  rw [← abandonedYields_run h]
  constructor
  · intro hacc
    have htotal := hinv.total
    have := hacc.total
    rw [ModelSchedulerState.terminal] at htotal
    omega
  · exact hinv.accounted

theorem accounted_iff_careful_yieldToDecode : ∃ c : Config (Shared .counting) (Task ℕ),
    (scheduler .counting ⟨1, 2, none, 1⟩).run (initial .counting) yieldToDecode = some c ∧
      admittedRequests c = 2 ∧ (Accounted c ↔ Careful .counting ⟨1, 2, none, 1⟩ yieldToDecode) := by
  have hrun : ((scheduler .counting ⟨1, 2, none, 1⟩).run (initial .counting) yieldToDecode).map
      admittedRequests = some 2 := by
    decide +kernel
  obtain ⟨c, hc, he⟩ := Option.map_eq_some_iff.mp hrun
  exact ⟨c, hc, he, accounted_iff_careful hc⟩

/-- A prefill yields, queues behind a decode request, and its pending yield and then its
permit are dropped. -/
def droppedYield : List (Move Action (SchedulerClass × GenerationPhase)) :=
  .spawn (.prefill, .prefill) :: polls 0 3 ++ .spawn (.decode, .decode) :: polls 1 7 ++
    .act 0 (.permit .yieldPrefillChunk) :: polls 0 8 ++ .act 0 (.wake .dropped) :: polls 0 2 ++
    .act 0 (.permit .drop) :: polls 0 1

theorem not_accounted_droppedYield : ∃ c : Config (Shared .counting) (Task ℕ),
    (scheduler .counting ⟨1, 2, none, 1⟩).run (initial .counting) droppedYield = some c ∧
      (∃ t ∈ c.tasks, t.pc = .finished ∧ t.admissions = 1 ∧ t.recorded = 0) ∧ ¬ Accounted c := by
  have hrun : ((scheduler .counting ⟨1, 2, none, 1⟩).run (initial .counting) droppedYield).map
      (fun c => decide (∃ t ∈ c.tasks, t.pc = .finished ∧ t.admissions = 1 ∧ t.recorded = 0)) =
        some true := by
    decide +kernel
  obtain ⟨c, hc, hd⟩ := Option.map_eq_some_iff.mp hrun
  have hlost := of_decide_eq_true hd
  refine ⟨c, hc, hlost, fun hacc => ?_⟩
  obtain ⟨t, ht, hf, ha, hr⟩ := hlost
  have := hacc.ended t ht hf (by omega)
  omega

end KirAi.Server
