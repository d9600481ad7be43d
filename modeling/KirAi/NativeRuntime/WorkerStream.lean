/-
# The worker behind a native text stream

`generate_stream_with_cancel` of `driver.rs` starts a worker that sends its items through a
channel of one place, and `native_text_worker_stream` of `streaming.rs` is what the client polls:
it waits for the channel and the worker's end at once (`tokio::select!`), empties the channel when
the worker has ended well, and reports a worker that failed. Dropping the stream before its end
cancels the request. The channel and the worker's handle are any that keep the laws of
`Mpsc.Api` and `JoinHandle.Api`.

A state has the worker, the channel and the stream; an event is one step of one of them, and a
run is a list of events in any order. Whatever the order, a stream that comes to its end over a
worker that returned has given every item sent, once and in order; over a worker that panicked it
has given a beginning of them and one error (`worker_stream_delivers`). No reachable state is
stuck, and steps of the worker and the stream alone lead to the end (`worker_stream_ends`).

The invariant has three parts: the channel and the handle agree with the phases (`Wired`), what
was sent is the script as far as it goes (`Sends`), and what was yielded is what was sent, as far
as the stream's phase says (`Received`).

Key definitions: `WorkerStream`, `WorkerStreamEvent`, `step`, `run`, `sentItems`.
Key theorems: `Wired.step`, `Sends.step`, `Received.step`, `worker_stream_delivers`,
`worker_stream_ends`.
-/
import KirAi.NativeRuntime.GenerationAgree
import KirAi.Lib.Mpsc

namespace KirAi.NativeRuntime

open Lib KvCache KirAi.Runtime

/-- How a worker ends, as its join handle tells. -/
inductive WorkerResult where
  | returned
  | panicked
deriving DecidableEq, Repr

/-- A worker drops its sender before its handle is ready. -/
inductive WorkerPhase where
  | running
  | closing (result : WorkerResult)
  | joined (result : WorkerResult)
deriving DecidableEq, Repr

/-- What its handle tells. -/
def WorkerPhase.result : WorkerPhase → Option WorkerResult
  | .joined result => some result
  | _ => none

inductive StreamPhase where
  /-- Waiting for the channel and the worker. -/
  | select
  /-- The channel is closed: waiting for the worker. -/
  | await
  /-- The worker has returned: emptying the channel. -/
  | drain
  /-- The worker's failure was reported. -/
  | broken
  | ended
  | dropped
deriving DecidableEq, Repr

/-- The items are those of `ι`; `sent` records what went into the channel. -/
structure WorkerStream {ι : Type} (M : Mpsc.Api ι 1) (J : JoinHandle.Api WorkerResult) where
  script : List ι
  worker : WorkerPhase
  channel : M.State
  handle : J.State
  stream : StreamPhase
  cancelled : Bool
  stopped : Bool
  sent : List ι
  yielded : List ι

inductive WorkerStreamEvent where
  /-- The worker sends an item, waiting until there is room. -/
  | send
  /-- The worker sees that nobody receives, and sends no more. -/
  | giveUp
  /-- The worker sees the cancellation: what is left is its error. -/
  | stop
  | finish
  | panic
  /-- The worker's handle gets ready. -/
  | join
  /-- The stream gets an item. -/
  | recv
  /-- The stream sees that the channel is empty and closed. -/
  | closed
  /-- The stream sees the worker's end. -/
  | seeEnd
  /-- The poll after the failure. -/
  | pollEnd
  /-- The client drops the stream. -/
  | drop
  /-- Somebody else cancels the request. -/
  | cancel
deriving DecidableEq, Repr

namespace WorkerStream

variable {ι : Type} {M : Mpsc.Api ι 1} {J : JoinHandle.Api WorkerResult} (cancelledItem failedItem : ι)

variable (M J) in
def start (script : List ι) : WorkerStream M J :=
  ⟨script, .running, M.channel, J.spawned, .select, false, false, [], []⟩

/-- What was sent and not received. -/
def queue (s : WorkerStream M J) : List ι := (M.view s.channel).held

/-- Whether the receiver is alive. -/
def receives (s : WorkerStream M J) : Bool :=
  match s.stream with
  | .ended | .dropped => false
  | _ => true

/-- The worker's closure is over, and its senders with it. -/
def close (s : WorkerStream M J) (result : WorkerResult) : WorkerStream M J :=
  { s with worker := .closing result, channel := M.dropSender s.channel }

/-- The stream is over, and the receiver with it. -/
def leave (s : WorkerStream M J) : WorkerStream M J :=
  { s with stream := .ended, channel := M.dropReceiver s.channel }

/-- What the stream does with the worker's result: an error is its last item. -/
def report (s afterReturn : WorkerStream M J) : WorkerResult → WorkerStream M J
  | .returned => afterReturn
  | .panicked => { s with stream := .broken, yielded := s.yielded ++ [failedItem] }

def step (s : WorkerStream M J) : WorkerStreamEvent → Option (WorkerStream M J)
  | .send =>
    match s.worker, s.script with
    | .running, item :: script => (M.send s.channel item).map fun channel =>
      { s with script := script, channel := channel, sent := s.sent ++ [item] }
    | _, _ => none
  | .giveUp =>
    if s.worker = .running ∧ s.script.isEmpty = false ∧ M.isClosed s.channel then
      some { s with script := [] }
    else none
  | .stop =>
    if s.worker = .running ∧ s.cancelled ∧ s.stopped = false ∧ s.script.isEmpty = false then
      some { s with script := [cancelledItem], stopped := true }
    else none
  | .finish => if s.worker = .running ∧ s.script.isEmpty then some (s.close .returned) else none
  | .panic => if s.worker = .running then some (s.close .panicked) else none
  | .join =>
    match s.worker with
    | .closing result =>
      some { s with worker := .joined result, handle := J.finish result s.handle }
    | _ => none
  | .recv =>
    match M.recv s.channel with
    | some (some item, channel) =>
      if s.stream = .select ∨ s.stream = .drain then
        some { s with channel := channel, yielded := s.yielded ++ [item] }
      else none
    | _ => none
  | .closed =>
    match M.recv s.channel, s.stream with
    | some (none, channel), .select => some { s with channel := channel, stream := .await }
    | some (none, channel), .drain => some { s with channel := channel }.leave
    | _, _ => none
  | .seeEnd =>
    match J.poll s.handle, s.stream with
    | some result, .select => some (s.report failedItem { s with stream := .drain } result)
    | some result, .await => some (s.report failedItem s.leave result)
    | _, _ => none
  | .pollEnd => if s.stream = .broken then some s.leave else none
  | .drop =>
    if s.receives then
      some { s with stream := .dropped, channel := M.dropReceiver s.channel, cancelled := true }
    else none
  | .cancel => some { s with cancelled := true }

def run (s : WorkerStream M J) : List WorkerStreamEvent → Option (WorkerStream M J)
  | [] => some s
  | e :: es => (s.step cancelledItem failedItem e).bind fun s' => run s' es

/-! ### What a step does -/

/-- One step, with what it needs. -/
inductive Steps (s : WorkerStream M J) : WorkerStreamEvent → WorkerStream M J → Prop where
  | send {item : ι} {script : List ι} {channel : M.State} (hworker : s.worker = .running)
      (hscript : s.script = item :: script) (hsend : M.send s.channel item = some channel) :
      Steps s .send { s with script := script, channel := channel, sent := s.sent ++ [item] }
  | giveUp (hworker : s.worker = .running) (hscript : s.script ≠ [])
      (hclosed : M.isClosed s.channel = true) : Steps s .giveUp { s with script := [] }
  | stop (hworker : s.worker = .running) (hcancelled : s.cancelled = true)
      (hfirst : s.stopped = false) (hscript : s.script ≠ []) :
      Steps s .stop { s with script := [cancelledItem], stopped := true }
  | finish (hworker : s.worker = .running) (hscript : s.script = []) :
      Steps s .finish (s.close .returned)
  | panic (hworker : s.worker = .running) : Steps s .panic (s.close .panicked)
  | join {result : WorkerResult} (hworker : s.worker = .closing result) :
      Steps s .join { s with worker := .joined result, handle := J.finish result s.handle }
  | recv {item : ι} {channel : M.State} (hrecv : M.recv s.channel = some (some item, channel))
      (hstream : s.stream = .select ∨ s.stream = .drain) :
      Steps s .recv { s with channel := channel, yielded := s.yielded ++ [item] }
  | closedSelect {channel : M.State} (hrecv : M.recv s.channel = some (none, channel))
      (hstream : s.stream = .select) :
      Steps s .closed { s with channel := channel, stream := .await }
  | closedDrain {channel : M.State} (hrecv : M.recv s.channel = some (none, channel))
      (hstream : s.stream = .drain) : Steps s .closed { s with channel := channel }.leave
  | seeEndSelect {result : WorkerResult} (hpoll : J.poll s.handle = some result)
      (hstream : s.stream = .select) :
      Steps s .seeEnd (s.report failedItem { s with stream := .drain } result)
  | seeEndAwait {result : WorkerResult} (hpoll : J.poll s.handle = some result)
      (hstream : s.stream = .await) : Steps s .seeEnd (s.report failedItem s.leave result)
  | pollEnd (hstream : s.stream = .broken) : Steps s .pollEnd s.leave
  | drop (hreceives : s.receives = true) : Steps s .drop
      { s with stream := .dropped, channel := M.dropReceiver s.channel, cancelled := true }
  | cancel : Steps s .cancel { s with cancelled := true }

variable {cancelledItem failedItem} {s s' : WorkerStream M J} {e : WorkerStreamEvent}

theorem steps_of_step (h : s.step cancelledItem failedItem e = some s') :
    Steps cancelledItem failedItem s e s' := by
  cases e with
  | send =>
    simp only [step] at h
    split at h
    · next hworker hscript =>
      obtain ⟨channel, hsend, rfl⟩ := Option.map_eq_some_iff.1 h
      exact .send hworker hscript hsend
    · cases h
  | giveUp =>
    simp only [step] at h
    split at h
    · next hcond =>
      obtain rfl := Option.some.inj h
      exact .giveUp hcond.1 (by simpa using hcond.2.1) hcond.2.2
    · cases h
  | stop =>
    simp only [step] at h
    split at h
    · next hcond =>
      obtain rfl := Option.some.inj h
      exact .stop hcond.1 hcond.2.1 hcond.2.2.1 (by simpa using hcond.2.2.2)
    · cases h
  | finish =>
    simp only [step] at h
    split at h
    · next hcond =>
      obtain rfl := Option.some.inj h
      exact .finish hcond.1 (List.isEmpty_iff.1 hcond.2)
    · cases h
  | panic =>
    simp only [step] at h
    split at h
    · next hcond =>
      obtain rfl := Option.some.inj h
      exact .panic hcond
    · cases h
  | join =>
    simp only [step] at h
    split at h
    · next result hworker =>
      obtain rfl := Option.some.inj h
      exact .join hworker
    · cases h
  | recv =>
    simp only [step] at h
    split at h
    · next item channel hrecv =>
      split at h
      · next hcond =>
        obtain rfl := Option.some.inj h
        exact .recv hrecv hcond
      · cases h
    · cases h
  | closed =>
    simp only [step] at h
    split at h
    · next channel hrecv hstream =>
      obtain rfl := Option.some.inj h
      exact .closedSelect hrecv hstream
    · next channel hrecv hstream =>
      obtain rfl := Option.some.inj h
      exact .closedDrain hrecv hstream
    · cases h
  | seeEnd =>
    simp only [step] at h
    split at h
    · next result hpoll hstream =>
      obtain rfl := Option.some.inj h
      exact .seeEndSelect hpoll hstream
    · next result hpoll hstream =>
      obtain rfl := Option.some.inj h
      exact .seeEndAwait hpoll hstream
    · cases h
  | pollEnd =>
    simp only [step] at h
    split at h
    · next hcond =>
      obtain rfl := Option.some.inj h
      exact .pollEnd hcond
    · cases h
  | drop =>
    simp only [step] at h
    split at h
    · next hcond =>
      obtain rfl := Option.some.inj h
      exact .drop hcond
    · cases h
  | cancel =>
    obtain rfl := Option.some.inj h
    exact .cancel

/-! ### The channel and the handle -/

/-- The channel and the handle agree with the phases of the worker and the stream. -/
structure Wired (s : WorkerStream M J) : Prop where
  sending : (M.view s.channel).sending = decide (s.worker = .running)
  receiving : (M.view s.channel).receiving = s.receives
  handle : J.poll s.handle = s.worker.result

theorem wired_start (script : List ι) : Wired (start M J script) where
  sending := by rw [start, M.view_channel]; rfl
  receiving := by rw [start, M.view_channel]; rfl
  handle := J.poll_spawned

theorem Wired.isClosed_eq (h : Wired s) : M.isClosed s.channel = !s.receives := by
  rw [M.isClosed_eq, h.receiving]

theorem Wired.close (h : Wired s) (hworker : s.worker = .running) (result : WorkerResult) :
    Wired (s.close result) where
  sending := by rw [WorkerStream.close, M.view_dropSender]; rfl
  receiving := by
    rw [WorkerStream.close, M.view_dropSender]
    exact h.receiving
  handle := by
    have hhandle := h.handle
    rw [hworker] at hhandle
    exact hhandle

theorem Wired.leave (h : Wired s) : Wired s.leave where
  sending := by
    rw [WorkerStream.leave, M.view_dropReceiver]
    exact h.sending
  receiving := by rw [WorkerStream.leave, M.view_dropReceiver]; rfl
  handle := h.handle

/-- A stream that goes on receiving, over a channel with the same ends. -/
theorem Wired.set (h : Wired s) (hreceives : s.receives = true) {channel : M.State}
    {stream : StreamPhase} {yielded : List ι}
    (hsending : (M.view channel).sending = (M.view s.channel).sending)
    (hreceiving : (M.view channel).receiving = (M.view s.channel).receiving)
    (hstream : stream ≠ .ended ∧ stream ≠ .dropped) :
    Wired { s with channel := channel, stream := stream, yielded := yielded } where
  sending := hsending.trans h.sending
  receiving := by
    rw [hreceiving, h.receiving, hreceives]
    cases stream with
    | ended => exact absurd rfl hstream.1
    | dropped => exact absurd rfl hstream.2
    | select | await | drain | broken => rfl
  handle := h.handle

theorem Wired.report (h : Wired s) (hreceives : s.receives = true) {afterReturn : WorkerStream M J}
    (hafter : Wired afterReturn) (result : WorkerResult) :
    Wired (s.report failedItem afterReturn result) := by
  cases result with
  | returned => exact hafter
  | panicked => exact h.set hreceives rfl rfl ⟨by decide, by decide⟩

theorem receives_of_ne (hended : s.stream ≠ .ended) (hdropped : s.stream ≠ .dropped) :
    s.receives = true := by
  cases hstream : s.stream with
  | ended => exact absurd hstream hended
  | dropped => exact absurd hstream hdropped
  | select | await | drain | broken => rw [receives, hstream]

theorem receives_of_stream {phase : StreamPhase} (hstream : s.stream = phase)
    (hended : phase ≠ .ended) (hdropped : phase ≠ .dropped) : s.receives = true :=
  receives_of_ne (hstream ▸ hended) (hstream ▸ hdropped)

theorem Wired.step (h : Wired s) (hstep : Steps cancelledItem failedItem s e s') : Wired s' := by
  cases hstep with
  | send hworker hscript hsend =>
    obtain ⟨-, hview⟩ := M.view_send hsend
    exact ⟨by rw [hview]; exact h.sending, by rw [hview]; exact h.receiving, h.handle⟩
  | giveUp => exact ⟨h.sending, h.receiving, h.handle⟩
  | stop => exact ⟨h.sending, h.receiving, h.handle⟩
  | finish hworker => exact h.close hworker _
  | panic hworker => exact h.close hworker _
  | join hworker =>
    refine ⟨?_, h.receiving, J.poll_finish _ _⟩
    have hsending := h.sending
    rw [hworker] at hsending
    exact hsending
  | recv hrecv hstream =>
    obtain ⟨rest, -, hview⟩ := M.view_recv hrecv
    have hlive : s.stream ≠ .ended ∧ s.stream ≠ .dropped := by
      rcases hstream with hs | hs <;> rw [hs] <;> exact ⟨by decide, by decide⟩
    exact h.set (receives_of_ne hlive.1 hlive.2) (by rw [hview]) (by rw [hview]) hlive
  | closedSelect hrecv hstream =>
    obtain ⟨-, -, hview⟩ := M.view_end hrecv
    exact h.set (receives_of_stream hstream (by decide) (by decide)) (by rw [hview]) (by rw [hview])
      ⟨by decide, by decide⟩
  | closedDrain hrecv hstream =>
    obtain ⟨-, -, hview⟩ := M.view_end hrecv
    have hset : Wired { s with channel := _, stream := s.stream, yielded := s.yielded } :=
      h.set (receives_of_stream hstream (by decide) (by decide)) (by rw [hview]) (by rw [hview])
        (by rw [hstream]; exact ⟨by decide, by decide⟩)
    exact hset.leave
  | seeEndSelect hpoll hstream =>
    have hreceives := receives_of_stream hstream (by decide) (by decide)
    exact h.report hreceives (h.set hreceives rfl rfl ⟨by decide, by decide⟩) _
  | seeEndAwait hpoll hstream =>
    exact h.report (receives_of_stream hstream (by decide) (by decide)) h.leave _
  | pollEnd => exact h.leave
  | drop =>
    refine ⟨?_, ?_, h.handle⟩
    · rw [M.view_dropReceiver]
      exact h.sending
    · rw [M.view_dropReceiver]
      rfl
  | cancel => exact ⟨h.sending, h.receiving, h.handle⟩

/-! ### What is sent -/

/-- The worker sends the script, or what is left of it is the error of its cancellation. -/
structure Sends (cancelledItem : ι) (script : List ι) (s : WorkerStream M J) : Prop where
  whole : s.stopped = false → s.stream ≠ .dropped → s.sent ++ s.script = script
  sends : s.stopped = false → s.sent ++ s.script <+: script
  stops : s.stopped = true → s.cancelled = true ∧
    ∃ p, p <+: script ∧ s.sent ++ s.script <+: p ++ [cancelledItem]
  returned : s.worker = .closing .returned ∨ s.worker = .joined .returned → s.script = []

variable {script : List ι}

theorem not_returned_of_running (hworker : s.worker = .running) :
    ¬(s.worker = .closing .returned ∨ s.worker = .joined .returned) := by
  rw [hworker]
  decide

theorem sends_start (script : List ι) : Sends cancelledItem script (start M J script) where
  whole _ _ := rfl
  sends _ := List.prefix_refl _
  stops h := by cases h
  returned h := by rcases h with h | h <;> cases h

/-- What a step of the stream, or the end of the worker, keeps. -/
theorem Sends.set (h : Sends cancelledItem script s) {worker : WorkerPhase} {channel : M.State}
    {handle : J.State} {stream : StreamPhase} {cancelled : Bool} {yielded : List ι}
    (hdropped : s.stream = .dropped → stream = .dropped)
    (hcancelled : s.cancelled = true → cancelled = true)
    (hreturned : worker = .closing .returned ∨ worker = .joined .returned → s.script = []) :
    Sends cancelledItem script ⟨s.script, worker, channel, handle, stream, cancelled, s.stopped,
      s.sent, yielded⟩ where
  whole hs hd := h.whole hs fun hdrop => hd (hdropped hdrop)
  sends := h.sends
  stops hs := ⟨hcancelled (h.stops hs).1, (h.stops hs).2⟩
  returned := hreturned

theorem Sends.report (h : Sends cancelledItem script s) {afterReturn : WorkerStream M J}
    (hstream : s.stream ≠ .dropped) (hafter : Sends cancelledItem script afterReturn)
    (result : WorkerResult) : Sends cancelledItem script (s.report failedItem afterReturn result) := by
  cases result with
  | returned => exact hafter
  | panicked => exact h.set (fun hd => absurd hd hstream) id h.returned

theorem Sends.step (h : Sends cancelledItem script s) (hw : Wired s)
    (hgone : s.worker = .running → s.stream ≠ .ended)
    (hstep : Steps cancelledItem failedItem s e s') : Sends cancelledItem script s' := by
  cases hstep with
  | @send item rest channel hworker hscript =>
    have hall : s.sent ++ [item] ++ rest = s.sent ++ s.script := by
      rw [hscript, List.append_assoc, List.singleton_append]
    refine ⟨fun hs hd => hall.trans (h.whole hs hd), fun hs => hall ▸ h.sends hs, fun hs => ?_,
      fun hr => absurd hr (not_returned_of_running hworker)⟩
    obtain ⟨hcancelled, p, hp, hle⟩ := h.stops hs
    exact ⟨hcancelled, p, hp, hall ▸ hle⟩
  | giveUp hworker hscript hclosed =>
    have hdropped : s.stream = .dropped := by
      by_contra hne
      rw [hw.isClosed_eq, receives_of_ne (hgone hworker) hne] at hclosed
      cases hclosed
    have hle : s.sent ++ [] <+: s.sent ++ s.script := by
      rw [List.append_nil]
      exact List.prefix_append _ _
    refine ⟨fun _ hd => absurd hdropped hd, fun hs => hle.trans (h.sends hs), fun hs => ?_,
      fun _ => rfl⟩
    obtain ⟨hcancelled, p, hp, hsent⟩ := h.stops hs
    exact ⟨hcancelled, p, hp, hle.trans hsent⟩
  | stop hworker hcancelled hfirst =>
    exact {
      whole := fun hs => by cases hs
      sends := fun hs => by cases hs
      stops := fun _ => ⟨hcancelled, s.sent, (List.prefix_append _ _).trans (h.sends hfirst),
        List.prefix_refl _⟩
      returned := fun hr => absurd hr (not_returned_of_running hworker) }
  | finish _ hscript => exact h.set id id fun _ => hscript
  | panic =>
    exact h.set id id fun hr => by rcases hr with hr | hr <;> cases hr
  | @join result hworker =>
    refine h.set id id fun hr => ?_
    cases result with
    | returned => exact h.returned (.inl hworker)
    | panicked => rcases hr with hr | hr <;> cases hr
  | recv => exact h.set id id h.returned
  | closedSelect _ hstream => exact h.set (fun hd => by rw [hd] at hstream; cases hstream) id h.returned
  | closedDrain _ hstream => exact h.set (fun hd => by rw [hd] at hstream; cases hstream) id h.returned
  | seeEndSelect _ hstream =>
    have hlive : s.stream ≠ .dropped := by rw [hstream]; decide
    exact h.report hlive (h.set (fun hd => absurd hd hlive) id h.returned) _
  | seeEndAwait _ hstream =>
    have hlive : s.stream ≠ .dropped := by rw [hstream]; decide
    exact h.report hlive (h.set (fun hd => absurd hd hlive) id h.returned) _
  | pollEnd hstream => exact h.set (fun hd => by rw [hd] at hstream; cases hstream) id h.returned
  | drop => exact h.set (fun _ => rfl) (fun _ => rfl) h.returned
  | cancel => exact h.set id (fun _ => rfl) h.returned

/-! ### What is yielded -/

/-- A worker's panic is told by one error, after a beginning of what was sent. -/
def Failed (failedItem : ι) (s : WorkerStream M J) : Prop :=
  ∃ p, p <+: s.sent ∧ s.yielded = p ++ [failedItem]

/-- As long as the stream receives, every item sent is yielded or in the channel. -/
def Received (failedItem : ι) (s : WorkerStream M J) : Prop :=
  match s.stream with
  | .select => s.sent = s.yielded ++ s.queue
  | .await => s.yielded = s.sent ∧ s.worker ≠ .running
  | .drain => s.worker = .joined .returned ∧ s.sent = s.yielded ++ s.queue
  | .broken => s.worker = .joined .panicked ∧ Failed failedItem s
  | .ended => s.worker = .joined .returned ∧ s.yielded = s.sent ∨
      s.worker = .joined .panicked ∧ Failed failedItem s
  | .dropped => s.cancelled = true ∧ (s.yielded <+: s.sent ∨ Failed failedItem s)

theorem received_start (script : List ι) : Received failedItem (start M J script) := by
  show [] = [] ++ (M.view M.channel).held
  rw [M.view_channel]
  rfl

theorem Received.of_select (h : Received failedItem s) (hstream : s.stream = .select) :
    s.sent = s.yielded ++ s.queue := by
  unfold Received at h
  rwa [hstream] at h

theorem Received.of_await (h : Received failedItem s) (hstream : s.stream = .await) :
    s.yielded = s.sent ∧ s.worker ≠ .running := by
  unfold Received at h
  rwa [hstream] at h

theorem Received.of_drain (h : Received failedItem s) (hstream : s.stream = .drain) :
    s.worker = .joined .returned ∧ s.sent = s.yielded ++ s.queue := by
  unfold Received at h
  rwa [hstream] at h

theorem Received.of_broken (h : Received failedItem s) (hstream : s.stream = .broken) :
    s.worker = .joined .panicked ∧ Failed failedItem s := by
  unfold Received at h
  rwa [hstream] at h

theorem Received.of_ended (h : Received failedItem s) (hstream : s.stream = .ended) :
    s.worker = .joined .returned ∧ s.yielded = s.sent ∨
      s.worker = .joined .panicked ∧ Failed failedItem s := by
  unfold Received at h
  rwa [hstream] at h

theorem Received.of_dropped (h : Received failedItem s) (hstream : s.stream = .dropped) :
    s.cancelled = true ∧ (s.yielded <+: s.sent ∨ Failed failedItem s) := by
  unfold Received at h
  rwa [hstream] at h

theorem Received.yielded_cases (h : Received failedItem s) :
    s.yielded <+: s.sent ∨ Failed failedItem s := by
  cases hstream : s.stream with
  | select => exact .inl ⟨s.queue, (h.of_select hstream).symm⟩
  | await => exact .inl ((h.of_await hstream).1 ▸ List.prefix_refl _)
  | drain => exact .inl ⟨s.queue, (h.of_drain hstream).2.symm⟩
  | broken => exact .inr (h.of_broken hstream).2
  | ended =>
    rcases h.of_ended hstream with ⟨-, hall⟩ | ⟨-, hfailed⟩
    · exact .inl (hall ▸ List.prefix_refl _)
    · exact .inr hfailed
  | dropped => exact (h.of_dropped hstream).2

/-- While the worker has not been joined, the stream waits for it or is dropped. -/
theorem Received.unjoined (h : Received failedItem s) (hbefore : ∀ r, s.worker ≠ .joined r) :
    s.stream = .select ∨ s.stream = .await ∨ s.stream = .dropped := by
  cases hstream : s.stream with
  | select => exact .inl rfl
  | await => exact .inr (.inl rfl)
  | dropped => exact .inr (.inr rfl)
  | drain => exact absurd (h.of_drain hstream).1 (hbefore _)
  | broken => exact absurd (h.of_broken hstream).1 (hbefore _)
  | ended => exact ((h.of_ended hstream).elim (fun h => hbefore _ h.1) fun h => hbefore _ h.1).elim

theorem not_joined_of_running (hworker : s.worker = .running) : ∀ r, s.worker ≠ .joined r := by
  intro r hr
  rw [hworker] at hr
  cases hr

/-- A worker that has not been joined may go on to its end. -/
theorem Received.set_worker (h : Received failedItem s) {worker : WorkerPhase} {channel : M.State}
    {handle : J.State} (hbefore : ∀ r, s.worker ≠ .joined r) (hends : worker ≠ .running)
    (hheld : (M.view channel).held = (M.view s.channel).held) :
    Received failedItem { s with worker := worker, channel := channel, handle := handle } := by
  unfold Received queue
  dsimp only
  rcases h.unjoined hbefore with hstream | hstream | hstream
  · rw [hstream, hheld]
    exact h.of_select hstream
  · rw [hstream]
    exact ⟨(h.of_await hstream).1, hends⟩
  · rw [hstream]
    exact h.of_dropped hstream

theorem Wired.joined (h : Wired s) {result : WorkerResult} (hpoll : J.poll s.handle = some result) :
    s.worker = .joined result := by
  rw [h.handle] at hpoll
  cases hworker : s.worker with
  | running =>
    rw [hworker] at hpoll
    cases hpoll
  | closing r =>
    rw [hworker] at hpoll
    cases hpoll
  | joined r =>
    rw [hworker] at hpoll
    rw [Option.some.inj hpoll]

theorem Received.send (h : Received failedItem s) (hw : Wired s) {item : ι} {rest : List ι}
    {channel : M.State} (hworker : s.worker = .running)
    (hsend : M.send s.channel item = some channel) :
    Received failedItem
      { s with script := rest, channel := channel, sent := s.sent ++ [item] } := by
  obtain ⟨hreceiving, hview⟩ := M.view_send hsend
  unfold Received queue
  dsimp only
  rcases h.unjoined (not_joined_of_running hworker) with hstream | hstream | hstream
  · rw [hstream, hview, h.of_select hstream, List.append_assoc]
    rfl
  · exact absurd hworker (h.of_await hstream).2
  · rw [hw.receiving, receives, hstream] at hreceiving
    cases hreceiving

theorem Received.recv (h : Received failedItem s) {item : ι} {channel : M.State}
    (hrecv : M.recv s.channel = some (some item, channel))
    (hstream : s.stream = .select ∨ s.stream = .drain) :
    Received failedItem { s with channel := channel, yielded := s.yielded ++ [item] } := by
  obtain ⟨rest, hheld, hview⟩ := M.view_recv hrecv
  have hflow : ∀ {yielded : List ι}, s.sent = yielded ++ s.queue →
      s.sent = yielded ++ [item] ++ rest := by
    intro yielded hsent
    rw [hsent, queue, hheld, List.append_assoc, List.singleton_append]
  unfold Received queue
  dsimp only
  rcases hstream with hstream | hstream
  · rw [hstream, hview]
    exact hflow (h.of_select hstream)
  · rw [hstream, hview]
    exact ⟨(h.of_drain hstream).1, hflow (h.of_drain hstream).2⟩

/-- The worker's result, seen by a stream that has yielded a beginning of what was sent. -/
theorem Received.report {result : WorkerResult} {afterReturn : WorkerStream M J}
    (hworker : s.worker = .joined result) (hle : s.yielded <+: s.sent)
    (hafter : s.worker = .joined .returned → Received failedItem afterReturn) :
    Received failedItem (s.report failedItem afterReturn result) := by
  cases result with
  | returned => exact hafter hworker
  | panicked => exact ⟨hworker, s.yielded, hle, rfl⟩

theorem Received.step (h : Received failedItem s) (hw : Wired s)
    (hstep : Steps cancelledItem failedItem s e s') : Received failedItem s' := by
  cases hstep with
  | send hworker _ hsend => exact h.send hw hworker hsend
  | giveUp => exact h
  | stop => exact h
  | finish hworker =>
    exact h.set_worker (not_joined_of_running hworker) (by decide) (by rw [M.view_dropSender])
  | panic hworker =>
    exact h.set_worker (not_joined_of_running hworker) (by decide) (by rw [M.view_dropSender])
  | join hworker =>
    refine h.set_worker (fun r hr => ?_) (fun hr => by cases hr) rfl
    rw [hworker] at hr
    cases hr
  | recv hrecv hstream => exact h.recv hrecv hstream
  | closedSelect hrecv hstream =>
    obtain ⟨hheld, hsending, -⟩ := M.view_end hrecv
    have hsent := h.of_select hstream
    rw [queue, hheld, List.append_nil] at hsent
    rw [hw.sending] at hsending
    exact ⟨hsent.symm, of_decide_eq_false hsending⟩
  | closedDrain hrecv hstream =>
    obtain ⟨hheld, -, -⟩ := M.view_end hrecv
    obtain ⟨hworker, hsent⟩ := h.of_drain hstream
    rw [queue, hheld, List.append_nil] at hsent
    exact .inl ⟨hworker, hsent.symm⟩
  | seeEndSelect hpoll hstream =>
    have hsent := h.of_select hstream
    exact .report (hw.joined hpoll) ⟨s.queue, hsent.symm⟩ fun hworker => ⟨hworker, hsent⟩
  | seeEndAwait hpoll hstream =>
    have hall := (h.of_await hstream).1
    exact .report (hw.joined hpoll) (hall ▸ List.prefix_refl _) fun hworker => .inl ⟨hworker, hall⟩
  | pollEnd hstream => exact .inr (h.of_broken hstream)
  | drop => exact ⟨rfl, h.yielded_cases⟩
  | cancel =>
    unfold Received at h ⊢
    dsimp only
    cases hstream : s.stream <;> rw [hstream] at h
    case dropped => exact ⟨rfl, h.2⟩
    all_goals exact h

/-! ### Runs -/

structure Inv (cancelledItem failedItem : ι) (script : List ι) (s : WorkerStream M J) : Prop where
  wired : Wired s
  sends : Sends cancelledItem script s
  received : Received failedItem s

theorem Inv.step (h : Inv cancelledItem failedItem script s)
    (hstep : Steps cancelledItem failedItem s e s') : Inv cancelledItem failedItem script s' := by
  refine ⟨h.wired.step hstep, h.sends.step h.wired (fun hworker hended => ?_) hstep,
    h.received.step h.wired hstep⟩
  rcases h.received.unjoined (not_joined_of_running hworker) with hs | hs | hs <;>
    rw [hended] at hs <;> cases hs

theorem inv_run : ∀ {events : List WorkerStreamEvent} {s s' : WorkerStream M J},
    Inv cancelledItem failedItem script s → s.run cancelledItem failedItem events = some s' →
    Inv cancelledItem failedItem script s'
  | [], s, s', h, hrun => by
    obtain rfl := Option.some.inj hrun
    exact h
  | e :: events, s, s', h, hrun => by
    obtain ⟨s₁, hstep, hrest⟩ := Option.bind_eq_some_iff.1 hrun
    exact inv_run (h.step (steps_of_step hstep)) hrest

theorem inv_of_run (script : List ι) {events : List WorkerStreamEvent}
    (hrun : (start M J script).run cancelledItem failedItem events = some s) :
    Inv cancelledItem failedItem script s :=
  inv_run ⟨wired_start script, sends_start script, received_start script⟩ hrun

/-- Who has cancelled: somebody else, or the client by dropping the stream. -/
theorem Steps.cancelled (hstep : Steps cancelledItem failedItem s e s') :
    (s'.cancelled = true → s.cancelled = true ∨ e = .cancel ∨ s'.stream = .dropped) ∧
      (s.stream = .dropped → s'.stream = .dropped) := by
  cases hstep with
  | closedSelect _ hstream =>
    exact ⟨.inl, fun hd => by rw [hd] at hstream; cases hstream⟩
  | closedDrain _ hstream =>
    exact ⟨.inl, fun hd => by rw [hd] at hstream; cases hstream⟩
  | @seeEndSelect result _ hstream =>
    refine ⟨fun hc => .inl ?_, fun hd => by rw [hd] at hstream; cases hstream⟩
    cases result <;> exact hc
  | @seeEndAwait result _ hstream =>
    refine ⟨fun hc => .inl ?_, fun hd => by rw [hd] at hstream; cases hstream⟩
    cases result <;> exact hc
  | pollEnd hstream => exact ⟨.inl, fun hd => by rw [hd] at hstream; cases hstream⟩
  | drop => exact ⟨fun _ => .inr (.inr rfl), fun _ => rfl⟩
  | cancel => exact ⟨fun _ => .inr (.inl rfl), id⟩
  | send => exact ⟨.inl, id⟩
  | giveUp => exact ⟨.inl, id⟩
  | stop => exact ⟨.inl, id⟩
  | finish => exact ⟨.inl, id⟩
  | panic => exact ⟨.inl, id⟩
  | join => exact ⟨.inl, id⟩
  | recv => exact ⟨.inl, id⟩

theorem dropped_run : ∀ {events : List WorkerStreamEvent} {s s' : WorkerStream M J},
    s.run cancelledItem failedItem events = some s' → s.stream = .dropped → s'.stream = .dropped
  | [], s, s', hrun, h => by
    obtain rfl := Option.some.inj hrun
    exact h
  | e :: events, s, s', hrun, h => by
    obtain ⟨s₁, hstep, hrest⟩ := Option.bind_eq_some_iff.1 hrun
    exact dropped_run hrest ((steps_of_step hstep).cancelled.2 h)

theorem cancelled_run : ∀ {events : List WorkerStreamEvent} {s s' : WorkerStream M J},
    s.run cancelledItem failedItem events = some s' → s'.cancelled = true →
    s'.stream ≠ .dropped → s.cancelled = true ∨ .cancel ∈ events
  | [], s, s', hrun, hc, _ => by
    obtain rfl := Option.some.inj hrun
    exact .inl hc
  | e :: events, s, s', hrun, hc, hd => by
    obtain ⟨s₁, hstep, hrest⟩ := Option.bind_eq_some_iff.1 hrun
    rcases cancelled_run hrest hc hd with hfirst | hlater
    · rcases (steps_of_step hstep).cancelled.1 hfirst with h | rfl | h
      · exact .inl h
      · exact .inr List.mem_cons_self
      · exact absurd (dropped_run hrest h) hd
    · exact .inr (List.mem_cons_of_mem _ hlater)

/-- In any order of steps. What is sent is the script, or a beginning of it and the error of a
cancellation; what is yielded is a beginning of that, with one error behind it if the worker
panicked. A stream that has ended over a worker that returned has yielded all, which is the script
unless somebody else cancelled. A stream dropped before its end cancels. -/
theorem worker_stream_delivers (script : List ι) {events : List WorkerStreamEvent}
    (hrun : (start M J script).run cancelledItem failedItem events = some s) :
    (∃ p, p <+: script ∧ s.sent <+: p ++ [cancelledItem]) ∧
      (s.yielded <+: s.sent ∨ Failed failedItem s) ∧
      (s.stream = .ended →
        s.worker = .joined .returned ∧ s.yielded = s.sent ∧ (.cancel ∉ events → s.yielded = script) ∨
        s.worker = .joined .panicked ∧ Failed failedItem s) ∧
      (s.stream = .dropped → s.cancelled = true) := by
  obtain ⟨-, h, hreceived⟩ := inv_of_run script hrun
  refine ⟨?_, hreceived.yielded_cases, fun hended => ?_,
    fun hdropped => (hreceived.of_dropped hdropped).1⟩
  · cases hstopped : s.stopped with
    | false =>
      exact ⟨script, List.prefix_refl _, ((List.prefix_append _ _).trans (h.sends hstopped)).trans
        (List.prefix_append _ _)⟩
    | true =>
      obtain ⟨-, p, hp, hle⟩ := h.stops hstopped
      exact ⟨p, hp, (List.prefix_append _ _).trans hle⟩
  · rcases hreceived.of_ended hended with ⟨hworker, hall⟩ | hfailed
    · refine .inl ⟨hworker, hall, fun hnever => ?_⟩
      have hlive : s.stream ≠ .dropped := by
        rw [hended]
        decide
      have hstopped : s.stopped = false := by
        refine Bool.eq_false_iff.2 fun hs => ?_
        rcases cancelled_run hrun (h.stops hs).1 hlive with hstart | hcancel
        · cases hstart
        · exact hnever hcancel
      have hwhole := h.whole hstopped hlive
      rw [h.returned (.inr hworker), List.append_nil] at hwhole
      rw [hall, hwhole]
    · exact .inr hfailed

/-! ### Going on -/

end WorkerStream

/-- The steps of the worker and the stream that nothing outside brings about. -/
def WorkerStreamEvent.byItself : WorkerStreamEvent → Bool
  | .send | .giveUp | .finish | .join | .recv | .closed | .seeEnd | .pollEnd => true
  | .stop | .panic | .drop | .cancel => false

def WorkerPhase.remaining : WorkerPhase → ℕ
  | .running => 2
  | .closing _ => 1
  | .joined _ => 0

def StreamPhase.remaining : StreamPhase → ℕ
  | .select => 3
  | .await | .drain => 2
  | .broken => 1
  | .ended | .dropped => 0

namespace WorkerStream

variable {ι : Type} {M : Mpsc.Api ι 1} {J : JoinHandle.Api WorkerResult}
  {cancelledItem failedItem : ι} {s s' : WorkerStream M J} {e : WorkerStreamEvent} {script : List ι}

/-- More steps than this the worker and the stream cannot take by themselves. -/
def remaining (s : WorkerStream M J) : ℕ :=
  2 * s.script.length + s.queue.length + s.worker.remaining + s.stream.remaining

theorem queue_leave : s.leave.queue = [] := by
  rw [queue, leave, M.view_dropReceiver]

theorem Steps.remaining_lt (hstep : Steps cancelledItem failedItem s e s')
    (hitself : e.byItself = true) : s'.remaining < s.remaining := by
  unfold remaining
  cases hstep with
  | send _ hscript hsend =>
    simp only [queue, (M.view_send hsend).2, hscript, List.length_append, List.length_cons,
      List.length_nil]
    omega
  | giveUp _ hscript =>
    have := List.length_pos_iff.2 hscript
    simp only [queue, List.length_nil]
    omega
  | finish hworker =>
    simp only [queue, close, M.view_dropSender, hworker, WorkerPhase.remaining]
    omega
  | join hworker =>
    simp only [queue, hworker, WorkerPhase.remaining]
    omega
  | recv hrecv =>
    obtain ⟨rest, hheld, hview⟩ := M.view_recv hrecv
    simp only [queue, hheld, hview, List.length_cons]
    omega
  | closedSelect hrecv hstream =>
    simp only [queue, (M.view_end hrecv).2.2, hstream, StreamPhase.remaining]
    omega
  | closedDrain _ hstream =>
    rw [queue_leave]
    simp only [leave, hstream, StreamPhase.remaining, List.length_nil]
    omega
  | @seeEndSelect result _ hstream =>
    cases result <;> simp only [report, queue, hstream, StreamPhase.remaining] <;> omega
  | @seeEndAwait result _ hstream =>
    cases result with
    | returned =>
      simp only [report, queue_leave]
      simp only [leave, hstream, StreamPhase.remaining, List.length_nil]
      omega
    | panicked =>
      simp only [report, queue, hstream, StreamPhase.remaining]
      omega
  | pollEnd hstream =>
    rw [queue_leave]
    simp only [leave, hstream, StreamPhase.remaining, List.length_nil]
    omega
  | stop => cases hitself
  | panic => cases hitself
  | drop => cases hitself
  | cancel => cases hitself

/-- Nothing can go on by itself. -/
def AtRest (cancelledItem failedItem : ι) (s : WorkerStream M J) : Prop :=
  ∀ e : WorkerStreamEvent, e.byItself = true → s.step cancelledItem failedItem e = none

/-- At rest a receiver that waits for items has none, and the worker can send. -/
theorem Inv.no_item (h : Inv cancelledItem failedItem script s)
    (hrest : AtRest cancelledItem failedItem s) (hstream : s.stream = .select ∨ s.stream = .drain) :
    s.queue = [] ∧ s.worker = .running := by
  have hreceiving : (M.view s.channel).receiving = true := by
    rw [h.wired.receiving]
    rcases hstream with hs | hs <;> rw [receives, hs]
  cases hrecv : M.recv s.channel with
  | none =>
    obtain ⟨hheld, hsending⟩ := M.view_wait hrecv hreceiving
    rw [h.wired.sending] at hsending
    exact ⟨hheld, of_decide_eq_true hsending⟩
  | some r =>
    obtain ⟨item, channel⟩ := r
    cases item with
    | some item =>
      have hnone := hrest .recv rfl
      simp only [WorkerStream.step, hrecv, if_pos hstream] at hnone
      cases hnone
    | none =>
      have hnone := hrest .closed rfl
      rcases hstream with hs | hs <;> simp only [WorkerStream.step, hrecv, hs] at hnone <;>
        cases hnone

/-- At rest the worker is joined: it is not kept from sending. -/
theorem Inv.joined (h : Inv cancelledItem failedItem script s)
    (hrest : AtRest cancelledItem failedItem s) : ∃ result, s.worker = .joined result := by
  cases hworker : s.worker with
  | joined result => exact ⟨result, rfl⟩
  | closing result =>
    have hnone := hrest .join rfl
    simp only [WorkerStream.step, hworker] at hnone
    cases hnone
  | running =>
    exfalso
    cases hscript : s.script with
    | nil =>
      have hnone := hrest .finish rfl
      simp [WorkerStream.step, hworker, hscript] at hnone
    | cons item script' =>
      have hgone := hrest .giveUp rfl
      have hclosed : M.isClosed s.channel = false := by
        simpa [WorkerStream.step, hworker, hscript] using hgone
      rw [h.wired.isClosed_eq] at hclosed
      have hreceives : s.receives = true := by simpa using hclosed
      have hstream : s.stream = .select := by
        rcases h.received.unjoined (not_joined_of_running hworker) with hs | hs | hs
        · exact hs
        · exact absurd hworker (h.received.of_await hs).2
        · rw [receives, hs] at hreceives
          cases hreceives
      -- the channel is empty, as the stream takes from it
      have hempty := (h.no_item hrest (.inl hstream)).1
      have hwaits : M.send s.channel item = none := by
        simpa [WorkerStream.step, hworker, hscript] using hrest .send rfl
      have hfull := M.full_of_send hwaits (h.wired.receiving.trans hreceives)
      have hzero : (M.view s.channel).held.length = 0 := congrArg List.length hempty
      omega

/-- Where nothing can go on by itself, the stream is at its end, or dropped, and the worker is
joined. -/
theorem Inv.at_rest (h : Inv cancelledItem failedItem script s)
    (hrest : AtRest cancelledItem failedItem s) :
    (s.stream = .ended ∨ s.stream = .dropped) ∧ ∃ result, s.worker = .joined result := by
  obtain ⟨result, hworker⟩ := h.joined hrest
  have hpoll : J.poll s.handle = some result := by
    rw [h.wired.handle, hworker]
    rfl
  refine ⟨?_, result, hworker⟩
  cases hstream : s.stream with
  | ended => exact .inl rfl
  | dropped => exact .inr rfl
  | select =>
    have hnone := hrest .seeEnd rfl
    simp only [WorkerStream.step, hpoll, hstream] at hnone
    cases hnone
  | await =>
    have hnone := hrest .seeEnd rfl
    simp only [WorkerStream.step, hpoll, hstream] at hnone
    cases hnone
  | broken =>
    have hnone := hrest .pollEnd rfl
    simp only [WorkerStream.step, if_pos hstream] at hnone
    cases hnone
  | drain =>
    have hrunning := (h.no_item hrest (.inr hstream)).2
    rw [hworker] at hrunning
    cases hrunning

theorem remaining_run : ∀ {events : List WorkerStreamEvent} {s s' : WorkerStream M J},
    (∀ e ∈ events, e.byItself = true) → s.run cancelledItem failedItem events = some s' →
    events.length + s'.remaining ≤ s.remaining
  | [], s, s', _, hrun => by
    obtain rfl := Option.some.inj hrun
    exact (Nat.zero_add _).le
  | e :: events, s, s', hitself, hrun => by
    obtain ⟨s₁, hstep, hrest⟩ := Option.bind_eq_some_iff.1 hrun
    have hlt := (steps_of_step hstep).remaining_lt (hitself e List.mem_cons_self)
    have hle := remaining_run (fun e he => hitself e (List.mem_cons_of_mem _ he)) hrest
    rw [List.length_cons]
    omega

/-- From every state that can be reached, the worker and the stream go on by themselves for a
bounded number of steps, and stop only when the stream is at its end, or dropped, and the worker
is joined. So none of them waits for the other for ever. -/
theorem worker_stream_ends (script : List ι) {events : List WorkerStreamEvent}
    (hrun : (start M J script).run cancelledItem failedItem events = some s)
    {more : List WorkerStreamEvent} (hitself : ∀ e ∈ more, e.byItself = true)
    (hmore : s.run cancelledItem failedItem more = some s') :
    more.length ≤ s.remaining ∧
      ((∀ e : WorkerStreamEvent, e.byItself = true → s'.step cancelledItem failedItem e = none) →
        (s'.stream = .ended ∨ s'.stream = .dropped) ∧ ∃ result, s'.worker = .joined result) := by
  have hle := remaining_run hitself hmore
  exact ⟨by omega, (inv_run (inv_of_run script hrun) hmore).at_rest⟩

end WorkerStream

/-! ### The items of a generation -/

/-- What the worker of a stream sends: the chunks of its run, and the error it ends with. -/
def sentItems (run : StreamRun) : List (Except BackendError BackendStreamChunk) :=
  run.chunks.map .ok ++
    match run.outcome with
    | .ok () => []
    | .error e => [.error e]

/-- `generate_stream_with_cancel` -/
def generateStreamWithCancel (M : Mpsc.Api (Except BackendError BackendStreamChunk) 1)
    (J : JoinHandle.Api WorkerResult) {P C S D : Type} (driver : NativeTextDriver P C S D)
    (stops : GenerationStops) (request : BackendRequest P) (draws : ℕ → F32) : WorkerStream M J :=
  .start M J (sentItems (generateStreamAsync driver stops request draws))

/-- What the client is told of a worker that failed. -/
def workerFailed (label err : String) : Except BackendError BackendStreamChunk :=
  .error (.other (label ++ " streaming worker failed: " ++ err))

/-- The stream of three chunks. -/
def countingStream : WorkerStream (Mpsc.Api.queue (Except BackendError BackendStreamChunk) 1)
    (JoinHandle.Api.answer WorkerResult) :=
  generateStreamWithCancel _ _ countingDriver (quiet fun _ => none) countingRequest fun _ => F32.zero

/-- The worker ends before its last chunk is received. -/
def countingSent : List WorkerStreamEvent := [.send, .recv, .send, .recv, .send, .finish, .join]

def countingReceived : List WorkerStreamEvent := [.seeEnd, .recv, .closed]

def countingLate : WorkerStream (Mpsc.Api.queue (Except BackendError BackendStreamChunk) 1)
    (JoinHandle.Api.answer WorkerResult) :=
  { countingStream with
    script := []
    worker := .joined .returned
    channel := ⟨countingStream.script.drop 2, false, true⟩
    handle := some .returned
    sent := countingStream.script
    yielded := countingStream.script.take 2 }

def countingEnd : WorkerStream (Mpsc.Api.queue (Except BackendError BackendStreamChunk) 1)
    (JoinHandle.Api.answer WorkerResult) :=
  { countingLate with
    channel := ⟨[], false, false⟩
    stream := .ended
    yielded := countingStream.script }

theorem counting_stream_delivered :
    (∃ p, p <+: countingStream.script ∧ countingEnd.sent <+: p ++ [.error .cancelled]) ∧
      (countingEnd.yielded <+: countingEnd.sent ∨
        WorkerStream.Failed (workerFailed "counting" "panic") countingEnd) ∧
      (countingEnd.stream = .ended →
        countingEnd.worker = .joined .returned ∧ countingEnd.yielded = countingEnd.sent ∧
            (.cancel ∉ countingSent ++ countingReceived →
              countingEnd.yielded = countingStream.script) ∨
          countingEnd.worker = .joined .panicked ∧
            WorkerStream.Failed (workerFailed "counting" "panic") countingEnd) ∧
      (countingEnd.stream = .dropped → countingEnd.cancelled = true) :=
  WorkerStream.worker_stream_delivers countingStream.script
    (show (WorkerStream.start _ _ countingStream.script).run (.error .cancelled)
      (workerFailed "counting" "panic") (countingSent ++ countingReceived) = some countingEnd
      from rfl)

theorem counting_stream_ends :
    countingReceived.length ≤ countingLate.remaining ∧
      ((∀ e : WorkerStreamEvent, e.byItself = true →
          countingEnd.step (.error .cancelled) (workerFailed "counting" "panic") e = none) →
        (countingEnd.stream = .ended ∨ countingEnd.stream = .dropped) ∧
          ∃ result, countingEnd.worker = .joined result) :=
  WorkerStream.worker_stream_ends countingStream.script
    (show (WorkerStream.start _ _ countingStream.script).run (.error .cancelled)
      (workerFailed "counting" "panic") countingSent = some countingLate from rfl)
    (by decide)
    (show countingLate.run (.error .cancelled) (workerFailed "counting" "panic")
      countingReceived = some countingEnd from rfl)

end KirAi.NativeRuntime
