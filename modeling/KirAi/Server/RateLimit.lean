/-
# The rate limiter of public inference requests

`engine/rate_limit.rs`: each client has a log of the times at which its requests were accepted, of
which those older than the window are dropped in front; a request is accepted while fewer than
`max_requests` are left. Logs of idle clients are removed now and then. A call is one lock, so a
run is a sequence of calls, each with the clock value that its caller read before it took the lock.
Times and durations are nanoseconds.

Where the clock values do not go back, the limiter answers as one that never forgets anything
(`serve_eq_whole`): neither the dropping nor the cleanup is seen, clients do not touch each
other, and no window holds more accepted requests of a client than the limit. A refused
client is let in exactly from the moment it was told (`refused_until`), and only the clients of the
last three windows are remembered (`remembered`). In any order of the clock values, `max_requests`
accepted requests of a client after an accepted one mean that a call has read a time a window
later (`any_order`).

Key definitions: `PublicInferenceRateLimiter`, `acquireAt`, `serve`, `windowAnswer`, `wholeAnswers`.
Key theorems: `serve_eq_whole`, `clients_limited_apart`, `refused_until`, `remembered`, `any_order`.
-/
import KirAi.Lib.FiniteMap
import KirAi.Lib.SlidingLog

namespace KirAi.Server

open Lib Lib.SlidingLog

/-- The largest `Duration`, in nanoseconds. -/
def durationMax : ℕ := (2 ^ 64 - 1) * 10 ^ 9 + 999999999

structure PublicInferenceRateLimit where
  maxRequests : ℕ
  window : ℕ
deriving DecidableEq, Repr

structure PublicInferenceRateLimiter where
  maxRequests : ℕ
  window : ℕ
  ttl : ℕ
  cleanupInterval : ℕ
deriving DecidableEq, Repr

/-- The name of a client. -/
abbrev PublicInferenceClientKey := String

structure RateLimitSnapshot where
  limitRequests : ℕ
  remainingRequests : ℕ
  resetAfter : ℕ
deriving DecidableEq, Repr

structure RateLimitRejection where
  retryAfter : ℕ
  snapshot : RateLimitSnapshot
deriving DecidableEq, Repr

structure ClientRequestLog where
  acceptedAt : List ℕ
  lastSeen : ℕ
deriving DecidableEq, Repr

structure RateLimitState where
  buckets : Std.ExtTreeMap PublicInferenceClientKey ClientRequestLog
  nextCleanupAt : ℕ

namespace ClientRequestLog

def new (now : ℕ) : ClientRequestLog := ⟨[], now⟩

def prune (log : ClientRequestLog) (now window : ℕ) : ClientRequestLog :=
  { log with acceptedAt := log.acceptedAt.dropWhile fun acceptedAt => window ≤ now - acceptedAt }

def resetAfter (log : ClientRequestLog) (now window : ℕ) : ℕ :=
  (log.acceptedAt.head?.bind fun acceptedAt =>
    if now - acceptedAt ≤ window then some (window - (now - acceptedAt)) else none).getD 0

def isExpired (log : ClientRequestLog) (now ttl : ℕ) : Bool :=
  log.acceptedAt.isEmpty && ttl ≤ now - log.lastSeen

end ClientRequestLog

/-- `latest` is the largest clock value there is. -/
def nextCleanupAfter (latest now interval : ℕ) : ℕ :=
  if now + interval ≤ latest then now + interval else now

abbrev RateLimitAnswer := Except RateLimitRejection RateLimitSnapshot

namespace PublicInferenceRateLimiter

def new (options : PublicInferenceRateLimit) : PublicInferenceRateLimiter :=
  let window := if options.window = 0 then 10 ^ 9 else options.window
  { maxRequests := max options.maxRequests 1
    window := window
    ttl := if window * 2 ≤ durationMax then window * 2 else window
    cleanupInterval := window }

variable (limiter : PublicInferenceRateLimiter) (latest : ℕ)

def startedAt (now : ℕ) : RateLimitState := ⟨∅, nextCleanupAfter latest now limiter.window⟩

def snapshot (bucket : ClientRequestLog) (now : ℕ) : RateLimitSnapshot where
  limitRequests := limiter.maxRequests
  remainingRequests := limiter.maxRequests - bucket.acceptedAt.length
  resetAfter := bucket.resetAfter now limiter.window

def cleanupExpiredBuckets (state : RateLimitState) (now : ℕ) : RateLimitState :=
  if now < state.nextCleanupAt then state
  else
    { buckets := (state.buckets.map fun _ bucket => bucket.prune now limiter.window).filter
        fun _ bucket => !bucket.isExpired now limiter.ttl
      nextCleanupAt := nextCleanupAfter latest now limiter.cleanupInterval }

def acquireAt (state : RateLimitState) (key : PublicInferenceClientKey) (now : ℕ) :
    RateLimitState × RateLimitAnswer :=
  let state := limiter.cleanupExpiredBuckets latest state now
  let bucket := (state.buckets[key]?).getD (ClientRequestLog.new now)
  let bucket := { bucket with lastSeen := now }.prune now limiter.window
  if bucket.acceptedAt.length < limiter.maxRequests then
    let bucket := { bucket with acceptedAt := bucket.acceptedAt ++ [now] }
    ({ state with buckets := state.buckets.insert key bucket }, .ok (limiter.snapshot bucket now))
  else
    ({ state with buckets := state.buckets.insert key bucket },
      .error ⟨bucket.resetAfter now limiter.window, limiter.snapshot bucket now⟩)

end PublicInferenceRateLimiter

/-- A call, with the clock value its caller read. -/
structure RateLimitCall where
  key : PublicInferenceClientKey
  now : ℕ
deriving DecidableEq, Repr

/-- The state after some calls, and their answers. -/
def PublicInferenceRateLimiter.serve (limiter : PublicInferenceRateLimiter) (latest : ℕ) :
    RateLimitState → List RateLimitCall → RateLimitState × List RateLimitAnswer
  | state, [] => (state, [])
  | state, call :: calls =>
    let (state, answer) := limiter.acquireAt latest state call.key call.now
    let (state, answers) := serve limiter latest state calls
    (state, answer :: answers)

/-! ### A limiter that keeps everything -/

/-- The answer by the times of all requests of the client that were accepted before. -/
def windowAnswer (limit window : ℕ) (log : List ℕ) (now : ℕ) : RateLimitAnswer :=
  let shown := recent window now log
  if shown.length < limit then
    .ok ⟨limit, limit - (shown.length + 1), untilFree window now (shown ++ [now])⟩
  else
    .error ⟨untilFree window now shown, limit, limit - shown.length, untilFree window now shown⟩

/-- The times accepted after a call. -/
def logAfter (limit window : ℕ) (log : List ℕ) (now : ℕ) : List ℕ :=
  if (recent window now log).length < limit then log ++ [now] else log

def logsAfter (limit window : ℕ) (logs : PublicInferenceClientKey → List ℕ) (call : RateLimitCall) :
    PublicInferenceClientKey → List ℕ :=
  Function.update logs call.key (logAfter limit window (logs call.key) call.now)

/-- Answers by what was accepted of each client since the start. -/
def wholeAnswers (limit window : ℕ) (logs : PublicInferenceClientKey → List ℕ) :
    List RateLimitCall → List RateLimitAnswer
  | [] => []
  | call :: calls =>
    windowAnswer limit window (logs call.key) call.now ::
      wholeAnswers limit window (logsAfter limit window logs call) calls

/-- The times of the accepted requests of a client. -/
def acceptedTimes (key : PublicInferenceClientKey) (calls : List RateLimitCall)
    (answers : List RateLimitAnswer) : List ℕ :=
  (calls.zip answers).filterMap fun p => if p.1.key = key ∧ p.2.isOk then some p.1.now else none

/-- The clock values do not go back. -/
def InOrder (calls : List RateLimitCall) : Prop := calls.Pairwise fun a b => a.now ≤ b.now

instance decidableInOrder (calls : List RateLimitCall) : Decidable (InOrder calls) :=
  inferInstanceAs (Decidable (List.Pairwise _ _))

/-! ### The limiter forgets nothing that counts -/

section Refinement

variable {limiter : PublicInferenceRateLimiter} {clock now : ℕ} {state : RateLimitState}
  {key other : PublicInferenceClientKey} {logs : PublicInferenceClientKey → List ℕ}

open PublicInferenceRateLimiter

theorem new_window_pos (options : PublicInferenceRateLimit) : 0 < (new options).window := by
  unfold new
  dsimp only
  split <;> omega

theorem new_maxRequests_pos (options : PublicInferenceRateLimit) : 0 < (new options).maxRequests := by
  unfold new
  dsimp only
  omega

/-- The accepted times that the limiter still has of a client. -/
def RateLimitState.known (state : RateLimitState) (key : PublicInferenceClientKey) : List ℕ :=
  ((state.buckets[key]?).map (·.acceptedAt)).getD []

theorem known_insert (bucket : ClientRequestLog) (next : ℕ) :
    (⟨state.buckets.insert key bucket, next⟩ : RateLimitState).known other =
      if key = other then bucket.acceptedAt else state.known other := by
  unfold RateLimitState.known
  dsimp only
  rw [getElem?_insert_ite]
  split <;> rfl

/-- The cleanup drops what is behind the window; a removed client has nothing else. -/
theorem known_cleanup (limiter : PublicInferenceRateLimiter) (latest : ℕ) (state : RateLimitState)
    (now : ℕ) (key : PublicInferenceClientKey) :
    (limiter.cleanupExpiredBuckets latest state now).known key = state.known key ∨
      (limiter.cleanupExpiredBuckets latest state now).known key =
        prune limiter.window now (state.known key) := by
  unfold cleanupExpiredBuckets
  split
  · exact .inl rfl
  · refine .inr ?_
    unfold RateLimitState.known
    dsimp only
    rw [Std.ExtTreeMap.getElem?_filter', Std.ExtTreeMap.getElem?_map]
    cases state.buckets[key]? with
    | none => rfl
    | some bucket =>
      rw [Option.map_some, Option.filter_some]
      split
      · rfl
      · next hexpired =>
        have hnil : (bucket.prune now limiter.window).acceptedAt = [] := by
          simp only [ClientRequestLog.isExpired, Bool.not_eq_true', Bool.not_eq_false,
            Bool.and_eq_true] at hexpired
          exact List.isEmpty_iff.1 hexpired.1
        exact hnil.symm

/-- The state has, of everything accepted, what some time up to `clock` still showed. -/
structure Remembers (limiter : PublicInferenceRateLimiter) (clock : ℕ) (state : RateLimitState)
    (logs : PublicInferenceClientKey → List ℕ) : Prop where
  ordered : ∀ key, (logs key).Pairwise (· ≤ ·)
  past : ∀ key, ∀ t ∈ logs key, t ≤ clock
  known : ∀ key, ∃ t ≤ clock, state.known key = prune limiter.window t (logs key)

theorem remembers_started (limiter : PublicInferenceRateLimiter) (latest start : ℕ) :
    Remembers limiter 0 (limiter.startedAt latest start) fun _ => [] where
  ordered _ := .nil
  past _ _ h := absurd h List.not_mem_nil
  known key := ⟨0, le_rfl, by simp [RateLimitState.known, startedAt, prune]⟩

/-- At a later time the window shows the same of both. -/
theorem Remembers.prune_known (h : Remembers limiter clock state logs) (hle : clock ≤ now)
    (key : PublicInferenceClientKey) :
    prune limiter.window now (state.known key) = prune limiter.window now (logs key) := by
  obtain ⟨t, ht, hknown⟩ := h.known key
  rw [hknown, prune_prune (ht.trans hle)]

theorem Remembers.later (h : Remembers limiter clock state logs) (hle : clock ≤ now) :
    Remembers limiter now state logs where
  ordered := h.ordered
  past key t ht := (h.past key t ht).trans hle
  known key := by
    obtain ⟨t, ht, hknown⟩ := h.known key
    exact ⟨t, ht.trans hle, hknown⟩

theorem Remembers.cleanup (latest : ℕ) (h : Remembers limiter clock state logs)
    (hle : clock ≤ now) :
    Remembers limiter now (limiter.cleanupExpiredBuckets latest state now) logs where
  ordered := h.ordered
  past := (h.later hle).past
  known key := by
    rcases known_cleanup limiter latest state now key with hsame | hpruned
    · rw [hsame]
      exact (h.later hle).known key
    · exact ⟨now, le_rfl, hpruned.trans (h.prune_known hle key)⟩

/-- The bucket that a request finds, pruned. -/
theorem acceptedAt_found (limiter : PublicInferenceRateLimiter) (state : RateLimitState)
    (key : PublicInferenceClientKey) (now : ℕ) :
    (({ (state.buckets[key]?).getD (ClientRequestLog.new now) with lastSeen := now } :
      ClientRequestLog).prune now limiter.window).acceptedAt =
        prune limiter.window now (state.known key) := by
  unfold RateLimitState.known
  cases state.buckets[key]? <;> rfl

theorem resetAfter_eq (bucket : ClientRequestLog) (now window : ℕ) :
    bucket.resetAfter now window = untilFree window now bucket.acceptedAt := by
  unfold ClientRequestLog.resetAfter untilFree
  cases bucket.acceptedAt.head? with
  | none => rfl
  | some t =>
    dsimp only [Option.bind_some, Option.map_some, Option.getD_some]
    split
    · rfl
    · rw [Option.getD_none]
      omega

/-- One call: the answer by the whole log, and what is known after it. -/
theorem Remembers.acquireAt (latest : ℕ) (hw : 0 < limiter.window)
    (h : Remembers limiter clock state logs) (call : RateLimitCall) (hle : clock ≤ call.now) :
    (limiter.acquireAt latest state call.key call.now).2 =
        windowAnswer limiter.maxRequests limiter.window (logs call.key) call.now ∧
      Remembers limiter call.now (limiter.acquireAt latest state call.key call.now).1
        (logsAfter limiter.maxRequests limiter.window logs call) := by
  have hclean := h.cleanup latest hle
  have hfound := acceptedAt_found limiter (limiter.cleanupExpiredBuckets latest state call.now)
    call.key call.now
  rw [hclean.prune_known le_rfl, prune_eq_recent (h.ordered call.key)] at hfound
  have hordered : ∀ key, (logsAfter limiter.maxRequests limiter.window logs call key).Pairwise
      (· ≤ ·) ∧ ∀ t ∈ logsAfter limiter.maxRequests limiter.window logs call key,
        t ≤ call.now := by
    intro key
    have hpast := (h.later hle).past
    unfold logsAfter logAfter
    by_cases hkey : key = call.key
    · rw [hkey, Function.update_self]
      split
      · refine ⟨List.pairwise_append.2 ⟨h.ordered _, List.pairwise_singleton _ _, ?_⟩, ?_⟩
        · intro a ha b hb
          rw [List.mem_singleton.1 hb]
          exact hpast _ a ha
        · intro t ht
          rcases List.mem_append.1 ht with h' | h'
          · exact hpast _ t h'
          · exact (List.mem_singleton.1 h').le
      · exact ⟨h.ordered _, hpast _⟩
    · rw [Function.update_of_ne hkey]
      exact ⟨h.ordered _, hpast _⟩
  unfold PublicInferenceRateLimiter.acquireAt
  dsimp only
  rw [hfound]
  unfold windowAnswer
  dsimp only
  by_cases hroom : (recent limiter.window call.now (logs call.key)).length < limiter.maxRequests
  · rw [if_pos hroom, if_pos hroom]
    refine ⟨?_, fun key => (hordered key).1, fun key => (hordered key).2, fun key => ?_⟩
    · rw [snapshot, resetAfter_eq]
      simp only [List.length_append, List.length_singleton]
    · rw [known_insert, logsAfter, logAfter, if_pos hroom]
      by_cases hkey : call.key = key
      · subst hkey
        rw [if_pos rfl, Function.update_self]
        refine ⟨call.now, le_rfl, ?_⟩
        rw [prune_concat_now hw, prune_eq_recent (h.ordered call.key)]
      · rw [if_neg hkey, Function.update_of_ne (Ne.symm hkey)]
        exact hclean.known key
  · rw [if_neg hroom, if_neg hroom]
    refine ⟨?_, fun key => (hordered key).1, fun key => (hordered key).2, fun key => ?_⟩
    · rw [snapshot, resetAfter_eq, hfound]
    · rw [known_insert, logsAfter, logAfter, if_neg hroom, Function.update_eq_self]
      by_cases hkey : call.key = key
      · subst hkey
        rw [if_pos rfl]
        refine ⟨call.now, le_rfl, ?_⟩
        rw [hfound, prune_eq_recent (h.ordered call.key)]
      · rw [if_neg hkey]
        exact hclean.known key

theorem serve_cons (limiter : PublicInferenceRateLimiter) (latest : ℕ) (state : RateLimitState)
    (call : RateLimitCall) (calls : List RateLimitCall) :
    limiter.serve latest state (call :: calls) =
      ((limiter.serve latest (limiter.acquireAt latest state call.key call.now).1 calls).1,
        (limiter.acquireAt latest state call.key call.now).2 ::
          (limiter.serve latest (limiter.acquireAt latest state call.key call.now).1 calls).2) :=
  rfl

/-- Calls in order: the answers by the whole logs, and what is known after them. -/
theorem Remembers.serve (latest : ℕ) (hw : 0 < limiter.window) :
    ∀ {calls : List RateLimitCall} {clock : ℕ} {state : RateLimitState}
      {logs : PublicInferenceClientKey → List ℕ}, Remembers limiter clock state logs →
      (∀ call ∈ calls, clock ≤ call.now) → InOrder calls →
      (limiter.serve latest state calls).2 =
          wholeAnswers limiter.maxRequests limiter.window logs calls ∧
        ∀ now, clock ≤ now → (∀ call ∈ calls, call.now ≤ now) →
          Remembers limiter now (limiter.serve latest state calls).1
            (calls.foldl (logsAfter limiter.maxRequests limiter.window) logs)
  | [], _, _, _, h, _, _ => ⟨rfl, fun _ hle _ => h.later hle⟩
  | call :: calls, clock, state, logs, h, hclock, horder => by
    obtain ⟨hfirst, hrest⟩ := List.pairwise_cons.1 horder
    obtain ⟨hanswer, hnext⟩ := h.acquireAt latest hw call (hclock call List.mem_cons_self)
    obtain ⟨hanswers, hafter⟩ := Remembers.serve latest hw hnext hfirst hrest
    refine ⟨?_, fun now _ hnow => ?_⟩
    · rw [serve_cons, hanswer, wholeAnswers]
      exact congrArg _ hanswers
    · exact hafter now (hnow call List.mem_cons_self) fun c hc => hnow c (List.mem_cons_of_mem _ hc)

/-- Calls in order are answered as by a limiter that keeps all accepted times. -/
theorem serve_eq_whole (options : PublicInferenceRateLimit) (latest start : ℕ)
    {calls : List RateLimitCall} (horder : InOrder calls) :
    ((new options).serve latest ((new options).startedAt latest start) calls).2 =
      wholeAnswers (new options).maxRequests (new options).window (fun _ => []) calls :=
  ((remembers_started _ latest start).serve latest (new_window_pos options)
    (fun _ _ => Nat.zero_le _) horder).1

/-- One request in two nanoseconds. -/
def onePerTwo : PublicInferenceRateLimit := ⟨1, 2⟩

/-- Three clients: the second call of `a` is refused. The cleanup at 3 prunes the logs of `a` and `b`,
that at 6 removes both as idle and prunes the log of `c`. -/
def idleClients : List RateLimitCall := [⟨"a", 0⟩, ⟨"b", 0⟩, ⟨"a", 1⟩, ⟨"c", 3⟩, ⟨"b", 6⟩]

/-- What is left of `idleClients`: `a` is gone, `b` has its second call only, `c` an empty log. -/
theorem serve_idleClients :
    (((new onePerTwo).serve 100 ((new onePerTwo).startedAt 100 0) idleClients).1.buckets["a"]? =
          none ∧
        ((new onePerTwo).serve 100 ((new onePerTwo).startedAt 100 0) idleClients).1.buckets["b"]? =
          some ⟨[6], 6⟩ ∧
        ((new onePerTwo).serve 100 ((new onePerTwo).startedAt 100 0) idleClients).1.buckets["c"]? =
          some ⟨[], 3⟩) ∧
      ((new onePerTwo).serve 100 ((new onePerTwo).startedAt 100 0) idleClients).2 =
        wholeAnswers 1 2 (fun _ => []) idleClients :=
  ⟨⟨by decide +kernel, by decide +kernel, by decide +kernel⟩,
    serve_eq_whole onePerTwo 100 0 (by decide)⟩

end Refinement

/-! ### Clients apart, and the limit -/

section Clients

variable {limit window : ℕ} {key : PublicInferenceClientKey}
  {logs : PublicInferenceClientKey → List ℕ}

theorem isOk_windowAnswer (limit window : ℕ) (log : List ℕ) (now : ℕ) :
    (windowAnswer limit window log now).isOk = true ↔ (recent window now log).length < limit := by
  unfold windowAnswer
  dsimp only
  split
  · next h => exact iff_of_true rfl h
  · next h => exact iff_of_false Bool.false_ne_true h

theorem logsAfter_other {call : RateLimitCall} (h : call.key ≠ key) :
    logsAfter limit window logs call key = logs key :=
  Function.update_of_ne (Ne.symm h) _ _

theorem wholeAnswers_congr : ∀ {calls : List RateLimitCall}
    {logs logs' : PublicInferenceClientKey → List ℕ},
    (∀ call ∈ calls, logs call.key = logs' call.key) →
    wholeAnswers limit window logs calls = wholeAnswers limit window logs' calls
  | [], _, _, _ => rfl
  | call :: calls, logs, logs', h => by
    have hcall := h call List.mem_cons_self
    rw [wholeAnswers, wholeAnswers, hcall]
    refine congrArg _ (wholeAnswers_congr fun c hc => ?_)
    unfold logsAfter
    rw [hcall]
    by_cases hkey : c.key = call.key
    · rw [hkey, Function.update_self, Function.update_self]
    · rw [Function.update_of_ne hkey, Function.update_of_ne hkey]
      exact h c (List.mem_cons_of_mem _ hc)

/-- The answers to one client are those it gets alone. -/
theorem wholeAnswers_apart (key : PublicInferenceClientKey) :
    ∀ (calls : List RateLimitCall) (logs : PublicInferenceClientKey → List ℕ),
    ((calls.zip (wholeAnswers limit window logs calls)).filter (·.1.key = key)).map (·.2) =
      wholeAnswers limit window logs (calls.filter (·.key = key))
  | [], _ => rfl
  | call :: calls, logs => by
    have ih := wholeAnswers_apart key calls (logsAfter limit window logs call)
    rw [wholeAnswers, List.zip_cons_cons]
    by_cases hkey : call.key = key
    · rw [List.filter_cons_of_pos (by simpa using hkey), List.filter_cons_of_pos
        (by simpa using hkey), List.map_cons, wholeAnswers, ih]
    · rw [List.filter_cons_of_neg (by simpa using hkey), List.filter_cons_of_neg
        (by simpa using hkey), ih]
      refine wholeAnswers_congr fun c hc => logsAfter_other ?_
      rw [of_decide_eq_true (List.mem_filter.1 hc).2]
      exact hkey

theorem acceptedTimes_cons (key : PublicInferenceClientKey) (call : RateLimitCall)
    (calls : List RateLimitCall) (answer : RateLimitAnswer) (answers : List RateLimitAnswer) :
    acceptedTimes key (call :: calls) (answer :: answers) =
      (if call.key = key ∧ answer.isOk then [call.now] else []) ++
        acceptedTimes key calls answers := by
  unfold acceptedTimes
  rw [List.zip_cons_cons, List.filterMap_cons]
  dsimp only
  split <;> simp_all

/-- What a client's log holds in the end: what it held, and its accepted times. -/
theorem foldl_logsAfter (key : PublicInferenceClientKey) :
    ∀ (calls : List RateLimitCall) (logs : PublicInferenceClientKey → List ℕ),
    calls.foldl (logsAfter limit window) logs key =
      logs key ++ acceptedTimes key calls (wholeAnswers limit window logs calls)
  | [], _ => (List.append_nil _).symm
  | call :: calls, logs => by
    have hstep : logsAfter limit window logs call key = logs key ++
        if call.key = key ∧ (windowAnswer limit window (logs call.key) call.now).isOk then
          [call.now] else [] := by
      by_cases hkey : call.key = key
      · subst hkey
        have hok := isOk_windowAnswer limit window (logs call.key) call.now
        rw [logsAfter, Function.update_self, logAfter]
        by_cases hroom : (recent window call.now (logs call.key)).length < limit
        · rw [if_pos hroom, if_pos ⟨rfl, hok.2 hroom⟩]
        · rw [if_neg hroom, if_neg fun h => hroom (hok.1 h.2), List.append_nil]
      · rw [logsAfter_other hkey, if_neg fun h => hkey h.1, List.append_nil]
    rw [List.foldl_cons, foldl_logsAfter key calls, wholeAnswers, acceptedTimes_cons, hstep,
      List.append_assoc]

theorem limited_foldl (limit window : ℕ) : ∀ (calls : List RateLimitCall)
    {logs : PublicInferenceClientKey → List ℕ}, (∀ key, Limited limit window (logs key)) → ∀ key,
      Limited limit window (calls.foldl (logsAfter limit window) logs key)
  | [], _, hlimited => hlimited
  | call :: calls, logs, hlimited => by
    refine limited_foldl limit window calls fun key => ?_
    by_cases hkey : key = call.key
    · unfold logsAfter logAfter
      rw [hkey, Function.update_self]
      split
      · next hroom => exact (hlimited call.key).concat hroom
      · exact hlimited call.key
    · rw [logsAfter_other (Ne.symm hkey)]
      exact hlimited key

end Clients

section Served

open PublicInferenceRateLimiter

variable {options : PublicInferenceRateLimit} {latest start : ℕ} {calls : List RateLimitCall}

/-- Whatever the other clients do, a client is answered as if it were alone; and no window holds
more accepted requests of it than the limit. -/
theorem clients_limited_apart (options : PublicInferenceRateLimit) (latest start : ℕ)
    (horder : InOrder calls) (key : PublicInferenceClientKey) :
    let answers := ((new options).serve latest ((new options).startedAt latest start) calls).2
    ((calls.zip answers).filter (·.1.key = key)).map (·.2) =
        ((new options).serve latest ((new options).startedAt latest start)
          (calls.filter (·.key = key))).2 ∧
      ∀ x, ((acceptedTimes key calls answers).filter fun t =>
        t ≤ x ∧ x < t + (new options).window).length ≤ max options.maxRequests 1 := by
  intro answers
  have hanswers : answers = _ := serve_eq_whole options latest start horder
  have halone := serve_eq_whole options latest start
    (horder.filter fun call => decide (call.key = key))
  refine ⟨?_, ?_⟩
  · rw [hanswers, halone, wholeAnswers_apart]
  · have hlimited := limited_foldl (new options).maxRequests (new options).window calls
      (fun _ => limited_nil) key
    rw [foldl_logsAfter, List.nil_append] at hlimited
    rw [hanswers]
    exact hlimited

theorem idleClients_apart :
    let answers := ((new onePerTwo).serve 100 ((new onePerTwo).startedAt 100 0) idleClients).2
    ((idleClients.zip answers).filter (·.1.key = "a")).map (·.2) =
        ((new onePerTwo).serve 100 ((new onePerTwo).startedAt 100 0)
          (idleClients.filter (·.key = "a"))).2 ∧
      ∀ x, ((acceptedTimes "a" idleClients answers).filter fun t =>
        t ≤ x ∧ x < t + (new onePerTwo).window).length ≤ 1 :=
  clients_limited_apart onePerTwo 100 0 (by decide) "a"

/-! ### The announced moment -/

theorem error_windowAnswer {limit window now : ℕ} {log : List ℕ} {rejection : RateLimitRejection}
    (h : windowAnswer limit window log now = .error rejection) :
    limit ≤ (recent window now log).length ∧
      rejection.retryAfter = untilFree window now (recent window now log) := by
  unfold windowAnswer at h
  dsimp only at h
  split at h
  · cases h
  · next hfull =>
    obtain rfl := Except.error.inj h
    exact ⟨Nat.le_of_not_lt hfull, rfl⟩

/-- While its window stays full, nothing is accepted of a client. -/
theorem foldl_logsAfter_full {limit window : ℕ} {key : PublicInferenceClientKey} :
    ∀ {rest : List RateLimitCall} {logs : PublicInferenceClientKey → List ℕ},
    (∀ call ∈ rest, call.key = key → limit ≤ (recent window call.now (logs key)).length) →
    rest.foldl (logsAfter limit window) logs key = logs key
  | [], _, _ => rfl
  | call :: rest, logs, h => by
    have hsame : logsAfter limit window logs call key = logs key := by
      by_cases hkey : call.key = key
      · have hfull := h call List.mem_cons_self hkey
        rw [logsAfter, hkey, Function.update_self, logAfter, if_neg (Nat.not_lt.2 hfull)]
      · exact logsAfter_other hkey
    rw [List.foldl_cons, foldl_logsAfter_full, hsame]
    rw [hsame]
    exact fun c hc => h c (List.mem_cons_of_mem _ hc)

/-- A refused client is let in exactly from the moment it was told: as long as it has called only
before that moment, its next call is accepted just if it comes then or later. What other clients
do is of no matter. -/
theorem refused_until (options : PublicInferenceRateLimit) (latest start : ℕ)
    (key : PublicInferenceClientKey) (now : ℕ) (rest : List RateLimitCall) (now' : ℕ)
    (rejection : RateLimitRejection)
    (horder : InOrder (calls ++ ⟨key, now⟩ :: (rest ++ [⟨key, now'⟩])))
    (hrefused : ((new options).acquireAt latest
      ((new options).serve latest ((new options).startedAt latest start) calls).1 key now).2 =
        .error rejection)
    (hearly : ∀ call ∈ rest, call.key = key → call.now < now + rejection.retryAfter) :
    0 < rejection.retryAfter ∧ rejection.retryAfter ≤ (new options).window ∧
      (((new options).acquireAt latest ((new options).serve latest
        ((new options).startedAt latest start) (calls ++ ⟨key, now⟩ :: rest)).1 key now').2.isOk =
          true ↔ now + rejection.retryAfter ≤ now') := by
  have hw := new_window_pos options
  obtain ⟨hcalls, htail, hcross⟩ := List.pairwise_append.1 horder
  obtain ⟨hnow, hrest⟩ := List.pairwise_cons.1 htail
  have hnow' : now ≤ now' := hnow ⟨key, now'⟩ (List.mem_append_right _ List.mem_cons_self)
  -- the state at the refusal, and the one after the rest
  have hbefore := ((remembers_started (new options) latest start).serve latest hw
    (fun _ _ => Nat.zero_le _) hcalls).2 now (Nat.zero_le _) fun c hc =>
      hcross c hc _ List.mem_cons_self
  have hmore : InOrder (calls ++ ⟨key, now⟩ :: rest) := by
    refine horder.sublist (List.Sublist.append_left ?_ calls)
    exact (List.sublist_append_left rest _).cons_cons _
  have hafter := ((remembers_started (new options) latest start).serve latest hw
    (fun _ _ => Nat.zero_le _) hmore).2 now' (Nat.zero_le _) fun c hc => by
      rcases List.mem_append.1 hc with hin | hin
      · exact hcross c hin _ (List.mem_cons_of_mem _ (List.mem_append_right _ List.mem_cons_self))
      · rcases List.mem_cons.1 hin with rfl | hin
        · exact hnow'
        · exact (List.pairwise_append.1 hrest).2.2 c hin _ List.mem_cons_self
  have hlast := (hafter.acquireAt latest hw ⟨key, now'⟩ le_rfl).1
  have hanswer := (hbefore.acquireAt latest hw ⟨key, now⟩ le_rfl).1
  dsimp only at hlast hanswer
  rw [hrefused] at hanswer
  obtain ⟨hfull, hretry⟩ := error_windowAnswer hanswer.symm
  have hlimited := limited_foldl (new options).maxRequests (new options).window calls
    (fun _ => limited_nil) key
  rw [List.foldl_append] at hlast
  generalize calls.foldl (logsAfter (new options).maxRequests (new options).window)
    (fun _ => []) = logs at hbefore hfull hretry hlast hlimited
  have hle := hlimited.recent_le (hbefore.past key)
  cases hrecent : recent (new options).window now (logs key) with
  | nil =>
    have := new_maxRequests_pos options
    rw [hrecent, List.length_nil] at hfull
    omega
  | cons oldest more =>
    -- the moment is when the oldest time leaves the window
    have hmem : oldest ∈ recent (new options).window now (logs key) := by
      rw [hrecent]
      exact List.mem_cons_self
    obtain ⟨hlog, hshown⟩ := List.mem_filter.1 hmem
    simp only [decide_eq_true_eq] at hshown
    have hpast := hbefore.past key oldest hlog
    have hretry' : rejection.retryAfter = (new options).window - (now - oldest) := by
      rw [hretry, hrecent]
      rfl
    have hmoment : now + rejection.retryAfter = oldest + (new options).window := by omega
    have hsame : (⟨key, now⟩ :: rest).foldl
        (logsAfter (new options).maxRequests (new options).window) logs key = logs key := by
      refine foldl_logsAfter_full fun c hc hkey => ?_
      have hbetween : now ≤ c.now ∧ c.now < oldest + (new options).window := by
        rcases List.mem_cons.1 hc with rfl | hin
        · exact ⟨le_rfl, by dsimp only; omega⟩
        · have := hearly c hin hkey
          exact ⟨hnow c (List.mem_append_left _ hin), by omega⟩
      rw [recent_before (hbefore.ordered key) hrecent hbetween.1 hbetween.2]
      exact hfull
    rw [hsame] at hlast
    refine ⟨by omega, by omega, ?_⟩
    rw [hlast, isOk_windowAnswer, hmoment]
    constructor
    · intro hroom
      by_contra hlt
      rw [recent_before (hbefore.ordered key) hrecent hnow' (Nat.lt_of_not_le hlt)] at hroom
      omega
    · intro hlater
      exact lt_of_lt_of_le (recent_after hrecent hnow' hlater) hle

/-- Refused at 1, let in at 2. -/
theorem refused_for_one :
    0 < 1 ∧ 1 ≤ (new onePerTwo).window ∧
      (((new onePerTwo).acquireAt 100 ((new onePerTwo).serve 100
        ((new onePerTwo).startedAt 100 0) ([⟨"a", 0⟩] ++ ⟨"a", 1⟩ :: [⟨"b", 1⟩])).1 "a" 2).2.isOk =
          true ↔ 1 + 1 ≤ 2) :=
  refused_until onePerTwo 100 0 "a" 1 [⟨"b", 1⟩] 2 ⟨1, ⟨1, 0, 1⟩⟩ (by decide) rfl
    (by decide)

/-! ### What is remembered -/

/-- The clients of the state `state` that has served `calls` up to the time `clock`. -/
structure Lately (limiter : PublicInferenceRateLimiter) (calls : List RateLimitCall) (clock : ℕ)
    (state : RateLimitState) : Prop where
  swept : ∃ c ≤ clock, clock < c + limiter.window ∧ state.nextCleanupAt ≤ c + limiter.window ∧
    ∀ (key : PublicInferenceClientKey) (bucket : ClientRequestLog),
      state.buckets[key]? = some bucket → c < bucket.lastSeen + 2 * limiter.window
  called : ∀ (key : PublicInferenceClientKey) (bucket : ClientRequestLog),
    state.buckets[key]? = some bucket → ∃ call ∈ calls, call.key = key ∧ call.now = bucket.lastSeen
  few : ∀ (key : PublicInferenceClientKey) (bucket : ClientRequestLog),
    state.buckets[key]? = some bucket → bucket.acceptedAt.length ≤ limiter.maxRequests ∧
      ∀ t ∈ bucket.acceptedAt, t ≤ bucket.lastSeen
  past : ∀ call ∈ calls, call.now ≤ clock

theorem nextCleanupAfter_le (latest now interval : ℕ) :
    nextCleanupAfter latest now interval ≤ now + interval := by
  unfold nextCleanupAfter
  split <;> omega

/-- A client that the cleanup keeps was there, and is not idle. -/
theorem cleanup_bucket {limiter : PublicInferenceRateLimiter} {state : RateLimitState} {now : ℕ}
    {key : PublicInferenceClientKey} {bucket : ClientRequestLog}
    (hswept : ¬now < state.nextCleanupAt)
    (h : (limiter.cleanupExpiredBuckets latest state now).buckets[key]? = some bucket) :
    ∃ old, state.buckets[key]? = some old ∧ bucket = old.prune now limiter.window ∧
      bucket.isExpired now limiter.ttl = false := by
  unfold cleanupExpiredBuckets at h
  rw [if_neg hswept] at h
  dsimp only at h
  rw [Std.ExtTreeMap.getElem?_filter', Std.ExtTreeMap.getElem?_map] at h
  cases hold : state.buckets[key]? with
  | none =>
    rw [hold] at h
    cases h
  | some old =>
    rw [hold, Option.map_some, Option.filter_some] at h
    split at h
    · next hkept =>
      obtain rfl := Option.some.inj h
      exact ⟨old, rfl, rfl, by simpa using hkept⟩
    · cases h

theorem ttl_le (options : PublicInferenceRateLimit) : (new options).ttl ≤ 2 * (new options).window := by
  unfold new
  dsimp only
  split <;> split <;> omega

theorem Lately.cleanup (latest : ℕ) {clock now : ℕ} {state : RateLimitState}
    (h : Lately (new options) calls clock state) (hle : clock ≤ now) :
    Lately (new options) calls now ((new options).cleanupExpiredBuckets latest state now) := by
  have hw := new_window_pos options
  have hpast : ∀ call ∈ calls, call.now ≤ now := fun call hc => (h.past call hc).trans hle
  by_cases hswept : now < state.nextCleanupAt
  · obtain ⟨c, hc, -, hnext, hseen⟩ := h.swept
    unfold cleanupExpiredBuckets
    rw [if_pos hswept]
    exact ⟨⟨c, hc.trans hle, by omega, hnext, hseen⟩, h.called, h.few, hpast⟩
  · have hnext : ((new options).cleanupExpiredBuckets latest state now).nextCleanupAt ≤
        now + (new options).window := by
      unfold cleanupExpiredBuckets
      rw [if_neg hswept]
      exact nextCleanupAfter_le _ _ _
    refine ⟨⟨now, le_rfl, by omega, hnext, fun key bucket hget => ?_⟩, fun key bucket hget => ?_,
      fun key bucket hget => ?_, hpast⟩
    · obtain ⟨old, hold, rfl, hkept⟩ := cleanup_bucket hswept hget
      have httl := ttl_le options
      have hpast := (h.few key old hold).2
      show now < old.lastSeen + _
      unfold ClientRequestLog.isExpired at hkept
      rw [Bool.and_eq_false_iff] at hkept
      rcases hkept with hsome | hyoung
      · -- an accepted time is still in the window
        have hsub := prune_sublist (new options).window now old.acceptedAt
        obtain ⟨t, more, hfront⟩ := List.exists_cons_of_ne_nil
          (fun hnil => Bool.eq_false_iff.1 hsome (List.isEmpty_iff.2 hnil))
        have hmem : t ∈ prune (new options).window now old.acceptedAt := by
          show t ∈ (old.prune now (new options).window).acceptedAt
          rw [hfront]
          exact List.mem_cons_self
        have hshown := prune_head (show prune (new options).window now old.acceptedAt = t :: more
          from hfront)
        have := hpast t (hsub.subset hmem)
        omega
      · have hage : ¬(new options).ttl ≤ now - old.lastSeen := of_decide_eq_false hyoung
        omega
    · obtain ⟨old, hold, rfl, -⟩ := cleanup_bucket hswept hget
      exact h.called key old hold
    · obtain ⟨old, hold, rfl, -⟩ := cleanup_bucket hswept hget
      have hsub := prune_sublist (new options).window now old.acceptedAt
      obtain ⟨hlen, hpast⟩ := h.few key old hold
      exact ⟨hsub.length_le.trans hlen, fun t ht => hpast t (hsub.subset ht)⟩

/-- A call replaces the log of its client. -/
theorem acquireAt_buckets (latest : ℕ) (limiter : PublicInferenceRateLimiter) (state : RateLimitState)
    (key : PublicInferenceClientKey) (now : ℕ) :
    ∃ bucket, bucket.lastSeen = now ∧
      (bucket.acceptedAt = prune limiter.window now
          ((limiter.cleanupExpiredBuckets latest state now).known key) ∧
          limiter.maxRequests ≤ bucket.acceptedAt.length ∨
        bucket.acceptedAt = prune limiter.window now
          ((limiter.cleanupExpiredBuckets latest state now).known key) ++ [now] ∧
          bucket.acceptedAt.length ≤ limiter.maxRequests) ∧
      ((limiter.acquireAt latest state key now).2.isOk = true ↔
        (prune limiter.window now
          ((limiter.cleanupExpiredBuckets latest state now).known key)).length <
            limiter.maxRequests) ∧
      (limiter.acquireAt latest state key now).1 =
        { limiter.cleanupExpiredBuckets latest state now with
          buckets := (limiter.cleanupExpiredBuckets latest state now).buckets.insert key bucket } := by
  have hfound := acceptedAt_found limiter (limiter.cleanupExpiredBuckets latest state now) key now
  unfold acquireAt
  dsimp only
  rw [hfound]
  split
  · next hroom =>
    refine ⟨_, rfl, .inr ⟨rfl, ?_⟩, iff_of_true rfl hroom, rfl⟩
    rw [List.length_append, List.length_singleton]
    omega
  · next hfull =>
    exact ⟨_, rfl, .inl ⟨hfound, hfound.symm ▸ Nat.le_of_not_lt hfull⟩,
      iff_of_false Bool.false_ne_true hfull, rfl⟩

theorem Lately.acquireAt (latest : ℕ) {clock : ℕ} {state : RateLimitState}
    (h : Lately (new options) calls clock state) (call : RateLimitCall) (hle : clock ≤ call.now) :
    Lately (new options) (calls ++ [call]) call.now
      ((new options).acquireAt latest state call.key call.now).1 := by
  have hw := new_window_pos options
  have hclean := h.cleanup latest hle
  obtain ⟨bucket, hseen, haccepted, -, hstate⟩ :=
    acquireAt_buckets latest (new options) state call.key call.now
  rw [hstate]
  generalize (new options).cleanupExpiredBuckets latest state call.now = clean at hclean haccepted
  have hget : ∀ {key : PublicInferenceClientKey} {b : ClientRequestLog},
      (clean.buckets.insert call.key bucket)[key]? = some b →
        call.key = key ∧ b = bucket ∨ clean.buckets[key]? = some b := by
    intro key b hb
    rw [getElem?_insert_ite] at hb
    split at hb
    · next hkey => exact .inl ⟨hkey, (Option.some.inj hb).symm⟩
    · exact .inr hb
  have hknown : (clean.known call.key).length ≤ (new options).maxRequests ∧
      ∀ t ∈ clean.known call.key, t ≤ call.now := by
    unfold RateLimitState.known
    cases hold : clean.buckets[call.key]? with
    | none => exact ⟨Nat.zero_le _, fun t ht => absurd ht List.not_mem_nil⟩
    | some old =>
      obtain ⟨caller, hcaller, -, hlast⟩ := hclean.called call.key old hold
      obtain ⟨hlen, hpast⟩ := hclean.few call.key old hold
      exact ⟨hlen, fun t ht => (hpast t ht).trans (hlast ▸ hclean.past caller hcaller)⟩
  have hsub := prune_sublist (new options).window call.now (clean.known call.key)
  have hbucket : bucket.acceptedAt.length ≤ (new options).maxRequests ∧
      ∀ t ∈ bucket.acceptedAt, t ≤ bucket.lastSeen := by
    rw [hseen]
    rcases haccepted with ⟨heq, -⟩ | ⟨heq, hlen⟩
    · rw [heq]
      exact ⟨hsub.length_le.trans hknown.1, fun t ht => hknown.2 t (hsub.subset ht)⟩
    · refine ⟨hlen, fun t ht => ?_⟩
      rw [heq] at ht
      rcases List.mem_append.1 ht with hin | hin
      · exact hknown.2 t (hsub.subset hin)
      · exact (List.mem_singleton.1 hin).le
  obtain ⟨c, hc, hlate, hnext, hyoung⟩ := hclean.swept
  refine ⟨⟨c, hc, hlate, hnext, fun key b hb => ?_⟩, fun key b hb => ?_, fun key b hb => ?_,
    fun c hc => ?_⟩
  · rcases hget hb with ⟨-, rfl⟩ | hold
    · omega
    · exact hyoung key b hold
  · rcases hget hb with ⟨hkey, rfl⟩ | hold
    · exact ⟨call, List.mem_append_right _ List.mem_cons_self, hkey, hseen.symm⟩
    · obtain ⟨caller, hcaller, hrest⟩ := hclean.called key b hold
      exact ⟨caller, List.mem_append_left _ hcaller, hrest⟩
  · rcases hget hb with ⟨-, rfl⟩ | hold
    · exact hbucket
    · exact hclean.few key b hold
  · rcases List.mem_append.1 hc with hin | hin
    · exact hclean.past c hin
    · rw [List.mem_singleton.1 hin]

theorem Lately.serve (latest : ℕ) : ∀ {more calls : List RateLimitCall} {clock : ℕ} {state : RateLimitState},
    Lately (new options) calls clock state → (∀ call ∈ more, clock ≤ call.now) → InOrder more →
    ∃ clock', Lately (new options) (calls ++ more) clock' ((new options).serve latest state more).1
  | [], calls, clock, state, h, _, _ => ⟨clock, by rw [List.append_nil]; exact h⟩
  | call :: more, calls, clock, state, h, hclock, horder => by
    obtain ⟨hfirst, hmore⟩ := List.pairwise_cons.1 horder
    have hstep := h.acquireAt latest call (hclock call List.mem_cons_self)
    obtain ⟨clock', hafter⟩ := hstep.serve latest hfirst hmore
    rw [List.append_assoc] at hafter
    exact ⟨clock', hafter⟩

/-- Only clients that called in the last three windows are remembered, each with no more times
than the limit. -/
theorem remembered (options : PublicInferenceRateLimit) (latest start : ℕ) (horder : InOrder calls)
    (hstart : ∀ call ∈ calls, start ≤ call.now) (key : PublicInferenceClientKey)
    (bucket : ClientRequestLog)
    (hbucket : ((new options).serve latest ((new options).startedAt latest start)
      calls).1.buckets[key]? = some bucket) :
    bucket.acceptedAt.length ≤ max options.maxRequests 1 ∧
      (∃ call ∈ calls, call.key = key ∧ call.now = bucket.lastSeen) ∧
      ∀ call ∈ calls, call.now < bucket.lastSeen + 3 * (new options).window := by
  have hw := new_window_pos options
  have hinit : Lately (new options) [] start ((new options).startedAt latest start) := by
    have hnone : ∀ key : PublicInferenceClientKey,
        ((new options).startedAt latest start).buckets[key]? = none := fun key => by
      simp [startedAt]
    refine ⟨⟨start, le_rfl, by omega, nextCleanupAfter_le _ _ _, fun key b hb => ?_⟩,
      fun key b hb => ?_, fun key b hb => ?_, fun c hc => absurd hc List.not_mem_nil⟩
    · rw [hnone] at hb
      cases hb
    · rw [hnone] at hb
      cases hb
    · rw [hnone] at hb
      cases hb
  obtain ⟨clock, hafter⟩ := hinit.serve latest hstart horder
  rw [List.nil_append] at hafter
  obtain ⟨c, -, hlate, -, hyoung⟩ := hafter.swept
  refine ⟨(hafter.few key bucket hbucket).1, hafter.called key bucket hbucket, fun call hc => ?_⟩
  have hpast := hafter.past call hc
  have hseen := hyoung key bucket hbucket
  omega

/-- Of `idleClients`, `c` is still remembered; `a` was idle and is forgotten. -/
theorem idleClients_remembered :
    ((new onePerTwo).serve 100 ((new onePerTwo).startedAt 100 0) idleClients).1.buckets["a"]? =
        none ∧
      ([] : List ℕ).length ≤ 1 ∧ (∃ call ∈ idleClients, call.key = "c" ∧ call.now = 3) ∧
      ∀ call ∈ idleClients, call.now < 3 + 3 * (new onePerTwo).window :=
  ⟨by decide +kernel,
    remembered onePerTwo 100 0 (by decide) (by decide) "c" ⟨[], 3⟩ (by decide +kernel)⟩

/-! ### Clock values in any order -/

/-- The log of a client has the time `t`, and at least `n` after it. -/
def Holds (t n : ℕ) (log : List ℕ) : Prop :=
  ∃ front behind, log = front ++ t :: behind ∧ n ≤ behind.length

theorem Holds.prune {window t n now : ℕ} {log : List ℕ} (hw : 0 < window) (h : Holds t n log)
    (hin : now < t + window) : Holds t n (prune window now log) := by
  obtain ⟨front, behind, rfl, hn⟩ := h
  obtain ⟨front', hkept⟩ := prune_keeps hw hin behind front
  exact ⟨front', behind, hkept, hn⟩

theorem Holds.le_length {t n : ℕ} {log : List ℕ} (h : Holds t n log) : n + 1 ≤ log.length := by
  obtain ⟨front, behind, rfl, hn⟩ := h
  rw [List.length_append, List.length_cons]
  omega

/-- A call that comes before the window has passed `t` keeps it, and adds itself if accepted. -/
theorem holds_acquireAt (latest : ℕ) {limiter : PublicInferenceRateLimiter} {state : RateLimitState}
    {key : PublicInferenceClientKey} {t n : ℕ} (hw : 0 < limiter.window)
    (h : Holds t n (state.known key)) (call : RateLimitCall)
    (hin : call.now < t + limiter.window) :
    Holds t (n + 1) (prune limiter.window call.now
        ((limiter.cleanupExpiredBuckets latest state call.now).known key) ++ [call.now]) ∧
      Holds t (n + if call.key = key ∧ (limiter.acquireAt latest state call.key call.now).2.isOk
        then 1 else 0) ((limiter.acquireAt latest state call.key call.now).1.known key) := by
  have hclean : Holds t n ((limiter.cleanupExpiredBuckets latest state call.now).known key) := by
    rcases known_cleanup limiter latest state call.now key with hsame | hpruned
    · exact hsame ▸ h
    · exact hpruned ▸ h.prune hw hin
  have hpruned := hclean.prune hw hin
  have hadds : Holds t (n + 1) (prune limiter.window call.now
      ((limiter.cleanupExpiredBuckets latest state call.now).known key) ++ [call.now]) := by
    obtain ⟨front, behind, heq, hn⟩ := hpruned
    refine ⟨front, behind ++ [call.now], by rw [heq, List.append_assoc, List.cons_append], ?_⟩
    rw [List.length_append, List.length_singleton]
    omega
  refine ⟨hadds, ?_⟩
  obtain ⟨bucket, -, haccepted, hok, hstate⟩ :=
    acquireAt_buckets latest limiter state call.key call.now
  rw [hstate, known_insert]
  by_cases hkey : call.key = key
  · subst hkey
    rw [if_pos rfl]
    rcases haccepted with ⟨heq, hfull⟩ | ⟨heq, hroom⟩
    · rw [heq] at hfull ⊢
      rw [if_neg fun h => Nat.not_lt.2 hfull (hok.1 h.2)]
      exact hpruned
    · rw [heq, List.length_append, List.length_singleton] at hroom
      rw [heq, if_pos ⟨rfl, hok.2 (by omega)⟩]
      exact hadds
  · rw [if_neg hkey, if_neg fun h => hkey h.1]
    exact hclean

theorem holds_serve (latest : ℕ) {limiter : PublicInferenceRateLimiter} {key : PublicInferenceClientKey} {t : ℕ}
    (hw : 0 < limiter.window) : ∀ {calls : List RateLimitCall} {state : RateLimitState} {n : ℕ},
    Holds t n (state.known key) → (∀ call ∈ calls, call.now < t + limiter.window) →
    Holds t (n + (acceptedTimes key calls (limiter.serve latest state calls).2).length)
      ((limiter.serve latest state calls).1.known key)
  | [], _, _, h, _ => h
  | call :: calls, state, n, h, hin => by
    have hstep := (holds_acquireAt latest hw h call (hin call List.mem_cons_self)).2
    have hrest := holds_serve latest hw hstep fun c hc =>
      hin c (List.mem_cons_of_mem _ hc)
    have hcount : (acceptedTimes key (call :: calls)
        (limiter.serve latest state (call :: calls)).2).length =
          (if call.key = key ∧ (limiter.acquireAt latest state call.key call.now).2.isOk
            then 1 else 0) + (acceptedTimes key calls (limiter.serve latest
              (limiter.acquireAt latest state call.key call.now).1 calls).2).length := by
      rw [serve_cons, acceptedTimes_cons, List.length_append]
      by_cases hcall : call.key = key ∧
        (limiter.acquireAt latest state call.key call.now).2.isOk = true
      · rw [if_pos hcall, if_pos hcall, List.length_singleton]
      · rw [if_neg hcall, if_neg hcall, List.length_nil]
    rw [hcount, ← Nat.add_assoc, serve_cons]
    exact hrest

/-- In whatever order the clock values come, from whatever state: if after an accepted request of
a client `max_requests` more are accepted of it, one of the calls since has read a time at which
the window had passed the first. -/
theorem any_order (options : PublicInferenceRateLimit) (latest : ℕ) (state : RateLimitState)
    (key : PublicInferenceClientKey) (t : ℕ) (between : List RateLimitCall) (last : ℕ)
    (hfirst : ((new options).acquireAt latest state key t).2.isOk = true)
    (hcount : max options.maxRequests 1 ≤ (acceptedTimes key between ((new options).serve latest
      ((new options).acquireAt latest state key t).1 between).2).length + 1)
    (hlast : ((new options).acquireAt latest ((new options).serve latest
      ((new options).acquireAt latest state key t).1 between).1 key last).2.isOk = true) :
    ∃ call ∈ between ++ [⟨key, last⟩], t + (new options).window ≤ call.now := by
  have hw := new_window_pos options
  by_contra hnone
  have hin : ∀ call ∈ between ++ [⟨key, last⟩], call.now < t + (new options).window :=
    fun call hc => Nat.lt_of_not_le fun hle => hnone ⟨call, hc, hle⟩
  have hstart : Holds t 0 (((new options).acquireAt latest state key t).1.known key) := by
    obtain ⟨bucket, -, haccepted, hok, hstate⟩ :=
      acquireAt_buckets latest (new options) state key t
    rw [hstate, known_insert, if_pos rfl]
    rcases haccepted with ⟨heq, hfull⟩ | ⟨heq, -⟩
    · rw [heq] at hfull
      exact absurd (hok.1 hfirst) (Nat.not_lt.2 hfull)
    · exact ⟨_, [], heq, Nat.zero_le _⟩
  have hend := holds_serve latest hw hstart fun c hc =>
    hin c (List.mem_append_left _ hc)
  have hfull := (holds_acquireAt latest hw hend ⟨key, last⟩
    (hin _ (List.mem_append_right _ List.mem_cons_self))).1.le_length
  obtain ⟨-, -, -, hok, -⟩ := acquireAt_buckets latest (new options)
    ((new options).serve latest ((new options).acquireAt latest state key t).1 between).1 key last
  have hroom := hok.1 hlast
  have hmax : (new options).maxRequests = max options.maxRequests 1 := rfl
  rw [List.length_append, List.length_singleton] at hfull
  dsimp only at hfull
  omega

/-- Two requests in four nanoseconds, after a call at 3: the request of 5 is accepted, and then one
whose caller had read 4; the third is accepted as the window has passed the first. -/
theorem third_after_window :
    ∃ call ∈ ([⟨"a", 4⟩, ⟨"b", 6⟩] : List RateLimitCall) ++ [⟨"a", 9⟩],
      5 + (new ⟨2, 4⟩).window ≤ call.now :=
  any_order ⟨2, 4⟩ 100
    ((new ⟨2, 4⟩).serve 100 ((new ⟨2, 4⟩).startedAt 100 0) [⟨"b", 3⟩]).1 "a" 5
    [⟨"a", 4⟩, ⟨"b", 6⟩] 9 (by decide +kernel) (by decide +kernel) (by decide +kernel)

end Served

end KirAi.Server
