/-
# Runs of a cache on a device that may fail

Appends, clears, direct appends and staged reads in any order, with faults of
the device anywhere. As long as no step tears a row where the next plan trusts
it (`Careful`), a direct append that fails leaves the cache, and a staged read
fails or finds the window, in half precision and in int8.

Key definitions: `DeviceOp`, `DeviceRun`, `Careful`, `SafeAt`.
Key theorems: `RunOk.step`, `DeviceRun.ok`, `directAppend_failed_safe`.
-/
import KirAi.NativeRuntime.StageDeviceSound

namespace KirAi.NativeRuntime

open Lib KvCache KvCache.LayerKvCache

namespace StageKind

open DeviceM

variable {K : QuantKernels} {κ : StageKind} {Supports : LayerKvCache → Prop}
  {image : (ch : κ.Channel) → Row → List (κ.Elem ch)} {shares : Shares} {m : StageMirror κ}
  {st : DeviceState κ}

/-! ### Runs -/

/-- What can happen to a cache that has a stage; the device may fail any write of
a direct append or a staged read, `removeCacheMirrors` drops the stage, and
`elsewhere` is what other caches of the process do to the counters. -/
inductive DeviceOp (κ : StageKind) where
  | append (shares : Shares) (key value : List F32)
  | appendSliding (shares : Shares) (key value : List F32)
  | appendDirect (shares : Shares) (garbage : Garbage κ) (fault : AppendFaults) (key value : List F32)
  | clear (shares : Shares)
  | stagedRead (garbage : Garbage κ) (fault : Fault) (rowCount : ℕ)
  | removeCacheMirrors
  | elsewhere (rt : Statics)

/-- Whether an operation succeeded, and the state that it leaves. -/
def outcome {α : Type} : EStateM.Result MetalError (DeviceState κ) α → Bool × DeviceState κ
  | .ok _ st => (true, st)
  | .error _ st => (false, st)

namespace DeviceOp

def run (K : QuantKernels) : DeviceOp κ → DeviceState κ → Bool × DeviceState κ
  | append shares key value, st => outcome (onCache (appendWithMetadata K shares key value) st)
  | appendSliding shares key value, st =>
    outcome (onCache (appendSlidingWithMetadata K shares key value) st)
  | appendDirect shares garbage fault key value, st =>
    outcome (κ.appendKvCacheSlidingDirect K shares garbage fault key value st)
  | clear shares, st => (true, ⟨LayerKvCache.clear shares st.layer, st.stage⟩)
  | stagedRead garbage fault rowCount, st => outcome (κ.stagedRows garbage fault rowCount st)
  | removeCacheMirrors, st => (true, ⟨st.layer, none⟩)
  | elsewhere rt, st => (true, ⟨⟨st.layer.cache, rt⟩, st.stage⟩)

/-- The rows accepted since the last clear. -/
def rowsAfter (rows : List Row) : DeviceOp κ → Bool → List Row
  | append _ key value, true => rows ++ [(key, value)]
  | appendSliding _ key value, true => rows ++ [(key, value)]
  | appendDirect _ _ _ key value, true => rows ++ [(key, value)]
  | clear _, _ => []
  | _, _ => rows

end DeviceOp

/-- The states of a cache with its stage, from a cache that has none, with the
rows accepted since the last clear. -/
inductive DeviceRun (K : QuantKernels) (allowed : DeviceState κ → DeviceOp κ → Prop) :
    DeviceState κ → List Row → Prop where
  | start {s : LayerState} {rows : List Row} : Reach K s rows →
      DeviceRun K allowed ⟨s, none⟩ rows
  | step {st : DeviceState κ} {rows : List Row} (op : DeviceOp κ) : DeviceRun K allowed st rows →
      allowed st op → DeviceRun K allowed (op.run K st).2 (op.rowsAfter rows (op.run K st).1)

/-- The steps after which the counters can be trusted: no direct append tears its
row where it is trusted, no staged read comes after a clear that the plan does
not see, and the revision is not saturated. -/
def Careful (st : DeviceState κ) : DeviceOp κ → Prop
  | .stagedRead _ _ _ => st.layer.cache.revision < wordMax ∧
      ∀ m, st.stage = some m → ¬ Missed st.layer.cache m
  | .appendDirect _ _ fault key value => st.layer.cache.revision < wordMax ∧
      ¬ Tears fault (key, value) st
  | _ => True

variable {rows : List Row} {layer' : LayerState} {key value : List F32}

/-- A row that the cache takes outside of the stage. -/
theorem StageOk.accepted (hok : StageOk image st (rows.rtake st.layer.cache.maxTokens))
    (hr : Reach K st.layer rows)
    (ha : AppendedAtEnd K shares st.layer (key, value) layer' ∨
      Slid K shares st.layer (key, value) layer') :
    StageOk image ⟨layer', st.stage⟩ ((rows ++ [(key, value)]).rtake layer'.cache.maxTokens) := by
  obtain ⟨hw, hseen⟩ := hr.window
  have hw' := (hw.accepted hseen ha).1
  intro m hm
  rcases ha with ha | ha
  · have := (hok m hm).advance (advanced_of_appended hw ha).1 (by omega)
    rwa [window_unique (hw.appended ha) hw'] at this
  · have := (hok m hm).advance (advanced_of_slid hw ha).1 (by omega)
    rwa [window_unique (hw.slid ha) hw'] at this

/-- What holds in every state of a careful run. -/
structure RunOk (K : QuantKernels) (image : (ch : κ.Channel) → Row → List (κ.Elem ch))
    (st : DeviceState κ) (rows : List Row) : Prop where
  reach : Reach K st.layer rows
  stage : StageOk image st (rows.rtake st.layer.cache.maxTokens)

/-- One careful step. -/
theorem RunOk.step (hκ : Lawful K κ Supports image) (op : DeviceOp κ) (h : RunOk K image st rows)
    (hcare : Careful st op) :
    RunOk K image (op.run K st).2 (op.rowsAfter rows (op.run K st).1) := by
  obtain ⟨hr, hok⟩ := h
  obtain ⟨hw, hseen⟩ := hr.window
  cases op with
  | append shares key value =>
    cases hres : appendWithMetadata K shares key value st.layer with
    | ok m layer' =>
      simp only [DeviceOp.run, onCache, hres, outcome, DeviceOp.rowsAfter]
      exact ⟨.append hr hres, hok.accepted hr (.inl (appendWithMetadata_ok hw hres).1)⟩
    | error e layer' =>
      obtain ⟨rfl, -⟩ := appendWithMetadata_error hw hres
      simp only [DeviceOp.run, onCache, hres, outcome, DeviceOp.rowsAfter]
      exact ⟨hr, hok⟩
  | appendSliding shares key value =>
    cases hres : appendSlidingWithMetadata K shares key value st.layer with
    | ok m layer' =>
      have ha := (appendSlidingWithMetadata_ok hw hres).imp And.left And.left
      simp only [DeviceOp.run, onCache, hres, outcome, DeviceOp.rowsAfter]
      exact ⟨.appendSliding hr hres, hok.accepted hr ha⟩
    | error e layer' =>
      obtain ⟨rfl, -⟩ := appendSlidingWithMetadata_error hw hres
      simp only [DeviceOp.run, onCache, hres, outcome, DeviceOp.rowsAfter]
      exact ⟨hr, hok⟩
  | appendDirect shares garbage fault key value =>
    have hleaves := (appendDirect_cases K image shares hκ garbage fault (key, value) hw hok).leaves
      hκ hw hok hcare.1 hcare.2
    dsimp only at hleaves
    cases hres : κ.appendKvCacheSlidingDirect K shares garbage fault key value st with
    | error e st' =>
      rw [hres] at hleaves
      obtain ⟨hlayer, hok'⟩ := hleaves
      simp only [DeviceOp.run, hres, outcome, DeviceOp.rowsAfter]
      exact ⟨hlayer ▸ hr, hlayer ▸ hok'⟩
    | ok u st' =>
      rw [hres] at hleaves
      obtain ⟨append, W', happ, hw', hok'⟩ := hleaves
      simp only [DeviceOp.run, hres, outcome, DeviceOp.rowsAfter]
      have hr' := Reach.appendSliding hr happ
      refine ⟨hr', ?_⟩
      rw [← window_unique hw' hr'.window.1]
      exact hok'
  | clear shares =>
    refine ⟨.clear shares hr, fun m hm => ?_⟩
    rw [DeviceOp.rowsAfter, List.rtake_nil]
    exact (hok m hm).clear
  | stagedRead garbage fault n =>
    rcases stagedRows_cases hκ garbage fault n hw hok hcare.1 hcare.2 with
      ⟨e, st', hres, hlayer, hok'⟩ | ⟨found, st', hres, hlayer, hok', -⟩
    · simp only [DeviceOp.run, hres, outcome, DeviceOp.rowsAfter]
      exact ⟨hlayer ▸ hr, hlayer ▸ hok'⟩
    · simp only [DeviceOp.run, hres, outcome, DeviceOp.rowsAfter]
      exact ⟨hlayer ▸ hr, hlayer ▸ hok'⟩
  | removeCacheMirrors => exact ⟨hr, fun m hm => by cases hm⟩
  | elsewhere rt => exact ⟨.elsewhere rt hr, hok⟩

/-- The run lemma. -/
theorem DeviceRun.ok (hκ : Lawful K κ Supports image) (h : DeviceRun K Careful st rows) :
    RunOk K image st rows := by
  induction h with
  | start hr => exact ⟨hr, fun m hm => by cases hm⟩
  | step op _ hcare ih => exact ih.step hκ op hcare

/-- A failed direct append leaves the cache; a staged read that succeeds finds
the window, and a plan leaves out only rows that are held. -/
structure SafeAt (K : QuantKernels) (image : (ch : κ.Channel) → Row → List (κ.Elem ch))
    (st : DeviceState κ) (W : List Row) : Prop where
  unchanged : ∀ shares garbage fault key value e st',
    κ.appendKvCacheSlidingDirect K shares garbage fault key value st = .error e st' →
    st'.layer = st.layer
  reads : ∀ garbage fault n found st', Careful st (.stagedRead garbage fault n) →
    κ.stagedRows garbage fault n st = .ok found st' →
    st'.layer = st.layer ∧ Finds image st.layer.cache W n found
  trusted : st.layer.cache.revision < wordMax → ∀ m, st.stage = some m →
    ¬ Missed st.layer.cache m → PlanSound image st.layer.cache W m (plan m st.layer.cache)

theorem RunOk.safe (hκ : Lawful K κ Supports image) (h : RunOk K image st rows) :
    SafeAt K image st (rows.rtake st.layer.cache.maxTokens) := by
  have hw := h.reach.window.1
  refine ⟨fun shares garbage fault key value e st' hres => ?_,
    fun garbage fault n found st' hcare hres => ?_,
    fun hrev m hm hmiss => plan_sound hw (h.stage m hm) hrev hmiss⟩
  · have hcases := appendDirect_cases K image shares hκ garbage fault (key, value) hw h.stage
    dsimp only at hcases
    rw [hres] at hcases
    cases hcases <;> rfl
  · rcases stagedRows_cases hκ garbage fault n hw h.stage hcare.1 hcare.2 with
      ⟨e, st₁, hres', -⟩ | ⟨found', st₁, hres', hlayer, -, hfinds⟩
    · rw [hres'] at hres
      cases hres
    · rw [hres'] at hres
      cases hres
      exact ⟨hlayer, hfinds⟩

/-- **Failed direct appends, half-precision and int8.** In every run of careful
steps, with device faults anywhere, a direct append that fails leaves the cache
as it was and a staged read fails or finds the window. -/
theorem directAppend_failed_safe (K : QuantKernels) (toF16 : F32 → BitVec 16) :
    (∀ (st : DeviceState (f16Kind toF16)) rows, DeviceRun K Careful st rows →
      SafeAt K (f16Image toF16) st (rows.rtake st.layer.cache.maxTokens)) ∧
    ∀ (st : DeviceState (int8Kind K)) rows, DeviceRun K Careful st rows →
      SafeAt K (int8Image K) st (rows.rtake st.layer.cache.maxTokens) :=
  ⟨fun _ _ h => (h.ok (f16Kind_lawful K toF16)).safe (f16Kind_lawful K toF16),
    fun _ _ h => (h.ok (int8Kind_lawful K)).safe (int8Kind_lawful K)⟩

/-! ### A row torn before the window is full, and one torn after -/

/-- The device stops the row of a direct append at its write `i`. -/
def stopAt (i : ℕ) : AppendFaults where
  rebuild _ := none
  row j := if j = i then
    some (.invalidShape "non-empty f16 buffer range write requires a Metal buffer") else none

def noFault : AppendFaults where
  rebuild _ := none
  row _ := none

/-- A device whose new buffers are zeros. -/
def zeros : Garbage (f16Kind exactF16) := fun _ _ => 0#16

/-- Half-precision direct appends to a cache of rows of one number. -/
def directOp (fault : AppendFaults) (key value : BitVec 32) : DeviceOp (f16Kind exactF16) :=
  .appendDirect (fun _ => 0) zeros fault [⟨key⟩] [⟨value⟩]

/-- The row 1, 2 appended, then 3, 4, which the device stops after the first
write. -/
def afterFirst (s : LayerState) : Bool × DeviceState (f16Kind exactF16) :=
  (directOp noFault 0x3f800000 0x40000000).run .onZeroRows ⟨s, none⟩

def afterStop (s : LayerState) : Bool × DeviceState (f16Kind exactF16) :=
  (directOp (stopAt 1) 0x40400000 0x40800000).run .onZeroRows (afterFirst s).2

/-- The keys that a staged read of one row finds. -/
def firstKeys (st : DeviceState (f16Kind exactF16)) : Option (List (BitVec 16)) :=
  match (f16Kind exactF16).stagedRows zeros (fun _ => none) 1 st with
  | .ok found _ => some (slice (found.1 F16Channel.keys) (found.2 F16Channel.keys)
      (found.2 F16Channel.keys + 1 * st.layer.cache.vectorLen))
  | .error _ _ => none

/-- The numbers that say whether a step is careful. -/
def guards (st : DeviceState (f16Kind exactF16)) : List ℕ :=
  [st.layer.cache.revision, st.layer.cache.tokensSeen, st.layer.cache.tokenCount,
    st.layer.cache.maxTokens, (st.stage.map (·.tokensSeenAtLastSync)).getD 0]

/-- What the two appends did, with the guards before and after each, and the keys
that are read then. -/
structure StopReport where
  before : List ℕ
  firstTaken : Bool
  between : List ℕ
  secondTaken : Bool
  after : List ℕ
  keys : Option (List (BitVec 16))
deriving DecidableEq

def stopReport (s : LayerState) : StopReport where
  before := guards ⟨s, none⟩
  firstTaken := (afterFirst s).1
  between := guards (afterFirst s).2
  secondTaken := (afterStop s).1
  after := guards (afterStop s).2
  keys := firstKeys (afterStop s).2

/-- A new cache with a window of `n` rows. -/
def newRows (n : ℕ) : Except KvCacheError (LayerKvCache × Statics) :=
  newWithConfig n 1 1 .f32 .initial

theorem stopReport_of_new {n : ℕ} {r : StopReport}
    (h : (newRows n).toOption.map (fun p => stopReport ⟨p.1, p.2⟩) = some r) :
    ∃ s, Reach .onZeroRows s [] ∧ stopReport s = r := by
  obtain ⟨p, hp, hs⟩ := Option.map_eq_some_iff.mp h
  cases hnew : newRows n with
  | error e =>
    rw [hnew] at hp
    cases hp
  | ok q =>
    rw [hnew] at hp
    cases hp
    exact ⟨_, .new hnew, hs⟩

/-- The states before and after the second append, when the first was taken and
the second was not. -/
theorem stopReport_run {a : DeviceState (f16Kind exactF16) → DeviceOp (f16Kind exactF16) → Prop} {s : LayerState} (hr : Reach .onZeroRows s []) (h1 : (stopReport s).firstTaken = true)
    (h2 : (stopReport s).secondTaken = false)
    (ha1 : a ⟨s, none⟩ (directOp noFault 0x3f800000 0x40000000))
    (ha2 : a (afterFirst s).2 (directOp (stopAt 1) 0x40400000 0x40800000)) :
    DeviceRun .onZeroRows a (afterStop s).2 [([⟨0x3f800000⟩], [⟨0x40000000⟩])] := by
  have hfirst := DeviceRun.step _ (.start hr) ha1
  have hsecond := DeviceRun.step _ hfirst ha2
  change (afterFirst s).1 = true at h1
  change (afterStop s).1 = false at h2
  change DeviceRun _ _ (afterStop s).2 (DeviceOp.rowsAfter (DeviceOp.rowsAfter _ _ (afterFirst s).1) _
    (afterStop s).1) at hsecond
  rw [h1, h2] at hsecond
  exact hsecond

theorem guards_eq {st : DeviceState (f16Kind exactF16)} {a b n d e : ℕ}
    (h : guards st = [a, b, n, d, e]) : st.layer.cache.revision = a ∧ st.layer.cache.tokensSeen = b ∧
      st.layer.cache.tokenCount = n ∧ st.layer.cache.maxTokens = d ∧
      (st.stage.map (·.tokensSeenAtLastSync)).getD 0 = e := by
  simpa [guards] using h

/-- A direct append to a window that is not full is careful. -/
theorem careful_of_guards {st : DeviceState (f16Kind exactF16)} {a b n d e : ℕ}
    (h : guards st = [a, b, n, d, e]) (ha : a < wordMax) (hn : n < d) (fault : AppendFaults)
    (key value : BitVec 32) : Careful st (directOp fault key value) := by
  obtain ⟨hrev, -, hcount, hmax, -⟩ := guards_eq h
  exact ⟨by omega, fun ht => ht.full (by omega)⟩

/-- A window of two: the torn slot is past its end, and the first row is read. -/
theorem directAppend_failed_safe_before_full : ∃ (st : DeviceState (f16Kind exactF16)) (rows : List Row),
    rows.length = 1 ∧ DeviceRun .onZeroRows Careful st rows ∧ firstKeys st = some [0x3c00] ∧
    SafeAt .onZeroRows (f16Image exactF16) st (rows.rtake st.layer.cache.maxTokens) := by
  obtain ⟨s, hr, hs⟩ := stopReport_of_new (n := 2) (r := ⟨[0, 0, 0, 2, 0], true, [1, 1, 1, 2, 1],
    false, [1, 1, 1, 2, 1], some [0x3c00]⟩) (by decide +kernel)
  have hrun : DeviceRun .onZeroRows Careful (afterStop s).2 [([⟨0x3f800000⟩], [⟨0x40000000⟩])] :=
    stopReport_run hr (by rw [hs]) (by rw [hs])
      (careful_of_guards (congrArg StopReport.before hs) (by decide) (by decide) ..)
      (careful_of_guards (congrArg StopReport.between hs) (by decide) (by decide) ..)
  exact ⟨_, _, rfl, hrun, congrArg StopReport.keys hs,
    (directAppend_failed_safe .onZeroRows exactF16).1 _ _ hrun⟩

/-- A window of one: the second row's keys are over those of the first when the
device stops, the stage is still at the cache's revision, and the next staged
read finds them. -/
theorem directAppend_failed_torn :
    ¬ ∀ (st : DeviceState (f16Kind exactF16)) (rows : List Row),
      DeviceRun .onZeroRows (fun st _ => st.layer.cache.revision < wordMax) st rows →
      SafeAt .onZeroRows (f16Image exactF16) st (rows.rtake st.layer.cache.maxTokens) := by
  intro hall
  obtain ⟨s, hr, hs⟩ := stopReport_of_new (n := 1) (r := ⟨[0, 0, 0, 1, 0], true, [1, 1, 1, 1, 1],
    false, [1, 1, 1, 1, 1], some [0x4200]⟩) (by decide +kernel)
  have hrun := stopReport_run (a := fun st _ => st.layer.cache.revision < wordMax) hr
    (by rw [hs]) (by rw [hs])
    (by rw [(guards_eq (congrArg StopReport.before hs)).1]; decide)
    (by rw [(guards_eq (congrArg StopReport.between hs)).1]; decide)
  obtain ⟨hrev, hseen, -, hmax, hsync⟩ := guards_eq (congrArg StopReport.after hs)
  have hkeys : firstKeys (afterStop s).2 = some [0x4200] := congrArg StopReport.keys hs
  have hcare : Careful (afterStop s).2 (.stagedRead zeros (fun _ => none) 1) := by
    refine ⟨by rw [hrev]; decide, fun m hm hmiss => ?_⟩
    obtain ⟨rev, -, hlt, -⟩ := hmiss
    rw [hm, Option.map_some, Option.getD_some] at hsync
    omega
  unfold firstKeys at hkeys
  cases hres : (f16Kind exactF16).stagedRows zeros (fun _ => none) 1 (afterStop s).2 with
  | error e st' =>
    rw [hres] at hkeys
    cases hkeys
  | ok found st' =>
    rw [hres] at hkeys
    have hfinds := ((hall _ _ hrun).reads zeros (fun _ => none) 1 found st' hcare hres).2 F16Channel.keys
    rw [hmax] at hfinds
    have hread : some _ = some [0x4200#16] := (congrArg some hfinds).symm.trans hkeys
    revert hread
    decide

end StageKind
end KirAi.NativeRuntime
