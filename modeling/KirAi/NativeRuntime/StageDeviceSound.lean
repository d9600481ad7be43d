/-
# What a failed direct append leaves to the staged reads

A direct append writes its row into the stage before the cache takes it, and
touches the counters of the last sync only when all went well. As long as the
window is not full the slot is past its end, and a torn row is read by nobody.
When it is full the slot is that of the oldest row: the next plan sees the tear
only if it writes the window from its first row on (`Tears`); a stage at the
cache's revision is read as it is.

Key definitions: `Held`, `StageInv`, `DirectAppend`, `Tears`.
Key theorems: `plan_sound`, `stagedRows_cases`, `appendDirect_cases`,
`DirectAppend.leaves`.
-/
import KirAi.NativeRuntime.StageDeviceWrites

namespace KirAi.NativeRuntime

open Lib KvCache KvCache.LayerKvCache

namespace StageKind

open DeviceM

variable {K : QuantKernels} {κ : StageKind} {Supports : LayerKvCache → Prop}
  {image : (ch : κ.Channel) → Row → List (κ.Elem ch)} {shares : Shares}
  {c c' : LayerKvCache} {W W' : List Row} {m m' : StageMirror κ} {st st' : DeviceState κ} {r : Row}
  {ws : List (ChannelWrite κ.Elem)} {target : Target κ}

/-! ### Rows held by a stage -/

/-- A stage of a cache has the shape the code asks for. -/
abbrev Shaped (c : LayerKvCache) (m : StageMirror κ) : Prop :=
  isFor m c fun ch => 2 * c.maxTokens * κ.width ch c.vectorLen

/-- The first `n` rows of the window are in every buffer, at both their places. -/
def Held (image : (ch : κ.Channel) → Row → List (κ.Elem ch)) (c : LayerKvCache) (W : List Row)
    (m : StageMirror κ) (n : ℕ) : Prop :=
  ∀ ch i r p, i < n → W[i]? = some r → Place c i p →
    row (m.buffers ch) (κ.width ch c.vectorLen) p = image ch r

theorem Held.zero : Held image c W m 0 := fun _ _ _ _ hi => absurd hi (Nat.not_lt_zero _)

theorem Held.mono {n n' : ℕ} (h : Held image c W m n) (hn : n' ≤ n) : Held image c W m n' :=
  fun ch i r p hi => h ch i r p (by omega)

/-- The rows of the window from `a` on, at their places. -/
def windowTarget (image : (ch : κ.Channel) → Row → List (κ.Elem ch)) (c : LayerKvCache)
    (W : List Row) (a : ℕ) : Target κ := fun ch => stageTarget c W a c.tokenCount (image ch)

theorem windowTarget_bounded (a : ℕ) : (windowTarget image c W a).Bounded c.maxTokens :=
  fun _ _ _ => stageTarget_lt

theorem windowTarget_eq (h : Window K c W) {a i p : ℕ} {ch : κ.Channel} {x : List (κ.Elem ch)}
    (hr : W[i]? = some r) (hp : Place c i p) (hx : windowTarget image c W a ch p = some x) :
    x = image ch r := by
  have hi := (List.getElem?_eq_some_iff.mp hr).1
  have hcount := h.count_le
  rw [h.length] at hi
  unfold windowTarget stageTarget at hx
  obtain ⟨j, -, -, hj, hrow, hpj⟩ := mirrored_some h.start_lt hx
  have hij : i = j := by
    by_contra hne
    exact hp.ne h.toLayout (by omega) hj hne hpj rfl
  rw [← hij, hr, Option.map_some, Option.some.injEq] at hrow
  exact hrow.symm

theorem entry_stage (layer : LayerState) (m : StageMirror κ) :
    (⟨layer, some m⟩ : DeviceState κ).stage = some m := rfl

section Lawful

variable (hκ : Lawful K κ Supports image)

include hκ

theorem Lawful.rings (hm : Shaped c m) : Rings c.maxTokens c.vectorLen m :=
  fun ch => hm.2.2.2 ch (hκ.complete ch)

theorem Lawful.lens_le (h : Layout c) (ch : κ.Channel) :
    2 * c.maxTokens * κ.width ch c.vectorLen ≤ wordMax :=
  le_trans (Nat.mul_le_mul_left _ (hκ.width_le ch h.vec_pos)) (stage_words h).1

/-- Writes of rows where they belong keep the shape of the stage, and the rows
held if what is written over them is the same. -/
theorem Held.rewritten {n : ℕ} (h : Layout c) (hp : Puts c.vectorLen target ws)
    (hb : target.Bounded c.maxTokens) (hm : Shaped c m)
    (hsame : ∀ ch i r p x, i < n → W[i]? = some r → Place c i p → target ch p = some x →
      x = image ch r) (hheld : Held image c W m n) :
    Shaped c (written ws m) ∧ Held image c W (written ws m) n := by
  obtain ⟨hrings, hrows⟩ := hp.rows (fun ch => hκ.width_pos ch h.vec_pos) hb (hκ.rings hm)
  refine ⟨⟨hm.1, hm.2.1, hm.2.2.1, fun ch _ => hrings ch⟩, fun ch i r p hi hr hpl => ?_⟩
  rcases (hrows ch p).1 with hput | hkeep
  · exact hsame ch i r p _ hi hr hpl hput
  · exact hkeep.trans (hheld ch i r p hi hr hpl)

/-- Part of the writes of a range. -/
theorem Held.rewritten_window {n a : ℕ} (h : Window K c W)
    (hp : Puts c.vectorLen (windowTarget image c W a) ws) (hm : Shaped c m)
    (hheld : Held image c W m n) :
    Shaped c (written ws m) ∧ Held image c W (written ws m) n :=
  hheld.rewritten hκ h.toLayout hp (windowTarget_bounded a) hm
    fun _ _ _ _ _ _ hr hpl hx => windowTarget_eq h hr hpl hx

/-- All writes of a range, into a stage that holds the rows before it. -/
theorem Held.written {a : ℕ} (h : Window K c W) (hm : Shaped c m) (hheld : Held image c W m a)
    (hrows : ∀ ch, StageRows c W a c.tokenCount (κ.width ch c.vectorLen) (image ch)
      (writesTo ch ws)) :
    Shaped c (written ws m) ∧ Held image c W (written ws m) W.length := by
  have hp : Puts c.vectorLen (windowTarget image c W a) ws := fun ch => (hrows ch).rows
  obtain ⟨hs, hbefore⟩ := hheld.rewritten_window hκ h hp hm
  refine ⟨hs, fun ch i r p hi hr hpl => ?_⟩
  rcases Nat.lt_or_ge i a with hia | hia
  · exact hbefore ch i r p hia hr hpl
  · rw [h.length] at hi
    obtain ⟨hslot, hmirror⟩ := (hrows ch).cover i hia hi
    have hin : ∃ w ∈ writesTo ch ws, InWrite (κ.width ch c.vectorLen) w.1 w.2 p := by
      rcases hpl with rfl | rfl
      · exact hslot
      · exact hmirror
    have hput := ((hp.rows (fun ch => hκ.width_pos ch h.vec_pos) (windowTarget_bounded a)
      (hκ.rings hm)).2 ch p).2 hin
    exact windowTarget_eq h hr hpl hput

/-- A list of writes that stay inside the stage, as far as the device makes them. -/
theorem writeAll_shaped (h : Layout c) (hst : st.stage = some m) (hm : Shaped c m)
    (hp : Puts c.vectorLen target ws) (hb : target.Bounded c.maxTokens) (fault : Fault) :
    ((∀ k, k < ws.length → fault k = none) ∧
      writeAll fault 0 ws st = .ok () ⟨st.layer, some (written ws m)⟩) ∨
    ∃ k e, k < ws.length ∧ fault k = some e ∧ (∀ j, j < k → fault j = none) ∧
      writeAll fault 0 ws st = .error e ⟨st.layer, some (written (ws.take k) m)⟩ := by
  have hcases := writeAll_cases (hκ.lens_le h) fault ws 0 m st hst (hκ.rings hm) (hp.fits hb)
  simp only [Nat.zero_add] at hcases
  exact hcases

end Lawful

/-! ### What the counters promise -/

/-- The counters of the last sync. -/
def counters (m : StageMirror κ) : Option ℕ × ℕ × ℕ :=
  (m.revisionAtLastSync, m.tokensSeenAtLastSync, m.tokenCountAtLastSync)

/-- The revision moved on with the rows seen since the sync at `rev`. -/
structure InStep (c : LayerKvCache) (m : StageMirror κ) (rev : ℕ) : Prop where
  synced : m.revisionAtLastSync = some rev
  unsaturated : c.revision < wordMax
  seen : m.tokensSeenAtLastSync ≤ c.tokensSeen
  moved : c.revision = rev + (c.tokensSeen - m.tokensSeenAtLastSync)

/-- The invariant of the stage of a cache that holds the window `W`. -/
structure StageInv (image : (ch : κ.Channel) → Row → List (κ.Elem ch)) (c : LayerKvCache)
    (W : List Row) (m : StageMirror κ) : Prop where
  shaped : Shaped c m
  moved : ∀ rev, m.revisionAtLastSync = some rev → c.revision < wordMax →
    rev + (c.tokensSeen - m.tokensSeenAtLastSync) ≤ c.revision
  unmoved : m.revisionAtLastSync = some c.revision → c.revision < wordMax →
    m.tokensSeenAtLastSync = c.tokensSeen
  grown : ∀ rev, InStep c m rev → m.tokenCountAtLastSync ≤ c.tokenCount
  held : ∀ rev, InStep c m rev →
    Held image c W m (c.tokenCount - (c.tokensSeen - m.tokensSeenAtLastSync))

/-- A clear that the plan does not see. -/
def Missed (c : LayerKvCache) (m : StageMirror κ) : Prop :=
  ∃ rev, m.revisionAtLastSync = some rev ∧ m.tokensSeenAtLastSync < c.tokensSeen ∧
    c.tokensSeen - m.tokensSeenAtLastSync < c.tokenCount ∧
    rev + (c.tokensSeen - m.tokensSeenAtLastSync) < c.revision

/-- The rows that a plan does not write are held. -/
def PlanSound (image : (ch : κ.Channel) → Row → List (κ.Elem ch)) (c : LayerKvCache)
    (W : List Row) (m : StageMirror κ) : MetalStageSyncPlan → Prop
  | .clean => Held image c W m W.length
  | .write logicalStart logicalEnd _ => logicalEnd = c.tokenCount ∧ Held image c W m logicalStart

/-- A stage at the cache's revision holds the whole window. -/
theorem StageInv.held_all (hinv : StageInv image c W m) (hlen : W.length = c.tokenCount)
    (hclean : m.revisionAtLastSync = some c.revision) (hrev : c.revision < wordMax) :
    Held image c W m W.length := by
  have hseen := hinv.unmoved hclean hrev
  have hheld := hinv.held _ ⟨hclean, hrev, le_of_eq hseen, by rw [hseen]; omega⟩
  rwa [hseen, Nat.sub_self, Nat.sub_zero, ← hlen] at hheld

theorem plan_sound (h : Window K c W) (hinv : StageInv image c W m) (hrev : c.revision < wordMax)
    (hmiss : ¬ Missed c m) : PlanSound image c W m (plan m c) := by
  unfold plan kvStageSyncPlan nextPosition
  dsimp only
  by_cases hclean : m.revisionAtLastSync = some c.revision
  · rw [if_pos hclean]
    exact hinv.held_all h.length hclean hrev
  · rw [if_neg hclean]
    by_cases hfull : m.revisionAtLastSync.isNone ∨ c.tokensSeen < m.tokensSeenAtLastSync ∨
        c.tokenCount < m.tokenCountAtLastSync
    · rw [if_pos hfull]
      exact ⟨rfl, Held.zero⟩
    · rw [if_neg hfull]
      by_cases hdirty : c.tokensSeen - m.tokensSeenAtLastSync = 0 ∨
          c.tokensSeen - m.tokensSeenAtLastSync > c.tokenCount
      · rw [if_pos hdirty]
        exact ⟨rfl, Held.zero⟩
      · rw [if_neg hdirty]
        refine ⟨rfl, ?_⟩
        -- an incremental write: either it writes all rows, or no clear came between
        obtain ⟨hsome, hseen⟩ := not_or.mp hfull
        obtain ⟨rev, hrev'⟩ := Option.isSome_iff_exists.mp
          (Option.isNone_eq_false_iff.mp (Bool.eq_false_iff.mpr hsome))
        by_cases hall : c.tokensSeen - m.tokensSeenAtLastSync = c.tokenCount
        · rw [hall, Nat.sub_self]
          exact Held.zero
        · have hmoved := hinv.moved rev hrev' hrev
          refine hinv.held rev ⟨hrev', hrev, by omega, ?_⟩
          by_contra hne
          exact hmiss ⟨rev, hrev', by omega, by omega, by omega⟩

/-- The next plan writes the window from its first row on. -/
def PlansAll (m : StageMirror κ) (c : LayerKvCache) : Prop :=
  ∃ logicalEnd full, plan m c = .write 0 logicalEnd full

/-- When the next plan writes all rows, the counters promise none. -/
theorem StageInv.promises_none (hinv : StageInv image c W m) (hall : PlansAll m c) {rev : ℕ}
    (hstep : InStep c m rev) : c.tokenCount - (c.tokensSeen - m.tokensSeenAtLastSync) = 0 := by
  obtain ⟨logicalEnd, full, hplan⟩ := hall
  have hgrown := hinv.grown rev hstep
  have hseen := hstep.seen
  have hmoved := hstep.moved
  unfold plan kvStageSyncPlan nextPosition at hplan
  dsimp only at hplan
  by_cases hclean : m.revisionAtLastSync = some c.revision
  · rw [if_pos hclean] at hplan
    cases hplan
  · have hdiff : c.tokensSeen - m.tokensSeenAtLastSync ≠ 0 := fun h0 => hclean (by
      rw [hmoved, h0]
      exact hstep.synced)
    rw [if_neg hclean, if_neg (by rw [hstep.synced]; simp; omega)] at hplan
    by_cases hdirty : c.tokensSeen - m.tokensSeenAtLastSync > c.tokenCount
    · omega
    · rw [if_neg (by omega)] at hplan
      injection hplan

/-! ### The invariant under changes of the stage and the cache -/

/-- A stage with other rows and the same counters. -/
theorem StageInv.rewritten (hinv : StageInv image c W m) (hs : Shaped c m')
    (hcounters : counters m' = counters m)
    (hheld : ∀ rev, InStep c m rev →
      Held image c W m' (c.tokenCount - (c.tokensSeen - m.tokensSeenAtLastSync))) :
    StageInv image c W m' := by
  obtain ⟨hrev, hseen, hcount⟩ : m'.revisionAtLastSync = m.revisionAtLastSync ∧
      m'.tokensSeenAtLastSync = m.tokensSeenAtLastSync ∧
      m'.tokenCountAtLastSync = m.tokenCountAtLastSync := by
    simpa [counters] using hcounters
  have hstep : ∀ rev, InStep c m' rev → InStep c m rev := fun rev h =>
    ⟨hrev ▸ h.synced, h.unsaturated, hseen ▸ h.seen, hseen ▸ h.moved⟩
  refine ⟨hs, ?_, ?_, fun rev h => ?_, fun rev h => ?_⟩
  · rw [hrev, hseen]
    exact hinv.moved
  · rw [hrev, hseen]
    exact hinv.unmoved
  · rw [hcount]
    exact hinv.grown rev (hstep rev h)
  · rw [hseen]
    exact hheld rev (hstep rev h)

theorem Held.advance {δ n : ℕ} (n' : ℕ) (ha : Advanced δ c W r c' W') (hheld : Held image c W m n)
    (hn : ∀ i, i < n' → i + δ < n) (hn' : n' < c'.tokenCount) : Held image c' W' m n' := by
  intro ch i x p hi hx hp
  obtain ⟨hw, hslot⟩ := ha.old i (by omega)
  rw [hw] at hx
  rw [ha.vectorLen]
  refine hheld ch (i + δ) x p (hn i hi) hx ?_
  unfold Place at hp ⊢
  rwa [hslot, ha.maxTokens] at hp

theorem shaped_advance {δ : ℕ} (ha : Advanced δ c W r c' W') (hm : Shaped c m) : Shaped c' m := by
  unfold Shaped isFor at hm ⊢
  rw [ha.id, ha.maxTokens, ha.vectorLen]
  exact hm

/-- A row that the cache takes outside of the stage. -/
theorem StageInv.advance {δ : ℕ} (hinv : StageInv image c W m) (ha : Advanced δ c W r c' W')
    (hδ : δ ≤ 1) : StageInv image c' W' m := by
  have hcount := ha.count
  have hpos := ha.count_pos
  -- in step now, in step before
  have hback : ∀ rev, InStep c' m rev → InStep c m rev ∧
      c'.tokensSeen - m.tokensSeenAtLastSync = c.tokensSeen - m.tokensSeenAtLastSync + 1 := by
    intro rev h
    have hlt := h.unsaturated
    have hseen := h.seen
    have hmoved := h.moved
    rw [ha.revision] at hlt hmoved
    rw [ha.tokensSeen] at hseen hmoved ⊢
    obtain ⟨h1, h2⟩ := satAdd_lt_wordMax hlt
    have hbound := hinv.moved rev h.synced h2
    exact ⟨⟨h.synced, h2, by omega, by omega⟩, by omega⟩
  refine ⟨shaped_advance ha hinv.shaped, fun rev hr hlt => ?_, fun hr hlt => ?_, fun rev h => ?_,
    fun rev h => ?_⟩
  · rw [ha.revision] at hlt ⊢
    rw [ha.tokensSeen]
    obtain ⟨h1, h2⟩ := satAdd_lt_wordMax hlt
    have := hinv.moved rev hr h2
    omega
  · rw [ha.revision] at hr hlt
    obtain ⟨h1, h2⟩ := satAdd_lt_wordMax hlt
    have := hinv.moved _ hr h2
    omega
  · have := hinv.grown rev (hback rev h).1
    omega
  · obtain ⟨hstep, hdiff⟩ := hback rev h
    rw [hdiff]
    exact (hinv.held rev hstep).advance _ ha (fun i hi => by omega) (by omega)

/-- A clear moves the revision and takes `tokens_seen` back. -/
theorem StageInv.clear {s : LayerState} (hinv : StageInv image s.cache W m) :
    StageInv image (LayerKvCache.clear shares s).cache [] m := by
  have hrev : (LayerKvCache.clear shares s).cache.revision = satAdd s.cache.revision 1 := rfl
  have hseen : (LayerKvCache.clear shares s).cache.tokensSeen = 0 := rfl
  have hout : ∀ rev, ¬ InStep (LayerKvCache.clear shares s).cache m rev := fun rev h => by
    have hlt := h.unsaturated
    have hmoved := h.moved
    rw [hrev] at hlt hmoved
    rw [hseen] at hmoved
    obtain ⟨h1, h2⟩ := satAdd_lt_wordMax hlt
    have := hinv.moved rev h.synced h2
    omega
  refine ⟨hinv.shaped, fun rev hr hlt => ?_, fun hr hlt => ?_, fun rev h => absurd h (hout rev),
    fun rev h => absurd h (hout rev)⟩
  · rw [hrev] at hlt ⊢
    obtain ⟨h1, h2⟩ := satAdd_lt_wordMax hlt
    have := hinv.moved rev hr h2
    omega
  · rw [hrev] at hr hlt
    obtain ⟨h1, h2⟩ := satAdd_lt_wordMax hlt
    have := hinv.moved _ hr h2
    omega

/-- The stage marked with the counters of the cache. -/
def marked (m : StageMirror κ) (c : LayerKvCache) : StageMirror κ :=
  { m with
    revisionAtLastSync := some c.revision, tokensSeenAtLastSync := c.tokensSeen
    tokenCountAtLastSync := c.tokenCount }

theorem StageInv.marked (hm : Shaped c m) (hheld : Held image c W m W.length)
    (hlen : W.length = c.tokenCount) : StageInv image c W (marked m c) where
  shaped := hm
  moved rev hr _ := by
    cases hr
    simp [StageKind.marked]
  unmoved _ _ := rfl
  grown _ _ := le_refl _
  held _ _ := by
    have hn : c.tokenCount - (c.tokensSeen - (StageKind.marked m c).tokensSeenAtLastSync) =
        W.length := by
      rw [hlen]
      simp [StageKind.marked]
    rw [hn]
    exact hheld

theorem StageInv.unsynced (hm : Shaped c m) (hrev : m.revisionAtLastSync = none) :
    StageInv image c W m := by
  have hout : ∀ rev, m.revisionAtLastSync ≠ some rev := fun rev h => by
    rw [hrev] at h
    cases h
  exact ⟨hm, fun rev hr => absurd hr (hout rev), fun hr => absurd hr (hout _),
    fun rev h => absurd h.synced (hout rev), fun rev h => absurd h.synced (hout rev)⟩

/-- The stage of a state is as the counters promise. -/
def StageOk (image : (ch : κ.Channel) → Row → List (κ.Elem ch)) (st : DeviceState κ)
    (W : List Row) : Prop :=
  ∀ m, st.stage = some m → StageInv image st.layer.cache W m

/-! ### The entry of a cache -/

section Entry

variable (hκ : Lawful K κ Supports image) (garbage : Garbage κ)

include hκ

theorem newStage_ok (h : Layout c) :
    ∃ m, newStage garbage c (fun ch => 2 * c.maxTokens * κ.width ch c.vectorLen) = .ok m ∧
      Shaped c m ∧ m.revisionAtLastSync = none := by
  have hbytes : ∀ ch, 2 * c.maxTokens * κ.width ch c.vectorLen * κ.elemBytes ch ≤ wordMax :=
    fun ch => by
      have h1 := h.stage_le
      have h2 : 8 * vecF32Max ≤ wordMax := by decide
      have h3 := Nat.mul_le_mul_left (2 * c.maxTokens) (hκ.elemBytes_le ch h.vec_pos)
      calc 2 * c.maxTokens * κ.width ch c.vectorLen * κ.elemBytes ch
          = 2 * c.maxTokens * (κ.width ch c.vectorLen * κ.elemBytes ch) := Nat.mul_assoc ..
        _ ≤ 2 * c.maxTokens * (4 * c.vectorLen) := h3
        _ = 8 * (c.maxTokens * c.vectorLen) := by ring
        _ ≤ wordMax := by omega
  let newBuffers : (ch : κ.Channel) → List (κ.Elem ch) := fun ch =>
    (List.range (2 * c.maxTokens * κ.width ch c.vectorLen)).map (garbage ch)
  have hall : ∀ chs : List κ.Channel, chs.forM (fun ch => do
      let _ ← newBufferLen (κ.label ch) (κ.elemBytes ch) (garbage ch)
        (2 * c.maxTokens * κ.width ch c.vectorLen)
      (pure () : Except MetalError Unit)) = .ok () := by
    intro chs
    induction chs with
    | nil => rfl
    | cons ch chs ih =>
      have hone : newBufferLen (κ.label ch) (κ.elemBytes ch) (garbage ch)
          (2 * c.maxTokens * κ.width ch c.vectorLen) = .ok (newBuffers ch) := by
        rw [newBufferLen, checkedMul_of_le (hbytes ch)]
        rfl
      change ((newBufferLen _ _ _ _ >>= _) >>= fun _ => chs.forM _) = _
      rw [hone]
      exact ih
  refine ⟨⟨c.id, newBuffers, none, 0, 0, c.maxTokens, c.vectorLen⟩, ?_,
    ⟨rfl, rfl, rfl, fun ch _ => ?_⟩, rfl⟩
  · unfold newStage
    rw [hall]
    rfl
  · exact (List.length_map _).trans List.length_range

/-- The entry that a read finds or makes. -/
theorem stageForRead_ok (h : Layout st.layer.cache) (hok : StageOk image st W) :
    ∃ m, stageForRead garbage (fun ch =>
        2 * st.layer.cache.maxTokens * κ.width ch st.layer.cache.vectorLen) st =
        .ok m ⟨st.layer, some m⟩ ∧ StageInv image st.layer.cache W m ∧
      (st.stage = some m ∨ m.revisionAtLastSync = none) := by
  obtain ⟨layer, stage⟩ := st
  cases stage with
  | some m =>
    have hm := hok m rfl
    refine ⟨m, ?_, hm, .inl rfl⟩
    simp only [stageForRead, bind_apply, getCache_apply, get_apply, if_pos hm.shaped, pure_apply]
  | none =>
    obtain ⟨m, hnew, hs, hrev⟩ := newStage_ok hκ garbage h
    refine ⟨m, ?_, .unsynced hs hrev, .inr hrev⟩
    simp only [stageForRead, bind_apply, getCache_apply, get_apply, makeStage, hnew, ofResult_ok,
      setStage_apply, pure_apply]

theorem stageForAppend_ok (h : Layout st.layer.cache) (hok : StageOk image st W) :
    ∃ m, stageForAppend garbage (fun ch =>
        2 * st.layer.cache.maxTokens * κ.width ch st.layer.cache.vectorLen) st =
        .ok m ⟨st.layer, some m⟩ ∧ StageInv image st.layer.cache W m ∧
      (st.stage = some m ∨ m.revisionAtLastSync = none) := by
  obtain ⟨layer, stage⟩ := st
  cases stage with
  | some m =>
    have hm := hok m rfl
    refine ⟨m, ?_, hm, .inl rfl⟩
    simp only [stageForAppend, bind_apply, getCache_apply, get_apply, if_pos hm.shaped, pure_apply]
  | none =>
    obtain ⟨m, hnew, hs, hrev⟩ := newStage_ok hκ garbage h
    refine ⟨m, ?_, .unsynced hs hrev, .inr hrev⟩
    simp only [stageForAppend, bind_apply, getCache_apply, get_apply, makeStage, hnew, ofResult_ok,
      setStage_apply, pure_apply]

end Entry

/-! ### Staged reads -/

/-- What a staged read finds: the rows of the window, in every buffer. -/
def Finds (image : (ch : κ.Channel) → Row → List (κ.Elem ch)) (c : LayerKvCache) (W : List Row)
    (n : ℕ) (found : ((ch : κ.Channel) → List (κ.Elem ch)) × (κ.Channel → ℕ)) : Prop :=
  ∀ ch, slice (found.1 ch) (found.2 ch) (found.2 ch + n * κ.width ch c.vectorLen) =
    (W.take n).flatMap (image ch)

theorem stageOffset_ok (h : Window K c W) {blocks : κ.Blocks} {n : ℕ}
    (hfirst : 0 < c.tokenCount → κ.firstSlot blocks = some c.windowStart) (hn : n ≤ c.tokenCount) :
    ∃ offset, stageOffset blocks c.vectorLen n = .ok offset ∧
      (0 < n → ∀ ch, offset ch = c.windowStart * κ.width ch c.vectorLen) := by
  by_cases h0 : n = 0
  · exact ⟨_, if_pos h0, fun hpos => by omega⟩
  · have hw : c.windowStart * c.vectorLen ≤ wordMax := by
      refine le_trans (Nat.mul_le_mul_right _ ?_) (stage_words h.toLayout).1
      have := h.start_lt
      omega
    refine ⟨_, ?_, fun _ ch => rfl⟩
    rw [stageOffset, if_neg h0, hfirst (by omega), okOrShape_some, ok_bind, checkedMul_of_le hw]
    rfl

section Read

variable (hκ : Lawful K κ Supports image)

include hκ

/-- The rows of a stage that holds the window, read from the window's start on. -/
theorem Held.finds (h : Window K c W) (hm : Shaped c m) (hheld : Held image c W m W.length) {n : ℕ}
    (hn : n ≤ c.tokenCount) {offset : κ.Channel → ℕ}
    (hoffset : 0 < n → ∀ ch, offset ch = c.windowStart * κ.width ch c.vectorLen) :
    Finds image c W n (m.buffers, offset) := by
  intro ch
  rcases Nat.eq_zero_or_pos n with rfl | hpos
  · simp [slice]
  · have hst := h.start_lt
    have hcount := h.count_le
    have hlen : (W.take n).length = n := by
      rw [List.length_take, h.length]
      omega
    have hrow : ∀ i r, (W.take n)[i]? = some r →
        row (m.buffers ch) (κ.width ch c.vectorLen) (c.windowStart + i) = image ch r :=
      fun i r hr => by
        rw [List.getElem?_take] at hr
        split at hr
        · have hi := (List.getElem?_eq_some_iff.mp hr).1
          exact hheld ch i r _ hi hr (window_place hst (by rw [h.length] at hi; omega))
        · cases hr
    have hrange := flatMap_eq_range hrow
    have hle : (c.windowStart + n) * κ.width ch c.vectorLen ≤ (m.buffers ch).length := by
      rw [hκ.rings hm ch]
      exact Nat.mul_le_mul_right _ (by omega)
    rw [hlen] at hrange
    dsimp only
    rw [hoffset hpos ch, ← Nat.add_mul, ← flatMap_row_range _ _ _ _ hle]
    exact hrange

/-- A staged read whose plan is sound keeps the promise, also when the device
fails it; when it does not, it finds the window. -/
theorem stagedRows_cases (garbage : Garbage κ) (fault : Fault) (n : ℕ)
    (h : Window K st.layer.cache W) (hok : StageOk image st W)
    (hrev : st.layer.cache.revision < wordMax)
    (hmiss : ∀ m, st.stage = some m → ¬ Missed st.layer.cache m) :
    (∃ e st', κ.stagedRows garbage fault n st = .error e st' ∧ st'.layer = st.layer ∧
      StageOk image st' W) ∨
    ∃ found st', κ.stagedRows garbage fault n st = .ok found st' ∧ st'.layer = st.layer ∧
      StageOk image st' W ∧ Finds image st.layer.cache W n found := by
  have hl := h.toLayout
  by_cases hn : n > st.layer.cache.tokenCount
  · refine .inl ⟨.invalidShape (κ.texts.rowCount n st.layer.cache.tokenCount), st, ?_, rfl, hok⟩
    simp only [stagedRows, bind_apply, getCache_apply, if_pos hn, throw_apply]
  by_cases hsup : Supports st.layer.cache
  · obtain ⟨blocks, hblocks, hfirst⟩ := hκ.activeBlocks h hsup
    obtain ⟨offset, hoff, hoffset⟩ := stageOffset_ok h hfirst (Nat.not_lt.mp hn)
    obtain ⟨m, hstage, hm, hfrom⟩ := stageForRead_ok hκ garbage hl hok
    have hnot : ¬ Missed st.layer.cache m := by
      rcases hfrom with hst | hnone
      · exact hmiss m hst
      · rintro ⟨rev, hr, -⟩
        rw [hnone] at hr
        cases hr
    have hplan := plan_sound h hm hrev hnot
    cases hp : plan m st.layer.cache with
    | clean =>
      rw [hp] at hplan
      refine .inr ⟨_, ⟨st.layer, some m⟩, ?_, rfl, fun m' hm' => ?_,
        hplan.finds hκ h hm.shaped (Nat.not_lt.mp hn) hoffset⟩
      · simp only [stagedRows, bind_apply, getCache_apply, if_neg hn, hκ.stageLens false hl,
          ofResult_ok, hblocks, hoff, hstage, hp, pure_apply, stageBuffers, get_apply]
      · cases hm'
        exact hm
    | write a b full =>
      rw [hp] at hplan
      obtain ⟨rfl, hheld⟩ := hplan
      obtain ⟨ws, hws, hrows⟩ := hκ.stageWrites a h hblocks
      have hputs : Puts st.layer.cache.vectorLen (windowTarget image st.layer.cache W a) ws :=
        fun ch => (hrows ch).rows
      rcases writeAll_shaped hκ hl (entry_stage st.layer m) hm.shaped hputs
        (windowTarget_bounded a) fault with ⟨-, hwrite⟩ | ⟨k, e, -, -, -, hwrite⟩
      · obtain ⟨hs, hheld'⟩ := hheld.written hκ h hm.shaped hrows
        refine .inr ⟨_, ⟨st.layer, some (StageKind.marked (StageKind.written ws m) st.layer.cache)⟩,
          ?_, rfl, fun m' hm' => ?_,
          Held.finds (m := StageKind.written ws m) hκ h hs hheld' (Nat.not_lt.mp hn) hoffset⟩
        · simp only [stagedRows, bind_apply, getCache_apply, if_neg hn, hκ.stageLens false hl,
            ofResult_ok, hblocks, hoff, hstage, hp, hws, hwrite, recordStageSync, setStage_apply,
            stageBuffers, get_apply, pure_apply]
          rfl
        · cases hm'
          exact .marked hs hheld' h.length
      · have hk : ∀ n, Held image st.layer.cache W m n →
            Shaped st.layer.cache (StageKind.written (ws.take k) m) ∧
              Held image st.layer.cache W (StageKind.written (ws.take k) m) n :=
          fun n hn => hn.rewritten_window hκ h (hputs.take k) hm.shaped
        refine .inl ⟨e, ⟨st.layer, some (StageKind.written (ws.take k) m)⟩, ?_, rfl,
          fun m' hm' => ?_⟩
        · simp only [stagedRows, bind_apply, getCache_apply, if_neg hn, hκ.stageLens false hl,
            ofResult_ok, hblocks, hoff, hstage, hp, hws, hwrite]
        · cases hm'
          exact hm.rewritten (hk 0 Held.zero).1 rfl fun rev hstep => (hk _ (hm.held rev hstep)).2
  · obtain ⟨e, herr⟩ := hκ.unsupported h hsup
    refine .inl ⟨e, st, ?_, rfl, hok⟩
    simp only [stagedRows, bind_apply, getCache_apply, if_neg hn, hκ.stageLens false hl, ofResult_ok,
      herr, ofResult_error]

end Read

/-! ### What a direct append can do -/

/-- The writes of a row: at the slot of the next append, in every buffer, and at
the mirror. -/
def directWrites (image : (ch : κ.Channel) → Row → List (κ.Elem ch)) (c : LayerKvCache) (r : Row) :
    List (ChannelWrite κ.Elem) :=
  rowWrites (fun ch => image ch r)
    (rowPlaces κ (appendTargetOf c).physicalTokenIndex c.maxTokens c.vectorLen)

/-- A direct append that found or made the entry `m` and writes `ws` before the
row. -/
structure Started (image : (ch : κ.Channel) → Row → List (κ.Elem ch)) (st : DeviceState κ)
    (W : List Row) (r : Row) (m : StageMirror κ) (ws : List (ChannelWrite κ.Elem)) : Prop where
  shaped : Shaped st.layer.cache m
  entry : st.stage = some m ∨ m.revisionAtLastSync = none
  accepted : Acceptable st.layer.cache r
  row : κ.rowData st.layer.cache r.1 r.2 = .ok fun ch => image ch r
  rebuild : ∃ blocks, κ.activeBlocks st.layer.cache = .ok blocks ∧
    rebuildWrites m st.layer.cache blocks = .ok ws
  puts : Puts st.layer.cache.vectorLen (windowTarget image st.layer.cache W 0) ws
  rows : m.revisionAtLastSync = some st.layer.cache.revision ∨
    ∀ ch, StageRows st.layer.cache W 0 st.layer.cache.tokenCount
      (κ.width ch st.layer.cache.vectorLen) (image ch) (writesTo ch ws)

/-- The outcomes of a direct append: turned down at once, stopped by the device
in the rebuild or in the row, refused by the cache, or done. -/
inductive DirectAppend (K : QuantKernels) (image : (ch : κ.Channel) → Row → List (κ.Elem ch))
    (shares : Shares) (fault : AppendFaults) (r : Row) (st : DeviceState κ) (W : List Row) :
    EStateM.Result MetalError (DeviceState κ) Unit → Prop where
  | rejected (e : MetalError) : (∀ row, κ.rowData st.layer.cache r.1 r.2 ≠ .ok row) →
      DirectAppend K image shares fault r st W (.error e st)
  | rebuild {m : StageMirror κ} {ws : List (ChannelWrite κ.Elem)} (k : ℕ) (e : MetalError) : Started image st W r m ws → k < ws.length →
      fault.rebuild k = some e →
      DirectAppend K image shares fault r st W (.error e ⟨st.layer, some (written (ws.take k) m)⟩)
  | row {m : StageMirror κ} {ws : List (ChannelWrite κ.Elem)} (k : ℕ) (e : MetalError) : Started image st W r m ws →
      (∀ i, i < ws.length → fault.rebuild i = none) → k < 2 * κ.channels.length →
      fault.row k = some e → (∀ j, j < k → fault.row j = none) →
      DirectAppend K image shares fault r st W (.error e ⟨st.layer,
        some (written ((directWrites image st.layer.cache r).take k) (written ws m))⟩)
  | refused {m : StageMirror κ} {ws : List (ChannelWrite κ.Elem)} (e : KvCacheError) : Started image st W r m ws →
      (∀ i, i < ws.length → fault.rebuild i = none) →
      (∀ i, i < 2 * κ.channels.length → fault.row i = none) →
      appendSlidingWithMetadata K shares r.1 r.2 st.layer = .error e st.layer →
      Refusal shares st.layer r true →
      DirectAppend K image shares fault r st W (.error (StageM.kvCacheShapeError e) ⟨st.layer,
        some (written (directWrites image st.layer.cache r) (written ws m))⟩)
  | done {m : StageMirror κ} {ws : List (ChannelWrite κ.Elem)} {layer' : LayerState} (append : LayerKvCacheAppend) : Started image st W r m ws →
      appendSlidingWithMetadata K shares r.1 r.2 st.layer = .ok append layer' →
      AppendedAtEnd K shares st.layer r layer' ∨ Slid K shares st.layer r layer' →
      DirectAppend K image shares fault r st W (.ok () ⟨layer', some (marked
        (written (directWrites image st.layer.cache r) (written ws m)) layer'.cache)⟩)

/-- The end of a direct append that the cache accepts. -/
theorem finishDirectAppend_ok {layer layer' : LayerState} {key value : List F32} (hl : Layout layer.cache)
    (hmax : layer'.cache.maxTokens = layer.cache.maxTokens)
    (hcount : layer'.cache.tokenCount = if layer.cache.tokenCount < layer.cache.maxTokens then
      layer.cache.tokenCount + 1 else layer.cache.maxTokens)
    (hok : appendSlidingWithMetadata K shares key value layer = .ok
      (layer'.cache.metadataOf (appendTargetOf layer.cache).tokenIndex
        (appendTargetOf layer.cache).physicalTokenIndex) layer') :
    finishDirectAppend K shares (appendTargetOf layer.cache) key value ⟨layer, some m⟩ =
      .ok () ⟨layer', some (marked m layer'.cache)⟩ := by
  have hverify := verifyDirectAppendMetadata_ok layer'.cache hl hcount
  simp only [finishDirectAppend, bind_apply, onCache, hok, getCache_apply, hmax, hverify, ofResult_ok,
    markStageSynced, get_apply, setStage_apply]
  rfl

theorem Started.inv (hs : Started image st W r m ws) (hok : StageOk image st W) :
    StageInv image st.layer.cache W m := by
  rcases hs.entry with hst | hnone
  · exact hok m hst
  · exact .unsynced hs.shaped hnone

/-- The slot of the next append is not that of a row, unless the window is full. -/
theorem rowTarget_outside (h : Window K c W) (hfree : c.tokenCount < c.maxTokens) {i p : ℕ}
    (hi : i < c.tokenCount) (hp : Place c i p) {row : (ch : κ.Channel) → List (κ.Elem ch)}
    (ch : κ.Channel) :
    rowTarget (appendTargetOf c).physicalTokenIndex c.maxTokens row ch p = none := by
  have hslot : (appendTargetOf c).physicalTokenIndex =
      ringSlot c.windowStart c.tokenCount c.maxTokens := by
    rw [h.start_zero hfree, ringSlot_zero_start hfree, appendTargetOf, if_pos hfree]
  unfold rowTarget
  rw [hslot, if_neg]
  rintro (rfl | rfl)
  · exact hp.ne h.toLayout (by omega) hfree (by omega) (.inl rfl) rfl
  · exact hp.ne h.toLayout (by omega) hfree (by omega) (.inr rfl) rfl

section Append

variable (hκ : Lawful K κ Supports image)

include hκ

theorem puts_directWrites (hr : Acceptable c r) :
    Puts c.vectorLen (rowTarget (appendTargetOf c).physicalTokenIndex c.maxTokens
      fun ch => image ch r) (directWrites image c r) :=
  puts_rowWrites (hκ.image_length hr)

/-- The rebuild of a stage of the right shape. -/
theorem rebuildWrites_ok (h : Window K c W) {blocks : κ.Blocks} (hblocks : κ.activeBlocks c = .ok blocks)
    (m : StageMirror κ) : ∃ ws, rebuildWrites m c blocks = .ok ws ∧
      Puts c.vectorLen (windowTarget image c W 0) ws ∧
      (m.revisionAtLastSync = some c.revision ∨ ∀ ch, StageRows c W 0 c.tokenCount
        (κ.width ch c.vectorLen) (image ch) (writesTo ch ws)) := by
  by_cases hclean : m.revisionAtLastSync = some c.revision
  · exact ⟨[], if_pos hclean, fun ch w hw => absurd hw List.not_mem_nil, .inl hclean⟩
  · obtain ⟨ws, hws, hrows⟩ := hκ.stageWrites 0 h hblocks
    exact ⟨ws, (if_neg hclean).trans hws, fun ch => (hrows ch).rows, .inr hrows⟩

variable (K image shares) in
/-- **What a direct append can do**, wherever the device stops it. -/
theorem appendDirect_cases (garbage : Garbage κ) (fault : AppendFaults) (r : Row)
    (h : Window K st.layer.cache W) (hok : StageOk image st W) :
    DirectAppend K image shares fault r st W
      (κ.appendKvCacheSlidingDirect K shares garbage fault r.1 r.2 st) := by
  obtain ⟨key, value⟩ := r
  have hl := h.toLayout
  dsimp only
  cases hrow : κ.rowData st.layer.cache key value with
  | error e =>
    have hrun : κ.appendKvCacheSlidingDirect K shares garbage fault key value st = .error e st := by
      simp only [appendKvCacheSlidingDirect, writeDirectAppend, bind_apply, getCache_apply, hrow,
        ofResult_error]
    rw [hrun]
    refine .rejected e fun row hrow' => ?_
    rw [hrow] at hrow'
    cases hrow'
  | ok row =>
    obtain ⟨hsup, hacc, rfl⟩ := hκ.rowData h hrow
    obtain ⟨blocks, hblocks, -⟩ := hκ.activeBlocks h hsup
    obtain ⟨m, hstage, hm, hentry⟩ := stageForAppend_ok hκ garbage hl hok
    obtain ⟨ws, hws, hputs, hrows⟩ := rebuildWrites_ok hκ h hblocks m
    have hstarted : Started image st W (key, value) m ws :=
      ⟨hm.shaped, hentry, hacc, hrow, ⟨blocks, hblocks, hws⟩, hputs, hrows⟩
    have hp := appendTargetOf_lt hl
    have hdest := hκ.rowStarts hl hp
    have hrowPuts := puts_directWrites hκ hacc
    -- the part before the writes of the row
    have hbegin : κ.appendKvCacheSlidingDirect K shares garbage fault key value st =
        (do
          writeAll fault.rebuild 0 ws
          writeAll fault.row 0 (directWrites image st.layer.cache (key, value))
          finishDirectAppend K shares (appendTargetOf st.layer.cache) key value : DeviceM κ Unit)
          ⟨st.layer, some m⟩ := by
      simp only [appendKvCacheSlidingDirect, writeDirectAppend, bind_apply, getCache_apply, hrow,
        ofResult_ok, slidingAppendTarget_ok hl, mapShapeError, hκ.stageLens true hl, hblocks, hstage,
        hws, hdest, pure_apply]
      cases writeAll fault.rebuild 0 ws ⟨st.layer, some m⟩ with
      | error e st₁ => rfl
      | ok u st₁ =>
        dsimp only [directWrites]
        generalize writeAll fault.row 0 (rowWrites _ _) st₁ = res
        cases res <;> rfl
    rw [hbegin]
    rcases writeAll_shaped hκ hl (entry_stage st.layer m) hm.shaped hputs
      (windowTarget_bounded 0) fault.rebuild with ⟨hnone, hwrite⟩ | ⟨k, e, hk, hfault, -, hwrite⟩
    · obtain ⟨hs, -⟩ := Held.zero.rewritten_window hκ h hputs hm.shaped
      have hcount : (directWrites image st.layer.cache (key, value)).length = 2 * κ.channels.length :=
        rowWrites_length
      rcases writeAll_shaped hκ hl (entry_stage st.layer (written ws m)) hs hrowPuts
        (rowTarget_bounded hp) fault.row with ⟨hnone', hwrite'⟩ | ⟨k, e, hk, hfault, hbefore, hwrite'⟩
      · simp only [bind_apply, hwrite, hwrite']
        rw [hcount] at hnone'
        rcases appendSlidingWithMetadata_spec shares (r := (key, value)) h with
          ⟨e, he, href⟩ | ⟨s', ha, hok'⟩ | ⟨s', ha, hok'⟩
        · dsimp only at he
          simp only [finishDirectAppend, bind_apply, onCache, he]
          exact .refused e hstarted hnone hnone' he href
        · have htarget : appendTargetOf st.layer.cache = ⟨st.layer.cache.tokenCount,
              st.layer.cache.tokenCount, st.layer.cache.tokenCount⟩ := if_pos ha.1
          obtain ⟨hadv, -⟩ := advanced_of_appended h ha
          have hcount' := hadv.count
          rw [finishDirectAppend_ok hl hadv.maxTokens
            (by rw [if_pos ha.1]; omega) (by rw [htarget]; exact hok')]
          exact .done _ hstarted hok' (.inl ha)
        · have hfull : ¬ st.layer.cache.tokenCount < st.layer.cache.maxTokens := by
            have := ha.1
            omega
          have htarget : appendTargetOf st.layer.cache = ⟨st.layer.cache.maxTokens - 1,
              st.layer.cache.windowStart, st.layer.cache.tokenCount⟩ := if_neg hfull
          obtain ⟨hadv, -⟩ := advanced_of_slid h ha
          have hcount' := hadv.count
          have hcap := ha.1
          rw [finishDirectAppend_ok hl hadv.maxTokens
            (by rw [if_neg hfull]; omega) (by rw [htarget]; exact hok')]
          exact .done _ hstarted hok' (.inr ha)
      · rw [hcount] at hk
        simp only [bind_apply, hwrite, hwrite']
        exact .row k e hstarted hnone hk hfault hbefore
    · simp only [bind_apply, hwrite]
      exact .rebuild k e hstarted hk hfault

/-! ### What it leaves -/

/-- After the rebuild the stage holds the window. -/
theorem Started.held (hs : Started image st W r m ws) (h : Window K st.layer.cache W)
    (hok : StageOk image st W) (hrev : st.layer.cache.revision < wordMax) :
    Shaped st.layer.cache (written ws m) ∧ Held image st.layer.cache W (written ws m) W.length := by
  rcases hs.rows with hclean | hrows
  · have hheld := (hs.inv hok).held_all h.length hclean hrev
    exact hheld.rewritten_window hκ h hs.puts hs.shaped
  · exact Held.zero.written hκ h hs.shaped hrows

/-- Writes of the row, all or some, keep the promise if the slot is not that of
a row or nothing is promised. -/
theorem Started.torn (hs : Started image st W r m ws) (h : Window K st.layer.cache W)
    (hok : StageOk image st W) (hrev : st.layer.cache.revision < wordMax)
    (hsafe : st.layer.cache.tokenCount < st.layer.cache.maxTokens ∨ PlansAll m st.layer.cache)
    {part : List (ChannelWrite κ.Elem)} (hpart : Puts st.layer.cache.vectorLen
      (rowTarget (appendTargetOf st.layer.cache).physicalTokenIndex st.layer.cache.maxTokens
        fun ch => image ch r) part) :
    StageInv image st.layer.cache W (written part (written ws m)) := by
  have hl := h.toLayout
  have hinv := hs.inv hok
  obtain ⟨hshaped, hheld⟩ := hs.held hκ h hok hrev
  have hbound : (rowTarget (appendTargetOf st.layer.cache).physicalTokenIndex
      st.layer.cache.maxTokens fun ch => image ch r).Bounded st.layer.cache.maxTokens :=
    rowTarget_bounded (appendTargetOf_lt hl)
  obtain ⟨hs', -⟩ := Held.rewritten (W := W) hκ hl hpart hbound hshaped
    (fun _ _ _ _ _ hi => absurd hi (Nat.not_lt_zero _)) Held.zero
  refine hinv.rewritten hs' rfl fun rev hstep => ?_
  rcases hsafe with hfree | hall
  · refine (Held.rewritten hκ hl hpart hbound hshaped (fun ch i x p y hi _ hp hy => ?_)
      (hheld.mono (by rw [h.length]; omega))).2
    rw [rowTarget_outside h hfree (by omega) hp] at hy
    cases hy
  · rw [hinv.promises_none hall hstep]
    exact Held.zero

/-- The row that the cache took, written at its slot into a stage that held the
window before. -/
theorem Held.direct_advance {δ : ℕ} (h : Window K c W) (ha : Advanced δ c W r c' W')
    (hw' : Window K c' W') (hr : Acceptable c r) (hm : Shaped c m) (hheld : Held image c W m W.length)
    (hslot : ringSlot c'.windowStart (c'.tokenCount - 1) c'.maxTokens =
      (appendTargetOf c).physicalTokenIndex) :
    Shaped c' (StageKind.written (directWrites image c r) m) ∧
      Held image c' W' (StageKind.written (directWrites image c r) m) W'.length := by
  have hl := h.toLayout
  have hlt := appendTargetOf_lt hl
  obtain ⟨hrings, hrows⟩ := (puts_directWrites hκ hr).rows (fun ch => hκ.width_pos ch hl.vec_pos)
    (rowTarget_bounded hlt) (hκ.rings hm)
  refine ⟨shaped_advance ha ⟨hm.1, hm.2.1, hm.2.2.1, fun ch _ => hrings ch⟩,
    fun ch i x q hi hx hq => ?_⟩
  have hcount := ha.count
  have hpos := ha.count_pos
  have hle := hw'.count_le
  rw [hw'.length] at hi
  rw [ha.vectorLen]
  by_cases hlast : i = c'.tokenCount - 1
  · have hqp : q = (appendTargetOf c).physicalTokenIndex ∨
        q = (appendTargetOf c).physicalTokenIndex + c.maxTokens := by
      unfold Place at hq
      rwa [hlast, hslot, ha.maxTokens] at hq
    have hput := (hrows ch q).2 (rowWrites_cover (hκ.image_length hr) hκ.complete ch hqp)
    rw [rowTarget, if_pos hqp, Option.some.injEq] at hput
    rw [hlast, ha.new, Option.some.injEq] at hx
    rw [← hput, hx]
  · have hlastPlace : ∀ q', q' = (appendTargetOf c).physicalTokenIndex ∨
        q' = (appendTargetOf c).physicalTokenIndex + c.maxTokens → Place c' (c'.tokenCount - 1) q' :=
      fun q' hq' => by
        unfold Place
        rwa [hslot, ha.maxTokens]
    have hne : ¬ (q = (appendTargetOf c).physicalTokenIndex ∨
        q = (appendTargetOf c).physicalTokenIndex + c.maxTokens) := fun hqp =>
      (hq.ne hw'.toLayout (by omega) (by omega) hlast (hlastPlace q hqp)) rfl
    have hkeep : row ((StageKind.written (directWrites image c r) m).buffers ch) (κ.width ch c.vectorLen) q =
        row (m.buffers ch) (κ.width ch c.vectorLen) q := by
      rcases (hrows ch q).1 with hput | hkeep
      · rw [rowTarget, if_neg hne] at hput
        cases hput
      · exact hkeep
    have hold := hheld.advance (c'.tokenCount - 1) ha (fun j hj => by rw [h.length]; omega) (by omega)
    rw [hkeep, ← ha.vectorLen]
    exact hold ch i x q (by omega) hx hq

end Append

/-- The device makes the first write of a row, and fails a later one. -/
def StopsInRow (fault : AppendFaults) (κ : StageKind) : Prop :=
  ∃ i, 0 < i ∧ i < 2 * κ.channels.length ∧ (fault.row i).isSome ∧ ∀ j, j < i → fault.row j = none

/-- The row of a direct append is torn where a staged read trusts it: the window
is full, the stage has an entry whose next plan leaves out the first row, the
row is taken and the rebuild made, and the device stops within the row, or the
cache refuses it when all of it is written. -/
structure Tears (fault : AppendFaults) (r : Row) (st : DeviceState κ) : Prop where
  full : ¬ st.layer.cache.tokenCount < st.layer.cache.maxTokens
  trusted : ∃ m, st.stage = some m ∧ ¬ PlansAll m st.layer.cache
  accepted : ∃ row, κ.rowData st.layer.cache r.1 r.2 = .ok row
  rebuilt : ∀ m blocks ws, st.stage = some m → κ.activeBlocks st.layer.cache = .ok blocks →
    rebuildWrites m st.layer.cache blocks = .ok ws → ∀ i, i < ws.length → fault.rebuild i = none
  stopped : StopsInRow fault κ ∨ (∀ i, i < 2 * κ.channels.length → fault.row i = none) ∧
    (wordMax ≤ st.layer.cache.tokensSeen ∨ wordMax ≤ st.layer.rt.nextBlockId)

/-- A stage without a last sync is planned whole. -/
theorem plansAll_of_unsynced (hrev : m.revisionAtLastSync = none) : PlansAll m c := by
  refine ⟨c.tokenCount, true, ?_⟩
  unfold plan kvStageSyncPlan
  rw [hrev, if_neg (by simp), if_pos (by simp)]

theorem Started.safe_of_not_tears {fault : AppendFaults} (hs : Started image st W r m ws)
    (ht : ¬ Tears fault r st) (hrebuild : ∀ i, i < ws.length → fault.rebuild i = none)
    (hstopped : StopsInRow fault κ ∨ (∀ i, i < 2 * κ.channels.length → fault.row i = none) ∧
      (wordMax ≤ st.layer.cache.tokensSeen ∨ wordMax ≤ st.layer.rt.nextBlockId)) :
    st.layer.cache.tokenCount < st.layer.cache.maxTokens ∨ PlansAll m st.layer.cache := by
  by_contra hno
  obtain ⟨hfull, hplan⟩ := not_or.mp hno
  have hst : st.stage = some m := by
    rcases hs.entry with hst | hnone
    · exact hst
    · exact absurd (plansAll_of_unsynced hnone) hplan
  obtain ⟨blocks, hblocks, hws⟩ := hs.rebuild
  refine ht ⟨hfull, ⟨m, hst, hplan⟩, ⟨_, hs.row⟩, fun m' blocks' ws' hst' hblocks' hws' => ?_,
    hstopped⟩
  cases hst.symm.trans hst'
  cases hblocks.symm.trans hblocks'
  cases hws.symm.trans hws'
  exact hrebuild

/-- What a direct append leaves: the cache, when it fails; a stage as the
counters promise. -/
def Leaves (K : QuantKernels) (image : (ch : κ.Channel) → Row → List (κ.Elem ch)) (shares : Shares)
    (r : Row) (st : DeviceState κ) (W : List Row) :
    EStateM.Result MetalError (DeviceState κ) Unit → Prop
  | .error _ st' => st'.layer = st.layer ∧ StageOk image st' W
  | .ok _ st' => ∃ append W', appendSlidingWithMetadata K shares r.1 r.2 st.layer = .ok append st'.layer ∧
    Window K st'.layer.cache W' ∧ StageOk image st' W'

theorem DirectAppend.leaves {fault : AppendFaults} {res : EStateM.Result MetalError (DeviceState κ) Unit}
    (hd : DirectAppend K image shares fault r st W res) (hκ : Lawful K κ Supports image)
    (h : Window K st.layer.cache W) (hok : StageOk image st W)
    (hrev : st.layer.cache.revision < wordMax) (ht : ¬ Tears fault r st) :
    Leaves K image shares r st W res := by
  have hl := h.toLayout
  cases hd with
  | rejected e _ => exact ⟨rfl, hok⟩
  | rebuild k e hs hk hfault =>
    have hpart := fun n (hn : Held image st.layer.cache W _ n) =>
      hn.rewritten_window hκ h (hs.puts.take k) hs.shaped
    refine ⟨rfl, fun m' hm' => ?_⟩
    cases hm'
    have hinv := hs.inv hok
    exact hinv.rewritten (hpart 0 Held.zero).1 rfl fun rev hstep => (hpart _ (hinv.held rev hstep)).2
  | row k e hs hrebuild hk hfault hbefore =>
    refine ⟨rfl, fun m' hm' => ?_⟩
    cases hm'
    obtain rfl | hpos := Nat.eq_zero_or_pos k
    · -- the row's first write failed: the stage is as the rebuild left it
      obtain ⟨hshaped, hheld⟩ := hs.held hκ h hok hrev
      exact (hs.inv hok).rewritten hshaped rfl
        fun rev _ => hheld.mono (by rw [h.length]; omega)
    · have hsafe := hs.safe_of_not_tears ht hrebuild
        (.inl ⟨k, hpos, hk, by rw [hfault]; rfl, hbefore⟩)
      exact hs.torn hκ h hok hrev hsafe ((puts_directWrites hκ hs.accepted).take k)
  | refused e hs hrebuild hrow he href =>
    refine ⟨rfl, fun m' hm' => ?_⟩
    cases hm'
    have hend : wordMax ≤ st.layer.cache.tokensSeen ∨ wordMax ≤ st.layer.rt.nextBlockId := by
      rcases href with hno | ⟨hf, -⟩ | hend
      · exact absurd hs.accepted hno
      · cases hf
      · exact hend.imp_right And.left
    have hsafe := hs.safe_of_not_tears ht hrebuild (.inr ⟨hrow, hend⟩)
    exact hs.torn hκ h hok hrev hsafe (puts_directWrites hκ hs.accepted)
  | done append hs hok' ha =>
    obtain ⟨hshaped, hheld⟩ := hs.held hκ h hok hrev
    rcases ha with ha | ha
    · have htarget : appendTargetOf st.layer.cache = ⟨st.layer.cache.tokenCount,
          st.layer.cache.tokenCount, st.layer.cache.tokenCount⟩ := if_pos ha.1
      obtain ⟨hadv, hslot⟩ := advanced_of_appended h ha
      have hw' := h.appended ha
      obtain ⟨hs', hheld'⟩ := hheld.direct_advance hκ h hadv hw' hs.accepted hshaped
        (by rw [hslot, htarget])
      refine ⟨append, _, hok', hw', fun m' hm' => ?_⟩
      cases hm'
      exact .marked hs' hheld' hw'.length
    · have htarget : appendTargetOf st.layer.cache = ⟨st.layer.cache.maxTokens - 1,
          st.layer.cache.windowStart, st.layer.cache.tokenCount⟩ :=
        if_neg (by have := ha.1; omega)
      obtain ⟨hadv, hslot⟩ := advanced_of_slid h ha
      have hw' := h.slid ha
      obtain ⟨hs', hheld'⟩ := hheld.direct_advance hκ h hadv hw' hs.accepted hshaped
        (by rw [hslot, htarget])
      refine ⟨append, _, hok', hw', fun m' hm' => ?_⟩
      cases hm'
      exact .marked hs' hheld' hw'.length

end StageKind
end KirAi.NativeRuntime
