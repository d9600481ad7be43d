/-
# What a list of device writes leaves, wherever it stops

The writes of a stage go to its buffers one after the other; when the device
fails one, the ones before it were made (`writeAll_cases`). What a part of a
list of writes does to the rows of the buffers is said once, for any stage: a
row that is written is one that belongs there, the others are as before
(`Puts.rows`). `Lawful` is what a stage of a window has to offer for that; the
half-precision stage and the int8 stage do (`f16Kind_lawful`, `int8Kind_lawful`).

Key definitions: `writesTo`, `written`, `Puts`, `Lawful`.
Key theorems: `writeAll_cases`, `Puts.rows`, `f16Kind_lawful`, `int8Kind_lawful`.
-/
import KirAi.NativeRuntime.KvStageSound
import KirAi.NativeRuntime.StageDevice

namespace KirAi.NativeRuntime

open Lib KvCache KvCache.LayerKvCache

namespace StageKind

open DeviceM

variable {κ : StageKind} {m : StageMirror κ} {st : DeviceState κ}
  {ws : List (ChannelWrite κ.Elem)}

/-! ### The writes of one buffer -/

/-- The writes of a list that go to the buffer `ch`. -/
def writesTo (ch : κ.Channel) (ws : List (ChannelWrite κ.Elem)) : List (ℕ × List (κ.Elem ch)) :=
  ws.filterMap fun w => if h : w.channel = ch then some (w.start, h ▸ w.data) else none

theorem mem_writesTo {ch : κ.Channel} {x : ℕ × List (κ.Elem ch)} :
    x ∈ writesTo ch ws ↔ (⟨ch, x.1, x.2⟩ : ChannelWrite κ.Elem) ∈ ws := by
  rw [writesTo, List.mem_filterMap]
  constructor
  · rintro ⟨⟨ch', start, data⟩, hw, hx⟩
    dsimp only at hx
    split at hx
    · rename_i h
      subst h
      cases hx
      exact hw
    · cases hx
  · exact fun hw => ⟨_, hw, by rw [dif_pos rfl]⟩

/-- The stage after the writes. -/
def written (ws : List (ChannelWrite κ.Elem)) (m : StageMirror κ) : StageMirror κ :=
  { m with buffers := fun ch => applyWrites (writesTo ch ws) (m.buffers ch) }

@[simp] theorem written_nil : written [] m = m := rfl

theorem written_cons (w : ChannelWrite κ.Elem) (ws : List (ChannelWrite κ.Elem)) :
    written (w :: ws) m = written ws (written [w] m) := by
  have hbuf : ∀ ch, applyWrites (writesTo ch (w :: ws)) (m.buffers ch) =
      applyWrites (writesTo ch ws) (applyWrites (writesTo ch [w]) (m.buffers ch)) := fun ch => by
    by_cases h : w.channel = ch
    · subst h
      simp [writesTo, applyWrites]
    · simp [writesTo, applyWrites, h]
  simp only [written, hbuf]

/-- One write goes to one buffer. -/
theorem written_one (w : ChannelWrite κ.Elem) : written [w] m = { m with
    buffers := Function.update m.buffers w.channel (splice (m.buffers w.channel) w.start w.data) } := by
  have hbuf : (fun ch => applyWrites (writesTo ch [w]) (m.buffers ch)) =
      Function.update m.buffers w.channel (splice (m.buffers w.channel) w.start w.data) := by
    funext ch
    by_cases h : w.channel = ch
    · subst h
      rw [Function.update_self]
      simp [writesTo, applyWrites]
    · rw [Function.update_of_ne (Ne.symm h)]
      simp [writesTo, applyWrites, h]
  rw [written, hbuf]

theorem written_one_length (w : ChannelWrite κ.Elem)
    (hw : w.start + w.data.length ≤ (m.buffers w.channel).length) (ch : κ.Channel) :
    ((written [w] m).buffers ch).length = (m.buffers ch).length := by
  rw [written_one]
  dsimp only
  by_cases h : ch = w.channel
  · subst h
    rw [Function.update_self, splice_length hw]
  · rw [Function.update_of_ne h]

theorem writeChannel_ok (w : ChannelWrite κ.Elem) (hst : st.stage = some m)
    (hw : w.start + w.data.length ≤ (m.buffers w.channel).length)
    (hlen : (m.buffers w.channel).length ≤ wordMax) :
    writeChannel none w st = .ok () ⟨st.layer, some (written [w] m)⟩ := by
  have hrange : writeBufferRange (κ.label w.channel) (m.buffers w.channel) w.start w.data =
      .ok (splice (m.buffers w.channel) w.start w.data) := by
    unfold writeBufferRange
    rw [checkedAdd_of_le (by omega), okOrShape_some, ok_bind, if_neg (by omega)]
    rfl
  simp only [writeChannel, bind_apply, get_apply, hst, hrange, ofResult_ok, setStage_apply,
    written_one]

/-- **Where a list of writes stops.** All are made, or those before the first
that the device fails. -/
theorem writeAll_cases {lens : κ.Channel → ℕ} (hlens : ∀ ch, lens ch ≤ wordMax) (fault : Fault) :
    ∀ (ws : List (ChannelWrite κ.Elem)) (i : ℕ) (m : StageMirror κ) (st : DeviceState κ),
      st.stage = some m → (∀ ch, (m.buffers ch).length = lens ch) →
      (∀ w ∈ ws, w.start + w.data.length ≤ lens w.channel) →
      ((∀ k, k < ws.length → fault (i + k) = none) ∧
        writeAll fault i ws st = .ok () ⟨st.layer, some (written ws m)⟩) ∨
      ∃ k e, k < ws.length ∧ fault (i + k) = some e ∧ (∀ j, j < k → fault (i + j) = none) ∧
        writeAll fault i ws st = .error e ⟨st.layer, some (written (ws.take k) m)⟩
  | [], i, m, ⟨layer, stage⟩, hst, _, _ => by
    cases hst
    exact .inl ⟨fun k hk => absurd hk (Nat.not_lt_zero k), rfl⟩
  | w :: ws, i, m, ⟨layer, stage⟩, hst, hm, hws => by
    cases hst
    have hw := hws w (List.mem_cons_self ..)
    rw [← hm] at hw
    cases hf : fault i with
    | some e =>
      refine .inr ⟨0, e, Nat.succ_pos _, hf, fun j hj => absurd hj (Nat.not_lt_zero j), ?_⟩
      simp only [writeAll, hf, writeChannel, bind_apply, get_apply, throw_apply, List.take_zero,
        written_nil]
    | none =>
      have hst : (⟨layer, some m⟩ : DeviceState κ).stage = some m := rfl
      have hone := writeChannel_ok w hst hw (hm _ ▸ hlens _)
      have hlen : ∀ ch, ((written [w] m).buffers ch).length = lens ch := fun ch =>
        (written_one_length w hw ch).trans (hm ch)
      rcases writeAll_cases hlens fault ws (i + 1) _ ⟨layer, some (written [w] m)⟩ rfl hlen
        (fun w' hw' => hws w' (List.mem_cons_of_mem _ hw')) with
        ⟨hnone, hrun⟩ | ⟨k, e, hk, hfault, hbefore, hrun⟩
      · refine .inl ⟨fun k hk => ?_, ?_⟩
        · obtain _ | k := k
          · exact hf
          · rw [show i + (k + 1) = i + 1 + k by omega]
            exact hnone k (Nat.lt_of_succ_lt_succ hk)
        · rw [writeAll, hf, bind_apply, hone]
          dsimp only
          rw [hrun, written_cons w ws]
      · refine .inr ⟨k + 1, e, Nat.succ_lt_succ hk, ?_, fun j hj => ?_, ?_⟩
        · rw [show i + (k + 1) = i + 1 + k by omega]
          exact hfault
        · obtain _ | j := j
          · exact hf
          · rw [show i + (j + 1) = i + 1 + j by omega]
            exact hbefore j (by omega)
        · rw [writeAll, hf, bind_apply, hone]
          dsimp only
          rw [hrun, List.take_succ_cons, written_cons w (ws.take k)]

/-! ### Rows where they belong -/

/-- What belongs into the rows of each buffer. -/
abbrev Target (κ : StageKind) := (ch : κ.Channel) → ℕ → Option (List (κ.Elem ch))

/-- Every write puts rows where they belong; `v` is the width of the cache. -/
def Puts (v : ℕ) (target : Target κ) (ws : List (ChannelWrite κ.Elem)) : Prop :=
  ∀ ch, ∀ w ∈ writesTo ch ws, WritesRows (κ.width ch v) (target ch) w.1 w.2

/-- The buffers are mirrored rings of `cap` rows. -/
def Rings (cap v : ℕ) (m : StageMirror κ) : Prop :=
  ∀ ch, (m.buffers ch).length = 2 * cap * κ.width ch v

/-- Nothing belongs behind the mirror. -/
def Target.Bounded (target : Target κ) (cap : ℕ) : Prop := ∀ ch p r, target ch p = some r → p < 2 * cap

namespace Puts

variable {v cap : ℕ} {target : Target κ}

/-- Part of the writes. -/
theorem take (hp : Puts v target ws) (k : ℕ) : Puts v target (ws.take k) := fun ch w hw =>
  hp ch w (mem_writesTo.mpr (List.mem_of_mem_take (mem_writesTo.mp hw)))

theorem fits (hp : Puts v target ws) (hb : target.Bounded cap) :
    ∀ w ∈ ws, w.start + w.data.length ≤ 2 * cap * κ.width w.channel v := by
  intro w hw
  obtain ⟨q, n, hn, hq, hlen, hrow⟩ :=
    hp w.channel (w.start, w.data) (mem_writesTo.mpr hw)
  have := hb _ _ _ (hrow (n - 1) (by omega))
  dsimp only at hq hlen
  rw [hq, hlen, ← Nat.add_mul]
  exact Nat.mul_le_mul_right _ (by omega)

/-- A row of a buffer afterwards is the row that belongs there or the row from
before, and the former where a write goes to. -/
theorem rows (hp : Puts v target ws) (hv : ∀ ch, 0 < κ.width ch v) (hb : target.Bounded cap)
    (hm : Rings cap v m) :
    Rings cap v (written ws m) ∧ ∀ ch q,
      (target ch q = some (row ((written ws m).buffers ch) (κ.width ch v) q) ∨
        row ((written ws m).buffers ch) (κ.width ch v) q = row (m.buffers ch) (κ.width ch v) q) ∧
      ((∃ w ∈ writesTo ch ws, InWrite (κ.width ch v) w.1 w.2 q) →
        target ch q = some (row ((written ws m).buffers ch) (κ.width ch v) q)) := by
  have happly := fun ch => row_applyWrites (hv ch) (hb ch) (writesTo ch ws) (m.buffers ch) (hm ch)
    (hp ch)
  refine ⟨fun ch => (happly ch).1, fun ch q => ⟨?_, ((happly ch).2 q).1⟩⟩
  by_cases hin : ∃ w ∈ writesTo ch ws, InWrite (κ.width ch v) w.1 w.2 q
  · exact .inl (((happly ch).2 q).1 hin)
  · exact .inr (((happly ch).2 q).2 hin)

end Puts

/-! ### The row of a direct append -/

theorem mem_writesTo_rowWrites {row : (ch : κ.Channel) → List (κ.Elem ch)}
    {starts : List (κ.Channel → ℕ)} {ch : κ.Channel} {x : ℕ × List (κ.Elem ch)} :
    x ∈ writesTo ch (rowWrites row starts) ↔
      ch ∈ κ.channels ∧ ∃ start ∈ starts, x = (start ch, row ch) := by
  obtain ⟨start', data⟩ := x
  rw [mem_writesTo, rowWrites, List.mem_flatMap]
  constructor
  · rintro ⟨start, hs, hx⟩
    obtain ⟨ch', hch, heq⟩ := List.mem_map.mp hx
    cases heq
    exact ⟨hch, start, hs, rfl⟩
  · rintro ⟨hch, start, hs, heq⟩
    cases heq
    exact ⟨start, hs, List.mem_map.mpr ⟨ch, hch, rfl⟩⟩

/-- The row belongs into slot `p` and its mirror. -/
def rowTarget (p cap : ℕ) (row : (ch : κ.Channel) → List (κ.Elem ch)) : Target κ := fun ch q =>
  if q = p ∨ q = p + cap then some (row ch) else none

/-- Where the row of slot `p` goes. -/
def rowPlaces (κ : StageKind) (p cap v : ℕ) : List (κ.Channel → ℕ) :=
  [fun ch => p * κ.width ch v, fun ch => (p + cap) * κ.width ch v]

section Row

variable {p cap v : ℕ} {row : (ch : κ.Channel) → List (κ.Elem ch)}

theorem rowTarget_bounded (hp : p < cap) : (rowTarget p cap row).Bounded cap := by
  intro ch q r hq
  unfold rowTarget at hq
  split at hq
  · omega
  · cases hq

theorem puts_rowWrites (hlen : ∀ ch, (row ch).length = κ.width ch v) :
    Puts v (rowTarget p cap row) (rowWrites row (rowPlaces κ p cap v)) := by
  intro ch w hw
  obtain ⟨-, start, hs, rfl⟩ := mem_writesTo_rowWrites.mp hw
  have hself : Lib.row (row ch) (κ.width ch v) 0 = row ch := by
    rw [Lib.row, slice, Nat.zero_mul, Nat.zero_add, Nat.sub_zero, List.drop_zero, ← hlen ch,
      List.take_length]
  simp only [rowPlaces, List.mem_cons, List.not_mem_nil, or_false] at hs
  rcases hs with rfl | rfl
  · refine ⟨p, 1, Nat.one_pos, rfl, by rw [hlen, Nat.one_mul], fun j hj => ?_⟩
    obtain rfl : j = 0 := by omega
    rw [hself]
    exact if_pos (.inl rfl)
  · refine ⟨p + cap, 1, Nat.one_pos, rfl, by rw [hlen, Nat.one_mul], fun j hj => ?_⟩
    obtain rfl : j = 0 := by omega
    rw [hself]
    exact if_pos (.inr rfl)

/-- All writes of the row made: it is at its slot and at the mirror. -/
theorem rowWrites_cover (hlen : ∀ ch, (row ch).length = κ.width ch v)
    (hall : ∀ ch, ch ∈ κ.channels) (ch : κ.Channel) {q : ℕ} (hq : q = p ∨ q = p + cap) :
    ∃ w ∈ writesTo ch (rowWrites row (rowPlaces κ p cap v)), InWrite (κ.width ch v) w.1 w.2 q := by
  refine ⟨(q * κ.width ch v, row ch), mem_writesTo_rowWrites.mpr ⟨hall ch, ?_⟩, ?_⟩
  · rcases hq with rfl | rfl
    · exact ⟨_, List.mem_cons_self .., rfl⟩
    · exact ⟨_, List.mem_cons_of_mem _ (List.mem_cons_self ..), rfl⟩
  · rw [InWrite, hlen]
    exact ⟨le_refl _, le_refl _⟩

theorem rowWrites_length : (rowWrites row (rowPlaces κ p cap v)).length = 2 * κ.channels.length := by
  simp [rowWrites, rowPlaces]
  omega

end Row

/-! ### Stages of a window -/

/-- What the stage of a kind has to offer for the caches it `Supports`: `image`
is what a row of the window is in each buffer. -/
structure Lawful (K : QuantKernels) (κ : StageKind) (Supports : LayerKvCache → Prop)
    (image : (ch : κ.Channel) → Row → List (κ.Elem ch)) : Prop where
  complete : ∀ ch, ch ∈ κ.channels
  width_pos : ∀ ch {v}, 0 < v → 0 < κ.width ch v
  width_le : ∀ ch {v}, 0 < v → κ.width ch v ≤ v
  elemBytes_le : ∀ ch {v}, 0 < v → κ.width ch v * κ.elemBytes ch ≤ 4 * v
  stageLens : ∀ append {c}, Layout c →
    κ.stageLens append c = .ok fun ch => 2 * c.maxTokens * κ.width ch c.vectorLen
  activeBlocks : ∀ {c W}, Window K c W → Supports c → ∃ blocks, κ.activeBlocks c = .ok blocks ∧
    (0 < c.tokenCount → κ.firstSlot blocks = some c.windowStart)
  unsupported : ∀ {c W}, Window K c W → ¬ Supports c → ∃ e, κ.activeBlocks c = .error e
  stageWrites : ∀ {c W} a {blocks}, Window K c W → κ.activeBlocks c = .ok blocks →
    ∃ ws, κ.stageWrites blocks a c.tokenCount c.vectorLen c.maxTokens = .ok ws ∧
      ∀ ch, StageRows c W a c.tokenCount (κ.width ch c.vectorLen) (image ch) (writesTo ch ws)
  rowData : ∀ {c W key value row}, Window K c W → κ.rowData c key value = .ok row →
    Supports c ∧ Acceptable c (key, value) ∧ row = fun ch => image ch (key, value)
  image_length : ∀ {c r}, Acceptable c r → ∀ ch, (image ch r).length = κ.width ch c.vectorLen
  rowStarts : ∀ {c p}, Layout c → p < c.maxTokens →
    κ.rowStarts p c.vectorLen c.maxTokens = .ok (rowPlaces κ p c.maxTokens c.vectorLen)

end StageKind

/-! ### The two kinds -/

open StageKind

theorem mapShapeError_ok {α : Type} {x : Except KvCacheError α} {a : α} :
    mapShapeError x = .ok a ↔ x = .ok a := by
  cases x with
  | ok b => simp [mapShapeError]
  | error e => simp [mapShapeError]

/-- What is listed first starts where the window does. -/
theorem first_listed {c : LayerKvCache} (h : Layout c) (hpos : 0 < c.tokenCount) {β : Type}
    {R : LayerKvCacheBlockRun → β → Prop} {bs : List β} (hbs : List.Forall₂ R c.activeBlockRuns bs) :
    ∃ run b rest, bs = b :: rest ∧ R run b ∧ run.physicalTokenStart = c.windowStart := by
  cases hruns : c.activeBlockRuns with
  | nil =>
    obtain ⟨run, hrun, -⟩ := h.exists_run (i := 0) hpos
    rw [hruns] at hrun
    cases hrun
  | cons run runs =>
    rw [hruns] at hbs
    obtain _ | ⟨hfirst, -⟩ := hbs
    exact ⟨run, _, _, rfl, hfirst, h.first_run hruns⟩

/-- What a row is in the buffers of the half-precision stage. -/
def f16Image (toF16 : F32 → BitVec 16) : F16Channel → Row → List (BitVec 16)
  | .keys, r => r.1.map toF16
  | .values, r => r.2.map toF16

theorem F16Channel.mem_all (ch : F16Channel) : ch ∈ [F16Channel.keys, .values] := by
  cases ch <;> decide

theorem writesTo_f16 (toF16 : F32 → BitVec 16) : ∀ ws : List MetalStageWrite,
    writesTo (κ := f16Kind toF16) F16Channel.keys (ws.flatMap (f16StageWrites toF16)) =
        (keyWrites ws).map (fun w => (w.1, w.2.map toF16)) ∧
      writesTo (κ := f16Kind toF16) F16Channel.values (ws.flatMap (f16StageWrites toF16)) =
        (valueWrites ws).map (fun w => (w.1, w.2.map toF16))
  | [] => ⟨rfl, rfl⟩
  | w :: ws => by
    obtain ⟨h1, h2⟩ := writesTo_f16 toF16 ws
    exact ⟨congrArg (_ :: ·) h1, congrArg (_ :: ·) h2⟩

theorem f16Kind_lawful (K : QuantKernels) (toF16 : F32 → BitVec 16) :
    Lawful K (f16Kind toF16) (fun _ => True) (f16Image toF16) where
  complete := F16Channel.mem_all
  width_pos _ _ hv := hv
  width_le _ _ _ := le_refl _
  elemBytes_le _ v _ := by
    change v * 2 ≤ 4 * v
    omega
  stageLens _ c h := by
    change (kvCacheStageElementLen c >>= _) = _
    rw [kvCacheStageElementLen_ok h]
    rfl
  activeBlocks {c W} h _ := by
    obtain ⟨blocks, hblocks, hrep⟩ := h.toLayout.activeBlocks
    refine ⟨blocks, mapShapeError_ok.mpr hblocks, fun hpos => ?_⟩
    obtain ⟨run, block, rest, rfl, ⟨blk, -, rfl⟩, hfirst⟩ := first_listed h.toLayout hpos hrep
    exact congrArg some hfirst
  unsupported _ hno := absurd trivial hno
  stageWrites {c W} a {blocks} h hblocks := by
    obtain ⟨ws, hws, hk, hv, -⟩ := kvStageWrites_ok (a := a) h (le_of_eq h.length.symm)
      (mapShapeError_ok.mp hblocks)
    refine ⟨ws.flatMap (f16StageWrites toF16), ?_, fun ch => ?_⟩
    · change (kvStageWritesFromActiveBlocks blocks a c.tokenCount c.vectorLen c.maxTokens >>= _) = _
      rw [hws]
      rfl
    · obtain ⟨h1, h2⟩ := writesTo_f16 toF16 ws
      cases ch with
      | keys =>
        rw [h1]
        exact hk.map toF16
      | values =>
        rw [h2]
        exact hv.map toF16
  rowData {c W key value row} h hrow := by
    change (mapShapeError (c.validateSlidingAppend key value) >>= _) = _ at hrow
    cases hval : c.validateSlidingAppend key value with
    | error e =>
      rw [hval] at hrow
      cases hrow
    | ok u =>
      rw [hval] at hrow
      cases hrow
      refine ⟨trivial, validateSlidingAppend_ok.mp hval, ?_⟩
      funext ch
      cases ch <;> rfl
  image_length {c r} hr ch := by
    cases ch with
    | keys => exact (List.length_map _).trans hr.key
    | values => exact (List.length_map _).trans hr.value
  rowStarts {c p} h hp := by
    change (kvStageDestinationStarts p 1 c.vectorLen c.maxTokens _ >>= _) = _
    rw [kvStageDestinationStarts_ok _ (by omega) (stage_words h).1 (stage_words h).2]
    rfl

/-- What a row is in the buffers of the int8 stage. -/
def int8Image (K : QuantKernels) : (ch : Int8Channel) → Row → List ch.Elem
  | .keys, r => int8Row K r.1
  | .values, r => int8Row K r.2
  | .keyScales, r => [K.int8Scale r.1]
  | .valueScales, r => [K.int8Scale r.2]

theorem Int8Channel.mem_all (ch : Int8Channel) :
    ch ∈ [Int8Channel.keys, .values, .keyScales, .valueScales] := by
  cases ch <;> decide

theorem writesTo_int8 (K : QuantKernels) : ∀ ws : List MetalInt8StageWrite,
    writesTo (κ := int8Kind K) Int8Channel.keys (ws.flatMap int8StageWrites) = keyCodeWrites ws ∧
      writesTo (κ := int8Kind K) Int8Channel.values (ws.flatMap int8StageWrites) =
        valueCodeWrites ws ∧
      writesTo (κ := int8Kind K) Int8Channel.keyScales (ws.flatMap int8StageWrites) =
        keyScaleWrites ws ∧
      writesTo (κ := int8Kind K) Int8Channel.valueScales (ws.flatMap int8StageWrites) =
        valueScaleWrites ws
  | [] => ⟨rfl, rfl, rfl, rfl⟩
  | w :: ws => by
    obtain ⟨h1, h2, h3, h4⟩ := writesTo_int8 K ws
    exact ⟨congrArg (_ :: ·) h1, congrArg (_ :: ·) h2, congrArg (_ :: ·) h3, congrArg (_ :: ·) h4⟩

/-- A token for a direct append is made of an acceptable row of an int8 cache. -/
theorem int8DirectAppendToken_inv {K : QuantKernels} {c : LayerKvCache} {key value : List F32}
    {token : LayerInt8KvToken} (h : c.int8DirectAppendToken K key value = .ok (some token)) :
    c.config.format = .int8 ∧ Acceptable c (key, value) := by
  unfold int8DirectAppendToken at h
  by_cases hf : c.config.format = .int8
  · rw [if_neg (not_not.mpr hf)] at h
    obtain ⟨u, hval, -⟩ := bind_eq_ok.mp h
    exact ⟨hf, validateSlidingAppend_ok.mp hval⟩
  · rw [if_pos hf] at h
    cases h

theorem int8Kind_lawful (K : QuantKernels) :
    Lawful K (int8Kind K) (fun c => c.config.format = .int8) (int8Image K) where
  complete := Int8Channel.mem_all
  width_pos ch v hv := by
    cases ch with
    | keys => exact hv
    | values => exact hv
    | keyScales => exact Nat.one_pos
    | valueScales => exact Nat.one_pos
  width_le ch v hv := by
    cases ch with
    | keys => exact le_refl v
    | values => exact le_refl v
    | keyScales => exact hv
    | valueScales => exact hv
  elemBytes_le ch v hv := by
    cases ch with
    | keys => exact show v * 1 ≤ 4 * v by omega
    | values => exact show v * 1 ≤ 4 * v by omega
    | keyScales => exact show 1 * 4 ≤ 4 * v by omega
    | valueScales => exact show 1 * 4 ≤ 4 * v by omega
  stageLens append c h := by
    change (kvCacheStageElementLen c >>= fun len => okOrShape _ (checkedMul c.maxTokens 2) >>= _) = _
    rw [kvCacheStageElementLen_ok h, checkedMul_of_le (by have := (stage_words h).2; omega)]
    refine congrArg Except.ok (funext fun ch => ?_)
    cases ch with
    | keys => rfl
    | values => rfl
    | keyScales => exact show c.maxTokens * 2 = 2 * c.maxTokens * 1 by omega
    | valueScales => exact show c.maxTokens * 2 = 2 * c.maxTokens * 1 by omega
  activeBlocks {c W} h hint8 := by
    obtain ⟨hno, -⟩ | ⟨blocks, hblocks, hrep⟩ := h.activeInt8Blocks
    · exact absurd hint8 hno
    refine ⟨blocks, ?_, fun hpos => ?_⟩
    · change (mapShapeError c.activeInt8Blocks >>= _) = _
      rw [hblocks]
      rfl
    obtain ⟨run, block, rest, rfl, ⟨blk, -, rfl⟩, hfirst⟩ := first_listed h.toLayout hpos hrep
    exact congrArg some hfirst
  unsupported {c W} h hno := by
    obtain ⟨-, hnone⟩ | ⟨blocks, hblocks, -⟩ := h.activeInt8Blocks
    · refine ⟨.invalidShape "INT8 KV cache format has no INT8 block storage", ?_⟩
      change (mapShapeError c.activeInt8Blocks >>= _) = _
      rw [hnone]
      rfl
    · have hsome := h.int8_iff
      unfold LayerKvCache.activeInt8Blocks at hblocks
      cases hst : c.int8Storage with
      | none =>
        rw [hst] at hblocks
        cases hblocks
      | some store =>
        rw [hst] at hsome
        exact absurd (hsome.mp rfl) hno
  stageWrites {c W} a {blocks} h hblocks := by
    obtain ⟨bs, hbs, hok⟩ := bind_eq_ok.mp (show
      (mapShapeError c.activeInt8Blocks >>= fun bs => okOrShape _ bs) = .ok blocks from hblocks)
    cases bs with
    | none => cases hok
    | some bs =>
      cases hok
      obtain ⟨ws, hws, h1, h2, h3, h4, -⟩ := int8KvStageWrites_ok (a := a) h
        (le_of_eq h.length.symm) (mapShapeError_ok.mp hbs)
      refine ⟨ws.flatMap int8StageWrites, ?_, fun ch => ?_⟩
      · change (int8KvStageWritesFromActiveBlocks blocks a c.tokenCount c.vectorLen c.maxTokens >>= _) = _
        rw [hws]
        rfl
      · obtain ⟨e1, e2, e3, e4⟩ := writesTo_int8 K ws
        cases ch with
        | keys =>
          rw [e1]
          exact h1
        | values =>
          rw [e2]
          exact h2
        | keyScales =>
          rw [e3]
          exact h3
        | valueScales =>
          rw [e4]
          exact h4
  rowData {c W key value row} h hrow := by
    change (mapShapeError (c.int8DirectAppendToken K key value) >>= _) = _ at hrow
    obtain ⟨token?, htoken, hrest⟩ := bind_eq_ok.mp hrow
    cases token? with
    | none => cases hrest
    | some token =>
      cases hrest
      have hok := mapShapeError_ok.mp htoken
      obtain ⟨hint8, hacc⟩ := int8DirectAppendToken_inv hok
      refine ⟨hint8, hacc, ?_⟩
      rw [int8DirectAppendToken_ok (r := (key, value)) h hint8 hacc] at hok
      cases hok
      funext ch
      cases ch <;> rfl
  image_length {c r} hr ch := by
    cases ch with
    | keys => exact (List.length_map _).trans hr.key
    | values => exact (List.length_map _).trans hr.value
    | keyScales => rfl
    | valueScales => rfl
  rowStarts {c p} h hp := by
    have hwords := (stage_words h).2
    change (kvStageDestinationStarts p 1 c.vectorLen c.maxTokens _ >>= _) = _
    rw [kvStageDestinationStarts_ok _ (by omega) (stage_words h).1 hwords]
    change (okOrShape _ (checkedAdd p c.maxTokens) >>= _) = _
    rw [checkedAdd_of_le (by omega)]
    refine congrArg Except.ok ?_
    have hstart : ∀ q, (fun ch : Int8Channel => if ch.isScale then q else q * c.vectorLen) =
        fun ch => q * Int8Channel.width ch c.vectorLen := fun q => by
      funext ch
      cases ch <;> simp [Int8Channel.isScale, Int8Channel.width]
    rw [hstart, hstart]
    rfl

end KirAi.NativeRuntime
