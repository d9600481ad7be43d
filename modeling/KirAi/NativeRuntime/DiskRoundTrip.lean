/-
# Blocks of the disk cache give the prefix state back

For both model families: the blocks of a prompt, each encoded from the prefix
states at its end, written as a file and read again, are assembled to the states
at the end of the last one. A file can be read when its header is not over the
reader's limit and it fits in memory, and every call needs block ids for the
caches it makes.

Key definitions: `DiskFamily`, `Codes`.
Key theorems: `diskBlocks_roundTrip`.
-/
import KirAi.NativeRuntime.DiskCodecSound

namespace KirAi.NativeRuntime

open Lib KvCache LayerKvCache

variable {K : QuantKernels} {rt : Statics} {state : LayerKvCachePrefixState}

/-! ### The two families -/

/-- The kinds of layers in the names of a Qwen file. -/
def qwenKind : LayerHistory → String
  | .rows .. => ".full"
  | .linear _ => ".linear"

def gemmaKind : LayerHistory → String := fun _ => ".attention"

/-- The layout of a layer in block `i`. -/
def qwenLayout (B i : ℕ) (pfx : String) : LayerHistory → NativeTextDiskCacheLayerLayout
  | .rows shape revisions all =>
    .qwenFull (shape.layout pfx (revisions (i + 1)) ((i + 1) * B) (blockRows B i all))
  | .linear caches => .qwenLinear (linearLayout pfx (caches (i + 1)))

def gemmaLayout (B i : ℕ) (pfx : String) : LayerHistory → NativeTextDiskCacheLayerLayout
  | .rows shape revisions all =>
    .gemmaFull (shape.layout pfx (revisions (i + 1)) ((i + 1) * B) (blockRows B i all))
  | .linear caches => .qwenLinear (linearLayout pfx (caches (i + 1)))

/-- A Gemma layer is a layer of rows. -/
def GemmaLayerCachePrefixState.view : GemmaLayerCachePrefixState → QwenLayerCachePrefixState
  | .attention state => .full state

section Families

variable {B i n : ℕ}

variable (state) in
theorem LayerHistory.At.rows_full {h : LayerHistory} {k : ℕ}
    (hat : h.At K B k (.full state)) : ∃ shape revisions all, h = .rows shape revisions all ∧
      k * B ≤ all.length ∧ HoldsRows K shape (revisions k) (all.take (k * B)) state := by
  cases h with
  | rows shape revisions all => exact ⟨shape, revisions, all, rfl, hat⟩
  | linear caches => exact hat.elim

theorem encodeQwenLayer_at (hword : (i + 1) * B ≤ wordMax) (h : LayerHistory)
    (state : QwenLayerCachePrefixState) (j : ℕ) (sink : NativeTextDiskCacheTensorSink) (rt : Statics)
    (hat : h.At K B (i + 1) state) (hrt : rt.nextBlockId + h.ids < wordMax) :
    ∃ rt', encodeQwenLayer K (i * B) B (state, j) (sink, rt) =
      .ok (qwenLayout B i (layerPrefix qwenKind h j) h,
        ⟨sink.tensors ++ h.tensors (layerPrefix qwenKind h j) B i⟩, rt') ∧
      rt'.nextBlockId ≤ rt.nextBlockId + h.ids := by
  cases h with
  | rows shape revisions all =>
    cases state with
    | linear snapshot => exact hat.elim
    | full state =>
      obtain ⟨hlen, hholds⟩ := hat
      obtain ⟨rt', hok, hle⟩ := encodeLayerKvBlock_rows hlen hholds hrt
        ("layers." ++ toString j ++ ".full") sink
      exact ⟨rt', by simp only [encodeQwenLayer, hok, ok_bind]; rfl, hle⟩
  | linear caches =>
    cases state with
    | full state => exact hat.elim
    | linear snapshot =>
      obtain ⟨hcount, rfl⟩ := hat
      have hstep : i * B + B = (i + 1) * B := (Nat.add_one_mul i B).symm
      have hend : ¬ (caches (i + 1)).snapshot.tokenCount ≠ i * B + B := by
        rw [hstep, ← hcount]
        exact fun hne => hne rfl
      refine ⟨rt, ?_, by omega⟩
      simp only [encodeQwenLayer, checkedAdd_of_le (show i * B + B ≤ wordMax by omega), okOrElse_some,
        ok_bind, if_neg hend, encodeLinearAttentionSnapshot_cache]
      rfl

theorem encodeGemmaLayer_at (h : LayerHistory) (state : GemmaLayerCachePrefixState) (j : ℕ)
    (sink : NativeTextDiskCacheTensorSink) (rt : Statics)
    (hat : h.At K B (i + 1) state.view) (hrt : rt.nextBlockId + h.ids < wordMax) :
    ∃ rt', encodeGemmaLayer K (i * B) B (state, j) (sink, rt) =
      .ok (gemmaLayout B i (layerPrefix gemmaKind h j) h,
        ⟨sink.tensors ++ h.tensors (layerPrefix gemmaKind h j) B i⟩, rt') ∧
      rt'.nextBlockId ≤ rt.nextBlockId + h.ids := by
  obtain ⟨state⟩ := state
  obtain ⟨shape, revisions, all, rfl, hlen, hholds⟩ := hat.rows_full state
  obtain ⟨rt', hok, hle⟩ := encodeLayerKvBlock_rows hlen hholds hrt
    ("layers." ++ toString j ++ ".attention") sink
  exact ⟨rt', by simp only [encodeGemmaLayer, hok, ok_bind]; rfl, hle⟩

/-- Reading the rows of block `i`. -/
theorem decodeRowsLayer {shape : RowShape} (revisions : ℕ → ℕ) {all : List Row} {pfx : String}
    {archive : NativeTextDiskCacheTensorArchive} (hlen : (i + 1) * B ≤ all.length)
    (hholds : shape.Holds (all.take ((i + 1) * B)))
    (harch : Archived archive (shape.tensors pfx (blockRows B i all)))
    (hrt : rt.nextBlockId + 3 * shape.maxTokens < wordMax) :
    ∃ state rt', decodeLayerKvPrefixState K
        (shape.layout pfx (revisions (i + 1)) ((i + 1) * B) (blockRows B i all)) archive rt =
        .ok (state, rt') ∧ DecodedBlock K shape B revisions all i state ∧
      rt'.nextBlockId ≤ rt.nextBlockId + 3 * shape.maxTokens := by
  have hsub : (blockRows B i all).Sublist (all.take ((i + 1) * B)) := by
    rw [← blockRows_take]
    exact (List.take_sublist _ _).trans (List.drop_sublist _ _)
  refine decodeLayerKvPrefixState_rows (hholds.of_sublist hsub) ?_ harch hrt
  rw [blockRows_length hlen]
  exact Nat.le_mul_of_pos_left B (Nat.succ_pos i)

theorem decodeQwenLayer_at {archive : NativeTextDiskCacheTensorArchive} (h : LayerHistory)
    (state : QwenLayerCachePrefixState) (j : ℕ) (rt : Statics) (hat : h.At K B (i + 1) state)
    (harch : Archived archive (h.tensors (layerPrefix qwenKind h j) B i))
    (hrt : rt.nextBlockId + 3 * h.ids < wordMax) :
    ∃ state rt', decodeQwenLayer K archive (qwenLayout B i (layerPrefix qwenKind h j) h) rt =
      .ok (state, rt') ∧ h.DecodedAt K B i state ∧ rt'.nextBlockId ≤ rt.nextBlockId + 3 * h.ids := by
  cases h with
  | rows shape revisions all =>
    cases state with
    | linear snapshot => exact hat.elim
    | full state =>
      obtain ⟨hlen, hholds⟩ := hat
      obtain ⟨state, rt', hok, hdec, hle⟩ := decodeRowsLayer revisions hlen hholds.holds
        harch hrt
      exact ⟨.full state, rt', by simp only [decodeQwenLayer, qwenLayout, hok, ok_bind]; rfl, hdec, hle⟩
  | linear caches =>
    refine ⟨.linear (caches (i + 1)).snapshot, rt, ?_, rfl, by omega⟩
    simp only [decodeQwenLayer, qwenLayout, decodeLinearAttentionSnapshot_cache harch, ok_bind]
    rfl

theorem decodeGemmaLayer_at {archive : NativeTextDiskCacheTensorArchive} (h : LayerHistory)
    (state : GemmaLayerCachePrefixState) (j : ℕ) (rt : Statics) (hat : h.At K B (i + 1) state.view)
    (harch : Archived archive (h.tensors (layerPrefix gemmaKind h j) B i))
    (hrt : rt.nextBlockId + 3 * h.ids < wordMax) :
    ∃ (state : GemmaLayerCachePrefixState) (rt' : Statics),
      decodeGemmaLayer K archive (gemmaLayout B i (layerPrefix gemmaKind h j) h) rt =
      .ok (state, rt') ∧ h.DecodedAt K B i state.view ∧
      rt'.nextBlockId ≤ rt.nextBlockId + 3 * h.ids := by
  obtain ⟨state⟩ := state
  obtain ⟨shape, revisions, all, rfl, hlen, hholds⟩ := hat.rows_full state
  obtain ⟨state, rt', hok, hdec, hle⟩ := decodeRowsLayer revisions hlen hholds.holds
    harch hrt
  exact ⟨.attention state, rt', by simp only [decodeGemmaLayer, gemmaLayout, hok, ok_bind]; rfl, hdec,
    hle⟩

theorem lastBlock {S : Type} {view : S → QwenLayerCachePrefixState} {layers : List LayerHistory}
    {blocks : List (NativeTextDiskCacheStateBlock S)} (hpos : 0 < n)
    (hblocks : List.Forall₂ (ReadBlock K view B layers) (List.range n) blocks) :
    ∃ block, blocks.getLast? = some block ∧ ReadBlock K view B layers (n - 1) block := by
  have hlen := hblocks.length_eq
  rw [List.length_range] at hlen
  have hlast : n - 1 < blocks.length := by omega
  refine ⟨blocks[n - 1], ?_, ?_⟩
  · rw [List.getLast?_eq_getElem?, ← hlen, List.getElem?_eq_getElem hlast]
  · have hget := (List.forall₂_iff_get.mp hblocks).2 (n - 1) (by simp; omega) hlast
    simpa using hget

theorem assembleQwenLayer_at {layers : List LayerHistory}
    {first : NativeTextDiskCacheStateBlock QwenLayerCachePrefixState}
    {blocks : List (NativeTextDiskCacheStateBlock QwenLayerCachePrefixState)} (hpos : 0 < n)
    (hfirst : ReadBlock K id B layers 0 first)
    (hblocks : List.Forall₂ (ReadBlock K id B layers) (List.range n) blocks) (j : ℕ)
    (h : LayerHistory) (state : QwenLayerCachePrefixState) (rt : Statics) (hj : layers[j]? = some h)
    (hat : h.At K B n (id state)) (hrt : rt.nextBlockId + (n + 2) * h.ids < wordMax) :
    ∃ state' rt', assembleQwenLayer K first blocks j rt = .ok (state', rt') ∧
      SameLayer (id state') (id state) ∧ rt'.nextBlockId ≤ rt.nextBlockId + (n + 2) * h.ids := by
  obtain ⟨state₀, hstate₀, hdec₀⟩ := hfirst.layer hj
  have hcount := hfirst.states.length_eq
  cases h with
  | rows shape revisions all =>
    cases state₀ with
    | linear snapshot => exact hdec₀.elim
    | full s₀ =>
      obtain ⟨states, s, rt', hstates, hok, hsame, hle⟩ := assembleRowsLayer
        QwenLayerCachePrefixState.full? (fun st s hs => by rw [show st = .full s from hs]; rfl) hj
        "inconsistent Qwen disk block layer count" "mixed Qwen disk block layer layout" hpos hblocks
        hat hrt
      refine ⟨.full s, rt', ?_, hsame, hle⟩
      rw [hcount] at hstates
      simp only [assembleQwenLayer, hstate₀, okOrElse_some, ok_bind, hstates, hok]
      rfl
  | linear caches =>
    cases state₀ with
    | full s₀ => exact hdec₀.elim
    | linear snapshot₀ =>
      obtain ⟨last, hlast, hread⟩ := lastBlock hpos hblocks
      obtain ⟨stateL, hstateL, hdecL⟩ := hread.layer hj
      cases stateL with
      | full s => exact hdecL.elim
      | linear snapshot =>
        cases state with
        | full s => exact hat.elim
        | linear final =>
          have hn : n - 1 + 1 = n := by omega
          refine ⟨.linear snapshot, rt, ?_, ?_, by omega⟩
          · simp only [assembleQwenLayer, hstate₀, okOrElse_some, ok_bind, hlast, Option.bind_some,
              hstateL]
            rfl
          · have hsnap : snapshot = (caches (n - 1 + 1)).snapshot := hdecL
            rw [hn] at hsnap
            exact hsnap.trans hat.2.symm

theorem assembleGemmaLayer_at {layers : List LayerHistory}
    {blocks : List (NativeTextDiskCacheStateBlock GemmaLayerCachePrefixState)} (hpos : 0 < n)
    (hblocks : List.Forall₂ (ReadBlock K GemmaLayerCachePrefixState.view B layers) (List.range n)
      blocks) (j : ℕ) (h : LayerHistory) (state : GemmaLayerCachePrefixState) (rt : Statics)
    (hj : layers[j]? = some h) (hat : h.At K B n state.view)
    (hrt : rt.nextBlockId + (n + 2) * h.ids < wordMax) :
    ∃ state' rt', assembleGemmaLayer K layers.length blocks j rt = .ok (state', rt') ∧
      SameLayer (GemmaLayerCachePrefixState.view state') state.view ∧
      rt'.nextBlockId ≤ rt.nextBlockId + (n + 2) * h.ids := by
  obtain ⟨shape, revisions, all, rfl, -⟩ := LayerHistory.At.rows_full state.1 hat
  obtain ⟨states, s, rt', hstates, hok, hsame, hle⟩ := assembleRowsLayer
    GemmaLayerCachePrefixState.attention? (fun st s hs => by cases st; cases hs; rfl) hj
    "inconsistent Gemma disk block layer count" "mixed Gemma disk block layer layout" hpos hblocks
    hat hrt
  refine ⟨.attention s, rt', ?_, hsame, hle⟩
  simp only [assembleGemmaLayer, hstates, ok_bind, hok]
  rfl

end Families

/-! ### The names of the tensors -/

/-- The digits after `layers.`: the index of the layer a tensor belongs to. -/
def layerDigits (name : String) : List Char := (name.toList.drop 7).takeWhile Char.isDigit

theorem layerDigits_prefix (j : ℕ) (rest : List Char) (hrest : ∀ c ∈ rest.head?, c.isDigit = false)
    {name : String} (hname : name.toList = "layers.".toList ++ ((toString j).toList ++ rest)) :
    layerDigits name = (toString j).toList := by
  have hdigits : ∀ c ∈ (toString j).toList, c.isDigit = true := fun c hc => by
    rw [show (toString j).toList = Nat.toDigits 10 j from Nat.toList_repr] at hc
    exact Nat.isDigit_of_mem_toDigits (by decide) (by decide) hc
  rw [layerDigits, hname, List.drop_left' (by decide), List.takeWhile_append_of_pos hdigits]
  cases rest with
  | nil => simp
  | cons c rest => rw [List.takeWhile_cons_of_neg (by simp [hrest c rfl]), List.append_nil]

/-- The kind in the names of a family starts with a dot. -/
def Dotted (kind : LayerHistory → String) : Prop := ∀ h, (kind h).toList.head? = some '.'

/-- A tensor's name is the prefix of its layer and a suffix of its own. -/
theorem LayerHistory.tensors_name {h : LayerHistory} {pfx : String} {B i : ℕ}
    {t : NativeTextDiskCacheTensor} (ht : t ∈ h.tensors pfx B i) :
    ∃ suffix, t.name = pfx ++ suffix := by
  cases h with
  | rows shape revisions all =>
    simp only [tensors, RowShape.tensors, List.mem_cons, List.not_mem_nil, or_false] at ht
    rcases ht with rfl | rfl <;> exact ⟨_, rfl⟩
  | linear caches =>
    simp only [tensors, linearTensors, List.mem_cons, List.not_mem_nil, or_false] at ht
    rcases ht with rfl | rfl <;> exact ⟨_, rfl⟩

theorem LayerHistory.tensors_names_nodup (h : LayerHistory) (pfx : String) (B i : ℕ) :
    ((h.tensors pfx B i).map (·.name)).Nodup := by
  cases h with
  | rows shape revisions all => simp [tensors, RowShape.tensors]
  | linear caches => simp [tensors, linearTensors]

section Names

variable {kind : LayerHistory → String} {B i : ℕ}

theorem layerDigits_tensor (hkind : Dotted kind) {h : LayerHistory} {j : ℕ}
    {t : NativeTextDiskCacheTensor} (ht : t ∈ h.tensors (layerPrefix kind h j) B i) :
    layerDigits t.name = (toString j).toList := by
  obtain ⟨suffix, hname⟩ := LayerHistory.tensors_name ht
  refine layerDigits_prefix j ((kind h).toList ++ suffix.toList) (fun c hc => ?_) ?_
  · rw [List.head?_append, hkind h] at hc
    simp only [Option.some_or, Option.mem_def, Option.some.injEq] at hc
    rw [← hc]
    decide
  · simp [hname, layerPrefix, String.toList_append, List.append_assoc]

theorem blockTensors_mem {layers : List LayerHistory} {j : ℕ} {t : NativeTextDiskCacheTensor}
    (ht : t ∈ blockTensors kind B i layers j) :
    ∃ h k, t ∈ LayerHistory.tensors (layerPrefix kind h k) B i h := by
  obtain ⟨⟨h, k⟩, -, ht⟩ := List.mem_flatMap.mp ht
  exact ⟨h, k, ht⟩

/-- Every name of a layer's tensor starts with an `l`. -/
theorem blockTensors_name_head {layers : List LayerHistory} {j : ℕ} {t : NativeTextDiskCacheTensor}
    (ht : t ∈ blockTensors kind B i layers j) : t.name.toList.head? = some 'l' := by
  obtain ⟨h, k, ht⟩ := blockTensors_mem ht
  obtain ⟨suffix, hname⟩ := LayerHistory.tensors_name ht
  rw [hname, layerPrefix]
  simp [String.toList_append]

theorem blockTensors_names_nodup (hkind : Dotted kind) (layers : List LayerHistory) (j : ℕ) :
    ((blockTensors kind B i layers j).map (·.name)).Nodup := by
  rw [blockTensors, List.map_flatMap, List.nodup_flatMap]
  refine ⟨fun p _ => LayerHistory.tensors_names_nodup _ _ _ _, ?_⟩
  have hidx : (layers.zipIdx j).Pairwise fun p q => p.2 ≠ q.2 := by
    rw [← List.pairwise_map (f := Prod.snd) (R := (· ≠ ·)), List.zipIdx_map_snd]
    exact List.nodup_range'
  refine hidx.imp fun {p q} hne x hx hx' => ?_
  obtain ⟨t, ht, rfl⟩ := List.mem_map.mp hx
  obtain ⟨t', ht', heq⟩ := List.mem_map.mp hx'
  refine hne (toString_nat_inj ?_)
  rw [← layerDigits_tensor hkind ht, ← layerDigits_tensor hkind ht', heq]

end Names

/-! ### What a family does with the layers of a block -/

/-- What the codec of a family does with layers that are at a boundary. -/
structure Codes {S : Type} (K : QuantKernels) (C : NativeTextDiskCacheValue S)
    (view : S → QwenLayerCachePrefixState) (kind : LayerHistory → String)
    (layout : ℕ → ℕ → String → LayerHistory → NativeTextDiskCacheLayerLayout) : Prop where
  dotted : Dotted kind
  encode : ∀ {B i : ℕ} {layers : List LayerHistory} {states : List S}
    (sink : NativeTextDiskCacheTensorSink) (rt : Statics), (i + 1) * B ≤ wordMax →
    AtBoundary K view B (i + 1) layers states → rt.nextBlockId + idsOf layers < wordMax →
    ∃ rt', C.encodeDiskBlockStates states (i * B) B sink rt =
      .ok (blockLayouts kind (layout B i) layers 0,
        ⟨sink.tensors ++ blockTensors kind B i layers 0⟩, rt')
  decode : ∀ {B i : ℕ} {layers : List LayerHistory} {states : List S}
    {archive : NativeTextDiskCacheTensorArchive} (rt : Statics),
    AtBoundary K view B (i + 1) layers states → Archived archive (blockTensors kind B i layers 0) →
    rt.nextBlockId + 3 * idsOf layers < wordMax →
    ∃ decoded rt', C.decodeDiskStates (blockLayouts kind (layout B i) layers 0) archive rt =
      .ok (decoded, rt') ∧ List.Forall₂ (fun h state => h.DecodedAt K B i (view state)) layers decoded
  assemble : ∀ {B n : ℕ} {layers : List LayerHistory} {final : List S}
    {blocks : List (NativeTextDiskCacheStateBlock S)} (rt : Statics), 0 < n → n * B ≤ wordMax →
    List.Forall₂ (ReadBlock K view B layers) (List.range n) blocks →
    AtBoundary K view B n layers final → rt.nextBlockId + (n + 2) * idsOf layers < wordMax →
    ∃ states rt', C.assembleDiskBlockStates blocks rt = .ok (states, rt') ∧
      List.Forall₂ (fun a b => SameLayer (view a) (view b)) states final

/-- The first of the blocks that were read, and that they follow each other. -/
theorem readBlocks_first {S : Type} {view : S → QwenLayerCachePrefixState} {B n : ℕ}
    {layers : List LayerHistory} {blocks : List (NativeTextDiskCacheStateBlock S)} (hpos : 0 < n)
    (hword : n * B ≤ wordMax)
    (h : List.Forall₂ (ReadBlock K view B layers) (List.range n) blocks) :
    ∃ first rest, blocks = first :: rest ∧ ReadBlock K view B layers 0 first ∧
      validateContiguousDiskBlocks blocks = .ok () := by
  have hcont := validateContiguousFrom_blocks hword n 0 blocks (by rwa [← List.range_eq_range'])
    (Nat.zero_add n)
  rw [Nat.zero_mul] at hcont
  obtain ⟨m, rfl⟩ : ∃ m, n = m + 1 := ⟨n - 1, by omega⟩
  rw [List.range_succ_eq_map] at h
  cases h with
  | @cons _ first _ rest hfirst hrest => exact ⟨first, rest, rfl, hfirst, hcont⟩

theorem qwenDiskCacheValue_codes :
    Codes K (qwenDiskCacheValue K) id qwenKind (fun B i => qwenLayout B i) where
  dotted h := by cases h <;> simp [qwenKind]
  encode sink rt hword hat hrt := by
    obtain ⟨rt', hok, -⟩ := traverse_encode (encodeQwenLayer_at hword) 0 sink rt hat hrt
    exact ⟨rt', hok⟩
  decode rt hat harch hrt := traverse_decode decodeQwenLayer_at 0 rt hat harch hrt
  assemble {B n layers final blocks} rt hpos hword hblocks hfinal hrt := by
    obtain ⟨first, rest, rfl, hfirst, hcont⟩ := readBlocks_first hpos hword hblocks
    obtain ⟨states, rt', hok, hsame⟩ := traverse_assemble hfinal
      (assembleQwenLayer_at hpos hfirst hblocks) hrt
    refine ⟨states, rt', ?_, hsame⟩
    rw [hfirst.states.length_eq] at hok
    simp only [qwenDiskCacheValue, hcont, ok_bind, hok]

theorem gemmaDiskCacheValue_codes :
    Codes K (gemmaDiskCacheValue K) GemmaLayerCachePrefixState.view gemmaKind
      (fun B i => gemmaLayout B i) where
  dotted h := by simp [gemmaKind]
  encode sink rt _ hat hrt := by
    obtain ⟨rt', hok, -⟩ := traverse_encode encodeGemmaLayer_at 0 sink rt hat hrt
    exact ⟨rt', hok⟩
  decode rt hat harch hrt := traverse_decode decodeGemmaLayer_at 0 rt hat harch hrt
  assemble {B n layers final blocks} rt hpos hword hblocks hfinal hrt := by
    obtain ⟨first, rest, rfl, hfirst, hcont⟩ := readBlocks_first hpos hword hblocks
    obtain ⟨states, rt', hok, hsame⟩ := traverse_assemble hfinal
      (assembleGemmaLayer_at hpos hblocks) hrt
    refine ⟨states, rt', ?_, hsame⟩
    rw [hfirst.states.length_eq] at hok
    simp only [gemmaDiskCacheValue, hcont, ok_bind]
    rw [← hfirst.states.length_eq] at hok ⊢
    exact hok

/-- The model families, each with the view of its layers. -/
inductive DiskFamily (K : QuantKernels) : {S : Type} → NativeTextDiskCacheValue S →
    (S → QwenLayerCachePrefixState) → Prop where
  | qwen : DiskFamily K (qwenDiskCacheValue K) id
  | gemma : DiskFamily K (gemmaDiskCacheValue K) GemmaLayerCachePrefixState.view

theorem DiskFamily.codes {S : Type} {C : NativeTextDiskCacheValue S}
    {view : S → QwenLayerCachePrefixState} (h : DiskFamily K C view) :
    ∃ kind layout, Codes K C view kind layout := by
  cases h with
  | qwen => exact ⟨_, _, qwenDiskCacheValue_codes⟩
  | gemma => exact ⟨_, _, gemmaDiskCacheValue_codes⟩

/-! ### Files -/

section Files

variable {S : Type} {C : NativeTextDiskCacheValue S} {view : S → QwenLayerCachePrefixState}
  {J : SerdeJson} {B n : ℕ} {layers : List LayerHistory}

/-- The descriptor of block `i` of a prompt, for the model that is served. -/
structure NativeTextDiskCacheBlockDescriptor.Describes
    (descriptor : NativeTextDiskCacheBlockDescriptor) (identity : NativeTextDiskCacheIdentity)
    (B i : ℕ) : Prop where
  identity : descriptor.validateForIdentity identity = .ok ()
  start : descriptor.blockStart = i * B
  count : descriptor.tokenCount = B

theorem pushF32_hidden {hidden : List F32} (h : hidden.length ≤ vecF32Max) :
    NativeTextDiskCacheTensorSink.default.pushF32 "hidden" [hidden.length] hidden =
      .ok ⟨[⟨"hidden", [hidden.length], hidden⟩]⟩ := by
  have hlen : 1 * hidden.length ≤ wordMax := by
    unfold vecF32Max at h
    unfold wordMax
    omega
  simp only [NativeTextDiskCacheTensorSink.pushF32, NativeTextDiskCacheTensorSink.default,
    List.foldlM_cons, List.foldlM_nil, checkedMul_of_le hlen, Nat.one_mul, Option.bind_eq_bind,
    Option.bind_some, Option.pure_def, okOrElse_some, ok_bind, ne_eq, not_true_eq_false, ↓reduceIte,
    List.nil_append]
  rfl

/-- The metadata of block `i`. -/
def blockMetadata (descriptor : NativeTextDiskCacheBlockDescriptor) (hidden : List F32) (B i : ℕ)
    (layers : List NativeTextDiskCacheLayerLayout) : NativeTextDiskCacheBlockMetadata where
  codec := nativeTextDiskCacheCodec
  layoutVersion := nativeTextDiskCacheLayoutVersion
  cacheLayoutVersion := descriptor.cacheLayoutVersion
  modelFamily := descriptor.modelFamily
  modelHash := descriptor.modelHash
  snapshotHash := descriptor.snapshotHash
  namespaceHash := descriptor.namespaceHash
  previousBlockHash := descriptor.previousBlockHash
  blockHash := descriptor.blockHash
  blockStart := i * B
  tokenCount := B
  hiddenShape := [hidden.length]
  layers := layers

/-- All tensors of block `i`. -/
def fileTensors (kind : LayerHistory → String) (hidden : List F32) (B i : ℕ)
    (layers : List LayerHistory) : List NativeTextDiskCacheTensor :=
  ⟨"hidden", [hidden.length], hidden⟩ :: blockTensors kind B i layers 0

theorem fileTensors_names {kind : LayerHistory → String} (hkind : Dotted kind) (hidden : List F32)
    (B i : ℕ) (layers : List LayerHistory) :
    ((fileTensors kind hidden B i layers).map (·.name)).Nodup ∧
      "__metadata__" ∉ (fileTensors kind hidden B i layers).map (·.name) := by
  have hhead : ∀ name : String, name.toList.head? ≠ some 'l' →
      name ∉ (blockTensors kind B i layers 0).map (·.name) := fun name hname hm => by
    obtain ⟨t, ht, rfl⟩ := List.mem_map.mp hm
    exact hname (blockTensors_name_head ht)
  rw [fileTensors, List.map_cons, List.nodup_cons, List.mem_cons, not_or]
  exact ⟨⟨hhead "hidden" (by simp), blockTensors_names_nodup hkind layers 0⟩, by simp,
    hhead "__metadata__" (by simp)⟩

/-- What is written of block `i`. -/
theorem Codes.encode_eq {kind : LayerHistory → String}
    {layout : ℕ → ℕ → String → LayerHistory → NativeTextDiskCacheLayerLayout}
    (hC : Codes K C view kind layout) {i : ℕ} (hword : (i + 1) * B ≤ wordMax) {states : List S}
    (hat : AtBoundary K view B (i + 1) layers states) {identity : NativeTextDiskCacheIdentity}
    {descriptor : NativeTextDiskCacheBlockDescriptor} (hd : descriptor.Describes identity B i)
    {hidden : List F32} (hh : hidden.length ≤ vecF32Max)
    (hrt : rt.nextBlockId + idsOf layers < wordMax) :
    ∃ rt', NativeTextDiskCacheBlock.encode C J descriptor hidden states rt =
      (encodeSafetensors J
        (blockMetadata descriptor hidden B i (blockLayouts kind (layout B i) layers 0))
        (fileTensors kind hidden B i layers)).map fun bytes => (bytes, rt') := by
  obtain ⟨rt', hok⟩ := hC.encode ⟨[⟨"hidden", [hidden.length], hidden⟩]⟩ rt hword hat hrt
  refine ⟨rt', ?_⟩
  simp only [NativeTextDiskCacheBlock.encode, pushF32_hidden hh, hd.start, hd.count, ok_bind, hok,
    List.singleton_append]
  rfl

/-- Block `i`, written from the states at boundary `i + 1` and read again. -/
theorem Codes.file {kind : LayerHistory → String}
    {layout : ℕ → ℕ → String → LayerHistory → NativeTextDiskCacheLayerLayout}
    (hC : Codes K C view kind layout) (hJ : J.Lawful) {i : ℕ} (hword : (i + 1) * B ≤ wordMax)
    {states : List S} (hat : AtBoundary K view B (i + 1) layers states)
    {identity : NativeTextDiskCacheIdentity} {descriptor : NativeTextDiskCacheBlockDescriptor}
    (hd : descriptor.Describes identity B i) {hidden : List F32} (hh : hidden.length ≤ vecF32Max) :
    ∃ bytes,
      (∀ rt : Statics, rt.nextBlockId + idsOf layers < wordMax →
        ∃ rt', NativeTextDiskCacheBlock.encode C J descriptor hidden states rt = .ok (bytes, rt')) ∧
      (Readable bytes → ∀ rt : Statics, rt.nextBlockId + 3 * idsOf layers < wordMax →
        ∃ block rt', NativeTextDiskCacheBlock.decode C J bytes identity descriptor rt =
          .ok (block, rt') ∧ block.hidden = hidden ∧ ReadBlock K view B layers i block.stateBlock) := by
  obtain ⟨hnames, hmeta⟩ := fileTensors_names hC.dotted hidden B i layers
  obtain ⟨bytes, hbytes, hread⟩ := fromBytes_encodeSafetensors hJ
    (blockMetadata descriptor hidden B i (blockLayouts kind (layout B i) layers 0))
    (show fileTensors kind hidden B i layers ≠ [] from List.cons_ne_nil _ _) hnames hmeta
  refine ⟨bytes, fun rt hrt => ?_, fun hreadable rt hrt => ?_⟩
  · obtain ⟨rt', hok⟩ := hC.encode_eq hword hat hd hh hrt
    exact ⟨rt', by rw [hok, hbytes]; rfl⟩
  · obtain ⟨sorted, hperm, -, hfrom⟩ := hread hreadable
    have hfind : ∀ t ∈ fileTensors kind hidden B i layers,
        (⟨sorted⟩ : NativeTextDiskCacheTensorArchive).tensor t.name = .ok t :=
      fun t ht => NativeTextDiskCacheTensorArchive.tensor_of_mem hperm hnames ht
    have hhidden := hfind ⟨"hidden", [hidden.length], hidden⟩ (List.mem_cons_self ..)
    obtain ⟨decoded, rt', hok, hdec⟩ := hC.decode rt hat
      (fun t ht => hfind t (List.mem_cons_of_mem _ ht)) hrt
    have hident : validateHashes descriptor.modelHash descriptor.snapshotHash descriptor.modelFamily
        descriptor.namespaceHash identity = .ok () := hd.identity
    refine ⟨⟨i * B, B, hidden, decoded⟩, rt', ?_, rfl, ⟨rfl, rfl, hdec⟩⟩
    simp only [NativeTextDiskCacheBlock.decode, hfrom, ok_bind, blockMetadata, hd.start, hd.count,
      ne_eq, not_true_eq_false, or_self, ↓reduceIte,
      NativeTextDiskCacheBlockDescriptor.validateForIdentity, hident, validateMetadataForIdentity,
      validateMetadataCodecAndLayout, pure_bind, NativeTextDiskCacheTensorArchive.f32Tensor, hhidden,
      hok]
    rfl

/-- The blocks of a prompt, each written from the states at its end and read
again, are assembled to the states at the end of the last one. -/
theorem diskBlocks_roundTrip (hF : DiskFamily K C view) (hJ : J.Lawful) (hpos : 0 < n)
    (hword : n * B ≤ wordMax) (states : ℕ → List S)
    (hstates : ∀ k, 0 < k → k ≤ n → AtBoundary K view B k layers (states k))
    (identity : NativeTextDiskCacheIdentity) (descriptor : ℕ → NativeTextDiskCacheBlockDescriptor)
    (hdescriptor : ∀ i, i < n → (descriptor i).Describes identity B i) (hidden : ℕ → List F32)
    (hhidden : ∀ i, i < n → (hidden i).length ≤ vecF32Max) :
    ∃ file : ℕ → List Byte,
      (∀ i, i < n → ∀ rt : Statics, rt.nextBlockId + idsOf layers < wordMax →
        ∃ rt', NativeTextDiskCacheBlock.encode C J (descriptor i) (hidden i) (states (i + 1)) rt =
          .ok (file i, rt')) ∧
      ((∀ i, i < n → Readable (file i)) → ∀ counters : ℕ → Statics,
        (∀ i, i < n → (counters i).nextBlockId + 3 * idsOf layers < wordMax) →
        ∃ block : ℕ → NativeTextDiskCacheBlock S,
          (∀ i, i < n → (block i).hidden = hidden i ∧
            ∃ rt', NativeTextDiskCacheBlock.decode C J (file i) identity (descriptor i) (counters i) =
              .ok (block i, rt')) ∧
          ∀ rt : Statics, rt.nextBlockId + (n + 2) * idsOf layers < wordMax →
            ∃ assembled rt', C.assembleDiskBlockStates
                ((List.range n).map fun i => (block i).stateBlock) rt = .ok (assembled, rt') ∧
              List.Forall₂ (fun a b => SameLayer (view a) (view b)) assembled (states n)) := by
  obtain ⟨kind, layout, hC⟩ := hF.codes
  have hfile : ∀ i, i < n → _ := fun i hi => hC.file hJ
    (le_trans (Nat.mul_le_mul_right B hi) hword) (hstates (i + 1) (Nat.succ_pos _) hi)
    (hdescriptor i hi) (hhidden i hi)
  choose! file hwrite hread using hfile
  refine ⟨file, hwrite, fun hreadable counters hcounters => ?_⟩
  have hblock : ∀ i, i < n → _ := fun i hi => hread i hi (hreadable i hi) (counters i) (hcounters i hi)
  have : Nonempty (NativeTextDiskCacheBlock S) := ⟨⟨0, 0, [], []⟩⟩
  choose! block rt' hdecode hhid hblocks using hblock
  refine ⟨block, fun i hi => ⟨hhid i hi, rt' i hi, hdecode i hi⟩, fun rt hrt => ?_⟩
  refine hC.assemble rt hpos hword ?_ (hstates n hpos le_rfl) hrt
  rw [List.forall₂_map_right_iff, List.forall₂_same]
  exact fun i hi => hblocks i (List.mem_range.mp hi)

end Files

/-! ### Two blocks -/

/-- An array of numbers. -/
def jsonShape (shape : List ℕ) : Json := .array (shape.map .u64)

/-- What the derived serializers print, under the names of the source. -/
def NativeTextDiskFullAttentionLayout.json (kind : String) (l : NativeTextDiskFullAttentionLayout) : Json :=
  .object [("kind", .string kind), ("revision", .u64 l.revision), ("max_tokens", .u64 l.maxTokens),
    ("key_value_heads", .u64 l.keyValueHeads), ("head_dim", .u64 l.headDim),
    ("token_count", .u64 l.tokenCount), ("tokens_seen", .u64 l.tokensSeen),
    ("cache_format", .string l.cacheFormat), ("key_tensor", .string l.keyTensor),
    ("value_tensor", .string l.valueTensor), ("shape", jsonShape l.shape)]

def NativeTextDiskLinearAttentionLayout.json (l : NativeTextDiskLinearAttentionLayout) : Json :=
  .object [("kind", .string "qwen_linear_attention"), ("revision", .u64 l.revision),
    ("conv_kernel_size", .u64 l.convKernelSize), ("conv_dim", .u64 l.convDim),
    ("num_value_heads", .u64 l.numValueHeads), ("key_head_dim", .u64 l.keyHeadDim),
    ("value_head_dim", .u64 l.valueHeadDim), ("token_count", .u64 l.tokenCount),
    ("conv_window_tensor", .string l.convWindowTensor),
    ("recurrent_state_tensor", .string l.recurrentStateTensor),
    ("conv_window_shape", jsonShape l.convWindowShape),
    ("recurrent_state_shape", jsonShape l.recurrentStateShape)]

def NativeTextDiskCacheLayerLayout.json : NativeTextDiskCacheLayerLayout → Json
  | .qwenFull l => l.json "qwen_full_attention"
  | .qwenLinear l => l.json
  | .gemmaFull l => l.json "gemma_attention"

def NativeTextDiskCacheBlockMetadata.json (m : NativeTextDiskCacheBlockMetadata) : Json :=
  .object [("codec", .string m.codec), ("layout_version", .u64 m.layoutVersion),
    ("cache_layout_version", .u64 m.cacheLayoutVersion), ("model_family", .string m.modelFamily),
    ("model_hash", .string m.modelHash), ("snapshot_hash", .string m.snapshotHash),
    ("namespace_hash", .string m.namespaceHash),
    ("previous_block_hash", .string m.previousBlockHash), ("block_hash", .string m.blockHash),
    ("block_start", .u64 m.blockStart), ("token_count", .u64 m.tokenCount),
    ("hidden_shape", jsonShape m.hiddenShape), ("layers", .array (m.layers.map (·.json)))]

theorem jsonShape_injective : Function.Injective jsonShape := by
  intro a b h
  rw [jsonShape, jsonShape, Json.array.injEq] at h
  exact List.map_injective_iff.mpr (fun _ _ => Json.u64.inj) h

theorem NativeTextDiskCacheLayerLayout.json_injective :
    Function.Injective NativeTextDiskCacheLayerLayout.json := by
  intro a b h
  rcases a with ⟨⟨⟩⟩ | ⟨⟨⟩⟩ | ⟨⟨⟩⟩ <;> rcases b with ⟨⟨⟩⟩ | ⟨⟨⟩⟩ | ⟨⟨⟩⟩ <;>
    simp_all [json, NativeTextDiskFullAttentionLayout.json, NativeTextDiskLinearAttentionLayout.json,
      jsonShape_injective.eq_iff]

theorem NativeTextDiskCacheBlockMetadata.json_injective :
    Function.Injective NativeTextDiskCacheBlockMetadata.json := by
  rintro ⟨⟩ ⟨⟩ h
  simp_all [json, jsonShape_injective.eq_iff,
    (List.map_injective_iff.mpr NativeTextDiskCacheLayerLayout.json_injective).eq_iff]

theorem NativeTextDiskCacheBlockMetadata.json_printable (m : NativeTextDiskCacheBlockMetadata) :
    m.json.Printable 127 := by
  have hshape : ∀ (d : ℕ) (shape : List ℕ), (jsonShape shape).Printable (d + 1) := by
    intro d shape v hv
    obtain ⟨n, -, rfl⟩ := List.mem_map.mp hv
    cases d <;> trivial
  have hlayer : ∀ l : NativeTextDiskCacheLayerLayout, l.json.Printable 125 := by
    rintro (l | l | l) <;>
      simp [NativeTextDiskCacheLayerLayout.json, NativeTextDiskFullAttentionLayout.json,
        NativeTextDiskLinearAttentionLayout.json, Json.Printable, hshape]
  simp [json, Json.Printable, hshape, hlayer]

/-- `serde_json` with the compact text of `Json`. -/
noncomputable def serdeJson : SerdeJson where
  toVec v := .ok (utf8 v.text)
  fromSlice bytes := ((ofUtf8 bytes).bind (Json.ofText 127)).elim (.error "invalid JSON") .ok
  metadataToString m := .ok m.json.text
  metadataFromStr text :=
    open Classical in
    if h : ∃ m : NativeTextDiskCacheBlockMetadata, m.json.text = text then .ok h.choose
    else .error "invalid metadata"

theorem serdeJson_lawful : serdeJson.Lawful where
  value v hv := ⟨_, rfl, by
    simp only [serdeJson, ofUtf8_utf8, Option.bind_some, Json.ofText_text hv, Option.elim_some]⟩
  metadata m := by
    have h : ∃ m' : NativeTextDiskCacheBlockMetadata, m'.json.text = m.json.text := ⟨m, rfl⟩
    refine ⟨_, rfl, ?_⟩
    have hread := congrArg (Json.ofText 127) h.choose_spec
    rw [Json.ofText_text h.choose.json_printable, Json.ofText_text m.json_printable] at hread
    simp only [serdeJson, dif_pos h]
    exact congrArg _ (NativeTextDiskCacheBlockMetadata.json_injective (Option.some.inj hread))

/-- A file is readable when all of it is small. -/
theorem readable_of_small {metadata : NativeTextDiskCacheBlockMetadata}
    {tensors sorted : List NativeTextDiskCacheTensor} {bytes : List Byte}
    (hsorted : tensors.mergeSort (fun left right => left.name ≤ right.name) = sorted)
    (hnames : ("__metadata__" :: sorted.map (·.name)).Nodup)
    (hhead : (Json.object (("__metadata__", .null) :: entriesFrom 0 sorted)).chars.length < 2 ^ 16)
    (hmetadata : metadata.json.chars.length < 2 ^ 16)
    (hpayload : (sorted.flatMap (·.payload)).length < 2 ^ 16)
    (h : encodeSafetensors serdeJson metadata tensors = .ok bytes) : Readable bytes := by
  have hlay := layTensors_eq sorted []
    [("__metadata__", .object [("kir_ai", .string metadata.json.text)])] hnames
  rw [List.nil_append, List.length_nil, List.singleton_append] at hlay
  have hinsert : insertKey [] "__metadata__" (Json.object [("kir_ai", .string metadata.json.text)]) =
      [("__metadata__", Json.object [("kir_ai", .string metadata.json.text)])] := rfl
  simp only [encodeSafetensors, hsorted, serdeJson, mapErr, ok_bind, pure_eq_ok, hinsert, hlay] at h
  have hkey : ∀ v : Json, (Json.object (("__metadata__", v) :: entriesFrom 0 sorted)).chars.length ≤
      (Json.object (("__metadata__", .null) :: entriesFrom 0 sorted)).chars.length +
        v.chars.length := by
    intro v
    simp only [Json.chars, Json.charsOfEntries, Json.charsOfEntry]
    cases Json.charsOfEntries (entriesFrom 0 sorted) <;>
      simp only [Json.commas, List.length_cons, List.length_append] <;> omega
  have htext : (Json.object [("kir_ai", .string metadata.json.text)]).chars.length ≤
      6 * metadata.json.chars.length + 20 := by
    have hescape := Json.length_escape_le metadata.json.chars
    have hword : (Json.quote "kir_ai".toList).length = 8 := by decide
    simp only [Json.chars, Json.charsOfEntries, Json.charsOfEntry, Json.commas, List.length_cons,
      List.length_append, Json.text, String.toList_ofList, hword, List.length_nil]
    simp only [Json.quote, List.length_cons, List.length_append, List.length_nil]
    omega
  have hheader := utf8_length_le (Json.object (("__metadata__",
    .object [("kir_ai", .string metadata.json.text)]) :: entriesFrom 0 sorted)).text
  rw [Json.text, String.toList_ofList] at hheader
  have hlen := hkey (.object [("kir_ai", .string metadata.json.text)])
  rw [← h, Readable, List.append_assoc, List.take_left' (toLe_length _ _), List.length_append,
    List.length_append, toLe_length, Json.text]
  generalize (utf8 (String.ofList (Json.object (("__metadata__",
    .object [("kir_ai", .string metadata.json.text)]) :: entriesFrom 0 sorted)).chars)).length =
      size at hheader ⊢
  have hsmall : size < 2 ^ 22 := by omega
  refine ⟨?_, ?_⟩
  · rw [fromLe_toLe (hsmall.trans (by decide))]
    exact hsmall.le.trans (by decide)
  · unfold vecU8Max
    omega

/-- A layer of two rows, after `k` of them. -/
def grownLayer : ℕ → LayerState
  | 0 =>
    let (c, rt) := (newWithConfig 2 1 1 .f32 .initial).toOption.get rfl
    ⟨c, rt⟩
  | k + 1 =>
    match appendWithMetadata .onZeroRows (fun _ => 0) [⟨7⟩] [⟨8⟩] (grownLayer k) with
    | .ok _ s => s
    | .error _ s => s

def grownHistory : List LayerHistory :=
  [.rows ⟨2, 1, 1⟩ (fun k => k) [([⟨7⟩], [⟨8⟩]), ([⟨7⟩], [⟨8⟩])]]

def grownStates (k : ℕ) : List GemmaLayerCachePrefixState :=
  [.attention (grownLayer k).cache.prefixCacheState]

theorem grownStates_at (k : ℕ) (h0 : 0 < k) (h2 : k ≤ 2) :
    AtBoundary .onZeroRows GemmaLayerCachePrefixState.view 1 k grownHistory (grownStates k) := by
  have hlive₀ : Live .onZeroRows (grownLayer 0) [] :=
    .new (show newWithConfig 2 1 1 .f32 .initial = .ok _ from rfl)
  have hlive₁ : Live .onZeroRows (grownLayer 1) ([] ++ [([⟨7⟩], [⟨8⟩])]) :=
    .append hlive₀
      (show appendWithMetadata .onZeroRows (fun _ => 0) [⟨7⟩] [⟨8⟩] _ = .ok _ _ from rfl)
  have hlive₂ : Live .onZeroRows (grownLayer 2) ([] ++ [([⟨7⟩], [⟨8⟩])] ++ [([⟨7⟩], [⟨8⟩])]) :=
    .append hlive₁
      (show appendWithMetadata .onZeroRows (fun _ => 0) [⟨7⟩] [⟨8⟩] _ = .ok _ _ from rfl)
  obtain rfl | rfl : k = 1 ∨ k = 2 := by omega
  · exact .cons ⟨by decide, grownLayer 1, hlive₁, rfl, rfl, rfl, rfl, rfl, rfl, by decide⟩ .nil
  · exact .cons ⟨by decide, grownLayer 2, hlive₂, rfl, rfl, rfl, rfl, rfl, rfl, by decide⟩ .nil

def servedIdentity : NativeTextDiskCacheIdentity := ⟨"m", "s", "gemma", none⟩

def servedDescriptor (i : ℕ) : NativeTextDiskCacheBlockDescriptor where
  modelHash := "m"
  snapshotHash := "s"
  modelFamily := "gemma"
  namespaceHash := "n"
  previousBlockHash := "p"
  blockHash := "b"
  blockStart := i
  tokenCount := 1
  cacheLayoutVersion := 1

theorem servedDescriptor_describes (i : ℕ) : (servedDescriptor i).Describes servedIdentity 1 i :=
  ⟨rfl, (Nat.mul_one i).symm, rfl⟩

theorem grownFile_readable {i : ℕ} (hi : i < 2) {bytes : List Byte} {rt rt' : Statics}
    (hrt : rt.nextBlockId + idsOf grownHistory < wordMax)
    (h : NativeTextDiskCacheBlock.encode (gemmaDiskCacheValue .onZeroRows) serdeJson
      (servedDescriptor i) [⟨5⟩] (grownStates (i + 1)) rt = .ok (bytes, rt')) : Readable bytes := by
  obtain ⟨rt'', hencode⟩ := (gemmaDiskCacheValue_codes (K := .onZeroRows)).encode_eq (J := serdeJson)
    (show (i + 1) * 1 ≤ wordMax by unfold wordMax; omega)
    (grownStates_at (i + 1) (Nat.succ_pos i) hi) (servedDescriptor_describes i)
    (show [(⟨5⟩ : F32)].length ≤ vecF32Max by decide) hrt
  have hmap : ∀ {x : DiskResult (List Byte)},
      (x.map fun bytes => (bytes, rt'')) = .ok (bytes, rt') → x = .ok bytes := by
    intro x hx
    cases x with
    | error e => cases hx
    | ok b => rw [(Prod.mk.inj (Except.ok.inj hx)).1]
  have hfile := hmap (hencode.symm.trans h)
  obtain rfl | rfl : i = 0 ∨ i = 1 := by omega
  · have hsorted : (fileTensors gemmaKind [⟨5⟩] 1 0 grownHistory).Pairwise
        fun left right => decide (left.name ≤ right.name) = true := by decide +kernel
    refine readable_of_small (List.mergeSort_of_pairwise hsorted) ?_ ?_ ?_ ?_ hfile <;>
      decide +kernel
  · have hsorted : (fileTensors gemmaKind [⟨5⟩] 1 1 grownHistory).Pairwise
        fun left right => decide (left.name ≤ right.name) = true := by decide +kernel
    refine readable_of_small (List.mergeSort_of_pairwise hsorted) ?_ ?_ ?_ ?_ hfile <;>
      decide +kernel
/-- Two blocks of one token each, of a Gemma model with one layer. -/
theorem diskBlocks_roundTrip_two_blocks :
    ∃ (file : ℕ → List Byte) (block : ℕ → NativeTextDiskCacheBlock GemmaLayerCachePrefixState),
      (∀ i, i < 2 → ∃ rt', NativeTextDiskCacheBlock.encode (gemmaDiskCacheValue .onZeroRows) serdeJson
        (servedDescriptor i) [⟨5⟩] (grownStates (i + 1)) .initial = .ok (file i, rt')) ∧
      (∀ i, i < 2 → ∃ rt', NativeTextDiskCacheBlock.decode (gemmaDiskCacheValue .onZeroRows)
        serdeJson (file i) servedIdentity (servedDescriptor i) .initial = .ok (block i, rt')) ∧
      ∃ assembled rt', (gemmaDiskCacheValue .onZeroRows).assembleDiskBlockStates
          ((List.range 2).map fun i => (block i).stateBlock) .initial = .ok (assembled, rt') ∧
        List.Forall₂ (fun a b => SameLayer a.view b.view) assembled (grownStates 2) := by
  obtain ⟨file, hwrite, hread⟩ := diskBlocks_roundTrip (B := 1) (n := 2) .gemma serdeJson_lawful
    (by decide) (by decide) grownStates grownStates_at servedIdentity servedDescriptor
    (fun i _ => servedDescriptor_describes i) (fun _ => [⟨5⟩]) (fun _ _ => by decide)
  have hfile := fun i hi => hwrite i hi .initial (by decide)
  have hreadable : ∀ i, i < 2 → Readable (file i) := by
    intro i hi
    obtain ⟨rt', hok⟩ := hfile i hi
    exact grownFile_readable hi (by decide) hok
  obtain ⟨block, hdecode, hassemble⟩ := hread hreadable (fun _ => .initial) (fun _ _ => by decide)
  exact ⟨file, block, hfile, fun i hi => (hdecode i hi).2, hassemble .initial (by decide)⟩

/-- Without a block there is nothing to assemble: the layers of an empty prefix do
not come back. -/
theorem diskBlocks_none :
    AtBoundary .onZeroRows GemmaLayerCachePrefixState.view 1 0 grownHistory (grownStates 0) ∧
    (gemmaDiskCacheValue .onZeroRows).assembleDiskBlockStates [] .initial = .ok ([], .initial) ∧
    ¬ List.Forall₂ (fun a b => SameLayer a.view b.view) ([] : List GemmaLayerCachePrefixState)
      (grownStates 0) := by
  refine ⟨.cons ⟨by decide, grownLayer 0, ?_, rfl, rfl, rfl, rfl, rfl, rfl, by decide⟩ .nil, rfl,
    fun h => by cases h⟩
  exact .new (show newWithConfig 2 1 1 .f32 .initial = .ok _ from rfl)

end KirAi.NativeRuntime
