/-
# What a block id and a revision stand for

A mirror of the caches skips a block when it has already seen the pair of its
id and revision, whichever cache it belongs to. `World` is all layer caches and
prefix states of a process, and how many handles a storage has is how many of
their blocks hold it. Every step that the caches offer is a move in the
discipline of `Lib/Identity.lean`, with one exception: `clear` makes a block
that is marked shared the owner of its id again when it holds the only handle
of its storage, although other caches may hold the id with a storage of their
own. `Careful` leaves those steps out, and the writes that cannot raise the
revision.

Key definitions: `World`, `World.step`, `World.Reach`, `World.Careful`.
Key theorems: `World.step_move`, `blockIdentity_determines_rows`,
`blockIdentity_shared_clear_twice`.
-/
import KirAi.KvCache.LayerPrefix
import KirAi.Lib.Identity

namespace KirAi.KvCache

open Lib

/-- The layer caches and prefix states of a process. A dropped one leaves its
place empty. -/
structure World where
  rt : Statics
  caches : List (Option LayerKvCache)
  prefixes : List (Option LayerKvCachePrefixState)

namespace World

def cache (w : World) (i : ℕ) : Option LayerKvCache := w.caches[i]?.join

def prefixState (w : World) (i : ℕ) : Option LayerKvCachePrefixState := w.prefixes[i]?.join

/-- The handles of an allocation. -/
def handles (w : World) (ptr : ArcPtr) : ℕ :=
  (w.caches.map fun o => (o.elim [] (·.blocks)).countP fun b => b.storage.ptr == ptr).sum +
  (w.prefixes.map fun o => (o.elim [] (·.blocks)).countP fun b => b.retained.storage.ptr == ptr).sum

/-- The handles that others hold, seen from one of the handles. -/
def shares (w : World) : Shares := fun ptr => w.handles ptr - 1

/-- What a process does with its caches. `elsewhere` is everything else that
hands out block ids, also constructions that failed. -/
inductive Op where
  | new (maxTokens keyValueHeads headDim : ℕ) (config : KvCacheConfig)
  | clone (i : ℕ)
  | prefixCacheState (i : ℕ)
  | fromPrefixCacheState (i : ℕ)
  | append (i : ℕ) (key value : List F32)
  | appendSliding (i : ℕ) (key value : List F32)
  | clear (i : ℕ)
  | dropCache (i : ℕ)
  | dropPrefixState (i : ℕ)
  | elsewhere (blocks : ℕ)

variable (K : QuantKernels)

/-- The world after a cache changed. -/
def setCache (w : World) (i : ℕ) (s : LayerState) : World :=
  { w with rt := s.rt, caches := w.caches.set i (some s.cache) }

def addCache (w : World) (s : LayerState) : World :=
  { w with rt := s.rt, caches := w.caches ++ [some s.cache] }

/-- The state an operation of `LayerM` leaves, whatever it answers. -/
def stateOf {α : Type} : EStateM.Result KvCacheError LayerState α → LayerState
  | .ok _ s => s
  | .error _ s => s

def step (w : World) : Op → World
  | .new maxTokens keyValueHeads headDim config =>
    match LayerKvCache.newWithConfig maxTokens keyValueHeads headDim config w.rt with
    | .ok (c, rt) => w.addCache ⟨c, rt⟩
    | .error _ => w
  | .clone i =>
    match w.cache i with
    | some c => w.addCache ⟨(c.clone w.rt).1, (c.clone w.rt).2⟩
    | none => w
  | .prefixCacheState i =>
    match w.cache i with
    | some c => { w with prefixes := w.prefixes ++ [some c.prefixCacheState] }
    | none => w
  | .fromPrefixCacheState i =>
    match w.prefixState i with
    | some st =>
      match LayerKvCache.fromPrefixCacheState K st w.rt with
      | .ok s => w.addCache s
      | .error _ => w
    | none => w
  | .append i key value =>
    match w.cache i with
    | some c => w.setCache i (stateOf (LayerKvCache.appendWithMetadata K w.shares key value ⟨c, w.rt⟩))
    | none => w
  | .appendSliding i key value =>
    match w.cache i with
    | some c =>
      w.setCache i (stateOf (LayerKvCache.appendSlidingWithMetadata K w.shares key value ⟨c, w.rt⟩))
    | none => w
  | .clear i =>
    match w.cache i with
    | some c => w.setCache i (LayerKvCache.clear w.shares ⟨c, w.rt⟩)
    | none => w
  | .dropCache i => { w with caches := w.caches.set i none }
  | .dropPrefixState i => { w with prefixes := w.prefixes.set i none }
  | .elsewhere blocks =>
    { w with rt := { w.rt with
        nextBlockId := w.rt.nextBlockId + blocks
        nextBlockId_pos := Nat.add_pos_left w.rt.nextBlockId_pos blocks } }

/-- The active blocks that the caches report. -/
def reports (w : World) : List LayerKvCacheBlock :=
  w.caches.flatMap fun o => match o with
    | some c => (c.activeBlocks.toOption).getD []
    | none => []

/-- The runs whose steps are all allowed, with every active block ever
reported. -/
inductive Reach (allowed : World → Op → Prop) : World → List LayerKvCacheBlock → Prop where
  | start (rt : Statics) : Reach allowed ⟨rt, [], []⟩ []
  | step {w : World} {seen : List LayerKvCacheBlock} (op : Op) : Reach allowed w seen →
      allowed w op → Reach allowed (w.step K op) (seen ++ (w.step K op).reports)

/-- The block that the next row goes to. -/
def targetBlock (c : LayerKvCache) : Option CacheBlock :=
  c.blocks[(if c.tokenCount < c.maxTokens then c.tokenCount else c.windowStart) / layerKvBlockTokens]?

/-- The steps that keep identities apart: no block that is marked shared and
holds the only handle of its storage is cleared, and no block whose revision is
at its end is written. -/
def Careful (w : World) : Op → Prop
  | .clear i => ∀ c, w.cache i = some c → ∀ b ∈ c.blocks,
      ¬ (b.shared = true ∧ b.storage.strongCount w.shares ≤ 1)
  | .append i _ _ | .appendSliding i _ _ => ∀ c, w.cache i = some c →
      ∀ b, targetBlock c = some b → b.revision < wordMax
  | _ => True

/-! ### The blocks as holders -/

/-- Where a block can be: in a cache, or kept by a prefix state. -/
inductive Place where
  | cacheBlock (i j : ℕ)
  | prefixBlock (i j : ℕ)

/-- A block is held by its id; it owns it when it is not marked shared, and
has a content when it has rows. -/
def holderOf (b : CacheBlock) : Identity.Holder CacheBlockStorage where
  id := b.id
  revision := b.revision
  owner := !b.shared
  content := if b.tokenCount = 0 then none else some b.storage.val

def retainedHolder (r : RetainedCacheBlock) : Identity.Holder CacheBlockStorage where
  id := r.id
  revision := r.revision
  owner := false
  content := if r.tokenCount = 0 then none else some r.storage.val

def holder (w : World) : Place → Option (Identity.Holder CacheBlockStorage)
  | .cacheBlock i j => (w.cache i).bind fun c => c.blocks[j]?.map holderOf
  | .prefixBlock i j => (w.prefixState i).bind fun st => st.blocks[j]?.map (retainedHolder ·.retained)

variable {K} {w : World} {i j : ℕ} {c : LayerKvCache} {s : LayerState}

theorem holder_cacheBlock {x : Identity.Holder CacheBlockStorage} :
    w.holder (.cacheBlock i j) = some x ↔
      ∃ c b, w.cache i = some c ∧ c.blocks[j]? = some b ∧ x = holderOf b := by
  simp only [holder, Option.bind_eq_some_iff, Option.map_eq_some_iff]
  constructor
  · rintro ⟨c, hc, b, hb, rfl⟩
    exact ⟨c, b, hc, hb, rfl⟩
  · rintro ⟨c, b, hc, hb, rfl⟩
    exact ⟨c, hc, b, hb, rfl⟩

theorem holder_prefixBlock {x : Identity.Holder CacheBlockStorage} :
    w.holder (.prefixBlock i j) = some x ↔
      ∃ st pb, w.prefixState i = some st ∧ st.blocks[j]? = some pb ∧
        x = retainedHolder pb.retained := by
  simp only [holder, Option.bind_eq_some_iff, Option.map_eq_some_iff]
  constructor
  · rintro ⟨st, hst, pb, hpb, rfl⟩
    exact ⟨st, pb, hst, hpb, rfl⟩
  · rintro ⟨st, pb, hst, hpb, rfl⟩
    exact ⟨st, hst, pb, hpb, rfl⟩

theorem cache_lt (h : w.cache i = some c) : i < w.caches.length := by
  unfold cache at h
  by_contra hge
  rw [List.getElem?_eq_none (by omega)] at h
  cases h

theorem setCache_cache (h : w.cache i = some c) (k : ℕ) :
    (w.setCache i s).cache k = if k = i then some s.cache else w.cache k := by
  unfold cache setCache
  by_cases hk : k = i
  · subst hk
    rw [if_pos rfl, List.getElem?_set_self (cache_lt h)]
    rfl
  · rw [if_neg hk, List.getElem?_set_ne (Ne.symm hk)]

theorem addCache_cache (k : ℕ) :
    (w.addCache s).cache k = if k = w.caches.length then some s.cache else w.cache k := by
  unfold cache addCache
  by_cases hk : k = w.caches.length
  · subst hk
    rw [if_pos rfl, List.getElem?_concat_length]
    rfl
  · rw [if_neg hk]
    rcases Nat.lt_or_ge k w.caches.length with hlt | hge
    · rw [List.getElem?_append_left hlt]
    · rw [List.getElem?_eq_none (by simp; omega), List.getElem?_eq_none hge]

theorem dropCache_cache (k : ℕ) {c : LayerKvCache}
    (h : World.cache { w with caches := w.caches.set i none } k = some c) : w.cache k = some c := by
  unfold cache at h ⊢
  dsimp only at h
  by_cases hk : k = i
  · subst hk
    rw [List.getElem?_set] at h
    split at h
    · split at h <;> cases h
    · exact h
  · rwa [List.getElem?_set_ne (Ne.symm hk)] at h

theorem dropPrefixState_prefixState (k : ℕ) {st : LayerKvCachePrefixState}
    (h : World.prefixState { w with prefixes := w.prefixes.set i none } k = some st) :
    w.prefixState k = some st := by
  unfold prefixState at h ⊢
  dsimp only at h
  by_cases hk : k = i
  · subst hk
    rw [List.getElem?_set] at h
    split at h
    · split at h <;> cases h
    · exact h
  · rwa [List.getElem?_set_ne (Ne.symm hk)] at h

/-! ### Steps are moves -/

/-- What every world keeps: caches hold windows, prefix states were taken from
caches, and revisions are words. -/
structure Shape (K : QuantKernels) (w : World) : Prop where
  window : ∀ i c, w.cache i = some c → ∃ W, LayerKvCache.Window K c W
  prefixed : ∀ i st, w.prefixState i = some st → ∃ src W, LayerKvCache.Window K src W ∧
    st = src.prefixCacheState
  revision : ∀ p x, w.holder p = some x → x.revision ≤ wordMax

section Moves

open Identity

variable {known : Set (ℕ × ℕ × CacheBlockStorage)} {w' : World}

variable (w') in
/-- A step that puts one cache in place and leaves the others alone. -/
theorem move_of_cache (hinv : Inv w.rt.nextBlockId w.holder known)
    (hle : w.rt.nextBlockId ≤ w'.rt.nextBlockId) (hpre : w'.prefixes = w.prefixes)
    (hcache : ∀ k, w'.cache k = if k = i then some c else w.cache k)
    (hchange : ∀ j b, c.blocks[j]? = some b →
      Change w.rt.nextBlockId w'.rt.nextBlockId w.holder (.cacheBlock i j) (holderOf b))
    (hfresh : ∀ (j j' : ℕ) (b b' : CacheBlock), c.blocks[j]? = some b → c.blocks[j']? = some b' →
      w.rt.nextBlockId ≤ b.id → b.id = b'.id → j = j') :
    Move w.rt.nextBlockId w'.rt.nextBlockId w.holder w'.holder := by
  -- a place is one of the new cache's, or it is as before
  have hcase : ∀ p x, w'.holder p = some x →
      (∃ j b, p = .cacheBlock i j ∧ c.blocks[j]? = some b ∧ x = holderOf b) ∨
        w.holder p = some x := by
    intro p x hx
    cases p with
    | prefixBlock k j =>
      rw [holder_prefixBlock] at hx
      refine .inr (holder_prefixBlock.mpr ?_)
      simpa only [prefixState, hpre] using hx
    | cacheBlock k j =>
      obtain ⟨c', b, hc', hb, rfl⟩ := holder_cacheBlock.mp hx
      rw [hcache] at hc'
      split at hc'
      · rename_i hk
        subst hk
        cases hc'
        exact .inl ⟨j, b, rfl, hb, rfl⟩
      · exact .inr (holder_cacheBlock.mpr ⟨c', b, hc', hb, rfl⟩)
  refine ⟨hle, fun p x hx => ?_, fun p q x y hx hy hge hid => ?_⟩
  · rcases hcase p x hx with ⟨j, b, rfl, hb, rfl⟩ | hold
    · exact hchange j b hb
    · exact .kept hold
  · rcases hcase p x hx with ⟨j, b, rfl, hb, rfl⟩ | hold
    · rcases hcase q y hy with ⟨j', b', rfl, hb', rfl⟩ | hold'
      · rw [hfresh j j' b b' hb hb' hge hid]
      · have := hinv.held_lt q y hold'
        omega
    · have := hinv.held_lt p x hold
      omega

/-- Such a step keeps the shape when the cache has it. -/
theorem Shape.of_cache {W : List Row} (h : Shape K w) (hpre : w'.prefixes = w.prefixes)
    (hcache : ∀ k, w'.cache k = if k = i then some c else w.cache k)
    (hw : LayerKvCache.Window K c W) (hrev : ∀ b ∈ c.blocks, b.revision ≤ wordMax) : Shape K w' := by
  refine ⟨fun k c' hc' => ?_, fun k st hst => ?_, fun p x hx => ?_⟩
  · rw [hcache] at hc'
    split at hc'
    · cases hc'
      exact ⟨W, hw⟩
    · exact h.window k c' hc'
  · refine h.prefixed k st ?_
    rwa [prefixState, hpre] at hst
  · cases p with
    | prefixBlock k j =>
      rw [holder_prefixBlock] at hx
      simp only [prefixState, hpre] at hx
      exact h.revision (.prefixBlock k j) x (holder_prefixBlock.mpr hx)
    | cacheBlock k j =>
      obtain ⟨c', b, hc', hb, rfl⟩ := holder_cacheBlock.mp hx
      rw [hcache] at hc'
      split at hc'
      · cases hc'
        exact hrev b (List.mem_of_getElem? hb)
      · exact h.revision (.cacheBlock k j) _ (holder_cacheBlock.mpr ⟨c', b, hc', hb, rfl⟩)

theorem Shape.cache_revision (h : Shape K w) (hc : w.cache i = some c) {b : CacheBlock}
    (hb : b ∈ c.blocks) : b.revision ≤ wordMax := by
  obtain ⟨j, hj⟩ := List.mem_iff_getElem?.mp hb
  exact h.revision (.cacheBlock i j) _ (holder_cacheBlock.mpr ⟨c, b, hc, hj, rfl⟩)

theorem satAdd_le (a b : ℕ) : satAdd a b ≤ wordMax := Nat.min_le_right _ _

theorem le_satAdd {a : ℕ} (h : a ≤ wordMax) : a ≤ satAdd a 1 := by
  unfold satAdd
  omega

/-- Appends: the written block is the owner's next revision, or has a fresh id. -/
theorem append_move (h : Shape K w) (hinv : Inv w.rt.nextBlockId w.holder known)
    (hc : w.cache i = some c) (hcareful : ∀ b, targetBlock c = some b → b.revision < wordMax)
    {r : Row} (ha : LayerKvCache.AppendedAtEnd K w.shares ⟨c, w.rt⟩ r s ∨
      LayerKvCache.Slid K w.shares ⟨c, w.rt⟩ r s) :
    Shape K (w.setCache i s) ∧
      Move w.rt.nextBlockId s.rt.nextBlockId w.holder (w.setCache i s).holder := by
  obtain ⟨W, hW⟩ := h.window i c hc
  obtain ⟨W', hW'⟩ : ∃ W', LayerKvCache.Window K s.cache W' := by
    rcases ha with ha | ha
    · exact ⟨_, LayerKvCache.Window.appended (s := ⟨c, w.rt⟩) hW ha⟩
    · exact ⟨_, LayerKvCache.Window.slid (s := ⟨c, w.rt⟩) hW ha⟩
  -- both kinds of append write one block
  obtain ⟨k, b, b', hb, hrev, hrew, hblocks⟩ : ∃ k b b', c.blocks[k]? = some b ∧
      b.revision < wordMax ∧ LayerKvCache.Rewritten w.shares b w.rt b' s.rt ∧
      s.cache.blocks = c.blocks.set k b' := by
    rcases ha with ⟨hn, -, -, b, b', hb, -, -, hrew, hs⟩ | ⟨hn, -, -, b, b', hb, -, -, hrew, hs⟩
    · refine ⟨_, b, b', hb, hcareful b ?_, hrew, by rw [hs]; rfl⟩
      rw [targetBlock, if_pos hn]
      exact hb
    · refine ⟨_, b, b', hb, hcareful b ?_, hrew, by rw [hs]; rfl⟩
      rw [targetBlock, if_neg (by dsimp only at hn; omega)]
      exact hb
  have hsat : satAdd b.revision 1 = b.revision + 1 := satAdd_of_le (by omega)
  have hlt := (List.getElem?_eq_some_iff.mp hb).1
  have hle : w.rt.nextBlockId ≤ s.rt.nextBlockId := by
    rcases hrew.identity with ⟨-, -, -, hn⟩ | ⟨-, hn⟩
    · exact le_of_eq hn.symm
    · exact hn ▸ Nat.le_succ _
  have hother : ∀ j b₁, j ≠ k → (c.blocks.set k b')[j]? = some b₁ → c.blocks[j]? = some b₁ :=
    fun j b₁ hj hb₁ => by rwa [List.getElem?_set_ne (Ne.symm hj)] at hb₁
  have hset : ∀ k', (w.setCache i s).cache k' = if k' = i then some s.cache else w.cache k' :=
    setCache_cache hc
  refine ⟨h.of_cache rfl hset hW' fun b₁ hb₁ => ?_,
    move_of_cache (w.setCache i s) hinv hle rfl hset (fun j b₁ hb₁ => ?_)
      fun j j' b₁ b₂ hb₁ hb₂ hge hid => ?_⟩
  · rw [hblocks] at hb₁
    rcases List.mem_or_eq_of_mem_set hb₁ with hm | rfl
    · exact h.cache_revision hc hm
    · rw [hrew.revision]
      exact satAdd_le _ _
  · rw [hblocks] at hb₁
    by_cases hj : j = k
    · subst hj
      rw [List.getElem?_set_self hlt] at hb₁
      cases hb₁
      rcases hrew.identity with ⟨hsh, -, hid, -⟩ | ⟨hid, hn⟩
      · refine .written (holderOf b) (holder_cacheBlock.mpr ⟨c, b, hc, hb, rfl⟩) ?_ hid ?_
        · simp [holderOf, hsh]
        · change b.revision < b'.revision
          rw [hrew.revision, hsat]
          omega
      · refine .fresh (le_of_eq hid.symm) ?_
        change b'.id < s.rt.nextBlockId
        rw [hid, hn]
        exact Nat.lt_succ_self _
    · exact .kept (holder_cacheBlock.mpr ⟨c, b₁, hc, hother j b₁ hj hb₁, rfl⟩)
  · rw [hblocks] at hb₁ hb₂
    -- only the written block can have a fresh id
    have honly : ∀ j b₁, (c.blocks.set k b')[j]? = some b₁ → w.rt.nextBlockId ≤ b₁.id → j = k := by
      intro j b₁ hb₁ hge
      by_contra hj
      have := hinv.held_lt _ _ (holder_cacheBlock.mpr ⟨c, b₁, hc, hother j b₁ hj hb₁, rfl⟩)
      exact absurd this (Nat.not_lt.mpr hge)
    rw [honly j b₁ hb₁ hge, honly j' b₂ hb₂ (hid ▸ hge)]

/-- New blocks have fresh ids, one each. -/
theorem new_move (h : Shape K w) (hinv : Inv w.rt.nextBlockId w.holder known)
    {maxTokens keyValueHeads headDim : ℕ} {config : KvCacheConfig}
    (hn : LayerKvCache.New maxTokens keyValueHeads headDim config w.rt s.cache s.rt) :
    Shape K (w.addCache s) ∧
      Move w.rt.nextBlockId s.rt.nextBlockId w.holder (w.addCache s).holder := by
  have hle : w.rt.nextBlockId ≤ s.rt.nextBlockId := by
    rw [hn.nextBlockId]
    exact Nat.le_add_right _ _
  refine ⟨h.of_cache rfl addCache_cache hn.window fun b hb => ?_,
    move_of_cache (w.addCache s) hinv hle rfl addCache_cache (fun j b hb => ?_)
      fun j j' b b' hb hb' _ hid => ?_⟩
  · obtain ⟨j, hj⟩ := List.mem_iff_getElem?.mp hb
    rw [(hn.block j b hj).revision]
    exact Nat.zero_le _
  · have hid := (hn.block j b hb).id
    refine .fresh ?_ ?_
    · change w.rt.nextBlockId ≤ b.id
      rw [hid]
      exact Nat.le_add_right _ _
    · change b.id < s.rt.nextBlockId
      rw [hid, hn.nextBlockId]
      exact Nat.add_lt_add_left (List.getElem?_eq_some_iff.mp hb).1 _
  · have h1 := (hn.block j b hb).id
    have h2 := (hn.block j' b' hb').id
    exact Nat.add_left_cancel (h1.symm.trans (hid.trans h2))

/-- A clone shares every block of its original. -/
theorem clone_move (h : Shape K w) (hinv : Inv w.rt.nextBlockId w.holder known)
    (hc : w.cache i = some c) : Shape K (w.addCache ⟨(c.clone w.rt).1, (c.clone w.rt).2⟩) ∧
      Move w.rt.nextBlockId (c.clone w.rt).2.nextBlockId w.holder
        (w.addCache ⟨(c.clone w.rt).1, (c.clone w.rt).2⟩).holder := by
  obtain ⟨W, hW⟩ := h.window i c hc
  have hblk : ∀ (j : ℕ) (b : CacheBlock), (c.clone w.rt).1.blocks[j]? = some b →
      ∃ b₀ : CacheBlock, c.blocks[j]? = some b₀ ∧ b = b₀.clone := fun j b hb => by
    change (c.blocks.map CacheBlock.clone)[j]? = some b at hb
    rw [List.getElem?_map] at hb
    obtain ⟨b₀, hb₀, rfl⟩ := Option.map_eq_some_iff.mp hb
    exact ⟨b₀, hb₀, rfl⟩
  refine ⟨h.of_cache rfl addCache_cache (hW.clone w.rt) fun b hb => ?_,
    move_of_cache (w.addCache ⟨(c.clone w.rt).1, (c.clone w.rt).2⟩) hinv (le_refl w.rt.nextBlockId)
      rfl addCache_cache (fun j b hb => ?_) fun j j' b b' hb hb' hge hid => ?_⟩
  · obtain ⟨j, hj⟩ := List.mem_iff_getElem?.mp hb
    obtain ⟨b₀, hb₀, rfl⟩ := hblk j b hj
    exact h.cache_revision (b := b₀) hc (List.mem_of_getElem? hb₀)
  · obtain ⟨b₀, hb₀, rfl⟩ := hblk j b hb
    exact .shared (.cacheBlock i j) (holderOf b₀) (holder_cacheBlock.mpr ⟨c, b₀, hc, hb₀, rfl⟩) rfl
  · obtain ⟨b₀, hb₀, rfl⟩ := hblk j b hb
    have := hinv.held_lt _ _ (holder_cacheBlock.mpr ⟨c, b₀, hc, hb₀, rfl⟩)
    exact absurd this (Nat.not_lt.mpr hge)

/-- A restored cache shares the blocks of its prefix state, and the others are
new. -/
theorem restore_move (h : Shape K w) (hinv : Inv w.rt.nextBlockId w.holder known)
    {st : LayerKvCachePrefixState} (hst : w.prefixState i = some st)
    (hok : LayerKvCache.fromPrefixCacheState K st w.rt = .ok s) :
    Shape K (w.addCache s) ∧
      Move w.rt.nextBlockId s.rt.nextBlockId w.holder (w.addCache s).holder := by
  obtain ⟨src, W, hsrc, rfl⟩ := h.prefixed i st hst
  obtain ⟨hW, hres, -⟩ := LayerKvCache.fromPrefixCacheState_ok hsrc hok
  have hle : w.rt.nextBlockId ≤ s.rt.nextBlockId := by
    rw [hres.nextBlockId]
    exact Nat.le_add_right _ _
  -- a block of the source is held by the prefix state
  have hheld : ∀ j b, LayerKvCache.ReissuedFrom src j b →
      ∃ p x, w.holder p = some x ∧ holderOf b = { x with owner := false } := by
    rintro j b ⟨block, -, rfl, pb, hpb, hret⟩
    obtain ⟨n, hn⟩ := List.mem_iff_getElem?.mp hpb
    refine ⟨.prefixBlock i n, retainedHolder pb.retained,
      holder_prefixBlock.mpr ⟨_, pb, hst, hn, rfl⟩, ?_⟩
    rw [hret]
    rfl
  refine ⟨h.of_cache rfl addCache_cache hW fun b hb => ?_,
    move_of_cache (w.addCache s) hinv hle rfl addCache_cache (fun j b hb => ?_)
      fun j j' b b' hb hb' hge hid => ?_⟩
  · obtain ⟨j, hj⟩ := List.mem_iff_getElem?.mp hb
    rcases hres.blocks.origin j b hj with hnew | hre
    · rw [hnew.revision]
      exact Nat.zero_le _
    · obtain ⟨p, x, hx, heq⟩ := hheld j b hre
      have hrev : b.revision = x.revision := congrArg Holder.revision heq
      rw [hrev]
      exact h.revision p x hx
  · rcases hres.blocks.origin j b hb with hnew | hre
    · refine .fresh ?_ ?_
      · change w.rt.nextBlockId ≤ b.id
        rw [hnew.id]
        exact Nat.le_add_right _ _
      · change b.id < s.rt.nextBlockId
        rw [hnew.id, hres.nextBlockId]
        exact Nat.add_lt_add_left (List.getElem?_eq_some_iff.mp hb).1 _
    · obtain ⟨p, x, hx, heq⟩ := hheld j b hre
      exact .shared p x hx heq
  · -- only the new blocks have fresh ids
    have hid' : ∀ j b, s.cache.blocks[j]? = some b → w.rt.nextBlockId ≤ b.id →
        b.id = w.rt.nextBlockId + j := fun j b hb hge => by
      rcases hres.blocks.origin j b hb with hnew | hre
      · exact hnew.id
      · obtain ⟨p, x, hx, heq⟩ := hheld j b hre
        have hbx : b.id = x.id := congrArg Holder.id heq
        rw [hbx] at hge
        exact absurd (hinv.held_lt p x hx) (Nat.not_lt.mpr hge)
    have h1 := hid' j b hb hge
    have h2 := hid' j' b' hb' (hid ▸ hge)
    exact Nat.add_left_cancel (h1.symm.trans (hid.trans h2))

/-- A careful clear gives up contents, and never gains an id. -/
theorem clear_move (h : Shape K w) (hinv : Inv w.rt.nextBlockId w.holder known)
    (hc : w.cache i = some c) (hcareful : ∀ b ∈ c.blocks,
      ¬ (b.shared = true ∧ b.storage.strongCount w.shares ≤ 1)) :
    Shape K (w.setCache i (LayerKvCache.clear w.shares ⟨c, w.rt⟩)) ∧
      Move w.rt.nextBlockId (LayerKvCache.clear w.shares ⟨c, w.rt⟩).rt.nextBlockId w.holder
        (w.setCache i (LayerKvCache.clear w.shares ⟨c, w.rt⟩)).holder := by
  obtain ⟨W, hW⟩ := h.window i c hc
  have hblk : ∀ (j : ℕ) (b : CacheBlock),
      (LayerKvCache.clear w.shares ⟨c, w.rt⟩).cache.blocks[j]? = some b →
      ∃ (b₀ : CacheBlock) (rt : Statics), c.blocks[j]? = some b₀ ∧
        b = (b₀.clear w.shares rt).1 := fun j b hb => by
    obtain ⟨rt, hg⟩ := LayerKvCache.clearBlocks_getElem? w.shares c.blocks w.rt j
    change (LayerKvCache.clearBlocks w.shares c.blocks w.rt).1[j]? = some b at hb
    rw [hg] at hb
    obtain ⟨b₀, hb₀, rfl⟩ := Option.map_eq_some_iff.mp hb
    exact ⟨b₀, rt, hb₀, rfl⟩
  have hnext : (LayerKvCache.clear w.shares ⟨c, w.rt⟩).rt.nextBlockId = w.rt.nextBlockId :=
    LayerKvCache.clearBlocks_nextBlockId _ _
  have hrev : ∀ (b : CacheBlock) rt, (b.clear w.shares rt).1.revision = satAdd b.revision 1 :=
    fun b rt => by
      unfold CacheBlock.clear
      split <;> rfl
  have hset := setCache_cache (s := LayerKvCache.clear w.shares ⟨c, w.rt⟩) hc
  refine ⟨h.of_cache rfl hset (LayerKvCache.Window.clear (s := ⟨c, w.rt⟩) hW) fun b hb => ?_,
    move_of_cache (w.setCache i (LayerKvCache.clear w.shares ⟨c, w.rt⟩)) hinv
      (le_of_eq hnext.symm) rfl hset (fun j b hb => ?_) fun j j' b b' hb hb' hge hid => ?_⟩
  · obtain ⟨j, hj⟩ := List.mem_iff_getElem?.mp hb
    obtain ⟨b₀, rt, hb₀, rfl⟩ := hblk j b hj
    rw [hrev]
    exact satAdd_le _ _
  · obtain ⟨b₀, rt, hb₀, rfl⟩ := hblk j b hb
    have hm := List.mem_of_getElem? hb₀
    refine .cleared (holderOf b₀) (holder_cacheBlock.mpr ⟨c, b₀, hc, hb₀, rfl⟩) CacheBlock.clear_id
      ?_ ?_ fun hown => ?_
    · change b₀.revision ≤ (b₀.clear w.shares rt).1.revision
      rw [hrev]
      exact le_satAdd (h.cache_revision hc hm)
    · exact if_pos (LayerKvCache.clear_shape w.shares rt (hW.block j b₀ hb₀)).2.2.2.1
    · -- a block that is not shared after the clear was not shared before
      have hun : (b₀.clear w.shares rt).1.shared = false := by simpa [holderOf] using hown
      unfold CacheBlock.clear at hun
      split at hun
      · cases hun
      · rename_i hcount
        have := hcareful b₀ hm
        cases hsh : b₀.shared
        · simp [holderOf, hsh]
        · exact absurd ⟨hsh, by omega⟩ this
  · obtain ⟨b₀, rt, hb₀, rfl⟩ := hblk j b hb
    rw [CacheBlock.clear_id] at hge
    have := hinv.held_lt _ _ (holder_cacheBlock.mpr ⟨c, b₀, hc, hb₀, rfl⟩)
    exact absurd this (Nat.not_lt.mpr hge)

/-- A step that only lets go of caches and prefix states, or of ids. -/
theorem release_move (h : Shape K w) (hinv : Inv w.rt.nextBlockId w.holder known)
    (hle : w.rt.nextBlockId ≤ w'.rt.nextBlockId)
    (hcache : ∀ k c, w'.cache k = some c → w.cache k = some c)
    (hpre : ∀ k st, w'.prefixState k = some st → w.prefixState k = some st) :
    Shape K w' ∧ Move w.rt.nextBlockId w'.rt.nextBlockId w.holder w'.holder := by
  have hkept : ∀ p x, w'.holder p = some x → w.holder p = some x := by
    intro p x hx
    cases p with
    | cacheBlock k j =>
      obtain ⟨c, b, hc, hb, rfl⟩ := holder_cacheBlock.mp hx
      exact holder_cacheBlock.mpr ⟨c, b, hcache k c hc, hb, rfl⟩
    | prefixBlock k j =>
      obtain ⟨st, pb, hst, hpb, rfl⟩ := holder_prefixBlock.mp hx
      exact holder_prefixBlock.mpr ⟨st, pb, hpre k st hst, hpb, rfl⟩
  refine ⟨⟨fun k c hc => h.window k c (hcache k c hc), fun k st hst => h.prefixed k st (hpre k st hst),
    fun p x hx => h.revision p x (hkept p x hx)⟩, hle, fun p x hx => .kept (hkept p x hx),
    fun p q x y hx _ hge _ => ?_⟩
  have := hinv.held_lt p x (hkept p x hx)
  omega

/-- A prefix state shares the blocks it keeps. -/
theorem prefix_move (h : Shape K w) (hinv : Inv w.rt.nextBlockId w.holder known)
    (hc : w.cache i = some c)
    (hw' : w' = { w with prefixes := w.prefixes ++ [some c.prefixCacheState] }) :
    Shape K w' ∧ Move w.rt.nextBlockId w'.rt.nextBlockId w.holder w'.holder := by
  obtain ⟨W, hW⟩ := h.window i c hc
  have hpre : ∀ k st, w'.prefixState k = some st →
      st = c.prefixCacheState ∨ w.prefixState k = some st := by
    intro k st hst
    rw [hw'] at hst
    unfold prefixState at hst ⊢
    dsimp only at hst
    rcases Nat.lt_trichotomy k w.prefixes.length with hlt | heq | hgt
    · rw [List.getElem?_append_left hlt] at hst
      exact .inr hst
    · rw [heq, List.getElem?_concat_length] at hst
      exact .inl (Option.some.inj hst).symm
    · rw [List.getElem?_eq_none (by simp; omega)] at hst
      cases hst
  have hcache : ∀ k, w'.cache k = w.cache k := fun k => by rw [hw']; rfl
  -- what the new prefix state keeps is held by the cache
  have hheld : ∀ p x, w'.holder p = some x →
      (∃ q y, w.holder q = some y ∧ x = { y with owner := false }) ∨ w.holder p = some x := by
    intro p x hx
    cases p with
    | cacheBlock k j =>
      rw [holder_cacheBlock] at hx
      simp only [hcache] at hx
      exact .inr (holder_cacheBlock.mpr hx)
    | prefixBlock k j =>
      obtain ⟨st, pb, hst, hpb, rfl⟩ := holder_prefixBlock.mp hx
      rcases hpre k st hst with rfl | hold
      · obtain ⟨-, -, -, block, hblock, hret⟩ :=
          LayerKvCache.prefixBlocksOf_mem _ _ pb (List.mem_of_getElem? hpb)
        refine .inl ⟨.cacheBlock i pb.blockIndex, holderOf block,
          holder_cacheBlock.mpr ⟨c, block, hc, hblock, rfl⟩, ?_⟩
        rw [hret]
        rfl
      · exact .inr (holder_prefixBlock.mpr ⟨st, pb, hold, hpb, rfl⟩)
  have hle : w.rt.nextBlockId ≤ w'.rt.nextBlockId := by rw [hw']
  refine ⟨⟨fun k c' hc' => ?_, fun k st hst => ?_, fun p x hx => ?_⟩, hle, fun p x hx => ?_,
    fun p q x y hx _ hge _ => ?_⟩
  · rw [hcache] at hc'
    exact h.window k c' hc'
  · rcases hpre k st hst with rfl | hold
    · exact ⟨c, W, hW, rfl⟩
    · exact h.prefixed k st hold
  · rcases hheld p x hx with ⟨q, y, hy, rfl⟩ | hold
    · exact h.revision q y hy
    · exact h.revision p x hold
  · rcases hheld p x hx with ⟨q, y, hy, heq⟩ | hold
    · exact .shared q y hy heq
    · exact .kept hold
  · rcases hheld p x hx with ⟨q, y, hy, rfl⟩ | hold
    · exact absurd (hinv.held_lt q y hy) (Nat.not_lt.mpr hge)
    · exact absurd (hinv.held_lt p x hold) (Nat.not_lt.mpr hge)

theorem setCache_same {rt : Statics} (hc : w.cache i = some c) (hrt : rt = w.rt) :
    w.setCache i ⟨c, rt⟩ = w := by
  have : w.caches[i]? = some (some c) := by
    unfold cache at hc
    cases hi : w.caches[i]? with
    | none =>
      rw [hi] at hc
      cases hc
    | some o =>
      rw [hi] at hc
      exact congrArg some hc
  rw [setCache, list_set_self this, hrt]

/-- The step lemma: a careful step is a move. -/
theorem step_move (h : Shape K w) (hinv : Inv w.rt.nextBlockId w.holder known) (op : Op)
    (hcareful : w.Careful op) : Shape K (w.step K op) ∧
      Move w.rt.nextBlockId (w.step K op).rt.nextBlockId w.holder (w.step K op).holder := by
  have hstay : Shape K w ∧ Move w.rt.nextBlockId w.rt.nextBlockId w.holder w.holder :=
    release_move h hinv le_rfl (fun _ _ hc => hc) fun _ _ hst => hst
  cases op with
  | new maxTokens keyValueHeads headDim config =>
    simp only [step]
    cases hn : LayerKvCache.newWithConfig maxTokens keyValueHeads headDim config w.rt with
    | error e => exact hstay
    | ok q => exact new_move (s := ⟨q.1, q.2⟩) h hinv (LayerKvCache.newWithConfig_ok hn)
  | clone i =>
    simp only [step]
    cases hc : w.cache i with
    | none => exact hstay
    | some c => exact clone_move h hinv hc
  | prefixCacheState i =>
    simp only [step]
    cases hc : w.cache i with
    | none => exact hstay
    | some c => exact prefix_move h hinv hc rfl
  | fromPrefixCacheState i =>
    simp only [step]
    cases hst : w.prefixState i with
    | none => exact hstay
    | some st =>
      dsimp only
      cases hok : LayerKvCache.fromPrefixCacheState K st w.rt with
      | error e => exact hstay
      | ok s => exact restore_move h hinv hst hok
  | append i key value =>
    simp only [step]
    cases hc : w.cache i with
    | none => exact hstay
    | some c =>
      dsimp only
      obtain ⟨W, hW⟩ := h.window i c hc
      cases hr : LayerKvCache.appendWithMetadata K w.shares key value ⟨c, w.rt⟩ with
      | error e s' =>
        obtain ⟨rfl, -⟩ := LayerKvCache.appendWithMetadata_error (s := ⟨c, w.rt⟩) hW hr
        rw [stateOf, setCache_same hc rfl]
        exact hstay
      | ok m s' =>
        have ha := (LayerKvCache.appendWithMetadata_ok (s := ⟨c, w.rt⟩) hW hr).1
        exact append_move h hinv hc (hcareful c hc) (.inl ha)
  | appendSliding i key value =>
    simp only [step]
    cases hc : w.cache i with
    | none => exact hstay
    | some c =>
      dsimp only
      obtain ⟨W, hW⟩ := h.window i c hc
      cases hr : LayerKvCache.appendSlidingWithMetadata K w.shares key value ⟨c, w.rt⟩ with
      | error e s' =>
        obtain ⟨rfl, -⟩ := LayerKvCache.appendSlidingWithMetadata_error (s := ⟨c, w.rt⟩) hW hr
        rw [stateOf, setCache_same hc rfl]
        exact hstay
      | ok m s' =>
        have ha := LayerKvCache.appendSlidingWithMetadata_ok (s := ⟨c, w.rt⟩) hW hr
        exact append_move h hinv hc (hcareful c hc) (ha.imp And.left And.left)
  | clear i =>
    simp only [step]
    cases hc : w.cache i with
    | none => exact hstay
    | some c => exact clear_move h hinv hc (hcareful c hc)
  | dropCache i =>
    exact release_move h hinv le_rfl (fun k c => dropCache_cache k) fun _ _ hst => hst
  | dropPrefixState i =>
    exact release_move h hinv le_rfl (fun _ _ hc => hc) fun k st => dropPrefixState_prefixState k
  | elsewhere blocks =>
    exact release_move h hinv (Nat.le_add_right _ _) (fun _ _ hc => hc) fun _ _ hst => hst

/-! ### Runs -/

/-- A reported block has rows, so what it holds is known. -/
theorem Shape.reports_known (h : Shape K w) (hinv : Inv w.rt.nextBlockId w.holder known)
    {b : LayerKvCacheBlock} (hb : b ∈ w.reports) :
    (b.blockId, b.revision, ⟨b.keyStorage, b.valueStorage⟩) ∈ known := by
  obtain ⟨o, ho, hb⟩ := List.mem_flatMap.mp hb
  cases o with
  | none => cases hb
  | some c =>
    obtain ⟨i, hi⟩ := List.mem_iff_getElem?.mp ho
    have hc : w.cache i = some c := by
      unfold cache
      rw [hi]
      rfl
    obtain ⟨W, hW⟩ := h.window i c hc
    obtain ⟨bs, hbs, hrep⟩ := hW.toLayout.activeBlocks
    dsimp only at hb
    rw [hbs] at hb
    obtain ⟨run, hrun, block, hblock, rfl⟩ := forall₂_mem_right hrep hb
    have hpos := (hW.runs.inside run hrun).pos
    have hend := hW.run_end_le hrun hblock
    refine hinv.held _ ⟨.cacheBlock i run.blockIndex, holderOf block,
      holder_cacheBlock.mpr ⟨c, block, hc, hblock, rfl⟩, rfl, rfl, ?_⟩
    exact if_neg (by omega)

/-- The run lemma. -/
theorem Reach.inv {seen : List LayerKvCacheBlock} (h : Reach K Careful w seen) :
    Shape K w ∧ ∃ known, Inv w.rt.nextBlockId w.holder known ∧
      ∀ b ∈ seen, (b.blockId, b.revision, ⟨b.keyStorage, b.valueStorage⟩) ∈ known := by
  induction h with
  | start rt =>
    have hc : ∀ k, World.cache ⟨rt, [], []⟩ k = none := fun k => rfl
    have hp : ∀ k, World.prefixState ⟨rt, [], []⟩ k = none := fun k => rfl
    have hnone : ∀ p, World.holder ⟨rt, [], []⟩ p = none := fun p => by cases p <;> rfl
    refine ⟨⟨fun k c h => by simp [hc] at h, fun k st h => by simp [hp] at h,
      fun p x h => by simp [hnone] at h⟩, ∅, Inv.start _ hnone, fun b hb => by cases hb⟩
  | step op _ hcareful ih =>
    obtain ⟨hshape, known, hinv, hseen⟩ := ih
    obtain ⟨hshape', hmove⟩ := step_move hshape hinv op hcareful
    refine ⟨hshape', _, hinv.move hmove, fun b hb => ?_⟩
    rcases List.mem_append.mp hb with hb | hb
    · exact .inl (hseen b hb)
    · exact hshape'.reports_known (hinv.move hmove) hb

end Moves

/-- In every run of careful steps, two active blocks reported at any two times
under one id and one revision hold the same rows. -/
theorem blockIdentity_determines_rows {seen : List LayerKvCacheBlock}
    (h : Reach K Careful w seen) {b₁ b₂ : LayerKvCacheBlock} (h₁ : b₁ ∈ seen) (h₂ : b₂ ∈ seen)
    (hid : b₁.blockId = b₂.blockId) (hrev : b₁.revision = b₂.revision) :
    b₁.keyStorage = b₂.keyStorage ∧ b₁.valueStorage = b₂.valueStorage := by
  obtain ⟨-, known, hinv, hseen⟩ := h.inv
  have hk₁ := hseen b₁ h₁
  have hk₂ := hseen b₂ h₂
  rw [hid, hrev] at hk₁
  have heq := hinv.functional _ _ _ _ hk₁ hk₂
  exact ⟨congrArg CacheBlockStorage.keys heq, congrArg CacheBlockStorage.values heq⟩

/-- Two reports of one block, by a cache and its clone. -/
theorem blockIdentity_determines_rows_clone : ∃ w seen b₁ b₂,
    Reach .onZeroRows Careful w seen ∧ b₁ ∈ seen ∧ b₂ ∈ seen ∧
      b₁.keyStorage = b₂.keyStorage ∧ b₁.valueStorage = b₂.valueStorage := by
  have hrun : ∃ w seen b₁ b₂, Reach .onZeroRows Careful w seen ∧ b₁ ∈ seen ∧ b₂ ∈ seen ∧
      b₁.blockId = b₂.blockId ∧ b₁.revision = b₂.revision := by
    refine ⟨_, _, _, _, .step (.clone 0) (.step (.append 0 [⟨1⟩] [⟨2⟩])
      (.step (.new 4 1 1 .f32) (.start .initial) trivial) ?_) trivial,
      List.mem_of_getElem? (i := 1) rfl, List.mem_of_getElem? (i := 2) rfl, rfl, rfl⟩
    intro c hc b hb
    cases hc
    cases hb
    decide
  obtain ⟨w, seen, b₁, b₂, h, h₁, h₂, hid, hrev⟩ := hrun
  exact ⟨w, seen, b₁, b₂, h, h₁, h₂, blockIdentity_determines_rows h h₁ h₂ hid hrev⟩

/-- A run, with every active block ever reported. -/
def run (K : QuantKernels) (ops : List Op) : World × List LayerKvCacheBlock :=
  ops.foldl (fun ws op => (ws.1.step K op, ws.2 ++ (ws.1.step K op).reports))
    (⟨.initial, [], []⟩, [])

theorem reach_run {allowed : World → Op → Prop} (hall : ∀ w op, allowed w op) (ops : List Op) :
    Reach K allowed (run K ops).1 (run K ops).2 := by
  induction ops using List.reverseRecOn with
  | nil => exact .start _
  | append_singleton ops op ih =>
    unfold run at ih ⊢
    rw [List.foldl_append]
    exact .step op ih (hall _ _)

/-- A cache and a clone of it that is cleared twice and refilled: after the same
number of changes both report the block under one id and revision, with
different first rows. -/
theorem blockIdentity_shared_clear_twice :
    ¬ ∀ w seen, Reach .onZeroRows (fun _ _ => True) w seen → ∀ b₁ ∈ seen, ∀ b₂ ∈ seen,
      b₁.blockId = b₂.blockId → b₁.revision = b₂.revision →
        b₁.keyStorage = b₂.keyStorage ∧ b₁.valueStorage = b₂.valueStorage := by
  intro hall
  have hrun := hall _ _ (reach_run (fun _ _ => trivial) [.new 4 1 1 .f32, .append 0 [⟨1⟩] [⟨1⟩],
    .clone 0, .clear 1, .clear 1, .append 1 [⟨9⟩] [⟨9⟩], .append 0 [⟨2⟩] [⟨2⟩],
    .append 0 [⟨3⟩] [⟨3⟩], .append 0 [⟨4⟩] [⟨4⟩]])
  revert hrun
  decide +kernel

end World

end KirAi.KvCache
