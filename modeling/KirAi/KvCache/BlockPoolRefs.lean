/-
# References to pool blocks are conserved

A block's `ref_count` is the number of sessions that own it plus the references
that clients hold themselves. The second number is not in the pool's state: it
is a ghost (`raw`), which `allocate` and `retain` raise and `release` lowers.

Inside an operation a reference may be in transit: the block that
`allocate_for_session` has just allocated is owned by nobody yet, the blocks of
a session that is being released are still referenced. The invariant
(`Inv p raw`) counts these as raw, so it holds between any two primitive
updates, and an operation moves references between the two sides.

Key theorems: `Inv.allocate`, `Inv.release`, `Inv.setSession`,
`Op.step_inv`, `reach_inv`, `blockPool_refs_conserved`.
-/
import KirAi.KvCache.BlockPool
import KirAi.Lib.FiniteMap
import Mathlib.Algebra.Group.Pi.Basic
import Mathlib.Algebra.Order.Group.Nat
import Mathlib.Order.Basic

namespace KirAi.KvCache
namespace BlockPoolInner

open Lib

/-- How many sessions own the block. -/
def owners (p : BlockPoolInner) (b : BlockId) : ℕ :=
  entryCount p.sessions fun e => e.2.ownsBlock b

/-- The block's reference count; `0` when the pool has no such block. -/
def refCountOf (p : BlockPoolInner) (b : BlockId) : ℕ := (p.blocks[b]?.map (·.refCount)).getD 0

structure Inv (p : BlockPoolInner) (raw : BlockId → ℕ) : Prop where
  nodup : p.freeList.Nodup
  free : ∀ b, b ∈ p.freeList ↔ b ∈ p.blocks ∧ p.refCountOf b = 0
  refs : ∀ b, p.refCountOf b = p.owners b + raw b
  ids : ∀ b block, p.blocks[b]? = some block → block.id = b ∧ b ≠ 0
  tables : ∀ s t, p.sessions[s]? = some t → t.sessionId = s ∧ s < p.nextSessionId ∧ t.OwnsListed
  next : 0 < p.nextSessionId

variable {p p' : BlockPoolInner} {raw raw' : BlockId → ℕ} {b : BlockId} {block block' : CacheBlock}
  {env : Ambient}

/-- One more reference to `b`. -/
def plusOne (raw : BlockId → ℕ) (b : BlockId) : BlockId → ℕ :=
  fun a => raw a + if a = b then 1 else 0

/-- One reference to `b` less. -/
def minusOne (raw : BlockId → ℕ) (b : BlockId) : BlockId → ℕ :=
  fun a => raw a - if a = b then 1 else 0

theorem minusOne_plusOne (raw : BlockId → ℕ) (b : BlockId) : minusOne (plusOne raw b) b = raw := by
  funext a
  simp [minusOne, plusOne]

theorem refCountOf_eq (hb : p.blocks[b]? = some block) : p.refCountOf b = block.refCount := by
  simp [refCountOf, hb]

theorem refCountOf_insert (p : BlockPoolInner) (b : BlockId) (block : CacheBlock) (a : BlockId)
    (fl : List BlockId) (clock : ℕ) (rt : Statics) :
    { p with blocks := p.blocks.insert b block, freeList := fl, accessClock := clock, rt }.refCountOf
      a = if a = b then block.refCount else p.refCountOf a := by
  unfold refCountOf
  simp only [Std.ExtTreeMap.getElem?_insert, Nat.compare_eq_eq]
  by_cases h : a = b
  · simp [h]
  · rw [if_neg h, if_neg (Ne.symm h)]

theorem mem_blocks_of_refCountOf (h : 0 < p.refCountOf b) : ∃ block, p.blocks[b]? = some block ∧
    0 < block.refCount := by
  unfold refCountOf at h
  cases hb : p.blocks[b]? with
  | none => simp [hb] at h
  | some block => exact ⟨block, rfl, by simpa [hb] using h⟩

/-! ### The two kinds of update -/

variable (block') in
/-- Replacing a block by one of the same id moves as many references as its
count changes; the free list follows. -/
theorem Inv.setBlock (h : Inv p raw) (hb : p.blocks[b]? = some block) (hid : block'.id = block.id)
    {fl : List BlockId} (hn : fl.Nodup)
    (hfb : b ∈ fl ↔ block'.refCount = 0) (hfa : ∀ a, a ≠ b → (a ∈ fl ↔ a ∈ p.freeList))
    (hrb : block'.refCount + raw b = block.refCount + raw' b) (hra : ∀ a, a ≠ b → raw' a = raw a)
    (clock : ℕ) (rt : Statics) :
    Inv { p with blocks := p.blocks.insert b block', freeList := fl, accessClock := clock, rt }
      raw' := by
  have hmem : b ∈ p.blocks := Std.ExtTreeMap.mem_iff_isSome_getElem?.mpr (by rw [hb]; rfl)
  refine ⟨hn, fun a => ?_, fun a => ?_, fun a blk ha => ?_, h.tables, h.next⟩
  · rw [refCountOf_insert]
    simp only [Std.ExtTreeMap.mem_insert, Nat.compare_eq_eq]
    by_cases hab : a = b
    · subst hab
      simp [hfb]
    · rw [hfa a hab, h.free a, if_neg hab]
      simp [Ne.symm hab]
  · rw [refCountOf_insert]
    have hr := h.refs a
    by_cases hab : a = b
    · subst hab
      rw [refCountOf_eq hb] at hr
      rw [if_pos rfl]
      change _ = p.owners a + _
      omega
    · rw [if_neg hab, hra a hab]
      exact hr
  · rw [Std.ExtTreeMap.getElem?_insert] at ha
    by_cases hab : b = a
    · subst hab
      simp only [Std.ReflCmp.compare_self, ↓reduceIte, Option.some.injEq] at ha
      subst ha
      rw [hid]
      exact h.ids b block hb
    · rw [if_neg (by simpa using hab)] at ha
      exact h.ids a blk ha

variable (block') in
/-- A block keeps its count and its id: nothing moves. -/
theorem Inv.setBlock_same (h : Inv p raw) (hb : p.blocks[b]? = some block)
    (hid : block'.id = block.id) (hr : block'.refCount = block.refCount) (clock : ℕ) (rt : Statics) :
    Inv { p with blocks := p.blocks.insert b block', accessClock := clock, rt } raw := by
  refine h.setBlock block' hb hid h.nodup ?_ (fun _ _ => Iff.rfl) (by omega) (fun _ _ => rfl) clock rt
  rw [h.free b, refCountOf_eq hb, hr]
  have hmem : b ∈ p.blocks := Std.ExtTreeMap.mem_iff_isSome_getElem?.mpr (by rw [hb]; rfl)
  exact ⟨fun hc => hc.2, fun hc => ⟨hmem, hc⟩⟩

/-- The clock and the process counters carry no reference. -/
theorem Inv.nextAccess (h : Inv p raw) : Inv p.nextAccess.2 raw :=
  ⟨h.nodup, h.free, h.refs, h.ids, h.tables, h.next⟩

/-- Replacing a session's table moves the references to the blocks it comes to
own, or owns no more. -/
theorem Inv.setSession (h : Inv p raw) {s : SessionId} {t : SessionBlockTable}
    (t' : SessionBlockTable)
    (ht : p.sessions[s]? = some t) (hid : t'.sessionId = t.sessionId) (hown : t'.OwnsListed)
    (hraw : ∀ b, raw' b + (if t'.ownsBlock b then 1 else 0) =
      raw b + (if t.ownsBlock b then 1 else 0)) :
    Inv { p with sessions := p.sessions.insert s t' } raw' := by
  refine ⟨h.nodup, h.free, fun b => ?_, h.ids, fun s' t'' ht'' => ?_, h.next⟩
  · have hr := h.refs b
    have hins := entryCount_insert p.sessions (fun e => e.2.ownsBlock b) s t'
    have hera := entryCount_erase p.sessions (fun e => e.2.ownsBlock b) s
    rw [ht] at hera
    simp only [entryWeight] at hins hera
    have := hraw b
    unfold owners at hr
    change p.refCountOf b = entryCount (p.sessions.insert s t') _ + _
    omega
  · rw [Std.ExtTreeMap.getElem?_insert] at ht''
    by_cases hs : s = s'
    · subst hs
      simp only [Std.ReflCmp.compare_self, ↓reduceIte, Option.some.injEq] at ht''
      subst ht''
      obtain ⟨h1, h2, -⟩ := h.tables s t ht
      exact ⟨hid.trans h1, h2, hown⟩
    · rw [if_neg (by simpa using hs)] at ht''
      exact h.tables s' t'' ht''

/-- Touching a session moves nothing. -/
theorem Inv.touchSession (h : Inv p raw) {s : SessionId} {t : SessionBlockTable}
    (ht : p.sessions[s]? = some t) (access : ℕ) :
    Inv { p with sessions := p.sessions.insert s (t.touch access) } raw :=
  h.setSession _ ht rfl (h.tables s t ht).2.2 fun _ => rfl

/-- A session that goes leaves its references behind. -/
theorem Inv.eraseSession (h : Inv p raw) {s : SessionId} {t : SessionBlockTable}
    (ht : p.sessions[s]? = some t) :
    Inv { p with sessions := p.sessions.erase s }
      (fun b => raw b + if t.ownsBlock b then 1 else 0) := by
  refine ⟨h.nodup, h.free, fun b => ?_, h.ids, fun s' t' ht' => ?_, h.next⟩
  · have hr := h.refs b
    have hera := entryCount_erase p.sessions (fun e => e.2.ownsBlock b) s
    rw [ht] at hera
    simp only [entryWeight] at hera
    unfold owners at hr
    change p.refCountOf b = entryCount (p.sessions.erase s) _ + _
    omega
  · rw [Std.ExtTreeMap.getElem?_erase] at ht'
    split at ht'
    · cases ht'
    · exact h.tables s' t' ht'

/-! ### Blocks that are listed are referenced -/

theorem Inv.owners_pos (h : Inv p raw) {s : SessionId} {t : SessionBlockTable}
    (ht : p.sessions[s]? = some t) (hb : b ∈ t.blockTable.blocks) : 0 < p.owners b :=
  entryCount_pos ht (((h.tables s t ht).2.2 b).mpr hb)

/-- A listed block is in the pool, with a reference. -/
theorem Inv.listed (h : Inv p raw) {s : SessionId} {t : SessionBlockTable}
    (ht : p.sessions[s]? = some t) (hb : b ∈ t.blockTable.blocks) :
    ∃ block, p.blocks[b]? = some block ∧ 0 < block.refCount := by
  have := h.owners_pos ht hb
  have := h.refs b
  exact mem_blocks_of_refCountOf (by omega)

theorem Inv.listed_not_free (h : Inv p raw) {s : SessionId} {t : SessionBlockTable}
    (ht : p.sessions[s]? = some t) (hb : b ∈ t.blockTable.blocks) : b ∉ p.freeList := by
  intro hf
  have h0 := ((h.free b).mp hf).2
  have := h.owners_pos ht hb
  have := h.refs b
  omega

/-! ### The primitive operations -/

variable (env) in
/-- Allocation takes a free block and hands out one reference to it. -/
theorem Inv.allocate (h : Inv p raw) :
    (p.freeList = [] ∧ p.allocate env = (none, p)) ∨
      ∃ b p', p.allocate env = (some b, p') ∧ b ∈ p.freeList ∧ p'.sessions = p.sessions ∧
        p'.nextSessionId = p.nextSessionId ∧ Inv p' (plusOne raw b) := by
  unfold BlockPoolInner.allocate
  cases hl : p.freeList.getLast? with
  | none => exact .inl ⟨List.getLast?_eq_none_iff.mp hl, rfl⟩
  | some b =>
    have hbf : b ∈ p.freeList := List.mem_of_getLast? hl
    have hsplit : p.freeList.dropLast ++ [b] = p.freeList := by
      obtain ⟨l, hl'⟩ := List.getLast?_eq_some_iff.mp hl
      rw [hl', List.dropLast_concat]
    have hnd := h.nodup
    rw [← hsplit, List.nodup_append] at hnd
    obtain ⟨hmem, h0⟩ := (h.free b).mp hbf
    obtain ⟨block, hb⟩ := Option.isSome_iff_exists.mp (Std.ExtTreeMap.mem_iff_isSome_getElem?.mp hmem)
    rw [refCountOf_eq hb] at h0
    have key : Inv _ (plusOne raw b) := h.setBlock
      (block.resetForAllocation env.shares (satAdd p.accessClock 1) p.rt).1 hb
      (by simp) hnd.1
      ⟨fun hm => absurd rfl (hnd.2.2 b hm b (by simp)), fun hm => by simp at hm⟩
      (fun a ha => by
        rw [← hsplit, List.dropLast_concat]
        simp [ha])
      (by simp [plusOne, h0, Nat.add_comm]) (fun a ha => by simp [plusOne, ha])
      (satAdd p.accessClock 1)
      (block.resetForAllocation env.shares (satAdd p.accessClock 1) p.rt).2
    exact .inr ⟨b, _, by simp only [BlockPoolInner.nextAccess, hb], hbf, by rfl, by rfl, key⟩

variable (env) in
/-- Releasing a reference someone holds gives it back. -/
theorem Inv.release (h : Inv p raw) (hraw : 0 < raw b) :
    (p.release env b).1 = true ∧ (p.release env b).2.sessions = p.sessions ∧
      (p.release env b).2.nextSessionId = p.nextSessionId ∧
      Inv (p.release env b).2 (minusOne raw b) := by
  have hr := h.refs b
  obtain ⟨block, hb, hpos⟩ := mem_blocks_of_refCountOf (p := p) (b := b) (by omega)
  have hnf : b ∉ p.freeList := fun hf => by
    have := ((h.free b).mp hf).2
    omega
  unfold BlockPoolInner.release
  simp only [hb, if_neg (Nat.ne_of_gt hpos)]
  by_cases h1 : block.decrementRefCount.refCount = 0
  · simp only [h1, ↓reduceIte]
    have h1' : block.refCount - 1 = 0 := h1
    refine ⟨trivial, trivial, trivial, ?_⟩
    refine h.setBlock _ hb (by simp [CacheBlock.decrementRefCount]) ?_ ?_ ?_ ?_ ?_ _ _
    · exact List.nodup_append.mpr ⟨h.nodup, List.nodup_singleton b, fun a ha c hc => by
        rw [List.mem_singleton.mp hc]
        rintro rfl
        exact hnf ha⟩
    · simp
    · intro a ha
      simp [ha]
    · simp [minusOne]
      omega
    · intro a ha
      simp [minusOne, ha]
  · simp only [h1, ↓reduceIte]
    refine ⟨trivial, trivial, trivial, ?_⟩
    have h1' : block.refCount - 1 ≠ 0 := h1
    refine h.setBlock block.decrementRefCount hb rfl h.nodup ?_
      (fun _ _ => Iff.rfl) ?_ ?_ _ _
    · simp only [h1, iff_false]
      exact hnf
    · simp only [CacheBlock.decrementRefCount, minusOne, ↓reduceIte]
      omega
    · intro a ha
      simp [minusOne, ha]

theorem retain_sessions (p : BlockPoolInner) (b : BlockId) : (p.retain b).2.sessions = p.sessions := by
  unfold BlockPoolInner.retain
  split
  · rfl
  · split <;> rfl

/-- One more reference, while the counter can hold it. -/
theorem Inv.retain (h : Inv p raw) (hmax : (p.retain b).1 = true → p.owners b + raw b < wordMax) :
    Inv (p.retain b).2 (if (p.retain b).1 then plusOne raw b else raw) := by
  unfold BlockPoolInner.retain at hmax ⊢
  cases hb : p.blocks[b]? with
  | none => exact h
  | some block =>
    have hr := h.refs b
    rw [refCountOf_eq hb] at hr
    by_cases h0 : block.refCount = 0
    · simpa [h0] using h
    · simp only [hb, h0, ↓reduceIte, forall_const] at hmax ⊢
      have hinc : block.incrementRefCount.refCount = block.refCount + 1 := satAdd_of_le (by omega)
      refine h.setBlock block.incrementRefCount hb rfl h.nodup ?_
        (fun _ _ => Iff.rfl) ?_ (fun a ha => by simp [plusOne, ha]) _ _
      · rw [h.free b, refCountOf_eq hb, hinc]
        omega
      · simp [hinc, plusOne]
        omega

theorem Inv.touch (h : Inv p raw) (b : BlockId) : Inv (p.touch b).2 raw := by
  unfold BlockPoolInner.touch
  simp only [BlockPoolInner.nextAccess]
  cases hb : p.blocks[b]? with
  | none => exact h.nextAccess
  | some block =>
    by_cases h0 : block.refCount = 0
    · simp only [h0, ↓reduceIte]
      exact h.nextAccess
    · simp only [h0, ↓reduceIte]
      exact h.setBlock_same (block.touch (satAdd p.accessClock 1)) hb rfl rfl _ _

/-- A client's write to a block it holds alone keeps the count it was given. -/
theorem Inv.withBlockMut (h : Inv p raw) {f : CacheBlock → Statics → CacheBlock × Statics}
    (hf : ∀ block rt, (f block rt).1.id = block.id ∧ (f block rt).1.refCount = block.refCount)
    (b : BlockId) : Inv (p.withBlockMut b f).2 raw := by
  unfold BlockPoolInner.withBlockMut BlockPoolInner.blockMut
  cases hb : p.blocks[b]? with
  | none => exact h
  | some block =>
    by_cases h1 : block.refCount = 1
    · simp only [Option.filter, h1, decide_true, ↓reduceIte]
      exact h.setBlock_same _ hb (hf block p.rt).1 (hf block p.rt).2 _ _
    · simp only [Option.filter, h1, decide_false, Bool.false_eq_true, ↓reduceIte]
      exact h

/-! ### Listing a block in a session -/

/-- The pool after a session lists a block. -/
def withListing (p : BlockPoolInner) (s : SessionId) (t : SessionBlockTable) (b : BlockId)
    (block : CacheBlock) : BlockPoolInner :=
  { p with
    accessClock := satAdd p.accessClock 1
    sessions := p.sessions.insert s ((t.listing b).touch (satAdd p.accessClock 1))
    blocks := p.blocks.insert b (block.touch (satAdd p.accessClock 1)) }

/-- Either nothing is listed and at most the clock has moved, or the session
and the block exist, the block has a reference, and it is listed. -/
theorem Inv.appendInner_cases (h : Inv p raw) (s : SessionId) (b : BlockId) (r : Bool) :
    (∃ e p', p.appendBlockToSessionInner s b r = (.error e, p') ∧ (p' = p ∨ p' = p.nextAccess.2) ∧
      ¬ (p.sessions.contains s = true ∧ 0 < p.refCountOf b)) ∨
    ∃ t block, p.sessions[s]? = some t ∧ p.blocks[b]? = some block ∧ 0 < block.refCount ∧
      p.appendBlockToSessionInner s b r = (.ok (), p.withListing s t b
        (if r && !t.ownsBlock b then block.incrementRefCount else block)) := by
  unfold appendBlockToSessionInner
  cases hb : p.blocks[b]? with
  | none => exact .inl ⟨_, _, rfl, .inl rfl, by simp [refCountOf, hb]⟩
  | some block =>
    by_cases h0 : block.refCount = 0
    · refine .inl ⟨_, _, by simp only [h0, ↓reduceIte]; rfl, .inl rfl, ?_⟩
      rw [refCountOf_eq hb]
      omega
    · simp only [h0, ↓reduceIte]
      cases hs : p.sessions[s]? with
      | none =>
        refine .inl ⟨_, _, by simp only [BlockPoolInner.nextAccess, hs]; rfl, .inr rfl, ?_⟩
        rw [Std.ExtTreeMap.contains_eq_isSome_getElem?, hs]
        simp
      | some t =>
        refine .inr ⟨t, block, rfl, rfl, Nat.pos_of_ne_zero h0, ?_⟩
        simp only [BlockPoolInner.nextAccess, hs,
          SessionBlockTable.appendOwnedBlock_ok (h.ids b block hb).2]
        rfl

/-- What listing a block moves: the session comes to own it unless it did, out
of the references the block gains and the raw ones it loses. -/
theorem Inv.withListing (h : Inv p raw) {s : SessionId} {t : SessionBlockTable}
    (hs : p.sessions[s]? = some t) (hb : p.blocks[b]? = some block) (hpos : 0 < block.refCount)
    (hid : block'.id = block.id) (hge : block.refCount ≤ block'.refCount)
    (hrb : raw' b + 1 + block.refCount =
      raw b + (if t.ownsBlock b then 1 else 0) + block'.refCount)
    (hra : ∀ a, a ≠ b → raw' a = raw a) : Inv (p.withListing s t b block') raw' := by
  have hnf : b ∉ p.freeList := fun hf => by
    have := ((h.free b).mp hf).2
    rw [refCountOf_eq hb] at this
    omega
  have h1 : Inv { p with
      blocks := p.blocks.insert b (block'.touch (satAdd p.accessClock 1))
      accessClock := satAdd p.accessClock 1 }
      (fun a => if a = b then raw b + block'.refCount - block.refCount else raw a) := by
    refine h.setBlock (block'.touch (satAdd p.accessClock 1)) hb hid h.nodup ?_
      (fun _ _ => Iff.rfl) ?_ (fun a ha => if_neg ha) _ _
    · refine iff_of_false hnf ?_
      change block'.refCount ≠ 0
      omega
    · change block'.refCount + _ = _
      simp only [↓reduceIte]
      omega
  refine h1.setSession _ hs rfl ((h.tables s t hs).2.2.listing b) fun a => ?_
  have howns : ((t.listing b).touch (satAdd p.accessClock 1)).ownsBlock a = true ↔ _ :=
    SessionBlockTable.listing_ownsBlock b a
  by_cases hab : a = b
  · subst hab
    rw [if_pos (howns.mpr (.inl rfl)), if_pos rfl]
    omega
  · rw [hra a hab, if_neg hab]
    congr 1
    simp [howns, hab]

/-! ### Releasing sessions -/

variable (env) in
/-- The loop that releases one reference to each block of a list. -/
theorem Inv.releaseAll : ∀ (bs : List BlockId) (n : ℕ) {p : BlockPoolInner} {raw : BlockId → ℕ},
    bs.Nodup → Inv p raw → (∀ b ∈ bs, 0 < raw b) →
    (releaseAll env bs n p).2.sessions = p.sessions ∧
      (releaseAll env bs n p).2.nextSessionId = p.nextSessionId ∧
      Inv (releaseAll env bs n p).2 (fun a => raw a - if a ∈ bs then 1 else 0)
  | [], _, p, raw, _, h, _ => ⟨rfl, rfl, by simpa [BlockPoolInner.releaseAll] using h⟩
  | b :: bs, n, p, raw, hn, h, hraw => by
    rw [List.nodup_cons] at hn
    obtain ⟨-, h1, h2, h3⟩ := h.release env (hraw b (by simp))
    simp only [BlockPoolInner.releaseAll]
    obtain ⟨k1, k2, k3⟩ := Inv.releaseAll bs _ hn.2 h3 fun a ha => by
      have hab : a ≠ b := fun e => hn.1 (e ▸ ha)
      simpa [minusOne, hab] using hraw a (by simp [ha])
    refine ⟨k1.trans h1, k2.trans h2, ?_⟩
    convert k3 using 2 with a
    by_cases hab : a = b
    · subst hab
      simp [minusOne, hn.1]
    · simp [minusOne, hab]

variable (env) in
/-- The references of a session that goes are released, and nothing else. -/
theorem Inv.releaseSessionInner (h : Inv p raw) {s : SessionId} {t : SessionBlockTable}
    (hs : p.sessions[s]? = some t) :
    ∃ n p', p.releaseSessionInner env s = (some n, p') ∧ p'.sessions = p.sessions.erase s ∧
      p'.nextSessionId = p.nextSessionId ∧ Inv p' raw := by
  have hmem : ∀ b, b ∈ env.order t.ownedBlocks ↔ t.ownsBlock b = true := fun b => by
    rw [(env.order_perm _).mem_iff, Std.ExtTreeSet.mem_toList]
    exact Iff.rfl
  have hnd : (env.order t.ownedBlocks).Nodup := by
    rw [(env.order_perm _).nodup_iff]
    exact t.ownedBlocks.distinct_toList.imp fun hne he => hne (by simp [he])
  obtain ⟨h1, h2, h3⟩ := Inv.releaseAll env (env.order t.ownedBlocks) 0 hnd
    (h.eraseSession hs) fun b hb => by simp [(hmem b).mp hb]
  refine ⟨_, _, by simp only [BlockPoolInner.releaseSessionInner, hs]; rfl, h1, h2, ?_⟩
  convert h3 using 2 with a
  simp [hmem]

/-- The session evicted next exists and is not the excluded one. -/
theorem Inv.lruSessionExcept (h : Inv p raw) {x : Option SessionId} {s : SessionId}
    (hs : p.lruSessionExcept x = some s) : some s ≠ x ∧ ∃ t, p.sessions[s]? = some t := by
  unfold BlockPoolInner.lruSessionExcept at hs
  obtain ⟨t, ht, rfl⟩ := Option.map_eq_some_iff.mp hs
  have hm := List.argmin_mem (Option.mem_def.mpr ht)
  simp only [List.mem_filter, List.mem_map, decide_eq_true_eq] at hm
  obtain ⟨⟨⟨⟨s, t'⟩, hl, rfl⟩, hx⟩, -⟩ := hm
  have hst := Std.ExtTreeMap.mem_toList_iff_getElem?_eq_some.mp hl
  refine ⟨hx, t', ?_⟩
  rw [(h.tables s t' hst).1]
  exact hst

variable (env) in
/-- Eviction only takes sessions away, and never the excluded one. -/
theorem Inv.evictLoop (x : SessionId) : ∀ (n : ℕ) {p : BlockPoolInner}, Inv p raw →
    Inv (evictLoop env x n p) raw ∧
      (evictLoop env x n p).nextSessionId = p.nextSessionId ∧
      (evictLoop env x n p).sessions[x]? = p.sessions[x]? ∧
      ∀ (s : SessionId) (t : SessionBlockTable),
        (evictLoop env x n p).sessions[s]? = some t → p.sessions[s]? = some t
  | 0, p, h => ⟨h, rfl, rfl, fun _ _ ht => ht⟩
  | n + 1, p, h => by
    unfold BlockPoolInner.evictLoop
    split
    · cases hl : p.lruSessionExcept (some x) with
      | none => exact ⟨h, rfl, rfl, fun _ _ ht => ht⟩
      | some s =>
        obtain ⟨hne, t, hs⟩ := h.lruSessionExcept hl
        obtain ⟨k, p', hr, h1, h2, h3⟩ := h.releaseSessionInner env hs
        obtain ⟨k1, k2, k3, k4⟩ := Inv.evictLoop x n h3
        simp only [hr]
        have hsx : s ≠ x := fun e => hne (congrArg some e)
        refine ⟨k1, k2.trans h2, ?_, fun s' t' ht' => ?_⟩
        · rw [k3, h1, Std.ExtTreeMap.getElem?_erase, if_neg (by simpa using hsx)]
        · have := k4 s' t' ht'
          rw [h1, Std.ExtTreeMap.getElem?_erase] at this
          split at this
          · cases this
          · exact this
    · exact ⟨h, rfl, rfl, fun _ _ ht => ht⟩

/-- As many rounds as there are sessions end the loop of
`evict_sessions_until_free` for one of its own two reasons. -/
theorem Inv.evictLoop_done (x : SessionId) : ∀ (n : ℕ) {p : BlockPoolInner}, Inv p raw →
    p.sessions.size ≤ n →
    (BlockPoolInner.evictLoop env x n p).freeList ≠ [] ∨
      (BlockPoolInner.evictLoop env x n p).lruSessionExcept (some x) = none
  | 0, p, h, hn => by
    refine .inr ?_
    cases hl : p.lruSessionExcept (some x) with
    | none => exact hl
    | some s =>
      obtain ⟨-, t, hs⟩ := h.lruSessionExcept hl
      have he : p.sessions = ∅ := by
        rw [← Std.ExtTreeMap.isEmpty_iff, Std.ExtTreeMap.isEmpty_eq_size_beq_zero]
        simpa using hn
      rw [he] at hs
      simp at hs
  | n + 1, p, h, hn => by
    unfold BlockPoolInner.evictLoop
    split
    · cases hl : p.lruSessionExcept (some x) with
      | none => exact .inr hl
      | some s =>
        obtain ⟨-, t, hs⟩ := h.lruSessionExcept hl
        obtain ⟨k, p', hr, h1, -, h3⟩ := h.releaseSessionInner env hs
        simp only [hr]
        refine Inv.evictLoop_done x n h3 ?_
        rw [h1, Std.ExtTreeMap.size_erase, Std.ExtTreeMap.contains_eq_isSome_getElem?, hs]
        simp only [Option.isSome_some, ↓reduceIte]
        omega
    · rename_i hf
      exact .inl (by simpa using hf)

variable (env) in
/-- `evict_sessions_until_free`, when the free list is empty. -/
theorem Inv.evictIfEmpty (h : Inv p raw) (s : SessionId) :
    ∃ p', (if p.freeList.isEmpty then p.evictSessionsUntilFree env s else p) = p' ∧ Inv p' raw ∧
      p'.nextSessionId = p.nextSessionId ∧ p'.sessions[s]? = p.sessions[s]? ∧
      ∀ (s' : SessionId) (t : SessionBlockTable),
        p'.sessions[s']? = some t → p.sessions[s']? = some t := by
  split
  · obtain ⟨h1, h2, h3, h4⟩ := h.evictLoop env s p.sessions.size
    exact ⟨_, rfl, h1, h2, h3, h4⟩
  · exact ⟨p, rfl, h, rfl, rfl, fun _ _ ht => ht⟩

/-! ### Handing out a block -/

/-- No session that is there before and after lists the block before. -/
def NotListedBy (p p' : BlockPoolInner) (b : BlockId) : Prop :=
  ∀ (s : SessionId) (t : SessionBlockTable), p.sessions[s]? = some t → s ∈ p'.sessions →
    b ∉ t.blockTable.blocks

/-- A block taken off the free list of `p₁` is listed by no session that `p₁`
has as `p` had it. -/
theorem Inv.notListedBy {p₁ : BlockPoolInner} (h : Inv p₁ raw) (hb : b ∈ p₁.freeList)
    (hsub : ∀ (s : SessionId) (t : SessionBlockTable),
      p₁.sessions[s]? = some t → p.sessions[s]? = some t)
    (hkeys : ∀ s : SessionId, s ∈ p'.sessions → s ∈ p₁.sessions) : NotListedBy p p' b := by
  intro s t ht hm hl
  obtain ⟨t₁, ht₁⟩ := Option.isSome_iff_exists.mp
    (Std.ExtTreeMap.mem_iff_isSome_getElem?.mp (hkeys s hm))
  have := hsub s t₁ ht₁
  rw [ht] at this
  cases this
  exact h.listed_not_free ht₁ hl hb

/-- The block is allocated raw, and the session takes the reference over. -/
theorem Inv.allocateForSession (h : Inv p raw) (s : SessionId) :
    Inv (p.allocateForSession env s).2 raw ∧
      ∀ b, (p.allocateForSession env s).1 = some b →
        NotListedBy p (p.allocateForSession env s).2 b := by
  unfold BlockPoolInner.allocateForSession
  by_cases hc : p.sessions.contains s = true
  swap
  · simp only [hc, not_false_eq_true, ↓reduceIte, Bool.false_eq_true]
    exact ⟨h, fun b hb => by cases hb⟩
  simp only [hc, not_true_eq_false, ↓reduceIte]
  obtain ⟨p₁, he, h₁, -, hs₁, hsub⟩ := h.evictIfEmpty env s
  rw [he]
  rcases h₁.allocate env with ⟨-, ha⟩ | ⟨b, p₂, ha, hbf, hs₂, -, h₂⟩
  · rw [ha]
    exact ⟨h₁, fun b hb => by cases hb⟩
  rw [ha]
  -- nobody owned the block that was free, so the raw reference becomes the session's
  have h0 : p₁.owners b + raw b = 0 := by
    rw [← h₁.refs b]
    exact ((h₁.free b).mp hbf).2
  obtain ⟨t, ht⟩ := Option.isSome_iff_exists.mp
    (Std.ExtTreeMap.contains_eq_isSome_getElem? (t := p.sessions) (a := s) ▸ hc)
  have ht₁ : p₁.sessions[s]? = some t := hs₁.trans ht
  have hown : t.ownsBlock b = false := by
    by_contra hne
    have : 0 < p₁.owners b := entryCount_pos ht₁ (by simpa using hne)
    omega
  rcases h₂.appendInner_cases s b false with ⟨e, p₃, hp₃, -, hno⟩ | ⟨t', block, ht', hb, hpos, hp₃⟩
  · exfalso
    refine hno ⟨?_, ?_⟩
    · rw [hs₂, Std.ExtTreeMap.contains_eq_isSome_getElem?, ht₁]
      rfl
    · rw [h₂.refs b]
      simp [plusOne]
  · rw [hs₂, ht₁] at ht'
    cases ht'
    simp only [hp₃, Bool.false_and, Bool.false_eq_true, ↓reduceIte]
    refine ⟨?_, fun b' hb' => ?_⟩
    · refine h₂.withListing (hs₂ ▸ ht₁) hb hpos rfl le_rfl ?_ (fun a ha' => by simp [plusOne, ha'])
      simp [plusOne, hown]
    · cases hb'
      refine h₁.notListedBy hbf hsub fun s' hm => ?_
      change s' ∈ p₂.sessions.insert s _ at hm
      rw [hs₂] at hm
      rcases Std.ExtTreeMap.mem_insert.mp hm with heq | hm
      · rw [← Nat.compare_eq_eq.mp heq]
        exact Std.ExtTreeMap.mem_iff_isSome_getElem?.mpr (by rw [ht₁]; rfl)
      · exact hm

/-! ### Attaching a prefix -/

/-- Listing a block makes its session an owner, unless it was one. -/
theorem owners_withListing {s : SessionId} {t : SessionBlockTable} (hs : p.sessions[s]? = some t)
    (b : BlockId) (block : CacheBlock) (a : BlockId) : (p.withListing s t b block).owners a =
      p.owners a + if a = b ∧ t.ownsBlock b = false then 1 else 0 := by
  have hins := entryCount_insert p.sessions (fun e => e.2.ownsBlock a) s
    ((t.listing b).touch (satAdd p.accessClock 1))
  have hera := entryCount_erase p.sessions (fun e => e.2.ownsBlock a) s
  have howns : ((t.listing b).touch (satAdd p.accessClock 1)).ownsBlock a = true ↔ _ :=
    SessionBlockTable.listing_ownsBlock b a
  rw [hs] at hera
  simp only [entryWeight] at hins hera
  change entryCount (p.sessions.insert s _) _ = entryCount p.sessions _ + _
  by_cases hab : a = b
  · subst hab
    cases ho : t.ownsBlock a <;> simp_all
  · cases ho : t.ownsBlock a <;> simp_all

theorem appendInner_owners_le (p : BlockPoolInner) (s : SessionId) (b : BlockId) (r : Bool)
    (a : BlockId) : p.owners a ≤ (p.appendBlockToSessionInner s b r).2.owners a := by
  unfold appendBlockToSessionInner
  cases hb : p.blocks[b]? with
  | none => exact le_rfl
  | some block =>
    by_cases h0 : block.refCount = 0
    · simp [h0]
    · simp only [h0, ↓reduceIte, BlockPoolInner.nextAccess]
      cases hs : p.sessions[s]? with
      | none => exact le_rfl
      | some t =>
        by_cases hb0 : b = 0
        · subst hb0
          simp only [SessionBlockTable.appendOwnedBlock, BlockId.isInvalid, decide_true, ↓reduceIte]
          exact le_rfl
        · simp only [SessionBlockTable.appendOwnedBlock_ok hb0]
          have := owners_withListing hs b
            (if r && !t.ownsBlock b then block.incrementRefCount else block) a
          exact le_trans (Nat.le_add_right _ _) (le_of_eq this.symm)

theorem attachAll_owners_le (s : SessionId) (a : BlockId) : ∀ (bs : List BlockId)
    (p : BlockPoolInner), p.owners a ≤ (attachAll s bs p).2.owners a
  | [], _ => le_rfl
  | b :: bs, p => by
    unfold attachAll
    have h1 := appendInner_owners_le p s b true a
    split
    · rename_i heq
      rw [heq] at h1
      exact h1
    · rename_i heq
      rw [heq] at h1
      exact le_trans h1 (attachAll_owners_le s a bs _)

/-- A session lists a block with a reference of its own, while the counter can
hold it. -/
theorem Inv.appendInner (h : Inv p raw) (s : SessionId) (b : BlockId)
    (hmax : (p.appendBlockToSessionInner s b true).2.owners b + raw b ≤ wordMax) :
    Inv (p.appendBlockToSessionInner s b true).2 raw := by
  rcases h.appendInner_cases s b true with ⟨e, p', hp', rfl | rfl, -⟩ | ⟨t, block, ht, hb, hpos, hp'⟩
  · rw [hp']
    exact h
  · rw [hp']
    exact h.nextAccess
  · rw [hp'] at hmax ⊢
    rw [owners_withListing ht] at hmax
    have hr := h.refs b
    rw [refCountOf_eq hb] at hr
    cases ho : t.ownsBlock b with
    | true =>
      exact h.withListing ht hb hpos (by simp) (by simp) (by simp [ho]) fun _ _ => rfl
    | false =>
      have hinc : block.incrementRefCount.refCount = block.refCount + 1 :=
        satAdd_of_le (by simp only [ho, and_self, ↓reduceIte] at hmax; omega)
      refine h.withListing ht hb hpos ?_ ?_ ?_ fun _ _ => rfl
      · simp [CacheBlock.incrementRefCount]
      · simp [hinc]
      · simp [hinc, ho]
        omega

theorem Inv.attachAll (s : SessionId) : ∀ (bs : List BlockId) {p : BlockPoolInner}, Inv p raw →
    (∀ b, (attachAll s bs p).2.owners b + raw b ≤ wordMax) → Inv (attachAll s bs p).2 raw
  | [], p, h, _ => h
  | b :: bs, p, h, hmax => by
    unfold BlockPoolInner.attachAll at hmax ⊢
    -- what is owned after the first listing is owned after the last
    have h1 : Inv (p.appendBlockToSessionInner s b true).2 raw := by
      refine h.appendInner s b (le_trans (Nat.add_le_add_right ?_ _) (hmax b))
      split
      · rename_i heq
        rw [heq]
      · rename_i heq
        rw [heq]
        exact attachAll_owners_le s b bs _
    split
    · rename_i heq
      rw [heq] at h1
      exact h1
    · rename_i heq
      rw [heq] at h1
      simp only [heq] at hmax
      exact Inv.attachAll s bs h1 hmax

/-! ### Copy on write -/

theorem Inv.touchOwnBlock (h : Inv p raw) (s : SessionId) (b : BlockId) :
    Inv (p.touchOwnBlock s b).2 raw ∧
      (∀ b', (p.touchOwnBlock s b).1 = .ok b' → b' = b) := by
  unfold BlockPoolInner.touchOwnBlock touchSessionBlock
  simp only [BlockPoolInner.nextAccess]
  cases hs : p.sessions[s]? with
  | none => exact ⟨h.nextAccess, fun b' hb' => by cases hb'⟩
  | some t =>
    have h1 := h.touchSession hs (satAdd p.accessClock 1)
    cases hb : p.blocks[b]? with
    | none => exact ⟨h1.nextAccess, fun b' hb' => by cases hb'⟩
    | some block =>
      by_cases h0 : block.refCount = 0
      · simp only [h0, ↓reduceIte]
        exact ⟨h1.nextAccess, fun b' hb' => by cases hb'⟩
      · simp only [h0, ↓reduceIte]
        refine ⟨?_, fun b' hb' => by cases hb'; rfl⟩
        exact h1.setBlock_same (block.touch (satAdd p.accessClock 1)) hb rfl rfl _ _

variable (env) in
/-- The copy takes a free block for the session and gives the reference to the
old one back when the session lists it no more. -/
theorem Inv.copySessionBlock (h : Inv p raw) {s : SessionId} {t : SessionBlockTable} {index : ℕ}
    (hs : p.sessions[s]? = some t) (hi : t.readBlock index = some b) :
    Inv (p.copySessionBlock env s index b).2 raw ∧
      ∀ b', (p.copySessionBlock env s index b).1 = .ok b' → b' ∈ p.freeList ∧
        ∀ s' : SessionId, s' ∈ (p.copySessionBlock env s index b).2.sessions → s' ∈ p.sessions := by
  unfold BlockPoolInner.copySessionBlock
  rcases h.allocate env with ⟨-, ha⟩ | ⟨nb, p₁, ha, hbf, hs₁, -, h₁⟩
  · rw [ha]
    exact ⟨h, fun b' hb' => by cases hb'⟩
  rw [ha]
  have hbl : b ∈ t.blockTable.blocks := List.mem_of_getElem? hi
  have hne : b ≠ nb := fun e => h.listed_not_free hs hbl (e ▸ hbf)
  have h0 : p.owners nb + raw nb = 0 := by
    rw [← h.refs nb]
    exact ((h.free nb).mp hbf).2
  have ht₁ : p₁.sessions[s]? = some t := hs₁ ▸ hs
  obtain ⟨source, hsrc, -⟩ := h₁.listed ht₁ hbl
  -- the fresh block has the one reference allocation gave it
  have hr₁ : p₁.refCountOf nb = 1 := by
    have : p₁.owners nb = p.owners nb := by rw [owners, owners, hs₁]
    rw [h₁.refs nb, this]
    simp only [plusOne, ↓reduceIte]
    omega
  obtain ⟨destination, hdst, -⟩ := mem_blocks_of_refCountOf (p := p₁) (b := nb) (by omega)
  rw [refCountOf_eq hdst] at hr₁
  have hgive : ∀ {q : BlockPoolInner}, Inv q (plusOne raw nb) → Inv (q.release env nb).2 raw :=
    fun hq => minusOne_plusOne raw nb ▸ (hq.release env (by simp [plusOne])).2.2.2
  simp only [BlockPoolInner.nextAccess, hsrc, hdst]
  cases hc : destination.copyContentsFrom env.shares source (satAdd p₁.accessClock 1) p₁.rt with
  | error e => exact ⟨hgive h₁.nextAccess, fun b' hb' => by cases hb'⟩
  | ok r =>
    obtain ⟨destination', rt⟩ := r
    obtain ⟨hid, href⟩ := CacheBlock.copyContentsFrom_ok hc
    have h₂ := h₁.setBlock_same destination' hdst hid (href.trans hr₁.symm)
      (satAdd p₁.accessClock 1) rt
    obtain ⟨t', hrep, hown', hid', hlist', hother⟩ := SessionBlockTable.replaceOwnedBlock_ok
      (h₁.ids nb destination hdst).2 (h₁.tables s t ht₁).2.2 hi
    simp only [ht₁, hrep]
    -- the session owns the fresh block, and the old one only if it still lists it
    have hnew : t'.ownsBlock nb = true := (hother nb (Ne.symm hne)).mpr (.inl rfl)
    have hnold : t.ownsBlock nb = false := by
      by_contra hcon
      have : 0 < p.owners nb := entryCount_pos hs (by simpa using hcon)
      omega
    have hold : t.ownsBlock b = true := ((h.tables s t hs).2.2 b).mpr hbl
    have h₃ : Inv _ (if t'.ownsBlock b then raw else plusOne raw b) :=
      h₂.setSession (t'.touch (satAdd p₁.accessClock 1)) ht₁ hid' hown' fun a => by
        change _ + (if t'.ownsBlock a then 1 else 0) = _
        by_cases hab : a = b
        · subst hab
          cases ho : t'.ownsBlock a <;> simp [plusOne, hold, hne]
        · by_cases han : a = nb
          · subst han
            cases ho : t'.ownsBlock b <;> simp [plusOne, hnew, hnold, Ne.symm hne]
          · have := hother a hab
            cases ho : t'.ownsBlock b <;> cases ho' : t.ownsBlock a <;>
              simp_all [plusOne]
    refine ⟨?_, fun b' hb' => ?_⟩
    · cases ho : t'.ownsBlock b with
      | true => simpa [ho] using h₃
      | false =>
        simp only [ho, Bool.false_eq_true, ↓reduceIte] at h₃
        simp only [Bool.not_false, ↓reduceIte]
        exact minusOne_plusOne raw b ▸ (h₃.release env (by simp [plusOne])).2.2.2
    · cases hb'
      refine ⟨hbf, fun s' hm => ?_⟩
      have hm' : s' ∈ p₁.sessions.insert s (t'.touch (satAdd p₁.accessClock 1)) := by
        cases ho : t'.ownsBlock b with
        | true => simpa [ho] using hm
        | false =>
          simp only [ho, Bool.false_eq_true, ↓reduceIte] at h₃
          simp only [ho, Bool.not_false, ↓reduceIte] at hm
          rwa [(h₃.release env (by simp [plusOne])).2.1] at hm
      rw [hs₁] at hm'
      rcases Std.ExtTreeMap.mem_insert.mp hm' with heq | hm'
      · rw [← Nat.compare_eq_eq.mp heq]
        exact Std.ExtTreeMap.mem_iff_isSome_getElem?.mpr (by rw [hs]; rfl)
      · exact hm'

/-- Copy on write answers the session's own block, or a fresh one. -/
theorem Inv.copyOnWriteSessionBlock (h : Inv p raw) (s : SessionId) (index : ℕ) :
    Inv (p.copyOnWriteSessionBlock env s index).2 raw ∧
      ∀ b, (p.copyOnWriteSessionBlock env s index).1 = .ok b →
        (p.sessions[s]? >>= (·.readBlock index)) = some b ∨
          NotListedBy p (p.copyOnWriteSessionBlock env s index).2 b := by
  unfold BlockPoolInner.copyOnWriteSessionBlock
  cases hr : p.sessions[s]? >>= (·.readBlock index) with
  | none => exact ⟨h, fun b hb => by cases hb⟩
  | some b₀ =>
    obtain ⟨t, ht, hi⟩ := Option.bind_eq_some_iff.mp hr
    dsimp only
    cases hb : p.blocks[b₀]?.filter (·.refCount > 0) with
    | none => exact ⟨h, fun b hb => by cases hb⟩
    | some block =>
      by_cases h1 : block.refCount = 1
      · simp only [h1, ↓reduceIte]
        obtain ⟨k1, k2⟩ := h.touchOwnBlock s b₀
        exact ⟨k1, fun b hb => .inl (by rw [k2 b hb])⟩
      · simp only [h1, ↓reduceIte]
        obtain ⟨p₁, he, h₁, -, hs₁, hsub⟩ := h.evictIfEmpty env s
        rw [he]
        cases hb₁ : p₁.blocks[b₀]?.filter (·.refCount > 0) with
        | none => exact ⟨h₁, fun b hb => by cases hb⟩
        | some block₁ =>
          by_cases h1' : block₁.refCount = 1
          · simp only [h1', ↓reduceIte]
            obtain ⟨k1, k2⟩ := h₁.touchOwnBlock s b₀
            exact ⟨k1, fun b hb => .inl (by rw [k2 b hb])⟩
          · simp only [h1', ↓reduceIte]
            obtain ⟨k1, k2⟩ := h₁.copySessionBlock env (hs₁.trans ht) hi
            exact ⟨k1, fun b hb => .inr (h₁.notListedBy (k2 b hb).1 hsub (k2 b hb).2)⟩

end BlockPoolInner
end KirAi.KvCache
