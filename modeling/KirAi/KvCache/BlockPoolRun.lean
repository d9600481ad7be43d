/-
# Runs of pool operations

Every operation of a `BlockPool` handle, the run relation they generate from a
fresh pool, and what holds in every state of a run: `reach_inv` and
`blockPool_refs_conserved`.

A client's own references are a ghost of the run. `allocate` and `retain` raise
it, and `release` is allowed only where it is positive: a client gives back
what it was given.
-/
import KirAi.KvCache.BlockPoolRefs

namespace KirAi.KvCache
namespace BlockPoolInner

open Lib

/-- What a `with_block_mut` closure may do to its block. -/
inductive BlockEdit where
  | append (key value : List F32)
  | setContentHash (contentHash : Option CacheBlockHash)

def BlockEdit.apply (shares : Shares) (block : CacheBlock) (rt : Statics) :
    BlockEdit → CacheBlock × Statics
  | .append key value =>
    match block.append shares key value rt with
    | .ok (_, block, rt) => (block, rt)
    | .error _ => (block, rt)
  | .setContentHash contentHash => (block.setContentHash contentHash, rt)

/-- A closure is the list of its edits. -/
def runEdits (shares : Shares) : List BlockEdit → CacheBlock → Statics → CacheBlock × Statics
  | [], block, rt => (block, rt)
  | e :: es, block, rt =>
    let (block, rt) := e.apply shares block rt
    runEdits shares es block rt

inductive Op where
  | createSession
  | releaseSession (sessionId : SessionId)
  | allocateForSession (sessionId : SessionId)
  | appendBlockToSession (sessionId : SessionId) (blockId : BlockId)
  | readSessionBlock (sessionId : SessionId) (index : ℕ)
  | registerPrefix (prefixHash : CacheBlockHash) (blockIds : List BlockId)
  | lookupPrefix (prefixHash : CacheBlockHash)
  | attachPrefixToSession (sessionId : SessionId) (prefixHash : CacheBlockHash)
  | copyOnWriteSessionBlock (sessionId : SessionId) (index : ℕ)
  | allocate
  | retain (blockId : BlockId)
  | release (blockId : BlockId)
  | touch (blockId : BlockId)
  | withBlockMut (blockId : BlockId) (edits : List BlockEdit)

namespace Op

variable (env : Ambient)

/-- The pool after the operation. -/
def run (p : BlockPoolInner) : Op → BlockPoolInner
  | createSession => p.createSession.2
  | releaseSession s => (p.releaseSession env s).2
  | allocateForSession s => (p.allocateForSession env s).2
  | appendBlockToSession s b => (p.appendBlockToSession s b).2
  | readSessionBlock s i => (p.readSessionBlock s i).2
  | registerPrefix h bs => p.registerPrefix h bs
  | lookupPrefix _ => p
  | attachPrefixToSession s h => (p.attachPrefixToSession s h).2
  | copyOnWriteSessionBlock s i => (p.copyOnWriteSessionBlock env s i).2
  | allocate => (p.allocate env).2
  | retain b => (p.retain b).2
  | release b => (p.release env b).2
  | touch b => (p.touch b).2
  | withBlockMut b es => (p.withBlockMut b (runEdits env.shares es)).2

/-- The client's own references after the operation. -/
def rawAfter (p : BlockPoolInner) (raw : BlockId → ℕ) : Op → BlockId → ℕ
  | allocate =>
    match (p.allocate env).1 with
    | some b => plusOne raw b
    | none => raw
  | retain b => if (p.retain b).1 then plusOne raw b else raw
  | release b => if (p.release env b).1 then minusOne raw b else raw
  | _ => raw

/-- A client releases only what it holds. -/
def Allowed (raw : BlockId → ℕ) : Op → Prop
  | release b => 0 < raw b
  | _ => True

/-- The block the operation hands out from the free list, if any. A copy on
write that answers the block already in the table hands out none. -/
def handedOut (p : BlockPoolInner) : Op → Option BlockId
  | allocate => (p.allocate env).1
  | allocateForSession s => (p.allocateForSession env s).1
  | copyOnWriteSessionBlock s i =>
    match (p.copyOnWriteSessionBlock env s i).1 with
    | .ok b => if (p.sessions[s]? >>= (·.readBlock i)) = some b then none else some b
    | .error _ => none
  | _ => none

end Op

/-- The states of a run, with the client's references. At the end of each
operation every block is referenced fewer than `2 ^ 64` times. -/
inductive Reach : BlockPoolInner → (BlockId → ℕ) → Prop where
  | new {blockCount blockCapacityTokens vectorLen : ℕ} {rt : Statics} {p : BlockPoolInner} :
      BlockPoolInner.new blockCount blockCapacityTokens vectorLen rt = .ok p → Reach p fun _ => 0
  | step {p : BlockPoolInner} {raw : BlockId → ℕ} (env : Ambient) (op : Op) : Reach p raw →
      op.Allowed raw → (∀ b, (op.run env p).owners b + op.rawAfter env p raw b < 2 ^ 64) →
      Reach (op.run env p) (op.rawAfter env p raw)

variable {p : BlockPoolInner} {raw : BlockId → ℕ} {env : Ambient}

/-! ### The fresh pool -/

/-- The blocks of a fresh pool have consecutive ids, no reference and no hash. -/
theorem newBlocks_ok {capacityTokens vectorLen : ℕ} : ∀ {n : ℕ} {rt rt' : Statics}
    {bs : List CacheBlock}, newBlocks capacityTokens vectorLen n rt = .ok (bs, rt') →
    bs.map (·.id) = List.range' rt.nextBlockId n ∧
      ∀ block ∈ bs, block.refCount = 0 ∧ block.contentHash = none
  | 0, rt, rt', bs, h => by
    simp only [newBlocks, pure_eq_ok, Prod.mk.injEq] at h
    obtain ⟨rfl, rfl⟩ := h
    simp
  | n + 1, rt, rt', bs, h => by
    simp only [newBlocks, bind_eq_ok, pure_eq_ok, Prod.mk.injEq] at h
    obtain ⟨⟨block, rt₁⟩, hb, ⟨rest, rt₂⟩, hr, rfl, rfl⟩ := h
    obtain ⟨-, -, hid, -, -, -, -, -, href, hhash, -, -, hnext, -⟩ := CacheBlock.new_ok hb
    obtain ⟨ih1, ih2⟩ := newBlocks_ok hr
    refine ⟨?_, fun blk hm => ?_⟩
    · simp only [List.map_cons, ih1, hid, hnext, List.range'_succ]
    · rcases List.mem_cons.mp hm with rfl | hm
      · exact ⟨href, hhash⟩
      · exact ih2 blk hm

/-- Looking up a map that was filled with blocks of distinct ids. -/
theorem getElem?_foldl_insert : ∀ (bs : List CacheBlock) (m : Std.ExtTreeMap BlockId CacheBlock)
    (a : BlockId), (bs.map (·.id)).Nodup →
    (bs.foldl (fun m b => m.insert b.id b) m)[a]? =
      (bs.find? (fun b => b.id = a)).or m[a]?
  | [], m, a, _ => by simp
  | b :: bs, m, a, hn => by
    rw [List.map_cons, List.nodup_cons] at hn
    rw [List.foldl_cons, getElem?_foldl_insert bs _ a hn.2, Std.ExtTreeMap.getElem?_insert,
      List.find?_cons]
    by_cases hab : b.id = a
    · have : bs.find? (fun b => b.id = a) = none := by
        rw [List.find?_eq_none]
        intro x hx
        have : x.id ≠ a := fun he => hn.1 (hab ▸ he ▸ List.mem_map_of_mem hx)
        simpa using this
      simp [hab, this]
    · simp [hab]

theorem mem_of_getElem?_foldl_insert {bs : List CacheBlock} (hn : (bs.map (·.id)).Nodup)
    {a : BlockId} {block : CacheBlock}
    (h : (bs.foldl (fun m b => m.insert b.id b) (∅ : Std.ExtTreeMap BlockId CacheBlock))[a]? =
      some block) : block ∈ bs ∧ block.id = a := by
  rw [getElem?_foldl_insert bs _ a hn] at h
  simp only [Std.ExtTreeMap.getElem?_empty, Option.or_none] at h
  exact ⟨List.mem_of_find?_eq_some h, by simpa using List.find?_some h⟩

theorem new_inv {blockCount blockCapacityTokens vectorLen : ℕ} {rt : Statics}
    (h : BlockPoolInner.new blockCount blockCapacityTokens vectorLen rt = .ok p) :
    Inv p fun _ => 0 := by
  simp only [BlockPoolInner.new, throw_bind, guard_eq_ok, bind_eq_ok, pure_eq_ok] at h
  obtain ⟨-, ⟨bs, rt'⟩, hb, rfl⟩ := h
  obtain ⟨hids, href⟩ := newBlocks_ok hb
  have hn : (bs.map (·.id)).Nodup := by
    rw [hids]
    exact List.nodup_range'
  have hget : ∀ (a : BlockId) (block : CacheBlock),
      (bs.foldl (fun m b => m.insert b.id b) (∅ : Std.ExtTreeMap BlockId CacheBlock))[a]? =
        some block → block ∈ bs ∧ block.id = a := fun a block => mem_of_getElem?_foldl_insert hn
  have hzero : ∀ a : BlockId,
      ((bs.foldl (fun m b => m.insert b.id b) (∅ : Std.ExtTreeMap BlockId CacheBlock))[a]?.map
        CacheBlock.refCount).getD 0 = 0 := fun a => by
    cases hg : (bs.foldl (fun m b => m.insert b.id b) (∅ : Std.ExtTreeMap BlockId CacheBlock))[a]? with
    | none => rfl
    | some block => simpa using (href block (hget a block hg).1).1
  refine ⟨hn, fun a => ?_, fun a => ?_, fun a block ha => ?_, fun s t ht => ?_, Nat.one_pos⟩
  · refine Iff.trans ?_ (and_iff_left (hzero a)).symm
    rw [Std.ExtTreeMap.mem_iff_isSome_getElem?, getElem?_foldl_insert bs _ a hn]
    simp [List.find?_isSome]
  · exact (hzero a).trans (by simp [owners, entryCount_empty])
  · obtain ⟨hm, hid⟩ := hget a block ha
    have : a ∈ List.range' rt.nextBlockId blockCount := by
      rw [← hids, ← hid]
      exact List.mem_map_of_mem hm
    have hpos := rt.nextBlockId_pos
    exact ⟨hid, by have := List.mem_range'_1.mp this; omega⟩
  · simp at ht

/-! ### The operations that were left -/

theorem Inv.createSession (h : Inv p raw) : Inv p.createSession.2 raw := by
  unfold BlockPoolInner.createSession takeSessionId
  cases hc : (checkedAdd p.nextSessionId 1).filter (· ≠ 0) with
  | none => exact h
  | some next =>
    obtain ⟨hadd, -⟩ := Option.filter_eq_some_iff.mp hc
    obtain ⟨-, rfl⟩ := checkedAdd_eq_some.mp hadd
    have hpos := h.next
    -- the new id is above every id in use
    have hfree : p.sessions[p.nextSessionId]? = none := by
      cases hs : p.sessions[p.nextSessionId]? with
      | none => rfl
      | some t => exact absurd (h.tables _ t hs).2.1 (lt_irrefl _)
    dsimp only [BlockPoolInner.nextAccess]
    cases hn : SessionBlockTable.new p.nextSessionId (satAdd p.accessClock 1) with
    | error e =>
      refine ⟨h.nodup, h.free, h.refs, h.ids, fun s t ht => ?_, Nat.succ_pos _⟩
      obtain ⟨h1, h2, h3⟩ := h.tables s t ht
      exact ⟨h1, Nat.lt_succ_of_lt h2, h3⟩
    | ok t =>
      obtain ⟨hown, hid, hnil⟩ := SessionBlockTable.new_ownsListed hn
      refine ⟨h.nodup, h.free, fun b => ?_, h.ids, fun s t' ht' => ?_, Nat.succ_pos _⟩
      · have hins := entryCount_insert p.sessions (fun e => e.2.ownsBlock b) p.nextSessionId t
        have hera := entryCount_erase p.sessions (fun e => e.2.ownsBlock b) p.nextSessionId
        have hno : t.ownsBlock b = false := by
          rw [Bool.eq_false_iff, ne_eq, hown b, hnil]
          simp
        rw [hfree] at hera
        simp only [entryWeight, hno, Bool.false_eq_true, ↓reduceIte, Nat.add_zero] at hins hera
        have hr := h.refs b
        unfold owners at hr
        change p.refCountOf b = entryCount (p.sessions.insert p.nextSessionId t) _ + _
        omega
      · change (p.sessions.insert p.nextSessionId t)[s]? = some t' at ht'
        rw [Std.ExtTreeMap.getElem?_insert] at ht'
        split at ht'
        · rename_i heq
          cases ht'
          rw [← Nat.compare_eq_eq.mp heq]
          exact ⟨hid, Nat.lt_succ_self _, hown⟩
        · obtain ⟨h1, h2, h3⟩ := h.tables s t' ht'
          exact ⟨h1, Nat.lt_succ_of_lt h2, h3⟩

theorem Inv.readSessionBlock (h : Inv p raw) (s : SessionId) (i : ℕ) :
    Inv (p.readSessionBlock s i).2 raw := by
  unfold BlockPoolInner.readSessionBlock
  dsimp only [BlockPoolInner.nextAccess]
  cases hs : p.sessions[s]? with
  | none => exact h.nextAccess
  | some t =>
    dsimp only
    cases hr : t.readBlock i with
    | none => exact h.nextAccess
    | some b =>
      have h1 := h.touchSession hs (satAdd p.accessClock 1)
      dsimp only
      cases hb : p.blocks[b]? with
      | none => exact h1.nextAccess
      | some block =>
        dsimp only
        split
        · exact h1.nextAccess
        · exact h1.setBlock_same (block.touch (satAdd p.accessClock 1)) hb rfl rfl _ _

/-- A registered prefix holds no reference. -/
theorem Inv.registerPrefix (h : Inv p raw) (hash : CacheBlockHash) (bs : List BlockId) :
    Inv (p.registerPrefix hash bs) raw := by
  have hpre : ∀ prefixes, Inv { p with prefixes } raw :=
    fun _ => ⟨h.nodup, h.free, h.refs, h.ids, h.tables, h.next⟩
  unfold BlockPoolInner.registerPrefix
  split
  · split
    · exact hpre _
    · exact hpre _
  · exact hpre _

theorem Inv.attachPrefixToSession (h : Inv p raw) (s : SessionId) (hash : CacheBlockHash)
    (hmax : ∀ b, (p.attachPrefixToSession s hash).2.owners b + raw b ≤ wordMax) :
    Inv (p.attachPrefixToSession s hash).2 raw := by
  unfold BlockPoolInner.attachPrefixToSession at hmax ⊢
  split
  · exact h
  · rename_i hc
    simp only [hc, ↓reduceIte] at hmax
    cases hl : p.lookupPrefix hash with
    | none => exact h
    | some bs =>
      simp only [hl] at hmax ⊢
      have key := h.attachAll s bs
      cases hr : BlockPoolInner.attachAll s bs p with
      | mk r p' =>
        simp only [hr] at hmax key ⊢
        cases r with
        | error e => exact key hmax
        | ok u => exact key hmax

theorem BlockEdit.apply_keeps (shares : Shares) (e : BlockEdit) (block : CacheBlock) (rt : Statics) :
    (e.apply shares block rt).1.id = block.id ∧
      (e.apply shares block rt).1.refCount = block.refCount := by
  cases e with
  | append key value =>
    simp only [BlockEdit.apply]
    cases ha : block.append shares key value rt with
    | error e => exact ⟨rfl, rfl⟩
    | ok r =>
      obtain ⟨i, block', rt'⟩ := r
      obtain ⟨-, -, -, -, storage, -, rfl⟩ := CacheBlock.append_ok ha
      exact ⟨rfl, rfl⟩
  | setContentHash contentHash => exact ⟨rfl, rfl⟩

theorem runEdits_keeps (shares : Shares) : ∀ (es : List BlockEdit) (block : CacheBlock)
    (rt : Statics), (runEdits shares es block rt).1.id = block.id ∧
      (runEdits shares es block rt).1.refCount = block.refCount
  | [], _, _ => ⟨rfl, rfl⟩
  | e :: es, block, rt => by
    obtain ⟨h1, h2⟩ := e.apply_keeps shares block rt
    obtain ⟨k1, k2⟩ := runEdits_keeps shares es (e.apply shares block rt).1 (e.apply shares block rt).2
    exact ⟨k1.trans h1, k2.trans h2⟩

/-! ### Steps and runs -/

/-- Every operation keeps the invariant. -/
theorem Op.step_inv (op : Op) (h : Inv p raw) (ha : op.Allowed raw)
    (hmax : ∀ b, (op.run env p).owners b + op.rawAfter env p raw b < 2 ^ 64) :
    Inv (op.run env p) (op.rawAfter env p raw) := by
  have hle : ∀ b, (op.run env p).owners b + op.rawAfter env p raw b ≤ wordMax :=
    fun b => Nat.le_pred_of_lt (hmax b)
  cases op with
  | createSession => exact h.createSession
  | releaseSession s =>
    cases hs : p.sessions[s]? with
    | none =>
      simpa [run, rawAfter, BlockPoolInner.releaseSession, BlockPoolInner.releaseSessionInner, hs]
        using h
    | some t =>
      obtain ⟨n, p', hr, -, -, h'⟩ := h.releaseSessionInner env hs
      simpa [run, rawAfter, BlockPoolInner.releaseSession, hr] using h'
  | allocateForSession s => exact (h.allocateForSession s).1
  | appendBlockToSession s b => exact h.appendInner s b (hle b)
  | readSessionBlock s i => exact h.readSessionBlock s i
  | registerPrefix hash bs => exact h.registerPrefix hash bs
  | lookupPrefix hash => exact h
  | attachPrefixToSession s hash => exact h.attachPrefixToSession s hash hle
  | copyOnWriteSessionBlock s i => exact (h.copyOnWriteSessionBlock s i).1
  | allocate =>
    rcases h.allocate env with ⟨-, ha⟩ | ⟨b, p', ha, -, -, -, h'⟩
    · simpa [run, rawAfter, ha] using h
    · simpa [run, rawAfter, ha] using h'
  | retain b =>
    refine h.retain fun ht => ?_
    have := hle b
    simp only [run, rawAfter, ht, ↓reduceIte, plusOne, owners, retain_sessions] at this
    exact this
  | release b =>
    obtain ⟨h1, -, -, h'⟩ := h.release env ha
    simpa [run, rawAfter, h1] using h'
  | touch b => exact h.touch b
  | withBlockMut b es => exact h.withBlockMut (runEdits_keeps env.shares es) b

theorem reach_inv (h : Reach p raw) : Inv p raw := by
  induction h with
  | new hn => exact new_inv hn
  | step env op _ ha hmax ih => exact op.step_inv ih ha hmax

/-- What an operation hands out is listed by no session that is there before
and after it. -/
theorem Op.handedOut_notListedBy (op : Op) (h : Inv p raw) {b : BlockId}
    (hb : op.handedOut env p = some b) : NotListedBy p (op.run env p) b := by
  cases op with
  | allocate =>
    rcases h.allocate env with ⟨-, ha⟩ | ⟨b', p', ha, hf, hs, -, -⟩
    · simp [handedOut, ha] at hb
    · simp only [handedOut, ha, Option.some.injEq] at hb
      subst hb
      refine h.notListedBy hf (fun _ _ ht => ht) fun s hm => ?_
      simpa only [run, ha, hs] using hm
  | allocateForSession s => exact (h.allocateForSession s).2 b hb
  | copyOnWriteSessionBlock s i =>
    simp only [handedOut] at hb
    cases hc : (p.copyOnWriteSessionBlock env s i).1 with
    | error e => simp [hc] at hb
    | ok b' =>
      simp only [hc] at hb
      split at hb
      · cases hb
      · rename_i hne
        cases hb
        rcases (h.copyOnWriteSessionBlock s i).2 b hc with h1 | h1
        · exact absurd h1 hne
        · exact h1
  | _ => cases hb

/-- **References are conserved.** In every state of a run, a block's count is
the number of sessions that own it plus the references clients hold; a session
owns exactly what it lists; the free list holds exactly the blocks without a
reference, each once. So a listed block is never free, and no operation hands
it out to anybody while its session lives. -/
theorem blockPool_refs_conserved (h : Reach p raw) :
    (∀ (b : BlockId) (block : CacheBlock), p.blocks[b]? = some block →
      block.refCount = p.owners b + raw b) ∧
    (∀ (s : SessionId) (t : SessionBlockTable), p.sessions[s]? = some t →
      ∀ b, t.ownsBlock b = true ↔ b ∈ t.blockTable.blocks) ∧
    p.freeList.Nodup ∧
    (∀ b, b ∈ p.freeList ↔ ∃ block, p.blocks[b]? = some block ∧ block.refCount = 0) ∧
    ∀ (s : SessionId) (t : SessionBlockTable), p.sessions[s]? = some t →
      ∀ b ∈ t.blockTable.blocks, b ∉ p.freeList ∧
        ∀ (env : Ambient) (op : Op), s ∈ (op.run env p).sessions → op.handedOut env p ≠ some b := by
  have hi := reach_inv h
  refine ⟨fun b block hb => ?_, fun s t ht => (hi.tables s t ht).2.2, hi.nodup, fun b => ?_,
    fun s t ht b hb => ⟨hi.listed_not_free ht hb, fun env op hm ho => ?_⟩⟩
  · rw [← refCountOf_eq hb]
    exact hi.refs b
  · rw [hi.free b, Std.ExtTreeMap.mem_iff_isSome_getElem?]
    constructor
    · rintro ⟨hs, h0⟩
      obtain ⟨block, hb⟩ := Option.isSome_iff_exists.mp hs
      exact ⟨block, hb, by rwa [refCountOf_eq hb] at h0⟩
    · rintro ⟨block, hb, h0⟩
      exact ⟨by rw [hb]; rfl, by rwa [refCountOf_eq hb]⟩
  · exact op.handedOut_notListedBy hi ho s t ht hm hb

theorem owners_le_size (p : BlockPoolInner) (b : BlockId) : p.owners b ≤ p.sessions.size := by
  rw [← Std.ExtTreeMap.length_toList]
  exact List.countP_le_length

/-- A pool of two blocks, with one session that has allocated one of them. -/
theorem blockPool_refs_conserved_two_blocks :
    ∃ p₀, BlockPoolInner.new 2 4 1 Statics.initial = .ok p₀ ∧
      ∃ t, (Op.run .plain (Op.run .plain p₀ .createSession) (.allocateForSession 1)).sessions[1]? =
          some t ∧ t.blockTable.blocks = [2] ∧
        2 ∉ (Op.run .plain (Op.run .plain p₀ .createSession) (.allocateForSession 1)).freeList := by
  refine ⟨_, rfl, _, rfl, by decide +kernel, ?_⟩
  have hsize : ∀ {q : BlockPoolInner}, q.sessions.size = 1 → ∀ b, q.owners b + 0 < 2 ^ 64 :=
    fun hq b => lt_of_le_of_lt (Nat.add_le_add_right (owners_le_size _ b) 0) (by rw [hq]; decide)
  have h₁ := Reach.step .plain .createSession
    (Reach.new (show BlockPoolInner.new 2 4 1 Statics.initial = .ok _ from rfl)) trivial (hsize (by decide +kernel))
  have h₂ := Reach.step .plain (.allocateForSession 1) h₁ trivial (hsize (by decide +kernel))
  exact ((blockPool_refs_conserved h₂).2.2.2.2 1 _ rfl 2 (by decide +kernel)).1

end BlockPoolInner
end KirAi.KvCache
