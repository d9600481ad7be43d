/-
# Which sessions are evicted

When a session needs a block and none is free, `evict_sessions_until_free` releases the least
recently used of the other sessions that list a block, one after another, until a block is
free or no such session is left. Releasing a session may free no block, if others own its
blocks too or clients hold them; it changes the table of no other session. So the sessions
that go are a beginning of the list of all candidates in the order of their last use, as it
was before the first one went (`EvictionOrder`), and the shortest one that frees a block.

Key definitions: `EvictionOrder`, `releaseFirst`, `Evicted`.
Key theorems: `evictLoop_evicted`, `sessionEviction_minimal`.
-/
import KirAi.KvCache.BlockPoolAttach
import Mathlib.Data.List.Sort

namespace KirAi.KvCache
namespace BlockPoolInner

open Lib

variable {p p' q : BlockPoolInner} {a b : BlockId} {block : CacheBlock} {s x : SessionId}
  {t : SessionBlockTable} {order : List SessionBlockTable} {env : Ambient}

/-- The sessions that may be evicted for session `x`, by last use, then by creation, then by
id. -/
structure EvictionOrder (p : BlockPoolInner) (x : SessionId) (order : List SessionBlockTable) :
    Prop where
  sorted : order.Pairwise fun t t' => lruKey t < lruKey t'
  mem : ∀ t, t ∈ order ↔
    p.sessions[t.sessionId]? = some t ∧ t.sessionId ≠ x ∧ t.blockTable.blocks ≠ []

variable (env) in
/-- The pool after the sessions are released, one after another. -/
def releaseEach : List SessionBlockTable → BlockPoolInner → BlockPoolInner
  | [], p => p
  | t :: ts, p => releaseEach ts (p.releaseSession env t.sessionId).2

variable (env) in
/-- The pool after the first `k` sessions of the order are released. -/
def releaseFirst (order : List SessionBlockTable) (k : ℕ) (p : BlockPoolInner) : BlockPoolInner :=
  releaseEach env (order.take k) p

/-- The first `k` sessions of the order are released: the fewest after which a block is free, or
all of them. -/
structure Evicted (env : Ambient) (p : BlockPoolInner) (order : List SessionBlockTable) (k : ℕ)
    (q : BlockPoolInner) : Prop where
  le : k ≤ order.length
  eq : q = releaseFirst env order k p
  fewest : ∀ j, j < k → (releaseFirst env order j p).freeList = []
  enough : q.freeList ≠ [] ∨ k = order.length

/-! ### Releasing sessions -/

theorem releaseAll_sessions (env : Ambient) : ∀ (bs : List BlockId) (n : ℕ) (p : BlockPoolInner),
    (releaseAll env bs n p).2.sessions = p.sessions
  | [], _, _ => rfl
  | b :: bs, _, p => (releaseAll_sessions env bs _ _).trans (release_sessions p env b)

theorem releaseSession_sessions (env : Ambient) (p : BlockPoolInner) (s : SessionId) :
    (p.releaseSession env s).2.sessions = p.sessions.erase s := by
  unfold BlockPoolInner.releaseSession BlockPoolInner.releaseSessionInner
  cases ht : p.sessions[s]? with
  | none => exact (erase_of_getElem?_eq_none ht).symm
  | some t => exact releaseAll_sessions env _ 0 _

/-- A session is there after the others are released, if it is not one of them. -/
theorem releaseEach_sessions (env : Ambient) : ∀ (ts : List SessionBlockTable) (p : BlockPoolInner)
    (s : SessionId), (releaseEach env ts p).sessions[s]? =
      if s ∈ ts.map (·.sessionId) then none else p.sessions[s]?
  | [], p, s => by simp [releaseEach]
  | t :: ts, p, s => by
    rw [releaseEach, releaseEach_sessions env ts, releaseSession_sessions, getElem?_erase_ite,
      List.map_cons]
    by_cases hin : s ∈ ts.map (·.sessionId)
    · rw [if_pos hin, if_pos (List.mem_cons_of_mem _ hin)]
    · rw [if_neg hin]
      by_cases hs : t.sessionId = s
      · rw [if_pos hs, if_pos (by simp [hs])]
      · rw [if_neg hs, if_neg (by simpa [Ne.symm hs] using hin)]

/-! ### The order of eviction -/

theorem mem_candidates_iff (h : Shape p) :
    t ∈ ((p.sessions.toList.map (·.2)).filter (some ·.sessionId ≠ some x)).filter (!·.isEmpty) ↔
      p.sessions[t.sessionId]? = some t ∧ t.sessionId ≠ x ∧ t.blockTable.blocks ≠ [] := by
  simp only [List.mem_filter, List.mem_map, decide_eq_true_eq, ne_eq, Option.some.injEq,
    SessionBlockTable.isEmpty, Bool.not_eq_true', List.isEmpty_eq_false_iff, and_assoc]
  refine and_congr_left fun _ => ?_
  constructor
  · rintro ⟨⟨s, t'⟩, hl, rfl⟩
    have hs := Std.ExtTreeMap.mem_toList_iff_getElem?_eq_some.1 hl
    rw [h.tables s t' hs]
    exact hs
  · exact fun hs => ⟨(t.sessionId, t), Std.ExtTreeMap.mem_toList_iff_getElem?_eq_some.2 hs, rfl⟩

/-- The session that goes first. -/
theorem EvictionOrder.lru_cons {ts : List SessionBlockTable} (h : Shape p)
    (ho : EvictionOrder p x (t :: ts)) : p.lruSessionExcept (some x) = some t.sessionId := by
  have ht := (mem_candidates_iff h).2 ((ho.mem t).1 List.mem_cons_self)
  unfold lruSessionExcept
  cases hmin : List.argmin lruKey _ with
  | none =>
    rw [List.argmin_eq_none.1 hmin] at ht
    exact absurd ht List.not_mem_nil
  | some m =>
    have hle := List.le_of_mem_argmin ht hmin
    have hm := (ho.mem m).2 ((mem_candidates_iff h).1 (List.argmin_mem hmin))
    rcases List.mem_cons.1 hm with rfl | hmts
    · rfl
    · exact absurd (List.rel_of_pairwise_cons ho.sorted hmts) (not_lt_of_ge hle)

theorem EvictionOrder.lru_nil (h : Shape p) (ho : EvictionOrder p x []) :
    p.lruSessionExcept (some x) = none := by
  unfold lruSessionExcept
  rw [Option.map_eq_none_iff, List.argmin_eq_none, List.eq_nil_iff_forall_not_mem]
  exact fun t ht => List.not_mem_nil ((ho.mem t).2 ((mem_candidates_iff h).1 ht))

/-- The rest of the order, after the first session is released. -/
theorem EvictionOrder.tail {ts : List SessionBlockTable} (ho : EvictionOrder p x (t :: ts))
    (env : Ambient) : EvictionOrder (p.releaseSession env t.sessionId).2 x ts := by
  have hne : ∀ t' ∈ ts, t.sessionId ≠ t'.sessionId := by
    intro t' ht' heq
    have hlt := List.rel_of_pairwise_cons ho.sorted ht'
    have h₁ := ((ho.mem t).1 List.mem_cons_self).1
    have h₂ := ((ho.mem t').1 (List.mem_cons_of_mem t ht')).1
    rw [heq, h₂, Option.some.injEq] at h₁
    exact absurd hlt (h₁ ▸ lt_irrefl _)
  refine ⟨(List.pairwise_cons.1 ho.sorted).2, fun t' => ?_⟩
  rw [releaseSession_sessions, getElem?_erase_ite]
  constructor
  · intro ht'
    rw [if_neg (hne t' ht')]
    exact (ho.mem t').1 (List.mem_cons_of_mem t ht')
  · rintro ⟨hs, hx, hb⟩
    by_cases hid : t.sessionId = t'.sessionId
    · rw [if_pos hid] at hs
      cases hs
    · rw [if_neg hid] at hs
      rcases List.mem_cons.1 ((ho.mem t').2 ⟨hs, hx, hb⟩) with rfl | ht'
      · exact absurd rfl hid
      · exact ht'

theorem exists_evictionOrder (h : Shape p) (x : SessionId) : ∃ order, EvictionOrder p x order := by
  let candidates := ((p.sessions.toList.map (·.2)).filter (some ·.sessionId ≠ some x)).filter
    (!·.isEmpty)
  let r := fun t t' : SessionBlockTable => lruKey t ≤ lruKey t'
  have hperm : (candidates.insertionSort r).Perm candidates := List.perm_insertionSort r candidates
  have hmem : ∀ t, t ∈ candidates.insertionSort r ↔
      p.sessions[t.sessionId]? = some t ∧ t.sessionId ≠ x ∧ t.blockTable.blocks ≠ [] :=
    fun t => hperm.mem_iff.trans (mem_candidates_iff h)
  have hnodup : (candidates.insertionSort r).Nodup := by
    refine hperm.nodup_iff.2 (List.Nodup.filter _ (List.Nodup.filter _ ?_))
    refine (nodup_toList p.sessions).map_on fun e he e' he' heq => ?_
    have hs := h.tables e.1 e.2 (Std.ExtTreeMap.mem_toList_iff_getElem?_eq_some.1 he)
    have hs' := h.tables e'.1 e'.2 (Std.ExtTreeMap.mem_toList_iff_getElem?_eq_some.1 he')
    exact Prod.ext (by rw [← hs, ← hs', heq]) heq
  have hsorted : (candidates.insertionSort r).Pairwise r := List.pairwise_insertionSort r candidates
  refine ⟨candidates.insertionSort r, ⟨?_, hmem⟩⟩
  -- two sessions of the pool have different ids, so their keys differ
  refine ((hsorted.and hnodup).imp_of_mem fun {t t'} ht ht' hr => ?_)
  refine lt_of_le_of_ne hr.1 fun hkey => hr.2 ?_
  have hid : t.sessionId = t'.sessionId := congrArg (fun k => (ofLex (ofLex k).2).2) hkey
  have h₁ := ((hmem t).1 ht).1
  have h₂ := ((hmem t').1 ht').1
  rw [hid, h₂] at h₁
  exact (Option.some.inj h₁).symm

/-- There are at most as many candidates as sessions. -/
theorem EvictionOrder.length_le (ho : EvictionOrder p x order) : order.length ≤ p.sessions.size := by
  have hdistinct : order.Nodup := by
    refine ho.sorted.imp ?_
    rintro t _ hlt rfl
    exact lt_irrefl _ hlt
  have hnodup : (order.map fun t => (t.sessionId, t)).Nodup :=
    hdistinct.map fun t t' heq => (Prod.mk.inj heq).2
  have hsub : (order.map fun t => (t.sessionId, t)) ⊆ p.sessions.toList := by
    intro e he
    obtain ⟨t, ht, rfl⟩ := List.mem_map.1 he
    exact Std.ExtTreeMap.mem_toList_iff_getElem?_eq_some.2 ((ho.mem t).1 ht).1
  have hle := (List.subperm_of_subset hnodup hsub).length_le
  rwa [List.length_map, Std.ExtTreeMap.length_toList] at hle

/-! ### The loop -/

/-- With as many rounds as there are candidates, the loop ends for one of its own two
reasons. -/
theorem evictLoop_evicted (env : Ambient) (x : SessionId) : ∀ (n : ℕ) {p : BlockPoolInner}
    {order : List SessionBlockTable}, Shape p → EvictionOrder p x order → order.length ≤ n →
    ∃ k, Evicted env p order k (evictLoop env x n p)
  | 0, p, [], _, _, _ => ⟨0, le_rfl, rfl, nofun, .inr rfl⟩
  | n + 1, p, [], h, ho, _ => by
    refine ⟨0, le_rfl, ?_, nofun, .inr rfl⟩
    rw [BlockPoolInner.evictLoop, ho.lru_nil h]
    split <;> rfl
  | n + 1, p, t :: ts, h, ho, hn => by
    by_cases hf : p.freeList = []
    · obtain ⟨r, hrel⟩ : ∃ r, p.releaseSessionInner env t.sessionId =
          (some r, (p.releaseSession env t.sessionId).2) := by
        have hs := ((ho.mem t).1 List.mem_cons_self).1
        unfold BlockPoolInner.releaseSession BlockPoolInner.releaseSessionInner
        rw [hs]
        exact ⟨_, rfl⟩
      have hloop : evictLoop env x (n + 1) p =
          evictLoop env x n (p.releaseSession env t.sessionId).2 := by
        rw [BlockPoolInner.evictLoop, if_pos (by simp [hf]), ho.lru_cons h]
        dsimp only
        rw [hrel]
      have hshape := h.updates (releaseSessionInner_updates env p t.sessionId)
      obtain ⟨k, hle, heq, hfewest, henough⟩ :=
        evictLoop_evicted env x n hshape (ho.tail env) (Nat.le_of_succ_le_succ hn)
      rw [hloop]
      refine ⟨k + 1, Nat.succ_le_succ hle, heq, fun j hj => ?_, henough.imp id (congrArg Nat.succ)⟩
      cases j with
      | zero => exact hf
      | succ j => exact hfewest j (Nat.lt_of_succ_lt_succ hj)
    · refine ⟨0, Nat.zero_le _, ?_, nofun, ?_⟩
      · rw [BlockPoolInner.evictLoop, if_neg (by simpa using hf)]
        rfl
      · rw [BlockPoolInner.evictLoop, if_neg (by simpa using hf)]
        exact .inl hf

/-- How many sessions go is determined. -/
theorem Evicted.unique {j k : ℕ} {q q' : BlockPoolInner} (hj : Evicted env p order j q)
    (hk : Evicted env p order k q') : j = k := by
  have hle : ∀ {j k : ℕ} {q q' : BlockPoolInner}, Evicted env p order j q →
      Evicted env p order k q' → j ≤ k := by
    intro j k q q' hj hk
    by_contra hlt
    rcases hk.enough with hf | rfl
    · exact hf (hk.eq ▸ hj.fewest k (Nat.lt_of_not_le hlt))
    · exact hlt hj.le
  exact le_antisymm (hle hj hk) (hle hk hj)

/-- The pool that the two operations go on with: `evict_sessions_until_free` where no block is
free. -/
theorem evictIfEmpty_evicted (env : Ambient) (h : Shape p) (ho : EvictionOrder p x order) :
    ∃ k, Evicted env p order k
      (if p.freeList.isEmpty then p.evictSessionsUntilFree env x else p) := by
  split
  · exact evictLoop_evicted env x _ h ho ho.length_le
  · next hf => exact ⟨0, Nat.zero_le _, rfl, nofun, .inl (by simpa using hf)⟩

/-! ### The two operations -/

theorem replaceOwnedBlock_ne_capacity {index requested available : ℕ} :
    t.replaceOwnedBlock index b ≠ .error (.capacityExceeded requested available) := by
  unfold SessionBlockTable.replaceOwnedBlock BlockTable.replace
  split
  · rename_i hreplace
    split at hreplace
    · cases hreplace
      simp
    · split at hreplace
      · cases hreplace
        simp
      · cases hreplace
  · simp

theorem copyContentsFrom_ne_capacity {shares : Shares} {source : CacheBlock} {rt : Statics}
    {access requested available : ℕ} :
    block.copyContentsFrom shares source access rt ≠
      .error (.capacityExceeded requested available) := by
  unfold CacheBlock.copyContentsFrom
  by_cases hc : block.capacityTokens ≠ source.capacityTokens ∨ block.vectorLen ≠ source.vectorLen
  · rw [if_pos hc, throw_bind]
    exact fun he => KvCacheError.noConfusion (Except.error.inj he)
  · rw [if_neg hc]
    exact nofun

/-- A block can be allocated unless none is free. -/
theorem allocate_some (env : Ambient) (h : Shape p) (hf : p.freeList ≠ []) :
    ∃ b block p', p.allocate env = (some b, p') ∧ b ≠ 0 ∧ p'.blocks[b]? = some block ∧
      block.refCount = 1 ∧ p'.sessions = p.sessions := by
  obtain ⟨b, hlast⟩ : ∃ b, p.freeList.getLast? = some b :=
    Option.ne_none_iff_exists'.1 (by simpa using hf)
  have hmem := h.free b (List.mem_of_getLast? hlast)
  obtain ⟨block, hb⟩ := Option.isSome_iff_exists.1 (Std.ExtTreeMap.mem_iff_isSome_getElem?.1 hmem)
  refine ⟨b, (block.resetForAllocation env.shares (satAdd p.accessClock 1) p.rt).1,
    (p.allocate env).2, ?_, h.ids b hmem, ?_, rfl, ?_⟩
  · simp only [BlockPoolInner.allocate, hlast, BlockPoolInner.nextAccess, hb]
  · simp only [BlockPoolInner.allocate, hlast, BlockPoolInner.nextAccess, hb]
    rw [getElem?_insert_ite, if_pos rfl]
  · simp only [BlockPoolInner.allocate, hlast, BlockPoolInner.nextAccess, hb]

theorem allocate_none (env : Ambient) (hf : p.freeList = []) : p.allocate env = (none, p) := by
  simp [BlockPoolInner.allocate, hf]

/-- The sessions other than `s` are those of `q`. -/
def OthersOf (q : BlockPoolInner) (s : SessionId) (p : BlockPoolInner) : Prop :=
  ∀ s', s' ≠ s → p.sessions[s']? = q.sessions[s']?

theorem OthersOf.of_eq (h : p.sessions = q.sessions) : OthersOf q s p := fun _ _ => by rw [h]

theorem OthersOf.of_insert (h : p.sessions = q.sessions.insert s t) : OthersOf q s p := by
  intro s' hs'
  rw [h, getElem?_insert_ite, if_neg hs'.symm]

theorem OthersOf.release (h : OthersOf q s p) (env : Ambient) (b : BlockId) :
    OthersOf q s (p.release env b).2 := by
  intro s' hs'
  rw [release_sessions]
  exact h s' hs'

/-- `allocate_for_session` changes no other session after the eviction, and fails only if no
block is free then. -/
theorem allocateForSession_others (env : Ambient) (hs : p.sessions.contains s = true)
    (hevict : (if p.freeList.isEmpty then p.evictSessionsUntilFree env s else p) = q)
    (h : Shape q) (ht : q.sessions[s]? = some t) :
    OthersOf q s (p.allocateForSession env s).2 ∧
      ((p.allocateForSession env s).1 = none → q.freeList = []) := by
  rw [BlockPoolInner.allocateForSession, if_neg (by simp [hs]), hevict]
  dsimp only
  by_cases hf : q.freeList = []
  · rw [allocate_none env hf]
    exact ⟨.of_eq rfl, fun _ => hf⟩
  · obtain ⟨b, block, p', halloc, hne, hb, hcount, hsessions⟩ := allocate_some env h hf
    rw [halloc]
    dsimp only
    rw [appendInner_ok hb (hcount ▸ Nat.one_pos) hne (hsessions ▸ ht) false]
    refine ⟨OthersOf.of_insert (t := (t.listing b).touch (satAdd p'.accessClock 1)) ?_, nofun⟩
    change p'.sessions.insert s _ = q.sessions.insert s _
    rw [hsessions]

theorem touchOwnBlock_others (p : BlockPoolInner) (s : SessionId) (b : BlockId) :
    OthersOf p s (p.touchOwnBlock s b).2 ∧
      (p.touchOwnBlock s b).1 ≠ .error (.capacityExceeded 1 0) := by
  have htouch : OthersOf p s (p.touchSessionBlock s b).2 ∧
      (p.touchSessionBlock s b).1 ≠ .error (.capacityExceeded 1 0) := by
    unfold touchSessionBlock
    dsimp only [BlockPoolInner.nextAccess]
    split
    · exact ⟨.of_eq rfl, by simp⟩
    · split
      · exact ⟨.of_insert rfl, by simp⟩
      · split
        · exact ⟨.of_insert rfl, by simp⟩
        · exact ⟨.of_insert rfl, by simp⟩
  unfold BlockPoolInner.touchOwnBlock
  split
  · rename_i hr
    rw [hr] at htouch
    exact ⟨htouch.1, fun he => htouch.2 (congrArg _ (Except.error.inj he))⟩
  · rename_i hr
    rw [hr] at htouch
    exact ⟨htouch.1, nofun⟩

/-- The copy changes no other session, and fails for lack of space only if no block is free. -/
theorem copySessionBlock_others (env : Ambient) (h : Shape p) (s : SessionId) (index : ℕ)
    (b : BlockId) : OthersOf p s (p.copySessionBlock env s index b).2 ∧
      ((p.copySessionBlock env s index b).1 = .error (.capacityExceeded 1 0) → p.freeList = []) := by
  by_cases hf : p.freeList = []
  · rw [BlockPoolInner.copySessionBlock, allocate_none env hf]
    exact ⟨.of_eq rfl, fun _ => hf⟩
  · obtain ⟨nb, block, p', halloc, -, -, -, hsessions⟩ := allocate_some env h hf
    have hsame : ∀ p'' : BlockPoolInner, p''.sessions = p'.sessions → OthersOf p s p'' :=
      fun p'' heq => .of_eq (heq.trans hsessions)
    have hinsert : ∀ p'' : BlockPoolInner, (∃ t, p''.sessions = p'.sessions.insert s t) →
        OthersOf p s p'' := by
      rintro p'' ⟨t, heq⟩
      exact OthersOf.of_insert (t := t) (heq.trans (congrArg (·.insert s t) hsessions))
    rw [BlockPoolInner.copySessionBlock, halloc]
    dsimp only [BlockPoolInner.nextAccess]
    split
    · split
      · rename_i hcopy
        refine ⟨OthersOf.release (hsame _ ?_) env nb, fun he => ?_⟩
        · rfl
        · rw [Except.error.inj he] at hcopy
          exact absurd hcopy copyContentsFrom_ne_capacity
      · split
        · exact ⟨hsame _ rfl, by simp⟩
        · split
          · rename_i hreplace
            refine ⟨OthersOf.release (hinsert _ ?_) env nb, fun he => ?_⟩
            · exact ⟨_, rfl⟩
            · rw [Except.error.inj he] at hreplace
              exact absurd hreplace replaceOwnedBlock_ne_capacity
          · split
            · refine ⟨OthersOf.release (hinsert _ ?_) env b, nofun⟩
              exact ⟨_, rfl⟩
            · exact ⟨hinsert _ ⟨_, rfl⟩, nofun⟩
    · refine ⟨OthersOf.release (hsame _ ?_) env nb, by simp⟩
      rfl

/-- `copy_on_write_session_block` for a block that is shared changes no other session after the
eviction, and fails for lack of space only if no block is free then. -/
theorem copyOnWrite_others (env : Ambient) {index : ℕ}
    (hread : (p.sessions[s]? >>= (·.readBlock index)) = some b) (hb : p.blocks[b]? = some block)
    (hshared : 1 < block.refCount)
    (hevict : (if p.freeList.isEmpty then p.evictSessionsUntilFree env s else p) = q)
    (h : Shape q) :
    OthersOf q s (p.copyOnWriteSessionBlock env s index).2 ∧
      ((p.copyOnWriteSessionBlock env s index).1 = .error (.capacityExceeded 1 0) →
        q.freeList = []) := by
  have hlive : p.blocks[b]?.filter (·.refCount > 0) = some block := by
    rw [hb, Option.filter, if_pos (by simpa using Nat.zero_lt_of_lt hshared)]
  rw [BlockPoolInner.copyOnWriteSessionBlock, hread]
  dsimp only
  rw [hlive]
  dsimp only
  rw [if_neg (by omega), hevict]
  split
  · exact ⟨.of_eq rfl, by simp⟩
  · split
    · exact ⟨(touchOwnBlock_others q s b).1, fun he => absurd he (touchOwnBlock_others q s b).2⟩
    · exact copySessionBlock_others env h s index b

/-! ### The result -/

/-- **Evictions are the fewest in the order of last use.** In every state of every run, and
for a session `s`, there is one order of the other sessions that list a block, by last use,
and the sessions that go are its shortest beginning after which a block is free, or all of it
if there is none; with more rounds the loop does nothing more. So nothing is evicted while a
block is free, and the table of `s` is not changed. Every call that needs a block
(`allocate_for_session` of a session, a copy of a block with several references) leaves the
other sessions as the eviction does, and fails for lack of space only if releasing all of
them frees no block. -/
theorem sessionEviction_minimal (h : Runs p) (env : Ambient) (s : SessionId) :
    ∃ order k q, EvictionOrder p s order ∧ Evicted env p order k q ∧
      (p.freeList ≠ [] → k = 0) ∧
      (p.freeList = [] → ∀ n, order.length ≤ n → evictLoop env s n p = q) ∧
      q.sessions[s]? = p.sessions[s]? ∧
      (∀ s', q.sessions[s']? =
        if s' ∈ (order.take k).map (·.sessionId) then none else p.sessions[s']?) ∧
      (p.sessions.contains s = true →
        OthersOf q s (p.allocateForSession env s).2 ∧
        ((p.allocateForSession env s).1 = none →
          (releaseFirst env order order.length p).freeList = [])) ∧
      ∀ (index : ℕ) (b : BlockId) (block : CacheBlock),
        (p.sessions[s]? >>= (·.readBlock index)) = some b → p.blocks[b]? = some block →
        1 < block.refCount →
        OthersOf q s (p.copyOnWriteSessionBlock env s index).2 ∧
        ((p.copyOnWriteSessionBlock env s index).1 = .error (.capacityExceeded 1 0) →
          (releaseFirst env order order.length p).freeList = []) := by
  have hshape := runs_shape h
  obtain ⟨order, ho⟩ := exists_evictionOrder hshape s
  obtain ⟨k, hevicted⟩ := evictIfEmpty_evicted env hshape ho
  obtain ⟨q, hevict⟩ : ∃ q, (if p.freeList.isEmpty then p.evictSessionsUntilFree env s else p) = q :=
    ⟨_, rfl⟩
  rw [hevict] at hevicted
  have hq : Shape q := hevict ▸ hshape.updates (evictIfEmpty_updates env p s)
  have hsessions : ∀ s', q.sessions[s']? =
      if s' ∈ (order.take k).map (·.sessionId) then none else p.sessions[s']? :=
    fun s' => hevicted.eq ▸ releaseEach_sessions env (order.take k) p s'
  have hrequester : q.sessions[s]? = p.sessions[s]? := by
    rw [hsessions, if_neg]
    intro hin
    obtain ⟨t, ht, hid⟩ := List.mem_map.1 hin
    exact ((ho.mem t).1 (List.mem_of_mem_take ht)).2.1 hid
  have hlack : q.freeList = [] → (releaseFirst env order order.length p).freeList = [] := by
    intro hf
    have hk := hevicted.enough.resolve_left (not_not_intro hf)
    rw [← hk, ← hevicted.eq, hf]
  refine ⟨order, k, q, ho, hevicted, fun hf => ?_, fun hf n hn => ?_, hrequester, hsessions,
    fun hs => ?_, fun index b block hread hb hshared => ?_⟩
  · by_contra hk
    exact hf (hevicted.fewest 0 (Nat.pos_of_ne_zero hk))
  · obtain ⟨j, hj⟩ := evictLoop_evicted env s n hshape ho hn
    have hjk : j = k := hj.unique hevicted
    rw [hj.eq, hevicted.eq, hjk]
  · obtain ⟨t, ht⟩ := Option.isSome_iff_exists.1
      ((Std.ExtTreeMap.contains_eq_isSome_getElem? (t := p.sessions)).symm.trans hs)
    obtain ⟨hothers, hnone⟩ := allocateForSession_others env hs hevict hq (hrequester.trans ht)
    exact ⟨hothers, fun he => hlack (hnone he)⟩
  · obtain ⟨hothers, hnone⟩ := copyOnWrite_others env hread hb hshared hevict hq
    exact ⟨hothers, fun he => hlack (hnone he)⟩

/-- Two sessions hold the two blocks of a pool, and a third one needs one: the session that was
used least recently goes. -/
theorem sessionEviction_minimal_third_session :
    ∃ p₀, BlockPoolInner.new 2 4 1 Statics.initial = .ok p₀ ∧
      ∃ p, p = [Op.createSession, .createSession, .allocateForSession 1, .allocateForSession 2,
          .readSessionBlock 1 0, .createSession].foldl (Op.run .plain) p₀ ∧
        p.freeList = [] ∧ (p.allocateForSession .plain 3).1 = some 1 ∧
        (p.allocateForSession .plain 3).2.sessions.contains 1 = true ∧
        (p.allocateForSession .plain 3).2.sessions.contains 2 = false ∧
        ∃ order k q, EvictionOrder p 3 order ∧ Evicted .plain p order k q ∧
          OthersOf q 3 (p.allocateForSession .plain 3).2 := by
  refine ⟨_, rfl, _, rfl, by decide +kernel, by decide +kernel, by decide +kernel,
    by decide +kernel, ?_⟩
  have h₀ : Runs _ := .new (show BlockPoolInner.new 2 4 1 Statics.initial = .ok _ from rfl)
  have hrun := (((((h₀.step .plain .createSession).step .plain .createSession).step .plain
    (.allocateForSession 1)).step .plain (.allocateForSession 2)).step .plain
    (.readSessionBlock 1 0)).step .plain .createSession
  obtain ⟨order, k, q, ho, hevicted, -, -, -, -, halloc, -⟩ := sessionEviction_minimal hrun .plain 3
  exact ⟨order, k, q, ho, hevicted, (halloc (by decide +kernel)).1⟩

end BlockPoolInner

end KirAi.KvCache
