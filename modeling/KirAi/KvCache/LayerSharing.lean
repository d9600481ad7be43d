/-
# Layers that share storages

Clones, prefix states and restored caches hold handles of the storages of other
caches, and a write goes through a handle. `Arc.Coherent` says that all handles
of an allocation see one content: a write in place that another handle could see
would break it. Every step of a process keeps it, since a storage with more than
one handle is copied before it is written, so a cache never sees what was
written through another one, nor does a prefix state (`Sound.isolated`).

Key definitions: `Arc.Coherent`, `World.arcs`, `World.Next`, `World.Sound`.
Key theorems: `Arc.Coherent.makeMut`, `World.Next.sound`, `World.Sound.isolated`.
-/
import KirAi.KvCache.LayerIdentity
import KirAi.KvCache.LayerModel
import KirAi.KvCache.LayerBuild
import Mathlib.Data.List.Perm.Basic

namespace KirAi.KvCache

open Lib

/-! ### One content for an allocation -/

namespace Arc

variable {α : Type} {next next' : ArcPtr} {l l' : List (Arc α)} {a : Arc α} {shares : Shares}
  {rt : Statics}

/-- The handles of a process: their allocations are below the counter, and what
an allocation holds does not depend on the handle. -/
structure Coherent (next : ArcPtr) (l : List (Arc α)) : Prop where
  lt : ∀ a ∈ l, a.ptr < next
  eq : ∀ a ∈ l, ∀ b ∈ l, a.ptr = b.ptr → a = b

theorem Coherent.of_subset (h : Coherent next l) (hs : l' ⊆ l) (hn : next ≤ next') :
    Coherent next' l' :=
  ⟨fun a ha => lt_of_lt_of_le (h.lt a (hs ha)) hn, fun a ha b hb => h.eq a (hs ha) b (hs hb)⟩

/-- A fresh allocation is not one that somebody has a handle of. -/
theorem Coherent.new (h : Coherent rt.nextArc l) (val : α) :
    Coherent (Arc.new val rt).2.nextArc ((Arc.new val rt).1 :: l) := by
  have hne : ∀ b ∈ l, b.ptr ≠ rt.nextArc := fun b hb => Nat.ne_of_lt (h.lt b hb)
  refine ⟨fun b hb => ?_, fun b hb d hd heq => ?_⟩
  · change b.ptr < rt.nextArc + 1
    rcases List.mem_cons.mp hb with rfl | hb
    · exact Nat.lt_succ_self _
    · exact Nat.lt_succ_of_lt (h.lt b hb)
  · rcases List.mem_cons.mp hb with rfl | hb <;> rcases List.mem_cons.mp hd with rfl | hd
    · rfl
    · exact absurd heq.symm (hne d hd)
    · exact absurd heq (hne b hb)
    · exact h.eq b hb d hd heq

/-- **Copy on write.** A write goes to an allocation that nobody else sees. -/
theorem Coherent.makeMut (h : Coherent rt.nextArc (a :: l)) (f : α → α)
    (hs : l.countP (fun b => b.ptr == a.ptr) ≤ shares a.ptr) :
    Coherent (a.makeMut shares f rt).2.nextArc ((a.makeMut shares f rt).1 :: l) := by
  have hl := h.of_subset (List.subset_cons_self a l) le_rfl
  unfold Arc.makeMut
  split
  · exact hl.new _
  · -- the only handle
    rename_i hcount
    have hzero : l.countP (fun b => b.ptr == a.ptr) = 0 := by
      unfold strongCount at hcount
      omega
    have hne : ∀ b ∈ l, b.ptr ≠ a.ptr := fun b hb heq =>
      List.countP_eq_zero.mp hzero b hb (by simpa using heq)
    refine ⟨fun b hb => ?_, fun b hb d hd heq => ?_⟩
    · rcases List.mem_cons.mp hb with rfl | hb
      · exact h.lt a (List.mem_cons_self ..)
      · exact hl.lt b hb
    · rcases List.mem_cons.mp hb with rfl | hb <;> rcases List.mem_cons.mp hd with rfl | hd
      · rfl
      · exact absurd heq.symm (hne d hd)
      · exact absurd heq (hne b hb)
      · exact hl.eq b hb d hd heq

end Arc

/-! ### The handles of a cache -/

def LayerKvCache.arcs (c : LayerKvCache) : List (Arc CacheBlockStorage) := c.blocks.map (·.storage)

def LayerKvCachePrefixState.arcs (st : LayerKvCachePrefixState) : List (Arc CacheBlockStorage) :=
  st.blocks.map (·.retained.storage)

namespace LayerKvCache

open Arc LayerM

variable {K : QuantKernels} {shares : Shares} {s s' : LayerState} {c : LayerKvCache}
  {l : List (Arc CacheBlockStorage)} {rt rt' : Statics} {b : CacheBlock}

/-- The others' handles, as `shares` counts them, are no less than there are. -/
def Counts (shares : Shares) (held l : List (Arc CacheBlockStorage)) : Prop :=
  ∀ a ∈ held, (held ++ l).countP (fun b => b.ptr == a.ptr) ≤ shares a.ptr + 1

theorem ensureExclusiveIdentity_storage {b' : CacheBlock}
    (h : b.ensureExclusiveIdentity shares rt = .ok (b', rt')) :
    b'.storage = b.storage ∧ rt'.nextArc = rt.nextArc := by
  unfold CacheBlock.ensureExclusiveIdentity at h
  split at h
  · simp only [bind_eq_ok, pure_eq_ok, Prod.mk.injEq] at h
    obtain ⟨⟨id, rt₁⟩, hid, rfl, rfl⟩ := h
    exact ⟨rfl, (BlockId.next_ok hid).2.2.1⟩
  · cases h
    exact ⟨rfl, rfl⟩

/-- A write of one block. -/
theorem Wrote.coherent (h : Wrote shares s s') (hc : Coherent s.rt.nextArc (s.cache.arcs ++ l))
    (hn : Counts shares s.cache.arcs l) : Coherent s'.rt.nextArc (s'.cache.arcs ++ l) := by
  obtain ⟨i, b, b₁, rt₁, b', f, hb, he, -, hm, hset⟩ := h
  obtain ⟨hst, hnext⟩ := ensureExclusiveIdentity_storage he
  have hi : i < s.cache.arcs.length := by
    rw [arcs, List.length_map]
    exact (List.getElem?_eq_some_iff.mp hb).1
  have hget : s.cache.arcs[i] = b.storage := by
    obtain ⟨h', rfl⟩ := List.getElem?_eq_some_iff.mp hb
    exact List.getElem_map ..
  -- the handle that is written, and the others
  have hperm : (s.cache.arcs ++ l).Perm (b.storage :: (s.cache.arcs.eraseIdx i ++ l)) := by
    rw [← hget, ← List.cons_append]
    exact (List.getElem_cons_eraseIdx_perm hi).symm.append_right l
  have hperm' : (s'.cache.arcs ++ l).Perm (b'.storage :: (s.cache.arcs.eraseIdx i ++ l)) := by
    rw [← List.cons_append, arcs, hset, List.map_set]
    exact (List.set_perm_cons_eraseIdx hi b'.storage).append_right l
  have hcount := hn b.storage (List.mem_map.mpr ⟨b, List.mem_of_getElem? hb, rfl⟩)
  rw [hperm.countP_eq, List.countP_cons_of_pos (by simp)] at hcount
  rw [hst] at hm
  have hco : Coherent rt₁.nextArc (b.storage :: (s.cache.arcs.eraseIdx i ++ l)) :=
    hc.of_subset hperm.symm.subset (le_of_eq hnext.symm)
  have hw := hco.makeMut f (show _ ≤ shares b.storage.ptr by omega)
  rw [hm] at hw
  exact hw.of_subset hperm'.subset le_rfl

/-- A cleared block: its storage is zeroed when nobody else has it. -/
theorem clearBlock_coherent (hc : Coherent rt.nextArc (b.storage :: l))
    (hn : l.countP (fun a => a.ptr == b.storage.ptr) ≤ shares b.storage.ptr) :
    Coherent (b.clear shares rt).2.nextArc ((b.clear shares rt).1.storage :: l) := by
  unfold CacheBlock.clear
  split
  · exact (hc.of_subset (List.subset_cons_self _ l) le_rfl).new _
  · exact hc.makeMut _ hn

variable (shares rt b) in
theorem clearBlock_ptr : (b.clear shares rt).1.storage.ptr = b.storage.ptr ∨
    (b.clear shares rt).1.storage.ptr = rt.nextArc := by
  unfold CacheBlock.clear
  split
  · exact .inr rfl
  · rename_i hcount
    rw [Arc.makeMut, if_neg hcount]
    exact .inl rfl

theorem clearBlocks_coherent : ∀ (bs : List CacheBlock) (rt : Statics)
    (l : List (Arc CacheBlockStorage)), Coherent rt.nextArc (bs.map (·.storage) ++ l) →
    Counts shares (bs.map (·.storage)) l →
    Coherent (clearBlocks shares bs rt).2.nextArc ((clearBlocks shares bs rt).1.map (·.storage) ++ l)
  | [], _, _, hc, _ => hc
  | b :: bs, rt, l, hc, hn => by
    have hhead := hn b.storage (List.mem_cons_self ..)
    rw [List.map_cons, List.cons_append] at hhead hc
    rw [List.countP_cons_of_pos (by simp)] at hhead
    have h1 := clearBlock_coherent hc (show _ ≤ shares b.storage.ptr by omega)
    have hperm : ∀ a : Arc CacheBlockStorage, (a :: (bs.map (·.storage) ++ l)).Perm
        (bs.map (·.storage) ++ a :: l) := fun a => List.perm_middle.symm
    have hrest := clearBlocks_coherent bs (b.clear shares rt).2 ((b.clear shares rt).1.storage :: l)
      (h1.of_subset (hperm _).symm.subset le_rfl) fun a ha => ?_
    · exact hrest.of_subset List.perm_middle.symm.subset le_rfl
    · -- the cleared block adds no handle of an old allocation
      have hold := hn a (List.mem_cons_of_mem _ ha)
      have hlt := hc.lt a (List.mem_cons_of_mem _ (List.mem_append_left _ ha))
      rw [List.map_cons, List.cons_append, List.countP_cons] at hold
      rw [← (hperm _).countP_eq, List.countP_cons]
      rcases clearBlock_ptr shares rt b with hp | hp
      · rw [hp]
        exact hold
      · have hne : ((b.clear shares rt).1.storage.ptr == a.ptr) = false := by
          rw [hp, beq_eq_false_iff_ne]
          exact Nat.ne_of_gt hlt
        rw [hne]
        simp only [Bool.false_eq_true, if_false]
        omega

/-- The blocks of a new cache have allocations that nobody else sees. -/
theorem newBlocks_coherent {v : ℕ} : ∀ (fuel remaining : ℕ) (rt : Statics) (bs : List CacheBlock)
    (rt' : Statics) (l : List (Arc CacheBlockStorage)),
    newBlocks v fuel remaining rt = .ok (bs, rt') → Coherent rt.nextArc l →
    Coherent rt'.nextArc (bs.map (·.storage) ++ l) ∧ rt.nextArc ≤ rt'.nextArc ∧
      Counts (fun _ => 0) (bs.map (·.storage)) l
  | 0, _, rt, bs, rt', l, h, hc => by
    cases h
    exact ⟨hc, le_rfl, fun a ha => by cases ha⟩
  | fuel + 1, remaining, rt, bs, rt', l, h, hc => by
    unfold newBlocks at h
    split at h
    · cases h
      exact ⟨hc, le_rfl, fun a ha => by cases ha⟩
    · simp only [bind_eq_ok, pure_eq_ok, Prod.mk.injEq] at h
      obtain ⟨⟨b₀, rt₁⟩, hnew, ⟨rest, rt₂⟩, hrest, rfl, rfl⟩ := h
      obtain ⟨-, -, -, -, -, -, -, -, -, -, hst, -, -, hnext⟩ := CacheBlock.new_ok hnew
      have h1 : Coherent rt₁.nextArc (b₀.storage :: l) := by
        rw [hnext, hst]
        exact hc.new _
      obtain ⟨h2, h3, h4⟩ := newBlocks_coherent fuel _ rt₁ rest rt₂ (b₀.storage :: l) hrest h1
      have hle : rt.nextArc ≤ rt₁.nextArc := by
        rw [hnext]
        exact Nat.le_succ _
      refine ⟨h2.of_subset List.perm_middle.symm.subset le_rfl, le_trans hle h3, fun a ha => ?_⟩
      have hperm : (b₀.storage :: (rest.map (·.storage) ++ l)).Perm
          (rest.map (·.storage) ++ b₀.storage :: l) := List.perm_middle.symm
      rcases List.mem_cons.mp ha with rfl | ha
      · -- the allocation of the first block is in no other block and not in `l`
        rw [List.map_cons, List.cons_append, List.countP_cons_of_pos (by simp), List.countP_append,
          List.countP_eq_zero.mpr fun x hx heq => ?_, List.countP_eq_zero.mpr fun x hx heq => ?_]
        · have heq' : x.ptr = b₀.storage.ptr := beq_iff_eq.mp heq
          rw [hst] at heq'
          exact absurd (hc.lt x hx) (by rw [heq']; exact lt_irrefl _)
        · have hx' : _ ≤ 0 + 1 := h4 x hx
          have heq' : x.ptr = b₀.storage.ptr := beq_iff_eq.mp heq
          have hpos : 0 < (rest.map (·.storage)).countP (fun b => b.ptr == x.ptr) :=
            List.countP_pos_iff.mpr ⟨x, hx, by simp⟩
          rw [List.countP_append, List.countP_cons_of_pos (by simp [heq'])] at hx'
          omega
      · have := h4 a ha
        rwa [← hperm.countP_eq] at this

theorem newWithConfig_coherent {maxTokens keyValueHeads headDim : ℕ} {config : KvCacheConfig}
    (h : newWithConfig maxTokens keyValueHeads headDim config rt = .ok (c, rt'))
    (hc : Coherent rt.nextArc l) : Coherent rt'.nextArc (c.arcs ++ l) ∧ rt.nextArc ≤ rt'.nextArc ∧
      Counts (fun _ => 0) c.arcs l := by
  unfold newWithConfig at h
  cases hv : checkedMul keyValueHeads headDim with
  | none => simp [hv] at h
  | some v =>
    cases hlen : checkedMul maxTokens v with
    | none => simp [hv, hlen] at h
    | some len =>
      simp only [hv, hlen, throw_bind, guard_eq_ok, bind_eq_ok, pure_eq_ok, Prod.mk.injEq,
        nextCacheId] at h
      obtain ⟨-, -, ⟨bs, rt₁⟩, hbs, t, -, i8, -, vq, -, -, rfl, rfl⟩ := h
      have hb := newBlocks_coherent _ _ _ _ _ l hbs hc
      exact hb

/-- A restored cache has handles of its own, and those of the prefix state. -/
theorem restoreBlocks_arcs : ∀ (pbs : List LayerKvCachePrefixBlock) (c c' : LayerKvCache),
    restoreBlocks pbs c = .ok c' → c'.arcs ⊆ c.arcs ++ pbs.map (·.retained.storage)
  | [], c, c', h => by
    cases h
    exact List.subset_append_left _ _
  | pb :: pbs, c, c', h => by
    unfold restoreBlocks at h
    simp only [bind_eq_ok] at h
    obtain ⟨b, hb, h⟩ := h
    have hst : b.storage = pb.retained.storage := by
      unfold CacheBlock.fromRetained at hb
      simp only [throw_bind, guard_eq_ok] at hb
      obtain ⟨-, hb⟩ := hb
      split at hb
      · simp only [guard_eq_ok, pure_eq_ok] at hb
        obtain ⟨-, rfl⟩ := hb
        rfl
      · cases hb
    cases hold : c.blocks[pb.blockIndex]? with
    | none => simp [hold] at h
    | some old =>
      simp only [hold, throw_bind, guard_eq_ok, bind_eq_ok] at h
      obtain ⟨-, ⟨prev, t⟩, -, h⟩ := h
      have hsub := restoreBlocks_arcs pbs _ c' h
      intro a ha
      rcases List.mem_append.mp (hsub ha) with hm | hm
      · obtain ⟨b', hb', rfl⟩ := List.mem_map.mp hm
        rcases List.mem_or_eq_of_mem_set hb' with hb' | rfl
        · exact List.mem_append_left _ (List.mem_map.mpr ⟨b', hb', rfl⟩)
        · rw [hst]
          exact List.mem_append_right _ (List.mem_cons_self ..)
      · exact List.mem_append_right _ (List.mem_cons_of_mem _ hm)

theorem fromPrefixCacheState_coherent {src : LayerKvCache} {W : List Row} (hsrc : Window K src W)
    (h : fromPrefixCacheState K src.prefixCacheState rt = .ok s) (hc : Coherent rt.nextArc l)
    (hsub : src.prefixCacheState.arcs ⊆ l) : Coherent s.rt.nextArc (s.cache.arcs ++ l) := by
  unfold fromPrefixCacheState at h
  simp only [throw_bind, guard_eq_ok, bind_eq_ok] at h
  obtain ⟨-, ⟨c₀, rt₀⟩, hnew, c₁, hres, hfin⟩ := h
  obtain ⟨-, hrt, hf⟩ := (new_refilled hnew hres).rebuild hsrc (finish_ok hfin)
  have harcs : s.cache.arcs = c₁.arcs := by
    rw [hf]
    rfl
  rw [hrt, harcs]
  refine (newWithConfig_coherent hnew hc).1.of_subset (fun a ha => ?_) le_rfl
  rcases List.mem_append.mp ha with ha | ha
  · rcases List.mem_append.mp (restoreBlocks_arcs _ _ _ hres ha) with ha | ha
    · exact List.mem_append_left _ ha
    · exact List.mem_append_right _ (hsub ha)
  · exact List.mem_append_right _ ha

theorem Counts.of_ptrs {held held' : List (Arc CacheBlockStorage)} (h : Counts shares held l)
    (hp : held'.map (·.ptr) = held.map (·.ptr)) : Counts shares held' l := by
  have hcount : ∀ p : ArcPtr, held'.countP (fun b => b.ptr == p) =
      held.countP (fun b => b.ptr == p) := fun p => by
    have := congrArg (List.countP (· == p)) hp
    rwa [List.countP_map, List.countP_map] at this
  intro a ha
  have hmem : a.ptr ∈ held.map (·.ptr) := hp ▸ List.mem_map.mpr ⟨a, ha, rfl⟩
  obtain ⟨a₀, ha₀, heq⟩ := List.mem_map.mp hmem
  have := h a₀ ha₀
  rw [List.countP_append, heq] at this
  rwa [List.countP_append, hcount]

/-- Where nobody else has a handle, a write stays in place. -/
theorem Wrote.ptrs (h : Wrote (fun _ => 0) s s') :
    s'.cache.arcs.map (·.ptr) = s.cache.arcs.map (·.ptr) := by
  obtain ⟨i, b, b₁, rt₁, b', f, hb, he, -, hm, hset⟩ := h
  have hptr : b'.storage.ptr = b.storage.ptr := by
    rw [Arc.makeMut, if_neg (by simp [Arc.strongCount])] at hm
    rw [← (ensureExclusiveIdentity_storage he).1, ← (Prod.mk.inj hm).1]
  have hb' : (s.cache.arcs.map (·.ptr))[i]? = some b.storage.ptr := by
    simp [arcs, hb]
  rw [arcs, hset, List.map_set, List.map_set, hptr]
  exact list_set_self hb'

theorem Wrote.nextBlockId_le (h : Wrote shares s s') : s.rt.nextBlockId ≤ s'.rt.nextBlockId := by
  obtain ⟨i, b, b₁, rt₁, b', f, -, he, -, hm, -⟩ := h
  have hnext := Arc.makeMut_nextBlockId shares b₁.storage f rt₁
  rw [hm] at hnext
  dsimp only at hnext
  rw [hnext]
  unfold CacheBlock.ensureExclusiveIdentity at he
  split at he
  · simp only [bind_eq_ok, pure_eq_ok, Prod.mk.injEq] at he
    obtain ⟨⟨id, rt₂⟩, hid, rfl, rfl⟩ := he
    have := (BlockId.next_ok hid).2.1
    dsimp only
    omega
  · cases he
    exact le_rfl

theorem appendSnapshotRows_coherent : ∀ (rs : List Row) (s : LayerState),
    appendSnapshotRows K rs s = .ok () s' → Coherent s.rt.nextArc (s.cache.arcs ++ l) →
    Counts (fun _ => 0) s.cache.arcs l →
    Coherent s'.rt.nextArc (s'.cache.arcs ++ l) ∧ s.rt.nextBlockId ≤ s'.rt.nextBlockId
  | [], s, h, hc, _ => by
    cases h
    exact ⟨hc, le_rfl⟩
  | r :: rs, s, h, hc, hn => by
    obtain ⟨m, s₁, h1, h2⟩ := bind_apply_eq_ok.mp h
    have hw := appendWithMetadata_wrote h1
    obtain ⟨h3, h4⟩ := appendSnapshotRows_coherent rs s₁ h2 (hw.coherent hc hn) (hn.of_ptrs hw.ptrs)
    exact ⟨h3, le_trans hw.nextBlockId_le h4⟩

theorem fromSnapshot_coherent {snap : LayerKvCacheSnapshot} (h : fromSnapshot K snap rt = .ok s)
    (hc : Coherent rt.nextArc l) :
    Coherent s.rt.nextArc (s.cache.arcs ++ l) ∧ rt.nextBlockId ≤ s.rt.nextBlockId := by
  unfold fromSnapshot at h
  simp only [throw_bind, guard_eq_ok, bind_eq_ok] at h
  obtain ⟨-, ⟨c₀, rt₀⟩, hnew, h⟩ := h
  have hid := (newWithConfig_ok hnew).nextBlockId
  obtain ⟨hco, -, hn⟩ := newWithConfig_coherent hnew hc
  dsimp only at h
  split at h
  · simp only [guard_eq_ok, bind_eq_ok, pure_eq_ok] at h
    obtain ⟨-, -, s₁, hfin, rfl⟩ := h
    obtain ⟨h1, h2⟩ := appendSnapshotRows_coherent _ _ (finish_ok hfin) hco hn
    refine ⟨h1, le_trans ?_ h2⟩
    rw [hid]
    exact Nat.le_add_right _ _
  · cases h

end LayerKvCache

/-! ### The handles of a process -/

namespace World

open Arc

variable {K : QuantKernels} {w w' : World} {i : ℕ} {c : LayerKvCache} {s : LayerState}

def arcs (w : World) : List (Arc CacheBlockStorage) :=
  w.caches.flatMap (fun o => o.elim [] (·.arcs)) ++ w.prefixes.flatMap (fun o => o.elim [] (·.arcs))

/-- The handles that the others have, seen from cache `i`. -/
def others (w : World) (i : ℕ) : List (Arc CacheBlockStorage) :=
  arcs { w with caches := w.caches.set i none }

theorem handles_eq (w : World) (ptr : ArcPtr) :
    w.handles ptr = w.arcs.countP (fun a => a.ptr == ptr) := by
  rw [handles, arcs, List.countP_append, List.countP_flatMap, List.countP_flatMap]
  congr 2
  · refine List.map_congr_left fun o _ => ?_
    cases o with
    | none => rfl
    | some c =>
      change _ = List.countP _ (c.blocks.map (·.storage))
      rw [List.countP_map]
      rfl
  · refine List.map_congr_left fun o _ => ?_
    cases o with
    | none => rfl
    | some st =>
      change _ = List.countP _ (st.blocks.map (·.retained.storage))
      rw [List.countP_map]
      rfl

theorem flatMap_set_perm {α β : Type} {f : β → List α} {l : List β} (h : i < l.length) (x y : β)
    (hy : f y = []) : ((l.set i x).flatMap f).Perm (f x ++ (l.set i y).flatMap f) := by
  have hx := (List.set_perm_cons_eraseIdx h x).flatMap_right f
  have hy' := (List.set_perm_cons_eraseIdx h y).flatMap_right f
  rw [List.flatMap_cons] at hx hy'
  rw [hy, List.nil_append] at hy'
  exact hx.trans (hy'.symm.append_left _)

theorem setCache_arcs (h : w.cache i = some c) (s : LayerState) :
    (w.setCache i s).arcs.Perm (s.cache.arcs ++ w.others i) := by
  rw [arcs, others, arcs, ← List.append_assoc]
  exact (flatMap_set_perm (f := fun o : Option LayerKvCache => o.elim [] (·.arcs)) (cache_lt h)
    (some s.cache) none rfl).append_right _

theorem cache_arcs (h : w.cache i = some c) : w.arcs.Perm (c.arcs ++ w.others i) := by
  have hw : w.setCache i ⟨c, w.rt⟩ = w := setCache_same h rfl
  have := setCache_arcs h ⟨c, w.rt⟩
  rwa [hw] at this

theorem counts (h : w.cache i = some c) : LayerKvCache.Counts w.shares c.arcs (w.others i) := by
  intro a _
  rw [← (cache_arcs h).countP_eq, ← handles_eq, shares]
  omega

theorem addCache_arcs (w : World) (s : LayerState) :
    (w.addCache s).arcs.Perm (s.cache.arcs ++ w.arcs) := by
  have hone : [some s.cache].flatMap (fun o => o.elim [] (·.arcs)) = s.cache.arcs :=
    List.flatMap_singleton ..
  rw [arcs, arcs, ← List.append_assoc]
  change ((w.caches ++ [some s.cache]).flatMap _ ++ _).Perm _
  rw [List.flatMap_append, hone]
  exact List.perm_append_comm.append_right _

/-! ### Steps -/

/-- What a process does next: a step, a read that leaves its view behind, or a
cache made from the snapshot of another one. -/
inductive Next (K : QuantKernels) (w : World) : World → Prop where
  | step (op : Op) : Next K w (w.step K op)
  | read {i : ℕ} {c : LayerKvCache} : w.cache i = some c →
      Next K w (w.setCache i ⟨c.readContiguous, w.rt⟩)
  | fromSnapshot {i : ℕ} {c : LayerKvCache} {s : LayerState} : w.cache i = some c →
      LayerKvCache.fromSnapshot K c.snapshot w.rt = .ok s → Next K w (w.addCache s)

/-- The worlds of a process that started without caches. -/
def Reachable (K : QuantKernels) (w : World) : Prop :=
  ∃ rt, Relation.ReflTransGen (Next K) ⟨rt, [], []⟩ w

/-- What every world keeps: its caches can be reached, its prefix states were
taken from such caches, and an allocation has one content. -/
structure Sound (K : QuantKernels) (w : World) : Prop where
  live : ∀ i c, w.cache i = some c → ∃ rows, LayerKvCache.Live K ⟨c, w.rt⟩ rows
  saved : ∀ i st, w.prefixState i = some st → ∃ src rows, LayerKvCache.Live K ⟨src, w.rt⟩ rows ∧
    st = src.prefixCacheState
  coherent : Coherent w.rt.nextArc w.arcs

section Sound

variable {rows : List Row}

theorem Sound.setCache (h : Sound K w) (hc : w.cache i = some c)
    (hle : w.rt.nextBlockId ≤ s.rt.nextBlockId) (hs : LayerKvCache.Live K s rows)
    (hco : Coherent s.rt.nextArc (s.cache.arcs ++ w.others i)) : Sound K (w.setCache i s) := by
  refine ⟨fun k d hd => ?_, fun k st hst => ?_, ?_⟩
  · rw [setCache_cache hc] at hd
    split at hd
    · cases hd
      exact ⟨rows, hs⟩
    · obtain ⟨rows', hl⟩ := h.live k d hd
      exact ⟨rows', .elsewhere hle hl⟩
  · obtain ⟨src, rows', hl, heq⟩ := h.saved k st hst
    exact ⟨src, rows', .elsewhere hle hl, heq⟩
  · exact hco.of_subset (setCache_arcs hc s).subset le_rfl

theorem Sound.addCache (h : Sound K w) (hle : w.rt.nextBlockId ≤ s.rt.nextBlockId)
    (hs : LayerKvCache.Live K s rows) (hco : Coherent s.rt.nextArc (s.cache.arcs ++ w.arcs)) :
    Sound K (w.addCache s) := by
  refine ⟨fun k d hd => ?_, fun k st hst => ?_, ?_⟩
  · rw [addCache_cache] at hd
    split at hd
    · cases hd
      exact ⟨rows, hs⟩
    · obtain ⟨rows', hl⟩ := h.live k d hd
      exact ⟨rows', .elsewhere hle hl⟩
  · obtain ⟨src, rows', hl, heq⟩ := h.saved k st hst
    exact ⟨src, rows', .elsewhere hle hl, heq⟩
  · exact hco.of_subset (addCache_arcs w s).subset le_rfl

/-- A write through one cache. -/
theorem Sound.wrote (h : Sound K w) (hc : w.cache i = some c) (hs : LayerKvCache.Live K s rows)
    (hw : LayerKvCache.Wrote w.shares ⟨c, w.rt⟩ s) : Sound K (w.setCache i s) :=
  h.setCache hc hw.nextBlockId_le hs
    (hw.coherent (h.coherent.of_subset (cache_arcs hc).symm.subset le_rfl) (counts hc))

/-- Caches and prefix states that are let go of, and ids handed out. -/
theorem Sound.release (h : Sound K w) (hid : w.rt.nextBlockId ≤ w'.rt.nextBlockId)
    (harc : w.rt.nextArc ≤ w'.rt.nextArc)
    (hcache : ∀ k c, w'.cache k = some c → w.cache k = some c)
    (hpre : ∀ k st, w'.prefixState k = some st → w.prefixState k = some st)
    (hsub : w'.arcs ⊆ w.arcs) : Sound K w' := by
  refine ⟨fun k d hd => ?_, fun k st hst => ?_, h.coherent.of_subset hsub harc⟩
  · obtain ⟨rows', hl⟩ := h.live k d (hcache k d hd)
    exact ⟨rows', .elsewhere hid hl⟩
  · obtain ⟨src, rows', hl, heq⟩ := h.saved k st (hpre k st hst)
    exact ⟨src, rows', .elsewhere hid hl, heq⟩

theorem cache_arcs_subset (h : w.cache i = some c) : c.arcs ⊆ w.arcs :=
  fun _ ha => (cache_arcs h).symm.subset (List.mem_append_left _ ha)

theorem prefixCacheState_arcs (c : LayerKvCache) : c.prefixCacheState.arcs ⊆ c.arcs := by
  intro a ha
  obtain ⟨pb, hpb, rfl⟩ := List.mem_map.mp ha
  obtain ⟨-, -, -, b, hb, hret⟩ := LayerKvCache.prefixBlocksOf_mem _ _ pb hpb
  rw [hret]
  exact List.mem_map.mpr ⟨b, List.mem_of_getElem? hb, rfl⟩

theorem prefixState_arcs_subset {st : LayerKvCachePrefixState} (h : w.prefixState i = some st) :
    st.arcs ⊆ w.arcs := by
  have hst : w.prefixes[i]? = some (some st) := Option.join_eq_some_iff.mp h
  exact fun a ha =>
    List.mem_append_right _ (List.mem_flatMap.mpr ⟨some st, List.mem_of_getElem? hst, ha⟩)

theorem prefixState_concat {st st' : LayerKvCachePrefixState} {k : ℕ}
    (h : World.prefixState { w with prefixes := w.prefixes ++ [some st] } k = some st') :
    st' = st ∨ w.prefixState k = some st' := by
  unfold prefixState at h ⊢
  dsimp only at h
  rcases Nat.lt_trichotomy k w.prefixes.length with hlt | rfl | hgt
  · rw [List.getElem?_append_left hlt] at h
    exact .inr h
  · rw [List.getElem?_concat_length] at h
    exact .inl (Option.some.inj h).symm
  · rw [List.getElem?_eq_none (by simp; omega)] at h
    cases h

/-- A prefix state holds what its cache holds. -/
theorem prefixCacheState_subset (h : w.cache i = some c) :
    arcs { w with prefixes := w.prefixes ++ [some c.prefixCacheState] } ⊆ w.arcs := by
  intro a ha
  rcases List.mem_append.mp ha with ha | ha
  · exact List.mem_append_left _ ha
  · rw [List.flatMap_append] at ha
    rcases List.mem_append.mp ha with ha | ha
    · exact List.mem_append_right _ ha
    · rw [List.flatMap_singleton] at ha
      exact cache_arcs_subset h (prefixCacheState_arcs c ha)

theorem flatMap_set_subset {α β : Type} {f : β → List α} {l : List β} (y : β) (hy : f y = []) :
    (l.set i y).flatMap f ⊆ l.flatMap f := by
  intro a ha
  obtain ⟨b, hb, hab⟩ := List.mem_flatMap.mp ha
  rcases List.mem_or_eq_of_mem_set hb with hb | rfl
  · exact List.mem_flatMap.mpr ⟨b, hb, hab⟩
  · rw [hy] at hab
    cases hab

/-- The step lemma. -/
theorem Sound.step (h : Sound K w) (op : Op) : Sound K (w.step K op) := by
  cases op with
  | new maxTokens keyValueHeads headDim config =>
    simp only [World.step]
    cases hn : LayerKvCache.newWithConfig maxTokens keyValueHeads headDim config w.rt with
    | error e => exact h
    | ok q =>
      obtain ⟨c, rt⟩ := q
      refine h.addCache (s := ⟨c, rt⟩) ?_ (.new hn)
        (LayerKvCache.newWithConfig_coherent hn h.coherent).1
      exact le_of_le_of_eq (Nat.le_add_right _ _) (LayerKvCache.newWithConfig_ok hn).nextBlockId.symm
  | clone i =>
    simp only [World.step]
    cases hc : w.cache i with
    | none => exact h
    | some c =>
      obtain ⟨rows, hl⟩ := h.live i c hc
      refine h.addCache (s := ⟨(c.clone w.rt).1, (c.clone w.rt).2⟩) (le_refl w.rt.nextBlockId)
        (.clone hl) (h.coherent.of_subset (fun a ha => ?_) (le_refl w.rt.nextArc))
      rcases List.mem_append.mp ha with ha | ha
      · obtain ⟨b, hb, rfl⟩ := List.mem_map.mp ha
        obtain ⟨b₀, hb₀, rfl⟩ := List.mem_map.mp hb
        exact cache_arcs_subset hc (List.mem_map.mpr ⟨b₀, hb₀, rfl⟩)
      · exact ha
  | prefixCacheState i =>
    simp only [World.step]
    cases hc : w.cache i with
    | none => exact h
    | some c =>
      obtain ⟨rows, hl⟩ := h.live i c hc
      refine ⟨h.live, fun k st hst => ?_, h.coherent.of_subset (prefixCacheState_subset hc) le_rfl⟩
      rcases prefixState_concat hst with rfl | hst
      · exact ⟨c, rows, hl, rfl⟩
      · exact h.saved k st hst
  | fromPrefixCacheState i =>
    simp only [World.step]
    cases hst : w.prefixState i with
    | none => exact h
    | some st =>
      dsimp only
      cases hok : LayerKvCache.fromPrefixCacheState K st w.rt with
      | error e => exact h
      | ok s =>
        obtain ⟨src, rows, hl, rfl⟩ := h.saved i st hst
        have hW := hl.reach.window.1
        obtain ⟨-, hres, -⟩ := LayerKvCache.fromPrefixCacheState_ok hW hok
        refine h.addCache ?_ (.fromPrefixCacheState hl hok)
          (LayerKvCache.fromPrefixCacheState_coherent hW hok h.coherent (prefixState_arcs_subset hst))
        rw [hres.nextBlockId]
        exact Nat.le_add_right _ _
  | append i key value =>
    simp only [World.step]
    cases hc : w.cache i with
    | none => exact h
    | some c =>
      dsimp only
      obtain ⟨rows, hl⟩ := h.live i c hc
      cases hr : LayerKvCache.appendWithMetadata K w.shares key value ⟨c, w.rt⟩ with
      | error e s' =>
        obtain ⟨rfl, -⟩ := LayerKvCache.appendWithMetadata_error hl.reach.window.1 hr
        rw [stateOf, setCache_same hc rfl]
        exact h
      | ok m s' => exact h.wrote hc (.append hl hr) (LayerKvCache.appendWithMetadata_wrote hr)
  | appendSliding i key value =>
    simp only [World.step]
    cases hc : w.cache i with
    | none => exact h
    | some c =>
      dsimp only
      obtain ⟨rows, hl⟩ := h.live i c hc
      cases hr : LayerKvCache.appendSlidingWithMetadata K w.shares key value ⟨c, w.rt⟩ with
      | error e s' =>
        obtain ⟨rfl, -⟩ := LayerKvCache.appendSlidingWithMetadata_error hl.reach.window.1 hr
        rw [stateOf, setCache_same hc rfl]
        exact h
      | ok m s' =>
        exact h.wrote hc (.appendSliding hl hr) (LayerKvCache.appendSlidingWithMetadata_wrote hr)
  | clear i =>
    simp only [World.step]
    cases hc : w.cache i with
    | none => exact h
    | some c =>
      obtain ⟨rows, hl⟩ := h.live i c hc
      refine h.setCache hc (le_of_eq (LayerKvCache.clearBlocks_nextBlockId _ _).symm)
        (.clear w.shares hl) ?_
      exact LayerKvCache.clearBlocks_coherent c.blocks w.rt (w.others i)
        (h.coherent.of_subset (cache_arcs hc).symm.subset le_rfl) (counts hc)
  | dropCache i =>
    refine h.release le_rfl le_rfl (fun k c hc => dropCache_cache k hc) (fun _ _ hst => hst) ?_
    exact List.append_subset.mpr ⟨List.subset_append_of_subset_left _ (flatMap_set_subset none rfl),
      List.subset_append_right _ _⟩
  | dropPrefixState i =>
    refine h.release le_rfl le_rfl (fun _ _ hc => hc)
      (fun k st hst => dropPrefixState_prefixState k hst) ?_
    exact List.append_subset.mpr ⟨List.subset_append_left _ _,
      List.subset_append_of_subset_right _ (flatMap_set_subset none rfl)⟩
  | elsewhere blocks =>
    exact h.release (Nat.le_add_right w.rt.nextBlockId blocks) le_rfl (fun _ _ hc => hc)
      (fun _ _ hst => hst) fun _ ha => ha

theorem Next.sound (hn : Next K w w') (h : Sound K w) : Sound K w' := by
  cases hn with
  | step op => exact h.step op
  | read hc =>
    obtain ⟨rows, hl⟩ := h.live _ _ hc
    exact h.setCache hc le_rfl (.read hl) (h.coherent.of_subset (cache_arcs hc).symm.subset le_rfl)
  | fromSnapshot hc hok =>
    obtain ⟨rows, hl⟩ := h.live _ _ hc
    obtain ⟨hco, hle⟩ := LayerKvCache.fromSnapshot_coherent hok h.coherent
    exact h.addCache hle (.fromSnapshot hl hok) hco

/-- The run lemma. -/
theorem Sound.run (h : Sound K w) (hr : Relation.ReflTransGen (Next K) w w') : Sound K w' := by
  induction hr with
  | refl => exact h
  | tail _ hn ih => exact hn.sound ih

theorem Reachable.sound (h : Reachable K w) : Sound K w := by
  obtain ⟨rt, hr⟩ := h
  refine Sound.run ⟨fun i c hc => ?_, fun i st hst => ?_, ⟨fun a ha => ?_, fun a ha => ?_⟩⟩ hr
  · simp [cache] at hc
  · simp [prefixState] at hst
  · cases ha
  · cases ha

/-- What is written through cache `i` is seen through no other cache and no
prefix state: they are as they were, and hold no handle whose allocation was
written. -/
structure Isolated (w w' : World) (i : ℕ) : Prop where
  caches : ∀ k, k ≠ i → w'.cache k = w.cache k
  prefixes : ∀ k, w'.prefixState k = w.prefixState k
  coherent : Coherent w'.rt.nextArc w'.arcs

/-- The steps that write rows through cache `i`. -/
def Op.appendsTo (i : ℕ) : Op → Prop
  | .append k _ _ | .appendSliding k _ _ => k = i
  | _ => False

theorem Sound.isolated (h : Sound K w) {op : Op} (hop : op.appendsTo i) :
    Isolated w (w.step K op) i := by
  have hco := (h.step op).coherent
  cases op with
  | append j key value =>
    obtain rfl : j = i := hop
    refine ⟨fun k hk => ?_, fun k => ?_, hco⟩
    · simp only [World.step]
      split
      · rename_i hc
        rw [setCache_cache hc, if_neg hk]
      · rfl
    · simp only [World.step]
      split
      · rfl
      · rfl
  | appendSliding j key value =>
    obtain rfl : j = i := hop
    refine ⟨fun k hk => ?_, fun k => ?_, hco⟩
    · simp only [World.step]
      split
      · rename_i hc
        rw [setCache_cache hc, if_neg hk]
      · rfl
    · simp only [World.step]
      split
      · rfl
      · rfl
  | _ => exact hop.elim

end Sound

end World
end KirAi.KvCache
