/-
# The storage that a write goes to

A row is written into one block. The block first gets an identity of its own,
and then a storage of its own: its old one when nobody else has a handle of it,
else a copy (`Wrote`). Everything that follows in an append leaves blocks and
counters alone. A block that nobody shares takes no new id.

Key definitions: `LayerM.Keeps`, `LayerKvCache.Wrote`.
Key theorems: `appendWithMetadata_wrote`, `appendSlidingWithMetadata_wrote`.
-/
import KirAi.KvCache.LayerRefines

namespace KirAi.KvCache

open Lib

/-! ### What a part of a step keeps -/

namespace LayerM

/-- A computation that succeeds leaves `f` of the state as it was. -/
def Keeps {α β : Type} (f : LayerState → α) (m : LayerM β) : Prop :=
  ∀ s b s', m s = .ok b s' → f s' = f s

variable {α β γ : Type} {f : LayerState → α}

theorem Keeps.pure (b : β) : Keeps f (Pure.pure b : LayerM β) := by
  intro s b s' h
  cases h
  rfl

theorem Keeps.throw (e : KvCacheError) : Keeps f (throw e : LayerM β) := by
  intro s b s' h
  cases h

theorem Keeps.bind {m : LayerM β} {k : β → LayerM γ} (hm : Keeps f m) (hk : ∀ b, Keeps f (k b)) :
    Keeps f (m >>= k) := by
  intro s c s' h
  obtain ⟨b, s₁, h₁, h₂⟩ := bind_apply_eq_ok.mp h
  exact (hk b s₁ c s' h₂).trans (hm s b s₁ h₁)

theorem Keeps.ite {p : Prop} [Decidable p] {m k : LayerM β} (hm : Keeps f m) (hk : Keeps f k) :
    Keeps f (if p then m else k) := by
  split
  · exact hm
  · exact hk

theorem Keeps.getCache : Keeps f getCache := by
  intro s c s' h
  cases h
  rfl

theorem Keeps.okOr (o : Option β) : Keeps f (okOr o) := by
  cases o with
  | none => exact .throw _
  | some b => exact .pure b

theorem Keeps.ofResult (r : Except KvCacheError β) : Keeps f (ofResult r) := by
  cases r with
  | error e => exact .throw e
  | ok b => exact .pure b

theorem Keeps.modifyCache {g : LayerKvCache → LayerKvCache}
    (h : ∀ s : LayerState, f { s with cache := g s.cache } = f s) : Keeps f (modifyCache g) := by
  intro s u s' hs
  cases hs
  exact h s

theorem okOr_eq_ok {o : Option β} {b : β} {s s' : LayerState} :
    okOr o s = .ok b s' ↔ o = some b ∧ s = s' := by
  cases o <;> simp [LayerM.okOr]

theorem ofResult_eq_ok {r : Except KvCacheError β} {b : β} {s s' : LayerState} :
    ofResult r s = .ok b s' ↔ r = .ok b ∧ s = s' := by
  cases r <;> simp [LayerM.ofResult]

end LayerM

namespace LayerKvCache

open LayerM

variable {K : QuantKernels} {shares : Shares} {s s' : LayerState} {b b' : CacheBlock}
  {rt rt' : Statics}

/-- One block was written: under an identity of its own, and in a storage of its
own. -/
def Wrote (shares : Shares) (s s' : LayerState) : Prop :=
  ∃ i b b₁ rt₁ b' f, s.cache.blocks[i]? = some b ∧
    b.ensureExclusiveIdentity shares s.rt = .ok (b₁, rt₁) ∧ b'.shared = b₁.shared ∧
    b₁.storage.makeMut shares f rt₁ = (b'.storage, s'.rt) ∧
    s'.cache.blocks = s.cache.blocks.set i b'

/-- What the rest of an append leaves alone. -/
def blocksOf (s : LayerState) : List CacheBlock × Statics := (s.cache.blocks, s.rt)

theorem Wrote.of_keeps {s₁ : LayerState} (h : Wrote shares s s₁) (hk : blocksOf s' = blocksOf s₁) :
    Wrote shares s s' := by
  obtain ⟨i, b, b₁, rt₁, b', f, hb, he, hsh, hm, hset⟩ := h
  have h1 : s'.cache.blocks = s₁.cache.blocks := congrArg Prod.fst hk
  have h2 : s'.rt = s₁.rt := congrArg Prod.snd hk
  exact ⟨i, b, b₁, rt₁, b', f, hb, he, hsh, by rw [h2]; exact hm, h1.trans hset⟩

theorem listedBlock_eq_some {c : LayerKvCache} {i : ℕ} (h : c.listedBlock i = some b) :
    c.blocks[i]? = some b := by
  unfold listedBlock at h
  split at h
  · rename_i hb
    split at h
    · cases h
      exact hb
    · cases h
  · cases h

theorem writableBlock_ok {p : ℕ} {q : ℕ × ℕ} (h : writableBlock shares p s = .ok q s') :
    ∃ b b₁, s.cache.blocks[q.1]? = some b ∧
      b.ensureExclusiveIdentity shares s.rt = .ok (b₁, s'.rt) ∧
      s'.cache.blocks = s.cache.blocks.set q.1 b₁ := by
  unfold writableBlock at h
  simp only [bind_apply_eq_ok, getCache_apply, get_apply, set_apply, okOr_eq_ok, ofResult_eq_ok,
    EStateM.Result.ok.injEq] at h
  obtain ⟨c, s₁, ⟨rfl, rfl⟩, pos, s₂, ⟨-, rfl⟩, b, s₃, ⟨hb, rfl⟩, s₄, s₅, ⟨rfl, rfl⟩, ⟨b₁, rt₁⟩, s₆,
    ⟨he, rfl⟩, u, s₇, ⟨-, rfl⟩, h⟩ := h
  have hblock := listedBlock_eq_some hb
  -- the table and the runs are told of a new id
  split at h
  · simp only [bind_apply_eq_ok, modifyCache_apply, ofResult_eq_ok, pure_apply,
      EStateM.Result.ok.injEq] at h
    obtain ⟨t, s₈, ⟨-, rfl⟩, v, s₉, ⟨-, rfl⟩, rfl, rfl⟩ := h
    exact ⟨b, b₁, hblock, he, rfl⟩
  · cases h
    exact ⟨b, b₁, hblock, he, rfl⟩

theorem refreshInt8Block_keeps (i : ℕ) : Keeps blocksOf (refreshInt8Block K i) := by
  refine .bind .getCache fun c => ?_
  cases c.int8Storage with
  | none => exact .pure _
  | some store =>
    refine .bind (.okOr _) fun b => .ite (.pure _) ?_
    exact .bind (.ofResult _) fun _ => .modifyCache fun _ => rfl

theorem refreshQuantizedBlock_keeps (i : ℕ) : Keeps blocksOf (refreshQuantizedBlock K i) := by
  refine .bind .getCache fun c => ?_
  cases c.quantizedValues with
  | none => exact .pure _
  | some store =>
    refine .bind (.okOr _) fun b => .ite (.pure _) ?_
    exact .bind (.ofResult _) fun _ => .modifyCache fun _ => rfl

/-- Writing into the block that was made writable. -/
theorem Wrote.of_writable {s₁ : LayerState} {i : ℕ} {f : CacheBlockStorage → CacheBlockStorage}
    {b b₁ b₂ : CacheBlock} (hb : s.cache.blocks[i]? = some b)
    (he : b.ensureExclusiveIdentity shares s.rt = .ok (b₁, s₁.rt))
    (hset : s₁.cache.blocks = s.cache.blocks.set i b₁) (hsh : b₂.shared = b₁.shared)
    (hm : b₁.storage.makeMut shares f s₁.rt = (b₂.storage, rt')) :
    Wrote shares s ⟨{ s₁.cache with blocks := s₁.cache.blocks.set i b₂ }, rt'⟩ := by
  refine ⟨i, b, b₁, s₁.rt, b₂, f, hb, he, hsh, hm, ?_⟩
  change s₁.cache.blocks.set i b₂ = _
  rw [hset, List.set_set]

theorem writable_getElem? {s₁ : LayerState} {i : ℕ} {b₁ b₂ : CacheBlock}
    (hb : s.cache.blocks[i]? = some b) (hset : s₁.cache.blocks = s.cache.blocks.set i b₁)
    (hget : s₁.cache.blocks[i]? = some b₂) : b₂ = b₁ := by
  rw [hset, List.getElem?_set_self (List.getElem?_eq_some_iff.mp hb).1] at hget
  exact (Option.some.inj hget).symm

theorem appendBlockToken_wrote {p : ℕ} {key value : List F32} {u : Unit}
    (h : appendBlockToken K shares p key value s = .ok u s') : Wrote shares s s' := by
  unfold appendBlockToken at h
  simp only [bind_apply_eq_ok, getCache_apply, get_apply, set_apply, okOr_eq_ok, ofResult_eq_ok,
    EStateM.Result.ok.injEq] at h
  obtain ⟨q, s₁, hw, c, s₂, ⟨rfl, rfl⟩, b₂, s₃, ⟨hget, rfl⟩, s₄, s₅, ⟨rfl, rfl⟩, ⟨k, b₃, rt₃⟩, s₆,
    ⟨ha, rfl⟩, u₁, s₇, ⟨-, rfl⟩, h⟩ := h
  obtain ⟨b, b₁, hb, he, hset⟩ := writableBlock_ok hw
  obtain rfl := writable_getElem? hb hset hget
  obtain ⟨-, -, -, -, storage, hm, rfl⟩ := CacheBlock.append_ok ha
  split at h
  · cases h
  · have hk : Keeps blocksOf (do refreshInt8Block K q.1; refreshQuantizedBlock K q.1 : LayerM Unit) :=
      .bind (refreshInt8Block_keeps _) fun _ => refreshQuantizedBlock_keeps _
    have hwrote : Wrote shares s _ := Wrote.of_writable hb he hset (show ({ b₂ with
      storage, tokenCount := b₂.tokenCount + 1, contentHash := none
      revision := satAdd b₂.revision 1 } : CacheBlock).shared = b₂.shared from rfl) hm
    exact hwrote.of_keeps (hk _ _ _ h)

theorem writeBlockToken_wrote {p : ℕ} {key value : List F32} {u : Unit}
    (h : writeBlockToken K shares p key value s = .ok u s') : Wrote shares s s' := by
  unfold writeBlockToken at h
  simp only [bind_apply_eq_ok, getCache_apply, get_apply, set_apply, okOr_eq_ok, ofResult_eq_ok,
    EStateM.Result.ok.injEq] at h
  obtain ⟨q, s₁, hw, c, s₂, ⟨rfl, rfl⟩, b₂, s₃, ⟨hget, rfl⟩, s₄, s₅, ⟨rfl, rfl⟩, ⟨b₃, rt₃⟩, s₆,
    ⟨ha, rfl⟩, u₁, s₇, ⟨-, rfl⟩, h⟩ := h
  obtain ⟨b, b₁, hb, he, hset⟩ := writableBlock_ok hw
  obtain rfl := writable_getElem? hb hset hget
  simp only [CacheBlock.writeAt, bind_eq_ok, throw_bind, guard_eq_ok, pure_eq_ok,
    Prod.mk.injEq] at ha
  obtain ⟨-, -, -, rfl, rfl⟩ := ha
  obtain ⟨v, s₈, h8, h9⟩ := h
  have hk := (refreshQuantizedBlock_keeps _ _ _ _ h9).trans (refreshInt8Block_keeps _ _ _ _ h8)
  exact (Wrote.of_writable (f := (·.copyRows (q.2 * b₂.vectorLen) key value)) hb he hset
    (by rfl) (by rfl)).of_keeps hk

/-! ### The rest of an append -/

theorem copyStageToken_keeps {α : Type} {f : LayerState → α} (p : ℕ) (key value : List F32)
    (hf : ∀ (s : LayerState) ks vs,
      f { s with cache := { s.cache with keyStage := ks, valueStage := vs } } = f s) :
    Keeps f (copyStageToken p key value) := by
  refine .bind .getCache fun c => .ite (.throw _) (.ite (.throw _) ?_)
  refine .bind (.okOr _) fun start => .bind (.okOr _) fun stop => .ite (.throw _) ?_
  refine .bind (.modifyCache fun s => hf s _ s.cache.valueStage) fun _ => .ite (.throw _) ?_
  exact .modifyCache fun s => hf s s.cache.keyStage _

theorem writeStageToken_keeps (p : ℕ) (key value : List F32) :
    Keeps blocksOf (writeStageToken p key value) :=
  .bind (copyStageToken_keeps p key value fun _ _ _ => rfl) fun _ => .modifyCache fun _ => rfl

theorem appendActiveBlockRun_keeps {α : Type} {f : LayerState → α} (l p : ℕ)
    (hf : ∀ (s : LayerState) runs,
      f { s with cache := { s.cache with activeBlockRuns := runs } } = f s) :
    Keeps f (appendActiveBlockRun l p) :=
  .bind .getCache fun _ => .bind (.okOr _) fun _ => .bind (.okOr _) fun _ =>
    .modifyCache fun s => hf s _

theorem removeOldestActiveBlockToken_keeps : Keeps blocksOf removeOldestActiveBlockToken := by
  refine .bind .getCache fun c => ?_
  cases c.activeBlockRuns with
  | nil => exact .throw _
  | cons first rest =>
    refine .ite (.bind (.modifyCache fun _ => rfl) fun _ => .modifyCache fun _ => rfl) ?_
    refine .bind (.okOr _) fun _ => .bind (.modifyCache fun _ => rfl) fun _ => ?_
    exact .bind (.okOr _) fun _ => .bind (.modifyCache fun _ => rfl) fun _ => .modifyCache fun _ => rfl

theorem appendAtEndValidated_wrote {key value : List F32} {m : LayerKvCacheAppend}
    (h : appendAtEndValidated K shares key value s = .ok m s') : Wrote shares s s' := by
  unfold appendAtEndValidated at h
  simp only [bind_apply_eq_ok, getCache_apply, EStateM.Result.ok.injEq] at h
  obtain ⟨c, s₁, ⟨rfl, rfl⟩, h⟩ := h
  split at h
  · cases h
  · simp only [bind_apply_eq_ok, okOr_eq_ok, modifyCache_apply, getCache_apply, pure_apply,
      EStateM.Result.ok.injEq] at h
    obtain ⟨seen, s₂, ⟨-, rfl⟩, u, s₃, hblock, u₁, s₄, hstage, u₂, s₅, hrun, u₃, s₆, ⟨-, rfl⟩, c₁, s₇,
      ⟨rfl, rfl⟩, -, rfl⟩ := h
    have h1 : blocksOf s₄ = blocksOf s₃ := writeStageToken_keeps _ _ _ _ _ _ hstage
    have h2 : blocksOf s₅ = blocksOf s₄ :=
      appendActiveBlockRun_keeps _ _ (fun _ _ => rfl) _ _ _ hrun
    exact (appendBlockToken_wrote hblock).of_keeps (h2.trans h1)

theorem appendWithMetadata_wrote {key value : List F32} {m : LayerKvCacheAppend}
    (h : appendWithMetadata K shares key value s = .ok m s') : Wrote shares s s' := by
  unfold appendWithMetadata at h
  simp only [bind_apply_eq_ok, getCache_apply, ofResult_eq_ok, EStateM.Result.ok.injEq] at h
  obtain ⟨c, s₁, ⟨rfl, rfl⟩, u, s₂, ⟨-, rfl⟩, u₁, s₃, ⟨-, rfl⟩, h⟩ := h
  split at h
  · cases h
  · exact appendAtEndValidated_wrote h

theorem appendSlidingWithMetadata_wrote {key value : List F32} {m : LayerKvCacheAppend}
    (h : appendSlidingWithMetadata K shares key value s = .ok m s') : Wrote shares s s' := by
  unfold appendSlidingWithMetadata at h
  simp only [bind_apply_eq_ok, getCache_apply, ofResult_eq_ok, EStateM.Result.ok.injEq] at h
  obtain ⟨c, s₁, ⟨rfl, rfl⟩, u, s₂, ⟨-, rfl⟩, h⟩ := h
  split at h
  · exact appendAtEndValidated_wrote h
  · simp only [bind_apply_eq_ok, okOr_eq_ok, modifyCache_apply, getCache_apply, pure_apply,
      EStateM.Result.ok.injEq] at h
    obtain ⟨seen, s₂, ⟨-, rfl⟩, u, s₃, hblock, u₁, s₄, hstage, u₂, s₅, hdrop, u₃, s₆, hrun, u₄, s₇,
      ⟨-, rfl⟩, c₁, s₈, ⟨rfl, rfl⟩, -, rfl⟩ := h
    have h1 : blocksOf s₄ = blocksOf s₃ := writeStageToken_keeps _ _ _ _ _ _ hstage
    have h2 : blocksOf s₅ = blocksOf s₄ := removeOldestActiveBlockToken_keeps _ _ _ hdrop
    have h3 : blocksOf s₆ = blocksOf s₅ :=
      appendActiveBlockRun_keeps _ _ (fun _ _ => rfl) _ _ _ hrun
    exact (writeBlockToken_wrote hblock).of_keeps (h3.trans (h2.trans h1))

/-! ### Blocks that nobody shares -/

/-- The blocks of a cache that shares none of them. -/
def Unshared (c : LayerKvCache) : Prop := ∀ b ∈ c.blocks, b.shared = false

/-- Writing them takes no block id when nobody has a handle of them. -/
theorem Wrote.unshared (h : Wrote (fun _ => 0) s s') (hun : Unshared s.cache) :
    Unshared s'.cache ∧ s'.rt.nextBlockId = s.rt.nextBlockId := by
  obtain ⟨i, b, b₁, rt₁, b', f, hb, he, hsh, hm, hset⟩ := h
  have hno : ¬ (b.shared = true ∨ b.storage.strongCount (fun _ => 0) > 1) := by
    simp [hun b (List.mem_of_getElem? hb), Arc.strongCount]
  rw [CacheBlock.ensureExclusiveIdentity, if_neg hno] at he
  simp only [pure_eq_ok, Prod.mk.injEq] at he
  obtain ⟨rfl, rfl⟩ := he
  have hnext := Arc.makeMut_nextBlockId (fun _ => 0) b.storage f s.rt
  rw [hm] at hnext
  refine ⟨fun x hx => ?_, hnext⟩
  rw [hset] at hx
  rcases List.mem_or_eq_of_mem_set hx with hx | rfl
  · exact hun x hx
  · exact hsh.trans (hun b (List.mem_of_getElem? hb))

end LayerKvCache
end KirAi.KvCache
