/-
# What pool operations are made of

Every operation of a pool, a registration and a client's closure apart, is a sequence of
updates (`Update`): each replaces at most one block, by one that carries no hash or reads as
some block of the pool; puts only blocks of the pool on the free list; and keeps each session
under its own id. So what a single update keeps, every such operation keeps (`Op.updates`).

Nothing is asked of who runs the operations. In a state of any run whatsoever (`Runs`), also
where clients release blocks that are not theirs, the pool has its shape (`Shape`).

Key definitions: `Update`, `Updates`, `Runs`, `Shape`.
Key theorems: `Op.updates`, `runs_shape`.
-/
import KirAi.KvCache.BlockPoolIsolation
import Mathlib.Logic.Relation

namespace KirAi.KvCache

open Lib

namespace CacheBlock

@[simp] theorem clear_contentHash (shares : Shares) (b : CacheBlock) (rt : Statics) :
    (b.clear shares rt).1.contentHash = none := by
  unfold clear
  split <;> rfl

@[simp] theorem resetForAllocation_contentHash (shares : Shares) (b : CacheBlock) (access : ℕ)
    (rt : Statics) : (b.resetForAllocation shares access rt).1.contentHash = none := by
  simp [resetForAllocation]

end CacheBlock

namespace SessionBlockTable

variable {t t' : SessionBlockTable}

theorem appendOwnedBlock_sessionId {b : BlockId} {newlyOwned : Bool}
    (h : t.appendOwnedBlock b = .ok (newlyOwned, t')) : t'.sessionId = t.sessionId := by
  unfold appendOwnedBlock at h
  split at h
  · cases h
  · split at h
    · cases h
    · cases h
      rfl

theorem replaceOwnedBlock_sessionId {index : ℕ} {b previous : BlockId} {release : Bool}
    (h : t.replaceOwnedBlock index b = .ok ((previous, release), t')) :
    t'.sessionId = t.sessionId := by
  unfold replaceOwnedBlock at h
  split at h
  · cases h
  · cases h
    rfl

end SessionBlockTable

namespace BlockPoolInner

variable {p p' q : BlockPoolInner} {env : Ambient} {a b : BlockId} {block : CacheBlock}
  {s : SessionId}

/-- The blocks that a pool may have after one update. -/
def BlocksUpdate (p p' : BlockPoolInner) : Prop :=
  p'.blocks = p.blocks ∨ ∃ (a : BlockId) (old block : CacheBlock), p.blocks[a]? = some old ∧
    p'.blocks = p.blocks.insert a block ∧
    (block.contentHash = none ∨ ∃ (c : BlockId) (source : CacheBlock),
      p.blocks[c]? = some source ∧ block.view = source.view)

/-- Every session is new under its id, or has the id of the one that was there. -/
def TablesUpdate (p p' : BlockPoolInner) : Prop :=
  ∀ (s : SessionId) (t' : SessionBlockTable), p'.sessions[s]? = some t' →
    t'.sessionId = s ∨ ∃ t, p.sessions[s]? = some t ∧ t'.sessionId = t.sessionId

/-- One update of a pool. -/
structure Update (p p' : BlockPoolInner) : Prop where
  prefixes : p'.prefixes = p.prefixes
  blocks : BlocksUpdate p p'
  free : ∀ b ∈ p'.freeList, b ∈ p.freeList ∨ b ∈ p.blocks
  tables : TablesUpdate p p'

/-- A sequence of updates. -/
abbrev Updates : BlockPoolInner → BlockPoolInner → Prop := Relation.ReflTransGen Update

theorem TablesUpdate.of_eq (h : p'.sessions = p.sessions) : TablesUpdate p p' :=
  fun _ t' ht => .inr ⟨t', h ▸ ht, rfl⟩

theorem TablesUpdate.insert {t t' : SessionBlockTable} (hq : p'.sessions = p.sessions.insert s t')
    (ht : p.sessions[s]? = some t) (hid : t'.sessionId = t.sessionId) : TablesUpdate p p' := by
  intro s₀ t₀ h₀
  rw [hq, getElem?_insert_ite] at h₀
  by_cases hs : s = s₀
  · subst hs
    rw [if_pos rfl, Option.some.injEq] at h₀
    subst h₀
    exact .inr ⟨t, ht, hid⟩
  · rw [if_neg hs] at h₀
    exact .inr ⟨t₀, h₀, rfl⟩

theorem TablesUpdate.touch {t : SessionBlockTable} {access : ℕ}
    (hq : p'.sessions = p.sessions.insert s (t.touch access)) (ht : p.sessions[s]? = some t) :
    TablesUpdate p p' := .insert hq ht rfl

namespace Updates

theorem rfl (p : BlockPoolInner) : Updates p p := .refl

/-- An update that leaves the blocks as they are. -/
theorem keepBlocks (hb : p'.blocks = p.blocks) (hp : p'.prefixes = p.prefixes)
    (hf : p'.freeList ⊆ p.freeList) (ht : TablesUpdate p p') : Updates p p' :=
  .single ⟨hp, .inl hb, fun _ hm => .inl (hf hm), ht⟩

/-- An update of the clock or of the process counters. -/
theorem of_eq (hb : p'.blocks = p.blocks) (hp : p'.prefixes = p.prefixes)
    (hf : p'.freeList = p.freeList) (hs : p'.sessions = p.sessions) : Updates p p' :=
  keepBlocks hb hp (hf ▸ List.Subset.refl _) (.of_eq hs)

/-- A block of the pool gets new contents without a hash. -/
theorem unhashed {old : CacheBlock} (ha : p.blocks[a]? = some old)
    (hq : p'.blocks = p.blocks.insert a block) (hhash : block.contentHash = none)
    (hp : p'.prefixes = p.prefixes) (hf : p'.freeList ⊆ p.freeList ++ [a])
    (hs : p'.sessions = p.sessions) : Updates p p' := by
  refine .single ⟨hp, .inr ⟨a, old, block, ha, hq, .inl hhash⟩, fun b hm => ?_, .of_eq hs⟩
  rcases List.mem_append.1 (hf hm) with hin | hin
  · exact .inl hin
  · rw [List.mem_singleton.1 hin]
    exact .inr (Std.ExtTreeMap.mem_iff_isSome_getElem?.2 (by rw [ha]; exact Option.isSome_some))

/-- A block comes to read as some block of the pool. -/
theorem copied {old source : CacheBlock} {c : BlockId} (ha : p.blocks[a]? = some old)
    (hq : p'.blocks = p.blocks.insert a block) (hc : p.blocks[c]? = some source)
    (hv : block.view = source.view) (hp : p'.prefixes = p.prefixes)
    (hf : p'.freeList = p.freeList) (ht : TablesUpdate p p') : Updates p p' :=
  .single ⟨hp, .inr ⟨a, old, block, ha, hq, .inr ⟨c, source, hc, hv⟩⟩,
    fun _ hm => .inl (hf ▸ hm), ht⟩

/-- Counts and access times are not read by anybody who reads the rows. -/
theorem sameView {block' : CacheBlock} (ha : p.blocks[a]? = some block)
    (hq : p'.blocks = p.blocks.insert a block') (hv : block'.view = block.view)
    (hp : p'.prefixes = p.prefixes) (hf : p'.freeList = p.freeList) (ht : TablesUpdate p p') :
    Updates p p' := copied ha hq ha hv hp hf ht

end Updates

variable (env)

theorem allocate_updates (p : BlockPoolInner) : Updates p (p.allocate env).2 := by
  have hpop : p.freeList.dropLast ⊆ p.freeList := (List.dropLast_prefix _).subset
  unfold BlockPoolInner.allocate
  split
  · exact .rfl p
  · simp only [BlockPoolInner.nextAccess]
    split
    · exact .keepBlocks rfl rfl hpop (.of_eq rfl)
    · rename_i hb
      exact .unhashed hb rfl (by simp) rfl (List.Subset.trans hpop (List.subset_append_left _ _)) rfl

theorem retain_updates (p : BlockPoolInner) (b : BlockId) : Updates p (p.retain b).2 := by
  unfold BlockPoolInner.retain
  split
  · exact .rfl p
  · rename_i hb
    split
    · exact .rfl p
    · exact .sameView hb rfl rfl rfl rfl (.of_eq rfl)

theorem release_updates (p : BlockPoolInner) (b : BlockId) : Updates p (p.release env b).2 := by
  unfold BlockPoolInner.release
  split
  · exact .rfl p
  · rename_i hb
    split
    · exact .rfl p
    · dsimp only
      split
      · exact .unhashed hb rfl (by simp) rfl (List.Subset.refl _) rfl
      · exact .sameView hb rfl rfl rfl rfl (.of_eq rfl)

theorem touch_updates (p : BlockPoolInner) (b : BlockId) : Updates p (p.touch b).2 := by
  unfold BlockPoolInner.touch
  simp only [BlockPoolInner.nextAccess]
  split
  · exact .of_eq rfl rfl rfl rfl
  · rename_i hb
    split
    · exact .of_eq rfl rfl rfl rfl
    · exact .sameView hb rfl rfl rfl rfl (.of_eq rfl)

theorem createSession_updates (p : BlockPoolInner) : Updates p p.createSession.2 := by
  unfold BlockPoolInner.createSession takeSessionId
  cases (checkedAdd p.nextSessionId 1).filter (· ≠ 0) with
  | none => exact .rfl p
  | some next =>
    dsimp only [BlockPoolInner.nextAccess]
    split
    · exact .of_eq rfl rfl rfl rfl
    · rename_i t hnew
      refine .keepBlocks rfl rfl (List.Subset.refl _) fun s₀ t₀ h₀ => ?_
      dsimp only at h₀
      rw [getElem?_insert_ite] at h₀
      by_cases hs : p.nextSessionId = s₀
      · rw [if_pos hs, Option.some.injEq] at h₀
        rw [← h₀, ← hs]
        exact .inl (SessionBlockTable.new_ownsListed hnew).2.1
      · rw [if_neg hs] at h₀
        exact .inr ⟨t₀, h₀, rfl⟩

theorem appendInner_updates (p : BlockPoolInner) (s : SessionId) (b : BlockId) (r : Bool) :
    Updates p (p.appendBlockToSessionInner s b r).2 := by
  unfold appendBlockToSessionInner
  split
  · exact .rfl p
  · rename_i hb
    split
    · exact .rfl p
    · dsimp only [BlockPoolInner.nextAccess]
      split
      · exact .of_eq rfl rfl rfl rfl
      · rename_i t ht
        split
        · exact .of_eq rfl rfl rfl rfl
        · rename_i happend
          have hid := SessionBlockTable.appendOwnedBlock_sessionId happend
          refine .sameView hb rfl ?_ rfl rfl (.insert rfl ht hid)
          split <;> rfl

theorem releaseAll_updates : ∀ (bs : List BlockId) (n : ℕ) (p : BlockPoolInner),
    Updates p (releaseAll env bs n p).2
  | [], _, p => .rfl p
  | b :: bs, _, p => (release_updates env p b).trans (releaseAll_updates bs _ _)

theorem releaseSessionInner_updates (p : BlockPoolInner) (s : SessionId) :
    Updates p (p.releaseSessionInner env s).2 := by
  unfold BlockPoolInner.releaseSessionInner
  split
  · exact .rfl p
  · rename_i t _
    have herase : Updates p { p with sessions := p.sessions.erase s } := by
      refine .keepBlocks rfl rfl (List.Subset.refl _) fun s₀ t₀ h₀ => ?_
      dsimp only at h₀
      rw [getElem?_erase_ite] at h₀
      by_cases hs : s = s₀
      · rw [if_pos hs] at h₀
        cases h₀
      · rw [if_neg hs] at h₀
        exact .inr ⟨t₀, h₀, rfl⟩
    exact herase.trans (releaseAll_updates env (env.order t.ownedBlocks) 0 _)

theorem evictLoop_updates (x : SessionId) : ∀ (n : ℕ) (p : BlockPoolInner),
    Updates p (evictLoop env x n p)
  | 0, p => .rfl p
  | n + 1, p => by
    unfold BlockPoolInner.evictLoop
    split
    · split
      · exact .rfl p
      · rename_i s _
        have hrel := releaseSessionInner_updates env p s
        split
        · rename_i hr
          rw [hr] at hrel
          exact hrel
        · rename_i hr
          rw [hr] at hrel
          exact hrel.trans (evictLoop_updates x n _)
    · exact .rfl p

theorem evictIfEmpty_updates (p : BlockPoolInner) (s : SessionId) :
    Updates p (if p.freeList.isEmpty then p.evictSessionsUntilFree env s else p) := by
  split
  · exact evictLoop_updates env s _ p
  · exact .rfl p

theorem allocateForSession_updates (p : BlockPoolInner) (s : SessionId) :
    Updates p (p.allocateForSession env s).2 := by
  unfold BlockPoolInner.allocateForSession
  split
  · exact .rfl p
  · dsimp only
    have hevict := evictIfEmpty_updates env p s
    generalize (if p.freeList.isEmpty then p.evictSessionsUntilFree env s else p) = p₁ at hevict ⊢
    have halloc := hevict.trans (allocate_updates env p₁)
    cases ha : p₁.allocate env with
    | mk r p₂ =>
      rw [ha] at halloc
      cases r with
      | none => exact halloc
      | some b =>
        have happ := halloc.trans (appendInner_updates p₂ s b false)
        dsimp only
        split
        · rename_i hr
          rw [hr] at happ
          exact happ
        · rename_i hr
          rw [hr] at happ
          exact happ

theorem readSessionBlock_updates (p : BlockPoolInner) (s : SessionId) (index : ℕ) :
    Updates p (p.readSessionBlock s index).2 := by
  unfold BlockPoolInner.readSessionBlock
  dsimp only [BlockPoolInner.nextAccess]
  split
  · exact .of_eq rfl rfl rfl rfl
  · rename_i t ht
    split
    · exact .of_eq rfl rfl rfl rfl
    · split
      · exact .keepBlocks rfl rfl (List.Subset.refl _) (.touch rfl ht)
      · rename_i hb
        split
        · exact .keepBlocks rfl rfl (List.Subset.refl _) (.touch rfl ht)
        · exact .sameView hb rfl rfl rfl rfl (.touch rfl ht)

theorem attachAll_updates (s : SessionId) : ∀ (bs : List BlockId) (p : BlockPoolInner),
    Updates p (attachAll s bs p).2
  | [], p => .rfl p
  | b :: bs, p => by
    unfold attachAll
    have happ := appendInner_updates p s b true
    split
    · rename_i hr
      rw [hr] at happ
      exact happ
    · rename_i hr
      rw [hr] at happ
      exact happ.trans (attachAll_updates s bs _)

theorem attachPrefixToSession_updates (p : BlockPoolInner) (s : SessionId)
    (hash : CacheBlockHash) : Updates p (p.attachPrefixToSession s hash).2 := by
  unfold BlockPoolInner.attachPrefixToSession
  split
  · exact .rfl p
  · split
    · exact .rfl p
    · rename_i bs _
      have hall := attachAll_updates s bs p
      split
      · rename_i hr
        rw [hr] at hall
        exact hall
      · rename_i hr
        rw [hr] at hall
        exact hall

theorem touchOwnBlock_updates (p : BlockPoolInner) (s : SessionId) (b : BlockId) :
    Updates p (p.touchOwnBlock s b).2 := by
  have htouch : Updates p (p.touchSessionBlock s b).2 := by
    unfold touchSessionBlock
    dsimp only [BlockPoolInner.nextAccess]
    split
    · exact .of_eq rfl rfl rfl rfl
    · rename_i t ht
      split
      · exact .keepBlocks rfl rfl (List.Subset.refl _) (.touch rfl ht)
      · rename_i hb
        split
        · exact .keepBlocks rfl rfl (List.Subset.refl _) (.touch rfl ht)
        · exact .sameView hb rfl rfl rfl rfl (.touch rfl ht)
  unfold BlockPoolInner.touchOwnBlock
  split
  · rename_i hr
    rw [hr] at htouch
    exact htouch
  · rename_i hr
    rw [hr] at htouch
    exact htouch

theorem copySessionBlock_updates (p : BlockPoolInner) (s : SessionId) (index : ℕ) (b : BlockId) :
    Updates p (p.copySessionBlock env s index b).2 := by
  unfold BlockPoolInner.copySessionBlock
  have halloc := allocate_updates env p
  cases ha : p.allocate env with
  | mk r p₁ =>
    rw [ha] at halloc
    cases r with
    | none => exact halloc
    | some nb =>
      dsimp only [BlockPoolInner.nextAccess]
      have hclock : Updates p { p₁ with accessClock := satAdd p₁.accessClock 1 } :=
        halloc.trans (Updates.of_eq rfl rfl rfl rfl)
      split
      · rename_i source destination hsrc hdst
        split
        · exact hclock.trans (release_updates env _ nb)
        · rename_i destination' rt hcopy
          -- the destination reads as the source
          have hfill : Updates p { p₁ with
              blocks := p₁.blocks.insert nb destination', accessClock := satAdd p₁.accessClock 1, rt } :=
            halloc.trans (Updates.copied hdst rfl hsrc (CacheBlock.copyContentsFrom_view hcopy) rfl rfl
              (.of_eq rfl))
          split
          · exact hfill
          · rename_i t ht
            have hlist : ∀ t', t'.sessionId = t.sessionId → Updates p { p₁ with
                blocks := p₁.blocks.insert nb destination', accessClock := satAdd p₁.accessClock 1,
                rt, sessions := p₁.sessions.insert s t' } := fun t' hid =>
              hfill.trans (Updates.keepBlocks rfl rfl (List.Subset.refl _) (.insert rfl ht hid))
            split
            · exact (hlist (t.touch (satAdd p₁.accessClock 1)) rfl).trans (release_updates env _ nb)
            · rename_i t' hreplace
              have hid := SessionBlockTable.replaceOwnedBlock_sessionId hreplace
              have htable := hlist (t'.touch (satAdd p₁.accessClock 1)) hid
              split
              · exact htable.trans (release_updates env _ b)
              · exact htable
      · exact hclock.trans (release_updates env _ nb)

theorem copyOnWriteSessionBlock_updates (p : BlockPoolInner) (s : SessionId) (index : ℕ) :
    Updates p (p.copyOnWriteSessionBlock env s index).2 := by
  unfold BlockPoolInner.copyOnWriteSessionBlock
  split
  · exact .rfl p
  · rename_i b _
    split
    · exact .rfl p
    · split
      · exact touchOwnBlock_updates p s b
      · dsimp only
        have hevict := evictIfEmpty_updates env p s
        generalize (if p.freeList.isEmpty then p.evictSessionsUntilFree env s else p) = p₁ at hevict ⊢
        split
        · exact hevict
        · split
          · exact hevict.trans (touchOwnBlock_updates p₁ s b)
          · exact hevict.trans (copySessionBlock_updates env p₁ s index b)

/-- An operation that neither registers a prefix nor writes through a client's
closure. -/
def Op.IsQuiet : Op → Prop
  | .registerPrefix _ _ => False
  | .withBlockMut _ _ => False
  | _ => True

theorem Op.updates (op : Op) (hq : op.IsQuiet) (p : BlockPoolInner) :
    Updates p (op.run env p) := by
  cases op with
  | createSession => exact createSession_updates p
  | releaseSession s => exact releaseSessionInner_updates env p s
  | allocateForSession s => exact allocateForSession_updates env p s
  | appendBlockToSession s b => exact appendInner_updates p s b true
  | readSessionBlock s i => exact readSessionBlock_updates p s i
  | registerPrefix h bs => exact hq.elim
  | lookupPrefix h => exact .rfl p
  | attachPrefixToSession s h => exact attachPrefixToSession_updates p s h
  | copyOnWriteSessionBlock s i => exact copyOnWriteSessionBlock_updates env p s i
  | allocate => exact allocate_updates env p
  | retain b => exact retain_updates p b
  | release b => exact release_updates env p b
  | touch b => exact touch_updates p b
  | withBlockMut b es => exact hq.elim

variable {env}

/-! ### Every run -/

/-- The states of all runs, whatever clients do. -/
inductive Runs : BlockPoolInner → Prop where
  | new {blockCount blockCapacityTokens vectorLen : ℕ} {rt : Statics} {p : BlockPoolInner} :
      BlockPoolInner.new blockCount blockCapacityTokens vectorLen rt = .ok p → Runs p
  | step {p : BlockPoolInner} (env : Ambient) (op : Op) : Runs p → Runs (op.run env p)

/-- The blocks have ids, only blocks are free, and each session is under its id. -/
structure Shape (p : BlockPoolInner) : Prop where
  ids : ∀ b ∈ p.blocks, b ≠ 0
  free : ∀ b ∈ p.freeList, b ∈ p.blocks
  tables : ∀ (s : SessionId) (t : SessionBlockTable), p.sessions[s]? = some t → t.sessionId = s

theorem mem_insert_of_mem {old : CacheBlock} (ha : p.blocks[a]? = some old) :
    b ∈ p.blocks.insert a block ↔ b ∈ p.blocks := by
  rw [Std.ExtTreeMap.mem_insert, or_iff_right_iff_imp]
  intro heq
  rw [← Std.LawfulEqCmp.eq_of_compare heq]
  exact Std.ExtTreeMap.mem_iff_isSome_getElem?.2 (by rw [ha]; exact Option.isSome_some)

theorem Update.mem_blocks (h : Update p p') : b ∈ p'.blocks ↔ b ∈ p.blocks := by
  rcases h.blocks with hb | ⟨a, old, block, ha, hb, -⟩
  · rw [hb]
  · rw [hb, mem_insert_of_mem ha]

theorem Shape.update (h : Shape p) (hu : Update p p') : Shape p' := by
  refine ⟨fun b hb => h.ids b (hu.mem_blocks.1 hb), fun b hb => ?_, fun s t ht => ?_⟩
  · rcases hu.free b hb with hf | hm
    · exact hu.mem_blocks.2 (h.free b hf)
    · exact hu.mem_blocks.2 hm
  · rcases hu.tables s t ht with hid | ⟨t₀, ht₀, hid⟩
    · exact hid
    · exact hid.trans (h.tables s t₀ ht₀)

theorem Shape.updates (h : Shape p) (hu : Updates p p') : Shape p' := by
  induction hu with
  | refl => exact h
  | tail _ hu ih => exact ih.update hu

theorem Shape.withBlockMut (h : Shape p) (b : BlockId)
    (f : CacheBlock → Statics → CacheBlock × Statics) : Shape (p.withBlockMut b f).2 := by
  rcases withBlockMut_cases p b f with he | ⟨block, hb, -, he⟩
  · rw [he]
    exact h
  · rw [he]
    exact ⟨fun c hc => h.ids c ((mem_insert_of_mem hb).1 hc),
      fun c hc => (mem_insert_of_mem hb).2 (h.free c hc), h.tables⟩

theorem Shape.registerPrefix (h : Shape p) (hash : CacheBlockHash) (bs : List BlockId) :
    Shape (p.registerPrefix hash bs) := by
  have hpre : ∀ prefixes, Shape { p with prefixes } := fun _ => ⟨h.ids, h.free, h.tables⟩
  unfold BlockPoolInner.registerPrefix
  split
  · split
    · exact hpre _
    · exact hpre _
  · exact hpre _

theorem runs_shape (h : Runs p) : Shape p := by
  induction h with
  | new hn =>
    have hi := new_inv hn
    refine ⟨fun b hb => ?_, fun b hb => ((hi.free b).1 hb).1, fun s t ht => (hi.tables s t ht).1⟩
    obtain ⟨block, hblock⟩ := Option.isSome_iff_exists.1 (Std.ExtTreeMap.mem_iff_isSome_getElem?.1 hb)
    exact (hi.ids b block hblock).2
  | step env op _ ih =>
    by_cases hq : op.IsQuiet
    · exact ih.updates (op.updates env hq _)
    · cases op with
      | registerPrefix hash bs => exact ih.registerPrefix hash bs
      | withBlockMut b es => exact ih.withBlockMut b _
      | _ => exact absurd trivial hq

end BlockPoolInner

end KirAi.KvCache
