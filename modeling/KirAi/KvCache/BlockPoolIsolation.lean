/-
# Copy on write isolates the sessions

Sessions may list the same block. A session that wants to write asks
`copy_on_write_session_block` for a block of its own first, and
`with_block_mut` refuses a block with more than one reference. The guard counts
references and does not ask whose they are, so it isolates the sessions as long
as a session writes to a block it still lists: then its own reference is the
only one, and nobody else lists the block. A block id that a session kept after
its table let go of the block is not guarded (`staleWrite_changes_other`).

Key definitions: `BlockRows`, `viewOf`, `reads`.
Key theorems: `Inv.write_keeps_reads`, `Inv.copyOnWrite_own`,
`copyOnWrite_isolates`.
-/
import KirAi.KvCache.BlockPoolRun

namespace KirAi.KvCache

open Lib

/-- The rows of a block that are in use. -/
structure BlockRows where
  tokenCount : ℕ
  vectorLen : ℕ
  keys : List F32
  values : List F32
deriving DecidableEq, Repr

namespace CacheBlock

def rows (b : CacheBlock) : BlockRows := ⟨b.tokenCount, b.vectorLen, b.keys, b.values⟩

/-- What a reader of the block sees. -/
def view (b : CacheBlock) : BlockRows × Option CacheBlockHash := (b.rows, b.contentHash)

variable {shares : Shares} {b b' source : CacheBlock} {rt rt' : Statics}

/-- A copy reads as its source. -/
theorem copyContentsFrom_view {access : ℕ}
    (h : b.copyContentsFrom shares source access rt = .ok (b', rt')) : b'.view = source.view := by
  simp only [copyContentsFrom, throw_bind, guard_eq_ok, pure_eq_ok, Prod.mk.injEq] at h
  obtain ⟨hshape, rfl, -⟩ := h
  push Not at hshape
  simp [view, rows, keys, values, usedLen, hshape.2]

end CacheBlock

namespace BlockPoolInner

/-- What a reader of block `b` sees, if the pool has it. -/
def viewOf (p : BlockPoolInner) (b : BlockId) : Option (BlockRows × Option CacheBlockHash) :=
  p.blocks[b]?.map (·.view)

/-- What a live session reads through its table. -/
def reads (p : BlockPoolInner) (s : SessionId) :
    Option (List (Option (BlockRows × Option CacheBlockHash))) :=
  p.sessions[s]?.map fun t => t.blockTable.blocks.map p.viewOf

variable {p p' : BlockPoolInner} {raw : BlockId → ℕ} {a b : BlockId} {block block' : CacheBlock}
  {env : Ambient} {s s' : SessionId}

theorem viewOf_eq (hb : p.blocks[b]? = some block) : p.viewOf b = some block.view := by
  simp [viewOf, hb]

/-- Replacing one block changes what is seen of that block. -/
theorem viewOf_insert (hq : p'.blocks = p.blocks.insert a block) (b : BlockId) :
    p'.viewOf b = if b = a then some block.view else p.viewOf b := by
  unfold viewOf
  rw [hq, getElem?_insert_ite]
  by_cases h : a = b
  · simp [h]
  · rw [if_neg h, if_neg (Ne.symm h)]

theorem refCountOf_of_insert (hq : p'.blocks = p.blocks.insert a block) (b : BlockId) :
    p'.refCountOf b = if b = a then block.refCount else p.refCountOf b := by
  unfold refCountOf
  rw [hq, getElem?_insert_ite]
  by_cases h : a = b
  · simp [h]
  · rw [if_neg h, if_neg (Ne.symm h)]

/-- A session's reading depends on its table and on the blocks it lists. -/
theorem reads_congr (hs : p'.sessions[s]? = p.sessions[s]?)
    (hv : ∀ t, p.sessions[s]? = some t → ∀ b ∈ t.blockTable.blocks, p'.viewOf b = p.viewOf b) :
    p'.reads s = p.reads s := by
  unfold reads
  rw [hs]
  cases ht : p.sessions[s]? with
  | none => rfl
  | some t =>
    simp only [Option.map_some, Option.some.injEq]
    exact List.map_congr_left fun b hb => hv t ht b hb

/-! ### A write through a block that is listed -/

/-- Two sessions that own a block are two owners. -/
theorem two_le_owners {t t' : SessionBlockTable} (ht : p.sessions[s]? = some t)
    (ht' : p.sessions[s']? = some t') (hne : s' ≠ s) (hb : t.ownsBlock b = true)
    (hb' : t'.ownsBlock b = true) : 2 ≤ p.owners b := by
  have hera := entryCount_erase p.sessions (fun e => e.2.ownsBlock b) s
  have hpos : 0 < entryCount (p.sessions.erase s) fun e => e.2.ownsBlock b := by
    refine entryCount_pos (k := s') (v := t') ?_ hb'
    rw [getElem?_erase_ite, if_neg (Ne.symm hne)]
    exact ht'
  rw [ht] at hera
  simp only [entryWeight, hb, ↓reduceIte] at hera
  unfold owners
  omega

/-- The holder of the only reference is the only reader. -/
theorem Inv.not_listed_of_sole (h : Inv p raw) (h1 : p.refCountOf b = 1)
    (hold : (∃ t, p.sessions[s]? = some t ∧ b ∈ t.blockTable.blocks) ∨ 0 < raw b) (hne : s' ≠ s)
    {t' : SessionBlockTable} (ht' : p.sessions[s']? = some t') : b ∉ t'.blockTable.blocks := by
  intro hb'
  have hr := h.refs b
  rcases hold with ⟨t, ht, hb⟩ | hraw
  · have := two_le_owners ht ht' hne (((h.tables s t ht).2.2 b).mpr hb)
      (((h.tables s' t' ht').2.2 b).mpr hb')
    omega
  · have := h.owners_pos ht' hb'
    omega

/-- A write is refused, or it goes to a block with one reference and changes
only that block. -/
theorem withBlockMut_cases (p : BlockPoolInner) (b : BlockId)
    (f : CacheBlock → Statics → CacheBlock × Statics) :
    (p.withBlockMut b f).2 = p ∨ ∃ block, p.blocks[b]? = some block ∧ block.refCount = 1 ∧
      (p.withBlockMut b f).2 =
        { p with blocks := p.blocks.insert b (f block p.rt).1, rt := (f block p.rt).2 } := by
  unfold withBlockMut blockMut
  cases hb : p.blocks[b]? with
  | none => exact .inl rfl
  | some block =>
    by_cases h1 : block.refCount = 1
    · exact .inr ⟨block, rfl, h1, by simp [Option.filter, h1]⟩
    · exact .inl (by simp [Option.filter, h1])

/-- A session's write to a block it lists, or a client's to a block it holds a
reference to, changes nothing another session reads. -/
theorem Inv.write_keeps_reads (h : Inv p raw)
    (hold : (∃ t, p.sessions[s]? = some t ∧ b ∈ t.blockTable.blocks) ∨ 0 < raw b) (hne : s' ≠ s)
    (f : CacheBlock → Statics → CacheBlock × Statics) :
    (p.withBlockMut b f).2.reads s' = p.reads s' := by
  rcases withBlockMut_cases p b f with he | ⟨block, hb, h1, he⟩
  · rw [he]
  · rw [he]
    refine reads_congr rfl fun t' ht' a ha => ?_
    have hab : a ≠ b := by
      rintro rfl
      exact h.not_listed_of_sole (by rw [refCountOf_eq hb, h1]) hold hne ht' ha
    exact (viewOf_insert rfl a).trans (if_neg hab)

/-! ### Blocks that stay referenced keep their rows -/

/-- Releasing references clears a block only when the last one goes. -/
theorem release_keeps (hpos : 0 < (p.release env a).2.refCountOf b) :
    0 < p.refCountOf b ∧ (p.release env a).2.viewOf b = p.viewOf b := by
  unfold BlockPoolInner.release at hpos ⊢
  cases ha : p.blocks[a]? with
  | none =>
    simp only [ha] at hpos ⊢
    exact ⟨hpos, trivial⟩
  | some block =>
    by_cases h0 : block.refCount = 0
    · simp only [ha, h0, ↓reduceIte] at hpos ⊢
      exact ⟨hpos, trivial⟩
    · simp only [ha, h0, ↓reduceIte] at hpos ⊢
      by_cases h1 : block.decrementRefCount.refCount = 0
      · simp only [h1, ↓reduceIte] at hpos ⊢
        rw [refCountOf_of_insert (p := p) rfl] at hpos
        rw [viewOf_insert (p := p) rfl]
        by_cases hba : b = a
        · simp [hba] at hpos
        · rw [if_neg hba] at hpos ⊢
          exact ⟨hpos, rfl⟩
      · simp only [h1, ↓reduceIte] at hpos ⊢
        rw [refCountOf_of_insert (p := p) rfl] at hpos
        rw [viewOf_insert (p := p) rfl]
        by_cases hba : b = a
        · subst hba
          rw [refCountOf_eq ha, viewOf_eq ha, if_pos rfl]
          exact ⟨Nat.pos_of_ne_zero h0, rfl⟩
        · rw [if_neg hba] at hpos ⊢
          exact ⟨hpos, rfl⟩

theorem releaseAll_keeps : ∀ (bs : List BlockId) (n : ℕ) {p : BlockPoolInner},
    0 < (releaseAll env bs n p).2.refCountOf b →
    0 < p.refCountOf b ∧ (releaseAll env bs n p).2.viewOf b = p.viewOf b
  | [], _, _, hpos => ⟨hpos, rfl⟩
  | a :: bs, n, p, hpos => by
    simp only [releaseAll] at hpos ⊢
    obtain ⟨h1, h2⟩ := releaseAll_keeps bs _ hpos
    obtain ⟨k1, k2⟩ := release_keeps h1
    exact ⟨k1, h2.trans k2⟩

variable (env) in
theorem releaseSessionInner_keeps (hpos : 0 < (p.releaseSessionInner env s).2.refCountOf b) :
    0 < p.refCountOf b ∧ (p.releaseSessionInner env s).2.viewOf b = p.viewOf b := by
  unfold BlockPoolInner.releaseSessionInner at hpos ⊢
  cases hs : p.sessions[s]? with
  | none =>
    simp only [hs] at hpos
    exact ⟨hpos, rfl⟩
  | some t =>
    simp only [hs] at hpos
    exact releaseAll_keeps (p := { p with sessions := p.sessions.erase s }) _ 0 hpos

theorem evictLoop_keeps (x : SessionId) : ∀ (n : ℕ) {p : BlockPoolInner},
    0 < (evictLoop env x n p).refCountOf b →
    0 < p.refCountOf b ∧ (evictLoop env x n p).viewOf b = p.viewOf b
  | 0, _, hpos => ⟨hpos, rfl⟩
  | n + 1, p, hpos => by
    unfold BlockPoolInner.evictLoop at hpos ⊢
    split at hpos
    · rename_i hfree
      rw [if_pos hfree]
      cases hl : p.lruSessionExcept (some x) with
      | none =>
        simp only [hl] at hpos ⊢
        exact ⟨hpos, trivial⟩
      | some s =>
        simp only [hl] at hpos ⊢
        have hrel := releaseSessionInner_keeps env (p := p) (s := s) (b := b)
        cases hr : p.releaseSessionInner env s with
        | mk r p₁ =>
          rw [hr] at hrel
          cases r with
          | none =>
            simp only [hr] at hpos ⊢
            exact hrel hpos
          | some k =>
            simp only [hr] at hpos ⊢
            obtain ⟨h1, h2⟩ := evictLoop_keeps x n hpos
            obtain ⟨k1, k2⟩ := hrel h1
            exact ⟨k1, h2.trans k2⟩
    · rename_i hfree
      rw [if_neg hfree]
      exact ⟨hpos, rfl⟩

variable (env) in
/-- Eviction clears only blocks that lose their last reference. -/
theorem evictIfEmpty_keeps
    (hpos : 0 < (if p.freeList.isEmpty then p.evictSessionsUntilFree env s else p).refCountOf b) :
    (if p.freeList.isEmpty then p.evictSessionsUntilFree env s else p).viewOf b = p.viewOf b := by
  split at hpos
  · rename_i hfree
    rw [if_pos hfree]
    exact (evictLoop_keeps s _ hpos).2
  · rename_i hfree
    rw [if_neg hfree]

/-- Allocation touches the block it hands out and no other. -/
theorem allocate_keeps (ha : p.allocate env = (some a, p')) (hne : b ≠ a) :
    p'.viewOf b = p.viewOf b := by
  unfold BlockPoolInner.allocate at ha
  split at ha
  · cases ha
  · simp only [BlockPoolInner.nextAccess] at ha
    split at ha
    · cases ha
    · simp only [Prod.mk.injEq, Option.some.injEq] at ha
      obtain ⟨rfl, rfl⟩ := ha
      exact (viewOf_insert (p := p) rfl b).trans (if_neg hne)

variable (env) in
theorem release_refCountOf_ne (hne : b ≠ a) :
    (p.release env a).2.refCountOf b = p.refCountOf b := by
  unfold BlockPoolInner.release
  cases ha : p.blocks[a]? with
  | none => rfl
  | some block =>
    by_cases h0 : block.refCount = 0
    · simp only [h0, ↓reduceIte]
    · simp only [h0, ↓reduceIte]
      split
      · exact (refCountOf_of_insert (p := p) rfl b).trans (if_neg hne)
      · exact (refCountOf_of_insert (p := p) rfl b).trans (if_neg hne)

/-! ### What copy on write leaves -/

/-- The session's own block at `index` of its table: one reference, and it
reads as `view`. -/
structure OwnBlockAt (p : BlockPoolInner) (s : SessionId) (blocks : List BlockId) (b : BlockId)
    (view : Option (BlockRows × Option CacheBlockHash)) : Prop where
  table : ∃ t, p.sessions[s]? = some t ∧ t.blockTable.blocks = blocks
  single : p.refCountOf b = 1
  rows : p.viewOf b = view

theorem release_sessions (p : BlockPoolInner) (env : Ambient) (a : BlockId) :
    (p.release env a).2.sessions = p.sessions := by
  unfold BlockPoolInner.release
  split
  · rfl
  · split
    · rfl
    · dsimp only
      split <;> rfl

/-- Releasing another block changes nothing of it. -/
theorem OwnBlockAt.release {blocks : List BlockId} {view : Option (BlockRows × Option CacheBlockHash)}
    (h : OwnBlockAt p s blocks b view) (hne : b ≠ a) :
    OwnBlockAt (p.release env a).2 s blocks b view := by
  have hr := (release_refCountOf_ne env hne).trans h.single
  refine ⟨?_, hr, ?_⟩
  · rw [release_sessions]
    exact h.table
  · rw [(release_keeps (by rw [hr]; exact Nat.one_pos)).2, h.rows]

/-- A block with one reference is only touched. -/
theorem touchOwnBlock_own {t : SessionBlockTable} {index : ℕ} (hs : p.sessions[s]? = some t)
    (hi : t.readBlock index = some b) (hb : p.blocks[b]? = some block) (h1 : block.refCount = 1)
    (hc : (p.touchOwnBlock s b).1 = .ok a) :
    OwnBlockAt (p.touchOwnBlock s b).2 s (t.blockTable.blocks.set index a) a (p.viewOf b) := by
  unfold BlockPoolInner.touchOwnBlock touchSessionBlock at hc ⊢
  simp only [BlockPoolInner.nextAccess, hs, hb, h1, Nat.one_ne_zero, ↓reduceIte,
    Except.ok.injEq] at hc ⊢
  subst hc
  refine ⟨⟨t.touch (satAdd p.accessClock 1), ?_, ?_⟩, ?_, ?_⟩
  · change (p.sessions.insert s _)[s]? = _
    rw [Std.ExtTreeMap.getElem?_insert_self]
  · exact (list_set_self hi).symm
  · rw [refCountOf_of_insert (p := p) rfl, if_pos rfl]
    exact h1
  · rw [viewOf_eq hb, viewOf_insert (p := p) rfl, if_pos rfl]
    rfl

/-- The copy takes a fresh block, fills it, lists it, and lets go of the old
one. -/
theorem Inv.copySessionBlock_own (h : Inv p raw) {t : SessionBlockTable} {index : ℕ}
    (hs : p.sessions[s]? = some t) (hi : t.readBlock index = some b)
    (hc : (p.copySessionBlock env s index b).1 = .ok a) :
    OwnBlockAt (p.copySessionBlock env s index b).2 s (t.blockTable.blocks.set index a) a
      (p.viewOf b) := by
  unfold BlockPoolInner.copySessionBlock at hc ⊢
  rcases h.allocate env with ⟨-, ha⟩ | ⟨nb, p₁, ha, hbf, hs₁, -, h₁⟩
  · rw [ha] at hc
    cases hc
  rw [ha] at hc ⊢
  have hbl : b ∈ t.blockTable.blocks := List.mem_of_getElem? hi
  have hne : nb ≠ b := fun e => h.listed_not_free hs hbl (e ▸ hbf)
  have ht₁ : p₁.sessions[s]? = some t := hs₁ ▸ hs
  obtain ⟨source, hsrc, -⟩ := h₁.listed ht₁ hbl
  obtain ⟨destination, hdst, -⟩ := mem_blocks_of_refCountOf (p := p₁) (b := nb) (by
    rw [h₁.refs nb]
    simp [plusOne])
  have hview : p.viewOf b = some source.view := by
    rw [← allocate_keeps ha (Ne.symm hne), viewOf_eq hsrc]
  simp only [BlockPoolInner.nextAccess, hsrc, hdst] at hc ⊢
  cases hcopy : destination.copyContentsFrom env.shares source (satAdd p₁.accessClock 1) p₁.rt with
  | error e => simp [hcopy] at hc
  | ok r =>
    obtain ⟨destination', rt⟩ := r
    obtain ⟨t', hrep, -, -, hlist, -⟩ := SessionBlockTable.replaceOwnedBlock_ok
      (h₁.ids nb destination hdst).2 (h₁.tables s t ht₁).2.2 hi
    simp only [hcopy, ht₁, hrep, Except.ok.injEq] at hc ⊢
    subst hc
    -- the copy before the old block is released
    have hq : OwnBlockAt { p₁ with
        blocks := p₁.blocks.insert nb destination'
        sessions := p₁.sessions.insert s (t'.touch (satAdd p₁.accessClock 1))
        accessClock := satAdd p₁.accessClock 1, rt } s (t.blockTable.blocks.set index nb) nb
        (p.viewOf b) := by
      refine ⟨⟨t'.touch (satAdd p₁.accessClock 1), ?_, hlist⟩, ?_, ?_⟩
      · change (p₁.sessions.insert s _)[s]? = _
        rw [Std.ExtTreeMap.getElem?_insert_self]
      · exact (refCountOf_of_insert (p := p₁) rfl nb).trans
          ((if_pos rfl).trans (CacheBlock.copyContentsFrom_ok hcopy).2)
      · rw [hview, ← CacheBlock.copyContentsFrom_view hcopy]
        exact (viewOf_insert (p := p₁) rfl nb).trans (if_pos rfl)
    split
    · exact hq.release hne
    · exact hq

theorem Inv.copyOnWrite_own (h : Inv p raw) {index : ℕ}
    (hc : (p.copyOnWriteSessionBlock env s index).1 = .ok a) :
    ∃ t b, p.sessions[s]? = some t ∧ t.readBlock index = some b ∧
      OwnBlockAt (p.copyOnWriteSessionBlock env s index).2 s (t.blockTable.blocks.set index a) a
        (p.viewOf b) := by
  unfold BlockPoolInner.copyOnWriteSessionBlock at hc ⊢
  cases hr : p.sessions[s]? >>= (·.readBlock index) with
  | none =>
    rw [hr] at hc
    cases hc
  | some b =>
    obtain ⟨t, ht, hi⟩ := Option.bind_eq_some_iff.mp hr
    refine ⟨t, b, ht, hi, ?_⟩
    simp only [hr] at hc ⊢
    cases hb : p.blocks[b]?.filter (·.refCount > 0) with
    | none =>
      simp only [hb] at hc
      cases hc
    | some block =>
      by_cases h1 : block.refCount = 1
      · simp only [hb, h1, ↓reduceIte] at hc ⊢
        exact touchOwnBlock_own ht hi (Option.filter_eq_some_iff.mp hb).1 h1 hc
      · simp only [hb, h1, ↓reduceIte] at hc ⊢
        have hkeep := evictIfEmpty_keeps (p := p) (s := s) (b := b) env
        obtain ⟨p₁, he, h₁, -, hs₁, -⟩ := h.evictIfEmpty env s
        rw [he] at hc hkeep ⊢
        cases hb₁ : p₁.blocks[b]?.filter (·.refCount > 0) with
        | none =>
          simp only [hb₁] at hc
          cases hc
        | some block₁ =>
          obtain ⟨hmem₁, hpos₁⟩ := Option.filter_eq_some_iff.mp hb₁
          -- what evicting leaves referenced still reads the same
          rw [← hkeep (by rw [refCountOf_eq hmem₁]; simpa using hpos₁)]
          by_cases h1' : block₁.refCount = 1
          · simp only [hb₁, h1', ↓reduceIte] at hc ⊢
            exact touchOwnBlock_own (hs₁.trans ht) hi hmem₁ h1' hc
          · simp only [hb₁, h1', ↓reduceIte] at hc ⊢
            exact h₁.copySessionBlock_own (hs₁.trans ht) hi hc

/-! ### Isolation -/

/-- The session lists the block, or the client holds a reference of its own to
it. -/
def Holds (p : BlockPoolInner) (raw : BlockId → ℕ) (s : SessionId) (b : BlockId) : Prop :=
  (∃ t, p.sessions[s]? = some t ∧ b ∈ t.blockTable.blocks) ∨ 0 < raw b

/-- **Copy on write isolates the sessions.** In every state of a run, a write
to a block that its session holds changes nothing another session reads. A
successful copy on write changes its caller's table at the index only, where it
leaves a block that the session alone owns and that reads as the block that was
there. -/
theorem copyOnWrite_isolates (h : Reach p raw) (env : Ambient) :
    (∀ (s : SessionId) (b : BlockId) (edits : List BlockEdit), Holds p raw s b →
      ∀ s', s' ≠ s → (Op.run env p (.withBlockMut b edits)).reads s' = p.reads s') ∧
    ∀ (s : SessionId) (index : ℕ) (b' : BlockId) (p' : BlockPoolInner),
      p.copyOnWriteSessionBlock env s index = (.ok b', p') →
      ∃ t t' b, p.sessions[s]? = some t ∧ t.readBlock index = some b ∧
        p'.sessions[s]? = some t' ∧ t'.blockTable.blocks = t.blockTable.blocks.set index b' ∧
        p'.refCountOf b' = 1 ∧ p'.owners b' = 1 ∧ raw b' = 0 ∧ Holds p' raw s b' ∧
        p'.viewOf b' = p.viewOf b := by
  have hi := reach_inv h
  refine ⟨fun s b edits hold s' hne => hi.write_keeps_reads hold hne _, fun s index b' p' hc => ?_⟩
  have hok : (p.copyOnWriteSessionBlock env s index).1 = .ok b' := by rw [hc]
  have hinv : Inv (p.copyOnWriteSessionBlock env s index).2 raw :=
    (hi.copyOnWriteSessionBlock s index).1
  obtain ⟨t, b, ht, hread, hown⟩ := hi.copyOnWrite_own hok
  rw [hc] at hinv hown
  dsimp only at hinv hown
  obtain ⟨⟨t', ht', hlist⟩, h1, hv⟩ := hown
  have hmem : b' ∈ t'.blockTable.blocks := by
    rw [hlist]
    exact List.mem_set (List.getElem?_eq_some_iff.mp hread).1 _
  have hpos := hinv.owners_pos ht' hmem
  have hrefs := hinv.refs b'
  exact ⟨t, t', b, ht, hread, ht', hlist, h1, by omega, by omega, .inl ⟨t', ht', hmem⟩, hv⟩

/-- Two sessions share block 3; the first gets block 2 of its own from copy on
write, and what it writes there the second does not see. -/
theorem copyOnWrite_isolates_two_sessions :
    ∃ p₀, BlockPoolInner.new 3 4 1 Statics.initial = .ok p₀ ∧
      ∃ p, p = [Op.createSession, .createSession, .allocateForSession 1, .appendBlockToSession 2 3,
          .copyOnWriteSessionBlock 1 0].foldl (Op.run .plain) p₀ ∧
        Holds p (fun _ => 0) 1 2 ∧
        (Op.run .plain p (.withBlockMut 2 [.append [F32.zero] [F32.zero]])).reads 2 = p.reads 2 ∧
        (Op.run .plain p (.withBlockMut 2 [.append [F32.zero] [F32.zero]])).reads 1 ≠ p.reads 1 := by
  refine ⟨_, rfl, _, rfl, ?_⟩
  have hsize : ∀ {q : BlockPoolInner}, q.sessions.size ≤ 2 → ∀ b, q.owners b + 0 < 2 ^ 64 :=
    fun hq b => lt_of_le_of_lt (Nat.add_le_add_right (le_trans (owners_le_size _ b) hq) 0) (by decide)
  have h₁ := Reach.step .plain .createSession
    (Reach.new (show BlockPoolInner.new 3 4 1 Statics.initial = .ok _ from rfl)) trivial
    (hsize (by decide +kernel))
  have h₂ := Reach.step .plain .createSession h₁ trivial (hsize (by decide +kernel))
  have h₃ := Reach.step .plain (.allocateForSession 1) h₂ trivial (hsize (by decide +kernel))
  have h₄ := Reach.step .plain (.appendBlockToSession 2 3) h₃ trivial (hsize (by decide +kernel))
  have h₅ := Reach.step .plain (.copyOnWriteSessionBlock 1 0) h₄ trivial (hsize (by decide +kernel))
  refine ⟨.inl ⟨_, rfl, by decide +kernel⟩, ?_, by decide +kernel⟩
  exact (copyOnWrite_isolates h₅ .plain).1 1 2 _ (.inl ⟨_, rfl, by decide +kernel⟩) 2 (by decide)

/-- The guard does not ask whose the one reference is: the first session gets
block 2 from copy on write, shares it with the second, and gets block 1 from
another copy on write. When it then writes to block 2 again, the second
session's rows change. -/
theorem staleWrite_changes_other :
    ∃ p₀, BlockPoolInner.new 3 4 1 Statics.initial = .ok p₀ ∧
      ∃ p₁, p₁ = [Op.createSession, .createSession, .allocateForSession 1,
          .appendBlockToSession 2 3].foldl (Op.run .plain) p₀ ∧
        (p₁.copyOnWriteSessionBlock .plain 1 0).1.toOption = some 2 ∧
        ∃ p₂, p₂ = [Op.copyOnWriteSessionBlock 1 0, .appendBlockToSession 2 2,
            .copyOnWriteSessionBlock 1 0].foldl (Op.run .plain) p₁ ∧
          1 ∈ p₂.sessions ∧ 2 ∈ p₂.sessions ∧
          (Op.run .plain p₂ (.withBlockMut 2 [.append [F32.zero] [F32.zero]])).reads 2 ≠
            p₂.reads 2 := by
  refine ⟨_, rfl, _, rfl, by decide +kernel, _, rfl, by decide +kernel, by decide +kernel,
    by decide +kernel⟩

end BlockPoolInner
end KirAi.KvCache
