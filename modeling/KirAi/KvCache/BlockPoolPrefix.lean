/-
# What a prefix lookup answers

`register_prefix` remembers the ids of a chain of blocks with their hashes, and
nobody tells the index when a block is freed, reused or rewritten. A lookup
compares hashes and counts instead. It is right because a hash stays with the
rows it was set for: an append, a clear and a fresh allocation drop the hash,
and a copy takes rows and hash together (`Quiet`). So where clients set a
hash only over its content, a block that carries a hash holds that content
(`PrefixInv`), whatever happened to the block in between.

A block may go and come back: freed, allocated again and filled with the same
rows under the same hash, it is served (`lookupPrefix_refilled`).

Key definitions: `Quiet`, `PrefixRun`, `PrefixInv`.
Key theorems: `Op.quiet`, `prefixRun_inv`, `lookupPrefix_sound`.
-/
import KirAi.KvCache.BlockPoolUpdates

namespace KirAi.KvCache

open Lib

namespace BlockPoolInner

variable {p p' q : BlockPoolInner} {env : Ambient} {a b : BlockId} {block : CacheBlock}
  {s : SessionId}

/-! ### Hashes move with their rows -/

/-- Every block of `p'` that carries a hash reads as some block of `p`, and the
prefix index is the same. -/
structure Quiet (p p' : BlockPoolInner) : Prop where
  hashes : ∀ (b : BlockId) (block : CacheBlock), p'.blocks[b]? = some block →
    block.contentHash ≠ none → ∃ (a : BlockId) (source : CacheBlock), p.blocks[a]? = some source ∧
      block.view = source.view
  prefixes : p'.prefixes = p.prefixes

theorem Quiet.refl (p : BlockPoolInner) : Quiet p p :=
  ⟨fun b block h _ => ⟨b, block, h, rfl⟩, rfl⟩

theorem Quiet.trans (h : Quiet p p') (h' : Quiet p' q) : Quiet p q := by
  refine ⟨fun b block hb hne => ?_, h'.prefixes.trans h.prefixes⟩
  obtain ⟨a, source, ha, hv⟩ := h'.hashes b block hb hne
  have hhash : source.contentHash ≠ none := fun hn => hne ((congrArg Prod.snd hv).trans hn)
  obtain ⟨c, origin, hc, hv'⟩ := h.hashes a source ha hhash
  exact ⟨c, origin, hc, hv.trans hv'⟩

/-- One block is replaced by one without a hash, or by one that reads as a block
of the pool. -/
theorem Update.quiet (h : Update p p') : Quiet p p' := by
  refine ⟨fun b block' hb hne => ?_, h.prefixes⟩
  rcases h.blocks with heq | ⟨a, old, block, -, heq, hv⟩
  · exact ⟨b, block', heq ▸ hb, rfl⟩
  · rw [heq, getElem?_insert_ite] at hb
    by_cases hab : a = b
    · rw [if_pos hab, Option.some.injEq] at hb
      subst hb
      exact hv.resolve_left hne
    · rw [if_neg hab] at hb
      exact ⟨b, block', hb, rfl⟩

theorem Updates.quiet (h : Updates p p') : Quiet p p' := by
  induction h with
  | refl => exact .refl p
  | tail _ hu ih => exact ih.trans hu.quiet

theorem Op.quiet (env : Ambient) (op : Op) (hq : op.IsQuiet) (p : BlockPoolInner) :
    Quiet p (op.run env p) := (op.updates env hq p).quiet

/-! ### Honest runs -/

/-- `content h` is the content that hash `h` names. A client sets a hash only
over its content. -/
def BlockEdit.Honest (content : CacheBlockHash → BlockRows) (block : CacheBlock) : BlockEdit → Prop
  | .append _ _ => True
  | .setContentHash none => True
  | .setContentHash (some h) => block.rows = content h

def HonestEdits (content : CacheBlockHash → BlockRows) (shares : Shares) :
    List BlockEdit → CacheBlock → Statics → Prop
  | [], _, _ => True
  | e :: es, block, rt => e.Honest content block ∧
      HonestEdits content shares es (e.apply shares block rt).1 (e.apply shares block rt).2

def Op.Honest (content : CacheBlockHash → BlockRows) (env : Ambient) (p : BlockPoolInner) : Op → Prop
  | .withBlockMut b es =>
    ∀ block, p.blocks[b]? = some block → HonestEdits content env.shares es block p.rt
  | _ => True

/-- What the blocks of the last registration under each hash held then. -/
abbrev Registered := CacheBlockHash → List (BlockId × Option (BlockRows × Option CacheBlockHash))

def Op.registeredAfter (p : BlockPoolInner) (reg : Registered) : Op → Registered
  | .registerPrefix h bs => Function.update reg h (bs.map fun b => (b, p.viewOf b))
  | _ => reg

/-- The states of a run in which clients are honest, with what was registered. -/
inductive PrefixRun (content : CacheBlockHash → BlockRows) : BlockPoolInner → Registered → Prop where
  | new {blockCount blockCapacityTokens vectorLen : ℕ} {rt : Statics} {p : BlockPoolInner} :
      BlockPoolInner.new blockCount blockCapacityTokens vectorLen rt = .ok p →
      PrefixRun content p fun _ => []
  | step {p : BlockPoolInner} {reg : Registered} (env : Ambient) (op : Op) :
      PrefixRun content p reg → op.Honest content env p →
      PrefixRun content (op.run env p) (op.registeredAfter p reg)

/-- A block that carries a hash holds its content; an entry of the index names
the blocks that were registered, with the content of their hashes. -/
structure PrefixInv (content : CacheBlockHash → BlockRows) (p : BlockPoolInner)
    (reg : Registered) : Prop where
  hashed : ∀ (b : BlockId) (block : CacheBlock) (h : CacheBlockHash), p.blocks[b]? = some block →
    block.contentHash = some h → block.rows = content h
  entries : ∀ (h : CacheBlockHash) (e : PrefixEntry), p.prefixes[h]? = some e →
    e.terminalHash = some h ∧ reg h = e.blocks.map fun snapshot =>
      (snapshot.blockId, some (content snapshot.contentHash, some snapshot.contentHash))

variable {content : CacheBlockHash → BlockRows} {reg : Registered}

theorem PrefixInv.quiet (h : PrefixInv content p reg) (hq : Quiet p p') :
    PrefixInv content p' reg := by
  refine ⟨fun b block hash hb hh => ?_, fun hash e he => h.entries hash e (hq.prefixes ▸ he)⟩
  obtain ⟨a, source, ha, hv⟩ := hq.hashes b block hb (by simp [hh])
  have hrows : block.rows = source.rows := congrArg Prod.fst hv
  have hhash : block.contentHash = source.contentHash := congrArg Prod.snd hv
  rw [hrows]
  exact h.hashed a source hash ha (hhash ▸ hh)

/-- An honest edit leaves a block whose hash, if it has one, names its rows. -/
theorem BlockEdit.apply_hashed (shares : Shares) (e : BlockEdit) {block : CacheBlock} {rt : Statics}
    (hblock : ∀ h, block.contentHash = some h → block.rows = content h)
    (he : e.Honest content block) (h : CacheBlockHash)
    (hh : (e.apply shares block rt).1.contentHash = some h) :
    (e.apply shares block rt).1.rows = content h := by
  cases e with
  | append key value =>
    simp only [BlockEdit.apply] at hh ⊢
    cases ha : block.append shares key value rt with
    | error err =>
      simp only [ha] at hh ⊢
      exact hblock h hh
    | ok r =>
      obtain ⟨i, block', rt'⟩ := r
      obtain ⟨-, -, -, -, storage, -, rfl⟩ := CacheBlock.append_ok ha
      simp [ha] at hh
  | setContentHash contentHash =>
    have hset : contentHash = some h := hh
    subst hset
    exact he

theorem runEdits_hashed (shares : Shares) : ∀ (es : List BlockEdit) {block : CacheBlock}
    {rt : Statics}, (∀ h, block.contentHash = some h → block.rows = content h) →
    HonestEdits content shares es block rt → ∀ h,
    (runEdits shares es block rt).1.contentHash = some h →
      (runEdits shares es block rt).1.rows = content h
  | [], _, _, hblock, _ => hblock
  | e :: es, _, _, hblock, he =>
    runEdits_hashed shares es (e.apply_hashed shares hblock he.1) he.2

theorem PrefixInv.withBlockMut (h : PrefixInv content p reg) {es : List BlockEdit}
    (hon : Op.Honest content env p (.withBlockMut b es)) :
    PrefixInv content (Op.run env p (.withBlockMut b es)) reg := by
  rcases withBlockMut_cases p b (runEdits env.shares es) with he | ⟨block, hb, -, he⟩
  · rw [Op.run, he]
    exact h
  · rw [Op.run, he]
    refine ⟨fun a block' hash ha hh => ?_, h.entries⟩
    change (p.blocks.insert b _)[a]? = _ at ha
    rw [getElem?_insert_ite] at ha
    by_cases hab : b = a
    · rw [if_pos hab, Option.some.injEq] at ha
      subst ha
      exact runEdits_hashed env.shares es (fun hash hh => h.hashed b block hash hb hh) (hon block hb)
        hash hh
    · rw [if_neg hab] at ha
      exact h.hashed a block' hash ha hh

/-! ### Registering and looking up -/

/-- What `register_prefix` remembers of a block: it has a reference and a
hash. -/
def Snapshots (p : BlockPoolInner) (b : BlockId) (snapshot : PrefixBlockSnapshot) : Prop :=
  snapshot.blockId = b ∧ ∃ block, p.blocks[b]? = some block ∧ 0 < block.refCount ∧
    block.contentHash = some snapshot.contentHash

theorem prefixEntryFor_ok : ∀ {bs : List BlockId} {e : PrefixEntry},
    p.prefixEntryFor bs = some e → List.Forall₂ p.Snapshots bs e.blocks
  | [], e, h => by
    simp only [prefixEntryFor, List.mapM_nil, Option.pure_def, Option.bind_eq_bind, Option.bind_some,
      Option.some.injEq] at h
    subst h
    exact .nil
  | b :: bs, e, h => by
    simp only [prefixEntryFor, List.mapM_cons, Option.pure_def, Option.bind_eq_bind,
      Option.bind_eq_some_iff, Option.some.injEq] at h
    obtain ⟨_, ⟨snapshot, ⟨block, hb, hs⟩, rest, hr, rfl⟩, rfl⟩ := h
    split at hs
    · cases hs
    · rename_i hpos
      simp only [Option.bind_eq_some_iff, Option.some.injEq] at hs
      obtain ⟨hash, hh, rfl⟩ := hs
      have ih : p.prefixEntryFor bs = some ⟨rest⟩ := by
        simp only [prefixEntryFor, Option.pure_def, Option.bind_eq_bind, hr, Option.bind_some]
      exact .cons ⟨rfl, block, hb, Nat.pos_of_ne_zero hpos, hh⟩ (prefixEntryFor_ok ih)

/-- Where hashes name rows, a remembered block holds the content of its hash. -/
theorem PrefixInv.snapshot_view (h : PrefixInv content p reg) {snapshot : PrefixBlockSnapshot}
    (hs : p.Snapshots b snapshot) :
    p.viewOf b = some (content snapshot.contentHash, some snapshot.contentHash) := by
  obtain ⟨-, block, hb, -, hh⟩ := hs
  rw [viewOf_eq hb, CacheBlock.view, h.hashed b block _ hb hh, hh]

theorem PrefixInv.registered_eq (h : PrefixInv content p reg) : ∀ {bs : List BlockId}
    {snapshots : List PrefixBlockSnapshot}, List.Forall₂ p.Snapshots bs snapshots →
    (bs.map fun b => (b, p.viewOf b)) = snapshots.map fun snapshot =>
      (snapshot.blockId, some (content snapshot.contentHash, some snapshot.contentHash))
  | _, _, .nil => rfl
  | _, _, .cons hs hr => by
    rw [List.map_cons, List.map_cons, h.registered_eq hr, h.snapshot_view hs, hs.1]

theorem PrefixInv.registerPrefix (h : PrefixInv content p reg) (hash : CacheBlockHash)
    (bs : List BlockId) :
    PrefixInv content (p.registerPrefix hash bs)
      (Op.registeredAfter p reg (.registerPrefix hash bs)) := by
  -- without an entry there is nothing to say about this hash
  have herase : PrefixInv content { p with prefixes := p.prefixes.erase hash }
      (Op.registeredAfter p reg (.registerPrefix hash bs)) := by
    refine ⟨h.hashed, fun hash' e he => ?_⟩
    rw [getElem?_erase_ite] at he
    by_cases hne : hash = hash'
    · simp [hne] at he
    · rw [if_neg hne] at he
      rw [Op.registeredAfter, Function.update_of_ne (Ne.symm hne)]
      exact h.entries hash' e he
  unfold BlockPoolInner.registerPrefix
  cases hentry : p.prefixEntryFor bs with
  | none => exact herase
  | some entry =>
    by_cases hterm : entry.terminalHash = some hash
    swap
    · simp only [hterm, ↓reduceIte]
      exact herase
    simp only [hterm, ↓reduceIte]
    refine ⟨h.hashed, fun hash' e he => ?_⟩
    rw [getElem?_insert_ite] at he
    by_cases hne : hash = hash'
    · subst hne
      rw [if_pos rfl, Option.some.injEq] at he
      subst he
      rw [Op.registeredAfter, Function.update_self]
      exact ⟨hterm, h.registered_eq (prefixEntryFor_ok hentry)⟩
    · rw [if_neg hne] at he
      rw [Op.registeredAfter, Function.update_of_ne (Ne.symm hne)]
      exact h.entries hash' e he

theorem new_prefixInv {blockCount blockCapacityTokens vectorLen : ℕ} {rt : Statics}
    (h : BlockPoolInner.new blockCount blockCapacityTokens vectorLen rt = .ok p) :
    PrefixInv content p fun _ => [] := by
  simp only [BlockPoolInner.new, throw_bind, guard_eq_ok, bind_eq_ok, pure_eq_ok] at h
  obtain ⟨-, ⟨bs, rt'⟩, hb, rfl⟩ := h
  obtain ⟨hids, hfresh⟩ := newBlocks_ok hb
  have hn : (bs.map (·.id)).Nodup := by
    rw [hids]
    exact List.nodup_range'
  refine ⟨fun a block hash ha hh => ?_, fun hash e he => ?_⟩
  · have hnone := (hfresh block (mem_of_getElem?_foldl_insert hn ha).1).2
    rw [hnone] at hh
    cases hh
  · simp at he

theorem prefixRun_inv (h : PrefixRun content p reg) : PrefixInv content p reg := by
  induction h with
  | new hn => exact new_prefixInv hn
  | @step p reg env op _ hon ih =>
    have hquiet : op.IsQuiet → PrefixInv content (op.run env p) reg :=
      fun hq => ih.quiet (op.quiet env hq p)
    cases op with
    | registerPrefix hash bs => exact ih.registerPrefix hash bs
    | withBlockMut b es => exact ih.withBlockMut hon
    | _ => exact hquiet trivial

/-- The lookup's own check, block by block. -/
theorem lookupPrefix_eq_some {hash : CacheBlockHash} {ids : List BlockId}
    (h : p.lookupPrefix hash = some ids) : ∃ e, p.prefixes[hash]? = some e ∧ ids = e.blockIds ∧
      ∀ snapshot ∈ e.blocks, p.Snapshots snapshot.blockId snapshot := by
  unfold lookupPrefix at h
  cases he : p.prefixes[hash]? with
  | none => simp [he] at h
  | some e =>
    simp only [he, prefixBlocksMatch, Bool.and_eq_true, decide_eq_true_eq, List.all_eq_true,
      Option.ite_none_right_eq_some, Option.some.injEq] at h
    obtain ⟨⟨-, hall⟩, rfl⟩ := h
    refine ⟨e, rfl, rfl, fun snapshot hm => ⟨rfl, ?_⟩⟩
    have hcheck := hall snapshot hm
    cases hb : p.blocks[snapshot.blockId]? with
    | none => simp [hb] at hcheck
    | some block =>
      simp only [hb, Option.any_some, Bool.and_eq_true, decide_eq_true_eq] at hcheck
      exact ⟨block, rfl, hcheck⟩

/-- **A prefix lookup is sound.** Where clients set a hash only over its content,
a lookup answers the blocks that were registered last under that hash; each has
a reference and the rows and hash it had at registration, and the last one
holds the content of the hash. A registered block that has no reference or
other rows or another hash makes the lookup a miss. -/
theorem lookupPrefix_sound (h : PrefixRun content p reg) (hash : CacheBlockHash) :
    (∀ ids, p.lookupPrefix hash = some ids →
      ids = (reg hash).map (·.1) ∧
      (∀ id ∈ ids, 0 < p.refCountOf id) ∧
      (∀ id view, (id, view) ∈ reg hash → p.viewOf id = view) ∧
      ∃ id, ids.getLast? = some id ∧ p.viewOf id = some (content hash, some hash)) ∧
    ∀ id view, (id, view) ∈ reg hash → p.refCountOf id = 0 ∨ p.viewOf id ≠ view →
      p.lookupPrefix hash = none := by
  have hinv := prefixRun_inv h
  have hit : ∀ ids, p.lookupPrefix hash = some ids →
      ids = (reg hash).map (·.1) ∧ (∀ id ∈ ids, 0 < p.refCountOf id) ∧
      (∀ id view, (id, view) ∈ reg hash → p.viewOf id = view) ∧
      ∃ id, ids.getLast? = some id ∧ p.viewOf id = some (content hash, some hash) := by
    intro ids hl
    obtain ⟨e, he, rfl, hall⟩ := lookupPrefix_eq_some hl
    obtain ⟨hterm, hreg⟩ := hinv.entries hash e he
    refine ⟨?_, ?_, ?_, ?_⟩
    · rw [hreg, List.map_map]
      rfl
    · intro id hid
      obtain ⟨snapshot, hm, rfl⟩ := List.mem_map.mp hid
      obtain ⟨-, block, hb, hpos, -⟩ := hall snapshot hm
      rw [refCountOf_eq hb]
      exact hpos
    · intro id view hm
      rw [hreg] at hm
      obtain ⟨snapshot, hmem, heq⟩ := List.mem_map.mp hm
      obtain ⟨rfl, rfl⟩ := Prod.mk.inj heq
      exact hinv.snapshot_view (hall snapshot hmem)
    · obtain ⟨snapshot, hlast, rfl⟩ := Option.map_eq_some_iff.mp hterm
      refine ⟨snapshot.blockId, ?_, hinv.snapshot_view (hall snapshot (List.mem_of_getLast? hlast))⟩
      rw [PrefixEntry.blockIds, List.getLast?_map, hlast]
      rfl
  refine ⟨hit, fun id view hm hbad => ?_⟩
  cases hl : p.lookupPrefix hash with
  | none => rfl
  | some ids =>
    exfalso
    obtain ⟨rfl, hpos, hview, -⟩ := hit ids hl
    rcases hbad with h0 | hne
    · have := hpos id (List.mem_map.mpr ⟨(id, view), hm, rfl⟩)
      omega
    · exact hne (hview id view hm)

/-- The rows of two chunks of a prompt, under their hashes. -/
def twoContents (hash : CacheBlockHash) : BlockRows :=
  if hash = 6 then ⟨1, 1, [F32.zero], [F32.zero]⟩ else ⟨1, 1, [⟨1⟩], [⟨1⟩]⟩

/-- Two blocks, filled with one row each, hashed and registered, are found. -/
theorem lookupPrefix_sound_two_blocks :
    ∃ p₀, BlockPoolInner.new 2 1 1 Statics.initial = .ok p₀ ∧
      ∃ p, p = [Op.allocate,
          .withBlockMut 2 [.append [F32.zero] [F32.zero], .setContentHash (some 6)], .allocate,
          .withBlockMut 1 [.append [⟨1⟩] [⟨1⟩], .setContentHash (some 7)],
          .registerPrefix 7 [2, 1]].foldl (Op.run .plain) p₀ ∧
        p.lookupPrefix 7 = some [2, 1] ∧ 0 < p.refCountOf 2 ∧
        p.viewOf 1 = some (⟨1, 1, [⟨1⟩], [⟨1⟩]⟩, some 7) := by
  refine ⟨_, rfl, _, rfl, by decide +kernel, ?_⟩
  have h₀ : PrefixRun twoContents _ _ :=
    .new (show BlockPoolInner.new 2 1 1 Statics.initial = .ok _ from rfl)
  have h₁ := PrefixRun.step .plain .allocate h₀ trivial
  have h₂ := PrefixRun.step .plain
    (.withBlockMut 2 [.append [F32.zero] [F32.zero], .setContentHash (some 6)]) h₁
    (fun block hb => by
      cases hb
      exact ⟨trivial, rfl, trivial⟩)
  have h₃ := PrefixRun.step .plain .allocate h₂ trivial
  have h₄ := PrefixRun.step .plain
    (.withBlockMut 1 [.append [⟨1⟩] [⟨1⟩], .setContentHash (some 7)]) h₃
    (fun block hb => by
      cases hb
      exact ⟨trivial, rfl, trivial⟩)
  have h₅ := PrefixRun.step .plain (.registerPrefix 7 [2, 1]) h₄ trivial
  obtain ⟨-, href, -, id, hlast, hview⟩ := (lookupPrefix_sound h₅ 7).1 [2, 1] (by decide +kernel)
  cases hlast
  exact ⟨href 2 List.mem_cons_self, hview⟩

/-- A block of a registered prefix is freed, allocated again, filled with the
same row and hashed again: the prefix is served, not missed. -/
theorem lookupPrefix_refilled :
    ∃ p₀, BlockPoolInner.new 2 4 1 Statics.initial = .ok p₀ ∧
      ∃ p₁, p₁ = [Op.allocate, .withBlockMut 2 [.append [F32.zero] [F32.zero],
          .setContentHash (some 7)], .registerPrefix 7 [2]].foldl (Op.run .plain) p₀ ∧
        p₁.lookupPrefix 7 = some [2] ∧
        ∃ p₂, p₂ = Op.run .plain p₁ (.release 2) ∧ 2 ∈ p₂.freeList ∧ p₂.lookupPrefix 7 = none ∧
          ∃ p₃, p₃ = [Op.allocate, .withBlockMut 2 [.append [F32.zero] [F32.zero],
              .setContentHash (some 7)]].foldl (Op.run .plain) p₂ ∧
            p₃.lookupPrefix 7 = some [2] ∧
            ∃ reg, PrefixRun (fun _ => ⟨1, 1, [F32.zero], [F32.zero]⟩) p₃ reg := by
  refine ⟨_, rfl, _, rfl, by decide +kernel, _, rfl, by decide +kernel, by decide +kernel, _, rfl,
    by decide +kernel, ?_⟩
  have h₀ : PrefixRun (fun _ => ⟨1, 1, [F32.zero], [F32.zero]⟩) _ _ :=
    .new (show BlockPoolInner.new 2 4 1 Statics.initial = .ok _ from rfl)
  have h₁ := PrefixRun.step .plain .allocate h₀ trivial
  have h₂ := PrefixRun.step .plain
    (.withBlockMut 2 [.append [F32.zero] [F32.zero], .setContentHash (some 7)]) h₁
    (fun block hb => by
      cases hb
      exact ⟨trivial, rfl, trivial⟩)
  have h₃ := PrefixRun.step .plain (.registerPrefix 7 [2]) h₂ trivial
  have h₄ := PrefixRun.step .plain .allocate (.step .plain (.release 2) h₃ trivial) trivial
  exact ⟨_, .step .plain (.withBlockMut 2 [.append [F32.zero] [F32.zero], .setContentHash (some 7)])
    h₄ (fun block hb => by
      cases hb
      exact ⟨trivial, rfl, trivial⟩)⟩

end BlockPoolInner
end KirAi.KvCache
