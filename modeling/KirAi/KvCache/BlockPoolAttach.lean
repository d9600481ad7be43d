/-
# Attaching a prefix is all or nothing

`attach_prefix_to_session` lists the blocks of a registered chain one after another and
gives up at the first one that cannot be listed, without taking back what it has listed. The
lookup before it has checked that every block of the chain has a reference, and listing a
block takes no reference away, so nothing stops the loop halfway (`attachAll_ok`); this
holds in every run, also where clients released blocks that sessions still list.

A block may stand in the chain twice, or be the session's own already: its count goes up
once, and only if the session did not own it. Counts saturate at the largest `usize`.

Key definitions: `Attached`.
Key theorems: `attachAll_ok`, `attachPrefix_all_or_nothing`.
-/
import KirAi.KvCache.BlockPoolPrefix

namespace KirAi.KvCache
namespace BlockPoolInner

open Lib

variable {p p' : BlockPoolInner} {a b : BlockId} {block : CacheBlock} {s : SessionId}
  {t : SessionBlockTable}

/-- A block after `ids` were attached to a session with the table `t`. -/
def attachedBlock (t : SessionBlockTable) (ids : List BlockId) (b : BlockId) (access : ℕ)
    (block : CacheBlock) : CacheBlock :=
  { block with
    refCount := if b ∈ ids ∧ t.ownsBlock b = false then satAdd block.refCount 1 else block.refCount
    lastAccess := access }

/-- The session that had the table `t` lists `ids` after what it listed, and owns them with
one reference for each that it did not own; nothing else has changed but access times. -/
structure Attached (p : BlockPoolInner) (s : SessionId) (t : SessionBlockTable)
    (ids : List BlockId) (p' : BlockPoolInner) : Prop where
  table : ∃ t', p'.sessions[s]? = some t' ∧
    t'.blockTable.blocks = t.blockTable.blocks ++ ids ∧
    ∀ b, t'.ownsBlock b = true ↔ t.ownsBlock b = true ∨ b ∈ ids
  others : ∀ s', s' ≠ s → p'.sessions[s']? = p.sessions[s']?
  blocks : ∀ b, ∃ access, p'.blocks[b]? = p.blocks[b]?.map (attachedBlock t ids b access)
  freeList : p'.freeList = p.freeList
  prefixes : p'.prefixes = p.prefixes

/-- What listing one block does, where nothing stops it. -/
theorem appendInner_ok (hb : p.blocks[b]? = some block) (hpos : 0 < block.refCount) (hne : b ≠ 0)
    (ht : p.sessions[s]? = some t) (r : Bool) :
    p.appendBlockToSessionInner s b r = (.ok (), p.withListing s t b
      (if r && !t.ownsBlock b then block.incrementRefCount else block)) := by
  unfold appendBlockToSessionInner
  simp only [hb, (Nat.pos_iff_ne_zero.1 hpos), ↓reduceIte, BlockPoolInner.nextAccess, ht,
    SessionBlockTable.appendOwnedBlock_ok hne]
  rfl

theorem Attached.nil (ht : p.sessions[s]? = some t) : Attached p s t [] p := by
  refine ⟨⟨t, ht, by simp, by simp⟩, fun _ _ => rfl, fun b => ?_, rfl, rfl⟩
  cases hb : p.blocks[b]? with
  | none => exact ⟨0, rfl⟩
  | some block => exact ⟨block.lastAccess, by simp [attachedBlock]⟩

/-- One more block, listed before the others. -/
theorem Attached.cons {ids : List BlockId} (hb : p.blocks[b]? = some block)
    (h : Attached (p.withListing s t b
      (if true && !t.ownsBlock b then block.incrementRefCount else block)) s
      ((t.listing b).touch (satAdd p.accessClock 1)) ids p') : Attached p s t (b :: ids) p' := by
  have howns : ∀ a, ((t.listing b).touch (satAdd p.accessClock 1)).ownsBlock a = true ↔
      a = b ∨ t.ownsBlock a = true := SessionBlockTable.listing_ownsBlock b
  obtain ⟨t', ht', hlist, howned⟩ := h.table
  refine ⟨⟨t', ht', ?_, fun a => ?_⟩, fun s' hs' => ?_, fun a => ?_, h.freeList, h.prefixes⟩
  · rw [hlist]
    exact List.append_assoc _ _ _
  · rw [howned a, howns a, List.mem_cons]
    tauto
  · rw [h.others s' hs', BlockPoolInner.withListing, getElem?_insert_ite, if_neg hs'.symm]
  · obtain ⟨access, ha⟩ := h.blocks a
    rw [BlockPoolInner.withListing, getElem?_insert_ite] at ha
    by_cases hab : b = a
    · -- the session owns the block from here on, so its count does not change again
      subst hab
      have hown := (howns b).2 (.inl rfl)
      rw [if_pos rfl, Option.map_some] at ha
      refine ⟨access, ?_⟩
      rw [ha, hb, Option.map_some, Option.some.injEq]
      cases ho : t.ownsBlock b <;> simp [attachedBlock, hown, ho, CacheBlock.touch,
        CacheBlock.incrementRefCount]
    · have hsame : ((t.listing b).touch (satAdd p.accessClock 1)).ownsBlock a = t.ownsBlock a := by
        rw [Bool.eq_iff_iff, howns a]
        exact or_iff_right (Ne.symm hab)
      rw [if_neg hab] at ha
      refine ⟨access, ?_⟩
      rw [ha]
      congr 1
      funext block'
      simp only [attachedBlock, hsame, List.mem_cons, Ne.symm hab, false_or]

/-- The loop lists all the blocks, if each of them has a reference before it starts. -/
theorem attachAll_ok : ∀ {ids : List BlockId} {p : BlockPoolInner} {t : SessionBlockTable},
    Shape p → p.sessions[s]? = some t →
    (∀ b ∈ ids, ∃ block, p.blocks[b]? = some block ∧ 0 < block.refCount) →
    ∃ p', attachAll s ids p = (.ok (), p') ∧ Attached p s t ids p'
  | [], p, _, _, ht, _ => ⟨p, rfl, .nil ht⟩
  | b :: ids, p, t, h, ht, hids => by
    obtain ⟨block, hb, hpos⟩ := hids b List.mem_cons_self
    have hmem : b ∈ p.blocks :=
      Std.ExtTreeMap.mem_iff_isSome_getElem?.2 (by rw [hb]; exact Option.isSome_some)
    have happ := appendInner_ok hb hpos (h.ids b hmem) ht true
    have hshape := h.updates (appendInner_updates p s b true)
    rw [happ] at hshape
    -- listing a block takes no reference away
    have hkeep : ∀ c ∈ ids, ∃ block', (p.withListing s t b
        (if true && !t.ownsBlock b then block.incrementRefCount else block)).blocks[c]? =
          some block' ∧ 0 < block'.refCount := by
      intro c hc
      rw [BlockPoolInner.withListing, getElem?_insert_ite]
      by_cases hbc : b = c
      · rw [if_pos hbc]
        refine ⟨_, rfl, ?_⟩
        change 0 < (if true && !t.ownsBlock b then block.incrementRefCount else block).refCount
        split
        · exact lt_min (Nat.succ_pos _) (by decide)
        · exact hpos
      · rw [if_neg hbc]
        exact hids c (List.mem_cons_of_mem b hc)
    have hsession : (p.withListing s t b
        (if true && !t.ownsBlock b then block.incrementRefCount else block)).sessions[s]? =
          some ((t.listing b).touch (satAdd p.accessClock 1)) := by
      rw [BlockPoolInner.withListing, getElem?_insert_ite, if_pos rfl]
    obtain ⟨p', hall, hattached⟩ := attachAll_ok hshape hsession hkeep
    exact ⟨p', by rw [attachAll, happ]; exact hall, hattached.cons hb⟩

/-- **Attaching a prefix is all or nothing.** In every state of every run it either answers
the chain that is registered under the hash, and has listed exactly this, or answers
`None`, and has changed nothing. -/
theorem attachPrefix_all_or_nothing (h : Runs p) (s : SessionId) (hash : CacheBlockHash) :
    (∃ ids t e, (p.attachPrefixToSession s hash).1 = some ids ∧ p.sessions[s]? = some t ∧
      p.prefixes[hash]? = some e ∧ ids = e.blockIds ∧
      Attached p s t ids (p.attachPrefixToSession s hash).2) ∨
    ((p.attachPrefixToSession s hash).1 = none ∧ (p.attachPrefixToSession s hash).2 = p) := by
  unfold BlockPoolInner.attachPrefixToSession
  cases ht : p.sessions[s]? with
  | none =>
    have hc : p.sessions.contains s = false := by
      rw [Std.ExtTreeMap.contains_eq_isSome_getElem?, ht, Option.isSome_none]
    exact .inr ⟨by simp [hc], by simp [hc]⟩
  | some t =>
    have hc : p.sessions.contains s = true := by
      rw [Std.ExtTreeMap.contains_eq_isSome_getElem?, ht, Option.isSome_some]
    simp only [hc, not_true_eq_false, ↓reduceIte]
    cases hl : p.lookupPrefix hash with
    | none => exact .inr ⟨rfl, rfl⟩
    | some ids =>
      obtain ⟨e, he, rfl, hall⟩ := lookupPrefix_eq_some hl
      have hblocks : ∀ b ∈ e.blockIds, ∃ block, p.blocks[b]? = some block ∧ 0 < block.refCount := by
        intro b hb
        obtain ⟨snapshot, hm, rfl⟩ := List.mem_map.1 hb
        obtain ⟨-, block, hblock, hpos, -⟩ := hall snapshot hm
        exact ⟨block, hblock, hpos⟩
      obtain ⟨p', hattach, hattached⟩ := attachAll_ok (runs_shape h) ht hblocks
      simp only [hattach]
      exact .inl ⟨_, t, e, rfl, rfl, he, rfl, hattached⟩

/-- A chain in which a block stands twice, attached to a session that owns nothing. -/
theorem attachPrefix_all_or_nothing_listed_twice :
    ∃ p₀, BlockPoolInner.new 2 4 1 Statics.initial = .ok p₀ ∧
      ∃ p, p = [Op.createSession, .allocateForSession 1, .withBlockMut 2 [.setContentHash (some 7)],
          .registerPrefix 7 [2, 2], .createSession].foldl (Op.run .plain) p₀ ∧
        (p.attachPrefixToSession 2 7).1 = some [2, 2] ∧
        (p.attachPrefixToSession 2 7).2.refCountOf 2 = 2 ∧
        ∃ t, Attached p 2 t [2, 2] (p.attachPrefixToSession 2 7).2 := by
  refine ⟨_, rfl, _, rfl, by decide +kernel, by decide +kernel, ?_⟩
  have h₀ : Runs _ := .new (show BlockPoolInner.new 2 4 1 Statics.initial = .ok _ from rfl)
  have hrun := ((((h₀.step .plain .createSession).step .plain (.allocateForSession 1)).step .plain
    (.withBlockMut 2 [.setContentHash (some 7)])).step .plain (.registerPrefix 7 [2, 2])).step .plain
    .createSession
  rcases attachPrefix_all_or_nothing hrun 2 7 with ⟨ids, t, e, hids, -, -, -, hattached⟩ | ⟨hnone, -⟩
  · have heq : some ids = some [2, 2] := hids.symm.trans (by decide +kernel)
    cases heq
    exact ⟨t, hattached⟩
  · exact absurd (hnone.symm.trans (show _ = some [2, 2] by decide +kernel)) (by simp)

end BlockPoolInner

end KirAi.KvCache
