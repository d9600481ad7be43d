/-
# Session block tables

`block_table.rs`: the blocks a session lists, in order and possibly more than
once, and the set of blocks it owns a reference to.
-/
import KirAi.KvCache.Basic
import Mathlib.Data.List.Basic
import Std.Data.ExtTreeSet

namespace KirAi.KvCache

abbrev SessionId := ℕ

structure BlockTable where
  blocks : List BlockId
deriving DecidableEq, Repr

namespace BlockTable

def new : BlockTable := ⟨[]⟩

def append (t : BlockTable) (blockId : BlockId) : Except KvCacheError BlockTable :=
  if BlockId.isInvalid blockId then .error .invalidShape else .ok ⟨t.blocks ++ [blockId]⟩

def get (t : BlockTable) (index : ℕ) : Option BlockId := t.blocks[index]?

/-- The id that was at `index`, and the table with `blockId` there. -/
def replace (t : BlockTable) (index : ℕ) (blockId : BlockId) :
    Except KvCacheError (BlockId × BlockTable) :=
  if BlockId.isInvalid blockId then .error .invalidShape
  else match t.blocks[index]? with
    | none => .error .invalidShape
    | some previous => .ok (previous, ⟨t.blocks.set index blockId⟩)

def contains (t : BlockTable) (blockId : BlockId) : Bool := t.blocks.contains blockId

end BlockTable

structure SessionBlockTable where
  sessionId : SessionId
  createdAt : ℕ
  lastAccess : ℕ
  blockTable : BlockTable
  ownedBlocks : Std.ExtTreeSet BlockId

namespace SessionBlockTable

def new (sessionId : SessionId) (createdAt : ℕ) : Except KvCacheError SessionBlockTable :=
  if sessionId = 0 then .error .invalidShape
  else .ok ⟨sessionId, createdAt, createdAt, .new, ∅⟩

def isEmpty (t : SessionBlockTable) : Bool := t.blockTable.blocks.isEmpty

def readBlock (t : SessionBlockTable) (index : ℕ) : Option BlockId := t.blockTable.get index

def ownsBlock (t : SessionBlockTable) (blockId : BlockId) : Bool := t.ownedBlocks.contains blockId

/-- Lists the block once more, and says whether the session owns it only now. -/
def appendOwnedBlock (t : SessionBlockTable) (blockId : BlockId) :
    Except KvCacheError (Bool × SessionBlockTable) :=
  if BlockId.isInvalid blockId then .error .invalidShape
  else match t.blockTable.append blockId with
    | .error e => .error e
    | .ok blockTable =>
      .ok (!t.ownsBlock blockId, { t with blockTable, ownedBlocks := t.ownedBlocks.insert blockId })

/-- Puts `blockId` at `index`, and says whether the block that was there is
listed no more. -/
def replaceOwnedBlock (t : SessionBlockTable) (index : ℕ) (blockId : BlockId) :
    Except KvCacheError ((BlockId × Bool) × SessionBlockTable) :=
  match t.blockTable.replace index blockId with
  | .error e => .error e
  | .ok (previous, blockTable) =>
    let owned := t.ownedBlocks.insert blockId
    let shouldReleasePrevious := !blockTable.contains previous
    .ok ((previous, shouldReleasePrevious), { t with
      blockTable
      ownedBlocks := if shouldReleasePrevious then owned.erase previous else owned })

def touch (t : SessionBlockTable) (lastAccess : ℕ) : SessionBlockTable := { t with lastAccess }

/-! ### The owned set is the set of listed ids -/

/-- What every session of a pool keeps. -/
def OwnsListed (t : SessionBlockTable) : Prop :=
  ∀ b, t.ownsBlock b = true ↔ b ∈ t.blockTable.blocks

variable {t t' : SessionBlockTable}

theorem new_ownsListed {sid at' : ℕ} (h : new sid at' = .ok t) :
    t.OwnsListed ∧ t.sessionId = sid ∧ t.blockTable.blocks = [] := by
  unfold new at h
  split at h
  · cases h
  · cases h
    exact ⟨fun b => by simp [ownsBlock, BlockTable.new], rfl, rfl⟩

/-- The table with one more listing of `b`. -/
def listing (t : SessionBlockTable) (b : BlockId) : SessionBlockTable :=
  { t with blockTable := ⟨t.blockTable.blocks ++ [b]⟩, ownedBlocks := t.ownedBlocks.insert b }

theorem appendOwnedBlock_ok {b : BlockId} (hb : b ≠ 0) :
    t.appendOwnedBlock b = .ok (!t.ownsBlock b, t.listing b) := by
  have hi : BlockId.isInvalid b = false := by simpa [BlockId.isInvalid] using hb
  simp [appendOwnedBlock, BlockTable.append, hi, listing]

theorem contains_insert_iff (s : Std.ExtTreeSet BlockId) (b a : BlockId) :
    (s.insert b).contains a = true ↔ a = b ∨ s.contains a = true := by
  simp only [Std.ExtTreeSet.contains_insert, Bool.or_eq_true, beq_iff_eq, Nat.compare_eq_eq]
  exact or_congr_left eq_comm

theorem contains_erase_iff (s : Std.ExtTreeSet BlockId) (b a : BlockId) :
    (s.erase b).contains a = true ↔ a ≠ b ∧ s.contains a = true := by
  simp only [Std.ExtTreeSet.contains_erase, Bool.and_eq_true, bne_iff_ne, ne_eq, Nat.compare_eq_eq]
  exact and_congr_left fun _ => not_congr eq_comm

theorem listing_ownsBlock (b a : BlockId) :
    (t.listing b).ownsBlock a = true ↔ a = b ∨ t.ownsBlock a = true := contains_insert_iff _ _ _

theorem OwnsListed.listing (h : t.OwnsListed) (b : BlockId) : (t.listing b).OwnsListed := by
  intro a
  rw [listing_ownsBlock, h a, SessionBlockTable.listing, List.mem_append, List.mem_singleton]
  exact or_comm

/-- What a replacement does: the block that was listed at `index` comes back,
and the session owns the new block and all it owned, less the old block when it
is listed no more. -/
theorem replaceOwnedBlock_ok {index : ℕ} {b previous : BlockId} (hb : b ≠ 0) (h : t.OwnsListed)
    (hp : t.readBlock index = some previous) :
    ∃ t', t.replaceOwnedBlock index b =
        .ok ((previous, !t'.ownsBlock previous), t') ∧
      t'.OwnsListed ∧ t'.sessionId = t.sessionId ∧
      t'.blockTable.blocks = t.blockTable.blocks.set index b ∧
      (∀ a, a ≠ previous → (t'.ownsBlock a = true ↔ a = b ∨ t.ownsBlock a = true)) := by
  have hi : BlockId.isInvalid b = false := by simpa [BlockId.isInvalid] using hb
  have hp' : t.blockTable.blocks[index]? = some previous := hp
  have hlt : index < t.blockTable.blocks.length := (List.getElem?_eq_some_iff.mp hp').1
  -- the ids listed after the replacement
  have hmem : ∀ a, a ≠ previous →
      (a ∈ t.blockTable.blocks.set index b ↔ a = b ∨ a ∈ t.blockTable.blocks) := by
    intro a ha
    constructor
    · intro hm
      rcases List.mem_or_eq_of_mem_set hm with h1 | h1
      · exact .inr h1
      · exact .inl h1
    · rintro (rfl | hm)
      · exact List.mem_set hlt _
      · obtain ⟨j, hj⟩ := List.mem_iff_getElem?.mp hm
        refine List.mem_iff_getElem?.mpr ⟨j, ?_⟩
        rw [List.getElem?_set_ne, hj]
        rintro rfl
        rw [hj] at hp'
        exact ha (Option.some.inj hp')
  have howns : t.ownsBlock previous = true := (h previous).mpr (List.mem_iff_getElem?.mpr ⟨_, hp'⟩)
  simp only [replaceOwnedBlock, BlockTable.replace, BlockTable.contains, hi, hp',
    Bool.false_eq_true, ↓reduceIte]
  by_cases hc : previous ∈ t.blockTable.blocks.set index b
  · -- still listed elsewhere: it stays owned
    have howned : (t.ownedBlocks.insert b).contains previous = true :=
      (contains_insert_iff _ _ _).mpr (.inr howns)
    refine ⟨{ t with
      blockTable := ⟨t.blockTable.blocks.set index b⟩
      ownedBlocks := t.ownedBlocks.insert b }, ?_, fun a => ?_, rfl, rfl, fun a _ => ?_⟩
    · simp [hc, ownsBlock, howned]
    · by_cases ha : a = previous
      · subst ha
        exact ⟨fun _ => hc, fun _ => howned⟩
      · rw [hmem a ha, ← h a]
        exact contains_insert_iff _ _ _
    · exact contains_insert_iff _ _ _
  · refine ⟨{ t with
      blockTable := ⟨t.blockTable.blocks.set index b⟩
      ownedBlocks := (t.ownedBlocks.insert b).erase previous }, ?_, fun a => ?_, rfl, rfl,
      fun a ha => ?_⟩
    · simp [hc, ownsBlock]
    · by_cases ha : a = previous
      · subst ha
        simp [ownsBlock, hc]
      · rw [hmem a ha, ← h a]
        exact (contains_erase_iff _ _ _).trans (by rw [contains_insert_iff]; simp [ha, ownsBlock])
    · exact (contains_erase_iff _ _ _).trans (by rw [contains_insert_iff]; simp [ha, ownsBlock])

end SessionBlockTable

end KirAi.KvCache
