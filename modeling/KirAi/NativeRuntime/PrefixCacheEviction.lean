/-
# A store evicts no more than it must

A store is refused when it has no tokens or can never fit, and changes nothing
then. Otherwise its entry is resident afterwards, and of the others, in the order
of their last use and without the one it replaces, the shortest prefix has gone
that makes room. The order is that of use while the stamps differ, and room is
counted exactly while the counter of bytes does not saturate.

Key definition: `EvictsMinimally`.
Key theorems: `store_evicts_minimally`, `store_evicts_otherwise`.
-/
import KirAi.NativeRuntime.PrefixCacheLru

namespace KirAi.NativeRuntime

open Lib KvCache

namespace NativeTextPrefixCache

open PrefixCacheInner

section

variable {N C S : Type} [DecidableEq N] [Ord N] [Std.TransOrd N] [Std.LawfulEqOrd N]

/-- What a store that is not refused does to the residents in the order of use. -/
structure EvictsMinimally (maxBytes : ℕ) (order : List (Resident N S)) (item : Resident N S)
    (after : PrefixCacheInner N S) : Prop where
  resident : ∃ e, after.entryAt item.key.1 item.key.2 = some e ∧ e.payload = item.value
  shortest : ∃ evicted kept, Lru.without item.key order = evicted ++ kept ∧
    after.residents = kept ++ [item] ∧ Lru.total kept + item.size ≤ maxBytes ∧
    ∀ n < evicted.length, maxBytes < Lru.total ((evicted ++ kept).drop n) + item.size
  entries : ∀ x, x ∈ after.residents ↔
    ∃ e, after.entryAt x.key.1 x.key.2 = some e ∧ x = residentOf x.key.1 x.key.2 e

/-- What a store puts. -/
def itemOf (value : PrefixCacheValue C S) (ns : N) (tokens : List ℕ) (hidden : List F32)
    (caches : List C) : Resident N S :=
  ⟨(ns, tokens), ⟨hidden, value.prefixCacheState caches⟩,
    value.prefixCacheEntryBytes hidden (value.prefixCacheState caches)⟩

theorem accepts_eq_false {value : PrefixCacheValue C S} {maxBytes : ℕ} {tokens : List ℕ}
    {hidden : List F32} {caches : List C} : accepts value maxBytes tokens hidden caches = false ↔
      tokens = [] ∨ maxBytes < value.prefixCacheEntryBytes hidden (value.prefixCacheState caches) := by
  rw [accepts, Bool.and_eq_false_iff, decide_eq_false_iff_not, Nat.not_le, Bool.not_eq_false',
    List.isEmpty_iff]

/-- **A store evicts minimally.** After fewer than `2 ^ 64 - 1` accesses with a
limit below `u64::MAX`, the residents are in the order of their last use; a store
is refused exactly when it has no tokens or is above the limit, and changes
nothing then; otherwise it evicts the shortest prefix that makes room. -/
theorem store_evicts_minimally (value : PrefixCacheValue C S) {maxBytes : ℕ}
    (hmax : maxBytes < 2 ^ 64 - 1) (accesses : List (Access N C S))
    (hlen : accesses.length < 2 ^ 64 - 1) (ns : N) (tokens : List ℕ) (hidden : List F32)
    (caches : List C) :
    (afterAll value maxBytes accesses).residents = lruRun value maxBytes accesses ∧
    ((store value maxBytes (afterAll value maxBytes accesses) ns tokens hidden caches).1 = false ↔
      tokens = [] ∨ maxBytes < value.prefixCacheEntryBytes hidden (value.prefixCacheState caches)) ∧
    ((store value maxBytes (afterAll value maxBytes accesses) ns tokens hidden caches).1 = false →
      (store value maxBytes (afterAll value maxBytes accesses) ns tokens hidden caches).2 =
        afterAll value maxBytes accesses) ∧
    ((store value maxBytes (afterAll value maxBytes accesses) ns tokens hidden caches).1 = true →
      EvictsMinimally maxBytes (lruRun value maxBytes accesses) (itemOf value ns tokens hidden caches)
        (store value maxBytes (afterAll value maxBytes accesses) ns tokens hidden caches).2) := by
  have hword : wordMax = 2 ^ 64 - 1 := rfl
  obtain ⟨h, hnext⟩ := afterAll_refines value (hword ▸ hmax) accesses (by omega)
  refine ⟨h.lists.residents_eq h.inv, ?_⟩
  rw [store_eq, ← accepts_eq_false]
  by_cases haccepts : accepts value maxBytes tokens hidden caches = true
  · rw [if_pos haccepts, haccepts]
    refine ⟨Iff.rfl, fun hc => (by cases hc), fun _ => ?_⟩
    have hsize : value.prefixCacheEntryBytes hidden (value.prefixCacheState caches) ≤ maxBytes := by
      rw [accepts, Bool.and_eq_true, decide_eq_true_iff] at haccepts
      exact haccepts.2
    obtain ⟨hafter, -⟩ := Refines.storeEntry h ns tokens (by omega) (hword ▸ hmax) hsize
      ⟨hidden, value.prefixCacheState caches⟩
    have hresidents := hafter.lists.residents_eq hafter.inv
    have hmem : itemOf value ns tokens hidden caches ∈ Lru.put maxBytes
        (itemOf value ns tokens hidden caches) (lruRun value maxBytes accesses) :=
      List.mem_append_right _ (List.mem_singleton_self _)
    obtain ⟨e, he, hitem⟩ := (hafter.lists.mem _).mp hmem
    refine ⟨⟨e, he, ?_⟩, ?_, fun x => ?_⟩
    · rw [hitem]
      rfl
    · obtain ⟨evicted, hsplit, hshortest⟩ := Lru.makeRoom_spec maxBytes
        (itemOf value ns tokens hidden caches).size
        (Lru.without (ns, tokens) (lruRun value maxBytes accesses))
      refine ⟨evicted, _, hsplit, hresidents, Lru.total_makeRoom_le hsize _, fun n hn => ?_⟩
      rw [← hsplit]
      exact hshortest n hn
    · dsimp only
      rw [hresidents]
      exact hafter.lists.mem x
  · rw [if_neg haccepts]
    refine ⟨⟨fun _ => Bool.not_eq_true _ ▸ haccepts, fun _ => rfl⟩, fun _ => rfl, fun hc => (by cases hc)⟩

end

/-- Two entries, the first of which is used; a third takes the place of the
second. -/
theorem store_evicts_minimally_second :
    ∃ inner : PrefixCacheInner ℕ ℕ,
      inner = afterAll weights 10 [.store 0 [1] [] [4], .store 1 [2] [] [4],
        .lookup 0 [1, 7] fun _ => true] ∧
      EvictsMinimally 10 [⟨(1, [2]), ⟨[], [4]⟩, 4⟩, ⟨(0, [1]), ⟨[], [4]⟩, 4⟩]
        (itemOf weights 0 [3] [] [5]) (store weights 10 inner 0 [3] [] [5]).2 := by
  obtain ⟨-, -, -, hevicts⟩ := store_evicts_minimally weights (by decide : 10 < 2 ^ 64 - 1)
    [.store 0 [1] [] [4], .store 1 [2] [] [4], .lookup 0 [1, 7] fun _ => true] (by decide) 0 [3] [] [5]
  exact ⟨_, rfl, hevicts (by decide +kernel)⟩

/-- One entry, used at `stamp`, and the next stamp. -/
def single (stamp next : ℕ) : PrefixCacheInner ℕ ℕ where
  entries := put2 ∅ 0 [1] ⟨⟨[], [4]⟩, 4, stamp⟩
  indexes := (∅ : Std.ExtTreeMap ℕ PrefixCacheLengthIndex).insert 0 (PrefixCacheLengthIndex.default.insert [1])
  lru := ⟨(∅ : Std.ExtTreeSet (PrefixCacheLruKey ℕ) PrefixCacheLruKey.cmp).insert ⟨stamp, 0, [1]⟩⟩
  usedBytes := 4
  nextAccess := next

def hitSingle : Access ℕ ℕ ℕ := .lookup 0 [1] fun _ => true

theorem promote_single (stamp next : ℕ) : (single stamp next).lru.promote 0 [1] stamp next =
    (single next next).lru := by
  have h : ((∅ : Std.ExtTreeSet (PrefixCacheLruKey ℕ) PrefixCacheLruKey.cmp).insert
      ⟨stamp, 0, [1]⟩).erase ⟨stamp, 0, [1]⟩ = ∅ := by
    refine Std.ExtTreeSet.ext_mem fun k => ?_
    simp [Std.ExtTreeSet.mem_erase, Std.ExtTreeSet.mem_insert]
  exact congrArg (fun t => PrefixCacheLruIndex.mk (t.insert ⟨next, 0, [1]⟩)) h

theorem hitSingle_run (stamp next : ℕ) :
    hitSingle.run weights 10 (single stamp next) = single next (satAdd next 1) := by
  have hrun : hitSingle.run weights 10 (single stamp next) =
      ⟨(single next next).entries, (single next next).indexes,
        (single stamp next).lru.promote 0 [1] stamp next, 4, satAdd next 1⟩ := rfl
  rw [hrun, promote_single]
  rfl

/-- A store, and as many hits of its entry. -/
def hits (count : ℕ) : List (Access ℕ ℕ ℕ) := .store 0 [1] [] [4] :: List.replicate count hitSingle

theorem hits_succ (count : ℕ) : hits (count + 1) = hits count ++ [hitSingle] := by
  rw [hits, hits, List.replicate_succ', List.cons_append]

/-- The stamps stop at the largest word. -/
theorem afterAll_hits : ∀ count : ℕ, afterAll weights 10 (hits count) =
    single (min count wordMax) (min (count + 1) wordMax)
  | 0 => rfl
  | count + 1 => by
    have hstep : afterAll weights 10 (hits count ++ [hitSingle]) =
        hitSingle.run weights 10 (afterAll weights 10 (hits count)) := List.foldl_concat _ _ _ _
    have hsat : satAdd (min (count + 1) wordMax) 1 = min (count + 2) wordMax := by
      unfold satAdd
      omega
    rw [hits_succ, hstep, afterAll_hits count, hitSingle_run, hsat]

theorem lruRun_hits : ∀ count : ℕ, lruRun weights 10 (hits count) = [⟨(0, [1]), ⟨[], [4]⟩, 4⟩]
  | 0 => rfl
  | count + 1 => by
    have hstep : lruRun weights 10 (hits count ++ [hitSingle]) =
        lruStep weights 10 (lruRun weights 10 (hits count)) hitSingle := List.foldl_concat _ _ _ _
    rw [hits_succ, hstep, lruRun_hits count]
    rfl

/-- With a limit of `u64::MAX` the counter of bytes saturates and nothing is
evicted; and after `2 ^ 64` hits the stamps do not tell the order of use. -/
theorem store_evicts_otherwise :
    (¬ ∀ maxBytes < 2 ^ 64, ∀ (accesses : List (Access ℕ ℕ ℕ)) (ns : ℕ) (tokens : List ℕ)
        (hidden : List F32) (caches : List ℕ), accesses.length < 2 ^ 64 - 1 →
      (store weights maxBytes (afterAll weights maxBytes accesses) ns tokens hidden caches).1 = true →
      EvictsMinimally maxBytes (lruRun weights maxBytes accesses) (itemOf weights ns tokens hidden caches)
        (store weights maxBytes (afterAll weights maxBytes accesses) ns tokens hidden caches).2) ∧
    ¬ ∀ maxBytes < 2 ^ 64 - 1, ∀ (accesses : List (Access ℕ ℕ ℕ)) (ns : ℕ) (tokens : List ℕ)
        (hidden : List F32) (caches : List ℕ),
      (store weights maxBytes (afterAll weights maxBytes accesses) ns tokens hidden caches).1 = true →
      EvictsMinimally maxBytes (lruRun weights maxBytes accesses) (itemOf weights ns tokens hidden caches)
        (store weights maxBytes (afterAll weights maxBytes accesses) ns tokens hidden caches).2 := by
  constructor
  · intro h
    obtain ⟨-, ⟨evicted, kept, -, hresidents, hroom, -⟩, -⟩ := h (2 ^ 64 - 1) (by decide)
      [.store 0 [1] [] [2 ^ 63]] 0 [2] [] [2 ^ 63] (by decide) (by decide +kernel)
    -- both entries are resident
    have htotal : Lru.total (store weights (2 ^ 64 - 1) (afterAll weights (2 ^ 64 - 1)
        [.store 0 [1] [] [2 ^ 63]]) 0 [2] [] [2 ^ 63]).2.residents = 2 ^ 64 := by decide +kernel
    rw [hresidents, Lru.total_append] at htotal
    have hone : Lru.total [itemOf weights 0 [2] [] [2 ^ 63]] =
        (itemOf weights 0 [2] [] [2 ^ 63]).size := rfl
    omega
  · intro h
    have hafter : afterAll weights 10 (hits wordMax ++ [.store 0 [2] [] [4], hitSingle]) =
        hitSingle.run weights 10 ((Access.store 0 [2] [] [4]).run weights 10 (single wordMax wordMax)) := by
      rw [afterAll, List.foldl_append, ← afterAll, afterAll_hits, Nat.min_self,
        Nat.min_eq_right (Nat.le_succ _)]
      rfl
    have hrun : lruRun weights 10 (hits wordMax ++ [.store 0 [2] [] [4], hitSingle]) =
        [⟨(0, [2]), ⟨[], [4]⟩, 4⟩, ⟨(0, [1]), ⟨[], [4]⟩, 4⟩] := by
      rw [lruRun, List.foldl_append, ← lruRun, lruRun_hits]
      rfl
    have hstore := h 10 (by decide) (hits wordMax ++ [.store 0 [2] [] [4], hitSingle]) 0 [3] [] [4]
    rw [hafter, hrun] at hstore
    obtain ⟨-, ⟨evicted, kept, hsplit, hresidents, -⟩, -⟩ := hstore (by decide +kernel)
    -- the entry that was hit last has gone, the other one is kept
    have hkeys : ((store weights 10 (hitSingle.run weights 10 ((Access.store 0 [2] [] [4]).run weights 10
        (single wordMax wordMax))) 0 [3] [] [4]).2.residents.map (·.key)) = [(0, [2]), (0, [3])] := by
      decide +kernel
    rw [hresidents, List.map_append] at hkeys
    have hkept : kept.map (·.key) = [(0, [2])] := (List.append_inj_left' hkeys rfl)
    have hall : evicted.map (·.key) ++ kept.map (·.key) =
        [(0, [2])] ++ [(0, [1])] := by
      rw [← List.map_append, ← hsplit]
      rfl
    rw [hkept] at hall
    have hlast := List.append_inj_right' hall rfl
    simp at hlast

end NativeTextPrefixCache

end KirAi.NativeRuntime
