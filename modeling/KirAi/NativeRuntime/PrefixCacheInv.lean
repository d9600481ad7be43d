/-
# The prefix cache keeps its indexes together

The entries, the length indexes, the order of use and the byte counter say the
same thing after every run of lookups and stores. `Inv` is what the indexes
have in common, and `Indexed` is the part of it that needs no distinct stamps,
so that it also holds after `2 ^ 64` accesses, when the counter of accesses has
stopped; the bytes are apart, because the counter saturates: with a
limit of `u64::MAX` no store ever evicts, and once the entries hold `2 ^ 64`
bytes the counter is below their sum (`usedBytes_saturates`).

Key definitions: `PrefixCacheLengthIndex.Counts`, `PrefixCacheInner.Inv`,
`PrefixCacheInner.Indexed`.
Key theorems: `Indexed.removeEntry`, `Indexed.insertEntry`, `Indexed.touchEntry`,
`prefixCache_consistent`.
-/
import KirAi.NativeRuntime.PrefixCache
import Mathlib.Data.List.Induction
import Mathlib.Data.List.TakeWhile
import Mathlib.Order.Basic

namespace KirAi.NativeRuntime

open Lib KvCache

/-! ### The length index of one namespace -/

theorem insertIdx_partitionPoint (p : ℕ → Bool) (x : ℕ) : ∀ l : List ℕ,
    l.insertIdx (partitionPoint p l) x = l.takeWhile p ++ x :: l.dropWhile p
  | [] => rfl
  | y :: l => by
    unfold partitionPoint
    by_cases hy : p y = true
    · rw [List.takeWhile_cons_of_pos hy, List.dropWhile_cons_of_pos hy, List.length_cons,
        List.insertIdx_succ_cons, List.cons_append]
      exact congrArg _ (insertIdx_partitionPoint p x l)
    · rw [List.takeWhile_cons_of_neg hy, List.dropWhile_cons_of_neg hy]
      rfl

namespace PrefixCacheLengthIndex

/-- The index lists the lengths `n` with `c n > 0`, in order, and counts
them. -/
structure Counts (index : PrefixCacheLengthIndex) (c : ℕ → ℕ) : Prop where
  counts : ∀ n, index.lengthCounts[n]? = if c n = 0 then none else some (c n)
  sorted : index.lengths.Pairwise (· < ·)
  mem : ∀ n, n ∈ index.lengths ↔ 0 < c n

variable {index : PrefixCacheLengthIndex} {c : ℕ → ℕ}

theorem counts_default : Counts default fun _ => 0 :=
  ⟨fun n => by simp [default], List.Pairwise.nil, fun n => by simp [default]⟩

/-- A new length goes to its place in the order. -/
theorem sorted_insertIdx {l : List ℕ} (hl : l.Pairwise (· < ·)) {n : ℕ} (hn : n ∉ l) :
    (l.insertIdx (partitionPoint (· < n) l) n).Pairwise (· < ·) := by
  rw [insertIdx_partitionPoint, List.pairwise_append, List.pairwise_cons]
  have hbefore : ∀ x ∈ l.takeWhile (fun x => decide (x < n)), x < n := fun x hx => by
    simpa using List.mem_takeWhile_imp hx
  have hafter : ∀ y ∈ l.dropWhile (fun x => decide (x < n)), n < y := by
    intro y hy
    have hmem : y ∈ l := (List.dropWhile_sublist _).subset hy
    -- the first one that is kept is not below `n`, and the others are above it
    cases hd : l.dropWhile (fun x => decide (x < n)) with
    | nil =>
      rw [hd] at hy
      cases hy
    | cons z zs =>
      have hz : ¬ z < n := by
        have := List.head?_dropWhile_not (fun x => decide (x < n)) l
        rw [hd] at this
        simpa using this
      have hsorted : (z :: zs).Pairwise (· < ·) := hd ▸ hl.sublist (List.dropWhile_sublist _)
      have hzy : z ≤ y := by
        rw [hd] at hy
        rcases List.mem_cons.mp hy with rfl | hy
        · exact le_rfl
        · exact le_of_lt ((List.pairwise_cons.mp hsorted).1 y hy)
      have hne : y ≠ n := fun e => hn (e ▸ hmem)
      omega
  refine ⟨hl.sublist (List.takeWhile_sublist _), ⟨hafter, hl.sublist (List.dropWhile_sublist _)⟩, ?_⟩
  intro x hx y hy
  have hxn := hbefore x hx
  rcases List.mem_cons.mp hy with rfl | hy
  · exact hxn
  · exact lt_trans hxn (hafter y hy)

theorem Counts.insert (h : index.Counts c) (tokens : List ℕ) :
    (index.insert tokens).Counts fun n => c n + if n = tokens.length then 1 else 0 := by
  have hc := h.counts tokens.length
  have hget : index.lengthCounts[tokens.length]?.getD 0 = c tokens.length := by
    rw [hc]
    split
    · rename_i h0
      exact h0.symm
    · rfl
  have hcounts : ∀ n, (index.lengthCounts.insert tokens.length (c tokens.length + 1))[n]? =
      if c n + (if n = tokens.length then 1 else 0) = 0 then none
        else some (c n + if n = tokens.length then 1 else 0) := by
    intro n
    rw [getElem?_insert_ite]
    by_cases hn : n = tokens.length
    · subst hn
      simp
    · rw [if_neg (Ne.symm hn), if_neg hn, Nat.add_zero]
      exact h.counts n
  unfold PrefixCacheLengthIndex.insert
  dsimp only
  rw [hget]
  by_cases h0 : c tokens.length = 0
  · rw [if_pos h0]
    have hfresh : tokens.length ∉ index.lengths := fun hm => by
      have := (h.mem _).mp hm
      omega
    refine ⟨hcounts, sorted_insertIdx h.sorted hfresh, fun n => ?_⟩
    have hmem : n ∈ index.lengths.insertIdx (partitionPoint (· < tokens.length) index.lengths)
        tokens.length ↔ n = tokens.length ∨ n ∈ index.lengths := by
      refine List.mem_insertIdx ?_
      exact List.Sublist.length_le (List.takeWhile_sublist _)
    rw [hmem, h.mem n]
    by_cases hn : n = tokens.length
    · simp [hn]
    · simp [hn]
  · rw [if_neg h0]
    refine ⟨hcounts, h.sorted, fun n => ?_⟩
    rw [h.mem n]
    by_cases hn : n = tokens.length
    · subst hn
      simp only [↓reduceIte]
      omega
    · simp [hn]

theorem Counts.remove (h : index.Counts c) {tokens : List ℕ} (hpos : 0 < c tokens.length) :
    (index.remove tokens).Counts fun n => c n - if n = tokens.length then 1 else 0 := by
  have hc := h.counts tokens.length
  rw [if_neg (Nat.ne_of_gt hpos)] at hc
  unfold PrefixCacheLengthIndex.remove
  simp only [hc]
  by_cases h1 : c tokens.length > 1
  · rw [if_pos h1]
    refine ⟨fun n => ?_, h.sorted, fun n => ?_⟩
    · dsimp only
      rw [getElem?_insert_ite]
      by_cases hn : n = tokens.length
      · subst hn
        rw [if_pos rfl, if_pos rfl, if_neg (by omega)]
      · rw [if_neg (Ne.symm hn), if_neg hn, Nat.sub_zero]
        exact h.counts n
    · rw [h.mem n]
      by_cases hn : n = tokens.length
      · subst hn
        simp only [↓reduceIte]
        omega
      · simp [hn]
  · rw [if_neg h1]
    have hnodup : index.lengths.Nodup := h.sorted.imp fun hlt => Nat.ne_of_lt hlt
    refine ⟨fun n => ?_, h.sorted.sublist List.erase_sublist, fun n => ?_⟩
    · dsimp only
      rw [getElem?_erase_ite]
      by_cases hn : n = tokens.length
      · subst hn
        rw [if_pos rfl, if_pos rfl, if_pos (by omega)]
      · rw [if_neg (Ne.symm hn), if_neg hn, Nat.sub_zero]
        exact h.counts n
    · rw [hnodup.mem_erase_iff, h.mem n]
      by_cases hn : n = tokens.length
      · subst hn
        simp only [ne_eq, not_true_eq_false, false_and, ↓reduceIte, false_iff]
        omega
      · simp [hn]

/-- An index is empty when it counts nothing. -/
theorem Counts.isEmpty_iff (h : index.Counts c) : index.isEmpty = true ↔ ∀ n, c n = 0 := by
  unfold PrefixCacheLengthIndex.isEmpty
  rw [Std.ExtTreeMap.isEmpty_iff]
  constructor
  · intro he n
    have := h.counts n
    rw [he] at this
    by_contra h0
    simp [h0] at this
  · intro h0
    refine Std.ExtTreeMap.ext_getElem? fun n => ?_
    rw [h.counts n, if_pos (h0 n)]
    simp

end PrefixCacheLengthIndex

/-! ### The indexes of the cache -/

namespace PrefixCacheInner

variable {N S : Type} [Ord N] [Std.TransOrd N]

def entryAt (inner : PrefixCacheInner N S) (ns : N) (tokens : List ℕ) :
    Option (PrefixCacheEntry S) := at2 inner.entries ns tokens

/-- How many entries of the namespace have `n` tokens. -/
def lengthCount (inner : PrefixCacheInner N S) (ns : N) (n : ℕ) : ℕ :=
  entryCount (bucket inner.entries ns) fun e => e.1.length = n

/-- The bytes of all entries. -/
def residentBytes (inner : PrefixCacheInner N S) : ℕ := sum2 inner.entries fun e => e.2.byteLen

/-- A namespace without entries has no index; the index of another lists its
lengths. -/
def IndexFor : Option PrefixCacheLengthIndex → (ℕ → ℕ) → Prop
  | none, c => ∀ n, c n = 0
  | some index, c => index.Counts c ∧ ∃ n, 0 < c n

structure Inv (inner : PrefixCacheInner N S) : Prop where
  /-- No bucket is empty. -/
  buckets : NoEmptyBucket inner.entries
  /-- The keys of the order of use are the entries with their stamps. -/
  lru : ∀ key, key ∈ inner.lru.entries ↔
    ∃ e, inner.entryAt key.ns key.tokens = some e ∧ e.lastUsed = key.access
  /-- No two entries have the same stamp. -/
  stamps : ∀ ns tokens e ns' tokens' e', inner.entryAt ns tokens = some e →
    inner.entryAt ns' tokens' = some e' → e.lastUsed = e'.lastUsed → ns = ns' ∧ tokens = tokens'
  /-- Every stamp is older than the next one. -/
  older : ∀ ns tokens e, inner.entryAt ns tokens = some e → e.lastUsed < inner.nextAccess
  /-- Each namespace has the index of its entries. -/
  index : ∀ ns, IndexFor inner.indexes[ns]? (inner.lengthCount ns)

/-- The part of `Inv` that does not need the stamps to differ. -/
structure Indexed (inner : PrefixCacheInner N S) : Prop where
  buckets : NoEmptyBucket inner.entries
  lru : ∀ key, key ∈ inner.lru.entries ↔
    ∃ e, inner.entryAt key.ns key.tokens = some e ∧ e.lastUsed = key.access
  index : ∀ ns, IndexFor inner.indexes[ns]? (inner.lengthCount ns)

variable {inner : PrefixCacheInner N S} {ns : N} {tokens : List ℕ} {e : PrefixCacheEntry S}

theorem Inv.indexed (h : Inv inner) : Indexed inner := ⟨h.buckets, h.lru, h.index⟩

theorem default_inv : Inv (default : PrefixCacheInner N S) := by
  have hat : ∀ ns tokens, (default : PrefixCacheInner N S).entryAt ns tokens = none := by
    intro ns tokens
    simp [default, entryAt, at2, bucket]
  refine ⟨noEmptyBucket_empty, fun key => ?_, fun ns tokens e _ _ _ he => ?_, fun ns tokens e he => ?_,
    fun ns => ?_⟩
  · simp [default, entryAt, at2, bucket]
  · rw [hat] at he
    cases he
  · rw [hat] at he
    cases he
  · have hnone : (default : PrefixCacheInner N S).indexes[ns]? = none := by simp [default]
    rw [hnone]
    intro n
    simp [lengthCount, default, bucket, entryCount_empty]

theorem default_residentBytes : (default : PrefixCacheInner N S).residentBytes = 0 := by
  rw [residentBytes, sum2]
  exact entrySum_empty _

/-! #### Looking up an entry -/

/-- The query can use the entry under its first `n` tokens. -/
def Usable (inner : PrefixCacheInner N S) (isCompatible : List S → Bool) (ns : N) (tokens : List ℕ)
    (n : ℕ) : Prop :=
  ∃ e, inner.entryAt ns (tokens.take n) = some e ∧ isCompatible e.payload.states = true

/-- A scan that finds nothing changes nothing; one that finds an entry, the first
of the candidates that can be used, gives it the next stamp. -/
theorem scan_cases (isCompatible : List S → Bool) (ns : N) (tokens : List ℕ) :
    ∀ (candidates : List ℕ) (inner : PrefixCacheInner N S),
    ((∀ n ∈ candidates, ¬ inner.Usable isCompatible ns tokens n) ∧
        inner.scan isCompatible ns tokens (bucket inner.entries ns) candidates = (none, inner)) ∨
      ∃ (before after : List ℕ) (n : ℕ) (e : PrefixCacheEntry S), candidates = before ++ n :: after ∧
        (∀ m ∈ before, ¬ inner.Usable isCompatible ns tokens m) ∧
        inner.entryAt ns (tokens.take n) = some e ∧ isCompatible e.payload.states = true ∧
        inner.scan isCompatible ns tokens (bucket inner.entries ns) candidates =
          (some (n, e.payload), ⟨put2 inner.entries ns (tokens.take n)
              { e with lastUsed := inner.nextAccess }, inner.indexes,
            inner.lru.promote ns (tokens.take n) e.lastUsed inner.nextAccess, inner.usedBytes,
            satAdd inner.nextAccess 1⟩)
  | [], inner => .inl ⟨fun n hn => absurd hn (List.not_mem_nil), rfl⟩
  | n :: candidates, inner => by
    have ih := scan_cases isCompatible ns tokens candidates inner
    -- a candidate that cannot be used is passed over
    have hskip : ¬ inner.Usable isCompatible ns tokens n →
        inner.scan isCompatible ns tokens (bucket inner.entries ns) (n :: candidates) =
          inner.scan isCompatible ns tokens (bucket inner.entries ns) candidates := by
      intro hn
      rw [PrefixCacheInner.scan]
      dsimp only
      cases he : (bucket inner.entries ns)[tokens.take n]? with
      | none => rfl
      | some e =>
        dsimp only
        rw [if_neg fun hc => hn ⟨e, he, hc⟩]
    by_cases hn : inner.Usable isCompatible ns tokens n
    · obtain ⟨e, he, hc⟩ := hn
      refine .inr ⟨[], candidates, n, e, rfl, fun m hm => absurd hm (List.not_mem_nil), he, hc, ?_⟩
      have hget : (bucket inner.entries ns)[tokens.take n]? = some e := he
      rw [PrefixCacheInner.scan]
      simp only [hget, hc, ↓reduceIte]
      rfl
    · rw [hskip hn]
      rcases ih with ⟨hall, hnone⟩ | ⟨before, after, m, e, hsplit, hbefore, hrest⟩
      · exact .inl ⟨List.forall_mem_cons.mpr ⟨hn, hall⟩, hnone⟩
      · exact .inr ⟨n :: before, after, m, e, by rw [hsplit, List.cons_append],
          List.forall_mem_cons.mpr ⟨hn, hbefore⟩, hrest⟩

/-! #### Removing an entry -/

theorem forget_lru (inner : PrefixCacheInner N S) (ns : N) (tokens : List ℕ)
    (e : PrefixCacheEntry S) :
    (inner.forget ns tokens e).lru = inner.lru.remove ns tokens e.lastUsed := by
  unfold forget
  dsimp only
  split
  · rfl
  · split <;> rfl

theorem forget_counters (inner : PrefixCacheInner N S) (ns : N) (tokens : List ℕ)
    (e : PrefixCacheEntry S) : (inner.forget ns tokens e).usedBytes = inner.usedBytes ∧
      (inner.forget ns tokens e).nextAccess = inner.nextAccess := by
  unfold forget
  dsimp only
  split
  · exact ⟨rfl, rfl⟩
  · split <;> exact ⟨rfl, rfl⟩

/-- An entry counts once under its length. -/
theorem lengthCount_pos (he : inner.entryAt ns tokens = some e) :
    0 < inner.lengthCount ns tokens.length :=
  entryCount_pos he (by simp)

/-- The order of use loses the key of an entry that goes. -/
theorem Indexed.len_forget (h : Indexed inner) (he : inner.entryAt ns tokens = some e) :
    (inner.forget ns tokens e).lru.len + 1 = inner.lru.len := by
  have hmem : (⟨e.lastUsed, ns, tokens⟩ : PrefixCacheLruKey N) ∈ inner.lru.entries :=
    (h.lru ⟨e.lastUsed, ns, tokens⟩).mpr ⟨e, he, rfl⟩
  have hpos : 0 < inner.lru.entries.size := by
    rw [Nat.pos_iff_ne_zero]
    intro h0
    have hempty : inner.lru.entries = ∅ := by
      rw [← Std.ExtTreeSet.isEmpty_iff, Std.ExtTreeSet.isEmpty_eq_size_beq_zero, h0]
      rfl
    rw [hempty] at hmem
    simp at hmem
  rw [forget_lru, PrefixCacheLruIndex.remove, PrefixCacheLruIndex.len, PrefixCacheLruIndex.len,
    Std.ExtTreeSet.size_erase, if_pos (Std.ExtTreeSet.mem_iff_contains.mp hmem)]
  omega

variable [Std.LawfulEqOrd N]

theorem removeEntry_absent (h : NoEmptyBucket inner.entries) (ha : inner.entryAt ns tokens = none) :
    inner.removeEntry ns tokens = (none, inner) := by
  unfold removeEntry
  unfold entryAt at2 bucket at ha
  cases hb : inner.entries[ns]? with
  | none => rfl
  | some c =>
    rw [hb, Option.getD_some] at ha
    have hne : c.isEmpty = false := by
      rw [Bool.eq_false_iff, ne_eq, Std.ExtTreeMap.isEmpty_iff]
      exact h ns c hb
    simp only [ha, erase_of_getElem?_eq_none ha, hne, Bool.false_eq_true, ↓reduceIte,
      insert_of_getElem?_eq_some hb]

theorem removeEntry_present (he : inner.entryAt ns tokens = some e) :
    inner.removeEntry ns tokens = (some e, { inner.forget ns tokens e with
      entries := del2 inner.entries ns tokens }) := by
  unfold removeEntry
  unfold entryAt at2 at he
  cases hb : inner.entries[ns]? with
  | none =>
    rw [bucket, hb] at he
    simp at he
  | some c =>
    have hc : bucket inner.entries ns = c := by rw [bucket, hb, Option.getD_some]
    rw [hc] at he
    have hforget : ∀ m, forget { inner with entries := m } ns tokens e =
        { inner.forget ns tokens e with entries := m } := by
      intro m
      unfold forget
      dsimp only
      split
      · rfl
      · split <;> rfl
    simp only [he]
    rw [hforget, del2, hc]
    split
    · simp only [erase_insert_self]
    · rfl

theorem lru_mem_insert (lru : PrefixCacheLruIndex N) (ns : N) (tokens : List ℕ) (access : ℕ)
    (key : PrefixCacheLruKey N) : key ∈ (lru.insert ns tokens access).entries ↔
      key = ⟨access, ns, tokens⟩ ∨ key ∈ lru.entries := by
  rw [PrefixCacheLruIndex.insert, Std.ExtTreeSet.mem_insert, Std.LawfulEqCmp.compare_eq_iff_eq]
  exact or_congr_left eq_comm

theorem lru_mem_remove (lru : PrefixCacheLruIndex N) (ns : N) (tokens : List ℕ) (access : ℕ)
    (key : PrefixCacheLruKey N) : key ∈ (lru.remove ns tokens access).entries ↔
      key ≠ ⟨access, ns, tokens⟩ ∧ key ∈ lru.entries := by
  rw [PrefixCacheLruIndex.remove, Std.ExtTreeSet.mem_erase]
  refine and_congr_left fun _ => not_congr ?_
  rw [Std.LawfulEqCmp.compare_eq_iff_eq]
  exact eq_comm

/-- The entry used longest ago is the one that goes. -/
theorem Indexed.removeLruEntry (h : Indexed inner) :
    (inner.lru.len = 0 ∧ inner.removeLruEntry = (none, inner)) ∨
      ∃ ns tokens e, inner.entryAt ns tokens = some e ∧ inner.removeLruEntry =
        (some e, { inner.forget ns tokens e with entries := del2 inner.entries ns tokens }) := by
  unfold PrefixCacheInner.removeLruEntry PrefixCacheLruIndex.oldest
  rw [← Std.ExtTreeSet.min?_eq_head?_toList]
  cases hmin : inner.lru.entries.min? with
  | none =>
    rw [Std.ExtTreeSet.min?_eq_none_iff] at hmin
    refine .inl ⟨?_, rfl⟩
    rw [PrefixCacheLruIndex.len, hmin, Std.ExtTreeSet.size_empty]
  | some key =>
    obtain ⟨e, he, -⟩ := (h.lru key).mp (Std.ExtTreeSet.min?_mem hmin)
    exact .inr ⟨key.ns, key.tokens, e, he, removeEntry_present he⟩

theorem residentBytes_forget (he : inner.entryAt ns tokens = some e) :
    sum2 (del2 inner.entries ns tokens) (fun e => e.2.byteLen) + e.byteLen = inner.residentBytes :=
  sum2_del2 (fun e => e.2.byteLen) he

/-- Nothing resident, no bytes. -/
theorem Indexed.residentBytes_eq_zero (h : Indexed inner) (h0 : inner.lru.len = 0) :
    inner.residentBytes = 0 := by
  have hempty : inner.lru.entries = ∅ := by
    rw [← Std.ExtTreeSet.isEmpty_iff, Std.ExtTreeSet.isEmpty_eq_size_beq_zero]
    exact beq_iff_eq.mpr h0
  have hentries : inner.entries = ∅ := by
    refine h.buckets.eq_empty fun ns tokens => ?_
    cases he : at2 inner.entries ns tokens with
    | none => rfl
    | some e =>
      have hmem := (h.lru ⟨e.lastUsed, ns, tokens⟩).mpr ⟨e, he, rfl⟩
      rw [hempty] at hmem
      simp at hmem
  rw [residentBytes, hentries, sum2, entrySum_empty]

variable [DecidableEq N]

/-- What becomes of a namespace's index when one of its entries goes. -/
def withoutLength (index : Option PrefixCacheLengthIndex) (tokens : List ℕ) :
    Option PrefixCacheLengthIndex :=
  (index.map (·.remove tokens)).filter (!·.isEmpty)

theorem IndexFor.remove {index : Option PrefixCacheLengthIndex} {c : ℕ → ℕ} (h : IndexFor index c)
    (hpos : 0 < c tokens.length) :
    IndexFor (withoutLength index tokens) fun n => c n - if n = tokens.length then 1 else 0 := by
  cases index with
  | none => exact absurd (h tokens.length) (Nat.ne_of_gt hpos)
  | some index =>
    have hcounts := h.1.remove hpos
    unfold withoutLength
    rw [Option.map_some]
    by_cases hempty : (index.remove tokens).isEmpty
    · rw [Option.filter_some_neg (by simp [hempty])]
      exact hcounts.isEmpty_iff.mp hempty
    · rw [Option.filter_some_pos (by simp [hempty])]
      refine ⟨hcounts, ?_⟩
      by_contra hno
      push Not at hno
      exact hempty (hcounts.isEmpty_iff.mpr fun n => Nat.le_zero.mp (hno n))

theorem forget_indexes (inner : PrefixCacheInner N S) (ns : N) (tokens : List ℕ)
    (e : PrefixCacheEntry S) (ns' : N) : (inner.forget ns tokens e).indexes[ns']? =
      if ns = ns' then withoutLength inner.indexes[ns]? tokens else inner.indexes[ns']? := by
  unfold forget withoutLength
  cases hi : inner.indexes[ns]? with
  | none =>
    dsimp only
    split
    · rename_i hns
      rw [← hns, hi]
      rfl
    · rfl
  | some index =>
    dsimp only
    rw [Option.map_some]
    by_cases hempty : (index.remove tokens).isEmpty
    · rw [if_pos hempty, Option.filter_some_neg (by simp [hempty])]
      exact getElem?_erase_ite _ _ _
    · rw [if_neg hempty, Option.filter_some_pos (by simp [hempty])]
      exact getElem?_insert_ite _ _ _ _

theorem lengthCount_del2 {entries : Std.ExtTreeMap N (Std.ExtTreeMap (List ℕ) (PrefixCacheEntry S))}
    (he : at2 entries ns tokens = some e) (ns' : N) (n : ℕ) :
    entryCount (bucket (del2 entries ns tokens) ns') (fun e => e.1.length = n) =
      entryCount (bucket entries ns') (fun e => e.1.length = n) -
        if ns = ns' ∧ n = tokens.length then 1 else 0 := by
  rw [bucket_del2]
  by_cases hns : ns = ns'
  · subst hns
    have herase := entryCount_erase (bucket entries ns) (fun e => decide (e.1.length = n)) tokens
    have hget : (bucket entries ns)[tokens]? = some e := he
    rw [hget] at herase
    rw [if_pos rfl]
    by_cases hn : n = tokens.length
    · rw [if_pos ⟨rfl, hn⟩]
      simp only [entryWeight, hn, decide_true, ↓reduceIte] at herase
      rw [hn]
      omega
    · rw [if_neg fun h => hn h.2]
      simp only [entryWeight, Ne.symm hn, decide_false, Bool.false_eq_true, ↓reduceIte] at herase
      omega
  · rw [if_neg hns, if_neg fun h => hns h.1, Nat.sub_zero]

/-- Deleting an entry leaves the others as they are. -/
theorem entryAt_of_del2 {ns' : N} {tokens' : List ℕ} {e' : PrefixCacheEntry S}
    (he' : at2 (del2 inner.entries ns tokens) ns' tokens' = some e') :
    inner.entryAt ns' tokens' = some e' := by
  rw [at2_del2] at he'
  split at he'
  · cases he'
  · exact he'

/-- An entry that goes takes its key and its length with it. -/
theorem Indexed.removeEntry (h : Indexed inner) (he : inner.entryAt ns tokens = some e) :
    Indexed { inner.forget ns tokens e with entries := del2 inner.entries ns tokens } := by
  have hat : ∀ ns' tokens', at2 (del2 inner.entries ns tokens) ns' tokens' =
      if ns = ns' ∧ tokens = tokens' then none else inner.entryAt ns' tokens' :=
    at2_del2 inner.entries ns tokens
  refine ⟨h.buckets.del2 ns tokens, fun key => ?_, fun ns' => ?_⟩
  · -- the key that goes is the key of the entry that goes
    dsimp only
    rw [forget_lru, lru_mem_remove, h.lru key]
    unfold entryAt
    rw [hat]
    constructor
    · rintro ⟨hne, e', he', hlast⟩
      refine ⟨e', ?_, hlast⟩
      rw [if_neg]
      · exact he'
      · rintro ⟨rfl, rfl⟩
        cases he.symm.trans he'
        exact hne (by rw [hlast])
    · rintro ⟨e', he', hlast⟩
      split at he'
      · cases he'
      · rename_i hne
        refine ⟨?_, e', he', hlast⟩
        rintro rfl
        exact hne ⟨rfl, rfl⟩
  · dsimp only
    rw [forget_indexes]
    unfold lengthCount
    dsimp only
    have hcount : (fun n => entryCount (bucket (del2 inner.entries ns tokens) ns')
        (fun e => e.1.length = n)) = fun n => inner.lengthCount ns' n -
          if ns = ns' ∧ n = tokens.length then 1 else 0 :=
      funext fun n => lengthCount_del2 he ns' n
    rw [hcount]
    by_cases hns : ns = ns'
    · subst hns
      rw [if_pos rfl]
      simp only [true_and]
      exact (h.index ns).remove (lengthCount_pos he)
    · rw [if_neg hns]
      simp only [hns, false_and, ↓reduceIte, Nat.sub_zero]
      exact h.index ns'

/-- The stamps that are left are stamps that were there. -/
theorem Inv.removeEntry (h : Inv inner) (he : inner.entryAt ns tokens = some e) :
    Inv { inner.forget ns tokens e with entries := del2 inner.entries ns tokens } := by
  have hindexed := h.indexed.removeEntry he
  refine ⟨hindexed.buckets, hindexed.lru, fun a t ea a' t' ea' hea hea' => ?_, fun a t ea hea => ?_,
    hindexed.index⟩
  · exact h.stamps a t ea a' t' ea' (entryAt_of_del2 hea) (entryAt_of_del2 hea')
  · dsimp only
    rw [(forget_counters inner ns tokens e).2]
    exact h.older a t ea (entryAt_of_del2 hea)

/-! #### Adding an entry and using one -/

/-- What the order of use and the buckets need of an entry that is put with the
next stamp: its own key is the only one that changes. -/
theorem Indexed.put {entries : Std.ExtTreeMap N (Std.ExtTreeMap (List ℕ) (PrefixCacheEntry S))}
    {lru : PrefixCacheLruIndex N} {indexes : Std.ExtTreeMap N PrefixCacheLengthIndex}
    {usedBytes nextAccess : ℕ} (h : Indexed inner) (he : e.lastUsed = inner.nextAccess)
    (hentries : entries = put2 inner.entries ns tokens e)
    (hlru : ∀ key, key ∈ lru.entries ↔ key = ⟨inner.nextAccess, ns, tokens⟩ ∨
      (¬ (key.ns = ns ∧ key.tokens = tokens) ∧ key ∈ inner.lru.entries))
    (hindex : ∀ ns', IndexFor indexes[ns']? fun n =>
      entryCount (bucket entries ns') fun e => e.1.length = n) :
    Indexed ⟨entries, indexes, lru, usedBytes, nextAccess⟩ := by
  subst hentries
  refine ⟨h.buckets.put2 ns tokens e, fun key => ?_, hindex⟩
  unfold entryAt
  rw [hlru, h.lru key, at2_put2]
  constructor
  · rintro (rfl | ⟨hne, e', he', hlast⟩)
    · exact ⟨e, if_pos ⟨rfl, rfl⟩, he⟩
    · refine ⟨e', ?_, hlast⟩
      rw [if_neg fun heq => hne ⟨heq.1.symm, heq.2.symm⟩]
      exact he'
  · rintro ⟨e', he', hlast⟩
    split at he'
    · rename_i heq
      cases he'
      refine .inl ?_
      obtain ⟨access, ns', tokens'⟩ := key
      obtain ⟨rfl, rfl⟩ := heq
      rw [he] at hlast
      rw [hlast]
    · rename_i hne
      exact .inr ⟨fun heq => hne ⟨heq.1.symm, heq.2.symm⟩, e', he', hlast⟩

/-- While the counter moves on, the stamp of an entry that is put is younger
than all others. -/
theorem Inv.of_put {indexes : Std.ExtTreeMap N PrefixCacheLengthIndex} {lru : PrefixCacheLruIndex N}
    {usedBytes : ℕ} (h : Inv inner) (he : e.lastUsed = inner.nextAccess)
    (hnext : inner.nextAccess < wordMax)
    (hindexed : Indexed ⟨put2 inner.entries ns tokens e, indexes, lru, usedBytes,
      satAdd inner.nextAccess 1⟩) :
    Inv ⟨put2 inner.entries ns tokens e, indexes, lru, usedBytes, satAdd inner.nextAccess 1⟩ := by
  -- an entry is the new one, or an old one with a smaller stamp
  have hcases : ∀ ns' tokens' e', at2 (put2 inner.entries ns tokens e) ns' tokens' = some e' →
      (ns = ns' ∧ tokens = tokens' ∧ e' = e) ∨
        (inner.entryAt ns' tokens' = some e' ∧ e'.lastUsed < inner.nextAccess) := by
    intro ns' tokens' e' he'
    rw [at2_put2] at he'
    split at he'
    · rename_i heq
      cases he'
      exact .inl ⟨heq.1, heq.2, rfl⟩
    · exact .inr ⟨he', h.older ns' tokens' e' he'⟩
  have hone : satAdd inner.nextAccess 1 = inner.nextAccess + 1 := satAdd_of_le hnext
  refine ⟨hindexed.buckets, hindexed.lru, fun a t ea a' t' ea' hea hea' hlast => ?_,
    fun a t ea hea => ?_, hindexed.index⟩
  · rcases hcases a t ea hea with ⟨rfl, rfl, rfl⟩ | ⟨hold, hlt⟩
    · rcases hcases a' t' ea' hea' with ⟨rfl, rfl, rfl⟩ | ⟨hold', hlt'⟩
      · exact ⟨rfl, rfl⟩
      · omega
    · rcases hcases a' t' ea' hea' with ⟨rfl, rfl, rfl⟩ | ⟨hold', hlt'⟩
      · omega
      · exact h.stamps a t ea a' t' ea' hold hold' hlast
  · rcases hcases a t ea hea with ⟨rfl, rfl, rfl⟩ | ⟨hold, hlt⟩
    · dsimp only
      omega
    · dsimp only
      omega

theorem IndexFor.insert {index : Option PrefixCacheLengthIndex} {c : ℕ → ℕ} (h : IndexFor index c)
    (tokens : List ℕ) : IndexFor (some ((index.getD .default).insert tokens)) fun n =>
      c n + if n = tokens.length then 1 else 0 := by
  have hcounts : (index.getD .default).Counts c := by
    cases index with
    | none =>
      have hc : c = fun _ => 0 := funext h
      rw [hc]
      exact PrefixCacheLengthIndex.counts_default
    | some index => exact h.1
  exact ⟨hcounts.insert tokens, tokens.length, by simp⟩

theorem lengthCount_put2 (inner : PrefixCacheInner N S) (ns : N) (tokens : List ℕ)
    (e : PrefixCacheEntry S) (ns' : N) (n : ℕ) :
    entryCount (bucket (put2 inner.entries ns tokens e) ns') (fun e => e.1.length = n) =
      inner.lengthCount ns' n +
        if ns = ns' ∧ n = tokens.length ∧ inner.entryAt ns tokens = none then 1 else 0 := by
  rw [bucket_put2]
  by_cases hns : ns = ns'
  · subst hns
    have hins := entryCount_insert (bucket inner.entries ns) (fun e => decide (e.1.length = n)) tokens e
    have hera := entryCount_erase (bucket inner.entries ns) (fun e => decide (e.1.length = n)) tokens
    rw [if_pos rfl, hins]
    unfold lengthCount
    have hat : (bucket inner.entries ns)[tokens]? = inner.entryAt ns tokens := rfl
    rw [hat] at hera
    by_cases hn : n = tokens.length
    · cases hget : inner.entryAt ns tokens with
      | none =>
        rw [hget] at hera
        simp only [entryWeight, hn, decide_true, ↓reduceIte, and_self] at hera ⊢
        omega
      | some e' =>
        rw [hget] at hera
        simp only [entryWeight, hn, decide_true, ↓reduceIte, true_and, reduceCtorEq] at hera ⊢
        omega
    · cases hget : inner.entryAt ns tokens with
      | none =>
        rw [hget] at hera
        simp only [entryWeight, hn, Ne.symm hn, decide_false, Bool.false_eq_true, ↓reduceIte,
          true_and, false_and] at hera ⊢
        omega
      | some e' =>
        rw [hget] at hera
        simp only [entryWeight, hn, Ne.symm hn, decide_false, Bool.false_eq_true, ↓reduceIte,
          true_and, false_and] at hera ⊢
        omega
  · rw [if_neg hns, if_neg fun h => hns h.1]
    rfl

/-- A new entry, with the next stamp. -/
theorem Indexed.insertEntry (h : Indexed inner) (hnone : inner.entryAt ns tokens = none)
    (he : e.lastUsed = inner.nextAccess) (usedBytes : ℕ) :
    Indexed ⟨put2 inner.entries ns tokens e,
      inner.indexes.insert ns ((inner.indexes[ns]?.getD .default).insert tokens),
      inner.lru.insert ns tokens inner.nextAccess, usedBytes, satAdd inner.nextAccess 1⟩ := by
  refine h.put he rfl (fun key => ?_) (fun ns' => ?_)
  · rw [lru_mem_insert]
    refine or_congr_right ⟨fun hm => ⟨?_, hm⟩, And.right⟩
    rintro ⟨hns, htok⟩
    obtain ⟨e', he', -⟩ := (h.lru key).mp hm
    rw [hns, htok, hnone] at he'
    cases he'
  · simp only [lengthCount_put2]
    rw [getElem?_insert_ite]
    by_cases hns : ns = ns'
    · subst hns
      rw [if_pos rfl]
      simp only [true_and, hnone, and_true]
      exact (h.index ns).insert tokens
    · rw [if_neg hns]
      simp only [hns, false_and, ↓reduceIte, Nat.add_zero]
      exact h.index ns'

/-- An entry that is used gets the next stamp. -/
theorem Indexed.touchEntry (h : Indexed inner) (he : inner.entryAt ns tokens = some e) :
    Indexed ⟨put2 inner.entries ns tokens { e with lastUsed := inner.nextAccess }, inner.indexes,
      inner.lru.promote ns tokens e.lastUsed inner.nextAccess, inner.usedBytes,
      satAdd inner.nextAccess 1⟩ := by
  refine h.put rfl rfl (fun key => ?_) (fun ns' => ?_)
  · rw [PrefixCacheLruIndex.promote, lru_mem_insert, lru_mem_remove]
    refine or_congr_right (and_congr_left fun hm => not_congr ?_)
    obtain ⟨e', he', hlast⟩ := (h.lru key).mp hm
    constructor
    · rintro rfl
      exact ⟨rfl, rfl⟩
    · rintro ⟨hns, htok⟩
      obtain ⟨access, ns', tokens'⟩ := key
      dsimp only at hns htok he' hlast
      subst hns htok
      rw [he, Option.some.injEq] at he'
      rw [he', hlast]
  · simp only [lengthCount_put2, he, reduceCtorEq, and_false, ↓reduceIte, Nat.add_zero]
    exact h.index ns'

/-! ### Making room -/

/-- What making room leaves: fewer entries with their bytes, and room for
`byteLen` unless nothing is left. -/
structure Evicted (inner inner' : PrefixCacheInner N S) (maxBytes byteLen : ℕ) : Prop where
  inv : Inv inner'
  nextAccess : inner'.nextAccess = inner.nextAccess
  absent : ∀ ns tokens, inner.entryAt ns tokens = none → inner'.entryAt ns tokens = none
  bytes : inner.usedBytes = inner.residentBytes → inner'.usedBytes = inner'.residentBytes
  room : satAdd inner'.usedBytes byteLen ≤ maxBytes ∨ inner'.lru.len = 0

theorem Inv.evictLoop (maxBytes byteLen : ℕ) : ∀ (n : ℕ) {inner : PrefixCacheInner N S}, Inv inner →
    inner.lru.len ≤ n → Evicted inner (inner.evictLoop maxBytes byteLen n) maxBytes byteLen
  | 0, inner, h, hn => ⟨h, rfl, fun _ _ ha => ha, fun hb => hb, .inr (Nat.le_zero.mp hn)⟩
  | n + 1, inner, h, hn => by
    unfold PrefixCacheInner.evictLoop
    by_cases hfull : satAdd inner.usedBytes byteLen > maxBytes
    swap
    · rw [if_neg hfull]
      exact ⟨h, rfl, fun _ _ ha => ha, fun hb => hb, .inl (Nat.le_of_not_lt hfull)⟩
    rw [if_pos hfull]
    rcases h.indexed.removeLruEntry with ⟨h0, hr⟩ | ⟨ns, tokens, e, he, hr⟩
    · rw [hr]
      exact ⟨h, rfl, fun _ _ ha => ha, fun hb => hb, .inr h0⟩
    · rw [hr]
      dsimp only
      obtain ⟨hused, hacc⟩ := forget_counters inner ns tokens e
      have hlen := h.indexed.len_forget he
      have hremoved := h.removeEntry he
      have hsum := residentBytes_forget he
      have hnext : Inv { inner.forget ns tokens e with
          entries := del2 inner.entries ns tokens,
          usedBytes := (inner.forget ns tokens e).usedBytes - e.byteLen } :=
        ⟨hremoved.buckets, hremoved.lru, hremoved.stamps, hremoved.older, hremoved.index⟩
      have ih := Inv.evictLoop maxBytes byteLen n hnext (by
        change (inner.forget ns tokens e).lru.len ≤ n
        omega)
      refine ⟨ih.inv, ih.nextAccess.trans hacc, fun ns' tokens' ha => ih.absent ns' tokens' ?_,
        fun hb => ih.bytes ?_, ih.room⟩
      · change at2 (del2 inner.entries ns tokens) ns' tokens' = none
        rw [at2_del2]
        split
        · rfl
        · exact ha
      · change (inner.forget ns tokens e).usedBytes - e.byteLen =
          sum2 (del2 inner.entries ns tokens) _
        omega

end PrefixCacheInner

namespace NativeTextPrefixCache

open PrefixCacheInner

variable {N C S : Type} [Ord N] [Std.TransOrd N] {value : PrefixCacheValue C S}
  {inner : PrefixCacheInner N S} {ns : N} {tokens : List ℕ}

/-- A lookup leaves the cache as it is, or with the entry it found used. -/
theorem lookupCompatible_inner (value : PrefixCacheValue C S) (inner : PrefixCacheInner N S) (ns : N)
    (tokens : List ℕ) (isCompatible : List S → Bool) :
    (lookupCompatible value inner ns tokens isCompatible).2 = inner ∨
      ∃ tokens' e, inner.entryAt ns tokens' = some e ∧
        (lookupCompatible value inner ns tokens isCompatible).2 =
          ⟨put2 inner.entries ns tokens' { e with lastUsed := inner.nextAccess }, inner.indexes,
            inner.lru.promote ns tokens' e.lastUsed inner.nextAccess, inner.usedBytes,
            satAdd inner.nextAccess 1⟩ := by
  unfold lookupCompatible
  dsimp only
  cases hb : inner.entries[ns]? with
  | none => exact .inl rfl
  | some c =>
    have hbucket : bucket inner.entries ns = c := by rw [bucket, hb, Option.getD_some]
    dsimp only
    rw [← hbucket]
    rcases scan_cases isCompatible ns tokens
      ((inner.indexes[ns]?.map (·.prefixCandidateLengths tokens.length)).getD []) inner with
      ⟨-, hs⟩ | ⟨-, -, n, e, -, -, he, -, hs⟩
    · rw [hs]
      exact .inl rfl
    · rw [hs]
      refine .inr ⟨tokens.take n, e, he, ?_⟩
      dsimp only
      split <;> rfl

/-- The cache into which `store` puts the new entry. -/
def madeRoom (maxBytes byteLen : ℕ) (inner : PrefixCacheInner N S) (ns : N) (tokens : List ℕ) :
    PrefixCacheInner N S :=
  (dropExisting inner ns tokens).evictLoop maxBytes byteLen (dropExisting inner ns tokens).lru.len

theorem storeEntry_eq (maxBytes byteLen : ℕ) (inner : PrefixCacheInner N S) (ns : N)
    (tokens : List ℕ) (payload : PrefixCacheEntryPayload S) {room : PrefixCacheInner N S}
    (hroom : madeRoom maxBytes byteLen inner ns tokens = room) :
    storeEntry maxBytes inner ns tokens payload byteLen =
      ⟨put2 room.entries ns tokens ⟨payload, byteLen, room.nextAccess⟩,
        room.indexes.insert ns ((room.indexes[ns]?.getD .default).insert tokens),
        room.lru.insert ns tokens room.nextAccess, satAdd room.usedBytes byteLen,
        satAdd room.nextAccess 1⟩ := by
  subst hroom
  rfl

variable [Std.LawfulEqOrd N] [DecidableEq N]

variable (value ns tokens) in
theorem lookupCompatible_inv (h : Inv inner) (hnext : inner.nextAccess < wordMax)
    (isCompatible : List S → Bool) :
    Inv (lookupCompatible value inner ns tokens isCompatible).2 ∧
      (lookupCompatible value inner ns tokens isCompatible).2.nextAccess ≤ inner.nextAccess + 1 ∧
      (lookupCompatible value inner ns tokens isCompatible).2.usedBytes = inner.usedBytes ∧
      (lookupCompatible value inner ns tokens isCompatible).2.residentBytes = inner.residentBytes := by
  rcases lookupCompatible_inner value inner ns tokens isCompatible with he | ⟨tokens', e, he, hr⟩
  · rw [he]
    exact ⟨h, Nat.le_succ _, rfl, rfl⟩
  · rw [hr]
    refine ⟨h.of_put rfl hnext (h.indexed.touchEntry he), ?_, rfl, ?_⟩
    · dsimp only
      rw [satAdd_of_le hnext]
    · exact sum2_put2_same (v := { e with lastUsed := inner.nextAccess })
        (fun e => e.2.byteLen) he rfl

/-! ### Storing -/

theorem dropExisting_spec (h : Inv inner) (ns : N) (tokens : List ℕ) :
    Inv (dropExisting inner ns tokens) ∧
      (dropExisting inner ns tokens).nextAccess = inner.nextAccess ∧
      (dropExisting inner ns tokens).entryAt ns tokens = none ∧
      (inner.usedBytes = inner.residentBytes →
        (dropExisting inner ns tokens).usedBytes = (dropExisting inner ns tokens).residentBytes) := by
  unfold dropExisting
  cases he : inner.entryAt ns tokens with
  | none =>
    rw [removeEntry_absent h.buckets he]
    exact ⟨h, rfl, he, fun hb => hb⟩
  | some e =>
    rw [removeEntry_present he]
    have hremoved := h.removeEntry he
    obtain ⟨hused, hacc⟩ := forget_counters inner ns tokens e
    have hsum := residentBytes_forget he
    refine ⟨⟨hremoved.buckets, hremoved.lru, hremoved.stamps, hremoved.older, hremoved.index⟩, hacc,
      ?_, fun hb => ?_⟩
    · change at2 (del2 inner.entries ns tokens) ns tokens = none
      rw [at2_del2, if_pos ⟨rfl, rfl⟩]
    · change (inner.forget ns tokens e).usedBytes - e.byteLen =
        sum2 (del2 inner.entries ns tokens) _
      omega

/-- A store that is not refused keeps the indexes. It stays within the limit,
and its counter is the sum of the bytes unless that sum passes `u64::MAX`. -/
theorem storeEntry_inv (h : Inv inner) (hnext : inner.nextAccess < wordMax) {maxBytes byteLen : ℕ}
    (hlen : byteLen ≤ maxBytes) (payload : PrefixCacheEntryPayload S)
    (hbytes : inner.usedBytes = inner.residentBytes ∨ maxBytes = wordMax)
    {after : PrefixCacheInner N S}
    (hafter : storeEntry maxBytes inner ns tokens payload byteLen = after) :
    Inv after ∧ after.nextAccess = inner.nextAccess + 1 ∧ after.usedBytes ≤ maxBytes ∧
      (inner.usedBytes = inner.residentBytes → maxBytes < wordMax ∨ after.residentBytes ≤ wordMax →
        after.usedBytes = after.residentBytes) := by
  obtain ⟨h₁, hacc₁, hnone₁, hbytes₁⟩ := dropExisting_spec h ns tokens
  have hev : Evicted _ (madeRoom maxBytes byteLen inner ns tokens) maxBytes byteLen :=
    h₁.evictLoop maxBytes byteLen _ (Nat.le_refl _)
  generalize hroom : madeRoom maxBytes byteLen inner ns tokens = room at hev
  rw [storeEntry_eq maxBytes byteLen inner ns tokens payload hroom] at hafter
  subst hafter
  have hnone := hev.absent ns tokens hnone₁
  have hacc : room.nextAccess = inner.nextAccess := hev.nextAccess.trans hacc₁
  have hnext' : room.nextAccess < wordMax := hacc ▸ hnext
  have hsum : sum2 (put2 room.entries ns tokens ⟨payload, byteLen, room.nextAccess⟩)
      (fun e => e.2.byteLen) = room.residentBytes + byteLen :=
    sum2_put2 (fun e => e.2.byteLen) ⟨payload, byteLen, room.nextAccess⟩ hnone
  have hfits : satAdd room.usedBytes byteLen ≤ maxBytes := by
    rcases hbytes with hb | hb
    · rcases hev.room with hr | h0
      · exact hr
      · rw [hev.bytes (hbytes₁ hb), hev.inv.indexed.residentBytes_eq_zero h0]
        unfold satAdd
        omega
    · rw [hb]
      unfold satAdd
      omega
  refine ⟨hev.inv.of_put rfl hnext' (hev.inv.indexed.insertEntry hnone rfl _), ?_, hfits,
    fun hb hfit => ?_⟩
  · dsimp only
    rw [satAdd_of_le hnext', hacc]
  · have hused := hev.bytes (hbytes₁ hb)
    change satAdd room.usedBytes byteLen = sum2 _ _
    rw [hsum]
    rcases hfit with hlt | hle
    · unfold satAdd at hfits ⊢
      omega
    · change sum2 _ _ ≤ _ at hle
      rw [hsum] at hle
      unfold satAdd
      omega

/-! ### Runs -/

theorem Access.run_inv (h : Inv inner) (hnext : inner.nextAccess < wordMax) {maxBytes : ℕ}
    (hbytes : inner.usedBytes = inner.residentBytes ∨ maxBytes = wordMax)
    (hle : inner.usedBytes ≤ maxBytes) (access : Access N C S) {after : PrefixCacheInner N S}
    (hafter : access.run value maxBytes inner = after) :
    Inv after ∧ after.nextAccess ≤ inner.nextAccess + 1 ∧ after.usedBytes ≤ maxBytes ∧
      (inner.usedBytes = inner.residentBytes → maxBytes < wordMax ∨ after.residentBytes ≤ wordMax →
        after.usedBytes = after.residentBytes) := by
  cases access with
  | lookup ns tokens isCompatible =>
    obtain ⟨h1, h2, h3, h4⟩ := lookupCompatible_inv value ns tokens h hnext isCompatible
    subst hafter
    exact ⟨h1, h2, h3 ▸ hle, fun hb _ => h3.trans (hb.trans h4.symm)⟩
  | store ns tokens hidden caches =>
    unfold Access.run NativeTextPrefixCache.store at hafter
    dsimp only at hafter
    split at hafter
    · subst hafter
      exact ⟨h, Nat.le_succ _, hle, fun hb _ => hb⟩
    · split at hafter
      · subst hafter
        exact ⟨h, Nat.le_succ _, hle, fun hb _ => hb⟩
      · rename_i hfits
        obtain ⟨h1, h2, h3, h4⟩ := storeEntry_inv h hnext (Nat.le_of_not_lt hfits) _ hbytes hafter
        exact ⟨h1, Nat.le_of_eq h2, h3, h4⟩

/-- **The indexes of the prefix cache stay together.** After every sequence of
fewer than `2 ^ 64` lookups and stores, the order of use has one key for each
entry, with distinct stamps; each namespace lists the lengths of its entries
and counts them, and has an index and a bucket only while it has entries; the
byte counter is within the limit. It is the sum of the entries' bytes where the
limit is below `u64::MAX` or the sums have stayed below `2 ^ 64`. -/
theorem prefixCache_consistent (value : PrefixCacheValue C S) {maxBytes : ℕ}
    (hmax : maxBytes < 2 ^ 64) (accesses : List (Access N C S)) (hlen : accesses.length < 2 ^ 64) :
    Inv (afterAll value maxBytes accesses) ∧
      (afterAll value maxBytes accesses).usedBytes ≤ maxBytes ∧
      (maxBytes < 2 ^ 64 - 1 ∨
          (∀ n, (afterAll value maxBytes (accesses.take n)).residentBytes < 2 ^ 64) →
        (afterAll value maxBytes accesses).usedBytes =
          (afterAll value maxBytes accesses).residentBytes) := by
  have hword : wordMax = 2 ^ 64 - 1 := rfl
  -- the stamps taken so far are counted by the accesses
  have key : Inv (afterAll value maxBytes accesses) ∧
      (afterAll value maxBytes accesses).nextAccess ≤ accesses.length ∧
      (afterAll value maxBytes accesses).usedBytes ≤ maxBytes ∧
      (maxBytes < wordMax ∨
          (∀ n, (afterAll value maxBytes (accesses.take n)).residentBytes ≤ wordMax) →
        (afterAll value maxBytes accesses).usedBytes =
          (afterAll value maxBytes accesses).residentBytes) := by
    induction accesses using List.reverseRecOn with
    | nil => exact ⟨default_inv, Nat.le_refl _, Nat.zero_le _, fun _ => default_residentBytes.symm⟩
    | append_singleton accesses access ih =>
      rw [List.length_append, List.length_singleton] at hlen
      obtain ⟨ih1, ih2, ih3, ih4⟩ := ih (by omega)
      have hstep : afterAll value maxBytes (accesses ++ [access]) =
          access.run value maxBytes (afterAll value maxBytes accesses) :=
        List.foldl_concat _ _ _ _
      have hbytes : (afterAll value maxBytes accesses).usedBytes =
          (afterAll value maxBytes accesses).residentBytes ∨ maxBytes = wordMax := by
        rcases Nat.lt_or_ge maxBytes wordMax with hlt | hge
        · exact .inl (ih4 (.inl hlt))
        · exact .inr (by omega)
      obtain ⟨h1, h2, h3, h4⟩ := access.run_inv ih1 (by omega) hbytes ih3 hstep.symm
      refine ⟨h1, ?_, h3, fun hfit => ?_⟩
      · rw [List.length_append, List.length_singleton]
        omega
      · rcases hfit with hlt | hsums
        · exact h4 (ih4 (.inl hlt)) (.inl hlt)
        · refine h4 (ih4 (.inr fun n => ?_)) (.inr ?_)
          · have := hsums (min n accesses.length)
            rw [List.take_append_of_le_length (Nat.min_le_right _ _)] at this
            rcases Nat.le_total n accesses.length with hn | hn
            · rwa [Nat.min_eq_left hn] at this
            · rw [Nat.min_eq_right hn, List.take_length] at this
              rwa [List.take_of_length_le hn]
          · have := hsums (accesses.length + 1)
            rwa [List.take_of_length_le (by simp)] at this
  obtain ⟨h1, -, h3, h4⟩ := key
  refine ⟨h1, h3, fun hfit => h4 (hfit.imp (fun hlt => by omega) fun hsums n => ?_)⟩
  have := hsums n
  omega

/-- A cache of numbers, in which a state weighs what it says. -/
def weights : PrefixCacheValue ℕ ℕ where
  prefixCacheState := id
  prefixCacheFromState := some
  prefixCacheEntryBytes _ states := min states.sum wordMax
  entryBytes_lt _ _ := by
    unfold wordMax
    omega

/-- Two stores, a lookup that uses the first entry, and a store that evicts the
second. -/
theorem prefixCache_consistent_four_accesses :
    ∃ inner : PrefixCacheInner ℕ ℕ, inner = afterAll weights 10 [.store 0 [1, 2] [] [4],
        .store 0 [3] [] [5], .lookup 0 [1, 2, 7] (fun _ => true), .store 1 [1, 2] [] [3]] ∧
      inner.residentBytes = 7 ∧ inner.usedBytes = inner.residentBytes := by
  refine ⟨_, rfl, by decide +kernel, ?_⟩
  exact (prefixCache_consistent weights (by decide) _ (by decide)).2.2 (.inl (by decide))

/-- With a limit of `u64::MAX` nothing is evicted, and the counter stops at the
limit while the entries go past it. -/
theorem usedBytes_saturates :
    ∃ inner : PrefixCacheInner ℕ ℕ, inner = afterAll weights (2 ^ 64 - 1)
        [.store 0 [1] [] [2 ^ 63], .store 0 [2] [] [2 ^ 63]] ∧
      inner.residentBytes = 2 ^ 64 ∧ inner.usedBytes = 2 ^ 64 - 1 := by
  exact ⟨_, rfl, by decide +kernel, by decide +kernel⟩

end NativeTextPrefixCache

end KirAi.NativeRuntime
