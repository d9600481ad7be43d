/-
# The prefix cache is a list in the order of use

The stamps of the entries and the ordered set that is kept beside them make one
list: the resident entries, the least recently used first (`residents`). A
lookup that hits moves its entry to the back; a store takes out what is under
its tokens, makes room at the front and goes to the back (`Lru.put`). The cache
refines that list over every run in which the stamps stay distinct.

Key definitions: `PrefixCacheInner.residents`, `PrefixCacheInner.Refines`, `lruRun`.
Key theorems: `Refines.storeEntry`, `Refines.lookup`, `afterAll_refines`.
-/
import KirAi.Lib.Lru
import KirAi.NativeRuntime.PrefixCacheLookup

namespace KirAi.NativeRuntime

open Lib KvCache

namespace PrefixCacheInner

variable {N S : Type}

/-- An entry, under its namespace and tokens. -/
abbrev Resident (N S : Type) := LruItem (N × List ℕ) (PrefixCacheEntryPayload S)

def residentOf (ns : N) (tokens : List ℕ) (e : PrefixCacheEntry S) : Resident N S :=
  ⟨(ns, tokens), e.payload, e.byteLen⟩

variable [Ord N] [Std.TransOrd N]

/-- The entries in the order of the index of use. -/
def residents [Std.LawfulEqOrd N] (inner : PrefixCacheInner N S) : List (Resident N S) :=
  inner.lru.entries.toList.filterMap fun key =>
    (inner.entryAt key.ns key.tokens).map (residentOf key.ns key.tokens)

/-- The list has the entries, and each is used later than those before it. -/
structure Lists (inner : PrefixCacheInner N S) (l : List (Resident N S)) : Prop where
  mem : ∀ x, x ∈ l ↔ ∃ e, inner.entryAt x.key.1 x.key.2 = some e ∧ x = residentOf x.key.1 x.key.2 e
  older : l.Pairwise fun x y => ∀ e e', inner.entryAt x.key.1 x.key.2 = some e →
    inner.entryAt y.key.1 y.key.2 = some e' → e.lastUsed < e'.lastUsed

variable {inner inner' : PrefixCacheInner N S} {l : List (Resident N S)} {ns : N} {tokens : List ℕ}
  {e : PrefixCacheEntry S}

theorem Lists.nil : Lists (default : PrefixCacheInner N S) [] := by
  refine ⟨fun x => ?_, List.Pairwise.nil⟩
  simp [default, entryAt, at2, bucket]

theorem Lists.mem_of_entry (h : Lists inner l) (he : inner.entryAt ns tokens = some e) :
    residentOf ns tokens e ∈ l := (h.mem _).mpr ⟨e, he, rfl⟩

theorem Lists.distinct (h : Lists inner l) : Lru.Distinct l := by
  refine h.older.imp_of_mem fun {x y} hx _ hlt hkey => ?_
  obtain ⟨e, he, -⟩ := (h.mem x).mp hx
  exact absurd (hlt e e he (hkey ▸ he)) (Nat.lt_irrefl _)

variable [DecidableEq N]

/-- Where the other entries stay, so does their order. -/
theorem Lists.older_without (h : Lists inner l)
    (others : ∀ ns' tokens', ¬ (ns' = ns ∧ tokens' = tokens) →
      inner'.entryAt ns' tokens' = inner.entryAt ns' tokens') :
    (Lru.without (ns, tokens) l).Pairwise fun x y => ∀ e e',
      inner'.entryAt x.key.1 x.key.2 = some e → inner'.entryAt y.key.1 y.key.2 = some e' →
      e.lastUsed < e'.lastUsed := by
  have hne : ∀ x ∈ Lru.without (ns, tokens) l, ¬ (x.key.1 = ns ∧ x.key.2 = tokens) :=
    fun x hx hkey => (Lru.mem_without.mp hx).2 (Prod.ext hkey.1 hkey.2)
  refine (h.older.sublist List.filter_sublist).imp_of_mem fun {x y} hx hy hlt e e' he he' => ?_
  rw [others _ _ (hne x hx)] at he
  rw [others _ _ (hne y hy)] at he'
  exact hlt e e' he he'

theorem Lists.mem_without (h : Lists inner l)
    (others : ∀ ns' tokens', ¬ (ns' = ns ∧ tokens' = tokens) →
      inner'.entryAt ns' tokens' = inner.entryAt ns' tokens') (x : Resident N S) :
    x ∈ Lru.without (ns, tokens) l ↔ x.key ≠ (ns, tokens) ∧
      ∃ e, inner'.entryAt x.key.1 x.key.2 = some e ∧ x = residentOf x.key.1 x.key.2 e := by
  rw [Lru.mem_without, h.mem, and_comm]
  refine and_congr_right fun hne => ?_
  rw [others _ _ fun hkey => hne (Prod.ext hkey.1 hkey.2)]

theorem Lists.remove (h : Lists inner l) (gone : inner'.entryAt ns tokens = none)
    (others : ∀ ns' tokens', ¬ (ns' = ns ∧ tokens' = tokens) →
      inner'.entryAt ns' tokens' = inner.entryAt ns' tokens') :
    Lists inner' (Lru.without (ns, tokens) l) := by
  refine ⟨fun x => ?_, h.older_without others⟩
  rw [h.mem_without others]
  refine ⟨And.right, fun hx => ⟨?_, hx⟩⟩
  rintro hkey
  obtain ⟨e, he, -⟩ := hx
  rw [hkey, gone] at he
  cases he

/-- An entry that is put, with the latest stamp. -/
theorem Lists.put (h : Lists inner l) (entry : inner'.entryAt ns tokens = some e)
    (others : ∀ ns' tokens', ¬ (ns' = ns ∧ tokens' = tokens) →
      inner'.entryAt ns' tokens' = inner.entryAt ns' tokens')
    (newest : ∀ ns' tokens' e', inner.entryAt ns' tokens' = some e' → e'.lastUsed < e.lastUsed) :
    Lists inner' (Lru.without (ns, tokens) l ++ [residentOf ns tokens e]) := by
  refine ⟨fun x => ?_, List.pairwise_append.mpr ⟨h.older_without others, List.pairwise_singleton _ _,
    fun x hx y hy d d' hd hd' => ?_⟩⟩
  · rw [List.mem_append, List.mem_singleton, h.mem_without others]
    constructor
    · rintro (⟨-, hx⟩ | rfl)
      · exact hx
      · exact ⟨e, entry, rfl⟩
    · rintro ⟨e', he', hx⟩
      by_cases hkey : x.key = (ns, tokens)
      · rw [hkey] at he' hx
        rw [entry, Option.some.injEq] at he'
        exact .inr (he' ▸ hx)
      · exact .inl ⟨hkey, e', he', hx⟩
  · have hne : ¬ (x.key.1 = ns ∧ x.key.2 = tokens) :=
      fun hkey => (Lru.mem_without.mp hx).2 (Prod.ext hkey.1 hkey.2)
    rw [List.mem_singleton] at hy
    subst hy
    have hlast : d' = e := Option.some.inj (hd'.symm.trans entry)
    rw [others _ _ hne] at hd
    rw [hlast]
    exact newest _ _ d hd

/-! ### The index of use lists the same -/

omit [DecidableEq N] [Std.TransOrd N] in
theorem cmp_lt_of_access_lt {a b : PrefixCacheLruKey N} (h : a.access < b.access) :
    PrefixCacheLruKey.cmp a b = .lt := by
  have hlt : compare a.access b.access = .lt := Nat.compare_eq_lt.mpr h
  rw [PrefixCacheLruKey.cmp, compareLex, compareOn, hlt]
  rfl

/-- The key of an item in the index of use. -/
def keyOf (inner : PrefixCacheInner N S) (x : Resident N S) : PrefixCacheLruKey N :=
  ⟨((inner.entryAt x.key.1 x.key.2).map (·.lastUsed)).getD 0, x.key.1, x.key.2⟩

omit [DecidableEq N] in
theorem keyOf_eq {x : Resident N S} (he : inner.entryAt x.key.1 x.key.2 = some e) :
    inner.keyOf x = ⟨e.lastUsed, x.key.1, x.key.2⟩ := by
  rw [keyOf, he, Option.map_some, Option.getD_some]

variable [Std.LawfulEqOrd N]

omit [DecidableEq N] in
/-- The index of use is the list of the keys. -/
theorem Lists.toList_eq (h : Lists inner l) (hinv : Inv inner) :
    inner.lru.entries.toList = l.map inner.keyOf := by
  have hsorted : (l.map inner.keyOf).Pairwise fun a b => PrefixCacheLruKey.cmp a b = .lt := by
    rw [List.pairwise_map]
    refine h.older.imp_of_mem fun {x y} hx hy hlt => ?_
    obtain ⟨e, he, -⟩ := (h.mem x).mp hx
    obtain ⟨e', he', -⟩ := (h.mem y).mp hy
    rw [keyOf_eq he, keyOf_eq he']
    exact cmp_lt_of_access_lt (hlt e e' he he')
  have hmem : ∀ key, key ∈ inner.lru.entries.toList ↔ key ∈ l.map inner.keyOf := by
    intro key
    rw [Std.ExtTreeSet.mem_toList, hinv.lru key, List.mem_map]
    constructor
    · rintro ⟨e, he, hlast⟩
      exact ⟨_, h.mem_of_entry he, by rw [keyOf_eq (x := residentOf key.ns key.tokens e) he, hlast]; rfl⟩
    · rintro ⟨x, hx, rfl⟩
      obtain ⟨e, he, -⟩ := (h.mem x).mp hx
      rw [keyOf_eq he]
      exact ⟨e, he, rfl⟩
  have hirrefl : ∀ a b : PrefixCacheLruKey N, PrefixCacheLruKey.cmp a b = .lt → a ≠ b := by
    rintro a b hlt rfl
    have hself : PrefixCacheLruKey.cmp a a = .eq := Std.ReflCmp.compare_self
    rw [hself] at hlt
    cases hlt
  have hasymm : ∀ a b : PrefixCacheLruKey N, PrefixCacheLruKey.cmp a b = .lt →
      PrefixCacheLruKey.cmp b a = .lt → a = b := by
    intro a b hab hba
    have hswap : PrefixCacheLruKey.cmp b a = (PrefixCacheLruKey.cmp a b).swap := Std.OrientedCmp.eq_swap
    rw [hswap, hab] at hba
    cases hba
  have hordered := Std.ExtTreeSet.ordered_toList (t := inner.lru.entries)
  refine List.Perm.eq_of_pairwise (fun a b _ _ => hasymm a b) hordered hsorted ?_
  refine (List.perm_ext_iff_of_nodup ?_ ?_).mpr hmem
  · exact hordered.imp fun {a b} => hirrefl a b
  · exact hsorted.imp fun {a b} => hirrefl a b

omit [DecidableEq N] in
theorem Lists.residents_eq (h : Lists inner l) (hinv : Inv inner) : inner.residents = l := by
  rw [residents, h.toList_eq hinv, List.filterMap_map]
  conv_rhs => rw [← List.filterMap_some (l := l)]
  refine List.filterMap_congr fun x hx => ?_
  obtain ⟨e, he, hxe⟩ := (h.mem x).mp hx
  rw [Function.comp_apply, keyOf_eq he, he, Option.map_some]
  exact congrArg some hxe.symm

omit [DecidableEq N] in
theorem Lists.len_eq (h : Lists inner l) (hinv : Inv inner) : inner.lru.len = l.length := by
  rw [PrefixCacheLruIndex.len, ← Std.ExtTreeSet.length_toList, h.toList_eq hinv, List.length_map]

omit [DecidableEq N] in
/-- The first of the list is the entry that goes first. -/
theorem Lists.removeLruEntry {x : Resident N S} (h : Lists inner (x :: l)) (hinv : Inv inner)
    (he : inner.entryAt x.key.1 x.key.2 = some e) : inner.removeLruEntry = (some e,
      { inner.forget x.key.1 x.key.2 e with entries := del2 inner.entries x.key.1 x.key.2 }) := by
  have holdest : inner.lru.oldest = some (inner.keyOf x) := by
    rw [PrefixCacheLruIndex.oldest, h.toList_eq hinv]
    rfl
  rw [PrefixCacheInner.removeLruEntry, holdest]
  exact removeEntry_present he

/-! ### Making room and storing -/

/-- The cache has the entries of the list and counts its bytes. -/
structure Refines (inner : PrefixCacheInner N S) (l : List (Resident N S)) : Prop where
  inv : Inv inner
  lists : Lists inner l
  bytes : inner.usedBytes = Lru.total l

/-- An entry that is taken out. -/
theorem Refines.remove (h : Refines inner l) (he : inner.entryAt ns tokens = some e) :
    Refines { inner.forget ns tokens e with
      entries := del2 inner.entries ns tokens,
      usedBytes := (inner.forget ns tokens e).usedBytes - e.byteLen } (Lru.without (ns, tokens) l) := by
  have hremoved := h.inv.removeEntry he
  have hat : ∀ ns' tokens', at2 (del2 inner.entries ns tokens) ns' tokens' =
      if ns = ns' ∧ tokens = tokens' then none else inner.entryAt ns' tokens' :=
    at2_del2 inner.entries ns tokens
  have hsum := Lru.total_without h.lists.distinct (h.lists.mem_of_entry he)
  refine ⟨⟨hremoved.buckets, hremoved.lru, hremoved.stamps, hremoved.older, hremoved.index⟩,
    h.lists.remove ?_ fun ns' tokens' hne => ?_, ?_⟩
  · exact (hat ns tokens).trans (if_pos ⟨rfl, rfl⟩)
  · exact (hat ns' tokens').trans (if_neg fun heq => hne ⟨heq.1.symm, heq.2.symm⟩)
  · change (inner.forget ns tokens e).usedBytes - e.byteLen = _
    rw [(forget_counters inner ns tokens e).1, h.bytes, ← hsum]
    exact Nat.add_sub_cancel _ _

theorem Refines.evictLoop {maxBytes byteLen : ℕ} (hmax : maxBytes < wordMax) :
    ∀ (l : List (Resident N S)) (n : ℕ) {inner : PrefixCacheInner N S}, Refines inner l → l.length ≤ n →
      Refines (inner.evictLoop maxBytes byteLen n) (Lru.makeRoom maxBytes byteLen l) ∧
        (inner.evictLoop maxBytes byteLen n).nextAccess = inner.nextAccess
  | [], 0, inner, h, _ => ⟨h, rfl⟩
  | [], n + 1, inner, h, _ => by
    rw [PrefixCacheInner.evictLoop]
    have holdest : inner.lru.oldest = none := by
      rw [PrefixCacheLruIndex.oldest, h.lists.toList_eq h.inv]
      rfl
    rw [PrefixCacheInner.removeLruEntry, holdest]
    dsimp only
    split <;> exact ⟨h, rfl⟩
  | x :: l, 0, inner, h, hn => absurd hn (Nat.not_succ_le_zero _)
  | x :: l, n + 1, inner, h, hn => by
    obtain ⟨e, he, hxe⟩ := (h.lists.mem x).mp (List.mem_cons_self ..)
    rw [PrefixCacheInner.evictLoop, Lru.makeRoom]
    have hfull : satAdd inner.usedBytes byteLen > maxBytes ↔
        ¬ Lru.total (x :: l) + byteLen ≤ maxBytes := by
      rw [h.bytes]
      unfold satAdd
      omega
    by_cases hfits : Lru.total (x :: l) + byteLen ≤ maxBytes
    · rw [if_neg (by rw [hfull]; exact not_not_intro hfits), if_pos hfits]
      exact ⟨h, rfl⟩
    · rw [if_pos (hfull.mpr hfits), if_neg hfits, h.lists.removeLruEntry h.inv he]
      dsimp only
      have hrest : Lru.without (x.key.1, x.key.2) (x :: l) = l := by
        rw [Lru.without, List.filter_cons_of_neg (by simp), ← Lru.without]
        exact Lru.without_of_absent fun y hy =>
          ((List.pairwise_cons.mp h.lists.distinct).1 y hy).symm
      have hremove := h.remove he
      rw [hrest] at hremove
      obtain ⟨hafter, hnext⟩ := Refines.evictLoop hmax l n hremove (Nat.le_of_succ_le_succ hn)
      exact ⟨hafter, hnext.trans (forget_counters inner _ _ e).2⟩

end PrefixCacheInner

namespace NativeTextPrefixCache

open PrefixCacheInner

variable {N C S : Type} [DecidableEq N]

/-! ### The list that is refined -/

/-- The item of the query's first `n` tokens, if the caller can use it. -/
def hitAt (isCompatible : List S → Bool) (ns : N) (tokens : List ℕ) (l : List (Resident N S)) (n : ℕ) :
    Option (Resident N S) :=
  l.find? fun x => x.key = (ns, tokens.take n) && isCompatible x.value.states

/-- The item of the longest start of the query, of at most `n` tokens. -/
def longestHitUpTo (isCompatible : List S → Bool) (ns : N) (tokens : List ℕ) (l : List (Resident N S)) :
    ℕ → Option (Resident N S)
  | 0 => hitAt isCompatible ns tokens l 0
  | n + 1 =>
    (hitAt isCompatible ns tokens l (n + 1)).or (longestHitUpTo isCompatible ns tokens l n)

def longestHit (isCompatible : List S → Bool) (ns : N) (tokens : List ℕ) (l : List (Resident N S)) :
    Option (Resident N S) := longestHitUpTo isCompatible ns tokens l tokens.length

/-- What an access makes of the list. -/
def lruStep (value : PrefixCacheValue C S) (maxBytes : ℕ) (l : List (Resident N S)) :
    Access N C S → List (Resident N S)
  | .lookup ns tokens isCompatible =>
    match longestHit isCompatible ns tokens l with
    | none => l
    | some x => Lru.touch x.key l
  | .store ns tokens hidden caches =>
    let states := value.prefixCacheState caches
    if accepts value maxBytes tokens hidden caches then
      Lru.put maxBytes ⟨(ns, tokens), ⟨hidden, states⟩, value.prefixCacheEntryBytes hidden states⟩ l
    else l

def lruRun (value : PrefixCacheValue C S) (maxBytes : ℕ) (accesses : List (Access N C S)) :
    List (Resident N S) := accesses.foldl (lruStep value maxBytes) []

/-! ### Each access -/

variable [Ord N] [Std.TransOrd N] [Std.LawfulEqOrd N] {value : PrefixCacheValue C S}
  {inner : PrefixCacheInner N S} {l : List (Resident N S)} {ns : N} {tokens : List ℕ}

theorem Refines.dropExisting (h : Refines inner l) (ns : N) (tokens : List ℕ) :
    Refines (dropExisting inner ns tokens) (Lru.without (ns, tokens) l) ∧
      (NativeTextPrefixCache.dropExisting inner ns tokens).nextAccess = inner.nextAccess := by
  refine ⟨?_, (dropExisting_spec h.inv ns tokens).2.1⟩
  unfold NativeTextPrefixCache.dropExisting
  cases he : inner.entryAt ns tokens with
  | none =>
    rw [removeEntry_absent h.inv.buckets he, Lru.without_of_absent]
    · exact h
    · intro x hx hkey
      obtain ⟨e, he', -⟩ := (h.lists.mem x).mp hx
      rw [hkey, he] at he'
      cases he'
  | some e =>
    rw [removeEntry_present he]
    exact h.remove he

/-- A store that is not refused puts its item. -/
theorem Refines.storeEntry (h : Refines inner l) (ns : N) (tokens : List ℕ) (hnext : inner.nextAccess < wordMax) {maxBytes byteLen : ℕ}
    (hmax : maxBytes < wordMax) (hlen : byteLen ≤ maxBytes) (payload : PrefixCacheEntryPayload S) :
    Refines (storeEntry maxBytes inner ns tokens payload byteLen)
        (Lru.put maxBytes ⟨(ns, tokens), payload, byteLen⟩ l) ∧
      (NativeTextPrefixCache.storeEntry maxBytes inner ns tokens payload byteLen).nextAccess =
        inner.nextAccess + 1 := by
  obtain ⟨hdrop, hacc⟩ := Refines.dropExisting h ns tokens
  have hroom : Refines (madeRoom maxBytes byteLen inner ns tokens)
        (Lru.makeRoom maxBytes byteLen (Lru.without (ns, tokens) l)) ∧
      (madeRoom maxBytes byteLen inner ns tokens).nextAccess =
        (NativeTextPrefixCache.dropExisting inner ns tokens).nextAccess :=
    Refines.evictLoop hmax _ _ hdrop (Nat.le_of_eq (hdrop.lists.len_eq hdrop.inv).symm)
  rw [storeEntry_eq maxBytes byteLen inner ns tokens payload rfl]
  generalize madeRoom maxBytes byteLen inner ns tokens = room at hroom
  obtain ⟨hroom, hacc'⟩ := hroom
  have hnext' : room.nextAccess = inner.nextAccess := hacc'.trans hacc
  -- nothing is under the key any more
  have habsent : ∀ x ∈ Lru.makeRoom maxBytes byteLen (Lru.without (ns, tokens) l), x.key ≠ (ns, tokens) :=
    fun x hx => (Lru.mem_without.mp ((Lru.makeRoom_sublist _ _ _).subset hx)).2
  have hnone : room.entryAt ns tokens = none := by
    cases he : room.entryAt ns tokens with
    | none => rfl
    | some e => exact absurd rfl (habsent _ (hroom.lists.mem_of_entry he))
  have hlt : room.nextAccess < wordMax := hnext' ▸ hnext
  have hput : Lists ⟨put2 room.entries ns tokens ⟨payload, byteLen, room.nextAccess⟩,
        room.indexes.insert ns ((room.indexes[ns]?.getD .default).insert tokens),
        room.lru.insert ns tokens room.nextAccess, satAdd room.usedBytes byteLen,
        satAdd room.nextAccess 1⟩
      (Lru.without (ns, tokens) (Lru.makeRoom maxBytes byteLen (Lru.without (ns, tokens) l)) ++
        [residentOf ns tokens ⟨payload, byteLen, room.nextAccess⟩]) := by
    refine hroom.lists.put ?_ (fun ns' tokens' hne => ?_) fun ns' tokens' e' he' =>
      hroom.inv.older ns' tokens' e' he'
    · change at2 (put2 _ _ _ _) _ _ = _
      rw [at2_put2, if_pos ⟨rfl, rfl⟩]
    · change at2 (put2 _ _ _ _) _ _ = _
      rw [at2_put2, if_neg fun heq => hne ⟨heq.1.symm, heq.2.symm⟩]
      rfl
  rw [Lru.without_of_absent habsent] at hput
  have htotal := Lru.total_makeRoom_le hlen (Lru.without (ns, tokens) l)
  refine ⟨⟨hroom.inv.of_put rfl hlt (hroom.inv.indexed.insertEntry hnone rfl _), hput, ?_⟩, ?_⟩
  · dsimp only
    rw [hroom.bytes, satAdd_of_le (by omega), Lru.put, Lru.total_append]
    rfl
  · dsimp only
    rw [satAdd_of_le hlt, hnext']

omit [Ord N] [Std.TransOrd N] [Std.LawfulEqOrd N] in
theorem longestHitUpTo_eq {isCompatible : List S → Bool} {x : Resident N S} {n : ℕ}
    (hit : hitAt isCompatible ns tokens l n = some x) : ∀ {bound : ℕ}, n ≤ bound →
    (∀ m, n < m → m ≤ bound → hitAt isCompatible ns tokens l m = none) →
    longestHitUpTo isCompatible ns tokens l bound = some x
  | 0, hn, _ => by
    rw [Nat.le_zero.mp hn] at hit
    exact hit
  | bound + 1, hn, hmiss => by
    rw [longestHitUpTo]
    rcases Nat.lt_or_ge n (bound + 1) with hlt | hge
    · rw [hmiss (bound + 1) hlt (Nat.le_refl _), Option.none_or]
      exact longestHitUpTo_eq hit (Nat.le_of_lt_succ hlt) fun m hm hm' => hmiss m hm (Nat.le_succ_of_le hm')
    · have hsame : bound + 1 = n := Nat.le_antisymm hge hn
      rw [hsame, hit, Option.some_or]

omit [Ord N] [Std.TransOrd N] [Std.LawfulEqOrd N] in
theorem longestHitUpTo_none {isCompatible : List S → Bool} : ∀ {bound : ℕ},
    (∀ m, m ≤ bound → hitAt isCompatible ns tokens l m = none) →
    longestHitUpTo isCompatible ns tokens l bound = none
  | 0, hmiss => hmiss 0 (Nat.le_refl _)
  | bound + 1, hmiss => by
    rw [longestHitUpTo, hmiss _ (Nat.le_refl _), Option.none_or]
    exact longestHitUpTo_none fun m hm => hmiss m (Nat.le_succ_of_le hm)

omit [Std.LawfulEqOrd N] in
theorem hitAt_some (h : Lists inner l) {isCompatible : List S → Bool} {n : ℕ} {e : PrefixCacheEntry S}
    (he : inner.entryAt ns (tokens.take n) = some e) (hc : isCompatible e.payload.states = true) :
    hitAt isCompatible ns tokens l n = some (residentOf ns (tokens.take n) e) := by
  have hmem := h.mem_of_entry he
  cases hfind : hitAt isCompatible ns tokens l n with
  | none =>
    have := List.find?_eq_none.mp hfind _ hmem
    simp [residentOf, hc] at this
  | some x =>
    have hx := List.find?_some hfind
    rw [Bool.and_eq_true, decide_eq_true_iff] at hx
    exact congrArg some (h.distinct.eq_of_key (List.mem_of_find?_eq_some hfind) hmem hx.1)

omit [Std.LawfulEqOrd N] in
theorem hitAt_none (h : Lists inner l) {isCompatible : List S → Bool} {n : ℕ}
    (hno : ¬ inner.Usable isCompatible ns tokens n) : hitAt isCompatible ns tokens l n = none := by
  refine List.find?_eq_none.mpr fun x hx hhit => ?_
  rw [Bool.and_eq_true, decide_eq_true_iff] at hhit
  obtain ⟨e, he, hxe⟩ := (h.mem x).mp hx
  rw [hhit.1] at he hxe
  refine hno ⟨e, he, ?_⟩
  rw [hxe] at hhit
  exact hhit.2

/-- A lookup moves what it hits to the back. -/
theorem Refines.lookup (h : Refines inner l) (hnext : inner.nextAccess < wordMax) (ns : N)
    (tokens : List ℕ) (isCompatible : List S → Bool) :
    Refines (lookupCompatible value inner ns tokens isCompatible).2
        (match longestHit isCompatible ns tokens l with
          | none => l
          | some x => Lru.touch x.key l) ∧
      (lookupCompatible value inner ns tokens isCompatible).2.nextAccess ≤ inner.nextAccess + 1 := by
  obtain ⟨hinv, hnext', hused, -⟩ := lookupCompatible_inv value ns tokens h.inv hnext isCompatible
  refine ⟨?_, hnext'⟩
  rcases lookup_cases h.inv.indexed value ns tokens isCompatible with
    ⟨hno, hr⟩ | ⟨n, e, after, hgreatest, he, honly, -, hr⟩
  · have hmiss : longestHit isCompatible ns tokens l = none :=
      longestHitUpTo_none fun m hm => hitAt_none h.lists fun husable =>
        hno m (answers_iff.mpr ⟨hm, husable⟩)
    rw [hmiss, hr]
    exact h
  · obtain ⟨hle, e', he', hc⟩ := answers_iff.mp hgreatest.1
    rw [he, Option.some.injEq] at he'
    subst he'
    have hit : longestHit isCompatible ns tokens l = some (residentOf ns (tokens.take n) e) :=
      longestHitUpTo_eq (hitAt_some h.lists he hc) hle fun m hm hm' => hitAt_none h.lists fun husable =>
        absurd (hgreatest.2 (answers_iff.mpr ⟨hm', husable⟩)) (Nat.not_le_of_lt hm)
    have hmem := h.lists.mem_of_entry he
    have htotal := Lru.total_without h.lists.distinct hmem
    rw [hit]
    dsimp only
    rw [Lru.touch_eq h.lists.distinct hmem]
    refine ⟨hinv, ?_, ?_⟩
    · rw [hr]
      have hentry : after.entryAt ns (tokens.take n) = some { e with lastUsed := inner.nextAccess } := by
        rw [honly.entry, he]
        rfl
      have hput : Lists after (Lru.without (ns, tokens.take n) l ++
          [residentOf ns (tokens.take n) { e with lastUsed := inner.nextAccess }]) :=
        h.lists.put hentry honly.others fun ns' tokens' e' he' => h.inv.older ns' tokens' e' he'
      exact hput
    · rw [hused, h.bytes, Lru.total_append, ← htotal]
      rfl

/-! ### Runs -/

theorem Access.run_refines (value : PrefixCacheValue C S) (h : Refines inner l) (hnext : inner.nextAccess < wordMax) {maxBytes : ℕ}
    (hmax : maxBytes < wordMax) (access : Access N C S) :
    Refines (access.run value maxBytes inner) (lruStep value maxBytes l access) ∧
      (access.run value maxBytes inner).nextAccess ≤ inner.nextAccess + 1 := by
  cases access with
  | lookup ns tokens isCompatible => exact Refines.lookup h hnext ns tokens isCompatible
  | store ns tokens hidden caches =>
    rw [Access.run, lruStep, store_eq]
    by_cases haccepts : accepts value maxBytes tokens hidden caches = true
    · have hlen : value.prefixCacheEntryBytes hidden (value.prefixCacheState caches) ≤ maxBytes := by
        rw [accepts, Bool.and_eq_true, decide_eq_true_iff] at haccepts
        exact haccepts.2
      rw [if_pos haccepts, if_pos haccepts]
      obtain ⟨hafter, hacc⟩ := Refines.storeEntry h ns tokens hnext hmax hlen
        ⟨hidden, value.prefixCacheState caches⟩
      exact ⟨hafter, Nat.le_of_eq hacc⟩
    · rw [if_neg haccepts, if_neg haccepts]
      exact ⟨h, Nat.le_succ _⟩

theorem afterAll_refines (value : PrefixCacheValue C S) {maxBytes : ℕ} (hmax : maxBytes < wordMax)
    (accesses : List (Access N C S)) (hlen : accesses.length ≤ wordMax) :
    Refines (afterAll value maxBytes accesses) (lruRun value maxBytes accesses) ∧
      (afterAll value maxBytes accesses).nextAccess ≤ accesses.length := by
  induction accesses using List.reverseRecOn with
  | nil => exact ⟨⟨default_inv, .nil, rfl⟩, Nat.le_refl _⟩
  | append_singleton accesses access ih =>
    rw [List.length_append, List.length_singleton] at hlen
    obtain ⟨ih, hnext⟩ := ih (by omega)
    have hafter : afterAll value maxBytes (accesses ++ [access]) =
        access.run value maxBytes (afterAll value maxBytes accesses) := List.foldl_concat _ _ _ _
    have hrun : lruRun value maxBytes (accesses ++ [access]) =
        lruStep value maxBytes (lruRun value maxBytes accesses) access := List.foldl_concat _ _ _ _
    obtain ⟨hstep, hnext'⟩ := access.run_refines value ih (by omega) hmax
    rw [hafter, hrun, List.length_append, List.length_singleton]
    exact ⟨hstep, by omega⟩

end NativeTextPrefixCache

end KirAi.NativeRuntime
