/-
# A lookup finds the longest compatible prefix

`lookup_compatible` walks the lengths that the index of the namespace lists,
not the entries. It still agrees with a search through all entries: the hit is
the longest resident entry whose tokens start the query and whose states the
caller can use, with what was stored last under these tokens. The indexes are
followed here without their stamps (`Indexed`), so that the runs can be of any
length.

Key definitions: `PrefixCacheInner.Answers`, `lastStored`, `LongestPrefix`.
Key theorems: `PrefixCacheLengthIndex.Counts.mem_prefixCandidateLengths`,
`lookup_cases`, `afterAll_holds`, `lookupCompatible_longest`.
-/
import KirAi.NativeRuntime.PrefixCacheInv
import Mathlib.Order.Bounds.Basic

namespace KirAi.NativeRuntime

open Lib KvCache

/-! ### The candidate lengths -/

namespace PrefixCacheLengthIndex

theorem take_partitionPoint (p : ℕ → Bool) (l : List ℕ) :
    l.take (partitionPoint p l) = l.takeWhile p :=
  (List.prefix_iff_eq_take.mp (List.takeWhile_prefix p)).symm

/-- Of a list in order, `takeWhile` keeps all that is not above the bound. -/
theorem mem_takeWhile_le {max n : ℕ} : ∀ {l : List ℕ}, l.Pairwise (· < ·) →
    (n ∈ l.takeWhile (fun x => decide (x ≤ max)) ↔ n ∈ l ∧ n ≤ max)
  | [], _ => by simp
  | x :: l, h => by
    obtain ⟨hx, hl⟩ := List.pairwise_cons.mp h
    by_cases hle : x ≤ max
    · rw [List.takeWhile_cons_of_pos (by simpa using hle), List.mem_cons, mem_takeWhile_le hl,
        List.mem_cons]
      constructor
      · rintro (rfl | ⟨hn, hmax⟩)
        · exact ⟨.inl rfl, hle⟩
        · exact ⟨.inr hn, hmax⟩
      · rintro ⟨rfl | hn, hmax⟩
        · exact .inl rfl
        · exact .inr ⟨hn, hmax⟩
    · rw [List.takeWhile_cons_of_neg (by simpa using hle)]
      refine ⟨fun hn => absurd hn List.not_mem_nil, ?_⟩
      rintro ⟨hn, hmax⟩
      rcases List.mem_cons.mp hn with rfl | hn
      · exact absurd hmax hle
      · have := hx n hn
        omega

variable {index : PrefixCacheLengthIndex} {c : ℕ → ℕ}

theorem Counts.mem_prefixCandidateLengths (h : index.Counts c) (max n : ℕ) :
    n ∈ index.prefixCandidateLengths max ↔ 0 < c n ∧ n ≤ max := by
  unfold prefixCandidateLengths
  rw [take_partitionPoint, List.mem_reverse, mem_takeWhile_le h.sorted, h.mem]

theorem Counts.prefixCandidateLengths_descending (h : index.Counts c) (max : ℕ) :
    (index.prefixCandidateLengths max).Pairwise (· > ·) := by
  unfold prefixCandidateLengths
  rw [List.pairwise_reverse]
  exact h.sorted.sublist (List.take_sublist _ _)

end PrefixCacheLengthIndex

namespace PrefixCacheInner

variable {N S : Type} [Ord N] [Std.TransOrd N] {inner : PrefixCacheInner N S} {ns : N}
  {tokens : List ℕ} {e : PrefixCacheEntry S} {isCompatible : List S → Bool}

/-- An entry of length `n` is resident whose tokens start the query and whose
states the caller can use. -/
def Answers (inner : PrefixCacheInner N S) (isCompatible : List S → Bool) (ns : N)
    (tokens : List ℕ) (n : ℕ) : Prop :=
  ∃ entryTokens e, inner.entryAt ns entryTokens = some e ∧ entryTokens <+: tokens ∧
    entryTokens.length = n ∧ isCompatible e.payload.states = true

theorem answers_iff {n : ℕ} : inner.Answers isCompatible ns tokens n ↔
    n ≤ tokens.length ∧ inner.Usable isCompatible ns tokens n := by
  constructor
  · rintro ⟨entryTokens, e, he, hstarts, rfl, hc⟩
    refine ⟨hstarts.length_le, e, ?_, hc⟩
    rwa [← List.prefix_iff_eq_take.mp hstarts]
  · rintro ⟨hle, e, he, hc⟩
    exact ⟨tokens.take n, e, he, List.take_prefix n tokens, List.length_take_of_le hle, hc⟩

/-- The only thing that changes is when the entry was used last. -/
structure OnlyRecency (inner after : PrefixCacheInner N S) (ns : N) (tokens : List ℕ) : Prop where
  entry : after.entryAt ns tokens =
    (inner.entryAt ns tokens).map ({ · with lastUsed := inner.nextAccess })
  others : ∀ ns' tokens', ¬ (ns' = ns ∧ tokens' = tokens) →
    after.entryAt ns' tokens' = inner.entryAt ns' tokens'
  order : ∀ key, ¬ (key.ns = ns ∧ key.tokens = tokens) →
    (key ∈ after.lru.entries ↔ key ∈ inner.lru.entries)
  indexes : after.indexes = inner.indexes
  usedBytes : after.usedBytes = inner.usedBytes
  nextAccess : after.nextAccess = satAdd inner.nextAccess 1

/-- The lengths that are scanned, longest first. -/
def candidates (inner : PrefixCacheInner N S) (ns : N) (tokens : List ℕ) : List ℕ :=
  (inner.indexes[ns]?.map (·.prefixCandidateLengths tokens.length)).getD []

theorem Indexed.candidates_descending (h : Indexed inner) (ns : N) (tokens : List ℕ) :
    (inner.candidates ns tokens).Pairwise (· > ·) := by
  have hindex := h.index ns
  unfold candidates
  cases hi : inner.indexes[ns]? with
  | none => exact List.Pairwise.nil
  | some index =>
    rw [hi] at hindex
    exact hindex.1.prefixCandidateLengths_descending tokens.length

/-- The index knows every length at which there is an entry. -/
theorem Indexed.mem_candidates (h : Indexed inner) {n : ℕ}
    (hn : inner.Answers isCompatible ns tokens n) : n ∈ inner.candidates ns tokens := by
  obtain ⟨entryTokens, e, he, hstarts, rfl, -⟩ := hn
  have hcount := lengthCount_pos he
  have hindex := h.index ns
  unfold candidates
  cases hi : inner.indexes[ns]? with
  | none =>
    rw [hi] at hindex
    have hzero : inner.lengthCount ns entryTokens.length = 0 := hindex _
    omega
  | some index =>
    rw [hi] at hindex
    rw [Option.map_some, Option.getD_some, hindex.1.mem_prefixCandidateLengths]
    exact ⟨hcount, hstarts.length_le⟩

/-- A candidate is not longer than the query. -/
theorem Indexed.le_of_mem_candidates (h : Indexed inner) {n : ℕ}
    (hn : n ∈ inner.candidates ns tokens) : n ≤ tokens.length := by
  have hindex := h.index ns
  unfold candidates at hn
  cases hi : inner.indexes[ns]? with
  | none =>
    rw [hi] at hn
    exact absurd hn List.not_mem_nil
  | some index =>
    rw [hi] at hindex hn
    rw [Option.map_some, Option.getD_some, hindex.1.mem_prefixCandidateLengths] at hn
    exact hn.2

variable [Std.LawfulEqOrd N] [DecidableEq N]

/-- Using an entry changes its stamp and its place in the order of use. -/
theorem onlyRecency_touch (he : inner.entryAt ns tokens = some e) :
    OnlyRecency inner ⟨put2 inner.entries ns tokens { e with lastUsed := inner.nextAccess },
      inner.indexes, inner.lru.promote ns tokens e.lastUsed inner.nextAccess, inner.usedBytes,
      satAdd inner.nextAccess 1⟩ ns tokens := by
  refine ⟨?_, fun ns' tokens' hne => ?_, fun key hne => ?_, rfl, rfl, rfl⟩
  · rw [he]
    change at2 (put2 _ _ _ _) _ _ = _
    rw [at2_put2, if_pos ⟨rfl, rfl⟩]
    rfl
  · change at2 (put2 _ _ _ _) _ _ = _
    rw [at2_put2, if_neg fun heq => hne ⟨heq.1.symm, heq.2.symm⟩]
    rfl
  · -- the keys taken out and put in are both keys of this entry
    rw [PrefixCacheLruIndex.promote, lru_mem_insert, lru_mem_remove]
    have hkey : ∀ access, key ≠ ⟨access, ns, tokens⟩ := by
      rintro access rfl
      exact hne ⟨rfl, rfl⟩
    simp only [hkey, false_or, ne_eq, not_false_eq_true, true_and]

/-! ### Making room -/

/-- What removing entries leaves was there before. -/
structure Removes (inner after : PrefixCacheInner N S) : Prop where
  indexed : Indexed after
  kept : ∀ ns tokens e, after.entryAt ns tokens = some e → inner.entryAt ns tokens = some e

theorem Indexed.evictLoop (maxBytes byteLen : ℕ) : ∀ (n : ℕ) {inner : PrefixCacheInner N S},
    Indexed inner → Removes inner (inner.evictLoop maxBytes byteLen n)
  | 0, inner, h => ⟨h, fun _ _ _ he => he⟩
  | n + 1, inner, h => by
    unfold PrefixCacheInner.evictLoop
    by_cases hfull : satAdd inner.usedBytes byteLen > maxBytes
    swap
    · rw [if_neg hfull]
      exact ⟨h, fun _ _ _ he => he⟩
    rw [if_pos hfull]
    rcases h.removeLruEntry with ⟨-, hr⟩ | ⟨ns, tokens, e, he, hr⟩
    · rw [hr]
      exact ⟨h, fun _ _ _ he => he⟩
    · rw [hr]
      dsimp only
      have hremoved := h.removeEntry he
      have hnext : Indexed { inner.forget ns tokens e with
          entries := del2 inner.entries ns tokens,
          usedBytes := (inner.forget ns tokens e).usedBytes - e.byteLen } :=
        ⟨hremoved.buckets, hremoved.lru, hremoved.index⟩
      have ih := Indexed.evictLoop maxBytes byteLen n hnext
      exact ⟨ih.indexed, fun ns' tokens' e' he' => entryAt_of_del2 (ih.kept ns' tokens' e' he')⟩

end PrefixCacheInner

namespace NativeTextPrefixCache

open PrefixCacheInner

variable {N C S : Type} {value : PrefixCacheValue C S} {ns : N} {tokens : List ℕ}

/-! ### What was stored last -/

/-- `store` takes in an entry that fits, unless it has no tokens. -/
def accepts (value : PrefixCacheValue C S) (maxBytes : ℕ) (tokens : List ℕ) (hidden : List F32)
    (caches : List C) : Bool :=
  !tokens.isEmpty && value.prefixCacheEntryBytes hidden (value.prefixCacheState caches) ≤ maxBytes

section

variable [DecidableEq N]

/-- What an access stores under these tokens. -/
def Access.stored (value : PrefixCacheValue C S) (maxBytes : ℕ) (ns : N) (tokens : List ℕ) :
    Access N C S → Option (PrefixCacheEntryPayload S)
  | .lookup .. => none
  | .store ns' tokens' hidden caches =>
    if ns' = ns ∧ tokens' = tokens ∧ accepts value maxBytes tokens hidden caches then
      some ⟨hidden, value.prefixCacheState caches⟩
    else none

theorem stored_store (ns' : N) (tokens' : List ℕ) (hidden : List F32) (caches : List C)
    (maxBytes : ℕ) : (Access.store ns' tokens' hidden caches).stored value maxBytes ns tokens =
      if ns' = ns ∧ tokens' = tokens ∧ accepts value maxBytes tokens hidden caches then
        some ⟨hidden, value.prefixCacheState caches⟩
      else none := rfl

/-- The payload that a sequence of accesses stores last under these tokens. -/
def lastStored (value : PrefixCacheValue C S) (maxBytes : ℕ) (accesses : List (Access N C S)) (ns : N)
    (tokens : List ℕ) : Option (PrefixCacheEntryPayload S) :=
  accesses.reverse.findSome? (·.stored value maxBytes ns tokens)

theorem lastStored_concat (accesses : List (Access N C S)) (access : Access N C S) (maxBytes : ℕ) :
    lastStored value maxBytes (accesses ++ [access]) ns tokens =
      (access.stored value maxBytes ns tokens).or (lastStored value maxBytes accesses ns tokens) := by
  unfold lastStored
  rw [List.reverse_append, List.reverse_singleton, List.singleton_append, List.findSome?_cons]
  cases access.stored value maxBytes ns tokens <;> rfl

end

theorem store_eq [Ord N] [Std.TransOrd N] (inner : PrefixCacheInner N S) (maxBytes : ℕ) (ns : N) (tokens : List ℕ)
    (hidden : List F32) (caches : List C) :
    NativeTextPrefixCache.store value maxBytes inner ns tokens hidden caches =
      if accepts value maxBytes tokens hidden caches then
        (true, storeEntry maxBytes inner ns tokens ⟨hidden, value.prefixCacheState caches⟩
          (value.prefixCacheEntryBytes hidden (value.prefixCacheState caches)))
      else (false, inner) := by
  unfold NativeTextPrefixCache.store accepts
  dsimp only
  by_cases hempty : tokens.isEmpty = true
  · rw [if_pos hempty, hempty]
    rfl
  · rw [if_neg hempty]
    rw [Bool.not_eq_true] at hempty
    by_cases hfits : value.prefixCacheEntryBytes hidden (value.prefixCacheState caches) ≤ maxBytes
    · rw [if_neg (Nat.not_lt.mpr hfits), hempty]
      simp [hfits]
    · rw [if_pos (Nat.lt_of_not_le hfits), hempty]
      simp [hfits]

variable [Ord N] [Std.TransOrd N] [Std.LawfulEqOrd N] [DecidableEq N] {inner : PrefixCacheInner N S}

/-! ### One lookup -/

/-- A lookup takes the greatest length that answers the query. -/
theorem lookup_cases (h : Indexed inner) (value : PrefixCacheValue C S) (ns : N)
    (tokens : List ℕ) (isCompatible : List S → Bool) :
    ((∀ n, ¬ inner.Answers isCompatible ns tokens n) ∧
        lookupCompatible value inner ns tokens isCompatible = (none, inner)) ∨
      ∃ n e after, IsGreatest {n | inner.Answers isCompatible ns tokens n} n ∧
        inner.entryAt ns (tokens.take n) = some e ∧
        OnlyRecency inner after ns (tokens.take n) ∧ Indexed after ∧
        lookupCompatible value inner ns tokens isCompatible =
          ((value.prefixCacheFromState e.payload.states).map (⟨n, e.payload.hidden, ·⟩), after) := by
  unfold lookupCompatible
  dsimp only
  cases hb : inner.entries[ns]? with
  | none =>
    refine .inl ⟨?_, rfl⟩
    rintro n ⟨entryTokens, e, he, -⟩
    rw [entryAt, at2, bucket, hb, Option.getD_none] at he
    simp at he
  | some c =>
    have hbucket : bucket inner.entries ns = c := by rw [bucket, hb, Option.getD_some]
    dsimp only
    rw [← hbucket]
    rcases scan_cases isCompatible ns tokens (inner.candidates ns tokens) inner with
      ⟨hall, hs⟩ | ⟨before, rest, n, e, hsplit, hbefore, he, hc, hs⟩
    · unfold candidates at hs
      rw [hs]
      refine .inl ⟨fun n hn => ?_, rfl⟩
      exact hall n (h.mem_candidates hn) (answers_iff.mp hn).2
    · have hmem : n ∈ inner.candidates ns tokens := by
        rw [hsplit]
        exact List.mem_append_right _ List.mem_cons_self
      have hsorted := h.candidates_descending ns tokens
      unfold candidates at hs
      rw [hs]
      refine .inr ⟨n, e, _, ⟨answers_iff.mpr ⟨h.le_of_mem_candidates hmem, e, he, hc⟩, fun m hm => ?_⟩,
        he, onlyRecency_touch he, h.touchEntry he, ?_⟩
      · -- a longer answer would have been scanned before
        have hm' := h.mem_candidates hm
        rw [hsplit] at hm' hsorted
        rcases List.mem_append.mp hm' with hm' | hm'
        · exact absurd (answers_iff.mp hm).2 (hbefore m hm')
        · rcases List.mem_cons.mp hm' with rfl | hm'
          · exact Nat.le_refl _
          · have hlt := (List.pairwise_cons.mp (List.pairwise_append.mp hsorted).2.1).1 m hm'
            exact Nat.le_of_lt hlt
      · dsimp only
        cases value.prefixCacheFromState e.payload.states <;> rfl

/-! ### Runs -/

/-- Every resident entry holds what was stored last under its tokens. -/
structure Holds (inner : PrefixCacheInner N S)
    (stored : N → List ℕ → Option (PrefixCacheEntryPayload S)) : Prop where
  indexed : Indexed inner
  payload : ∀ ns tokens e, inner.entryAt ns tokens = some e → stored ns tokens = some e.payload

theorem dropExisting_removes (h : Indexed inner) (ns : N) (tokens : List ℕ) :
    Removes inner (dropExisting inner ns tokens) ∧
      (NativeTextPrefixCache.dropExisting inner ns tokens).entryAt ns tokens = none := by
  unfold NativeTextPrefixCache.dropExisting
  cases he : inner.entryAt ns tokens with
  | none =>
    rw [removeEntry_absent h.buckets he]
    exact ⟨⟨h, fun _ _ _ he => he⟩, he⟩
  | some e =>
    rw [removeEntry_present he]
    have hremoved := h.removeEntry he
    refine ⟨⟨⟨hremoved.buckets, hremoved.lru, hremoved.index⟩,
      fun ns' tokens' e' he' => entryAt_of_del2 he'⟩, ?_⟩
    change at2 (del2 inner.entries ns tokens) ns tokens = none
    rw [at2_del2, if_pos ⟨rfl, rfl⟩]

theorem storeEntry_holds (ns : N) (tokens : List ℕ)
    {stored : N → List ℕ → Option (PrefixCacheEntryPayload S)}
    (h : Holds inner stored) (maxBytes byteLen : ℕ) (payload : PrefixCacheEntryPayload S) :
    Holds (storeEntry maxBytes inner ns tokens payload byteLen) fun ns' tokens' =>
      if ns = ns' ∧ tokens = tokens' then some payload else stored ns' tokens' := by
  obtain ⟨hdrop, hnone⟩ := dropExisting_removes h.indexed ns tokens
  have hroom : Removes _ (madeRoom maxBytes byteLen inner ns tokens) :=
    hdrop.indexed.evictLoop maxBytes byteLen _
  rw [storeEntry_eq maxBytes byteLen inner ns tokens payload rfl]
  have habsent : (madeRoom maxBytes byteLen inner ns tokens).entryAt ns tokens = none := by
    cases he : (madeRoom maxBytes byteLen inner ns tokens).entryAt ns tokens with
    | none => rfl
    | some e =>
      rw [hroom.kept ns tokens e he] at hnone
      cases hnone
  refine ⟨hroom.indexed.insertEntry habsent rfl _, fun ns' tokens' e he => ?_⟩
  change at2 (put2 _ _ _ _) _ _ = _ at he
  rw [at2_put2] at he
  by_cases hkey : ns = ns' ∧ tokens = tokens'
  · rw [if_pos hkey, Option.some.injEq] at he
    rw [if_pos hkey, ← he]
  · rw [if_neg hkey] at he ⊢
    exact h.payload ns' tokens' e (hdrop.kept _ _ _ (hroom.kept _ _ _ he))

theorem Access.run_holds (value : PrefixCacheValue C S)
    {stored : N → List ℕ → Option (PrefixCacheEntryPayload S)}
    (h : Holds inner stored) (maxBytes : ℕ) (access : Access N C S) :
    Holds (access.run value maxBytes inner) fun ns tokens =>
      (access.stored value maxBytes ns tokens).or (stored ns tokens) := by
  cases access with
  | lookup ns tokens isCompatible =>
    change Holds (lookupCompatible value inner ns tokens isCompatible).2 _
    rcases lookup_cases h.indexed value ns tokens isCompatible with
      ⟨-, hr⟩ | ⟨n, e, after, -, he, honly, hafter, hr⟩
    · rw [hr]
      exact h
    · rw [hr]
      refine ⟨hafter, fun ns' tokens' e' he' => ?_⟩
      dsimp only at he'
      by_cases hkey : ns' = ns ∧ tokens' = tokens.take n
      · obtain ⟨rfl, rfl⟩ := hkey
        rw [honly.entry, he, Option.map_some, Option.some.injEq] at he'
        rw [← he']
        exact h.payload ns' _ e he
      · rw [honly.others ns' tokens' hkey] at he'
        exact h.payload ns' tokens' e' he'
  | store ns tokens hidden caches =>
    change Holds (NativeTextPrefixCache.store value maxBytes inner ns tokens hidden caches).2 _
    rw [store_eq]
    by_cases haccepts : accepts value maxBytes tokens hidden caches = true
    · rw [if_pos haccepts]
      have hstored := storeEntry_holds ns tokens h maxBytes
        (value.prefixCacheEntryBytes hidden (value.prefixCacheState caches))
        ⟨hidden, value.prefixCacheState caches⟩
      refine ⟨hstored.indexed, fun ns' tokens' e he => ?_⟩
      have hp := hstored.payload ns' tokens' e he
      rw [stored_store]
      by_cases hkey : ns = ns' ∧ tokens = tokens'
      · obtain ⟨rfl, rfl⟩ := hkey
        rw [if_pos ⟨rfl, rfl⟩] at hp
        rw [if_pos ⟨rfl, rfl, haccepts⟩, Option.some_or, hp]
      · rw [if_neg hkey] at hp
        rw [if_neg fun hc => hkey ⟨hc.1, hc.2.1⟩, Option.none_or, hp]
    · rw [if_neg haccepts]
      refine ⟨h.indexed, fun ns' tokens' e he => ?_⟩
      rw [stored_store, if_neg, Option.none_or]
      · exact h.payload ns' tokens' e he
      · rintro ⟨rfl, rfl, hc⟩
        exact haccepts hc

theorem afterAll_holds (value : PrefixCacheValue C S) (maxBytes : ℕ) (accesses : List (Access N C S)) :
    Holds (afterAll value maxBytes accesses) (lastStored value maxBytes accesses) := by
  induction accesses using List.reverseRecOn with
  | nil =>
    refine ⟨default_inv.indexed, fun ns tokens e he => ?_⟩
    simp [afterAll, PrefixCacheInner.default, entryAt, at2, bucket] at he
  | append_singleton accesses access ih =>
    have hstep : afterAll value maxBytes (accesses ++ [access]) =
        access.run value maxBytes (afterAll value maxBytes accesses) :=
      List.foldl_concat _ _ _ _
    have hrun := access.run_holds value ih maxBytes
    rw [hstep]
    refine ⟨hrun.indexed, fun ns tokens e he => ?_⟩
    rw [lastStored_concat]
    exact hrun.payload ns tokens e he

/-- What a search through all the entries would find, and do. -/
structure LongestPrefix (value : PrefixCacheValue C S)
    (stored : N → List ℕ → Option (PrefixCacheEntryPayload S)) (inner : PrefixCacheInner N S) (ns : N)
    (tokens : List ℕ) (isCompatible : List S → Bool) (hit : Option (PrefixCacheHit C))
    (after : PrefixCacheInner N S) : Prop where
  /-- A hit has the greatest length of an entry that answers the query. -/
  hit_iff : ∀ n, (∃ found, hit = some found ∧ found.tokenCount = n) ↔
    IsGreatest {n | inner.Answers isCompatible ns tokens n} n
  /-- It is what was stored last under these tokens. -/
  payload : ∀ found, hit = some found → ∃ payload,
    stored ns (tokens.take found.tokenCount) = some payload ∧ found.hidden = payload.hidden ∧
      value.prefixCacheFromState payload.states = some found.caches
  recency : ∀ found, hit = some found →
    OnlyRecency inner after ns (tokens.take found.tokenCount)
  miss_iff : hit = none ↔ ∀ n, ¬ inner.Answers isCompatible ns tokens n
  miss : hit = none → after = inner

/-- **A lookup returns the longest compatible prefix.** After every sequence of
lookups and stores, and for every query, as long as states that were kept come
back. -/
theorem lookupCompatible_longest (value : PrefixCacheValue C S)
    (hrestore : ∀ caches, ∃ restored,
      value.prefixCacheFromState (value.prefixCacheState caches) = some restored)
    (maxBytes : ℕ) (accesses : List (Access N C S)) (ns : N) (tokens : List ℕ)
    (isCompatible : List S → Bool) :
    LongestPrefix value (lastStored value maxBytes accesses) (afterAll value maxBytes accesses) ns tokens
      isCompatible
      (lookupCompatible value (afterAll value maxBytes accesses) ns tokens isCompatible).1
      (lookupCompatible value (afterAll value maxBytes accesses) ns tokens isCompatible).2 := by
  have h := afterAll_holds value maxBytes accesses
  generalize afterAll value maxBytes accesses = inner at h ⊢
  rcases lookup_cases h.indexed value ns tokens isCompatible with
    ⟨hnone, hr⟩ | ⟨n, e, after, hgreatest, he, honly, -, hr⟩
  · rw [hr]
    refine ⟨fun n => ⟨?_, fun hn => absurd hn.1 (hnone n)⟩, fun found hf => ?_, fun found hf => ?_,
      ⟨fun _ => hnone, fun _ => rfl⟩, fun _ => rfl⟩
    · rintro ⟨found, hf, -⟩
      cases hf
    · cases hf
    · cases hf
  · have hstored := h.payload ns (tokens.take n) e he
    -- what is resident was made from caches, so it can be restored
    obtain ⟨caches, hcaches⟩ : ∃ caches, value.prefixCacheFromState e.payload.states = some caches := by
      obtain ⟨access, -, ha⟩ := List.exists_of_findSome?_eq_some hstored
      cases access with
      | lookup => cases ha
      | store ns' tokens' hidden caches =>
        rw [stored_store] at ha
        split at ha
        · rw [← Option.some.inj ha]
          exact hrestore caches
        · cases ha
    rw [hr, hcaches]
    refine ⟨fun m => ?_, fun found hf => ?_, fun found hf => ?_, ?_, fun hm => ?_⟩
    · constructor
      · rintro ⟨found, hf, rfl⟩
        cases hf
        exact hgreatest
      · intro hm
        exact ⟨_, rfl, hgreatest.unique hm⟩
    · cases hf
      exact ⟨e.payload, hstored, rfl, hcaches⟩
    · cases hf
      exact honly
    · refine ⟨fun hm => ?_, fun hm => absurd hgreatest.1 (hm n)⟩
      cases hm
    · cases hm

/-- Of two prompts that were stored, the longer one that the caller can use. -/
theorem lookupCompatible_longest_second_prompt :
    ∃ accesses : List (Access ℕ ℕ ℕ), accesses = [.store 0 [1] [] [4], .store 0 [1, 2] [] [5],
        .store 0 [1, 2, 3] [] [6]] ∧
      (lookupCompatible weights (afterAll weights 20 accesses) 0 [1, 2, 3, 4]
        (fun states => states.sum < 6)).1.map (·.tokenCount) = some 2 ∧
      LongestPrefix weights (lastStored weights 20 accesses) (afterAll weights 20 accesses) 0
        [1, 2, 3, 4] (fun states => states.sum < 6)
        (lookupCompatible weights (afterAll weights 20 accesses) 0 [1, 2, 3, 4]
          (fun states => states.sum < 6)).1
        (lookupCompatible weights (afterAll weights 20 accesses) 0 [1, 2, 3, 4]
          (fun states => states.sum < 6)).2 := by
  refine ⟨_, rfl, by decide +kernel, ?_⟩
  exact lookupCompatible_longest weights (fun caches => ⟨caches, rfl⟩) 20 _ 0 _ _

end NativeTextPrefixCache

end KirAi.NativeRuntime
