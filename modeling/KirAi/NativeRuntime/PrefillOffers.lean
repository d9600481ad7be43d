/-
# Which block boundaries a prefill offers to the disk cache

A block can be stored only when a chunk ends with it. The chunks are counted from the end of
the cached prefix on, and their size is at most a block, but not always a part of one: from
an uneven prefix, or with a size that does not divide a block, the chunks step over
boundaries (`skipped_boundary`). A finished prefill offers every boundary behind the cached
prefix, once and in order, just when the chunks meet them (`offers_every_boundary_iff`).

Key definitions: `blockBoundaries`, `ChunksMeetBoundaries`, `OnePerToken`.
Key theorems: `prefillLoop_offered`, `chunkEnds_pieces`, `offers_every_boundary_iff`.
-/
import KirAi.Lib.Except
import KirAi.NativeRuntime.Prefill

namespace KirAi.NativeRuntime

open Lib KvCache

/-! ### Where chunks end -/

/-- The positions at which chunks end that begin at `start`. -/
def chunkEnds : ℕ → List (List ℕ) → List ℕ
  | _, [] => []
  | start, chunk :: chunks => (start + chunk.length) :: chunkEnds (start + chunk.length) chunks

theorem chunkEnds_append : ∀ (start : ℕ) (cs ds : List (List ℕ)),
    chunkEnds start (cs ++ ds) = chunkEnds start cs ++ chunkEnds (start + cs.flatten.length) ds
  | start, [], ds => by simp [chunkEnds]
  | start, c :: cs, ds => by
    rw [List.cons_append, chunkEnds, chunkEnds, chunkEnds_append _ cs ds, List.flatten_cons,
      List.length_append, Nat.add_assoc, List.cons_append]

/-- The first `k` pieces of a list are its first `k * v` elements. -/
theorem flatten_slices (l : List ℕ) (v : ℕ) : ∀ k,
    ((List.range k).map fun i => slice l (i * v) ((i + 1) * v)).flatten = l.take (k * v)
  | 0 => by simp
  | k + 1 => by
    rw [List.range_succ, List.map_append, List.flatten_append, flatten_slices l v k,
      List.map_singleton, List.flatten_singleton, slice, Nat.add_one_mul, Nat.add_sub_cancel_left,
      List.take_add]

theorem chunkEnds_slices (l : List ℕ) (v start : ℕ) : ∀ k,
    chunkEnds start ((List.range k).map fun i => slice l (i * v) ((i + 1) * v)) =
      (List.range k).map fun i => start + min ((i + 1) * v) l.length
  | 0 => rfl
  | k + 1 => by
    have hlast : (l.take (k * v)).length + (slice l (k * v) ((k + 1) * v)).length =
        min ((k + 1) * v) l.length := by
      have hstep : (k + 1) * v = k * v + v := Nat.add_one_mul k v
      rw [slice, List.length_take, List.length_take, List.length_drop]
      omega
    rw [List.range_succ, List.map_append, List.map_append, chunkEnds_append, chunkEnds_slices l v start k,
      flatten_slices, List.map_singleton, List.map_singleton, chunkEnds, chunkEnds, ← hlast,
      Nat.add_assoc]

/-- The pieces of a list end at each multiple of their size and at the list's end. -/
theorem mem_chunkEnds_pieces {l : List ℕ} {v start n : ℕ} (hv : 0 < v) :
    n ∈ chunkEnds start (pieces l v) ↔
      start < n ∧ n ≤ start + l.length ∧ (v ∣ n - start ∨ n = start + l.length) := by
  rw [pieces, chunkEnds_slices, List.mem_map]
  constructor
  · rintro ⟨i, hi, rfl⟩
    rw [List.mem_range] at hi
    have hbefore : i * v < l.length := by
      have hle : (i + 1) * v ≤ l.length + v - 1 :=
        le_trans (Nat.mul_le_mul_right v hi) (Nat.div_mul_le_self _ v)
      rw [Nat.add_one_mul] at hle
      omega
    have hstep : (i + 1) * v = i * v + v := Nat.add_one_mul i v
    refine ⟨by omega, by omega, ?_⟩
    rcases Nat.le_total ((i + 1) * v) l.length with hle | hle
    · left
      rw [Nat.min_eq_left hle, Nat.add_sub_cancel_left]
      exact Nat.dvd_mul_left v (i + 1)
    · right
      rw [Nat.min_eq_right hle]
  · rintro ⟨hlt, hle, hend⟩
    have hcount : ∀ i, i * v < l.length → i < (l.length + v - 1) / v := by
      intro i hi
      refine (Nat.le_div_iff_mul_le hv).mpr ?_
      rw [Nat.add_one_mul]
      omega
    rcases hend with ⟨q, hq⟩ | rfl
    · -- `q` whole pieces behind the start
      obtain ⟨i, rfl⟩ : ∃ i, q = i + 1 := by
        refine Nat.exists_eq_add_one.mpr (Nat.pos_of_ne_zero fun h0 => ?_)
        rw [h0, Nat.mul_zero] at hq
        omega
      rw [Nat.mul_comm, Nat.add_one_mul] at hq
      refine ⟨i, List.mem_range.mpr (hcount i (by omega)), ?_⟩
      rw [Nat.add_one_mul, Nat.min_eq_left (by omega)]
      omega
    · -- the last piece
      have hdiv := Nat.div_add_mod (l.length - 1) v
      have hmod := Nat.mod_lt (l.length - 1) hv
      rw [Nat.mul_comm] at hdiv
      refine ⟨(l.length - 1) / v, List.mem_range.mpr (hcount _ (by omega)), ?_⟩
      rw [Nat.add_one_mul, Nat.min_eq_right (by omega)]

theorem chunkEnds_sorted : ∀ (start : ℕ) (cs : List (List ℕ)), (∀ c ∈ cs, c ≠ []) →
    (∀ n ∈ chunkEnds start cs, start < n) ∧ (chunkEnds start cs).Pairwise (· < ·)
  | _, [], _ => ⟨nofun, .nil⟩
  | start, c :: cs, h => by
    obtain ⟨hlt, hsorted⟩ := chunkEnds_sorted (start + c.length) cs fun d hd =>
      h d (List.mem_cons_of_mem _ hd)
    have hc : 0 < c.length := List.length_pos_iff.mpr (h c (List.mem_cons_self ..))
    refine ⟨fun n hn => ?_, List.pairwise_cons.mpr ⟨hlt, hsorted⟩⟩
    rcases List.mem_cons.mp hn with rfl | hn
    · omega
    · have := hlt n hn
      omega

theorem pieces_ne_nil {l : List ℕ} {v : ℕ} (hv : 0 < v) : ∀ c ∈ pieces l v, c ≠ [] := by
  intro c hc
  obtain ⟨i, hi, rfl⟩ := List.mem_map.mp hc
  rw [List.mem_range] at hi
  have hle : (i + 1) * v ≤ l.length + v - 1 :=
    le_trans (Nat.mul_le_mul_right v hi) (Nat.div_mul_le_self _ v)
  rw [Nat.add_one_mul] at hle
  refine List.ne_nil_of_length_pos ?_
  rw [slice, List.length_take, List.length_drop, Nat.add_one_mul]
  omega

/-! ### What a finished prefill offers -/

section Offers

variable {C : Type} {A : PrefillAdapter C} {stops : Interruptions} {contextTokens : List ℕ}
  {cachedPrefixLen B : ℕ}

/-- The model gives a hidden state for every token. -/
def OnePerToken (A : PrefillAdapter C) : Prop :=
  ∀ tokens caches states caches', A.prefillChunkWithCache tokens caches = .ok (states, caches') →
    states.length = tokens.length

theorem offered_callsAfterChunk (hB : A.diskBlockTokenCount = some B) (n : ℕ) (hidden : List F32)
    (caches : List C) :
    offered (callsAfterChunk A contextTokens n (some hidden) caches) =
      if n % B = 0 then [contextTokens.take n] else [] := by
  rw [callsAfterChunk, hB]
  dsimp only
  rw [offered_append]
  by_cases hn : n < contextTokens.length
  · by_cases hmod : n % B = 0
    · rw [if_pos hn, if_pos hmod, if_pos hmod]
      rfl
    · rw [if_pos hn, if_neg hmod, if_neg hmod]
      rfl
  · by_cases hmod : n % B = 0
    · rw [if_neg hn, if_pos hmod, if_pos hmod]
      rfl
    · rw [if_neg hn, if_neg hmod, if_neg hmod]
      rfl

/-- A loop that finishes offers the prefixes that end with a chunk and a block. -/
theorem prefillLoop_offered (hB : A.diskBlockTokenCount = some B) (hA : OnePerToken A) :
    ∀ (chunks : List (List ℕ)) (completedChunks completedTokens : ℕ)
      (prefillHidden : Option (List F32)) (caches : List C) {r : Option (List F32) × List C},
      (∀ c ∈ chunks, c ≠ []) →
      (prefillLoop A stops contextTokens cachedPrefixLen chunks completedChunks completedTokens
        prefillHidden caches).result = .ok r →
      offered (prefillLoop A stops contextTokens cachedPrefixLen chunks completedChunks
          completedTokens prefillHidden caches).calls =
        ((chunkEnds (cachedPrefixLen + completedTokens) chunks).filter (· % B = 0)).map
          (contextTokens.take ·)
  | [], _, _, _, _, _, _, _ => rfl
  | chunk :: chunks, completedChunks, completedTokens, _, caches, r, hne, h => by
    rw [prefillLoop] at h ⊢
    cases hbefore : stops.before completedChunks with
    | some e =>
      rw [hbefore] at h
      cases h
    | none =>
      rw [hbefore] at h
      dsimp only at h ⊢
      cases hrun : A.prefillChunkWithCache chunk caches with
      | error e =>
        rw [hrun] at h
        cases h
      | ok answer =>
        obtain ⟨states, caches'⟩ := answer
        rw [hrun] at h
        dsimp only at h ⊢
        cases hafter : stops.after completedChunks with
        | some e =>
          rw [hafter] at h
          cases h
        | none =>
          rw [hafter] at h
          dsimp only at h ⊢
          cases hrefused : stops.refused completedChunks with
          | some e =>
            rw [hrefused] at h
            cases h
          | none =>
            rw [hrefused] at h
            dsimp only at h ⊢
            have hstates : states ≠ [] := by
              refine List.ne_nil_of_length_pos ?_
              rw [hA _ _ _ _ hrun]
              exact List.length_pos_iff.mpr (hne _ (List.mem_cons_self ..))
            have ih := prefillLoop_offered hB hA chunks (completedChunks + 1)
              (completedTokens + chunk.length) states.getLast? caches'
              (fun c hc => hne c (List.mem_cons_of_mem _ hc)) h
            rw [List.getLast?_eq_some_getLast hstates] at ih ⊢
            rw [offered_append, offered_callsAfterChunk hB, ih, chunkEnds, ← Nat.add_assoc,
              List.filter_cons]
            by_cases hmod : (cachedPrefixLen + completedTokens + chunk.length) % B = 0
            · rw [if_pos hmod, if_pos (decide_eq_true hmod)]
              rfl
            · rw [if_neg hmod, if_neg (by simpa using hmod)]
              rfl

/-! ### Every boundary -/

/-- The ends of blocks behind the cached prefix, in order. -/
def blockBoundaries (B cachedPrefixLen promptLen : ℕ) : List ℕ :=
  (List.range (promptLen + 1)).filter fun n => cachedPrefixLen < n ∧ n % B = 0

/-- The first boundary behind the cached prefix. -/
def firstBoundary (B cachedPrefixLen : ℕ) : ℕ := (cachedPrefixLen / B + 1) * B

/-- The chunks of `v` tokens meet the first boundary inside of the prompt, and if there are
more, a block is made of whole chunks. -/
def ChunksMeetBoundaries (v B cachedPrefixLen promptLen : ℕ) : Prop :=
  firstBoundary B cachedPrefixLen < promptLen →
    v ∣ firstBoundary B cachedPrefixLen - cachedPrefixLen ∧
      (firstBoundary B cachedPrefixLen + B < promptLen → v ∣ B)

instance (v B cachedPrefixLen promptLen : ℕ) :
    Decidable (ChunksMeetBoundaries v B cachedPrefixLen promptLen) :=
  inferInstanceAs (Decidable (_ → _))

theorem lt_firstBoundary (hB : 0 < B) (cachedPrefixLen : ℕ) :
    cachedPrefixLen < firstBoundary B cachedPrefixLen := by
  have hdiv := Nat.div_add_mod cachedPrefixLen B
  have hmod := Nat.mod_lt cachedPrefixLen hB
  rw [Nat.mul_comm] at hdiv
  rw [firstBoundary, Nat.add_one_mul]
  omega

/-- The condition says of the first two boundaries what holds of all. -/
theorem chunksMeetBoundaries_iff {v promptLen : ℕ} (hB : 0 < B) :
    ChunksMeetBoundaries v B cachedPrefixLen promptLen ↔
      ∀ n, cachedPrefixLen < n → n < promptLen → n % B = 0 → v ∣ n - cachedPrefixLen := by
  have hlt := lt_firstBoundary hB cachedPrefixLen
  constructor
  · intro h n hcached hprompt hmod
    obtain ⟨q, rfl⟩ := Nat.dvd_of_mod_eq_zero hmod
    have hq : cachedPrefixLen / B + 1 ≤ q := (Nat.div_lt_iff_lt_mul hB).mpr (Nat.mul_comm B q ▸ hcached)
    obtain ⟨j, rfl⟩ := Nat.exists_eq_add_of_le hq
    have hsplit : B * (cachedPrefixLen / B + 1 + j) = firstBoundary B cachedPrefixLen + j * B := by
      rw [firstBoundary, Nat.mul_comm, Nat.add_mul]
    rw [hsplit] at hprompt ⊢
    obtain ⟨hfirst, hmore⟩ := h (by omega)
    cases j with
    | zero => rwa [Nat.zero_mul, Nat.add_zero]
    | succ j =>
      have hle : B ≤ (j + 1) * B := Nat.le_mul_of_pos_left B (Nat.succ_pos j)
      rw [Nat.add_comm, Nat.add_sub_assoc (le_of_lt hlt)]
      exact Nat.dvd_add (Dvd.dvd.mul_left (hmore (by omega)) (j + 1)) hfirst
  · intro h hfirst
    have hone := h _ hlt hfirst (Nat.mul_mod_left _ _)
    refine ⟨hone, fun hsecond => ?_⟩
    have htwo := h _ (show cachedPrefixLen < firstBoundary B cachedPrefixLen + B by omega) hsecond
      (by rw [Nat.add_mod_right, firstBoundary, Nat.mul_mod_left])
    rw [Nat.add_comm, Nat.add_sub_assoc (le_of_lt hlt)] at htwo
    exact (Nat.dvd_add_left hone).mp htwo

theorem prefillChunkTokens_pos (A : PrefillAdapter C) : 0 < prefillChunkTokens A :=
  lt_of_lt_of_le Nat.one_pos (Nat.le_max_left _ _)

/-- What a finished prefill offers: the boundaries at which a chunk ends. -/
theorem prefill_offered (hB : A.diskBlockTokenCount = some B) (hA : OnePerToken A)
    {hidden : Option (List F32)} {caches : List C} {r : Option (List F32) × List C}
    (h : (prefill A stops contextTokens cachedPrefixLen hidden caches).result = .ok r) :
    offered (prefill A stops contextTokens cachedPrefixLen hidden caches).calls =
      ((blockBoundaries B cachedPrefixLen contextTokens.length).filter fun n =>
        prefillChunkTokens A ∣ n - cachedPrefixLen ∨ n = contextTokens.length).map
          (contextTokens.take ·) := by
  have hv := prefillChunkTokens_pos A
  have hdrop : (contextTokens.drop cachedPrefixLen).length = contextTokens.length - cachedPrefixLen :=
    List.length_drop
  by_cases hlt : cachedPrefixLen < contextTokens.length
  · rw [prefill, if_pos hlt] at h ⊢
    dsimp only at h ⊢
    obtain ⟨r', hr', -⟩ := bind_eq_ok.1 h
    rw [prefillChunks] at hr' ⊢
    rw [prefillLoop_offered hB hA _ _ _ _ _ (pieces_ne_nil hv) hr', Nat.add_zero]
    congr 1
    have hsorted := (chunkEnds_sorted cachedPrefixLen _ (pieces_ne_nil
      (l := contextTokens.drop cachedPrefixLen) hv)).2.filter (fun n => decide (n % B = 0))
    have hrange : (((blockBoundaries B cachedPrefixLen contextTokens.length).filter fun n =>
        decide (prefillChunkTokens A ∣ n - cachedPrefixLen ∨ n = contextTokens.length))).Pairwise
        (· < ·) := (List.pairwise_lt_range.filter _).filter _
    refine List.Perm.eq_of_pairwise (fun a b _ _ hab hba => absurd hab (Nat.lt_asymm hba)) hsorted
      hrange ?_
    refine (List.perm_ext_iff_of_nodup (hsorted.imp Nat.ne_of_lt) (hrange.imp Nat.ne_of_lt)).mpr
      fun n => ?_
    simp only [List.mem_filter, mem_chunkEnds_pieces hv, blockBoundaries, List.mem_range, hdrop,
      decide_eq_true_eq]
    constructor
    · rintro ⟨⟨h1, h2, h3⟩, hmod⟩
      exact ⟨⟨by omega, h1, hmod⟩, h3.imp_right (by omega)⟩
    · rintro ⟨⟨h1, h2, hmod⟩, h3⟩
      exact ⟨⟨h2, by omega, h3.imp_right (by omega)⟩, hmod⟩
  · rw [prefill, if_neg hlt]
    have hnone : blockBoundaries B cachedPrefixLen contextTokens.length = [] := by
      rw [blockBoundaries, List.filter_eq_nil_iff]
      intro n hn
      rw [List.mem_range] at hn
      rw [decide_eq_true_eq]
      omega
    rw [hnone]
    rfl

/-- **A finished prefill offers every block boundary behind the cached prefix to the disk
cache, once and in order, just when its chunks meet the boundaries.** -/
theorem offers_every_boundary_iff (hB : A.diskBlockTokenCount = some B) (hpos : 0 < B)
    (hA : OnePerToken A) {hidden : Option (List F32)} {caches : List C}
    {r : Option (List F32) × List C}
    (h : (prefill A stops contextTokens cachedPrefixLen hidden caches).result = .ok r) :
    offered (prefill A stops contextTokens cachedPrefixLen hidden caches).calls =
        (blockBoundaries B cachedPrefixLen contextTokens.length).map (contextTokens.take ·) ↔
      ChunksMeetBoundaries (prefillChunkTokens A) B cachedPrefixLen contextTokens.length := by
  rw [prefill_offered hB hA h, chunksMeetBoundaries_iff hpos]
  have hfilter : ∀ n ∈ blockBoundaries B cachedPrefixLen contextTokens.length,
      cachedPrefixLen < n ∧ n ≤ contextTokens.length ∧ n % B = 0 := by
    intro n hn
    rw [blockBoundaries, List.mem_filter, List.mem_range, decide_eq_true_eq] at hn
    exact ⟨hn.2.1, by omega, hn.2.2⟩
  constructor
  · intro heq n hcached hprompt hmod
    have hlength := congrArg List.length heq
    rw [List.length_map, List.length_map, List.length_filter_eq_length_iff] at hlength
    have hmem : n ∈ blockBoundaries B cachedPrefixLen contextTokens.length := by
      rw [blockBoundaries, List.mem_filter, List.mem_range, decide_eq_true_eq]
      exact ⟨by omega, hcached, hmod⟩
    rcases of_decide_eq_true (hlength n hmem) with hdvd | rfl
    · exact hdvd
    · omega
  · intro hmeet
    congr 1
    rw [List.filter_eq_self]
    intro n hn
    obtain ⟨hcached, hle, hmod⟩ := hfilter n hn
    rcases Nat.lt_or_eq_of_le hle with hlt | rfl
    · exact decide_eq_true (.inl (hmeet n hcached hlt hmod))
    · exact decide_eq_true (.inr rfl)

end Offers

/-! ### Steps over a boundary -/

/-- A model that gives every token a hidden state of its own, with blocks of four tokens and
chunks of three. -/
def chunksOfThree : PrefillAdapter Unit where
  familyDisplayName := "Qwen"
  maxPrefillTokens := 3
  diskBlockTokenCount := some 4
  prefillChunkWithCache tokens caches := .ok (tokens.map fun _ => [⟨0⟩], caches)

theorem chunksOfThree_onePerToken : OnePerToken chunksOfThree := by
  intro tokens caches states caches' h
  obtain ⟨rfl, -⟩ := Prod.mk.inj (Except.ok.inj h)
  exact List.length_map _

/-- A prompt of five tokens ends chunks at three and five: its block is not offered. -/
theorem skipped_boundary :
    (prefill chunksOfThree undisturbed [1, 2, 3, 4, 5] 0 none []).result =
        .ok (some [⟨0⟩], []) ∧
      offered (prefill chunksOfThree undisturbed [1, 2, 3, 4, 5] 0 none []).calls =
        [] ∧
      (blockBoundaries 4 0 5).map ([1, 2, 3, 4, 5].take ·) = [[1, 2, 3, 4]] := ⟨rfl, rfl, rfl⟩

/-- From a cached token on, a prompt of five tokens is run in a chunk up to the boundary and
one behind it. -/
theorem offers_every_boundary_iff_from_one :
    (offered (prefill chunksOfThree undisturbed [1, 2, 3, 4, 5] 1 none []).calls =
        (blockBoundaries 4 1 5).map ([1, 2, 3, 4, 5].take ·) ↔ ChunksMeetBoundaries 3 4 1 5) ∧
      offered (prefill chunksOfThree undisturbed [1, 2, 3, 4, 5] 1 none []).calls =
        [[1, 2, 3, 4]] := by
  have hok : (prefill chunksOfThree undisturbed [1, 2, 3, 4, 5] 1 none []).result =
      .ok (some [⟨0⟩], []) := rfl
  exact ⟨offers_every_boundary_iff rfl (by decide) chunksOfThree_onePerToken hok, rfl⟩

end KirAi.NativeRuntime
