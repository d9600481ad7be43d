/-
# The hashes of disk blocks

`disk_cache/hashing.rs` and the descriptor of `disk_cache.rs`: a block of the disk cache is
named by a hash of the model, the namespace, its place and its tokens, chained through the
hash of the block before it. The namespace is hashed for itself, field by field, an absent
field with a tag of its own. A lookup and a store compute the chain anew from the tokens of
the prompt.

SHA-256 is a parameter, and that it has no collisions is said of the messages at hand
(`CollisionFree`). A hash is used as the text of its digits (`lowerHex`).

Key definitions: `hashMessage`, `nativeTextDiskNamespaceHash`, `nativeTextDiskBlockHash`,
`nativeTextDiskPreviousBlockHash`, `NativeTextDiskCacheBlockDescriptor.new`, `chainHash`.
Key theorems: `new_block`, `new_ok`, `blockMessage_injective`, `blockHash_determines`.
-/
import KirAi.KvCache.ChainHash
import KirAi.Lib.Delimited
import KirAi.NativeRuntime.DiskCodec

namespace KirAi.NativeRuntime

open Lib KvCache

/-! ### What is hashed -/

/-- The digits of a number below `16 ^ w`. -/
def hexChars : ℕ → ℕ → List Char
  | 0, _ => []
  | w + 1, n => hexChars w (n / 16) ++ [Json.hexDigit (n % 16)]

/-- `{:x}` of a hash. -/
def lowerHex (hash : CacheBlockHash) : String := String.ofList (hexChars 64 hash.toNat)

def updateHashValue : Option String → List Byte
  | some value => 1 :: (toLe 8 (utf8 value).length ++ utf8 value)
  | none => [0]

/-- What `hash_components` hashes. -/
def hashMessage (label : String) (components : List (String × Option String)) : List Byte :=
  updateHashValue (some label) ++
    components.flatMap fun c => updateHashValue (some c.1) ++ updateHashValue c.2

structure NativeTextPrefixCacheNamespace where
  modelId : String
  backend : String
  family : Option String
  quantization : Option String
  repoId : Option String
  resolvedCommit : Option String
  profile : Option String
  tokenizerKind : String
  tokenizerHash : String
  tokenizerNormalization : String
  cacheTemplateId : String
  chatTemplateKwargsHash : Option String
  adapterSettings : String
  cacheKey : String
  toolSchema : Option String
  requestMode : String
  cacheLayoutVersion : ℕ
  cacheTokens : ℕ
  maxPrefillTokens : ℕ
deriving DecidableEq, Repr

/-- The fields as they are hashed, the numbers by their decimal digits. -/
def NativeTextPrefixCacheNamespace.components (ns : NativeTextPrefixCacheNamespace) :
    List (String × Option String) := [
  ("model_id", some ns.modelId),
  ("backend", some ns.backend),
  ("family", ns.family),
  ("quantization", ns.quantization),
  ("repo_id", ns.repoId),
  ("resolved_commit", ns.resolvedCommit),
  ("profile", ns.profile),
  ("tokenizer_kind", some ns.tokenizerKind),
  ("tokenizer_hash", some ns.tokenizerHash),
  ("tokenizer_normalization", some ns.tokenizerNormalization),
  ("cache_template_id", some ns.cacheTemplateId),
  ("chat_template_kwargs_hash", ns.chatTemplateKwargsHash),
  ("adapter_settings", some ns.adapterSettings),
  ("cache_key", some ns.cacheKey),
  ("tool_schema", ns.toolSchema),
  ("request_mode", some ns.requestMode),
  ("cache_layout_version", some (toString ns.cacheLayoutVersion)),
  ("cache_tokens", some (toString ns.cacheTokens)),
  ("max_prefill_tokens", some (toString ns.maxPrefillTokens))]

def NativeTextPrefixCacheNamespace.message (ns : NativeTextPrefixCacheNamespace) : List Byte :=
  hashMessage "kir-ai-native-text-disk-namespace/v1" ns.components

/-- What `native_text_disk_block_hash` hashes. -/
def blockMessage (modelHash namespaceHash previousBlockHash : String) (blockStart : ℕ)
    (tokens : List ℕ) : List Byte :=
  updateHashValue (some "kir-ai-native-text-disk-block/v2") ++ (updateHashValue (some modelHash) ++
    (updateHashValue (some namespaceHash) ++ (updateHashValue (some previousBlockHash) ++
      (toLe 8 blockStart ++ (toLe 8 tokens.length ++ tokens.flatMap (toLe 8))))))

def nativeTextDiskCacheRootBlockHash : String :=
  "0000000000000000000000000000000000000000000000000000000000000000"

section Hashes

variable (sha256 : List Byte → CacheBlockHash)

def hashComponents (label : String) (components : List (String × Option String)) : String :=
  lowerHex (sha256 (hashMessage label components))

def nativeTextDiskNamespaceHash (ns : NativeTextPrefixCacheNamespace) : String :=
  hashComponents sha256 "kir-ai-native-text-disk-namespace/v1" ns.components

def nativeTextDiskBlockHash (modelHash namespaceHash previousBlockHash : String) (blockStart : ℕ)
    (tokens : List ℕ) : String :=
  lowerHex (sha256 (blockMessage modelHash namespaceHash previousBlockHash blockStart tokens))

/-- The loop of `native_text_disk_previous_block_hash`. It ends after at most `block_start`
rounds, as a block has a token. -/
def previousBlockHashLoop (modelHash namespaceHash : String) (blockStart blockTokenCount : ℕ)
    (prefixTokens : List ℕ) : (rounds currentStart : ℕ) → (previous : String) → DiskResult String
  | 0, _, previous => pure previous
  | rounds + 1, currentStart, previous =>
    if currentStart < blockStart then do
      let currentEnd ← okOrElse (checkedAdd currentStart blockTokenCount)
        "disk cache block range overflow"
      let blockTokens ← okOrElse (getRange prefixTokens currentStart currentEnd)
        "disk cache previous block exceeds prefix tokens"
      previousBlockHashLoop modelHash namespaceHash blockStart blockTokenCount prefixTokens rounds
        currentEnd (nativeTextDiskBlockHash sha256 modelHash namespaceHash previous currentStart
          blockTokens)
    else pure previous

def nativeTextDiskPreviousBlockHash (modelHash namespaceHash : String)
    (blockStart blockTokenCount : ℕ) (prefixTokens : List ℕ) : DiskResult String := do
  if blockTokenCount = 0 then throw (integrity "disk cache block token count is zero")
  if blockStart > prefixTokens.length then
    throw (integrity "disk cache block start exceeds prefix tokens")
  if blockStart % blockTokenCount ≠ 0 then
    throw (integrity "disk cache block start is not block aligned")
  previousBlockHashLoop sha256 modelHash namespaceHash blockStart blockTokenCount prefixTokens
    blockStart 0 nativeTextDiskCacheRootBlockHash

/-- The descriptor of the block from `block_start` on that ends the prefix. -/
def NativeTextDiskCacheBlockDescriptor.new (identity : NativeTextDiskCacheIdentity)
    (ns : NativeTextPrefixCacheNamespace) (blockStart : ℕ) (prefixTokens : List ℕ) :
    DiskResult NativeTextDiskCacheBlockDescriptor := do
  let namespaceHash := nativeTextDiskNamespaceHash sha256 ns
  let blockTokens ← okOrElse (getRange prefixTokens blockStart prefixTokens.length)
    "disk cache block start exceeds prefix tokens"
  if blockTokens.isEmpty then throw (integrity "disk cache block has no tokens")
  let previousBlockHash ← nativeTextDiskPreviousBlockHash sha256 identity.modelHash namespaceHash
    blockStart blockTokens.length prefixTokens
  let blockHash := nativeTextDiskBlockHash sha256 identity.modelHash namespaceHash previousBlockHash
    blockStart blockTokens
  pure {
    modelHash := identity.modelHash, snapshotHash := identity.snapshotHash
    modelFamily := identity.modelFamily, namespaceHash, previousBlockHash, blockHash, blockStart
    tokenCount := blockTokens.length, cacheLayoutVersion := ns.cacheLayoutVersion }

end Hashes

/-! ### The chain of a prompt -/

section Chain

variable {sha256 : List Byte → CacheBlockHash} {modelHash namespaceHash : String} {B : ℕ}
  {tokens : List ℕ}

variable (sha256 modelHash namespaceHash B tokens) in
/-- The hash of the first `k` blocks of the prompt. -/
def chainHash : ℕ → String
  | 0 => nativeTextDiskCacheRootBlockHash
  | k + 1 => nativeTextDiskBlockHash sha256 modelHash namespaceHash (chainHash k) (k * B)
      (slice tokens (k * B) ((k + 1) * B))

theorem chainHash_take {n : ℕ} : ∀ k, k * B ≤ n →
    chainHash sha256 modelHash namespaceHash B (tokens.take n) k =
      chainHash sha256 modelHash namespaceHash B tokens k
  | 0, _ => rfl
  | k + 1, h => by
    have hk : k * B ≤ n := le_trans (Nat.mul_le_mul_right B (Nat.le_succ k)) h
    have hslice : slice (tokens.take n) (k * B) ((k + 1) * B) =
        slice tokens (k * B) ((k + 1) * B) := by
      rw [slice, slice, List.drop_take, List.take_take]
      congr 1
      omega
    rw [chainHash, chainHash, chainHash_take k hk, hslice]

variable (sha256 modelHash namespaceHash) in
/-- The loop adds the blocks from `i` on to the chain. -/
theorem previousBlockHashLoop_eq (hB : 0 < B) {n : ℕ} (hlen : n * B ≤ tokens.length)
    (hword : tokens.length ≤ wordMax) : ∀ rounds i, i ≤ n → n - i ≤ rounds →
    previousBlockHashLoop sha256 modelHash namespaceHash (n * B) B tokens rounds (i * B)
        (chainHash sha256 modelHash namespaceHash B tokens i) =
      .ok (chainHash sha256 modelHash namespaceHash B tokens n)
  | 0, i, hi, hr => by
    have : i = n := by omega
    rw [previousBlockHashLoop, this]
    rfl
  | rounds + 1, i, hi, hr => by
    rw [previousBlockHashLoop]
    by_cases hlt : i * B < n * B
    · have hin : i < n := Nat.lt_of_mul_lt_mul_right hlt
      have hend : i * B + B = (i + 1) * B := (Nat.add_one_mul i B).symm
      have hle : (i + 1) * B ≤ n * B := Nat.mul_le_mul_right B hin
      have hadd : checkedAdd (i * B) B = some ((i + 1) * B) := by
        rw [checkedAdd_of_le (by omega), hend]
      rw [if_pos hlt, hadd, okOrElse_some, ok_bind, getRange, if_pos ⟨by omega, by omega⟩,
        okOrElse_some, ok_bind]
      exact previousBlockHashLoop_eq hB hlen hword rounds (i + 1) hin (by omega)
    · rw [if_neg hlt]
      have : i = n := by
        by_contra hne
        exact hlt (Nat.mul_lt_mul_of_pos_right (by omega) hB)
      rw [this]
      rfl

variable (sha256 modelHash namespaceHash) in
theorem nativeTextDiskPreviousBlockHash_eq (hB : 0 < B) {n : ℕ} (hlen : n * B ≤ tokens.length)
    (hword : tokens.length ≤ wordMax) :
    nativeTextDiskPreviousBlockHash sha256 modelHash namespaceHash (n * B) B tokens =
      .ok (chainHash sha256 modelHash namespaceHash B tokens n) := by
  have hrounds : n - 0 ≤ n * B := Nat.le_mul_of_pos_right n hB
  have hloop := previousBlockHashLoop_eq sha256 modelHash namespaceHash hB hlen hword (n * B) 0
    (Nat.zero_le n) hrounds
  rw [Nat.zero_mul, chainHash] at hloop
  rw [nativeTextDiskPreviousBlockHash, if_neg (by omega), if_neg (by omega),
    if_neg (by simp)]
  exact hloop

variable (sha256 B tokens) in
/-- The descriptor of block `k` of the prompt. -/
def blockDescriptor (identity : NativeTextDiskCacheIdentity) (ns : NativeTextPrefixCacheNamespace)
    (k : ℕ) : NativeTextDiskCacheBlockDescriptor where
  modelHash := identity.modelHash
  snapshotHash := identity.snapshotHash
  modelFamily := identity.modelFamily
  namespaceHash := nativeTextDiskNamespaceHash sha256 ns
  previousBlockHash := chainHash sha256 identity.modelHash (nativeTextDiskNamespaceHash sha256 ns) B tokens k
  blockHash := chainHash sha256 identity.modelHash (nativeTextDiskNamespaceHash sha256 ns) B tokens (k + 1)
  blockStart := k * B
  tokenCount := B
  cacheLayoutVersion := ns.cacheLayoutVersion

variable (sha256) in
/-- A block of the prompt and all before it has its descriptor. -/
theorem new_block (hB : 0 < B) {k : ℕ} (hlen : (k + 1) * B ≤ tokens.length)
    (hword : tokens.length ≤ wordMax) (identity : NativeTextDiskCacheIdentity)
    (ns : NativeTextPrefixCacheNamespace) :
    NativeTextDiskCacheBlockDescriptor.new sha256 identity ns (k * B) (tokens.take ((k + 1) * B)) =
      .ok (blockDescriptor sha256 B tokens identity ns k) := by
  have hstep : (k + 1) * B = k * B + B := Nat.add_one_mul k B
  have htake : (tokens.take ((k + 1) * B)).length = (k + 1) * B := by
    rw [List.length_take]
    omega
  have hslice : slice (tokens.take ((k + 1) * B)) (k * B) ((k + 1) * B) =
      slice tokens (k * B) ((k + 1) * B) := by
    rw [slice, slice, List.drop_take, List.take_take, Nat.min_self]
  have hblock : (slice tokens (k * B) ((k + 1) * B)).length = B := by
    rw [slice_length hlen]
    omega
  have hne : ¬ (slice tokens (k * B) ((k + 1) * B)).isEmpty = true := by
    rw [List.isEmpty_iff, ← List.length_eq_zero_iff, hblock]
    omega
  have hprevious := nativeTextDiskPreviousBlockHash_eq sha256 identity.modelHash
    (nativeTextDiskNamespaceHash sha256 ns) hB
    (show k * B ≤ (tokens.take ((k + 1) * B)).length by omega) (by omega)
  rw [chainHash_take k (by omega)] at hprevious
  rw [NativeTextDiskCacheBlockDescriptor.new, htake, getRange, htake, if_pos ⟨by omega, by omega⟩,
    okOrElse_some, ok_bind, hslice, if_neg hne, hblock]
  dsimp only
  rw [hprevious]
  rfl

/-- Every descriptor is one of a block behind whole blocks. -/
theorem new_ok {identity : NativeTextDiskCacheIdentity} {ns : NativeTextPrefixCacheNamespace}
    {blockStart : ℕ} {d : NativeTextDiskCacheBlockDescriptor} (hword : tokens.length ≤ wordMax)
    (h : NativeTextDiskCacheBlockDescriptor.new sha256 identity ns blockStart tokens = .ok d) :
    ∃ k B, 0 < B ∧ blockStart = k * B ∧ tokens.length = (k + 1) * B ∧
      d = blockDescriptor sha256 B tokens identity ns k := by
  have hnew := h
  rw [NativeTextDiskCacheBlockDescriptor.new] at h
  obtain ⟨blockTokens, hget, h⟩ := bind_eq_ok.1 h
  obtain ⟨hne, h⟩ := guard_eq_ok.1 h
  obtain ⟨previous, hprevious, -⟩ := bind_eq_ok.1 h
  have hrange : blockStart ≤ tokens.length ∧ blockTokens = slice tokens blockStart tokens.length := by
    unfold getRange at hget
    by_cases hle : blockStart ≤ tokens.length ∧ tokens.length ≤ tokens.length
    · rw [if_pos hle, okOrElse_some] at hget
      exact ⟨hle.1, (Except.ok.inj hget).symm⟩
    · rw [if_neg hle] at hget
      cases hget
  obtain ⟨hle, rfl⟩ := hrange
  have hlength : (slice tokens blockStart tokens.length).length = tokens.length - blockStart :=
    slice_length (le_refl _)
  rw [nativeTextDiskPreviousBlockHash, hlength] at hprevious
  obtain ⟨hpos, hprevious⟩ := guard_eq_ok.1 hprevious
  obtain ⟨-, hprevious⟩ := guard_eq_ok.1 hprevious
  obtain ⟨hmod, -⟩ := guard_eq_ok.1 hprevious
  obtain ⟨k, hk⟩ := Nat.dvd_of_mod_eq_zero (not_not.mp hmod)
  rw [Nat.mul_comm] at hk
  obtain ⟨B, hB⟩ : ∃ B, B = tokens.length - blockStart := ⟨_, rfl⟩
  rw [← hB] at hk hpos
  have hlen : tokens.length = (k + 1) * B := by
    rw [Nat.add_one_mul, ← hk]
    omega
  have hblock := new_block sha256 (show 0 < B by omega) (le_of_eq hlen.symm) hword
    identity ns
  rw [List.take_of_length_le (le_of_eq hlen), ← hk, hnew] at hblock
  exact ⟨k, B, by omega, hk, hlen, Except.ok.inj hblock⟩

end Chain

/-! ### What is hashed determines its parts -/

/-- A text that lies in one allocation. -/
def Allocated (s : String) : Prop := (utf8 s).length < 2 ^ 63

instance (s : String) : Decidable (Allocated s) := inferInstanceAs (Decidable (_ < _))

theorem updateHashValue_delimited :
    Delimited (fun o : Option String => ∀ v ∈ o, Allocated v) updateHashValue := by
  have htext : Delimited Allocated fun v => toLe 8 (utf8 v).length ++ utf8 v :=
    (Delimited.toLe 8).countedWord.comp (g := utf8) (fun v hv => lt_trans hv (by decide))
      fun _ _ _ _ h => utf8_injective h
  have heq : updateHashValue = optionCode 0 1 fun v => toLe 8 (utf8 v).length ++ utf8 v := by
    funext o
    cases o with
    | none => rfl
    | some v => rfl
  rw [heq]
  exact htext.option (by decide)

theorem text_delimited : Delimited Allocated fun v => updateHashValue (some v) :=
  updateHashValue_delimited.comp (fun v hv w hw => by cases hw; exact hv) fun _ _ _ _ h =>
    Option.some.inj h

/-- Two lists of equally many components that are hashed alike are the same. -/
theorem hashMessage_injective {label : String} {cs cs' : List (String × Option String)}
    (hlen : cs.length = cs'.length) (hcs : ∀ c ∈ cs, Allocated c.1 ∧ ∀ v ∈ c.2, Allocated v)
    (hcs' : ∀ c ∈ cs', Allocated c.1 ∧ ∀ v ∈ c.2, Allocated v)
    (h : hashMessage label cs = hashMessage label cs') : cs = cs' := by
  have hpair := text_delimited.append updateHashValue_delimited
  have hmessages : cs.flatMap (fun c => updateHashValue (some c.1) ++ updateHashValue c.2) ++ [] =
      cs'.flatMap (fun c => updateHashValue (some c.1) ++ updateHashValue c.2) ++ [] := by
    rw [List.append_nil, List.append_nil]
    exact List.append_cancel_left h
  exact (hpair.flatMap hlen hcs hcs' hmessages).1

/-- The hashed bytes of a block are those of one model, namespace, previous hash, place and
list of tokens. -/
theorem blockMessage_injective {m m' n n' p p' : String} {s s' : ℕ} {ts ts' : List ℕ}
    (hm : Allocated m) (hm' : Allocated m') (hn : Allocated n) (hn' : Allocated n')
    (hp : Allocated p) (hp' : Allocated p') (hs : s < 2 ^ 64) (hs' : s' < 2 ^ 64)
    (hts : ts.length < 2 ^ 64 ∧ ∀ t ∈ ts, t < 2 ^ 64)
    (hts' : ts'.length < 2 ^ 64 ∧ ∀ t ∈ ts', t < 2 ^ 64)
    (h : blockMessage m n p s ts = blockMessage m' n' p' s' ts') :
    m = m' ∧ n = n' ∧ p = p' ∧ s = s' ∧ ts = ts' := by
  have hnumber : Delimited (· < 2 ^ 64) (toLe 8) := (Delimited.toLe 8).mono fun _ h => h
  have hall := text_delimited.append (text_delimited.append (text_delimited.append
    (hnumber.append (hnumber.counted hnumber))))
  have heq : (m, n, p, s, ts) = (m', n', p', s', ts') :=
    hall.injective ⟨hm, hn, hp, hs, hts⟩ ⟨hm', hn', hp', hs', hts'⟩ (List.append_cancel_left h)
  simpa using heq

theorem hexChars_length : ∀ w n, (hexChars w n).length = w
  | 0, _ => rfl
  | w + 1, n => by rw [hexChars, List.length_append, hexChars_length w, List.length_singleton]

theorem hexChars_injective : ∀ {w m n : ℕ}, m < 16 ^ w → n < 16 ^ w →
    hexChars w m = hexChars w n → m = n
  | 0, m, n, hm, hn, _ => by omega
  | w + 1, m, n, hm, hn, h => by
    rw [hexChars, hexChars] at h
    obtain ⟨hhigh, hlow⟩ := List.append_inj h (by rw [hexChars_length, hexChars_length])
    have hdigit : ∀ a < 16, ∀ b < 16, Json.hexDigit a = Json.hexDigit b → a = b := by decide
    have hmod := hdigit _ (Nat.mod_lt m (by decide)) _ (Nat.mod_lt n (by decide))
      (List.cons.inj hlow).1
    rw [Nat.pow_succ] at hm hn
    have hdiv := hexChars_injective (w := w) (Nat.div_lt_of_lt_mul (by omega))
      (Nat.div_lt_of_lt_mul (by omega)) hhigh
    omega

theorem lowerHex_injective {h h' : CacheBlockHash} (heq : lowerHex h = lowerHex h') : h = h' := by
  have hpow : (16 : ℕ) ^ 64 = 2 ^ 256 := by norm_num
  refine BitVec.eq_of_toNat_eq (hexChars_injective (w := 64) ?_ ?_ (String.ofList_injective heq))
  · rw [hpow]
    exact h.isLt
  · rw [hpow]
    exact h'.isLt

/-- A hash is a short text. -/
theorem lowerHex_allocated (h : CacheBlockHash) : Allocated (lowerHex h) := by
  have hle := utf8_length_le (lowerHex h)
  rw [lowerHex, String.toList_ofList, hexChars_length] at hle
  unfold Allocated
  rw [lowerHex]
  omega

/-! ### The hash of a block determines the prompt up to its end -/

/-- Tokens as a `&[usize]` of a 64-bit machine holds them. -/
structure HeldTokens (tokens : List ℕ) : Prop where
  allocated : 8 * tokens.length < 2 ^ 63
  words : ∀ t ∈ tokens, t < 2 ^ 64

namespace HeldTokens

variable {tokens : List ℕ} (h : HeldTokens tokens)

include h

theorem length_le : tokens.length ≤ wordMax := by
  have hlen := h.allocated
  unfold wordMax
  omega

theorem start_lt {a : ℕ} (ha : a ≤ tokens.length) : a < 2 ^ 64 := by
  have hlen := h.allocated
  omega

theorem slice (a b : ℕ) : (slice tokens a b).length < 2 ^ 64 ∧ ∀ t ∈ slice tokens a b, t < 2 ^ 64 := by
  have hsub : (Lib.slice tokens a b).Sublist tokens :=
    (List.take_sublist _ _).trans (List.drop_sublist _ _)
  have hlen := hsub.length_le
  have hall := h.allocated
  exact ⟨by omega, fun t ht => h.words t (hsub.subset ht)⟩

end HeldTokens

section Determined

variable {sha256 : List Byte → CacheBlockHash} {modelHash namespaceHash : String} {B : ℕ}
  {tokens tokens' : List ℕ}

variable (sha256 modelHash namespaceHash B tokens) in
/-- What is hashed for the first `k` blocks. -/
def chainMessages (k : ℕ) : List (List Byte) :=
  (List.range k).map fun i =>
    blockMessage modelHash namespaceHash (chainHash sha256 modelHash namespaceHash B tokens i) (i * B)
      (slice tokens (i * B) ((i + 1) * B))

theorem chainMessages_succ (k : ℕ) :
    chainMessages sha256 modelHash namespaceHash B tokens (k + 1) =
      chainMessages sha256 modelHash namespaceHash B tokens k ++
        [blockMessage modelHash namespaceHash (chainHash sha256 modelHash namespaceHash B tokens k)
          (k * B) (slice tokens (k * B) ((k + 1) * B))] := by
  rw [chainMessages, chainMessages, List.range_succ, List.map_append, List.map_singleton]

theorem chainHash_allocated : ∀ k, Allocated (chainHash sha256 modelHash namespaceHash B tokens k)
  | 0 => by
    rw [chainHash]
    decide +kernel
  | k + 1 => lowerHex_allocated _

theorem take_succ_blocks (tokens : List ℕ) (B k : ℕ) :
    tokens.take ((k + 1) * B) = tokens.take (k * B) ++ slice tokens (k * B) ((k + 1) * B) := by
  rw [slice, Nat.add_one_mul, Nat.add_sub_cancel_left, List.take_add]

/-- Two prompts with one hash for their first `k` blocks have the same tokens there. -/
theorem tokens_of_chainHash (hm : Allocated modelHash) (hn : Allocated namespaceHash)
    (ht : HeldTokens tokens) (ht' : HeldTokens tokens') (k : ℕ) (hword : k * B ≤ tokens.length)
    (hfree : CollisionFree sha256 (chainMessages sha256 modelHash namespaceHash B tokens k ++
      chainMessages sha256 modelHash namespaceHash B tokens' k))
    (h : chainHash sha256 modelHash namespaceHash B tokens k =
      chainHash sha256 modelHash namespaceHash B tokens' k) :
    tokens.take (k * B) = tokens'.take (k * B) := by
  induction k with
  | zero => rw [Nat.zero_mul, List.take_zero, List.take_zero]
  | succ k ih =>
    have hle : k * B ≤ (k + 1) * B := Nat.mul_le_mul_right B (Nat.le_succ k)
    rw [chainMessages_succ, chainMessages_succ] at hfree
    have hmessage := hfree _ (by simp) _ (by simp) (lowerHex_injective h)
    have hstart := ht.start_lt (le_trans hle hword)
    obtain ⟨-, -, hprevious, -, hblock⟩ := blockMessage_injective hm hm hn hn
      (chainHash_allocated k) (chainHash_allocated k) hstart hstart (ht.slice _ _) (ht'.slice _ _)
      hmessage
    have hsub : CollisionFree sha256 (chainMessages sha256 modelHash namespaceHash B tokens k ++
        chainMessages sha256 modelHash namespaceHash B tokens' k) := hfree.mono fun x hx => by
      rcases List.mem_append.mp hx with hx | hx
      · exact List.mem_append_left _ (List.mem_append_left _ hx)
      · exact List.mem_append_right _ (List.mem_append_left _ hx)
    rw [take_succ_blocks, take_succ_blocks, ih (le_trans hle hword) hsub hprevious, hblock]

end Determined

/-- The fields that are hashed for a namespace, each in its own allocation. -/
def NativeTextPrefixCacheNamespace.Allocated (ns : NativeTextPrefixCacheNamespace) : Prop :=
  ∀ c ∈ ns.components, ∀ v ∈ c.2, NativeRuntime.Allocated v

theorem NativeTextPrefixCacheNamespace.names_allocated (ns : NativeTextPrefixCacheNamespace) :
    ∀ c ∈ ns.components, NativeRuntime.Allocated c.1 := by
  have hnames : ∀ name ∈ ns.components.map (·.1), NativeRuntime.Allocated name := by
    simp only [components, List.map_cons, List.map_nil]
    decide +kernel
  exact fun c hc => hnames _ (List.mem_map_of_mem hc)

theorem NativeTextPrefixCacheNamespace.components_injective :
    Function.Injective NativeTextPrefixCacheNamespace.components := by
  have htoString : ∀ {a b : ℕ}, toString a = toString b → a = b :=
    fun h => toString_nat_inj (congrArg String.toList h)
  intro ns ns' h
  have hvalues := congrArg (List.map Prod.snd) h
  rw [components, components] at hvalues
  simp only [List.map_cons, List.map_nil, List.cons.injEq, Option.some.injEq, and_true] at hvalues
  obtain ⟨h1, h2, h3, h4, h5, h6, h7, h8, h9, h10, h11, h12, h13, h14, h15, h16, hversion, hcache,
    hprefill⟩ := hvalues
  exact (mk.injEq ..).mpr ⟨h1, h2, h3, h4, h5, h6, h7, h8, h9, h10, h11, h12, h13, h14, h15, h16,
    htoString hversion, htoString hcache, htoString hprefill⟩

theorem NativeTextPrefixCacheNamespace.message_injective {ns ns' : NativeTextPrefixCacheNamespace}
    (hns : ns.Allocated) (hns' : ns'.Allocated) (h : ns.message = ns'.message) : ns = ns' :=
  components_injective (hashMessage_injective rfl
    (fun c hc => ⟨ns.names_allocated c hc, hns c hc⟩)
    (fun c hc => ⟨ns'.names_allocated c hc, hns' c hc⟩) h)

/-- What a descriptor is made of. -/
structure BlockArguments where
  identity : NativeTextDiskCacheIdentity
  ns : NativeTextPrefixCacheNamespace
  blockStart : ℕ
  prefixTokens : List ℕ
  identity_allocated : Allocated identity.modelHash
  ns_allocated : ns.Allocated
  tokens_held : HeldTokens prefixTokens

namespace BlockArguments

variable (sha256 : List Byte → CacheBlockHash)

def descriptor (q : BlockArguments) : DiskResult NativeTextDiskCacheBlockDescriptor :=
  NativeTextDiskCacheBlockDescriptor.new sha256 q.identity q.ns q.blockStart q.prefixTokens

/-- What is hashed for the descriptor: the namespace and the blocks up to its own. -/
def messages (q : BlockArguments) : List (List Byte) :=
  let B := q.prefixTokens.length - q.blockStart
  q.ns.message :: chainMessages sha256 q.identity.modelHash (nativeTextDiskNamespaceHash sha256 q.ns)
    B q.prefixTokens (q.prefixTokens.length / B)

variable {sha256}

theorem messages_eq (q : BlockArguments) {k B : ℕ} (hB : 0 < B) (hstart : q.blockStart = k * B)
    (hlen : q.prefixTokens.length = (k + 1) * B) :
    q.messages sha256 = q.ns.message :: chainMessages sha256 q.identity.modelHash
      (nativeTextDiskNamespaceHash sha256 q.ns) B q.prefixTokens (k + 1) := by
  have hcount : q.prefixTokens.length - q.blockStart = B := by
    rw [hlen, hstart, Nat.add_one_mul]
    omega
  rw [messages, hcount, hlen, Nat.mul_div_cancel _ hB]

/-- Two descriptors with one hash are made of the same. -/
theorem eq_of_blockHash {q q' : BlockArguments} {d d' : NativeTextDiskCacheBlockDescriptor}
    (hfree : CollisionFree sha256 (q.messages sha256 ++ q'.messages sha256))
    (hd : q.descriptor sha256 = .ok d) (hd' : q'.descriptor sha256 = .ok d')
    (h : d.blockHash = d'.blockHash) :
    q.identity.modelHash = q'.identity.modelHash ∧ q.ns = q'.ns ∧ q.blockStart = q'.blockStart ∧
      q.prefixTokens = q'.prefixTokens := by
  obtain ⟨k, B, hB, hstart, hlen, rfl⟩ := new_ok q.tokens_held.length_le hd
  obtain ⟨k', B', hB', hstart', hlen', rfl⟩ := new_ok q'.tokens_held.length_le hd'
  rw [q.messages_eq hB hstart hlen, q'.messages_eq hB' hstart' hlen', chainMessages_succ,
    chainMessages_succ] at hfree
  -- the last blocks are hashed alike, so they have the same model, namespace and place
  have hmessage := hfree _ (by simp) _ (by simp) (lowerHex_injective h)
  have hle : k * B ≤ q.prefixTokens.length := by
    rw [hlen]
    exact Nat.mul_le_mul_right B (Nat.le_succ k)
  have hle' : k' * B' ≤ q'.prefixTokens.length := by
    rw [hlen']
    exact Nat.mul_le_mul_right B' (Nat.le_succ k')
  obtain ⟨hmodel, hnamespace, hprevious, hplace, hblock⟩ := blockMessage_injective
    q.identity_allocated q'.identity_allocated (lowerHex_allocated _) (lowerHex_allocated _)
    (chainHash_allocated k) (chainHash_allocated k') (q.tokens_held.start_lt hle)
    (q'.tokens_held.start_lt hle') (q.tokens_held.slice _ _) (q'.tokens_held.slice _ _) hmessage
  have hspace : sha256 q.ns.message = sha256 q'.ns.message := lowerHex_injective hnamespace
  have hns : q.ns = q'.ns := NativeTextPrefixCacheNamespace.message_injective q.ns_allocated
    q'.ns_allocated (hfree _ (by simp) _ (by simp) hspace)
  -- blocks of one size before them, as the last ones are equally long
  have hsize : B = B' := by
    have hlength := congrArg List.length hblock
    rw [slice_length (le_of_eq hlen.symm), slice_length (le_of_eq hlen'.symm), Nat.add_one_mul,
      Nat.add_one_mul] at hlength
    omega
  subst hsize
  have hindex : k = k' := Nat.eq_of_mul_eq_mul_right hB hplace
  subst hindex
  refine ⟨hmodel, hns, hstart.trans hstart'.symm, ?_⟩
  rw [← hmodel, ← hns] at hfree hprevious
  have hsub : ∀ {x y : List Byte} {as as' : List (List Byte)} {b b' : List Byte},
      as ++ as' ⊆ x :: (as ++ [b]) ++ y :: (as' ++ [b']) := by
    intro x y as as' b b' z hz
    rcases List.mem_append.mp hz with hz | hz
    · exact List.mem_append_left _ (List.mem_cons_of_mem _ (List.mem_append_left _ hz))
    · exact List.mem_append_right _ (List.mem_cons_of_mem _ (List.mem_append_left _ hz))
  have hbefore := tokens_of_chainHash q.identity_allocated (lowerHex_allocated _) q.tokens_held
    q'.tokens_held k hle (hfree.mono hsub) hprevious
  rw [← List.take_of_length_le (le_of_eq hlen), ← List.take_of_length_le (le_of_eq hlen'),
    take_succ_blocks, take_succ_blocks, hbefore, hblock]

/-- The block before a block was stored under the hash that the block has for it. -/
theorem descriptor_previous {q : BlockArguments} {d : NativeTextDiskCacheBlockDescriptor}
    (hd : q.descriptor sha256 = .ok d) (hstart : 0 < q.blockStart) :
    ∃ d', NativeTextDiskCacheBlockDescriptor.new sha256 q.identity q.ns
        (q.blockStart - (q.prefixTokens.length - q.blockStart))
        (q.prefixTokens.take q.blockStart) = .ok d' ∧
      d'.blockHash = d.previousBlockHash := by
  obtain ⟨k, B, hB, hk, hlen, rfl⟩ := new_ok q.tokens_held.length_le hd
  have hcount : q.prefixTokens.length - q.blockStart = B := by
    rw [hlen, hk, Nat.add_one_mul]
    omega
  rw [hcount]
  cases k with
  | zero => omega
  | succ k =>
    refine ⟨blockDescriptor sha256 B q.prefixTokens q.identity q.ns k, ?_, rfl⟩
    have hle : (k + 1) * B ≤ q.prefixTokens.length := by
      rw [hlen]
      exact Nat.mul_le_mul_right B (Nat.le_succ _)
    have hbefore : q.blockStart - B = k * B := by
      rw [hk, Nat.add_one_mul, Nat.add_sub_cancel]
    rw [hbefore, hk]
    exact new_block sha256 hB hle q.tokens_held.length_le q.identity q.ns

end BlockArguments

/-- **A block's hash determines the model, the namespace and the prompt up to its end.** And
the hash that a block has for the one before it, computed anew from the tokens, is the one
that block is stored under. -/
theorem blockHash_determines (sha256 : List Byte → CacheBlockHash) :
    (∀ (q q' : BlockArguments) (d d' : NativeTextDiskCacheBlockDescriptor),
      CollisionFree sha256 (q.messages sha256 ++ q'.messages sha256) →
      q.descriptor sha256 = .ok d → q'.descriptor sha256 = .ok d' → d.blockHash = d'.blockHash →
      q.identity.modelHash = q'.identity.modelHash ∧ q.ns = q'.ns ∧
        q.blockStart = q'.blockStart ∧ q.prefixTokens = q'.prefixTokens) ∧
    ∀ (q : BlockArguments) (d : NativeTextDiskCacheBlockDescriptor),
      q.descriptor sha256 = .ok d → 0 < q.blockStart →
      ∃ d', NativeTextDiskCacheBlockDescriptor.new sha256 q.identity q.ns
          (q.blockStart - (q.prefixTokens.length - q.blockStart))
          (q.prefixTokens.take q.blockStart) = .ok d' ∧
        d'.blockHash = d.previousBlockHash :=
  ⟨fun _ _ _ _ hfree hd hd' h => BlockArguments.eq_of_blockHash hfree hd hd' h,
    fun _ _ hd hstart => BlockArguments.descriptor_previous hd hstart⟩

/-- The second block of a prompt of two tokens. -/
def secondBlock : BlockArguments where
  identity := ⟨"model", "s", "gemma", none⟩
  ns := {
    modelId := "m", backend := "b", family := some "gemma", quantization := none, repoId := none
    resolvedCommit := none, profile := none, tokenizerKind := "t", tokenizerHash := "h"
    tokenizerNormalization := "n", cacheTemplateId := "c", chatTemplateKwargsHash := none
    adapterSettings := "a", cacheKey := "k", toolSchema := none, requestMode := "r"
    cacheLayoutVersion := 1, cacheTokens := 16, maxPrefillTokens := 4 }
  blockStart := 1
  prefixTokens := [7, 8]
  identity_allocated := by decide +kernel
  ns_allocated := by
    unfold NativeTextPrefixCacheNamespace.Allocated
    decide +kernel
  tokens_held := ⟨by decide, by decide⟩

/-- SHA-256 on the three messages of `secondBlock`: the namespace and the two blocks. -/
def sha256OfBlocks (message : List Byte) : CacheBlockHash :=
  if message.length = 610 then 0xd1cd6cfa5acec1d24f5af35ea1431fdd0ca6b328b47a87e9da3842ce60ff27ce#256
  else if message.getLast? = some 0 ∧ message[217]? = some 7 then
    0x3227798dbd27825a63a6cf4dfd7973f04e287674c884fca6eb0fe399ca13552b#256
  else 0x4844d837a1c919584f17a5f0120c4408f27572f3070203245e009e7be7088530#256

theorem blockHash_determines_second_block :
    CollisionFree sha256OfBlocks
        (secondBlock.messages sha256OfBlocks ++ secondBlock.messages sha256OfBlocks) ∧
      ∃ d d', secondBlock.descriptor sha256OfBlocks = .ok d ∧
        d.blockHash = "4844d837a1c919584f17a5f0120c4408f27572f3070203245e009e7be7088530" ∧
        NativeTextDiskCacheBlockDescriptor.new sha256OfBlocks secondBlock.identity secondBlock.ns 0
          [7] = .ok d' ∧
        d'.blockHash = d.previousBlockHash ∧ secondBlock.prefixTokens = secondBlock.prefixTokens := by
  have hfree : CollisionFree sha256OfBlocks
      (secondBlock.messages sha256OfBlocks ++ secondBlock.messages sha256OfBlocks) := by
    unfold CollisionFree
    decide +kernel
  have hnew : NativeTextDiskCacheBlockDescriptor.new sha256OfBlocks secondBlock.identity
      secondBlock.ns (1 * 1) ([7, 8].take ((1 + 1) * 1)) =
      .ok (blockDescriptor sha256OfBlocks 1 [7, 8] secondBlock.identity secondBlock.ns 1) :=
    new_block sha256OfBlocks (by decide) (by decide) (by decide) _ _
  have hd : secondBlock.descriptor sha256OfBlocks = .ok
      (blockDescriptor sha256OfBlocks 1 [7, 8] secondBlock.identity secondBlock.ns 1) := hnew
  obtain ⟨hsame, hprevious⟩ := blockHash_determines sha256OfBlocks
  obtain ⟨d', hd', heq⟩ := hprevious secondBlock _ hd (by decide)
  exact ⟨hfree, _, d', hd, by decide +kernel, hd', heq,
    (hsame secondBlock secondBlock _ _ hfree hd hd rfl).2.2.2⟩

end KirAi.NativeRuntime
