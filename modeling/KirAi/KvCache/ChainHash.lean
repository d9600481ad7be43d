/-
# The hash of a chain of blocks

`block.rs`: `cache_block_chain_hash` hashes the tokens of a block together with the hash of
the chain before it, the model and the cache context. The two strings are hashed with their
lengths before them, the previous hash has a fixed width, and the tokens are counted, so
what is hashed determines all four (`chainMessage_injective`).

SHA-256 is a parameter. That it has no collisions can only be meant of the messages at hand
(`CollisionFree`), as it maps longer messages to 32 bytes. Two chains without a block have
the hash that chains start from, whatever their models are.

Key definitions: `chainMessage`, `cacheBlockChainHash`, `BlockChain`, `CollisionFree`.
Key theorems: `chainMessage_injective`, `chainHash_determines`.
-/
import KirAi.KvCache.Basic
import KirAi.Lib.Bytes

namespace KirAi.KvCache

open Lib

/-- The bytes of a `str`, which no allocation holds more than `isize::MAX` of. -/
structure StrBytes where
  bytes : List Byte
  length_lt : bytes.length < 2 ^ 63
deriving DecidableEq

/-- A slice of token ids, in one allocation. -/
structure TokenIds where
  ids : List (BitVec 32)
  length_lt : 4 * ids.length < 2 ^ 63
deriving DecidableEq

def chainDomain : List Byte := "kir-ai-kv-block-chain/v1".toUTF8.data.toList.map (·.toBitVec)

/-- The 32 bytes of a hash. -/
def hashBytes (hash : CacheBlockHash) : List Byte := toLe 32 hash.toNat

/-- What `update_hash_with_bytes` hashes. -/
def lengthAndBytes (value : StrBytes) : List Byte := toLe 8 value.bytes.length ++ value.bytes

def tokenBytes (tokenIds : List (BitVec 32)) : List Byte := tokenIds.flatMap fun t => toLe 4 t.toNat

/-- The bytes that are hashed. -/
def chainMessage (modelId cacheContext : StrBytes) (previousHash : CacheBlockHash)
    (tokenIds : TokenIds) : List Byte :=
  chainDomain ++ (lengthAndBytes modelId ++ (lengthAndBytes cacheContext ++
    (hashBytes previousHash ++ (toLe 8 tokenIds.ids.length ++ tokenBytes tokenIds.ids))))

section Hash

variable (sha256 : List Byte → CacheBlockHash)

def cacheBlockChainHash (modelId cacheContext : StrBytes) (previousHash : CacheBlockHash)
    (tokenIds : TokenIds) : CacheBlockHash :=
  sha256 (chainMessage modelId cacheContext previousHash tokenIds)

/-- The blocks of a prompt, in order. -/
structure BlockChain where
  modelId : StrBytes
  cacheContext : StrBytes
  blocks : List TokenIds
deriving DecidableEq

namespace BlockChain

/-- The hash of the last block, folded from the first one on. -/
def hash (root : CacheBlockHash) (chain : BlockChain) : CacheBlockHash :=
  chain.blocks.foldl (cacheBlockChainHash sha256 chain.modelId chain.cacheContext) root

/-- What is hashed on the way from the hash `previous`. -/
def messagesFrom (modelId cacheContext : StrBytes) :
    CacheBlockHash → List TokenIds → List (List Byte)
  | _, [] => []
  | previous, block :: blocks =>
    chainMessage modelId cacheContext previous block ::
      messagesFrom modelId cacheContext
        (cacheBlockChainHash sha256 modelId cacheContext previous block) blocks

/-- What is hashed on the way. -/
def messages (root : CacheBlockHash) (chain : BlockChain) : List (List Byte) :=
  messagesFrom sha256 chain.modelId chain.cacheContext root chain.blocks

end BlockChain

/-- No two of the messages have one hash. -/
def CollisionFree (messages : List (List Byte)) : Prop :=
  ∀ m ∈ messages, ∀ m' ∈ messages, sha256 m = sha256 m' → m = m'

end Hash

/-! ### What is hashed determines its parts -/

theorem toLe_injective {w m n : ℕ} (hm : m < 256 ^ w) (hn : n < 256 ^ w)
    (h : toLe w m = toLe w n) : m = n := by
  rw [← fromLe_toLe hm, h, fromLe_toLe hn]

theorem hashBytes_injective {h h' : CacheBlockHash} (heq : hashBytes h = hashBytes h') : h = h' :=
  BitVec.eq_of_toNat_eq (toLe_injective h.isLt h'.isLt heq)

/-- A string with its length before it ends where its length says. -/
theorem lengthAndBytes_append_inj {v v' : StrBytes} {r r' : List Byte}
    (h : lengthAndBytes v ++ r = lengthAndBytes v' ++ r') : v = v' ∧ r = r' := by
  rw [lengthAndBytes, lengthAndBytes, List.append_assoc, List.append_assoc] at h
  obtain ⟨hlen, hrest⟩ := List.append_inj h (by simp only [toLe_length])
  have hlength : v.bytes.length = v'.bytes.length :=
    toLe_injective (v.length_lt.trans (by decide)) (v'.length_lt.trans (by decide)) hlen
  obtain ⟨hbytes, hr⟩ := List.append_inj hrest hlength
  cases v
  cases v'
  cases hbytes
  exact ⟨rfl, hr⟩

theorem tokenBytes_injective : ∀ {ts ts' : List (BitVec 32)}, ts.length = ts'.length →
    tokenBytes ts = tokenBytes ts' → ts = ts'
  | [], [], _, _ => rfl
  | t :: ts, t' :: ts', hlen, h => by
    rw [tokenBytes, tokenBytes, List.flatMap_cons, List.flatMap_cons] at h
    obtain ⟨ht, hts⟩ := List.append_inj h (by simp only [toLe_length])
    rw [BitVec.eq_of_toNat_eq (toLe_injective t.isLt t'.isLt ht),
      tokenBytes_injective (Nat.succ.inj hlen) hts]

/-- The hashed bytes are those of one model, context, previous hash and list of tokens. -/
theorem chainMessage_injective {m m' c c' : StrBytes} {p p' : CacheBlockHash} {t t' : TokenIds}
    (h : chainMessage m c p t = chainMessage m' c' p' t') : m = m' ∧ c = c' ∧ p = p' ∧ t = t' := by
  obtain ⟨hm, h⟩ := lengthAndBytes_append_inj (List.append_cancel_left h)
  obtain ⟨hc, h⟩ := lengthAndBytes_append_inj h
  obtain ⟨hp, h⟩ := List.append_inj h (by simp only [hashBytes, toLe_length])
  obtain ⟨hcount, htokens⟩ := List.append_inj h (by simp only [toLe_length])
  have hlt : ∀ t : TokenIds, t.ids.length < 256 ^ 8 := fun t => by
    have hlength := t.length_lt
    omega
  have hids := tokenBytes_injective (toLe_injective (hlt t) (hlt t') hcount) htokens
  cases t
  cases t'
  cases hids
  exact ⟨hm, hc, hashBytes_injective hp, rfl⟩

/-! ### The hash determines the chain -/

section Chains

variable {sha256 : List Byte → CacheBlockHash} {root : CacheBlockHash}

theorem CollisionFree.mono {messages messages' : List (List Byte)}
    (h : CollisionFree sha256 messages) (hsub : messages' ⊆ messages) :
    CollisionFree sha256 messages' :=
  fun m hm m' hm' => h m (hsub hm) m' (hsub hm')

namespace BlockChain

theorem messagesFrom_append (modelId cacheContext : StrBytes) : ∀ (bs bs' : List TokenIds)
    (previous : CacheBlockHash), messagesFrom sha256 modelId cacheContext previous (bs ++ bs') =
      messagesFrom sha256 modelId cacheContext previous bs ++
        messagesFrom sha256 modelId cacheContext
          (bs.foldl (cacheBlockChainHash sha256 modelId cacheContext) previous) bs'
  | [], _, _ => rfl
  | b :: bs, bs', previous => by
    rw [List.cons_append, messagesFrom, messagesFrom, List.cons_append, List.foldl_cons,
      messagesFrom_append modelId cacheContext bs bs']

variable (sha256 root) in
/-- The last hash of a chain, and the messages up to it. -/
theorem hash_concat (m c : StrBytes) (bs : List TokenIds) (b : TokenIds) :
    hash sha256 root ⟨m, c, bs ++ [b]⟩ = sha256 (chainMessage m c (hash sha256 root ⟨m, c, bs⟩) b) ∧
      messages sha256 root ⟨m, c, bs ++ [b]⟩ =
        messages sha256 root ⟨m, c, bs⟩ ++ [chainMessage m c (hash sha256 root ⟨m, c, bs⟩) b] := by
  constructor
  · rw [hash, List.foldl_concat]
    rfl
  · rw [messages, messagesFrom_append]
    rfl

end BlockChain

/-- Chains with one hash have the same blocks; the induction takes the last block of each. -/
theorem blocks_eq_of_hash_eq {m m' c c' : StrBytes} (bs bs' : List TokenIds)
    (hfree : CollisionFree sha256 (BlockChain.messages sha256 root ⟨m, c, bs⟩ ++
      BlockChain.messages sha256 root ⟨m', c', bs'⟩))
    (hroot : ∀ x ∈ BlockChain.messages sha256 root ⟨m, c, bs⟩ ++
      BlockChain.messages sha256 root ⟨m', c', bs'⟩, sha256 x ≠ root)
    (h : BlockChain.hash sha256 root ⟨m, c, bs⟩ = BlockChain.hash sha256 root ⟨m', c', bs'⟩) :
    bs = bs' ∧ (bs ≠ [] → m = m' ∧ c = c') := by
  induction bs using List.reverseRecOn generalizing bs' with
  | nil =>
    rcases List.eq_nil_or_concat' bs' with rfl | ⟨bs', b', rfl⟩
    · exact ⟨rfl, fun hne => absurd rfl hne⟩
    · obtain ⟨hhash, hmessages⟩ := BlockChain.hash_concat sha256 root m' c' bs' b'
      rw [hhash] at h
      exact absurd h.symm (hroot _ (by simp [hmessages]))
  | append_singleton bs b ih =>
    obtain ⟨hhash, hmessages⟩ := BlockChain.hash_concat sha256 root m c bs b
    rcases List.eq_nil_or_concat' bs' with rfl | ⟨bs', b', rfl⟩
    · rw [hhash] at h
      exact absurd h (hroot _ (by simp [hmessages]))
    · obtain ⟨hhash', hmessages'⟩ :=
        BlockChain.hash_concat sha256 root m' c' bs' b'
      rw [hhash, hhash'] at h
      rw [hmessages, hmessages'] at hfree hroot
      have heq := hfree _ (by simp) _ (by simp) h
      obtain ⟨hm, hc, hprevious, hb⟩ := chainMessage_injective heq
      have hsub : BlockChain.messages sha256 root ⟨m, c, bs⟩ ++
          BlockChain.messages sha256 root ⟨m', c', bs'⟩ ⊆
          BlockChain.messages sha256 root ⟨m, c, bs⟩ ++
              [chainMessage m c (BlockChain.hash sha256 root ⟨m, c, bs⟩) b] ++
            (BlockChain.messages sha256 root ⟨m', c', bs'⟩ ++
              [chainMessage m' c' (BlockChain.hash sha256 root ⟨m', c', bs'⟩) b']) := by
        intro x hx
        simp only [List.mem_append] at hx ⊢
        tauto
      obtain ⟨hbs, -⟩ := ih bs' (hfree.mono hsub) (fun x hx => hroot x (hsub hx)) hprevious
      rw [hbs, hb]
      exact ⟨rfl, fun _ => ⟨hm, hc⟩⟩

end Chains

/-- **The hash determines the chain.** What is hashed for a block determines the model, the
context, the previous hash and the tokens. So two chains with one hash, none of whose messages
collide or hash to the root, have the same blocks in the same order, and, if there are any,
the same model and context. -/
theorem chainHash_determines :
    (∀ (m m' c c' : StrBytes) (p p' : CacheBlockHash) (t t' : TokenIds),
      chainMessage m c p t = chainMessage m' c' p' t' → m = m' ∧ c = c' ∧ p = p' ∧ t = t') ∧
    ∀ (sha256 : List Byte → CacheBlockHash) (root : CacheBlockHash) (chain chain' : BlockChain),
      CollisionFree sha256 (chain.messages sha256 root ++ chain'.messages sha256 root) →
      (∀ x ∈ chain.messages sha256 root ++ chain'.messages sha256 root, sha256 x ≠ root) →
      chain.hash sha256 root = chain'.hash sha256 root →
      chain.blocks = chain'.blocks ∧
        (chain.blocks ≠ [] →
          chain.modelId = chain'.modelId ∧ chain.cacheContext = chain'.cacheContext) := by
  refine ⟨fun _ _ _ _ _ _ _ _ h => chainMessage_injective h, ?_⟩
  rintro sha256 root ⟨m, c, bs⟩ ⟨m', c', bs'⟩ hfree hroot h
  exact blocks_eq_of_hash_eq bs bs' hfree hroot h

/-- A chain without a block has the hash of the root under every model. -/
theorem chainHash_empty_model :
    ¬∀ (sha256 : List Byte → CacheBlockHash) (root : CacheBlockHash) (chain chain' : BlockChain),
      CollisionFree sha256 (chain.messages sha256 root ++ chain'.messages sha256 root) →
      (∀ x ∈ chain.messages sha256 root ++ chain'.messages sha256 root, sha256 x ≠ root) →
      chain.hash sha256 root = chain'.hash sha256 root →
      chain.blocks = chain'.blocks ∧ chain.modelId = chain'.modelId ∧
        chain.cacheContext = chain'.cacheContext := by
  intro h
  have heq := h (fun _ => 1) 0 ⟨⟨[97], by decide⟩, ⟨[], by decide⟩, []⟩
    ⟨⟨[98], by decide⟩, ⟨[], by decide⟩, []⟩ nofun nofun rfl
  exact absurd heq.2.1 (by decide)

/-- A prompt of two blocks, with the model `m` and the context `c`. -/
def chainOfTwo : BlockChain where
  modelId := ⟨[109], by decide⟩
  cacheContext := ⟨[99], by decide⟩
  blocks := [⟨[1, 2], by decide⟩, ⟨[3], by decide⟩]

/-- SHA-256 on the two messages of `chainOfTwo` from the root of zeros. -/
def sha256OfTwo (message : List Byte) : CacheBlockHash :=
  if message.length = 90 then 0xf68aa84b30c3a94cb5dd1ead5537f0683baae90216a0676ca0a8eac32b1c9244#256
  else 0x793350a52e499d774a040db2af6f07127bc35d721724c16f248f1126e077868f#256

theorem chainHash_determines_two_blocks :
    CollisionFree sha256OfTwo (chainOfTwo.messages sha256OfTwo 0 ++ chainOfTwo.messages sha256OfTwo 0) ∧
      chainOfTwo.hash sha256OfTwo 0 =
        0x793350a52e499d774a040db2af6f07127bc35d721724c16f248f1126e077868f#256 ∧
      chainOfTwo.blocks = chainOfTwo.blocks := by
  have hfree : CollisionFree sha256OfTwo
      (chainOfTwo.messages sha256OfTwo 0 ++ chainOfTwo.messages sha256OfTwo 0) := by
    unfold CollisionFree
    decide +kernel
  exact ⟨hfree, by decide +kernel,
    (chainHash_determines.2 sha256OfTwo 0 chainOfTwo chainOfTwo hfree (by decide +kernel) rfl).1⟩

end KirAi.KvCache
