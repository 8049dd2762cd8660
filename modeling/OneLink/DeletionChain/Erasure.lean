/-
# DeletionChain.Erasure -- the deletable message chain, and when a deleted key is out of reach

`seal_msg_key` hands out the message key of the next index and advances the
chain; the chain key it used stays in a cache bounded by `cache_window`, so that
`get_msg_key` can derive the message key again.  `delete` drops a cached key and
signs a proof.  Indexes and the clock are Python integers; packing one that does
not fit eight bytes raises after the cache has been touched, so every call
returns its outcome beside the state it leaves.

Every key the chain keeps, cached or current, is the key of its index
(`Tracks`), and the key of an index is an ancestor of every later one.  So a
deletion puts its key out of reach exactly if it comes after the index was
reached and while no older key is cached (`Call.Erasing`); from then on every
key the chain takes up is younger (`Beyond`).
-/
import Mathlib.Logic.Function.Iterate
import OneLink.Library.Framing
import OneLink.Library.OrderedDict
import OneLink.Library.Run

namespace OneLink.DeletionChain

open Library

set_option autoImplicit false

def chainKeyLen : Nat := 32
def chainIdLen : Nat := 16
def proofMagic : Bytes := ascii "OLDLP1"
def proofVersion : UInt8 := 1
def hkdfInfoAdvance : Bytes := ascii "OL-deletion-chain-advance|v1"
def hkdfInfoMsgKey : Bytes := ascii "OL-deletion-chain-msg-key|v1"

/-- The imported primitives: HKDF-SHA256 without salt and of 32 bytes, SHA-256, and the holder's
Ed25519 signature. -/
structure Primitives where
  hkdf : (material info : Bytes) → Bytes
  hkdf_length : ∀ material info, (hkdf material info).length = chainKeyLen
  sha256 : Bytes → Bytes

/-- What the calls raise. -/
inductive ChainError where
  /-- `chain_id must be 16 bytes`. -/
  | chainIdLength
  /-- `chain_key must be 32 bytes`. -/
  | keyLength
  /-- `struct.error`: the integer does not fit `>Q`. -/
  | structError
  /-- `min() arg is an empty sequence`, from a negative window. -/
  | emptySequence
  /-- `DeletionChain has no signing key`. -/
  | noSigningKey
deriving DecidableEq, Repr

abbrev Cache := OrderedDict Int Bytes

structure Chain where
  chainId : Bytes
  currentChainKey : Bytes
  nextIndex : Int
  /-- `sign_priv`, as the signature function it stands for. -/
  sign : Option (Bytes → Bytes)
  cacheWindow : Int
  cache : Cache

/-- `struct.pack(">Q", n)`. -/
def packQ (n : Int) : Except ChainError Bytes :=
  if 0 ≤ n ∧ n < 2 ^ 64 then .ok (beBytes 8 n.toNat) else .error .structError

variable (prims : Primitives)

/-- `advance_chain`, on a key of the right length. -/
def advance (chainKey : Bytes) : Bytes := prims.hkdf chainKey hkdfInfoAdvance

def advanceChain (chainKey : Bytes) : Except ChainError Bytes :=
  if chainKey.length = chainKeyLen then .ok (advance prims chainKey) else .error .keyLength

def deriveMsgKey (chainKey : Bytes) : Except ChainError Bytes :=
  if chainKey.length = chainKeyLen then .ok (prims.hkdf chainKey hkdfInfoMsgKey)
  else .error .keyLength

def chainStateHash (chainKey : Bytes) (index : Int) : Except ChainError Bytes := do
  if chainKey.length = chainKeyLen then
    .ok (prims.sha256 (ascii "OL-chain-state|" ++ (← packQ index) ++ chainKey))
  else .error .keyLength

/-- `min(self._cache)`. -/
def oldest (cache : Cache) : Option Int := cache.keys.min?

/-- `while len(self._cache) > self.cache_window`: drop the smallest index.  The first argument
counts the entries; the loop ends in `min` of nothing when the window is negative. -/
def boundCache (window : Int) : Nat → Cache → Except ChainError Unit × Cache
  | 0, cache => (if window < (cache.size : Int) then .error .emptySequence else .ok (), cache)
  | entries + 1, cache =>
    if window < (cache.size : Int) then
      match oldest cache with
      | some index => boundCache window entries (cache.erase index)
      | none => (.error .emptySequence, cache)
    else (.ok (), cache)

namespace Chain

/-- `seal_msg_key`. -/
def sealMsgKey (c : Chain) : Except ChainError (Int × Bytes) × Chain :=
  match deriveMsgKey prims c.currentChainKey with
  | .error err => (.error err, c)
  | .ok msgKey =>
    let stored := c.cache.set c.nextIndex c.currentChainKey
    match boundCache c.cacheWindow stored.size stored with
    | (.error err, cache) => (.error err, { c with cache := cache })
    | (.ok _, cache) =>
      match advanceChain prims c.currentChainKey with
      | .error err => (.error err, { c with cache := cache })
      | .ok next => (.ok (c.nextIndex, msgKey),
          { c with cache := cache, currentChainKey := next, nextIndex := c.nextIndex + 1 })

/-- `get_msg_key`. -/
def getMsgKey (c : Chain) (idx : Int) : Except ChainError (Option Bytes) :=
  match c.cache.get? idx with
  | none => .ok none
  | some ck => some <$> deriveMsgKey prims ck

/-- The proof `delete` returns, at a clock reading. -/
def deletionProof (c : Chain) (sign : Bytes → Bytes) (idx timestampMs : Int) :
    Except ChainError Bytes := do
  let postHash ← chainStateHash prims c.currentChainKey c.nextIndex
  let index ← packQ idx
  let ts ← packQ timestampMs
  let body := proofMagic ++ [proofVersion] ++ c.chainId ++ index ++ postHash ++ ts
  .ok (body ++ sign body)

/-- `delete`. -/
def delete (c : Chain) (idx timestampMs : Int) : Except ChainError Bytes × Chain :=
  match c.sign with
  | none => (.error .noSigningKey, c)
  | some sign =>
    ({ c with cache := c.cache.erase idx }.deletionProof prims sign idx timestampMs,
      { c with cache := c.cache.erase idx })

end Chain

/-- `DeletionChain(...)`, as its callers construct it: with an empty cache. -/
def construct (chainId chainKey : Bytes) (nextIndex : Int) (sign : Option (Bytes → Bytes))
    (cacheWindow : Int) : Except ChainError Chain :=
  if chainId.length ≠ chainIdLen then .error .chainIdLength
  else if chainKey.length ≠ chainKeyLen then .error .keyLength
  else .ok ⟨chainId, chainKey, nextIndex, sign, cacheWindow, .empty⟩

/-! ## Runs -/

inductive Call where
  | sealMsgKey
  | getMsgKey (idx : Int)
  | delete (idx timestampMs : Int)

/-- The state a call leaves. -/
def step (c : Chain) : Call → Chain
  | .sealMsgKey => (c.sealMsgKey prims).2
  | .getMsgKey _ => c
  | .delete idx timestampMs => (c.delete prims idx timestampMs).2

/-! ## Keys and their descendants -/

/-- `K_idx`: the key at an index that the chain started with or has yet to reach. -/
def keyAt (origin : Chain) (idx : Int) : Bytes :=
  (advance prims)^[(idx - origin.nextIndex).toNat] origin.currentChainKey

/-- The target can be computed from the key by advancing. -/
def Ancestor (key target : Bytes) : Prop := ∃ n : Nat, (advance prims)^[n] key = target

/-- Everything the state keeps. -/
def Chain.kept (c : Chain) : List Bytes := c.currentChainKey :: c.cache.values

/-- The message key of an index is gone: it is not handed out, and no key kept leads to it. -/
def Erased (origin : Chain) (idx : Int) (c : Chain) : Prop :=
  c.getMsgKey prims idx = .ok none ∧
    (origin.nextIndex ≤ idx → ∀ key ∈ c.kept, ¬ Ancestor prims key (keyAt prims origin idx))

variable {prims} {origin c : Chain}

theorem keyAt_add {i j : Int} (known : origin.nextIndex ≤ i) (later : i ≤ j) :
    keyAt prims origin j = (advance prims)^[(j - i).toNat] (keyAt prims origin i) := by
  rw [keyAt, keyAt, ← Function.iterate_add_apply]
  congr 1
  omega

theorem ancestor_of_le {i j : Int} (known : origin.nextIndex ≤ i) (later : i ≤ j) :
    Ancestor prims (keyAt prims origin i) (keyAt prims origin j) :=
  ⟨_, (keyAt_add known later).symm⟩

/-- A younger key leads back only around a cycle of the key derivation. -/
theorem not_ancestor_of_lt {i j : Int} (known : origin.nextIndex ≤ i) (later : i < j)
    (acyclic : ∀ n : Nat, 0 < n →
      (advance prims)^[n] (keyAt prims origin i) ≠ keyAt prims origin i) :
    ¬ Ancestor prims (keyAt prims origin j) (keyAt prims origin i) := by
  rintro ⟨n, back⟩
  rw [keyAt_add known (Int.le_of_lt later), ← Function.iterate_add_apply] at back
  exact acyclic (n + (j - i).toNat) (by omega) back

/-! ## What the calls do -/

/-- Bounding the cache only drops entries. -/
theorem boundCache_subset {window : Int} {entries : Nat} {cache : Cache} {j : Int} {key : Bytes}
    (kept : (boundCache window entries cache).2.get? j = some key) : cache.get? j = some key := by
  induction entries generalizing cache with
  | zero => exact kept
  | succ entries ih =>
    rw [boundCache] at kept
    split at kept
    · split at kept
      · rename_i index _
        have inner := ih kept
        rw [OrderedDict.get?_erase] at inner
        split at inner
        · cases inner
        · exact inner
      · exact kept
    · exact kept

/-- Sealing stores the current key, drops entries, and advances unless it raises. -/
theorem sealMsgKey_cases (c : Chain) : (c.sealMsgKey prims).2 = c ∨ ∃ cache : Cache,
    (∀ j key, cache.get? j = some key → (c.cache.set c.nextIndex c.currentChainKey).get? j = some key) ∧
    ((c.sealMsgKey prims).2 = { c with cache := cache } ∨
      (c.sealMsgKey prims).2 = { c with
        cache := cache, currentChainKey := advance prims c.currentChainKey,
        nextIndex := c.nextIndex + 1 }) := by
  rw [Chain.sealMsgKey]
  split
  · exact .inl rfl
  · have subset := fun j key => @boundCache_subset c.cacheWindow
      (c.cache.set c.nextIndex c.currentChainKey).size (c.cache.set c.nextIndex c.currentChainKey) j key
    simp only
    generalize boundCache c.cacheWindow _ _ = bounded at *
    obtain ⟨_ | _, cache⟩ := bounded
    · exact .inr ⟨cache, subset, .inl rfl⟩
    · refine .inr ⟨cache, subset, ?_⟩
      simp only [advanceChain]
      by_cases length : c.currentChainKey.length = chainKeyLen
      · simp only [if_pos length]
        exact .inr trivial
      · simp only [if_neg length]
        exact .inl trivial

theorem delete_cases (c : Chain) (idx timestampMs : Int) :
    (c.delete prims idx timestampMs).2 = c ∨
      (c.delete prims idx timestampMs).2 = { c with cache := c.cache.erase idx } := by
  rw [Chain.delete]
  split
  · exact .inl rfl
  · exact .inr rfl

theorem delete_returned {idx timestampMs : Int} {proof : Bytes}
    (returned : (c.delete prims idx timestampMs).1 = .ok proof) :
    (c.delete prims idx timestampMs).2 = { c with cache := c.cache.erase idx } := by
  rw [Chain.delete] at returned ⊢
  split at returned
  · cases returned
  · rfl

/-! ## Invariants -/

/-- Every key kept is the key of its index. -/
structure Tracks (prims : Primitives) (origin c : Chain) : Prop where
  reached : origin.nextIndex ≤ c.nextIndex
  current : c.currentChainKey = keyAt prims origin c.nextIndex
  cached : ∀ j key, c.cache.get? j = some key →
    origin.nextIndex ≤ j ∧ j ≤ c.nextIndex ∧ key = keyAt prims origin j

theorem Tracks.of_cache (tracks : Tracks prims origin c) {cache : Cache}
    (subset : ∀ j key, cache.get? j = some key →
      (c.cache.set c.nextIndex c.currentChainKey).get? j = some key) :
    Tracks prims origin { c with cache := cache } where
  reached := tracks.reached
  current := tracks.current
  cached j key kept := by
    have stored := subset j key kept
    rw [OrderedDict.get?_set] at stored
    split at stored
    · rename_i here
      rw [← here, ← Option.some.inj stored]
      exact ⟨tracks.reached, Int.le_refl _, tracks.current⟩
    · exact tracks.cached j key stored

theorem Tracks.erase (tracks : Tracks prims origin c) (idx : Int) :
    Tracks prims origin { c with cache := c.cache.erase idx } where
  reached := tracks.reached
  current := tracks.current
  cached j key kept := by
    rw [OrderedDict.get?_erase] at kept
    split at kept
    · cases kept
    · exact tracks.cached j key kept

theorem Tracks.step (tracks : Tracks prims origin c) (call : Call) :
    Tracks prims origin (step prims c call) := by
  cases call with
  | getMsgKey idx => exact tracks
  | delete idx timestampMs =>
    rw [DeletionChain.step]
    obtain same | erased := @delete_cases prims c idx timestampMs
    · rwa [same]
    · rw [erased]
      exact tracks.erase idx
  | sealMsgKey =>
    rw [DeletionChain.step]
    obtain same | ⟨cache, subset, raised | advanced⟩ := @sealMsgKey_cases prims c
    · rwa [same]
    · rw [raised]
      exact tracks.of_cache subset
    · rw [advanced]
      have stored := tracks.of_cache subset
      refine ⟨Int.le_trans tracks.reached (by simp), ?_, fun j key kept => ?_⟩
      · simp only
        rw [keyAt_add tracks.reached (by omega : c.nextIndex ≤ c.nextIndex + 1), ← tracks.current,
          show (c.nextIndex + 1 - c.nextIndex).toNat = 1 by omega, Function.iterate_one]
      · obtain ⟨first, last, same⟩ := stored.cached j key kept
        exact ⟨first, Int.le_trans last (by simp), same⟩

/-- The chain is past an index and keeps only younger keys. -/
def Beyond (idx : Int) (c : Chain) : Prop :=
  idx < c.nextIndex ∧ ∀ j key, c.cache.get? j = some key → idx < j

theorem Beyond.step {idx : Int} (beyond : Beyond idx c) (call : Call) :
    Beyond idx (step prims c call) := by
  have stored : ∀ {cache : Cache}, (∀ j key, cache.get? j = some key →
      (c.cache.set c.nextIndex c.currentChainKey).get? j = some key) →
      ∀ j key, cache.get? j = some key → idx < j := by
    intro cache subset j key kept
    have there := subset j key kept
    rw [OrderedDict.get?_set] at there
    split at there
    · rename_i here
      exact here ▸ beyond.1
    · exact beyond.2 j key there
  cases call with
  | getMsgKey other => exact beyond
  | delete other timestampMs =>
    rw [DeletionChain.step]
    obtain same | erased := @delete_cases prims c other timestampMs
    · rwa [same]
    · rw [erased]
      refine ⟨beyond.1, fun j key kept => ?_⟩
      rw [OrderedDict.get?_erase] at kept
      split at kept
      · cases kept
      · exact beyond.2 j key kept
  | sealMsgKey =>
    rw [DeletionChain.step]
    obtain same | ⟨cache, subset, raised | advanced⟩ := @sealMsgKey_cases prims c
    · rwa [same]
    · rw [raised]
      exact ⟨beyond.1, stored subset⟩
    · rw [advanced]
      exact ⟨Int.lt_trans beyond.1 (by simp), stored subset⟩

theorem Tracks.erased (tracks : Tracks prims origin c) {idx : Int} (beyond : Beyond idx c)
    (acyclic : ∀ n : Nat, 0 < n →
      (advance prims)^[n] (keyAt prims origin idx) ≠ keyAt prims origin idx) :
    Erased prims origin idx c := by
  refine ⟨?_, fun known key kept => ?_⟩
  · cases found : c.cache.get? idx with
    | none => rw [Chain.getMsgKey, found]
    | some key => exact absurd (beyond.2 idx key found) (Int.lt_irrefl idx)
  · obtain rfl | cached := List.mem_cons.1 kept
    · rw [tracks.current]
      exact not_ancestor_of_lt known beyond.1 acyclic
    · obtain ⟨⟨j, key⟩, mem, rfl⟩ := List.mem_map.1 cached
      have found := c.cache.get?_eq_some_iff.2 mem
      obtain ⟨_, _, same⟩ := tracks.cached j key found
      simp only [same]
      exact not_ancestor_of_lt known (beyond.2 j key found) acyclic

/-! ## Deletions of a run -/

variable (prims) in
/-- A deletion that answers with a proof comes after its index was reached and while no older key
is cached. -/
def Call.Erasing (c : Chain) : Call → Prop
  | .delete idx timestampMs => (∃ proof, (c.delete prims idx timestampMs).1 = .ok proof) →
      idx < c.nextIndex ∧ ∀ j ∈ c.cache.keys, idx ≤ j
  | _ => True

variable (prims) in
/-- Every deletion of the run that answers with a proof leaves its key gone for the rest of it. -/
def DeletedKeysGone (origin : Chain) (calls : List Call) : Prop :=
  ∀ early idx timestampMs mid rest, calls = early ++ .delete idx timestampMs :: (mid ++ rest) →
    (∃ proof, ((run (step prims) origin early).delete prims idx timestampMs).1 = .ok proof) →
    Erased prims origin idx (run (step prims) origin (early ++ .delete idx timestampMs :: mid))

theorem tracks_construct {chainId chainKey : Bytes} {nextIndex cacheWindow : Int}
    {sign : Option (Bytes → Bytes)}
    (made : construct chainId chainKey nextIndex sign cacheWindow = .ok origin) :
    Tracks prims origin origin := by
  rw [construct] at made
  split at made
  · cases made
  · split at made
    · cases made
    · cases made
      refine ⟨Int.le_refl _, ?_, nofun⟩
      rw [keyAt, Int.sub_self]
      rfl

theorem Tracks.beyond_delete {idx timestampMs : Int} {proof : Bytes}
    (returned : (c.delete prims idx timestampMs).1 = .ok proof) (reached : idx < c.nextIndex)
    (oldest : ∀ j ∈ c.cache.keys, idx ≤ j) :
    Beyond idx (c.delete prims idx timestampMs).2 := by
  rw [delete_returned returned]
  refine ⟨reached, fun j key kept => ?_⟩
  rw [OrderedDict.get?_erase] at kept
  split at kept
  · cases kept
  · rename_i differs
    exact Int.lt_iff_le_and_ne.2 ⟨oldest j (c.cache.mem_keys_iff.2 ⟨key, kept⟩), differs⟩

/-- **Deleted message keys are gone exactly if** every deletion comes after its index was reached
and while no older key is cached. -/
theorem deleted_keys_gone_iff {chainId chainKey : Bytes} {nextIndex cacheWindow : Int}
    {sign : Option (Bytes → Bytes)}
    (made : construct chainId chainKey nextIndex sign cacheWindow = .ok origin) (calls : List Call)
    (acyclic : ∀ idx timestampMs, Call.delete idx timestampMs ∈ calls → ∀ n : Nat, 0 < n →
      (advance prims)^[n] (keyAt prims origin idx) ≠ keyAt prims origin idx) :
    DeletedKeysGone prims origin calls ↔
      EachStep (step prims) (Call.Erasing prims) origin calls := by
  have tracked : ∀ early, Tracks prims origin (run (step prims) origin early) := fun early =>
    run_preserves (fun c call tracks => tracks.step call) early (tracks_construct made)
  rw [eachStep_iff_split]
  constructor
  · rintro gone early (_ | idx | ⟨idx, timestampMs⟩) late split
    · trivial
    · trivial
    · intro returned
      have erased := gone early idx timestampMs [] late split returned
      have tracks := tracked early
      rw [run_append, run_cons, run_nil] at erased
      generalize run (step prims) origin early = c at *
      obtain ⟨proof, ran⟩ := returned
      rw [step, delete_returned ran] at erased
      constructor
      · by_contra ahead
        have known := Int.le_trans tracks.reached (Int.not_lt.1 ahead)
        refine erased.2 known c.currentChainKey List.mem_cons_self ?_
        rw [tracks.current]
        exact ancestor_of_le tracks.reached (Int.not_lt.1 ahead)
      · intro j mem
        by_contra older
        obtain ⟨key, found⟩ := c.cache.mem_keys_iff.1 mem
        obtain ⟨first, _, same⟩ := tracks.cached j key found
        have differs : idx ≠ j := Int.ne_of_gt (Int.not_le.1 older)
        have kept : (c.cache.erase idx).get? j = some key := by
          rw [OrderedDict.get?_erase_of_ne _ differs, found]
        refine erased.2 (Int.le_trans first (Int.le_of_lt (Int.not_le.1 older))) key
          (List.mem_cons_of_mem _ (List.mem_map.2 ⟨_, (OrderedDict.get?_eq_some_iff _).1 kept, rfl⟩)) ?_
        rw [same]
        exact ancestor_of_le first (Int.le_of_lt (Int.not_le.1 older))
  · intro erasing early idx timestampMs mid rest split returned
    obtain ⟨reached, oldest⟩ := erasing early _ _ split returned
    obtain ⟨proof, ran⟩ := returned
    have after := tracked (early ++ .delete idx timestampMs :: mid)
    refine after.erased ?_ (acyclic idx timestampMs (by rw [split]; simp))
    rw [run_append, run_cons]
    exact run_preserves (fun c call beyond => beyond.step call) mid
      (Tracks.beyond_delete ran reached oldest)

/-! ## A small chain -/

/-- A key derivation that counts up to 255 and stays there. -/
def countingPrims : Primitives where
  hkdf material _ := List.replicate chainKeyLen (material.headD 0 + if material.headD 0 = 255 then 0 else 1)
  hkdf_length _ _ := List.length_replicate
  sha256 _ := []

def sampleChain : Chain :=
  ⟨List.replicate 16 0, List.replicate 32 0, 0, some fun _ => [], 64, .empty⟩

theorem counting_acyclic : ∀ n : Nat, 0 < n →
    (advance countingPrims)^[n] (keyAt countingPrims sampleChain 0) ≠ keyAt countingPrims sampleChain 0 := by
  have moved : ∀ n : Nat, 0 < n → ((advance countingPrims)^[n]
      (keyAt countingPrims sampleChain 0)).headD 0 ≠ 0 := by
    intro n positive
    obtain ⟨n, rfl⟩ := Nat.exists_eq_add_one_of_ne_zero (Nat.ne_of_gt positive)
    rw [Function.iterate_succ_apply']
    generalize ((advance countingPrims)^[n] (keyAt countingPrims sampleChain 0)) = key
    have nonzero : ∀ bits : BitVec 8,
        (⟨bits⟩ : UInt8) + (if (⟨bits⟩ : UInt8) = 255 then 0 else 1) ≠ 0 := by decide +kernel
    exact nonzero (key.headD 0).toBitVec
  intro n positive same
  exact moved n positive (by rw [same]; rfl)

/-- Seal, then delete what was sealed. -/
theorem deleted_keys_gone_first :
    DeletedKeysGone countingPrims sampleChain [.sealMsgKey, .delete 0 7] := by
  refine (@deleted_keys_gone_iff countingPrims sampleChain (List.replicate 16 0)
    (List.replicate 32 0) 0 64 (some fun _ => []) rfl [.sealMsgKey, .delete 0 7] ?_).2 ⟨trivial, fun _ => by decide +kernel, trivial⟩
  rintro idx timestampMs mem
  obtain ⟨rfl, rfl⟩ : idx = 0 ∧ timestampMs = 7 := by simpa using mem
  exact counting_acyclic

/-- Two messages sealed and the second deleted: the cached key of the first leads to it. -/
theorem deleted_key_recomputable :
    ¬ DeletedKeysGone countingPrims sampleChain [.sealMsgKey, .sealMsgKey, .delete 1 7] := by
  intro gone
  have erased := gone [.sealMsgKey, .sealMsgKey] 1 7 [] [] rfl ⟨_, rfl⟩
  refine erased.2 (by decide) (List.replicate 32 0) (by decide +kernel) ⟨1, ?_⟩
  decide +kernel

end OneLink.DeletionChain
