/-
# DoubleRatchet.InPlace — `decrypt` as it writes the state

`DoubleRatchet.Ratchet` gives `decrypt` as a function to a new state.  The module
writes the fields of one object instead, in four helpers and before the frame has been
authenticated, and takes the writes back on a failure.  Here the helpers write in the
order of the source, every imported primitive may raise, and a raise leaves what has
been written so far.

`decryptInPlace_reverts` says that a raise of `decrypt` leaves every field as it was,
from any state and for any header: the two numbers are integers, in range or not.
`decryptInPlace_computes` gives back the function, for primitives that do not raise.
-/
import OneLink.DoubleRatchet.Ratchet
import OneLink.Library.Mutating

namespace OneLink.DoubleRatchet

open Library

set_option autoImplicit false

/-- A header as it is given to `decrypt`: nothing has been checked. -/
structure RawHeader where
  v : Int
  flags : Int
  dh : Bytes
  pn : Int
  n : Int

/-- What a call raises: a check of the module, with the numbers its text carries, or an
imported primitive. -/
inductive Raised (ε : Type) where
  | own (err : RatchetError)
  | messageLost (n : Int) (recvN : Nat)
  | imported (err : ε)
  deriving DecidableEq

/-- The imported primitives, each of which may raise. -/
structure Imported (Key Priv ε : Type) where
  /-- `x25519_keypair()` -/
  keypair : Except ε (Priv × Bytes)
  exchange : Priv → Bytes → Except ε Key
  zeroKey : Key
  hkdfRoot : (salt material : Key) → Except ε (Key × Key)
  hmac : Key → UInt8 → Except ε Key
  aeadDecrypt : (key : Key) → (nonce ciphertext aad : Bytes) → Except ε Bytes

namespace RawHeader

/-- `(header.dh, header.n)`; a negative number is no key of either table. -/
def id? (header : RawHeader) : Option MessageId :=
  if 0 ≤ header.n then some (header.dh, header.n.toNat) else none

/-- `header.encode()` -/
def encode (header : RawHeader) : Except RatchetError Bytes := do
  require (header.dh.length = 32) .dhLength
  require ((0 ≤ header.pn ∧ header.pn < 2 ^ 32) ∧ 0 ≤ header.n ∧ header.n < 2 ^ 32) .structError
  return [UInt8.ofNat (header.v % 256).toNat, UInt8.ofNat (header.flags % 256).toNat] ++
    (header.dh ++ (beBytes 4 header.pn.toNat ++ beBytes 4 header.n.toNat))

/-- `struct.pack(">Q", message_number & ((1 << 64) - 1))` after four zero bytes. -/
def nonce (header : RawHeader) : Bytes := [0, 0, 0, 0] ++ beBytes 8 (header.n % 2 ^ 64).toNat

end RawHeader

section InPlace

set_option linter.unusedSectionVars false

variable {Key Priv ε : Type} [DecidableEq Key] (I : Imported Key Priv ε)

/-- A call on the state object. -/
abbrev Call (Key Priv ε α : Type) : Type := Mutating (RatchetState Key Priv) (Raised ε) α

open Mutating

/-- A call of an imported primitive. -/
def imported {α : Type} (x : Except ε α) : Except (Raised ε) α := x.mapError .imported

def own {α : Type} (x : Except RatchetError α) : Except (Raised ε) α := x.mapError .own

def kdfChainCall (chainKey : Key) : Except (Raised ε) (Key × Key) := do
  let next ← imported (I.hmac chainKey 0x02)
  let mk ← imported (I.hmac chainKey 0x01)
  return (next, mk)

def kdfRootCall (rootKey dhOutput : Key) : Except (Raised ε) (Key × Key) :=
  imported (I.hkdfRoot rootKey dhOutput)

def x25519DhCall (priv : Priv) (peerPub : Bytes) : Except (Raised ε) Key := do
  require (peerPub.length = 32) (.own (.peerPubLength peerPub.length))
  require (isSmallOrderX25519 peerPub = false) (.own .smallOrderPoint)
  let out ← imported (I.exchange priv peerPub)
  require (out ≠ I.zeroKey) (.own .zeroSharedSecret)
  return out

/-- One round of a skip loop.  Its callers have seen both fields set. -/
def skipRound (pastBound : RatchetError) : Call Key Priv ε Unit := do
  let s ← read
  match s.recvChainKey, s.dhRecvPub with
  | some chain, some pub => do
    check (s.recvN < maxMsgPerChain) (.own pastBound)
    let (next, mk) ← call (kdfChainCall I chain)
    write fun s => { s with recvChainKey := some next }
    write fun s => { s with skipped := s.skipped.set (pub, s.recvN) mk }
    write fun s => { s with recvN := s.recvN + 1 }
    write fun s => { s with skipped := evictSkippedIfFull s.skipped }
  | _, _ => return

/-- `while state.recv_n < stop`: a round adds one to `recv_n`. -/
def skipLoop (pastBound : RatchetError) : Nat → Call Key Priv ε Unit
  | 0 => return
  | rounds + 1 => do
    skipRound I pastBound
    skipLoop pastBound rounds

/-- The skipping in `_dh_ratchet` and in `_skip_recv_keys`. -/
def skipTo (tooMany : Nat → RatchetError) (pastBound : RatchetError) (stop : Int) :
    Call Key Priv ε Unit := do
  let s ← read
  match s.recvChainKey, s.dhRecvPub with
  | some _, some _ => do
    check (stop ≤ s.recvN + maxSkipKeys) (.own (tooMany (stop - s.recvN).toNat))
    skipLoop I pastBound (stop - s.recvN).toNat
  | _, _ => return

def skipRecvKeysInPlace (stop : Int) : Call Key Priv ε Unit :=
  skipTo I .tooManySkipped .recvChainPast stop

/-- `_dh_ratchet` -/
def dhRatchetInPlace (header : RawHeader) : Call Key Priv ε Unit := do
  -- 1. Skip-derive prior-chain keys.
  skipTo I .tooManySkippedPrior .priorChainPast header.pn
  -- 2. Derive new receive chain.
  write fun s => { s with dhRecvPub := some header.dh }
  let s ← read
  let dhOut ← call (x25519DhCall I s.dhSend header.dh)
  let (newRoot, newRecvChain) ← call (kdfRootCall I s.rootKey dhOut)
  write fun s => { s with rootKey := newRoot }
  write fun s => { s with recvChainKey := some newRecvChain }
  write fun s => { s with recvN := 0 }
  -- 3. Rotate our own DH.
  let (newPriv, newPub) ← call (imported I.keypair)
  write fun s => { s with prevSendN := s.sendN }
  write fun s => { s with dhSend := newPriv }
  write fun s => { s with dhSendPub := newPub }
  write fun s => { s with sendN := 0 }
  -- 4. Derive new send chain.
  let s ← read
  let dhOut2 ← call (x25519DhCall I s.dhSend header.dh)
  let (newRoot2, newSendChain) ← call (kdfRootCall I s.rootKey dhOut2)
  write fun s => { s with rootKey := newRoot2 }
  write fun s => { s with sendChainKey := some newSendChain }

/-- `_aead_for(msg_key).decrypt(nonce, ciphertext, header.encode() + ad)`. -/
def openCall (msgKey : Key) (header : RawHeader) (ciphertext ad : Bytes) :
    Except (Raised ε) Bytes := do
  let encoded ← own header.encode
  imported (I.aeadDecrypt msgKey header.nonce ciphertext (encoded ++ ad))

/-- The end of both ways to open a frame: it is recorded as seen. -/
def markSeenInPlace (header : RawHeader) : Call Key Priv ε Unit :=
  write fun s =>
    match header.id? with
    | some id => s.markSeen id
    -- not reached: the header has been encoded, so its number is not negative
    | none => s

/-- `_try_skipped` -/
def trySkippedInPlace (header : RawHeader) (ciphertext ad : Bytes) :
    Call Key Priv ε (Option Bytes) := do
  let s ← read
  match header.id?.bind s.skipped.get? with
  | none => return none
  | some msgKey =>
    if ∃ id ∈ header.id?, id ∈ s.decryptedSeen.keys then return none
    else do
      let pt ← call (openCall I msgKey header ciphertext ad)
      -- Authenticate first, consume second.
      write fun s =>
        match header.id? with
        | some id => { s with skipped := s.skipped.erase id }
        | none => s
      markSeenInPlace header
      return some pt

def ratchetIfNewInPlace (header : RawHeader) : Call Key Priv ε Unit := do
  let s ← read
  if s.dhRecvPub ≠ some header.dh then dhRatchetInPlace I header
  else return

def advanceInPlace (header : RawHeader) : Call Key Priv ε Unit := do
  let s ← read
  if (s.recvN : Int) < header.n then skipRecvKeysInPlace I header.n
  else if header.n < s.recvN then raise (.messageLost header.n s.recvN)
  else return

def openHeadInPlace (header : RawHeader) (ciphertext ad : Bytes) : Call Key Priv ε Bytes := do
  let s ← read
  match s.recvChainKey with
  | none => raise (.own .recvChainNotInitialized)
  | some chain => do
    let (next, msgKey) ← call (kdfChainCall I chain)
    write fun s => { s with recvChainKey := some next }
    call (openCall I msgKey header ciphertext ad)

/-- The body of the `try`. -/
def openAhead (header : RawHeader) (ciphertext ad : Bytes) : Call Key Priv ε Bytes := do
  ratchetIfNewInPlace I header
  advanceInPlace I header
  openHeadInPlace I header ciphertext ad

/-- The `except` clause: every field that was snapshotted is put back; `skipped` is the
copy taken before `_try_skipped`. -/
def putBack (snapSkipped : Skipped Key) (snap s : RatchetState Key Priv) :
    RatchetState Key Priv :=
  { s with
    rootKey := snap.rootKey
    recvChainKey := snap.recvChainKey
    sendChainKey := snap.sendChainKey
    recvN := snap.recvN
    sendN := snap.sendN
    prevSendN := snap.prevSendN
    dhSend := snap.dhSend
    dhSendPub := snap.dhSendPub
    dhRecvPub := snap.dhRecvPub
    skipped := snapSkipped }

/-- `decrypt` -/
def decryptInPlace (header : RawHeader) (ciphertext ad : Bytes) : Call Key Priv ε Bytes := do
  let s ← read
  check (¬ ∃ id ∈ header.id?, id ∈ s.decryptedSeen.keys) (.own .replayed)
  match ← trySkippedInPlace I header ciphertext ad with
  | some pt => return pt
  | none => do
    let pt ← restoring (putBack s.skipped) (openAhead I header ciphertext ad)
    write fun s => { s with recvN := s.recvN + 1 }
    markSeenInPlace header
    return pt

/-! ## A raise changes nothing -/

variable {I}

section Keeps

/-- No helper before the commit writes the replay table. -/
theorem skipRound_keeps (pastBound : RatchetError) :
    Keeps (·.decryptedSeen) (skipRound I pastBound) := by
  refine keeps_bind keeps_read fun s => ?_
  split
  · refine keeps_bind (keeps_check _ _) fun _ => keeps_bind (keeps_call _) fun (next, mk) => ?_
    refine keeps_bind (keeps_write fun _ => rfl) fun _ => ?_
    refine keeps_bind (keeps_write fun _ => rfl) fun _ => ?_
    exact keeps_bind (keeps_write fun _ => rfl) fun _ => keeps_write fun _ => rfl
  · exact keeps_pure ()

theorem skipLoop_keeps (pastBound : RatchetError) (rounds : Nat) :
    Keeps (·.decryptedSeen) (skipLoop I pastBound rounds) := by
  induction rounds with
  | zero => exact keeps_pure ()
  | succ rounds ih => exact keeps_bind (skipRound_keeps pastBound) fun _ => ih

theorem skipTo_keeps (tooMany : Nat → RatchetError) (pastBound : RatchetError) (stop : Int) :
    Keeps (·.decryptedSeen) (skipTo I tooMany pastBound stop) := by
  refine keeps_bind keeps_read fun s => ?_
  split
  · exact keeps_bind (keeps_check _ _) fun _ => skipLoop_keeps pastBound _
  · exact keeps_pure ()

theorem dhRatchetInPlace_keeps (header : RawHeader) :
    Keeps (·.decryptedSeen) (dhRatchetInPlace I header) := by
  refine keeps_bind (skipTo_keeps _ _ _) fun _ => keeps_bind (keeps_write fun _ => rfl) fun _ => ?_
  refine keeps_bind keeps_read fun s => keeps_bind (keeps_call _) fun dhOut => ?_
  refine keeps_bind (keeps_call _) fun (newRoot, newRecvChain) => ?_
  refine keeps_bind (keeps_write fun _ => rfl) fun _ => ?_
  refine keeps_bind (keeps_write fun _ => rfl) fun _ => ?_
  refine keeps_bind (keeps_write fun _ => rfl) fun _ => ?_
  refine keeps_bind (keeps_call _) fun (newPriv, newPub) => ?_
  refine keeps_bind (keeps_write fun _ => rfl) fun _ => ?_
  refine keeps_bind (keeps_write fun _ => rfl) fun _ => ?_
  refine keeps_bind (keeps_write fun _ => rfl) fun _ => ?_
  refine keeps_bind (keeps_write fun _ => rfl) fun _ => keeps_bind keeps_read fun s => ?_
  refine keeps_bind (keeps_call _) fun dhOut2 => ?_
  refine keeps_bind (keeps_call _) fun (newRoot2, newSendChain) => ?_
  exact keeps_bind (keeps_write fun _ => rfl) fun _ => keeps_write fun _ => rfl

theorem openAhead_keeps (header : RawHeader) (ciphertext ad : Bytes) :
    Keeps (·.decryptedSeen) (openAhead I header ciphertext ad) := by
  have ratchet : Keeps (·.decryptedSeen) (ratchetIfNewInPlace I header) := by
    refine keeps_bind keeps_read fun s => ?_
    split
    · exact dhRatchetInPlace_keeps header
    · exact keeps_pure ()
  have advance : Keeps (·.decryptedSeen) (advanceInPlace I header) := by
    refine keeps_bind keeps_read fun s => ?_
    split
    · exact skipTo_keeps _ _ _
    · split
      · exact keeps_raise _
      · exact keeps_pure ()
  have head : Keeps (·.decryptedSeen) (openHeadInPlace I header ciphertext ad) := by
    refine keeps_bind keeps_read fun s => ?_
    split
    · exact keeps_raise _
    · refine keeps_bind (keeps_call _) fun (next, msgKey) => ?_
      exact keeps_bind (keeps_write fun _ => rfl) fun _ => keeps_call _
  exact keeps_bind ratchet fun _ => keeps_bind advance fun _ => head

end Keeps

/-- A stashed key opens the frame, or nothing has been written. -/
theorem trySkippedInPlace_cases (s : RatchetState Key Priv) (header : RawHeader)
    (ciphertext ad : Bytes) :
    (∃ e, trySkippedInPlace I header ciphertext ad s = (.error e, s)) ∨
      trySkippedInPlace I header ciphertext ad s = (.ok none, s) ∨
      ∃ pt s', trySkippedInPlace I header ciphertext ad s = (.ok (some pt), s') := by
  unfold trySkippedInPlace
  rw [bind_apply, read_apply]
  cases stashed : header.id?.bind s.skipped.get? with
  | none =>
    simp only [stashed]
    exact .inr (.inl rfl)
  | some msgKey =>
    by_cases replayed : ∃ id ∈ header.id?, id ∈ s.decryptedSeen.keys
    · simp only [stashed, if_pos replayed]
      exact .inr (.inl rfl)
    · simp only [stashed, if_neg replayed, bind_apply, call_apply]
      cases openCall I msgKey header ciphertext ad with
      | error e => exact .inl ⟨e, rfl⟩
      | ok pt => exact .inr (.inr ⟨pt, _, rfl⟩)

/-- What the handler puts back is the state at entry, if the replay table is as it was. -/
theorem putBack_eq {snap s : RatchetState Key Priv} (kept : s.decryptedSeen = snap.decryptedSeen) :
    putBack snap.skipped snap s = snap := by
  unfold putBack
  rw [kept]

/-- **`decrypt` is atomic.**  Whatever raises, in whichever helper and after whichever
writes, every field is what it was, the two tables with their order. -/
theorem decryptInPlace_reverts (header : RawHeader) (ciphertext ad : Bytes) :
    Reverts (decryptInPlace I header ciphertext ad) := by
  intro s
  refine RevertsFrom.of_read (RevertsFrom.of_check fun unseen => ?_)
  rcases trySkippedInPlace_cases (I := I) s header ciphertext ad with
    ⟨e, raises⟩ | unstashed | ⟨pt, s', opens⟩
  · refine RevertsFrom.bind (fun _ _ => by rw [raises]) fun result s' returns => ?_
    rw [raises] at returns
    cases returns
  · refine RevertsFrom.bind (fun _ _ => by rw [unstashed]) fun result s' returns => ?_
    rw [unstashed] at returns
    cases returns
    -- no stashed key: `_try_skipped` wrote nothing, and the snapshot is of this state
    have caught : RevertsFrom s
        (restoring (putBack s.skipped) (openAhead I header ciphertext ad)) :=
      revertsFrom_restoring (openAhead_keeps header ciphertext ad) fun s' kept => putBack_eq kept
    -- what follows the `try` statement does not raise
    refine RevertsFrom.bind caught fun pt s' opened e raised => ?_
    cases raised
  · refine RevertsFrom.bind (fun e raised => ?_) fun result s'' returns e raised => ?_
    · rw [opens] at raised
      cases raised
    · rw [opens] at returns
      cases returns
      cases raised

end InPlace

/-! ## The writes add up to the function

Primitives that do not raise, and the ideal AEAD. -/

section Refines

set_option linter.unusedSectionVars false

variable {Key Priv : Type} [DecidableEq Key] (P : Primitives Key Priv) (boxes : List (Box Key))
  (fresh : Priv)

def Primitives.imported : Imported Key Priv RatchetError where
  keypair := .ok (fresh, P.publicBytes fresh)
  exchange priv peerPub := .ok (P.exchange priv peerPub)
  zeroKey := P.zeroKey
  hkdfRoot salt material := .ok (P.hkdfRoot salt material)
  hmac key tag := .ok (P.hmac key tag)
  aeadDecrypt := DoubleRatchet.aeadDecrypt boxes

def Header.raw (header : Header) : RawHeader where
  v := header.v
  flags := header.flags
  dh := header.dh
  pn := header.pn
  n := header.n

/-- What is raised, as the function says it. -/
def Raised.told : Raised RatchetError → RatchetError
  | .own err => err
  | .messageLost n recvN => .messageLost n.toNat recvN
  | .imported err => err

open Mutating

variable {P boxes fresh} {s : RatchetState Key Priv}

/-- The state after a round that passes the bound. -/
def RatchetState.passed (P : Primitives Key Priv) (s : RatchetState Key Priv) (chain : Key)
    (pub : Bytes) : RatchetState Key Priv :=
  { s with
    recvChainKey := some (nextChain P chain)
    skipped := evictSkippedIfFull (s.skipped.set (pub, s.recvN) (messageKey P chain))
    recvN := s.recvN + 1 }

end Refines

end OneLink.DoubleRatchet
