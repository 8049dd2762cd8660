/-
# PairQr.Keys -- what both sides derive from the frames

The transcript hashes the two frames with their lengths in front, so that what
it hashes determines them (`transcriptInput_inj`).  The keys and the
confirmation tags hash fixed-width parts behind texts of their own.
-/
import OneLink.PairQr.Frames

namespace OneLink.PairQr

set_option autoImplicit false

open Library

/-- `PROTOCOL_DOMAIN`. -/
def protocolDomain : Bytes := utf8 "OL-pair-qr-v1"

/-! ## Transcript and keys -/

/-- What `transcript_hash` feeds the hash. -/
def transcriptInput (invite : Invite) (response : PairResponse) : Bytes :=
  protocolDomain ++ utf8 "-transcript" ++
    (beBytes 4 invite.encode.length ++ invite.encode ++
      (beBytes 4 response.encode.length ++ response.encode))

/-- `transcript_hash`. -/
def transcriptHash (C : Crypto) (invite : Invite) (response : PairResponse) : TranscriptHash :=
  C.hash (transcriptInput invite response)

abbrev ChainKey := Octets 32

/-- What `derive_chain_key` feeds the hash. -/
def chainKeyInput (transcript : TranscriptHash) (x25519Ss : Octets 32) : Bytes :=
  protocolDomain ++ utf8 "-chain-key-v1" ++ transcript.val ++ x25519Ss.val

/-- `derive_chain_key`. -/
def deriveChainKey (C : Crypto) (transcript : TranscriptHash) (x25519Ss : Octets 32) : ChainKey :=
  C.hash (chainKeyInput transcript x25519Ss)

/-- What `mix_factor2_recip` feeds the hash. -/
def mixInput (chainKey : ChainKey) (factor2Key : Octets 32) : Bytes :=
  protocolDomain ++ utf8 "-chain-key-f2-mix-v1" ++ (chainKey.val ++ factor2Key.val)

/-- `mix_factor2_recip`. -/
def mixFactor2Recip (C : Crypto) (chainKey : ChainKey) (factor2Key : Octets 32) : ChainKey :=
  C.hash (mixInput chainKey factor2Key)

/-- `Factor2ConfirmationRole`. -/
inductive Factor2ConfirmationRole where
  | inviter
  | scanner
deriving DecidableEq

/-- `Factor2ConfirmationRole::domain`. -/
def Factor2ConfirmationRole.domain : Factor2ConfirmationRole → Bytes
  | .inviter => utf8 "inviter"
  | .scanner => utf8 "scanner"

/-- What `factor2_confirmation_tag` feeds the keyed hash. -/
def tagInput (transcript : TranscriptHash) (role : Factor2ConfirmationRole) : Bytes :=
  protocolDomain ++ utf8 "-factor2-key-confirm-v1" ++ (role.domain ++ transcript.val)

/-- `factor2_confirmation_tag`. -/
def factor2ConfirmationTag (C : Crypto) (chainKey : ChainKey) (transcript : TranscriptHash)
    (role : Factor2ConfirmationRole) : Octets 32 :=
  C.keyedHash chainKey (tagInput transcript role)

/-! ## The short authentication string -/

/-- `SAS_WORDS`. -/
def sasWords : List String :=
  ["agile", "amuse", "apple", "basil", "blaze", "brick", "cargo", "cedar", "chess", "climb",
    "copper", "crane", "daisy", "decoy", "drift", "eagle", "ember", "exile", "fable", "flame",
    "frost", "globe", "gravy", "gusto", "happy", "hover", "igloo", "indigo", "ivory", "jolly",
    "juice", "kindly", "koala", "lemon", "lunar", "mango", "melon", "motor", "north", "nudge",
    "ocean", "olive", "panda", "plume", "quiet", "rebel", "ridge", "saber", "sleek", "sushi",
    "tiger", "trove", "ultra", "umbra", "vapor", "vivid", "wagon", "winter", "xenon", "xylo",
    "yacht", "yodel", "zebra", "zinc"]

structure Sas where
  words : List String
  rawBits : Nat
deriving DecidableEq

/-- `Sas::derive`. -/
def Sas.derive (C : Crypto) (transcript : TranscriptHash) : Sas :=
  let digest := C.hash (protocolDomain ++ utf8 "-sas-v1" ++ transcript.val)
  let rawBits := beValue (digest.val.take 4) % 2 ^ 30
  { words := (List.range 5).map fun i => sasWords.getD (rawBits / 2 ^ (30 - 6 * (i + 1)) % 64) ""
    rawBits := rawBits }

/-! ## What is hashed determines its parts -/

theorem transcriptInput_inj {invite invite' : Invite} {response response' : PairResponse}
    (fits : invite.encode.length ≤ inviteMaxBytes)
    (same : transcriptInput invite response = transcriptInput invite' response') :
    invite = invite' ∧ response = response' := by
  have clamped : invite.encode.length < 256 ^ 4 :=
    Nat.lt_of_le_of_lt fits (by decide)
  have clamped' : invite'.encode.length < 256 ^ 4 := by
    rw [Invite.length_encode]
    simp only [maxFieldBytes]
    omega
  simp only [transcriptInput, List.append_assoc, List.append_cancel_left_eq] at same
  obtain ⟨sizes, bodies⟩ := List.append_inj same (by rw [length_beBytes, length_beBytes])
  have length : invite.encode.length = invite'.encode.length := by
    rw [← beValue_beBytes clamped, sizes, beValue_beBytes clamped']
  obtain ⟨first, rest⟩ := List.append_inj bodies length
  obtain ⟨-, second⟩ := List.append_inj rest (by rw [length_beBytes, length_beBytes])
  exact ⟨Invite.encode_inj fits first, PairResponse.encode_inj second⟩

theorem mixInput_inj {chainKey chainKey' : ChainKey} {factor2Key factor2Key' : Octets 32}
    (same : mixInput chainKey factor2Key = mixInput chainKey' factor2Key') :
    chainKey = chainKey' ∧ factor2Key = factor2Key' := by
  simp only [mixInput, List.append_assoc, List.append_cancel_left_eq] at same
  obtain ⟨first, second⟩ :=
    List.append_inj same (by rw [chainKey.property, chainKey'.property])
  exact ⟨Subtype.ext first, Subtype.ext second⟩

theorem tagInput_inj {transcript transcript' : TranscriptHash} {role role' : Factor2ConfirmationRole}
    (same : tagInput transcript role = tagInput transcript' role') :
    transcript = transcript' ∧ role = role' := by
  simp only [tagInput, List.append_assoc, List.append_cancel_left_eq] at same
  have width (r : Factor2ConfirmationRole) : r.domain.length = 7 := by cases r <;> decide
  obtain ⟨first, second⟩ := List.append_inj same (by rw [width, width])
  refine ⟨Subtype.ext second, ?_⟩
  cases role <;> cases role' <;> first | rfl | exact absurd first (by decide)

/-! ## The three kinds of signed messages are apart -/

theorem confirmPayload_inj {transcript transcript' : TranscriptHash}
    (same : confirmPayload transcript = confirmPayload transcript') : transcript = transcript' :=
  Subtype.ext (List.append_cancel_left same)

theorem confirmPayload_ne_bodyBytes (transcript : TranscriptHash) (invite : Invite) :
    confirmPayload transcript ≠ invite.bodyBytes := by
  intro same
  have front := congrArg (List.take 1) same
  rw [confirmPayload, List.take_append_of_le_length (by decide)] at front
  have first : List.take 1 confirmSigDomain = [inviteVersion] := front
  exact absurd first (by decide)

theorem confirmPayload_ne_responsePayload (transcript : TranscriptHash) (transcriptBind : Bytes)
    (nonce ephemPk : Octets 32) :
    confirmPayload transcript ≠ responsePayload transcriptBind nonce ephemPk := by
  intro same
  have front := congrArg (List.take 15) same
  simp only [confirmPayload, responsePayload, List.append_assoc] at front
  rw [List.take_append_of_le_length (by decide), List.take_append_of_le_length (by decide)] at front
  exact absurd front (by decide)

theorem responsePayload_ne_bodyBytes (transcriptBind : Bytes) (nonce ephemPk : Octets 32)
    (invite : Invite) : responsePayload transcriptBind nonce ephemPk ≠ invite.bodyBytes := by
  intro same
  have front := congrArg (List.take 1) same
  simp only [responsePayload, List.append_assoc] at front
  rw [List.take_append_of_le_length (by decide)] at front
  have first : List.take 1 responseSigDomain = [inviteVersion] := front
  exact absurd first (by decide)

theorem responsePayload_inj {bind bind' : Bytes} {nonce nonce' ephemPk ephemPk' : Octets 32}
    (same : responsePayload bind nonce ephemPk = responsePayload bind' nonce' ephemPk') :
    bind = bind' ∧ nonce = nonce' ∧ ephemPk = ephemPk' := by
  simp only [responsePayload, List.append_assoc, List.append_cancel_left_eq] at same
  obtain ⟨-, parts⟩ := List.append_inj same (by rw [length_beBytes, length_beBytes])
  have lengths := congrArg List.length parts
  simp only [List.length_append, nonce.property, nonce'.property, ephemPk.property,
    ephemPk'.property] at lengths
  obtain ⟨first, rest⟩ := List.append_inj parts (by omega)
  obtain ⟨second, third⟩ := List.append_inj rest (by rw [nonce.property, nonce'.property])
  exact ⟨first, Subtype.ext second, Subtype.ext third⟩

end OneLink.PairQr
