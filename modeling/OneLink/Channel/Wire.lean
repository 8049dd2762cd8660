/-
# Channel.Wire — what lies between a sender and its receiver

`Wire` describes the frames in flight in one direction by three cases: the sender's
CAPS is not written yet, is on the wire, or was taken by the receiver.  Legacy frames
stand before CAPS only and ratchet frames behind it only; the sequence numbers of the
legacy frames in flight run from the receiver's counter to the sender's.

`validate_payload` is the other half of the cutover: boundaries that agree pass.
-/
import OneLink.Channel.Cutover

namespace OneLink.Channel

open Library
open OneLink.DoubleRatchet (Party)

set_option autoImplicit false

/-! ## Frames in flight -/

/-- Legacy frames with consecutive sequence numbers. -/
def legacyRun : Nat → List Bytes → List Frame
  | _, [] => []
  | seq, plaintext :: rest => .legacy seq plaintext :: legacyRun (seq + 1) rest

theorem legacyRun_append (seq : Nat) (early late : List Bytes) :
    legacyRun seq (early ++ late) = legacyRun seq early ++ legacyRun (seq + early.length) late := by
  induction early generalizing seq with
  | nil => rfl
  | cons plaintext rest ih =>
    simp only [List.cons_append, legacyRun, ih, List.length_cons]
    rw [Nat.add_right_comm, Nat.add_assoc]

/-- The wire of a sender at `txSeq` and a receiver at `rxSeq`, by whether the sender's
CAPS is written and whether it was taken. -/
inductive Wire (isCaps : Bytes → Bool) :
    (txSeq rxSeq : Nat) → (written taken : Bool) → List Frame → Prop where
  | before {tx rx : Nat} {early : List Bytes} (counts : tx = rx + early.length)
      (noCaps : ∀ b ∈ early, isCaps b = false) :
      Wire isCaps tx rx false false (legacyRun rx early)
  | crossing {tx rx : Nat} {early : List Bytes} {caps : Bytes} {ratchets : List Bytes}
      (counts : tx = rx + early.length + 1) (noCaps : ∀ b ∈ early, isCaps b = false)
      (last : isCaps caps = true) :
      Wire isCaps tx rx true false (legacyRun rx (early ++ [caps]) ++ ratchets.map .ratchet)
  | taken {tx rx : Nat} {ratchets : List Bytes} (counts : tx = rx) :
      Wire isCaps tx rx true true (ratchets.map .ratchet)

namespace Wire

variable {isCaps : Bytes → Bool} {tx rx : Nat} {written taken : Bool} {w : List Frame}

theorem writeLegacy (h : Wire isCaps tx rx false taken w) (plaintext : Bytes) :
    Wire isCaps (tx + 1) rx (isCaps plaintext) taken (w ++ [.legacy tx plaintext]) := by
  cases h with
  | @before early counts noCaps =>
    have extended : legacyRun rx early ++ [.legacy tx plaintext] =
        legacyRun rx (early ++ [plaintext]) := by
      rw [legacyRun_append, ← counts]
      rfl
    cases isLast : isCaps plaintext with
    | true =>
      have crossing : Wire isCaps (tx + 1) rx true false
          (legacyRun rx (early ++ [plaintext]) ++ [].map .ratchet) :=
        .crossing (congrArg (· + 1) counts) noCaps isLast
      rwa [List.map_nil, List.append_nil, ← extended] at crossing
    | false =>
      rw [extended]
      refine .before (by simp [counts, Nat.add_assoc]) fun b mem => ?_
      obtain old | rfl := (List.mem_append.mp mem).imp_right List.mem_singleton.mp
      · exact noCaps b old
      · exact isLast

theorem writeRatchet (h : Wire isCaps tx rx true taken w) (plaintext : Bytes) :
    Wire isCaps tx rx true taken (w ++ [.ratchet plaintext]) := by
  cases h with
  | @crossing early caps ratchets counts noCaps last =>
    have longer : Wire isCaps tx rx true false
        (legacyRun rx (early ++ [caps]) ++ (ratchets ++ [plaintext]).map .ratchet) :=
      .crossing counts noCaps last
    rwa [List.map_append, ← List.append_assoc] at longer
  | @taken ratchets counts =>
    have longer : Wire isCaps tx rx true true ((ratchets ++ [plaintext]).map .ratchet) :=
      .taken counts
    rwa [List.map_append] at longer

/-- Until CAPS is taken the next frame is the next legacy frame. -/
theorem readLegacy (h : Wire isCaps tx rx written false w) {frame : Frame} {rest : List Frame}
    (front : w = frame :: rest) :
    ∃ plaintext, frame = .legacy rx plaintext ∧
      Wire isCaps tx (rx + 1) written (isCaps plaintext) rest := by
  cases h with
  | @before early counts noCaps =>
    cases early with
    | nil => exact absurd front (by simp [legacyRun])
    | cons plaintext early =>
      obtain ⟨rfl, rfl⟩ := List.cons.inj front
      refine ⟨plaintext, rfl, ?_⟩
      rw [noCaps plaintext (by simp)]
      exact .before (by simp only [List.length_cons] at counts; omega)
        fun b mem => noCaps b (List.mem_cons_of_mem _ mem)
  | @crossing early caps ratchets counts noCaps last =>
    cases early with
    | nil =>
      obtain ⟨rfl, rfl⟩ := List.cons.inj front
      refine ⟨caps, rfl, ?_⟩
      rw [last]
      exact .taken counts
    | cons plaintext early =>
      obtain ⟨rfl, rfl⟩ := List.cons.inj front
      refine ⟨plaintext, rfl, ?_⟩
      rw [noCaps plaintext (by simp)]
      exact .crossing (by simp only [List.length_cons] at counts; omega)
        (fun b mem => noCaps b (List.mem_cons_of_mem _ mem)) last

/-- Once CAPS is taken only ratchet frames are left. -/
theorem readRatchet (h : Wire isCaps tx rx written true w) {frame : Frame} {rest : List Frame}
    (front : w = frame :: rest) :
    (∃ plaintext, frame = .ratchet plaintext) ∧ Wire isCaps tx rx written true rest := by
  cases h with
  | @taken ratchets counts =>
    cases ratchets with
    | nil => exact absurd front (by simp)
    | cons plaintext ratchets =>
      obtain ⟨rfl, rfl⟩ := List.cons.inj front
      exact ⟨⟨plaintext, rfl⟩, .taken counts⟩

theorem counts_of_taken (h : Wire isCaps tx rx written true w) : tx = rx := by
  cases h with
  | taken counts => exact counts

end Wire

/-! ## Agreeing boundaries -/

theorem unpackInteger_beBytes {width n : Nat} (small : n < 256 ^ width) :
    unpackInteger (beBytes width n) = n := by
  induction width generalizing n with
  | zero =>
    simp only [pow_zero, Nat.lt_one_iff] at small
    subst small
    rfl
  | succ width ih =>
    have high : n / 256 < 256 ^ width := Nat.div_lt_of_lt_mul (by rwa [pow_succ'] at small)
    have low : (UInt8.ofNat (n % 256)).toNat = n % 256 := by
      rw [UInt8.toNat_ofNat']
      omega
    rw [unpackInteger, beBytes, List.foldl_append]
    change unpackInteger (beBytes width (n / 256)) * 256 + _ = n
    rw [ih high, low]
    omega

theorem packBoundaries_eq_some {tx rx : Nat} {bytes : Bytes} :
    packBoundaries tx rx = some bytes ↔
      (tx < 256 ^ 8 ∧ rx < 256 ^ 8) ∧ beBytes 8 tx ++ beBytes 8 rx = bytes := by
  unfold packBoundaries
  split
  · next fits => simp only [fits, and_self, true_and, Option.some.injEq]
  · next big => simp only [big, false_and, reduceCtorEq]

namespace Endpoint

variable {cfg : Config} {s r : Endpoint} {payload : Bytes}

theorem cutoverCommitPayload_eq_some :
    s.cutoverCommitPayload cfg = some payload ↔
      ∃ tx rx, s.legacyTxFinalSeq = some tx ∧ s.legacyRxFinalSeq = some rx ∧
        (tx < 256 ^ 8 ∧ rx < 256 ^ 8) ∧
        commitPrefix ++ cfg.transcriptHash ++ (beBytes 8 tx ++ beBytes 8 rx) = payload := by
  simp only [cutoverCommitPayload, Option.bind_eq_bind, Option.bind_eq_some_iff,
    packBoundaries_eq_some, Option.pure_def, Option.some.injEq]
  constructor
  · rintro ⟨tx, txFinal, rx, rxFinal, _, ⟨fits, rfl⟩, rfl⟩
    exact ⟨tx, rx, txFinal, rxFinal, fits, rfl⟩
  · rintro ⟨tx, rx, txFinal, rxFinal, fits, rfl⟩
    exact ⟨tx, txFinal, rx, rxFinal, _, ⟨fits, rfl⟩, rfl⟩

theorem isPrefixOf_payload (made : s.cutoverCommitPayload cfg = some payload) :
    commitPrefix.isPrefixOf payload = true := by
  obtain ⟨tx, rx, -, -, -, rfl⟩ := cutoverCommitPayload_eq_some.mp made
  rw [List.isPrefixOf_iff_prefix, List.append_assoc]
  exact List.prefix_append ..

/-- A commit passes where each boundary is the other endpoint's. -/
theorem validate_payload (made : s.cutoverCommitPayload cfg = some payload)
    (sentAgrees : r.legacyRxFinalSeq = s.legacyTxFinalSeq)
    (receivedAgrees : r.legacyTxFinalSeq = s.legacyRxFinalSeq) :
    r.validateCutoverCommit cfg payload = .ok () := by
  obtain ⟨tx, rx, txFinal, rxFinal, ⟨txSmall, rxSmall⟩, rfl⟩ :=
    cutoverCommitPayload_eq_some.mp made
  have size : (commitPrefix ++ cfg.transcriptHash ++ (beBytes 8 tx ++ beBytes 8 rx)).length =
      commitPrefix.length + 32 + 16 := by
    simp only [List.length_append, cfg.transcript_length, length_beBytes]
  have body : (commitPrefix ++ cfg.transcriptHash ++ (beBytes 8 tx ++ beBytes 8 rx)).drop
      commitPrefix.length = cfg.transcriptHash ++ (beBytes 8 tx ++ beBytes 8 rx) := by
    rw [List.append_assoc, List.drop_left]
  have transcript : (cfg.transcriptHash ++ (beBytes 8 tx ++ beBytes 8 rx)).take 32 =
      cfg.transcriptHash := List.take_left' cfg.transcript_length
  have boundaries : (cfg.transcriptHash ++ (beBytes 8 tx ++ beBytes 8 rx)).drop 32 =
      beBytes 8 tx ++ beBytes 8 rx := List.drop_left' cfg.transcript_length
  simp only [validateCutoverCommit, size, body, transcript, boundaries, ne_eq, not_true_eq_false,
    if_false, List.take_left' (length_beBytes 8 tx), List.drop_left' (length_beBytes 8 tx),
    unpackInteger_beBytes txSmall, unpackInteger_beBytes rxSmall, sentAgrees, receivedAgrees,
    txFinal, rxFinal, or_self]

end Endpoint

end OneLink.Channel
