/-
# Fountain.Decoder -- belief propagation over pending packets

The decoder keeps the source symbols it has resolved, the packets that still miss
some, an index from each missing symbol to the packets that mention it, and a queue
of packets with one symbol missing.  A call that fails leaves the decoder as far as
it came, so each operation returns its result and the decoder.
-/
import OneLink.Fountain.Encoder
import OneLink.Library.OrderedDict
import OneLink.Library.SortedMap

namespace OneLink.Fountain

set_option autoImplicit false

open Library

/-- `MAX_ENCODED_PER_CHUNK`. -/
def maxEncodedPerChunk : Nat := 2048

/-- `MAX_DECODER_BUFFER_BYTES`. -/
def maxDecoderBufferBytes : Nat := 8 * 1024 * 1024

/-- `usize::MAX`. -/
def usizeMax : Nat := 2 ^ 64 - 1

structure PendingPacket where
  payload : List UInt8
  neighbors : List Nat
deriving DecidableEq, Repr

structure LtDecoder where
  k : Nat
  symbolLen : Nat
  sourceLen : Nat
  sources : List (Option (List UInt8))
  pending : OrderedDict Nat PendingPacket
  inverse : OrderedDict Nat (SortedMap Nat Unit)
  degree1Queue : List Nat
  resolved : Nat
deriving DecidableEq

/-- `LtDecoder::new`. -/
def LtDecoder.new (k symbolLen sourceLen : Nat) : Except FountainError LtDecoder := do
  require (k ≠ 0 ∧ k ≤ maxSourceSymbolsPerChunk)
    (.invalidSourceSymbolCount k maxSourceSymbolsPerChunk)
  require (symbolLen ≠ 0 ∧ symbolLen ≤ maxSymbolLen)
    (.invalidSymbolLen "must be in 1..=MAX_SYMBOL_LEN")
  require (sourceLen ≤ maxSourceBytes) (.sourceTooLarge sourceLen maxSourceBytes)
  require (k * symbolLen ≤ usizeMax) (.invalidSymbolLen "k * symbol_len overflow")
  require (sourceLen ≤ k * symbolLen) (.invalidSymbolLen "source_len > k * symbol_len")
  return ⟨k, symbolLen, sourceLen, List.replicate k none, .empty, .empty, [], 0⟩

namespace LtDecoder

/-- `LtDecoder::is_complete`. -/
def isComplete (decoder : LtDecoder) : Bool := decoder.resolved == decoder.k

/-- The resolved source symbol at an index. -/
def source? (decoder : LtDecoder) (n : Nat) : Option (List UInt8) := decoder.sources.getD n none

/-! ## Propagation -/

/-- The dependents of a resolved symbol that `propagate` has still to visit. -/
def cascade (sid target : Nat) (payload : List UInt8) :
    List Nat → LtDecoder → Except FountainError Unit × LtDecoder
  | [], decoder => (.ok (), decoder)
  | depSid :: rest, decoder =>
    if depSid = sid then cascade sid target payload rest decoder
    else
      match decoder.pending.get? depSid with
      | none => cascade sid target payload rest decoder
      | some dep =>
        if target ∈ dep.neighbors then
          let neighbors := dep.neighbors.erase target
          match xorInto dep.payload payload with
          | none =>
            (.error (.symbolLenMismatch dep.payload.length payload.length),
              { decoder with pending := decoder.pending.set depSid ⟨dep.payload, neighbors⟩ })
          | some mixed =>
            cascade sid target payload rest
              { decoder with
                pending := decoder.pending.set depSid ⟨mixed, neighbors⟩
                degree1Queue := if neighbors.length = 1 then decoder.degree1Queue ++ [depSid]
                  else decoder.degree1Queue }
        else cascade sid target payload rest decoder

theorem size_cascade (sid target : Nat) (payload : List UInt8) (dependents : List Nat)
    (decoder : LtDecoder) :
    (cascade sid target payload dependents decoder).2.pending.size = decoder.pending.size := by
  induction dependents generalizing decoder with
  | nil => rfl
  | cons depSid rest ih =>
    rw [cascade]
    split
    · exact ih decoder
    · split
      · exact ih decoder
      · rename_i dep found
        have size := fun packet : PendingPacket => decoder.pending.size_set_of_mem
          (decoder.pending.mem_keys_iff.2 ⟨dep, found⟩) packet
        split
        · split
          · exact size _
          · exact (ih _).trans (size _)
        · exact ih decoder

set_option linter.unusedVariables false in
/-- `LtDecoder::propagate`.  A packet taken out and put back again stays as it was. -/
def propagate (decoder : LtDecoder) : Except FountainError Unit × LtDecoder :=
  match queued : decoder.degree1Queue with
  | [] => (.ok (), decoder)
  | sid :: queue =>
    match found : decoder.pending.get? sid with
    | none => propagate { decoder with degree1Queue := queue }
    | some packet =>
      match packet.neighbors with
      | [target] =>
        let dependents := ((decoder.inverse.get? target).getD SortedMap.empty).keys
        let taken : LtDecoder :=
          { decoder with
            degree1Queue := queue
            pending := decoder.pending.erase sid
            inverse := decoder.inverse.erase target }
        match cascaded : cascade sid target packet.payload dependents taken with
        | (.error err, after) => (.error err, after)
        | (.ok (), after) =>
          let stored : LtDecoder :=
            { after with
              sources := after.sources.set target (some packet.payload)
              resolved := after.resolved + 1 }
          if stored.isComplete then (.ok (), { stored with degree1Queue := [] })
          else propagate stored
      | _ => propagate { decoder with degree1Queue := queue }
termination_by (decoder.pending.size, decoder.degree1Queue.length)
decreasing_by
  · rw [queued]
    exact .right _ (Nat.lt_succ_self _)
  · have size := size_cascade sid target packet.payload dependents taken
    rw [cascaded] at size
    have smaller : taken.pending.size < decoder.pending.size := by
      have erased := decoder.pending.size_erase_of_mem
        (decoder.pending.mem_keys_iff.2 ⟨packet, found⟩)
      show (decoder.pending.erase sid).size < decoder.pending.size
      omega
    exact .left _ _ (size ▸ smaller)
  · rw [queued]
    exact .right _ (Nat.lt_succ_self _)

/-! ## The calls -/

/-- The loop of `ingest` over the neighbours of a packet: what is resolved is added to the payload, what
is not is kept. -/
def preXor (decoder : LtDecoder) : List Nat → List UInt8 → List Nat →
    Except FountainError (List UInt8 × List Nat)
  | [], payload, unresolved => .ok (payload, unresolved)
  | n :: rest, payload, unresolved =>
    match decoder.source? n with
    | none => preXor decoder rest payload (unresolved ++ [n])
    | some source =>
      match xorInto payload source with
      | none => .error (.symbolLenMismatch decoder.symbolLen source.length)
      | some mixed => preXor decoder rest mixed unresolved

/-- `self.inverse.entry(n).or_default().insert(symbol_id)` for each neighbour. -/
def indexUnder (symbolId : Nat) (inverse : OrderedDict Nat (SortedMap Nat Unit)) (ns : List Nat) :
    OrderedDict Nat (SortedMap Nat Unit) :=
  ns.foldl (fun inverse n =>
    inverse.set n (((inverse.get? n).getD SortedMap.empty).alter symbolId fun _ => ())) inverse

/-- `LtDecoder::ingest`. -/
def ingest (sampler : Nat → List Nat) (decoder : LtDecoder) (symbolId : Nat) (payload : List UInt8) :
    Except FountainError Bool × LtDecoder :=
  if decoder.isComplete then (.ok true, decoder)
  else if payload.length ≠ decoder.symbolLen then
    (.error (.symbolLenMismatch decoder.symbolLen payload.length), decoder)
  else if maxEncodedPerChunk ≤ symbolId then
    (.error (.symbolIdOverflow symbolId maxEncodedPerChunk), decoder)
  else if (decoder.pending.get? symbolId).isSome then (.ok decoder.isComplete, decoder)
  else
    let retainedAfter := (decoder.pending.size + 1) * decoder.symbolLen
    if usizeMax < retainedAfter then
      (.error (.decoderMemoryLimit usizeMax maxDecoderBufferBytes), decoder)
    else if maxDecoderBufferBytes < retainedAfter then
      (.error (.decoderMemoryLimit retainedAfter maxDecoderBufferBytes), decoder)
    else
      match preXor decoder (sampler symbolId) payload [] with
      | .error err => (.error err, decoder)
      | .ok (workingPayload, unresolved) =>
        if unresolved = [] then (.ok decoder.isComplete, decoder)
        else
          let inserted : LtDecoder :=
            { decoder with
              inverse := indexUnder symbolId decoder.inverse unresolved
              pending := decoder.pending.set symbolId ⟨workingPayload, unresolved⟩
              degree1Queue := if unresolved.length = 1 then decoder.degree1Queue ++ [symbolId]
                else decoder.degree1Queue }
          match propagate inserted with
          | (.error err, after) => (.error err, after)
          | (.ok (), after) => (.ok after.isComplete, after)

/-- `source.ok_or(..)`. -/
def resolvedOr (err : FountainError) : Option (List UInt8) → Except FountainError (List UInt8)
  | some symbol => .ok symbol
  | none => .error err

/-- `LtDecoder::finish`. -/
def finish (decoder : LtDecoder) : Except FountainError (List UInt8) := do
  require decoder.isComplete (.incompleteDecode decoder.resolved decoder.k)
  let symbols ← decoder.sources.mapM (resolvedOr (.incompleteDecode decoder.resolved decoder.k))
  return symbols.flatten.take decoder.sourceLen

end LtDecoder

end OneLink.Fountain
