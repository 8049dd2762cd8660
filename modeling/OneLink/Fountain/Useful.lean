/-
# Fountain.Useful -- what the decoder keeps waiting

A packet that arrives with nothing missing is dropped, but a cascade can take the last
missing symbol from a packet that waits: it stays, with no neighbours, and is counted
against the buffer (`packet_left_over`).  That packet was not needed, since peeling the
others recovers all it mentions; as long as no call makes a stored packet redundant in this
sense, every packet kept is useful (`keeps_useful`).
-/
import OneLink.Fountain.Closure

namespace OneLink.Fountain

set_option autoImplicit false

open Library

namespace LtDecoder

/-- Every packet kept still misses symbols and is their sum, and the index leads from a symbol
to the packets that miss it. -/
structure Useful {k : Nat} (sampler : Sampler k) (len : Nat) (symbol : Nat → List UInt8)
    (decoder : LtDecoder) : Prop where
  packets : ∀ id packet, decoder.pending.get? id = some packet →
    packet.neighbors ≠ [] ∧ packet.neighbors = decoder.missing sampler.neighbors id ∧
      packet.payload = xorSum len symbol packet.neighbors
  index : ∀ n, decoder.source? n = none → ∀ id,
    id ∈ ((decoder.inverse.get? n).getD SortedMap.empty).keys ↔
      ∃ packet, decoder.pending.get? id = some packet ∧ n ∈ packet.neighbors

variable {k len sourceLen : Nat} {sampler : Sampler k} {symbol : Nat → List UInt8}
  {received : List Nat} {decoder : LtDecoder}

/-- Peeling the other packets recovers all that this one mentions. -/
def Redundant (neighbors : Nat → List Nat) (held : List Nat) (id : Nat) : Prop :=
  ∀ n ∈ neighbors id, Peeled neighbors (fun e => e ∈ held ∧ e ≠ id) n

/-- The packet that the call stores, if it does, leaves none redundant. -/
def Spares (decoder : LtDecoder) (neighbors : Nat → List Nat) (received : List Nat) (id : Nat) :
    Prop :=
  decoder.Stores neighbors id → ∀ other, decoder.pending.get? other ≠ none ∨ other = id →
    ¬ Redundant neighbors (received ++ [id]) other

/-- A packet without neighbours is redundant: what is resolved was resolved without it. -/
theorem Consistent.redundant
    (consistent : Consistent sampler len sourceLen symbol received decoder) {id : Nat}
    {packet : PendingPacket} (present : decoder.pending.get? id = some packet)
    (empty : packet.neighbors = []) : Redundant sampler.neighbors received id := by
  intro n mentioned
  refine consistent.spare id packet present n fun unresolved => ?_
  have missed : n ∈ decoder.missing sampler.neighbors id :=
    List.mem_filter.2 ⟨mentioned, Option.isNone_iff_eq_none.2 unresolved⟩
  rw [← (consistent.packets id packet present).2.1, empty] at missed
  exact List.not_mem_nil missed

theorem Consistent.useful
    (consistent : Consistent sampler len sourceLen symbol received decoder)
    (needed : ∀ id, decoder.pending.get? id ≠ none → ¬ Redundant sampler.neighbors received id) :
    Useful sampler len symbol decoder where
  packets id packet present := by
    refine ⟨fun empty => ?_, (consistent.packets id packet present).2⟩
    exact needed id (by rw [present]; simp) (consistent.redundant present empty)
  index n _ id := by
    constructor
    · exact consistent.listed id n
    · rintro ⟨packet, present, mentioned⟩
      exact consistent.indexed id packet n present mentioned

/-! ## The drain, step by step -/

theorem propagate_idle (idle : decoder.degree1Queue = []) : propagate decoder = (.ok (), decoder) := by
  rw [propagate]
  split
  · rfl
  · rename_i queued
    rw [idle] at queued
    cases queued

/-- A packet that has lost its last symbol is put back. -/
theorem propagate_spent {sid : Nat} {queue : List Nat} {packet : PendingPacket}
    (queued : decoder.degree1Queue = sid :: queue) (found : decoder.pending.get? sid = some packet)
    (spent : packet.neighbors = []) :
    propagate decoder = propagate { decoder with degree1Queue := queue } := by
  rw [propagate]
  split
  · rename_i empty
    rw [queued] at empty
    cases empty
  rename_i sid' queue' queued'
  obtain ⟨rfl, rfl⟩ := List.cons.inj (queued.symm.trans queued')
  split
  · rfl
  rename_i packet' found'
  cases found.symm.trans found'
  rw [spent]

/-- A packet at degree one gives its symbol. -/
theorem propagate_take {sid target : Nat} {queue : List Nat} {packet : PendingPacket}
    {after : LtDecoder} (queued : decoder.degree1Queue = sid :: queue)
    (found : decoder.pending.get? sid = some packet) (single : packet.neighbors = [target])
    (cascaded : cascade sid target packet.payload
      ((decoder.inverse.get? target).getD SortedMap.empty).keys
      { decoder with
        degree1Queue := queue
        pending := decoder.pending.erase sid
        inverse := decoder.inverse.erase target } = (.ok (), after))
    (open_left : (after.resolved + 1 == after.k) = false) :
    propagate decoder = propagate { after with
      sources := after.sources.set target (some packet.payload)
      resolved := after.resolved + 1 } := by
  rw [propagate]
  split
  · rename_i empty
    rw [queued] at empty
    cases empty
  rename_i sid' queue' queued'
  obtain ⟨rfl, rfl⟩ := List.cons.inj (queued.symm.trans queued')
  split
  · rename_i missing
    rw [found] at missing
    cases missing
  rename_i packet' found'
  cases found.symm.trans found'
  rw [single]
  simp only []
  split
  · rename_i failed
    rw [cascaded] at failed
    cases failed
  rename_i after' cascaded'
  obtain ⟨-, rfl⟩ := Prod.mk.inj (cascaded.symm.trans cascaded')
  exact if_neg (by rw [isComplete, open_left]; exact Bool.false_ne_true)

end LtDecoder

/-! ## Runs -/

variable {source : List UInt8} {symbolLen : Nat} {encoder : LtEncoder}

/-- One call keeps the packets useful. -/
theorem Received.useful (cut : Cut source symbolLen encoder) {sampler : Sampler encoder.k}
    {sourceLen : Nat} {calls : List Nat} {reception : Reception}
    (before : Received encoder sampler symbolLen sourceLen calls reception)
    (useful : reception.decoder.Useful sampler symbolLen encoder.sourceSymbol) {id : Nat}
    (spares : reception.decoder.Spares sampler.neighbors reception.received id) :
    (receive encoder sampler reception id).decoder.Useful sampler symbolLen
      encoder.sourceSymbol := by
  rw [receive, cut.encodeSymbol_eq]
  rcases LtDecoder.ingest_spec (fun n inside => cut.length_sourceSymbol inside) before.consistent
    before.idle id with ⟨after, run, consistent, -, same | ⟨stores, fewer⟩⟩ | ⟨err, run, -⟩
  · rw [run, same]
    exact useful
  · rw [run]
    exact consistent.useful fun other present => spares stores other (fewer other present)
  · rw [run]
    exact useful

/-- **The decoder keeps useful packets only**, in every run none of whose calls makes a stored
packet redundant. -/
theorem keeps_useful (source : List UInt8) (symbolLen : Nat) (encoder : LtEncoder)
    (made : LtEncoder.new source symbolLen = .ok encoder) (sampler : Sampler encoder.k) :
    ∃ decoder, LtDecoder.new encoder.k symbolLen source.length = .ok decoder ∧ ∀ ids,
      EachStep (receive encoder sampler)
        (fun before id => before.decoder.Spares sampler.neighbors before.received id)
        ⟨[], [], decoder⟩ ids →
      (run (receive encoder sampler) ⟨[], [], decoder⟩ ids).decoder.Useful sampler symbolLen
        encoder.sourceSymbol := by
  have cut := new_cut made
  obtain ⟨decoder, new, start⟩ := new_received cut sampler
  refine ⟨decoder, new, fun ids spares => ?_⟩
  have kept : ∀ before id, (∃ calls, Received encoder sampler symbolLen source.length calls before) ∧
      before.decoder.Useful sampler symbolLen encoder.sourceSymbol →
      before.decoder.Spares sampler.neighbors before.received id →
      (∃ calls, Received encoder sampler symbolLen source.length calls
        (receive encoder sampler before id)) ∧
      (receive encoder sampler before id).decoder.Useful sampler symbolLen
        encoder.sourceSymbol := by
    rintro before id ⟨⟨calls, received⟩, useful⟩ spared
    exact ⟨⟨_, received.step cut id⟩, received.useful cut useful spared⟩
  refine (run_invariant kept ⟨⟨[], start⟩, ?_⟩ spares).2
  simp only [LtDecoder.new, bind_eq_ok, require_eq_ok, exists_const, pure_eq_ok_iff] at new
  obtain ⟨-, -, -, -, -, rfl⟩ := new
  exact start.consistent.useful fun id present => absurd rfl present

/-- The neighbours that the generator gives the first ids when there are three symbols. -/
def threeSampler : Sampler 3 where
  neighbors id := if id = 0 ∨ id = 2 then [1, 2] else if id = 1 ∨ id = 3 then [2] else [0, 1]
  nonempty id := by grind
  distinct id := by grind
  inside id n := by grind

def threeEncoder : LtEncoder := ⟨[3, 5, 7], 3, 1, none⟩

def threeStart : LtDecoder := ⟨3, 1, 3, List.replicate 3 none, .empty, .empty, [], 0⟩

/-- The first packet is useful. -/
theorem keeps_useful_three : ∃ decoder, LtDecoder.new 3 1 3 = .ok decoder ∧
    (run (receive threeEncoder threeSampler) ⟨[], [], decoder⟩ [0]).decoder.Useful threeSampler 1
      threeEncoder.sourceSymbol := by
  obtain ⟨decoder, new, useful⟩ := keeps_useful [3, 5, 7] 1 threeEncoder rfl threeSampler
  refine ⟨decoder, new, useful [0] ⟨?_, trivial⟩⟩
  have start : threeStart = decoder := Except.ok.inj new
  subst start
  intro stores other held redundant
  obtain rfl := held.resolve_left fun present => present rfl
  obtain ⟨⟨here, apart⟩, -, -⟩ := redundant 1 (by decide)
  exact apart (List.mem_singleton.1 here)

/-- The call that stores a packet. -/
theorem ingest_stored {decoder after : LtDecoder} {sampler : Nat → List Nat} {id : Nat}
    {payload mixed : List UInt8} {unresolved : List Nat} (unfinished : decoder.isComplete = false)
    (fits : payload.length = decoder.symbolLen) (low : id < maxEncodedPerChunk)
    (new : decoder.pending.get? id = none)
    (room : (decoder.pending.size + 1) * decoder.symbolLen ≤ maxDecoderBufferBytes)
    (mix : decoder.preXor (sampler id) payload [] = .ok (mixed, unresolved))
    (wanting : unresolved ≠ [])
    (ran : LtDecoder.propagate { decoder with
      inverse := LtDecoder.indexUnder id decoder.inverse unresolved
      pending := decoder.pending.set id ⟨mixed, unresolved⟩
      degree1Queue := if unresolved.length = 1 then decoder.degree1Queue ++ [id]
        else decoder.degree1Queue } = (.ok (), after)) :
    decoder.ingest sampler id payload = (.ok after.isComplete, after) := by
  have small : maxDecoderBufferBytes ≤ usizeMax := by decide
  rw [LtDecoder.ingest, unfinished, if_neg Bool.false_ne_true, if_neg fun other => other fits,
    if_neg (Nat.not_le_of_lt low), new, if_neg (by simp)]
  simp only []
  rw [if_neg (by omega), if_neg (by omega), mix]
  simp only []
  rw [if_neg wanting, ran]

theorem run_stored {encoder : LtEncoder} {sampler : Sampler encoder.k} {reception : Reception}
    {id : Nat} {flag : Bool} {after : LtDecoder}
    (stored : reception.decoder.ingest sampler.neighbors id (encoder.encodeSymbol sampler id) =
      (.ok flag, after)) (ids : List Nat) :
    run (receive encoder sampler) reception (id :: ids) =
      run (receive encoder sampler) ⟨reception.received ++ [id], reception.refused, after⟩ ids := by
  rw [run_cons, receive, stored]

/-- Two packets over the same two symbols: the third call resolves both and leaves one of the
packets behind, although a symbol is still missing. -/
theorem packet_left_over : LtEncoder.new [3, 5, 7] 1 = .ok threeEncoder ∧
    LtDecoder.new 3 1 3 = .ok threeStart ∧
    let reached := (run (receive threeEncoder threeSampler) ⟨[], [], threeStart⟩ [0, 2, 1]).decoder
    reached.isComplete = false ∧ reached.pending.get? 2 = some ⟨[0], []⟩ ∧
      ¬ reached.Useful threeSampler 1 threeEncoder.sourceSymbol := by
  refine ⟨rfl, rfl, ?_⟩
  have reached : run (receive threeEncoder threeSampler) ⟨[], [], threeStart⟩ [0, 2, 1] =
      ⟨[0, 2, 1], [], _⟩ :=
    (run_stored (ingest_stored rfl rfl (by decide) rfl (by decide) rfl (by decide)
      (LtDecoder.propagate_idle rfl)) _).trans <|
    (run_stored (ingest_stored rfl rfl (by decide) rfl (by decide) rfl (by decide)
      (LtDecoder.propagate_idle rfl)) _).trans <|
    (run_stored (ingest_stored rfl rfl (by decide) rfl (by decide) rfl (by decide)
      ((LtDecoder.propagate_take rfl rfl rfl rfl rfl).trans
        ((LtDecoder.propagate_take rfl rfl rfl rfl rfl).trans
          ((LtDecoder.propagate_spent rfl rfl rfl).trans (LtDecoder.propagate_idle rfl))))) _)
  simp only [reached]
  exact ⟨rfl, rfl, fun useful => (useful.packets 2 ⟨[0], []⟩ rfl).1 rfl⟩

end OneLink.Fountain
