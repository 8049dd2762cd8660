/-
# Fountain.Closure -- the decoder computes the peeling closure

Between calls every received packet is either pending, reduced by exactly the
symbols resolved, or has none missing (`Consistent`).  Resolving the symbol of a
packet at degree one keeps this (`Consistent.resolve`), and an empty queue means that
no packet is at degree one, so what is resolved is closed under peeling.  It is the
least such set, whatever the order of arrival (`resolves_closure`).
-/
import OneLink.Fountain.Decoder
import OneLink.Library.Peeling
import OneLink.Library.Run

namespace OneLink.Fountain

set_option autoImplicit false

open Library

namespace LtDecoder

/-! ## One cascade -/

/-- A packet with a resolved symbol taken out. -/
def relieve (target : Nat) (payload : List UInt8) (packet : PendingPacket) : PendingPacket :=
  if target ∈ packet.neighbors then
    ⟨xorBytes packet.payload payload, packet.neighbors.erase target⟩
  else packet

/-- What a cascade leaves: the dependents relieved, and those that fell to degree one queued. -/
structure Cascaded (sid target : Nat) (payload : List UInt8) (dependents : List Nat)
    (before : LtDecoder) (pending : OrderedDict Nat PendingPacket) (queue : List Nat) : Prop where
  packets : ∀ id, pending.get? id = if id ∈ dependents ∧ id ≠ sid
    then (before.pending.get? id).map (relieve target payload) else before.pending.get? id
  kept : ∀ id ∈ before.degree1Queue, id ∈ queue
  fell : ∀ id packet, id ∈ dependents → id ≠ sid → before.pending.get? id = some packet →
    target ∈ packet.neighbors → (packet.neighbors.erase target).length = 1 → id ∈ queue

theorem cascade_spec (sid target : Nat) (payload : List UInt8) {dependents : List Nat}
    (distinct : dependents.Nodup) (decoder : LtDecoder)
    (lengths : ∀ id packet, decoder.pending.get? id = some packet →
      packet.payload.length = payload.length) :
    ∃ pending queue, cascade sid target payload dependents decoder =
        (.ok (), { decoder with pending := pending, degree1Queue := queue }) ∧
      Cascaded sid target payload dependents decoder pending queue := by
  induction dependents generalizing decoder with
  | nil =>
    refine ⟨decoder.pending, decoder.degree1Queue, rfl, fun id => ?_, fun id member => member, ?_⟩
    · rw [if_neg fun both => List.not_mem_nil both.1]
    · intro id packet member
      exact absurd member List.not_mem_nil
  | cons depSid rest ih =>
    obtain ⟨fresh, distinctRest⟩ := List.nodup_cons.1 distinct
    rw [cascade]
    by_cases own : depSid = sid
    · obtain ⟨pending, queue, run, spec⟩ := ih distinctRest decoder lengths
      rw [if_pos own]
      refine ⟨pending, queue, run, fun id => ?_, spec.kept, ?_⟩
      · rw [spec.packets]
        have same : id ∈ depSid :: rest ∧ id ≠ sid ↔ id ∈ rest ∧ id ≠ sid := by
          rw [List.mem_cons, own]
          tauto
        simp only [same]
      · intro id packet member other
        exact spec.fell id packet
          ((List.mem_cons.1 member).resolve_left fun here => other (here.trans own)) other
    rw [if_neg own]
    cases found : decoder.pending.get? depSid with
    | none =>
      obtain ⟨pending, queue, run, spec⟩ := ih distinctRest decoder lengths
      refine ⟨pending, queue, run, fun id => ?_, spec.kept, ?_⟩
      · rw [spec.packets]
        by_cases here : id = depSid
        · subst here
          rw [found, Option.map_none, ite_self, ite_self]
        · simp only [List.mem_cons, here, false_or]
      · intro id packet member other present
        refine spec.fell id packet ((List.mem_cons.1 member).resolve_left ?_) other present
        rintro rfl
        rw [found] at present
        exact absurd present (by simp)
    | some dep =>
      simp only []
      by_cases mentions : target ∈ dep.neighbors
      · have mixed := xorInto_of_length (lengths depSid dep found)
        rw [if_pos mentions]
        simp only [mixed]
        obtain ⟨pending, queue, run, spec⟩ := ih distinctRest
          { decoder with
            pending := decoder.pending.set depSid
              ⟨xorBytes dep.payload payload, dep.neighbors.erase target⟩
            degree1Queue := if (dep.neighbors.erase target).length = 1
              then decoder.degree1Queue ++ [depSid] else decoder.degree1Queue } (by
          intro id packet present
          simp only [OrderedDict.get?_set] at present
          split at present
          · rw [← Option.some.inj present]
            exact length_xorBytes (lengths depSid dep found)
          · exact lengths id packet present)
        refine ⟨pending, queue, run, fun id => ?_, ?_, ?_⟩
        · rw [spec.packets]
          simp only [OrderedDict.get?_set]
          by_cases here : depSid = id
          · subst here
            rw [if_neg fun both => fresh both.1, if_pos rfl, if_pos ⟨List.mem_cons_self, own⟩, found,
              Option.map_some, relieve, if_pos mentions]
          · simp only [List.mem_cons, here, Ne.symm here, false_or, if_false]
        · intro id member
          refine spec.kept id ?_
          simp only []
          split
          · exact List.mem_append_left _ member
          · exact member
        · intro id packet member other present target_mem degree
          by_cases here : depSid = id
          · subst here
            rw [found] at present
            rw [← Option.some.inj present] at degree
            refine spec.kept depSid ?_
            simp only [degree, if_true]
            exact List.mem_append_right _ (List.mem_singleton.2 rfl)
          · refine spec.fell id packet ((List.mem_cons.1 member).resolve_left (Ne.symm here)) other ?_
              target_mem degree
            simp only [OrderedDict.get?_set, here, if_false]
            exact present
      · obtain ⟨pending, queue, run, spec⟩ := ih distinctRest decoder lengths
        rw [if_neg mentions]
        refine ⟨pending, queue, run, fun id => ?_, spec.kept, ?_⟩
        · rw [spec.packets]
          by_cases here : id = depSid
          · subst here
            rw [found, Option.map_some, relieve, if_neg mentions, ite_self, ite_self]
          · simp only [List.mem_cons, here, false_or]
        · intro id packet member other present target_mem
          refine spec.fell id packet ((List.mem_cons.1 member).resolve_left ?_) other present target_mem
          rintro rfl
          rw [found] at present
          exact mentions (Option.some.inj present ▸ target_mem)

/-! ## The invariant -/

/-- The neighbours of a symbol id that are not resolved yet. -/
def missing (decoder : LtDecoder) (neighbors : Nat → List Nat) (id : Nat) : List Nat :=
  (neighbors id).filter fun n => (decoder.source? n).isNone

/-- What holds between two steps, over the ids received so far. -/
structure Consistent {k : Nat} (sampler : Sampler k) (len sourceLen : Nat) (symbol : Nat → List UInt8)
    (received : List Nat) (decoder : LtDecoder) : Prop where
  k_eq : decoder.k = k
  symbolLen_eq : decoder.symbolLen = len
  sourceLen_eq : decoder.sourceLen = sourceLen
  slots : decoder.sources.length = k
  truth : ∀ n text, decoder.source? n = some text → text = symbol n
  count : decoder.resolved = decoder.sources.countP Option.isSome
  sound : ∀ n, decoder.source? n ≠ none → Peeled sampler.neighbors (· ∈ received) n
  packets : ∀ id packet, decoder.pending.get? id = some packet →
    id ∈ received ∧ packet.neighbors = decoder.missing sampler.neighbors id ∧
      packet.payload = xorSum len symbol packet.neighbors
  covered : ∀ id ∈ received, decoder.pending.get? id ≠ none ∨
    decoder.missing sampler.neighbors id = []
  indexed : ∀ id packet n, decoder.pending.get? id = some packet → n ∈ packet.neighbors →
    id ∈ ((decoder.inverse.get? n).getD SortedMap.empty).keys
  listed : ∀ id n, id ∈ ((decoder.inverse.get? n).getD SortedMap.empty).keys →
    ∃ packet, decoder.pending.get? id = some packet ∧ n ∈ packet.neighbors
  spare : ∀ id packet, decoder.pending.get? id = some packet → ∀ n, decoder.source? n ≠ none →
    Peeled sampler.neighbors (fun e => e ∈ received ∧ e ≠ id) n
  queued : ∀ id packet, decoder.pending.get? id = some packet → packet.neighbors.length = 1 →
    id ∈ decoder.degree1Queue

variable {k len sourceLen : Nat} {sampler : Sampler k} {symbol : Nat → List UInt8} {received : List Nat}
  {decoder : LtDecoder}

theorem source?_set (decoder : LtDecoder) {target : Nat} (inside : target < decoder.sources.length)
    (text : List UInt8) (n : Nat) :
    (decoder.sources.set target (some text)).getD n none =
      if n = target then some text else decoder.source? n := by
  rw [source?, List.getD_eq_getElem?_getD, List.getD_eq_getElem?_getD, List.getElem?_set]
  by_cases here : target = n
  · rw [if_pos here, if_pos inside, if_pos here.symm]
    rfl
  · rw [if_neg here, if_neg (Ne.symm here)]

theorem countP_set {sources : List (Option (List UInt8))} {target : Nat}
    (absent : sources.getD target none = none) (inside : target < sources.length)
    (text : List UInt8) :
    (sources.set target (some text)).countP Option.isSome = sources.countP Option.isSome + 1 := by
  induction sources generalizing target with
  | nil => simp at inside
  | cons slot sources ih =>
    cases target with
    | zero =>
      have none : slot = none := absent
      rw [List.set_cons_zero, List.countP_cons, List.countP_cons, none]
      rfl
    | succ target =>
      rw [List.set_cons_succ, List.countP_cons, List.countP_cons,
        ih absent (Nat.lt_of_succ_lt_succ inside)]
      omega

theorem Consistent.missing_nodup (decoder : LtDecoder) (sampler : Sampler k) (id : Nat) :
    (decoder.missing sampler.neighbors id).Nodup :=
  (sampler.distinct id).sublist List.filter_sublist

/-- Resolving a symbol takes it out of what a packet misses. -/
theorem missing_resolved {after : LtDecoder} {target : Nat} (id : Nat)
    (more : ∀ n, after.source? n = none ↔ n ≠ target ∧ decoder.source? n = none) :
    after.missing sampler.neighbors id = (decoder.missing sampler.neighbors id).erase target := by
  rw [(Consistent.missing_nodup decoder sampler id).erase_eq_filter, missing, missing,
    List.filter_filter]
  refine List.filter_congr fun n _ => ?_
  have same := more n
  rw [Bool.eq_iff_iff]
  simp only [Option.isNone_iff_eq_none, same, Bool.and_eq_true, bne_iff_ne]

/-- An id that leads to no packet at degree one may leave the queue. -/
theorem Consistent.skip (consistent : Consistent sampler len sourceLen symbol received decoder) {sid : Nat}
    {queue : List Nat} (queued : decoder.degree1Queue = sid :: queue)
    (stale : ∀ packet, decoder.pending.get? sid = some packet → packet.neighbors.length ≠ 1) :
    Consistent sampler len sourceLen symbol received { decoder with degree1Queue := queue } := by
  refine { consistent with queued := fun id packet present degree => ?_ }
  have member := consistent.queued id packet present degree
  rw [queued] at member
  rcases List.mem_cons.1 member with rfl | later
  · exact absurd degree (stale packet present)
  · exact later

/-- The symbol of a packet at degree one is true, in range, and not resolved yet. -/
theorem Consistent.last_symbol (consistent : Consistent sampler len sourceLen symbol received decoder)
    (lengths : ∀ n < k, (symbol n).length = len) {sid target : Nat} {packet : PendingPacket}
    (found : decoder.pending.get? sid = some packet) (single : packet.neighbors = [target]) :
    target < k ∧ decoder.source? target = none ∧ packet.payload = symbol target ∧
      target ∈ sampler.neighbors sid ∧
      ∀ n ∈ sampler.neighbors sid, n ≠ target → decoder.source? n ≠ none := by
  obtain ⟨-, neighbors, payload⟩ := consistent.packets sid packet found
  rw [single] at neighbors payload
  have member : target ∈ decoder.missing sampler.neighbors sid := by
    rw [← neighbors]
    exact List.mem_singleton.2 rfl
  obtain ⟨mentioned, absent⟩ := List.mem_filter.1 member
  have inside := sampler.inside sid target mentioned
  refine ⟨inside, Option.isNone_iff_eq_none.1 absent, ?_, mentioned, fun n other apart none => ?_⟩
  · rw [payload, xorSum_singleton (lengths target inside)]
  · have also : n ∈ decoder.missing sampler.neighbors sid :=
      List.mem_filter.2 ⟨other, Option.isNone_iff_eq_none.2 none⟩
    rw [← neighbors] at also
    exact apart (List.mem_singleton.1 also)

/-- The decoder after a resolution whose cascade left these packets and this queue. -/
def resolvedBy (decoder : LtDecoder) (target : Nat) (payload : List UInt8)
    (pending : OrderedDict Nat PendingPacket) (queue : List Nat) : LtDecoder :=
  { decoder with
    sources := decoder.sources.set target (some payload)
    pending := pending
    inverse := decoder.inverse.erase target
    degree1Queue := queue
    resolved := decoder.resolved + 1 }

/-- **One resolution keeps the invariant.** -/
theorem Consistent.resolve (consistent : Consistent sampler len sourceLen symbol received decoder)
    (lengths : ∀ n < k, (symbol n).length = len) {sid target : Nat} {queue : List Nat}
    {packet : PendingPacket} (queued : decoder.degree1Queue = sid :: queue)
    (found : decoder.pending.get? sid = some packet) (single : packet.neighbors = [target])
    {pending : OrderedDict Nat PendingPacket} {queue' : List Nat}
    (cascaded : Cascaded sid target packet.payload
      ((decoder.inverse.get? target).getD SortedMap.empty).keys
      { decoder with
        degree1Queue := queue
        pending := decoder.pending.erase sid
        inverse := decoder.inverse.erase target } pending queue') :
    Consistent sampler len sourceLen symbol received
      (decoder.resolvedBy target packet.payload pending queue') := by
  obtain ⟨inside, absent, payload, mentioned, others⟩ :=
    consistent.last_symbol lengths found single
  have slot : target < decoder.sources.length := consistent.slots ▸ inside
  have read : ∀ n, (decoder.resolvedBy target packet.payload pending queue').source? n =
      if n = target then some packet.payload else decoder.source? n :=
    decoder.source?_set slot packet.payload
  have more : ∀ n, (decoder.resolvedBy target packet.payload pending queue').source? n = none ↔
      n ≠ target ∧ decoder.source? n = none := by
    intro n
    rw [read n]
    by_cases here : n = target
    · rw [if_pos here]
      exact ⟨fun none => absurd none (by simp), fun both => absurd here both.1⟩
    · rw [if_neg here]
      exact ⟨fun none => ⟨here, none⟩, fun both => both.2⟩
  -- every packet left is an old one, relieved of the symbol where it mentions it
  have from_old : ∀ id left, pending.get? id = some left → ∃ old, id ≠ sid ∧
      decoder.pending.get? id = some old ∧ left = relieve target packet.payload old := by
    intro id left present
    rw [cascaded.packets id] at present
    simp only [OrderedDict.get?_erase] at present
    by_cases here : id = sid
    · rw [if_neg fun both => both.2 here, if_pos here.symm] at present
      exact absurd present (by simp)
    · rw [if_neg (Ne.symm here)] at present
      split at present
      · obtain ⟨old, old_present, rfl⟩ := Option.map_eq_some_iff.1 present
        exact ⟨old, here, old_present, rfl⟩
      · rename_i unvisited
        refine ⟨left, here, present, ?_⟩
        rw [relieve, if_neg]
        intro mentions
        exact unvisited ⟨consistent.indexed id left target present mentions, here⟩
  have relieved : ∀ id old, decoder.pending.get? id = some old →
      (relieve target packet.payload old).neighbors = old.neighbors.erase target := by
    intro id old _
    rw [relieve]
    split
    · rfl
    · rename_i unmentioned
      exact (List.erase_of_not_mem unmentioned).symm
  refine ⟨consistent.k_eq, consistent.symbolLen_eq, consistent.sourceLen_eq, ?_, ?_, ?_, ?_, ?_, ?_,
    ?_, ?_, ?_, ?_⟩
  · exact (List.length_set ..).trans consistent.slots
  · intro n text resolved
    rw [read n] at resolved
    split at resolved
    · rename_i here
      rw [← Option.some.inj resolved, payload, here]
    · exact consistent.truth n text resolved
  · show decoder.resolved + 1 = (decoder.sources.set target (some packet.payload)).countP _
    rw [countP_set absent slot, consistent.count]
  · intro n resolved
    rw [read n] at resolved
    split at resolved
    · rename_i here
      rw [here]
      refine .last (consistent.packets sid packet found).1 mentioned fun w member apart => ?_
      exact consistent.sound w (others w member apart)
    · exact consistent.sound n resolved
  · intro id left present
    obtain ⟨old, -, old_present, rfl⟩ := from_old id left present
    obtain ⟨held, neighbors, sum⟩ := consistent.packets id old old_present
    refine ⟨held, ?_, ?_⟩
    · rw [relieved id old old_present, neighbors]
      exact (missing_resolved id more).symm
    · rw [relieved id old old_present, relieve]
      split
      · rename_i mentions
        rw [sum, payload, ← xorSum_erase mentions]
        refine xorBytes_cancel ?_
        rw [lengths target inside, length_xorSum]
        intro n member
        have old_member := List.mem_of_mem_erase member
        rw [neighbors] at old_member
        exact lengths n (sampler.inside id n (List.mem_filter.1 old_member).1)
      · rename_i unmentioned
        rw [List.erase_of_not_mem unmentioned]
        exact sum
  · intro id held
    by_cases here : id = sid
    · right
      rw [missing_resolved id more, here, ← (consistent.packets sid packet found).2.1, single]
      simp
    · rcases consistent.covered id held with present | none
      · left
        show pending.get? id ≠ Option.none
        rw [cascaded.packets id]
        simp only [OrderedDict.get?_erase]
        rw [if_neg (Ne.symm here)]
        split
        · rw [ne_eq, Option.map_eq_none_iff]
          exact present
        · exact present
      · right
        rw [missing_resolved id more, none]
        rfl
  · intro id left n present member
    obtain ⟨old, -, old_present, rfl⟩ := from_old id left present
    rw [relieved id old old_present, (consistent.packets id old old_present).2.1,
      (missing_nodup decoder sampler id).mem_erase_iff] at member
    show id ∈ (((decoder.inverse.erase target).get? n).getD SortedMap.empty).keys
    rw [OrderedDict.get?_erase, if_neg (Ne.symm member.1)]
    refine consistent.indexed id old n old_present ?_
    rw [(consistent.packets id old old_present).2.1]
    exact member.2
  · intro id n (member : id ∈ (((decoder.inverse.erase target).get? n).getD SortedMap.empty).keys)
    rw [OrderedDict.get?_erase] at member
    by_cases here : target = n
    · rw [if_pos here] at member
      exact absurd member List.not_mem_nil
    rw [if_neg here] at member
    obtain ⟨old, old_present, mentioned'⟩ := consistent.listed id n member
    have apart : id ≠ sid := by
      rintro rfl
      rw [Option.some.inj (old_present.symm.trans found), single] at mentioned'
      exact here (List.mem_singleton.1 mentioned').symm
    show ∃ packet, pending.get? id = some packet ∧ _
    rw [cascaded.packets id]
    simp only [OrderedDict.get?_erase, if_neg (Ne.symm apart), old_present, Option.map_some]
    split
    · refine ⟨_, rfl, ?_⟩
      rw [relieved id old old_present]
      exact (List.mem_erase_of_ne (Ne.symm here)).2 mentioned'
    · exact ⟨old, rfl, mentioned'⟩
  · intro id left present n resolved
    obtain ⟨old, apart, old_present, -⟩ := from_old id left present
    rw [read n] at resolved
    split at resolved
    · rename_i here
      rw [here]
      refine .last ⟨(consistent.packets sid packet found).1, Ne.symm apart⟩ mentioned
        fun w member away => ?_
      exact consistent.spare id old old_present w (others w member away)
    · exact consistent.spare id old old_present n resolved
  · intro id left present degree
    obtain ⟨old, apart, old_present, rfl⟩ := from_old id left present
    rw [relieved id old old_present] at degree
    by_cases mentions : target ∈ old.neighbors
    · refine cascaded.fell id old (consistent.indexed id old target old_present mentions) apart ?_
        mentions degree
      simp only [OrderedDict.get?_erase]
      rw [if_neg (Ne.symm apart)]
      exact old_present
    · rw [List.erase_of_not_mem mentions] at degree
      have member := consistent.queued id old old_present degree
      rw [queued] at member
      exact cascaded.kept id ((List.mem_cons.1 member).resolve_left apart)

/-! ## Propagation -/

/-- With every symbol resolved the queue may be dropped. -/
theorem Consistent.clear (consistent : Consistent sampler len sourceLen symbol received decoder)
    (complete : ∀ n < k, decoder.source? n ≠ none) :
    Consistent sampler len sourceLen symbol received { decoder with degree1Queue := [] } := by
  refine { consistent with queued := fun id packet present degree => ?_ }
  obtain ⟨n, single⟩ := List.length_eq_one_iff.1 degree
  obtain ⟨-, neighbors, -⟩ := consistent.packets id packet present
  have member : n ∈ decoder.missing sampler.neighbors id := by
    rw [← neighbors, single]
    exact List.mem_singleton.2 rfl
  obtain ⟨mentioned, absent⟩ := List.mem_filter.1 member
  exact absurd (Option.isNone_iff_eq_none.1 absent) (complete n (sampler.inside id n mentioned))

theorem Consistent.complete_iff (consistent : Consistent sampler len sourceLen symbol received decoder) :
    decoder.isComplete = true ↔ ∀ n < k, decoder.source? n ≠ none := by
  rw [isComplete, beq_iff_eq, consistent.count, consistent.k_eq, ← consistent.slots,
    List.countP_eq_length]
  constructor
  · intro all n inside
    have slot := all _ (List.getElem_mem inside)
    rw [source?, List.getD_eq_getElem?_getD, List.getElem?_eq_getElem inside]
    exact Option.isSome_iff_ne_none.1 slot
  · intro all slot member
    obtain ⟨n, inside, rfl⟩ := List.getElem_of_mem member
    have resolved := all n inside
    rw [source?, List.getD_eq_getElem?_getD, List.getElem?_eq_getElem inside] at resolved
    exact Option.isSome_iff_ne_none.2 resolved

theorem Consistent.payload_length (consistent : Consistent sampler len sourceLen symbol received decoder)
    (lengths : ∀ n < k, (symbol n).length = len) {id : Nat} {packet : PendingPacket}
    (present : decoder.pending.get? id = some packet) : packet.payload.length = len := by
  obtain ⟨-, neighbors, sum⟩ := consistent.packets id packet present
  rw [sum]
  refine length_xorSum fun n member => lengths n (sampler.inside id n ?_)
  rw [neighbors] at member
  exact (List.mem_filter.1 member).1

/-- The cascade of a packet at degree one runs through, and what it leaves is consistent. -/
theorem Consistent.cascade (consistent : Consistent sampler len sourceLen symbol received decoder)
    (lengths : ∀ n < k, (symbol n).length = len) {sid target : Nat} {queue : List Nat}
    {packet : PendingPacket} (queued : decoder.degree1Queue = sid :: queue)
    (found : decoder.pending.get? sid = some packet) (single : packet.neighbors = [target]) :
    ∃ pending queue', LtDecoder.cascade sid target packet.payload
        ((decoder.inverse.get? target).getD SortedMap.empty).keys
        { decoder with
          degree1Queue := queue
          pending := decoder.pending.erase sid
          inverse := decoder.inverse.erase target } =
      (.ok (), { decoder with
        degree1Queue := queue'
        pending := pending
        inverse := decoder.inverse.erase target }) ∧
      Consistent sampler len sourceLen symbol received
        (decoder.resolvedBy target packet.payload pending queue') ∧
      ∀ id, pending.get? id ≠ none → decoder.pending.get? id ≠ none := by
  obtain ⟨pending, queue', run, cascaded⟩ := cascade_spec sid target packet.payload
    (SortedMap.nodup_keys ((decoder.inverse.get? target).getD SortedMap.empty))
    { decoder with
      degree1Queue := queue
      pending := decoder.pending.erase sid
      inverse := decoder.inverse.erase target } (by
    intro id other present
    simp only [OrderedDict.get?_erase] at present
    split at present
    · exact absurd present (by simp)
    · rw [consistent.payload_length lengths present, consistent.payload_length lengths found])
  refine ⟨pending, queue', run, consistent.resolve lengths queued found single cascaded,
    fun id held none => held ?_⟩
  rw [cascaded.packets id]
  simp only [OrderedDict.get?_erase, none, ite_self, Option.map_none]

/-- The queue is drained without an error. -/
theorem propagate_spec (lengths : ∀ n < k, (symbol n).length = len) (decoder : LtDecoder)
    (consistent : Consistent sampler len sourceLen symbol received decoder) :
    ∃ after, propagate decoder = (.ok (), after) ∧
      Consistent sampler len sourceLen symbol received after ∧ after.degree1Queue = [] ∧
      ∀ id, after.pending.get? id ≠ none → decoder.pending.get? id ≠ none := by
  fun_induction propagate decoder with
  | case1 decoder empty => exact ⟨decoder, rfl, consistent, empty, fun _ held => held⟩
  | case2 decoder sid queue queued none ih =>
    exact ih (consistent.skip queued fun packet present => by
      rw [none] at present
      exact absurd present (by simp))
  | case3 decoder sid queue queued packet found target single dependents taken err after cascaded =>
    obtain ⟨pending, queue', run, -, -⟩ := consistent.cascade lengths queued found single
    exact absurd (congrArg Prod.fst (cascaded.symm.trans run)) (by simp)
  | case4 decoder sid queue queued packet found target single dependents taken after cascaded stored
      complete =>
    obtain ⟨pending, queue', run, resolved, fewer⟩ := consistent.cascade lengths queued found single
    have left := congrArg Prod.snd (cascaded.symm.trans run)
    subst left
    exact ⟨_, rfl, resolved.clear (resolved.complete_iff.1 complete), rfl, fewer⟩
  | case5 decoder sid queue queued packet found target single dependents taken after cascaded stored
      incomplete ih =>
    obtain ⟨pending, queue', run, resolved, fewer⟩ := consistent.cascade lengths queued found single
    have left := congrArg Prod.snd (cascaded.symm.trans run)
    subst left
    obtain ⟨after, ran, kept, drained, fewer'⟩ := ih resolved
    exact ⟨after, ran, kept, drained, fun id held => fewer id (fewer' id held)⟩
  | case6 decoder sid queue queued packet found other ih =>
    refine ih (consistent.skip queued fun packet' present degree => ?_)
    rw [found] at present
    obtain ⟨target, single⟩ := List.length_eq_one_iff.1 degree
    exact other target (Option.some.inj present ▸ single)

/-! ## One packet -/

/-- The loop over the neighbours leaves the sum of those not resolved. -/
theorem Consistent.preXor (consistent : Consistent sampler len sourceLen symbol received decoder)
    (lengths : ∀ n < k, (symbol n).length = len) {ns unresolved : List Nat}
    (inside : ∀ n ∈ ns, n < k) (kept : ∀ n ∈ unresolved, n < k) {payload : List UInt8}
    (sum : payload = xorBytes (xorSum len symbol unresolved) (xorSum len symbol ns)) :
    decoder.preXor ns payload unresolved =
      .ok (xorSum len symbol (unresolved ++ ns.filter fun n => (decoder.source? n).isNone),
        unresolved ++ ns.filter fun n => (decoder.source? n).isNone) := by
  have total : ∀ l : List Nat, (∀ n ∈ l, n < k) → (xorSum len symbol l).length = len := fun l low =>
    length_xorSum fun n member => lengths n (low n member)
  induction ns generalizing unresolved payload with
  | nil =>
    rw [xorSum_nil, xorBytes_zeros (total unresolved kept)] at sum
    rw [LtDecoder.preXor, List.filter_nil, List.append_nil, sum]
  | cons n ns ih =>
    have below := inside n List.mem_cons_self
    have rest : ∀ m ∈ ns, m < k := fun m later => inside m (List.mem_cons_of_mem n later)
    have length : (symbol n).length = (xorSum len symbol ns).length := by
      rw [lengths n below, total ns rest]
    rw [LtDecoder.preXor]
    cases resolved : decoder.source? n with
    | none =>
      have only : ∀ m ∈ [n], m < k := fun m single => List.mem_singleton.1 single ▸ below
      simp only []
      rw [ih rest ?_ ?_, List.filter_cons_of_pos (by rw [resolved]; rfl), List.append_assoc]
      · rfl
      · intro m member
        rcases List.mem_append.1 member with old | new
        · exact kept m old
        · exact only m new
      · rw [sum, xorSum_cons, xorSum_append fun m single => lengths m (only m single),
          xorSum_singleton (lengths n below), xorBytes_assoc]
    | some text =>
      have true_text := consistent.truth n text resolved
      have fits : payload.length = text.length := by
        rw [sum, length_xorBytes (by rw [total unresolved kept, total (n :: ns) inside]),
          total (n :: ns) inside, true_text, lengths n below]
      simp only [xorInto_of_length fits]
      rw [ih rest kept ?_, List.filter_cons_of_neg (by rw [resolved]; simp)]
      rw [sum, true_text, xorSum_cons, xorBytes_assoc, xorBytes_cancel length]

theorem mem_indexUnder (symbolId : Nat) {inverse : OrderedDict Nat (SortedMap Nat Unit)}
    {ns : List Nat} {id n : Nat} :
    id ∈ (((indexUnder symbolId inverse ns).get? n).getD SortedMap.empty).keys ↔
      (n ∈ ns ∧ id = symbolId) ∨ id ∈ ((inverse.get? n).getD SortedMap.empty).keys := by
  induction ns generalizing inverse with
  | nil => exact ⟨.inr, fun member => member.resolve_left fun both => List.not_mem_nil both.1⟩
  | cons m ns ih =>
    show id ∈ (((indexUnder symbolId (inverse.set m _) ns).get? n).getD SortedMap.empty).keys ↔ _
    rw [ih, OrderedDict.get?_set, List.mem_cons]
    by_cases here : m = n
    · subst here
      rw [if_pos rfl, Option.getD_some, SortedMap.mem_keys, SortedMap.get?_alter]
      by_cases own : symbolId = id
      · simp [own]
      · rw [if_neg own, ← SortedMap.mem_keys]
        simp [Ne.symm own]
    · rw [if_neg here]
      simp [Ne.symm here]

/-- More packets received make more known, and nothing else changes. -/
theorem Consistent.receive (consistent : Consistent sampler len sourceLen symbol received decoder) {id : Nat}
    (covered : decoder.pending.get? id ≠ none ∨ decoder.missing sampler.neighbors id = []) :
    Consistent sampler len sourceLen symbol (received ++ [id]) decoder := by
  refine { consistent with
    sound := fun n resolved => ?_, packets := ?_, covered := ?_, spare := ?_ }
  · exact peeled_mono (fun e held => List.mem_append_left _ held) (consistent.sound n resolved)
  · intro other packet present
    obtain ⟨held, shape⟩ := consistent.packets other packet present
    exact ⟨List.mem_append_left _ held, shape⟩
  · intro other held
    rcases List.mem_append.1 held with old | new
    · exact consistent.covered other old
    · rw [List.mem_singleton.1 new]
      exact covered
  · intro other packet present n resolved
    exact peeled_mono (fun e held => ⟨List.mem_append_left _ held.1, held.2⟩)
      (consistent.spare other packet present n resolved)

/-- The packet that `ingest` stores. -/
theorem Consistent.insert (consistent : Consistent sampler len sourceLen symbol received decoder)
    {id : Nat} (new : decoder.pending.get? id = none) (fresh : id ∉ received) :
    Consistent sampler len sourceLen symbol (received ++ [id])
      { decoder with
        inverse := indexUnder id decoder.inverse (decoder.missing sampler.neighbors id)
        pending := decoder.pending.set id
          ⟨xorSum len symbol (decoder.missing sampler.neighbors id),
            decoder.missing sampler.neighbors id⟩
        degree1Queue := if (decoder.missing sampler.neighbors id).length = 1
          then decoder.degree1Queue ++ [id] else decoder.degree1Queue } := by
  refine { consistent with
    sound := ?_, packets := ?_, covered := ?_, indexed := ?_, listed := ?_, spare := ?_, queued := ?_ }
  · intro n resolved
    exact peeled_mono (fun e held => List.mem_append_left _ held) (consistent.sound n resolved)
  · intro other packet present
    simp only [OrderedDict.get?_set] at present
    split at present
    · rename_i here
      subst here
      rw [← Option.some.inj present]
      exact ⟨List.mem_append_right _ (List.mem_singleton.2 rfl), rfl, rfl⟩
    · obtain ⟨held, shape⟩ := consistent.packets other packet present
      exact ⟨List.mem_append_left _ held, shape⟩
  · intro other held
    by_cases here : id = other
    · left
      simp only [OrderedDict.get?_set, here, if_true]
      simp
    · have old := (List.mem_append.1 held).resolve_right fun new =>
        here (List.mem_singleton.1 new).symm
      simp only [OrderedDict.get?_set, here, if_false]
      exact consistent.covered other old
  · intro other packet n present member
    simp only [OrderedDict.get?_set] at present
    split at present
    · rename_i here
      subst here
      rw [← Option.some.inj present] at member
      exact (mem_indexUnder id).2 (.inl ⟨member, rfl⟩)
    · exact (mem_indexUnder id).2 (.inr (consistent.indexed other packet n present member))
  · intro other n member
    simp only [OrderedDict.get?_set]
    rcases (mem_indexUnder id).1 member with ⟨mentioned, rfl⟩ | old
    · exact ⟨_, if_pos rfl, mentioned⟩
    · obtain ⟨packet, present, mentioned⟩ := consistent.listed other n old
      have apart : id ≠ other := by
        rintro rfl
        rw [new] at present
        cases present
      exact ⟨packet, (if_neg apart).trans present, mentioned⟩
  · intro other packet present n resolved
    simp only [OrderedDict.get?_set] at present
    split at present
    · rename_i here
      refine peeled_mono (fun e held => ⟨List.mem_append_left _ held, ?_⟩) (consistent.sound n resolved)
      rintro rfl
      exact fresh (here ▸ held)
    · exact peeled_mono (fun e held => ⟨List.mem_append_left _ held.1, held.2⟩)
        (consistent.spare other packet present n resolved)
  · intro other packet present degree
    simp only [OrderedDict.get?_set] at present
    split at present
    · rename_i here
      subst here
      rw [← Option.some.inj present] at degree
      simp only [degree, if_true]
      exact List.mem_append_right _ (List.mem_singleton.2 rfl)
    · have member := consistent.queued other packet present degree
      simp only []
      split
      · exact List.mem_append_left _ member
      · exact member

/-- An error for which the decoder keeps its state: the id is past the cap, or the packet would not fit. -/
def Refusal (id : Nat) (err : FountainError) : Prop :=
  (err = .symbolIdOverflow id maxEncodedPerChunk ∧ maxEncodedPerChunk ≤ id) ∨
    ∃ got, err = .decoderMemoryLimit got maxDecoderBufferBytes

/-- The call gets as far as storing the packet. -/
def Stores (decoder : LtDecoder) (neighbors : Nat → List Nat) (id : Nat) : Prop :=
  decoder.pending.get? id = none ∧ decoder.missing neighbors id ≠ [] ∧ id < maxEncodedPerChunk ∧
    (decoder.pending.size + 1) * decoder.symbolLen ≤ maxDecoderBufferBytes

/-- **One call.**  Either the packet is received and the invariant holds again, or it is refused. -/
theorem ingest_spec (lengths : ∀ n < k, (symbol n).length = len)
    (consistent : Consistent sampler len sourceLen symbol received decoder)
    (idle : decoder.degree1Queue = []) (id : Nat) :
    (∃ after, ingest sampler.neighbors decoder id (xorSum len symbol (sampler.neighbors id)) =
        (.ok after.isComplete, after) ∧
      Consistent sampler len sourceLen symbol (received ++ [id]) after ∧ after.degree1Queue = [] ∧
      (after = decoder ∨ decoder.Stores sampler.neighbors id ∧ ∀ other,
        after.pending.get? other ≠ none → decoder.pending.get? other ≠ none ∨ other = id)) ∨
    ∃ err, ingest sampler.neighbors decoder id (xorSum len symbol (sampler.neighbors id)) =
        (.error err, decoder) ∧ Refusal id err := by
  have inside := sampler.inside id
  have length : (xorSum len symbol (sampler.neighbors id)).length = decoder.symbolLen := by
    rw [consistent.symbolLen_eq, length_xorSum fun n member => lengths n (inside n member)]
  have nothing : (∀ n ∈ sampler.neighbors id, decoder.source? n ≠ none) →
      decoder.missing sampler.neighbors id = [] := by
    intro all
    rw [missing, List.filter_eq_nil_iff]
    intro n member none
    exact all n member (Option.isNone_iff_eq_none.1 none)
  rw [ingest]
  by_cases complete : decoder.isComplete = true
  · rw [if_pos complete]
    refine .inl ⟨decoder, by rw [complete],
      consistent.receive (.inr (nothing fun n member => ?_)), idle, .inl rfl⟩
    exact consistent.complete_iff.1 complete n (inside n member)
  rw [if_neg complete, if_neg fun other => other length]
  by_cases beyond : maxEncodedPerChunk ≤ id
  · rw [if_pos beyond]
    exact .inr ⟨_, rfl, .inl ⟨rfl, beyond⟩⟩
  rw [if_neg beyond]
  by_cases held : (decoder.pending.get? id).isSome = true
  · rw [if_pos held]
    exact .inl ⟨decoder, rfl, consistent.receive (.inl (Option.isSome_iff_ne_none.1 held)), idle,
      .inl rfl⟩
  rw [if_neg held]
  simp only []
  split
  · exact .inr ⟨_, rfl, .inr ⟨_, rfl⟩⟩
  split
  · exact .inr ⟨_, rfl, .inr ⟨_, rfl⟩⟩
  rename_i room
  have start : xorSum len symbol (sampler.neighbors id) =
      xorBytes (xorSum len symbol []) (xorSum len symbol (sampler.neighbors id)) := by
    rw [xorSum_nil, xorBytes_comm,
      xorBytes_zeros (length_xorSum fun n member => lengths n (inside n member))]
  rw [consistent.preXor lengths inside (fun n member => absurd member List.not_mem_nil) start,
    List.nil_append]
  simp only []
  split
  · rename_i none
    exact .inl ⟨decoder, rfl, consistent.receive (.inr none), idle, .inl rfl⟩
  · rename_i wanting
    have new : decoder.pending.get? id = none := Option.not_isSome_iff_eq_none.1 held
    have fresh : id ∉ received := fun old =>
      (consistent.covered id old).elim (fun present => present new) wanting
    obtain ⟨after, run, kept, drained, fewer⟩ :=
      propagate_spec lengths _ (consistent.insert new fresh)
    left
    refine ⟨after, ?_, kept, drained, .inr ⟨⟨new, wanting, Nat.lt_of_not_le beyond,
      Nat.le_of_not_lt room⟩, fun other present => ?_⟩⟩
    · have whole : (sampler.neighbors id).filter (fun n => (decoder.source? n).isNone) =
          decoder.missing sampler.neighbors id := rfl
      rw [whole, run]
    · have here := fewer other present
      simp only [OrderedDict.get?_set] at here
      by_cases own : id = other
      · exact .inr own.symm
      · rw [if_neg own] at here
        exact .inl here

/-! ## Runs -/

/-- What is resolved is closed under peeling once the queue is empty. -/
theorem Consistent.closed (consistent : Consistent sampler len sourceLen symbol received decoder)
    (idle : decoder.degree1Queue = []) :
    PeelClosed sampler.neighbors (· ∈ received) fun n => decoder.source? n ≠ none := by
  intro id held target mentioned others none
  have single : decoder.missing sampler.neighbors id = [target] := by
    have subset : ∀ n ∈ decoder.missing sampler.neighbors id, n = target := by
      intro n member
      obtain ⟨mentioned', absent⟩ := List.mem_filter.1 member
      by_contra apart
      exact others n mentioned' apart (Option.isNone_iff_eq_none.1 absent)
    have member : target ∈ decoder.missing sampler.neighbors id :=
      List.mem_filter.2 ⟨mentioned, Option.isNone_iff_eq_none.2 none⟩
    have nodup := Consistent.missing_nodup decoder sampler id
    cases shape : decoder.missing sampler.neighbors id with
    | nil =>
      rw [shape] at member
      exact absurd member List.not_mem_nil
    | cons first rest =>
      rw [shape] at subset nodup
      have head := subset first List.mem_cons_self
      cases rest with
      | nil => rw [head]
      | cons second rest =>
        have next := subset second (List.mem_cons_of_mem first List.mem_cons_self)
        rw [head, next] at nodup
        exact absurd List.mem_cons_self (List.nodup_cons.1 nodup).1
  rcases consistent.covered id held with present | empty
  · obtain ⟨packet, found⟩ := Option.ne_none_iff_exists'.1 present
    have degree : packet.neighbors.length = 1 := by
      rw [(consistent.packets id packet found).2.1, single]
      rfl
    have queued := consistent.queued id packet found degree
    rw [idle] at queued
    exact List.not_mem_nil queued
  · rw [single] at empty
    exact List.cons_ne_nil _ _ empty

/-- **Between calls the resolved symbols are exactly the peeling closure.** -/
theorem Consistent.resolved_iff (consistent : Consistent sampler len sourceLen symbol received decoder)
    (idle : decoder.degree1Queue = []) (n : Nat) :
    decoder.source? n ≠ none ↔ Peeled sampler.neighbors (· ∈ received) n :=
  ⟨consistent.sound n, peeled_least (consistent.closed idle)⟩

/-- A complete decoder finishes with its symbols one after the other. -/
theorem Consistent.finish_eq (consistent : Consistent sampler len sourceLen symbol received decoder)
    (complete : decoder.isComplete = true) :
    decoder.finish = .ok (((List.range k).flatMap symbol).take sourceLen) := by
  have slots : decoder.sources = (List.range k).map fun n => some (symbol n) := by
    refine List.ext_getElem (by simp [consistent.slots]) fun n left right => ?_
    have inside : n < k := consistent.slots ▸ left
    have read : decoder.source? n = decoder.sources[n] := by
      rw [source?, List.getD_eq_getElem?_getD, List.getElem?_eq_getElem left]
      rfl
    obtain ⟨text, found⟩ :=
      Option.ne_none_iff_exists'.1 (consistent.complete_iff.1 complete n inside)
    rw [← read, found, List.getElem_map, List.getElem_range, consistent.truth n text found]
  have every : decoder.sources.mapM (resolvedOr (.incompleteDecode decoder.resolved decoder.k)) =
      .ok ((List.range k).map symbol) := by
    rw [slots, List.mapM_map]
    exact mapM_eq_map fun n _ => rfl
  rw [finish, require_of complete, ok_bind, every, ok_bind, consistent.sourceLen_eq, List.flatMap_def]
  rfl

end LtDecoder

/-- The ids received so far, the calls refused, and the decoder they left. -/
structure Reception where
  received : List Nat
  refused : List (Nat × FountainError)
  decoder : LtDecoder
deriving DecidableEq

/-- One call of `ingest` with the symbol that the encoder makes for an id. -/
def receive (encoder : LtEncoder) (sampler : Sampler encoder.k) (reception : Reception) (id : Nat) :
    Reception :=
  match reception.decoder.ingest sampler.neighbors id (encoder.encodeSymbol sampler id) with
  | (.ok _, after) => ⟨reception.received ++ [id], reception.refused, after⟩
  | (.error err, after) => ⟨reception.received, reception.refused ++ [(id, err)], after⟩

/-- The calls made so far, each received or refused. -/
structure Accounted (calls : List Nat) (reception : Reception) : Prop where
  every : ∀ id ∈ calls, id ∈ reception.received ∨ ∃ err, (id, err) ∈ reception.refused
  refusals : ∀ id err, (id, err) ∈ reception.refused → LtDecoder.Refusal id err

variable {source : List UInt8} {symbolLen : Nat} {encoder : LtEncoder}

/-- What holds of a reception between calls. -/
structure Received (encoder : LtEncoder) (sampler : Sampler encoder.k) (symbolLen sourceLen : Nat)
    (calls : List Nat) (reception : Reception) : Prop where
  accounted : Accounted calls reception
  consistent : reception.decoder.Consistent sampler symbolLen sourceLen encoder.sourceSymbol
    reception.received
  idle : reception.decoder.degree1Queue = []

theorem Received.step (cut : Cut source symbolLen encoder) {sampler : Sampler encoder.k}
    {sourceLen : Nat} {calls : List Nat} {reception : Reception}
    (before : Received encoder sampler symbolLen sourceLen calls reception) (id : Nat) :
    Received encoder sampler symbolLen sourceLen (calls ++ [id])
      (receive encoder sampler reception id) := by
  have every := before.accounted.every
  rw [receive, cut.encodeSymbol_eq]
  rcases LtDecoder.ingest_spec (fun n inside => cut.length_sourceSymbol inside) before.consistent
    before.idle id with ⟨after, run, consistent, idle, -⟩ | ⟨err, run, refusal⟩
  · rw [run]
    refine ⟨⟨fun other called => ?_, before.accounted.refusals⟩, consistent, idle⟩
    rcases List.mem_append.1 called with old | new
    · exact (every other old).imp_left (List.mem_append_left _)
    · exact .inl (List.mem_append_right _ new)
  · rw [run]
    refine ⟨⟨fun other called => ?_, fun other err' member => ?_⟩, before.consistent, before.idle⟩
    · rcases List.mem_append.1 called with old | new
      · exact (every other old).imp_right fun ⟨err', member⟩ => ⟨err', List.mem_append_left _ member⟩
      · rw [List.mem_singleton.1 new]
        exact .inr ⟨err, List.mem_append_right _ (List.mem_singleton.2 rfl)⟩
    · rcases List.mem_append.1 member with old | new
      · exact before.accounted.refusals other err' old
      · obtain ⟨rfl, rfl⟩ := Prod.mk.inj (List.mem_singleton.1 new)
        exact refusal

theorem received_run (cut : Cut source symbolLen encoder) {sampler : Sampler encoder.k}
    {sourceLen : Nat} {calls : List Nat} {reception : Reception}
    (before : Received encoder sampler symbolLen sourceLen calls reception) (ids : List Nat) :
    Received encoder sampler symbolLen sourceLen (calls ++ ids)
      (run (receive encoder sampler) reception ids) := by
  induction ids generalizing calls reception with
  | nil =>
    rw [List.append_nil]
    exact before
  | cons id ids ih =>
    have later := ih (before.step cut id)
    rwa [List.append_assoc] at later

/-- The decoder for the shape of an encoder, and that it starts consistent. -/
theorem new_received (cut : Cut source symbolLen encoder) (sampler : Sampler encoder.k) :
    ∃ decoder, LtDecoder.new encoder.k symbolLen source.length = .ok decoder ∧
      Received encoder sampler symbolLen source.length [] ⟨[], [], decoder⟩ := by
  have representable : encoder.k * symbolLen ≤ usizeMax :=
    (Nat.mul_le_mul cut.countFits cut.symbolFits).trans (by decide)
  refine ⟨⟨encoder.k, symbolLen, source.length, List.replicate encoder.k none, .empty, .empty, [], 0⟩,
    ?_, ⟨fun id called => absurd called List.not_mem_nil,
      fun id err member => absurd member List.not_mem_nil⟩, ?_, rfl⟩
  · rw [LtDecoder.new, require_of ⟨cut.countPositive.ne', cut.countFits⟩, ok_bind,
      require_of ⟨cut.positive.ne', cut.symbolFits⟩, ok_bind, require_of cut.sourceFits, ok_bind,
      require_of representable, ok_bind, require_of cut.covers]
    rfl
  · have blank : ∀ n, (List.replicate encoder.k (none : Option (List UInt8))).getD n none = none := by
      intro n
      rw [List.getD_eq_getElem?_getD, List.getElem?_replicate]
      split <;> rfl
    refine ⟨rfl, rfl, rfl, List.length_replicate, ?_, ?_, ?_, ?_, ?_, ?_, ?_, ?_, ?_⟩
    · intro n text resolved
      exact absurd ((blank n).symm.trans resolved) (by simp)
    · show 0 = (List.replicate encoder.k (none : Option (List UInt8))).countP Option.isSome
      rw [List.countP_replicate]
      rfl
    · intro n resolved
      exact absurd (blank n) resolved
    · intro id packet present
      exact absurd present (by simp)
    · intro id held
      exact absurd held List.not_mem_nil
    · intro id packet n present
      exact absurd present (by simp)
    · intro id n member
      exact absurd member List.not_mem_nil
    · intro id packet present
      exact absurd present (by simp)
    · intro id packet present
      exact absurd present (by simp)

/-- **The decoder computes the peeling closure of what it received**, whatever came in which order. -/
theorem resolves_closure (source : List UInt8) (symbolLen : Nat) (encoder : LtEncoder)
    (made : LtEncoder.new source symbolLen = .ok encoder) (sampler : Sampler encoder.k) :
    ∃ decoder, LtDecoder.new encoder.k symbolLen source.length = .ok decoder ∧ ∀ ids,
      let reached := run (receive encoder sampler) ⟨[], [], decoder⟩ ids
      Accounted ids reached ∧
      (∀ n text, reached.decoder.source? n = some text → text = encoder.sourceSymbol n) ∧
      reached.decoder.resolved = reached.decoder.sources.countP Option.isSome ∧
      (∀ n, reached.decoder.source? n ≠ none ↔ Peeled sampler.neighbors (· ∈ reached.received) n) ∧
      (∀ ids', let reached' := run (receive encoder sampler) ⟨[], [], decoder⟩ ids'
        (∀ id, id ∈ reached.received ↔ id ∈ reached'.received) →
          ∀ n, reached.decoder.source? n = reached'.decoder.source? n) ∧
      ((∀ n < encoder.k, reached.decoder.source? n ≠ none) → reached.decoder.finish = .ok source) := by
  have cut := new_cut made
  obtain ⟨decoder, new, start⟩ := new_received cut sampler
  refine ⟨decoder, new, fun ids => ?_⟩
  have after : ∀ ids, Received encoder sampler symbolLen source.length ids
      (run (receive encoder sampler) ⟨[], [], decoder⟩ ids) := received_run cut start
  have closure : ∀ ids n, _ := fun ids n => (after ids).consistent.resolved_iff (after ids).idle n
  refine ⟨(after ids).accounted, (after ids).consistent.truth, (after ids).consistent.count,
    closure ids, fun ids' same n => ?_, fun all => ?_⟩
  · have sets : (· ∈ (run (receive encoder sampler) ⟨[], [], decoder⟩ ids).received) =
        (· ∈ (run (receive encoder sampler) ⟨[], [], decoder⟩ ids').received) :=
      funext fun id => propext (same id)
    have both := (closure ids n).trans (sets ▸ (closure ids' n).symm)
    cases left : (run (receive encoder sampler) ⟨[], [], decoder⟩ ids).decoder.source? n with
    | none =>
      by_contra other
      exact both.2 (Ne.symm other) left
    | some text =>
      obtain ⟨text', right⟩ := Option.ne_none_iff_exists'.1 (both.1 (by rw [left]; simp))
      rw [right, (after ids).consistent.truth n text left, (after ids').consistent.truth n text' right]
  · rw [(after ids).consistent.finish_eq ((after ids).consistent.complete_iff.2 all),
      cut.symbols_source]

/-- One packet over both symbols, every other over the second. -/
def pairSampler : Sampler 2 where
  neighbors id := if id = 0 then [0, 1] else [1]
  nonempty id := by split <;> simp
  distinct id := by split <;> simp
  inside id n := by
    split <;> simp <;> omega

theorem resolves_closure_pair : ∃ decoder, LtDecoder.new 2 1 2 = .ok decoder ∧ ∀ ids,
    let reached := run (receive ⟨[3, 5], 2, 1, none⟩ pairSampler) ⟨[], [], decoder⟩ ids
    (∀ n < 2, reached.decoder.source? n ≠ none) → reached.decoder.finish = .ok [3, 5] := by
  obtain ⟨decoder, new, spec⟩ := resolves_closure [3, 5] 1 ⟨[3, 5], 2, 1, none⟩ rfl pairSampler
  exact ⟨decoder, new, fun ids => (spec ids).2.2.2.2.2⟩

end OneLink.Fountain
