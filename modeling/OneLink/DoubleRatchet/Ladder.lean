/-
# DoubleRatchet.Ladder — the rungs two ratchets climb together

Across a session the two parties draw one sequence of key pairs: rung 0 is
Bob's prekey, rung 1 Alice's first key, and each DH ratchet adds the next.
Rung `k` and rung `k + 1` give root `k + 1` and chain `k`; the party on rung
`L` sends on chain `L - 1` and receives on chain `L - 2`.  A `Ladder` records
the rungs and how many messages each chain has carried.  It is a ghost: the
parties hold only their own end of it.

`Stash` says what a receiver's skipped keys are, by position on the ladder.
Each operation of the receiver has one lemma here.
-/
import OneLink.DoubleRatchet.Session

namespace OneLink.DoubleRatchet

open Library

set_option autoImplicit false

variable {Key Priv : Type}

/-- A message's place: its chain and its number there. -/
abbrev Position := Nat × Nat

/-- The order in which one sender seals. -/
def Before (q q' : Position) : Prop := q.1 < q'.1 ∨ q.1 = q'.1 ∧ q.2 < q'.2

theorem Before.trans {q q' q'' : Position} (first : Before q q') (second : Before q' q'') :
    Before q q'' := by
  unfold Before at *
  omega

theorem Before.ne {q q' : Position} (before : Before q q') : q ≠ q' := by
  rintro rfl
  unfold Before at before
  omega

theorem Before.fst_le {q q' : Position} (before : Before q q') : q.1 ≤ q'.1 := by
  unfold Before at before
  omega

structure Ladder (Key Priv : Type) where
  key : Nat → Priv
  root : Nat → Key
  chain : Nat → Key
  /-- messages sealed on each chain -/
  count : Nat → Nat

variable (P : Primitives Key Priv)

namespace Ladder

def idOf (l : Ladder Key Priv) (q : Position) : MessageId := (P.publicBytes (l.key (q.1 + 1)), q.2)

def keyAt (l : Ladder Key Priv) (q : Position) : Key :=
  messageKey P ((nextChain P)^[q.2] (l.chain q.1))

/-- `prev_send_n` of the party on rung `L`. -/
def prevCount (l : Ladder Key Priv) (L : Nat) : Nat := if L < 3 then 0 else l.count (L - 3)

/-- One more message on chain `k`. -/
def sealOn (l : Ladder Key Priv) (k : Nat) : Ladder Key Priv :=
  { l with count := Function.update l.count k (l.count k + 1) }

/-- A new rung above `top`. -/
def extend (l : Ladder Key Priv) (top : Nat) (fresh : Priv) : Ladder Key Priv :=
  let step := kdfRoot P (l.root top) (P.exchange (l.key top) (P.publicBytes fresh))
  { l with
    key := Function.update l.key (top + 1) fresh
    root := Function.update l.root (top + 1) step.1
    chain := Function.update l.chain top step.2 }

end Ladder

/-- The rungs up to `top` are built from drawn keys by the root steps of the code. -/
structure Climbs (secret : Key) (l : Ladder Key Priv) (top : Nat) (generated : List Priv) :
    Prop where
  base : l.root 0 = secret
  step : ∀ k < top, kdfRoot P (l.root k) (P.exchange (l.key k) (P.publicBytes (l.key (k + 1)))) =
    (l.root (k + 1), l.chain k)
  drawn : ∀ k ≤ top, l.key k ∈ generated
  distinct : ∀ j k, j ≤ top → k ≤ top →
    P.publicBytes (l.key j) = P.publicBytes (l.key k) → j = k

variable {P}

section Climbs

variable {secret : Key} {l : Ladder Key Priv} {top : Nat} {generated : List Priv}

theorem Climbs.idOf_inj (climbs : Climbs P secret l top generated) {q q' : Position}
    (low : q.1 < top) (low' : q'.1 < top) (same : l.idOf P q = l.idOf P q') : q = q' := by
  simp only [Ladder.idOf, Prod.mk.injEq] at same
  have := climbs.distinct _ _ low low' same.1
  exact Prod.ext (by omega) same.2

/-- No two rungs share a root. -/
theorem Climbs.root_inj (climbs : Climbs P secret l top generated) (ideal : Ideal P secret) :
    ∀ j k, j ≤ top → k ≤ top → l.root j = l.root k → j = k := by
  have rootStep : ∀ k < top, ∃ out, l.root (k + 1) = (kdfRoot P (l.root k) out).1 := by
    intro k low
    exact ⟨_, (congrArg Prod.fst (climbs.step k low)).symm⟩
  intro j
  induction j with
  | zero =>
    intro k _ kLow same
    cases k with
    | zero => rfl
    | succ k =>
      obtain ⟨out, step⟩ := rootStep k (by omega)
      rw [climbs.base, step] at same
      exact absurd same.symm (ideal.secret_fresh _ _)
  | succ j ih =>
    intro k jLow kLow same
    obtain ⟨out, step⟩ := rootStep j (by omega)
    cases k with
    | zero =>
      rw [climbs.base, step] at same
      exact absurd same (ideal.secret_fresh _ _)
    | succ k =>
      obtain ⟨out', step'⟩ := rootStep k (by omega)
      rw [step, step'] at same
      rw [ih k (by omega) (by omega) (ideal.root_injective _ _ _ _ same)]

theorem Climbs.more (climbs : Climbs P secret l top generated) (more : List Priv) :
    Climbs P secret l top (generated ++ more) where
  base := climbs.base
  step := climbs.step
  drawn := fun k low => List.mem_append_left _ (climbs.drawn k low)
  distinct := climbs.distinct

theorem Climbs.sealOn (climbs : Climbs P secret l top generated) (k : Nat) :
    Climbs P secret (l.sealOn k) top generated :=
  ⟨climbs.base, climbs.step, climbs.drawn, climbs.distinct⟩

theorem Ladder.extend_key {fresh : Priv} {k : Nat} (low : k ≤ top) :
    (l.extend P top fresh).key k = l.key k :=
  Function.update_of_ne (by omega) _ _

theorem Ladder.extend_root {fresh : Priv} {k : Nat} (low : k ≤ top) :
    (l.extend P top fresh).root k = l.root k :=
  Function.update_of_ne (by omega) _ _

theorem Ladder.extend_chain {fresh : Priv} {k : Nat} (low : k < top) :
    (l.extend P top fresh).chain k = l.chain k :=
  Function.update_of_ne (by omega) _ _

theorem Climbs.extend (climbs : Climbs P secret l top generated) {fresh : Priv}
    (keys : FreshKeys P (generated ++ [fresh])) :
    Climbs P secret (l.extend P top fresh) (top + 1) (generated ++ [fresh]) where
  base := by rw [Ladder.extend_root (Nat.zero_le _), climbs.base]
  step := by
    intro k low
    by_cases last : k = top
    · subst last
      rw [Ladder.extend_root (Nat.le_refl _), Ladder.extend_key (Nat.le_refl _)]
      simp [Ladder.extend]
    · rw [Ladder.extend_root (by omega), Ladder.extend_root (by omega),
        Ladder.extend_key (by omega), Ladder.extend_key (by omega),
        Ladder.extend_chain (by omega), climbs.step k (by omega)]
  drawn := by
    intro k low
    by_cases last : k = top + 1
    · subst last
      simp [Ladder.extend]
    · rw [Ladder.extend_key (by omega)]
      exact List.mem_append_left _ (climbs.drawn k (by omega))
  distinct := by
    have newest : (l.extend P top fresh).key (top + 1) = fresh := by simp [Ladder.extend]
    intro j k jLow kLow same
    by_cases jLast : j = top + 1
    · by_cases kLast : k = top + 1
      · omega
      · rw [jLast, newest, Ladder.extend_key (by omega)] at same
        exact absurd same.symm (keys.new_ne (climbs.drawn k (by omega)))
    · by_cases kLast : k = top + 1
      · rw [kLast, newest, Ladder.extend_key (by omega)] at same
        exact absurd same (keys.new_ne (climbs.drawn j (by omega)))
      · rw [Ladder.extend_key (by omega), Ladder.extend_key (by omega)] at same
        exact climbs.distinct j k (by omega) (by omega) same

end Climbs

/-! ## The stash of a receiver -/

/-- A receiver that has come to `front`: the messages before it are opened (`gone`)
or were stashed, in this order (`hist`), and what the stash still holds are their keys. -/
structure Stash (P : Primitives Key Priv) (l : Ladder Key Priv) (front : Position)
    (skipped : Skipped Key) (gone : MessageId → Prop) (hist : List Position) : Prop where
  window : skipped.Window maxSkipKeys (hist.map (l.idOf P)) gone
  entries : ∀ id key, skipped.get? id = some key →
    ¬ gone id ∧ ∃ q ∈ hist, id = l.idOf P q ∧ key = l.keyAt P q
  sorted : hist.Pairwise Before
  stashed : ∀ q ∈ hist, q.1 % 2 = front.1 % 2 ∧ q.2 < l.count q.1 ∧ Before q front
  opened : ∀ id, gone id → ∃ q, id = l.idOf P q ∧ q.1 % 2 = front.1 % 2 ∧ Before q front
  covers : ∀ q, q.1 % 2 = front.1 % 2 → q.2 < l.count q.1 → Before q front →
    gone (l.idOf P q) ∨ q ∈ hist
  reached : front.2 ≤ l.count front.1

namespace Stash

variable {l : Ladder Key Priv} {front : Position} {skipped : Skipped Key}
  {gone : MessageId → Prop} {hist : List Position}

theorem empty {L : Nat} (low : L < 2) :
    Stash P l (L, 0) (OrderedDict.empty : Skipped Key) (fun _ => False) [] where
  window := .empty _
  entries := by
    intro id key present
    simp at present
  sorted := List.Pairwise.nil
  stashed := by simp
  opened := by simp
  covers := by
    intro q parity _ before
    simp only [Before] at before
    omega
  reached := Nat.zero_le _

/-- Another ladder that agrees below the front. -/
theorem of_agree {l' : Ladder Key Priv} (stash : Stash P l front skipped gone hist)
    (agree : ∀ q : Position, q.1 % 2 = front.1 % 2 → Before q front →
      l'.idOf P q = l.idOf P q ∧ l'.keyAt P q = l.keyAt P q ∧
        (q.2 < l'.count q.1 ↔ q.2 < l.count q.1))
    (reached : front.2 ≤ l'.count front.1) : Stash P l' front skipped gone hist where
  window := by
    have sameIds : hist.map (l'.idOf P) = hist.map (l.idOf P) :=
      List.map_congr_left fun q member =>
        (agree q (stash.stashed q member).1 (stash.stashed q member).2.2).1
    rw [sameIds]
    exact stash.window
  entries := by
    intro id key present
    obtain ⟨unopened, q, member, rfl, rfl⟩ := stash.entries id key present
    obtain ⟨parity, -, before⟩ := stash.stashed q member
    obtain ⟨sameId, sameKey, -⟩ := agree q parity before
    exact ⟨unopened, q, member, sameId.symm, sameKey.symm⟩
  sorted := stash.sorted
  stashed := by
    intro q member
    obtain ⟨parity, counted, before⟩ := stash.stashed q member
    exact ⟨parity, (agree q parity before).2.2.mpr counted, before⟩
  opened := by
    intro id isGone
    obtain ⟨q, rfl, parity, before⟩ := stash.opened id isGone
    exact ⟨q, (agree q parity before).1.symm, parity, before⟩
  covers := by
    intro q parity counted before
    obtain ⟨sameId, -, sameCount⟩ := agree q parity before
    rw [sameId]
    exact stash.covers q parity (sameCount.mp counted) before
  reached := reached

/-- The positions from `n` on that a skip loop passes over on one chain. -/
def block (k n count : Nat) : List Position := (List.range' n count).map fun m => (k, m)

theorem mem_block {k n count : Nat} {q : Position} :
    q ∈ block k n count ↔ q.1 = k ∧ n ≤ q.2 ∧ q.2 < n + count := by
  obtain ⟨j, m⟩ := q
  simp only [block, List.mem_map, List.mem_range'_1, Prod.mk.injEq]
  constructor
  · rintro ⟨m, bounds, rfl, rfl⟩
    exact ⟨rfl, bounds⟩
  · rintro ⟨rfl, bounds⟩
    exact ⟨m, bounds, rfl, rfl⟩

theorem block_sorted (k n count : Nat) : (block k n count).Pairwise Before := by
  rw [block, List.pairwise_map]
  exact (List.pairwise_lt_range').imp fun less => .inr ⟨rfl, less⟩

/-- Nothing at or beyond the front has been opened. -/
theorem not_gone (stash : Stash P l front skipped gone hist)
    (inj : ∀ q q' : Position, q.1 ≤ front.1 → q'.1 ≤ front.1 →
      l.idOf P q = l.idOf P q' → q = q')
    {q : Position} (low : q.1 ≤ front.1) (ahead : ¬ Before q front) : ¬ gone (l.idOf P q) := by
  intro isGone
  obtain ⟨q', same, -, before⟩ := stash.opened _ isGone
  exact ahead (inj q q' low before.fst_le same ▸ before)

/-- `skipKeys` from the front on. -/
theorem skip {tooMany : Nat → RatchetError} {pastBound : RatchetError}
    {s s' : RatchetState Key Priv} {k stop : Nat}
    (stash : Stash P l (k, s.recvN) s.skipped gone hist)
    (inj : ∀ q q' : Position, q.1 ≤ k → q'.1 ≤ k → l.idOf P q = l.idOf P q' → q = q')
    (skips : skipKeys P tooMany pastBound s stop = .ok s')
    (onChain : s.recvChainKey = some ((nextChain P)^[s.recvN] (l.chain k)))
    (peer : s.dhRecvPub = some (P.publicBytes (l.key (k + 1))))
    (counted : stop ≤ l.count k) :
    ∃ skipped : Skipped Key,
      s' = { s with
        recvChainKey := some ((nextChain P)^[max s.recvN stop] (l.chain k))
        recvN := max s.recvN stop
        skipped := skipped } ∧
      Stash P l (k, max s.recvN stop) skipped gone
        (hist ++ block k s.recvN (stop - s.recvN)) := by
  have sorted : (hist ++ block k s.recvN (stop - s.recvN)).Pairwise Before := by
    rw [List.pairwise_append]
    refine ⟨stash.sorted, block_sorted _ _ _, ?_⟩
    intro q member q' member'
    have before := (stash.stashed q member).2.2
    have place := mem_block.mp member'
    simp only [Before] at before ⊢
    omega
  have ids : (hist ++ block k s.recvN (stop - s.recvN)).map (l.idOf P) =
      hist.map (l.idOf P) ++
        stashedIds (P.publicBytes (l.key (k + 1))) s.recvN (stop - s.recvN) := by
    simp [block, stashedIds, Ladder.idOf, Function.comp_def]
  have low : ∀ q ∈ hist ++ block k s.recvN (stop - s.recvN), q.1 ≤ k := by
    intro q member
    rcases List.mem_append.mp member with old | new
    · exact (stash.stashed q old).2.2.fst_le
    · exact (mem_block.mp new).1.le
  have distinct : ((hist ++ block k s.recvN (stop - s.recvN)).map (l.idOf P)).Nodup := by
    rw [List.Nodup, List.pairwise_map]
    refine sorted.imp_of_mem ?_
    intro q q' member member' before same
    exact before.ne (inj q q' (low q member) (low q' member') same)
  obtain ⟨skipped', rfl, window, entries⟩ :=
    skipKeys_eq_ok skips onChain peer stash.window (ids ▸ distinct)
  refine ⟨skipped', rfl, ?_⟩
  constructor
  case window => rw [ids]; exact window
  case sorted => exact sorted
  case entries =>
    intro id key present
    rcases entries id key present with old | ⟨m, lower, upper, rfl, rfl⟩
    · obtain ⟨unopened, q, member, rest⟩ := stash.entries id key old
      exact ⟨unopened, q, List.mem_append_left _ member, rest⟩
    · refine ⟨?_, (k, m), List.mem_append_right _ (mem_block.mpr ⟨rfl, lower, by simp; omega⟩),
        rfl, rfl⟩
      refine stash.not_gone inj (q := (k, m)) (Nat.le_refl _) ?_
      simp only [Before]
      omega
  case stashed =>
    intro q member
    rcases List.mem_append.mp member with old | new
    · obtain ⟨parity, small, before⟩ := stash.stashed q old
      simp only [Before] at before ⊢
      exact ⟨parity, small, by omega⟩
    · obtain ⟨rfl, lower, upper⟩ := mem_block.mp new
      refine ⟨rfl, by omega, .inr ⟨rfl, ?_⟩⟩
      show q.2 < max s.recvN stop
      omega
  case opened =>
    intro id isGone
    obtain ⟨q, same, parity, before⟩ := stash.opened id isGone
    simp only [Before] at before ⊢
    exact ⟨q, same, parity, by omega⟩
  case covers =>
    intro q parity small before
    by_cases old : Before q (k, s.recvN)
    · exact (stash.covers q parity small old).imp_right (List.mem_append_left _)
    · refine .inr (List.mem_append_right _ (mem_block.mpr ?_))
      simp only [Before] at before old
      omega
  case reached =>
    have := stash.reached
    simp only at this ⊢
    omega

/-- A finished chain: the front moves to the next chain of the same sender. -/
theorem jump {k n : Nat} (stash : Stash P l (k, n) skipped gone hist) (finished : l.count k ≤ n) :
    Stash P l (k + 2, 0) skipped gone hist where
  window := stash.window
  entries := stash.entries
  sorted := stash.sorted
  stashed := by
    intro q member
    obtain ⟨parity, small, before⟩ := stash.stashed q member
    simp only [Before] at before ⊢
    exact ⟨by omega, small, by omega⟩
  opened := by
    intro id isGone
    obtain ⟨q, same, parity, before⟩ := stash.opened id isGone
    simp only [Before] at before ⊢
    exact ⟨q, same, by omega, by omega⟩
  covers := by
    intro q parity small before
    refine stash.covers q (by simp only at parity ⊢; omega) small ?_
    obtain ⟨j, m⟩ := q
    simp only [Before] at before parity small ⊢
    by_cases last : j = k
    · subst last
      omega
    · omega
  reached := Nat.zero_le _

/-- The message at the front is opened. -/
theorem openHead {k n : Nat} (stash : Stash P l (k, n) skipped gone hist)
    (inj : ∀ q q' : Position, q.1 ≤ k → q'.1 ≤ k → l.idOf P q = l.idOf P q' → q = q')
    (counted : n < l.count k) :
    Stash P l (k, n + 1) skipped (fun id => id = l.idOf P (k, n) ∨ gone id) hist where
  window := stash.window.mono fun _ => .inr
  entries := by
    intro id key present
    obtain ⟨unopened, q, member, rfl, rfl⟩ := stash.entries id key present
    refine ⟨?_, q, member, rfl, rfl⟩
    rintro (same | isGone)
    · have before := (stash.stashed q member).2.2
      exact before.ne (inj q (k, n) before.fst_le (Nat.le_refl _) same)
    · exact unopened isGone
  sorted := stash.sorted
  stashed := by
    intro q member
    obtain ⟨parity, small, before⟩ := stash.stashed q member
    simp only [Before] at before ⊢
    exact ⟨parity, small, by omega⟩
  opened := by
    rintro id (rfl | isGone)
    · exact ⟨(k, n), rfl, rfl, .inr ⟨rfl, Nat.lt_succ_self _⟩⟩
    · obtain ⟨q, same, parity, before⟩ := stash.opened id isGone
      simp only [Before] at before ⊢
      exact ⟨q, same, parity, by omega⟩
  covers := by
    intro q parity small before
    by_cases here : q = (k, n)
    · exact .inl (.inl (by rw [here]))
    · have earlier : Before q (k, n) := by
        obtain ⟨j, m⟩ := q
        simp only [Before, Prod.mk.injEq] at before here ⊢
        omega
      exact (stash.covers q parity small earlier).imp_left .inr
  reached := counted

/-- A stashed message is opened, and its key consumed. -/
theorem openLate (stash : Stash P l front skipped gone hist) {id : MessageId} {key : Key}
    (present : skipped.get? id = some key) :
    Stash P l front (skipped.erase id) (fun id' => id' = id ∨ gone id') hist where
  window := stash.window.erase id
  entries := by
    intro id' key' present'
    rw [OrderedDict.get?_erase] at present'
    split at present'
    · cases present'
    · rename_i ne
      obtain ⟨unopened, rest⟩ := stash.entries id' key' present'
      exact ⟨fun either => either.elim (fun same => ne same.symm) unopened, rest⟩
  sorted := stash.sorted
  stashed := stash.stashed
  opened := by
    rintro id' (rfl | isGone)
    · obtain ⟨-, q, member, rfl, -⟩ := stash.entries _ key present
      obtain ⟨parity, -, before⟩ := stash.stashed q member
      exact ⟨q, rfl, parity, before⟩
    · exact stash.opened id' isGone
  covers := fun q parity small before => (stash.covers q parity small before).imp_left .inr
  reached := stash.reached

end Stash

end OneLink.DoubleRatchet
