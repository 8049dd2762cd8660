/-
# ChunkStore.Memtable — where each chunk lies

A chunk's location names a log file and an offset in it; packed into one word it
is the anchor of a manifest record.  The memtable maps chunk ids to locations
behind a Bloom filter.  The filter comes from a crate: it is a parameter, with the
law the memtable relies on, that what was set is found.
-/
import OneLink.ChunkStore.Record
import OneLink.Library.OrderedDict

namespace OneLink.ChunkStore

open Library

set_option autoImplicit false

abbrev ChunkId := FixedBytes 32

/-! ## Locations and anchors -/

def anchorOffsetBits : Nat := 32

def u32Max : Nat := 0xFFFFFFFF

def encodeChunkLogAnchor (fileId walOffset : Nat) : Except ChunkStoreError UInt64 := do
  require (¬ (fileId = 0 ∨ fileId > u32Max ∨ walOffset > u32Max))
    (.anchorCoordinateOutOfRange fileId walOffset)
  return UInt64.ofNat (fileId <<< anchorOffsetBits ||| walOffset)

/-- `0` means no chunk; an anchor with a zero high word is an offset in file 1. -/
def decodeChunkLogAnchor (anchor : UInt64) : Option (Nat × Nat) :=
  if anchor = 0 then none
  else
    some (if anchor.toNat >>> anchorOffsetBits = 0 then 1 else anchor.toNat >>> anchorOffsetBits,
      anchor.toNat &&& u32Max)

structure ChunkLocation where
  fileId : Nat
  walOffset : Nat
  lengthPlaintext : UInt32
  lengthCiphertext : UInt32
  ratchetKeyId : FixedBytes 16
  stripeDescriptor : StripeDescriptor
deriving DecidableEq

def ChunkLocation.manifestAnchor (l : ChunkLocation) : Except ChunkStoreError UInt64 :=
  encodeChunkLogAnchor l.fileId l.walOffset

/-! ## The memtable -/

/-- The `bloomfilter` crate: what was set is found, whatever is set after it. -/
structure BloomFilter where
  Filter : Type
  /-- For an expected number of entries; `none` when none could be made. -/
  make : Nat → Option Filter
  set : Filter → ChunkId → Filter
  check : Filter → ChunkId → Bool
  check_set : ∀ f id, check (set f id) id = true
  check_keeps : ∀ f id other, check f id = true → check (set f other) id = true

def maxMemtableCapacityHint : Nat := 256 * 1024

variable (B : BloomFilter)

def bloomCheck (bloom : Option B.Filter) (id : ChunkId) : Bool :=
  match bloom with
  | some filter => B.check filter id
  | none => true

structure Memtable where
  map : OrderedDict ChunkId ChunkLocation
  bloom : Option B.Filter
  /-- The filter knows every chunk of the map. -/
  known : ∀ id, (map.get? id).isSome → bloomCheck B bloom id = true

namespace Memtable

def withCapacity (expectedChunks : Nat) : Memtable B where
  map := .empty
  bloom := B.make (min (max expectedChunks 8) maxMemtableCapacityHint)
  known := by simp

variable {B} (m : Memtable B)

def len : Nat := m.map.size

def insert (id : ChunkId) (location : ChunkLocation) : Memtable B where
  map := m.map.set id location
  bloom := m.bloom.map (B.set · id)
  known := by
    intro other present
    cases filter : m.bloom with
    | none => rfl
    | some f =>
      show B.check (B.set f id) other = true
      by_cases same : id = other
      · rw [← same]
        exact B.check_set f id
      · rw [OrderedDict.get?_set_of_ne _ same] at present
        have before := m.known other present
        rw [filter] at before
        exact B.check_keeps f other id before

def contains (id : ChunkId) : Bool := bloomCheck B m.bloom id && (m.map.get? id).isSome

def get (id : ChunkId) : Option ChunkLocation :=
  if ¬ bloomCheck B m.bloom id then none else m.map.get? id

theorem get_eq (id : ChunkId) : m.get id = m.map.get? id := by
  unfold get
  by_cases check : bloomCheck B m.bloom id = true
  · simp [check]
  · have absent : m.map.get? id = none := by
      rw [← Option.not_isSome_iff_eq_none]
      exact fun present => check (m.known id present)
    simp [check, absent]

theorem contains_eq (id : ChunkId) : m.contains id = (m.get id).isSome := by
  rw [get_eq]
  unfold contains
  by_cases present : (m.map.get? id).isSome
  · rw [m.known id present, present]
    rfl
  · simp [present]

@[simp] theorem get_withCapacity (n : Nat) (id : ChunkId) : (withCapacity B n).get id = none := by
  rw [get_eq]
  rfl

theorem get_insert (id other : ChunkId) (location : ChunkLocation) :
    (m.insert id location).get other = if id = other then some location else m.get other := by
  rw [get_eq, get_eq]
  exact OrderedDict.get?_set _ _ _ _

end Memtable

end OneLink.ChunkStore
