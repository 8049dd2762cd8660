/-
# Canon.Codec — `CanonEncoder` and `CanonDecoder`

Every `encode_*` reserves room and appends its bytes; every `decode_*` expects its tag and
reads its payload.  A caller writes a tree of values in pre-order (`Tree.items`) and reads
it back with the matching calls.

A decoder that fails is left as it was before the call, which is what `transaction` is
for; here the old decoder is simply the one the caller still has.  A float is its bit
pattern; the calls that write and read one stand apart from the others (`Item`, `Call`), as
they are not inverse to each other.
-/
import OneLink.Canon.Varint
import OneLink.Library.FixedWidth

namespace OneLink.Canon

open Library

set_option autoImplicit false

def isizeMax : Nat := 2 ^ 63 - 1

namespace TypeTag

def toByte : TypeTag → UInt8
  | null => 0x00
  | false => 0x01
  | true => 0x02
  | uInt => 0x10
  | int => 0x11
  | float32 => 0x20
  | float64 => 0x21
  | string => 0x30
  | bytes => 0x31
  | array => 0x40
  | map => 0x50
  | struct => 0x60
  | enum => 0x70
  | none => 0x80
  | some => 0x81
  | timestamp => 0x90
  | uuid => 0x91
  | nodeId => 0xA0
  | vectorClock => 0xA1
  | hlc => 0xA2

def all : List TypeTag :=
  [null, false, true, uInt, int, float32, float64, string, bytes, array, map, struct, enum, none,
    some, timestamp, uuid, nodeId, vectorClock, hlc]

def fromByte (byte : UInt8) : Except DecodeError TypeTag :=
  match all.find? fun tag => tag.toByte = byte with
  | .some tag => .ok tag
  | .none => .error (.unknownTag byte)

@[simp] theorem fromByte_toByte (tag : TypeTag) : fromByte tag.toByte = .ok tag := by
  cases tag <;> rfl

end TypeTag

/-- Sixteen raw bytes. -/
structure Uuid where
  bytes : Bytes
  length : bytes.length = 16
  deriving DecidableEq

/-! ## `CanonEncoder` -/

inductive EncodeError where
  | bufferOverflow
  | sizeOverflow
  | allocationFailed
  deriving DecidableEq, Repr

structure CanonEncoder where
  buffer : Bytes
  maxSize : Nat

namespace CanonEncoder

def new : CanonEncoder := ⟨[], 0⟩

def withLimit (maxSize : Nat) : CanonEncoder := ⟨[], maxSize⟩

/-- A vector grows up to `isize::MAX` bytes; the allocator itself is taken to serve it. -/
def reserve (e : CanonEncoder) (n : Nat) : Except EncodeError Unit := do
  require (e.buffer.length + n < 2 ^ 64) .sizeOverflow
  require (¬ (e.maxSize > 0 ∧ e.buffer.length + n > e.maxSize)) .bufferOverflow
  require (e.buffer.length + n ≤ isizeMax) .allocationFailed

/-- Reserve `n` bytes, then append. -/
def append (e : CanonEncoder) (n : Nat) (bytes : Bytes) : Except EncodeError CanonEncoder := do
  e.reserve n
  return { e with buffer := e.buffer ++ bytes }

def encodeNull (e : CanonEncoder) := e.append 1 [TypeTag.null.toByte]

def encodeBool (e : CanonEncoder) (value : Bool) :=
  e.append 1 [if value then TypeTag.true.toByte else TypeTag.false.toByte]

def encodeU64 (e : CanonEncoder) (value : UInt64) :=
  e.append (1 + 10) (TypeTag.uInt.toByte :: encodeVarint value)

def encodeI64 (e : CanonEncoder) (value : Int64) :=
  e.append (1 + 10) (TypeTag.int.toByte :: encodeZigzag value)

/-- A tag, the length of the payload and the payload. -/
def encodePrefixed (e : CanonEncoder) (tag : TypeTag) (value : Bytes) :=
  e.append (1 + 10 + value.length)
    (tag.toByte :: (encodeVarint (UInt64.ofNat value.length) ++ value))

def encodeString (e : CanonEncoder) (value : String) :=
  e.encodePrefixed .string value.toUTF8.data.toList

def encodeBytes (e : CanonEncoder) (value : Bytes) := e.encodePrefixed .bytes value

def encodeNone (e : CanonEncoder) := e.append 1 [TypeTag.none.toByte]

def encodeSome (e : CanonEncoder) := e.append 1 [TypeTag.some.toByte]

def encodeArrayHeader (e : CanonEncoder) (len : UInt64) :=
  e.append (1 + 10) (TypeTag.array.toByte :: encodeVarint len)

def encodeMapHeader (e : CanonEncoder) (len : UInt64) :=
  e.append (1 + 10) (TypeTag.map.toByte :: encodeVarint len)

def encodeStructHeader (e : CanonEncoder) (typeId : UInt32) (fieldCount : UInt64) :=
  e.append (1 + 10 + 10)
    (TypeTag.struct.toByte :: (encodeVarint typeId.toUInt64 ++ encodeVarint fieldCount))

def encodeEnumHeader (e : CanonEncoder) (typeId variant : UInt32) :=
  e.append (1 + 10 + 10)
    (TypeTag.enum.toByte :: (encodeVarint typeId.toUInt64 ++ encodeVarint variant.toUInt64))

def encodeTimestamp (e : CanonEncoder) (micros : Int64) :=
  e.append (1 + 10) (TypeTag.timestamp.toByte :: encodeZigzag micros)

def encodeUuid (e : CanonEncoder) (id : Uuid) :=
  e.append (1 + 16) (TypeTag.uuid.toByte :: id.bytes)

def encodeNodeId (e : CanonEncoder) (nodeId : Bytes) := e.encodePrefixed .nodeId nodeId

end CanonEncoder

/-- `canonical_f32`: one pattern for every NaN, and no negative zero. -/
def canonicalF32 (bits : UInt32) : UInt32 :=
  if bits &&& 0x7FFFFFFF > 0x7F800000 then 0x7FC00000
  else if bits &&& 0x7FFFFFFF = 0 then 0
  else bits

/-- `canonical_f64` -/
def canonicalF64 (bits : UInt64) : UInt64 :=
  if bits &&& 0x7FFFFFFFFFFFFFFF > 0x7FF0000000000000 then 0x7FF8000000000000
  else if bits &&& 0x7FFFFFFFFFFFFFFF = 0 then 0
  else bits

def wireF32 (value : UInt32) : Bytes :=
  TypeTag.float32.toByte :: beBytes 4 (canonicalF32 value).toNat

def wireF64 (value : UInt64) : Bytes :=
  TypeTag.float64.toByte :: beBytes 8 (canonicalF64 value).toNat

def CanonEncoder.encodeF32 (e : CanonEncoder) (value : UInt32) := e.append (1 + 4) (wireF32 value)

def CanonEncoder.encodeF64 (e : CanonEncoder) (value : UInt64) := e.append (1 + 8) (wireF64 value)

/-! ## `CanonDecoder` -/

structure CanonDecoder where
  buffer : Bytes
  position : Nat

abbrev Reader := StateT CanonDecoder (Except DecodeError)

namespace CanonDecoder

def new (buffer : Bytes) : CanonDecoder := ⟨buffer, 0⟩

def remaining (d : CanonDecoder) : Nat := d.buffer.length - d.position

def isEmpty (d : CanonDecoder) : Bool := d.position ≥ d.buffer.length

def readByte : Reader UInt8 := fun d =>
  match d.buffer[d.position]? with
  | some byte => .ok (byte, { d with position := d.position + 1 })
  | none => .error (.unexpectedEof d.position)

def readTag : Reader TypeTag := do
  let byte ← readByte
  TypeTag.fromByte byte

def expectTag (expected : TypeTag) : Reader Unit := do
  let found ← readTag
  if found = expected then return () else throw (.tagMismatch expected found)

def readVarint : Reader UInt64 := fun d => do
  let (value, n) ← decodeVarint d.buffer d.position
  return (value, { d with position := d.position + n })

def readZigzag : Reader Int64 := fun d => do
  let (value, n) ← decodeZigzag d.buffer d.position
  return (value, { d with position := d.position + n })

/-- `usize` has 64 bits. -/
def readUsize : Reader UInt64 := readVarint

def readU32 : Reader UInt32 := do
  let value ← readVarint
  if value.toNat < 2 ^ 32 then return value.toUInt32
  else throw (.numericOverflow value.toNat "u32")

def validateCollectionCount (count minimumBytesPerItem : Nat) : Reader Unit := fun d => do
  require (count ≤ d.remaining / minimumBytesPerItem)
    (.collectionTooLarge count (d.remaining / minimumBytesPerItem))
  return ((), d)

def readSlice (len : Nat) : Reader Bytes := fun d => do
  require (len ≤ d.remaining) (.lengthOverflow len d.remaining)
  return ((d.buffer.drop d.position).take len, { d with position := d.position + len })

def decodeNull : Reader Unit := expectTag .null

def decodeBool : Reader Bool := do
  let tag ← readTag
  match tag with
  | .true => return true
  | .false => return false
  | other => throw (.tagMismatch .true other)

def decodeU64 : Reader UInt64 := do
  expectTag .uInt
  readVarint

def decodeI64 : Reader Int64 := do
  expectTag .int
  readZigzag

/-- The payload behind a tag and its length. -/
def decodePrefixed (tag : TypeTag) : Reader Bytes := do
  expectTag tag
  let len ← readUsize
  readSlice len.toNat

def decodeString : Reader String := do
  let slice ← decodePrefixed .string
  match String.fromUTF8? ⟨slice.toArray⟩ with
  | some value => return value
  | none => throw .invalidUtf8

def decodeBytes : Reader Bytes := decodePrefixed .bytes

/-- A count behind a tag, at most as large as the bytes ahead allow. -/
def decodeCount (tag : TypeTag) (minimumBytesPerItem : Nat) : Reader UInt64 := do
  expectTag tag
  let count ← readUsize
  validateCollectionCount count.toNat minimumBytesPerItem
  return count

def decodeArrayHeader : Reader UInt64 := decodeCount .array 1

def decodeMapHeader : Reader UInt64 := decodeCount .map 2

def decodeNone : Reader Unit := expectTag .none

def decodeSome : Reader Unit := expectTag .some

def decodeTimestamp : Reader Int64 := do
  expectTag .timestamp
  readZigzag

def decodeUuid : Reader Uuid := do
  expectTag .uuid
  let slice ← readSlice 16
  if sixteen : slice.length = 16 then return ⟨slice, sixteen⟩
  else throw (.lengthOverflow 16 slice.length)

def decodeNodeId : Reader Bytes := decodePrefixed .nodeId

def decodeF32 : Reader UInt32 := do
  expectTag .float32
  let slice ← readSlice 4
  return UInt32.ofNat (beValue slice)

def decodeF64 : Reader UInt64 := do
  expectTag .float64
  let slice ← readSlice 8
  return UInt64.ofNat (beValue slice)

def decodeStructHeader : Reader (UInt32 × UInt64) := do
  expectTag .struct
  let typeId ← readU32
  let fields ← readUsize
  validateCollectionCount fields.toNat 1
  return (typeId, fields)

def decodeEnumHeader : Reader (UInt32 × UInt32) := do
  expectTag .enum
  let typeId ← readU32
  let variant ← readU32
  return (typeId, variant)

end CanonDecoder

/-! ## Calls -/

/-- One `encode_*` call with its arguments, and what the matching `decode_*` returns. -/
inductive Item where
  | null
  | bool (value : Bool)
  | u64 (value : UInt64)
  | i64 (value : Int64)
  | string (value : String)
  | bytes (value : Bytes)
  | none
  | some
  | timestamp (micros : Int64)
  | uuid (id : Uuid)
  | nodeId (id : Bytes)
  | arrayHeader (len : UInt64)
  | mapHeader (len : UInt64)
  | structHeader (typeId : UInt32) (fields : UInt64)
  | enumHeader (typeId variant : UInt32)
  deriving DecidableEq

/-- Which `decode_*` is called. -/
inductive Call where
  | null
  | bool
  | u64
  | i64
  | string
  | bytes
  | none
  | some
  | timestamp
  | uuid
  | nodeId
  | arrayHeader
  | mapHeader
  | structHeader
  | enumHeader
  deriving DecidableEq, Repr

def Item.call : Item → Call
  | null => .null
  | bool _ => .bool
  | u64 _ => .u64
  | i64 _ => .i64
  | string _ => .string
  | bytes _ => .bytes
  | none => .none
  | some => .some
  | timestamp _ => .timestamp
  | uuid _ => .uuid
  | nodeId _ => .nodeId
  | arrayHeader _ => .arrayHeader
  | mapHeader _ => .mapHeader
  | structHeader _ _ => .structHeader
  | enumHeader _ _ => .enumHeader

def Item.encode (e : CanonEncoder) : Item → Except EncodeError CanonEncoder
  | null => e.encodeNull
  | bool value => e.encodeBool value
  | u64 value => e.encodeU64 value
  | i64 value => e.encodeI64 value
  | string value => e.encodeString value
  | bytes value => e.encodeBytes value
  | none => e.encodeNone
  | some => e.encodeSome
  | timestamp micros => e.encodeTimestamp micros
  | uuid id => e.encodeUuid id
  | nodeId id => e.encodeNodeId id
  | arrayHeader len => e.encodeArrayHeader len
  | mapHeader len => e.encodeMapHeader len
  | structHeader typeId fields => e.encodeStructHeader typeId fields
  | enumHeader typeId variant => e.encodeEnumHeader typeId variant

open CanonDecoder in
def Call.decode : Call → Reader Item
  | null => do decodeNull; return .null
  | bool => do return .bool (← decodeBool)
  | u64 => do return .u64 (← decodeU64)
  | i64 => do return .i64 (← decodeI64)
  | string => do return .string (← decodeString)
  | bytes => do return .bytes (← decodeBytes)
  | none => do decodeNone; return .none
  | some => do decodeSome; return .some
  | timestamp => do return .timestamp (← decodeTimestamp)
  | uuid => do return .uuid (← decodeUuid)
  | nodeId => do return .nodeId (← decodeNodeId)
  | arrayHeader => do return .arrayHeader (← decodeArrayHeader)
  | mapHeader => do return .mapHeader (← decodeMapHeader)
  | structHeader => do
    let (typeId, fields) ← decodeStructHeader
    return .structHeader typeId fields
  | enumHeader => do
    let (typeId, variant) ← decodeEnumHeader
    return .enumHeader typeId variant

/-! ## Trees of values -/

/-- A value with the values its header announces.  How many an enum header announces is
not on the wire. -/
inductive Tree where
  | null
  | bool (value : Bool)
  | u64 (value : UInt64)
  | i64 (value : Int64)
  | string (value : String)
  | bytes (value : Bytes)
  | none
  | some (value : Tree)
  | timestamp (micros : Int64)
  | uuid (id : Uuid)
  | nodeId (id : Bytes)
  | array (values : List Tree)
  | map (pairs : List (Tree × Tree))
  | struct (typeId : UInt32) (fields : List Tree)
  | enum (typeId variant : UInt32) (payload : List Tree)

mutual

/-- The calls that write the tree, in pre-order. -/
def Tree.items : Tree → List Item
  | .null => [.null]
  | .bool value => [.bool value]
  | .u64 value => [.u64 value]
  | .i64 value => [.i64 value]
  | .string value => [.string value]
  | .bytes value => [.bytes value]
  | .none => [.none]
  | .some value => .some :: value.items
  | .timestamp micros => [.timestamp micros]
  | .uuid id => [.uuid id]
  | .nodeId id => [.nodeId id]
  | .array values => .arrayHeader (UInt64.ofNat values.length) :: itemsOfList values
  | .map pairs => .mapHeader (UInt64.ofNat pairs.length) :: itemsOfPairs pairs
  | .struct typeId fields =>
    .structHeader typeId (UInt64.ofNat fields.length) :: itemsOfList fields
  | .enum typeId variant payload => .enumHeader typeId variant :: itemsOfList payload

def itemsOfList : List Tree → List Item
  | [] => []
  | value :: rest => value.items ++ itemsOfList rest

def itemsOfPairs : List (Tree × Tree) → List Item
  | [] => []
  | (key, value) :: rest => key.items ++ (value.items ++ itemsOfPairs rest)

end

/-- A sequence of `encode_*` calls. -/
def encodeItems (e : CanonEncoder) : List Item → Except EncodeError CanonEncoder
  | [] => .ok e
  | item :: rest => do
    let e ← item.encode e
    encodeItems e rest

/-- The bytes of a tree. -/
def Tree.write (t : Tree) : Except EncodeError Bytes := do
  let e ← encodeItems .new t.items
  return e.buffer

/-- A sequence of `decode_*` calls. -/
def readCalls : List Call → Reader (List Item)
  | [] => return []
  | call :: rest => do
    let item ← call.decode
    let items ← readCalls rest
    return item :: items

end OneLink.Canon
