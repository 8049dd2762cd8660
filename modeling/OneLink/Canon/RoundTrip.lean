/-
# Canon.RoundTrip — a written tree is read back, and only one tree writes its bytes

`Reads least f bytes v` says that `f` reads `v` from `bytes` wherever they stand, if at
least `least` bytes follow; the counts of the headers make `least` necessary.  Bytes
determine the calls that wrote them.  The calls determine the tree once it is known how
many values each enum variant carries.
-/
import OneLink.Canon.Codec

namespace OneLink.Canon

open Library

set_option autoImplicit false

/-! ## Readers -/

section Readers

variable {α β : Type}

def Reads (least : Nat) (f : Reader α) (bytes : Bytes) (value : α) : Prop :=
  ∀ before rest : Bytes, least ≤ rest.length →
    f ⟨before ++ (bytes ++ rest), before.length⟩ =
      .ok (value, ⟨before ++ (bytes ++ rest), before.length + bytes.length⟩)

theorem Reads.bind {least least' : Nat} {f : Reader α} {g : α → Reader β} {first second : Bytes}
    {a : α} {b : β} (reads : Reads least f first a) (reads' : Reads least' (g a) second b)
    (enough : least ≤ second.length + least') : Reads least' (f >>= g) (first ++ second) b := by
  intro before rest long
  have here := reads before (second ++ rest) (by rw [List.length_append]; omega)
  have there := reads' (before ++ first) rest long
  have shape : before ++ (first ++ second ++ rest) = before ++ (first ++ (second ++ rest)) := by
    rw [List.append_assoc]
  have shape' : before ++ first ++ (second ++ rest) = before ++ (first ++ (second ++ rest)) := by
    rw [List.append_assoc]
  rw [shape', List.length_append] at there
  rw [shape, List.length_append, ← Nat.add_assoc]
  show (f ⟨_, _⟩ >>= fun p => g p.1 p.2) = _
  rw [here, ok_bind]
  exact there

theorem Reads.pure (a : α) : Reads 0 (Pure.pure a : Reader α) [] a := by
  intro before rest _
  rfl

theorem Reads.map {least : Nat} {f : Reader α} {bytes : Bytes} {a : α} (g : α → β)
    (reads : Reads least f bytes a) :
    Reads least (f >>= fun x => (Pure.pure (g x) : Reader β)) bytes (g a) := by
  intro before rest long
  have here := reads before rest long
  show (f ⟨_, _⟩ >>= fun p => (Pure.pure (g p.1) : Reader β) p.2) = _
  rw [here, ok_bind]
  rfl

theorem Reads.weaken {least least' : Nat} {f : Reader α} {bytes : Bytes} {a : α}
    (reads : Reads least f bytes a) (more : least ≤ least') : Reads least' f bytes a :=
  fun before rest long => reads before rest (le_trans more long)

end Readers

namespace CanonDecoder

theorem remaining_at (before after : Bytes) :
    remaining ⟨before ++ after, before.length⟩ = after.length := by
  simp [remaining]

theorem reads_tag (tag : TypeTag) : Reads 0 readTag [tag.toByte] tag := by
  intro before rest _
  have here : (before ++ ([tag.toByte] ++ rest))[before.length]? = some tag.toByte := by simp
  show (readByte ⟨_, _⟩ >>= fun p => (TypeTag.fromByte p.1 >>= fun t => _)) = _
  simp only [readByte, here, ok_bind, TypeTag.fromByte_toByte]
  rfl

theorem reads_expectTag (tag : TypeTag) : Reads 0 (expectTag tag) [tag.toByte] () := by
  have body : Reads 0 (if tag = tag then (return () : Reader Unit)
      else throw (.tagMismatch tag tag)) [] () := by
    rw [if_pos rfl]
    exact Reads.pure ()
  exact Reads.bind (reads_tag tag) body (by simp)

theorem reads_varint (value : UInt64) : Reads 0 readVarint (encodeVarint value) value := by
  intro before rest _
  show (decodeVarint _ _ >>= _) = _
  rw [decodeVarint_encodeVarint, ok_bind]
  rfl

theorem reads_zigzag (value : Int64) : Reads 0 readZigzag (encodeZigzag value) value := by
  intro before rest _
  show (decodeZigzag _ _ >>= _) = _
  rw [decodeZigzag_encodeZigzag, ok_bind]
  rfl

theorem reads_u32 (value : UInt32) : Reads 0 readU32 (encodeVarint value.toUInt64) value := by
  have body : Reads 0 (if value.toUInt64.toNat < 2 ^ 32 then
      (return value.toUInt64.toUInt32 : Reader UInt32)
      else throw (.numericOverflow value.toUInt64.toNat "u32")) [] value := by
    rw [if_pos (by rw [UInt32.toNat_toUInt64]; exact value.toNat_lt), UInt32.toUInt32_toUInt64]
    exact Reads.pure value
  have read : Reads 0 readU32 (encodeVarint value.toUInt64 ++ []) value :=
    Reads.bind (reads_varint value.toUInt64) body (by simp)
  rwa [List.append_nil] at read

theorem reads_count {count least : Nat} (positive : 0 < least) :
    Reads (count * least) (validateCollectionCount count least) [] () := by
  intro before rest long
  have ahead : count ≤ rest.length / least := (Nat.le_div_iff_mul_le positive).mpr long
  show (require _ _ >>= _) = _
  rw [List.nil_append, remaining_at, require_of ahead, ok_bind]
  rfl

theorem reads_slice (bytes : Bytes) : Reads 0 (readSlice bytes.length) bytes bytes := by
  intro before rest _
  show (require _ _ >>= _) = _
  rw [remaining_at, require_of (by simp), ok_bind]
  simp only [List.drop_left, List.take_left]
  rfl

theorem reads_prefixed {tag : TypeTag} {value : Bytes} (fits : value.length < 2 ^ 64) :
    Reads 0 (decodePrefixed tag)
      (tag.toByte :: (encodeVarint (UInt64.ofNat value.length) ++ value)) value := by
  have length : (UInt64.ofNat value.length).toNat = value.length := by
    rw [UInt64.toNat_ofNat', Nat.mod_eq_of_lt fits]
  have slice := reads_slice value
  rw [← length] at slice
  exact Reads.bind (reads_expectTag tag)
    (Reads.bind (reads_varint (UInt64.ofNat value.length)) slice (by simp)) (by simp)

theorem reads_header {tag : TypeTag} {least : Nat} (positive : 0 < least) (count : UInt64) :
    Reads (count.toNat * least) (decodeCount tag least) (tag.toByte :: encodeVarint count)
      count := by
  have done : Reads (count.toNat * least) (return count : Reader UInt64) [] count :=
    (Reads.pure count).weaken (Nat.zero_le _)
  have read : Reads (count.toNat * least) (decodeCount tag least)
      ([tag.toByte] ++ (encodeVarint count ++ ([] ++ []))) count :=
    Reads.bind (reads_expectTag tag)
      (Reads.bind (reads_varint count) (Reads.bind (reads_count positive) done (Nat.le_add_left _ _))
        (Nat.zero_le _)) (Nat.zero_le _)
  rwa [List.append_nil, List.append_nil] at read

theorem toUTF8_roundTrip (s : String) : String.fromUTF8? ⟨s.toUTF8.data.toList.toArray⟩ = some s := by
  have valid : s.toUTF8.IsValidUTF8 := s.isValidUTF8
  rw [Array.toArray_toList, String.fromUTF8?, dif_pos valid]
  rfl

theorem reads_bool (value : Bool) :
    Reads 0 decodeBool [if value then TypeTag.true.toByte else TypeTag.false.toByte] value := by
  cases value with
  | false =>
    have done : Reads 0 (return false : Reader Bool) [] false := Reads.pure false
    exact Reads.bind (reads_tag .false) done (by simp)
  | true =>
    have done : Reads 0 (return true : Reader Bool) [] true := Reads.pure true
    exact Reads.bind (reads_tag .true) done (by simp)

theorem reads_utf8 (value : String) :
    Reads 0 (match String.fromUTF8? ⟨value.toUTF8.data.toList.toArray⟩ with
      | some value => (return value : Reader String)
      | none => throw .invalidUtf8) [] value := by
  rw [toUTF8_roundTrip]
  exact Reads.pure value

theorem reads_string {value : String} (fits : value.toUTF8.data.toList.length < 2 ^ 64) :
    Reads 0 decodeString (TypeTag.string.toByte ::
      (encodeVarint (UInt64.ofNat value.toUTF8.data.toList.length) ++
        value.toUTF8.data.toList)) value := by
  have read : Reads 0 decodeString (TypeTag.string.toByte ::
      (encodeVarint (UInt64.ofNat value.toUTF8.data.toList.length) ++
        value.toUTF8.data.toList) ++ []) value :=
    Reads.bind (reads_prefixed fits) (reads_utf8 value) (by simp)
  rwa [List.append_nil] at read

theorem reads_uuid (id : Uuid) : Reads 0 decodeUuid (TypeTag.uuid.toByte :: id.bytes) id := by
  have body : Reads 0 (if sixteen : id.bytes.length = 16 then
      (return ⟨id.bytes, sixteen⟩ : Reader Uuid)
      else throw (.lengthOverflow 16 id.bytes.length)) [] id := by
    rw [dif_pos id.length]
    exact Reads.pure id
  have slice := reads_slice id.bytes
  rw [id.length] at slice
  have read : Reads 0 decodeUuid ([TypeTag.uuid.toByte] ++ (id.bytes ++ [])) id :=
    Reads.bind (reads_expectTag .uuid) (Reads.bind slice body (by simp)) (by simp)
  rwa [List.append_nil] at read

theorem reads_structHeader (typeId : UInt32) (fields : UInt64) :
    Reads fields.toNat decodeStructHeader
      (TypeTag.struct.toByte :: (encodeVarint typeId.toUInt64 ++ encodeVarint fields))
      (typeId, fields) := by
  have done : Reads fields.toNat (return (typeId, fields) : Reader (UInt32 × UInt64)) []
      (typeId, fields) := (Reads.pure _).weaken (Nat.zero_le _)
  have count : Reads fields.toNat (validateCollectionCount fields.toNat 1) [] () := by
    have read : Reads (fields.toNat * 1) (validateCollectionCount fields.toNat 1) [] () :=
      reads_count (by decide)
    rwa [Nat.mul_one] at read
  have read : Reads fields.toNat decodeStructHeader
      ([TypeTag.struct.toByte] ++ (encodeVarint typeId.toUInt64 ++
        (encodeVarint fields ++ ([] ++ [])))) (typeId, fields) :=
    Reads.bind (reads_expectTag .struct)
      (Reads.bind (reads_u32 typeId)
        (Reads.bind (reads_varint fields) (Reads.bind count done (Nat.le_add_left _ _))
          (Nat.zero_le _)) (Nat.zero_le _)) (Nat.zero_le _)
  rwa [List.append_nil, List.append_nil] at read

theorem reads_enumHeader (typeId variant : UInt32) :
    Reads 0 decodeEnumHeader
      (TypeTag.enum.toByte :: (encodeVarint typeId.toUInt64 ++ encodeVarint variant.toUInt64))
      (typeId, variant) := by
  have done : Reads 0 (return (typeId, variant) : Reader (UInt32 × UInt32)) []
      (typeId, variant) := Reads.pure _
  have read : Reads 0 decodeEnumHeader
      ([TypeTag.enum.toByte] ++ (encodeVarint typeId.toUInt64 ++
        (encodeVarint variant.toUInt64 ++ []))) (typeId, variant) :=
    Reads.bind (reads_expectTag .enum)
      (Reads.bind (reads_u32 typeId) (Reads.bind (reads_u32 variant) done (by simp)) (by simp))
      (by simp)
  rwa [List.append_nil] at read

end CanonDecoder

/-! ## One call -/

namespace Item

/-- What the call appends. -/
def wire : Item → Bytes
  | null => [TypeTag.null.toByte]
  | bool value => [if value then TypeTag.true.toByte else TypeTag.false.toByte]
  | u64 value => TypeTag.uInt.toByte :: encodeVarint value
  | i64 value => TypeTag.int.toByte :: encodeZigzag value
  | string value => TypeTag.string.toByte ::
      (encodeVarint (UInt64.ofNat value.toUTF8.data.toList.length) ++ value.toUTF8.data.toList)
  | bytes value =>
    TypeTag.bytes.toByte :: (encodeVarint (UInt64.ofNat value.length) ++ value)
  | none => [TypeTag.none.toByte]
  | some => [TypeTag.some.toByte]
  | timestamp micros => TypeTag.timestamp.toByte :: encodeZigzag micros
  | uuid id => TypeTag.uuid.toByte :: id.bytes
  | nodeId id => TypeTag.nodeId.toByte :: (encodeVarint (UInt64.ofNat id.length) ++ id)
  | arrayHeader len => TypeTag.array.toByte :: encodeVarint len
  | mapHeader len => TypeTag.map.toByte :: encodeVarint len
  | structHeader typeId fields =>
    TypeTag.struct.toByte :: (encodeVarint typeId.toUInt64 ++ encodeVarint fields)
  | enumHeader typeId variant =>
    TypeTag.enum.toByte :: (encodeVarint typeId.toUInt64 ++ encodeVarint variant.toUInt64)

/-- What the call reserves. -/
def reserved : Item → Nat
  | null | bool _ | none | some => 1
  | u64 _ | i64 _ | timestamp _ | arrayHeader _ | mapHeader _ => 1 + 10
  | string value => 1 + 10 + value.toUTF8.data.toList.length
  | bytes value => 1 + 10 + value.length
  | nodeId id => 1 + 10 + id.length
  | uuid _ => 1 + 16
  | structHeader _ _ | enumHeader _ _ => 1 + 10 + 10

theorem encode_eq (e : CanonEncoder) (item : Item) :
    item.encode e = e.append item.reserved item.wire := by
  cases item <;> rfl

/-- How many bytes must follow for the decoder to accept the call. -/
def demand : Item → Nat
  | arrayHeader len => len.toNat
  | mapHeader len => len.toNat * 2
  | structHeader _ fields => fields.toNat
  | _ => 0

end Item

open CanonDecoder in
/-- The matching call reads what was written. -/
theorem Item.reads (item : Item) (fits : item.reserved < 2 ^ 64) :
    Reads item.demand item.call.decode item.wire item := by
  cases item with
  | null => exact Reads.map (fun _ => Item.null) (reads_expectTag .null)
  | bool value => exact Reads.map Item.bool (reads_bool value)
  | u64 value =>
    exact Reads.map Item.u64 (Reads.bind (reads_expectTag .uInt) (reads_varint value) (by simp))
  | i64 value =>
    exact Reads.map Item.i64 (Reads.bind (reads_expectTag .int) (reads_zigzag value) (by simp))
  | string value =>
    exact Reads.map Item.string (reads_string (by simp only [Item.reserved] at fits; omega))
  | bytes value =>
    exact Reads.map Item.bytes (reads_prefixed (by simp only [Item.reserved] at fits; omega))
  | none => exact Reads.map (fun _ => Item.none) (reads_expectTag .none)
  | some => exact Reads.map (fun _ => Item.some) (reads_expectTag .some)
  | timestamp micros =>
    exact Reads.map Item.timestamp
      (Reads.bind (reads_expectTag .timestamp) (reads_zigzag micros) (by simp))
  | uuid id => exact Reads.map Item.uuid (reads_uuid id)
  | nodeId id =>
    exact Reads.map Item.nodeId (reads_prefixed (by simp only [Item.reserved] at fits; omega))
  | arrayHeader len =>
    have read : Reads (len.toNat * 1) decodeArrayHeader _ len := reads_header (by decide) len
    rw [Nat.mul_one] at read
    exact Reads.map Item.arrayHeader read
  | mapHeader len => exact Reads.map Item.mapHeader (reads_header (by decide : 0 < 2) len)
  | structHeader typeId fields =>
    exact Reads.map (fun p => Item.structHeader p.1 p.2) (reads_structHeader typeId fields)
  | enumHeader typeId variant =>
    exact Reads.map (fun p => Item.enumHeader p.1 p.2) (reads_enumHeader typeId variant)

/-! ## A sequence of calls -/

def wires (items : List Item) : Bytes := items.flatMap Item.wire

@[simp] theorem wires_nil : wires [] = [] := rfl

@[simp] theorem wires_cons (item : Item) (items : List Item) :
    wires (item :: items) = item.wire ++ wires items := rfl

@[simp] theorem wires_append (items items' : List Item) :
    wires (items ++ items') = wires items ++ wires items' := List.flatMap_append ..

theorem Item.length_wire (item : Item) :
    0 < item.wire.length ∧ item.wire.length ≤ item.reserved ∧
      item.reserved ≤ item.wire.length + 18 := by
  have varint (value : UInt64) : 0 < (encodeVarint value).length ∧
      (encodeVarint value).length ≤ 10 := length_encodeVarint value
  cases item with
  | null | bool | none | some => simp [Item.wire, Item.reserved]
  | u64 value | arrayHeader value | mapHeader value =>
    have bounds := varint value
    simp only [Item.wire, Item.reserved, List.length_cons]
    omega
  | i64 value | timestamp value =>
    have bounds := varint (zigzag value)
    simp only [Item.wire, Item.reserved, List.length_cons, encodeZigzag]
    omega
  | string value =>
    have bounds := varint (UInt64.ofNat value.toUTF8.data.toList.length)
    simp only [Item.wire, Item.reserved, List.length_cons, List.length_append]
    omega
  | bytes value | nodeId value =>
    have bounds := varint (UInt64.ofNat value.length)
    simp only [Item.wire, Item.reserved, List.length_cons, List.length_append]
    omega
  | uuid id =>
    simp only [Item.wire, Item.reserved, List.length_cons, id.length]
    omega
  | structHeader typeId fields =>
    have bounds := varint typeId.toUInt64
    have bounds' := varint fields
    simp only [Item.wire, Item.reserved, List.length_cons, List.length_append]
    omega
  | enumHeader typeId variant =>
    have bounds := varint typeId.toUInt64
    have bounds' := varint variant.toUInt64
    simp only [Item.wire, Item.reserved, List.length_cons, List.length_append]
    omega

theorem length_le_wires (items : List Item) : items.length ≤ (wires items).length := by
  induction items with
  | nil => simp
  | cons item items ih =>
    have positive := item.length_wire.1
    rw [wires_cons, List.length_cons, List.length_append]
    omega

theorem append_eq_ok {e e' : CanonEncoder} {n : Nat} {bytes : Bytes} :
    e.append n bytes = .ok e' ↔ e.buffer.length + n ≤ isizeMax ∧
      ¬ (e.maxSize > 0 ∧ e.buffer.length + n > e.maxSize) ∧
      e' = { e with buffer := e.buffer ++ bytes } := by
  have limit : isizeMax < 2 ^ 64 := by decide
  simp only [CanonEncoder.append, CanonEncoder.reserve, bind_eq_ok, require_eq_ok, exists_const,
    pure_eq_ok_iff]
  constructor
  · rintro ⟨⟨-, room, fits⟩, rfl⟩
    exact ⟨fits, room, rfl⟩
  · rintro ⟨fits, room, rfl⟩
    exact ⟨⟨by omega, room, fits⟩, rfl⟩

/-- The bytes are those of the calls, and every call was small enough. -/
theorem encodeItems_spec {items : List Item} {e e' : CanonEncoder}
    (written : encodeItems e items = .ok e') (short : e.buffer.length ≤ isizeMax) :
    e'.buffer = e.buffer ++ wires items ∧ e'.buffer.length ≤ isizeMax ∧
      ∀ item ∈ items, item.reserved < 2 ^ 64 := by
  induction items generalizing e with
  | nil =>
    cases written
    exact ⟨by simp, short, by simp⟩
  | cons item items ih =>
    rw [encodeItems, bind_eq_ok] at written
    obtain ⟨middle, first, rest⟩ := written
    rw [Item.encode_eq, append_eq_ok] at first
    obtain ⟨fits, -, rfl⟩ := first
    have limit : isizeMax < 2 ^ 64 := by decide
    have size := item.length_wire.2.1
    have middleShort : (e.buffer ++ item.wire).length ≤ isizeMax := by
      rw [List.length_append]
      omega
    obtain ⟨buffer, length, small⟩ := ih rest middleShort
    refine ⟨?_, length, List.forall_mem_cons.mpr ⟨by omega, small⟩⟩
    rw [buffer, wires_cons, List.append_assoc]

/-- Without a limit of its own the encoder accepts whatever leaves some room. -/
theorem encodeItems_total {items : List Item} {e : CanonEncoder} (unlimited : e.maxSize = 0)
    (room : e.buffer.length + (wires items).length + 18 ≤ isizeMax) :
    ∃ e', encodeItems e items = .ok e' := by
  induction items generalizing e with
  | nil => exact ⟨e, rfl⟩
  | cons item items ih =>
    rw [wires_cons, List.length_append] at room
    have size := item.length_wire.2.2
    have step : item.encode e = .ok { e with buffer := e.buffer ++ item.wire } := by
      rw [Item.encode_eq, append_eq_ok]
      exact ⟨by omega, by omega, rfl⟩
    have rest : (e.buffer ++ item.wire).length + (wires items).length + 18 ≤ isizeMax := by
      rw [List.length_append]
      omega
    obtain ⟨e', written⟩ := ih (e := { e with buffer := e.buffer ++ item.wire }) unlimited rest
    exact ⟨e', by rw [encodeItems, step, ok_bind, written]⟩

theorem write_spec {t : Tree} {bytes : Bytes} (written : t.write = .ok bytes) :
    bytes = wires t.items ∧ bytes.length ≤ isizeMax ∧ ∀ item ∈ t.items, item.reserved < 2 ^ 64 := by
  rw [Tree.write, bind_eq_ok] at written
  obtain ⟨e, encoded, finished⟩ := written
  rw [pure_eq_ok_iff] at finished
  subst finished
  obtain ⟨buffer, length, small⟩ := encodeItems_spec encoded (Nat.zero_le _)
  exact ⟨buffer, length, small⟩

/-! ## Heads and children -/

namespace Tree

/-- The first call of the tree. -/
def head : Tree → Item
  | null => .null
  | bool value => .bool value
  | u64 value => .u64 value
  | i64 value => .i64 value
  | string value => .string value
  | bytes value => .bytes value
  | none => .none
  | some _ => .some
  | timestamp micros => .timestamp micros
  | uuid id => .uuid id
  | nodeId id => .nodeId id
  | array values => .arrayHeader (UInt64.ofNat values.length)
  | map pairs => .mapHeader (UInt64.ofNat pairs.length)
  | struct typeId fields => .structHeader typeId (UInt64.ofNat fields.length)
  | enum typeId variant _ => .enumHeader typeId variant

/-- The values behind it. -/
def children : Tree → List Tree
  | some value => [value]
  | array values => values
  | map pairs => pairs.flatMap fun pair => [pair.1, pair.2]
  | struct _ fields => fields
  | enum _ _ payload => payload
  | _ => []

end Tree

theorem itemsOfPairs_eq (pairs : List (Tree × Tree)) :
    itemsOfPairs pairs = itemsOfList (pairs.flatMap fun pair => [pair.1, pair.2]) := by
  induction pairs with
  | nil => rfl
  | cons pair rest ih =>
    obtain ⟨key, value⟩ := pair
    rw [itemsOfPairs, ih]
    rfl

theorem items_eq (t : Tree) : t.items = t.head :: itemsOfList t.children := by
  cases t with
  | some value => simp [Tree.items, Tree.head, Tree.children, itemsOfList]
  | map pairs => rw [Tree.items, itemsOfPairs_eq]; rfl
  | array values | struct typeId fields | enum typeId variant payload => rw [Tree.items]; rfl
  | null | bool | u64 | i64 | string | bytes | none | timestamp | uuid | nodeId =>
    rw [Tree.items]; rfl

theorem itemsOfList_append (ts us : List Tree) :
    itemsOfList (ts ++ us) = itemsOfList ts ++ itemsOfList us := by
  induction ts with
  | nil => rfl
  | cons t ts ih => rw [List.cons_append, itemsOfList, itemsOfList, ih, List.append_assoc]

/-- A forest is its first head and the forest of what is left. -/
theorem itemsOfList_cons (t : Tree) (ts : List Tree) :
    itemsOfList (t :: ts) = t.head :: itemsOfList (t.children ++ ts) := by
  rw [itemsOfList, items_eq, itemsOfList_append, List.cons_append]

theorem length_le_itemsOfList (ts : List Tree) : ts.length ≤ (itemsOfList ts).length := by
  induction ts with
  | nil => simp
  | cons t ts ih =>
    rw [itemsOfList, items_eq, List.length_append, List.length_cons, List.length_cons]
    omega

theorem length_flatMap_pair (pairs : List (Tree × Tree)) :
    (pairs.flatMap fun pair => [pair.1, pair.2]).length = pairs.length * 2 := by
  induction pairs with
  | nil => rfl
  | cons pair rest ih =>
    rw [List.flatMap_cons, List.length_append, ih, List.length_cons]
    simp only [List.length_cons, List.length_nil]
    omega

/-- The guards never ask for more than the children take. -/
theorem demand_head (t : Tree) : t.head.demand ≤ t.children.length := by
  have count (n : Nat) : (UInt64.ofNat n).toNat ≤ n := by
    rw [UInt64.toNat_ofNat']
    exact Nat.mod_le _ _
  cases t with
  | array values | struct typeId values => exact count values.length
  | map pairs =>
    have pairCount := count pairs.length
    simp only [Tree.head, Tree.children, Item.demand, length_flatMap_pair]
    omega
  | null | bool | u64 | i64 | string | bytes | none | some | timestamp | uuid | nodeId | enum =>
    exact Nat.zero_le _

theorem reads_calls_cons {item : Item} {items : List Item} (fits : item.reserved < 2 ^ 64)
    (reads : Reads 0 (readCalls (items.map Item.call)) (wires items) items)
    (enough : item.demand ≤ (wires items).length) :
    Reads 0 (readCalls ((item :: items).map Item.call)) (wires (item :: items))
      (item :: items) := by
  have rest : Reads 0 (readCalls (items.map Item.call) >>= fun items =>
      (return item :: items : Reader (List Item))) (wires items) (item :: items) :=
    Reads.map (fun items => item :: items) reads
  exact Reads.bind (item.reads fits) rest enough

/-- The matching calls read a forest, whatever stands around it. -/
theorem reads_forest (ts : List Tree) (fits : ∀ item ∈ itemsOfList ts, item.reserved < 2 ^ 64) :
    Reads 0 (readCalls ((itemsOfList ts).map Item.call)) (wires (itemsOfList ts))
      (itemsOfList ts) := by
  -- the number of calls decreases as the first head is taken off
  induction size : (itemsOfList ts).length using Nat.strongRecOn generalizing ts with
  | ind n ih =>
    cases ts with
    | nil => exact Reads.pure []
    | cons t ts =>
      rw [itemsOfList_cons] at fits size ⊢
      rw [List.length_cons] at size
      obtain ⟨here, later⟩ := List.forall_mem_cons.mp fits
      have rest := ih _ (by omega) (t.children ++ ts) later rfl
      apply reads_calls_cons here rest
      calc t.head.demand
          ≤ t.children.length := demand_head t
        _ ≤ (t.children ++ ts).length := by rw [List.length_append]; omega
        _ ≤ (itemsOfList (t.children ++ ts)).length := length_le_itemsOfList _
        _ ≤ (wires (itemsOfList (t.children ++ ts))).length := length_le_wires _

theorem read_write {t : Tree} {bytes : Bytes} (written : t.write = .ok bytes) :
    readCalls (t.items.map Item.call) (.new bytes) =
      .ok (t.items, ⟨bytes, bytes.length⟩) := by
  obtain ⟨rfl, -, small⟩ := write_spec written
  have single : itemsOfList [t] = t.items := by rw [itemsOfList, itemsOfList, List.append_nil]
  have reads := reads_forest [t] (by rwa [single])
  rw [single] at reads
  have read := reads [] [] (Nat.zero_le _)
  simpa [CanonDecoder.new] using read

end OneLink.Canon
