/-
# Canon.Injective — the bytes determine the tree

The tag byte says which call wrote it, and a call's bytes are no proper prefix of another
call's (`wire_inj`), so the bytes determine the calls.  A header determines how many
values follow it, except for an enum, whose payload the caller must know: `Conforms`
fixes it by the variant.
-/
import OneLink.Canon.RoundTrip

namespace OneLink.Canon

open Library

set_option autoImplicit false

/-! ## Calls -/

/-- The call a tag announces; three tags have no `decode_*`. -/
def callOfTag : TypeTag → Option Call
  | .null => some .null
  | .false | .true => some .bool
  | .uInt => some .u64
  | .int => some .i64
  | .string => some .string
  | .bytes => some .bytes
  | .array => some .arrayHeader
  | .map => some .mapHeader
  | .struct => some .structHeader
  | .enum => some .enumHeader
  | .none => some .none
  | .some => some .some
  | .timestamp => some .timestamp
  | .uuid => some .uuid
  | .nodeId => some .nodeId
  | .float32 | .float64 | .vectorClock | .hlc => none

theorem wire_tag (item : Item) :
    ∃ tag rest, item.wire = tag.toByte :: rest ∧ callOfTag tag = some item.call := by
  cases item with
  | bool value =>
    cases value with
    | false => exact ⟨.false, _, rfl, rfl⟩
    | true => exact ⟨.true, _, rfl, rfl⟩
  | null => exact ⟨.null, _, rfl, rfl⟩
  | u64 => exact ⟨.uInt, _, rfl, rfl⟩
  | i64 => exact ⟨.int, _, rfl, rfl⟩
  | string => exact ⟨.string, _, rfl, rfl⟩
  | bytes => exact ⟨.bytes, _, rfl, rfl⟩
  | none => exact ⟨.none, _, rfl, rfl⟩
  | some => exact ⟨.some, _, rfl, rfl⟩
  | timestamp => exact ⟨.timestamp, _, rfl, rfl⟩
  | uuid => exact ⟨.uuid, _, rfl, rfl⟩
  | nodeId => exact ⟨.nodeId, _, rfl, rfl⟩
  | arrayHeader => exact ⟨.array, _, rfl, rfl⟩
  | mapHeader => exact ⟨.map, _, rfl, rfl⟩
  | structHeader => exact ⟨.struct, _, rfl, rfl⟩
  | enumHeader => exact ⟨.enum, _, rfl, rfl⟩

theorem toByte_injective {tag tag' : TypeTag} (same : tag.toByte = tag'.toByte) : tag = tag' := by
  have read := TypeTag.fromByte_toByte tag
  rw [same, TypeTag.fromByte_toByte, Except.ok.injEq] at read
  exact read.symm

theorem call_of_wire {item item' : Item} {rest rest' : Bytes}
    (same : item.wire ++ rest = item'.wire ++ rest') : item.call = item'.call := by
  obtain ⟨tag, more, wire, call⟩ := wire_tag item
  obtain ⟨tag', more', wire', call'⟩ := wire_tag item'
  rw [wire, wire', List.cons_append, List.cons_append, List.cons.injEq] at same
  rw [toByte_injective same.1, call', Option.some.injEq] at call
  exact call.symm

/-- No call's bytes continue another's. -/
theorem wire_inj {item item' : Item} (fits : item.reserved < 2 ^ 64)
    (fits' : item'.reserved < 2 ^ 64) {rest rest' : Bytes}
    (same : item.wire ++ rest = item'.wire ++ rest') : item = item' ∧ rest = rest' := by
  -- with enough bytes behind them, one and the same read returns both
  let padding : Bytes := List.replicate (item.demand + item'.demand) 0
  have longer : item.wire ++ (rest ++ padding) = item'.wire ++ (rest' ++ padding) := by
    rw [← List.append_assoc, same, List.append_assoc]
  have read := item.reads fits [] (rest ++ padding) (by simp [padding]; omega)
  have read' := item'.reads fits' [] (rest' ++ padding) (by simp [padding]; omega)
  rw [longer, call_of_wire same, read', Except.ok.injEq, Prod.mk.injEq] at read
  obtain ⟨rfl, -⟩ := read
  exact ⟨rfl, List.append_cancel_left same⟩

theorem wires_inj {items items' : List Item} (fits : ∀ item ∈ items, item.reserved < 2 ^ 64)
    (fits' : ∀ item ∈ items', item.reserved < 2 ^ 64) (same : wires items = wires items') :
    items = items' := by
  have nonempty (item : Item) (rest : Bytes) : item.wire ++ rest ≠ [] := by
    have positive := item.length_wire.1
    intro empty
    rw [List.append_eq_nil_iff] at empty
    rw [empty.1] at positive
    cases positive
  induction items generalizing items' with
  | nil =>
    cases items' with
    | nil => rfl
    | cons item' rest' => exact absurd same.symm (nonempty item' _)
  | cons item rest ih =>
    cases items' with
    | nil => exact absurd same (nonempty item _)
    | cons item' rest' =>
      obtain ⟨here, later⟩ := List.forall_mem_cons.mp fits
      obtain ⟨here', later'⟩ := List.forall_mem_cons.mp fits'
      obtain ⟨rfl, tails⟩ := wire_inj here here' same
      rw [ih later later' tails]

/-! ## Trees -/

/-- Every enum of the tree carries as many values as its variant has. -/
inductive Tree.Conforms (arity : UInt32 → UInt32 → Nat) : Tree → Prop where
  | intro (t : Tree)
      (payload : ∀ typeId variant values, t = .enum typeId variant values →
        values.length = arity typeId variant)
      (children : ∀ child ∈ t.children, Conforms arity child) : Conforms arity t

variable {arity : UInt32 → UInt32 → Nat}

theorem Tree.Conforms.children {t : Tree} (conforms : t.Conforms arity) :
    ∀ child ∈ t.children, child.Conforms arity := by
  cases conforms with
  | intro _ payload children => exact children

theorem Tree.Conforms.payload {typeId variant : UInt32} {values : List Tree}
    (conforms : (Tree.enum typeId variant values).Conforms arity) :
    values.length = arity typeId variant := by
  cases conforms with
  | intro _ payload children => exact payload typeId variant values rfl

/-- How many values a head announces. -/
def Item.count (arity : UInt32 → UInt32 → Nat) : Item → Nat
  | some => 1
  | arrayHeader len => len.toNat
  | mapHeader len => len.toNat * 2
  | structHeader _ fields => fields.toNat
  | enumHeader typeId variant => arity typeId variant
  | _ => 0

theorem length_children {t : Tree} (conforms : t.Conforms arity)
    (small : t.children.length < 2 ^ 64) : t.children.length = t.head.count arity := by
  have count {n : Nat} (bound : n < 2 ^ 64) : n = (UInt64.ofNat n).toNat := by
    rw [UInt64.toNat_ofNat', Nat.mod_eq_of_lt bound]
  cases t with
  | array values | struct typeId values => exact count small
  | map pairs =>
    rw [Tree.children, length_flatMap_pair] at small
    rw [Tree.children, length_flatMap_pair, Tree.head, Item.count, ← count (by omega)]
  | enum typeId variant payload => exact conforms.payload
  | null | bool | u64 | i64 | string | bytes | none | some | timestamp | uuid | nodeId => rfl

def pairUp : List Tree → List (Tree × Tree)
  | key :: value :: rest => (key, value) :: pairUp rest
  | _ => []

theorem pairUp_flatMap (pairs : List (Tree × Tree)) :
    pairUp (pairs.flatMap fun pair => [pair.1, pair.2]) = pairs := by
  induction pairs with
  | nil => rfl
  | cons pair rest ih =>
    rw [List.flatMap_cons, List.cons_append, List.cons_append, List.nil_append, pairUp, ih]

/-- The tree of a head and its children. -/
def Item.tree : Item → List Tree → Tree
  | null, _ => .null
  | bool value, _ => .bool value
  | u64 value, _ => .u64 value
  | i64 value, _ => .i64 value
  | string value, _ => .string value
  | bytes value, _ => .bytes value
  | none, _ => .none
  | some, children => .some (children.headD .null)
  | timestamp micros, _ => .timestamp micros
  | uuid id, _ => .uuid id
  | nodeId id, _ => .nodeId id
  | arrayHeader _, children => .array children
  | mapHeader _, children => .map (pairUp children)
  | structHeader typeId _, children => .struct typeId children
  | enumHeader typeId variant, children => .enum typeId variant children

theorem tree_head_children (t : Tree) : t.head.tree t.children = t := by
  cases t with
  | map pairs => rw [Tree.head, Tree.children, Item.tree, pairUp_flatMap]
  | null | bool | u64 | i64 | string | bytes | none | some | timestamp | uuid | nodeId | array |
    struct | enum => rfl

/-- The calls determine the forest. -/
theorem itemsOfList_inj {ts us : List Tree} (conforms : ∀ t ∈ ts, t.Conforms arity)
    (conforms' : ∀ u ∈ us, u.Conforms arity) (lengths : ts.length = us.length)
    (small : (itemsOfList ts).length < 2 ^ 64) (same : itemsOfList ts = itemsOfList us) :
    ts = us := by
  induction size : (itemsOfList ts).length using Nat.strongRecOn generalizing ts us with
  | ind n ih =>
    cases ts with
    | nil => exact (List.eq_nil_of_length_eq_zero lengths.symm).symm
    | cons t ts =>
      cases us with
      | nil => cases lengths
      | cons u us =>
        rw [itemsOfList_cons, itemsOfList_cons, List.cons.injEq] at same
        obtain ⟨heads, rest⟩ := same
        rw [itemsOfList_cons, List.length_cons] at size small
        obtain ⟨here, later⟩ := List.forall_mem_cons.mp conforms
        obtain ⟨here', later'⟩ := List.forall_mem_cons.mp conforms'
        have bound := length_le_itemsOfList (t.children ++ ts)
        have bound' := length_le_itemsOfList (u.children ++ us)
        rw [← rest] at bound'
        rw [List.length_append] at bound bound'
        have counts : t.children.length = u.children.length := by
          rw [length_children here (by omega), length_children here' (by omega), heads]
        have total : (t.children ++ ts).length = (u.children ++ us).length := by
          rw [List.length_append, List.length_append, counts]
          simpa using lengths
        have forests := ih _ (by omega)
          (List.forall_mem_append.mpr ⟨here.children, later⟩)
          (List.forall_mem_append.mpr ⟨here'.children, later'⟩) total (by omega) rest rfl
        obtain ⟨sameChildren, rfl⟩ := List.append_inj forests counts
        rw [← tree_head_children t, ← tree_head_children u, heads, sameChildren]

theorem write_inj {t u : Tree} {bytes : Bytes} (conforms : t.Conforms arity)
    (conforms' : u.Conforms arity) (written : t.write = .ok bytes)
    (written' : u.write = .ok bytes) : t = u := by
  obtain ⟨rfl, length, small⟩ := write_spec written
  obtain ⟨same, -, small'⟩ := write_spec written'
  have single (v : Tree) : itemsOfList [v] = v.items := by
    rw [itemsOfList, itemsOfList, List.append_nil]
  have items := wires_inj small small' same
  have count := length_le_wires t.items
  have limit : isizeMax < 2 ^ 64 := by decide
  have forests : [t] = [u] := by
    apply itemsOfList_inj (List.forall_mem_singleton.mpr conforms)
      (List.forall_mem_singleton.mpr conforms')
    · rfl
    · rw [single]
      omega
    · rw [single, single, items]
  exact List.singleton_inj.mp forests

theorem write_total {t : Tree} (room : (wires t.items).length + 18 ≤ isizeMax) :
    ∃ bytes, t.write = .ok bytes := by
  have fits : CanonEncoder.new.buffer.length + (wires t.items).length + 18 ≤ isizeMax := by
    simpa [CanonEncoder.new] using room
  obtain ⟨e, written⟩ := encodeItems_total rfl fits
  exact ⟨e.buffer, by rw [Tree.write, written, ok_bind]; rfl⟩

/-- **Canonical encodings round trip.**  A tree that fits in memory is written; what was
written is read back by the matching calls up to the end of the buffer; and trees that
agree on what each enum variant carries never share their bytes. -/
theorem canon_round_trip :
    (∀ t : Tree, (wires t.items).length + 18 ≤ isizeMax → ∃ bytes, t.write = .ok bytes) ∧
    (∀ (t : Tree) (bytes : Bytes), t.write = .ok bytes →
      ∃ d, readCalls (t.items.map Item.call) (.new bytes) = .ok (t.items, d) ∧
        d.position = bytes.length ∧ d.isEmpty = true) ∧
    ∀ (arity : UInt32 → UInt32 → Nat) (t u : Tree) (bytes : Bytes), t.Conforms arity →
      u.Conforms arity → t.write = .ok bytes → u.write = .ok bytes → t = u := by
  refine ⟨fun t room => write_total room, fun t bytes written => ?_, fun arity t u bytes => write_inj⟩
  exact ⟨_, read_write written, rfl, by simp [CanonDecoder.isEmpty]⟩

/-- An array of an enum and an enum with a payload, or of an enum with an enum as its
payload and that payload: the same calls. -/
theorem enum_payload_ambiguous :
    ∃ (t u : Tree) (bytes : Bytes), t ≠ u ∧ t.write = .ok bytes ∧ u.write = .ok bytes := by
  have room : (wires (Tree.array [.enum 0 0 [], .enum 0 0 [.null]]).items).length + 18
      ≤ isizeMax := by
    decide +kernel
  obtain ⟨bytes, written⟩ := write_total room
  refine ⟨_, .array [.enum 0 0 [.enum 0 0 []], .null], bytes, ?_, written, ?_⟩
  · intro same
    injection same with values
    injection values with first
    injection first with _ _ payload
    cases payload
  · rw [← written]
    rfl

end OneLink.Canon
