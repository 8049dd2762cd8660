/-
# Capabilities.Wire -- the wire form of a capability

The decoder reads fields at a cursor and refuses what does not fit.  What it accepts at a cursor is
the encoding of what it returns (`operationNames_eq_ok`, `caveatDecode_eq_ok`,
`decodeCaveats_eq_ok`), so that it accepts exactly what `encode` writes, and each of its slices is
within bounds.  What `root` and `attenuate` build keeps both limits of the decoder
(`Fits.attenuate`).

A slice is shorter than 2^63 bytes.
-/
import OneLink.Capabilities.Chain
import OneLink.Library.Trap

namespace OneLink.Capabilities

open Library

set_option autoImplicit false

/-- What a decoding step returns. -/
abbrev Decoded (α : Type) := Except (Stop CapError) α

def malformed (reason : String) : Stop CapError := .fail (.malformed reason)

/-- `checked_add(..).ok_or(..)`. -/
def addOr (a b : Nat) (reason : String) : Decoded Nat := do
  require (a + b < 2 ^ 64) (malformed reason)
  return a + b

/-- `str::from_utf8`. -/
def textOr (bytes : Bytes) (reason : String) : Decoded String :=
  match decodeUtf8 bytes with
  | some s => .ok s
  | none => .error (malformed reason)

/-- `size_of::<String>()`. -/
def sizeOfString : Nat := 24

/-- `size_of::<Caveat>()`. -/
def sizeOfCaveat : Nat := 40

namespace Caveat

/-- One turn of the loop over the names of an `OperationIn` body. -/
def operationName (body : Bytes) (cursor : Nat) : Decoded (String × Nat) := do
  let lengthEnd ← addOr cursor 4 "OperationIn entry length overflows address space"
  require (¬ body.length < lengthEnd) (malformed "OperationIn entry truncated")
  let entryLenBytes ← tryInto 4 (← sliceAt body cursor lengthEnd)
    (.malformed "OperationIn entry length not 4 bytes")
  let l := leValue entryLenBytes.val
  let entryEnd ← addOr lengthEnd l "OperationIn entry body length overflows address space"
  require (¬ body.length < entryEnd) (malformed "OperationIn entry body truncated")
  let s ← textOr (← sliceAt body lengthEnd entryEnd) "OperationIn entry not UTF-8"
  return (s, entryEnd)

def operationNames (body : Bytes) : (count : Nat) → (cursor : Nat) → Decoded (List String × Nat)
  | 0, cursor => return ([], cursor)
  | count + 1, cursor => do
    let (op, cursor) ← operationName body cursor
    let (ops, cursor) ← operationNames body count cursor
    return (op :: ops, cursor)

/-- The body of an `OperationIn` caveat. -/
def decodeOperations (body : Bytes) : Decoded (List String) := do
  require (¬ body.length < 4) (malformed "OperationIn header < 4 bytes")
  let countBytes ← tryInto 4 (← sliceAt body 0 4) (.malformed "OperationIn count field not 4 bytes")
  let count := leValue countBytes.val
  let structurallyPossible := (body.length - 4) / 4
  require (¬ count > structurallyPossible) (malformed "OperationIn count exceeds encoded body")
  require (¬ count > maxOperationNames)
    (malformed "OperationIn count exceeds MAX_OPERATION_NAMES")
  withCapacity count sizeOfString
  let (ops, cursor) ← operationNames body count 4
  require (¬ cursor ≠ body.length) (malformed "OperationIn body has trailing bytes")
  return ops

def decodeBody (tagByte : UInt8) (body : Bytes) : Decoded Caveat :=
  if tagByte = 0x01 then do
    require (¬ body.length ≠ 8) (malformed "ExpiresAt body != 8 bytes")
    let msBytes ← tryInto 8 body
      (.malformed "ExpiresAt body not 8 bytes (bounds invariant violated)")
    return .expiresAt (UInt64.ofNat (leValue msBytes.val))
  else if tagByte = 0x02 then do
    require (¬ body.length ≠ 32) (malformed "PeerFingerprint body != 32 bytes")
    let fp ← copyFromSlice 32 body
    return .peerFingerprint fp
  else if tagByte = 0x03 then do
    let s ← textOr body "PathPrefix body not UTF-8"
    return .pathPrefix s
  else if tagByte = 0x04 then do
    let ops ← decodeOperations body
    return .operationIn ops
  else if tagByte = 0x05 then do
    let s ← textOr body "AuditTag body not UTF-8"
    return .auditTag s
  else .error (.fail (.unknownCaveat tagByte))

/-- `Caveat::decode`: the caveat and the number of bytes consumed. -/
def decode (buf : Bytes) : Decoded (Caveat × Nat) := do
  require (¬ buf.length < 5) (malformed "caveat header < 5 bytes")
  let tagByte ← byteAt buf 0
  let lenBytes ← tryInto 4 (← sliceAt buf 1 5) (.malformed "caveat length field not 4 bytes")
  let len := leValue lenBytes.val
  let bodyEnd ← addOr 5 len "caveat length overflows address space"
  require (¬ buf.length < bodyEnd) (malformed "caveat truncated")
  let body ← sliceAt buf 5 bodyEnd
  let caveat ← decodeBody tagByte body
  return (caveat, bodyEnd)

end Caveat

/-- A caveat that has passed its check. -/
abbrev ValidCaveat := { c : Caveat // c.validateForWire = .ok () }

/-- `validate_for_wire()?` on a caveat. -/
def checkedCaveat (c : Caveat) : Decoded ValidCaveat :=
  match checked : c.validateForWire with
  | .ok () => .ok ⟨c, checked⟩
  | .error err => .error (.fail err)

namespace Capability

/-- `Capability::encode`. -/
def encode (cap : Capability) : Bytes :=
  cap.id.val ++ lengthField cap.caveats.length ++ cap.caveats.flatMap Caveat.encode ++
    cap.signature.val

/-- The loop of `Capability::decode`. -/
def decodeCaveats (bytes : Bytes) :
    (count : Nat) → (cursor : Nat) → Decoded (List ValidCaveat × Nat)
  | 0, cursor => return ([], cursor)
  | count + 1, cursor => do
    let bound ← addWord cursor 32
    require (¬ bytes.length < bound) (malformed "caveat list overruns wire bytes")
    let stop ← subWord bytes.length 32
    let (caveat, consumed) ← Caveat.decode (← sliceAt bytes cursor stop)
    let caveat ← checkedCaveat caveat
    let cursor ← addWord cursor consumed
    let (caveats, cursor) ← decodeCaveats bytes count cursor
    return (caveat :: caveats, cursor)

/-- `Capability::decode`. -/
def decode (bytes : Bytes) : Decoded Capability := do
  require (¬ bytes.length > maxWireBytes) (malformed "wire bytes exceed MAX_WIRE_BYTES")
  require (¬ bytes.length < 32 + 4 + 32)
    (malformed "wire bytes shorter than minimum header + footer")
  let id ← copyFromSlice 32 (← sliceAt bytes 0 32)
  let countBytes ← tryInto 4 (← sliceAt bytes 32 (32 + 4))
    (.malformed "count field not 4 bytes (bounds-check invariant violated)")
  let count := leValue countBytes.val
  require (¬ count > maxCaveats) (malformed "caveat count exceeds MAX_CAVEATS")
  withCapacity count sizeOfCaveat
  let (caveats, cursor) ← decodeCaveats bytes count (32 + 4)
  let bound ← addWord cursor 32
  require (¬ bytes.length ≠ bound) (malformed "wire bytes do not end with signature exactly")
  let signature ← copyFromSlice 32 (← sliceAt bytes cursor bound)
  return { id := id
           caveats := caveats.map Subtype.val
           signature := signature
           valid := fun c isCaveat => by
             obtain ⟨checked, _, rfl⟩ := List.mem_map.1 isCaveat
             exact checked.property }

end Capability

/-! ## What the steps accept -/

theorem addOr_eq_ok {a b n : Nat} {reason : String} :
    addOr a b reason = .ok n ↔ a + b < 2 ^ 64 ∧ a + b = n := by
  simp only [addOr, bind_eq_ok, require_eq_ok, exists_const, pure_eq_ok_iff]

theorem textOr_eq_ok {bytes : Bytes} {reason : String} {s : String} :
    textOr bytes reason = .ok s ↔ utf8 s = bytes := by
  rw [← decodeUtf8_eq_some, textOr]
  cases decodeUtf8 bytes with
  | some t => simp
  | none => simp

theorem checkedCaveat_eq_ok {c : Caveat} {checked : ValidCaveat} :
    checkedCaveat c = .ok checked ↔ checked.val = c := by
  rw [checkedCaveat]
  split
  · rw [Except.ok.injEq, Subtype.ext_iff]
    exact eq_comm
  · rename_i err failed
    refine ⟨nofun, fun same => ?_⟩
    have passed := checked.property
    rw [same, failed] at passed
    cases passed

theorem withCapacity_eq_ok {count size : Nat} {done : Unit} :
    (withCapacity count size : Decoded Unit) = .ok done ↔ count * size < 2 ^ 63 := require_eq_ok

/-- A length field holds the number it is read as. -/
theorem lengthField_leValue {bytes : Bytes} (width : bytes.length = 4) :
    lengthField (leValue bytes) = bytes := by
  have small := leValue_lt bytes
  rw [width] at small
  rw [lengthField, Nat.min_eq_left (by omega), ← width, leBytes_leValue]

theorem leValue_lengthField {n : Nat} (small : n < 2 ^ 32) : leValue (lengthField n) = n := by
  rw [lengthField, Nat.min_eq_left (by omega), leValue_leBytes (by omega)]

theorem leValue_four_lt {bytes : Bytes} (width : bytes.length = 4) : leValue bytes < 2 ^ 32 := by
  have small := leValue_lt bytes
  rwa [width] at small

/-- One name is read exactly where its bytes are. -/
theorem Caveat.operationName_eq_ok {body : Bytes} {cursor stop : Nat} {s : String}
    (short : body.length < 2 ^ 63) :
    Caveat.operationName body cursor = .ok (s, stop) ↔
      cursor ≤ stop ∧ stop ≤ body.length ∧ slice body cursor stop = operationBytes s ∧
        (utf8 s).length < 2 ^ 32 := by
  simp only [Caveat.operationName, bind_eq_ok, addOr_eq_ok, require_eq_ok, exists_const,
    sliceAt_eq_ok, tryInto_eq_ok, textOr_eq_ok, pure_eq_ok_iff, Prod.mk.injEq]
  constructor
  · rintro ⟨lengthEnd, ⟨_, rfl⟩, _, lengthBytes, ⟨inField, rfl⟩, field, read, entryEnd, ⟨_, rfl⟩, _,
      text, ⟨inText, rfl⟩, s', utf, rfl, rfl⟩
    refine ⟨by omega, by omega, ?_, ?_⟩
    · rw [← slice_append_slice body inField.1 inText.1, operationBytes, utf, length_slice inText.2,
        Nat.add_sub_cancel_left, lengthField_leValue field.property, read]
    · rw [utf, length_slice inText.2, Nat.add_sub_cancel_left]
      exact leValue_four_lt field.property
  · rintro ⟨order, inside, bytes, small⟩
    have wide := congrArg List.length bytes
    rw [length_slice inside, operationBytes, List.length_append, length_lengthField] at wide
    rw [← slice_append_slice body (by omega : cursor ≤ cursor + 4) (by omega), operationBytes] at bytes
    obtain ⟨fields, texts⟩ := List.append_inj bytes
      (by rw [length_slice (by omega), length_lengthField]; omega)
    refine ⟨cursor + 4, ⟨by omega, rfl⟩, by omega, _, ⟨⟨by omega, by omega⟩, rfl⟩,
      ⟨lengthField (utf8 s).length, length_lengthField _⟩, fields, stop, ?_, by omega, _,
      ⟨⟨by omega, inside⟩, rfl⟩, s, texts.symm, rfl, rfl⟩
    rw [leValue_lengthField small]
    omega

theorem Caveat.operationNames_eq_ok {body : Bytes} (short : body.length < 2 ^ 63) {count : Nat} :
    ∀ {cursor stop : Nat} {ops : List String}, cursor ≤ body.length →
      (Caveat.operationNames body count cursor = .ok (ops, stop) ↔
        ops.length = count ∧ cursor ≤ stop ∧ stop ≤ body.length ∧
          slice body cursor stop = ops.flatMap operationBytes ∧
          ∀ op ∈ ops, (utf8 op).length < 2 ^ 32) := by
  induction count with
  | zero =>
    intro cursor stop ops inside
    rw [Caveat.operationNames, pure_eq_ok_iff, Prod.mk.injEq]
    constructor
    · rintro ⟨rfl, rfl⟩
      exact ⟨rfl, Nat.le_refl _, inside, by simp [slice], by simp⟩
    · rintro ⟨empty, order, inside', bytes, _⟩
      obtain rfl := List.length_eq_zero_iff.1 empty
      have wide := congrArg List.length bytes
      rw [length_slice inside', List.flatMap_nil, List.length_nil] at wide
      exact ⟨rfl, by omega⟩
  | succ count ih =>
    intro cursor stop ops inside
    simp only [Caveat.operationNames, bind_eq_ok, Prod.exists, pure_eq_ok_iff, Prod.mk.injEq,
      Caveat.operationName_eq_ok short]
    constructor
    · rintro ⟨op, middle, ⟨order, inMiddle, bytes, small⟩, rest, _, ran, rfl, rfl⟩
      obtain ⟨counted, order', inside', bytes', smalls⟩ := (ih inMiddle).1 ran
      refine ⟨by rw [List.length_cons, counted], Nat.le_trans order order', inside', ?_, ?_⟩
      · rw [List.flatMap_cons, ← bytes, ← bytes', slice_append_slice body order order']
      · rw [List.forall_mem_cons]
        exact ⟨small, smalls⟩
    · rintro ⟨counted, order, inside', bytes, smalls⟩
      cases ops with
      | nil => cases counted
      | cons op ops =>
        rw [List.forall_mem_cons] at smalls
        rw [List.flatMap_cons] at bytes
        have wide := congrArg List.length bytes
        rw [length_slice inside', List.length_append] at wide
        rw [← slice_append_slice body (Nat.le_add_right cursor (operationBytes op).length)
          (by omega)] at bytes
        obtain ⟨first, others⟩ := List.append_inj bytes (by rw [length_slice (by omega)]; omega)
        refine ⟨op, _, ⟨Nat.le_add_right _ _, by omega, first, smalls.1⟩, ops, stop,
          (ih (by omega)).2 ⟨Nat.succ.inj counted, by omega, inside', others, smalls.2⟩, rfl, rfl⟩

/-- Every name takes its length field. -/
theorem Caveat.four_mul_length_le (ops : List String) :
    4 * ops.length ≤ (ops.flatMap operationBytes).length := by
  induction ops with
  | nil => exact Nat.le_refl 0
  | cons op ops ih =>
    rw [List.flatMap_cons, List.length_append, List.length_cons, operationBytes, List.length_append,
      length_lengthField]
    omega

theorem Caveat.operation_le {ops : List String} {op : String} (isOp : op ∈ ops) :
    (utf8 op).length ≤ (ops.flatMap operationBytes).length := by
  induction ops with
  | nil => cases isOp
  | cons head ops ih =>
    rw [List.flatMap_cons, List.length_append, operationBytes, List.length_append]
    rcases List.mem_cons.1 isOp with rfl | later
    · omega
    · have inRest := ih later
      omega

theorem Caveat.decodeOperations_sound {body : Bytes} {ops : List String}
    (short : body.length < 2 ^ 63) (ran : Caveat.decodeOperations body = .ok ops) :
    (Caveat.operationIn ops).body = body := by
  simp only [Caveat.decodeOperations, bind_eq_ok, require_eq_ok, exists_const, sliceAt_eq_ok,
    tryInto_eq_ok, withCapacity_eq_ok, Prod.exists, pure_eq_ok_iff] at ran
  obtain ⟨header, _, ⟨_, rfl⟩, field, read, _, _, _, ops', stop, names, ends, rfl⟩ := ran
  obtain ⟨counted, order, inside, bytes, _⟩ := (operationNames_eq_ok short (by omega)).1 names
  obtain rfl : stop = body.length := not_not.1 ends
  rw [Caveat.body, counted, ← bytes, lengthField_leValue field.property, ← read,
    slice_append_slice body (Nat.zero_le 4) order, slice_all]

theorem Caveat.decodeOperations_encode {ops : List String}
    (valid : (Caveat.operationIn ops).validateForWire = .ok ()) :
    Caveat.decodeOperations (Caveat.operationIn ops).body = .ok ops := by
  have small := Caveat.validateForWire_small valid
  have few : ops.length ≤ maxOperationNames := by
    simp only [Caveat.validateForWire, Caveat.bodyLength, bind_eq_ok, require_eq_ok, exists_const]
      at valid
    exact valid.choose_spec.1.1
  have fields := four_mul_length_le ops
  have wide : (Caveat.operationIn ops).body.length = 4 + (ops.flatMap operationBytes).length := by
    rw [Caveat.body, List.length_append, length_lengthField]
  have start : slice (Caveat.operationIn ops).body 0 4 = lengthField ops.length := by
    rw [slice_zero, Caveat.body, List.take_left' (length_lengthField _)]
  have behind : slice (Caveat.operationIn ops).body 4 (Caveat.operationIn ops).body.length =
      ops.flatMap operationBytes := by
    rw [slice, List.take_length, Caveat.body, List.drop_left' (length_lengthField _)]
  simp only [Caveat.decodeOperations, bind_eq_ok, require_eq_ok, exists_const, sliceAt_eq_ok,
    tryInto_eq_ok, withCapacity_eq_ok, Prod.exists, pure_eq_ok_iff]
  have count : leValue (lengthField ops.length) = ops.length := by
    rw [maxOperationNames] at few
    exact leValue_lengthField (by omega)
  refine ⟨by omega, _, ⟨⟨by omega, by omega⟩, rfl⟩, ⟨_, length_lengthField ops.length⟩, start, ?_, ?_,
    ?_, ops, _, (Caveat.operationNames_eq_ok (by omega) (by omega)).2
      ⟨count.symm, by omega, Nat.le_refl _, behind, fun op isOp => ?_⟩, not_not.2 rfl, rfl⟩
  · rw [count]
    omega
  · rw [count]
    exact Nat.not_lt.2 few
  · rw [count, sizeOfString]
    rw [maxOperationNames] at few
    omega
  · have inBody := operation_le isOp
    omega

theorem Caveat.decodeBody_sound {tagByte : UInt8} {body : Bytes} {c : Caveat}
    (short : body.length < 2 ^ 63) (ran : Caveat.decodeBody tagByte body = .ok c) :
    c.tag = tagByte ∧ c.body = body := by
  rw [Caveat.decodeBody] at ran
  split at ran
  · rename_i isTag
    simp only [bind_eq_ok, require_eq_ok, exists_const, tryInto_eq_ok, pure_eq_ok_iff] at ran
    obtain ⟨_, field, rfl, rfl⟩ := ran
    refine ⟨isTag.symm, ?_⟩
    have small := leValue_lt field.val
    have bytes := leBytes_leValue field.val
    rw [field.property] at small bytes
    rw [Caveat.body, UInt64.toNat_ofNat_of_lt' (by exact small), bytes]
  split at ran
  · rename_i isTag
    simp only [bind_eq_ok, require_eq_ok, exists_const, copyFromSlice_eq_ok, pure_eq_ok_iff] at ran
    obtain ⟨_, fp, rfl, rfl⟩ := ran
    exact ⟨isTag.symm, rfl⟩
  split at ran
  · rename_i isTag
    simp only [bind_eq_ok, textOr_eq_ok, pure_eq_ok_iff] at ran
    obtain ⟨s, rfl, rfl⟩ := ran
    exact ⟨isTag.symm, rfl⟩
  split at ran
  · rename_i isTag
    simp only [bind_eq_ok, pure_eq_ok_iff] at ran
    obtain ⟨ops, ran, rfl⟩ := ran
    exact ⟨isTag.symm, Caveat.decodeOperations_sound short ran⟩
  split at ran
  · rename_i isTag
    simp only [bind_eq_ok, textOr_eq_ok, pure_eq_ok_iff] at ran
    obtain ⟨s, rfl, rfl⟩ := ran
    exact ⟨isTag.symm, rfl⟩
  · cases ran

theorem Caveat.decodeBody_encode {c : Caveat} (valid : c.validateForWire = .ok ()) :
    Caveat.decodeBody c.tag c.body = .ok c := by
  cases c with
  | expiresAt ms =>
    have value : leValue (leBytes 8 ms.toNat) = ms.toNat := leValue_leBytes ms.toNat_lt
    simp only [Caveat.decodeBody, Caveat.tag, if_pos, bind_eq_ok, require_eq_ok, exists_const,
      tryInto_eq_ok, pure_eq_ok_iff]
    refine ⟨by simp [Caveat.body], ⟨leBytes 8 ms.toNat, length_leBytes 8 _⟩, rfl, ?_⟩
    rw [value, UInt64.ofNat_toNat]
  | peerFingerprint fp =>
    show (do require (¬ fp.val.length ≠ 32) _; let fp' ← copyFromSlice 32 fp.val; _) = _
    rw [require_of (not_not.2 fp.property), ok_bind, copyFromSlice_eq_ok.2 rfl]
    rfl
  | pathPrefix p =>
    show (do let s ← textOr (utf8 p) _; _) = _
    rw [textOr_eq_ok.2 rfl]
    rfl
  | operationIn ops =>
    show (do let ops' ← Caveat.decodeOperations (Caveat.operationIn ops).body; _) = _
    rw [Caveat.decodeOperations_encode valid]
    rfl
  | auditTag tag =>
    show (do let s ← textOr (utf8 tag) _; _) = _
    rw [textOr_eq_ok.2 rfl]
    rfl

/-- What `decode` reads is the encoding of what it returns. -/
theorem Caveat.decode_sound {buf : Bytes} {c : Caveat} {consumed : Nat}
    (short : buf.length < 2 ^ 63) (ran : Caveat.decode buf = .ok (c, consumed)) :
    consumed ≤ buf.length ∧ slice buf 0 consumed = c.encode := by
  simp only [Caveat.decode, bind_eq_ok, require_eq_ok, exists_const, byteAt_eq_ok, sliceAt_eq_ok,
    tryInto_eq_ok, addOr_eq_ok, pure_eq_ok_iff, Prod.mk.injEq] at ran
  obtain ⟨header, tagByte, first, _, ⟨_, rfl⟩, field, read, bodyEnd, ⟨_, rfl⟩, inside, body,
    ⟨inBody, rfl⟩, c', ran, rfl, rfl⟩ := ran
  have within : (slice buf 5 (5 + leValue field.val)).length < 2 ^ 63 := by
    rw [length_slice inBody.2]
    omega
  obtain ⟨tags, bodies⟩ := Caveat.decodeBody_sound within ran
  refine ⟨inBody.2, ?_⟩
  have one : slice buf 0 1 = [tagByte] := by
    rw [slice_one (by omega : 0 < buf.length), List.getD_eq_getElem?_getD, first]
    rfl
  have fields : lengthField (leValue field.val) = slice buf 1 5 := by
    rw [lengthField_leValue field.property, read]
  rw [Caveat.encode, tags, bodies, length_slice inBody.2, Nat.add_sub_cancel_left, fields,
    slice_append_slice buf (by omega) inBody.1, ← List.singleton_append, ← one,
    slice_append_slice buf (by omega) (by omega)]

/-- A checked caveat is read back from its encoding. -/
theorem Caveat.decode_encode {buf : Bytes} {c : Caveat} {consumed : Nat}
    (short : buf.length < 2 ^ 63) (valid : c.validateForWire = .ok ())
    (inside : consumed ≤ buf.length) (bytes : slice buf 0 consumed = c.encode) :
    Caveat.decode buf = .ok (c, consumed) := by
  have small := Caveat.validateForWire_small valid
  have wide := congrArg List.length bytes
  rw [length_slice inside, Caveat.encode, List.length_cons, List.length_append,
    length_lengthField] at wide
  rw [← slice_append_slice buf (Nat.zero_le 1) (by omega), slice_one (by omega : 0 < buf.length),
    Caveat.encode, List.singleton_append, List.cons.injEq,
    ← slice_append_slice buf (by omega : 1 ≤ 5) (by omega)] at bytes
  obtain ⟨tags, behind⟩ := bytes
  obtain ⟨fields, bodies⟩ := List.append_inj behind
    (by rw [length_slice (by omega), length_lengthField])
  simp only [Caveat.decode, bind_eq_ok, require_eq_ok, exists_const, byteAt_eq_ok, sliceAt_eq_ok,
    tryInto_eq_ok, addOr_eq_ok, pure_eq_ok_iff, Prod.mk.injEq]
  refine ⟨by omega, c.tag, ?_, _, ⟨⟨by omega, by omega⟩, rfl⟩,
    ⟨lengthField c.body.length, length_lengthField _⟩, fields, consumed, ?_, by omega, _,
    ⟨⟨by omega, inside⟩, rfl⟩, c, ?_, rfl, rfl⟩
  · rw [← tags, List.getD_eq_getElem?_getD, List.getElem?_eq_getElem (by omega)]
    rfl
  · rw [leValue_lengthField small]
    omega
  · rw [bodies]
    exact Caveat.decodeBody_encode valid

namespace Capability

open Caveat (length_lengthField checkedAdd_eq_ok)

theorem decodeCaveats_sound {bytes : Bytes} (short : bytes.length < 2 ^ 63) {count : Nat} :
    ∀ {cursor stop : Nat} {caveats : List ValidCaveat}, cursor ≤ bytes.length →
      decodeCaveats bytes count cursor = .ok (caveats, stop) →
        caveats.length = count ∧ cursor ≤ stop ∧ stop ≤ bytes.length ∧
          slice bytes cursor stop = (caveats.map Subtype.val).flatMap Caveat.encode := by
  induction count with
  | zero =>
    intro cursor stop caveats inside ran
    rw [decodeCaveats, pure_eq_ok_iff, Prod.mk.injEq] at ran
    obtain ⟨rfl, rfl⟩ := ran
    exact ⟨rfl, Nat.le_refl _, inside, by simp [slice]⟩
  | succ count ih =>
    intro cursor stop caveats inside ran
    simp only [decodeCaveats, bind_eq_ok, addWord_eq_ok, subWord_eq_ok, require_eq_ok, exists_const,
      sliceAt_eq_ok, Prod.exists, pure_eq_ok_iff, Prod.mk.injEq, checkedCaveat_eq_ok] at ran
    obtain ⟨_, ⟨_, rfl⟩, room, last, ⟨_, rfl⟩, _, ⟨window, rfl⟩, c, consumed, read, checked, rfl, next,
      ⟨_, rfl⟩, rest, _, ran, rfl, rfl⟩ := ran
    have wide : (slice bytes cursor (bytes.length - 32)).length = bytes.length - 32 - cursor :=
      length_slice window.2
    obtain ⟨within, encoded⟩ := Caveat.decode_sound (by omega) read
    rw [slice_slice bytes (by omega), Nat.add_zero] at encoded
    obtain ⟨counted, order, inside', others⟩ := ih (by omega) ran
    refine ⟨by rw [List.length_cons, counted], by omega, inside', ?_⟩
    rw [List.map_cons, List.flatMap_cons, ← encoded, ← others,
      slice_append_slice bytes (Nat.le_add_right _ _) order]

theorem decodeCaveats_encode {bytes : Bytes} (short : bytes.length < 2 ^ 63)
    {caveats : List ValidCaveat} :
    ∀ {cursor stop : Nat}, cursor ≤ stop → stop + 32 ≤ bytes.length →
      slice bytes cursor stop = (caveats.map Subtype.val).flatMap Caveat.encode →
        decodeCaveats bytes caveats.length cursor = .ok (caveats, stop) := by
  induction caveats with
  | nil =>
    intro cursor stop order room encoded
    have wide := congrArg List.length encoded
    rw [length_slice (by omega), List.map_nil, List.flatMap_nil, List.length_nil] at wide
    rw [List.length_nil, decodeCaveats, show cursor = stop by omega]
    rfl
  | cons c caveats ih =>
    intro cursor stop order room encoded
    have wide := congrArg List.length encoded
    rw [length_slice (by omega), List.map_cons, List.flatMap_cons, List.length_append] at wide
    rw [List.map_cons, List.flatMap_cons,
      ← slice_append_slice bytes (Nat.le_add_right cursor c.val.encode.length) (by omega)] at encoded
    obtain ⟨first, others⟩ := List.append_inj encoded (by rw [length_slice (by omega)]; omega)
    have window : (slice bytes cursor (bytes.length - 32)).length = bytes.length - 32 - cursor :=
      length_slice (by omega)
    simp only [List.length_cons, decodeCaveats, bind_eq_ok, addWord_eq_ok, subWord_eq_ok, require_eq_ok,
      exists_const, sliceAt_eq_ok, Prod.exists, pure_eq_ok_iff, Prod.mk.injEq, checkedCaveat_eq_ok]
    refine ⟨_, ⟨by omega, rfl⟩, by omega, _, ⟨by omega, rfl⟩, _, ⟨⟨by omega, by omega⟩, rfl⟩, c.val,
      c.val.encode.length, Caveat.decode_encode (by omega) c.property (by omega) ?_, c, rfl, _,
      ⟨by omega, rfl⟩, caveats, stop, ih (by omega) room others, rfl, rfl⟩
    rw [slice_slice bytes (by omega), Nat.add_zero, first]

/-! ## The decoder's limits -/

/-- Within what `decode` takes. -/
structure Fits (cap : Capability) : Prop where
  few : cap.caveats.length ≤ maxCaveats
  short : cap.encode.length ≤ maxWireBytes

theorem length_encode (cap : Capability) :
    cap.encode.length = 68 + (cap.caveats.flatMap Caveat.encode).length := by
  rw [encode, List.length_append, List.length_append, List.length_append, cap.id.property,
    cap.signature.property, length_lengthField]
  omega

theorem Fits.root (P : Primitives) (id rootKey : Bytes32) : Fits (Capability.root P id rootKey) where
  few := Nat.zero_le _
  short := by
    rw [length_encode]
    exact (by decide : 68 + 0 ≤ maxWireBytes)

theorem encodedLen_caveat {c : Caveat} {n : Nat} (counted : c.encodedLen = .ok n) :
    c.encode.length = n := by
  simp only [Caveat.encodedLen, bind_eq_ok, checkedAdd_eq_ok] at counted
  obtain ⟨_, _, bodyLen, ran, _, rfl⟩ := counted
  rw [Caveat.encode, List.length_cons, List.length_append, length_lengthField, Caveat.bodyLength_eq ran]
  omega

theorem caveatsLength_eq {caveats : List Caveat} :
    ∀ {len total : Nat}, caveatsLength len caveats = .ok total →
      total = len + (caveats.flatMap Caveat.encode).length := by
  induction caveats with
  | nil =>
    intro len total ran
    rw [List.flatMap_nil, List.length_nil, Nat.add_zero]
    exact (Except.ok.inj ran).symm
  | cons c rest ih =>
    intro len total ran
    simp only [caveatsLength, bind_eq_ok, checkedAdd_eq_ok] at ran
    obtain ⟨n, counted, _, ⟨_, rfl⟩, ran⟩ := ran
    rw [ih ran, List.flatMap_cons, List.length_append, encodedLen_caveat counted]
    omega

/-- One attenuation keeps the limits. -/
theorem Fits.attenuate {P : Primitives} {cap cap' : Capability} {caveat : Caveat}
    (ran : cap.attenuate P caveat = .ok cap') : Fits cap' := by
  simp only [Capability.attenuate, bind_eq_ok, require_eq_ok, exists_const] at ran
  obtain ⟨few, currentLen, counted, ran⟩ := ran
  split at ran
  · cases ran
  · rename_i caveatLen countedCaveat
    simp only [bind_eq_ok, require_eq_ok, exists_const, checkedAdd_eq_ok, Except.ok.injEq] at ran
    obtain ⟨_, ⟨_, rfl⟩, short, rfl⟩ := ran
    refine ⟨?_, ?_⟩
    · rw [List.length_append, List.length_singleton]
      omega
    · rw [length_encode, List.flatMap_append, List.length_append, List.flatMap_singleton,
        encodedLen_caveat countedCaveat]
      have current := caveatsLength_eq counted
      omega

theorem Fits.attenuateAll {P : Primitives} {caveats : List Caveat} :
    ∀ {cap cap' : Capability}, Fits cap → cap.attenuateAll P caveats = .ok cap' → Fits cap' := by
  induction caveats with
  | nil =>
    intro cap cap' fits ran
    obtain rfl : cap = cap' := Except.ok.inj ran
    exact fits
  | cons c rest ih =>
    intro cap cap' _ ran
    simp only [Capability.attenuateAll, bind_eq_ok] at ran
    obtain ⟨next, first, ran⟩ := ran
    exact ih (Fits.attenuate first) ran

/-! ## Both ways -/

theorem decode_sound {bytes : Bytes} {cap : Capability} (ran : decode bytes = .ok cap) :
    cap.encode = bytes := by
  simp only [decode, bind_eq_ok, addWord_eq_ok, require_eq_ok, exists_const, sliceAt_eq_ok,
    tryInto_eq_ok, copyFromSlice_eq_ok, withCapacity_eq_ok, Prod.exists, pure_eq_ok_iff] at ran
  obtain ⟨short, long, _, ⟨_, rfl⟩, id, isId, _, ⟨_, rfl⟩, field, read, _, _, caveats, stop, ran, bound,
    ⟨_, rfl⟩, ends, _, ⟨last, rfl⟩, signature, isSignature, rfl⟩ := ran
  rw [maxWireBytes] at short
  obtain ⟨counted, order, inside, encoded⟩ := decodeCaveats_sound (by omega) (by omega) ran
  have whole : bytes.length = stop + 32 := not_not.1 ends
  have fields : lengthField (caveats.map Subtype.val).length = slice bytes 32 (32 + 4) := by
    rw [List.length_map, counted, lengthField_leValue field.property, read]
  rw [encode, fields, ← isId, ← isSignature, ← encoded, slice_append_slice bytes (by omega) (by omega),
    slice_append_slice bytes (by omega) order, slice_append_slice bytes (by omega) (by omega), ← whole,
    slice_all]

theorem decode_encode {cap : Capability} (fits : Fits cap) : decode cap.encode = .ok cap := by
  obtain ⟨few, short⟩ := fits
  have wide := length_encode cap
  rw [maxWireBytes] at short
  have width : cap.id.val.length = 32 := cap.id.property
  have width' : cap.signature.val.length = 32 := cap.signature.property
  have idAt : slice cap.encode 0 32 = cap.id.val := by
    rw [slice_zero, encode, List.append_assoc, List.append_assoc, List.take_left' width]
  have countAt : slice cap.encode 32 (32 + 4) = lengthField cap.caveats.length := by
    have middle := slice_middle cap.id.val (lengthField cap.caveats.length)
      (cap.caveats.flatMap Caveat.encode ++ cap.signature.val)
    rwa [width, length_lengthField, ← List.append_assoc, ← List.append_assoc] at middle
  have caveatsAt : slice cap.encode (32 + 4) (cap.encode.length - 32) =
      cap.caveats.flatMap Caveat.encode := by
    have middle := slice_middle (cap.id.val ++ lengthField cap.caveats.length)
      (cap.caveats.flatMap Caveat.encode) cap.signature.val
    rw [List.length_append, width, length_lengthField, ← List.append_assoc] at middle
    rw [show cap.encode.length - 32 = 32 + 4 + (cap.caveats.flatMap Caveat.encode).length by omega]
    exact middle
  have signatureAt : slice cap.encode (cap.encode.length - 32) (cap.encode.length - 32 + 32) =
      cap.signature.val := by
    rw [slice, List.take_of_length_le (by omega)]
    refine List.drop_left' ?_
    rw [wide, List.length_append, List.length_append, width, length_lengthField]
    omega
  -- the caveats with the checks they carry
  obtain ⟨checked, isMap⟩ : ∃ checked : List ValidCaveat, cap.caveats = checked.map Subtype.val :=
    ⟨cap.caveats.attach.map fun c => ⟨c.val, cap.valid c.val c.property⟩, by simp⟩
  have counted : cap.caveats.length = checked.length := by rw [isMap, List.length_map]
  have count : leValue (lengthField cap.caveats.length) = cap.caveats.length := by
    rw [maxCaveats] at few
    exact leValue_lengthField (by omega)
  simp only [decode, bind_eq_ok, addWord_eq_ok, require_eq_ok, exists_const, sliceAt_eq_ok,
    tryInto_eq_ok, copyFromSlice_eq_ok, withCapacity_eq_ok, Prod.exists, pure_eq_ok_iff]
  refine ⟨by rw [maxWireBytes]; omega, by omega, _, ⟨⟨by omega, by omega⟩, rfl⟩, cap.id, idAt, _,
    ⟨⟨by omega, by omega⟩, rfl⟩, ⟨_, length_lengthField cap.caveats.length⟩, countAt, ?_, ?_, checked,
    cap.encode.length - 32, ?_, _, ⟨by omega, rfl⟩, by omega, _, ⟨⟨by omega, by omega⟩, rfl⟩,
    cap.signature, signatureAt, ?_⟩
  · rw [count]
    exact Nat.not_lt.2 few
  · rw [count, sizeOfCaveat]
    rw [maxCaveats] at few
    omega
  · rw [count, counted]
    exact decodeCaveats_encode (by omega) (by omega) (by omega) (by rw [caveatsAt, isMap])
  · cases cap
    simp_all

end Capability

/-! ## No trap -/

theorem safe_addOr (a b : Nat) (reason : String) : Safe (addOr a b reason) :=
  Safe.require_bind fun _ => safe_pure _

theorem safe_textOr (bytes : Bytes) (reason : String) : Safe (textOr bytes reason) := by
  rw [textOr]
  cases decodeUtf8 bytes with
  | some s => exact safe_ok s
  | none => exact safe_fail _

theorem safe_checkedCaveat (c : Caveat) : Safe (checkedCaveat c) := by
  rw [checkedCaveat]
  split
  · exact safe_ok _
  · exact safe_fail _

theorem Caveat.safe_operationName (body : Bytes) (cursor : Nat) :
    Safe (Caveat.operationName body cursor) := by
  refine (safe_addOr _ _ _).bind fun lengthEnd added => Safe.require_bind fun room => ?_
  rw [addOr_eq_ok] at added
  refine (safe_sliceAt (by omega) (by omega)).bind fun _ _ => (safe_tryInto _ _ _).bind fun _ _ => ?_
  refine (safe_addOr _ _ _).bind fun entryEnd added' => Safe.require_bind fun room' => ?_
  rw [addOr_eq_ok] at added'
  refine (safe_sliceAt (by omega) (by omega)).bind fun _ _ => ?_
  exact (safe_textOr _ _).bind fun _ _ => safe_pure _

theorem Caveat.safe_operationNames (body : Bytes) (count : Nat) :
    ∀ cursor, Safe (Caveat.operationNames body count cursor) := by
  induction count with
  | zero => exact fun cursor => safe_pure _
  | succ count ih =>
    intro cursor
    refine (Caveat.safe_operationName body cursor).bind fun _ _ => ?_
    exact (ih _).bind fun _ _ => safe_pure _

theorem Caveat.safe_decodeOperations (body : Bytes) : Safe (Caveat.decodeOperations body) := by
  refine Safe.require_bind fun header => (safe_sliceAt (by omega) (by omega)).bind fun _ _ => ?_
  refine (safe_tryInto _ _ _).bind fun field _ => Safe.require_bind fun _ => Safe.require_bind fun few => ?_
  -- the count is checked before memory is asked for
  have room : leValue field.val * sizeOfString < 2 ^ 63 := by
    rw [maxOperationNames] at few
    rw [sizeOfString]
    omega
  refine (safe_withCapacity room).bind fun _ _ => (Caveat.safe_operationNames _ _ _).bind fun _ _ => ?_
  exact Safe.require_bind fun _ => safe_pure _

theorem Caveat.safe_decodeBody (tagByte : UInt8) (body : Bytes) :
    Safe (Caveat.decodeBody tagByte body) := by
  rw [Caveat.decodeBody]
  split
  · exact Safe.require_bind fun _ => (safe_tryInto _ _ _).bind fun _ _ => safe_pure _
  split
  · refine Safe.require_bind fun width => ?_
    exact (safe_copyFromSlice (not_not.1 width)).bind fun _ _ => safe_pure _
  split
  · exact (safe_textOr _ _).bind fun _ _ => safe_pure _
  split
  · exact (Caveat.safe_decodeOperations body).bind fun _ _ => safe_pure _
  split
  · exact (safe_textOr _ _).bind fun _ _ => safe_pure _
  · exact safe_fail _

theorem Caveat.safe_decode (buf : Bytes) : Safe (Caveat.decode buf) := by
  refine Safe.require_bind fun header => (safe_byteAt (by omega)).bind fun _ _ => ?_
  refine (safe_sliceAt (by omega) (by omega)).bind fun _ _ => (safe_tryInto _ _ _).bind fun _ _ => ?_
  refine (safe_addOr _ _ _).bind fun bodyEnd added => Safe.require_bind fun inside => ?_
  rw [addOr_eq_ok] at added
  refine (safe_sliceAt (by omega) (by omega)).bind fun _ _ => ?_
  exact (Caveat.safe_decodeBody _ _).bind fun _ _ => safe_pure _

namespace Capability

theorem safe_decodeCaveats {bytes : Bytes} (short : bytes.length < 2 ^ 63) (count : Nat) :
    ∀ cursor, cursor ≤ bytes.length → Safe (decodeCaveats bytes count cursor) := by
  induction count with
  | zero => exact fun cursor _ => safe_pure _
  | succ count ih =>
    intro cursor inside
    refine (safe_addWord (by omega)).bind fun bound added => Safe.require_bind fun room => ?_
    rw [addWord_eq_ok] at added
    refine (safe_subWord (by omega)).bind fun last subtracted => ?_
    rw [subWord_eq_ok] at subtracted
    refine (safe_sliceAt (by omega) (by omega)).bind fun window cut => ?_
    rw [sliceAt_eq_ok] at cut
    obtain ⟨within, rfl⟩ := cut
    have wide : (slice bytes cursor last).length = last - cursor := length_slice within.2
    refine (Caveat.safe_decode _).bind fun read ran => (safe_checkedCaveat _).bind fun _ _ => ?_
    have consumed := (Caveat.decode_sound (by omega) ran).1
    refine (safe_addWord (by omega)).bind fun next added' => ?_
    rw [addWord_eq_ok] at added'
    exact (ih next (by omega)).bind fun _ _ => safe_pure _

theorem safe_decode (bytes : Bytes) : Safe (decode bytes) := by
  refine Safe.require_bind fun short => Safe.require_bind fun long => ?_
  rw [maxWireBytes] at short
  refine (safe_sliceAt (by omega) (by omega)).bind fun front cut => ?_
  rw [sliceAt_eq_ok] at cut
  obtain ⟨_, rfl⟩ := cut
  refine (safe_copyFromSlice (length_slice (by omega))).bind fun _ _ => ?_
  refine (safe_sliceAt (by omega) (by omega)).bind fun _ _ => (safe_tryInto _ _ _).bind fun field _ => ?_
  refine Safe.require_bind fun few => ?_
  have room : leValue field.val * sizeOfCaveat < 2 ^ 63 := by
    rw [maxCaveats] at few
    rw [sizeOfCaveat]
    omega
  refine (safe_withCapacity room).bind fun _ _ => ?_
  refine (safe_decodeCaveats (by omega) _ _ (by omega)).bind fun result ran => ?_
  obtain ⟨_, _, inside, _⟩ := decodeCaveats_sound (by omega) (by omega) ran
  refine (safe_addWord (by omega)).bind fun bound added => Safe.require_bind fun ends => ?_
  rw [addWord_eq_ok] at added
  refine (safe_sliceAt (by omega) (by omega)).bind fun back cut => ?_
  rw [sliceAt_eq_ok] at cut
  obtain ⟨_, rfl⟩ := cut
  exact (safe_copyFromSlice (by rw [length_slice (by omega)]; omega)).bind fun _ _ => safe_pure _

end Capability

/-- **The wire form is a bijection.**  What `root` and `attenuate` build is read back from its
encoding, what is accepted is the encoding of what it is read as, and no byte string traps. -/
theorem wire_bijection (P : Primitives) (rootKey : Bytes32) :
    (∀ (id : Bytes32) (caveats : List Caveat) (cap : Capability),
      (Capability.root P id rootKey).attenuateAll P caveats = .ok cap →
        Capability.decode cap.encode = .ok cap) ∧
    (∀ (bytes : Bytes) (cap : Capability), Capability.decode bytes = .ok cap → cap.encode = bytes) ∧
    ∀ bytes : Bytes, Capability.decode bytes ≠ .error .trap := by
  refine ⟨fun id caveats cap ran => ?_, fun bytes cap => Capability.decode_sound,
    fun bytes => Capability.safe_decode bytes⟩
  exact Capability.decode_encode (Capability.Fits.attenuateAll (Capability.Fits.root P id rootKey) ran)

/-- Two caveats, written and read back. -/
theorem wire_bijection_toy : Capability.decode toyCapability.encode = .ok toyCapability :=
  (wire_bijection toyPrimitives toyKey).1 toyKey [.expiresAt 1000, .pathPrefix "/a"] toyCapability rfl

end OneLink.Capabilities
