/-
# Capabilities.Caveat -- caveats, their wire form and what they accept

A caveat is checked before it enters a signature chain (`validateForWire`), and
a checked caveat is determined by its wire bytes (`encode_inj`): every field is
framed by a 32-bit length that fits.  A path prefix accepts by whole segments
(`pathIsWithinPrefix_segments`).
-/
import OneLink.Library.ByteReader
import OneLink.Library.Checked

namespace OneLink.Capabilities

open Library

set_option autoImplicit false

/-- `[u8; 32]`. -/
abbrev Bytes32 := { bytes : Bytes // bytes.length = 32 }

inductive CapError where
  | resourceLimit (reason : String)
  | signatureMismatch
  | caveatRejected (idx : Nat) (reason : String)
  | unknownCaveat (tag : UInt8)
  | malformed (reason : String)
deriving DecidableEq, Repr

/-- `MAX_OPERATION_NAMES`. -/
def maxOperationNames : Nat := 256

inductive Caveat where
  | expiresAt (ms : UInt64)
  | peerFingerprint (fp : Bytes32)
  | pathPrefix (p : String)
  | operationIn (ops : List String)
  | auditTag (tag : String)
deriving DecidableEq

/-- `usize::checked_add`. -/
def checkedAdd (a b : Nat) (reason : String) : Except CapError Nat :=
  if a + b < 2 ^ 64 then .ok (a + b) else .error (.resourceLimit reason)

/-- `u32::try_from(n).unwrap_or(u32::MAX).to_le_bytes()`. -/
def lengthField (n : Nat) : Bytes := leBytes 4 (min n (2 ^ 32 - 1))

namespace Caveat

/-! ## Wire form -/

/-- The loop over the names of an `OperationIn` caveat. -/
def operationLength : Nat → List String → Except CapError Nat
  | len, [] => .ok len
  | len, op :: ops => do
    require (op ≠ "") (.resourceLimit "OperationIn names must not be empty")
    let framed ← checkedAdd len 4 "OperationIn encoded length overflow"
    let len ← checkedAdd framed (utf8 op).length "OperationIn encoded length overflow"
    operationLength len ops

/-- The body length as `validate_for_wire` computes it. -/
def bodyLength : Caveat → Except CapError Nat
  | .expiresAt _ => .ok 8
  | .peerFingerprint _ => .ok 32
  | .pathPrefix p => do
    require (p ≠ "") (.resourceLimit "PathPrefix must not be empty")
    .ok (utf8 p).length
  | .operationIn ops => do
    require (ops.length ≤ maxOperationNames)
      (.resourceLimit "OperationIn count exceeds MAX_OPERATION_NAMES")
    operationLength 4 ops
  | .auditTag tag => .ok (utf8 tag).length

/-- `validate_for_wire`. -/
def validateForWire (c : Caveat) : Except CapError Unit := do
  let bodyLen ← c.bodyLength
  require (bodyLen < 2 ^ 32) (.resourceLimit "caveat body exceeds u32 wire length")

/-- `encoded_len`. -/
def encodedLen (c : Caveat) : Except CapError Nat := do
  c.validateForWire
  let bodyLen ← c.bodyLength
  checkedAdd 5 bodyLen "caveat encoded length overflow"

def tag : Caveat → UInt8
  | .expiresAt _ => 0x01
  | .peerFingerprint _ => 0x02
  | .pathPrefix _ => 0x03
  | .operationIn _ => 0x04
  | .auditTag _ => 0x05

/-- One operation name behind its length. -/
def operationBytes (op : String) : Bytes := lengthField (utf8 op).length ++ utf8 op

def body : Caveat → Bytes
  | .expiresAt ms => leBytes 8 ms.toNat
  | .peerFingerprint fp => fp.val
  | .pathPrefix p => utf8 p
  | .operationIn ops => lengthField ops.length ++ ops.flatMap operationBytes
  | .auditTag tag => utf8 tag

/-- `encode`: tag, length, body. -/
def encode (c : Caveat) : Bytes := c.tag :: (lengthField c.body.length ++ c.body)

theorem length_lengthField (n : Nat) : (lengthField n).length = 4 := length_leBytes 4 _

theorem checkedAdd_eq_ok {a b n : Nat} {reason : String} :
    checkedAdd a b reason = .ok n ↔ a + b < 2 ^ 64 ∧ a + b = n := by
  rw [checkedAdd]
  by_cases fits : a + b < 2 ^ 64
  · rw [if_pos fits, Except.ok.injEq]
    exact ⟨fun same => ⟨fits, same⟩, And.right⟩
  · rw [if_neg fits]
    exact ⟨nofun, fun both => absurd both.1 fits⟩

theorem operationLength_eq {len total : Nat} {ops : List String}
    (ran : operationLength len ops = .ok total) : total = len + (ops.flatMap operationBytes).length := by
  induction ops generalizing len with
  | nil =>
    simp only [operationLength, Except.ok.injEq] at ran
    rw [← ran, List.flatMap_nil, List.length_nil, Nat.add_zero]
  | cons op ops ih =>
    simp only [operationLength, bind_eq_ok, require_eq_ok, exists_const, checkedAdd_eq_ok] at ran
    obtain ⟨_, _, ⟨_, rfl⟩, _, ⟨_, rfl⟩, ran⟩ := ran
    rw [ih ran, List.flatMap_cons, List.length_append, operationBytes, List.length_append,
      length_lengthField]
    omega

/-- The length the check computes is that of the body written. -/
theorem bodyLength_eq {c : Caveat} {n : Nat} (ran : c.bodyLength = .ok n) : c.body.length = n := by
  cases c with
  | expiresAt ms => exact Except.ok.inj ran
  | peerFingerprint fp => exact fp.property.trans (Except.ok.inj ran)
  | pathPrefix p =>
    simp only [bodyLength, bind_eq_ok, require_eq_ok, exists_const, Except.ok.injEq] at ran
    exact ran.2
  | operationIn ops =>
    simp only [bodyLength, bind_eq_ok, require_eq_ok, exists_const] at ran
    rw [operationLength_eq ran.2, body, List.length_append, length_lengthField]
  | auditTag tag => exact Except.ok.inj ran

theorem validateForWire_small {c : Caveat} (valid : c.validateForWire = .ok ()) :
    c.body.length < 2 ^ 32 := by
  simp only [validateForWire, bind_eq_ok, require_eq_ok] at valid
  obtain ⟨n, ran, small⟩ := valid
  rwa [bodyLength_eq ran]

/-! ## A checked caveat is determined by its bytes -/

theorem lengthField_inj {m n : Nat} (smallM : m < 2 ^ 32) (smallN : n < 2 ^ 32)
    (same : lengthField m = lengthField n) : m = n := by
  have values := congrArg leValue same
  rw [lengthField, lengthField, Nat.min_eq_left (by omega), Nat.min_eq_left (by omega),
    leValue_leBytes (by omega), leValue_leBytes (by omega)] at values
  exact values

theorem operationBytes_append_inj {op op' : String} {rest rest' : Bytes}
    (small : (utf8 op).length < 2 ^ 32) (small' : (utf8 op').length < 2 ^ 32)
    (same : operationBytes op ++ rest = operationBytes op' ++ rest') : op = op' ∧ rest = rest' := by
  rw [operationBytes, operationBytes, List.append_assoc, List.append_assoc] at same
  obtain ⟨lengths, behind⟩ := List.append_inj same (by rw [length_lengthField, length_lengthField])
  obtain ⟨names, rests⟩ := List.append_inj behind (lengthField_inj small small' lengths)
  exact ⟨utf8_inj names, rests⟩

theorem operations_inj {ops ops' : List String} (small : (ops.flatMap operationBytes).length < 2 ^ 32)
    (small' : (ops'.flatMap operationBytes).length < 2 ^ 32)
    (same : ops.flatMap operationBytes = ops'.flatMap operationBytes) : ops = ops' := by
  induction ops generalizing ops' with
  | nil =>
    cases ops' with
    | nil => rfl
    | cons op ops' =>
      have lengths := congrArg List.length same
      simp only [List.flatMap_nil, List.length_nil, List.flatMap_cons, List.length_append,
        operationBytes, length_lengthField] at lengths
      omega
  | cons op ops ih =>
    cases ops' with
    | nil =>
      have lengths := congrArg List.length same
      simp only [List.flatMap_nil, List.length_nil, List.flatMap_cons, List.length_append,
        operationBytes, length_lengthField] at lengths
      omega
    | cons op' ops' =>
      rw [List.flatMap_cons, List.length_append, operationBytes, List.length_append] at small small'
      rw [List.flatMap_cons, List.flatMap_cons] at same
      obtain ⟨rfl, rests⟩ := @operationBytes_append_inj op op' _ _ (by omega) (by omega) same
      rw [ih (by omega) (by omega) rests]

theorem body_inj {c c' : Caveat} (valid : c.validateForWire = .ok ())
    (valid' : c'.validateForWire = .ok ()) (tags : c.tag = c'.tag) (same : c.body = c'.body) :
    c = c' := by
  have small := validateForWire_small valid
  have small' := validateForWire_small valid'
  cases c with
  | expiresAt ms =>
    cases c' <;> cases tags
    rename_i ms'
    have values := congrArg leValue same
    simp only [body] at values
    rw [leValue_leBytes (by exact ms.toNat_lt), leValue_leBytes (by exact ms'.toNat_lt)] at values
    rw [UInt64.toNat_inj.1 values]
  | peerFingerprint fp =>
    cases c' <;> cases tags
    exact congrArg _ (Subtype.ext same)
  | pathPrefix p =>
    cases c' <;> cases tags
    exact congrArg _ (utf8_inj same)
  | operationIn ops =>
    cases c' <;> cases tags
    rename_i ops'
    simp only [body, List.length_append] at same small small'
    obtain ⟨_, names⟩ := List.append_inj same (by rw [length_lengthField, length_lengthField])
    rw [operations_inj (by omega) (by omega) names]
  | auditTag tag =>
    cases c' <;> cases tags
    exact congrArg _ (utf8_inj same)

theorem encode_inj {c c' : Caveat} (valid : c.validateForWire = .ok ())
    (valid' : c'.validateForWire = .ok ()) (same : c.encode = c'.encode) : c = c' := by
  obtain ⟨tags, framed⟩ := List.cons.inj same
  obtain ⟨_, bodies⟩ := List.append_inj framed (by rw [length_lengthField, length_lengthField])
  exact body_inj valid valid' tags bodies

end Caveat

/-! ## Paths -/

/-- A separator of the source's two. -/
def isSeparator (c : Char) : Bool := c = '/' ∨ c = '\\'

/-- `str::split(['/', '\\'])`. -/
def segments : List Char → List (List Char)
  | [] => [[]]
  | c :: rest =>
    if isSeparator c then [] :: segments rest
    else
      match segments rest with
      | [] => [[c]]
      | first :: more => (c :: first) :: more

/-- `matches!(segment, "." | "..")` on some segment. -/
def hasDotSegment (path : List Char) : Bool :=
  (segments path).any fun segment => segment = ['.'] ∨ segment = ['.', '.']

/-- `strip_prefix`. -/
def stripPrefix (path start : List Char) : Option (List Char) :=
  if start.isPrefixOf path then some (path.drop start.length) else none

/-- `path_is_within_prefix`. -/
def pathIsWithinPrefix (path start : List Char) : Bool :=
  if start = [] ∨ hasDotSegment path ∨ hasDotSegment start then false
  else if path = start then true
  else
    match stripPrefix path start with
    | none => false
    | some rest => start.getLast?.any isSeparator || rest.head?.any isSeparator

theorem segments_ne_nil (path : List Char) : segments path ≠ [] := by
  cases path with
  | nil => exact List.cons_ne_nil _ _
  | cons c rest =>
    rw [segments]
    split
    · exact List.cons_ne_nil _ _
    · split <;> exact List.cons_ne_nil _ _

theorem segments_append {c : Char} (separator : isSeparator c = true) (a b : List Char) :
    segments (a ++ c :: b) = segments a ++ segments b := by
  induction a with
  | nil =>
    show segments (c :: b) = [[]] ++ segments b
    simp [segments, separator]
  | cons d a ih =>
    simp only [List.cons_append, segments, ih]
    by_cases splits : isSeparator d = true
    · rw [if_pos splits, if_pos splits, List.cons_append]
    · rw [if_neg splits, if_neg splits]
      have nonempty := segments_ne_nil a
      cases shape : segments a with
      | nil => exact absurd shape nonempty
      | cons first more => rfl

theorem stripPrefix_eq_some {path start rest : List Char} :
    stripPrefix path start = some rest ↔ path = start ++ rest := by
  rw [stripPrefix]
  by_cases isStart : start.isPrefixOf path = true
  · obtain ⟨behind, rfl⟩ := List.isPrefixOf_iff_prefix.1 isStart
    rw [if_pos isStart, List.drop_left, Option.some.injEq, List.append_cancel_left_eq]
  · rw [if_neg isStart]
    refine ⟨nofun, ?_⟩
    rintro rfl
    exact absurd (List.isPrefixOf_iff_prefix.2 (List.prefix_append _ _)) isStart

/-- The segments a prefix names: a separator at its end names no further one. -/
def wholeSegments (start : List Char) : List (List Char) :=
  if (segments start).getLast? = some [] then (segments start).dropLast else segments start

theorem wholeSegments_isPrefix (start : List Char) : wholeSegments start <+: segments start := by
  rw [wholeSegments]
  split
  · exact List.dropLast_prefix _
  · exact List.prefix_refl _

theorem any_getLast {start : List Char} (ends : start.getLast?.any isSeparator = true) :
    ∃ front c, start = front ++ [c] ∧ isSeparator c = true := by
  cases last : start.getLast? with
  | none => rw [last] at ends; cases ends
  | some c =>
    rw [last] at ends
    obtain ⟨front, shape⟩ := List.getLast?_eq_some_iff.1 last
    exact ⟨front, c, shape, ends⟩

/-- **A prefix accepts by whole segments**: what it accepts begins with the segments it names, and
neither has a dot segment. -/
theorem pathIsWithinPrefix_segments {path start : List Char}
    (within : pathIsWithinPrefix path start = true) :
    wholeSegments start <+: segments path ∧ hasDotSegment path = false ∧
      hasDotSegment start = false := by
  rw [pathIsWithinPrefix] at within
  split at within
  · cases within
  rename_i plain
  simp only [not_or, Bool.not_eq_true] at plain
  refine ⟨?_, plain.2⟩
  split at within
  · rename_i same
    rw [same]
    exact wholeSegments_isPrefix start
  · cases stripped : stripPrefix path start with
    | none => rw [stripped] at within; cases within
    | some rest =>
      rw [stripped] at within
      obtain rfl := stripPrefix_eq_some.1 stripped
      obtain ends | begins := Bool.or_eq_true_iff.1 within
      · obtain ⟨front, c, rfl, separator⟩ := any_getLast ends
        have named : segments (front ++ [c]) = segments front ++ [[]] :=
          segments_append separator front []
        rw [wholeSegments, named, List.getLast?_concat, if_pos rfl, List.dropLast_concat,
          List.append_assoc, List.singleton_append, segments_append separator]
        exact List.prefix_append _ _
      · obtain _ | ⟨c, rest⟩ := rest
        · cases begins
        · rw [segments_append (by simpa using begins)]
          exact (wholeSegments_isPrefix start).trans (List.prefix_append _ _)

/-! ## What a caveat accepts -/

/-- The runtime context of a check. -/
structure Context where
  nowUnixMs : Option UInt64 := none
  peer : Option Bytes32 := none
  path : Option String := none
  operation : Option String := none

/-- `check`. -/
def Caveat.check (c : Caveat) (ctx : Context) : Except String Unit :=
  match c with
  | .expiresAt ms =>
    match ctx.nowUnixMs with
    | some now => require (¬ ms ≤ now) "ExpiresAt: cap expired"
    | none => .error "ExpiresAt: ctx.now_unix_ms not provided"
  | .peerFingerprint fp =>
    match ctx.peer with
    | some peer => require (peer = fp) "PeerFingerprint: peer mismatch"
    | none => .error "PeerFingerprint: ctx.peer not provided"
  | .pathPrefix p =>
    match ctx.path with
    | some path => require (pathIsWithinPrefix path.toList p.toList) "PathPrefix: path not under prefix"
    | none => .error "PathPrefix: ctx.path not provided"
  | .operationIn ops =>
    match ctx.operation with
    | some op => require (op ∈ ops) "OperationIn: operation not in allow list"
    | none => .error "OperationIn: ctx.operation not provided"
  | .auditTag _ => .ok ()

end OneLink.Capabilities
