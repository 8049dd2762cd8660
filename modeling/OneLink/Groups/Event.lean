/-
# Groups.Event — signed group events and their canonical body

`groups.py`: a `GroupEvent` is a signed assertion about a group's membership.
Its id is the BLAKE3 digest of the canonical JSON of everything but the
signature, so two events with one body have one id whatever signatures they
carry (`eventId_eq_of_unsigned`), and two bodies share an id only where BLAKE3
itself collides (`unsigned_eq_of_eventId`): the canonical JSON determines every
field it covers (`canonicalBytes_injective`).

BLAKE3 and Ed25519 verification are the two functions the module imports; they
are the fields of `Primitives`.
-/
import OneLink.Library.Base64Url
import OneLink.Library.Checked
import OneLink.Library.OrderedDict
import Mathlib.Data.String.Basic

namespace OneLink.Groups

open Library

set_option autoImplicit false

/-! ## Roles, kinds and caps -/

/-- Roles, in increasing authority. -/
inductive Role where
  | member
  | admin
  | owner
  deriving DecidableEq, Repr

/-- `_ROLE_RANK`. -/
def Role.rank : Role → Nat
  | .member => 0
  | .admin => 1
  | .owner => 2

/-- The role a wire string names; `none` outside `ROLES_VALID`. -/
def Role.ofString? : String → Option Role
  | "member" => some .member
  | "admin" => some .admin
  | "owner" => some .owner
  | _ => none

inductive EventKind where
  | create
  | addMember
  | removeMember
  | changeRole
  | rename
  deriving DecidableEq, Repr

/-- The kind a wire string names; `none` outside `EV_KINDS_VALID`. -/
def EventKind.ofString? : String → Option EventKind
  | "create" => some .create
  | "add_member" => some .addMember
  | "remove_member" => some .removeMember
  | "change_role" => some .changeRole
  | "rename" => some .rename
  | _ => none

def groupIdBytes : Nat := 16
def maxGroupNameLen : Nat := 200
def maxGroupMembers : Nat := 1024
def maxEventTimestampMs : Int := 2 ^ 63 - 1

/-- The `ValueError`s of the module, one constructor a message. -/
inductive GroupError where
  | groupIdLength
  | authorPubkeyLength
  | nonceLength
  | unknownKind (kind : String)
  | timestampOutOfRange
  | invalidFields (kind : String)
  | signatureLength
  | signatureDoesNotVerify
  | multipleGroupIds
  deriving DecidableEq, Repr

structure Primitives where
  /-- `blake3.blake3(data).hexdigest()` -/
  blake3 : Bytes → String
  /-- `Ed25519PublicKey.from_public_bytes(pubkey).verify(signature, message)` returns. -/
  ed25519Verify : (pubkey signature message : Bytes) → Bool

structure GroupEvent where
  groupId : Bytes
  kind : String
  timestampMs : Int
  authorPubkey : Bytes
  targetPubkey : Bytes
  role : String
  name : String
  nonce : Bytes
  signature : Bytes
  deriving DecidableEq, Repr

namespace GroupEvent

/-- The event without its signature: what the id and the signature cover. -/
def unsigned (e : GroupEvent) : GroupEvent := { e with signature := [] }

def eventKind? (e : GroupEvent) : Option EventKind := EventKind.ofString? e.kind

/-! ## Canonical body -/

/-- One `"key":value` member of a JSON object. -/
def jsonMember (key : String) (value : Bytes) : Bytes :=
  jsonString key ++ 58 :: value

/-- `_canonical_bytes(self.to_signing_dict())`: keys sorted, no blanks. -/
def canonicalBytes (e : GroupEvent) : Bytes :=
  123 ::
    (jsonMember "author_pubkey_b64" (jsonString (Base64Url.encode e.authorPubkey)) ++ 44 ::
    (jsonMember "group_id_b64" (jsonString (Base64Url.encode e.groupId)) ++ 44 ::
    (jsonMember "kind" (jsonString e.kind) ++ 44 ::
    (jsonMember "name" (jsonString e.name) ++ 44 ::
    (jsonMember "nonce_b64" (jsonString (Base64Url.encode e.nonce)) ++ 44 ::
    (jsonMember "role" (jsonString e.role) ++ 44 ::
    (jsonMember "target_pubkey_b64"
      (jsonString (if e.targetPubkey = [] then "" else Base64Url.encode e.targetPubkey)) ++ 44 ::
    (jsonMember "timestamp_ms" (jsonInt e.timestampMs) ++ 44 ::
    (jsonMember "v" (jsonString "OL-GROUP-1") ++ [125])))))))))

theorem target_text (e : GroupEvent) :
    (if e.targetPubkey = [] then "" else Base64Url.encode e.targetPubkey) =
      Base64Url.encode e.targetPubkey := by
  split
  · rename_i empty
    rw [empty]
    rfl
  · rfl

/-- Splitting off one string member: its key is a constant, its literal is prefix free. -/
theorem jsonMember_string_inj {key a b : String} {s t : Bytes}
    (same : jsonMember key (jsonString a) ++ 44 :: s = jsonMember key (jsonString b) ++ 44 :: t) :
    a = b ∧ s = t := by
  simp only [jsonMember, List.append_assoc, List.cons_append, List.append_cancel_left_eq,
    List.cons.injEq, true_and] at same
  obtain ⟨value, rest⟩ := jsonString_prefixFree _ _ _ _ same
  exact ⟨value, by simpa using rest⟩

theorem jsonMember_int_inj {key : String} {m n : Int} {s t : Bytes}
    (same : jsonMember key (jsonInt m) ++ 44 :: s = jsonMember key (jsonInt n) ++ 44 :: t) :
    m = n := by
  simp only [jsonMember, List.append_assoc, List.cons_append, List.append_cancel_left_eq,
    List.cons.injEq, true_and] at same
  exact (jsonInt_append_inj (by decide) (by decide) same).1

/-- **The canonical body determines every field it covers.** -/
theorem canonicalBytes_injective {e e' : GroupEvent}
    (same : e.canonicalBytes = e'.canonicalBytes) : e.unsigned = e'.unsigned := by
  simp only [canonicalBytes, List.cons.injEq, true_and, target_text] at same
  obtain ⟨author, same⟩ := jsonMember_string_inj same
  obtain ⟨group, same⟩ := jsonMember_string_inj same
  obtain ⟨kind, same⟩ := jsonMember_string_inj same
  obtain ⟨name, same⟩ := jsonMember_string_inj same
  obtain ⟨nonce, same⟩ := jsonMember_string_inj same
  obtain ⟨role, same⟩ := jsonMember_string_inj same
  obtain ⟨target, same⟩ := jsonMember_string_inj same
  have timestamp := jsonMember_int_inj same
  cases e
  cases e'
  simp only [unsigned, GroupEvent.mk.injEq, and_true]
  exact ⟨Base64Url.encode_injective group, kind, timestamp, Base64Url.encode_injective author,
    Base64Url.encode_injective target, role, name, Base64Url.encode_injective nonce⟩

@[simp] theorem canonicalBytes_unsigned (e : GroupEvent) :
    e.unsigned.canonicalBytes = e.canonicalBytes := rfl

theorem canonicalBytes_eq_of_unsigned {e e' : GroupEvent} (body : e.unsigned = e'.unsigned) :
    e.canonicalBytes = e'.canonicalBytes := by
  rw [← canonicalBytes_unsigned e, body, canonicalBytes_unsigned]

variable (P : Primitives)

def eventId (e : GroupEvent) : String := P.blake3 e.canonicalBytes

theorem eventId_eq_of_unsigned {e e' : GroupEvent} (body : e.unsigned = e'.unsigned) :
    e.eventId P = e'.eventId P := by
  rw [eventId, eventId, canonicalBytes_eq_of_unsigned body]

/-! ## Validation and signature -/

/-- The per-kind field rule of `_validate_semantics`. -/
def validFields (e : GroupEvent) : EventKind → Bool
  | .create =>
    e.targetPubkey.isEmpty && e.role == "owner" && 0 < e.name.length
      && e.name.length ≤ maxGroupNameLen
  | .addMember =>
    e.targetPubkey.length == 32 && (Role.ofString? e.role).isSome && e.name.isEmpty
  | .removeMember =>
    e.targetPubkey.length == 32 && e.role.isEmpty && e.name.isEmpty
  | .changeRole =>
    e.targetPubkey.length == 32 && (Role.ofString? e.role).isSome && e.name.isEmpty
  | .rename =>
    e.targetPubkey.isEmpty && e.role.isEmpty && 0 < e.name.length
      && e.name.length ≤ maxGroupNameLen

def validateSemantics (e : GroupEvent) : Except GroupError Unit := do
  require (e.groupId.length = groupIdBytes) .groupIdLength
  require (e.authorPubkey.length = 32) .authorPubkeyLength
  require (e.nonce.length = 8) .nonceLength
  match e.eventKind? with
  | none => throw (.unknownKind e.kind)
  | some kind =>
    require (0 ≤ e.timestampMs ∧ e.timestampMs ≤ maxEventTimestampMs) .timestampOutOfRange
    require (e.validFields kind = true) (.invalidFields e.kind)

def verify (e : GroupEvent) : Except GroupError Unit := do
  e.validateSemantics
  require (e.signature.length = 64) .signatureLength
  require (P.ed25519Verify e.authorPubkey e.signature e.canonicalBytes = true)
    .signatureDoesNotVerify

/-- The event is validly signed: `verify` returns. -/
def Verifies (e : GroupEvent) : Prop := e.verify P = .ok ()

theorem verifies_iff {e : GroupEvent} (valid : e.validateSemantics = .ok ()) :
    e.Verifies P ↔
      e.signature.length = 64 ∧ P.ed25519Verify e.authorPubkey e.signature e.canonicalBytes := by
  rw [Verifies, verify, valid]
  simp [bind_eq_ok]

instance (e : GroupEvent) : Decidable (e.Verifies P) :=
  decidable_of_iff ((e.verify P).toBool = true) (by
    unfold Verifies
    cases e.verify P with
    | error _ => simp [Except.toBool]
    | ok u => simp [Except.toBool])

end GroupEvent

/-- BLAKE3 does not collide on the bodies of these events. -/
def CollisionFree (P : Primitives) (events : List GroupEvent) : Prop :=
  ∀ e ∈ events, ∀ e' ∈ events, P.blake3 e.canonicalBytes = P.blake3 e'.canonicalBytes →
    e.canonicalBytes = e'.canonicalBytes

theorem CollisionFree.subset {P : Primitives} {l l' : List GroupEvent} (free : CollisionFree P l)
    (sub : ∀ e ∈ l', e ∈ l) : CollisionFree P l' :=
  fun e he e' he' same => free e (sub e he) e' (sub e' he') same

/-- Where BLAKE3 does not collide, one id means one body. -/
theorem unsigned_eq_of_eventId {P : Primitives} {events : List GroupEvent}
    (free : CollisionFree P events) {e e' : GroupEvent} (he : e ∈ events) (he' : e' ∈ events)
    (same : e.eventId P = e'.eventId P) : e.unsigned = e'.unsigned :=
  GroupEvent.canonicalBytes_injective (free e he e' he' same)

/-! ## A toy instance -/

/-- The one signature `toyPrimitives` accepts. -/
def toySignature : Bytes := List.replicate 64 1

/-- Digests are the data itself as text; `toySignature` signs everything. -/
def toyPrimitives : Primitives where
  blake3 data := String.ofList (data.map fun b => Char.ofNat b.toNat)
  ed25519Verify _ signature _ := signature = toySignature

theorem charOfByte_injective {a b : UInt8} (same : Char.ofNat a.toNat = Char.ofNat b.toNat) :
    a = b := by
  have valid : ∀ c : UInt8, c.toNat.isValidChar := fun c => .inl (by have := c.toNat_lt; omega)
  have nats := congrArg Char.toNat same
  rw [Char.ofNat, Char.ofNat, dif_pos (valid a), dif_pos (valid b)] at nats
  exact UInt8.toNat_inj.mp nats

theorem toyPrimitives_collisionFree (events : List GroupEvent) :
    CollisionFree toyPrimitives events := by
  intro e _ e' _ same
  have bytes := congrArg String.toList same
  simp only [toyPrimitives, String.toList_ofList] at bytes
  exact List.map_injective_iff.mpr (fun _ _ => charOfByte_injective) bytes

/-- A `create` event. -/
def createEvent (author : UInt8) (timestampMs : Int) (signature : Bytes) : GroupEvent where
  groupId := List.replicate 16 7
  kind := "create"
  timestampMs := timestampMs
  authorPubkey := List.replicate 32 author
  targetPubkey := []
  role := "owner"
  name := "g"
  nonce := List.replicate 8 0
  signature := signature

theorem createEvent_valid (author : UInt8) {timestampMs : Int} (signature : Bytes)
    (range : 0 ≤ timestampMs ∧ timestampMs ≤ maxEventTimestampMs) :
    (createEvent author timestampMs signature).validateSemantics = .ok () := by
  have name : "g".length = 1 := rfl
  simp [GroupEvent.validateSemantics, createEvent, range, groupIdBytes, GroupEvent.eventKind?,
    EventKind.ofString?, GroupEvent.validFields, maxGroupNameLen, name, bind_eq_ok]

theorem createEvent_verifies (author : UInt8) {timestampMs : Int}
    (range : 0 ≤ timestampMs ∧ timestampMs ≤ maxEventTimestampMs) :
    (createEvent author timestampMs toySignature).Verifies toyPrimitives := by
  rw [GroupEvent.verifies_iff _ (createEvent_valid author _ range)]
  exact ⟨rfl, by simp [toyPrimitives, createEvent]⟩

end OneLink.Groups
