/-
# Resume.Sidecar — the recovery record of one inbound transfer

`ResumeSidecar` is the dataclass as Python has it: a field holds whatever JSON value
was put there, and `_validate_untrusted_fields` decides whether it may stay.  `to_json`
stamps the integrity digest into the record before it writes it.

The `blake3` package is taken as installed: without it the tag stays empty.
-/
import OneLink.Cdc.Chunker
import OneLink.Library.PyJson

namespace OneLink.Resume

open Library Library.PyJson

set_option autoImplicit false

def maxSidecarBytes : Nat := 64 * 1024 * 1024
def maxSidecarChunks : Nat := 262144
def maxResumeFileBytes : Nat := 16 * 1024 ^ 4

structure ResumeSidecar (F : Type) where
  blobHex : Value F
  peerFp : Value F
  name : Value F
  size : Value F
  outPath : Value F
  cdcChunks : Value F
  createdMs : Value F
  updatedMs : Value F
  schemaVersion : Value F
  acceptanceGranted : Value F
  deliveryId : Value F
  deliveryName : Value F
  deliveryRelPath : Value F
  deliveryKind : Value F
  finalPath : Value F
  digest : Value F

/-- Why a sidecar is refused. -/
inductive ResumeError where
  | exceedsSizeLimit
  | malformedJson
  | rootNotObject
  | schemaUnsupported
  | missingField (name : String)
  | digestMismatch
  | blobId
  | peerFingerprint
  | filename
  | filenameNul
  | outputPath
  | outputPathNul
  | fileSize
  | numeric (label : String)
  | acceptanceFlag
  | deliveryId
  | textField (label : String)
  | unhashable
  | deliveryKind
  | digest
  | manifestNotArray
  | tooManyChunks
  | chunkNotObject
  | chunkNotIntegers
  | notPartition
  | chunkRange
  | chunkExceedsSize
  | chunkHash
  | notCovering
  deriving DecidableEq, Repr

namespace ResumeError

/-- The exception's text; the schema and digest texts also quote the values. -/
def message : ResumeError → String
  | exceedsSizeLimit => "resume sidecar exceeds the metadata size limit"
  | malformedJson => "malformed JSON"
  | rootNotObject => "resume sidecar root must be an object"
  | schemaUnsupported => "resume sidecar schema unsupported"
  | missingField name => "missing required argument: " ++ name
  | digestMismatch => "resume sidecar digest mismatch"
  | blobId => "resume blob id must be 64 lowercase hex characters"
  | peerFingerprint => "resume peer fingerprint is invalid"
  | filename => "resume filename is invalid"
  | filenameNul => "resume filename contains NUL"
  | outputPath => "resume output path is invalid"
  | outputPathNul => "resume output path contains NUL"
  | fileSize => "resume file size is invalid"
  | numeric label => "resume " ++ label ++ " is invalid"
  | acceptanceFlag => "resume acceptance flag must be boolean"
  | deliveryId => "resume delivery id is invalid"
  | textField label => "resume " ++ label ++ " is invalid"
  | unhashable => "unhashable type"
  | deliveryKind => "resume delivery kind is invalid"
  | digest => "resume digest is invalid"
  | manifestNotArray => "resume CDC manifest must be an array"
  | tooManyChunks => "resume CDC manifest has too many chunks"
  | chunkNotObject => "resume CDC chunk must be an object"
  | chunkNotIntegers => "resume CDC chunk ranges must be integers"
  | notPartition => "resume CDC manifest is not an exact partition"
  | chunkRange => "resume CDC chunk range is invalid"
  | chunkExceedsSize => "resume CDC chunk exceeds declared file size"
  | chunkHash => "resume CDC chunk hash is invalid"
  | notCovering => "resume CDC manifest does not cover the declared file"

end ResumeError

/-! ## Checks on values -/

section Checks

variable {F : Type}

/-- `c in "0123456789abcdef"` -/
def isLowerHex (point : Nat) : Bool := (48 ≤ point && point ≤ 57) || (97 ≤ point && point ≤ 102)

def isHex (length : Nat) : Value F → Bool
  | .str s => s.length = length && s.all isLowerHex
  | _ => false

/-- A string with a length between the bounds. -/
def isText (least most : Nat) : Value F → Bool
  | .str s => least ≤ s.length && s.length ≤ most
  | _ => false

/-- `"\x00" in value` -/
def hasNul : Value F → Bool
  | .str s => 0 ∈ s
  | _ => false

/-- An integer that is not a boolean, between zero and the bound if there is one. -/
def isCount (most : Option Nat) : Value F → Bool
  | .int n => 0 ≤ n && (most.all fun bound => n ≤ bound)
  | _ => false

def isBool : Value F → Bool
  | .bool _ => true
  | _ => false

variable (fl : Floats F)

/-- `bool(value)` -/
def truthy : Value F → Bool
  | .null => false
  | .bool b => b
  | .int n => n ≠ 0
  | .float x => fl.toInt? x ≠ some 0
  | .str s => s ≠ []
  | .list items => ¬ items.isEmpty
  | .dict members => ¬ members.isEmpty

/-- `value == n`, where a boolean and a float may equal an integer. -/
def equalsInt (n : Int) : Value F → Bool
  | .int m => m = n
  | .bool b => (if b then 1 else 0) = n
  | .float x => fl.toInt? x = some n
  | _ => false

end Checks

/-! ## `_validate_untrusted_fields` -/

section Validation

variable {F : Type} (fl : Floats F)

/-- `isinstance(v, int)` for a member that may be missing. -/
def intMember (members : List (PyStr × Value F)) (key : String) : Except ResumeError Int :=
  match OrderedDict.lookup (pyStr key) members with
  | some (.int n) => .ok n
  | _ => .error .chunkNotIntegers

/-- One chunk of the manifest: it continues the partition at `cursor`. -/
def validateChunk (fileSize : Int) (expectedIndex : Nat) (cursor : Int) :
    Value F → Except ResumeError Int
  | .dict members => do
    let index ← intMember members "index"
    let size ← intMember members "size"
    let start ← intMember members "start"
    let stop ← intMember members "end"
    require (index = expectedIndex ∧ start = cursor) .notPartition
    require (¬ (size ≤ 0 ∨ stop ≤ start ∨ stop - start ≠ size)) .chunkRange
    require (stop ≤ fileSize) .chunkExceedsSize
    require ((OrderedDict.lookup (pyStr "hash") members).any (isHex 64)) .chunkHash
    return stop
  | _ => .error .chunkNotObject

/-- The chunks from one index and cursor on, and where they end. -/
def validateChunks (fileSize : Int) : (expectedIndex : Nat) → (cursor : Int) → List (Value F) →
    Except ResumeError Int
  | _, cursor, [] => .ok cursor
  | expectedIndex, cursor, item :: rest => do
    let cursor ← validateChunk fileSize expectedIndex cursor item
    validateChunks fileSize (expectedIndex + 1) cursor rest

def validateManifest (sc : ResumeSidecar F) : Except ResumeError Unit :=
  match sc.cdcChunks, sc.size with
  | .list items, .int fileSize => do
    require (items.length ≤ maxSidecarChunks) .tooManyChunks
    let cursor ← validateChunks fileSize 0 0 items
    require (cursor = fileSize) .notCovering
  | .list _, _ => .error .fileSize
  | _, _ => .error .manifestNotArray

def validateText (label : String) (most : Nat) (value : Value F) : Except ResumeError Unit :=
  require (isText 0 most value ∧ ¬ hasNul value) (.textField label)

/-- `value in {"file", "folder_archive"}` hashes the value first. -/
def validateDeliveryKind : Value F → Except ResumeError Unit
  | .list _ | .dict _ => .error .unhashable
  | .str s => require (s = pyStr "file" ∨ s = pyStr "folder_archive") .deliveryKind
  | _ => .error .deliveryKind

/-- The checks before the one on the digest. -/
def validateFields (sc : ResumeSidecar F) : Except ResumeError Unit := do
  require (isHex 64 sc.blobHex) .blobId
  require (isText 1 512 sc.peerFp) .peerFingerprint
  require (isText 1 1024 sc.name) .filename
  require (¬ hasNul sc.name) .filenameNul
  require (isText 1 32768 sc.outPath) .outputPath
  require (¬ hasNul sc.outPath) .outputPathNul
  require (isCount (some maxResumeFileBytes) sc.size) .fileSize
  require (isCount none sc.createdMs) (.numeric "created_ms")
  require (isCount none sc.updatedMs) (.numeric "updated_ms")
  require (isCount none sc.schemaVersion) (.numeric "schema_version")
  require (isBool sc.acceptanceGranted) .acceptanceFlag
  require (truthy fl sc.deliveryId → isHex 32 sc.deliveryId) .deliveryId
  validateText "delivery name" 1024 sc.deliveryName
  validateText "delivery relative path" 32768 sc.deliveryRelPath
  validateText "final path" 32768 sc.finalPath
  validateDeliveryKind sc.deliveryKind

def validateDigest (digest : Value F) : Except ResumeError Unit :=
  match digest with
  | .str s => require (s = [] ∨ isHex 64 digest) .digest
  | _ => .error .digest

def validateUntrustedFields (sc : ResumeSidecar F) : Except ResumeError Unit := do
  validateFields fl sc
  validateDigest sc.digest
  validateManifest sc

end Validation

/-! ## `to_json` and `from_json` -/

section Json

variable {F : Type} (fl : Floats F) (H : Cdc.Blake3)

/-- `asdict(self)` -/
def asdict (sc : ResumeSidecar F) : List (PyStr × Value F) :=
  [(pyStr "blob_hex", sc.blobHex), (pyStr "peer_fp", sc.peerFp), (pyStr "name", sc.name),
    (pyStr "size", sc.size), (pyStr "out_path", sc.outPath), (pyStr "cdc_chunks", sc.cdcChunks),
    (pyStr "created_ms", sc.createdMs), (pyStr "updated_ms", sc.updatedMs),
    (pyStr "schema_version", sc.schemaVersion),
    (pyStr "acceptance_granted", sc.acceptanceGranted), (pyStr "delivery_id", sc.deliveryId),
    (pyStr "delivery_name", sc.deliveryName), (pyStr "delivery_rel_path", sc.deliveryRelPath),
    (pyStr "delivery_kind", sc.deliveryKind), (pyStr "final_path", sc.finalPath),
    (pyStr "digest", sc.digest)]

/-- `d.pop("digest", None)` -/
def withoutDigest (members : List (PyStr × Value F)) : List (PyStr × Value F) :=
  members.filter fun member => member.1 ≠ pyStr "digest"

/-- The tag of the canonical JSON of every other member. -/
def signingDigest (members : List (PyStr × Value F)) : PyStr :=
  pyStr (H.hexdigest (utf8Encode (dumpsSorted fl (.dict (withoutDigest members)))))

/-- The record as `to_json` leaves it. -/
def stamped (sc : ResumeSidecar F) : ResumeSidecar F :=
  { sc with digest := .str (signingDigest fl H (asdict sc)) }

/-- `to_json` -/
def toJson (sc : ResumeSidecar F) : Text := dumps fl (.dict (asdict (stamped fl H sc)))

/-- `cls(**filtered)`; `now` are the two readings of the clock for absent stamps. -/
def construct (now : Int × Int) (members : List (PyStr × Value F)) :
    Except ResumeError (ResumeSidecar F) := do
  let get (key : String) : Option (Value F) := OrderedDict.lookup (pyStr key) members
  let required (key : String) : Except ResumeError (Value F) :=
    match get key with
    | some value => .ok value
    | none => .error (.missingField key)
  let blobHex ← required "blob_hex"
  let peerFp ← required "peer_fp"
  let name ← required "name"
  let size ← required "size"
  let outPath ← required "out_path"
  let cdcChunks ← required "cdc_chunks"
  return {
    blobHex, peerFp, name, size, outPath, cdcChunks
    createdMs := (get "created_ms").getD (.int now.1)
    updatedMs := (get "updated_ms").getD (.int now.2)
    schemaVersion := (get "schema_version").getD (.int 1)
    acceptanceGranted := (get "acceptance_granted").getD (.bool false)
    deliveryId := (get "delivery_id").getD (.str [])
    deliveryName := (get "delivery_name").getD (.str [])
    deliveryRelPath := (get "delivery_rel_path").getD (.str [])
    deliveryKind := (get "delivery_kind").getD (.str (pyStr "file"))
    finalPath := (get "final_path").getD (.str [])
    digest := (get "digest").getD (.str []) }

/-- The integrity check over the members that are on disk; an absent tag passes. -/
def digestMatches (members : List (PyStr × Value F)) : Value F → Bool
  | .str tag => tag = [] || signingDigest fl H members = tag
  | _ => false

/-- `from_json` -/
def fromJson (now : Int × Int) (text : Text) : Except ResumeError (ResumeSidecar F) := do
  require ((utf8Encode text).length ≤ maxSidecarBytes) .exceedsSizeLimit
  match loads fl text with
  | some (.dict members) =>
    require ((OrderedDict.lookup (pyStr "schema_version") members).all (equalsInt fl 1))
      .schemaUnsupported
    let sc ← construct now members
    validateUntrustedFields fl sc
    require (digestMatches fl H members sc.digest) .digestMismatch
    return sc
  | some _ => .error .rootNotObject
  | none => .error .malformedJson

end Json

end OneLink.Resume
