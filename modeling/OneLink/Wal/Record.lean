/-
# Wal.Record -- the framing of one log record, and the header of a log file

A record on disk is an 8-byte header (kind, flags, two reserved zeros, payload
length), the payload and the CRC32C of both.  `encode` writes it; `parseHeader`
and `crcValid` are what replay reads it with.  The checksum comes from a crate
and is a parameter here: nothing below depends on which function it is.

`record_read` is the one fact the readers rely on: behind any log position that
starts with an encoded record, the header parses to that record's and the bytes
it announces are its encoding.

The first 64 bytes of every log file: magic, version, log kind, reserved zeros.
-/
import OneLink.Library.Checked
import OneLink.Library.FixedWidth
import OneLink.Library.Frames

namespace OneLink.Wal

open Library

set_option autoImplicit false

/-! ## Errors -/

/-- `WalError`.  A log file is named by its id: the path is `<dir>/<id>.wal`. -/
inductive WalError where
  | io
  | magicMismatch (path : Nat) (got expected : String)
  | unsupportedVersion (path got supported : Nat)
  | invalidHeaderReserved (path : Nat)
  | payloadTooLarge (got max : Nat)
  | rotationCapExceeded (current cap : Nat)
  | invalidRecordReserved (offset : Nat)
  | nonTailCorruption (path offset : Nat)
deriving DecidableEq, Repr

/-! ## The record format -/

def recordHeaderLen : Nat := 8

def recordTrailerLen : Nat := 4

def maxPayloadLen : Nat := 1024 * 1024

structure RecordHeader where
  kind : UInt8
  flags : UInt8
  length : Nat
deriving DecidableEq, Repr

structure Record where
  kind : UInt8
  flags : UInt8
  payload : Bytes
deriving DecidableEq, Repr

def Record.onDiskLen (r : Record) : Nat := recordHeaderLen + r.payload.length + recordTrailerLen

/-- The header and the payload: what the checksum covers. -/
def Record.body (r : Record) : Bytes :=
  [r.kind, r.flags, 0, 0] ++ leBytes 4 r.payload.length ++ r.payload

section Crc

variable (crc32c : Bytes → UInt32)

def Record.bytes (r : Record) : Bytes := r.body ++ leBytes 4 (crc32c r.body).toNat

def Record.Fits (r : Record) : Prop := r.payload.length ≤ maxPayloadLen

instance (r : Record) : Decidable r.Fits := inferInstanceAs (Decidable (_ ≤ _))

def Record.encode (r : Record) : Except WalError Bytes := do
  require r.Fits (.payloadTooLarge r.payload.length maxPayloadLen)
  return r.bytes crc32c

/-- `parse_header` of a record, given its first eight bytes. -/
def parseHeader (header : Bytes) (offset : Nat) : Except WalError RecordHeader :=
  match header with
  | [kind, flags, reserved₁, reserved₂, l₀, l₁, l₂, l₃] => do
    require (reserved₁ = 0 ∧ reserved₂ = 0) (.invalidRecordReserved offset)
    require (leValue [l₀, l₁, l₂, l₃] ≤ maxPayloadLen)
      (.payloadTooLarge (leValue [l₀, l₁, l₂, l₃]) maxPayloadLen)
    return ⟨kind, flags, leValue [l₀, l₁, l₂, l₃]⟩
  -- the source takes an array of eight
  | _ => .error (.invalidRecordReserved offset)

/-- `crc_valid` -/
def crcValid (recordBytes : Bytes) : Bool :=
  if recordBytes.length < recordHeaderLen + recordTrailerLen then false
  else
    leValue (recordBytes.drop (recordBytes.length - recordTrailerLen)) =
      (crc32c (recordBytes.take (recordBytes.length - recordTrailerLen))).toNat

/-! ## Reading an encoded record back -/

theorem length_body (r : Record) : r.body.length = recordHeaderLen + r.payload.length := by
  simp [Record.body, recordHeaderLen]
  omega

@[simp] theorem length_bytes (r : Record) : (r.bytes crc32c).length = r.onDiskLen := by
  rw [Record.bytes, List.length_append, length_body, length_leBytes]
  rfl

theorem bytes_ne_nil (r : Record) : r.bytes crc32c ≠ [] := by
  intro empty
  have := length_bytes crc32c r
  rw [empty] at this
  simp [Record.onDiskLen, recordHeaderLen] at this
  omega

theorem encode_eq_ok {r : Record} {bytes : Bytes} :
    r.encode crc32c = .ok bytes ↔ r.Fits ∧ bytes = r.bytes crc32c := by
  simp only [Record.encode, bind_eq_ok, require_eq_ok, exists_const, pure_eq_ok_iff]
  exact and_congr_right fun _ => eq_comm

/-- The header of an encoded record parses, whatever follows it. -/
theorem parseHeader_bytes {r : Record} (fits : r.Fits) (rest : Bytes) (offset : Nat) :
    parseHeader ((r.bytes crc32c ++ rest).take recordHeaderLen) offset =
      .ok ⟨r.kind, r.flags, r.payload.length⟩ := by
  have first : (r.bytes crc32c ++ rest).take recordHeaderLen =
      [r.kind, r.flags, 0, 0] ++ leBytes 4 r.payload.length := by
    rw [Record.bytes, Record.body, List.append_assoc, List.append_assoc]
    exact List.take_left' (by simp [recordHeaderLen])
  have small : r.payload.length < 256 ^ 4 := by
    have := fits
    unfold Record.Fits maxPayloadLen at this
    omega
  rw [first]
  have value := leValue_leBytes small
  simp only [leBytes] at value
  simp only [leBytes, List.cons_append, List.nil_append, parseHeader, value, and_self,
    require_of, ok_bind]
  rw [require_of (show r.payload.length ≤ maxPayloadLen from fits), ok_bind]
  rfl

theorem crcValid_bytes (r : Record) : crcValid crc32c (r.bytes crc32c) = true := by
  have long : ¬ (r.bytes crc32c).length < recordHeaderLen + recordTrailerLen := by
    rw [length_bytes]
    simp only [Record.onDiskLen]
    omega
  have split : (r.bytes crc32c).length - recordTrailerLen = r.body.length := by
    rw [length_bytes, length_body]
    simp only [Record.onDiskLen]
    omega
  rw [crcValid, if_neg long, split, decide_eq_true_eq, Record.bytes,
    List.drop_left, List.take_left]
  exact leValue_leBytes (crc32c r.body).toNat_lt

/-- What a reader finds at the start of an encoded record. -/
theorem record_read (r : Record) (rest : Bytes) :
    (r.bytes crc32c ++ rest).take r.onDiskLen = r.bytes crc32c ∧
      (r.bytes crc32c ++ rest).drop r.onDiskLen = rest ∧
      ((r.bytes crc32c ++ rest).drop recordHeaderLen).take r.payload.length = r.payload := by
  refine ⟨List.take_left' (length_bytes crc32c r), List.drop_left' (length_bytes crc32c r), ?_⟩
  have header : ([r.kind, r.flags, 0, 0] ++ leBytes 4 r.payload.length).length =
      recordHeaderLen := by
    simp [recordHeaderLen]
  rw [Record.bytes, Record.body, List.append_assoc, List.append_assoc,
    List.drop_left' header, List.take_left' rfl]

end Crc

def fileHeaderLen : Nat := 64

def rotationSize : Nat := 256 * 1024 * 1024

def formatVersion : Nat := 1

def magicChunkLog : Bytes := ascii "OL-CLOG1"

def magicManifestLog : Bytes := ascii "OL-MLOG1"

inductive LogKind where
  | chunkLog
  | manifestLog
deriving DecidableEq, Repr

namespace LogKind

def magic : LogKind → Bytes
  | .chunkLog => magicChunkLog
  | .manifestLog => magicManifestLog

def id : LogKind → Nat
  | .chunkLog => 1
  | .manifestLog => 2

def fromId (id : Nat) : Option LogKind :=
  if id = 1 then some .chunkLog else if id = 2 then some .manifestLog else none

def fromMagic (magic : Bytes) : Option LogKind :=
  if magic = magicChunkLog then some .chunkLog
  else if magic = magicManifestLog then some .manifestLog
  else none

/-- `{kind:?}` -/
def debug : LogKind → String
  | .chunkLog => "ChunkLog"
  | .manifestLog => "ManifestLog"

end LogKind

def hexLower (bytes : Bytes) : String :=
  String.ofList (bytes.flatMap fun b => [Nat.digitChar (b.toNat / 16), Nat.digitChar (b.toNat % 16)])

/-- What `write_header` writes. -/
def fileHeader (kind : LogKind) : Bytes :=
  kind.magic ++ leBytes 4 formatVersion ++ leBytes 4 kind.id ++ List.replicate 48 0

/-- `parse_header` of a log file, given its first 64 bytes. -/
def parseFileHeader (header : Bytes) (path : Nat) : Except WalError LogKind := do
  let kind ← match LogKind.fromMagic (header.take 8) with
    | some kind => .ok kind
    | none => .error (.magicMismatch path (hexLower (header.take 8))
        (hexLower magicChunkLog ++ " or " ++ hexLower magicManifestLog))
  let version := leValue ((header.drop 8).take 4)
  require (version ≤ formatVersion) (.unsupportedVersion path version formatVersion)
  require (LogKind.fromId (leValue ((header.drop 12).take 4)) = some kind)
    (.invalidHeaderReserved path)
  require ((header.drop 16).all (· = 0) = true) (.invalidHeaderReserved path)
  return kind

@[simp] theorem length_fileHeader (kind : LogKind) :
    (fileHeader kind).length = fileHeaderLen := by
  have magic : kind.magic.length = 8 := by cases kind <;> rfl
  simp only [fileHeader, List.length_append, magic, length_leBytes, List.length_replicate]
  rfl

theorem parseFileHeader_fileHeader (kind : LogKind) (path : Nat) :
    parseFileHeader (fileHeader kind) path = .ok kind := by
  cases kind <;> rfl

end OneLink.Wal
