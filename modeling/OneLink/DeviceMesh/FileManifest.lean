/-
# DeviceMesh.FileManifest — files of the distributed store

A file is a list of chunk hashes after erasure coding: blocks of `k + m` hashes, any `k` of
which give the block's data back.
-/
import OneLink.DeviceMesh.State

namespace OneLink.DeviceMesh

open Library

set_option autoImplicit false

/-- `[u8; 32]` -/
abbrev ChunkHash := {hash : Bytes // hash.length = 32}

scoped instance lawfulChunkHash : LawfulBEq ChunkHash := inferInstance

inductive FileError where
  | erasurePolicyZeroData
  | erasurePolicyOversize (k m max : UInt8)
  | erasurePolicyZeroMinDevices
  | fileManifestEmpty
  | fileManifestTooManyChunks (got max : Nat)
  | fileManifestMimeTooLong (got max : Nat)
  | fileManifestZeroChunkSize
  | fileManifestChunkCountNotStripe (got stripe : Nat)
  | fanOutNoSources
  | fanOutBadOverrequestFactor (gotBits : UInt64)
  | fanOutNothingToReplan
  deriving DecidableEq

def maxKPlusM : UInt8 := 32
def maxChunksPerFile : Nat := 1048576
def maxMimeLen : Nat := 64

structure ErasurePolicy where
  k : UInt8
  m : UInt8
  minDevicesPerShard : UInt8
  deriving DecidableEq

namespace ErasurePolicy

def validate (policy : ErasurePolicy) : Except FileError Unit := do
  require (policy.k ≠ 0) .erasurePolicyZeroData
  require (¬ policy.k.toNat + policy.m.toNat > maxKPlusM.toNat)
    (.erasurePolicyOversize policy.k policy.m maxKPlusM)
  require (policy.minDevicesPerShard ≠ 0) .erasurePolicyZeroMinDevices

def totalShards (policy : ErasurePolicy) : Nat := policy.k.toNat + policy.m.toNat

end ErasurePolicy

structure FileManifest where
  fileSize : UInt64
  chunkSize : UInt32
  chunks : List ChunkHash
  mime : Bytes
  createdUnix : UInt64
  policy : ErasurePolicy
  deriving DecidableEq

namespace FileManifest

def shapeCheck (manifest : FileManifest) : Except FileError Unit := do
  manifest.policy.validate
  require (manifest.chunks ≠ []) .fileManifestEmpty
  require (¬ manifest.chunks.length > maxChunksPerFile)
    (.fileManifestTooManyChunks manifest.chunks.length maxChunksPerFile)
  require (¬ manifest.mime.length > maxMimeLen)
    (.fileManifestMimeTooLong manifest.mime.length maxMimeLen)
  require (manifest.chunkSize ≠ 0) .fileManifestZeroChunkSize
  require (manifest.chunks.length % manifest.policy.totalShards = 0)
    (.fileManifestChunkCountNotStripe manifest.chunks.length manifest.policy.totalShards)

def manifestDomain : Bytes := ascii "OL-mesh-file-manifest-v1"

def canonicalBytes (manifest : FileManifest) : Bytes :=
  let mimeLen := min manifest.mime.length (2 ^ 16 - 1)
  manifestDomain ++ beBytes 8 manifest.fileSize.toNat ++ beBytes 4 manifest.chunkSize.toNat ++
    [manifest.policy.k, manifest.policy.m, manifest.policy.minDevicesPerShard] ++
    beBytes 8 manifest.createdUnix.toNat ++ beBytes 2 mimeLen ++ manifest.mime.take mimeLen ++
    lenBytes manifest.chunks.length ++ manifest.chunks.flatMap (·.1)

/-- `file_id`, with BLAKE3 as `hash`. -/
def fileId (hash : Bytes → Bytes) (manifest : FileManifest) : Bytes :=
  hash (ascii "OL-mesh-file-id-v1" ++ manifest.canonicalBytes)

/-! ## Stripes -/

def nStripes (manifest : FileManifest) : Nat :=
  manifest.chunks.length / manifest.policy.totalShards

/-- The `i`-th block of `k + m` chunks. -/
def stripe (manifest : FileManifest) (i : Nat) : List ChunkHash :=
  (manifest.chunks.drop (i * manifest.policy.totalShards)).take manifest.policy.totalShards

theorem shapeCheck_eq_ok {manifest : FileManifest} (checked : manifest.shapeCheck = .ok ()) :
    0 < manifest.policy.k.toNat ∧ manifest.policy.totalShards ≤ 32 ∧
      0 < manifest.chunks.length ∧ manifest.chunks.length ≤ maxChunksPerFile ∧
      manifest.chunks.length = manifest.nStripes * manifest.policy.totalShards := by
  simp only [shapeCheck, ErasurePolicy.validate, bind_eq_ok, require_eq_ok, exists_const]
    at checked
  obtain ⟨⟨data, few, -⟩, some, count, -, -, whole⟩ := checked
  refine ⟨?_, Nat.not_lt.mp few, List.length_pos_of_ne_nil some, Nat.not_lt.mp count, ?_⟩
  · apply Nat.pos_of_ne_zero
    intro zero
    exact data (UInt8.toNat_inj.mp zero)
  · exact (Nat.div_mul_cancel (Nat.dvd_of_mod_eq_zero whole)).symm

theorem nStripes_pos {manifest : FileManifest} (checked : manifest.shapeCheck = .ok ()) :
    0 < manifest.nStripes := by
  obtain ⟨_, _, some, _, whole⟩ := shapeCheck_eq_ok checked
  apply Nat.pos_of_ne_zero
  intro none
  rw [none, Nat.zero_mul] at whole
  omega

/-- The chunks before a stripe, the stripe, and the chunks after it. -/
theorem chunks_eq (manifest : FileManifest) (i : Nat) :
    manifest.chunks = manifest.chunks.take (i * manifest.policy.totalShards) ++
      (manifest.stripe i ++ manifest.chunks.drop ((i + 1) * manifest.policy.totalShards)) := by
  rw [stripe, Nat.succ_mul, ← List.drop_drop, List.take_append_drop, List.take_append_drop]

theorem length_stripe {manifest : FileManifest} (checked : manifest.shapeCheck = .ok ()) {i : Nat}
    (inside : i < manifest.nStripes) : (manifest.stripe i).length = manifest.policy.totalShards := by
  obtain ⟨_, _, _, _, whole⟩ := shapeCheck_eq_ok checked
  rw [stripe, List.length_take, List.length_drop, whole]
  have room : (i + 1) * manifest.policy.totalShards ≤
      manifest.nStripes * manifest.policy.totalShards := Nat.mul_le_mul_right _ inside
  rw [Nat.succ_mul] at room
  omega

end FileManifest

end OneLink.DeviceMesh
