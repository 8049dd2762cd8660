/-
# Library.Frames -- logs of self-delimiting frames, their torn tails and their checksum

A log is a sequence of entries written one encoding after the other.  What a
crash leaves of it is a prefix of the bytes, and `prefix_frames` says what such
a prefix is: the encodings of the first entries in full, then a proper part of
the next one.

The reflected CRC-32C: initial value and final xor all ones, polynomial
`0x82F63B78`.
-/
import Mathlib.Data.List.Basic
import OneLink.Library.Framing

namespace OneLink.Library

set_option autoImplicit false

variable {α β : Type} (encode : α → List β)

/-- The encodings of the entries, one after the other. -/
def frames (entries : List α) : List β := entries.flatMap encode

@[simp] theorem frames_nil : frames encode [] = [] := rfl

@[simp] theorem frames_cons (a : α) (rest : List α) :
    frames encode (a :: rest) = encode a ++ frames encode rest := rfl

@[simp] theorem frames_append (early late : List α) :
    frames encode (early ++ late) = frames encode early ++ frames encode late :=
  List.flatMap_append

/-- What is left of the entry that was being written: nothing, or a part of its
encoding that misses at least the last byte. -/
inductive TornTail : List α → List β → Prop
  | clean {entries : List α} : TornTail entries []
  | torn {next : α} {later : List α} {part : List β} (begun : part <+: encode next)
      (short : part.length < (encode next).length) : TornTail (next :: later) part

variable {encode}

theorem prefix_frames {entries : List α} {bytes : List β}
    (isPrefix : bytes <+: frames encode entries) :
    ∃ whole rest tail, entries = whole ++ rest ∧ bytes = frames encode whole ++ tail ∧
      TornTail encode rest tail := by
  induction entries generalizing bytes with
  | nil =>
    refine ⟨[], [], [], rfl, ?_, .clean⟩
    exact List.prefix_nil.mp isPrefix
  | cons a entries ih =>
    by_cases short : bytes.length < (encode a).length
    · refine ⟨[], a :: entries, bytes, rfl, rfl, .torn ?_ short⟩
      exact List.prefix_of_prefix_length_le isPrefix (List.prefix_append _ _) (Nat.le_of_lt short)
    · obtain ⟨suffix, rfl⟩ : encode a <+: bytes :=
        List.prefix_of_prefix_length_le (List.prefix_append _ _) isPrefix (Nat.le_of_not_lt short)
      rw [frames_cons, List.prefix_append_right_inj] at isPrefix
      obtain ⟨whole, rest, tail, rfl, rfl, torn⟩ := ih isPrefix
      exact ⟨a :: whole, rest, tail, rfl, by simp, torn⟩

def crcShift (crc : UInt32) : UInt32 :=
  if crc &&& 1 = 1 then crc >>> 1 ^^^ 0x82F63B78 else crc >>> 1

def crcByte (crc : UInt32) (b : UInt8) : UInt32 :=
  crcShift <| crcShift <| crcShift <| crcShift <| crcShift <| crcShift <| crcShift <| crcShift
    (crc ^^^ b.toUInt32)

def crc32c (bytes : Bytes) : UInt32 := bytes.foldl crcByte 0xFFFFFFFF ^^^ 0xFFFFFFFF

example : crc32c (ascii "123456789") = 0xE3069283 := by decide +kernel

end OneLink.Library
