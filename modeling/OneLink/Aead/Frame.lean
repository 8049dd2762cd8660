/-
# Aead.Frame -- a chunk as a sequence of sealed frames

A chunk is cut into frames of 16 KiB; each is sealed under a nonce made of the chunk's
id and the frame's index, with the id as associated data, and followed by its tag.
`decrypt_chunk` is told the length of the plaintext and derives the cut from it.

The loops of `encrypt_chunk` and `decrypt_chunk` walk a buffer with a cursor.  Both come
down to the calls on single frames (`encryptChunk_eq`, `decryptChunk_eq`): the cursor is
always where `frame_layout` says the frame starts.  The cipher is imported; what is
relied on is `Cipher.Lawful`.
-/
import OneLink.Library.ByteReader
import OneLink.Library.Checked

namespace OneLink.Aead

open Library

set_option autoImplicit false

/-- `AEAD_FRAME_PLAINTEXT_LEN` -/
def frameLen : Nat := 16384

/-- `AEAD_TAG_LEN` -/
def tagLen : Nat := 16

/-- `MAX_CHUNK_PLAINTEXT_LEN` -/
def maxChunkPlaintextLen : Nat := 256 * 1024

/-- `AeadError`, as far as these functions return it. -/
inductive AeadError where
  | authentication
  | invalidCiphertextLength (expected got : Nat)
  | plaintextTooLarge (got max : Nat)
  | frameTooLarge (got max : Nat)
  | frameIndexOverflow (got : Nat)
deriving DecidableEq, Repr

/-- `&[u8; 32]` -/
abbrev ChunkId := { bytes : Bytes // bytes.length = 32 }

/-- `AeadCipher` with its key.  Encryption returns the ciphertext, as long as the
buffer it overwrites, and the tag. -/
structure Cipher where
  encryptInPlace : (nonce aad buffer : Bytes) → Except AeadError (Bytes × Bytes)
  decryptInPlace : (nonce aad buffer tag : Bytes) → Except AeadError Bytes

structure FrameRef where
  index : Nat
  plaintextOffset : Nat
  plaintextLen : Nat
  ciphertextOffset : Nat
deriving DecidableEq, Repr

/-- The loop of `frame_layout`. -/
def frameLoop (plaintextLen plaintextOffset ciphertextOffset index : Nat) : List FrameRef :=
  if plaintextOffset < plaintextLen then
    let here := min (plaintextLen - plaintextOffset) frameLen
    ⟨index, plaintextOffset, here, ciphertextOffset⟩ ::
      frameLoop plaintextLen (plaintextOffset + here) (ciphertextOffset + (here + tagLen))
        (index + 1)
  else []
termination_by plaintextLen - plaintextOffset
decreasing_by
  simp only [frameLen]
  omega

def frameLayout (plaintextLen : Nat) : List FrameRef := frameLoop plaintextLen 0 0 0

def frameNonce (chunkId : ChunkId) (frameIndex : Nat) : Except AeadError Bytes := do
  require (frameIndex < 2 ^ 32) (.frameIndexOverflow frameIndex)
  return chunkId.val.take 8 ++ leBytes 4 frameIndex

/-- `plaintext[f.plaintext_offset..f.plaintext_offset + f.plaintext_len]` -/
def framePlaintext (plaintext : Bytes) (f : FrameRef) : Bytes :=
  slice plaintext f.plaintextOffset (f.plaintextOffset + f.plaintextLen)

section Calls

variable (A : Cipher) (chunkId : ChunkId)

def encryptFrames (plaintext : Bytes) :
    List FrameRef → (output : Bytes) → Except AeadError Bytes
  | [], output => return output
  | f :: frames, output => do
    let nonce ← frameNonce chunkId f.index
    let (ciphertext, tag) ← A.encryptInPlace nonce chunkId.val (framePlaintext plaintext f)
    encryptFrames plaintext frames (output ++ ciphertext ++ tag)

def encryptChunk (plaintext : Bytes) : Except AeadError Bytes := do
  require (plaintext.length ≤ maxChunkPlaintextLen)
    (.plaintextTooLarge plaintext.length maxChunkPlaintextLen)
  encryptFrames A chunkId plaintext (frameLayout plaintext.length) []

/-- `output[offset..offset + bytes.len()].copy_from_slice(bytes)` -/
def overwrite (output : Bytes) (offset : Nat) (bytes : Bytes) : Bytes :=
  output.take offset ++ bytes ++ output.drop (offset + bytes.length)

def decryptFrames (ciphertext : Bytes) :
    List FrameRef → (ctCursor : Nat) → (output : Bytes) → Except AeadError Bytes
  | [], _, output => return output
  | f :: frames, ctCursor, output => do
    let nonce ← frameNonce chunkId f.index
    let frameCt := slice ciphertext ctCursor (ctCursor + f.plaintextLen)
    let tag := slice ciphertext (ctCursor + f.plaintextLen) (ctCursor + f.plaintextLen + tagLen)
    let plaintext ← A.decryptInPlace nonce chunkId.val frameCt tag
    decryptFrames ciphertext frames (ctCursor + (f.plaintextLen + tagLen))
      (overwrite output f.plaintextOffset plaintext)

def decryptChunk (plaintextLen : Nat) (ciphertext : Bytes) : Except AeadError Bytes := do
  require (plaintextLen ≤ maxChunkPlaintextLen)
    (.plaintextTooLarge plaintextLen maxChunkPlaintextLen)
  let frames := frameLayout plaintextLen
  let expected := plaintextLen + frames.length * tagLen
  require (ciphertext.length = expected) (.invalidCiphertextLength expected ciphertext.length)
  decryptFrames A chunkId ciphertext frames 0 (List.replicate plaintextLen 0)

def encryptFrame (frameIndex : Nat) (framePlaintext : Bytes) :
    Except AeadError (Bytes × Bytes) := do
  require (framePlaintext.length ≤ frameLen) (.plaintextTooLarge framePlaintext.length frameLen)
  let nonce ← frameNonce chunkId frameIndex
  A.encryptInPlace nonce chunkId.val framePlaintext

def decryptFrame (frameIndex : Nat) (frameCiphertext tag : Bytes) : Except AeadError Bytes := do
  require (frameCiphertext.length ≤ frameLen) (.frameTooLarge frameCiphertext.length frameLen)
  let nonce ← frameNonce chunkId frameIndex
  A.decryptInPlace nonce chunkId.val frameCiphertext tag

end Calls

/-! ## The layout -/

/-- Frame number `index` of a plaintext. -/
def frameAt (plaintextLen index : Nat) : FrameRef where
  index := index
  plaintextOffset := frameLen * index
  plaintextLen := min (plaintextLen - frameLen * index) frameLen
  ciphertextOffset := (frameLen + tagLen) * index

/-- `frame_count_for_plaintext` -/
def frameCount (plaintextLen : Nat) : Nat := (plaintextLen + (frameLen - 1)) / frameLen

/-- `ciphertext_len_for_plaintext` -/
def ciphertextLen (plaintextLen : Nat) : Nat := plaintextLen + frameCount plaintextLen * tagLen

theorem frameLoop_of_lt {plaintextLen offset ctOffset index : Nat} (more : offset < plaintextLen) :
    frameLoop plaintextLen offset ctOffset index =
      ⟨index, offset, min (plaintextLen - offset) frameLen, ctOffset⟩ ::
        frameLoop plaintextLen (offset + min (plaintextLen - offset) frameLen)
          (ctOffset + (min (plaintextLen - offset) frameLen + tagLen)) (index + 1) := by
  rw [frameLoop, if_pos more]

theorem frameLoop_of_le {plaintextLen offset ctOffset index : Nat} (done : plaintextLen ≤ offset) :
    frameLoop plaintextLen offset ctOffset index = [] := by
  rw [frameLoop, if_neg (by omega)]

/-- The loop takes the frames in order, each where the ones before it end. -/
theorem mem_frameLoop {plaintextLen index : Nat} {f : FrameRef} :
    f ∈ frameLoop plaintextLen (frameLen * index) ((frameLen + tagLen) * index) index ↔
      ∃ j, index ≤ j ∧ frameLen * j < plaintextLen ∧ f = frameAt plaintextLen j := by
  by_cases more : frameLen * index < plaintextLen
  · rw [frameLoop_of_lt more, List.mem_cons]
    by_cases full : frameLen * (index + 1) ≤ plaintextLen
    · -- a full frame: the loop goes on at the next index
      have here : min (plaintextLen - frameLen * index) frameLen = frameLen := by
        rw [Nat.mul_succ] at full
        omega
      have next : frameLen * index + frameLen = frameLen * (index + 1) := rfl
      have nextCt : (frameLen + tagLen) * index + (frameLen + tagLen) =
          (frameLen + tagLen) * (index + 1) := rfl
      rw [here, next, nextCt, mem_frameLoop]
      have first : (⟨index, frameLen * index, frameLen, (frameLen + tagLen) * index⟩ : FrameRef) =
          frameAt plaintextLen index := by rw [frameAt, here]
      rw [first]
      constructor
      · rintro (rfl | ⟨j, after, inside, rfl⟩)
        · exact ⟨index, le_rfl, more, rfl⟩
        · exact ⟨j, by omega, inside, rfl⟩
      · rintro ⟨j, after, inside, rfl⟩
        rcases Nat.eq_or_lt_of_le after with rfl | later
        · exact .inl rfl
        · exact .inr ⟨j, later, inside, rfl⟩
    · -- the last frame
      rw [Nat.mul_succ] at full
      rw [frameLoop_of_le (by omega)]
      constructor
      · rintro (rfl | inNil)
        · exact ⟨index, le_rfl, more, rfl⟩
        · cases inNil
      · rintro ⟨j, after, inside, rfl⟩
        have last : j ≤ index := by
          by_contra later
          have := Nat.mul_le_mul_left frameLen (show index + 1 ≤ j by omega)
          rw [Nat.mul_succ] at this
          omega
        rw [Nat.le_antisymm last after]
        exact .inl rfl
  · rw [frameLoop_of_le (by omega)]
    constructor
    · intro inNil
      cases inNil
    · rintro ⟨j, after, inside, rfl⟩
      have := Nat.mul_le_mul_left frameLen after
      omega
termination_by plaintextLen - frameLen * index
decreasing_by
  rw [Nat.mul_succ]
  have positive : 0 < frameLen := by decide
  omega

theorem mem_frameLayout {plaintextLen : Nat} {f : FrameRef} :
    f ∈ frameLayout plaintextLen ↔
      ∃ index, frameLen * index < plaintextLen ∧ f = frameAt plaintextLen index := by
  have started : f ∈ frameLayout plaintextLen ↔ _ := @mem_frameLoop plaintextLen 0 f
  simp only [started, Nat.zero_le, true_and]

theorem frameCount_succ {rest : Nat} (more : 0 < rest) :
    frameCount rest = frameCount (rest - min rest frameLen) + 1 := by
  unfold frameCount frameLen
  omega

theorem length_frameLoop (plaintextLen offset ctOffset index : Nat) :
    (frameLoop plaintextLen offset ctOffset index).length = frameCount (plaintextLen - offset) := by
  induction offset, ctOffset, index using frameLoop.induct plaintextLen with
  | case1 offset ctOffset index more here ih =>
    rw [frameLoop_of_lt more, List.length_cons, ih, frameCount_succ (Nat.sub_pos_of_lt more),
      Nat.sub_add_eq]
  | case2 offset ctOffset index done =>
    rw [frameLoop_of_le (by omega), Nat.sub_eq_zero_of_le (by omega)]
    rfl

theorem length_frameLayout (plaintextLen : Nat) :
    (frameLayout plaintextLen).length = frameCount plaintextLen :=
  length_frameLoop plaintextLen 0 0 0

/-! ## The parts of a chunk -/

def frameCiphertext (ciphertext : Bytes) (f : FrameRef) : Bytes :=
  slice ciphertext f.ciphertextOffset (f.ciphertextOffset + f.plaintextLen)

def frameTag (ciphertext : Bytes) (f : FrameRef) : Bytes :=
  slice ciphertext (f.ciphertextOffset + f.plaintextLen)
    (f.ciphertextOffset + f.plaintextLen + tagLen)

theorem ciphertextLen_step {rest : Nat} (more : 0 < rest) :
    ciphertextLen rest =
      (min rest frameLen + tagLen) + ciphertextLen (rest - min rest frameLen) := by
  rw [ciphertextLen, ciphertextLen, frameCount_succ more, Nat.succ_mul]
  omega

/-- The plaintexts of the frames make up the plaintext. -/
theorem flatMap_framePlaintext (plaintext : Bytes) (plaintextLen offset ctOffset index : Nat)
    (inside : offset ≤ plaintextLen) :
    (frameLoop plaintextLen offset ctOffset index).flatMap (framePlaintext plaintext) =
      slice plaintext offset plaintextLen := by
  induction offset, ctOffset, index using frameLoop.induct plaintextLen with
  | case1 offset ctOffset index more here ih =>
    rw [frameLoop_of_lt more, List.flatMap_cons, ih (by omega)]
    refine slice_append_slice plaintext (Nat.le_add_right _ _) ?_
    show offset + min (plaintextLen - offset) frameLen ≤ plaintextLen
    omega
  | case2 offset ctOffset index done =>
    rw [frameLoop_of_le (by omega), List.flatMap_nil, slice, List.drop_of_length_le]
    rw [List.length_take]
    omega

/-- The ciphertexts and tags of the frames make up the ciphertext. -/
theorem flatMap_frameCiphertext (ciphertext : Bytes) (plaintextLen offset ctOffset index : Nat) :
    (frameLoop plaintextLen offset ctOffset index).flatMap
        (fun f => frameCiphertext ciphertext f ++ frameTag ciphertext f) =
      slice ciphertext ctOffset (ctOffset + ciphertextLen (plaintextLen - offset)) := by
  induction offset, ctOffset, index using frameLoop.induct plaintextLen with
  | case1 offset ctOffset index more here ih =>
    rw [frameLoop_of_lt more, List.flatMap_cons, ih,
      ciphertextLen_step (Nat.sub_pos_of_lt more), Nat.sub_add_eq]
    have one : frameCiphertext ciphertext ⟨index, offset, here, ctOffset⟩ ++
        frameTag ciphertext ⟨index, offset, here, ctOffset⟩ =
        slice ciphertext ctOffset (ctOffset + (here + tagLen)) := by
      rw [← Nat.add_assoc]
      exact slice_append_slice ciphertext (by omega) (by omega)
    rw [one, slice_append_slice ciphertext (by omega) (by omega), Nat.add_assoc]
  | case2 offset ctOffset index done =>
    rw [frameLoop_of_le (by omega), List.flatMap_nil, Nat.sub_eq_zero_of_le (by omega), slice,
      List.drop_of_length_le]
    rw [List.length_take]
    exact Nat.min_le_left _ _

/-! ## The loops come down to single frames -/

/-- What the cipher is relied on for here: it overwrites the buffer in place. -/
structure Cipher.Lawful (A : Cipher) : Prop where
  sealed_length {nonce aad plaintext ciphertext tag : Bytes} :
    A.encryptInPlace nonce aad plaintext = .ok (ciphertext, tag) →
      ciphertext.length = plaintext.length ∧ tag.length = tagLen
  opened_length {nonce aad plaintext ciphertext tag : Bytes} :
    A.decryptInPlace nonce aad ciphertext tag = .ok plaintext →
      plaintext.length = ciphertext.length

variable {A : Cipher} {chunkId : ChunkId}

def sealFrame (A : Cipher) (chunkId : ChunkId) (plaintext : Bytes) (f : FrameRef) :
    Except AeadError Bytes := do
  let (ciphertext, tag) ← encryptFrame A chunkId f.index (framePlaintext plaintext f)
  return ciphertext ++ tag

/-- `decrypt_frame` on a frame of the layout. -/
def openFrame (A : Cipher) (chunkId : ChunkId) (ciphertext : Bytes) (f : FrameRef) :
    Except AeadError Bytes :=
  decryptFrame A chunkId f.index (frameCiphertext ciphertext f) (frameTag ciphertext f)

theorem length_slice_le (data : Bytes) (start width : Nat) :
    (slice data start (start + width)).length ≤ width := by
  rw [slice, List.length_drop, List.length_take]
  omega

theorem plaintextLen_le {plaintextLen : Nat} {f : FrameRef} (member : f ∈ frameLayout plaintextLen) :
    f.plaintextLen ≤ frameLen := by
  obtain ⟨index, -, rfl⟩ := mem_frameLayout.mp member
  exact Nat.min_le_right _ _

theorem sealFrame_eq {plaintext : Bytes} {f : FrameRef} (small : f.plaintextLen ≤ frameLen) :
    sealFrame A chunkId plaintext f = (do
      let nonce ← frameNonce chunkId f.index
      let (ciphertext, tag) ← A.encryptInPlace nonce chunkId.val (framePlaintext plaintext f)
      return ciphertext ++ tag) := by
  have short := (length_slice_le plaintext f.plaintextOffset f.plaintextLen).trans small
  unfold sealFrame encryptFrame framePlaintext
  rw [require_of short, ok_bind, bind_assoc]

theorem openFrame_eq {ciphertext : Bytes} {f : FrameRef} (small : f.plaintextLen ≤ frameLen) :
    openFrame A chunkId ciphertext f = (do
      let nonce ← frameNonce chunkId f.index
      A.decryptInPlace nonce chunkId.val (frameCiphertext ciphertext f)
        (frameTag ciphertext f)) := by
  have short := (length_slice_le ciphertext f.ciphertextOffset f.plaintextLen).trans small
  unfold openFrame decryptFrame frameCiphertext
  rw [require_of short, ok_bind]

theorem encryptFrames_eq (plaintext output : Bytes) (frames : List FrameRef)
    (small : ∀ f ∈ frames, f.plaintextLen ≤ frameLen) :
    encryptFrames A chunkId plaintext frames output =
      (frames.mapM (sealFrame A chunkId plaintext)).map fun parts => output ++ parts.flatten := by
  induction frames generalizing output with
  | nil =>
    show Except.ok output = Except.ok (output ++ [])
    rw [List.append_nil]
  | cons f frames ih =>
    have rest (output : Bytes) := ih output fun f member =>
      small f (List.mem_cons_of_mem _ member)
    rw [encryptFrames, List.mapM_cons, sealFrame_eq (small f List.mem_cons_self)]
    cases frameNonce chunkId f.index with
    | error err => rfl
    | ok nonce =>
      simp only [ok_bind]
      cases A.encryptInPlace nonce chunkId.val (framePlaintext plaintext f) with
      | error err => rfl
      | ok sealed =>
        simp only [ok_bind, rest]
        cases frames.mapM (sealFrame A chunkId plaintext) with
        | error err => rfl
        | ok parts =>
          show Except.ok (output ++ sealed.1 ++ sealed.2 ++ parts.flatten) =
            Except.ok (output ++ ((sealed.1 ++ sealed.2) :: parts).flatten)
          rw [List.flatten_cons, List.append_assoc, List.append_assoc, List.append_assoc]

/-- **`encrypt_chunk` is `encrypt_frame` on every frame.** -/
theorem encryptChunk_eq (plaintext : Bytes) :
    encryptChunk A chunkId plaintext = (do
      require (plaintext.length ≤ maxChunkPlaintextLen)
        (.plaintextTooLarge plaintext.length maxChunkPlaintextLen)
      let parts ← (frameLayout plaintext.length).mapM (sealFrame A chunkId plaintext)
      return parts.flatten) := by
  unfold encryptChunk
  rw [encryptFrames_eq plaintext [] _ fun f => plaintextLen_le]
  rfl

theorem length_overwrite {output bytes : Bytes} {offset : Nat}
    (inside : offset + bytes.length ≤ output.length) :
    (overwrite output offset bytes).length = output.length := by
  simp only [overwrite, List.length_append, List.length_take, List.length_drop]
  omega

theorem take_overwrite {output bytes : Bytes} {offset : Nat} (inside : offset ≤ output.length) :
    (overwrite output offset bytes).take (offset + bytes.length) = output.take offset ++ bytes := by
  refine List.take_left' ?_
  rw [List.length_append, List.length_take, Nat.min_eq_left inside]

/-- The output buffer holds the frames that have been opened, and zeros. -/
theorem decryptFrames_eq (lawful : A.Lawful) (ciphertext output : Bytes)
    (plaintextLen offset ctOffset index : Nat)
    (long : ctOffset + ciphertextLen (plaintextLen - offset) ≤ ciphertext.length)
    (sized : output.length = plaintextLen) (inside : offset ≤ plaintextLen) :
    decryptFrames A chunkId ciphertext (frameLoop plaintextLen offset ctOffset index) ctOffset
        output =
      ((frameLoop plaintextLen offset ctOffset index).mapM (openFrame A chunkId ciphertext)).map
        fun parts => output.take offset ++ parts.flatten := by
  induction offset, ctOffset, index using frameLoop.induct plaintextLen generalizing output with
  | case1 offset ctOffset index more here ih =>
    rw [ciphertextLen_step (Nat.sub_pos_of_lt more), ← Nat.sub_add_eq] at long
    have room : ctOffset + ((here + tagLen) + ciphertextLen (plaintextLen - (offset + here))) ≤
        ciphertext.length := long
    have upTo : here ≤ plaintextLen - offset := Nat.min_le_left _ _
    have small : here ≤ frameLen := Nat.min_le_right _ _
    rw [frameLoop_of_lt more]
    show decryptFrames A chunkId ciphertext (⟨index, offset, here, ctOffset⟩ ::
        frameLoop plaintextLen (offset + here) (ctOffset + (here + tagLen)) (index + 1)) _ _ =
      Except.map _ ((⟨index, offset, here, ctOffset⟩ ::
        frameLoop plaintextLen (offset + here) (ctOffset + (here + tagLen)) (index + 1)).mapM _)
    clear_value here
    rw [decryptFrames, List.mapM_cons, openFrame_eq small]
    cases frameNonce chunkId index with
    | error err => rfl
    | ok nonce =>
      simp only [ok_bind, frameCiphertext, frameTag]
      cases opened : A.decryptInPlace nonce chunkId.val
          (slice ciphertext ctOffset (ctOffset + here)) _ with
      | error err => rfl
      | ok plaintext =>
        have width : plaintext.length = here := by
          rw [lawful.opened_length opened, length_slice (by omega)]
          omega
        have rest := ih (overwrite output offset plaintext) (by omega)
          (by rw [length_overwrite (by omega), sized]) (by omega)
        have kept : (overwrite output offset plaintext).take (offset + here) =
            output.take offset ++ plaintext := by
          rw [← width, take_overwrite (by omega)]
        simp only [ok_bind, rest, kept]
        cases List.mapM (openFrame A chunkId ciphertext) _ with
        | error err => rfl
        | ok parts =>
          show Except.ok (output.take offset ++ plaintext ++ parts.flatten) =
            Except.ok (output.take offset ++ (plaintext :: parts).flatten)
          rw [List.flatten_cons, List.append_assoc]
  | case2 offset ctOffset index done =>
    rw [frameLoop_of_le (by omega)]
    show Except.ok output = Except.ok (output.take offset ++ [])
    rw [List.append_nil, List.take_of_length_le (by omega)]

/-- **`decrypt_chunk` is `decrypt_frame` on every frame.** -/
theorem decryptChunk_eq (lawful : A.Lawful) (plaintextLen : Nat) (ciphertext : Bytes) :
    decryptChunk A chunkId plaintextLen ciphertext = (do
      require (plaintextLen ≤ maxChunkPlaintextLen)
        (.plaintextTooLarge plaintextLen maxChunkPlaintextLen)
      require (ciphertext.length = ciphertextLen plaintextLen)
        (.invalidCiphertextLength (ciphertextLen plaintextLen) ciphertext.length)
      let parts ← (frameLayout plaintextLen).mapM (openFrame A chunkId ciphertext)
      return parts.flatten) := by
  unfold decryptChunk
  simp only [length_frameLayout]
  by_cases sized : ciphertext.length = ciphertextLen plaintextLen
  · have loop := @decryptFrames_eq A chunkId lawful ciphertext (List.replicate plaintextLen 0)
      plaintextLen 0 0 0
      (by rw [Nat.zero_add, Nat.sub_zero, sized]) List.length_replicate (Nat.zero_le _)
    rw [frameLayout, loop]
    rfl
  · rw [require_of_not sized]
    have same : ¬ ciphertext.length = plaintextLen + frameCount plaintextLen * tagLen := sized
    rw [require_of_not same]
    rfl

end OneLink.Aead
