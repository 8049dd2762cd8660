/-
# Aead.Binding -- what the frames of a chunk bind

The ideal cipher opens exactly what has been sealed.  The nonce of a frame carries its
index and the associated data the chunk's id; neither carries the number of frames.  So
frames cannot be changed, moved, doubled or taken from another chunk, but a chunk can be
cut off behind a full frame by whoever supplies the length: `decryptChunk_eq_ok_iff`
says that nothing else is accepted, `cut_accepted` that this is.
-/
import OneLink.Aead.Frame

namespace OneLink.Aead

open Library

set_option autoImplicit false

/-- `frame_nonce`, for an index that fits. -/
def nonceOf (chunkId : ChunkId) (index : Nat) : Bytes := chunkId.val.take 8 ++ leBytes 4 index

structure SealCall where
  nonce : Bytes
  aad : Bytes
  plaintext : Bytes
deriving DecidableEq, Repr

/-- The calls of the cipher that `encrypt_chunk` makes. -/
def sealCalls (chunk : ChunkId × Bytes) : List SealCall :=
  (frameLayout chunk.2.length).map fun f =>
    ⟨nonceOf chunk.1 f.index, chunk.1.val, framePlaintext chunk.2 f⟩

/-- The cipher opens what has been sealed for `chunks`, and nothing else. -/
def Cipher.Ideal (A : Cipher) (chunks : List (ChunkId × Bytes)) : Prop :=
  ∀ nonce aad ciphertext tag plaintext : Bytes,
    A.decryptInPlace nonce aad ciphertext tag = .ok plaintext ↔
      (∃ chunk ∈ chunks, ⟨nonce, aad, plaintext⟩ ∈ sealCalls chunk) ∧
        A.encryptInPlace nonce aad plaintext = .ok (ciphertext, tag)

/-- The frames that share a byte with `plaintext[start..stop]`. -/
def coveringFrames (plaintextLen start stop : Nat) : List FrameRef :=
  (frameLayout plaintextLen).filter fun f =>
    f.plaintextOffset < stop ∧ start < f.plaintextOffset + f.plaintextLen

/-- A random-access read: the covering frames are opened one by one, and of each the
bytes in the range are kept. -/
def readRange (A : Cipher) (chunkId : ChunkId) (plaintextLen : Nat) (ciphertext : Bytes)
    (start stop : Nat) : Except AeadError Bytes := do
  let parts ← (coveringFrames plaintextLen start stop).mapM fun f => do
    let plaintext ← openFrame A chunkId ciphertext f
    return slice plaintext (start - f.plaintextOffset) (stop - f.plaintextOffset)
  return parts.flatten

variable {A : Cipher} {chunkId : ChunkId}

theorem nonceOf_inj {index index' : Nat} (small : index < 2 ^ 32) (small' : index' < 2 ^ 32)
    (same : nonceOf chunkId index = nonceOf chunkId index') : index = index' := by
  have low := List.append_cancel_left same
  rw [← @leValue_leBytes 4 index small, ← @leValue_leBytes 4 index' small', low]

theorem frameNonce_of_lt {index : Nat} (small : index < 2 ^ 32) :
    frameNonce chunkId index = .ok (nonceOf chunkId index) := by
  unfold frameNonce
  rw [require_of small]
  rfl

theorem index_lt {plaintextLen : Nat} {f : FrameRef} (member : f ∈ frameLayout plaintextLen)
    (small : plaintextLen ≤ maxChunkPlaintextLen) : f.index < 2 ^ 32 := by
  obtain ⟨index, inside, rfl⟩ := mem_frameLayout.mp member
  simp only [frameAt, frameLen, maxChunkPlaintextLen] at *
  omega

theorem openFrame_of_mem {plaintextLen : Nat} {ciphertext : Bytes} {f : FrameRef}
    (member : f ∈ frameLayout plaintextLen) (small : plaintextLen ≤ maxChunkPlaintextLen) :
    openFrame A chunkId ciphertext f =
      A.decryptInPlace (nonceOf chunkId f.index) chunkId.val (frameCiphertext ciphertext f)
        (frameTag ciphertext f) := by
  rw [openFrame_eq (plaintextLen_le member), frameNonce_of_lt (index_lt member small), ok_bind]

/-! ## What `encrypt_chunk` writes -/

/-- Every frame of the ciphertext stands where the layout says. -/
theorem sealed_parts (lawful : A.Lawful) {plaintext : Bytes}
    {plaintextLen offset ctOffset index : Nat} (sized : plaintext.length = plaintextLen)
    (parts : List Bytes) (front : Bytes)
    (sealed : (frameLoop plaintextLen offset ctOffset index).mapM
      (sealFrame A chunkId plaintext) = .ok parts)
    (starts : front.length = ctOffset) :
    (front ++ parts.flatten).length = ctOffset + ciphertextLen (plaintextLen - offset) ∧
      ∀ f ∈ frameLoop plaintextLen offset ctOffset index,
        ∃ nonce, frameNonce chunkId f.index = .ok nonce ∧
          A.encryptInPlace nonce chunkId.val (framePlaintext plaintext f) =
            .ok (frameCiphertext (front ++ parts.flatten) f,
              frameTag (front ++ parts.flatten) f) := by
  induction offset, ctOffset, index using frameLoop.induct plaintextLen
    generalizing parts front with
  | case1 offset ctOffset index more here ih =>
    have upTo : here ≤ plaintextLen - offset := Nat.min_le_left _ _
    have small : here ≤ frameLen := Nat.min_le_right _ _
    have counted : ciphertextLen (plaintextLen - offset) =
        (here + tagLen) + ciphertextLen (plaintextLen - (offset + here)) := by
      rw [ciphertextLen_step (Nat.sub_pos_of_lt more), Nat.sub_add_eq]
    have unrolled : frameLoop plaintextLen offset ctOffset index =
        ⟨index, offset, here, ctOffset⟩ ::
          frameLoop plaintextLen (offset + here) (ctOffset + (here + tagLen)) (index + 1) :=
      frameLoop_of_lt more
    rw [unrolled] at sealed ⊢
    clear_value here
    rw [List.mapM_cons, sealFrame_eq (f := ⟨index, offset, here, ctOffset⟩) small] at sealed
    simp only [bind_eq_ok, pure_eq_ok_iff] at sealed
    obtain ⟨part, ⟨nonce, hasNonce, ⟨ciphertext, tag⟩, sealedHere, rfl⟩, rest, sealedRest, rfl⟩ :=
      sealed
    obtain ⟨width, tagWidth⟩ := lawful.sealed_length sealedHere
    have width' : ciphertext.length = here := by
      have inside : offset + here ≤ plaintext.length := by omega
      rw [width]
      exact (length_slice inside).trans (Nat.add_sub_cancel_left offset here)
    have shape : front ++ ((ciphertext ++ tag) :: rest).flatten =
        front ++ (ciphertext ++ tag) ++ rest.flatten := by
      rw [List.flatten_cons, List.append_assoc front]
    have starts' : (front ++ (ciphertext ++ tag)).length = ctOffset + (here + tagLen) := by
      rw [List.length_append, List.length_append, starts, width', tagWidth]
    obtain ⟨length, sealedAt⟩ := ih _ _ sealedRest starts'
    rw [shape]
    refine ⟨by rw [length, counted]; omega, ?_⟩
    intro f member
    rcases List.mem_cons.mp member with rfl | later
    · refine ⟨nonce, hasNonce, sealedHere.trans ?_⟩
      have first : frameCiphertext (front ++ (ciphertext ++ tag) ++ rest.flatten)
          ⟨index, offset, here, ctOffset⟩ = ciphertext := by
        unfold frameCiphertext
        simp only
        rw [← starts, ← width', List.append_assoc, List.append_assoc]
        exact slice_middle front ciphertext _
      have second : frameTag (front ++ (ciphertext ++ tag) ++ rest.flatten)
          ⟨index, offset, here, ctOffset⟩ = tag := by
        unfold frameTag
        simp only
        rw [← starts, ← width', ← tagWidth, ← List.length_append, List.append_assoc,
          List.append_assoc, ← List.append_assoc front]
        exact slice_middle (front ++ ciphertext) tag _
      rw [first, second]
    · exact sealedAt f later
  | case2 offset ctOffset index done =>
    rw [frameLoop_of_le (by omega)] at sealed ⊢
    cases sealed
    rw [Nat.sub_eq_zero_of_le (by omega)]
    refine ⟨by simp [starts, ciphertextLen, frameCount, frameLen], ?_⟩
    intro f member
    cases member

/-- What is known of the ciphertext of a chunk. -/
structure SealedAs (A : Cipher) (chunkId : ChunkId) (plaintext ciphertext : Bytes) : Prop where
  small : plaintext.length ≤ maxChunkPlaintextLen
  length : ciphertext.length = ciphertextLen plaintext.length
  frame {f : FrameRef} : f ∈ frameLayout plaintext.length →
    A.encryptInPlace (nonceOf chunkId f.index) chunkId.val (framePlaintext plaintext f) =
      .ok (frameCiphertext ciphertext f, frameTag ciphertext f)

theorem sealedAs_of_encryptChunk (lawful : A.Lawful) {plaintext ciphertext : Bytes}
    (sealed : encryptChunk A chunkId plaintext = .ok ciphertext) :
    SealedAs A chunkId plaintext ciphertext := by
  rw [encryptChunk_eq] at sealed
  simp only [bind_eq_ok, require_eq_ok, exists_const, pure_eq_ok_iff] at sealed
  obtain ⟨small, parts, sealed, rfl⟩ := sealed
  obtain ⟨length, sealedAt⟩ := sealed_parts lawful rfl parts [] sealed rfl
  refine ⟨small, by simpa using length, fun {f} member => ?_⟩
  obtain ⟨nonce, hasNonce, sealedHere⟩ := sealedAt f member
  rw [frameNonce_of_lt (index_lt member small)] at hasNonce
  cases hasNonce
  exact sealedHere

theorem ciphertextLen_mono {less more : Nat} (le : less ≤ more) :
    ciphertextLen less ≤ ciphertextLen more := by
  unfold ciphertextLen frameCount
  have := Nat.div_le_div_right (c := frameLen) (Nat.add_le_add_right le (frameLen - 1))
  have := Nat.mul_le_mul_right tagLen this
  omega

/-! ## What `decrypt_chunk` accepts -/

/-- The lengths at which a chunk can be cut off: its own, and the ends of full frames. -/
def CutAt (plaintextLen whole : Nat) : Prop :=
  plaintextLen = whole ∨ frameLen ∣ plaintextLen ∧ plaintextLen ≤ whole

theorem CutAt.le {plaintextLen whole : Nat} (cut : CutAt plaintextLen whole) :
    plaintextLen ≤ whole := by
  rcases cut with rfl | ⟨-, le⟩
  · exact le_rfl
  · exact le

/-- The frames up to a cut are frames of the whole chunk, and only there. -/
theorem cutAt_iff {plaintextLen whole : Nat} :
    CutAt plaintextLen whole ↔ ∀ f ∈ frameLayout plaintextLen, f ∈ frameLayout whole := by
  constructor
  · rintro (rfl | ⟨⟨count, rfl⟩, le⟩) f member
    · exact member
    · obtain ⟨index, inside, rfl⟩ := mem_frameLayout.mp member
      have full : frameLen * (index + 1) ≤ frameLen * count :=
        Nat.mul_le_mul_left frameLen (Nat.lt_of_mul_lt_mul_left inside)
      rw [Nat.mul_succ] at full
      refine mem_frameLayout.mpr ⟨index, by omega, ?_⟩
      have here : min (frameLen * count - frameLen * index) frameLen = frameLen := by omega
      have there : min (whole - frameLen * index) frameLen = frameLen := by omega
      rw [frameAt, frameAt, here, there]
  · intro covered
    rcases Nat.eq_zero_or_pos plaintextLen with rfl | positive
    · exact .inr ⟨dvd_zero _, Nat.zero_le _⟩
    · -- the last frame is full, or the one that ends the chunk
      obtain ⟨last, below, above⟩ : ∃ last, frameLen * last < plaintextLen ∧
          plaintextLen ≤ frameLen * last + frameLen := by
        refine ⟨(plaintextLen - 1) / frameLen, ?_, ?_⟩
        · simp only [frameLen]
          omega
        · simp only [frameLen]
          omega
      have member := covered _ (mem_frameLayout.mpr ⟨last, below, rfl⟩)
      obtain ⟨index, inside, same⟩ := mem_frameLayout.mp member
      simp only [frameAt, FrameRef.mk.injEq] at same
      obtain ⟨rfl, -, width, -⟩ := same
      by_cases full : plaintextLen = frameLen * last + frameLen
      · refine .inr ⟨⟨last + 1, by rw [full, Nat.mul_succ]⟩, by omega⟩
      · exact .inl (by omega)

theorem frame_inside {plaintextLen : Nat} {f : FrameRef} (member : f ∈ frameLayout plaintextLen) :
    f.plaintextOffset + f.plaintextLen ≤ plaintextLen ∧
      f.ciphertextOffset + f.plaintextLen + tagLen ≤ ciphertextLen plaintextLen := by
  obtain ⟨index, inside, rfl⟩ := mem_frameLayout.mp member
  simp only [frameAt, ciphertextLen, frameCount, frameLen, tagLen] at *
  omega

section Ideal

variable {chunks : List (ChunkId × Bytes)} {plaintext ciphertext : Bytes}

/-- A frame that opens is the frame of this index of the chunk that was sealed. -/
theorem openFrame_sealed (lawful : A.Lawful) (ideal : A.Ideal chunks)
    (once : ∀ other, (chunkId, other) ∈ chunks ↔ other = plaintext)
    (sealed : SealedAs A chunkId plaintext ciphertext) {plaintextLen : Nat}
    (small : plaintextLen ≤ maxChunkPlaintextLen) {given : Bytes}
    (long : given.length = ciphertextLen plaintextLen) {f : FrameRef}
    (member : f ∈ frameLayout plaintextLen) {opened : Bytes}
    (opens : openFrame A chunkId given f = .ok opened) :
    f ∈ frameLayout plaintext.length ∧ opened = framePlaintext plaintext f ∧
      frameCiphertext given f = frameCiphertext ciphertext f ∧
      frameTag given f = frameTag ciphertext f := by
  rw [openFrame_of_mem member small, ideal] at opens
  obtain ⟨⟨⟨otherId, other⟩, inChunks, call⟩, sealedHere⟩ := opens
  obtain ⟨g, inLayout, same⟩ := List.mem_map.mp call
  simp only [SealCall.mk.injEq] at same
  obtain ⟨sameNonce, sameAad, rfl⟩ := same
  -- the associated data names the chunk, the nonce the frame
  obtain rfl := Subtype.ext sameAad
  obtain rfl := (once other).mp inChunks
  have sameIndex : g.index = f.index :=
    nonceOf_inj (index_lt inLayout sealed.small) (index_lt member small) sameNonce
  have width : f.plaintextLen = g.plaintextLen := by
    have given_inside := (frame_inside member).2
    have inside := (frame_inside inLayout).1
    have wide : (frameCiphertext given f).length = f.plaintextLen :=
      (length_slice (by omega)).trans (Nat.add_sub_cancel_left _ _)
    have wide' : (framePlaintext other g).length = g.plaintextLen :=
      (length_slice inside).trans (Nat.add_sub_cancel_left _ _)
    rw [← wide, (lawful.sealed_length sealedHere).1, wide']
  have sameFrame : f = g := by
    obtain ⟨index, -, rfl⟩ := mem_frameLayout.mp member
    obtain ⟨index', -, rfl⟩ := mem_frameLayout.mp inLayout
    obtain rfl : index' = index := sameIndex
    simp only [frameAt, FrameRef.mk.injEq] at width ⊢
    exact ⟨trivial, trivial, width, trivial⟩
  subst sameFrame
  have honest := sealed.frame inLayout
  rw [sealedHere] at honest
  simp only [Except.ok.injEq, Prod.mk.injEq] at honest
  exact ⟨inLayout, rfl, honest.1, honest.2⟩

/-- A frame of the sealed chunk opens. -/
theorem openFrame_of_sealed (ideal : A.Ideal chunks)
    (once : ∀ other, (chunkId, other) ∈ chunks ↔ other = plaintext)
    (sealed : SealedAs A chunkId plaintext ciphertext) {f : FrameRef}
    (member : f ∈ frameLayout plaintext.length) :
    openFrame A chunkId ciphertext f = .ok (framePlaintext plaintext f) := by
  rw [openFrame_of_mem member sealed.small, ideal]
  refine ⟨⟨(chunkId, plaintext), (once plaintext).mpr rfl, ?_⟩, sealed.frame member⟩
  exact List.mem_map.mpr ⟨f, member, rfl⟩

theorem slice_of_take {data : Bytes} {count start stop : Nat} (inside : stop ≤ count) :
    slice (data.take count) start stop = slice data start stop := by
  rw [slice, slice, List.take_take, Nat.min_eq_left inside]

/-- A cut chunk has the frames of the whole one, up to the cut. -/
theorem openFrame_cut {plaintextLen : Nat} {f : FrameRef} (member : f ∈ frameLayout plaintextLen) :
    openFrame A chunkId (ciphertext.take (ciphertextLen plaintextLen)) f =
      openFrame A chunkId ciphertext f := by
  have inside := (frame_inside member).2
  unfold openFrame frameCiphertext frameTag
  rw [slice_of_take (by omega), slice_of_take (by omega)]

theorem decryptChunk_of_frames (lawful : A.Lawful) {plaintextLen : Nat} {given : Bytes}
    (small : plaintextLen ≤ maxChunkPlaintextLen)
    (long : given.length = ciphertextLen plaintextLen)
    (opens : ∀ f ∈ frameLayout plaintextLen,
      openFrame A chunkId given f = .ok (framePlaintext plaintext f)) :
    decryptChunk A chunkId plaintextLen given = .ok (plaintext.take plaintextLen) := by
  rw [decryptChunk_eq lawful, require_of small, require_of long, ok_bind, ok_bind,
    mapM_eq_map opens]
  show Except.ok ((frameLayout plaintextLen).map (framePlaintext plaintext)).flatten = _
  rw [← List.flatMap_def, frameLayout,
    flatMap_framePlaintext plaintext plaintextLen 0 0 0 (Nat.zero_le _)]
  rfl

/-- **What `decrypt_chunk` accepts.**  The sealed chunk, or its frames up to the end of
a full one, under the length that belongs to them. -/
theorem decryptChunk_eq_ok_iff (lawful : A.Lawful) (ideal : A.Ideal chunks)
    (once : ∀ other, (chunkId, other) ∈ chunks ↔ other = plaintext)
    (sealed : encryptChunk A chunkId plaintext = .ok ciphertext) (plaintextLen : Nat)
    (given opened : Bytes) :
    decryptChunk A chunkId plaintextLen given = .ok opened ↔
      CutAt plaintextLen plaintext.length ∧
        given = ciphertext.take (ciphertextLen plaintextLen) ∧
        opened = plaintext.take plaintextLen := by
  have honest := sealedAs_of_encryptChunk lawful sealed
  constructor
  · intro opens
    have checked := opens
    rw [decryptChunk_eq lawful] at checked
    simp only [bind_eq_ok, require_eq_ok, exists_const, pure_eq_ok_iff] at checked
    obtain ⟨small, long, parts, run, -⟩ := checked
    have each (f : FrameRef) (member : f ∈ frameLayout plaintextLen) :
        openFrame A chunkId given f = .ok (framePlaintext plaintext f) ∧
          f ∈ frameLayout plaintext.length ∧
          frameCiphertext given f ++ frameTag given f =
            frameCiphertext ciphertext f ++ frameTag ciphertext f := by
      obtain ⟨part, opensHere⟩ := exists_of_mapM run f member
      obtain ⟨inLayout, rfl, sameCiphertext, sameTag⟩ :=
        openFrame_sealed lawful ideal once honest small long member opensHere
      exact ⟨opensHere, inLayout, by rw [sameCiphertext, sameTag]⟩
    have cut := cutAt_iff.mpr fun f member => (each f member).2.1
    refine ⟨cut, ?_, ?_⟩
    · -- the given bytes are the concatenation of their frames
      have same : (frameLayout plaintextLen).flatMap
            (fun f => frameCiphertext given f ++ frameTag given f) =
          (frameLayout plaintextLen).flatMap
            (fun f => frameCiphertext ciphertext f ++ frameTag ciphertext f) := by
        rw [List.flatMap_def, List.flatMap_def, List.map_congr_left fun f m => (each f m).2.2]
      rw [frameLayout, flatMap_frameCiphertext given, flatMap_frameCiphertext ciphertext,
        Nat.sub_zero, Nat.zero_add, ← long] at same
      exact (slice_all given).symm.trans (long ▸ same)
    · have returned := decryptChunk_of_frames lawful small long fun f member => (each f member).1
      rw [returned] at opens
      cases opens
      rfl
  · rintro ⟨cut, rfl, rfl⟩
    have small := cut.le.trans honest.small
    refine decryptChunk_of_frames lawful small ?_ fun f member => ?_
    · rw [List.length_take, honest.length, Nat.min_eq_left (ciphertextLen_mono cut.le)]
    · rw [openFrame_cut member]
      exact openFrame_of_sealed ideal once honest (cutAt_iff.mp cut f member)

/-! ## Random-access reads -/

theorem slice_eq_nil {data : Bytes} {start stop : Nat} (empty : stop ≤ start) :
    slice data start stop = [] := by
  rw [slice, List.drop_of_length_le]
  rw [List.length_take]
  omega

theorem slice_slice (data : Bytes) (start stop offset last : Nat) :
    slice (slice data offset last) (start - offset) (stop - offset) =
      slice data (max start offset) (min (max offset stop) last) := by
  have outer : offset + (stop - offset) = max offset stop := by omega
  have inner : offset + (start - offset) = max start offset := by omega
  rw [slice, slice, slice, List.take_drop, List.take_take, List.drop_drop, outer, inner]

/-- A frame's part of a range, and the range behind the frame. -/
theorem range_step (data : Bytes) {start stop offset last : Nat} (forwards : offset ≤ last) :
    slice (slice data offset last) (start - offset) (stop - offset) ++
        slice data (max start last) stop =
      slice data (max start offset) stop := by
  rw [slice_slice]
  rcases Nat.le_total stop last with ends | goesOn
  · rw [@slice_eq_nil data (max start last) stop (by omega), List.append_nil]
    rcases Nat.le_total offset stop with inside | before
    · rw [Nat.max_eq_right inside, Nat.min_eq_left ends]
    · rw [slice_eq_nil (by omega), slice_eq_nil (by omega)]
  · rw [Nat.min_eq_right (by omega)]
    rcases Nat.le_total start last with inside | before
    · rw [Nat.max_eq_right inside]
      exact slice_append_slice data (by omega) goesOn
    · rw [slice_eq_nil (by omega), List.nil_append, Nat.max_eq_left before,
        Nat.max_eq_left (by omega)]

/-- The parts of a range that the frames hold. -/
theorem flatMap_range (plaintext : Bytes) (start stop : Nat)
    (plaintextLen offset ctOffset index : Nat) (sized : plaintext.length = plaintextLen)
    (inside : offset ≤ plaintextLen) :
    (frameLoop plaintextLen offset ctOffset index).flatMap (fun f =>
        slice (framePlaintext plaintext f) (start - f.plaintextOffset)
          (stop - f.plaintextOffset)) =
      slice plaintext (max start offset) stop := by
  induction offset, ctOffset, index using frameLoop.induct plaintextLen with
  | case1 offset ctOffset index more here ih =>
    rw [frameLoop_of_lt more, List.flatMap_cons, ih (by omega)]
    exact range_step plaintext (Nat.le_add_right _ _)
  | case2 offset ctOffset index done =>
    rw [frameLoop_of_le (by omega), List.flatMap_nil, slice, List.drop_of_length_le]
    rw [List.length_take]
    omega

theorem flatMap_coveringFrames (plaintextLen start stop : Nat) (plaintext : Bytes) :
    (coveringFrames plaintextLen start stop).flatMap (fun f =>
        slice (framePlaintext plaintext f) (start - f.plaintextOffset)
          (stop - f.plaintextOffset)) =
      (frameLayout plaintextLen).flatMap (fun f =>
        slice (framePlaintext plaintext f) (start - f.plaintextOffset)
          (stop - f.plaintextOffset)) := by
  unfold coveringFrames
  induction frameLayout plaintextLen with
  | nil => rfl
  | cons f frames ih =>
    by_cases covers : f.plaintextOffset < stop ∧ start < f.plaintextOffset + f.plaintextLen
    · rw [List.filter_cons_of_pos (by simpa using covers), List.flatMap_cons, List.flatMap_cons,
        ih]
    · have apart : slice (framePlaintext plaintext f) (start - f.plaintextOffset)
          (stop - f.plaintextOffset) = [] := by
        rw [framePlaintext, slice_slice]
        exact slice_eq_nil (by omega)
      rw [List.filter_cons_of_neg (by simpa using covers), List.flatMap_cons, ih, apart,
        List.nil_append]

/-- A read opens the covering frames only, and returns the range. -/
theorem readRange_eq (lawful : A.Lawful) (ideal : A.Ideal chunks)
    (once : ∀ other, (chunkId, other) ∈ chunks ↔ other = plaintext)
    (sealed : encryptChunk A chunkId plaintext = .ok ciphertext) (start stop : Nat) :
    readRange A chunkId plaintext.length ciphertext start stop =
      .ok (slice plaintext start stop) := by
  have honest := sealedAs_of_encryptChunk lawful sealed
  have each (f : FrameRef) (member : f ∈ coveringFrames plaintext.length start stop) :
      (openFrame A chunkId ciphertext f >>= fun opened =>
        pure (slice opened (start - f.plaintextOffset) (stop - f.plaintextOffset))) =
      .ok (slice (framePlaintext plaintext f) (start - f.plaintextOffset)
        (stop - f.plaintextOffset)) := by
    rw [openFrame_of_sealed ideal once honest (List.mem_filter.mp member).1]
    rfl
  unfold readRange
  rw [mapM_eq_map each]
  show Except.ok (List.flatten _) = _
  rw [← List.flatMap_def, flatMap_coveringFrames, frameLayout,
    flatMap_range plaintext start stop plaintext.length 0 0 0 rfl (Nat.zero_le _),
    Nat.max_eq_left (Nat.zero_le start)]

/-- **Chunk encryption binds the chunk up to a cut behind a full frame.**  What
`decrypt_chunk` returns is a prefix of the sealed plaintext of the length it was told; the
whole of it for the honest ciphertext and length; and a read of any range opens the
covering frames only. -/
theorem chunk_bound_up_to_cut (lawful : A.Lawful) (ideal : A.Ideal chunks)
    (once : ∀ other, (chunkId, other) ∈ chunks ↔ other = plaintext)
    (sealed : encryptChunk A chunkId plaintext = .ok ciphertext) :
    (∀ plaintextLen given opened,
      decryptChunk A chunkId plaintextLen given = .ok opened ↔
        CutAt plaintextLen plaintext.length ∧
          given = ciphertext.take (ciphertextLen plaintextLen) ∧
          opened = plaintext.take plaintextLen) ∧
      decryptChunk A chunkId plaintext.length ciphertext = .ok plaintext ∧
      ∀ start stop, readRange A chunkId plaintext.length ciphertext start stop =
        .ok (slice plaintext start stop) := by
  have accepts := decryptChunk_eq_ok_iff lawful ideal once sealed
  refine ⟨accepts, ?_, readRange_eq lawful ideal once sealed⟩
  refine (accepts _ _ _).mpr ⟨.inl rfl, ?_, ?_⟩
  · rw [← (sealedAs_of_encryptChunk lawful sealed).length, List.take_length]
  · rw [List.take_length]

end Ideal

/-! ## A chunk that is cut -/

/-- An ideal cipher that hides nothing: it knows what has been sealed. -/
def openCipher (chunks : List (ChunkId × Bytes)) : Cipher where
  encryptInPlace _ _ plaintext := .ok (plaintext, List.replicate tagLen 0)
  decryptInPlace nonce aad ciphertext tag :=
    if (⟨nonce, aad, ciphertext⟩ : SealCall) ∈ chunks.flatMap sealCalls ∧
        tag = List.replicate tagLen 0 then .ok ciphertext
    else .error .authentication

theorem openCipher_lawful (chunks : List (ChunkId × Bytes)) : (openCipher chunks).Lawful where
  sealed_length sealed := by
    cases sealed
    exact ⟨rfl, rfl⟩
  opened_length opened := by
    simp only [openCipher] at opened
    split at opened
    · cases opened
      rfl
    · cases opened

theorem openCipher_ideal (chunks : List (ChunkId × Bytes)) : (openCipher chunks).Ideal chunks := by
  intro nonce aad ciphertext tag plaintext
  unfold openCipher
  simp only [List.mem_flatMap, Except.ok.injEq, Prod.mk.injEq]
  split
  · rename_i known
    simp only [Except.ok.injEq]
    constructor
    · rintro rfl
      exact ⟨known.1, rfl, known.2.symm⟩
    · rintro ⟨-, rfl, -⟩
      rfl
  · rename_i unknown
    simp only [reduceCtorEq, false_iff]
    rintro ⟨known, rfl, rfl⟩
    exact unknown ⟨known, rfl⟩

theorem openCipher_seals (chunks : List (ChunkId × Bytes)) {chunkId : ChunkId} {plaintext : Bytes}
    (small : plaintext.length ≤ maxChunkPlaintextLen) :
    ∃ ciphertext, encryptChunk (openCipher chunks) chunkId plaintext = .ok ciphertext := by
  have each (f : FrameRef) (member : f ∈ frameLayout plaintext.length) :
      sealFrame (openCipher chunks) chunkId plaintext f =
        .ok (framePlaintext plaintext f ++ List.replicate tagLen 0) := by
    rw [sealFrame_eq (plaintextLen_le member), frameNonce_of_lt (index_lt member small)]
    rfl
  rw [encryptChunk_eq, require_of small, ok_bind, mapM_eq_map each]
  exact ⟨_, rfl⟩

def zeroId : ChunkId := filled 32 0

/-- Two frames, the second of one byte. -/
def twoFrames : Bytes := List.replicate (frameLen + 1) 0

theorem twoFrames_length : twoFrames.length = frameLen + 1 := List.length_replicate

theorem twoFrames_once (other : Bytes) :
    (zeroId, other) ∈ [(zeroId, twoFrames)] ↔ other = twoFrames := by simp

theorem chunk_bound_two_frames :
    ∃ ciphertext, encryptChunk (openCipher [(zeroId, twoFrames)]) zeroId twoFrames =
        .ok ciphertext ∧
      decryptChunk (openCipher [(zeroId, twoFrames)]) zeroId twoFrames.length ciphertext =
        .ok twoFrames := by
  have small : twoFrames.length ≤ maxChunkPlaintextLen := by
    rw [twoFrames_length]
    decide
  obtain ⟨ciphertext, sealed⟩ := @openCipher_seals [(zeroId, twoFrames)] zeroId twoFrames small
  exact ⟨ciphertext, sealed, (chunk_bound_up_to_cut (openCipher_lawful _) (openCipher_ideal _)
    twoFrames_once sealed).2.1⟩

/-- The first of the two frames alone passes for a chunk. -/
theorem cut_accepted :
    (openCipher [(zeroId, twoFrames)]).Lawful ∧
      (openCipher [(zeroId, twoFrames)]).Ideal [(zeroId, twoFrames)] ∧
      ∃ ciphertext, encryptChunk (openCipher [(zeroId, twoFrames)]) zeroId twoFrames =
          .ok ciphertext ∧
        ∃ opened, decryptChunk (openCipher [(zeroId, twoFrames)]) zeroId frameLen
            (ciphertext.take (frameLen + tagLen)) = .ok opened ∧ opened ≠ twoFrames := by
  have small : twoFrames.length ≤ maxChunkPlaintextLen := by
    rw [twoFrames_length]
    decide
  obtain ⟨ciphertext, sealed⟩ := @openCipher_seals [(zeroId, twoFrames)] zeroId twoFrames small
  refine ⟨openCipher_lawful _, openCipher_ideal _, ciphertext, sealed,
    twoFrames.take frameLen, ?_, ?_⟩
  · refine (decryptChunk_eq_ok_iff (openCipher_lawful _) (openCipher_ideal _) twoFrames_once sealed
      frameLen _ _).mpr ⟨.inr ⟨dvd_rfl, ?_⟩, rfl, rfl⟩
    rw [twoFrames_length]
    exact Nat.le_succ _
  · intro same
    have lengths := congrArg List.length same
    rw [List.length_take, twoFrames_length] at lengths
    omega

end OneLink.Aead
