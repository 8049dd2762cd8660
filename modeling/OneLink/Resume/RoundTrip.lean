/-
# Resume.RoundTrip — what `to_json` writes is read back

A record is restored from its own text exactly when its values survive JSON, it fits the
size limit, and the validator accepts it (`restores_iff`).  Two families of records are
measured against that: the ones `from_json` accepted, which miss at most the size limit,
and the ones a transfer makes from the index of its file.
-/
import OneLink.Cdc.Agreement
import OneLink.Library.PyJsonRoundTrip
import OneLink.Resume.Sidecar

namespace OneLink.Resume

open Library Library.PyJson

set_option autoImplicit false

variable {F : Type} {fl : Floats F} {H : Cdc.Blake3}

/-- The text of a BLAKE3 digest. -/
def IsDigest (s : PyStr) : Prop := s.length = 64 ∧ ∀ point ∈ s, isLowerHex point = true

def HexDigests (H : Cdc.Blake3) : Prop := ∀ data, IsDigest (pyStr (H.hexdigest data))

/-! ## `from_json` in one statement -/

theorem fromJson_eq_ok {now : Int × Int} {text : Text} {sc : ResumeSidecar F} :
    fromJson fl H now text = .ok sc ↔
      (utf8Encode text).length ≤ maxSidecarBytes ∧ ∃ members,
        loads fl text = some (.dict members) ∧
        (OrderedDict.lookup (pyStr "schema_version") members).all (equalsInt fl 1) = true ∧
        construct now members = .ok sc ∧ validateUntrustedFields fl sc = .ok () ∧
        digestMatches fl H members sc.digest = true := by
  unfold fromJson
  simp only [bind_eq_ok, require_eq_ok, exists_const]
  apply and_congr_right
  intro _
  split
  · next members found =>
      simp only [bind_eq_ok, require_eq_ok, exists_const, pure_eq_ok_iff]
      constructor
      · rintro ⟨schema, sc, built, _, valid, tagged, rfl⟩
        exact ⟨members, found, schema, built, valid, tagged⟩
      · rintro ⟨members', found', schema, built, valid, tagged⟩
        obtain rfl : members = members' := by
          rw [found] at found'
          cases found'
          rfl
        exact ⟨schema, sc, built, (), valid, tagged, rfl⟩
  · next other notDict found =>
      constructor
      · intro refused
        cases refused
      · rintro ⟨members, found', -⟩
        rw [found] at found'
        exact absurd (Option.some.inj found') (notDict members)
  · next found =>
      constructor
      · intro refused
        cases refused
      · rintro ⟨members, found', -⟩
        rw [found] at found'
        cases found'

theorem construct_asdict (now : Int × Int) (sc : ResumeSidecar F) :
    construct now (asdict sc) = .ok sc := rfl

/-! ## Values that survive JSON -/

theorem wellFormed_of_small {s : PyStr} (small : ∀ point ∈ s, point < 0xd800) : WellFormed s := by
  refine ⟨fun point mem => (small point mem).trans (by decide), ?_⟩
  apply List.Pairwise.isChain
  apply List.pairwise_of_forall_mem_list
  intro a mem b _ pair
  have high := pair.1
  have bound := small a mem
  simp only [isHigh, Bool.and_eq_true, decide_eq_true_eq] at high
  omega

theorem isLowerHex_iff {point : Nat} :
    isLowerHex point = true ↔ (48 ≤ point ∧ point ≤ 57) ∨ (97 ≤ point ∧ point ≤ 102) := by
  simp [isLowerHex]

theorem isHex_str {n : Nat} {s : PyStr} :
    isHex (F := F) n (.str s) = true ↔ s.length = n ∧ ∀ point ∈ s, isLowerHex point = true := by
  simp [isHex]

theorem isText_str {least most : Nat} {s : PyStr} :
    isText (F := F) least most (.str s) = true ↔ least ≤ s.length ∧ s.length ≤ most := by
  simp [isText]

theorem hasNul_str {s : PyStr} : hasNul (F := F) (.str s) = true ↔ 0 ∈ s := by
  simp [hasNul]

theorem isCount_none (n : Nat) : isCount (F := F) none (.int n) = true := by
  simp [isCount]

theorem isCount_some {bound n : Nat} :
    isCount (F := F) (some bound) (.int n) = true ↔ n ≤ bound := by
  simp [isCount]

theorem truthy_str {s : PyStr} : truthy fl (.str s) = true ↔ s ≠ [] := by
  simp [truthy]

theorem wellFormed_hex {s : PyStr} (hex : ∀ point ∈ s, isLowerHex point = true) :
    WellFormed s := by
  apply wellFormed_of_small
  intro point mem
  have range := isLowerHex_iff.mp (hex point mem)
  omega

theorem good_asdict_iff {sc : ResumeSidecar F} :
    Good (.dict (asdict sc)) ↔ ∀ member ∈ asdict sc, Good member.2 := by
  have distinct : ((asdict sc).map Prod.fst).Nodup := by
    simp only [asdict, List.map_cons, List.map_nil]
    decide
  have keys : ∀ member ∈ asdict sc, WellFormed member.1 := by
    have small : ∀ key ∈ (asdict sc).map Prod.fst, ∀ point ∈ key, point < 0xd800 := by
      simp only [asdict, List.map_cons, List.map_nil]
      decide
    exact fun member mem => wellFormed_of_small (small _ (List.mem_map_of_mem mem))
  rw [Good, goodMembers_iff]
  constructor
  · exact fun good member mem => (good.2 member mem).2
  · exact fun good => ⟨distinct, fun member mem => ⟨keys member mem, good member mem⟩⟩

theorem lookup_good {members : List (PyStr × Value F)} (good : Good (.dict members))
    {key : PyStr} {value : Value F} (found : OrderedDict.lookup key members = some value) :
    Good value := by
  rw [Good, goodMembers_iff] at good
  exact (good.2 _ ((OrderedDict.lookup_eq_some_iff good.1).mp found)).2

theorem getD_lookup_good {members : List (PyStr × Value F)} (good : Good (.dict members))
    (key : PyStr) {default : Value F} (goodDefault : Good default) :
    Good ((OrderedDict.lookup key members).getD default) := by
  cases found : OrderedDict.lookup key members with
  | none => exact goodDefault
  | some value => exact lookup_good good found

theorem required_good {members : List (PyStr × Value F)} (good : Good (.dict members))
    (key : String) (value : Value F)
    (found : (match OrderedDict.lookup (pyStr key) members with
      | some value => (.ok value : Except ResumeError (Value F))
      | none => .error (.missingField key)) = .ok value) : Good value := by
  cases present : OrderedDict.lookup (pyStr key) members with
  | none =>
    rw [present] at found
    cases found
  | some other =>
    rw [present] at found
    cases found
    exact lookup_good good present

/-- `cls(**filtered)` adds nothing that JSON would change. -/
theorem construct_good {now : Int × Int} {members : List (PyStr × Value F)} {sc : ResumeSidecar F}
    (good : Good (.dict members)) (built : construct now members = .ok sc) :
    Good (.dict (asdict sc)) := by
  have required := required_good good
  have text (s : PyStr) (small : ∀ point ∈ s, point < 0xd800) : Good (F := F) (.str s) := by
    rw [Good]
    exact wellFormed_of_small small
  simp only [construct, bind_eq_ok, pure_eq_ok_iff] at built
  obtain ⟨blobHex, foundBlob, peerFp, foundPeer, name, foundName, size, foundSize, outPath,
    foundPath, cdcChunks, foundChunks, rfl⟩ := built
  rw [good_asdict_iff]
  simp only [asdict, List.forall_mem_cons]
  refine ⟨required _ _ foundBlob, required _ _ foundPeer, required _ _ foundName,
    required _ _ foundSize, required _ _ foundPath, required _ _ foundChunks,
    getD_lookup_good good _ ?_, getD_lookup_good good _ ?_, getD_lookup_good good _ ?_,
    getD_lookup_good good _ ?_, getD_lookup_good good _ (text _ (by decide)),
    getD_lookup_good good _ (text _ (by decide)), getD_lookup_good good _ (text _ (by decide)),
    getD_lookup_good good _ (text _ (by decide)), getD_lookup_good good _ (text _ (by decide)),
    getD_lookup_good good _ (text _ (by decide)), by simp⟩
  all_goals simp only [Good]

/-! ## Restoring a record -/

/-- The text of the record is accepted, and read as the record `to_json` left behind. -/
def Restores (fl : Floats F) (H : Cdc.Blake3) (sc : ResumeSidecar F) : Prop :=
  ∀ now, fromJson fl H now (toJson fl H sc) = .ok (stamped fl H sc)

theorem withoutDigest_stamped (sc : ResumeSidecar F) :
    withoutDigest (asdict (stamped fl H sc)) = withoutDigest (asdict sc) := rfl

theorem digestMatches_stamped (sc : ResumeSidecar F) :
    digestMatches fl H (asdict (stamped fl H sc)) (stamped fl H sc).digest = true := by
  have same : signingDigest fl H (asdict (stamped fl H sc)) = signingDigest fl H (asdict sc) := by
    rw [signingDigest, withoutDigest_stamped]
    rfl
  rw [show (stamped fl H sc).digest = .str (signingDigest fl H (asdict sc)) from rfl,
    digestMatches, same]
  simp

theorem restores_iff (lawful : fl.Lawful) (sc : ResumeSidecar F) :
    Restores fl H sc ↔ Good (.dict (asdict (stamped fl H sc))) ∧
      jsonBytes fl (.dict (asdict (stamped fl H sc))) ≤ maxSidecarBytes ∧
      equalsInt fl 1 sc.schemaVersion = true ∧
      validateUntrustedFields fl (stamped fl H sc) = .ok () := by
  have schema : OrderedDict.lookup (pyStr "schema_version") (asdict (stamped fl H sc)) =
      some sc.schemaVersion := rfl
  constructor
  · intro restores
    obtain ⟨fits, members, read, supported, built, valid, -⟩ :=
      fromJson_eq_ok.mp (restores (0, 0))
    have good := construct_good (loads_good read) built
    rw [toJson, loads_dumps lawful good] at read
    cases read
    rw [toJson, length_dumps] at fits
    rw [schema] at supported
    exact ⟨good, fits, supported, valid⟩
  · rintro ⟨good, fits, supported, valid⟩ now
    refine fromJson_eq_ok.mpr ⟨?_, asdict (stamped fl H sc), loads_dumps lawful good, ?_,
      construct_asdict now _, valid, digestMatches_stamped sc⟩
    · rwa [toJson, length_dumps]
    · rwa [schema]

/-! ## Records that were accepted -/

/-- The size of the record's text, which does not depend on the tag. -/
def textBytes (fl : Floats F) (sc : ResumeSidecar F) : Nat :=
  jsonBytes fl (.dict (asdict { sc with digest := .str (List.replicate 64 48) }))

theorem strBytes_hex {s : PyStr} (hex : ∀ point ∈ s, isLowerHex point = true) :
    strBytes s = s.length + 2 := by
  have one : s.map pointBytes = List.replicate s.length 1 := by
    rw [List.eq_replicate_iff, List.length_map]
    refine ⟨rfl, fun bytes mem => ?_⟩
    obtain ⟨point, inside, rfl⟩ := List.mem_map.mp mem
    have range := isLowerHex_iff.mp (hex point inside)
    rw [pointBytes, if_neg (by omega), if_pos (by omega)]
  rw [strBytes, one, List.sum_replicate_nat, Nat.mul_one]

theorem signingDigest_isDigest (hex : HexDigests H) (members : List (PyStr × Value F)) :
    IsDigest (signingDigest fl H members) := hex _

theorem jsonBytes_stamped (hex : HexDigests H) (sc : ResumeSidecar F) :
    jsonBytes fl (.dict (asdict (stamped fl H sc))) = textBytes fl sc := by
  have tag : jsonBytes fl (stamped fl H sc).digest =
      jsonBytes fl (.str (List.replicate 64 48)) := by
    obtain ⟨length, digits⟩ := (signingDigest_isDigest hex (asdict sc) : IsDigest (signingDigest fl H (asdict sc)))
    rw [stamped, jsonBytes, jsonBytes, strBytes_hex digits, length]
    decide
  simp only [textBytes, asdict, jsonBytes, membersBytes, tag]
  rfl

theorem validateUntrustedFields_eq_ok {sc : ResumeSidecar F} :
    validateUntrustedFields fl sc = .ok () ↔
      validateFields fl sc = .ok () ∧ validateDigest sc.digest = .ok () ∧
        validateManifest sc = .ok () := by
  simp only [validateUntrustedFields, bind_eq_ok]
  constructor
  · rintro ⟨_, fields, _, tag, manifest⟩
    exact ⟨fields, tag, manifest⟩
  · rintro ⟨fields, tag, manifest⟩
    exact ⟨(), fields, (), tag, manifest⟩

/-- The tag that `to_json` puts there is valid, and no other check reads it. -/
theorem validateUntrustedFields_stamped (hex : HexDigests H) (sc : ResumeSidecar F) :
    validateUntrustedFields fl (stamped fl H sc) = .ok () ↔
      validateFields fl sc = .ok () ∧ validateManifest sc = .ok () := by
  have tag : validateDigest (stamped fl H sc).digest = .ok () := by
    rw [stamped, validateDigest, require_eq_ok, isHex_str]
    exact .inr (signingDigest_isDigest hex _)
  rw [validateUntrustedFields_eq_ok]
  exact ⟨fun ⟨fields, _, manifest⟩ => ⟨fields, manifest⟩,
    fun ⟨fields, manifest⟩ => ⟨fields, tag, manifest⟩⟩

theorem good_stamped (hex : HexDigests H) {sc : ResumeSidecar F} (good : Good (.dict (asdict sc))) :
    Good (.dict (asdict (stamped fl H sc))) := by
  rw [good_asdict_iff] at good ⊢
  have tag : Good (stamped fl H sc).digest := by
    rw [stamped, Good]
    exact wellFormed_hex (signingDigest_isDigest hex _).2
  simp only [asdict, List.forall_mem_cons] at good ⊢
  obtain ⟨blob, peer, name, size, path, chunks, created, updated, schema, accepted, delivery,
    deliveryName, relPath, kind, final, -, none⟩ := good
  exact ⟨blob, peer, name, size, path, chunks, created, updated, schema, accepted, delivery,
    deliveryName, relPath, kind, final, tag, none⟩

theorem schema_of_construct {now : Int × Int} {members : List (PyStr × Value F)}
    {sc : ResumeSidecar F} (built : construct now members = .ok sc)
    (supported : (OrderedDict.lookup (pyStr "schema_version") members).all (equalsInt fl 1) = true) :
    equalsInt fl 1 sc.schemaVersion = true := by
  simp only [construct, bind_eq_ok, pure_eq_ok_iff] at built
  obtain ⟨_, -, _, -, _, -, _, -, _, -, _, -, rfl⟩ := built
  dsimp only
  cases found : OrderedDict.lookup (pyStr "schema_version") members with
  | none => rfl
  | some value => simpa [found] using supported

theorem accepted_restores_iff (lawful : fl.Lawful) (hex : HexDigests H) {now : Int × Int}
    {text : Text} {sc : ResumeSidecar F} (accepted : fromJson fl H now text = .ok sc) :
    Restores fl H sc ↔ textBytes fl sc ≤ maxSidecarBytes := by
  obtain ⟨-, members, read, supported, built, valid, -⟩ := fromJson_eq_ok.mp accepted
  obtain ⟨fields, -, manifest⟩ := validateUntrustedFields_eq_ok.mp valid
  rw [restores_iff lawful, jsonBytes_stamped hex]
  constructor
  · exact fun restores => restores.2.1
  · exact fun fits => ⟨good_stamped hex (construct_good (loads_good read) built), fits,
      schema_of_construct built supported,
      (validateUntrustedFields_stamped hex sc).mpr ⟨fields, manifest⟩⟩

/-! ## Records of a transfer -/

inductive DeliveryKind where
  | file
  | folderArchive
  deriving DecidableEq, Repr

def DeliveryKind.text : DeliveryKind → PyStr
  | file => pyStr "file"
  | folderArchive => pyStr "folder_archive"

/-- What the daemon puts into the record beside the index; the stamps are clock readings. -/
structure Offer where
  peerFp : PyStr
  name : PyStr
  outPath : PyStr
  createdMs : UInt64
  updatedMs : UInt64
  acceptanceGranted : Bool
  deliveryId : PyStr
  deliveryName : PyStr
  deliveryRelPath : PyStr
  deliveryKind : DeliveryKind
  finalPath : PyStr

/-- The manifest entry of a chunk, in the order of `_cdc_chunks_from_offer`. -/
def chunkEntry (chunk : Cdc.Chunk) : Value F :=
  .dict [(pyStr "index", .int chunk.index), (pyStr "start", .int chunk.start),
    (pyStr "end", .int chunk.stop), (pyStr "size", .int chunk.size),
    (pyStr "hash", .str (pyStr chunk.hash))]

def Offer.sidecar (offer : Offer) (index : Cdc.FileIndex) : ResumeSidecar F where
  blobHex := .str (pyStr index.blobHash)
  peerFp := .str offer.peerFp
  name := .str offer.name
  size := .int index.size
  outPath := .str offer.outPath
  cdcChunks := .list (index.chunks.map chunkEntry)
  createdMs := .int offer.createdMs.toNat
  updatedMs := .int offer.updatedMs.toNat
  schemaVersion := .int 1
  acceptanceGranted := .bool offer.acceptanceGranted
  deliveryId := .str offer.deliveryId
  deliveryName := .str offer.deliveryName
  deliveryRelPath := .str offer.deliveryRelPath
  deliveryKind := .str offer.deliveryKind.text
  finalPath := .str offer.finalPath
  digest := .str []

/-- A path or a name: text without NUL that JSON keeps. -/
structure IsPath (least most : Nat) (s : PyStr) : Prop where
  long : least ≤ s.length
  short : s.length ≤ most
  noNul : 0 ∉ s
  good : WellFormed s

structure Offer.Valid (offer : Offer) : Prop where
  peerFp : 1 ≤ offer.peerFp.length ∧ offer.peerFp.length ≤ 512 ∧ WellFormed offer.peerFp
  name : IsPath 1 1024 offer.name
  outPath : IsPath 1 32768 offer.outPath
  deliveryId : offer.deliveryId = [] ∨
    offer.deliveryId.length = 32 ∧ ∀ point ∈ offer.deliveryId, isLowerHex point = true
  deliveryName : IsPath 0 1024 offer.deliveryName
  deliveryRelPath : IsPath 0 32768 offer.deliveryRelPath
  finalPath : IsPath 0 32768 offer.finalPath

theorem validateFields_eq_ok {sc : ResumeSidecar F} :
    validateFields fl sc = .ok () ↔
      isHex 64 sc.blobHex = true ∧ isText 1 512 sc.peerFp = true ∧
      isText 1 1024 sc.name = true ∧ ¬ hasNul sc.name = true ∧
      isText 1 32768 sc.outPath = true ∧ ¬ hasNul sc.outPath = true ∧
      isCount (some maxResumeFileBytes) sc.size = true ∧ isCount none sc.createdMs = true ∧
      isCount none sc.updatedMs = true ∧ isCount none sc.schemaVersion = true ∧
      isBool sc.acceptanceGranted = true ∧
      (truthy fl sc.deliveryId = true → isHex 32 sc.deliveryId = true) ∧
      (isText 0 1024 sc.deliveryName = true ∧ ¬ hasNul sc.deliveryName = true) ∧
      (isText 0 32768 sc.deliveryRelPath = true ∧ ¬ hasNul sc.deliveryRelPath = true) ∧
      (isText 0 32768 sc.finalPath = true ∧ ¬ hasNul sc.finalPath = true) ∧
      validateDeliveryKind sc.deliveryKind = .ok () := by
  simp only [validateFields, validateText, bind_eq_ok, require_eq_ok, exists_const]

theorem validateFields_sidecar {offer : Offer} {index : Cdc.FileIndex}
    (blob : IsDigest (pyStr index.blobHash)) :
    validateFields fl (offer.sidecar index) = .ok () ↔
      (1 ≤ offer.peerFp.length ∧ offer.peerFp.length ≤ 512) ∧
      (1 ≤ offer.name.length ∧ offer.name.length ≤ 1024) ∧ 0 ∉ offer.name ∧
      (1 ≤ offer.outPath.length ∧ offer.outPath.length ≤ 32768) ∧ 0 ∉ offer.outPath ∧
      index.size ≤ maxResumeFileBytes ∧
      (offer.deliveryId = [] ∨
        offer.deliveryId.length = 32 ∧ ∀ point ∈ offer.deliveryId, isLowerHex point = true) ∧
      (offer.deliveryName.length ≤ 1024 ∧ 0 ∉ offer.deliveryName) ∧
      (offer.deliveryRelPath.length ≤ 32768 ∧ 0 ∉ offer.deliveryRelPath) ∧
      (offer.finalPath.length ≤ 32768 ∧ 0 ∉ offer.finalPath) := by
  have kind : validateDeliveryKind (F := F) (.str offer.deliveryKind.text) = .ok () := by
    rw [validateDeliveryKind, require_eq_ok]
    cases offer.deliveryKind
    · exact .inl rfl
    · exact .inr rfl
  have blobId : isHex (F := F) 64 (.str (pyStr index.blobHash)) = true := isHex_str.mpr blob
  have schema : isCount (F := F) none (.int 1) = true := isCount_none 1
  rw [validateFields_eq_ok]
  simp only [Offer.sidecar, blobId, kind, schema, isText_str, hasNul_str, isCount_none,
    isCount_some, isBool, truthy_str, isHex_str, Nat.zero_le, true_and, and_true,
    or_iff_not_imp_left]

/-! ## The manifest of an index -/

theorem validateChunk_entry {chunk : Cdc.Chunk} {fileSize : Nat} (filled : chunk.start < chunk.stop)
    (inside : chunk.stop ≤ fileSize) (hash : IsDigest (pyStr chunk.hash)) :
    validateChunk (F := F) fileSize chunk.index chunk.start (chunkEntry chunk) =
      .ok (chunk.stop : Int) := by
  have hex : isHex (F := F) 64 (.str (pyStr chunk.hash)) = true := isHex_str.mpr hash
  have member (key : String) (n : Nat) (members : List (PyStr × Value F))
      (found : OrderedDict.lookup (pyStr key) members = some (.int n)) :
      intMember members key = .ok (n : Int) := by
    rw [intMember, found]
  simp only [chunkEntry, validateChunk]
  rw [member "index" chunk.index _ rfl, member "size" chunk.size _ rfl,
    member "start" chunk.start _ rfl, member "end" chunk.stop _ rfl]
  simp only [ok_bind, true_and]
  rw [require_of trivial, ok_bind, require_of (by simp only [Cdc.Chunk.size]; omega), ok_bind,
    require_of (by omega), ok_bind, require_of, ok_bind]
  · rfl
  · exact hex

/-- Nonempty pieces are an exact partition. -/
theorem validateChunks_pieces (hex : HexDigests H) {fileSize : Nat} (pieces : List Bytes)
    (index start : Nat) (filled : ∀ piece ∈ pieces, piece ≠ [])
    (inside : start + pieces.flatten.length ≤ fileSize) :
    validateChunks (F := F) fileSize index start
        ((Cdc.chunksFrom H index start pieces).map chunkEntry) =
      .ok ((start + pieces.flatten.length : Nat) : Int) := by
  induction pieces generalizing index start with
  | nil => rfl
  | cons piece rest ih =>
    rw [List.flatten_cons, List.length_append] at inside
    obtain ⟨here, later⟩ := List.forall_mem_cons.mp filled
    have positive := List.length_pos_iff.mpr here
    have first : validateChunk (F := F) fileSize index start
        (chunkEntry ⟨index, start, start + piece.length, H.hexdigest piece⟩) =
          .ok ((start + piece.length : Nat) : Int) :=
      validateChunk_entry (by dsimp only; omega) (by dsimp only; omega) (hex piece)
    rw [Cdc.chunksFrom, List.map_cons, validateChunks, first, ok_bind,
      ih (index + 1) (start + piece.length) later (by omega), List.flatten_cons,
      List.length_append, Nat.add_assoc]

/-- The pieces of a nonempty file, and the index they make. -/
theorem indexFile_pieces {data : Bytes} (nonempty : data ≠ []) {readSize : Int}
    {index : Cdc.FileIndex} (indexed : Cdc.indexFile H data data.length readSize = .ok index) :
    ∃ pieces : List Bytes, (∀ piece ∈ pieces, piece ≠ []) ∧ pieces.flatten = data ∧
      index = ⟨H.hexdigest data, data.length, Cdc.chunksFrom H 0 0 pieces⟩ := by
  have positive : 1 ≤ readSize := by
    simp only [Cdc.indexFile, bind_eq_ok, require_eq_ok, exists_const] at indexed
    omega
  rw [Cdc.indexFile_eq H positive, Cdc.finish_cutting H nonempty, Except.ok.injEq] at indexed
  refine ⟨(Cdc.cutting H data).all, fun piece mem => ?_, Cdc.flatten_all H data, indexed.symm⟩
  obtain ⟨early, late, split⟩ := List.append_of_mem mem
  exact List.length_pos_iff.mp ((Cdc.cutting_within H data).all split).1

theorem mem_chunksFrom_bounds {pieces : List Bytes} {index start : Nat} {chunk : Cdc.Chunk}
    (mem : chunk ∈ Cdc.chunksFrom H index start pieces) :
    chunk.index < index + pieces.length ∧ chunk.start ≤ start + pieces.flatten.length ∧
      chunk.stop ≤ start + pieces.flatten.length ∧
      ∃ piece, chunk.hash = H.hexdigest piece := by
  induction pieces generalizing index start with
  | nil => cases mem
  | cons piece rest ih =>
    rw [List.flatten_cons, List.length_append, List.length_cons]
    obtain rfl | later := List.mem_cons.mp mem
    · refine ⟨?_, ?_, ?_, piece, rfl⟩
      · dsimp only; omega
      · dsimp only; omega
      · dsimp only; omega
    · obtain ⟨number, start, stop, hashed⟩ := ih later
      exact ⟨by omega, by omega, by omega, hashed⟩

/-- The numbers of a chunk have at most 14 digits, as the size limit has. -/
theorem jsonBytes_chunkEntry_le {chunk : Cdc.Chunk} (hash : IsDigest (pyStr chunk.hash))
    (number : chunk.index < 10 ^ 14) (start : chunk.start < 10 ^ 14)
    (stop : chunk.stop < 10 ^ 14) : jsonBytes fl (chunkEntry chunk) ≤ 170 := by
  have size : chunk.size < 10 ^ 14 := lt_of_le_of_lt (Nat.sub_le _ _) stop
  have first := intBytes_le (by decide) number
  have second := intBytes_le (by decide) start
  have third := intBytes_le (by decide) stop
  have fourth := intBytes_le (by decide) size
  have keys : strBytes (pyStr "index") = 7 ∧ strBytes (pyStr "start") = 7 ∧
      strBytes (pyStr "end") = 5 ∧ strBytes (pyStr "size") = 6 ∧ strBytes (pyStr "hash") = 6 := by
    decide
  simp only [chunkEntry, jsonBytes, membersBytes, keys, strBytes_hex hash.2, hash.1]
  omega

theorem good_chunkEntry {chunk : Cdc.Chunk} (hash : IsDigest (pyStr chunk.hash)) :
    Good (chunkEntry (F := F) chunk) := by
  have key (name : String) (small : ∀ point ∈ pyStr name, point < 0xd800) :
      WellFormed (pyStr name) := wellFormed_of_small small
  simp only [chunkEntry, Good, GoodMembers, List.map_cons, List.map_nil, true_and, and_true]
  exact ⟨by decide, key "index" (by decide), key "start" (by decide), key "end" (by decide),
    key "size" (by decide), key "hash" (by decide), wellFormed_hex hash.2⟩

/-- Within the other limits the text is far below its own. -/
theorem textBytes_sidecar_le {offer : Offer} (valid : offer.Valid) {index : Cdc.FileIndex}
    (blob : IsDigest (pyStr index.blobHash)) (fits : index.size ≤ maxResumeFileBytes)
    (few : index.chunks.length ≤ maxSidecarChunks)
    (entries : ∀ chunk ∈ index.chunks, jsonBytes fl (chunkEntry chunk) ≤ 170) :
    textBytes fl (offer.sidecar index) ≤ maxSidecarBytes := by
  have keys : ((asdict (offer.sidecar (F := F) index)).map fun member => strBytes member.1) =
      [10, 9, 6, 6, 10, 12, 12, 12, 16, 20, 13, 15, 19, 15, 12, 8] := by
    simp only [asdict, List.map_cons, List.map_nil]
    decide
  simp only [asdict, List.map_cons, List.map_nil, List.cons.injEq] at keys
  have manifest : itemsBytes fl (index.chunks.map chunkEntry) ≤ maxSidecarChunks * 171 := by
    have small : ∀ item ∈ index.chunks.map chunkEntry, jsonBytes fl item ≤ 170 := by
      intro item mem
      obtain ⟨chunk, inside, rfl⟩ := List.mem_map.mp mem
      exact entries chunk inside
    have each := itemsBytes_le fl _ small
    rw [List.length_map] at each
    exact each.trans (Nat.mul_le_mul_right _ few)
  have peer := strBytes_le offer.peerFp
  have name := strBytes_le offer.name
  have path := strBytes_le offer.outPath
  have delivery := strBytes_le offer.deliveryId
  have deliveryName := strBytes_le offer.deliveryName
  have relPath := strBytes_le offer.deliveryRelPath
  have final := strBytes_le offer.finalPath
  have size : intBytes index.size ≤ 14 :=
    intBytes_le (by decide) (lt_of_le_of_lt fits (by decide))
  have created : intBytes offer.createdMs.toNat ≤ 20 :=
    intBytes_le (by decide) (lt_trans (UInt64.toNat_lt _) (by decide))
  have updated : intBytes offer.updatedMs.toNat ≤ 20 :=
    intBytes_le (by decide) (lt_trans (UInt64.toNat_lt _) (by decide))
  have schema : intBytes 1 = 1 := by decide
  have accepted : jsonBytes fl (.bool offer.acceptanceGranted) ≤ 5 := by
    cases offer.acceptanceGranted
    · exact Nat.le_refl 5
    · exact (by decide : 4 ≤ 5)
  have kind : strBytes offer.deliveryKind.text ≤ 16 := by
    cases offer.deliveryKind
    · decide
    · decide
  have tag : strBytes (List.replicate 64 48) = 66 := by decide
  have deliveryLength : offer.deliveryId.length ≤ 32 := by
    obtain none | ⟨some, -⟩ := valid.deliveryId
    · simp [none]
    · omega
  have peerLength := valid.peerFp.2.1
  have nameLength := valid.name.short
  have pathLength := valid.outPath.short
  have deliveryNameLength := valid.deliveryName.short
  have relPathLength := valid.deliveryRelPath.short
  have finalLength := valid.finalPath.short
  have chunkLimit : maxSidecarChunks = 262144 := rfl
  have limit : maxSidecarBytes = 67108864 := rfl
  simp only [textBytes, Offer.sidecar, asdict, jsonBytes_int, jsonBytes_str, jsonBytes_list,
    jsonBytes_dict, membersBytes, keys, tag, schema, strBytes_hex blob.2, blob.1]
  omega

/-! ## Every transfer -/

theorem good_sidecar {offer : Offer} {index : Cdc.FileIndex} (valid : offer.Valid)
    (blob : IsDigest (pyStr index.blobHash))
    (hashes : ∀ chunk ∈ index.chunks, IsDigest (pyStr chunk.hash)) :
    Good (.dict (asdict (offer.sidecar (F := F) index))) := by
  have delivery : WellFormed offer.deliveryId := by
    obtain none | ⟨-, hex⟩ := valid.deliveryId
    · rw [none]
      exact wellFormed_of_small (by simp)
    · exact wellFormed_hex hex
  have kind : WellFormed offer.deliveryKind.text := by
    cases offer.deliveryKind
    · exact wellFormed_of_small (by decide)
    · exact wellFormed_of_small (by decide)
  have manifest : GoodItems (index.chunks.map (chunkEntry (F := F))) := by
    rw [goodItems_iff]
    intro item mem
    obtain ⟨chunk, inside, rfl⟩ := List.mem_map.mp mem
    exact good_chunkEntry (hashes chunk inside)
  have tag : WellFormed [] := wellFormed_of_small (by simp)
  rw [good_asdict_iff]
  simp only [Offer.sidecar, asdict, List.forall_mem_cons, Good]
  exact ⟨wellFormed_hex blob.2, valid.peerFp.2.2, valid.name.good, trivial, valid.outPath.good,
    manifest, trivial, trivial, trivial, trivial, delivery, valid.deliveryName.good,
    valid.deliveryRelPath.good, kind, valid.finalPath.good, tag, by simp⟩

/-- A record whose values survive JSON has texts that do. -/
theorem texts_of_good {offer : Offer} {index : Cdc.FileIndex}
    (good : Good (.dict (asdict (stamped fl H (offer.sidecar index))))) :
    WellFormed offer.peerFp ∧ WellFormed offer.name ∧ WellFormed offer.outPath ∧
      WellFormed offer.deliveryName ∧ WellFormed offer.deliveryRelPath ∧
      WellFormed offer.finalPath := by
  rw [good_asdict_iff] at good
  simp only [stamped, Offer.sidecar, asdict, List.forall_mem_cons, Good] at good
  obtain ⟨-, peer, name, -, path, -, -, -, -, -, -, deliveryName, relPath, -, final, -⟩ := good
  exact ⟨peer, name, path, deliveryName, relPath, final⟩

theorem transfer_restores_iff (lawful : fl.Lawful) (hex : HexDigests H) (offer : Offer)
    {data : Bytes} (nonempty : data ≠ []) {readSize : Int} {index : Cdc.FileIndex}
    (indexed : Cdc.indexFile H data data.length readSize = .ok index) :
    Restores fl H (offer.sidecar index) ↔
      offer.Valid ∧ data.length ≤ maxResumeFileBytes ∧ index.chunks.length ≤ maxSidecarChunks := by
  obtain ⟨pieces, filled, flat, rfl⟩ := indexFile_pieces nonempty indexed
  dsimp only at *
  have hashes : ∀ chunk ∈ Cdc.chunksFrom H 0 0 pieces, IsDigest (pyStr chunk.hash) := by
    intro chunk mem
    obtain ⟨-, -, -, piece, hashed⟩ := mem_chunksFrom_bounds mem
    rw [hashed]
    exact hex piece
  have covered : validateChunks (F := F) data.length 0 0
      ((Cdc.chunksFrom H 0 0 pieces).map chunkEntry) = .ok (data.length : Int) := by
    have inside : 0 + pieces.flatten.length ≤ data.length := by rw [flat, Nat.zero_add]
    have partition := validateChunks_pieces (F := F) hex pieces 0 0 filled inside
    rwa [flat, Nat.zero_add] at partition
  rw [restores_iff lawful, jsonBytes_stamped hex, validateUntrustedFields_stamped hex,
    validateFields_sidecar (hex data)]
  constructor
  · rintro ⟨good, -, -, ⟨peer, name, nameNul, path, pathNul, size, delivery, deliveryName, relPath,
      final⟩, manifest⟩
    obtain ⟨goodPeer, goodName, goodPath, goodDelivery, goodRel, goodFinal⟩ := texts_of_good good
    simp only [validateManifest, Offer.sidecar, bind_eq_ok, require_eq_ok, exists_const,
      List.length_map] at manifest
    refine ⟨⟨⟨peer.1, peer.2, goodPeer⟩, ⟨name.1, name.2, nameNul, goodName⟩,
      ⟨path.1, path.2, pathNul, goodPath⟩, delivery,
      ⟨Nat.zero_le _, deliveryName.1, deliveryName.2, goodDelivery⟩,
      ⟨Nat.zero_le _, relPath.1, relPath.2, goodRel⟩,
      ⟨Nat.zero_le _, final.1, final.2, goodFinal⟩⟩, size, manifest.1⟩
  · rintro ⟨valid, size, few⟩
    refine ⟨good_stamped hex (good_sidecar valid (hex data) hashes), ?_, by rfl, ?_, ?_⟩
    · apply textBytes_sidecar_le valid (hex data) size few
      intro chunk mem
      obtain ⟨number, start, stop, -⟩ := mem_chunksFrom_bounds mem
      rw [Cdc.length_chunksFrom] at few
      have chunkLimit : maxSidecarChunks = 262144 := rfl
      have sizeLimit : maxResumeFileBytes = 17592186044416 := rfl
      rw [flat] at start stop
      exact jsonBytes_chunkEntry_le (hashes chunk mem) (by omega) (by omega) (by omega)
    · exact ⟨⟨valid.peerFp.1, valid.peerFp.2.1⟩, ⟨valid.name.long, valid.name.short⟩,
        valid.name.noNul, ⟨valid.outPath.long, valid.outPath.short⟩, valid.outPath.noNul, size,
        valid.deliveryId, ⟨valid.deliveryName.short, valid.deliveryName.noNul⟩,
        ⟨valid.deliveryRelPath.short, valid.deliveryRelPath.noNul⟩,
        ⟨valid.finalPath.short, valid.finalPath.noNul⟩⟩
    · simp only [validateManifest, Offer.sidecar]
      rw [require_of (by rwa [List.length_map]), ok_bind, covered, ok_bind, require_of rfl]

/-- **Resuming a transfer.**  The record of a nonempty file is restored exactly within the
limits of the validator, and a record that was accepted once is restored again unless its
own text is too long. -/
theorem sidecars_restore (lawful : fl.Lawful) (hex : HexDigests H) :
    (∀ (offer : Offer) (data : Bytes) (readSize : Int) (index : Cdc.FileIndex), data ≠ [] →
      Cdc.indexFile H data data.length readSize = .ok index →
      (Restores fl H (offer.sidecar index) ↔ offer.Valid ∧ data.length ≤ maxResumeFileBytes ∧
        index.chunks.length ≤ maxSidecarChunks)) ∧
    ∀ (now : Int × Int) (text : Text) (sc : ResumeSidecar F), fromJson fl H now text = .ok sc →
      (Restores fl H sc ↔ textBytes fl sc ≤ maxSidecarBytes) :=
  ⟨fun offer _ _ _ nonempty indexed => transfer_restores_iff lawful hex offer nonempty indexed,
    fun _ _ _ accepted => accepted_restores_iff lawful hex accepted⟩

/-- Only the constant `NaN`. -/
def nanFloats : Floats Unit where
  ofToken _ := ()
  toToken _ := ['N', 'a', 'N']
  nan := ()
  infinity := ()
  negInfinity := ()
  toInt? _ := none

theorem nanFloats_lawful : nanFloats.Lawful := fun _ _ _ => rfl

/-- A digest of the right shape. -/
def shapeBlake3 : Cdc.Blake3 where
  hexdigest data :=
    String.ofList (List.replicate 63 'a' ++ [if data.length % 2 = 0 then '0' else '1'])
  digest8 data := data

theorem shapeBlake3_hex : HexDigests shapeBlake3 := by
  intro data
  dsimp only [shapeBlake3]
  split
  · exact ⟨by decide, by decide⟩
  · exact ⟨by decide, by decide⟩

def sampleOffer : Offer where
  peerFp := pyStr "ab:cd"
  name := pyStr "photo.jpg"
  outPath := pyStr "/inbox/photo.jpg"
  createdMs := 1700000000000
  updatedMs := 1700000000000
  acceptanceGranted := true
  deliveryId := []
  deliveryName := pyStr "photo.jpg"
  deliveryRelPath := []
  deliveryKind := .file
  finalPath := pyStr "/inbox/photo.jpg"

theorem sampleOffer_valid : sampleOffer.Valid := by
  have path (s : PyStr) (least most : Nat) (bounds : least ≤ s.length ∧ s.length ≤ most)
      (noNul : 0 ∉ s) (small : ∀ point ∈ s, point < 0xd800) : IsPath least most s :=
    ⟨bounds.1, bounds.2, noNul, wellFormed_of_small small⟩
  exact ⟨⟨by decide, by decide, wellFormed_of_small (by decide)⟩,
    path _ _ _ (by decide) (by decide) (by decide), path _ _ _ (by decide) (by decide) (by decide),
    .inl rfl, path _ _ _ (by decide) (by decide) (by decide),
    path _ _ _ (by decide) (by decide) (by decide), path _ _ _ (by decide) (by decide) (by decide)⟩

/-- A file of one byte is restored, and its record, once read, is restored again. -/
theorem one_byte_restored : ∃ index,
    Cdc.indexFile shapeBlake3 [7] 1 1 = .ok index ∧
      Restores nanFloats shapeBlake3 (sampleOffer.sidecar index) := by
  have rules := sidecars_restore nanFloats_lawful shapeBlake3_hex
  have indexed := Cdc.indexFile_eq shapeBlake3 (Int.le_refl 1) [7]
  refine ⟨_, indexed, ?_⟩
  refine (rules.1 sampleOffer [7] 1 _ (by decide) indexed).mpr ⟨sampleOffer_valid, ?_, ?_⟩
  · decide
  · exact (by decide : 1 ≤ maxSidecarChunks)

/-- A file of one byte more than the limit of 16 TiB is indexed and not restored. -/
theorem oversized_transfer_not_restored :
    let data : Bytes := List.replicate (maxResumeFileBytes + 1) 0
    ∃ index, Cdc.indexFile shapeBlake3 data data.length 1 = .ok index ∧ sampleOffer.Valid ∧
      ¬ Restores nanFloats shapeBlake3 (sampleOffer.sidecar index) := by
  intro data
  have length : data.length = maxResumeFileBytes + 1 := List.length_replicate
  -- nothing below looks into the bytes
  clear_value data
  have nonempty : data ≠ [] := List.ne_nil_of_length_eq_add_one length
  have indexed := Cdc.indexFile_eq shapeBlake3 (Int.le_refl 1) data
  refine ⟨_, indexed, sampleOffer_valid, fun restores => ?_⟩
  obtain ⟨-, size, -⟩ :=
    (transfer_restores_iff nanFloats_lawful shapeBlake3_hex sampleOffer nonempty indexed).mp restores
  rw [length] at size
  exact Nat.not_succ_le_self _ size

end OneLink.Resume
