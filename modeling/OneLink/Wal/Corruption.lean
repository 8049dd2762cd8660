/-
# Wal.Corruption — damage in the middle of a log

A directory of complete records in which the bytes of one record were changed, so
that what its header announces does not pass the checksum.  In a sealed file
replay always reports that.  In the last file it decides by the damaged header
whether the damage could be a torn tail, and `corruption_reported_iff` says
exactly when it gets this right: the announced record must end before the file
does, or the header must not parse and more bytes follow than any record has.
Otherwise everything from the damaged record on is cut off, complete records
included.
-/
import OneLink.Wal.Replay

namespace OneLink.Wal

open Library

set_option autoImplicit false

/-- The header at the start of the bytes, if it parses. -/
def announced (bytes : Bytes) : Option RecordHeader :=
  (parseHeader (bytes.take recordHeaderLen) 0).toOption

/-- The offset only names the place in an error. -/
theorem announced_eq (bytes : Bytes) (offset : Nat) :
    (parseHeader (bytes.take recordHeaderLen) offset).toOption = announced bytes := by
  unfold announced parseHeader
  generalize bytes.take recordHeaderLen = header
  split
  · rename_i kind flags reserved₁ reserved₂ l₀ l₁ l₂ l₃
    by_cases zero : reserved₁ = 0 ∧ reserved₂ = 0
    · by_cases bounded : leValue [l₀, l₁, l₂, l₃] ≤ maxPayloadLen
      · simp only [require_of zero, require_of bounded, ok_bind]
      · simp only [require_of zero, require_of_not bounded, ok_bind, error_bind, Except.toOption]
    · simp only [require_of_not zero]
      rfl
  · rfl

theorem ite_flip {α : Type} {p q : Prop} [Decidable p] [Decidable q] {a b : α}
    (opposite : p ↔ ¬ q) : (if p then a else b) = if q then b else a := by
  by_cases holds : q
  · rw [if_neg (by rw [opposite]; exact not_not.mpr holds), if_pos holds]
  · rw [if_pos (opposite.mpr holds), if_neg holds]

section Crc

variable (crc32c : Bytes → UInt32)

/-- The record that the first bytes announce is there and passes its checksum. -/
def Passes (bytes : Bytes) : Prop :=
  match announced bytes with
  | some header =>
    recordHeaderLen + header.length + recordTrailerLen ≤ bytes.length ∧
      crcValid crc32c
        (bytes.take (recordHeaderLen + header.length + recordTrailerLen)) = true
  | none => False

instance (bytes : Bytes) : Decidable (Passes crc32c bytes) := by
  unfold Passes
  cases announced bytes <;> infer_instance

/-- No torn write explains these bytes at the end of a log. -/
def NoTornTail (bytes : Bytes) : Prop :=
  match announced bytes with
  | some header => recordHeaderLen + header.length + recordTrailerLen < bytes.length
  | none => recordHeaderLen + maxPayloadLen + recordTrailerLen < bytes.length

instance (bytes : Bytes) : Decidable (NoTornTail bytes) := by
  unfold NoTornTail
  cases announced bytes <;> infer_instance

variable {crc32c}

/-- Bytes that do not pass are reported, unless they could be a torn tail. -/
theorem scan_damaged (path cursor : Nat) (allow : Bool) {bytes : Bytes}
    (long : recordHeaderLen ≤ bytes.length) (fails : ¬ Passes crc32c bytes) :
    scanRecords crc32c path allow cursor bytes =
      if allow = true ∧ ¬ NoTornTail bytes then .ok ⟨[], 0, some cursor⟩
      else .error (.nonTailCorruption path cursor) := by
  have some : bytes ≠ [] := by
    rintro rfl
    simp [recordHeaderLen] at long
  have same := announced_eq bytes cursor
  rw [scanRecords, if_neg some, if_neg (Nat.not_lt_of_le long)]
  cases parsed : parseHeader (bytes.take recordHeaderLen) cursor with
  | error err =>
    rw [parsed] at same
    have unparsed : announced bytes = none := same.symm
    have far : NoTornTail bytes ↔
        bytes.length > recordHeaderLen + maxPayloadLen + recordTrailerLen := by
      simp only [NoTornTail, unparsed]
    apply ite_flip
    rw [not_and_or, not_not, far]
  | ok header =>
    rw [parsed] at same
    have announces : announced bytes = .some header := same.symm
    have ends : NoTornTail bytes ↔
        recordHeaderLen + header.length + recordTrailerLen < bytes.length := by
      simp only [NoTornTail, announces]
    dsimp only
    generalize total : recordHeaderLen + header.length + recordTrailerLen = size at ends ⊢
    by_cases beyond : size > bytes.length
    · have torn : ¬ NoTornTail bytes := by
        rw [ends]
        omega
      rw [if_pos beyond]
      cases allow <;> simp [torn]
    · have invalid : crcValid crc32c (bytes.take size) = false := by
        by_contra valid
        apply fails
        simp only [Passes, announces, total]
        exact ⟨by omega, by simpa using valid⟩
      rw [if_neg beyond, if_pos invalid]
      apply ite_flip
      rw [not_and_or, not_not, ends]
      exact or_congr_right (by omega)

/-! ## A directory with one damaged record -/

/-- Where in a directory the damage is: the files before, the damaged file's id and
its records before and after the damaged one, the files after. -/
structure Site where
  before : List (Nat × List Record)
  id : Nat
  early : List Record
  late : List Record
  after : List (Nat × List Record)

variable (crc32c) in
/-- What stands from the damaged record to the end of its file. -/
def Site.tail (site : Site) (damaged : Bytes) : Bytes :=
  damaged ++ frames (Record.bytes crc32c) site.late

variable (crc32c) in
def Site.disk (site : Site) (kind : LogKind) (damaged : Bytes) : Disk :=
  image crc32c kind site.before ++
    ⟨site.id, fileHeader kind ++ (frames (Record.bytes crc32c) site.early ++
      site.tail crc32c damaged), []⟩ :: image crc32c kind site.after

/-- The directory before the damage, with this record at the site. -/
def Site.files (site : Site) (r : Record) : List (Nat × List Record) :=
  site.before ++ (site.id, site.early ++ r :: site.late) :: site.after

theorem site_sorted (site : Site) (kind : LogKind) (r : Record) (damaged : Bytes)
    (ascending : Ascending (site.files r)) :
    sortedLogFiles (site.disk crc32c kind damaged) = site.disk crc32c kind damaged := by
  apply sortedLogFiles_of_ascending
  have ids : (site.disk crc32c kind damaged).map DiskFile.id = (site.files r).map Prod.fst := by
    simp [Site.disk, Site.files, image, Function.comp_def]
  have sorted : ((site.files r).map Prod.fst).Pairwise (· < ·) := List.pairwise_map.mpr ascending
  rw [← ids] at sorted
  exact List.pairwise_map.mp sorted

/-- The replay of the damaged file. -/
theorem replay_damagedFile (site : Site) (kind : LogKind) (allow : Bool) {damaged : Bytes}
    (early : ∀ r ∈ site.early, r.Fits) (long : recordHeaderLen ≤ damaged.length)
    (fails : ¬ Passes crc32c (site.tail crc32c damaged)) :
    (∃ err, replayLogFileWithPolicy crc32c site.id (fileHeader kind ++
        (frames (Record.bytes crc32c) site.early ++ site.tail crc32c damaged)) kind allow =
          .error err) ↔
      allow = false ∨ NoTornTail (site.tail crc32c damaged) := by
  have longTail : recordHeaderLen ≤ (site.tail crc32c damaged).length := by
    rw [Site.tail, List.length_append]
    omega
  rw [replayFile_body, scan_frames crc32c _ _ _ early, scan_damaged _ _ _ longTail fails]
  by_cases cut : allow = true ∧ ¬ NoTornTail (site.tail crc32c damaged)
  · rw [if_pos cut]
    simp [Except.map, cut]
  · rw [if_neg cut]
    rw [not_and_or, not_not, Bool.not_eq_true] at cut
    simp [Except.map, cut]

/-- Replay reports the damage and leaves every file as it is exactly when a later
file follows or no torn write explains what stands from the damage on. -/
theorem corruption_reported_iff (site : Site) (kind : LogKind) {r : Record} {damaged : Bytes}
    (ascending : Ascending (site.files r)) (fits : ∀ r' ∈ recordsOf (site.files r), r'.Fits)
    (size : damaged.length = r.onDiskLen) (fails : ¬ Passes crc32c (site.tail crc32c damaged)) :
    (∃ err, replayLogDir crc32c (site.disk crc32c kind damaged) kind =
        (.error err, site.disk crc32c kind damaged)) ↔
      site.after ≠ [] ∨ NoTornTail (site.tail crc32c damaged) := by
  have beforeFits : ∀ r' ∈ recordsOf site.before, r'.Fits := by
    intro r' member
    apply fits
    simp only [Site.files, recordsOf, List.flatMap_append, List.mem_append]
    exact .inl member
  have earlyFits : ∀ r' ∈ site.early, r'.Fits := by
    intro r' member
    apply fits
    simp only [Site.files, recordsOf, List.flatMap_append, List.flatMap_cons, List.mem_append]
    exact .inr (.inl (.inl member))
  have afterFits : ∀ r' ∈ recordsOf site.after, r'.Fits := by
    intro r' member
    apply fits
    simp only [Site.files, recordsOf, List.flatMap_append, List.flatMap_cons, List.mem_append]
    exact .inr (.inr member)
  have long : recordHeaderLen ≤ damaged.length := by
    rw [size]
    simp only [Record.onDiskLen]
    omega
  have last : (image crc32c kind site.after).isEmpty = false ↔ site.after ≠ [] := by
    simp [image]
  have file := replay_damagedFile site kind (image crc32c kind site.after).isEmpty earlyFits long
    fails
  rw [last] at file
  -- what happens is up to the damaged file: the files around it are complete
  have read (disk : Disk) := replayFiles_image crc32c kind beforeFits
    (⟨site.id, fileHeader kind ++ (frames (Record.bytes crc32c) site.early ++
      site.tail crc32c damaged), []⟩ :: image crc32c kind site.after) disk {}
  simp only [replayFiles, DiskFile.contents, List.append_nil] at read
  rw [← file, replayLogDir, site_sorted site kind r damaged ascending]
  conv_lhs => rw [show replayFiles crc32c kind (site.disk crc32c kind damaged) _ {} = _ from read _]
  cases replayed : replayLogFileWithPolicy crc32c site.id (fileHeader kind ++
      (frames (Record.bytes crc32c) site.early ++ site.tail crc32c damaged)) kind
      (image crc32c kind site.after).isEmpty with
  | error err => simp
  | ok result =>
    have goesOn := replayFiles_image crc32c kind afterFits []
    simp only [List.append_nil] at goesOn
    simp only [goesOn]
    simp [replayFiles]

end Crc

/-- Two records in the only file; the damage is at the first. -/
def firstOfTwo : Site := ⟨[], 1, [], [⟨1, 0, [7]⟩], []⟩

/-- The first record with its length field changed from 2 to 200. -/
def longer : Bytes := [1, 0, 0, 0, 200, 0, 0, 0, 104, 105] ++
  leBytes 4 (crc32c (Record.body ⟨1, 0, [104, 105]⟩)).toNat

theorem later_record_truncated :
    longer.length = (⟨1, 0, [104, 105]⟩ : Record).onDiskLen ∧
      ¬ Passes crc32c (firstOfTwo.tail crc32c longer) ∧
      ∃ outcome, outcome.records = [] ∧
        replayLogDir crc32c (firstOfTwo.disk crc32c .chunkLog longer) .chunkLog =
          (.ok outcome, [⟨1, fileHeader .chunkLog, []⟩]) := by
  refine ⟨by decide +kernel, by decide +kernel, ⟨[], 64, [(1, 64)]⟩, rfl, ?_⟩
  decide +kernel

/-- The first record with a byte of its payload changed. -/
def altered : Bytes := [1, 0, 0, 0, 2, 0, 0, 0, 104, 106] ++
  leBytes 4 (crc32c (Record.body ⟨1, 0, [104, 105]⟩)).toNat

theorem corruption_reported_altered :
    ∃ err, replayLogDir crc32c (firstOfTwo.disk crc32c .chunkLog altered) .chunkLog =
      (.error err, firstOfTwo.disk crc32c .chunkLog altered) :=
  (@corruption_reported_iff crc32c firstOfTwo .chunkLog ⟨1, 0, [104, 105]⟩ altered
    (by simp [Ascending, Site.files, firstOfTwo]) (by decide) (by decide +kernel)
    (by decide +kernel)).mpr (.inr (by decide +kernel))

end OneLink.Wal
