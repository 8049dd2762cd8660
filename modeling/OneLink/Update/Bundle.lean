/-
# Update.Bundle -- the member manifest of an update bundle and its links

A manifest lists the members of a bundle, each below the bundle's root directory.  A link's target is
normalised as a text, then looked for among the members; if it is none of them, the links on its way
are followed as far as the manifest says where they lead (`resolveThroughManifest`).  `..` is removed
with the component before it, also where that component is a link.

Python's `int` is a parameter: any reading of the size fields.
-/
import OneLink.Library.ByteReader
import OneLink.Library.Checked
import OneLink.Library.PosixPath

namespace OneLink.Update

open Library Library.PosixPath

set_option autoImplicit false

/-- `UpdateArchiveError`: its text, and the name it quotes. -/
structure ArchiveError where
  text : String
  about : Text := []
deriving DecidableEq

/-! ## Names -/

/-- `_WINDOWS_RESERVED` -/
def windowsReserved : List Text :=
  ["CLOCK$", "CON", "CONIN$", "CONOUT$", "PRN", "AUX", "NUL",
    "COM1", "COM2", "COM3", "COM4", "COM5", "COM6", "COM7", "COM8", "COM9",
    "LPT1", "LPT2", "LPT3", "LPT4", "LPT5", "LPT6", "LPT7", "LPT8", "LPT9"].map String.toList

/-- `str.upper` where its result is ASCII; other characters stay as they are. -/
def upperChar (ch : Char) : Text :=
  if 'a' ≤ ch ∧ ch ≤ 'z' then [Char.ofNat (ch.toNat - 32)]
  else if ch.toNat = 0x131 then ['I']
  else if ch.toNat = 0x17f then ['S']
  else if ch.toNat = 0xdf then ['S', 'S']
  else if ch.toNat = 0xfb00 then ['F', 'F']
  else if ch.toNat = 0xfb01 then ['F', 'I']
  else if ch.toNat = 0xfb02 then ['F', 'L']
  else if ch.toNat = 0xfb03 then ['F', 'F', 'I']
  else if ch.toNat = 0xfb04 then ['F', 'F', 'L']
  else if ch.toNat = 0xfb05 ∨ ch.toNat = 0xfb06 then ['S', 'T']
  else [ch]

/-- `ord(character) < 32 or ord(character) == 127` -/
def isControl (ch : Char) : Bool := ch.toNat < 32 ∨ ch.toNat = 127

/-- `_validate_component`. -/
def validateComponent (component context : Text) : Except ArchiveError Unit := do
  require (¬ (component = [] ∨ component = dot ∨ component = dotDot ∨
      255 < (component.map Char.utf8Size).sum ∨ component.any isControl ∨
      component.getLast? = some ' ' ∨ component.getLast? = some '.' ∨
      component.any (· ∈ "<>:\"/\\|?*".toList)))
    ⟨"unsafe portable path component", context⟩
  let stem := (component.takeWhile (· ≠ '.')).reverse.dropWhile (· ∈ [' ', '.'])
  require (stem.reverse.flatMap upperChar ∉ windowsReserved)
    ⟨"Windows-reserved path component", context⟩

/-- `_manifest_name_for`. -/
def manifestNameFor (root : Text) : Text := root ++ "/BUNDLE_SHA256SUMS".toList

/-- `_validate_archive_name`. -/
def validateArchiveName (value root : Text) : Except ArchiveError Unit := do
  require (¬ (value = [] ∨ '\\' ∈ value ∨ startsWith value ['/']))
    ⟨"unsafe archive member path", value⟩
  let parts := components value
  require (¬ (dotDot ∈ parts ∨ parts.take 1 ≠ [root] ∨ asPosix parts ≠ value))
    ⟨"unsafe archive member path", value⟩
  parts.forM fun part => validateComponent part value

/-! ## The manifest -/

/-- `MAX_ARCHIVE_MANIFEST_BYTES` -/
def maxArchiveManifestBytes : Nat := 8 * 1024 * 1024

/-- `MAX_STANDALONE_ARTIFACT_BYTES` -/
def maxStandaloneArtifactBytes : Nat := 4 * 1024 * 1024 * 1024

/-- `ARCHIVE_MANIFEST_HEADER` -/
def archiveManifestHeader : Text := "# sha256\tkind\tbytes\tpath\ttarget".toList

inductive Kind where
  | file
  | symlink
deriving DecidableEq

structure ManifestRow where
  digest : Text
  kind : Kind
  size : Int
  path : Text
  target : Text
deriving DecidableEq

/-- Where `str.splitlines` ends a line. -/
def isLineEnd (ch : Char) : Bool :=
  ch.toNat ∈ [0x0a, 0x0b, 0x0c, 0x0d, 0x1c, 0x1d, 0x1e, 0x85, 0x2028, 0x2029]

/-- `str.splitlines`, with the characters of the line so far. -/
def splitlines : (line : Text) → Text → List Text
  | line, [] => if line = [] then [] else [line]
  | line, '\r' :: '\n' :: rest => line :: splitlines [] rest
  | line, ch :: rest =>
    if isLineEnd ch then line :: splitlines [] rest else splitlines (line ++ [ch]) rest

def kindOf (kind : Text) : Option Kind :=
  if kind = "FILE".toList then some .file
  else if kind = "SYMLINK".toList then some .symlink else none

/-- `_HEX_64.fullmatch`. -/
def isHex64 (digest : Text) : Bool :=
  digest.length = 64 ∧ digest.all fun ch => ('0' ≤ ch ∧ ch ≤ '9') ∨ ('a' ≤ ch ∧ ch ≤ 'f')

section Parse

variable (int : Text → Option Int) (root : Text)

/-- One line of the manifest. -/
def parseRow (rows : List ManifestRow) (line : Text) : Except ArchiveError ManifestRow := do
  match line.splitOn '\t' with
  | [digest, kind, sizeText, name, target] =>
    validateArchiveName name root
    require (¬ (name = manifestNameFor root ∨ rows.any (·.path = name)))
      ⟨"bundle member manifest duplicates", name⟩
    match kindOf kind with
    | none => throw ⟨"bundle member manifest row is invalid", name⟩
    | some kind =>
      require (isHex64 digest) ⟨"bundle member manifest row is invalid", name⟩
      match int sizeText with
      | none => throw ⟨"bundle member size is invalid", name⟩
      | some size =>
        require (¬ (size < 0 ∨ size > maxStandaloneArtifactBytes))
          ⟨"bundle member size exceeds policy", name⟩
        require (¬ (kind = .file ∧ target ≠ []))
          ⟨"regular bundle member has a link target", name⟩
        return ⟨digest, kind, size, name, target⟩
  | _ => throw ⟨"bundle member manifest has a malformed row", []⟩

/-- The loop over the lines. -/
def parseRows : (rows : List ManifestRow) → List Text → Except ArchiveError (List ManifestRow)
  | rows, [] => return rows
  | rows, line :: rest => do
    let row ← parseRow int root rows line
    parseRows (rows ++ [row]) rest

/-- `_parse_bundle_manifest`; the rows in the order of the dictionary. -/
def parseBundleManifest (raw : Bytes) : Except ArchiveError (List ManifestRow) := do
  require (¬ (raw = [] ∨ raw.length > maxArchiveManifestBytes))
    ⟨"bundle member manifest is empty or oversized", []⟩
  match decodeUtf8 raw with
  | none => throw ⟨"bundle member manifest is not strict UTF-8", []⟩
  | some text =>
    match splitlines [] text.toList with
    | header :: rest =>
      require (header = archiveManifestHeader)
        ⟨"bundle member manifest has an invalid header", []⟩
      let rows ← parseRows int root [] rest
      require (rows ≠ []) ⟨"bundle member manifest has no payload rows", []⟩
      return rows
    | [] => throw ⟨"bundle member manifest has an invalid header", []⟩

end Parse

/-! ## Links -/

/-- `rows.get(name)`. -/
def rowAt (rows : List ManifestRow) (name : Text) : Option ManifestRow :=
  rows.find? (·.path = name)

/-- The shallowest link on the way of the components: its name, its row and what comes behind. -/
def firstLink (rows : List ManifestRow) :
    (front parts : List Text) → Option (Text × ManifestRow × List Text)
  | _, [] => none
  | front, part :: rest =>
    match rowAt rows (join (front ++ [part])) with
    | some row =>
      if row.kind = .symlink then some (join (front ++ [part]), row, rest)
      else firstLink rows (front ++ [part]) rest
    | none => firstLink rows (front ++ [part]) rest

/-- One turn of the loop of `_resolve_through_manifest`: where the path leads, if it meets a link. -/
def hop (rows : List ManifestRow) (root label current : Text) :
    Except ArchiveError (Option Text) :=
  match firstLink rows [] ((split current).filter (· ≠ [])) with
  | none => return none
  | some (name, row, rest) => do
    let landed := normpath (joinTwo (dirname name) row.target)
    let candidate := normpath (rest.foldl joinTwo landed)
    let candidateParts := (split candidate).filter (· ≠ [])
    require (¬ (dotDot ∈ candidateParts ∨ candidateParts.take 1 ≠ [root]))
      ⟨"bundle symlink escapes the bundle root", label⟩
    return some candidate

/-- `MAX_SYMLINK_HOPS` -/
def maxSymlinkHops : Nat := 40

/-- The loop of `_resolve_through_manifest`. -/
def resolveFrom (rows : List ManifestRow) (root label : Text) :
    (hops : Nat) → (current : Text) → Except ArchiveError Text
  | 0, _ => throw ⟨"bundle symlink chain is too deep or cyclic", label⟩
  | hops + 1, current => do
    match ← hop rows root label current with
    | none => return current
    | some next => resolveFrom rows root label hops next

/-- `_resolve_through_manifest`. -/
def resolveThroughManifest (start : Text) (rows : List ManifestRow) (root label : Text) :
    Except ArchiveError Text :=
  resolveFrom rows root label maxSymlinkHops start

/-- `_present`. -/
def present (allNames : List Text) (name : Text) : Bool :=
  name ∈ allNames ∨ allNames.any fun n => startsWith n (name ++ ['/'])

/-- Whether `PureWindowsPath(target)` has a drive or a root. -/
def windowsAnchored (target : Text) : Bool :=
  target.head? = some '/' ∨ target.head? = some '\\' ∨ target[1]? = some ':'

/-- The target as `_safe_symlink_target` relocates it. -/
def relocated (row : ManifestRow) : List Text :=
  let posixTarget := row.target.map fun ch => if ch = '\\' then '/' else ch
  components (normpath (asPosix ((components row.path).dropLast ++ components posixTarget)))

/-- `_safe_symlink_target`, with the row map. -/
def safeSymlinkTarget (row : ManifestRow) (allNames : List Text) (root : Text)
    (rows : List ManifestRow) : Except ArchiveError Unit := do
  let posixTarget := row.target.map fun ch => if ch = '\\' then '/' else ch
  require (¬ (row.target = [] ∨ row.target.any isControl ∨ startsWith posixTarget ['/'] ∨
      windowsAnchored row.target))
    ⟨"bundle symlink target is unsafe", row.path⟩
  require (¬ ((relocated row).take 1 ≠ [root] ∨ dotDot ∈ relocated row))
    ⟨"bundle symlink escapes or targets missing content", row.path⟩
  if present allNames (asPosix (relocated row)) then return
  else
    let resolved ← resolveThroughManifest (asPosix (relocated row)) rows root row.path
    require (present allNames resolved)
      ⟨"bundle symlink escapes or targets missing content", row.path⟩

/-- `all_archive_names`. -/
def allArchiveNames (rows : List ManifestRow) (root : Text) : List Text :=
  rows.map ManifestRow.path ++ [manifestNameFor root]

end OneLink.Update
