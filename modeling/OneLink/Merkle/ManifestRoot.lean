/-
# Merkle.ManifestRoot -- one root for one folder content

`manifest_root_for_entries` reduces every entry to path, blob hash and size, writes
the three as one text with separators, sorts the texts and builds the tree over their
hashes.

A row is read back from the right: neither the decimal size nor the blob hash holds a
separator, the path may (`manifestRow_injective`).  Rows of distinct paths are distinct,
so no leaf occurs twice, and a tree in which no leaf occurs twice is determined by its
root (`Library.leaves_eq_of_root`): leaves and nodes are hashed under different tags,
and the copy that pads an odd level is no leaf of a longer list.
-/
import Mathlib
import OneLink.Crdt.Manifest
import OneLink.Library.ByteReader
import OneLink.Merkle.Tree

namespace OneLink.Merkle

open Library
open OneLink.Crdt (ManifestEntry)

set_option autoImplicit false

def hexDigits : List Char :=
  ['0', '1', '2', '3', '4', '5', '6', '7', '8', '9', 'a', 'b', 'c', 'd', 'e', 'f']

/-- What `hexdigest()` returns: 64 hexadecimal digits in lower case. -/
structure HexDigest where
  text : String
  length_eq : text.length = 64
  hex : ∀ c ∈ text.toList, c ∈ hexDigits

/-- `b"leaf\x00"` -/
def leafTag : Bytes := [108, 101, 97, 102, 0]

/-- A row of `manifest_leaf_hashes`, as one text. -/
def manifestRow (item : String × String × Nat) : String :=
  item.1 ++ "\x00" ++ item.2.1 ++ "\x00" ++ item.2.2.repr

/-- The `(path, blob_hash, size)` of an entry, as `manifest_root_for_entries` reads them. -/
def rowOf (entry : ManifestEntry) : String × String × Nat :=
  (entry.filePath, entry.blobHash.getD "", entry.size.getD 0)

/-- The bytes `hash_leaf` hashes. -/
def leafInput (row : String) : Bytes := leafTag ++ utf8 row

/-- The bytes `hash_pair` hashes. -/
def nodeInput (p : String × String) : Bytes := nodeTag ++ fromHex p.1.toList ++ fromHex p.2.toList

/-- The rows of some entries in the order of `sorted`. -/
def sortedRows (entries : List ManifestEntry) : List String :=
  ((entries.map rowOf).map manifestRow).insertionSort (· ≤ ·)

theorem hexDigits_valid : ∀ c ∈ hexDigits, isHexDigit c = true ∧ c.toLower = c ∧
    hexValue c < 16 := by
  intro c member
  fin_cases member <;> decide

theorem hexValue_inj : ∀ c ∈ hexDigits, ∀ d ∈ hexDigits, hexValue c = hexValue d → c = d := by
  have table : hexDigits.map hexValue = List.range 16 := by decide
  intro c member d member' same
  have distinct : (hexDigits.map hexValue).Nodup := by
    rw [table]
    exact List.nodup_range
  exact List.inj_on_of_nodup_map distinct member member' same

/-- A digest as a leaf of a tree. -/
def HexDigest.toLeafHash (d : HexDigest) : LeafHash where
  text := d.text
  length_eq := d.length_eq
  hex := List.all_eq_true.mpr fun c member => (hexDigits_valid c (d.hex c member)).1

section Blake3

/- `blake3.blake3(data).hexdigest()` -/
variable (blake3 : Bytes → HexDigest)

/-- `hash_leaf` -/
def hashLeaf (row : String) : LeafHash := (blake3 (leafInput row)).toLeafHash

/-- `manifest_leaf_hashes`, of the rows of some entries. -/
def manifestLeafHashes (entries : List ManifestEntry) : List LeafHash :=
  (sortedRows entries).map (hashLeaf blake3)

/-- `manifest_root_for_entries` -/
def manifestRootForEntries (entries : List ManifestEntry) : String :=
  (buildTree (fun data => (blake3 data).text) (manifestLeafHashes blake3 entries)).root
    fun data => (blake3 data).text

/-- The digests at the bottom of the tree of some entries. -/
def leavesOf (entries : List ManifestEntry) : List String :=
  (manifestLeafHashes blake3 entries).map validateHash

/-- Every byte string hashed for the root of some entries. -/
def hashedInputs (entries : List ManifestEntry) : List Bytes :=
  [] :: (sortedRows entries).map leafInput ++
    (combinedPairs (hashPair fun data => (blake3 data).text) (leavesOf blake3 entries)).map nodeInput

/-- No two of the byte strings hashed for the two roots have one digest. -/
def CollisionFree (A B : List ManifestEntry) : Prop :=
  Set.InjOn blake3 {data | data ∈ hashedInputs blake3 A ∨ data ∈ hashedInputs blake3 B}

end Blake3

/-- The blob hashes hold no separator; a validated one is 64 hexadecimal digits. -/
def PlainHashes (entries : List ManifestEntry) : Prop :=
  ∀ entry ∈ entries, ∀ blob ∈ entry.blobHash, '\x00' ∉ blob.toList

/-! ## Rows -/

/-- What stands in front of the first separator is determined, and what stands behind it. -/
theorem split_at_separator {front front' back back' : List Char} (plain : '\x00' ∉ front)
    (plain' : '\x00' ∉ front') (same : front ++ '\x00' :: back = front' ++ '\x00' :: back') :
    front = front' ∧ back = back' := by
  induction front generalizing front' with
  | nil =>
    cases front' with
    | nil => exact ⟨rfl, (List.cons.inj same).2⟩
    | cons c front' =>
      have head := (List.cons.inj same).1
      exact absurd (head ▸ List.mem_cons_self) plain'
  | cons c front ih =>
    cases front' with
    | nil =>
      have head := (List.cons.inj same).1
      exact absurd (head ▸ List.mem_cons_self) plain
    | cons c' front' =>
      obtain ⟨rfl, tails⟩ := List.cons.inj same
      obtain ⟨rfl, rfl⟩ := ih (fun member => plain (List.mem_cons_of_mem _ member))
        (fun member => plain' (List.mem_cons_of_mem _ member)) tails
      exact ⟨rfl, rfl⟩

theorem separator_notMem_repr (n : Nat) : '\x00' ∉ n.repr.toList := by
  intro member
  rw [Nat.toList_repr] at member
  exact absurd (Nat.isDigit_of_mem_toDigits (by decide) (by decide) member) (by decide)

/-- A row determines its path, hash and size: it is read from the right. -/
theorem manifestRow_injective {item item' : String × String × Nat} (plain : '\x00' ∉ item.2.1.toList)
    (plain' : '\x00' ∉ item'.2.1.toList) (same : manifestRow item = manifestRow item') :
    item = item' := by
  obtain ⟨path, blob, size⟩ := item
  obtain ⟨path', blob', size'⟩ := item'
  have backwards := congrArg (fun text : String => text.toList.reverse) same
  have separator : "\x00".toList.reverse = ['\x00'] := by decide
  simp only [manifestRow, String.toList_append, List.reverse_append, List.append_assoc, separator,
    List.singleton_append] at backwards
  obtain ⟨sizes, behind⟩ := split_at_separator
    (fun member => separator_notMem_repr size (List.mem_reverse.mp member))
    (fun member => separator_notMem_repr size' (List.mem_reverse.mp member)) backwards
  obtain ⟨blobs, paths⟩ := split_at_separator (fun member => plain (List.mem_reverse.mp member))
    (fun member => plain' (List.mem_reverse.mp member)) behind
  rw [List.reverse_inj, String.toList_inj] at sizes blobs paths
  obtain rfl : blob = blob' := blobs
  rw [paths, Nat.repr_inj.mp sizes]

theorem plain_rowOf {entries : List ManifestEntry} (plain : PlainHashes entries)
    {item : String × String × Nat} (member : item ∈ entries.map rowOf) : '\x00' ∉ item.2.1.toList := by
  obtain ⟨entry, present, rfl⟩ := List.mem_map.mp member
  cases blob : entry.blobHash with
  | none => simp [rowOf, blob]
  | some hash => simpa [rowOf, blob] using plain entry present hash blob

/-- Entries of distinct paths have distinct rows. -/
theorem nodup_sortedRows {entries : List ManifestEntry} (plain : PlainHashes entries)
    (distinct : (entries.map ManifestEntry.filePath).Nodup) : (sortedRows entries).Nodup := by
  have items : (entries.map rowOf).Nodup := by
    have paths : ((entries.map rowOf).map Prod.fst).Nodup := by
      rw [List.map_map]
      exact distinct
    exact paths.of_map
  refine (List.perm_insertionSort _ _).nodup_iff.mpr (items.map_on fun item member item' member' => ?_)
  exact manifestRow_injective (plain_rowOf plain member) (plain_rowOf plain member')

/-- The sorted rows say no more and no less than the set of triples. -/
theorem sortedRows_eq_iff {A B : List ManifestEntry} (plain : PlainHashes A) (plain' : PlainHashes B)
    (distinct : (A.map ManifestEntry.filePath).Nodup)
    (distinct' : (B.map ManifestEntry.filePath).Nodup) :
    sortedRows A = sortedRows B ↔ ∀ item, item ∈ A.map rowOf ↔ item ∈ B.map rowOf := by
  have rows : ∀ (entries : List ManifestEntry) (row : String),
      row ∈ sortedRows entries ↔ ∃ item ∈ entries.map rowOf, manifestRow item = row := by
    intro entries row
    rw [sortedRows, List.mem_insertionSort, List.mem_map]
  constructor
  · intro same item
    have transfer : ∀ {C D : List ManifestEntry}, PlainHashes C → PlainHashes D →
        sortedRows C = sortedRows D → item ∈ C.map rowOf → item ∈ D.map rowOf := by
      intro C D plainC plainD equal member
      have row := (rows C (manifestRow item)).mpr ⟨item, member, rfl⟩
      rw [equal, rows] at row
      obtain ⟨item', member', sameRow⟩ := row
      rwa [← manifestRow_injective (plain_rowOf plainD member') (plain_rowOf plainC member) sameRow]
    exact ⟨transfer plain plain' same, transfer plain' plain same.symm⟩
  · intro same
    refine List.Perm.eq_of_sortedLE List.sortedLE_insertionSort List.sortedLE_insertionSort ?_
    refine (List.perm_ext_iff_of_nodup (nodup_sortedRows plain distinct)
      (nodup_sortedRows plain' distinct')).mpr fun row => ?_
    rw [rows, rows]
    simp only [same]

/-! ## Digests -/

theorem HexDigest.ext_text {d d' : HexDigest} (same : d.text = d'.text) : d = d' := by
  cases d
  cases d'
  cases same
  rfl

/-- `_validate_hash` returns a digest as it is. -/
theorem validateHash_digest (d : HexDigest) : validateHash d.toLeafHash = d.text := by
  have lower : d.text.toList.map Char.toLower = d.text.toList := by
    refine (List.map_congr_left fun c member => ?_).trans (List.map_id _)
    exact (hexDigits_valid c (d.hex c member)).2.1
  refine String.toList_inj.mp ?_
  rw [validateHash, String.toLower, String.toList_map]
  exact lower

/-- Hexadecimal digits are determined by the bytes they write. -/
theorem fromHex_inj {text text' : List Char} (even : text.length % 2 = 0)
    (lengths : text.length = text'.length) (hex : ∀ c ∈ text, c ∈ hexDigits)
    (hex' : ∀ c ∈ text', c ∈ hexDigits) (same : fromHex text = fromHex text') : text = text' := by
  induction text using fromHex.induct generalizing text' with
  | case1 high low rest ih =>
    obtain _ | ⟨high', _ | ⟨low', rest'⟩⟩ := text'
    · cases lengths
    · cases lengths
    simp only [List.length_cons] at even lengths
    simp only [List.forall_mem_cons] at hex hex'
    simp only [fromHex, List.cons.injEq] at same
    obtain ⟨bytes, tails⟩ := same
    have values := congrArg UInt8.toNat bytes
    have below := (hexDigits_valid low hex.2.1).2.2
    have below' := (hexDigits_valid low' hex'.2.1).2.2
    have top := (hexDigits_valid high hex.1).2.2
    have top' := (hexDigits_valid high' hex'.1).2.2
    rw [UInt8.toNat_ofNat', UInt8.toNat_ofNat', Nat.mod_eq_of_lt (by omega),
      Nat.mod_eq_of_lt (by omega)] at values
    rw [hexValue_inj high hex.1 high' hex'.1 (by omega),
      hexValue_inj low hex.2.1 low' hex'.2.1 (by omega),
      ih (by omega) (by omega) hex.2.2 hex'.2.2 tails]
  | case2 text short =>
    have empty : text = [] := by
      match text, short with
      | [], _ => rfl
      | [c], _ => simp at even
      | high :: low :: rest, short => exact absurd rfl (short high low rest)
    subst empty
    exact (List.length_eq_zero_iff.mp lengths.symm).symm

theorem length_fromHex (text : List Char) : (fromHex text).length = text.length / 2 := by
  induction text using fromHex.induct with
  | case1 high low rest ih =>
    simp only [fromHex, List.length_cons, ih]
    omega
  | case2 text short =>
    match text, short with
    | [], _ => rfl
    | [c], _ => simp [fromHex]
    | high :: low :: rest, short => exact absurd rfl (short high low rest)

/-- A text that is a digest. -/
def IsDigest (text : String) : Prop := ∃ d : HexDigest, d.text = text

/-- What is hashed for a node determines the two digests below it. -/
theorem nodeInput_inj {p q : String × String} (left : IsDigest p.1 ∧ IsDigest p.2)
    (right : IsDigest q.1 ∧ IsDigest q.2) (same : nodeInput p = nodeInput q) : p = q := by
  obtain ⟨x, y⟩ := p
  obtain ⟨x', y'⟩ := q
  obtain ⟨⟨d, rfl⟩, ⟨e, rfl⟩⟩ := left
  obtain ⟨⟨d', rfl⟩, ⟨e', rfl⟩⟩ := right
  have width : ∀ f : HexDigest, f.text.toList.length = 64 := fun f => f.length_eq
  have bytes : ∀ f : HexDigest, (fromHex f.text.toList).length = 32 := fun f => by
    rw [length_fromHex, width]
  rw [nodeInput, nodeInput, List.append_assoc, List.append_assoc, List.append_cancel_left_eq] at same
  obtain ⟨first, second⟩ := List.append_inj same (by rw [bytes, bytes])
  have unread : ∀ f f' : HexDigest, fromHex f.text.toList = fromHex f'.text.toList →
      f.text = f'.text := fun f f' equal =>
    String.toList_inj.mp (fromHex_inj (by rw [width]) (by rw [width, width]) f.hex f'.hex equal)
  rw [unread d d' first, unread e e' second]

/-! ## The tree of some entries -/

section Root

variable {blake3 : Bytes → HexDigest} {A B : List ManifestEntry}

theorem leavesOf_eq (entries : List ManifestEntry) :
    leavesOf blake3 entries = (sortedRows entries).map fun row => (blake3 (leafInput row)).text := by
  rw [leavesOf, manifestLeafHashes, List.map_map]
  exact List.map_congr_left fun row _ => validateHash_digest _

theorem hashPair_eq (p : String × String) :
    hashPair (fun data => (blake3 data).text) p.1 p.2 = (blake3 (nodeInput p)).text := rfl

theorem isDigest_components (entries : List ManifestEntry) :
    ∀ p ∈ combinedPairs (hashPair fun data => (blake3 data).text) (leavesOf blake3 entries),
      IsDigest p.1 ∧ IsDigest p.2 := by
  refine forall_combinedPairs _ (fun x y => ⟨_, rfl⟩) fun x member => ?_
  rw [leavesOf_eq] at member
  obtain ⟨row, -, rfl⟩ := List.mem_map.mp member
  exact ⟨_, rfl⟩

theorem leafInput_inj {row row' : String} (same : leafInput row = leafInput row') : row = row' := by
  rw [leafInput, leafInput, List.append_cancel_left_eq] at same
  exact utf8_inj same

theorem leafInput_ne_nodeInput (row : String) (p : String × String) : leafInput row ≠ nodeInput p := by
  intro same
  have first := congrArg List.head? same
  simp [leafInput, nodeInput, leafTag, nodeTag] at first

theorem input_ne_nil (row : String) (p : String × String) : leafInput row ≠ [] ∧ nodeInput p ≠ [] := by
  simp [leafInput, nodeInput, leafTag, nodeTag]

theorem leafInput_mem {entries : List ManifestEntry} {row : String} (member : row ∈ sortedRows entries) :
    leafInput row ∈ hashedInputs blake3 entries := by
  simp only [hashedInputs, List.mem_append, List.mem_cons]
  exact .inl (.inr (List.mem_map_of_mem member))

theorem nodeInput_mem {entries : List ManifestEntry} {p : String × String}
    (member : p ∈ combinedPairs (hashPair fun data => (blake3 data).text) (leavesOf blake3 entries)) :
    nodeInput p ∈ hashedInputs blake3 entries :=
  List.mem_append_right _ (List.mem_map_of_mem member)

theorem nil_mem (entries : List ManifestEntry) : [] ∈ hashedInputs blake3 entries :=
  List.mem_append_left _ List.mem_cons_self

/-- One text stands for one of the byte strings hashed. -/
theorem input_eq (collisionFree : CollisionFree blake3 A B) {data data' : Bytes}
    (hashed : data ∈ hashedInputs blake3 A ∨ data ∈ hashedInputs blake3 B)
    (hashed' : data' ∈ hashedInputs blake3 A ∨ data' ∈ hashedInputs blake3 B)
    (same : (blake3 data).text = (blake3 data').text) : data = data' :=
  collisionFree hashed hashed' (HexDigest.ext_text same)

theorem separates_leaves (collisionFree : CollisionFree blake3 A B) :
    Separates (hashPair fun data => (blake3 data).text) (leavesOf blake3 A) (leavesOf blake3 B) := by
  intro p member q member' same
  have digests : ∀ r : String × String, (r ∈ combinedPairs (hashPair fun data => (blake3 data).text)
      (leavesOf blake3 A) ∨ r ∈ combinedPairs (hashPair fun data => (blake3 data).text)
      (leavesOf blake3 B)) → (IsDigest r.1 ∧ IsDigest r.2) ∧
        (nodeInput r ∈ hashedInputs blake3 A ∨ nodeInput r ∈ hashedInputs blake3 B) := by
    rintro r (here | there)
    · exact ⟨isDigest_components A r here, .inl (nodeInput_mem here)⟩
    · exact ⟨isDigest_components B r there, .inr (nodeInput_mem there)⟩
  obtain ⟨parts, hashed⟩ := digests p member
  obtain ⟨parts', hashed'⟩ := digests q member'
  exact nodeInput_inj parts parts' (input_eq collisionFree hashed hashed' same)

theorem apart_leaves (collisionFree : CollisionFree blake3 A B) :
    Apart (hashPair fun data => (blake3 data).text) (leavesOf blake3 A) (leavesOf blake3 B) := by
  intro x leaf p member same
  have node : nodeInput p ∈ hashedInputs blake3 A ∨ nodeInput p ∈ hashedInputs blake3 B :=
    member.imp nodeInput_mem nodeInput_mem
  rw [hashPair_eq] at same
  obtain ⟨row, hashed, rfl⟩ : ∃ row, (leafInput row ∈ hashedInputs blake3 A ∨
      leafInput row ∈ hashedInputs blake3 B) ∧ (blake3 (leafInput row)).text = x := by
    rw [leavesOf_eq, leavesOf_eq, List.mem_map, List.mem_map] at leaf
    rcases leaf with ⟨row, inside, rfl⟩ | ⟨row, inside, rfl⟩
    · exact ⟨row, .inl (leafInput_mem inside), rfl⟩
    · exact ⟨row, .inr (leafInput_mem inside), rfl⟩
  exact leafInput_ne_nodeInput row p (input_eq collisionFree node hashed same).symm

theorem nodup_leaves (collisionFree : CollisionFree blake3 A B) (plain : PlainHashes A)
    (distinct : (A.map ManifestEntry.filePath).Nodup) : (leavesOf blake3 A).Nodup := by
  rw [leavesOf_eq]
  refine (nodup_sortedRows plain distinct).map_on fun row member row' member' same => ?_
  exact leafInput_inj (input_eq collisionFree (.inl (leafInput_mem member))
    (.inl (leafInput_mem member')) same)

theorem CollisionFree.symm (collisionFree : CollisionFree blake3 A B) : CollisionFree blake3 B A :=
  fun _ member _ member' same => collisionFree member.symm member'.symm same

/-- The root of a tree with leaves is the first digest of its last level. -/
theorem root_eq_reading (nonempty : leavesOf blake3 A ≠ []) :
    ∃ top, (levelsFrom (hashPair fun data => (blake3 data).text) (leavesOf blake3 A)).getLast? =
        some top ∧ reading top 0 = some (manifestRootForEntries blake3 A) := by
  have levels := levelsFrom_ne_nil (hashPair fun data => (blake3 data).text) (leavesOf blake3 A)
  have found := List.getLast?_eq_some_getLast levels
  have present : (levelsFrom (hashPair fun data => (blake3 data).text) (leavesOf blake3 A)).getLast
      levels ≠ [] := by
    rw [List.getLast?_eq_getElem?] at found
    exact level_ne_nil _ nonempty found
  refine ⟨_, found, ?_⟩
  have tree : buildTree (fun data => (blake3 data).text) (manifestLeafHashes blake3 A) =
      ⟨leavesOf blake3 A, levelsFrom (hashPair fun data => (blake3 data).text) (leavesOf blake3 A)⟩ :=
    if_neg nonempty
  rw [manifestRootForEntries, tree, MerkleTree.root]
  simp only [found]
  rw [reading_of_lt (List.length_pos_iff.mpr present)]
  cases shape : (levelsFrom (hashPair fun data => (blake3 data).text) (leavesOf blake3 A)).getLast
    levels with
  | nil => exact absurd shape present
  | cons digest rest => rfl

/-- The root of no entries is the root of no others. -/
theorem root_ne_empty (collisionFree : CollisionFree blake3 A B) (empty : leavesOf blake3 A = [])
    (nonempty : leavesOf blake3 B ≠ []) :
    manifestRootForEntries blake3 A ≠ manifestRootForEntries blake3 B := by
  intro same
  have root : manifestRootForEntries blake3 A = (blake3 []).text := by
    have tree : buildTree (fun data => (blake3 data).text) (manifestLeafHashes blake3 A) = ⟨[], []⟩ :=
      if_pos empty
    rw [manifestRootForEntries, tree]
    rfl
  obtain ⟨top, found, here⟩ := root_eq_reading nonempty
  rw [← same, root] at here
  rw [List.getLast?_eq_getElem?] at found
  revert found
  generalize (levelsFrom (hashPair fun data => (blake3 data).text) (leavesOf blake3 B)).length - 1 =
    height
  intro found
  cases height with
  | zero =>
    rw [levelsFrom_zero] at found
    cases found
    have positive : 0 < (leavesOf blake3 B).length := List.length_pos_iff.mpr nonempty
    rw [reading_of_lt positive] at here
    have member := List.mem_of_getElem? here
    rw [leavesOf_eq, List.mem_map] at member
    obtain ⟨row, inside, equal⟩ := member
    exact (input_ne_nil row ("", "")).1 (input_eq collisionFree (.inr (leafInput_mem inside))
      (.inl (nil_mem A)) equal)
  | succ height =>
    obtain ⟨p, member, above⟩ := reading_above found 0
    rw [above, Option.some_inj, hashPair_eq] at here
    exact (input_ne_nil "" p).2 (input_eq collisionFree (.inr (nodeInput_mem member))
      (.inl (nil_mem A)) here)

/-- **The root binds the folder content.**  Where BLAKE3 has no collision among the byte strings
hashed, two manifests of distinct paths have one root exactly if they describe the same set of paths,
hashes and sizes. -/
theorem manifestRoot_eq_iff (plain : PlainHashes A) (plain' : PlainHashes B)
    (distinct : (A.map ManifestEntry.filePath).Nodup)
    (distinct' : (B.map ManifestEntry.filePath).Nodup) (collisionFree : CollisionFree blake3 A B) :
    manifestRootForEntries blake3 A = manifestRootForEntries blake3 B ↔
      ∀ item, item ∈ A.map rowOf ↔ item ∈ B.map rowOf := by
  rw [← sortedRows_eq_iff plain plain' distinct distinct']
  constructor
  · intro same
    have leaves : leavesOf blake3 A = leavesOf blake3 B := by
      by_cases empty : leavesOf blake3 A = []
      · by_cases empty' : leavesOf blake3 B = []
        · rw [empty, empty']
        · exact absurd same (root_ne_empty collisionFree empty empty')
      · by_cases empty' : leavesOf blake3 B = []
        · exact absurd same.symm (root_ne_empty collisionFree.symm empty' empty)
        · obtain ⟨top, found, here⟩ := root_eq_reading empty
          obtain ⟨top', found', here'⟩ := root_eq_reading empty'
          exact leaves_eq_of_root (separates_leaves collisionFree) (apart_leaves collisionFree) empty
            empty' (nodup_leaves collisionFree plain distinct)
            (nodup_leaves collisionFree.symm plain' distinct') found found' (by rw [here, here', same])
    rw [leavesOf_eq, leavesOf_eq] at leaves
    -- equal digests of two rows are digests of equal rows
    have lengths : (sortedRows A).length = (sortedRows B).length := by
      simpa using congrArg List.length leaves
    refine List.ext_getElem lengths fun i inside inside' => ?_
    have digests := congrArg (fun l => l[i]?) leaves
    simp only [List.getElem?_map, List.getElem?_eq_getElem inside, List.getElem?_eq_getElem inside',
      Option.map_some, Option.some_inj] at digests
    exact leafInput_inj (input_eq collisionFree (.inl (leafInput_mem (List.getElem_mem inside)))
      (.inr (leafInput_mem (List.getElem_mem inside'))) digests)
  · intro same
    rw [manifestRootForEntries, manifestRootForEntries, manifestLeafHashes, manifestLeafHashes, same]

end Root

/-- A digest function for the run below: the length of the data, in 64 equal digits. -/
def lengthDigest (data : Bytes) : HexDigest where
  text := String.ofList (List.replicate 64 (hexDigits.getD (data.length % 16) '0'))
  length_eq := by simp
  hex := by
    have listed : ∀ n < 16, hexDigits.getD n '0' ∈ hexDigits := by decide
    intro c member
    rw [String.toList_ofList, List.mem_replicate] at member
    rw [member.2]
    exact listed _ (Nat.mod_lt _ (by decide))

theorem lengthDigest_eq {data data' : Bytes} (same : lengthDigest data = lengthDigest data') :
    data.length % 16 = data'.length % 16 := by
  have distinct : ∀ m < 16, ∀ n < 16, hexDigits.getD m '0' = hexDigits.getD n '0' → m = n := by
    decide
  have texts := congrArg (fun d : HexDigest => d.text.toList.head?) same
  simp only [lengthDigest, String.toList_ofList, List.head?_replicate] at texts
  exact distinct _ (Nat.mod_lt _ (by decide)) _ (Nat.mod_lt _ (by decide)) (by simpa using texts)

def liveEntry : ManifestEntry := ⟨"a", some "h", some 1, none, .empty⟩
def tombstone : ManifestEntry := ⟨"b", none, none, none, .empty⟩

/-- The byte strings hashed for the two entries are of different lengths. -/
theorem collisionFree_lengthDigest :
    CollisionFree lengthDigest [liveEntry, tombstone] [liveEntry] := by
  have rows : sortedRows [liveEntry, tombstone] = ["a\x00h\x001", "b\x00\x000"] := by decide +kernel
  have row : sortedRows [liveEntry] = ["a\x00h\x001"] := by decide +kernel
  have live : (leafInput "a\x00h\x001").length = 10 := by decide +kernel
  have dead : (leafInput "b\x00\x000").length = 9 := by decide +kernel
  have node : ∀ d e : HexDigest, (nodeInput (d.text, e.text)).length = 69 := by
    intro d e
    have width : ∀ f : HexDigest, f.text.toList.length = 64 := fun f => f.length_eq
    rw [nodeInput, List.length_append, List.length_append, length_fromHex, length_fromHex, width,
      width]
    rfl
  rintro data member data' member' same
  have lengths := lengthDigest_eq same
  simp only [hashedInputs, leavesOf_eq, rows, row, List.map_cons, List.map_nil,
    combinedPairs_singleton, combinedPairs_pair, List.cons_append, List.nil_append, List.append_nil,
    List.mem_cons, List.not_mem_nil, or_false, Set.mem_ofPred_eq] at member member'
  rcases member with (rfl | rfl | rfl | rfl) | rfl | rfl <;>
    rcases member' with (rfl | rfl | rfl | rfl) | rfl | rfl <;>
    first
    | rfl
    | simp [live, dead, node] at lengths

theorem manifestRoot_live_and_tombstone :
    manifestRootForEntries lengthDigest [liveEntry, tombstone] =
        manifestRootForEntries lengthDigest [liveEntry] ↔
      ∀ item, item ∈ [liveEntry, tombstone].map rowOf ↔ item ∈ [liveEntry].map rowOf :=
  manifestRoot_eq_iff (by unfold PlainHashes; decide) (by unfold PlainHashes; decide) (by decide)
    (by decide) collisionFree_lengthDigest

end OneLink.Merkle
