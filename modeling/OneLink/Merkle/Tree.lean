/-
# Merkle.Tree — the trees of `merkle.py` and the walk that compares two of them

`build_tree` keeps every level of the tree.  `divergent_leaf_indexes` walks two trees
from the top at once and leaves a subtree where the digests agree.

The leaves are strings of 64 hexadecimal digits, as a type; of `_validate_hash` what
is left is the lower case it returns.  BLAKE3 is a parameter.
-/
import OneLink.Library.MerkleLevels
import OneLink.Library.Framing

namespace OneLink.Merkle

open Library

set_option autoImplicit false

def isHexDigit (c : Char) : Bool :=
  ('0' ≤ c && c ≤ '9') || ('a' ≤ c && c ≤ 'f') || ('A' ≤ c && c ≤ 'F')

/-- A hash of 64 hexadecimal digits, of either case. -/
structure LeafHash where
  text : String
  length_eq : text.length = 64
  hex : text.toList.all isHexDigit = true

/-- `_validate_hash`: both checks hold of a `LeafHash`. -/
def validateHash (h : LeafHash) : String := h.text.toLower

def hexValue (c : Char) : Nat :=
  if c ≤ '9' then c.toNat - '0'.toNat else c.toLower.toNat - 'a'.toNat + 10

/-- `bytes.fromhex` on hexadecimal digits. -/
def fromHex : List Char → Bytes
  | high :: low :: rest => UInt8.ofNat (hexValue high * 16 + hexValue low) :: fromHex rest
  | _ => []

structure MerkleTree where
  leaves : List String
  levels : List (List String)
  deriving DecidableEq

/-- `b"node\x00"` -/
def nodeTag : Bytes := [110, 111, 100, 101, 0]

section Blake3

/- `blake3.blake3(data).hexdigest()` -/
variable (blake3 : Bytes → String)

/-- `EMPTY_HASH` -/
def emptyHash : String := blake3 []

def hashPair (left right : String) : String :=
  blake3 (nodeTag ++ fromHex left.toList ++ fromHex right.toList)

def buildTree (leafHashes : List LeafHash) : MerkleTree :=
  let leaves := leafHashes.map validateHash
  if leaves = [] then ⟨[], []⟩ else ⟨leaves, levelsFrom (hashPair blake3) leaves⟩

/-- `self.levels[-1][0] if self.levels else EMPTY_HASH` -/
def MerkleTree.root (t : MerkleTree) : String :=
  match t.levels.getLast? with
  | none => emptyHash blake3
  | some top => top.headD (emptyHash blake3)

end Blake3

namespace MerkleTree

def leafCount (t : MerkleTree) : Nat := t.leaves.length

/-- `_digest_at` -/
def digestAt (t : MerkleTree) (level idx : Nat) : Option String :=
  match t.levels[level]? with
  | none => none
  | some values =>
    -- Odd leaf counts are padded upward by duplicating the final digest.
    if idx < values.length then values[idx]? else values.getLast?

end MerkleTree

/-- The positions `walk` appends, below a node. -/
def walk (here there : MerkleTree) (maxLen level idx start width : Nat) : List Nat :=
  if maxLen ≤ start then []
  else if here.digestAt level idx = there.digestAt level idx then []
  else
    match level with
    | 0 => if start < maxLen then [start] else []
    | level + 1 =>
      if width ≤ 1 then if start < maxLen then [start] else []
      else
        let half := max 1 (width / 2)
        walk here there maxLen level (idx * 2) start half ++
          walk here there maxLen level (idx * 2 + 1) (start + half) half

def divergentLeafIndexes (blake3 : Bytes → String) (here there : MerkleTree) : List Nat :=
  if here.root blake3 = there.root blake3 ∧ here.leafCount = there.leafCount then []
  else
    let maxLen := max here.leafCount there.leafCount
    if here.leaves = [] then List.range there.leafCount
    else if there.leaves = [] then List.range here.leafCount
    else
      let height := max here.levels.length there.levels.length - 1
      walk here there maxLen height 0 0 (1 <<< height)

end OneLink.Merkle
