import Zvmone.Library.HexPrefix
import Zvmone.Library.Patricia
import Zvmone.State.Rlp

/-! # The Merkle Patricia tree

`Path`, `MPTNode` and `MPT` of `mpt.cpp`. Assertions make the operations partial: `none` stands for
a failed one. A node of the source has one kind and the fields of all kinds; here it is a node of a
Patricia trie over nibbles, where every kind has the fields it uses, an extension node its only
child and a branch its sixteen slots. -/

namespace Zvmone

/-- `Path`: the nibbles of a path, 64 at most. -/
abbrev Path := List (Fin 16)

namespace Path

/-- The constructor of a path from a key. -/
def ofKey (key : Bytes) : Option Path :=
  if 2 * key.length ≤ 64 then
    some (key.flatMap fun b => [Fin.ofNat 16 (b.toNat >>> 4), Fin.ofNat 16 (b.toNat &&& 0x0f)])
  else none

/-- `tail`. -/
def tail (p : Path) (pos : Nat) : Option Path :=
  if 0 < pos ∧ pos ≤ p.length then some (p.drop pos) else none

/-- `head`. -/
def head (p : Path) (size : Nat) : Option Path :=
  if size < p.length then some (p.take size) else none

/-- The loop of `encode`: two nibbles a byte. -/
def encodeNibbles : Path → Bytes
  | h :: l :: p => UInt8.ofNat (h.val <<< 4 ||| l.val) :: encodeNibbles p
  | _ => []

/-- `encode`. -/
def encode (p : Path) (extended : Bool) : Bytes :=
  let flag : UInt8 := if extended then 0x00 else 0x20
  match p.length % 2, p with
  | 1, n :: p => ((0x10 ||| UInt8.ofNat n.val) ||| flag) :: encodeNibbles p
  | _, p => (0x00 ||| flag) :: encodeNibbles p

/-- `mismatch` for paths whose first is not longer: the position at which they differ. -/
def mismatchPos : Path → Path → Nat
  | a :: p, b :: q => if a = b then mismatchPos p q + 1 else 0
  | _, _ => 0

/-- `mismatch`. -/
def mismatch (p1 p2 : Path) : Option Nat :=
  if p1.length ≤ p2.length then some (mismatchPos p1 p2) else none

end Path

/-- `MPTNode`, or a null pointer, which is the empty trie. -/
abbrev MPTNode := Patricia (Fin 16) Bytes

namespace MPTNode

open Patricia

/-- `ext`: creates an extended node. -/
def mkExt (path : Path) (child : MPTNode) : Option MPTNode :=
  if child.isBranch then some (.ext path child) else none

/-- `optional_ext`. -/
def optionalExt (path : Path) (child : MPTNode) : Option MPTNode :=
  if path.length ≠ 0 then mkExt path child else some child

/-- `ext_branch`. -/
def extBranch (path : Path) (idx1 : Fin 16) (child1 : MPTNode) (idx2 : Fin 16) (child2 : MPTNode) :
    Option MPTNode :=
  if idx1 = idx2 then none
  else
    let br := .branch fun i => if i = idx1 then child1 else if i = idx2 then child2 else .empty
    if path.length ≠ 0 then mkExt path br else some br

/-- `insert`; at a null pointer, the creation of a leaf for the rest of the path. A nibble beyond
the length of a path is 0, as in the zero-initialised array. -/
def insert : MPTNode → Path → Bytes → Option MPTNode
  | .empty, path, value => some (.leaf path value)
  | .branch children, path, value => do
    let idx := path.getD 0 0
    let child ← insert (children idx) (← Path.tail path 1) value
    return .branch fun i => if i = idx then child else children i
  | .ext mpath child, path, value => do
    guard (mpath.length ≠ 0)
    let mismatchPos ← Path.mismatch mpath path
    if mismatchPos = mpath.length then
      return .ext mpath (← insert child (← Path.tail path mismatchPos) value)
    else
      let origIdx := mpath.getD mismatchPos 0
      let newIdx := path.getD mismatchPos 0
      let origBranch ← optionalExt (← Path.tail mpath (mismatchPos + 1)) child
      let newLeaf := .leaf (← Path.tail path (mismatchPos + 1)) value
      extBranch (← Path.head mpath mismatchPos) origIdx origBranch newIdx newLeaf
  | .leaf mpath mvalue, path, value => do
    guard (mpath.length ≠ 0)
    let mismatchPos ← Path.mismatch mpath path
    guard (mismatchPos ≠ mpath.length)
    let origIdx := mpath.getD mismatchPos 0
    let newIdx := path.getD mismatchPos 0
    let origLeaf := .leaf (← Path.tail mpath (mismatchPos + 1)) mvalue
    let newLeaf := .leaf (← Path.tail path (mismatchPos + 1)) value
    extBranch (← Path.head mpath mismatchPos) origIdx origLeaf newIdx newLeaf

/-- `hash`. An empty slot of a branch is an empty item, and so is the list terminator. -/
def hash [Ethash] : MPTNode → Option Bytes32
  | .empty => none
  | .leaf path value => do
    let rlp ← Rlp.encodeTuple [Rlp.encode (Path.encode path false), Rlp.encode value]
    return Ethash.keccak256 rlp
  | .branch children => do
    let childrenHashBytes ← (List.ofFn fun i =>
      if (children i).isEmpty then some [] else (hash (children i)).map Bytes32.bytes).mapM id
    let rlp ← Rlp.encodeContainer Rlp.encode (childrenHashBytes ++ [[]])
    return Ethash.keccak256 rlp
  | .ext path child => do
    let childHash ← hash child
    let rlp ← Rlp.encodeTuple [Rlp.encode (Path.encode path true), Rlp.encode (Bytes32.bytes childHash)]
    return Ethash.keccak256 rlp

end MPTNode

/-- `emptyMPTHash`. -/
def emptyMPTHash : Bytes32 := 0x56e81f171bcc55a6ff8345e692c0f86e5b48e01b996cadc001622fb5e363b421

/-- `MPT`: the pointer to the root node. -/
structure MPT where
  root : MPTNode := .empty

namespace MPT

/-- `insert`. -/
def insert (t : MPT) (key value : Bytes) : Option MPT := do
  return ⟨← t.root.insert (← Path.ofKey key) value⟩

/-- Insert pairs in the given order. -/
def insertAll (t : MPT) (pairs : List (Bytes × Bytes)) : Option MPT :=
  pairs.foldlM (fun t p => t.insert p.1 p.2) t

/-- `hash`. -/
def hash [Ethash] (t : MPT) : Option Bytes32 :=
  if t.root.isEmpty then some emptyMPTHash else t.root.hash

end MPT

end Zvmone
