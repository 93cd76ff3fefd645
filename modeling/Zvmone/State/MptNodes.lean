import Zvmone.State.MptInsert
import Zvmone.State.RlpSteps

/-! # Nodes of the Merkle Patricia tree as objects

`MPTNode` with the fields that every kind of node has in the source. The operations on Patricia
tries are these operations on the objects of canonical tries (`MPTNodePtr.insert_ofTrie`), so the
objects built by insertions in an admissible order hold exactly the inserted pairs and do not
depend on the order (`MPTNodePtr.insertAll_exact_canonical`). -/

namespace Zvmone

/-- `MPTNode::Kind`. -/
inductive MPTNodeKind
  | leaf
  | ext
  | branch
  deriving DecidableEq

/-- A pointer to an `MPTNode`: null, or a node with its kind, path, value and children. -/
inductive MPTNodePtr
  | null
  | node (kind : MPTNodeKind) (path : Path) (value : Bytes) (children : Fin 16 → MPTNodePtr)

namespace MPTNodePtr

/-- The pointer is null. -/
def isNull : MPTNodePtr → Bool
  | .null => true
  | _ => false

/-- The kind of a node that the pointer points to. -/
def kind? : MPTNodePtr → Option MPTNodeKind
  | .null => none
  | .node kind _ _ _ => some kind

/-- `leaf`: creates new leaf node. -/
def leaf (path : Path) (value : Bytes) : MPTNodePtr := .node .leaf path value fun _ => .null

/-- `ext`: creates an extended node. -/
def ext (path : Path) (child : MPTNodePtr) : Option MPTNodePtr :=
  if child.kind? = some .branch then
    some (.node .ext path [] fun i => if i = 0 then child else .null)
  else none

/-- `optional_ext`. -/
def optionalExt (path : Path) (child : MPTNodePtr) : Option MPTNodePtr :=
  if path.length ≠ 0 then ext path child else some child

/-- `ext_branch`. -/
def extBranch (path : Path) (idx1 : Fin 16) (child1 : MPTNodePtr) (idx2 : Fin 16)
    (child2 : MPTNodePtr) : Option MPTNodePtr :=
  if idx1 = idx2 then none
  else
    let br := .node .branch [] [] fun i =>
      if i = idx1 then child1 else if i = idx2 then child2 else .null
    if path.length ≠ 0 then ext path br else some br

/-- `insert`; at a null pointer, the creation of a leaf for the rest of the path. -/
def insert : MPTNodePtr → Path → Bytes → Option MPTNodePtr
  | .null, path, value => some (leaf path value)
  | .node .branch mpath mvalue children, path, value => do
    guard (mpath.length = 0)
    let idx := path.getD 0 0
    let child ← insert (children idx) (← Path.tail path 1) value
    return .node .branch mpath mvalue fun i => if i = idx then child else children i
  | .node .ext mpath mvalue children, path, value => do
    guard (mpath.length ≠ 0)
    let mismatchPos ← Path.mismatch mpath path
    if mismatchPos = mpath.length then
      -- The child is not created here: a null pointer would be dereferenced.
      guard ((children 0).isNull = false)
      let child ← insert (children 0) (← Path.tail path mismatchPos) value
      return .node .ext mpath mvalue fun i => if i = 0 then child else children i
    else
      let origIdx := mpath.getD mismatchPos 0
      let newIdx := path.getD mismatchPos 0
      let origBranch ← optionalExt (← Path.tail mpath (mismatchPos + 1)) (children 0)
      let newLeaf := leaf (← Path.tail path (mismatchPos + 1)) value
      extBranch (← Path.head mpath mismatchPos) origIdx origBranch newIdx newLeaf
  | .node .leaf mpath mvalue _, path, value => do
    guard (mpath.length ≠ 0)
    let mismatchPos ← Path.mismatch mpath path
    guard (mismatchPos ≠ mpath.length)
    let origIdx := mpath.getD mismatchPos 0
    let newIdx := path.getD mismatchPos 0
    let origLeaf := leaf (← Path.tail mpath (mismatchPos + 1)) mvalue
    let newLeaf := leaf (← Path.tail path (mismatchPos + 1)) value
    extBranch (← Path.head mpath mismatchPos) origIdx origLeaf newIdx newLeaf

/-- `MPT::insert` of pairs in the given order. -/
def insertAll (root : MPTNodePtr) (pairs : List (Bytes × Bytes)) : Option MPTNodePtr :=
  pairs.foldlM (fun root p => do insert root (← Path.ofKey p.1) p.2) root

/-- The full paths and the values of the leaves, with multiplicity. -/
def leaves : MPTNodePtr → Multiset (Path × Bytes)
  | .null => 0
  | .node .leaf path value _ => {(path, value)}
  | .node .ext path _ children => (children 0).leaves.map fun e => (path ++ e.1, e.2)
  | .node .branch path _ children =>
      (Finset.univ : Finset (Fin 16)).val.bind fun i =>
        (children i).leaves.map fun e => (path ++ i :: e.1, e.2)

/-- Extensions have a path and a branch as their only child, branches have no path and two children
at least, and leaves have no child. -/
def Canonical : MPTNodePtr → Prop
  | .null => True
  | .node .leaf _ _ children => ∀ i, children i = .null
  | .node .ext path _ children =>
      path ≠ [] ∧ (children 0).kind? = some .branch ∧ (children 0).Canonical ∧
        ∀ i ≠ 0, children i = .null
  | .node .branch path _ children =>
      path = [] ∧
        (∃ i j, i ≠ j ∧ (children i).isNull = false ∧ (children j).isNull = false) ∧
        ∀ i, (children i).Canonical

/-- The objects of a trie. -/
def ofTrie : MPTNode → MPTNodePtr
  | .empty => .null
  | .leaf path value => leaf path value
  | .ext path child => .node .ext path [] fun i => if i = 0 then ofTrie child else .null
  | .branch children => .node .branch [] [] fun i => ofTrie (children i)

variable {t child : MPTNode} {path : Path} {value : Bytes}

/-- The empty trie is the null pointer. -/
@[simp] theorem isNull_ofTrie (t : MPTNode) : (ofTrie t).isNull = t.isEmpty := by
  cases t <;> rfl

/-- Branches are nodes of their kind. -/
@[simp] theorem kind?_ofTrie (t : MPTNode) : (ofTrie t).kind? = some .branch ↔ t.isBranch := by
  cases t <;> simp [ofTrie, kind?, leaf, Patricia.isBranch]

/-- The leaves are the same. -/
theorem leaves_ofTrie (t : MPTNode) : (ofTrie t).leaves = t.leaves := by
  induction t with
  | empty => rfl
  | leaf path value => rfl
  | ext path child ih => rw [ofTrie, leaves, if_pos rfl, ih, Patricia.leaves]
  | branch children ih =>
    rw [ofTrie, leaves, Patricia.leaves]
    simp only [ih, List.nil_append]

/-- The objects of canonical tries are canonical. -/
theorem canonical_ofTrie (ht : t.Canonical) : (ofTrie t).Canonical := by
  induction t with
  | empty => trivial
  | leaf path value => exact fun _ => rfl
  | ext path child ih =>
    obtain ⟨hpath, hbranch, hchild⟩ := ht
    exact ⟨hpath, (kind?_ofTrie child).mpr hbranch, ih hchild, fun i hi => if_neg hi⟩
  | branch children ih =>
    obtain ⟨⟨a, b, hab, ha, hb⟩, hchildren⟩ := ht
    refine ⟨rfl, ⟨a, b, hab, ?_, ?_⟩, fun i => ih i (hchildren i)⟩
    · rwa [isNull_ofTrie]
    · rwa [isNull_ofTrie]

/-! ### The operations on objects and on tries -/

/-- Making an extension. -/
theorem ext_ofTrie (path : Path) (child : MPTNode) :
    ext path (ofTrie child) = (MPTNode.mkExt path child).map ofTrie := by
  unfold ext MPTNode.mkExt
  by_cases h : child.isBranch
  · rw [if_pos ((kind?_ofTrie child).mpr h), if_pos h]
    rfl
  · rw [if_neg (mt (kind?_ofTrie child).mp h), if_neg h]
    rfl

/-- Making an extension with a path, if there is one. -/
theorem optionalExt_ofTrie (path : Path) (child : MPTNode) :
    optionalExt path (ofTrie child) = (MPTNode.optionalExt path child).map ofTrie := by
  unfold optionalExt MPTNode.optionalExt
  split
  · exact ext_ofTrie path child
  · rfl

/-- Making a branch, behind an extension if there is a path. -/
theorem extBranch_ofTrie (path : Path) (idx1 idx2 : Fin 16) (child1 child2 : MPTNode) :
    extBranch path idx1 (ofTrie child1) idx2 (ofTrie child2)
      = (MPTNode.extBranch path idx1 child1 idx2 child2).map ofTrie := by
  let br : MPTNode := .branch fun i =>
    if i = idx1 then child1 else if i = idx2 then child2 else .empty
  have hbr : ofTrie br = .node .branch [] [] fun i =>
      if i = idx1 then ofTrie child1 else if i = idx2 then ofTrie child2 else .null := by
    refine congrArg (node .branch [] []) (funext fun i => ?_)
    simp only [apply_ite ofTrie]
    rfl
  unfold extBranch MPTNode.extBranch
  split
  · rfl
  · rw [← hbr]
    exact optionalExt_ofTrie path br

/-- Insertion into the objects of a canonical trie. -/
theorem insert_ofTrie (ht : t.Canonical) (path : Path) (value : Bytes) :
    insert (ofTrie t) path value = (MPTNode.insert t path value).map ofTrie := by
  induction t generalizing path with
  | empty => rfl
  | leaf mpath mvalue =>
    rw [ofTrie, leaf, insert, MPTNode.insert]
    simp only [Option.bind_eq_bind, Option.map_bind, Function.comp_def, ← extBranch_ofTrie, ofTrie]
  | ext mpath child ih =>
    obtain ⟨-, hbranch, hchild⟩ := ht
    have hnull : (ofTrie child).isNull = false :=
      (isNull_ofTrie child).trans (Patricia.isEmpty_of_isBranch hbranch)
    have hslot : ∀ c : MPTNodePtr, (fun i : Fin 16 => if i = 0 then c else
        if i = 0 then ofTrie child else .null) = fun i => if i = 0 then c else .null := by
      intro c
      funext i
      split <;> rfl
    have hguard : ∀ {p : Prop} [Decidable p], p → (guard p : Option Unit) = some () := fun h =>
      if_pos h
    rw [ofTrie, insert, MPTNode.insert]
    simp only [Option.bind_eq_bind, Option.map_bind, Function.comp_def]
    refine Option.bind_congr fun _ _ => Option.bind_congr fun mismatchPos _ => ?_
    by_cases hpos : mismatchPos = mpath.length
    · -- The paths match: both go into the child.
      simp only [if_pos hpos, if_true, hguard hnull, Option.bind_some, ih hchild, Option.bind_map,
        Option.map_bind, Function.comp_def, hslot]
      rfl
    · simp only [if_neg hpos, if_true, optionalExt_ofTrie, Option.bind_map, Option.map_bind,
        Function.comp_def, ← extBranch_ofTrie]
      rfl
  | branch children ih =>
    have hslot : ∀ (c : MPTNode) idx, (fun i => if i = idx then ofTrie c else ofTrie (children i))
        = fun i => ofTrie (if i = idx then c else children i) := by
      intro c idx
      funext i
      rw [apply_ite ofTrie]
    rw [ofTrie, insert, MPTNode.insert]
    simp only [Option.bind_eq_bind, Option.map_bind, Function.comp_def, ih _ (ht.2 _),
      Option.bind_map, hslot]
    rfl

/-- Inserting pairs in an admissible order gives the objects of the trie. -/
theorem insertAll_ofTrie {t : MPT} {pairs : List (Bytes × Bytes)} (h : MPT.Admissible pairs)
    (ht : t.root.Canonical) (hadmits : ∀ p ∈ pairs, t.root.Admits (HexPrefix.nibbles p.1)) :
    insertAll (ofTrie t.root) pairs = (MPT.insertAll t pairs).map fun t => ofTrie t.root := by
  induction pairs generalizing t with
  | nil => rfl
  | cons p pairs ih =>
    obtain ⟨t₁, hinsert, hcanonical, hadmits', -⟩ := h.insert_step ht hadmits
    have hstep : (do insert (ofTrie t.root) (← Path.ofKey p.1) p.2) = some (ofTrie t₁.root) := by
      simp only [MPT.insert, Option.bind_eq_bind, Option.bind_eq_some_iff] at hinsert
      obtain ⟨path, hpath, root, hroot, heq⟩ := hinsert
      obtain rfl := Option.some.inj heq
      rw [hpath, Option.bind_eq_bind, Option.bind_some, insert_ofTrie ht, hroot]
      rfl
    rw [insertAll, List.foldlM_cons, hstep, MPT.insertAll, List.foldlM_cons, hinsert]
    exact ih h.tail hcanonical hadmits'

/-- The objects that pairs in an admissible order build. -/
theorem insertAll_null {pairs : List (Bytes × Bytes)} (h : MPT.Admissible pairs) :
    ∃ t : MPT, MPT.insertAll {} pairs = some t ∧ t.root.Canonical ∧
      t.root.Represents (MPT.pathsOf pairs) ∧ insertAll .null pairs = some (ofTrie t.root) := by
  obtain ⟨t, hall, hcanonical, hrep⟩ := h.represents
  refine ⟨t, hall, hcanonical, hrep, ?_⟩
  have hrun := insertAll_ofTrie (t := {}) h trivial fun _ _ _ _ hk => absurd hk id
  rw [hall] at hrun
  exact hrun

end MPTNodePtr

/-! ### Encoded indexes -/

/-- The keys under which the elements of a list are inserted: the encoded indexes. -/
def indexKeys (count : Nat) : Option (List Bytes) :=
  ((List.range count).map fun i => Rlp.encodeUInt64 (BitVec.ofNat 64 i)).mapM id

/-- The encoded indices up to a number. -/
theorem indexKeys_eq {count : Nat} (h : count ≤ 2 ^ 64) :
    indexKeys count = some ((List.range count).map fun i => RLP.string (RLP.bigEndian i)) := by
  have hkeys : (List.range count).map (fun i => Rlp.encodeUInt64 (BitVec.ofNat 64 i))
      = ((List.range count).map fun i => RLP.string (RLP.bigEndian i)).map some := by
    rw [List.map_map]
    refine List.map_congr_left fun i hi => ?_
    have hlt : i < 2 ^ 64 := (List.mem_range.mp hi).trans_le h
    rw [Rlp.encodeUInt64_eq, BitVec.toNat_ofNat, Nat.mod_eq_of_lt hlt]
    rfl
  rw [indexKeys, hkeys, Rlp.mapM_some]

/-- The encoded indexes are prefix-free, and none is shorter than an earlier one. -/
theorem admissible_indexKeys {values : List Bytes} (h : values.length ≤ 2 ^ 64) :
    ∃ keys, indexKeys values.length = some keys ∧ MPT.Admissible (keys.zip values) := by
  refine ⟨_, indexKeys_eq h, ?_⟩
  set keys := (List.range values.length).map fun i => RLP.string (RLP.bigEndian i) with hkeys
  have hfst : (keys.zip values).map Prod.fst = keys :=
    List.map_fst_zip (by rw [hkeys, List.length_map, List.length_range])
  have hsmall : ∀ {i : Nat}, i < 2 ^ 64 → (RLP.bigEndian i).length ≤ 8 := fun hi =>
    RLP.length_bigEndian_le (by simpa using hi)
  -- What two indexes say about their keys.
  have hpair : ∀ {i j : Nat}, i < j → j < 2 ^ 64 →
      ¬ RLP.string (RLP.bigEndian i) <+: RLP.string (RLP.bigEndian j) ∧
      ¬ RLP.string (RLP.bigEndian j) <+: RLP.string (RLP.bigEndian i) := by
    intro i j hij hj
    have hi8 := hsmall (hij.trans hj)
    have hj8 := hsmall hj
    have hitem : ∀ {n : Nat}, (RLP.bigEndian n).length ≤ 8 →
        RLP.IsItem (RLP.string (RLP.bigEndian n)) := fun hn => .string (by omega)
    have hne : RLP.string (RLP.bigEndian i) ≠ RLP.string (RLP.bigEndian j) := fun heq =>
      hij.ne (RLP.bigEndian_inj (RLP.string_inj (by omega) (by omega) heq))
    exact ⟨fun h => hne ((hitem hi8).eq_of_startsWith (hitem hj8) h),
      fun h => hne ((hitem hj8).eq_of_startsWith (hitem hi8) h).symm⟩
  have hall : ∀ {R : Bytes → Bytes → Prop}, (∀ {i j : Nat}, i < j → j < 2 ^ 64 →
      R (RLP.string (RLP.bigEndian i)) (RLP.string (RLP.bigEndian j))) →
      (keys.zip values).Pairwise fun p q => R p.1 q.1 := by
    intro R hR
    rw [← List.pairwise_map (f := Prod.fst), hfst, hkeys, List.pairwise_map]
    refine List.pairwise_lt_range.imp_of_mem fun _ hj hij => hR hij ?_
    exact (List.mem_range.mp hj).trans_le h
  have hordered : (keys.zip values).Pairwise fun p q => p.1.length ≤ q.1.length :=
    hall (R := fun k l => k.length ≤ l.length) fun hij hj =>
      RLP.length_string_bigEndian_mono hij.le hj
  have hprefixFree : (keys.zip values).Pairwise fun p q => ¬ p.1 <+: q.1 ∧ ¬ q.1 <+: p.1 :=
    hall (R := fun k l => ¬ k <+: l ∧ ¬ l <+: k) hpair
  refine ⟨fun p hp => ?_, hprefixFree, hordered⟩
  have hmem : p.1 ∈ keys := hfst ▸ List.mem_map_of_mem hp
  obtain ⟨i, hi, heq⟩ := List.mem_map.mp hmem
  have hi8 := hsmall ((List.mem_range.mp hi).trans_le h)
  have hle := RLP.length_string_le (hi8.trans (by decide))
  rw [← heq]
  omega

namespace MPTNodePtr

/-- Insertion is exact and canonical: pairs in an admissible order are inserted without a failed
assertion, the leaves of the tree are exactly these pairs, and the tree is canonical and does not
depend on the order. Keys of one length are admissible in every order, and so are encoded
indexes in increasing order. -/
theorem insertAll_exact_canonical :
    (∀ pairs, MPT.Admissible pairs →
      (∀ p ∈ pairs, Path.ofKey p.1 = some (HexPrefix.nibbles p.1)) ∧
      ∃ root, insertAll .null pairs = some root ∧
        root.leaves = (pairs.map fun p => (HexPrefix.nibbles p.1, p.2) : List (Path × Bytes)) ∧
        root.Canonical) ∧
    (∀ pairs pairs', MPT.Admissible pairs → MPT.Admissible pairs' → pairs.Perm pairs' →
      insertAll .null pairs = insertAll .null pairs') ∧
    (∀ (len : Nat) (pairs pairs' : List (Bytes × Bytes)), len ≤ 32 →
      (∀ p ∈ pairs, p.1.length = len) → (pairs.map Prod.fst).Nodup → pairs'.Perm pairs →
      MPT.Admissible pairs') ∧
    ∀ values : List Bytes, values.length ≤ 0xffff →
      ∃ keys, indexKeys values.length = some keys ∧ MPT.Admissible (keys.zip values) := by
  refine ⟨fun pairs h => ?_, fun pairs pairs' h h' hperm => ?_,
    fun len pairs pairs' hlen hkeys hdistinct hperm => ?_, fun values hlen => ?_⟩
  · obtain ⟨t, -, hcanonical, hrep, hnodes⟩ := insertAll_null h
    refine ⟨fun p hp => Path.ofKey_eq (h.short p hp), _, hnodes, ?_, canonical_ofTrie hcanonical⟩
    rw [leaves_ofTrie, hrep.leaves_eq]
    rfl
  · obtain ⟨t, -, hcanonical, hrep, hnodes⟩ := insertAll_null h
    obtain ⟨t', -, hcanonical', hrep', hnodes'⟩ := insertAll_null h'
    -- Canonical tries with the same entries are the same trie.
    have heq : t.root = t'.root := by
      refine Patricia.eq_of_contains_iff hcanonical hcanonical' fun key w => ?_
      rw [hrep.2, hrep'.2]
      exact (hperm.map _).mem_iff
    rw [hnodes, hnodes', heq]
  · refine MPT.admissible_of_length hlen (fun p hp => hkeys p (hperm.mem_iff.mp hp)) ?_
    exact (hperm.map _).nodup_iff.mpr hdistinct
  · exact admissible_indexKeys (hlen.trans (by decide))

end MPTNodePtr

end Zvmone
