import Zvmone.State.MptRoot
import Zvmone.State.PathEncoding

/-! # Short nodes of the Merkle Patricia tree

`MPTNode::hash` hashes every child, the Yellow Paper embeds the children of fewer than 32 bytes. The
two roots agree for every hash function exactly when no leaf below the root is that short
(`MPT.hash_eq_root_iff`): every short node has a short leaf, and a hash function that marks the
short leaves and everything that refers to a marked node tells the two roots apart. -/

namespace Zvmone

open Patricia

namespace MPTNode

variable {t : MPTNode} {n : Nat}

/-- The payload of the leaf is within the limit of the RLP encoder. -/
def Fits (path : Path) (value : Bytes) : Prop := (leafItems path value).flatten.length ≤ Rlp.maxLength

instance : DecidableRel Fits := fun _ _ => inferInstanceAs (Decidable (_ ≤ _))

/-- The encoding of the leaf is not embedded in its parent. -/
def IsLong (path : Path) (value : Bytes) : Prop := 32 ≤ (RLP.list (leafItems path value)).length

instance : DecidableRel IsLong := fun _ _ => inferInstanceAs (Decidable (_ ≤ _))

/-! ### Sizes -/

/-- A hash is put into a node with one byte in front. -/
theorem length_hash (x : Bytes32) : (RLP.string (Bytes32.bytes x)).length = 33 := by
  have hlen : (Bytes32.bytes x).length = 32 := BigEndian.length_store 32 _
  rw [RLP.length_string_of_ne_one (by omega) (by omega), hlen]

/-- An encoded path of a tree for 32-byte keys has at most 34 bytes. -/
theorem length_path {path : Path} (h : path.length ≤ 64) (flag : Bool) :
    (RLP.string (HexPrefix.encode path flag)).length ≤ 34 := by
  have hlen := HexPrefix.length_encode path flag
  have hle : (RLP.string (HexPrefix.encode path flag)).length
      ≤ (HexPrefix.encode path flag).length + 1 := RLP.length_string_le (by omega)
  omega

/-- Items of bounded length make a payload of bounded length. -/
theorem length_flatten_ofFn_le {k b : Nat} {f : Fin k → Bytes} (h : ∀ i, (f i).length ≤ b) :
    (List.ofFn f).flatten.length ≤ k * b := by
  induction k with
  | zero => simp
  | succ k ih =>
    rw [List.ofFn_succ, List.flatten_cons, List.length_append, Nat.succ_mul]
    have hrest := ih fun i => h i.succ
    have hfirst := h 0
    omega

/-! ### What the code hashes -/

variable [Ethash]

/-- The item of a child in the code: its hash. -/
def hashReference (c : Bytes) : Bytes := RLP.string (Bytes32.bytes (Ethash.keccak256 c))

/-- A leaf that fits is hashed. -/
theorem hash_leaf_of_fits {path : Path} {value : Bytes} (hpath : path.length ≤ 64)
    (h : Fits path value) :
    hash (.leaf path value) = some (Ethash.keccak256 (RLP.list (leafItems path value))) := by
  have hvalue : value.length ≤ Rlp.maxLength := by
    have hle := RLP.length_le_length_string value
    have hflatten : (leafItems path value).flatten.length ≤ Rlp.maxLength := h
    simp only [leafItems, List.flatten_cons, List.flatten_nil, List.length_append] at hflatten
    omega
  have hkey : (HexPrefix.encode path true).length ≤ Rlp.maxLength := by
    rw [HexPrefix.length_encode, Rlp.maxLength]
    omega
  have htuple : Rlp.encodeTuple ((leafItems path value).map some) = _ := Rlp.encodeTuple_eq h
  rw [hash, Path.encode_eq, Bool.not_false, Rlp.encode_eq hkey, Rlp.encode_eq hvalue]
  exact congrArg (· >>= fun rlp => pure (Ethash.keccak256 rlp)) htuple

/-- The hash of a leaf that does not fit throws. -/
theorem hash_leaf_eq_none {path : Path} {value : Bytes} (hpath : path.length ≤ 64)
    (h : ¬ Fits path value) : hash (.leaf path value) = none := by
  have hkey : (HexPrefix.encode path true).length ≤ Rlp.maxLength := by
    rw [HexPrefix.length_encode, Rlp.maxLength]
    omega
  rw [hash, Path.encode_eq, Bool.not_false, Rlp.encode_eq hkey]
  by_cases hvalue : value.length ≤ Rlp.maxLength
  · have htuple : Rlp.encodeTuple ((leafItems path value).map some) = none :=
      Rlp.encodeTuple_eq_none (Nat.lt_of_not_le h)
    rw [Rlp.encode_eq hvalue]
    exact congrArg (· >>= fun rlp => pure (Ethash.keccak256 rlp)) htuple
  · rw [Rlp.encode_eq_none (by omega)]
    rfl

/-- An extension is hashed with the hash of its child. -/
theorem hash_ext {path : Path} {child : MPTNode} (hpath : path.length ≤ 64) {x : Bytes32}
    (hchild : hash child = some x) :
    hash (.ext path child)
      = some (Ethash.keccak256 (RLP.list (extItems path (RLP.string (Bytes32.bytes x))))) := by
  have hkey : (HexPrefix.encode path false).length ≤ Rlp.maxLength := by
    rw [HexPrefix.length_encode, Rlp.maxLength]
    omega
  have hvalue : (Bytes32.bytes x).length ≤ Rlp.maxLength := by
    rw [Bytes32.bytes, BigEndian.length_store]
    decide
  have hlen : (extItems path (RLP.string (Bytes32.bytes x))).flatten.length ≤ Rlp.maxLength := by
    have hle := length_path hpath false
    have hx := length_hash x
    simp only [extItems, List.flatten_cons, List.flatten_nil, List.length_append, List.length_nil,
      hx, Rlp.maxLength]
    omega
  have htuple : Rlp.encodeTuple ((extItems path (RLP.string (Bytes32.bytes x))).map some) = _ :=
    Rlp.encodeTuple_eq hlen
  rw [hash, hchild, Option.bind_eq_bind, Option.bind_some, Path.encode_eq, Bool.not_true,
    Rlp.encode_eq hkey, Rlp.encode_eq hvalue]
  exact congrArg (· >>= fun rlp => pure (Ethash.keccak256 rlp)) htuple

/-- The item of a slot of a branch, with the hash of the child. -/
def slotItem (child : MPTNode) (x : Bytes32) : Bytes :=
  if child.isEmpty then RLP.string [] else RLP.string (Bytes32.bytes x)

/-- A branch is hashed with the hashes of the children that are not empty. -/
theorem hash_branch {children : Fin 16 → MPTNode} {x : Fin 16 → Bytes32}
    (hchildren : ∀ i, (children i).isEmpty = false → hash (children i) = some (x i)) :
    hash (.branch children) = some (Ethash.keccak256
      (RLP.list ((List.ofFn fun i => slotItem (children i) (x i)) ++ [RLP.string []]))) := by
  let slot (i : Fin 16) : Bytes := if (children i).isEmpty then [] else Bytes32.bytes (x i)
  -- The sixteen slots: the empty string or the hash of the child.
  have hslots : (List.ofFn fun i => if (children i).isEmpty then some []
      else (hash (children i)).map Bytes32.bytes) = (List.ofFn slot).map some := by
    rw [List.map_ofFn]
    refine congrArg _ (funext fun i => ?_)
    by_cases hempty : (children i).isEmpty = true
    · simp [slot, hempty]
    · simp [slot, hempty, hchildren i (by simpa using hempty)]
  have hslot : ∀ i, (slot i).length ≤ 32 := by
    intro i
    simp only [slot]
    split
    · simp
    · rw [Bytes32.bytes, BigEndian.length_store]
  have hitem : ∀ i, slotItem (children i) (x i) = RLP.string (slot i) := by
    intro i
    simp only [slot, slotItem]
    split <;> rfl
  -- Strings of at most 32 bytes are encoded without an error, and seventeen of them fit in one list.
  have hencode : (List.ofFn slot ++ [[]]).map Rlp.encode
      = ((List.ofFn fun i => slotItem (children i) (x i)) ++ [RLP.string []]).map some := by
    simp only [List.map_append, List.map_ofFn, List.map_cons, List.map_nil]
    congr 1
    refine congrArg _ (funext fun i => ?_)
    have hlen := hslot i
    rw [Function.comp_apply, Function.comp_apply, hitem,
      Rlp.encode_eq (by rw [Rlp.maxLength]; omega)]
  have hlen : ((List.ofFn fun i => slotItem (children i) (x i)) ++ [RLP.string []]).flatten.length
      ≤ Rlp.maxLength := by
    have hitems := length_flatten_ofFn_le (f := fun i => slotItem (children i) (x i)) (b := 33)
      fun i => by
        rw [hitem]
        have hle := RLP.length_string_le (show (slot i).length ≤ 55 by have := hslot i; omega)
        have := hslot i
        omega
    have hend : (RLP.string []).length = 1 := by decide
    rw [List.flatten_append, List.length_append, List.flatten_singleton, hend, Rlp.maxLength]
    omega
  have htuple := Rlp.encodeTuple_eq hlen
  rw [hash, hslots, Rlp.mapM_some, Option.bind_eq_bind, Option.bind_some, Rlp.encodeContainer,
    hencode, htuple]
  rfl

/-- A branch with a child that cannot be hashed cannot be hashed. -/
theorem hash_branch_eq_none {children : Fin 16 → MPTNode} {i : Fin 16}
    (hne : (children i).isEmpty = false) (h : hash (children i) = none) :
    hash (.branch children) = none := by
  have hnone : ∀ {xs : List (Option Bytes)}, none ∈ xs → xs.mapM id = none := by
    intro xs hxs
    induction xs with
    | nil => cases hxs
    | cons x xs ih =>
      rcases List.mem_cons.mp hxs with rfl | hmem
      · rfl
      · cases x with
        | none => rfl
        | some x => simp [ih hmem]
  rw [hash, hnone]
  · rfl
  · exact List.mem_ofFn.mpr ⟨i, by simp [hne, h]⟩

/-- The code hashes the encoding in which every child is hashed, provided that every leaf fits. -/
theorem hash_eq_of_fits (ht : t.Canonical) (hshort : t.Short 64) (hne : t.isEmpty = false)
    (h : t.AllLeaves Fits) : hash t = some (Ethash.keccak256 (rlp hashReference t)) := by
  induction t with
  | empty => cases hne
  | leaf path value => exact hash_leaf_of_fits (hshort path value ⟨rfl, rfl⟩) h
  | ext path child ih =>
    have hpath := hshort.path ht
    obtain ⟨-, hbranch, hchild⟩ := ht
    rw [hash_ext hpath (ih hchild hshort.child (isEmpty_of_isBranch hbranch) h)]
    rfl
  | branch children ih =>
    obtain ⟨-, hchildren⟩ := ht
    rw [hash_branch fun i hi => ih i (hchildren i) (hshort.children i) hi (h i)]
    rfl

/-- A tree that can be hashed has only leaves that fit. -/
theorem fits_of_hash {x : Bytes32} (ht : t.Canonical) (hshort : t.Short 64) (h : hash t = some x) :
    t.AllLeaves Fits := by
  induction t generalizing x with
  | empty => trivial
  | leaf path value =>
    -- A leaf that does not fit has no hash, and then nothing above it has one.
    by_contra hfits
    rw [hash_leaf_eq_none (hshort path value ⟨rfl, rfl⟩) hfits] at h
    cases h
  | ext path child ih =>
    obtain ⟨-, -, hchild⟩ := ht
    rcases hhash : hash child with _ | y
    · rw [hash, hhash] at h
      cases h
    · exact ih hchild hshort.child hhash
  | branch children ih =>
    obtain ⟨-, hchildren⟩ := ht
    intro i
    rcases hempty : (children i).isEmpty with _ | _
    · rcases hhash : hash (children i) with _ | y
      · rw [hash_branch_eq_none hempty hhash] at h
        cases h
      · exact ih i (hchildren i) (hshort.children i) hhash
    · rw [eq_empty_of_isEmpty hempty]
      trivial

/-! ### Trees without short leaves -/

/-- Without short leaves no node is embedded. -/
theorem rlp_eq_of_long (ht : t.Compact n) (h : t.AllLeaves IsLong) :
    rlp YellowPaper.reference t = rlp hashReference t ∧
      (t.isEmpty = false → 32 ≤ (rlp hashReference t).length) := by
  -- A node of 32 bytes or more is referred to by its hash in the paper too.
  have href : ∀ {c : MPTNode}, rlp YellowPaper.reference c = rlp hashReference c →
      32 ≤ (rlp hashReference c).length →
      YellowPaper.reference (rlp YellowPaper.reference c) = hashReference (rlp hashReference c) := by
    intro c heq hlong
    rw [heq, YellowPaper.reference, if_neg (by omega), hashReference]
  induction t generalizing n with
  | empty => exact ⟨by rw [rlp, rlp], fun hne => by cases hne⟩
  | leaf path value =>
    have hlong : IsLong path value := h
    refine ⟨by rw [rlp, rlp], fun _ => ?_⟩
    rw [rlp]
    exact hlong
  -- A node over another one holds a 32-byte hash, so it is long itself.
  | ext path child ih =>
    obtain ⟨-, hbranch, m, -, hchild⟩ := ht
    obtain ⟨heq, hlong⟩ := ih hchild h
    refine ⟨?_, fun _ => ?_⟩
    · rw [rlp, rlp, href heq (hlong (isEmpty_of_isBranch hbranch))]
    · have hmem : hashReference (rlp hashReference child)
          ∈ extItems path (hashReference (rlp hashReference child)) := by simp [extItems]
      have hle := RLP.length_le_list hmem
      rw [hashReference, length_hash] at hle
      exact le_trans (by decide) hle
  | branch children ih =>
    obtain ⟨⟨a, -, -, ha, -⟩, m, -, hchildren⟩ := ht
    refine ⟨?_, fun _ => ?_⟩
    · have hslots : (fun i => if (children i).isEmpty then RLP.string []
          else YellowPaper.reference (rlp YellowPaper.reference (children i)))
          = fun i => if (children i).isEmpty then RLP.string []
            else hashReference (rlp hashReference (children i)) := by
        funext i
        rcases hempty : (children i).isEmpty with _ | _
        · obtain ⟨heq, hlong⟩ := ih i (hchildren i) (h i)
          rw [href heq (hlong hempty)]
        · rw [if_pos rfl, if_pos rfl]
      rw [rlp, rlp, hslots]
    -- One child that is not empty is enough for the branch to be long.
    · have hmem : hashReference (rlp hashReference (children a)) ∈
          (List.ofFn fun i => if (children i).isEmpty then RLP.string []
            else hashReference (rlp hashReference (children i))) ++ [RLP.string []] :=
        List.mem_append_left _ (List.mem_ofFn.mpr ⟨a, by simp [ha]⟩)
      have hle := RLP.length_le_list hmem
      rw [hashReference, length_hash] at hle
      exact le_trans (by decide) hle

end MPTNode

/-! ### A hash function that finds short leaves -/

section marking

/-- The hash of a marked encoding. -/
def mark : Bytes32 := 1

/-- The short leaves, and the extensions and branches that refer to the mark. -/
def Marked (x : Bytes) : Prop :=
  (x.length < 32 ∧ ∃ path value, x = RLP.list (leafItems path value)) ∨
  (∃ path : Path, path.length ≤ 64 ∧
    x = RLP.list (extItems path (RLP.string (Bytes32.bytes mark)))) ∨
  ∃ items, items.length = 17 ∧ (∀ y ∈ items, RLP.IsItem y) ∧ items.flatten.length < 2 ^ 64 ∧
    RLP.string (Bytes32.bytes mark) ∈ items ∧ x = RLP.list items

open Classical in
/-- The hash function that tells marked encodings from all others. -/
@[reducible] noncomputable def markingEthash : Ethash := ⟨fun x => if Marked x then mark else 0⟩

/-- The items of a leaf are items. -/
theorem isItem_leafItems {path : Path} {value : Bytes}
    (h : (leafItems path value).flatten.length < 2 ^ 64) :
    ∀ y ∈ leafItems path value, RLP.IsItem y := by
  have hkey := RLP.length_le_length_string (HexPrefix.encode path true)
  have hvalue := RLP.length_le_length_string value
  simp only [leafItems, List.flatten_cons, List.flatten_nil, List.length_append] at h
  intro y hy
  rcases List.mem_pair.mp hy with rfl | rfl
  · exact .string (by omega)
  · exact .string (by omega)

/-- A hash makes an item. -/
theorem isItem_hash (x : Bytes32) : RLP.IsItem (RLP.string (Bytes32.bytes x)) :=
  .string (by rw [Bytes32.bytes, BigEndian.length_store]; decide)

/-- The items of an extension are items. -/
theorem isItem_extItems {path : Path} (hpath : path.length ≤ 64) {ref : Bytes}
    (href : RLP.IsItem ref) : ∀ y ∈ extItems path ref, RLP.IsItem y := by
  intro y hy
  rcases List.mem_pair.mp hy with rfl | rfl
  · refine .string ?_
    rw [HexPrefix.length_encode]
    omega
  · exact href

/-- The items of an extension are short. -/
theorem length_extItems {path : Path} (hpath : path.length ≤ 64) {ref : Bytes}
    (href : ref.length ≤ 33) : (extItems path ref).flatten.length < 2 ^ 64 := by
  have hle := MPTNode.length_path hpath false
  simp only [extItems, List.flatten_cons, List.flatten_nil, List.length_append, List.length_nil]
  omega

/-- The flag tells a leaf from an extension. -/
theorem leafItems_ne_extItems {p q : Path} {value ref : Bytes} (hq : q.length ≤ 64) :
    leafItems p value ≠ extItems q ref := by
  intro h
  have hkey : RLP.string (HexPrefix.encode p true) = RLP.string (HexPrefix.encode q false) :=
    (List.cons.inj h).1
  have hp := RLP.length_le_length_string (HexPrefix.encode p true)
  have hle := MPTNode.length_path hq false
  rw [hkey] at hp
  have hinj := RLP.string_inj (by omega) (by rw [HexPrefix.length_encode]; omega) hkey
  exact absurd (HexPrefix.encode_inj hinj).2 (by decide)

/-- The marked encodings by their items. -/
theorem marked_list_iff {items : List Bytes} (hitems : ∀ y ∈ items, RLP.IsItem y)
    (hlen : items.flatten.length < 2 ^ 64) :
    Marked (RLP.list items) ↔
      ((RLP.list items).length < 32 ∧ ∃ path value, items = leafItems path value) ∨
      (∃ path : Path, path.length ≤ 64 ∧
        items = extItems path (RLP.string (Bytes32.bytes mark))) ∨
      (items.length = 17 ∧ RLP.string (Bytes32.bytes mark) ∈ items) := by
  constructor
  · rintro (⟨hshort, path, value, heq⟩ | ⟨path, hpath, heq⟩ | ⟨items', h17, hitems', hlen', hmem, heq⟩)
    · have hleaf := RLP.length_list_gt (leafItems path value)
      rw [← heq] at hleaf
      have hflatten : (leafItems path value).flatten.length < 2 ^ 64 := by omega
      exact .inl ⟨hshort, path, value,
        RLP.list_inj hitems (isItem_leafItems hflatten) hlen hflatten heq⟩
    · have hflatten := length_extItems hpath (MPTNode.length_hash mark).le
      exact .inr (.inl ⟨path, hpath,
        RLP.list_inj hitems (isItem_extItems hpath (isItem_hash mark)) hlen hflatten heq⟩)
    · obtain rfl := RLP.list_inj hitems hitems' hlen hlen' heq
      exact .inr (.inr ⟨h17, hmem⟩)
  · rintro (⟨hshort, path, value, rfl⟩ | ⟨path, hpath, rfl⟩ | ⟨h17, hmem⟩)
    · exact .inl ⟨hshort, path, value, rfl⟩
    · exact .inr (.inl ⟨path, hpath, rfl⟩)
    · exact .inr (.inr ⟨items, h17, hitems, hlen, hmem, rfl⟩)

/-- A marked string has the mark as its hash. -/
theorem keccak256_of_marked {x : Bytes} (h : Marked x) : markingEthash.keccak256 x = mark :=
  if_pos h

/-- All other strings have the hash 0. -/
theorem keccak256_of_not_marked {x : Bytes} (h : ¬ Marked x) : markingEthash.keccak256 x = 0 :=
  if_neg h

/-- The mark differs from the other hash. -/
theorem hash_ne_mark : RLP.string (Bytes32.bytes 0) ≠ RLP.string (Bytes32.bytes mark) := by decide

section branch

variable {f : Fin 16 → Bytes}

/-- The slots of a branch are items. -/
theorem isItem_slots (hf : ∀ i, RLP.IsItem (f i)) :
    ∀ y ∈ List.ofFn f ++ [RLP.string []], RLP.IsItem y := by
  intro y hy
  rcases List.mem_append.mp hy with hy | hy
  · obtain ⟨i, rfl⟩ := List.mem_ofFn.mp hy
    exact hf i
  · rw [List.mem_singleton.mp hy]
    exact .string (by decide)

/-- The slots of a branch are short. -/
theorem length_slots (hf : ∀ i, (f i).length ≤ 33) :
    (List.ofFn f ++ [RLP.string []]).flatten.length < 2 ^ 64 := by
  have hle := MPTNode.length_flatten_ofFn_le hf
  have hend : (RLP.string []).length = 1 := by decide
  rw [List.flatten_append, List.length_append, List.flatten_singleton, hend]
  omega

end branch

variable {t : MPTNode} {n : Nat}

/-- Under the marking hash the code marks every tree with a short leaf. -/
theorem marked_of_short (ht : t.Compact n) (hn : n ≤ 64) (h : ¬ t.AllLeaves MPTNode.IsLong) :
    Marked (MPTNode.rlp (@MPTNode.hashReference markingEthash) t) := by
  let _ := markingEthash
  have href : ∀ c, RLP.IsItem (MPTNode.hashReference c) ∧ (MPTNode.hashReference c).length ≤ 33 :=
    fun c => ⟨isItem_hash _, (MPTNode.length_hash _).le⟩
  induction t generalizing n with
  | empty => exact absurd trivial h
  | leaf path value =>
    rw [MPTNode.rlp]
    -- The short leaf itself is marked.
    exact .inl ⟨Nat.lt_of_not_le h, path, value, rfl⟩
  | ext path child ih =>
    obtain ⟨-, -, m, rfl, hchild⟩ := ht
    -- The marking hash tells of a marked child, so the mark goes up to the root.
    have hmarked := ih hchild (by omega) h
    rw [MPTNode.rlp, MPTNode.hashReference, keccak256_of_marked hmarked]
    exact .inr (.inl ⟨path, by omega, rfl⟩)
  | branch children ih =>
    obtain ⟨-, m, rfl, hchildren⟩ := ht
    -- Some child has the short leaf below it.
    obtain ⟨i, hi⟩ := not_forall.mp h
    have hne : (children i).isEmpty = false := by
      by_contra hempty
      have heq : children i = .empty := eq_empty_of_isEmpty (by simpa using hempty)
      rw [heq] at hi
      exact hi trivial
    have hmarked := ih i (hchildren i) (by omega) hi
    have hslots : ∀ j, RLP.IsItem (if (children j).isEmpty then RLP.string [] else
        MPTNode.hashReference (MPTNode.rlp MPTNode.hashReference (children j))) ∧
        (if (children j).isEmpty then RLP.string [] else
          MPTNode.hashReference (MPTNode.rlp MPTNode.hashReference (children j))).length ≤ 33 := by
      intro j
      split
      · exact ⟨.string (by decide), by decide⟩
      · exact href _
    rw [MPTNode.rlp, marked_list_iff (isItem_slots fun j => (hslots j).1)
      (length_slots fun j => (hslots j).2)]
    refine .inr (.inr ⟨by simp, List.mem_append_left _ (List.mem_ofFn.mpr ⟨i, ?_⟩)⟩)
    rw [hne, if_neg (by decide), MPTNode.hashReference, keccak256_of_marked hmarked]

/-- A reference is an item, and at most as long as a hash. -/
theorem isItem_reference {items : List Bytes} (hlen : items.flatten.length < 2 ^ 64)
    (hmarked : 32 ≤ (RLP.list items).length → ¬ Marked (RLP.list items)) :
    RLP.IsItem (@YellowPaper.reference markingEthash (RLP.list items)) ∧
      (@YellowPaper.reference markingEthash (RLP.list items)).length ≤ 33 ∧
      @YellowPaper.reference markingEthash (RLP.list items) ≠ RLP.string (Bytes32.bytes mark) := by
  unfold YellowPaper.reference
  split
  next hshort =>
    refine ⟨.list hlen, by omega, (RLP.string_ne_list ?_ hlen).symm⟩
    rw [Bytes32.bytes, BigEndian.length_store]
    decide
  next hlong =>
    rw [keccak256_of_not_marked (hmarked (by omega))]
    exact ⟨isItem_hash 0, (MPTNode.length_hash 0).le, hash_ne_mark⟩

/-- Under the marking hash the Yellow Paper marks no node but short leaves. -/
theorem not_marked (ht : t.Compact n) (hn : n ≤ 64) (hfits : t.AllLeaves MPTNode.Fits)
    (hne : t.isEmpty = false) :
    ∃ items, MPTNode.rlp (@YellowPaper.reference markingEthash) t = RLP.list items ∧
      items.flatten.length < 2 ^ 64 ∧
      ((∀ path value, t = .leaf path value → MPTNode.IsLong path value) →
        ¬ Marked (RLP.list items)) := by
  let _ := markingEthash
  -- A child that is not embedded is no short leaf.
  have hchildOf : ∀ {c : MPTNode} {items : List Bytes},
      MPTNode.rlp YellowPaper.reference c = RLP.list items →
      ((∀ path value, c = .leaf path value → MPTNode.IsLong path value) →
        ¬ Marked (RLP.list items)) →
      32 ≤ (RLP.list items).length → ¬ Marked (RLP.list items) := by
    intro c items heq hmarked hlong
    refine hmarked fun path value hleaf => ?_
    rw [← heq, hleaf, MPTNode.rlp] at hlong
    exact hlong
  induction t generalizing n with
  | empty => cases hne
  | leaf path value =>
    have hlen : (leafItems path value).flatten.length ≤ Rlp.maxLength := hfits
    have hlen : (leafItems path value).flatten.length < 2 ^ 64 :=
      lt_of_le_of_lt hlen (by decide)
    refine ⟨_, by rw [MPTNode.rlp], hlen, fun hlong => ?_⟩
    rw [marked_list_iff (isItem_leafItems hlen) hlen]
    rintro (⟨hshort, -⟩ | ⟨p, hp, heq⟩ | ⟨h17, -⟩)
    · exact absurd (hlong path value rfl) (by rw [MPTNode.IsLong]; omega)
    · exact leafItems_ne_extItems hp heq
    · cases h17
  | ext path child ih =>
    obtain ⟨-, hbranch, m, rfl, hchild⟩ := ht
    obtain ⟨items, heq, hlen, hmarked⟩ :=
      ih hchild (by omega) hfits (isEmpty_of_isBranch hbranch)
    obtain ⟨hitem, hle, hnemark⟩ := isItem_reference hlen (hchildOf heq hmarked)
    have hpath : path.length ≤ 64 := by omega
    have hflatten := length_extItems hpath hle
    refine ⟨_, by rw [MPTNode.rlp, heq], hflatten, fun _ => ?_⟩
    rw [marked_list_iff (isItem_extItems hpath hitem) hflatten]
    rintro (⟨-, p, v, hleaf⟩ | ⟨p, -, hext⟩ | ⟨h17, -⟩)
    · exact leafItems_ne_extItems hpath hleaf.symm
    · exact hnemark (List.cons.inj (List.cons.inj hext).2).1
    · cases h17
  | branch children ih =>
    obtain ⟨-, m, rfl, hchildren⟩ := ht
    have hslots : ∀ i, RLP.IsItem (if (children i).isEmpty then RLP.string [] else
        YellowPaper.reference (MPTNode.rlp YellowPaper.reference (children i))) ∧
        (if (children i).isEmpty then RLP.string [] else
          YellowPaper.reference (MPTNode.rlp YellowPaper.reference (children i))).length ≤ 33 ∧
        (if (children i).isEmpty then RLP.string [] else
          YellowPaper.reference (MPTNode.rlp YellowPaper.reference (children i)))
          ≠ RLP.string (Bytes32.bytes mark) := by
      intro i
      rcases hempty : (children i).isEmpty with _ | _
      · obtain ⟨items, heq, hlen, hmarked⟩ := ih i (hchildren i) (by omega) (hfits i) hempty
        rw [if_neg (by decide), heq]
        exact isItem_reference hlen (hchildOf heq hmarked)
      · rw [if_pos rfl]
        exact ⟨.string (by decide), by decide, by decide⟩
    have hflatten := length_slots fun i => (hslots i).2.1
    refine ⟨_, by rw [MPTNode.rlp], hflatten, fun _ => ?_⟩
    rw [marked_list_iff (isItem_slots fun i => (hslots i).1) hflatten]
    rintro (⟨-, p, v, hleaf⟩ | ⟨p, -, hext⟩ | ⟨-, hmem⟩)
    · have h17 := congrArg List.length hleaf
      simp [leafItems] at h17
    · have h17 := congrArg List.length hext
      simp [extItems] at h17
    · rcases List.mem_append.mp hmem with hmem | hmem
      · obtain ⟨i, hi⟩ := List.mem_ofFn.mp hmem
        exact (hslots i).2.2 hi
      · exact absurd (List.mem_singleton.mp hmem) (by decide)

end marking

namespace MPT

/-- The path of the leaf of a key: the part of the key after the nibble that tells it from all other
keys. -/
def leafPath (pairs : List (Bytes × Bytes)) (key : Bytes) : Path :=
  (HexPrefix.nibbles key).drop
    (fork ((pathsOf pairs).map Prod.fst) (HexPrefix.nibbles key))

/-- `MPT::hash` after the insertion of all pairs. -/
def hashOf [Ethash] (pairs : List (Bytes × Bytes)) : Option Bytes32 :=
  insertAll {} pairs >>= hash

/-- Every leaf can be encoded, and no leaf below the root is shorter than 32 bytes. -/
structure NoShortLeaf (pairs : List (Bytes × Bytes)) : Prop where
  fits : ∀ p ∈ pairs, MPTNode.Fits (leafPath pairs p.1) p.2
  long : 1 < pairs.length → ∀ p ∈ pairs, MPTNode.IsLong (leafPath pairs p.1) p.2

variable {len : Nat} {pairs : List (Bytes × Bytes)}

/-- What holds of all leaves is seen in the pairs. -/
theorem allLeaves_iff {t : MPTNode} {P : Path → Bytes → Prop} (ht : t.Canonical)
    (hrep : t.Represents (pathsOf pairs)) :
    t.AllLeaves P ↔ ∀ p ∈ pairs, P (leafPath pairs p.1) p.2 := by
  rw [hrep.allLeaves_iff ht]
  constructor
  · exact fun h p hp => h _ (List.mem_map_of_mem hp)
  · intro h e he
    obtain ⟨p, hp, rfl⟩ := List.mem_map.mp he
    exact h p hp

/-- A tree that represents some pairs is not empty. -/
theorem isEmpty_of_represents {t : MPTNode} (hne : pairs ≠ [])
    (hrep : t.Represents (pathsOf pairs)) : t.isEmpty = false := by
  rcases hempty : t.isEmpty with _ | _
  · rfl
  · rw [eq_empty_of_isEmpty hempty] at hrep
    exact absurd (List.map_eq_nil_iff.mp hrep.eq_nil) hne

/-- The hash of a tree that is not empty is the hash of its root node. -/
theorem hash_of_not_isEmpty [Ethash] {t : MPT} (h : t.root.isEmpty = false) :
    t.hash = MPTNode.hash t.root := by
  rw [hash, if_neg (by rw [h]; decide)]

/-- The code agrees with the Yellow Paper on trees without short leaves below the root. -/
theorem hashOf_eq_root [Ethash] (hne : pairs ≠ []) (hlen : len ≤ 32)
    (hkeys : ∀ p ∈ pairs, p.1.length = len) (hdistinct : (pairs.map Prod.fst).Nodup)
    (h : NoShortLeaf pairs) : hashOf pairs = some (YellowPaper.root pairs) := by
  obtain ⟨t, hall, hcompact, hrep⟩ := insertAll_represents hlen hkeys hdistinct
  have hroot := isEmpty_of_represents hne hrep
  have hfits := (allLeaves_iff hcompact.canonical hrep).mpr h.fits
  have hrlp : MPTNode.rlp YellowPaper.reference t.root = MPTNode.rlp MPTNode.hashReference t.root := by
    rcases pairs with _ | ⟨p, _ | ⟨q, pairs⟩⟩
    · exact absurd rfl hne
    · -- A single pair is a leaf, whose encoding does not refer to another node.
      have hmem : t.root.Contains (HexPrefix.nibbles p.1) p.2 := (hrep.2 _ _).mpr (by simp [pathsOf])
      have hleaf := hcompact.canonical.eq_leaf hmem fun k v hk => by
        have := (hrep.2 _ _).mp hk
        simp only [pathsOf, List.map_cons, List.map_nil, List.mem_singleton, Prod.mk.injEq] at this
        exact this.1
      rw [hleaf, MPTNode.rlp, MPTNode.rlp]
    · have hlong := (allLeaves_iff hcompact.canonical hrep).mpr (h.long (by simp))
      exact (MPTNode.rlp_eq_of_long hcompact hlong).1
  rw [hashOf, hall, Option.bind_eq_bind, Option.bind_some, hash_of_not_isEmpty hroot,
    MPTNode.hash_eq_of_fits hcompact.canonical (hcompact.short (by omega)) hroot hfits,
    YellowPaper.root, MPTNode.composition_eq hrep hcompact, hrlp]

/-- Some hash function tells the code from the Yellow Paper on a tree with a short leaf. -/
theorem exists_hashOf_ne_root (hlen : len ≤ 32) (hkeys : ∀ p ∈ pairs, p.1.length = len)
    (hdistinct : (pairs.map Prod.fst).Nodup) (h : ¬ NoShortLeaf pairs) :
    ∃ _ : Ethash, hashOf pairs ≠ some (YellowPaper.root pairs) := by
  obtain ⟨t, hall, hcompact, hrep⟩ := insertAll_represents hlen hkeys hdistinct
  have hne : pairs ≠ [] := by
    rintro rfl
    exact h ⟨fun _ hp => (by cases hp), fun hlt => (by cases hlt)⟩
  have hroot := isEmpty_of_represents hne hrep
  have hhash : ∀ _ : Ethash, hashOf pairs = MPTNode.hash t.root := by
    intro ethash
    rw [hashOf, hall, Option.bind_eq_bind, Option.bind_some, hash_of_not_isEmpty hroot]
  -- Under the marking hash the code's root is the mark; the paper's is not.
  let _ := markingEthash
  refine ⟨markingEthash, fun heq => ?_⟩
  rw [hhash] at heq
  have hfits := MPTNode.fits_of_hash hcompact.canonical (hcompact.short (by omega)) heq
  -- A single short leaf is hashed at the root by both, so there are two pairs at least.
  have hshort : 1 < pairs.length ∧ ¬ t.root.AllLeaves MPTNode.IsLong := by
    by_contra hlong
    refine h ⟨(allLeaves_iff hcompact.canonical hrep).mp hfits, fun hlt => ?_⟩
    exact (allLeaves_iff hcompact.canonical hrep).mp (not_not.mp fun hall => hlong ⟨hlt, hall⟩)
  have hmarked := marked_of_short hcompact (by omega) hshort.2
  obtain ⟨items, hitems, -, hnot⟩ := not_marked hcompact (by omega) hfits hroot
  have hnotleaf : ∀ path value, t.root = .leaf path value → MPTNode.IsLong path value := by
    intro path value hleaf
    rw [hleaf] at hrep
    have hone := congrArg List.length hrep.eq_singleton
    rw [pathsOf, List.length_map, List.length_singleton] at hone
    omega
  have hnot := hnot hnotleaf
  rw [MPTNode.hash_eq_of_fits hcompact.canonical (hcompact.short (by omega)) hroot hfits,
    keccak256_of_marked hmarked,
    YellowPaper.root, MPTNode.composition_eq hrep hcompact, hitems,
    keccak256_of_not_marked hnot] at heq
  exact absurd (Option.some.inj heq) (by decide)

/-- The code computes the Merkle Patricia root, for every hash function, exactly when the tree has
no short leaf below its root. -/
theorem hash_eq_root_iff (hne : pairs ≠ []) (hlen : len ≤ 32)
    (hkeys : ∀ p ∈ pairs, p.1.length = len) (hdistinct : (pairs.map Prod.fst).Nodup) :
    (∀ _ : Ethash, hashOf pairs = some (YellowPaper.root pairs)) ↔ NoShortLeaf pairs := by
  constructor
  · intro h
    by_contra hshort
    obtain ⟨ethash, hne⟩ := exists_hashOf_ne_root hlen hkeys hdistinct hshort
    exact hne (h ethash)
  · exact fun h _ => hashOf_eq_root hne hlen hkeys hdistinct h

/-- Two storage-like pairs whose leaves are embedded. -/
def shortPairs : List (Bytes × Bytes) := [([0x00], [0x01]), ([0x10], [0x01])]

/-- The pairs of the instance have a short leaf. -/
theorem not_noShortLeaf_shortPairs : ¬ NoShortLeaf shortPairs := fun h =>
  absurd (h.long (by decide) ([0x00], [0x01]) (by decide)) (by decide)

/-- The equivalence for the two short pairs. -/
theorem hash_eq_root_iff_shortPairs :
    (∀ _ : Ethash, hashOf shortPairs = some (YellowPaper.root shortPairs)) ↔
      NoShortLeaf shortPairs :=
  hash_eq_root_iff (by decide) (by decide : 1 ≤ 32) (by decide) (by decide)

/-- For the two short pairs the code does not compute the Merkle Patricia root. -/
theorem not_hash_eq_root_shortPairs :
    shortPairs ≠ [] ∧ (shortPairs.map Prod.fst).Nodup ∧
      (∀ p ∈ shortPairs, p.1.length = 1 ∧ p.2 ≠ []) ∧
      ¬ ∀ _ : Ethash, hashOf shortPairs = some (YellowPaper.root shortPairs) := by
  refine ⟨by decide, by decide, by decide, fun h => ?_⟩
  obtain ⟨ethash, hne⟩ := exists_hashOf_ne_root (by decide : 1 ≤ 32) (by decide)
    (by decide) not_noShortLeaf_shortPairs
  exact hne (h ethash)

end MPT

end Zvmone
