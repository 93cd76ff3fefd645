import Mathlib.Data.Set.Lattice
import Zvmone.State.ShortNodes

/-! # The hash of a tree identifies its entries

When no two different encodings of the nodes of two trees collide, equal root hashes mean equal
trees (`MPTNode.rlp_injOn`), so the root of a set of pairs determines the pairs
(`MPT.hashOf_eq_iff`). -/

namespace Zvmone

open Patricia

namespace MPTNode

variable [Ethash] {t t' : MPTNode}

/-- The strings whose hashes make up the hash of a tree: the encodings of its nodes. -/
def encodings : MPTNode → Set Bytes
  | .empty => {RLP.string []}
  | .leaf path value => {rlp hashReference (.leaf path value)}
  | .ext path child => {rlp hashReference (.ext path child)} ∪ encodings child
  | .branch children => {rlp hashReference (.branch children)} ∪ ⋃ i, encodings (children i)

/-- The strings in a list. -/
def encodingList : MPTNode → List Bytes
  | .empty => [RLP.string []]
  | .leaf path value => [rlp hashReference (.leaf path value)]
  | .ext path child => rlp hashReference (.ext path child) :: encodingList child
  | .branch children => rlp hashReference (.branch children) ::
      (List.finRange 16).flatMap fun i => encodingList (children i)

/-- The list has the strings of the set. -/
theorem mem_encodingList {x : Bytes} : x ∈ encodingList t ↔ x ∈ encodings t := by
  induction t with
  | empty | leaf path value => simp [encodingList, encodings]
  | ext path child ih => simp [encodingList, encodings, ih]
  | branch children ih => simp [encodingList, encodings, ih]

/-- The encoding of a tree is one of those that are hashed for it. -/
theorem rlp_mem_encodings (t : MPTNode) : rlp hashReference t ∈ encodings t := by
  cases t with
  | ext => exact .inl rfl
  | branch => exact .inl rfl
  | _ => exact Set.mem_singleton _

/-- Without collisions a reference tells the encoding it stands for. -/
theorem hashReference_inj {c c' : Bytes} {s : Set Bytes} (hinj : Set.InjOn Ethash.keccak256 s)
    (hc : c ∈ s) (hc' : c' ∈ s) (h : hashReference c = hashReference c') : c = c' := by
  have hlen : ∀ x : Bytes32, (Bytes32.bytes x).length < 2 ^ 64 := fun x => by
    rw [Bytes32.bytes, BigEndian.length_store]
    decide
  have hbytes := RLP.string_inj (hlen _) (hlen _) h
  exact hinj hc hc' (Bytes32.bytes_injective hbytes)

/-- The item of a slot. -/
def slot (child : MPTNode) : Bytes :=
  if child.isEmpty then RLP.string [] else hashReference (rlp hashReference child)

/-- The items of a node. -/
def items : MPTNode → List Bytes
  | .empty => []
  | .leaf path value => leafItems path value
  | .ext path child => extItems path (hashReference (rlp hashReference child))
  | .branch children => (List.ofFn fun i => slot (children i)) ++ [RLP.string []]

/-- A tree that is not empty is encoded as a list. -/
theorem rlp_eq_list (h : t.isEmpty = false) : rlp hashReference t = RLP.list (items t) := by
  cases t with
  | empty => cases h
  | _ => rw [rlp, items]; try rfl

/-- A slot of a branch is an item, and at most as long as a hash. -/
theorem slot_isItem (child : MPTNode) :
    RLP.IsItem (slot child) ∧ (slot child).length ≤ 33 := by
  unfold slot
  split
  · exact ⟨.string (by decide), by decide⟩
  · exact ⟨isItem_hash _, (length_hash _).le⟩

/-- The items of a tree without oversized leaves can be decoded. -/
theorem items_isItem (ht : t.Canonical) (hshort : t.Short 64) (hfits : t.AllLeaves Fits) :
    (∀ y ∈ items t, RLP.IsItem y) ∧ (items t).flatten.length < 2 ^ 64 := by
  cases t with
  | empty => exact ⟨fun y hy => (by cases hy), by rw [items]; decide⟩
  | leaf path value =>
    have hle : (leafItems path value).flatten.length ≤ Rlp.maxLength := hfits
    have hlt : (leafItems path value).flatten.length < 2 ^ 64 := lt_of_le_of_lt hle (by decide)
    exact ⟨isItem_leafItems hlt, hlt⟩
  | ext path child =>
    have hpath := hshort.path ht
    exact ⟨isItem_extItems hpath (isItem_hash _), length_extItems hpath (length_hash _).le⟩
  | branch children =>
    exact ⟨isItem_slots fun i => (slot_isItem (children i)).1,
      length_slots fun i => (slot_isItem (children i)).2⟩

omit [Ethash] in
/-- An encoded path of at most 64 nibbles tells the path. -/
theorem encode_path_inj {p q : Path} {flag : Bool} (hp : p.length ≤ 64) (hq : q.length ≤ 64)
    (h : RLP.string (HexPrefix.encode p flag) = RLP.string (HexPrefix.encode q flag)) : p = q := by
  have hlen : ∀ {r : Path}, r.length ≤ 64 → (HexPrefix.encode r flag).length < 2 ^ 64 :=
    fun hr => by
      rw [HexPrefix.length_encode]
      omega
  exact (HexPrefix.encode_inj (RLP.string_inj (hlen hp) (hlen hq) h)).1

/-- A slot tells an empty child from a hashed one. -/
theorem slot_inj {s : Set Bytes} (hinj : Set.InjOn Ethash.keccak256 s) {c c' : MPTNode}
    (hc : encodings c ⊆ s) (hc' : encodings c' ⊆ s) (h : slot c = slot c') :
    c.isEmpty = c'.isEmpty ∧ rlp hashReference c = rlp hashReference c' := by
  have hne : ∀ x : Bytes, RLP.string [] ≠ hashReference x := fun x hx => by
    have hlen := congrArg List.length hx
    rw [hashReference, length_hash] at hlen
    cases hlen
  unfold slot at h
  rcases hempty : c.isEmpty with _ | _ <;> rcases hempty' : c'.isEmpty with _ | _ <;>
    rw [hempty, hempty'] at h
  · rw [if_neg (by decide), if_neg (by decide)] at h
    exact ⟨rfl, hashReference_inj hinj (hc (rlp_mem_encodings c)) (hc' (rlp_mem_encodings c')) h⟩
  · rw [if_neg (by decide), if_pos rfl] at h
    exact absurd h.symm (hne _)
  · rw [if_pos rfl, if_neg (by decide)] at h
    exact absurd h (hne _)
  · rw [eq_empty_of_isEmpty hempty, eq_empty_of_isEmpty hempty']
    exact ⟨rfl, rfl⟩

/-- Only the empty tree is encoded as a byte string, and a list has the items of the node. -/
theorem items_eq (ht : t.Canonical) (ht' : t'.Canonical) (hshort : t.Short 64)
    (hshort' : t'.Short 64) (hfits : t.AllLeaves Fits) (hfits' : t'.AllLeaves Fits)
    (h : rlp hashReference t = rlp hashReference t') :
    t.isEmpty = t'.isEmpty ∧ items t = items t' := by
  have hitems := items_isItem ht hshort hfits
  have hitems' := items_isItem ht' hshort' hfits'
  have hstring : ([] : Bytes).length < 2 ^ 64 := by decide
  rcases hte : t.isEmpty with _ | _ <;> rcases hte' : t'.isEmpty with _ | _
  · rw [rlp_eq_list hte, rlp_eq_list hte'] at h
    exact ⟨rfl, RLP.list_inj hitems.1 hitems'.1 hitems.2 hitems'.2 h⟩
  · rw [rlp_eq_list hte, eq_empty_of_isEmpty hte', rlp] at h
    exact absurd h.symm (RLP.string_ne_list hstring hitems.2)
  · rw [rlp_eq_list hte', eq_empty_of_isEmpty hte, rlp] at h
    exact absurd h (RLP.string_ne_list hstring hitems'.2)
  · rw [eq_empty_of_isEmpty hte, eq_empty_of_isEmpty hte']
    exact ⟨rfl, rfl⟩

omit [Ethash] in
/-- The items of a leaf tell its path and its value. -/
theorem leafItems_inj {p q : Path} {v w : Bytes} (hp : p.length ≤ 64) (hq : q.length ≤ 64)
    (hv : Fits p v) (hw : Fits q w) (h : leafItems p v = leafItems q w) : p = q ∧ v = w := by
  have hlen : ∀ {p : Path} {v : Bytes}, Fits p v → v.length < 2 ^ 64 := by
    intro p v hle
    have hv := RLP.length_le_length_string v
    have hle : (leafItems p v).flatten.length ≤ Rlp.maxLength := hle
    simp only [leafItems, List.flatten_cons, List.flatten_nil, List.length_append,
      Rlp.maxLength] at hle
    omega
  obtain ⟨hkey, hvalue⟩ := List.cons.inj h
  exact ⟨encode_path_inj hp hq hkey,
    RLP.string_inj (hlen hv) (hlen hw) (List.cons.inj hvalue).1⟩

/-- Without collisions among the encodings of two trees, the encoding of the root determines the
tree. -/
theorem rlp_injOn {s : Set Bytes} (hinj : Set.InjOn Ethash.keccak256 s) (ht : t.Canonical)
    (ht' : t'.Canonical) (hshort : t.Short 64) (hshort' : t'.Short 64) (hfits : t.AllLeaves Fits)
    (hfits' : t'.AllLeaves Fits) (hs : encodings t ⊆ s) (hs' : encodings t' ⊆ s)
    (h : rlp hashReference t = rlp hashReference t') : t = t' := by
  -- The list of items tells the kind of node, and the hashes in it the children, by `hinj`.
  induction t generalizing t' with
  | empty =>
    obtain ⟨hempty, -⟩ := items_eq ht ht' hshort hshort' hfits hfits' h
    exact (eq_empty_of_isEmpty hempty.symm).symm
  | leaf path value =>
    obtain ⟨hempty, hitems⟩ := items_eq ht ht' hshort hshort' hfits hfits' h
    have hpath := hshort path value ⟨rfl, rfl⟩
    cases t' with
    | empty => cases hempty
    | leaf path' value' =>
      have hpath' := hshort' path' value' ⟨rfl, rfl⟩
      obtain ⟨rfl, rfl⟩ := leafItems_inj hpath hpath' hfits hfits' hitems
      rfl
    -- Both have two items; the flag in the encoded path tells a leaf from an extension.
    | ext path' child' => exact absurd hitems (leafItems_ne_extItems (hshort'.path ht'))
    | branch children' =>
      have hlen := congrArg List.length hitems
      simp [items, leafItems] at hlen
  | ext path child ih =>
    obtain ⟨hempty, hitems⟩ := items_eq ht ht' hshort hshort' hfits hfits' h
    have hpath := hshort.path ht
    cases t' with
    | empty => cases hempty
    | leaf path' value' => exact absurd hitems.symm (leafItems_ne_extItems hpath)
    | ext path' child' =>
      have hpath' := hshort'.path ht'
      obtain ⟨hkey, href⟩ := List.cons.inj hitems
      have hrlp := hashReference_inj hinj (hs (.inr (rlp_mem_encodings child)))
        (hs' (.inr (rlp_mem_encodings child'))) (List.cons.inj href).1
      rw [encode_path_inj hpath hpath' hkey,
        ih ht.2.2 ht'.2.2 hshort.child hshort'.child hfits hfits' (fun x hx => hs (.inr hx))
          (fun x hx => hs' (.inr hx)) hrlp]
    | branch children' =>
      have hlen := congrArg List.length hitems
      simp [items, extItems] at hlen
  | branch children ih =>
    obtain ⟨hempty, hitems⟩ := items_eq ht ht' hshort hshort' hfits hfits' h
    cases t' with
    | empty => cases hempty
    | leaf path' value' =>
      have hlen := congrArg List.length hitems
      simp [items, leafItems] at hlen
    | ext path' child' =>
      have hlen := congrArg List.length hitems
      simp [items, extItems] at hlen
    | branch children' =>
      -- Seventeen items against two for the others; slot by slot for two branches.
      have hslots : (fun i => slot (children i)) = fun i => slot (children' i) :=
        List.ofFn_injective (List.append_cancel_right hitems)
      refine congrArg _ (funext fun i => ?_)
      have hchild : encodings (children i) ⊆ s := fun x hx =>
        hs (.inr (Set.mem_iUnion.mpr ⟨i, hx⟩))
      have hchild' : encodings (children' i) ⊆ s := fun x hx =>
        hs' (.inr (Set.mem_iUnion.mpr ⟨i, hx⟩))
      obtain ⟨-, hrlp⟩ := slot_inj hinj hchild hchild' (congrFun hslots i)
      exact ih i (ht.2 i) (ht'.2 i) (hshort.children i) (hshort'.children i) (hfits i) (hfits' i)
        hchild hchild' hrlp

end MPTNode

namespace MPT

variable [Ethash]

/-- The tree of some pairs. -/
def treeOf (pairs : List (Bytes × Bytes)) : MPTNode := ((insertAll {} pairs).getD {}).root

/-- Pairs with distinct keys of 32 bytes and values that can be encoded. -/
structure Proper (pairs : List (Bytes × Bytes)) : Prop where
  keys : ∀ p ∈ pairs, p.1.length = 32
  distinct : (pairs.map Prod.fst).Nodup
  fits : ∀ p ∈ pairs, ∀ path : Path, path.length ≤ 64 → MPTNode.Fits path p.2

variable {pairs pairs' : List (Bytes × Bytes)}

omit [Ethash] in
/-- The tree of admissible pairs is canonical, short and represents them. -/
theorem Admissible.treeOf_spec (h : Admissible pairs) :
    (treeOf pairs).Canonical ∧ (treeOf pairs).Short 64 ∧
      (treeOf pairs).Represents (pathsOf pairs) := by
  obtain ⟨t, hall, hcanonical, hrep⟩ := h.represents
  rw [treeOf, hall, Option.getD_some]
  refine ⟨hcanonical, fun key w hkey => ?_, hrep⟩
  obtain ⟨p, hp, heq⟩ := List.mem_map.mp ((hrep.2 key w).mp hkey)
  have hlen := h.short p hp
  rw [← (Prod.mk.inj heq).1, HexPrefix.length_nibbles]
  omega

/-- The hash of admissible pairs is that of their tree. -/
theorem Admissible.hashOf_treeOf (h : Admissible pairs) : hashOf pairs = hash ⟨treeOf pairs⟩ := by
  obtain ⟨t, hall, -, -⟩ := h.represents
  rw [hashOf, treeOf, hall, Option.bind_eq_bind, Option.bind_some, Option.getD_some]

/-- The root of pairs whose leaves fit, the hash of the empty tree included. -/
theorem Admissible.hashOf_eq (h : Admissible pairs)
    (hempty : emptyMPTHash = Ethash.keccak256 [0x80])
    (hfits : (treeOf pairs).AllLeaves MPTNode.Fits) :
    hashOf pairs
      = some (Ethash.keccak256 (MPTNode.rlp MPTNode.hashReference (treeOf pairs))) := by
  obtain ⟨hcanonical, hshort, -⟩ := h.treeOf_spec
  rw [h.hashOf_treeOf]
  rcases hroot : (treeOf pairs).isEmpty with _ | _
  · rw [hash_of_not_isEmpty (t := ⟨treeOf pairs⟩) hroot,
      MPTNode.hash_eq_of_fits hcanonical hshort hroot hfits]
  · rw [hash, if_pos hroot, eq_empty_of_isEmpty hroot, hempty, MPTNode.rlp]
    rfl

/-- Pairs with a root have leaves that fit. -/
theorem Admissible.fits_of_hashOf (h : Admissible pairs) {x : Bytes32}
    (hroot : hashOf pairs = some x) : (treeOf pairs).AllLeaves MPTNode.Fits := by
  obtain ⟨hcanonical, hshort, -⟩ := h.treeOf_spec
  rw [h.hashOf_treeOf] at hroot
  rcases hempty : (treeOf pairs).isEmpty with _ | _
  · rw [hash_of_not_isEmpty (t := ⟨treeOf pairs⟩) hempty] at hroot
    exact MPTNode.fits_of_hash hcanonical hshort hroot
  · rw [eq_empty_of_isEmpty hempty]
    trivial

omit [Ethash] in
/-- A pair is in the list exactly if its path is. -/
theorem mem_pathsOf {p : Bytes × Bytes} :
    (HexPrefix.nibbles p.1, p.2) ∈ pathsOf pairs ↔ p ∈ pairs := by
  refine ⟨fun hp => ?_, fun hp => List.mem_map_of_mem hp⟩
  obtain ⟨q, hq, heq⟩ := List.mem_map.mp hp
  obtain ⟨hkey, hvalue⟩ := Prod.mk.inj heq
  rwa [← Prod.ext (HexPrefix.nibbles_injective hkey) hvalue]

/-- The root identifies the pairs: equal roots mean the same pairs, in whatever order. -/
theorem Admissible.hashOf_eq_iff (h : Admissible pairs) (h' : Admissible pairs')
    (hempty : emptyMPTHash = Ethash.keccak256 [0x80]) {s : Set Bytes}
    (hinj : Set.InjOn Ethash.keccak256 s) (hs : MPTNode.encodings (treeOf pairs) ⊆ s)
    (hs' : MPTNode.encodings (treeOf pairs') ⊆ s)
    (hfits : (treeOf pairs).AllLeaves MPTNode.Fits)
    (hfits' : (treeOf pairs').AllLeaves MPTNode.Fits) :
    hashOf pairs = hashOf pairs' ↔ ∀ p, p ∈ pairs ↔ p ∈ pairs' := by
  obtain ⟨hcanonical, hshort, hrep⟩ := h.treeOf_spec
  obtain ⟨hcanonical', hshort', hrep'⟩ := h'.treeOf_spec
  rw [h.hashOf_eq hempty hfits, h'.hashOf_eq hempty hfits', Option.some.injEq]
  constructor
  · intro hhash p
    have hrlp := hinj (hs (MPTNode.rlp_mem_encodings _)) (hs' (MPTNode.rlp_mem_encodings _)) hhash
    have htree := MPTNode.rlp_injOn hinj hcanonical hcanonical' hshort hshort' hfits hfits' hs hs'
      hrlp
    rw [← mem_pathsOf, ← hrep.2, htree, hrep'.2, mem_pathsOf]
  · intro hpairs
    have htree : treeOf pairs = treeOf pairs' := by
      refine eq_of_contains_iff hcanonical hcanonical' fun key w => ?_
      rw [hrep.2, hrep'.2]
      simp only [pathsOf, List.mem_map, hpairs]
    rw [htree]

omit [Ethash] in
/-- Proper pairs are admissible. -/
theorem Proper.admissible (h : Proper pairs) : Admissible pairs :=
  admissible_of_length le_rfl h.keys h.distinct

omit [Ethash] in
/-- The leaves of proper pairs fit. -/
theorem Proper.fits_treeOf (h : Proper pairs) : (treeOf pairs).AllLeaves MPTNode.Fits := by
  obtain ⟨hcanonical, -, hrep⟩ := h.admissible.treeOf_spec
  refine (allLeaves_iff hcanonical hrep).mpr fun p hp => h.fits p hp _ ?_
  rw [leafPath, List.length_drop, HexPrefix.length_nibbles, h.keys p hp]
  omega

/-- The hash of proper pairs is the hash of the encoding of their tree. -/
theorem Proper.hashOf_eq (h : Proper pairs) (hempty : emptyMPTHash = Ethash.keccak256 [0x80]) :
    hashOf pairs
      = some (Ethash.keccak256 (MPTNode.rlp MPTNode.hashReference (treeOf pairs))) :=
  h.admissible.hashOf_eq hempty h.fits_treeOf

/-- Without collisions two lists of proper pairs have the same hash exactly if they have the same
pairs. -/
theorem hashOf_eq_iff (h : Proper pairs) (h' : Proper pairs')
    (hempty : emptyMPTHash = Ethash.keccak256 [0x80]) {s : Set Bytes}
    (hinj : Set.InjOn Ethash.keccak256 s) (hs : MPTNode.encodings (treeOf pairs) ⊆ s)
    (hs' : MPTNode.encodings (treeOf pairs') ⊆ s) :
    hashOf pairs = hashOf pairs' ↔ ∀ p, p ∈ pairs ↔ p ∈ pairs' :=
  h.admissible.hashOf_eq_iff h'.admissible hempty hinj hs hs' h.fits_treeOf h'.fits_treeOf

end MPT

end Zvmone
