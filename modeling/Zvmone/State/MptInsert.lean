import Zvmone.Library.HexPrefix
import Zvmone.State.Mpt

/-! # Insertion into the Merkle Patricia tree

`MPTNode.insert` of a key that is not shorter than the keys of the tree and extends none of them
ends normally, adds exactly one entry and keeps the tree canonical (`insert_canonical`). A tree
built from pairs with distinct keys of one length is compact and represents exactly these pairs
(`MPT.insertAll_represents`). -/

namespace Zvmone

open Patricia

namespace Path

/-- The path of a key of at most 32 bytes. -/
theorem ofKey_eq {key : Bytes} (h : key.length ≤ 32) :
    ofKey key = some (HexPrefix.nibbles key) := by
  have hbyte : ∀ b : UInt8, [Fin.ofNat 16 (b.toNat >>> 4), Fin.ofNat 16 (b.toNat &&& 0x0f)]
      = [Fin.ofNat 16 (b.toNat / 16), Fin.ofNat 16 b.toNat] := by
    intro b
    have hand : b.toNat &&& 0x0f = b.toNat % 16 := Nat.and_two_pow_sub_one_eq_mod _ 4
    rw [Nat.shiftRight_eq_div_pow, hand]
    congr 2
    apply Fin.ext
    simp
  rw [ofKey, if_pos (by omega), HexPrefix.nibbles]
  simp only [hbyte]

/-- The tail behind a mismatch. -/
theorem tail_append_cons (l : Path) (a : Fin 16) (p : Path) :
    tail (l ++ a :: p) (l.length + 1) = some p := by
  rw [tail, if_pos (by simp)]
  simp

/-- The head before a mismatch. -/
theorem head_append_cons (l : Path) (a : Fin 16) (p : Path) :
    head (l ++ a :: p) l.length = some l := by
  rw [head, if_pos (by simp)]
  simp

/-- Two paths that differ split at the position of the mismatch. -/
theorem mismatchPos_split : ∀ {p q : Path}, p.length ≤ q.length → mismatchPos p q ≠ p.length →
    ∃ l a b p' q', p = l ++ a :: p' ∧ q = l ++ b :: q' ∧ a ≠ b ∧ mismatchPos p q = l.length
  | [], _, _, h => absurd rfl h
  | a :: p, b :: q, hlen, h => by
    by_cases hab : a = b
    · subst b
      have hpos : mismatchPos (a :: p) (a :: q) = mismatchPos p q + 1 := if_pos rfl
      rw [hpos, List.length_cons] at h
      obtain ⟨l, c, d, p', q', rfl, rfl, hcd, hl⟩ :=
        mismatchPos_split (Nat.le_of_succ_le_succ hlen) (by omega)
      exact ⟨a :: l, c, d, p', q', rfl, rfl, hcd, by rw [hpos, hl, List.length_cons]⟩
    · exact ⟨[], a, b, p, q, rfl, rfl, hab, if_neg hab⟩

/-- Without a mismatch the shorter path is a prefix. -/
theorem prefix_of_mismatchPos : ∀ {p q : Path}, p.length ≤ q.length →
    mismatchPos p q = p.length → p <+: q
  | [], _, _, _ => List.nil_prefix
  | a :: p, b :: q, hlen, h => by
    by_cases hab : a = b
    · have hpos : mismatchPos (a :: p) (b :: q) = mismatchPos p q + 1 := if_pos hab
      rw [hpos, List.length_cons] at h
      rw [hab, List.cons_prefix_cons]
      exact ⟨rfl, prefix_of_mismatchPos (Nat.le_of_succ_le_succ hlen) (by omega)⟩
    · have hpos : mismatchPos (a :: p) (b :: q) = 0 := if_neg hab
      rw [hpos] at h
      cases h

end Path

namespace MPTNode

variable {t child : MPTNode} {path : Path} {value : Bytes}

/-- `optional_ext` puts a path before a branch. -/
theorem optionalExt_spec (p : Path) (hchild : child.Canonical) (hbranch : child.isBranch) :
    ∃ t', optionalExt p child = some t' ∧ t'.isEmpty = false ∧ t'.Canonical ∧
      ∀ k w, t'.Contains k w ↔ ∃ r, k = p ++ r ∧ child.Contains r w := by
  unfold optionalExt mkExt
  cases p with
  | nil =>
    exact ⟨child, if_neg (by simp), isEmpty_of_isBranch hbranch, hchild, by simp⟩
  | cons a p =>
    rw [if_pos (by simp), if_pos hbranch]
    exact ⟨_, rfl, rfl, ⟨by simp, hbranch, hchild⟩, fun _ _ => .rfl⟩

/-- `ext_branch` makes a fork of two nodes after a path. -/
theorem extBranch_spec (p : Path) {a b : Fin 16} (hab : a ≠ b) {u v : MPTNode}
    (hu : u.Canonical) (hv : v.Canonical) (hune : u.isEmpty = false) (hvne : v.isEmpty = false) :
    ∃ t', extBranch p a u b v = some t' ∧ t'.isEmpty = false ∧ t'.Canonical ∧
      ∀ k w, t'.Contains k w ↔
        (∃ r, k = p ++ a :: r ∧ u.Contains r w) ∨ ∃ r, k = p ++ b :: r ∧ v.Contains r w := by
  let br : MPTNode := .branch fun i => if i = a then u else if i = b then v else .empty
  have hbr : br.Canonical := by
    refine ⟨⟨a, b, hab, ?_, ?_⟩, fun i => ?_⟩
    · simpa using hune
    · simpa [hab.symm] using hvne
    · dsimp only
      split
      · exact hu
      · split
        · exact hv
        · trivial
  -- The branch holds the two subtrees, each below its own nibble.
  have hcontains : ∀ k w, br.Contains k w ↔
      (∃ r, k = a :: r ∧ u.Contains r w) ∨ ∃ r, k = b :: r ∧ v.Contains r w := by
    intro k w
    constructor
    · rintro ⟨i, r, rfl, hr⟩
      dsimp only at hr
      split at hr
      next hi => exact .inl ⟨r, by rw [hi], hr⟩
      next =>
        split at hr
        next hi => exact .inr ⟨r, by rw [hi], hr⟩
        next => exact absurd hr id
    · rintro (⟨r, rfl, hr⟩ | ⟨r, rfl, hr⟩)
      · exact ⟨a, r, rfl, by simpa using hr⟩
      · exact ⟨b, r, rfl, by simpa [hab.symm] using hr⟩
  -- The shared prefix, where there is one, is put over it.
  obtain ⟨t', ht', hne, hcanonical, hmem⟩ := optionalExt_spec p hbr rfl
  refine ⟨t', ?_, hne, hcanonical, fun k w => ?_⟩
  · rw [extBranch, if_neg hab]
    exact ht'
  · rw [hmem]
    constructor
    · rintro ⟨r, rfl, hr⟩
      rcases (hcontains r w).mp hr with ⟨s, rfl, hs⟩ | ⟨s, rfl, hs⟩
      · exact .inl ⟨s, rfl, hs⟩
      · exact .inr ⟨s, rfl, hs⟩
    · rintro (⟨s, rfl, hs⟩ | ⟨s, rfl, hs⟩)
      · exact ⟨_, rfl, (hcontains _ w).mpr (.inl ⟨s, rfl, hs⟩)⟩
      · exact ⟨_, rfl, (hcontains _ w).mpr (.inr ⟨s, rfl, hs⟩)⟩

/-- The digit at a mismatch. -/
theorem getD_append_cons (l : Path) (a : Fin 16) (p : Path) : (l ++ a :: p).getD l.length 0 = a := by
  simp

section split

variable {l p q : Path} {a b : Fin 16} (hlen : p.length ≤ q.length)
  (hpos : Path.mismatchPos (l ++ a :: p) (l ++ b :: q) = l.length)

include hlen hpos

/-- A leaf whose path splits from the new one becomes a fork of two leaves. -/
theorem insert_leaf_split (mvalue : Bytes) :
    insert (.leaf (l ++ a :: p) mvalue) (l ++ b :: q) value
      = extBranch l a (.leaf p mvalue) b (.leaf q value) := by
  have hmismatch : Path.mismatch (l ++ a :: p) (l ++ b :: q) = some l.length := by
    rw [Path.mismatch, if_pos (by simpa using hlen), hpos]
  have hne : l.length ≠ (l ++ a :: p).length := by simp
  have hnonempty : (l ++ a :: p).length ≠ 0 := by simp
  simp only [insert, hmismatch, guard, if_pos hne, if_pos hnonempty, Path.tail_append_cons,
    Path.head_append_cons, getD_append_cons, Option.pure_def, Option.bind_eq_bind,
    Option.bind_some]

/-- An extension whose path splits from the new one becomes a fork of its rest and a leaf. -/
theorem insert_ext_split {t' : MPTNode} (hrest : optionalExt p child = some t') :
    insert (.ext (l ++ a :: p) child) (l ++ b :: q) value
      = extBranch l a t' b (.leaf q value) := by
  have hmismatch : Path.mismatch (l ++ a :: p) (l ++ b :: q) = some l.length := by
    rw [Path.mismatch, if_pos (by simpa using hlen), hpos]
  have hne : l.length ≠ (l ++ a :: p).length := by simp
  have hnonempty : (l ++ a :: p).length ≠ 0 := by simp
  simp only [insert, hmismatch, guard, if_neg hne, if_pos hnonempty, Path.tail_append_cons,
    Path.head_append_cons, getD_append_cons, Option.pure_def, Option.bind_eq_bind,
    Option.bind_some, hrest]

end split

/-! ### Insertion into each kind of node -/

/-- `insert` makes `t'` of `t`: it is canonical and has exactly one entry more. -/
structure Inserted (t : MPTNode) (path : Path) (value : Bytes) (t' : MPTNode) : Prop where
  eq_some : insert t path value = some t'
  nonempty : t'.isEmpty = false
  branch : t.isBranch → t'.isBranch
  canonical : t'.Canonical
  contains : ∀ k w, t'.Contains k w ↔ k = path ∧ w = value ∨ t.Contains k w

/-- A leaf becomes a fork, since neither of the two paths is a prefix of the other. -/
theorem inserted_leaf {mpath : Path} {mvalue : Bytes} (value : Bytes)
    (hpath : (.leaf mpath mvalue : MPTNode).Admits path) :
    ∃ t', Inserted (.leaf mpath mvalue) path value t' := by
  obtain ⟨hle, hpre⟩ := hpath mpath mvalue ⟨rfl, rfl⟩
  have hne : Path.mismatchPos mpath path ≠ mpath.length := fun h =>
    hpre (Path.prefix_of_mismatchPos hle h)
  obtain ⟨l, a, b, p, q, rfl, rfl, hab, hpos⟩ := Path.mismatchPos_split hle hne
  have hlen : p.length ≤ q.length := by simpa using hle
  obtain ⟨t', ht', hne', hcanonical, hmem⟩ := extBranch_spec l hab
    (u := .leaf p mvalue) (v := .leaf q value) trivial trivial rfl rfl
  refine ⟨t', (insert_leaf_split hlen hpos mvalue).trans ht', hne', by simp [isBranch],
    hcanonical, fun k w => ?_⟩
  rw [hmem]
  simp only [Contains]
  constructor
  · rintro (⟨r, rfl, rfl, hw⟩ | ⟨r, rfl, rfl, hw⟩)
    · exact .inr ⟨rfl, hw⟩
    · exact .inl ⟨rfl, hw⟩
  · rintro (⟨rfl, hw⟩ | ⟨rfl, hw⟩)
    · exact .inr ⟨q, rfl, rfl, hw⟩
    · exact .inl ⟨p, rfl, rfl, hw⟩

/-- The path is not shorter than a key of the child, and so not shorter than that of the
extension. -/
theorem length_le_of_admits_ext {mpath : Path} (hchild : child.Canonical) (hbranch : child.isBranch)
    (hpath : (.ext mpath child : MPTNode).Admits path) : mpath.length ≤ path.length := by
  obtain ⟨key, w, hkey⟩ := hchild.exists_contains (isEmpty_of_isBranch hbranch)
  have hlen := (hpath _ _ ⟨key, rfl, hkey⟩).1
  rw [List.length_append] at hlen
  omega

/-- The child of an extension admits the rest of the path. -/
theorem admits_child_ext {mpath rest : Path}
    (hpath : (.ext mpath child : MPTNode).Admits (mpath ++ rest)) : child.Admits rest := by
  intro key w hkey
  obtain ⟨hlen, hpre⟩ := hpath _ _ ⟨key, rfl, hkey⟩
  rw [List.prefix_append_right_inj] at hpre
  exact ⟨by simpa using hlen, hpre⟩

/-- Where the paths match, the entry goes into the child of the extension. -/
theorem Inserted.ext {mpath rest : Path} {child' : MPTNode} (h : Inserted child rest value child')
    (hmpath : mpath ≠ []) (hbranch : child.isBranch)
    (hpos : Path.mismatchPos mpath (mpath ++ rest) = mpath.length) :
    Inserted (.ext mpath child) (mpath ++ rest) value (.ext mpath child') := by
  refine ⟨?_, rfl, by simp [isBranch], ⟨hmpath, h.branch hbranch, h.canonical⟩, fun k w => ?_⟩
  · have hle : mpath.length ≤ (mpath ++ rest).length := by simp
    have hnonempty : mpath.length ≠ 0 := by simpa using hmpath
    have htail : Path.tail (mpath ++ rest) mpath.length = some rest := by
      rw [Path.tail, if_pos (by simp; omega)]
      simp
    simp only [insert, Path.mismatch, if_pos hle, hpos, guard, if_pos hnonempty, htail, h.eq_some,
      Option.pure_def, Option.bind_eq_bind, Option.bind_some, if_true]
  · simp only [Contains]
    constructor
    · rintro ⟨r, rfl, hr⟩
      rcases (h.contains r w).mp hr with ⟨rfl, hw⟩ | hr
      · exact .inl ⟨rfl, hw⟩
      · exact .inr ⟨r, rfl, hr⟩
    · rintro (⟨rfl, hw⟩ | ⟨r, rfl, hr⟩)
      · exact ⟨rest, rfl, (h.contains _ _).mpr (.inl ⟨rfl, hw⟩)⟩
      · exact ⟨r, rfl, (h.contains _ _).mpr (.inr hr)⟩

/-- Where the paths split, the extension becomes a fork of its rest and a leaf. -/
theorem inserted_ext_split {mpath : Path} (value : Bytes) (hchild : child.Canonical)
    (hbranch : child.isBranch) (hle : mpath.length ≤ path.length)
    (hne : Path.mismatchPos mpath path ≠ mpath.length) :
    ∃ t', Inserted (.ext mpath child) path value t' := by
  obtain ⟨l, a, b, p, q, rfl, rfl, hab, hpos⟩ := Path.mismatchPos_split hle hne
  have hlen : p.length ≤ q.length := by simpa using hle
  -- Behind the fork the rest of the extension has no path if it split at the last digit.
  obtain ⟨u, hu, hune, hucanonical, humem⟩ := optionalExt_spec p hchild hbranch
  obtain ⟨t', ht', hne', hcanonical, hmem⟩ := extBranch_spec l hab
    (v := .leaf q value) hucanonical trivial hune rfl
  refine ⟨t', (insert_ext_split hlen hpos hu).trans ht', hne', by simp [isBranch],
    hcanonical, fun k w => ?_⟩
  rw [hmem]
  simp only [Contains, humem]
  constructor
  · rintro (⟨r, rfl, s, rfl, hs⟩ | ⟨r, rfl, rfl, hw⟩)
    · exact .inr ⟨s, by simp, hs⟩
    · exact .inl ⟨rfl, hw⟩
  · rintro (⟨rfl, hw⟩ | ⟨s, rfl, hs⟩)
    · exact .inr ⟨q, rfl, rfl, hw⟩
    · exact .inl ⟨p ++ s, by simp, s, rfl, hs⟩

/-- A path that a branch admits has a first digit. -/
theorem exists_cons_of_admits_branch {children : Fin 16 → MPTNode}
    (ht : (.branch children : MPTNode).Canonical)
    (hpath : (.branch children : MPTNode).Admits path) : ∃ i rest, path = i :: rest := by
  obtain ⟨⟨a, _, _, ha, _⟩, hchildren⟩ := ht
  cases path with
  | nil =>
    obtain ⟨key, w, hkey⟩ := (hchildren a).exists_contains ha
    have hlen := (hpath _ _ ⟨a, key, rfl, hkey⟩).1
    cases hlen
  | cons i rest => exact ⟨i, rest, rfl⟩

/-- The child of a branch admits the rest of the path. -/
theorem admits_child_branch {children : Fin 16 → MPTNode} {i : Fin 16} {rest : Path}
    (hpath : (.branch children : MPTNode).Admits (i :: rest)) : (children i).Admits rest := by
  intro key w hkey
  obtain ⟨hlen, hpre⟩ := hpath _ _ ⟨i, key, rfl, hkey⟩
  rw [List.cons_prefix_cons] at hpre
  exact ⟨Nat.le_of_succ_le_succ hlen, fun h => hpre ⟨rfl, h⟩⟩

/-- In a branch the entry goes into the child of its first digit. -/
theorem Inserted.below {children : Fin 16 → MPTNode} {i : Fin 16} {rest : Path} {child' : MPTNode}
    (h : Inserted (children i) rest value child') (ht : (.branch children : MPTNode).Canonical) :
    Inserted (.branch children) (i :: rest) value
      (.branch fun j => if j = i then child' else children j) := by
  obtain ⟨⟨a, b, hab, ha, hb⟩, hchildren⟩ := ht
  -- A branch keeps its two children: an insertion never empties one.
  have hstill : ∀ j, (children j).isEmpty = false →
      (if j = i then child' else children j).isEmpty = false := by
    intro j hj
    split
    · exact h.nonempty
    · exact hj
  refine ⟨?_, rfl, fun _ => rfl, ⟨⟨a, b, hab, hstill a ha, hstill b hb⟩, fun j => ?_⟩, fun k w => ?_⟩
  · have htail : Path.tail (i :: rest) 1 = some rest := by simp [Path.tail]
    simp only [insert, htail, h.eq_some, List.getD_cons_zero, Option.pure_def,
      Option.bind_eq_bind, Option.bind_some]
  · dsimp only
    split
    · exact h.canonical
    · exact hchildren j
  -- What the branch holds changes below `i` only.
  · simp only [Contains]
    constructor
    · rintro ⟨j, r, rfl, hr⟩
      split at hr
      next hj =>
        subst j
        rcases (h.contains r w).mp hr with ⟨rfl, hw⟩ | hr
        · exact .inl ⟨rfl, hw⟩
        · exact .inr ⟨i, r, rfl, hr⟩
      next => exact .inr ⟨j, r, rfl, hr⟩
    · rintro (⟨rfl, hw⟩ | ⟨j, r, rfl, hr⟩)
      · exact ⟨i, rest, rfl, by simpa using (h.contains _ _).mpr (.inl ⟨rfl, hw⟩)⟩
      · refine ⟨j, r, rfl, ?_⟩
        split
        next hj =>
          subst j
          exact (h.contains _ _).mpr (.inr hr)
        next => exact hr

/-- Inserting an admitted path adds exactly this entry and keeps the tree canonical. -/
theorem insert_canonical (value : Bytes) (ht : t.Canonical) (hpath : t.Admits path) :
    ∃ t', Inserted t path value t' := by
  induction t generalizing path with
  | empty => exact ⟨_, rfl, rfl, by simp [isBranch], trivial, fun k w => by simp [Contains]⟩
  | leaf mpath mvalue => exact inserted_leaf value hpath
  | ext mpath child ih =>
    obtain ⟨hmpath, hbranch, hchild⟩ := ht
    have hle := length_le_of_admits_ext hchild hbranch hpath
    by_cases hpos : Path.mismatchPos mpath path = mpath.length
    · obtain ⟨rest, rfl⟩ := Path.prefix_of_mismatchPos hle hpos
      obtain ⟨child', h⟩ := ih hchild (admits_child_ext hpath)
      exact ⟨_, h.ext hmpath hbranch hpos⟩
    · exact inserted_ext_split value hchild hbranch hle hpos
  | branch children ih =>
    obtain ⟨i, rest, rfl⟩ := exists_cons_of_admits_branch ht hpath
    obtain ⟨child', h⟩ := ih i (ht.2 i) (admits_child_branch hpath)
    exact ⟨_, h.below ht⟩

end MPTNode

namespace MPT

/-- The entries of the tree of some pairs. -/
def pathsOf (pairs : List (Bytes × Bytes)) : List (Path × Bytes) :=
  pairs.map fun p => (HexPrefix.nibbles p.1, p.2)

/-- Pairs in an order in which they can be inserted: the keys are not longer than a path, none is a
prefix of another one, and no key is shorter than an earlier one. -/
structure Admissible (pairs : List (Bytes × Bytes)) : Prop where
  short : ∀ p ∈ pairs, p.1.length ≤ 32
  prefixFree : pairs.Pairwise fun p q => ¬ p.1 <+: q.1 ∧ ¬ q.1 <+: p.1
  ordered : pairs.Pairwise fun p q => p.1.length ≤ q.1.length

variable {pairs : List (Bytes × Bytes)}

/-- Admissible pairs have distinct paths. -/
theorem Admissible.nodup_pathsOf (h : Admissible pairs) : (pathsOf pairs).Nodup := by
  refine List.pairwise_map.mpr (h.prefixFree.imp fun {p q} hpq heq => hpq.1 ?_)
  rw [HexPrefix.nibbles_injective (Prod.mk.inj heq).1]

/-- Admissibility passes on to the other pairs. -/
theorem Admissible.tail {p : Bytes × Bytes} (h : Admissible (p :: pairs)) : Admissible pairs :=
  ⟨fun q hq => h.short q (List.mem_cons_of_mem p hq), h.prefixFree.of_cons, h.ordered.of_cons⟩

/-- The first pair is added to the entries of the tree, and the other pairs can still be inserted. -/
theorem Admissible.insert_step {t : MPT} {p : Bytes × Bytes} (h : Admissible (p :: pairs))
    (ht : t.root.Canonical)
    (hadmits : ∀ q ∈ p :: pairs, t.root.Admits (HexPrefix.nibbles q.1)) :
    ∃ t₁, insert t p.1 p.2 = some t₁ ∧ t₁.root.Canonical ∧
      (∀ q ∈ pairs, t₁.root.Admits (HexPrefix.nibbles q.1)) ∧
      ∀ k w, t₁.root.Contains k w ↔
        k = HexPrefix.nibbles p.1 ∧ w = p.2 ∨ t.root.Contains k w := by
  obtain ⟨t₁, hinsert, -, -, hcanonical, hmem⟩ :=
    MPTNode.insert_canonical p.2 ht (hadmits p List.mem_cons_self)
  refine ⟨⟨t₁⟩, ?_, hcanonical, fun q hq k w hk => ?_, hmem⟩
  · rw [insert, Path.ofKey_eq (h.short p List.mem_cons_self)]
    simp only [Option.bind_eq_bind, Option.bind_some, hinsert]
    rfl
  · rcases (hmem k w).mp hk with ⟨rfl, -⟩ | hk
    · have hlen : p.1.length ≤ q.1.length := (List.pairwise_cons.mp h.ordered).1 q hq
      have hpre := ((List.pairwise_cons.mp h.prefixFree).1 q hq).1
      refine ⟨?_, fun hprefix => hpre (HexPrefix.prefix_of_nibbles hprefix)⟩
      rw [HexPrefix.length_nibbles, HexPrefix.length_nibbles]
      omega
    · exact hadmits q (List.mem_cons_of_mem p hq) k w hk

/-- Every insertion adds its pair to the entries of the tree so far. -/
theorem Admissible.insertAll_spec {t : MPT} (h : Admissible pairs) (ht : t.root.Canonical)
    (hadmits : ∀ p ∈ pairs, t.root.Admits (HexPrefix.nibbles p.1)) :
    ∃ t', insertAll t pairs = some t' ∧ t'.root.Canonical ∧
      ∀ k w, t'.root.Contains k w ↔ (k, w) ∈ pathsOf pairs ∨ t.root.Contains k w := by
  induction pairs generalizing t with
  | nil => exact ⟨t, rfl, ht, by simp [pathsOf]⟩
  | cons p pairs ih =>
    obtain ⟨t₁, hinsert, hcanonical, hadmits', hmem⟩ := h.insert_step ht hadmits
    obtain ⟨t', hall, hcanonical', hmem'⟩ := ih h.tail hcanonical hadmits'
    refine ⟨t', ?_, hcanonical', fun k w => ?_⟩
    · rw [insertAll, List.foldlM_cons, hinsert]
      exact hall
    · rw [hmem', hmem]
      simp only [pathsOf, List.map_cons, List.mem_cons, Prod.mk.injEq]
      tauto

/-- A tree built from pairs in an admissible order is canonical and represents exactly these. -/
theorem Admissible.represents (h : Admissible pairs) :
    ∃ t, insertAll {} pairs = some t ∧ t.root.Canonical ∧ t.root.Represents (pathsOf pairs) := by
  obtain ⟨t, hall, hcanonical, hmem⟩ := h.insertAll_spec (t := {}) trivial
    fun _ _ _ _ hk => absurd hk id
  refine ⟨t, hall, hcanonical, h.nodup_pathsOf, fun k w => ?_⟩
  rw [hmem]
  simp [Contains]

/-- Keys of one length can be inserted in any order. -/
theorem admissible_of_length {len : Nat} (hlen : len ≤ 32) (hkeys : ∀ p ∈ pairs, p.1.length = len)
    (hdistinct : (pairs.map Prod.fst).Nodup) : Admissible pairs := by
  have hsame : ∀ p ∈ pairs, ∀ q ∈ pairs, p.1.length = q.1.length := fun p hp q hq =>
    (hkeys p hp).trans (hkeys q hq).symm
  refine ⟨fun p hp => (hkeys p hp).le.trans hlen, ?_, ?_⟩
  · refine (List.pairwise_map.mp hdistinct).imp_of_mem fun {p q} hp hq hne => ⟨?_, ?_⟩
    · exact fun hpre => hne (hpre.eq_of_length (hsame p hp q hq))
    · exact fun hpre => hne (hpre.eq_of_length (hsame q hq p hp)).symm
  · exact List.pairwise_of_forall_mem_list fun p hp q hq => (hsame p hp q hq).le

/-- A tree built from pairs with distinct keys of one length represents exactly these pairs. -/
theorem insertAll_represents {len : Nat} (hlen : len ≤ 32)
    (hkeys : ∀ p ∈ pairs, p.1.length = len) (hdistinct : (pairs.map Prod.fst).Nodup) :
    ∃ t, insertAll {} pairs = some t ∧ t.root.Compact (2 * len) ∧
      t.root.Represents (pathsOf pairs) := by
  obtain ⟨t, hall, hcanonical, hrep⟩ := (admissible_of_length hlen hkeys hdistinct).represents
  refine ⟨t, hall, hcanonical.compact fun k w hk => ?_, hrep⟩
  obtain ⟨p, hp, heq⟩ := List.mem_map.mp ((hrep.2 k w).mp hk)
  rw [← (Prod.mk.inj heq).1, HexPrefix.length_nibbles, hkeys p hp]

end MPT

end Zvmone
