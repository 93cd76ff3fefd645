import Mathlib.Data.Fintype.Defs
import Mathlib.Data.List.Basic
import Mathlib.Data.List.Nodup
import Mathlib.Data.Multiset.Bind
import Mathlib.Order.Lattice
import Mathlib.Tactic.Common

/-! # Patricia tries

Tries over an arbitrary alphabet whose paths without a fork are merged into one node. A canonical
trie is determined by its entries (`eq_of_contains_iff`), so it does not depend on the order in
which they were inserted. Finite maps are given as lists of entries, and `under` and `dropPrefix`
are the entries that the children of a node hold. -/

/-- A node of a Patricia trie, or the empty trie. -/
inductive Patricia (α β : Type)
  | empty
  | leaf (path : List α) (value : β)
  | ext (path : List α) (child : Patricia α β)
  | branch (children : α → Patricia α β)

namespace Patricia

variable {α β : Type}

/-- There is no node. -/
def isEmpty : Patricia α β → Bool
  | .empty => true
  | _ => false

/-- The node is a branch. -/
def isBranch : Patricia α β → Bool
  | .branch _ => true
  | _ => false

/-- The entries of a trie. -/
def Contains : Patricia α β → List α → β → Prop
  | .empty, _, _ => False
  | .leaf path value, key, w => key = path ∧ w = value
  | .ext path child, key, w => ∃ rest, key = path ++ rest ∧ child.Contains rest w
  | .branch children, key, w => ∃ a rest, key = a :: rest ∧ (children a).Contains rest w

/-- No node could be merged with its child. -/
def Canonical : Patricia α β → Prop
  | .empty => True
  | .leaf _ _ => True
  | .ext path child => path ≠ [] ∧ child.isBranch ∧ child.Canonical
  | .branch children =>
      (∃ a b, a ≠ b ∧ (children a).isEmpty = false ∧ (children b).isEmpty = false) ∧
        ∀ a, (children a).Canonical

/-- All keys have length `n`, and no node could be merged with its child. -/
def Compact : Patricia α β → Nat → Prop
  | .empty, _ => True
  | .leaf path _, n => path.length = n
  | .ext path child, n =>
      path ≠ [] ∧ child.isBranch ∧ ∃ m, n = path.length + m ∧ child.Compact m
  | .branch children, n =>
      (∃ a b, a ≠ b ∧ (children a).isEmpty = false ∧ (children b).isEmpty = false) ∧
        ∃ m, n = m + 1 ∧ ∀ a, (children a).Compact m

/-- No key is longer than the path or a prefix of it. -/
def Admits (t : Patricia α β) (path : List α) : Prop :=
  ∀ key w, t.Contains key w → key.length ≤ path.length ∧ ¬ key <+: path

/-- No key is longer than `n`. -/
def Short (t : Patricia α β) (n : Nat) : Prop := ∀ key w, t.Contains key w → key.length ≤ n

/-- Every leaf satisfies a predicate on its path and value. -/
def AllLeaves (P : List α → β → Prop) : Patricia α β → Prop
  | .empty => True
  | .leaf path value => P path value
  | .ext _ child => child.AllLeaves P
  | .branch children => ∀ a, (children a).AllLeaves P

variable {t t' : Patricia α β} {n : Nat} {key : List α} {w w' : β}

/-- Only the empty trie is empty. -/
theorem eq_empty_of_isEmpty (h : t.isEmpty = true) : t = .empty := by
  cases t <;> first | rfl | cases h

/-- A branch is not empty. -/
theorem isEmpty_of_isBranch (h : t.isBranch) : t.isEmpty = false := by
  cases t <;> first | rfl | cases h

/-- Compact tries are canonical. -/
theorem Compact.canonical (ht : t.Compact n) : t.Canonical := by
  induction t generalizing n with
  | empty => trivial
  | leaf path value => trivial
  | ext path child ih =>
    obtain ⟨hpath, hbranch, m, -, hchild⟩ := ht
    exact ⟨hpath, hbranch, ih hchild⟩
  | branch children ih =>
    obtain ⟨hfork, m, -, hchildren⟩ := ht
    exact ⟨hfork, fun a => ih a (hchildren a)⟩

/-- Shortness weakens along the bound. -/
theorem Compact.short {m : Nat} (ht : t.Compact n) (hn : n ≤ m) : t.Short m := by
  intro key w hkey
  induction t generalizing key n m with
  | empty => cases hkey
  | leaf path value =>
    obtain ⟨rfl, -⟩ := hkey
    exact (show key.length = n from ht).le.trans hn
  | ext path child ih =>
    obtain ⟨-, -, k, rfl, hchild⟩ := ht
    obtain ⟨rest, rfl, hrest⟩ := hkey
    have hlen := ih hchild le_rfl rest hrest
    rw [List.length_append]
    omega
  | branch children ih =>
    obtain ⟨-, k, rfl, hchildren⟩ := ht
    obtain ⟨a, rest, rfl, hrest⟩ := hkey
    exact (Nat.succ_le_succ (ih a (hchildren a) le_rfl rest hrest)).trans hn

/-- The child of an extension is as short as the extension. -/
theorem Short.child {path : List α} {child : Patricia α β} (h : (ext path child).Short n) :
    child.Short n := by
  intro key w hkey
  have hlen := h (path ++ key) w ⟨key, rfl, hkey⟩
  rw [List.length_append] at hlen
  omega

/-- The children of a branch are as short as the branch. -/
theorem Short.children {children : α → Patricia α β} (h : (branch children).Short n) (a : α) :
    (children a).Short n :=
  fun key w hkey => (Nat.le_succ _).trans (h (a :: key) w ⟨a, key, rfl, hkey⟩)

/-- A canonical trie that is not empty has an entry. -/
theorem Canonical.exists_contains (ht : t.Canonical) (h : t.isEmpty = false) :
    ∃ key w, t.Contains key w := by
  induction t with
  | empty => cases h
  | leaf path value => exact ⟨path, value, rfl, rfl⟩
  | ext path child ih =>
    obtain ⟨-, hbranch, hchild⟩ := ht
    obtain ⟨key, w, hkey⟩ := ih hchild (isEmpty_of_isBranch hbranch)
    exact ⟨path ++ key, w, key, rfl, hkey⟩
  | branch children ih =>
    obtain ⟨⟨a, -, -, ha, -⟩, hchildren⟩ := ht
    obtain ⟨key, w, hkey⟩ := ih a (hchildren a) ha
    exact ⟨a :: key, w, a, key, rfl, hkey⟩

/-- The path of an extension is a part of a key. -/
theorem Short.path {path : List α} {child : Patricia α β} (h : (ext path child).Short n)
    (ht : (ext path child).Canonical) : path.length ≤ n := by
  obtain ⟨-, hbranch, hchild⟩ := ht
  obtain ⟨key, w, hkey⟩ := hchild.exists_contains (isEmpty_of_isBranch hbranch)
  have hlen := h (path ++ key) w ⟨key, rfl, hkey⟩
  rw [List.length_append] at hlen
  omega

/-- A canonical trie whose keys have length `n` is compact. -/
theorem Canonical.compact (ht : t.Canonical) (hlen : ∀ key w, t.Contains key w → key.length = n) :
    t.Compact n := by
  induction t generalizing n with
  | empty => trivial
  | leaf path value => exact hlen path value ⟨rfl, rfl⟩
  | ext path child ih =>
    obtain ⟨hpath, hbranch, hchild⟩ := ht
    obtain ⟨key, w, hkey⟩ := hchild.exists_contains (isEmpty_of_isBranch hbranch)
    refine ⟨hpath, hbranch, key.length, ?_, ih hchild fun k v hk => ?_⟩
    · rw [← hlen _ _ ⟨key, rfl, hkey⟩, List.length_append]
    · have hk' := hlen _ _ ⟨k, rfl, hk⟩
      have hkey' := hlen _ _ ⟨key, rfl, hkey⟩
      simp only [List.length_append] at hk' hkey'
      omega
  | branch children ih =>
    obtain ⟨⟨a, b, hab, ha, hb⟩, hchildren⟩ := ht
    obtain ⟨key, w, hkey⟩ := (hchildren a).exists_contains ha
    have hn : n = key.length + 1 := (hlen _ _ ⟨a, key, rfl, hkey⟩).symm
    refine ⟨⟨a, b, hab, ha, hb⟩, key.length, hn, fun c => ih c (hchildren c) fun k v hk => ?_⟩
    have hk' : k.length + 1 = n := hlen _ _ ⟨c, k, rfl, hk⟩
    omega

/-- A canonical branch has two entries that differ in the first letter. -/
theorem Canonical.exists_fork (ht : t.Canonical) (h : t.isBranch) :
    ∃ a b k l w w', a ≠ b ∧ t.Contains (a :: k) w ∧ t.Contains (b :: l) w' := by
  cases t with
  | branch children =>
    obtain ⟨⟨a, b, hab, ha, hb⟩, hchildren⟩ := ht
    obtain ⟨k, w, hk⟩ := (hchildren a).exists_contains ha
    obtain ⟨l, w', hl⟩ := (hchildren b).exists_contains hb
    exact ⟨a, b, k, l, w, w', hab, ⟨a, k, rfl, hk⟩, ⟨b, l, rfl, hl⟩⟩
  | _ => cases h

/-- The keys of an extension whose child is a branch: the path is their longest common prefix. -/
theorem Canonical.path_le {path : List α} {child : Patricia α β} (ht : (ext path child).Canonical)
    {p : List α} (hp : ∀ key w, (ext path child).Contains key w → p <+: key) :
    p.length ≤ path.length := by
  obtain ⟨-, hbranch, hchild⟩ := ht
  obtain ⟨a, b, k, l, w, w', hab, hk, hl⟩ := hchild.exists_fork hbranch
  obtain ⟨s, hs⟩ := hp _ _ ⟨_, rfl, hk⟩
  obtain ⟨s', hs'⟩ := hp _ _ ⟨_, rfl, hl⟩
  by_contra hlt
  -- Otherwise the two keys would agree at the position where they fork.
  have ha : p[path.length]? = some a := by
    have := congrArg (·[path.length]?) hs
    rw [List.getElem?_append_left (by omega)] at this
    simpa using this
  have hb : p[path.length]? = some b := by
    have := congrArg (·[path.length]?) hs'
    rw [List.getElem?_append_left (by omega)] at this
    simpa using this
  exact hab (Option.some.inj (ha.symm.trans hb))

/-- Extensions with the same entries have the same path: a longer path could be split off the child,
which is a branch. -/
theorem Canonical.ext_path_eq {p q : List α} {c d : Patricia α β} (hp : (ext p c).Canonical)
    (hq : (ext q d).Canonical)
    (h : ∀ key w, (ext p c).Contains key w ↔ (ext q d).Contains key w) : p = q := by
  have hlen : p.length = q.length := by
    apply Nat.le_antisymm
    · refine hq.path_le fun key w hkey => ?_
      obtain ⟨rest, rfl, -⟩ := (h key w).mpr hkey
      exact List.prefix_append p rest
    · refine hp.path_le fun key w hkey => ?_
      obtain ⟨rest, rfl, -⟩ := (h key w).mp hkey
      exact List.prefix_append q rest
  obtain ⟨key, w, hkey⟩ := hp.exists_contains rfl
  obtain ⟨rest', hrest', -⟩ := (h key w).mp hkey
  obtain ⟨rest, hrest, -⟩ := hkey
  exact (List.append_inj (hrest.symm.trans hrest') hlen).1

/-- Not all keys of a canonical branch start with the same letter. -/
theorem Canonical.not_forall_head {children : α → Patricia α β} (ht : (branch children).Canonical)
    {c : α} : ¬ ∀ key w, (branch children).Contains key w → key.head? = some c := by
  intro hc
  obtain ⟨a, b, k, l, w, w', hab, hk, hl⟩ := ht.exists_fork rfl
  have ha : some a = some c := hc _ _ hk
  have hb : some b = some c := hc _ _ hl
  exact hab (Option.some.inj (ha.trans hb.symm))

/-- The keys of an extension begin as its path does. -/
theorem head_of_contains_ext {path : List α} {child : Patricia α β} (hpath : path ≠ [])
    (h : (ext path child).Contains key w) : key.head? = some (path.head hpath) := by
  obtain ⟨rest, rfl, -⟩ := h
  rw [List.head?_append_of_ne_nil _ hpath, List.head?_eq_some_head hpath]

/-- A canonical trie with one key is a leaf. -/
theorem Canonical.eq_leaf (ht : t.Canonical) (h : t.Contains key w)
    (hunique : ∀ k v, t.Contains k v → k = key) : t = .leaf key w := by
  cases t with
  | empty => cases h
  | leaf path value =>
    obtain ⟨rfl, rfl⟩ := h
    rfl
  | ext path child =>
    obtain ⟨-, hbranch, hchild⟩ := ht
    obtain ⟨a, b, k, l, v, v', hab, hk, hl⟩ := hchild.exists_fork hbranch
    have heq := (hunique _ _ ⟨_, rfl, hk⟩).trans (hunique _ _ ⟨_, rfl, hl⟩).symm
    exact absurd (List.cons.inj (List.append_cancel_left heq)).1 hab
  | branch children =>
    obtain ⟨a, b, k, l, v, v', hab, hk, hl⟩ := ht.exists_fork rfl
    have heq := (hunique _ _ hk).trans (hunique _ _ hl).symm
    exact absurd (List.cons.inj heq).1 hab

/-- A canonical trie is determined by its entries. -/
theorem eq_of_contains_iff (ht : t.Canonical) (ht' : t'.Canonical)
    (h : ∀ key w, t.Contains key w ↔ t'.Contains key w) : t = t' := by
  induction t generalizing t' with
  -- Nodes of different kinds hold different keys: none, one, keys with one head, keys with two heads.
  | empty =>
    rcases hempty : t'.isEmpty with _ | _
    · obtain ⟨key, w, hkey⟩ := ht'.exists_contains hempty
      exact absurd ((h key w).mpr hkey) id
    · exact (eq_empty_of_isEmpty hempty).symm
  | leaf path value =>
    have hmem : t'.Contains path value := (h path value).mp ⟨rfl, rfl⟩
    exact (ht'.eq_leaf hmem fun k v hk => ((h k v).mpr hk).1).symm
  | ext path child ih =>
    cases t' with
    | empty =>
      obtain ⟨key, w, hkey⟩ := ht.exists_contains rfl
      exact absurd ((h key w).mp hkey) id
    | leaf path' value =>
      have hmem : (ext path child).Contains path' value := (h path' value).mpr ⟨rfl, rfl⟩
      exact ht.eq_leaf hmem fun k v hk => ((h k v).mp hk).1
    | ext path' child' =>
      -- Both paths are the longest common prefix of the keys.
      obtain rfl := ht.ext_path_eq ht' h
      refine congrArg _ (ih ht.2.2 ht'.2.2 fun key w => ?_)
      have hkey := h (path ++ key) w
      simpa [Contains] using hkey
    | branch children =>
      exact absurd (fun key w hkey => head_of_contains_ext ht.1 ((h key w).mpr hkey))
        ht'.not_forall_head
  | branch children ih =>
    cases t' with
    | empty =>
      obtain ⟨key, w, hkey⟩ := ht.exists_contains rfl
      exact absurd ((h key w).mp hkey) id
    | leaf path' value =>
      have hmem : (branch children).Contains path' value := (h path' value).mpr ⟨rfl, rfl⟩
      exact ht.eq_leaf hmem fun k v hk => ((h k v).mp hk).1
    | ext path' child' =>
      exact absurd (fun key w hkey => head_of_contains_ext ht'.1 ((h key w).mp hkey))
        ht.not_forall_head
    | branch children' =>
      refine congrArg _ (funext fun a => ih a (ht.2 a) (ht'.2 a) fun key w => ?_)
      have hkey := h (a :: key) w
      simpa [Contains] using hkey

/-! ### Entries as lists -/

/-- The entries of the trie, in any order. -/
def Represents (t : Patricia α β) (entries : List (List α × β)) : Prop :=
  entries.Nodup ∧ ∀ key w, t.Contains key w ↔ (key, w) ∈ entries

/-- The entries without the first `n` letters of their keys. -/
def dropPrefix (n : Nat) (entries : List (List α × β)) : List (List α × β) :=
  entries.map fun e => (e.1.drop n, e.2)

section leaves

variable [Fintype α]

/-- The full paths and the values of the leaves, with multiplicity. -/
def leaves : Patricia α β → Multiset (List α × β)
  | .empty => 0
  | .leaf path value => {(path, value)}
  | .ext path child => child.leaves.map fun e => (path ++ e.1, e.2)
  | .branch children =>
      (Finset.univ : Finset α).val.bind fun a => (children a).leaves.map fun e => (a :: e.1, e.2)

/-- The list of the leaves has exactly the entries of the trie. -/
theorem mem_leaves : (key, w) ∈ t.leaves ↔ t.Contains key w := by
  induction t generalizing key w with
  | empty => simp [leaves, Contains]
  | leaf path value => simp [leaves, Contains]
  | ext path child ih =>
    simp only [leaves, Contains, Multiset.mem_map, Prod.mk.injEq, Prod.exists, ih]
    constructor
    · rintro ⟨k, v, hk, rfl, rfl⟩
      exact ⟨k, rfl, hk⟩
    · rintro ⟨k, rfl, hk⟩
      exact ⟨k, w, hk, rfl, rfl⟩
  | branch children ih =>
    simp only [leaves, Contains, Multiset.mem_bind, Finset.mem_val, Finset.mem_univ, true_and,
      Multiset.mem_map, Prod.mk.injEq, Prod.exists, ih]
    constructor
    · rintro ⟨a, k, v, hk, rfl, rfl⟩
      exact ⟨a, k, rfl, hk⟩
    · rintro ⟨a, k, rfl, hk⟩
      exact ⟨a, k, w, hk, rfl, rfl⟩

/-- No two leaves have the same path and value. -/
theorem nodup_leaves (t : Patricia α β) : t.leaves.Nodup := by
  induction t with
  | empty => exact Multiset.nodup_zero
  | leaf path value => exact Multiset.nodup_singleton _
  | ext path child ih =>
    refine ih.map fun x y hxy => ?_
    obtain ⟨hpath, hvalue⟩ := Prod.mk.inj hxy
    exact Prod.ext (List.append_cancel_left hpath) hvalue
  | branch children ih =>
    refine Multiset.nodup_bind.mpr ⟨fun a _ => (ih a).map fun x y hxy => ?_, ?_⟩
    · obtain ⟨hpath, hvalue⟩ := Prod.mk.inj hxy
      exact Prod.ext (List.cons.inj hpath).2 hvalue
    · refine Finset.univ.nodup.pairwise fun a _ b _ hab => ?_
      refine Multiset.disjoint_left.mpr fun {e} ha hb => ?_
      obtain ⟨x, -, rfl⟩ := Multiset.mem_map.mp ha
      obtain ⟨y, -, hxy⟩ := Multiset.mem_map.mp hb
      exact hab (List.cons.inj (Prod.mk.inj hxy).1).1.symm

/-- The leaves of a trie are the entries that it represents. -/
theorem Represents.leaves_eq {entries : List (List α × β)} (h : t.Represents entries) :
    t.leaves = entries := by
  refine (Multiset.Nodup.ext t.nodup_leaves (Multiset.coe_nodup.mpr h.1)).mpr ?_
  rintro ⟨key, w⟩
  rw [mem_leaves, Multiset.mem_coe]
  exact h.2 key w

end leaves

variable {entries : List (List α × β)} {path : List α} {child : Patricia α β}

/-- Cutting off a common prefix gives the entries below it. -/
theorem mem_dropPrefix {p : List α} (hp : ∀ e ∈ entries, p <+: e.1) {k : List α} {w : β} :
    (k, w) ∈ dropPrefix p.length entries ↔ (p ++ k, w) ∈ entries := by
  unfold dropPrefix
  rw [List.mem_map]
  constructor
  · rintro ⟨⟨key, v⟩, hmem, hkey⟩
    obtain ⟨s, rfl⟩ := hp _ hmem
    simp only [List.drop_left, Prod.mk.injEq] at hkey
    obtain ⟨rfl, rfl⟩ := hkey
    exact hmem
  · intro h
    exact ⟨_, h, by simp⟩

/-- Cutting off a common prefix keeps the entries distinct. -/
theorem nodup_dropPrefix {p : List α} (hp : ∀ e ∈ entries, p <+: e.1) (h : entries.Nodup) :
    (dropPrefix p.length entries).Nodup := by
  refine h.map_on ?_
  rintro ⟨k, v⟩ hk ⟨l, w⟩ hl heq
  obtain ⟨s, rfl⟩ := hp _ hk
  obtain ⟨s', rfl⟩ := hp _ hl
  simpa using heq

/-- The empty trie represents no entries. -/
theorem Represents.eq_nil (h : (empty : Patricia α β).Represents entries) : entries = [] := by
  refine List.eq_nil_iff_forall_not_mem.mpr ?_
  rintro ⟨key, w⟩ hmem
  exact (h.2 key w).mpr hmem

/-- A leaf represents one entry. -/
theorem Represents.eq_singleton {value : β} (h : (leaf path value).Represents entries) :
    entries = [(path, value)] := by
  have hmem : (path, value) ∈ entries := (h.2 _ _).mp ⟨rfl, rfl⟩
  have hall : ∀ e ∈ entries, e = (path, value) := by
    rintro ⟨key, w⟩ hkey
    obtain ⟨rfl, rfl⟩ := (h.2 _ _).mpr hkey
    rfl
  rcases entries with _ | ⟨e, _ | ⟨e', es⟩⟩
  · cases hmem
  · rw [hall e (by simp)]
  · have heq := (hall e (by simp)).trans (hall e' (by simp)).symm
    exact absurd heq (List.ne_of_not_mem_cons (List.nodup_cons.mp h.1).1)

/-- The keys in the trie are those of the entries. -/
theorem Represents.mem_keys (h : t.Represents entries) (hkey : t.Contains key w) :
    key ∈ entries.map Prod.fst :=
  List.mem_map_of_mem (f := Prod.fst) ((h.2 key w).mp hkey)

/-- A trie that is not empty represents some entries. -/
theorem Represents.keys_ne_nil (h : t.Represents entries) (ht : t.Canonical)
    (hne : t.isEmpty = false) : entries.map Prod.fst ≠ [] := by
  obtain ⟨key, w, hkey⟩ := ht.exists_contains hne
  exact List.ne_nil_of_mem (h.mem_keys hkey)

/-- A node that is neither empty nor a leaf holds two keys at least. -/
theorem Represents.exists_other (h : t.Represents entries) (ht : t.Canonical)
    (hne : ∀ value, t ≠ .leaf key value) (hkey : key ∈ entries.map Prod.fst) :
    ∃ k ∈ entries.map Prod.fst, k ≠ key := by
  obtain ⟨⟨key, w⟩, hmem, rfl⟩ := List.mem_map.mp hkey
  by_contra hall
  simp only [not_exists, not_and, not_not] at hall
  exact hne w (ht.eq_leaf ((h.2 key w).mpr hmem) fun k v hk => hall k (h.mem_keys hk))

/-- A canonical trie that is neither empty nor a leaf has two entries. -/
theorem Represents.two_entries (h : t.Represents entries) (ht : t.Canonical)
    (hne : t.isEmpty = false) (hleaf : ∀ key value, t ≠ .leaf key value) :
    ∃ e₁ e₂ rest, entries = e₁ :: e₂ :: rest := by
  rcases entries with _ | ⟨e₁, _ | ⟨e₂, rest⟩⟩
  · exact absurd rfl (h.keys_ne_nil ht hne)
  · obtain ⟨k, hk, hother⟩ := h.exists_other ht (hleaf e₁.1) (by simp)
    exact absurd (List.mem_singleton.mp hk) hother
  · exact ⟨e₁, e₂, rest, rfl⟩

/-- All keys of an extension begin with its path. -/
theorem Represents.prefix_ext (h : (ext path child).Represents entries) :
    ∀ e ∈ entries, path <+: e.1 := by
  rintro ⟨key, w⟩ hmem
  obtain ⟨rest, rfl, -⟩ := (h.2 _ _).mpr hmem
  exact List.prefix_append path rest

/-- The child of an extension holds the entries without its path. -/
theorem Represents.of_ext (h : (ext path child).Represents entries) :
    child.Represents (dropPrefix path.length entries) := by
  refine ⟨nodup_dropPrefix h.prefix_ext h.1, fun key w => ?_⟩
  rw [mem_dropPrefix h.prefix_ext, ← h.2]
  simp [Contains]

section

variable [DecidableEq α] {children : α → Patricia α β}

/-- The longest common prefix of two keys. -/
def lcp : List α → List α → List α
  | a :: k, b :: l => if a = b then a :: lcp k l else []
  | _, _ => []

/-- The longest common prefix of all keys. -/
def commonPrefix : List (List α) → List α
  | [] => []
  | [k] => k
  | k :: ks => lcp k (commonPrefix ks)

/-- The entries under a letter, without that letter. -/
def under (a : α) (entries : List (List α × β)) : List (List α × β) :=
  entries.filterMap fun e =>
    match e.1 with
    | b :: k => if b = a then some (k, e.2) else none
    | [] => none

/-- The number of letters of a key up to the last one that tells it from another key. -/
def fork (keys : List (List α)) (key : List α) : Nat :=
  ((keys.filter (· ≠ key)).map fun k => (lcp key k).length + 1).foldr max 0

/-- The longest common prefix is the greatest of the common prefixes. -/
theorem prefix_lcp_iff {p k l : List α} : p <+: lcp k l ↔ p <+: k ∧ p <+: l := by
  induction k generalizing p l with
  | nil => simp +contextual [lcp]
  | cons a k ih =>
    cases l with
    | nil => simp +contextual [lcp]
    | cons b l =>
      cases p with
      | nil => simp
      | cons c p =>
        rw [lcp]
        split
        next hab =>
          rw [hab, List.cons_prefix_cons, List.cons_prefix_cons, List.cons_prefix_cons, ih]
          exact and_and_left
        next hab =>
          rw [List.cons_prefix_cons, List.cons_prefix_cons]
          simp only [List.prefix_nil, reduceCtorEq, false_iff]
          rintro ⟨⟨rfl, -⟩, rfl, -⟩
          exact hab rfl

/-- A sequence is a prefix of the common prefix exactly when it is one of every key. -/
theorem prefix_commonPrefix_iff {keys : List (List α)} (h : keys ≠ []) {p : List α} :
    p <+: commonPrefix keys ↔ ∀ k ∈ keys, p <+: k := by
  induction keys with
  | nil => exact absurd rfl h
  | cons k ks ih =>
    cases ks with
    | nil => simp [commonPrefix]
    | cons l ks =>
      rw [commonPrefix, prefix_lcp_iff, ih (by simp)]
      · simp
      · simp

/-- The entries under a digit, with the digit left out. -/
theorem mem_under {a : α} {k : List α} {w : β} :
    (k, w) ∈ under a entries ↔ (a :: k, w) ∈ entries := by
  unfold under
  rw [List.mem_filterMap]
  constructor
  · rintro ⟨⟨key, v⟩, hmem, hkey⟩
    rcases key with _ | ⟨b, l⟩
    · cases hkey
    · dsimp only at hkey
      split at hkey <;> cases hkey
      subst b
      exact hmem
  · intro h
    exact ⟨_, h, by simp⟩

/-- The entries under a digit are distinct if all are. -/
theorem nodup_under (h : entries.Nodup) (a : α) : (under a entries).Nodup := by
  refine h.filterMap ?_
  rintro ⟨k, v⟩ ⟨l, w⟩ ⟨m, x⟩ hk hl
  rcases k with _ | ⟨b, k⟩ <;> rcases l with _ | ⟨c, l⟩ <;> simp_all

/-- A child of a branch holds the entries under its letter. -/
theorem Represents.of_branch (h : (branch children).Represents entries) (a : α) :
    (children a).Represents (under a entries) := by
  refine ⟨nodup_under h.1 a, fun key w => ?_⟩
  rw [mem_under, ← h.2]
  simp [Contains]

/-- The path of an extension is the common prefix of its keys. -/
theorem Represents.commonPrefix_ext (h : (ext path child).Represents entries)
    (ht : (ext path child).Canonical) : commonPrefix (entries.map Prod.fst) = path := by
  have hne := h.keys_ne_nil ht rfl
  have hle : path <+: commonPrefix (entries.map Prod.fst) := by
    rw [prefix_commonPrefix_iff hne]
    simpa using fun k w hk => h.prefix_ext (k, w) hk
  have hlen := ht.path_le fun key w hkey =>
    (prefix_commonPrefix_iff hne).mp (List.prefix_refl _) key (h.mem_keys hkey)
  exact (hle.eq_of_length_le hlen).symm

/-- The keys of a branch have no common prefix. -/
theorem Represents.commonPrefix_branch (h : (branch children).Represents entries)
    (ht : (branch children).Canonical) : commonPrefix (entries.map Prod.fst) = [] := by
  have hne := h.keys_ne_nil ht rfl
  rcases hp : commonPrefix (entries.map Prod.fst) with _ | ⟨c, p⟩
  · rfl
  · refine absurd (fun key w hkey => ?_) (ht.not_forall_head (c := c))
    have hpre := (prefix_commonPrefix_iff hne).mp (List.prefix_refl _) key (h.mem_keys hkey)
    rw [hp] at hpre
    obtain ⟨s, rfl⟩ := hpre
    rfl

/-! ### The paths of the leaves -/

/-- The fork of a key bounds the digits that it shares with the others. -/
theorem fork_le_iff {keys : List (List α)} {m : Nat} :
    fork keys key ≤ m ↔ ∀ k ∈ keys, k ≠ key → (lcp key k).length + 1 ≤ m := by
  have hfold : ∀ ns : List Nat, ns.foldr max 0 ≤ m ↔ ∀ i ∈ ns, i ≤ m := by
    intro ns
    induction ns with
    | nil => simp
    | cons i ns ih => simp [ih]
  rw [fork, hfold]
  simp only [ne_eq, decide_not, List.mem_map, List.mem_filter, Bool.not_eq_true',
    decide_eq_false_iff_not, forall_exists_index, and_imp]
  constructor
  · exact fun hall k hk hne => hall _ k hk hne rfl
  · rintro hall _ k hk hne rfl
    exact hall k hk hne

/-- A common beginning adds to the longest common prefix. -/
theorem lcp_append (p k l : List α) : lcp (p ++ k) (p ++ l) = p ++ lcp k l := by
  induction p with
  | nil => rfl
  | cons a p ih => simp [lcp, ih]

/-- Keys with a common beginning fork after it. -/
theorem fork_append {keys keys' : List (List α)} {p k : List α}
    (hmem : ∀ l, p ++ l ∈ keys ↔ l ∈ keys') (hother : p.length ≤ fork keys (p ++ k)) :
    fork keys (p ++ k) = p.length + fork keys' k := by
  refine le_antisymm (fork_le_iff.mpr fun l hl hne => ?_) ?_
  · by_cases hp : p <+: l
    · obtain ⟨s, rfl⟩ := hp
      have hle := fork_le_iff.mp le_rfl s ((hmem s).mp hl) (by simpa using hne)
      rw [lcp_append, List.length_append]
      omega
    · -- A key that does not start with `p` leaves it before its end.
      have hlt : (lcp (p ++ k) l).length < p.length := by
        by_contra hge
        have hpre := prefix_lcp_iff.mp (List.prefix_refl (lcp (p ++ k) l))
        exact hp ((List.prefix_of_prefix_length_le (List.prefix_append p k) hpre.1
          (by omega)).trans hpre.2)
      omega
  · have hfork : fork keys' k ≤ fork keys (p ++ k) - p.length := by
      refine fork_le_iff.mpr fun l hl hne => ?_
      have hle := fork_le_iff.mp (le_refl (fork keys (p ++ k))) (p ++ l) ((hmem l).mpr hl)
        (by simpa using hne)
      rw [lcp_append, List.length_append] at hle
      omega
    omega

/-- The leaf of an entry has the part of the key after the letter that tells it from all others. -/
theorem Represents.allLeaves_iff {P : List α → β → Prop} (h : t.Represents entries)
    (ht : t.Canonical) : t.AllLeaves P ↔
      ∀ e ∈ entries, P (e.1.drop (fork (entries.map Prod.fst) e.1)) e.2 := by
  induction t generalizing entries with
  | empty => simp [h.eq_nil, AllLeaves]
  | leaf path value => simp [h.eq_singleton, AllLeaves, fork]
  | ext path child ih =>
    -- An extension lengthens all keys and all forks by its path.
    have hmem : ∀ l, path ++ l ∈ entries.map Prod.fst ↔
        l ∈ (dropPrefix path.length entries).map Prod.fst := by
      intro l
      simp [mem_dropPrefix h.prefix_ext]
    have hfork : ∀ k, path ++ k ∈ entries.map Prod.fst →
        fork (entries.map Prod.fst) (path ++ k)
          = path.length + fork ((dropPrefix path.length entries).map Prod.fst) k := by
      intro k hk
      refine fork_append hmem ?_
      -- A fork inside the path would be a key that does not have it as a prefix.
      obtain ⟨l, hl, hne⟩ := h.exists_other ht (fun _ => by simp) hk
      obtain ⟨e, he, rfl⟩ := List.mem_map.mp hl
      obtain ⟨s, hs⟩ := h.prefix_ext e he
      have hle := fork_le_iff.mp le_rfl e.1 hl hne
      rw [← hs, lcp_append, List.length_append] at hle
      omega
    obtain ⟨-, -, hchild⟩ := ht
    rw [AllLeaves, ih h.of_ext hchild]
    constructor
    · rintro hall ⟨key, w⟩ he
      obtain ⟨k, rfl⟩ := h.prefix_ext _ he
      have := hall (k, w) ((mem_dropPrefix h.prefix_ext).mpr he)
      rw [hfork k (List.mem_map_of_mem (f := Prod.fst) he)]
      simpa using this
    · rintro hall ⟨k, w⟩ he
      have he := (mem_dropPrefix h.prefix_ext).mp he
      have := hall _ he
      rw [hfork k (List.mem_map_of_mem (f := Prod.fst) he)] at this
      simpa using this
  | branch children ih =>
    -- A branch lengthens the forks below it by its one digit.
    have hfork : ∀ a k, a :: k ∈ entries.map Prod.fst →
        fork (entries.map Prod.fst) (a :: k) = 1 + fork ((under a entries).map Prod.fst) k := by
      intro a k hk
      refine fork_append (p := [a]) (fun l => by simp [mem_under]) ?_
      obtain ⟨l, hl, hne⟩ := h.exists_other ht (fun _ => by simp) hk
      have hle := fork_le_iff.mp le_rfl l hl hne
      simp only [List.length_singleton, List.singleton_append]
      omega
    obtain ⟨-, hchildren⟩ := ht
    rw [AllLeaves]
    constructor
    · rintro hall ⟨key, w⟩ he
      obtain ⟨a, k, rfl, -⟩ := (h.2 _ _).mpr he
      have := (ih a (h.of_branch a) (hchildren a)).mp (hall a) (k, w) (mem_under.mpr he)
      rw [hfork a k (List.mem_map_of_mem (f := Prod.fst) he), Nat.add_comm]
      exact this
    · intro hall a
      refine (ih a (h.of_branch a) (hchildren a)).mpr ?_
      rintro ⟨k, w⟩ he
      have he := mem_under.mp he
      have := hall _ he
      rw [hfork a k (List.mem_map_of_mem (f := Prod.fst) he), Nat.add_comm] at this
      exact this

end

end Patricia
