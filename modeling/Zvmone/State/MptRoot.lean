import Zvmone.State.MptInsert
import Zvmone.State.RlpSteps

/-! # The Merkle Patricia root

The root of a finite set of pairs as the Yellow Paper composes it (`YellowPaper.composition`), and
the encodings that `MPTNode::hash` hashes. Both are the encoding of one compact tree, with two
ways of referring to a child: the Yellow Paper embeds a child of fewer than 32 bytes, the code
always takes its hash. -/

namespace Zvmone

open Patricia

/-- The items of a leaf. -/
def leafItems (path : Path) (value : Bytes) : List Bytes :=
  [RLP.string (HexPrefix.encode path true), RLP.string value]

/-- The items of an extension. -/
def extItems (path : Path) (ref : Bytes) : List Bytes :=
  [RLP.string (HexPrefix.encode path false), ref]

namespace YellowPaper

/-- The total length of the keys, every key counted with its end. -/
def weight (entries : List (Path × Bytes)) : Nat := (entries.map fun e => e.1.length + 1).sum

/-- Below a digit the weight is smaller. -/
theorem weight_under (i : Fin 16) (entries : List (Path × Bytes)) :
    weight (under i entries) + entries.length ≤ weight entries := by
  induction entries with
  | nil => simp [under, weight]
  | cons e entries ih =>
    obtain ⟨key, value⟩ := e
    have hcons : weight ((key, value) :: entries) = key.length + 1 + weight entries := by
      simp [weight]
    rw [hcons, List.length_cons]
    rcases key with _ | ⟨j, key⟩
    · have hunder : under i (([], value) :: entries) = under i entries := rfl
      rw [hunder]
      omega
    -- A key that goes below `i` loses its first nibble, any other one is dropped.
    · by_cases hj : j = i
      · have hunder : under i ((j :: key, value) :: entries) = (key, value) :: under i entries := by
          simp [under, hj]
        have hkey : weight ((key, value) :: under i entries)
            = key.length + 1 + weight (under i entries) := by simp [weight]
        rw [hunder, hkey, List.length_cons]
        omega
      · have hunder : under i ((j :: key, value) :: entries) = under i entries := by
          simp [under, hj]
        rw [hunder]
        omega

/-- Below a common prefix the weight is smaller. -/
theorem weight_dropPrefix {n : Nat} {entries : List (Path × Bytes)} (hn : 0 < n)
    (hkeys : ∀ e ∈ entries, n ≤ e.1.length) :
    weight (dropPrefix n entries) + entries.length ≤ weight entries := by
  induction entries with
  | nil => simp [dropPrefix, weight]
  | cons e entries ih =>
    have he := hkeys e (by simp)
    have hrest := ih fun e' he' => hkeys e' (by simp [he'])
    have hcons : weight (e :: entries) = e.1.length + 1 + weight entries := by simp [weight]
    have hdrop : weight (dropPrefix n (e :: entries))
        = e.1.length - n + 1 + weight (dropPrefix n entries) := by simp [weight, dropPrefix]
    rw [hcons, hdrop, List.length_cons]
    omega

variable [Ethash]

/-- What a node holds of a child with the encoding `c`: the encoding itself when it is shorter than
32 bytes, else its hash. -/
def reference (c : Bytes) : Bytes :=
  if c.length < 32 then c else RLP.string (Bytes32.bytes (Ethash.keccak256 c))

/-- The structural composition of a set of pairs: an empty item, a leaf for a single pair, an
extension when the keys have a common prefix, else a branch with the value of the empty key. -/
def composition (entries : List (Path × Bytes)) : Bytes :=
  match entries with
  | [] => RLP.string []
  | [e] => RLP.list (leafItems e.1 e.2)
  | e₁ :: e₂ :: rest =>
    let entries := e₁ :: e₂ :: rest
    let path := commonPrefix (entries.map Prod.fst)
    if path ≠ [] then
      RLP.list (extItems path (reference (composition (dropPrefix path.length entries))))
    else
      RLP.list ((List.ofFn fun i : Fin 16 => reference (composition (under i entries)))
        ++ [RLP.string ((entries.lookup []).getD [])])
termination_by weight entries
decreasing_by
  · have hle : ∀ e ∈ e₁ :: e₂ :: rest, path.length ≤ e.1.length := fun e he =>
      ((prefix_commonPrefix_iff (by simp)).mp (List.prefix_refl path) e.1
        (List.mem_map_of_mem he)).length_le
    have := weight_dropPrefix (List.length_pos_iff.mpr ‹_›) hle
    simp only [List.length_cons] at this
    change weight (dropPrefix path.length (e₁ :: e₂ :: rest)) < weight (e₁ :: e₂ :: rest)
    omega
  · have := weight_under i (e₁ :: e₂ :: rest)
    simp only [List.length_cons] at this
    omega

/-- The root of a set of pairs is the hash of its composition. -/
def root (pairs : List (Bytes × Bytes)) : Bytes32 :=
  Ethash.keccak256 (composition (MPT.pathsOf pairs))

end YellowPaper

namespace MPTNode

/-- The encoding of a node, with the items that stand for the encodings of its children. -/
def rlp (ref : Bytes → Bytes) : MPTNode → Bytes
  | .empty => RLP.string []
  | .leaf path value => RLP.list (leafItems path value)
  | .ext path child => RLP.list (extItems path (ref (rlp ref child)))
  | .branch children =>
    RLP.list ((List.ofFn fun i => if (children i).isEmpty then RLP.string []
      else ref (rlp ref (children i))) ++ [RLP.string []])

variable {t : MPTNode} {n : Nat}

/-- The composition of the entries of a tree is its encoding. -/
theorem composition_eq [Ethash] {entries : List (Path × Bytes)} (h : t.Represents entries)
    (ht : t.Compact n) : YellowPaper.composition entries = rlp YellowPaper.reference t := by
  induction t generalizing n entries with
  | empty =>
    -- No entry, and one entry: the cases of the definition.
    rw [h.eq_nil, YellowPaper.composition]
    rfl
  | leaf path value =>
    rw [h.eq_singleton, YellowPaper.composition]
    rfl
  | ext path child ih =>
    obtain ⟨e₁, e₂, rest, rfl⟩ := h.two_entries ht.canonical rfl (fun _ _ => by simp)
    -- Two entries or more with a common prefix: the extension has exactly this prefix.
    have hpath := h.commonPrefix_ext ht.canonical
    obtain ⟨hne, -, m, -, hchild⟩ := ht
    rw [YellowPaper.composition]
    rw [hpath, if_pos hne, ih h.of_ext hchild]
    rfl
  | branch children ih =>
    obtain ⟨e₁, e₂, rest, rfl⟩ := h.two_entries ht.canonical rfl (fun _ _ => by simp)
    -- No common prefix: the branch, without a value since no path of it is empty.
    have hpath := h.commonPrefix_branch ht.canonical
    have hvalue : ((e₁ :: e₂ :: rest).lookup []).getD ([] : Bytes) = [] := by
      rcases hlookup : (e₁ :: e₂ :: rest).lookup [] with _ | value
      · rfl
      · obtain ⟨l₁, l₂, hsplit, -⟩ := List.lookup_eq_some_iff.mp hlookup
        obtain ⟨a, r, hr, -⟩ := (h.2 [] value).mpr (by rw [hsplit]; simp)
        cases hr
    obtain ⟨-, m, -, hchildren⟩ := ht
    rw [YellowPaper.composition]
    rw [hpath, if_neg (by simp), hvalue]
    congr 2
    refine congrArg _ (funext fun i => ?_)
    rw [ih i (h.of_branch i) (hchildren i)]
    split
    -- An empty child has a short encoding, so it stands in its slot itself.
    next hempty =>
      have hshort : (RLP.string []).length < 32 := by decide
      rw [eq_empty_of_isEmpty hempty, rlp, YellowPaper.reference, if_pos hshort]
    next => rfl

end MPTNode

end Zvmone
