import Zvmone.State.MptInsert

/-! # Path encoding

The loop of `Path::encode` with its index (`encodeAt`), which reads no nibble at or beyond the
length, and what it computes: the hex-prefix encoding with the flag of a leaf, which determines the
path and the kind of the node. -/

namespace Zvmone

namespace Path

/-! ### The loop with its index -/

/-- The loop of `encode` from index `i` on; `none` if it reads a nibble at or beyond the length. -/
def encodeLoop (p : Path) (i : Nat) (bs : Bytes) : Option Bytes :=
  if i < p.length then do
    let h ← p[i]?
    let l ← p[i + 1]?
    encodeLoop p (i + 2) (bs ++ [UInt8.ofNat (h.val <<< 4 ||| l.val)])
  else some bs
termination_by p.length - i

/-- `encode` with the index of its loop; `none` if it reads a nibble at or beyond the length. -/
def encodeAt (p : Path) (extended : Bool) : Option Bytes := do
  let isEven := p.length % 2 = 0
  let first ← if isEven then some 0x00 else p[0]?.map fun n => 0x10 ||| UInt8.ofNat n.val
  let bs ← p.encodeLoop (if isEven then 0 else 1) [first]
  return if extended then bs else bs.modify 0 (· ||| 0x20)

/-- From an index on, an even number of nibbles away from the end, the loop packs what remains. -/
theorem encodeLoop_eq (p : Path) (i : Nat) (bs : Bytes) (hi : i ≤ p.length)
    (heven : (p.length - i) % 2 = 0) :
    encodeLoop p i bs = some (bs ++ encodeNibbles (p.drop i)) := by
  induction i, bs using encodeLoop.induct (p := p) with
  | case1 i bs hlt ih =>
    have hnext : i + 1 < p.length := by omega
    have hdrop : p.drop i = p[i] :: p[i + 1] :: p.drop (i + 2) := by
      rw [List.drop_eq_getElem_cons hlt, List.drop_eq_getElem_cons hnext]
    have hrest := ih p[i] p[i + 1] (by omega) (by omega)
    rw [encodeLoop, if_pos hlt, List.getElem?_eq_getElem hlt, List.getElem?_eq_getElem hnext]
    simp only [Option.bind_eq_bind, Option.bind_some]
    rw [hrest, hdrop, encodeNibbles, List.append_assoc]
    rfl
  | case2 i bs hge =>
    rw [encodeLoop, if_neg hge, List.drop_eq_nil_of_le (by omega), encodeNibbles, List.append_nil]
    nofun

/-- The loop reads nibbles of the path only. -/
theorem encodeAt_eq (p : Path) (extended : Bool) : p.encodeAt extended = some (p.encode extended) := by
  unfold encodeAt
  by_cases heven : p.length % 2 = 0
  -- An even path: a byte of its own for the flag, then the loop from the first nibble.
  · have hencode : p.encode extended
        = ((0x00 : UInt8) ||| (if extended then 0x00 else 0x20)) :: encodeNibbles p := by
      unfold encode
      dsimp only
      rw [heven]
      cases p <;> rfl
    rw [if_pos heven, if_pos heven, hencode]
    simp only [Option.bind_eq_bind, Option.bind_some]
    rw [encodeLoop_eq p 0 _ (by omega) (by omega)]
    cases extended <;> rfl
  -- An odd path: the flag shares its byte with the first nibble, and the loop starts at the second.
  · obtain ⟨n, q, rfl⟩ : ∃ n q, p = n :: q := by
      cases p with
      | nil => simp at heven
      | cons n q => exact ⟨n, q, rfl⟩
    have hodd : (n :: q).length % 2 = 1 := by omega
    have hencode : encode (n :: q) extended = ((0x10 ||| UInt8.ofNat n.val) |||
        (if extended then 0x00 else 0x20)) :: encodeNibbles q := by
      unfold encode
      dsimp only
      rw [hodd]
      rfl
    rw [if_neg heven, if_neg heven, hencode]
    simp only [List.getElem?_cons_zero, Option.map_some, Option.bind_eq_bind, Option.bind_some]
    rw [encodeLoop_eq (n :: q) 1 _ (by simp) (by simp only [List.length_cons] at hodd ⊢; omega)]
    cases extended
    · rfl
    · have hbyte : (0x10 ||| UInt8.ofNat n.val) ||| (0x00 : UInt8) = 0x10 ||| UInt8.ofNat n.val := by
        simp
      simp [hbyte]

/-! ### What it computes -/

/-- `encode` is the hex-prefix encoding, with the flag of a leaf when not extended. -/
theorem encode_eq (p : Path) (extended : Bool) :
    encode p extended = HexPrefix.encode p !extended := by
  -- Shifting and or-ing two nibbles is `16 * h + l`.
  have hpack : ∀ p : Path, encodeNibbles p = HexPrefix.pack p := by
    have hbyte : ∀ h l : Fin 16,
        UInt8.ofNat (h.val <<< 4 ||| l.val) = UInt8.ofNat (16 * h.val + l.val) := by decide
    intro p
    induction p using HexPrefix.pack.induct with
    | case1 h l p ih => rw [encodeNibbles, HexPrefix.pack, ih, hbyte]
    | case2 p hp =>
      rcases p with _ | ⟨a, _ | ⟨b, p⟩⟩
      · rfl
      · rfl
      · exact absurd rfl (hp a b p)
  -- The flag bytes of the source against the flag nibble, for both kinds of path.
  have hodd : ∀ (n : Fin 16) (e : Bool),
      (0x10 ||| UInt8.ofNat n.val) ||| (if e then 0x00 else 0x20 : UInt8)
        = UInt8.ofNat (16 * (HexPrefix.flagNibble (!e) + 1).val + n.val) := by decide
  have heven : ∀ e : Bool, (0x00 : UInt8) ||| (if e then 0x00 else 0x20 : UInt8)
      = UInt8.ofNat (16 * (HexPrefix.flagNibble (!e)).val + (0 : Fin 16).val) := by decide
  unfold encode
  by_cases hlen : p.length % 2 = 0
  · rw [HexPrefix.encode, if_pos hlen, HexPrefix.pack, ← hpack, ← heven]
    dsimp only
    rw [hlen]
    cases p <;> rfl
  · obtain ⟨n, p, rfl⟩ : ∃ n q, p = n :: q := by
      cases p with
      | nil => simp at hlen
      | cons n q => exact ⟨n, q, rfl⟩
    rw [HexPrefix.encode, if_neg hlen, HexPrefix.pack, ← hpack, ← hodd]
    dsimp only
    rw [show (n :: p).length % 2 = 1 by omega]
    rfl

/-- A path is put together from its head, a nibble and the tail behind it. -/
theorem head_append_tail (p : Path) {i : Nat} (hi : i < p.length) :
    ∃ l r, head p i = some l ∧ tail p (i + 1) = some r ∧ l ++ p[i] :: r = p := by
  refine ⟨p.take i, p.drop (i + 1), if_pos hi, if_pos ⟨by omega, by omega⟩, ?_⟩
  rw [← List.drop_eq_getElem_cons hi, List.take_append_drop]

/-- **Path encoding is the hex-prefix encoding and is injective**: it reads nibbles below the length
only, takes one byte and one for every two nibbles, and equal encodings have equal paths and kinds.
A path is its head, a nibble and the tail behind it. -/
theorem encode_is_hexPrefix :
    (∀ p extended, encodeAt p extended = some (HexPrefix.encode p !extended) ∧
      encode p extended = HexPrefix.encode p !extended ∧
      (encode p extended).length = 1 + p.length / 2) ∧
    (∀ p q extended extended', encode p extended = encode q extended' ↔
      p = q ∧ extended = extended') ∧
    ∀ (p : Path) (i : Fin p.length), ∃ l r, head p i = some l ∧ tail p (i + 1) = some r ∧
      l ++ p[i] :: r = p := by
  refine ⟨fun p extended => ⟨?_, encode_eq p extended, ?_⟩, fun p q extended extended' => ?_,
    fun p i => head_append_tail p i.isLt⟩
  · rw [encodeAt_eq, encode_eq]
  · rw [encode_eq, HexPrefix.length_encode, Nat.add_comm]
  · constructor
    · intro h
      rw [encode_eq, encode_eq] at h
      obtain ⟨hpath, hflag⟩ := HexPrefix.encode_inj h
      exact ⟨hpath, Bool.not_inj hflag⟩
    · rintro ⟨rfl, rfl⟩
      rfl

end Path

end Zvmone
