import Mathlib.Data.List.Basic
import Mathlib.Data.Fin.Basic
import Mathlib.Tactic.Common

/-! # Hex-prefix encoding

Sequences of nibbles as byte strings: `nibbles` splits bytes into halves, `pack` puts pairs of
nibbles together, and `encode` prefixes a sequence with a nibble for its parity and a flag. The
encoding determines both the sequence and the flag (`encode_inj`). -/

namespace HexPrefix

/-- The instance behind the numerals of nibbles. -/
instance neZero_nibble : @NeZero Nat Zero.ofOfNat0 16 := ⟨Nat.succ_ne_zero 15⟩

/-- The two nibbles of every byte, the high one first. -/
def nibbles (bs : List UInt8) : List (Fin 16) :=
  bs.flatMap fun b => [Fin.ofNat 16 (b.toNat / 16), Fin.ofNat 16 b.toNat]

/-- Every two nibbles as a byte. -/
def pack : List (Fin 16) → List UInt8
  | h :: l :: p => UInt8.ofNat (16 * h.val + l.val) :: pack p
  | _ => []

/-- The nibble of a flag. -/
def flagNibble (flag : Bool) : Fin 16 := bif flag then 2 else 0

/-- The hex-prefix encoding of a sequence of nibbles and a flag: an even sequence is preceded by the
flag and a zero, an odd one by the flag plus one. -/
def encode (p : List (Fin 16)) (flag : Bool) : List UInt8 :=
  if p.length % 2 = 0 then pack (flagNibble flag :: 0 :: p) else pack ((flagNibble flag + 1) :: p)

/-- A byte has two nibbles. -/
@[simp] theorem length_nibbles (bs : List UInt8) : (nibbles bs).length = 2 * bs.length := by
  induction bs with
  | nil => rfl
  | cons b bs ih =>
    rw [nibbles, List.flatMap_cons, List.length_append, ← nibbles, ih]
    simp
    omega

/-- The halves of a byte made of two nibbles. -/
theorem nibbles_cons (h l : Fin 16) (bs : List UInt8) :
    nibbles (UInt8.ofNat (16 * h.val + l.val) :: bs) = h :: l :: nibbles bs := by
  have hbyte : ∀ h l : Fin 16,
      Fin.ofNat 16 ((UInt8.ofNat (16 * h.val + l.val)).toNat / 16) = h ∧
      Fin.ofNat 16 (UInt8.ofNat (16 * h.val + l.val)).toNat = l := by decide
  rw [nibbles, List.flatMap_cons, (hbyte h l).1, (hbyte h l).2]
  rfl

/-- Paths of even length are unpacked again. -/
theorem nibbles_pack : ∀ {p : List (Fin 16)}, p.length % 2 = 0 → nibbles (pack p) = p
  | [], _ => rfl
  | [_], h => by simp at h
  | h :: l :: p, hlen => by
    have hp : p.length % 2 = 0 := by
      simp only [List.length_cons] at hlen
      omega
    rw [pack, nibbles_cons, nibbles_pack hp]

/-- Bytes are packed again. -/
theorem pack_nibbles (bs : List UInt8) : pack (nibbles bs) = bs := by
  induction bs with
  | nil => rfl
  | cons b bs ih =>
    have hb : UInt8.ofNat (16 * (Fin.ofNat 16 (b.toNat / 16)).val + (Fin.ofNat 16 b.toNat).val)
        = b := by
      have hlt := b.toNat_lt
      apply UInt8.toNat_inj.mp
      rw [UInt8.toNat_ofNat', Fin.val_ofNat, Fin.val_ofNat]
      omega
    have hcons : nibbles (b :: bs) =
        Fin.ofNat 16 (b.toNat / 16) :: Fin.ofNat 16 b.toNat :: nibbles bs := rfl
    rw [hcons, pack, ih, hb]

/-- Different bytes have different nibbles. -/
theorem nibbles_injective : Function.Injective nibbles :=
  Function.LeftInverse.injective pack_nibbles

/-- A prefix of nibbles that come from bytes is a prefix of bytes. -/
theorem prefix_of_nibbles {bs cs : List UInt8} (h : nibbles bs <+: nibbles cs) : bs <+: cs := by
  obtain ⟨rest, hrest⟩ := h
  have heven : rest.length % 2 = 0 := by
    have hlen := congrArg List.length hrest
    simp only [List.length_append, length_nibbles] at hlen
    omega
  refine ⟨pack rest, nibbles_injective ?_⟩
  rw [← hrest, nibbles, List.flatMap_append, ← nibbles, ← nibbles, nibbles_pack heven]

/-- An even path follows the flag and a nibble 0. -/
theorem nibbles_encode_of_even {p : List (Fin 16)} (h : p.length % 2 = 0) (flag : Bool) :
    nibbles (encode p flag) = flagNibble flag :: 0 :: p := by
  rw [encode, if_pos h, nibbles_pack (by simp only [List.length_cons]; omega)]

/-- An odd path follows the flag, in which 1 is added. -/
theorem nibbles_encode_of_odd {p : List (Fin 16)} (h : p.length % 2 ≠ 0) (flag : Bool) :
    nibbles (encode p flag) = (flagNibble flag + 1) :: p := by
  rw [encode, if_neg h, nibbles_pack (by simp only [List.length_cons]; omega)]

/-- An encoding determines its sequence and its flag. -/
theorem encode_inj {p q : List (Fin 16)} {flag flag' : Bool}
    (h : encode p flag = encode q flag') : p = q ∧ flag = flag' := by
  have hflag : ∀ f f', flagNibble f = flagNibble f' → f = f' := by decide
  have hodd : ∀ f f', flagNibble f + 1 = flagNibble f' + 1 → f = f' := by decide
  have hparity : ∀ f f', flagNibble f ≠ flagNibble f' + 1 := by decide
  have hn := congrArg nibbles h
  by_cases hp : p.length % 2 = 0 <;> by_cases hq : q.length % 2 = 0
  · rw [nibbles_encode_of_even hp, nibbles_encode_of_even hq] at hn
    simp only [List.cons.injEq, true_and] at hn
    exact ⟨hn.2, hflag _ _ hn.1⟩
  · rw [nibbles_encode_of_even hp, nibbles_encode_of_odd hq] at hn
    exact absurd (List.cons.inj hn).1 (hparity _ _)
  · rw [nibbles_encode_of_odd hp, nibbles_encode_of_even hq] at hn
    exact absurd (List.cons.inj hn).1.symm (hparity _ _)
  · rw [nibbles_encode_of_odd hp, nibbles_encode_of_odd hq] at hn
    exact ⟨(List.cons.inj hn).2, hodd _ _ (List.cons.inj hn).1⟩

/-- Packing halves the length. -/
theorem length_pack : ∀ p : List (Fin 16), (pack p).length = p.length / 2
  | [] => rfl
  | [_] => by simp [pack]
  | _ :: _ :: p => by
    rw [pack, List.length_cons, length_pack p]
    simp only [List.length_cons]
    omega

/-- The length of an encoded path, with the byte of the flag. -/
@[simp] theorem length_encode (p : List (Fin 16)) (flag : Bool) :
    (encode p flag).length = p.length / 2 + 1 := by
  unfold encode
  split <;> simp only [length_pack, List.length_cons] <;> omega

end HexPrefix
