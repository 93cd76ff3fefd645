import Zvmone.Vm.Instructions
import Mathlib.Data.Int.Bitwise

/-! # Instructions on the limbs of a word

`SIGNEXTEND`, `BYTE` and `SAR` work on the four 64-bit limbs of their operands. Here they are shown
to be what the 256-bit definitions say, bit by bit: bit `k` of a word is bit `k % 64` of its limb
`k / 64`. -/

namespace Zvmone

/-- Writing back what is there changes nothing. -/
theorem StackTop.set_get (s : StackTop) (index : Nat) : s.set index (s.get index) = s := by
  unfold set get
  congr 1
  funext i
  split
  next h => rw [h]
  next => rfl

namespace Word

/-! ### The 256-bit definitions -/

/-- The two's complement sign extension of the lowest `e + 1` bytes. -/
def signExtendFrom (e x : Word) : Word :=
  if 31 ≤ e.toNat then x else (x.setWidth (8 * (e.toNat + 1))).signExtend 256

/-- The `n`-th most significant byte. -/
def byteAt (n x : Word) : Word :=
  if n.toNat < 32 then BitVec.ofNat 256 (x.toNat / 256 ^ (31 - n.toNat) % 256) else 0

/-- The signed value divided by a power of 2, rounded down. -/
def shiftDown (y x : Word) : Word := BitVec.ofInt 256 (x.toInt / 2 ^ y.toNat)

/-! ### Bits of limbs -/

/-- The bits of a limb. -/
theorem getLsbD_limb (x : Word) (i j : Nat) :
    (x.limb i).getLsbD j = (decide (j < 64) && x.getLsbD (64 * i + j)) := by
  rw [limb, BitVec.getLsbD_setWidth, BitVec.getLsbD_ushiftRight]

/-- The bits of a word made of limbs. -/
theorem getLsbD_ofLimbs (l : Nat → BitVec 64) {k : Nat} (hk : k < 256) :
    (ofLimbs l).getLsbD k = (l (k / 64)).getLsbD (k % 64) := by
  unfold ofLimbs
  rw [BitVec.getLsbD_append, BitVec.getLsbD_append, BitVec.getLsbD_append]
  split
  next h0 => rw [show k / 64 = 0 by omega, Nat.mod_eq_of_lt h0]
  next h0 =>
    split
    next h1 => rw [show k / 64 = 1 by omega, show k % 64 = k - 64 by omega]
    next h1 =>
      split
      next h2 => rw [show k / 64 = 2 by omega, show k % 64 = k - 64 - 64 by omega]
      next h2 => rw [show k / 64 = 3 by omega, show k % 64 = k - 64 - 64 - 64 by omega]

/-- A word below `2 ^ 64` is its lowest limb. -/
theorem toNat_limb_zero {x : Word} (h : x.toNat < 2 ^ 64) : (x.limb 0).toNat = x.toNat := by
  rw [limb, BitVec.toNat_setWidth, Nat.mul_zero, BitVec.ushiftRight_zero, Nat.mod_eq_of_lt h]

/-- The lowest limb tells the word modulo a small power of 2. -/
theorem toNat_limb_zero_mod (x : Word) {m : Nat} (h : m ∣ 2 ^ 64) :
    (x.limb 0).toNat % m = x.toNat % m := by
  rw [limb, BitVec.toNat_setWidth, Nat.mul_zero, BitVec.ushiftRight_zero, Nat.mod_mod_of_dvd _ h]

/-- The sign of a word is that of its highest limb. -/
theorem msb_limb (x : Word) : (x.limb 3).msb = x.msb := by
  rw [BitVec.msb_eq_getLsbD_last, BitVec.msb_eq_getLsbD_last, getLsbD_limb]
  rfl

/-! ### Sign extension -/

/-- Sign extension repeats the highest bit that is kept. -/
theorem getLsbD_signExtend_setWidth {n : Nat} (x : BitVec n) {w v k : Nat} (hw : 0 < w) (hk : k < v) :
    ((x.setWidth w).signExtend v).getLsbD k = x.getLsbD (min k (w - 1)) := by
  rw [BitVec.getLsbD_signExtend, decide_eq_true hk, Bool.true_and]
  split
  next h => rw [BitVec.getLsbD_setWidth, decide_eq_true h, Bool.true_and, Nat.min_eq_left (by omega)]
  next h =>
    rw [BitVec.msb_eq_getLsbD_last, BitVec.getLsbD_setWidth, decide_eq_true (by omega),
      Bool.true_and, Nat.min_eq_right (by omega)]

/-- The bits above the sign bit are copies of it. -/
theorem getLsbD_signExtendFrom (e x : Word) {k : Nat} (hk : k < 256) (he : e.toNat < 31) :
    (signExtendFrom e x).getLsbD k = x.getLsbD (min k (8 * e.toNat + 7)) := by
  rw [signExtendFrom, if_neg (by omega), getLsbD_signExtend_setWidth x (by omega) hk]
  congr 1

end Word

namespace Core

open Word

/-- `signextend` on two words: the limb with the sign byte is extended, and the limbs above it are
filled. -/
theorem signextend_limbs {e x : Word} (he : e.toNat < 31) :
    (Word.ofLimbs fun i =>
      let signWordIndex := e.toNat / 8
      let signByteOffset := e.toNat % 8 * 8
      let sextByte := ((x.limb signWordIndex >>> signByteOffset).setWidth 8).signExtend 64
      if i > signWordIndex then sextByte.sshiftRight 8
      else if i = signWordIndex then
        sextByte <<< signByteOffset |||
          (x.limb signWordIndex &&& ~~~(~~~(0 : BitVec 64) <<< signByteOffset))
      else x.limb i) = signExtendFrom e x := by
  apply BitVec.eq_of_getLsbD_eq
  intro k hk
  rw [getLsbD_ofLimbs _ hk, getLsbD_signExtendFrom e x hk he]
  dsimp only
  -- The bits of the sign byte, repeated upwards.
  have hsext : ∀ {j : Nat}, j < 64 →
      (((x.limb (e.toNat / 8) >>> (e.toNat % 8 * 8)).setWidth 8).signExtend 64).getLsbD j
        = x.getLsbD (8 * e.toNat + min j 7) := by
    intro j hj
    rw [getLsbD_signExtend_setWidth _ (by decide) hj, BitVec.getLsbD_ushiftRight, getLsbD_limb,
      decide_eq_true (by omega), Bool.true_and]
    congr 1
    omega
  split
  next habove =>
    -- A shifted sign byte has the sign bit everywhere.
    rw [BitVec.getLsbD_sshiftRight, decide_eq_false (by omega), Bool.not_false, Bool.true_and]
    split
    next hlow =>
      rw [hsext (by omega)]
      congr 1
      omega
    next =>
      rw [BitVec.msb_eq_getLsbD_last, hsext (by decide)]
      congr 1
      omega
  next habove =>
    split
    next hsign =>
      have hlimb : decide (k % 64 < 64) = true := decide_eq_true (by omega)
      rw [BitVec.getLsbD_or, BitVec.getLsbD_shiftLeft, BitVec.getLsbD_and, getLsbD_limb,
        BitVec.getLsbD_not, BitVec.getLsbD_shiftLeft, hlimb]
      by_cases hlow : k % 64 < e.toNat % 8 * 8
      · simp only [hlow, decide_true, Bool.not_true, Bool.and_false, Bool.false_and, Bool.false_or,
          Bool.not_false, Bool.and_true, Bool.true_and]
        congr 1
        omega
      · have hones : (~~~(0 : BitVec 64)).getLsbD (k % 64 - e.toNat % 8 * 8) = true := by
          rw [BitVec.getLsbD_not, decide_eq_true (by omega)]
          simp
        rw [hones, hsext (by omega)]
        simp only [hlow, decide_false, Bool.not_false, Bool.true_and, Bool.not_true, Bool.and_false,
          Bool.or_false]
        congr 1
        omega
    next hsign =>
      rw [getLsbD_limb, decide_eq_true (by omega), Bool.true_and]
      congr 1
      omega

/-- `SIGNEXTEND` on limbs extends the sign of the word. -/
theorem signextend_eq : signextend = binary signExtendFrom := by
  funext stack
  unfold signextend binary
  dsimp only
  split
  next hext =>
    have hlimb : (BitVec.toNat (Word.limb (stack.pop).1 0)) = (stack.pop).1.toNat :=
      toNat_limb_zero (by omega)
    rw [hlimb]
    exact congrArg _ (signextend_limbs hext)
  next hext =>
    rw [signExtendFrom, if_pos (by omega), StackTop.set_get]

/-! ### Bytes -/

/-- `byte` on two words. -/
theorem byte_limbs (n x : Word) :
    (let byteMask : BitVec 64 := if n.toNat < 32 then 0xff else 0
      let index := 31 - (n.limb 0).toNat % 32
      let word := x.limb (index / 8)
      let byteIndex := index % 8
      ((word >>> (byteIndex * 8)) &&& byteMask).setWidth 256 : Word) = byteAt n x := by
  dsimp only
  rw [toNat_limb_zero_mod n ⟨2 ^ 59, by norm_num⟩, byteAt]
  split
  -- A byte inside the word: bit by bit, the masked shift of one limb is the quotient modulo 256.
  next hn =>
    apply BitVec.eq_of_getLsbD_eq
    intro k hk
    have hmask : (0xff : BitVec 64).getLsbD k = decide (k < 8) := by
      change (BitVec.ofNat 64 (2 ^ 8 - 1)).getLsbD k = _
      rw [BitVec.getLsbD_ofNat, Nat.testBit_two_pow_sub_one]
      by_cases hk8 : k < 8
      · rw [decide_eq_true hk8, decide_eq_true (show k < 64 by omega), Bool.true_and]
      · rw [decide_eq_false hk8, Bool.and_false]
    have hbyte : (x.toNat / 256 ^ (31 - n.toNat) % 256).testBit k
        = (decide (k < 8) && x.getLsbD (8 * (31 - n.toNat) + k)) := by
      have hpow : 256 ^ (31 - n.toNat) = 2 ^ (8 * (31 - n.toNat)) := by
        rw [pow_mul]
        rfl
      change (x.toNat / _ % 2 ^ 8).testBit k = _
      rw [hpow, Nat.testBit_mod_two_pow, Nat.testBit_div_two_pow, Nat.add_comm k,
        BitVec.testBit_toNat]
    rw [BitVec.getLsbD_setWidth, BitVec.getLsbD_and, BitVec.getLsbD_ushiftRight, getLsbD_limb, hmask,
      BitVec.getLsbD_ofNat, hbyte, decide_eq_true hk, Bool.true_and, Bool.true_and, Nat.mod_eq_of_lt hn]
    by_cases hk8 : k < 8
    · rw [decide_eq_true hk8, decide_eq_true (by omega), Bool.true_and, Bool.and_true, Bool.true_and]
      congr 1
      omega
    · rw [decide_eq_false hk8, Bool.and_false, Bool.false_and]
  next hn =>
    change BitVec.setWidth 256 (_ &&& 0#64) = _
    rw [BitVec.and_zero]
    rfl

/-- `BYTE` on limbs selects a byte of the word. -/
theorem byte_eq : byte = binary byteAt := congrArg binary (funext₂ byte_limbs)

/-! ### Arithmetic shift -/

/-- Rounding down is shifting the sign in. -/
theorem shiftDown_eq (y x : Word) : shiftDown y x = x.sshiftRight y.toNat := by
  have hdiv : x.toInt / 2 ^ y.toNat = (x.sshiftRight y.toNat).toInt := by
    rw [BitVec.toInt_sshiftRight, Int.shiftRight_eq_div_pow]
    norm_cast
  rw [shiftDown, hdiv, BitVec.ofInt_toInt]

/-- A shift by 256 or more leaves the sign only. -/
theorem shiftDown_of_ge {y : Word} (x : Word) (hy : 256 ≤ y.toNat) :
    shiftDown y x = if x.toInt < 0 then -1 else 0 := by
  have hpow : (2 : Int) ^ 256 ≤ 2 ^ y.toNat := by
    exact_mod_cast Nat.pow_le_pow_right (show 0 < 2 by decide) hy
  have hlow := BitVec.le_toInt x
  have hhigh := BitVec.toInt_lt (x := x)
  unfold shiftDown
  split
  next hneg =>
    rw [Int.ediv_eq_neg_one_of_neg_of_le hneg (by omega)]
    rfl
  next hpos =>
    rw [Int.ediv_eq_zero_of_lt (by omega) (by omega)]
    rfl

/-- `sar` on two words: the fill from the left is the sign mask. -/
theorem sar_limbs (y x : Word) :
    (let isNeg := (x.limb 3).msb
      let signMask : Word := if isNeg then ~~~0 else 0
      let maskShift : Word :=
        if y.toNat < 256 then BitVec.ofNat 256 (256 - (y.limb 0).toNat) else 0
      x.shr y ||| signMask.shl maskShift) = shiftDown y x := by
  dsimp only
  rw [msb_limb, shiftDown_eq]
  have hmask : ∀ {j : Nat}, j < 256 →
      (if x.msb then ~~~0 else 0 : Word).getLsbD j = x.msb := by
    intro j hj
    cases x.msb
    · exact BitVec.getLsbD_zero
    · change (~~~(0#256)).getLsbD j = true
      rw [BitVec.getLsbD_not, decide_eq_true hj, BitVec.getLsbD_zero]
      rfl
  generalize (if x.msb then ~~~0 else 0 : Word) = signMask at hmask ⊢
  apply BitVec.eq_of_getLsbD_eq
  intro k hk
  rw [BitVec.getLsbD_or, BitVec.getLsbD_sshiftRight, decide_eq_false (by omega), Bool.not_false,
    Bool.true_and]
  by_cases hy : y.toNat < 256
  · have hshift : (BitVec.ofNat 256 (256 - y.toNat)).toNat = 256 - y.toNat := by
      rw [BitVec.toNat_ofNat, Nat.mod_eq_of_lt (by omega)]
    rw [if_pos hy, toNat_limb_zero (by omega), Word.shr, if_pos hy, BitVec.getLsbD_ushiftRight,
      Word.shl, hshift]
    split
    next hpos =>
      rw [BitVec.getLsbD_shiftLeft, decide_eq_true hk, Bool.true_and]
      split
      next hlow => rw [decide_eq_true (by omega), Bool.not_true, Bool.false_and, Bool.or_false]
      next hhigh =>
        rw [decide_eq_false (by omega), hmask (by omega), BitVec.getLsbD_of_ge x _ (by omega)]
        rfl
    next hzero =>
      -- A shift by 0 leaves no room for the sign.
      rw [if_pos (by omega)]
      simp
  · rw [if_neg hy, Word.shr, if_neg hy, if_neg (show ¬ y.toNat + k < 256 by omega), Word.shl,
      if_pos (by decide)]
    change ((0#256).getLsbD k || (signMask <<< 0).getLsbD k) = _
    rw [BitVec.shiftLeft_zero, hmask hk, BitVec.getLsbD_zero, Bool.false_or]

/-- `SAR` from a logical shift is the arithmetic shift. -/
theorem sar_eq : sar = binary shiftDown := congrArg binary (funext₂ sar_limbs)

/-! ### The instructions together -/

/-- The instructions on limbs are the 256-bit operations: the sign extension of the lowest bytes,
the byte at an index, and the division by a power of 2 rounded down, which leaves the sign only for
shifts by 256 or more. -/
theorem limbs_compute_words : signextend = binary signExtendFrom ∧ byte = binary byteAt ∧
    sar = binary shiftDown ∧
    ∀ y x, shiftDown y x =
      if y.toNat < 256 then BitVec.ofInt 256 (x.toInt / 2 ^ y.toNat)
      else if x.toInt < 0 then -1 else 0 := by
  refine ⟨signextend_eq, byte_eq, sar_eq, fun y x => ?_⟩
  split
  next => rfl
  next hy => exact shiftDown_of_ge x (by omega)

end Core

end Zvmone
