import Mathlib.Tactic.Ring
import Zvmone.State.Block

/-! # The base fee of a block

`calculate_current_base_fee_eip1559` of the test loader, and the base fee in unbounded integers
(`eip1559BaseFee`). The branch for an increasing fee multiplies in 64 bits: the two agree unless that
product wraps around and the increase is more than 1
(`calculateCurrentBaseFeeEip1559_eq_iff`). -/

namespace Zvmone

/-- `calculate_current_base_fee_eip1559`. -/
def calculateCurrentBaseFeeEip1559 (parentGasUsed parentGasLimit parentBaseFee : BitVec 64) :
    BitVec 64 :=
  let baseFeeMaxChangeDenominator := 8
  let elasticityMultiplier := 2
  let parentGasTarget := parentGasLimit / elasticityMultiplier
  if parentGasUsed = parentGasTarget then parentBaseFee
  else if parentGasUsed > parentGasTarget then
    let gasUsedDelta := parentGasUsed - parentGasTarget
    let formula := parentBaseFee * gasUsedDelta / parentGasTarget / baseFeeMaxChangeDenominator
    let baseFeePerGasDelta := if formula > 1 then formula else 1
    parentBaseFee + baseFeePerGasDelta
  else
    let gasUsedDelta := parentGasTarget - parentGasUsed
    -- The only product with 128-bit precision.
    let baseFeePerGasDeltaU128 : BitVec 128 :=
      parentBaseFee.setWidth 128 * gasUsedDelta.setWidth 128 / parentGasTarget.setWidth 128 /
        baseFeeMaxChangeDenominator.setWidth 128
    let baseFeePerGasDelta := baseFeePerGasDeltaU128.setWidth 64
    if parentBaseFee > baseFeePerGasDelta then parentBaseFee - baseFeePerGasDelta else 0

/-- The base fee of EIP-1559 in unbounded integers. -/
def eip1559BaseFee (used limit fee : Nat) : Nat :=
  let target := limit / 2
  if used = target then fee
  else if used > target then fee + max 1 (fee * (used - target) / target / 8)
  else fee - fee * (target - used) / target / 8

/-! ### The two ways to lose bits -/

/-- A decrease of the fee is never more than the fee. -/
theorem feeDecrease_le {fee delta target : Nat} (h : delta ≤ target) :
    fee * delta / target / 8 ≤ fee :=
  calc fee * delta / target / 8
      ≤ fee * delta / target := Nat.div_le_self ..
    _ ≤ fee := Nat.div_le_of_le_mul (by rw [Nat.mul_comm]; exact Nat.mul_le_mul_right fee h)

/-- An increase of the fee survives the loss of the upper bits of the product only if there are none
or it is 1 anyway. -/
theorem feeIncrease_eq_iff {product target : Nat} (htarget : 0 < target) :
    max 1 (product % 2 ^ 64 / target / 8) = max 1 (product / target / 8) ↔
      product < 2 ^ 64 ∨ product < 16 * target := by
  rw [Nat.div_div_eq_div_mul, Nat.div_div_eq_div_mul]
  have hpos : 0 < target * 8 := Nat.mul_pos htarget (by decide)
  have hmod : product % 2 ^ 64 ≤ product := Nat.mod_le ..
  constructor
  · intro heq
    by_contra! hlarge
    obtain ⟨hwrap, hlarge⟩ := hlarge
    -- The true increase is at least 2, so the 64-bit one is the same number.
    have htwo : 2 ≤ product / (target * 8) := (Nat.le_div_iff_mul_le hpos).2 (by omega)
    have hsame : product % 2 ^ 64 / (target * 8) = product / (target * 8) := by omega
    have hfits : 2 * (target * 8) ≤ product % 2 ^ 64 :=
      (Nat.le_div_iff_mul_le hpos).1 (by omega)
    have hless : product % 2 ^ 64 < 2 ^ 64 := Nat.mod_lt _ (by decide)
    -- But the lost bits are worth at least one more.
    have hlost : product % 2 ^ 64 + target * 8 ≤ product := by
      have := Nat.div_add_mod product (2 ^ 64)
      have : 1 ≤ product / 2 ^ 64 := (Nat.le_div_iff_mul_le (by decide)).2 (by omega)
      omega
    have hmore : product % 2 ^ 64 / (target * 8) + 1 ≤ product / (target * 8) :=
      calc product % 2 ^ 64 / (target * 8) + 1
          = (product % 2 ^ 64 + target * 8) / (target * 8) := (Nat.add_div_right _ hpos).symm
        _ ≤ product / (target * 8) := Nat.div_le_div_right hlost
    omega
  · rintro (h | h)
    · rw [Nat.mod_eq_of_lt h]
    · have htrue : product / (target * 8) < 2 := (Nat.div_lt_iff_lt_mul hpos).2 (by omega)
      have hcode : product % 2 ^ 64 / (target * 8) ≤ product / (target * 8) :=
        Nat.div_le_div_right hmod
      omega

/-! ### The branches of the source -/

section branches

variable {used limit fee : BitVec 64}

/-- Half of the gas limit, rounded down. -/
theorem toNat_target (limit : BitVec 64) : (limit / 2).toNat = limit.toNat / 2 := rfl

/-- The branch for an increasing fee. -/
theorem toNat_increased (hgreater : limit.toNat / 2 < used.toNat) :
    (calculateCurrentBaseFeeEip1559 used limit fee).toNat =
      (fee.toNat + max 1 (fee.toNat * (used.toNat - limit.toNat / 2) % 2 ^ 64
        / (limit.toNat / 2) / 8)) % 2 ^ 64 := by
  have hne : used ≠ limit / 2 := by
    rintro rfl
    exact absurd hgreater (lt_irrefl _)
  have hgt : used > limit / 2 := hgreater
  have hdelta : (used - limit / 2).toNat = used.toNat - limit.toNat / 2 :=
    BitVec.toNat_sub_of_le (show limit.toNat / 2 ≤ used.toNat from hgreater.le)
  unfold calculateCurrentBaseFeeEip1559
  simp only [if_neg hne, if_pos hgt]
  set formula := fee * (used - limit / 2) / (limit / 2) / 8 with hformula
  have hvalue : formula.toNat = fee.toNat * (used.toNat - limit.toNat / 2) % 2 ^ 64
      / (limit.toNat / 2) / 8 := by
    rw [hformula, BitVec.toNat_udiv, BitVec.toNat_udiv, BitVec.toNat_mul, hdelta, toNat_target]
    rfl
  rw [← hvalue]
  have hmax : (if formula > 1 then formula else 1).toNat = max 1 formula.toNat := by
    split
    next h => exact (max_eq_right (le_of_lt (show 1 < formula.toNat from h))).symm
    next h => exact (max_eq_left (not_lt.1 (show ¬ 1 < formula.toNat from h))).symm
  rw [BitVec.toNat_add, hmax]

/-- The branch for a decreasing fee, where nothing is lost. -/
theorem toNat_decreased (hless : used.toNat < limit.toNat / 2) :
    (calculateCurrentBaseFeeEip1559 used limit fee).toNat =
      fee.toNat - fee.toNat * (limit.toNat / 2 - used.toNat) / (limit.toNat / 2) / 8 := by
  have hne : used ≠ limit / 2 := by
    rintro rfl
    exact absurd hless (lt_irrefl _)
  have hngt : ¬ used > limit / 2 := not_lt.2 hless.le
  have hdelta : (limit / 2 - used).toNat = limit.toNat / 2 - used.toNat :=
    BitVec.toNat_sub_of_le (show used.toNat ≤ limit.toNat / 2 from hless.le)
  have hle := @feeDecrease_le fee.toNat _ _
    (show limit.toNat / 2 - used.toNat ≤ limit.toNat / 2 from Nat.sub_le ..)
  have hfee := fee.isLt
  unfold calculateCurrentBaseFeeEip1559
  simp only [if_neg hne, if_neg hngt]
  set delta := (fee.setWidth 128 * (limit / 2 - used).setWidth 128 / (limit / 2).setWidth 128 /
    (8 : BitVec 64).setWidth 128).setWidth 64 with hformula
  -- The source widens the product to 128 bits, where it fits.
  have hproduct : fee.toNat * (limit.toNat / 2 - used.toNat) < 2 ^ 128 :=
    calc fee.toNat * (limit.toNat / 2 - used.toNat)
        < 2 ^ 64 * 2 ^ 64 := Nat.mul_lt_mul'' hfee (by omega)
      _ = 2 ^ 128 := by decide
  have hvalue : delta.toNat = fee.toNat * (limit.toNat / 2 - used.toNat) / (limit.toNat / 2) / 8 := by
    have hwide : ∀ x : BitVec 64, (x.setWidth 128).toNat = x.toNat := fun x =>
      BitVec.toNat_setWidth_of_le (by decide)
    rw [hformula, BitVec.toNat_setWidth, BitVec.toNat_udiv, BitVec.toNat_udiv, BitVec.toNat_mul,
      hwide, hwide, hwide, hwide, hdelta, toNat_target, Nat.mod_eq_of_lt hproduct]
    exact Nat.mod_eq_of_lt (lt_of_le_of_lt hle hfee)
  rw [← hvalue] at hle ⊢
  split
  next h => exact BitVec.toNat_sub_of_le (show delta.toNat ≤ fee.toNat from Nat.le_of_lt h)
  next h =>
    have hge : fee.toNat ≤ delta.toNat := not_lt.1 h
    rw [Nat.sub_eq_zero_of_le hge]
    rfl

/-- **The base fee is exact unless the product wraps around.** Where the exact base fee fits 64 bits,
the code returns it exactly when the parent block did not use more gas than the target, or the
product of the fee and the excess fits 64 bits, or the increase is 1 anyway. -/
theorem calculateCurrentBaseFeeEip1559_eq_iff (hlimit : 2 ≤ limit.toNat)
    (hfits : eip1559BaseFee used.toNat limit.toNat fee.toNat < 2 ^ 64) :
    (calculateCurrentBaseFeeEip1559 used limit fee).toNat
        = eip1559BaseFee used.toNat limit.toNat fee.toNat ↔
      used.toNat ≤ limit.toNat / 2 ∨
        fee.toNat * (used.toNat - limit.toNat / 2) < 2 ^ 64 ∨
        fee.toNat * (used.toNat - limit.toNat / 2) < 16 * (limit.toNat / 2) := by
  have htarget : 0 < limit.toNat / 2 := by omega
  unfold eip1559BaseFee at hfits ⊢
  dsimp only at hfits ⊢
  -- Below the target and at it nothing overflows.
  rcases lt_trichotomy used.toNat (limit.toNat / 2) with hless | hequal | hgreater
  · rw [toNat_decreased hless, if_neg hless.ne, if_neg hless.not_gt]
    exact iff_of_true rfl (.inl hless.le)
  · have heq : used = limit / 2 := BitVec.eq_of_toNat_eq hequal
    rw [if_pos hequal]
    unfold calculateCurrentBaseFeeEip1559
    rw [if_pos heq]
    exact iff_of_true rfl (.inl hequal.le)
  · rw [if_neg hgreater.ne', if_pos hgreater] at hfits ⊢
    rw [toNat_increased hgreater]
    -- Above it the product may wrap, which does not show where the increase is 1 anyway.
    set product := fee.toNat * (used.toNat - limit.toNat / 2)
    have hle : product % 2 ^ 64 / (limit.toNat / 2) / 8 ≤ product / (limit.toNat / 2) / 8 :=
      Nat.div_le_div_right (Nat.div_le_div_right (Nat.mod_le ..))
    rw [Nat.mod_eq_of_lt (by omega), Nat.add_left_cancel_iff, feeIncrease_eq_iff htarget]
    exact (or_iff_right (not_le.2 hgreater)).symm

end branches

/-- A full block of 60000000 gas after a block with the fee 1000000000000. -/
theorem calculateCurrentBaseFeeEip1559_eq_iff_fullBlock :
    (calculateCurrentBaseFeeEip1559 60000000 60000000 1000000000).toNat
        = eip1559BaseFee 60000000 60000000 1000000000 ↔
      60000000 ≤ 60000000 / 2 ∨ 1000000000 * (60000000 - 60000000 / 2) < 2 ^ 64 ∨
        1000000000 * (60000000 - 60000000 / 2) < 16 * (60000000 / 2) :=
  @calculateCurrentBaseFeeEip1559_eq_iff 60000000 60000000 1000000000 (by decide) (by decide)

/-- With a fee of 10^12 the product of a full block does not fit 64 bits, and the fee goes up by
less than an eighth. -/
theorem calculateCurrentBaseFeeEip1559_wraps :
    2 ≤ (60000000 : BitVec 64).toNat ∧ eip1559BaseFee 60000000 60000000 1000000000000 < 2 ^ 64 ∧
      (calculateCurrentBaseFeeEip1559 60000000 60000000 1000000000000).toNat
        < eip1559BaseFee 60000000 60000000 1000000000000 := by
  decide

end Zvmone
