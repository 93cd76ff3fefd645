import Mathlib.Data.List.GetD
import Mathlib.Data.Nat.Size
import Zvmone.State.Precompiles

/-! # The price of modular exponentiation

`expmod_analyze` against the price of EIP-2565 in unbounded integers (`expmodPrice`). The iteration
count of the source is a 64-bit number; where the true count does not fit, the price is that of the
lower 64 bits (`expmodAnalyze_gasCost_eq_iff`). -/

namespace Zvmone

namespace Precompiles

/-! ### The price in unbounded integers -/

/-- The `n` bytes of the input from an offset on; bytes beyond the end read as zero. -/
def inputBytes (input : Bytes) (offset n : Nat) : Bytes :=
  (List.range n).map fun i => input.getD (offset + i) 0

/-- The number in the `i`-th word of the header. -/
def headerLen (input : Bytes) (i : Nat) : Nat := BigEndian.load (inputBytes input (32 * i) 32)

/-- The length of the base. -/
def baseLen (input : Bytes) : Nat := headerLen input 0

/-- The length of the exponent. -/
def expLen (input : Bytes) : Nat := headerLen input 1

/-- The length of the modulus. -/
def modLen (input : Bytes) : Nat := headerLen input 2

/-- The number formed by the first 32 bytes of the exponent. -/
def expHead (input : Bytes) : Nat :=
  BigEndian.load (inputBytes input (96 + baseLen input) (min (expLen input) 32))

/-- The iteration count of EIP-2565, before it is made positive. -/
def iterationCount (input : Bytes) : Nat :=
  8 * (expLen input - 32) + max (Nat.size (expHead input)) 1 - 1

/-- The multiplication complexity of EIP-2565. -/
def multComplexity (input : Bytes) : Nat := ((max (baseLen input) (modLen input) + 7) / 8) ^ 2

/-- The price for an iteration count. -/
def expmodPriceOf (input : Bytes) (iterations : Nat) : Nat :=
  min (2 ^ 63 - 1) (max 200 (multComplexity input * max iterations 1 / 3))

/-- The price of EIP-2565, at most `INT64_MAX`. -/
def expmodPrice (input : Bytes) : Nat := expmodPriceOf input (iterationCount input)

/-! ### The header -/

/-- A part of a byte string that is padded with zeros. -/
theorem take_drop_pad (input : Bytes) {offset n k : Nat} (h : offset + n ≤ k) :
    ((input.take k ++ List.replicate (k - input.length) 0).drop offset).take n
      = inputBytes input offset n := by
  apply List.ext_getElem
  · simp [inputBytes]
    omega
  · intro i h₁ h₂
    simp only [inputBytes, List.length_map, List.length_range] at h₂
    simp only [inputBytes, List.getElem_take, List.getElem_drop, List.getElem_map,
      List.getElem_range]
    by_cases hlen : offset + i < input.length
    · rw [List.getElem_append_left (by simp; omega), List.getElem_take, List.getD_eq_getElem _ _ hlen]
    · rw [List.getElem_append_right (by simp; omega), List.getElem_replicate,
        List.getD_eq_default _ _ (by omega)]

/-- As many bytes are read as are asked for. -/
theorem length_inputBytes (input : Bytes) (offset n : Nat) : (inputBytes input offset n).length = n := by
  simp [inputBytes]

/-- A length in the header has 256 bits. -/
theorem headerLen_lt (input : Bytes) (i : Nat) : headerLen input i < 2 ^ 256 := by
  have h := BigEndian.load_lt (inputBytes input (32 * i) 32)
  rwa [length_inputBytes] at h

/-- A word of the header, as the source loads it. -/
theorem toNat_load_inputBytes (input : Bytes) (i : Nat) :
    (Word.load (inputBytes input (32 * i) 32)).toNat = headerLen input i := by
  unfold Word.load
  rw [BitVec.toNat_ofNat]
  exact Nat.mod_eq_of_lt (headerLen_lt input i)

/-! ### The exponent -/

/-- The bit length of a byte that is not zero. -/
theorem size_toNat {b : UInt8} (hb : b ≠ 0) : Nat.size b.toNat = Nat.log2 b.toNat + 1 := by
  have hne : b.toNat ≠ 0 := fun h => hb (UInt8.toNat_inj.1 h)
  apply Nat.le_antisymm
  · exact Nat.size_le.2 Nat.lt_log2_self
  · exact Nat.lt_size.2 (Nat.log2_self_le hne)

/-- The bit length of a byte string padded with zeros, from its first byte that is not zero. -/
theorem size_load_pad (bs : Bytes) (n : Nat) (h : bs.length ≤ n) :
    Nat.size (BigEndian.load (bs ++ List.replicate (n - bs.length) 0)) =
      match bs[bs.findIdx (· ≠ 0)]? with
      | some b => (n - bs.findIdx (· ≠ 0) - 1) * 8 + (Nat.log2 b.toNat + 1)
      | none => 0 := by
  induction bs generalizing n with
  | nil => simp
  | cons b bs ih =>
    -- A leading zero counts for nothing, any other byte decides the bit length.
    obtain ⟨n, rfl⟩ : ∃ m, n = m + 1 := ⟨n - 1, by rw [List.length_cons] at h; omega⟩
    rw [List.length_cons, Nat.add_le_add_iff_right] at h
    rw [List.length_cons, Nat.add_sub_add_right, List.cons_append]
    by_cases hb : b = 0
    · subst hb
      rw [BigEndian.load_cons, UInt8.toNat_zero, Nat.zero_mul, Nat.zero_add, ih n h,
        List.findIdx_cons]
      simp only [ne_eq, not_true_eq_false, decide_false, cond_false, List.getElem?_cons_succ,
        Nat.add_sub_add_right]
    · have hsize := size_toNat hb
      rw [BigEndian.size_load_cons hb, List.findIdx_cons, List.length_append,
        List.length_replicate, Nat.add_sub_cancel' h, hsize]
      simp [hb]

/-- The bytes inside the input, padded with zeros. -/
theorem inputBytes_eq (input : Bytes) (offset n : Nat) :
    inputBytes input offset n = (input.drop offset).take n
      ++ List.replicate (n - ((input.drop offset).take n).length) 0 := by
  apply List.ext_getElem
  · simp [inputBytes]
  · intro i h₁ h₂
    simp only [inputBytes, List.length_map, List.length_range] at h₁
    simp only [inputBytes, List.getElem_map, List.getElem_range]
    by_cases hlen : offset + i < input.length
    · rw [List.getElem_append_left (by simp; omega), List.getElem_take, List.getElem_drop,
        List.getD_eq_getElem _ _ hlen]
    · rw [List.getElem_append_right (by simp; omega), List.getElem_replicate,
        List.getD_eq_default _ _ (by omega)]

/-- The 64-bit iteration count of the source, where the exponent starts at a 64-bit offset. -/
theorem adjustedLen_eq {input : Bytes} {offset len : Nat} (h : offset + min len 32 < 2 ^ 64) :
    adjustedLen input offset len =
      max ((8 * (len - 32)
        + (max (Nat.size (BigEndian.load (inputBytes input offset (min len 32)))) 1 - 1)) % 2 ^ 64)
        1 := by
  -- The part of the exponent head that is in the input, as the source cuts it out.
  have hexplicit : (input.drop offset).take
      (max (min ((offset + min len 32) % 2 ^ 64) input.length) offset - offset)
      = (input.drop offset).take (min len 32) := by
    rw [Nat.mod_eq_of_lt h, List.take_eq_take_iff, List.length_drop]
    omega
  have hsize := size_load_pad ((input.drop offset).take (min len 32)) (min len 32)
    (by rw [List.length_take]; exact Nat.min_le_left ..)
  have hlong : max len 32 - 32 = len - 32 := by omega
  rw [← inputBytes_eq] at hsize
  unfold adjustedLen
  dsimp only
  rw [hexplicit, hlong]
  exact congrArg (fun width => max ((8 * (len - 32) + (max width 1 - 1)) % 2 ^ 64) 1) hsize.symm

/-! ### The price of the source -/

/-- Both prices are the largest one if the base or the modulus is very long. -/
theorem expmodPriceOf_of_long {input : Bytes} (h : 2 ^ 36 ≤ max (baseLen input) (modLen input))
    (iterations : Nat) : expmodPriceOf input iterations = 2 ^ 63 - 1 := by
  have hcomplexity : 2 ^ 66 ≤ multComplexity input :=
    calc (2 : Nat) ^ 66 = (2 ^ 33) ^ 2 := by decide
      _ ≤ multComplexity input := Nat.pow_le_pow_left (by omega) 2
  have hproduct : 2 ^ 66 * 1 ≤ multComplexity input * max iterations 1 :=
    Nat.mul_le_mul hcomplexity (Nat.le_max_right ..)
  unfold expmodPriceOf
  omega

/-- The complexity of lengths of 64 bits does not overflow. -/
theorem toNat_multComplexityEip2565 {x : Word} (h : x.toNat < 2 ^ 64) :
    (multComplexityEip2565 x).toNat = ((x.toNat + 7) / 8) ^ 2 := by
  have hsum : (x + 7).toNat = x.toNat + 7 := by
    rw [BitVec.toNat_add]
    exact Nat.mod_eq_of_lt (by show x.toNat + 7 < 2 ^ 256; omega)
  have hshift : ((x + 7) >>> 3).toNat = (x.toNat + 7) / 8 := by
    rw [BitVec.toNat_ushiftRight, hsum, Nat.shiftRight_eq_div_pow]
  have hsmall : (x.toNat + 7) / 8 ≤ 2 ^ 61 := by omega
  unfold multComplexityEip2565
  dsimp only
  rw [BitVec.toNat_mul, hshift, Nat.pow_two]
  refine Nat.mod_eq_of_lt (lt_of_le_of_lt (Nat.mul_le_mul hsmall hsmall) (by decide))

/-- The header of the source. -/
theorem load_header (input : Bytes) :
    let inputHeader := input.take 96 ++ List.replicate (96 - input.length) 0
    (Word.load (inputHeader.take 32)).toNat = baseLen input ∧
      (Word.load ((inputHeader.drop 32).take 32)).toNat = expLen input ∧
      (Word.load (inputHeader.drop 64)).toNat = modLen input := by
  have hwhole : ((input.take 96 ++ List.replicate (96 - input.length) 0).drop 64).take 32
      = (input.take 96 ++ List.replicate (96 - input.length) 0).drop 64 :=
    List.take_of_length_le (by simp; omega)
  refine ⟨?_, ?_, ?_⟩
  · have hpart := @take_drop_pad input 0 32 96 (by decide)
    rw [List.drop_zero] at hpart
    rw [hpart]
    exact toNat_load_inputBytes input 0
  · rw [take_drop_pad input (by decide)]
    exact toNat_load_inputBytes input 1
  · rw [← hwhole, take_drop_pad input (by decide)]
    exact toNat_load_inputBytes input 2

/-- The adjusted length has 64 bits. -/
theorem adjustedLen_lt (input : Bytes) (offset len : Nat) : adjustedLen input offset len < 2 ^ 64 :=
  max_lt (Nat.mod_lt _ (by decide)) (by decide)

/-- The product of the source fits 256 bits. -/
theorem toNat_gas {x : Word} {n : Nat} (hx : x.toNat < 2 ^ 64) (hn : n < 2 ^ 64) :
    (multComplexityEip2565 x * BitVec.ofNat 256 n / 3).toNat = ((x.toNat + 7) / 8) ^ 2 * n / 3 := by
  -- 122 bits for the square and 64 for the iterations: the multiplication is exact.
  have hsquare : ((x.toNat + 7) / 8) ^ 2 ≤ (2 ^ 61) ^ 2 := Nat.pow_le_pow_left (by omega) 2
  have hproduct : ((x.toNat + 7) / 8) ^ 2 * n < 2 ^ 256 :=
    lt_of_le_of_lt (Nat.mul_le_mul hsquare hn.le) (by decide)
  have hn' : n % 2 ^ 256 = n := Nat.mod_eq_of_lt (hn.trans (by decide))
  rw [BitVec.toNat_udiv, BitVec.toNat_mul, BitVec.toNat_ofNat, toNat_multComplexityEip2565 hx, hn',
    Nat.mod_eq_of_lt hproduct]
  rfl

/-- The price of the source, by the lengths in the header. -/
theorem expmodAnalyze_gasCost (input : Bytes) : (expmodAnalyze input).gasCost =
    if baseLen input = 0 ∧ modLen input = 0 then 200
    else if baseLen input > 2 ^ 64 - 1 ∨ expLen input > 2 ^ 64 - 1 ∨ modLen input > 2 ^ 64 - 1 then
      2 ^ 63 - 1
    else max 200 (min ((multComplexity input
      * adjustedLen input ((96 + baseLen input) % 2 ^ 64) (expLen input) / 3 : Nat) : Int)
        (2 ^ 63 - 1)) := by
  obtain ⟨hbase, hexp, hmod⟩ := load_header input
  unfold expmodAnalyze
  dsimp only at hbase hexp hmod ⊢
  generalize Word.load (List.take 32 (input.take 96 ++ List.replicate (96 - input.length) 0)) = b
    at hbase ⊢
  generalize Word.load (List.take 32 (List.drop 32
    (input.take 96 ++ List.replicate (96 - input.length) 0))) = e at hexp ⊢
  generalize Word.load (List.drop 64 (input.take 96 ++ List.replicate (96 - input.length) 0)) = m
    at hmod ⊢
  -- Comparing words is comparing the lengths in the header.
  have hzero : (b = 0 ∧ m = 0) ↔ (baseLen input = 0 ∧ modLen input = 0) := by
    rw [← hbase, ← hmod, ← BitVec.toNat_inj, ← BitVec.toNat_inj]
    rfl
  simp only [hzero, hbase, hexp, hmod]
  split
  next => rfl
  next =>
    split
    next => rfl
    next hlengths =>
      have hlong : (if m < b then b else m).toNat = max (baseLen input) (modLen input) := by
        rw [← hbase, ← hmod]
        split
        next h => exact (max_eq_left (Nat.le_of_lt h)).symm
        next h => exact (max_eq_right (not_lt.1 h)).symm
      have hsize : b.toSize = baseLen input := by
        rw [Word.toSize, hbase]
        exact Nat.mod_eq_of_lt (by omega)
      have hsize' : e.toSize = expLen input := by
        rw [Word.toSize, hexp]
        exact Nat.mod_eq_of_lt (by omega)
      rw [hsize, hsize', toNat_gas (by omega) (adjustedLen_lt ..), hlong]
      rfl

/-- The price of the source where the lengths fit 64 bits: that of the lower 64 bits of the iteration
count. -/
theorem expmodAnalyze_gasCost_of_lengths {input : Bytes}
    (h : ¬ (baseLen input > 2 ^ 64 - 1 ∨ expLen input > 2 ^ 64 - 1 ∨ modLen input > 2 ^ 64 - 1))
    (hzero : ¬ (baseLen input = 0 ∧ modLen input = 0)) :
    (expmodAnalyze input).gasCost = expmodPriceOf input (iterationCount input % 2 ^ 64) := by
  -- The offset of the exponent can only wrap around where the base is very long.
  rw [expmodAnalyze_gasCost, if_neg hzero, if_neg h]
  by_cases hlong : 2 ^ 36 ≤ max (baseLen input) (modLen input)
  · have hall := expmodPriceOf_of_long hlong
      (adjustedLen input ((96 + baseLen input) % 2 ^ 64) (expLen input))
    have hpos : 1 ≤ adjustedLen input ((96 + baseLen input) % 2 ^ 64) (expLen input) :=
      Nat.le_max_right ..
    rw [expmodPriceOf_of_long hlong, ← hall]
    unfold expmodPriceOf
    rw [max_eq_left hpos]
    omega
  · have hoffset : 96 + baseLen input + min (expLen input) 32 < 2 ^ 64 := by omega
    have hmod : (96 + baseLen input) % 2 ^ 64 = 96 + baseLen input := Nat.mod_eq_of_lt (by omega)
    have hcount : 8 * (expLen input - 32) + (max (Nat.size (expHead input)) 1 - 1)
        = iterationCount input := by
      unfold iterationCount
      omega
    rw [hmod, adjustedLen_eq hoffset]
    unfold expHead at hcount
    rw [hcount]
    unfold expmodPriceOf
    omega

/-! ### Where the prices agree -/

/-- Where the wrapped length gives the right price: the price is the largest in both cases. -/
theorem expmodPriceOf_congr {input : Bytes} {n : Nat} (hcomplexity : 1 ≤ multComplexity input)
    (hn : 2 ^ 64 ≤ n) : expmodPriceOf input (n % 2 ^ 64) = expmodPriceOf input n ↔
      3 * (2 ^ 63 - 1) ≤ multComplexity input * max (n % 2 ^ 64) 1 := by
  -- The lost bits are worth more than the largest price, so only that price can agree.
  have hlost : multComplexity input * max (n % 2 ^ 64) 1 + (2 ^ 64 - 1)
      ≤ multComplexity input * max n 1 :=
    calc multComplexity input * max (n % 2 ^ 64) 1 + (2 ^ 64 - 1)
        ≤ multComplexity input * max (n % 2 ^ 64) 1 + multComplexity input * (2 ^ 64 - 1) :=
          Nat.add_le_add_left (Nat.le_mul_of_pos_left _ hcomplexity) _
      _ = multComplexity input * (max (n % 2 ^ 64) 1 + (2 ^ 64 - 1)) := (Nat.mul_add ..).symm
      _ ≤ multComplexity input * max n 1 := Nat.mul_le_mul_left _ (by omega)
  unfold expmodPriceOf
  omega

/-- A base or modulus that is not empty has a positive complexity. -/
theorem multComplexity_pos {input : Bytes} (h : ¬ (baseLen input = 0 ∧ modLen input = 0)) :
    1 ≤ multComplexity input :=
  Nat.one_le_pow _ _ (by omega)

/-- Without base and modulus the price is the least. -/
theorem expmodPrice_of_zero {input : Bytes} (h : baseLen input = 0 ∧ modLen input = 0) :
    expmodPrice input = 200 := by
  have hcomplexity : multComplexity input = 0 := by rw [multComplexity, h.1, h.2]; rfl
  rw [expmodPrice, expmodPriceOf, hcomplexity, Nat.zero_mul]
  rfl

/-- The price is the largest one if a length does not fit 64 bits. -/
theorem expmodPrice_of_huge {input : Bytes} (hzero : ¬ (baseLen input = 0 ∧ modLen input = 0))
    (h : baseLen input > 2 ^ 64 - 1 ∨ expLen input > 2 ^ 64 - 1 ∨ modLen input > 2 ^ 64 - 1) :
    expmodPrice input = 2 ^ 63 - 1 := by
  by_cases hlong : 2 ^ 36 ≤ max (baseLen input) (modLen input)
  · exact expmodPriceOf_of_long hlong _
  -- Base and modulus are short, so it is the exponent whose length does not fit.
  · have hcount : 2 ^ 66 ≤ max (iterationCount input) 1 := by
      unfold iterationCount
      omega
    have hproduct : 1 * 2 ^ 66 ≤ multComplexity input * max (iterationCount input) 1 :=
      Nat.mul_le_mul (multComplexity_pos hzero) hcount
    unfold expmodPrice expmodPriceOf
    omega

/-- **The price of modular exponentiation is that of EIP-2565 unless the iteration count wraps
around.** The two agree exactly when nothing is to be multiplied, a length does not fit 64 bits, the
iteration count fits 64 bits, or its lower 64 bits already make the largest price. -/
theorem expmodAnalyze_gasCost_eq_iff (input : Bytes) :
    (expmodAnalyze input).gasCost = expmodPrice input ↔
      (baseLen input = 0 ∧ modLen input = 0) ∨
        (2 ^ 64 ≤ baseLen input ∨ 2 ^ 64 ≤ expLen input ∨ 2 ^ 64 ≤ modLen input) ∨
        iterationCount input < 2 ^ 64 ∨
        3 * (2 ^ 63 - 1) ≤ multComplexity input * max (iterationCount input % 2 ^ 64) 1 := by
  by_cases hzero : baseLen input = 0 ∧ modLen input = 0
  · rw [expmodAnalyze_gasCost, if_pos hzero, expmodPrice_of_zero hzero]
    exact iff_of_true rfl (.inl hzero)
  by_cases hhuge : baseLen input > 2 ^ 64 - 1 ∨ expLen input > 2 ^ 64 - 1 ∨ modLen input > 2 ^ 64 - 1
  · rw [expmodAnalyze_gasCost, if_neg hzero, if_pos hhuge, expmodPrice_of_huge hzero hhuge]
    exact iff_of_true rfl (.inr (.inl (by omega)))
  rw [expmodAnalyze_gasCost_of_lengths hhuge hzero, Nat.cast_inj, or_iff_right hzero,
    or_iff_right (by omega)]
  by_cases hcount : iterationCount input < 2 ^ 64
  · rw [Nat.mod_eq_of_lt hcount]
    exact iff_of_true rfl (.inl hcount)
  · rw [or_iff_right hcount]
    exact expmodPriceOf_congr (multComplexity_pos hzero) (by omega)

/-- A header for an empty base, an exponent of `2 ^ 61 + 32` bytes and a modulus of one byte. -/
def hugeExponent : Bytes :=
  BigEndian.store 32 0 ++ BigEndian.store 32 (2 ^ 61 + 32) ++ BigEndian.store 32 1

/-- The huge exponent gets the lowest price instead of more than `2 ^ 62`. -/
theorem expmodAnalyze_gasCost_hugeExponent :
    (expmodAnalyze hugeExponent).gasCost = 200 ∧ expmodPrice hugeExponent = 2 ^ 64 / 3 ∧
      (expmodAnalyze hugeExponent).gasCost ≠ expmodPrice hugeExponent := by
  decide

end Precompiles

end Zvmone
