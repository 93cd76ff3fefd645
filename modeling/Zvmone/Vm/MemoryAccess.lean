import Zvmone.Vm.ExecutionState

/-! # Memory accesses

The data of a `Memory` is the whole allocation, so what an instruction reads beyond the size of the
memory would be left over from earlier uses. `checkMemory_cases` says what a memory check does: it
fails and changes nothing, or it makes the memory large enough for the access
(`Memory.access`). The growth of a memory that is `WellFormed` is zero-extended, counted in whole
words and charged by the number of words (`Memory.WellFormed.access`). -/

namespace Zvmone

/-! ### The price of an access -/

/-- The cost of memory grows with the number of words. -/
theorem memoryCost_le {w w' : Nat} (h : w ≤ w') : memoryCost w ≤ memoryCost w' := by
  unfold memoryCost
  have hsq : (w : Int) * w ≤ w' * w' := by
    have := Nat.mul_le_mul h h
    exact_mod_cast this
  have := Int.ediv_le_ediv (by decide : (0 : Int) < 512) hsq
  omega

/-- The number of words of a byte count. -/
theorem toNat_numWords (n : Nat) : (numWords n).toNat = (n + 31) / 32 := Int.toNat_natCast _

/-- Growing the memory costs gas. -/
theorem growCost_nonneg {m : Memory} {newSize : Nat} (h : m.size < newSize) :
    0 ≤ memoryCost (numWords newSize) - memoryCost ((m.size / wordSize : Nat) : Int) := by
  have := memoryCost_le (show m.size / wordSize ≤ (newSize + (wordSize - 1)) / wordSize by
    simp only [wordSize]; omega)
  simp only [numWords]
  omega

/-- The price of a memory access that ends at `newSize`. -/
def accessCost (newSize : Nat) (m : Memory) : Int :=
  if newSize > m.size then
    memoryCost (numWords newSize) - memoryCost ((m.size / wordSize : Nat) : Int)
  else 0

/-- An access does not pay back. -/
theorem accessCost_nonneg (newSize : Nat) (m : Memory) : 0 ≤ accessCost newSize m := by
  unfold accessCost
  split
  next h => exact growCost_nonneg h
  next => exact le_rfl

/-- Where an access of `len` bytes from `i` on ends. An access of size 0 uses no memory. -/
def accessEnd (i len : Nat) : Nat := if len = 0 then 0 else i + len

/-- An access of size 0 needs no memory. -/
@[simp] theorem accessEnd_zero (i : Nat) : accessEnd i 0 = 0 := if_pos rfl

/-- An access of another size needs memory up to its end. -/
theorem accessEnd_of_pos {i len : Nat} (h : 0 < len) : accessEnd i len = i + len :=
  if_neg (by omega)

/-- An access needs no memory beyond its end. -/
theorem accessEnd_le (i len : Nat) : accessEnd i len ≤ i + len := by
  unfold accessEnd
  split <;> omega

/-- The first bytes of an access. -/
theorem accessEnd_le_of_le {i len size : Nat} (h : len ≤ size) : accessEnd i len ≤ accessEnd i size := by
  unfold accessEnd
  split <;> split <;> omega

/-- The bytes of an access from one of them on. -/
theorem accessEnd_add_le {i j len size : Nat} (h : j + len ≤ size) :
    accessEnd (i + j) len ≤ accessEnd i size := by
  unfold accessEnd
  split <;> split <;> omega

/-! ### The allocation -/

namespace Memory

variable {m m' : Memory} {i len : Nat}

/-- A slice has the length that is asked for. -/
@[simp] theorem length_slice (m : Memory) (i len : Nat) : (m.slice i len).length = len := by
  simp [slice]

/-- A slice is made of the bytes between its ends. -/
theorem slice_congr {e : Nat} (hdata : ∀ j < e, m'.data j = m.data j) (hend : accessEnd i len ≤ e) :
    m'.slice i len = m.slice i len := by
  apply List.map_congr_left
  intro j hj
  have hlt : j < len := List.mem_range.mp hj
  rw [accessEnd_of_pos (by omega)] at hend
  exact hdata (i + j) (by omega)

/-- A write keeps the size. -/
@[simp] theorem size_write (m : Memory) (i : Nat) (bs : Bytes) : (m.write i bs).size = m.size := rfl

/-- A write changes no byte from its end on. -/
theorem data_write_of_le {bs : Bytes} {j : Nat} (h : accessEnd i bs.length ≤ j) :
    (m.write i bs).data j = m.data j := by
  show (if j < i then m.data j else (bs[j - i]?).getD (m.data j)) = m.data j
  split
  next => rfl
  next hij =>
    cases bs with
    | nil => rfl
    | cons b bs =>
      rw [accessEnd_of_pos (show 0 < (b :: bs).length from Nat.succ_pos _)] at h
      rw [List.getElem?_eq_none (by omega)]
      rfl

/-- A write makes the same of bytes that are the same. -/
theorem data_write_congr {bs : Bytes} {j : Nat} (h : m'.data j = m.data j) :
    (m'.write i bs).data j = (m.write i bs).data j := by
  show (if j < i then m'.data j else (bs[j - i]?).getD (m'.data j))
    = if j < i then m.data j else (bs[j - i]?).getD (m.data j)
  rw [h]

/-! ### The memory after an access -/

/-- The memory after an access that ends at `newSize` is paid. -/
def access (m : Memory) (newSize : Nat) : Memory :=
  if newSize > m.size then
    (m.grow ((numWords newSize).toNat * wordSize)).noteCharge (accessCost newSize m)
  else m

variable {e : Nat}

/-- An access inside of the memory keeps it. -/
theorem access_of_le (h : e ≤ m.size) : m.access e = m := if_neg (by omega)

/-- An access beyond the memory makes it grow, and the price is noted. -/
theorem access_of_lt (h : m.size < e) :
    m.access e = (m.grow ((numWords e).toNat * wordSize)).noteCharge (accessCost e m) :=
  if_pos h

/-- After an access beyond the memory the size is its end, rounded up to whole words. -/
theorem size_access_of_lt (h : m.size < e) : (m.access e).size = (e + 31) / 32 * 32 := by
  rw [access_of_lt h]
  show (numWords e).toNat * 32 = (e + 31) / 32 * 32
  rw [toNat_numWords]

/-- The growth for an access is charged with its price. -/
theorem charged_access (m : Memory) (e : Nat) : (m.access e).charged = m.charged + accessCost e m := by
  by_cases h : m.size < e
  · rw [access_of_lt h]
    rfl
  · rw [access_of_le (by omega), accessCost, if_neg (by omega), Int.add_zero]

/-- The memory is large enough for the access. -/
theorem le_size_access (m : Memory) (e : Nat) : e ≤ (m.access e).size := by
  by_cases h : m.size < e
  · rw [size_access_of_lt h]
    omega
  · rw [access_of_le (by omega)]
    omega

/-- The memory does not shrink. -/
theorem size_le_size_access (m : Memory) (e : Nat) : m.size ≤ (m.access e).size := by
  by_cases h : m.size < e
  · have := le_size_access m e
    omega
  · rw [access_of_le (by omega)]

/-- The old bytes stay. -/
theorem data_access_of_lt {j : Nat} (hj : j < m.size) : (m.access e).data j = m.data j := by
  by_cases h : m.size < e
  · rw [access_of_lt h]
    exact if_neg (by omega)
  · rw [access_of_le (by omega)]

/-- The new bytes are zero. -/
theorem data_access_new {j : Nat} (hj : m.size ≤ j) (hj' : j < (m.access e).size) :
    (m.access e).data j = 0 := by
  by_cases h : m.size < e
  · rw [access_of_lt h] at hj' ⊢
    exact if_pos ⟨hj, hj'⟩
  · rw [access_of_le (by omega)] at hj'
    omega

/-- Nothing is written beyond the new size. -/
theorem data_access_of_le {j : Nat} (hj : (m.access e).size ≤ j) : (m.access e).data j = m.data j := by
  by_cases h : m.size < e
  · rw [access_of_lt h] at hj ⊢
    exact if_neg fun hnew => absurd hnew.2 (Nat.not_lt.mpr hj)
  · rw [access_of_le (by omega)]

/-- What holds of the memory of a frame: it consists of whole words, which are allocated and
charged for. -/
structure WellFormed (m : Memory) : Prop where
  words : m.size % 32 = 0
  allocated : m.size ≤ m.capacity
  charged : m.charged = memoryCost (m.size / 32 : Nat)

/-- The allocation is large enough after a growth. -/
theorem size_grow_le_capacity (m : Memory) (n : Nat) : (m.grow n).size ≤ (m.grow n).capacity := by
  show n ≤ if n > m.capacity then
    if m.capacity * 2 < n then (n + (pageSize - 1)) / pageSize * pageSize else m.capacity * 2
    else m.capacity
  unfold pageSize
  split
  · split <;> omega
  · omega

/-- The charge of a growth completes what was charged before. -/
theorem WellFormed.access (h : m.WellFormed) (e : Nat) : (m.access e).WellFormed := by
  by_cases hlt : m.size < e
  · refine ⟨?_, ?_, ?_⟩
    · rw [size_access_of_lt hlt]
      omega
    · rw [access_of_lt hlt]
      exact size_grow_le_capacity m _
    · have hwords : (m.access e).size / 32 = (e + 31) / 32 := by
        rw [size_access_of_lt hlt]
        omega
      rw [hwords, access_of_lt hlt]
      show m.charged + (if e > m.size then
        memoryCost (numWords e) - memoryCost ((m.size / wordSize : Nat) : Int) else 0) = _
      rw [if_pos hlt, h.charged]
      exact add_sub_cancel _ _
  · rwa [access_of_le (by omega)]

/-- A write keeps the memory well formed. -/
theorem WellFormed.write (h : m.WellFormed) (i : Nat) (bs : Bytes) : (m.write i bs).WellFormed :=
  ⟨h.words, h.allocated, h.charged⟩

/-- Whole words are the larger of what there was and what the access needs. -/
theorem WellFormed.size_access (h : m.WellFormed) (e : Nat) :
    (m.access e).size = max m.size (32 * ((e + 31) / 32)) := by
  have hwords := h.words
  by_cases hlt : m.size < e
  · rw [size_access_of_lt hlt]
    omega
  · rw [access_of_le (by omega)]
    omega

end Memory

/-! ### Memory checks -/

/-- A memory check asks the price of the access. -/
theorem checkMemorySmall_eq (offset : Word) (size : Nat) :
    (fun g m => checkMemorySmall g m offset size) =
      if offset.toNat > maxBufferSize then fun g m => (false, g, m)
      else fun g m =>
        (decide (g - accessCost (offset.toNat + size) m ≥ 0),
          g - accessCost (offset.toNat + size) m,
          if g - accessCost (offset.toNat + size) m ≥ 0 then m.access (offset.toNat + size)
          else m) := by
  funext g m
  unfold checkMemorySmall growMemory Memory.access accessCost
  split
  · rfl
  · dsimp only
    split
    next hsize =>
      by_cases hpaid : g - (memoryCost (numWords (offset.toNat + size))
          - memoryCost ((m.size / wordSize : Nat) : Int)) ≥ 0
      · simp only [if_pos hpaid]
      · simp only [if_neg hpaid]
    next hsize => simp

/-- The offset of an access that is checked fits 64 bits. -/
theorem Word.toSize_of_le {x : Word} (h : x.toNat ≤ maxBufferSize) : x.toSize = x.toNat :=
  Nat.mod_eq_of_lt (lt_of_le_of_lt h (by decide))

/-- The price of an access depends on the size of the memory. -/
theorem accessCost_congr {m m' : Memory} (h : m'.size = m.size) (e : Nat) :
    accessCost e m' = accessCost e m := by
  unfold accessCost
  rw [h]

/-- Checks of two memories of one size, for an access of a size known to be small: both fail and
change nothing, or both ask the same price and make the memory large enough. -/
theorem checkMemorySmall_congr {m m' : Memory} (h : m'.size = m.size) (gas : Int) (offset : Word)
    (size : Nat) :
    (∃ gas', checkMemorySmall gas m offset size = (false, gas', m) ∧
        checkMemorySmall gas m' offset size = (false, gas', m')) ∨
      (offset.toSize = offset.toNat ∧ ∃ gas',
        checkMemorySmall gas m offset size = (true, gas', m.access (offset.toSize + size)) ∧
        checkMemorySmall gas m' offset size = (true, gas', m'.access (offset.toSize + size))) := by
  have heq := congrFun (congrFun (checkMemorySmall_eq offset size) gas) m
  have heq' := congrFun (congrFun (checkMemorySmall_eq offset size) gas) m'
  by_cases hmax : offset.toNat > maxBufferSize
  · rw [if_pos hmax] at heq heq'
    exact .inl ⟨gas, heq, heq'⟩
  · rw [if_neg hmax] at heq heq'
    have hoffset : offset.toSize = offset.toNat := Word.toSize_of_le (by omega)
    rw [accessCost_congr h] at heq'
    rw [heq, heq', hoffset]
    by_cases hpaid : gas - accessCost (offset.toNat + size) m ≥ 0
    · exact .inr ⟨rfl, _, by simp only [hpaid, decide_true, if_true]; rfl,
        by simp only [hpaid, decide_true, if_true]⟩
    · exact .inl ⟨_, by simp only [hpaid, decide_false, if_false]; rfl,
        by simp only [hpaid, decide_false, if_false]⟩

/-- Checks of two memories of one size: both fail and change nothing, or the access is of no size or
has an offset and a size that are exact in 64 bits, and both ask the same price and make the memory
large enough. -/
theorem checkMemory_congr {m m' : Memory} (h : m'.size = m.size) (gas : Int)
    (offset size : Word) :
    (∃ gas', checkMemory gas m offset size = (false, gas', m) ∧
        checkMemory gas m' offset size = (false, gas', m')) ∨
      ((size = 0 ∨ offset.toSize = offset.toNat ∧ size.toSize = size.toNat) ∧ ∃ gas',
        checkMemory gas m offset size
          = (true, gas', m.access (accessEnd offset.toSize size.toSize)) ∧
        checkMemory gas m' offset size
          = (true, gas', m'.access (accessEnd offset.toSize size.toSize))) := by
  unfold checkMemory
  by_cases hzero : size = 0
  -- An empty range is not checked at all.
  · have hsize : size.toSize = 0 := by
      rw [hzero]
      rfl
    rw [if_pos hzero, if_pos hzero, hsize, accessEnd_zero, m.access_of_le (Nat.zero_le _),
      m'.access_of_le (Nat.zero_le _)]
    exact .inr ⟨.inl hzero, gas, rfl, rfl⟩
  · rw [if_neg hzero, if_neg hzero]
    -- A range above 2^32 - 1 is refused, whatever the memory.
    by_cases hmax : size.toNat > maxBufferSize
    · rw [if_pos hmax, if_pos hmax]
      exact .inl ⟨gas, rfl, rfl⟩
    · rw [if_neg hmax, if_neg hmax]
      have hsize : size.toSize = size.toNat := Word.toSize_of_le (by omega)
      have hpos : 0 < size.toSize := by
        rw [hsize]
        exact Nat.pos_of_ne_zero fun h => hzero (BitVec.eq_of_toNat_eq h)
      rw [accessEnd_of_pos hpos, hsize]
      obtain hfail | ⟨hoffset, hok⟩ := checkMemorySmall_congr h gas offset size.toNat
      · exact .inl hfail
      · exact .inr ⟨.inr ⟨hoffset, rfl⟩, hok⟩

/-- The access of a check that succeeded. -/
theorem accessEnd_toSize {offset size : Word}
    (h : size = 0 ∨ offset.toSize = offset.toNat ∧ size.toSize = size.toNat) :
    accessEnd offset.toSize size.toSize = accessEnd offset.toNat size.toNat := by
  obtain rfl | ⟨hoffset, hsize⟩ := h
  · rfl
  · rw [hoffset, hsize]

/-! ### What an instruction does to the memory of its frame -/

namespace ExecutionState

/-- The output is within the memory. -/
def OutputInBounds (s : ExecutionState) : Prop :=
  accessEnd s.outputOffset s.outputSize ≤ s.memory.size

/-- The memory does not shrink, no byte beyond its new size is written, and it stays well formed. The
output stays within the memory. -/
structure Grows (s s' : ExecutionState) : Prop where
  size : s.memory.size ≤ s'.memory.size
  beyond : ∀ j, s'.memory.size ≤ j → s'.memory.data j = s.memory.data j
  wellFormed : s.memory.WellFormed → s'.memory.WellFormed
  output : s.OutputInBounds → s'.OutputInBounds

variable {s s₁ s₂ : ExecutionState}

/-- Memory and output are as before. -/
theorem Grows.of_eq (hmemory : s₁.memory = s.memory) (houtput : s₁.outputOffset = s.outputOffset)
    (hsize : s₁.outputSize = s.outputSize) : s.Grows s₁ := by
  refine ⟨by rw [hmemory], fun j _ => by rw [hmemory], fun h => by rwa [hmemory], fun h => ?_⟩
  unfold OutputInBounds
  rwa [hmemory, houtput, hsize]

/-- Nothing has to grow. -/
theorem Grows.refl : s.Grows s := .of_eq rfl rfl rfl

/-- Growing is transitive. -/
theorem Grows.trans (h : s.Grows s₁) (h' : s₁.Grows s₂) : s.Grows s₂ where
  size := h.size.trans h'.size
  beyond j hj := (h'.beyond j hj).trans (h.beyond j (h'.size.trans hj))
  wellFormed hs := h'.wellFormed (h.wellFormed hs)
  output hs := h'.output (h.output hs)

/-- The status is no part of the memory or the output. -/
theorem Grows.withStatus (h : s.Grows s₁) (status : StatusCode) : s.Grows { s₁ with status } :=
  h.trans (.of_eq rfl rfl rfl)

/-- An access makes the state grow. -/
theorem Grows.access (e : Nat) : s.Grows { s with memory := s.memory.access e } where
  size := s.memory.size_le_size_access e
  beyond _ hj := Memory.data_access_of_le hj
  wellFormed h := h.access e
  output h := h.trans (s.memory.size_le_size_access e)

/-- A write within the memory. -/
theorem Grows.write {i : Nat} {bs : Bytes} (h : accessEnd i bs.length ≤ s.memory.size) :
    s.Grows { s with memory := s.memory.write i bs } where
  size := le_rfl
  beyond _ hj := Memory.data_write_of_le (h.trans hj)
  wellFormed h := h.write i bs
  output h := h

end ExecutionState

end Zvmone
