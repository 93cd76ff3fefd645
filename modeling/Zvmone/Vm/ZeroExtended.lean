import Zvmone.Vm.MemoryAccess
import Zvmone.Vm.Metered

/-! # Zero-extended slices

The instructions that copy call data, code or return data to memory clamp the offset and the size of
the part they read, each in its own way, and fill up with zeros. What they leave in memory is the
slice of the zero-extended source (`Copied`), for every offset, and they read nothing beyond the
source. -/

namespace Zvmone

open Interaction InstrM

/-! ### Slices -/

/-- The `size` bytes of a source from the offset `src` on, with zeros beyond its end. -/
def zeroExtended (source : Bytes) (src size : Nat) : Bytes :=
  (List.range size).map fun i => (source[src + i]?).getD 0

/-- A part of a source. -/
structure Range where
  offset : Nat
  length : Nat

/-- The bytes of the source in a range. -/
def Range.bytes (r : Range) (source : Bytes) : Bytes := (source.drop r.offset).take r.length

/-- The range is inside the source. -/
def Range.Inside (r : Range) (source : Bytes) : Prop := r.offset + r.length ≤ source.length

/-- A slice has the length that is asked for. -/
@[simp] theorem length_zeroExtended (source : Bytes) (src size : Nat) :
    (zeroExtended source src size).length = size := by
  simp [zeroExtended]

/-- Beyond its source a slice is zero. -/
theorem getElem?_zeroExtended {source : Bytes} {src size i : Nat} (h : i < size) :
    (zeroExtended source src size)[i]? = some ((source[src + i]?).getD 0) := by
  simp [zeroExtended, h]

/-- A range inside of a source has all its bytes there. -/
theorem Range.Inside.length_bytes {r : Range} {source : Bytes} (h : r.Inside source) :
    (r.bytes source).length = r.length := by
  unfold Range.Inside at h
  rw [Range.bytes, List.length_take, List.length_drop]
  omega

/-- The part of a slice that is in the source, and zeros behind it. -/
theorem bytes_append_zeros {r : Range} {source : Bytes} {src size : Nat} (hinside : r.Inside source)
    (hoffset : r.offset = min src source.length)
    (hlength : r.length = min size (source.length - r.offset)) :
    r.bytes source ++ List.replicate (size - r.length) 0 = zeroExtended source src size := by
  have hbytes := hinside.length_bytes
  apply List.ext_getElem?
  intro i
  by_cases hi : i < size
  · rw [getElem?_zeroExtended hi]
    -- A byte that was read is at the same place behind the offset; all others are zeros.
    by_cases hread : i < r.length
    · rw [List.getElem?_append_left (by omega), Range.bytes, List.getElem?_take_of_lt hread,
        List.getElem?_drop]
      have hsrc : src + i < source.length := by omega
      rw [show r.offset + i = src + i by omega, List.getElem?_eq_getElem hsrc, Option.getD_some]
    · rw [List.getElem?_append_right (by omega), List.getElem?_replicate, if_pos (by omega),
        List.getElem?_eq_none (by omega), Option.getD_none]
  · rw [List.getElem?_eq_none (by rw [List.length_append, List.length_replicate]; omega),
      List.getElem?_eq_none (by rw [length_zeroExtended]; omega)]

/-- Two writes, the second right behind the first. -/
theorem Memory.write_append (m : Memory) (i : Nat) (a b : Bytes) :
    (m.write i a).write (i + a.length) b = m.write i (a ++ b) := by
  unfold Memory.write
  congr 1
  funext j
  dsimp only
  by_cases hi : j < i
  · rw [if_pos (by omega), if_pos hi, if_pos hi]
  · rw [if_neg hi, if_neg hi]
    by_cases ha : j < i + a.length
    · rw [if_pos ha, List.getElem?_append_left (by omega)]
    · rw [if_neg ha, List.getElem?_append_right (by omega),
        List.getElem?_eq_none (show a.length ≤ j - i by omega), Option.getD_none, Nat.sub_sub]

/-- Writing no bytes changes nothing. -/
@[simp] theorem Memory.write_nil (m : Memory) (i : Nat) : m.write i [] = m := by
  unfold Memory.write
  congr 1
  funext j
  simp

/-! ### What a copy leaves -/

/-- The gas for a copy of `size` bytes to `dst`: the expansion of the memory, and 3 for every started
word. -/
def copyGas (m : Memory) (dst size : Nat) : Int :=
  accessCost (accessEnd dst size) m + 3 * ((size + 31) / 32 : Nat)

/-- From `c` to `c'` a slice of the source was copied to memory: `size` bytes from `src` on, to `dst`.
The bytes in `read` were read for it. Other costs are `extra`. -/
structure Copied (source : Bytes) (read : Range) (extra : Int) (dst src size : Nat)
    (c c' : Ctx) : Prop where
  inside : read.Inside source
  written : c'.state.memory = (c.state.memory.access (accessEnd dst size)).write dst
    (read.bytes source ++ List.replicate (size - read.length) 0)
  slice : ∀ i < size, c'.state.memory.data (dst + i) = (source[src + i]?).getD 0
  kept : ∀ j, j < dst ∨ dst + size ≤ j → j < c.state.memory.size →
    c'.state.memory.data j = c.state.memory.data j
  zeros : ∀ j, j < dst ∨ dst + size ≤ j → c.state.memory.size ≤ j → j < c'.state.memory.size →
    c'.state.memory.data j = 0
  expanded : c'.state.memory.size = if c.state.memory.size < accessEnd dst size
    then (accessEnd dst size + 31) / 32 * 32 else c.state.memory.size
  gas : c'.gasLeft = c.gasLeft - extra - copyGas c.state.memory dst size

/-- A copy of the part that is in the source, and zeros behind it. -/
theorem copied_of_written {source : Bytes} {read : Range} {extra : Int} {dst src size : Nat}
    {c c' : Ctx} (hinside : read.Inside source) (hoffset : read.offset = min src source.length)
    (hlength : read.length = min size (source.length - read.offset))
    (hwritten : c'.state.memory = (c.state.memory.access (accessEnd dst size)).write dst
      (read.bytes source ++ List.replicate (size - read.length) 0))
    (hgas : c'.gasLeft = c.gasLeft - extra - copyGas c.state.memory dst size) :
    Copied source read extra dst src size c c' := by
  have hslice := bytes_append_zeros hinside hoffset hlength
  -- Outside of the slice there is what the expansion left.
  have houtside : ∀ j, j < dst ∨ dst + size ≤ j → c'.state.memory.data j =
      (c.state.memory.access (accessEnd dst size)).data j := by
    intro j hj
    rw [hwritten, hslice]
    show (if j < dst then _ else _) = _
    by_cases hlt : j < dst
    · rw [if_pos hlt]
    · rw [if_neg hlt, List.getElem?_eq_none (by rw [length_zeroExtended]; omega), Option.getD_none]
  have hsize : c'.state.memory.size = (c.state.memory.access (accessEnd dst size)).size := by
    rw [hwritten]
    rfl
  refine ⟨hinside, hwritten, fun i hi => ?_, fun j hj hold => ?_, fun j hj hold hnew => ?_, ?_, hgas⟩
  · rw [hwritten, hslice]
    show (if dst + i < dst then _ else _) = _
    rw [if_neg (by omega), Nat.add_sub_cancel_left, getElem?_zeroExtended hi, Option.getD_some]
  · rw [houtside j hj, Memory.data_access_of_lt hold]
  · rw [houtside j hj, Memory.data_access_new hold (hsize ▸ hnew)]
  · rw [hsize]
    split
    next hgrows => exact Memory.size_access_of_lt hgrows
    next hfits => rw [Memory.access_of_le (by omega)]

/-! ### The common steps -/

namespace InstrM

variable {α β : Type}

/-- What follows runs with the value of the first part. -/
theorem bind_of_ok {m : InstrM α} {a : α} {c c' : Ctx} (h : m c = .ret (.ok a, c'))
    (f : α → InstrM β) : (m >>= f) c = f a c' := by
  show m c >>= andThen f = _
  rw [h]
  rfl

/-- An early end is the end of the whole. -/
theorem bind_of_error {m : InstrM α} {e : StatusCode} {c c' : Ctx}
    (h : m c = .ret (.error e, c')) (f : α → InstrM β) : (m >>= f) c = .ret (.error e, c') := by
  show m c >>= andThen f = _
  rw [h]
  rfl

/-- What follows a pop gets the top item. -/
theorem pop_bind (f : Word → InstrM β) (c : Ctx) :
    (pop >>= f) c = f (c.stack.get 0) { c with stack := c.stack.pop.2 } := rfl

/-- What follows the state gets it. -/
theorem state_bind (f : ExecutionState → InstrM β) (c : Ctx) :
    (state >>= f) c = f c.state c := rfl

/-- The context after memory was overwritten. -/
def written (c : Ctx) (i : Nat) (bs : Bytes) : Ctx :=
  { c with state := { c.state with memory := c.state.memory.write i bs } }

/-- Writing no bytes keeps the context. -/
@[simp] theorem written_nil (c : Ctx) (i : Nat) : written c i [] = c := by
  rw [written, Memory.write_nil]

/-- Nothing is written if there are no bytes. -/
theorem writeMemory_if {n : Nat} {bs : Bytes} (h : bs.length = n) (i : Nat) (c : Ctx) :
    (if n > 0 then writeMemory i bs else pure ()) c = .ret (.ok (), written c i bs) := by
  split
  · rfl
  · obtain rfl : bs = [] := List.eq_nil_of_length_eq_zero (by omega)
    rw [written_nil]
    rfl

/-- A guarded write of `n` bytes writes in any case, for no bytes need no guard. -/
theorem writeMemory_if_bind {n : Nat} {bs : Bytes} (h : bs.length = n) (i : Nat) (f : InstrM β)
    (c : Ctx) :
    (if n > 0 then writeMemory i bs >>= fun _ => f else f) c = f (written c i bs) := by
  split
  · rfl
  · obtain rfl : bs = [] := List.eq_nil_of_length_eq_zero (by omega)
    rw [written_nil]

end InstrM

/-- The offsets and sizes of memory accesses that no amount of gas is needed to refuse. -/
def Addressable (dst size : Word) : Prop :=
  size = 0 ∨ dst.toNat ≤ maxBufferSize ∧ size.toNat ≤ maxBufferSize

/-- Cutting off the numbers of an access that succeeds changes nothing that is used. -/
theorem Addressable.toSize {dst size : Word} (h : Addressable dst size) :
    size.toSize = size.toNat ∧ (0 < size.toNat → dst.toSize = dst.toNat) := by
  rcases h with rfl | ⟨hdst, hsize⟩
  · exact ⟨rfl, fun hpos => absurd hpos (by decide)⟩
  · exact ⟨Word.toSize_of_le hsize, fun _ => Word.toSize_of_le hdst⟩

/-- A memory check passes exactly if the access is addressable and paid. -/
theorem requireMemory_cases (dst size : Word) (c : Ctx) :
    (∃ c', requireMemory dst size c = .ret (.error .outOfGas, c') ∧
      ¬ (Addressable dst size ∧
        accessCost (accessEnd dst.toNat size.toNat) c.state.memory ≤ c.gasLeft)) ∨
    Addressable dst size ∧ requireMemory dst size c = .ret (.ok (), checked c
      (c.gasLeft - accessCost (accessEnd dst.toNat size.toNat) c.state.memory)
      (c.state.memory.access (accessEnd dst.toNat size.toNat))) := by
  -- An access of size 0 passes with any offset and changes nothing.
  by_cases hzero : size = 0
  · refine .inr ⟨.inl hzero, require_of_ok ?_⟩
    subst hzero
    show checkMemory _ _ dst 0 = _
    rw [show (0 : Word).toNat = 0 from rfl, accessEnd_zero, Memory.access_of_le (Nat.zero_le _),
      show accessCost 0 c.state.memory = 0 from if_neg (Nat.not_lt_zero _), Int.sub_zero]
    rfl
  · have hpos : 0 < size.toNat := Nat.pos_of_ne_zero fun h => hzero (BitVec.eq_of_toNat_eq h)
    -- Beyond `maxBufferSize` the source refuses the size or the offset, whatever the gas.
    by_cases hsize : size.toNat > maxBufferSize
    · have hcheck : checkMemory c.gasLeft c.state.memory dst size =
          (false, c.gasLeft, c.state.memory) := by
        rw [checkMemory, if_neg hzero, if_pos hsize]
      refine .inl ⟨_, require_of_fail hcheck, ?_⟩
      rintro ⟨hzero' | ⟨-, hle⟩, -⟩
      · exact hzero hzero'
      · omega
    · have hsmall : checkMemory c.gasLeft c.state.memory dst size =
          checkMemorySmall c.gasLeft c.state.memory dst size.toNat := by
        rw [checkMemory, if_neg hzero, if_neg hsize]
      have hcheck := hsmall.trans
        (congrFun (congrFun (checkMemorySmall_eq dst size.toNat) c.gasLeft) c.state.memory)
      rw [accessEnd_of_pos hpos]
      by_cases hdst : dst.toNat > maxBufferSize
      · rw [if_pos hdst] at hcheck
        refine .inl ⟨_, require_of_fail hcheck, ?_⟩
        rintro ⟨hzero' | ⟨hle, -⟩, -⟩
        · exact hzero hzero'
        · omega
      · rw [if_neg hdst] at hcheck
        by_cases hgas : c.gasLeft - accessCost (dst.toNat + size.toNat) c.state.memory ≥ 0
        · rw [decide_eq_true hgas, if_pos hgas] at hcheck
          exact .inr ⟨.inr ⟨by omega, by omega⟩, require_of_ok hcheck⟩
        · rw [decide_eq_false hgas, if_neg hgas] at hcheck
          exact .inl ⟨_, require_of_fail hcheck, fun h => absurd h.2 (by omega)⟩

namespace Core

variable {c c' : Ctx}

/-- The gas suffices for a copy, and the access is addressable. -/
def Affordable (dst size : Word) (c : Ctx) : Prop :=
  Addressable dst size ∧ copyGas c.state.memory dst.toNat size.toNat ≤ c.gasLeft

/-- The context of a copy after the memory check and the charge. -/
def charged (c : Ctx) (dst size : Word) : Ctx :=
  { c with
    gasLeft := c.gasLeft - copyGas c.state.memory dst.toNat size.toNat
    state := { c.state with
      memory := c.state.memory.access (accessEnd dst.toNat size.toNat) } }

/-- The charge for memory commutes with other charges. -/
theorem shift_charged (c : Ctx) (dst size : Word) (d : Int) :
    (charged c dst size).shift d = charged (c.shift d) dst size := by
  simp only [charged, Ctx.shift, Ctx.mk.injEq, true_and, and_true]
  omega

/-- The price per word is computed from the size itself. -/
theorem numWords_toSize {dst size : Word} (h : Addressable dst size) :
    numWords size.toSize * 3 = 3 * ((size.toNat + 31) / 32 : Nat) := by
  rw [h.toSize.1, Int.mul_comm]
  rfl

/-- The part of its source that a copy reads: the offset clamped to the end. -/
def copyRange (source : Bytes) (inputIndex size : Word) : Range :=
  let src := if source.length < inputIndex.toNat then source.length else inputIndex.toSize
  ⟨src, min size.toSize (source.length - src)⟩

/-- The copied range begins at the index, or at the end of the source. -/
theorem copyRange_offset {source : Bytes} (hsource : source.length < 2 ^ 64)
    (inputIndex size : Word) :
    (copyRange source inputIndex size).offset = min inputIndex.toNat source.length := by
  -- An offset within the source fits 64 bits, so its conversion is exact.
  show (if source.length < inputIndex.toNat then source.length else inputIndex.toSize) = _
  split
  next hbeyond => rw [min_eq_right hbeyond.le]
  next hwithin =>
    rw [Word.toSize, Nat.mod_eq_of_lt (by omega), min_eq_left (Nat.le_of_not_lt hwithin)]

/-- The copied range is inside of the source. -/
theorem copyRange_inside {source : Bytes} (hsource : source.length < 2 ^ 64)
    (inputIndex size : Word) : (copyRange source inputIndex size).Inside source := by
  have hoffset := copyRange_offset hsource inputIndex size
  have hlength : (copyRange source inputIndex size).length =
      min size.toSize (source.length - (copyRange source inputIndex size).offset) := rfl
  unfold Range.Inside
  omega

/-- A write to the destination does not notice the cut. -/
theorem write_toSize {dst size : Word} (h : Addressable dst size) {bs : Bytes}
    (hlength : bs.length = size.toNat) (m : Memory) :
    m.write dst.toSize bs = m.write dst.toNat bs := by
  by_cases hpos : 0 < size.toNat
  · rw [h.toSize.2 hpos]
  · obtain rfl : bs = [] := List.eq_nil_of_length_eq_zero (by omega)
    rw [Memory.write_nil, Memory.write_nil]

/-- What a copy writes is the slice. -/
theorem copied_charged {source : Bytes} {range : Range} {dst src size : Word} {c₁ : Ctx}
    (haddr : Addressable dst size) (hinside : range.Inside source)
    (hoffset : range.offset = min src.toNat source.length)
    (hlength : range.length = min size.toNat (source.length - range.offset))
    (hmemory : c₁.state.memory = c.state.memory) (extra : Int)
    (hgas : c₁.gasLeft = c.gasLeft - extra) :
    Copied source range extra dst.toNat src.toNat size.toNat c
      (written (written (charged c₁ dst size) dst.toSize (range.bytes source))
        (dst.toSize + range.length) (List.replicate (size.toSize - range.length) 0)) := by
  refine copied_of_written hinside hoffset hlength ?_ ?_
  · rw [← hmemory]
    show ((c₁.state.memory.access _).write dst.toSize (range.bytes source)).write _ _ = _
    -- The zeros are written right behind the part that was read: one write.
    rw [← hinside.length_bytes, Memory.write_append, haddr.toSize.1]
    refine write_toSize haddr ?_ _
    rw [List.length_append, List.length_replicate, hinside.length_bytes]
    omega
  · show c₁.gasLeft - copyGas c₁.state.memory _ _ = _
    rw [hmemory, hgas]

/-- The charge for the words, after the memory check. -/
theorem charge_words {dst size : Word} (haddr : Addressable dst size) (c : Ctx) :
    (∃ c', charge (numWords size.toSize * 3) (checked c
        (c.gasLeft - accessCost (accessEnd dst.toNat size.toNat) c.state.memory)
        (c.state.memory.access (accessEnd dst.toNat size.toNat))) = .ret (.error .outOfGas, c') ∧
      ¬ copyGas c.state.memory dst.toNat size.toNat ≤ c.gasLeft) ∨
    charge (numWords size.toSize * 3) (checked c
        (c.gasLeft - accessCost (accessEnd dst.toNat size.toNat) c.state.memory)
        (c.state.memory.access (accessEnd dst.toNat size.toNat))) =
      .ret (.ok (), charged c dst size) := by
  have hgas : c.gasLeft - accessCost (accessEnd dst.toNat size.toNat) c.state.memory -
      numWords size.toSize * 3 = c.gasLeft - copyGas c.state.memory dst.toNat size.toNat := by
    rw [numWords_toSize haddr, copyGas]
    omega
  by_cases hpaid : copyGas c.state.memory dst.toNat size.toNat ≤ c.gasLeft
  · refine .inr ((charge_of_paid (c := checked c _ _) ?_).trans ?_)
    · show 0 ≤ c.gasLeft - _ - _
      rw [hgas]
      omega
    · rw [charged, ← hgas]
      rfl
  · refine .inl ⟨_, charge_of_short (c := checked c _ _) ?_, hpaid⟩
    show c.gasLeft - _ - _ < 0
    rw [hgas]
    omega

/-- The memory is part of the price of a copy. -/
theorem accessCost_le_copyGas (m : Memory) (dst size : Nat) :
    accessCost (accessEnd dst size) m ≤ copyGas m dst size := by
  unfold copyGas
  omega

/-- A copy of call data or code runs out of gas, or copies the slice. -/
theorem copy_cases (buffer : ExecutionState → Bytes) (c : Ctx)
    (hmemory : ∀ m, buffer { c.state with memory := m } = buffer c.state)
    (hsource : (buffer c.state).length < 2 ^ 64) :
    (∃ c', copy buffer c = .ret (.error .outOfGas, c') ∧
      ¬ Affordable (c.stack.get 0) (c.stack.get 2) c) ∨
    ∃ c', copy buffer c = .ret (.ok (), c') ∧
      Copied (buffer c.state) (copyRange (buffer c.state) (c.stack.get 1) (c.stack.get 2)) 0
        (c.stack.get 0).toNat (c.stack.get 1).toNat (c.stack.get 2).toNat c c' := by
  unfold copy
  simp only [pop_bind]
  rw [show c.stack.pop.2.get 0 = c.stack.get 1 from rfl,
    show c.stack.pop.2.pop.2.get 0 = c.stack.get 2 from rfl]
  generalize hdst : c.stack.get 0 = dst
  generalize hsrc : c.stack.get 1 = src
  generalize hsize : c.stack.get 2 = size
  rcases requireMemory_cases dst size { c with stack := c.stack.pop.2.pop.2.pop.2 }
    with ⟨c', hfail, hunpaid⟩ | ⟨haddr, hok⟩
  · exact .inl ⟨c', bind_of_error hfail _, fun h =>
      hunpaid ⟨h.1, (accessCost_le_copyGas ..).trans h.2⟩⟩
  · rw [bind_of_ok hok, state_bind]
    -- The memory check does not change what is copied from.
    have hbuffer : buffer (checked { c with stack := c.stack.pop.2.pop.2.pop.2 }
        (c.gasLeft - accessCost (accessEnd dst.toNat size.toNat) c.state.memory)
        (c.state.memory.access (accessEnd dst.toNat size.toNat))).state = buffer c.state :=
      hmemory _
    rw [hbuffer]
    rcases charge_words haddr { c with stack := c.stack.pop.2.pop.2.pop.2 }
      with ⟨c', hfail, hunpaid⟩ | hpaid
    · exact .inl ⟨c', bind_of_error hfail _, fun h => hunpaid h.2⟩
    · rw [bind_of_ok hpaid]
      have hinside := copyRange_inside hsource src size
      have hlength : (copyRange (buffer c.state) src size).length = min size.toNat
          ((buffer c.state).length - (copyRange (buffer c.state) src size).offset) := by
        rw [← haddr.toSize.1]
        rfl
      have hcopied := @copied_charged c _ _ dst src size
        { c with stack := c.stack.pop.2.pop.2.pop.2 } haddr hinside
        (copyRange_offset hsource src size) hlength rfl 0 (Int.sub_zero _).symm
      refine .inr ⟨_, ?_, hcopied⟩
      refine (writeMemory_if_bind hinside.length_bytes _ _ _).trans ?_
      exact writeMemory_if List.length_replicate _ _

/-! ### Return data -/

/-- `RETURNDATACOPY` fails on a slice that is not all in the return data, and copies it otherwise. -/
theorem returndatacopy_cases (c : Ctx) (hsource : c.state.returnData.length < 2 ^ 64) :
    (∃ e c', returndatacopy c = .ret (.error e, c') ∧
      ¬ Affordable (c.stack.get 0) (c.stack.get 2) c) ∨
    ((c.stack.get 1).toNat + (c.stack.get 2).toNat ≤ c.state.returnData.length ∧
      ∃ c', returndatacopy c = .ret (.ok (), c') ∧
        Copied c.state.returnData ⟨(c.stack.get 1).toSize, (c.stack.get 2).toSize⟩ 0
          (c.stack.get 0).toNat (c.stack.get 1).toNat (c.stack.get 2).toNat c c') ∨
    (c.state.returnData.length < (c.stack.get 1).toNat + (c.stack.get 2).toNat ∧
      ∃ c', returndatacopy c = .ret (.error .invalidMemoryAccess, c')) := by
  unfold returndatacopy
  simp only [pop_bind]
  rw [show c.stack.pop.2.get 0 = c.stack.get 1 from rfl,
    show c.stack.pop.2.pop.2.get 0 = c.stack.get 2 from rfl]
  generalize hdst : c.stack.get 0 = dst
  generalize hsrc : c.stack.get 1 = src
  generalize hsize : c.stack.get 2 = size
  rcases requireMemory_cases dst size { c with stack := c.stack.pop.2.pop.2.pop.2 }
    with ⟨c', hfail, hunpaid⟩ | ⟨haddr, hok⟩
  · exact .inl ⟨_, c', bind_of_error hfail _, fun h =>
      hunpaid ⟨h.1, (accessCost_le_copyGas ..).trans h.2⟩⟩
  · rw [bind_of_ok hok, state_bind]
    obtain ⟨hsizeExact, -⟩ := haddr.toSize
    by_cases hbeyond : c.state.returnData.length < src.toNat
    -- The offset alone is beyond the return data.
    · exact .inr (.inr ⟨by omega, _, congrFun (if_pos hbeyond) _⟩)
    · have hsrcExact : src.toSize = src.toNat := Nat.mod_eq_of_lt (by omega)
      by_cases hend : src.toSize + size.toSize > c.state.returnData.length
      -- The end is beyond the return data. No sum wraps here, both numbers are small.
      · exact .inr (.inr ⟨by omega, _,
          (congrFun (if_neg hbeyond) _).trans (congrFun (if_pos hend) _)⟩)
      · rcases charge_words haddr { c with stack := c.stack.pop.2.pop.2.pop.2 }
          with ⟨c', hfail, hunpaid⟩ | hpaid
        · exact .inl ⟨_, c', (congrFun (if_neg hbeyond) _).trans
            ((congrFun (if_neg hend) _).trans (bind_of_error hfail _)), fun h => hunpaid h.2⟩
        · have hinside : Range.Inside ⟨src.toSize, size.toSize⟩ c.state.returnData :=
            Nat.le_of_not_lt hend
          have hcopied := @copied_charged c _ ⟨src.toSize, size.toSize⟩ dst src size
            { c with stack := c.stack.pop.2.pop.2.pop.2 } haddr hinside
            (by dsimp only; omega) (by dsimp only; omega) rfl 0 (Int.sub_zero _).symm
          dsimp only at hcopied
          -- All of the slice was read, so there are no zeros behind it.
          rw [Nat.sub_self, List.replicate_zero, written_nil] at hcopied
          exact .inr (.inl ⟨by omega, _, (congrFun (if_neg hbeyond) _).trans
            ((congrFun (if_neg hend) _).trans ((bind_of_ok hpaid _).trans
              (writeMemory_if hinside.length_bytes _ _))), hcopied⟩)

/-! ### Call data words -/

/-- The part of the call data that a load reads. -/
def loadRange (input : Bytes) (index : Word) : Range :=
  if input.length < index.toNat then ⟨0, 0⟩
  else ⟨index.toSize, min (index.toSize + 32) input.length - index.toSize⟩

/-- The loaded range is inside of the input. -/
theorem loadRange_inside {input : Bytes} (hinput : input.length < 2 ^ 64) (index : Word) :
    (loadRange input index).Inside input := by
  unfold loadRange Range.Inside
  split
  next => exact Nat.zero_le _
  next hwithin =>
    have hexact : index.toSize = index.toNat := Nat.mod_eq_of_lt (by omega)
    dsimp only
    omega

/-- What is read and zeros behind it. -/
theorem loadRange_bytes {input : Bytes} (hinput : input.length < 2 ^ 64) (index : Word) :
    (loadRange input index).bytes input ++ List.replicate (32 - (loadRange input index).length) 0 =
      zeroExtended input index.toNat 32 := by
  by_cases hbeyond : input.length < index.toNat
  · have hrange : loadRange input index = ⟨0, 0⟩ := if_pos hbeyond
    rw [hrange]
    -- Beyond the call data the word is zero.
    refine (List.eq_replicate_iff.mpr ⟨length_zeroExtended .., fun b hb => ?_⟩).symm
    obtain ⟨i, -, rfl⟩ := List.mem_map.mp hb
    rw [List.getElem?_eq_none (by omega), Option.getD_none]
  · have hexact : index.toSize = index.toNat := Nat.mod_eq_of_lt (by omega)
    have hrange : loadRange input index =
        ⟨index.toSize, min (index.toSize + 32) input.length - index.toSize⟩ := if_neg hbeyond
    refine bytes_append_zeros (loadRange_inside hinput index) ?_ ?_ <;>
      · rw [hrange]
        dsimp only
        omega

/-- `CALLDATALOAD` is the big-endian word of the zero-extended call data. -/
theorem calldataload_eq {stack : StackTop} {state : ExecutionState}
    (hinput : state.msg.inputData.length < 2 ^ 64) :
    calldataload stack state =
      .ret (stack.set 0 (.load (zeroExtended state.msg.inputData (stack.get 0).toNat 32)), state) := by
  have hslice := loadRange_bytes hinput (stack.get 0)
  have hlength := (loadRange_inside hinput (stack.get 0)).length_bytes
  rw [← hslice, ← hlength]
  unfold calldataload loadRange
  dsimp only
  split
  next hbeyond => rfl
  next hwithin => rfl

end Core

end Zvmone
