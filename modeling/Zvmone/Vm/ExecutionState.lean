import Zvmone.Vm.Opcodes

/-! # The execution state of a frame

The data an interpreter works on: the stack space with the top pointer (`StackTop`), the memory
(`Memory`) and the rest of `ExecutionState`. The host is not part of the state: instructions reach
it by asking (`HostM`). -/

namespace Zvmone

/-- `StackSpace::limit`: the maximum number of stack items. -/
def stackLimit : Nat := 1024

/-- `StackTop`: the stack space and the pointer to the top item. The pointer is kept as the number
of items from the bottom of the space, so `slots (top - 1)` is the top item. -/
structure StackTop where
  slots : Nat → Word
  top : Nat

namespace StackTop

/-- `StackSpace::bottom`: the pointer below the first item of fresh stack space. -/
def bottom : StackTop := ⟨fun _ => 0, 0⟩

/-- `StackSpace::bottom` of a stack space that has been in use: the items are still there. -/
def reset (s : StackTop) : StackTop := { s with top := 0 }

/-- `operator[]`: the item by index, where 0 is the top item. -/
def get (s : StackTop) (index : Nat) : Word := s.slots (s.top - 1 - index)

/-- Assignment through `operator[]`. -/
def set (s : StackTop) (index : Nat) (value : Word) : StackTop :=
  { s with slots := fun i => if i = s.top - 1 - index then value else s.slots i }

/-- `pop`: the current top item, and the pointer moved down. -/
def pop (s : StackTop) : Word × StackTop := (s.get 0, { s with top := s.top - 1 })

/-- `push`: move the pointer up and assign the value. -/
def push (s : StackTop) (value : Word) : StackTop :=
  ⟨fun i => if i = s.top then value else s.slots i, s.top + 1⟩

/-- The stack after an instruction: the slots as the implementation left them, and the old pointer
moved by the stack height change. -/
def after (s : StackTop) (left : StackTop) (change : Int) : StackTop :=
  ⟨left.slots, (s.top + change).toNat⟩

end StackTop

/-- `Memory`: the allocation `m_data`, the size of the memory and the size of the allocation. What the
allocation holds from `m_size` on is left over from earlier uses or was never initialised. -/
structure Memory where
  data : Nat → UInt8 := fun _ => 0
  size : Nat := 0
  capacity : Nat := 4 * 1024
  /-- A history of the growths that no function reads: what they were charged so far. -/
  charged : Int := 0

namespace Memory

/-- `Memory::page_size`. -/
def pageSize : Nat := 4 * 1024

/-- `Memory::grow`: extend with zeros to the given size. -/
def grow (m : Memory) (newSize : Nat) : Memory :=
  let doubled := m.capacity * 2
  { m with
    data := fun i => if m.size ≤ i ∧ i < newSize then 0 else m.data i
    size := newSize
    capacity :=
      if newSize > m.capacity then
        if doubled < newSize then (newSize + (pageSize - 1)) / pageSize * pageSize else doubled
      else m.capacity }

/-- `Memory::clear`: the size is 0 again, and the allocation is kept as it is. -/
def clear (m : Memory) : Memory := { m with size := 0, charged := 0 }

/-- Note what a growth was charged. -/
def noteCharge (m : Memory) (cost : Int) : Memory := { m with charged := m.charged + cost }

/-- The `len` bytes of the allocation from offset `i`. -/
def slice (m : Memory) (i len : Nat) : Bytes := (List.range len).map fun j => m.data (i + j)

/-- Overwrite the bytes of the allocation from offset `i`. -/
def write (m : Memory) (i : Nat) (bs : Bytes) : Memory :=
  { m with data := fun j => if j < i then m.data j else (bs[j - i]?).getD (m.data j) }

end Memory

/-- `ExecutionState`, without the host, the analysis and the stack space. -/
structure ExecutionState where
  gasRefund : Int := 0
  memory : Memory := {}
  msg : Message
  returnData : Bytes := []
  originalCode : Bytes
  status : StatusCode := .success
  outputOffset : Nat := 0
  outputSize : Nat := 0
  /-- `m_tx`: the cached transaction context. -/
  tx : TxContext := {}

namespace ExecutionState

/-- `in_static_mode`. -/
def InStaticMode (state : ExecutionState) : Prop := state.msg.IsStatic

instance (state : ExecutionState) : Decidable state.InStaticMode :=
  inferInstanceAs (Decidable state.msg.IsStatic)

/-- `reset`: the contents are reset, so that the state can be used again with its allocation. -/
def reset (state : ExecutionState) (msg : Message) (code : Bytes) : ExecutionState where
  gasRefund := 0
  memory := state.memory.clear
  msg
  returnData := []
  originalCode := code
  status := .success
  outputOffset := 0
  outputSize := 0
  tx := {}

/-- `get_tx_context`: a timestamp of 0 stands for "not cached yet". -/
def getTxContext (state : ExecutionState) : HostM (TxContext × ExecutionState) :=
  if state.tx.blockTimestamp = 0 then do
    let tx ← Interaction.query HostCall.getTxContext
    return (tx, { state with tx })
  else
    return (state.tx, state)

end ExecutionState

/-! ### Numeric helpers of `instructions.hpp` -/

/-- `max_buffer_size`. -/
def maxBufferSize : Nat := 2 ^ 32 - 1

/-- `word_size`. -/
def wordSize : Nat := 32

/-- `num_words`: the number of words that fit the number of bytes, rounded up. -/
def numWords (sizeInBytes : Nat) : Int := ((sizeInBytes + (wordSize - 1)) / wordSize : Nat)

/-- The total gas cost of a memory of the given number of words. -/
def memoryCost (words : Int) : Int := 3 * words + words * words / 512

/-- `grow_memory`: charge for the growth, and grow if the gas suffices. -/
def growMemory (gasLeft : Int) (memory : Memory) (newSize : Nat) : Int × Memory :=
  let newWords := numWords newSize
  let currentWords : Int := (memory.size / wordSize : Nat)
  let cost := memoryCost newWords - memoryCost currentWords
  let gasLeft := gasLeft - cost
  if gasLeft ≥ 0 then
    (gasLeft, (memory.grow (newWords.toNat * wordSize)).noteCharge cost)
  else (gasLeft, memory)

/-- `check_memory` for a size known to be small: whether the access is paid for, with the gas and
the memory after the check. -/
def checkMemorySmall (gasLeft : Int) (memory : Memory) (offset : Word) (size : Nat) :
    Bool × Int × Memory :=
  if offset.toNat > maxBufferSize then (false, gasLeft, memory)
  else
    let newSize := offset.toNat + size
    if newSize > memory.size then
      let (gasLeft, memory) := growMemory gasLeft memory newSize
      (gasLeft ≥ 0, gasLeft, memory)
    else (gasLeft ≥ 0, gasLeft, memory)

/-- `check_memory` for "copy" instructions: an access of size 0 is always valid. -/
def checkMemory (gasLeft : Int) (memory : Memory) (offset size : Word) : Bool × Int × Memory :=
  if size = 0 then (true, gasLeft, memory)
  else if size.toNat > maxBufferSize then (false, gasLeft, memory)
  else checkMemorySmall gasLeft memory offset size.toNat

end Zvmone
