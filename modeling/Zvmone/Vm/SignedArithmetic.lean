import Zvmone.Vm.InstructionsCalls

/-! # Gas in signed 64-bit integers

The gas computations of the instructions once more, with an operation of C++ at every place where
the source has one. What a signed operation gives when its exact result cannot be represented is
undefined, so it is a parameter (`SignedArithmetic`); unsigned ones are modulo `2 ^ 64`. Everything
else is as in the instructions on unbounded integers. -/

namespace Zvmone

/-- What the signed operations on `int` and on `int64_t` make of their exact results: the same value
if it can be represented, and anything at all if it cannot. -/
class SignedArithmetic where
  int32 : Int → HostM Int
  int64 : Int → HostM Int
  int32_exact : ∀ x, -2 ^ 31 ≤ x → x < 2 ^ 31 → int32 x = .ret x
  int64_exact : ∀ x, -2 ^ 63 ≤ x → x < 2 ^ 63 → int64 x = .ret x

namespace SignedArithmetic

/-- An overflow stops the program. -/
@[reducible] def trapping : SignedArithmetic where
  int32 x := if -2 ^ 31 ≤ x ∧ x < 2 ^ 31 then .ret x else .fail .assertion
  int64 x := if -2 ^ 63 ≤ x ∧ x < 2 ^ 63 then .ret x else .fail .assertion
  int32_exact _ h h' := if_pos ⟨h, h'⟩
  int64_exact _ h h' := if_pos ⟨h, h'⟩

end SignedArithmetic

namespace Signed

open SignedArithmetic

variable [SignedArithmetic]

/-! ### Numeric helpers -/

/-- `num_words`. -/
def numWords (sizeInBytes : Nat) : HostM Int :=
  int64 ((sizeInBytes + (wordSize - 1)) % 2 ^ 64 / wordSize : Nat)

/-- The total gas cost of a memory of the given number of words. -/
def memoryCost (words : Int) : HostM Int := do
  let linear ← int64 (3 * words)
  let square ← int64 (words * words)
  let quotient ← int64 (square.tdiv 512)
  int64 (linear + quotient)

/-- `grow_memory`. -/
def growMemory (gasLeft : Int) (memory : Memory) (newSize : Nat) : HostM (Int × Memory) := do
  let newWords ← numWords newSize
  let currentWords ← int64 (memory.size / wordSize : Nat)
  let newCost ← memoryCost newWords
  let currentCost ← memoryCost currentWords
  let cost ← int64 (newCost - currentCost)
  let gasLeft ← int64 (gasLeft - cost)
  if gasLeft ≥ 0 then
    let newBytes ← int64 (newWords * wordSize)
    return (gasLeft, (memory.grow newBytes.toNat).noteCharge cost)
  else return (gasLeft, memory)

/-- `check_memory` for a size known to be small. -/
def checkMemorySmall (gasLeft : Int) (memory : Memory) (offset : Word) (size : Nat) :
    HostM (Bool × Int × Memory) :=
  if offset.toNat > maxBufferSize then return (false, gasLeft, memory)
  else
    let newSize := (offset.toNat + size) % 2 ^ 64
    if newSize > memory.size then do
      let (gasLeft, memory) ← growMemory gasLeft memory newSize
      return (gasLeft ≥ 0, gasLeft, memory)
    else return (gasLeft ≥ 0, gasLeft, memory)

/-- `check_memory` for "copy" instructions. -/
def checkMemory (gasLeft : Int) (memory : Memory) (offset size : Word) :
    HostM (Bool × Int × Memory) :=
  if size = 0 then return (true, gasLeft, memory)
  else if size.toNat > maxBufferSize then return (false, gasLeft, memory)
  else checkMemorySmall gasLeft memory offset size.toNat

/-! ### Parts of instructions -/

open InstrM

/-- A computation that neither reads nor changes the context. -/
def compute {α : Type} (p : HostM α) : InstrM α := fun c => p >>= fun a => .ret (.ok a, c)

/-- `if ((gas_left -= cost) < 0) return {ZVMC_OUT_OF_GAS, gas_left};` -/
def charge (cost : Int) : InstrM Unit := do
  let gasLeft ← compute (int64 ((← read fun c => c.gasLeft) - cost))
  modify fun c => { c with gasLeft }
  if gasLeft < 0 then
    exit .outOfGas

/-- Keep the gas and the memory after a memory check, and
`return {ZVMC_OUT_OF_GAS, gas_left};` if it was negative. -/
def require (check : Int → Memory → HostM (Bool × Int × Memory)) : InstrM Unit := do
  let c ← read id
  let (ok, gasLeft, memory) ← compute (check c.gasLeft c.state.memory)
  modify fun c => { c with gasLeft, state := { c.state with memory } }
  if ok = false then
    exit .outOfGas

/-- `check_memory` on the memory of the frame. -/
def requireMemory (offset size : Word) : InstrM Unit :=
  require fun gasLeft memory => checkMemory gasLeft memory offset size

/-- `check_memory` for a size known to be small. -/
def requireMemorySmall (offset : Word) (size : Nat) : InstrM Unit :=
  require fun gasLeft memory => checkMemorySmall gasLeft memory offset size

/-! ### Instructions -/

open Instr Zvmone.Core

/-- `exp`: the additional cost is computed in `int`. -/
def exp : InstrM Unit := do
  let base ← pop
  let exponent ← top
  let exponentSignificantBytes := exponent.countSignificantBytes
  let exponentCost := 50
  let additionalCost ← compute (int32 (exponentSignificantBytes * exponentCost))
  charge additionalCost
  setTop (base.exp exponent)

/-- `keccak256`: the cost is computed in `int64_t`. -/
def keccak256 [Ethash] : InstrM Unit := do
  let index ← pop
  let size ← top
  requireMemory index size
  let i := index.toSize
  let s := size.toSize
  let w ← compute (numWords s)
  let cost ← compute (int64 (w * 6))
  charge cost
  let memory := (← state).memory
  setTop (Ethash.keccak256 (memory.slice i s))

/-- Charge the additional cost of a cold account. -/
def accessAccount (addr : Address) : InstrM Unit := do
  if (← host (HostCall.accessAccount addr)) = AccessStatus.cold then
    charge additionalColdAccountAccessCost

/-- The shape of the account instructions. -/
def accountQuery (query : Address → HostCall) (value : ∀ addr, (query addr).Answer → Word) :
    InstrM Unit := do
  let x ← top
  let addr := x.toAddress
  accessAccount addr
  setTop (value addr (← host (query addr)))

/-- `balance`: the balance of the account. -/
def balance : InstrM Unit := accountQuery .getBalance fun _ b => b

/-- `extcodesize`: the length of the code of the account. -/
def extcodesize : InstrM Unit := accountQuery .getCodeSize fun _ n => BitVec.ofNat 256 n

/-- `extcodehash`: the hash of the code of the account. -/
def extcodehash : InstrM Unit := accountQuery .getCodeHash fun _ h => h

/-- The cost of a copy: `num_words(s) * 3`. -/
def chargeCopy (s : Nat) : InstrM Unit := do
  let words ← compute (numWords s)
  let copyCost ← compute (int64 (words * 3))
  charge copyCost

/-- The shape of `calldatacopy` and `codecopy`. -/
def copy (buffer : ExecutionState → Bytes) : InstrM Unit := do
  let memIndex ← pop
  let inputIndex ← pop
  let size ← pop
  requireMemory memIndex size
  let buffer := buffer (← state)
  let dst := memIndex.toSize
  let src := if buffer.length < inputIndex.toNat then buffer.length else inputIndex.toSize
  let s := size.toSize
  let copySize := min s (buffer.length - src)
  chargeCopy s
  if copySize > 0 then
    writeMemory dst ((buffer.drop src).take copySize)
  if s - copySize > 0 then
    writeMemory (dst + copySize) (List.replicate (s - copySize) 0)

/-- `calldatacopy`: copy from the input. -/
def calldatacopy : InstrM Unit := copy fun state => state.msg.inputData

/-- `codecopy`: copy from the code. -/
def codecopy : InstrM Unit := copy fun state => state.originalCode

/-- `extcodecopy`: copy from the code of an account. -/
def extcodecopy : InstrM Unit := do
  let addr := (← pop).toAddress
  let memIndex ← pop
  let inputIndex ← pop
  let size ← pop
  requireMemory memIndex size
  let s := size.toSize
  chargeCopy s
  accessAccount addr
  if s > 0 then
    let src := if maxBufferSize < inputIndex.toNat then maxBufferSize else inputIndex.toSize
    let dst := memIndex.toSize
    let copied : Bytes := List.take s (← host (HostCall.copyCode addr src s))
    writeMemory dst copied
    if s - copied.length > 0 then
      writeMemory (dst + copied.length) (List.replicate (s - copied.length) 0)

/-- `returndatacopy`: fails beyond the end of the buffer. -/
def returndatacopy : InstrM Unit := do
  let memIndex ← pop
  let inputIndex ← pop
  let size ← pop
  requireMemory memIndex size
  let dst := memIndex.toSize
  let s := size.toSize
  let returnData := (← state).returnData
  if returnData.length < inputIndex.toNat then
    exit .invalidMemoryAccess
  let src := inputIndex.toSize
  if src + s > returnData.length then
    exit .invalidMemoryAccess
  chargeCopy s
  if s > 0 then
    writeMemory dst ((returnData.drop src).take s)

/-- `mload`: read a word of the memory. -/
def mload : InstrM Unit := do
  let index ← top
  requireMemorySmall index 32
  let memory := (← state).memory
  setTop (.load (memory.slice index.toSize 32))

/-- `mstore`: write a word to the memory. -/
def mstore : InstrM Unit := do
  let index ← pop
  let value ← pop
  requireMemorySmall index 32
  writeMemory index.toSize (Bytes32.bytes value)

/-- `mstore8`: write the lowest byte of an item to the memory. -/
def mstore8 : InstrM Unit := do
  let index ← pop
  let value ← pop
  requireMemorySmall index 1
  writeMemory index.toSize [UInt8.ofNat value.toNat]

/-- `log<NumTopics>`. -/
def log (numTopics : Nat) : InstrM Unit := do
  if (← state).InStaticMode then
    modify fun c => { c with gasLeft := 0 }
    exit .staticModeViolation
  let offset ← pop
  let size ← pop
  requireMemory offset size
  let o := offset.toSize
  let s := size.toSize
  let cost ← compute (int64 ((s : Int) * 8))
  charge cost
  let topics ← (List.replicate numTopics ()).mapM fun _ => pop
  let st ← state
  host (HostCall.emitLog st.msg.recipient (st.memory.slice o s) topics)

/-- `return_impl`. -/
def returnImpl (statusCode : StatusCode) : InstrM StatusCode := do
  let offset ← read fun c => c.stack.get 0
  let size ← read fun c => c.stack.get 1
  requireMemory offset size
  modifyState fun s => { s with outputSize := size.toSize }
  if size.toSize ≠ 0 then
    modifyState fun s => { s with outputOffset := offset.toSize }
  pure statusCode

/-- `sload`: a cold slot costs more. -/
def sload : InstrM Unit := do
  let key ← top
  let recipient := (← state).msg.recipient
  if (← host (HostCall.accessStorage recipient key)) = AccessStatus.cold then
    charge (coldSloadCost - warmStorageReadCost)
  setTop (← host (HostCall.getStorage recipient key))

/-- `sstore`: the sum of the two costs is computed in `int`. -/
def sstore : InstrM Unit := do
  if (← state).InStaticMode then
    exit .staticModeViolation
  if (← read fun c => c.gasLeft) ≤ 2300 then
    exit .outOfGas
  let key ← pop
  let value ← pop
  let recipient := (← state).msg.recipient
  let accessStatus ← host (HostCall.accessStorage recipient key)
  let gasCostCold := if accessStatus = AccessStatus.cold then coldSloadCost else 0
  let status ← host (HostCall.setStorage recipient key value)
  let cost := sstoreCosts status
  let gasCost ← compute (int32 (cost.gasCost + gasCostCold))
  charge gasCost
  modifyState fun s => { s with gasRefund := s.gasRefund + cost.gasRefund }

/-! ### Call and create instructions -/

/-- `call_impl` up to the last charge. -/
def callCharge (op : CallOp) : InstrM CallLocals := do
  let gas ← pop
  let dst := (← pop).toAddress
  let value ← if op = .staticcall ∨ op = .delegatecall then pure 0 else pop
  let hasValue := value ≠ 0
  let inputOffset ← pop
  let inputSize ← pop
  let outputOffset ← pop
  let outputSize ← pop
  push 0
  modifyState fun s => { s with returnData := [] }
  accessAccount dst
  requireMemory inputOffset inputSize
  requireMemory outputOffset outputSize
  let st ← state
  let msg : Message := {
    kind := if op = .delegatecall then .delegatecall else .call
    flags := if op = .staticcall then staticFlag else st.msg.flags
    depth := st.msg.depth + 1
    recipient := if op = .call ∨ op = .staticcall then dst else st.msg.recipient
    codeAddress := dst
    sender := if op = .delegatecall then st.msg.sender else st.msg.recipient
    value := if op = .delegatecall then st.msg.value else value
    inputData := if inputSize.toSize > 0 then
        st.memory.slice inputOffset.toSize inputSize.toSize else [] }
  if op = .call then
    if hasValue ∧ st.InStaticMode then
      exit .staticModeViolation
  let cost : Int := if hasValue then 9000 else 0
  let cost : Int ←
    if op = .call ∧ hasValue then do
      let exists_ ← host (HostCall.accountExists dst)
      if exists_ then pure cost else compute (int32 (cost + 25000))
    else pure cost
  charge cost
  return { gas, value, outputOffset := outputOffset.toSize, outputSize := outputSize.toSize, msg }

/-- `call_impl` from the result of the nested message on. -/
def callReturn (l : CallLocals) (msg : Message) (result : CallResult) : InstrM Unit := do
  modifyState fun s => { s with returnData := result.outputData }
  setTop (.ofBool (result.statusCode = .success))
  let copySize := min l.outputSize result.outputData.length
  if copySize > 0 then
    writeMemory l.outputOffset (result.outputData.take copySize)
  let gasUsed ← compute (int64 (msg.gas - result.gasLeft))
  let gasLeft ← compute (int64 ((← read fun c => c.gasLeft) - gasUsed))
  modify fun c => { c with gasLeft }
  modifyState fun s => { s with gasRefund := s.gasRefund + result.gasRefund }

/-- `call_impl` from the gas of the nested message on. -/
def callSend (l : CallLocals) : InstrM Unit := do
  let gasLeft ← read fun c => c.gasLeft
  let quotient ← compute (int64 (gasLeft.tdiv 64))
  let allButOne64th ← compute (int64 (gasLeft - quotient))
  let msgGas := min (min (l.gas.toNat : Int) int64Max) allButOne64th
  let msgGas ← if l.HasValue then compute (int64 (msgGas + 2300)) else pure msgGas
  let gasLeft ← if l.HasValue then compute (int64 (gasLeft + 2300)) else pure gasLeft
  let msg := { l.msg with gas := msgGas }
  modify fun c => { c with gasLeft }
  let st ← state
  if st.msg.depth ≥ 1024 then
    return
  if l.HasValue then
    if (← host (HostCall.getBalance st.msg.recipient)) < l.value then
      return
  callReturn l msg (← host (HostCall.call msg))

/-- `call_impl`. -/
def callImpl (op : CallOp) : InstrM Unit := callCharge op >>= callSend

/-- `create_impl` up to the last charge. -/
def createCharge (op : CreateOp) : InstrM CreateLocals := do
  if (← state).InStaticMode then
    exit .staticModeViolation
  let endowment ← pop
  let initCodeOffset ← pop
  let initCodeSize ← pop
  let salt ← if op = .create2 then pop else pure 0
  push 0
  modifyState fun s => { s with returnData := [] }
  requireMemory initCodeOffset initCodeSize
  let size := initCodeSize.toSize
  if size > 0xC000 then
    exit .outOfGas
  let initCodeHashCost ← compute (int32 (6 * (if op = .create2 then 1 else 0)))
  let initCodeWordCost ← compute (int32 (initCodeHashCost + 2))
  let words ← compute (numWords size)
  let initCodeCost ← compute (int64 (words * initCodeWordCost))
  charge initCodeCost
  let memory := (← state).memory
  let initCode := if size > 0 then memory.slice initCodeOffset.toSize size else []
  return { endowment, salt, initCode }

/-- `create_impl` from the result of the nested message on. -/
def createReturn (msg : Message) (result : CallResult) : InstrM Unit := do
  let gasUsed ← compute (int64 (msg.gas - result.gasLeft))
  let gasLeft ← compute (int64 ((← read fun c => c.gasLeft) - gasUsed))
  modify fun c => { c with gasLeft }
  modifyState fun s => { s with gasRefund := s.gasRefund + result.gasRefund }
  modifyState fun s => { s with returnData := result.outputData }
  if result.statusCode = .success then
    setTop result.createAddress.toWord

/-- `create_impl` from the depth check on. -/
def createSend (op : CreateOp) (l : CreateLocals) : InstrM Unit := do
  let st ← state
  if st.msg.depth ≥ 1024 then
    return
  if l.endowment ≠ 0 then
    if (← host (HostCall.getBalance st.msg.recipient)) < l.endowment then
      return
  let gasLeft ← read fun c => c.gasLeft
  let quotient ← compute (int64 (gasLeft.tdiv 64))
  let msgGas ← compute (int64 (gasLeft - quotient))
  let msg : Message := {
    gas := msgGas
    kind := if op = .create then .create else .create2
    inputData := l.initCode
    sender := st.msg.recipient
    depth := st.msg.depth + 1
    create2Salt := l.salt
    value := l.endowment }
  createReturn msg (← host (HostCall.call msg))

/-- `create_impl`. -/
def createImpl (op : CreateOp) : InstrM Unit := createCharge op >>= createSend op

/-! ### The opcode map -/

/-- `instr::core::impl`: the other implementations do not compute with gas. -/
def coreImpl [Ethash] : Opcode → CoreFn
  | .exp => .result exp
  | .keccak256 => .result keccak256
  | .balance => .result balance
  | .calldatacopy => .result calldatacopy
  | .codecopy => .result codecopy
  | .extcodesize => .result extcodesize
  | .extcodecopy => .result extcodecopy
  | .returndatacopy => .result returndatacopy
  | .extcodehash => .result extcodehash
  | .mload => .result mload
  | .mstore => .result mstore
  | .mstore8 => .result mstore8
  | .sload => .result sload
  | .sstore => .result sstore
  | .log k => .result (log k)
  | .create => .result (createImpl .create)
  | .call => .result (callImpl .call)
  | .return_ => .term (returnImpl .success)
  | .delegatecall => .result (callImpl .delegatecall)
  | .create2 => .result (createImpl .create2)
  | .staticcall => .result (callImpl .staticcall)
  | .revert => .term (returnImpl .revert)
  | op => Zvmone.coreImpl op

end Signed

end Zvmone
