import Zvmone.Vm.ExecutionState

/-! # Core instruction implementations

The implementations shared by both interpreters. They come in the five shapes of the source
(`CoreFn`): on the stack alone, with the execution state, with gas and a status (`InstrM`),
terminating, and with the code position. As in the source, an implementation does not report the
new stack height; its caller adjusts the pointer by `stackHeightChange`. -/

namespace Zvmone

/-! ### Limbs of a word -/

namespace Word

/-- `x[i]`: the 64-bit limb of a word, least significant first. -/
def limb (x : Word) (i : Nat) : BitVec 64 := (x >>> (64 * i)).setWidth 64

/-- The word with the given limbs. -/
def ofLimbs (l : Nat → BitVec 64) : Word := l 3 ++ l 2 ++ l 1 ++ l 0

/-- `intx::count_significant_bytes`. -/
def countSignificantBytes (x : Word) : Nat := if x = 0 then 0 else Nat.log2 x.toNat / 8 + 1

/-- The loop of `intx::exp`: square and multiply over the lowest `n` bits of the exponent. -/
def expLoop : Nat → Word → Word → Word → Word
  | 0, result, _, _ => result
  | n + 1, result, base, exponent =>
    expLoop n (if exponent.getLsbD 0 then result * base else result) (base * base) (exponent >>> 1)

/-- `intx::exp`. -/
def exp (base exponent : Word) : Word := expLoop 256 1 base exponent

/-- `operator<<`: shifts by 256 or more give 0. -/
def shl (x y : Word) : Word := if y.toNat < 256 then x <<< y.toNat else 0

/-- `operator>>`: shifts by 256 or more give 0. -/
def shr (x y : Word) : Word := if y.toNat < 256 then x >>> y.toNat else 0

/-- Conversion of `bool`. -/
def ofBool (b : Bool) : Word := if b then 1 else 0

end Word

/-! ### The monad of instructions with gas and status -/

/-- What an instruction works on: the stack, the gas left and the execution state. -/
structure Ctx where
  stack : StackTop
  gasLeft : Int
  state : ExecutionState

/-- Implementations returning `Result`: they either run to the end or return early with a status
other than `ZVMC_SUCCESS`. -/
def InstrM (α : Type) : Type := Ctx → HostM (Except StatusCode α × Ctx)

namespace InstrM

variable {α β : Type}

/-- Continue after the first part, unless it returned early. -/
def andThen (f : α → InstrM β) : Except StatusCode α × Ctx → HostM (Except StatusCode β × Ctx)
  | (.ok a, c) => f a c
  | (.error e, c) => .ret (.error e, c)

instance : Monad InstrM where
  pure a := fun c => .ret (.ok a, c)
  bind m f := fun c => m c >>= andThen f

/-- Return early with a status. -/
def exit (status : StatusCode) : InstrM α := fun c => .ret (.error status, c)

/-- Read the context. -/
def read (f : Ctx → α) : InstrM α := fun c => .ret (.ok (f c), c)

/-- Change the context. -/
def modify (f : Ctx → Ctx) : InstrM Unit := fun c => .ret (.ok (), f c)

/-- Call a host method. -/
def host (q : HostCall) : InstrM q.Answer := fun c => .ask q fun r => .ret (.ok r, c)

/-- `stack.pop()`. -/
def pop : InstrM Word := fun c => .ret (.ok (c.stack.get 0), { c with stack := c.stack.pop.2 })

/-- `stack.push(value)`. -/
def push (value : Word) : InstrM Unit := modify fun c => { c with stack := c.stack.push value }

/-- `stack.top()`. -/
def top : InstrM Word := read fun c => c.stack.get 0

/-- `stack.top() = value`. -/
def setTop (value : Word) : InstrM Unit := modify fun c => { c with stack := c.stack.set 0 value }

/-- The execution state. -/
def state : InstrM ExecutionState := read fun c => c.state

/-- Change the execution state. -/
def modifyState (f : ExecutionState → ExecutionState) : InstrM Unit :=
  modify fun c => { c with state := f c.state }

/-- `if ((gas_left -= cost) < 0) return {ZVMC_OUT_OF_GAS, gas_left};` -/
def charge (cost : Int) : InstrM Unit := fun c =>
  let c' := { c with gasLeft := c.gasLeft - cost }
  if c'.gasLeft < 0 then .ret (.error .outOfGas, c') else .ret (.ok (), c')

/-- Keep the gas and the memory after a memory check, and
`return {ZVMC_OUT_OF_GAS, gas_left};` if it was negative. -/
def require (check : Int → Memory → Bool × Int × Memory) : InstrM Unit := fun c =>
  let (ok, gasLeft, memory) := check c.gasLeft c.state.memory
  let c' := { c with gasLeft, state := { c.state with memory } }
  if ok then .ret (.ok (), c') else .ret (.error .outOfGas, c')

/-- `check_memory` on the memory of the frame. -/
def requireMemory (offset size : Word) : InstrM Unit :=
  require fun gasLeft memory => checkMemory gasLeft memory offset size

/-- `check_memory` for a size known to be small. -/
def requireMemorySmall (offset : Word) (size : Nat) : InstrM Unit :=
  require fun gasLeft memory => checkMemorySmall gasLeft memory offset size

/-- Overwrite memory. -/
def writeMemory (i : Nat) (bs : Bytes) : InstrM Unit :=
  modifyState fun s => { s with memory := s.memory.write i bs }

end InstrM

open InstrM

namespace Core

/-! ### Instructions on the stack alone -/

/-- `noop`, also `pop` and `jumpdest`. -/
def noop (stack : StackTop) : StackTop := stack

/-- A binary instruction: pop the first operand, replace the second by the result. -/
def binary (f : Word → Word → Word) (stack : StackTop) : StackTop :=
  let (x, stack) := stack.pop
  stack.set 0 (f x (stack.get 0))

/-- `add`: the sum modulo `2 ^ 256`. -/
def add : StackTop → StackTop := binary (· + ·)

/-- `mul`: the product modulo `2 ^ 256`. -/
def mul : StackTop → StackTop := binary (· * ·)

/-- `sub`: the difference modulo `2 ^ 256`. -/
def sub : StackTop → StackTop := binary (· - ·)

/-- `div`: unsigned division, 0 for the divisor 0. -/
def div : StackTop → StackTop := binary fun x v => if v ≠ 0 then x / v else 0

/-- `sdiv`: signed division that truncates, 0 for the divisor 0. -/
def sdiv : StackTop → StackTop := binary fun x v => if v ≠ 0 then x.sdiv v else 0

/-- `mod`: the unsigned remainder, 0 for the divisor 0. -/
def mod : StackTop → StackTop := binary fun x v => if v ≠ 0 then x % v else 0

/-- `smod`: the remainder with the sign of the dividend, 0 for the divisor 0. -/
def smod : StackTop → StackTop := binary fun x v => if v ≠ 0 then x.srem v else 0

/-- A ternary instruction: pop two operands, replace the third by the result. -/
def ternary (f : Word → Word → Word → Word) (stack : StackTop) : StackTop :=
  let (x, stack) := stack.pop
  let (y, stack) := stack.pop
  stack.set 0 (f x y (stack.get 0))

/-- `addmod`: the sum is not cut off before it is reduced. -/
def addmod : StackTop → StackTop :=
  ternary fun x y m => if m ≠ 0 then BitVec.ofNat 256 ((x.toNat + y.toNat) % m.toNat) else 0

/-- `mulmod`: the product is not cut off before it is reduced. -/
def mulmod : StackTop → StackTop :=
  ternary fun x y m => if m ≠ 0 then BitVec.ofNat 256 (x.toNat * y.toNat % m.toNat) else 0

/-- `signextend`: on the limbs of the operand, as in the source. -/
def signextend (stack : StackTop) : StackTop :=
  let (ext, stack) := stack.pop
  let x := stack.get 0
  if ext.toNat < 31 then
    let e := (ext.limb 0).toNat
    let signWordIndex := e / 8
    let signByteIndex := e % 8
    let signWord := x.limb signWordIndex
    let signByteOffset := signByteIndex * 8
    let signByte := signWord >>> signByteOffset
    let sextByte := (signByte.setWidth 8).signExtend 64
    let sext := sextByte <<< signByteOffset
    let signMask := ~~~(0 : BitVec 64) <<< signByteOffset
    let value := signWord &&& ~~~signMask
    let signEx := sextByte.sshiftRight 8
    stack.set 0 (Word.ofLimbs fun i =>
      if i > signWordIndex then signEx
      else if i = signWordIndex then sext ||| value
      else x.limb i)
  else stack

/-- `lt`: unsigned comparison of the first operand with the second. -/
def lt : StackTop → StackTop := binary fun x y => .ofBool (x < y)

/-- `gt`: unsigned comparison the other way. -/
def gt : StackTop → StackTop := binary fun x y => .ofBool (y < x)

/-- `slt`: signed comparison of the first operand with the second. -/
def slt : StackTop → StackTop := binary fun x y => .ofBool (x.slt y)

/-- `sgt`: signed comparison the other way. -/
def sgt : StackTop → StackTop := binary fun x y => .ofBool (y.slt x)

/-- `eq`: equality of the operands. -/
def eq : StackTop → StackTop := binary fun x y => .ofBool (x = y)

/-- `iszero`: whether the top item is 0. -/
def iszero (stack : StackTop) : StackTop := stack.set 0 (.ofBool (stack.get 0 = 0))

/-- `and_`: bitwise conjunction. -/
def and_ : StackTop → StackTop := binary (· &&& ·)

/-- `or_`: bitwise disjunction. -/
def or_ : StackTop → StackTop := binary (· ||| ·)

/-- `xor_`: bitwise exclusive disjunction. -/
def xor_ : StackTop → StackTop := binary (· ^^^ ·)

/-- `not_`: bitwise negation. -/
def not_ (stack : StackTop) : StackTop := stack.set 0 (~~~stack.get 0)

/-- `byte`: on the limbs of the operand, as in the source. -/
def byte : StackTop → StackTop := binary fun n x =>
  let byteMask : BitVec 64 := if n.toNat < 32 then 0xff else 0
  let index := 31 - (n.limb 0).toNat % 32
  let word := x.limb (index / 8)
  let byteIndex := index % 8
  ((word >>> (byteIndex * 8)) &&& byteMask).setWidth 256

/-- `shl`: the first operand is the amount, the second is shifted. -/
def shl : StackTop → StackTop := binary fun y x => x.shl y

/-- `shr`: shift right, with zeros from the left. -/
def shr : StackTop → StackTop := binary fun y x => x.shr y

/-- `sar`: shift right, with the sign from the left. The sign bits are put over a logical shift, as
in the source. -/
def sar : StackTop → StackTop := binary fun y x =>
  let isNeg := (x.limb 3).msb
  let signMask : Word := if isNeg then ~~~0 else 0
  let maskShift : Word := if y.toNat < 256 then BitVec.ofNat 256 (256 - (y.limb 0).toNat) else 0
  x.shr y ||| signMask.shl maskShift

/-- `push0`: push the item 0. -/
def push0 (stack : StackTop) : StackTop := stack.push 0

/-- `dup<N>` with `N = k + 1`. -/
def dup (k : Nat) (stack : StackTop) : StackTop := stack.push (stack.get k)

/-- `swap<N>`. -/
def swap (n : Nat) (stack : StackTop) : StackTop :=
  let a := stack.get n
  let t := stack.get 0
  (stack.set 0 a).set n t

/-! ### Instructions reading the execution state -/

/-- The shape of these instructions: they push one item. -/
def pushes (value : ExecutionState → Word) (stack : StackTop) (state : ExecutionState) :
    HostM (StackTop × ExecutionState) :=
  return (stack.push (value state), state)

/-- Push one item read from the transaction context. -/
def pushesTx (value : TxContext → Word) (stack : StackTop) (state : ExecutionState) :
    HostM (StackTop × ExecutionState) := do
  let (tx, state) ← state.getTxContext
  return (stack.push (value tx), state)

/-- `address`: the account that runs. -/
def address := pushes fun state => state.msg.recipient.toWord

/-- `origin`: the sender of the transaction. -/
def origin := pushesTx fun tx => tx.txOrigin.toWord

/-- `caller`: the sender of the message. -/
def caller := pushes fun state => state.msg.sender.toWord

/-- `callvalue`: the value of the message. -/
def callvalue := pushes fun state => state.msg.value

/-- `calldataload`: 32 bytes of the input from an index, extended with zeros. -/
def calldataload (stack : StackTop) (state : ExecutionState) : HostM (StackTop × ExecutionState) :=
  let index := stack.get 0
  let input := state.msg.inputData
  if input.length < index.toNat then return (stack.set 0 0, state)
  else
    let begin := index.toSize
    let data := (input.drop begin).take (min (begin + 32) input.length - begin)
    return (stack.set 0 (.load (data ++ List.replicate (32 - data.length) 0)), state)

/-- `calldatasize`: the length of the input. -/
def calldatasize := pushes fun state => BitVec.ofNat 256 state.msg.inputData.length

/-- `codesize`: the length of the code, without the padding. -/
def codesize := pushes fun state => BitVec.ofNat 256 state.originalCode.length

/-- `gasprice`: the price of gas of the transaction. -/
def gasprice := pushesTx fun tx => tx.txGasPrice

/-- `basefee`: the base fee of the block. -/
def basefee := pushesTx fun tx => tx.blockBaseFee

/-- `returndatasize`: the length of the output of the last call. -/
def returndatasize := pushes fun state => BitVec.ofNat 256 state.returnData.length

/-- `blockhash`: the host is asked for the last 256 blocks only. -/
def blockhash (stack : StackTop) (state : ExecutionState) :
    HostM (StackTop × ExecutionState) := do
  let number := stack.get 0
  let (tx, state) ← state.getTxContext
  let upperBound := tx.blockNumber
  let lowerBound := max (upperBound - 256) 0
  let n := ((number.limb 0).toInt)
  if number < .ofInt64 upperBound ∧ n ≥ lowerBound then do
    let header ← Interaction.query (HostCall.getBlockHash n)
    return (stack.set 0 header, state)
  else
    return (stack.set 0 0, state)

/-- `coinbase`: the account of the producer of the block. -/
def coinbase := pushesTx fun tx => tx.blockCoinbase.toWord

/-- `timestamp`: the time of the block. -/
def timestamp := pushesTx fun tx => .ofInt64 tx.blockTimestamp

/-- `number`: the number of the block. -/
def number := pushesTx fun tx => .ofInt64 tx.blockNumber

/-- `prevrandao`: the randomness of the block. -/
def prevrandao := pushesTx fun tx => tx.blockPrevRandao

/-- `gaslimit`: the gas limit of the block. -/
def gaslimit := pushesTx fun tx => .ofInt64 tx.blockGasLimit

/-- `chainid`: the identifier of the chain. -/
def chainid := pushesTx fun tx => tx.chainId

/-- `selfbalance`: the balance of the account that runs. -/
def selfbalance (stack : StackTop) (state : ExecutionState) :
    HostM (StackTop × ExecutionState) := do
  let balance ← Interaction.query (HostCall.getBalance state.msg.recipient)
  return (stack.push balance, state)

/-- `msize`: the size of the memory. -/
def msize := pushes fun state => BitVec.ofNat 256 state.memory.size

/-! ### Instructions with gas and status -/

/-- `exp`: each significant byte of the exponent costs 50. -/
def exp : InstrM Unit := do
  let base ← pop
  let exponent ← top
  let exponentCost := 50
  charge (exponent.countSignificantBytes * exponentCost)
  setTop (base.exp exponent)

/-- `keccak256`: each word that is hashed costs 6. -/
def keccak256 [Ethash] : InstrM Unit := do
  let index ← pop
  let size ← top
  requireMemory index size
  let i := index.toSize
  let s := size.toSize
  let w := numWords s
  charge (w * 6)
  let memory := (← state).memory
  setTop (Ethash.keccak256 (memory.slice i s))

/-- Charge the additional cost of a cold account. -/
def accessAccount (addr : Address) : InstrM Unit := do
  if (← host (HostCall.accessAccount addr)) = AccessStatus.cold then
    charge Instr.additionalColdAccountAccessCost

/-- The shape of the account instructions: the address on the top is replaced by what the host says
about it. -/
def accountQuery (query : Address → HostCall) (value : ∀ addr, (query addr).Answer → Word) :
    InstrM Unit := do
  let x ← top
  let addr := x.toAddress
  accessAccount addr
  setTop (value addr (← host (query addr)))

/-- `balance`: the balance of the account. -/
def balance : InstrM Unit := accountQuery .getBalance fun _ b => b

/-- `extcodesize`: the length of the code of the account. -/
def extcodesize : InstrM Unit := accountQuery .getCodeSize fun _ n => BitVec.ofNat 256 n

/-- `extcodehash`: the hash of the code of the account. -/
def extcodehash : InstrM Unit := accountQuery .getCodeHash fun _ h => h

/-- The shape of `calldatacopy` and `codecopy`: copy a slice of a buffer, extended with zeros, to
memory. -/
def copy (buffer : ExecutionState → Bytes) : InstrM Unit := do
  let memIndex ← pop
  let inputIndex ← pop
  let size ← pop
  requireMemory memIndex size
  let buffer := buffer (← state)
  let dst := memIndex.toSize
  let src := if buffer.length < inputIndex.toNat then buffer.length else inputIndex.toSize
  let s := size.toSize
  let copySize := min s (buffer.length - src)
  charge (numWords s * 3)
  if copySize > 0 then
    writeMemory dst ((buffer.drop src).take copySize)
  if s - copySize > 0 then
    writeMemory (dst + copySize) (List.replicate (s - copySize) 0)

/-- `calldatacopy`: copy from the input. -/
def calldatacopy : InstrM Unit := copy fun state => state.msg.inputData

/-- `codecopy`: copy from the code. -/
def codecopy : InstrM Unit := copy fun state => state.originalCode

/-- `extcodecopy`: copy from the code of an account, which the host provides. -/
def extcodecopy : InstrM Unit := do
  let addr := (← pop).toAddress
  let memIndex ← pop
  let inputIndex ← pop
  let size ← pop
  requireMemory memIndex size
  let s := size.toSize
  charge (numWords s * 3)
  accessAccount addr
  if s > 0 then
    let src := if maxBufferSize < inputIndex.toNat then maxBufferSize else inputIndex.toSize
    let dst := memIndex.toSize
    -- The host writes to a buffer of `s` bytes, so at most that many arrive.
    let copied : Bytes := List.take s (← host (HostCall.copyCode addr src s))
    writeMemory dst copied
    if s - copied.length > 0 then
      writeMemory (dst + copied.length) (List.replicate (s - copied.length) 0)

/-- `returndatacopy`: unlike the other copies it fails beyond the end of the buffer. -/
def returndatacopy : InstrM Unit := do
  let memIndex ← pop
  let inputIndex ← pop
  let size ← pop
  requireMemory memIndex size
  let dst := memIndex.toSize
  let s := size.toSize
  let returnData := (← state).returnData
  if returnData.length < inputIndex.toNat then
    exit .invalidMemoryAccess
  let src := inputIndex.toSize
  if src + s > returnData.length then
    exit .invalidMemoryAccess
  charge (numWords s * 3)
  if s > 0 then
    writeMemory dst ((returnData.drop src).take s)

/-- `mload`: read a word of the memory. -/
def mload : InstrM Unit := do
  let index ← top
  requireMemorySmall index 32
  let memory := (← state).memory
  setTop (.load (memory.slice index.toSize 32))

/-- `mstore`: write a word to the memory. -/
def mstore : InstrM Unit := do
  let index ← pop
  let value ← pop
  requireMemorySmall index 32
  writeMemory index.toSize (Bytes32.bytes value)

/-- `mstore8`: write the lowest byte of an item to the memory. -/
def mstore8 : InstrM Unit := do
  let index ← pop
  let value ← pop
  requireMemorySmall index 1
  writeMemory index.toSize [UInt8.ofNat value.toNat]

/-- `gas`: the gas left. -/
def gas : InstrM Unit := do
  push (.ofInt64 (← read fun c => c.gasLeft))

/-- `log<NumTopics>`. -/
def log (numTopics : Nat) : InstrM Unit := do
  if (← state).InStaticMode then
    modify fun c => { c with gasLeft := 0 }
    exit .staticModeViolation
  let offset ← pop
  let size ← pop
  requireMemory offset size
  let o := offset.toSize
  let s := size.toSize
  charge ((s : Int) * 8)
  let topics ← (List.replicate numTopics ()).mapM fun _ => pop
  let st ← state
  host (HostCall.emitLog st.msg.recipient (st.memory.slice o s) topics)

/-! ### Terminating instructions -/

/-- `stop_impl`. -/
def stopImpl (status : StatusCode) : InstrM StatusCode := pure status

/-- `stop`: end with success. -/
def stop : InstrM StatusCode := stopImpl .success

/-- `invalid`: end with a failure. -/
def invalid : InstrM StatusCode := stopImpl .invalidInstruction

/-- `return_impl`. -/
def returnImpl (statusCode : StatusCode) : InstrM StatusCode := do
  let offset ← read fun c => c.stack.get 0
  let size ← read fun c => c.stack.get 1
  requireMemory offset size
  modifyState fun s => { s with outputSize := size.toSize }
  if size.toSize ≠ 0 then
    modifyState fun s => { s with outputOffset := offset.toSize }
  pure statusCode

/-- `return_`: end with success and an output. -/
def return_ : InstrM StatusCode := returnImpl .success

/-- `revert`: end with an output and the gas left, but without the changes. -/
def revert : InstrM StatusCode := returnImpl .revert

end Core

end Zvmone
