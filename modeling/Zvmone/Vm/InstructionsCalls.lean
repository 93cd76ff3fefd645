import Zvmone.Vm.InstructionsStorage

/-! # Call and create instructions

`call_impl` and `create_impl`, each in three parts: the part that makes all charges of the
instruction (`callCharge`, `createCharge`), the part that decides the gas of the nested message and
sends it (`callSend`, `createSend`), and the part that follows when the message has returned
(`callReturn`, `createReturn`). -/

namespace Zvmone

namespace Core

open InstrM Instr

/-- The opcodes `call_impl` is instantiated with. -/
inductive CallOp
  | call | delegatecall | staticcall
  deriving DecidableEq, Repr

/-- The opcodes `create_impl` is instantiated with. -/
inductive CreateOp
  | create | create2
  deriving DecidableEq, Repr

/-- `std::numeric_limits<int64_t>::max()`. -/
def int64Max : Int := 2 ^ 63 - 1

/-- The local variables of `call_impl` that are alive once all charges are made. -/
structure CallLocals where
  gas : Word
  value : Word
  outputOffset : Nat
  outputSize : Nat
  /-- The nested message, without its gas. -/
  msg : Message

/-- `has_value`. -/
def CallLocals.HasValue (l : CallLocals) : Prop := l.value ≠ 0

instance (l : CallLocals) : Decidable l.HasValue := inferInstanceAs (Decidable (_ ≠ _))

/-- `call_impl` up to the last charge. -/
def callCharge (op : CallOp) : InstrM CallLocals := do
  let gas ← pop
  let dst := (← pop).toAddress
  let value ← if op = .staticcall ∨ op = .delegatecall then pure 0 else pop
  let hasValue := value ≠ 0
  let inputOffset ← pop
  let inputSize ← pop
  let outputOffset ← pop
  let outputSize ← pop
  push 0  -- Assume failure.
  modifyState fun s => { s with returnData := [] }
  accessAccount dst
  requireMemory inputOffset inputSize
  requireMemory outputOffset outputSize
  let st ← state
  let msg : Message := {
    kind := if op = .delegatecall then .delegatecall else .call
    flags := if op = .staticcall then staticFlag else st.msg.flags
    depth := st.msg.depth + 1
    recipient := if op = .call ∨ op = .staticcall then dst else st.msg.recipient
    codeAddress := dst
    sender := if op = .delegatecall then st.msg.sender else st.msg.recipient
    value := if op = .delegatecall then st.msg.value else value
    inputData := if inputSize.toSize > 0 then
        st.memory.slice inputOffset.toSize inputSize.toSize else [] }
  if op = .call then
    if hasValue ∧ st.InStaticMode then
      exit .staticModeViolation
  let cost := if hasValue then 9000 else 0
  let newAccountCost : Int ←
    if op = .call ∧ hasValue then do
      let exists_ ← host (HostCall.accountExists dst)
      pure (if exists_ then 0 else 25000)
    else pure 0
  charge (cost + newAccountCost)
  return { gas, value, outputOffset := outputOffset.toSize, outputSize := outputSize.toSize, msg }

/-- `call_impl` from the result of the nested message on. -/
def callReturn (l : CallLocals) (msg : Message) (result : CallResult) : InstrM Unit := do
  modifyState fun s => { s with returnData := result.outputData }
  setTop (.ofBool (result.statusCode = .success))
  let copySize := min l.outputSize result.outputData.length
  if copySize > 0 then
    writeMemory l.outputOffset (result.outputData.take copySize)
  let gasUsed := msg.gas - result.gasLeft
  modify fun c => { c with gasLeft := c.gasLeft - gasUsed }
  modifyState fun s => { s with gasRefund := s.gasRefund + result.gasRefund }

/-- `call_impl` from the gas of the nested message on. -/
def callSend (l : CallLocals) : InstrM Unit := do
  let gasLeft ← read fun c => c.gasLeft
  let msgGas := min (min (l.gas.toNat : Int) int64Max) (gasLeft - gasLeft / 64)
  let stipend := if l.HasValue then 2300 else 0
  let msg := { l.msg with gas := msgGas + stipend }
  modify fun c => { c with gasLeft := c.gasLeft + stipend }
  let st ← state
  if st.msg.depth ≥ 1024 then
    return  -- "Light" failure.
  if l.HasValue then
    if (← host (HostCall.getBalance st.msg.recipient)) < l.value then
      return  -- "Light" failure.
  callReturn l msg (← host (HostCall.call msg))

/-- `call_impl`. -/
def callImpl (op : CallOp) : InstrM Unit := callCharge op >>= callSend

/-- The local variables of `create_impl` that are alive once all charges are made. -/
structure CreateLocals where
  endowment : Word
  salt : Word
  initCode : Bytes

/-- `create_impl` up to the last charge. -/
def createCharge (op : CreateOp) : InstrM CreateLocals := do
  if (← state).InStaticMode then
    exit .staticModeViolation
  let endowment ← pop
  let initCodeOffset ← pop
  let initCodeSize ← pop
  let salt ← if op = .create2 then pop else pure 0
  push 0  -- Assume failure.
  modifyState fun s => { s with returnData := [] }
  requireMemory initCodeOffset initCodeSize
  let size := initCodeSize.toSize
  if size > 0xC000 then
    exit .outOfGas
  let initCodeWordCost : Int := 6 * (if op = .create2 then 1 else 0) + 2
  charge (numWords size * initCodeWordCost)
  let memory := (← state).memory
  let initCode := if size > 0 then memory.slice initCodeOffset.toSize size else []
  return { endowment, salt, initCode }

/-- `create_impl` from the result of the nested message on. -/
def createReturn (msg : Message) (result : CallResult) : InstrM Unit := do
  modify fun c => { c with gasLeft := c.gasLeft - (msg.gas - result.gasLeft) }
  modifyState fun s => { s with gasRefund := s.gasRefund + result.gasRefund }
  modifyState fun s => { s with returnData := result.outputData }
  if result.statusCode = .success then
    setTop result.createAddress.toWord

/-- `create_impl` from the depth check on. -/
def createSend (op : CreateOp) (l : CreateLocals) : InstrM Unit := do
  let st ← state
  if st.msg.depth ≥ 1024 then
    return  -- "Light" failure.
  if l.endowment ≠ 0 then
    if (← host (HostCall.getBalance st.msg.recipient)) < l.endowment then
      return  -- "Light" failure.
  let gasLeft ← read fun c => c.gasLeft
  let msg : Message := {
    gas := gasLeft - gasLeft / 64
    kind := if op = .create then .create else .create2
    inputData := l.initCode
    sender := st.msg.recipient
    depth := st.msg.depth + 1
    create2Salt := l.salt
    value := l.endowment }
  createReturn msg (← host (HostCall.call msg))

/-- `create_impl`. -/
def createImpl (op : CreateOp) : InstrM Unit := createCharge op >>= createSend op

end Core

/-! ### The opcode map -/

/-- An implementation, by its shape. The position-dependent instructions `JUMP`, `JUMPI`, `PC` and
`PUSH1..PUSH32` are implemented by each interpreter. -/
inductive CoreFn
  /-- `void(StackTop)`. -/
  | stack (f : StackTop → StackTop)
  /-- `void(StackTop, ExecutionState&)`. -/
  | state (f : StackTop → ExecutionState → HostM (StackTop × ExecutionState))
  /-- `Result(StackTop, int64_t, ExecutionState&)`. -/
  | result (f : InstrM Unit)
  /-- `TermResult(StackTop, int64_t, ExecutionState&)`. -/
  | term (f : InstrM StatusCode)
  /-- `code_iterator(StackTop, ExecutionState&, code_iterator)`. -/
  | pos

/-- `instr::core::impl`: the implementation of an opcode. -/
def coreImpl [Ethash] : Opcode → CoreFn
  | .stop => .term Core.stop
  | .add => .stack Core.add
  | .mul => .stack Core.mul
  | .sub => .stack Core.sub
  | .div => .stack Core.div
  | .sdiv => .stack Core.sdiv
  | .mod => .stack Core.mod
  | .smod => .stack Core.smod
  | .addmod => .stack Core.addmod
  | .mulmod => .stack Core.mulmod
  | .exp => .result Core.exp
  | .signextend => .stack Core.signextend
  | .lt => .stack Core.lt
  | .gt => .stack Core.gt
  | .slt => .stack Core.slt
  | .sgt => .stack Core.sgt
  | .eq => .stack Core.eq
  | .iszero => .stack Core.iszero
  | .and_ => .stack Core.and_
  | .or_ => .stack Core.or_
  | .xor_ => .stack Core.xor_
  | .not_ => .stack Core.not_
  | .byte => .stack Core.byte
  | .shl => .stack Core.shl
  | .shr => .stack Core.shr
  | .sar => .stack Core.sar
  | .keccak256 => .result Core.keccak256
  | .address => .state Core.address
  | .balance => .result Core.balance
  | .origin => .state Core.origin
  | .caller => .state Core.caller
  | .callvalue => .state Core.callvalue
  | .calldataload => .state Core.calldataload
  | .calldatasize => .state Core.calldatasize
  | .calldatacopy => .result Core.calldatacopy
  | .codesize => .state Core.codesize
  | .codecopy => .result Core.codecopy
  | .gasprice => .state Core.gasprice
  | .extcodesize => .result Core.extcodesize
  | .extcodecopy => .result Core.extcodecopy
  | .returndatasize => .state Core.returndatasize
  | .returndatacopy => .result Core.returndatacopy
  | .extcodehash => .result Core.extcodehash
  | .blockhash => .state Core.blockhash
  | .coinbase => .state Core.coinbase
  | .timestamp => .state Core.timestamp
  | .number => .state Core.number
  | .prevrandao => .state Core.prevrandao
  | .gaslimit => .state Core.gaslimit
  | .chainid => .state Core.chainid
  | .selfbalance => .state Core.selfbalance
  | .basefee => .state Core.basefee
  | .pop => .stack Core.noop
  | .mload => .result Core.mload
  | .mstore => .result Core.mstore
  | .mstore8 => .result Core.mstore8
  | .sload => .result Core.sload
  | .sstore => .result Core.sstore
  | .jump => .pos
  | .jumpi => .pos
  | .pc => .pos
  | .msize => .state Core.msize
  | .gas => .result Core.gas
  | .jumpdest => .stack Core.noop
  | .push0 => .stack Core.push0
  | .push _ => .pos
  | .dup k => .stack (Core.dup k)
  | .swap k => .stack (Core.swap (k + 1))
  | .log k => .result (Core.log k)
  | .create => .result (Core.createImpl .create)
  | .call => .result (Core.callImpl .call)
  | .return_ => .term Core.return_
  | .delegatecall => .result (Core.callImpl .delegatecall)
  | .create2 => .result (Core.createImpl .create2)
  | .staticcall => .result (Core.callImpl .staticcall)
  | .revert => .term Core.revert
  | .invalid => .term Core.invalid

end Zvmone
