import Zvmone.State.Block
import Zvmone.State.Precompiles
import Zvmone.State.Rlp

/-! # The host of the state library

`Host` implements the host methods on the account map. `Host.call` runs the virtual machine, which
calls the host again: the recursion is bounded by a fuel argument, and every nested message gets
less of it. The virtual machine is a parameter. -/

namespace Zvmone

/-- `max_code_size`. -/
def maxCodeSize : Nat := 0x6000

/-- `max_initcode_size`. -/
def maxInitcodeSize : Nat := 2 * maxCodeSize

/-- What the host changes: the state, the logs and the cache of precompile results. -/
structure HostState where
  state : State
  logs : List Log := []
  cache : Precompiles.Cache := fun _ => ∅

/-- What the host does not change: the block and the transaction. -/
structure HostContext where
  block : BlockInfo
  tx : Transaction

/-- Host methods: they change the host state and may stop with a fault. -/
abbrev HostS := StateT HostState (Except Fault)

/-- `compute_new_account_address`. -/
def computeNewAccountAddress [Ethash] (sender : Address) (senderNonce : BitVec 64)
    (salt : Option Bytes32) (initCode : Bytes) : Except Fault Address :=
  match salt with
  | none =>
    match Rlp.encodeTuple [Rlp.encode (Address.bytes sender), Rlp.encodeUInt64 senderNonce] with
    | none => .error .assertion
    | some rlpList => .ok (Word.toAddress (Ethash.keccak256 rlpList))
  | some salt =>
    let initCodeHash := Ethash.keccak256 initCode
    .ok (Word.toAddress (Ethash.keccak256
      ([0xff] ++ Address.bytes sender ++ Bytes32.bytes salt ++ Bytes32.bytes initCodeHash)))

namespace Host

/-! ### Access to the account map -/

/-- `m_state.find(addr)`. -/
def find (addr : Address) : HostS (Option Account) := fun hs => .ok (hs.state.find addr, hs)

/-- `m_state.get(addr)`. -/
def getAccount (addr : Address) : HostS Account := fun hs =>
  match hs.state.find addr with
  | some acc => .ok (acc, hs)
  | none => .error .assertion

/-- Assignment through an account reference. -/
def setAccount (addr : Address) (acc : Account) : HostS Unit := fun hs =>
  .ok ((), { hs with state := hs.state.set addr acc })

/-- `m_state.get_or_insert(addr, account)`. -/
def getOrInsert (addr : Address) (account : Account := {}) : HostS Account := fun hs =>
  let (acc, state) := hs.state.getOrInsert addr account
  .ok (acc, { hs with state })

/-- `m_state.touch(addr)`. -/
def touch (addr : Address) : HostS Account := fun hs =>
  let (acc, state) := hs.state.touch addr
  .ok (acc, { hs with state })

/-- `assert(condition)`. -/
def assert (condition : Prop) [Decidable condition] : HostS Unit := fun hs =>
  if condition then .ok ((), hs) else .error .assertion

/-! ### The methods without side effects -/

/-- `account_exists`. -/
def accountExists (addr : Address) : HostS Bool := do
  match ← find addr with
  | some acc => return ¬ acc.IsEmpty
  | none => return false

/-- `get_storage`. -/
def getStorage (addr : Address) (key : Bytes32) : HostS Bytes32 := do
  let acc ← getAccount addr
  match acc.storage.lookup key with
  | some v => return v.current
  | none => return 0

/-- `get_balance`. -/
def getBalance (addr : Address) : HostS Word := do
  match ← find addr with
  | some acc => return acc.balance
  | none => return 0

/-- `get_code_size`. -/
def getCodeSize (addr : Address) : HostS Nat := do
  match ← find addr with
  | some acc => return acc.code.length
  | none => return 0

/-- `get_code_hash`. -/
def getCodeHash [Ethash] (addr : Address) : HostS Bytes32 := do
  match ← find addr with
  | some acc => return if acc.IsEmpty then 0 else Ethash.keccak256 acc.code
  | none => return 0

/-- `copy_code`: the bytes written to the buffer. -/
def copyCode (addr : Address) (codeOffset bufferSize : Nat) : HostS Bytes := do
  let code := match ← find addr with
    | some acc => acc.code
    | none => []
  let codeSlice := code.drop (min codeOffset code.length)
  return codeSlice.take (min bufferSize codeSlice.length)

/-- `get_tx_context`. -/
def getTxContext (ctx : HostContext) : HostS TxContext := do
  assert (ctx.tx.maxGasPrice ≥ ctx.block.baseFeeWord)
  return {
    txGasPrice := ctx.tx.effectiveGasPrice ctx.block
    txOrigin := ctx.tx.sender
    blockCoinbase := ctx.block.coinbase
    blockNumber := ctx.block.number
    blockTimestamp := ctx.block.timestamp
    blockGasLimit := ctx.block.gasLimit
    blockPrevRandao := ctx.block.prevRandao
    chainId := 1
    blockBaseFee := ctx.block.baseFeeWord }

/-- `get_block_hash`. -/
def getBlockHash (_ : Int) : HostS Bytes32 := return 0

/-! ### The methods with side effects -/

/-- The storage status of writing `value` to a slot. -/
def storageStatus (current original value : Bytes32) : StorageStatus :=
  let dirty := original ≠ current
  let restored := original = value
  let currentIsZero := current = 0
  let valueIsZero := value = 0
  if ¬ dirty ∧ ¬ restored then
    if currentIsZero then .added
    else if valueIsZero then .deleted
    else .modified
  else if dirty ∧ ¬ restored then
    if currentIsZero ∧ ¬ valueIsZero then .deletedAdded
    else if ¬ currentIsZero ∧ valueIsZero then .modifiedDeleted
    else .assigned
  else if dirty ∧ restored then
    if currentIsZero then .deletedRestored
    else if valueIsZero then .addedDeleted
    else .modifiedRestored
  else .assigned

/-- `set_storage`. -/
def setStorage (addr : Address) (key value : Bytes32) : HostS StorageStatus := do
  let acc ← getAccount addr
  let storageSlot := acc.storage.slot key
  let status := storageStatus storageSlot.current storageSlot.original value
  setAccount addr { acc with storage := acc.storage.insert key { storageSlot with current := value } }
  return status

/-- `emit_log`. -/
def emitLog (addr : Address) (data : Bytes) (topics : List Bytes32) : HostS Unit := fun hs =>
  .ok ((), { hs with logs := hs.logs ++ [⟨addr, data, topics⟩] })

/-- The address is one of `0x01..0x09`. -/
def IsPrecompileAddress (addr : Address) : Prop := 0x01 ≤ addr.toNat ∧ addr.toNat ≤ 0x09

instance (addr : Address) : Decidable (IsPrecompileAddress addr) :=
  inferInstanceAs (Decidable (_ ∧ _))

/-- `access_account`. -/
def accessAccount (addr : Address) : HostS AccessStatus := do
  let acc ← getOrInsert addr { erasable := true }
  let status := acc.accessStatus
  setAccount addr { acc with accessStatus := .warm }
  -- Precompiled contracts are always warm.
  if status = .cold ∧ IsPrecompileAddress addr then return .warm
  return status

/-- `access_storage`. -/
def accessStorage (addr : Address) (key : Bytes32) : HostS AccessStatus := do
  let acc ← getAccount addr
  let slot := acc.storage.slot key
  setAccount addr
    { acc with storage := acc.storage.insert key { slot with accessStatus := .warm } }
  return slot.accessStatus

/-! ### Calls -/

section call

variable [Ethash]

/-- The message bumps the nonce of its sender. -/
def BumpsNonce (msg : Message) : Prop := msg.depth = 0 ∨ msg.kind.IsCreate

instance (msg : Message) : Decidable (BumpsNonce msg) := inferInstanceAs (Decidable (_ ∨ _))

/-- `prepare_message`: the part that bumps the sender nonce. -/
def bumpNonce (senderAcc : Account) (msg : Message) : HostS Unit := do
  if BumpsNonce msg then
    setAccount msg.sender { senderAcc with nonce := senderAcc.nonce + 1 }

/-- `prepare_message`: the part that computes the create address from the sender's nonce before it
was bumped. -/
def fillCreateAddress (senderNonce : BitVec 64) (msg : Message) : HostS Message := do
  if msg.kind.IsCreate then
    assert (msg.recipient = 0)
    assert (msg.codeAddress = 0)
    let recipient ← computeNewAccountAddress msg.sender senderNonce
      (if msg.kind = .create2 then some msg.create2Salt else none) msg.inputData
    -- The access to the created address is never reverted.
    let _ ← accessAccount recipient
    return { msg with recipient }
  return msg

/-- `prepare_message`: `none` is the light early exception. -/
def prepareMessage (msg : Message) : HostS (Option Message) := do
  let senderAcc ← getAccount msg.sender
  let senderNonce := senderAcc.nonce
  if BumpsNonce msg ∧ senderNonce = Account.nonceMax then
    return none
  else
    bumpNonce senderAcc msg
    return some (← fillCreateAddress senderNonce msg)

/-- Move value between two accounts; the amount leaves the sender first. -/
def transfer (sender recipient : Address) (value : Word) : HostS Unit := do
  let senderAcc ← getAccount sender
  assert (senderAcc.balance ≥ value)
  setAccount sender { senderAcc with balance := senderAcc.balance - value }
  let recipientAcc ← getAccount recipient
  setAccount recipient { recipientAcc with balance := recipientAcc.balance + value }

/-- The storage of a new account: cleared, but the access status is kept. -/
def clearStorage (storage : Storage) : Storage :=
  storage.mapValues fun v => { accessStatus := v.accessStatus }

/-- What runs the code of a message. -/
abbrev Exec := Message → Bytes → HostS CallResult

/-- `create`: the part before the init code runs; `false` in case of a collision. -/
def enterCreate (msg : Message) : HostS Bool := do
  match ← find msg.recipient with
  | some acc => if acc.nonce ≠ 0 ∨ acc.code ≠ [] then return false
  | none => pure ()
  let newAcc ← getOrInsert msg.recipient
  assert (newAcc.nonce = 0)
  setAccount msg.recipient { newAcc with nonce := 1, storage := clearStorage newAcc.storage }
  transfer msg.sender msg.recipient msg.value
  return true

/-- `create`: the part after the init code has run. -/
def deploy (msg : Message) (result : CallResult) : HostS CallResult := do
  if result.statusCode ≠ .success then
    return { result with createAddress := msg.recipient }
  let gasLeft := result.gasLeft
  assert (gasLeft ≥ 0)
  let code := result.outputData
  if code.length > maxCodeSize then
    return { statusCode := .failure }
  let cost : Int := code.length * 200
  let gasLeft := gasLeft - cost
  if gasLeft < 0 then
    return { statusCode := .failure }
  if code.head? = some 0xEF then
    return { statusCode := .contractValidationFailure }
  let acc ← getAccount msg.recipient
  setAccount msg.recipient { acc with code }
  return { statusCode := result.statusCode, gasLeft, gasRefund := result.gasRefund,
           createAddress := msg.recipient }

/-- `create`. -/
def create (exec : Exec) (msg : Message) : HostS CallResult := do
  assert msg.kind.IsCreate
  if ← enterCreate msg then
    let result ← exec { msg with inputData := [] } msg.inputData
    deploy msg result
  else
    return { statusCode := .failure }

/-- `execute_message`: find the account whose code runs, and transfer the value. -/
def enterCall (msg : Message) : HostS Unit := do
  assert (msg.kind ≠ .call ∨ msg.recipient = msg.codeAddress)
  if msg.kind = .call then
    let _ ← touch msg.recipient
    transfer msg.sender msg.recipient msg.value

/-- `call_precompile` with the cache of the host. -/
def callPrecompile (msg : Message) : HostS (Option CallResult) := fun hs =>
  let c := Precompiles.callPrecompile hs.cache msg
  match c.result with
  | .error e => .error e
  | .ok result => .ok (result, { hs with cache := c.cache })

/-- `execute_message`. -/
def executeMessage (exec : Exec) (msg : Message) : HostS CallResult := do
  if msg.kind.IsCreate then create exec msg
  else do
    enterCall msg
    match ← callPrecompile msg with
    | some precompiledResult => return precompiledResult
    | none => do
      let dstAcc ← find (if msg.kind = .call then msg.recipient else msg.codeAddress)
      let code := match dstAcc with
        | some acc => acc.code
        | none => []
      exec msg code

/-- `addr_03`. -/
def addr03 : Address := 3

/-- Revert to a snapshot. The touch on the address `0x03` is never reverted, and the cache is not
part of the state. -/
def revert (snapshot : HostState) (hs : HostState) : HostState :=
  let is03Touched := match hs.state.find addr03 with
    | some acc => acc.erasable
    | none => false
  { hs with
    state := if is03Touched then (snapshot.state.touch addr03).2 else snapshot.state
    logs := hs.logs.take snapshot.logs.length }

/-- `call`, given what runs the code of a message. -/
def callWith (exec : Exec) (origMsg : Message) : HostS CallResult := do
  match ← prepareMessage origMsg with
  | none => return { statusCode := .failure, gasLeft := origMsg.gas }
  | some msg => do
    let snapshot ← get
    let result ← executeMessage exec msg
    if result.statusCode ≠ .success then
      modify (revert snapshot)
    return result

/-- The host as the environment of an interpreter, given its method `call`. -/
def answer (ctx : HostContext) (call : Message → HostS CallResult) :
    Interaction.Env HostCall.Answer Fault HostState
  | .accountExists addr => accountExists addr
  | .getStorage addr key => getStorage addr key
  | .setStorage addr key value => setStorage addr key value
  | .getBalance addr => getBalance addr
  | .getCodeSize addr => getCodeSize addr
  | .getCodeHash addr => getCodeHash addr
  | .copyCode addr codeOffset bufferSize => copyCode addr codeOffset bufferSize
  | .call msg => call msg
  | .getTxContext => getTxContext ctx
  | .getBlockHash number => getBlockHash number
  | .emitLog addr data topics => emitLog addr data topics
  | .accessAccount addr => accessAccount addr
  | .accessStorage addr key => accessStorage addr key

/-- `m_vm.execute(*this, …)`, given the method `call` of the host. -/
def execVm (ctx : HostContext) (vm : VM) (call : Message → HostS CallResult) (fuel : Nat) : Exec :=
  fun msg code => Interaction.run (answer ctx call) (vm fuel msg code)

/-- `call`. -/
def call (ctx : HostContext) (vm : VM) : Nat → Message → HostS CallResult
  | 0 => fun _ _ => .error .outOfFuel
  | fuel + 1 => callWith (execVm ctx vm (call ctx vm fuel) fuel)

end call

end Host

end Zvmone
