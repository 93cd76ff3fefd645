import Zvmone.State.Host

/-! # Transactions

Validation, the state transition of one transaction, and the finalization of a block. The phases of
`transition` are definitions of their own: `buyGas`, `warmUp`, the call, and `settle`. -/

namespace Zvmone

open Host

/-! ### Validation -/

/-- `compute_tx_data_cost`. -/
def computeTxDataCost (data : Bytes) : Int :=
  let zeroByteCost := 4
  let nonzeroByteCost := 16
  data.foldl (fun cost b => cost + if b = 0 then zeroByteCost else nonzeroByteCost) 0

/-- `compute_access_list_cost`. -/
def computeAccessListCost (accessList : AccessList) : Int :=
  let storageKeyCost := 1900
  let addressCost := 2400
  accessList.foldl (fun cost a => cost + (addressCost + a.2.length * storageKeyCost)) 0

/-- `compute_tx_intrinsic_cost`. -/
def computeTxIntrinsicCost (tx : Transaction) : Int :=
  let callTxCost := 21000
  let createTxCost := 53000
  let initcodeWordCost := 2
  let initcodeCost := if tx.to_.isNone then initcodeWordCost * numWords tx.data.length else 0
  let txCost := if tx.to_.isNone then createTxCost else callTxCost
  txCost + computeTxDataCost tx.data + computeAccessListCost tx.accessList + initcodeCost

/-- `validate_transaction`: the execution gas limit of a valid transaction. -/
def validateTransaction (senderAcc : Account) (block : BlockInfo) (tx : Transaction) :
    Except ErrorCode Int :=
  if tx.maxPriorityGasPrice > tx.maxGasPrice then .error .tipGtFeeCap
  else if tx.gasLimit > block.gasLimit then .error .gasLimitReached
  else if tx.maxGasPrice < block.baseFeeWord then .error .feeCapLessThenBlocks
  else if senderAcc.code ≠ [] then .error .senderNotEoa
  else if senderAcc.nonce = Account.nonceMax then .error .nonceHasMaxValue
  else if tx.to_.isNone ∧ tx.data.length > maxInitcodeSize then .error .initCodeSizeLimitExceeded
  else
    -- With 512-bit precision the cost limit cannot overflow.
    let txCostLimit512 := (Word.ofInt64 tx.gasLimit).toNat * tx.maxGasPrice.toNat + tx.value.toNat
    if senderAcc.balance.toNat < txCostLimit512 then .error .insufficientFunds
    else
      let intrinsicCost := computeTxIntrinsicCost tx
      if intrinsicCost > tx.gasLimit then .error .intrinsicGasTooLow
      else .ok (tx.gasLimit - intrinsicCost)

/-- `build_message`. -/
def buildMessage (tx : Transaction) (executionGasLimit : Int) : Message :=
  let recipient := tx.to_.getD 0
  { kind := if tx.to_.isSome then .call else .create
    flags := 0
    depth := 0
    gas := executionGasLimit
    recipient
    sender := tx.sender
    inputData := tx.data
    value := tx.value
    codeAddress := recipient }

/-! ### The phases of a transition -/

/-- `tx_max_cost`. -/
def Transaction.maxCost (tx : Transaction) (block : BlockInfo) : Word :=
  Word.ofInt64 tx.gasLimit * tx.effectiveGasPrice block

/-- Buy the gas of the whole gas limit. -/
def buyGas (block : BlockInfo) (tx : Transaction) : HostS Unit := do
  assert (tx.maxGasPrice ≥ block.baseFeeWord)
  assert (tx.maxGasPrice ≥ tx.maxPriorityGasPrice)
  assert (tx.effectiveGasPrice block ≤ tx.maxGasPrice)
  let senderAcc ← getAccount tx.sender
  setAccount tx.sender { senderAcc with balance := senderAcc.balance - tx.maxCost block }

/-- `storage[key].access_status = ZVMC_ACCESS_WARM` for the given keys. -/
def warmSlots (storage : Storage) (keys : List Bytes32) : Storage :=
  keys.foldl (fun storage key =>
    storage.insert key { storage.slot key with accessStatus := .warm }) storage

/-- One item of the access list. -/
def accessListItem (item : Address × List Bytes32) : HostS Unit := do
  let _ ← accessAccount item.1
  let acc ← getAccount item.1
  setAccount item.1 { acc with storage := warmSlots acc.storage item.2 }

/-- Mark everything as accessed that the transaction declares: the sender, the recipient, the
access list and the coinbase. -/
def warmUp (block : BlockInfo) (tx : Transaction) : HostS Unit := do
  let senderAcc ← getAccount tx.sender
  setAccount tx.sender { senderAcc with accessStatus := .warm }
  match tx.to_ with
  | some to_ => let _ ← accessAccount to_
  | none => pure ()
  tx.accessList.forM accessListItem
  let _ ← accessAccount block.coinbase

/-- The `int64_t` that an exact result becomes, in two's complement. -/
def wrapInt64 (x : Int) : Int := x.bmod (2 ^ 64)

/-- The gas used by a transaction after the call, without the part of it that is refunded. All of it
is computed as `int64_t`, which a refund below 0 can make overflow. -/
def gasUsedAfter (tx : Transaction) (result : CallResult) : Int :=
  let gasUsed := wrapInt64 (tx.gasLimit - result.gasLeft)
  let maxRefundQuotient := 5
  let refundLimit := gasUsed.tdiv maxRefundQuotient
  let refund := min result.gasRefund refundLimit
  wrapInt64 (gasUsed - refund)

/-- `std::erase_if` on the account map. -/
def State.eraseIf (s : State) (p : Account → Bool) : State := ⟨s.accounts.filter fun _ acc => ¬ p acc⟩

/-- Pay back the unused gas, pay the coinbase, and apply destructs. -/
def settle (block : BlockInfo) (tx : Transaction) (gasUsed : Int) : HostS Unit := do
  assert (gasUsed > 0)
  let senderAcc ← getAccount tx.sender
  let unused := tx.maxCost block - Word.ofInt64 gasUsed * tx.effectiveGasPrice block
  setAccount tx.sender { senderAcc with balance := senderAcc.balance + unused }
  let coinbaseAcc ← touch block.coinbase
  let reward := Word.ofInt64 gasUsed * tx.priorityGasPrice block
  setAccount block.coinbase { coinbaseAcc with balance := coinbaseAcc.balance + reward }
  modify fun hs => { hs with state := hs.state.eraseIf (·.destructed) }

section transition

variable [Ethash]

/-- `transition` for a valid transaction with the given execution gas limit. -/
def execute (vm : VM) (fuel : Nat) (block : BlockInfo) (tx : Transaction)
    (executionGasLimit : Int) : HostS TransactionReceipt := do
  buyGas block tx
  modify fun hs => { hs with logs := [] }
  warmUp block tx
  let result ← Host.call ⟨block, tx⟩ vm fuel (buildMessage tx executionGasLimit)
  let gasUsed := gasUsedAfter tx result
  settle block tx gasUsed
  let logs := (← get).logs
  return { kind := tx.kind, status := result.statusCode, gasUsed, logs,
           logsBloomFilter := .ofLogs logs }

/-- `transition`. The logs of the host state belong to the host object, which is new in every
transition; the cache of precompile results is static and stays. -/
def transition (vm : VM) (fuel : Nat) (block : BlockInfo) (tx : Transaction) :
    HostS (Except ErrorCode TransactionReceipt) := do
  let senderAcc ← getAccount tx.sender
  match validateTransaction senderAcc block tx with
  | .error e => return .error e
  | .ok executionGasLimit => return .ok (← execute vm fuel block tx executionGasLimit)

end transition

/-! ### The end of a block -/

/-- The body of the loop of `finalize` over the withdrawals. -/
def applyWithdrawal (state : State) (withdrawal : Withdrawal) : State :=
  let (acc, state) := state.touch withdrawal.recipient
  state.set withdrawal.recipient { acc with balance := acc.balance + withdrawal.getAmount }

/-- `finalize`: delete empty touched accounts and apply the withdrawals. -/
def finalize (state : State) (withdrawals : List Withdrawal) : State :=
  withdrawals.foldl applyWithdrawal (state.eraseIf fun acc => acc.erasable ∧ acc.IsEmpty)

end Zvmone
