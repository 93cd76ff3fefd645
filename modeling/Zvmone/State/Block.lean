import Zvmone.State.Account

/-! # Blocks, transactions, logs and receipts

The data of `state.hpp` besides the account map. -/

namespace Zvmone

/-- `Withdrawal`. -/
structure Withdrawal where
  recipient : Address
  amountInGplanck : BitVec 64 := 0

/-- `get_amount`: the withdrawal amount in planck. -/
def Withdrawal.getAmount (w : Withdrawal) : Word := w.amountInGplanck.setWidth 256 * 1000000000

/-- `BlockInfo`. -/
structure BlockInfo where
  number : Int := 0
  timestamp : Int := 0
  gasLimit : Int := 0
  coinbase : Address
  prevRandao : Bytes32 := 0
  baseFee : BitVec 64 := 0
  withdrawals : List Withdrawal := []

/-- `base_fee` as a 256-bit number. -/
def BlockInfo.baseFeeWord (block : BlockInfo) : Word := block.baseFee.setWidth 256

/-- `AccessList`. -/
abbrev AccessList := List (Address × List Bytes32)

/-- `Transaction::Kind`. -/
inductive TransactionKind
  | eip1559
  deriving DecidableEq, Repr

/-- `Transaction`. -/
structure Transaction where
  kind : TransactionKind := .eip1559
  data : Bytes := []
  gasLimit : Int
  maxGasPrice : Word
  maxPriorityGasPrice : Word
  sender : Address
  to_ : Option Address
  value : Word
  accessList : AccessList := []
  chainId : BitVec 64 := 0
  nonce : BitVec 64 := 0
  publicKey : Bytes := []
  signature : Bytes := []

/-- `priority_gas_price`: the part of the gas price that goes to the coinbase. -/
def Transaction.priorityGasPrice (tx : Transaction) (block : BlockInfo) : Word :=
  let tip := tx.maxGasPrice - block.baseFeeWord
  if tip < tx.maxPriorityGasPrice then tip else tx.maxPriorityGasPrice

/-- `effective_gas_price`. -/
def Transaction.effectiveGasPrice (tx : Transaction) (block : BlockInfo) : Word :=
  block.baseFeeWord + tx.priorityGasPrice block

/-- `Log`. -/
structure Log where
  addr : Address
  data : Bytes
  topics : List Bytes32
  deriving DecidableEq, Repr

/-- `BloomFilter`: the 256 bytes of the filter. -/
structure BloomFilter where
  bytes : Vector UInt8 256 := .replicate 256 0
  deriving DecidableEq

namespace BloomFilter

/-- `hash.bytes[i]`. -/
def hashByte (hash : Bytes32) (i : Nat) : Nat := (Bytes32.bytes hash).getD i 0 |>.toNat

/-- The bit that the 16-bit value at byte `i` of the hash selects. -/
def bitToSet (hash : Bytes32) (i : Nat) : Nat :=
  (hashByte hash i &&& 0x07) <<< 8 ||| hashByte hash (i + 1)

/-- The body of the loop of `add_to`. -/
def setBit (bf : BloomFilter) (bitToSet : Nat) : BloomFilter :=
  let bitIndex := 0x07FF - bitToSet
  let byteIndex := bitIndex / 8
  let bitPos := UInt8.ofNat (1 <<< (7 - bitIndex % 8))
  ⟨bf.bytes.setIfInBounds byteIndex (bf.bytes.getD byteIndex 0 ||| bitPos)⟩

/-- `add_to`: add an entry to the bloom filter. -/
def addTo [Ethash] (bf : BloomFilter) (entry : Bytes) : BloomFilter :=
  let hash := Ethash.keccak256 entry
  [0, 2, 4].foldl (fun bf i => bf.setBit (bitToSet hash i)) bf

/-- `compute_bloom_filter` of the logs of one transaction. -/
def ofLogs [Ethash] (logs : List Log) : BloomFilter :=
  logs.foldl (fun bf log =>
    log.topics.foldl (fun bf topic => bf.addTo (Bytes32.bytes topic))
      (bf.addTo (Address.bytes log.addr))) {}

/-- The byte-wise or of two filters. -/
def or (bf bf' : BloomFilter) : BloomFilter := ⟨Vector.zipWith (· ||| ·) bf.bytes bf'.bytes⟩

end BloomFilter

/-- `TransactionReceipt`. -/
structure TransactionReceipt where
  kind : TransactionKind := .eip1559
  status : StatusCode := .internalError
  gasUsed : Int := 0
  logs : List Log
  logsBloomFilter : BloomFilter := {}
  deriving DecidableEq

/-- `compute_bloom_filter` of a block. -/
def BloomFilter.ofReceipts (receipts : List TransactionReceipt) : BloomFilter :=
  receipts.foldl (fun bf r => bf.or r.logsBloomFilter) {}

/-- `ErrorCode`. -/
inductive ErrorCode
  | intrinsicGasTooLow | insufficientFunds | nonceHasMaxValue | tipGtFeeCap
  | feeCapLessThenBlocks | gasLimitReached | senderNotEoa | initCodeSizeLimitExceeded
  deriving DecidableEq, Repr

end Zvmone
