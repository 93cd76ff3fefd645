import Zvmone.State.Mpt
import Zvmone.State.Transition

/-! # Roots of the state and of lists

`mpt_hash` of the storage of an account, of the accounts, and of lists of transactions and
receipts, with the RLP encodings these need. -/

namespace Zvmone

namespace Rlp

/-- `rlp_encode(const Log&)`. -/
def encodeLog (log : Log) : Option Bytes :=
  encodeTuple [encode (Address.bytes log.addr),
    encodeContainer (fun topic => encode (Bytes32.bytes topic)) log.topics, encode log.data]

/-- The encoding of an access list. -/
def encodeAccessList (accessList : AccessList) : Option Bytes :=
  encodeContainer (fun item => encodeTuple [encode (Address.bytes item.1),
    encodeContainer (fun key => encode (Bytes32.bytes key)) item.2]) accessList

/-- `rlp_encode(const Transaction&)`. -/
def encodeTransaction (tx : Transaction) : Option Bytes :=
  (encodeTuple [encodeUInt64 tx.chainId, encodeUInt64 tx.nonce, encodeWord tx.maxPriorityGasPrice,
    encodeWord tx.maxGasPrice, encodeUInt64 (BitVec.ofInt 64 tx.gasLimit),
    encode (match tx.to_ with
      | some to_ => Address.bytes to_
      | none => []), encodeWord tx.value,
    encode tx.data, encodeAccessList tx.accessList, encode tx.publicKey,
    encode tx.signature]).map ([0x02] ++ ·)

/-- `rlp_encode(const TransactionReceipt&)`. -/
def encodeReceipt (receipt : TransactionReceipt) : Option Bytes :=
  let pre : Bytes := match receipt.kind with
    | .eip1559 => [0x02]
  (encodeTuple [encodeUInt64 (if receipt.status = .success then 1 else 0),
    encodeUInt64 (BitVec.ofInt 64 receipt.gasUsed),
    encode receipt.logsBloomFilter.bytes.toList,
    encodeContainer encodeLog receipt.logs]).map (pre ++ ·)

end Rlp

section mptHash

variable [Ethash]

/-- Insert the encoded entries into an empty trie and take the root hash. -/
def mptHashOf (pairs : List (Option (Bytes × Bytes))) : Option Bytes32 := do
  let pairs ← pairs.mapM id
  (← MPT.insertAll {} pairs).hash

/-- The trie entry of a storage slot. -/
def storageEntry (key : Bytes32) (value : StorageValue) : Option (Bytes × Bytes) := do
  return (Bytes32.bytes (Ethash.keccak256 (Bytes32.bytes key)),
    ← Rlp.encode (Rlp.trim (Bytes32.bytes value.current)))

/-- `mpt_hash` of a storage: "deleted" values are skipped. -/
def mptHashStorage (storage : Storage) : Option Bytes32 :=
  mptHashOf ((storage.entries.filter fun e => e.2.current ≠ 0).map fun e => storageEntry e.1 e.2)

/-- The trie entry of an account. -/
def accountEntry (addr : Address) (acc : Account) : Option (Bytes × Bytes) := do
  let storageRoot ← mptHashStorage acc.storage
  return (Bytes32.bytes (Ethash.keccak256 (Address.bytes addr)),
    ← Rlp.encodeTuple [Rlp.encodeUInt64 acc.nonce, Rlp.encodeWord acc.balance,
      Rlp.encode (Bytes32.bytes storageRoot),
      Rlp.encode (Bytes32.bytes (Ethash.keccak256 acc.code))])

/-- `mpt_hash` of the accounts. -/
def mptHash (accounts : AList fun _ : Address => Account) : Option Bytes32 :=
  mptHashOf (accounts.entries.map fun e => accountEntry e.1 e.2)

/-- `mpt_hash` of a list: the keys are the encoded indexes. -/
def mptHashList {α : Type} (encode : α → Option Bytes) (xs : List α) : Option Bytes32 :=
  mptHashOf (xs.zipIdx.map fun x => do
    return (← Rlp.encodeUInt64 (BitVec.ofNat 64 x.2), ← encode x.1))

/-- `mpt_hash` of the transactions. -/
def mptHashTransactions : List Transaction → Option Bytes32 := mptHashList Rlp.encodeTransaction

/-- `mpt_hash` of the receipts. -/
def mptHashReceipts : List TransactionReceipt → Option Bytes32 := mptHashList Rlp.encodeReceipt

end mptHash

end Zvmone
