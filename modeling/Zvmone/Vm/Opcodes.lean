import Zvmone.Zvmc
import Mathlib.Data.Nat.Notation
import Mathlib.Tactic.Common

/-! # Opcodes, gas costs and instruction traits

The instruction set with its two static tables: `gasCosts` (the base gas cost) and `traits` (stack
requirements and immediate size). Only the revision `ZVMC_SHANGHAI` exists, so the tables carry no
revision index. The numbered families (`PUSH1..PUSH32`, `DUP1..DUP16`, `SWAP1..SWAP16`,
`LOG0..LOG4`) are constructors with an index. -/

namespace Zvmone

/-- `Opcode`: the defined opcodes. -/
inductive Opcode
  | stop | add | mul | sub | div | sdiv | mod | smod | addmod | mulmod | exp | signextend
  | lt | gt | slt | sgt | eq | iszero | and_ | or_ | xor_ | not_ | byte | shl | shr | sar
  | keccak256
  | address | balance | origin | caller | callvalue | calldataload | calldatasize | calldatacopy
  | codesize | codecopy | gasprice | extcodesize | extcodecopy | returndatasize | returndatacopy
  | extcodehash
  | blockhash | coinbase | timestamp | number | prevrandao | gaslimit | chainid | selfbalance
  | basefee
  | pop | mload | mstore | mstore8 | sload | sstore | jump | jumpi | pc | msize | gas | jumpdest
  | push0
  /-- `PUSH1..PUSH32`: `push k` has `k + 1` bytes of data. -/
  | push (k : Fin 32)
  /-- `DUP1..DUP16`: `dup k` copies the item at depth `k`. -/
  | dup (k : Fin 16)
  /-- `SWAP1..SWAP16`: `swap k` exchanges the top with the item at depth `k + 1`. -/
  | swap (k : Fin 16)
  /-- `LOG0..LOG4`. -/
  | log (k : Fin 5)
  | create | call | return_ | delegatecall | create2 | staticcall | revert | invalid
  deriving DecidableEq, Repr

namespace Opcode

/-- The opcode with a given byte value; `none` for the undefined opcodes. -/
def ofByte (b : UInt8) : Option Opcode :=
  let n := b.toNat
  if h : 0x60 ≤ n ∧ n < 0x80 then some (.push ⟨n - 0x60, by omega⟩)
  else if h : 0x80 ≤ n ∧ n < 0x90 then some (.dup ⟨n - 0x80, by omega⟩)
  else if h : 0x90 ≤ n ∧ n < 0xa0 then some (.swap ⟨n - 0x90, by omega⟩)
  else if h : 0xa0 ≤ n ∧ n < 0xa5 then some (.log ⟨n - 0xa0, by omega⟩)
  else match n with
  | 0x00 => some stop
  | 0x01 => some add
  | 0x02 => some mul
  | 0x03 => some sub
  | 0x04 => some div
  | 0x05 => some sdiv
  | 0x06 => some mod
  | 0x07 => some smod
  | 0x08 => some addmod
  | 0x09 => some mulmod
  | 0x0a => some exp
  | 0x0b => some signextend
  | 0x10 => some lt
  | 0x11 => some gt
  | 0x12 => some slt
  | 0x13 => some sgt
  | 0x14 => some eq
  | 0x15 => some iszero
  | 0x16 => some and_
  | 0x17 => some or_
  | 0x18 => some xor_
  | 0x19 => some not_
  | 0x1a => some byte
  | 0x1b => some shl
  | 0x1c => some shr
  | 0x1d => some sar
  | 0x20 => some keccak256
  | 0x30 => some address
  | 0x31 => some balance
  | 0x32 => some origin
  | 0x33 => some caller
  | 0x34 => some callvalue
  | 0x35 => some calldataload
  | 0x36 => some calldatasize
  | 0x37 => some calldatacopy
  | 0x38 => some codesize
  | 0x39 => some codecopy
  | 0x3a => some gasprice
  | 0x3b => some extcodesize
  | 0x3c => some extcodecopy
  | 0x3d => some returndatasize
  | 0x3e => some returndatacopy
  | 0x3f => some extcodehash
  | 0x40 => some blockhash
  | 0x41 => some coinbase
  | 0x42 => some timestamp
  | 0x43 => some number
  | 0x44 => some prevrandao
  | 0x45 => some gaslimit
  | 0x46 => some chainid
  | 0x47 => some selfbalance
  | 0x48 => some basefee
  | 0x50 => some pop
  | 0x51 => some mload
  | 0x52 => some mstore
  | 0x53 => some mstore8
  | 0x54 => some sload
  | 0x55 => some sstore
  | 0x56 => some jump
  | 0x57 => some jumpi
  | 0x58 => some pc
  | 0x59 => some msize
  | 0x5a => some gas
  | 0x5b => some jumpdest
  | 0x5f => some push0
  | 0xf0 => some create
  | 0xf1 => some call
  | 0xf3 => some return_
  | 0xf4 => some delegatecall
  | 0xf5 => some create2
  | 0xfa => some staticcall
  | 0xfd => some revert
  | 0xfe => some invalid
  | _ => none

end Opcode

namespace Instr

/-- `cold_sload_cost` (EIP-2929). -/
def coldSloadCost : Int := 2100

/-- `cold_account_access_cost` (EIP-2929). -/
def coldAccountAccessCost : Int := 2600

/-- `warm_storage_read_cost` (EIP-2929). -/
def warmStorageReadCost : Int := 100

/-- The part of the cold access cost that is not in the base cost of an account instruction. -/
def additionalColdAccountAccessCost : Int := coldAccountAccessCost - warmStorageReadCost

open Opcode in
/-- `gas_costs`: the base gas cost of an instruction. -/
def gasCosts : Opcode → Int
  | stop | return_ | revert | invalid | sstore => 0
  | jumpdest => 1
  | address | origin | caller | callvalue | calldatasize | codesize | gasprice | coinbase
  | timestamp | number | prevrandao | gaslimit | pop | pc | msize | gas | returndatasize | chainid
  | basefee | push0 => 2
  | add | sub | lt | gt | slt | sgt | eq | iszero | and_ | or_ | xor_ | not_ | byte | shl | shr | sar
  | calldataload | calldatacopy | codecopy | returndatacopy | mload | mstore | mstore8 => 3
  | push _ | dup _ | swap _ => 3
  | mul | div | sdiv | mod | smod | signextend | selfbalance => 5
  | addmod | mulmod | jump => 8
  | exp | jumpi => 10
  | blockhash => 20
  | keccak256 => 30
  | balance | extcodesize | extcodecopy | extcodehash | sload | call | delegatecall | staticcall =>
    warmStorageReadCost
  | log k => (k.val + 1) * 375
  | create | create2 => 32000

/-- `Traits`: the static properties of an instruction. -/
structure Traits where
  /-- Size of the immediate argument in bytes. -/
  immediateSize : Nat
  /-- Whether the instruction terminates execution. -/
  isTerminating : Bool
  /-- The number of stack items the instruction accesses. -/
  stackHeightRequired : Int
  /-- The stack height change caused by the instruction. -/
  stackHeightChange : Int
  deriving DecidableEq, Repr

open Opcode in
/-- `traits`: the table of instruction traits. -/
def traits : Opcode → Traits
  | stop | invalid => ⟨0, true, 0, 0⟩
  | return_ | revert => ⟨0, true, 2, -2⟩
  | add | mul | sub | div | sdiv | mod | smod | exp | signextend | lt | gt | slt | sgt | eq
  | and_ | or_ | xor_ | byte | shl | shr | sar | keccak256 => ⟨0, false, 2, -1⟩
  | addmod | mulmod => ⟨0, false, 3, -2⟩
  | iszero | not_ | balance | calldataload | extcodesize | extcodehash | blockhash | mload
  | sload => ⟨0, false, 1, 0⟩
  | address | origin | caller | callvalue | calldatasize | codesize | gasprice | returndatasize
  | coinbase | timestamp | number | prevrandao | gaslimit | chainid | selfbalance | basefee
  | pc | msize | gas | push0 => ⟨0, false, 0, 1⟩
  | calldatacopy | codecopy | returndatacopy => ⟨0, false, 3, -3⟩
  | extcodecopy => ⟨0, false, 4, -4⟩
  | pop | jump => ⟨0, false, 1, -1⟩
  | mstore | mstore8 | sstore | jumpi => ⟨0, false, 2, -2⟩
  | jumpdest => ⟨0, false, 0, 0⟩
  | push k => ⟨k + 1, false, 0, 1⟩
  | dup k => ⟨0, false, k + 1, 1⟩
  | swap k => ⟨0, false, k + 2, 0⟩
  | log k => ⟨0, false, k + 2, -(k + 2)⟩
  | create => ⟨0, false, 3, -2⟩
  | call => ⟨0, false, 7, -6⟩
  | delegatecall | staticcall => ⟨0, false, 6, -5⟩
  | create2 => ⟨0, false, 4, -3⟩

/-- The base costs are not negative. -/
theorem gasCosts_nonneg (op : Opcode) : 0 ≤ gasCosts op := by
  cases op with
  | log k =>
    simp only [gasCosts]
    omega
  | _ => exact Int.natCast_nonneg _

/-- `CREATE` costs most. -/
theorem gasCosts_le (op : Opcode) : gasCosts op ≤ 32000 := by
  cases op with
  | log k =>
    simp only [gasCosts]
    omega
  | push k | dup k | swap k => exact (by decide : (3 : Int) ≤ 32000)
  | _ => decide

end Instr

end Zvmone
