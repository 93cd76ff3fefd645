import Zvmone.Library.BigEndian
import Zvmone.Library.Interaction

/-! # The interface between the virtual machine and its host

The types of the ZVMC interface as far as the repository uses them: messages, call results, the
host methods an interpreter may call (`HostCall`), and the hash function of the ethash library,
which stays a parameter (`Ethash`). An interpreter is a program over the host methods (`HostM`). -/

namespace Zvmone

/-- Byte strings: `bytes` and `bytes_view`. -/
abbrev Bytes := List UInt8

/-- 256-bit words: `intx::uint256` and `zvmc::uint256be`. -/
abbrev Word := BitVec 256

/-- `zvmc::bytes32` and `hash256`, read as big-endian numbers. -/
abbrev Bytes32 := BitVec 256

/-- `zvmc::address`, read as a big-endian number. -/
abbrev Address := BitVec 160

/-- The 32 bytes of a `bytes32` or of a stored `uint256`. -/
def Bytes32.bytes (x : Bytes32) : Bytes := BigEndian.store 32 x.toNat

/-- The 20 bytes of an address. -/
def Address.bytes (a : Address) : Bytes := BigEndian.store 20 a.toNat

/-- `intx::be::load<uint256>`. -/
def Word.load (bs : Bytes) : Word := BitVec.ofNat 256 (BigEndian.load bs)

/-- Conversion of a 64-bit signed integer to `uint256`: the 64-bit pattern, zero-extended. -/
def Word.ofInt64 (x : Int) : Word := BitVec.ofNat 256 (x % 2 ^ 64).toNat

/-- `intx::be::trunc<zvmc::address>`. -/
def Word.toAddress (x : Word) : Address := x.setWidth 160

/-- `intx::be::load<uint256>` of an address. -/
def Address.toWord (a : Address) : Word := a.setWidth 256

/-- `static_cast<size_t>` of a word: its lowest 64 bits. -/
def Word.toSize (x : Word) : Nat := x.toNat % 2 ^ 64

/-- The hash function of the ethash library. -/
class Ethash where
  /-- `keccak256`. -/
  keccak256 : Bytes → Bytes32

/-- `zvmc_status_code`, as far as the repository produces it. -/
inductive StatusCode
  | success | failure | revert | outOfGas | invalidInstruction | undefinedInstruction
  | stackOverflow | stackUnderflow | badJumpDestination | invalidMemoryAccess
  | staticModeViolation | precompileFailure | contractValidationFailure | internalError
  deriving DecidableEq, Repr

/-- The execution failed: it neither succeeded nor reverted. -/
def StatusCode.IsFailure (s : StatusCode) : Prop := s ≠ .success ∧ s ≠ .revert

instance (s : StatusCode) : Decidable s.IsFailure := inferInstanceAs (Decidable (_ ∧ _))

/-- `zvmc_call_kind`. -/
inductive CallKind
  | call | delegatecall | create | create2
  deriving DecidableEq, Repr

/-- The kind of message creates a contract. -/
def CallKind.IsCreate (k : CallKind) : Prop := k = .create ∨ k = .create2

instance (k : CallKind) : Decidable k.IsCreate := inferInstanceAs (Decidable (_ ∨ _))

/-- `ZVMC_STATIC`: the flag of a call that may not modify the state. -/
def staticFlag : BitVec 32 := 1

/-- `zvmc_message`, with the value-initialised defaults. -/
structure Message where
  kind : CallKind := .call
  flags : BitVec 32 := 0
  depth : Int := 0
  gas : Int := 0
  recipient : Address := 0
  sender : Address := 0
  inputData : Bytes := []
  value : Word := 0
  create2Salt : Bytes32 := 0
  codeAddress : Address := 0
  deriving DecidableEq, Repr

/-- The message carries `ZVMC_STATIC`. -/
def Message.IsStatic (m : Message) : Prop := m.flags &&& staticFlag ≠ 0

instance (m : Message) : Decidable m.IsStatic := inferInstanceAs (Decidable (_ ≠ _))

/-- `zvmc_result` and `zvmc::Result`. -/
structure CallResult where
  statusCode : StatusCode
  gasLeft : Int := 0
  gasRefund : Int := 0
  outputData : Bytes := []
  createAddress : Address := 0
  deriving DecidableEq, Repr

/-- `zvmc_tx_context`, with the value-initialised defaults. -/
structure TxContext where
  txGasPrice : Word := 0
  txOrigin : Address := 0
  blockCoinbase : Address := 0
  blockNumber : Int := 0
  blockTimestamp : Int := 0
  blockGasLimit : Int := 0
  blockPrevRandao : Bytes32 := 0
  chainId : Word := 0
  blockBaseFee : Word := 0
  deriving DecidableEq, Repr

/-- `zvmc_access_status`. -/
inductive AccessStatus
  | cold | warm
  deriving DecidableEq, Repr

/-- `zvmc_storage_status`. -/
inductive StorageStatus
  | assigned | added | deleted | modified | deletedAdded | modifiedDeleted | deletedRestored
  | addedDeleted | modifiedRestored
  deriving DecidableEq, Repr

/-- The methods of `zvmc::Host`, with their arguments. -/
inductive HostCall
  | accountExists (addr : Address)
  | getStorage (addr : Address) (key : Bytes32)
  | setStorage (addr : Address) (key value : Bytes32)
  | getBalance (addr : Address)
  | getCodeSize (addr : Address)
  | getCodeHash (addr : Address)
  | copyCode (addr : Address) (codeOffset bufferSize : Nat)
  | call (msg : Message)
  | getTxContext
  | getBlockHash (blockNumber : Int)
  | emitLog (addr : Address) (data : Bytes) (topics : List Bytes32)
  | accessAccount (addr : Address)
  | accessStorage (addr : Address) (key : Bytes32)
  deriving DecidableEq, Repr

/-- What a host method returns. `copyCode` returns the bytes written to the caller's buffer. -/
@[reducible] def HostCall.Answer : HostCall → Type
  | .accountExists _ => Bool
  | .getStorage _ _ => Bytes32
  | .setStorage _ _ _ => StorageStatus
  | .getBalance _ => Word
  | .getCodeSize _ => Nat
  | .getCodeHash _ => Bytes32
  | .copyCode _ _ _ => Bytes
  | .call _ => CallResult
  | .getTxContext => TxContext
  | .getBlockHash _ => Bytes32
  | .emitLog _ _ _ => Unit
  | .accessAccount _ => AccessStatus
  | .accessStorage _ _ => AccessStatus

/-- What stops the program itself: the model's fuel ran out, an `assert` failed, or memory was
accessed through a null pointer or out of bounds. -/
inductive Fault
  | outOfFuel | assertion | nullPointer | outOfBounds
  /-- A call of the host that the model answers elsewhere. -/
  | forbidden
  deriving DecidableEq, Repr

/-- Programs that call the host. -/
abbrev HostM := Interaction HostCall.Answer Fault

/-- A virtual machine: what `zvmc::VM::execute` runs for a message and a code. The first argument
bounds the number of instructions. -/
abbrev VM := Nat → Message → Bytes → HostM CallResult

end Zvmone
