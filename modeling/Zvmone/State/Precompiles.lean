import Zvmone.Library.AssocList
import Zvmone.Vm.ExecutionState

/-! # Precompiled contracts

The dispatch of messages to precompiled contracts with its positional table of handlers, the gas
formulas, the executors and the cache of execution results. A function pointer of the table is the
name of the function it points to. -/

namespace Zvmone

/-- `PrecompileId`. -/
inductive PrecompileId
  | depositroot | sha256 | identity | expmod | ecadd | ecmul | ecpairing
  deriving DecidableEq, Repr

namespace PrecompileId

/-- The value of the enumerator. -/
def toNat : PrecompileId → Nat
  | depositroot => 0x01
  | sha256 => 0x02
  | identity => 0x04
  | expmod => 0x05
  | ecadd => 0x06
  | ecmul => 0x07
  | ecpairing => 0x08

/-- The precompile with the given address. -/
def ofAddress (addr : Address) : Option PrecompileId :=
  match addr.toNat with
  | 0x01 => some depositroot
  | 0x02 => some sha256
  | 0x04 => some identity
  | 0x05 => some expmod
  | 0x06 => some ecadd
  | 0x07 => some ecmul
  | 0x08 => some ecpairing
  | _ => none

end PrecompileId

namespace Precompiles

/-- `NumPrecompiles`: the total number of known precompiles ids, including 0. -/
def numPrecompiles : Nat := 10

/-- `GasCostMax`. -/
def gasCostMax : Int := 2 ^ 63 - 1

/-- `PrecompileAnalysis`. -/
structure PrecompileAnalysis where
  gasCost : Int
  maxOutputSize : Nat
  deriving DecidableEq, Repr

/-- `cost_per_input_word`. -/
def costPerInputWord (baseCost wordCost : Int) (inputSize : Nat) : Int :=
  baseCost + wordCost * numWords inputSize

/-- `depositroot_analyze`. -/
def depositrootAnalyze (_ : Bytes) : PrecompileAnalysis := ⟨19992, 32⟩

/-- `sha256_analyze`. -/
def sha256Analyze (input : Bytes) : PrecompileAnalysis := ⟨costPerInputWord 60 12 input.length, 32⟩

/-- `identity_analyze`: the output is as long as the input. -/
def identityAnalyze (input : Bytes) : PrecompileAnalysis :=
  ⟨costPerInputWord 15 3 input.length, input.length⟩

/-- `ecadd_analyze`. -/
def ecaddAnalyze (_ : Bytes) : PrecompileAnalysis := ⟨150, 64⟩

/-- `ecmul_analyze`. -/
def ecmulAnalyze (_ : Bytes) : PrecompileAnalysis := ⟨6000, 64⟩

/-- `ecpairing_analyze`: the price grows with the number of pairs. -/
def ecpairingAnalyze (input : Bytes) : PrecompileAnalysis :=
  let numElements : Int := (input.length / 192 : Nat)
  ⟨45000 + numElements * 34000, 32⟩

/-- The lambda `adjusted_len` of `expmod_analyze`; `size_t` arithmetic wraps. -/
def adjustedLen (input : Bytes) (offset len : Nat) : Nat :=
  let headLen := min len 32
  let headExplicitLen := max (min ((offset + headLen) % 2 ^ 64) input.length) offset - offset
  let headExplicitBytes := (input.drop offset).take headExplicitLen
  let topByteIndex := headExplicitBytes.findIdx (· ≠ 0)
  let expBitWidth :=
    match headExplicitBytes[topByteIndex]? with
    | some b => (headLen - topByteIndex - 1) * 8 + (Nat.log2 b.toNat + 1)
    | none => 0
  max ((8 * (max len 32 - 32) + (max expBitWidth 1 - 1)) % 2 ^ 64) 1

/-- The lambda `mult_complexity_eip2565` of `expmod_analyze`. -/
def multComplexityEip2565 (x : Word) : Word :=
  let w := (x + 7) >>> 3
  w * w

/-- `expmod_analyze`: the lengths are in the header of the input, which is extended with zeros. -/
def expmodAnalyze (input : Bytes) : PrecompileAnalysis :=
  let minGas : Int := 200
  let inputHeader := input.take 96 ++ List.replicate (96 - input.length) 0
  let baseLen := Word.load (inputHeader.take 32)
  let expLen := Word.load ((inputHeader.drop 32).take 32)
  let modLen := Word.load (inputHeader.drop 64)
  if baseLen = 0 ∧ modLen = 0 then ⟨minGas, 0⟩
  else
    let lenLimit := 2 ^ 64 - 1
    if baseLen.toNat > lenLimit ∨ expLen.toNat > lenLimit ∨ modLen.toNat > lenLimit then
      ⟨gasCostMax, 0⟩
    else
      let maxLen := if modLen < baseLen then baseLen else modLen
      let adjustedExpLen := adjustedLen input ((96 + baseLen.toSize) % 2 ^ 64) expLen.toSize
      let gas := multComplexityEip2565 maxLen * BitVec.ofNat 256 adjustedExpLen / 3
      ⟨max minGas (min (gas.toNat : Int) gasCostMax), modLen.toSize⟩

/-- `ExecutionResult`, with the bytes written to the output buffer. -/
structure ExecutionResult where
  statusCode : StatusCode
  output : Bytes
  deriving DecidableEq, Repr

/-- `identity_execute`; its second argument is the size of the output buffer. -/
def identityExecute (input : Bytes) (outputSize : Nat) : Except Fault ExecutionResult :=
  if outputSize = input.length then .ok ⟨.success, input⟩ else .error .assertion

/-- `dummy_execute`. -/
def dummyExecute (_ : Bytes) (_ : Nat) : Except Fault ExecutionResult := .ok ⟨.internalError, []⟩

/-- The functions an `analyze` pointer of the table can point to. -/
inductive AnalyzeFn
  | depositroot | sha256 | identity | ecadd | ecmul | ecpairing | expmod
  deriving DecidableEq, Repr

/-- Call an `analyze` function. -/
def AnalyzeFn.call : AnalyzeFn → Bytes → PrecompileAnalysis
  | .depositroot => depositrootAnalyze
  | .sha256 => sha256Analyze
  | .identity => identityAnalyze
  | .ecadd => ecaddAnalyze
  | .ecmul => ecmulAnalyze
  | .ecpairing => ecpairingAnalyze
  | .expmod => expmodAnalyze

/-- The functions an `execute` pointer of the table can point to. -/
inductive ExecuteFn
  | identity
  /-- `dummy_execute<Id>`. -/
  | dummy (id : PrecompileId)
  deriving DecidableEq, Repr

/-- Call an `execute` function. -/
def ExecuteFn.call : ExecuteFn → Bytes → Nat → Except Fault ExecutionResult
  | .identity => identityExecute
  | .dummy _ => dummyExecute

/-- `PrecompileTraits`: two function pointers, null by default. -/
structure PrecompileTraits where
  analyze : Option AnalyzeFn := none
  execute : Option ExecuteFn := none
  deriving DecidableEq, Repr

/-- `traits`: an array of `NumPrecompiles` entries, of which the first ones are listed. -/
def traits (id : Fin numPrecompiles) : PrecompileTraits :=
  let listed : List PrecompileTraits := [
    {},  -- undefined for 0
    ⟨some .depositroot, some (.dummy .depositroot)⟩,
    ⟨some .sha256, some (.dummy .sha256)⟩,
    ⟨some .identity, some .identity⟩,
    ⟨some .expmod, some (.dummy .expmod)⟩,
    ⟨some .ecadd, some (.dummy .ecadd)⟩,
    ⟨some .ecmul, some (.dummy .ecmul)⟩,
    ⟨some .ecpairing, some (.dummy .ecpairing)⟩]
  listed.getD id {}

/-! ### The cache of execution results -/

/-- `Cache`: by the precompile and the hash of the input, the output of a successful execution or
`none` for a failed one. -/
abbrev Cache := Fin numPrecompiles → AList fun _ : Bytes32 => Option Bytes

namespace Cache

variable [Ethash]

/-- `Cache::find`. -/
def find (cache : Cache) (id : Fin numPrecompiles) (input : Bytes) (gasLeft : Int) :
    Option CallResult :=
  match (cache id).lookup (Ethash.keccak256 input) with
  | some none => some { statusCode := .precompileFailure }
  | some (some o) => some { statusCode := .success, gasLeft, outputData := o }
  | none => none

/-- `Cache::insert`: an existing entry is kept, and "identity" is not cached. -/
def insert (cache : Cache) (id : Fin numPrecompiles) (input : Bytes) (result : CallResult) :
    Cache :=
  if id.val = PrecompileId.identity.toNat then cache
  else
    let inputHash := Ethash.keccak256 input
    let cachedOutput := if result.statusCode = .success then some result.outputData else none
    if inputHash ∈ cache id then cache
    else fun i => if i = id then (cache i).insert inputHash cachedOutput else cache i

end Cache

/-! ### The dispatch -/

/-- What a call to `call_precompile` does: how it ends, the cache it leaves, and the functions of
the table it calls. -/
structure Call where
  result : Except Fault (Option CallResult) := .ok none
  cache : Cache
  analyzed : Option AnalyzeFn := none
  executed : Option ExecuteFn := none

/-- The size of `output_buf`. -/
def outputBufSize : Nat := 256

/-- `call_precompile` from the execution on. -/
def executeWith [Ethash] (execute : ExecuteFn) (id : Fin numPrecompiles) (cache : Cache)
    (input : Bytes) (maxOutputSize : Nat) (gasLeft : Int) : Except Fault CallResult × Cache :=
  match execute.call input maxOutputSize with
  | .error e => (.error e, cache)
  | .ok ⟨statusCode, output⟩ =>
    let result : CallResult :=
      { statusCode, gasLeft := if statusCode = .success then gasLeft else 0, outputData := output }
    (.ok result, cache.insert id input result)

/-- `call_precompile` once the entry of the table is read. -/
def callWith [Ethash] (traits : PrecompileTraits) (id : Fin numPrecompiles) (cache : Cache)
    (msg : Message) : Call :=
  match traits.analyze with
  | none => { result := .error .nullPointer, cache }
  | some analyze =>
    let analyzed := some analyze
    let ⟨gasCost, maxOutputSize⟩ := analyze.call msg.inputData
    let gasLeft := msg.gas - gasCost
    if gasLeft < 0 then { result := .ok (some { statusCode := .outOfGas }), cache, analyzed }
    else
      match cache.find id msg.inputData gasLeft with
      | some r => { result := .ok (some r), cache, analyzed }
      | none =>
        if outputBufSize < maxOutputSize then { result := .error .assertion, cache, analyzed }
        else
          match traits.execute with
          | none => { result := .error .nullPointer, cache, analyzed }
          | some execute =>
            let (result, cache) := executeWith execute id cache msg.inputData maxOutputSize gasLeft
            { result := result.map some, cache, analyzed, executed := some execute }

/-- `call_precompile`. -/
def callPrecompile [Ethash] (cache : Cache) (msg : Message) : Call :=
  if h : msg.codeAddress = 0 ∨ msg.codeAddress.toNat ≥ numPrecompiles then { cache }
  else if msg.gas < 0 then { result := .error .assertion, cache }
  else
    let id : Fin numPrecompiles := ⟨msg.codeAddress.toNat, by omega⟩
    callWith (traits id) id cache msg

end Precompiles

end Zvmone
