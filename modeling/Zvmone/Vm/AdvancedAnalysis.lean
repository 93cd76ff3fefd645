import Zvmone.Vm.InstructionsCalls

/-! # The code analysis of the Advanced interpreter

`analyze` translates the code to a vector of instructions. Every basic block starts with an
instruction carrying a `BlockInfo`: the total base gas cost, the stack height required and the
maximum stack growth of the block, so that the interpreter checks them once per block. -/

namespace Zvmone

namespace Advanced

open Instr Zvmone.Core

/-- `BlockInfo`: compressed information about a basic block. -/
structure BlockInfo where
  gasCost : Int := 0
  stackReq : Int := 0
  stackMaxGrowth : Int := 0
  deriving DecidableEq, Repr

/-- `clamp<To>(x)` for a type with the given maximum. -/
def clamp (max x : Int) : Int := if x ≤ max then x else max

/-- `BlockAnalysis`: the running totals of the current block. -/
structure BlockAnalysis where
  gasCost : Int := 0
  stackReq : Int := 0
  stackMaxGrowth : Int := 0
  stackChange : Int := 0
  /-- The index of the instruction that starts the block. -/
  beginBlockIndex : Nat

/-- `BlockAnalysis::close`: the totals clamped to `uint32_t` and `int16_t`. -/
def BlockAnalysis.close (b : BlockAnalysis) : BlockInfo :=
  ⟨clamp (2 ^ 32 - 1) b.gasCost, clamp (2 ^ 15 - 1) b.stackReq,
    clamp (2 ^ 15 - 1) b.stackMaxGrowth⟩

/-- `instruction_exec_fn`: the functions an instruction can point to. -/
inductive ExecFn
  /-- `op<instr::impl<Op>>`: a wrapped core implementation. -/
  | op (op : Opcode)
  | opSstore
  | opxBeginblock
  | opJump
  | opJumpi
  | opPc
  | opGas
  | opPushSmall
  | opPushFull
  | opCall (op : CallOp)
  | opCreate (op : CreateOp)
  | opUndefined
  deriving DecidableEq, Repr

/-- `InstructionArgument`. A pointer to a push value is its index. -/
inductive InstructionArgument
  | number (n : Int)
  | pushValue (index : Nat)
  | smallPushValue (v : BitVec 64)
  | block (b : BlockInfo)
  deriving DecidableEq, Repr

namespace InstructionArgument

/-- `arg.number`. -/
def asNumber : InstructionArgument → Int
  | .number n => n
  | _ => 0

/-- `arg.block`. -/
def asBlock : InstructionArgument → BlockInfo
  | .block b => b
  | _ => {}

/-- `arg.small_push_value`. -/
def asSmallPushValue : InstructionArgument → BitVec 64
  | .smallPushValue v => v
  | _ => 0

/-- `arg.push_value`. -/
def asPushValue : InstructionArgument → Nat
  | .pushValue i => i
  | _ => 0

end InstructionArgument

/-- `Instruction`. -/
structure Instruction where
  fn : ExecFn
  arg : InstructionArgument := .block {}
  deriving DecidableEq, Repr

/-- `instruction_implementations`: wrapped core implementations, overwritten by the implementations
specific to the Advanced interpreter. -/
def instructionImplementations : Opcode → ExecFn
  | .sstore => .opSstore
  | .jump => .opJump
  | .jumpi => .opJumpi
  | .pc => .opPc
  | .gas => .opGas
  | .jumpdest => .opxBeginblock
  | .push k => if k.val + 1 ≤ 8 then .opPushSmall else .opPushFull
  | .create => .opCreate .create
  | .call => .opCall .call
  | .delegatecall => .opCall .delegatecall
  | .create2 => .opCreate .create2
  | .staticcall => .opCall .staticcall
  | op => .op op

/-- `OpTableEntry`. -/
structure OpTableEntry where
  fn : ExecFn
  gasCost : Int := 0
  stackReq : Int := 0
  stackChange : Int := 0

/-- `get_op_table`. -/
def opTable (opcode : UInt8) : OpTableEntry :=
  match Opcode.ofByte opcode with
  | none => { fn := .opUndefined }
  | some op =>
    { fn := instructionImplementations op
      gasCost := gasCosts op
      stackReq := (traits op).stackHeightRequired
      stackChange := (traits op).stackHeightChange }

/-- `AdvancedCodeAnalysis`. The source keeps the offsets and the targets of the `JUMPDEST`s in
`int32_t`, which has room for those of every code of less than 2^31 bytes (`jumpdests_fit`): what is
said of every code is said of these. -/
structure AdvancedCodeAnalysis where
  instrs : List Instruction := []
  pushValues : List Word := []
  jumpdestOffsets : List Nat := []
  jumpdestTargets : List Nat := []

/-- `find_jumpdest`: the index of the instruction for the JUMPDEST at the offset. -/
def findJumpdest (analysis : AdvancedCodeAnalysis) (offset : Nat) : Option Nat :=
  -- `std::lower_bound`: the first element that is not less than the offset.
  let it := analysis.jumpdestOffsets.findIdx fun o => ¬ o < offset
  if analysis.jumpdestOffsets[it]? = some offset then analysis.jumpdestTargets[it]? else none

/-- Add an instruction to the totals of the block. -/
def BlockAnalysis.add (block : BlockAnalysis) (info : OpTableEntry) : BlockAnalysis :=
  let stackReq := max block.stackReq (info.stackReq - block.stackChange)
  let stackChange := block.stackChange + info.stackChange
  { block with
    stackReq
    stackChange
    stackMaxGrowth := max block.stackMaxGrowth stackChange
    gasCost := block.gasCost + info.gasCost }

/-- The number of data bytes of a PUSH opcode. -/
def pushSize (opcode : UInt8) : Nat := opcode.toNat - 0x60 + 1

/-- `OP_PUSH1 <= opcode && opcode <= OP_PUSH32`. -/
def IsPush (opcode : UInt8) : Prop := 0x60 ≤ opcode.toNat ∧ opcode.toNat ≤ 0x7f

instance (opcode : UInt8) : Decidable (IsPush opcode) := inferInstanceAs (Decidable (_ ∧ _))

/-- Skip dead block instructions till the next JUMPDEST or the code end; the first argument bounds
the number of iterations. -/
def skipDeadCode (code : Bytes) : Nat → Nat → Nat
  | 0, pos => pos
  | n + 1, pos =>
    match code[pos]? with
    | none => pos
    | some b =>
      if b = 0x5b then pos
      else if IsPush b then skipDeadCode code n (min (pos + pushSize b + 1) code.length)
      else skipDeadCode code n (pos + 1)

/-- The loop of `ANY_SMALL_PUSH`. -/
def smallPushLoop : Bytes → BitVec 64 → Nat → BitVec 64
  | [], value, _ => value
  | b :: bs, value, insertBitPos =>
    smallPushLoop bs (value ||| (b.toBitVec.setWidth 64 <<< insertBitPos)) (insertBitPos - 8)

/-- The loop of `ANY_LARGE_PUSH`, on the little-endian bytes of the push value. -/
def largePushLoop : Bytes → Bytes → Nat → Bytes
  | [], pushValueBytes, _ => pushValueBytes
  | b :: bs, pushValueBytes, insertPos =>
    largePushLoop bs (pushValueBytes.set insertPos b) (insertPos - 1)

/-- The loop state of `analyze`. -/
structure AnalyzeState where
  analysis : AdvancedCodeAnalysis
  block : BlockAnalysis
  codePos : Nat

/-- Save the summary of the current block in the instruction that starts it. -/
def AnalyzeState.saveBlock (s : AnalyzeState) : AnalyzeState :=
  { s with analysis := { s.analysis with
      instrs := s.analysis.instrs.modify s.block.beginBlockIndex fun i =>
        { i with arg := .block s.block.close } } }

/-- Set the argument of the last instruction. -/
def AnalyzeState.setArg (s : AnalyzeState) (arg : InstructionArgument) : AnalyzeState :=
  { s with analysis := { s.analysis with
      instrs := s.analysis.instrs.modify (s.analysis.instrs.length - 1) fun i => { i with arg } } }

/-- What a JUMPDEST does before it is added: close the current block and start a new one. -/
def AnalyzeState.startJumpdest (s : AnalyzeState) (offset : Nat) : AnalyzeState :=
  let s := s.saveBlock
  { s with
    block := { beginBlockIndex := s.analysis.instrs.length }
    analysis := { s.analysis with
      jumpdestOffsets := s.analysis.jumpdestOffsets ++ [offset]
      jumpdestTargets := s.analysis.jumpdestTargets ++ [s.analysis.instrs.length] } }

/-- Append the instruction of an opcode and add it to the totals of the block. -/
def AnalyzeState.append (s : AnalyzeState) (info : OpTableEntry) : AnalyzeState :=
  { s with
    analysis := { s.analysis with instrs := s.analysis.instrs ++ [{ fn := info.fn }] }
    block := s.block.add info }

/-- The `switch` of `analyze`: what follows for some opcodes once the instruction is added.
`codePos` is the position after the opcode. -/
def AnalyzeState.finish (s : AnalyzeState) (code : Bytes) (opcode : UInt8) (codePos : Nat) :
    AnalyzeState :=
  if IsPush opcode then
    let size := pushSize opcode
    let data := (code.drop codePos).take size
    let s := { s with codePos := codePos + data.length }
    if size ≤ 8 then s.setArg (.smallPushValue (smallPushLoop data 0 ((size - 1) * 8)))
    else
      let pushValueBytes := largePushLoop data (List.replicate 32 0) (size - 1)
      let s := s.setArg (.pushValue s.analysis.pushValues.length)
      { s with analysis := { s.analysis with
          pushValues := s.analysis.pushValues ++ [Word.load pushValueBytes.reverse] } }
  else match Opcode.ofByte opcode with
  | some .jump | some .stop | some .return_ | some .revert =>
    { s with codePos := skipDeadCode code code.length codePos }
  | some .jumpi =>
    -- JUMPI is the final instruction of the block and holds the summary of the next one.
    let s := s.saveBlock
    { s with block := { beginBlockIndex := s.analysis.instrs.length - 1 }, codePos }
  | some .gas | some .call | some .delegatecall | some .staticcall | some .create | some .create2
  | some .sstore => { s.setArg (.number s.block.gasCost) with codePos }
  | some .pc => { s.setArg (.number (codePos - 1 : Nat)) with codePos }
  | _ => { s with codePos }

/-- One iteration of `analyze` for the opcode at the code position. -/
def AnalyzeState.iterate (s : AnalyzeState) (code : Bytes) (opcode : UInt8) : AnalyzeState :=
  let s₁ := if opcode = 0x5b then s.startJumpdest s.codePos else s
  (s₁.append (opTable opcode)).finish code opcode (s.codePos + 1)

/-- The loop of `analyze`; the first argument bounds the number of iterations. -/
def analyzeLoop (code : Bytes) : Nat → AnalyzeState → AnalyzeState
  | 0, s => s
  | n + 1, s =>
    match code[s.codePos]? with
    | none => s
    | some opcode => analyzeLoop code n (s.iterate code opcode)

/-- `analyze`. -/
def analyze (code : Bytes) : AdvancedCodeAnalysis :=
  let s : AnalyzeState :=
    { analysis := { instrs := [{ fn := .opxBeginblock }] }
      block := { beginBlockIndex := 0 }
      codePos := 0 }
  let s := (analyzeLoop code code.length s).saveBlock
  -- Make sure the last block is terminated.
  { s.analysis with instrs := s.analysis.instrs ++ [{ fn := (opTable 0x00).fn }] }

end Advanced

end Zvmone
