import Zvmone.Vm.AdvancedAnalysis
import Zvmone.Vm.Baseline

/-! # The Advanced interpreter

The instruction functions of the Advanced interpreter and its loop. Gas is charged per block by
`opxBeginblock`, so the gas counter runs ahead of the instructions; the instructions that need the
exact value restore it with the difference between the cost of the block and the cost of its
instructions up to this one. -/

namespace Zvmone

namespace Advanced

open Instr Zvmone.Core

/-- `AdvancedExecutionState`. -/
structure AdvancedExecutionState where
  base : ExecutionState
  gasLeft : Int
  stack : StackTop
  currentBlockCost : Int := 0

namespace AdvancedExecutionState

/-- `exit`: terminate the execution with the given status. -/
def exit (state : AdvancedExecutionState) (status : StatusCode) :
    Option Nat × AdvancedExecutionState :=
  (none, { state with base := { state.base with status } })

/-- `reset`: the contents are reset, so that the state can be used again. -/
def reset (state : AdvancedExecutionState) (msg : Message) (code : Bytes) :
    AdvancedExecutionState where
  base := state.base.reset msg code
  gasLeft := msg.gas
  stack := state.stack.reset
  currentBlockCost := 0

end AdvancedExecutionState

/-- `instr::impl<Op>` for implementations returning `Result`: the status, and the state with the
stack height adjusted. -/
def implResult (op : Opcode) (fn : InstrM Unit) (state : AdvancedExecutionState) :
    HostM (StatusCode × AdvancedExecutionState) := do
  let (result, c) ← fn ⟨state.stack, state.gasLeft, state.base⟩
  let state := { state with
    base := c.state
    gasLeft := c.gasLeft
    stack := state.stack.after c.stack (traits op).stackHeightChange }
  match result with
  | .ok () => return (.success, state)
  | .error status => return (status, state)

/-- `op<instr::impl<Op>>`: a core implementation as an instruction at index `i`. -/
def opCore [Ethash] (op : Opcode) (i : Nat) (state : AdvancedExecutionState) :
    HostM (Option Nat × AdvancedExecutionState) :=
  let change := (traits op).stackHeightChange
  match coreImpl op with
  | .stack fn => return (some (i + 1), { state with stack := state.stack.after (fn state.stack) change })
  | .state fn => do
    let (stack, base) ← fn state.stack state.base
    return (some (i + 1), { state with stack := state.stack.after stack change, base })
  | .result fn => do
    let (status, state) ← implResult op fn state
    if status ≠ .success then return state.exit status
    return (some (i + 1), state)
  | .term fn => do
    let (result, c) ← fn ⟨state.stack, state.gasLeft, state.base⟩
    let state := { state with base := c.state, gasLeft := c.gasLeft }
    match result with
    | .ok status => return state.exit status
    | .error status => return state.exit status
  -- The functions reading the code position have no definition in this interpreter.
  | .pos => .fail .nullPointer

/-- `op_sstore`, `op_call` and `op_create`: invoke the implementation with the exact gas left. -/
def opCorrected (op : Opcode) (fn : InstrM Unit) (arg : InstructionArgument) (i : Nat)
    (state : AdvancedExecutionState) : HostM (Option Nat × AdvancedExecutionState) := do
  let gasLeftCorrection := state.currentBlockCost - arg.asNumber
  let state := { state with gasLeft := state.gasLeft + gasLeftCorrection }
  let (status, state) ← implResult op fn state
  if status ≠ .success then return state.exit status
  let state := { state with gasLeft := state.gasLeft - gasLeftCorrection }
  if state.gasLeft < 0 then return state.exit .outOfGas
  return (some (i + 1), state)

/-- `op_sstore`. -/
def opSstore := opCorrected .sstore Core.sstore

/-- `op_call`. -/
def opCall (op : CallOp) :=
  opCorrected (match op with
    | .call => .call
    | .delegatecall => .delegatecall
    | .staticcall => .staticcall) (Core.callImpl op)

/-- `op_create`. -/
def opCreate (op : CreateOp) :=
  opCorrected (match op with
    | .create => .create
    | .create2 => .create2) (Core.createImpl op)

/-- `opx_beginblock`: check and charge the requirements of the whole block. -/
def opxBeginblock (arg : InstructionArgument) (i : Nat) (state : AdvancedExecutionState) :
    Option Nat × AdvancedExecutionState :=
  let block := arg.asBlock
  let state := { state with gasLeft := state.gasLeft - block.gasCost }
  if state.gasLeft < 0 then state.exit .outOfGas
  else if state.stack.top < block.stackReq then state.exit .stackUnderflow
  else if state.stack.top + block.stackMaxGrowth > stackLimit then state.exit .stackOverflow
  else (some (i + 1), { state with currentBlockCost := block.gasCost })

/-- `op_jump`. -/
def opJump (analysis : AdvancedCodeAnalysis) (state : AdvancedExecutionState) :
    Option Nat × AdvancedExecutionState :=
  let (dst, stack) := state.stack.pop
  let state := { state with stack }
  if 2 ^ 31 - 1 < dst.toNat then state.exit .badJumpDestination
  else match findJumpdest analysis dst.toNat with
    | none => state.exit .badJumpDestination
    | some pc => (some pc, state)

/-- `op_jumpi`: if the jump is not taken, the following block begins here. -/
def opJumpi (analysis : AdvancedCodeAnalysis) (arg : InstructionArgument) (i : Nat)
    (state : AdvancedExecutionState) : Option Nat × AdvancedExecutionState :=
  if state.stack.get 1 ≠ 0 then
    let (next, state) := opJump analysis state
    (next, { state with stack := state.stack.pop.2 })
  else opxBeginblock arg i { state with stack := state.stack.pop.2.pop.2 }

/-- `op_gas`: push the exact gas left. -/
def opGas (arg : InstructionArgument) (i : Nat) (state : AdvancedExecutionState) :
    Option Nat × AdvancedExecutionState :=
  let correction := state.currentBlockCost - arg.asNumber
  (some (i + 1), { state with stack := state.stack.push (.ofInt64 (state.gasLeft + correction)) })

/-- Call the function of the instruction at index `i`: the index of the next instruction, or `none`
if the execution ends. -/
def Instruction.exec [Ethash] (analysis : AdvancedCodeAnalysis) (instr : Instruction) (i : Nat)
    (state : AdvancedExecutionState) : HostM (Option Nat × AdvancedExecutionState) :=
  match instr.fn with
  | .op op => opCore op i state
  | .opSstore => opSstore instr.arg i state
  | .opxBeginblock => return opxBeginblock instr.arg i state
  | .opJump => return opJump analysis state
  | .opJumpi => return opJumpi analysis instr.arg i state
  | .opPc => return (some (i + 1),
      { state with stack := state.stack.push (.ofInt64 instr.arg.asNumber) })
  | .opGas => return opGas instr.arg i state
  | .opPushSmall => return (some (i + 1),
      { state with stack := state.stack.push (instr.arg.asSmallPushValue.setWidth 256) })
  | .opPushFull =>
    match analysis.pushValues[instr.arg.asPushValue]? with
    | none => .fail .outOfBounds
    | some v => return (some (i + 1), { state with stack := state.stack.push v })
  | .opCall op => opCall op instr.arg i state
  | .opCreate op => opCreate op instr.arg i state
  | .opUndefined => return state.exit .undefinedInstruction

/-- The loop of `execute`; the first argument bounds the number of instructions. -/
def loop [Ethash] (analysis : AdvancedCodeAnalysis) :
    Nat → Nat → AdvancedExecutionState → HostM AdvancedExecutionState
  | 0, _, _ => .fail .outOfFuel
  | n + 1, i, state =>
    match analysis.instrs[i]? with
    | none => .fail .outOfBounds
    | some instr => do
      match ← instr.exec analysis i state with
      | (some i', state) => loop analysis n i' state
      | (none, state) => return state

/-- `advanced::execute`. -/
def execute [Ethash] : VM := fun fuel msg code => do
  let state ← loop (analyze code) fuel 0
    { base := .init msg code, gasLeft := msg.gas, stack := .bottom }
  return state.base.result state.gasLeft

end Advanced

end Zvmone
