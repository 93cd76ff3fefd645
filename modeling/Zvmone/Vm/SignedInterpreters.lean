import Zvmone.Vm.AdvancedExecution
import Zvmone.Vm.SignedArithmetic

/-! # The interpreters in signed 64-bit integers

Both interpreters and the analysis of the Advanced one, with the instructions and the gas counters
of `SignedArithmetic`. Everything else is as in the interpreters on unbounded integers. -/

namespace Zvmone

namespace Signed

open Instr Zvmone.Core SignedArithmetic

variable [SignedArithmetic]

/-! ### Baseline -/

namespace Baseline

open Zvmone.Baseline

/-- `check_requirements`: the status, and the gas left after the base cost is charged. -/
def checkRequirements (op : Opcode) (gasLeft : Int) (stackTop : StackTop) :
    HostM (StatusCode × Int) :=
  if (traits op).stackHeightChange > 0 ∧ stackTop.top = stackLimit then
    return (.stackOverflow, gasLeft)
  else if (traits op).stackHeightRequired > 0 ∧
      stackTop.top ≤ (traits op).stackHeightRequired - 1 then return (.stackUnderflow, gasLeft)
  else do
    let gasLeft ← int64 (gasLeft - gasCosts op)
    return if gasLeft < 0 then (.outOfGas, gasLeft) else (.success, gasLeft)

/-- Invoke a core implementation at a position; the requirements are already checked. -/
def invokeCore [Ethash] (analysis : CodeAnalysis) (op : Opcode) (f : Frame) : HostM Next :=
  let change := (traits op).stackHeightChange
  match coreImpl op with
  | .stack fn =>
    return .cont { f with codeIt := f.codeIt + 1, stackTop := f.stackTop.after (fn f.stackTop) change }
  | .state fn => do
    let (stack, state) ← fn f.stackTop f.state
    return .cont { f with codeIt := f.codeIt + 1, stackTop := f.stackTop.after stack change, state }
  | .result fn => do
    let (result, c) ← fn ⟨f.stackTop, f.gas, f.state⟩
    match result with
    | .ok () =>
      return .cont ⟨f.codeIt + 1, f.stackTop.after c.stack change, c.gasLeft, c.state⟩
    | .error status => return .done c.gasLeft { c.state with status }
  | .term fn => do
    let (result, c) ← fn ⟨f.stackTop, f.gas, f.state⟩
    match result with
    | .ok status => return .done c.gasLeft { c.state with status }
    | .error status => return .done c.gasLeft { c.state with status }
  | .pos =>
    let (next, stack, state) := positionImpl analysis op f.stackTop f.state f.codeIt
    match next with
    | some codeIt => return .cont ⟨codeIt, f.stackTop.after stack change, f.gas, state⟩
    | none => return .done f.gas state

/-- `invoke<Op>`: check the requirements, then invoke the implementation. -/
def invoke [Ethash] (analysis : CodeAnalysis) (op : Opcode) (f : Frame) : HostM Next := do
  match ← checkRequirements op f.gas f.stackTop with
  | (.success, gas) => invokeCore analysis op { f with gas }
  | (status, gas) => return .done gas { f.state with status }

/-- One iteration of the loop: decode the opcode at the position and invoke it. -/
def step [Ethash] (analysis : CodeAnalysis) (f : Frame) : HostM Next :=
  match analysis.executableCode[f.codeIt]? with
  | none => .fail .outOfBounds
  | some byte =>
    match Opcode.ofByte byte with
    | some op => invoke analysis op f
    | none => return .done f.gas { f.state with status := .undefinedInstruction }

/-- `dispatch`: the gas and the state at the end of the execution. -/
def dispatch [Ethash] (analysis : CodeAnalysis) : Nat → Frame → HostM (Int × ExecutionState)
  | 0, _ => .fail .outOfFuel
  | n + 1, f => do
    match ← step analysis f with
    | .cont f' => dispatch analysis n f'
    | .done gas state => return (gas, state)

/-- `baseline::execute`. -/
def execute [Ethash] : VM := fun fuel msg code => do
  let analysis := analyze code
  let (gas, state) ← dispatch analysis fuel ⟨0, .bottom, msg.gas, .init msg code⟩
  return state.result gas

end Baseline

/-! ### Advanced -/

namespace Advanced

open Zvmone.Advanced

/-- Append the instruction of an opcode and add it to the totals of the block. -/
def append (s : AnalyzeState) (info : OpTableEntry) : HostM AnalyzeState := do
  let gasCost ← int64 (s.block.gasCost + info.gasCost)
  let s := s.append info
  return { s with block := { s.block with gasCost } }

/-- One iteration of `analyze` for the opcode at the code position. -/
def iterate (s : AnalyzeState) (code : Bytes) (opcode : UInt8) : HostM AnalyzeState := do
  let s₁ := if opcode = 0x5b then s.startJumpdest s.codePos else s
  let s₂ ← append s₁ (opTable opcode)
  return s₂.finish code opcode (s.codePos + 1)

/-- The loop of `analyze`; the first argument bounds the number of iterations. -/
def analyzeLoop (code : Bytes) : Nat → AnalyzeState → HostM AnalyzeState
  | 0, s => return s
  | n + 1, s =>
    match code[s.codePos]? with
    | none => return s
    | some opcode => do analyzeLoop code n (← iterate s code opcode)

/-- `analyze`. -/
def analyze (code : Bytes) : HostM AdvancedCodeAnalysis := do
  let s : AnalyzeState :=
    { analysis := { instrs := [{ fn := .opxBeginblock }] }
      block := { beginBlockIndex := 0 }
      codePos := 0 }
  let s := (← analyzeLoop code code.length s).saveBlock
  return { s.analysis with instrs := s.analysis.instrs ++ [{ fn := (opTable 0x00).fn }] }

/-- `op<instr::impl<Op>>`: a core implementation as an instruction at index `i`. -/
def opCore [Ethash] (op : Opcode) (i : Nat) (state : AdvancedExecutionState) :
    HostM (Option Nat × AdvancedExecutionState) :=
  let change := (traits op).stackHeightChange
  match coreImpl op with
  | .stack fn => return (some (i + 1), { state with stack := state.stack.after (fn state.stack) change })
  | .state fn => do
    let (stack, base) ← fn state.stack state.base
    return (some (i + 1), { state with stack := state.stack.after stack change, base })
  | .result fn => do
    let (status, state) ← implResult op fn state
    if status ≠ .success then return state.exit status
    return (some (i + 1), state)
  | .term fn => do
    let (result, c) ← fn ⟨state.stack, state.gasLeft, state.base⟩
    let state := { state with base := c.state, gasLeft := c.gasLeft }
    match result with
    | .ok status => return state.exit status
    | .error status => return state.exit status
  | .pos => .fail .nullPointer

/-- `op_sstore`, `op_call` and `op_create`: invoke the implementation with the exact gas left. -/
def opCorrected (op : Opcode) (fn : InstrM Unit) (arg : InstructionArgument) (i : Nat)
    (state : AdvancedExecutionState) : HostM (Option Nat × AdvancedExecutionState) := do
  let gasLeftCorrection ← int64 (state.currentBlockCost - arg.asNumber)
  let gasLeft ← int64 (state.gasLeft + gasLeftCorrection)
  let (status, state) ← implResult op fn { state with gasLeft }
  if status ≠ .success then return state.exit status
  let gasLeft ← int64 (state.gasLeft - gasLeftCorrection)
  let state := { state with gasLeft }
  if state.gasLeft < 0 then return state.exit .outOfGas
  return (some (i + 1), state)

/-- `op_sstore`. -/
def opSstore := opCorrected .sstore sstore

/-- `op_call`. -/
def opCall (op : CallOp) :=
  opCorrected (match op with
    | .call => .call
    | .delegatecall => .delegatecall
    | .staticcall => .staticcall) (callImpl op)

/-- `op_create`. -/
def opCreate (op : CreateOp) :=
  opCorrected (match op with
    | .create => .create
    | .create2 => .create2) (createImpl op)

/-- `opx_beginblock`: check and charge the requirements of the whole block. -/
def opxBeginblock (arg : InstructionArgument) (i : Nat) (state : AdvancedExecutionState) :
    HostM (Option Nat × AdvancedExecutionState) := do
  let block := arg.asBlock
  let gasLeft ← int64 (state.gasLeft - block.gasCost)
  let state := { state with gasLeft }
  if state.gasLeft < 0 then return state.exit .outOfGas
  else if state.stack.top < block.stackReq then return state.exit .stackUnderflow
  else if state.stack.top + block.stackMaxGrowth > stackLimit then
    return state.exit .stackOverflow
  else return (some (i + 1), { state with currentBlockCost := block.gasCost })

/-- `op_jumpi`: if the jump is not taken, the following block begins here. -/
def opJumpi (analysis : AdvancedCodeAnalysis) (arg : InstructionArgument) (i : Nat)
    (state : AdvancedExecutionState) : HostM (Option Nat × AdvancedExecutionState) :=
  if state.stack.get 1 ≠ 0 then
    let (next, state) := opJump analysis state
    return (next, { state with stack := state.stack.pop.2 })
  else opxBeginblock arg i { state with stack := state.stack.pop.2.pop.2 }

/-- `op_gas`: push the exact gas left. -/
def opGas (arg : InstructionArgument) (i : Nat) (state : AdvancedExecutionState) :
    HostM (Option Nat × AdvancedExecutionState) := do
  let correction ← int64 (state.currentBlockCost - arg.asNumber)
  let gas ← int64 (state.gasLeft + correction)
  return (some (i + 1), { state with stack := state.stack.push (.ofInt64 gas) })

/-- Call the function of the instruction at index `i`: the other functions do not compute with
gas. -/
def exec [Ethash] (analysis : AdvancedCodeAnalysis) (instr : Instruction) (i : Nat)
    (state : AdvancedExecutionState) : HostM (Option Nat × AdvancedExecutionState) :=
  match instr.fn with
  | .op op => opCore op i state
  | .opSstore => opSstore instr.arg i state
  | .opxBeginblock => opxBeginblock instr.arg i state
  | .opJumpi => opJumpi analysis instr.arg i state
  | .opGas => opGas instr.arg i state
  | .opCall op => opCall op instr.arg i state
  | .opCreate op => opCreate op instr.arg i state
  | _ => instr.exec analysis i state

/-- The loop of `execute`; the first argument bounds the number of instructions. -/
def loop [Ethash] (analysis : AdvancedCodeAnalysis) :
    Nat → Nat → AdvancedExecutionState → HostM AdvancedExecutionState
  | 0, _, _ => .fail .outOfFuel
  | n + 1, i, state =>
    match analysis.instrs[i]? with
    | none => .fail .outOfBounds
    | some instr => do
      match ← exec analysis instr i state with
      | (some i', state) => loop analysis n i' state
      | (none, state) => return state

/-- `advanced::execute`. -/
def execute [Ethash] : VM := fun fuel msg code => do
  let state ← loop (← analyze code) fuel 0
    { base := .init msg code, gasLeft := msg.gas, stack := .bottom }
  return state.base.result state.gasLeft

end Advanced

end Signed

end Zvmone
