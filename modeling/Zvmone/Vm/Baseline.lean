import Zvmone.Vm.InstructionsCalls

/-! # The Baseline interpreter

Code analysis (`analyze`), the instruction loop (`dispatch`) that checks the requirements of every
instruction before it is invoked, and `execute`. The two dispatch loops of the source (`switch` and
computed goto) do the same and are one function here; the loop with tracing is in `Tracing`. -/

namespace Zvmone

namespace Baseline

open Instr

/-- `CodeAnalysis`: the padded code and the map of valid jump destinations. -/
structure CodeAnalysis where
  executableCode : Bytes
  jumpdestMap : List Bool

/-- The loop of `analyze_jumpdests` from position `i` on; the first argument bounds the number of
iterations. -/
def analyzeJumpdestsLoop (code : Bytes) : Nat → Nat → List Bool → List Bool
  | 0, _, map => map
  | n + 1, i, map =>
    match code[i]? with
    | none => map
    | some op =>
      -- As a signed byte, an opcode is at least `OP_PUSH1` only if it is a PUSH.
      if op.toBitVec.toInt ≥ 0x60 then
        analyzeJumpdestsLoop code n (i + (op.toNat - 0x5f) + 1) map
      else if op = 0x5b then analyzeJumpdestsLoop code n (i + 1) (map.set i true)
      else analyzeJumpdestsLoop code n (i + 1) map

/-- `analyze_jumpdests`. -/
def analyzeJumpdests (code : Bytes) : List Bool :=
  analyzeJumpdestsLoop code code.length 0 (List.replicate code.length false)

/-- `pad_code`: 32 bytes for missing push data and a final `STOP`. -/
def padCode (code : Bytes) : Bytes := code ++ List.replicate (32 + 1) 0

/-- `analyze`. -/
def analyze (code : Bytes) : CodeAnalysis := ⟨padCode code, analyzeJumpdests code⟩

/-! ### Position-dependent instructions -/

/-- `intx::be::unsafe::load` of `n` bytes of the code. -/
def loadCode (code : Bytes) (pos n : Nat) : Nat := BigEndian.load ((code.drop pos).take n)

/-- `load_partial_push_data<Len>`: some lengths load additional bytes and shift them out. -/
def loadPartialPushData (len : Nat) (code : Bytes) (pos : Nat) : Nat :=
  match len with
  | 1 => loadCode code pos 1
  | 2 => loadCode code pos 2
  | 3 => loadCode code pos 4 >>> 8
  | 4 => loadCode code pos 4
  | len => loadCode code pos 8 >>> (8 * (8 - len))

/-- The value `push<Len>` assembles from the limbs of its data at `pos`. -/
def loadPushData (len : Nat) (code : Bytes) (pos : Nat) : Word :=
  let numFullWords := len / 8
  let numPartialBytes := len % 8
  let data := pos + numPartialBytes
  Word.ofLimbs fun i =>
    if i < numFullWords then
      BitVec.ofNat 64 (loadCode code (data + 8 * (numFullWords - 1 - i)) 8)
    else if i = numFullWords ∧ numPartialBytes ≠ 0 then
      BitVec.ofNat 64 (loadPartialPushData numPartialBytes code pos)
    else 0

/-- `jump_impl`: the new position, or `none` with the status set. -/
def jumpImpl (analysis : CodeAnalysis) (state : ExecutionState) (dst : Word) :
    Option Nat × ExecutionState :=
  if dst.toNat ≥ analysis.jumpdestMap.length ∨ analysis.jumpdestMap[dst.toNat]? = some false then
    (none, { state with status := .badJumpDestination })
  else (some dst.toNat, state)

/-- The implementations that depend on the code position: the next position, or `none` if the
execution ends, with the stack and the state. -/
def positionImpl (analysis : CodeAnalysis) (op : Opcode) (stack : StackTop)
    (state : ExecutionState) (pos : Nat) : Option Nat × StackTop × ExecutionState :=
  match op with
  | .jump =>
    let (dst, stack) := stack.pop
    let (next, state) := jumpImpl analysis state dst
    (next, stack, state)
  | .jumpi =>
    let (dst, stack) := stack.pop
    let (cond, stack) := stack.pop
    if cond ≠ 0 then
      let (next, state) := jumpImpl analysis state dst
      (next, stack, state)
    else (some (pos + 1), stack, state)
  | .pc => (some (pos + 1), stack.push (BitVec.ofNat 256 pos), state)
  | .push k =>
    let len := k.val + 1
    (some (pos + (len + 1)), stack.push (loadPushData len analysis.executableCode (pos + 1)), state)
  | _ => (none, stack, state)

/-! ### The instruction loop -/

/-- `check_requirements`: the status, and the gas left after the base cost is charged. -/
def checkRequirements (op : Opcode) (gasLeft : Int) (stackTop : StackTop) : StatusCode × Int :=
  if (traits op).stackHeightChange > 0 ∧ stackTop.top = stackLimit then (.stackOverflow, gasLeft)
  else if (traits op).stackHeightRequired > 0 ∧
      stackTop.top ≤ (traits op).stackHeightRequired - 1 then (.stackUnderflow, gasLeft)
  else
    let gasLeft := gasLeft - gasCosts op
    if gasLeft < 0 then (.outOfGas, gasLeft) else (.success, gasLeft)

/-- The local state of the loop: `Position`, the gas and the execution state. -/
structure Frame where
  codeIt : Nat
  stackTop : StackTop
  gas : Int
  state : ExecutionState

/-- The outcome of one instruction: the next position, or the end of the execution (a null
`code_it`). -/
inductive Next
  | cont (f : Frame)
  | done (gas : Int) (state : ExecutionState)

/-- Invoke a core implementation at a position; the requirements are already checked. -/
def invokeCore [Ethash] (analysis : CodeAnalysis) (op : Opcode) (f : Frame) : HostM Next :=
  let change := (traits op).stackHeightChange
  match coreImpl op with
  | .stack fn =>
    return .cont { f with codeIt := f.codeIt + 1, stackTop := f.stackTop.after (fn f.stackTop) change }
  | .state fn => do
    let (stack, state) ← fn f.stackTop f.state
    return .cont { f with codeIt := f.codeIt + 1, stackTop := f.stackTop.after stack change, state }
  | .result fn => do
    let (result, c) ← fn ⟨f.stackTop, f.gas, f.state⟩
    match result with
    | .ok () =>
      return .cont ⟨f.codeIt + 1, f.stackTop.after c.stack change, c.gasLeft, c.state⟩
    | .error status => return .done c.gasLeft { c.state with status }
  | .term fn => do
    let (result, c) ← fn ⟨f.stackTop, f.gas, f.state⟩
    match result with
    | .ok status => return .done c.gasLeft { c.state with status }
    | .error status => return .done c.gasLeft { c.state with status }
  | .pos =>
    let (next, stack, state) := positionImpl analysis op f.stackTop f.state f.codeIt
    match next with
    | some codeIt => return .cont ⟨codeIt, f.stackTop.after stack change, f.gas, state⟩
    | none => return .done f.gas state

/-- `invoke<Op>`: check the requirements, then invoke the implementation. -/
def invoke [Ethash] (analysis : CodeAnalysis) (op : Opcode) (f : Frame) : HostM Next :=
  match checkRequirements op f.gas f.stackTop with
  | (.success, gas) => invokeCore analysis op { f with gas }
  | (status, gas) => return .done gas { f.state with status }

/-- One iteration of the loop: decode the opcode at the position and invoke it. -/
def step [Ethash] (analysis : CodeAnalysis) (f : Frame) : HostM Next :=
  match analysis.executableCode[f.codeIt]? with
  | none => .fail .outOfBounds
  | some byte =>
    match Opcode.ofByte byte with
    | some op => invoke analysis op f
    | none => return .done f.gas { f.state with status := .undefinedInstruction }

/-- `dispatch`: the gas and the state at the end of the execution. -/
def dispatch [Ethash] (analysis : CodeAnalysis) : Nat → Frame → HostM (Int × ExecutionState)
  | 0, _ => .fail .outOfFuel
  | n + 1, f => do
    match ← step analysis f with
    | .cont f' => dispatch analysis n f'
    | .done gas state => return (gas, state)

end Baseline

/-- The result both interpreters make of the final gas and state. -/
def ExecutionState.result (state : ExecutionState) (gas : Int) : CallResult where
  statusCode := state.status
  gasLeft := if state.status = .success ∨ state.status = .revert then gas else 0
  gasRefund := if state.status = .success then state.gasRefund else 0
  outputData := state.memory.slice state.outputOffset state.outputSize

/-- The state of a frame at the start of its execution. -/
def ExecutionState.init (msg : Message) (code : Bytes) : ExecutionState :=
  { msg, originalCode := code }

/-- `baseline::execute`. -/
def Baseline.execute [Ethash] : VM := fun fuel msg code => do
  let analysis := analyze code
  let (gas, state) ← dispatch analysis fuel ⟨0, .bottom, msg.gas, .init msg code⟩
  return state.result gas

end Zvmone
