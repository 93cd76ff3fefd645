import Zvmone.Library.Nesting
import Zvmone.Vm.AdvancedExecution
import Zvmone.Vm.Baseline

/-! # Tracing

The Baseline interpreter with tracing enabled (`dispatch<true>`), the two tracers of the repository,
the chain of tracers of a VM, and the VM object with its options. Tracers write to an output stream,
which all tracers that are created by options share. -/

namespace Zvmone

open Interaction

/-! ### Notifications -/

/-- What the Baseline interpreter notifies tracers of. -/
abbrev Event := Signal (Message × Bytes) Baseline.Frame CallResult

namespace Event

/-- `notify_execution_start`. -/
@[match_pattern] abbrev executionStart (msg : Message) (code : Bytes) : Event := .opens (msg, code)

/-- `notify_instruction_start`. -/
@[match_pattern] abbrev instructionStart (f : Baseline.Frame) : Event := .happens f

/-- `notify_execution_end`. -/
@[match_pattern] abbrev executionEnd (result : CallResult) : Event := .closes result

end Event

/-- Programs that call the host and notify tracers. -/
abbrev TracedM := Interaction (Heard HostCall.Answer Event) Fault

namespace Baseline

/-- The `offset` that tracers get: the position as a `uint32_t`. -/
def Frame.offset (f : Frame) : Nat := f.codeIt % 2 ^ 32

/-- `dispatch<true>`. -/
def dispatchTraced [Ethash] (analysis : CodeAnalysis) : Nat → Frame → TracedM (Int × ExecutionState)
  | 0, _ => .fail .outOfFuel
  | n + 1, f => do
    -- Skip STOP from code padding.
    if f.offset < f.state.originalCode.length then notify (Event.instructionStart f)
    match ← silent (step analysis f) with
    | .cont f' => dispatchTraced analysis n f'
    | .done gas state => return (gas, state)

/-- `baseline::execute` with a tracer. -/
def executeTraced [Ethash] (fuel : Nat) (msg : Message) (code : Bytes) : TracedM CallResult := do
  let analysis := analyze code
  notify (Event.executionStart msg code)
  let (gas, state) ← dispatchTraced analysis fuel ⟨0, .bottom, msg.gas, .init msg code⟩
  let result := state.result gas
  notify (Event.executionEnd result)
  return result

end Baseline

/-! ### Output streams -/

/-- `std::ostream`: what has been written, and whether integers are written in hexadecimal. -/
structure OStream where
  text : String := ""
  hex : Bool := false

namespace OStream

/-- Write text. -/
def put (out : OStream) (s : String) : OStream := { out with text := out.text ++ s }

/-- `out << std::dec`. -/
def useDec (out : OStream) : OStream := { out with hex := false }

/-- `out << std::hex`. -/
def useHex (out : OStream) : OStream := { out with hex := true }

/-- The digits of an integer type with a number of bits: hexadecimal ones show the bit pattern. -/
def digits (hex : Bool) (bits : Nat) (x : Int) : String :=
  if hex then .ofList (Nat.toDigits 16 (x % 2 ^ bits).toNat) else toString x

/-- Write an integer. -/
def putInt (out : OStream) (bits : Nat) (x : Int) : OStream := out.put (digits out.hex bits x)

end OStream

/-- The text functions of the zvmc and intx libraries that tracers use. -/
class TracerText where
  /-- `zvmc::hex`. -/
  hex : Bytes → String
  /-- `intx::to_string` in base 16. -/
  toString16 : Word → String
  /-- `operator<<` of `ZVMC_SHANGHAI`. -/
  revision : String
  /-- `operator<<` of a status code. -/
  statusCode : StatusCode → String

/-! ### Instruction names -/

open Opcode in
/-- `Traits::name`. -/
def Instr.name : Opcode → String
  | stop => "STOP" | add => "ADD" | mul => "MUL" | sub => "SUB" | div => "DIV" | sdiv => "SDIV"
  | mod => "MOD" | smod => "SMOD" | addmod => "ADDMOD" | mulmod => "MULMOD" | exp => "EXP"
  | signextend => "SIGNEXTEND" | lt => "LT" | gt => "GT" | slt => "SLT" | sgt => "SGT" | eq => "EQ"
  | iszero => "ISZERO" | and_ => "AND" | or_ => "OR" | xor_ => "XOR" | not_ => "NOT"
  | byte => "BYTE" | shl => "SHL" | shr => "SHR" | sar => "SAR" | keccak256 => "KECCAK256"
  | address => "ADDRESS" | balance => "BALANCE" | origin => "ORIGIN" | caller => "CALLER"
  | callvalue => "CALLVALUE" | calldataload => "CALLDATALOAD" | calldatasize => "CALLDATASIZE"
  | calldatacopy => "CALLDATACOPY" | codesize => "CODESIZE" | codecopy => "CODECOPY"
  | gasprice => "GASPRICE" | extcodesize => "EXTCODESIZE" | extcodecopy => "EXTCODECOPY"
  | returndatasize => "RETURNDATASIZE" | returndatacopy => "RETURNDATACOPY"
  | extcodehash => "EXTCODEHASH" | blockhash => "BLOCKHASH" | coinbase => "COINBASE"
  | timestamp => "TIMESTAMP" | number => "NUMBER" | prevrandao => "PREVRANDAO"
  | gaslimit => "GASLIMIT" | chainid => "CHAINID" | selfbalance => "SELFBALANCE"
  | basefee => "BASEFEE" | pop => "POP" | mload => "MLOAD" | mstore => "MSTORE"
  | mstore8 => "MSTORE8" | sload => "SLOAD" | sstore => "SSTORE" | jump => "JUMP"
  | jumpi => "JUMPI" | pc => "PC" | msize => "MSIZE" | gas => "GAS" | jumpdest => "JUMPDEST"
  | push0 => "PUSH0" | push k => "PUSH" ++ toString (k.val + 1) | dup k => "DUP" ++ toString (k.val + 1)
  | swap k => "SWAP" ++ toString (k.val + 1) | log k => "LOG" ++ toString k.val
  | create => "CREATE" | call => "CALL" | return_ => "RETURN" | delegatecall => "DELEGATECALL"
  | create2 => "CREATE2" | staticcall => "STATICCALL" | revert => "REVERT" | invalid => "INVALID"

section Tracers

variable [TracerText]

/-- `get_name`. -/
def getName (opcode : UInt8) : String :=
  match Opcode.ofByte opcode with
  | some op => Instr.name op
  | none => "0x" ++ TracerText.hex [opcode]

/-! ### The histogram tracer -/

namespace HistogramTracer

/-- `HistogramTracer::Context`. -/
structure Context where
  depth : Int
  code : Bytes
  counts : UInt8 → BitVec 32 := fun _ => 0

/-- `++ctx.counts[opcode]`. -/
def Context.count (ctx : Context) (opcode : UInt8) : Context :=
  { ctx with counts := fun i => if i = opcode then ctx.counts i + 1 else ctx.counts i }

/-- The loop of `on_execution_end`, with the numbers of the opcodes that are left. -/
def putCounts (counts : UInt8 → BitVec 32) (opcodes : List Nat) (out : OStream) : OStream :=
  opcodes.foldl (fun out i =>
    let opcode := UInt8.ofNat i
    if counts opcode ≠ 0 then
      (((out.put (getName opcode)).put ",").putInt 32 (counts opcode).toNat).put "\n"
    else out) out

/-- What `on_execution_end` writes. -/
def report (depth : Int) (counts : UInt8 → BitVec 32) (out : OStream) : OStream :=
  let out := ((out.put "--- # HISTOGRAM depth=").putInt 32 depth).put "\nopcode,count\n"
  putCounts counts (List.range 256) out

/-- The methods of `HistogramTracer` on the stack of contexts and the output stream; the top of an
empty stack and bytes behind the end of the code may not be read. -/
def on : Event → List Context → OStream → Except Fault (List Context × OStream)
  | .executionStart msg code, contexts, out => .ok ({ depth := msg.depth, code } :: contexts, out)
  | .instructionStart f, ctx :: contexts, out =>
    match ctx.code[f.offset]? with
    | some opcode => .ok (ctx.count opcode :: contexts, out)
    | none => .error .outOfBounds
  | .executionEnd _, ctx :: contexts, out => .ok (contexts, report ctx.depth ctx.counts out)
  | _, [], _ => .error .outOfBounds

end HistogramTracer

/-! ### The instruction tracer -/

namespace InstructionTracer

/-- `InstructionTracer::Context`. -/
structure Context where
  code : Bytes
  startGas : Int

/-- `output_stack`: from the bottom to the top. -/
def outputStack (stack : StackTop) (out : OStream) : OStream :=
  let items := (List.range stack.top).map fun i =>
    "\"0x" ++ TracerText.toString16 (stack.slots i) ++ "\""
  ((out.put ",\"stack\":[").put (",".intercalate items)).put "]"

/-- What `on_execution_start` writes. -/
def putStart (msg : Message) (out : OStream) : OStream :=
  let out := (out.put "\x7b").put "\"depth\":" |>.putInt 32 msg.depth
  let out := ((out.put ",\"rev\":\"").put TracerText.revision).put "\""
  let out := (out.put ",\"static\":").put (if msg.IsStatic then "true" else "false")
  out.put "\x7d\n"

/-- What `on_instruction_start` writes. -/
def putInstruction (opcode : UInt8) (f : Baseline.Frame) (out : OStream) : OStream :=
  let out := (out.put "\x7b").put "\"pc\":" |>.useDec.putInt 32 f.offset
  let out := (out.put ",\"op\":").useDec.putInt 32 opcode.toNat
  let out := ((out.put ",\"opName\":\"").put (getName opcode)).put "\""
  let out := (out.put ",\"gas\":0x").useHex.putInt 64 f.gas
  let out := outputStack f.stackTop out
  let out := (out.put ",\"memorySize\":").useDec.putInt 64 f.state.memory.size
  out.put "\x7d\n"

/-- What `on_execution_end` writes. -/
def putEnd (startGas : Int) (result : CallResult) (out : OStream) : OStream :=
  let out := (out.put "\x7b").put "\"error\":"
  let out :=
    if result.statusCode = .success then out.put "null"
    else ((out.put "\"").put (TracerText.statusCode result.statusCode)).put "\""
  let out := (out.put ",\"gas\":").useHex.put "0x" |>.putInt 64 result.gasLeft
  let out := (out.put ",\"gasUsed\":").useHex.put "0x" |>.putInt 64 (startGas - result.gasLeft)
  let out := ((out.put ",\"output\":\"").put (TracerText.hex result.outputData)).put "\""
  out.put "\x7d\n"

/-- The methods of `InstructionTracer` on the stack of contexts and the output stream. -/
def on : Event → List Context → OStream → Except Fault (List Context × OStream)
  | .executionStart msg code, contexts, out => .ok (⟨code, msg.gas⟩ :: contexts, putStart msg out)
  | .instructionStart f, ctx :: contexts, out =>
    match ctx.code[f.offset]? with
    | some opcode => .ok (ctx :: contexts, putInstruction opcode f out)
    | none => .error .outOfBounds
  | .executionEnd result, ctx :: contexts, out => .ok (contexts, putEnd ctx.startGas result out)
  | _, [], _ => .error .outOfBounds

end InstructionTracer

/-! ### The chain of tracers -/

/-- A `Tracer` of the repository, with its stack of contexts. -/
inductive Tracer
  | histogram (contexts : List HistogramTracer.Context)
  | instruction (contexts : List InstructionTracer.Context)

/-- The `on_*` methods. -/
def Tracer.on (event : Event) (out : OStream) : Tracer → Except Fault (Tracer × OStream)
  | .histogram contexts =>
    (HistogramTracer.on event contexts out).map fun r => (.histogram r.1, r.2)
  | .instruction contexts =>
    (InstructionTracer.on event contexts out).map fun r => (.instruction r.1, r.2)

/-- The `notify_*` methods of the first tracer: each tracer takes the event before the next one. -/
def notifyAll (event : Event) : List Tracer → OStream → Except Fault (List Tracer × OStream)
  | [], out => .ok ([], out)
  | tracer :: next, out => do
    let (tracer, out) ← tracer.on event out
    let (next, out) ← notifyAll event next out
    return (tracer :: next, out)

/-- The chain of tracers and their output stream as the observer of an execution. -/
def tracers : Observer Event Fault (List Tracer × OStream) := fun event t => notifyAll event t.1 t.2

end Tracers

/-! ### The VM object -/

/-- The interpreter that the field `execute` points to. -/
inductive Interpreter
  | baseline | advanced
  deriving DecidableEq

/-- `class VM`: the interpreter, the flag for the dispatch loop with computed goto, and the list of
tracers from `m_first_tracer` on. -/
structure VmObject where
  execute : Interpreter := .baseline
  cgoto : Bool
  tracers : List Tracer := []

namespace VmObject

/-- The constructor, given `ZVMONE_CGOTO_SUPPORTED`. -/
def create (cgotoSupported : Bool) : VmObject := { cgoto := cgotoSupported }

/-- `add_tracer`: at the end of the list. -/
def addTracer (vm : VmObject) (tracer : Tracer) : VmObject :=
  { vm with tracers := vm.tracers ++ [tracer] }

/-- `zvmc_set_option_result`. -/
inductive SetOptionResult
  | success | invalidName | invalidValue
  deriving DecidableEq

/-- `set_option`: null pointers are taken as empty strings. The instruction tracer sets the number
format of the stream it is created with. -/
def setOption (cgotoSupported : Bool) (cName cValue : Option String) (vm : VmObject)
    (cerr : OStream) : SetOptionResult × VmObject × OStream :=
  let name := cName.getD ""
  let value := cValue.getD ""
  if name = "advanced" then (.success, { vm with execute := .advanced }, cerr)
  else if name = "cgoto" then
    if cgotoSupported then
      if value = "no" then (.success, { vm with cgoto := false }, cerr)
      else (.invalidValue, vm, cerr)
    else (.invalidName, vm, cerr)
  else if name = "trace" then (.success, vm.addTracer (.instruction []), cerr.useDec)
  else if name = "histogram" then (.success, vm.addTracer (.histogram []), cerr)
  else (.invalidName, vm, cerr)

/-- What `execute` of the VM object runs. The Advanced interpreter ignores tracers, and the two
dispatch loops without tracing do the same. -/
def run [Ethash] (vm : VmObject) (fuel : Nat) (msg : Message) (code : Bytes) : TracedM CallResult :=
  match vm.execute with
  | .advanced => silent (Advanced.execute fuel msg code)
  | .baseline =>
    if vm.tracers.isEmpty then silent (Baseline.execute fuel msg code)
    else Baseline.executeTraced fuel msg code

end VmObject

end Zvmone
