import Zvmone.Vm.AdvancedExecution
import Zvmone.Vm.MeteredCalls

/-! # One step of the Advanced interpreter

The instruction functions of the Advanced interpreter as "run the core implementation, then make
the next position of its outcome", by the shape of the implementation. -/

namespace Zvmone

namespace Advanced

open Interaction InstrM Instr Zvmone.Core

namespace AdvancedExecutionState

/-- What the core implementations work on. -/
def ctx (state : AdvancedExecutionState) : Ctx := ⟨state.stack, state.gasLeft, state.base⟩

/-- The state after a core implementation of the opcode left the context `c`. -/
def absorb (state : AdvancedExecutionState) (op : Opcode) (c : Ctx) : AdvancedExecutionState :=
  { state with
    base := c.state
    gasLeft := c.gasLeft
    stack := state.stack.after c.stack (traits op).stackHeightChange }

/-- Add to the gas left. -/
def correct (state : AdvancedExecutionState) (correction : Int) : AdvancedExecutionState :=
  { state with gasLeft := state.gasLeft + correction }

end AdvancedExecutionState

/-- The status an implementation returns. -/
def implStatus : Except StatusCode Unit → StatusCode
  | .ok () => .success
  | .error status => status

/-- Go on with the next instruction, unless the status is a failure. -/
def resume (i : Nat) (status : StatusCode) (state : AdvancedExecutionState) :
    Option Nat × AdvancedExecutionState :=
  if status ≠ .success then state.exit status else (some (i + 1), state)

/-- Take the correction back and go on with the next instruction, unless the status is a failure or
the gas does not suffice for the rest of the block. -/
def resumeCorrected (correction : Int) (i : Nat) (status : StatusCode)
    (state : AdvancedExecutionState) : Option Nat × AdvancedExecutionState :=
  if status ≠ .success then state.exit status
  else if state.gasLeft - correction < 0 then (state.correct (-correction)).exit .outOfGas
  else (some (i + 1), state.correct (-correction))

/-- The end of the execution after a terminating implementation. -/
def terminate (state : AdvancedExecutionState) :
    Except StatusCode StatusCode × Ctx → Option Nat × AdvancedExecutionState
  | (.ok status, c) =>
    AdvancedExecutionState.exit { state with base := c.state, gasLeft := c.gasLeft } status
  | (.error status, c) =>
    AdvancedExecutionState.exit { state with base := c.state, gasLeft := c.gasLeft } status

variable {op : Opcode} {i : Nat} {state : AdvancedExecutionState}

/-- Running an implementation and taking over its results. -/
theorem implResult_eq (op : Opcode) (fn : InstrM Unit) (state : AdvancedExecutionState) :
    implResult op fn state = fn state.ctx >>= fun x => .ret (implStatus x.1, state.absorb op x.2) := by
  refine congrArg (fn _ >>= ·) (funext fun x => ?_)
  obtain ⟨_ | _, c⟩ := x <;> rfl

/-- Running an implementation with the exact gas left. -/
theorem opCorrected_eq (op : Opcode) (fn : InstrM Unit) (arg : InstructionArgument) (i : Nat)
    (state : AdvancedExecutionState) :
    opCorrected op fn arg i state =
      fn (state.correct (state.currentBlockCost - arg.asNumber)).ctx >>= fun x =>
        .ret (resumeCorrected (state.currentBlockCost - arg.asNumber) i (implStatus x.1)
          ((state.correct (state.currentBlockCost - arg.asNumber)).absorb op x.2)) := by
  show implResult op fn (state.correct _) >>= _ = _
  rw [implResult_eq, bind_assoc]
  refine congrArg (fn _ >>= ·) (funext fun x => ?_)
  simp only [ret_bind, resumeCorrected, pure_eq]
  split
  · rfl
  · split <;> rfl

/-- `opx_beginblock` goes on if the gas suffices and the stack fits. -/
theorem opxBeginblock_cases (arg : InstructionArgument) (i : Nat) (st : AdvancedExecutionState) :
    (opxBeginblock arg i st).1 = none ∨
      0 ≤ st.gasLeft - arg.asBlock.gasCost ∧ arg.asBlock.stackReq ≤ st.stack.top ∧
        (st.stack.top : Int) + arg.asBlock.stackMaxGrowth ≤ 1024 ∧
        opxBeginblock arg i st = (some (i + 1),
          { st with
            gasLeft := st.gasLeft - arg.asBlock.gasCost
            currentBlockCost := arg.asBlock.gasCost }) := by
  unfold opxBeginblock
  dsimp only
  split
  next => exact .inl rfl
  next hgas =>
    split
    next => exact .inl rfl
    next hreq =>
      split
      next => exact .inl rfl
      next hgrowth => exact .inr ⟨not_lt.mp hgas, not_lt.mp hreq, not_lt.mp hgrowth, rfl⟩

/-- A jump goes to the target of a `JUMPDEST`. -/
theorem opJump_next {analysis : AdvancedCodeAnalysis} {i' : Nat} {state' : AdvancedExecutionState}
    (h : opJump analysis state = (some i', state')) :
    ∃ offset, findJumpdest analysis offset = some i' := by
  unfold opJump at h
  dsimp only at h
  split at h
  next => cases h
  next =>
    split at h
    next => cases h
    next pc hfind =>
      cases h
      exact ⟨_, hfind⟩

section

variable [Ethash]

/-- An implementation on the stack alone goes on. -/
theorem opCore_stack {fn : StackTop → StackTop} (hop : coreImpl op = .stack fn) :
    opCore op i state = .ret (some (i + 1), { state with
      stack := state.stack.after (fn state.stack) (traits op).stackHeightChange }) := by
  unfold opCore
  rw [hop]
  rfl

/-- An implementation with the execution state goes on. -/
theorem opCore_state {fn : StackTop → ExecutionState → HostM (StackTop × ExecutionState)}
    (hop : coreImpl op = .state fn) :
    opCore op i state = fn state.stack state.base >>= fun x => .ret (some (i + 1),
      { state with
        stack := state.stack.after x.1 (traits op).stackHeightChange
        base := x.2 }) := by
  unfold opCore
  rw [hop]
  rfl

/-- An implementation with gas and status goes on or ends the frame. -/
theorem opCore_result {fn : InstrM Unit} (hop : coreImpl op = .result fn) :
    opCore op i state = fn state.ctx >>= fun x =>
      .ret (resume i (implStatus x.1) (state.absorb op x.2)) := by
  unfold opCore
  rw [hop]
  dsimp only
  rw [implResult_eq, bind_assoc]
  refine congrArg (fn _ >>= ·) (funext fun x => ?_)
  simp only [ret_bind, resume, pure_eq]
  split <;> rfl

/-- A terminating implementation ends the frame. -/
theorem opCore_term {fn : InstrM StatusCode} (hop : coreImpl op = .term fn) :
    opCore op i state = fn state.ctx >>= fun x => .ret (terminate state x) := by
  unfold opCore
  rw [hop]
  refine congrArg (fn _ >>= ·) (funext fun x => ?_)
  obtain ⟨_ | _, c⟩ := x <;> rfl

/-- Only jumps lead to another instruction than the next one. -/
theorem exec_next {analysis : AdvancedCodeAnalysis} {instr : Instruction}
    (hjump : instr.fn ≠ .opJump) (hjumpi : instr.fn ≠ .opJumpi) :
    (instr.exec analysis i state).Returns fun x => x.1 = none ∨ x.1 = some (i + 1) := by
  -- With the exact gas restored an instruction goes on, or it fails.
  have hcorrected : ∀ op fn arg, (opCorrected op fn arg i state).Returns
      fun x => x.1 = none ∨ x.1 = some (i + 1) := by
    intro op fn arg
    rw [opCorrected_eq]
    refine .bind fun x => ?_
    rw [returns_ret]
    unfold resumeCorrected
    split
    · exact .inl rfl
    · split
      · exact .inl rfl
      · exact .inr rfl
  unfold Instruction.exec
  split
  next op _ =>
    -- The wrappers of the core implementations, by their signature.
    rcases hop : coreImpl op with fn | fn | fn | fn | _
    · rw [opCore_stack hop]
      exact .inr rfl
    · rw [opCore_state hop]
      exact .bind fun _ => .inr rfl
    · rw [opCore_result hop]
      refine .bind fun x => ?_
      rw [returns_ret]
      unfold resume
      split
      · exact .inl rfl
      · exact .inr rfl
    · rw [opCore_term hop]
      refine .bind ?_
      rintro ⟨_ | _, c⟩ <;> exact .inl rfl
    · unfold opCore
      rw [hop]
      trivial
  next => exact hcorrected ..
  next =>
    rcases opxBeginblock_cases instr.arg i state with hnone | ⟨-, -, -, hsome⟩
    · exact .inl hnone
    · refine .inr ?_
      rw [hsome]
  next hfn => exact absurd hfn hjump
  next hfn => exact absurd hfn hjumpi
  next => exact .inr rfl
  next => exact .inr rfl
  next => exact .inr rfl
  next =>
    split
    · trivial
    · exact .inr rfl
  next => exact hcorrected ..
  next => exact hcorrected ..
  next => exact .inl rfl

end

end Advanced

end Zvmone
