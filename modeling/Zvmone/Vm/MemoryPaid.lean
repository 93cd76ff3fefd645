import Zvmone.Vm.AdvancedGas

/-! # Memory is paid from the gas

A memory check that succeeds takes from the gas exactly what it charges for the growth
(`requireMemory_paid`). Nothing else changes what was charged, so in a run of either interpreter the
gas that is left and what the growths of the memory were charged so far are together at most the gas
of the message (`Baseline.Passes.funds_le`, `Advanced.Passes.funds_le`). -/

namespace Zvmone

open Interaction InstrM Instr Zvmone.Core

/-! ### Memory checks -/

/-- `check_memory` takes from the gas exactly what is charged. -/
theorem checkMemory_paid {gas : Int} {m : Memory} {offset size : Word}
    (h : (checkMemory gas m offset size).1 = true) :
    gas - (checkMemory gas m offset size).2.1
      = (checkMemory gas m offset size).2.2.charged - m.charged :=
  (meteredCheck offset size).paid gas m h

/-- So does `check_memory` for a size known to be small. -/
theorem checkMemorySmall_paid {gas : Int} {m : Memory} {offset : Word} {size : Nat}
    (h : (checkMemorySmall gas m offset size).1 = true) :
    gas - (checkMemorySmall gas m offset size).2.1
      = (checkMemorySmall gas m offset size).2.2.charged - m.charged :=
  (meteredCheck_small offset size).paid gas m h

/-- An instruction that goes on after a memory check has paid for the growth. -/
theorem requireMemory_paid {c c' : Ctx} {offset size : Word}
    (h : requireMemory offset size c = .ret (.ok (), c')) :
    c.gasLeft - c'.gasLeft = c'.state.memory.charged - c.state.memory.charged :=
  require_paid (meteredCheck offset size) h

/-- So has one that goes on after a check of a small size. -/
theorem requireMemorySmall_paid {c c' : Ctx} {offset : Word} {size : Nat}
    (h : requireMemorySmall offset size c = .ret (.ok (), c')) :
    c.gasLeft - c'.gasLeft = c'.state.memory.charged - c.state.memory.charged :=
  require_paid (meteredCheck_small offset size) h

variable [Ethash] {σ : Type} {env : Env HostCall.Answer Fault σ} {code : Bytes} {msg : Message}
  {n : Nat} {s s' : σ}

omit [Ethash] in
/-- The answers of an environment whose calls give back at most the gas of the message. -/
theorem BoundedEnv.answers (henv : BoundedEnv env) (s : σ) (u : Unit) (q : HostCall) (r : q.Answer)
    (s' : σ) (_ : True) (_ : (Contract.answers Fault BoundedAnswer).pre u q)
    (h : env q s = .ok (r, s')) :
    ∃ u', (Contract.answers Fault BoundedAnswer).post u q r u' ∧ True := by
  refine ⟨(), ?_, trivial⟩
  cases q with
  | call m => exact henv h
  | _ => trivial

/-! ### The Baseline interpreter -/

namespace Baseline

variable {analysis : CodeAnalysis} {f : Frame}

/-- The funds of a frame that goes on or ends without a failure. -/
def Next.FundsLe (bound : Int) : Next → Prop
  | .cont f => funds f.gas f.state ≤ bound
  | .done gas st => ¬ st.status.IsFailure → funds gas st ≤ bound

/-- An instruction that goes on or ends without a failure pays the growth of the memory from the
gas. -/
theorem step_funds (henv : BoundedEnv env) {next : Next}
    (hrun : run env (step analysis f) s = .ok (next, s')) :
    next.FundsLe (funds f.gas f.state) := by
  rcases hbyte : analysis.executableCode[f.codeIt]? with _ | byte
  · unfold step at hrun
    rw [hbyte] at hrun
    cases hrun
  · have hrule := gasInvokeRule (neutral_boundedAnswer.mono fun _ _ => trivial)
      (fun _ _ _ => trivial) f.gas (fun _ _ _ => trivial) (fun _ _ _ hnonneg hr => hr hnonneg) f.state
    obtain ⟨_, -, hnext⟩ := run_wp (R := fun _ _ => True) henv.answers
      (wp_step_of_byte hbyte hrule) trivial hrun
    cases next with
    | cont f' => exact hnext.2.2
    | done gas st => exact hnext.2

/-- At every instruction of a run the growth of the memory has been paid from the gas of the
message. -/
theorem Passes.funds_le (henv : BoundedEnv env)
    (h : Passes env analysis (.start msg code) s n f s') : funds f.gas f.state ≤ msg.gas := by
  induction h with
  | start => exact (Int.add_zero msg.gas).le
  | next _ hstep ih => exact le_trans (step_funds henv hstep) ih

end Baseline

/-! ### The Advanced interpreter -/

namespace Advanced

variable {i : Nat} {st : AdvancedExecutionState} {instr : Instruction}

/-- An instruction that goes on or ends without a failure pays the growth of the memory from the
gas. -/
theorem Passes.exec_funds (henv : BoundedEnv env)
    (h : Passes env (analyze code) 0 (.start msg code) s n i st s') (hgas : 0 ≤ st.gasLeft)
    (hinstr : (analyze code).instrs[i]? = some instr) {x : Option Nat × AdvancedExecutionState}
    {s₁ : σ} (hrun : run env (instr.exec (analyze code) i st) s' = .ok (x, s₁)) :
    GoesOnWithin st.gasLeft st x := by
  have hblock := h.inBlock.2
  obtain ⟨_, -, hx⟩ := run_wp (R := fun _ _ => True) henv.answers
    (wp_exec (i := i) (hblock.implementation hinstr) (hblock.gasCost_nonneg hinstr)
      (hblock.pushValue hinstr) hgas) trivial hrun
  exact hx

/-- The gas counter is not negative at any instruction of a run. -/
theorem Passes.gasLeft_nonneg (henv : BoundedEnv env) (hgas : 0 ≤ msg.gas)
    (h : Passes env (analyze code) 0 (.start msg code) s n i st s') : 0 ≤ st.gasLeft := by
  induction h with
  | start => exact hgas
  | next hpasses hinstr hexec ih =>
    exact ((hpasses.exec_funds henv ih hinstr hexec).gas (.inl (Option.some_ne_none _))).1

/-- At every instruction of a run the growth of the memory has been paid from the gas of the
message. -/
theorem Passes.funds_le (henv : BoundedEnv env) (hgas : 0 ≤ msg.gas)
    (h : Passes env (analyze code) 0 (.start msg code) s n i st s') : st.funds ≤ msg.gas := by
  induction h with
  | start => exact (Int.add_zero msg.gas).le
  | next hpasses hinstr hexec ih =>
    have hx := hpasses.exec_funds henv (hpasses.gasLeft_nonneg henv hgas) hinstr hexec
    exact (hx.funds_le (.inl (Option.some_ne_none _))).trans ih

end Advanced

end Zvmone
