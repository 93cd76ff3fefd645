import Zvmone.Vm.BaselineSteps

/-! # Runs of the Baseline loop

`Passes` says which frames the loop passes through against a host, one instruction after the
other. What every instruction preserves holds of all of them (`Passes.invariant`). -/

namespace Zvmone

namespace Baseline

open Interaction

/-- The frame at the start of an execution. -/
def Frame.start (msg : Message) (code : Bytes) : Frame := ⟨0, .bottom, msg.gas, .init msg code⟩

/-- The frame satisfies `P` if it goes on. -/
def Next.Continues (P : Frame → Prop) : Next → Prop
  | .cont f => P f
  | .done _ _ => True

variable [Ethash] {σ : Type}

/-- `Passes env analysis f s n f' s'`: started at `f` with the host in the state `s`, the loop is
at `f'` with the host in `s'` after `n` instructions. -/
inductive Passes (env : Env HostCall.Answer Fault σ) (analysis : CodeAnalysis) (f : Frame) (s : σ) :
    Nat → Frame → σ → Prop
  | start : Passes env analysis f s 0 f s
  | next {n : Nat} {f₁ f₂ : Frame} {s₁ s₂ : σ} (h : Passes env analysis f s n f₁ s₁)
      (hstep : run env (step analysis f₁) s₁ = .ok (.cont f₂, s₂)) :
      Passes env analysis f s (n + 1) f₂ s₂

variable {env : Env HostCall.Answer Fault σ} {analysis : CodeAnalysis} {f f' : Frame} {s s' : σ}
  {n : Nat}

/-- What every instruction preserves holds of every frame the loop passes through. -/
theorem Passes.invariant {P : Frame → Prop} (h : Passes env analysis f s n f' s') (hstart : P f)
    (hstep : ∀ f, P f → (step analysis f).Returns (Next.Continues P)) : P f' := by
  induction h with
  | start => exact hstart
  | next _ hrun ih => exact (hstep _ ih).run hrun

/-- The loop is at one frame after every number of instructions. -/
theorem Passes.unique {f₁ f₂ : Frame} {s₁ s₂ : σ} (h : Passes env analysis f s n f₁ s₁)
    (h' : Passes env analysis f s n f₂ s₂) : f₁ = f₂ ∧ s₁ = s₂ := by
  induction h generalizing f₂ s₂ with
  | start =>
    cases h'
    exact ⟨rfl, rfl⟩
  | next _ hstep ih =>
    cases h' with
    | next h' hstep' =>
      obtain ⟨rfl, rfl⟩ := ih h'
      rw [hstep] at hstep'
      cases hstep'
      exact ⟨rfl, rfl⟩

/-- The frame and the host after `k` instructions of the loop, unless it has ended. -/
def after (env : Env HostCall.Answer Fault σ) (analysis : CodeAnalysis) :
    Nat → Frame → σ → Option (Frame × σ)
  | 0, f, s => some (f, s)
  | k + 1, f, s =>
    match run env (step analysis f) s with
    | .ok (.cont f', s') => after env analysis k f' s'
    | _ => none

/-- The frame computed after `n` steps is passed. -/
theorem passes_of_after (h : after env analysis n f s = some (f', s')) :
    Passes env analysis f s n f' s' := by
  have hloop : ∀ {j k f₁ s₁}, Passes env analysis f s j f₁ s₁ →
      after env analysis k f₁ s₁ = some (f', s') → Passes env analysis f s (j + k) f' s' := by
    intro j k f₁ s₁ hpasses hafter
    induction k generalizing j f₁ s₁ with
    | zero =>
      cases hafter
      exact hpasses
    | succ k ih =>
      unfold after at hafter
      split at hafter
      next f₂ s₂ hstep =>
        have hrest := ih (hpasses.next hstep) hafter
        rwa [Nat.add_assoc, Nat.add_comm 1 k] at hrest
      next => cases hafter
  have hpasses := hloop .start h
  rwa [Nat.zero_add] at hpasses

/-- An execution makes a result of the gas and the state at the end of the loop. -/
theorem run_execute (env : Env HostCall.Answer Fault σ) (fuel : Nat) (msg : Message) (code : Bytes)
    (s : σ) : run env (execute fuel msg code) s =
      match run env (Baseline.dispatch (analyze code) fuel (.start msg code)) s with
      | .error e => .error e
      | .ok ((gas, st), s') => .ok (st.result gas, s') := by
  unfold execute
  rw [run_bind]
  unfold Frame.start
  rcases run env (Baseline.dispatch (analyze code) fuel ⟨0, .bottom, msg.gas, .init msg code⟩) s with
    _ | ⟨⟨gas, st⟩, s'⟩ <;> rfl

/-! ### One instruction -/

/-- An instruction goes on only if it is defined and its requirements are met. -/
theorem step_returns {Q : Next → Prop}
    (hcont : ∀ byte op gas, analysis.executableCode[f.codeIt]? = some byte →
      Opcode.ofByte byte = some op →
      checkRequirements op f.gas f.stackTop = (.success, gas) →
      (invokeCore analysis op { f with gas }).Returns Q)
    (hdone : ∀ gas status, status.IsFailure → Q (.done gas { f.state with status })) :
    (step analysis f).Returns Q := by
  unfold step
  split
  next => trivial
  next byte hbyte =>
    split
    next op hop =>
      unfold invoke
      rcases checkRequirements_cases op f.gas f.stackTop with ⟨hok, _⟩ | ⟨status, gas, hfail, _, hstatus⟩
      · rw [hok]
        exact hcont byte op _ hbyte hop hok
      · rw [hfail]
        have hend := hdone gas status hstatus
        cases status with
        | success => exact absurd rfl hstatus.1
        | _ => exact hend
    next => exact hdone _ _ (by decide)

/-- Where the code position is after an instruction other than a position-dependent one. -/
theorem invokeCore_returns {op : Opcode} (hop : coreImpl op ≠ .pos) :
    (invokeCore analysis op f).Returns (Next.Continues fun f' =>
      f'.codeIt = f.codeIt + 1 ∧ ∀ m, coreImpl op ≠ .term m) := by
  unfold invokeCore
  rcases hcore : coreImpl op with fn | fn | m | m | _
  · exact ⟨rfl, fun _ h => by cases h⟩
  · exact .bind fun _ => ⟨rfl, fun _ h => by cases h⟩
  · refine .bind ?_
    rintro ⟨_ | _, c⟩
    · trivial
    · exact ⟨rfl, fun _ h => by cases h⟩
  · refine .bind ?_
    rintro ⟨_ | _, c⟩ <;> trivial
  · exact absurd hcore hop

end Baseline

end Zvmone
