import Zvmone.Vm.MemoryBounds

/-! # A reused execution state behaves like a new one

The executions that take the execution state as an argument, and keep its stack space and its memory
allocation. After `reset` nothing that is left in them from earlier executions can be observed: an
execution on such a state asks the host the same and returns the same as an execution on a new
state. -/

namespace Zvmone

open Interaction

variable [Ethash]

/-- `baseline::execute` on an execution state with a stack space. -/
def Baseline.executeOn (fuel : Nat) (gas : Int) (state : ExecutionState) (space : StackTop)
    (analysis : CodeAnalysis) : HostM CallResult := do
  let (gas, state) ← dispatch analysis fuel ⟨0, space.reset, gas, state⟩
  return state.result gas

/-- `advanced::execute` on an execution state. -/
def Advanced.executeOn (fuel : Nat) (state : AdvancedExecutionState)
    (analysis : AdvancedCodeAnalysis) : HostM CallResult := do
  let state ← loop analysis fuel 0 state
  return state.base.result state.gasLeft

omit [Ethash] in
/-- After `reset` a state is like a new one. -/
theorem ExecutionState.alike_reset (old : ExecutionState) (msg : Message) (code : Bytes) :
    (ExecutionState.init msg code).Alike (old.reset msg code) :=
  ⟨⟨rfl, fun _ hj => absurd hj (Nat.not_lt_zero _)⟩, rfl⟩

omit [Ethash] in
/-- A reset stack cannot be told from a new one. -/
theorem StackTop.alike_reset (space : StackTop) : StackTop.bottom.Alike space.reset :=
  ⟨rfl, rfl, fun _ hi => absurd hi (Nat.not_lt_zero _)⟩

/-! ### The Baseline interpreter -/

namespace Baseline

variable {analysis : CodeAnalysis} {f f' : Frame}

/-- The loop does the same from frames that are alike. -/
theorem dispatch_alike (n : Nat) (h : f.Alike f') (hlimit : f.stackTop.top ≤ stackLimit)
    (houtput : f.state.OutputInBounds) :
    Lockstep (fun x x' => x'.1 = x.1 ∧ x.2.Alike x'.2 ∧ x.2.OutputInBounds) (dispatch analysis n f)
      (dispatch analysis n f') := by
  induction n generalizing f f' with
  | zero => exact .fail
  | succ n ih =>
    refine ((step_alike h hlimit).and_returns (step_height hlimit)).bind ?_
    rintro next next' ⟨⟨halike, hgrows⟩, hheight⟩
    cases halike with
    | cont hg => exact ih hg hheight (hgrows.output houtput)
    | done hst => exact .ret ⟨rfl, hst, hgrows.output houtput⟩

/-- An execution on a state that was reset is in lockstep with one on a new state. -/
theorem executeOn_reset (fuel : Nat) (old : ExecutionState) (space : StackTop) (msg : Message)
    (code : Bytes) :
    Lockstep (· = ·) (execute fuel msg code)
      (executeOn fuel msg.gas (old.reset msg code) space (analyze code)) := by
  have halike : Frame.Alike (.start msg code) ⟨0, space.reset, msg.gas, old.reset msg code⟩ :=
    ⟨rfl, space.alike_reset, rfl, old.alike_reset msg code⟩
  refine (dispatch_alike fuel halike (Nat.zero_le _) (Nat.zero_le _)).bind ?_
  rintro ⟨gas, st⟩ ⟨gas', st'⟩ ⟨hgas, hst, houtput⟩
  have hgas : gas' = gas := hgas
  subst hgas
  exact .ret (hst.result houtput _).symm

end Baseline

/-! ### The Advanced interpreter -/

namespace Advanced

variable {code : Bytes} {i : Nat} {st st' : AdvancedExecutionState}

/-- The loop does the same from states that are alike. -/
theorem loop_alike (n : Nat) (h : st.Alike st') (hblock : InBlock code st i)
    (hlimit : st.stack.top ≤ stackLimit) (houtput : st.base.OutputInBounds) :
    Lockstep (fun x x' => x'.gasLeft = x.gasLeft ∧ x.base.Alike x'.base ∧ x.base.OutputInBounds)
      (loop (analyze code) n i st) (loop (analyze code) n i st') := by
  induction n generalizing i st st' with
  | zero => exact .fail
  | succ n ih =>
    unfold loop
    split
    next => exact .fail
    next instr hinstr =>
      refine ((exec_alike h hblock hlimit hinstr).and_returns (hblock.step hlimit hinstr)).bind ?_
      rintro ⟨next, st₁⟩ ⟨next', st₁'⟩ ⟨⟨halike, hgrows⟩, hcontinues⟩
      obtain rfl : next' = next := halike.next
      cases next' with
      | none => exact .ret ⟨halike.gas, halike.base, hgrows.output houtput⟩
      | some i' =>
        exact ih (halike.state (Option.some_ne_none i')) hcontinues.2 hcontinues.1
          (hgrows.output houtput)

/-- An execution on a state that was reset is in lockstep with one on a new state. -/
theorem executeOn_reset (fuel : Nat) (old : AdvancedExecutionState) (msg : Message) (code : Bytes) :
    Lockstep (· = ·) (execute fuel msg code)
      (executeOn fuel (old.reset msg code) (analyze code)) := by
  have halike : AdvancedExecutionState.Alike (.start msg code) (old.reset msg code) :=
    ⟨old.stack.alike_reset, rfl, rfl, old.base.alike_reset msg code⟩
  refine (loop_alike fuel halike .entry (Nat.zero_le _) (Nat.zero_le _)).bind ?_
  rintro st st' ⟨hgas, hbase, houtput⟩
  refine .ret ?_
  rw [hgas]
  exact (hbase.result houtput st.gasLeft).symm

end Advanced

/-! ### Both interpreters -/

/-- A reused execution state behaves like a new one. Whatever is left in the state and in the stack
space, after `reset` an execution against any host returns the same result, asks the host the same in
the same order, and leaves it in the same state as an execution on a new state. What a new state has
in its allocations makes no difference either, since it is like a state that was reset. -/
theorem reuse_unobservable {σ : Type} (env : Env HostCall.Answer Fault σ) (s : σ) (fuel : Nat)
    (msg : Message) (code : Bytes) :
    (∀ (old : ExecutionState) (space : StackTop),
      run (recording env) (Baseline.executeOn fuel msg.gas (old.reset msg code) space
          (Baseline.analyze code)) (s, []) =
        run (recording env) (Baseline.execute fuel msg code) (s, [])) ∧
      ∀ old : Advanced.AdvancedExecutionState,
        run (recording env) (Advanced.executeOn fuel (old.reset msg code) (Advanced.analyze code))
            (s, []) =
          run (recording env) (Advanced.execute fuel msg code) (s, []) := by
  have hsame : ∀ {p p' : HostM CallResult}, Lockstep (· = ·) p p' →
      run (recording env) p' (s, []) = run (recording env) p (s, []) := by
    intro p p' h
    obtain ⟨e, hp, hp'⟩ | ⟨r, _, s', hp, hp', rfl⟩ := h.run (recording env) (s, [])
    · rw [hp, hp']
    · rw [hp, hp']
  exact ⟨fun old space => hsame (Baseline.executeOn_reset fuel old space msg code),
    fun old => hsame (Advanced.executeOn_reset fuel old msg code)⟩

end Zvmone
