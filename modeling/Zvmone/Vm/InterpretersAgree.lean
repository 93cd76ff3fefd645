import Zvmone.Vm.StepSimulation
import Zvmone.Vm.ReturnBuffer

/-! # The interpreters agree

The simulation over whole executions. It starts where the first block begins and follows both loops
until one of them ends, and the results are compared. -/

namespace Zvmone

open Interaction InstrM Instr Zvmone.Core

namespace Advanced

open Baseline (Next InCode Frame)

variable {code : Bytes} {f : Frame} {i k : Nat} {block : BlockAnalysis} {items : List Item}
  {st : AdvancedExecutionState}

/-- Where the frames match, the rest of the block has been paid for. -/
theorem Matches.gasLeft_nonneg (h : Matches code f i k block items st)
    (hlimit : f.stackTop.top ≤ stackLimit) (hnonneg : 0 ≤ f.gas) : 0 ≤ st.gasLeft := by
  have hcost := ((checkEach_iff hnonneg hlimit).1 h.checked).1
  rw [h.gas]
  omega

variable [Ethash]

/-- The loops. -/
theorem sim_loop (hlen : code.length ≤ 0xC000) {n m : Nat} (hcode : InCode code f.codeIt)
    (hlimit : f.stackTop.top ≤ stackLimit) (hnonneg : 0 ≤ f.gas)
    (h : Matches code f i k block items st) (hblock : InBlock code st i) (hn : f.gas.toNat < n)
    (hm : rank code i st.gasLeft < m) :
    Sim BoundedAnswer (fun x => x.2.status.IsFailure) (fun st' => st'.base.status.IsFailure)
      (fun x st' => EndsAlike x.1 x.2 st') (Baseline.dispatch (Baseline.analyze code) n f)
      (loop (analyze code) m i st) := by
  induction n generalizing f i k block items st m with
  | zero => omega
  | succ n ih =>
    obtain ⟨m, rfl⟩ : ∃ m', m = m' + 1 := ⟨m - 1, by omega⟩
    obtain ⟨instr, hinstr⟩ := hblock.fetch
    -- Both measures fall, so that the induction may be on the fuel of Baseline alone.
    have hspent : wp (.answers Fault BoundedAnswer) (Baseline.step (Baseline.analyze code) f) ()
        fun next _ => next.Continues fun f' => InCode code f'.codeIt ∧ 0 ≤ f'.gas ∧ f'.gas < f.gas :=
      wp_weaken (Baseline.wp_step_spending hcode le_rfl) (fun _ _ => trivial) (fun _ _ hr => hr)
        fun _ he => he
    have hheight := wp_returns hspent (Baseline.step_height hlimit)
    have hrank := wp_exec_rank hblock (h.stack ▸ hlimit) (h.gasLeft_nonneg hlimit hnonneg) hinstr
    unfold Baseline.dispatch loop
    rw [hinstr]
    refine ((sim_step hlen hcode hlimit hnonneg h hinstr).and_wp hheight hrank).bind ?_ ?_ ?_
    · rintro _ _ ⟨hsteps, hbaseline, hadvanced⟩
      cases hsteps with
      | cont h' =>
        obtain ⟨⟨hcode', hnonneg', hlt⟩, hlimit'⟩ := hbaseline
        obtain ⟨-, hblock', -, hlt'⟩ := hadvanced
        exact ih hcode' hlimit' hnonneg' h' hblock' (by omega) (by omega)
      | done h' => exact .ret h'
    -- Advanced has given up on the block: Baseline ends with a failure.
    · rintro (f' | ⟨gas, state⟩) ⟨hunpaid, hbaseline⟩
      · obtain ⟨⟨hcode', hnonneg', hlt⟩, hlimit'⟩ := hbaseline
        exact Baseline.wp_dispatch_doomed ⟨hcode', hnonneg', hlimit', hunpaid⟩ (by omega)
      · exact hunpaid
    · rintro ⟨_, st'⟩ ⟨⟨rfl, hfail⟩, -⟩
      exact ⟨st', rfl, hfail⟩

/-- The executions. -/
theorem sim_execute (hlen : code.length ≤ 0xC000) {msg : Message} (hgas : 0 ≤ msg.gas) {n m : Nat}
    (hn : msg.gas.toNat < n) (hm : rank code 0 msg.gas < m) :
    Sim BoundedAnswer (fun x => x.2.status.IsFailure) (fun st' => st'.base.status.IsFailure)
      (fun x st' => EndsAlike x.1 x.2 st')
      (Baseline.dispatch (Baseline.analyze code) n (.start msg code))
      (loop (analyze code) m 0 (.start msg code)) := by
  obtain ⟨m, rfl⟩ : ∃ m', m = m' + 1 := ⟨m - 1, by omega⟩
  have hlimit : (Frame.start msg code).stackTop.top ≤ stackLimit := Nat.zero_le _
  have hinstr := instrs_zero code
  rw [allItems, summary_decode (m := code.length) (by omega) (by omega), close_addAll,
    ← restOfBlock] at hinstr
  let st : AdvancedExecutionState := .start msg code
  have hgas' : 0 ≤ st.gasLeft := hgas
  have hrank := wp_exec_rank .entry hlimit hgas' hinstr
  -- The first block begins before the first instruction of the code.
  have hstack : st.stack = (Frame.start msg code).stackTop := rfl
  have hbegin := steps_begin hlen hlimit hgas (pointsTo_one code) ⟨code.length, rfl, by omega⟩ hstack
    rfl rfl
  have hexec : Instruction.exec (analyze code)
      { fn := .opxBeginblock, arg := .block (blockInfo (restOfBlock code 0)) } 0 (.start msg code) =
        .ret (opxBeginblock (.block (blockInfo (restOfBlock code 0))) 0 (.start msg code)) := rfl
  have hnext : Continues _ (opxBeginblock (.block (blockInfo (restOfBlock code 0))) 0
    (.start msg code)) := hrank.2
  rw [show (Frame.start msg code).codeIt = 0 from rfl] at hbegin
  unfold loop
  rw [hinstr]
  dsimp only
  rw [hexec, ret_bind]
  generalize opxBeginblock (.block (blockInfo (restOfBlock code 0))) 0 (.start msg code) = x
    at hbegin hnext ⊢
  rcases hbegin with ⟨st', rfl, hmatches⟩ | ⟨hunpaid, hfail⟩
  · obtain ⟨hblock, -, hlt⟩ := hnext
    have hlt : rank code (0 + 1) st'.gasLeft < rank code 0 msg.gas := hlt
    exact sim_loop hlen (Baseline.inCode_zero code) hlimit hgas hmatches hblock hn (by omega)
  · obtain ⟨_, st'⟩ := x
    obtain ⟨rfl, hfail⟩ := hfail
    exact .early (Baseline.wp_dispatch_doomed ⟨Baseline.inCode_zero code, hgas, hlimit, hunpaid⟩ hn)
      hfail

end Advanced

/-- A failed execution leaves no gas and no refund. -/
theorem result_failure {st : ExecutionState} (h : st.status.IsFailure) (gas : Int) :
    (st.result gas).gasLeft = 0 ∧ (st.result gas).gasRefund = 0 := by
  obtain ⟨hsuccess, hrevert⟩ := h
  unfold ExecutionState.result
  simp [hsuccess, hrevert]

/-- The interpreters agree. Against a host whose calls give back at most the gas of the message, and
with enough fuel, both succeed or both revert, with the same result and the same host calls, or both
fail and leave nothing. -/
theorem interpreters_agree [Ethash] {σ : Type} (env : TotalEnv HostCall.Answer σ)
    (henv : ∀ q s, BoundedAnswer q (env q s).1) {code : Bytes} (hlen : code.length ≤ 0xC000)
    {msg : Message} (hgas : 0 ≤ msg.gas) (s : σ) :
    ∃ fuel, ∀ n m, fuel ≤ n → fuel ≤ m → ∃ r s₁ calls r' s₂ calls',
      run (recording env.toEnv) (Baseline.execute n msg code) (s, []) = .ok (r, (s₁, calls)) ∧
      run (recording env.toEnv) (Advanced.execute m msg code) (s, []) = .ok (r', (s₂, calls')) ∧
      ((r.statusCode = .success ∨ r.statusCode = .revert) ∧ r' = r ∧ s₂ = s₁ ∧ calls' = calls ∨
        ∀ x ∈ [r, r'], x.statusCode.IsFailure ∧ x.gasLeft = 0 ∧ x.gasRefund = 0 ∧
          x.outputData = []) := by
  refine ⟨max msg.gas.toNat (Advanced.rank code 0 msg.gas) + 1, fun n m hn hm => ?_⟩
  have hsim := @Advanced.sim_execute code _ hlen msg hgas n m (by omega) (by omega)
  -- Recording the calls makes a total environment of a total one.
  let recorder : TotalEnv HostCall.Answer (σ × List HostCall) :=
    fun q s => ((env q s.1).1, ((env q s.1).2, q :: s.2))
  have hanswers : ∀ q s, BoundedAnswer q (recorder q s).1 := fun q s => henv q s.1
  obtain ⟨⟨gas, state⟩, ⟨s₁, calls⟩, st, ⟨s₂, calls'⟩, hrun, hrun', hends⟩ :=
    run_sim hanswers hsim (s, [])
  have hbaseline : run recorder.toEnv (Baseline.execute n msg code) (s, []) =
      .ok (state.result gas, (s₁, calls)) := by
    rw [Baseline.run_execute, hrun]
  have hadvanced : run recorder.toEnv (Advanced.execute m msg code) (s, []) =
      .ok (st.base.result st.gasLeft, (s₂, calls')) := by
    rw [Advanced.run_execute, hrun']
  refine ⟨_, s₁, calls, _, s₂, calls', hbaseline, hadvanced, ?_⟩
  have hfailed : state.status.IsFailure → st.base.status.IsFailure →
      ∀ x ∈ [state.result gas, st.base.result st.gasLeft],
        x.statusCode.IsFailure ∧ x.gasLeft = 0 ∧ x.gasRefund = 0 ∧ x.outputData = [] := by
    intro hstate hst x hx
    have hout := (Baseline.execute_failed_output n msg code).run hbaseline hstate
    have hout' := (Advanced.execute_failed_output m msg code).run hadvanced hst
    rcases List.mem_pair.1 hx with rfl | rfl
    · exact ⟨hstate, (result_failure hstate gas).1, (result_failure hstate gas).2, hout⟩
    · exact ⟨hst, (result_failure hst _).1, (result_failure hst _).2, hout'⟩
  rcases hends with ⟨⟨hstate, hst⟩ | ⟨rfl, rfl⟩, hhost⟩ | ⟨hstate, hst⟩
  · exact .inr (hfailed hstate hst)
  · by_cases hstate : st.base.status.IsFailure
    · exact .inr (hfailed hstate hstate)
    · obtain ⟨rfl, rfl⟩ := Prod.mk.inj hhost
      exact .inl ⟨Decidable.or_iff_not_not_and_not.2 hstate, rfl, rfl, rfl⟩
  · exact .inr (hfailed hstate hst)

/-- A host without accounts that lets every callee use half of its gas. -/
def blankHost : TotalEnv HostCall.Answer Unit
  | .accountExists _, s => (false, s)
  | .getStorage _ _, s => (0, s)
  | .setStorage _ _ _, s => (.added, s)
  | .getBalance _, s => (0, s)
  | .getCodeSize _, s => (0, s)
  | .getCodeHash _, s => (0, s)
  | .copyCode _ _ _, s => ([], s)
  | .call msg, s => ({ statusCode := .success, gasLeft := msg.gas / 2 }, s)
  | .getTxContext, s => ({}, s)
  | .getBlockHash _, s => (0, s)
  | .emitLog _ _ _, s => ((), s)
  | .accessAccount _, s => (.cold, s)
  | .accessStorage _ _, s => (.cold, s)

/-- The gas that is left goes to a storage slot. -/
theorem interpreters_agree_storedGas :
    let _ : Ethash := ⟨fun _ => 0⟩
    let code : Bytes := [0x5a, 0x60, 0x00, 0x55, 0x00]
    let msg : Message := { gas := 100000 }
    ∃ fuel, ∀ n m, fuel ≤ n → fuel ≤ m → ∃ r s₁ calls r' s₂ calls',
      run (recording blankHost.toEnv) (Baseline.execute n msg code) ((), []) =
        .ok (r, (s₁, calls)) ∧
      run (recording blankHost.toEnv) (Advanced.execute m msg code) ((), []) =
        .ok (r', (s₂, calls')) ∧
      ((r.statusCode = .success ∨ r.statusCode = .revert) ∧ r' = r ∧ s₂ = s₁ ∧ calls' = calls ∨
        ∀ x ∈ [r, r'], x.statusCode.IsFailure ∧ x.gasLeft = 0 ∧ x.gasRefund = 0 ∧
          x.outputData = []) := by
  intro _ code msg
  -- The blank host gives half of the gas back, which is within bounds.
  have hanswers : ∀ q s, BoundedAnswer q (blankHost q s).1 := by
    intro q s
    cases q with
    | call msg =>
      intro hgas
      refine ⟨?_, ?_⟩
      · show 0 ≤ msg.gas / 2
        omega
      · show msg.gas / 2 ≤ msg.gas
        omega
    | _ => trivial
  have hlen : code.length ≤ 0xC000 := by decide
  have hgas : 0 ≤ msg.gas := by decide
  exact interpreters_agree blankHost hanswers hlen hgas ()

end Zvmone
