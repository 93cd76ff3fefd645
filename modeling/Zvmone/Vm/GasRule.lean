import Zvmone.Vm.BaselineSteps

/-! # The gas of one instruction

Every instruction that does not end a frame uses gas, whatever a nested message gives back of its
own gas (`Baseline.gasInvokeRule`). -/

namespace Zvmone

open Interaction InstrM Instr Zvmone.Core

/-- The result of a message gives back at most the gas of the message. -/
def CallResult.IsBounded (r : CallResult) (m : Message) : Prop := 0 ≤ r.gasLeft ∧ r.gasLeft ≤ m.gas

/-- Calls give back at most the gas of the message. -/
def BoundedEnv {σ : Type} (env : Env HostCall.Answer Fault σ) : Prop :=
  ∀ {m : Message} {s s' : σ} {r : CallResult},
    env (.call m) s = .ok (r, s') → 0 ≤ m.gas → r.IsBounded m

/-- The gas side of the host interface: messages are sent with gas that is not negative, and their
results are bounded. -/
def gasContract : Contract HostCall.Answer Fault Unit where
  pre
    | _, .call m => 0 ≤ m.gas
    | _, _ => True
  post
    | _, .call m, r, _ => CallResult.IsBounded r m
    | _, _, _, _ => True

/-- The gas contract relies on no answer to an ordinary query. -/
theorem gasContract_neutral : gasContract.Neutral () HostCall.IsOrdinaryOrLog :=
  ⟨fun q hq => by cases q <;> first | exact hq.elim | trivial, fun _ _ _ _ _ => rfl⟩

section

variable {l : CallLocals} {c : Ctx} {r : CallResult}

/-- The stipend is not negative. -/
theorem stipend_nonneg (l : CallLocals) : 0 ≤ stipend l := by
  unfold stipend
  split <;> decide

/-- The stipend is paid by the price of the value. -/
theorem stipend_le_valueCost (l : CallLocals) : stipend l ≤ l.valueCost := by
  unfold stipend CallLocals.valueCost
  split <;> decide

/-- A call instruction passes on at most 63/64 of its gas. -/
theorem passedGas_bounds (l : CallLocals) {g : Int} (hg : 0 ≤ g) :
    0 ≤ passedGas l g ∧ passedGas l g ≤ g - g / 64 := by
  unfold passedGas int64Max
  omega

/-- After a call instruction at least 1/64 of the gas is left, and at most the stipend is gained. -/
theorem afterCall_bounds (hg : 0 ≤ c.gasLeft)
    (hr : r.IsBounded (callMessage l c.gasLeft)) :
    c.gasLeft / 64 ≤ (afterCall l c r).gasLeft ∧
      (afterCall l c r).gasLeft ≤ c.gasLeft + stipend l := by
  have hpassed := passedGas_bounds l hg
  obtain ⟨hnonneg, hle⟩ := hr
  simp only [callMessage, afterCall] at hle ⊢
  omega

/-- After a create instruction at least 1/64 of the gas is left. -/
theorem afterCreate_bounds {op : CreateOp} {l : CreateLocals}
    (hr : r.IsBounded (createMessage op l c)) :
    c.gasLeft / 64 ≤ (afterCreate op l c r).gasLeft ∧
      (afterCreate op l c r).gasLeft ≤ c.gasLeft := by
  obtain ⟨hnonneg, hle⟩ := hr
  simp only [createMessage, afterCreate] at hle ⊢
  omega

/-- A frame ends with gas that it had, and unless it failed the gas is not negative. -/
def EndsWithin (gas gas' : Int) (st : ExecutionState) : Prop :=
  gas' ≤ gas ∧ (¬ st.status.IsFailure → 0 ≤ gas')

/-- After a call instruction the growth of the memory is still paid: the stipend is part of the price
of the value, and the output is written within the memory. -/
theorem afterCall_funds_le (hg : 0 ≤ c.gasLeft) (hr : r.IsBounded (callMessage l c.gasLeft)) :
    funds (afterCall l c r).gasLeft (afterCall l c r).state ≤ c.funds + l.valueCost := by
  have hafter := (afterCall_bounds hg hr).2
  have hstipend := stipend_le_valueCost l
  have hcharged : (afterCall l c r).state.memory.charged = c.state.memory.charged :=
    charged_memoryAfterCall l c.state.memory r
  rw [Ctx.funds, funds, funds, hcharged]
  omega

/-- After a create instruction the growth of the memory is still paid. -/
theorem afterCreate_funds_le {op : CreateOp} {l : CreateLocals}
    (hr : r.IsBounded (createMessage op l c)) :
    funds (afterCreate op l c r).gasLeft (afterCreate op l c r).state ≤ c.funds := by
  have hafter := (afterCreate_bounds hr).2
  have hcharged : (afterCreate op l c r).state.memory.charged = c.state.memory.charged := rfl
  rw [Ctx.funds, funds, funds, hcharged]
  omega

/-- An instruction uses gas, from which the growth of the memory is paid, and the messages it sends
have less gas than the frame. -/
theorem Baseline.gasInvokeRule {C : Contract HostCall.Answer Fault Unit}
    (hC : C.Neutral () HostCall.IsOrdinaryOrLog)
    (hset : ∀ addr key value, C.pre () (.setStorage addr key value)) (gas : Int)
    (hsend : ∀ m : Message, 0 ≤ m.gas → m.gas < gas → C.pre () (.call m))
    (hresult : ∀ (m : Message) r g', 0 ≤ m.gas → C.post () (.call m) r g' →
      CallResult.IsBounded r m)
    (st : ExecutionState) :
    InvokeRule C (fun gas' st' _ => 0 ≤ gas' ∧ gas' < gas ∧ funds gas' st' ≤ funds gas st)
      (fun gas' st' _ => EndsWithin gas gas' st' ∧
        (¬ st'.status.IsFailure → funds gas' st' ≤ funds gas st)) gas st () where
  neutral := hC.mono fun q hq => by cases q <;> trivial
  log _ := hC
  cont _ hnonneg hlt hfunds := ⟨hnonneg, hlt, hfunds⟩
  fail _ hle hstatus := ⟨⟨hle, fun h => absurd hstatus h⟩, fun h => absurd hstatus h⟩
  halt _ hnonneg hle hfunds _ := ⟨⟨hle, fun _ => hnonneg⟩, fun _ => hfunds⟩
  sstore _ access key value := by
    refine ⟨hset _ _ _, fun status _ _ => ?_⟩
    have hprice := sstorePrice_pos access status
    -- A write without enough gas fails, any other one goes on with less.
    split
    · exact ⟨⟨by omega, fun h => absurd ⟨nofun, nofun⟩ h⟩, fun h => absurd ⟨nofun, nofun⟩ h⟩
    · exact ⟨by omega, by omega, by unfold funds; dsimp only; omega⟩
  call {op l c} _ _ hnonneg hlt hfunds _ := by
    have hpassed := passedGas_bounds l hnonneg
    have hstipend := stipend_nonneg l
    have hcost := stipend_le_valueCost l
    -- The stipend is less than the charge for the value, so the message has less gas than the frame.
    have hgas : 0 ≤ (callMessage l c.gasLeft).gas ∧ (callMessage l c.gasLeft).gas < gas := by
      simp only [callMessage]
      omega
    refine ⟨hsend _ hgas.1 hgas.2, fun r g' hr => ?_⟩
    have hr := hresult _ r g' hgas.1 hr
    have hafter := afterCall_bounds hnonneg hr
    have hpaid := afterCall_funds_le hnonneg hr
    exact ⟨by omega, by omega, by omega⟩
  create {op l c} _ _ hnonneg hlt hfunds _ := by
    have hgas : 0 ≤ (createMessage op l c).gas ∧ (createMessage op l c).gas < gas := by
      simp only [createMessage]
      omega
    refine ⟨hsend _ hgas.1 hgas.2, fun r g' hr => ?_⟩
    have hr := hresult _ r g' hgas.1 hr
    have hafter := afterCreate_bounds hr
    have hpaid := afterCreate_funds_le hr
    exact ⟨by omega, by omega, by omega⟩

end

end Zvmone
