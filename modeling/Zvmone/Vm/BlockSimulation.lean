import Zvmone.Vm.DoomedFrames

/-! # Blocks of both interpreters

A simulation between the loops. At the same instruction of the code the Advanced interpreter has
already charged the rest of the block, so that its gas counter is the one of the Baseline interpreter
less the cost of what is left. The instructions inside of a block keep this difference, and the ones
that need the exact gas undo it for their own duration. -/

namespace Zvmone

open Interaction InstrM Instr Zvmone.Core

/-- The height after a push. -/
theorem StackTop.after_push (s : StackTop) (v : Word) : s.after (s.push v) 1 = s.push v := rfl

/-- The height after some items are dropped. -/
theorem StackTop.after_drop (s : StackTop) {change : Int} {n : Nat} (h : change = -n) :
    s.after s change = ⟨s.slots, s.top - n⟩ := by
  rw [StackTop.after, h]
  congr 1
  omega

/-- The position instructions are not metered. -/
theorem Core.isSpecial_of_pos [Ethash] {op : Opcode} (h : coreImpl op = .pos) : IsSpecial op := by
  cases op with
  | jump | jumpi | pc | push _ => trivial
  | _ => cases h

namespace Advanced

open Baseline (Next immediateSize checkRequirements InCode Frame)

/-! ### The simulation relation -/

/-- The loops are at the same instruction of the code, with the same stack and state. The Advanced
interpreter has already charged the rest of the block, which the Baseline interpreter can pay for. -/
structure Matches (code : Bytes) (f : Baseline.Frame) (i k : Nat) (block : BlockAnalysis)
    (items : List Item) (st : AdvancedExecutionState) : Prop where
  point : PointsTo code i k block items
  items : ∃ n, items = decode code n f.codeIt ∧ code.length ≤ f.codeIt + n
  stack : st.stack = f.stackTop
  base : st.base = f.state
  gas : st.gasLeft = f.gas - baseCost (restOfBlock code f.codeIt)
  cost : restOfBlock code f.codeIt ≠ [] →
    st.currentBlockCost = block.gasCost + baseCost (restOfBlock code f.codeIt)
  checked : checkEach (restOfBlock code f.codeIt) f.gas f.stackTop = .success

/-- The executions end in the same way: both fail, or with the same state and gas. -/
def EndsAlike (gas : Int) (state : ExecutionState) (st : AdvancedExecutionState) : Prop :=
  state.status.IsFailure ∧ st.base.status.IsFailure ∨ st.base = state ∧ st.gasLeft = gas

/-- What one instruction of both interpreters leads to. -/
inductive Steps (code : Bytes) : Next → Option Nat × AdvancedExecutionState → Prop
  | cont {f : Baseline.Frame} {i k : Nat} {block : BlockAnalysis} {items : List Item}
      {st : AdvancedExecutionState} (h : Matches code f i k block items st) :
      Steps code (.cont f) (some i, st)
  | done {gas : Int} {state : ExecutionState} {st : AdvancedExecutionState}
      (h : EndsAlike gas state st) : Steps code (.done gas state) (none, st)

/-- The rest of the block cannot be paid for. -/
def Unpaid (code : Bytes) : Next → Prop
  | .cont f => checkEach (restOfBlock code f.codeIt) f.gas f.stackTop ≠ .success
  | .done _ state => state.status.IsFailure

/-- The execution has ended with a failure. -/
def GaveUp (x : Option Nat × AdvancedExecutionState) : Prop :=
  x.1 = none ∧ x.2.base.status.IsFailure

/-- One instruction of both interpreters. -/
abbrev StepSim (code : Bytes) (p : HostM Next) (p' : HostM (Option Nat × AdvancedExecutionState)) :
    Prop :=
  Sim BoundedAnswer (Unpaid code) GaveUp (Steps code) p p'

/-- The next instruction of both interpreters is the opcode `op` inside of a block. -/
structure AtOpcode (code : Bytes) (f : Frame) (i k : Nat) (block : BlockAnalysis) (opcode : UInt8)
    (items : List Item) (st : AdvancedExecutionState) (op : Opcode) : Prop where
  matched : Matches code f i k block ((f.codeIt, opcode) :: items) st
  op : Opcode.ofByte opcode = some op
  notJumpdest : opcode ≠ 0x5b
  limit : f.stackTop.top ≤ stackLimit
  nonneg : 0 ≤ f.gas

namespace AtOpcode

variable {code : Bytes} {f : Frame} {i k : Nat} {block : BlockAnalysis} {opcode : UInt8}
  {items : List Item} {st : AdvancedExecutionState} {op : Opcode}

/-- What the core implementation works on in the Baseline interpreter. -/
abbrev ctx (f : Frame) (op : Opcode) : Ctx := ⟨f.stackTop, f.gas - gasCosts op, f.state⟩

/-- The cost of the instructions of the block behind the next one. -/
abbrev behind (code : Bytes) (f : Frame) (opcode : UInt8) : Int :=
  baseCost (opcodesBehind code f.codeIt opcode)

/-- The rest of the block begins with the opcode. -/
theorem rest (h : AtOpcode code f i k block opcode items st op) :
    restOfBlock code f.codeIt = opcode :: opcodesBehind code f.codeIt opcode :=
  restOfBlock_eq h.matched.point.byte h.notJumpdest

/-- The opcode passes its check, and so do those behind it. -/
theorem checked (h : AtOpcode code f i k block opcode items st op) :
    checkRequirements op f.gas f.stackTop = (.success, f.gas - gasCosts op) ∧
      checkEach (opcodesBehind code f.codeIt opcode) (f.gas - gasCosts op)
        (f.stackTop.after f.stackTop (traits op).stackHeightChange) = .success := by
  have hchecked := h.matched.checked
  rw [h.rest] at hchecked
  exact (checkEach_cons_iff h.op).1 hchecked

/-- The stack fits the opcode. -/
theorem fits (h : AtOpcode code f i k block opcode items st op) : f.stackTop.Fits op :=
  Baseline.fits_of_checked h.limit h.checked.1

/-- The base cost of the rest of the block. -/
theorem baseCost_rest (h : AtOpcode code f i k block opcode items st op) :
    baseCost (restOfBlock code f.codeIt) = gasCosts op + behind code f opcode := by
  rw [h.rest, baseCost, opcodeCost, h.op]
  rfl

/-- The gas counters differ by the cost of the instructions behind the next one. -/
theorem gas (h : AtOpcode code f i k block opcode items st op) :
    st.gasLeft = f.gas - gasCosts op - behind code f opcode := by
  have hgas := h.matched.gas
  rw [h.baseCost_rest] at hgas
  omega

/-- The height after the opcode is within the limit. -/
theorem height_limit (h : AtOpcode code f i k block opcode items st op) (s : StackTop) :
    (f.stackTop.after s (traits op).stackHeightChange).top ≤ stackLimit := by
  have hlimit := h.fits.limit
  show ((f.stackTop.top : Int) + (traits op).stackHeightChange).toNat ≤ 1024
  omega

/-- The opcode and those behind it are paid for. -/
theorem paid (h : AtOpcode code f i k block opcode items st op) :
    0 ≤ f.gas - gasCosts op ∧ behind code f opcode ≤ f.gas - gasCosts op := by
  have hnonneg : 0 ≤ f.gas - gasCosts op := by
    rcases Baseline.checkRequirements_cases op f.gas f.stackTop with
      ⟨-, hpaid⟩ | ⟨status, gas', hfail, -, hstatus⟩
    · exact hpaid
    · rw [h.checked.1] at hfail
      cases hfail
      exact absurd rfl hstatus.1
  exact ⟨hnonneg, ((checkEach_iff hnonneg (h.height_limit f.stackTop)).1 h.checked.2).1⟩

/-- Behind the next instruction only the gas matters. -/
theorem check_iff (h : AtOpcode code f i k block opcode items st op) (s : StackTop) {gas' : Int}
    (hnonneg : 0 ≤ gas') (hle : gas' ≤ f.gas - gasCosts op) :
    checkEach (opcodesBehind code f.codeIt opcode) gas'
        (f.stackTop.after s (traits op).stackHeightChange) = .success ↔
      behind code f opcode ≤ gas' := by
  have htop : (f.stackTop.after s (traits op).stackHeightChange).top =
      (f.stackTop.after f.stackTop (traits op).stackHeightChange).top := rfl
  exact checkEach_of_le (h.height_limit f.stackTop) h.checked.2 hnonneg hle htop

/-- The step of the Baseline interpreter. -/
theorem step [Ethash] (h : AtOpcode code f i k block opcode items st op) :
    Baseline.step (Baseline.analyze code) f =
      Baseline.invokeCore (Baseline.analyze code) op { f with gas := f.gas - gasCosts op } := by
  have hbyte := h.matched.point.byte
  have hlt : f.codeIt < code.length := (List.getElem?_eq_some_iff.mp hbyte).1
  exact Baseline.step_of_checked ((Baseline.padCode_of_lt hlt).trans hbyte) h.op h.checked.1

/-- The instruction of the Advanced interpreter. -/
theorem fetch (h : AtOpcode code f i k block opcode items st op) :
    (analyze code).instrs[i]? = some
      { fn := instructionImplementations op
        arg := argument code i k (block.add (opTable opcode)) (f.codeIt, opcode) items } := by
  rw [h.matched.point.fetch, opTable_of h.op, blockOf, if_neg h.notJumpdest]

/-- Both go on with the next instruction. -/
theorem next (h : AtOpcode code f i k block opcode items st op) (hends : ¬ EndsBlock opcode)
    {pos : Nat} {s : StackTop} {gas' : Int} {state : ExecutionState}
    (hpos : pos = f.codeIt + 1 + immediateSize opcode) (hle : gas' ≤ f.gas - gasCosts op)
    (hpaid : behind code f opcode ≤ gas') :
    Steps code (.cont ⟨pos, f.stackTop.after s (traits op).stackHeightChange, gas', state⟩)
      (some (i + 1), ⟨state, gas' - behind code f opcode,
        f.stackTop.after s (traits op).stackHeightChange, st.currentBlockCost⟩) := by
  have hbehind : opcodesBehind code f.codeIt opcode = restOfBlock code pos := by
    rw [opcodesBehind, if_neg hends, hpos]
  have hbyte := h.matched.point.byte
  have hlt : f.codeIt < code.length := (List.getElem?_eq_some_iff.mp hbyte).1
  have hcosts := baseCost_nonneg (opcodesBehind code f.codeIt opcode)
  refine .cont ⟨h.matched.point.next, ?_, rfl, rfl, ?_, fun _ => ?_, ?_⟩
  · obtain ⟨n, hrest, hlen⟩ := h.matched.point.rest
    have hnext := nextPos_eq hlt fun h' => absurd h' hends
    dsimp only at hrest hlen hnext ⊢
    rw [hnext, ← hpos] at hrest hlen
    by_cases hinside : pos ≤ code.length
    · rw [min_eq_left hinside] at hrest hlen
      exact ⟨n, hrest, hlen⟩
    · -- The push data is cut off.
      have houtside := Nat.le_of_not_le hinside
      rw [min_eq_right houtside, decode_of_length_le le_rfl] at hrest
      exact ⟨0, by rw [hrest, decode_of_length_le houtside], houtside⟩
  · show gas' - behind code f opcode = gas' - baseCost (restOfBlock code pos)
    rw [← hbehind]
  · have hjumpi : Opcode.ofByte opcode ≠ some .jumpi := by
      intro hjumpi
      refine hends ?_
      unfold EndsBlock
      rw [hjumpi]
      decide
    have hcost := h.matched.cost (by rw [h.rest]; exact List.cons_ne_nil _ _)
    rw [h.baseCost_rest] at hcost
    show st.currentBlockCost = (blockAfter i block opcode).gasCost + baseCost (restOfBlock code pos)
    rw [← hbehind, blockAfter, if_neg hjumpi, blockOf, if_neg h.notJumpdest, opTable_of h.op, hcost,
      ← Int.add_assoc]
    rfl
  · show checkEach (restOfBlock code pos) gas' _ = .success
    rw [← hbehind]
    exact (h.check_iff s (hcosts.trans hpaid) hle).2 hpaid

/-- The gas does not suffice for the instructions behind the next one. -/
theorem unpaid (h : AtOpcode code f i k block opcode items st op) (hends : ¬ EndsBlock opcode)
    {pos : Nat} {s : StackTop} {gas' : Int} {state : ExecutionState}
    (hpos : pos = f.codeIt + 1 + immediateSize opcode) (hnonneg : 0 ≤ gas')
    (hle : gas' ≤ f.gas - gasCosts op) (hshort : gas' < behind code f opcode) :
    Unpaid code (.cont ⟨pos, f.stackTop.after s (traits op).stackHeightChange, gas', state⟩) := by
  intro hcheck
  have hbehind : opcodesBehind code f.codeIt opcode = restOfBlock code pos := by
    rw [opcodesBehind, if_neg hends, hpos]
  rw [← hbehind] at hcheck
  exact absurd ((h.check_iff s hnonneg hle).1 hcheck) (not_le.2 hshort)

/-- Nothing is charged behind the end of a block. -/
theorem behind_of_endsBlock (hends : EndsBlock opcode) : behind code f opcode = 0 := by
  rw [behind, opcodesBehind, if_pos hends]
  rfl

/-- After the last instruction of a block both gas counters are exact. -/
theorem gas_of_endsBlock (h : AtOpcode code f i k block opcode items st op)
    (hends : EndsBlock opcode) : st.gasLeft = f.gas - gasCosts op := by
  rw [h.gas, behind_of_endsBlock hends, Int.sub_zero]

/-- The Advanced interpreter works on the same context with less gas. -/
theorem ctx_eq (h : AtOpcode code f i k block opcode items st op) :
    st.ctx = (ctx f op).shift (behind code f opcode) := by
  show (⟨st.stack, st.gasLeft, st.base⟩ : Ctx) = ⟨f.stackTop, _, f.state⟩
  rw [h.matched.stack, h.matched.base, h.gas]

/-- The state after the implementation of the opcode. -/
theorem absorb_eq (h : AtOpcode code f i k block opcode items st op) (c : Ctx) :
    st.absorb op c = ⟨c.state, c.gasLeft, f.stackTop.after c.stack (traits op).stackHeightChange,
      st.currentBlockCost⟩ := by
  rw [← h.matched.stack]
  rfl

/-- The correction is the cost of what is behind the instruction. -/
theorem correction (h : AtOpcode code f i k block opcode items st op) {arg : InstructionArgument}
    (harg : arg.asNumber = (block.add (opTable opcode)).gasCost) :
    st.currentBlockCost - arg.asNumber = behind code f opcode := by
  have hcost := h.matched.cost (by rw [h.rest]; exact List.cons_ne_nil _ _)
  rw [h.baseCost_rest] at hcost
  rw [harg, hcost, opTable_of h.op]
  show block.gasCost + (gasCosts op + behind code f opcode) - (block.gasCost + gasCosts op) = _
  omega

/-- An instruction that pushes a value which both interpreters know. -/
theorem next_push (h : AtOpcode code f i k block opcode items st op) (hends : ¬ EndsBlock opcode)
    (hchange : (traits op).stackHeightChange = 1) {pos : Nat}
    (hpos : pos = f.codeIt + 1 + immediateSize opcode) (v : Word) :
    Steps code (.cont ⟨pos, f.stackTop.push v, f.gas - gasCosts op, f.state⟩)
      (some (i + 1), { st with stack := st.stack.push v }) := by
  have hnext : Steps code (.cont ⟨pos, _, _, f.state⟩) _ :=
    h.next (s := f.stackTop.push v) hends hpos le_rfl h.paid.2
  rw [hchange, StackTop.after_push, ← h.gas, ← h.matched.base] at hnext
  rw [h.matched.stack, ← h.matched.base]
  exact hnext

/-! ### Instructions inside of a block -/

variable [Ethash]

/-- A metered instruction inside of the block. -/
theorem sim_opCore (h : AtOpcode code f i k block opcode items st op) (hends : ¬ EndsBlock opcode)
    (hspecial : ¬ IsSpecial op) :
    StepSim code (Baseline.step (Baseline.analyze code) f) (opCore op i st) := by
  have hm : MeteredFn False HostCall.IsOrdinaryOrLog (coreImpl op) :=
    metered_coreImpl hspecial (fun q hq => by cases q <;> trivial) fun _ _ _ _ _ => trivial
  have hnotPos : coreImpl op ≠ .pos := fun hpos => hspecial (isSpecial_of_pos hpos)
  -- The instruction has no immediate bytes, so both go on with the next byte.
  have hpos : f.codeIt + 1 = f.codeIt + 1 + immediateSize opcode := by
    rw [Baseline.immediateSize_of_not_pos h.op hnotPos, Nat.add_zero]
  obtain ⟨hnonneg, hpaid⟩ := h.paid
  have hcosts : 0 ≤ behind code f opcode := baseCost_nonneg _
  rw [h.step]
  rcases hcore : coreImpl op with fn | fn | m | m | _ <;> rw [hcore] at hm
  · rw [opCore_stack hcore]
    unfold Baseline.invokeCore
    rw [hcore, h.matched.stack, h.matched.base, h.gas]
    exact .ret (h.next hends hpos le_rfl hpaid)
  · rw [opCore_state hcore]
    unfold Baseline.invokeCore
    rw [hcore, h.matched.stack, h.matched.base, h.gas]
    refine .after (wp_answers_of_asking (hm f.stackTop f.state)) ?_
    rintro ⟨stack, state⟩ -
    exact .ret (h.next hends hpos le_rfl hpaid)
  · rw [opCore_result hcore, Baseline.invokeCore_result hcore, h.ctx_eq]
    -- Advanced has already paid the rest of the block, so it runs with less gas by that amount.
    have hle := hm.shift (ctx f op) (behind code f opcode) BoundedAnswer hcosts hpaid
    refine (hle.and_wp (wp_answers_of_asking (hm.outcome (ctx f op)))
      (wp_answers_of_asking (hm.outcome _))).bind ?_ ?_ ?_
    · rintro ⟨x, c₁⟩ ⟨y, c₂⟩ ⟨⟨u, rfl, rfl, rfl, hle₁⟩ | ⟨e, e', rfl, rfl, he, he'⟩, houtcome, -⟩
      · refine .ret ?_
        rw [h.absorb_eq]
        exact h.next hends hpos (houtcome.gas_le hnonneg) hle₁
      · refine .ret ?_
        unfold resume implStatus
        rw [if_pos he'.1]
        exact .done (.inl ⟨he, he'⟩)
    -- Only Advanced runs out of gas, and Baseline cannot pay the rest of the block.
    · rintro ⟨x, c₁⟩ ⟨⟨u, rfl, hnonneg₁, hlt⟩ | ⟨e, rfl, he⟩, houtcome⟩
      · exact h.unpaid hends hpos hnonneg₁ (houtcome.gas_le hnonneg) hlt
      · exact he
    · rintro ⟨y, c₂⟩ ⟨⟨e, rfl, he⟩, -⟩
      refine ⟨_, rfl, ?_⟩
      unfold resume implStatus
      rw [if_pos he.1]
      exact ⟨rfl, he⟩
  · rw [opCore_term hcore, Baseline.invokeCore_term hcore,
      Baseline.eq_invalid_of_term h.op hends hcore]
    have hinvalid : StatusCode.invalidInstruction.IsFailure := by decide
    exact .ret (.done (.inl ⟨hinvalid, hinvalid⟩))
  · exact absurd hcore hnotPos

/-- An instruction that ends the execution. -/
theorem sim_opCore_term (h : AtOpcode code f i k block opcode items st op) (hends : EndsBlock opcode)
    {m : InstrM StatusCode} (hcore : coreImpl op = .term m)
    (hm : Metered False HostCall.IsOrdinaryOrLog m) :
    StepSim code (Baseline.step (Baseline.analyze code) f) (opCore op i st) := by
  have hctx : st.ctx = ctx f op := by
    rw [h.ctx_eq, behind_of_endsBlock hends]
    simp [Ctx.shift]
  rw [h.step, opCore_term hcore, Baseline.invokeCore_term hcore, hctx]
  refine .after (wp_answers_of_asking (hm.outcome (ctx f op))) ?_
  rintro ⟨e | status, c⟩ -
  · exact .ret (.done (.inr ⟨rfl, rfl⟩))
  · exact .ret (.done (.inr ⟨rfl, rfl⟩))

/-- An instruction that works with the exact gas. -/
theorem sim_opCorrected (h : AtOpcode code f i k block opcode items st op)
    (hends : ¬ EndsBlock opcode) {m : InstrM Unit} (hcore : coreImpl op = .result m)
    {arg : InstructionArgument} (harg : arg.asNumber = (block.add (opTable opcode)).gasCost) :
    StepSim code (Baseline.step (Baseline.analyze code) f) (opCorrected op m arg i st) := by
  have hpos : f.codeIt + 1 = f.codeIt + 1 + immediateSize opcode := by
    rw [Baseline.immediateSize_of_not_pos h.op (by rw [hcore]; exact nofun), Nat.add_zero]
  obtain ⟨hnonneg, hpaid⟩ := h.paid
  have hcosts : 0 ≤ behind code f opcode := baseCost_nonneg _
  -- The correction gives back the costs of what follows in the block: both start with the same gas.
  have hctx : (st.correct (behind code f opcode)).ctx = ctx f op := by
    show (⟨st.stack, st.gasLeft + _, st.base⟩ : Ctx) = ⟨f.stackTop, f.gas - gasCosts op, f.state⟩
    rw [h.matched.stack, h.matched.base, h.gas]
    congr 1
    omega
  have habsorb : ∀ c, (st.correct (behind code f opcode)).absorb op c =
      ⟨c.state, c.gasLeft, f.stackTop.after c.stack (traits op).stackHeightChange,
        st.currentBlockCost⟩ := by
    intro c
    rw [← h.matched.stack]
    rfl
  rw [h.step, opCorrected_eq, Baseline.invokeCore_result hcore, h.correction harg, hctx]
  refine .after (wp_result_spends hcore hnonneg) ?_
  rintro ⟨e | u, c⟩ hspends
  · have he := hspends.error e rfl
    refine .ret ?_
    unfold resumeCorrected implStatus
    rw [if_pos he.1]
    exact .done (.inl ⟨he, he⟩)
  · obtain ⟨hnonneg', hle⟩ : 0 ≤ c.gasLeft ∧ c.gasLeft ≤ f.gas - gasCosts op := hspends.ok rfl
    have hgas : StatusCode.outOfGas.IsFailure := by decide
    rw [habsorb]
    unfold resumeCorrected implStatus
    rw [if_neg (by exact fun h => h rfl)]
    dsimp only
    -- Taking the correction back fails if the rest of the block cannot be paid any more.
    by_cases hshort : c.gasLeft - behind code f opcode < 0
    · rw [if_pos hshort]
      exact .early (h.unpaid hends hpos hnonneg' hle (by omega)) ⟨rfl, hgas⟩
    · rw [if_neg hshort]
      exact .ret (h.next hends hpos hle (by omega))

end AtOpcode

end Advanced

end Zvmone
