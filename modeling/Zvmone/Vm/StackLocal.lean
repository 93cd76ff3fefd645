import Zvmone.Vm.AdvancedSteps
import Zvmone.Vm.BaselineSteps
import Zvmone.Vm.StackWindowCore

/-! # Instructions of both interpreters use the stack items their traits declare

The locality of the core implementations carries over to an instruction of the Baseline interpreter
(`Baseline.local_invokeCore`) and of the Advanced interpreter (`Advanced.local_exec`). -/

namespace Zvmone

open Interaction InstrM StackTop Instr Zvmone.Core

variable {M : Memory → Memory → Prop}

/-- The height after an instruction whose items are on the stack. -/
theorem StackTop.top_after {s left : StackTop} {op : Opcode} (h : itemsRequired op ≤ s.top) :
    ((s.after left (traits op).stackHeightChange).top : Int)
      = s.top + (traits op).stackHeightChange := by
  have hchange : 0 ≤ (traits op).stackHeightRequired + (traits op).stackHeightChange ∧
      0 ≤ (traits op).stackHeightRequired := by
    cases op with
    | push k | dup k | swap k | log k =>
      simp only [traits]
      omega
    | _ => decide
  unfold itemsRequired at h
  show ((s.top + (traits op).stackHeightChange).toNat : Int) = _
  omega

namespace Baseline

/-- Two frames at the same position whose stacks share the items of the instruction. -/
structure Frame.Related (M : Memory → Memory → Prop) (n b b' : Nat) (f f' : Frame) : Prop where
  codeIt : f'.codeIt = f.codeIt
  stack : Window n b b' n f.stackTop f'.stackTop
  gas : f'.gas = f.gas
  state : StateRel M f.state f'.state

/-- What an instruction makes of two such frames. -/
inductive Next.Ends (M : Memory → Memory → Prop) (op : Opcode) (b b' : Nat) (f f' : Frame) :
    Next → Next → Prop
  | cont {g g' : Frame} (codeIt : g'.codeIt = g.codeIt) (gas : g'.gas = g.gas)
      (state : StateRel M g.state g'.state)
      (items : SameItems b b' (slotsUsed op) g.stackTop g'.stackTop)
      (untouched : Untouched b (slotsUsed op) f.stackTop g.stackTop)
      (untouched' : Untouched b' (slotsUsed op) f'.stackTop g'.stackTop)
      (height : (g.stackTop.top : Int) = f.stackTop.top + (traits op).stackHeightChange)
      (height' : (g'.stackTop.top : Int) = f'.stackTop.top + (traits op).stackHeightChange)
      (grows : f.state.Grows g.state) :
      Next.Ends M op b b' f f' (.cont g) (.cont g')
  | done {gas : Int} {st st' : ExecutionState} (state : StateRel M st st')
      (grows : f.state.Grows st) :
      Next.Ends M op b b' f f' (.done gas st) (.done gas st')

variable {op : Opcode} {b b' : Nat} {f f' : Frame} {analysis : CodeAnalysis}

/-- The implementation left the stacks `s` and `s'`. -/
theorem Next.Ends.of_left {codeIt : Nat} {gas : Int} {st st' : ExecutionState} {s s' : StackTop}
    (h : Frame.Related M (itemsRequired op) b b' f f') (hst : StateRel M st st')
    (hgrows : f.state.Grows st) (hitems : SameItems b b' (slotsUsed op) s s')
    (huntouched : Untouched b (slotsUsed op) f.stackTop s)
    (huntouched' : Untouched b' (slotsUsed op) f'.stackTop s') :
    Next.Ends M op b b' f f'
      (.cont ⟨codeIt, f.stackTop.after s (traits op).stackHeightChange, gas, st⟩)
      (.cont ⟨codeIt, f'.stackTop.after s' (traits op).stackHeightChange, gas, st'⟩) :=
  .cont rfl rfl hst hitems huntouched huntouched'
    (StackTop.top_after (by rw [h.stack.top]; omega))
    (StackTop.top_after (by rw [h.stack.top']; omega)) hgrows

/-- Related states stay related with the same status. -/
theorem StateRel.withStatus {st st' : ExecutionState} (h : StateRel M st st')
    (status : StatusCode) : StateRel M { st with status } { st' with status } :=
  ⟨h.memory, by rw [h.eq]⟩

/-- The jump does the same in both runs. -/
theorem jumpImpl_stateRel (analysis : CodeAnalysis) {st st' : ExecutionState}
    (h : StateRel M st st') (dst : Word) :
    ∃ next st₁ st₁', StateRel M st₁ st₁' ∧ st.Grows st₁ ∧
      jumpImpl analysis st dst = (next, st₁) ∧ jumpImpl analysis st' dst = (next, st₁') := by
  unfold jumpImpl
  split
  · exact ⟨_, _, _, StateRel.withStatus h .badJumpDestination, .of_eq rfl rfl rfl, rfl, rfl⟩
  · exact ⟨_, _, _, h, .refl, rfl, rfl⟩

variable [Ethash]

/-- The position-dependent instructions use the items their traits declare. -/
theorem local_positionImpl (analysis : CodeAnalysis) (hop : coreImpl op = .pos) (pos : Nat)
    {s s' : StackTop} {st st' : ExecutionState}
    (h : Window (itemsRequired op) b b' (itemsRequired op) s s') (hst : StateRel M st st') :
    ∃ next s₁ s₁' st₁ st₁', positionImpl analysis op s st pos = (next, s₁, st₁) ∧
      positionImpl analysis op s' st' pos = (next, s₁', st₁') ∧ StateRel M st₁ st₁' ∧
      st.Grows st₁ ∧ SameItems b b' (slotsUsed op) s₁ s₁' ∧ Untouched b (slotsUsed op) s s₁ ∧
      Untouched b' (slotsUsed op) s' s₁' := by
  -- `PC` and the PUSHes push what does not depend on the stack.
  have hpush : ∀ {next v}, itemsRequired op = 0 → slotsUsed op = 1 →
      positionImpl analysis op s st pos = (next, s.push v, st) →
      positionImpl analysis op s' st' pos = (next, s'.push v, st') →
      ∃ next s₁ s₁' st₁ st₁', positionImpl analysis op s st pos = (next, s₁, st₁) ∧
        positionImpl analysis op s' st' pos = (next, s₁', st₁') ∧ StateRel M st₁ st₁' ∧
        st.Grows st₁ ∧ SameItems b b' (slotsUsed op) s₁ s₁' ∧ Untouched b (slotsUsed op) s s₁ ∧
        Untouched b' (slotsUsed op) s' s₁' := by
    intro next v hitems hslots h₁ h₁'
    rw [hitems] at h
    rw [hslots]
    exact ⟨_, _, _, _, _, h₁, h₁', hst, .refl, (h.push_new v).items,
      untouched_push h.top Nat.one_pos v, untouched_push h.top' Nat.one_pos v⟩
  cases op with
  | jump =>
    obtain ⟨next, st₁, st₁', hst₁, hgrows, h₁, h₁'⟩ := jumpImpl_stateRel analysis hst s.pop.1
    have hdst : s.pop.1 = s'.pop.1 := h.get (i := 0) Nat.one_pos le_rfl
    refine ⟨next, s.pop.2, s'.pop.2, st₁, st₁', ?_, ?_, hst₁, hgrows, h.items, .refl, .refl⟩
    · simp only [positionImpl, h₁]
    · simp only [positionImpl, ← hdst, h₁']
  | jumpi =>
    have h : Window 2 b b' 2 s s' := h
    obtain ⟨next, st₁, st₁', hst₁, hgrows, h₁, h₁'⟩ := jumpImpl_stateRel analysis hst s.pop.1
    have hdst : s.pop.1 = s'.pop.1 := h.get (i := 0) (by decide) le_rfl
    -- Both see the same target and the same condition.
    have hcond : s.pop.2.pop.1 = s'.pop.2.pop.1 := h.pop.get (i := 0) (by decide) (by decide)
    by_cases htaken : s.pop.2.pop.1 ≠ 0
    · refine ⟨next, s.pop.2.pop.2, s'.pop.2.pop.2, st₁, st₁', ?_, ?_, hst₁, hgrows, h.items, .refl, .refl⟩
      · simp only [positionImpl, if_pos htaken, h₁]
      · simp only [positionImpl, ← hcond, if_pos htaken, ← hdst, h₁']
    · refine ⟨some (pos + 1), s.pop.2.pop.2, s'.pop.2.pop.2, st, st', ?_, ?_, hst, .refl, h.items,
        .refl, .refl⟩
      · simp only [positionImpl, if_neg htaken]
      · simp only [positionImpl, ← hcond, if_neg htaken]
  | pc => exact hpush rfl rfl rfl rfl
  | push k => exact hpush rfl rfl rfl rfl
  | _ => cases hop

/-- An instruction uses the items its traits declare. -/
theorem local_invokeCore (hM : IsMemoryRel M) (op : Opcode)
    (h : Frame.Related M (itemsRequired op) b b' f f') :
    Lockstep (Next.Ends M op b b' f f') (invokeCore analysis op f) (invokeCore analysis op f') := by
  have hlocal := local_coreImpl hM op
  have hctx : InstrM.Related M (itemsRequired op) b b' (itemsRequired op)
      ⟨f.stackTop, f.gas, f.state⟩ ⟨f'.stackTop, f'.gas, f'.state⟩ := ⟨h.stack, h.gas, h.state⟩
  rcases hop : coreImpl op with fn | fn | p | p | _ <;> rw [hop] at hlocal
  · obtain ⟨hitems, huntouched, huntouched'⟩ := hlocal b b' _ _ h.stack
    simp only [invokeCore, hop, h.codeIt, h.gas]
    exact .ret (.of_left h h.state .refl hitems huntouched huntouched')
  · simp only [invokeCore, hop, h.codeIt, h.gas]
    refine (hlocal b b' _ _ _ _ h.stack h.state).bind ?_
    rintro ⟨s, st⟩ ⟨s', st'⟩ hends
    exact .ret (.of_left h hends.state hends.grows hends.items hends.untouched hends.untouched')
  -- The results of the two runs are equal, so both go on or both fail.
  · obtain ⟨m, hlocal⟩ := hlocal
    rw [invokeCore_result hop, invokeCore_result hop]
    refine (hlocal b b' _ _ hctx).bind ?_
    rintro ⟨e | u, c⟩ ⟨e' | u', c'⟩ hends
    · cases hends.result
      simp only [finish]
      rw [show c'.gasLeft = c.gasLeft from hends.gas]
      exact .ret (.done (StateRel.withStatus hends.state _) (hends.grows.withStatus _))
    · cases hends.result
    · cases hends.result
    · simp only [finish, Frame.next, h.codeIt]
      rw [show c'.gasLeft = c.gasLeft from hends.gas]
      exact .ret (.of_left h hends.state hends.grows hends.items hends.untouched hends.untouched')
  · obtain ⟨m, hlocal⟩ := hlocal
    rw [invokeCore_term hop, invokeCore_term hop]
    refine (hlocal b b' _ _ hctx).bind ?_
    rintro ⟨e | status, c⟩ ⟨e' | status', c'⟩ hends
    · cases hends.result
      simp only [terminate]
      rw [show c'.gasLeft = c.gasLeft from hends.gas]
      exact .ret (.done (StateRel.withStatus hends.state _) (hends.grows.withStatus _))
    · cases hends.result
    · cases hends.result
    · cases hends.result
      simp only [terminate]
      rw [show c'.gasLeft = c.gasLeft from hends.gas]
      exact .ret (.done (StateRel.withStatus hends.state _) (hends.grows.withStatus _))
  -- Jumps and pushes.
  · obtain ⟨next, s₁, s₁', st₁, st₁', h₁, h₁', hst₁, hgrows, hitems, huntouched, huntouched'⟩ :=
      local_positionImpl analysis hop f.codeIt h.stack h.state
    rw [invokeCore_pos hop, invokeCore_pos hop, h.codeIt, h₁, h₁']
    cases next with
    | none =>
      simp only [move, h.gas]
      exact .ret (.done hst₁ hgrows)
    | some codeIt =>
      simp only [move, h.gas]
      exact .ret (.of_left h hst₁ hgrows hitems huntouched huntouched')

end Baseline

namespace Advanced

/-- Two states whose stacks share the items of the instruction. -/
structure AdvancedExecutionState.Related (M : Memory → Memory → Prop) (n b b' : Nat)
    (st st' : AdvancedExecutionState) : Prop where
  stack : Window n b b' n st.stack st'.stack
  gas : st'.gasLeft = st.gasLeft
  cost : st'.currentBlockCost = st.currentBlockCost
  base : StateRel M st.base st'.base

/-- What an instruction makes of two such states. -/
structure Ends (M : Memory → Memory → Prop) (op : Opcode) (b b' : Nat)
    (st st' : AdvancedExecutionState) (x x' : Option Nat × AdvancedExecutionState) : Prop where
  next : x'.1 = x.1
  gas : x'.2.gasLeft = x.2.gasLeft
  cost : x'.2.currentBlockCost = x.2.currentBlockCost
  base : StateRel M x.2.base x'.2.base
  items : x.1 ≠ none → SameItems b b' (slotsUsed op) x.2.stack x'.2.stack
  untouched : Untouched b (slotsUsed op) st.stack x.2.stack
  untouched' : Untouched b' (slotsUsed op) st'.stack x'.2.stack
  height : x.1 ≠ none → (x.2.stack.top : Int) = st.stack.top + (traits op).stackHeightChange ∧
    (x'.2.stack.top : Int) = st'.stack.top + (traits op).stackHeightChange
  grows : st.base.Grows x.2.base

variable {op : Opcode} {b b' i : Nat} {st st' : AdvancedExecutionState}

/-- An instruction that ends with stacks on which only the slots of the opcode may differ from the
start. -/
theorem Ends.exit {st₁ st₁' : AdvancedExecutionState} (status : StatusCode)
    (hgas : st₁'.gasLeft = st₁.gasLeft) (hcost : st₁'.currentBlockCost = st₁.currentBlockCost)
    (hbase : StateRel M st₁.base st₁'.base) (hgrows : st.base.Grows st₁.base)
    (huntouched : Untouched b (slotsUsed op) st.stack st₁.stack)
    (huntouched' : Untouched b' (slotsUsed op) st'.stack st₁'.stack) :
    Ends M op b b' st st' (st₁.exit status) (st₁'.exit status) :=
  ⟨rfl, hgas, hcost, Baseline.StateRel.withStatus hbase status, fun h => absurd rfl h, huntouched,
    huntouched', fun h => absurd rfl h, hgrows.withStatus status⟩

/-- The height after an instruction whose items are on the stack. -/
theorem AdvancedExecutionState.Related.height {s s' : StackTop}
    (h : AdvancedExecutionState.Related M (itemsRequired op) b b' st st') :
    ((st.stack.after s (traits op).stackHeightChange).top : Int)
        = st.stack.top + (traits op).stackHeightChange ∧
      ((st'.stack.after s' (traits op).stackHeightChange).top : Int)
        = st'.stack.top + (traits op).stackHeightChange :=
  ⟨StackTop.top_after (by rw [h.stack.top]; omega), StackTop.top_after (by rw [h.stack.top']; omega)⟩

/-- An implementation that returned, with the pointer adjusted. -/
theorem Ends.absorb {m : Nat} {α : Type} {x x' : Except StatusCode α × Ctx}
    {next : Option Nat} {gas : Int} {base base' : ExecutionState}
    (h : AdvancedExecutionState.Related M (itemsRequired op) b b' st st')
    (hends : InstrM.Ends M (slotsUsed op) b b' m st.ctx st'.ctx x x') (hbase : StateRel M base base')
    (hgrows : st.base.Grows base) :
    Ends M op b b' st st'
      (next, { st with
        base, gasLeft := gas, stack := st.stack.after x.2.stack (traits op).stackHeightChange })
      (next, { st' with
        base := base', gasLeft := gas,
        stack := st'.stack.after x'.2.stack (traits op).stackHeightChange }) :=
  ⟨rfl, rfl, h.cost, hbase, fun _ => hends.items, hends.untouched, hends.untouched',
    fun _ => h.height, hgrows⟩

/-- Related states have related contexts. -/
theorem AdvancedExecutionState.Related.ctx
    (h : AdvancedExecutionState.Related M (itemsRequired op) b b' st st') :
    InstrM.Related M (itemsRequired op) b b' (itemsRequired op) st.ctx st'.ctx :=
  ⟨h.stack, h.gas, h.base⟩

/-- A wrapped core implementation. -/
theorem local_opCore [Ethash] (hM : IsMemoryRel M) (hpos : coreImpl op ≠ .pos)
    (h : AdvancedExecutionState.Related M (itemsRequired op) b b' st st') :
    Lockstep (Ends M op b b' st st') (opCore op i st) (opCore op i st') := by
  have hlocal := local_coreImpl hM op
  rcases hop : coreImpl op with fn | fn | p | p | _ <;> rw [hop] at hlocal
  · obtain ⟨hitems, huntouched, huntouched'⟩ := hlocal b b' _ _ h.stack
    rw [opCore_stack hop, opCore_stack hop]
    exact .ret ⟨rfl, h.gas, h.cost, h.base, fun _ => hitems, huntouched, huntouched',
      fun _ => h.height, .refl⟩
  · rw [opCore_state hop, opCore_state hop]
    refine (hlocal b b' _ _ _ _ h.stack h.base).bind fun x x' hends => ?_
    exact .ret ⟨rfl, h.gas, h.cost, hends.state, fun _ => hends.items, hends.untouched,
      hends.untouched', fun _ => h.height, hends.grows⟩
  · obtain ⟨m, hlocal⟩ := hlocal
    rw [opCore_result hop, opCore_result hop]
    refine (hlocal b b' _ _ h.ctx).bind fun x x' hends => .ret ?_
    unfold resume
    rw [← hends.result]
    split
    · exact .exit _ hends.gas h.cost hends.state hends.grows hends.untouched hends.untouched'
    · unfold AdvancedExecutionState.absorb
      rw [hends.gas]
      exact .absorb h hends hends.state hends.grows
  · obtain ⟨m, hlocal⟩ := hlocal
    rw [opCore_term hop, opCore_term hop]
    refine (hlocal b b' _ _ h.ctx).bind fun x x' hends => .ret ?_
    -- A last instruction leaves the stack as it is.
    have hexit : ∀ status, Ends M op b b' st st'
        (AdvancedExecutionState.exit { st with base := x.2.state, gasLeft := x.2.gasLeft } status)
        (AdvancedExecutionState.exit { st' with base := x'.2.state, gasLeft := x'.2.gasLeft } status) :=
      fun status => .exit status hends.gas h.cost hends.state hends.grows .refl .refl
    obtain ⟨e | status, c⟩ := x <;> obtain ⟨e' | status', c'⟩ := x'
    · cases hends.result
      exact hexit e
    · cases hends.result
    · cases hends.result
    · cases hends.result
      exact hexit status
  · exact absurd hop hpos

/-- A core implementation that is invoked with the exact gas left. -/
theorem local_opCorrected {fn : InstrM Unit} (hlocal : LocalInstr M (itemsRequired op) (slotsUsed op) fn)
    (arg : InstructionArgument)
    (h : AdvancedExecutionState.Related M (itemsRequired op) b b' st st') :
    Lockstep (Ends M op b b' st st') (opCorrected op fn arg i st) (opCorrected op fn arg i st') := by
  obtain ⟨m, hlocal⟩ := hlocal
  have hctx : InstrM.Related M (itemsRequired op) b b' (itemsRequired op)
      (st.correct (st.currentBlockCost - arg.asNumber)).ctx
      (st'.correct (st.currentBlockCost - arg.asNumber)).ctx :=
    ⟨h.stack, congrArg (· + (st.currentBlockCost - arg.asNumber)) h.gas, h.base⟩
  rw [opCorrected_eq, opCorrected_eq, h.cost]
  refine (hlocal b b' _ _ hctx).bind fun x x' hends => .ret ?_
  have hgas : x'.2.gasLeft = x.2.gasLeft := hends.gas
  unfold resumeCorrected
  rw [← hends.result]
  split
  · exact .exit _ hgas h.cost hends.state hends.grows hends.untouched hends.untouched'
  · -- Both gas counters go back by the same amount.
    by_cases hshort : x.2.gasLeft - (st.currentBlockCost - arg.asNumber) < 0
    · have hshort' : x'.2.gasLeft - (st.currentBlockCost - arg.asNumber) < 0 := by
        rw [hgas]
        exact hshort
      refine (congrArg₂ _ (if_pos hshort) (if_pos hshort')).mpr ?_
      exact .exit _ (congrArg (· + _) hgas) h.cost hends.state hends.grows hends.untouched
        hends.untouched'
    · have hshort' : ¬x'.2.gasLeft - (st.currentBlockCost - arg.asNumber) < 0 := by
        rw [hgas]
        exact hshort
      refine (congrArg₂ _ (if_neg hshort) (if_neg hshort')).mpr ?_
      exact ⟨rfl, congrArg (· + _) hgas, h.cost, hends.state, fun _ => hends.items, hends.untouched,
        hends.untouched', fun _ => h.height, hends.grows⟩

/-- A push of the Advanced interpreter. -/
theorem Ends.push (hitems : itemsRequired op = 0) (hslots : slotsUsed op = 1)
    (hchange : (traits op).stackHeightChange = 1)
    (h : AdvancedExecutionState.Related M (itemsRequired op) b b' st st') (v : Word) :
    Ends M op b b' st st' (some (i + 1), { st with stack := st.stack.push v })
      (some (i + 1), { st' with stack := st'.stack.push v }) := by
  have hstack : Window 0 b b' 0 st.stack st'.stack := hitems ▸ h.stack
  refine ⟨rfl, h.gas, h.cost, h.base, fun _ => ?_, ?_, ?_, fun _ => ?_, .refl⟩
  · rw [hslots]
    exact (hstack.push_new v).items
  · rw [hslots]
    exact untouched_push hstack.top Nat.one_pos v
  · rw [hslots]
    exact untouched_push hstack.top' Nat.one_pos v
  · rw [hchange]
    exact ⟨Nat.cast_succ _, Nat.cast_succ _⟩

/-- The checks at the beginning of a block look at the height of the stack only. -/
theorem local_opxBeginblock {s s' : AdvancedExecutionState} (arg : InstructionArgument)
    (hgas : s'.gasLeft = s.gasLeft) (hcost : s'.currentBlockCost = s.currentBlockCost)
    (hbase : StateRel M s.base s'.base) (hgrows : st.base.Grows s.base)
    (htop : s'.stack.top = s.stack.top)
    (hitems : SameItems b b' (slotsUsed op) s.stack s'.stack)
    (huntouched : Untouched b (slotsUsed op) st.stack s.stack)
    (huntouched' : Untouched b' (slotsUsed op) st'.stack s'.stack)
    (hheight : (s.stack.top : Int) = st.stack.top + (traits op).stackHeightChange ∧
      (s'.stack.top : Int) = st'.stack.top + (traits op).stackHeightChange) :
    Ends M op b b' st st' (opxBeginblock arg i s) (opxBeginblock arg i s') := by
  unfold opxBeginblock
  dsimp only
  rw [hgas, htop]
  split
  · exact .exit _ rfl hcost hbase hgrows huntouched huntouched'
  · split
    · exact .exit _ rfl hcost hbase hgrows huntouched huntouched'
    · split
      · exact .exit _ rfl hcost hbase hgrows huntouched huntouched'
      · exact ⟨rfl, rfl, rfl, hbase, fun _ => hitems, huntouched, huntouched', fun _ => hheight, hgrows⟩

/-- `op_jump` pops the destination. -/
theorem local_opJump {analysis : AdvancedCodeAnalysis}
    (h : AdvancedExecutionState.Related M (itemsRequired .jump) b b' st st') :
    Ends M .jump b b' st st' (opJump analysis st) (opJump analysis st') := by
  have hstack : Window 1 b b' 1 st.stack st'.stack := h.stack
  have hdst : st.stack.pop.1 = st'.stack.pop.1 := hstack.get (i := 0) Nat.one_pos le_rfl
  unfold opJump
  dsimp only
  rw [← hdst]
  split
  · exact .exit _ h.gas h.cost h.base .refl .refl .refl
  · split
    · exact .exit _ h.gas h.cost h.base .refl .refl .refl
    · refine ⟨rfl, h.gas, h.cost, h.base, fun _ => hstack.items, .refl, .refl, fun _ => ?_, .refl⟩
      have htop := hstack.top
      have htop' := hstack.top'
      show ((st.stack.top - 1 : Nat) : Int) = st.stack.top + -1 ∧
        ((st'.stack.top - 1 : Nat) : Int) = st'.stack.top + -1
      omega

/-- `op_jumpi` pops the destination and the condition. -/
theorem local_opJumpi {analysis : AdvancedCodeAnalysis} (arg : InstructionArgument)
    (h : AdvancedExecutionState.Related M (itemsRequired .jumpi) b b st st') :
    Ends M .jumpi b b st st' (opJumpi analysis arg i st) (opJumpi analysis arg i st') := by
  have hstack : Window 2 b b 2 st.stack st'.stack := h.stack
  have hcond : st.stack.get 1 = st'.stack.get 1 := hstack.get (by decide) le_rfl
  have hdst : st.stack.pop.1 = st'.stack.pop.1 := hstack.get (i := 0) (by decide) le_rfl
  -- Both slots are popped whether or not the jump is taken.
  have hheight : ((st.stack.pop.2.pop.2.top : Nat) : Int) = st.stack.top + -2 ∧
      ((st'.stack.pop.2.pop.2.top : Nat) : Int) = st'.stack.top + -2 := by
    have htop := hstack.top
    have htop' := hstack.top'
    show ((st.stack.top - 1 - 1 : Nat) : Int) = st.stack.top + -2 ∧
      ((st'.stack.top - 1 - 1 : Nat) : Int) = st'.stack.top + -2
    omega
  unfold opJumpi
  rw [← hcond]
  split
  · unfold opJump
    dsimp only
    rw [← hdst]
    split
    · exact ⟨rfl, h.gas, h.cost, Baseline.StateRel.withStatus h.base _, fun hne => absurd rfl hne,
        .refl, .refl, fun hne => absurd rfl hne, .of_eq rfl rfl rfl⟩
    · split
      · exact ⟨rfl, h.gas, h.cost, Baseline.StateRel.withStatus h.base _, fun hne => absurd rfl hne,
          .refl, .refl, fun hne => absurd rfl hne, .of_eq rfl rfl rfl⟩
      · exact ⟨rfl, h.gas, h.cost, h.base, fun _ => hstack.items, .refl, .refl, fun _ => hheight,
          .refl⟩
  -- Not taken: the next block begins here.
  · exact local_opxBeginblock arg h.gas h.cost h.base .refl
      (hstack.pop.pop.top'.trans hstack.pop.pop.top.symm) hstack.items .refl .refl hheight

/-- Every instruction of the Advanced interpreter uses the items its traits declare; only the checks
at the beginning of a block look at the height of the stack. -/
theorem local_exec [Ethash] (hM : IsMemoryRel M) {analysis : AdvancedCodeAnalysis}
    {instr : Instruction} (hfn : instr.fn = instructionImplementations op)
    (hblock : op = .jumpdest ∨ op = .jumpi → b = b')
    (h : AdvancedExecutionState.Related M (itemsRequired op) b b' st st') :
    Lockstep (Ends M op b b' st st') (instr.exec analysis i st) (instr.exec analysis i st') := by
  unfold Instruction.exec
  rw [hfn]
  have hlocal := local_coreImpl hM op
  cases op with
  | sstore => exact local_opCorrected hlocal _ h
  | jump => exact .ret (local_opJump h)
  | jumpi =>
    obtain rfl := hblock (.inr rfl)
    exact .ret (local_opJumpi _ h)
  | pc => exact .ret (.push rfl rfl rfl h _)
  -- The counters are equal, and so is the value pushed.
  | gas =>
    have hvalue : Word.ofInt64 (st'.gasLeft + (st'.currentBlockCost - instr.arg.asNumber))
        = .ofInt64 (st.gasLeft + (st.currentBlockCost - instr.arg.asNumber)) := by
      rw [h.gas, h.cost]
    refine .ret ?_
    unfold opGas
    dsimp only
    rw [hvalue]
    exact .push rfl rfl rfl h _
  -- The check of a block looks at the height, which the two stacks must therefore share.
  | jumpdest =>
    obtain rfl := hblock (.inl rfl)
    have hstack : Window 0 b b 0 st.stack st'.stack := h.stack
    exact .ret (local_opxBeginblock _ h.gas h.cost h.base .refl
      (hstack.top'.trans hstack.top.symm) hstack.items .refl .refl ⟨(Int.add_zero _).symm, (Int.add_zero _).symm⟩)
  | push k =>
    by_cases hsize : k.val + 1 ≤ 8
    · simp only [instructionImplementations, if_pos hsize]
      exact .ret (.push rfl rfl rfl h _)
    · simp only [instructionImplementations, if_neg hsize]
      split
      · exact .fail
      · exact .ret (.push rfl rfl rfl h _)
  | create => exact local_opCorrected hlocal _ h
  | create2 => exact local_opCorrected hlocal _ h
  | call => exact local_opCorrected hlocal _ h
  | delegatecall => exact local_opCorrected hlocal _ h
  | staticcall => exact local_opCorrected hlocal _ h
  | _ => exact local_opCore hM (fun hpos => by cases hpos) h

end Advanced

end Zvmone
