import Zvmone.Vm.StackBounds

/-! # Frames that an instruction does not tell apart

Two frames are `Alike` if they differ at most in the stack slots above the top, and in the memory
allocation and what it holds beyond the size of the memory. One instruction does the same in both:
it asks the same queries and leaves frames that are alike, so what is left over from earlier uses is
never read. And it writes nothing beyond the size of the memory (`ExecutionState.Grows`). -/

namespace Zvmone

open Interaction InstrM StackTop Instr Zvmone.Core

/-- Stacks of one height with the same items. -/
abbrev StackTop.Alike (s s' : StackTop) : Prop := Window s.top 0 0 s.top s s'

/-- Alike stacks have the same height. -/
theorem StackTop.Alike.top_eq {s s' : StackTop} (h : s.Alike s') : s'.top = s.top := by
  have htop := h.top'
  omega

/-- The items at the top of alike stacks. -/
theorem StackTop.Alike.window {s s' : StackTop} {b n : Nat} (h : s.Alike s') (hb : s.top = b + n) :
    Window n b b n s s' := by
  refine ⟨hb, h.top_eq.trans hb, fun i hi => ?_⟩
  have hitem := h.items (b + i) (by omega)
  rwa [Nat.zero_add] at hitem

/-- The items that an instruction does not use stay the same. -/
theorem StackTop.Alike.after {s s' left left' : StackTop} {b : Nat} {op : Opcode}
    (h : s.Alike s') (hb : s.top = b + itemsRequired op)
    (hitems : SameItems b b (slotsUsed op) left left')
    (huntouched : Untouched b (slotsUsed op) s left)
    (huntouched' : Untouched b (slotsUsed op) s' left')
    (hheight : (left.top : Int) = s.top + (traits op).stackHeightChange)
    (hheight' : (left'.top : Int) = s'.top + (traits op).stackHeightChange) :
    left.Alike left' := by
  have htop := h.top_eq
  refine ⟨(Nat.zero_add _).symm, by omega, fun j hj => ?_⟩
  rw [Nat.zero_add]
  by_cases hlow : j < b
  · -- Below the window no slot is written.
    rw [huntouched j (.inl hlow), huntouched' j (.inl hlow)]
    have hitem := h.items j (by omega)
    rwa [Nat.zero_add] at hitem
  · -- The top is within the slots the instruction uses.
    obtain ⟨hnonneg, -, hsum, -⟩ := traits_bounds op
    have hused : j - b < slotsUsed op := by
      unfold slotsUsed itemsRequired at *
      omega
    have hitem := hitems (j - b) hused
    rwa [Nat.add_sub_cancel' (by omega)] at hitem

/-- Execution states with memories of the same bytes and everything else the same. -/
abbrev ExecutionState.Alike : ExecutionState → ExecutionState → Prop := StateRel Memory.Agree

/-- A state is like itself. -/
theorem ExecutionState.Alike.refl (st : ExecutionState) : st.Alike st :=
  ⟨⟨rfl, fun _ _ => rfl⟩, rfl⟩

/-- The results of executions that end alike are the same. -/
theorem ExecutionState.Alike.result {st st' : ExecutionState} (h : st.Alike st')
    (houtput : st.OutputInBounds) (gas : Int) : st'.result gas = st.result gas := by
  have hslice : st'.memory.slice st.outputOffset st.outputSize
      = st.memory.slice st.outputOffset st.outputSize :=
    isMemoryRel_agree.slice_eq h.memory houtput
  rw [h.eq]
  unfold ExecutionState.result
  rw [hslice]

/-! ### The Baseline interpreter -/

namespace Baseline

/-- Frames that differ only in what is left over from earlier uses. -/
structure Frame.Alike (f f' : Frame) : Prop where
  codeIt : f'.codeIt = f.codeIt
  stack : f.stackTop.Alike f'.stackTop
  gas : f'.gas = f.gas
  state : f.state.Alike f'.state

/-- Outcomes that differ only in what is left over from earlier uses. -/
inductive Next.Alike : Next → Next → Prop
  | cont {f f' : Frame} (h : f.Alike f') : Next.Alike (.cont f) (.cont f')
  | done {gas : Int} {st st' : ExecutionState} (h : st.Alike st') :
    Next.Alike (.done gas st) (.done gas st')

/-- The execution state of an outcome. -/
def Next.state : Next → ExecutionState
  | .cont f => f.state
  | .done _ st => st

/-- The check of the requirements looks at the height of the stack only. -/
theorem checkRequirements_congr {s s' : StackTop} (h : s'.top = s.top) (op : Opcode) (gas : Int) :
    checkRequirements op gas s' = checkRequirements op gas s := by
  unfold checkRequirements
  rw [h]

variable [Ethash] {analysis : CodeAnalysis} {f f' : Frame}

/-- An instruction does not tell alike frames apart. -/
theorem invokeCore_alike {op : Opcode} (h : f.Alike f') (hfits : f.stackTop.Fits op) :
    Lockstep (fun x x' => Next.Alike x x' ∧ f.state.Grows x.state) (invokeCore analysis op f)
      (invokeCore analysis op f') := by
  have hrel : Frame.Related Memory.Agree (itemsRequired op) (f.stackTop.top - itemsRequired op)
      (f.stackTop.top - itemsRequired op) f f' :=
    ⟨h.codeIt, h.stack.window hfits.base, h.gas, h.state⟩
  refine (local_invokeCore isMemoryRel_agree op hrel).mono ?_
  rintro _ _ (⟨hcode, hgas, hst, hitems, hun, hun', hheight, hheight', hgrows⟩ | ⟨hst, hgrows⟩)
  · exact ⟨.cont ⟨hcode, h.stack.after hfits.base hitems hun hun' hheight hheight', hgas, hst⟩,
      hgrows⟩
  · exact ⟨.done hst, hgrows⟩

/-- An instruction does the same in frames that are alike, and writes no memory beyond its size. -/
theorem step_alike (h : f.Alike f') (hlimit : f.stackTop.top ≤ stackLimit) :
    Lockstep (fun x x' => Next.Alike x x' ∧ f.state.Grows x.state) (step analysis f)
      (step analysis f') := by
  -- Both frames fail in the same way, with the same gas.
  have hfail : ∀ status gas, Lockstep (fun x x' => Next.Alike x x' ∧ f.state.Grows x.state)
      (.ret (.done gas { f.state with status }) : HostM Next)
      (.ret (.done gas { f'.state with status })) :=
    fun status gas => .ret ⟨.done (StateRel.withStatus h.state status),
      ExecutionState.Grows.refl.withStatus status⟩
  unfold step
  rw [h.codeIt]
  split
  next => exact .fail
  next byte _ =>
    split
    next op _ =>
      unfold invoke
      -- The checks read the gas and the height of the stack, which the frames share.
      rw [h.gas, checkRequirements_congr h.stack.top_eq]
      split
      next gas hcheck =>
        have halike : Frame.Alike { f with gas } { f' with gas } := ⟨h.codeIt, h.stack, rfl, h.state⟩
        exact invokeCore_alike halike (fits_of_checked hlimit hcheck)
      next => exact hfail _ _
    next =>
      rw [h.gas]
      exact hfail _ _

end Baseline

/-! ### The Advanced interpreter -/

namespace Advanced

/-- States that differ only in what is left over from earlier uses. -/
structure AdvancedExecutionState.Alike (st st' : AdvancedExecutionState) : Prop where
  stack : st.stack.Alike st'.stack
  gas : st'.gasLeft = st.gasLeft
  cost : st'.currentBlockCost = st.currentBlockCost
  base : st.base.Alike st'.base

/-- Outcomes that differ only in what is left over from earlier uses. At the end of the execution
the stack is not looked at any more. -/
structure OutcomeAlike (x x' : Option Nat × AdvancedExecutionState) : Prop where
  next : x'.1 = x.1
  gas : x'.2.gasLeft = x.2.gasLeft
  base : x.2.base.Alike x'.2.base
  state : x.1 ≠ none → x.2.Alike x'.2

variable [Ethash] {code : Bytes} {i : Nat} {st st' : AdvancedExecutionState} {instr : Instruction}

/-- An instruction does the same in states that are alike, and writes no memory beyond its size. -/
theorem exec_alike (h : st.Alike st') (hblock : InBlock code st i)
    (hlimit : st.stack.top ≤ stackLimit) (hinstr : (analyze code).instrs[i]? = some instr) :
    Lockstep (fun x x' => OutcomeAlike x x' ∧ st.base.Grows x.2.base)
      (instr.exec (analyze code) i st) (instr.exec (analyze code) i st') := by
  rcases hblock.implementation hinstr with hundefined | ⟨op, hfn⟩
  · unfold Instruction.exec
    rw [hundefined]
    exact .ret ⟨⟨rfl, h.gas, Baseline.StateRel.withStatus h.base _, fun hne => absurd rfl hne⟩,
      ExecutionState.Grows.refl.withStatus _⟩
  · have hfits := hblock.fits hlimit hinstr hfn
    have hrel : AdvancedExecutionState.Related Memory.Agree (itemsRequired op)
        (st.stack.top - itemsRequired op) (st.stack.top - itemsRequired op) st st' :=
      ⟨h.stack.window hfits.base, h.gas, h.cost, h.base⟩
    refine (local_exec isMemoryRel_agree hfn (fun _ => rfl) hrel).mono fun x x' hends => ?_
    refine ⟨⟨hends.next, hends.gas, hends.base, fun hne => ?_⟩, hends.grows⟩
    obtain ⟨hheight, hheight'⟩ := hends.height hne
    exact ⟨h.stack.after hfits.base (hends.items hne) hends.untouched hends.untouched' hheight
      hheight', hends.gas, hends.cost, hends.base⟩

end Advanced

end Zvmone
