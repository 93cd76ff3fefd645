import Zvmone.Vm.AdvancedRuns
import Zvmone.Vm.BaselineRuns
import Zvmone.Vm.StackLocal

/-! # The stack is never over- or underrun

The Baseline interpreter checks the height before every instruction, the Advanced interpreter once
for the whole block. In both, an instruction is executed only on a stack that it fits
(`StackTop.Fits`), and it uses no more of it than its traits declare. -/

namespace Zvmone

open Interaction InstrM StackTop Instr Zvmone.Core

/-! ### Stack requirements -/

/-- What the traits say about the number of items. -/
theorem traits_bounds (op : Opcode) :
    0 ≤ (traits op).stackHeightRequired ∧ (traits op).stackHeightRequired ≤ 17 ∧
      0 ≤ (traits op).stackHeightRequired + (traits op).stackHeightChange ∧
      (traits op).stackHeightChange ≤ 1 := by
  cases op with
  | push k | dup k | swap k | log k =>
    simp only [traits]
    omega
  | _ => decide

/-- The instruction can be executed on this stack: the items its traits require are there, every slot
it uses holds an item or is the one right above the top, and the stack stays between 0 and 1024
items high. -/
structure StackTop.Fits (s : StackTop) (op : Opcode) : Prop where
  required : (traits op).stackHeightRequired ≤ s.top
  slots : ∀ j, s.top - itemsRequired op ≤ j → j < s.top - itemsRequired op + slotsUsed op →
    j < s.top ∨ j = s.top ∧ j < 1024
  nonneg : 0 ≤ (s.top : Int) + (traits op).stackHeightChange
  limit : (s.top : Int) + (traits op).stackHeightChange ≤ 1024

/-- The requirements of an opcode. -/
theorem fits_of {s : StackTop} {op : Opcode} (hrequired : (traits op).stackHeightRequired ≤ s.top)
    (hlimit : (s.top : Int) + (traits op).stackHeightChange ≤ 1024) : s.Fits op := by
  obtain ⟨hnonneg, -, hsum, hchange⟩ := traits_bounds op
  refine ⟨hrequired, fun j hj hj' => ?_, by omega, hlimit⟩
  unfold slotsUsed itemsRequired at *
  omega

/-- A stack that fits has the items of the opcode at its top. -/
theorem StackTop.Fits.base {s : StackTop} {op : Opcode} (h : s.Fits op) :
    s.top = s.top - itemsRequired op + itemsRequired op := by
  have hrequired := h.required
  unfold itemsRequired
  omega

namespace Baseline

/-- Given a stack within its limit, `check_requirements` reports an underflow exactly if items are
missing, and an overflow exactly if the stack would become too high. -/
theorem checkRequirements_iff (op : Opcode) (gas : Int) {s : StackTop} (h : s.top ≤ stackLimit) :
    ((checkRequirements op gas s).1 = .stackUnderflow ↔
        (s.top : Int) < (traits op).stackHeightRequired) ∧
      ((checkRequirements op gas s).1 = .stackOverflow ↔
        1024 < (s.top : Int) + (traits op).stackHeightChange) := by
  obtain ⟨hnonneg, hrequired, -, hchange⟩ := traits_bounds op
  have hlimit : s.top ≤ 1024 := h
  unfold checkRequirements
  rw [show stackLimit = 1024 from rfl]
  dsimp only
  split
  next hover => exact ⟨⟨nofun, fun _ => by omega⟩, fun _ => by omega, fun _ => rfl⟩
  next hover =>
    split
    next hunder => exact ⟨⟨fun _ => by omega, fun _ => rfl⟩, nofun, fun _ => by omega⟩
    next hunder =>
      split
      next => exact ⟨⟨nofun, fun _ => by omega⟩, nofun, fun _ => by omega⟩
      next => exact ⟨⟨nofun, fun _ => by omega⟩, nofun, fun _ => by omega⟩

/-- A stack fits if the check succeeds. -/
theorem fits_of_checked {op : Opcode} {gas gas' : Int} {s : StackTop} (h : s.top ≤ stackLimit)
    (hcheck : checkRequirements op gas s = (.success, gas')) : s.Fits op := by
  obtain ⟨hunder, hover⟩ := checkRequirements_iff op gas h
  rw [hcheck] at hunder hover
  have hnotUnder := mt hunder.mpr nofun
  have hnotOver := mt hover.mpr nofun
  exact fits_of (by omega) (by omega)

/-- On a stack that fits, an instruction reads and writes only the slots it declares: started with
another stack that holds the same items at the top, it asks the same queries and leaves the same
items, and it writes no other slots. The height changes as declared. -/
def UsesDeclaredSlots [Ethash] (analysis : CodeAnalysis) (op : Opcode) (f : Frame) : Prop :=
  ∀ b' f', Frame.Related Eq (itemsRequired op) (f.stackTop.top - itemsRequired op) b' f f' →
    Lockstep (Next.Ends Eq op (f.stackTop.top - itemsRequired op) b' f f')
      (invokeCore analysis op f) (invokeCore analysis op f')

/-- A frame is related to itself. -/
theorem Frame.Related.refl {op : Opcode} {f : Frame} (h : f.stackTop.Fits op) :
    Frame.Related Eq (itemsRequired op) (f.stackTop.top - itemsRequired op)
      (f.stackTop.top - itemsRequired op) f f :=
  ⟨rfl, ⟨h.base, h.base, fun _ _ => rfl⟩, rfl, rfl, rfl⟩

variable [Ethash]

/-- An instruction that fits changes the height as declared. -/
theorem invokeCore_height {analysis : CodeAnalysis} {op : Opcode} {f : Frame}
    (h : f.stackTop.Fits op) :
    (invokeCore analysis op f).Returns (Next.Continues fun f' =>
      (f'.stackTop.top : Int) = f.stackTop.top + (traits op).stackHeightChange) := by
  refine (local_invokeCore isMemoryRel_eq op (.refl h)).returns.imp ?_
  rintro next ⟨next', hends⟩
  cases hends with
  | cont _ _ _ _ _ _ height => exact height
  | done _ => trivial

/-- An instruction keeps the stack within its limit. -/
theorem step_height {analysis : CodeAnalysis} {f : Frame} (h : f.stackTop.top ≤ stackLimit) :
    (step analysis f).Returns (Next.Continues fun f' => f'.stackTop.top ≤ stackLimit) := by
  refine step_returns (fun byte op gas _ _ hcheck => ?_) fun _ _ _ => trivial
  have hfits := fits_of_checked h hcheck
  refine (invokeCore_height (f := { f with gas }) hfits).imp fun next hnext => ?_
  cases next with
  | done _ _ => trivial
  | cont f' =>
    have hheight : (f'.stackTop.top : Int) = f.stackTop.top + (traits op).stackHeightChange := hnext
    have hlimit := hfits.limit
    show f'.stackTop.top ≤ 1024
    omega

/-- The stack is within its limit at every instruction. -/
theorem Passes.height {σ : Type} {env : Env HostCall.Answer Fault σ} {analysis : CodeAnalysis}
    {msg : Message} {code : Bytes} {n : Nat} {f : Frame} {s s' : σ}
    (h : Passes env analysis (.start msg code) s n f s') : f.stackTop.top ≤ stackLimit :=
  h.invariant (Nat.zero_le _) fun _ => step_height

end Baseline

/-! ### Blocks of the Advanced interpreter -/

namespace Advanced

/-- The height `h` at the beginning of the block was checked against the summary of the whole block,
and the instructions before `items` have changed it to `top`. -/
def BlockFits (block : BlockAnalysis) (items : List Item) (top : Nat) : Prop :=
  ∃ h : Int, (top : Int) = h + block.stackChange ∧ (summary block items).stackReq ≤ h ∧
    h + (summary block items).stackMaxGrowth ≤ 1024

/-- The totals of a block only grow. -/
theorem le_summary (block : BlockAnalysis) (items : List Item) :
    block.stackReq ≤ (summary block items).stackReq ∧
      block.stackMaxGrowth ≤ (summary block items).stackMaxGrowth := by
  have hadd : ∀ (block : BlockAnalysis) info, block.stackReq ≤ (block.add info).stackReq ∧
      block.stackMaxGrowth ≤ (block.add info).stackMaxGrowth :=
    fun block info => ⟨le_max_left _ _, le_max_left _ _⟩
  induction items generalizing block with
  | nil => exact ⟨le_rfl, le_rfl⟩
  | cons item items ih =>
    obtain ⟨pos, opcode⟩ := item
    obtain ⟨hreq, hgrowth⟩ := hadd block (opTable opcode)
    unfold summary
    split
    · exact ⟨le_rfl, le_rfl⟩
    · split
      · exact ⟨hreq, hgrowth⟩
      · obtain ⟨hreq', hgrowth'⟩ := ih (block.add (opTable opcode))
        exact ⟨hreq.trans hreq', hgrowth.trans hgrowth'⟩

/-- One check covers every instruction of the block. -/
theorem BlockFits.instruction {block : BlockAnalysis} {pos : Nat} {opcode : UInt8}
    {items : List Item} {top : Nat} (h : BlockFits block ((pos, opcode) :: items) top)
    (hjumpdest : opcode ≠ 0x5b) :
    (opTable opcode).stackReq ≤ top ∧ (top : Int) + (opTable opcode).stackChange ≤ 1024 := by
  obtain ⟨height, htop, hreq, hgrowth⟩ := h
  have hle : (block.add (opTable opcode)).stackReq ≤
        (summary block ((pos, opcode) :: items)).stackReq ∧
      (block.add (opTable opcode)).stackMaxGrowth ≤
        (summary block ((pos, opcode) :: items)).stackMaxGrowth := by
    unfold summary
    rw [if_neg hjumpdest]
    split
    · exact ⟨le_rfl, le_rfl⟩
    · exact le_summary ..
  have hreq' : (opTable opcode).stackReq - block.stackChange ≤
      (block.add (opTable opcode)).stackReq := le_max_right _ _
  have hgrowth' : block.stackChange + (opTable opcode).stackChange ≤
      (block.add (opTable opcode)).stackMaxGrowth := le_max_right _ _
  omega

/-- The rest of the block fits after an instruction. -/
theorem BlockFits.next {block : BlockAnalysis} {i pos : Nat} {opcode : UInt8} {items : List Item}
    {top top' : Nat} (h : BlockFits block ((pos, opcode) :: items) top) (hjumpdest : opcode ≠ 0x5b)
    (hjumpi : Opcode.ofByte opcode ≠ some .jumpi)
    (htop' : (top' : Int) = top + (opTable opcode).stackChange) :
    BlockFits (blockAfter i block opcode) items top' := by
  obtain ⟨height, htop, hreq, hgrowth⟩ := h
  unfold summary at hreq hgrowth
  rw [if_neg hjumpdest, if_neg hjumpi] at hreq hgrowth
  unfold blockAfter blockOf
  rw [if_neg hjumpi, if_neg hjumpdest]
  refine ⟨height, ?_, hreq, hgrowth⟩
  show (top' : Int) = height + (block.stackChange + (opTable opcode).stackChange)
  omega

/-- Clamping does not matter for a total that is compared with a smaller number. -/
theorem le_of_clamp_le {max x y : Int} (h : clamp max x ≤ y) (hy : y < max) : x ≤ y := by
  unfold clamp at h
  split at h
  · exact h
  · exact absurd h (not_le.mpr hy)

/-- What `opx_beginblock` has checked if the execution goes on. The totals are clamped to 16 bits,
which is more than the stack can hold. -/
theorem blockFits_of_opxBeginblock {block : BlockAnalysis} {items : List Item} {i i' : Nat}
    {st st' : AdvancedExecutionState} (hchange : block.stackChange = 0)
    (hlimit : st.stack.top ≤ stackLimit)
    (h : opxBeginblock (.block (summary block items).close) i st = (some i', st')) :
    i' = i + 1 ∧ st'.stack = st.stack ∧ BlockFits block items st.stack.top := by
  have hlimit : st.stack.top ≤ 1024 := hlimit
  rcases opxBeginblock_cases (.block (summary block items).close) i st with
    hnone | ⟨-, hreq, hgrowth, hsome⟩
  · rw [h] at hnone
    cases hnone
  · rw [h] at hsome
    cases hsome
    refine ⟨rfl, rfl, st.stack.top, by rw [hchange, Int.add_zero], ?_, ?_⟩
    · exact le_of_clamp_le hreq (by omega)
    · have hclamp : clamp (2 ^ 15 - 1) (summary block items).stackMaxGrowth ≤
          1024 - st.stack.top := by
        have := hgrowth
        dsimp only [InstructionArgument.asBlock, BlockAnalysis.close] at this
        omega
      have := le_of_clamp_le hclamp (by omega)
      omega

/-- The traits of an opcode, from the table of the analysis. -/
theorem opTable_of {opcode : UInt8} {op : Opcode} (h : Opcode.ofByte opcode = some op) :
    opTable opcode = ⟨instructionImplementations op, gasCosts op, (traits op).stackHeightRequired,
      (traits op).stackHeightChange⟩ := by
  unfold opTable
  rw [h]

/-- On a stack that fits, an instruction reads and writes only the slots it declares: started with
another stack that holds the same items at the top, it asks the same queries and leaves the same
items, and it writes no other slots. The height changes as declared. Only the checks at the beginning
of a block, in `JUMPDEST` and `JUMPI`, look at the height. -/
def UsesDeclaredSlots [Ethash] (analysis : AdvancedCodeAnalysis) (instr : Instruction) (op : Opcode)
    (i : Nat) (st : AdvancedExecutionState) : Prop :=
  ∀ b' st', AdvancedExecutionState.Related Eq (itemsRequired op)
      (st.stack.top - itemsRequired op) b' st st' →
    (op = .jumpdest ∨ op = .jumpi → st.stack.top - itemsRequired op = b') →
    Lockstep (Ends Eq op (st.stack.top - itemsRequired op) b' st st')
      (instr.exec analysis i st) (instr.exec analysis i st')

/-- Where the loop is in the code, and that the rest of the block fits the stack. A `JUMPDEST` starts
a new block. -/
inductive InBlock (code : Bytes) (st : AdvancedExecutionState) : Nat → Prop
  | entry : InBlock code st 0
  | jumpdest {i k pos : Nat} {block : BlockAnalysis} {items : List Item}
      (h : PointsTo code i k block ((pos, 0x5b) :: items)) : InBlock code st i
  | inside {i k : Nat} {block : BlockAnalysis} {items : List Item}
      (h : PointsTo code i k block items) (hfits : BlockFits block items st.stack.top) :
      InBlock code st i

variable [Ethash] {code : Bytes} {i : Nat} {st : AdvancedExecutionState} {instr : Instruction}

/-- A function that is an implementation uses the slots of its opcode. -/
theorem exec_usesDeclaredSlots {analysis : AdvancedCodeAnalysis} {op : Opcode}
    (hfn : instr.fn = instructionImplementations op) :
    UsesDeclaredSlots analysis instr op i st :=
  fun _ _ h hblock => local_exec isMemoryRel_eq hfn hblock h

/-- An instruction that fits changes the height as declared. -/
theorem exec_height {analysis : AdvancedCodeAnalysis} {op : Opcode}
    (hfn : instr.fn = instructionImplementations op) (h : st.stack.Fits op) :
    (instr.exec analysis i st).Returns (Continues fun _ st' =>
      (st'.stack.top : Int) = st.stack.top + (traits op).stackHeightChange) := by
  refine (exec_usesDeclaredSlots hfn _ st ⟨⟨h.base, h.base, fun _ _ => rfl⟩, rfl, rfl, rfl, rfl⟩
    fun _ => rfl).returns.imp ?_
  rintro ⟨_ | i', st'⟩ ⟨x, hends⟩
  · trivial
  · exact (hends.height (Option.some_ne_none i')).1

/-- The items a function requires and the change of the height. -/
def ExecFn.stackEffect : ExecFn → Int × Int
  | .op opcode => ((traits opcode).stackHeightRequired, (traits opcode).stackHeightChange)
  | .opSstore | .opJumpi => (2, -2)
  | .opxBeginblock | .opUndefined => (0, 0)
  | .opJump => (1, -1)
  | .opPc | .opGas | .opPushSmall | .opPushFull => (0, 1)
  | .opCall .call => (7, -6)
  | .opCall .delegatecall | .opCall .staticcall => (6, -5)
  | .opCreate .create => (3, -2)
  | .opCreate .create2 => (4, -3)

omit [Ethash] in
/-- The stack effect of a function is that of its opcode. -/
theorem stackEffect_instructionImplementations (op : Opcode) :
    (instructionImplementations op).stackEffect =
      ((traits op).stackHeightRequired, (traits op).stackHeightChange) := by
  cases op with
  | push k =>
    by_cases hsize : k.val + 1 ≤ 8
    · simp only [instructionImplementations, if_pos hsize]
      rfl
    · simp only [instructionImplementations, if_neg hsize]
      rfl
  | _ => rfl

omit [Ethash] in
/-- The stack fits the function of an instruction in a block. -/
theorem InBlock.stackEffect (h : InBlock code st i) (hlimit : st.stack.top ≤ stackLimit)
    (hinstr : (analyze code).instrs[i]? = some instr) :
    instr.fn.stackEffect.1 ≤ st.stack.top ∧
      (st.stack.top : Int) + instr.fn.stackEffect.2 ≤ 1024 := by
  have hlimit : st.stack.top ≤ 1024 := hlimit
  -- The begin of a block and the end of the code do not touch the stack.
  have hzero : instr.fn.stackEffect = (0, 0) → instr.fn.stackEffect.1 ≤ st.stack.top ∧
      (st.stack.top : Int) + instr.fn.stackEffect.2 ≤ 1024 := by
    intro heffect
    rw [heffect]
    omega
  cases h with
  | entry =>
    rw [instrs_zero] at hinstr
    cases hinstr
    exact hzero rfl
  | jumpdest hpoint =>
    rw [hpoint.fetch] at hinstr
    cases hinstr
    exact hzero rfl
  | @inside _ _ block items hpoint hfits =>
    cases items with
    | nil =>
      rw [hpoint.fetch_nil] at hinstr
      cases hinstr
      exact hzero rfl
    | cons item items =>
      obtain ⟨pos, opcode⟩ := item
      rw [hpoint.fetch] at hinstr
      cases hinstr
      dsimp only at hzero ⊢
      by_cases hjumpdest : opcode = 0x5b
      · subst hjumpdest
        exact hzero rfl
      · rcases hop : Opcode.ofByte opcode with _ | op
        · refine hzero ?_
          unfold opTable
          rw [hop]
          rfl
        -- The check of the block covers each of its instructions.
        · have hinstruction := hfits.instruction hjumpdest
          rw [opTable_of hop] at hinstruction ⊢
          rw [stackEffect_instructionImplementations]
          exact hinstruction

omit [Ethash] in
/-- Inside of a block every stack fits. -/
theorem InBlock.fits {op : Opcode} (h : InBlock code st i) (hlimit : st.stack.top ≤ stackLimit)
    (hinstr : (analyze code).instrs[i]? = some instr)
    (hfn : instr.fn = instructionImplementations op) : st.stack.Fits op := by
  have heffect := h.stackEffect hlimit hinstr
  rw [hfn, stackEffect_instructionImplementations] at heffect
  exact fits_of heffect.1 heffect.2

omit [Ethash] in
/-- The table of the analysis has the implementations of the opcodes. -/
theorem opTable_implementation (opcode : UInt8) : (opTable opcode).fn = .opUndefined ∨
    ∃ op, (opTable opcode).fn = instructionImplementations op := by
  rcases hop : Opcode.ofByte opcode with _ | op
  · unfold opTable
    rw [hop]
    exact .inl rfl
  · rw [opTable_of hop]
    exact .inr ⟨op, rfl⟩

omit [Ethash] in
/-- Every instruction is the function of an opcode, or the one for undefined opcodes. -/
theorem InBlock.implementation (h : InBlock code st i)
    (hinstr : (analyze code).instrs[i]? = some instr) :
    instr.fn = .opUndefined ∨ ∃ op, instr.fn = instructionImplementations op := by
  cases h with
  | entry =>
    rw [instrs_zero] at hinstr
    cases hinstr
    exact .inr ⟨.jumpdest, rfl⟩
  | jumpdest hpoint =>
    rw [hpoint.fetch] at hinstr
    cases hinstr
    exact opTable_implementation 0x5b
  | @inside _ _ block items hpoint =>
    cases items with
    | nil =>
      rw [hpoint.fetch_nil] at hinstr
      cases hinstr
      exact .inr ⟨.stop, rfl⟩
    | cons item items =>
      rw [hpoint.fetch] at hinstr
      cases hinstr
      exact opTable_implementation item.2

omit [Ethash] in
/-- After a successful check the loop is inside the block. -/
theorem inBlock_of_opxBeginblock {k : Nat} (block : BlockAnalysis) {items : List Item}
    (hpoint : PointsTo code (i + 1) k block items) (hchange : block.stackChange = 0)
    (hlimit : st.stack.top ≤ stackLimit) :
    Continues (fun i' st' => InBlock code st' i')
      (opxBeginblock (.block (summary block items).close) i st) := by
  rcases hcheck : opxBeginblock (.block (summary block items).close) i st with ⟨_ | i', st'⟩
  · trivial
  · obtain ⟨rfl, hstack, hfits⟩ := blockFits_of_opxBeginblock hchange hlimit hcheck
    exact .inside hpoint (hstack ▸ hfits)

omit [Ethash] in
/-- A jump leads to the beginning of a block. -/
theorem inBlock_of_opJump {i' : Nat} {st' st'' : AdvancedExecutionState}
    (h : opJump (analyze code) st = (some i', st')) : InBlock code st'' i' := by
  obtain ⟨offset, hfind⟩ := opJump_next h
  obtain ⟨-, k, block, items, hpoint⟩ := pointsTo_of_findJumpdest hfind
  exact .jumpdest hpoint

/-- A `JUMPDEST` begins a block. -/
theorem inBlock_of_jumpdest {k pos : Nat} {block : BlockAnalysis} {items : List Item}
    (hpoint : PointsTo code i k block ((pos, 0x5b) :: items)) (hlimit : st.stack.top ≤ stackLimit)
    (hinstr : (analyze code).instrs[i]? = some instr) :
    (instr.exec (analyze code) i st).Returns (Continues fun i' st' => InBlock code st' i') := by
  rw [hpoint.fetch] at hinstr
  cases hinstr
  exact inBlock_of_opxBeginblock ((newBlock i).add (opTable 0x5b)) hpoint.next rfl hlimit

/-- `JUMPI` jumps or begins a block. -/
theorem inBlock_of_jumpi {k pos : Nat} {opcode : UInt8} {block : BlockAnalysis} {items : List Item}
    (hop : Opcode.ofByte opcode = some .jumpi)
    (hpoint : PointsTo code i k block ((pos, opcode) :: items)) (hlimit : st.stack.top ≤ stackLimit)
    (hinstr : (analyze code).instrs[i]? = some instr) :
    (instr.exec (analyze code) i st).Returns (Continues fun i' st' => InBlock code st' i') := by
  have hnext := hpoint.next
  unfold blockAfter at hnext
  rw [if_pos hop] at hnext
  rw [hpoint.fetch] at hinstr
  cases hinstr
  obtain ⟨hjumpdest, hpush⟩ := ofByte_eq_jumpi hop
  unfold Instruction.exec argument
  rw [opTable_of hop, if_neg hjumpdest, if_neg hpush, hop]
  show Continues (fun i' st' => InBlock code st' i') (opJumpi (analyze code)
    (.block (summary (newBlock i) items).close) i st)
  unfold opJumpi
  split
  · rcases hjump : opJump (analyze code) st with ⟨_ | i', st'⟩
    · trivial
    · exact inBlock_of_opJump hjump
  · refine inBlock_of_opxBeginblock _ hnext rfl (le_trans ?_ hlimit)
    show st.stack.top - 1 - 1 ≤ st.stack.top
    omega

omit [Ethash] in
/-- Only the jumps have the functions of the jumps. -/
theorem eq_of_instructionImplementations {op : Opcode} :
    (instructionImplementations op = .opJump → op = .jump) ∧
      (instructionImplementations op = .opJumpi → op = .jumpi) := by
  cases op with
  | push k =>
    by_cases hsize : k.val + 1 ≤ 8
    · simp only [instructionImplementations, if_pos hsize]
      constructor <;> intro h <;> cases h
    · simp only [instructionImplementations, if_neg hsize]
      constructor <;> intro h <;> cases h
  | jump => exact ⟨fun _ => rfl, fun h => (by cases h)⟩
  | jumpi => exact ⟨fun h => (by cases h), fun _ => rfl⟩
  | _ => constructor <;> intro h <;> cases h

/-- Other instructions go on in the block. -/
theorem inBlock_of_plain {k pos : Nat} {opcode : UInt8} {block : BlockAnalysis} {items : List Item}
    (hjumpdest : opcode ≠ 0x5b) (hjumpi : Opcode.ofByte opcode ≠ some .jumpi)
    (hpoint : PointsTo code i k block ((pos, opcode) :: items))
    (hfits : BlockFits block ((pos, opcode) :: items) st.stack.top)
    (hlimit : st.stack.top ≤ stackLimit) (hinstr : (analyze code).instrs[i]? = some instr) :
    (instr.exec (analyze code) i st).Returns (Continues fun i' st' => InBlock code st' i') := by
  rcases hop : Opcode.ofByte opcode with _ | op
  · rw [hpoint.fetch] at hinstr
    cases hinstr
    unfold Instruction.exec opTable
    rw [hop]
    exact trivial
  · have hfn : instr.fn = instructionImplementations op := by
      rw [hpoint.fetch] at hinstr
      cases hinstr
      rw [opTable_of hop]
    -- A jump leaves the block for the beginning of another one.
    by_cases hjump : op = .jump
    · subst hjump
      unfold Instruction.exec
      rw [hfn]
      show Continues (fun i' st' => InBlock code st' i') (opJump (analyze code) st)
      rcases hresult : opJump (analyze code) st with ⟨_ | i', st'⟩
      · trivial
      · exact inBlock_of_opJump hresult
    · have hnotJump : instr.fn ≠ .opJump := fun h =>
        hjump (eq_of_instructionImplementations.1 (hfn ▸ h))
      have hnotJumpi : instr.fn ≠ .opJumpi := fun h =>
        hjumpi (hop.trans (congrArg some (eq_of_instructionImplementations.2 (hfn ▸ h))))
      have hfitsOp := (InBlock.inside hpoint hfits).fits hlimit hinstr hfn
      -- Any other instruction goes on to the next item, with the height that the analysis expects
      -- there.
      refine ((exec_next hnotJump hnotJumpi).and (exec_height hfn hfitsOp)).imp ?_
      rintro ⟨_ | i', st'⟩ ⟨hnext, hheight⟩
      · trivial
      · obtain rfl : i' = i + 1 := by simpa using hnext
        have hheight : (st'.stack.top : Int) = st.stack.top + (traits op).stackHeightChange := hheight
        refine .inside hpoint.next (hfits.next hjumpdest hjumpi ?_)
        rw [opTable_of hop]
        exact hheight

/-- The block goes on, or another one begins. -/
theorem InBlock.exec (h : InBlock code st i) (hlimit : st.stack.top ≤ stackLimit)
    (hinstr : (analyze code).instrs[i]? = some instr) :
    (instr.exec (analyze code) i st).Returns (Continues fun i' st' => InBlock code st' i') := by
  cases h with
  | entry =>
    rw [instrs_zero] at hinstr
    cases hinstr
    exact inBlock_of_opxBeginblock _ (pointsTo_one code) rfl hlimit
  | jumpdest hpoint => exact inBlock_of_jumpdest hpoint hlimit hinstr
  | @inside _ k block items hpoint hfits =>
    cases items with
    | nil =>
      rw [hpoint.fetch_nil] at hinstr
      cases hinstr
      exact trivial
    | cons item items =>
      obtain ⟨pos, opcode⟩ := item
      by_cases hjumpdest : opcode = 0x5b
      · subst hjumpdest
        exact inBlock_of_jumpdest hpoint hlimit hinstr
      · by_cases hjumpi : Opcode.ofByte opcode = some .jumpi
        · exact inBlock_of_jumpi hjumpi hpoint hlimit hinstr
        · exact inBlock_of_plain hjumpdest hjumpi hpoint hfits hlimit hinstr

/-- The loop stays in blocks that fit, on a stack within its limit. -/
theorem InBlock.step (h : InBlock code st i) (hlimit : st.stack.top ≤ stackLimit)
    (hinstr : (analyze code).instrs[i]? = some instr) :
    (instr.exec (analyze code) i st).Returns
      (Continues fun i' st' => st'.stack.top ≤ stackLimit ∧ InBlock code st' i') := by
  have hexec := h.exec hlimit hinstr
  rcases h.implementation hinstr with hundefined | ⟨op, hfn⟩
  · unfold Instruction.exec
    rw [hundefined]
    exact trivial
  · have hfits := h.fits hlimit hinstr hfn
    refine (hexec.and (exec_height hfn hfits)).imp ?_
    rintro ⟨_ | i', st'⟩ ⟨hblock, hheight⟩
    · trivial
    · have hheight : (st'.stack.top : Int) = st.stack.top + (traits op).stackHeightChange := hheight
      have hfit := hfits.limit
      refine ⟨?_, hblock⟩
      show st'.stack.top ≤ 1024
      omega

/-- At every instruction the loop is in a block that fits, on a stack within its limit. -/
theorem Passes.inBlock {σ : Type} {env : Env HostCall.Answer Fault σ} {msg : Message} {n : Nat}
    {s s' : σ} (h : Passes env (analyze code) 0 (.start msg code) s n i st s') :
    st.stack.top ≤ stackLimit ∧ InBlock code st i :=
  h.invariant (P := fun i st => st.stack.top ≤ stackLimit ∧ InBlock code st i)
    ⟨Nat.zero_le _, .entry⟩ fun _ _ _ hP => hP.2.step hP.1

end Advanced

/-! ### Both interpreters -/

/-- The stack stays within its bounds. In both interpreters every instruction is executed on a stack
of at most 1024 items that it fits: the core implementation reads and writes only the slots declared,
and the height changes as declared. The check of the Baseline interpreter is exact. -/
theorem stack_stays_in_bounds [Ethash] {σ : Type} (env : Env HostCall.Answer Fault σ) (msg : Message)
    (code : Bytes) (s : σ) :
    (∀ op, LocalFn Eq (itemsRequired op) (slotsUsed op) (coreImpl op)) ∧
      (∀ op gas (stack : StackTop), stack.top ≤ stackLimit →
        ((Baseline.checkRequirements op gas stack).1 = .stackUnderflow ↔
            (stack.top : Int) < (traits op).stackHeightRequired) ∧
          ((Baseline.checkRequirements op gas stack).1 = .stackOverflow ↔
            1024 < (stack.top : Int) + (traits op).stackHeightChange)) ∧
      (∀ n f s', Baseline.Passes env (Baseline.analyze code) (.start msg code) s n f s' →
        f.stackTop.top ≤ stackLimit ∧
          ∀ op gas, Baseline.checkRequirements op f.gas f.stackTop = (.success, gas) →
            f.stackTop.Fits op ∧
              Baseline.UsesDeclaredSlots (Baseline.analyze code) op { f with gas }) ∧
      ∀ n i st s' instr,
        Advanced.Passes env (Advanced.analyze code) 0 (.start msg code) s n i st s' →
        (Advanced.analyze code).instrs[i]? = some instr →
          st.stack.top ≤ stackLimit ∧
            (instr.fn = .opUndefined ∨ ∃ op, instr.fn = Advanced.instructionImplementations op) ∧
            ∀ op, instr.fn = Advanced.instructionImplementations op →
              st.stack.Fits op ∧
                Advanced.UsesDeclaredSlots (Advanced.analyze code) instr op i st := by
  refine ⟨local_coreImpl isMemoryRel_eq, fun op gas stack => Baseline.checkRequirements_iff op gas,
    fun n f s' h => ⟨h.height, fun op gas hcheck => ⟨Baseline.fits_of_checked h.height hcheck,
      fun b' f' hrel => Baseline.local_invokeCore isMemoryRel_eq op hrel⟩⟩, ?_⟩
  -- Advanced checks a whole block at its start; `InBlock` carries what the check promised.
  intro n i st s' instr h hinstr
  obtain ⟨hlimit, hblock⟩ := h.inBlock
  exact ⟨hlimit, hblock.implementation hinstr, fun op hfn =>
    ⟨hblock.fits hlimit hinstr hfn, Advanced.exec_usesDeclaredSlots hfn⟩⟩

end Zvmone
