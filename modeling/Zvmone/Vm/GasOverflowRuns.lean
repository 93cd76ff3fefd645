import Zvmone.Vm.GasOverflowCore
import Zvmone.Vm.SignedInterpreters

/-! # No gas computation of a run overflows

The interpreters on signed 64-bit integers do the same as those on unbounded integers, in every step
and in every run, as long as the host gives back at most the gas of a message
(`gas_computations_are_exact`). -/

namespace Zvmone

open Interaction InstrM Instr Zvmone.Core

/-! ### The Baseline interpreter -/

/-- The gas and the memory of the frame are in range. -/
def Baseline.Frame.Representable (f : Baseline.Frame) : Prop :=
  Ctx.Representable ⟨f.stackTop, f.gas, f.state⟩

/-- If the execution goes on, then in a representable frame. -/
def Baseline.Next.Representable : Baseline.Next → Prop
  | .cont f => f.Representable
  | .done _ _ => True

namespace Signed

variable [Ethash] [SignedArithmetic]

namespace Baseline

open Zvmone.Baseline

variable {analysis : CodeAnalysis} {f : Frame}

/-- With representable gas, an instruction coincides with the unbounded one. -/
theorem coincide_invokeCore (op : Opcode) (h : f.Representable) :
    Coincide gasContract Next.Representable (invokeCore analysis op f)
      (Zvmone.Baseline.invokeCore analysis op f) := by
  have hexact := exact_coreImpl op
  unfold invokeCore Zvmone.Baseline.invokeCore
  generalize hop : Zvmone.coreImpl op = unbounded at hexact ⊢
  generalize coreImpl op = signed at hexact ⊢
  -- The frame after the instruction is representable in each shape of implementation.
  cases hexact with
  | stack fn => exact .ret ⟨h.gas_ge, h.gas_lt, h.memory⟩
  | state hfn =>
    exact (hfn f.stackTop f.state).bind fun x hx =>
      .ret ⟨h.gas_ge, h.gas_lt, hx.le.trans h.memory⟩
  | result hm =>
    refine (hm _ h).bind ?_
    rintro ⟨e | u, c⟩ hc
    · exact .ret trivial
    · exact .ret ⟨(hc u rfl).gas_ge, (hc u rfl).gas_lt, (hc u rfl).memory⟩
  | term hm =>
    refine (hm _ h).bind ?_
    rintro ⟨e | u, c⟩ -
    · exact .ret trivial
    · exact .ret trivial
  | pos =>
    obtain ⟨next, stack, hnext | hnext⟩ :=
      positionImpl_cases analysis hop f.stackTop f.state f.codeIt <;> rw [hnext]
    · exact .ret ⟨h.gas_ge, h.gas_lt, h.memory⟩
    · exact .ret trivial

omit [Ethash] in
/-- The base charge does not overflow. -/
theorem checkRequirements_eq (op : Opcode) {gasLeft : Int} (hge : -2 ^ 62 ≤ gasLeft)
    (hlt : gasLeft < 2 ^ 63) (stackTop : StackTop) :
    checkRequirements op gasLeft stackTop
      = .ret (Zvmone.Baseline.checkRequirements op gasLeft stackTop) := by
  have hnonneg := gasCosts_nonneg op
  have hle := gasCosts_le op
  unfold checkRequirements Zvmone.Baseline.checkRequirements
  split
  · rfl
  · split
    · rfl
    · rw [int64_eq (by omega) (by omega)]
      rfl

/-- A checked instruction coincides with the unbounded one. -/
theorem coincide_invoke (op : Opcode) (h : f.Representable) :
    Coincide gasContract Next.Representable (invoke analysis op f)
      (Zvmone.Baseline.invoke analysis op f) := by
  have hcost := gasCosts_nonneg op
  have hlt : f.gas < 2 ^ 63 := h.gas_lt
  unfold invoke Zvmone.Baseline.invoke
  rw [checkRequirements_eq op h.gas_ge h.gas_lt, ret_bind]
  rcases checkRequirements_cases op f.gas f.stackTop with ⟨heq, hpaid⟩ | ⟨status, gas, heq, -, hfail⟩
  · rw [heq]
    refine coincide_invokeCore op ⟨?_, ?_, h.memory⟩
    · exact le_trans (by decide) hpaid
    · dsimp only
      omega
  · rw [heq]
    cases status with
    | success => exact absurd rfl hfail.1
    | _ => exact .ret trivial

/-- One step of the interpreter. -/
theorem coincide_step (h : f.Representable) :
    Coincide gasContract Next.Representable (step analysis f) (Zvmone.Baseline.step analysis f) := by
  unfold step Zvmone.Baseline.step
  rcases analysis.executableCode[f.codeIt]? with _ | byte
  · exact .fail trivial
  · dsimp only
    rcases Opcode.ofByte byte with _ | op
    · exact .ret trivial
    · exact coincide_invoke op h

/-- The whole loop. -/
theorem coincide_dispatch (n : Nat) (h : f.Representable) :
    Coincide gasContract (fun _ => True) (dispatch analysis n f)
      (Zvmone.Baseline.dispatch analysis n f) := by
  induction n generalizing f with
  | zero => exact .fail trivial
  | succ n ih =>
    refine (coincide_step h).bind ?_
    rintro (f' | ⟨gas, st⟩) hnext
    · exact ih hnext
    · exact .ret trivial

/-- An execution coincides with the unbounded one. -/
theorem coincide_execute {msg : Message} (hgas : 0 ≤ msg.gas) (hlt : msg.gas < 2 ^ 63) (fuel : Nat)
    (code : Bytes) : Coincide gasContract (fun _ => True) (execute fuel msg code)
      (Zvmone.Baseline.execute fuel msg code) :=
  (coincide_dispatch fuel ⟨le_trans (by decide) hgas, hlt, Nat.zero_le _⟩).bind fun _ _ => .ret trivial

end Baseline

end Signed

/-! ### The analysis of the Advanced interpreter -/

namespace Advanced

/-- The largest size of a code whose costs are certain to fit 64 bits. -/
def maxAnalyzedSize : Nat := 2 ^ 47

/-- The numbers an instruction carries are in range. -/
structure Instruction.Sized (instr : Instruction) : Prop where
  fn : instr.fn = .opUndefined ∨ ∃ op, instr.fn = instructionImplementations op
  number_nonneg : 0 ≤ instr.arg.asNumber
  number_le : instr.arg.asNumber ≤ 2 ^ 62
  block_nonneg : 0 ≤ instr.arg.asBlock.gasCost
  block_lt : instr.arg.asBlock.gasCost < 2 ^ 32

/-- The base cost of an instruction is at most 32000. -/
theorem opTable_gasCost_le (opcode : UInt8) : (opTable opcode).gasCost ≤ 32000 := by
  rcases hop : Opcode.ofByte opcode with _ | op
  · simp only [opTable, hop]
    decide
  · rw [opTable_of hop]
    exact gasCosts_le op

/-- The stored cost of a block has 32 bits. -/
theorem close_gasCost_lt (b : BlockAnalysis) : b.close.gasCost < 2 ^ 32 := by
  show clamp (2 ^ 32 - 1) b.gasCost < 2 ^ 32
  unfold clamp
  split <;> omega

/-- The cost that is stored for a block has 32 bits. -/
theorem argument_gasCost_lt (code : Bytes) (i k : Nat) (block : BlockAnalysis) (item : Item)
    (items : List Item) : (argument code i k block item items).asBlock.gasCost < 2 ^ 32 := by
  unfold argument
  split
  · exact close_gasCost_lt _
  · split
    · split <;> exact (by decide : (0 : Int) < 2 ^ 32)
    · split
      · exact close_gasCost_lt _
      all_goals exact (by decide : (0 : Int) < 2 ^ 32)

/-- A number that is stored for an instruction is small. -/
theorem argument_number (code : Bytes) (i k : Nat) {block : BlockAnalysis} {item : Item}
    (hnonneg : 0 ≤ block.gasCost) (hle : block.gasCost ≤ 2 ^ 62) (hpos : item.1 ≤ 2 ^ 62)
    (items : List Item) : 0 ≤ (argument code i k block item items).asNumber ∧
      (argument code i k block item items).asNumber ≤ 2 ^ 62 := by
  have hzero : (0 : Int) ≤ 0 ∧ (0 : Int) ≤ 2 ^ 62 := by decide
  have hposition : (item.1 : Int) ≤ 2 ^ 62 := by omega
  unfold argument
  split
  · exact hzero
  · split
    · split <;> exact hzero
    · split
      all_goals first
        | exact hzero
        | exact ⟨hnonneg, hle⟩
        | exact ⟨Int.natCast_nonneg _, hposition⟩

/-- The arguments emitted for few instructions are in range. -/
theorem sized_emit {code : Bytes} {i k : Nat} {block : BlockAnalysis} {items : List Item}
    (hnonneg : 0 ≤ block.gasCost) (hle : block.gasCost + 32000 * items.length ≤ 2 ^ 62)
    (hpos : ∀ item ∈ items, item.1 ≤ 2 ^ 62) :
    ∀ instr ∈ emit code i k block items, instr.Sized := by
  induction items generalizing i k block with
  | nil => exact fun _ h => by cases h
  | cons item items ih =>
    have hcost := opTable_gasCost_nonneg item.2
    have hcost' := opTable_gasCost_le item.2
    rw [List.length_cons] at hle
    -- Each item adds at most the largest base cost to the sum of its block.
    have hblock : 0 ≤ ((blockOf i block item.2).add (opTable item.2)).gasCost ∧
        ((blockOf i block item.2).add (opTable item.2)).gasCost ≤ block.gasCost + 32000 := by
      unfold blockOf
      split
      · show 0 ≤ 0 + (opTable item.2).gasCost ∧ 0 + (opTable item.2).gasCost ≤ _
        omega
      · show 0 ≤ block.gasCost + (opTable item.2).gasCost ∧
          block.gasCost + (opTable item.2).gasCost ≤ _
        omega
    have hafter : 0 ≤ (blockAfter i block item.2).gasCost ∧
        (blockAfter i block item.2).gasCost ≤ block.gasCost + 32000 := by
      unfold blockAfter
      split
      · exact ⟨le_rfl, by show (0 : Int) ≤ _; omega⟩
      · exact hblock
    intro instr hmem
    rcases List.mem_cons.mp hmem with rfl | hmem
    · obtain ⟨hnumber, hnumber'⟩ := argument_number code i k hblock.1 (by omega)
        (hpos item (List.mem_cons_self ..)) items
      exact ⟨opTable_implementation item.2, hnumber, hnumber',
        argument_gasCost code i k (fun _ => hblock.1) items, argument_gasCost_lt ..⟩
    · exact ih hafter.1 (by omega) (fun item hitem => hpos item (List.mem_cons_of_mem _ hitem))
        instr hmem

/-- All instructions that the analysis emits have small arguments. -/
theorem sized_analyze {code : Bytes} (hcode : code.length ≤ maxAnalyzedSize) :
    ∀ instr ∈ (analyze code).instrs, instr.Sized := by
  have hitems := length_decode_le code code.length 0
  unfold maxAnalyzedSize at hcode
  intro instr hmem
  rw [analyze_eq] at hmem
  rcases List.mem_cons.mp hmem with rfl | hmem
  · exact ⟨.inr ⟨.jumpdest, rfl⟩, le_rfl, (by decide : (0 : Int) ≤ 2 ^ 62),
      le_clamp (gasCost_le_summary (newBlock 0) _) (by decide), close_gasCost_lt _⟩
  · rcases List.mem_append.mp hmem with hmem | hmem
    · refine sized_emit le_rfl ?_ (fun item hitem => ?_) instr hmem
      · show (0 : Int) + 32000 * _ ≤ 2 ^ 62
        omega
      · have := lt_of_mem_decode hitem
        omega
    · obtain rfl := List.mem_singleton.mp hmem
      exact ⟨.inr ⟨.stop, rfl⟩, le_rfl, by decide, le_rfl, by decide⟩

/-! ### The Advanced interpreter -/

/-- The gas and the memory are in range. The cost of the current block is charged in advance, so
that the gas with it taken back is in range, too. -/
structure AdvancedExecutionState.Representable (st : AdvancedExecutionState) : Prop where
  gas_nonneg : 0 ≤ st.gasLeft
  block_nonneg : 0 ≤ st.currentBlockCost
  block_lt : st.currentBlockCost < 2 ^ 32
  gas_lt : st.gasLeft + st.currentBlockCost < 2 ^ 63
  memory : st.base.memory.size ≤ maxMemorySize

/-- If the execution goes on, then in a representable state. -/
def GoesOnRepresentable (x : Option Nat × AdvancedExecutionState) : Prop :=
  ∀ i, x.1 = some i → x.2.Representable

/-- The end of an execution has nothing to represent. -/
theorem goesOnRepresentable_exit (status : StatusCode) (st : AdvancedExecutionState) :
    GoesOnRepresentable (st.exit status) :=
  fun _ h => by cases h

/-- Less gas and no larger memory. -/
theorem AdvancedExecutionState.Representable.mono {st st' : AdvancedExecutionState}
    (h : st.Representable) (hnonneg : 0 ≤ st'.gasLeft) (hle : st'.gasLeft ≤ st.gasLeft)
    (hblock : st'.currentBlockCost = st.currentBlockCost)
    (hmemory : st'.base.memory.size ≤ maxMemorySize) : st'.Representable where
  gas_nonneg := hnonneg
  block_nonneg := hblock ▸ h.block_nonneg
  block_lt := hblock ▸ h.block_lt
  gas_lt := by
    have hlt := h.gas_lt
    omega
  memory := hmemory

end Advanced

namespace Signed

variable [SignedArithmetic]

namespace Advanced

open Zvmone.Advanced

omit [SignedArithmetic] in
/-- Ending a block keeps its cost or starts from 0. -/
theorem finish_gasCost (s : AnalyzeState) (code : Bytes) (opcode : UInt8) (codePos : Nat) :
    (s.finish code opcode codePos).block.gasCost = s.block.gasCost ∨
      (s.finish code opcode codePos).block.gasCost = 0 := by
  unfold AnalyzeState.finish
  split
  · dsimp only
    split <;> exact .inl rfl
  · split
    all_goals first
      | exact .inl rfl
      | exact .inr rfl

/-- Adding one instruction to a block does not overflow, with room for the others. -/
theorem iterate_eq (s : AnalyzeState) (code : Bytes) (opcode : UInt8) (n : Nat)
    (hnonneg : 0 ≤ s.block.gasCost) (hle : s.block.gasCost + 32000 * ((n : Int) + 1) < 2 ^ 63) :
    iterate s code opcode = .ret (s.iterate code opcode) ∧
      0 ≤ (s.iterate code opcode).block.gasCost ∧
      (s.iterate code opcode).block.gasCost + 32000 * n < 2 ^ 63 := by
  have hcost := opTable_gasCost_nonneg opcode
  have hcost' := opTable_gasCost_le opcode
  obtain ⟨s₁, hs₁⟩ : ∃ s₁, s₁ = if opcode = 0x5b then s.startJumpdest s.codePos else s := ⟨_, rfl⟩
  have hstart : 0 ≤ s₁.block.gasCost ∧ s₁.block.gasCost ≤ s.block.gasCost := by
    rw [hs₁]
    split
    · exact ⟨le_rfl, hnonneg⟩
    · exact ⟨hnonneg, le_rfl⟩
  have hadd : ((s₁.append (opTable opcode)).block).gasCost
      = s₁.block.gasCost + (opTable opcode).gasCost := rfl
  have hfinish := finish_gasCost (s₁.append (opTable opcode)) code opcode (s.codePos + 1)
  unfold iterate AnalyzeState.iterate append
  dsimp only
  rw [← hs₁, int64_eq (by omega) (by omega)]
  refine ⟨rfl, ?_, ?_⟩
  · omega
  · omega

/-- The loop of the analysis does not overflow. -/
theorem analyzeLoop_eq (code : Bytes) (n : Nat) (s : AnalyzeState) (hnonneg : 0 ≤ s.block.gasCost)
    (hle : s.block.gasCost + 32000 * n < 2 ^ 63) :
    analyzeLoop code n s = .ret (Zvmone.Advanced.analyzeLoop code n s) := by
  induction n generalizing s with
  | zero => rfl
  | succ n ih =>
    unfold analyzeLoop Zvmone.Advanced.analyzeLoop
    rcases code[s.codePos]? with _ | opcode
    · rfl
    · obtain ⟨heq, hnonneg', hle'⟩ := iterate_eq s code opcode n hnonneg (by omega)
      dsimp only
      rw [heq, ret_bind]
      exact ih _ hnonneg' hle'

/-- No running total of the analysis overflows. -/
theorem analyze_eq {code : Bytes} (hcode : code.length ≤ maxAnalyzedSize) :
    analyze code = .ret (Zvmone.Advanced.analyze code) := by
  unfold maxAnalyzedSize at hcode
  have hloop := analyzeLoop_eq code code.length
    { analysis := { instrs := [{ fn := .opxBeginblock }] }, block := { beginBlockIndex := 0 },
      codePos := 0 } le_rfl (by dsimp only; omega)
  unfold analyze
  dsimp only at hloop ⊢
  rw [hloop]
  rfl

variable {i : Nat} {st : AdvancedExecutionState} {arg : InstructionArgument}

/-- Entering a block does not overflow, and the gas left stays representable. -/
theorem opxBeginblock_eq (h : st.Representable) (hnonneg : 0 ≤ arg.asBlock.gasCost)
    (hlt : arg.asBlock.gasCost < 2 ^ 32) :
    opxBeginblock arg i st = .ret (Zvmone.Advanced.opxBeginblock arg i st) ∧
      GoesOnRepresentable (Zvmone.Advanced.opxBeginblock arg i st) := by
  have hgas := h.gas_nonneg
  have hblock := h.block_nonneg
  have hlt' := h.gas_lt
  constructor
  · unfold opxBeginblock Zvmone.Advanced.opxBeginblock
    dsimp only
    rw [int64_eq (by omega) (by omega), ret_bind]
    split
    · rfl
    · split
      · rfl
      · split <;> rfl
  · intro i' hi'
    rcases opxBeginblock_cases arg i st with hnone | ⟨hpaid, -, -, hsome⟩
    · rw [hnone] at hi'
      cases hi'
    · rw [hsome]
      exact ⟨hpaid, hnonneg, hlt, by dsimp only; omega, h.memory⟩

/-- `GAS` does not overflow. -/
theorem opGas_eq (h : st.Representable) (hnonneg : 0 ≤ arg.asNumber) (hle : arg.asNumber ≤ 2 ^ 62) :
    opGas arg i st = .ret (Zvmone.Advanced.opGas arg i st) := by
  have hgas := h.gas_nonneg
  have hblock := h.block_nonneg
  have hblock' := h.block_lt
  have hlt := h.gas_lt
  unfold opGas
  rw [int64_eq (by omega) (by omega), ret_bind, int64_eq (by omega) (by omega)]
  rfl

omit [SignedArithmetic] in
/-- The contract bounds the answers to calls. -/
theorem boundedAnswer_of_post (q : HostCall) (r : q.Answer) (h : gasContract.post () q r ()) :
    BoundedAnswer q r := by
  cases q with
  | call m => exact fun _ => h
  | _ => trivial

/-- The correction fits 64 bits when it is added and when it is taken back. -/
theorem coincide_opCorrected {op : Opcode} {m m' : InstrM Unit} {accesses : StackTop → List (Word × Word)}
    (hm : Exact m m') (haccesses : m'.Accesses accesses)
    (hspends : ∀ c, wp (.answers Fault BoundedAnswer) (m' c) () fun x _ => Spends c x)
    (h : st.Representable) (hnonneg : 0 ≤ arg.asNumber) (hle : arg.asNumber ≤ 2 ^ 62) :
    Coincide gasContract GoesOnRepresentable (opCorrected op m arg i st)
      (Zvmone.Advanced.opCorrected op m' arg i st) := by
  have hgas := h.gas_nonneg
  have hblock := h.block_nonneg
  have hblock' := h.block_lt
  have hlt := h.gas_lt
  rw [opCorrected_eq]
  unfold opCorrected
  rw [int64_eq (by omega) (by omega), ret_bind]
  obtain ⟨correction, hcorrection⟩ : ∃ correction, correction = st.currentBlockCost - arg.asNumber :=
    ⟨_, rfl⟩
  rw [← hcorrection, int64_eq (by omega) (by omega), ret_bind, implResult_eq, bind_assoc]
  -- The corrected counter fits as well: the block cost has been taken from a counter that fits.
  have hctx : (st.correct correction).ctx.Representable :=
    ⟨by show -2 ^ 62 ≤ st.gasLeft + _; omega, by show st.gasLeft + _ < 2 ^ 63; omega, h.memory⟩
  refine Coincide.bind (((hm _ hctx).and_wp (hspends _) boundedAnswer_of_post).and_returns
    (haccesses st.stack st.base.memory _ rfl rfl)) ?_
  rintro ⟨e | u, c⟩ ⟨⟨hc, hspent⟩, hfail, -⟩
  · have he : implStatus (.error e) ≠ .success := (hfail e rfl).1
    rw [ret_bind, resumeCorrected, if_pos he]
    dsimp only
    rw [if_pos he]
    exact .ret (goesOnRepresentable_exit _ _)
  · have hrep := hc u rfl
    have hge : -2 ^ 62 ≤ c.gasLeft := hrep.gas_ge
    have hle : c.gasLeft ≤ st.gasLeft + correction := (hspent.ok rfl).2
    have hleft : SignedArithmetic.int64 (c.gasLeft - correction) = .ret (c.gasLeft - correction) :=
      int64_eq (by omega) (by omega)
    have hsuccess : ¬ implStatus (.ok u) ≠ .success := not_not.mpr rfl
    rw [ret_bind, resumeCorrected, if_neg hsuccess]
    dsimp only
    rw [if_neg hsuccess]
    show Coincide _ _ (SignedArithmetic.int64 (c.gasLeft - correction) >>= _) _
    rw [hleft, ret_bind]
    -- Both take the correction back and find the same sign.
    by_cases hshort : c.gasLeft - correction < 0
    · rw [if_pos hshort,
        if_pos (show ((st.correct correction).absorb op c).gasLeft - correction < 0 from hshort)]
      exact .ret (goesOnRepresentable_exit _ _)
    · rw [if_neg hshort,
        if_neg (show ¬ ((st.correct correction).absorb op c).gasLeft - correction < 0 from hshort)]
      refine .ret fun _ _ => h.mono (not_lt.mp hshort) ?_ rfl hrep.memory
      show c.gasLeft + -correction ≤ st.gasLeft
      omega

variable [Ethash]

/-- A wrapped core implementation. -/
theorem coincide_opCore {op : Opcode} (hspecial : ¬ IsSpecial op) (h : st.Representable) :
    Coincide gasContract GoesOnRepresentable (opCore op i st) (Zvmone.Advanced.opCore op i st) := by
  have hctx : st.ctx.Representable := by
    have hgas := h.gas_nonneg
    have hblock := h.block_nonneg
    have hlt := h.gas_lt
    exact ⟨by show -2 ^ 62 ≤ st.gasLeft; omega, by show st.gasLeft < 2 ^ 63; omega, h.memory⟩
  -- The two results are equal, and what the correction relies on is kept.
  have hagree : Coincide gasContract (fun x => ∀ i, x.1 = some i →
      x.2.currentBlockCost = st.currentBlockCost ∧ x.2.base.memory.size ≤ maxMemorySize)
      (opCore op i st) (Zvmone.Advanced.opCore op i st) := by
    have hexact := exact_coreImpl op
    have haccesses := accesses_coreImpl op
    unfold opCore Zvmone.Advanced.opCore
    generalize Zvmone.coreImpl op = unbounded at hexact haccesses ⊢
    generalize coreImpl op = signed at hexact ⊢
    cases hexact with
    | stack fn => exact .ret fun _ _ => ⟨rfl, h.memory⟩
    | state hfn =>
      exact (hfn st.stack st.base).bind fun x hx => .ret fun _ _ => ⟨rfl, hx.le.trans h.memory⟩
    | result hm =>
      dsimp only
      rw [implResult_eq, implResult_eq, bind_assoc, bind_assoc]
      refine ((hm _ hctx).and_returns (haccesses st.stack st.base.memory _ rfl rfl)).bind ?_
      rintro ⟨e | u, c⟩ ⟨hc, hfail, -⟩
      · have he : implStatus (.error e) ≠ .success := (hfail e rfl).1
        rw [ret_bind]
        dsimp only
        rw [if_pos he]
        exact .ret fun _ h => by cases h
      · exact .ret fun _ _ => ⟨rfl, (hc u rfl).memory⟩
    | term hm =>
      refine (hm _ hctx).bind ?_
      rintro ⟨e | u, c⟩ -
      · exact .ret fun _ h => by cases h
      · exact .ret fun _ h => by cases h
    | pos => exact .fail trivial
  -- The gas that is left fits because it has not grown.
  refine (hagree.and_wp (wp_opCore hspecial h.gas_nonneg) boundedAnswer_of_post).mono ?_
  rintro x ⟨hx, hgas⟩ i' hi'
  have hgas := hgas.gas (.inl (hi' ▸ Option.some_ne_none i'))
  exact h.mono hgas.1 hgas.2 (hx i' hi').1 (hx i' hi').2

variable {analysis : AdvancedCodeAnalysis} {instr : Instruction}

omit [SignedArithmetic] [Ethash] in
/-- A jump keeps the gas representable. -/
theorem goesOnRepresentable_opJump (h : st.Representable) :
    GoesOnRepresentable (opJump analysis st) := by
  have hpopped : ∀ i', GoesOnRepresentable (some i', { st with stack := st.stack.pop.2 }) :=
    fun _ _ _ => h.mono h.gas_nonneg le_rfl rfl h.memory
  unfold opJump
  dsimp only
  split
  · exact goesOnRepresentable_exit _ _
  · split
    · exact goesOnRepresentable_exit _ _
    next i' _ => exact hpopped i'

/-- One step of the interpreter. -/
theorem coincide_exec (hinstr : instr.Sized) (h : st.Representable) :
    Coincide gasContract GoesOnRepresentable (exec analysis instr i st)
      (instr.exec analysis i st) := by
  have hgoesOn : ∀ {next : Nat} {st' : AdvancedExecutionState}, st'.gasLeft = st.gasLeft →
      st'.currentBlockCost = st.currentBlockCost → st'.base = st.base →
      GoesOnRepresentable (some next, st') := fun hgas hblock hbase _ _ =>
    h.mono (hgas ▸ h.gas_nonneg) hgas.le hblock (hbase ▸ h.memory)
  -- The cost of a block is at most 2^32 - 1, so subtracting it does not overflow.
  have hbegin : ∀ {st' : AdvancedExecutionState}, st'.Representable →
      Coincide gasContract GoesOnRepresentable (opxBeginblock instr.arg i st')
        (pure (Zvmone.Advanced.opxBeginblock instr.arg i st')) := by
    intro st' h'
    obtain ⟨heq, hgoes⟩ := @opxBeginblock_eq _ i st' instr.arg h' hinstr.block_nonneg hinstr.block_lt
    rw [heq]
    exact .ret hgoes
  unfold exec Instruction.exec
  rcases hinstr.fn with hundefined | ⟨op, hfn⟩
  · rw [hundefined]
    exact .ret (goesOnRepresentable_exit _ _)
  · cases op with
    | sstore =>
      rw [hfn]
      exact coincide_opCorrected exact_sstore accesses_sstore wp_sstore_spends h
        hinstr.number_nonneg hinstr.number_le
    | jump =>
      rw [hfn]
      exact .ret (goesOnRepresentable_opJump h)
    | jumpi =>
      rw [hfn]
      show Coincide gasContract GoesOnRepresentable (opJumpi analysis instr.arg i st)
        (pure (Zvmone.Advanced.opJumpi analysis instr.arg i st))
      unfold opJumpi Zvmone.Advanced.opJumpi
      split
      · exact .ret fun i' hi' => (goesOnRepresentable_opJump h i' hi').mono
          (goesOnRepresentable_opJump h i' hi').gas_nonneg le_rfl rfl
          (goesOnRepresentable_opJump h i' hi').memory
      · exact hbegin (h.mono h.gas_nonneg le_rfl rfl h.memory)
    | pc =>
      rw [hfn]
      exact .ret (hgoesOn rfl rfl rfl)
    -- `GAS` corrects the counter without charging anything.
    | gas =>
      rw [hfn]
      show Coincide gasContract GoesOnRepresentable (opGas instr.arg i st) _
      rw [opGas_eq h hinstr.number_nonneg hinstr.number_le]
      exact .ret (hgoesOn rfl rfl rfl)
    | jumpdest =>
      rw [hfn]
      exact hbegin h
    | push k =>
      by_cases hsize : k.val + 1 ≤ 8
      · simp only [hfn, instructionImplementations, if_pos hsize]
        exact .ret (hgoesOn rfl rfl rfl)
      · simp only [hfn, instructionImplementations, if_neg hsize]
        split
        · exact .fail trivial
        · exact .ret (hgoesOn rfl rfl rfl)
    | create | create2 =>
      rw [hfn]
      exact coincide_opCorrected (exact_createImpl _) (accesses_createImpl _) (wp_createImpl_spends _) h
        hinstr.number_nonneg hinstr.number_le
    | call | delegatecall | staticcall =>
      rw [hfn]
      exact coincide_opCorrected (exact_callImpl _) (accesses_callImpl _) (wp_callImpl_spends _) h
        hinstr.number_nonneg hinstr.number_le
    | _ =>
      rw [hfn]
      exact coincide_opCore (fun hspecial => hspecial) h

/-- The whole loop. -/
theorem coincide_loop (hinstrs : ∀ instr ∈ analysis.instrs, instr.Sized) (n : Nat)
    (h : st.Representable) : Coincide gasContract (fun _ => True) (loop analysis n i st)
      (Zvmone.Advanced.loop analysis n i st) := by
  induction n generalizing i st with
  | zero => exact .fail trivial
  | succ n ih =>
    unfold loop Zvmone.Advanced.loop
    rcases hinstr : analysis.instrs[i]? with _ | instr
    · exact .fail trivial
    · refine (coincide_exec (hinstrs instr (List.mem_of_getElem? hinstr)) h).bind ?_
      rintro ⟨_ | i', st'⟩ hgoes
      · exact .ret trivial
      · exact ih (hgoes i' rfl)

/-- An execution of an admitted code coincides with the unbounded one. -/
theorem coincide_execute {msg : Message} (hgas : 0 ≤ msg.gas) (hlt : msg.gas < 2 ^ 63) (fuel : Nat)
    {code : Bytes} (hcode : code.length ≤ maxAnalyzedSize) :
    Coincide gasContract (fun _ => True) (execute fuel msg code)
      (Zvmone.Advanced.execute fuel msg code) := by
  have hstart : AdvancedExecutionState.Representable
      { base := .init msg code, gasLeft := msg.gas, stack := .bottom } :=
    ⟨hgas, le_rfl, (by decide : (0 : Int) < 2 ^ 32), by dsimp only; omega, Nat.zero_le _⟩
  unfold execute
  rw [analyze_eq hcode, ret_bind]
  exact (coincide_loop (sized_analyze hcode) fuel hstart).bind fun _ _ => .ret trivial

end Advanced

end Signed

/-! ### Both interpreters -/

/-- Runs that would stop at an overflow are the runs on unbounded integers, against every host that
gives back at most the gas of a message. -/
theorem run_trapping [Ethash] {σ : Type} {env : Env HostCall.Answer Fault σ}
    (henv : ∀ q s r s', gasContract.pre () q → env q s = .ok (r, s') → gasContract.post () q r ())
    {msg : Message} (hgas : 0 ≤ msg.gas) (hlt : msg.gas < 2 ^ 63) (fuel : Nat) (code : Bytes) (s : σ) :
    run env (@Signed.Baseline.execute .trapping _ fuel msg code) s
        = run env (Baseline.execute fuel msg code) s ∧
      (code.length ≤ Advanced.maxAnalyzedSize →
        run env (@Signed.Advanced.execute .trapping _ fuel msg code) s
          = run env (Advanced.execute fuel msg code) s) :=
  ⟨Coincide.run henv (@Signed.Baseline.coincide_execute _ .trapping msg hgas hlt fuel code) s,
    fun hcode =>
      Coincide.run henv (@Signed.Advanced.coincide_execute .trapping _ msg hgas hlt fuel code hcode) s⟩

/-- Gas arithmetic cannot overflow 64 bits. Whatever an overflow gives, the computations on signed
64-bit integers agree with those on unbounded integers, and the messages they send have gas that is
not negative, as long as the host gives back at most the gas of a message: in every instruction on
every stack and memory with gas that fits 64 bits after the base charge, in every instruction that
the analysis of the Advanced interpreter emits, and in every run of both interpreters. -/
theorem gas_computations_are_exact [Ethash] [SignedArithmetic] :
    (∀ (analysis : Baseline.CodeAnalysis) (op : Opcode) (f : Baseline.Frame),
      0 ≤ f.gas → f.gas < 2 ^ 63 → f.state.memory.size ≤ maxMemorySize →
      Coincide gasContract Baseline.Next.Representable (Signed.Baseline.invokeCore analysis op f)
        (Baseline.invokeCore analysis op f)) ∧
      (∀ (fuel : Nat) (msg : Message) (code : Bytes), 0 ≤ msg.gas → msg.gas < 2 ^ 63 →
        Coincide gasContract (fun _ => True) (Signed.Baseline.execute fuel msg code)
          (Baseline.execute fuel msg code)) ∧
      ∀ code : Bytes, code.length ≤ Advanced.maxAnalyzedSize →
        Signed.Advanced.analyze code = .ret (Advanced.analyze code) ∧
        (∀ instr ∈ (Advanced.analyze code).instrs, ∀ (i : Nat)
          (st : Advanced.AdvancedExecutionState), st.Representable →
          Coincide gasContract Advanced.GoesOnRepresentable
            (Signed.Advanced.exec (Advanced.analyze code) instr i st)
            (instr.exec (Advanced.analyze code) i st)) ∧
        ∀ (fuel : Nat) (msg : Message), 0 ≤ msg.gas → msg.gas < 2 ^ 63 →
          Coincide gasContract (fun _ => True) (Signed.Advanced.execute fuel msg code)
            (Advanced.execute fuel msg code) :=
  ⟨fun _ op _ hgas hlt hmemory =>
      Signed.Baseline.coincide_invokeCore op ⟨le_trans (by decide) hgas, hlt, hmemory⟩,
    fun fuel _ code hgas hlt => Signed.Baseline.coincide_execute hgas hlt fuel code,
    fun _ hcode => ⟨Signed.Advanced.analyze_eq hcode,
      fun _ hinstr _ _ h => Signed.Advanced.coincide_exec (Advanced.sized_analyze hcode _ hinstr) h,
      fun fuel _ hgas hlt => Signed.Advanced.coincide_execute hgas hlt fuel hcode⟩⟩

end Zvmone
