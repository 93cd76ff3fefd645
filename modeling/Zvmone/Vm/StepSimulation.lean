import Zvmone.Vm.BlockSimulation
import Zvmone.Vm.JumpDestinations
import Zvmone.Vm.PushValues

/-! # One instruction of both interpreters

The simulation instruction by instruction: the ones inside of a block, the jumps, the ones that begin
a block, and the end of the code. -/

namespace Zvmone

open Interaction InstrM Instr Zvmone.Core

namespace Advanced

open Baseline (Next immediateSize checkRequirements InCode Frame IsJumpdest)

variable {code : Bytes} {f : Frame} {i k : Nat} {block : BlockAnalysis} {opcode : UInt8}
  {items : List Item} {st : AdvancedExecutionState} {op : Opcode}

/-! ### Where a jump goes -/

/-- A jump pops its target. -/
theorem opJump_stack (analysis : AdvancedCodeAnalysis) (st : AdvancedExecutionState) :
    (opJump analysis st).2.stack = st.stack.pop.2 := by
  unfold opJump
  dsimp only
  split
  · rfl
  · split <;> rfl

/-- The items at a point are decoded from the code. -/
theorem PointsTo.decode_eq {pos : Nat} (h : PointsTo code i k block ((pos, opcode) :: items)) :
    ∃ n, (pos, opcode) :: items = decode code n pos ∧ code.length ≤ pos + n := by
  obtain ⟨n, pos', hitems, hlen⟩ := h.decoded
  obtain rfl : pos = pos' := pos_of_decode_eq_cons hitems
  exact ⟨n, hitems, hlen⟩

/-- A jump to a jump destination of the code goes to its instruction. -/
theorem opJump_of_isJumpdest (hlen : code.length ≤ 0xC000) (st : AdvancedExecutionState)
    (h : IsJumpdest code (st.stack.get 0).toNat) :
    ∃ target k block items,
      PointsTo code target k block (((st.stack.get 0).toNat, 0x5b) :: items) ∧
        opJump (analyze code) st = (some target, { st with stack := st.stack.pop.2 }) := by
  have hlt : (st.stack.get 0).toNat < code.length := (List.getElem?_eq_some_iff.mp h.2).1
  obtain ⟨target, hfind⟩ := Option.isSome_iff_exists.1 ((findJumpdest_isSome_iff code _).2 h)
  obtain ⟨-, k, block, items, hpoint⟩ := pointsTo_of_findJumpdest hfind
  refine ⟨target, k, block, items, hpoint, ?_⟩
  have hdst : st.stack.pop.1 = st.stack.get 0 := rfl
  unfold opJump
  dsimp only
  rw [hdst, if_neg (by omega), hfind]

/-- Every other jump fails. -/
theorem opJump_of_not_isJumpdest (st : AdvancedExecutionState)
    (h : ¬ IsJumpdest code (st.stack.get 0).toNat) :
    opJump (analyze code) st =
      AdvancedExecutionState.exit { st with stack := st.stack.pop.2 } .badJumpDestination := by
  have hnone : findJumpdest (analyze code) (st.stack.get 0).toNat = none := by
    rw [← Option.not_isSome_iff_eq_none, findJumpdest_isSome_iff]
    exact h
  have hdst : st.stack.pop.1 = st.stack.get 0 := rfl
  unfold opJump
  dsimp only
  rw [hdst, hnone]
  split
  · rfl
  · rfl

/-- At a `JUMPDEST` both gas counters are exact. -/
theorem steps_jumpdest
    (hpoint : PointsTo code i k block ((f.codeIt, 0x5b) :: items)) (hstack : st.stack = f.stackTop)
    (hbase : st.base = f.state) (hgas : st.gasLeft = f.gas) :
    Steps code (.cont f) (some i, st) := by
  have hrest := restOfBlock_jumpdest hpoint.byte
  refine .cont ⟨hpoint, hpoint.decode_eq, hstack, hbase, ?_, fun h => absurd hrest h, ?_⟩
  · rw [hrest, hgas]
    exact (Int.sub_zero _).symm
  · rw [hrest]
    rfl

/-- Jumps to the same destination arrive at the same instruction, or fail in both interpreters. -/
theorem steps_jump (hlen : code.length ≤ 0xC000) (hstack : st.stack = f.stackTop)
    (hbase : st.base = f.state) (hgas : st.gasLeft = f.gas) {stack left : StackTop} {change : Int}
    (hleft : f.stackTop.after stack change = left) :
    Steps code
      (Baseline.move f change
        ((Baseline.jumpImpl (Baseline.analyze code) f.state (f.stackTop.get 0)).1, stack,
          (Baseline.jumpImpl (Baseline.analyze code) f.state (f.stackTop.get 0)).2))
      ((opJump (analyze code) st).1, { (opJump (analyze code) st).2 with stack := left }) := by
  have hfail : StatusCode.badJumpDestination.IsFailure := by decide
  by_cases hdest : IsJumpdest code (f.stackTop.get 0).toNat
  · have hdest' := hdest
    rw [← hstack] at hdest'
    obtain ⟨target, k, block, items, hpoint, hjump⟩ := opJump_of_isJumpdest hlen st hdest'
    rw [hjump, Baseline.jumpImpl_of_isJumpdest hdest]
    rw [hstack] at hpoint
    exact steps_jumpdest hpoint hleft.symm hbase hgas
  · have hdest' := hdest
    rw [← hstack] at hdest'
    rw [opJump_of_not_isJumpdest st hdest', Baseline.jumpImpl_of_not_isJumpdest hdest]
    exact .done (.inl ⟨hfail, hfail⟩)

/-! ### Where a block begins -/

/-- No block of a code that is not too long costs more than its summary can hold. -/
theorem baseCost_restOfBlock_le (hlen : code.length ≤ 0xC000) (pos : Nat) :
    baseCost (restOfBlock code pos) ≤ 2 ^ 32 - 2 := by
  have hle := baseCost_blockFrom_le code code.length pos
  unfold restOfBlock
  omega

/-- A block begins in the Advanced interpreter, or the Baseline interpreter cannot pay for it. -/
theorem steps_begin (hlen : code.length ≤ 0xC000) (hlimit : f.stackTop.top ≤ stackLimit)
    (hnonneg : 0 ≤ f.gas) (hpoint : PointsTo code (i + 1) k (newBlock i) items)
    (hitems : ∃ n, items = decode code n f.codeIt ∧ code.length ≤ f.codeIt + n)
    (hstack : st.stack = f.stackTop) (hbase : st.base = f.state) (hgas : st.gasLeft = f.gas) :
    (∃ st', opxBeginblock (.block (blockInfo (restOfBlock code f.codeIt))) i st = (some (i + 1), st') ∧
        Matches code f (i + 1) k (newBlock i) items st') ∨
      (Unpaid code (.cont f) ∧
        GaveUp (opxBeginblock (.block (blockInfo (restOfBlock code f.codeIt))) i st)) := by
  have hfits := baseCost_restOfBlock_le hlen f.codeIt
  rcases @opxBeginblock_blockInfo (restOfBlock code f.codeIt) _ (by omega) (hstack ▸ hlimit)
    (hgas ▸ hnonneg) i with ⟨hcheck, hbegin⟩ | ⟨hcheck, st', hbegin, hfail⟩
  · rw [hstack, hgas] at hcheck
    refine .inl ⟨_, hbegin, hpoint, hitems, hstack, hbase, ?_, fun _ => ?_, hcheck⟩
    · rw [← hgas]
      rfl
    · exact (Int.zero_add _).symm
  · rw [hstack, hgas] at hcheck
    rw [hbegin]
    exact .inr ⟨hcheck, rfl, hfail⟩

/-! ### The arguments of instructions -/

/-- Other instructions have no data. -/
theorem not_isPush (hop : Opcode.ofByte opcode = some op) (h : ∀ n, op ≠ .push n) :
    ¬ IsPush opcode := by
  intro hpush
  obtain ⟨n, hn, -⟩ := Baseline.ofByte_push ⟨hpush.1, Nat.lt_succ_of_le hpush.2⟩
  rw [hn] at hop
  exact h n (Option.some.inj hop).symm

/-- What the instructions store that need the exact gas or the position. -/
theorem argument_asNumber {pos : Nat} (hop : Opcode.ofByte opcode = some op)
    (hjumpdest : opcode ≠ 0x5b) :
    (op = .pc → (argument code i k block (pos, opcode) items).asNumber = pos) ∧
      (op = .gas ∨ op = .sstore ∨ (∃ cop : CallOp, op = cop.opcode) ∨
        (∃ cop : CreateOp, op = cop.opcode) →
        (argument code i k block (pos, opcode) items).asNumber = block.gasCost) := by
  constructor
  · rintro rfl
    have hpush := not_isPush hop nofun
    unfold argument
    rw [if_neg hjumpdest, if_neg hpush, hop]
    rfl
  · intro h
    have hpush := not_isPush hop (by rintro n rfl; rcases h with h | h | ⟨⟨⟩, h⟩ | ⟨⟨⟩, h⟩ <;> cases h)
    unfold argument
    rw [if_neg hjumpdest, if_neg hpush, hop]
    rcases h with rfl | rfl | ⟨⟨⟩, rfl⟩ | ⟨⟨⟩, rfl⟩ <;> rfl

/-! ### Instructions -/

variable [Ethash]

namespace AtOpcode

/-- `GAS` adds what the rest of the block has been charged for. -/
theorem sim_gas (h : AtOpcode code f i k block opcode items st .gas) (hends : ¬ EndsBlock opcode)
    {arg : InstructionArgument} (harg : arg.asNumber = (block.add (opTable opcode)).gasCost) :
    StepSim code (Baseline.step (Baseline.analyze code) f) (.ret (opGas arg i st)) := by
  have hpos : f.codeIt + 1 = f.codeIt + 1 + immediateSize opcode := by
    rw [Baseline.immediateSize_of_not_pos h.op nofun, Nat.add_zero]
  have hexact : st.gasLeft + (st.currentBlockCost - arg.asNumber) = f.gas - gasCosts .gas := by
    have hgas := h.gas
    rw [h.correction harg]
    omega
  have hvalue : opGas arg i st = (some (i + 1),
      { st with stack := st.stack.push (.ofInt64 (f.gas - gasCosts .gas)) }) := by
    rw [← hexact]
    rfl
  rw [h.step, Baseline.invokeCore_result (show coreImpl .gas = .result Core.gas from rfl), hvalue]
  exact .ret (h.next_push hends rfl hpos _)

/-- `PC` pushes the position stored by the analysis, which fits 32 bits. -/
theorem sim_pc (hlen : code.length ≤ 0xC000) (h : AtOpcode code f i k block opcode items st .pc)
    (hends : ¬ EndsBlock opcode) {arg : InstructionArgument} (harg : arg.asNumber = f.codeIt) :
    StepSim code (Baseline.step (Baseline.analyze code) f)
      (.ret (some (i + 1), { st with stack := st.stack.push (.ofInt64 arg.asNumber) })) := by
  have hpos : f.codeIt + 1 = f.codeIt + 1 + immediateSize opcode := by
    rw [Baseline.immediateSize_eq h.op]
    rfl
  have hlt : f.codeIt < code.length := (List.getElem?_eq_some_iff.mp h.matched.point.byte).1
  have hvalue : Word.ofInt64 arg.asNumber = BitVec.ofNat 256 f.codeIt := by
    rw [harg, Word.ofInt64, Int.emod_eq_of_lt (Int.natCast_nonneg _) (by omega), Int.toNat_natCast]
  rw [h.step, Baseline.invokeCore_pos rfl, hvalue]
  exact .ret (h.next_push hends rfl hpos _)

/-- Both interpreters push the data of a PUSH. -/
theorem sim_push {n : Fin 32} (h : AtOpcode code f i k block opcode items st (.push n))
    (hends : ¬ EndsBlock opcode) {v : Word} (hv : v = pushedValue code f.codeIt (n.val + 1)) :
    StepSim code (Baseline.step (Baseline.analyze code) f)
      (.ret (some (i + 1), { st with stack := st.stack.push v })) := by
  have hpos : f.codeIt + (n.val + 1 + 1) = f.codeIt + 1 + immediateSize opcode := by
    rw [Baseline.immediateSize_eq h.op]
    show f.codeIt + (n.val + 1 + 1) = f.codeIt + 1 + (n.val + 1)
    omega
  have hlt : f.codeIt < code.length := (List.getElem?_eq_some_iff.mp h.matched.point.byte).1
  rw [h.step, Baseline.invokeCore_pos rfl, hv, ← Baseline.loadPushData_eq hlt n.isLt]
  exact .ret (h.next_push hends rfl hpos _)

/-- The value that an instruction made of a PUSH pushes. -/
theorem sim_pushImpl {n : Fin 32} (h : AtOpcode code f i k block opcode items st (.push n))
    (hends : ¬ EndsBlock opcode) {instr : Instruction}
    (hinstr : (analyze code).instrs[i]? = some instr) :
    StepSim code (Baseline.step (Baseline.analyze code) f) (instr.exec (analyze code) i st) := by
  obtain ⟨hpush, hpushSize⟩ := ofByte_eq_push h.op
  rw [h.fetch, argument, if_neg h.notJumpdest, if_pos hpush] at hinstr
  -- A small push has its value in the argument, a large one in the table of the analysis.
  by_cases hsize : n.val + 1 ≤ 8
  · simp only [instructionImplementations, if_pos hsize, if_pos (hpushSize ▸ hsize)] at hinstr
    cases hinstr
    exact h.sim_push hends (by rw [← hpushSize]; exact smallPushValue_eq (hpushSize ▸ hsize))
  · simp only [instructionImplementations, if_neg hsize, if_neg (hpushSize ▸ hsize)] at hinstr
    cases hinstr
    have hpushes := h.matched.point.pushes
    rw [pushValues, if_pos ⟨hpush, hpushSize ▸ hsize⟩] at hpushes
    have hhead := congrArg (·[0]?) hpushes
    simp only [List.getElem?_drop, Nat.add_zero, List.getElem?_cons_zero] at hhead
    have hexec : Instruction.exec (analyze code) { fn := .opPushFull, arg := .pushValue k } i st =
        .ret (some (i + 1),
          { st with stack := st.stack.push (largePushValue code (f.codeIt, opcode)) }) := by
      unfold Instruction.exec
      simp only [InstructionArgument.asPushValue, hhead]
      rfl
    rw [hexec]
    exact h.sim_push hends (by rw [← hpushSize]; exact largePushValue_eq hpush)

/-- `JUMP` goes to the same place. -/
theorem sim_jump (hlen : code.length ≤ 0xC000)
    (h : AtOpcode code f i k block opcode items st .jump) (hends : EndsBlock opcode) :
    StepSim code (Baseline.step (Baseline.analyze code) f) (.ret (opJump (analyze code) st)) := by
  have hleft : f.stackTop.after f.stackTop.pop.2 (-1) = (opJump (analyze code) st).2.stack := by
    rw [opJump_stack, h.matched.stack]
    exact f.stackTop.after_drop rfl
  rw [h.step, Baseline.invokeCore_pos rfl]
  exact .ret (steps_jump (f := { f with gas := f.gas - gasCosts .jump }) hlen h.matched.stack
    h.matched.base (h.gas_of_endsBlock hends) hleft)

/-- `JUMPI` goes to the same place, or enters the block behind it. -/
theorem sim_jumpi (hlen : code.length ≤ 0xC000)
    (h : AtOpcode code f i k block opcode items st .jumpi) (hends : EndsBlock opcode) :
    StepSim code (Baseline.step (Baseline.analyze code) f)
      (.ret (opJumpi (analyze code) (.block (blockInfo (restOfBlock code (f.codeIt + 1)))) i st)) := by
  have hdrop : f.stackTop.after f.stackTop.pop.2.pop.2 (-2) = f.stackTop.pop.2.pop.2 :=
    f.stackTop.after_drop rfl
  have hgas := h.gas_of_endsBlock hends
  rw [h.step, Baseline.invokeCore_pos rfl]
  unfold opJumpi
  by_cases hcond : f.stackTop.get 1 ≠ 0
  · have hmove : Baseline.positionImpl (Baseline.analyze code) .jumpi f.stackTop f.state f.codeIt =
        ((Baseline.jumpImpl (Baseline.analyze code) f.state (f.stackTop.get 0)).1,
          f.stackTop.pop.2.pop.2,
          (Baseline.jumpImpl (Baseline.analyze code) f.state (f.stackTop.get 0)).2) := if_pos hcond
    have hleft : f.stackTop.after f.stackTop.pop.2.pop.2 (-2) =
        (opJump (analyze code) st).2.stack.pop.2 := by
      rw [opJump_stack, h.matched.stack, hdrop]
    rw [hmove, h.matched.stack, if_pos hcond]
    exact .ret (steps_jump (f := { f with gas := f.gas - gasCosts .jumpi }) hlen h.matched.stack
      h.matched.base hgas hleft)
  · have hmove : Baseline.positionImpl (Baseline.analyze code) .jumpi f.stackTop f.state f.codeIt =
        (some (f.codeIt + 1), f.stackTop.pop.2.pop.2, f.state) := if_neg hcond
    rw [hmove, h.matched.stack, if_neg hcond]
    -- The next block begins behind the `JUMPI`.
    have hpoint := h.matched.point.next
    obtain ⟨n, hrest, hlen'⟩ := h.matched.point.rest
    rw [nextPos_jumpi h.op] at hrest hlen'
    rw [blockAfter, if_pos h.op] at hpoint
    let f' : Frame := ⟨f.codeIt + 1, f.stackTop.pop.2.pop.2, f.gas - gasCosts .jumpi, f.state⟩
    let st' : AdvancedExecutionState := { st with stack := f.stackTop.pop.2.pop.2 }
    have hlimit' : f'.stackTop.top ≤ stackLimit :=
      h.limit.trans' (by show f.stackTop.top - 1 - 1 ≤ f.stackTop.top; omega)
    have hgas' : st'.gasLeft = f'.gas := hgas
    have hstack' : st'.stack = f'.stackTop := rfl
    have hbegin := steps_begin hlen hlimit' h.paid.1 hpoint ⟨n, hrest, hlen'⟩ hstack' h.matched.base
      hgas'
    show StepSim code (.ret (.cont ⟨f.codeIt + 1, f.stackTop.after f.stackTop.pop.2.pop.2 (-2),
      f.gas - gasCosts .jumpi, f.state⟩)) _
    rw [hdrop]
    rcases hbegin with ⟨st'', hsome, hmatches⟩ | ⟨hunpaid, hfail⟩
    · rw [hsome]
      exact .ret (.cont hmatches)
    · exact .early hunpaid hfail

end AtOpcode

/-- A `JUMPDEST` and the block it begins. -/
theorem sim_jumpdest (hlen : code.length ≤ 0xC000) (hlimit : f.stackTop.top ≤ stackLimit)
    (hnonneg : 0 ≤ f.gas) (h : Matches code f i k block ((f.codeIt, 0x5b) :: items) st) :
    StepSim code (Baseline.step (Baseline.analyze code) f)
      (.ret (opxBeginblock (.block (blockInfo (0x5b :: restOfBlock code (f.codeIt + 1)))) i st)) := by
  have hbyte := h.point.byte
  have hlt : f.codeIt < code.length := (List.getElem?_eq_some_iff.mp hbyte).1
  have hcode : (Baseline.analyze code).executableCode[f.codeIt]? = some 0x5b :=
    (Baseline.padCode_of_lt hlt).trans hbyte
  have hop : Opcode.ofByte 0x5b = some .jumpdest := rfl
  have hgas : st.gasLeft = f.gas := by
    rw [h.gas, restOfBlock_jumpdest hbyte]
    exact Int.sub_zero _
  -- The summary of the block counts the `JUMPDEST` and what follows it.
  have hcost : baseCost (0x5b :: restOfBlock code (f.codeIt + 1)) =
      1 + baseCost (restOfBlock code (f.codeIt + 1)) := rfl
  have hfits := baseCost_restOfBlock_le hlen (f.codeIt + 1)
  have hsame : f.stackTop.after f.stackTop 0 = f.stackTop := by
    show StackTop.mk f.stackTop.slots ((f.stackTop.top : Int) + 0).toNat = f.stackTop
    rw [Int.add_zero, Int.toNat_natCast]
  have hnext : ∀ gas, checkRequirements .jumpdest f.gas f.stackTop = (.success, gas) →
      Baseline.step (Baseline.analyze code) f =
        .ret (.cont ⟨f.codeIt + 1, f.stackTop, gas, f.state⟩) := by
    intro gas hcheck
    rw [Baseline.step_of_checked hcode hop hcheck, ← hsame]
    rfl
  rcases @opxBeginblock_blockInfo (0x5b :: restOfBlock code (f.codeIt + 1)) _ (by omega)
    (h.stack ▸ hlimit) (hgas ▸ hnonneg) i with ⟨hcheck, hbegin⟩ | ⟨hcheck, st', hbegin, hfail⟩
  -- The block is paid: Baseline pays its first instruction and owes the rest.
  · rw [h.stack, hgas] at hcheck
    obtain ⟨hpaid, hrest⟩ := (checkEach_cons_iff hop).1 hcheck
    rw [hnext _ hpaid, hbegin]
    obtain ⟨n, hitems, hlen'⟩ := h.point.rest
    rw [nextPos_jumpdest] at hitems hlen'
    refine .ret (.cont ⟨h.point.next, ⟨n, hitems, hlen'⟩, h.stack, h.base, ?_, fun _ => rfl, ?_⟩)
    · show st.gasLeft - baseCost (0x5b :: restOfBlock code (f.codeIt + 1)) =
        f.gas - 1 - baseCost (restOfBlock code (f.codeIt + 1))
      omega
    · have htraits : (traits .jumpdest).stackHeightChange = 0 := rfl
      rw [htraits, hsame] at hrest
      exact hrest
  -- The block is refused: Advanced gives up here, and Baseline fails before its end.
  · rw [h.stack, hgas] at hcheck
    rw [hbegin]
    refine .early ?_ ⟨rfl, hfail⟩
    rcases Baseline.checkRequirements_cases .jumpdest f.gas f.stackTop with
      ⟨hpaid, -⟩ | ⟨status, gas', hunpaid, -, hstatus⟩
    · rw [hnext _ hpaid]
      intro hrest
      refine hcheck ((checkEach_cons_iff hop).2 ⟨hpaid, ?_⟩)
      have htraits : (traits .jumpdest).stackHeightChange = 0 := rfl
      rw [htraits, hsame]
      exact hrest
    · rw [Baseline.step_of_unchecked hcode hop hunpaid hstatus]
      exact hstatus

/-- Behind the code both interpreters stop. -/
theorem sim_end (hcode : InCode code f.codeIt) (hlimit : f.stackTop.top ≤ stackLimit)
    (hnonneg : 0 ≤ f.gas) (h : Matches code f i k block [] st) :
    StepSim code (Baseline.step (Baseline.analyze code) f) (opCore .stop i st) := by
  obtain ⟨n, hitems, hlen⟩ := h.items
  -- No item is left, so Baseline stands in the padding, where it reads STOP.
  have hge : code.length ≤ f.codeIt := length_le_of_decode_eq_nil hitems hlen
  have hlt : f.codeIt < code.length + 33 := by
    rcases hcode with ⟨-, hlt⟩ | ⟨-, hlt⟩ <;> omega
  have hgas : st.gasLeft = f.gas := by
    rw [h.gas, restOfBlock_of_length_le hge]
    exact Int.sub_zero _
  -- STOP needs nothing and costs nothing.
  have hcheck : checkRequirements .stop f.gas f.stackTop = (.success, f.gas) := by
    have hheight : (f.stackTop.top : Int) + 0 ≤ 1024 := by
      have hlimit' : f.stackTop.top ≤ 1024 := hlimit
      omega
    have hsuccess : (checkRequirements .stop f.gas f.stackTop).1 = .success :=
      (checkRequirements_success_iff .stop f.gas hlimit).2
        ⟨Int.natCast_nonneg _, hheight, hnonneg⟩
    refine Prod.ext hsuccess ?_
    rw [checkRequirements_gas hsuccess]
    exact Int.sub_zero _
  have hcore : coreImpl .stop = .term Core.stop := rfl
  rw [Baseline.step_of_checked (Baseline.padCode_of_ge hge hlt) rfl hcheck,
    opCore_term hcore, Baseline.invokeCore_term hcore]
  refine .ret (.done (.inr ⟨?_, hgas⟩))
  show ({ st.base with status := .success } : ExecutionState) = { f.state with status := .success }
  rw [h.base]

/-! ### One instruction -/

/-- A defined opcode inside of a block. -/
theorem AtOpcode.sim (hlen : code.length ≤ 0xC000)
    (h : AtOpcode code f i k block opcode items st op) {instr : Instruction}
    (hinstr : (analyze code).instrs[i]? = some instr) :
    StepSim code (Baseline.step (Baseline.analyze code) f) (instr.exec (analyze code) i st) := by
  -- Five instructions end their block.
  have hends : op ∉ [Opcode.jump, .jumpi, .stop, .return_, .revert] → ¬ EndsBlock opcode := by
    unfold EndsBlock
    rw [h.op]
    simp
  have hlast : op ∈ [Opcode.jump, .jumpi, .stop, .return_, .revert] → EndsBlock opcode := by
    unfold EndsBlock
    rw [h.op]
    simp
  obtain ⟨hposition, hcost⟩ := @argument_asNumber code i k (block.add (opTable opcode)) opcode items op
    f.codeIt h.op h.notJumpdest
  have hfetch := h.fetch
  rw [hinstr] at hfetch
  cases op with
  | push n => exact h.sim_pushImpl (hends (by simp)) hinstr
  | jumpdest => exact absurd (ofByte_eq_jumpdest h.op) h.notJumpdest
  | jump =>
    cases hfetch
    exact h.sim_jump hlen (hlast (by decide))
  | jumpi =>
    rw [h.matched.point.fetch_jumpi h.op] at hinstr
    cases hinstr
    exact h.sim_jumpi hlen (hlast (by decide))
  -- The argument of the instruction is its position or the cost of the block so far.
  | pc =>
    cases hfetch
    exact h.sim_pc hlen (hends (by decide)) (hposition rfl)
  | gas =>
    cases hfetch
    exact h.sim_gas (hends (by decide)) (hcost (.inl rfl))
  | sstore =>
    cases hfetch
    exact h.sim_opCorrected (hends (by decide)) rfl (hcost (.inr (.inl rfl)))
  | call =>
    cases hfetch
    exact h.sim_opCorrected (hends (by decide)) rfl (hcost (.inr (.inr (.inl ⟨.call, rfl⟩))))
  | delegatecall =>
    cases hfetch
    exact h.sim_opCorrected (hends (by decide)) rfl (hcost (.inr (.inr (.inl ⟨.delegatecall, rfl⟩))))
  | staticcall =>
    cases hfetch
    exact h.sim_opCorrected (hends (by decide)) rfl (hcost (.inr (.inr (.inl ⟨.staticcall, rfl⟩))))
  | create =>
    cases hfetch
    exact h.sim_opCorrected (hends (by decide)) rfl (hcost (.inr (.inr (.inr ⟨.create, rfl⟩))))
  | create2 =>
    cases hfetch
    exact h.sim_opCorrected (hends (by decide)) rfl (hcost (.inr (.inr (.inr ⟨.create2, rfl⟩))))
  -- The last instructions of an execution.
  | stop =>
    cases hfetch
    exact h.sim_opCore_term (hlast (by decide)) rfl (metered_pure _)
  | return_ | revert =>
    cases hfetch
    exact h.sim_opCore_term (hlast (by decide)) rfl (metered_returnImpl _)
  | dup n | swap n | log n =>
    cases hfetch
    exact h.sim_opCore (hends (by simp)) id
  | _ =>
    cases hfetch
    exact h.sim_opCore (hends (by decide)) id

/-- The loops go on side by side, unless one of them fails. -/
theorem sim_step (hlen : code.length ≤ 0xC000) (hcode : InCode code f.codeIt)
    (hlimit : f.stackTop.top ≤ stackLimit) (hnonneg : 0 ≤ f.gas)
    (h : Matches code f i k block items st) {instr : Instruction}
    (hinstr : (analyze code).instrs[i]? = some instr) :
    StepSim code (Baseline.step (Baseline.analyze code) f) (instr.exec (analyze code) i st) := by
  rcases items with _ | ⟨⟨pos, opcode⟩, items⟩
  · rw [h.point.fetch_nil] at hinstr
    cases hinstr
    exact sim_end hcode hlimit hnonneg h
  · obtain rfl : pos = f.codeIt := by
      obtain ⟨n, hitems, -⟩ := h.items
      exact pos_of_decode_eq_cons hitems
    -- A `JUMPDEST` enters its block; a byte without opcode ends both executions.
    by_cases hjumpdest : opcode = 0x5b
    · subst hjumpdest
      rw [h.point.fetch_jumpdest] at hinstr
      cases hinstr
      exact sim_jumpdest hlen hlimit hnonneg h
    · have hbyte := h.point.byte
      rcases hop : Opcode.ofByte opcode with _ | op
      · have hfail : StatusCode.undefinedInstruction.IsFailure := by decide
        have hlt : f.codeIt < code.length := (List.getElem?_eq_some_iff.mp hbyte).1
        have hcode : (Baseline.analyze code).executableCode[f.codeIt]? = some opcode :=
          (Baseline.padCode_of_lt hlt).trans hbyte
        rw [h.point.fetch] at hinstr
        cases hinstr
        unfold Baseline.step Instruction.exec opTable
        rw [hcode]
        simp only [hop]
        exact .ret (.done (.inl ⟨hfail, hfail⟩))
      · have hexec : AtOpcode code f i k block opcode items st op :=
          ⟨h, hop, hjumpdest, hlimit, hnonneg⟩
        exact hexec.sim hlen hinstr

end Advanced

end Zvmone
