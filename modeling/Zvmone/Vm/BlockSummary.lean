import Zvmone.Vm.AdvancedGas
import Zvmone.Vm.ControlFlow

/-! # The summary of a block

The analysis adds up what the instructions of a block require (`blockInfo`), and `opxBeginblock`
checks the sums. A block starts exactly if checking its instructions one by one (`checkEach`) reports
nothing, and is charged their total cost, as long as this total fits the field of the summary
(`exactSummary_iff`). -/

namespace Zvmone

namespace Advanced

open Instr

open Baseline (checkRequirements immediateSize)

/-! ### The requirements of a list of instructions -/

/-- The base gas cost of an opcode. -/
def opcodeCost (opcode : UInt8) : Int := (Opcode.ofByte opcode).elim 0 gasCosts

/-- The stack height an opcode requires. -/
def opcodeRequired (opcode : UInt8) : Int :=
  (Opcode.ofByte opcode).elim 0 fun op => (traits op).stackHeightRequired

/-- The change of the stack height by an opcode. -/
def opcodeChange (opcode : UInt8) : Int :=
  (Opcode.ofByte opcode).elim 0 fun op => (traits op).stackHeightChange

/-- The total base gas cost of the instructions. -/
def baseCost : List UInt8 → Int
  | [] => 0
  | opcode :: opcodes => opcodeCost opcode + baseCost opcodes

/-- The minimum stack height needed to execute all the instructions. -/
def stackRequired : List UInt8 → Int
  | [] => 0
  | opcode :: opcodes => max (opcodeRequired opcode) (stackRequired opcodes - opcodeChange opcode)

/-- The maximum stack height growth relative to the height at the start. -/
def maxGrowth : List UInt8 → Int
  | [] => 0
  | opcode :: opcodes => max 0 (opcodeChange opcode + maxGrowth opcodes)

/-- Check the requirements of the instructions one by one, each with the gas and at the height the
ones before leave. An undefined opcode requires nothing. -/
def checkEach : List UInt8 → Int → StackTop → StatusCode
  | [], _, _ => .success
  | opcode :: opcodes, gas, stack =>
    match Opcode.ofByte opcode with
    | none => checkEach opcodes gas stack
    | some op =>
      let (status, gas) := checkRequirements op gas stack
      if status = .success then
        checkEach opcodes gas (stack.after stack (traits op).stackHeightChange)
      else status

/-- The base cost of an opcode is not negative. -/
theorem opcodeCost_nonneg (opcode : UInt8) : 0 ≤ opcodeCost opcode := by
  unfold opcodeCost
  rcases Opcode.ofByte opcode with _ | op
  · exact le_rfl
  · exact gasCosts_nonneg op

/-- An instruction takes no more items than it requires. -/
theorem opcode_bounds (opcode : UInt8) :
    0 ≤ opcodeRequired opcode ∧ 0 ≤ opcodeRequired opcode + opcodeChange opcode := by
  unfold opcodeRequired opcodeChange
  rcases Opcode.ofByte opcode with _ | op
  · exact ⟨le_rfl, le_rfl⟩
  · obtain ⟨hnonneg, -, hsum, -⟩ := traits_bounds op
    exact ⟨hnonneg, hsum⟩

/-- The base cost of a block is not negative. -/
theorem baseCost_nonneg (opcodes : List UInt8) : 0 ≤ baseCost opcodes := by
  induction opcodes with
  | nil => exact le_rfl
  | cons opcode opcodes ih => exact Int.add_nonneg (opcodeCost_nonneg opcode) ih

/-- The number of items a block requires is not negative. -/
theorem stackRequired_nonneg (opcodes : List UInt8) : 0 ≤ stackRequired opcodes := by
  cases opcodes with
  | nil => exact le_rfl
  | cons opcode opcodes => exact (opcode_bounds opcode).1.trans (le_max_left _ _)

/-- The growth of a block counts from 0. -/
theorem maxGrowth_nonneg (opcodes : List UInt8) : 0 ≤ maxGrowth opcodes := by
  cases opcodes with
  | nil => exact le_rfl
  | cons opcode opcodes => exact le_max_left _ _

/-- Given a stack within its limit, the check of an instruction succeeds exactly if its items are
there, the stack stays within the limit and the gas suffices. -/
theorem checkRequirements_success_iff (op : Opcode) (gas : Int) {s : StackTop}
    (h : s.top ≤ stackLimit) :
    (checkRequirements op gas s).1 = .success ↔
      (traits op).stackHeightRequired ≤ s.top ∧
        (s.top : Int) + (traits op).stackHeightChange ≤ 1024 ∧ gasCosts op ≤ gas := by
  obtain ⟨hnonneg, -, -, hchange⟩ := traits_bounds op
  have hlimit : s.top ≤ 1024 := h
  unfold checkRequirements
  rw [show stackLimit = 1024 from rfl]
  dsimp only
  split
  next hover => exact ⟨nofun, fun _ => by omega⟩
  next hover =>
    split
    next hunder => exact ⟨nofun, fun _ => by omega⟩
    next hunder =>
      split
      next hgas => exact ⟨nofun, fun _ => by omega⟩
      next hgas => exact ⟨fun _ => by omega, fun _ => rfl⟩

/-- A check that succeeds charges the base cost. -/
theorem checkRequirements_gas {op : Opcode} {gas : Int} {s : StackTop}
    (h : (checkRequirements op gas s).1 = .success) :
    (checkRequirements op gas s).2 = gas - gasCosts op := by
  unfold checkRequirements at h ⊢
  dsimp only at h ⊢
  split at h
  next => cases h
  next hover =>
    rw [if_neg hover]
    split at h
    next => cases h
    next hunder =>
      rw [if_neg hunder]
      split at h
      next => cases h
      next hgas => rw [if_neg hgas]

/-- Checking the instructions one by one succeeds exactly if the sums of their requirements are
met. -/
theorem checkEach_iff {opcodes : List UInt8} {gas : Int} {s : StackTop} (hgas : 0 ≤ gas)
    (hlimit : s.top ≤ stackLimit) :
    checkEach opcodes gas s = .success ↔
      baseCost opcodes ≤ gas ∧ stackRequired opcodes ≤ s.top ∧
        (s.top : Int) + maxGrowth opcodes ≤ 1024 := by
  have hheight : s.top ≤ 1024 := hlimit
  -- Over the instructions, for every gas and every height they may be checked with.
  induction opcodes generalizing gas s with
  | nil =>
    have hnil : (0 : Int) ≤ gas ∧ (0 : Int) ≤ s.top ∧ (s.top : Int) + 0 ≤ 1024 := by omega
    exact ⟨fun _ => hnil, fun _ => rfl⟩
  | cons opcode opcodes ih =>
    have hcost := baseCost_nonneg opcodes
    have hrequired := stackRequired_nonneg opcodes
    have hgrowth := maxGrowth_nonneg opcodes
    simp only [checkEach, baseCost, stackRequired, maxGrowth, opcodeCost, opcodeRequired,
      opcodeChange]
    rcases Opcode.ofByte opcode with _ | op
    -- An undefined opcode changes none of the three sums.
    · simp only [Option.elim_none, Int.zero_add, Int.sub_zero, max_eq_right hrequired,
        max_eq_right hgrowth]
      exact ih hgas hlimit hheight
    · simp only [Option.elim_some]
      have hcheck := checkRequirements_success_iff op gas hlimit
      -- If the first check fails, one of the three sums is already too large there.
      by_cases hsuccess : (checkRequirements op gas s).1 = .success
      · obtain ⟨hitems, hroom, hpaid⟩ := hcheck.1 hsuccess
        obtain ⟨-, -, hsum, -⟩ := traits_bounds op
        have htop : ((s.after s (traits op).stackHeightChange).top : Int) =
            s.top + (traits op).stackHeightChange := Int.toNat_of_nonneg (by omega)
        have hrest : checkEach opcodes (gas - gasCosts op)
            (s.after s (traits op).stackHeightChange) = .success ↔ _ :=
          ih (by omega) (show _ ≤ 1024 by omega) (by omega)
        rw [if_pos hsuccess, checkRequirements_gas hsuccess, hrest, htop]
        omega
      · rw [if_neg hsuccess]
        refine iff_of_false hsuccess fun hall => hsuccess (hcheck.2 ?_)
        omega

/-! ### The totals of the analysis -/

/-- The summary of the instructions, compressed as `BlockAnalysis.close` does. -/
def blockInfo (opcodes : List UInt8) : BlockInfo :=
  ⟨clamp (2 ^ 32 - 1) (baseCost opcodes), clamp (2 ^ 15 - 1) (stackRequired opcodes),
    clamp (2 ^ 15 - 1) (maxGrowth opcodes)⟩

/-- Add instructions to the totals of a block. -/
def BlockAnalysis.addAll (block : BlockAnalysis) (opcodes : List UInt8) : BlockAnalysis :=
  opcodes.foldl (fun block opcode => block.add (opTable opcode)) block

/-- The table of the analysis has the requirements of the opcode. -/
theorem opTable_eq (opcode : UInt8) :
    (opTable opcode).gasCost = opcodeCost opcode ∧
      (opTable opcode).stackReq = opcodeRequired opcode ∧
      (opTable opcode).stackChange = opcodeChange opcode := by
  unfold opTable opcodeCost opcodeRequired opcodeChange
  rcases Opcode.ofByte opcode with _ | op
  · exact ⟨rfl, rfl, rfl⟩
  · exact ⟨rfl, rfl, rfl⟩

/-- The totals of a block that goes on with the instructions. -/
theorem addAll_eq {block : BlockAnalysis} (opcodes : List UInt8)
    (hreq : 0 ≤ block.stackReq + block.stackChange)
    (hgrowth : block.stackChange ≤ block.stackMaxGrowth) :
    (block.addAll opcodes).gasCost = block.gasCost + baseCost opcodes ∧
      (block.addAll opcodes).stackReq =
        max block.stackReq (stackRequired opcodes - block.stackChange) ∧
      (block.addAll opcodes).stackMaxGrowth =
        max block.stackMaxGrowth (block.stackChange + maxGrowth opcodes) := by
  induction opcodes generalizing block with
  | nil =>
    simp only [BlockAnalysis.addAll, List.foldl_nil, baseCost, stackRequired, maxGrowth]
    omega
  | cons opcode opcodes ih =>
    obtain ⟨hcost, hrequired, hchange⟩ := opTable_eq opcode
    obtain ⟨hnonneg, hsum⟩ := opcode_bounds opcode
    have hrestGrowth := maxGrowth_nonneg opcodes
    -- Both hypotheses hold again of the block that goes on behind the instruction.
    have hrest := @ih (block.add (opTable opcode))
      (by simp only [BlockAnalysis.add, hrequired, hchange]; omega)
      (by simp only [BlockAnalysis.add]; omega)
    simp only [BlockAnalysis.addAll, List.foldl_cons, baseCost, stackRequired, maxGrowth] at hrest ⊢
    simp only [BlockAnalysis.add, hcost, hrequired, hchange] at hrest ⊢
    omega

/-- Closing a block clamps the totals of its opcodes. -/
theorem close_addAll (i : Nat) (opcodes : List UInt8) :
    ((newBlock i).addAll opcodes).close = blockInfo opcodes := by
  obtain ⟨hcost, hrequired, hgrowth⟩ := @addAll_eq (newBlock i) opcodes le_rfl le_rfl
  simp only [newBlock, Int.zero_add, Int.sub_zero] at hcost hrequired hgrowth
  rw [max_eq_right (stackRequired_nonneg opcodes)] at hrequired
  rw [max_eq_right (maxGrowth_nonneg opcodes)] at hgrowth
  unfold BlockAnalysis.close blockInfo
  rw [newBlock, hcost, hrequired, hgrowth]

/-! ### The blocks of a code -/

/-- The instructions that are the last of their block. -/
def EndsBlock (opcode : UInt8) : Prop :=
  Opcode.ofByte opcode ∈ [some .jump, some .jumpi, some .stop, some .return_, some .revert]

instance (opcode : UInt8) : Decidable (EndsBlock opcode) := inferInstanceAs (Decidable (_ ∈ _))

/-- The opcodes of the block that goes on at a position: up to the next `JUMPDEST`, to an instruction
that ends the block, or to the end of the code. The first argument bounds their number. -/
def blockFrom (code : Bytes) : Nat → Nat → List UInt8
  | 0, _ => []
  | n + 1, pos =>
    match code[pos]? with
    | none => []
    | some opcode =>
      if opcode = 0x5b then []
      else if EndsBlock opcode then [opcode]
      else opcode :: blockFrom code n (pos + 1 + immediateSize opcode)

/-- The instruction of index `i` begins a block with the given opcodes: the first instruction, a
`JUMPDEST`, which belongs to its block, or a `JUMPI`, which does not. -/
inductive BlockAt (code : Bytes) : Nat → List UInt8 → Prop
  | entry : BlockAt code 0 (blockFrom code code.length 0)
  | jumpdest {i pos : Nat} (h : (allItems code)[i]? = some (pos, 0x5b)) :
      BlockAt code (i + 1) (0x5b :: blockFrom code code.length (pos + 1))
  | jumpi {i pos : Nat} (h : (allItems code)[i]? = some (pos, 0x57)) :
      BlockAt code (i + 1) (blockFrom code code.length (pos + 1))

/-- There is nothing to decode behind the code. -/
theorem decode_of_length_le {code : Bytes} {pos : Nat} (h : code.length ≤ pos) (n : Nat) :
    decode code n pos = [] := by
  cases n with
  | zero => rfl
  | succ n => rw [decode, List.getElem?_eq_none_iff.mpr h]

/-- No block begins behind the code. -/
theorem blockFrom_of_length_le {code : Bytes} {pos : Nat} (h : code.length ≤ pos) (n : Nat) :
    blockFrom code n pos = [] := by
  cases n with
  | zero => rfl
  | succ n => rw [blockFrom, List.getElem?_eq_none_iff.mpr h]

/-- Dead code ends at a `JUMPDEST` or with the code. -/
theorem getElem?_skipDeadCode {code : Bytes} {n pos : Nat} (hn : code.length ≤ pos + n) :
    code[skipDeadCode code n pos]? = none ∨ code[skipDeadCode code n pos]? = some 0x5b := by
  induction n generalizing pos with
  | zero => exact .inl (List.getElem?_eq_none_iff.mpr hn)
  | succ n ih =>
    unfold skipDeadCode
    split
    next hnone => exact .inl hnone
    next b hb =>
      have hlt : pos < code.length := (List.getElem?_eq_some_iff.mp hb).1
      split
      next hjumpdest => exact .inr (hjumpdest ▸ hb)
      next => split <;> exact ih (by omega)

/-- Behind dead code a block begins, or the code ends. -/
theorem blockFrom_skipDeadCode {code : Bytes} {n pos : Nat} (hn : code.length ≤ pos + n) (m : Nat) :
    blockFrom code m (skipDeadCode code n pos) = [] := by
  cases m with
  | zero => rfl
  | succ m =>
    rw [blockFrom]
    rcases getElem?_skipDeadCode hn with hnone | hjumpdest
    · rw [hnone]
    · rw [hjumpdest]
      exact if_pos rfl

/-- The data of a push stands behind it. -/
theorem immediateSize_of_isPush {opcode : UInt8} (h : IsPush opcode) :
    immediateSize opcode = pushSize opcode := by
  have hfirst := h.1
  rw [Baseline.immediateSize_push ⟨h.1, Nat.lt_succ_of_le h.2⟩, pushSize]
  omega

/-- Other instructions have no data. -/
theorem immediateSize_of_not_isPush {opcode : UInt8} (h : ¬ IsPush opcode) :
    immediateSize opcode = 0 :=
  Baseline.immediateSize_of_not_push fun hin => h ⟨hin.1, Nat.le_of_lt_succ hin.2⟩

/-- A push does not end a block. -/
theorem EndsBlock.not_isPush {opcode : UInt8} (h : EndsBlock opcode) : ¬ IsPush opcode := by
  intro hpush
  obtain ⟨k, hop, -⟩ := Baseline.ofByte_push ⟨hpush.1, Nat.lt_succ_of_le hpush.2⟩
  unfold EndsBlock at h
  rw [hop] at h
  simp at h

/-- The instruction after one that does not start dead code. -/
theorem nextPos_eq {code : Bytes} {pos : Nat} {opcode : UInt8} (hlt : pos < code.length)
    (h : EndsBlock opcode → Opcode.ofByte opcode = some .jumpi) :
    nextPos code (pos, opcode) = min (pos + 1 + immediateSize opcode) code.length := by
  unfold nextPos
  by_cases hpush : IsPush opcode
  · rw [if_pos hpush, immediateSize_of_isPush hpush, pushData, List.length_take, List.length_drop]
    dsimp only
    omega
  · rw [if_neg hpush, immediateSize_of_not_isPush hpush]
    have hnext : pos + 1 = min (pos + 1 + 0) code.length := by omega
    rcases hop : Opcode.ofByte opcode with _ | op
    · exact hnext
    · unfold EndsBlock at h
      rw [hop] at h
      cases op with
      | jump | stop | return_ | revert => exact absurd (h (by decide)) (by decide)
      | _ => exact hnext

/-- The instruction after one that starts dead code. -/
theorem nextPos_of_endsBlock {opcode : UInt8} (h : EndsBlock opcode)
    (hjumpi : Opcode.ofByte opcode ≠ some .jumpi) (code : Bytes) (pos : Nat) :
    nextPos code (pos, opcode) = skipDeadCode code code.length (pos + 1) := by
  have hpush := h.not_isPush
  unfold nextPos
  unfold EndsBlock at h
  rw [if_neg hpush]
  simp only [List.mem_cons, List.not_mem_nil, or_false] at h
  -- Of the five only `JUMPI` does not start dead code.
  rcases h with hop | hop | hop | hop | hop
  · rw [hop]
  · exact absurd hop hjumpi
  all_goals rw [hop]

/-- The totals of the instructions the analysis visits are those of the block in the code. -/
theorem summary_decode {code : Bytes} {n m pos : Nat} (hn : code.length ≤ pos + n)
    (hm : code.length ≤ pos + m) (block : BlockAnalysis) :
    summary block (decode code n pos) = block.addAll (blockFrom code m pos) := by
  induction n generalizing m pos block with
  | zero =>
    rw [blockFrom_of_length_le (by omega)]
    rfl
  | succ n ih =>
    rcases hcode : code[pos]? with _ | opcode
    · have hlen := List.getElem?_eq_none_iff.mp hcode
      rw [decode_of_length_le hlen, blockFrom_of_length_le hlen]
      rfl
    · have hlt : pos < code.length := (List.getElem?_eq_some_iff.mp hcode).1
      obtain ⟨m, rfl⟩ := Nat.exists_eq_add_of_lt (show 0 < m by omega)
      rw [decode, blockFrom, hcode]
      dsimp only
      rw [summary]
      -- A `JUMPDEST` belongs to the next block.
      by_cases hjumpdest : opcode = 0x5b
      · rw [if_pos hjumpdest, if_pos hjumpdest]
        rfl
      · rw [if_neg hjumpdest, if_neg hjumpdest]
        -- A `JUMPI` is the last instruction, but the analysis goes on right behind it.
        by_cases hjumpi : Opcode.ofByte opcode = some .jumpi
        · have hends : EndsBlock opcode := by
            unfold EndsBlock
            rw [hjumpi]
            decide
          rw [if_pos hjumpi, if_pos hends]
          rfl
        · rw [if_neg hjumpi]
          have hpos := nextPos_gt code (pos, opcode)
          dsimp only at hpos
          by_cases hends : EndsBlock opcode
          · -- What comes next is a `JUMPDEST` or the end of the code.
            rw [ih (by omega) (Nat.le_add_left _ _), if_pos hends,
              nextPos_of_endsBlock hends hjumpi, blockFrom_skipDeadCode (by omega)]
            rfl
          · have hnext := nextPos_eq hlt fun h => absurd h hends
            rw [if_neg hends]
            by_cases hinside : pos + 1 + immediateSize opcode ≤ code.length
            · rw [min_eq_left hinside] at hnext
              rw [ih (by omega) (show _ ≤ _ + (0 + m) by omega), hnext]
              rfl
            · -- The push data is cut off, and both end.
              have houtside := Nat.le_of_not_le hinside
              rw [min_eq_right houtside] at hnext
              rw [hnext, decode_of_length_le le_rfl, blockFrom_of_length_le houtside]
              rfl

/-- The instruction of an item that the analysis visits. -/
theorem pointsTo_of_getElem? {code : Bytes} {i : Nat} {item : Item}
    (h : (allItems code)[i]? = some item) :
    ∃ k block, PointsTo code (i + 1) k block (item :: (allItems code).drop (i + 1)) := by
  obtain ⟨hlt, hitem⟩ := List.getElem?_eq_some_iff.mp h
  -- Follow the instructions from the first one to the one at hand.
  have hsplit : allItems code = (allItems code).take i ++ item :: (allItems code).drop (i + 1) := by
    rw [← hitem, ← List.drop_eq_getElem_cons, List.take_append_drop]
  have hpoint := pointsTo_one code
  rw [hsplit] at hpoint
  obtain ⟨k, block, hpoint⟩ := hpoint.append
  rw [List.length_take, min_eq_left hlt.le, Nat.add_comm] at hpoint
  exact ⟨k, block, hpoint⟩

/-- The instruction of a `JUMPDEST` holds the summary of its block. -/
theorem PointsTo.fetch_jumpdest {code : Bytes} {i k pos : Nat} {block : BlockAnalysis}
    {items : List Item} (h : PointsTo code i k block ((pos, 0x5b) :: items)) :
    (analyze code).instrs[i]? = some
      { fn := .opxBeginblock
        arg := .block (blockInfo (0x5b :: blockFrom code code.length (pos + 1))) } := by
  obtain ⟨n, hrest, hlen⟩ := h.rest
  have htotals : ((newBlock i).add (opTable 0x5b)).addAll (blockFrom code code.length (pos + 1)) =
      (newBlock i).addAll (0x5b :: blockFrom code code.length (pos + 1)) := rfl
  rw [nextPos_jumpdest] at hrest hlen
  rw [h.fetch, hrest]
  dsimp only [argument]
  rw [if_pos rfl, blockOf, if_pos rfl, summary_decode (m := code.length) hlen (by omega), htotals,
    close_addAll]
  rfl

/-- The instruction of a `JUMPI` holds the summary of the block behind it. -/
theorem PointsTo.fetch_jumpi {code : Bytes} {i k pos : Nat} {block : BlockAnalysis} {opcode : UInt8}
    {items : List Item} (hop : Opcode.ofByte opcode = some .jumpi)
    (h : PointsTo code i k block ((pos, opcode) :: items)) :
    (analyze code).instrs[i]? = some
      { fn := .opJumpi
        arg := .block (blockInfo (blockFrom code code.length (pos + 1))) } := by
  obtain ⟨n, hrest, hlen⟩ := h.rest
  obtain ⟨hjumpdest, hpush⟩ := ofByte_eq_jumpi hop
  rw [nextPos_jumpi hop] at hrest hlen
  rw [h.fetch, hrest, opTable_of hop]
  dsimp only [argument]
  rw [if_neg hjumpdest, if_neg hpush]
  simp only [hop]
  rw [summary_decode (m := code.length) hlen (by omega), close_addAll]
  rfl

/-- The instruction of a `JUMPDEST` begins a block and holds its summary. -/
theorem instrs_of_jumpdest {code : Bytes} {i pos : Nat}
    (h : (allItems code)[i]? = some (pos, 0x5b)) :
    (analyze code).instrs[i + 1]? = some
      { fn := .opxBeginblock
        arg := .block (blockInfo (0x5b :: blockFrom code code.length (pos + 1))) } := by
  obtain ⟨k, block, hpoint⟩ := pointsTo_of_getElem? h
  exact hpoint.fetch_jumpdest

/-- The instruction that begins a block holds the summary of its opcodes. -/
theorem BlockAt.fetch {code : Bytes} {i : Nat} {opcodes : List UInt8}
    (h : BlockAt code i opcodes) :
    ∃ instr, (analyze code).instrs[i]? = some instr ∧ instr.arg = .block (blockInfo opcodes) := by
  cases h with
  | entry =>
    refine ⟨_, instrs_zero code, ?_⟩
    rw [allItems, summary_decode (m := code.length) (by omega) (by omega), close_addAll]
  | jumpdest hitem => exact ⟨_, instrs_of_jumpdest hitem, rfl⟩
  | @jumpi i pos hitem =>
    obtain ⟨k, block, hpoint⟩ := pointsTo_of_getElem? hitem
    exact ⟨_, hpoint.fetch_jumpi rfl, rfl⟩

/-! ### The check at the beginning of a block -/

/-- The summary in the instruction of index `i` is exact: at every stack height and with any gas, the
block is charged the total cost of its instructions, and it starts exactly if checking them one by
one reports nothing. -/
def ExactSummary (code : Bytes) (i : Nat) (opcodes : List UInt8) : Prop :=
  ∃ instr, (analyze code).instrs[i]? = some instr ∧
    ∀ state : AdvancedExecutionState, state.stack.top ≤ stackLimit → 0 ≤ state.gasLeft →
      (opxBeginblock instr.arg i state).2.gasLeft = state.gasLeft - baseCost opcodes ∧
        ((opxBeginblock instr.arg i state).1.isSome ↔
          checkEach opcodes state.gasLeft state.stack = .success)

/-- `opx_beginblock` charges the cost of the block in any case. -/
theorem opxBeginblock_gasLeft (arg : InstructionArgument) (i : Nat)
    (state : AdvancedExecutionState) :
    (opxBeginblock arg i state).2.gasLeft = state.gasLeft - arg.asBlock.gasCost := by
  unfold opxBeginblock
  dsimp only
  split
  · rfl
  · split
    · rfl
    · split <;> rfl

/-- `opx_beginblock` goes on exactly if the gas and the stack suffice. -/
theorem opxBeginblock_isSome_iff (arg : InstructionArgument) (i : Nat)
    (state : AdvancedExecutionState) :
    (opxBeginblock arg i state).1.isSome ↔
      arg.asBlock.gasCost ≤ state.gasLeft ∧ arg.asBlock.stackReq ≤ state.stack.top ∧
        (state.stack.top : Int) + arg.asBlock.stackMaxGrowth ≤ 1024 := by
  unfold opxBeginblock
  rw [show (stackLimit : Int) = 1024 from rfl]
  dsimp only
  split
  next hgas => exact ⟨nofun, fun _ => by omega⟩
  next hgas =>
    split
    next hunder => exact ⟨nofun, fun _ => by omega⟩
    next hunder =>
      split
      next hover => exact ⟨nofun, fun _ => by omega⟩
      next hover => exact ⟨fun _ => by omega, fun _ => rfl⟩

/-- A clamped value compares like the value below the maximum. -/
theorem clamp_le_iff {max x y : Int} (hy : y < max) : clamp max x ≤ y ↔ x ≤ y := by
  unfold clamp
  split <;> omega

/-- A block whose total cost fits its field begins exactly if checking its instructions one by one
reports nothing. -/
theorem opxBeginblock_isSome_blockInfo {opcodes : List UInt8} (hfits : baseCost opcodes ≤ 2 ^ 32 - 1)
    (i : Nat) {state : AdvancedExecutionState} (hlimit : state.stack.top ≤ stackLimit)
    (hgas : 0 ≤ state.gasLeft) :
    (opxBeginblock (.block (blockInfo opcodes)) i state).1.isSome ↔
      checkEach opcodes state.gasLeft state.stack = .success := by
  have hcost : (blockInfo opcodes).gasCost = baseCost opcodes := if_pos hfits
  have hlimit' : state.stack.top ≤ 1024 := hlimit
  rw [opxBeginblock_isSome_iff, checkEach_iff hgas hlimit]
  -- A requirement large enough to be clamped is beyond the stack limit, clamped or not.
  have hreq : clamp (2 ^ 15 - 1) (stackRequired opcodes) ≤ state.stack.top ↔
      stackRequired opcodes ≤ state.stack.top := clamp_le_iff (by omega)
  have hgrowth : clamp (2 ^ 15 - 1) (maxGrowth opcodes) ≤ 1024 - state.stack.top ↔
      maxGrowth opcodes ≤ 1024 - state.stack.top := clamp_le_iff (by omega)
  dsimp only [InstructionArgument.asBlock]
  rw [hcost]
  dsimp only [blockInfo]
  rw [hreq]
  omega

/-- The summary of a block is exact if and only if the total cost fits its field. The compressed
stack requirements never matter. -/
theorem exactSummary_iff {code : Bytes} {i : Nat} {opcodes : List UInt8}
    (h : BlockAt code i opcodes) :
    ExactSummary code i opcodes ↔ baseCost opcodes ≤ 2 ^ 32 - 1 := by
  obtain ⟨instr, hinstr, harg⟩ := h.fetch
  constructor
  · rintro ⟨instr', hinstr', hexact⟩
    rw [hinstr, Option.some.injEq] at hinstr'
    subst hinstr'
    -- The charge alone tells whether the total is clamped, whatever the state.
    obtain ⟨hcharge, -⟩ :=
      hexact { base := .init {} code, gasLeft := 0, stack := .bottom } (Nat.zero_le _) le_rfl
    have hcost : clamp (2 ^ 32 - 1) (baseCost opcodes) = baseCost opcodes := by
      rw [opxBeginblock_gasLeft, harg] at hcharge
      exact sub_right_injective hcharge
    rw [← hcost]
    unfold clamp
    split
    · assumption
    · exact le_rfl
  · intro hfits
    refine ⟨instr, hinstr, fun state hlimit hgas => ?_⟩
    rw [harg]
    refine ⟨?_, opxBeginblock_isSome_blockInfo hfits i hlimit hgas⟩
    have hcost : (blockInfo opcodes).gasCost = baseCost opcodes := if_pos hfits
    rw [opxBeginblock_gasLeft, ← hcost]
    rfl

/-- A `PUSH1` and a `JUMPI` before the code ends. -/
theorem exactSummary_iff_jumpi :
    ExactSummary [0x60, 0x03, 0x57] 0 [0x60, 0x57] ↔ baseCost [0x60, 0x57] ≤ 2 ^ 32 - 1 :=
  exactSummary_iff (@BlockAt.entry [0x60, 0x03, 0x57])

/-! ### A block that costs too much -/

/-- `ADDRESS` and then `n` times `BALANCE`. -/
def balances (n : Nat) : Bytes := 0x30 :: List.replicate n 0x31

/-- A run of `BALANCE` is one block. -/
theorem blockFrom_replicate {code : Bytes} {n pos : Nat} (h : code.drop pos = List.replicate n 0x31)
    {m : Nat} (hm : n ≤ m) : blockFrom code m pos = List.replicate n 0x31 := by
  induction n generalizing m pos with
  | zero => exact blockFrom_of_length_le (List.drop_eq_nil_iff.mp h) m
  | succ n ih =>
    obtain ⟨m, rfl⟩ := Nat.exists_eq_add_of_lt (show 0 < m by omega)
    have hbyte : code[pos]? = some 0x31 := by
      rw [← Nat.add_zero pos, ← List.getElem?_drop, h]
      rfl
    have hnext : code.drop (pos + 1) = List.replicate n 0x31 := by
      rw [← List.drop_drop, h]
      rfl
    have hrest : blockFrom code (0 + m) (pos + 1) = List.replicate n 0x31 := ih hnext (by omega)
    rw [blockFrom, hbyte, List.replicate_succ, ← hrest]
    rfl

/-- The whole code of the instance is one block. -/
theorem blockFrom_balances (n : Nat) :
    blockFrom (balances n) (balances n).length 0 = balances n := by
  have hrest : blockFrom (balances n) n 1 = List.replicate n 0x31 :=
    blockFrom_replicate rfl le_rfl
  rw [balances, List.length_cons, List.length_replicate, ← balances, blockFrom]
  show 0x30 :: blockFrom (balances n) n 1 = balances n
  rw [hrest, balances]

/-- The requirements of the block. -/
theorem balances_requirements (n : Nat) :
    baseCost (balances n) = 2 + 100 * n ∧ stackRequired (balances n) ≤ 0 ∧
      maxGrowth (balances n) = 1 := by
  have hrest : ∀ n, baseCost (List.replicate n 0x31) = 100 * n ∧
      stackRequired (List.replicate n 0x31) ≤ 1 ∧ maxGrowth (List.replicate n 0x31) = 0 := by
    intro n
    induction n with
    | zero => decide
    | succ n ih =>
      obtain ⟨hcost, hrequired, hgrowth⟩ := ih
      have hbalance : opcodeCost 0x31 = 100 ∧ opcodeRequired 0x31 = 1 ∧ opcodeChange 0x31 = 0 := by
        decide
      rw [List.replicate_succ, baseCost, stackRequired, maxGrowth, hbalance.1, hbalance.2.1,
        hbalance.2.2]
      omega
  have haddress : opcodeCost 0x30 = 2 ∧ opcodeRequired 0x30 = 0 ∧ opcodeChange 0x30 = 1 := by
    decide
  obtain ⟨hcost, hrequired, hgrowth⟩ := hrest n
  rw [balances, baseCost, stackRequired, maxGrowth, haddress.1, haddress.2.1, haddress.2.2]
  omega

/-- On an empty stack with 2^32 - 1 gas the block of an `ADDRESS` and 42949673 `BALANCE`s starts and
is charged all the gas, but checking the instructions one by one runs out of gas. -/
theorem not_exactSummary_balances :
    BlockAt (balances 42949673) 0 (balances 42949673) ∧
      (∃ instr, (analyze (balances 42949673)).instrs[0]? = some instr ∧
        ∀ state : AdvancedExecutionState, state.stack.top = 0 → state.gasLeft = 2 ^ 32 - 1 →
          (opxBeginblock instr.arg 0 state).1.isSome ∧
            (opxBeginblock instr.arg 0 state).2.gasLeft = 0 ∧
            checkEach (balances 42949673) state.gasLeft state.stack ≠ .success) ∧
      ¬ ExactSummary (balances 42949673) 0 (balances 42949673) := by
  have hblock : BlockAt (balances 42949673) 0 (balances 42949673) := by
    have hentry := @BlockAt.entry (balances 42949673)
    rwa [blockFrom_balances] at hentry
  obtain ⟨hcost, hrequired, hgrowth⟩ := balances_requirements 42949673
  obtain ⟨instr, hinstr, harg⟩ := hblock.fetch
  have hstarts : ∀ state : AdvancedExecutionState, state.stack.top = 0 →
      state.gasLeft = 2 ^ 32 - 1 → (opxBeginblock instr.arg 0 state).1.isSome ∧
        (opxBeginblock instr.arg 0 state).2.gasLeft = 0 ∧
        checkEach (balances 42949673) state.gasLeft state.stack ≠ .success := by
    intro state htop hgas
    have hinfo : instr.arg.asBlock.gasCost = 2 ^ 32 - 1 ∧ instr.arg.asBlock.stackReq ≤ 0 ∧
        instr.arg.asBlock.stackMaxGrowth = 1 := by
      rw [harg]
      dsimp only [InstructionArgument.asBlock, blockInfo]
      rw [hcost, hgrowth, clamp_le_iff (by decide)]
      exact ⟨rfl, hrequired, rfl⟩
    rw [opxBeginblock_isSome_iff, opxBeginblock_gasLeft, ne_eq,
      checkEach_iff (by omega) (by rw [htop]; exact Nat.zero_le _), htop, hgas, hinfo.1]
    omega
  refine ⟨hblock, ⟨instr, hinstr, hstarts⟩, ?_⟩
  rintro ⟨instr', hinstr', hexact⟩
  rw [hinstr, Option.some.injEq] at hinstr'
  subst hinstr'
  -- Started by the summary, refused by the instructions.
  let state : AdvancedExecutionState :=
    { base := .init {} [], gasLeft := 2 ^ 32 - 1, stack := .bottom }
  obtain ⟨hstart, -, hcheck⟩ := hstarts state rfl rfl
  exact hcheck ((hexact state (Nat.zero_le _) (show (0 : Int) ≤ 2 ^ 32 - 1 by decide)).2.1 hstart)

end Advanced

end Zvmone
