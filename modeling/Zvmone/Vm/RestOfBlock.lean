import Zvmone.Vm.BlockSummary

/-! # The rest of a block

In the middle of a block, the Advanced interpreter has already charged the opcodes that are left of
it. Whether checking them one by one reports nothing depends on the gas and the height of the stack
alone, and behind an instruction that was checked only on the gas. -/

namespace Zvmone

namespace Advanced

open Instr

open Baseline (immediateSize)

/-- The bound on the number of opcodes does not matter. -/
theorem blockFrom_eq {code : Bytes} {n m pos : Nat} (hn : code.length ≤ pos + n)
    (hm : code.length ≤ pos + m) : blockFrom code n pos = blockFrom code m pos := by
  -- Over the opcodes, which both read one by one to the end of the code.
  induction n generalizing m pos with
  | zero =>
    rw [blockFrom_of_length_le (by omega), blockFrom_of_length_le (by omega)]
  | succ n ih =>
    rcases hcode : code[pos]? with _ | opcode
    · have hlen := List.getElem?_eq_none_iff.mp hcode
      rw [blockFrom_of_length_le hlen, blockFrom_of_length_le hlen]
    · have hlt : pos < code.length := (List.getElem?_eq_some_iff.mp hcode).1
      obtain ⟨m, rfl⟩ := Nat.exists_eq_add_of_lt (show 0 < m by omega)
      rw [blockFrom, blockFrom, hcode]
      dsimp only
      rw [@ih (0 + m) _ (by omega) (by omega)]

/-- The opcodes of the block that goes on at a position. -/
def restOfBlock (code : Bytes) (pos : Nat) : List UInt8 := blockFrom code code.length pos

variable {code : Bytes} {pos : Nat} {opcode : UInt8}

/-- Behind the code the rest is empty. -/
theorem restOfBlock_of_length_le (h : code.length ≤ pos) : restOfBlock code pos = [] :=
  blockFrom_of_length_le h _

/-- Before a jump destination the rest is empty. -/
theorem restOfBlock_jumpdest (h : code[pos]? = some 0x5b) : restOfBlock code pos = [] := by
  have hlt : pos < code.length := (List.getElem?_eq_some_iff.mp h).1
  obtain ⟨n, hn⟩ := Nat.exists_eq_add_of_lt (show 0 < code.length by omega)
  rw [restOfBlock, hn, blockFrom, h]
  exact if_pos rfl

/-- An instruction that ends a block is the last one. -/
theorem restOfBlock_of_endsBlock (hcode : code[pos]? = some opcode) (h : EndsBlock opcode) :
    restOfBlock code pos = [opcode] := by
  have hlt : pos < code.length := (List.getElem?_eq_some_iff.mp hcode).1
  obtain ⟨n, hn⟩ := Nat.exists_eq_add_of_lt (show 0 < code.length by omega)
  have hjumpdest : opcode ≠ 0x5b := by
    rintro rfl
    exact absurd h (by decide)
  rw [restOfBlock, hn, blockFrom, hcode]
  dsimp only
  rw [if_neg hjumpdest, if_pos h]

/-- Any other instruction is followed by the rest behind it. -/
theorem restOfBlock_cons (hcode : code[pos]? = some opcode) (hjumpdest : opcode ≠ 0x5b)
    (h : ¬ EndsBlock opcode) :
    restOfBlock code pos = opcode :: restOfBlock code (pos + 1 + immediateSize opcode) := by
  have hlt : pos < code.length := (List.getElem?_eq_some_iff.mp hcode).1
  obtain ⟨n, hn⟩ := Nat.exists_eq_add_of_lt (show 0 < code.length by omega)
  rw [restOfBlock, hn, blockFrom, hcode]
  dsimp only
  rw [if_neg hjumpdest, if_neg h, restOfBlock]
  congr 1
  exact blockFrom_eq (by omega) (by omega)

/-- The opcodes of the block behind the instruction at a position. -/
def opcodesBehind (code : Bytes) (pos : Nat) (opcode : UInt8) : List UInt8 :=
  if EndsBlock opcode then [] else restOfBlock code (pos + 1 + immediateSize opcode)

/-- The next instruction and the ones behind it. -/
theorem restOfBlock_eq (hcode : code[pos]? = some opcode) (hjumpdest : opcode ≠ 0x5b) :
    restOfBlock code pos = opcode :: opcodesBehind code pos opcode := by
  unfold opcodesBehind
  split
  next hends => exact restOfBlock_of_endsBlock hcode hends
  next hends => exact restOfBlock_cons hcode hjumpdest hends

/-! ### Checking the rest of a block -/

/-- No instruction costs more than a creation. -/
theorem baseCost_blockFrom_le (code : Bytes) (n pos : Nat) :
    baseCost (blockFrom code n pos) ≤ 32000 * n := by
  -- An undefined opcode costs nothing here, and `CREATE` the most.
  have hcost : ∀ opcode, opcodeCost opcode ≤ 32000 := by
    intro opcode
    unfold opcodeCost
    rcases Opcode.ofByte opcode with _ | op
    · exact Int.natCast_nonneg 32000
    · exact gasCosts_le op
  induction n generalizing pos with
  | zero => exact le_rfl
  | succ n ih =>
    unfold blockFrom
    split
    · exact Int.natCast_nonneg (32000 * (n + 1))
    next opcode _ =>
      have hopcode := hcost opcode
      have hrest := ih (pos + 1 + immediateSize opcode)
      split
      · exact Int.natCast_nonneg (32000 * (n + 1))
      · split
        · simp only [baseCost]
          omega
        · simp only [baseCost]
          omega

/-- With less gas and a stack of the same height it only depends on the gas whether the opcodes can
be paid for. -/
theorem checkEach_of_le {opcodes : List UInt8} {gas gas' : Int} {s s' : StackTop}
    (hlimit : s.top ≤ stackLimit) (h : checkEach opcodes gas s = .success) (hgas : 0 ≤ gas')
    (hle : gas' ≤ gas) (htop : s'.top = s.top) :
    checkEach opcodes gas' s' = .success ↔ baseCost opcodes ≤ gas' := by
  obtain ⟨-, hrequired, hgrowth⟩ := (checkEach_iff (hgas.trans hle) hlimit).1 h
  rw [checkEach_iff hgas (htop ▸ hlimit), htop]
  exact and_iff_left ⟨hrequired, hgrowth⟩

/-- What cannot be paid for cannot be paid for with less gas. -/
theorem checkEach_ne_of_le {opcodes : List UInt8} {gas gas' : Int} {s s' : StackTop}
    (hlimit : s.top ≤ stackLimit) (h : checkEach opcodes gas s ≠ .success) (hgas : 0 ≤ gas')
    (hle : gas' ≤ gas) (htop : s'.top = s.top) : checkEach opcodes gas' s' ≠ .success := by
  intro h'
  obtain ⟨hcost, hrest⟩ := (checkEach_iff hgas (htop ▸ hlimit)).1 h'
  rw [htop] at hrest
  exact h ((checkEach_iff (hgas.trans hle) hlimit).2 ⟨hcost.trans hle, hrest⟩)

/-- The check of an instruction and of the ones behind it. -/
theorem checkEach_cons_iff {op : Opcode} {opcodes : List UInt8} {gas : Int} {s : StackTop}
    (hop : Opcode.ofByte opcode = some op) :
    checkEach (opcode :: opcodes) gas s = .success ↔
      Baseline.checkRequirements op gas s = (.success, gas - gasCosts op) ∧
        checkEach opcodes (gas - gasCosts op) (s.after s (traits op).stackHeightChange) =
          .success := by
  simp only [checkEach, hop]
  rcases hcheck : Baseline.checkRequirements op gas s with ⟨status, gas'⟩
  by_cases hsuccess : status = .success
  · subst hsuccess
    have hgas := @checkRequirements_gas op gas s (congrArg Prod.fst hcheck)
    rw [hcheck] at hgas
    obtain rfl : gas' = gas - gasCosts op := hgas
    simp
  · simp [hsuccess]

/-! ### The beginning of a block -/

variable {opcodes : List UInt8} {st : AdvancedExecutionState} {i : Nat}

/-- Where no block begins the execution has failed. -/
theorem opxBeginblock_failure {arg : InstructionArgument}
    (h : (opxBeginblock arg i st).1 = none) : (opxBeginblock arg i st).2.base.status.IsFailure := by
  unfold opxBeginblock at h ⊢
  dsimp only at h ⊢
  split
  · exact (by decide : StatusCode.outOfGas.IsFailure)
  next hgas =>
    rw [if_neg hgas] at h
    split
    · exact (by decide : StatusCode.stackUnderflow.IsFailure)
    next hreq =>
      rw [if_neg hreq] at h
      split
      · exact (by decide : StatusCode.stackOverflow.IsFailure)
      next hgrowth =>
        rw [if_neg hgrowth] at h
        cases h

/-- The state in which a block of the given opcodes begins. -/
def AdvancedExecutionState.begun (st : AdvancedExecutionState) (opcodes : List UInt8) :
    AdvancedExecutionState :=
  { st with gasLeft := st.gasLeft - baseCost opcodes, currentBlockCost := baseCost opcodes }

/-- A block begins exactly if checking its instructions one by one reports nothing. -/
theorem opxBeginblock_blockInfo (hfits : baseCost opcodes ≤ 2 ^ 32 - 1)
    (hlimit : st.stack.top ≤ stackLimit) (hgas : 0 ≤ st.gasLeft) (i : Nat) :
    (checkEach opcodes st.gasLeft st.stack = .success ∧
        opxBeginblock (.block (blockInfo opcodes)) i st = (some (i + 1), st.begun opcodes)) ∨
      (checkEach opcodes st.gasLeft st.stack ≠ .success ∧
        ∃ st', opxBeginblock (.block (blockInfo opcodes)) i st = (none, st') ∧
          st'.base.status.IsFailure) := by
  have hcost : (blockInfo opcodes).gasCost = baseCost opcodes := if_pos hfits
  have hiff := opxBeginblock_isSome_blockInfo hfits i hlimit hgas
  rcases opxBeginblock_cases (.block (blockInfo opcodes)) i st with hnone | ⟨-, -, -, hsome⟩
  · refine .inr ⟨fun hcheck => ?_, (opxBeginblock (.block (blockInfo opcodes)) i st).2,
      Prod.ext hnone rfl, opxBeginblock_failure hnone⟩
    rw [← hiff, hnone] at hcheck
    cases hcheck
  · refine .inl ⟨hiff.1 (by rw [hsome]; rfl), hsome.trans ?_⟩
    dsimp only [InstructionArgument.asBlock, AdvancedExecutionState.begun]
    rw [hcost]

end Advanced

end Zvmone
