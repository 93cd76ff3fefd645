import Zvmone.Vm.AdvancedAnalysis

/-! # What the Advanced analysis emits

`analyze` as a translation. `decode` lists the instructions the analysis visits, and `emit` what it
emits for them, with the summary of every block already in place (`summary`). `analyze_eq` says that
the loop of `analyze`, which fills the summaries in later, makes the same of a code. -/

namespace Zvmone

namespace Advanced

open Instr Zvmone.Core

/-! ### Decoding -/

/-- An instruction of the code: its position and its opcode byte. -/
abbrev Item := Nat × UInt8

/-- The data bytes of the PUSH at the position, as far as they are in the code. -/
def pushData (code : Bytes) (item : Item) : Bytes :=
  (code.drop (item.1 + 1)).take (pushSize item.2)

/-- The position where the analysis goes on after an instruction. -/
def nextPos (code : Bytes) (item : Item) : Nat :=
  if IsPush item.2 then item.1 + 1 + (pushData code item).length
  else match Opcode.ofByte item.2 with
  | some .jump | some .stop | some .return_ | some .revert =>
    skipDeadCode code code.length (item.1 + 1)
  | _ => item.1 + 1

/-- At most `n` instructions from a position on, dead code left out. -/
def decode (code : Bytes) : Nat → Nat → List Item
  | 0, _ => []
  | n + 1, pos =>
    match code[pos]? with
    | none => []
    | some opcode => (pos, opcode) :: decode code n (nextPos code (pos, opcode))

/-- At most `n` items are decoded. -/
theorem length_decode_le (code : Bytes) (n pos : Nat) : (decode code n pos).length ≤ n := by
  induction n generalizing pos with
  | zero => exact le_rfl
  | succ n ih =>
    unfold decode
    split
    · exact Nat.zero_le _
    · exact Nat.succ_le_succ (ih _)

/-- The first item is at the position where decoding starts. -/
theorem pos_of_decode_eq_cons {code : Bytes} {n pos : Nat} {item : Item} {items : List Item}
    (h : item :: items = decode code n pos) : item.1 = pos := by
  cases n with
  | zero => cases h
  | succ n =>
    unfold decode at h
    split at h
    next => cases h
    next => exact congrArg Prod.fst (List.cons.inj h).1

/-- If nothing is decoded, the code has ended. -/
theorem length_le_of_decode_eq_nil {code : Bytes} {n pos : Nat} (h : [] = decode code n pos)
    (hlen : code.length ≤ pos + n) : code.length ≤ pos := by
  cases n with
  | zero => exact hlen
  | succ n =>
    unfold decode at h
    split at h
    next hnone => exact List.getElem?_eq_none_iff.mp hnone
    next => cases h

/-- Items are inside of the code. -/
theorem lt_of_mem_decode {code : Bytes} {n pos : Nat} {item : Item} (h : item ∈ decode code n pos) :
    item.1 < code.length := by
  induction n generalizing pos with
  | zero => cases h
  | succ n ih =>
    unfold decode at h
    rcases hcode : code[pos]? with _ | opcode <;> rw [hcode] at h
    · cases h
    · rcases List.mem_cons.mp h with rfl | h
      · exact (List.getElem?_eq_some_iff.mp hcode).1
      · exact ih h

/-! ### Emission -/

/-- The totals of the block that goes on with the given instructions. -/
def summary : BlockAnalysis → List Item → BlockAnalysis
  | block, [] => block
  | block, (_, opcode) :: items =>
    if opcode = 0x5b then block
    else if Opcode.ofByte opcode = some .jumpi then block.add (opTable opcode)
    else summary (block.add (opTable opcode)) items

/-- The totals of a block that starts with the instruction of index `i`. -/
def newBlock (i : Nat) : BlockAnalysis := { beginBlockIndex := i }

/-- The block an instruction belongs to: a `JUMPDEST` starts a new one. -/
def blockOf (i : Nat) (block : BlockAnalysis) (opcode : UInt8) : BlockAnalysis :=
  if opcode = 0x5b then newBlock i else block

/-- The block that goes on after an instruction: a `JUMPI` starts a new one. -/
def blockAfter (i : Nat) (block : BlockAnalysis) (opcode : UInt8) : BlockAnalysis :=
  if Opcode.ofByte opcode = some .jumpi then newBlock i
  else (blockOf i block opcode).add (opTable opcode)

/-- The value of a PUSH with more than 8 bytes of data. -/
def largePushValue (code : Bytes) (item : Item) : Word :=
  .load (largePushLoop (pushData code item) (List.replicate 32 0) (pushSize item.2 - 1)).reverse

/-- The values of the large PUSHes. -/
def pushValues (code : Bytes) : List Item → List Word
  | [] => []
  | item :: items =>
    if IsPush item.2 ∧ ¬ pushSize item.2 ≤ 8 then largePushValue code item :: pushValues code items
    else pushValues code items

/-- The argument of an instruction of index `i`; `k` push values are stored already, `block` are the
totals of its block up to the instruction, and `items` follow. -/
def argument (code : Bytes) (i k : Nat) (block : BlockAnalysis) (item : Item) (items : List Item) :
    InstructionArgument :=
  if item.2 = 0x5b then .block (summary block items).close
  else if IsPush item.2 then
    if pushSize item.2 ≤ 8 then
      .smallPushValue (smallPushLoop (pushData code item) 0 ((pushSize item.2 - 1) * 8))
    else .pushValue k
  else match Opcode.ofByte item.2 with
  | some .jumpi => .block (summary (newBlock i) items).close
  | some .gas | some .call | some .delegatecall | some .staticcall | some .create | some .create2
  | some .sstore => .number block.gasCost
  | some .pc => .number item.1
  | _ => .block {}

/-- The instructions emitted for the items, from the index `i` on. -/
def emit (code : Bytes) : Nat → Nat → BlockAnalysis → List Item → List Instruction
  | _, _, _, [] => []
  | i, k, block, item :: items =>
    { fn := (opTable item.2).fn
      arg := argument code i k ((blockOf i block item.2).add (opTable item.2)) item items } ::
      emit code (i + 1) (k + (pushValues code [item]).length) (blockAfter i block item.2) items

/-- The offsets and the targets of the `JUMPDEST`s among the items. -/
def jumpdests : Nat → List Item → List (Nat × Nat)
  | _, [] => []
  | i, (pos, opcode) :: items =>
    if opcode = 0x5b then (pos, i) :: jumpdests (i + 1) items else jumpdests (i + 1) items

/-! ### The loop of `analyze` -/

/-- Fill in the summary of a block. -/
def patch (instrs : List Instruction) (index : Nat) (info : BlockInfo) : List Instruction :=
  instrs.modify index fun i => { i with arg := .block info }

/-- The last element of a list is changed in its place. -/
theorem modify_append_last {α : Type} (l : List α) (a : α) (f : α → α) :
    (l ++ [a]).modify l.length f = l ++ [f a] := by
  induction l with
  | nil => rfl
  | cons b l ih => simp [ih]

/-- Patching the last instruction. -/
theorem patch_append_last (instrs : List Instruction) (instr : Instruction) (info : BlockInfo) :
    patch (instrs ++ [instr]) instrs.length info = instrs ++ [{ instr with arg := .block info }] :=
  modify_append_last ..

/-- An instruction that is appended is not patched. -/
theorem patch_append_of_lt {instrs : List Instruction} {index : Nat} (h : index < instrs.length)
    (instr : Instruction) (info : BlockInfo) :
    patch (instrs ++ [instr]) index info = patch instrs index info ++ [instr] := by
  induction instrs generalizing index with
  | nil => simp at h
  | cons i instrs ih =>
    cases index with
    | zero => rfl
    | succ index =>
      have ih := @ih index (by simpa using h)
      simp only [patch, List.cons_append, List.modify_succ_cons] at ih ⊢
      rw [ih]

/-- Patching keeps the number of instructions. -/
@[simp] theorem length_patch (instrs : List Instruction) (index : Nat) (info : BlockInfo) :
    (patch instrs index info).length = instrs.length := by
  rw [patch, List.length_modify]

/-- The state of the loop after an instruction that is neither a `JUMPDEST` nor a `JUMPI`. -/
theorem iterate_of_plain {s : AnalyzeState} {code : Bytes} {opcode : UInt8}
    (hjumpdest : opcode ≠ 0x5b) (hjumpi : Opcode.ofByte opcode ≠ some .jumpi)
    (items : List Item) :
    s.iterate code opcode =
      { analysis := { s.analysis with
          instrs := s.analysis.instrs ++
            [{ fn := (opTable opcode).fn
               arg := argument code s.analysis.instrs.length s.analysis.pushValues.length
                 (s.block.add (opTable opcode)) (s.codePos, opcode) items }]
          pushValues := s.analysis.pushValues ++ pushValues code [(s.codePos, opcode)] }
        block := s.block.add (opTable opcode)
        codePos := nextPos code (s.codePos, opcode) } := by
  unfold AnalyzeState.iterate AnalyzeState.finish nextPos argument pushValues
  rw [if_neg hjumpdest]
  -- Pushes carry their value, small or large; the others at most a number.
  by_cases hpush : IsPush opcode
  · by_cases hsize : pushSize opcode ≤ 8
    · simp [hpush, hsize, hjumpdest, AnalyzeState.setArg, AnalyzeState.append, pushData, pushValues,
        modify_append_last]
    · simp [hpush, hsize, hjumpdest, AnalyzeState.setArg, AnalyzeState.append, pushData,
        pushValues, largePushValue, modify_append_last]
  · rw [if_neg hpush]
    rcases hop : Opcode.ofByte opcode with _ | op
    · simp [hpush, hjumpdest, AnalyzeState.append, pushValues]
    · cases op with
      | jumpi => exact absurd hop hjumpi
      | _ =>
        simp [hpush, hjumpdest, AnalyzeState.setArg, AnalyzeState.append, pushValues,
          modify_append_last]

/-- The state of the loop after a `JUMPDEST`. -/
theorem iterate_of_jumpdest (s : AnalyzeState) (code : Bytes) :
    s.iterate code 0x5b =
      { analysis := { s.analysis with
          instrs := patch s.analysis.instrs s.block.beginBlockIndex s.block.close ++
            [{ fn := .opxBeginblock }]
          jumpdestOffsets := s.analysis.jumpdestOffsets ++ [s.codePos]
          jumpdestTargets := s.analysis.jumpdestTargets ++ [s.analysis.instrs.length] }
        block := (newBlock s.analysis.instrs.length).add (opTable 0x5b)
        codePos := s.codePos + 1 } := by
  have hlength : (s.analysis.instrs.modify s.block.beginBlockIndex fun i =>
      { i with arg := InstructionArgument.block s.block.close }).length = s.analysis.instrs.length :=
    List.length_modify ..
  have hop : Opcode.ofByte 0x5b = some .jumpdest := rfl
  have hfn : (opTable 0x5b).fn = .opxBeginblock := rfl
  have hpush : ¬ IsPush 0x5b := by decide
  simp [AnalyzeState.iterate, AnalyzeState.finish, AnalyzeState.startJumpdest,
    AnalyzeState.saveBlock, AnalyzeState.append, patch, newBlock, hlength, hop, hfn, hpush]

/-- `JUMPI` is no jump destination and has no data. -/
theorem ofByte_eq_jumpi {opcode : UInt8} (h : Opcode.ofByte opcode = some .jumpi) :
    opcode ≠ 0x5b ∧ ¬ IsPush opcode := by
  constructor
  · rintro rfl
    cases h
  · intro hpush
    unfold Opcode.ofByte at h
    rw [dif_pos ⟨hpush.1, Nat.lt_succ_of_le hpush.2⟩] at h
    cases h

/-- The state of the loop after a `JUMPI`. -/
theorem iterate_of_jumpi {s : AnalyzeState} {code : Bytes} {opcode : UInt8}
    (hop : Opcode.ofByte opcode = some .jumpi)
    (hbegin : s.block.beginBlockIndex < s.analysis.instrs.length) :
    s.iterate code opcode =
      { analysis := { s.analysis with
          instrs := patch s.analysis.instrs s.block.beginBlockIndex
            (s.block.add (opTable opcode)).close ++ [{ fn := (opTable opcode).fn }] }
        block := newBlock s.analysis.instrs.length
        codePos := s.codePos + 1 } := by
  obtain ⟨hjumpdest, hpush⟩ := ofByte_eq_jumpi hop
  have hpatch := patch_append_of_lt hbegin { fn := (opTable opcode).fn }
    (s.block.add (opTable opcode)).close
  unfold patch at hpatch
  simp [AnalyzeState.iterate, AnalyzeState.finish, AnalyzeState.saveBlock, AnalyzeState.append,
    patch, newBlock, hop, hjumpdest, hpush, BlockAnalysis.add] at hpatch ⊢
  exact hpatch

/-- A jump destination has no data behind it. -/
theorem nextPos_jumpdest (code : Bytes) (pos : Nat) : nextPos code (pos, 0x5b) = pos + 1 := by
  rw [nextPos, if_neg (show ¬ IsPush 0x5b by decide)]
  rfl

/-- `JUMPI` has no data behind it. -/
theorem nextPos_jumpi {code : Bytes} {opcode : UInt8} (hop : Opcode.ofByte opcode = some .jumpi)
    (pos : Nat) : nextPos code (pos, opcode) = pos + 1 := by
  rw [nextPos, if_neg (ofByte_eq_jumpi hop).2]
  simp only [hop]

/-- The push values of the items come one after the other. -/
theorem pushValues_cons (code : Bytes) (item : Item) (items : List Item) :
    pushValues code (item :: items) = pushValues code [item] ++ pushValues code items := by
  simp only [pushValues]
  split <;> rfl

/-- What the loop of `analyze` adds to a state. -/
theorem analyzeLoop_eq (code : Bytes) (n : Nat) (s : AnalyzeState)
    (hbegin : s.block.beginBlockIndex < s.analysis.instrs.length) :
    (analyzeLoop code n s).saveBlock.analysis =
      { instrs := patch s.analysis.instrs s.block.beginBlockIndex
            (summary s.block (decode code n s.codePos)).close ++
          emit code s.analysis.instrs.length s.analysis.pushValues.length s.block
            (decode code n s.codePos)
        pushValues := s.analysis.pushValues ++ pushValues code (decode code n s.codePos)
        jumpdestOffsets := s.analysis.jumpdestOffsets ++
          (jumpdests s.analysis.instrs.length (decode code n s.codePos)).map Prod.fst
        jumpdestTargets := s.analysis.jumpdestTargets ++
          (jumpdests s.analysis.instrs.length (decode code n s.codePos)).map Prod.snd } := by
  -- At the end of the code the summary of the last block is filled in.
  have hend : ∀ s : AnalyzeState, s.saveBlock.analysis =
      { instrs := patch s.analysis.instrs s.block.beginBlockIndex s.block.close ++ []
        pushValues := s.analysis.pushValues ++ []
        jumpdestOffsets := s.analysis.jumpdestOffsets ++ []
        jumpdestTargets := s.analysis.jumpdestTargets ++ [] } := by
    intro s
    simp [AnalyzeState.saveBlock, patch]
  induction n generalizing s with
  | zero => exact hend s
  | succ n ih =>
    unfold analyzeLoop decode
    rcases hcode : code[s.codePos]? with _ | opcode
    · exact hend s
    · dsimp only
      by_cases hjumpdest : opcode = 0x5b
      · subst hjumpdest
        -- A `JUMPDEST` closes the block before it and belongs to the next one.
        rw [iterate_of_jumpdest, nextPos_jumpdest]
        refine (ih _ ?_).trans ?_
        · simp [newBlock, BlockAnalysis.add]
        · have hlast := patch_append_last
            (patch s.analysis.instrs s.block.beginBlockIndex s.block.close) { fn := .opxBeginblock }
          rw [length_patch] at hlast
          simp [summary, emit, jumpdests, blockOf, blockAfter, argument, newBlock, hlast,
            BlockAnalysis.add, pushValues, show ¬ IsPush 0x5b by decide,
            show Opcode.ofByte 0x5b = some .jumpdest from rfl]
          rfl
      · by_cases hjumpi : Opcode.ofByte opcode = some .jumpi
        · obtain ⟨-, hpush⟩ := ofByte_eq_jumpi hjumpi
          -- A `JUMPI` closes the block that it belongs to.
          rw [iterate_of_jumpi hjumpi hbegin, nextPos_jumpi hjumpi]
          refine (ih _ ?_).trans ?_
          · simp [newBlock]
          · have hlast := patch_append_last (patch s.analysis.instrs s.block.beginBlockIndex
              (s.block.add (opTable opcode)).close) { fn := (opTable opcode).fn }
            rw [length_patch] at hlast
            simp [summary, emit, jumpdests, blockAfter, argument, newBlock, hlast, pushValues, hpush,
              hjumpi, hjumpdest]
        -- All others stay in their block, and only their argument tells them apart.
        · rw [iterate_of_plain hjumpdest hjumpi (decode code n (nextPos code (s.codePos, opcode)))]
          refine (ih _ ?_).trans ?_
          · simp [BlockAnalysis.add]
            omega
          · have hpatch := patch_append_of_lt hbegin
            simp [summary, emit, jumpdests, blockOf, blockAfter, hjumpi, hjumpdest, hpatch,
              BlockAnalysis.add]
            exact (pushValues_cons ..).symm

/-- What the Advanced analysis makes of a code. -/
theorem analyze_eq (code : Bytes) :
    analyze code =
      { instrs := { fn := .opxBeginblock,
                    arg := .block (summary (newBlock 0) (decode code code.length 0)).close } ::
          emit code 1 0 (newBlock 0) (decode code code.length 0) ++ [{ fn := .op .stop }]
        pushValues := pushValues code (decode code code.length 0)
        jumpdestOffsets := (jumpdests 1 (decode code code.length 0)).map Prod.fst
        jumpdestTargets := (jumpdests 1 (decode code code.length 0)).map Prod.snd } := by
  have hloop := analyzeLoop_eq code code.length
    { analysis := { instrs := [{ fn := .opxBeginblock }] }, block := { beginBlockIndex := 0 },
      codePos := 0 } (by decide)
  unfold analyze
  dsimp only at hloop ⊢
  rw [hloop]
  rfl

end Advanced

end Zvmone
