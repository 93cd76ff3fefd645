import Mathlib.Order.Bounds.Basic
import Zvmone.Vm.Alike
import Zvmone.Vm.MemoryPaid
import Zvmone.Vm.MemoryWords

/-! # Memory is in bounds, zero-extended and paid for

In a run of either interpreter the memory of the frame consists of as many words as the largest
access so far needed, and these are what the growths together were charged for (`Memory.Paid`), which
was taken from the gas of the frame. -/

namespace Zvmone

open Interaction

/-! ### The words accesses need -/

/-- The numbers of words needed by the accesses with a size other than 0. -/
def wordsNeeded (l : List (Word × Word)) : Set Nat :=
  {w | ∃ a ∈ l, a.2 ≠ 0 ∧ w = (a.1.toNat + a.2.toNat + 31) / 32}

/-- The largest number of words an access needs. -/
def maxWords (l : List (Word × Word)) : Nat :=
  l.foldr (fun a w => max ((accessEnd a.1.toNat a.2.toNat + 31) / 32) w) 0

/-- The number computed from a list is the largest that its accesses need. -/
theorem isLUB_maxWords (l : List (Word × Word)) : IsLUB (wordsNeeded l) (maxWords l) := by
  constructor
  -- An upper bound: every access of the list ends at its maximum or before it.
  · rintro w ⟨a, ha, hsize, rfl⟩
    induction l with
    | nil => cases ha
    | cons b l ih =>
      rcases List.mem_cons.mp ha with rfl | ha
      · have hpos : 0 < a.2.toNat := Nat.pos_of_ne_zero fun h => hsize (BitVec.eq_of_toNat_eq h)
        rw [← accessEnd_of_pos hpos]
        exact le_max_left _ _
      · exact (ih ha).trans (le_max_right _ _)
  -- The least one: an access of size zero asks for nothing.
  · intro b hb
    induction l with
    | nil => exact Nat.zero_le b
    | cons a l ih =>
      apply max_le
      · by_cases hsize : a.2 = 0
        · have hzero : accessEnd a.1.toNat a.2.toNat = 0 := by
            rw [hsize]
            exact accessEnd_zero _
          rw [hzero]
          exact Nat.zero_le b
        · have hpos : 0 < a.2.toNat := Nat.pos_of_ne_zero fun h => hsize (BitVec.eq_of_toNat_eq h)
          rw [accessEnd_of_pos hpos]
          exact hb ⟨a, List.mem_cons_self, hsize, rfl⟩
      · exact ih fun w ⟨a, ha, h⟩ => hb ⟨a, List.mem_cons_of_mem _ ha, h⟩

namespace Memory

variable {m m' : Memory} {l : List (Word × Word)} {W : Nat} {S : Set Nat}

/-- Memory of `W` words has as many words as it needs after accesses. -/
theorem WellFormed.size_accessAll (h : m.WellFormed) (hsize : m.size = 32 * W) :
    (m.accessAll l).size = 32 * max W (maxWords l) := by
  induction l generalizing m W with
  | nil => simpa [maxWords] using hsize
  | cons a l ih =>
    have haccess : (m.access (accessEnd a.1.toNat a.2.toNat)).size
        = 32 * max W ((accessEnd a.1.toNat a.2.toNat + 31) / 32) := by
      rw [h.size_access, hsize]
      omega
    rw [accessAll_cons, ih (h.access _) haccess]
    simp only [maxWords, List.foldr_cons, max_assoc]

/-- The accesses are within the memory. -/
theorem le_size_accessAll {a : Word × Word} (ha : a ∈ l) :
    accessEnd a.1.toNat a.2.toNat ≤ (m.accessAll l).size := by
  have hgrow : ∀ (l : List (Word × Word)) (m : Memory), m.size ≤ (m.accessAll l).size := by
    intro l
    induction l with
    | nil => exact fun m => le_rfl
    | cons a l ih => exact fun m => (m.size_le_size_access _).trans (ih _)
  induction l generalizing m with
  | nil => cases ha
  | cons b l ih =>
    rcases List.mem_cons.mp ha with rfl | ha
    · exact (m.le_size_access _).trans (hgrow l _)
    · exact ih ha

/-- The memory consists of whole words, which are allocated. There are as many as the largest number
in `S`, and the growths so far were charged for them. -/
structure Paid (m : Memory) (S : Set Nat) : Prop where
  allocated : m.size ≤ m.capacity
  words : ∃ W : Nat, IsLUB S W ∧ m.size = 32 * W ∧ m.charged = 3 * W + W * W / 512

/-- Memory that is paid for is well formed. -/
theorem Paid.wellFormed (h : m.Paid S) : m.WellFormed := by
  obtain ⟨W, -, hsize, hcharged⟩ := h.words
  refine ⟨by omega, h.allocated, ?_⟩
  rw [hcharged, hsize, Nat.mul_div_cancel_left W (by decide)]
  rfl

/-- Fresh memory. -/
theorem paid_init : ({} : Memory).Paid ∅ :=
  ⟨Nat.zero_le _, 0, isLUB_empty, rfl, rfl⟩

/-- Memory that is as large as some more accesses need is paid for with them. -/
theorem Paid.next (h : m.Paid S) (hwf : m'.WellFormed) (hsize : m'.size = (m.accessAll l).size) :
    m'.Paid (S ∪ wordsNeeded l) := by
  obtain ⟨W, hlub, hm, -⟩ := h.words
  have hm' : m'.size = 32 * max W (maxWords l) := hsize.trans (h.wellFormed.size_accessAll hm)
  refine ⟨hwf.allocated, max W (maxWords l), hlub.union (isLUB_maxWords l), hm', ?_⟩
  rw [hwf.charged, hm', Nat.mul_div_cancel_left _ (by decide)]
  rfl

end Memory

/-! ### The Baseline interpreter -/

namespace Baseline

/-- The accesses of the instruction at a frame. -/
def Frame.accesses (analysis : CodeAnalysis) (f : Frame) : List (Word × Word) :=
  match analysis.executableCode[f.codeIt]?.bind Opcode.ofByte with
  | some op => memoryAccesses op f.stackTop
  | none => []

/-- The memory after an instruction that did not fail. -/
def Next.HasMemory (size : Nat) : Next → Prop
  | .cont f => f.state.memory.size = size
  | .done _ st => ¬ st.status.IsFailure → st.memory.size = size

variable [Ethash] {analysis : CodeAnalysis} {f : Frame}

/-- An instruction leaves the memory as its accesses make it, unless it fails. -/
theorem invokeCore_memory (op : Opcode) :
    (invokeCore analysis op f).Returns
      (Next.HasMemory (f.state.memory.accessAll (memoryAccesses op f.stackTop)).size) := by
  have haccesses := Core.accesses_coreImpl op
  rcases hop : coreImpl op with fn | fn | p | p | _ <;> rw [hop] at haccesses
  -- The stack and state shapes, and the moves of the position, access no memory.
  · unfold invokeCore
    rw [hop, show memoryAccesses op = fun _ => [] from haccesses]
    exact rfl
  · unfold invokeCore
    rw [hop, show memoryAccesses op = fun _ => [] from haccesses.1]
    exact (haccesses.2 f.stackTop f.state).seq fun x hx => congrArg Memory.size hx
  · rw [invokeCore_result hop]
    refine (haccesses f.stackTop f.state.memory ⟨f.stackTop, f.gas, f.state⟩ rfl rfl).seq ?_
    rintro ⟨e | a, c⟩ ⟨hfail, hok⟩
    · exact fun hstatus => absurd (hfail e rfl) hstatus
    · exact hok a rfl
  · rw [invokeCore_term hop]
    refine (haccesses f.stackTop f.state.memory ⟨f.stackTop, f.gas, f.state⟩ rfl rfl).seq ?_
    rintro ⟨e | a, c⟩ ⟨hfail, hok⟩
    · exact fun hstatus => absurd (hfail e rfl) hstatus
    · exact fun _ => hok a rfl
  · rw [invokeCore_pos hop, show memoryAccesses op = fun _ => [] from haccesses]
    obtain ⟨next, stack, hnext | hnext⟩ :=
      positionImpl_cases analysis hop f.stackTop f.state f.codeIt <;> rw [hnext]
    · exact rfl
    · exact fun hstatus => absurd (show StatusCode.badJumpDestination.IsFailure by decide) hstatus

/-- An instruction that does not fail makes the memory as large as its accesses need. -/
theorem step_memory : (step analysis f).Returns
    (Next.HasMemory (f.state.memory.accessAll (f.accesses analysis)).size) := by
  refine step_returns (fun byte op gas hbyte hop _ => ?_) fun gas status hstatus h => absurd hstatus h
  have haccesses : f.accesses analysis = memoryAccesses op f.stackTop := by
    unfold Frame.accesses
    rw [hbyte, Option.bind_some, hop]
  rw [haccesses]
  exact invokeCore_memory (f := { f with gas }) op

variable {σ : Type} {env : Env HostCall.Answer Fault σ} {code : Bytes} {msg : Message} {n : Nat}
  {s s' : σ}

/-- A step leaves the memory as its accesses make it, unless it fails. -/
theorem size_of_step {next : Next} (hrun : run env (step analysis f) s = .ok (next, s'))
    (hok : ∀ gas st, next = .done gas st → ¬ st.status.IsFailure) :
    next.state.memory.size = (f.state.memory.accessAll (f.accesses analysis)).size := by
  have hmemory := step_memory.run hrun
  cases next with
  | cont g => exact hmemory
  | done gas st => exact hmemory (hok gas st rfl)

/-- The numbers of words needed by the accesses of the first `n` instructions of a run. -/
def wordsNeeded (env : Env HostCall.Answer Fault σ) (analysis : CodeAnalysis) (f : Frame) (s : σ)
    (n : Nat) : Set Nat :=
  {w | ∃ k < n, ∃ f₁ s₁, Passes env analysis f s k f₁ s₁ ∧ w ∈ Zvmone.wordsNeeded (f₁.accesses analysis)}

/-- One instruction more adds its accesses. -/
theorem Passes.wordsNeeded_succ {f₁ : Frame} (h : Passes env analysis f s n f₁ s') :
    wordsNeeded env analysis f s (n + 1) =
      wordsNeeded env analysis f s n ∪ Zvmone.wordsNeeded (f₁.accesses analysis) := by
  ext w
  constructor
  · rintro ⟨k, hk, f₂, s₂, hpasses, hw⟩
    by_cases hkn : k < n
    · exact .inl ⟨k, hkn, f₂, s₂, hpasses, hw⟩
    · obtain rfl : k = n := by omega
      obtain ⟨rfl, rfl⟩ := hpasses.unique h
      exact .inr hw
  · rintro (⟨k, hk, hpasses⟩ | hw)
    · exact ⟨k, by omega, hpasses⟩
    · exact ⟨n, n.lt_succ_self, f₁, s', h, hw⟩

omit [Ethash] in
/-- A frame is like itself. -/
theorem Frame.Alike.refl (f : Frame) : f.Alike f :=
  ⟨rfl, ⟨(Nat.zero_add _).symm, (Nat.zero_add _).symm, fun _ _ => rfl⟩, rfl, .refl f.state⟩

/-- An instruction writes no memory beyond its size. -/
theorem step_grows (h : f.stackTop.top ≤ stackLimit) :
    (step analysis f).Returns fun next => f.state.Grows next.state :=
  (step_alike (.refl f) h).returns.imp fun _ ⟨_, _, hgrows⟩ => hgrows

/-- The memory stays paid for. -/
theorem Passes.paid_step {next : Next} {s₁ : σ} {S : Set Nat}
    (h : Passes env analysis (.start msg code) s n f s') (hpaid : f.state.memory.Paid S)
    (hrun : run env (step analysis f) s' = .ok (next, s₁))
    (hok : ∀ gas st, next = .done gas st → ¬ st.status.IsFailure) :
    next.state.memory.Paid (S ∪ Zvmone.wordsNeeded (f.accesses analysis)) := by
  have hgrows := (step_grows h.height).run hrun
  exact hpaid.next (hgrows.wellFormed hpaid.wellFormed) (size_of_step hrun hok)

/-- The memory of the frame is paid for at every instruction. -/
theorem Passes.paid (h : Passes env analysis (.start msg code) s n f s') :
    f.state.memory.Paid (wordsNeeded env analysis (.start msg code) s n) := by
  induction h with
  | start =>
    have hempty : wordsNeeded env analysis (.start msg code) s 0 = ∅ :=
      Set.eq_empty_of_forall_notMem fun _ ⟨_, hk, _⟩ => absurd hk (Nat.not_lt_zero _)
    rw [hempty]
    exact Memory.paid_init
  | next hpasses hrun ih =>
    rw [hpasses.wordsNeeded_succ]
    exact hpasses.paid_step ih hrun fun _ _ h => (by cases h)

/-- The output is within the memory at every instruction. -/
theorem Passes.outputInBounds (h : Passes env analysis (.start msg code) s n f s') :
    f.state.OutputInBounds := by
  induction h with
  | start => exact Nat.zero_le _
  | next hpasses hrun ih => exact ((step_grows hpasses.height).run hrun).output ih

end Baseline

/-! ### The Advanced interpreter -/

namespace Advanced

open Zvmone.Core

/-- The accesses of an instruction function. -/
def ExecFn.accesses : ExecFn → StackTop → List (Word × Word)
  | .op opcode, s => memoryAccesses opcode s
  | .opCall callOp, s => callOp.accesses s
  | .opCreate _, s => [(s.get 1, s.get 2)]
  | _, _ => []

/-- The functions access what their opcodes do. -/
theorem accesses_instructionImplementations (op : Opcode) :
    (instructionImplementations op).accesses = memoryAccesses op := by
  cases op with
  | push k =>
    show (if k.val + 1 ≤ 8 then ExecFn.opPushSmall else ExecFn.opPushFull).accesses = _
    split <;> rfl
  | _ => rfl

/-- The memory after an instruction that did not fail. -/
def HasMemory (size : Nat) (x : Option Nat × AdvancedExecutionState) : Prop :=
  x.1 ≠ none ∨ ¬ x.2.base.status.IsFailure → x.2.base.memory.size = size

/-- After a failure nothing is said about the memory. -/
theorem hasMemory_exit {size : Nat} {status : StatusCode} (h : status.IsFailure)
    (st : AdvancedExecutionState) : HasMemory size (st.exit status) := by
  rintro (hne | hok)
  · exact absurd rfl hne
  · exact absurd h hok

variable {analysis : AdvancedCodeAnalysis} {i : Nat} {st : AdvancedExecutionState}

/-- The functions with the exact gas leave the memory as their accesses make it. -/
theorem opCorrected_memory {op : Opcode} {fn : InstrM Unit} (arg : InstructionArgument)
    {accesses : StackTop → List (Word × Word)} (haccesses : fn.Accesses accesses) :
    (opCorrected op fn arg i st).Returns
      (HasMemory (st.base.memory.accessAll (accesses st.stack)).size) := by
  rw [opCorrected_eq]
  refine (haccesses st.stack st.base.memory
    (st.correct (st.currentBlockCost - arg.asNumber)).ctx rfl rfl).seq ?_
  rintro ⟨e | a, c⟩ ⟨hfail, hok⟩ <;> rw [returns_ret] <;> unfold resumeCorrected
  · rw [if_pos (show implStatus (.error e) ≠ .success from (hfail e rfl).1)]
    exact hasMemory_exit (hfail e rfl) _
  · rw [if_neg (show ¬ implStatus (.ok a) ≠ .success from not_not.mpr rfl)]
    split
    · exact hasMemory_exit (by decide) _
    · exact fun _ => hok a rfl

/-- Entering a block accesses no memory. -/
theorem opxBeginblock_memory (arg : InstructionArgument) :
    HasMemory st.base.memory.size (opxBeginblock arg i st) := by
  unfold opxBeginblock
  dsimp only
  split
  · exact hasMemory_exit (by decide) _
  · split
    · exact hasMemory_exit (by decide) _
    · split
      · exact hasMemory_exit (by decide) _
      · exact fun _ => rfl

/-- A jump accesses no memory. -/
theorem opJump_memory : HasMemory st.base.memory.size (opJump analysis st) := by
  unfold opJump
  dsimp only
  split
  · exact hasMemory_exit (by decide) _
  · split
    · exact hasMemory_exit (by decide) _
    · exact fun _ => rfl

variable [Ethash]

/-- The functions of the core implementations leave the memory as their accesses make it. -/
theorem opCore_memory (op : Opcode) : (opCore op i st).Returns
    (HasMemory (st.base.memory.accessAll (memoryAccesses op st.stack)).size) := by
  have haccesses := accesses_coreImpl op
  rcases hop : coreImpl op with fn | fn | p | p | _ <;> rw [hop] at haccesses
  -- As for Baseline, shape by shape; only a loop that goes on tells of its memory.
  · rw [opCore_stack hop, show memoryAccesses op = fun _ => [] from haccesses]
    exact fun _ => rfl
  · rw [opCore_state hop, show memoryAccesses op = fun _ => [] from haccesses.1]
    exact (haccesses.2 st.stack st.base).seq fun x hx _ => congrArg Memory.size hx
  · rw [opCore_result hop]
    refine (haccesses st.stack st.base.memory st.ctx rfl rfl).seq ?_
    rintro ⟨e | a, c⟩ ⟨hfail, hok⟩
    · have he := hfail e rfl
      rw [returns_ret, show resume i (implStatus (.error e)) (st.absorb op c)
        = (st.absorb op c).exit e from if_pos he.1]
      exact hasMemory_exit he _
    · exact fun _ => hok a rfl
  · rw [opCore_term hop]
    refine (haccesses st.stack st.base.memory st.ctx rfl rfl).seq ?_
    rintro ⟨e | a, c⟩ ⟨hfail, hok⟩
    · exact hasMemory_exit (hfail e rfl) _
    · exact fun _ => hok a rfl
  · unfold opCore
    rw [hop]
    trivial

/-- An instruction that does not fail makes the memory as large as its accesses need. -/
theorem exec_memory {instr : Instruction} : (instr.exec analysis i st).Returns
    (HasMemory (st.base.memory.accessAll (instr.fn.accesses st.stack)).size) := by
  unfold Instruction.exec
  rcases hfn : instr.fn with op | _ | _ | _ | _ | _ | _ | _ | _ | op | op | _
  · exact opCore_memory op
  · exact opCorrected_memory _ accesses_sstore
  · exact opxBeginblock_memory _
  · exact opJump_memory
  · unfold opJumpi
    dsimp only
    split
    · exact opJump_memory
    · exact @opxBeginblock_memory i { st with stack := st.stack.pop.2.pop.2 } _
  · exact fun _ => rfl
  · exact fun _ => rfl
  · exact fun _ => rfl
  · dsimp only
    split
    · trivial
    · exact fun _ => rfl
  · exact opCorrected_memory _ (accesses_callImpl op)
  · exact opCorrected_memory _ (accesses_createImpl op)
  · exact hasMemory_exit (by decide) _

variable {σ : Type} {env : Env HostCall.Answer Fault σ} {code : Bytes} {msg : Message} {n : Nat}
  {s s' : σ} {instr : Instruction}

/-- The numbers of words needed by the accesses of the first `n` instructions of a run. -/
def wordsNeeded (env : Env HostCall.Answer Fault σ) (code : Bytes) (msg : Message) (s : σ) (n : Nat) :
    Set Nat :=
  {w | ∃ k < n, ∃ i₁ st₁ s₁ instr, Passes env (analyze code) 0 (.start msg code) s k i₁ st₁ s₁ ∧
    (analyze code).instrs[i₁]? = some instr ∧ w ∈ Zvmone.wordsNeeded (instr.fn.accesses st₁.stack)}

/-- One instruction more adds its accesses. -/
theorem Passes.wordsNeeded_succ (h : Passes env (analyze code) 0 (.start msg code) s n i st s')
    (hinstr : (analyze code).instrs[i]? = some instr) :
    wordsNeeded env code msg s (n + 1) =
      wordsNeeded env code msg s n ∪ Zvmone.wordsNeeded (instr.fn.accesses st.stack) := by
  ext w
  constructor
  · rintro ⟨k, hk, i₁, st₁, s₁, instr₁, hpasses, hinstr₁, hw⟩
    by_cases hkn : k < n
    · exact .inl ⟨k, hkn, i₁, st₁, s₁, instr₁, hpasses, hinstr₁, hw⟩
    · obtain rfl : k = n := by omega
      obtain ⟨rfl, rfl, rfl⟩ := hpasses.unique h
      obtain rfl : instr₁ = instr := Option.some.inj (hinstr₁.symm.trans hinstr)
      exact .inr hw
  · rintro (⟨k, hk, hpasses⟩ | hw)
    · exact ⟨k, by omega, hpasses⟩
    · exact ⟨n, n.lt_succ_self, i, st, s', instr, h, hinstr, hw⟩

omit [Ethash] in
/-- A state is like itself. -/
theorem AdvancedExecutionState.Alike.refl (st : AdvancedExecutionState) : st.Alike st :=
  ⟨⟨(Nat.zero_add _).symm, (Nat.zero_add _).symm, fun _ _ => rfl⟩, rfl, rfl, .refl st.base⟩

/-- An instruction writes no memory beyond its size. -/
theorem Passes.exec_grows (h : Passes env (analyze code) 0 (.start msg code) s n i st s')
    (hinstr : (analyze code).instrs[i]? = some instr) :
    (instr.exec (analyze code) i st).Returns fun x => st.base.Grows x.2.base :=
  (exec_alike (.refl st) h.inBlock.2 h.inBlock.1 hinstr).returns.imp fun _ ⟨_, _, hgrows⟩ => hgrows

/-- The memory stays paid for. -/
theorem Passes.paid_exec {x : Option Nat × AdvancedExecutionState} {s₁ : σ} {S : Set Nat}
    (h : Passes env (analyze code) 0 (.start msg code) s n i st s')
    (hinstr : (analyze code).instrs[i]? = some instr) (hpaid : st.base.memory.Paid S)
    (hrun : run env (instr.exec (analyze code) i st) s' = .ok (x, s₁))
    (hok : x.1 ≠ none ∨ ¬ x.2.base.status.IsFailure) :
    x.2.base.memory.Paid (S ∪ Zvmone.wordsNeeded (instr.fn.accesses st.stack)) := by
  have hgrows := (h.exec_grows hinstr).run hrun
  exact hpaid.next (hgrows.wellFormed hpaid.wellFormed) (exec_memory.run hrun hok)

/-- The memory of the frame is paid for at every instruction. -/
theorem Passes.paid (h : Passes env (analyze code) 0 (.start msg code) s n i st s') :
    st.base.memory.Paid (wordsNeeded env code msg s n) := by
  induction h with
  | start =>
    have hempty : wordsNeeded env code msg s 0 = ∅ :=
      Set.eq_empty_of_forall_notMem fun _ ⟨_, hk, _⟩ => absurd hk (Nat.not_lt_zero _)
    rw [hempty]
    exact Memory.paid_init
  | next hpasses hinstr hrun ih =>
    rw [hpasses.wordsNeeded_succ hinstr]
    exact hpasses.paid_exec hinstr ih hrun (.inl (Option.some_ne_none _))

/-- The output is within the memory at every instruction. -/
theorem Passes.outputInBounds (h : Passes env (analyze code) 0 (.start msg code) s n i st s') :
    st.base.OutputInBounds := by
  induction h with
  | start => exact Nat.zero_le _
  | next hpasses hinstr hrun ih => exact ((hpasses.exec_grows hinstr).run hrun).output ih

end Advanced

/-! ### Memory checks -/

/-- The old bytes are the same, and the new ones are zero. -/
structure Memory.Extends (m m' : Memory) : Prop where
  size : m.size ≤ m'.size
  old : ∀ j < m.size, m'.data j = m.data j
  new : ∀ j, m.size ≤ j → j < m'.size → m'.data j = 0

/-- A memory extends itself. -/
theorem Memory.Extends.refl (m : Memory) : m.Extends m :=
  ⟨le_rfl, fun _ _ => rfl, fun _ hj hj' => absurd hj' (Nat.not_lt.mpr hj)⟩

/-- An access extends the memory. -/
theorem Memory.extends_access (m : Memory) (e : Nat) : m.Extends (m.access e) :=
  ⟨m.size_le_size_access e, fun _ => data_access_of_lt, fun _ => data_access_new⟩

/-- A check extends the memory with zeros, and if it succeeds the access is below the new size,
whatever its offset and size are, and the growth is paid. -/
theorem checkMemory_spec (gas : Int) (m : Memory) (offset size : Word) :
    m.Extends (checkMemory gas m offset size).2.2 ∧
      ((checkMemory gas m offset size).1 = true →
        (size = 0 ∨ offset.toNat + size.toNat ≤ (checkMemory gas m offset size).2.2.size) ∧
        gas - (checkMemory gas m offset size).2.1
          = (checkMemory gas m offset size).2.2.charged - m.charged) := by
  suffices hcovers : m.Extends (checkMemory gas m offset size).2.2 ∧
      ((checkMemory gas m offset size).1 = true →
        size = 0 ∨ offset.toNat + size.toNat ≤ (checkMemory gas m offset size).2.2.size) from
    ⟨hcovers.1, fun hok => ⟨hcovers.2 hok, checkMemory_paid hok⟩⟩
  obtain ⟨gas', hfail, -⟩ | ⟨hexact, gas', hok, -⟩ := checkMemory_congr (m := m) rfl gas offset size
  · rw [hfail]
    exact ⟨.refl m, nofun⟩
  · rw [hok, accessEnd_toSize hexact]
    refine ⟨m.extends_access _, fun _ => or_iff_not_imp_left.mpr fun hsize => ?_⟩
    have hpos : 0 < size.toNat := Nat.pos_of_ne_zero fun h => hsize (BitVec.eq_of_toNat_eq h)
    rw [accessEnd_of_pos hpos]
    exact m.le_size_access _

/-- A check of a size known to be small does the same. -/
theorem checkMemorySmall_spec (gas : Int) (m : Memory) (offset : Word) (size : Nat) :
    m.Extends (checkMemorySmall gas m offset size).2.2 ∧
      ((checkMemorySmall gas m offset size).1 = true →
        offset.toNat + size ≤ (checkMemorySmall gas m offset size).2.2.size ∧
        gas - (checkMemorySmall gas m offset size).2.1
          = (checkMemorySmall gas m offset size).2.2.charged - m.charged) := by
  suffices hcovers : m.Extends (checkMemorySmall gas m offset size).2.2 ∧
      ((checkMemorySmall gas m offset size).1 = true →
        offset.toNat + size ≤ (checkMemorySmall gas m offset size).2.2.size) from
    ⟨hcovers.1, fun hok => ⟨hcovers.2 hok, checkMemorySmall_paid hok⟩⟩
  obtain ⟨gas', hfail, -⟩ | ⟨hexact, gas', hok, -⟩ :=
    checkMemorySmall_congr (m := m) rfl gas offset size
  · rw [hfail]
    exact ⟨.refl m, nofun⟩
  · rw [hok, hexact]
    exact ⟨m.extends_access _, fun _ => m.le_size_access _⟩

/-! ### Both interpreters -/

/-- Accesses that are below a size or of no size. -/
def AccessesBelow (size : Nat) (l : List (Word × Word)) : Prop :=
  ∀ a ∈ l, a.2 = 0 ∨ a.1.toNat + a.2.toNat ≤ size

/-- After the accesses they are all below the size. -/
theorem accessesBelow_accessAll (m : Memory) (l : List (Word × Word)) :
    AccessesBelow (m.accessAll l).size l := by
  intro a ha
  refine or_iff_not_imp_left.mpr fun hsize => ?_
  have hpos : 0 < a.2.toNat := Nat.pos_of_ne_zero fun h => hsize (BitVec.eq_of_toNat_eq h)
  have hend := m.le_size_accessAll ha
  rwa [accessEnd_of_pos hpos] at hend

/-- Memory is in bounds, zero-extended and paid for. A memory check extends the memory with zeros and
covers the access, and the gas falls by exactly what it charges, as does the gas of an instruction
that requires it. In both interpreters the memory consists of as many words as the largest access so
far needed, which are allocated and charged for. An instruction reads no memory beyond the size: it
does the same in every state that agrees up to there. It does not shrink the memory and writes nothing
beyond the size, and its accesses and the output are below it. If calls give back at most the gas of
their messages, every instruction takes what it charges for memory from the gas of the frame: the gas
left and all that was charged are together at most the gas of the message. -/
theorem memory_stays_in_bounds [Ethash] {σ : Type} (env : Env HostCall.Answer Fault σ) (msg : Message)
    (code : Bytes) (s : σ) :
    (∀ gas (m : Memory) offset size, m.Extends (checkMemory gas m offset size).2.2 ∧
      ((checkMemory gas m offset size).1 = true →
        (size = 0 ∨ offset.toNat + size.toNat ≤ (checkMemory gas m offset size).2.2.size) ∧
        gas - (checkMemory gas m offset size).2.1
          = (checkMemory gas m offset size).2.2.charged - m.charged)) ∧
    (∀ gas (m : Memory) offset size, m.Extends (checkMemorySmall gas m offset size).2.2 ∧
      ((checkMemorySmall gas m offset size).1 = true →
        offset.toNat + size ≤ (checkMemorySmall gas m offset size).2.2.size ∧
        gas - (checkMemorySmall gas m offset size).2.1
          = (checkMemorySmall gas m offset size).2.2.charged - m.charged)) ∧
    (∀ c c' offset size, InstrM.requireMemory offset size c = .ret (.ok (), c') →
      c.gasLeft - c'.gasLeft = c'.state.memory.charged - c.state.memory.charged) ∧
    (∀ c c' offset size, InstrM.requireMemorySmall offset size c = .ret (.ok (), c') →
      c.gasLeft - c'.gasLeft = c'.state.memory.charged - c.state.memory.charged) ∧
    (∀ n f s', Baseline.Passes env (Baseline.analyze code) (.start msg code) s n f s' →
      f.state.memory.Paid (Baseline.wordsNeeded env (Baseline.analyze code) (.start msg code) s n) ∧
      (BoundedEnv env → f.gas + f.state.memory.charged ≤ msg.gas) ∧
      (∀ f', f.Alike f' → Lockstep Baseline.Next.Alike (Baseline.step (Baseline.analyze code) f)
        (Baseline.step (Baseline.analyze code) f')) ∧
      ∀ next s'', run env (Baseline.step (Baseline.analyze code) f) s' = .ok (next, s'') →
        f.state.Grows next.state ∧ next.state.memory.WellFormed ∧ next.state.OutputInBounds ∧
        (BoundedEnv env → next.FundsLe (f.gas + f.state.memory.charged)) ∧
        ((∀ gas st, next = .done gas st → ¬ st.status.IsFailure) →
          AccessesBelow next.state.memory.size (f.accesses (Baseline.analyze code)) ∧
          next.state.memory.Paid
            (Baseline.wordsNeeded env (Baseline.analyze code) (.start msg code) s (n + 1)))) ∧
    ∀ n i st s' instr, Advanced.Passes env (Advanced.analyze code) 0 (.start msg code) s n i st s' →
      (Advanced.analyze code).instrs[i]? = some instr →
      st.base.memory.Paid (Advanced.wordsNeeded env code msg s n) ∧
      (BoundedEnv env → 0 ≤ msg.gas → st.gasLeft + st.base.memory.charged ≤ msg.gas) ∧
      (∀ st', st.Alike st' → Lockstep Advanced.OutcomeAlike (instr.exec (Advanced.analyze code) i st)
        (instr.exec (Advanced.analyze code) i st')) ∧
      ∀ x s'', run env (instr.exec (Advanced.analyze code) i st) s' = .ok (x, s'') →
        st.base.Grows x.2.base ∧ x.2.base.memory.WellFormed ∧ x.2.base.OutputInBounds ∧
        (x.1 ≠ none ∨ ¬ x.2.base.status.IsFailure →
          AccessesBelow x.2.base.memory.size (instr.fn.accesses st.stack) ∧
          x.2.base.memory.Paid (Advanced.wordsNeeded env code msg s (n + 1)) ∧
          (BoundedEnv env → 0 ≤ msg.gas →
            x.2.gasLeft + x.2.base.memory.charged ≤ st.gasLeft + st.base.memory.charged)) := by
  refine ⟨checkMemory_spec, checkMemorySmall_spec, fun _ _ _ _ => requireMemory_paid,
    fun _ _ _ _ => requireMemorySmall_paid, fun n f s' h => ?_, fun n i st s' instr h hinstr => ?_⟩
  -- The Baseline interpreter.
  · refine ⟨h.paid, fun henv => h.funds_le henv, fun f' halike => ?_, fun next s'' hrun => ?_⟩
    · exact (Baseline.step_alike halike h.height).mono fun _ _ => And.left
    · have hgrows := (Baseline.step_grows h.height).run hrun
      refine ⟨hgrows, hgrows.wellFormed h.paid.wellFormed, hgrows.output h.outputInBounds,
        fun henv => Baseline.step_funds henv hrun, fun hok => ?_⟩
      -- An instruction that does not fail has its whole range inside of the memory it leaves.
      rw [h.wordsNeeded_succ]
      refine ⟨?_, h.paid_step h.paid hrun hok⟩
      rw [Baseline.size_of_step hrun hok]
      exact accessesBelow_accessAll _ _
  -- The Advanced interpreter.
  · refine ⟨h.paid, fun henv hgas => h.funds_le henv hgas, fun st' halike => ?_, fun x s'' hrun => ?_⟩
    · exact (Advanced.exec_alike halike h.inBlock.2 h.inBlock.1 hinstr).mono fun _ _ => And.left
    · have hgrows := (h.exec_grows hinstr).run hrun
      refine ⟨hgrows, hgrows.wellFormed h.paid.wellFormed, hgrows.output h.outputInBounds, fun hok => ?_⟩
      rw [h.wordsNeeded_succ hinstr]
      refine ⟨?_, h.paid_exec hinstr h.paid hrun hok, fun henv hgas =>
        (h.exec_funds henv (h.gasLeft_nonneg henv hgas) hinstr hrun).funds_le hok⟩
      rw [Advanced.exec_memory.run hrun hok]
      exact accessesBelow_accessAll _ _

end Zvmone
