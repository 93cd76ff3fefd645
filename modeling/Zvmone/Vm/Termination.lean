import Zvmone.Vm.AdvancedGas
import Zvmone.Vm.ControlFlow

/-! # Execution terminates

The measure of the Baseline loop is the gas: every instruction that does not end the frame uses
some. The Advanced interpreter charges gas per block, so there the measure combines the gas with the
number of instructions that are left. -/

namespace Zvmone

open Interaction InstrM Instr Zvmone.Core

/-- The messages of a frame with the gas `gas` are sent with less gas, their results give back at
most the gas of the message, and there are no faults. -/
def spendingContract (gas : Int) : Contract HostCall.Answer Fault Unit where
  pre
    | _, .call m => 0 ≤ m.gas ∧ m.gas < gas
    | _, _ => True
  post _ q r _ := BoundedAnswer q r
  abort _ := False

/-- Spending relies on no answer to an ordinary query. -/
theorem spendingContract_neutral (gas : Int) :
    (spendingContract gas).Neutral () HostCall.IsOrdinaryOrLog :=
  ⟨fun q hq => by cases q <;> first | exact hq.elim | trivial, fun _ _ _ _ _ => rfl⟩

/-! ### The Baseline interpreter -/

namespace Baseline

variable [Ethash] {code : Bytes} {f : Frame} {gas : Int}

/-- An instruction of the code goes on with less gas, at another instruction of the code. -/
theorem wp_step_spending (hcode : InCode code f.codeIt) (hgas : f.gas ≤ gas) :
    wp (spendingContract gas) (step (analyze code) f) () fun next _ =>
      Next.Continues (fun f' => InCode code f'.codeIt ∧ 0 ≤ f'.gas ∧ f'.gas < f.gas) next := by
  obtain ⟨byte, hbyte⟩ : ∃ byte, (padCode code)[f.codeIt]? = some byte := by
    have hlt : f.codeIt < (padCode code).length := by
      rw [length_padCode]
      rcases hcode with ⟨-, hlt⟩ | ⟨-, hlt⟩ <;> omega
    exact ⟨_, List.getElem?_eq_getElem hlt⟩
  have hrule := gasInvokeRule (spendingContract_neutral gas) (fun _ _ _ => trivial) f.gas
    (fun m hnonneg hlt => ⟨hnonneg, by omega⟩) (fun _ _ _ hnonneg hr => hr hnonneg) f.state
  refine wp_mono (wp_returns (wp_step_of_byte hbyte hrule) (step_inCode hcode)) ?_
  rintro (f' | ⟨gas', st'⟩) _ ⟨hspent, hcode'⟩
  · exact ⟨hcode', hspent.1, hspent.2.1⟩
  · trivial

/-- With more instructions than gas the loop ends. -/
theorem wp_dispatch_spending (hcode : InCode code f.codeIt) (hgas : f.gas ≤ gas) {n : Nat}
    (hn : f.gas.toNat < n) :
    wp (spendingContract gas) (dispatch (analyze code) n f) () fun _ _ => True := by
  -- The gas decreases with the number of instructions that may still be executed.
  induction n generalizing f with
  | zero => omega
  | succ n ih =>
    refine (wp_bind _ _ _).2 (wp_mono (wp_step_spending hcode hgas) ?_)
    rintro (f' | ⟨gas', st'⟩) _ hnext
    · obtain ⟨hcode', hnonneg, hlt⟩ := hnext
      exact ih hcode' (by omega) (by omega)
    · trivial

/-- More instructions do not change an execution that has ended. -/
theorem extends_dispatch {σ : Type} {env : Env HostCall.Answer Fault σ} {analysis : CodeAnalysis}
    {n m : Nat} {s : σ} (hle : n ≤ m)
    (h : run env (dispatch analysis n f) s ≠ .error .outOfFuel) :
    run env (dispatch analysis m f) s = run env (dispatch analysis n f) s := by
  induction n generalizing f m s with
  | zero => exact absurd rfl h
  | succ n ih =>
    obtain ⟨m, rfl⟩ : ∃ k, m = k + 1 := ⟨m - 1, by omega⟩
    unfold dispatch at h ⊢
    rw [run_bind] at h ⊢
    rw [run_bind]
    rcases hstep : run env (step analysis f) s with e | ⟨f' | ⟨gas, st⟩, s'⟩
    · rfl
    · rw [hstep] at h
      exact ih (by omega) h
    · rfl

/-- The number of instructions is bounded by the gas they have used. -/
theorem Passes.spent {σ : Type} {env : Env HostCall.Answer Fault σ} {msg : Message} {n : Nat}
    {s s' : σ} (henv : ∀ q s r s', env q s = .ok (r, s') → BoundedAnswer q r)
    (h : Passes env (analyze code) (.start msg code) s n f s') :
    InCode code f.codeIt ∧ n + f.gas ≤ msg.gas ∧ (n = 0 ∨ 0 ≤ f.gas) := by
  induction h with
  | start => exact ⟨inCode_zero code, (Int.zero_add _).le, .inl rfl⟩
  | @next n f₁ f₂ s₁ s₂ _ hstep ih =>
    obtain ⟨hcode, hle, -⟩ := ih
    have hrun := run_of_wp (fun q s r s' _ hr => henv q s r s' hr)
      (wp_step_spending hcode le_rfl) s₁
    rw [hstep] at hrun
    rcases hrun with ⟨next, s', hok, hnext⟩ | ⟨e, herror, -⟩
    · cases hok
      obtain ⟨hcode', hnonneg, hlt⟩ := hnext
      refine ⟨hcode', ?_, .inr hnonneg⟩
      push_cast
      omega
    · cases herror

/-- At most as many instructions go on as there is gas. -/
theorem Passes.le_gas {σ : Type} {env : Env HostCall.Answer Fault σ} {msg : Message} {n : Nat}
    {s s' : σ} (henv : ∀ q s r s', env q s = .ok (r, s') → BoundedAnswer q r)
    (h : Passes env (analyze code) (.start msg code) s n f s') : n ≤ msg.gas.toNat := by
  obtain ⟨-, hle, hn⟩ := h.spent henv
  omega

end Baseline

/-! ### The Advanced interpreter -/

namespace Advanced

/-- The instruction of the index begins the block of a `JUMPDEST`. -/
def BeginsBlock (code : Bytes) (i : Nat) : Prop :=
  i ≠ 0 ∧ (analyze code).instrs[i]?.map Instruction.fn = some .opxBeginblock

instance (code : Bytes) (i : Nat) : Decidable (BeginsBlock code i) :=
  inferInstanceAs (Decidable (_ ∧ _))

/-- The number of instructions that can still be executed: every pass through the instructions, from
one jump to the next, begins a block and pays for it. -/
def rank (code : Bytes) (i : Nat) (gas : Int) : Nat :=
  (gas.toNat + if BeginsBlock code i then 0 else 1) * ((analyze code).instrs.length + 1) +
    ((analyze code).instrs.length - i)

variable {code : Bytes} {i i' : Nat} {gas gas' : Int}

/-- An instruction that goes on lowers the rank: within a block by its index, into a block by the
gas. -/
theorem rank_lt (hi : i < (analyze code).instrs.length) (hgas : 0 ≤ gas') (hle : gas' ≤ gas)
    (hnext : i' = i + 1 ∨ BeginsBlock code i')
    (hbegin : BeginsBlock code i → gas' < gas ∧ i' = i + 1) : rank code i' gas' < rank code i gas := by
  have hsame : ∀ {n n' : Nat}, n' ≤ n → i' = i + 1 →
      n' * ((analyze code).instrs.length + 1) + ((analyze code).instrs.length - i') <
        n * ((analyze code).instrs.length + 1) + ((analyze code).instrs.length - i) := by
    intro n n' hn hi'
    have := Nat.mul_le_mul_right ((analyze code).instrs.length + 1) hn
    omega
  unfold rank
  by_cases hb : BeginsBlock code i
  · obtain ⟨hlt, hi'⟩ := hbegin hb
    refine hsame ?_ hi'
    rw [if_pos hb]
    split <;> omega
  · rw [if_neg hb]
    by_cases hb' : BeginsBlock code i'
    · rw [if_pos hb', Nat.add_zero]
      -- A jump: one turn less, however many instructions there are from the target on.
      have hturn : gas'.toNat + 1 ≤ gas.toNat + 1 := by omega
      have := Nat.mul_le_mul_right ((analyze code).instrs.length + 1) hturn
      rw [Nat.add_mul gas'.toNat 1, Nat.one_mul] at this
      omega
    · rw [if_neg hb']
      rcases hnext with hi' | hi'
      · exact hsame (by omega) hi'
      · exact absurd hi' hb'

/-- A jump goes to the beginning of a block. -/
theorem beginsBlock_of_opJump {st st' : AdvancedExecutionState}
    (h : opJump (analyze code) st = (some i', st')) : BeginsBlock code i' := by
  obtain ⟨offset, hfind⟩ := opJump_next h
  obtain ⟨hpos, k, block, items, hpoint⟩ := pointsTo_of_findJumpdest hfind
  exact ⟨hpos.ne', congrArg (Option.map Instruction.fn) hpoint.fetch⟩

variable [Ethash] {st : AdvancedExecutionState} {instr : Instruction}

/-- The next instruction is executed, or the block of a `JUMPDEST` begins. -/
theorem exec_advances : (instr.exec (analyze code) i st).Returns
    (Continues fun i' _ => i' = i + 1 ∨ BeginsBlock code i') := by
  -- Only jumps do not go on with the next instruction.
  by_cases hjump : instr.fn = .opJump
  · unfold Instruction.exec
    rw [hjump]
    show Continues _ (opJump (analyze code) st)
    rcases hresult : opJump (analyze code) st with ⟨_ | i', st'⟩
    · trivial
    · exact .inr (beginsBlock_of_opJump hresult)
  · by_cases hjumpi : instr.fn = .opJumpi
    · unfold Instruction.exec
      rw [hjumpi]
      show Continues _ (opJumpi (analyze code) instr.arg i st)
      unfold opJumpi
      split
      · rcases hresult : opJump (analyze code) st with ⟨_ | i', st'⟩
        · trivial
        · exact .inr (beginsBlock_of_opJump hresult)
      · rcases opxBeginblock_cases instr.arg i { st with stack := st.stack.pop.2.pop.2 } with
          hnone | ⟨-, -, -, hsome⟩
        · rcases hresult : opxBeginblock instr.arg i { st with stack := st.stack.pop.2.pop.2 } with
            ⟨_ | i', st'⟩
          · trivial
          · rw [hresult] at hnone
            cases hnone
        · rw [hsome]
          exact .inl rfl
    · refine (exec_next hjump hjumpi).imp ?_
      rintro ⟨_ | i', st'⟩ (h | h)
      · trivial
      · cases h
      · cases h
      · exact .inl (Option.some.inj h)

omit [Ethash] in
/-- Only `JUMPDEST` has the function that enters a block. -/
theorem eq_jumpdest_of_instructionImplementations {op : Opcode}
    (h : instructionImplementations op = .opxBeginblock) : op = .jumpdest := by
  cases op with
  | push k =>
    by_cases hsize : k.val + 1 ≤ 8
    · simp only [instructionImplementations, if_pos hsize] at h
      cases h
    · simp only [instructionImplementations, if_neg hsize] at h
      cases h
  | jumpdest => rfl
  | _ => cases h

/-- The block of a `JUMPDEST` is paid for. -/
theorem exec_beginsBlock (hbegin : BeginsBlock code i) (h : InBlock code st i)
    (hinstr : (analyze code).instrs[i]? = some instr) :
    (instr.exec (analyze code) i st).Returns
      (Continues fun i' st' => st'.gasLeft < st.gasLeft ∧ i' = i + 1) := by
  have hfn : instr.fn = .opxBeginblock := by
    have hmap := hbegin.2
    rw [hinstr] at hmap
    exact Option.some.inj hmap
  -- The instruction was made for a `JUMPDEST`, whose block costs at least its own gas.
  have hcost : 1 ≤ instr.arg.asBlock.gasCost := by
    cases h with
    | entry => exact absurd rfl hbegin.1
    | jumpdest hpoint => exact (jumpdest_gasCost hpoint hinstr).2
    | @inside _ k block items hpoint =>
      cases items with
      | nil =>
        rw [hpoint.fetch_nil] at hinstr
        cases hinstr
        cases hfn
      | cons item items =>
        by_cases hjumpdest : item.2 = 0x5b
        · obtain ⟨pos, opcode⟩ := item
          obtain rfl : opcode = 0x5b := hjumpdest
          exact (jumpdest_gasCost hpoint hinstr).2
        · rw [hpoint.fetch] at hinstr
          cases hinstr
          rcases hop : Opcode.ofByte item.2 with _ | op
          · simp only [opTable, hop] at hfn
            cases hfn
          · rw [opTable_of hop] at hfn
            obtain rfl : op = .jumpdest := eq_jumpdest_of_instructionImplementations hfn
            exact absurd (ofByte_eq_jumpdest hop) hjumpdest
  unfold Instruction.exec
  rw [hfn]
  show Continues _ (opxBeginblock instr.arg i st)
  rcases opxBeginblock_cases instr.arg i st with hnone | ⟨-, -, -, hsome⟩
  · rcases hresult : opxBeginblock instr.arg i st with ⟨_ | i', st'⟩
    · trivial
    · rw [hresult] at hnone
      cases hnone
  · rw [hsome]
    refine ⟨?_, rfl⟩
    show st.gasLeft - instr.arg.asBlock.gasCost < st.gasLeft
    omega

/-- One instruction goes on in a block, with a lower rank, or ends the execution. -/
theorem wp_exec_rank (h : InBlock code st i) (hlimit : st.stack.top ≤ stackLimit)
    (hgas : 0 ≤ st.gasLeft) (hinstr : (analyze code).instrs[i]? = some instr) :
    wp (.answers Fault BoundedAnswer) (instr.exec (analyze code) i st) () fun x _ =>
      GoesOnWithin st.gasLeft st x ∧
        Continues (fun i' st' => InBlock code st' i' ∧ st'.stack.top ≤ stackLimit ∧
          rank code i' st'.gasLeft < rank code i st.gasLeft) x := by
  have hlt : i < (analyze code).instrs.length := (List.getElem?_eq_some_iff.mp hinstr).1
  have hexec := wp_exec (i := i) (h.implementation hinstr) (h.gasCost_nonneg hinstr)
    (h.pushValue hinstr) hgas
  -- A block start pays; any other instruction goes on by one or to a block start.
  have hadvances : (instr.exec (analyze code) i st).Returns (Continues fun i' st' =>
      (i' = i + 1 ∨ BeginsBlock code i') ∧
        (BeginsBlock code i → st'.gasLeft < st.gasLeft ∧ i' = i + 1)) := by
    by_cases hbegin : BeginsBlock code i
    · refine (exec_advances.and (exec_beginsBlock hbegin h hinstr)).imp ?_
      rintro ⟨_ | i', st'⟩ ⟨hadvance, hpaid⟩
      · trivial
      · exact ⟨hadvance, fun _ => hpaid⟩
    · refine exec_advances.imp ?_
      rintro ⟨_ | i', st'⟩ hadvance
      · trivial
      · exact ⟨hadvance, fun h => absurd h hbegin⟩
  refine wp_mono (wp_returns hexec ((h.step hlimit hinstr).and hadvances)) ?_
  rintro ⟨_ | i', st'⟩ _ ⟨hgoesOn, hstep, hadvance⟩
  · exact ⟨hgoesOn, trivial⟩
  · obtain ⟨hgas', hle⟩ := hgoesOn.gas (.inl (Option.some_ne_none i'))
    exact ⟨hgoesOn, hstep.2, hstep.1, rank_lt hlt hgas' hle hadvance.1 hadvance.2⟩

omit [Ethash] in
/-- The loop stays within the instructions. -/
theorem InBlock.fetch (h : InBlock code st i) :
    ∃ instr, (analyze code).instrs[i]? = some instr := by
  cases h with
  | entry => exact ⟨_, instrs_zero code⟩
  | jumpdest hpoint => exact ⟨_, hpoint.fetch⟩
  | @inside _ k block items hpoint =>
    cases items with
    | nil => exact ⟨_, hpoint.fetch_nil⟩
    | cons item items => exact ⟨_, hpoint.fetch⟩

/-- With more instructions than the rank the loop ends. Unless it fails, it leaves gas that is not
negative and at most what there was. -/
theorem wp_loop_spending (h : InBlock code st i) (hlimit : st.stack.top ≤ stackLimit)
    (hgas : 0 ≤ st.gasLeft) {n : Nat} (hn : rank code i st.gasLeft < n) :
    wp (.answers Fault BoundedAnswer) (loop (analyze code) n i st) () fun st' _ =>
      ¬ st'.base.status.IsFailure → 0 ≤ st'.gasLeft ∧ st'.gasLeft ≤ st.gasLeft := by
  induction n generalizing i st with
  | zero => omega
  | succ n ih =>
    obtain ⟨instr, hinstr⟩ := h.fetch
    unfold loop
    rw [hinstr]
    refine (wp_bind _ _ _).2 (wp_mono (wp_exec_rank h hlimit hgas hinstr) ?_)
    rintro ⟨_ | i', st'⟩ _ ⟨hgoesOn, hnext⟩
    · exact fun hstatus => hgoesOn.gas (.inr hstatus)
    · obtain ⟨hblock, hlimit', hlt⟩ := hnext
      obtain ⟨hgas', hle⟩ := hgoesOn.gas (.inl (Option.some_ne_none i'))
      refine wp_mono (ih hblock hlimit' hgas' (by omega)) fun st'' _ hend hstatus => ?_
      exact ⟨(hend hstatus).1, (hend hstatus).2.trans hle⟩

/-- More instructions do not change an execution that has ended. -/
theorem extends_loop {σ : Type} {env : Env HostCall.Answer Fault σ} {analysis : AdvancedCodeAnalysis}
    {n m : Nat} {s : σ} (hle : n ≤ m) (h : run env (loop analysis n i st) s ≠ .error .outOfFuel) :
    run env (loop analysis m i st) s = run env (loop analysis n i st) s := by
  induction n generalizing i st m s with
  | zero => exact absurd rfl h
  | succ n ih =>
    obtain ⟨m, rfl⟩ : ∃ k, m = k + 1 := ⟨m - 1, by omega⟩
    unfold loop at h ⊢
    cases hinstr : analysis.instrs[i]? with
    | none => rfl
    | some instr =>
      simp only [hinstr, run_bind] at h ⊢
      -- The first instruction is the same; if it goes on, the fuel is less.
      rcases hexec : run env (instr.exec analysis i st) s with e | ⟨⟨_ | i', st'⟩, s'⟩
      · rfl
      · rfl
      · rw [hexec] at h
        exact ih (by omega) h

/-- Without gas the first block is refused. -/
theorem exec_zero_of_neg {msg : Message} (hgas : msg.gas < 0)
    (hinstr : (analyze code).instrs[0]? = some instr) :
    ∃ st', instr.exec (analyze code) 0 (.start msg code) = .ret (none, st') := by
  have hcost : 0 ≤ instr.arg.asBlock.gasCost :=
    InBlock.gasCost_nonneg (.entry : InBlock code (.start msg code) 0) hinstr
  rw [instrs_zero] at hinstr
  cases hinstr
  refine ⟨_, congrArg Interaction.ret (Prod.ext ?_ rfl)⟩
  rcases opxBeginblock_cases (.block (summary (newBlock 0) (allItems code)).close) 0
    (.start msg code) with hnone | ⟨hpaid, -⟩
  · exact hnone
  · have hpaid : 0 ≤ msg.gas - (summary (newBlock 0) (allItems code)).close.gasCost := hpaid
    have hcost : 0 ≤ (summary (newBlock 0) (allItems code)).close.gasCost := hcost
    omega

/-- Whatever the gas of the message, the loop ends. -/
theorem wp_loop_ends (msg : Message) (code : Bytes) :
    ∃ n, wp (.answers Fault BoundedAnswer) (loop (analyze code) n 0 (.start msg code)) () fun _ _ =>
      True := by
  rcases lt_or_ge msg.gas 0 with hneg | hgas
  · obtain ⟨st', hexec⟩ := exec_zero_of_neg hneg (instrs_zero code)
    refine ⟨1, ?_⟩
    unfold loop
    rw [instrs_zero]
    dsimp only
    rw [hexec]
    trivial
  · exact ⟨_, wp_mono (wp_loop_spending .entry (Nat.zero_le _) hgas (Nat.lt_succ_self _))
      fun _ _ _ => trivial⟩

/-- In a run that starts with gas the rank falls with every instruction. -/
theorem Passes.ranked {σ : Type} {env : Env HostCall.Answer Fault σ} {msg : Message} {n : Nat}
    {s s' : σ} (henv : ∀ q s r s', env q s = .ok (r, s') → BoundedAnswer q r) (hgas : 0 ≤ msg.gas)
    (h : Passes env (analyze code) 0 (.start msg code) s n i st s') :
    0 ≤ st.gasLeft ∧ n + rank code i st.gasLeft ≤ rank code 0 msg.gas := by
  induction h with
  | start => exact ⟨hgas, (Nat.zero_add _).le⟩
  | @next n i₁ i₂ st₁ st₂ s₁ s₂ instr hpasses hinstr hexec ih =>
    obtain ⟨hnonneg, hle⟩ := ih
    have hrun := run_of_wp (fun q s r s' _ hr => henv q s r s' hr)
      (wp_exec_rank hpasses.inBlock.2 hpasses.inBlock.1 hnonneg hinstr) s₁
    rw [hexec] at hrun
    rcases hrun with ⟨x, s₃, hok, hgoesOn, hnext⟩ | ⟨e, herror, -⟩
    · cases hok
      obtain ⟨-, -, hlt⟩ := hnext
      refine ⟨(hgoesOn.gas (.inl (Option.some_ne_none _))).1, ?_⟩
      omega
    · cases herror

/-- The number of instructions in a run is bounded. -/
theorem exists_passes_le (msg : Message) (code : Bytes) : ∃ bound, ∀ {σ : Type}
    {env : Env HostCall.Answer Fault σ} {n i : Nat} {st : AdvancedExecutionState} {s s' : σ},
      (∀ q s r s', env q s = .ok (r, s') → BoundedAnswer q r) →
      Passes env (analyze code) 0 (.start msg code) s n i st s' → n ≤ bound := by
  refine ⟨rank code 0 msg.gas, fun {σ env n i st s s'} henv h => ?_⟩
  rcases lt_or_ge msg.gas 0 with hneg | hgas
  -- Without gas the first instruction is the last one.
  · have hstart : ∀ {n i : Nat} {st : AdvancedExecutionState} {s' : σ},
        Passes env (analyze code) 0 (.start msg code) s n i st s' →
          n = 0 ∧ i = 0 ∧ st = .start msg code := by
      intro n i st s' h
      induction h with
      | start => exact ⟨rfl, rfl, rfl⟩
      | next _ hinstr hexec ih =>
        obtain ⟨-, rfl, rfl⟩ := ih
        obtain ⟨st', hret⟩ := exec_zero_of_neg hneg hinstr
        rw [hret] at hexec
        cases hexec
    exact (hstart h).1.le.trans (Nat.zero_le _)
  · have hle := (h.ranked henv hgas).2
    omega

end Advanced

end Zvmone
