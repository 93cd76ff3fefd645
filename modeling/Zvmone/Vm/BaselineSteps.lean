import Zvmone.Vm.Baseline
import Zvmone.Vm.MeteredCalls

/-! # One step of the Baseline interpreter under a contract

The rule by which properties of frames are proved: `InvokeRule` lists what each kind of instruction
can do, in terms of the gas, the execution state and the ghost state of the contract only, and
`wp_step` concludes that a step satisfies its postcondition. `wp_dispatch` carries an invariant
through the loop. -/

namespace Zvmone

namespace Baseline

open Interaction InstrM Instr Zvmone.Core

variable {γ : Type} {C : Contract HostCall.Answer Fault γ} {I E : Int → ExecutionState → γ → Prop}
  {gas : Int} {st : ExecutionState} {g : γ}

/-- The predicate `I` of the frame if it goes on, `E` of the gas and the state if it ends. -/
def Next.Satisfies (I E : Int → ExecutionState → γ → Prop) : Next → γ → Prop
  | .cont f, g => I f.gas f.state g
  | .done gas st, g => E gas st g

/-- What an instruction of a frame with the gas `gas` and the state `st` must satisfy, by its kind. -/
structure InvokeRule (C : Contract HostCall.Answer Fault γ) (I E : Int → ExecutionState → γ → Prop)
    (gas : Int) (st : ExecutionState) (g : γ) : Prop where
  neutral : C.Neutral g HostCall.IsOrdinary
  log : ¬ st.InStaticMode → C.Neutral g HostCall.IsOrdinaryOrLog
  /-- The frame goes on with less gas, from which the growth of the memory is paid. -/
  cont : ∀ {gas' st'}, ExecutionState.SameFrame False st st' → 0 ≤ gas' → gas' < gas →
    funds gas' st' ≤ funds gas st → I gas' st' g
  /-- The frame ends with a failure. -/
  fail : ∀ {gas' st' status}, ExecutionState.SameFrame False st st' → gas' ≤ gas →
    status.IsFailure → E gas' { st' with status } g
  /-- The frame ends with success or is reverted. -/
  halt : ∀ {gas' st' status}, ExecutionState.SameFrame False st st' → 0 ≤ gas' → gas' ≤ gas →
    funds gas' st' ≤ funds gas st → ¬ status.IsFailure → E gas' { st' with status } g
  sstore : ¬ st.InStaticMode → ∀ access key value,
    C.pre g (.setStorage st.msg.recipient key value) ∧
    ∀ status g', C.post g (.setStorage st.msg.recipient key value) status g' →
      if gas - sstorePrice access status < 0 then
        E (gas - sstorePrice access status) { st with status := .outOfGas } g'
      else I (gas - sstorePrice access status)
        { st with gasRefund := st.gasRefund + (sstoreCosts status).gasRefund } g'
  call : ∀ {op l c}, l.Sound op st.msg → ExecutionState.SameFrame False st c.state →
    0 ≤ c.gasLeft → c.gasLeft < gas - l.valueCost → c.funds ≤ funds gas st - l.valueCost →
    st.msg.depth < 1024 →
    C.pre g (.call (callMessage l c.gasLeft)) ∧
    ∀ r g', C.post g (.call (callMessage l c.gasLeft)) r g' →
      I (afterCall l c r).gasLeft (afterCall l c r).state g'
  create : ∀ {op l c}, l.Sound st.msg → ExecutionState.SameFrame False st c.state →
    0 ≤ c.gasLeft → c.gasLeft < gas → c.funds ≤ funds gas st → st.msg.depth < 1024 →
    C.pre g (.call (createMessage op l c)) ∧
    ∀ r g', C.post g (.call (createMessage op l c)) r g' →
      I (afterCreate op l c r).gasLeft (afterCreate op l c r).state g'

/-- The predicates of a rule can be weakened. -/
theorem InvokeRule.mono {I' E' : Int → ExecutionState → γ → Prop} (h : InvokeRule C I E gas st g)
    (hI : ∀ gas st g, I gas st g → I' gas st g) (hE : ∀ gas st g, E gas st g → E' gas st g) :
    InvokeRule C I' E' gas st g where
  neutral := h.neutral
  log := h.log
  cont hsame hnonneg hlt hfunds := hI _ _ _ (h.cont hsame hnonneg hlt hfunds)
  fail hsame hle hstatus := hE _ _ _ (h.fail hsame hle hstatus)
  halt hsame hnonneg hle hfunds hstatus := hE _ _ _ (h.halt hsame hnonneg hle hfunds hstatus)
  sstore hstatic access key value := by
    obtain ⟨hpre, hpost⟩ := h.sstore hstatic access key value
    refine ⟨hpre, fun status g' hg' => ?_⟩
    have hpost := hpost status g' hg'
    split at hpost
    next hshort => rw [if_pos hshort]; exact hE _ _ _ hpost
    next hpaid => rw [if_neg hpaid]; exact hI _ _ _ hpost
  call hl hsame hnonneg hlt hfunds hdepth :=
    have hcall := h.call hl hsame hnonneg hlt hfunds hdepth
    ⟨hcall.1, fun r g' hg' => hI _ _ _ (hcall.2 r g' hg')⟩
  create hl hsame hnonneg hlt hfunds hdepth :=
    have hcreate := h.create hl hsame hnonneg hlt hfunds hdepth
    ⟨hcreate.1, fun r g' hg' => hI _ _ _ (hcreate.2 r g' hg')⟩

/-- What a step of the frame must satisfy: it may also stop with a fault. -/
structure StepRule (C : Contract HostCall.Answer Fault γ) (I E : Int → ExecutionState → γ → Prop)
    (gas : Int) (st : ExecutionState) (g : γ) : Prop extends InvokeRule C I E gas st g where
  abort : ∀ e, C.abort e

section

variable [Ethash] {analysis : CodeAnalysis} {op : Opcode} {f : Frame}

omit [Ethash] in
/-- The end of a frame with the given status. -/
theorem InvokeRule.done (h : InvokeRule C I E gas st g) {gas' : Int} {st' : ExecutionState}
    {status : StatusCode} (hsame : ExecutionState.SameFrame False st st') (hle : gas' ≤ gas)
    (hnonneg : ¬ status.IsFailure → 0 ≤ gas') (hfunds : funds gas' st' ≤ funds gas st) :
    E gas' { st' with status } g := by
  by_cases hstatus : status.IsFailure
  · exact h.fail hsame hle hstatus
  · exact h.halt hsame (hnonneg hstatus) hle hfunds hstatus

/-- The frame after an instruction that left the context `c`. -/
def Frame.next (f : Frame) (op : Opcode) (c : Ctx) : Frame :=
  ⟨f.codeIt + 1, f.stackTop.after c.stack (traits op).stackHeightChange, c.gasLeft, c.state⟩

omit [Ethash] in
/-- The frame goes on with the gas of the context. -/
@[simp] theorem Frame.next_gas (f : Frame) (op : Opcode) (c : Ctx) :
    (f.next op c).gas = c.gasLeft := rfl

omit [Ethash] in
/-- The frame goes on with the state of the context. -/
@[simp] theorem Frame.next_state (f : Frame) (op : Opcode) (c : Ctx) :
    (f.next op c).state = c.state := rfl

/-- What `invokeCore` makes of an implementation with gas and status. -/
def finish (f : Frame) (op : Opcode) : Except StatusCode Unit × Ctx → Next
  | (.ok (), c) => .cont (f.next op c)
  | (.error status, c) => .done c.gasLeft { c.state with status }

/-- An implementation with gas and status goes on or ends the frame. -/
theorem invokeCore_result {m : InstrM Unit} (hop : coreImpl op = .result m) :
    invokeCore analysis op f = m ⟨f.stackTop, f.gas, f.state⟩ >>= fun x =>
      .ret (finish f op x) := by
  unfold invokeCore
  rw [hop]
  refine congrArg (m _ >>= ·) (funext fun x => ?_)
  obtain ⟨_ | _, c⟩ := x <;> rfl

/-- What `invokeCore` makes of a terminating implementation. -/
def terminate : Except StatusCode StatusCode × Ctx → Next
  | (.ok status, c) => .done c.gasLeft { c.state with status }
  | (.error status, c) => .done c.gasLeft { c.state with status }

/-- A terminating implementation ends the frame. -/
theorem invokeCore_term {m : InstrM StatusCode} (hop : coreImpl op = .term m) :
    invokeCore analysis op f = m ⟨f.stackTop, f.gas, f.state⟩ >>= fun x => .ret (terminate x) := by
  unfold invokeCore
  rw [hop]
  refine congrArg (m _ >>= ·) (funext fun x => ?_)
  obtain ⟨_ | _, c⟩ := x <;> rfl

omit [Ethash] in
/-- What an implementation takes from the funds that are left after the base cost. -/
theorem funds_le_of_outcome {α : Type} {a : α} {c : Ctx} (hle : f.gas ≤ gas)
    (h : Outcome False ⟨f.stackTop, f.gas, f.state⟩ ((.ok a, c) : Except StatusCode α × Ctx)) :
    funds c.gasLeft c.state ≤ funds gas f.state := by
  have hfunds : c.gasLeft + c.state.memory.charged ≤ f.gas + f.state.memory.charged :=
    h.funds_le a rfl
  unfold funds
  omega

/-- A metered implementation satisfies the rule. -/
theorem wp_invokeCore_metered {A : HostCall → Prop} (h : InvokeRule C I E gas f.state g)
    (hA : C.Neutral g A) (hgas : 0 ≤ f.gas) (hcost : f.gas = gas - gasCosts op)
    (hsstore : op ≠ .sstore) (hm : MeteredFn False A (coreImpl op)) :
    wp C (invokeCore analysis op f) g (Next.Satisfies I E) := by
  have hnonneg := gasCosts_nonneg op
  cases hop : coreImpl op with
  | stack fn =>
    have hpos : 0 < gasCosts op := by simpa [hop, hsstore] using gasCosts_pos op
    unfold invokeCore
    rw [hop]
    -- The base cost alone lowers the gas.
    exact h.cont (.refl _) hgas (by dsimp only; omega) (by unfold funds; dsimp only; omega)
  | state fn =>
    have hpos : 0 < gasCosts op := by simpa [hop, hsstore] using gasCosts_pos op
    rw [hop] at hm
    unfold invokeCore
    rw [hop]
    -- The same, after questions to the host.
    refine (wp_bind _ _ _).2 (wp_mono (wp_of_asking hA (hm f.stackTop f.state)) ?_)
    rintro ⟨stack, state⟩ _ ⟨rfl, hsame, hmemory⟩
    have hmemory : state.memory = f.state.memory := hmemory
    exact h.cont hsame hgas (by dsimp only; omega) (by unfold funds; dsimp only; rw [hmemory]; omega)
  | result m =>
    have hpos : 0 < gasCosts op := by simpa [hop, hsstore] using gasCosts_pos op
    rw [hop] at hm
    rw [invokeCore_result hop]
    refine (wp_bind _ _ _).2 (wp_mono (wp_of_asking hA (hm.outcome _)) ?_)
    rintro ⟨e | u, c⟩ _ ⟨rfl, houtcome⟩
    · have hle : c.gasLeft ≤ f.gas := houtcome.gas_le hgas
      exact h.fail houtcome.same (by omega) (houtcome.failure e rfl)
    -- What the implementation charges comes on top of the base cost.
    · have hle : c.gasLeft ≤ f.gas := houtcome.gas_le hgas
      exact h.cont houtcome.same (houtcome.gas_nonneg hgas u rfl) (by rw [Frame.next_gas]; omega)
        (funds_le_of_outcome (by omega) houtcome)
  | term m =>
    rw [hop] at hm
    rw [invokeCore_term hop]
    refine (wp_bind _ _ _).2 (wp_mono (wp_of_asking hA (hm.outcome _)) ?_)
    rintro ⟨e | status, c⟩ _ ⟨rfl, houtcome⟩
    · have hle : c.gasLeft ≤ f.gas := houtcome.gas_le hgas
      exact h.fail houtcome.same (by omega) (houtcome.failure e rfl)
    · have hle : c.gasLeft ≤ f.gas := houtcome.gas_le hgas
      exact h.done houtcome.same (by omega) (fun _ => houtcome.gas_nonneg hgas status rfl)
        (funds_le_of_outcome (by omega) houtcome)
  | pos => rw [hop] at hm; exact hm.elim

/-- `SSTORE` satisfies the rule. -/
theorem wp_invokeCore_sstore (h : InvokeRule C I E f.gas f.state g) :
    wp C (invokeCore analysis .sstore f) g (Next.Satisfies I E) := by
  rw [invokeCore_result (m := Core.sstore) rfl]
  refine (wp_bind _ _ _).2 (wp_sstore h.neutral ?_ ?_)
  · exact fun e he => h.fail (.refl _) le_rfl he
  · intro access hstatic _
    obtain ⟨hpre, hpost⟩ := h.sstore hstatic access (f.stackTop.get 0) (f.stackTop.pop.2.get 0)
    refine ⟨hpre, fun status g' hg' => ?_⟩
    have hg' := hpost status g' hg'
    split
    next hshort => exact (if_pos hshort).mp hg'
    next hpaid => exact (if_neg hpaid).mp hg'

/-- Call instructions satisfy the rule. -/
theorem wp_invokeCore_call {cop : CallOp} (h : InvokeRule C I E gas f.state g)
    (hgas : 0 ≤ f.gas) (hlt : f.gas < gas) (hop : coreImpl op = .result (callImpl cop)) :
    wp C (invokeCore analysis op f) g (Next.Satisfies I E) := by
  rw [invokeCore_result hop]
  refine (wp_bind _ _ _).2 (wp_callImpl h.neutral ?_ ?_ ?_)
  -- A charge failed: the frame ends with a failure.
  · intro e c houtcome
    have hle : c.gasLeft ≤ f.gas := houtcome.gas_le hgas
    exact h.fail houtcome.same (by omega) (houtcome.failure e rfl)
  -- Paid, and no message sent: the stipend is less than what the value cost.
  · intro l c hl
    have hle : c.gasLeft ≤ f.gas - l.valueCost := hl.paid hgas
    have hfunds : c.funds ≤ f.gas + f.state.memory.charged - l.valueCost := hl.funds_le
    have hnonneg : 0 ≤ c.gasLeft := hl.outcome.gas_nonneg hgas l rfl
    have hstipend : 0 ≤ stipend l ∧ stipend l ≤ l.valueCost := by
      unfold stipend CallLocals.valueCost
      split <;> decide
    exact h.cont hl.outcome.same (by simp only [Frame.next_gas, beforeCall]; omega)
      (by simp only [Frame.next_gas, beforeCall]; omega)
      (by simp only [Frame.next_gas, Frame.next_state, beforeCall, funds, Ctx.funds] at hfunds ⊢; omega)
  -- Paid, and the message goes out.
  · intro l c hl hdepth
    have hle : c.gasLeft ≤ f.gas - l.valueCost := hl.paid hgas
    have hfunds : c.funds ≤ f.gas + f.state.memory.charged - l.valueCost := hl.funds_le
    have hmsg : c.state.msg = f.state.msg := hl.outcome.same.msg
    exact h.call hl.sound hl.outcome.same (hl.outcome.gas_nonneg hgas l rfl) (by omega)
      (by unfold funds; omega) (hmsg ▸ hdepth)

/-- Create instructions satisfy the rule. -/
theorem wp_invokeCore_create {cop : CreateOp} (h : InvokeRule C I E gas f.state g)
    (hgas : 0 ≤ f.gas) (hlt : f.gas < gas) (hop : coreImpl op = .result (createImpl cop)) :
    wp C (invokeCore analysis op f) g (Next.Satisfies I E) := by
  rw [invokeCore_result hop]
  refine (wp_bind _ _ _).2 (wp_createImpl h.neutral ?_ ?_ ?_)
  · intro e c houtcome
    have hle : c.gasLeft ≤ f.gas := houtcome.gas_le hgas
    exact h.fail houtcome.same (by omega) (houtcome.failure e rfl)
  · intro l c houtcome _
    have hle : c.gasLeft ≤ f.gas := houtcome.gas_le hgas
    exact h.cont houtcome.same (houtcome.gas_nonneg hgas l rfl) (lt_of_le_of_lt hle hlt)
      (funds_le_of_outcome hlt.le houtcome)
  · intro l c houtcome hl hdepth
    have hle : c.gasLeft ≤ f.gas := houtcome.gas_le hgas
    have hmsg : c.state.msg = f.state.msg := houtcome.same.msg
    exact h.create hl houtcome.same (houtcome.gas_nonneg hgas l rfl) (by omega)
      (funds_le_of_outcome hlt.le houtcome) (hmsg ▸ hdepth)

/-- What `invokeCore` makes of a position-dependent implementation. -/
def move (f : Frame) (change : Int) : Option Nat × StackTop × ExecutionState → Next
  | (some codeIt, stack, state) => .cont ⟨codeIt, f.stackTop.after stack change, f.gas, state⟩
  | (none, _, state) => .done f.gas state

/-- An instruction with the position moves the frame. -/
theorem invokeCore_pos (hop : coreImpl op = .pos) :
    invokeCore analysis op f = .ret (move f (traits op).stackHeightChange
      (positionImpl analysis op f.stackTop f.state f.codeIt)) := by
  unfold invokeCore
  rw [hop]
  rcases positionImpl analysis op f.stackTop f.state f.codeIt with ⟨_ | next, stack, state⟩ <;> rfl

omit [Ethash] in
/-- A jump keeps the state, unless its destination is bad. -/
theorem jumpImpl_cases (analysis : CodeAnalysis) (state : ExecutionState) (dst : Word) :
    jumpImpl analysis state dst = (some dst.toNat, state) ∨
      jumpImpl analysis state dst = (none, { state with status := .badJumpDestination }) := by
  unfold jumpImpl
  split
  · exact .inr rfl
  · exact .inl rfl

/-- A position-dependent implementation keeps the state, unless it is a bad jump. -/
theorem positionImpl_cases (analysis : CodeAnalysis) (hop : coreImpl op = .pos)
    (stack : StackTop) (state : ExecutionState) (pos : Nat) : ∃ next stack',
      positionImpl analysis op stack state pos = (some next, stack', state) ∨
      positionImpl analysis op stack state pos
        = (none, stack', { state with status := .badJumpDestination }) := by
  cases op with
  | jump =>
    refine ⟨stack.pop.1.toNat, stack.pop.2, ?_⟩
    unfold positionImpl
    rcases jumpImpl_cases analysis state stack.pop.1 with h | h
    · exact .inl (by simp only [h])
    · exact .inr (by simp only [h])
  | jumpi =>
    unfold positionImpl
    by_cases hcond : stack.pop.2.pop.1 ≠ 0
    · refine ⟨stack.pop.1.toNat, stack.pop.2.pop.2, ?_⟩
      rcases jumpImpl_cases analysis state stack.pop.1 with h | h
      · exact .inl (by simp only [if_pos hcond, h])
      · exact .inr (by simp only [if_pos hcond, h])
    · exact ⟨pos + 1, stack.pop.2.pop.2, .inl (if_neg hcond)⟩
  | pc => exact ⟨_, _, .inl rfl⟩
  | push k => exact ⟨_, _, .inl rfl⟩
  | _ => cases hop

/-- The position-dependent implementations satisfy the rule. -/
theorem wp_invokeCore_pos (h : InvokeRule C I E gas f.state g) (hgas : 0 ≤ f.gas)
    (hlt : f.gas < gas) (hop : coreImpl op = .pos) :
    wp C (invokeCore analysis op f) g (Next.Satisfies I E) := by
  rw [invokeCore_pos hop]
  obtain ⟨next, stack, hnext | hnext⟩ :=
    positionImpl_cases analysis hop f.stackTop f.state f.codeIt <;> rw [hnext]
  · exact h.cont (.refl _) hgas hlt (Int.add_le_add_right hlt.le _)
  · exact h.fail (.refl _) hlt.le (by decide)

omit [Ethash] in
/-- In static mode `LOG` fails. -/
theorem wp_log_of_static {n : Nat} {c : Ctx} {Q : Except StatusCode Unit × Ctx → γ → Prop}
    (h : c.state.InStaticMode)
    (hQ : Q (.error .staticModeViolation, { c with gasLeft := 0 }) g) : wp C (log n c) g Q := by
  rw [log_of_static n h]
  exact hQ

/-- Every instruction satisfies the rule once its requirements are checked. -/
theorem wp_invokeCore (h : InvokeRule C I E gas f.state g) (hgas : 0 ≤ f.gas)
    (hcost : f.gas = gas - gasCosts op) :
    wp C (invokeCore analysis op f) g (Next.Satisfies I E) := by
  have hnonneg := gasCosts_nonneg op
  by_cases hspecial : IsSpecial op
  -- Of the special instructions only `sstore` has no base cost.
  · rcases special_cases hspecial with rfl | ⟨hpos, hop⟩
    · obtain rfl : f.gas = gas := by rw [hcost]; exact Int.sub_zero gas
      exact wp_invokeCore_sstore h
    · have hlt : f.gas < gas := by omega
      rcases hop with rfl | ⟨cop, rfl⟩ | ⟨cop, rfl⟩ | hop
      · exact h.cont (.refl _) hgas hlt (Int.add_le_add_right hlt.le _)
      · exact wp_invokeCore_call h hgas hlt (coreImpl_call cop)
      · exact wp_invokeCore_create h hgas hlt (coreImpl_create cop)
      · exact wp_invokeCore_pos h hgas hlt hop
  · have hsstore : op ≠ .sstore := fun hop => hspecial (hop ▸ trivial)
    by_cases hstatic : f.state.InStaticMode
    -- A static frame answers a log with a failure, so `h.log` is not needed there.
    · by_cases hlog : ∃ k, op = .log k
      · obtain ⟨k, rfl⟩ := hlog
        rw [invokeCore_result (m := Core.log k) rfl]
        exact (wp_bind _ _ _).2 (wp_log_of_static hstatic
          (h.fail (.refl _) (by show 0 ≤ gas; omega) (by decide)))
      · exact wp_invokeCore_metered h h.neutral hgas hcost hsstore
          (metered_coreImpl hspecial (fun _ hq => hq) fun k hk => absurd ⟨k, hk⟩ hlog)
    · exact wp_invokeCore_metered h (h.log hstatic) hgas hcost hsstore
        (metered_coreImpl hspecial (fun q hq => by cases q <;> trivial) fun _ _ _ _ _ => trivial)

omit [Ethash] in
/-- The outcome of the requirements check. -/
theorem checkRequirements_cases (op : Opcode) (gasLeft : Int) (stackTop : StackTop) :
    checkRequirements op gasLeft stackTop = (.success, gasLeft - gasCosts op) ∧
        0 ≤ gasLeft - gasCosts op ∨
      ∃ status gas', checkRequirements op gasLeft stackTop = (status, gas') ∧ gas' ≤ gasLeft ∧
        status.IsFailure := by
  have hnonneg := gasCosts_nonneg op
  unfold checkRequirements
  split
  · exact .inr ⟨_, _, rfl, le_rfl, by decide⟩
  · split
    · exact .inr ⟨_, _, rfl, le_rfl, by decide⟩
    · dsimp only
      split
      · exact .inr ⟨_, _, rfl, by omega, by decide⟩
      · exact .inl ⟨rfl, by omega⟩

/-- A step inside the code satisfies the rule. -/
theorem wp_step_of_byte {byte : UInt8} (hbyte : analysis.executableCode[f.codeIt]? = some byte)
    (h : InvokeRule C I E f.gas f.state g) :
    wp C (step analysis f) g (Next.Satisfies I E) := by
  unfold step
  rw [hbyte]
  dsimp only
  split
  next op _ =>
    unfold invoke
    rcases checkRequirements_cases op f.gas f.stackTop with ⟨hok, hgas⟩ | ⟨status, gas', hfail, hle, hstatus⟩
    · rw [hok]
      exact wp_invokeCore (f := { f with gas := f.gas - gasCosts op }) h hgas rfl
    · rw [hfail]
      have hend : Next.Satisfies I E (.done gas' { f.state with status }) g := h.fail (.refl _) hle hstatus
      cases status <;> first | exact absurd rfl hstatus.1 | exact hend
  next => exact h.fail (.refl _) le_rfl (by decide)

/-- A step satisfies the rule. -/
theorem wp_step (h : StepRule C I E f.gas f.state g) :
    wp C (step analysis f) g (Next.Satisfies I E) := by
  rcases hbyte : analysis.executableCode[f.codeIt]? with _ | byte
  · unfold step
    rw [hbyte]
    exact h.abort _
  · exact wp_step_of_byte hbyte h.toInvokeRule

/-- A property of frames that every step keeps holds until the frame ends. -/
theorem wp_dispatch (hstep : ∀ gas st g, I gas st g → StepRule C I E gas st g) {n : Nat}
    (h : I f.gas f.state g) : wp C (dispatch analysis n f) g fun x g' => E x.1 x.2 g' := by
  induction n generalizing f g with
  | zero => exact (hstep _ _ _ h).abort _
  | succ n ih =>
    refine (wp_bind _ _ _).2 (wp_mono (wp_step (hstep _ _ _ h)) ?_)
    rintro (f' | ⟨gas, state⟩) g' hnext
    · exact ih hnext
    · exact hnext

/-- What the end of every frame satisfies, the results of the interpreter satisfy. -/
theorem wp_execute (hstep : ∀ gas st g, I gas st g → StepRule C I E gas st g) {fuel : Nat}
    {msg : Message} {code : Bytes} (h : I msg.gas (.init msg code) g) {Q : CallResult → γ → Prop}
    (hQ : ∀ gas st g, E gas st g → Q (st.result gas) g) :
    wp C (execute fuel msg code) g Q :=
  (wp_bind _ _ _).2 (wp_mono (wp_dispatch hstep h) fun _ _ hE => hQ _ _ _ hE)

end

end Baseline

end Zvmone
