import Zvmone.Vm.ControlFlow
import Zvmone.Vm.GasRule
import Zvmone.Vm.StackBounds

/-! # Gas in the Advanced interpreter

The gas counter of the Advanced interpreter is charged per block and corrected for the instructions
that need the exact value. The total of a block is clamped to 32 bits, so that the corrected value
can be negative. No instruction goes on with more gas than it was started with, whatever that is, and
growths of the memory are paid from it. -/

namespace Zvmone

open Interaction InstrM Instr Zvmone.Core

/-! ### Charges at any gas -/

namespace InstrM

variable {α β : Type} {A : HostCall → Prop}

/-- The part goes on with at most the gas it is started with. -/
def Falls (A : HostCall → Prop) (m : InstrM α) : Prop :=
  ∀ c, wp (.asking Fault A) (m c) () fun x _ => ∀ a, x.1 = .ok a → x.2.gasLeft ≤ c.gasLeft

/-- The part goes on with at most the gas it is started with, and that is not negative. -/
def Pays (A : HostCall → Prop) (m : InstrM α) : Prop :=
  ∀ c, wp (.asking Fault A) (m c) () fun x _ => ∀ a, x.1 = .ok a →
    0 ≤ x.2.gasLeft ∧ x.2.gasLeft ≤ c.gasLeft

/-- A returned value costs nothing. -/
theorem falls_pure (a : α) : Falls A (pure a : InstrM α) := fun _ _ _ => le_rfl

/-- Reading costs nothing. -/
theorem falls_read (f : Ctx → α) : Falls A (read f) := fun _ _ _ => le_rfl

/-- An update that keeps the gas costs nothing. -/
theorem falls_modify {f : Ctx → Ctx} (h : ∀ c, (f c).gasLeft = c.gasLeft) : Falls A (modify f) :=
  fun c _ _ => (h c).le

/-- Popping an item costs nothing. -/
theorem falls_pop : Falls A pop := fun _ _ _ => le_rfl

/-- Pushing an item costs nothing. -/
theorem falls_push (v : Word) : Falls A (push v) := falls_modify fun _ => rfl

/-- An update of the execution state costs nothing. -/
theorem falls_modifyState (f : ExecutionState → ExecutionState) : Falls A (modifyState f) :=
  falls_modify fun _ => rfl

/-- Reading the execution state costs nothing. -/
theorem falls_state : Falls A state := falls_read _

/-- An allowed question costs nothing. -/
theorem falls_host {q : HostCall} (h : A q) : Falls A (host q) :=
  fun _ => ⟨h, fun _ _ _ _ _ => le_rfl⟩

/-- A charge that goes on has been paid. -/
theorem pays_charge {cost : Int} (hcost : 0 ≤ cost) : Pays A (charge cost) := by
  intro c
  by_cases hshort : c.gasLeft - cost < 0
  · rw [charge_of_short hshort]
    rintro _ ⟨⟩
  · rw [charge_of_paid (not_lt.mp hshort)]
    rintro _ -
    rw [Ctx.shift_gasLeft]
    omega

/-- A charge lowers the gas, whatever it was. -/
theorem falls_charge {cost : Int} (hcost : 0 ≤ cost) : Falls A (charge cost) :=
  fun c => wp_mono (pays_charge hcost c) fun _ _ h a ha => (h a ha).2

/-- A memory check lowers the gas, whatever it was. -/
theorem falls_require {check : Int → Memory → Bool × Int × Memory} (h : MeteredCheck check) :
    Falls A (require check) := by
  intro c
  have hle := h.gas_le c.gasLeft c.state.memory
  rcases hcheck : check c.gasLeft c.state.memory with ⟨_ | _, gasLeft, memory⟩ <;> rw [hcheck] at hle
  · rw [require_of_fail hcheck]
    rintro _ ⟨⟩
  · rw [require_of_ok hcheck]
    exact fun _ _ => hle

/-- Falling gas composes. -/
theorem Falls.bind {m : InstrM α} {f : α → InstrM β} (hm : Falls A m) (hf : ∀ a, Falls A (f a)) :
    Falls A (m >>= f) := by
  intro c
  refine (wp_bind _ _ _).2 (wp_mono (hm c) ?_)
  rintro ⟨e | a, c₁⟩ _ h
  · rintro _ ⟨⟩
  · exact wp_mono (hf a c₁) fun _ _ hx b hb => (hx b hb).trans (h a rfl)

/-- The last charge decides. -/
theorem Falls.bind_pays {m : InstrM α} {f : α → InstrM β} (hm : Falls A m)
    (hf : ∀ a, Pays A (f a)) : Pays A (m >>= f) := by
  intro c
  refine (wp_bind _ _ _).2 (wp_mono (hm c) ?_)
  rintro ⟨e | a, c₁⟩ _ h
  · rintro _ ⟨⟩
  · exact wp_mono (hf a c₁) fun _ _ hx b hb =>
      ⟨(hx b hb).1, (hx b hb).2.trans (h a rfl)⟩

/-- A charge pays for what follows if that costs nothing. -/
theorem pays_charge_bind {cost : Int} (hcost : 0 ≤ cost) {f : Unit → InstrM β}
    (hf : ∀ c, wp (.asking Fault A) (f () c) () fun x _ => x.2.gasLeft = c.gasLeft) :
    Pays A (charge cost >>= f) := by
  intro c
  refine (wp_bind _ _ _).2 (wp_mono (pays_charge hcost c) ?_)
  rintro ⟨e | a, c₁⟩ _ h
  · rintro _ ⟨⟩
  · refine wp_mono (hf c₁) fun x _ hx b _ => ?_
    have hpaid : 0 ≤ c₁.gasLeft ∧ c₁.gasLeft ≤ c.gasLeft := h a rfl
    have hx : x.2.gasLeft = c₁.gasLeft := hx
    omega

/-- A failure need not pay. -/
theorem pays_exit_bind (status : StatusCode) (f : α → InstrM β) : Pays A (exit status >>= f) :=
  fun _ _ h => (by cases h)

/-- A branch pays if both sides do. -/
theorem pays_ite {c : Prop} [Decidable c] {m m' : InstrM α} (h : Pays A m) (h' : Pays A m') :
    Pays A (if c then m else m') := by
  split
  · exact h
  · exact h'

/-- The gas falls in a branch if it does in both sides. -/
theorem falls_ite {c : Prop} [Decidable c] {m m' : InstrM α} (h : Falls A m) (h' : Falls A m') :
    Falls A (if c then m else m') := by
  split
  · exact h
  · exact h'

end InstrM

namespace Core

/-- The gas falls with the cold account charge. -/
theorem falls_accessAccount (addr : Address) : Falls HostCall.IsOrdinary (accessAccount addr) :=
  (falls_host trivial).bind fun _ => falls_ite (falls_charge (by decide)) (falls_pure ())

/-- The gas falls with a required memory check. -/
theorem falls_requireMemory (offset size : Word) :
    Falls HostCall.IsOrdinary (requireMemory offset size) :=
  falls_require (meteredCheck offset size)

/-- The last charge of a call instruction. -/
theorem pays_callTail {c : Prop} [Decidable c] (l : CallLocals) (value : Word) (dst : Address) :
    Pays HostCall.IsOrdinary
      (if c then do
        let exists_ ← host (HostCall.accountExists dst)
        let newAccountCost ← pure (if exists_ then 0 else 25000)
        charge ((if value ≠ 0 then 9000 else 0) + newAccountCost)
        return l
      else do
        let newAccountCost ← pure 0
        charge ((if value ≠ 0 then 9000 else 0) + newAccountCost)
        return l) := by
  have hfinal : ∀ newAccountCost : Int, 0 ≤ newAccountCost → Pays HostCall.IsOrdinary (do
      charge ((if value ≠ 0 then 9000 else 0) + newAccountCost)
      return l) := by
    intro newAccountCost hcost
    refine pays_charge_bind ?_ fun _ => rfl
    split <;> omega
  refine pays_ite ((falls_host trivial).bind_pays fun exists_ => hfinal _ ?_) (hfinal 0 le_rfl)
  split <;> decide

/-- Call instructions end their charges with gas that is not negative. -/
theorem pays_callCharge (op : CallOp) : Pays HostCall.IsOrdinary (callCharge op) := by
  unfold callCharge
  refine falls_pop.bind_pays fun gas => falls_pop.bind_pays fun x =>
    pays_ite ((falls_pure 0).bind_pays fun value => ?_) (falls_pop.bind_pays fun value => ?_)
  all_goals
    refine falls_pop.bind_pays fun _ => falls_pop.bind_pays fun _ =>
      falls_pop.bind_pays fun _ => falls_pop.bind_pays fun _ =>
      (falls_push 0).bind_pays fun _ => (falls_modifyState _).bind_pays fun _ =>
      (falls_accessAccount _).bind_pays fun _ =>
      (falls_requireMemory _ _).bind_pays fun _ =>
      (falls_requireMemory _ _).bind_pays fun _ => falls_state.bind_pays fun st => ?_
    exact pays_ite (pays_ite (pays_exit_bind _ _) (pays_callTail _ value _)) (pays_callTail _ value _)

/-- So do create instructions. -/
theorem pays_createCharge (op : CreateOp) : Pays HostCall.IsOrdinary (createCharge op) := by
  unfold createCharge
  refine falls_state.bind_pays fun st => pays_ite (pays_exit_bind _ _) (falls_pop.bind_pays fun _ =>
    falls_pop.bind_pays fun _ => falls_pop.bind_pays fun _ => pays_ite (falls_pop.bind_pays fun _ => ?_)
      ((falls_pure 0).bind_pays fun _ => ?_))
  all_goals
    refine (falls_push 0).bind_pays fun _ => (falls_modifyState _).bind_pays fun _ =>
      (falls_requireMemory _ _).bind_pays fun _ => pays_ite (pays_exit_bind _ _)
        (pays_charge_bind ?_ fun _ => rfl)
    exact Int.mul_nonneg (numWords_nonneg _) (by split <;> decide)

/-! ### The instructions that need the exact gas -/

/-- Calls give back at most the gas of the message. -/
def BoundedAnswer : (q : HostCall) → q.Answer → Prop
  | .call m, r => 0 ≤ m.gas → CallResult.IsBounded r m
  | _, _ => True

/-- Bounded answers rely on nothing but the gas of the messages. -/
theorem neutral_boundedAnswer : (Contract.answers Fault BoundedAnswer).Neutral () fun _ => True :=
  ⟨fun _ _ => trivial, fun _ _ _ _ _ => rfl⟩

/-- Unless the implementation fails, it leaves at most the given gas. -/
def AtMost (gas : Int) (x : Except StatusCode Unit × Ctx) : Prop :=
  Advanced.implStatus x.1 = .success → x.2.gasLeft ≤ gas

/-- What an instruction with gas and status that was started in `c` returns: it goes on with gas that
is not negative and at most what it was given, from which the growth of the memory is paid, or it
fails. -/
structure Spends (c : Ctx) (x : Except StatusCode Unit × Ctx) : Prop where
  ok : x.1 = .ok () → 0 ≤ x.2.gasLeft ∧ x.2.gasLeft ≤ c.gasLeft
  funds_le : x.1 = .ok () → x.2.funds ≤ c.funds
  error : ∀ e, x.1 = .error e → e.IsFailure

/-- After a failure nothing is said about the gas. -/
theorem spends_error {c : Ctx} {e : StatusCode} (h : e.IsFailure) (c' : Ctx) :
    Spends c (.error e, c') :=
  ⟨nofun, nofun, fun _ he => by cases he; exact h⟩

/-- An instruction that goes on has gas left, and not more than before. -/
theorem spends_ok {c c' : Ctx} (hnonneg : 0 ≤ c'.gasLeft) (hle : c'.gasLeft ≤ c.gasLeft)
    (hfunds : c'.funds ≤ c.funds) : Spends c (.ok (), c') :=
  ⟨fun _ => ⟨hnonneg, hle⟩, fun _ => hfunds, nofun⟩

/-- A call instruction spends: the callee gives back at most what it got. -/
theorem wp_callImpl_spends (op : CallOp) (c : Ctx) :
    wp (.answers Fault BoundedAnswer) (callImpl op c) () fun x _ => Spends c x := by
  have hcharge := wp_and (yields_callCharge (A := HostCall.IsOrdinary) op (fun _ => trivial)
    (fun _ => trivial) c) (pays_callCharge op c)
  refine (wp_bind _ _ _).2 (wp_mono (wp_answers_of_asking hcharge) ?_)
  rintro ⟨e | l, c'⟩ _ ⟨⟨houtcome, hl⟩, hpays⟩
  · exact spends_error (houtcome.failure e rfl) c'
  · obtain ⟨hnonneg, hle⟩ : 0 ≤ c'.gasLeft ∧ c'.gasLeft ≤ c.gasLeft := hpays l rfl
    have hpaid : c'.gasLeft ≤ c.gasLeft - l.valueCost := (hl l rfl).2.1 (hnonneg.trans hle)
    have hfunds : c'.funds ≤ c.funds - l.valueCost := (hl l rfl).2.2
    have hstipend := stipend_le_valueCost l
    have hstipend' := stipend_nonneg l
    show wp _ (callSend l c') _ _
    rw [callSend_eq]
    -- The call is refused, or the callee gives back at most the gas passed on and the stipend.
    refine wp_sending (neutral_boundedAnswer.mono fun _ _ => trivial) (spends_ok ?_ ?_ ?_)
      fun _ => ⟨trivial, fun r _ hr => ?_⟩
    · show 0 ≤ c'.gasLeft + stipend l
      omega
    · show c'.gasLeft + stipend l ≤ c.gasLeft
      omega
    · have hbefore : (beforeCall l c').funds = c'.funds + stipend l := by
        simp only [Ctx.funds, funds, beforeCall]
        omega
      omega
    · have hpassed := passedGas_bounds l hnonneg
      have hr := hr (by simp only [callMessage]; omega)
      have hafter := afterCall_bounds hnonneg hr
      have hafter' : (afterCall l c' r).funds ≤ c'.funds + l.valueCost :=
        afterCall_funds_le hnonneg hr
      exact spends_ok (by omega) (by omega) (by omega)

/-- A create instruction spends: the callee gives back at most what it got. -/
theorem wp_createImpl_spends (op : CreateOp) (c : Ctx) :
    wp (.answers Fault BoundedAnswer) (createImpl op c) () fun x _ => Spends c x := by
  have hcharge := wp_and (yields_createCharge (A := HostCall.IsOrdinary) op c)
    (pays_createCharge op c)
  refine (wp_bind _ _ _).2 (wp_mono (wp_answers_of_asking hcharge) ?_)
  rintro ⟨e | l, c'⟩ _ ⟨⟨houtcome, -⟩, hpays⟩
  · exact spends_error (houtcome.failure e rfl) c'
  · obtain ⟨hnonneg, hle⟩ : 0 ≤ c'.gasLeft ∧ c'.gasLeft ≤ c.gasLeft := hpays l rfl
    have hfunds : c'.funds ≤ c.funds := houtcome.funds_le l rfl
    show wp _ (createSend op l c') _ _
    rw [createSend_eq]
    refine wp_sending (neutral_boundedAnswer.mono fun _ _ => trivial) (spends_ok hnonneg hle hfunds)
      fun _ => ⟨trivial, fun r _ hr => ?_⟩
    have hr : r.IsBounded (createMessage op l c') := hr (by simp only [createMessage]; omega)
    have hafter := afterCreate_bounds hr
    have hafter' : (afterCreate op l c' r).funds ≤ c'.funds := afterCreate_funds_le hr
    exact spends_ok (by omega) (by omega) (by omega)

/-- `SSTORE` spends: it is refused when the gas does not exceed the stipend. -/
theorem wp_sstore_spends (c : Ctx) :
    wp (.answers Fault BoundedAnswer) (sstore c) () fun x _ => Spends c x := by
  refine wp_sstore (neutral_boundedAnswer.mono fun _ _ => trivial) (fun e he => spends_error he c)
    fun access _ _ => ⟨trivial, fun status _ _ => ?_⟩
  have hprice := sstorePrice_pos access status
  split
  next => exact spends_error (by decide) _
  next hpaid =>
    refine spends_ok ?_ ?_ ?_
    · show 0 ≤ c.gasLeft - sstorePrice access status
      omega
    · show c.gasLeft - sstorePrice access status ≤ c.gasLeft
      omega
    · show c.gasLeft - sstorePrice access status + c.state.memory.charged ≤ _
      rw [Ctx.funds, funds]
      omega

/-- Every implementation with gas and status spends gas or fails. -/
theorem wp_result_spends [Ethash] {op : Opcode} {m : InstrM Unit} (hop : coreImpl op = .result m)
    {c : Ctx} (hgas : 0 ≤ c.gasLeft) :
    wp (.answers Fault BoundedAnswer) (m c) () fun x _ => Spends c x := by
  by_cases hspecial : IsSpecial op
  -- The special instructions one by one; a position instruction is no result.
  · rcases special_cases hspecial with rfl | ⟨-, rfl | ⟨cop, rfl⟩ | ⟨cop, rfl⟩ | hpos⟩
    · cases hop
      exact wp_sstore_spends c
    · cases hop
      exact spends_ok hgas le_rfl le_rfl
    · rw [coreImpl_call] at hop
      cases hop
      exact wp_callImpl_spends cop c
    · rw [coreImpl_create] at hop
      cases hop
      exact wp_createImpl_spends cop c
    · rw [hop] at hpos
      cases hpos
  -- All others are metered.
  · have hm : MeteredFn False HostCall.IsOrdinaryOrLog (coreImpl op) :=
      metered_coreImpl hspecial (fun q hq => by cases q <;> trivial) fun _ _ _ _ _ => trivial
    rw [hop] at hm
    refine wp_mono (wp_answers_of_asking (hm.outcome c)) ?_
    rintro ⟨e | u, c'⟩ _ houtcome
    · exact spends_error (houtcome.failure e rfl) c'
    · exact spends_ok (houtcome.gas_nonneg hgas u rfl) (houtcome.gas_le hgas)
        (houtcome.funds_le u rfl)

end Core

/-! ### Instructions -/

namespace Advanced

/-- The funds of a state. -/
def AdvancedExecutionState.funds (st : AdvancedExecutionState) : Int :=
  Zvmone.funds st.gasLeft st.base

/-- Unless the execution fails, the gas is not negative and at most what there was, and the growth of
the memory is paid from it. -/
structure GoesOnWithin (gas : Int) (st : AdvancedExecutionState)
    (x : Option Nat × AdvancedExecutionState) : Prop where
  gas : x.1 ≠ none ∨ ¬ x.2.base.status.IsFailure → 0 ≤ x.2.gasLeft ∧ x.2.gasLeft ≤ gas
  funds_le : x.1 ≠ none ∨ ¬ x.2.base.status.IsFailure → x.2.funds ≤ st.funds

variable {op : Opcode} {i : Nat} {st : AdvancedExecutionState}

/-- Nothing is said of failures. -/
theorem goesOnWithin_exit {gas : Int} {status : StatusCode} (h : status.IsFailure)
    (st' : AdvancedExecutionState) : GoesOnWithin gas st (st'.exit status) :=
  ⟨fun hok => hok.elim (absurd rfl) (absurd h), fun hok => hok.elim (absurd rfl) (absurd h)⟩

/-- A function that goes on has gas left, and not more than before. -/
theorem goesOnWithin_some {gas : Int} {next : Nat} {st' : AdvancedExecutionState}
    (hnonneg : 0 ≤ st'.gasLeft) (hle : st'.gasLeft ≤ gas) (hfunds : st'.funds ≤ st.funds) :
    GoesOnWithin gas st (some next, st') :=
  ⟨fun _ => ⟨hnonneg, hle⟩, fun _ => hfunds⟩

/-- The correction is taken back, so it does not matter which it is. -/
theorem wp_opCorrected {fn : InstrM Unit}
    (hfn : ∀ c, wp (.answers Fault BoundedAnswer) (fn c) () fun x _ => Spends c x)
    (arg : InstructionArgument) :
    wp (.answers Fault BoundedAnswer) (opCorrected op fn arg i st) () fun x _ =>
      GoesOnWithin st.gasLeft st x := by
  rw [opCorrected_eq]
  refine (wp_bind _ _ _).2 (wp_mono (hfn _) ?_)
  rintro ⟨e | u, c⟩ _ hx <;> rw [wp_ret] <;> unfold resumeCorrected
  -- The instruction failed: the loop exits with its status.
  · have he := hx.error e rfl
    rw [if_pos (show implStatus (.error e) ≠ .success from he.1)]
    exact goesOnWithin_exit he _
  · rw [if_neg (show ¬ implStatus (.ok u) ≠ .success from not_not.mpr rfl)]
    -- It ran with the block's charge given back in part, and this part is taken again.
    have hle : c.gasLeft ≤ st.gasLeft + (st.currentBlockCost - arg.asNumber) := (hx.ok rfl).2
    have hfunds : c.gasLeft + c.state.memory.charged
        ≤ st.gasLeft + (st.currentBlockCost - arg.asNumber) + st.base.memory.charged :=
      hx.funds_le rfl
    split
    · exact goesOnWithin_exit (by decide) _
    next hpaid =>
      have hpaid : 0 ≤ c.gasLeft - (st.currentBlockCost - arg.asNumber) := not_lt.mp hpaid
      refine goesOnWithin_some ?_ ?_ ?_
      · show 0 ≤ c.gasLeft + -(st.currentBlockCost - arg.asNumber)
        omega
      · show c.gasLeft + -(st.currentBlockCost - arg.asNumber) ≤ st.gasLeft
        omega
      · show c.gasLeft + -(st.currentBlockCost - arg.asNumber) + c.state.memory.charged
          ≤ st.gasLeft + st.base.memory.charged
        omega

/-- A wrapped core implementation. -/
theorem wp_opCore [Ethash] (h : ¬ IsSpecial op) (hgas : 0 ≤ st.gasLeft) :
    wp (.answers Fault BoundedAnswer) (opCore op i st) () fun x _ =>
      GoesOnWithin st.gasLeft st x := by
  have hm : MeteredFn False HostCall.IsOrdinaryOrLog (coreImpl op) :=
    metered_coreImpl h (fun q hq => by cases q <;> trivial) fun _ _ _ _ _ => trivial
  rcases hop : coreImpl op with fn | fn | fn | fn | _ <;> rw [hop] at hm
  · rw [opCore_stack hop]
    exact goesOnWithin_some hgas le_rfl le_rfl
  -- State functions have no access to the gas and do not grow the memory.
  · rw [opCore_state hop]
    refine (wp_bind _ _ _).2 (wp_mono (wp_answers_of_asking (hm _ _)) ?_)
    rintro ⟨stack, state⟩ _ ⟨-, hmemory⟩
    have hmemory : state.memory = st.base.memory := hmemory
    refine goesOnWithin_some hgas le_rfl ?_
    show st.gasLeft + state.memory.charged ≤ st.gasLeft + st.base.memory.charged
    rw [hmemory]
  -- Functions with a result charge what the base cost leaves out.
  · rw [opCore_result hop]
    refine (wp_bind _ _ _).2 (wp_mono (wp_answers_of_asking (hm.outcome _)) ?_)
    rintro ⟨e | u, c⟩ _ houtcome
    · have he := houtcome.failure e rfl
      rw [wp_ret]
      unfold resume implStatus
      rw [if_pos he.1]
      exact goesOnWithin_exit he _
    · exact goesOnWithin_some (houtcome.gas_nonneg hgas u rfl) (houtcome.gas_le hgas)
        (houtcome.funds_le u rfl)
  · rw [opCore_term hop]
    refine (wp_bind _ _ _).2 (wp_mono (wp_answers_of_asking (hm.outcome _)) ?_)
    rintro ⟨e | status, c⟩ _ houtcome
    · exact goesOnWithin_exit (houtcome.failure e rfl) _
    · exact ⟨fun _ => ⟨houtcome.gas_nonneg hgas status rfl, houtcome.gas_le hgas⟩,
        fun _ => houtcome.funds_le status rfl⟩
  · exact hm.elim

/-- A block is paid when it begins. -/
theorem goesOnWithin_opxBeginblock {arg : InstructionArgument} (hcost : 0 ≤ arg.asBlock.gasCost) :
    GoesOnWithin (st.gasLeft - arg.asBlock.gasCost) st (opxBeginblock arg i st) := by
  unfold opxBeginblock
  dsimp only
  split
  · exact goesOnWithin_exit (by decide) _
  next hgas =>
    split
    · exact goesOnWithin_exit (by decide) _
    · split
      · exact goesOnWithin_exit (by decide) _
      · refine goesOnWithin_some (not_lt.1 hgas) le_rfl ?_
        show st.gasLeft - arg.asBlock.gasCost + st.base.memory.charged
          ≤ st.gasLeft + st.base.memory.charged
        omega

/-- What goes on within the gas of a state goes on within that of one with the same memory and at
least as much gas. -/
theorem GoesOnWithin.mono {gas gas' : Int} {st st' : AdvancedExecutionState}
    {x : Option Nat × AdvancedExecutionState} (h : GoesOnWithin gas st x) (hle : gas ≤ gas')
    (hfunds : st.funds ≤ st'.funds) : GoesOnWithin gas' st' x :=
  ⟨fun hok => ⟨(h.gas hok).1, (h.gas hok).2.trans hle⟩, fun hok => (h.funds_le hok).trans hfunds⟩

/-- Jumps are free. -/
theorem goesOnWithin_opJump (analysis : AdvancedCodeAnalysis) (hgas : 0 ≤ st.gasLeft) :
    GoesOnWithin st.gasLeft st (opJump analysis st) := by
  unfold opJump
  dsimp only
  split
  · exact goesOnWithin_exit (by decide) _
  · split
    · exact goesOnWithin_exit (by decide) _
    · exact goesOnWithin_some hgas le_rfl le_rfl

/-- No instruction adds gas, none goes on with a counter below zero, and growths of the memory are
paid. -/
theorem wp_exec [Ethash] {analysis : AdvancedCodeAnalysis} {instr : Instruction}
    (hfn : instr.fn = .opUndefined ∨ ∃ op, instr.fn = instructionImplementations op)
    (hcost : 0 ≤ instr.arg.asBlock.gasCost)
    (hpush : instr.fn = .opPushFull → analysis.pushValues[instr.arg.asPushValue]? ≠ none)
    (hgas : 0 ≤ st.gasLeft) :
    wp (.answers Fault BoundedAnswer) (instr.exec analysis i st) () fun x _ =>
      GoesOnWithin st.gasLeft st x := by
  -- The begin of a block is charged in `opx_beginblock`, `JUMPDEST`, and `JUMPI` that does not jump.
  have hbegin : ∀ {st' : AdvancedExecutionState}, st'.gasLeft = st.gasLeft → st'.funds = st.funds →
      GoesOnWithin st.gasLeft st (opxBeginblock instr.arg i st') := fun h hfunds =>
    (goesOnWithin_opxBeginblock hcost).mono (by omega) hfunds.le
  have hgoesOn : ∀ {next : Nat} {st' : AdvancedExecutionState}, st'.gasLeft = st.gasLeft →
      st'.funds = st.funds → GoesOnWithin st.gasLeft st (some next, st') := fun h hfunds =>
    goesOnWithin_some (h.symm ▸ hgas) h.le hfunds.le
  unfold Instruction.exec
  rcases hfn with hundefined | ⟨op, hfn⟩
  · rw [hundefined]
    exact goesOnWithin_exit (by decide) _
  · cases op with
    -- Four kinds of instructions work on the exact gas, all others have been paid with their block.
    | sstore =>
      rw [hfn]
      exact wp_opCorrected wp_sstore_spends _
    | jump =>
      rw [hfn]
      exact goesOnWithin_opJump analysis hgas
    | jumpi =>
      rw [hfn]
      show GoesOnWithin st.gasLeft st (opJumpi analysis instr.arg i st)
      unfold opJumpi
      split
      · have hjump := goesOnWithin_opJump analysis hgas
        exact ⟨hjump.gas, hjump.funds_le⟩
      · exact hbegin rfl rfl
    | pc | gas =>
      rw [hfn]
      exact hgoesOn rfl rfl
    | jumpdest =>
      rw [hfn]
      exact hbegin rfl rfl
    | push k =>
      by_cases hsize : k.val + 1 ≤ 8
      · simp only [hfn, instructionImplementations, if_pos hsize]
        exact hgoesOn rfl rfl
      · simp only [instructionImplementations, if_neg hsize] at hfn
        have hvalue := hpush hfn
        rw [hfn]
        dsimp only
        split
        next hnone => exact absurd hnone hvalue
        next => exact hgoesOn rfl rfl
    | create | create2 =>
      rw [hfn]
      exact wp_opCorrected (wp_createImpl_spends _) _
    | call | delegatecall | staticcall =>
      rw [hfn]
      exact wp_opCorrected (wp_callImpl_spends _) _
    | _ =>
      rw [hfn]
      exact wp_opCore (fun hspecial => hspecial) hgas

/-! ### The cost of a block -/

/-- The base costs in the table of the analysis are not negative. -/
theorem opTable_gasCost_nonneg (opcode : UInt8) : 0 ≤ (opTable opcode).gasCost := by
  rcases hop : Opcode.ofByte opcode with _ | op
  · simp only [opTable, hop, le_refl]
  · rw [opTable_of hop]
    exact gasCosts_nonneg op

/-- The cost of a block only grows with its instructions. -/
theorem gasCost_le_summary (block : BlockAnalysis) (items : List Item) :
    block.gasCost ≤ (summary block items).gasCost := by
  induction items generalizing block with
  | nil => exact le_rfl
  | cons item items ih =>
    obtain ⟨pos, opcode⟩ := item
    have hadd : block.gasCost ≤ (block.add (opTable opcode)).gasCost :=
      le_add_of_nonneg_right (opTable_gasCost_nonneg opcode)
    unfold summary
    split
    · exact le_rfl
    · split
      · exact hadd
      · exact hadd.trans (ih _)

/-- Clamping to a bound that is large enough keeps a lower bound. -/
theorem le_clamp {max x y : Int} (h : y ≤ x) (hy : y ≤ max) : y ≤ clamp max x := by
  unfold clamp
  split
  · exact h
  · exact hy

variable {code : Bytes} {instr : Instruction} {k pos : Nat} {block : BlockAnalysis}
  {items : List Item}

/-- The block of a `JUMPDEST` costs something. -/
theorem jumpdest_gasCost (h : PointsTo code i k block ((pos, 0x5b) :: items))
    (hinstr : (analyze code).instrs[i]? = some instr) :
    instr.fn = .opxBeginblock ∧ 1 ≤ instr.arg.asBlock.gasCost := by
  rw [h.fetch] at hinstr
  cases hinstr
  exact ⟨rfl, le_clamp (gasCost_le_summary ((newBlock i).add (opTable 0x5b)) items) (by decide)⟩

/-- The cost that the analysis stores for a block is not negative. -/
theorem argument_gasCost (code : Bytes) (i k : Nat) {block : BlockAnalysis} {item : Item}
    (hblock : item.2 = 0x5b → 0 ≤ block.gasCost) (items : List Item) :
    0 ≤ (argument code i k block item items).asBlock.gasCost := by
  have hsummary : ∀ b : BlockAnalysis, 0 ≤ b.gasCost → 0 ≤ (summary b items).close.gasCost :=
    fun b hb => le_clamp (hb.trans (gasCost_le_summary b items)) (by decide)
  unfold argument
  split
  next hjumpdest => exact hsummary _ (hblock hjumpdest)
  · split
    · split <;> exact le_rfl
    · split
      · exact hsummary _ le_rfl
      all_goals exact le_rfl

/-- No block costs less than nothing. -/
theorem InBlock.gasCost_nonneg (h : InBlock code st i)
    (hinstr : (analyze code).instrs[i]? = some instr) : 0 ≤ instr.arg.asBlock.gasCost := by
  cases h with
  | entry =>
    rw [instrs_zero] at hinstr
    cases hinstr
    exact le_clamp (gasCost_le_summary (newBlock 0) (allItems code)) (by decide)
  | jumpdest hpoint => exact le_trans (by decide) (jumpdest_gasCost hpoint hinstr).2
  | @inside _ k block items hpoint =>
    cases items with
    | nil =>
      rw [hpoint.fetch_nil] at hinstr
      cases hinstr
      exact le_rfl
    | cons item items =>
      rw [hpoint.fetch] at hinstr
      cases hinstr
      refine argument_gasCost code i k (fun hjumpdest => ?_) items
      rw [hjumpdest]
      exact (by decide : (0 : Int) ≤ 0 + 1)

/-! ### Push values -/

/-- The opcode of a push gives the size of its data. -/
theorem ofByte_eq_push {opcode : UInt8} {k : Fin 32} (h : Opcode.ofByte opcode = some (.push k)) :
    IsPush opcode ∧ pushSize opcode = k.val + 1 := by
  have hsize : Baseline.immediateSize opcode = k.val + 1 := Baseline.immediateSize_eq h
  by_cases hpush : 0x60 ≤ opcode.toNat ∧ opcode.toNat < 0x80
  · rw [Baseline.immediateSize_push hpush] at hsize
    unfold IsPush pushSize
    omega
  · rw [Baseline.immediateSize_of_not_push hpush] at hsize
    omega

/-- Only the byte `0x5b` is a `JUMPDEST`. -/
theorem ofByte_eq_jumpdest {opcode : UInt8} (h : Opcode.ofByte opcode = some .jumpdest) :
    opcode = 0x5b := by
  have hbyte : ∀ n : Fin 256, Opcode.ofByte (UInt8.ofNat n) = some .jumpdest →
      UInt8.ofNat n = 0x5b := by
    decide +kernel
  have := hbyte ⟨opcode.toNat, opcode.toNat_lt⟩
  rw [UInt8.ofNat_toNat] at this
  exact this h

/-- The values of large PUSHes are found. -/
theorem InBlock.pushValue (h : InBlock code st i)
    (hinstr : (analyze code).instrs[i]? = some instr) (hfn : instr.fn = .opPushFull) :
    (analyze code).pushValues[instr.arg.asPushValue]? ≠ none := by
  cases h with
  | entry =>
    rw [instrs_zero] at hinstr
    cases hinstr
    cases hfn
  | jumpdest hpoint =>
    rw [(jumpdest_gasCost hpoint hinstr).1] at hfn
    cases hfn
  | @inside _ k block items hpoint =>
    cases items with
    | nil =>
      rw [hpoint.fetch_nil] at hinstr
      cases hinstr
      cases hfn
    | cons item items =>
      rw [hpoint.fetch] at hinstr
      cases hinstr
      rcases hop : Opcode.ofByte item.2 with _ | op
      · simp only [opTable, hop] at hfn
        cases hfn
      · rw [opTable_of hop] at hfn
        -- Only PUSHes of more than eight bytes have this function.
        have hpush : ∃ k : Fin 32, op = .push k ∧ ¬ k.val + 1 ≤ 8 := by
          cases op with
          | push k =>
            refine ⟨k, rfl, fun hsize => ?_⟩
            simp only [instructionImplementations, if_pos hsize] at hfn
            cases hfn
          | _ => cases hfn
        obtain ⟨n, rfl, hsize⟩ := hpush
        obtain ⟨hpush, hpushSize⟩ := ofByte_eq_push hop
        have hjumpdest : item.2 ≠ 0x5b := by
          rintro heq
          rw [heq] at hop
          cases hop
        -- The value of this PUSH is the next one of those that are not used up yet.
        have hpushes := hpoint.pushes
        rw [pushValues, if_pos ⟨hpush, hpushSize ▸ hsize⟩] at hpushes
        have hhead := congrArg (·[0]?) hpushes
        simp only [List.getElem?_drop, Nat.add_zero, List.getElem?_cons_zero] at hhead
        simp only [argument, if_neg hjumpdest, if_pos hpush, if_neg (hpushSize ▸ hsize),
          InstructionArgument.asPushValue, hhead]
        exact Option.some_ne_none _

end Advanced

end Zvmone
