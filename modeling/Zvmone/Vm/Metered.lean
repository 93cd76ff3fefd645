import Zvmone.Vm.InstructionsCalls
import Zvmone.Vm.MemoryAccess

/-! # Metered instructions

What the instructions have in common that neither call, create, write storage nor read the gas
counter. Such an instruction (`InstrM.Metered`)

* asks only harmless host methods, changes nothing of the frame but stack, memory and the cached
  transaction context, and never increases the gas (`Outcome`),
* does the same with less gas, until the smaller counter runs out (`metered.shift`).

Both properties are closed under sequential composition, so they are proved once for the building
blocks and then for the instructions by following their definitions. -/

namespace Zvmone

open Interaction

/-- A host method that every message may use: it neither calls, nor writes storage, nor logs. -/
def HostCall.IsOrdinary : HostCall → Prop
  | .setStorage _ _ _ => False
  | .emitLog _ _ _ => False
  | .call _ => False
  | _ => True

/-- A host method of an instruction that does not call: no storage is written. -/
def HostCall.IsOrdinaryOrLog : HostCall → Prop
  | .setStorage _ _ _ => False
  | .call _ => False
  | _ => True

/-- The account whose storage a host method reads or writes. -/
def HostCall.slotOwner : HostCall → Option Address
  | .getStorage addr _ => some addr
  | .setStorage addr _ _ => some addr
  | .accessStorage addr _ => some addr
  | _ => none

/-- The parts of the execution state that only calls, `SSTORE` and the end of the frame change. The
return data is among them if it is to be kept. -/
structure ExecutionState.SameFrame (keep : Prop) (s s' : ExecutionState) : Prop where
  msg : s'.msg = s.msg
  originalCode : s'.originalCode = s.originalCode
  gasRefund : s'.gasRefund = s.gasRefund
  returnData : keep → s'.returnData = s.returnData
  status : s'.status = s.status

namespace ExecutionState.SameFrame

variable {keep : Prop}

/-- A state has the same frame as itself. -/
theorem refl (s : ExecutionState) : SameFrame keep s s := ⟨rfl, rfl, rfl, fun _ => rfl, rfl⟩

/-- Having the same frame is transitive. -/
theorem trans {s₁ s₂ s₃ : ExecutionState} (h : SameFrame keep s₁ s₂)
    (h' : SameFrame keep s₂ s₃) : SameFrame keep s₁ s₃ :=
  ⟨h'.msg.trans h.msg, h'.originalCode.trans h.originalCode, h'.gasRefund.trans h.gasRefund,
    fun hk => (h'.returnData hk).trans (h.returnData hk), h'.status.trans h.status⟩

end ExecutionState.SameFrame

/-- The gas that is left, together with what the growths of the memory were charged so far. -/
def funds (gas : Int) (st : ExecutionState) : Int := gas + st.memory.charged

/-- The funds of a context. -/
def Ctx.funds (c : Ctx) : Int := Zvmone.funds c.gasLeft c.state

/-- The context with less gas. -/
def Ctx.shift (c : Ctx) (d : Int) : Ctx := { c with gasLeft := c.gasLeft - d }

/-- A shift of the gas keeps the stack. -/
@[simp] theorem Ctx.shift_stack (c : Ctx) (d : Int) : (c.shift d).stack = c.stack := rfl

/-- A shift of the gas keeps the execution state. -/
@[simp] theorem Ctx.shift_state (c : Ctx) (d : Int) : (c.shift d).state = c.state := rfl

/-- A shift lowers the gas. -/
@[simp] theorem Ctx.shift_gasLeft (c : Ctx) (d : Int) : (c.shift d).gasLeft = c.gasLeft - d := rfl

/-- A shift lowers the funds as much as the gas. -/
@[simp] theorem Ctx.shift_funds (c : Ctx) (d : Int) : (c.shift d).funds = c.funds - d := by
  simp only [Ctx.funds, Zvmone.funds, Ctx.shift_gasLeft, Ctx.shift_state]
  omega

namespace InstrM

variable {α β : Type} {keep : Prop} {A : HostCall → Prop}

/-- The outcome of an instruction started in `c`. -/
structure Outcome (keep : Prop) (c : Ctx) (x : Except StatusCode α × Ctx) : Prop where
  same : ExecutionState.SameFrame keep c.state x.2.state
  gas_le : 0 ≤ c.gasLeft → x.2.gasLeft ≤ c.gasLeft
  gas_nonneg : 0 ≤ c.gasLeft → ∀ a, x.1 = .ok a → 0 ≤ x.2.gasLeft
  /-- Growths of the memory are paid from the gas. -/
  funds_le : ∀ a, x.1 = .ok a → x.2.funds ≤ c.funds
  failure : ∀ e, x.1 = .error e → e.IsFailure

/-- The outcomes of an instruction with the gas `d` apart: the same value and the same gas apart, or
a failure of both. -/
def Shifted (d : Int) (x y : Except StatusCode α × Ctx) : Prop :=
  (∃ a, x.1 = .ok a ∧ y.1 = .ok a ∧ y.2 = x.2.shift d ∧ d ≤ x.2.gasLeft) ∨
    ∃ e e', x.1 = .error e ∧ y.1 = .error e' ∧ e.IsFailure ∧ e'.IsFailure

/-- An outcome with less than the gas `d` left, or a failure. -/
def Short (d : Int) (x : Except StatusCode α × Ctx) : Prop :=
  (∃ a, x.1 = .ok a ∧ 0 ≤ x.2.gasLeft ∧ x.2.gasLeft < d) ∨ ∃ e, x.1 = .error e ∧ e.IsFailure

/-- A failure. -/
def Failed (x : Except StatusCode α × Ctx) : Prop := ∃ e, x.1 = .error e ∧ e.IsFailure

/-- A metered instruction. -/
structure Metered (keep : Prop) (A : HostCall → Prop) (m : InstrM α) : Prop where
  outcome : ∀ c, wp (.asking Fault A) (m c) () fun x _ => Outcome keep c x
  shift : ∀ c d K, 0 ≤ d → d ≤ c.gasLeft →
    Sim K (Short d) Failed (Shifted d) (m c) (m (c.shift d))

/-! ### The building blocks -/

/-- An instruction that goes on keeps the frame, and its gas falls without getting negative. -/
theorem Outcome.ok {c c' : Ctx} (a : α) (hsame : ExecutionState.SameFrame keep c.state c'.state)
    (hle : 0 ≤ c.gasLeft → c'.gasLeft ≤ c.gasLeft) (hnonneg : 0 ≤ c.gasLeft → 0 ≤ c'.gasLeft)
    (hfunds : c'.funds ≤ c.funds) :
    Outcome keep c ((.ok a, c') : Except StatusCode α × Ctx) :=
  ⟨hsame, hle, fun hc _ _ => hnonneg hc, fun _ _ => hfunds, fun _ h => (by cases h)⟩

/-- After a failure nothing is said about the sign of the gas and the funds. -/
theorem Outcome.error {c c' : Ctx} {e : StatusCode} (hsame : ExecutionState.SameFrame keep c.state c'.state)
    (hle : 0 ≤ c.gasLeft → c'.gasLeft ≤ c.gasLeft) (he : e.IsFailure) :
    Outcome keep c ((.error e, c') : Except StatusCode α × Ctx) :=
  ⟨hsame, hle, fun _ _ h => (by cases h), fun _ h => (by cases h), fun _ h => (by cases h; exact he)⟩

/-- Outcomes compose. -/
theorem Outcome.trans {c c₁ : Ctx} {a : α} {x : Except StatusCode β × Ctx}
    (h : Outcome keep c ((.ok a, c₁) : Except StatusCode α × Ctx)) (h' : Outcome keep c₁ x) : Outcome keep c x :=
  ⟨h.same.trans h'.same,
    fun hc => (h'.gas_le (h.gas_nonneg hc a rfl)).trans (h.gas_le hc),
    fun hc => h'.gas_nonneg (h.gas_nonneg hc a rfl),
    fun b hb => (h'.funds_le b hb).trans (h.funds_le a rfl), h'.failure⟩

/-- A returned value costs nothing. -/
theorem metered_pure (a : α) : Metered keep A (pure a : InstrM α) where
  outcome _ := Outcome.ok a (.refl _) (fun _ => le_rfl) id le_rfl
  shift _ _ _ _ hd := .ret (.inl ⟨a, rfl, rfl, rfl, hd⟩)

/-- A failure may end an instruction anywhere. -/
theorem metered_exit {status : StatusCode} (h : status.IsFailure) :
    Metered keep A (exit status : InstrM α) where
  outcome _ := Outcome.error (.refl _) (fun _ => le_rfl) h
  shift _ _ _ _ _ := .ret (.inr ⟨status, status, rfl, rfl, h, h⟩)

/-- Reading what does not depend on the gas is metered. -/
theorem metered_read {f : Ctx → α} (h : ∀ c d, f (c.shift d) = f c) : Metered keep A (read f) where
  outcome _ := Outcome.ok _ (.refl _) (fun _ => le_rfl) id le_rfl
  shift c _ _ _ hd := .ret (.inl ⟨f c, rfl, by rw [h], rfl, hd⟩)

/-- An update that keeps the gas and the memory gas is metered. -/
theorem metered_modify {f : Ctx → Ctx} (hgas : ∀ c, (f c).gasLeft = c.gasLeft)
    (hcharged : ∀ c, (f c).state.memory.charged = c.state.memory.charged)
    (hsame : ∀ c : Ctx, ExecutionState.SameFrame keep c.state (f c).state)
    (hshift : ∀ c d, f (c.shift d) = (f c).shift d) : Metered keep A (modify f) where
  outcome c := Outcome.ok _ (hsame c) (fun _ => (hgas c).le) (fun hc => (hgas c).symm ▸ hc)
    (by rw [Ctx.funds, Ctx.funds, funds, funds, hgas, hcharged])
  shift c d _ _ hd := .ret (.inl ⟨(), rfl, rfl, hshift c d, by rw [hgas]; exact hd⟩)

/-- An allowed question is metered. -/
theorem metered_host {q : HostCall} (h : A q) : Metered keep A (host q) where
  outcome _ := ⟨h, fun r _ _ => Outcome.ok r (.refl _) (fun _ => le_rfl) id le_rfl⟩
  shift _ _ _ _ hd := .ask fun r _ => .ret (.inl ⟨r, rfl, rfl, rfl, hd⟩)

/-- Metered instructions are closed under sequential composition. -/
theorem Metered.bind {m : InstrM α} {f : α → InstrM β} (hm : Metered keep A m) (hf : ∀ a, Metered keep A (f a)) :
    Metered keep A (m >>= f) where
  outcome c := by
    refine (wp_bind _ _ _).2 (wp_mono (hm.outcome c) ?_)
    rintro ⟨a | a, c₁⟩ _ h
    · exact Outcome.error h.same h.gas_le (h.failure _ rfl)
    · exact wp_mono ((hf a).outcome c₁) fun x _ hx => h.trans hx
  shift c d K hd hle := by
    refine Sim.bind (hm.shift c d K hd hle) ?_ ?_ ?_
    · rintro ⟨x, c₁⟩ ⟨y, c₂⟩ (⟨a, rfl, rfl, rfl, hle₁⟩ | ⟨e, e', rfl, rfl, he, he'⟩)
      · exact (hf a).shift c₁ d K hd hle₁
      · exact .ret (.inr ⟨e, e', rfl, rfl, he, he'⟩)
    · rintro ⟨x, c₁⟩ (⟨a, rfl, hnonneg, hlt⟩ | ⟨e, rfl, he⟩)
      · refine wp_mono (wp_answers_of_asking ((hf a).outcome c₁)) ?_
        rintro ⟨b | b, c₂⟩ _ h
        · exact .inr ⟨b, rfl, h.failure _ rfl⟩
        · exact .inl ⟨b, rfl, h.gas_nonneg hnonneg b rfl,
            lt_of_le_of_lt (h.gas_le hnonneg) hlt⟩
      · exact .inr ⟨e, rfl, he⟩
    · rintro ⟨y, c₁⟩ ⟨e, rfl, he⟩
      exact ⟨(.error e, c₁), rfl, e, rfl, he⟩

/-- A branch is metered if both sides are. -/
theorem metered_ite {c : Prop} [Decidable c] {m m' : InstrM α} (h : Metered keep A m) (h' : Metered keep A m') :
    Metered keep A (if c then m else m') := by
  split
  · exact h
  · exact h'

/-- An optional first part. -/
theorem Metered.when {c : Prop} [Decidable c] {m : InstrM Unit} {f : Unit → InstrM α}
    (hm : Metered keep A m) (hf : ∀ u, Metered keep A (f u)) : Metered keep A (if c then m >>= f else f ()) :=
  metered_ite (hm.bind hf) (hf ())

/-- Give up all gas and return early. -/
theorem metered_abort {status : StatusCode} (h : status.IsFailure) (f : α → InstrM β) :
    Metered keep A (modify (fun c => { c with gasLeft := 0 }) >>= fun _ => exit status >>= f) where
  outcome _ := Outcome.error (.refl _) (fun hc => hc) h
  shift _ _ _ _ _ := .ret (.inr ⟨status, status, rfl, rfl, h, h⟩)

/-- A loop is metered if its body is. -/
theorem metered_mapM {γ : Type} {f : γ → InstrM α} (hf : ∀ x, Metered keep A (f x)) (xs : List γ) :
    Metered keep A (xs.mapM f) := by
  have hloop : ∀ xs acc, Metered keep A (List.mapM.loop f xs acc) := by
    intro xs
    induction xs with
    | nil => exact fun acc => metered_pure acc.reverse
    | cons x xs ih => exact fun acc => (hf x).bind fun a => ih (a :: acc)
  exact hloop xs []

/-- Popping an item is metered. -/
theorem metered_pop : Metered keep A pop where
  outcome _ := Outcome.ok _ (.refl _) (fun _ => le_rfl) id le_rfl
  shift _ _ _ _ hd := .ret (.inl ⟨_, rfl, rfl, rfl, hd⟩)

/-- Pushing an item is metered. -/
theorem metered_push (value : Word) : Metered keep A (push value) :=
  metered_modify (fun _ => rfl) (fun _ => rfl) (fun _ => .refl _) fun _ _ => rfl

/-- Reading the top item is metered. -/
theorem metered_top : Metered keep A top := metered_read fun _ _ => rfl

/-- Replacing the top item is metered. -/
theorem metered_setTop (value : Word) : Metered keep A (setTop value) :=
  metered_modify (fun _ => rfl) (fun _ => rfl) (fun _ => .refl _) fun _ _ => rfl

/-- Reading the execution state is metered. -/
theorem metered_state : Metered keep A state := metered_read fun _ _ => rfl

/-- An update of the execution state that keeps the frame and the memory gas is metered. -/
theorem metered_modifyState {f : ExecutionState → ExecutionState}
    (h : ∀ s : ExecutionState, ExecutionState.SameFrame keep s (f s))
    (hcharged : ∀ s : ExecutionState, (f s).memory.charged = s.memory.charged) :
    Metered keep A (modifyState f) :=
  metered_modify (fun _ => rfl) (fun _ => hcharged _) (fun _ => h _) fun _ _ => rfl

/-- Writing to memory is metered. -/
theorem metered_writeMemory (i : Nat) (bs : Bytes) : Metered keep A (writeMemory i bs) :=
  metered_modifyState (fun _ => ⟨rfl, rfl, rfl, fun _ => rfl, rfl⟩) fun _ => rfl

/-- A charge that is not covered ends with `ZVMC_OUT_OF_GAS`, and the gas is negative then. -/
theorem charge_of_short {cost : Int} {c : Ctx} (h : c.gasLeft - cost < 0) :
    charge cost c = .ret (.error .outOfGas, c.shift cost) := by
  simp only [charge, if_pos h, Ctx.shift]

/-- A charge that is covered is subtracted. -/
theorem charge_of_paid {cost : Int} {c : Ctx} (h : 0 ≤ c.gasLeft - cost) :
    charge cost c = .ret (.ok (), c.shift cost) := by
  simp only [charge, if_neg (not_lt.2 h), Ctx.shift]

/-- A charge subtracts a cost that is not negative, or fails. -/
theorem metered_charge {cost : Int} (hcost : 0 ≤ cost) : Metered keep A (charge cost) where
  outcome c := by
    have hle : 0 ≤ c.gasLeft → (c.shift cost).gasLeft ≤ c.gasLeft := by
      rw [Ctx.shift_gasLeft]
      omega
    by_cases h : c.gasLeft - cost < 0
    · rw [charge_of_short h]
      exact Outcome.error (.refl _) hle (by decide)
    · rw [charge_of_paid (by omega)]
      exact Outcome.ok _ (.refl _) hle (fun _ => by rw [Ctx.shift_gasLeft]; omega)
        (by rw [Ctx.shift_funds]; omega)
  shift c d K hd hle := by
    -- With `d` less gas the charge fails where it failed before, or fails now, or is paid by both.
    by_cases hboth : c.gasLeft - cost < 0
    · rw [charge_of_short hboth, charge_of_short (by rw [Ctx.shift_gasLeft]; omega)]
      exact .ret (.inr ⟨_, _, rfl, rfl, by decide, by decide⟩)
    · rw [charge_of_paid (by omega)]
      by_cases hshort : (c.shift d).gasLeft - cost < 0
      · rw [charge_of_short hshort]
        rw [Ctx.shift_gasLeft] at hshort
        exact .early (.inl ⟨(), rfl, by rw [Ctx.shift_gasLeft]; omega,
          by rw [Ctx.shift_gasLeft]; omega⟩) ⟨_, rfl, by decide⟩
      · rw [charge_of_paid (by omega)]
        rw [Ctx.shift_gasLeft] at hshort
        refine .ret (.inl ⟨(), rfl, rfl, ?_, by rw [Ctx.shift_gasLeft]; omega⟩)
        simp only [Ctx.shift, Ctx.mk.injEq, true_and, and_true]
        omega

/-! ### Memory checks -/

/-- A memory check that only ever subtracts from the gas, in the same way for every amount of
gas. -/
structure MeteredCheck (check : Int → Memory → Bool × Int × Memory) : Prop where
  gas_le : ∀ g m, (check g m).2.1 ≤ g
  gas_nonneg : ∀ g m, 0 ≤ g → (check g m).1 = true → 0 ≤ (check g m).2.1
  /-- A check that succeeds takes from the gas exactly what it charges for a growth. -/
  paid : ∀ g m, (check g m).1 = true → g - (check g m).2.1 = (check g m).2.2.charged - m.charged
  shift : ∀ g m d, 0 ≤ d → (check (g - d) m).1 = true →
    check g m = (true, (check (g - d) m).2.1 + d, (check (g - d) m).2.2)
  early : ∀ g m d, 0 ≤ d → d ≤ g → (check (g - d) m).1 = false → (check g m).1 = true →
    (check g m).2.1 < d

/-- The context after a memory check. -/
def checked (c : Ctx) (gasLeft : Int) (memory : Memory) : Ctx :=
  { c with gasLeft, state := { c.state with memory } }

/-- A memory check keeps the frame. -/
theorem sameFrame_checked (c : Ctx) (gasLeft : Int) (memory : Memory) :
    ExecutionState.SameFrame keep c.state (checked c gasLeft memory).state :=
  ⟨rfl, rfl, rfl, fun _ => rfl, rfl⟩

/-- What `require` does after a check that succeeds. -/
theorem require_of_ok {check : Int → Memory → Bool × Int × Memory} {c : Ctx} {gasLeft : Int}
    {memory : Memory} (h : check c.gasLeft c.state.memory = (true, gasLeft, memory)) :
    require check c = .ret (.ok (), checked c gasLeft memory) := by
  simp only [require, h, if_true, checked]

/-- What `require` does after a check that fails. -/
theorem require_of_fail {check : Int → Memory → Bool × Int × Memory} {c : Ctx} {gasLeft : Int}
    {memory : Memory} (h : check c.gasLeft c.state.memory = (false, gasLeft, memory)) :
    require check c = .ret (.error .outOfGas, checked c gasLeft memory) := by
  simp only [require, h, Bool.false_eq_true, if_false, checked]

/-- What is required takes from the gas exactly what its growth is charged. -/
theorem require_paid {check : Int → Memory → Bool × Int × Memory} (h : MeteredCheck check)
    {c c' : Ctx} (hrequire : require check c = .ret (.ok (), c')) :
    c.gasLeft - c'.gasLeft = c'.state.memory.charged - c.state.memory.charged := by
  have hpaid := h.paid c.gasLeft c.state.memory
  rcases hcheck : check c.gasLeft c.state.memory with ⟨_ | _, gasLeft, memory⟩ <;>
    rw [hcheck] at hpaid
  · rw [require_of_fail hcheck] at hrequire
    cases hrequire
  · rw [require_of_ok hcheck] at hrequire
    cases hrequire
    exact hpaid rfl

/-- A metered check makes a metered instruction. -/
theorem metered_require {check : Int → Memory → Bool × Int × Memory} (h : MeteredCheck check) :
    Metered keep A (require check) where
  outcome c := by
    have hle := h.gas_le c.gasLeft c.state.memory
    have hnonneg := h.gas_nonneg c.gasLeft c.state.memory
    have hpaid := h.paid c.gasLeft c.state.memory
    -- A refused check ends in a failure; a passed one has paid for what it adds.
    rcases hcheck : check c.gasLeft c.state.memory with ⟨_ | _, gasLeft, memory⟩ <;>
      rw [hcheck] at hle hnonneg hpaid
    · rw [require_of_fail hcheck]
      exact Outcome.error (sameFrame_checked _ _ _) (fun _ => hle) (by decide)
    · rw [require_of_ok hcheck]
      have hpaid : c.gasLeft - gasLeft = memory.charged - c.state.memory.charged := hpaid rfl
      exact Outcome.ok _ (sameFrame_checked _ _ _) (fun _ => hle) (fun hc => hnonneg hc rfl)
        (by simp only [Ctx.funds, funds, checked]; omega)
  shift c d K hd hle := by
    have hshift := h.shift c.gasLeft c.state.memory d hd
    have hearly := h.early c.gasLeft c.state.memory d hd hle
    have hnonneg := h.gas_nonneg c.gasLeft c.state.memory (by omega)
    have hnonneg' := h.gas_nonneg (c.gasLeft - d) c.state.memory (by omega)
    rcases hc' : check (c.gasLeft - d) c.state.memory with ⟨_ | _, gasLeft', memory'⟩ <;>
      rw [hc'] at hshift hearly hnonneg'
    · have hfail : require check (c.shift d) = .ret (.error .outOfGas, _) := require_of_fail hc'
      rw [hfail]
      rcases hc : check c.gasLeft c.state.memory with ⟨_ | _, gasLeft, memory⟩ <;>
        rw [hc] at hearly hnonneg
      · rw [require_of_fail hc]
        exact .ret (.inr ⟨_, _, rfl, rfl, by decide, by decide⟩)
      · rw [require_of_ok hc]
        exact .early (.inl ⟨(), rfl, hnonneg rfl, hearly rfl rfl⟩) ⟨_, rfl, by decide⟩
    · have hok : require check (c.shift d) = .ret (.ok (), _) := require_of_ok hc'
      have hpaid : 0 ≤ gasLeft' := hnonneg' rfl
      rw [hok, require_of_ok (hshift rfl)]
      refine .ret (.inl ⟨(), rfl, rfl, ?_, ?_⟩)
      · simp [Ctx.shift, checked]
      · simp only [checked]
        omega

/-- A check that fails. -/
theorem MeteredCheck.fail : MeteredCheck fun g m => (false, g, m) :=
  ⟨fun _ _ => le_rfl, fun _ _ _ h => (by cases h), fun _ _ h => (by cases h),
    fun _ _ _ _ h => (by cases h), fun _ _ _ _ _ _ h => (by cases h)⟩

/-- A check for free. -/
theorem MeteredCheck.free : MeteredCheck fun g m => (true, g, m) :=
  ⟨fun _ _ => le_rfl, fun _ _ h _ => h, fun _ _ _ => (by simp), fun g m d _ _ => (by simp),
    fun _ _ _ _ _ h => (by cases h)⟩

/-- A check that asks a price, and changes the memory if it is paid. -/
theorem MeteredCheck.pay {cost : Memory → Int} (hcost : ∀ m, 0 ≤ cost m)
    {next : Memory → Memory} (hnext : ∀ m, (next m).charged = m.charged + cost m) :
    MeteredCheck fun g m =>
      (decide (g - cost m ≥ 0), g - cost m, if g - cost m ≥ 0 then next m else m) := by
  -- The fields in order; what is paid is what `charged` grows by.
  refine ⟨?_, ?_, ?_, ?_, ?_⟩
  · intro g m
    have := hcost m
    dsimp only
    omega
  · intro g m _ h
    exact of_decide_eq_true h
  · intro g m h
    have hnext := hnext m
    simp only [if_pos (of_decide_eq_true h)]
    omega
  · intro g m d hd h
    have hpaid : g - d - cost m ≥ 0 := of_decide_eq_true h
    have hpaid' : g - cost m ≥ 0 := by omega
    simp only [hpaid, hpaid', decide_true, if_true, Prod.mk.injEq, true_and, and_true]
    omega
  · intro g m d _ _ h _
    have hshort : ¬ g - d - cost m ≥ 0 := of_decide_eq_false h
    dsimp only
    omega

/-- `check_memory` for a small size is metered. -/
theorem meteredCheck_small (offset : Word) (size : Nat) :
    MeteredCheck fun g m => checkMemorySmall g m offset size := by
  rw [checkMemorySmall_eq]
  split
  · exact .fail
  · exact .pay (accessCost_nonneg _) fun m => m.charged_access _

/-- `check_memory` is metered: size 0 asks for nothing, and a huge size fails. -/
theorem meteredCheck (offset size : Word) : MeteredCheck fun g m => checkMemory g m offset size := by
  unfold checkMemory
  by_cases hzero : size = 0
  · simp only [hzero, if_true]
    exact .free
  · by_cases hmax : size.toNat > maxBufferSize
    · simp only [if_neg hzero, if_pos hmax]
      exact .fail
    · simp only [if_neg hzero, if_neg hmax]
      exact meteredCheck_small offset size.toNat

/-- A required memory check is metered. -/
theorem metered_requireMemory (offset size : Word) : Metered keep A (requireMemory offset size) :=
  metered_require (meteredCheck offset size)

/-- So is one for a size known to be small. -/
theorem metered_requireMemorySmall (offset : Word) (size : Nat) :
    Metered keep A (requireMemorySmall offset size) :=
  metered_require (meteredCheck_small offset size)

end InstrM

end Zvmone
