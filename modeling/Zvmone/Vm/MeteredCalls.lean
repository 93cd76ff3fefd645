import Zvmone.Vm.MeteredCore

/-! # The instructions that call, create and write storage

For each of them a rule for weakest preconditions: up to the last charge the instruction is metered,
and from there on it is spelled out which message it sends and what it makes of the result. -/

namespace Zvmone

open Interaction InstrM Instr

namespace InstrM

variable {α β : Type} {keep : Prop} {A : HostCall → Prop} {P : Message → α → Prop}
  {cost : α → Int}

/-- A part of an instruction that is metered as far as its outcome is concerned, and yields a value
that satisfies `P` for the message of the frame and for which at least `cost` is paid. -/
def Yields (keep : Prop) (A : HostCall → Prop) (m : InstrM α) (P : Message → α → Prop)
    (cost : α → Int) : Prop :=
  ∀ c, wp (.asking Fault A) (m c) () fun x _ =>
    Outcome keep c x ∧ ∀ a, x.1 = .ok a →
      P c.state.msg a ∧ (0 ≤ c.gasLeft → x.2.gasLeft ≤ c.gasLeft - cost a) ∧
        x.2.funds ≤ c.funds - cost a

/-- A returned value that satisfies the property. -/
theorem yields_pure {a : α} (hcost : cost a ≤ 0) (h : ∀ msg, P msg a) :
    Yields keep A (pure a) P cost :=
  fun c => ⟨Outcome.ok a (.refl _) (fun _ => le_rfl) id le_rfl, fun _ ha => by
    cases ha
    exact ⟨h _, fun _ => by dsimp only; omega, by dsimp only; omega⟩⟩

/-- Nothing follows an early return. -/
theorem yields_exit_bind {status : StatusCode} (h : status.IsFailure) (f : β → InstrM α) :
    Yields keep A (exit status >>= f) P cost :=
  fun _ => ⟨Outcome.error (.refl _) (fun _ => le_rfl) h, fun _ ha => by cases ha⟩

/-- What a later part yields is yielded after a metered part. -/
theorem yields_bind {m : InstrM β} {f : β → InstrM α} (hm : Metered keep A m)
    (hf : ∀ b, Yields keep A (f b) P cost) : Yields keep A (m >>= f) P cost := by
  intro c
  refine (wp_bind _ _ _).2 (wp_mono (hm.outcome c) ?_)
  rintro ⟨e | b, c₁⟩ _ h
  · exact ⟨Outcome.error h.same h.gas_le (h.failure _ rfl), fun _ ha => by cases ha⟩
  · refine wp_mono (hf b c₁) fun x _ hx => ⟨h.trans hx.1, fun a ha => ?_⟩
    obtain ⟨hP, hcost, hfunds⟩ := hx.2 a ha
    have hle : c₁.funds ≤ c.funds := h.funds_le b rfl
    refine ⟨h.same.msg ▸ hP, fun hc => ?_, by omega⟩
    have hle : c₁.gasLeft ≤ c.gasLeft := h.gas_le hc
    have hcost := hcost (h.gas_nonneg hc b rfl)
    omega

/-- A returned value is passed on. -/
theorem yields_pure_bind {b : β} {f : β → InstrM α} (hf : Yields keep A (f b) P cost) :
    Yields keep A (pure b >>= f) P cost := hf

/-- The state that is read has the message of the frame. -/
theorem yields_state_bind {f : ExecutionState → InstrM α}
    (hf : ∀ st, Yields keep A (f st) (fun msg a => st.msg = msg → P msg a) cost) :
    Yields keep A (state >>= f) P cost :=
  fun c => wp_mono (hf c.state c) fun _ _ hx =>
    ⟨hx.1, fun a ha => ⟨(hx.2 a ha).1 rfl, (hx.2 a ha).2⟩⟩

/-- The last charge. -/
theorem yields_charge {price : Int} {a : α} (hprice : 0 ≤ price) (hcost : cost a ≤ price)
    (h : ∀ msg, P msg a) : Yields keep A (charge price >>= fun _ => pure a) P cost := by
  intro c
  have hm : Metered keep A (charge price >>= fun _ => pure a) :=
    (metered_charge hprice).bind fun _ => metered_pure a
  have houtcome := hm.outcome c
  refine wp_mono (wp_and houtcome ?_) fun x _ hx => hx
  show wp _ (charge price c >>= _) () _
  by_cases hshort : c.gasLeft - price < 0
  · rw [charge_of_short hshort]
    exact fun _ ha => by cases ha
  · rw [charge_of_paid (not_lt.1 hshort)]
    rintro _ ⟨⟩
    exact ⟨h _, fun _ => by rw [Ctx.shift_gasLeft]; omega, by rw [Ctx.shift_funds]; omega⟩

/-- A branch yields what its sides yield. -/
theorem yields_ite {c : Prop} [Decidable c] {m m' : InstrM α} (h : c → Yields keep A m P cost)
    (h' : ¬ c → Yields keep A m' P cost) : Yields keep A (if c then m else m') P cost := by
  split
  next hc => exact h hc
  next hc => exact h' hc

end InstrM

namespace Core

/-! ### Sending a message -/

/-- What call and create instructions do after their charges: unless the call stack is too deep or
the sender cannot pay the value, they send the message and make `done` of the result. -/
def sending {α : Type} (depth : Int) (sender : Address) (value : Word) (m : Message) (light : α)
    (done : CallResult → α) : HostM α :=
  if depth ≥ 1024 then .ret light
  else if value ≠ 0 then
    .ask (.getBalance sender) fun (balance : Word) =>
      if balance < value then .ret light else .ask (.call m) fun result => .ret (done result)
  else .ask (.call m) fun result => .ret (done result)

/-- The rule for sending a message. -/
theorem wp_sending {α γ : Type} {C : Contract HostCall.Answer Fault γ} {g : γ} {depth : Int}
    {sender : Address} {value : Word} {m : Message} {light : α} {done : CallResult → α}
    {Q : α → γ → Prop} (hC : C.Neutral g HostCall.IsOrdinary) (hlight : Q light g)
    (hcall : depth < 1024 → C.pre g (.call m) ∧
      ∀ r g', C.post g (.call m) r g' → Q (done r) g') :
    wp C (sending depth sender value m light done) g Q := by
  unfold sending
  split
  next => exact hlight
  next hdepth =>
    have hcall := hcall (not_le.1 hdepth)
    split
    next =>
      refine ⟨hC.pre _ trivial, fun balance g' hg' => ?_⟩
      obtain rfl := hC.post (.getBalance _) _ _ trivial hg'
      dsimp only
      split
      next => exact hlight
      next => exact hcall
    next => exact hcall

/-- The environment was asked for the balance of the sender when it came to the state `s'`, and
answered that it covers the value. Nothing is asked if there is no value. -/
def Affords {σ : Type} (env : Env HostCall.Answer Fault σ) (s' : σ) (sender : Address)
    (value : Word) : Prop :=
  value ≠ 0 → ∃ (s : σ) (balance : Word),
    env (.getBalance sender) s = .ok (balance, s') ∧ value ≤ balance

/-- Only the one message is sent, at a depth below 1024 and with a value that the sender has, and
its result is used. -/
theorem reaches_sending {α σ : Type} {env : Env HostCall.Answer Fault σ} {s s' : σ} {depth : Int}
    {sender : Address} {value : Word} {m m' : Message} {light : α} {done : CallResult → α}
    (h : Reaches env (sending depth sender value m light done) s (.call m') s') :
    depth < 1024 ∧ m' = m ∧ Affords env s' sender value ∧
      ∀ r s₂, env (.call m) s' = .ok (r, s₂) →
        run env (sending depth sender value m light done) s = .ok (done r, s₂) := by
  -- Once sent, the message is the one question that is left.
  have hsend : ∀ {s₁ : σ}, Reaches env (.ask (.call m) fun result => .ret (done result)) s₁
      (.call m') s' → m' = m ∧ s' = s₁ := by
    intro s₁ h
    rcases reaches_ask.1 h with ⟨hm, rfl⟩ | ⟨r, _, _, h⟩
    · exact ⟨HostCall.call.inj hm, rfl⟩
    · exact absurd h not_reaches_ret
  unfold sending at h ⊢
  split at h
  next => exact absurd h not_reaches_ret
  next hdepth =>
    rw [if_neg hdepth]
    refine ⟨not_le.1 hdepth, ?_⟩
    split at h
    next hvalue =>
      rw [if_pos hvalue]
      -- With a value the balance is asked for first, and it has to cover the value.
      rcases reaches_ask.1 h with ⟨hm, -⟩ | ⟨balance, s₁, hbalance, h⟩
      · cases hm
      · rw [run_ask_ok hbalance]
        split at h
        next => exact absurd h not_reaches_ret
        next hlt =>
          obtain ⟨rfl, rfl⟩ := hsend h
          exact ⟨rfl, fun _ => ⟨s, balance, hbalance, BitVec.not_lt.1 hlt⟩,
            fun r s₂ hr => by rw [if_neg hlt, run_ask_ok hr, run_ret]⟩
    next hvalue =>
      rw [if_neg hvalue]
      obtain ⟨rfl, rfl⟩ := hsend h
      exact ⟨rfl, fun h => absurd h hvalue, fun r s₂ hr => by rw [run_ask_ok hr, run_ret]⟩

/-! ### Calls -/

/-- What a call instruction of a frame makes of its operands. -/
structure CallLocals.Sound (op : CallOp) (msg : Message) (l : CallLocals) : Prop where
  kind : l.msg.kind = if op = .delegatecall then .delegatecall else .call
  flags : l.msg.flags = if op = .staticcall then staticFlag else msg.flags
  depth : l.msg.depth = msg.depth + 1
  value : l.msg.value = if op = .delegatecall then msg.value else l.value
  recipient : op ≠ .delegatecall → l.msg.recipient = l.msg.codeAddress
  noValue : op ≠ .call → l.value = 0
  static : op = .call → msg.IsStatic → l.value = 0

/-- The price of the value that a call carries. -/
def CallLocals.valueCost (l : CallLocals) : Int := if l.HasValue then 9000 else 0

/-- The last charge of a call instruction. -/
theorem yields_callTail {op : CallOp} {st : ExecutionState} {l : CallLocals} {dst : Address}
    {A : HostCall → Prop} {P : Message → CallLocals → Prop} (hexists : A (.accountExists dst))
    (hl : P st.msg l) :
    Yields False A
      (if op = .call ∧ l.value ≠ 0 then do
        let exists_ ← host (HostCall.accountExists dst)
        let newAccountCost ← pure (if exists_ then 0 else 25000)
        charge ((if l.value ≠ 0 then 9000 else 0) + newAccountCost)
        return l
      else do
        let newAccountCost ← pure 0
        charge ((if l.value ≠ 0 then 9000 else 0) + newAccountCost)
        return l)
      (fun msg l => st.msg = msg → P msg l) CallLocals.valueCost := by
  -- The last charge, with or without the price of a new account.
  have hfinal : ∀ newAccountCost : Int, 0 ≤ newAccountCost →
      Yields False A (do
        charge ((if l.value ≠ 0 then 9000 else 0) + newAccountCost)
        return l) (fun msg l => st.msg = msg → P msg l) CallLocals.valueCost := by
    intro newAccountCost hcost
    refine yields_charge ?_ ?_ fun msg hmsg => hmsg ▸ hl
    · split <;> omega
    · exact le_add_of_nonneg_right (a := l.valueCost) hcost
  refine yields_ite (fun _ => yields_bind (metered_host hexists) fun exists_ => ?_)
    fun _ => yields_pure_bind (hfinal 0 le_rfl)
  refine yields_pure_bind (hfinal _ ?_)
  split <;> decide

/-- The nested message of a call instruction without its gas, by the message of the frame. -/
def calleeMessage (op : CallOp) (msg : Message) (dst : Address) (value : Word) (input : Bytes) :
    Message where
  kind := if op = .delegatecall then .delegatecall else .call
  flags := if op = .staticcall then staticFlag else msg.flags
  depth := msg.depth + 1
  recipient := if op = .call ∨ op = .staticcall then dst else msg.recipient
  codeAddress := dst
  sender := if op = .delegatecall then msg.sender else msg.recipient
  value := if op = .delegatecall then msg.value else value
  inputData := input

/-- Up to its last charge a call instruction is metered, and what it makes of its operands satisfies
whatever holds of all operands it admits. -/
theorem yields_callCharge_of (op : CallOp) {A : HostCall → Prop}
    {P : Message → CallLocals → Prop} (haccess : ∀ addr, A (.accessAccount addr))
    (hexists : ∀ addr, A (.accountExists addr))
    (hP : ∀ (msg : Message) gas value dst outputOffset outputSize input,
      (op ≠ .call → value = 0) → (op = .call → msg.IsStatic → value = 0) →
      P msg ⟨gas, value, outputOffset, outputSize, calleeMessage op msg dst value input⟩) :
    Yields False A (callCharge op) P CallLocals.valueCost := by
  unfold callCharge
  refine yields_bind metered_pop fun gas => yields_bind metered_pop fun x => ?_
  -- Only `CALL` takes a value from the stack.
  have hnoValue : op = .staticcall ∨ op = .delegatecall ∨ op = .call := by cases op <;> simp
  refine yields_ite (fun hop => yields_pure_bind ?_) fun hop => yields_bind metered_pop fun value => ?_
  all_goals
    refine yields_bind metered_pop fun _ => yields_bind metered_pop fun _ =>
      yields_bind metered_pop fun _ => yields_bind metered_pop fun _ =>
      yields_bind (metered_push 0) fun _ => yields_bind (metered_modifyState ?_ fun _ => rfl) fun _ =>
      yields_bind (metered_accessAccount _ (haccess _)) fun _ =>
      yields_bind (metered_requireMemory _ _) fun _ =>
      yields_bind (metered_requireMemory _ _) fun _ => yields_state_bind fun st => ?_
    · exact fun _ => ⟨rfl, rfl, rfl, False.elim, rfl⟩
  · refine yields_ite (fun hcall => absurd hop (by rw [hcall]; decide)) fun hcall => ?_
    exact yields_callTail (l := ⟨gas, 0, _, _, _⟩) (hexists _)
      (hP st.msg gas 0 _ _ _ _ (fun _ => rfl) fun _ _ => rfl)
  · have hcall : op = .call := by
      rcases hnoValue with h | h | h
      · exact absurd (.inl h) hop
      · exact absurd (.inr h) hop
      · exact h
    refine yields_ite (fun _ => ?_) fun h => absurd hcall h
    refine yields_ite (fun _ => yields_exit_bind (by decide) _) fun hstatic => ?_
    refine yields_callTail (l := ⟨gas, value, _, _, _⟩) (hexists _)
      (hP st.msg gas value _ _ _ _ (fun h => absurd hcall h) fun _ hst => ?_)
    by_contra hvalue
    exact hstatic ⟨hvalue, hst⟩

/-- Up to its last charge a call instruction is metered. -/
theorem yields_callCharge (op : CallOp) {A : HostCall → Prop}
    (haccess : ∀ addr, A (.accessAccount addr)) (hexists : ∀ addr, A (.accountExists addr)) :
    Yields False A (callCharge op) (fun msg l => l.Sound op msg) CallLocals.valueCost := by
  refine yields_callCharge_of op haccess hexists fun msg _ value _ _ _ _ hnoValue hstatic =>
    ⟨rfl, rfl, rfl, rfl, fun h => ?_, hnoValue, hstatic⟩
  cases op with
  | delegatecall => exact absurd rfl h
  | call | staticcall => rfl

/-- A call instruction of a frame in the context `c` has made all its charges. -/
structure Charged (op : CallOp) (c : Ctx) (l : CallLocals) (c' : Ctx) : Prop where
  outcome : Outcome False c ((.ok l, c') : Except StatusCode CallLocals × Ctx)
  sound : l.Sound op c.state.msg
  paid : 0 ≤ c.gasLeft → c'.gasLeft ≤ c.gasLeft - l.valueCost
  funds_le : c'.funds ≤ c.funds - l.valueCost

/-- The gas a call instruction passes on, of the gas `g` it has left. -/
def passedGas (l : CallLocals) (g : Int) : Int := min (min (l.gas.toNat : Int) int64Max) (g - g / 64)

/-- The stipend of a call with a value. -/
def stipend (l : CallLocals) : Int := if l.HasValue then 2300 else 0

/-- The message a call instruction sends. -/
def callMessage (l : CallLocals) (g : Int) : Message :=
  { l.msg with gas := passedGas l g + stipend l }

/-- The context when the message is sent, or the call fails without sending it. -/
def beforeCall (l : CallLocals) (c : Ctx) : Ctx := { c with gasLeft := c.gasLeft + stipend l }

/-- The memory after the output of the callee is copied. -/
def memoryAfterCall (l : CallLocals) (memory : Memory) (result : CallResult) : Memory :=
  let copySize := min l.outputSize result.outputData.length
  if copySize > 0 then memory.write l.outputOffset (result.outputData.take copySize) else memory

/-- Writing the output of a callee is not charged. -/
@[simp] theorem charged_memoryAfterCall (l : CallLocals) (memory : Memory) (result : CallResult) :
    (memoryAfterCall l memory result).charged = memory.charged := by
  unfold memoryAfterCall
  dsimp only
  split <;> rfl

/-- The context after the callee returned. -/
def afterCall (l : CallLocals) (c : Ctx) (result : CallResult) : Ctx where
  stack := c.stack.set 0 (.ofBool (result.statusCode = .success))
  gasLeft := c.gasLeft + stipend l - ((callMessage l c.gasLeft).gas - result.gasLeft)
  state := { c.state with
    returnData := result.outputData
    memory := memoryAfterCall l c.state.memory result
    gasRefund := c.state.gasRefund + result.gasRefund }

/-- The context after a call. -/
theorem callReturn_eq (l : CallLocals) (c : Ctx) (result : CallResult) :
    callReturn l (callMessage l c.gasLeft) result (beforeCall l c)
      = .ret (.ok (), afterCall l c result) := by
  unfold callReturn
  by_cases hcopy : min l.outputSize result.outputData.length > 0
  · simp only [if_pos hcopy, afterCall, memoryAfterCall]
    rfl
  · simp only [if_neg hcopy, afterCall, memoryAfterCall]
    rfl

/-- A call instruction after its last charge, spelled out. -/
theorem callSend_eq (l : CallLocals) (c : Ctx) :
    callSend l c = sending c.state.msg.depth c.state.msg.recipient l.value
      (callMessage l c.gasLeft) (.ok (), beforeCall l c)
      fun result => (.ok (), afterCall l c result) := by
  -- Sending a message and taking its result in is one question with one continuation.
  have hsend : (host (.call (callMessage l c.gasLeft)) >>= callReturn l (callMessage l c.gasLeft))
      (beforeCall l c) = .ask (.call (callMessage l c.gasLeft)) fun result =>
        .ret (.ok (), afterCall l c result) :=
    congrArg (Interaction.ask _) (funext fun result => callReturn_eq l c result)
  have hunfold : callSend l c =
      (if c.state.msg.depth ≥ 1024 then pure ()
      else if l.value ≠ 0 then
        host (.getBalance c.state.msg.recipient) >>= fun (balance : Word) =>
          if balance < l.value then pure ()
          else host (.call (callMessage l c.gasLeft)) >>= callReturn l (callMessage l c.gasLeft)
      else host (.call (callMessage l c.gasLeft)) >>= callReturn l (callMessage l c.gasLeft) :
        InstrM Unit) (beforeCall l c) := rfl
  rw [hunfold, sending, ← hsend]
  split
  · rfl
  · split
    · refine congrArg (Interaction.ask _) (funext fun (balance : Word) => ?_)
      show (if balance < l.value then pure () else _ : InstrM Unit) (beforeCall l c) = _
      split <;> rfl
    · rfl

/-! ### Creations -/

/-- What a create instruction of a frame makes of its operands. -/
structure CreateLocals.Sound (msg : Message) (l : CreateLocals) : Prop where
  static : ¬ msg.IsStatic
  initCode : l.initCode.length ≤ 0xC000

/-- Up to its last charge a create instruction is metered. -/
theorem yields_createCharge (op : CreateOp) {A : HostCall → Prop} :
    Yields False A (createCharge op) (fun msg l => l.Sound msg) fun _ => 0 := by
  unfold createCharge
  refine yields_state_bind fun st => yields_ite (fun _ => yields_exit_bind (by decide) _)
    fun hstatic => yields_bind metered_pop fun endowment => yields_bind metered_pop fun _ =>
      yields_bind metered_pop fun size => ?_
  refine yields_ite (fun _ => yields_bind metered_pop fun salt => ?_)
    fun _ => yields_bind (metered_pure 0) fun salt => ?_
  all_goals
    refine yields_bind (metered_push 0) fun _ => yields_bind (metered_modifyState ?_ fun _ => rfl) fun _ =>
      yields_bind (metered_requireMemory _ _) fun _ =>
      yields_ite (fun _ => yields_exit_bind (by decide) _) fun hsize =>
      yields_bind (metered_charge ?_) fun _ => yields_bind metered_state fun _ =>
      yields_pure le_rfl fun msg hmsg => ⟨hmsg ▸ hstatic, ?_⟩
    · exact fun _ => ⟨rfl, rfl, rfl, False.elim, rfl⟩
    · exact Int.mul_nonneg (numWords_nonneg _) (by split <;> decide)
    · dsimp only
      split
      · rw [Memory.length_slice]
        omega
      · exact Nat.zero_le _

/-- The message a create instruction of the frame sends. -/
def createMessage (op : CreateOp) (l : CreateLocals) (c : Ctx) : Message where
  gas := c.gasLeft - c.gasLeft / 64
  kind := if op = .create then .create else .create2
  inputData := l.initCode
  sender := c.state.msg.recipient
  depth := c.state.msg.depth + 1
  create2Salt := l.salt
  value := l.endowment

/-- The context after the creation returned. -/
def afterCreate (op : CreateOp) (l : CreateLocals) (c : Ctx) (result : CallResult) : Ctx where
  stack := if result.statusCode = .success then c.stack.set 0 result.createAddress.toWord
    else c.stack
  gasLeft := c.gasLeft - ((createMessage op l c).gas - result.gasLeft)
  state := { c.state with
    gasRefund := c.state.gasRefund + result.gasRefund
    returnData := result.outputData }

/-- The context after a creation. -/
theorem createReturn_eq (op : CreateOp) (l : CreateLocals) (c : Ctx) (result : CallResult) :
    createReturn (createMessage op l c) result c = .ret (.ok (), afterCreate op l c result) := by
  unfold createReturn
  by_cases hsuccess : result.statusCode = .success
  · simp only [if_pos hsuccess, afterCreate]
    rfl
  · simp only [if_neg hsuccess, afterCreate]
    rfl

/-- A create instruction after its last charge, spelled out. -/
theorem createSend_eq (op : CreateOp) (l : CreateLocals) (c : Ctx) :
    createSend op l c = sending c.state.msg.depth c.state.msg.recipient l.endowment
      (createMessage op l c) (.ok (), c) fun result => (.ok (), afterCreate op l c result) := by
  have hsend : (host (.call (createMessage op l c)) >>= createReturn (createMessage op l c)) c
      = .ask (.call (createMessage op l c)) fun result => .ret (.ok (), afterCreate op l c result) :=
    congrArg (Interaction.ask _) (funext fun result => createReturn_eq op l c result)
  rw [sending, ← hsend]
  unfold createSend
  show (if c.state.msg.depth ≥ 1024 then pure () else _ : InstrM Unit) c = _
  split
  · rfl
  · split
    · refine congrArg (Interaction.ask _) (funext fun (balance : Word) => ?_)
      show (if balance < l.endowment then pure () else _ : InstrM Unit) c = _
      split <;> rfl
    · rfl

/-! ### Storage writes -/

/-- The price of a storage write. -/
def sstorePrice (access : AccessStatus) (status : StorageStatus) : Int :=
  (sstoreCosts status).gasCost + if access = .cold then coldSloadCost else 0

/-- A storage write costs something. -/
theorem sstorePrice_pos (access : AccessStatus) (status : StorageStatus) :
    0 < sstorePrice access status := by
  cases access <;> cases status <;> decide

/-- The context before the price of a storage write is charged. -/
def beforeSstore (c : Ctx) : Ctx := { c with stack := c.stack.pop.2.pop.2 }

/-- The context after a storage write. -/
def afterSstore (c : Ctx) (access : AccessStatus) (status : StorageStatus) : Ctx :=
  let c := (beforeSstore c).shift (sstorePrice access status)
  { c with state := { c.state with
      gasRefund := c.state.gasRefund + (sstoreCosts status).gasRefund } }

/-- `SSTORE`, spelled out. -/
theorem sstore_eq (c : Ctx) :
    sstore c =
      if c.state.InStaticMode then .ret (.error .staticModeViolation, c)
      else if c.gasLeft ≤ 2300 then .ret (.error .outOfGas, c)
      else
        .ask (.accessStorage c.state.msg.recipient (c.stack.get 0)) fun access =>
          .ask (.setStorage c.state.msg.recipient (c.stack.get 0) (c.stack.pop.2.get 0))
            fun status =>
              if c.gasLeft - sstorePrice access status < 0 then
                .ret (.error .outOfGas, (beforeSstore c).shift (sstorePrice access status))
              else .ret (.ok (), afterSstore c access status) := by
  unfold sstore
  show (if c.state.InStaticMode then _ else _ : InstrM Unit) c = _
  split
  · rfl
  · show (if c.gasLeft ≤ 2300 then _ else _ : InstrM Unit) c = _
    split
    · rfl
    -- Both questions are asked before the charge, which depends on their answers.
    · refine congrArg (Interaction.ask _) (funext fun access => ?_)
      refine congrArg (Interaction.ask _) (funext fun status => ?_)
      show (charge (sstorePrice access status) >>= fun _ => _ : InstrM Unit) (beforeSstore c) = _
      by_cases hshort : c.gasLeft - sstorePrice access status < 0
      · have hcharge := charge_of_short (c := beforeSstore c) hshort
        rw [if_pos hshort]
        show charge (sstorePrice access status) (beforeSstore c) >>= _ = _
        rw [hcharge]
        rfl
      · have hcharge := charge_of_paid (c := beforeSstore c) (not_lt.1 hshort)
        rw [if_neg hshort]
        show charge (sstorePrice access status) (beforeSstore c) >>= _ = _
        rw [hcharge]
        rfl

/-! ### Rules for weakest preconditions -/

section rules

variable {γ : Type} {C : Contract HostCall.Answer Fault γ} {g : γ} {c : Ctx}
  {Q : Except StatusCode Unit × Ctx → γ → Prop}

/-- The rule for call instructions. -/
theorem wp_callImpl (hC : C.Neutral g HostCall.IsOrdinary) {op : CallOp}
    (herror : ∀ e c', Outcome False c ((.error e, c') : Except StatusCode CallLocals × Ctx) →
      Q (.error e, c') g)
    (hlight : ∀ l c', Charged op c l c' → Q (.ok (), beforeCall l c') g)
    (hcall : ∀ l c', Charged op c l c' → c'.state.msg.depth < 1024 →
      C.pre g (.call (callMessage l c'.gasLeft)) ∧
        ∀ r g', C.post g (.call (callMessage l c'.gasLeft)) r g' →
          Q (.ok (), afterCall l c' r) g') :
    wp C (callImpl op c) g Q := by
  have hcharge := wp_of_asking hC
    (yields_callCharge (A := HostCall.IsOrdinary) op (fun _ => trivial) (fun _ => trivial) c)
  refine (wp_bind _ _ _).2 (wp_mono hcharge ?_)
  rintro ⟨e | l, c'⟩ _ ⟨rfl, houtcome, hl⟩
  · exact herror e c' houtcome
  · have hl : Charged op c l c' := ⟨houtcome, (hl l rfl).1, (hl l rfl).2.1, (hl l rfl).2.2⟩
    show wp C (callSend l c') _ Q
    rw [callSend_eq]
    exact wp_sending hC (hlight l c' hl) (hcall l c' hl)

/-- The rule for create instructions. -/
theorem wp_createImpl (hC : C.Neutral g HostCall.IsOrdinary) {op : CreateOp}
    (herror : ∀ e c', Outcome False c ((.error e, c') : Except StatusCode CreateLocals × Ctx) →
      Q (.error e, c') g)
    (hlight : ∀ l c', Outcome False c ((.ok l, c') : Except StatusCode CreateLocals × Ctx) →
      l.Sound c.state.msg → Q (.ok (), c') g)
    (hcall : ∀ l c', Outcome False c ((.ok l, c') : Except StatusCode CreateLocals × Ctx) →
      l.Sound c.state.msg → c'.state.msg.depth < 1024 →
        C.pre g (.call (createMessage op l c')) ∧
        ∀ r g', C.post g (.call (createMessage op l c')) r g' →
          Q (.ok (), afterCreate op l c' r) g') :
    wp C (createImpl op c) g Q := by
  have hcharge := wp_of_asking hC (yields_createCharge (A := HostCall.IsOrdinary) op c)
  refine (wp_bind _ _ _).2 (wp_mono hcharge ?_)
  rintro ⟨e | l, c'⟩ _ ⟨rfl, houtcome, hl⟩
  · exact herror e c' houtcome
  · have hl : l.Sound c.state.msg := (hl l rfl).1
    show wp C (createSend op l c') _ Q
    rw [createSend_eq]
    exact wp_sending hC (hlight l c' houtcome hl) (hcall l c' houtcome hl)

/-- The rule for `SSTORE`. -/
theorem wp_sstore (hC : C.Neutral g HostCall.IsOrdinary)
    (herror : ∀ e, e.IsFailure → Q (.error e, c) g)
    (hset : ∀ access, ¬ c.state.InStaticMode → 2300 < c.gasLeft →
      C.pre g (.setStorage c.state.msg.recipient (c.stack.get 0) (c.stack.pop.2.get 0)) ∧
        ∀ status g',
          C.post g (.setStorage c.state.msg.recipient (c.stack.get 0) (c.stack.pop.2.get 0))
            status g' →
          if c.gasLeft - sstorePrice access status < 0 then
            Q (.error .outOfGas, (beforeSstore c).shift (sstorePrice access status)) g'
          else Q (.ok (), afterSstore c access status) g') :
    wp C (sstore c) g Q := by
  rw [sstore_eq]
  split
  next => exact herror _ (by decide)
  next hstatic =>
    split
    next => exact herror _ (by decide)
    next hgas =>
      -- The access leaves the ghost as it is; the store is what the contract is about.
      refine ⟨hC.pre _ trivial, fun access g₁ hg₁ => ?_⟩
      obtain rfl := hC.post (.accessStorage _ _) _ _ trivial hg₁
      obtain ⟨hpre, hpost⟩ := hset access hstatic (not_le.1 hgas)
      refine ⟨hpre, fun status g' hg' => ?_⟩
      have hq := hpost status g' hg'
      dsimp only
      split at hq
      next hshort => rw [if_pos hshort]; exact hq
      next hshort => rw [if_neg hshort]; exact hq

end rules

end Core

end Zvmone
