import Zvmone.Vm.BaselineRuns
import Zvmone.Vm.AdvancedSteps

/-! # The return data and the output of a frame

Only call and create instructions change the return data, and first they clear it (`Clears`). Only
`RETURN` and `REVERT` set the output, so an execution that failed has none
(`Baseline.execute_failed_output`, `Advanced.execute_failed_output`). -/

namespace Zvmone

open Interaction

/-- The return data and the size of the output. -/
def ExecutionState.buffers (s : ExecutionState) : Bytes × Nat := (s.returnData, s.outputSize)

namespace InstrM

variable {α β : Type} {p : InstrM α} {f : α → InstrM β}

/-- The instruction leaves the return data and the output alone, however it ends. -/
def Leaves (p : InstrM α) : Prop := ∀ c, (p c).Returns fun x => x.2.state.buffers = c.state.buffers

/-- A returned value leaves the buffers alone. -/
theorem leaves_pure (a : α) : Leaves (pure a) := fun _ => rfl

/-- Stopping with a status leaves the buffers alone. -/
theorem leaves_exit (status : StatusCode) : Leaves (exit status : InstrM α) := fun _ => rfl

/-- Give up all gas and return early. -/
theorem leaves_abort (status : StatusCode) (f : α → InstrM β) :
    Leaves (modify (fun c => { c with gasLeft := 0 }) >>= fun _ => exit status >>= f) :=
  fun _ => rfl

/-- Reading from the context leaves the buffers alone. -/
theorem leaves_read (g : Ctx → α) : Leaves (read g) := fun _ => rfl

/-- An update of the context that keeps the buffers leaves them alone. -/
theorem leaves_modify {g : Ctx → Ctx} (h : ∀ c, (g c).state.buffers = c.state.buffers) :
    Leaves (modify g) := h

/-- Asking the host leaves the buffers alone, since the answer comes back as a value. -/
theorem leaves_host (q : HostCall) : Leaves (host q) := fun _ _ => rfl

/-- Leaving the buffers alone composes. -/
theorem Leaves.bind (hp : Leaves p) (hf : ∀ a, Leaves (f a)) : Leaves (p >>= f) := by
  intro c
  refine (hp c).seq ?_
  rintro ⟨e | a, c'⟩ h
  · exact h
  · exact (hf a c').imp fun _ h' => h'.trans h

/-- A branch leaves the buffers alone if both sides do. -/
theorem leaves_ite {c : Prop} [Decidable c] {q : InstrM α} (hp : Leaves p) (hq : Leaves q) :
    Leaves (if c then p else q) := by
  split
  · exact hp
  · exact hq

/-- An optional first part. -/
theorem Leaves.when {c : Prop} [Decidable c] {p : InstrM Unit} {f : Unit → InstrM β}
    (hp : Leaves p) (hf : ∀ u, Leaves (f u)) : Leaves (if c then p >>= f else f ()) :=
  leaves_ite (hp.bind hf) (hf ())

/-- Popping an item leaves the buffers alone. -/
theorem leaves_pop : Leaves pop := fun _ => rfl

/-- Pushing an item leaves the buffers alone. -/
theorem leaves_push (v : Word) : Leaves (push v) := leaves_modify fun _ => rfl

/-- Reading the top item leaves the buffers alone. -/
theorem leaves_top : Leaves top := leaves_read _

/-- Replacing the top item leaves the buffers alone. -/
theorem leaves_setTop (v : Word) : Leaves (setTop v) := leaves_modify fun _ => rfl

/-- Reading the execution state leaves the buffers alone. -/
theorem leaves_state : Leaves state := leaves_read _

/-- An update of the execution state that keeps the buffers leaves them alone. -/
theorem leaves_modifyState {g : ExecutionState → ExecutionState}
    (h : ∀ s, (g s).buffers = s.buffers) : Leaves (modifyState g) := leaves_modify fun _ => h _

/-- Writing to memory leaves the buffers alone. -/
theorem leaves_writeMemory (i : Nat) (bs : Bytes) : Leaves (writeMemory i bs) :=
  leaves_modifyState fun _ => rfl

/-- Charging gas leaves the buffers alone, also when the gas runs out. -/
theorem leaves_charge (cost : Int) : Leaves (charge cost) := by
  intro c
  unfold charge
  dsimp only
  split <;> exact rfl

/-- A memory check leaves the buffers alone. -/
theorem leaves_require (check : Int → Memory → Bool × Int × Memory) : Leaves (require check) := by
  intro c
  unfold require
  dsimp only
  split <;> exact rfl

/-- A loop leaves the buffers alone if its body does. -/
theorem leaves_mapM {γ : Type} {g : γ → InstrM α} (hg : ∀ x, Leaves (g x)) (xs : List γ) :
    Leaves (xs.mapM g) := by
  have hloop : ∀ xs acc, Leaves (List.mapM.loop g xs acc) := by
    intro xs
    induction xs with
    | nil => exact fun acc => leaves_pure acc.reverse
    | cons x xs ih => exact fun acc => (hg x).bind fun a => ih (a :: acc)
  exact hloop xs []

/-- Unless it fails, the instruction clears the return data, and it leaves the output alone. -/
def Clears (p : InstrM α) : Prop :=
  ∀ c, (p c).Returns fun x => x.2.state.outputSize = c.state.outputSize ∧
    ∀ a, x.1 = .ok a → x.2.state.returnData = []

/-- What follows an early end is not run, so nothing needs to be cleared. -/
theorem clears_exit_bind (status : StatusCode) : Clears (exit status >>= f) :=
  fun _ => ⟨rfl, fun _ h => by cases h⟩

/-- What leaves the buffers alone may come before the clearing. -/
theorem Clears.after (hp : Leaves p) (hf : ∀ a, Clears (f a)) : Clears (p >>= f) := by
  intro c
  refine (hp c).seq ?_
  rintro ⟨e | a, c'⟩ h
  · exact ⟨congrArg Prod.snd h, fun _ h => by cases h⟩
  · exact (hf a c').imp fun _ h' => ⟨h'.1.trans (congrArg Prod.snd h), h'.2⟩

/-- The return data that is cleared stays so. -/
theorem clears_modifyState {g : ExecutionState → ExecutionState} {f : Unit → InstrM β}
    (hg : ∀ s, (g s).buffers = ([], s.outputSize)) (hf : Leaves (f ())) :
    Clears (modifyState g >>= f) :=
  fun c => (hf { c with state := g c.state }).imp fun _ h =>
    ⟨congrArg Prod.snd (h.trans (hg c.state)),
      fun _ _ => congrArg Prod.fst (h.trans (hg c.state))⟩

/-- A branch clears the return data if both sides do, each under its condition. -/
theorem clears_ite {c : Prop} [Decidable c] {q : InstrM α} (hp : c → Clears p) (hq : ¬ c → Clears q) :
    Clears (if c then p else q) := by
  split
  next h => exact hp h
  next h => exact hq h

end InstrM

/-! ### The core implementations -/

namespace Core

open InstrM

/-- `EXP` leaves the buffers alone. -/
theorem leaves_exp : Leaves exp :=
  leaves_pop.bind fun _ => leaves_top.bind fun _ => (leaves_charge _).bind fun _ => leaves_setTop _

/-- `KECCAK256` leaves the buffers alone. -/
theorem leaves_keccak256 [Ethash] : Leaves keccak256 :=
  leaves_pop.bind fun _ => leaves_top.bind fun _ => (leaves_require _).bind fun _ =>
    (leaves_charge _).bind fun _ => leaves_state.bind fun _ => leaves_setTop _

/-- The cold account charge leaves the buffers alone. -/
theorem leaves_accessAccount (addr : Address) : Leaves (accessAccount addr) :=
  (leaves_host _).bind fun _ => leaves_ite (leaves_charge _) (leaves_pure ())

/-- The account queries leave the buffers alone. -/
theorem leaves_accountQuery (query : Address → HostCall)
    (value : ∀ addr, (query addr).Answer → Word) : Leaves (accountQuery query value) :=
  leaves_top.bind fun _ => (leaves_accessAccount _).bind fun _ => (leaves_host _).bind fun _ =>
    leaves_setTop _

/-- `CALLDATACOPY` and `CODECOPY` leave the buffers alone. -/
theorem leaves_copy (buffer : ExecutionState → Bytes) : Leaves (copy buffer) :=
  leaves_pop.bind fun _ => leaves_pop.bind fun _ => leaves_pop.bind fun _ =>
    (leaves_require _).bind fun _ => leaves_state.bind fun _ => (leaves_charge _).bind fun _ =>
      (leaves_writeMemory _ _).when fun _ => leaves_ite (leaves_writeMemory _ _) (leaves_pure ())

/-- `EXTCODECOPY` leaves the buffers alone. -/
theorem leaves_extcodecopy : Leaves extcodecopy :=
  leaves_pop.bind fun _ => leaves_pop.bind fun _ => leaves_pop.bind fun _ => leaves_pop.bind fun _ =>
    (leaves_require _).bind fun _ => (leaves_charge _).bind fun _ =>
      (leaves_accessAccount _).bind fun _ => leaves_ite
        ((leaves_host _).bind fun _ => (leaves_writeMemory _ _).bind fun _ =>
          leaves_ite (leaves_writeMemory _ _) (leaves_pure ()))
        (leaves_pure ())

/-- `RETURNDATACOPY` reads the return data and leaves it alone. -/
theorem leaves_returndatacopy : Leaves returndatacopy :=
  leaves_pop.bind fun _ => leaves_pop.bind fun _ => leaves_pop.bind fun _ =>
    (leaves_require _).bind fun _ => leaves_state.bind fun _ => (leaves_exit _).when fun _ =>
      (leaves_exit _).when fun _ => (leaves_charge _).bind fun _ =>
        leaves_ite (leaves_writeMemory _ _) (leaves_pure ())

/-- `MLOAD` leaves the buffers alone. -/
theorem leaves_mload : Leaves mload :=
  leaves_top.bind fun _ => (leaves_require _).bind fun _ => leaves_state.bind fun _ =>
    leaves_setTop _

/-- `MSTORE` leaves the buffers alone. -/
theorem leaves_mstore : Leaves mstore :=
  leaves_pop.bind fun _ => leaves_pop.bind fun _ => (leaves_require _).bind fun _ =>
    leaves_writeMemory _ _

/-- `MSTORE8` leaves the buffers alone. -/
theorem leaves_mstore8 : Leaves mstore8 :=
  leaves_pop.bind fun _ => leaves_pop.bind fun _ => (leaves_require _).bind fun _ =>
    leaves_writeMemory _ _

/-- `SLOAD` leaves the buffers alone. -/
theorem leaves_sload : Leaves sload :=
  leaves_top.bind fun _ => leaves_state.bind fun _ => (leaves_host _).bind fun _ =>
    (leaves_charge _).when fun _ => (leaves_host _).bind fun _ => leaves_setTop _

/-- `SSTORE` leaves the buffers alone. -/
theorem leaves_sstore : Leaves sstore :=
  leaves_state.bind fun _ => (leaves_exit _).when fun _ => (leaves_read _).bind fun _ =>
    (leaves_exit _).when fun _ => leaves_pop.bind fun _ => leaves_pop.bind fun _ =>
      leaves_state.bind fun _ => (leaves_host _).bind fun _ => (leaves_host _).bind fun _ =>
        (leaves_charge _).bind fun _ => leaves_modifyState fun _ => rfl

/-- `GAS` leaves the buffers alone. -/
theorem leaves_gas : Leaves gas := (leaves_read _).bind fun _ => leaves_push _

/-- `LOG` leaves the buffers alone. -/
theorem leaves_log (n : Nat) : Leaves (log n) :=
  leaves_state.bind fun _ => leaves_ite (leaves_abort _ _)
    (leaves_pop.bind fun _ => leaves_pop.bind fun _ => (leaves_require _).bind fun _ =>
      (leaves_charge _).bind fun _ => (leaves_mapM (fun _ => leaves_pop) _).bind fun _ =>
        leaves_state.bind fun _ => leaves_host _)

/-- An instruction that ends a frame leaves the return data and the output alone if it fails. -/
def LeavesOnFailure (p : InstrM StatusCode) : Prop :=
  ∀ c, (p c).Returns fun x =>
    (∀ e, x.1 = .error e → x.2.state.buffers = c.state.buffers) ∧
      ∀ status, x.1 = .ok status → status.IsFailure → x.2.state.buffers = c.state.buffers

/-- `STOP` and `INVALID` set no output. -/
theorem leavesOnFailure_stopImpl (status : StatusCode) : LeavesOnFailure (stopImpl status) :=
  fun _ => ⟨fun _ _ => rfl, fun _ _ _ => rfl⟩

/-- What leaves the buffers alone may come before a terminating implementation. -/
theorem LeavesOnFailure.after {α : Type} {p : InstrM α} {f : α → InstrM StatusCode}
    (hp : Leaves p) (hf : ∀ a, LeavesOnFailure (f a)) : LeavesOnFailure (p >>= f) := by
  intro c
  refine (hp c).seq ?_
  rintro ⟨e | a, c'⟩ h
  · exact ⟨fun _ _ => h, fun _ h => by cases h⟩
  · exact (hf a c').imp fun x h' =>
      ⟨fun e he => (h'.1 e he).trans h, fun status hs hfail => (h'.2 status hs hfail).trans h⟩

/-- The output is set once nothing can fail any more. -/
theorem leavesOnFailure_returnImpl {status : StatusCode} (h : ¬ status.IsFailure) :
    LeavesOnFailure (returnImpl status) := by
  refine .after (leaves_read _) fun offset => .after (leaves_read _) fun size =>
    .after (leaves_require _) fun _ c => ?_
  have hend : ∀ c' : Ctx, (∀ e, (.ok status : Except StatusCode StatusCode) = .error e →
      c'.state.buffers = c.state.buffers) ∧ ∀ status', (.ok status : Except StatusCode StatusCode)
        = .ok status' → status'.IsFailure → c'.state.buffers = c.state.buffers :=
    fun _ => ⟨fun _ he => (by cases he), fun _ hs hfail => absurd hfail (by cases hs; exact h)⟩
  by_cases hsize : size.toSize ≠ 0
  · simp only [if_pos hsize]
    exact hend _
  · simp only [if_neg hsize]
    exact hend _

/-! ### Calls and creations -/

/-- The charge for a new account at the end of `call_impl` leaves the buffers alone. -/
theorem leaves_callTail {cost : Int} {l : CallLocals} {c : Prop} [Decidable c] {dst : Address} :
    Leaves (if c then do
        let exists_ ← host (HostCall.accountExists dst)
        let newAccountCost ← pure (if exists_ then 0 else 25000)
        charge (cost + newAccountCost)
        return l
      else do
        let newAccountCost ← pure 0
        charge (cost + newAccountCost)
        return l) :=
  leaves_ite
    ((leaves_host _).bind fun _ => (leaves_pure _).bind fun _ => (leaves_charge _).bind fun _ =>
      leaves_pure l)
    ((leaves_pure _).bind fun _ => (leaves_charge _).bind fun _ => leaves_pure l)

/-- A call instruction clears the return data right after its pops. -/
theorem clears_callCharge (op : CallOp) : Clears (callCharge op) := by
  unfold callCharge
  refine .after leaves_pop fun _ => .after leaves_pop fun _ => ?_
  refine clears_ite (fun _ => .after (leaves_pure 0) fun _ => ?_) fun _ => .after leaves_pop fun _ => ?_
  all_goals
    refine .after leaves_pop fun _ => .after leaves_pop fun _ => .after leaves_pop fun _ =>
      .after leaves_pop fun _ => .after (leaves_push 0) fun _ => clears_modifyState (fun _ => rfl) ?_
    refine (leaves_accessAccount _).bind fun _ => (leaves_require _).bind fun _ =>
      (leaves_require _).bind fun _ => leaves_state.bind fun _ => leaves_ite ?_ leaves_callTail
    exact (leaves_exit _).when fun _ => leaves_callTail

/-- A create instruction clears the return data, unless it fails in static mode before. -/
theorem clears_createCharge (op : CreateOp) : Clears (createCharge op) := by
  unfold createCharge
  refine .after leaves_state fun _ => clears_ite (fun _ => clears_exit_bind _) fun _ => ?_
  refine .after leaves_pop fun _ => .after leaves_pop fun _ => .after leaves_pop fun _ => ?_
  refine clears_ite (fun _ => .after leaves_pop fun _ => ?_) fun _ => .after (leaves_pure 0) fun _ => ?_
  all_goals
    refine .after (leaves_push 0) fun _ => clears_modifyState (fun _ => rfl) ?_
    exact (leaves_require _).bind fun _ => (leaves_exit _).when fun _ => (leaves_charge _).bind fun _ =>
      leaves_state.bind fun _ => leaves_pure _

/-- Sending a message leaves the output alone. -/
theorem sending_outputSize {depth : Int} {sender : Address} {value : Word} {m : Message}
    {light : Except StatusCode Unit × Ctx} {done : CallResult → Except StatusCode Unit × Ctx}
    {size : Nat} (hlight : light.2.state.outputSize = size)
    (hdone : ∀ r, (done r).2.state.outputSize = size) :
    (sending depth sender value m light done).Returns fun x => x.2.state.outputSize = size := by
  unfold sending
  split
  · exact hlight
  · split
    · intro balance
      dsimp only
      split
      · exact hlight
      · exact hdone
    · exact hdone

/-- A call instruction does not touch the output of its own frame. -/
theorem callImpl_outputSize (op : CallOp) (c : Ctx) :
    (callImpl op c).Returns fun x => x.2.state.outputSize = c.state.outputSize := by
  refine (clears_callCharge op c).seq ?_
  rintro ⟨e | l, c'⟩ ⟨hsize, -⟩
  · exact hsize
  · show (callSend l c').Returns _
    rw [callSend_eq]
    exact sending_outputSize hsize fun _ => hsize

/-- A create instruction does not touch the output of its own frame. -/
theorem createImpl_outputSize (op : CreateOp) (c : Ctx) :
    (createImpl op c).Returns fun x => x.2.state.outputSize = c.state.outputSize := by
  refine (clears_createCharge op c).seq ?_
  rintro ⟨e | l, c'⟩ ⟨hsize, -⟩
  · exact hsize
  · show (createSend op l c').Returns _
    rw [createSend_eq]
    exact sending_outputSize hsize fun _ => hsize

/-! ### All core implementations -/

/-- Fetching the transaction context fills only the place where it is kept. -/
theorem getTxContext_buffers (st : ExecutionState) :
    st.getTxContext.Returns fun x => x.2.buffers = st.buffers := by
  unfold ExecutionState.getTxContext
  split
  · exact fun _ => rfl
  · exact rfl

/-- The opcodes of call and create instructions. -/
def IsCallLike (op : Opcode) : Prop :=
  (∃ cop : CallOp, op = cop.opcode) ∨ ∃ cop : CreateOp, op = cop.opcode

/-- A core implementation, whatever its shape, that leaves the return data and the output alone,
unless it ends the frame with success or reverts. -/
def LeavesFn : CoreFn → Prop
  | .stack _ => True
  | .state f => ∀ stack st, (f stack st).Returns fun x => x.2.buffers = st.buffers
  | .result p => Leaves p
  | .term p => LeavesOnFailure p
  | .pos => True

/-- Every instruction other than the calls and creations leaves the buffers alone. -/
theorem leaves_coreImpl [Ethash] {op : Opcode} (h : ¬ IsCallLike op) : LeavesFn (coreImpl op) := by
  cases op with
  | stop | invalid => exact leavesOnFailure_stopImpl _
  | return_ | revert => exact leavesOnFailure_returnImpl (by decide)
  | exp => exact leaves_exp
  | keccak256 => exact leaves_keccak256
  | balance | extcodesize | extcodehash => exact leaves_accountQuery _ _
  | calldatacopy | codecopy => exact leaves_copy _
  | extcodecopy => exact leaves_extcodecopy
  | returndatacopy => exact leaves_returndatacopy
  | mload => exact leaves_mload
  | mstore => exact leaves_mstore
  | mstore8 => exact leaves_mstore8
  | sload => exact leaves_sload
  | sstore => exact leaves_sstore
  | gas => exact leaves_gas
  | log n => exact leaves_log _
  -- Only these five write the buffer.
  | create => exact absurd (.inr ⟨.create, rfl⟩) h
  | create2 => exact absurd (.inr ⟨.create2, rfl⟩) h
  | call => exact absurd (.inl ⟨.call, rfl⟩) h
  | delegatecall => exact absurd (.inl ⟨.delegatecall, rfl⟩) h
  | staticcall => exact absurd (.inl ⟨.staticcall, rfl⟩) h
  | address | caller | callvalue | calldatasize | codesize | returndatasize | msize =>
    exact fun _ _ => rfl
  | origin | gasprice | coinbase | timestamp | number | prevrandao | gaslimit | chainid | basefee =>
    exact fun _ st => (getTxContext_buffers st).seq fun _ h => h
  -- Reading the message or the block does not touch the buffer.
  | calldataload =>
    intro stack st
    unfold calldataload
    dsimp only
    split <;> exact rfl
  | blockhash =>
    intro stack st
    refine (getTxContext_buffers st).seq ?_
    rintro ⟨tx, st'⟩ h
    dsimp only
    split
    · exact fun _ => h
    · exact h
  | selfbalance => exact fun _ _ _ => rfl
  | jump | jumpi | pc | push _ => trivial
  | _ => trivial

/-- The calls and creations return a status. -/
theorem coreImpl_of_isCallLike [Ethash] {op : Opcode} (h : IsCallLike op) :
    ∃ p, coreImpl op = .result p := by
  rcases h with ⟨cop, rfl⟩ | ⟨cop, rfl⟩
  · exact ⟨_, coreImpl_call cop⟩
  · exact ⟨_, coreImpl_create cop⟩

/-- The instructions with gas and status leave the output alone. -/
theorem outputSize_coreImpl [Ethash] {op : Opcode} {p : InstrM Unit} (hcore : coreImpl op = .result p)
    (c : Ctx) : (p c).Returns fun x => x.2.state.outputSize = c.state.outputSize := by
  by_cases hop : IsCallLike op
  · rcases hop with ⟨cop, rfl⟩ | ⟨cop, rfl⟩
    · rw [coreImpl_call] at hcore
      cases hcore
      exact callImpl_outputSize cop c
    · rw [coreImpl_create] at hcore
      cases hcore
      exact createImpl_outputSize cop c
  · have hleaves := leaves_coreImpl hop
    rw [hcore] at hleaves
    exact (hleaves c).imp fun _ h => congrArg Prod.snd h

end Core

/-! ### Steps -/

namespace Baseline

open Zvmone.Core InstrM

variable [Ethash] {analysis : CodeAnalysis} {f : Frame}

/-- What an instruction leaves of the size of the output, unless the frame ends with success or
reverts. -/
def Next.HasOutputSize (size : Nat) : Next → Prop
  | .cont f => f.state.outputSize = size
  | .done _ st => st.status.IsFailure → st.outputSize = size

/-- The return data if the frame goes on. -/
def Next.HasReturnData (data : Bytes) (next : Next) : Prop :=
  next.Continues fun f => f.state.returnData = data

/-- A step with another instruction keeps both buffers as they are, if the loop goes on. -/
theorem invokeCore_buffers {op : Opcode} (hop : ¬ IsCallLike op) :
    (invokeCore analysis op f).Returns fun next =>
      next.HasOutputSize f.state.outputSize ∧ next.HasReturnData f.state.returnData := by
  have hleaves := leaves_coreImpl hop
  -- The shapes in order: stack, state, result, end of the frame, position.
  rcases hcore : coreImpl op with fn | fn | p | p | _ <;> rw [hcore] at hleaves
  · unfold invokeCore
    rw [hcore]
    exact ⟨rfl, rfl⟩
  · unfold invokeCore
    rw [hcore]
    exact (hleaves f.stackTop f.state).seq fun x hx =>
      ⟨congrArg Prod.snd hx, congrArg Prod.fst hx⟩
  · rw [invokeCore_result hcore]
    refine (hleaves ⟨f.stackTop, f.gas, f.state⟩).seq ?_
    rintro ⟨e | a, c⟩ h
    · exact ⟨fun _ => congrArg Prod.snd h, trivial⟩
    · exact ⟨congrArg Prod.snd h, congrArg Prod.fst h⟩
  · rw [invokeCore_term hcore]
    refine (hleaves ⟨f.stackTop, f.gas, f.state⟩).seq ?_
    rintro ⟨e | status, c⟩ ⟨herror, hok⟩
    · exact ⟨fun _ => congrArg Prod.snd (herror e rfl), trivial⟩
    · exact ⟨fun hfail => congrArg Prod.snd (hok status rfl hfail), trivial⟩
  · rw [invokeCore_pos hcore]
    obtain ⟨next, stack, hnext | hnext⟩ :=
      positionImpl_cases analysis hcore f.stackTop f.state f.codeIt <;> rw [hnext]
    · exact ⟨rfl, rfl⟩
    · exact ⟨fun _ => rfl, trivial⟩

/-- A step with any instruction keeps the output size, if the loop goes on. -/
theorem invokeCore_outputSize (op : Opcode) :
    (invokeCore analysis op f).Returns (Next.HasOutputSize f.state.outputSize) := by
  by_cases hop : IsCallLike op
  · obtain ⟨p, hcore⟩ := coreImpl_of_isCallLike hop
    rw [invokeCore_result hcore]
    refine (outputSize_coreImpl hcore ⟨f.stackTop, f.gas, f.state⟩).seq ?_
    rintro ⟨e | a, c⟩ h
    · exact fun _ => h
    · exact h
  · exact (invokeCore_buffers hop).imp fun _ h => h.1

/-- A frame that goes on has no output, and neither has one that fails. -/
theorem step_outputSize : (step analysis f).Returns (Next.HasOutputSize f.state.outputSize) :=
  step_returns (fun _ op gas _ _ _ => invokeCore_outputSize (f := { f with gas }) op)
    fun _ _ _ _ => rfl

/-- Only call and create instructions change the return data. -/
theorem step_returnData (h : ∀ byte op, analysis.executableCode[f.codeIt]? = some byte →
      Opcode.ofByte byte = some op → ¬ IsCallLike op) :
    (step analysis f).Returns (Next.HasReturnData f.state.returnData) := by
  refine step_returns (fun byte op gas hbyte hop _ => ?_) fun _ _ _ => trivial
  exact (invokeCore_buffers (f := { f with gas }) (h byte op hbyte hop)).imp fun _ h => h.2

/-- A frame that fails has no output: only `RETURN` and `REVERT` set one, and they do not fail after
that. -/
theorem dispatch_output {n : Nat} (h : f.state.outputSize = 0) :
    (dispatch analysis n f).Returns fun x => x.2.status.IsFailure → x.2.outputSize = 0 := by
  induction n generalizing f with
  | zero => trivial
  | succ n ih =>
    refine step_outputSize.seq ?_
    rintro (f' | ⟨gas, st⟩) hnext
    · exact ih (hnext.trans h)
    · exact fun hfail => (hnext hfail).trans h

/-- An execution that failed has no output. -/
theorem execute_failed_output (fuel : Nat) (msg : Message) (code : Bytes) :
    (execute fuel msg code).Returns fun r => r.statusCode.IsFailure → r.outputData = [] := by
  refine (dispatch_output rfl).seq ?_
  rintro ⟨gas, st⟩ h hfail
  show st.memory.slice st.outputOffset st.outputSize = []
  rw [h hfail]
  rfl

end Baseline

namespace Advanced

open Zvmone.Core

/-- What an instruction leaves of the size of the output, unless the execution ends with success or
reverts. -/
def HasOutputSize (size : Nat) (x : Option Nat × AdvancedExecutionState) : Prop :=
  x.1 ≠ none ∨ x.2.base.status.IsFailure → x.2.base.outputSize = size

variable {analysis : AdvancedCodeAnalysis} {i : Nat} {st : AdvancedExecutionState}

/-- Entering a block does not touch the output. -/
theorem opxBeginblock_outputSize (arg : InstructionArgument) (st : AdvancedExecutionState) :
    (opxBeginblock arg i st).2.base.outputSize = st.base.outputSize := by
  unfold opxBeginblock
  dsimp only
  split
  · rfl
  · split
    · rfl
    · split <;> rfl

/-- A jump does not touch the output. -/
theorem opJump_outputSize (st : AdvancedExecutionState) :
    (opJump analysis st).2.base.outputSize = st.base.outputSize := by
  unfold opJump
  dsimp only
  split
  · rfl
  · split <;> rfl

variable [Ethash]

/-- The functions that correct the gas around an implementation keep the output size. -/
theorem opCorrected_outputSize {op : Opcode} {m : InstrM Unit} (hcore : coreImpl op = .result m)
    (arg : InstructionArgument) :
    (opCorrected op m arg i st).Returns (HasOutputSize st.base.outputSize) := by
  rw [opCorrected_eq]
  refine (outputSize_coreImpl hcore _).seq fun x hx => ?_
  rw [returns_ret]
  unfold resumeCorrected
  split
  · exact fun _ => hx
  · split
    · exact fun _ => hx
    · exact fun _ => hx

/-- The functions of the core implementations keep the output size, unless they end the frame. -/
theorem opCore_outputSize (op : Opcode) : (opCore op i st).Returns (HasOutputSize st.base.outputSize) := by
  -- Call and create instructions have a result, so the other signatures leave the buffer alone.
  have hnotCall : (∀ p, coreImpl op ≠ .result p) → ¬ IsCallLike op := by
    intro hcore hop
    obtain ⟨p, hp⟩ := coreImpl_of_isCallLike hop
    exact hcore p hp
  rcases hcore : coreImpl op with fn | fn | m | m | _
  · rw [opCore_stack hcore]
    exact fun _ => rfl
  · have hleaves := leaves_coreImpl (hnotCall (by rw [hcore]; exact nofun))
    rw [hcore] at hleaves
    rw [opCore_state hcore]
    exact (hleaves st.stack st.base).seq fun x hx _ => congrArg Prod.snd hx
  · rw [opCore_result hcore]
    refine (outputSize_coreImpl hcore _).seq fun x hx => ?_
    rw [returns_ret]
    unfold resume
    split
    · exact fun _ => hx
    · exact fun _ => hx
  · have hleaves := leaves_coreImpl (hnotCall (by rw [hcore]; exact nofun))
    rw [hcore] at hleaves
    rw [opCore_term hcore]
    refine (hleaves st.ctx).seq ?_
    rintro ⟨e | status, c⟩ ⟨herror, hok⟩
    · exact fun _ => congrArg Prod.snd (herror e rfl)
    -- Only an instruction that ends the execution without a failure sets the output.
    · rintro (hnone | hfail)
      · exact absurd rfl hnone
      · exact congrArg Prod.snd (hok status rfl hfail)
  · unfold opCore
    rw [hcore]
    trivial

/-- An execution that goes on has no output, and neither has one that fails. -/
theorem exec_outputSize (instr : Instruction) :
    (instr.exec analysis i st).Returns (HasOutputSize st.base.outputSize) := by
  -- Only `return` and `revert` set the output, and they end the loop.
  unfold Instruction.exec
  split
  next => exact opCore_outputSize _
  next => exact opCorrected_outputSize rfl _
  next => exact fun _ => opxBeginblock_outputSize _ _
  next => exact fun _ => opJump_outputSize _
  next =>
    intro _
    unfold opJumpi
    split
    · exact opJump_outputSize st
    · exact opxBeginblock_outputSize _ _
  next => exact fun _ => rfl
  next => exact fun _ => rfl
  next => exact fun _ => rfl
  next =>
    split
    · trivial
    · exact fun _ => rfl
  next op _ => cases op <;> exact opCorrected_outputSize rfl _
  next op _ => cases op <;> exact opCorrected_outputSize rfl _
  next => exact fun _ => rfl

/-- A frame that fails has no output in the Advanced interpreter either. -/
theorem loop_output {n : Nat} (h : st.base.outputSize = 0) :
    (loop analysis n i st).Returns fun st' => st'.base.status.IsFailure → st'.base.outputSize = 0 := by
  induction n generalizing i st with
  | zero => trivial
  | succ n ih =>
    unfold loop
    split
    next => trivial
    next instr _ =>
      refine (exec_outputSize instr).seq ?_
      rintro ⟨_ | i', st'⟩ hnext
      · exact fun hfail => (hnext (.inr hfail)).trans h
      · exact ih ((hnext (.inl (Option.some_ne_none _))).trans h)

/-- An execution that failed has no output. -/
theorem execute_failed_output (fuel : Nat) (msg : Message) (code : Bytes) :
    (execute fuel msg code).Returns fun r => r.statusCode.IsFailure → r.outputData = [] := by
  refine (loop_output rfl).seq ?_
  intro st h hfail
  show st.base.memory.slice st.base.outputOffset st.base.outputSize = []
  rw [h hfail]
  rfl

end Advanced

end Zvmone
