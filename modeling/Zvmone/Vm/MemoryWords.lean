import Zvmone.Vm.AdvancedSteps
import Zvmone.Vm.BaselineSteps

/-! # The memory accesses of the instructions

`memoryAccesses` names, for every opcode, the stack items that hold the offsets and the sizes of its
memory accesses. An instruction that is successful has made the memory large enough for these
accesses, and no larger (`sized_coreImpl`). -/

namespace Zvmone

open Interaction

/-- The memory accesses of an instruction on a stack: the offset and the size of each. -/
def memoryAccesses : Opcode → StackTop → List (Word × Word)
  | .keccak256, s | .log _, s | .return_, s | .revert, s => [(s.get 0, s.get 1)]
  | .calldatacopy, s | .codecopy, s | .returndatacopy, s => [(s.get 0, s.get 2)]
  | .extcodecopy, s => [(s.get 1, s.get 3)]
  | .mload, s | .mstore, s => [(s.get 0, 32)]
  | .mstore8, s => [(s.get 0, 1)]
  | .create, s | .create2, s => [(s.get 1, s.get 2)]
  | .call, s => [(s.get 3, s.get 4), (s.get 5, s.get 6)]
  | .delegatecall, s | .staticcall, s => [(s.get 2, s.get 3), (s.get 4, s.get 5)]
  | _, _ => []

/-- The memory after some accesses that are paid. -/
def Memory.accessAll (m : Memory) (l : List (Word × Word)) : Memory :=
  l.foldl (fun m a => m.access (accessEnd a.1.toNat a.2.toNat)) m

/-- Without accesses the memory stays as it is. -/
@[simp] theorem Memory.accessAll_nil (m : Memory) : m.accessAll [] = m := rfl

/-- Accesses are made one after the other. -/
@[simp] theorem Memory.accessAll_cons (m : Memory) (a : Word × Word) (l : List (Word × Word)) :
    m.accessAll (a :: l) = (m.access (accessEnd a.1.toNat a.2.toNat)).accessAll l := rfl

namespace InstrM

variable {α β : Type}

/-- Started on the stack and the memory, the instruction leaves a memory of `size` bytes, or it
fails. -/
def Sized (size : Nat) (stack : StackTop) (memory : Memory) (p : InstrM α) : Prop :=
  ∀ c, c.stack = stack → c.state.memory = memory → (p c).Returns fun x =>
    (∀ e, x.1 = .error e → e.IsFailure) ∧ ∀ a, x.1 = .ok a → x.2.state.memory.size = size

section Sized

variable {size : Nat} {stack : StackTop} {memory : Memory} {f : α → InstrM β}

/-- A value is returned with the memory as it is. -/
theorem Sized.pure (a : α) : Sized memory.size stack memory (pure a) := by
  rintro c rfl rfl
  exact ⟨nofun, fun _ _ => rfl⟩

/-- An instruction is followed by nothing. -/
theorem Sized.last {p : InstrM α} (h : Sized size stack memory (p >>= Pure.pure)) :
    Sized size stack memory p := by
  intro c hstack hmemory
  have heq : (p >>= Pure.pure) c = p c := by
    show p c >>= andThen Pure.pure = p c
    have hret : andThen (Pure.pure : α → InstrM α) = Interaction.ret := by
      funext x
      obtain ⟨_ | _, _⟩ := x <;> rfl
    rw [hret, bind_ret]
  rw [← heq]
  exact h c hstack hmemory

/-- The instruction is itself a sequence. -/
theorem Sized.bind {γ : Type} {p : InstrM γ} {q : γ → InstrM α} {f : α → InstrM β}
    (h : Sized size stack memory (p >>= fun a => q a >>= f)) :
    Sized size stack memory ((p >>= q) >>= f) := by
  intro c hstack hmemory
  have heq : ((p >>= q) >>= f) c = (p >>= fun a => q a >>= f) c := by
    show (p c >>= andThen q) >>= andThen f = p c >>= andThen fun a => q a >>= f
    rw [bind_assoc]
    refine congrArg (p c >>= ·) (funext fun x => ?_)
    obtain ⟨_ | _, _⟩ := x <;> rfl
  rw [heq]
  exact h c hstack hmemory

/-- What follows does not change the size. -/
theorem Sized.followed {p : InstrM α} {f : α → InstrM β} (hp : Sized size stack memory p)
    (hf : ∀ a stack memory, memory.size = size → Sized size stack memory (f a)) :
    Sized size stack memory (p >>= f) := by
  intro c hstack hmemory
  refine (hp c hstack hmemory).seq ?_
  rintro ⟨e | a, c'⟩ ⟨hfail, hok⟩
  · exact ⟨fun e' he => by cases he; exact hfail e rfl, nofun⟩
  · exact hf a c'.stack c'.state.memory (hok a rfl) c' rfl rfl

/-- Returning a value first changes nothing. -/
theorem Sized.pure_bind {a : α} {f : α → InstrM β} (h : Sized size stack memory (f a)) :
    Sized size stack memory (Pure.pure a >>= f) := h

/-- The rule for branches, each side under its condition. -/
theorem Sized.ite {c : Prop} [Decidable c] {p q : InstrM α} (hp : c → Sized size stack memory p)
    (hq : ¬ c → Sized size stack memory q) : Sized size stack memory (if c then p else q) := by
  split
  next h => exact hp h
  next h => exact hq h

/-- After a failure nothing is said about the memory. -/
theorem Sized.exit {status : StatusCode} (h : status.IsFailure) :
    Sized size stack memory (exit status >>= f) := by
  rintro c rfl rfl
  exact ⟨fun e he => by cases he; exact h, nofun⟩

/-- The rule for `stack.pop()`. -/
theorem Sized.pop {f : Word → InstrM β} (h : Sized size stack.pop.2 memory (f (stack.get 0))) :
    Sized size stack memory (pop >>= f) := by
  rintro c rfl rfl
  exact h _ rfl rfl

/-- The rule for `stack.top()`. -/
theorem Sized.top {f : Word → InstrM β} (h : Sized size stack memory (f (stack.get 0))) :
    Sized size stack memory (top >>= f) := by
  rintro c rfl rfl
  exact h _ rfl rfl

/-- The rule for reading an item. -/
theorem Sized.readItem {f : Word → InstrM β} (i : Nat)
    (h : Sized size stack memory (f (stack.get i))) :
    Sized size stack memory (read (fun c => c.stack.get i) >>= f) := by
  rintro c rfl rfl
  exact h _ rfl rfl

/-- The rule for reading the gas, whose value plays no role. -/
theorem Sized.readGas {f : Int → InstrM β} (h : ∀ g, Sized size stack memory (f g)) :
    Sized size stack memory (read (fun c => c.gasLeft) >>= f) := by
  rintro c rfl rfl
  exact h _ _ rfl rfl

/-- The rule for reading the execution state, which has the memory. -/
theorem Sized.state {f : ExecutionState → InstrM β}
    (h : ∀ st : ExecutionState, st.memory = memory → Sized size stack memory (f st)) :
    Sized size stack memory (state >>= f) := by
  rintro c rfl rfl
  exact h _ rfl _ rfl rfl

/-- The rule for host calls: nothing is assumed of the answer. -/
theorem Sized.host {q : HostCall} {f : q.Answer → InstrM β}
    (h : ∀ r, Sized size stack memory (f r)) : Sized size stack memory (host q >>= f) := by
  rintro c rfl rfl r
  exact h r _ rfl rfl

/-- The rule for `stack.push()`. -/
theorem Sized.push {f : Unit → InstrM β} {v : Word} (h : Sized size (stack.push v) memory (f ())) :
    Sized size stack memory (push v >>= f) := by
  rintro c rfl rfl
  exact h _ rfl rfl

/-- The rule for `stack.top() = value`. -/
theorem Sized.setTop {f : Unit → InstrM β} {v : Word}
    (h : Sized size (stack.set 0 v) memory (f ())) :
    Sized size stack memory (setTop v >>= f) := by
  rintro c rfl rfl
  exact h _ rfl rfl

/-- The rule for setting the gas. -/
theorem Sized.modifyGas {f : Unit → InstrM β} {g : Ctx → Int}
    (h : Sized size stack memory (f ())) :
    Sized size stack memory (modify (fun c => { c with gasLeft := g c }) >>= f) := by
  rintro c rfl rfl
  exact h _ rfl rfl

/-- The rule for updates of the execution state that keep the memory. -/
theorem Sized.modifyState {f : Unit → InstrM β} {g : ExecutionState → ExecutionState}
    (hg : ∀ s, (g s).memory = s.memory) (h : Sized size stack memory (f ())) :
    Sized size stack memory (modifyState g >>= f) := by
  rintro c rfl rfl
  exact h _ rfl (hg _)

/-- The rule for writes to memory. -/
theorem Sized.writeMemory {f : Unit → InstrM β} {i : Nat} {bs : Bytes}
    (h : Sized size stack (memory.write i bs) (f ())) :
    Sized size stack memory (writeMemory i bs >>= f) := by
  rintro c rfl rfl
  exact h _ rfl rfl

/-- The rule for charges: either the gas runs out or the memory is as before. -/
theorem Sized.charge {f : Unit → InstrM β} {cost : Int} (h : Sized size stack memory (f ())) :
    Sized size stack memory (charge cost >>= f) := by
  rintro c rfl rfl
  show (charge cost c >>= andThen f).Returns _
  unfold InstrM.charge
  dsimp only
  split
  · exact ⟨fun e he => by cases he; decide, nofun⟩
  · exact h _ rfl rfl

/-- A check that fails, or makes the memory large enough for an access that ends at `e`. -/
theorem Sized.require {f : Unit → InstrM β} {check : Int → Memory → Bool × Int × Memory} {e : Nat}
    (hcheck : ∀ gas, (∃ gas', check gas memory = (false, gas', memory)) ∨
      ∃ gas', check gas memory = (true, gas', memory.access e))
    (h : Sized size stack (memory.access e) (f ())) :
    Sized size stack memory (require check >>= f) := by
  rintro c rfl rfl
  show (InstrM.require check c >>= andThen f).Returns _
  obtain ⟨gas', hfail⟩ | ⟨gas', hok⟩ := hcheck c.gasLeft
  · rw [require_of_fail hfail]
    exact ⟨fun e he => by cases he; decide, nofun⟩
  · rw [require_of_ok hok]
    exact h _ rfl rfl

/-- The rule for memory checks: behind one, the memory has been accessed. -/
theorem Sized.requireMemory {f : Unit → InstrM β} {offset len : Word}
    (h : Sized size stack (memory.access (accessEnd offset.toNat len.toNat)) (f ())) :
    Sized size stack memory (requireMemory offset len >>= f) := by
  refine .require (fun gas => ?_) h
  obtain ⟨gas', hfail, -⟩ | ⟨hexact, gas', hok, -⟩ :=
    checkMemory_congr (m := memory) rfl gas offset len
  · exact .inl ⟨gas', hfail⟩
  · exact .inr ⟨gas', accessEnd_toSize hexact ▸ hok⟩

/-- The rule for memory checks of a small size that is not 0. -/
theorem Sized.requireMemorySmall {f : Unit → InstrM β} {offset : Word} {len : Nat}
    (hlen : 0 < len) (h : Sized size stack (memory.access (accessEnd offset.toNat len)) (f ())) :
    Sized size stack memory (requireMemorySmall offset len >>= f) := by
  refine .require (fun gas => ?_) h
  obtain ⟨gas', hfail, -⟩ | ⟨hexact, gas', hok, -⟩ :=
    checkMemorySmall_congr (m := memory) rfl gas offset len
  · exact .inl ⟨gas', hfail⟩
  · refine .inr ⟨gas', ?_⟩
    rw [accessEnd_of_pos hlen, ← hexact]
    exact hok

end Sized

/-- A successful instruction has made the memory as large as its accesses need. -/
def Accesses (p : InstrM α) (accesses : StackTop → List (Word × Word)) : Prop :=
  ∀ stack memory, Sized (memory.accessAll (accesses stack)).size stack memory p

end InstrM

/-! ### The core implementations -/

namespace Core

open InstrM

variable {β : Type} {size : Nat} {stack : StackTop} {memory : Memory}

/-- The cold account charge accesses no memory. -/
theorem sized_accessAccount {f : Unit → InstrM β} {addr : Address}
    (h : Sized size stack memory (f ())) :
    Sized size stack memory (accessAccount addr >>= f) := by
  refine .bind (.host fun r => ?_)
  split
  · exact .charge h
  · exact h

/-- `EXP` accesses no memory. -/
theorem accesses_exp : Accesses exp fun _ => [] :=
  fun _ _ => .pop (.top (.charge (.last (.setTop (.pure _)))))

/-- `KECCAK256` reads what it hashes. -/
theorem accesses_keccak256 [Ethash] : Accesses keccak256 fun s => [(s.get 0, s.get 1)] :=
  fun _ _ => .pop (.top (.requireMemory (.charge (.state fun _ _ => .last (.setTop (.pure _))))))

/-- The account queries access no memory. -/
theorem accesses_accountQuery (query : Address → HostCall)
    (value : ∀ addr, (query addr).Answer → Word) :
    Accesses (accountQuery query value) fun _ => [] :=
  fun _ _ => .top (sized_accessAccount (.host fun _ => .last (.setTop (.pure _))))

/-- `SLOAD` accesses no memory. -/
theorem accesses_sload : Accesses sload fun _ => [] :=
  fun _ _ => .top (.state fun _ _ => .host fun _ => .ite
    (fun _ => .charge (.host fun _ => .last (.setTop (.pure _))))
    fun _ => .host fun _ => .last (.setTop (.pure _)))

/-- `SSTORE` accesses no memory. -/
theorem accesses_sstore : Accesses sstore fun _ => [] := by
  intro stack memory
  refine .state fun _ _ => .ite (fun _ => .exit (by decide)) fun _ => ?_
  refine .readGas fun _ => .ite (fun _ => .exit (by decide)) fun _ => .pop (.pop ?_)
  refine .state fun _ _ => .host fun _ => .host fun _ => .charge ?_
  exact .last (.modifyState (fun _ => rfl) (.pure _))

/-- `GAS` accesses no memory. -/
theorem accesses_gas : Accesses gas fun _ => [] :=
  fun _ _ => .readGas fun _ => .last (.push (.pure _))

/-- A write that may be left out. -/
theorem sized_writeIf {c : Prop} [Decidable c] {i : Nat} {bs : Bytes} (h : memory.size = size) :
    Sized size stack memory (if c then writeMemory i bs else pure ()) := by
  subst h
  exact .ite (fun _ => .last (.writeMemory (.pure _))) fun _ => .pure _

/-- The copy instructions write as many bytes as are copied, also those filled with zeros. -/
theorem accesses_copy (buffer : ExecutionState → Bytes) :
    Accesses (copy buffer) fun s => [(s.get 0, s.get 2)] := by
  intro stack memory
  refine .pop (.pop (.pop (.requireMemory (.state fun st _ => .charge ?_))))
  exact .ite (fun _ => .writeMemory (sized_writeIf rfl)) fun _ => sized_writeIf rfl

/-- `EXTCODECOPY` takes the address off the stack first. -/
theorem accesses_extcodecopy : Accesses extcodecopy fun s => [(s.get 1, s.get 3)] := by
  intro stack memory
  refine .pop (.pop (.pop (.pop (.requireMemory (.charge (sized_accessAccount ?_))))))
  exact .ite (fun _ => .host fun _ => .writeMemory (sized_writeIf rfl)) fun _ => .pure _

/-- `RETURNDATACOPY` makes its access before the bounds of the return data are checked. -/
theorem accesses_returndatacopy : Accesses returndatacopy fun s => [(s.get 0, s.get 2)] := by
  intro stack memory
  refine .pop (.pop (.pop (.requireMemory (.state fun st _ => ?_))))
  refine .ite (fun _ => .exit (by decide)) fun _ => .ite (fun _ => .exit (by decide)) fun _ => ?_
  exact .charge (sized_writeIf rfl)

/-- `MLOAD` reads a word. -/
theorem accesses_mload : Accesses mload fun s => [(s.get 0, 32)] :=
  fun _ _ => .top (.requireMemorySmall (by decide) (.state fun _ _ => .last (.setTop (.pure _))))

/-- `MSTORE` writes a word. -/
theorem accesses_mstore : Accesses mstore fun s => [(s.get 0, 32)] :=
  fun _ _ => .pop (.pop (.requireMemorySmall (by decide) (.last (.writeMemory (.pure _)))))

/-- `MSTORE8` writes a byte. -/
theorem accesses_mstore8 : Accesses mstore8 fun s => [(s.get 0, 1)] :=
  fun _ _ => .pop (.pop (.requireMemorySmall (by decide) (.last (.writeMemory (.pure _)))))

/-- Topics are popped off whatever stack. -/
theorem sized_popTopics (t : Nat) {f : List Word → InstrM β}
    (h : ∀ stack topics, Sized size stack memory (f topics)) :
    Sized size stack memory (((List.replicate t ()).mapM fun _ => pop) >>= f) := by
  have hloop : ∀ t (stack : StackTop) (acc : List Word), Sized size stack memory
      (List.mapM.loop (fun _ => pop) (List.replicate t ()) acc >>= f) := by
    intro t
    induction t with
    | zero => exact fun stack acc => h stack acc.reverse
    | succ t ih => exact fun stack acc => .bind (.pop (ih _ _))
  exact hloop t stack []

/-- `LOG` reads its data, whatever the number of topics. -/
theorem accesses_log (t : Nat) : Accesses (log t) fun s => [(s.get 0, s.get 1)] := by
  intro stack memory
  refine .state fun _ _ => .ite (fun _ => .modifyGas (.exit (by decide))) fun _ => ?_
  refine .pop (.pop (.requireMemory (.charge (sized_popTopics t fun stack topics => ?_))))
  exact .state fun _ _ => .last (.host fun _ => .pure _)

/-- `RETURN` and `REVERT` read the output. -/
theorem accesses_returnImpl (status : StatusCode) :
    Accesses (returnImpl status) fun s => [(s.get 0, s.get 1)] := by
  intro stack memory
  refine .readItem 0 (.readItem 1 (.requireMemory ?_))
  refine .modifyState (fun _ => rfl) (.ite (fun _ => ?_) fun _ => .pure _)
  exact .modifyState (fun _ => rfl) (.pure _)

/-- `STOP` and `INVALID` access no memory. -/
theorem accesses_stopImpl (status : StatusCode) : Accesses (stopImpl status) fun _ => [] :=
  fun _ _ => .pure _

/-! ### Calls and creations -/

/-- The accesses of a call instruction. -/
def CallOp.accesses : CallOp → StackTop → List (Word × Word)
  | .call, s => [(s.get 3, s.get 4), (s.get 5, s.get 6)]
  | _, s => [(s.get 2, s.get 3), (s.get 4, s.get 5)]

/-- The last charge of a call instruction. -/
theorem sized_callTail {cost : Int} {l : CallLocals} {c : Prop} [Decidable c] {dst : Address} :
    Sized memory.size stack memory (if c then do
        let exists_ ← host (HostCall.accountExists dst)
        let newAccountCost ← pure (if exists_ then 0 else 25000)
        charge (cost + newAccountCost)
        return l
      else do
        let newAccountCost ← pure 0
        charge (cost + newAccountCost)
        return l) := by
  apply Sized.ite
  · exact fun _ => .host fun _ => .pure_bind (.charge (.pure _))
  · exact fun _ => .pure_bind (.charge (.pure _))

/-- Up to the last charge a call accesses its input, and then its output. -/
theorem sized_callCharge (op : CallOp) :
    Sized (memory.accessAll (op.accesses stack)).size stack memory (callCharge op) := by
  unfold callCharge
  cases op
  case call =>
    refine .pop (.pop (.ite (fun h => absurd h (by decide)) fun _ => ?_))
    refine .pop (.pop (.pop (.pop (.pop (.push (.modifyState (fun _ => rfl) ?_))))))
    refine sized_accessAccount (.requireMemory (.requireMemory (.state fun st _ => ?_)))
    refine .ite (fun _ => .ite (fun _ => .exit (by decide)) fun _ => ?_) fun h => absurd rfl h
    exact sized_callTail
  all_goals
    refine .pop (.pop (.ite (fun _ => .pure_bind ?_) fun h => absurd (by decide) h))
    refine .pop (.pop (.pop (.pop (.push (.modifyState (fun _ => rfl) ?_)))))
    refine sized_accessAccount (.requireMemory (.requireMemory (.state fun st _ => ?_)))
    refine .ite (fun h => absurd h (by decide)) fun _ => ?_
    exact sized_callTail

/-- Writing the output of the callee does not change the size of the memory. -/
theorem sized_callReturn {l : CallLocals} {msg : Message} {result : CallResult}
    (h : memory.size = size) : Sized size stack memory (callReturn l msg result) := by
  subst h
  refine .modifyState (fun _ => rfl) (.setTop (.ite (fun _ => .writeMemory ?_) fun _ => ?_))
  all_goals exact .modifyGas (.last (.modifyState (fun _ => rfl) (.pure _)))

/-- Sending the message of a call does not change the size of the memory. -/
theorem sized_callSend (l : CallLocals) (h : memory.size = size) :
    Sized size stack memory (callSend l) := by
  have hreturn : ∀ (msg : Message), Sized size stack memory
      (host (HostCall.call msg) >>= fun result => callReturn l msg result) :=
    fun _ => .host fun _ => sized_callReturn h
  subst h
  refine .readGas fun _ => .modifyGas (.state fun st _ => .ite (fun _ => .pure _) fun _ => ?_)
  exact .ite (fun _ => .host fun _ => .ite (fun _ => .pure _) fun _ => hreturn _) fun _ => hreturn _

/-- A call accesses its input and its output. -/
theorem accesses_callImpl (op : CallOp) : Accesses (callImpl op) op.accesses :=
  fun _ _ => (sized_callCharge op).followed fun l _ _ h => sized_callSend l h

/-- Up to the last charge a creation accesses the initcode. -/
theorem sized_createCharge (op : CreateOp) :
    Sized (memory.accessAll [(stack.get 1, stack.get 2)]).size stack memory (createCharge op) := by
  unfold createCharge
  refine .state fun _ _ => .ite (fun _ => .exit (by decide)) fun _ => ?_
  cases op
  case create =>
    refine .pop (.pop (.pop (.ite (fun h => absurd h (by decide)) fun _ => .pure_bind ?_)))
    refine .push (.modifyState (fun _ => rfl) (.requireMemory ?_))
    refine .ite (fun _ => .exit (by decide)) fun _ => ?_
    exact .charge (.state fun _ _ => .pure _)
  case create2 =>
    refine .pop (.pop (.pop (.ite (fun _ => .pop ?_) fun h => absurd rfl h)))
    refine .push (.modifyState (fun _ => rfl) (.requireMemory ?_))
    refine .ite (fun _ => .exit (by decide)) fun _ => ?_
    exact .charge (.state fun _ _ => .pure _)

/-- The result of a creation does not change the size of the memory. -/
theorem sized_createReturn {msg : Message} {result : CallResult} (h : memory.size = size) :
    Sized size stack memory (createReturn msg result) := by
  subst h
  refine .modifyGas (.modifyState (fun _ => rfl) (.modifyState (fun _ => rfl) ?_))
  exact .ite (fun _ => .last (.setTop (.pure _))) fun _ => .pure _

/-- Sending the message of a creation does not change the size of the memory. -/
theorem sized_createSend (op : CreateOp) (l : CreateLocals) (h : memory.size = size) :
    Sized size stack memory (createSend op l) := by
  have hreturn : ∀ (msg : Message), Sized size stack memory
      (host (HostCall.call msg) >>= fun result => createReturn msg result) :=
    fun _ => .host fun _ => sized_createReturn h
  subst h
  refine .state fun st _ => .ite (fun _ => .pure _) fun _ => .ite (fun _ => ?_) fun _ => ?_
  · exact .host fun _ => .ite (fun _ => .pure _) fun _ => .readGas fun _ => hreturn _
  · exact .readGas fun _ => hreturn _

/-- A creation accesses the initcode. -/
theorem accesses_createImpl (op : CreateOp) :
    Accesses (createImpl op) fun s => [(s.get 1, s.get 2)] :=
  fun _ _ => (sized_createCharge op).followed fun l _ _ h => sized_createSend op l h

/-! ### All core implementations -/

/-- An implementation that only reads the execution state leaves the memory alone. -/
theorem getTxContext_memory (st : ExecutionState) :
    st.getTxContext.Returns fun x => x.2.memory = st.memory := by
  unfold ExecutionState.getTxContext
  split
  · exact fun _ => rfl
  · exact rfl

/-- The instructions on the transaction context keep the memory. -/
theorem pushesTx_memory (value : TxContext → Word) (stack : StackTop) (st : ExecutionState) :
    (pushesTx value stack st).Returns fun x => x.2.memory = st.memory :=
  (getTxContext_memory st).seq fun _ h => h

/-- `CALLDATALOAD` keeps the memory. -/
theorem calldataload_memory (stack : StackTop) (st : ExecutionState) :
    (calldataload stack st).Returns fun x => x.2.memory = st.memory := by
  unfold calldataload
  dsimp only
  split <;> exact rfl

/-- `BLOCKHASH` keeps the memory. -/
theorem blockhash_memory (stack : StackTop) (st : ExecutionState) :
    (blockhash stack st).Returns fun x => x.2.memory = st.memory := by
  refine (getTxContext_memory st).seq ?_
  rintro ⟨tx, st'⟩ h
  dsimp only
  split
  · exact fun _ => h
  · exact h

/-- A core implementation, whatever its shape, that makes the memory as large as the accesses
need. -/
def AccessesFn (accesses : StackTop → List (Word × Word)) : CoreFn → Prop
  | .stack _ => accesses = fun _ => []
  | .state f => (accesses = fun _ => []) ∧ ∀ stack st, (f stack st).Returns fun x =>
      x.2.memory = st.memory
  | .result p => Accesses p accesses
  | .term p => Accesses p accesses
  | .pos => accesses = fun _ => []

/-- Every core implementation makes the memory as large as the accesses of its opcode need. -/
theorem accesses_coreImpl [Ethash] (op : Opcode) : AccessesFn (memoryAccesses op) (coreImpl op) := by
  cases op with
  | stop | invalid => exact accesses_stopImpl _
  | exp => exact accesses_exp
  | keccak256 => exact accesses_keccak256
  | balance | extcodesize | extcodehash => exact accesses_accountQuery _ _
  | calldatacopy | codecopy => exact accesses_copy _
  | extcodecopy => exact accesses_extcodecopy
  | returndatacopy => exact accesses_returndatacopy
  | mload => exact accesses_mload
  | mstore => exact accesses_mstore
  | mstore8 => exact accesses_mstore8
  | sload => exact accesses_sload
  | sstore => exact accesses_sstore
  | gas => exact accesses_gas
  | log t => exact accesses_log _
  | create | create2 => exact accesses_createImpl _
  | call => exact accesses_callImpl .call
  | delegatecall => exact accesses_callImpl .delegatecall
  | staticcall => exact accesses_callImpl .staticcall
  | return_ | revert => exact accesses_returnImpl _
  -- The rest accesses no memory.
  | address | caller | callvalue | calldatasize | codesize | returndatasize | msize =>
    exact ⟨rfl, fun _ _ => rfl⟩
  | origin | gasprice | coinbase | timestamp | number | prevrandao | gaslimit | chainid | basefee =>
    exact ⟨rfl, pushesTx_memory _⟩
  | calldataload => exact ⟨rfl, calldataload_memory⟩
  | blockhash => exact ⟨rfl, blockhash_memory⟩
  | selfbalance => exact ⟨rfl, fun _ _ _ => rfl⟩
  | jump | jumpi | pc | push _ => rfl
  | _ => rfl

end Core

end Zvmone
