import Zvmone.Vm.Metered

/-! # The metered core instructions

Every core implementation that neither calls, creates, writes storage nor reads the gas counter is
metered: `metered_coreImpl` collects them by opcode. -/

namespace Zvmone

open Interaction InstrM Instr

/-- The number of words is not negative. -/
theorem numWords_nonneg (n : Nat) : 0 ≤ numWords n := Int.natCast_nonneg _

namespace Core

variable [Ethash] {keep : Prop} {A : HostCall → Prop}

omit [Ethash] in
/-- `EXP` is metered. -/
theorem metered_exp : Metered keep A exp :=
  metered_pop.bind fun _ => metered_top.bind fun _ =>
    (metered_charge (Int.mul_nonneg (Int.natCast_nonneg _) (by decide))).bind fun _ => metered_setTop _

/-- `KECCAK256` is metered. -/
theorem metered_keccak256 : Metered keep A keccak256 :=
  metered_pop.bind fun index => metered_top.bind fun size =>
    (metered_requireMemory index size).bind fun _ =>
      (metered_charge (Int.mul_nonneg (numWords_nonneg _) (by decide))).bind fun _ =>
        metered_state.bind fun _ => metered_setTop _

omit [Ethash] in
/-- The cold account charge is metered. -/
theorem metered_accessAccount (addr : Address) (hA : A (.accessAccount addr)) :
    Metered keep A (accessAccount addr) :=
  (metered_host hA).bind fun _ => metered_ite (metered_charge (by decide)) (metered_pure ())

omit [Ethash] in
/-- The account instructions are metered when their query is allowed. -/
theorem metered_accountQuery {query : Address → HostCall}
    {value : ∀ addr, (query addr).Answer → Word} (haccess : ∀ addr, A (.accessAccount addr))
    (hquery : ∀ addr, A (query addr)) : Metered keep A (accountQuery query value) :=
  metered_top.bind fun x => (metered_accessAccount x.toAddress (haccess _)).bind fun _ =>
    (metered_host (hquery _)).bind fun _ => metered_setTop _

omit [Ethash] in
/-- `CALLDATACOPY` and `CODECOPY` are metered. -/
theorem metered_copy (buffer : ExecutionState → Bytes) : Metered keep A (copy buffer) :=
  metered_pop.bind fun memIndex => metered_pop.bind fun _ => metered_pop.bind fun size =>
    (metered_requireMemory memIndex size).bind fun _ => metered_state.bind fun _ =>
      (metered_charge (Int.mul_nonneg (numWords_nonneg _) (by decide))).bind fun _ =>
        (metered_writeMemory _ _).when fun _ =>
          metered_ite (metered_writeMemory _ _) (metered_pure ())

omit [Ethash] in
/-- `EXTCODECOPY` is metered. -/
theorem metered_extcodecopy (haccess : ∀ addr, A (.accessAccount addr))
    (hcopy : ∀ addr offset size, A (.copyCode addr offset size)) : Metered keep A extcodecopy :=
  metered_pop.bind fun _ => metered_pop.bind fun memIndex => metered_pop.bind fun _ =>
    metered_pop.bind fun size => (metered_requireMemory memIndex size).bind fun _ =>
      (metered_charge (Int.mul_nonneg (numWords_nonneg _) (by decide))).bind fun _ =>
        (metered_accessAccount _ (haccess _)).bind fun _ =>
          metered_ite
            ((metered_host (hcopy _ _ _)).bind fun _ => (metered_writeMemory _ _).bind fun _ =>
              metered_ite (metered_writeMemory _ _) (metered_pure ()))
            (metered_pure ())

omit [Ethash] in
/-- `RETURNDATACOPY` is metered. -/
theorem metered_returndatacopy : Metered keep A returndatacopy :=
  metered_pop.bind fun memIndex => metered_pop.bind fun _ => metered_pop.bind fun size =>
    (metered_requireMemory memIndex size).bind fun _ => metered_state.bind fun _ =>
      (metered_exit (by decide)).when fun _ => (metered_exit (by decide)).when fun _ =>
          (metered_charge (Int.mul_nonneg (numWords_nonneg _) (by decide))).bind fun _ =>
            metered_ite (metered_writeMemory _ _) (metered_pure ())

omit [Ethash] in
/-- `MLOAD` is metered. -/
theorem metered_mload : Metered keep A mload :=
  metered_top.bind fun index => (metered_requireMemorySmall index 32).bind fun _ =>
    metered_state.bind fun _ => metered_setTop _

omit [Ethash] in
/-- `MSTORE` is metered. -/
theorem metered_mstore : Metered keep A mstore :=
  metered_pop.bind fun index => metered_pop.bind fun _ =>
    (metered_requireMemorySmall index 32).bind fun _ => metered_writeMemory _ _

omit [Ethash] in
/-- `MSTORE8` is metered. -/
theorem metered_mstore8 : Metered keep A mstore8 :=
  metered_pop.bind fun index => metered_pop.bind fun _ =>
    (metered_requireMemorySmall index 1).bind fun _ => metered_writeMemory _ _

omit [Ethash] in
/-- `SLOAD` is metered. -/
theorem metered_sload (haccess : ∀ addr key, A (.accessStorage addr key))
    (hget : ∀ addr key, A (.getStorage addr key)) : Metered keep A sload :=
  metered_top.bind fun _ => metered_state.bind fun _ => (metered_host (haccess _ _)).bind fun _ =>
    (metered_charge (by decide)).when fun _ =>
      (metered_host (hget _ _)).bind fun _ => metered_setTop _

/-! ### Logs -/

omit [Ethash] in
/-- `LOG` is metered. -/
theorem metered_log (n : Nat) (hlog : ∀ addr data topics, A (.emitLog addr data topics)) :
    Metered keep A (log n) :=
  metered_state.bind fun _ =>
    metered_ite (metered_abort (by decide) _)
      (metered_pop.bind fun offset => metered_pop.bind fun size =>
        (metered_requireMemory offset size).bind fun _ =>
          (metered_charge (Int.mul_nonneg (Int.natCast_nonneg _) (by decide))).bind fun _ =>
            (metered_mapM (fun _ => metered_pop) _).bind fun _ => metered_state.bind fun _ =>
              metered_host (hlog _ _ _))

omit [Ethash] in
/-- In static mode `LOG` gives up. -/
theorem log_of_static (n : Nat) {c : Ctx} (h : c.state.InStaticMode) :
    log n c = .ret (.error .staticModeViolation, { c with gasLeft := 0 }) := by
  show (if c.state.InStaticMode then _ else _ : InstrM Unit) c = _
  rw [if_pos h]
  rfl

/-! ### Terminating instructions -/

omit [Ethash] in
/-- `RETURN` and `REVERT` are metered. -/
theorem metered_returnImpl (status : StatusCode) : Metered keep A (returnImpl status) :=
  (metered_read fun _ _ => rfl).bind fun offset => (metered_read fun _ _ => rfl).bind fun size =>
    (metered_requireMemory offset size).bind fun _ =>
      (metered_modifyState (by exact fun _ => ⟨rfl, rfl, rfl, fun _ => rfl, rfl⟩)
        (by exact fun _ => rfl)).bind fun _ =>
        (metered_modifyState (by exact fun _ => ⟨rfl, rfl, rfl, fun _ => rfl, rfl⟩)
          (by exact fun _ => rfl)).when fun _ =>
          metered_pure status

/-! ### Instructions reading the execution state -/

omit [Ethash] in
/-- Fetching the transaction context keeps the frame and the memory. -/
theorem getTxContext_sameFrame (state : ExecutionState) (hA : A .getTxContext) :
    wp (.asking Fault A) state.getTxContext () fun x _ =>
      ExecutionState.SameFrame keep state x.2 ∧ x.2.memory = state.memory := by
  unfold ExecutionState.getTxContext
  split
  · exact ⟨hA, fun _ _ _ => ⟨⟨rfl, rfl, rfl, fun _ => rfl, rfl⟩, rfl⟩⟩
  · exact ⟨.refl state, rfl⟩

/-- An instruction on the execution state that asks allowed host methods and changes nothing of the
frame but the stack and the cached transaction context. -/
def Quiet (keep : Prop) (A : HostCall → Prop)
    (f : StackTop → ExecutionState → HostM (StackTop × ExecutionState)) : Prop :=
  ∀ stack state, wp (.asking Fault A) (f stack state) () fun x _ =>
    ExecutionState.SameFrame keep state x.2 ∧ x.2.memory = state.memory

omit [Ethash] in
/-- An instruction that pushes an item of the state changes nothing else. -/
theorem quiet_pushes (value : ExecutionState → Word) : Quiet keep A (pushes value) :=
  fun _ state => ⟨.refl state, rfl⟩

omit [Ethash] in
/-- An instruction on the transaction context changes nothing else that is seen. -/
theorem quiet_pushesTx (hA : A .getTxContext) (value : TxContext → Word) :
    Quiet keep A (pushesTx value) :=
  fun _ state => (wp_bind _ _ _).2 (getTxContext_sameFrame state hA)

omit [Ethash] in
/-- `CALLDATALOAD` changes nothing but the stack. -/
theorem quiet_calldataload : Quiet keep A calldataload := by
  intro stack state
  unfold calldataload
  dsimp only
  split
  · exact ⟨.refl state, rfl⟩
  · exact ⟨.refl state, rfl⟩

omit [Ethash] in
/-- `BLOCKHASH` changes nothing else that is seen. -/
theorem quiet_blockhash (hA : A .getTxContext) (hhash : ∀ n, A (.getBlockHash n)) :
    Quiet keep A blockhash := by
  intro stack state
  have htx : wp (.asking Fault A) state.getTxContext ()
      fun x _ => ExecutionState.SameFrame keep state x.2 ∧ x.2.memory = state.memory :=
    getTxContext_sameFrame state hA
  refine (wp_bind _ _ _).2 (wp_mono htx ?_)
  rintro ⟨tx, state'⟩ _ h
  dsimp only
  split
  · exact ⟨hhash _, fun _ _ _ => h⟩
  · exact h

omit [Ethash] in
/-- `SELFBALANCE` changes nothing but the stack. -/
theorem quiet_selfbalance (hA : ∀ addr, A (.getBalance addr)) : Quiet keep A selfbalance :=
  fun _ state => ⟨hA _, fun _ _ _ => ⟨.refl state, rfl⟩⟩

/-! ### The opcodes of metered instructions -/

/-- The opcodes with an implementation of their own in the Advanced interpreter or a position
dependent one: they call, write storage, read the gas counter or the code position. -/
def IsSpecial : Opcode → Prop
  | .sstore | .gas | .create | .create2 | .call | .delegatecall | .staticcall => True
  | .jump | .jumpi | .pc | .push _ => True
  | _ => False

instance : DecidablePred IsSpecial := fun op => by
  cases op <;> unfold IsSpecial <;> infer_instance

/-- A core implementation, whatever its shape, that is metered. -/
def MeteredFn (keep : Prop) (A : HostCall → Prop) : CoreFn → Prop
  | .stack _ => True
  | .state f => Quiet keep A f
  | .result m => Metered keep A m
  | .term m => Metered keep A m
  | .pos => False

/-- Every core implementation but the special ones is metered; only `SLOAD` needs the storage and only
`LOG` needs `emit_log`. -/
theorem metered_coreImpl_of {op : Opcode} (h : ¬ IsSpecial op)
    (hA : ∀ q, HostCall.IsOrdinary q → (q.slotOwner.isSome → op = .sload) → A q)
    (hlog : ∀ k, op = .log k → ∀ addr data topics, A (.emitLog addr data topics)) :
    MeteredFn keep A (coreImpl op) := by
  -- A few families share one lemma; the rest neither ask nor charge.
  cases op with
  | exp => exact metered_exp
  | keccak256 => exact metered_keccak256
  | balance | extcodesize | extcodehash =>
    exact metered_accountQuery (fun _ => hA _ trivial nofun) fun _ => hA _ trivial nofun
  | calldatacopy => exact metered_copy _
  | codecopy => exact metered_copy _
  | extcodecopy =>
    exact metered_extcodecopy (fun _ => hA _ trivial nofun) fun _ _ _ => hA _ trivial nofun
  | returndatacopy => exact metered_returndatacopy
  | mload => exact metered_mload
  | mstore => exact metered_mstore
  | mstore8 => exact metered_mstore8
  | sload => exact metered_sload (fun _ _ => hA _ trivial fun _ => rfl) fun _ _ => hA _ trivial fun _ => rfl
  | log k => exact metered_log _ (hlog k rfl)
  | stop | invalid => exact metered_pure _
  | return_ | revert => exact metered_returnImpl _
  | address | caller | callvalue | calldatasize | codesize | returndatasize | msize =>
    exact quiet_pushes _
  | origin | gasprice | coinbase | timestamp | number | prevrandao | gaslimit | chainid
  | basefee => exact quiet_pushesTx (hA _ trivial nofun) _
  | calldataload => exact quiet_calldataload
  | blockhash => exact quiet_blockhash (hA _ trivial nofun) fun _ => hA _ trivial nofun
  | selfbalance => exact quiet_selfbalance fun _ => hA _ trivial nofun
  | sstore | gas | create | create2 | call | delegatecall | staticcall | jump | jumpi | pc
  | push _ => exact absurd trivial h
  | _ => trivial

/-- Every core implementation but the special ones is metered; only `LOG` needs `emit_log`. -/
theorem metered_coreImpl {op : Opcode} (h : ¬ IsSpecial op) (hA : ∀ q, HostCall.IsOrdinary q → A q)
    (hlog : ∀ k, op = .log k → ∀ addr data topics, A (.emitLog addr data topics)) :
    MeteredFn keep A (coreImpl op) :=
  metered_coreImpl_of h (fun q hq _ => hA q hq) hlog

/-- Every instruction has a base cost, unless it writes storage or terminates. -/
theorem gasCosts_pos (op : Opcode) :
    0 < gasCosts op ∨ op = .sstore ∨ ∃ m, coreImpl op = .term m := by
  cases op with
  | sstore => exact .inr (.inl rfl)
  | stop | return_ | revert | invalid => exact .inr (.inr ⟨_, rfl⟩)
  | log k =>
    left
    simp only [gasCosts]
    omega
  | push | dup | swap => exact .inl (by decide : (0 : Int) < 3)
  | _ => left; decide

/-- The opcode of a call instruction. -/
def CallOp.opcode : CallOp → Opcode
  | .call => .call
  | .delegatecall => .delegatecall
  | .staticcall => .staticcall

/-- The opcode of a create instruction. -/
def CreateOp.opcode : CreateOp → Opcode
  | .create => .create
  | .create2 => .create2

/-- The implementation of the call opcodes. -/
theorem coreImpl_call (cop : CallOp) : coreImpl cop.opcode = .result (callImpl cop) := by
  cases cop <;> rfl

/-- The implementation of the create opcodes. -/
theorem coreImpl_create (cop : CreateOp) : coreImpl cop.opcode = .result (createImpl cop) := by
  cases cop <;> rfl

/-- The special opcodes: all but `SSTORE` have a base cost. -/
theorem special_cases {op : Opcode} (h : IsSpecial op) :
    op = .sstore ∨ 0 < gasCosts op ∧ (op = .gas ∨ (∃ cop : CallOp, op = cop.opcode) ∨
      (∃ cop : CreateOp, op = cop.opcode) ∨ coreImpl op = .pos) := by
  cases op with
  | sstore => exact .inl rfl
  | gas => exact .inr ⟨by decide, .inl rfl⟩
  | call => exact .inr ⟨by decide, .inr (.inl ⟨.call, rfl⟩)⟩
  | delegatecall => exact .inr ⟨by decide, .inr (.inl ⟨.delegatecall, rfl⟩)⟩
  | staticcall => exact .inr ⟨by decide, .inr (.inl ⟨.staticcall, rfl⟩)⟩
  | create => exact .inr ⟨by decide, .inr (.inr (.inl ⟨.create, rfl⟩))⟩
  | create2 => exact .inr ⟨by decide, .inr (.inr (.inl ⟨.create2, rfl⟩))⟩
  | jump | jumpi | pc => exact .inr ⟨by decide, .inr (.inr (.inr rfl))⟩
  | push k => exact .inr ⟨(by decide : (0 : Int) < 3), .inr (.inr (.inr rfl))⟩
  | _ => exact h.elim

end Core

end Zvmone
