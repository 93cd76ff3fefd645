import Zvmone.Vm.MeteredCalls
import Zvmone.Vm.StackWindow

/-! # Core instructions use the stack items their traits declare

Every core implementation is local to the items its traits require and the slot above them, if it
makes the stack higher (`local_coreImpl`). -/

namespace Zvmone

open Interaction InstrM StackTop Instr

namespace Core

/-! ### Instructions on the stack alone -/

/-- On stacks that share `n` items the function leaves stacks that share `w`, and writes no other
slots. -/
def LocalStack (n w : Nat) (f : StackTop → StackTop) : Prop :=
  ∀ b b' s s', Window n b b' n s s' →
    SameItems b b' w (f s) (f s') ∧ Untouched b w s (f s) ∧ Untouched b' w s' (f s')

/-- The instruction that does nothing uses the items it passes on. -/
theorem localStack_noop (n : Nat) : LocalStack n n noop :=
  fun _ _ _ _ h => ⟨h.items, .refl, .refl⟩

/-- Replacing the top item by a function of the visible items is local. -/
theorem localStack_set {n : Nat} {f : StackTop → Word}
    (hf : ∀ b b' s s', Window (n + 1) b b' (n + 1) s s' → f s = f s') :
    LocalStack (n + 1) (n + 1) fun s => s.set 0 (f s) := by
  intro b b' s s' h
  dsimp only
  rw [hf b b' s s' h]
  exact ⟨(h.set (Nat.succ_pos n) _).items, untouched_set h.top (Nat.succ_pos n) le_rfl _,
    untouched_set h.top' (Nat.succ_pos n) le_rfl _⟩

/-- The result of a binary instruction replaces the second operand. -/
theorem localStack_pop_set {f : StackTop → Word}
    (hf : ∀ b b' s s', Window 2 b b' 2 s s' → f s = f s') :
    LocalStack 2 2 fun s => s.pop.2.set 0 (f s) := by
  intro b b' s s' h
  dsimp only
  rw [hf b b' s s' h]
  exact ⟨(h.pop.set Nat.one_pos _).items,
    untouched_set (n := 2) (s := s.pop.2) h.pop.top Nat.one_pos (by decide) _,
    untouched_set (n := 2) (s := s'.pop.2) h.pop.top' Nat.one_pos (by decide) _⟩

/-- A binary instruction uses two items. -/
theorem localStack_binary (f : Word → Word → Word) : LocalStack 2 2 (binary f) :=
  localStack_pop_set (f := fun s => f (s.get 0) (s.pop.2.get 0)) fun _ _ _ _ h => by
    rw [h.get (i := 0) (by decide) le_rfl, h.pop.get (i := 0) (by decide) (by decide)]

/-- A ternary instruction uses three items. -/
theorem localStack_ternary (f : Word → Word → Word → Word) : LocalStack 3 3 (ternary f) := by
  intro b b' s s' h
  have hx : s.get 0 = s'.get 0 := h.get (by decide) le_rfl
  have hy : s.pop.2.get 0 = s'.pop.2.get 0 := h.pop.get (by decide) (by decide)
  have hz : s.pop.2.pop.2.get 0 = s'.pop.2.pop.2.get 0 := h.pop.pop.get (by decide) (by decide)
  show SameItems b b' 3
      (s.pop.2.pop.2.set 0 (f (s.get 0) (s.pop.2.get 0) (s.pop.2.pop.2.get 0)))
      (s'.pop.2.pop.2.set 0 (f (s'.get 0) (s'.pop.2.get 0) (s'.pop.2.pop.2.get 0))) ∧ _
  rw [hx, hy, hz]
  exact ⟨(h.pop.pop.set Nat.one_pos _).items,
    untouched_set (n := 3) (s := s.pop.2.pop.2) h.pop.pop.top Nat.one_pos (by decide) _,
    untouched_set (n := 3) (s := s'.pop.2.pop.2) h.pop.pop.top' Nat.one_pos (by decide) _⟩

/-- `SIGNEXTEND` uses two items, also when it leaves the second as it is. -/
theorem localStack_signextend : LocalStack 2 2 signextend := by
  intro b b' s s' h
  have hext : s.pop.1 = s'.pop.1 := h.get (i := 0) (by decide) le_rfl
  have hx : s.pop.2.get 0 = s'.pop.2.get 0 := h.pop.get (by decide) (by decide)
  unfold signextend
  dsimp only
  rw [hext, hx]
  split
  · exact ⟨(h.pop.set Nat.one_pos _).items,
      untouched_set (n := 2) (s := s.pop.2) h.pop.top Nat.one_pos (by decide) _,
      untouched_set (n := 2) (s := s'.pop.2) h.pop.top' Nat.one_pos (by decide) _⟩
  · exact ⟨h.pop.items, .refl, .refl⟩

/-- A push uses the slot above the items it is computed from. -/
theorem localStack_push {n : Nat} {f : StackTop → Word}
    (hf : ∀ b b' s s', Window n b b' n s s' → f s = f s') :
    LocalStack n (n + 1) fun s => s.push (f s) := by
  intro b b' s s' h
  dsimp only
  rw [hf b b' s s' h]
  exact ⟨(h.push_new _).items, untouched_push h.top n.lt_succ_self _,
    untouched_push h.top' n.lt_succ_self _⟩

/-- `DUP` uses the items down to the one it copies. -/
theorem localStack_dup (k : Nat) : LocalStack (k + 1) (k + 2) (dup k) :=
  localStack_push (f := fun s => s.get k) fun _ _ _ _ h => h.get k.lt_succ_self le_rfl

/-- `SWAP` uses the items down to the one it exchanges. -/
theorem localStack_swap (k : Nat) : LocalStack (k + 2) (k + 2) (swap (k + 1)) := by
  intro b b' s s' h
  have ha : s.get (k + 1) = s'.get (k + 1) := h.get (by omega) le_rfl
  have ht : s.get 0 = s'.get 0 := h.get (by omega) le_rfl
  unfold swap
  dsimp only
  rw [ha, ht]
  have hset := h.set (show 0 < k + 2 by omega) (s'.get (k + 1))
  refine ⟨(hset.set (show k + 1 < k + 2 by omega) _).items, ?_, ?_⟩
  · exact (untouched_set h.top (by omega) le_rfl _).trans
      (untouched_set hset.top (by omega) le_rfl _)
  · exact (untouched_set h.top' (by omega) le_rfl _).trans
      (untouched_set hset.top' (by omega) le_rfl _)

/-! ### Instructions reading the execution state -/

variable {M : Memory → Memory → Prop}

/-- What instructions reading the execution state leave of two runs. -/
structure StateEnds (M : Memory → Memory → Prop) (b b' w : Nat) (s s' : StackTop)
    (st : ExecutionState) (x x' : StackTop × ExecutionState) : Prop where
  items : SameItems b b' w x.1 x'.1
  untouched : Untouched b w s x.1
  untouched' : Untouched b' w s' x'.1
  state : StateRel M x.2 x'.2
  grows : st.Grows x.2

/-- On stacks that share `n` items and related states the implementation does the same, and leaves
stacks that share `w` items. -/
def LocalState (M : Memory → Memory → Prop) (n w : Nat)
    (f : StackTop → ExecutionState → HostM (StackTop × ExecutionState)) : Prop :=
  ∀ b b' s s' st st', Window n b b' n s s' → StateRel M st st' →
    Lockstep (StateEnds M b b' w s s' st) (f s st) (f s' st')

/-- The ends agree after the same item is pushed. -/
theorem StateEnds.push {b b' : Nat} {s s' : StackTop} {st st₁ st₁' : ExecutionState}
    (h : Window 0 b b' 0 s s') (hst : StateRel M st₁ st₁') (hgrows : st.Grows st₁) (v : Word) :
    StateEnds M b b' 1 s s' st (s.push v, st₁) (s'.push v, st₁') :=
  ⟨(h.push_new v).items, untouched_push h.top Nat.one_pos v, untouched_push h.top' Nat.one_pos v,
    hst, hgrows⟩

/-- The ends agree after the top item is replaced by the same item. -/
theorem StateEnds.set {b b' : Nat} {s s' : StackTop} {st st₁ st₁' : ExecutionState}
    (h : Window 1 b b' 1 s s') (hst : StateRel M st₁ st₁') (hgrows : st.Grows st₁) (v : Word) :
    StateEnds M b b' 1 s s' st (s.set 0 v, st₁) (s'.set 0 v, st₁') :=
  ⟨(h.set Nat.one_pos v).items, untouched_set h.top Nat.one_pos le_rfl v,
    untouched_set h.top' Nat.one_pos le_rfl v, hst, hgrows⟩

/-- An instruction that pushes an item of the state uses no items. -/
theorem localState_pushes {value : ExecutionState → Word}
    (hvalue : ∀ st st', StateRel M st st' → value st = value st') :
    LocalState M 0 1 (pushes value) := by
  intro b b' s s' st st' h hst
  unfold pushes
  rw [hvalue st st' hst]
  exact .ret (.push h hst .refl _)

/-- The cached transaction context is the same in both runs. -/
theorem getTxContext_lockstep {st st' : ExecutionState} (hst : StateRel M st st') :
    Lockstep (fun x x' => x.1 = x'.1 ∧ StateRel M x.2 x'.2 ∧ st.Grows x.2) st.getTxContext
      st'.getTxContext := by
  rw [hst.eq]
  unfold ExecutionState.getTxContext
  dsimp only
  split
  · exact .ask fun tx => .ret ⟨rfl, ⟨hst.memory, rfl⟩, .of_eq rfl rfl rfl⟩
  · exact .ret ⟨rfl, ⟨hst.memory, rfl⟩, .refl⟩

/-- An instruction on the transaction context uses no items. -/
theorem localState_pushesTx (value : TxContext → Word) : LocalState M 0 1 (pushesTx value) := by
  intro b b' s s' st st' h hst
  refine (getTxContext_lockstep hst).bind ?_
  rintro ⟨tx, st₁⟩ ⟨tx', st₁'⟩ ⟨rfl, hst₁, hgrows⟩
  exact .ret (.push h hst₁ hgrows _)

/-- `CALLDATALOAD` uses one item. -/
theorem localState_calldataload : LocalState M 1 1 calldataload := by
  intro b b' s s' st st' h hst
  unfold calldataload
  rw [h.get (i := 0) Nat.one_pos le_rfl, hst.msg]
  dsimp only
  split
  · exact .ret (.set h hst .refl _)
  · exact .ret (.set h hst .refl _)

/-- `BLOCKHASH` uses one item. -/
theorem localState_blockhash : LocalState M 1 1 blockhash := by
  intro b b' s s' st st' h hst
  unfold blockhash
  rw [h.get (i := 0) Nat.one_pos le_rfl]
  refine (getTxContext_lockstep hst).bind ?_
  rintro ⟨tx, st₁⟩ ⟨tx', st₁'⟩ ⟨rfl, hst₁, hgrows⟩
  dsimp only
  split
  · exact .ask fun header => .ret (.set h hst₁ hgrows _)
  · exact .ret (.set h hst₁ hgrows _)

/-- `SELFBALANCE` uses no items. -/
theorem localState_selfbalance : LocalState M 0 1 selfbalance := by
  intro b b' s s' st st' h hst
  unfold selfbalance
  rw [hst.msg]
  exact .ask fun balance => .ret (.push h hst .refl _)

/-! ### Instructions with gas and status -/

section InstrM

variable {n m k : Nat}

/-- `EXP` uses two items. -/
theorem local_exp : Local M 2 2 1 k (fun _ => k) exp exp :=
  (local_pop (by decide)).bind fun _ => (local_top (by decide)).bind fun _ =>
    (local_charge _).bind fun _ => local_setTop (by decide) _

/-- The cold account charge uses no items. -/
theorem local_accessAccount (addr : Address) :
    Local M n m m k (fun _ => k) (accessAccount addr) (accessAccount addr) :=
  (local_host _).bind fun _ => .ite (fun _ => local_charge _) fun _ => local_pure ()

/-- An account query uses one item. -/
theorem local_accountQuery (query : Address → HostCall)
    (value : ∀ addr, (query addr).Answer → Word) :
    Local M 1 1 1 k (fun _ => k) (accountQuery query value) (accountQuery query value) :=
  (local_top (by decide)).bind fun _ => (local_accessAccount _).bind fun _ =>
    (local_host _).bind fun _ => local_setTop (by decide) _

/-- `SLOAD` uses one item. -/
theorem local_sload : Local M 1 1 1 k (fun _ => k) sload sload :=
  (local_top (by decide)).bind fun _ => local_state_bind fun _ _ _ _ => (local_host _).bind fun _ =>
    .ite (fun _ => (local_charge _).bind fun _ => (local_host _).bind fun _ =>
        local_setTop (by decide) _)
      fun _ => (local_host _).bind fun _ => local_setTop (by decide) _

/-- `SSTORE` uses two items. -/
theorem local_sstore : Local M 2 2 0 k (fun _ => k) sstore sstore := by
  refine local_state_bind fun st mem _ _ => .ite (fun _ => local_exit_bind) fun _ => ?_
  refine local_readGas.bind fun gas => .ite (fun _ => local_exit_bind) fun _ => ?_
  refine (local_pop (by decide)).bind fun key => (local_pop (by decide)).bind fun value => ?_
  refine local_state_bind fun _ _ _ _ => (local_host _).bind fun access => ?_
  refine (local_host _).bind fun status => (local_charge _).bind fun _ => ?_
  exact local_addRefund _

/-- The topics are popped one after the other. -/
theorem local_popTopics (t : Nat) (ht : m + t ≤ n) :
    Local M n (m + t) m k (fun _ => k) ((List.replicate t ()).mapM fun _ => pop)
      ((List.replicate t ()).mapM fun _ => pop) := by
  have hloop : ∀ t, m + t ≤ n → ∀ acc : List Word,
      Local M n (m + t) m k (fun _ => k) (List.mapM.loop (fun _ => pop) (List.replicate t ()) acc)
        (List.mapM.loop (fun _ => pop) (List.replicate t ()) acc) := by
    intro t
    induction t with
    | zero => exact fun _ acc => local_pure acc.reverse
    | succ t ih =>
      intro ht acc
      exact (local_pop (m := m + t) (by omega)).bind fun a => ih (by omega) (a :: acc)
  exact hloop t ht []

variable (hM : IsMemoryRel M)

include hM

/-- `KECCAK256` uses two items, and then the memory up to the end of its access. -/
theorem local_keccak256 [Ethash] : Local M 2 2 1 k (fun _ => 0) keccak256 keccak256 := by
  refine (local_pop (by decide)).bind fun index => (local_top (by decide)).bind fun size => ?_
  refine (local_requireMemory hM _ _).bind fun _ => (local_charge _).bind fun _ => ?_
  refine local_state_bind fun st mem hmem hk => ?_
  dsimp only
  rw [hM.slice_eq hmem ((le_max_right _ _).trans hk)]
  exact (local_setTop (by decide) _).forget

/-- The rest of an access is filled with zeros. -/
theorem local_writeZeros {i j size : Nat} (hk : accessEnd i size ≤ k) (hj : j ≤ size) :
    Local M n m m k (fun _ => 0)
      (if size - j > 0 then writeMemory (i + j) (List.replicate (size - j) 0) else pure ())
      (if size - j > 0 then writeMemory (i + j) (List.replicate (size - j) 0) else pure ()) := by
  apply Local.ite
  · intro _
    refine (local_writeMemory hM ?_).forget
    rw [List.length_replicate]
    exact (accessEnd_add_le (by omega)).trans hk
  · exact fun _ => (local_pure ()).forget

/-- `CALLDATACOPY` and `CODECOPY` use three items. -/
theorem local_copy {buffer : ExecutionState → Bytes}
    (hbuffer : ∀ (st : ExecutionState) mem, buffer { st with memory := mem } = buffer st) :
    Local M 3 3 0 k (fun _ => 0) (copy buffer) (copy buffer) := by
  refine (local_pop (by decide)).bind fun memIndex => (local_pop (by decide)).bind fun index => ?_
  refine (local_pop (by decide)).bind fun size => (local_requireMemory hM _ _).bind fun _ => ?_
  have hk := le_max_right k (accessEnd memIndex.toSize size.toSize)
  refine local_state_bind fun st mem _ _ => ?_
  dsimp only
  rw [hbuffer st mem]
  generalize (if (buffer st).length < index.toNat then (buffer st).length else index.toSize) = src
  refine (local_charge _).bind fun _ => ?_
  apply Local.ite
  · intro _
    refine (local_writeMemory hM ?_).bind fun _ => local_writeZeros hM hk (Nat.min_le_left _ _)
    refine (accessEnd_le_of_le ?_).trans hk
    exact (List.length_take_le _ _).trans (Nat.min_le_left _ _)
  · exact fun _ => local_writeZeros hM hk (Nat.min_le_left _ _)

/-- `EXTCODECOPY` uses four items. -/
theorem local_extcodecopy : Local M 4 4 0 k (fun _ => 0) extcodecopy extcodecopy := by
  refine (local_pop (by decide)).bind fun addr => (local_pop (by decide)).bind fun memIndex => ?_
  refine (local_pop (by decide)).bind fun index => (local_pop (by decide)).bind fun size => ?_
  refine (local_requireMemory hM _ _).bind fun _ => (local_charge _).bind fun _ => ?_
  have hk := le_max_right k (accessEnd memIndex.toSize size.toSize)
  refine (local_accessAccount _).bind fun _ => .ite (fun _ => ?_) fun _ => (local_pure ()).forget
  refine (local_host _).bind fun copied => (local_writeMemory hM ?_).bind fun _ => ?_
  · exact (accessEnd_le_of_le (List.length_take_le _ _)).trans hk
  · exact local_writeZeros hM hk (List.length_take_le _ _)

/-- `RETURNDATACOPY` uses three items. -/
theorem local_returndatacopy :
    Local M 3 3 0 k (fun _ => 0) returndatacopy returndatacopy := by
  refine (local_pop (by decide)).bind fun memIndex => (local_pop (by decide)).bind fun index => ?_
  refine (local_pop (by decide)).bind fun size => (local_requireMemory hM _ _).bind fun _ => ?_
  have hk := le_max_right k (accessEnd memIndex.toSize size.toSize)
  refine local_state_bind fun st mem _ _ => .ite (fun _ => local_exit_bind) fun _ => ?_
  refine .ite (fun _ => local_exit_bind) fun _ => (local_charge _).bind fun _ => ?_
  apply Local.ite
  · intro _
    exact (local_writeMemory hM ((accessEnd_le_of_le (List.length_take_le _ _)).trans hk)).forget
  · exact fun _ => (local_pure ()).forget

/-- `MLOAD` uses one item. -/
theorem local_mload : Local M 1 1 1 k (fun _ => 0) mload mload := by
  refine (local_top (by decide)).bind fun index => (local_requireMemorySmall hM _ _).bind fun _ => ?_
  refine local_state_bind fun st mem hmem hk => ?_
  dsimp only
  rw [hM.slice_eq hmem ((le_max_right _ _).trans hk)]
  exact (local_setTop (by decide) _).forget

/-- `MSTORE` uses two items. -/
theorem local_mstore : Local M 2 2 0 k (fun _ => 0) mstore mstore := by
  refine (local_pop (by decide)).bind fun index => (local_pop (by decide)).bind fun value => ?_
  refine (local_requireMemorySmall hM _ _).bind fun _ => (local_writeMemory hM ?_).forget
  rw [show (Bytes32.bytes value).length = 32 from BigEndian.length_store _ _]
  exact Nat.le_max_right _ _

/-- `MSTORE8` uses two items. -/
theorem local_mstore8 : Local M 2 2 0 k (fun _ => 0) mstore8 mstore8 :=
  (local_pop (by decide)).bind fun index => (local_pop (by decide)).bind fun _ =>
    (local_requireMemorySmall hM _ _).bind fun _ =>
      (local_writeMemory hM (Nat.le_max_right k (accessEnd index.toSize 1))).forget

/-- `LOG` uses an item for each topic, and two for the data. -/
theorem local_log (t : Nat) : Local M (t + 2) (t + 2) 0 k (fun _ => 0) (log t) (log t) := by
  refine local_state_bind fun st mem _ _ => .ite (fun _ => ?_) fun _ => ?_
  · exact (local_modifyGas fun _ => 0).bind fun _ => local_exit_bind
  · refine (local_pop (by omega)).bind fun offset => (local_pop (by omega)).bind fun size => ?_
    refine (local_requireMemory hM _ _).bind fun _ => (local_charge _).bind fun _ => ?_
    have htopics := local_popTopics (M := M) (n := t + 2) (m := 0)
      (k := max k (accessEnd offset.toSize size.toSize)) t (by omega)
    rw [Nat.zero_add] at htopics
    refine htopics.bind fun topics => local_state_bind fun st mem hmem hk => ?_
    dsimp only
    rw [hM.slice_eq hmem ((le_max_right _ _).trans hk)]
    exact (local_host (HostCall.emitLog st.msg.recipient
      (st.memory.slice offset.toSize size.toSize) topics)).forget

/-- The output is set to an access that is within the memory. -/
theorem local_returnImpl (status : StatusCode) :
    Local M 2 2 2 k (fun _ => 0) (returnImpl status) (returnImpl status) := by
  refine (local_readItem (by decide) le_rfl).bind fun offset => ?_
  refine (local_readItem (by decide) le_rfl).bind fun size => ?_
  refine (local_requireMemory hM _ _).bind fun _ => ?_
  have hk := le_max_right k (accessEnd offset.toSize size.toSize)
  by_cases hsize : size.toSize ≠ 0
  · -- The offset and the size are set together.
    have hset : Local M 2 2 2 (max k (accessEnd offset.toSize size.toSize)) (fun _ => 0)
        (modifyState (fun s =>
          { s with outputSize := size.toSize, outputOffset := offset.toSize }) >>= fun _ =>
            pure status)
        (modifyState (fun s =>
          { s with outputSize := size.toSize, outputOffset := offset.toSize }) >>= fun _ =>
            pure status) := by
      refine (local_modifyState fun s s' hmem h => ?_).bind fun _ => (local_pure status).forget
      refine ⟨⟨h.memory, by rw [h.eq]⟩, le_rfl, fun _ _ => rfl, id, fun _ => ?_⟩
      exact hk.trans hmem
    simp only [if_pos hsize]
    exact hset
  · simp only [if_neg hsize]
    refine (local_modifyState fun s s' hmem h => ?_).bind fun _ => (local_pure status).forget
    refine ⟨⟨h.memory, by rw [h.eq]⟩, le_rfl, fun _ _ => rfl, id, fun _ => ?_⟩
    show accessEnd s.outputOffset size.toSize ≤ s.memory.size
    rw [not_not.mp hsize, accessEnd_zero]
    exact Nat.zero_le _

/-! ### Calls and creations -/

/-- The number of items a call instruction requires. -/
def CallOp.items : CallOp → Nat
  | .call => 7
  | _ => 6

/-- The number of items a create instruction requires. -/
def CreateOp.items : CreateOp → Nat
  | .create => 3
  | .create2 => 4

/-- Where the output region of a call ends. -/
def CallLocals.outputEnd (l : CallLocals) : Nat := accessEnd l.outputOffset l.outputSize

omit hM in
/-- The last charge of a call instruction. -/
theorem local_callTail {cost : Int} {l : CallLocals} {c : Prop} [Decidable c] {dst : Address}
    (hk : l.outputEnd ≤ k) :
    Local M n m m k CallLocals.outputEnd
      (if c then do
        let exists_ ← host (HostCall.accountExists dst)
        let newAccountCost ← pure (if exists_ then 0 else 25000)
        charge (cost + newAccountCost)
        return l
      else do
        let newAccountCost ← pure 0
        charge (cost + newAccountCost)
        return l)
      (if c then do
        let exists_ ← host (HostCall.accountExists dst)
        let newAccountCost ← pure (if exists_ then 0 else 25000)
        charge (cost + newAccountCost)
        return l
      else do
        let newAccountCost ← pure 0
        charge (cost + newAccountCost)
        return l) := by
  -- The price of a new account is part of one charge.
  have hfinal : ∀ newAccountCost : Int, Local M n m m k CallLocals.outputEnd
      (charge (cost + newAccountCost) >>= fun _ => pure l)
      (charge (cost + newAccountCost) >>= fun _ => pure l) :=
    fun _ => (local_charge _).bind fun _ => local_return hk
  apply Local.ite
  · exact fun _ => (local_host _).bind fun exists_ => (local_pure _).bind fun _ => hfinal _
  · exact fun _ => (local_pure _).bind fun _ => hfinal _

/-- The checks of a call instruction cover its output region. -/
theorem local_callCharge (op : CallOp) :
    Local M op.items op.items 1 k CallLocals.outputEnd (callCharge op) (callCharge op) := by
  unfold callCharge
  cases op
  -- All three pop the gas and the address, and only `CALL` pops a value.
  all_goals
    refine Local.bind (local_pop (by decide)) fun gas => ?_
    refine Local.bind (local_pop (by decide)) fun x => ?_
  case call =>
    refine .ite (fun h => absurd h (by decide)) fun _ => ?_
    refine Local.bind (local_pop (by decide)) fun value => ?_
    refine Local.bind (local_pop (by decide)) fun _ => Local.bind (local_pop (by decide)) fun _ => ?_
    refine Local.bind (local_pop (by decide)) fun _ => Local.bind (local_pop (by decide)) fun _ => ?_
    refine Local.bind (local_push (by decide) 0) fun _ => ?_
    refine (local_setReturnData _).bind fun _ => ?_
    refine (local_accessAccount _).bind fun _ => (local_requireMemory hM _ _).bind fun _ => ?_
    refine (local_requireMemory hM _ _).bind fun _ => local_state_bind fun st mem hmem hk => ?_
    dsimp only
    -- The input has been checked, so that both memories agree on it.
    rw [hM.slice_eq hmem ((le_max_right _ _).trans ((le_max_left _ _).trans hk))]
    refine .ite (fun _ => .ite (fun _ => local_exit_bind) fun _ => ?_) fun h => absurd rfl h
    exact local_callTail (le_max_right _ _)
  all_goals
    refine .ite (fun _ => ?_) fun h => absurd (by decide) h
    refine (local_pure 0).bind fun value => ?_
    refine Local.bind (local_pop (by decide)) fun _ => Local.bind (local_pop (by decide)) fun _ => ?_
    refine Local.bind (local_pop (by decide)) fun _ => Local.bind (local_pop (by decide)) fun _ => ?_
    refine Local.bind (local_push (by decide) 0) fun _ => ?_
    refine (local_setReturnData _).bind fun _ => ?_
    refine (local_accessAccount _).bind fun _ => (local_requireMemory hM _ _).bind fun _ => ?_
    refine (local_requireMemory hM _ _).bind fun _ => local_state_bind fun st mem hmem hk => ?_
    dsimp only
    rw [hM.slice_eq hmem ((le_max_right _ _).trans ((le_max_left _ _).trans hk))]
    refine .ite (fun h => absurd h (by decide)) fun _ => ?_
    exact local_callTail (le_max_right _ _)

/-- The output of the callee is written to the output region. -/
theorem local_callReturn (l : CallLocals) (msg : Message) (result : CallResult) (hn : 0 < n)
    (hk : l.outputEnd ≤ k) :
    Local M n 1 1 k (fun _ => k) (callReturn l msg result) (callReturn l msg result) := by
  have hreturn : Local M n 1 1 k (fun _ => k)
      (do
        modify fun c => { c with gasLeft := c.gasLeft - (msg.gas - result.gasLeft) }
        modifyState fun s => { s with gasRefund := s.gasRefund + result.gasRefund })
      (do
        modify fun c => { c with gasLeft := c.gasLeft - (msg.gas - result.gasLeft) }
        modifyState fun s => { s with gasRefund := s.gasRefund + result.gasRefund }) := by
    refine (local_modifyGas fun g => g - (msg.gas - result.gasLeft)).bind fun _ => ?_
    exact local_addRefund _
  refine (local_setReturnData _).bind fun _ => ?_
  refine (local_setTop hn _).bind fun _ => .ite (fun _ => ?_) fun _ => hreturn
  refine (local_writeMemory hM ?_).bind fun _ => hreturn
  have hlen := List.length_take_le (min l.outputSize result.outputData.length) result.outputData
  exact (accessEnd_le_of_le (hlen.trans (Nat.min_le_left _ _))).trans hk

/-- Sending the message of a call replaces the item that was pushed for the result. -/
theorem local_callSend (l : CallLocals) (hn : 0 < n) (hk : l.outputEnd ≤ k) :
    Local M n 1 1 k (fun _ => k) (callSend l) (callSend l) := by
  refine local_readGas.bind fun gas => (local_modifyGas fun g => g + _).bind fun _ => ?_
  refine local_state_bind fun st mem _ _ => .ite (fun _ => local_pure ()) fun _ => ?_
  apply Local.ite
  · intro _
    refine (local_host _).bind fun balance => .ite (fun _ => local_pure ()) fun _ => ?_
    exact (local_host _).bind fun result => local_callReturn hM l _ result hn hk
  · exact fun _ => (local_host _).bind fun result => local_callReturn hM l _ result hn hk

/-- A call uses the items of its kind. -/
theorem local_callImpl (op : CallOp) :
    Local M op.items op.items 1 k (fun _ => 0) (callImpl op) (callImpl op) :=
  (local_callCharge hM op).bind fun l =>
    (local_callSend hM l (by cases op <;> decide) le_rfl).forget

/-- The charges of a creation use all its items. -/
theorem local_createCharge (op : CreateOp) :
    Local M op.items op.items 1 k (fun _ => 0) (createCharge op) (createCharge op) := by
  refine local_state_bind fun st mem _ _ => .ite (fun _ => local_exit_bind) fun _ => ?_
  cases op
  all_goals
    refine Local.bind (local_pop (by decide)) fun endowment => ?_
    refine Local.bind (local_pop (by decide)) fun offset => ?_
    refine Local.bind (local_pop (by decide)) fun size => ?_
  -- `CREATE2` pops a salt more; otherwise the two are the same.
  case create =>
    refine .ite (fun h => absurd h (by decide)) fun _ => (local_pure 0).bind fun salt => ?_
    refine Local.bind (local_push (by decide) 0) fun _ => ?_
    refine (local_setReturnData _).bind fun _ => ?_
    refine (local_requireMemory hM _ _).bind fun _ => .ite (fun _ => local_exit_bind) fun _ => ?_
    refine (local_charge _).bind fun _ => local_state_bind fun st mem hmem hk => ?_
    dsimp only
    rw [hM.slice_eq hmem ((le_max_right _ _).trans hk)]
    exact (local_pure _).forget
  case create2 =>
    refine .ite (fun _ => Local.bind (local_pop (by decide)) fun salt => ?_) fun h => absurd rfl h
    refine Local.bind (local_push (by decide) 0) fun _ => ?_
    refine (local_setReturnData _).bind fun _ => ?_
    refine (local_requireMemory hM _ _).bind fun _ => .ite (fun _ => local_exit_bind) fun _ => ?_
    refine (local_charge _).bind fun _ => local_state_bind fun st mem hmem hk => ?_
    dsimp only
    rw [hM.slice_eq hmem ((le_max_right _ _).trans hk)]
    exact (local_pure _).forget

omit hM in
/-- The result of a creation replaces the item that was pushed for it. -/
theorem local_createReturn (msg : Message) (result : CallResult) (hn : 0 < n) :
    Local M n 1 1 k (fun _ => k) (createReturn msg result) (createReturn msg result) := by
  refine (local_modifyGas fun g => g - (msg.gas - result.gasLeft)).bind fun _ => ?_
  refine (local_addRefund _).bind fun _ => (local_setReturnData _).bind fun _ => ?_
  exact .ite (fun _ => local_setTop hn _) fun _ => local_pure ()

omit hM in
/-- Sending the message of a creation replaces the item that was pushed for the result. -/
theorem local_createSend (op : CreateOp) (l : CreateLocals) (hn : 0 < n) :
    Local M n 1 1 k (fun _ => k) (createSend op l) (createSend op l) := by
  refine local_state_bind fun st mem _ _ => .ite (fun _ => local_pure ()) fun _ => ?_
  -- What the instruction does once the depth and the balance are checked.
  have hcreate : ∀ st : ExecutionState, Local M n 1 1 k (fun _ => k)
      (do
        let gasLeft ← read fun c => c.gasLeft
        let msg : Message := {
          gas := gasLeft - gasLeft / 64
          kind := if op = .create then .create else .create2
          inputData := l.initCode
          sender := st.msg.recipient
          depth := st.msg.depth + 1
          create2Salt := l.salt
          value := l.endowment }
        createReturn msg (← host (HostCall.call msg)))
      (do
        let gasLeft ← read fun c => c.gasLeft
        let msg : Message := {
          gas := gasLeft - gasLeft / 64
          kind := if op = .create then .create else .create2
          inputData := l.initCode
          sender := st.msg.recipient
          depth := st.msg.depth + 1
          create2Salt := l.salt
          value := l.endowment }
        createReturn msg (← host (HostCall.call msg))) :=
    fun st => local_readGas.bind fun gas => (local_host _).bind fun result =>
      local_createReturn _ result hn
  apply Local.ite
  · intro _
    exact (local_host _).bind fun balance => .ite (fun _ => local_pure ()) fun _ => hcreate st
  · exact fun _ => hcreate st

/-- A creation uses the items of its kind. -/
theorem local_createImpl (op : CreateOp) :
    Local M op.items op.items 1 k (fun _ => 0) (createImpl op) (createImpl op) :=
  (local_createCharge hM op).bind fun l => local_createSend op l (by cases op <;> decide)

end InstrM

/-! ### All core implementations -/

/-- The number of items an instruction requires. -/
def itemsRequired (op : Opcode) : Nat := (traits op).stackHeightRequired.toNat

/-- The number of slots an instruction uses: the items it requires, and the slot above the top if it
makes the stack higher. -/
def slotsUsed (op : Opcode) : Nat :=
  max (itemsRequired op) ((traits op).stackHeightRequired + (traits op).stackHeightChange).toNat

/-- On stacks that share `n` items the implementation does the same, uses at most `w` slots, and
leaves the same items in them. -/
def LocalInstr (M : Memory → Memory → Prop) (n w : Nat) {α : Type} (p : InstrM α) : Prop :=
  ∃ m, ∀ b b' c c', Related M n b b' n c c' → Lockstep (Ends M w b b' m c c') (p c) (p c')

/-- A core implementation, whatever its shape, that uses at most `w` slots from the lowest of `n`
items on. -/
def LocalFn (M : Memory → Memory → Prop) (n w : Nat) : CoreFn → Prop
  | .stack f => LocalStack n w f
  | .state f => LocalState M n w f
  | .result p => LocalInstr M n w p
  | .term p => LocalInstr M n w p
  | .pos => True

/-- An implementation that ends with as many visible items is a local instruction. -/
theorem localInstr_of_local {n m : Nat} {α : Type} {p : InstrM α} {k : α → Nat}
    (h : Local M n n m 0 k p p) : LocalInstr M n n p :=
  ⟨m, fun b b' c c' hc => (h b b' c c' hc (Nat.zero_le _)).mono fun _ _ => And.left⟩

/-- `GAS` pushes one item. -/
theorem localInstr_gas : LocalInstr M 0 1 gas := by
  refine ⟨1, fun b b' c c' h => ?_⟩
  show Lockstep _ (.ret (Except.ok (), { c with stack := c.stack.push (.ofInt64 c.gasLeft) }))
    (.ret (Except.ok (), { c' with stack := c'.stack.push (.ofInt64 c'.gasLeft) }))
  rw [h.gas]
  exact .ret ⟨rfl, (h.stack.push_new _).items, rfl, h.state,
    untouched_push h.stack.top Nat.one_pos _, untouched_push h.stack.top' Nat.one_pos _, .refl,
    fun _ _ => ⟨(h.stack.push_new (.ofInt64 c.gasLeft)).top,
      (h.stack.push_new (.ofInt64 c.gasLeft)).top'⟩⟩

/-- `LOG` pops its items only after the check for static mode. -/
theorem localInstr_log (hM : IsMemoryRel M) (k : Nat) : LocalInstr M (k + 2) (k + 2) (log k) :=
  localInstr_of_local (local_log hM k)

/-- Every core implementation is local to the slots its traits declare. -/
theorem local_coreImpl [Ethash] (hM : IsMemoryRel M) (op : Opcode) :
    LocalFn M (itemsRequired op) (slotsUsed op) (coreImpl op) := by
  cases op with
  -- The instructions of the stack alone.
  | add | mul | sub | div | sdiv | mod | smod | lt | gt | slt | sgt | eq | and_ | or_ | xor_
  | byte | shl | shr | sar => exact localStack_binary _
  | addmod | mulmod => exact localStack_ternary _
  | signextend => exact localStack_signextend
  | iszero =>
    exact localStack_set fun _ _ _ _ h => congrArg (fun x : Word => Word.ofBool (x = 0))
      (h.get Nat.one_pos le_rfl)
  | not_ =>
    exact localStack_set fun _ _ _ _ h => congrArg (fun x : Word => ~~~x) (h.get Nat.one_pos le_rfl)
  | pop => exact localStack_noop 1
  | jumpdest => exact localStack_noop 0
  | push0 => exact localStack_push (f := fun _ => 0) fun _ _ _ _ _ => rfl
  | dup k =>
    have hitems : itemsRequired (.dup k) = k.val + 1 := by simp only [itemsRequired, traits]; omega
    have hslots : slotsUsed (.dup k) = k.val + 2 := by
      simp only [slotsUsed, itemsRequired, traits]
      omega
    rw [hitems, hslots]
    exact localStack_dup k
  | swap k =>
    have hitems : itemsRequired (.swap k) = k.val + 2 := by simp only [itemsRequired, traits]; omega
    have hslots : slotsUsed (.swap k) = k.val + 2 := by
      simp only [slotsUsed, itemsRequired, traits]
      omega
    rw [hitems, hslots]
    exact localStack_swap k
  | log k =>
    have hitems : itemsRequired (.log k) = k.val + 2 := by simp only [itemsRequired, traits]; omega
    have hslots : slotsUsed (.log k) = k.val + 2 := by
      simp only [slotsUsed, itemsRequired, traits]
      omega
    rw [hitems, hslots]
    exact localInstr_log hM k
  -- The instructions that push what they read from the state.
  | address | caller | callvalue | calldatasize | codesize | returndatasize =>
    exact localState_pushes fun _ _ h => by rw [h.eq]
  | msize => exact localState_pushes fun _ _ h => by rw [hM.size_eq h.memory]
  | origin | gasprice | coinbase | timestamp | number | prevrandao | gaslimit | chainid
  | basefee => exact localState_pushesTx _
  | calldataload => exact localState_calldataload
  | blockhash => exact localState_blockhash
  | selfbalance => exact localState_selfbalance
  -- The instructions with a result, by their spec lemmas.
  | exp => exact localInstr_of_local local_exp
  | keccak256 => exact localInstr_of_local (local_keccak256 hM)
  | balance | extcodesize | extcodehash => exact localInstr_of_local (local_accountQuery _ _)
  | calldatacopy | codecopy => exact localInstr_of_local (local_copy hM fun _ _ => rfl)
  | extcodecopy => exact localInstr_of_local (local_extcodecopy hM)
  | returndatacopy => exact localInstr_of_local (local_returndatacopy hM)
  | mload => exact localInstr_of_local (local_mload hM)
  | mstore => exact localInstr_of_local (local_mstore hM)
  | mstore8 => exact localInstr_of_local (local_mstore8 hM)
  | sload => exact localInstr_of_local local_sload
  | sstore => exact localInstr_of_local local_sstore
  | gas => exact localInstr_gas
  | create => exact localInstr_of_local (local_createImpl hM .create)
  | create2 => exact localInstr_of_local (local_createImpl hM .create2)
  | call => exact localInstr_of_local (local_callImpl hM .call)
  | delegatecall => exact localInstr_of_local (local_callImpl hM .delegatecall)
  | staticcall => exact localInstr_of_local (local_callImpl hM .staticcall)
  | stop | invalid => exact localInstr_of_local (local_pure _)
  | return_ | revert => exact localInstr_of_local (local_returnImpl hM _)
  | jump | jumpi | pc | push _ => trivial

end Core

end Zvmone
