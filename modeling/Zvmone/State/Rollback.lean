import Zvmone.State.KeptByCalls
import Zvmone.Vm.AdvancedExecution

/-! # Failed calls are rolled back

A call that does not end with success leaves the logs and the accounts as they were right after
`prepare_message`, with one exception at the address `0x03`, and its result carries no refund and,
unless it reverted or was refused, no gas. The main result is `call_leaves_no_trace`. -/

namespace Zvmone

open Host

variable {hs hs' : HostState} {msg : Message} {r : CallResult}

/-! ### Results of failed executions -/

/-- What a result must not carry when the execution did not end with success. -/
structure CallResult.IsBare (r : CallResult) : Prop where
  gasRefund : r.gasRefund = 0
  gasLeft : r.statusCode ≠ .revert → r.gasLeft = 0

/-- The virtual machine returns bare results unless the execution ends with success. -/
def VM.FailsBare (vm : VM) : Prop :=
  ∀ fuel msg code, (vm fuel msg code).Returns fun r => r.statusCode ≠ .success → r.IsBare

/-- A failed execution has a bare result. -/
theorem ExecutionState.result_isBare {state : ExecutionState} {gas : Int}
    (h : (state.result gas).statusCode ≠ .success) : (state.result gas).IsBare := by
  have hsuccess : state.status ≠ .success := h
  constructor
  · simp only [ExecutionState.result, if_neg hsuccess]
  · intro hrevert
    have hrevert : state.status ≠ .revert := hrevert
    simp only [ExecutionState.result, hsuccess, hrevert, or_self, if_false]

/-- Failed executions of the Baseline interpreter have bare results. -/
theorem Baseline.execute_failsBare [Ethash] : VM.FailsBare Baseline.execute := by
  intro fuel msg code
  exact .bind fun _ => ExecutionState.result_isBare

/-- Failed executions of the Advanced interpreter have bare results. -/
theorem Advanced.execute_failsBare [Ethash] : VM.FailsBare Advanced.execute := by
  intro fuel msg code
  exact .bind fun _ => ExecutionState.result_isBare

/-- The results of precompiles are bare unless they report success. -/
theorem Precompiles.callPrecompile_isBare [Ethash] {cache : Precompiles.Cache}
    (h : (Precompiles.callPrecompile cache msg).result = .ok (some r))
    (hr : r.statusCode ≠ .success) : r.IsBare := by
  have hanswered := callPrecompile_answered h
  obtain ⟨_, hgas⟩ := hanswered.gasLeft
  exact ⟨hanswered.gasRefund, fun _ => by rwa [if_neg hr] at hgas⟩

namespace Host

variable [Ethash] {ctx : HostContext} {vm : VM} {exec : Exec} {fuel : Nat}

/-- A message that was executed without success has a bare result. -/
theorem Executed.isBare (hexec : ∀ m code s r s', exec m code s = .ok (r, s') →
      r.statusCode ≠ .success → r.IsBare)
    (h : Executed exec msg hs r hs') (hr : r.statusCode ≠ .success) : r.IsBare := by
  cases h with
  | collision hkind => exact ⟨rfl, fun _ => rfl⟩
  | create hkind hnonce hcode htransfer hrun hdeploy =>
    cases hdeploy with
    | failed hstatus =>
      have hbare := hexec _ _ _ _ _ hrun hstatus
      exact ⟨hbare.gasRefund, hbare.gasLeft⟩
    | refused hstatus => exact ⟨rfl, fun _ => rfl⟩
    | rejected hstatus => exact ⟨rfl, fun _ => rfl⟩
    | done hstatus => exact absurd hstatus hr
  | precompile hkind henter hresult => exact Precompiles.callPrecompile_isBare hresult hr
  | call hkind henter hresult hrun => exact hexec _ _ _ _ _ hrun hr

/-! ### The logs only grow -/

/-- The logs of the first state are the beginning of the logs of the second. -/
def LogsGrow (hs hs' : HostState) : Prop := hs.logs <+: hs'.logs

instance : IsPreorder HostState LogsGrow where
  refl hs := List.prefix_refl hs.logs
  trans _ _ _ := List.IsPrefix.trans

omit [Ethash] in
/-- A step that keeps the logs. -/
theorem logsGrow_of_eq (h : hs'.logs = hs.logs) : LogsGrow hs hs' := by
  show hs.logs <+: hs'.logs
  exact h ▸ List.prefix_refl hs.logs

/-- `prepare_message` keeps the logs. -/
theorem Prepared.logs {prepared : Option Message} (h : Prepared msg hs prepared hs') :
    hs'.logs = hs.logs := by
  have hbumped : ∀ senderAcc, (bumped hs msg senderAcc).logs = hs.logs := by
    intro senderAcc
    unfold bumped
    split <;> rfl
  cases h with
  | refused => rfl
  | call => exact hbumped _
  | create => exact hbumped _

omit [Ethash] in
/-- After the execution of a message, reverting gives back the logs of the snapshot. -/
theorem revert_logs (h : LogsGrow hs hs') : (revert hs hs').logs = hs.logs :=
  (List.prefix_iff_eq_take.1 h).symm

omit [Ethash] in
/-- The host only appends logs. -/
theorem logsGrow_keptByHost : KeptByHost LogsGrow where
  step h := by
    cases h with
    | log => exact List.prefix_append _ _
    | transfer h =>
      obtain ⟨_, _, _, _, _, rfl⟩ := transfer_ok h
      exact logsGrow_of_eq rfl
    | _ => exact logsGrow_of_eq rfl
  enter _ _ := logsGrow_of_eq rfl
  deploy _ _ hafter _ _ _ := hafter
  revert h := logsGrow_of_eq (revert_logs h)

/-! ### The accounts after a revert -/

omit [Ethash] in
/-- Reverting gives back every account but the one at `0x03`. -/
theorem revert_find_of_ne {snapshot : HostState} {a : Address} (ha : a ≠ addr03) :
    (revert snapshot hs).state.find a = snapshot.state.find a := by
  rcases revert_state snapshot hs with h | h <;> rw [h]
  exact State.find_set_of_ne _ ha _

omit [Ethash] in
/-- The account at `0x03` is given back too, or it is marked as erasable. -/
theorem revert_find_addr03 (snapshot : HostState) :
    (revert snapshot hs).state.find addr03 = snapshot.state.find addr03 ∨
      (revert snapshot hs).state.find addr03 = some (touched snapshot addr03) := by
  rcases revert_state snapshot hs with h | h <;> rw [h]
  · exact .inl rfl
  · exact .inr (State.find_set_self ..)

/-! ### The rollback of a failed call -/

/-- What a failed call may leave behind: the changes made by `prepare_message`, and a mark at the
address `0x03`. -/
structure LeavesNoTrace (msg : Message) (hs : HostState) (r : CallResult) (hs' : HostState)
    (prepared : Option Message) (hs₁ : HostState) : Prop where
  /-- `hs₁` is the state right after `prepare_message`. -/
  prepare : prepareMessage msg hs = .ok (prepared, hs₁)
  /-- At most the sender nonce is bumped and the created address made warm. -/
  cases : Prepared msg hs prepared hs₁
  logs : hs'.logs = hs.logs
  accounts : ∀ a, a ≠ addr03 → hs'.state.find a = hs₁.state.find a
  account03 : hs'.state.find addr03 = hs₁.state.find addr03 ∨
    hs'.state.find addr03 = some (touched hs₁ addr03)
  gasRefund : r.gasRefund = 0
  gasLeft : if prepared.isNone then hs' = hs ∧ r.gasLeft = msg.gas
    else r.statusCode ≠ .revert → r.gasLeft = 0

/-- A call that does not end with success leaves no trace, for every virtual machine whose failed
executions have bare results. -/
theorem call_leaves_no_trace_of_failsBare (hvm : vm.FailsBare)
    (h : call ctx vm fuel msg hs = .ok (r, hs')) (hr : r.statusCode ≠ .success) :
    ∃ prepared hs₁, LeavesNoTrace msg hs r hs' prepared hs₁ := by
  obtain ⟨n, rfl, hcalled⟩ := call_ok h
  cases hcalled with
  | refused hprepared =>
    have hcases := prepareMessage_ok hprepared
    cases hcases with
    | refused =>
      exact ⟨none, hs, hprepared, prepareMessage_ok hprepared, rfl, fun _ _ => rfl, .inl rfl, rfl,
        rfl, rfl⟩
  | success _ _ hstatus => exact absurd hstatus hr
  | @failed msg' _ hs₁ hs₂ hprepared hexecuted hstatus =>
    have hcases := prepareMessage_ok hprepared
    have hgrow : LogsGrow hs₁ hs₂ := logsGrow_keptByHost.executed
      (fun _ _ _ _ hcreates hrun => logsGrow_keptByHost.call hcreates hrun)
      (fun _ _ => trivial) hprepared hexecuted
    have hbare : r.IsBare := hexecuted.isBare
      (fun m code s r s' hrun => (hvm n m code).run hrun) hstatus
    exact ⟨some msg', hs₁, hprepared, hcases, by rw [revert_logs hgrow, hcases.logs],
      fun a ha => revert_find_of_ne ha, revert_find_addr03 hs₁, hbare.gasRefund, hbare.gasLeft⟩

/-- A call that does not end with success leaves no trace, whichever interpreter runs it. -/
theorem call_leaves_no_trace (hvm : vm = Baseline.execute ∨ vm = Advanced.execute)
    (h : call ctx vm fuel msg hs = .ok (r, hs')) (hr : r.statusCode ≠ .success) :
    ∃ prepared hs₁, LeavesNoTrace msg hs r hs' prepared hs₁ := by
  rcases hvm with rfl | rfl
  · exact call_leaves_no_trace_of_failsBare Baseline.execute_failsBare h hr
  · exact call_leaves_no_trace_of_failsBare Advanced.execute_failsBare h hr

end Host

/-- A state with an account whose code is `INVALID`, and the account that calls it. -/
def invalidState : HostState :=
  { state := ((⟨∅⟩ : State).set 0x10 { code := [0xfe], nonce := 1 }).set 0x20 { balance := 7 } }

/-- A call of the account whose code is `INVALID`, with a value. -/
def invalidCall : Message :=
  { gas := 100, depth := 1, recipient := 0x10, codeAddress := 0x10, sender := 0x20, value := 5 }

/-- The call ends with `ZVMC_INVALID_INSTRUCTION` and leaves no trace. -/
theorem call_leaves_no_trace_invalidCall : ∃ (_ : Ethash) (ctx : HostContext) (r : CallResult)
    (hs' : HostState) (prepared : Option Message) (hs₁ : HostState),
    Host.call ctx Baseline.execute 2 invalidCall invalidState = .ok (r, hs') ∧
    r.statusCode = .invalidInstruction ∧ LeavesNoTrace invalidCall invalidState r hs' prepared hs₁ := by
  let ethash : Ethash := ⟨fun _ => 0⟩
  let ctx : HostContext := ⟨{ coinbase := 0 },
    { gasLimit := 0, maxGasPrice := 0, maxPriorityGasPrice := 0, sender := 0, to_ := none,
      value := 0 }⟩
  obtain ⟨r, hs', hrun, hr⟩ : ∃ r hs', Host.call ctx Baseline.execute 2 invalidCall invalidState
      = .ok (r, hs') ∧ r.statusCode = .invalidInstruction := ⟨_, _, rfl, rfl⟩
  obtain ⟨prepared, hs₁, h⟩ := Host.call_leaves_no_trace (.inl rfl) hrun (by rw [hr]; decide)
  exact ⟨ethash, ctx, r, hs', prepared, hs₁, hrun, hr, h⟩

end Zvmone
