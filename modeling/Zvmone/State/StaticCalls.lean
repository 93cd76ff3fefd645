import Zvmone.State.Rollback
import Zvmone.Vm.StaticMode

/-! # Static calls change nothing

With the host of the state library a static frame, and everything it calls, leaves the logs and the
values of all accounts as they were. The main result is `static_changes_nothing`. -/

namespace Zvmone

open Host

/-- Two accounts agree on nonce, balance, code and the current values of the storage. -/
structure Account.SameValues (acc acc' : Account) : Prop where
  nonce : acc'.nonce = acc.nonce
  balance : acc'.balance = acc.balance
  code : acc'.code = acc.code
  current : ∀ key, (acc'.storage.slot key).current = (acc.storage.slot key).current

/-- An account has its own values. -/
theorem Account.SameValues.refl (acc : Account) : acc.SameValues acc :=
  ⟨rfl, rfl, rfl, fun _ => rfl⟩

/-- Having the same values is transitive. -/
theorem Account.SameValues.trans {acc₁ acc₂ acc₃ : Account} (h : acc₁.SameValues acc₂)
    (h' : acc₂.SameValues acc₃) : acc₁.SameValues acc₃ :=
  ⟨h'.nonce.trans h.nonce, h'.balance.trans h.balance, h'.code.trans h.code,
    fun key => (h'.current key).trans (h.current key)⟩

/-- Writing to a slot without changing its current value. -/
theorem Storage.current_insert {storage : Storage} {key : Bytes32} {v : StorageValue}
    (h : v.current = (storage.slot key).current) (k : Bytes32) :
    (Storage.slot (storage.insert key v) k).current = (storage.slot k).current := by
  unfold Storage.slot at h ⊢
  rw [AList.getD_insert]
  split
  next hk => rw [hk, h]
  next => rfl

/-- Two host states have the same logs and the same values of every account, where an absent account
counts as the default one. -/
structure HostState.SameValues (hs hs' : HostState) : Prop where
  logs : hs'.logs = hs.logs
  accounts : ∀ addr, (accountOr hs addr {}).SameValues (accountOr hs' addr {})

namespace HostState.SameValues

variable {hs hs' : HostState} {addr : Address} {acc : Account}

instance : IsPreorder HostState HostState.SameValues where
  refl _ := ⟨rfl, fun _ => .refl _⟩
  trans _ _ _ h h' := ⟨h'.logs.trans h.logs, fun addr => (h.accounts addr).trans (h'.accounts addr)⟩

/-- Writing an account with the same values. -/
theorem setAcc (h : (accountOr hs addr {}).SameValues acc) : hs.SameValues (setAcc hs addr acc) := by
  refine ⟨rfl, fun a => ?_⟩
  unfold accountOr at h ⊢
  rw [setAcc_state, State.find_set]
  split
  next ha => rw [ha]; exact h
  next => exact .refl _

/-- Writing an existing account with the same values. -/
theorem setAcc_of_find {acc₀ : Account} (hfind : hs.state.find addr = some acc₀)
    (h : acc₀.SameValues acc) : hs.SameValues (Host.setAcc hs addr acc) :=
  setAcc (by rw [accountOr, hfind]; exact h)

/-- The values of an account that is absent or found, whatever the flags of the default. -/
theorem accountOr_erasable (hs : HostState) (addr : Address) :
    (accountOr hs addr {}).SameValues (accountOr hs addr { erasable := true }) := by
  unfold accountOr
  cases hs.state.find addr <;> exact ⟨rfl, rfl, rfl, fun _ => rfl⟩

/-- Making an account warm changes no values. -/
theorem warmed (hs : HostState) (addr : Address) : hs.SameValues (Host.warmed hs addr) :=
  have h := accountOr_erasable hs addr
  setAcc ⟨h.nonce, h.balance, h.code, h.current⟩

/-- Touching an account changes no values. -/
theorem touched (hs : HostState) (addr : Address) :
    hs.SameValues (Host.setAcc hs addr (Host.touched hs addr)) :=
  setAcc ⟨rfl, rfl, rfl, fun _ => rfl⟩

/-- A transfer of nothing. -/
theorem transfer {sender recipient : Address} {u : Unit}
    (h : Host.transfer sender recipient 0 hs = .ok (u, hs')) : hs.SameValues hs' := by
  obtain ⟨senderAcc, recipientAcc, hsender, -, hrecipient, rfl⟩ := transfer_ok h
  have h₁ : hs.SameValues (Host.setAcc hs sender
      { senderAcc with balance := senderAcc.balance - 0 }) :=
    setAcc_of_find hsender ⟨rfl, BitVec.sub_zero _, rfl, fun _ => rfl⟩
  refine Trans.trans h₁ (setAcc_of_find hrecipient ⟨rfl, BitVec.add_zero _, rfl, fun _ => rfl⟩)

/-- Only the cache differs. -/
theorem of_cache {cache : Precompiles.Cache} : hs.SameValues { hs with cache } :=
  ⟨rfl, fun _ => .refl _⟩

end HostState.SameValues

section

variable [Ethash] {ctx : HostContext} {vm : VM} {msg : Message} {hs hs' : HostState}
  {r : CallResult} {fuel : Nat}

/-- The virtual machine runs static frames with allowed host methods only. -/
def VM.StaticSafe (vm : VM) : Prop :=
  ∀ fuel msg code, msg.IsStatic → (vm fuel msg code).Asks (HostCall.StaticAllowed msg)

/-- The Baseline interpreter respects static mode. -/
theorem staticSafe_baseline : VM.StaticSafe Baseline.execute :=
  fun fuel _ code h => Baseline.execute_asks_static fuel code h

/-- The Advanced interpreter respects static mode. -/
theorem staticSafe_advanced : VM.StaticSafe Advanced.execute :=
  fun fuel _ code h => Advanced.execute_asks_static fuel code h

namespace Host

/-- A message that was sent by a static frame neither bumps a nonce nor creates a contract. -/
theorem prepareMessage_harmless (hm : msg.Harmless) (hdepth : msg.depth ≠ 0)
    {prepared : Option Message} (h : prepareMessage msg hs = .ok (prepared, hs')) :
    prepared = some msg ∧ hs' = hs := by
  have hbumps : ¬ BumpsNonce msg := by
    rintro (h | h)
    · exact hdepth h
    · exact hm.kind h
  cases prepareMessage_ok h with
  | refused _ hbump => exact absurd hbump hbumps
  | call => exact ⟨rfl, if_neg hbumps⟩
  | create _ _ hkind => exact absurd hkind hm.kind

omit [Ethash] in
/-- Entering a harmless call changes no values. -/
theorem enterCall_harmless (hm : msg.Harmless) {u : Unit}
    (h : enterCall msg hs = .ok (u, hs')) : hs.SameValues hs' := by
  rcases enterCall_ok h with ⟨-, rfl⟩ | ⟨hkind, -, htransfer⟩
  · exact refl hs'
  · rw [hm.value hkind] at htransfer
    exact Trans.trans (HostState.SameValues.touched hs msg.recipient)
      (HostState.SameValues.transfer htransfer)

/-- Executing a harmless message changes nothing, if its code does not. -/
theorem Executed.sameValues {exec : Exec} (hm : msg.Harmless)
    (hexec : ∀ code, StateRun.Keeps HostState.SameValues (exec msg code))
    (h : Executed exec msg hs r hs') : hs.SameValues hs' := by
  cases h with
  | collision hkind => exact absurd hkind hm.kind
  | create hkind => exact absurd hkind hm.kind
  | precompile _ henter =>
    exact Trans.trans (enterCall_harmless hm henter) HostState.SameValues.of_cache
  | @call _ hs₁ _ _ henter _ hrun =>
    have hcode := hexec _ _ _ _ hrun
    exact Trans.trans (Trans.trans (enterCall_harmless hm henter) HostState.SameValues.of_cache)
      hcode

omit [Ethash] in
/-- Reverting changes nothing but the mark at the address `0x03`. -/
theorem revert_sameValues (h : hs.SameValues hs') : hs.SameValues (revert hs hs') := by
  have hlogs : (revert hs hs').logs = hs.logs := by
    show hs'.logs.take hs.logs.length = hs.logs
    rw [h.logs, List.take_length]
  refine ⟨hlogs, fun addr => ?_⟩
  have htouched := (HostState.SameValues.touched hs addr03).accounts addr
  rcases revert_state hs hs' with hstate | hstate
  · rw [accountOr, accountOr, hstate]
    exact .refl _
  · rw [show accountOr (revert hs hs') addr {}
        = accountOr (setAcc hs addr03 (touched hs addr03)) addr {} by
      rw [accountOr, accountOr, hstate]; rfl]
    exact htouched

/-- A harmless call changes no values if its execution does not. -/
theorem Called.sameValues {exec : Exec} (hm : msg.Harmless) (hdepth : msg.depth ≠ 0)
    (hexec : ∀ code, StateRun.Keeps HostState.SameValues (exec msg code))
    (h : Called exec msg hs r hs') : hs.SameValues hs' := by
  cases h with
  | refused hprepared =>
    cases (prepareMessage_harmless hm hdepth hprepared).1
  | success hprepared hexecuted =>
    obtain ⟨hsome, rfl⟩ := prepareMessage_harmless hm hdepth hprepared
    cases hsome
    exact hexecuted.sameValues hm hexec
  | failed hprepared hexecuted =>
    obtain ⟨hsome, rfl⟩ := prepareMessage_harmless hm hdepth hprepared
    cases hsome
    exact revert_sameValues (hexecuted.sameValues hm hexec)

/-- The answers to the host methods of a static frame change nothing, if `call` does not. -/
theorem answer_sameValues {call : Message → HostS CallResult}
    (hcall : ∀ m : Message, m.Harmless → m.depth = msg.depth + 1 →
      StateRun.Keeps HostState.SameValues (call m))
    {q : HostCall} (hq : q.StaticAllowed msg) :
    StateRun.Keeps HostState.SameValues (answer ctx call q) := by
  intro hs r hs' h
  -- The two queries that write are not allowed; warming keeps the values.
  cases q with
  | accountExists addr => rw [accountExists_ok h]; exact refl hs
  | getStorage addr key => rw [(getStorage_ok h).1]; exact refl hs
  | setStorage => exact hq.elim
  | getBalance addr => rw [(getBalance_ok h).1]; exact refl hs
  | getCodeSize addr => rw [getCodeSize_ok h]; exact refl hs
  | getCodeHash addr => rw [getCodeHash_ok h]; exact refl hs
  | copyCode addr codeOffset bufferSize => rw [copyCode_ok h]; exact refl hs
  | call m => exact hcall m hq.1 hq.2 hs r hs' h
  | getTxContext => rw [getTxContext_ok h]; exact refl hs
  | getBlockHash number => rw [show hs' = hs from @getBlockHash_ok hs hs' number r h]; exact refl hs
  | emitLog => exact hq.elim
  | accessAccount addr =>
    rw [(accessAccount_ok h).1]
    exact HostState.SameValues.warmed hs addr
  | accessStorage addr key =>
    obtain ⟨acc, hfind, -, rfl⟩ := accessStorage_ok h
    exact HostState.SameValues.setAcc_of_find hfind
      ⟨rfl, rfl, rfl, Storage.current_insert rfl⟩

/-- A harmless message changes nothing, at any depth but 0. -/
theorem call_sameValues (hvm : vm.StaticSafe) (fuel : Nat) (m : Message) (hm : m.Harmless)
    (hdepth : 0 < m.depth) : StateRun.Keeps HostState.SameValues (call ctx vm fuel m) := by
  induction fuel generalizing m with
  | zero => intro hs r hs' h; cases h
  | succ n ih =>
    intro hs r hs' h
    refine (callWith_ok h).sameValues hm hdepth.ne' fun code => ?_
    refine StateRun.Keeps.run_of_asks (fun q hq => answer_sameValues ?_ hq) (hvm n m code hm.static)
    exact fun m' hm' hdepth' => ih m' hm' (by omega)

/-- A static frame changes nothing, at any depth but 0. -/
theorem execVm_sameValues (hvm : vm.StaticSafe) (hm : msg.IsStatic) (hdepth : 0 < msg.depth)
    (fuel fuel' : Nat) (code : Bytes) :
    StateRun.Keeps HostState.SameValues (execVm ctx vm (call ctx vm fuel) fuel' msg code) :=
  .run_of_asks (fun _ hq => answer_sameValues
      (fun m hm' hdepth' => call_sameValues hvm fuel m hm' (by omega)) hq) (hvm fuel' msg code hm)

end Host

/-- Static calls change nothing: a static frame of either interpreter uses allowed host methods
only, and with the host of the state library the frame and everything it calls leave the logs and
the values of all accounts as they were. So do the messages such a frame sends. -/
theorem static_changes_nothing (hm : msg.IsStatic) :
    (∀ fuel code, (Baseline.execute fuel msg code).Asks (HostCall.StaticAllowed msg)) ∧
    (∀ fuel code, (Advanced.execute fuel msg code).Asks (HostCall.StaticAllowed msg)) ∧
    ∀ vm, vm = Baseline.execute ∨ vm = Advanced.execute → 1 ≤ msg.depth → ∀ ctx fuel hs r hs',
      (∀ fuel' code, execVm ctx vm (call ctx vm fuel) fuel' msg code hs = .ok (r, hs') →
        hs.SameValues hs') ∧
      (msg.Harmless → call ctx vm fuel msg hs = .ok (r, hs') → hs.SameValues hs') := by
  refine ⟨fun fuel code => Baseline.execute_asks_static fuel code hm,
    fun fuel code => Advanced.execute_asks_static fuel code hm, ?_⟩
  intro vm hvm hdepth ctx fuel hs r hs'
  have hsafe : vm.StaticSafe := by
    rcases hvm with rfl | rfl
    · exact staticSafe_baseline
    · exact staticSafe_advanced
  exact ⟨fun fuel' code h => execVm_sameValues hsafe hm (by omega) fuel fuel' code hs r hs' h,
    fun hharmless h => call_sameValues hsafe fuel msg hharmless (by omega) hs r hs' h⟩

end

/-- A static call of depth 1 at an account that tries to write its storage. -/
def staticCall : Message :=
  { gas := 100, depth := 1, flags := staticFlag, recipient := 0x10, codeAddress := 0x10,
    sender := 0x20 }

/-- The frame that runs `PUSH0 PUSH0 SSTORE` for a static message ends with
`ZVMC_STATIC_MODE_VIOLATION` and changes nothing. -/
theorem static_changes_nothing_sstore : ∃ (_ : Ethash) (ctx : HostContext) (r : CallResult)
    (hs' : HostState),
    execVm ctx Baseline.execute (call ctx Baseline.execute 1) 4 staticCall [0x5f, 0x5f, 0x55]
      invalidState = .ok (r, hs') ∧
    r.statusCode = .staticModeViolation ∧ invalidState.SameValues hs' := by
  let ethash : Ethash := ⟨fun _ => 0⟩
  let ctx : HostContext := ⟨{ coinbase := 0 },
    { gasLimit := 0, maxGasPrice := 0, maxPriorityGasPrice := 0, sender := 0, to_ := none,
      value := 0 }⟩
  obtain ⟨r, hs', hrun, hr⟩ : ∃ r hs',
      execVm ctx Baseline.execute (call ctx Baseline.execute 1) 4 staticCall [0x5f, 0x5f, 0x55]
        invalidState = .ok (r, hs') ∧ r.statusCode = .staticModeViolation := ⟨_, _, rfl, rfl⟩
  have h := static_changes_nothing (show staticCall.IsStatic by decide)
  exact ⟨ethash, ctx, r, hs', hrun, hr, (h.2.2 _ (.inl rfl) (by decide) ctx 1 invalidState r hs').1 4 _ hrun⟩

end Zvmone
