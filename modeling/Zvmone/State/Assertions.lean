import Zvmone.State.FiniteTree
import Zvmone.State.GasBounds
import Zvmone.State.KeptByCalls
import Zvmone.State.NewAddresses
import Zvmone.State.PrecompileBuffer
import Zvmone.State.Refunds
import Zvmone.Vm.FrameQueries

/-! # The assertions of the host

The host reads accounts that it assumes to exist, and asserts what the interpreter and the
validation of transactions have made sure of. No account goes away while a message runs
(`AccountsStay`), so every message that a frame sends is `Sendable`, and for a sendable message all
assertions hold but the one on the output buffer of a precompile (`call_error`). Of the assertions of
a transition only the one on the gas used can fail, when refunds that are taken back overflow it
(`assertions_hold_without_overflow`). -/

namespace Zvmone

open Interaction InstrM Instr StateRun Zvmone.Core Host

/-! ### Accounts stay -/

/-- No account goes away. -/
def AccountsStay (hs hs' : HostState) : Prop :=
  ∀ addr, (hs.state.find addr).isSome → (hs'.state.find addr).isSome

instance : IsPreorder HostState AccountsStay where
  refl _ _ := id
  trans _ _ _ h h' addr := h' addr ∘ h addr

section

variable {hs hs' : HostState} {addr : Address} {acc : Account}

/-- Writing an account removes none. -/
theorem isSome_find_setAcc (hs : HostState) (addr : Address) (acc : Account) :
    ((setAcc hs addr acc).state.find addr).isSome := by
  rw [setAcc_state, State.find_set, if_pos rfl]
  rfl

/-- All accounts stay when one is written. -/
theorem accountsStay_setAcc (hs : HostState) (addr : Address) (acc : Account) :
    AccountsStay hs (setAcc hs addr acc) := by
  intro a ha
  rw [setAcc_state, State.find_set]
  split
  · rfl
  · exact ha

/-- All accounts stay in a transfer. -/
theorem accountsStay_transfer {sender recipient : Address} {value : Word} {u : Unit}
    (h : transfer sender recipient value hs = .ok (u, hs')) : AccountsStay hs hs' := by
  obtain ⟨_, _, -, -, -, rfl⟩ := transfer_ok h
  exact IsTrans.trans _ _ _ (accountsStay_setAcc _ _ _) (accountsStay_setAcc _ _ _)

/-- Calls keep every account, reverts included. -/
theorem accountsStay_keptByHost : KeptByHost AccountsStay where
  step hstep := by
    cases hstep with
    | log | cache => exact fun _ => id
    | warm | touch | bump | store | warmSlot => exact accountsStay_setAcc _ _ _
    | transfer h => exact accountsStay_transfer h
  enter _ _ := accountsStay_setAcc _ _ _
  deploy _ _ h _ _ _ := IsTrans.trans _ _ _ (accountsStay_setAcc _ _ _)
    (IsTrans.trans _ _ _ h (accountsStay_setAcc _ _ _))
  revert {hs hs'} _ := by
    rcases revert_state hs hs' with h | h <;> intro a ha <;> rw [h]
    · exact ha
    · exact accountsStay_setAcc hs addr03 _ a ha

end

/-! ### What the assertions need -/

/-- The parties of a message as the host needs them to run it: the sender exists and can pay the
value. -/
structure Message.Ready (msg : Message) (hs : HostState) : Prop where
  gas : 0 ≤ msg.gas
  sender : (hs.state.find msg.sender).isSome
  call : msg.kind = .call → msg.recipient = msg.codeAddress
  funds : msg.kind ≠ .delegatecall → msg.value ≤ (accountOr hs msg.sender {}).balance
  /-- A delegated call runs on the account of the frame that sends it. -/
  delegated : msg.kind = .delegatecall → (hs.state.find msg.recipient).isSome

/-- A message as the host may be given it: the address of a new contract is still to be computed. -/
structure Message.Sendable (msg : Message) (hs : HostState) : Prop extends msg.Ready hs where
  create : msg.kind.IsCreate → msg.recipient = 0 ∧ msg.codeAddress = 0

/-- A message whose code runs: both its parties exist. -/
structure Message.Runs (msg : Message) (hs : HostState) : Prop where
  gas : 0 ≤ msg.gas
  sender : (hs.state.find msg.sender).isSome
  recipient : (hs.state.find msg.recipient).isSome

/-- What the host needs of a message outlives changes of other things than balances. -/
theorem Message.Ready.mono {msg : Message} {hs hs' : HostState} (h : msg.Ready hs)
    (hstay : AccountsStay hs hs')
    (hbalance : (accountOr hs' msg.sender {}).balance = (accountOr hs msg.sender {}).balance) :
    msg.Ready hs' where
  gas := h.gas
  sender := hstay _ h.sender
  call := h.call
  funds hkind := hbalance ▸ h.funds hkind
  delegated hkind := hstay _ (h.delegated hkind)

/-- The computation stops at no assertion. -/
abbrev Safe {α : Type} (m : HostS α) (hs : HostState) : Prop := Avoids .assertion m hs

namespace Host

variable {hs hs' : HostState} {addr : Address} {msg : Message}

/-- `get` is safe if the account is there. -/
theorem safe_getAccount (h : (hs.state.find addr).isSome) : Safe (getAccount addr) hs := by
  obtain ⟨acc, hacc⟩ := Option.isSome_iff_exists.1 h
  exact .of_ok (getAccount_eq_ok.2 ⟨hacc, rfl⟩)

/-- An assertion that holds is safe. -/
theorem safe_assert {c : Prop} [Decidable c] (h : c) : Safe (assert c) hs :=
  .of_ok (x := ((), hs)) (assert_eq_ok.2 ⟨h, rfl⟩)

/-- `access_account` is safe. -/
theorem safe_accessAccount : Safe (accessAccount addr) hs :=
  .bind (.of_ok rfl) fun _ _ _ => .bind (.of_ok rfl) fun _ _ _ => .ite (fun _ => .pure _) fun _ => .pure _

/-- A transfer between existing accounts of a value that the sender has. -/
theorem safe_transfer {sender recipient : Address} {value : Word}
    (hsender : (hs.state.find sender).isSome) (hrecipient : (hs.state.find recipient).isSome)
    (hvalue : value ≤ (accountOr hs sender {}).balance) :
    Safe (transfer sender recipient value) hs := by
  refine .bind (safe_getAccount hsender) fun senderAcc s₁ hget => ?_
  obtain ⟨hfind, rfl⟩ := getAccount_eq_ok.1 hget
  rw [accountOr_of_find hfind] at hvalue
  refine .bind (safe_assert hvalue) fun _ s₂ hassert => ?_
  obtain ⟨-, rfl⟩ := assert_eq_ok.1 hassert
  refine .bind (.of_ok rfl) fun _ s₃ hset => ?_
  obtain rfl := setAccount_eq_ok.1 hset
  exact .bind (safe_getAccount (accountsStay_setAcc _ _ _ _ hrecipient)) fun _ _ _ => .of_ok rfl

/-! ### The parts of a call -/

variable [Ethash]

/-- The address of a new contract is computed from 20 bytes and a number. -/
theorem computeNewAccountAddress_ok (sender : Address) (senderNonce : BitVec 64)
    (salt : Option Bytes32) (initCode : Bytes) :
    ∃ addr, computeNewAccountAddress sender senderNonce salt initCode = .ok addr := by
  obtain ⟨preimage, -, hcut⟩ := computeNewAccountAddress_eq sender senderNonce initCode salt
  exact ⟨_, hcut⟩

omit [Ethash] in
/-- A bumped nonce changes neither which accounts exist nor their balances. -/
theorem bumped_balance {senderAcc : Account} (hfind : hs.state.find msg.sender = some senderAcc)
    (addr : Address) : (accountOr (bumped hs msg senderAcc) addr {}).balance
      = (accountOr hs addr {}).balance := by
  unfold bumped
  split
  · rw [accountOr_setAcc]
    split
    next haddr => rw [haddr, accountOr_of_find hfind]
    next => rfl
  · rfl

omit [Ethash] in
/-- Marking an account as accessed does not change balances. -/
theorem warmed_balance (hs : HostState) (addr a : Address) :
    (accountOr (warmed hs addr) a {}).balance = (accountOr hs a {}).balance := by
  unfold warmed
  rw [accountOr_setAcc]
  split
  next ha =>
    subst ha
    unfold accountOr
    cases hs.state.find a <;> rfl
  next => rfl

/-- `prepare_message` is safe if the message may be sent. -/
theorem safe_prepareMessage (h : msg.Sendable hs) : Safe (prepareMessage msg) hs := by
  refine .bind (safe_getAccount h.sender) fun senderAcc s₁ hget => ?_
  refine .ite (fun _ => .pure _) fun _ => ?_
  have hbump : Safe (bumpNonce senderAcc msg) s₁ := .ite (fun _ => .of_ok rfl) fun _ => .pure _
  refine .bind hbump fun _ s₂ _ => .bind (.ite (fun hkind => ?_) fun _ => .pure _) fun _ _ _ => .pure _
  obtain ⟨hrecipient, hcode⟩ := h.create hkind
  refine .bind (safe_assert hrecipient) fun _ _ _ => .bind (safe_assert hcode) fun _ _ _ =>
    .bind (.lift ?_) fun _ _ _ => .bind safe_accessAccount fun _ _ _ => .pure _
  obtain ⟨addr, haddr⟩ := computeNewAccountAddress_ok msg.sender senderAcc.nonce
    (if msg.kind = .create2 then some msg.create2Salt else none) msg.inputData
  rw [haddr]
  exact nofun

/-- The message that `prepare_message` hands on. -/
theorem ready_of_prepared {msg' : Message} (h : msg.Sendable hs)
    (hprepared : prepareMessage msg hs = .ok (some msg', hs')) : msg'.Ready hs' := by
  have hstay := accountsStay_keptByHost.prepared hprepared
  cases prepareMessage_ok hprepared with
  | call hfind => exact h.toReady.mono hstay (bumped_balance hfind _)
  | create hfind hbump hkind =>
    have hkind' : msg.kind ≠ .call ∧ msg.kind ≠ .delegatecall := by
      constructor <;> intro heq <;> rw [heq] at hkind <;> revert hkind <;> decide
    exact {
      gas := h.gas
      sender := hstay _ h.sender
      call heq := absurd heq hkind'.1
      funds _ := by
        rw [warmed_balance, bumped_balance hfind]
        exact h.funds hkind'.2
      delegated heq := absurd heq hkind'.2 }

omit [Ethash] in
/-- The beginning of a creation is safe for a prepared message. -/
theorem safe_enterCreate (h : msg.Ready hs) (hkind : msg.kind.IsCreate) :
    Safe (enterCreate msg) hs := by
  have hdelegated : msg.kind ≠ .delegatecall := by
    intro heq
    rw [heq] at hkind
    revert hkind
    decide
  have hrest : (accountOr hs msg.recipient {}).nonce = 0 → Safe (do
      let newAcc ← getOrInsert msg.recipient
      assert (newAcc.nonce = 0)
      setAccount msg.recipient { newAcc with nonce := 1, storage := clearStorage newAcc.storage }
      transfer msg.sender msg.recipient msg.value
      return true) hs := by
    intro hnonce
    refine .bind (.of_ok rfl) fun newAcc s₁ hget => ?_
    obtain ⟨rfl, rfl⟩ : (hs.state.getOrInsert msg.recipient {}).1 = newAcc ∧
        { hs with state := (hs.state.getOrInsert msg.recipient {}).2 } = s₁ := by
      simpa [getOrInsert] using hget
    rw [getOrInsert_fst]
    refine .bind (safe_assert hnonce) fun _ s₂ hassert => ?_
    obtain ⟨-, rfl⟩ := assert_eq_ok.1 hassert
    refine .bind (.of_ok rfl) fun _ s₃ hset => ?_
    rw [setAccount_eq_ok, setAcc_getOrInsert] at hset
    subst hset
    refine .bind (safe_transfer (accountsStay_setAcc _ _ _ _ h.sender) (isSome_find_setAcc _ _ _) ?_)
      fun _ _ _ => .pure _
    -- The new account keeps its balance, in case it is the sender.
    rw [accountOr_setAcc]
    split
    next heq => exact heq ▸ h.funds hdelegated
    next => exact h.funds hdelegated
  refine .bind (.of_ok rfl) fun acc s₁ hfind => ?_
  obtain ⟨rfl, rfl⟩ := find_eq_ok.1 hfind
  unfold accountOr at hrest
  cases hacc : s₁.state.find msg.recipient with
  | none =>
    rw [hacc] at hrest
    exact hrest rfl
  | some acc =>
    rw [hacc] at hrest
    exact .ite (fun _ => .pure _) fun hfree => hrest (not_not.1 fun hnonce => hfree (.inl hnonce))

omit [Ethash] in
/-- The beginning of a call is safe for a prepared message. -/
theorem safe_enterCall (h : msg.Ready hs) : Safe (enterCall msg) hs := by
  have hcode : msg.kind ≠ .call ∨ msg.recipient = msg.codeAddress := by
    by_cases hkind : msg.kind = .call
    · exact .inr (h.call hkind)
    · exact .inl hkind
  refine .bind (safe_assert hcode) fun _ s₁ hassert => ?_
  obtain ⟨-, rfl⟩ := assert_eq_ok.1 hassert
  refine .ite (fun hkind => .bind (.of_ok rfl) fun _ s₂ htouch => ?_) fun _ => .pure _
  obtain ⟨-, rfl⟩ := touch_eq_ok.1 htouch
  have hfunds := h.funds (by rw [hkind]; decide)
  refine safe_transfer (accountsStay_setAcc _ _ _ _ h.sender) (isSome_find_setAcc _ _ _) ?_
  rw [accountOr_setAcc]
  split
  next heq => exact heq ▸ hfunds
  next => exact hfunds

omit [Ethash] in
/-- The deployment of a contract whose account exists. -/
theorem safe_deploy {result : CallResult} (hgas : 0 ≤ result.gasLeft)
    (hrecipient : (hs.state.find msg.recipient).isSome) : Safe (deploy msg result) hs := by
  refine .ite (fun _ => .pure _) fun _ => .bind (safe_assert hgas) fun _ s₁ hassert => ?_
  obtain ⟨-, rfl⟩ := assert_eq_ok.1 hassert
  exact .ite (fun _ => .pure _) fun _ => .ite (fun _ => .pure _) fun _ => .ite (fun _ => .pure _)
    fun _ => .bind (safe_getAccount hrecipient) fun _ _ _ => .bind (.of_ok rfl) fun _ _ _ => .pure _

/-- The code of a sendable message runs with both parties in place. -/
theorem runs_of_enters {m : Message} {code : Bytes} (h : msg.Sendable hs)
    (henters : Enters msg hs m code hs') : m.Runs hs' := by
  cases henters with
  | @create msg' hs₁ _ hprepared hkind henter =>
    -- A creation puts the new account in place itself.
    have hready := ready_of_prepared h hprepared
    have hstay := accountsStay_keptByHost.enterCreate trivial henter
    rcases enterCreate_ok henter with ⟨hfalse, -⟩ | ⟨-, -, -, htransfer⟩
    · cases hfalse
    · exact {
        gas := hready.gas
        sender := hstay _ hready.sender
        recipient := accountsStay_transfer htransfer _ (isSome_find_setAcc _ _ _) }
  | @call _ hs₁ hs₂ _ hprepared hkind henter hpre =>
    have hready := ready_of_prepared h hprepared
    have hstay := accountsStay_keptByHost.enterCall henter
    obtain ⟨-, rfl⟩ := callPrecompile_ok hpre
    refine ⟨hready.gas, hstay _ hready.sender, ?_⟩
    -- A delegated call runs in an account that is there already; a plain one puts its recipient in.
    rcases enterCall_ok henter with ⟨hcall, rfl⟩ | ⟨-, -, htransfer⟩
    · refine hready.delegated ?_
      cases hm : m.kind with
      | call => exact absurd hm hcall
      | delegatecall => rfl
      | create | create2 => exact absurd (by rw [hm]; decide) hkind
    · exact accountsStay_transfer htransfer _ (isSome_find_setAcc _ _ _)

/-- The message gets as far as a precompile that stops at an assertion, for its answer does not fit
the output buffer. -/
structure PrecompileAsserts (msg : Message) (hs : HostState) (msg' : Message) (hs' : HostState) :
    Prop where
  prepared : ∃ hs₁, prepareMessage msg hs = .ok (some msg', hs₁) ∧
    enterCall msg' hs₁ = .ok ((), hs')
  kind : ¬ msg'.kind.IsCreate
  stops : (Precompiles.callPrecompile hs'.cache msg').result = .error .assertion
  overflows : Precompiles.OverflowsBuffer msg'

/-- A precompile stops with the fault of its result. -/
theorem callPrecompile_error {e : Fault} (h : callPrecompile msg hs = .error e) :
    (Precompiles.callPrecompile hs.cache msg).result = .error e := by
  unfold callPrecompile at h
  dsimp only at h
  split at h
  next he => exact he.trans (congrArg Except.error (Except.error.inj h))
  next => cases h

/-- A ready message stops at an assertion of a precompile, or where its code does. -/
theorem executeMessage_error {exec : Exec} {hs₁ : HostState} {msg' : Message}
    (hprepared : prepareMessage msg hs = .ok (some msg', hs₁)) (hready : msg'.Ready hs₁)
    (hexec : ∀ {m code hs₁ r hs₂}, Enters msg hs m code hs₁ → exec m code hs₁ = .ok (r, hs₂) →
      0 ≤ r.gasLeft ∧ (hs₂.state.find m.recipient).isSome)
    (herror : executeMessage exec msg' hs₁ = .error .assertion) :
    (∃ hs', PrecompileAsserts msg hs msg' hs') ∨
      ∃ m code hs₁, Enters msg hs m code hs₁ ∧ exec m code hs₁ = .error .assertion := by
  unfold executeMessage at herror
  split at herror
  next hkind =>
    unfold create at herror
    -- The assertions before and after the init code hold.
    rcases bind_eq_error.1 herror with hassert | ⟨_, s, hassert, hrest⟩
    · exact absurd hassert (safe_assert hkind)
    obtain ⟨-, rfl⟩ := assert_eq_ok.1 hassert
    rcases bind_eq_error.1 hrest with henter | ⟨entered, hs₂, henter, hrest⟩
    · exact absurd henter (safe_enterCreate hready hkind)
    cases entered with
    | false => cases hrest
    | true =>
      have henters := Enters.create hprepared hkind henter
      rcases bind_eq_error.1 hrest with hcode | ⟨r, hs₃, hcode, hdeploy⟩
      · exact .inr ⟨_, _, _, henters, hcode⟩
      · obtain ⟨hgas, hrecipient⟩ := hexec henters hcode
        exact absurd hdeploy (safe_deploy hgas hrecipient)
  next hkind =>
    rcases bind_eq_error.1 herror with henter | ⟨_, hs₂, henter, hrest⟩
    · exact absurd henter (safe_enterCall hready)
    -- The transfer is covered, so a precompile or the code stops.
    rcases bind_eq_error.1 hrest with hpre | ⟨pre, hs₃, hpre, hrest⟩
    · have hstops := callPrecompile_error hpre
      exact .inl ⟨hs₂, ⟨hs₁, hprepared, henter⟩, hkind, hstops,
        (Precompiles.overflows_of_assertion hready.gas hstops).1⟩
    cases pre with
    | some r => cases hrest
    | none =>
      refine .inr ⟨msg', codeOf hs₂ msg', hs₃, .call hprepared hkind henter hpre, ?_⟩
      obtain ⟨-, rfl⟩ := callPrecompile_ok hpre
      rcases bind_eq_error.1 hrest with hfind | ⟨dst, s₄, hfind, hcode⟩
      · cases hfind
      obtain ⟨rfl, rfl⟩ := find_eq_ok.1 hfind
      rw [codeOf, accountOr]
      cases hacc : hs₂.state.find (if msg'.kind = .call then msg'.recipient else msg'.codeAddress) with
      | none => simpa only [hacc, Option.getD_none] using hcode
      | some acc => simpa only [hacc, Option.getD_some] using hcode

/-- A call of a sendable message stops at an assertion of a precompile, or where its code does. -/
theorem callWith_error {exec : Exec} (h : msg.Sendable hs)
    (hexec : ∀ {m code hs₁ r hs₂}, Enters msg hs m code hs₁ → exec m code hs₁ = .ok (r, hs₂) →
      0 ≤ r.gasLeft ∧ (hs₂.state.find m.recipient).isSome)
    (herror : callWith exec msg hs = .error .assertion) :
    (∃ msg' hs', PrecompileAsserts msg hs msg' hs') ∨
      ∃ m code hs₁, Enters msg hs m code hs₁ ∧ exec m code hs₁ = .error .assertion := by
  unfold callWith at herror
  rcases bind_eq_error.1 herror with hprepared | ⟨prepared, hs₁, hprepared, hrest⟩
  · exact absurd hprepared (safe_prepareMessage h)
  cases prepared with
  | none => cases hrest
  | some msg' =>
    have hready := ready_of_prepared h hprepared
    rcases bind_eq_error.1 hrest with hget | ⟨snapshot, s, hget, hrest'⟩
    · cases hget
    obtain ⟨rfl, rfl⟩ := get_eq_ok.1 hget
    -- Only the execution can fail: the rollback around it asserts nothing.
    rcases bind_eq_error.1 hrest' with hexecute | ⟨r, hs₂, -, hend⟩
    · rcases executeMessage_error hprepared hready hexec hexecute with ⟨hs', hpre⟩ | hcode
      · exact .inl ⟨msg', hs', hpre⟩
      · exact .inr hcode
    · split at hend
      · rcases bind_eq_error.1 hend with hmodify | ⟨_, _, _, hend⟩
        · cases hmodify
        · cases hend
      · cases hend

/-! ### The messages of a frame -/

variable {ctx : HostContext} {n : Nat} {code : Bytes} {f : Baseline.Frame} {m : Message}

omit [Ethash] in
/-- The nested message of a call instruction, but for its gas. -/
theorem callee_of_run {σ : Type} {env : Env HostCall.Answer Fault σ} {s s' : σ} {cop : CallOp}
    {c c' : Ctx} {l : CallLocals} (h : run env (callCharge cop c) s = .ok ((.ok l, c'), s')) :
    c'.state.msg = c.state.msg ∧
      ∃ dst input, l.msg = calleeMessage cop c.state.msg dst l.value input := by
  have hcharge := yields_callCharge_of cop (A := fun _ => True)
    (P := fun msg l => ∃ dst input, l.msg = calleeMessage cop msg dst l.value input)
    (fun _ => trivial) (fun _ => trivial) (fun _ _ _ dst _ _ input _ _ => ⟨dst, input, rfl⟩) c
  obtain ⟨_, -, houtcome, hl⟩ := run_wp (R := fun _ _ => True)
    (fun _ _ _ _ _ _ _ _ => ⟨(), trivial, trivial⟩) hcharge trivial h
  exact ⟨houtcome.same.msg, (hl l rfl).1⟩

omit [Ethash] in
/-- The charges of a creation keep the message of the frame. -/
theorem msg_of_createCharge {σ : Type} {env : Env HostCall.Answer Fault σ} {s s' : σ}
    {cop : CreateOp} {c c' : Ctx} {l : CreateLocals}
    (h : run env (createCharge cop c) s = .ok ((.ok l, c'), s')) :
    c'.state.msg = c.state.msg := by
  obtain ⟨_, -, houtcome, -⟩ := run_wp (R := fun _ _ => True)
    (fun _ _ _ _ _ _ _ _ => ⟨(), trivial, trivial⟩)
    (yields_createCharge (A := fun _ => True) cop c) trivial h
  exact houtcome.same.msg

/-- What the sender was found to have, it has. -/
theorem balance_of_affords {sender : Address} {value : Word}
    (h : Affords (frameEnv ctx n) hs sender value) : value ≤ (accountOr hs sender {}).balance := by
  by_cases hvalue : value = 0
  · rw [hvalue]
    exact BitVec.le_def.2 (Nat.zero_le _)
  · obtain ⟨s, balance, hbalance, hle⟩ := h hvalue
    obtain ⟨rfl, rfl⟩ := getBalance_ok hbalance
    exact hle

/-- A message of a frame whose parties are in place is sendable. -/
theorem sendable_of_reaches (hsender : (hs'.state.find f.state.msg.sender).isSome)
    (hrecipient : (hs'.state.find f.state.msg.recipient).isSome)
    (h : Reaches (frameEnv ctx n) (Baseline.step (Baseline.analyze code) f) hs (.call m) hs') :
    m.Sendable hs' := by
  have hmgas : 0 ≤ m.gas := by
    obtain ⟨-, op, g, hm⟩ := messageBounds h
    have hnonneg := hm.gas_nonneg
    unfold stipendOf at hnonneg
    split at hnonneg <;> omega
  obtain ⟨op, -, -, -, ⟨cop, -, hsend⟩ | ⟨cop, -, hsend⟩⟩ := Baseline.reaches_step h
  · obtain ⟨l, c, s₁, hrun, -, rfl, hvalue, -⟩ := reaches_callImpl hsend
    obtain ⟨hmsg, dst, input, hl⟩ := callee_of_run hrun
    have hmsg : c.state.msg = f.state.msg := hmsg
    have hbalance := balance_of_affords hvalue
    rw [hmsg] at hbalance
    -- Apart from the gas the message is that of the opcode.
    have hcallee : callMessage l c.gasLeft = { calleeMessage cop f.state.msg dst l.value input with
        gas := (callMessage l c.gasLeft).gas } := by
      rw [callMessage, hl]
      rfl
    rw [hcallee] at hmgas ⊢
    cases cop with
    | call | staticcall =>
      exact ⟨⟨hmgas, hrecipient, fun _ => rfl, fun _ => hbalance, fun h => (by cases h)⟩,
        fun h => absurd h (by decide : ¬ CallKind.call.IsCreate)⟩
    | delegatecall =>
      exact ⟨⟨hmgas, hsender, fun h => (by cases h), fun h => absurd rfl h, fun _ => hrecipient⟩,
        fun h => absurd h (by decide : ¬ CallKind.delegatecall.IsCreate)⟩
  -- A creation is sent by the frame's own account, which affords the endowment.
  · obtain ⟨l, c, s₁, hrun, -, rfl, hvalue, -⟩ := reaches_createImpl hsend
    have hmsg : c.state.msg = f.state.msg := msg_of_createCharge hrun
    have hbalance := balance_of_affords hvalue
    rw [hmsg] at hbalance
    have hkind : (createMessage cop l c).kind ≠ .call ∧ (createMessage cop l c).kind ≠ .delegatecall := by
      cases cop <;> constructor <;> intro h <;> cases h
    have hown : (createMessage cop l c).sender = f.state.msg.recipient := congrArg Message.recipient hmsg
    exact ⟨⟨hmgas, hown ▸ hrecipient, fun h => absurd h hkind.1, fun _ => hown ▸ hbalance,
      fun h => absurd h hkind.2⟩, fun _ => ⟨rfl, rfl⟩⟩

/-! ### The tree of calls -/

/-- What a frame asks besides calls stops at no assertion. -/
theorem safe_answer {call : Message → HostS CallResult} {q : HostCall}
    (hfee : ctx.tx.maxGasPrice ≥ ctx.block.baseFeeWord)
    (hown : ∀ addr, q.slotOwner = some addr → (hs.state.find addr).isSome)
    (hcall : ∀ m, q ≠ .call m) : Safe (answer ctx call q) hs := by
  cases q with
  | accountExists addr | getBalance addr | getCodeSize addr | getCodeHash addr =>
    refine .bind (.of_ok rfl) fun acc _ _ => ?_
    cases acc <;> exact .pure _
  | getStorage addr key =>
    refine .bind (safe_getAccount (hown addr rfl)) fun acc _ _ => ?_
    cases acc.storage.lookup key <;> exact .pure _
  | setStorage addr key _ =>
    exact .bind (safe_getAccount (hown addr rfl)) fun _ _ _ => .bind (.of_ok rfl) fun _ _ _ => .pure _
  | accessStorage addr key =>
    exact .bind (safe_getAccount (hown addr rfl)) fun _ _ _ => .bind (.of_ok rfl) fun _ _ _ => .pure _
  | copyCode addr codeOffset bufferSize => exact .bind (.of_ok rfl) fun _ _ _ => .pure _
  | getTxContext => exact .bind (safe_assert hfee) fun _ _ _ => .pure _
  | getBlockHash number => exact .pure _
  | emitLog addr data topics => exact .of_ok rfl
  | accessAccount addr => exact safe_accessAccount
  | call m => exact absurd rfl (hcall m)

/-- A frame whose parties are in place stops at an assertion of a sendable message it sends. -/
theorem exec_error (hfee : ctx.tx.maxGasPrice ≥ ctx.block.baseFeeWord) (h : m.Runs hs)
    (herror : run (frameEnv ctx n) (Baseline.execute n m code) hs = .error .assertion) :
    ∃ m' hs', Reaches (frameEnv ctx n) (Baseline.execute n m code) hs (.call m') hs' ∧
      m'.Sendable hs' ∧ call ctx Baseline.execute n m' hs' = .error .assertion := by
  rcases Baseline.execute_error herror with hfuel | hbounds |
    ⟨k, f, hs₁, q, hs', hpasses, hown, hstep, hreach, hq⟩
  · cases hfuel
  · cases hbounds
  have hmsg : f.state.msg = m := hpasses.msg
  have hstay : AccountsStay hs hs' := accountsStay_keptByHost.reaches hreach
  by_cases hcall : ∃ m', q = .call m'
  · obtain ⟨m', rfl⟩ := hcall
    refine ⟨m', hs', hreach, sendable_of_reaches ?_ ?_ hstep, hq⟩
    · exact hmsg ▸ hstay _ h.sender
    · exact hmsg ▸ hstay _ h.recipient
  · refine absurd hq (safe_answer hfee (fun addr haddr => ?_) fun m' hm' => hcall ⟨m', hm'⟩)
    rw [hown addr haddr, hmsg]
    exact hstay _ h.recipient

/-- A call of a sendable message stops at no assertion but those of precompiles. -/
theorem call_error {fuel : Nat} (hfee : ctx.tx.maxGasPrice ≥ ctx.block.baseFeeWord)
    (h : msg.Sendable hs) (herror : call ctx Baseline.execute fuel msg hs = .error .assertion) :
    ∃ n m hs' m' hs'', Calls ctx Baseline.execute fuel msg hs n m hs' ∧
      PrecompileAsserts m hs' m' hs'' := by
  induction fuel generalizing msg hs with
  | zero => cases herror
  | succ n ih =>
    have hexec : ∀ {m code hs₁ r hs₂}, Enters msg hs m code hs₁ →
        execVm ctx Baseline.execute (call ctx Baseline.execute n) n m code hs₁ = .ok (r, hs₂) →
        0 ≤ r.gasLeft ∧ (hs₂.state.find m.recipient).isSome := by
      intro m code hs₁ r hs₂ henters hrun
      have hruns := runs_of_enters h henters
      obtain ⟨_, -, hbounded⟩ := run_wp (R := fun _ _ => True) frameEnv_gas
        (Baseline.wp_execute_gas hruns.gas n code) trivial hrun
      exact ⟨hbounded.1, accountsStay_keptByHost.run
        (fun m s r s' _ hcall => accountsStay_keptByHost.keeps n m s r s' hcall) hrun _
        hruns.recipient⟩
    rcases callWith_error h hexec herror with ⟨m', hs', hpre⟩ | ⟨m, code, hs₁, henters, hcode⟩
    · exact ⟨n + 1, msg, hs, m', hs', .self, hpre⟩
    · obtain ⟨m', hs₂, hreach, hsendable, hcall⟩ :=
        exec_error hfee (runs_of_enters h henters) hcode
      obtain ⟨n', m₁, hs₃, m₂, hs₄, hcalls, hpre⟩ := ih hsendable hcall
      exact ⟨n', m₁, hs₃, m₂, hs₄, .nested henters hreach hcalls, hpre⟩

end Host

/-! ### Transactions -/

section transition

variable {block : BlockInfo} {tx : Transaction} {hs hs' : HostState} {senderAcc : Account}
  {executionGasLimit : Int}

/-- All accounts stay when the accounts of the transaction are made warm. -/
theorem accountsStay_warmUp (block : BlockInfo) (tx : Transaction) :
    Keeps AccountsStay (warmUp block tx) :=
  KeptByWarming.warmUp ⟨fun _ _ => accountsStay_setAcc _ _ _, fun _ => accountsStay_setAcc _ _ _,
    fun _ _ => accountsStay_setAcc _ _ _⟩ block tx

/-- Buying gas is safe for a valid transaction. -/
theorem safe_buyGas (hfind : hs.state.find tx.sender = some senderAcc)
    (h : ValidTransaction senderAcc block tx executionGasLimit) : Safe (buyGas block tx) hs := by
  have hprice : tx.effectiveGasPrice block ≤ tx.maxGasPrice := (effectiveGasPrice_bounds h.fee).2
  refine .bind (safe_assert h.fee) fun _ s₁ hassert => ?_
  obtain ⟨-, rfl⟩ := assert_eq_ok.1 hassert
  refine .bind (safe_assert h.tip) fun _ s₂ hassert => ?_
  obtain ⟨-, rfl⟩ := assert_eq_ok.1 hassert
  refine .bind (safe_assert hprice) fun _ s₃ hassert => ?_
  obtain ⟨-, rfl⟩ := assert_eq_ok.1 hassert
  exact .bind (safe_getAccount (by rw [hfind]; rfl)) fun _ _ _ => .of_ok rfl

/-- Making the accounts of the transaction warm is safe. -/
theorem safe_warmUp (hsender : (hs.state.find tx.sender).isSome) : Safe (warmUp block tx) hs := by
  have hitem : ∀ item hs, Safe (accessListItem item) hs := by
    intro item hs
    refine .bind safe_accessAccount fun _ s₁ haccess => ?_
    rw [(accessAccount_ok haccess).1]
    exact .bind (safe_getAccount (isSome_find_setAcc _ _ _)) fun _ _ _ => .of_ok rfl
  have hlist : ∀ hs, Safe (tx.accessList.forM accessListItem) hs := by
    induction tx.accessList with
    | nil => exact fun _ => .pure _
    | cons item items ih => exact fun _ => .bind (hitem item _) fun _ _ _ => ih _
  have hrest : ∀ hs, Safe (do
      tx.accessList.forM accessListItem
      let _ ← accessAccount block.coinbase) hs :=
    fun _ => .bind (hlist _) fun _ _ _ => .bind safe_accessAccount fun _ _ _ => .pure _
  refine .bind (safe_getAccount hsender) fun _ _ _ => .bind (.of_ok rfl) fun _ _ _ => ?_
  cases tx.to_ with
  | none => exact hrest _
  | some to_ => exact .bind safe_accessAccount fun _ _ _ => hrest _

/-- The call of a valid transaction starts with a message that the sender can pay. -/
theorem sendable_buildMessage {hs₀ hs₁ : HostState} {u u' : Unit}
    (hfind : hs.state.find tx.sender = some senderAcc)
    (h : ValidTransaction senderAcc block tx executionGasLimit)
    (hbuy : buyGas block tx hs = .ok (u, hs₀))
    (hwarm : warmUp block tx { hs₀ with logs := [] } = .ok (u', hs₁)) :
    (buildMessage tx executionGasLimit).Sendable hs₁ := by
  have hbought : AccountsStay hs { hs₀ with logs := [] } := by
    obtain ⟨-, -, acc, -, rfl⟩ := buyGas_ok hbuy
    exact accountsStay_setAcc hs tx.sender _
  have hstay : AccountsStay hs hs₁ :=
    IsTrans.trans _ _ _ hbought (accountsStay_warmUp block tx _ _ _ hwarm)
  -- Not more than the cost limit of the validation is taken from the balance, so nothing wraps.
  have hcost : (tx.maxCost block).toNat ≤ (Word.ofInt64 tx.gasLimit).toNat * tx.maxGasPrice.toNat := by
    have hprice := Nat.mul_le_mul_left (Word.ofInt64 tx.gasLimit).toNat
      (effectiveGasPrice_bounds h.fee).2
    unfold Transaction.maxCost
    rw [BitVec.toNat_mul]
    exact (Nat.mod_le _ _).trans hprice
  have hbalance : (accountOr hs₁ tx.sender {}).balance
      = senderAcc.balance - tx.maxCost block := by
    obtain ⟨-, -, acc, hacc, rfl⟩ := buyGas_ok hbuy
    cases hfind.symm.trans hacc
    refine ((warmUp_sameContent block tx _ _ _ hwarm).accounts tx.sender).balance.trans ?_
    show (accountOr (setAcc hs tx.sender _) tx.sender {}).balance = _
    rw [accountOr_setAcc, if_pos rfl]
  have hfunds := h.funds
  have hgas := h.gas
  have hintrinsic := h.intrinsic
  refine ⟨⟨show 0 ≤ executionGasLimit by omega, hstay tx.sender (by rw [hfind]; rfl), fun _ => rfl,
    fun _ => ?_, fun hkind => ?_⟩, fun hkind => ?_⟩
  · show tx.value ≤ (accountOr hs₁ tx.sender {}).balance
    rw [hbalance, BitVec.le_def, BitVec.toNat_sub_of_le (BitVec.le_def.2 (by omega))]
    omega
  · unfold buildMessage at hkind
    dsimp only at hkind
    split at hkind <;> cases hkind
  · unfold buildMessage at hkind ⊢
    dsimp only at hkind ⊢
    cases hto : tx.to_ with
    | some to_ =>
      rw [hto] at hkind
      exact absurd hkind (by decide : ¬ CallKind.call.IsCreate)
    | none => exact ⟨rfl, rfl⟩

/-- Settling stops at an assertion if, and only if, no gas was used. -/
theorem settle_assertion_iff {gasUsed : Int} (hsender : (hs.state.find tx.sender).isSome) :
    settle block tx gasUsed hs = .error .assertion ↔ gasUsed ≤ 0 := by
  constructor
  · intro herror
    by_contra hpos
    have hsafe : Safe (settle block tx gasUsed) hs := by
      refine .bind (safe_assert (not_le.1 hpos)) fun _ s₁ hassert => ?_
      obtain ⟨-, rfl⟩ := assert_eq_ok.1 hassert
      exact .bind (safe_getAccount hsender) fun _ _ _ => .bind (.of_ok rfl) fun _ _ _ =>
        .bind (.of_ok rfl) fun _ _ _ => .bind (.of_ok rfl) fun _ _ _ => .of_ok rfl
    exact hsafe herror
  · intro hle
    have hfails : assert (gasUsed > 0) hs = .error .assertion := by
      unfold assert
      rw [if_neg (by omega)]
    exact bind_eq_error.2 (.inl hfails)

variable [Ethash] {fuel : Nat} {hs₁ hs₂ : HostState} {result : CallResult}

/-- The gas that is left when the call of a started transaction has ended. -/
theorem Starts.gasLeft_bounds (h : Starts block tx hs executionGasLimit hs₁)
    (hcall : call ⟨block, tx⟩ Baseline.execute fuel (buildMessage tx executionGasLimit) hs₁
      = .ok (result, hs₂)) : 0 ≤ result.gasLeft ∧ 0 < tx.gasLimit - result.gasLeft := by
  obtain ⟨senderAcc, -, hvalidate⟩ := h.valid
  have hvalid := validateTransaction_ok hvalidate
  have hgas := hvalid.gas
  have hcost := hvalid.intrinsic
  have hintrinsic := computeTxIntrinsicCost_ge tx
  have hnonneg : 0 ≤ (buildMessage tx executionGasLimit).gas := show 0 ≤ executionGasLimit by omega
  obtain ⟨hleft, hle⟩ := call_isBounded _ _ _ _ _ hnonneg hcall
  have hle : result.gasLeft ≤ executionGasLimit := hle
  exact ⟨hleft, by omega⟩

omit [Ethash] in
/-- The gas used is no positive 64-bit number only if it is too large. -/
theorem gasUsedAfter_nonpos {result : CallResult} (hleft : 0 ≤ result.gasLeft)
    (hpos : 0 < tx.gasLimit - result.gasLeft) (hlimit : tx.gasLimit < 2 ^ 63)
    (hused : gasUsedAfter tx result ≤ 0) : 2 ^ 63 ≤ exactGasUsed tx result := by
  have hexact := exactGasUsed_pos hpos
  by_contra hlt
  rw [gasUsedAfter_eq_exactGasUsed (by omega) (by omega) (by omega)] at hused
  omega

/-- How a valid transaction stops at an assertion: in its call, or because it used no gas. -/
theorem execute_error_iff (hfind : hs.state.find tx.sender = some senderAcc)
    (hvalidate : validateTransaction senderAcc block tx = .ok executionGasLimit) :
    execute Baseline.execute fuel block tx executionGasLimit hs = .error .assertion ↔
      ∃ hs₁, Starts block tx hs executionGasLimit hs₁ ∧
        (call ⟨block, tx⟩ Baseline.execute fuel (buildMessage tx executionGasLimit) hs₁
            = .error .assertion ∨
          ∃ result hs₂, call ⟨block, tx⟩ Baseline.execute fuel (buildMessage tx executionGasLimit)
              hs₁ = .ok (result, hs₂) ∧ gasUsedAfter tx result ≤ 0) := by
  have hvalid := validateTransaction_ok hvalidate
  -- The sender is still there when the transaction is settled.
  have hsettle : ∀ {hs₁ result hs₂}, Starts block tx hs executionGasLimit hs₁ →
      call ⟨block, tx⟩ Baseline.execute fuel (buildMessage tx executionGasLimit) hs₁
        = .ok (result, hs₂) →
      (settle block tx (gasUsedAfter tx result) hs₂ = .error .assertion ↔
        gasUsedAfter tx result ≤ 0) := by
    rintro hs₁ result hs₂ ⟨-, hs₀, hbuy, hwarm⟩ hcall
    have hsendable := sendable_buildMessage hfind hvalid hbuy hwarm
    exact settle_assertion_iff (accountsStay_keptByHost.keeps fuel _ _ _ _ hcall _ hsendable.sender)
  constructor
  · intro herror
    unfold execute at herror
    -- Buying gas and warming are safe.
    rcases bind_eq_error.1 herror with hbuy | ⟨_, hs₀, hbuy, hrest₁⟩
    · exact absurd hbuy (safe_buyGas hfind hvalid)
    rcases bind_eq_error.1 hrest₁ with hclear | ⟨_, s₁, hclear, hrest₂⟩
    · cases hclear
    obtain rfl := modify_eq_ok.1 hclear
    have hbought : (hs₀.state.find tx.sender).isSome := by
      obtain ⟨-, -, acc, -, rfl⟩ := buyGas_ok hbuy
      exact isSome_find_setAcc _ _ _
    rcases bind_eq_error.1 hrest₂ with hwarm | ⟨_, hs₁, hwarm, hrest₃⟩
    · exact absurd hwarm (safe_warmUp hbought)
    have hstarts : Starts block tx hs executionGasLimit hs₁ :=
      ⟨⟨senderAcc, hfind, hvalidate⟩, hs₀, hbuy, hwarm⟩
    refine ⟨hs₁, hstarts, ?_⟩
    -- The call can fail, and settling after it.
    rcases bind_eq_error.1 hrest₃ with hcall | ⟨result, hs₂, hcall, hrest₄⟩
    · exact .inl hcall
    rcases bind_eq_error.1 hrest₄ with hsettled | ⟨_, hs₃, _, hrest₅⟩
    · exact .inr ⟨result, hs₂, hcall, (hsettle hstarts hcall).1 hsettled⟩
    rcases bind_eq_error.1 hrest₅ with hlogs | ⟨_, _, _, hend⟩
    · cases hlogs
    · cases hend
  · rintro ⟨hs₁, hstarts, hcall⟩
    obtain ⟨-, hs₀, hbuy, hwarm⟩ := id hstarts
    unfold execute
    refine bind_eq_error.2 (.inr ⟨_, _, hbuy, bind_eq_error.2 (.inr ⟨(), _, rfl, ?_⟩)⟩)
    refine bind_eq_error.2 (.inr ⟨_, _, hwarm, bind_eq_error.2 ?_⟩)
    rcases hcall with herror | ⟨result, hs₂, hcall, hused⟩
    · exact .inl herror
    · exact .inr ⟨result, hs₂, hcall, bind_eq_error.2 (.inl ((hsettle hstarts hcall).2 hused))⟩

/-- How a transaction stops at an assertion: it is valid, and stops in its call or because it used no
gas. -/
theorem transition_error_iff (hsender : (hs.state.find tx.sender).isSome) :
    transition Baseline.execute fuel block tx hs = .error .assertion ↔
      ∃ executionGasLimit hs₁, Starts block tx hs executionGasLimit hs₁ ∧
        (call ⟨block, tx⟩ Baseline.execute fuel (buildMessage tx executionGasLimit) hs₁
            = .error .assertion ∨
          ∃ result hs₂, call ⟨block, tx⟩ Baseline.execute fuel (buildMessage tx executionGasLimit)
              hs₁ = .ok (result, hs₂) ∧ gasUsedAfter tx result ≤ 0) := by
  constructor
  · intro herror
    unfold transition at herror
    rcases bind_eq_error.1 herror with hget | ⟨senderAcc, s, hget, hrest⟩
    · exact absurd hget (safe_getAccount hsender)
    obtain ⟨hfind, rfl⟩ := getAccount_eq_ok.1 hget
    cases hvalidate : validateTransaction senderAcc block tx with
    | error e =>
      rw [hvalidate] at hrest
      cases hrest
    | ok executionGasLimit =>
      rw [hvalidate] at hrest
      rcases bind_eq_error.1 hrest with hexecute | ⟨_, _, _, hend⟩
      · exact ⟨executionGasLimit, (execute_error_iff hfind hvalidate).1 hexecute⟩
      · cases hend
  · rintro ⟨executionGasLimit, hs₁, hstarts, hcall⟩
    obtain ⟨senderAcc, hfind, hvalidate⟩ := hstarts.valid
    refine bind_eq_error.2 (.inr ⟨senderAcc, _, getAccount_eq_ok.2 ⟨hfind, rfl⟩, ?_⟩)
    rw [hvalidate]
    exact bind_eq_error.2 (.inl ((execute_error_iff hfind hvalidate).2 ⟨hs₁, hstarts, hcall⟩))

/-- The call of a transaction comes to a precompile whose answer does not fit the output buffer. -/
def StopsAtBuffer (fuel : Nat) (block : BlockInfo) (tx : Transaction) (hs : HostState) : Prop :=
  ∃ executionGasLimit hs₁, Starts block tx hs executionGasLimit hs₁ ∧
    ∃ n m hs₂ m' hs₃, Calls ⟨block, tx⟩ Baseline.execute fuel (buildMessage tx executionGasLimit)
        hs₁ n m hs₂ ∧
      PrecompileAsserts m hs₂ m' hs₃

/-- The call of a transaction ends, and the gas used including the refunds taken back cannot be
represented as `int64_t`. -/
def OverflowsGasUsed (fuel : Nat) (block : BlockInfo) (tx : Transaction) (hs : HostState) : Prop :=
  ∃ executionGasLimit hs₁ result hs₂, Starts block tx hs executionGasLimit hs₁ ∧
    call ⟨block, tx⟩ Baseline.execute fuel (buildMessage tx executionGasLimit) hs₁
      = .ok (result, hs₂) ∧
    2 ^ 63 ≤ exactGasUsed tx result

/-- A precompile that does not get past its buffer does not end its call. -/
theorem Host.PrecompileAsserts.not_ended {ctx : HostContext} {vm : VM} {n : Nat} {m m' : Message}
    {hs hs' hs₁ : HostState} {r : CallResult} (h : PrecompileAsserts m hs m' hs') :
    call ctx vm n m hs ≠ .ok (r, hs₁) := by
  intro hrun
  obtain ⟨hs₀, hprepared, henter⟩ := h.prepared
  obtain ⟨k, rfl, hcalled⟩ := call_ok hrun
  have hexecuted : ∀ {exec : Exec} {m₀ s₀ r₀ s₁}, prepareMessage m hs = .ok (some m₀, s₀) →
      ¬ Executed exec m₀ s₀ r₀ s₁ := by
    intro exec m₀ s₀ r₀ s₁ hprepared' hexecuted
    cases hprepared.symm.trans hprepared'
    cases hexecuted with
    | collision hkind | create hkind => exact h.kind hkind
    | precompile _ henter' hresult | call _ henter' hresult =>
      cases henter.symm.trans henter'
      cases h.stops.symm.trans hresult
  cases hcalled with
  | refused hprepared' => cases hprepared.symm.trans hprepared'
  | success hprepared' hran | failed hprepared' hran => exact hexecuted hprepared' hran

omit [Ethash] in
/-- A transaction starts in at most one way. -/
theorem Starts.unique {executionGasLimit' : Int} {hs₁' : HostState}
    (h : Starts block tx hs executionGasLimit hs₁) (h' : Starts block tx hs executionGasLimit' hs₁') :
    executionGasLimit = executionGasLimit' ∧ hs₁ = hs₁' := by
  obtain ⟨⟨senderAcc, hfind, hvalid⟩, hs₀, hbuy, hwarm⟩ := h
  obtain ⟨⟨senderAcc', hfind', hvalid'⟩, hs₀', hbuy', hwarm'⟩ := h'
  cases hfind.symm.trans hfind'
  cases hvalid.symm.trans hvalid'
  cases hbuy.symm.trans hbuy'
  cases hwarm.symm.trans hwarm'
  exact ⟨rfl, rfl⟩

/-- A transaction that overflows its gas stops at the assertion on the gas used. -/
theorem OverflowsGasUsed.stops (hsender : (hs.state.find tx.sender).isSome)
    (hlimit : tx.gasLimit < 2 ^ 63) (hbound : hs.state.pending ≤ 2 ^ 63)
    (h : OverflowsGasUsed fuel block tx hs) :
    transition Baseline.execute fuel block tx hs = .error .assertion ∧
      ¬ StopsAtBuffer fuel block tx hs := by
  obtain ⟨executionGasLimit, hs₁, result, hs₂, hstarts, hcall, hover⟩ := h
  obtain ⟨hleft, hpos⟩ := hstarts.gasLeft_bounds hcall
  have hle := exactGasUsed_le hleft hs.state.pending_nonneg hpos.le
    (neg_pending_le_gasRefund hstarts.bought hcall)
  have hused : gasUsedAfter tx result ≤ 0 := by
    rw [gasUsedAfter_eq_wrapInt64 hpos.le (by omega)]
    exact (wrapInt64_neg hover (by omega)).le
  refine ⟨(transition_error_iff hsender).2
    ⟨executionGasLimit, hs₁, hstarts, .inr ⟨result, hs₂, hcall, hused⟩⟩, ?_⟩
  -- The call has ended, and with it every call it made.
  rintro ⟨executionGasLimit', hs₁', hstarts', n, m, hs₃, m', hs₄, hcalls, hpre⟩
  obtain ⟨rfl, rfl⟩ := hstarts.unique hstarts'
  obtain ⟨r, hs₅, hended⟩ := hcalls.ended hcall
  exact hpre.not_ended hended

/-- **No account that the host reads is missing, and an assertion fails only for want of room**: a
transition of a transaction with an existing sender stops at the assertion on the output buffer of a
precompile, for a message that overflows it, or at the one on the gas used, for the refunds that it
takes back overflow that. The latter is impossible if the gas limit and the pending refunds together
can be represented, and with at most `2 ^ 63` pending it happens whenever the gas used is too
large. -/
theorem assertions_hold_without_overflow (hsender : (hs.state.find tx.sender).isSome)
    (hlimit : tx.gasLimit < 2 ^ 63) :
    (tx.gasLimit + hs.state.pending < 2 ^ 63 → ¬ OverflowsGasUsed fuel block tx hs) ∧
      (transition Baseline.execute fuel block tx hs = .error .assertion →
        StopsAtBuffer fuel block tx hs ∨ OverflowsGasUsed fuel block tx hs) ∧
      (hs.state.pending ≤ 2 ^ 63 → OverflowsGasUsed fuel block tx hs →
        transition Baseline.execute fuel block tx hs = .error .assertion ∧
          ¬ StopsAtBuffer fuel block tx hs) := by
  refine ⟨?_, ?_, fun hbound hover => hover.stops hsender hlimit hbound⟩
  -- With room for the pending refunds the difference is computed exactly.
  · rintro hfits ⟨executionGasLimit, hs₁, result, hs₂, hstarts, hcall, hover⟩
    obtain ⟨hleft, hpos⟩ := hstarts.gasLeft_bounds hcall
    have hle := exactGasUsed_le hleft hs.state.pending_nonneg hpos.le
      (neg_pending_le_gasRefund hstarts.bought hcall)
    omega
  -- A failed assertion is that of a precompile, or that on the gas used.
  · intro herror
    obtain ⟨executionGasLimit, hs₁, hstarts, hcall | ⟨result, hs₂, hcall, hused⟩⟩ :=
      (transition_error_iff hsender).1 herror
    · obtain ⟨⟨senderAcc, hfind, hvalidate⟩, hs₀, hbuy, hwarm⟩ := id hstarts
      have hvalid := validateTransaction_ok hvalidate
      exact .inl ⟨executionGasLimit, hs₁, hstarts,
        call_error hvalid.fee (sendable_buildMessage hfind hvalid hbuy hwarm) hcall⟩
    · obtain ⟨hleft, hpos⟩ := hstarts.gasLeft_bounds hcall
      exact .inr ⟨executionGasLimit, hs₁, result, hs₂, hstarts, hcall,
        gasUsedAfter_nonpos hleft hpos hlimit hused⟩

/-- The phases of a transition up to the end of its call. -/
def runCall (fuel : Nat) (block : BlockInfo) (tx : Transaction) : HostS CallResult := do
  buyGas block tx
  modify fun hs => { hs with logs := [] }
  warmUp block tx
  call ⟨block, tx⟩ Baseline.execute fuel
    (buildMessage tx (tx.gasLimit - computeTxIntrinsicCost tx))

/-- A run of these phases tells whether the gas used overflows. -/
theorem overflowsGasUsed_of_runCall {senderAcc : Account}
    (hfind : hs.state.find tx.sender = some senderAcc)
    (hvalid : validateTransaction senderAcc block tx
      = .ok (tx.gasLimit - computeTxIntrinsicCost tx))
    (hrun : runCall fuel block tx hs = .ok (result, hs₂))
    (hover : 2 ^ 63 ≤ exactGasUsed tx result) : OverflowsGasUsed fuel block tx hs := by
  obtain ⟨_, hs₀, hbuy, hrest⟩ := bind_eq_ok.1 hrun
  obtain ⟨_, s₁, hclear, hrest⟩ := bind_eq_ok.1 hrest
  obtain rfl := modify_eq_ok.1 hclear
  obtain ⟨_, hs₁, hwarm, hcall⟩ := bind_eq_ok.1 hrest
  exact ⟨_, hs₁, result, hs₂, ⟨⟨senderAcc, hfind, hvalid⟩, hs₀, hbuy, hwarm⟩, hcall, hover⟩

end transition

/-- A transaction that calls the precompile at address 3 with one byte more than the buffer holds. -/
def copyingTransaction : Transaction :=
  { gasLimit := 30000, maxGasPrice := 1, maxPriorityGasPrice := 1, sender := 0x20, to_ := some 3,
    value := 0, data := List.replicate 257 0 }

/-- An account that can pay for the transaction. -/
def copyingState : HostState := { state := (⟨∅⟩ : State).set 0x20 { balance := 100000 } }

/-- The transaction stops at the assertion on the output buffer, and does not overflow its gas. -/
theorem assertions_hold_without_overflow_copying : ∃ _ : Ethash,
    StopsAtBuffer 3 plainBlock copyingTransaction copyingState ∧
      ¬ OverflowsGasUsed 3 plainBlock copyingTransaction copyingState := by
  let ethash : Ethash := ⟨fun _ => 0⟩
  have hfault : (match transition Baseline.execute 3 plainBlock copyingTransaction copyingState with
      | .error e => some e
      | .ok _ => none) = some Fault.assertion := by decide +kernel
  have herror : transition Baseline.execute 3 plainBlock copyingTransaction copyingState
      = .error .assertion := by
    cases hrun : transition Baseline.execute 3 plainBlock copyingTransaction copyingState with
    | ok _ => rw [hrun] at hfault; cases hfault
    | error e =>
      rw [hrun] at hfault
      exact congrArg Except.error (Option.some.inj hfault)
  have hpending : copyingTransaction.gasLimit + copyingState.state.pending < 2 ^ 63 := by
    decide +kernel
  have hsender : (copyingState.state.find copyingTransaction.sender).isSome := by decide +kernel
  have hlimit : copyingTransaction.gasLimit < 2 ^ 63 := by decide
  obtain ⟨hfits, hstops, -⟩ := assertions_hold_without_overflow hsender hlimit
  have hno := hfits hpending
  exact ⟨ethash, (hstops herror).resolve_right hno, hno⟩

/-- A block without a limit of its own. -/
def hugeBlock : BlockInfo := { coinbase := 0x30, gasLimit := 2 ^ 63 - 1 }

/-- Called without data, the account `0x10` clears its slot 0. Called with data, it sets the slot to
2 by `JUMPDEST PUSH1 2 PUSH0 SSTORE` and calls the account `0x40`, which runs an undefined opcode,
nine times with all but a 64th of its gas. -/
def restoringState : HostState :=
  { state := (((⟨∅⟩ : State).set 0x10
      { nonce := 1
        code := [0x36, 0x60, 0x08, 0x57, 0x5f, 0x5f, 0x55, 0x00, 0x5b, 0x60, 0x02, 0x5f, 0x55]
          ++ (List.replicate 9 [0x5f, 0x5f, 0x5f, 0x5f, 0x5f, 0x60, 0x40, 0x5a, 0xf1, 0x50]).flatten
          ++ [0x00]
        storage := (∅ : Storage).insert 0 { current := 1, original := 1 } }).set 0x40
      { code := [0xfe] }).set 0x20 {} }

/-- A transaction that clears the slot. -/
def forgettingTransaction : Transaction :=
  { gasLimit := 100000, maxGasPrice := 0, maxPriorityGasPrice := 0, sender := 0x20,
    to_ := some 0x10, value := 0 }

/-- A transaction that takes back the refund of the slot and burns its gas. -/
def restoringTransaction : Transaction :=
  { forgettingTransaction with gasLimit := 2 ^ 63 - 1, data := [0] }

/-- The state after the slot was cleared. -/
def forgottenState [Ethash] : HostState :=
  ((transition Baseline.execute 20 hugeBlock forgettingTransaction restoringState).toOption.map
    (·.2)).getD restoringState

/-- The second of two transactions that run one after the other in one block stops at the assertion
that it used gas. -/
theorem gasUsed_overflows_restoring : ∃ _ : Ethash,
    (∃ receipt, transition Baseline.execute 20 hugeBlock forgettingTransaction restoringState
        = .ok (.ok receipt, forgottenState)) ∧
      (forgottenState.state.find restoringTransaction.sender).isSome ∧
      OverflowsGasUsed 120 hugeBlock restoringTransaction forgottenState ∧
      transition Baseline.execute 120 hugeBlock restoringTransaction forgottenState
        = .error .assertion ∧
      ¬ StopsAtBuffer 120 hugeBlock restoringTransaction forgottenState := by
  let ethash : Ethash := ⟨fun _ => 0⟩
  have haccepted : ((transition Baseline.execute 20 hugeBlock forgettingTransaction
      restoringState).toOption.map fun x => x.1.toOption.isSome) = some true := by decide +kernel
  have hsender : (forgottenState.state.find restoringTransaction.sender).isSome := by decide +kernel
  -- The first transaction leaves a refund pending, and the second has almost 2^63 gas.
  have hpending : forgottenState.state.pending = 4800 := by decide +kernel
  have hvalid : (forgottenState.state.find restoringTransaction.sender).map
      (fun senderAcc => (validateTransaction senderAcc hugeBlock restoringTransaction).toOption)
        = some (some (restoringTransaction.gasLimit - computeTxIntrinsicCost restoringTransaction)) := by
    decide +kernel
  have hused : ((runCall 120 hugeBlock restoringTransaction forgottenState).toOption.map
      fun x => decide (2 ^ 63 ≤ exactGasUsed restoringTransaction x.1)) = some true := by
    decide +kernel
  have hover : OverflowsGasUsed 120 hugeBlock restoringTransaction forgottenState := by
    obtain ⟨senderAcc, hfind, hvalid⟩ := Option.map_eq_some_iff.1 hvalid
    obtain ⟨⟨result, hs₂⟩, hrun, hover⟩ := Option.map_eq_some_iff.1 hused
    exact overflowsGasUsed_of_runCall hfind (toOption_eq_some.1 hvalid) (toOption_eq_some.1 hrun)
      (of_decide_eq_true hover)
  have hstops := hover.stops hsender (by decide) (by rw [hpending]; decide)
  refine ⟨ethash, ?_, hsender, hover, hstops⟩
  unfold forgottenState
  rcases hrun : transition Baseline.execute 20 hugeBlock forgettingTransaction restoringState with
    _ | ⟨_ | receipt, hs₁⟩ <;> rw [hrun] at haccepted
  · cases haccepted
  · cases haccepted
  · exact ⟨receipt, rfl⟩

end Zvmone
