import Zvmone.State.BlockGas
import Zvmone.State.Finalize
import Zvmone.State.Journal
import Zvmone.Vm.FrameAuthority

/-! # External accounts

An account without code whose nonce is not 0 is *external*: no code acts in its name, and no contract
can be created at its address. A call whose message is not sent by it, and all the messages nested in
it, take nothing from it (`spares_call`). So a transaction takes from the account of its sender only,
and the nonce of the sender goes up by one whatever code runs (`external_accounts_are_safe`). -/

namespace Zvmone

open Interaction StateRun Host

/-! ### What an external account keeps -/

/-- No code acts in the name of the account, and no contract can be created at it. -/
structure Account.IsExternal (acc : Account) : Prop where
  nonce : acc.nonce ≠ 0
  code : acc.code = []

/-- Two accounts have the same nonce, code and storage values. -/
structure Account.SameOwn (acc acc' : Account) : Prop where
  nonce : acc'.nonce = acc.nonce
  code : acc'.code = acc.code
  current : ∀ key, (acc'.storage.slot key).current = (acc.storage.slot key).current
  original : ∀ key, (acc'.storage.slot key).original = (acc.storage.slot key).original

/-- An account has its own values. -/
theorem Account.SameOwn.refl (acc : Account) : acc.SameOwn acc :=
  ⟨rfl, rfl, fun _ => rfl, fun _ => rfl⟩

/-- Having the same own values is transitive. -/
theorem Account.SameOwn.trans {acc₁ acc₂ acc₃ : Account} (h : acc₁.SameOwn acc₂)
    (h' : acc₂.SameOwn acc₃) : acc₁.SameOwn acc₃ :=
  ⟨h'.nonce.trans h.nonce, h'.code.trans h.code, fun key => (h'.current key).trans (h.current key),
    fun key => (h'.original key).trans (h.original key)⟩

/-- Accounts with the same content have the same own values. -/
theorem Account.SameContent.sameOwn {acc acc' : Account} (h : acc.SameContent acc') :
    acc.SameOwn acc' := ⟨h.nonce, h.code, h.current, h.original⟩

/-- Whether an account is external depends on its own values only. -/
theorem Account.IsExternal.of_sameOwn {acc acc' : Account} (h : acc.IsExternal)
    (hsame : acc.SameOwn acc') : acc'.IsExternal :=
  ⟨by rw [hsame.nonce]; exact h.nonce, hsame.code.trans h.code⟩

/-- The account at `addr` is the same but for its balance, which does not fall unless it `pays`. -/
structure Spared (addr : Address) (pays : Prop) (hs hs' : HostState) : Prop where
  conserves : Conserves hs hs'
  own : (accountOr hs addr {}).SameOwn (accountOr hs' addr {})
  /-- Without the bound on all coins a payment to the account could wrap. -/
  balance : ¬ pays → hs.state.total < 2 ^ 256 → hs.balance addr ≤ hs'.balance addr

/-- If the account at `addr` is external, it is spared. -/
def Spares (addr : Address) (hs hs' : HostState) : Prop :=
  (accountOr hs addr {}).IsExternal → Spared addr False hs hs'

section

variable {addr a : Address} {pays : Prop} {hs hs' hs'' : HostState} {acc : Account}

/-- A state spares an account of itself. -/
theorem Spared.refl (addr : Address) (pays : Prop) (hs : HostState) : Spared addr pays hs hs :=
  ⟨conserves_of_eq rfl, .refl _, fun _ _ => BitVec.le_refl _⟩

/-- Sparing an account is transitive. -/
theorem Spared.trans (h : Spared addr pays hs hs') (h' : Spared addr pays hs' hs'') :
    Spared addr pays hs hs'' where
  conserves := IsTrans.trans _ _ _ h.conserves h'.conserves
  own := h.own.trans h'.own
  balance hpays htotal := BitVec.le_trans (h.balance hpays htotal)
    (h'.balance hpays (by rwa [h.conserves.total htotal]))

/-- What does not lower the balance spares the account also where that is allowed. -/
theorem Spared.weaken (h : Spared addr False hs hs') : Spared addr pays hs hs' :=
  ⟨h.conserves, h.own, fun _ => h.balance id⟩

instance : IsPreorder HostState (Spares addr) where
  refl hs _ := .refl addr False hs
  trans _ _ _ h h' hext := (h hext).trans (h' (hext.of_sameOwn (h hext).own))

/-- The account itself has not changed. -/
theorem spared_of_account_eq (hconserves : Conserves hs hs')
    (hacc : accountOr hs' addr {} = accountOr hs addr {}) : Spared addr pays hs hs' := by
  refine ⟨hconserves, ?_, fun _ _ => ?_⟩
  · rw [hacc]
    exact .refl _
  · rw [HostState.balance, HostState.balance, hacc]
    exact BitVec.le_refl _

/-- A step that keeps the accounts spares each of them. -/
theorem spared_of_state_eq (h : hs'.state = hs.state) : Spared addr pays hs hs' :=
  spared_of_account_eq (conserves_of_eq h) (by rw [accountOr, accountOr, h])

/-- Another account has changed. -/
theorem spared_of_ne (hne : addr ≠ a) (hconserves : Conserves hs (setAcc hs a acc)) :
    Spared addr pays hs (setAcc hs a acc) :=
  spared_of_account_eq hconserves (by rw [accountOr_setAcc, if_neg hne])

/-- Nothing but access statuses and marks have changed. -/
theorem spared_of_sameContent (hconserves : Conserves hs hs') (h : hs.SameContent hs') :
    Spared addr pays hs hs' :=
  ⟨hconserves, (h.accounts addr).sameOwn, fun _ _ => by
    rw [h.balance addr]
    exact BitVec.le_refl _⟩

/-- Making an account warm spares all accounts. -/
theorem spared_warmed (hs : HostState) (a : Address) : Spared addr pays hs (warmed hs a) :=
  spared_of_sameContent (conserves_warmed hs a) (.warmed hs a)

/-- Marking an account as erasable spares all accounts. -/
theorem spared_touched (hs : HostState) (a : Address) :
    Spared addr pays hs (setAcc hs a (touched hs a)) :=
  spared_of_sameContent (conserves_touched hs a) (.touched hs a)

/-- Writing the balance of an account. -/
theorem sameOwn_setAcc (hfind : hs.state.find a = some acc) (balance : Word) (addr : Address) :
    (accountOr hs addr {}).SameOwn (accountOr (setAcc hs a { acc with balance }) addr {}) := by
  rw [accountOr_setAcc]
  split
  next ha =>
    rw [ha, accountOr_of_find hfind]
    exact ⟨rfl, rfl, fun _ => rfl, fun _ => rfl⟩
  next => exact .refl _

/-- A transfer spares every account but the one that pays. -/
theorem spared_transfer {sender recipient : Address} {value : Word} {u : Unit}
    (hne : pays ∨ addr ≠ sender) (h : transfer sender recipient value hs = .ok (u, hs')) :
    Spared addr pays hs hs' := by
  have hconserves := conserves_transfer h
  obtain ⟨senderAcc, recipientAcc, hsender, hvalue, hrecipient, rfl⟩ := transfer_ok h
  refine ⟨hconserves, (sameOwn_setAcc hsender _ addr).trans (sameOwn_setAcc hrecipient _ addr),
    fun hpays htotal => ?_⟩
  have hne := hne.resolve_left hpays
  unfold HostState.balance
  rw [accountOr_setAcc]
  split
  next hto =>
    -- The value is part of the coins there are, so that it fits.
    have hpay := State.total_pay hsender hvalue { senderAcc with
      balance := senderAcc.balance - value } rfl
    have hle := (hs.state.set sender { senderAcc with
      balance := senderAcc.balance - value }).balance_le_total addr
    rw [← hto, State.find_set, if_neg hne] at hrecipient
    rw [State.find_set, if_neg hne, hrecipient, Option.getD_some] at hle
    rw [accountOr_of_find hrecipient, BitVec.le_def, BitVec.toNat_add, Nat.mod_eq_of_lt (by omega)]
    exact Nat.le_add_right _ _
  next =>
    rw [accountOr_setAcc, if_neg hne]
    exact BitVec.le_refl _

end

/-! ### Messages -/

/-- A message that is run for the account at `addr` pays out of it only if it `pays`. -/
structure Message.Spends (addr : Address) (pays : Prop) (msg : Message) : Prop where
  depth : 0 ≤ msg.depth
  /-- A delegated call passes on the sender of another message, but it pays nothing. -/
  sender : msg.kind ≠ .delegatecall → pays ∨ addr ≠ msg.sender
  delegated : msg.kind = .delegatecall → msg.recipient ≠ addr

/-- The message is not sent in the name of the account at `addr`. -/
structure Message.Avoids (addr : Address) (msg : Message) : Prop extends
    msg.Spends addr False where
  bumps : BumpsNonce msg → addr ≠ msg.sender

/-- What the frame of another account sends avoids the account. -/
theorem Message.SentBy.avoids {m msg : Message} {addr : Address} (h : m.SentBy msg)
    (hdepth : 0 ≤ msg.depth) (hne : msg.recipient ≠ addr) : m.Avoids addr := by
  have hpos : 0 < m.depth := by
    rw [h.depth]
    omega
  have hcreate : m.kind.IsCreate → addr ≠ m.sender := by
    intro hkind
    rw [(h.create hkind).1]
    exact hne.symm
  refine ⟨⟨hpos.le, fun hkind => .inr ?_, fun hkind => ?_⟩, ?_⟩
  · cases hk : m.kind with
    | call => rw [(h.call hk).1]; exact hne.symm
    | delegatecall => exact absurd hk hkind
    | create => exact hcreate (.inl hk)
    | create2 => exact hcreate (.inr hk)
  · rw [(h.delegated hkind).2.1]
    exact hne
  · rintro (hzero | hkind)
    · omega
    · exact hcreate hkind

/-- A virtual machine whose frames keep to their authority, and that has nothing to do for a message
without code. -/
structure VM.Authorized (vm : VM) : Prop where
  asks : ∀ fuel msg code, (vm fuel msg code).Asks (HostCall.Authorized msg)
  idle : ∀ fuel msg, (vm fuel msg []).Asks fun _ => False

section

variable {addr : Address} {pays : Prop} {msg msg' m : Message} {hs hs' hs₁ hs₂ : HostState}

/-- The nonce of another account is bumped, if any. -/
theorem spared_bumped (h : msg.Avoids addr) {senderAcc : Account}
    (hfind : hs.state.find msg.sender = some senderAcc)
    (hmax : BumpsNonce msg → senderAcc.nonce ≠ Account.nonceMax) :
    Spared addr False hs (bumped hs msg senderAcc) := by
  unfold bumped
  split
  next hbump => exact spared_of_ne (h.bumps hbump) (conserves_keptByHost.step (.bump hfind (hmax hbump)))
  next => exact .refl addr False hs

/-- Entering a call spares the account, unless it is the sender and may pay. -/
theorem spared_enterCall (h : msg.Spends addr pays) {u : Unit}
    (henter : enterCall msg hs = .ok (u, hs')) : Spared addr pays hs hs' := by
  rcases enterCall_ok henter with ⟨-, rfl⟩ | ⟨hkind, -, htransfer⟩
  · exact .refl addr pays hs'
  · exact (spared_touched hs msg.recipient).trans
      (spared_transfer (h.sender (by rw [hkind]; decide)) htransfer)

/-- Contracts are not created at external accounts. -/
theorem ne_of_fresh (hext : (accountOr hs addr {}).IsExternal) (hfresh : Fresh hs msg.recipient) :
    addr ≠ msg.recipient := by
  rintro rfl
  exact hext.nonce hfresh.nonce

/-- Entering a creation spares every account other than the created one. -/
theorem spared_entered (h : msg.Spends addr pays) (hkind : msg.kind.IsCreate)
    (hne : addr ≠ msg.recipient) (hfresh : Fresh hs msg.recipient)
    (htransfer : transfer msg.sender msg.recipient msg.value
      (setAcc hs msg.recipient (newAccount hs msg.recipient)) = .ok ((), hs')) :
    Spared addr pays hs hs' := by
  have hnew : Spared addr pays hs (setAcc hs msg.recipient (newAccount hs msg.recipient)) :=
    spared_of_ne hne (conserves_keptByHost.enter trivial hfresh)
  refine hnew.trans (spared_transfer (h.sender fun hdelegated => ?_) htransfer)
  rw [hdelegated] at hkind
  exact absurd hkind (by decide)

/-- What the code of a contract leaves is deployed at another account. -/
theorem spared_deployed {r r' : CallResult} (hne : addr ≠ msg.recipient)
    (hdeploy : Deployed msg r hs r' hs') : Spared addr pays hs hs' := by
  cases hdeploy with
  | failed | refused | rejected => exact .refl addr pays hs
  | done _ _ _ _ hfind => exact spared_of_ne hne (conserves_setAcc_of_find hfind rfl rfl)

/-- The snapshot that a failed message goes back to is spared. -/
theorem spared_revert (addr : Address) (hs hs' : HostState) : Spared addr pays hs (revert hs hs') := by
  rcases revert_state hs hs' with hstate | hstate
  · exact spared_of_state_eq hstate
  · exact (spared_touched hs addr03).trans (spared_of_state_eq hstate)

/-- A program that asks nothing. -/
theorem run_eq_of_idle {σ α : Type} {env : Env HostCall.Answer Fault σ} {s s' : σ} {p : HostM α}
    {a : α} (hidle : p.Asks fun _ => False) (hrun : run env p s = .ok (a, s')) : s' = s := by
  cases p with
  | ret b =>
    obtain ⟨-, rfl⟩ : b = a ∧ s = s' := by simpa using hrun
    rfl
  | fail e => cases hrun
  | ask q k => exact hidle.1.elim

end

/-! ### Calls -/

section

variable [Ethash] {ctx : HostContext} {vm : VM} {addr : Address} {pays : Prop}
  {msg msg' m : Message} {hs hs' hs₁ hs₂ : HostState} {r : CallResult} {n : Nat}

/-- Preparing a message fills in the address of a new contract only. -/
theorem prepared_eq (hprepared : prepareMessage msg hs = .ok (some msg', hs')) :
    msg' = msg ∨ msg.kind.IsCreate ∧ ∃ recipient, msg' = { msg with recipient } := by
  cases prepareMessage_ok hprepared with
  | call => exact .inl rfl
  | create _ _ hkind => exact .inr ⟨hkind, _, rfl⟩

/-- Preparing a message keeps what is known of it. -/
theorem Message.Spends.prepared (h : msg.Spends addr pays)
    (hprepared : prepareMessage msg hs = .ok (some msg', hs')) : msg'.Spends addr pays := by
  rcases prepared_eq hprepared with rfl | ⟨hkind, recipient, rfl⟩
  · exact h
  · refine ⟨h.depth, h.sender, fun hdelegated => ?_⟩
    have hdelegated : msg.kind = .delegatecall := hdelegated
    rw [hdelegated] at hkind
    exact absurd hkind (by decide)

/-- Preparing a message spares an account that does not send it. -/
theorem spared_prepared (h : msg.Avoids addr) {prepared : Option Message}
    (hprepared : prepareMessage msg hs = .ok (prepared, hs')) : Spared addr False hs hs' := by
  cases prepareMessage_ok hprepared with
  | refused => exact .refl addr False hs
  | call hfind hmax => exact spared_bumped h hfind hmax
  | create hfind hmax => exact (spared_bumped h hfind hmax).trans (spared_warmed _ _)

/-- A host method that a frame of another account may use. -/
theorem spares_answer {call : Message → HostS CallResult} {q : HostCall} (hauth : q.Authorized msg)
    (hdepth : 0 ≤ msg.depth) (hne : msg.recipient ≠ addr)
    (hcall : ∀ m r hs₁ hs₂, m.Avoids addr → call m hs₁ = .ok (r, hs₂) → Spares addr hs₁ hs₂)
    {x : q.Answer} (h : answer ctx call q hs = .ok (x, hs')) : Spares addr hs hs' := by
  intro hext
  cases q with
  | setStorage a key value =>
    obtain ⟨acc, hfind, -, rfl⟩ := setStorage_ok h
    have ha : a = msg.recipient := hauth
    refine spared_of_ne ?_ (conserves_keptByHost.step (.store hfind key value))
    rw [ha]
    exact hne.symm
  | call m => exact hcall m x hs hs' (Message.SentBy.avoids hauth hdepth hne) h hext
  | emitLog a data topics =>
    rw [emitLog_ok h]
    exact spared_of_state_eq rfl
  | accessAccount a =>
    rw [(accessAccount_ok h).1]
    exact spared_warmed hs a
  | accessStorage a key =>
    obtain ⟨acc, hfind, -, rfl⟩ := accessStorage_ok h
    exact spared_of_sameContent (conserves_keptByHost.step (.warmSlot hfind key))
      (HostState.SameContent.setAcc_of_find hfind (Storage.sameContent_insert rfl rfl))
  | accountExists a => rw [accountExists_ok h]; exact .refl addr False hs
  | getStorage a key => rw [(getStorage_ok h).1]; exact .refl addr False hs
  | getBalance a => rw [(getBalance_ok h).1]; exact .refl addr False hs
  | getCodeSize a => rw [getCodeSize_ok h]; exact .refl addr False hs
  | getCodeHash a => rw [getCodeHash_ok h]; exact .refl addr False hs
  | copyCode a codeOffset bufferSize => rw [copyCode_ok h]; exact .refl addr False hs
  | getTxContext => rw [getTxContext_ok h]; exact .refl addr False hs
  | getBlockHash number =>
    rw [show hs' = hs from @getBlockHash_ok hs hs' number x h]
    exact .refl addr False hs

/-- The frame of another account. -/
theorem spares_run {call : Message → HostS CallResult} {α : Type} {p : HostM α} {a : α}
    (hasks : p.Asks (HostCall.Authorized msg)) (hdepth : 0 ≤ msg.depth) (hne : msg.recipient ≠ addr)
    (hcall : ∀ m r hs₁ hs₂, m.Avoids addr → call m hs₁ = .ok (r, hs₂) → Spares addr hs₁ hs₂)
    (hrun : run (answer ctx call) p hs = .ok (a, hs')) : Spares addr hs hs' :=
  rel_of_reaches (fun _ _ _ _ hreach hq =>
    spares_answer (hasks.reaches hreach) hdepth hne hcall hq) hrun

/-- Executing a message spares an external account but for what it pays, if the calls that its code
makes spare it. -/
theorem spared_executed (hvm : vm.Authorized) (h : msg.Spends addr pays)
    (hext : (accountOr hs addr {}).IsExternal)
    (hcall : ∀ m r hs₁ hs₂, m.Avoids addr → call ctx vm n m hs₁ = .ok (r, hs₂) →
      Spares addr hs₁ hs₂)
    (hexecuted : Executed (execVm ctx vm (call ctx vm n) n) msg hs r hs') :
    Spared addr pays hs hs' := by
  cases hexecuted with
  | collision => exact .refl addr pays hs
  | create hkind hnonce hcode htransfer hexec hdeploy =>
    have hne : addr ≠ msg.recipient := ne_of_fresh hext ⟨hnonce, hcode⟩
    have hentered := spared_entered h hkind hne ⟨hnonce, hcode⟩ htransfer
    refine (hentered.trans (Spared.weaken ?_)).trans (spared_deployed hne hdeploy)
    exact spares_run (hvm.asks n { msg with inputData := [] } _) h.depth hne.symm hcall hexec
      (hext.of_sameOwn hentered.own)
  | precompile hkind henter => exact (spared_enterCall h henter).trans (spared_of_state_eq rfl)
  | @call r hs₁ _ hkind henter hresult hexec =>
    have hentered : Spared addr pays hs
        { hs₁ with cache := (Precompiles.callPrecompile hs₁.cache msg).cache } :=
      (spared_enterCall h henter).trans (spared_of_state_eq rfl)
    refine hentered.trans (Spared.weaken ?_)
    by_cases hto : msg.recipient = addr
    · -- The account is called: it has no code, so that nothing happens.
      have hcode : codeOf hs₁ msg = [] := by
        have hcalled : msg.kind = .call := by
          cases hk : msg.kind with
          | call => rfl
          | delegatecall => exact absurd hto (h.delegated hk)
          | create => exact absurd (.inl hk) hkind
          | create2 => exact absurd (.inr hk) hkind
        rw [codeOf, if_pos hcalled, hto]
        exact (hext.of_sameOwn hentered.own).code
      rw [hcode] at hexec
      rw [run_eq_of_idle (hvm.idle n msg) hexec]
      exact .refl addr False _
    · exact spares_run (hvm.asks n msg _) h.depth hto hcall hexec (hext.of_sameOwn hentered.own)

/-- What a call does to an external account after its message is prepared. -/
theorem spared_called (hvm : vm.Authorized)
    (hcall : ∀ m r hs₁ hs₂, m.Avoids addr → call ctx vm n m hs₁ = .ok (r, hs₂) →
      Spares addr hs₁ hs₂)
    (h : msg.Spends addr pays) (hrun : call ctx vm (n + 1) msg hs = .ok (r, hs')) :
    (∃ msg' hs₁, prepareMessage msg hs = .ok (some msg', hs₁) ∧
      ((accountOr hs₁ addr {}).IsExternal → Spared addr pays hs₁ hs')) ∨
    prepareMessage msg hs = .ok (none, hs') := by
  cases callWith_ok hrun with
  | refused hprepared => exact .inr hprepared
  | success hprepared hexecuted =>
    exact .inl ⟨_, _, hprepared, fun hext =>
      spared_executed hvm (h.prepared hprepared) hext hcall hexecuted⟩
  | failed hprepared => exact .inl ⟨_, _, hprepared, fun _ => spared_revert addr _ _⟩

/-- A call of a message that avoids the account spares it, whatever code it runs. -/
theorem spares_call (hvm : vm.Authorized) (h : msg.Avoids addr)
    (hrun : call ctx vm n msg hs = .ok (r, hs')) : Spares addr hs hs' := by
  induction n generalizing msg hs r hs' with
  | zero => cases hrun
  | succ n ih =>
    intro hext
    rcases spared_called hvm (fun _ _ _ _ hm hrun => ih hm hrun) h.toSpends hrun with
      ⟨msg', hs₁, hprepared, hspared⟩ | hrefused
    · have hbefore := spared_prepared h hprepared
      exact hbefore.trans (hspared (hext.of_sameOwn hbefore.own))
    · exact spared_prepared h hrefused

end

/-! ### The two interpreters -/

/-- The contract of a program that asks nothing. -/
def silence : Contract HostCall.Answer Fault Unit where
  pre _ _ := False
  post _ _ _ _ := True

section

variable [Ethash]

/-- The Baseline interpreter sends only messages that its frame authorizes. -/
theorem Baseline.authorized : VM.Authorized Baseline.execute where
  asks := Baseline.execute_asks_authorized
  idle fuel msg := by
    refine asks_of_wp (C := silence) (Q := fun _ _ => True) ((wp_bind _ _ _).2 ?_)
      (fun _ hq => hq) fun _ _ => trivial
    cases fuel with
    | zero => trivial
    | succ n =>
      -- The code is padded with `STOP`.
      have hstep : ∀ f : Baseline.Frame, f.codeIt = 0 → Baseline.step (Baseline.analyze []) f =
          Baseline.invoke (Baseline.analyze []) .stop f := by
        rintro ⟨_, _, _, _⟩ ⟨⟩
        rfl
      refine (wp_bind _ _ _).2 ?_
      rw [hstep _ rfl]
      unfold Baseline.invoke
      split
      · rw [Baseline.invokeCore_term (m := Core.stop) rfl]
        trivial
      · trivial

/-- So does the Advanced interpreter. -/
theorem Advanced.authorized : VM.Authorized Advanced.execute where
  asks := Advanced.execute_asks_authorized
  idle fuel msg := by
    refine asks_of_wp (C := silence) (Q := fun _ _ => True) ((wp_bind _ _ _).2 ?_)
      (fun _ hq => hq) fun _ _ => trivial
    -- The one block is empty, and `STOP` follows it.
    have hstop : ∀ (n : Nat) (state : Advanced.AdvancedExecutionState),
        wp silence (Advanced.loop (Advanced.analyze []) n 1 state) () fun _ _ => True := by
      intro n state
      cases n with
      | zero => trivial
      | succ n =>
        show wp silence (Advanced.opCore .stop 1 state >>= _) _ _
        rw [Advanced.opCore_term (show coreImpl .stop = .term Core.stop from rfl)]
        trivial
    cases fuel with
    | zero => trivial
    | succ n =>
      have hbegin : wp silence (Advanced.Instruction.exec (Advanced.analyze [])
          ⟨.opxBeginblock, .block {}⟩ 0 { base := .init msg [], gasLeft := msg.gas, stack := .bottom })
          () fun x _ => x.1 = none ∨ x.1 = some 1 := by
        show (Advanced.opxBeginblock _ 0 _).1 = none ∨ (Advanced.opxBeginblock _ 0 _).1 = some 1
        unfold Advanced.opxBeginblock
        dsimp only
        split_ifs
        · exact .inl rfl
        · exact .inl rfl
        · exact .inl rfl
        · exact .inr rfl
      refine (wp_bind (Advanced.Instruction.exec (Advanced.analyze []) _ 0 _) _ _).2
        (wp_mono hbegin ?_)
      rintro ⟨_ | i, state⟩ _ hi
      · trivial
      · obtain rfl : i = 1 := by simpa using hi
        exact hstop n state

end

/-! ### Transactions -/

section

variable {block : BlockInfo} {tx : Transaction} {hs hs' hs₀ hs₁ : HostState} {addr : Address}

/-- States with the same content have accounts with the same own values. -/
theorem HostState.SameContent.sameOwn (h : hs.SameContent hs') (addr : Address) :
    (accountOr hs addr {}).SameOwn (accountOr hs' addr {}) := (h.accounts addr).sameOwn

/-- Before the call the sender pays, and accounts are marked as accessed. -/
theorem sameOwn_bought {u u' : Unit} (hbuy : buyGas block tx hs = .ok (u, hs₀))
    (hwarm : warmUp block tx { hs₀ with logs := [] } = .ok (u', hs₁)) (addr : Address) :
    (accountOr hs addr {}).SameOwn (accountOr hs₁ addr {}) := by
  obtain ⟨-, -, senderAcc, hfind, rfl⟩ := buyGas_ok hbuy
  exact (sameOwn_setAcc hfind _ addr).trans ((warmUp_sameContent block tx _ _ _ hwarm).sameOwn addr)

/-- The balance that pays for the gas limit covers it. -/
theorem total_bought {u u' : Unit} {senderAcc : Account} {executionGasLimit : Int}
    (hfind : hs.state.find tx.sender = some senderAcc)
    (hvalid : ValidTransaction senderAcc block tx executionGasLimit) (hlimit : tx.gasLimit < 2 ^ 63)
    (hbuy : buyGas block tx hs = .ok (u, hs₀))
    (hwarm : warmUp block tx { hs₀ with logs := [] } = .ok (u', hs₁)) :
    hs₁.state.total ≤ hs.state.total := by
  have hgas : 0 ≤ executionGasLimit := by
    have hle := hvalid.intrinsic
    rw [hvalid.gas]
    omega
  have hpaid : GasAccounting block tx senderAcc { statusCode := .failure } _ :=
    gasAccounting hvalid hlimit le_rfl le_rfl hgas
  obtain ⟨-, -, acc, hacc, rfl⟩ := buyGas_ok hbuy
  obtain rfl : senderAcc = acc := Option.some.inj (hfind.symm.trans hacc)
  have hpay := State.total_pay hfind hpaid.maxCost_le { senderAcc with
    balance := senderAcc.balance - tx.maxCost block } rfl
  have hwarmed := (warmUp_sameContent block tx _ _ _ hwarm).total
  simp only [setAcc_state] at hwarmed
  omega

/-- After the call balances are written, and nothing is marked as destructed. -/
theorem settled_kept (hnone : hs.state.NoneDestructed) {gasUsed : Int} {u : Unit}
    (h : settle block tx gasUsed hs = .ok (u, hs')) :
    hs'.state.NoneDestructed ∧
      ∀ addr, (accountOr hs addr {}).SameOwn (accountOr hs' addr {}) := by
  obtain ⟨-, senderAcc, hfind, rfl⟩ := settle_ok h
  have hnone₁ : (paidBack block tx gasUsed hs senderAcc).state.NoneDestructed :=
    hnone.set _ _ (hnone tx.sender senderAcc hfind)
  have hnone₂ : (rewarded block tx gasUsed
      (paidBack block tx gasUsed hs senderAcc)).state.NoneDestructed :=
    hnone₁.set _ _ (hnone₁.accountOr block.coinbase rfl)
  -- No account is destructed, so none is erased.
  refine ⟨fun addr acc hacc => hnone₂ addr acc ?_, fun addr => ?_⟩
  · rwa [State.find_eraseIf hnone₂] at hacc
  have hpaid := sameOwn_setAcc hfind (senderAcc.balance + tx.unused block gasUsed) addr
  have hrewarded : (accountOr (paidBack block tx gasUsed hs senderAcc) addr {}).SameOwn
      (accountOr (rewarded block tx gasUsed (paidBack block tx gasUsed hs senderAcc)) addr {}) := by
    unfold rewarded
    rw [accountOr_setAcc]
    split
    next ha =>
      rw [ha]
      exact ⟨rfl, rfl, fun _ => rfl, fun _ => rfl⟩
    next => exact .refl _
  refine (hpaid.trans hrewarded).trans ?_
  unfold accountOr
  rw [State.find_eraseIf hnone₂]
  exact .refl _

variable [Ethash] {vm : VM} {fuel : Nat} {receipt : TransactionReceipt} {msg msg' : Message}
  {executionGasLimit : Int} {result : CallResult}

/-- The account with its nonce bumped. -/
def Account.bumped (acc : Account) : Account := { acc with nonce := acc.nonce + 1 }

omit [Ethash] in
/-- Bumping the nonces keeps the agreement of the own values. -/
theorem Account.SameOwn.bumped {acc acc' : Account} (h : acc.SameOwn acc') :
    acc.bumped.SameOwn acc'.bumped :=
  ⟨congrArg (· + 1) h.nonce, h.code, h.current, h.original⟩

omit [Ethash] in
/-- A nonce that is bumped does not wrap. -/
theorem Account.isExternal_bumped {acc : Account} (hmax : acc.nonce ≠ Account.nonceMax)
    (hcode : acc.code = []) : acc.bumped.IsExternal := by
  refine ⟨fun hzero => hmax ?_, hcode⟩
  have hwraps : acc.nonce = -1 := eq_neg_of_add_eq_zero_left hzero
  rw [hwraps]
  decide

/-- The message of a transaction bumps the nonce of its sender. -/
theorem bumped_prepared (hdepth : msg.depth = 0)
    (hprepared : prepareMessage msg hs = .ok (some msg', hs')) :
    (accountOr hs msg.sender {}).nonce ≠ Account.nonceMax ∧
      (accountOr hs msg.sender {}).bumped.SameOwn (accountOr hs' msg.sender {}) := by
  have hbumped : ∀ {acc}, hs.state.find msg.sender = some acc →
      accountOr (Host.bumped hs msg acc) msg.sender {} = (accountOr hs msg.sender {}).bumped := by
    intro acc hfind
    unfold Host.bumped
    rw [if_pos (show BumpsNonce msg from .inl hdepth), accountOr_setAcc, if_pos rfl,
      accountOr_of_find hfind]
    rfl
  cases prepareMessage_ok hprepared with
  | call hfind hmax =>
    rw [hbumped hfind, accountOr_of_find hfind]
    exact ⟨hmax (.inl hdepth), .refl _⟩
  | @create acc recipient hfind hmax =>
    have hwarm := (HostState.SameContent.warmed (Host.bumped hs msg acc) recipient).sameOwn msg.sender
    rw [hbumped hfind] at hwarm
    refine ⟨?_, hwarm⟩
    rw [accountOr_of_find hfind]
    exact hmax (.inl hdepth)

/-- The call of a transaction spares an external account that is not the sender. -/
theorem spared_other (hvm : vm.Authorized) (hne : addr ≠ tx.sender)
    (hext : (accountOr hs addr {}).IsExternal)
    (h : call ⟨block, tx⟩ vm fuel (buildMessage tx executionGasLimit) hs = .ok (result, hs')) :
    Spared addr False hs hs' := by
  refine spares_call hvm ⟨⟨le_rfl, fun _ => .inr hne, fun hkind => ?_⟩, fun _ => hne⟩ h hext
  unfold buildMessage at hkind
  dsimp only at hkind
  split at hkind <;> cases hkind

/-- The call of a transaction bumps the nonce of the sender by one, and spares it but for the value. -/
theorem spared_sender (hvm : vm.Authorized) (hcode : (accountOr hs tx.sender {}).code = [])
    (hmax : (accountOr hs tx.sender {}).nonce ≠ Account.nonceMax)
    (h : call ⟨block, tx⟩ vm fuel (buildMessage tx executionGasLimit) hs = .ok (result, hs')) :
    (accountOr hs tx.sender {}).bumped.SameOwn (accountOr hs' tx.sender {}) := by
  obtain _ | n := fuel
  · cases h
  have hspends : (buildMessage tx executionGasLimit).Spends tx.sender True := by
    refine ⟨le_rfl, fun _ => .inl trivial, fun hkind => ?_⟩
    unfold buildMessage at hkind
    dsimp only at hkind
    split at hkind <;> cases hkind
  rcases spared_called hvm (fun _ _ _ _ hm hrun => spares_call hvm hm hrun) hspends h with
    ⟨msg', hs₁, hprepared, hspared⟩ | hrefused
  · obtain ⟨-, hbumped⟩ := bumped_prepared rfl hprepared
    have hext : (accountOr hs₁ tx.sender {}).IsExternal :=
      (Account.isExternal_bumped hmax hcode).of_sameOwn hbumped
    exact hbumped.trans (hspared hext).own
  · cases prepareMessage_ok hrefused with
    | refused hfind _ hmax' =>
      have hsender : accountOr hs tx.sender {} = _ := accountOr_of_find hfind {}
      rw [hsender] at hmax
      exact absurd hmax' hmax

omit [Ethash] in
/-- An account with a nonce is there. -/
theorem find_of_nonce {acc : Account} (hsame : acc.SameOwn (accountOr hs addr {}))
    (hnonce : acc.nonce ≠ 0) : ∃ acc', hs.state.find addr = some acc' ∧ acc.SameOwn acc' := by
  unfold accountOr at hsame
  cases hfind : hs.state.find addr with
  | none =>
    rw [hfind] at hsame
    exact absurd hsame.nonce.symm hnonce
  | some acc' =>
    rw [hfind] at hsame
    exact ⟨acc', rfl, hsame⟩

/-- What an accepted transaction does to an external account, and to the account of its sender. -/
theorem spared_transition (hvm : vm.Authorized) (hnone : hs.state.NoneDestructed) {acc : Account}
    (hfind : hs.state.find addr = some acc) (hext : acc.IsExternal ∨ addr = tx.sender)
    (h : transition vm fuel block tx hs = .ok (.ok receipt, hs')) :
    ∃ acc', hs'.state.find addr = some acc' ∧ acc'.IsExternal ∧
      (if addr = tx.sender then acc.bumped else acc).SameOwn acc' ∧
      (addr ≠ tx.sender → addr ≠ block.coinbase → tx.gasLimit < 2 ^ 63 →
        hs.state.total < 2 ^ 256 → acc.balance ≤ acc'.balance) := by
  obtain ⟨senderAcc, executionGasLimit, hsender, hvalid, hs₁, result, hs₂, hexecutes⟩ :=
    transition_ok h
  have hvalid := validateTransaction_ok hvalid
  obtain ⟨hs₀, hbuy, hwarm⟩ := hexecutes.bought
  have hnone₂ := hexecutes.noneDestructed hnone
  have hbought := sameOwn_bought hbuy hwarm addr
  have hsettled := (settled_kept hnone₂ hexecutes.settled).2 addr
  rw [accountOr_of_find hfind] at hbought
  by_cases haddr : addr = tx.sender
  · subst haddr
    obtain rfl : acc = senderAcc := Option.some.inj (hfind.symm.trans hsender)
    have hcalled := spared_sender hvm (hbought.code.trans hvalid.code)
      (by rw [hbought.nonce]; exact hvalid.nonce) hexecutes.called
    have hnew := Account.isExternal_bumped hvalid.nonce hvalid.code
    obtain ⟨acc', hfind', hsame⟩ := find_of_nonce
      ((hbought.bumped.trans hcalled).trans hsettled) hnew.nonce
    exact ⟨acc', hfind', hnew.of_sameOwn hsame, by rwa [if_pos rfl], fun hne => absurd rfl hne⟩
  · have hext := hext.resolve_right haddr
    have hspared := spared_other hvm haddr (hext.of_sameOwn hbought) hexecutes.called
    obtain ⟨acc', hfind', hsame⟩ := find_of_nonce
      ((hbought.trans hspared.own).trans hsettled) hext.nonce
    refine ⟨acc', hfind', hext.of_sameOwn hsame, by rwa [if_neg haddr],
      fun _ hcoinbase hlimit htotal => ?_⟩
    have hle := total_bought hsender hvalid hlimit hbuy hwarm
    have hgrows := hspared.balance id (by omega)
    have hbefore := balance_bought hbuy hwarm addr
    have hafter := balance_settled hnone₂ hexecutes.settled addr
    rw [if_neg haddr, sub_zero] at hbefore
    rw [if_neg haddr, if_neg hcoinbase, add_zero, add_zero] at hafter
    rw [hbefore, ← hafter] at hgrows
    unfold HostState.balance at hgrows
    rwa [accountOr_of_find hfind, accountOr_of_find hfind'] at hgrows

/-- The two interpreters keep to the authority of their frames. -/
theorem VM.authorized_of (hvm : vm = Baseline.execute ∨ vm = Advanced.execute) : vm.Authorized := by
  rcases hvm with rfl | rfl
  · exact Baseline.authorized
  · exact Advanced.authorized

/-- **Code cannot touch external accounts.** Whatever code a transaction runs, in either interpreter,
an account without code whose nonce is not 0 keeps its nonce and its storage, it gets no code, and its
balance does not fall, unless it is the account of the sender. The sender keeps them as well, except
that its nonce goes up by exactly one. -/
theorem external_accounts_are_safe (hvm : vm = Baseline.execute ∨ vm = Advanced.execute)
    (hnone : hs.state.NoneDestructed) (hlimit : tx.gasLimit < 2 ^ 63) {acc : Account}
    (hfind : hs.state.find addr = some acc) (hext : acc.IsExternal ∨ addr = tx.sender)
    (h : transition vm fuel block tx hs = .ok (.ok receipt, hs')) :
    ∃ acc', hs'.state.find addr = some acc' ∧
      (if addr = tx.sender then acc.bumped else acc).SameOwn acc' ∧
      (addr ≠ tx.sender → addr ≠ block.coinbase → hs.state.total < 2 ^ 256 →
        acc.balance ≤ acc'.balance) := by
  obtain ⟨acc', hfind', -, hsame, hbalance⟩ :=
    spared_transition (VM.authorized_of hvm) hnone hfind hext h
  exact ⟨acc', hfind', hsame, fun hne hcoinbase => hbalance hne hcoinbase hlimit⟩

end

/-- A contract that sends 3 coins of what it gets to the account `0x40`, which has no code. -/
def givingState : HostState :=
  { state := (((⟨∅⟩ : State).set 0x10 { nonce := 1, code := [0x5f, 0x5f, 0x5f, 0x5f, 0x60, 0x03,
      0x60, 0x40, 0x5a, 0xf1, 0x00] }).set 0x40 { nonce := 7, balance := 100 }).set 0x20
        { balance := 300000 } }

/-- The account `0x40` is called with a value by the contract, and keeps its nonce and its coins. -/
theorem external_accounts_are_safe_giving : ∃ (_ : Ethash) (receipt : TransactionReceipt)
    (hs' : HostState) (acc' : Account),
    transition Baseline.execute 30 plainBlock batchTransaction givingState
      = .ok (.ok receipt, hs') ∧
    hs'.state.find 0x40 = some acc' ∧ acc'.nonce = 7 ∧ acc'.code = [] ∧ 100 ≤ acc'.balance := by
  let ethash : Ethash := ⟨fun _ => 0⟩
  -- The transaction is run as it stands, with its executions inside.
  have hends : ((transition Baseline.execute 30 plainBlock batchTransaction givingState).toOption.any
      fun x => x.1.toOption.isSome) = true := by decide +kernel
  rcases hrun : transition Baseline.execute 30 plainBlock batchTransaction givingState with
    _ | ⟨_ | receipt, hs'⟩ <;> rw [hrun] at hends
  · cases hends
  · cases hends
  have hnone : givingState.state.NoneDestructed := by
    have hempty : (⟨∅⟩ : State).NoneDestructed := fun _ _ h => by cases h
    exact State.NoneDestructed.set ((hempty.set _ _ (by rfl)).set _ _ (by rfl)) _ _ (by rfl)
  have hfind : givingState.state.find 0x40 = some { nonce := 7, balance := 100 } := by
    unfold givingState
    rw [State.find_set, if_neg (by decide), State.find_set, if_pos rfl]
  obtain ⟨acc', hfind', hsame, hbalance⟩ := external_accounts_are_safe (.inl rfl) hnone
    (by decide) hfind (.inl ⟨by decide, rfl⟩) hrun
  have hother : (0x40 : Address) ≠ batchTransaction.sender := by decide
  rw [if_neg hother] at hsame
  exact ⟨ethash, receipt, hs', acc', hrun, hfind', hsame.nonce, hsame.code,
    hbalance hother (by decide) (by decide +kernel)⟩

/-! ### Blocks -/

section

variable {addr : Address}

/-- The account with its nonce bumped some times. -/
def Account.bumpedBy (acc : Account) (n : Nat) : Account :=
  { acc with nonce := acc.nonce + BitVec.ofNat 64 n }

/-- No transaction bumps no nonce. -/
@[simp] theorem Account.bumpedBy_zero (acc : Account) : acc.bumpedBy 0 = acc := by
  simp [Account.bumpedBy]

/-- One transaction more bumps the nonce once more. -/
theorem Account.bumpedBy_succ (acc : Account) (n : Nat) :
    acc.bumpedBy (n + 1) = acc.bumped.bumpedBy n := by
  simp only [Account.bumpedBy, Account.bumped, BitVec.ofNat_add, BitVec.add_assoc]
  rw [BitVec.add_comm (BitVec.ofNat 64 n)]
  rfl

/-- Bumping the nonces often keeps the agreement of the own values. -/
theorem Account.SameOwn.bumpedBy {acc acc' : Account} (h : acc.SameOwn acc') (n : Nat) :
    (acc.bumpedBy n).SameOwn (acc'.bumpedBy n) :=
  ⟨congrArg (· + BitVec.ofNat 64 n) h.nonce, h.code, h.current, h.original⟩

/-- The end of a block changes an external account by its withdrawals only. -/
theorem sameOwn_finalize {s : State} {acc : Account} (hfind : s.find addr = some acc)
    (hext : acc.IsExternal) (withdrawals : List Withdrawal) :
    ∃ acc', (finalize s withdrawals).find addr = some acc' ∧ acc.SameOwn acc' := by
  have hkept : (s.find addr).filter (fun acc => ¬ (acc.erasable ∧ acc.IsEmpty)) = some acc := by
    rw [hfind]
    simp only [Option.filter, Account.IsEmpty, hext.nonce, false_and, and_false, not_false_eq_true,
      decide_true, if_true]
  have hfinal := find_finalize s withdrawals addr
  split at hfinal
  · refine ⟨_, hfinal, ?_⟩
    obtain ⟨hcode, hnonce, -, hstorage⟩ := creditBase_cases s addr
    rw [hfind, Option.getD_some] at hcode hnonce hstorage
    rw [if_neg fun h => hext.nonce h.2.2.1] at hstorage
    exact ⟨hnonce, hcode, fun key => congrArg (fun st => (Storage.slot st key).current) hstorage,
      fun key => congrArg (fun st => (Storage.slot st key).original) hstorage⟩
  · exact ⟨acc, hfinal.trans hkept, .refl acc⟩

variable [Ethash] {vm : VM} {fuel : Nat} {chainId : BitVec 64} {block : BlockInfo}
  {tx : Transaction} {txs : List Transaction} {hs hs' : HostState} {receipt : TransactionReceipt}

/-- A transaction that is not accepted changes nothing. -/
theorem transition_rejected {e : ErrorCode}
    (h : transition vm fuel block tx hs = .ok (.error e, hs')) : hs' = hs := by
  unfold transition at h
  obtain ⟨senderAcc, s₁, hget, hrest⟩ := bind_eq_ok.1 h
  obtain ⟨-, rfl⟩ := getAccount_eq_ok.1 hget
  cases hvalid : validateTransaction senderAcc block tx with
  | error e' =>
    rw [hvalid] at hrest
    exact (pure_eq_ok.1 hrest).2.symm
  | ok executionGasLimit =>
    rw [hvalid] at hrest
    obtain ⟨receipt, s₂, -, hend⟩ := bind_eq_ok.1 hrest
    obtain ⟨hr, -⟩ := pure_eq_ok.1 hend
    cases hr

/-- A transition leaves no destructed account behind. -/
theorem transition_noneDestructed (hnone : hs.state.NoneDestructed)
    (h : transition vm fuel block tx hs = .ok (.ok receipt, hs')) : hs'.state.NoneDestructed := by
  obtain ⟨_, _, -, -, _, _, _, hexecutes⟩ := transition_ok h
  exact (settled_kept (hexecutes.noneDestructed hnone) hexecutes.settled).1

/-- The transactions of a block bump the nonce of their senders. -/
theorem spared_t8nLoop (hvm : vm.Authorized) (hnone : hs.state.NoneDestructed) {acc : Account}
    (hfind : hs.state.find addr = some acc) (hext : acc.IsExternal) {r result : T8nResult} {i : Nat}
    (h : t8nLoop vm fuel chainId block r i txs hs = .ok (result, hs')) :
    ∃ accepted acc', result.transactions = r.transactions ++ accepted ∧
      hs'.state.find addr = some acc' ∧ acc'.IsExternal ∧
      (acc.bumpedBy (accepted.countP (·.sender = addr))).SameOwn acc' := by
  induction txs generalizing hs acc r i with
  | nil =>
    obtain ⟨rfl, rfl⟩ := pure_eq_ok.1 h
    refine ⟨[], acc, (List.append_nil _).symm, hfind, hext, ?_⟩
    simpa using Account.SameOwn.refl acc
  | cons tx txs ih =>
    unfold t8nLoop at h
    obtain ⟨r₁, hs₁, hbody, hrest⟩ := bind_eq_ok.1 h
    unfold t8nTransaction at hbody
    obtain ⟨res, hs₂, hrun, hbody⟩ := bind_eq_ok.1 hbody
    cases res with
    | error e =>
      obtain ⟨rfl, rfl⟩ := pure_eq_ok.1 hbody
      obtain rfl := transition_rejected hrun
      obtain ⟨accepted, acc', htxs, hrest⟩ := ih hnone hfind hext hrest
      exact ⟨accepted, acc', htxs, hrest⟩
    | ok receipt =>
      obtain ⟨rfl, rfl⟩ := pure_eq_ok.1 hbody
      obtain ⟨acc₁, hfind₁, hext₁, hsame, -⟩ := spared_transition hvm hnone hfind (.inl hext) hrun
      obtain ⟨accepted, acc', htxs, hfind', hext', hsame'⟩ :=
        ih (transition_noneDestructed hnone hrun) hfind₁ hext₁ hrest
      refine ⟨{ tx with chainId } :: accepted, acc', ?_, hfind', hext', ?_⟩
      · rw [htxs, List.append_assoc, List.singleton_append]
      -- The nonce of the sender of this transaction is bumped before those of the rest.
      by_cases haddr : addr = tx.sender
      · have hsender : addr = ({ tx with chainId } : Transaction).sender := haddr
        rw [if_pos hsender] at hsame
        rw [List.countP_cons_of_pos (by simp [haddr]), Account.bumpedBy_succ]
        exact (hsame.bumpedBy _).trans hsame'
      · have hsender : addr ≠ ({ tx with chainId } : Transaction).sender := haddr
        rw [if_neg hsender] at hsame
        rw [List.countP_cons_of_neg (by simp [Ne.symm haddr])]
        exact (hsame.bumpedBy _).trans hsame'

/-- **Nonces count transactions.** Over a whole block, in either interpreter and whatever code its
transactions run, the nonce of an external account rises by exactly the number of its own accepted
transactions, and its code and its storage stay as they are. -/
theorem nonces_count_transactions (hvm : vm = Baseline.execute ∨ vm = Advanced.execute)
    (hnone : hs.state.NoneDestructed) {acc : Account} (hfind : hs.state.find addr = some acc)
    (hext : acc.IsExternal) {result : T8nResult}
    (h : t8n vm fuel chainId block txs hs = .ok (result, hs')) :
    ∃ acc', hs'.state.find addr = some acc' ∧
      (acc.bumpedBy (result.transactions.countP (·.sender = addr))).SameOwn acc' := by
  unfold t8n at h
  obtain ⟨result', hs₁, hloop, h⟩ := bind_eq_ok.1 h
  obtain ⟨_, hs₂, hmodify, h⟩ := bind_eq_ok.1 h
  obtain rfl := modify_eq_ok.1 hmodify
  obtain ⟨rfl, rfl⟩ := pure_eq_ok.1 h
  obtain ⟨accepted, acc₁, htxs, hfind₁, hext₁, hsame⟩ :=
    spared_t8nLoop (VM.authorized_of hvm) hnone hfind hext hloop
  obtain ⟨acc', hfind', hsame'⟩ := sameOwn_finalize hfind₁ hext₁ block.withdrawals
  rw [htxs]
  exact ⟨acc', hfind', hsame.trans hsame'⟩

end

/-- The sender `0x20` of two transactions has the nonce 3. -/
def countingState : HostState :=
  { state := givingState.state.set 0x20 { nonce := 3, balance := 600000 } }

/-- Both transactions are accepted, and the nonce is 5 then. -/
theorem nonces_count_transactions_two : ∃ (_ : Ethash) (result : T8nResult) (hs' : HostState)
    (acc' : Account),
    t8n Baseline.execute 30 1 plainBlock [batchTransaction, batchTransaction] countingState
      = .ok (result, hs') ∧
    result.transactions.countP (·.sender = 0x20) = 2 ∧
    hs'.state.find 0x20 = some acc' ∧ acc'.nonce = 5 := by
  let ethash : Ethash := ⟨fun _ => 0⟩
  have hends : ((t8n Baseline.execute 30 1 plainBlock [batchTransaction, batchTransaction]
      countingState).toOption.any fun x => x.1.transactions.countP (·.sender = 0x20) = 2) = true := by
    decide +kernel
  rcases hrun : t8n Baseline.execute 30 1 plainBlock [batchTransaction, batchTransaction]
    countingState with _ | ⟨result, hs'⟩ <;> rw [hrun] at hends
  · cases hends
  have hcount : result.transactions.countP (·.sender = 0x20) = 2 := of_decide_eq_true hends
  have hnone : countingState.state.NoneDestructed := by
    have hempty : (⟨∅⟩ : State).NoneDestructed := fun _ _ h => by cases h
    exact State.NoneDestructed.set (State.NoneDestructed.set
      ((hempty.set _ _ (by rfl)).set _ _ (by rfl)) _ _ (by rfl)) _ _ (by rfl)
  have hfind : countingState.state.find 0x20 = some { nonce := 3, balance := 600000 } := by
    unfold countingState
    rw [State.find_set, if_pos rfl]
  obtain ⟨acc', hfind', hsame⟩ := nonces_count_transactions (.inl rfl) hnone hfind
    ⟨by decide, rfl⟩ hrun
  rw [hcount] at hsame
  exact ⟨ethash, result, hs', acc', hrun, hcount, hfind', hsame.nonce⟩

end Zvmone
