import Zvmone.Library.TwoRuns
import Zvmone.State.ExternalAccounts

/-! # Empty accounts

A state is tidy if every account that is empty is marked for erasure. An account is emptied by paying
away its balance only, and what pays has a nonce or a code: the sender of a transaction, whose nonce
is bumped, or a contract. Whatever receives value is marked, or is a new contract. So calls and
transactions leave tidy states, and no empty account outlives a block except where a withdrawal has
put it (`no_empty_accounts_left`). -/

namespace Zvmone

open Interaction StateRun Host

/-! ### Tidy states -/

/-- Every empty account, among those at the addresses in `P`, is marked for erasure. -/
def State.Tidy (s : State) (P : Address → Prop := fun _ => True) : Prop :=
  ∀ addr acc, P addr → s.find addr = some acc → acc.IsEmpty → acc.erasable = true

/-- The account is marked for erasure unless it has a nonce or a code, whatever its balance is. -/
def Account.Lasting (acc : Account) : Prop := acc.nonce = 0 → acc.code = [] → acc.erasable = true

/-- The account at the address, if there is one, is lasting. -/
def LastingAt (hs : HostState) (addr : Address) : Prop :=
  ∀ acc, hs.state.find addr = some acc → acc.Lasting

section

variable {P : Address → Prop} {hs hs' : HostState} {addr a : Address} {acc acc₀ : Account}

/-- A lasting account is marked if it is empty. -/
theorem Account.Lasting.tidy (h : acc.Lasting) : acc.IsEmpty → acc.erasable = true :=
  fun hempty => h hempty.2.1 hempty.1

/-- A state that is tidy at more addresses is tidy at fewer. -/
theorem State.Tidy.mono {Q : Address → Prop} {s : State} (h : s.Tidy Q) (hPQ : ∀ a, P a → Q a) :
    s.Tidy P :=
  fun addr acc haddr => h addr acc (hPQ addr haddr)

/-- Writing an account that is not empty or marked. -/
theorem State.Tidy.setAcc (h : hs.state.Tidy fun a => P a ∧ a ≠ addr)
    (hacc : P addr → acc.IsEmpty → acc.erasable = true) :
    (Host.setAcc hs addr acc).state.Tidy P := by
  intro a acc' ha hfind hempty
  rw [setAcc_state, State.find_set] at hfind
  split at hfind
  next heq =>
    subst heq
    cases hfind
    exact hacc ha hempty
  next hne => exact h a acc' ⟨ha, hne⟩ hfind hempty

/-- Writing back an account that differs in its storage and its access status only. -/
theorem State.Tidy.setAcc_of_find (h : hs.state.Tidy P) (hfind : hs.state.find addr = some acc₀)
    (hsame : acc.nonce = acc₀.nonce ∧ acc.code = acc₀.code ∧ acc.balance = acc₀.balance ∧
      acc.erasable = acc₀.erasable) : (Host.setAcc hs addr acc).state.Tidy P := by
  intro a acc' ha hfind' hempty
  rw [setAcc_state, State.find_set] at hfind'
  split at hfind'
  next heq =>
    subst heq
    cases hfind'
    obtain ⟨hnonce, hcode, hbalance, herasable⟩ := hsame
    have hempty₀ : acc₀.IsEmpty :=
      ⟨hcode ▸ hempty.1, hnonce ▸ hempty.2.1, hbalance ▸ hempty.2.2⟩
    exact herasable.trans (h a acc₀ ha hfind hempty₀)
  next => exact h a acc' ha hfind' hempty

/-- An account that is inserted when it is accessed is marked. -/
theorem State.Tidy.warmed (h : hs.state.Tidy P) (addr : Address) :
    (Host.warmed hs addr).state.Tidy P := by
  unfold Host.warmed Host.accountOr
  cases hfind : hs.state.find addr with
  | none => exact State.Tidy.setAcc (h.mono fun _ ha => ha.1) fun _ _ => rfl
  | some acc => exact h.setAcc_of_find hfind ⟨rfl, rfl, rfl, rfl⟩

/-- An account with a nonce or a code is lasting. -/
theorem lastingAt_of_not_fresh (h : ¬ Fresh hs addr) : LastingAt hs addr := by
  intro acc hfind hnonce hcode
  refine absurd ⟨?_, ?_⟩ h
  · rw [accountOr_of_find hfind]
    exact hnonce
  · rw [accountOr_of_find hfind]
    exact hcode

/-- An account stays lasting when another one is written. -/
theorem LastingAt.setAcc (h : LastingAt hs a) (hacc : a = addr → acc.Lasting) :
    LastingAt (Host.setAcc hs addr acc) a := by
  intro acc' hfind
  rw [setAcc_state, State.find_set] at hfind
  split at hfind
  next heq =>
    cases hfind
    exact hacc heq
  next => exact h acc' hfind

/-- A transfer between lasting accounts. -/
theorem tidy_transfer {sender recipient : Address} {value : Word} {u : Unit}
    (h : hs.state.Tidy P) (hsender : LastingAt hs sender) (hrecipient : LastingAt hs recipient)
    (htransfer : transfer sender recipient value hs = .ok (u, hs')) : hs'.state.Tidy P := by
  obtain ⟨senderAcc, recipientAcc, hfind, -, hfind', rfl⟩ := transfer_ok htransfer
  have hpays : ({ senderAcc with balance := senderAcc.balance - value } : Account).Lasting :=
    hsender senderAcc hfind
  have hpaid : Account.Lasting { recipientAcc with balance := recipientAcc.balance + value } :=
    hrecipient.setAcc (fun _ => hpays) recipientAcc hfind'
  refine State.Tidy.setAcc (P := P) (State.Tidy.mono ?_ fun _ ha => ha.1) fun _ => hpaid.tidy
  exact State.Tidy.setAcc (h.mono fun _ ha => ha.1) fun _ => hpays.tidy

/-- An account that has a nonce or a code goes on having one. -/
theorem not_fresh_of_codeKept {C : Address → Prop} (h : hs.CodeKept C hs') (hfresh : ¬ Fresh hs addr) :
    ¬ Fresh hs' addr := by
  rintro ⟨hnonce, hcode⟩
  have hkept := h.accounts addr
  have hle := hkept.nonce
  rw [hnonce] at hle
  have hnonce₀ := BitVec.le_zero_iff.1 hle
  rcases hkept.code with hsame | ⟨-, hdeployed⟩
  · exact hfresh ⟨hnonce₀, hsame ▸ hcode⟩
  · exact hfresh ⟨hnonce₀, hdeployed.code⟩

end

/-! ### Calls -/

section calls

variable {msg msg' m : Message} {hs hs' hs₁ hs₂ : HostState} {r : CallResult}

/-- The account in whose name a message acts: a delegated call acts for its recipient. -/
def Message.actor (msg : Message) : Address :=
  if msg.kind = .delegatecall then msg.recipient else msg.sender

/-- What a frame sends acts in the name of its own account. -/
theorem Message.SentBy.actor_eq (h : m.SentBy msg) : m.actor = msg.recipient := by
  unfold Message.actor
  cases hkind : m.kind with
  | call => exact (if_neg (by decide)).trans (h.call hkind).1
  | delegatecall => exact (if_pos rfl).trans (h.delegated hkind).2.1
  | create => exact (if_neg (by decide)).trans (h.create (.inl hkind)).1
  | create2 => exact (if_neg (by decide)).trans (h.create (.inr hkind)).1

/-- A creation acts for its sender. -/
theorem Message.actor_of_isCreate (hkind : msg.kind.IsCreate) : msg.actor = msg.sender := by
  refine if_neg fun hdelegated => ?_
  rw [hdelegated] at hkind
  exact absurd hkind (by decide)

/-- A nonce that is not the largest does not become 0. -/
theorem nonce_succ_ne_zero {nonce : BitVec 64} (hmax : nonce ≠ Account.nonceMax) : nonce + 1 ≠ 0 := by
  intro hzero
  have hwraps : nonce = -1 := eq_neg_of_add_eq_zero_left hzero
  exact hmax (hwraps.trans (by decide))

/-- A sender whose nonce is bumped is not empty, even if it was before. -/
theorem tidy_bumped {senderAcc : Account}
    (h : hs.state.Tidy fun a => BumpsNonce msg → a ≠ msg.sender)
    (hmax : BumpsNonce msg → senderAcc.nonce ≠ Account.nonceMax) :
    (bumped hs msg senderAcc).state.Tidy := by
  unfold bumped
  split
  next hbumps =>
    exact State.Tidy.setAcc (h.mono fun _ ha _ => ha.2) fun _ hempty =>
      absurd hempty.2.1 (nonce_succ_ne_zero (hmax hbumps))
  next hbumps => exact h.mono fun _ _ hb => absurd hb hbumps

/-- `prepare_message` makes the state tidy at the sender whose nonce it bumps. -/
theorem tidy_prepared [Ethash] (h : hs.state.Tidy fun a => BumpsNonce msg → a ≠ msg.sender)
    (hprepared : prepareMessage msg hs = .ok (some msg', hs')) : hs'.state.Tidy := by
  cases prepareMessage_ok hprepared with
  | call _ hmax => exact tidy_bumped h hmax
  | create _ hmax => exact (tidy_bumped h hmax).warmed _

/-- `prepare_message` does not change who acts. -/
theorem actor_prepared [Ethash] (hprepared : prepareMessage msg hs = .ok (some msg', hs')) :
    msg'.actor = msg.actor := by
  rcases prepared_eq hprepared with rfl | ⟨hkind, recipient, rfl⟩
  · rfl
  · rw [Message.actor_of_isCreate hkind]
    exact Message.actor_of_isCreate hkind

/-- A lasting account that is written is there. -/
theorem lastingAt_setAcc_self {addr : Address} {acc : Account} (h : acc.Lasting) :
    LastingAt (setAcc hs addr acc) addr := by
  intro acc' hfind
  rw [setAcc_state, State.find_set, if_pos rfl] at hfind
  cases hfind
  exact h

/-- The recipient of a value is touched first. -/
theorem tidy_enterCall (h : hs.state.Tidy) (hactor : ¬ Fresh hs msg.actor) {u : Unit}
    (henter : enterCall msg hs = .ok (u, hs')) : hs'.state.Tidy := by
  rcases enterCall_ok henter with ⟨-, rfl⟩ | ⟨hkind, -, htransfer⟩
  · exact h
  · have hsender : msg.actor = msg.sender := if_neg (by rw [hkind]; decide)
    rw [hsender] at hactor
    have hlasting : (touched hs msg.recipient).Lasting := fun _ _ => rfl
    have htouched : (setAcc hs msg.recipient (touched hs msg.recipient)).state.Tidy :=
      State.Tidy.setAcc (h.mono fun _ ha => ha.1) fun _ _ => rfl
    exact tidy_transfer htouched ((lastingAt_of_not_fresh hactor).setAcc fun _ => hlasting)
      (lastingAt_setAcc_self hlasting) htransfer

/-- A new contract has a nonce. -/
theorem tidy_enterCreate (h : hs.state.Tidy) (hactor : ¬ Fresh hs msg.sender) {u : Unit}
    (htransfer : transfer msg.sender msg.recipient msg.value
      (setAcc hs msg.recipient (newAccount hs msg.recipient)) = .ok (u, hs')) :
    hs'.state.Tidy := by
  have hlasting : (newAccount hs msg.recipient).Lasting := fun hnonce => by cases hnonce
  have hnew : (setAcc hs msg.recipient (newAccount hs msg.recipient)).state.Tidy :=
    State.Tidy.setAcc (h.mono fun _ ha => ha.1) fun _ => hlasting.tidy
  exact tidy_transfer hnew ((lastingAt_of_not_fresh hactor).setAcc fun _ => hlasting)
    (lastingAt_setAcc_self hlasting) htransfer

/-- A revert to a tidy state is tidy. -/
theorem tidy_revert (h : hs.state.Tidy) (hs' : HostState) : (revert hs hs').state.Tidy := by
  rcases revert_state hs hs' with hstate | hstate <;> rw [hstate]
  · exact h
  · exact State.Tidy.setAcc (h.mono fun _ ha => ha.1) fun _ _ => rfl

variable [Ethash] {ctx : HostContext} {vm : VM} {n : Nat}

/-- Host methods other than `call` keep states tidy. -/
theorem tidy_answer {call : Message → HostS CallResult} {q : HostCall} (hq : ∀ m, q ≠ .call m)
    (h : hs.state.Tidy) {x : q.Answer} (hrun : answer ctx call q hs = .ok (x, hs')) :
    hs'.state.Tidy := by
  cases q with
  | accountExists addr => rwa [accountExists_ok hrun]
  | getStorage addr key => rwa [(getStorage_ok hrun).1]
  | setStorage addr key value =>
    obtain ⟨acc, hfind, -, rfl⟩ := setStorage_ok hrun
    exact h.setAcc_of_find hfind ⟨rfl, rfl, rfl, rfl⟩
  | getBalance addr => rwa [(getBalance_ok hrun).1]
  | getCodeSize addr => rwa [getCodeSize_ok hrun]
  | getCodeHash addr => rwa [getCodeHash_ok hrun]
  | copyCode addr codeOffset bufferSize => rwa [copyCode_ok hrun]
  | call m => exact absurd rfl (hq m)
  | getTxContext => rwa [getTxContext_ok hrun]
  | getBlockHash number => rwa [show hs' = hs from @getBlockHash_ok hs hs' number x hrun]
  | emitLog addr data topics => rwa [emitLog_ok hrun]
  | accessAccount addr =>
    rw [(accessAccount_ok hrun).1]
    exact h.warmed addr
  | accessStorage addr key =>
    obtain ⟨acc, hfind, -, rfl⟩ := accessStorage_ok hrun
    exact h.setAcc_of_find hfind ⟨rfl, rfl, rfl, rfl⟩

/-- Calls in the name of an account with a nonce or a code keep states tidy. -/
def TidyCalls (call : Message → HostS CallResult) : Prop :=
  ∀ m hs r hs', hs.state.Tidy → ¬ Fresh hs m.actor → call m hs = .ok (r, hs') → hs'.state.Tidy

/-- The frame of an account with a nonce or a code. -/
theorem tidy_run {α : Type} {p : HostM α} {a : α} (hasks : p.Asks (HostCall.Authorized msg))
    (hcalls : TidyCalls (call ctx vm n)) (h : hs.state.Tidy) (hown : ¬ Fresh hs msg.recipient)
    (hrun : run (answer ctx (call ctx vm n)) p hs = .ok (a, hs')) : hs'.state.Tidy := by
  have hkept := HostState.CodeKept.keptByHost fun _ => True
  have hinvariant : hs'.state.Tidy ∧ ¬ Fresh hs' msg.recipient := by
    refine invariant_of_reaches (I := fun s => s.state.Tidy ∧ ¬ Fresh s msg.recipient) ?_ ⟨h, hown⟩
      hrun
    rintro q s₁ x s₂ hreach ⟨hs₁, hown₁⟩ hq
    refine ⟨?_, not_fresh_of_codeKept (hkept.env n q _ _ _ hq) hown₁⟩
    by_cases hcall : ∃ m, q = .call m
    · obtain ⟨m, rfl⟩ := hcall
      have hsent : m.SentBy msg := hasks.reaches hreach
      exact hcalls m _ _ _ hs₁ (hsent.actor_eq ▸ hown₁) hq
    · exact tidy_answer (fun m hm => hcall ⟨m, hm⟩) hs₁ hq
  exact hinvariant.1

/-- An executed message keeps states tidy, if the calls of its code do. -/
theorem tidy_executed (hvm : vm.Authorized) (hcalls : TidyCalls (call ctx vm n))
    (h : hs.state.Tidy) (hactor : ¬ Fresh hs msg.actor)
    (hexecuted : Executed (execVm ctx vm (call ctx vm n) n) msg hs r hs') : hs'.state.Tidy := by
  have hkept := HostState.CodeKept.keptByHost fun _ => True
  cases hexecuted with
  | collision => exact h
  | @create r₁ _ hs₁ hs₂ _ hkind hnonce hcode htransfer hexec hdeploy =>
    rw [Message.actor_of_isCreate hkind] at hactor
    have hentered := tidy_enterCreate h hactor htransfer
    -- The new contract has the nonce 1, which does not fall.
    have hnew : (accountOr (setAcc hs msg.recipient (newAccount hs msg.recipient)) msg.recipient
        {}).nonce = 1 := by
      rw [accountOr_setAcc, if_pos rfl]
      rfl
    have hkept₁ : HostState.CodeKept (fun _ => True)
        (setAcc hs msg.recipient (newAccount hs msg.recipient)) hs₁ := .transfer htransfer
    have hown : ¬ Fresh hs₁ msg.recipient := by
      refine not_fresh_of_codeKept hkept₁ fun hfresh => ?_
      have hzero := hfresh.nonce
      rw [hnew] at hzero
      cases hzero
    have hran := tidy_run (hvm.asks n { msg with inputData := [] } _) hcalls hentered hown hexec
    cases hdeploy with
    | failed | refused | rejected => exact hran
    | @done acc _ _ _ _ hfind =>
      have hkept₂ : HostState.CodeKept (fun _ => True) hs₁ hs₂ :=
        hkept.run (fun m s r s' _ hrun => hkept.keeps n m _ _ _ hrun) hexec
      have hle := BitVec.le_trans (hkept₁.accounts msg.recipient).nonce
        (hkept₂.accounts msg.recipient).nonce
      rw [hnew, accountOr_of_find hfind] at hle
      refine State.Tidy.setAcc (hran.mono fun _ ha => ha.1) fun _ hempty => ?_
      rw [show acc.nonce = 0 from hempty.2.1] at hle
      exact absurd hle (by decide)
  | precompile _ henter =>
    have hentered := tidy_enterCall h hactor henter
    exact hentered
  | @call r hs₁ _ hkind henter _ hexec =>
    have hentered := tidy_enterCall h hactor henter
    by_cases hfresh : Fresh hs₁ msg.recipient
    · -- Without a code the account does nothing; delegated calls act for one that has a nonce or a code.
      cases hmsg : msg.kind with
      | call =>
        have hcode : codeOf hs₁ msg = [] := by
          rw [codeOf, if_pos hmsg]
          exact hfresh.code
        rw [hcode] at hexec
        rw [run_eq_of_idle (hvm.idle n msg) hexec]
        exact hentered
      | delegatecall =>
        have hrecipient : msg.actor = msg.recipient := if_pos hmsg
        rw [hrecipient] at hactor
        exact absurd hfresh (not_fresh_of_codeKept (hkept.enterCall henter) hactor)
      | create => exact absurd (.inl hmsg) hkind
      | create2 => exact absurd (.inr hmsg) hkind
    · have hown : ¬ Fresh { hs₁ with cache := (Precompiles.callPrecompile hs₁.cache msg).cache }
          msg.recipient := fun h => hfresh ⟨h.nonce, h.code⟩
      have hentered₁ : State.Tidy
          { hs₁ with cache := (Precompiles.callPrecompile hs₁.cache msg).cache }.state := hentered
      exact tidy_run (hvm.asks n msg _) hcalls hentered₁ hown hexec

/-- What a call does once its message is prepared keeps states tidy. -/
theorem tidy_called (hvm : vm.Authorized) (hcalls : TidyCalls (call ctx vm n))
    (h : hs.state.Tidy fun a => BumpsNonce msg → a ≠ msg.sender)
    (hactor : ∀ {msg' hs₁}, prepareMessage msg hs = .ok (some msg', hs₁) → ¬ Fresh hs₁ msg'.actor)
    (hrefused : prepareMessage msg hs = .ok (none, hs') → hs'.state.Tidy)
    (hrun : call ctx vm (n + 1) msg hs = .ok (r, hs')) : hs'.state.Tidy := by
  cases callWith_ok hrun with
  | refused hprepared => exact hrefused hprepared
  | success hprepared hexecuted =>
    exact tidy_executed hvm hcalls (tidy_prepared h hprepared) (hactor hprepared) hexecuted
  | failed hprepared => exact tidy_revert (tidy_prepared h hprepared) _

/-- Calls keep states tidy. -/
theorem tidy_call (hvm : vm.Authorized) : TidyCalls (call ctx vm n) := by
  induction n with
  | zero => exact fun _ _ _ _ _ _ hrun => by cases hrun
  | succ n ih =>
    intro msg hs r hs' h hactor hrun
    have hkept := HostState.CodeKept.keptByHost fun _ => True
    refine tidy_called hvm ih (h.mono fun _ _ => trivial) (fun hprepared => ?_) (fun hrefused => ?_)
      hrun
    · rw [actor_prepared hprepared]
      exact not_fresh_of_codeKept (hkept.prepared hprepared) hactor
    · cases prepareMessage_ok hrefused
      exact h

end calls

/-! ### Blocks -/

section blocks

/-- Erasing accounts keeps a state tidy. -/
theorem tidy_eraseIf {P : Address → Prop} {s : State} (h : s.Tidy P) (p : Account → Bool) :
    (s.eraseIf p).Tidy P := by
  intro addr acc haddr hfind
  rw [find_eraseIf, Option.filter_eq_some_iff] at hfind
  exact h addr acc haddr hfind.1

variable {block : BlockInfo} {tx : Transaction} {txs : List Transaction} {hs hs' hs₀ hs₁ : HostState}

/-- Before the call the sender may have paid everything it had, with its nonce still to be bumped. -/
theorem tidy_bought {u u' : Unit} (h : hs.state.Tidy) (hbuy : buyGas block tx hs = .ok (u, hs₀))
    (hwarm : warmUp block tx { hs₀ with logs := [] } = .ok (u', hs₁)) :
    hs₁.state.Tidy fun a => a ≠ tx.sender := by
  have hpreorder : IsPreorder HostState fun hs hs' =>
      (hs.state.Tidy fun a => a ≠ tx.sender) → hs'.state.Tidy fun a => a ≠ tx.sender :=
    { refl := fun _ => id, trans := fun _ _ _ h h' => h' ∘ h }
  have hkeeps : Keeps (fun hs hs' => (hs.state.Tidy fun a => a ≠ tx.sender) →
      hs'.state.Tidy fun a => a ≠ tx.sender) (warmUp block tx) :=
    KeptByWarming.warmUp {
      account := fun hs addr h => h.warmed addr
      sender := fun hfind h => h.setAcc_of_find hfind ⟨rfl, rfl, rfl, rfl⟩
      slots := fun _ hfind h => h.setAcc_of_find hfind ⟨rfl, rfl, rfl, rfl⟩ } block tx
  refine hkeeps _ _ _ hwarm ?_
  obtain ⟨-, -, acc, -, rfl⟩ := buyGas_ok hbuy
  exact State.Tidy.setAcc (h.mono fun _ _ => trivial) fun hne => absurd rfl hne

/-- After the call the sender has a nonce, and the coinbase is touched. -/
theorem tidy_settled {gasUsed : Int} {u : Unit} (h : hs.state.Tidy) (hsender : ¬ Fresh hs tx.sender)
    (hsettle : settle block tx gasUsed hs = .ok (u, hs')) : hs'.state.Tidy := by
  obtain ⟨-, senderAcc, hfind, rfl⟩ := settle_ok hsettle
  have hlasting : ({ senderAcc with
      balance := senderAcc.balance + tx.unused block gasUsed } : Account).Lasting :=
    lastingAt_of_not_fresh hsender senderAcc hfind
  have hpaid : (paidBack block tx gasUsed hs senderAcc).state.Tidy :=
    State.Tidy.setAcc (h.mono fun _ ha => ha.1) fun _ => hlasting.tidy
  have hrewarded : (rewarded block tx gasUsed (paidBack block tx gasUsed hs senderAcc)).state.Tidy :=
    State.Tidy.setAcc (hpaid.mono fun _ ha => ha.1) fun _ _ => rfl
  exact tidy_eraseIf hrewarded _

/-- A transaction acts for its sender. -/
theorem actor_buildMessage (tx : Transaction) (executionGasLimit : Int) :
    (buildMessage tx executionGasLimit).actor = tx.sender := by
  refine if_neg fun hkind => ?_
  unfold buildMessage at hkind
  dsimp only at hkind
  split at hkind <;> cases hkind

variable [Ethash] {vm : VM} {fuel : Nat} {chainId : BitVec 64} {receipt : TransactionReceipt}

/-- Transactions keep states tidy. -/
theorem tidy_transition (hvm : vm.Authorized) (h : hs.state.Tidy)
    (hrun : transition vm fuel block tx hs = .ok (.ok receipt, hs')) : hs'.state.Tidy := by
  obtain ⟨senderAcc, executionGasLimit, hfind, hvalidate, hs₁, result, hs₂, hexecutes⟩ :=
    transition_ok hrun
  have hvalid := validateTransaction_ok hvalidate
  obtain ⟨hs₀, hbuy, hwarm⟩ := hexecutes.bought
  have hbought := sameOwn_bought hbuy hwarm tx.sender
  rw [accountOr_of_find hfind] at hbought
  have hcode : (accountOr hs₁ tx.sender {}).code = [] := hbought.code.trans hvalid.code
  have hmax : (accountOr hs₁ tx.sender {}).nonce ≠ Account.nonceMax := by
    rw [hbought.nonce]
    exact hvalid.nonce
  have hcalled := hexecutes.called
  -- The call bumps the nonce of the sender.
  have hsender : ¬ Fresh hs₂ tx.sender := fun hfresh =>
    nonce_succ_ne_zero hmax ((spared_sender hvm hcode hmax hcalled).nonce.symm.trans hfresh.nonce)
  refine tidy_settled ?_ hsender hexecutes.settled
  obtain _ | n := fuel
  · cases hcalled
  refine tidy_called hvm (tidy_call hvm) ?_ (fun hprepared hfresh => ?_) (fun hrefused => ?_) hcalled
  · exact (tidy_bought h hbuy hwarm).mono fun _ ha => ha (.inl rfl)
  · have hnonce := (bumped_prepared rfl hprepared).2.nonce
    refine nonce_succ_ne_zero hmax (hnonce.symm.trans ?_)
    rw [actor_prepared hprepared, actor_buildMessage] at hfresh
    exact hfresh.nonce
  · cases prepareMessage_ok hrefused with
    | refused hfind' _ hrefuses =>
      have hsame : accountOr _ tx.sender {} = _ := accountOr_of_find hfind' {}
      rw [hsame] at hmax
      exact absurd hrefuses hmax

/-- The transactions of a block keep states tidy. -/
theorem tidy_t8nLoop (hvm : vm.Authorized) (h : hs.state.Tidy) {acc result : T8nResult} {i : Nat}
    (hrun : t8nLoop vm fuel chainId block acc i txs hs = .ok (result, hs')) : hs'.state.Tidy := by
  induction txs generalizing hs acc i with
  | nil =>
    obtain ⟨-, rfl⟩ := pure_eq_ok.1 hrun
    exact h
  | cons tx txs ih =>
    unfold t8nLoop at hrun
    obtain ⟨acc₁, hs₁, hbody, hrest⟩ := bind_eq_ok.1 hrun
    unfold t8nTransaction at hbody
    obtain ⟨x, hs₂, htransition, hbody⟩ := bind_eq_ok.1 hbody
    cases x with
    | error e =>
      obtain ⟨rfl, rfl⟩ := pure_eq_ok.1 hbody
      obtain rfl := transition_rejected htransition
      exact ih h hrest
    | ok receipt =>
      obtain ⟨rfl, rfl⟩ := pure_eq_ok.1 hbody
      exact ih (tidy_transition hvm h htransition) hrest

/-- **No empty account outlives a block.** From a state in which every empty account is marked for
erasure, as it is if there is none, the transactions and the end of a block lead to a state without
empty accounts, but for those that a withdrawal has credited. -/
theorem no_empty_accounts_left (hvm : vm = Baseline.execute ∨ vm = Advanced.execute)
    (htidy : hs.state.Tidy) {result : T8nResult}
    (hrun : t8n vm fuel chainId block txs hs = .ok (result, hs')) :
    ∀ addr acc, hs'.state.find addr = some acc → acc.IsEmpty →
      addr ∈ recipients block.withdrawals := by
  unfold t8n at hrun
  obtain ⟨_, hs₁, hloop, hrest⟩ := bind_eq_ok.1 hrun
  obtain ⟨_, _, hmodify, hend⟩ := bind_eq_ok.1 hrest
  obtain rfl := modify_eq_ok.1 hmodify
  obtain ⟨-, rfl⟩ := pure_eq_ok.1 hend
  have htidy₁ := tidy_t8nLoop (VM.authorized_of hvm) htidy hloop
  intro addr acc hfind hempty
  by_contra haddr
  dsimp only at hfind
  rw [find_finalize, if_neg haddr, Option.filter_eq_some_iff] at hfind
  -- It was empty before the end of the block, so it was marked and deleted.
  exact of_decide_eq_true hfind.2 ⟨htidy₁ addr acc trivial hfind.1 hempty, hempty⟩

end blocks

/-- The state of the instance is tidy. -/
theorem tidy_idleState : idleState.state.Tidy := by
  have hempty : (⟨∅⟩ : State).Tidy := fun _ _ _ h => by cases h
  have hset : (setAcc { state := ⟨∅⟩ } 0x20 { balance := 100000 }).state.Tidy :=
    State.Tidy.setAcc (hempty.mono fun _ _ => trivial) fun _ h => by cases h.2.2
  exact hset

/-- The recipient of the transaction is touched, and gone at the end. -/
theorem no_empty_accounts_left_idle : ∃ (_ : Ethash) (result : T8nResult) (hs' : HostState),
    t8n Baseline.execute 2 1 smallBlock [idleTransaction] idleState = .ok (result, hs') ∧
    (∀ addr acc, hs'.state.find addr = some acc → ¬ acc.IsEmpty) ∧ (hs'.state.find 0x20).isSome := by
  let ethash : Ethash := ⟨fun _ => 0⟩
  have hends : ((t8n Baseline.execute 2 1 smallBlock [idleTransaction] idleState).toOption.any
      fun x => (x.2.state.find 0x20).isSome) = true := by decide +kernel
  rcases hrun : t8n Baseline.execute 2 1 smallBlock [idleTransaction] idleState with
    _ | ⟨result, hs'⟩ <;> rw [hrun] at hends
  · cases hends
  · refine ⟨ethash, result, hs', hrun, fun addr acc hfind hempty => ?_, hends⟩
    have hmem := no_empty_accounts_left (.inl rfl) tidy_idleState hrun addr acc hfind hempty
    exact absurd hmem List.not_mem_nil

end Zvmone
