import Zvmone.State.Conservation
import Zvmone.State.KeptByCalls

/-! # Deployed code

The nonces of accounts never go down, and contracts are only created at accounts with the nonce 0,
which then get the nonce 1 before their init code runs. So code is never overwritten, and every
creation at the address of a contract whose init code is still running collides. The main result is
`deployed_code_is_immutable`. -/

namespace Zvmone

open Host StateRun Interaction

/-! ### How the code of an account changes -/

/-- A contract was deployed at an account. -/
structure Account.Deployed (acc acc' : Account) : Prop where
  nonce : acc.nonce = 0
  code : acc.code = []
  nonce_ne : acc'.nonce ≠ 0
  size : acc'.code.length ≤ maxCodeSize
  head : acc'.code.head? ≠ some 0xEF

/-- How an account changes besides its balance and storage, when contracts may be created at it only
if `C` holds. -/
structure Account.CodeKept (C : Prop) (acc acc' : Account) : Prop where
  nonce : acc.nonce ≤ acc'.nonce
  destructed : acc'.destructed = acc.destructed
  code : acc'.code = acc.code ∨ C ∧ acc.Deployed acc'

namespace Account.CodeKept

variable {C : Prop} {acc acc₁ acc₂ acc₃ : Account}

/-- The code of an account is kept if neither nonce, code nor mark changes. -/
theorem of_eq (hnonce : acc₂.nonce = acc₁.nonce) (hcode : acc₂.code = acc₁.code)
    (hdestructed : acc₂.destructed = acc₁.destructed) : acc₁.CodeKept C acc₂ :=
  ⟨by rw [hnonce]; exact BitVec.le_refl acc₁.nonce, hdestructed, .inl hcode⟩

/-- An account keeps its own code. -/
theorem refl (acc : Account) : acc.CodeKept C acc := of_eq rfl rfl rfl

/-- Once a contract is deployed, its nonce excludes another deployment. -/
theorem trans (h : acc₁.CodeKept C acc₂) (h' : acc₂.CodeKept C acc₃) : acc₁.CodeKept C acc₃ := by
  refine ⟨BitVec.le_trans h.nonce h'.nonce, h'.destructed.trans h.destructed, ?_⟩
  rcases h.code with hcode | ⟨hC, hdeployed⟩
  · rcases h'.code with hcode' | ⟨hC, hdeployed⟩
    · exact .inl (hcode'.trans hcode)
    · have hnonce : acc₁.nonce = 0 := by
        have hle := h.nonce
        rw [hdeployed.nonce] at hle
        exact BitVec.le_zero_iff.1 hle
      exact .inr ⟨hC, hnonce, hcode ▸ hdeployed.code, hdeployed.nonce_ne, hdeployed.size,
        hdeployed.head⟩
  · rcases h'.code with hcode' | ⟨-, hdeployed'⟩
    · have hnonce : acc₃.nonce ≠ 0 := by
        intro hzero
        have hle := h'.nonce
        rw [hzero] at hle
        exact hdeployed.nonce_ne (BitVec.le_zero_iff.1 hle)
      refine .inr ⟨hC, hdeployed.nonce, hdeployed.code, hnonce, ?_, ?_⟩
      · rw [hcode']; exact hdeployed.size
      · rw [hcode']; exact hdeployed.head
    · exact absurd hdeployed'.nonce hdeployed.nonce_ne

end Account.CodeKept

/-- How the accounts change, when contracts are created at the addresses in `C` only. -/
structure HostState.CodeKept (C : Address → Prop) (hs hs' : HostState) : Prop where
  accounts : ∀ addr, (accountOr hs addr {}).CodeKept (C addr) (accountOr hs' addr {})

namespace HostState.CodeKept

variable {C : Address → Prop} {hs hs' : HostState} {addr : Address} {acc acc₀ : Account}

instance : IsPreorder HostState (HostState.CodeKept C) where
  refl _ := ⟨fun _ => .refl _⟩
  trans _ _ _ h h' := ⟨fun addr => (h.accounts addr).trans (h'.accounts addr)⟩

/-- A step that keeps the accounts keeps all codes. -/
theorem of_state_eq (h : hs'.state = hs.state) : hs.CodeKept C hs' :=
  ⟨fun addr => by
    rw [accountOr, accountOr, h]
    exact .refl _⟩

/-- Writing an account keeps all codes if it keeps its own. -/
theorem setAcc (h : (accountOr hs addr {}).CodeKept (C addr) acc) :
    hs.CodeKept C (Host.setAcc hs addr acc) := by
  refine ⟨fun a => ?_⟩
  rw [accountOr_setAcc]
  split
  next ha => rw [ha]; exact h
  next => exact .refl _

/-- Changing an account that is there keeps all codes if it keeps its own. -/
theorem setAcc_of_find (hfind : hs.state.find addr = some acc₀) (h : acc₀.CodeKept (C addr) acc) :
    hs.CodeKept C (Host.setAcc hs addr acc) :=
  setAcc (by rw [accountOr_of_find hfind]; exact h)

/-- States with the same content have the same codes. -/
theorem of_sameContent (h : hs.SameContent hs') : hs.CodeKept C hs' :=
  ⟨fun addr => .of_eq (h.accounts addr).nonce (h.accounts addr).code (h.accounts addr).destructed⟩

/-- Bumping a nonce keeps the code: the nonce does not become 0. -/
theorem bump {acc : Account} (hmax : acc.nonce ≠ Account.nonceMax) :
    acc.CodeKept (C addr) { acc with nonce := acc.nonce + 1 } := by
  refine ⟨?_, rfl, .inl rfl⟩
  have hlt := acc.nonce.isLt
  have hne : acc.nonce.toNat ≠ 2 ^ 64 - 1 := fun h => hmax (BitVec.eq_of_toNat_eq (by
    rw [h, Account.nonceMax, BitVec.toNat_allOnes]))
  rw [BitVec.le_def, BitVec.toNat_add, Nat.mod_eq_of_lt]
  · exact Nat.le_add_right ..
  · have hone : (1 : BitVec 64).toNat = 1 := rfl
    omega

/-- A transfer keeps all codes. -/
theorem transfer {sender recipient : Address} {value : Word} {u : Unit}
    (h : Host.transfer sender recipient value hs = .ok (u, hs')) : hs.CodeKept C hs' := by
  obtain ⟨senderAcc, recipientAcc, hsender, -, hrecipient, rfl⟩ := transfer_ok h
  have hpaid : hs.CodeKept C (Host.setAcc hs sender { senderAcc with
      balance := senderAcc.balance - value }) := setAcc_of_find hsender (.of_eq rfl rfl rfl)
  exact IsTrans.trans _ _ _ hpaid (setAcc_of_find hrecipient (.of_eq rfl rfl rfl))

/-- The host creates contracts only at fresh accounts. -/
theorem keptByHost (C : Address → Prop) : KeptByHost (HostState.CodeKept C) C where
  step h := by
    cases h with
    | log => exact of_state_eq rfl
    | cache => exact of_state_eq rfl
    | warm addr => exact of_sameContent (.warmed _ addr)
    | touch addr => exact of_sameContent (.touched _ addr)
    | bump hfind hmax => exact setAcc_of_find hfind (bump hmax)
    | store hfind => exact setAcc_of_find hfind (.of_eq rfl rfl rfl)
    | warmSlot hfind => exact setAcc_of_find hfind (.of_eq rfl rfl rfl)
    | transfer h => exact transfer h
  enter hC hfresh := by
    refine setAcc ⟨?_, rfl, .inl rfl⟩
    rw [hfresh.nonce]
    exact Nat.zero_le _
  deploy {hs hs₁ addr acc code} hC hfresh hafter hfind hsize hhead := by
    refine ⟨fun a => ?_⟩
    have ha := hafter.accounts a
    rw [accountOr_setAcc] at ha ⊢
    split
    next haddr =>
      rw [if_pos haddr, haddr, accountOr_of_find hfind] at ha
      -- The creation has set the nonce to one, and no step lowers it.
      have hnonce : acc.nonce ≠ 0 := by
        intro hzero
        have hle : (1 : BitVec 64) ≤ acc.nonce := ha.nonce
        rw [hzero] at hle
        exact absurd hle (by decide)
      rw [haddr]
      refine ⟨?_, ha.destructed, .inr ⟨hC, hfresh.nonce, hfresh.code, hnonce, hsize, hhead⟩⟩
      rw [hfresh.nonce]
      exact Nat.zero_le _
    next haddr =>
      rw [if_neg haddr] at ha
      exact ha
  revert {hs hs'} _ := by
    rcases revert_state hs hs' with h | h
    · exact of_state_eq h
    · exact IsTrans.trans _ _ _ (of_sameContent (.touched hs addr03)) (of_state_eq h)

/-- No account becomes destructed where all codes are kept. -/
theorem noneDestructed (h : hs.CodeKept C hs') (hnone : hs.state.NoneDestructed) :
    hs'.state.NoneDestructed := by
  intro addr acc hfind
  have hdestructed := (h.accounts addr).destructed
  rw [accountOr_of_find hfind] at hdestructed
  exact hdestructed.trans (hnone.accountOr addr rfl)

end HostState.CodeKept

/-! ### Creations at the address of a contract -/

/-- The code, the balance and the storage are the same. -/
structure Account.SameContract (acc acc' : Account) : Prop where
  code : acc'.code = acc.code
  balance : acc'.balance = acc.balance
  storage : acc'.storage = acc.storage

/-- Having the same contract is transitive. -/
theorem Account.SameContract.trans {acc₁ acc₂ acc₃ : Account} (h : acc₁.SameContract acc₂)
    (h' : acc₂.SameContract acc₃) : acc₁.SameContract acc₃ :=
  ⟨h'.code.trans h.code, h'.balance.trans h.balance, h'.storage.trans h.storage⟩

namespace Host

section

variable {hs hs' : HostState} {addr a : Address} {acc acc₀ : Account}

/-- Writing an account with the same contract keeps all contracts. -/
theorem sameContract_setAcc (h : (accountOr hs addr {}).SameContract acc) :
    (accountOr hs a {}).SameContract (accountOr (setAcc hs addr acc) a {}) := by
  rw [accountOr_setAcc]
  split
  next ha => rw [ha]; exact h
  next => exact ⟨rfl, rfl, rfl⟩

/-- A revert keeps all contracts of the snapshot. -/
theorem sameContract_revert (snapshot hs : HostState) :
    (accountOr snapshot a {}).SameContract (accountOr (revert snapshot hs) a {}) := by
  rcases revert_state snapshot hs with h | h
  · rw [accountOr, accountOr, h]
    exact ⟨rfl, rfl, rfl⟩
  · have htouched : (accountOr snapshot a {}).SameContract
        (accountOr (setAcc snapshot addr03 (touched snapshot addr03)) a {}) :=
      sameContract_setAcc ⟨rfl, rfl, rfl⟩
    have hfind : accountOr (revert snapshot hs) a {}
        = accountOr (setAcc snapshot addr03 (touched snapshot addr03)) a {} := by
      rw [accountOr, h]
      rfl
    rw [hfind]
    exact htouched

end

variable [Ethash] {ctx : HostContext} {vm : VM} {msg : Message} {hs hs' : HostState}
  {addr a : Address} {fuel : Nat} {r : CallResult}

/-- At most a nonce and an access status change before a message is executed. -/
theorem Prepared.sameContract {prepared : Option Message} (h : Prepared msg hs prepared hs') :
    (accountOr hs a {}).SameContract (accountOr hs' a {}) := by
  have hbumped : ∀ senderAcc, hs.state.find msg.sender = some senderAcc →
      (accountOr hs a {}).SameContract (accountOr (bumped hs msg senderAcc) a {}) := by
    intro senderAcc hfind
    unfold bumped
    split
    · refine sameContract_setAcc ?_
      rw [accountOr_of_find hfind]
      exact ⟨rfl, rfl, rfl⟩
    · exact ⟨rfl, rfl, rfl⟩
  cases h with
  | refused => exact ⟨rfl, rfl, rfl⟩
  | call hfind => exact hbumped _ hfind
  | @create senderAcc recipient hfind =>
    refine (hbumped senderAcc hfind).trans (sameContract_setAcc ?_)
    unfold accountOr
    cases (bumped hs msg senderAcc).state.find recipient <;> exact ⟨rfl, rfl, rfl⟩

/-- The message creates a contract, and its address is `addr`. -/
structure Targets (msg : Message) (hs : HostState) (addr : Address) : Prop where
  kind : msg.kind.IsCreate
  address : ∃ senderAcc, hs.state.find msg.sender = some senderAcc ∧
    computeNewAccountAddress msg.sender senderAcc.nonce
      (if msg.kind = .create2 then some msg.create2Salt else none) msg.inputData = .ok addr

/-- The message that is executed creates its contract at the address that was computed. -/
theorem Targets.prepared (h : Targets msg hs addr) {msg' : Message}
    (hprepared : prepareMessage msg hs = .ok (some msg', hs')) :
    msg'.kind.IsCreate ∧ msg'.recipient = addr := by
  obtain ⟨acc, hacc, haddr⟩ := h.address
  cases prepareMessage_ok hprepared with
  | call _ _ hkind => exact absurd h.kind hkind
  | create hfind _ hkind _ _ hrecipient =>
    rw [hacc] at hfind
    cases hfind
    rw [haddr] at hrecipient
    cases hrecipient
    exact ⟨hkind, rfl⟩

/-- A message that targets an account with a nonce fails. -/
theorem collision (h : Targets msg hs addr) (hnonce : (accountOr hs addr {}).nonce ≠ 0)
    (hrun : call ctx vm fuel msg hs = .ok (r, hs')) :
    r.statusCode = .failure ∧ (accountOr hs addr {}).SameContract (accountOr hs' addr {}) := by
  have hcollision : ∀ {exec : Exec} {msg' hs₁ r hs₂},
      prepareMessage msg hs = .ok (some msg', hs₁) → Executed exec msg' hs₁ r hs₂ →
      r.statusCode = .failure ∧ hs₂ = hs₁ := by
    intro exec msg' hs₁ r hs₂ hprepared hexecuted
    obtain ⟨hkind, rfl⟩ := h.prepared hprepared
    cases hexecuted with
    | collision => exact ⟨rfl, rfl⟩
    | create _ hzero =>
      -- The nonce did not go down before the message was executed.
      have hle := (((HostState.CodeKept.keptByHost fun _ => True).prepared hprepared).accounts
        msg'.recipient).nonce
      rw [hzero] at hle
      exact absurd (BitVec.le_zero_iff.1 hle) hnonce
    | precompile hkind' => exact absurd hkind hkind'
    | call hkind' => exact absurd hkind hkind'
  obtain ⟨n, rfl, hcalled⟩ := call_ok hrun
  cases hcalled with
  | refused hprepared => exact ⟨rfl, (prepareMessage_ok hprepared).sameContract⟩
  | success hprepared hexecuted hstatus =>
    have hfailed := (hcollision hprepared hexecuted).1
    rw [hstatus] at hfailed
    cases hfailed
  | failed hprepared hexecuted =>
    exact ⟨(hcollision hprepared hexecuted).1,
      (prepareMessage_ok hprepared).sameContract.trans (sameContract_revert ..)⟩

/-- While the init code of a contract runs, every message that targets its address fails. -/
theorem Creates.collides {n k : Nat} {msg' m m' : Message} {hs₁ hs₂ hs₃ hs₄ hs₅ : HostState}
    (hcreates : Creates msg hs addr msg' hs₁ hs₂)
    (hsend : Reaches (answer ctx (call ctx vm n)) (vm n { msg' with inputData := [] } msg'.inputData)
      hs₂ (.call m) hs₃)
    (hcalls : Calls ctx vm n m hs₃ k m' hs₄) (htargets : Targets m' hs₄ addr)
    (hrun : call ctx vm k m' hs₄ = .ok (r, hs₅)) :
    r.statusCode = .failure ∧ (accountOr hs₄ addr {}).SameContract (accountOr hs₅ addr {}) := by
  have hkept := HostState.CodeKept.keptByHost fun _ => True
  have hnonce : (accountOr hs₂ addr {}).nonce ≠ 0 := by
    rcases enterCreate_ok hcreates.entered with ⟨hfalse, -⟩ | ⟨-, -, -, htransfer⟩
    · cases hfalse
    · intro hzero
      have hle := ((HostState.CodeKept.transfer (C := fun _ => True) htransfer).accounts addr).nonce
      rw [hzero, ← hcreates.recipient, accountOr_setAcc, if_pos rfl] at hle
      have hone : (1 : BitVec 64) ≤ 0 := hle
      exact absurd hone (by decide)
  refine collision htargets (fun hzero => hnonce ?_) hrun
  have hle : (accountOr hs₂ addr {}).nonce ≤ (accountOr hs₄ addr {}).nonce :=
    BitVec.le_trans ((hkept.reaches hsend).accounts addr).nonce
      ((hkept.calls hcalls).accounts addr).nonce
  rw [hzero] at hle
  exact BitVec.le_zero_iff.1 hle

end Host

/-! ### Transactions -/

section

variable {s : State} {hs hs' : HostState} {block : BlockInfo} {tx : Transaction}

/-- Erasing by a condition that no account meets keeps all accounts. -/
theorem State.find_eraseIf {p : Account → Bool} (hp : ∀ addr acc, s.find addr = some acc → p acc = false)
    (addr : Address) : (s.eraseIf p).find addr = s.find addr := by
  show (s.accounts.filter _).lookup addr = _
  rw [AList.lookup_filter]
  show (s.find addr).filter _ = _
  cases hfind : s.find addr with
  | none => rfl
  | some acc => simp [Option.filter, hp addr acc hfind]

/-- What happens before the call of a transaction changes balances and access statuses only. -/
theorem codeKept_of_bought {C : Address → Prop} {hs₀ hs₁ : HostState} {u : Unit}
    (hbuy : buyGas block tx hs = .ok (u, hs₀))
    (hwarm : warmUp block tx { hs₀ with logs := [] } = .ok (u, hs₁)) : hs.CodeKept C hs₁ := by
  obtain ⟨-, -, senderAcc, hfind, rfl⟩ := buyGas_ok hbuy
  have hbought : hs.CodeKept C (setAcc hs tx.sender { senderAcc with
      balance := senderAcc.balance - tx.maxCost block }) :=
    HostState.CodeKept.setAcc_of_find hfind (.of_eq rfl rfl rfl)
  have hlogs : hs.CodeKept C { setAcc hs tx.sender { senderAcc with
      balance := senderAcc.balance - tx.maxCost block } with logs := [] } :=
    ⟨hbought.accounts⟩
  exact IsTrans.trans _ _ _ hlogs
    (HostState.CodeKept.of_sameContent (warmUp_sameContent block tx _ _ _ hwarm))

/-- The end of a transition changes balances only, if no account is marked as destructed. -/
theorem codeKept_of_settled {C : Address → Prop} {gasUsed : Int} {u : Unit}
    (hnone : hs.state.NoneDestructed) (h : settle block tx gasUsed hs = .ok (u, hs')) :
    hs.CodeKept C hs' := by
  obtain ⟨-, senderAcc, hfind, rfl⟩ := settle_ok h
  have hpaid : hs.CodeKept C (paidBack block tx gasUsed hs senderAcc) :=
    HostState.CodeKept.setAcc_of_find hfind (.of_eq rfl rfl rfl)
  have hrewarded : (paidBack block tx gasUsed hs senderAcc).CodeKept C
      (rewarded block tx gasUsed (paidBack block tx gasUsed hs senderAcc)) :=
    HostState.CodeKept.setAcc (.of_eq rfl rfl rfl)
  have hkept : hs.CodeKept C (rewarded block tx gasUsed (paidBack block tx gasUsed hs senderAcc)) :=
    IsTrans.trans _ _ _ hpaid hrewarded
  refine IsTrans.trans _ _ _ hkept ⟨fun addr => ?_⟩
  have herase := State.find_eraseIf (p := (·.destructed)) (hkept.noneDestructed hnone) addr
  rw [accountOr, accountOr]
  show Account.CodeKept _ _ (((State.eraseIf _ _).find addr).getD {})
  rw [herase]
  exact .refl _

variable [Ethash] {vm : VM} {fuel : Nat} {receipt : TransactionReceipt}

/-- In the tree of the call `msg` in the state `hs` a contract is created at `addr`, whose account
has the nonce 0 at that moment. -/
def IsCreated (ctx : HostContext) (vm : VM) (fuel : Nat) (msg : Message) (hs : HostState)
    (addr : Address) : Prop :=
  ∃ n m hs₁ msg' hs₂ hs₃, Calls ctx vm fuel msg hs n m hs₁ ∧ Creates m hs₁ addr msg' hs₂ hs₃ ∧
    (accountOr hs₂ addr {}).nonce = 0

/-- What a transition does to the code of accounts: `hs₁` is the host state when its call starts. -/
structure DeploysCode (vm : VM) (fuel : Nat) (block : BlockInfo) (tx : Transaction)
    (executionGasLimit : Int) (hs hs₁ hs' : HostState) : Prop where
  /-- Code is immutable. -/
  immutable : ∀ addr acc, hs.state.find addr = some acc → acc.code ≠ [] →
    ∃ acc', hs'.state.find addr = some acc' ∧ acc'.code = acc.code
  /-- New code is well formed. -/
  wellFormed : ∀ addr acc', (accountOr hs addr {}).code = [] → hs'.state.find addr = some acc' →
    acc'.code ≠ [] →
    IsCreated ⟨block, tx⟩ vm fuel (buildMessage tx executionGasLimit) hs₁ addr ∧
      1 ≤ acc'.nonce ∧ acc'.code.length ≤ 0x6000 ∧ acc'.code.head? ≠ some 0xEF
  /-- While the init code of a contract runs, every message that targets its address fails. -/
  collides : ∀ n k m msg' m₁ m₂ addr hs₂ hs₃ hs₄ hs₅ hs₆ hs₇ r,
    Calls ⟨block, tx⟩ vm fuel (buildMessage tx executionGasLimit) hs₁ (n + 1) m hs₂ →
    Creates m hs₂ addr msg' hs₃ hs₄ →
    Reaches (answer ⟨block, tx⟩ (call ⟨block, tx⟩ vm n))
      (vm n { msg' with inputData := [] } msg'.inputData) hs₄ (.call m₁) hs₅ →
    Calls ⟨block, tx⟩ vm n m₁ hs₅ k m₂ hs₆ → Targets m₂ hs₆ addr →
    call ⟨block, tx⟩ vm k m₂ hs₆ = .ok (r, hs₇) →
    r.statusCode = .failure ∧ (accountOr hs₆ addr {}).SameContract (accountOr hs₇ addr {})

/-- Deployed code is immutable and well formed. -/
theorem deployed_code_is_immutable (hnone : hs.state.NoneDestructed)
    (h : transition vm fuel block tx hs = .ok (.ok receipt, hs')) :
    ∃ senderAcc executionGasLimit hs₁ result hs₂,
      validateTransaction senderAcc block tx = .ok executionGasLimit ∧
      Executes vm fuel block tx executionGasLimit hs receipt hs' hs₁ result hs₂ ∧
      DeploysCode vm fuel block tx executionGasLimit hs hs₁ hs' := by
  obtain ⟨senderAcc, executionGasLimit, -, hvalid, hs₁, result, hs₂, hexecutes⟩ := transition_ok h
  refine ⟨senderAcc, executionGasLimit, hs₁, result, hs₂, hvalid, hexecutes, ?_⟩
  obtain ⟨hs₀, hbuy, hwarm⟩ := hexecutes.bought
  -- The addresses at which the call may create, all of them without a nonce at that time.
  let C : Address → Prop :=
    IsCreated ⟨block, tx⟩ vm fuel (buildMessage tx executionGasLimit) hs₁
  have hcreates : CreatesOnly ⟨block, tx⟩ vm fuel (buildMessage tx executionGasLimit) hs₁ C := by
    intro n m hs' addr msg' hs₃ hs₄ hcalls hcreates
    refine ⟨n, m, hs', msg', hs₃, hs₄, hcalls, hcreates, ?_⟩
    rcases enterCreate_ok hcreates.entered with ⟨hfalse, -⟩ | ⟨-, hnonce, -⟩
    · cases hfalse
    · rwa [hcreates.recipient] at hnonce
  have hbefore : hs.CodeKept C hs₂ := IsTrans.trans _ _ _ (codeKept_of_bought hbuy hwarm)
    ((HostState.CodeKept.keptByHost C).call hcreates hexecutes.called)
  have hkept : hs.CodeKept C hs' := IsTrans.trans _ _ _ hbefore
    (codeKept_of_settled (hbefore.noneDestructed hnone) hexecutes.settled)
  constructor
  case immutable =>
    intro addr acc hfind hcode
    have hacc := hkept.accounts addr
    rw [accountOr_of_find hfind] at hacc
    -- Code is deployed only where there was none.
    rcases hacc.code with hsame | ⟨-, hdeployed⟩
    · cases hfind' : hs'.state.find addr with
      | none =>
        rw [accountOr, hfind'] at hsame
        exact absurd hsame.symm hcode
      | some acc' =>
        rw [accountOr_of_find hfind'] at hsame
        exact ⟨acc', rfl, hsame⟩
    · exact absurd hdeployed.code hcode
  case wellFormed =>
    intro addr acc' hcode hfind hne
    have hacc := hkept.accounts addr
    rw [accountOr_of_find hfind] at hacc
    rcases hacc.code with hsame | ⟨hC, hdeployed⟩
    · exact absurd (hsame.trans hcode) hne
    · refine ⟨hC, ?_, hdeployed.size, hdeployed.head⟩
      have hnonce := hdeployed.nonce_ne
      bv_omega
  case collides =>
    intro n k m msg' m₁ m₂ addr hs₂ hs₃ hs₄ hs₅ hs₆ hs₇ r _ hcreates hsend hcalls htargets hrun
    exact hcreates.collides hsend hcalls htargets hrun

end

/-- A transaction whose init code is `PUSH1 1 PUSH0 RETURN`. -/
def creatingTransaction : Transaction :=
  { gasLimit := 60000, maxGasPrice := 1, maxPriorityGasPrice := 1, sender := 0x20, to_ := none,
    value := 0, data := [0x60, 0x01, 0x5f, 0xf3] }

/-- A contract, and an account that can pay for the transaction. -/
def creatingState : HostState :=
  { state := ((⟨∅⟩ : State).set 0x10 { nonce := 1, code := [0xfe] }).set 0x20 { balance := 100000 } }

/-- The address of the first contract that the account `0x20` creates. -/
def createdAddress : Address := 0x46eba08f4182ee6a5660880b6bad94769f427355

/-- The transaction deploys the code `STOP`. -/
theorem deployed_code_is_immutable_creating : ∃ (_ : Ethash) (executionGasLimit : Int)
    (receipt : TransactionReceipt) (hs₁ hs' : HostState),
    transition Baseline.execute 6 plainBlock creatingTransaction creatingState
      = .ok (.ok receipt, hs') ∧
    DeploysCode Baseline.execute 6 plainBlock creatingTransaction executionGasLimit creatingState
      hs₁ hs' ∧
    (hs'.state.find createdAddress).map (·.code) = some [0x00] := by
  -- The hash of the RLP list of the address of the sender and its nonce.
  let ethash : Ethash :=
    ⟨fun _ => 0x86b578d660e33d54ca0631e446eba08f4182ee6a5660880b6bad94769f427355⟩
  have hcode : ((transition Baseline.execute 6 plainBlock creatingTransaction
      creatingState).toOption.bind fun x => x.1.toOption.bind fun _ =>
        (x.2.state.find createdAddress).map (·.code)) = some [0x00] := by decide +kernel
  rcases hrun : transition Baseline.execute 6 plainBlock creatingTransaction creatingState with
    _ | ⟨_ | receipt, hs'⟩ <;> rw [hrun] at hcode
  · cases hcode
  · cases hcode
  have hempty : (⟨∅⟩ : State).NoneDestructed := fun _ _ h => by cases h
  have hnone : creatingState.state.NoneDestructed :=
    State.NoneDestructed.set (hempty.set _ _ (by rfl)) _ _ (by rfl)
  obtain ⟨_, executionGasLimit, hs₁, _, _, -, -, h⟩ := deployed_code_is_immutable hnone hrun
  exact ⟨ethash, executionGasLimit, receipt, hs₁, hs', hrun, h, hcode⟩

end Zvmone
