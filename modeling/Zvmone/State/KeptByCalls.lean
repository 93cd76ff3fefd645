import Zvmone.State.CallTree

/-! # Relations that calls keep

Besides creating contracts and reverting, the host changes its state in few ways (`HostStep`). A
relation between host states that is kept by all of them is kept by every call, whatever virtual
machine runs the code (`KeptByHost.call`), and up to every call in the tree of nested calls
(`KeptByHost.calls`). The relation may depend on the addresses at which contracts are created. -/

namespace Zvmone

open Interaction StateRun

namespace Host

/-! ### The steps of the host -/

/-- The ways in which host methods change the host state. -/
inductive HostStep (hs : HostState) : HostState → Prop
  | log (log : Log) : HostStep hs { hs with logs := hs.logs ++ [log] }
  | cache (cache : Precompiles.Cache) : HostStep hs { hs with cache }
  | warm (addr : Address) : HostStep hs (warmed hs addr)
  | touch (addr : Address) : HostStep hs (setAcc hs addr (touched hs addr))
  | bump {addr : Address} {acc : Account} (hfind : hs.state.find addr = some acc)
      (hmax : acc.nonce ≠ Account.nonceMax) :
      HostStep hs (setAcc hs addr { acc with nonce := acc.nonce + 1 })
  | store {addr : Address} {acc : Account} (hfind : hs.state.find addr = some acc)
      (key value : Bytes32) :
      HostStep hs (setAcc hs addr { acc with
        storage := acc.storage.insert key { acc.storage.slot key with current := value } })
  | warmSlot {addr : Address} {acc : Account} (hfind : hs.state.find addr = some acc)
      (key : Bytes32) :
      HostStep hs (setAcc hs addr { acc with
        storage := acc.storage.insert key { acc.storage.slot key with accessStatus := .warm } })
  | transfer {sender recipient : Address} {value : Word} {hs' : HostState}
      (h : transfer sender recipient value hs = .ok ((), hs')) : HostStep hs hs'

/-- There is no contract at the address yet. -/
structure Fresh (hs : HostState) (addr : Address) : Prop where
  nonce : (accountOr hs addr {}).nonce = 0
  code : (accountOr hs addr {}).code = []

/-- A relation that the host keeps when it creates contracts only at the addresses in `C`: every
step, the set-up and the deployment of a contract, and reverts. -/
structure KeptByHost (R : HostState → HostState → Prop) (C : Address → Prop := fun _ => True) :
    Prop where
  step : ∀ {hs hs'}, HostStep hs hs' → R hs hs'
  enter : ∀ {hs addr}, C addr → Fresh hs addr → R hs (setAcc hs addr (newAccount hs addr))
  deploy : ∀ {hs hs₁ addr acc code}, C addr → Fresh hs addr →
    R (setAcc hs addr (newAccount hs addr)) hs₁ → hs₁.state.find addr = some acc →
    code.length ≤ maxCodeSize → code.head? ≠ some 0xEF →
    R hs (setAcc hs₁ addr { acc with code })
  revert : ∀ {hs hs'}, R hs hs' → R hs (revert hs hs')

/-! ### The tree of calls -/

section

variable [Ethash]

/-- `Calls ctx vm fuel msg hs n m hs'`: the call of `msg` in the state `hs`, whose nested messages
have less `fuel`, makes the call of `m` in the state `hs'`, whose nested messages have less than
`n`. A call counts as made by itself. -/
inductive Calls (ctx : HostContext) (vm : VM) :
    Nat → Message → HostState → Nat → Message → HostState → Prop
  | self {fuel : Nat} {msg : Message} {hs : HostState} : Calls ctx vm fuel msg hs fuel msg hs
  | nested {n n' : Nat} {msg m m' m'' : Message} {code : Bytes} {hs hs₁ hs₂ hs₃ : HostState}
      (henters : Enters msg hs m code hs₁)
      (hsend : Reaches (answer ctx (call ctx vm n)) (vm n m code) hs₁ (.call m') hs₂)
      (hcalls : Calls ctx vm n m' hs₂ n' m'' hs₃) : Calls ctx vm (n + 1) msg hs n' m'' hs₃

/-- A call that ends ran the code it entered to its end. -/
theorem Enters.ended {exec : Exec} {msg m : Message} {code : Bytes} {hs hs₁ hs' : HostState}
    {r : CallResult} (h : Enters msg hs m code hs₁) (hrun : callWith exec msg hs = .ok (r, hs')) :
    ∃ r' hs₂, exec m code hs₁ = .ok (r', hs₂) := by
  -- The run of `callWith` makes the same choices as `Enters`, so its execution is the one asked for.
  have hexecuted : ∀ {msg' hs₀ r₀ hs₀'}, prepareMessage msg hs = .ok (some msg', hs₀) →
      Executed exec msg' hs₀ r₀ hs₀' → ∃ r' hs₂, exec m code hs₁ = .ok (r', hs₂) := by
    intro msg' hs₀ r₀ hs₀' hprepared' hexecuted
    cases h with
    | create hprepared hkind henter =>
      cases hprepared.symm.trans hprepared'
      cases hexecuted with
      | collision _ henter' => cases henter.symm.trans henter'
      | create _ hnonce hcode htransfer hexec _ =>
        obtain ⟨-, -, -, htransfer'⟩ := (enterCreate_ok henter).resolve_left fun h => by cases h.1
        cases htransfer.symm.trans htransfer'
        exact ⟨_, _, hexec⟩
      | precompile hkind' | call hkind' => exact absurd hkind hkind'
    | call hprepared hkind henter hpre =>
      cases hprepared.symm.trans hprepared'
      obtain ⟨hnone, rfl⟩ := callPrecompile_ok hpre
      cases hexecuted with
      | collision hkind' | create hkind' => exact absurd hkind' hkind
      | precompile _ henter' hresult =>
        cases henter.symm.trans henter'
        cases hnone.symm.trans hresult
      | call _ henter' _ hexec =>
        cases henter.symm.trans henter'
        exact ⟨_, _, hexec⟩
  -- A refused message enters no code; the other two differ in what is kept afterwards only.
  cases callWith_ok hrun with
  | refused hprepared =>
    cases h with
    | create hprepared' | call hprepared' => cases hprepared.symm.trans hprepared'
  | success hprepared hran | failed hprepared hran => exact hexecuted hprepared hran

/-- Every call that is made by a call that ends has ended. -/
theorem Calls.ended {ctx : HostContext} {vm : VM} {fuel n : Nat} {msg m : Message}
    {hs hs' hs₁ : HostState} {r : CallResult} (h : Calls ctx vm fuel msg hs n m hs')
    (hrun : call ctx vm fuel msg hs = .ok (r, hs₁)) :
    ∃ r' hs₂, call ctx vm n m hs' = .ok (r', hs₂) := by
  induction h generalizing r hs₁ with
  | self => exact ⟨r, hs₁, hrun⟩
  | nested henters hsend _ ih =>
    obtain ⟨r₁, hs₂, hexec⟩ := henters.ended hrun
    obtain ⟨r₂, hs₃, hcall⟩ := hsend.answered hexec
    exact ih hcall

/-- The call of `msg` in the state `hs` starts to create a contract at `addr`: the state behind
`prepare_message` is `hs₁`, and the init code runs from the state `hs₂` on. -/
structure Creates (msg : Message) (hs : HostState) (addr : Address) (msg' : Message)
    (hs₁ hs₂ : HostState) : Prop where
  prepared : prepareMessage msg hs = .ok (some msg', hs₁)
  kind : msg'.kind.IsCreate
  recipient : msg'.recipient = addr
  entered : enterCreate msg' hs₁ = .ok (true, hs₂)

/-- In the tree of a call contracts are created at the addresses in `C` only. -/
def CreatesOnly (ctx : HostContext) (vm : VM) (fuel : Nat) (msg : Message) (hs : HostState)
    (C : Address → Prop) : Prop :=
  ∀ {n m hs' addr msg' hs₁ hs₂}, Calls ctx vm fuel msg hs n m hs' →
    Creates m hs' addr msg' hs₁ hs₂ → C addr

variable {ctx : HostContext} {vm : VM} {msg : Message} {hs hs' hs₁ hs₂ : HostState} {n : Nat}
  {C : Address → Prop}

/-- What holds of the tree of a call holds of the trees of the calls it makes. -/
theorem CreatesOnly.nested {m m' : Message} {code : Bytes}
    (h : CreatesOnly ctx vm (n + 1) msg hs C) (henters : Enters msg hs m code hs₁)
    (hsend : Reaches (answer ctx (Host.call ctx vm n)) (vm n m code) hs₁ (.call m') hs₂) :
    CreatesOnly ctx vm n m' hs₂ C :=
  fun hcalls hcreates => h (.nested henters hsend hcalls) hcreates

omit [Ethash] in
/-- Without a collision the init code runs once the new account is set up and paid. -/
theorem enterCreate_of_fresh {msg : Message} (hfresh : Fresh hs msg.recipient)
    (htransfer : transfer msg.sender msg.recipient msg.value
      (setAcc hs msg.recipient (newAccount hs msg.recipient)) = .ok ((), hs')) :
    enterCreate msg hs = .ok (true, hs') := by
  unfold enterCreate
  rw [bind_eq_ok]
  refine ⟨_, hs, find_eq_ok.2 ⟨rfl, rfl⟩, ?_⟩
  -- The converse of `enterCreate_ok`: with nonce 0 every assertion of this part holds.
  have hrest : (do
      let newAcc ← getOrInsert msg.recipient
      assert (newAcc.nonce = 0)
      setAccount msg.recipient { newAcc with nonce := 1, storage := clearStorage newAcc.storage }
      transfer msg.sender msg.recipient msg.value
      return true : HostS Bool) hs = .ok (true, hs') := by
    have hnew : (hs.state.getOrInsert msg.recipient {}).1 = accountOr hs msg.recipient {} :=
      getOrInsert_fst {}
    refine bind_eq_ok.2 ⟨(hs.state.getOrInsert msg.recipient {}).1,
      { hs with state := (hs.state.getOrInsert msg.recipient {}).2 }, rfl, ?_⟩
    rw [hnew]
    refine bind_eq_ok.2 ⟨(), _, assert_eq_ok.2 ⟨hfresh.nonce, rfl⟩,
      bind_eq_ok.2 ⟨(), _, setAccount_eq_ok.2 rfl, bind_eq_ok.2 ⟨(), hs', ?_, rfl⟩⟩⟩
    rw [setAcc_getOrInsert]
    exact htransfer
  have hnonce := hfresh.nonce
  have hcode := hfresh.code
  unfold accountOr at hnonce hcode
  cases hfind : hs.state.find msg.recipient with
  | none => exact hrest
  | some acc =>
    rw [hfind] at hnonce hcode
    -- A present account with neither nonce nor code passes the check.
    have hfree : ¬ (acc.nonce ≠ 0 ∨ acc.code ≠ []) := by
      rintro (h | h)
      · exact h hnonce
      · exact h hcode
    exact (congrFun (if_neg hfree) hs).trans hrest

end

variable {R : HostState → HostState → Prop} [IsPreorder HostState R] {C : Address → Prop}

namespace KeptByHost

section

variable [Ethash] {ctx : HostContext} {vm : VM} {msg : Message} {hs hs' : HostState} {fuel : Nat}

/-- Every host method but `call` keeps the relation. -/
theorem answer (h : KeptByHost R C) {call : Message → HostS CallResult} {q : HostCall}
    (hcall : ∀ m, q ≠ .call m) : Keeps R (answer ctx call q) := by
  intro hs r hs' hrun
  -- Reading changes nothing; the other queries are one step each.
  cases q with
  | accountExists addr => rw [accountExists_ok hrun]; exact refl hs
  | getStorage addr key => rw [(getStorage_ok hrun).1]; exact refl hs
  | setStorage addr key value =>
    obtain ⟨acc, hfind, -, rfl⟩ := setStorage_ok hrun
    exact h.step (.store hfind key value)
  | getBalance addr => rw [(getBalance_ok hrun).1]; exact refl hs
  | getCodeSize addr => rw [getCodeSize_ok hrun]; exact refl hs
  | getCodeHash addr => rw [getCodeHash_ok hrun]; exact refl hs
  | copyCode addr codeOffset bufferSize => rw [copyCode_ok hrun]; exact refl hs
  | call m => exact absurd rfl (hcall m)
  | getTxContext => rw [getTxContext_ok hrun]; exact refl hs
  | getBlockHash number =>
    rw [show hs' = hs from @getBlockHash_ok hs hs' number r hrun]
    exact refl hs
  | emitLog addr data topics =>
    rw [emitLog_ok hrun]
    exact h.step (.log _)
  | accessAccount addr =>
    rw [(accessAccount_ok hrun).1]
    exact h.step (.warm addr)
  | accessStorage addr key =>
    obtain ⟨acc, hfind, -, rfl⟩ := accessStorage_ok hrun
    exact h.step (.warmSlot hfind key)

omit [Ethash] in
/-- The nonce update of `prepare_message` keeps the relation. -/
theorem bumped (h : KeptByHost R C) {senderAcc : Account}
    (hfind : hs.state.find msg.sender = some senderAcc)
    (hmax : BumpsNonce msg → senderAcc.nonce ≠ Account.nonceMax) :
    R hs (bumped hs msg senderAcc) := by
  unfold Host.bumped
  split
  next hbump => exact h.step (.bump hfind (hmax hbump))
  next => exact refl hs

/-- `prepare_message` keeps the relation. -/
theorem prepared (h : KeptByHost R C) {prepared : Option Message}
    (hprepared : prepareMessage msg hs = .ok (prepared, hs')) : R hs hs' := by
  cases prepareMessage_ok hprepared with
  | refused => exact refl hs
  | call hfind hmax => exact h.bumped hfind hmax
  | create hfind hmax =>
    exact IsTrans.trans _ _ _ (h.bumped hfind hmax) (h.step (.warm _))

omit [Ethash] in
/-- The beginning of a call keeps the relation. -/
theorem enterCall (h : KeptByHost R C) {u : Unit} (henter : enterCall msg hs = .ok (u, hs')) :
    R hs hs' := by
  rcases enterCall_ok henter with ⟨-, rfl⟩ | ⟨-, -, htransfer⟩
  · exact refl hs'
  · exact IsTrans.trans _ _ _ (h.step (.touch msg.recipient)) (h.step (.transfer htransfer))

omit [Ethash] in
/-- The beginning of a creation keeps the relation if it may create the account. -/
theorem enterCreate (h : KeptByHost R C) (hC : C msg.recipient) {u : Bool}
    (henter : enterCreate msg hs = .ok (u, hs')) : R hs hs' := by
  rcases enterCreate_ok henter with ⟨-, rfl⟩ | ⟨-, hnonce, hcode, htransfer⟩
  · exact refl hs'
  · exact IsTrans.trans _ _ _ (h.enter hC ⟨hnonce, hcode⟩) (h.step (.transfer htransfer))

/-- Running code keeps the relation, if the calls it makes do. -/
theorem run (h : KeptByHost R C) {call : Message → HostS CallResult} {α : Type} {p : HostM α}
    (hcall : ∀ m hs₁ r hs₂, Reaches (Host.answer ctx call) p hs (.call m) hs₁ →
      call m hs₁ = .ok (r, hs₂) → R hs₁ hs₂)
    {a : α} (hrun : Interaction.run (Host.answer ctx call) p hs = .ok (a, hs')) : R hs hs' := by
  refine rel_of_reaches (fun q hs₁ r hs₂ hreaches hq => ?_) hrun
  by_cases hm : ∃ m, q = .call m
  · obtain ⟨m, rfl⟩ := hm
    exact hcall m hs₁ r hs₂ hreaches hq
  · exact h.answer (fun m hq => hm ⟨m, hq⟩) hs₁ r hs₂ hq

/-- Executing a message keeps the relation, if the calls that its code makes do. -/
theorem executed (h : KeptByHost R C) {n : Nat} {msg' : Message} {hs₁ : HostState} {r : CallResult}
    (hcall : ∀ m hs r hs', CreatesOnly ctx vm n m hs C → Host.call ctx vm n m hs = .ok (r, hs') →
      R hs hs')
    (hcreates : CreatesOnly ctx vm (n + 1) msg hs C)
    (hprepared : prepareMessage msg hs = .ok (some msg', hs₁))
    (hexecuted : Executed (execVm ctx vm (Host.call ctx vm n) n) msg' hs₁ r hs') : R hs₁ hs' := by
  cases hexecuted with
  | collision => exact refl _
  | @create r₁ _ hs₂ hs₃ _ hkind hnonce hcode htransfer hrun hdeploy =>
    have hfresh : Fresh hs₁ msg'.recipient := ⟨hnonce, hcode⟩
    have hentered := enterCreate_of_fresh hfresh htransfer
    -- A creation enters its address, runs, and stores code only on a success.
    have hC : C msg'.recipient := hcreates .self ⟨hprepared, hkind, rfl, hentered⟩
    have hafter : R (setAcc hs₁ msg'.recipient (newAccount hs₁ msg'.recipient)) hs₃ :=
      IsTrans.trans _ _ _ (h.step (.transfer htransfer)) (h.run (fun m s r s' hsend =>
        hcall m s r s' (hcreates.nested (.create hprepared hkind hentered) hsend)) hrun)
    cases hdeploy with
    | failed | refused | rejected => exact IsTrans.trans _ _ _ (h.enter hC hfresh) hafter
    | done _ hsize _ hef hfind => exact h.deploy hC hfresh hafter hfind hsize hef
  | precompile _ henter =>
    exact IsTrans.trans _ _ _ (h.enterCall henter) (h.step (.cache _))
  | call hkind henter hresult hrun =>
    refine IsTrans.trans _ _ _ (h.enterCall henter) (IsTrans.trans _ _ _ (h.step (.cache _))
      (h.run (fun m s r s' hsend => hcall m s r s' (hcreates.nested ?_ hsend)) hrun))
    exact .call hprepared hkind henter (callPrecompile_of_result hresult)

/-- A call keeps the relation. -/
theorem call (h : KeptByHost R C) {r : CallResult} (hcreates : CreatesOnly ctx vm fuel msg hs C)
    (hrun : Host.call ctx vm fuel msg hs = .ok (r, hs')) : R hs hs' := by
  induction fuel generalizing msg hs r hs' with
  | zero => cases hrun
  | succ n ih =>
    cases callWith_ok hrun with
    | refused hprepared => exact h.prepared hprepared
    | success hprepared hexecuted =>
      exact IsTrans.trans _ _ _ (h.prepared hprepared)
        (h.executed (fun _ _ _ _ hm hrun => ih hm hrun) hcreates hprepared hexecuted)
    | failed hprepared hexecuted =>
      -- The snapshot was taken behind `prepare_message`.
      exact IsTrans.trans _ _ _ (h.prepared hprepared)
        (h.revert (h.executed (fun _ _ _ _ hm hrun => ih hm hrun) hcreates hprepared hexecuted))

end

/-! ### Relations that do not depend on where contracts are created -/

section

variable [Ethash] {ctx : HostContext} {vm : VM} {msg : Message} {hs hs' : HostState} {fuel : Nat}

/-- Calls keep the relation. -/
theorem keeps (h : KeptByHost R) (fuel : Nat) (m : Message) :
    Keeps R (Host.call ctx vm fuel m) :=
  fun _ _ _ hrun => h.call (fun _ _ => trivial) hrun

/-- Every host method keeps the relation. -/
theorem env (h : KeptByHost R) (n : Nat) (q : HostCall) :
    Keeps R (Host.answer ctx (Host.call ctx vm n) q) := by
  by_cases hm : ∃ m, q = .call m
  · obtain ⟨m, rfl⟩ := hm
    exact h.keeps n m
  · exact h.answer fun m hq => hm ⟨m, hq⟩

/-- A program keeps the relation up to every query. -/
theorem reaches (h : KeptByHost R) {n : Nat} {α : Type} {p : HostM α} {q : HostCall}
    (hreach : Reaches (Host.answer ctx (Host.call ctx vm n)) p hs q hs') : R hs hs' := by
  induction hreach with
  | here => exact refl _
  | later hq _ ih => exact IsTrans.trans _ _ _ (h.env n _ _ _ _ hq) ih

/-- What comes before an execution keeps the relation. -/
theorem enters (h : KeptByHost R) {m : Message} {code : Bytes}
    (henters : Enters msg hs m code hs') : R hs hs' := by
  cases henters with
  | create hprepared _ henter =>
    exact IsTrans.trans _ _ _ (h.prepared hprepared) (h.enterCreate trivial henter)
  | call hprepared _ henter hpre =>
    obtain ⟨-, rfl⟩ := callPrecompile_ok hpre
    exact IsTrans.trans _ _ _ (h.prepared hprepared)
      (IsTrans.trans _ _ _ (h.enterCall henter) (h.step (.cache _)))

/-- From the start of a call to every call it makes the relation is kept. -/
theorem calls (h : KeptByHost R) {n : Nat} {m : Message}
    (hcalls : Calls ctx vm fuel msg hs n m hs') : R hs hs' := by
  induction hcalls with
  | self => exact refl _
  | nested henters hsend _ ih =>
    exact IsTrans.trans _ _ _ (h.enters henters) (IsTrans.trans _ _ _ (h.reaches hsend) ih)

end

end KeptByHost

end Host

end Zvmone
