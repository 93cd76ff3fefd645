import Zvmone.Library.StateRun
import Zvmone.State.Host

/-! # What the host methods can do

One inversion lemma for every host method: what a normal end says about the state before, and what
the state after it is. The later developments use these and do not unfold the methods. -/

namespace Zvmone

namespace Precompiles

variable [Ethash] {msg : Message} {r : CallResult} {cache : Cache}

/-- The results of precompiles, whether built for a failure, taken from the cache or made of an
execution. -/
structure Answered (msg : Message) (r : CallResult) : Prop where
  msgGas : 0 ≤ msg.gas
  gasRefund : r.gasRefund = 0
  output : r.statusCode ≠ .success → r.outputData = []
  /-- On success the gas cost is charged, otherwise nothing is left. -/
  gasLeft : ∃ analyze : AnalyzeFn, if r.statusCode = .success then
      (analyze.call msg.inputData).gasCost ≤ msg.gas ∧
        r.gasLeft = msg.gas - (analyze.call msg.inputData).gasCost
    else r.gasLeft = 0

omit [Ethash] in
/-- An execution that is not successful has no output. -/
theorem ExecuteFn.call_output {execute : ExecuteFn} {input : Bytes} {maxOutputSize : Nat}
    {result : ExecutionResult} (h : execute.call input maxOutputSize = .ok result)
    (hstatus : result.statusCode ≠ .success) : result.output = [] := by
  cases execute with
  | identity =>
    have h : identityExecute input maxOutputSize = .ok result := h
    unfold identityExecute at h
    split at h
    · cases h
      exact absurd rfl hstatus
    · cases h
  | dummy =>
    cases h
    rfl

/-- A precompile that answers does so within the gas of the message. -/
theorem callWith_answered {traits : PrecompileTraits} {id : Fin numPrecompiles}
    (hgas : 0 ≤ msg.gas) (h : (callWith traits id cache msg).result = .ok (some r)) :
    Answered msg r := by
  unfold callWith at h
  split at h
  next => cases h
  next analyze _ =>
    dsimp only at h
    split at h
    next =>
      cases h
      -- Too little gas: the precompile is not run.
      exact ⟨hgas, rfl, fun _ => rfl, analyze, rfl⟩
    next hpaid =>
      have hpaid : (analyze.call msg.inputData).gasCost ≤ msg.gas := by omega
      split at h
      -- The answer comes from the cache: a failure, or a success with the output that was stored.
      next r' hfind =>
        cases h
        unfold Cache.find at hfind
        split at hfind
        next =>
          cases hfind
          exact ⟨hgas, rfl, fun _ => rfl, analyze, rfl⟩
        next =>
          cases hfind
          exact ⟨hgas, rfl, fun h => absurd rfl h, analyze, hpaid, rfl⟩
        next => cases hfind
      next =>
        split at h
        next => cases h
        next =>
          split at h
          next => cases h
          next execute _ =>
            -- Nothing in the cache: the precompile runs.
            unfold executeWith at h
            split at h
            next => cases h
            next status output hexecute =>
              cases h
              refine ⟨hgas, rfl, ExecuteFn.call_output hexecute, analyze, ?_⟩
              by_cases hstatus : status = .success
              · simp only [hstatus, if_true]
                exact ⟨hpaid, trivial⟩
              · simp only [hstatus, if_false]

/-- A precompile that answers. -/
theorem callPrecompile_answered (h : (callPrecompile cache msg).result = .ok (some r)) :
    Answered msg r := by
  unfold callPrecompile at h
  split at h
  next => cases h
  next =>
    split at h
    next => cases h
    next hgas => exact callWith_answered (not_lt.1 hgas) h

end Precompiles

namespace Host

variable {hs hs' : HostState} {addr : Address}

/-! ### Access to the account map -/

/-- Write an account of the state of the host. -/
def setAcc (hs : HostState) (addr : Address) (acc : Account) : HostState :=
  { hs with state := hs.state.set addr acc }

/-- Writing an account sets it in the map. -/
@[simp] theorem setAcc_state (hs : HostState) (addr : Address) (acc : Account) :
    (setAcc hs addr acc).state = hs.state.set addr acc := rfl

/-- Writing an account keeps the logs. -/
@[simp] theorem setAcc_logs (hs : HostState) (addr : Address) (acc : Account) :
    (setAcc hs addr acc).logs = hs.logs := rfl

/-- Writing an account keeps the cache. -/
@[simp] theorem setAcc_cache (hs : HostState) (addr : Address) (acc : Account) :
    (setAcc hs addr acc).cache = hs.cache := rfl

/-- `find` looks the account up. -/
@[simp] theorem find_eq_ok {acc : Option Account} :
    find addr hs = .ok (acc, hs') ↔ acc = hs.state.find addr ∧ hs' = hs := by
  simp [find, eq_comm]

/-- `get` returns an account that is there. -/
@[simp] theorem getAccount_eq_ok {acc : Account} :
    getAccount addr hs = .ok (acc, hs') ↔ hs.state.find addr = some acc ∧ hs' = hs := by
  unfold getAccount
  cases hs.state.find addr with
  | none => simp
  | some acc' =>
    constructor
    · intro h
      cases h
      exact ⟨rfl, rfl⟩
    · rintro ⟨h, rfl⟩
      cases h
      rfl

/-- Writing an account returns nothing. -/
@[simp] theorem setAccount_eq_ok {acc : Account} {u : Unit} :
    setAccount addr acc hs = .ok (u, hs') ↔ hs' = setAcc hs addr acc := by
  simp [setAccount, setAcc, eq_comm]

/-- An assertion that does not fail holds. -/
@[simp] theorem assert_eq_ok {c : Prop} [Decidable c] {u : Unit} :
    assert c hs = .ok (u, hs') ↔ c ∧ hs' = hs := by
  unfold assert
  split <;> simp_all [eq_comm]

/-- The account at an address, or the one `get_or_insert` puts there. -/
def accountOr (hs : HostState) (addr : Address) (account : Account) : Account :=
  (hs.state.find addr).getD account

/-- An account after another was written. -/
theorem accountOr_setAcc (hs : HostState) (addr a : Address) (acc account : Account) :
    accountOr (setAcc hs addr acc) a account = if a = addr then acc else accountOr hs a account := by
  unfold accountOr
  rw [setAcc_state, State.find_set]
  split <;> rfl

/-- The default plays no role for an account that is there. -/
theorem accountOr_of_find {acc : Account} (hfind : hs.state.find addr = some acc)
    (account : Account) : accountOr hs addr account = acc := by
  rw [accountOr, hfind]
  rfl

/-- `get_or_insert` followed by an assignment is one assignment. -/
theorem setAcc_getOrInsert (account acc : Account) :
    setAcc { hs with state := (hs.state.getOrInsert addr account).2 } addr acc
      = setAcc hs addr acc := by
  unfold setAcc
  cases h : hs.state.find addr with
  | some acc' => rw [State.getOrInsert_of_find h]
  | none => simp [State.getOrInsert_of_absent h]

/-- `get_or_insert` returns the account, or the one it inserts. -/
theorem getOrInsert_fst (account : Account) :
    (hs.state.getOrInsert addr account).1 = accountOr hs addr account := by
  unfold accountOr
  cases h : hs.state.find addr with
  | some acc' => rw [State.getOrInsert_of_find h]; rfl
  | none => rw [State.getOrInsert_of_absent h]; rfl

/-- What `touch` makes of an account: an absent one is the default account. -/
def touched (hs : HostState) (addr : Address) : Account :=
  { accountOr hs addr {} with erasable := true }

/-- `touch` returns the account, marked as erasable. -/
@[simp] theorem touch_eq_ok {acc : Account} :
    touch addr hs = .ok (acc, hs') ↔
      acc = touched hs addr ∧ hs' = setAcc hs addr (touched hs addr) := by
  simp [touch, State.touch_eq, touched, accountOr, setAcc, eq_comm]

/-! ### The methods without side effects -/

/-- `account_exists` changes nothing. -/
theorem accountExists_ok {r : Bool} (h : accountExists addr hs = .ok (r, hs')) : hs' = hs := by
  unfold accountExists at h
  rw [StateRun.bind_eq_ok] at h
  obtain ⟨acc, s₁, hfind, h⟩ := h
  obtain ⟨rfl, rfl⟩ := find_eq_ok.1 hfind
  cases hacc : s₁.state.find addr <;> rw [hacc] at h <;> exact (StateRun.pure_eq_ok.1 h).2.symm

/-- `get_storage` reads the current value of the slot of an existing account. -/
theorem getStorage_ok {key r : Bytes32} (h : getStorage addr key hs = .ok (r, hs')) :
    hs' = hs ∧ ∃ acc, hs.state.find addr = some acc ∧ r = (acc.storage.slot key).current := by
  unfold getStorage at h
  rw [StateRun.bind_eq_ok] at h
  obtain ⟨acc, s₁, hget, h⟩ := h
  obtain ⟨hfind, rfl⟩ := getAccount_eq_ok.1 hget
  unfold Storage.slot AList.getD
  cases hl : acc.storage.lookup key with
  | none =>
    rw [hl] at h
    obtain ⟨rfl, rfl⟩ := StateRun.pure_eq_ok.1 h
    exact ⟨rfl, acc, hfind, by rw [hl]; rfl⟩
  | some v =>
    rw [hl] at h
    obtain ⟨rfl, rfl⟩ := StateRun.pure_eq_ok.1 h
    exact ⟨rfl, acc, hfind, by rw [hl]; rfl⟩

/-- `get_balance` changes nothing, and an absent account has no balance. -/
theorem getBalance_ok {r : Word} (h : getBalance addr hs = .ok (r, hs')) :
    hs' = hs ∧ r = (accountOr hs addr {}).balance := by
  unfold getBalance at h
  rw [StateRun.bind_eq_ok] at h
  obtain ⟨acc, s₁, hfind, h⟩ := h
  obtain ⟨rfl, rfl⟩ := find_eq_ok.1 hfind
  unfold accountOr
  cases hacc : s₁.state.find addr with
  | none =>
    rw [hacc] at h
    obtain ⟨rfl, rfl⟩ := StateRun.pure_eq_ok.1 h
    exact ⟨rfl, rfl⟩
  | some acc =>
    rw [hacc] at h
    obtain ⟨rfl, rfl⟩ := StateRun.pure_eq_ok.1 h
    exact ⟨rfl, rfl⟩

/-- `get_code_size` changes nothing. -/
theorem getCodeSize_ok {r : Nat} (h : getCodeSize addr hs = .ok (r, hs')) : hs' = hs := by
  unfold getCodeSize at h
  rw [StateRun.bind_eq_ok] at h
  obtain ⟨acc, s₁, hfind, h⟩ := h
  obtain ⟨rfl, rfl⟩ := find_eq_ok.1 hfind
  cases hacc : s₁.state.find addr <;> rw [hacc] at h <;> exact (StateRun.pure_eq_ok.1 h).2.symm

/-- `get_code_hash` changes nothing. -/
theorem getCodeHash_ok [Ethash] {r : Bytes32} (h : getCodeHash addr hs = .ok (r, hs')) :
    hs' = hs := by
  unfold getCodeHash at h
  rw [StateRun.bind_eq_ok] at h
  obtain ⟨acc, s₁, hfind, h⟩ := h
  obtain ⟨rfl, rfl⟩ := find_eq_ok.1 hfind
  cases hacc : s₁.state.find addr <;> rw [hacc] at h <;> exact (StateRun.pure_eq_ok.1 h).2.symm

/-- `copy_code` changes nothing. -/
theorem copyCode_ok {codeOffset bufferSize : Nat} {r : Bytes}
    (h : copyCode addr codeOffset bufferSize hs = .ok (r, hs')) : hs' = hs := by
  unfold copyCode at h
  rw [StateRun.bind_eq_ok] at h
  obtain ⟨acc, s₁, hfind, h⟩ := h
  obtain ⟨rfl, rfl⟩ := find_eq_ok.1 hfind
  exact (StateRun.pure_eq_ok.1 h).2.symm

/-- `get_tx_context` changes nothing. -/
theorem getTxContext_ok {ctx : HostContext} {r : TxContext}
    (h : getTxContext ctx hs = .ok (r, hs')) : hs' = hs := by
  unfold getTxContext at h
  rw [StateRun.bind_eq_ok] at h
  obtain ⟨_, s₁, hassert, h⟩ := h
  obtain ⟨-, rfl⟩ := assert_eq_ok.1 hassert
  exact (StateRun.pure_eq_ok.1 h).2.symm

/-- `get_block_hash` changes nothing. -/
theorem getBlockHash_ok {number : Int} {r : Bytes32}
    (h : getBlockHash number hs = .ok (r, hs')) : hs' = hs :=
  (StateRun.pure_eq_ok.1 h).2.symm

/-! ### The methods with side effects -/

/-- `set_storage` changes the current value of one slot of an existing account. -/
theorem setStorage_ok {key value : Bytes32} {r : StorageStatus}
    (h : setStorage addr key value hs = .ok (r, hs')) :
    ∃ acc, hs.state.find addr = some acc ∧
      r = storageStatus (acc.storage.slot key).current (acc.storage.slot key).original value ∧
      hs' = setAcc hs addr { acc with
        storage := acc.storage.insert key { acc.storage.slot key with current := value } } := by
  unfold setStorage at h
  rw [StateRun.bind_eq_ok] at h
  obtain ⟨acc, s₁, hget, h⟩ := h
  obtain ⟨hfind, rfl⟩ := getAccount_eq_ok.1 hget
  rw [StateRun.bind_eq_ok] at h
  obtain ⟨_, s₂, hset, h⟩ := h
  obtain ⟨rfl, rfl⟩ := StateRun.pure_eq_ok.1 h
  exact ⟨acc, hfind, rfl, setAccount_eq_ok.1 hset⟩

/-- `emit_log` appends one log. -/
theorem emitLog_ok {data : Bytes} {topics : List Bytes32} {u : Unit}
    (h : emitLog addr data topics hs = .ok (u, hs')) :
    hs' = { hs with logs := hs.logs ++ [⟨addr, data, topics⟩] } := by
  cases h
  rfl

/-- `access_account` marks the account as accessed; an absent one is inserted as erasable. -/
theorem accessAccount_ok {r : AccessStatus} (h : accessAccount addr hs = .ok (r, hs')) :
    hs' = setAcc hs addr
      { accountOr hs addr { erasable := true } with accessStatus := .warm } ∧
    r = if IsPrecompileAddress addr then .warm
      else (accountOr hs addr { erasable := true }).accessStatus := by
  unfold accessAccount at h
  rw [StateRun.bind_eq_ok] at h
  obtain ⟨acc, s₁, hget, h⟩ := h
  obtain ⟨rfl, rfl⟩ : (hs.state.getOrInsert addr { erasable := true }).1 = acc ∧
      { hs with state := (hs.state.getOrInsert addr { erasable := true }).2 } = s₁ := by
    simpa [getOrInsert] using hget
  rw [StateRun.bind_eq_ok] at h
  obtain ⟨_, s₂, hset, h⟩ := h
  rw [setAccount_eq_ok, setAcc_getOrInsert, getOrInsert_fst] at hset
  rw [getOrInsert_fst] at h
  -- A precompile is always warm, and a warm account stays warm.
  split at h
  next hcold =>
    obtain ⟨rfl, rfl⟩ := StateRun.pure_eq_ok.1 h
    exact ⟨hset, by rw [if_pos hcold.2]⟩
  next hcold =>
    obtain ⟨rfl, rfl⟩ := StateRun.pure_eq_ok.1 h
    refine ⟨hset, ?_⟩
    split
    next hpre =>
      cases hstatus : (accountOr hs addr { erasable := true }).accessStatus with
      | warm => rfl
      | cold => exact absurd ⟨hstatus, hpre⟩ hcold
    next => rfl

/-- `access_storage` marks one slot of an existing account as accessed. -/
theorem accessStorage_ok {key : Bytes32} {r : AccessStatus}
    (h : accessStorage addr key hs = .ok (r, hs')) :
    ∃ acc, hs.state.find addr = some acc ∧ r = (acc.storage.slot key).accessStatus ∧
      hs' = setAcc hs addr { acc with
        storage := acc.storage.insert key { acc.storage.slot key with accessStatus := .warm } } := by
  unfold accessStorage at h
  rw [StateRun.bind_eq_ok] at h
  obtain ⟨acc, s₁, hget, h⟩ := h
  obtain ⟨hfind, rfl⟩ := getAccount_eq_ok.1 hget
  rw [StateRun.bind_eq_ok] at h
  obtain ⟨_, s₂, hset, h⟩ := h
  obtain ⟨rfl, rfl⟩ := StateRun.pure_eq_ok.1 h
  exact ⟨acc, hfind, rfl, setAccount_eq_ok.1 hset⟩

/-! ### The parts of a call -/

section call

variable [Ethash] {msg : Message}

/-- The sender with its nonce bumped. -/
def bumped (hs : HostState) (msg : Message) (senderAcc : Account) : HostState :=
  if BumpsNonce msg then setAcc hs msg.sender { senderAcc with nonce := senderAcc.nonce + 1 }
  else hs

/-- The account at an address marked as accessed, or inserted as an erasable one. -/
def warmed (hs : HostState) (addr : Address) : HostState :=
  setAcc hs addr { accountOr hs addr { erasable := true } with accessStatus := .warm }

/-- How `prepare_message` can end. -/
inductive Prepared (msg : Message) (hs : HostState) : Option Message → HostState → Prop
  /-- The sender's nonce cannot be bumped: the message is refused. -/
  | refused {senderAcc : Account} (hfind : hs.state.find msg.sender = some senderAcc)
      (hbump : BumpsNonce msg) (hmax : senderAcc.nonce = Account.nonceMax) :
      Prepared msg hs none hs
  /-- The message does not create a contract. -/
  | call {senderAcc : Account} (hfind : hs.state.find msg.sender = some senderAcc)
      (hbump : BumpsNonce msg → senderAcc.nonce ≠ Account.nonceMax) (hkind : ¬ msg.kind.IsCreate) :
      Prepared msg hs (some msg) (bumped hs msg senderAcc)
  /-- The message creates a contract at a new address. -/
  | create {senderAcc : Account} {recipient : Address}
      (hfind : hs.state.find msg.sender = some senderAcc)
      (hbump : BumpsNonce msg → senderAcc.nonce ≠ Account.nonceMax) (hkind : msg.kind.IsCreate)
      (hrecipient : msg.recipient = 0) (hcode : msg.codeAddress = 0)
      (haddr : computeNewAccountAddress msg.sender senderAcc.nonce
        (if msg.kind = .create2 then some msg.create2Salt else none) msg.inputData
          = .ok recipient) :
      Prepared msg hs (some { msg with recipient })
        (warmed (bumped hs msg senderAcc) recipient)

omit [Ethash] in
/-- What the nonce update of `prepare_message` does. -/
theorem bumpNonce_ok {senderAcc : Account} {u : Unit}
    (h : bumpNonce senderAcc msg hs = .ok (u, hs')) : hs' = bumped hs msg senderAcc := by
  unfold bumpNonce at h
  unfold bumped
  split at h
  next hbump => rw [if_pos hbump]; exact setAccount_eq_ok.1 h
  next hbump => rw [if_neg hbump]; exact (StateRun.pure_eq_ok.1 h).2.symm

/-- What `prepare_message` can do. -/
theorem prepareMessage_ok {r : Option Message} (h : prepareMessage msg hs = .ok (r, hs')) :
    Prepared msg hs r hs' := by
  unfold prepareMessage at h
  rw [StateRun.bind_eq_ok] at h
  obtain ⟨senderAcc, s₁, hget, h⟩ := h
  obtain ⟨hfind, rfl⟩ := getAccount_eq_ok.1 hget
  split at h
  next hmax =>
    obtain ⟨rfl, rfl⟩ := StateRun.pure_eq_ok.1 h
    -- The sender's nonce has no successor: the message ends here.
    exact .refused hfind hmax.1 hmax.2
  next hmax =>
    -- Otherwise the nonce is bumped where the message asks for it, and a creation gets its address.
    have hbump : BumpsNonce msg → senderAcc.nonce ≠ Account.nonceMax := fun hb hm => hmax ⟨hb, hm⟩
    rw [StateRun.bind_eq_ok] at h
    obtain ⟨_, s₂, hbumped, h⟩ := h
    obtain rfl := bumpNonce_ok hbumped
    rw [StateRun.bind_eq_ok] at h
    obtain ⟨msg', s₃, hfill, h⟩ := h
    obtain ⟨rfl, rfl⟩ := StateRun.pure_eq_ok.1 h
    unfold fillCreateAddress at hfill
    split at hfill
    next hkind =>
      rw [StateRun.bind_eq_ok] at hfill
      obtain ⟨_, s₄, hassert, h⟩ := hfill
      obtain ⟨hrecipient, rfl⟩ := assert_eq_ok.1 hassert
      rw [StateRun.bind_eq_ok] at h
      obtain ⟨_, s₅, hassert, h⟩ := h
      obtain ⟨hcode, rfl⟩ := assert_eq_ok.1 hassert
      rw [StateRun.bind_eq_ok] at h
      obtain ⟨recipient, s₆, hlift, h⟩ := h
      obtain ⟨haddr, rfl⟩ := StateRun.lift_eq_ok.1 hlift
      rw [StateRun.bind_eq_ok] at h
      obtain ⟨_, s₇, hwarm, h⟩ := h
      obtain ⟨rfl, rfl⟩ := StateRun.pure_eq_ok.1 h
      -- The new address is the recipient of the message, and made warm.
      rw [(accessAccount_ok hwarm).1]
      exact .create hfind hbump hkind hrecipient hcode haddr
    next hkind =>
      obtain ⟨rfl, rfl⟩ := StateRun.pure_eq_ok.1 hfill
      exact .call hfind hbump hkind

omit [Ethash] in
/-- A transfer moves the value, which the sender has, from the sender to the recipient. -/
theorem transfer_ok {sender recipient : Address} {value : Word} {u : Unit}
    (h : transfer sender recipient value hs = .ok (u, hs')) :
    ∃ senderAcc recipientAcc, hs.state.find sender = some senderAcc ∧ value ≤ senderAcc.balance ∧
      (hs.state.set sender { senderAcc with balance := senderAcc.balance - value }).find recipient
        = some recipientAcc ∧
      hs' = setAcc (setAcc hs sender { senderAcc with balance := senderAcc.balance - value })
        recipient { recipientAcc with balance := recipientAcc.balance + value } := by
  unfold transfer at h
  rw [StateRun.bind_eq_ok] at h
  obtain ⟨senderAcc, s₁, hget, h⟩ := h
  obtain ⟨hsender, rfl⟩ := getAccount_eq_ok.1 hget
  rw [StateRun.bind_eq_ok] at h
  obtain ⟨_, s₂, hassert, h⟩ := h
  obtain ⟨hvalue, rfl⟩ := assert_eq_ok.1 hassert
  rw [StateRun.bind_eq_ok] at h
  obtain ⟨_, s₃, hset, h⟩ := h
  obtain rfl := setAccount_eq_ok.1 hset
  rw [StateRun.bind_eq_ok] at h
  obtain ⟨recipientAcc, s₄, hget, h⟩ := h
  obtain ⟨hrecipient, rfl⟩ := getAccount_eq_ok.1 hget
  exact ⟨senderAcc, recipientAcc, hsender, hvalue, hrecipient, setAccount_eq_ok.1 h⟩

/-- The account at the address of a new contract once it is set up. -/
def newAccount (hs : HostState) (addr : Address) : Account :=
  { accountOr hs addr {} with nonce := 1, storage := clearStorage (accountOr hs addr {}).storage }

omit [Ethash] in
/-- A cleared slot keeps its access status only. -/
theorem slot_clearStorage (storage : Storage) (key : Bytes32) :
    (clearStorage storage).slot key = { accessStatus := (storage.slot key).accessStatus } := by
  unfold Storage.slot AList.getD clearStorage
  rw [AList.lookup_mapValues]
  cases storage.lookup key <;> rfl

omit [Ethash] in
/-- The host state before the init code runs: the new account set up and the value transferred; or
a collision. -/
theorem enterCreate_ok {r : Bool} (h : enterCreate msg hs = .ok (r, hs')) :
    (r = false ∧ hs' = hs) ∨
    (r = true ∧ (accountOr hs msg.recipient {}).nonce = 0 ∧
      (accountOr hs msg.recipient {}).code = [] ∧
      transfer msg.sender msg.recipient msg.value
        (setAcc hs msg.recipient (newAccount hs msg.recipient)) = .ok ((), hs')) := by
  -- The part after the collision check is the same for an absent and for a present account.
  have hrest : ∀ s, (do
      let newAcc ← getOrInsert msg.recipient
      assert (newAcc.nonce = 0)
      setAccount msg.recipient { newAcc with nonce := 1, storage := clearStorage newAcc.storage }
      transfer msg.sender msg.recipient msg.value
      return true : HostS Bool) s = .ok (r, hs') →
      r = true ∧ (accountOr s msg.recipient {}).nonce = 0 ∧
      transfer msg.sender msg.recipient msg.value
        (setAcc s msg.recipient (newAccount s msg.recipient)) = .ok ((), hs') := by
    intro s h
    rw [StateRun.bind_eq_ok] at h
    obtain ⟨newAcc, s₁, hget, h⟩ := h
    obtain ⟨rfl, rfl⟩ : (s.state.getOrInsert msg.recipient {}).1 = newAcc ∧
        { s with state := (s.state.getOrInsert msg.recipient {}).2 } = s₁ := by
      simpa [getOrInsert] using hget
    rw [StateRun.bind_eq_ok] at h
    obtain ⟨_, s₂, hassert, h⟩ := h
    obtain ⟨hnonce, rfl⟩ := assert_eq_ok.1 hassert
    rw [StateRun.bind_eq_ok] at h
    obtain ⟨_, s₃, hset, h⟩ := h
    obtain rfl := setAccount_eq_ok.1 hset
    rw [StateRun.bind_eq_ok] at h
    obtain ⟨_, s₄, htransfer, h⟩ := h
    obtain ⟨rfl, rfl⟩ := StateRun.pure_eq_ok.1 h
    rw [getOrInsert_fst] at hnonce
    rw [setAcc_getOrInsert, getOrInsert_fst] at htransfer
    exact ⟨rfl, hnonce, htransfer⟩
  unfold enterCreate at h
  rw [StateRun.bind_eq_ok] at h
  obtain ⟨acc, s₁, hfind, h⟩ := h
  obtain ⟨rfl, rfl⟩ := find_eq_ok.1 hfind
  cases hacc : s₁.state.find msg.recipient with
  | none =>
    rw [hacc] at h
    obtain ⟨hr, hnonce, htransfer⟩ := hrest _ h
    exact .inr ⟨hr, hnonce, by rw [accountOr, hacc]; rfl, htransfer⟩
  | some acc =>
    rw [hacc] at h
    dsimp only at h
    split at h
    next =>
      obtain ⟨rfl, rfl⟩ := StateRun.pure_eq_ok.1 h
      -- A nonce or a code is there: a collision, with the state as it was.
      exact .inl ⟨rfl, rfl⟩
    next hcollision =>
      have hcode : acc.code = [] := by
        by_contra hcode
        exact hcollision (.inr hcode)
      obtain ⟨hr, hnonce, htransfer⟩ := hrest _ h
      exact .inr ⟨hr, hnonce, by rw [accountOr, hacc]; exact hcode, htransfer⟩

/-- How the deployment of a contract can end. -/
inductive Deployed (msg : Message) (result : CallResult) (hs : HostState) :
    CallResult → HostState → Prop
  /-- The init code failed. -/
  | failed (hstatus : result.statusCode ≠ .success) :
      Deployed msg result hs { result with createAddress := msg.recipient } hs
  /-- The code is too long, or too expensive to deploy. -/
  | refused (hstatus : result.statusCode = .success) :
      Deployed msg result hs { statusCode := .failure } hs
  /-- The code starts with `0xEF`. -/
  | rejected (hstatus : result.statusCode = .success) :
      Deployed msg result hs { statusCode := .contractValidationFailure } hs
  /-- The code is deployed. -/
  | done {acc : Account} (hstatus : result.statusCode = .success)
      (hsize : result.outputData.length ≤ maxCodeSize)
      (hgas : (result.outputData.length : Int) * 200 ≤ result.gasLeft)
      (hef : result.outputData.head? ≠ some 0xEF)
      (hfind : hs.state.find msg.recipient = some acc) :
      Deployed msg result hs
        { statusCode := result.statusCode
          gasLeft := result.gasLeft - (result.outputData.length : Int) * 200
          gasRefund := result.gasRefund
          createAddress := msg.recipient }
        (setAcc hs msg.recipient { acc with code := result.outputData })

omit [Ethash] in
/-- What the end of `create` can do. -/
theorem deploy_ok {result r : CallResult} (h : deploy msg result hs = .ok (r, hs')) :
    Deployed msg result hs r hs' := by
  unfold deploy at h
  split at h
  next hstatus =>
    obtain ⟨rfl, rfl⟩ := StateRun.pure_eq_ok.1 h
    -- The init code failed: its result is the result of the creation.
    exact .failed hstatus
  next hstatus =>
    have hstatus : result.statusCode = .success := not_not.1 hstatus
    rw [StateRun.bind_eq_ok] at h
    obtain ⟨_, s₁, hassert, h⟩ := h
    obtain ⟨-, rfl⟩ := assert_eq_ok.1 hassert
    split at h
    next =>
      obtain ⟨rfl, rfl⟩ := StateRun.pure_eq_ok.1 h
      exact .refused hstatus
    -- The code is not too long; next its price and its first byte are checked.
    next hsize =>
      dsimp only at h
      split at h
      next =>
        obtain ⟨rfl, rfl⟩ := StateRun.pure_eq_ok.1 h
        exact .refused hstatus
      next hgas =>
        split at h
        next =>
          obtain ⟨rfl, rfl⟩ := StateRun.pure_eq_ok.1 h
          exact .rejected hstatus
        next hef =>
          -- All passed: the code is stored and its price taken.
          rw [StateRun.bind_eq_ok] at h
          obtain ⟨acc, s₂, hget, h⟩ := h
          obtain ⟨hfind, rfl⟩ := getAccount_eq_ok.1 hget
          rw [StateRun.bind_eq_ok] at h
          obtain ⟨_, s₃, hset, h⟩ := h
          obtain rfl := setAccount_eq_ok.1 hset
          obtain ⟨rfl, rfl⟩ := StateRun.pure_eq_ok.1 h
          exact .done hstatus (by omega) (by omega) hef hfind

omit [Ethash] in
/-- The host state before the code of a called account runs: for a `CALL` the recipient is touched
and the value transferred. -/
theorem enterCall_ok {u : Unit} (h : enterCall msg hs = .ok (u, hs')) :
    (msg.kind ≠ .call ∧ hs' = hs) ∨
    (msg.kind = .call ∧ msg.recipient = msg.codeAddress ∧
      transfer msg.sender msg.recipient msg.value
        (setAcc hs msg.recipient (touched hs msg.recipient)) = .ok ((), hs')) := by
  unfold enterCall at h
  rw [StateRun.bind_eq_ok] at h
  obtain ⟨_, s₁, hassert, h⟩ := h
  obtain ⟨hcode, rfl⟩ := assert_eq_ok.1 hassert
  split at h
  next hkind =>
    rw [StateRun.bind_eq_ok] at h
    obtain ⟨_, s₂, htouch, h⟩ := h
    obtain ⟨-, rfl⟩ := touch_eq_ok.1 htouch
    exact .inr ⟨hkind, hcode.resolve_left (not_not.2 hkind), h⟩
  next hkind =>
    obtain ⟨-, rfl⟩ := StateRun.pure_eq_ok.1 h
    exact .inl ⟨hkind, rfl⟩

/-- A precompile changes the cache only. -/
theorem callPrecompile_ok {r : Option CallResult} (h : callPrecompile msg hs = .ok (r, hs')) :
    (Precompiles.callPrecompile hs.cache msg).result = .ok r ∧
      hs' = { hs with cache := (Precompiles.callPrecompile hs.cache msg).cache } := by
  unfold callPrecompile at h
  dsimp only at h
  split at h
  next => cases h
  next hr =>
    cases h
    exact ⟨hr, rfl⟩

/-- `call_precompile` changes the cache only. -/
theorem callPrecompile_of_result {r : Option CallResult}
    (h : (Precompiles.callPrecompile hs.cache msg).result = .ok r) :
    callPrecompile msg hs
      = .ok (r, { hs with cache := (Precompiles.callPrecompile hs.cache msg).cache }) := by
  simp only [callPrecompile, h]

/-- The code that a message to an existing account runs. -/
def codeOf (hs : HostState) (msg : Message) : Bytes :=
  (accountOr hs (if msg.kind = .call then msg.recipient else msg.codeAddress) {}).code

/-- How the execution of a message can end, given what runs its code. -/
inductive Executed (exec : Exec) (msg : Message) (hs : HostState) : CallResult → HostState → Prop
  /-- There already is a contract at the new address. -/
  | collision (hkind : msg.kind.IsCreate) (henter : enterCreate msg hs = .ok (false, hs)) :
      Executed exec msg hs { statusCode := .failure } hs
  /-- The init code ran, and its output was deployed. -/
  | create {r₁ r : CallResult} {hs₁ hs₂ hs' : HostState} (hkind : msg.kind.IsCreate)
      (hnonce : (accountOr hs msg.recipient {}).nonce = 0)
      (hcode : (accountOr hs msg.recipient {}).code = [])
      (htransfer : transfer msg.sender msg.recipient msg.value
        (setAcc hs msg.recipient (newAccount hs msg.recipient)) = .ok ((), hs₁))
      (hexec : exec { msg with inputData := [] } msg.inputData hs₁ = .ok (r₁, hs₂))
      (hdeploy : Deployed msg r₁ hs₂ r hs') : Executed exec msg hs r hs'
  /-- A precompile answered. -/
  | precompile {r : CallResult} {hs₁ : HostState} (hkind : ¬ msg.kind.IsCreate)
      (henter : enterCall msg hs = .ok ((), hs₁))
      (hresult : (Precompiles.callPrecompile hs₁.cache msg).result = .ok (some r)) :
      Executed exec msg hs r
        { hs₁ with cache := (Precompiles.callPrecompile hs₁.cache msg).cache }
  /-- The code of the called account ran. -/
  | call {r : CallResult} {hs₁ hs' : HostState} (hkind : ¬ msg.kind.IsCreate)
      (henter : enterCall msg hs = .ok ((), hs₁))
      (hresult : (Precompiles.callPrecompile hs₁.cache msg).result = .ok none)
      (hexec : exec msg (codeOf hs₁ msg)
        { hs₁ with cache := (Precompiles.callPrecompile hs₁.cache msg).cache } = .ok (r, hs')) :
      Executed exec msg hs r hs'

/-- What `execute_message` can do. -/
theorem executeMessage_ok {exec : Exec} {r : CallResult}
    (h : executeMessage exec msg hs = .ok (r, hs')) : Executed exec msg hs r hs' := by
  unfold executeMessage at h
  split at h
  next hkind =>
    -- A creation ends at the collision check or goes through the init code to `deploy`.
    unfold create at h
    rw [StateRun.bind_eq_ok] at h
    obtain ⟨_, s₁, hassert, h⟩ := h
    obtain ⟨-, rfl⟩ := assert_eq_ok.1 hassert
    rw [StateRun.bind_eq_ok] at h
    obtain ⟨entered, s₂, henter, h⟩ := h
    -- The collision check is what decides between the two.
    rcases enterCreate_ok henter with ⟨rfl, rfl⟩ | ⟨rfl, hnonce, hcode, htransfer⟩
    · obtain ⟨rfl, rfl⟩ := StateRun.pure_eq_ok.1 h
      exact .collision hkind henter
    · obtain ⟨r₁, s₃, hexec, h⟩ := StateRun.bind_eq_ok.1 h
      exact .create hkind hnonce hcode htransfer hexec (deploy_ok h)
  next hkind =>
    rw [StateRun.bind_eq_ok] at h
    obtain ⟨_, s₁, henter, h⟩ := h
    rw [StateRun.bind_eq_ok] at h
    obtain ⟨pre, s₂, hpre, h⟩ := h
    -- A call is answered by a precompile or runs the code of its destination.
    obtain ⟨hresult, rfl⟩ := callPrecompile_ok hpre
    cases pre with
    | some r' =>
      obtain ⟨rfl, rfl⟩ := StateRun.pure_eq_ok.1 h
      exact .precompile hkind henter hresult
    | none =>
      rw [StateRun.bind_eq_ok] at h
      obtain ⟨dst, s₃, hfind, h⟩ := h
      obtain ⟨rfl, rfl⟩ := find_eq_ok.1 hfind
      refine .call hkind henter hresult ?_
      rw [codeOf, accountOr]
      -- An absent destination runs the empty code, which is what `codeOf` reads of it.
      cases hacc : s₁.state.find (if msg.kind = .call then msg.recipient else msg.codeAddress) with
      | none => simpa only [hacc, Option.getD_none] using h
      | some acc => simpa only [hacc, Option.getD_some] using h

/-- How `call` can end, given what runs the code of a message. -/
inductive Called (exec : Exec) (msg : Message) (hs : HostState) : CallResult → HostState → Prop
  /-- `prepare_message` refused the message. -/
  | refused {hs₁ : HostState} (hprepared : prepareMessage msg hs = .ok (none, hs₁)) :
      Called exec msg hs { statusCode := .failure, gasLeft := msg.gas } hs₁
  /-- The message was executed with success. -/
  | success {msg' : Message} {r : CallResult} {hs₁ hs' : HostState}
      (hprepared : prepareMessage msg hs = .ok (some msg', hs₁))
      (hexecuted : Executed exec msg' hs₁ r hs')
      (hstatus : r.statusCode = .success) : Called exec msg hs r hs'
  /-- The execution of the message failed and its effects were reverted. -/
  | failed {msg' : Message} {r : CallResult} {hs₁ hs₂ : HostState}
      (hprepared : prepareMessage msg hs = .ok (some msg', hs₁))
      (hexecuted : Executed exec msg' hs₁ r hs₂)
      (hstatus : r.statusCode ≠ .success) : Called exec msg hs r (revert hs₁ hs₂)

omit [Ethash] in
/-- Reverting gives back the state of the snapshot, up to a mark at the address `0x03`. -/
theorem revert_state (snapshot hs : HostState) :
    (revert snapshot hs).state = snapshot.state ∨
      (revert snapshot hs).state = snapshot.state.set addr03 (touched snapshot addr03) := by
  unfold revert
  cases hs.state.find addr03 with
  | none => exact .inl rfl
  | some acc =>
    cases hmark : acc.erasable with
    | false => exact .inl (by simp [hmark])
    | true => exact .inr (by simp [hmark, State.touch_eq, touched, accountOr])

/-- What `call` can do. -/
theorem callWith_ok {exec : Exec} {r : CallResult} (h : callWith exec msg hs = .ok (r, hs')) :
    Called exec msg hs r hs' := by
  unfold callWith at h
  rw [StateRun.bind_eq_ok] at h
  obtain ⟨prepared, s₁, hprepared, h⟩ := h
  cases prepared with
  | none =>
    obtain ⟨rfl, rfl⟩ := StateRun.pure_eq_ok.1 h
    exact .refused hprepared
  | some msg' =>
    dsimp only at h
    rw [StateRun.bind_eq_ok] at h
    obtain ⟨snapshot, s₂, hget, h⟩ := h
    obtain ⟨rfl, rfl⟩ := StateRun.get_eq_ok.1 hget
    rw [StateRun.bind_eq_ok] at h
    obtain ⟨r', s₃, hexecute, h⟩ := h
    have hexecuted := executeMessage_ok hexecute
    split at h
    next hstatus =>
      -- A failure: the snapshot taken before the execution is put back.
      rw [StateRun.bind_eq_ok] at h
      obtain ⟨_, s₄, hmodify, h⟩ := h
      obtain rfl := StateRun.modify_eq_ok.1 hmodify
      obtain ⟨rfl, rfl⟩ := StateRun.pure_eq_ok.1 h
      exact .failed hprepared hexecuted hstatus
    next hstatus =>
      obtain ⟨rfl, rfl⟩ := StateRun.pure_eq_ok.1 h
      exact .success hprepared hexecuted (not_not.1 hstatus)

/-- A call that ends used some fuel, and ends as `Called` says. -/
theorem call_ok {ctx : HostContext} {vm : VM} {fuel : Nat} {r : CallResult}
    (h : call ctx vm fuel msg hs = .ok (r, hs')) :
    ∃ n, fuel = n + 1 ∧ Called (execVm ctx vm (call ctx vm n) n) msg hs r hs' := by
  cases fuel with
  | zero => cases h
  | succ n => exact ⟨n, rfl, callWith_ok h⟩

end call

end Host

end Zvmone
