import Mathlib.Data.BitVec
import Mathlib.Tactic.Ring
import Zvmone.State.AccessHistory
import Zvmone.State.Assertions
import Zvmone.State.Conservation
import Zvmone.State.DeployedCode
import Zvmone.State.Rollback

/-! # The journal of a call

`Host::call` undoes a failed message by putting back a copy of the whole account map. The same is
said here by a *journal*: the list of the effects that stand, in the order in which they were made,
without those inside messages that have failed. `call_eq_replay` says that the state after a call is
the state before it with the journal replayed, so that the copies are never seen. What a transaction
does to balances and which logs its receipt has are read off the journal. -/

namespace Zvmone

open Interaction StateRun Host

/-! ### Effects -/

/-- What one host method does to the host state, besides the cache of precompile results. -/
inductive Effect
  /-- An account is marked as accessed. -/
  | warm (addr : Address)
  /-- An account is marked as erasable. -/
  | touch (addr : Address)
  /-- The nonce of a sender goes up. -/
  | bump (addr : Address)
  /-- The account of a new contract is set up. -/
  | create (addr : Address)
  /-- A value is moved. -/
  | transfer (sender recipient : Address) (value : Word)
  /-- A storage slot is written. -/
  | store (addr : Address) (key value : Bytes32)
  /-- A storage slot is marked as accessed. -/
  | warmSlot (addr : Address) (key : Bytes32)
  /-- A log is emitted. -/
  | emit (log : Log)
  /-- The code of a new contract is deployed. -/
  | deploy (addr : Address) (code : Bytes)
  deriving DecidableEq

/-- Change the account at an address; an absent one is the default account. -/
def HostState.update (hs : HostState) (addr : Address) (f : Account → Account) : HostState :=
  setAcc hs addr (f (accountOr hs addr {}))

/-- Pay out of an account. -/
def Account.debit (acc : Account) (value : Word) : Account :=
  { acc with balance := acc.balance - value }

/-- Pay to an account. -/
def Account.credit (acc : Account) (value : Word) : Account :=
  { acc with balance := acc.balance + value }

/-- Write a slot of an account. -/
def Account.store (acc : Account) (key value : Bytes32) : Account :=
  { acc with storage := acc.storage.insert key { acc.storage.slot key with current := value } }

/-- Mark a slot of an account as accessed. -/
def Account.warmSlot (acc : Account) (key : Bytes32) : Account :=
  { acc with storage := acc.storage.insert key { acc.storage.slot key with accessStatus := .warm } }

/-- Make an effect. -/
def Effect.apply : Effect → HostState → HostState
  | .warm addr, hs => warmed hs addr
  | .touch addr, hs => setAcc hs addr (touched hs addr)
  | .bump addr, hs => hs.update addr fun acc => { acc with nonce := acc.nonce + 1 }
  | .create addr, hs => setAcc hs addr (newAccount hs addr)
  | .transfer sender recipient value, hs =>
    (hs.update sender (·.debit value)).update recipient (·.credit value)
  | .store addr key value, hs => hs.update addr (·.store key value)
  | .warmSlot addr key, hs => hs.update addr (·.warmSlot key)
  | .emit log, hs => { hs with logs := hs.logs ++ [log] }
  | .deploy addr code, hs => hs.update addr fun acc => { acc with code }

/-- Make effects one after the other. -/
def replay (effects : List Effect) (hs : HostState) : HostState :=
  effects.foldl (fun hs effect => effect.apply hs) hs

/-- Without effects nothing changes. -/
@[simp] theorem replay_nil (hs : HostState) : replay [] hs = hs := rfl

/-- The first effect is applied first. -/
@[simp] theorem replay_cons (effect : Effect) (effects : List Effect) (hs : HostState) :
    replay (effect :: effects) hs = replay effects (effect.apply hs) := rfl

/-- Effects are applied in order. -/
theorem replay_append (effects effects' : List Effect) (hs : HostState) :
    replay (effects ++ effects') hs = replay effects' (replay effects hs) :=
  List.foldl_append

/-- Effects neither read nor write the cache of precompile results. -/
theorem Effect.apply_cache (effect : Effect) (hs : HostState) (cache : Precompiles.Cache) :
    effect.apply { hs with cache } = { effect.apply hs with cache } := by
  cases effect <;> rfl

/-- Effects do not depend on the cache, nor do they change it. -/
theorem replay_cache (effects : List Effect) (hs : HostState) (cache : Precompiles.Cache) :
    replay effects { hs with cache } = { replay effects hs with cache } := by
  induction effects generalizing hs with
  | nil => rfl
  | cons effect effects ih => simp only [replay_cons, Effect.apply_cache, ih]

/-- The log that an effect emits. -/
def Effect.emitted : Effect → Option Log
  | .emit log => some log
  | _ => none

/-- Effects append the logs that they emit. -/
theorem replay_logs (effects : List Effect) (hs : HostState) :
    (replay effects hs).logs = hs.logs ++ effects.filterMap Effect.emitted := by
  induction effects generalizing hs with
  | nil => simp
  | cons effect effects ih =>
    rw [replay_cons, ih]
    cases effect with
    | emit log => simp [Effect.apply, Effect.emitted]
    | _ => rfl

/-- The balance of the account at an address, 0 if there is none. -/
def HostState.balance (hs : HostState) (addr : Address) : Word := (accountOr hs addr {}).balance

/-- What an account gains by an effect, modulo `2 ^ 256`. -/
def Effect.gain (addr : Address) : Effect → Word
  | .transfer sender recipient value =>
    (if addr = recipient then value else 0) - if addr = sender then value else 0
  | _ => 0

/-- What an account gains by effects, modulo `2 ^ 256`. -/
def gains (addr : Address) (effects : List Effect) : Word := (effects.map (Effect.gain addr)).sum

section

variable (hs : HostState) (addr a : Address)

/-- Writing an account that keeps its balance. -/
theorem balance_setAcc {hs : HostState} {addr : Address} {acc : Account}
    (h : acc.balance = hs.balance addr) (a : Address) :
    (setAcc hs addr acc).balance a = hs.balance a := by
  unfold HostState.balance at *
  rw [accountOr_setAcc]
  split
  next ha => rw [h, ha]
  next => rfl

/-- A debit lowers one balance. -/
theorem balance_debit (value : Word) :
    (hs.update addr (·.debit value)).balance a = hs.balance a - if a = addr then value else 0 := by
  unfold HostState.balance HostState.update
  rw [accountOr_setAcc]
  split
  next ha => rw [ha]; rfl
  next => exact (sub_zero _).symm

/-- A credit raises one balance. -/
theorem balance_credit (value : Word) :
    (hs.update addr (·.credit value)).balance a = hs.balance a + if a = addr then value else 0 := by
  unfold HostState.balance HostState.update
  rw [accountOr_setAcc]
  split
  next ha => rw [ha]; rfl
  next => exact (add_zero _).symm

end

/-- Only transfers change balances. -/
theorem Effect.apply_balance (effect : Effect) (hs : HostState) (a : Address) :
    (effect.apply hs).balance a = hs.balance a + effect.gain a := by
  have hzero : hs.balance a = hs.balance a + 0 := (add_zero _).symm
  have hsame : ∀ addr acc, acc.balance = hs.balance addr →
      (setAcc hs addr acc).balance a = hs.balance a := fun _ _ h => balance_setAcc h a
  cases effect with
  | warm addr => exact (warmed_balance hs addr a).trans hzero
  | touch addr => exact (hsame addr (touched hs addr) rfl).trans hzero
  | create addr => exact (hsame addr (newAccount hs addr) rfl).trans hzero
  | bump addr => exact (hsame addr { accountOr hs addr {} with
      nonce := (accountOr hs addr {}).nonce + 1 } rfl).trans hzero
  | store addr key value =>
    exact (hsame addr ((accountOr hs addr {}).store key value) rfl).trans hzero
  | warmSlot addr key => exact (hsame addr ((accountOr hs addr {}).warmSlot key) rfl).trans hzero
  | deploy addr code => exact (hsame addr { accountOr hs addr {} with code } rfl).trans hzero
  | emit log => exact hzero
  | transfer sender recipient value =>
    show (HostState.update (hs.update sender (·.debit value)) recipient (·.credit value)).balance a = _
    rw [balance_credit, balance_debit, Effect.gain]
    ring

/-- The balance after some effects is the balance before them and what they bring in. -/
theorem replay_balance (effects : List Effect) (hs : HostState) (a : Address) :
    (replay effects hs).balance a = hs.balance a + gains a effects := by
  induction effects generalizing hs with
  | nil => exact (add_zero _).symm
  | cons effect effects ih =>
    rw [replay_cons, ih, effect.apply_balance, gains, gains, List.map_cons, List.sum_cons, add_assoc]

/-- The second state is the first one with the effects replayed, up to the cache of precompile
results. -/
def Replays (effects : List Effect) (hs hs' : HostState) : Prop :=
  ∃ cache, hs' = { replay effects hs with cache }

/-- Replaying accumulates over the steps of a run. -/
theorem accumulates_replays : Accumulates Replays where
  nil hs := ⟨hs.cache, rfl⟩
  append := by
    rintro xs ys hs _ _ ⟨cache, rfl⟩ ⟨cache', rfl⟩
    exact ⟨cache', by rw [replay_cache, replay_append]⟩

section

variable {hs hs' : HostState} {addr : Address} {acc : Account}

/-- Nothing but the cache has changed. -/
theorem replays_nil (hs : HostState) (cache : Precompiles.Cache) :
    Replays [] hs { hs with cache } := ⟨cache, rfl⟩

/-- A step that is one effect. -/
theorem Replays.one (effect : Effect) (h : hs' = effect.apply hs) : Replays [effect] hs hs' :=
  ⟨hs'.cache, by rw [h]; rfl⟩

/-- What follows without an effect. -/
theorem Replays.trans_nil {effects : List Effect} {hs'' : HostState} (h : Replays effects hs hs')
    (h' : Replays [] hs' hs'') : Replays effects hs hs'' := by
  simpa only [List.append_nil] using accumulates_replays.append h h'

/-- Writing a changed account is an update. -/
theorem setAcc_eq_update (hfind : hs.state.find addr = some acc) (f : Account → Account) :
    setAcc hs addr (f acc) = hs.update addr f := by
  unfold HostState.update
  rw [accountOr_of_find hfind]

/-- A transfer is one effect. -/
theorem replays_transfer {sender recipient : Address} {value : Word} {u : Unit}
    (h : transfer sender recipient value hs = .ok (u, hs')) :
    Replays [.transfer sender recipient value] hs hs' := by
  obtain ⟨senderAcc, recipientAcc, hsender, -, hrecipient, rfl⟩ := transfer_ok h
  refine .one _ ?_
  have hpaid : setAcc hs sender (senderAcc.debit value) = hs.update sender (·.debit value) :=
    setAcc_eq_update hsender (·.debit value)
  have hmoved : setAcc (setAcc hs sender (senderAcc.debit value)) recipient
      (recipientAcc.credit value) = _ := setAcc_eq_update hrecipient (·.credit value)
  exact hmoved.trans (congrArg (HostState.update · recipient (·.credit value)) hpaid)

end

/-! ### The journal -/

/-- The effects of a host method other than `call`. -/
def HostCall.effects : HostCall → List Effect
  | .setStorage addr key value => [.store addr key value]
  | .emitLog addr data topics => [.emit ⟨addr, data, topics⟩]
  | .accessAccount addr => [.warm addr]
  | .accessStorage addr key => [.warmSlot addr key]
  | _ => []

/-- The effects of a host method, given those of nested calls. -/
def queryEffects (nested : Message → HostState → List Effect) : HostCall → HostState → List Effect
  | .call msg, hs => nested msg hs
  | q, _ => q.effects

/-- The effects of `prepare_message`, which stand in any case. -/
def preparedEffects (msg msg' : Message) : List Effect :=
  (if BumpsNonce msg then [.bump msg.sender] else []) ++
    if msg'.kind.IsCreate then [.warm msg'.recipient] else []

/-- The effects of a message before its code runs. -/
def enterEffects (msg : Message) : List Effect :=
  if msg.kind.IsCreate then
    [.create msg.recipient, .transfer msg.sender msg.recipient msg.value]
  else if msg.kind = .call then
    [.touch msg.recipient, .transfer msg.sender msg.recipient msg.value]
  else []

/-- The effect that outlives a failed message: the mark on the account `0x03`. -/
def markEffects (hs : HostState) : List Effect :=
  if (hs.state.find addr03).any (·.erasable) then [.touch addr03] else []

/-- The effects of a message after its code has run. -/
def deployEffects (msg : Message) (result : Except Fault (CallResult × HostState)) : List Effect :=
  match result with
  | .ok (r, _) => if msg.kind.IsCreate then [.deploy msg.recipient r.outputData] else []
  | .error _ => []

/-- The effect of a deployment. -/
theorem deployEffects_ok (msg : Message) (r : CallResult) (hs : HostState) :
    deployEffects msg (.ok (r, hs)) =
      if msg.kind.IsCreate then [.deploy msg.recipient r.outputData] else [] := rfl

section journal

variable [Ethash]

/-- The effects of a call that stand when it has ended. -/
def journal (ctx : HostContext) (vm : VM) : Nat → Message → HostState → List Effect
  | 0, _, _ => []
  | n + 1, msg, hs =>
    match prepareMessage msg hs with
    | .error _ | .ok (none, _) => []
    | .ok (some msg', hs₁) => preparedEffects msg msg' ++
      match executeMessage (execVm ctx vm (call ctx vm n) n) msg' hs₁ with
      | .error _ => []
      | .ok (r, hs₂) =>
        if r.statusCode ≠ .success then markEffects hs₂
        else enterEffects msg' ++
          match entered msg hs with
          | none => []
          | some (m, code, hs₃) =>
            (vm n m code).collect (answer ctx (call ctx vm n)) (queryEffects (journal ctx vm n)) hs₃ ++
              deployEffects msg' (execVm ctx vm (call ctx vm n) n m code hs₃)

variable {ctx : HostContext} {vm : VM} {n : Nat} {msg msg' m : Message} {code : Bytes}
  {hs hs' hs₁ hs₂ hs₃ : HostState} {r : CallResult}

/-- The journal of a message that `prepare_message` refuses. -/
theorem journal_of_refused (hprepared : prepareMessage msg hs = .ok (none, hs₁)) :
    journal ctx vm (n + 1) msg hs = [] := by
  rw [journal, hprepared]

/-- The journal of a message that fails. -/
theorem journal_of_failed (hprepared : prepareMessage msg hs = .ok (some msg', hs₁))
    (hexecute : executeMessage (execVm ctx vm (call ctx vm n) n) msg' hs₁ = .ok (r, hs₂))
    (hstatus : r.statusCode ≠ .success) :
    journal ctx vm (n + 1) msg hs = preparedEffects msg msg' ++ markEffects hs₂ := by
  simp only [journal, hprepared, hexecute, if_pos hstatus]

/-- The journal of a message that succeeds without running code. -/
theorem journal_of_precompile (hprepared : prepareMessage msg hs = .ok (some msg', hs₁))
    (hexecute : executeMessage (execVm ctx vm (call ctx vm n) n) msg' hs₁ = .ok (r, hs₂))
    (hstatus : r.statusCode = .success) (hentered : entered msg hs = none) :
    journal ctx vm (n + 1) msg hs = preparedEffects msg msg' ++ enterEffects msg' := by
  simp only [journal, hprepared, hexecute, hstatus, ne_eq, not_true, if_false, hentered,
    List.append_nil]

/-- The journal of a message whose code runs with success. -/
theorem journal_of_entered (hprepared : prepareMessage msg hs = .ok (some msg', hs₁))
    (hexecute : executeMessage (execVm ctx vm (call ctx vm n) n) msg' hs₁ = .ok (r, hs₂))
    (hstatus : r.statusCode = .success) (henters : Enters msg hs m code hs₃) :
    journal ctx vm (n + 1) msg hs = preparedEffects msg msg' ++ (enterEffects msg' ++
      ((vm n m code).collect (answer ctx (call ctx vm n)) (queryEffects (journal ctx vm n)) hs₃ ++
        deployEffects msg' (execVm ctx vm (call ctx vm n) n m code hs₃))) := by
  simp only [journal, hprepared, hexecute, hstatus, ne_eq, not_true, if_false,
    entered_eq_some.2 henters]

/-! ### The state after a call -/

omit [Ethash] in
/-- The nonce update of `prepare_message` is an effect. -/
theorem replays_bumped {senderAcc : Account} (hfind : hs.state.find msg.sender = some senderAcc) :
    Replays (if BumpsNonce msg then [.bump msg.sender] else []) hs (bumped hs msg senderAcc) := by
  unfold bumped
  split
  · exact .one _ (setAcc_eq_update hfind fun acc => { acc with nonce := acc.nonce + 1 })
  · exact accumulates_replays.nil hs

/-- What `prepare_message` does is replayed. -/
theorem replays_prepared (h : prepareMessage msg hs = .ok (some msg', hs₁)) :
    Replays (preparedEffects msg msg') hs hs₁ := by
  cases prepareMessage_ok h with
  | call hfind _ hkind =>
    rw [preparedEffects, if_neg hkind, List.append_nil]
    exact replays_bumped hfind
  | create hfind _ hkind =>
    refine accumulates_replays.append (replays_bumped hfind) ?_
    exact (congrArg (Replays · _ _) (if_pos hkind)).mpr (.one _ rfl)

omit [Ethash] in
/-- What the beginning of a call does is replayed. -/
theorem replays_enterCall (hkind : ¬ msg.kind.IsCreate) {u : Unit}
    (h : enterCall msg hs = .ok (u, hs')) : Replays (enterEffects msg) hs hs' := by
  rw [enterEffects, if_neg hkind]
  rcases enterCall_ok h with ⟨hcall, rfl⟩ | ⟨hcall, -, htransfer⟩
  · rw [if_neg hcall]
    exact accumulates_replays.nil _
  · rw [if_pos hcall]
    exact accumulates_replays.append (.one (.touch msg.recipient) rfl) (replays_transfer htransfer)

omit [Ethash] in
/-- What the beginning of a creation does is replayed. -/
theorem replays_enterCreate (hkind : msg.kind.IsCreate)
    (htransfer : transfer msg.sender msg.recipient msg.value
      (setAcc hs msg.recipient (newAccount hs msg.recipient)) = .ok ((), hs')) :
    Replays (enterEffects msg) hs hs' := by
  rw [enterEffects, if_pos hkind]
  exact accumulates_replays.append (.one (.create msg.recipient) rfl) (replays_transfer htransfer)

omit [Ethash] in
/-- A revert gives back the snapshot but for the mark on the account `0x03`. -/
theorem revert_eq (hlogs : LogsGrow hs hs') :
    revert hs hs' = { replay (markEffects hs') hs with cache := hs'.cache } := by
  have hstate : (revert hs hs').state = (replay (markEffects hs') hs).state := by
    unfold revert markEffects
    cases hs'.state.find addr03 with
    | none => rfl
    | some acc =>
      cases hmark : acc.erasable <;>
        simp [hmark, Effect.apply, State.touch_eq, touched, accountOr]
  -- The logs of the snapshot are the beginning of the present ones, and a mark adds none.
  have hmark : (replay (markEffects hs') hs).logs = hs.logs := by
    unfold markEffects
    split <;> rfl
  have hlogs : (revert hs hs').logs = (replay (markEffects hs') hs).logs :=
    (revert_logs hlogs).trans hmark.symm
  show HostState.mk (revert hs hs').state (revert hs hs').logs _ = _
  rw [hstate, hlogs]

omit [Ethash] in
/-- A revert leaves at most the mark at `0x03`. -/
theorem replays_revert (hlogs : LogsGrow hs hs') : Replays (markEffects hs') hs (revert hs hs') :=
  ⟨hs'.cache, revert_eq hlogs⟩

/-- A host method other than `call` makes its own effects. -/
theorem replays_answer {call : Message → HostS CallResult}
    {nested : Message → HostState → List Effect} {q : HostCall}
    (hcall : ∀ m hs r hs', call m hs = .ok (r, hs') → Replays (nested m hs) hs hs') {a : q.Answer}
    (h : answer ctx call q hs = .ok (a, hs')) : Replays (queryEffects nested q hs) hs hs' := by
  -- A query that only reads adds no effect; each of the others is one effect.
  have hnil := accumulates_replays.nil hs
  cases q with
  | accountExists addr => rw [accountExists_ok h]; exact hnil
  | getStorage addr key => rw [(getStorage_ok h).1]; exact hnil
  | getBalance addr => rw [(getBalance_ok h).1]; exact hnil
  | getCodeSize addr => rw [getCodeSize_ok h]; exact hnil
  | getCodeHash addr => rw [getCodeHash_ok h]; exact hnil
  | copyCode addr codeOffset bufferSize => rw [copyCode_ok h]; exact hnil
  | getTxContext => rw [getTxContext_ok h]; exact hnil
  | getBlockHash number =>
    rw [show hs' = hs from @getBlockHash_ok hs hs' number a h]
    exact hnil
  | call m => exact hcall m hs a hs' h
  | emitLog addr data topics => exact .one (.emit _) (emitLog_ok h)
  | accessAccount addr => exact .one (.warm addr) (accessAccount_ok h).1
  | setStorage addr key value =>
    obtain ⟨acc, hfind, -, rfl⟩ := setStorage_ok h
    exact .one (.store addr key value) (setAcc_eq_update hfind (·.store key value))
  | accessStorage addr key =>
    obtain ⟨acc, hfind, -, rfl⟩ := accessStorage_ok h
    exact .one (.warmSlot addr key) (setAcc_eq_update hfind (·.warmSlot key))

/-- How a call runs: it is refused, or its message is executed and reverted unless it succeeds. -/
theorem callWith_run {exec : Exec} (h : callWith exec msg hs = .ok (r, hs')) :
    (prepareMessage msg hs = .ok (none, hs')) ∨
      ∃ msg' hs₁ hs₂, prepareMessage msg hs = .ok (some msg', hs₁) ∧
        executeMessage exec msg' hs₁ = .ok (r, hs₂) ∧
        (r.statusCode = .success ∧ hs' = hs₂ ∨
          r.statusCode ≠ .success ∧ hs' = revert hs₁ hs₂) := by
  unfold callWith at h
  obtain ⟨prepared, hs₁, hprepared, hrest⟩ := bind_eq_ok.1 h
  cases prepared with
  | none =>
    obtain ⟨-, rfl⟩ := pure_eq_ok.1 hrest
    exact .inl hprepared
  | some msg' =>
    obtain ⟨snapshot, s₂, hget, hrest'⟩ := bind_eq_ok.1 hrest
    obtain ⟨rfl, rfl⟩ := get_eq_ok.1 hget
    obtain ⟨r', hs₂, hexecute, hend⟩ := bind_eq_ok.1 hrest'
    refine .inr ⟨msg', _, hs₂, hprepared, ?_⟩
    -- The state after the execution, or the snapshot with what outlives it.
    split at hend
    next hstatus =>
      obtain ⟨_, s₄, hmodify, hend⟩ := bind_eq_ok.1 hend
      obtain rfl := modify_eq_ok.1 hmodify
      obtain ⟨rfl, rfl⟩ := pure_eq_ok.1 hend
      exact ⟨hexecute, .inr ⟨hstatus, rfl⟩⟩
    next hstatus =>
      obtain ⟨rfl, rfl⟩ := pure_eq_ok.1 hend
      exact ⟨hexecute, .inl ⟨not_not.1 hstatus, rfl⟩⟩

/-- The state after a call is the state before it with the journal of the call replayed, whatever
virtual machine runs the code. -/
theorem replays_call (h : call ctx vm n msg hs = .ok (r, hs')) :
    Replays (journal ctx vm n msg hs) hs hs' := by
  induction n generalizing msg hs r hs' with
  | zero => cases h
  | succ n ih =>
    have henv : ∀ q s a s', answer ctx (call ctx vm n) q s = .ok (a, s') →
        Replays (queryEffects (journal ctx vm n) q s) s s' :=
      fun q s a s' hq => replays_answer (fun _ _ _ _ hcall => ih hcall) hq
    rcases callWith_run h with hrefused | ⟨msg', hs₁, hs₂, hprepared, hexecute, hend⟩
    · rw [journal_of_refused hrefused]
      cases prepareMessage_ok hrefused
      exact accumulates_replays.nil _
    have hexecuted := executeMessage_ok hexecute
    rcases hend with ⟨hstatus, rfl⟩ | ⟨hstatus, rfl⟩
    -- The message succeeded: all its effects stand.
    · cases hexecuted with
      | collision => cases hstatus
      | @create r₁ _ hs₃ hs₄ _ hkind hnonce hcode htransfer hexec hdeploy =>
        have henters := Enters.create hprepared hkind
          (enterCreate_of_fresh ⟨hnonce, hcode⟩ htransfer)
        rw [journal_of_entered hprepared hexecute hstatus henters]
        refine accumulates_replays.append (replays_prepared hprepared)
          (accumulates_replays.append (replays_enterCreate hkind htransfer)
            (accumulates_replays.append (accumulates_replays.run henv hexec) ?_))
        rw [hexec, deployEffects_ok, if_pos hkind]
        cases hdeploy with
        | failed hfailed => exact absurd hstatus hfailed
        | refused | rejected => cases hstatus
        | done _ _ _ _ hfind =>
          exact .one (.deploy _ _) (setAcc_eq_update hfind fun acc => { acc with code := _ })
      | precompile hkind henter hresult =>
        have hentered : entered msg hs = none := by
          unfold entered
          simp only [hprepared, if_neg hkind, henter, callPrecompile_of_result hresult]
        rw [journal_of_precompile hprepared hexecute hstatus hentered]
        refine accumulates_replays.append (replays_prepared hprepared) ?_
        exact (replays_enterCall hkind henter).trans_nil (replays_nil _ _)
      | call hkind henter hresult hexec =>
        have henters := Enters.call hprepared hkind henter (callPrecompile_of_result hresult)
        rw [journal_of_entered hprepared hexecute hstatus henters]
        rw [hexec, deployEffects_ok, if_neg hkind, List.append_nil]
        exact accumulates_replays.append (replays_prepared hprepared)
          (accumulates_replays.append ((replays_enterCall hkind henter).trans_nil
            (replays_nil _ _)) (accumulates_replays.run henv hexec))
    -- The message failed: what it did is gone.
    · rw [journal_of_failed hprepared hexecute hstatus]
      exact accumulates_replays.append (replays_prepared hprepared)
        (replays_revert (logsGrow_keptByHost.executed
          (fun _ _ _ _ hcreates hrun => logsGrow_keptByHost.call hcreates hrun)
          (fun _ _ => trivial) hprepared hexecuted))

/-- **Reverting by copies is undoing by a journal.** After a call of any message in any state, whatever
virtual machine runs the code and whatever nested messages succeed or fail, the account map is the
one before the call with the effects replayed that stand, one by one; and the logs are the old ones
followed by those among the effects. -/
theorem call_eq_replay (h : call ctx vm n msg hs = .ok (r, hs')) :
    hs'.state = (replay (journal ctx vm n msg hs) hs).state ∧
      hs'.logs = hs.logs ++ (journal ctx vm n msg hs).filterMap Effect.emitted := by
  obtain ⟨cache, rfl⟩ := replays_call h
  exact ⟨rfl, replay_logs _ _⟩

end journal

/-- An account that writes a slot, emits a log and calls the account `0x30`, which writes a slot and
fails; and an account that sends messages. -/
def batchState : HostState :=
  { state := (((⟨∅⟩ : State).set 0x10 { nonce := 1, code := [0x60, 0x01, 0x5f, 0x55, 0x5f, 0x5f, 0xa0,
      0x5f, 0x5f, 0x5f, 0x5f, 0x5f, 0x60, 0x30, 0x61, 0xff, 0xff, 0xf1, 0x00] }).set 0x30
        { nonce := 1, code := [0x60, 0x07, 0x5f, 0x55, 0xfe] }).set 0x20 { balance := 300000 } }

/-- A call of the account that writes, with a value. -/
def batchCall : Message :=
  { gas := 200000, depth := 1, recipient := 0x10, codeAddress := 0x10, sender := 0x20, value := 5 }

/-- What stands of the call. -/
def batchEffects : List Effect :=
  [.touch 0x10, .transfer 0x20 0x10 5, .warmSlot 0x10 0, .store 0x10 0 1, .emit ⟨0x10, [], []⟩,
    .warm 0x30]

/-- The write of the failed message does not stand. -/
theorem call_eq_replay_batch : ∃ (_ : Ethash) (r : CallResult) (hs' : HostState),
    Host.call ⟨plainBlock, loadingTransaction⟩ Baseline.execute 30 batchCall batchState
      = .ok (r, hs') ∧
    hs'.state = (replay batchEffects batchState).state ∧ hs'.logs = [⟨0x10, [], []⟩] := by
  let ethash : Ethash := ⟨fun _ => 0⟩
  let ctx : HostContext := ⟨plainBlock, loadingTransaction⟩
  have hjournal : journal ctx Baseline.execute 30 batchCall batchState = batchEffects := by
    decide +kernel
  have hends : (Host.call ctx Baseline.execute 30 batchCall batchState).toOption.isSome := by
    decide +kernel
  obtain ⟨⟨r, hs'⟩, hrun⟩ := Option.isSome_iff_exists.1 hends
  have hrun := toOption_eq_some.1 hrun
  obtain ⟨hstate, hlogs⟩ := call_eq_replay hrun
  rw [hjournal] at hstate hlogs
  exact ⟨ethash, r, hs', hrun, hstate, hlogs⟩

/-! ### The balances after a transaction -/

section transition

variable {block : BlockInfo} {tx : Transaction} {hs hs' hs₀ hs₁ : HostState}

/-- States with the same content have the same balances. -/
theorem HostState.SameContent.balance (h : hs.SameContent hs') (a : Address) :
    hs'.balance a = hs.balance a := (h.accounts a).balance

/-- Before the call the sender pays for the gas limit. -/
theorem balance_bought {u u' : Unit} (hbuy : buyGas block tx hs = .ok (u, hs₀))
    (hwarm : warmUp block tx { hs₀ with logs := [] } = .ok (u', hs₁)) (a : Address) :
    hs₁.balance a = hs.balance a - if a = tx.sender then tx.maxCost block else 0 := by
  obtain ⟨-, -, senderAcc, hfind, rfl⟩ := buyGas_ok hbuy
  rw [(warmUp_sameContent block tx _ _ _ hwarm).balance, ← balance_debit]
  show (setAcc hs tx.sender (senderAcc.debit (tx.maxCost block))).balance a = _
  rw [← setAcc_eq_update hfind]

/-- After the call the sender is paid back and the coinbase is paid. -/
theorem balance_settled (hnone : hs.state.NoneDestructed) {gasUsed : Int} {u : Unit}
    (h : settle block tx gasUsed hs = .ok (u, hs')) (a : Address) :
    hs'.balance a = hs.balance a + (if a = tx.sender then tx.unused block gasUsed else 0) +
      if a = block.coinbase then tx.reward block gasUsed else 0 := by
  obtain ⟨-, senderAcc, hfind, rfl⟩ := settle_ok h
  have hpaid : paidBack block tx gasUsed hs senderAcc =
      hs.update tx.sender (·.credit (tx.unused block gasUsed)) :=
    setAcc_eq_update hfind (·.credit (tx.unused block gasUsed))
  have hnone₁ : (paidBack block tx gasUsed hs senderAcc).state.NoneDestructed :=
    hnone.set _ _ (hnone tx.sender senderAcc hfind)
  have hnone₂ : (rewarded block tx gasUsed
      (paidBack block tx gasUsed hs senderAcc)).state.NoneDestructed :=
    hnone₁.set _ _ (hnone₁.accountOr block.coinbase rfl)
  -- No account is destructed, so none is erased.
  have hkept : HostState.balance { rewarded block tx gasUsed (paidBack block tx gasUsed hs senderAcc) with
      state := (rewarded block tx gasUsed (paidBack block tx gasUsed hs senderAcc)).state.eraseIf
        (·.destructed) } a =
      (rewarded block tx gasUsed (paidBack block tx gasUsed hs senderAcc)).balance a := by
    unfold HostState.balance accountOr
    rw [State.find_eraseIf hnone₂]
  have hmarked : ∀ s : HostState, (rewarded block tx gasUsed s).balance a =
      (s.update block.coinbase (·.credit (tx.reward block gasUsed))).balance a := by
    intro s
    unfold rewarded HostState.update HostState.balance
    rw [accountOr_setAcc, accountOr_setAcc]
    split <;> rfl
  rw [hkept, hmarked, balance_credit, hpaid, balance_credit]

variable [Ethash] {vm : VM} {fuel : Nat} {receipt : TransactionReceipt}

/-- A transaction marks no account as destructed. -/
theorem Executes.noneDestructed {executionGasLimit : Int} {result : CallResult} {hs₂ : HostState}
    (h : Executes vm fuel block tx executionGasLimit hs receipt hs' hs₁ result hs₂)
    (hnone : hs.state.NoneDestructed) : hs₂.state.NoneDestructed := by
  obtain ⟨hs₀, hbuy, hwarm⟩ := h.bought
  have hnone₀ : hs₀.state.NoneDestructed := by
    obtain ⟨-, -, acc, hacc, rfl⟩ := buyGas_ok hbuy
    exact hnone.set tx.sender { acc with balance := acc.balance - tx.maxCost block }
      (hnone tx.sender acc hacc)
  have hnone₁ := (warmUp_sameContent block tx _ _ _ hwarm).noneDestructed hnone₀
  exact (conserves_keptByHost.keeps _ _ _ _ _ h.called).destructed hnone₁

/-- **The balances and the logs of a transaction are accounted for**, whatever code it runs. The logs
of the receipt are those that the journal of its call emits. Every balance changes by the transfers
of the journal, but for what the sender pays for the gas used and what the coinbase gets of it. -/
theorem transition_is_accounted (hnone : hs.state.NoneDestructed)
    (h : transition vm fuel block tx hs = .ok (.ok receipt, hs')) :
    ∃ executionGasLimit hs₁, Starts block tx hs executionGasLimit hs₁ ∧
      let effects := journal ⟨block, tx⟩ vm fuel (buildMessage tx executionGasLimit) hs₁
      receipt.logs = effects.filterMap Effect.emitted ∧
        ∀ a, hs'.balance a = hs.balance a + gains a effects -
          (if a = tx.sender then Word.ofInt64 receipt.gasUsed * tx.effectiveGasPrice block else 0) +
          if a = block.coinbase then Word.ofInt64 receipt.gasUsed * tx.priorityGasPrice block
            else 0 := by
  obtain ⟨senderAcc, executionGasLimit, hfind, hvalid, hs₁, result, hs₂, hexecutes⟩ :=
    transition_ok h
  obtain ⟨hs₀, hbuy, hwarm⟩ := hexecutes.bought
  refine ⟨executionGasLimit, hs₁, ⟨⟨senderAcc, hfind, hvalid⟩, hs₀, hbuy, hwarm⟩, ?_, fun a => ?_⟩
  · have hwarmed := (warmUp_sameContent block tx _ _ _ hwarm).logs
    obtain ⟨cache, hreplayed⟩ := replays_call hexecutes.called
    obtain ⟨-, _, -, hsettled⟩ := settle_ok hexecutes.settled
    rw [hexecutes.receipt_eq, hsettled]
    -- The logs are new when the call starts, and settling adds none.
    show hs₂.logs = _
    rw [hreplayed]
    exact (replay_logs _ hs₁).trans (by rw [hwarmed, List.nil_append])
  · have hcalled : hs₂.balance a = hs₁.balance a + gains a (journal ⟨block, tx⟩ vm fuel
        (buildMessage tx executionGasLimit) hs₁) := by
      obtain ⟨cache, rfl⟩ := replays_call hexecutes.called
      exact replay_balance _ hs₁ a
    have hused : receipt.gasUsed = gasUsedAfter tx result := by rw [hexecutes.receipt_eq]
    rw [balance_settled (hexecutes.noneDestructed hnone) hexecutes.settled, hcalled, balance_bought hbuy hwarm, ← hused,
      Transaction.unused, Transaction.reward]
    split <;> ring

end transition

/-- A transaction that calls the account that writes, with a value. -/
def batchTransaction : Transaction :=
  { gasLimit := 200000, maxGasPrice := 1, maxPriorityGasPrice := 1, sender := 0x20, to_ := some 0x10,
    value := 5 }

/-- The receipt has the one log, and the sender has paid the value and the gas used. -/
theorem transition_is_accounted_batch : ∃ (_ : Ethash) (receipt : TransactionReceipt)
    (hs' hs₁ : HostState) (executionGasLimit : Int),
    transition Baseline.execute 30 plainBlock batchTransaction batchState
      = .ok (.ok receipt, hs') ∧
    Starts plainBlock batchTransaction batchState executionGasLimit hs₁ ∧
    let effects := journal ⟨plainBlock, batchTransaction⟩ Baseline.execute 30
      (buildMessage batchTransaction executionGasLimit) hs₁
    receipt.logs = effects.filterMap Effect.emitted ∧
      hs'.balance 0x20 = 300000 + gains 0x20 effects -
        Word.ofInt64 receipt.gasUsed * batchTransaction.effectiveGasPrice plainBlock := by
  let ethash : Ethash := ⟨fun _ => 0⟩
  have hends : ((transition Baseline.execute 30 plainBlock batchTransaction batchState).toOption.any
      fun x => x.1.toOption.isSome) = true := by decide +kernel
  rcases hrun : transition Baseline.execute 30 plainBlock batchTransaction batchState with
    _ | ⟨_ | receipt, hs'⟩ <;> rw [hrun] at hends
  · cases hends
  · cases hends
  have hnone : batchState.state.NoneDestructed := by
    have hempty : (⟨∅⟩ : State).NoneDestructed := fun _ _ h => by cases h
    exact State.NoneDestructed.set ((hempty.set _ _ (by rfl)).set _ _ (by rfl)) _ _ (by rfl)
  obtain ⟨executionGasLimit, hs₁, hstarts, hlogs, hbalance⟩ := transition_is_accounted hnone hrun
  -- The sender pays for the gas, and the coinbase is another account.
  have hpaid := hbalance 0x20
  have hsender : (0x20 : Address) = batchTransaction.sender := rfl
  have hcoinbase : (0x20 : Address) ≠ plainBlock.coinbase := by decide
  rw [if_pos hsender, if_neg hcoinbase, add_zero] at hpaid
  exact ⟨ethash, receipt, hs', hs₁, executionGasLimit, hrun, hstarts, hlogs, hpaid⟩

end Zvmone
