import Zvmone.State.KeptByCalls
import Zvmone.State.Refunds
import Zvmone.State.TransitionSteps

/-! # Warm accounts and slots

The access statuses of a transaction against the history of its accesses. An access counts as long
as it lies in no message that has failed since (`keptAccesses`, `AsksAfter`); `warm_iff_accessed`
says that the host answers `WARM` for what a transaction declares and for what has been accessed. -/

namespace Zvmone

open Interaction StateRun Host

/-- What can be accessed: an account, or a slot of its storage. -/
inductive Access
  | account (addr : Address)
  | slot (addr : Address) (key : Bytes32)
  deriving DecidableEq

/-- The access status of an account or a slot is `ZVMC_ACCESS_WARM`; what is absent is cold. -/
def HostState.Warm (hs : HostState) : Access → Prop
  | .account addr => (accountOr hs addr {}).accessStatus = .warm
  | .slot addr key => ((accountOr hs addr {}).storage.slot key).accessStatus = .warm

/-! ### The history of accesses -/

/-- The access that a host method is asked for. -/
def HostCall.accesses : HostCall → List Access
  | .accessAccount addr => [.account addr]
  | .accessStorage addr key => [.slot addr key]
  | _ => []

namespace Host

section history

variable [Ethash]

/-- The access to the address of a new contract. It is made by `prepare_message` before the snapshot
is taken, and so belongs to the caller. -/
def createdAccesses (msg : Message) (hs : HostState) : List Access :=
  match prepareMessage msg hs with
  | .ok (some msg', _) => if msg'.kind.IsCreate then [.account msg'.recipient] else []
  | _ => []

/-- The message, the code and the state from which on a call runs code, if it does. -/
def entered (msg : Message) (hs : HostState) : Option (Message × Bytes × HostState) :=
  match prepareMessage msg hs with
  | .ok (some msg', hs₁) =>
    if msg'.kind.IsCreate then
      match enterCreate msg' hs₁ with
      | .ok (true, hs₂) => some ({ msg' with inputData := [] }, msg'.inputData, hs₂)
      | _ => none
    else
      match enterCall msg' hs₁ with
      | .ok ((), hs₂) =>
        match callPrecompile msg' hs₂ with
        | .ok (none, hs₃) => some (msg', codeOf hs₂ msg', hs₃)
        | _ => none
      | .error _ => none
  | _ => none

/-- The accesses that a query adds, given those that nested calls keep. -/
def queryAccesses (kept : Message → HostState → List Access) : HostCall → HostState → List Access
  | .call msg, hs => kept msg hs
  | q, _ => q.accesses

/-- The accesses of a call that has ended and of the calls nested in it, but for those inside a
message that failed. -/
def keptAccesses (ctx : HostContext) (vm : VM) : Nat → Message → HostState → List Access
  | 0, _, _ => []
  | n + 1, msg, hs =>
    createdAccesses msg hs ++
      match call ctx vm (n + 1) msg hs with
      | .error _ => []
      | .ok (r, _) =>
        if r.statusCode = .success then
          match entered msg hs with
          | none => []
          | some (m, code, hs₁) => (vm n m code).collect (answer ctx (call ctx vm n))
              (queryAccesses (keptAccesses ctx vm n)) hs₁
        else []

/-- `AsksAfter ctx vm fuel msg hs q hs' xs`: in the tree of the call of `msg` in the state `hs`, a
frame asks the query `q` in the state `hs'`; `xs` are the accesses before it, but for those inside a
message that has failed since. -/
inductive AsksAfter (ctx : HostContext) (vm : VM) :
    Nat → Message → HostState → HostCall → HostState → List Access → Prop
  /-- The query of the code that the call runs. -/
  | own {n : Nat} {msg m : Message} {code : Bytes} {hs hs₁ hs' : HostState} {q : HostCall}
      {xs : List Access} (henters : Enters msg hs m code hs₁)
      (hreach : ReachesAfter (answer ctx (call ctx vm n)) (queryAccesses (keptAccesses ctx vm n))
        (vm n m code) hs₁ q hs' xs) :
      AsksAfter ctx vm (n + 1) msg hs q hs' (createdAccesses msg hs ++ xs)
  /-- A query of a message that is still running. -/
  | nested {n : Nat} {msg m m' : Message} {code : Bytes} {hs hs₁ hs₂ hs' : HostState} {q : HostCall}
      {xs ys : List Access} (henters : Enters msg hs m code hs₁)
      (hsend : ReachesAfter (answer ctx (call ctx vm n)) (queryAccesses (keptAccesses ctx vm n))
        (vm n m code) hs₁ (.call m') hs₂ xs)
      (hasks : AsksAfter ctx vm n m' hs₂ q hs' ys) :
      AsksAfter ctx vm (n + 1) msg hs q hs' (createdAccesses msg hs ++ xs ++ ys)

/-- The code that a call runs, as a function and as a relation. -/
theorem entered_eq_some {msg m : Message} {code : Bytes} {hs hs' : HostState} :
    entered msg hs = some (m, code, hs') ↔ Enters msg hs m code hs' := by
  constructor
  -- Each branch that returns is one constructor.
  · intro h
    unfold entered at h
    split at h
    next msg' hs₁ hprepared =>
      split at h
      next hkind =>
        split at h
        next hs₂ henter =>
          cases h
          exact .create hprepared hkind henter
        next => cases h
      next hkind =>
        split at h
        next hs₂ henter =>
          split at h
          next hs₃ hpre =>
            cases h
            exact .call hprepared hkind henter hpre
          next => cases h
        next => cases h
    next => cases h
  · intro h
    unfold entered
    cases h with
    | create hprepared hkind henter => simp only [hprepared, if_pos hkind, henter]
    | call hprepared hkind henter hpre => simp only [hprepared, if_neg hkind, henter, hpre]

/-- A prepared creation makes the new address warm. -/
theorem createdAccesses_of_prepared {msg msg' : Message} {hs hs₁ : HostState}
    (h : prepareMessage msg hs = .ok (some msg', hs₁)) :
    createdAccesses msg hs = if msg'.kind.IsCreate then [.account msg'.recipient] else [] := by
  unfold createdAccesses
  rw [h]

/-- A refused message accesses nothing. -/
theorem createdAccesses_of_refused {msg : Message} {hs hs₁ : HostState}
    (h : prepareMessage msg hs = .ok (none, hs₁)) : createdAccesses msg hs = [] := by
  unfold createdAccesses
  rw [h]

end history

end Host

/-! ### What the host changes -/

/-- The access statuses of the accounts and of all their slots are the same. -/
structure Account.SameAccess (acc acc' : Account) : Prop where
  account : acc'.accessStatus = acc.accessStatus
  slot : ∀ key, (acc'.storage.slot key).accessStatus = (acc.storage.slot key).accessStatus

/-- The accesses are added to what is warm. -/
def Adds (xs : List Access) (hs hs' : HostState) : Prop := ∀ x, hs'.Warm x ↔ hs.Warm x ∨ x ∈ xs

/-- Accesses accumulate over the steps of a run. -/
theorem accumulates_adds : Accumulates Adds where
  nil _ _ := by simp
  append h h' x := by rw [h' x, h x, List.mem_append, or_assoc]

section

variable {hs hs' : HostState} {addr : Address} {acc acc' : Account}

/-- What changes no status adds nothing. -/
theorem Adds.trans_nil {xs : List Access} {hs'' : HostState} (h : Adds xs hs hs')
    (h' : Adds [] hs' hs'') : Adds xs hs hs'' := by
  simpa only [List.append_nil] using accumulates_adds.append h h'

/-- Writing an account with the same access statuses adds no access. -/
theorem adds_setAcc (h : (accountOr hs addr {}).SameAccess acc) : Adds [] hs (setAcc hs addr acc) := by
  intro x
  cases x with
  | account a =>
    simp only [HostState.Warm, accountOr_setAcc, List.not_mem_nil, or_false]
    split
    next ha => rw [ha, h.account]
    next => rfl
  | slot a k =>
    simp only [HostState.Warm, accountOr_setAcc, List.not_mem_nil, or_false]
    split
    next ha => rw [ha, h.slot k]
    next => rfl

/-- Changing an account that is there adds no access if the statuses stay. -/
theorem adds_setAcc_of_find (hfind : hs.state.find addr = some acc) (h : acc.SameAccess acc') :
    Adds [] hs (setAcc hs addr acc') :=
  adds_setAcc (by rw [accountOr_of_find hfind]; exact h)

/-- The statuses are part of the account map. -/
theorem adds_of_state_eq (h : hs'.state = hs.state) : Adds [] hs hs' := by
  have hacc : ∀ addr account, accountOr hs' addr account = accountOr hs addr account := by
    intro addr account
    rw [accountOr, accountOr, h]
  intro x
  cases x <;> simp [HostState.Warm, hacc]

/-- Marking an account as accessed adds it. -/
theorem adds_warmed (hs : HostState) (addr : Address) :
    Adds [.account addr] hs (warmed hs addr) := by
  have hslot : (accountOr hs addr { erasable := true }).storage = (accountOr hs addr {}).storage := by
    unfold accountOr
    cases hs.state.find addr <;> rfl
  intro x
  unfold warmed
  cases x with
  | account a =>
    simp only [HostState.Warm, accountOr_setAcc, List.mem_singleton, Access.account.injEq]
    split
    next ha => simp [ha]
    next ha => simp [ha]
  | slot a k =>
    simp only [HostState.Warm, accountOr_setAcc, List.mem_singleton, reduceCtorEq, or_false]
    split
    next ha => rw [ha, hslot]
    next => rfl

/-- Touching an account keeps its access statuses. -/
theorem sameAccess_touched (hs : HostState) (addr : Address) :
    (accountOr hs addr {}).SameAccess (touched hs addr) := ⟨rfl, fun _ => rfl⟩

/-- The storage of a new account is cleared, but not its access statuses. -/
theorem sameAccess_newAccount (hs : HostState) (addr : Address) :
    (accountOr hs addr {}).SameAccess (newAccount hs addr) := by
  refine ⟨rfl, fun key => ?_⟩
  unfold newAccount
  rw [slot_clearStorage]

/-- Marking slots of an account as accessed adds them. -/
theorem adds_slots {storage : Storage} {keys : List Bytes32} (hfind : hs.state.find addr = some acc)
    (hslots : ∀ key, (storage.slot key).accessStatus = .warm ↔
      (acc.storage.slot key).accessStatus = .warm ∨ key ∈ keys) :
    Adds (keys.map (.slot addr)) hs (setAcc hs addr { acc with storage }) := by
  intro x
  cases x with
  | account a =>
    simp only [HostState.Warm, accountOr_setAcc, List.mem_map, reduceCtorEq, and_false, exists_false,
      or_false]
    split
    next ha => rw [ha, accountOr_of_find hfind]
    next => rfl
  | slot a k =>
    simp only [HostState.Warm, accountOr_setAcc, List.mem_map, Access.slot.injEq]
    split
    next ha => rw [hslots k, ha, accountOr_of_find hfind]; simp
    next ha => simp [Ne.symm ha]

/-- A transfer adds no access. -/
theorem adds_transfer {sender recipient : Address} {value : Word} {u : Unit}
    (h : transfer sender recipient value hs = .ok (u, hs')) : Adds [] hs hs' := by
  obtain ⟨senderAcc, recipientAcc, hsender, -, hrecipient, rfl⟩ := transfer_ok h
  have hpaid : Adds [] hs (setAcc hs sender { senderAcc with
      balance := senderAcc.balance - value }) :=
    adds_setAcc_of_find hsender ⟨rfl, fun _ => rfl⟩
  exact accumulates_adds.append hpaid (adds_setAcc_of_find hrecipient ⟨rfl, fun _ => rfl⟩)

/-- A revert gives back what was warm at the snapshot. -/
theorem adds_revert (snapshot hs : HostState) : Adds [] snapshot (revert snapshot hs) := by
  have htouched : Adds [] snapshot (setAcc snapshot addr03 (touched snapshot addr03)) :=
    adds_setAcc (sameAccess_touched snapshot addr03)
  rcases revert_state snapshot hs with h | h
  · exact adds_of_state_eq h
  · exact accumulates_adds.append htouched (adds_of_state_eq h)

/-! ### The tree of calls -/

section

variable [Ethash] {ctx : HostContext} {vm : VM} {n fuel : Nat} {msg m : Message} {code : Bytes}
  {hs₁ hs₂ : HostState} {r : CallResult} {q : HostCall} {xs : List Access}

omit [Ethash] in
/-- The nonce update adds no access. -/
theorem adds_bumped {senderAcc : Account} (hfind : hs.state.find msg.sender = some senderAcc) :
    Adds [] hs (bumped hs msg senderAcc) := by
  unfold bumped
  split
  · exact adds_setAcc_of_find hfind ⟨rfl, fun _ => rfl⟩
  · exact accumulates_adds.nil hs

/-- `prepare_message` adds the access to the address of a new contract. -/
theorem adds_prepared {prepared : Option Message}
    (h : prepareMessage msg hs = .ok (prepared, hs₁)) : Adds (createdAccesses msg hs) hs hs₁ := by
  cases prepareMessage_ok h with
  | refused =>
    rw [createdAccesses_of_refused h]
    exact accumulates_adds.nil _
  | call hfind _ hkind =>
    rw [createdAccesses_of_prepared h, if_neg hkind]
    exact adds_bumped hfind
  | create hfind _ hkind =>
    rw [createdAccesses_of_prepared h]
    exact (congrArg (Adds · _ _) (if_pos hkind)).mpr
      (accumulates_adds.append (adds_bumped hfind) (adds_warmed _ _))

omit [Ethash] in
/-- The beginning of a creation adds no access. -/
theorem adds_enterCreate {entered : Bool} (h : enterCreate msg hs = .ok (entered, hs')) :
    Adds [] hs hs' := by
  rcases enterCreate_ok h with ⟨-, rfl⟩ | ⟨-, -, -, htransfer⟩
  · exact accumulates_adds.nil _
  · exact accumulates_adds.append (adds_setAcc (sameAccess_newAccount hs msg.recipient))
      (adds_transfer htransfer)

omit [Ethash] in
/-- The beginning of a call adds no access. -/
theorem adds_enterCall {u : Unit} (h : enterCall msg hs = .ok (u, hs')) : Adds [] hs hs' := by
  rcases enterCall_ok h with ⟨-, rfl⟩ | ⟨-, -, htransfer⟩
  · exact accumulates_adds.nil _
  · exact accumulates_adds.append (adds_setAcc (sameAccess_touched hs msg.recipient))
      (adds_transfer htransfer)

/-- Before its code runs a call adds no other access. -/
theorem adds_enters (h : Enters msg hs m code hs₁) : Adds (createdAccesses msg hs) hs hs₁ := by
  cases h with
  | create hprepared _ henter => exact (adds_prepared hprepared).trans_nil (adds_enterCreate henter)
  | call hprepared _ henter hpre =>
    obtain ⟨-, rfl⟩ := callPrecompile_ok hpre
    exact ((adds_prepared hprepared).trans_nil (adds_enterCall henter)).trans_nil
      (adds_of_state_eq rfl)

/-- A host method adds its own access, or what a nested call keeps. -/
theorem adds_answer {call : Message → HostS CallResult} {kept : Message → HostState → List Access}
    (hcall : ∀ m hs r hs', call m hs = .ok (r, hs') → Adds (kept m hs) hs hs') {a : q.Answer}
    (h : answer ctx call q hs = .ok (a, hs')) : Adds (queryAccesses kept q hs) hs hs' := by
  have hnil := accumulates_adds.nil hs
  cases q with
  | accountExists addr => rw [accountExists_ok h]; exact hnil
  | getStorage addr key => rw [(getStorage_ok h).1]; exact hnil
  -- Writing a slot keeps its status.
  | setStorage addr key value =>
    obtain ⟨acc, hfind, -, rfl⟩ := setStorage_ok h
    refine adds_setAcc_of_find hfind ⟨rfl, fun k => ?_⟩
    unfold Storage.slot
    rw [AList.getD_insert]
    split
    next hk => rw [hk]
    next => rfl
  | getBalance addr => rw [(getBalance_ok h).1]; exact hnil
  | getCodeSize addr => rw [getCodeSize_ok h]; exact hnil
  | getCodeHash addr => rw [getCodeHash_ok h]; exact hnil
  | copyCode addr codeOffset bufferSize => rw [copyCode_ok h]; exact hnil
  | call m => exact hcall m hs a hs' h
  | getTxContext => rw [getTxContext_ok h]; exact hnil
  | getBlockHash number =>
    rw [show hs' = hs from @getBlockHash_ok hs hs' number a h]
    exact hnil
  | emitLog addr data topics =>
    rw [emitLog_ok h]
    exact adds_of_state_eq rfl
  -- Only the accesses themselves add something.
  | accessAccount addr =>
    rw [(accessAccount_ok h).1]
    exact adds_warmed hs addr
  | accessStorage addr key =>
    obtain ⟨acc, hfind, -, rfl⟩ := accessStorage_ok h
    refine @adds_slots _ _ _ _ [key] hfind fun k => ?_
    unfold Storage.slot
    rw [AList.getD_insert, List.mem_singleton]
    split
    next hk => simp [hk]
    next hk => simp [hk]

/-- What a call keeps of its accesses: those of its frames if it succeeds. -/
theorem keptAccesses_of_ok (h : call ctx vm (n + 1) msg hs = .ok (r, hs')) :
    keptAccesses ctx vm (n + 1) msg hs = createdAccesses msg hs ++
      if r.statusCode = .success then
        match entered msg hs with
        | none => []
        | some (m, code, hs₁) => (vm n m code).collect (answer ctx (call ctx vm n))
            (queryAccesses (keptAccesses ctx vm n)) hs₁
      else [] := by
  rw [keptAccesses, h]

/-- A call that has ended adds the accesses it keeps. -/
theorem adds_call (h : call ctx vm n msg hs = .ok (r, hs')) :
    Adds (keptAccesses ctx vm n msg hs) hs hs' := by
  induction n generalizing msg hs r hs' with
  | zero => cases h
  | succ n ih =>
    rw [keptAccesses_of_ok h]
    -- By induction what the nested calls keep is added as they return.
    have henv : ∀ q s a s', answer ctx (call ctx vm n) q s = .ok (a, s') →
        Adds (queryAccesses (keptAccesses ctx vm n) q s) s s' :=
      fun q s a s' hq => adds_answer (fun _ _ _ _ hcall => ih hcall) hq
    have hrun : ∀ {m code hs₁ r hs₂},
        run (answer ctx (call ctx vm n)) (vm n m code) hs₁ = .ok (r, hs₂) →
        Adds ((vm n m code).collect (answer ctx (call ctx vm n))
          (queryAccesses (keptAccesses ctx vm n)) hs₁) hs₁ hs₂ :=
      fun hexec => accumulates_adds.run henv hexec
    cases callWith_ok h with
    | refused hprepared =>
      rw [if_neg nofun, List.append_nil]
      exact adds_prepared hprepared
    -- A failed call reverts to the state in which it was prepared.
    | failed hprepared hexecuted hstatus =>
      rw [if_neg hstatus]
      exact accumulates_adds.append (adds_prepared hprepared) (adds_revert _ _)
    | success hprepared hexecuted hstatus =>
      rw [if_pos hstatus]
      cases hexecuted with
      | collision => cases hstatus
      | create hkind hnonce hcode htransfer hexec hdeploy =>
        have hentered := enterCreate_of_fresh ⟨hnonce, hcode⟩ htransfer
        have henters := Enters.create hprepared hkind hentered
        rw [entered_eq_some.2 henters]
        refine (accumulates_adds.append (adds_enters henters) (hrun hexec)).trans_nil ?_
        cases hdeploy with
        | failed hfailed => exact absurd hstatus hfailed
        | refused | rejected => cases hstatus
        | done _ _ _ _ hfind => exact adds_setAcc_of_find hfind ⟨rfl, fun _ => rfl⟩
      -- A precompile runs no code that could access something.
      | precompile hkind henter hresult =>
        have hnone : entered msg hs = none := by
          unfold entered
          simp only [hprepared, if_neg hkind, henter, callPrecompile_of_result hresult]
        rw [hnone]
        refine accumulates_adds.append (adds_prepared hprepared) ?_
        exact accumulates_adds.append (adds_enterCall henter) (adds_of_state_eq rfl)
      | call hkind henter hresult hexec =>
        have henters := Enters.call hprepared hkind henter (callPrecompile_of_result hresult)
        rw [entered_eq_some.2 henters]
        exact accumulates_adds.append (adds_enters henters) (hrun hexec)

/-- Up to a query in the tree of a call the accesses before it are added. -/
theorem adds_asksAfter (h : AsksAfter ctx vm fuel msg hs q hs' xs) : Adds xs hs hs' := by
  have henv : ∀ n q hs a hs', answer ctx (call ctx vm n) q hs = .ok (a, hs') →
      Adds (queryAccesses (keptAccesses ctx vm n) q hs) hs hs' :=
    fun n q hs a hs' hq => adds_answer (fun _ _ _ _ => adds_call) hq
  induction h with
  | own henters hreach =>
    exact accumulates_adds.append (adds_enters henters) (accumulates_adds.reaches (henv _) hreach)
  | nested henters hsend _ ih =>
    exact accumulates_adds.append (accumulates_adds.append (adds_enters henters)
      (accumulates_adds.reaches (henv _) hsend)) ih

end

/-! ### Transactions -/

section

variable {block : BlockInfo} {tx : Transaction}

/-- What a transaction declares to access. -/
def declaredAccesses (block : BlockInfo) (tx : Transaction) : List Access :=
  .account tx.sender :: tx.to_.toList.map .account ++
    tx.accessList.flatMap (fun item => .account item.1 :: item.2.map (.slot item.1)) ++
    [.account block.coinbase]

/-- The accounts a transaction declares. -/
theorem account_mem_declaredAccesses {addr : Address} :
    .account addr ∈ declaredAccesses block tx ↔ addr = tx.sender ∨ tx.to_ = some addr ∨
      (∃ keys, (addr, keys) ∈ tx.accessList) ∨ addr = block.coinbase := by
  simp [declaredAccesses]

/-- The slots a transaction declares. -/
theorem slot_mem_declaredAccesses {addr : Address} {key : Bytes32} :
    .slot addr key ∈ declaredAccesses block tx ↔
      ∃ keys, (addr, keys) ∈ tx.accessList ∧ key ∈ keys := by
  simp [declaredAccesses]

/-- Declaring keys makes their slots warm. -/
theorem warmSlots_slot (storage : Storage) (keys : List Bytes32) (key : Bytes32) :
    ((warmSlots storage keys).slot key).accessStatus = .warm ↔
      (storage.slot key).accessStatus = .warm ∨ key ∈ keys := by
  unfold warmSlots
  induction keys generalizing storage with
  | nil => simp
  | cons k keys ih =>
    rw [List.foldl_cons, ih]
    unfold Storage.slot
    rw [AList.getD_insert, List.mem_cons]
    split
    next hk => simp [hk]
    next hk => simp [hk]

/-- An item of the access list accesses the account and its keys. -/
theorem adds_accessListItem {item : Address × List Bytes32} {u : Unit}
    (h : accessListItem item hs = .ok (u, hs')) :
    Adds (.account item.1 :: item.2.map (.slot item.1)) hs hs' := by
  unfold accessListItem at h
  obtain ⟨_, s₁, haccess, hrest⟩ := bind_eq_ok.1 h
  obtain ⟨acc, s₂, hget, hset⟩ := bind_eq_ok.1 hrest
  obtain ⟨hfind, rfl⟩ := getAccount_eq_ok.1 hget
  obtain rfl := setAccount_eq_ok.1 hset
  have hslots : Adds (item.2.map (.slot item.1)) s₂
      (setAcc s₂ item.1 { acc with storage := warmSlots acc.storage item.2 }) :=
    adds_slots hfind (warmSlots_slot acc.storage item.2)
  rw [(accessAccount_ok haccess).1] at hslots ⊢
  exact accumulates_adds.append (adds_warmed hs item.1) hslots

/-- What a transaction declares is warm when its message is called. -/
theorem adds_warmUp {u : Unit} (h : warmUp block tx hs = .ok (u, hs')) :
    Adds (declaredAccesses block tx) hs hs' := by
  have hlist : ∀ {items : AccessList} {hs : HostState} {u : Unit} {hs' : HostState},
      items.forM accessListItem hs = .ok (u, hs') →
      Adds (items.flatMap fun item => .account item.1 :: item.2.map (.slot item.1)) hs hs' := by
    intro items
    induction items with
    | nil =>
      intro hs u hs' hrun
      obtain ⟨-, rfl⟩ := pure_eq_ok.1 hrun
      exact accumulates_adds.nil _
    | cons item items ih =>
      intro hs u hs' hrun
      obtain ⟨_, s₁, hitem, hrest⟩ := bind_eq_ok.1 hrun
      exact accumulates_adds.append (adds_accessListItem hitem) (ih hrest)
  have hrest : ∀ {hs : HostState} {u : Unit} {hs' : HostState}, (do
      tx.accessList.forM accessListItem
      let _ ← accessAccount block.coinbase : HostS Unit) hs = .ok (u, hs') →
      Adds (tx.accessList.flatMap (fun item => .account item.1 :: item.2.map (.slot item.1)) ++
        [.account block.coinbase]) hs hs' := by
    intro hs u hs' hrun
    obtain ⟨_, s₁, hitems, hrun⟩ := bind_eq_ok.1 hrun
    obtain ⟨_, s₂, haccess, hrun⟩ := bind_eq_ok.1 hrun
    obtain ⟨-, rfl⟩ := pure_eq_ok.1 hrun
    rw [(accessAccount_ok haccess).1]
    exact accumulates_adds.append (hlist hitems) (adds_warmed _ _)
  unfold warmUp at h
  obtain ⟨senderAcc, s₁, hget, hset⟩ := bind_eq_ok.1 h
  obtain ⟨hfind, rfl⟩ := getAccount_eq_ok.1 hget
  obtain ⟨_, s₂, hsender, hto⟩ := bind_eq_ok.1 hset
  have hsender : Adds [.account tx.sender] s₁ s₂ := by
    rw [setAccount_eq_ok.1 hsender]
    -- The sender exists, so it is marked as accessed in the same way.
    have hwarmed := adds_warmed s₁ tx.sender
    unfold warmed at hwarmed
    rwa [accountOr_of_find hfind] at hwarmed
  unfold declaredAccesses
  rw [List.append_assoc]
  cases htx : tx.to_ with
  | none =>
    rw [htx] at hto
    exact accumulates_adds.append hsender (hrest hto)
  | some to_ =>
    rw [htx] at hto
    obtain ⟨_, s₃, haccess, hlast⟩ := bind_eq_ok.1 hto
    have hrecipient : Adds [.account to_] s₂ s₃ := by
      rw [(accessAccount_ok haccess).1]
      exact adds_warmed s₂ to_
    exact accumulates_adds.append (accumulates_adds.append hsender hrecipient) (hrest hlast)

variable [Ethash] {vm : VM} {fuel : Nat} {executionGasLimit : Int} {hs₁ hs₂ hs₃ : HostState}
  {q : HostCall} {xs : List Access}

omit [Ethash] in
/-- When its message is called a transaction that started on a cold state has warmed what it
declares. -/
theorem warm_of_starts (hcold : ∀ x, ¬ hs.Warm x) (h : Starts block tx hs executionGasLimit hs₁)
    (x : Access) : hs₁.Warm x ↔ x ∈ declaredAccesses block tx := by
  obtain ⟨hs₀, hbuy, hwarm⟩ := h.bought
  have hbought : Adds [] hs { hs₀ with logs := [] } := by
    obtain ⟨-, -, senderAcc, hfind, rfl⟩ := buyGas_ok hbuy
    exact (adds_setAcc_of_find hfind ⟨rfl, fun _ => rfl⟩ : Adds [] hs (setAcc hs tx.sender
      { senderAcc with balance := senderAcc.balance - tx.maxCost block })).trans_nil
      (adds_of_state_eq rfl)
  rw [adds_warmUp hwarm x, hbought x]
  simp [hcold x]

/-- **An access is warm exactly if it was declared or made before**: in a transaction that starts on
a cold state `access_account` answers `WARM` for the sender, the recipient, the access list, the
coinbase, the precompiles and the accounts accessed before, and `access_storage` for the slots of
the access list and those accessed before; accesses inside a message that has failed since do not
count. -/
theorem warm_iff_accessed (hcold : ∀ x, ¬ hs.Warm x)
    (hstarts : Starts block tx hs executionGasLimit hs₁)
    (hasks : AsksAfter ⟨block, tx⟩ vm fuel (buildMessage tx executionGasLimit) hs₁ q hs₂ xs) :
    (∀ addr r, q = .accessAccount addr → accessAccount addr hs₂ = .ok (r, hs₃) →
      (r = .warm ↔ addr = tx.sender ∨ tx.to_ = some addr ∨
        (∃ keys, (addr, keys) ∈ tx.accessList) ∨ addr = block.coinbase ∨
        IsPrecompileAddress addr ∨ .account addr ∈ xs)) ∧
    (∀ addr key r, q = .accessStorage addr key → accessStorage addr key hs₂ = .ok (r, hs₃) →
      (r = .warm ↔ (∃ keys, (addr, keys) ∈ tx.accessList ∧ key ∈ keys) ∨
        .slot addr key ∈ xs)) := by
  -- Warm is what the transaction declares, and what was accessed since and not reverted.
  have hwarm : ∀ x, hs₂.Warm x ↔ x ∈ declaredAccesses block tx ∨ x ∈ xs := fun x => by
    rw [adds_asksAfter hasks x, warm_of_starts hcold hstarts x]
  constructor
  · intro addr r _ h
    have hdeclared := @account_mem_declaredAccesses block tx addr
    have hstatus : hs₂.Warm (.account addr) ↔
        (accountOr hs₂ addr { erasable := true }).accessStatus = .warm := by
      change (accountOr hs₂ addr {}).accessStatus = .warm ↔ _
      unfold accountOr
      cases hs₂.state.find addr <;> rfl
    rw [(accessAccount_ok h).2]
    split
    -- Precompiles are warm whatever their account says.
    next hpre => simp [hpre]
    next hpre =>
      rw [← hstatus, hwarm, hdeclared]
      simp [hpre, or_assoc]
  · intro addr key r _ h
    have hdeclared := @slot_mem_declaredAccesses block tx addr key
    obtain ⟨acc, hfind, rfl, -⟩ := accessStorage_ok h
    have hstatus : hs₂.Warm (.slot addr key) ↔ (acc.storage.slot key).accessStatus = .warm := by
      change ((accountOr hs₂ addr {}).storage.slot key).accessStatus = .warm ↔ _
      rw [accountOr_of_find hfind]
    rw [← hstatus, hwarm, hdeclared]

end

end

/-- A transaction that calls the account `0x10`. -/
def loadingTransaction : Transaction :=
  { gasLimit := 60000, maxGasPrice := 1, maxPriorityGasPrice := 1, sender := 0x20, to_ := some 0x10,
    value := 0 }

/-- The account `0x10` loads its slot `0` twice, and an account can pay for the transaction. -/
def loadingState : HostState :=
  { state := ((⟨∅⟩ : State).set 0x10 { nonce := 1, code := [0x5f, 0x54, 0x5f, 0x54] }).set 0x20
      { balance := 100000 } }

/-- The slot is warm when it is loaded again. -/
theorem warm_iff_accessed_loading : ∃ (_ : Ethash) (executionGasLimit : Int)
    (hs₁ hs₂ hs₃ : HostState) (xs : List Access),
    AsksAfter ⟨plainBlock, loadingTransaction⟩ Baseline.execute 6
      (buildMessage loadingTransaction executionGasLimit) hs₁ (.accessStorage 0x10 0) hs₂ xs ∧
    accessStorage 0x10 0 hs₂ = .ok (.warm, hs₃) ∧
    ((∃ keys, ((0x10 : Address), keys) ∈ loadingTransaction.accessList ∧ (0 : Bytes32) ∈ keys) ∨
      .slot 0x10 0 ∈ xs) := by
  let ethash : Ethash := ⟨fun _ => 0⟩
  let ctx : HostContext := ⟨plainBlock, loadingTransaction⟩
  have hvalid : (validateTransaction { balance := 100000 } plainBlock loadingTransaction).toOption
      = some 39000 := by decide +kernel
  -- The second `SLOAD` of the contract, run up to its question to the host.
  have hasked : ((buyGas plainBlock loadingTransaction loadingState).toOption.bind fun bought =>
      (warmUp plainBlock loadingTransaction { bought.2 with logs := [] }).toOption.bind fun warmed =>
        (entered (buildMessage loadingTransaction 39000) warmed.2).bind fun x =>
          (queryAfter (answer ctx (call ctx Baseline.execute 5))
            (queryAccesses (keptAccesses ctx Baseline.execute 5)) 2
            (Baseline.execute 5 x.1 x.2.1) x.2.2).bind fun y =>
              (accessStorage 0x10 0 y.2.1).toOption.map fun z => (y.1, z.1))
        = some (.accessStorage 0x10 0, .warm) := by decide +kernel
  obtain ⟨⟨u, hs₀⟩, hbuy, hasked⟩ := Option.bind_eq_some_iff.1 hasked
  obtain ⟨⟨u', hs₁⟩, hwarm, hasked⟩ := Option.bind_eq_some_iff.1 hasked
  obtain ⟨⟨m, code, hs⟩, hentered, hasked⟩ := Option.bind_eq_some_iff.1 hasked
  obtain ⟨⟨q, hs₂, xs⟩, hquery, hasked⟩ := Option.bind_eq_some_iff.1 hasked
  obtain ⟨⟨status, hs₃⟩, haccess, hq⟩ := Option.map_eq_some_iff.1 hasked
  obtain ⟨rfl, rfl⟩ := Prod.mk.inj hq
  -- Nothing is warm before the transaction.
  have hcold : ∀ x, ¬ loadingState.Warm x := by
    have hstate : loadingState = setAcc (setAcc { state := ⟨∅⟩ } 0x10
        { nonce := 1, code := [0x5f, 0x54, 0x5f, 0x54] }) 0x20 { balance := 100000 } := rfl
    intro x
    rw [hstate]
    cases x with
    | account addr =>
      change (accountOr _ addr {}).accessStatus ≠ .warm
      rw [accountOr_setAcc, accountOr_setAcc]
      split
      · nofun
      · split <;> nofun
    | slot addr key =>
      change ((accountOr _ addr {}).storage.slot key).accessStatus ≠ .warm
      rw [accountOr_setAcc, accountOr_setAcc]
      split
      · nofun
      · split <;> nofun
  have hstarts : Starts plainBlock loadingTransaction loadingState 39000 hs₁ :=
    ⟨⟨_, by rfl, toOption_eq_some.1 hvalid⟩, hs₀, toOption_eq_some.1 hbuy, toOption_eq_some.1 hwarm⟩
  have hasks : AsksAfter ctx Baseline.execute 6 (buildMessage loadingTransaction 39000) hs₁
      (.accessStorage 0x10 0) hs₂ _ :=
    .own (entered_eq_some.1 hentered) (reachesAfter_of_queryAfter hquery)
  have haccess := toOption_eq_some.1 haccess
  exact ⟨ethash, 39000, hs₁, hs₂, hs₃, _, hasks, haccess,
    ((warm_iff_accessed hcold hstarts hasks).2 0x10 0 .warm rfl haccess).1 rfl⟩

end Zvmone
