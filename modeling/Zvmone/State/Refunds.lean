import Zvmone.State.GasBounds
import Zvmone.State.Rollback
import Zvmone.State.TransitionSteps

/-! # Refunds and the gas used by a transaction

A slot whose original value is not zero but whose current value is stands for a pending refund of
4800. Along every call the pending refunds of all slots grow by at most the refund of its result
(`call_refund`), so the refund of a transaction is not negative, and the transaction uses at most
its gas limit: `transition_gasUsed_le_gasLimit`. -/

namespace Zvmone

open Interaction InstrM Instr Zvmone.Core Host

/-! ### Pending refunds -/

/-- The refund that is pending for a slot. -/
def StorageValue.pending (v : StorageValue) : Int := if v.original ≠ 0 ∧ v.current = 0 then 4800 else 0

/-- The pending refund of a slot is not negative. -/
theorem StorageValue.pending_nonneg (v : StorageValue) : 0 ≤ v.pending := by
  unfold pending
  split <;> decide

/-- The refunds that are pending for a storage. -/
def Storage.pending (storage : Storage) : Int := AList.sumBy (fun _ v => v.pending) storage

/-- The refunds that are pending for all accounts. -/
def State.pending (s : State) : Int := AList.sumBy (fun _ acc => acc.storage.pending) s.accounts

/-- Writing a slot exchanges its pending refund. -/
theorem Storage.pending_insert (storage : Storage) (key : Bytes32) (v : StorageValue) :
    Storage.pending (storage.insert key v) + (storage.slot key).pending
      = storage.pending + v.pending :=
  AList.sumBy_insert _ rfl

/-- The pending refund depends on the current and the original values only. -/
theorem Storage.pending_congr {storage storage' : Storage}
    (hcurrent : ∀ key, (storage'.slot key).current = (storage.slot key).current)
    (horiginal : ∀ key, (storage'.slot key).original = (storage.slot key).original) :
    storage'.pending = storage.pending := by
  refine AList.sumBy_congr (d := {}) _ (fun _ => rfl) fun key => ?_
  show (storage'.slot key).pending = (storage.slot key).pending
  rw [StorageValue.pending, StorageValue.pending, hcurrent, horiginal]

/-- The pending refund of a storage is not negative. -/
theorem Storage.pending_nonneg (storage : Storage) : 0 ≤ storage.pending :=
  AList.sumBy_nonneg _ _ fun _ v => v.pending_nonneg

/-- The pending refund of a state is not negative. -/
theorem State.pending_nonneg (s : State) : 0 ≤ s.pending :=
  AList.sumBy_nonneg _ _ fun _ acc => acc.storage.pending_nonneg

/-- Nothing is pending in the storage of a new account. -/
theorem pending_clearStorage (storage : Storage) : (clearStorage storage).pending = 0 := by
  refine AList.sumBy_congr (s := (∅ : Storage)) (d := {}) _ (fun _ => rfl) fun key => ?_
  unfold clearStorage AList.getD
  rw [AList.lookup_mapValues]
  cases storage.lookup key <;> rfl

/-- Nothing is pending when every slot has its original value. -/
theorem State.pending_eq_zero {s : State}
    (h : ∀ addr acc, s.find addr = some acc → ∀ key,
      (acc.storage.slot key).original = (acc.storage.slot key).current) : s.pending = 0 := by
  refine AList.sumBy_congr (s := (∅ : AList fun _ : Address => Account)) (d := {}) _
    (fun _ => rfl) fun addr => ?_
  have hacc : ∀ acc : Account, (∀ key,
      (acc.storage.slot key).original = (acc.storage.slot key).current) →
      acc.storage.pending = 0 := by
    intro acc hacc
    refine AList.sumBy_congr (s := (∅ : Storage)) (d := {}) _ (fun _ => rfl) fun key => ?_
    show (acc.storage.slot key).pending = 0
    rw [StorageValue.pending, if_neg fun hv => hv.1 (hacc key ▸ hv.2)]
  unfold AList.getD
  cases hfind : s.accounts.lookup addr with
  | none => rfl
  | some acc => exact hacc acc (h addr acc hfind)

section

variable {hs hs' : HostState} {addr : Address} {acc : Account}

/-- Writing an account exchanges its pending refunds. -/
theorem pending_setAcc (hs : HostState) (addr : Address) (acc : Account) :
    (setAcc hs addr acc).state.pending + (accountOr hs addr {}).storage.pending
      = hs.state.pending + acc.storage.pending :=
  AList.sumBy_insert (d := ({} : Account)) _ rfl

/-- Writing an account with the same pending refund keeps that of the state. -/
theorem pending_setAcc_of_eq {hs : HostState} {addr : Address} {acc acc₀ : Account}
    (hfind : hs.state.find addr = some acc₀)
    (h : acc.storage.pending = acc₀.storage.pending) :
    (setAcc hs addr acc).state.pending = hs.state.pending := by
  have hset := pending_setAcc hs addr acc
  rw [show accountOr hs addr {} = acc₀ by rw [accountOr, hfind]; rfl] at hset
  omega

/-- States with the same content have the same pending refund. -/
theorem HostState.SameContent.pending (h : hs.SameContent hs') :
    hs'.state.pending = hs.state.pending := by
  refine AList.sumBy_congr (d := ({} : Account)) _ (fun _ => rfl) fun addr => ?_
  exact Storage.pending_congr (h.accounts addr).current (h.accounts addr).original

/-- A transfer keeps the pending refund. -/
theorem pending_transfer {sender recipient : Address} {value : Word} {u : Unit}
    (h : transfer sender recipient value hs = .ok (u, hs')) :
    hs'.state.pending = hs.state.pending := by
  obtain ⟨senderAcc, recipientAcc, hsender, -, hrecipient, rfl⟩ := transfer_ok h
  calc (setAcc (setAcc hs sender _) recipient _).state.pending
      = (setAcc hs sender _).state.pending := pending_setAcc_of_eq hrecipient rfl
    _ = hs.state.pending := pending_setAcc_of_eq hsender rfl

/-! ### The refund of one storage write -/

/-- A storage write refunds at least what it adds to the pending refunds. -/
theorem pending_le_gasRefund (current original value : Bytes32) (access : AccessStatus) :
    StorageValue.pending ⟨value, original, access⟩ - StorageValue.pending ⟨current, original, access⟩
      ≤ (sstoreCosts (storageStatus current original value)).gasRefund := by
  unfold storageStatus StorageValue.pending
  dsimp only
  by_cases horiginal : original = 0 <;> by_cases hcurrent : current = 0 <;>
    by_cases hvalue : value = 0 <;> by_cases hdirty : original = current <;>
    by_cases hrestored : original = value <;>
    simp_all [sstoreCosts, storageCostSpec, warmStorageReadCost, coldSloadCost]

/-- What `set_storage` adds to the pending refunds is at most the refund of its status. -/
theorem pending_setStorage {key value : Bytes32} {status : StorageStatus}
    (h : setStorage addr key value hs = .ok (status, hs')) :
    hs'.state.pending - hs.state.pending ≤ (sstoreCosts status).gasRefund := by
  obtain ⟨acc, hfind, rfl, rfl⟩ := setStorage_ok h
  have hacc : accountOr hs addr {} = acc := by rw [accountOr, hfind]; rfl
  rcases hslot : acc.storage.slot key with ⟨current, original, access⟩
  have hset := pending_setAcc hs addr { acc with
    storage := acc.storage.insert key ⟨value, original, access⟩ }
  have hinsert := Storage.pending_insert acc.storage key ⟨value, original, access⟩
  have hrefund := pending_le_gasRefund current original value access
  rw [hacc] at hset
  rw [hslot] at hinsert
  dsimp only at hset ⊢
  omega

/-! ### Frames -/

/-- The refund side of the host interface; the ghost state are the pending refunds. What an answer
adds to them is refunded. -/
def refundContract : Contract HostCall.Answer Fault Int where
  pre _ _ := True
  post
    | g, .setStorage _ _ _, status, g' => g' - g ≤ (sstoreCosts status).gasRefund
    | g, .call _, r, g' => g' - g ≤ CallResult.gasRefund r
    | g, _, _, g' => g' = g

/-- Ordinary queries have no part in the refund. -/
theorem refundContract_neutral (g : Int) : refundContract.Neutral g HostCall.IsOrdinaryOrLog :=
  ⟨fun _ _ => trivial, fun q r g' hq h => by cases q <;> first | exact hq.elim | exact h⟩

/-- A step of a frame refunds what it adds to the pending refunds. `g₀` are the pending refunds when
the frame started. -/
theorem Baseline.refundRule {g₀ g gas : Int} {st : ExecutionState} (h : g - g₀ ≤ st.gasRefund) :
    StepRule refundContract (fun _ st g => g - g₀ ≤ st.gasRefund)
      (fun _ st g => st.status = .success → g - g₀ ≤ st.gasRefund) gas st g where
  abort _ := trivial
  neutral := (refundContract_neutral g).mono fun q hq => by cases q <;> trivial
  log _ := refundContract_neutral g
  cont hsame _ _ _ := hsame.gasRefund ▸ h
  fail _ _ hstatus hsuccess := absurd hsuccess hstatus.1
  halt hsame _ _ _ _ _ := hsame.gasRefund ▸ h
  sstore _ access key value := by
    refine ⟨trivial, fun status g' (hg' : g' - g ≤ _) => ?_⟩
    split
    · exact nofun
    · dsimp only
      omega
  call {op l c} _ hsame _ _ _ _ := by
    refine ⟨trivial, fun r g' (hg' : g' - g ≤ r.gasRefund) => ?_⟩
    have hkept : c.state.gasRefund = st.gasRefund := hsame.gasRefund
    simp only [afterCall]
    omega
  create {op l c} _ hsame _ _ _ _ := by
    refine ⟨trivial, fun r g' (hg' : g' - g ≤ r.gasRefund) => ?_⟩
    have hkept : c.state.gasRefund = st.gasRefund := hsame.gasRefund
    simp only [afterCreate]
    omega

variable [Ethash] {ctx : HostContext} {msg : Message} {r : CallResult}

/-- The interpreter refunds what it adds to the pending refunds. -/
theorem Baseline.wp_execute_refund (g₀ : Int) (fuel : Nat) (msg : Message) (code : Bytes) :
    wp refundContract (Baseline.execute fuel msg code) g₀
      fun r g => r.statusCode = .success → g - g₀ ≤ r.gasRefund := by
  refine Baseline.wp_execute (fun _ _ _ h => refundRule h)
    (I := fun _ st g => g - g₀ ≤ st.gasRefund) (by simp [ExecutionState.init]) ?_
  intro gas st g h (hsuccess : st.status = .success)
  simp only [ExecutionState.result, if_pos hsuccess]
  exact h hsuccess

namespace Host

/-! ### Calls -/

/-- What a computation adds to the pending refunds is refunded by its result. -/
def Refunds (hs : HostState) (r : CallResult) (hs' : HostState) : Prop :=
  hs'.state.pending - hs.state.pending ≤ r.gasRefund

omit [Ethash] in
/-- The nonce update of `prepare_message` keeps the pending refund. -/
theorem pending_bumped {senderAcc : Account} (hfind : hs.state.find msg.sender = some senderAcc) :
    (bumped hs msg senderAcc).state.pending = hs.state.pending := by
  unfold bumped
  split
  · exact pending_setAcc_of_eq hfind rfl
  · rfl

/-- `prepare_message` keeps the pending refund. -/
theorem Prepared.pending {prepared : Option Message} (h : Prepared msg hs prepared hs') :
    hs'.state.pending = hs.state.pending := by
  cases h with
  | refused => rfl
  | call hfind => exact pending_bumped hfind
  | create hfind =>
    rw [(HostState.SameContent.warmed _ _).pending]
    exact pending_bumped hfind

omit [Ethash] in
/-- Entering a call keeps the pending refund. -/
theorem pending_enterCall {u : Unit} (h : enterCall msg hs = .ok (u, hs')) :
    hs'.state.pending = hs.state.pending := by
  rcases enterCall_ok h with ⟨-, rfl⟩ | ⟨-, -, htransfer⟩
  · rfl
  · rw [pending_transfer htransfer]
    exact (HostState.SameContent.touched hs msg.recipient).pending

omit [Ethash] in
/-- A new account takes its slots out of the pending refunds. -/
theorem pending_newAccount (hs : HostState) (addr : Address) :
    (setAcc hs addr (newAccount hs addr)).state.pending ≤ hs.state.pending := by
  have hset := pending_setAcc hs addr (newAccount hs addr)
  have hnew : (newAccount hs addr).storage.pending = 0 := pending_clearStorage _
  have hold := (accountOr hs addr {}).storage.pending_nonneg
  omega

omit [Ethash] in
/-- Deploying code keeps the pending refund. -/
theorem Deployed.pending {result : CallResult} (h : Deployed msg result hs r hs') :
    hs'.state.pending = hs.state.pending := by
  cases h with
  | failed => rfl
  | refused => rfl
  | rejected => rfl
  | done _ _ _ _ hfind => exact pending_setAcc_of_eq hfind rfl

/-- A message that was executed with success refunds what it adds to the pending refunds. -/
theorem Executed.refunds {exec : Exec} (hexec : ∀ (m : Message) code hs r hs',
      exec m code hs = .ok (r, hs') → r.statusCode = .success → Refunds hs r hs')
    (h : Executed exec msg hs r hs') (hr : r.statusCode = .success) : Refunds hs r hs' := by
  unfold Refunds
  cases h with
  | collision => cases hr
  | create _ _ _ htransfer hrun hdeploy =>
    have htransfer := pending_transfer htransfer
    have hnew := pending_newAccount hs msg.recipient
    have hdeployed := hdeploy.pending
    cases hdeploy with
    | failed hstatus => exact absurd hr hstatus
    | refused => cases hr
    | rejected => cases hr
    | done hstatus =>
      -- The new account has nothing pending, and deploying code keeps what the run left.
      have hrun := hexec _ _ _ _ _ hrun hstatus
      unfold Refunds at hrun
      dsimp only
      omega
  | precompile _ henter hresult =>
    have henter := pending_enterCall henter
    rw [(Precompiles.callPrecompile_answered hresult).gasRefund]
    dsimp only
    omega
  | call _ henter _ hrun =>
    have henter := pending_enterCall henter
    have hrun := hexec _ _ _ _ _ hrun hr
    unfold Refunds at hrun
    dsimp only at hrun
    omega

omit [Ethash] in
/-- A revert gives back the pending refund of the snapshot. -/
theorem pending_revert (snapshot hs : HostState) :
    (revert snapshot hs).state.pending = snapshot.state.pending := by
  rcases revert_state snapshot hs with h | h <;> rw [h]
  exact (HostState.SameContent.touched snapshot addr03).pending

/-- Host methods keep the refund contract, if `call` does. -/
theorem answer_refund {call : Message → HostS CallResult}
    (hcall : ∀ m hs r hs', call m hs = .ok (r, hs') → Refunds hs r hs')
    (hs : HostState) (q : HostCall) (r : q.Answer) (hs' : HostState)
    (h : answer ctx call q hs = .ok (r, hs')) :
    refundContract.post hs.state.pending q r hs'.state.pending := by
  cases q with
  | accountExists addr => exact accountExists_ok h ▸ rfl
  | getStorage addr key => exact (getStorage_ok h).1 ▸ rfl
  | setStorage addr key value => exact pending_setStorage h
  | getBalance addr => exact (getBalance_ok h).1 ▸ rfl
  | getCodeSize addr => exact getCodeSize_ok h ▸ rfl
  | getCodeHash addr => exact getCodeHash_ok h ▸ rfl
  | copyCode addr codeOffset bufferSize => exact copyCode_ok h ▸ rfl
  | call m => exact hcall m hs r hs' h
  | getTxContext => exact getTxContext_ok h ▸ rfl
  | getBlockHash number => exact (show hs' = hs from @getBlockHash_ok hs hs' number r h) ▸ rfl
  | emitLog addr data topics => exact emitLog_ok h ▸ rfl
  | accessAccount addr =>
    rw [(accessAccount_ok h).1]
    exact (HostState.SameContent.warmed hs addr).pending
  | accessStorage addr key =>
    obtain ⟨acc, hfind, -, rfl⟩ := accessStorage_ok h
    exact (HostState.SameContent.setAcc_of_find hfind (Storage.sameContent_insert rfl rfl)).pending

/-- Every call refunds what it adds to the pending refunds. -/
theorem call_refund (fuel : Nat) (m : Message) (hs : HostState) (r : CallResult) (hs' : HostState)
    (h : call ctx Baseline.execute fuel m hs = .ok (r, hs')) : Refunds hs r hs' := by
  induction fuel generalizing m hs r hs' with
  | zero => cases h
  | succ n ih =>
    have hexec : ∀ (m : Message) code hs r hs',
        execVm ctx Baseline.execute (call ctx Baseline.execute n) n m code hs = .ok (r, hs') →
        r.statusCode = .success → Refunds hs r hs' := by
      intro m code hs r hs' hrun hr
      -- The ghost is what the host's state has pending.
      obtain ⟨g', rfl, hwp⟩ := run_wp (R := fun hs g => hs.state.pending = g)
        (fun hs g q r hs' hg _ h => ⟨_, hg ▸ answer_refund ih hs q r hs' h, rfl⟩)
        (Baseline.wp_execute_refund hs.state.pending n m code) rfl hrun
      exact hwp hr
    unfold Refunds
    cases callWith_ok h with
    | refused hprepared =>
      rw [(prepareMessage_ok hprepared).pending]
      exact (sub_self _).le
    | success hprepared hexecuted hstatus =>
      rw [← (prepareMessage_ok hprepared).pending]
      exact hexecuted.refunds hexec hstatus
    | failed hprepared hexecuted hstatus =>
      -- A failure returns no refund, and the rollback takes the pending ones back too.
      have hbare : r.IsBare := hexecuted.isBare
        (fun m code s r s' hrun => (Baseline.execute_failsBare n m code).run hrun) hstatus
      rw [pending_revert, (prepareMessage_ok hprepared).pending, hbare.gasRefund]
      exact (sub_self _).le

end Host

end

/-! ### Prices -/

/-- The effective gas price is the base fee plus what goes to the coinbase, and at most the maximum
the sender pays. -/
theorem effectiveGasPrice_bounds {block : BlockInfo} {tx : Transaction}
    (h : block.baseFeeWord ≤ tx.maxGasPrice) :
    (tx.effectiveGasPrice block).toNat
        = block.baseFeeWord.toNat + (tx.priorityGasPrice block).toNat ∧
      (tx.effectiveGasPrice block).toNat ≤ tx.maxGasPrice.toNat := by
  have hle : block.baseFeeWord.toNat ≤ tx.maxGasPrice.toNat := h
  have hmax := tx.maxGasPrice.isLt
  have htip : (tx.priorityGasPrice block).toNat ≤ (tx.maxGasPrice - block.baseFeeWord).toNat := by
    unfold Transaction.priorityGasPrice
    dsimp only
    split
    next => exact le_rfl
    next hlt => exact BitVec.not_lt.1 hlt
  rw [BitVec.toNat_sub_of_le h] at htip
  have hadd : (tx.effectiveGasPrice block).toNat
      = block.baseFeeWord.toNat + (tx.priorityGasPrice block).toNat :=
    (BitVec.toNat_add _ _).trans (Nat.mod_eq_of_lt (by omega))
  exact ⟨hadd, by omega⟩

/-- A number of 64 bits that is not negative keeps its value as a word. -/
theorem ofInt64_toNat {x : Int} (hnonneg : 0 ≤ x) (hlt : x < 2 ^ 63) :
    (Word.ofInt64 x).toNat = x.toNat := by
  unfold Word.ofInt64
  rw [BitVec.toNat_ofNat, Int.emod_eq_of_lt hnonneg (by omega)]
  exact Nat.mod_eq_of_lt (by omega)

/-- The price of gas that does not wrap. -/
theorem gasCost_toNat {x : Int} {price : Word} (hnonneg : 0 ≤ x) (hlt : x < 2 ^ 63)
    (hfits : x.toNat * price.toNat < 2 ^ 256) :
    (Word.ofInt64 x * price).toNat = x.toNat * price.toNat := by
  rw [BitVec.toNat_mul, ofInt64_toNat hnonneg hlt]
  exact Nat.mod_eq_of_lt hfits

/-! ### Transactions -/

/-- Every slot of every account has its original value. -/
def State.IsSettled (s : State) : Prop :=
  ∀ addr acc, s.find addr = some acc → ∀ key,
    (acc.storage.slot key).original = (acc.storage.slot key).current

/-- How the gas of a transaction is accounted for, given the sender before the transaction and the
result of the call. -/
structure GasAccounting (block : BlockInfo) (tx : Transaction) (senderAcc : Account)
    (result : CallResult) (gasUsed : Int) : Prop where
  gasRefund_nonneg : 0 ≤ result.gasRefund
  gasUsed_pos : 0 < gasUsed
  gasUsed_le : gasUsed ≤ tx.gasLimit
  /-- The refund granted is at most one fifth of the gas used before it. -/
  refund_le : 0 ≤ tx.gasLimit - result.gasLeft - gasUsed ∧
    5 * (tx.gasLimit - result.gasLeft - gasUsed) ≤ tx.gasLimit - result.gasLeft
  /-- The sender can pay for the gas limit. -/
  maxCost_eq : (tx.maxCost block).toNat = tx.gasLimit.toNat * (tx.effectiveGasPrice block).toNat
  maxCost_le : (tx.maxCost block).toNat ≤ senderAcc.balance.toNat
  /-- The gas used costs no more than what the sender paid. -/
  usedCost_eq : (Word.ofInt64 gasUsed * tx.effectiveGasPrice block).toNat
    = gasUsed.toNat * (tx.effectiveGasPrice block).toNat
  usedCost_le : gasUsed.toNat * (tx.effectiveGasPrice block).toNat ≤ (tx.maxCost block).toNat

/-- The prices and the gas of a valid transaction do not overflow. -/
theorem gasAccounting {block : BlockInfo} {tx : Transaction} {senderAcc : Account}
    {executionGasLimit : Int} {result : CallResult}
    (hvalid : ValidTransaction senderAcc block tx executionGasLimit) (hlimit : tx.gasLimit < 2 ^ 63)
    (hrefund : 0 ≤ result.gasRefund) (hleft : 0 ≤ result.gasLeft)
    (hle : result.gasLeft ≤ executionGasLimit) :
    GasAccounting block tx senderAcc result (gasUsedAfter tx result) := by
  have hgas := hvalid.gas
  have hintrinsic := computeTxIntrinsicCost_ge tx
  have hcost := hvalid.intrinsic
  obtain ⟨-, hprice⟩ := effectiveGasPrice_bounds hvalid.fee
  -- Below 2 ^ 63 the int64 difference is the exact one, and a fifth of the burnt gas caps the refund.
  have hused : 0 < gasUsedAfter tx result ∧ gasUsedAfter tx result ≤ tx.gasLimit ∧
      0 ≤ tx.gasLimit - result.gasLeft - gasUsedAfter tx result ∧
      5 * (tx.gasLimit - result.gasLeft - gasUsedAfter tx result)
        ≤ tx.gasLimit - result.gasLeft := by
    have hexact : exactGasUsed tx result < 2 ^ 63 :=
      (exactGasUsed_le hleft le_rfl (by omega) (by omega)).trans_lt (by omega)
    rw [gasUsedAfter_eq_exactGasUsed (by omega) (by omega) hexact]
    unfold exactGasUsed
    omega
  obtain ⟨hpos, hle', hgranted⟩ := hused
  -- The sender can pay the whole gas limit, so none of the products wraps.
  have hlimitCost : tx.gasLimit.toNat * (tx.effectiveGasPrice block).toNat
      ≤ senderAcc.balance.toNat := by
    have hfunds := hvalid.funds
    rw [ofInt64_toNat (by omega) hlimit] at hfunds
    have := Nat.mul_le_mul_left tx.gasLimit.toNat hprice
    omega
  have hbalance := senderAcc.balance.isLt
  have hmax : (tx.maxCost block).toNat = tx.gasLimit.toNat * (tx.effectiveGasPrice block).toNat :=
    gasCost_toNat (by omega) hlimit (by omega)
  have husedCost : (gasUsedAfter tx result).toNat * (tx.effectiveGasPrice block).toNat
      ≤ tx.gasLimit.toNat * (tx.effectiveGasPrice block).toNat :=
    Nat.mul_le_mul_right _ (by omega)
  exact ⟨hrefund, hpos, hle', hgranted, hmax, by omega,
    gasCost_toNat (by omega) (by omega) (by omega), by omega⟩

section

variable [Ethash] {block : BlockInfo} {tx : Transaction} {hs hs' hs₁ hs₂ : HostState}
  {fuel : Nat} {executionGasLimit : Int} {receipt : TransactionReceipt} {result : CallResult}

omit [Ethash] in
/-- Buying gas keeps the pending refund. -/
theorem buyGas_pending {hs₀ : HostState} {u : Unit} (h : buyGas block tx hs = .ok (u, hs₀)) :
    hs₀.state.pending = hs.state.pending := by
  obtain ⟨-, -, senderAcc, hfind, rfl⟩ := buyGas_ok h
  exact pending_setAcc_of_eq hfind rfl

/-- The call of a transaction takes back no more refunds than were pending. -/
theorem neg_pending_le_gasRefund
    (hbought : ∃ hs₀, buyGas block tx hs = .ok ((), hs₀) ∧
      warmUp block tx { hs₀ with logs := [] } = .ok ((), hs₁))
    (hcall : call ⟨block, tx⟩ Baseline.execute fuel (buildMessage tx executionGasLimit) hs₁
      = .ok (result, hs₂)) : -hs.state.pending ≤ result.gasRefund := by
  obtain ⟨hs₀, hbuy, hwarm⟩ := hbought
  have hbought := buyGas_pending hbuy
  have hwarmed := (warmUp_sameContent block tx _ _ _ hwarm).pending
  have hrefund := call_refund _ _ _ _ _ hcall
  have hnonneg := hs₂.state.pending_nonneg
  unfold Refunds at hrefund
  dsimp only at hwarmed
  omega

/-- The call of an executed transaction takes back no more refunds than were pending. -/
theorem Executes.neg_pending_le_gasRefund
    (h : Executes Baseline.execute fuel block tx executionGasLimit hs receipt hs' hs₁ result hs₂) :
    -hs.state.pending ≤ result.gasRefund :=
  Zvmone.neg_pending_le_gasRefund h.bought h.called

/-- The refund of the call of a transaction is not negative. -/
theorem Executes.gasRefund_nonneg (hsettled : hs.state.IsSettled)
    (h : Executes Baseline.execute fuel block tx executionGasLimit hs receipt hs' hs₁ result hs₂) :
    0 ≤ result.gasRefund := by
  have hzero := State.pending_eq_zero hsettled
  have hle := h.neg_pending_le_gasRefund
  omega

/-- A transaction never uses more gas than its limit: in a state where every slot has its original
value, the refund of the call of an accepted transaction is not negative, the gas used is positive
and at most the gas limit, and nothing that is paid or paid back wraps. -/
theorem transition_gasUsed_le_gasLimit (hsettled : hs.state.IsSettled)
    (hlimit : tx.gasLimit < 2 ^ 63)
    (h : transition Baseline.execute fuel block tx hs = .ok (.ok receipt, hs')) :
    ∃ senderAcc executionGasLimit hs₁ result hs₂, hs.state.find tx.sender = some senderAcc ∧
      Executes Baseline.execute fuel block tx executionGasLimit hs receipt hs' hs₁ result hs₂ ∧
      GasAccounting block tx senderAcc result receipt.gasUsed := by
  obtain ⟨senderAcc, executionGasLimit, hfind, hvalid, hs₁, result, hs₂, hexecutes⟩ :=
    transition_ok h
  have hvalid := validateTransaction_ok hvalid
  have hgas : 0 ≤ (buildMessage tx executionGasLimit).gas := by
    have hgas := hvalid.gas
    have hcost := hvalid.intrinsic
    show 0 ≤ executionGasLimit
    omega
  have hbounded := call_isBounded _ _ _ _ _ hgas hexecutes.called
  refine ⟨senderAcc, executionGasLimit, hs₁, result, hs₂, hfind, hexecutes, ?_⟩
  rw [hexecutes.receipt_eq]
  exact gasAccounting hvalid hlimit (hexecutes.gasRefund_nonneg hsettled) hbounded.1 hbounded.2

end

/-- A block without a base fee. -/
def plainBlock : BlockInfo := { coinbase := 0x30, gasLimit := 1000000 }

/-- A transaction that calls the account `0x10`. -/
def clearingTransaction : Transaction :=
  { gasLimit := 30000, maxGasPrice := 1, maxPriorityGasPrice := 1, sender := 0x20,
    to_ := some 0x10, value := 0 }

/-- The account `0x10` clears its slot 0 by `PUSH0 PUSH0 SSTORE STOP`. -/
def clearingState : HostState :=
  { state := ((⟨∅⟩ : State).set 0x10
      { nonce := 1, code := [0x5f, 0x5f, 0x55, 0x00]
        storage := (∅ : Storage).insert 0 { current := 1, original := 1 } }).set 0x20
      { balance := 100000 } }

/-- Every slot of the instance has its original value. -/
theorem isSettled_clearingState : clearingState.state.IsSettled := by
  intro addr acc hfind key
  unfold clearingState at hfind
  rw [State.find_set, State.find_set] at hfind
  split at hfind
  next =>
    cases hfind
    rfl
  next =>
    split at hfind
    next =>
      cases hfind
      unfold Storage.slot
      rw [AList.getD_insert]
      split <;> rfl
    next => cases hfind

/-- The transaction gets 4800 of its 26004 gas back. -/
theorem transition_gasUsed_le_gasLimit_clearing : ∃ (_ : Ethash) (receipt : TransactionReceipt)
    (hs' : HostState) (senderAcc : Account) (result : CallResult),
    transition Baseline.execute 6 plainBlock clearingTransaction clearingState
      = .ok (.ok receipt, hs') ∧ receipt.gasUsed = 21204 ∧
    GasAccounting plainBlock clearingTransaction senderAcc result receipt.gasUsed := by
  let ethash : Ethash := ⟨fun _ => 0⟩
  have hused : ((transition Baseline.execute 6 plainBlock clearingTransaction
      clearingState).toOption.bind fun x => x.1.toOption.map (·.gasUsed)) = some 21204 := by decide
  rcases hrun : transition Baseline.execute 6 plainBlock clearingTransaction clearingState with
    _ | ⟨_ | receipt, hs'⟩ <;> rw [hrun] at hused
  · cases hused
  · cases hused
  have hused : receipt.gasUsed = 21204 := Option.some.inj hused
  obtain ⟨senderAcc, _, _, result, _, -, -, h⟩ :=
    transition_gasUsed_le_gasLimit isSettled_clearingState (by decide) hrun
  exact ⟨ethash, receipt, hs', senderAcc, result, hrun, hused, h⟩

end Zvmone
