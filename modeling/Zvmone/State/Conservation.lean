import Zvmone.State.KeptByCalls
import Zvmone.State.Refunds

/-! # Coins are conserved

The sum of all balances, as a natural number. Calls conserve it for every virtual machine
(`conserves_keptByHost`), a transaction burns the base fee of the gas it used, and withdrawals add their
amounts: `coins_are_conserved`. -/

namespace Zvmone

open Host

/-! ### The sum of all balances -/

/-- The sum of all balances. -/
def State.total (s : State) : Nat := AList.sumBy (fun _ acc => acc.balance.toNat) s.accounts

/-- No account is marked as destructed. -/
def State.NoneDestructed (s : State) : Prop :=
  ∀ addr acc, s.find addr = some acc → acc.destructed = false

section

variable {s : State} {hs hs' : HostState} {addr : Address} {acc acc₀ : Account}

/-- Writing an account exchanges its balance. -/
theorem State.total_set (s : State) (addr : Address) (acc : Account) :
    (s.set addr acc).total + ((s.find addr).getD {}).balance.toNat
      = s.total + acc.balance.toNat :=
  AList.sumBy_insert (d := ({} : Account)) _ rfl

/-- No account has more than the total. -/
theorem State.balance_le_total (s : State) (addr : Address) :
    ((s.find addr).getD {}).balance.toNat ≤ s.total :=
  AList.le_sumBy (d := ({} : Account)) (fun _ (acc : Account) => acc.balance.toNat) (fun _ => rfl)
    fun _ _ => Nat.zero_le _

/-- Writing an account changes the total by its balance. -/
theorem State.total_set_of_find (hfind : s.find addr = some acc₀) :
    (s.set addr acc).total + acc₀.balance.toNat = s.total + acc.balance.toNat := by
  have hset := s.total_set addr acc
  rwa [hfind, Option.getD_some] at hset

/-- A payment out of an existing account that can pay it. -/
theorem State.total_pay {value : Word} (hfind : s.find addr = some acc₀)
    (hvalue : value ≤ acc₀.balance) (acc : Account)
    (hacc : acc.balance = acc₀.balance - value) :
    (s.set addr acc).total + value.toNat = s.total := by
  have hset : (s.set addr acc).total + _ = s.total + _ := State.total_set_of_find hfind
  have hle : value.toNat ≤ acc₀.balance.toNat := hvalue
  rw [hacc, BitVec.toNat_sub_of_le hvalue] at hset
  omega

/-- A payment to an account does not wrap while the sum of all balances fits. -/
theorem State.total_receive {value : Word} (hfits : s.total + value.toNat < 2 ^ 256)
    (hacc : acc.balance = ((s.find addr).getD {}).balance + value) :
    (s.set addr acc).total = s.total + value.toNat := by
  have hset := s.total_set addr acc
  have hle := s.balance_le_total addr
  rw [hacc, BitVec.toNat_add, Nat.mod_eq_of_lt (by omega)] at hset
  omega

/-- States with the same content have the same total. -/
theorem HostState.SameContent.total (h : hs.SameContent hs') : hs'.state.total = hs.state.total :=
  AList.sumBy_congr (d := ({} : Account)) _ (fun _ => rfl) fun addr =>
    congrArg BitVec.toNat (h.accounts addr).balance

/-- Writing an account that is not destructed destructs none. -/
theorem State.NoneDestructed.set (h : s.NoneDestructed) (addr : Address) (acc : Account)
    (hacc : acc.destructed = false) : (s.set addr acc).NoneDestructed := by
  intro a acc' hfind
  rw [State.find_set] at hfind
  split at hfind
  next =>
    cases hfind
    exact hacc
  next => exact h a acc' hfind

/-- A missing account counts as one that is not destructed. -/
theorem State.NoneDestructed.accountOr (h : hs.state.NoneDestructed) (addr : Address)
    (hacc : acc.destructed = false) : (accountOr hs addr acc).destructed = false := by
  unfold Host.accountOr
  cases hfind : hs.state.find addr with
  | none => exact hacc
  | some acc' => exact h addr acc' hfind

/-! ### Conservation -/

/-- No coins are made or lost, as long as the sum of all balances fits into 256 bits, and no account
is marked as destructed. -/
structure Conserves (hs hs' : HostState) : Prop where
  total : hs.state.total < 2 ^ 256 → hs'.state.total = hs.state.total
  destructed : hs.state.NoneDestructed → hs'.state.NoneDestructed

instance : IsPreorder HostState Conserves where
  refl _ := ⟨fun _ => rfl, id⟩
  trans _ _ _ h h' :=
    ⟨fun hfits => (h'.total (h.total hfits ▸ hfits)).trans (h.total hfits),
      h'.destructed ∘ h.destructed⟩

/-- The same accounts, whatever the logs and the cache. -/
theorem conserves_of_eq (h : hs'.state = hs.state) : Conserves hs hs' :=
  ⟨fun _ => by rw [h], fun hnone => h ▸ hnone⟩

/-- Writing an account with the balance of the one before. -/
theorem conserves_setAcc (hbalance : acc.balance = (accountOr hs addr {}).balance)
    (hdestructed : hs.state.NoneDestructed → acc.destructed = false) :
    Conserves hs (setAcc hs addr acc) := by
  refine ⟨fun _ => ?_, fun hnone => hnone.set _ _ (hdestructed hnone)⟩
  have hset := hs.state.total_set addr acc
  rw [hbalance] at hset
  exact Nat.add_right_cancel hset

/-- Writing an account of the same balance conserves the total. -/
theorem conserves_setAcc_of_find (hfind : hs.state.find addr = some acc₀)
    (hbalance : acc.balance = acc₀.balance) (hdestructed : acc.destructed = acc₀.destructed) :
    Conserves hs (setAcc hs addr acc) :=
  conserves_setAcc (by rw [accountOr, hfind, hbalance]; rfl)
    fun hnone => hdestructed.trans (hnone addr acc₀ hfind)

/-- Making an account warm conserves the total. -/
theorem conserves_warmed (hs : HostState) (addr : Address) : Conserves hs (warmed hs addr) := by
  refine conserves_setAcc ?_ fun hnone => hnone.accountOr addr rfl
  unfold accountOr
  cases hs.state.find addr <;> rfl

/-- Touching an account conserves the total. -/
theorem conserves_touched (hs : HostState) (addr : Address) :
    Conserves hs (setAcc hs addr (touched hs addr)) :=
  conserves_setAcc rfl fun hnone => hnone.accountOr addr rfl

/-- A transfer moves coins. -/
theorem conserves_transfer {sender recipient : Address} {value : Word} {u : Unit}
    (h : transfer sender recipient value hs = .ok (u, hs')) : Conserves hs hs' := by
  obtain ⟨senderAcc, recipientAcc, hsender, hvalue, hrecipient, rfl⟩ := transfer_ok h
  constructor
  · intro hfits
    have hpay := State.total_pay hsender hvalue { senderAcc with
      balance := senderAcc.balance - value } rfl
    have hreceive : ∀ s : State, s.total + value.toNat = hs.state.total →
        s.find recipient = some recipientAcc →
        (s.set recipient { recipientAcc with
          balance := recipientAcc.balance + value }).total = hs.state.total := by
      intro s hs hfind
      refine (State.total_receive (by omega) ?_).trans hs
      rw [hfind]
      rfl
    exact hreceive _ hpay hrecipient
  · intro hnone
    have hpaid := hnone.set sender { senderAcc with balance := senderAcc.balance - value }
      (hnone sender senderAcc hsender)
    exact hpaid.set recipient _ (hpaid recipient recipientAcc hrecipient)

end

/-- The host conserves coins. -/
theorem conserves_keptByHost : KeptByHost Conserves where
  step h := by
    cases h with
    | log => exact conserves_of_eq rfl
    | cache => exact conserves_of_eq rfl
    | warm addr => exact conserves_warmed _ addr
    | touch addr => exact conserves_touched _ addr
    | bump hfind => exact conserves_setAcc_of_find hfind rfl rfl
    | store hfind => exact conserves_setAcc_of_find hfind rfl rfl
    | warmSlot hfind => exact conserves_setAcc_of_find hfind rfl rfl
    | transfer h => exact conserves_transfer h
  enter {hs addr} _ _ := conserves_setAcc rfl fun hnone => hnone.accountOr addr rfl
  deploy {hs hs₁ addr acc code} _ _ hafter hfind _ _ := by
    have hnew : Conserves hs (setAcc hs addr (newAccount hs addr)) :=
      conserves_setAcc rfl fun hnone => hnone.accountOr addr rfl
    exact IsTrans.trans _ _ _ hnew
      (IsTrans.trans _ _ _ hafter (conserves_setAcc_of_find hfind rfl rfl))
  revert {hs hs'} _ := by
    -- The balances are those of the snapshot.
    rcases revert_state hs hs' with h | h
    · exact conserves_of_eq h
    · exact IsTrans.trans _ _ _ (conserves_touched hs addr03) (conserves_of_eq h)

/-! ### Transactions -/

section

variable {s : State} {hs hs' : HostState} {block : BlockInfo} {tx : Transaction}

/-- Erasing accounts without balance. -/
theorem State.total_eraseIf {p : Account → Bool}
    (h : ∀ addr acc, s.find addr = some acc → p acc = true → acc.balance = 0) :
    (s.eraseIf p).total = s.total := by
  refine AList.sumBy_filter (s := s.accounts) (fun _ acc => acc.balance.toNat) _ ?_
  intro addr acc hfind hp
  rw [h addr acc hfind (by simpa using hp)]
  rfl

/-- No account is destructed in a state of the same content. -/
theorem HostState.SameContent.noneDestructed (h : hs.SameContent hs')
    (hnone : hs.state.NoneDestructed) : hs'.state.NoneDestructed := by
  intro addr acc hfind
  have hacc : accountOr hs' addr {} = acc := by rw [accountOr, hfind]; rfl
  rw [← hacc, (h.accounts addr).destructed]
  exact hnone.accountOr addr rfl

/-- What the parties of a transaction pay and get, as natural numbers. -/
structure Payments (block : BlockInfo) (tx : Transaction) (gasUsed : Int) : Prop where
  unused : (tx.unused block gasUsed).toNat + gasUsed.toNat * (tx.effectiveGasPrice block).toNat
    = (tx.maxCost block).toNat
  reward : (tx.reward block gasUsed).toNat + gasUsed.toNat * block.baseFeeWord.toNat
    = gasUsed.toNat * (tx.effectiveGasPrice block).toNat

/-- The payments of a valid transaction. -/
theorem payments {senderAcc : Account} {result : CallResult} {gasUsed executionGasLimit : Int}
    (hvalid : ValidTransaction senderAcc block tx executionGasLimit)
    (h : GasAccounting block tx senderAcc result gasUsed) (hlimit : tx.gasLimit < 2 ^ 63) :
    Payments block tx gasUsed := by
  obtain ⟨hprice, -⟩ := effectiveGasPrice_bounds hvalid.fee
  have hpos := h.gasUsed_pos
  have hle := h.gasUsed_le
  have hused := h.usedCost_eq
  have husedLe := h.usedCost_le
  have hmax := (tx.maxCost block).isLt
  have hsplit : gasUsed.toNat * (tx.effectiveGasPrice block).toNat
      = gasUsed.toNat * block.baseFeeWord.toNat + gasUsed.toNat * (tx.priorityGasPrice block).toNat := by
    rw [hprice, Nat.mul_add]
  constructor
  · unfold Transaction.unused
    rw [BitVec.toNat_sub_of_le (by rw [BitVec.le_def, hused]; exact husedLe), hused]
    omega
  · unfold Transaction.reward
    rw [gasCost_toNat (by omega) (by omega) (by omega)]
    omega

/-- The end of a transition pays the sender and the coinbase. -/
theorem settle_total {gasUsed : Int} {u : Unit} (hnone : hs.state.NoneDestructed)
    (hpayments : Payments block tx gasUsed)
    (hfits : hs.state.total + (tx.maxCost block).toNat < 2 ^ 256)
    (h : settle block tx gasUsed hs = .ok (u, hs')) :
    hs'.state.total + gasUsed.toNat * block.baseFeeWord.toNat
      = hs.state.total + (tx.maxCost block).toNat := by
  obtain ⟨-, senderAcc, hfind, rfl⟩ := settle_ok h
  have hunused := hpayments.unused
  have hreward := hpayments.reward
  -- The sender gets back what was not used, the coinbase its reward.
  have hpaid : (paidBack block tx gasUsed hs senderAcc).state.total
      = hs.state.total + (tx.unused block gasUsed).toNat := by
    refine State.total_receive (by omega) ?_
    rw [hfind]
    rfl
  have hnone₁ : (paidBack block tx gasUsed hs senderAcc).state.NoneDestructed :=
    hnone.set _ _ (hnone tx.sender senderAcc hfind)
  have hrewarded : (rewarded block tx gasUsed (paidBack block tx gasUsed hs senderAcc)).state.total
      = (paidBack block tx gasUsed hs senderAcc).state.total + (tx.reward block gasUsed).toNat :=
    State.total_receive (by omega) rfl
  have hnone₂ : (rewarded block tx gasUsed
      (paidBack block tx gasUsed hs senderAcc)).state.NoneDestructed :=
    hnone₁.set _ _ (hnone₁.accountOr block.coinbase rfl)
  -- Nothing is marked as destructed, so nothing is erased.
  have herase := State.total_eraseIf (p := (·.destructed)) fun addr acc hacc hd =>
    absurd hd (by rw [hnone₂ addr acc hacc]; decide)
  dsimp only
  omega

variable [Ethash] {fuel : Nat} {receipt : TransactionReceipt}

/-- A transaction burns the base fee of the gas it used. -/
theorem transition_total (hsettled : hs.state.IsSettled) (hnone : hs.state.NoneDestructed)
    (htotal : hs.state.total < 2 ^ 256) (hlimit : tx.gasLimit < 2 ^ 63)
    (h : transition Baseline.execute fuel block tx hs = .ok (.ok receipt, hs')) :
    hs'.state.total + receipt.gasUsed.toNat * block.baseFeeWord.toNat = hs.state.total := by
  obtain ⟨senderAcc, executionGasLimit, hfind, hvalid, hs₁, result, hs₂, hexecutes⟩ :=
    transition_ok h
  have hvalid := validateTransaction_ok hvalid
  obtain ⟨senderAcc', _, _, _, _, hfind', hexecutes', haccounting⟩ :=
    transition_gasUsed_le_gasLimit hsettled hlimit h
  obtain rfl : senderAcc = senderAcc' := Option.some.inj (hfind.symm.trans hfind')
  have hpayments := payments hvalid haccounting hlimit
  obtain ⟨hs₀, hbuy, hwarm⟩ := hexecutes.bought
  have hwarm := warmUp_sameContent block tx _ _ _ hwarm
  obtain ⟨-, -, senderAcc', hfind', rfl⟩ := buyGas_ok hbuy
  obtain rfl : senderAcc = senderAcc' := Option.some.inj (hfind.symm.trans hfind')
  -- Bought, warmed up, called, settled: the total after each of the four.
  have hbought := State.total_pay hfind haccounting.maxCost_le { senderAcc with
    balance := senderAcc.balance - tx.maxCost block } rfl
  have hwarmed := hwarm.total
  have hnone₁ := hwarm.noneDestructed (hnone.set tx.sender
    { senderAcc with balance := senderAcc.balance - tx.maxCost block }
    (hnone tx.sender senderAcc hfind))
  have hcall := conserves_keptByHost.keeps _ _ _ _ _ hexecutes.called
  have hsettle := hexecutes.settled
  have hused : receipt.gasUsed = gasUsedAfter tx result := by rw [hexecutes.receipt_eq]
  rw [← hused] at hsettle
  have hcalled := hcall.total (by simp only [setAcc_state] at hwarmed; omega)
  have hsettled := settle_total (hcall.destructed hnone₁) hpayments
    (by simp only [setAcc_state] at hwarmed; omega) hsettle
  simp only [setAcc_state] at hwarmed
  omega

omit [Ethash] in
/-- A withdrawal adds its amount. -/
theorem applyWithdrawal_total {withdrawal : Withdrawal}
    (hfits : s.total + withdrawal.getAmount.toNat < 2 ^ 256) :
    (applyWithdrawal s withdrawal).total = s.total + withdrawal.getAmount.toNat := by
  unfold applyWithdrawal
  rw [State.touch_eq]
  dsimp only
  rw [State.set_set]
  exact State.total_receive hfits rfl

omit [Ethash] in
/-- The withdrawals of a block add their amounts. -/
theorem finalize_total {withdrawals : List Withdrawal}
    (hfits : s.total + (withdrawals.map fun w => w.getAmount.toNat).sum < 2 ^ 256) :
    (finalize s withdrawals).total
      = s.total + (withdrawals.map fun w => w.getAmount.toNat).sum := by
  have hfold : ∀ s : State, s.total + (withdrawals.map fun w => w.getAmount.toNat).sum < 2 ^ 256 →
      (withdrawals.foldl applyWithdrawal s).total
        = s.total + (withdrawals.map fun w => w.getAmount.toNat).sum := by
    clear hfits
    induction withdrawals with
    | nil => exact fun _ _ => rfl
    | cons w ws ih =>
      intro s hfits
      rw [List.map_cons, List.sum_cons] at hfits ⊢
      have hw : (applyWithdrawal s w).total = _ := applyWithdrawal_total (by omega)
      rw [List.foldl_cons, ih _ (by omega), hw, Nat.add_assoc]
  have herase : (s.eraseIf fun acc => acc.erasable ∧ acc.IsEmpty).total = s.total :=
    State.total_eraseIf fun _ acc _ hp => by
      have hp : acc.erasable ∧ acc.IsEmpty := by simpa using hp
      exact hp.2.2.2
  unfold finalize
  rw [hfold _ (by rw [herase]; exact hfits), herase]

/-- Coins are conserved: a transaction that is accepted changes the sum of all balances by the base
fee of the gas it used only, and `finalize` changes it by the amounts of the withdrawals. -/
theorem coins_are_conserved (hsettled : hs.state.IsSettled) (hnone : hs.state.NoneDestructed)
    (htotal : hs.state.total < 2 ^ 256) (hlimit : tx.gasLimit < 2 ^ 63)
    (h : transition Baseline.execute fuel block tx hs = .ok (.ok receipt, hs')) :
    (hs'.state.total : Int) = hs.state.total - receipt.gasUsed * block.baseFee.toNat ∧
    ∀ withdrawals : List Withdrawal,
      hs'.state.total + (withdrawals.map fun w => w.getAmount.toNat).sum < 2 ^ 256 →
      (finalize hs'.state withdrawals).total
        = hs'.state.total + (withdrawals.map fun w => w.getAmount.toNat).sum := by
  refine ⟨?_, fun withdrawals hfits => finalize_total hfits⟩
  have hburnt := transition_total hsettled hnone htotal hlimit h
  obtain ⟨_, _, _, _, _, -, -, haccounting⟩ := transition_gasUsed_le_gasLimit hsettled hlimit h
  have hpos := haccounting.gasUsed_pos
  have hfee : block.baseFeeWord.toNat = block.baseFee.toNat :=
    BitVec.toNat_setWidth_of_le (by decide)
  rw [hfee] at hburnt
  have hused : ((receipt.gasUsed.toNat * block.baseFee.toNat : Nat) : Int)
      = receipt.gasUsed * block.baseFee.toNat := by
    rw [Int.natCast_mul, Int.toNat_of_nonneg hpos.le]
  omega

end

/-- The sum of the balances of the state before `clearingTransaction` is 100000. -/
theorem total_clearingState : clearingState.state.total = 100000 := by decide

/-- No account is destructed in the instance. -/
theorem noneDestructed_clearingState : clearingState.state.NoneDestructed := by
  have hempty : (⟨∅⟩ : State).NoneDestructed := fun _ _ h => by cases h
  exact State.NoneDestructed.set (hempty.set _ _ (by rfl)) _ _ (by rfl)

/-- A block with a base fee. -/
def burningBlock : BlockInfo := { plainBlock with baseFee := 1 }

/-- With a base fee of 1 the transaction burns the 21204 gas that it uses, and a withdrawal of two
gplanck adds 2000000000. -/
theorem coins_are_conserved_clearing : ∃ (_ : Ethash) (receipt : TransactionReceipt)
    (hs' : HostState),
    transition Baseline.execute 6 burningBlock clearingTransaction clearingState
      = .ok (.ok receipt, hs') ∧
    clearingState.state.total = 100000 ∧ receipt.gasUsed = 21204 ∧
    hs'.state.total = 78796 ∧ (finalize hs'.state [⟨0x40, 2⟩]).total = 2000078796 := by
  let ethash : Ethash := ⟨fun _ => 0⟩
  -- The transaction is run once for its gas; the totals come from the theorem.
  have hused : ((transition Baseline.execute 6 burningBlock clearingTransaction
      clearingState).toOption.bind fun x => x.1.toOption.map (·.gasUsed)) = some 21204 := by decide
  rcases hrun : transition Baseline.execute 6 burningBlock clearingTransaction clearingState with
    _ | ⟨_ | receipt, hs'⟩ <;> rw [hrun] at hused
  · cases hused
  · cases hused
  have hused : receipt.gasUsed = 21204 := Option.some.inj hused
  obtain ⟨htotal, hfinal⟩ := coins_are_conserved isSettled_clearingState
    noneDestructed_clearingState (by rw [total_clearingState]; decide) (by decide) hrun
  have htotal : hs'.state.total = 78796 := by
    rw [total_clearingState, hused] at htotal
    have hfee : burningBlock.baseFee.toNat = 1 := rfl
    omega
  have hamount : ([⟨0x40, 2⟩].map fun w : Withdrawal => w.getAmount.toNat).sum = 2000000000 := by
    decide
  have hfinal := hfinal [⟨0x40, 2⟩] (by rw [htotal, hamount]; decide)
  rw [htotal, hamount] at hfinal
  exact ⟨ethash, receipt, hs', hrun, total_clearingState, hused, htotal, hfinal⟩

end Zvmone
