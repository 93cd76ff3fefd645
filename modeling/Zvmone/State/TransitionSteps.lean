import Zvmone.State.HostSteps
import Zvmone.State.Transition

/-! # The phases of a transition

Inversion lemmas for the phases of `transition`. What happens before the call besides the purchase
of gas only changes access statuses (`SameContent`). -/

namespace Zvmone

open Host

/-! ### Gas in 64 bits -/

/-- An exact result becomes itself if, and only if, it can be represented. -/
theorem wrapInt64_eq_self_iff {x : Int} : wrapInt64 x = x ↔ -2 ^ 63 ≤ x ∧ x < 2 ^ 63 := by
  unfold wrapInt64
  rw [Int.bmod_eq_iff (by decide)]
  have hrange : ((2 ^ 64 : Nat) : Int) = 2 ^ 64 := rfl
  omega

/-- What is computed after a sum depends on the exact sum only. -/
theorem wrapInt64_wrapInt64_add (x y : Int) : wrapInt64 (wrapInt64 x + y) = wrapInt64 (x + y) :=
  Int.bmod_add_bmod

/-- The result is a number of 64 bits. -/
theorem wrapInt64_bounds (x : Int) : -2 ^ 63 ≤ wrapInt64 x ∧ wrapInt64 x < 2 ^ 63 :=
  ⟨Int.le_bmod (by decide), Int.bmod_lt (by decide)⟩

/-- An overflow at the upper end gives a smaller number. -/
theorem wrapInt64_le {x : Int} (hle : -2 ^ 63 ≤ x) : wrapInt64 x ≤ x := by
  rcases lt_or_ge x (2 ^ 63) with hlt | hge
  · exact (wrapInt64_eq_self_iff.2 ⟨hle, hlt⟩).le
  · exact ((wrapInt64_bounds x).2.trans_le hge).le

/-- Exact results in the upper half of 64 unsigned bits become negative. -/
theorem wrapInt64_neg {x : Int} (hle : 2 ^ 63 ≤ x) (hlt : x < 2 ^ 64) : wrapInt64 x < 0 := by
  have heq : wrapInt64 x = x - 2 ^ 64 := by
    unfold wrapInt64
    rw [Int.bmod_eq_iff (by decide)]
    have hrange : ((2 ^ 64 : Nat) : Int) = 2 ^ 64 := rfl
    exact ⟨by omega, by omega, by omega⟩
  omega

section

variable {tx : Transaction} {result : CallResult}

/-- The gas used by a transaction after the call as an exact number. -/
def exactGasUsed (tx : Transaction) (result : CallResult) : Int :=
  tx.gasLimit - result.gasLeft - min result.gasRefund ((tx.gasLimit - result.gasLeft) / 5)

/-- The gas used is the exact number in 64 bits. -/
theorem gasUsedAfter_eq_wrapInt64 (hnonneg : 0 ≤ tx.gasLimit - result.gasLeft)
    (hlt : tx.gasLimit - result.gasLeft < 2 ^ 63) :
    gasUsedAfter tx result = wrapInt64 (exactGasUsed tx result) := by
  have hfits : wrapInt64 (tx.gasLimit - result.gasLeft) = tx.gasLimit - result.gasLeft :=
    wrapInt64_eq_self_iff.2 ⟨by omega, hlt⟩
  unfold gasUsedAfter exactGasUsed
  dsimp only
  rw [hfits, Int.tdiv_eq_ediv_of_nonneg hnonneg]

/-- The gas used is exact as long as it can be represented. -/
theorem gasUsedAfter_eq_exactGasUsed (hnonneg : 0 ≤ tx.gasLimit - result.gasLeft)
    (hlt : tx.gasLimit - result.gasLeft < 2 ^ 63) (hused : exactGasUsed tx result < 2 ^ 63) :
    gasUsedAfter tx result = exactGasUsed tx result := by
  have hpos : 0 ≤ exactGasUsed tx result := by unfold exactGasUsed; omega
  rw [gasUsedAfter_eq_wrapInt64 hnonneg hlt]
  exact wrapInt64_eq_self_iff.2 ⟨by omega, hused⟩

/-- Every transaction that does not give back all gas uses gas: the refund is at most a fifth. -/
theorem exactGasUsed_pos (hpos : 0 < tx.gasLimit - result.gasLeft) : 0 < exactGasUsed tx result := by
  unfold exactGasUsed
  omega

/-- At most the refunds that are taken back are used on top of the gas limit. -/
theorem exactGasUsed_le {pending : Int} (hleft : 0 ≤ result.gasLeft) (hpending : 0 ≤ pending)
    (hnonneg : 0 ≤ tx.gasLimit - result.gasLeft) (hrefund : -pending ≤ result.gasRefund) :
    exactGasUsed tx result ≤ tx.gasLimit + pending := by
  unfold exactGasUsed
  omega

end

/-! ### Changes of access statuses -/

/-- Two accounts differ at most in access statuses and the mark for erasure. -/
structure Account.SameContent (acc acc' : Account) : Prop where
  nonce : acc'.nonce = acc.nonce
  balance : acc'.balance = acc.balance
  code : acc'.code = acc.code
  destructed : acc'.destructed = acc.destructed
  current : ∀ key, (acc'.storage.slot key).current = (acc.storage.slot key).current
  original : ∀ key, (acc'.storage.slot key).original = (acc.storage.slot key).original

/-- An account has its own content. -/
theorem Account.SameContent.refl (acc : Account) : acc.SameContent acc :=
  ⟨rfl, rfl, rfl, rfl, fun _ => rfl, fun _ => rfl⟩

/-- Having the same content is transitive. -/
theorem Account.SameContent.trans {acc₁ acc₂ acc₃ : Account} (h : acc₁.SameContent acc₂)
    (h' : acc₂.SameContent acc₃) : acc₁.SameContent acc₃ :=
  ⟨h'.nonce.trans h.nonce, h'.balance.trans h.balance, h'.code.trans h.code,
    h'.destructed.trans h.destructed, fun key => (h'.current key).trans (h.current key),
    fun key => (h'.original key).trans (h.original key)⟩

/-- Writing to a slot without changing its values. -/
theorem Storage.sameContent_insert {acc : Account} {key : Bytes32} {v : StorageValue}
    (hcurrent : v.current = (acc.storage.slot key).current)
    (horiginal : v.original = (acc.storage.slot key).original) :
    acc.SameContent { acc with storage := acc.storage.insert key v } := by
  refine ⟨rfl, rfl, rfl, rfl, fun k => ?_, fun k => ?_⟩ <;>
    · unfold Storage.slot at *
      rw [AList.getD_insert]
      split
      next hk => rw [hk]; assumption
      next => rfl

/-- Two host states differ at most in access statuses and marks for erasure. -/
structure HostState.SameContent (hs hs' : HostState) : Prop where
  logs : hs'.logs = hs.logs
  accounts : ∀ addr, (accountOr hs addr {}).SameContent (accountOr hs' addr {})

namespace HostState.SameContent

variable {hs hs' : HostState} {addr : Address} {acc acc₀ : Account}

instance : IsPreorder HostState HostState.SameContent where
  refl _ := ⟨rfl, fun _ => .refl _⟩
  trans _ _ _ h h' := ⟨h'.logs.trans h.logs, fun addr => (h.accounts addr).trans (h'.accounts addr)⟩

/-- Writing an account of the same content keeps the content of the state. -/
theorem setAcc (h : (accountOr hs addr {}).SameContent acc) :
    hs.SameContent (Host.setAcc hs addr acc) := by
  refine ⟨rfl, fun a => ?_⟩
  rw [accountOr_setAcc]
  split
  next ha => rw [ha]; exact h
  next => exact .refl _

/-- Changing an account that is there keeps the content of the state if its own stays. -/
theorem setAcc_of_find (hfind : hs.state.find addr = some acc₀) (h : acc₀.SameContent acc) :
    hs.SameContent (Host.setAcc hs addr acc) :=
  setAcc (by rw [accountOr_of_find hfind]; exact h)

/-- Making an account warm keeps the content of the state. -/
theorem warmed (hs : HostState) (addr : Address) : hs.SameContent (Host.warmed hs addr) := by
  refine setAcc ?_
  unfold accountOr
  cases hs.state.find addr <;> exact ⟨rfl, rfl, rfl, rfl, fun _ => rfl, fun _ => rfl⟩

/-- Touching an account keeps the content of the state. -/
theorem touched (hs : HostState) (addr : Address) :
    hs.SameContent (Host.setAcc hs addr (Host.touched hs addr)) :=
  setAcc ⟨rfl, rfl, rfl, rfl, fun _ => rfl, fun _ => rfl⟩

end HostState.SameContent

/-- Making slots warm keeps the content of the account. -/
theorem warmSlots_sameContent (acc : Account) (keys : List Bytes32) :
    acc.SameContent { acc with storage := warmSlots acc.storage keys } := by
  unfold warmSlots
  induction keys generalizing acc with
  | nil => exact .refl acc
  | cons key keys ih =>
    have hstep : acc.SameContent { acc with
        storage := acc.storage.insert key { acc.storage.slot key with accessStatus := .warm } } :=
      Storage.sameContent_insert rfl rfl
    exact hstep.trans (ih _)

section

variable {block : BlockInfo} {tx : Transaction} {hs hs' : HostState}

/-- A relation that is kept when an account is marked as accessed, and when slots of an account
are. -/
structure KeptByWarming (R : HostState → HostState → Prop) : Prop where
  account : ∀ hs addr, R hs (Host.warmed hs addr)
  sender : ∀ {hs addr acc}, hs.state.find addr = some acc →
    R hs (setAcc hs addr { acc with accessStatus := .warm })
  slots : ∀ {hs addr acc} keys, hs.state.find addr = some acc →
    R hs (setAcc hs addr { acc with storage := warmSlots acc.storage keys })

/-- Warming up keeps every relation that marking as accessed keeps. -/
theorem KeptByWarming.warmUp {R : HostState → HostState → Prop} [IsPreorder HostState R]
    (h : KeptByWarming R) (block : BlockInfo) (tx : Transaction) :
    StateRun.Keeps R (Zvmone.warmUp block tx) := by
  -- Three ways to warm: an account, an item of the access list, the list itself.
  have haccess : ∀ addr, StateRun.Keeps R (accessAccount addr) := by
    intro addr hs r hs' hrun
    rw [(accessAccount_ok hrun).1]
    exact h.account hs addr
  have hitem : ∀ item, StateRun.Keeps R (accessListItem item) := by
    intro item
    refine .bind (haccess item.1) fun _ hs r hs' hrun => ?_
    rw [StateRun.bind_eq_ok] at hrun
    obtain ⟨acc, s₁, hget, hrun⟩ := hrun
    obtain ⟨hfind, rfl⟩ := getAccount_eq_ok.1 hget
    rw [setAccount_eq_ok.1 hrun]
    exact h.slots item.2 hfind
  have hlist : StateRun.Keeps R (tx.accessList.forM accessListItem) := by
    induction tx.accessList with
    | nil => exact .pure ()
    | cons item items ih => exact .bind (hitem item) fun _ => ih
  -- The end of `warmUp` is the same with and without a destination.
  have hrest : StateRun.Keeps R (do
      tx.accessList.forM accessListItem
      let _ ← accessAccount block.coinbase : HostS Unit) :=
    .bind hlist fun _ => .bind (haccess _) fun _ => .pure ()
  intro hs r hs' hrun
  unfold Zvmone.warmUp at hrun
  rw [StateRun.bind_eq_ok] at hrun
  obtain ⟨senderAcc, s₁, hget, hrun⟩ := hrun
  obtain ⟨hfind, rfl⟩ := getAccount_eq_ok.1 hget
  rw [StateRun.bind_eq_ok] at hrun
  obtain ⟨_, s₂, hset, hrun⟩ := hrun
  have hsender : R s₁ s₂ := by
    rw [setAccount_eq_ok.1 hset]
    exact h.sender hfind
  refine IsTrans.trans s₁ s₂ hs' hsender ?_
  -- A creation has no destination to warm.
  cases hto : tx.to_ with
  | none =>
    rw [hto] at hrun
    exact hrest s₂ r hs' hrun
  | some to_ =>
    rw [hto] at hrun
    exact StateRun.Keeps.bind (haccess to_) (fun _ => hrest) s₂ r hs' hrun

/-- Warming up changes nothing but access statuses. -/
theorem warmUp_sameContent (block : BlockInfo) (tx : Transaction) :
    StateRun.Keeps HostState.SameContent (warmUp block tx) :=
  KeptByWarming.warmUp {
    account := HostState.SameContent.warmed
    sender := fun hfind => HostState.SameContent.setAcc_of_find hfind
      ⟨rfl, rfl, rfl, rfl, fun _ => rfl, fun _ => rfl⟩
    slots := fun keys hfind => HostState.SameContent.setAcc_of_find hfind
      (warmSlots_sameContent _ keys) } block tx

/-- The gas of the whole gas limit is bought with the balance of the sender. -/
theorem buyGas_ok {u : Unit} (h : buyGas block tx hs = .ok (u, hs')) :
    block.baseFeeWord ≤ tx.maxGasPrice ∧ tx.effectiveGasPrice block ≤ tx.maxGasPrice ∧
      ∃ senderAcc, hs.state.find tx.sender = some senderAcc ∧
        hs' = setAcc hs tx.sender { senderAcc with
          balance := senderAcc.balance - tx.maxCost block } := by
  unfold buyGas at h
  rw [StateRun.bind_eq_ok] at h
  obtain ⟨_, s₁, hassert, h⟩ := h
  obtain ⟨hfee, rfl⟩ := assert_eq_ok.1 hassert
  rw [StateRun.bind_eq_ok] at h
  obtain ⟨_, s₂, hassert, h⟩ := h
  obtain ⟨-, rfl⟩ := assert_eq_ok.1 hassert
  rw [StateRun.bind_eq_ok] at h
  obtain ⟨_, s₃, hassert, h⟩ := h
  obtain ⟨hprice, rfl⟩ := assert_eq_ok.1 hassert
  rw [StateRun.bind_eq_ok] at h
  obtain ⟨senderAcc, s₄, hget, h⟩ := h
  obtain ⟨hfind, rfl⟩ := getAccount_eq_ok.1 hget
  exact ⟨hfee, hprice, senderAcc, hfind, setAccount_eq_ok.1 h⟩

/-- What the sender gets back for unused gas. -/
def Transaction.unused (tx : Transaction) (block : BlockInfo) (gasUsed : Int) : Word :=
  tx.maxCost block - Word.ofInt64 gasUsed * tx.effectiveGasPrice block

/-- What the coinbase gets. -/
def Transaction.reward (tx : Transaction) (block : BlockInfo) (gasUsed : Int) : Word :=
  Word.ofInt64 gasUsed * tx.priorityGasPrice block

/-- The host state once the sender is paid back. -/
def paidBack (block : BlockInfo) (tx : Transaction) (gasUsed : Int) (hs : HostState)
    (senderAcc : Account) : HostState :=
  setAcc hs tx.sender { senderAcc with
    balance := senderAcc.balance + tx.unused block gasUsed }

/-- The host state once the coinbase is paid. -/
def rewarded (block : BlockInfo) (tx : Transaction) (gasUsed : Int) (hs : HostState) : HostState :=
  setAcc hs block.coinbase { touched hs block.coinbase with
    balance := (touched hs block.coinbase).balance + tx.reward block gasUsed }

/-- The end of a transition pays the sender and the coinbase and applies destructs. -/
theorem settle_ok {gasUsed : Int} {u : Unit} (h : settle block tx gasUsed hs = .ok (u, hs')) :
    0 < gasUsed ∧ ∃ senderAcc, hs.state.find tx.sender = some senderAcc ∧
      hs' = { rewarded block tx gasUsed (paidBack block tx gasUsed hs senderAcc) with
        state := (rewarded block tx gasUsed (paidBack block tx gasUsed hs senderAcc)).state.eraseIf
          (·.destructed) } := by
  unfold settle at h
  rw [StateRun.bind_eq_ok] at h
  -- The assertion, then the two payments, then the erasure.
  obtain ⟨_, s₁, hassert, h⟩ := h
  obtain ⟨hpos, rfl⟩ := assert_eq_ok.1 hassert
  rw [StateRun.bind_eq_ok] at h
  obtain ⟨senderAcc, s₂, hget, h⟩ := h
  obtain ⟨hfind, rfl⟩ := getAccount_eq_ok.1 hget
  rw [StateRun.bind_eq_ok] at h
  obtain ⟨_, s₃, hset, h⟩ := h
  obtain rfl := setAccount_eq_ok.1 hset
  rw [StateRun.bind_eq_ok] at h
  obtain ⟨coinbaseAcc, s₄, htouch, h⟩ := h
  obtain ⟨rfl, rfl⟩ := touch_eq_ok.1 htouch
  rw [StateRun.bind_eq_ok] at h
  obtain ⟨_, s₅, hset, h⟩ := h
  obtain rfl := setAccount_eq_ok.1 hset
  refine ⟨hpos, senderAcc, hfind, ?_⟩
  rw [StateRun.modify_eq_ok.1 h]
  simp only [rewarded, paidBack, setAcc, State.set_set]
  rfl

/-- A valid transaction is started: its message is called in the state `hs₁` with the execution gas
limit. -/
structure Starts (block : BlockInfo) (tx : Transaction) (hs : HostState) (executionGasLimit : Int)
    (hs₁ : HostState) : Prop where
  valid : ∃ senderAcc, hs.state.find tx.sender = some senderAcc ∧
    validateTransaction senderAcc block tx = .ok executionGasLimit
  bought : ∃ hs₀, buyGas block tx hs = .ok ((), hs₀) ∧
    warmUp block tx { hs₀ with logs := [] } = .ok ((), hs₁)

variable [Ethash] {vm : VM} {fuel : Nat} {executionGasLimit : Int} {receipt : TransactionReceipt}

/-- How a transition runs a transaction: `hs₁` is the host state when the call starts, `hs₂` when it
returned `result`. -/
structure Executes (vm : VM) (fuel : Nat) (block : BlockInfo) (tx : Transaction)
    (executionGasLimit : Int) (hs : HostState) (receipt : TransactionReceipt) (hs' : HostState)
    (hs₁ : HostState) (result : CallResult) (hs₂ : HostState) : Prop where
  bought : ∃ hs₀, buyGas block tx hs = .ok ((), hs₀) ∧
    warmUp block tx { hs₀ with logs := [] } = .ok ((), hs₁)
  called : call ⟨block, tx⟩ vm fuel (buildMessage tx executionGasLimit) hs₁ = .ok (result, hs₂)
  settled : settle block tx (gasUsedAfter tx result) hs₂ = .ok ((), hs')
  receipt_eq : receipt = {
    kind := tx.kind, status := result.statusCode, gasUsed := gasUsedAfter tx result,
    logs := hs'.logs, logsBloomFilter := .ofLogs hs'.logs }

/-- The phases of an accepted transaction. -/
theorem execute_ok (h : execute vm fuel block tx executionGasLimit hs = .ok (receipt, hs')) :
    ∃ hs₁ result hs₂, Executes vm fuel block tx executionGasLimit hs receipt hs' hs₁ result hs₂ := by
  unfold execute at h
  rw [StateRun.bind_eq_ok] at h
  obtain ⟨_, hs₀, hbuy, h⟩ := h
  rw [StateRun.bind_eq_ok] at h
  obtain ⟨_, s₁, hmodify, h⟩ := h
  obtain rfl := StateRun.modify_eq_ok.1 hmodify
  rw [StateRun.bind_eq_ok] at h
  obtain ⟨_, hs₁, hwarm, h⟩ := h
  rw [StateRun.bind_eq_ok] at h
  obtain ⟨result, hs₂, hcall, h⟩ := h
  rw [StateRun.bind_eq_ok] at h
  obtain ⟨_, hs₃, hsettle, h⟩ := h
  rw [StateRun.bind_eq_ok] at h
  obtain ⟨s, s₄, hget, h⟩ := h
  obtain ⟨rfl, rfl⟩ := StateRun.get_eq_ok.1 hget
  obtain ⟨rfl, rfl⟩ := StateRun.pure_eq_ok.1 h
  exact ⟨hs₁, result, hs₂, ⟨hs₀, hbuy, hwarm⟩, hcall, hsettle, rfl⟩

/-- A transition that returns a receipt validated and executed the transaction. -/
theorem transition_ok (h : transition vm fuel block tx hs = .ok (.ok receipt, hs')) :
    ∃ senderAcc executionGasLimit, hs.state.find tx.sender = some senderAcc ∧
      validateTransaction senderAcc block tx = .ok executionGasLimit ∧
      ∃ hs₁ result hs₂,
        Executes vm fuel block tx executionGasLimit hs receipt hs' hs₁ result hs₂ := by
  unfold transition at h
  rw [StateRun.bind_eq_ok] at h
  obtain ⟨senderAcc, s₁, hget, h⟩ := h
  obtain ⟨hfind, rfl⟩ := getAccount_eq_ok.1 hget
  cases hvalid : validateTransaction senderAcc block tx with
  | error e =>
    rw [hvalid] at h
    obtain ⟨hr, -⟩ := StateRun.pure_eq_ok.1 h
    cases hr
  | ok executionGasLimit =>
    rw [hvalid] at h
    dsimp only at h
    rw [StateRun.bind_eq_ok] at h
    obtain ⟨receipt', s₂, hexecute, h⟩ := h
    obtain ⟨hr, rfl⟩ := StateRun.pure_eq_ok.1 h
    cases hr
    exact ⟨senderAcc, executionGasLimit, hfind, hvalid, execute_ok hexecute⟩

end

/-! ### Valid transactions -/

/-- The data cost is not negative. -/
theorem computeTxDataCost_nonneg (data : Bytes) : 0 ≤ computeTxDataCost data := by
  have h : ∀ cost : Int, 0 ≤ cost →
      0 ≤ data.foldl (fun cost b => cost + if b = 0 then (4 : Int) else 16) cost := by
    induction data with
    | nil => exact fun _ h => h
    | cons b bs ih => exact fun cost hcost => ih _ (by dsimp only; split <;> omega)
  exact h 0 le_rfl

/-- The cost of an access list is not negative. -/
theorem computeAccessListCost_nonneg (accessList : AccessList) :
    0 ≤ computeAccessListCost accessList := by
  have h : ∀ cost : Int, 0 ≤ cost → 0 ≤ accessList.foldl
      (fun cost a => cost + ((2400 : Int) + a.2.length * 1900)) cost := by
    induction accessList with
    | nil => exact fun _ h => h
    | cons a as ih => exact fun cost hcost => ih _ (by dsimp only; omega)
  exact h 0 le_rfl

/-- Every transaction costs at least 21000. -/
theorem computeTxIntrinsicCost_ge (tx : Transaction) : 21000 ≤ computeTxIntrinsicCost tx := by
  have hdata := computeTxDataCost_nonneg tx.data
  have hlist := computeAccessListCost_nonneg tx.accessList
  have hwords : 0 ≤ numWords tx.data.length := Int.natCast_nonneg _
  unfold computeTxIntrinsicCost
  dsimp only
  split <;> omega

/-- What a valid transaction satisfies. -/
structure ValidTransaction (senderAcc : Account) (block : BlockInfo) (tx : Transaction)
    (executionGasLimit : Int) : Prop where
  tip : tx.maxPriorityGasPrice ≤ tx.maxGasPrice
  blockGas : tx.gasLimit ≤ block.gasLimit
  fee : block.baseFeeWord ≤ tx.maxGasPrice
  code : senderAcc.code = []
  nonce : senderAcc.nonce ≠ Account.nonceMax
  funds : (Word.ofInt64 tx.gasLimit).toNat * tx.maxGasPrice.toNat + tx.value.toNat
    ≤ senderAcc.balance.toNat
  intrinsic : computeTxIntrinsicCost tx ≤ tx.gasLimit
  gas : executionGasLimit = tx.gasLimit - computeTxIntrinsicCost tx

/-- What `validate_transaction` checks. -/
theorem validateTransaction_ok {senderAcc : Account} {block : BlockInfo} {tx : Transaction}
    {executionGasLimit : Int}
    (h : validateTransaction senderAcc block tx = .ok executionGasLimit) :
    ValidTransaction senderAcc block tx executionGasLimit := by
  -- Each check that does not return an error gives one field, in the source's order.
  unfold validateTransaction at h
  split at h
  next => cases h
  next htip =>
    split at h
    next => cases h
    next hblock =>
      split at h
      next => cases h
      next hfee =>
        split at h
        next => cases h
        next hcode =>
          split at h
          next => cases h
          next hnonce =>
            split at h
            next => cases h
            next =>
              dsimp only at h
              split at h
              next => cases h
              next hfunds =>
                split at h
                next => cases h
                next hcost =>
                  cases h
                  exact ⟨BitVec.not_lt.1 htip, not_lt.1 hblock, BitVec.not_lt.1 hfee, not_not.1 hcode, hnonce,
                    not_lt.1 hfunds, not_lt.1 hcost, rfl⟩

end Zvmone
