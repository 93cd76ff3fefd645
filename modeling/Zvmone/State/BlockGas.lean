import Zvmone.State.Refunds

/-! # The gas of a block

The transaction loop of `t8n`: the transactions run one after the other on one state, rejected ones
are skipped. Every transaction is checked against the gas limit of the block on its own, so the gas
used by the block is bounded by the gas limits of its transactions only (`t8n_gasUsed_le`). -/

namespace Zvmone

open Host

/-! ### The transaction loop -/

/-- What the transaction loop of `t8n` accumulates. -/
structure T8nResult where
  cumulativeGasUsed : Int := 0
  transactions : List Transaction := []
  receipts : List TransactionReceipt := []
  txsLogs : List Log := []
  /-- The rejected transactions, by their index. -/
  rejected : List (Nat × ErrorCode) := []

section loop

variable [Ethash]

/-- The body of the transaction loop of `t8n`. -/
def t8nTransaction (vm : VM) (fuel : Nat) (chainId : BitVec 64) (block : BlockInfo)
    (acc : T8nResult) (i : Nat) (tx : Transaction) : HostS T8nResult := do
  let tx := { tx with chainId }
  match ← transition vm fuel block tx with
  | .error e => return { acc with rejected := acc.rejected ++ [(i, e)] }
  | .ok receipt =>
    return { acc with
      txsLogs := acc.txsLogs ++ receipt.logs
      cumulativeGasUsed := wrapInt64 (acc.cumulativeGasUsed + receipt.gasUsed)
      transactions := acc.transactions ++ [tx]
      receipts := acc.receipts ++ [receipt] }

/-- The transaction loop of `t8n` from the index `i` on. -/
def t8nLoop (vm : VM) (fuel : Nat) (chainId : BitVec 64) (block : BlockInfo) :
    T8nResult → Nat → List Transaction → HostS T8nResult
  | acc, _, [] => return acc
  | acc, i, tx :: txs => do
    let acc ← t8nTransaction vm fuel chainId block acc i tx
    t8nLoop vm fuel chainId block acc (i + 1) txs

/-- `t8n`: the transactions, then the end of the block. -/
def t8n (vm : VM) (fuel : Nat) (chainId : BitVec 64) (block : BlockInfo) (txs : List Transaction) :
    HostS T8nResult := do
  let result ← t8nLoop vm fuel chainId block {} 0 txs
  modify fun hs => { hs with state := finalize hs.state block.withdrawals }
  return result

/-! ### The accepted transactions -/

/-- An accepted transaction, with the refunds that were pending before it. -/
structure Accepted where
  tx : Transaction
  receipt : TransactionReceipt
  pending : Int

/-- `Processes … hs txs accepted hs'`: the transactions run one after the other from `hs` to `hs'`, and
these are accepted. -/
inductive Processes (vm : VM) (fuel : Nat) (chainId : BitVec 64) (block : BlockInfo) :
    HostState → List Transaction → List Accepted → HostState → Prop
  | nil {hs : HostState} : Processes vm fuel chainId block hs [] [] hs
  | rejected {hs hs₁ hs₂ : HostState} {tx : Transaction} {txs : List Transaction}
      {accepted : List Accepted} {e : ErrorCode}
      (hrun : transition vm fuel block { tx with chainId } hs = .ok (.error e, hs₁))
      (hrest : Processes vm fuel chainId block hs₁ txs accepted hs₂) :
      Processes vm fuel chainId block hs (tx :: txs) accepted hs₂
  | accepted {hs hs₁ hs₂ : HostState} {tx : Transaction} {txs : List Transaction}
      {accepted : List Accepted} {receipt : TransactionReceipt}
      (hrun : transition vm fuel block { tx with chainId } hs = .ok (.ok receipt, hs₁))
      (hrest : Processes vm fuel chainId block hs₁ txs accepted hs₂) :
      Processes vm fuel chainId block hs (tx :: txs)
        (⟨{ tx with chainId }, receipt, hs.state.pending⟩ :: accepted) hs₂

variable {vm : VM} {fuel : Nat} {chainId : BitVec 64} {block : BlockInfo} {hs hs' : HostState}
  {txs : List Transaction}

/-- The loop accumulates the gas and the receipts of the accepted transactions, the gas in 64
bits. -/
theorem t8nLoop_ok {acc result : T8nResult} {i : Nat} {total : Int}
    (hacc : acc.cumulativeGasUsed = wrapInt64 total)
    (h : t8nLoop vm fuel chainId block acc i txs hs = .ok (result, hs')) :
    ∃ accepted, Processes vm fuel chainId block hs txs accepted hs' ∧
      result.receipts = acc.receipts ++ accepted.map (·.receipt) ∧
      result.cumulativeGasUsed = wrapInt64 (total + (accepted.map (·.receipt.gasUsed)).sum) := by
  induction txs generalizing acc i hs total with
  | nil =>
    obtain ⟨rfl, rfl⟩ := StateRun.pure_eq_ok.1 h
    exact ⟨[], .nil, by simp, by simpa using hacc⟩
  | cons tx txs ih =>
    unfold t8nLoop at h
    obtain ⟨acc₁, hs₁, hbody, hrest⟩ := StateRun.bind_eq_ok.1 h
    unfold t8nTransaction at hbody
    obtain ⟨res, hs₂, hrun, hbody⟩ := StateRun.bind_eq_ok.1 hbody
    cases res with
    | error e =>
      obtain ⟨rfl, rfl⟩ := StateRun.pure_eq_ok.1 hbody
      obtain ⟨accepted, hprocesses, hreceipts, hgas⟩ := ih (by exact hacc) hrest
      exact ⟨accepted, .rejected hrun hprocesses, hreceipts, hgas⟩
    | ok receipt =>
      obtain ⟨rfl, rfl⟩ := StateRun.pure_eq_ok.1 hbody
      -- The sum that the rest of the loop starts from has wrapped already, or not.
      have hsum : wrapInt64 (acc.cumulativeGasUsed + receipt.gasUsed)
          = wrapInt64 (total + receipt.gasUsed) := by
        rw [hacc, wrapInt64_wrapInt64_add]
      obtain ⟨accepted, hprocesses, hreceipts, hgas⟩ := ih hsum hrest
      refine ⟨_, .accepted hrun hprocesses, ?_, ?_⟩
      · rw [hreceipts, List.map_cons, List.append_assoc, List.singleton_append]
      · rw [hgas, List.map_cons, List.sum_cons, Int.add_assoc]

/-! ### The gas of the accepted transactions -/

omit [Ethash] in
/-- Whatever the call gives back, at most the gas limit and the refunds taken back are used. -/
theorem gasUsedAfter_le {tx : Transaction} {result : CallResult} {pending : Int}
    (hleft : 0 ≤ result.gasLeft) (hle : result.gasLeft ≤ tx.gasLimit) (hpending : 0 ≤ pending)
    (hrefund : -pending ≤ result.gasRefund) :
    gasUsedAfter tx result ≤ tx.gasLimit + pending := by
  have hused : wrapInt64 (tx.gasLimit - result.gasLeft) ≤ tx.gasLimit - result.gasLeft :=
    wrapInt64_le (by omega)
  obtain ⟨hlow, -⟩ := wrapInt64_bounds (tx.gasLimit - result.gasLeft)
  unfold gasUsedAfter
  dsimp only
  generalize wrapInt64 (tx.gasLimit - result.gasLeft) = gasUsed at hused hlow ⊢
  -- A fifth of a negative number is rounded towards 0.
  have hfifth : (0 ≤ gasUsed ∧ gasUsed.tdiv 5 = gasUsed / 5) ∨
      (gasUsed ≤ gasUsed.tdiv 5 ∧ gasUsed.tdiv 5 ≤ 0) := by
    rcases le_or_gt 0 gasUsed with hnonneg | hneg
    · exact .inl ⟨hnonneg, Int.tdiv_eq_ediv_of_nonneg hnonneg⟩
    · have hsign : Int.sign 5 = 1 := rfl
      rw [Int.tdiv_eq_ediv, hsign]
      split <;> exact .inr (by omega)
  have hwrap := wrapInt64_le (x := gasUsed - min result.gasRefund (gasUsed.tdiv 5)) (by omega)
  omega

/-- An accepted transaction uses gas, at most its gas limit and the refunds it takes back, and its
gas limit is at most that of the block. -/
theorem transition_gasUsed_le {tx : Transaction} {receipt : TransactionReceipt}
    (h : transition Baseline.execute fuel block tx hs = .ok (.ok receipt, hs')) :
    tx.gasLimit ≤ block.gasLimit ∧ 0 < receipt.gasUsed ∧
      receipt.gasUsed ≤ tx.gasLimit + hs.state.pending := by
  obtain ⟨senderAcc, executionGasLimit, -, hvalid, hs₁, result, hs₂, hexecutes⟩ := transition_ok h
  have hvalid := validateTransaction_ok hvalid
  have hgas := hvalid.gas
  have hcost := hvalid.intrinsic
  have hcost₀ := computeTxIntrinsicCost_ge tx
  have hnonneg : 0 ≤ executionGasLimit := by omega
  -- The call gives back part of the gas it got, and its refund was pending before it.
  obtain ⟨hleft, hle⟩ : 0 ≤ result.gasLeft ∧ result.gasLeft ≤ executionGasLimit :=
    call_isBounded _ _ _ _ _ hnonneg hexecutes.called
  have hrefund := hexecutes.neg_pending_le_gasRefund
  have hpos : 0 < gasUsedAfter tx result := (settle_ok hexecutes.settled).1
  rw [hexecutes.receipt_eq]
  exact ⟨hvalid.blockGas, hpos,
    gasUsedAfter_le hleft (by omega) hs.state.pending_nonneg hrefund⟩

/-- The transactions that are accepted respect the gas limit of the block one by one. -/
theorem Processes.gasUsed_le {accepted : List Accepted}
    (h : Processes Baseline.execute fuel chainId block hs txs accepted hs') :
    ∀ a ∈ accepted, a.tx.gasLimit ≤ block.gasLimit ∧ 0 < a.receipt.gasUsed ∧
      a.receipt.gasUsed ≤ a.tx.gasLimit + a.pending := by
  induction h with
  | nil => exact nofun
  | rejected _ _ ih => exact ih
  | accepted hrun _ ih =>
    intro a ha
    rcases List.mem_cons.1 ha with rfl | ha
    · exact transition_gasUsed_le hrun
    · exact ih a ha

/-- **The gas of a block is bounded by the gas limits of its transactions.** The reported gas is the
sum, in 64 bits, of the gas used by the accepted transactions, and the exact sum if and only if that
is below `2 ^ 63`; it is at most the sum of their gas limits, each of which is at most that of the
block, and of the refunds that were pending before each of them. -/
theorem t8n_gasUsed_le (fuel : Nat) (chainId : BitVec 64) (block : BlockInfo)
    (txs : List Transaction) (hs hs' : HostState) (result : T8nResult) :
    t8n Baseline.execute fuel chainId block txs hs = .ok (result, hs') →
    ∃ accepted hs₁, Processes Baseline.execute fuel chainId block hs txs accepted hs₁ ∧
      result.receipts = accepted.map (·.receipt) ∧
      result.cumulativeGasUsed = wrapInt64 (accepted.map (·.receipt.gasUsed)).sum ∧
      (result.cumulativeGasUsed = (accepted.map (·.receipt.gasUsed)).sum ↔
        (accepted.map (·.receipt.gasUsed)).sum < 2 ^ 63) ∧
      (accepted.map (·.receipt.gasUsed)).sum
        ≤ (accepted.map fun a => a.tx.gasLimit + a.pending).sum ∧
      result.cumulativeGasUsed ≤ (accepted.map fun a => a.tx.gasLimit + a.pending).sum ∧
      ∀ a ∈ accepted, a.tx.gasLimit ≤ block.gasLimit := by
  intro h
  unfold t8n at h
  obtain ⟨result', hs₁, hloop, h⟩ := StateRun.bind_eq_ok.1 h
  obtain ⟨_, hs₂, -, h⟩ := StateRun.bind_eq_ok.1 h
  obtain ⟨rfl, -⟩ := StateRun.pure_eq_ok.1 h
  have hzero : ({} : T8nResult).cumulativeGasUsed = wrapInt64 0 := by decide
  obtain ⟨accepted, hprocesses, hreceipts, hgas⟩ := t8nLoop_ok hzero hloop
  rw [Int.zero_add] at hgas
  have hused := hprocesses.gasUsed_le
  -- The exact sums; the reported one wraps.
  have hle : (accepted.map (·.receipt.gasUsed)).sum
      ≤ (accepted.map fun a => a.tx.gasLimit + a.pending).sum :=
    List.sum_le_sum fun a ha => (hused a ha).2.2
  have hnonneg : 0 ≤ (accepted.map (·.receipt.gasUsed)).sum := by
    refine List.sum_nonneg fun g hg => ?_
    obtain ⟨a, ha, rfl⟩ := List.mem_map.1 hg
    exact (hused a ha).2.1.le
  refine ⟨accepted, hs₁, hprocesses, hreceipts, hgas, ?_, hle, ?_, fun a ha => (hused a ha).1⟩
  · rw [hgas, wrapInt64_eq_self_iff]
    exact ⟨And.right, fun hlt => ⟨by omega, hlt⟩⟩
  · rw [hgas]
    exact (wrapInt64_le (by omega)).trans hle

end loop

/-! ### Two transactions in one block -/

/-- A block with room for one transaction. -/
def smallBlock : BlockInfo := { coinbase := 0x30, gasLimit := 30000 }

/-- A transaction that does nothing. -/
def idleTransaction : Transaction :=
  { gasLimit := 21000, maxGasPrice := 1, maxPriorityGasPrice := 1, sender := 0x20,
    to_ := some 0x10, value := 0 }

/-- The state with the sender. -/
def idleState : HostState := { state := (⟨∅⟩ : State).set 0x20 { balance := 100000 } }

/-- Two transactions use more gas than the block has. -/
theorem smallBlock_gasUsed :
    ((@t8n ⟨fun _ => 0⟩ (@Baseline.execute ⟨fun _ => 0⟩) 2 1 smallBlock
      [idleTransaction, idleTransaction] idleState).toOption.map (·.1.cumulativeGasUsed))
      = some 42000 ∧ smallBlock.gasLimit < 42000 := by
  decide +kernel

/-- The two idle transactions of a block use 42000 in all. -/
theorem t8n_gasUsed_le_idle : ∃ (_ : Ethash) (result : T8nResult) (hs' : HostState)
    (accepted : List Accepted),
    t8n Baseline.execute 2 1 smallBlock [idleTransaction, idleTransaction] idleState
      = .ok (result, hs') ∧
    result.cumulativeGasUsed = 42000 ∧
      result.cumulativeGasUsed = wrapInt64 (accepted.map (·.receipt.gasUsed)).sum ∧
      (result.cumulativeGasUsed = (accepted.map (·.receipt.gasUsed)).sum ↔
        (accepted.map (·.receipt.gasUsed)).sum < 2 ^ 63) ∧
      (accepted.map (·.receipt.gasUsed)).sum
        ≤ (accepted.map fun a => a.tx.gasLimit + a.pending).sum ∧
      result.cumulativeGasUsed ≤ (accepted.map fun a => a.tx.gasLimit + a.pending).sum ∧
      ∀ a ∈ accepted, a.tx.gasLimit ≤ smallBlock.gasLimit := by
  let ethash : Ethash := ⟨fun _ => 0⟩
  have hused : ((t8n Baseline.execute 2 1 smallBlock [idleTransaction, idleTransaction]
      idleState).toOption.map (·.1.cumulativeGasUsed)) = some 42000 := by decide +kernel
  rcases hrun : t8n Baseline.execute 2 1 smallBlock [idleTransaction, idleTransaction] idleState with
    _ | ⟨result, hs'⟩ <;> rw [hrun] at hused
  · cases hused
  · obtain ⟨accepted, _, -, -, hsum⟩ := t8n_gasUsed_le _ _ _ _ _ _ _ hrun
    exact ⟨ethash, result, hs', accepted, hrun, Option.some.inj hused, hsum⟩

end Zvmone
