import Zvmone.State.EmptyAccounts
import Zvmone.State.InterchangeTransactions
import Zvmone.State.ListRoots
import Zvmone.State.StateRoot

/-! # Blocks on two machines

What the Advanced interpreter leaves of a block, the block records in the same way: the gas used, the
accepted and the rejected transactions, the logs and the roots. At the address `0x03` the accounts may
differ in the mark for erasure before the end of the block; then the account is empty, and it is
deleted on both sides (`t8n_interchange`). -/

namespace Zvmone

open StateRun Host

/-! ### The transaction loop -/

/-- Results of blocks that differ at most in how transactions failed. -/
structure T8nResult.Alike (r r' : T8nResult) : Prop where
  cumulativeGasUsed : r'.cumulativeGasUsed = r.cumulativeGasUsed
  transactions : r'.transactions = r.transactions
  receipts : List.Forall₂ TransactionReceipt.Alike r.receipts r'.receipts
  txsLogs : r'.txsLogs = r.txsLogs
  rejected : r'.rejected = r.rejected

section loop

variable [Ethash] {vm : VM} {steps : Int → Nat} {K : Set Bytes} {s t s' : HostState}
  {block : BlockInfo} {chainId : BitVec 64} {tx : Transaction} {txs : List Transaction} {n k : Nat}

/-- The inputs that the transactions of a block give to the identity function. -/
def blockInputs (fuel : Nat) (chainId : BitVec 64) (block : BlockInfo) :
    List Transaction → HostState → List Bytes
  | [], _ => []
  | tx :: txs, hs => identityInputs fuel block { tx with chainId } hs ++
    match transition Baseline.execute fuel block { tx with chainId } hs with
    | .error _ => []
    | .ok (_, hs') => blockInputs fuel chainId block txs hs'

/-- A transaction leaves no codes that are too long. -/
theorem codesFit_transition {x : Except ErrorCode TransactionReceipt} (h : CodesFit s)
    (hrun : transition vm n block tx s = .ok (x, s')) : CodesFit s' := by
  cases x with
  | error e => exact transition_rejected hrun ▸ h
  | ok receipt =>
    obtain ⟨_, _, -, -, hs₁, result, hs₂, hexecutes⟩ := transition_ok hrun
    obtain ⟨hs₀, hbuy, hwarm⟩ := hexecutes.bought
    have hcalled : CodesFit hs₂ := codesFit_keptByHost.keeps n _ _ _ _ hexecutes.called
      (codesFit_bought hbuy hwarm h)
    exact codesFit_settled hcalled hexecutes.settled

/-- The transactions of a block in twins. -/
theorem tracks_t8nLoop (hinj : Set.InjOn Ethash.keccak256 K) (hvm : VM.Replaces vm steps)
    (hfuel : block.gasLimit.toNat + 2 ≤ n) (hsteps : steps block.gasLimit < k)
    (hsenders : ∀ tx ∈ txs, tx.sender ≠ addr03) (htwin : s.Twin K t) (hcodes : CodesFit s)
    (hinputs : ∀ input ∈ blockInputs n chainId block txs s, input ∈ K) {acc acc' : T8nResult}
    (hacc : acc.Alike acc') (i : Nat) :
    Tracks (fun r r' s' t' => r.Alike r' ∧ s'.Twin K t')
      (t8nLoop Baseline.execute n chainId block acc i txs)
      (t8nLoop vm k chainId block acc' i txs) s t := by
  induction txs generalizing s t acc acc' i with
  | nil => exact .pure ⟨hacc, htwin⟩
  | cons tx txs ih =>
    have hsender : tx.sender ≠ addr03 := hsenders tx List.mem_cons_self
    -- The invariant of the loop is what one transaction needs: twin states, fitting codes, and inputs
    have hprocessable : Processable K steps n k block { tx with chainId } s t := {
      twin := htwin
      codes := hcodes
      sender := fun hfind => by
        dsimp only at hfind ⊢
        rwa [htwin.accounts tx.sender hsender]
      fuel := hfuel
      steps := hsteps
      inputs := fun input hinput => hinputs input (List.mem_append_left _ hinput) }
    have hbody : Tracks (fun r r' s' t' => r.Alike r' ∧ s'.Twin K t' ∧ CodesFit s' ∧
        ∀ input ∈ blockInputs n chainId block txs s', input ∈ K)
        (t8nTransaction Baseline.execute n chainId block acc i tx)
        (t8nTransaction vm k chainId block acc' i tx) s t := by
      refine .bind (tracks_transition hinj hvm hprocessable) ?_
      rintro x x' s₁ t₁ hrun - ⟨houtcome, htwin₁⟩
      -- Storing code of at most 0x6000 bytes keeps `CodesFit`, and the inputs left are those of the
      -- rest.
      have hrest : CodesFit s₁ ∧ ∀ input ∈ blockInputs n chainId block txs s₁, input ∈ K := by
        refine ⟨codesFit_transition hcodes hrun, fun input hinput => hinputs input ?_⟩
        rw [blockInputs, hrun]
        exact List.mem_append_right _ hinput
      cases houtcome with
      -- The two loops make the same entry: the same error, or receipts that are alike.
      | rejected e =>
        refine .pure ⟨⟨hacc.cumulativeGasUsed, hacc.transactions, hacc.receipts, hacc.txsLogs, ?_⟩,
          htwin₁, hrest⟩
        rw [hacc.rejected]
      | accepted halike =>
        refine .pure ⟨⟨?_, ?_, ?_, ?_, hacc.rejected⟩, htwin₁, hrest⟩
        · rw [hacc.cumulativeGasUsed, halike.gasUsed]
        · rw [hacc.transactions]
        · exact List.rel_append hacc.receipts (.cons halike .nil)
        · rw [hacc.txsLogs, halike.logs]
    refine .bind hbody ?_
    rintro r r' s₁ t₁ - - ⟨hr, htwin₁, hcodes₁, hinputs₁⟩
    exact ih (fun tx htx => hsenders tx (List.mem_cons_of_mem _ htx)) htwin₁ hcodes₁ hinputs₁ hr _

end loop

/-! ### The roots -/

/-- Receipts that are alike are recorded alike. -/
theorem TransactionReceipt.Alike.sameOutcome {r r' : TransactionReceipt} (h : r.Alike r') :
    r.SameOutcome r' := by
  refine ⟨?_, h.gasUsed.symm, ?_, h.logs.symm⟩
  · rcases h.status with heq | ⟨hr, hr'⟩
    · rw [heq]
    · exact iff_of_false hr.1 hr'.1
  · rw [h.rest]

/-- The root of a list depends on the encodings of its elements only. -/
theorem mptHashList_congr [Ethash] {α : Type} {encode : α → Option Bytes} {xs ys : List α}
    (h : xs.map encode = ys.map encode) : mptHashList encode xs = mptHashList encode ys := by
  have hentries : ∀ zs : List α, (zs.zipIdx.map fun x => do
      return (← Rlp.encodeUInt64 (BitVec.ofNat 64 x.2), ← encode x.1)) =
        ((zs.map encode).zipIdx.map fun x => do
          return (← Rlp.encodeUInt64 (BitVec.ofNat 64 x.2), ← x.1)) := by
    intro zs
    rw [List.zipIdx_map, List.map_map]
    rfl
  rw [mptHashList, mptHashList, hentries, hentries, h]

/-- The receipts have one root. -/
theorem mptHashReceipts_alike [Ethash] {rs rs' : List TransactionReceipt}
    (h : List.Forall₂ TransactionReceipt.Alike rs rs') : mptHashReceipts rs' = mptHashReceipts rs := by
  refine mptHashList_congr ?_
  induction h with
  | nil => rfl
  | cons h _ ih =>
    rw [List.map_cons, List.map_cons, ih, h.sameOutcome.encodeReceipt_eq]

section finalize

variable [Ethash] {K : Set Bytes} {s t : HostState}

omit [Ethash] in
/-- At the end of a block exactly the accounts that are not empty are kept in a tidy state. -/
theorem find_erased (h : s.state.Tidy) (addr : Address) :
    (s.state.eraseIf fun acc => acc.erasable ∧ acc.IsEmpty).find addr =
      if (accountOr s addr {}).IsEmpty then none else some (accountOr s addr {}) := by
  rw [find_eraseIf]
  unfold accountOr
  cases hfind : s.state.find addr with
  | none => exact (if_pos ⟨rfl, rfl, rfl⟩).symm
  | some acc =>
    by_cases hempty : acc.IsEmpty
    · have hmarked := h addr acc trivial hfind hempty
      simp [Option.filter, hempty, hmarked]
    · simp [Option.filter, hempty]

/-- Twins that are tidy keep the same accounts at the end of a block. -/
theorem HostState.Twin.erased (h : s.Twin K t) (hs : s.state.Tidy) (ht : t.state.Tidy)
    (addr : Address) :
    Option.Rel (TwinAccounts addr)
      ((s.state.eraseIf fun acc => acc.erasable ∧ acc.IsEmpty).find addr)
      ((t.state.eraseIf fun acc => acc.erasable ∧ acc.IsEmpty).find addr) := by
  rw [find_erased hs, find_erased ht]
  obtain ⟨mark, hacc, hmark⟩ := h.accountOr addr false
  rw [hacc]
  by_cases hempty : (Host.accountOr s addr {}).IsEmpty
  · have hempty' : Account.IsEmpty { Host.accountOr s addr {} with erasable := mark } := hempty
    rw [if_pos hempty, if_pos hempty']
    exact .none
  · have hempty' : ¬ Account.IsEmpty { Host.accountOr s addr {} with erasable := mark } := hempty
    rw [if_neg hempty, if_neg hempty']
    exact .some ⟨mark, rfl, hmark⟩

omit [Ethash] in
/-- A withdrawal marks its recipient in any case. -/
theorem credit_twins {addr : Address} {x y : Option Account}
    (h : Option.Rel (TwinAccounts addr) x y) (amount : Nat) :
    credit (y.getD {}) amount = credit (x.getD {}) amount := by
  cases h with
  | none => rfl
  | some hacc =>
    obtain ⟨mark, rfl, -⟩ := hacc
    rfl

/-- `finalize` takes tidy twin states to twin accounts. -/
theorem HostState.Twin.finalize (h : s.Twin K t) (hs : s.state.Tidy) (ht : t.state.Tidy)
    (withdrawals : List Withdrawal) (addr : Address) :
    Option.Rel (TwinAccounts addr) ((Zvmone.finalize s.state withdrawals).find addr)
      ((Zvmone.finalize t.state withdrawals).find addr) := by
  unfold Zvmone.finalize
  rw [find_applyWithdrawals, find_applyWithdrawals]
  have herased := h.erased hs ht addr
  split
  · rw [credit_twins herased]
    exact .some (.refl _ _)
  · exact herased

end finalize

/-! ### Blocks -/

/-- The state root does not record the mark. -/
theorem agrees_of_twins {addr : Address} {x y : Option Account}
    (h : Option.Rel (TwinAccounts addr) x y) : Option.Rel Account.Agrees x y := by
  cases h with
  | none => exact .none
  | some hacc =>
    obtain ⟨mark, rfl, -⟩ := hacc
    exact .some ⟨rfl, rfl, rfl, fun _ => rfl⟩

section blocks

variable [Ethash] {hs hs' : HostState} {block : BlockInfo} {chainId : BitVec 64}
  {txs : List Transaction} {result : T8nResult} {n k : Nat}

/-- **For a block the Advanced interpreter can take the place of the Baseline interpreter.** If a block
ends with the Baseline interpreter, then it also does with the Advanced one, from the same state: the
same transactions are accepted and rejected, with the same logs, the same gas and the same root of
receipts, although a receipt may say in another way how its transaction failed. The accounts agree in
what the state root records, so that the roots are the same, if no hashes collide. -/
theorem t8n_interchange
    (hinj : Set.InjOn Ethash.keccak256 {input | input ∈ blockInputs n chainId block txs hs})
    (hcache : hs.cache = fun _ => ∅) (hcodes : CodesFit hs) (htidy : hs.state.Tidy)
    (hsenders : ∀ tx ∈ txs, tx.sender ≠ addr03) (hfuel : block.gasLimit.toNat + 2 ≤ n)
    (hsteps : Advanced.stepsFor block.gasLimit < k)
    (hrun : t8n Baseline.execute n chainId block txs hs = .ok (result, hs')) :
    ∃ result' hs'', t8n Advanced.execute k chainId block txs hs = .ok (result', hs'') ∧
      result.Alike result' ∧
      mptHashReceipts result'.receipts = mptHashReceipts result.receipts ∧
      Agree hs'.state.accounts hs''.state.accounts ∧
      (emptyMPTHash = Ethash.keccak256 [0x80] →
        Set.InjOn Ethash.keccak256
          (hashedStrings hs'.state.accounts ∪ hashedStrings hs''.state.accounts ∪ {[0x80]}) →
        mptHash hs'.state.accounts = mptHash hs''.state.accounts) := by
  have hsound : Precompiles.Cache.Sound {input | input ∈ blockInputs n chainId block txs hs} hs.cache :=
    hcache ▸ Precompiles.Cache.sound_empty _
  have halike : T8nResult.Alike {} {} := ⟨rfl, rfl, .nil, rfl, rfl⟩
  obtain ⟨_, hs₁, hloop, hrest⟩ := bind_eq_ok.1 hrun
  obtain ⟨_, _, hmodify, hend⟩ := bind_eq_ok.1 hrest
  obtain rfl := modify_eq_ok.1 hmodify
  obtain ⟨rfl, rfl⟩ := pure_eq_ok.1 hend
  obtain ⟨result', t₁, hloop', hresult, htwin⟩ := tracks_t8nLoop hinj Advanced.replaces hfuel hsteps
    hsenders (.refl hsound) hcodes (fun _ hinput => hinput) halike 0 _ _ hloop
  -- Both loops leave tidy states, so that the end of the block levels the marks.
  have hfinal := htwin.finalize (tidy_t8nLoop Baseline.authorized htidy hloop)
    (tidy_t8nLoop Advanced.authorized htidy hloop') block.withdrawals
  have hagree : Agree _ _ := fun addr => agrees_of_twins (hfinal addr)
  refine ⟨result', _, bind_eq_ok.2 ⟨result', t₁, hloop', bind_eq_ok.2 ⟨⟨⟩, _, rfl, rfl⟩⟩, hresult,
    mptHashReceipts_alike hresult.receipts, hagree, fun hempty hinj => ?_⟩
  exact (mptHash_eq_iff hempty hinj).2.2.2 hagree

end blocks

/-- The state of the instance is tidy. -/
theorem tidy_doomedState : doomedState.state.Tidy := by
  have hset : ∀ {hs : HostState} {addr : Address} {acc : Account}, hs.state.Tidy → ¬ acc.IsEmpty →
      (setAcc hs addr acc).state.Tidy := fun htidy hacc =>
    State.Tidy.setAcc (htidy.mono fun _ ha => ha.1) fun _ hempty => absurd hempty hacc
  have hempty : ({ state := ⟨∅⟩ } : HostState).state.Tidy := fun _ _ _ h => by cases h
  exact hset (hset hempty (by decide)) (by decide)

/-- A transaction that calls the identity function with the input that only the Baseline interpreter
has cached. -/
def repeatingTransaction : Transaction := { doomedTransaction with to_ := some 3, data := [0] }

/-- The receipts differ, and their root does not. -/
theorem t8n_interchange_doomed : ∃ (_ : Ethash) (r r' : T8nResult) (hs' hs'' : HostState),
    t8n Baseline.execute 30002 1 smallBlock [doomedTransaction, repeatingTransaction] doomedState
        = .ok (r, hs') ∧
      t8n Advanced.execute 1474748311 1 smallBlock [doomedTransaction, repeatingTransaction] doomedState
        = .ok (r', hs'') ∧
      r.Alike r' ∧ r.receipts.map (·.status) = [.stackUnderflow, .success] ∧
      r'.receipts.map (·.status) = [.outOfGas, .success] ∧
      mptHashReceipts r'.receipts = mptHashReceipts r.receipts ∧
      Agree hs'.state.accounts hs''.state.accounts := by
  let ethash : Ethash := ⟨fun _ => 0⟩
  -- Baseline asks the identity function in both transactions, for the same input.
  have hinputs : blockInputs 30002 1 smallBlock [doomedTransaction, repeatingTransaction] doomedState
      = [[0], [0]] := by decide +kernel
  have hleft : ((t8n Baseline.execute 30002 1 smallBlock [doomedTransaction, repeatingTransaction]
      doomedState).toOption.any fun x =>
        x.1.receipts.map (·.status) = [.stackUnderflow, .success]) = true := by decide +kernel
  have hright : ((t8n Advanced.execute 1474748311 1 smallBlock [doomedTransaction, repeatingTransaction]
      doomedState).toOption.all fun x =>
        x.1.receipts.map (·.status) = [.outOfGas, .success]) = true := by decide +kernel
  rcases hrun : t8n Baseline.execute 30002 1 smallBlock [doomedTransaction, repeatingTransaction]
    doomedState with _ | ⟨r, hs'⟩ <;> rw [hrun] at hleft
  · cases hleft
  -- One string is hashed, so the hash need not separate any.
  have hinj : Set.InjOn Ethash.keccak256 {input | input ∈ blockInputs 30002 1 smallBlock
      [doomedTransaction, repeatingTransaction] doomedState} := by
    rw [hinputs]
    rintro x hx y hy -
    have hsame : ∀ x ∈ ([[0], [0]] : List Bytes), x = [0] := by decide
    exact (hsame x hx).trans (hsame y hy).symm
  obtain ⟨r', hs'', hrun', halike, hroot, hagree, -⟩ := t8n_interchange (k := 1474748311) hinj rfl
    codesFit_doomedState tidy_doomedState (by decide) (by decide) (by decide) hrun
  rw [hrun'] at hright
  exact ⟨ethash, r, r', hs', hs'', hrun, hrun', halike, of_decide_eq_true hleft,
    of_decide_eq_true hright, hroot, hagree⟩

end Zvmone
