import Zvmone.State.AccessHistory
import Zvmone.State.BlockGas
import Zvmone.State.Finalize
import Zvmone.State.Interchange
import Zvmone.State.TransitionSteps

/-! # Transactions on two machines

A transaction is accepted or rejected in the same way on every machine that replaces the Baseline
interpreter, and its receipts differ at most in how the transaction failed
(`transition_interchange`). The Advanced interpreter is such a machine. -/

namespace Zvmone

open Interaction StateRun Zvmone.Core Host

/-! ### The inputs of the identity function -/

section inputs

variable [Ethash]

/-- The messages of the tree of a call, the message of the call itself first. -/
def messagesOf (ctx : HostContext) (vm : VM) : Nat → Message → HostState → List Message
  | 0, msg, _ => [msg]
  | n + 1, msg, hs => msg ::
    match entered msg hs with
    | none => []
    | some (m, code, hs₁) =>
      ((vm n m code).queries (answer ctx (call ctx vm n)) hs₁).flatMap fun x =>
        match x.1 with
        | .call m' => messagesOf ctx vm n m' x.2
        | _ => []

/-- The messages of a run are listed. -/
theorem mem_messagesOf {ctx : HostContext} {vm : VM} {fuel n : Nat} {msg m : Message}
    {hs hs' : HostState} (h : Calls ctx vm fuel msg hs n m hs') :
    m ∈ messagesOf ctx vm fuel msg hs := by
  induction h with
  | @self fuel => cases fuel <;> exact List.mem_cons_self
  | nested henters hsend _ ih =>
    refine List.mem_cons_of_mem _ ?_
    rw [entered_eq_some.2 henters]
    exact List.mem_flatMap.2 ⟨_, hsend.mem_queries, ih⟩

/-- The input, if the message calls the identity function. -/
def Message.identityInput (msg : Message) : Option Bytes :=
  if msg.codeAddress = 3 then some msg.inputData else none

/-- The host state in which the call of a transaction starts, with the gas of the call; `none` if the
transaction is rejected. -/
def started (block : BlockInfo) (tx : Transaction) (hs : HostState) : Option (Int × HostState) :=
  match hs.state.find tx.sender with
  | none => none
  | some senderAcc =>
    match validateTransaction senderAcc block tx with
    | .error _ => none
    | .ok executionGasLimit =>
      match buyGas block tx hs with
      | .error _ => none
      | .ok (_, hs₀) =>
        match warmUp block tx { hs₀ with logs := [] } with
        | .error _ => none
        | .ok (_, hs₁) => some (executionGasLimit, hs₁)

omit [Ethash] in
/-- The start of a transaction is computed. -/
theorem Starts.started_eq {block : BlockInfo} {tx : Transaction} {hs hs₁ : HostState}
    {executionGasLimit : Int} (h : Starts block tx hs executionGasLimit hs₁) :
    started block tx hs = some (executionGasLimit, hs₁) := by
  obtain ⟨⟨senderAcc, hfind, hvalid⟩, hs₀, hbuy, hwarm⟩ := h
  simp only [started, hfind, hvalid, hbuy, hwarm]

/-- The inputs that a transaction gives to the identity function. -/
def identityInputs (fuel : Nat) (block : BlockInfo) (tx : Transaction) (hs : HostState) :
    List Bytes :=
  match started block tx hs with
  | none => []
  | some (executionGasLimit, hs₁) =>
    (messagesOf ⟨block, tx⟩ Baseline.execute fuel (buildMessage tx executionGasLimit) hs₁).filterMap
      Message.identityInput

/-- Inputs are restricted for the message of a transaction. -/
theorem Starts.inputsIn {block : BlockInfo} {tx : Transaction} {hs hs₁ : HostState}
    {executionGasLimit : Int} {fuel : Nat} {K : Set Bytes}
    (h : Starts block tx hs executionGasLimit hs₁)
    (hK : ∀ input ∈ identityInputs fuel block tx hs, input ∈ K) :
    InputsIn ⟨block, tx⟩ K fuel (buildMessage tx executionGasLimit) hs₁ := by
  intro n m hs' hcalls haddr
  refine hK _ ?_
  simp only [identityInputs, h.started_eq]
  exact List.mem_filterMap.2 ⟨m, mem_messagesOf hcalls, if_pos haddr⟩

end inputs

/-! ### The phases of a transition -/

/-- Receipts that differ at most in how the transaction failed. -/
structure TransactionReceipt.Alike (r r' : TransactionReceipt) : Prop where
  rest : r' = { r with status := r'.status }
  status : r'.status = r.status ∨ r.status.IsFailure ∧ r'.status.IsFailure

/-- Alike receipts have the same logs. -/
theorem TransactionReceipt.Alike.logs {r r' : TransactionReceipt} (h : r.Alike r') :
    r'.logs = r.logs := by rw [h.rest]

/-- Alike receipts have the same gas used. -/
theorem TransactionReceipt.Alike.gasUsed {r r' : TransactionReceipt} (h : r.Alike r') :
    r'.gasUsed = r.gasUsed := by rw [h.rest]

/-- What becomes of a transaction on two machines: it is rejected by both for the same reason, or
accepted by both with receipts that are alike. -/
inductive OutcomesAlike :
    Except ErrorCode TransactionReceipt → Except ErrorCode TransactionReceipt → Prop
  | rejected (e : ErrorCode) : OutcomesAlike (.error e) (.error e)
  | accepted {r r' : TransactionReceipt} (h : r.Alike r') : OutcomesAlike (.ok r) (.ok r')

section phases

variable [Ethash] {K : Set Bytes} {s t : HostState} {block : BlockInfo} {tx : Transaction}

/-- Erasing accounts from twins, as far as the condition does not depend on the mark. -/
theorem HostState.Twin.eraseDestructed (h : s.Twin K t) :
    HostState.Twin K { s with state := s.state.eraseIf (·.destructed) }
      { t with state := t.state.eraseIf (·.destructed) } := by
  have htouched : ∀ hs : HostState,
      Host.touched { hs with state := hs.state.eraseIf (·.destructed) } addr03
        = if (Host.touched hs addr03).destructed then { erasable := true }
          else Host.touched hs addr03 := by
    intro hs
    unfold Host.touched Host.accountOr
    dsimp only
    rw [find_eraseIf]
    cases hs.state.find addr03 with
    | none => rfl
    | some acc => cases hdestructed : acc.destructed <;> simp [Option.filter, hdestructed]
  refine ⟨fun addr haddr => ?_, ?_, h.logs, h.left, h.right⟩
  · rw [find_eraseIf, find_eraseIf, h.accounts addr haddr]
  · rw [htouched, htouched, h.touched]

/-- Buying gas takes twin states to twin states. -/
theorem tracks_buyGas (h : s.Twin K t) (hsender : (t.state.find tx.sender).isSome) :
    Tracks (fun _ _ s' t' => s'.Twin K t') (buyGas block tx) (buyGas block tx) s t := by
  refine .bind (tracks_assert id) ?_
  rintro _ _ _ _ - - ⟨rfl, rfl⟩
  refine .bind (tracks_assert id) ?_
  rintro _ _ _ _ - - ⟨rfl, rfl⟩
  refine .bind (tracks_assert id) ?_
  rintro _ _ _ _ - - ⟨rfl, rfl⟩
  refine .bind (tracks_getAccount h hsender) ?_
  rintro acc _ _ _ - - ⟨⟨mark, rfl, hmark⟩, rfl, rfl⟩
  have hacc : TwinAccounts tx.sender { acc with balance := acc.balance - tx.maxCost block }
      { acc with balance := acc.balance - tx.maxCost block, erasable := mark } := ⟨mark, rfl, hmark⟩
  exact (tracks_setAccount h hacc).mono fun _ _ _ _ hset => hset.1

/-- One item of the access list; its account is there once it is accessed. -/
theorem tracks_accessListItem (item : Address × List Bytes32) (h : s.Twin K t) :
    Tracks (fun _ _ s' t' => s'.Twin K t') (accessListItem item) (accessListItem item) s t := by
  refine .bind (tracks_accessAccount h) ?_
  rintro _ _ s₁ t₁ - haccess ⟨-, h₁⟩
  have hright : (t₁.state.find item.1).isSome := by
    rw [(accessAccount_ok haccess).1]
    exact isSome_find_setAcc _ _ _
  refine .bind (tracks_getAccount h₁ hright) ?_
  rintro acc _ _ _ - - ⟨⟨mark, rfl, hmark⟩, rfl, rfl⟩
  have hacc : TwinAccounts item.1 { acc with storage := warmSlots acc.storage item.2 }
      { acc with storage := warmSlots acc.storage item.2, erasable := mark } := ⟨mark, rfl, hmark⟩
  exact (tracks_setAccount h₁ hacc).mono fun _ _ _ _ hset => hset.1

/-- Making the accounts of the transaction warm takes twin states to twin states. -/
theorem tracks_warmUp (h : s.Twin K t) (hsender : (t.state.find tx.sender).isSome) :
    Tracks (fun _ _ s' t' => s'.Twin K t') (warmUp block tx) (warmUp block tx) s t := by
  have haccess : ∀ addr {s t : HostState}, s.Twin K t →
      Tracks (fun _ _ s' t' => s'.Twin K t') (accessAccount addr) (accessAccount addr) s t :=
    fun addr _ _ h => (tracks_accessAccount h).mono fun _ _ _ _ hset => hset.2
  have hrest : ∀ {s t : HostState}, s.Twin K t → Tracks (fun _ _ s' t' => s'.Twin K t') (do
      tx.accessList.forM accessListItem
      let _ ← accessAccount block.coinbase : HostS Unit) (do
      tx.accessList.forM accessListItem
      let _ ← accessAccount block.coinbase : HostS Unit) s t := by
    intro s t h
    refine .bind (.forM (fun item s t h => tracks_accessListItem item h) tx.accessList h) ?_
    exact fun _ _ _ _ _ _ h₁ => .bind (haccess block.coinbase h₁) fun _ _ _ _ _ _ h₂ => .pure h₂
  refine .bind (tracks_getAccount h hsender) ?_
  rintro acc _ _ _ - - ⟨⟨mark, rfl, hmark⟩, rfl, rfl⟩
  have hacc : TwinAccounts tx.sender { acc with accessStatus := .warm }
      { acc with accessStatus := .warm, erasable := mark } := ⟨mark, rfl, hmark⟩
  refine .bind (tracks_setAccount h hacc) ?_
  rintro _ _ _ _ - - ⟨h₁, -, -⟩
  cases tx.to_ with
  | none => exact hrest h₁
  | some to_ => exact .bind (haccess to_ h₁) fun _ _ _ _ _ _ h₂ => hrest h₂

/-- The sender of a transaction is paid back and the coinbase paid. -/
theorem tracks_settle (gasUsed : Int) (h : s.Twin K t)
    (hsender : (t.state.find tx.sender).isSome) :
    Tracks (fun _ _ s' t' => s'.Twin K t') (settle block tx gasUsed) (settle block tx gasUsed)
      s t := by
  -- The same gas was used, so the same amounts are paid on both sides.
  refine .bind (tracks_assert id) ?_
  rintro _ _ _ _ - - ⟨rfl, rfl⟩
  refine .bind (tracks_getAccount h hsender) ?_
  rintro acc _ _ _ - - ⟨⟨mark, rfl, hmark⟩, rfl, rfl⟩
  have hacc : TwinAccounts tx.sender
      { acc with balance := acc.balance + tx.unused block gasUsed }
      { acc with balance := acc.balance + tx.unused block gasUsed, erasable := mark } :=
    ⟨mark, rfl, hmark⟩
  refine .bind (tracks_setAccount h hacc) ?_
  rintro _ _ _ _ - - ⟨h₁, -, -⟩
  refine .bind (tracks_touch h₁) ?_
  rintro coinbaseAcc _ _ _ - - ⟨⟨mark, rfl, hmark⟩, h₂, -⟩
  have hacc : TwinAccounts block.coinbase
      { coinbaseAcc with balance := coinbaseAcc.balance + tx.reward block gasUsed }
      { coinbaseAcc with
        balance := coinbaseAcc.balance + tx.reward block gasUsed, erasable := mark } :=
    ⟨mark, rfl, hmark⟩
  refine .bind (tracks_setAccount h₂ hacc) ?_
  rintro _ _ _ _ - - ⟨h₃, -, -⟩
  exact .modify h₃.eraseDestructed

end phases

/-! ### Transitions -/

section transition

variable [Ethash] {vm : VM} {steps : Int → Nat} {K : Set Bytes} {s t s' hs₀ hs₁ : HostState}
  {block : BlockInfo} {tx : Transaction} {senderAcc : Account} {executionGasLimit : Int} {n k : Nat}

/-- With less gas no more steps are granted. -/
theorem VM.Replaces.steps_le (hvm : vm.Replaces steps) {gas gas' : Int} (hgas : 0 ≤ gas)
    (hle : gas ≤ gas') : steps gas ≤ steps gas' := by
  rcases hle.eq_or_lt with rfl | hlt
  · exact le_rfl
  · exact (hvm.lt hgas hlt).le

omit [Ethash] in
/-- The init code of a valid transaction is not too long. -/
theorem initCode_of_valid (h : validateTransaction senderAcc block tx = .ok executionGasLimit)
    (hto : tx.to_ = none) : tx.data.length ≤ maxInitcodeSize := by
  by_contra hlong
  have hsize : tx.to_.isNone ∧ tx.data.length > maxInitcodeSize := by
    rw [hto]
    exact ⟨rfl, not_le.1 hlong⟩
  unfold validateTransaction at h
  rw [if_pos hsize] at h
  split_ifs at h

omit [Ethash] in
/-- What a transaction does before its call changes no code. -/
theorem codesFit_bought {u u' : Unit} (hbuy : buyGas block tx s = .ok (u, hs₀))
    (hwarm : warmUp block tx { hs₀ with logs := [] } = .ok (u', hs₁)) (h : CodesFit s) :
    CodesFit hs₁ := by
  have hkeeps : Keeps (fun hs hs' => CodesFit hs → CodesFit hs') (warmUp block tx) :=
    KeptByWarming.warmUp {
      account := fun hs addr h => h.setAcc (h.accountOr addr true)
      sender := fun hfind h => h.setAcc_of_find hfind rfl
      slots := fun _ hfind h => h.setAcc_of_find hfind rfl } block tx
  refine hkeeps _ _ _ hwarm ?_
  obtain ⟨-, -, acc, hfind, rfl⟩ := buyGas_ok hbuy
  exact h.setAcc_of_find hfind rfl

omit [Ethash] in
/-- Settling a transaction writes no code. -/
theorem codesFit_settled {gasUsed : Int} {u : Unit} (h : CodesFit s)
    (hsettle : settle block tx gasUsed s = .ok (u, s')) : CodesFit s' := by
  obtain ⟨-, acc, hfind, rfl⟩ := settle_ok hsettle
  have hpaid : CodesFit (paidBack block tx gasUsed s acc) := h.setAcc_of_find hfind rfl
  have hrewarded : CodesFit (rewarded block tx gasUsed (paidBack block tx gasUsed s acc)) :=
    hpaid.setAcc (hpaid.accountOr block.coinbase false)
  intro addr acc' hfind'
  dsimp only at hfind'
  rw [find_eraseIf, Option.filter_eq_some_iff] at hfind'
  exact hrewarded addr acc' hfind'.1

/-- What is needed to run a transaction in twins, with the Baseline interpreter and the fuel `n` on the
left, and with the fuel `k` on the right. -/
structure Processable (K : Set Bytes) (steps : Int → Nat) (n k : Nat) (block : BlockInfo)
    (tx : Transaction) (s t : HostState) : Prop where
  twin : s.Twin K t
  codes : CodesFit s
  sender : (s.state.find tx.sender).isSome → (t.state.find tx.sender).isSome
  fuel : block.gasLimit.toNat + 2 ≤ n
  steps : steps block.gasLimit < k
  inputs : ∀ input ∈ identityInputs n block tx s, input ∈ K

/-- The message of a transaction can be called. -/
theorem Processable.callable {t₀ t₁ : HostState} (hvm : VM.Replaces vm steps)
    (h : Processable K steps n k block tx s t) (hfind : s.state.find tx.sender = some senderAcc)
    (hvalidate : validateTransaction senderAcc block tx = .ok executionGasLimit)
    (hbuy : buyGas block tx s = .ok ((), hs₀))
    (hwarm : warmUp block tx { hs₀ with logs := [] } = .ok ((), hs₁))
    (hbuy' : buyGas block tx t = .ok ((), t₀))
    (hwarm' : warmUp block tx { t₀ with logs := [] } = .ok ((), t₁)) (htwin : hs₁.Twin K t₁) :
    Callable ⟨block, tx⟩ K steps n k (buildMessage tx executionGasLimit) hs₁ t₁ := by
  have hvalid := validateTransaction_ok hvalidate
  have hgas := hvalid.gas
  have hintrinsic := hvalid.intrinsic
  have hblock := hvalid.blockGas
  have hcost := computeTxIntrinsicCost_ge tx
  have hfuel := h.fuel
  have hsteps := h.steps
  have hnonneg : 0 ≤ executionGasLimit := by omega
  have hle : executionGasLimit ≤ block.gasLimit := by omega
  have hstarts : Starts block tx s executionGasLimit hs₁ :=
    ⟨⟨senderAcc, hfind, hvalidate⟩, hs₀, hbuy, hwarm⟩
  refine {
    twin := htwin
    gas := hnonneg
    fuel := ?_
    steps := (hvm.steps_le hnonneg hle).trans_lt hsteps
    initCode := fun hkind => ?_
    codes := codesFit_bought hbuy hwarm h.codes
    sender := ?_
    delegated := fun hkind => ?_
    inputs := hstarts.inputsIn h.inputs }
  · have htoNat : executionGasLimit.toNat ≤ block.gasLimit.toNat := Int.toNat_le_toNat hle
    exact (Nat.add_le_add_right htoNat 2).trans hfuel
  -- A transaction without a recipient creates a contract.
  · refine initCode_of_valid hvalidate ?_
    cases hto : tx.to_ with
    | none => rfl
    | some to_ =>
      unfold buildMessage at hkind
      rw [hto] at hkind
      exact absurd hkind (by decide : ¬ CallKind.call.IsCreate)
  · obtain ⟨-, -, acc, -, rfl⟩ := buyGas_ok hbuy'
    exact accountsStay_warmUp block tx _ _ _ hwarm' _ (isSome_find_setAcc _ _ _)
  · unfold buildMessage at hkind
    dsimp only at hkind
    split at hkind <;> cases hkind

/-- A valid transaction is executed in twins. -/
theorem tracks_execute (hinj : Set.InjOn Ethash.keccak256 K) (hvm : VM.Replaces vm steps)
    (h : Processable K steps n k block tx s t) (hfind : s.state.find tx.sender = some senderAcc)
    (hvalidate : validateTransaction senderAcc block tx = .ok executionGasLimit) :
    Tracks (fun r r' s' t' => r.Alike r' ∧ s'.Twin K t')
      (execute Baseline.execute n block tx executionGasLimit)
      (execute vm k block tx executionGasLimit) s t := by
  have hsender := h.sender (by rw [hfind]; rfl)
  refine .bind (tracks_buyGas h.twin hsender) fun _ _ s₀ t₀ hbuy hbuy' h₀ => ?_
  have hstay₀ : AccountsStay t t₀ := by
    obtain ⟨-, -, acc, -, rfl⟩ := buyGas_ok hbuy'
    exact accountsStay_setAcc t tx.sender _
  have hclear : HostState.Twin K { s₀ with logs := [] } { t₀ with logs := [] } :=
    ⟨h₀.accounts, h₀.touched, rfl, h₀.left, h₀.right⟩
  have hmodify : Tracks (ε := Fault) (fun _ _ s' t' => s' = { s₀ with logs := [] } ∧
      t' = { t₀ with logs := [] }) (modify fun hs => { hs with logs := [] })
      (modify fun hs => { hs with logs := [] }) s₀ t₀ := .modify ⟨rfl, rfl⟩
  refine .bind hmodify ?_
  rintro _ _ _ _ - - ⟨rfl, rfl⟩
  refine .bind (tracks_warmUp hclear (hstay₀ _ hsender)) fun _ _ s₁ t₁ hwarm hwarm' h₁ => ?_
  have hcallable := h.callable hvm hfind hvalidate hbuy hwarm hbuy' hwarm' h₁
  refine .bind (tracks_call hinj hvm hcallable) ?_
  rintro r r' s₂ t₂ - hcall' ⟨halike, h₂⟩
  -- The gas that is used depends on the gas and the refund of the call only.
  have hused : gasUsedAfter tx r' = gasUsedAfter tx r := by
    unfold gasUsedAfter
    rw [halike.gasLeft, halike.gasRefund]
  have hsender₂ := accountsStay_keptByHost.keeps k _ _ _ _ hcall' _ hcallable.sender
  rw [hused]
  refine .bind (tracks_settle _ h₂ hsender₂) fun _ _ s₃ t₃ _ _ h₃ => ?_
  have hget : Tracks (ε := Fault) (fun a b s' t' => a = s₃ ∧ b = t₃ ∧ s' = s₃ ∧ t' = t₃)
      get get s₃ t₃ := .get ⟨rfl, rfl, rfl, rfl⟩
  refine .bind hget ?_
  rintro _ _ _ _ - - ⟨rfl, rfl, rfl, rfl⟩
  refine .pure ⟨⟨?_, halike.status⟩, h₃⟩
  rw [h₃.logs]

/-- A transaction in twins. -/
theorem tracks_transition (hinj : Set.InjOn Ethash.keccak256 K) (hvm : VM.Replaces vm steps)
    (h : Processable K steps n k block tx s t) :
    Tracks (fun x x' s' t' => OutcomesAlike x x' ∧ s'.Twin K t')
      (transition Baseline.execute n block tx) (transition vm k block tx) s t := by
  cases hfind : s.state.find tx.sender with
  | none =>
    intro x s' hrun
    obtain ⟨acc, s₁, hget, -⟩ := bind_eq_ok.1 hrun
    cases hfind.symm.trans (getAccount_eq_ok.1 hget).1
  | some senderAcc =>
    refine .bind (tracks_getAccount h.twin (h.sender (by rw [hfind]; rfl))) ?_
    rintro acc _ _ _ hget - ⟨⟨mark, rfl, -⟩, rfl, rfl⟩
    cases hfind.symm.trans (getAccount_eq_ok.1 hget).1
    -- The validation does not look at the mark for erasure.
    have hsame : validateTransaction { senderAcc with erasable := mark } block tx
        = validateTransaction senderAcc block tx := rfl
    rw [hsame]
    cases hvalidate : validateTransaction senderAcc block tx with
    | error e => exact .pure ⟨.rejected e, h.twin⟩
    | ok executionGasLimit =>
      exact .bind (tracks_execute hinj hvm h hfind hvalidate) fun _ _ _ _ _ _ hends =>
        .pure ⟨.accepted hends.1, hends.2⟩

/-- **For a transaction the Advanced interpreter can take the place of the Baseline interpreter.** If a
transition ends with the Baseline interpreter, then it also does with the Advanced one, from the same
state: the transaction is rejected with the same error, or accepted with a receipt that differs at
most in how the transaction failed. The accounts are the same but for the mark for erasure at `0x03`,
if no two inputs of the identity function, whose results are cached, have the same hash. -/
theorem transition_interchange {x : Except ErrorCode TransactionReceipt}
    (hinj : Set.InjOn Ethash.keccak256 K) (hcache : Precompiles.Cache.Sound K s.cache)
    (hinputs : ∀ input ∈ identityInputs n block tx s, input ∈ K) (hcodes : CodesFit s)
    (hfuel : block.gasLimit.toNat + 2 ≤ n) (hsteps : Advanced.stepsFor block.gasLimit < k)
    (hrun : transition Baseline.execute n block tx s = .ok (x, s')) :
    ∃ x' t', transition Advanced.execute k block tx s = .ok (x', t') ∧ OutcomesAlike x x' ∧
      s'.Twin K t' :=
  tracks_transition hinj Advanced.replaces ⟨.refl hcache, hcodes, id, hfuel, hsteps, hinputs⟩ x s'
    hrun

end transition

/-- An account that calls the identity function and takes too much off the stack, in a block that costs
more gas than there is; and an account that can pay. -/
def doomedState : HostState :=
  { state := ((⟨∅⟩ : State).set 0x10 { nonce := 1, code := [0x5f, 0x5f, 0x60, 0x01, 0x5f, 0x5f, 0x60,
      0x03, 0x5a, 0xf1, 0x50, 0x50] ++ List.replicate 20 0x31 }).set 0x20 { balance := 100000 } }

/-- A transaction that calls the first account. -/
def doomedTransaction : Transaction :=
  { gasLimit := 22000, maxGasPrice := 1, maxPriorityGasPrice := 1, sender := 0x20,
    to_ := some 0x10, value := 0 }

/-- The codes of the instance fit. -/
theorem codesFit_doomedState : CodesFit doomedState := by
  have hempty : CodesFit { state := ⟨∅⟩ } := fun _ _ h => by cases h
  exact (hempty.setAcc (by decide)).setAcc (by decide)

/-- The transaction fails in two ways, and only the Baseline interpreter has called the identity
function before. -/
theorem transition_interchange_doomed : ∃ (_ : Ethash) (r r' : TransactionReceipt)
    (s' t' : HostState),
    transition Baseline.execute 30002 smallBlock doomedTransaction doomedState = .ok (.ok r, s') ∧
      transition Advanced.execute 1474748311 smallBlock doomedTransaction doomedState
        = .ok (.ok r', t') ∧
      r.Alike r' ∧ s'.Twin {[0]} t' ∧ r.status = .stackUnderflow ∧ r'.status = .outOfGas ∧
      (s'.state.find 3).isSome ∧ t'.state.find 3 = none := by
  let ethash : Ethash := ⟨fun _ => 0⟩
  -- The one input of the precompile; both runs end in a failure, for different reasons.
  have hinputs : identityInputs 30002 smallBlock doomedTransaction doomedState = [[0]] := by
    decide +kernel
  have hleft : ((transition Baseline.execute 30002 smallBlock doomedTransaction
      doomedState).toOption.any fun x => x.1.toOption.any (·.status = .stackUnderflow) ∧
        (x.2.state.find 3).isSome) = true := by decide +kernel
  have hright : ((transition Advanced.execute 1474748311 smallBlock doomedTransaction
      doomedState).toOption.all fun x => x.1.toOption.all (·.status = .outOfGas) ∧
        (x.2.state.find 3).isNone) = true := by decide +kernel
  rcases hrun : transition Baseline.execute 30002 smallBlock doomedTransaction doomedState with
    _ | ⟨_ | r, s'⟩ <;> rw [hrun] at hleft
  · cases hleft
  · cases hleft
  obtain ⟨hstatus, hfind⟩ := of_decide_eq_true hleft
  obtain ⟨x', t', hrun', houtcome, htwin⟩ := transition_interchange (K := {[0]}) (k := 1474748311)
    (Set.injOn_singleton _ _) (Precompiles.Cache.sound_empty _)
    (fun input hinput => by rw [hinputs] at hinput; exact List.mem_singleton.1 hinput)
    codesFit_doomedState (by decide) (by decide) hrun
  cases houtcome with
  | accepted halike =>
    rw [hrun'] at hright
    obtain ⟨hstatus', hfind'⟩ := of_decide_eq_true hright
    exact ⟨ethash, r, _, s', t', hrun, hrun', halike, htwin, of_decide_eq_true hstatus,
      of_decide_eq_true hstatus', hfind, Option.isNone_iff_eq_none.1 hfind'⟩

/-- **What was cached before a transaction does not matter.** The results of precompiles that earlier
transactions have left in the static cache change nothing but the kind of a failure: from two sound
caches a transaction is rejected in the same way, or accepted with receipts that are alike. -/
theorem transition_ignores_cache [Ethash] {K : Set Bytes} {s s' : HostState} {block : BlockInfo}
    {tx : Transaction} {n : Nat} {cache : Precompiles.Cache}
    {x : Except ErrorCode TransactionReceipt}
    (hinj : Set.InjOn Ethash.keccak256 K) (hcache : Precompiles.Cache.Sound K s.cache)
    (hcache' : Precompiles.Cache.Sound K cache)
    (hinputs : ∀ input ∈ identityInputs n block tx s, input ∈ K) (hcodes : CodesFit s)
    (hfuel : block.gasLimit.toNat + 2 ≤ n)
    (hrun : transition Baseline.execute n block tx s = .ok (x, s')) :
    ∃ x' t', transition Baseline.execute n block tx { s with cache } = .ok (x', t') ∧
      OutcomesAlike x x' ∧ s'.Twin K t' := by
  have htwin : s.Twin K { s with cache } := ⟨fun _ _ => rfl, rfl, rfl, hcache, hcache'⟩
  have hsteps : block.gasLimit.toNat + 1 < n := hfuel
  exact tracks_transition hinj Baseline.replaces ⟨htwin, hcodes, id, hfuel, hsteps, hinputs⟩ x s' hrun

/-- The cache once the identity function has returned the input of the transaction. -/
def filledCache [Ethash] : Precompiles.Cache :=
  Precompiles.Cache.insert (fun _ => ∅) ⟨3, by decide⟩ [0] { statusCode := .success, outputData := [0] }

/-- The cache of the instance is sound. -/
theorem sound_filledCache [Ethash] : Precompiles.Cache.Sound {[0]} filledCache :=
  (Precompiles.Cache.sound_empty _).insert fun _ => .identity rfl rfl rfl (by decide)

/-- Here the identity function is not executed. -/
theorem transition_ignores_cache_filled : ∃ (_ : Ethash) (r r' : TransactionReceipt)
    (s' t' : HostState),
    transition Baseline.execute 30002 smallBlock doomedTransaction doomedState = .ok (.ok r, s') ∧
      transition Baseline.execute 30002 smallBlock doomedTransaction
        { doomedState with cache := filledCache } = .ok (.ok r', t') ∧
      r.Alike r' ∧ s'.Twin {[0]} t' := by
  let ethash : Ethash := ⟨fun _ => 0⟩
  have hinputs : identityInputs 30002 smallBlock doomedTransaction doomedState = [[0]] := by
    decide +kernel
  have hleft : ((transition Baseline.execute 30002 smallBlock doomedTransaction
      doomedState).toOption.any fun x => x.1.toOption.isSome) = true := by decide +kernel
  rcases hrun : transition Baseline.execute 30002 smallBlock doomedTransaction doomedState with
    _ | ⟨_ | r, s'⟩ <;> rw [hrun] at hleft
  · cases hleft
  · cases hleft
  obtain ⟨x', t', hrun', houtcome, htwin⟩ := transition_ignores_cache (K := {[0]})
    (Set.injOn_singleton _ _) (Precompiles.Cache.sound_empty _) sound_filledCache
    (fun input hinput => by rw [hinputs] at hinput; exact List.mem_singleton.1 hinput)
    codesFit_doomedState (by decide) hrun
  cases houtcome with
  | accepted halike => exact ⟨ethash, r, _, s', t', hrun, hrun', halike, htwin⟩

end Zvmone
