import Zvmone.Vm.GasOverflow
import Zvmone.Vm.MemoryWords

/-! # No gas computation of an instruction overflows

Every instruction on signed 64-bit integers does the same as the instruction on unbounded integers
(`Signed.exact_coreImpl`). -/

namespace Zvmone

open Interaction InstrM Instr Zvmone.Core

namespace Signed

variable [SignedArithmetic]

/-! ### Costs -/

omit [SignedArithmetic] in
/-- A word has 32 bytes. -/
theorem countSignificantBytes_le (x : Word) : x.countSignificantBytes ≤ 32 := by
  unfold Word.countSignificantBytes
  split
  · decide
  next hx =>
    have hpos : x.toNat ≠ 0 := fun h => hx (BitVec.eq_of_toNat_eq h)
    have hlog : Nat.log2 x.toNat < 256 := (Nat.log2_lt hpos).mpr x.isLt
    omega

omit [SignedArithmetic] in
/-- A buffer of the admitted size has at most `2 ^ 28` words. -/
theorem numWords_bounds {n : Nat} (h : n ≤ maxBufferSize) :
    0 ≤ Zvmone.numWords n ∧ Zvmone.numWords n ≤ 2 ^ 28 := by
  simp only [maxBufferSize] at h
  simp only [Zvmone.numWords, wordSize]
  omega

omit [SignedArithmetic] in
/-- The costs of storage are between 0 and 20000. -/
theorem sstoreCosts_bounds (status : StorageStatus) :
    0 ≤ (sstoreCosts status).gasCost ∧ (sstoreCosts status).gasCost ≤ 20000 := by
  cases status <;> decide

/-- The number of words of a buffer of the admitted size is computed exactly. -/
theorem numWords_of_le {n : Nat} (h : n ≤ maxBufferSize) :
    numWords n = .ret (Zvmone.numWords n) := by
  simp only [maxBufferSize] at h
  exact numWords_eq (by omega)

omit [SignedArithmetic] in
/-- Cutting off a size of the admitted range changes nothing. -/
theorem toSize_le {size : Word} (h : size.toNat ≤ maxBufferSize) : size.toSize ≤ maxBufferSize :=
  (Word.toSize_of_le h).le.trans h

/-- A charge for every word. -/
theorem exact_chargeWords {β : Type} {n : Nat} {price : Int} {f f' : Unit → InstrM β}
    (hn : n ≤ maxBufferSize) (h : 0 ≤ price) (h' : price ≤ 2 ^ 10) (hf : Exact (f ()) (f' ())) :
    Exact (compute (numWords n) >>= fun words => compute (SignedArithmetic.int64 (words * price)) >>=
        fun cost => charge cost >>= f)
      (InstrM.charge (Zvmone.numWords n * price) >>= f') := by
  obtain ⟨hnonneg, hle⟩ := numWords_bounds hn
  have hpos : 0 ≤ Zvmone.numWords n * price := Int.mul_nonneg hnonneg h
  have hmul : Zvmone.numWords n * price ≤ 2 ^ 28 * 2 ^ 10 := Int.mul_le_mul hle h' h (by decide)
  exact .compute (numWords_of_le hn) (.compute (int64_eq (by omega) (by omega))
    ((exact_charge hpos (by omega)).bind fun _ => hf))

/-- The charge for copied words is exact. -/
theorem exact_chargeCopy {s : Nat} (h : s ≤ maxBufferSize) :
    Exact (chargeCopy s) (InstrM.charge (Zvmone.numWords s * 3)) := by
  obtain ⟨hnonneg, hle⟩ := numWords_bounds h
  exact .compute (numWords_of_le h) (.compute (int64_eq (by omega) (by omega))
    (exact_charge (by omega) (by omega)))

/-! ### Instructions -/

/-- `EXP` is exact: it charges at most `32 * 50`. -/
theorem exact_exp : Exact exp Core.exp := by
  refine exact_pop.bind fun base => exact_top.bind fun exponent => ?_
  have hbytes := countSignificantBytes_le exponent
  exact .compute (int32_eq (by omega) (by omega))
    ((exact_charge (by omega) (by omega)).bind fun _ => exact_setTop _)

/-- `KECCAK256` is exact, since the memory check bounds the size before the words are counted. -/
theorem exact_keccak256 [Ethash] : Exact keccak256 Core.keccak256 :=
  exact_pop.bind fun _ => exact_top.bind fun _ => .requireMemory fun hsize =>
    exact_chargeWords (toSize_le hsize) (by decide) (by decide)
      (exact_state.bind fun _ => exact_setTop _)

/-- The cold account charge is exact. -/
theorem exact_accessAccount (addr : Address) :
    Exact (accessAccount addr) (Core.accessAccount addr) :=
  .host trivial fun _ =>
    exact_ite (fun _ => exact_charge (by decide) (by decide)) fun _ => exact_pure ()

/-- The account queries are exact. -/
theorem exact_accountQuery {query : Address → HostCall}
    {value : ∀ addr, (query addr).Answer → Word} (hquery : ∀ addr, gasContract.pre () (query addr)) :
    Exact (accountQuery query value) (Core.accountQuery query value) :=
  exact_top.bind fun _ => (exact_accessAccount _).bind fun _ =>
    .host (hquery _) fun _ => exact_setTop _

/-- `CALLDATACOPY` and `CODECOPY` are exact. -/
theorem exact_copy (buffer : ExecutionState → Bytes) : Exact (copy buffer) (Core.copy buffer) :=
  exact_pop.bind fun _ => exact_pop.bind fun _ => exact_pop.bind fun _ =>
    .requireMemory fun hsize => exact_state.bind fun _ =>
      (exact_chargeCopy (toSize_le hsize)).bind fun _ => (exact_writeMemory _ _).when fun _ =>
        exact_ite (fun _ => exact_writeMemory _ _) fun _ => exact_pure ()

/-- `EXTCODECOPY` is exact. -/
theorem exact_extcodecopy : Exact extcodecopy Core.extcodecopy :=
  exact_pop.bind fun _ => exact_pop.bind fun _ => exact_pop.bind fun _ => exact_pop.bind fun _ =>
    .requireMemory fun hsize => (exact_chargeCopy (toSize_le hsize)).bind fun _ =>
      (exact_accessAccount _).bind fun _ => exact_ite
        (fun _ => .host trivial fun _ => (exact_writeMemory _ _).bind fun _ =>
          exact_ite (fun _ => exact_writeMemory _ _) fun _ => exact_pure ())
        fun _ => exact_pure ()

/-- `RETURNDATACOPY` is exact. -/
theorem exact_returndatacopy : Exact returndatacopy Core.returndatacopy :=
  exact_pop.bind fun _ => exact_pop.bind fun _ => exact_pop.bind fun _ =>
    .requireMemory fun hsize => exact_state.bind fun _ =>
      (exact_exit _).when fun _ => (exact_exit _).when fun _ =>
        (exact_chargeCopy (toSize_le hsize)).bind fun _ =>
          exact_ite (fun _ => exact_writeMemory _ _) fun _ => exact_pure ()

/-- `MLOAD` is exact. -/
theorem exact_mload : Exact mload Core.mload :=
  exact_top.bind fun _ => .requireMemorySmall (by decide)
    (exact_state.bind fun _ => exact_setTop _)

/-- `MSTORE` is exact. -/
theorem exact_mstore : Exact mstore Core.mstore :=
  exact_pop.bind fun _ => exact_pop.bind fun _ =>
    .requireMemorySmall (by decide) (exact_writeMemory _ _)

/-- `MSTORE8` is exact. -/
theorem exact_mstore8 : Exact mstore8 Core.mstore8 :=
  exact_pop.bind fun _ => exact_pop.bind fun _ =>
    .requireMemorySmall (by decide) (exact_writeMemory _ _)

/-- `LOG` is exact: the price of the data is at most `8 * 2 ^ 32`. -/
theorem exact_log (n : Nat) : Exact (log n) (Core.log n) := by
  refine exact_state.bind fun st => exact_ite (fun _ => ?_) fun _ => exact_pop.bind fun _ =>
    exact_pop.bind fun size => .requireMemory fun hsize => ?_
  · refine Exact.bind (exact_modify fun c hc => ⟨?_, ?_, hc.memory⟩) fun _ => exact_exit_bind _ _ _
    · show -2 ^ 62 ≤ (0 : Int)
      omega
    · show (0 : Int) < 2 ^ 63
      omega
  · have hle := toSize_le hsize
    simp only [maxBufferSize] at hle
    exact .compute (int64_eq (by omega) (by omega)) ((exact_charge (by omega) (by omega)).bind fun _ =>
      (exact_mapM (fun _ => exact_pop) _).bind fun _ => exact_state.bind fun _ => exact_host trivial)

/-- `RETURN` and `REVERT` are exact. -/
theorem exact_returnImpl (status : StatusCode) :
    Exact (returnImpl status) (Core.returnImpl status) :=
  (exact_read _).bind fun _ => (exact_read _).bind fun _ => .requireMemory fun _ =>
    Exact.bind (exact_modifyState fun _ => rfl) fun _ =>
      Exact.when (exact_modifyState fun _ => rfl) fun _ => exact_pure status

/-- `SLOAD` is exact. -/
theorem exact_sload : Exact sload Core.sload :=
  exact_top.bind fun _ => exact_state.bind fun _ => .host trivial fun _ =>
    Exact.when (exact_charge (by decide) (by decide)) fun _ =>
      .host trivial fun _ => exact_setTop _

/-- `SSTORE` is exact. -/
theorem exact_sstore : Exact sstore Core.sstore := by
  refine exact_state.bind fun _ => (exact_exit _).when fun _ => (exact_read _).bind fun _ =>
    (exact_exit _).when fun _ => exact_pop.bind fun _ => exact_pop.bind fun _ =>
    exact_state.bind fun _ => .host trivial fun access => .host trivial fun status => ?_
  obtain ⟨hnonneg, hle⟩ := sstoreCosts_bounds status
  have hcold : 0 ≤ (if access = AccessStatus.cold then coldSloadCost else 0) ∧
      (if access = AccessStatus.cold then coldSloadCost else 0) ≤ 2100 := by
    split <;> decide
  exact .compute (int32_eq (by omega) (by omega)) ((exact_charge (by omega) (by omega)).bind fun _ =>
    exact_modifyState fun _ => rfl)

/-! ### Calls -/

/-- The last charge of a call instruction. -/
theorem exact_callTail {p : Prop} [Decidable p] (l : CallLocals) (value : Word) (dst : Address) :
    Exact
      (if p then do
        let exists_ ← host (HostCall.accountExists dst)
        let cost ← if exists_ = true then pure (if value ≠ 0 then 9000 else 0)
          else compute (SignedArithmetic.int32 ((if value ≠ 0 then 9000 else 0) + 25000))
        charge cost
        return l
      else do
        let cost ← pure (if value ≠ 0 then 9000 else 0)
        charge cost
        return l)
      (if p then do
        let exists_ ← host (HostCall.accountExists dst)
        let newAccountCost ← pure (if exists_ then 0 else 25000)
        InstrM.charge ((if value ≠ 0 then 9000 else 0) + newAccountCost)
        return l
      else do
        let newAccountCost ← pure 0
        InstrM.charge ((if value ≠ 0 then 9000 else 0) + newAccountCost)
        return l) := by
  -- The two sums are equal, and small enough for 32 bits.
  have hfinal : ∀ {cost newAccountCost : Int},
      cost = (if value ≠ 0 then 9000 else 0) + newAccountCost → 0 ≤ newAccountCost →
      newAccountCost ≤ 25000 →
      Exact (do charge cost; return l)
        (do InstrM.charge ((if value ≠ 0 then 9000 else 0) + newAccountCost); return l) := by
    rintro cost newAccountCost rfl hnonneg hle
    refine (exact_charge ?_ ?_).bind fun _ => exact_pure l
    · split <;> omega
    · split <;> omega
  refine exact_ite (fun _ => .host trivial fun (exists_ : Bool) => ?_)
    fun _ => hfinal (Int.add_zero _).symm (by decide) (by decide)
  cases exists_ with
  | true => exact hfinal (Int.add_zero _).symm (by decide) (by decide)
  | false =>
    exact .compute (int32_eq (by split <;> omega) (by split <;> omega))
      (hfinal rfl (by decide) (by decide))

/-- A call instruction is exact up to its last charge. -/
theorem exact_callCharge (op : CallOp) : Exact (callCharge op) (Core.callCharge op) := by
  unfold callCharge Core.callCharge
  refine exact_pop.bind fun gas => exact_pop.bind fun x =>
    exact_ite (fun _ => (exact_pure 0).bind fun value => ?_) fun _ => exact_pop.bind fun value => ?_
  all_goals
    refine exact_pop.bind fun _ => exact_pop.bind fun _ => exact_pop.bind fun _ =>
      exact_pop.bind fun _ => (exact_push 0).bind fun _ =>
      Exact.bind (exact_modifyState fun _ => rfl) fun _ => (exact_accessAccount _).bind fun _ =>
      .requireMemory fun _ => .requireMemory fun _ => exact_state.bind fun st => ?_
    exact exact_ite (fun _ => exact_ite (fun _ => exact_exit_bind _ _ _)
      fun _ => exact_callTail _ value _) fun _ => exact_callTail _ value _

/-- The charges of a create instruction. -/
theorem exact_createCharge (op : CreateOp) : Exact (createCharge op) (Core.createCharge op) := by
  unfold createCharge Core.createCharge
  have hprice : ∀ {hashCost : Int}, hashCost = 6 * (if op = .create2 then 1 else 0) →
      0 ≤ hashCost ∧ hashCost ≤ 6 := by
    rintro _ rfl
    split <;> decide
  obtain ⟨hnonneg, hle⟩ := hprice rfl
  refine exact_state.bind fun st => (exact_exit _).when fun _ => exact_pop.bind fun _ =>
    exact_pop.bind fun _ => exact_pop.bind fun size =>
    exact_ite (fun _ => exact_pop.bind fun salt => ?_) fun _ => (exact_pure 0).bind fun salt => ?_
  all_goals
    refine (exact_push 0).bind fun _ => Exact.bind (exact_modifyState fun _ => rfl) fun _ =>
      .requireMemory fun hsize => (exact_exit _).when fun _ =>
      .compute (int32_eq (by omega) (by omega)) (.compute (int32_eq (by omega) (by omega)) ?_)
    exact exact_chargeWords (toSize_le hsize) (by omega) (by omega)
      (exact_state.bind fun _ => exact_pure _)

/-! ### Sending a message -/

variable {l : CallLocals} {c : Ctx}

omit [SignedArithmetic] in
/-- A computation without overflow is passed over. -/
theorem compute_bind {α β : Type} {p : HostM α} {a : α} (hp : p = .ret a) (f : α → InstrM β)
    (c : Ctx) : (compute p >>= f) c = f a c := by
  rw [hp]
  rfl

omit [SignedArithmetic] in
/-- Both programs send the same message, and what the first one does with the result is exact. -/
theorem coincide_sending {Q : Except StatusCode Unit × Ctx → Prop} {depth : Int} {sender : Address}
    {value : Word} {m : Message} {c : Ctx} {k : CallResult → InstrM Unit}
    {done : CallResult → Except StatusCode Unit × Ctx} (hlight : Q (.ok (), c)) (hgas : 0 ≤ m.gas)
    (hk : ∀ r : CallResult, r.IsBounded m → k r c = .ret (done r) ∧ Q (done r)) :
    Coincide gasContract Q
      ((if depth ≥ 1024 then pure ()
      else if value ≠ 0 then
        host (.getBalance sender) >>= fun (balance : Word) =>
          if balance < value then pure () else host (.call m) >>= k
      else host (.call m) >>= k : InstrM Unit) c)
      (sending depth sender value m (.ok (), c) done) := by
  -- The message itself, however it is reached.
  have hcall : Coincide gasContract Q ((host (.call m) >>= k : InstrM Unit) c)
      (.ask (.call m) fun r => .ret (done r)) := by
    refine .ask hgas fun r hr => ?_
    obtain ⟨hreturn, hQ⟩ := hk r hr
    show Coincide gasContract Q (k r c) (.ret (done r))
    rw [hreturn]
    exact .ret hQ
  unfold sending
  split
  · exact .ret hlight
  · split
    · refine .ask trivial fun (balance : Word) _ => ?_
      show Coincide gasContract Q ((if balance < value then pure () else _ : InstrM Unit) c) _
      split
      · exact .ret hlight
      · exact hcall
    · exact hcall

/-- In range, sending the message of a call asks the same queries with the same messages. -/
theorem callSend_eq (hgas : 0 ≤ c.gasLeft) (hlt : c.gasLeft + stipend l < 2 ^ 63) :
    callSend l c =
      (if c.state.msg.depth ≥ 1024 then pure ()
      else if l.value ≠ 0 then
        host (.getBalance c.state.msg.recipient) >>= fun (balance : Word) =>
          if balance < l.value then pure ()
          else host (.call (callMessage l c.gasLeft)) >>= callReturn l (callMessage l c.gasLeft)
      else host (.call (callMessage l c.gasLeft)) >>= callReturn l (callMessage l c.gasLeft) :
        InstrM Unit) (beforeCall l c) := by
  have hstipend := stipend_nonneg l
  have hpassed := passedGas_bounds l hgas
  -- On a counter that is not negative the C++ division rounds as the one of integers.
  have hdiv : c.gasLeft.tdiv 64 = c.gasLeft / 64 := Int.tdiv_eq_ediv_of_nonneg hgas
  have hquotient : SignedArithmetic.int64 (c.gasLeft.tdiv 64) = .ret (c.gasLeft / 64) :=
    hdiv ▸ int64_eq (by omega) (by omega)
  have hrest : SignedArithmetic.int64 (c.gasLeft - c.gasLeft / 64)
      = .ret (c.gasLeft - c.gasLeft / 64) := int64_eq (by omega) (by omega)
  have hpassed' : min (min (l.gas.toNat : Int) int64Max) (c.gasLeft - c.gasLeft / 64)
      = passedGas l c.gasLeft := rfl
  unfold callSend
  refine (compute_bind hquotient _ c).trans ((compute_bind hrest _ c).trans ?_)
  -- The stipend is added twice, to the message and to the counter.
  by_cases hvalue : l.HasValue
  · simp only [if_pos hvalue]
    have hstipend : stipend l = 2300 := if_pos hvalue
    refine (compute_bind (a := passedGas l c.gasLeft + 2300) (int64_eq ?_ ?_) _ c).trans
      ((compute_bind (a := c.gasLeft + 2300) (int64_eq ?_ ?_) _ c).trans ?_)
    · omega
    · omega
    · omega
    · omega
    · unfold callMessage beforeCall
      rw [hstipend, if_pos (show l.value ≠ 0 from hvalue)]
      rfl
  · simp only [if_neg hvalue]
    have hstipend : stipend l = 0 := if_neg hvalue
    unfold callMessage beforeCall
    rw [hstipend, if_neg (show ¬ l.value ≠ 0 from hvalue), Int.add_zero, Int.add_zero]
    rfl

variable {r : CallResult}

/-- In range, the result of a call is put into the context as it is without bounds. -/
theorem callReturn_eq (hgas : 0 ≤ c.gasLeft) (hlt : c.gasLeft + stipend l < 2 ^ 63)
    (hr : r.IsBounded (callMessage l c.gasLeft)) :
    callReturn l (callMessage l c.gasLeft) r (beforeCall l c)
      = .ret (.ok (), afterCall l c r) := by
  have hpassed := passedGas_bounds l hgas
  have hstipend := stipend_nonneg l
  obtain ⟨hnonneg, hle⟩ := hr
  have hmsg : (callMessage l c.gasLeft).gas = passedGas l c.gasLeft + stipend l := rfl
  -- The callee gives back at most what it was sent, so neither difference leaves the range.
  have hused : SignedArithmetic.int64 ((callMessage l c.gasLeft).gas - r.gasLeft)
      = .ret ((callMessage l c.gasLeft).gas - r.gasLeft) := int64_eq (by omega) (by omega)
  have hleft : SignedArithmetic.int64 (c.gasLeft + stipend l -
      ((callMessage l c.gasLeft).gas - r.gasLeft))
      = .ret (c.gasLeft + stipend l - ((callMessage l c.gasLeft).gas - r.gasLeft)) :=
    int64_eq (by omega) (by omega)
  unfold callReturn
  by_cases hcopy : min l.outputSize r.outputData.length > 0
  · simp only [if_pos hcopy]
    refine (compute_bind hused _ _).trans ((compute_bind hleft _ _).trans ?_)
    simp only [afterCall, memoryAfterCall, if_pos hcopy]
    rfl
  · simp only [if_neg hcopy]
    refine (compute_bind hused _ _).trans ((compute_bind hleft _ _).trans ?_)
    simp only [afterCall, memoryAfterCall, if_neg hcopy]
    rfl

omit [SignedArithmetic] in
/-- Before the call the gas is in range, the stipend included. -/
theorem representable_beforeCall (hc : c.Representable) (hlt : c.gasLeft + stipend l < 2 ^ 63) :
    (beforeCall l c).Representable := by
  have hge := hc.gas_ge
  have hstipend := stipend_nonneg l
  exact ⟨by simp only [beforeCall]; omega, hlt, hc.memory⟩

omit [SignedArithmetic] in
/-- After the call the gas is in range, since the callee gives back no more than it got. -/
theorem representable_afterCall (hc : c.Representable) (hgas : 0 ≤ c.gasLeft)
    (hlt : c.gasLeft + stipend l < 2 ^ 63) (hr : r.IsBounded (callMessage l c.gasLeft)) :
    (afterCall l c r).Representable := by
  obtain ⟨hge, hle⟩ := afterCall_bounds hgas hr
  refine ⟨by omega, by omega, ?_⟩
  have hmemory : (memoryAfterCall l c.state.memory r).size = c.state.memory.size := by
    unfold memoryAfterCall
    dsimp only
    split <;> rfl
  exact hmemory.le.trans hc.memory

/-- In range, sending the message of a call coincides with the unbounded computation. -/
theorem coincide_callSend (hc : c.Representable) (hgas : 0 ≤ c.gasLeft)
    (hlt : c.gasLeft + stipend l < 2 ^ 63) :
    Coincide gasContract (fun x => ∀ a, x.1 = .ok a → x.2.Representable) (callSend l c)
      (Core.callSend l c) := by
  have hstipend := stipend_nonneg l
  have hpassed := passedGas_bounds l hgas
  rw [callSend_eq hgas hlt, Core.callSend_eq]
  refine coincide_sending (fun _ _ => representable_beforeCall hc hlt) ?_ fun r hr =>
    ⟨callReturn_eq hgas hlt hr, fun _ _ => representable_afterCall hc hgas hlt hr⟩
  show 0 ≤ passedGas l c.gasLeft + stipend l
  omega

/-- Call instructions are exact. -/
theorem exact_callImpl (op : CallOp) : Exact (callImpl op) (Core.callImpl op) := by
  intro c hc
  have hcharge := wp_and (yields_callCharge (A := HostCall.IsOrdinary) op (fun _ => trivial)
    (fun _ => trivial) c) (pays_callCharge op c)
  refine Coincide.bind ((exact_callCharge op c hc).and_wp hcharge fun _ _ _ => ?_) ?_
  · trivial
  · rintro ⟨e | l, c'⟩ ⟨hexact, ⟨-, hl⟩, hpays⟩
    · exact .ret fun _ ha => by cases ha
    · obtain ⟨hnonneg, hle⟩ : 0 ≤ c'.gasLeft ∧ c'.gasLeft ≤ c.gasLeft := hpays l rfl
      have hpaid : c'.gasLeft ≤ c.gasLeft - l.valueCost := (hl l rfl).2.1 (hnonneg.trans hle)
      have hstipend := stipend_le_valueCost l
      have hlt := hc.gas_lt
      exact coincide_callSend (hexact l rfl) hnonneg (by omega)

/-! ### Creations -/

variable {op : CreateOp} {l : CreateLocals}

/-- In range, the result of a creation is put into the context as it is without bounds. -/
theorem createReturn_eq (hgas : 0 ≤ c.gasLeft) (hlt : c.gasLeft < 2 ^ 63)
    (hr : r.IsBounded (createMessage op l c)) :
    createReturn (createMessage op l c) r c = .ret (.ok (), afterCreate op l c r) := by
  obtain ⟨hnonneg, hle⟩ := hr
  have hmsg : (createMessage op l c).gas = c.gasLeft - c.gasLeft / 64 := rfl
  have hused : SignedArithmetic.int64 ((createMessage op l c).gas - r.gasLeft)
      = .ret ((createMessage op l c).gas - r.gasLeft) := int64_eq (by omega) (by omega)
  have hleft : SignedArithmetic.int64 (c.gasLeft - ((createMessage op l c).gas - r.gasLeft))
      = .ret (c.gasLeft - ((createMessage op l c).gas - r.gasLeft)) :=
    int64_eq (by omega) (by omega)
  unfold createReturn
  refine (compute_bind hused _ _).trans ((compute_bind hleft _ _).trans ?_)
  by_cases hsuccess : r.statusCode = .success
  · simp only [if_pos hsuccess, afterCreate]
    rfl
  · simp only [if_neg hsuccess, afterCreate]
    rfl

/-- In range, sending the message of a creation asks the same queries with the same messages. -/
theorem createSend_eq (hgas : 0 ≤ c.gasLeft) (hlt : c.gasLeft < 2 ^ 63) :
    createSend op l c =
      (if c.state.msg.depth ≥ 1024 then pure ()
      else if l.endowment ≠ 0 then
        host (.getBalance c.state.msg.recipient) >>= fun (balance : Word) =>
          if balance < l.endowment then pure ()
          else host (.call (createMessage op l c)) >>= createReturn (createMessage op l c)
      else host (.call (createMessage op l c)) >>= createReturn (createMessage op l c) :
        InstrM Unit) c := by
  have hdiv : c.gasLeft.tdiv 64 = c.gasLeft / 64 := Int.tdiv_eq_ediv_of_nonneg hgas
  have hquotient : SignedArithmetic.int64 (c.gasLeft.tdiv 64) = .ret (c.gasLeft / 64) :=
    hdiv ▸ int64_eq (by omega) (by omega)
  have hrest : SignedArithmetic.int64 (c.gasLeft - c.gasLeft / 64)
      = .ret (c.gasLeft - c.gasLeft / 64) := int64_eq (by omega) (by omega)
  -- What is left after the 64th fits, whatever the branch that computes it.
  have hsend : ∀ f : Int → InstrM Unit,
      (compute (SignedArithmetic.int64 (c.gasLeft.tdiv 64)) >>= fun quotient =>
        compute (SignedArithmetic.int64 (c.gasLeft - quotient)) >>= f) c
      = f (c.gasLeft - c.gasLeft / 64) c := fun f =>
    (compute_bind hquotient _ c).trans (compute_bind hrest f c)
  unfold createSend
  show (if c.state.msg.depth ≥ 1024 then pure () else _ : InstrM Unit) c = _
  split
  · rfl
  · split
    · refine congrArg (Interaction.ask _) (funext fun (balance : Word) => ?_)
      show (if balance < l.endowment then pure () else _ : InstrM Unit) c
        = (if balance < l.endowment then pure () else _ : InstrM Unit) c
      split
      · rfl
      · exact hsend _
    · exact hsend _

/-- In range, sending the message of a creation coincides with the unbounded computation. -/
theorem coincide_createSend (hc : c.Representable) (hgas : 0 ≤ c.gasLeft) :
    Coincide gasContract (fun x => ∀ a, x.1 = .ok a → x.2.Representable) (createSend op l c)
      (Core.createSend op l c) := by
  rw [createSend_eq hgas hc.gas_lt, Core.createSend_eq]
  refine coincide_sending (fun _ _ => hc) ?_ fun r hr =>
    ⟨createReturn_eq hgas hc.gas_lt hr, fun _ _ => ?_⟩
  · show 0 ≤ c.gasLeft - c.gasLeft / 64
    omega
  · obtain ⟨hge, hle⟩ := afterCreate_bounds hr
    refine ⟨?_, lt_of_le_of_lt hle hc.gas_lt, hc.memory⟩
    show -2 ^ 62 ≤ (afterCreate op l c r).gasLeft
    omega

/-- Create instructions are exact. -/
theorem exact_createImpl (op : CreateOp) : Exact (createImpl op) (Core.createImpl op) := by
  intro c hc
  have hcharge := pays_createCharge op c
  refine Coincide.bind ((exact_createCharge op c hc).and_wp hcharge fun _ _ _ => trivial) ?_
  rintro ⟨e | l, c'⟩ ⟨hexact, hpays⟩
  · exact .ret fun _ ha => by cases ha
  · exact coincide_createSend (hexact l rfl) (hpays l rfl).1

/-! ### The opcode map -/

omit [SignedArithmetic] in
/-- `GAS` computes nothing. -/
theorem exact_gas : Exact Core.gas Core.gas :=
  (exact_read _).bind fun _ => exact_push _

omit [SignedArithmetic] in
/-- The instructions on the execution state ask what the contract permits and leave the memory
alone. -/
theorem coincide_state [Ethash] {op : Opcode}
    {fn : StackTop → ExecutionState → HostM (StackTop × ExecutionState)}
    (hop : Zvmone.coreImpl op = .state fn) (hspecial : ¬ IsSpecial op) (stack : StackTop)
    (st : ExecutionState) :
    Coincide gasContract (fun x => x.2.memory.size = st.memory.size) (fn stack st) (fn stack st) := by
  have hm : MeteredFn False HostCall.IsOrdinaryOrLog (Zvmone.coreImpl op) :=
    metered_coreImpl hspecial (fun q hq => by cases q <;> trivial) fun _ _ _ _ _ => trivial
  have haccesses := accesses_coreImpl op
  rw [hop] at hm haccesses
  have hself : Coincide gasContract (fun _ => True) (fn stack st) (fn stack st) :=
    .of_wp (wp_mono (wp_of_asking gasContract_neutral (hm stack st)) fun _ _ _ => trivial)
  exact (hself.and_returns (haccesses.2 stack st)).mono fun x hx => congrArg Memory.size hx.2

/-- An implementation on signed 64-bit integers does the same as the one on unbounded integers. -/
inductive ExactFn : CoreFn → CoreFn → Prop
  | stack (fn : StackTop → StackTop) : ExactFn (.stack fn) (.stack fn)
  | state {fn : StackTop → ExecutionState → HostM (StackTop × ExecutionState)}
      (h : ∀ stack st, Coincide gasContract (fun x => x.2.memory.size = st.memory.size)
        (fn stack st) (fn stack st)) : ExactFn (.state fn) (.state fn)
  | result {m m' : InstrM Unit} (h : Exact m m') : ExactFn (.result m) (.result m')
  | term {m m' : InstrM StatusCode} (h : Exact m m') : ExactFn (.term m) (.term m')
  | pos : ExactFn .pos .pos

/-- Every core implementation is exact. -/
theorem exact_coreImpl [Ethash] (op : Opcode) : ExactFn (coreImpl op) (Zvmone.coreImpl op) := by
  have hstate := @coincide_state _ op
  -- Only the instructions that compute gas or grow memory differ; all others are one definition.
  cases op with
  | exp => exact .result exact_exp
  | keccak256 => exact .result exact_keccak256
  | balance | extcodesize | extcodehash => exact .result (exact_accountQuery fun _ => trivial)
  | calldatacopy | codecopy => exact .result (exact_copy _)
  | extcodecopy => exact .result exact_extcodecopy
  | returndatacopy => exact .result exact_returndatacopy
  | mload => exact .result exact_mload
  | mstore => exact .result exact_mstore
  | mstore8 => exact .result exact_mstore8
  | sload => exact .result exact_sload
  | sstore => exact .result exact_sstore
  | log k => exact .result (exact_log k)
  | gas => exact .result exact_gas
  | create | create2 => exact .result (exact_createImpl _)
  | call | delegatecall | staticcall => exact .result (exact_callImpl _)
  | return_ | revert => exact .term (exact_returnImpl _)
  | stop | invalid => exact .term (exact_pure _)
  | address | origin | caller | callvalue | calldataload | calldatasize | codesize | gasprice
  | returndatasize | blockhash | coinbase | timestamp | number | prevrandao | gaslimit | chainid
  | selfbalance | basefee | msize => exact .state (hstate rfl fun h => h)
  | jump | jumpi | pc | push _ => exact .pos
  | _ => exact .stack _

end Signed

end Zvmone
