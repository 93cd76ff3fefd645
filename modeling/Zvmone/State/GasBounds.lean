import Zvmone.State.CallTree
import Zvmone.Vm.MemoryPaid

/-! # Gas never goes up

Bounds on gas in the whole tree of frames of a call: of the result of every call, of every
instruction, and of the messages that instructions send. The main result is `gas_never_goes_up`. -/

namespace Zvmone

open Interaction InstrM Instr Zvmone.Core Host

section

/-- A step uses gas. -/
theorem Baseline.gasRule (gas : Int) (st : ExecutionState) :
    StepRule gasContract (fun gas' _ _ => 0 ≤ gas' ∧ gas' < gas)
      (fun gas' st' _ => EndsWithin gas gas' st') gas st () where
  toInvokeRule := (gasInvokeRule gasContract_neutral (fun _ _ _ => trivial) gas
    (fun _ hgas _ => hgas) (fun _ _ _ _ hr => hr) st).mono (fun _ _ _ h => ⟨h.1, h.2.1⟩)
    fun _ _ _ h => h.1
  abort _ := trivial

variable [Ethash] {ctx : HostContext} {msg : Message} {hs hs' : HostState} {fuel n : Nat}

/-- The interpreter gives back at most the gas of the message. -/
theorem Baseline.wp_execute_gas (hgas : 0 ≤ msg.gas) (fuel : Nat) (code : Bytes) :
    wp gasContract (Baseline.execute fuel msg code) () fun r _ => r.IsBounded msg := by
  refine Baseline.wp_execute (I := fun gas _ _ => 0 ≤ gas ∧ gas ≤ msg.gas)
    (E := fun gas st _ => EndsWithin msg.gas gas st) ?_ ⟨hgas, le_rfl⟩ ?_
  · rintro gas st ⟨⟩ ⟨-, hle⟩
    exact ⟨(gasRule gas st).toInvokeRule.mono (fun _ _ _ h => ⟨h.1, by omega⟩)
      fun _ _ _ h => ⟨h.1.trans hle, h.2⟩, (gasRule gas st).abort⟩
  · rintro gas st ⟨⟩ ⟨hle, hnonneg⟩
    simp only [CallResult.IsBounded, ExecutionState.result]
    split
    next hstatus =>
      have : ¬ st.status.IsFailure := by
        rcases hstatus with h | h <;> rw [h] <;> decide
      exact ⟨hnonneg this, hle⟩
    next => exact ⟨le_rfl, hgas⟩

/-- The virtual machine gives back at most the gas of a message if its host does. -/
def VM.BoundsGas (vm : VM) : Prop :=
  ∀ {σ : Type} {env : Env HostCall.Answer Fault σ}, BoundedEnv env →
    ∀ {fuel : Nat} {msg : Message} {code : Bytes} {s s' : σ} {r : CallResult}, 0 ≤ msg.gas →
      run env (vm fuel msg code) s = .ok (r, s') → r.IsBounded msg

/-- The Baseline interpreter gives back at most the gas of a message. -/
theorem Baseline.boundsGas : VM.BoundsGas Baseline.execute := by
  intro σ env henv fuel msg code s s' r hgas hrun
  have hanswers : ∀ (s : σ) (u : Unit) (q : HostCall) (r : q.Answer) (s' : σ), True →
      gasContract.pre u q → env q s = .ok (r, s') → ∃ u', gasContract.post u q r u' ∧ True := by
    intro s u q r s' _ hpre h
    refine ⟨(), ?_, trivial⟩
    cases q <;> first | exact henv h hpre | trivial
  obtain ⟨_, -, hr⟩ := run_wp (R := fun _ _ => True) hanswers
    (Baseline.wp_execute_gas hgas fuel code) trivial hrun
  exact hr

/-! ### Precompiles -/

omit [Ethash] in
/-- The price of a precompile is not negative. -/
theorem Precompiles.gasCost_nonneg (analyze : AnalyzeFn) (input : Bytes) :
    0 ≤ (analyze.call input).gasCost := by
  have hwords := numWords_nonneg input.length
  cases analyze with
  | depositroot => exact (by decide : (0 : Int) ≤ 19992)
  | ecadd => exact (by decide : (0 : Int) ≤ 150)
  | ecmul => exact (by decide : (0 : Int) ≤ 6000)
  | sha256 => simp only [AnalyzeFn.call, sha256Analyze, costPerInputWord]; omega
  | identity => simp only [AnalyzeFn.call, identityAnalyze, costPerInputWord]; omega
  | ecpairing => simp only [AnalyzeFn.call, ecpairingAnalyze]; omega
  | expmod =>
    unfold AnalyzeFn.call expmodAnalyze
    dsimp only
    split
    · decide
    · split
      · decide
      · exact le_max_of_le_left (by decide)

/-- A precompile gives back at most the gas of the message. -/
theorem Precompiles.callPrecompile_isBounded {cache : Precompiles.Cache} {r : CallResult}
    (h : (Precompiles.callPrecompile cache msg).result = .ok (some r)) : r.IsBounded msg := by
  have hanswered := callPrecompile_answered h
  have hgas := hanswered.msgGas
  obtain ⟨analyze, hleft⟩ := hanswered.gasLeft
  have hcost := gasCost_nonneg analyze msg.inputData
  split at hleft
  · constructor <;> omega
  · constructor <;> omega

/-! ### Calls -/

namespace Host

/-- `prepare_message` keeps the gas. -/
theorem Prepared.gas {msg' : Message} (h : Prepared msg hs (some msg') hs') : msg'.gas = msg.gas := by
  cases h <;> rfl

/-- An executed message gives back at most its gas if the code does. -/
theorem Executed.isBounded {exec : Exec} {r : CallResult} (hgas : 0 ≤ msg.gas)
    (hexec : ∀ (m : Message) code hs r hs', 0 ≤ m.gas → exec m code hs = .ok (r, hs') →
      r.IsBounded m)
    (h : Executed exec msg hs r hs') : r.IsBounded msg := by
  cases h with
  | collision => exact ⟨le_rfl, hgas⟩
  | create _ _ _ _ hrun hdeploy =>
    have hbounded : CallResult.IsBounded _ msg :=
      hexec { msg with inputData := [] } _ _ _ _ hgas hrun
    cases hdeploy with
    | failed => exact hbounded
    | refused => exact ⟨le_rfl, hgas⟩
    | rejected => exact ⟨le_rfl, hgas⟩
    | done _ _ hpaid =>
      have hle := hbounded.2
      constructor <;> dsimp only <;> omega
  | precompile _ _ hresult => exact Precompiles.callPrecompile_isBounded hresult
  | call _ _ _ hrun => exact hexec _ _ _ _ _ hgas hrun

/-- The environment of a frame keeps the gas contract, if `call` does. -/
theorem answer_gas {call : Message → HostS CallResult}
    (hcall : ∀ (m : Message) hs r hs', 0 ≤ m.gas → call m hs = .ok (r, hs') → r.IsBounded m)
    (hs : HostState) (u : Unit) (q : HostCall) (r : q.Answer) (hs' : HostState)
    (hpre : gasContract.pre u q) (h : answer ctx call q hs = .ok (r, hs')) :
    gasContract.post u q r () := by
  cases q <;> first | exact hcall _ _ _ _ hpre h | trivial

/-- Calls give back at most the gas of the message if the virtual machine does. -/
theorem isBounded_call {vm : VM} (hvm : vm.BoundsGas) {m : Message} {r : CallResult}
    (hgas : 0 ≤ m.gas) (h : call ctx vm fuel m hs = .ok (r, hs')) : r.IsBounded m := by
  induction fuel generalizing m hs r hs' with
  | zero => cases h
  | succ n ih =>
    have hexec : ∀ (m : Message) code hs r hs', 0 ≤ m.gas →
        execVm ctx vm (call ctx vm n) n m code hs = .ok (r, hs') → r.IsBounded m :=
      fun _ _ _ _ _ hm hrun =>
        hvm (fun h hgas => ih hgas h) hm hrun
    cases callWith_ok h with
    | refused => exact ⟨hgas, le_rfl⟩
    | success hprepared hexecuted =>
      have hsame := (prepareMessage_ok hprepared).gas
      have hr := hexecuted.isBounded (hsame ▸ hgas) hexec
      exact ⟨hr.1, hsame ▸ hr.2⟩
    | failed hprepared hexecuted =>
      have hsame := (prepareMessage_ok hprepared).gas
      have hr := hexecuted.isBounded (hsame ▸ hgas) hexec
      exact ⟨hr.1, hsame ▸ hr.2⟩

/-- Calls with the Baseline interpreter give back at most the gas of the message. -/
theorem call_isBounded (fuel : Nat) (m : Message) (hs : HostState) (r : CallResult)
    (hs' : HostState) (hgas : 0 ≤ m.gas)
    (h : call ctx Baseline.execute fuel m hs = .ok (r, hs')) : r.IsBounded m :=
  isBounded_call Baseline.boundsGas hgas h

end Host

/-! ### Frames -/

/-- The gas of a frame after all charges of its call or create instruction. -/
inductive ChargedGas {σ : Type} (env : Env HostCall.Answer Fault σ) (f : Baseline.Frame) (s : σ) :
    Opcode → Int → Prop
  | call {cop : CallOp} {l : CallLocals} {c : Ctx} {s' : σ}
      (h : run env (callCharge cop (f.charged cop.opcode)) s = .ok ((.ok l, c), s')) :
      ChargedGas env f s cop.opcode c.gasLeft
  | create {cop : CreateOp} {l : CreateLocals} {c : Ctx} {s' : σ}
      (h : run env (createCharge cop (f.charged cop.opcode)) s = .ok ((.ok l, c), s')) :
      ChargedGas env f s cop.opcode c.gasLeft

/-- What a message gets on top of the gas passed on: 2300 exactly when a `CALL` carries value. -/
def stipendOf (op : Opcode) (m : Message) : Int := if op = .call ∧ m.value ≠ 0 then 2300 else 0

/-- The bounds on the message a frame sends with the opcode `op`, when `g` is its gas after all
charges of the instruction. -/
structure MessageBounds (ctx : HostContext) (n : Nat) (code : Bytes) (f : Baseline.Frame)
    (hs : HostState) (op : Opcode) (g : Int) (m : Message) (hs' : HostState) : Prop where
  opcode : f.opcode (Baseline.analyze code) = some op
  charged : ChargedGas (frameEnv ctx n) f hs op g
  gas_nonneg : 0 ≤ m.gas - stipendOf op m
  gas_le : m.gas - stipendOf op m ≤ g - g / 64
  /-- When the message returns, it gives back at most its gas, and the frame goes on with at least
  1/64 of `g`. -/
  returned : ∀ r hs'', call ctx Baseline.execute n m hs' = .ok (r, hs'') → r.IsBounded m ∧
    ∃ f', run (frameEnv ctx n) (Baseline.step (Baseline.analyze code) f) hs = .ok (.cont f', hs'') ∧
      g / 64 ≤ f'.gas

/-- The bounds on one instruction of a frame. -/
structure FrameBounds (ctx : HostContext) (n : Nat) (code : Bytes) (f : Baseline.Frame)
    (hs : HostState) : Prop where
  gas_nonneg : 0 ≤ f.gas
  /-- An instruction that does not end the frame uses gas. -/
  cont : ∀ f' hs', run (frameEnv ctx n) (Baseline.step (Baseline.analyze code) f) hs
    = .ok (.cont f', hs') → 0 ≤ f'.gas ∧ f'.gas < f.gas
  /-- An instruction that ends the frame does not add gas. -/
  done : ∀ gas st hs', run (frameEnv ctx n) (Baseline.step (Baseline.analyze code) f) hs
    = .ok (.done gas st, hs') → gas ≤ f.gas
  sends : ∀ m hs', Reaches (frameEnv ctx n) (Baseline.step (Baseline.analyze code) f) hs (.call m)
    hs' → m.depth ≤ 1024 ∧ ∃ op g, MessageBounds ctx n code f hs op g m hs'

/-- The answers of a frame's environment are bounded. -/
theorem frameEnv_gas (hs : HostState) (u : Unit) (q : HostCall) (r : q.Answer) (hs' : HostState)
    (_ : True) (hpre : gasContract.pre u q) (h : frameEnv ctx n q hs = .ok (r, hs')) :
    ∃ u', gasContract.post u q r u' ∧ True :=
  ⟨(), answer_gas (fun m hs r hs' => call_isBounded n m hs r hs') hs u q r hs' hpre h, trivial⟩

/-- The calls of a frame give back at most the gas of their messages. -/
theorem boundedEnv_frameEnv : BoundedEnv (frameEnv ctx n) :=
  fun hrun hgas => call_isBounded n _ _ _ _ hgas hrun

/-- A frame of the host has paid the growth of its memory from the gas of its message. -/
theorem frame_funds_le {code : Bytes} {f : Baseline.Frame} {k : Nat}
    (h : Baseline.Passes (frameEnv ctx n) (Baseline.analyze code) (.start msg code) hs k f hs') :
    funds f.gas f.state ≤ msg.gas :=
  h.funds_le boundedEnv_frameEnv

/-- What a frame has charged for a call instruction. -/
theorem charged_of_run {cop : CallOp} {c c' : Ctx} {l : CallLocals}
    (h : run (frameEnv ctx n) (callCharge cop c) hs = .ok ((.ok l, c'), hs')) :
    Charged cop c l c' := by
  obtain ⟨_, -, -, houtcome, hl⟩ := run_wp (R := fun _ _ => True) frameEnv_gas
    (wp_of_asking gasContract_neutral
      (yields_callCharge (A := HostCall.IsOrdinaryOrLog) cop (fun _ => trivial) (fun _ => trivial) c))
    trivial h
  exact ⟨houtcome, (hl l rfl).1, (hl l rfl).2.1, (hl l rfl).2.2⟩

/-- What a frame has charged for a create instruction. -/
theorem createCharged_of_run {cop : CreateOp} {c c' : Ctx} {l : CreateLocals}
    (h : run (frameEnv ctx n) (createCharge cop c) hs = .ok ((.ok l, c'), hs')) :
    Outcome False c ((.ok l, c') : Except StatusCode CreateLocals × Ctx) := by
  obtain ⟨_, -, -, houtcome, -⟩ := run_wp (R := fun _ _ => True) frameEnv_gas
    (wp_of_asking gasContract_neutral
      (yields_createCharge (A := HostCall.IsOrdinaryOrLog) cop c)) trivial h
  exact houtcome

omit [Ethash] in
/-- The stipend as it is seen in the message. -/
theorem stipend_eq {cop : CallOp} {l : CallLocals} {msg : Message} (hl : l.Sound cop msg) (g : Int) :
    stipend l = stipendOf cop.opcode (callMessage l g) := by
  have hvalue : (callMessage l g).value = if cop = .delegatecall then msg.value else l.value :=
    hl.value
  unfold stipend stipendOf
  cases cop with
  | call =>
    rw [hvalue, if_neg (by decide : ¬ CallOp.call = .delegatecall)]
    exact if_congr ⟨fun h => ⟨rfl, h⟩, fun h => h.2⟩ rfl rfl
  | delegatecall | staticcall =>
    rw [if_neg fun h => h (hl.noValue (by decide)), if_neg fun h => by cases h.1]

/-- A message that a frame sends. -/
theorem messageBounds {code : Bytes} {f : Baseline.Frame} {m : Message}
    (h : Reaches (frameEnv ctx n) (Baseline.step (Baseline.analyze code) f) hs (.call m) hs') :
    m.depth ≤ 1024 ∧ ∃ op g, MessageBounds ctx n code f hs op g m hs' := by
  obtain ⟨op, hop, hgas, hstep, ⟨cop, rfl, hsend⟩ | ⟨cop, rfl, hsend⟩⟩ := Baseline.reaches_step h
  -- A call: what is left after all charges bounds what is passed on, the stipend apart.
  · obtain ⟨l, c, s₁, hrun, hdepth, rfl, -, hresult⟩ := reaches_callImpl hsend
    have hcharged := charged_of_run hrun
    have hg : 0 ≤ c.gasLeft := hcharged.outcome.gas_nonneg hgas l rfl
    have hpassed := passedGas_bounds l hg
    have hstipend := stipend_eq hcharged.sound c.gasLeft
    refine ⟨?_, cop.opcode, c.gasLeft, hop, .call hrun, ?_, ?_, fun r hs'' hr => ?_⟩
    · have hmsg : c.state.msg = f.state.msg := hcharged.outcome.same.msg
      have hl : (callMessage l c.gasLeft).depth = f.state.msg.depth + 1 := hcharged.sound.depth
      rw [hmsg] at hdepth
      omega
    · rw [← hstipend]
      simp only [callMessage]
      omega
    · rw [← hstipend]
      simp only [callMessage]
      omega
    · have hbounded := call_isBounded n _ _ _ _
        (by simp only [callMessage]; have := stipend_nonneg l; omega) hr
      exact ⟨hbounded, _,
        Baseline.run_step_of_result hstep (coreImpl_call cop) (hresult r hs'' hr),
        (afterCall_bounds hg hbounded).1⟩
  -- A creation: the same without a stipend.
  · obtain ⟨l, c, s₁, hrun, hdepth, rfl, -, hresult⟩ := reaches_createImpl hsend
    have houtcome := createCharged_of_run hrun
    have hg : 0 ≤ c.gasLeft := houtcome.gas_nonneg hgas l rfl
    have hstipend : stipendOf cop.opcode (createMessage cop l c) = 0 := by
      cases cop <;> exact if_neg (fun h => by cases h.1)
    refine ⟨?_, cop.opcode, c.gasLeft, hop, .create hrun, ?_, ?_, fun r hs'' hr => ?_⟩
    · simp only [createMessage]
      omega
    · rw [hstipend]
      simp only [createMessage]
      omega
    · rw [hstipend]
      simp only [createMessage]
      omega
    · have hbounded := call_isBounded n _ _ _ _ (by simp only [createMessage]; omega) hr
      exact ⟨hbounded, _,
        Baseline.run_step_of_result hstep (coreImpl_create cop) (hresult r hs'' hr),
        (afterCreate_bounds hbounded).1⟩

/-- Every frame with gas that is not negative is within the bounds. -/
theorem frameBounds {code : Bytes} {f : Baseline.Frame} (hgas : 0 ≤ f.gas) :
    FrameBounds ctx n code f hs := by
  have hstep : ∀ next hs', run (frameEnv ctx n) (Baseline.step (Baseline.analyze code) f) hs
      = .ok (next, hs') → next.Satisfies (fun gas' _ _ => 0 ≤ gas' ∧ gas' < f.gas)
        (fun gas' st' _ => EndsWithin f.gas gas' st') () := by
    intro next hs' hrun
    obtain ⟨_, -, h⟩ := run_wp (R := fun _ _ => True) frameEnv_gas
      (Baseline.wp_step (Baseline.gasRule f.gas f.state)) trivial hrun
    exact h
  exact ⟨hgas, fun f' hs' h => hstep _ _ h, fun gas st hs' h => (hstep _ _ h).1,
    fun m hs' h => messageBounds h⟩

/-- The gas of the frames in the tree of a call is not negative. -/
theorem Host.Visits.gas_nonneg {code : Bytes} {f : Baseline.Frame}
    (h : Visits ctx fuel msg hs n code f hs') (hgas : 0 ≤ msg.gas) : 0 ≤ f.gas := by
  induction h with
  | enter h =>
    cases h with
    | create hprepared => exact (prepareMessage_ok hprepared).gas ▸ hgas
    | call hprepared => exact (prepareMessage_ok hprepared).gas ▸ hgas
  | step _ hstep ih => exact ((frameBounds (ih hgas)).cont _ _ hstep).1
  | nested _ hsend _ _ ih' =>
    obtain ⟨-, op, g, hm⟩ := messageBounds hsend
    refine ih' ?_
    have hnonneg := hm.gas_nonneg
    unfold stipendOf at hnonneg
    split at hnonneg <;> omega

/-- Gas never goes up, anywhere in the tree of a call: the call gives back at most the gas of its
message, and every frame of the tree is within the bounds of `FrameBounds`. -/
theorem gas_never_goes_up (hgas : 0 ≤ msg.gas) :
    (∀ r hs', call ctx Baseline.execute fuel msg hs = .ok (r, hs') →
      0 ≤ r.gasLeft ∧ r.gasLeft ≤ msg.gas) ∧
    ∀ n code f hs', Visits ctx fuel msg hs n code f hs' → FrameBounds ctx n code f hs' :=
  ⟨fun r hs' h => call_isBounded fuel msg hs r hs' hgas h,
    fun _ _ _ _ h => frameBounds (h.gas_nonneg hgas)⟩

end

/-- The account at `0x10` sends 1 to the account at `0x40`, whose code is `JUMPDEST STOP`, with all
gas but a 64th and the stipend. -/
def payingState : HostState :=
  { state := (((⟨∅⟩ : State).set 0x10
      { code := [0x5f, 0x5f, 0x5f, 0x5f, 0x60, 0x01, 0x60, 0x40, 0x5a, 0xf1, 0x00], nonce := 1,
        balance := 5 }).set 0x40 { code := [0x5b, 0x00], nonce := 1 }).set 0x20 { balance := 7 } }

/-- A call of the account that pays. -/
def payingCall : Message :=
  { gas := 20000, depth := 1, recipient := 0x10, codeAddress := 0x10, sender := 0x20 }

/-- The block and the transaction of the call. -/
def payingContext : HostContext where
  block := { coinbase := 0 }
  tx := { gasLimit := 0, maxGasPrice := 0, maxPriorityGasPrice := 0, sender := 0, to_ := none,
          value := 0 }

/-- A hash function that plays no role. -/
@[reducible] def zeroEthash : Ethash := ⟨fun _ => 0⟩

/-- The call ends with the gas 10683. -/
theorem payingCall_ends : let _ := zeroEthash
    ∃ r hs', Host.call payingContext Baseline.execute 12 payingCall payingState = .ok (r, hs') ∧
      r.gasLeft = 10683 := by
  intro _
  have hleft : (Host.call payingContext Baseline.execute 12 payingCall payingState).toOption.map
      (·.1.gasLeft) = some 10683 := by decide +kernel
  rcases hrun : Host.call payingContext Baseline.execute 12 payingCall payingState with _ | ⟨r, hs'⟩
  · rw [hrun] at hleft
    cases hleft
  · rw [hrun] at hleft
    exact ⟨r, hs', rfl, Option.some.inj hleft⟩

/-- The stipend comes back with the gas of the nested call, and yet the gas falls. -/
theorem gas_never_goes_up_payingCall : ∃ (_ : Ethash) (r : CallResult) (hs' : HostState),
    Host.call payingContext Baseline.execute 12 payingCall payingState = .ok (r, hs') ∧
    r.gasLeft = 10683 ∧ 0 ≤ r.gasLeft ∧ r.gasLeft ≤ payingCall.gas := by
  let ethash : Ethash := zeroEthash
  obtain ⟨r, hs', hrun, hr⟩ := payingCall_ends
  exact ⟨ethash, r, hs', hrun, hr, (gas_never_goes_up (by decide)).1 r hs' hrun⟩

end Zvmone
