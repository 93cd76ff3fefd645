import Zvmone.State.GasBounds
import Zvmone.State.KeptByCalls
import Zvmone.Vm.ReturnBuffer

/-! # The return data buffer

What the return data of a frame is after every instruction of a run with the host
(`return_data_follows_callees`): the output of the callee, as far as its status lets it through. -/

namespace Zvmone

open Interaction InstrM Instr Zvmone.Core Host

/-! ### Sending a message -/

namespace Core

variable {σ : Type} {env : Env HostCall.Answer Fault σ} {s s' : σ}

/-- Unless the message is sent the call fails lightly. -/
theorem run_sending {α : Type} {depth : Int} {sender : Address} {value : Word} {m : Message}
    {light a : α} {done : CallResult → α}
    (hrun : run env (sending depth sender value m light done) s = .ok (a, s')) :
    a = light ∨ ∃ s₁, Reaches env (sending depth sender value m light done) s (.call m) s₁ := by
  unfold sending at hrun ⊢
  split at hrun
  next =>
    cases hrun
    exact .inl rfl
  next hdepth =>
    rw [if_neg hdepth]
    split at hrun
    next hvalue =>
      rw [if_pos hvalue]
      -- The balance decides whether the message is sent.
      cases hbalance : env (.getBalance sender) s with
      | error e => rw [run_ask_error hbalance] at hrun; cases hrun
      | ok x =>
        obtain ⟨balance, s₁⟩ := x
        rw [run_ask_ok hbalance] at hrun
        split at hrun
        next =>
          cases hrun
          exact .inl rfl
        next hlt =>
          refine .inr ⟨s₁, .later hbalance ?_⟩
          rw [if_neg hlt]
          exact .here
    next hvalue =>
      rw [if_neg hvalue]
      exact .inr ⟨s, .here⟩

/-- An instruction that clears the return data and then sends no message leaves none. -/
theorem returnData_of_light {α : Type} {charge : InstrM α} {send : α → InstrM Unit} {c c' : Ctx}
    (hclears : Clears charge)
    (hsend : ∀ l c, ∃ depth sender value m c₁ done, c₁.state.returnData = c.state.returnData ∧
      send l c = sending depth sender value m (.ok (), c₁) done)
    (hrun : run env ((charge >>= send) c) s = .ok ((.ok (), c'), s'))
    (hlight : ∀ m s₁, ¬ Reaches env ((charge >>= send) c) s (.call m) s₁) :
    c'.state.returnData = [] := by
  have hrun : run env (charge c >>= andThen send) s = .ok ((.ok (), c'), s') := hrun
  rw [run_bind] at hrun
  rcases hcharge : run env (charge c) s with _ | ⟨⟨e | l, c₁⟩, s₁⟩ <;> rw [hcharge] at hrun
  · cases hrun
  · cases hrun
  · obtain ⟨_, _, _, m, c₂, _, hsame, heq⟩ := hsend l c₁
    have hrun : run env (send l c₁) s₁ = .ok ((.ok (), c'), s') := hrun
    have hlight : ∀ s₂, ¬ Reaches env (send l c₁) s₁ (.call m) s₂ :=
      fun s₂ hreaches => hlight _ s₂ (reaches_bind.2 (.inr ⟨_, s₁, hcharge, hreaches⟩))
    rw [heq] at hrun hlight
    rcases run_sending hrun with hend | ⟨s₂, hreaches⟩
    · cases hend
      exact hsame.trans (((hclears c).run hcharge).2 l rfl)
    · exact absurd hreaches (hlight s₂)

end Core

/-! ### Steps -/

namespace Baseline

variable [Ethash] {σ : Type} {env : Env HostCall.Answer Fault σ} {s s' : σ} {m : Message}
  {analysis : CodeAnalysis} {f f' : Frame} {op : Opcode}

/-- An instruction after which the frame goes on was invoked with its base cost charged. -/
theorem step_of_cont (hrun : run env (step analysis f) s = .ok (.cont f', s'))
    (hop : f.opcode analysis = some op) :
    step analysis f = invokeCore analysis op { f with gas := f.gas - gasCosts op } := by
  unfold Frame.opcode at hop
  unfold step at hrun ⊢
  cases hbyte : analysis.executableCode[f.codeIt]? with
  | none => rw [hbyte] at hop; cases hop
  | some byte =>
    have hop : Opcode.ofByte byte = some op := by rwa [hbyte] at hop
    rw [hbyte] at hrun
    simp only [hop, invoke] at hrun ⊢
    rcases checkRequirements_cases op f.gas f.stackTop with
      ⟨hok, -⟩ | ⟨status, gas', hfail, -, hstatus⟩
    · rw [hok]
    · rw [hfail] at hrun
      cases status <;> first
        | exact absurd rfl hstatus.1
        | cases hrun

/-- A call or create instruction that sends no message leaves no return data. -/
theorem returnData_of_not_sent (hrun : run env (step analysis f) s = .ok (.cont f', s'))
    (hop : f.opcode analysis = some op) (hcall : IsCallLike op)
    (hlight : ∀ m s₁, ¬ Reaches env (step analysis f) s (.call m) s₁) :
    f'.state.returnData = [] := by
  have hstep := step_of_cont hrun hop
  -- The step is the instruction and a pure end, so it asks what the instruction asks.
  have hfinish : ∀ {p : InstrM Unit}, coreImpl op = .result p →
      ∃ c', run env (p (f.charged op)) s = .ok ((.ok (), c'), s') ∧ f' = f.next op c' ∧
        ∀ m s₁, ¬ Reaches env (p (f.charged op)) s (.call m) s₁ := by
    intro p hp
    have heq : step analysis f = p (f.charged op) >>= fun x =>
        .ret (finish { f with gas := f.gas - gasCosts op } op x) := by
      rw [hstep, invokeCore_result hp]
      rfl
    rw [heq, run_bind] at hrun
    rcases hp' : run env (p (f.charged op)) s with _ | ⟨⟨e | _, c'⟩, s₁⟩ <;> rw [hp'] at hrun
    · cases hrun
    · cases hrun
    · cases hrun
      refine ⟨c', rfl, rfl, fun m s₂ hreaches => hlight m s₂ ?_⟩
      rw [heq]
      exact reaches_bind.2 (.inl hreaches)
  rcases hcall with ⟨cop, rfl⟩ | ⟨cop, rfl⟩
  · obtain ⟨c', hrun', rfl, hlight'⟩ := hfinish (coreImpl_call cop)
    exact returnData_of_light (clears_callCharge cop)
      (fun l c => ⟨_, _, _, _, beforeCall l c, _, rfl, callSend_eq l c⟩) hrun' hlight'
  · obtain ⟨c', hrun', rfl, hlight'⟩ := hfinish (coreImpl_create cop)
    exact returnData_of_light (clears_createCharge cop)
      (fun l c => ⟨_, _, _, _, c, _, rfl, createSend_eq cop l c⟩) hrun' hlight'

end Baseline

/-! ### Callees -/

section

variable [Ethash] {ctx : HostContext} {n : Nat} {m : Message} {code : Bytes}
  {f f' : Baseline.Frame} {hs hs' hs₁ : HostState} {r r' : CallResult}

/-- The return data after a message was sent is the output of its result. -/
theorem returnData_of_sent
    (hrun : run (frameEnv ctx n) (Baseline.step (Baseline.analyze code) f) hs = .ok (.cont f', hs'))
    (hsend : Reaches (frameEnv ctx n) (Baseline.step (Baseline.analyze code) f) hs (.call m) hs₁) :
    ∃ r hs₂, call ctx Baseline.execute n m hs₁ = .ok (r, hs₂) ∧
      f'.state.returnData = r.outputData ∧
      ((∃ cop : CallOp, f.opcode (Baseline.analyze code) = some cop.opcode ∧ ¬ m.kind.IsCreate) ∨
        ∃ cop : CreateOp, f.opcode (Baseline.analyze code) = some cop.opcode ∧ m.kind.IsCreate) := by
  obtain ⟨r, hs₂, hr⟩ := hsend.answered hrun
  obtain ⟨op, hop, -, hstep, ⟨cop, rfl, hsend⟩ | ⟨cop, rfl, hsend⟩⟩ := Baseline.reaches_step hsend
  · obtain ⟨l, c, s₁, hcharge, -, rfl, -, hresult⟩ := reaches_callImpl hsend
    have hnext := Baseline.run_step_of_result hstep (coreImpl_call cop) (hresult r hs₂ hr)
    rw [hrun] at hnext
    cases hnext
    refine ⟨r, hs', hr, rfl, .inl ⟨cop, hop, ?_⟩⟩
    -- None of the call opcodes creates, both creating ones do.
    have hkind : (callMessage l c.gasLeft).kind = if cop = .delegatecall then .delegatecall else .call :=
      (charged_of_run hcharge).sound.kind
    rw [hkind]
    cases cop <;> decide
  · obtain ⟨l, c, s₁, -, -, rfl, -, hresult⟩ := reaches_createImpl hsend
    have hnext := Baseline.run_step_of_result hstep (coreImpl_create cop) (hresult r hs₂ hr)
    rw [hrun] at hnext
    cases hnext
    refine ⟨r, hs', hr, rfl, .inr ⟨cop, hop, ?_⟩⟩
    show (if cop = .create then CallKind.create else .create2).IsCreate
    cases cop <;> decide

/-- The call of `m` in the state `hs` starts a callee, a frame or a precompile, and the callee ends
with `r`. -/
inductive Callee (ctx : HostContext) : Nat → Message → HostState → CallResult → Prop
  | frame {n : Nat} {m m' : Message} {code : Bytes} {hs hs₁ hs₂ : HostState} {r : CallResult}
      (henters : Enters m hs m' code hs₁)
      (hrun : run (frameEnv ctx n) (Baseline.execute n m' code) hs₁ = .ok (r, hs₂)) :
      Callee ctx (n + 1) m hs r
  | precompile {n : Nat} {m m' : Message} {hs hs₁ hs₂ hs₃ : HostState} {r : CallResult}
      (hprepared : prepareMessage m hs = .ok (some m', hs₁)) (hkind : ¬ m'.kind.IsCreate)
      (henter : enterCall m' hs₁ = .ok ((), hs₂))
      (hpre : callPrecompile m' hs₂ = .ok (some r, hs₃)) : Callee ctx (n + 1) m hs r

/-- A call that runs code runs no precompile. -/
theorem not_precompile_of_enters {m₁ m₂ : Message} {hs₃ : HostState}
    (henters : Enters m hs m₁ code hs₁) {s₁ s₂ : HostState}
    (hprepared : prepareMessage m hs = .ok (some m₂, s₁)) (hkind : ¬ m₂.kind.IsCreate)
    (henter : enterCall m₂ s₁ = .ok ((), s₂)) : callPrecompile m₂ s₂ ≠ .ok (some r, hs₃) := by
  intro hpre
  cases henters with
  | create hprepared' hkind' =>
    cases hprepared.symm.trans hprepared'
    exact hkind hkind'
  | call hprepared' _ henter' hpre' =>
    cases hprepared.symm.trans hprepared'
    cases henter.symm.trans henter'
    cases hpre.symm.trans hpre'

/-- A call starts at most one callee. -/
theorem Callee.unique (h : Callee ctx n m hs r) (h' : Callee ctx n m hs r') : r = r' := by
  cases h with
  | frame henters hrun =>
    cases h' with
    | frame henters' hrun' =>
      obtain ⟨rfl, rfl, rfl⟩ := henters.unique henters'
      cases hrun.symm.trans hrun'
      rfl
    | precompile hprepared hkind henter hpre =>
      exact absurd hpre (not_precompile_of_enters henters hprepared hkind henter)
  | precompile hprepared hkind henter hpre =>
    cases h' with
    | frame henters' =>
      exact absurd hpre (not_precompile_of_enters henters' hprepared hkind henter)
    | precompile hprepared' _ henter' hpre' =>
      cases hprepared.symm.trans hprepared'
      cases henter.symm.trans henter'
      cases hpre.symm.trans hpre'
      rfl

/-- The message of a callee. -/
theorem Callee.prepared (h : Callee ctx n m hs r) :
    ∃ m' hs₁, prepareMessage m hs = .ok (some m', hs₁) ∧
      (m'.kind.IsCreate → ∃ hs₂, enterCreate m' hs₁ = .ok (true, hs₂)) := by
  cases h with
  | frame henters =>
    cases henters with
    | create hprepared _ henter => exact ⟨_, _, hprepared, fun _ => ⟨_, henter⟩⟩
    | call hprepared hkind => exact ⟨_, _, hprepared, fun h => absurd h hkind⟩
  | precompile hprepared hkind => exact ⟨_, _, hprepared, fun h => absurd h hkind⟩

/-- What a call instruction keeps of the output of its callee. -/
def keptByCall (r : CallResult) : Bytes :=
  if r.statusCode = .success ∨ r.statusCode = .revert then r.outputData else []

/-- What a create instruction keeps of the output of the init code. -/
def keptByCreate (r : CallResult) : Bytes := if r.statusCode = .revert then r.outputData else []

omit [Ethash] in
/-- Where failures have no output, all of it is kept. -/
theorem keptByCall_of_failed (h : r.statusCode.IsFailure → r.outputData = []) :
    r.outputData = keptByCall r := by
  unfold keptByCall
  split
  next => rfl
  next hstatus => exact h ⟨fun hs => hstatus (.inl hs), fun hs => hstatus (.inr hs)⟩

omit [Ethash] in
/-- The code that is deployed is not returned. -/
theorem keptByCreate_of_deployed {msg : Message} (h : r.statusCode.IsFailure → r.outputData = [])
    (hdeployed : Deployed msg r hs r' hs') : r'.outputData = keptByCreate r := by
  unfold keptByCreate
  cases hdeployed with
  | failed hstatus =>
    split
    next => rfl
    next hrevert => exact h ⟨hstatus, hrevert⟩
  | refused hstatus | rejected hstatus | done hstatus => rw [if_neg (by rw [hstatus]; decide)]

/-- The output of the result of a call is what is kept of the output of its callee. -/
theorem outputData_of_call (hrun : call ctx Baseline.execute n m hs = .ok (r', hs')) :
    (∃ r, Callee ctx n m hs r ∧
      r'.outputData = if m.kind.IsCreate then keptByCreate r else keptByCall r) ∨
    (∀ r, ¬ Callee ctx n m hs r) ∧ r'.outputData = [] := by
  obtain ⟨k, rfl, hcalled⟩ := call_ok hrun
  -- A frame that ends in a failure, a revert apart, has no output.
  have hfailed : ∀ {m' code hs₁ r hs₂},
      run (frameEnv ctx k) (Baseline.execute k m' code) hs₁ = .ok (r, hs₂) →
      r.statusCode.IsFailure → r.outputData = [] :=
    fun hrun => (Baseline.execute_failed_output k _ _).run hrun
  -- What the host keeps of the callee's output depends on how the message was executed.
  have hexecuted : ∀ {m' : Message} {hs₁ hs₂}, prepareMessage m hs = .ok (some m', hs₁) →
      Executed (execVm ctx Baseline.execute (call ctx Baseline.execute k) k) m' hs₁ r' hs₂ →
      (∃ r, Callee ctx (k + 1) m hs r ∧
        r'.outputData = if m.kind.IsCreate then keptByCreate r else keptByCall r) ∨
      (∀ r, ¬ Callee ctx (k + 1) m hs r) ∧ r'.outputData = [] := by
    intro m' hs₁ hs₂ hprepared hexecuted
    have hkind : m'.kind = m.kind := by
      cases prepareMessage_ok hprepared <;> rfl
    rw [← hkind]
    cases hexecuted with
    -- Nothing ran, and nothing is kept.
    | collision hcreate henter =>
      refine .inr ⟨fun r hcallee => ?_, rfl⟩
      obtain ⟨_, _, hprepared', hentered⟩ := hcallee.prepared
      cases hprepared.symm.trans hprepared'
      obtain ⟨_, henter'⟩ := hentered hcreate
      cases henter.symm.trans henter'
    | create hcreate hnonce hcode htransfer hrun hdeploy =>
      have henter := enterCreate_of_fresh ⟨hnonce, hcode⟩ htransfer
      refine .inl ⟨_, .frame (.create hprepared hcreate henter) hrun, ?_⟩
      rw [if_pos hcreate]
      exact keptByCreate_of_deployed (hfailed hrun) hdeploy
    | precompile hcreate henter hresult =>
      refine .inl ⟨r', .precompile hprepared hcreate henter (callPrecompile_of_result hresult), ?_⟩
      rw [if_neg hcreate]
      exact keptByCall_of_failed fun h =>
        (Precompiles.callPrecompile_answered hresult).output h.1
    | call hcreate henter hresult hrun =>
      refine .inl ⟨r', .frame (.call hprepared hcreate henter (callPrecompile_of_result hresult))
        hrun, ?_⟩
      rw [if_neg hcreate]
      exact keptByCall_of_failed (hfailed hrun)
  -- Rolling back on a failure does not touch the output.
  cases hcalled with
  | refused hprepared =>
    refine .inr ⟨fun r hcallee => ?_, rfl⟩
    obtain ⟨_, _, hprepared', -⟩ := hcallee.prepared
    cases hprepared.symm.trans hprepared'
  | success hprepared h => exact hexecuted hprepared h
  | failed hprepared h => exact hexecuted hprepared h

/-! ### The law -/

/-- The return data `data` after a call or create instruction: what is kept of the output of the
callee, if one was started. -/
structure FollowsCallee (ctx : HostContext) (n : Nat) (code : Bytes) (f : Baseline.Frame)
    (hs : HostState) (kept : CallResult → Bytes) (data : Bytes) : Prop where
  started : ∀ m hs₁ r,
    Reaches (frameEnv ctx n) (Baseline.step (Baseline.analyze code) f) hs (.call m) hs₁ →
    Callee ctx n m hs₁ r → data = kept r
  notStarted : (∀ m hs₁ r,
    Reaches (frameEnv ctx n) (Baseline.step (Baseline.analyze code) f) hs (.call m) hs₁ →
    ¬ Callee ctx n m hs₁ r) → data = []

/-- The return data after an instruction that led from the frame `f` to the frame `f'`. -/
structure ReturnDataStep (ctx : HostContext) (n : Nat) (code : Bytes) (f : Baseline.Frame)
    (hs : HostState) (f' : Baseline.Frame) : Prop where
  call : ∀ cop : CallOp, f.opcode (Baseline.analyze code) = some cop.opcode →
    FollowsCallee ctx n code f hs keptByCall f'.state.returnData
  create : ∀ cop : CreateOp, f.opcode (Baseline.analyze code) = some cop.opcode →
    FollowsCallee ctx n code f hs keptByCreate f'.state.returnData
  other : ∀ op, f.opcode (Baseline.analyze code) = some op → ¬ IsCallLike op →
    f'.state.returnData = f.state.returnData

omit [Ethash] in
/-- A frame stands at the opcode that its code has there. -/
theorem opcode_eq {analysis : Baseline.CodeAnalysis} {byte : UInt8} {op : Opcode}
    (hbyte : analysis.executableCode[f.codeIt]? = some byte) (hop : Opcode.ofByte byte = some op) :
    f.opcode analysis = some op := by
  rw [Baseline.Frame.opcode, hbyte, Option.bind_some, hop]

omit [Ethash] in
/-- No opcode both calls and creates. -/
theorem call_ne_create (cop : CallOp) (cop' : CreateOp) : cop.opcode ≠ cop'.opcode := by
  cases cop <;> cases cop' <;> decide

/-- After a call or create instruction the return data follows the callee. -/
theorem followsCallee {kept : CallResult → Bytes} {op : Opcode}
    (hrun : run (frameEnv ctx n) (Baseline.step (Baseline.analyze code) f) hs = .ok (.cont f', hs'))
    (hop : f.opcode (Baseline.analyze code) = some op) (hcall : IsCallLike op)
    (hkept : ∀ {m hs₁}, Reaches (frameEnv ctx n) (Baseline.step (Baseline.analyze code) f) hs
      (.call m) hs₁ → (fun r => if m.kind.IsCreate then keptByCreate r else keptByCall r) = kept) :
    FollowsCallee ctx n code f hs kept f'.state.returnData := by
  -- What the host returned for the message is what it kept of the callee.
  have hsent : ∀ {m hs₁}, Reaches (frameEnv ctx n) (Baseline.step (Baseline.analyze code) f) hs
      (.call m) hs₁ → (∃ r, Callee ctx n m hs₁ r ∧ f'.state.returnData = kept r) ∨
        (∀ r, ¬ Callee ctx n m hs₁ r) ∧ f'.state.returnData = [] := by
    intro m hs₁ hsend
    obtain ⟨r, hs₂, hr, hdata, -⟩ := returnData_of_sent hrun hsend
    rw [hdata, ← hkept hsend]
    exact outputData_of_call hr
  constructor
  case started =>
    intro m hs₁ r hsend hcallee
    rcases hsent hsend with ⟨r', hcallee', hdata⟩ | ⟨hnone, -⟩
    · rw [hcallee.unique hcallee']
      exact hdata
    · exact absurd hcallee (hnone r)
  case notStarted =>
    intro hnone
    by_cases hsend : ∃ m hs₁, Reaches (frameEnv ctx n) (Baseline.step (Baseline.analyze code) f) hs
        (.call m) hs₁
    · obtain ⟨m, hs₁, hsend⟩ := hsend
      rcases hsent hsend with ⟨r, hcallee, -⟩ | ⟨-, hdata⟩
      · exact absurd hcallee (hnone m hs₁ r hsend)
      · exact hdata
    · exact Baseline.returnData_of_not_sent hrun hop hcall fun m hs₁ h => hsend ⟨m, hs₁, h⟩

/-- Every instruction that does not end the frame treats the return data as it should. -/
theorem returnDataStep
    (hrun : run (frameEnv ctx n) (Baseline.step (Baseline.analyze code) f) hs = .ok (.cont f', hs')) :
    ReturnDataStep ctx n code f hs f' := by
  constructor
  case call =>
    intro cop hop
    refine followsCallee hrun hop (.inl ⟨cop, rfl⟩) fun {m hs₁} hsend => ?_
    obtain ⟨_, _, -, -, ⟨_, -, hkind⟩ | ⟨cop', hop', -⟩⟩ := returnData_of_sent hrun hsend
    · exact funext fun r => if_neg hkind
    · exact absurd (Option.some.inj (hop.symm.trans hop')) (call_ne_create cop cop')
  case create =>
    intro cop hop
    refine followsCallee hrun hop (.inr ⟨cop, rfl⟩) fun {m hs₁} hsend => ?_
    obtain ⟨_, _, -, -, ⟨cop', hop', -⟩ | ⟨_, -, hkind⟩⟩ := returnData_of_sent hrun hsend
    · exact absurd (Option.some.inj (hop'.symm.trans hop)) (call_ne_create cop' cop)
    · exact funext fun r => if_pos hkind
  case other =>
    intro op hop hcall
    refine (Baseline.step_returnData fun byte op' hbyte hop' => ?_).run hrun
    rw [opcode_eq hbyte hop'] at hop
    cases hop
    exact hcall

/-- The return data buffer of every frame that runs with the host: it is empty until the first call
or create instruction, and every instruction treats it as it should. -/
theorem return_data_follows_callees {k : Nat}
    (h : Baseline.Passes (frameEnv ctx n) (Baseline.analyze code) (.start m code) hs k f hs₁) :
    ((∀ j f' hs', j < k →
        Baseline.Passes (frameEnv ctx n) (Baseline.analyze code) (.start m code) hs j f' hs' →
        ∀ op, f'.opcode (Baseline.analyze code) = some op → ¬ IsCallLike op) →
      f.state.returnData = []) ∧
    ∀ f' hs', run (frameEnv ctx n) (Baseline.step (Baseline.analyze code) f) hs₁
      = .ok (.cont f', hs') → ReturnDataStep ctx n code f hs₁ f' := by
  refine ⟨fun hquiet => ?_, fun f' hs' hrun => returnDataStep hrun⟩
  induction h with
  | start => rfl
  | @next k f₁ f₂ s₁ s₂ hpasses hstep ih =>
    have hdata : f₁.state.returnData = [] :=
      ih fun j f' hs' hj hpasses' => hquiet j f' hs' (by omega) hpasses'
    have hsame : f₂.state.returnData = f₁.state.returnData :=
      (Baseline.step_returnData fun byte op hbyte hop =>
        hquiet k f₁ s₁ (by omega) hpasses op (opcode_eq hbyte hop)).run hstep
    exact hsame.trans hdata

end

/-- The account `0x10` reverts with one byte by `PUSH1 1 PUSH0 REVERT`. -/
def callingState : HostState :=
  { state := ((⟨∅⟩ : State).set 0x10 { nonce := 1, code := [0x60, 0x01, 0x5f, 0xfd] }).set 0x20 {} }

/-- A frame of the account `0x20`. -/
def callingMessage : Message :=
  { gas := 10000, depth := 1, recipient := 0x20, codeAddress := 0x20, sender := 0x30 }

/-- `PUSH0 PUSH0 PUSH0 PUSH0 PUSH1 0x10 GAS STATICCALL`. -/
def callingCode : Bytes := [0x5f, 0x5f, 0x5f, 0x5f, 0x60, 0x10, 0x5a, 0xfa]

/-- After the `STATICCALL` the return data is the byte that the callee reverted with. -/
theorem return_data_follows_callees_revert : ∃ (_ : Ethash) (ctx : HostContext)
    (f f' : Baseline.Frame) (hs : HostState),
    ReturnDataStep ctx 6 callingCode f hs f' ∧ f'.state.returnData = [0] := by
  let ethash : Ethash := ⟨fun _ => 0⟩
  let ctx : HostContext := ⟨{ coinbase := 0 },
    { gasLimit := 0, maxGasPrice := 0, maxPriorityGasPrice := 0, sender := 0, to_ := none,
      value := 0 }⟩
  have hafter : ((Baseline.after (frameEnv ctx 6) (Baseline.analyze callingCode) 7
      (.start callingMessage callingCode) callingState).map fun x => x.1.state.returnData)
        = some [0] := by decide +kernel
  rcases hrun : Baseline.after (frameEnv ctx 6) (Baseline.analyze callingCode) 7
      (.start callingMessage callingCode) callingState with _ | ⟨f', hs'⟩ <;> rw [hrun] at hafter
  · cases hafter
  · cases Baseline.passes_of_after hrun with
    | next hpasses hstep =>
      exact ⟨ethash, ctx, _, f', _, (return_data_follows_callees hpasses).2 f' hs' hstep,
        Option.some.inj hafter⟩

end Zvmone
