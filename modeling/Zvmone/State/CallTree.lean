import Zvmone.State.HostSteps
import Zvmone.Vm.BaselineSteps

/-! # The tree of frames of a call

`Visits` says which frames, at which point, occur in the tree of nested executions of a call with
the Baseline interpreter as the virtual machine. -/

namespace Zvmone

open Interaction InstrM Instr Zvmone.Core

namespace Host

variable [Ethash]

/-- The environment of a frame whose nested messages have `fuel`. -/
def frameEnv (ctx : HostContext) (fuel : Nat) : Env HostCall.Answer Fault HostState :=
  answer ctx (call ctx Baseline.execute fuel)

/-- The call of `msg` in the state `hs` runs a code for a message, from a state on. -/
inductive Enters (msg : Message) (hs : HostState) : Message → Bytes → HostState → Prop
  /-- The init code of a new contract. -/
  | create {msg' : Message} {hs₁ hs₂ : HostState}
      (hprepared : prepareMessage msg hs = .ok (some msg', hs₁)) (hkind : msg'.kind.IsCreate)
      (henter : enterCreate msg' hs₁ = .ok (true, hs₂)) :
      Enters msg hs { msg' with inputData := [] } msg'.inputData hs₂
  /-- The code of the called account. -/
  | call {msg' : Message} {hs₁ hs₂ hs₃ : HostState}
      (hprepared : prepareMessage msg hs = .ok (some msg', hs₁)) (hkind : ¬ msg'.kind.IsCreate)
      (henter : enterCall msg' hs₁ = .ok ((), hs₂))
      (hpre : callPrecompile msg' hs₂ = .ok (none, hs₃)) :
      Enters msg hs msg' (codeOf hs₂ msg') hs₃

/-- A call runs at most one code for a message. -/
theorem Enters.unique {msg m m' : Message} {code code' : Bytes} {hs hs₁ hs₁' : HostState}
    (h : Enters msg hs m code hs₁) (h' : Enters msg hs m' code' hs₁') :
    m = m' ∧ code = code' ∧ hs₁ = hs₁' := by
  cases h with
  | create hprepared hkind henter =>
    cases h' with
    | create hprepared' _ henter' =>
      cases hprepared.symm.trans hprepared'
      cases henter.symm.trans henter'
      exact ⟨rfl, rfl, rfl⟩
    | call hprepared' hkind' =>
      cases hprepared.symm.trans hprepared'
      exact absurd hkind hkind'
  | call hprepared hkind henter hpre =>
    cases h' with
    | create hprepared' hkind' =>
      cases hprepared.symm.trans hprepared'
      exact absurd hkind' hkind
    | call hprepared' _ henter' hpre' =>
      cases hprepared.symm.trans hprepared'
      cases henter.symm.trans henter'
      cases hpre.symm.trans hpre'
      exact ⟨rfl, rfl, rfl⟩

/-- The code runs for a message with the depth and the gas of the message of the call. -/
theorem Enters.depth_gas {msg m : Message} {code : Bytes} {hs hs₁ : HostState}
    (h : Enters msg hs m code hs₁) : m.depth = msg.depth ∧ m.gas = msg.gas := by
  cases h with
  | create hprepared => cases prepareMessage_ok hprepared <;> exact ⟨rfl, rfl⟩
  | call hprepared => cases prepareMessage_ok hprepared <;> exact ⟨rfl, rfl⟩

/-- `Visits ctx fuel msg hs n code f hs'`: in the tree of the call of `msg` in the state `hs`, a
frame that runs `code` is at `f` when the host is in the state `hs'`. The messages it sends have the
fuel `n`. -/
inductive Visits (ctx : HostContext) :
    Nat → Message → HostState → Nat → Bytes → Baseline.Frame → HostState → Prop
  /-- The call starts a frame. -/
  | enter {n : Nat} {msg m : Message} {hs hs' : HostState} {code : Bytes}
      (h : Enters msg hs m code hs') :
      Visits ctx (n + 1) msg hs n code ⟨0, .bottom, m.gas, .init m code⟩ hs'
  /-- A frame goes on with the next instruction. -/
  | step {fuel n : Nat} {msg : Message} {hs hs₁ hs₂ : HostState} {code : Bytes}
      {f f' : Baseline.Frame} (h : Visits ctx fuel msg hs n code f hs₁)
      (hstep : run (frameEnv ctx n) (Baseline.step (Baseline.analyze code) f) hs₁
        = .ok (.cont f', hs₂)) :
      Visits ctx fuel msg hs n code f' hs₂
  /-- A frame sends a message; what that call visits is visited. -/
  | nested {fuel n n' : Nat} {msg m : Message} {hs hs₁ hs₂ hs₃ : HostState} {code code' : Bytes}
      {f f' : Baseline.Frame} (h : Visits ctx fuel msg hs n code f hs₁)
      (hsend : Reaches (frameEnv ctx n) (Baseline.step (Baseline.analyze code) f) hs₁ (.call m) hs₂)
      (h' : Visits ctx n m hs₂ n' code' f' hs₃) :
      Visits ctx fuel msg hs n' code' f' hs₃

end Host

/-! ### The message of an instruction -/

namespace Core

variable {σ : Type} {env : Env HostCall.Answer Fault σ} {s s' : σ} {c : Ctx} {m : Message}

/-- A program that uses ordinary host methods sends no message. -/
theorem not_reaches_call_of_asks {α : Type} {A : HostCall → Prop} (hA : ∀ m, ¬ A (.call m))
    {p : HostM α} {Q : α → Unit → Prop} (hp : wp (.asking Fault A) p () Q) :
    ¬ Reaches env p s (.call m) s' :=
  fun h => hA m ((asks_of_wp hp (fun _ hq => hq) fun _ _ => trivial).reaches h)

/-- The one message of a call instruction is sent after all charges, at a depth below 1024, with a
value that the frame has. -/
theorem reaches_callImpl {op : CallOp} (h : Reaches env (callImpl op c) s (.call m) s') :
    ∃ l c' s₁, run env (callCharge op c) s = .ok ((.ok l, c'), s₁) ∧
      c'.state.msg.depth < 1024 ∧ m = callMessage l c'.gasLeft ∧
      Affords env s' c'.state.msg.recipient l.value ∧
      ∀ r s₂, env (.call m) s' = .ok (r, s₂) →
        run env (callImpl op c) s = .ok ((.ok (), afterCall l c' r), s₂) := by
  have hcharge := yields_callCharge (A := HostCall.IsOrdinary) op (fun _ => trivial)
    (fun _ => trivial) c
  rcases reaches_bind.1 h with h | ⟨⟨e | l, c'⟩, s₁, hrun, h⟩
  · exact absurd h (not_reaches_call_of_asks (fun _ => id) hcharge)
  · exact absurd h not_reaches_ret
  · have h : Reaches env (callSend l c') s₁ (.call m) s' := h
    rw [callSend_eq] at h
    obtain ⟨hdepth, rfl, hvalue, hresult⟩ := reaches_sending h
    refine ⟨l, c', s₁, hrun, hdepth, rfl, hvalue, fun r s₂ hr => ?_⟩
    show run env (callCharge op c >>= andThen callSend) s = _
    rw [run_bind, hrun]
    show run env (callSend l c') s₁ = _
    rw [callSend_eq]
    exact hresult r s₂ hr

/-- The one message of a create instruction is sent after all charges, at a depth below 1024, with a
value that the frame has. -/
theorem reaches_createImpl {op : CreateOp} (h : Reaches env (createImpl op c) s (.call m) s') :
    ∃ l c' s₁, run env (createCharge op c) s = .ok ((.ok l, c'), s₁) ∧
      c'.state.msg.depth < 1024 ∧ m = createMessage op l c' ∧
      Affords env s' c'.state.msg.recipient l.endowment ∧
      ∀ r s₂, env (.call m) s' = .ok (r, s₂) →
        run env (createImpl op c) s = .ok ((.ok (), afterCreate op l c' r), s₂) := by
  have hcharge := yields_createCharge (A := HostCall.IsOrdinary) op c
  rcases reaches_bind.1 h with h | ⟨⟨e | l, c'⟩, s₁, hrun, h⟩
  · exact absurd h (not_reaches_call_of_asks (fun _ => id) hcharge)
  · exact absurd h not_reaches_ret
  · have h : Reaches env (createSend op l c') s₁ (.call m) s' := h
    rw [createSend_eq] at h
    obtain ⟨hdepth, rfl, hvalue, hresult⟩ := reaches_sending h
    refine ⟨l, c', s₁, hrun, hdepth, rfl, hvalue, fun r s₂ hr => ?_⟩
    show run env (createCharge op c >>= andThen (createSend op)) s = _
    rw [run_bind, hrun]
    show run env (createSend op l c') s₁ = _
    rw [createSend_eq]
    exact hresult r s₂ hr

end Core

namespace Baseline

variable [Ethash] {σ : Type} {env : Env HostCall.Answer Fault σ} {s s' : σ} {m : Message}
  {analysis : CodeAnalysis} {f : Frame}

/-- What an instruction of the frame works on once its base cost is charged. -/
def Frame.charged (f : Frame) (op : Opcode) : Ctx := ⟨f.stackTop, f.gas - gasCosts op, f.state⟩

omit [Ethash] in
/-- A program without calls reaches no call, whatever follows it. -/
theorem not_reaches_bind_ret {α β : Type} {A : HostCall → Prop} (hA : ∀ m, ¬ A (.call m))
    {p : HostM α} {Q : α → Unit → Prop} (hp : wp (.asking Fault A) p () Q) {f : α → β} :
    ¬ Reaches env (p >>= fun a => .ret (f a)) s (.call m) s' := by
  intro h
  rcases reaches_bind.1 h with h | ⟨a, s₁, -, h⟩
  · exact not_reaches_call_of_asks hA hp h
  · exact not_reaches_ret h

/-- Only call and create instructions send messages. -/
theorem reaches_invokeCore {op : Opcode}
    (h : Reaches env (invokeCore analysis op f) s (.call m) s') :
    (∃ cop : CallOp, op = cop.opcode ∧
        Reaches env (callImpl cop ⟨f.stackTop, f.gas, f.state⟩) s (.call m) s') ∨
      ∃ cop : CreateOp, op = cop.opcode ∧
        Reaches env (createImpl cop ⟨f.stackTop, f.gas, f.state⟩) s (.call m) s' := by
  by_cases hspecial : IsSpecial op
  · rcases special_cases hspecial with rfl | ⟨-, rfl | ⟨cop, rfl⟩ | ⟨cop, rfl⟩ | hop⟩
    -- `SSTORE` asks two questions, neither of them a message.
    · rw [invokeCore_result (m := Core.sstore) rfl] at h
      have hasks : ∀ c, wp (.asking Fault fun q => ∀ m, q ≠ .call m) (sstore c) ()
          fun _ _ => True :=
        fun c => wp_sstore ⟨fun q hq m => by cases q <;> first | exact hq.elim | exact nofun,
          fun _ _ _ _ _ => rfl⟩ (fun _ _ => trivial)
          fun _ _ _ => ⟨nofun, fun _ _ _ => by split <;> trivial⟩
      exact absurd h (not_reaches_bind_ret (fun m hm => hm m rfl) (hasks _))
    · rw [invokeCore_result (m := Core.gas) rfl] at h
      exact absurd h not_reaches_ret
    · rw [invokeCore_result (coreImpl_call cop)] at h
      rcases reaches_bind.1 h with h | ⟨_, _, -, h⟩
      · exact .inl ⟨cop, rfl, h⟩
      · exact absurd h not_reaches_ret
    · rw [invokeCore_result (coreImpl_create cop)] at h
      rcases reaches_bind.1 h with h | ⟨_, _, -, h⟩
      · exact .inr ⟨cop, rfl, h⟩
      · exact absurd h not_reaches_ret
    · rw [invokeCore_pos hop] at h
      exact absurd h not_reaches_ret
  -- All others ask for nothing but accounts, blocks and logs.
  · have hm : MeteredFn False HostCall.IsOrdinaryOrLog (coreImpl op) :=
      metered_coreImpl hspecial (fun q hq => by cases q <;> trivial) fun _ _ _ _ _ => trivial
    cases hop : coreImpl op with
    | stack fn =>
      unfold invokeCore at h
      rw [hop] at h
      exact absurd h not_reaches_ret
    | state fn =>
      rw [hop] at hm
      unfold invokeCore at h
      rw [hop] at h
      exact absurd h (not_reaches_bind_ret (fun _ => id) (hm _ _))
    | result fn =>
      rw [hop] at hm
      rw [invokeCore_result hop] at h
      exact absurd h (not_reaches_bind_ret (fun _ => id) (hm.outcome _))
    | term fn =>
      rw [hop] at hm
      rw [invokeCore_term hop] at h
      exact absurd h (not_reaches_bind_ret (fun _ => id) (hm.outcome _))
    | pos => rw [hop] at hm; exact hm.elim

/-- The opcode at the position of a frame. -/
def Frame.opcode (analysis : CodeAnalysis) (f : Frame) : Option Opcode :=
  analysis.executableCode[f.codeIt]?.bind Opcode.ofByte

/-- A step whose implementation runs to the end. -/
theorem run_step_of_result {op : Opcode} {fn : InstrM Unit} {c : Ctx}
    (hstep : step analysis f = invokeCore analysis op { f with gas := f.gas - gasCosts op })
    (hop : coreImpl op = .result fn) (h : run env (fn (f.charged op)) s = .ok ((.ok (), c), s')) :
    run env (step analysis f) s = .ok (.cont (f.next op c), s') := by
  have h : run env (fn ⟨f.stackTop, f.gas - gasCosts op, f.state⟩) s = .ok ((.ok (), c), s') := h
  rw [hstep, invokeCore_result hop, run_bind, h]
  rfl

/-- A step that sends a message is a call or create instruction whose requirements are met. -/
theorem reaches_step (h : Reaches env (step analysis f) s (.call m) s') :
    ∃ op, f.opcode analysis = some op ∧ 0 ≤ f.gas - gasCosts op ∧
      step analysis f = invokeCore analysis op { f with gas := f.gas - gasCosts op } ∧
      ((∃ cop : CallOp, op = cop.opcode ∧
          Reaches env (callImpl cop (f.charged op)) s (.call m) s') ∨
        ∃ cop : CreateOp, op = cop.opcode ∧
          Reaches env (createImpl cop (f.charged op)) s (.call m) s') := by
  unfold step at h ⊢
  unfold Frame.opcode
  cases hbyte : analysis.executableCode[f.codeIt]? with
  | none =>
    rw [hbyte] at h
    exact absurd h not_reaches_fail
  | some byte =>
    rw [hbyte] at h
    cases hop : Opcode.ofByte byte with
    | none =>
      simp only [hop] at h
      exact absurd h not_reaches_ret
    | some op =>
      simp only [hop, invoke] at h ⊢
      -- A failed check ends the frame without asking anything.
      rcases checkRequirements_cases op f.gas f.stackTop with
        ⟨hok, hgas⟩ | ⟨status, gas', hfail, -, hstatus⟩
      · rw [hok] at h ⊢
        exact ⟨op, hop, hgas, rfl, reaches_invokeCore h⟩
      · rw [hfail] at h
        cases status <;> first
          | exact absurd rfl hstatus.1
          | exact absurd h not_reaches_ret

end Baseline

end Zvmone
