import Zvmone.Library.TwoRuns
import Zvmone.Vm.FrameAuthority
import Zvmone.Vm.InterpretersAgree

/-! # The kind of a failure does not matter

The result of a message says how the message failed, and the interpreters do not always fail in the
same way. A frame of the Baseline interpreter does not tell the failures apart: it goes on in the
same way for results that are `Alike` (`Baseline.execute_blind`). A machine that `Replaces` the
Baseline interpreter makes the same queries and returns a result that is alike, unless it gives up
where the Baseline interpreter is bound to fail; the Advanced interpreter does
(`Advanced.replaces`). -/

namespace Zvmone

open Interaction InstrM Instr Zvmone.Core

/-! ### Results that are alike -/

/-- Results that differ at most in how they failed. -/
structure CallResult.Alike (r r' : CallResult) : Prop where
  rest : r' = { r with statusCode := r'.statusCode }
  status : r'.statusCode = r.statusCode ∨ r.statusCode.IsFailure ∧ r'.statusCode.IsFailure

/-- A failure that leaves nothing. -/
structure CallResult.Failed (r : CallResult) : Prop where
  status : r.statusCode.IsFailure
  rest : r = { statusCode := r.statusCode }

namespace CallResult

variable {r r' r'' : CallResult}

/-- A result is like itself. -/
@[simp] theorem Alike.refl (r : CallResult) : r.Alike r := ⟨rfl, .inl rfl⟩

/-- Being alike is symmetric. -/
theorem Alike.symm (h : r.Alike r') : r'.Alike r := by
  obtain ⟨hrest, hstatus⟩ := h
  refine ⟨?_, ?_⟩
  · rw [hrest]
  · rcases hstatus with heq | ⟨hr, hr'⟩
    · exact .inl heq.symm
    · exact .inr ⟨hr', hr⟩

/-- Being alike is transitive. -/
theorem Alike.trans (h : r.Alike r') (h' : r'.Alike r'') : r.Alike r'' := by
  obtain ⟨hrest, hstatus⟩ := h
  obtain ⟨hrest', hstatus'⟩ := h'
  refine ⟨?_, ?_⟩
  · rw [hrest', hrest]
  · rcases hstatus with heq | ⟨hr, hr'⟩
    · rwa [heq] at hstatus'
    · rcases hstatus' with heq' | ⟨-, hr''⟩
      · exact .inr ⟨hr, heq' ▸ hr'⟩
      · exact .inr ⟨hr, hr''⟩

/-- Failures that leave nothing are alike. -/
theorem Failed.alike (h : r.Failed) (h' : r'.Failed) : r.Alike r' := by
  refine ⟨?_, .inr ⟨h.status, h'.status⟩⟩
  rw [h'.rest, h.rest]

/-- Alike results agree on success. -/
theorem Alike.success_iff (h : r.Alike r') : r'.statusCode = .success ↔ r.statusCode = .success := by
  rcases h.status with heq | ⟨hr, hr'⟩
  · rw [heq]
  · exact iff_of_false hr'.1 hr.1

/-- Alike results leave the same gas. -/
theorem Alike.gasLeft (h : r.Alike r') : r'.gasLeft = r.gasLeft := by rw [h.rest]

/-- Alike results have the same refund. -/
theorem Alike.gasRefund (h : r.Alike r') : r'.gasRefund = r.gasRefund := by rw [h.rest]

/-- Alike results have the same output. -/
theorem Alike.outputData (h : r.Alike r') : r'.outputData = r.outputData := by rw [h.rest]

/-- Alike results have the same created address. -/
theorem Alike.createAddress (h : r.Alike r') : r'.createAddress = r.createAddress := by rw [h.rest]

end CallResult

/-- Answers that differ at most in how a message failed. -/
def HostCall.AnswersAlike : (q : HostCall) → q.Answer → q.Answer → Prop
  | .call _, r, r' => r.Alike r'
  | _, r, r' => r = r'

/-- Only messages are answered in more than one way. -/
theorem HostCall.AnswersAlike.eq {q : HostCall} (hq : ∀ m, q ≠ .call m) (r r' : q.Answer)
    (h : q.AnswersAlike r r') : r = r' := by
  cases q with
  | call m => exact absurd rfl (hq m)
  | _ => exact h

/-! ### Instructions -/

namespace Core

variable {α : Type}

/-- The program does not tell the failures of messages apart. -/
abbrev BlindToFailures (p : HostM α) : Prop := p.Blind HostCall.AnswersAlike

/-- A program that sends no messages. -/
theorem blind_of_asking {A : HostCall → Prop} (hA : ∀ m, ¬ A (.call m)) {p : HostM α}
    {Q : α → Unit → Prop} (hp : wp (.asking Fault A) p () Q) : BlindToFailures p := by
  have hasks : p.Asks A := asks_of_wp hp (fun _ hq => hq) fun _ _ => trivial
  refine hasks.blind fun q hq r r' h => HostCall.AnswersAlike.eq (fun m heq => ?_) r r' h
  exact hA m (heq ▸ hq)

/-- Sending a message does not tell alike results apart if what follows does not. -/
theorem blind_sending {depth : Int} {sender : Address} {value : Word} {m : Message} {light : α}
    {done : CallResult → α} (hdone : ∀ r r' : CallResult, r.Alike r' → done r = done r') :
    BlindToFailures (sending depth sender value m light done) := by
  have hcall : BlindToFailures (.ask (.call m) fun r => .ret (done r) : HostM α) :=
    ⟨fun r r' h => congrArg Interaction.ret (hdone r r' h), fun _ => trivial⟩
  unfold sending
  split
  · trivial
  · split
    · refine ⟨fun r r' h => ?_, fun balance => ?_⟩
      · have h : r = r' := h
        rw [h]
      · dsimp only
        split
        · trivial
        · exact hcall
    · exact hcall

/-- A call instruction pushes whether the message succeeded. -/
theorem blind_callImpl (op : CallOp) (c : Ctx) : BlindToFailures (callImpl op c) := by
  have hcharge := yields_callCharge (A := HostCall.IsOrdinary) op (fun _ => trivial)
    (fun _ => trivial) c
  refine (blind_of_asking (fun _ => id) hcharge).bind ?_
  rintro ⟨e | l, c'⟩
  · trivial
  · show BlindToFailures (callSend l c')
    rw [callSend_eq]
    refine blind_sending fun r r' h => ?_
    simp only [afterCall, memoryAfterCall, h.success_iff, h.gasLeft, h.gasRefund, h.outputData]

/-- A create instruction pushes the address of the contract if the message succeeded. -/
theorem blind_createImpl (op : CreateOp) (c : Ctx) : BlindToFailures (createImpl op c) := by
  have hcharge := yields_createCharge (A := HostCall.IsOrdinary) op c
  refine (blind_of_asking (fun _ => id) hcharge).bind ?_
  rintro ⟨e | l, c'⟩
  · trivial
  · show BlindToFailures (createSend op l c')
    rw [createSend_eq]
    refine blind_sending fun r r' h => ?_
    simp only [afterCreate, h.success_iff, h.gasLeft, h.gasRefund, h.outputData, h.createAddress]

/-- `SSTORE` makes no calls. -/
theorem blind_sstore (c : Ctx) : BlindToFailures (sstore c) := by
  have hasks : wp (.asking Fault fun q => ∀ m, q ≠ .call m) (sstore c) () fun _ _ => True :=
    wp_sstore ⟨fun q hq m => by cases q <;> first | exact hq.elim | exact nofun,
      fun _ _ _ _ _ => rfl⟩ (fun _ _ => trivial)
      fun _ _ _ => ⟨nofun, fun _ _ _ => by split <;> trivial⟩
  exact blind_of_asking (fun m hm => hm m rfl) hasks

/-- What blindness means for each kind of implementation. -/
def BlindFn : CoreFn → Prop
  | .stack _ => True
  | .state f => ∀ stack st, BlindToFailures (f stack st)
  | .result m => ∀ c, BlindToFailures (m c)
  | .term m => ∀ c, BlindToFailures (m c)
  | .pos => True

/-- No implementation tells the failures of messages apart. -/
theorem blindFn_coreImpl [Ethash] (op : Opcode) : BlindFn (coreImpl op) := by
  by_cases hspecial : IsSpecial op
  · rcases special_cases hspecial with rfl | ⟨-, rfl | ⟨cop, rfl⟩ | ⟨cop, rfl⟩ | hop⟩
    · exact blind_sstore
    · exact fun _ => trivial
    · rw [coreImpl_call]
      exact blind_callImpl cop
    · rw [coreImpl_create]
      exact blind_createImpl cop
    · rw [hop]
      trivial
  -- All other implementations send no messages.
  have hm : MeteredFn False HostCall.IsOrdinaryOrLog (coreImpl op) :=
    metered_coreImpl hspecial (fun q hq => by cases q <;> trivial) fun _ _ _ _ _ => trivial
  cases hop : coreImpl op with
  | stack fn => trivial
  | state fn =>
    rw [hop] at hm
    exact fun stack st => blind_of_asking (fun _ => id) (hm stack st)
  | result fn =>
    rw [hop] at hm
    exact fun c => blind_of_asking (fun _ => id) (hm.outcome c)
  | term fn =>
    rw [hop] at hm
    exact fun c => blind_of_asking (fun _ => id) (hm.outcome c)
  | pos => trivial

end Core

/-! ### The Baseline interpreter -/

namespace Baseline

variable [Ethash] {analysis : CodeAnalysis}

/-- No instruction tells alike results apart. -/
theorem blind_invokeCore (op : Opcode) (f : Frame) :
    BlindToFailures (invokeCore analysis op f) := by
  have hfn : BlindFn (coreImpl op) := blindFn_coreImpl op
  -- Every shape of implementation: none of them turns on which failure it was.
  cases hop : coreImpl op with
  | stack fn =>
    unfold invokeCore
    rw [hop]
    trivial
  | state fn =>
    rw [hop] at hfn
    unfold invokeCore
    rw [hop]
    exact (hfn f.stackTop f.state).bind fun _ => trivial
  | result fn =>
    rw [hop] at hfn
    rw [invokeCore_result hop]
    refine (hfn _).bind ?_
    rintro ⟨_ | _, c⟩ <;> trivial
  | term fn =>
    rw [hop] at hfn
    rw [invokeCore_term hop]
    refine (hfn _).bind ?_
    rintro ⟨_ | _, c⟩ <;> trivial
  | pos =>
    rw [invokeCore_pos hop]
    trivial

/-- No step tells alike results apart. -/
theorem blind_step (f : Frame) : BlindToFailures (step analysis f) := by
  unfold step
  split
  · trivial
  · split
    · unfold invoke
      split
      · exact blind_invokeCore _ _
      · trivial
    · trivial

/-- The loop does not tell alike results apart. -/
theorem blind_dispatch (n : Nat) (f : Frame) : BlindToFailures (dispatch analysis n f) := by
  induction n generalizing f with
  | zero => trivial
  | succ n ih =>
    refine (blind_step f).bind ?_
    rintro (f' | ⟨gas, st⟩)
    · exact ih f'
    · trivial

/-- The Baseline interpreter does not tell the failures of messages apart. -/
theorem execute_blind (fuel : Nat) (msg : Message) (code : Bytes) :
    BlindToFailures (execute fuel msg code) :=
  (blind_dispatch fuel _).bind fun _ => trivial

end Baseline

/-! ### Machines that replace the Baseline interpreter -/

/-- With `steps gas` or more steps for a message with the gas `gas`, the machine `vm` asks what the
Baseline interpreter asks and returns a result that is alike, or it gives up early with a failure
where the Baseline interpreter fails whatever it is answered. -/
structure VM.Replaces [Ethash] (vm : VM) (steps : Int → Nat) : Prop where
  sim : ∀ {msg : Message} {code : Bytes} {n m : Nat}, 0 ≤ msg.gas → code.length ≤ 0xC000 →
    msg.gas.toNat < n → steps msg.gas ≤ m →
    Sim BoundedAnswer CallResult.Failed CallResult.Failed CallResult.Alike
      (Baseline.execute n msg code) (vm m msg code)
  lt : ∀ {gas gas' : Int}, 0 ≤ gas → gas < gas' → steps gas < steps gas'

/-- A failure without output leaves no gas and no refund. -/
theorem ExecutionState.result_failed {st : ExecutionState} {gas : Int} (h : st.status.IsFailure)
    (houtput : (st.result gas).outputData = []) : (st.result gas).Failed := by
  obtain ⟨hgas, hrefund⟩ := result_failure h gas
  have hresult : st.result gas = ⟨st.status, (st.result gas).gasLeft, (st.result gas).gasRefund,
      (st.result gas).outputData, 0⟩ := rfl
  refine ⟨h, ?_⟩
  rw [hgas, hrefund, houtput] at hresult
  exact hresult

/-- A failed execution leaves nothing. -/
theorem Baseline.execute_failed [Ethash] (fuel : Nat) (msg : Message) (code : Bytes) :
    (Baseline.execute fuel msg code).Returns fun r => r.statusCode.IsFailure → r.Failed := by
  have hrest : (Baseline.execute fuel msg code).Returns fun r =>
      r.statusCode.IsFailure → r.outputData = [] → r.Failed :=
    .bind fun _ => ExecutionState.result_failed
  exact ((execute_failed_output fuel msg code).and hrest).imp fun _ h hfail =>
    h.2 hfail (h.1 hfail)

/-- A failed execution of the Advanced interpreter leaves nothing. -/
theorem Advanced.execute_failed [Ethash] (fuel : Nat) (msg : Message) (code : Bytes) :
    (Advanced.execute fuel msg code).Returns fun r => r.statusCode.IsFailure → r.Failed := by
  have hrest : (Advanced.execute fuel msg code).Returns fun r =>
      r.statusCode.IsFailure → r.outputData = [] → r.Failed :=
    .bind fun _ => ExecutionState.result_failed
  exact ((execute_failed_output fuel msg code).and hrest).imp fun _ h hfail =>
    h.2 hfail (h.1 hfail)

/-- All fuels that suffice give the same execution. -/
theorem Baseline.sim_dispatch [Ethash] {code : Bytes} {f : Frame} {n m : Nat}
    (hcode : InCode code f.codeIt) (hn : f.gas.toNat < n) (hm : f.gas.toNat < m) :
    Sim BoundedAnswer (fun _ => False) (fun _ => False) (fun x y => y = x)
      (dispatch (analyze code) n f) (dispatch (analyze code) m f) := by
  induction n generalizing f m with
  | zero => omega
  | succ n ih =>
    obtain ⟨m, rfl⟩ : ∃ m', m = m' + 1 := ⟨m - 1, by omega⟩
    have hspent : wp (.answers Fault BoundedAnswer) (step (analyze code) f) ()
        fun next _ => next.Continues fun f' => InCode code f'.codeIt ∧ 0 ≤ f'.gas ∧ f'.gas < f.gas :=
      wp_weaken (wp_step_spending hcode le_rfl) (fun _ _ => trivial) (fun _ _ hr => hr)
        fun _ he => he
    refine .after hspent ?_
    rintro (f' | ⟨gas, state⟩) hnext
    · obtain ⟨hcode', hnonneg, hlt⟩ := hnext
      exact ih hcode' (by omega) (by omega)
    · exact .ret rfl

/-- The Baseline interpreter can be exchanged for itself, with another fuel. -/
theorem Baseline.replaces [Ethash] : VM.Replaces Baseline.execute fun gas => gas.toNat + 1 where
  sim {msg code n m} hgas _ hn hm := by
    have hstart : (Frame.start msg code).gas.toNat < n := hn
    refine ((sim_dispatch (inCode_zero code) hstart hm).bind ?_
      (fun _ h => h.elim) fun _ h => h.elim)
    rintro ⟨gas, state⟩ _ rfl
    exact .ret (.refl _)
  lt {gas gas'} hgas hlt := by
    have hlt : gas.toNat < gas'.toNat := (Int.toNat_lt_toNat (hgas.trans_lt hlt)).2 hlt
    exact Nat.succ_lt_succ hlt

/-- The steps that suffice for the Advanced interpreter. -/
def Advanced.stepsFor (gas : Int) : Nat := (gas.toNat + 2) * 0xC003

/-- The steps granted to the Advanced interpreter exceed the rank of its first instruction. -/
theorem Advanced.rank_lt_stepsFor {code : Bytes} (hlen : code.length ≤ 0xC000) (gas : Int) :
    rank code 0 gas < stepsFor gas := by
  have hinstrs : (analyze code).instrs.length ≤ code.length + 2 := by
    have hitems := length_decode_le code code.length 0
    rw [analyze_eq]
    simp only [List.length_cons, List.length_append, length_emit, List.length_nil]
    omega
  have hmul : (gas.toNat + 1) * ((analyze code).instrs.length + 1) ≤ (gas.toNat + 1) * 0xC003 :=
    Nat.mul_le_mul_left _ (by omega)
  have hstart : ¬ BeginsBlock code 0 := fun h => h.1 rfl
  unfold rank stepsFor
  rw [if_neg hstart]
  omega

/-- The Advanced interpreter replaces the Baseline interpreter. -/
theorem Advanced.replaces [Ethash] : VM.Replaces Advanced.execute Advanced.stepsFor where
  sim {msg code n m} hgas hlen hn hm := by
    have hrank := rank_lt_stepsFor hlen msg.gas
    have hloops := sim_execute hlen hgas hn (hrank.trans_le hm)
    -- What both make of the final gas and state.
    have hresults : Sim BoundedAnswer (fun r => r.statusCode.IsFailure)
        (fun r => r.statusCode.IsFailure)
        (fun r r' => r.statusCode.IsFailure ∧ r'.statusCode.IsFailure ∨ r' = r)
        (Baseline.execute n msg code) (Advanced.execute m msg code) := by
      refine hloops.bind ?_ (fun _ h => h) fun st h => ⟨st.base.result st.gasLeft, rfl, h⟩
      rintro ⟨gas, state⟩ st (⟨hstate, hst⟩ | ⟨rfl, rfl⟩)
      · exact .ret (.inl ⟨hstate, hst⟩)
      · exact .ret (.inr rfl)
    refine (hresults.and_returns (Baseline.execute_failed n msg code)
      (Advanced.execute_failed m msg code)).mono (fun r h => h.2 h.1) (fun r h => h.2 h.1) ?_
    rintro r r' ⟨⟨hr, hr'⟩ | rfl, hfail, hfail'⟩
    · exact (hfail hr).alike (hfail' hr')
    · exact .refl _
  lt {gas gas'} hgas hlt := by
    unfold stepsFor
    omega

end Zvmone
