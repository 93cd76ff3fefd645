import Zvmone.Vm.StaticMode

/-! # What a frame has authority over

A frame reads and writes the storage of the recipient of its message only, emits logs in its name
only, and sends messages in its name only; a delegated call passes on the message of the frame. This
holds in both interpreters (`frames_keep_to_their_authority`). -/

namespace Zvmone

open Interaction InstrM Instr Zvmone.Core

/-- The frame of `msg` may send the message `m`. -/
structure Message.SentBy (m msg : Message) : Prop where
  depth : m.depth = msg.depth + 1
  limit : msg.depth < 1024
  /-- A call transfers value of the frame's own account, to the account whose code runs. -/
  call : m.kind = .call → m.sender = msg.recipient ∧ m.recipient = m.codeAddress
  /-- A delegated call runs other code on the frame's own account. -/
  delegated : m.kind = .delegatecall →
    m.sender = msg.sender ∧ m.recipient = msg.recipient ∧ m.value = msg.value
  /-- The address of a new contract is left to the host. -/
  create : m.kind.IsCreate → m.sender = msg.recipient ∧ m.recipient = 0 ∧ m.codeAddress = 0 ∧
    m.inputData.length ≤ 0xC000

/-- What the frame of `msg` may ask of the host. -/
def HostCall.Authorized (msg : Message) : HostCall → Prop
  | .getStorage addr _ => addr = msg.recipient
  | .setStorage addr _ _ => addr = msg.recipient
  | .accessStorage addr _ => addr = msg.recipient
  | .emitLog addr _ _ => addr = msg.recipient
  | .call m => m.SentBy msg
  | _ => True

/-- The host methods that any frame may use. -/
def HostCall.IsFree (q : HostCall) : Prop := q.IsOrdinary ∧ q.slotOwner = none

/-- A query that anybody may ask is authorized. -/
theorem HostCall.IsFree.authorized {q : HostCall} (h : q.IsFree) (msg : Message) :
    q.Authorized msg := by
  obtain ⟨hordinary, howner⟩ := h
  cases q with
  | getStorage | accessStorage => cases howner
  | setStorage | emitLog | call => exact hordinary.elim
  | _ => trivial

/-- The contract of a frame that keeps to its authority. -/
def authority (msg : Message) : Contract HostCall.Answer Fault Unit where
  pre _ q := q.Authorized msg
  post _ _ _ _ := True

/-- The authority of a frame relies on no answer to a free query. -/
theorem authority_neutral (msg : Message) : (authority msg).Neutral () HostCall.IsFree :=
  ⟨fun _ hq => hq.authorized msg, fun _ _ _ _ _ => rfl⟩

section

variable {msg : Message} {α β : Type}

/-! ### Instructions -/

/-- An instruction of the frame keeps to its authority, and keeps the message. -/
def Core.Keeps (msg : Message) (m : InstrM α) : Prop :=
  ∀ c : Ctx, c.state.msg = msg → wp (authority msg) (m c) () fun x _ => x.2.state.msg = msg

namespace Core

/-- Keeping to the authority composes. -/
theorem keeps_bind {m : InstrM α} {f : α → InstrM β} (hm : Keeps msg m)
    (hf : ∀ a, Keeps msg (f a)) : Keeps msg (m >>= f) := by
  intro c hc
  refine (wp_bind _ _ _).2 (wp_mono (hm c hc) ?_)
  rintro ⟨e | a, c'⟩ _ hc'
  · exact hc'
  · exact hf a c' hc'

/-- A branch keeps to the authority if both sides do. -/
theorem keeps_ite {p : Prop} [Decidable p] {m m' : InstrM α} (h : Keeps msg m)
    (h' : Keeps msg m') : Keeps msg (if p then m else m') := by
  split
  · exact h
  · exact h'

/-- Metered instructions that use free host methods. -/
theorem keeps_of_metered {m : InstrM α} (hm : Metered False HostCall.IsFree m) : Keeps msg m := by
  intro c hc
  refine wp_mono (wp_of_asking (authority_neutral msg) (hm.outcome c)) ?_
  rintro x _ ⟨-, houtcome⟩
  exact houtcome.same.msg.trans hc

/-- One query that the frame has authority to ask. -/
theorem keeps_host {q : HostCall} (h : q.Authorized msg) : Keeps msg (host q) :=
  fun _ hc => ⟨h, fun _ _ _ => hc⟩

/-- The state that is read has the message of the frame. -/
theorem keeps_state_bind {f : ExecutionState → InstrM α}
    (hf : ∀ st, st.msg = msg → Keeps msg (f st)) : Keeps msg (state >>= f) :=
  fun c hc => hf c.state hc c hc

/-- `SLOAD` reads the slots of the account that runs. -/
theorem keeps_sload : Keeps msg sload := by
  refine keeps_bind (keeps_of_metered (metered_read fun _ _ => rfl)) fun key => ?_
  refine keeps_state_bind fun st hst => ?_
  have hget : Keeps msg (host (HostCall.getStorage st.msg.recipient key) >>= setTop) :=
    keeps_bind (keeps_host (congrArg Message.recipient hst)) fun _ =>
      keeps_of_metered (metered_setTop _)
  refine keeps_bind (keeps_host (congrArg Message.recipient hst)) fun access => ?_
  have hcold : 0 ≤ coldSloadCost - warmStorageReadCost := by decide
  exact keeps_ite (keeps_bind (keeps_of_metered (metered_charge hcold)) fun _ => hget) hget

/-- `SSTORE` writes the slots of the account that runs, unless the frame is static. -/
theorem keeps_sstore : Keeps msg sstore := by
  intro c hc
  have howner : c.state.msg.recipient = msg.recipient := congrArg Message.recipient hc
  rw [sstore_eq]
  split
  · exact hc
  · split
    · exact hc
    · refine ⟨howner, fun access _ _ => ⟨howner, fun status _ _ => ?_⟩⟩
      dsimp only
      split <;> exact hc

/-- `LOG` logs for the account that runs, unless the frame is static. -/
theorem keeps_log (n : Nat) : Keeps msg (log n) := by
  refine keeps_bind (keeps_of_metered metered_state) fun _ => ?_
  refine keeps_ite (keeps_of_metered (metered_abort (by decide) _)) ?_
  refine keeps_bind (keeps_of_metered metered_pop) fun offset => ?_
  refine keeps_bind (keeps_of_metered metered_pop) fun size => ?_
  refine keeps_bind (keeps_of_metered (metered_requireMemory offset size)) fun _ => ?_
  refine keeps_bind (keeps_of_metered (metered_charge
    (Int.mul_nonneg (Int.natCast_nonneg _) (by decide)))) fun _ => ?_
  refine keeps_bind (keeps_of_metered (metered_mapM (fun _ => metered_pop) _)) fun topics => ?_
  -- The log carries the address that is read from the message last.
  exact keeps_state_bind fun st hst => keeps_host (congrArg Message.recipient hst)

/-- What the part that sends a message keeps to. -/
theorem wp_sending_authority {depth : Int} {value : Word} {m : Message} {c : Ctx}
    {done : CallResult → Ctx} (hc : c.state.msg = msg) (hdone : ∀ r, (done r).state.msg = msg)
    (hm : depth < 1024 → m.SentBy msg) :
    wp (authority msg) (sending depth msg.recipient value m (Except.ok (ε := StatusCode) (), c)
      fun r => (.ok (), done r)) () fun x _ => x.2.state.msg = msg := by
  unfold sending
  split
  · exact hc
  next hdepth =>
    have hcall : wp (authority msg) (.ask (.call m) fun r => .ret
        (Except.ok (ε := StatusCode) (), done r)) () fun x _ => x.2.state.msg = msg :=
      ⟨hm (not_le.1 hdepth), fun r _ _ => hdone r⟩
    split
    · refine ⟨trivial, fun (balance : Word) _ _ => ?_⟩
      dsimp only
      split
      · exact hc
      · exact hcall
    · exact hcall

/-- The message of a call instruction. -/
theorem sentBy_calleeMessage {m : Message} (op : CallOp) (gas : Int) (dst : Address) (value : Word)
    (input : Bytes) (hdepth : m.depth < 1024) :
    { calleeMessage op m dst value input with gas }.SentBy m := by
  refine ⟨rfl, hdepth, fun hkind => ?_, fun hkind => ?_, fun hkind => ?_⟩
  · cases op with
    | delegatecall => cases hkind
    | call | staticcall => exact ⟨rfl, rfl⟩
  · cases op with
    | delegatecall => exact ⟨rfl, rfl, rfl⟩
    | call | staticcall => cases hkind
  · rcases hkind with hkind | hkind <;> cases op <;> cases hkind

/-- A call instruction sends a message in the name of its frame. -/
theorem keeps_callImpl (op : CallOp) : Keeps msg (callImpl op) := by
  intro c hc
  have hcharge := yields_callCharge_of (A := HostCall.IsFree)
    (P := fun m l => ∀ g, m.depth < 1024 → (callMessage l g).SentBy m) op
    (fun _ => ⟨trivial, rfl⟩) (fun _ => ⟨trivial, rfl⟩)
    (fun m gas value dst _ _ input _ _ g hdepth => sentBy_calleeMessage op _ dst value input hdepth)
    c
  refine (wp_bind _ _ _).2 (wp_mono (wp_of_asking (authority_neutral msg) hcharge) ?_)
  rintro ⟨e | l, c'⟩ _ ⟨-, houtcome, hl⟩
  · exact houtcome.same.msg.trans hc
  · have hc' : c'.state.msg = msg := houtcome.same.msg.trans hc
    have hsent := (hl l rfl).1 c'.gasLeft
    rw [hc] at hsent
    show wp _ (callSend l c') () _
    rw [callSend_eq, hc']
    exact wp_sending_authority hc' (fun _ => hc') hsent

/-- A create instruction sends a message in the name of its frame. -/
theorem keeps_createImpl (op : CreateOp) : Keeps msg (createImpl op) := by
  intro c hc
  have hcharge := yields_createCharge (A := HostCall.IsFree) op c
  refine (wp_bind _ _ _).2 (wp_mono (wp_of_asking (authority_neutral msg) hcharge) ?_)
  rintro ⟨e | l, c'⟩ _ ⟨-, houtcome, hl⟩
  · exact houtcome.same.msg.trans hc
  · have hc' : c'.state.msg = msg := houtcome.same.msg.trans hc
    have hsound := (hl l rfl).1
    show wp _ (createSend op l c') () _
    rw [createSend_eq, hc']
    refine wp_sending_authority hc' (fun _ => hc') fun hdepth => ?_
    refine ⟨congrArg (Message.depth · + 1) hc', hdepth, fun hkind => ?_, fun hkind => ?_, fun _ => ?_⟩
    · cases op <;> cases hkind
    · cases op <;> cases hkind
    · rw [← hc']
      exact ⟨rfl, rfl, rfl, hsound.initCode⟩

/-- An implementation, whatever its shape, that keeps to the authority of the frame. -/
def KeepsFn (msg : Message) : CoreFn → Prop
  | .stack _ => True
  | .state f => Quiet False HostCall.IsFree f
  | .result m => Keeps msg m
  | .term m => Keeps msg m
  | .pos => True

/-- An instruction that asks only free queries keeps to the authority. -/
theorem keepsFn_of_metered {fn : CoreFn} (h : MeteredFn False HostCall.IsFree fn) :
    KeepsFn msg fn := by
  cases fn with
  | stack f => trivial
  | state f => exact h
  | result m => exact keeps_of_metered h
  | term m => exact keeps_of_metered h
  | pos => trivial

/-- Every implementation keeps to the authority of the frame. -/
theorem keepsFn_coreImpl [Ethash] (op : Opcode) : KeepsFn msg (coreImpl op) := by
  by_cases hspecial : IsSpecial op
  · rcases special_cases hspecial with rfl | ⟨-, rfl | ⟨cop, rfl⟩ | ⟨cop, rfl⟩ | hop⟩
    · exact keeps_sstore
    · exact fun _ hc => hc
    · rw [coreImpl_call]
      exact keeps_callImpl cop
    · rw [coreImpl_create]
      exact keeps_createImpl cop
    · rw [hop]
      trivial
  by_cases hsload : op = .sload
  · subst hsload
    exact keeps_sload
  by_cases hlog : ∃ k, op = .log k
  · obtain ⟨k, rfl⟩ := hlog
    exact keeps_log k
  -- All other instructions use free host methods.
  refine keepsFn_of_metered (metered_coreImpl_of hspecial (fun q hq howner => ⟨hq, ?_⟩)
    fun k hk => absurd ⟨k, hk⟩ hlog)
  exact Option.not_isSome_iff_eq_none.1 fun h => hsload (howner h)

end Core

/-! ### The Baseline interpreter -/

namespace Baseline

variable [Ethash] {analysis : CodeAnalysis} {f : Frame}

/-- The frame still has the message. -/
def Next.Keeps (msg : Message) : Next → Prop
  | .cont f => f.state.msg = msg
  | .done _ _ => True

/-- An instruction of the Baseline interpreter keeps to the authority of its frame. -/
theorem keeps_invokeCore (op : Opcode) (hf : f.state.msg = msg) :
    wp (authority msg) (invokeCore analysis op f) () fun x _ => x.Keeps msg := by
  have hfn : KeepsFn msg (coreImpl op) := keepsFn_coreImpl op
  cases hop : coreImpl op with
  | stack fn =>
    unfold invokeCore
    rw [hop]
    exact hf
  | state fn =>
    rw [hop] at hfn
    unfold invokeCore
    rw [hop]
    refine (wp_bind _ _ _).2
      (wp_mono (wp_of_asking (authority_neutral msg) (hfn f.stackTop f.state)) ?_)
    rintro ⟨stack, state⟩ _ ⟨-, hsame, -⟩
    exact hsame.msg.trans hf
  | result m =>
    rw [hop] at hfn
    rw [invokeCore_result hop]
    refine (wp_bind _ _ _).2 (wp_mono (hfn ⟨f.stackTop, f.gas, f.state⟩ hf) ?_)
    rintro ⟨e | u, c⟩ _ hc
    · trivial
    · exact hc
  | term m =>
    rw [hop] at hfn
    rw [invokeCore_term hop]
    refine (wp_bind _ _ _).2 (wp_mono (hfn ⟨f.stackTop, f.gas, f.state⟩ hf) ?_)
    rintro ⟨e | status, c⟩ _ - <;> trivial
  | pos =>
    rw [invokeCore_pos hop]
    -- Jumps and pushes ask nothing.
    obtain ⟨next, stack, hnext | hnext⟩ :=
      positionImpl_cases analysis hop f.stackTop f.state f.codeIt <;> rw [hnext]
    · exact hf
    · trivial

/-- A step keeps to the authority of its frame. -/
theorem keeps_step (hf : f.state.msg = msg) :
    wp (authority msg) (step analysis f) () fun x _ => x.Keeps msg := by
  unfold step
  split
  · trivial
  · split
    · unfold invoke
      split
      · exact keeps_invokeCore _ hf
      · trivial
    · trivial

/-- The loop keeps to the authority of its frame. -/
theorem keeps_dispatch {n : Nat} (hf : f.state.msg = msg) :
    wp (authority msg) (dispatch analysis n f) () fun _ _ => True := by
  induction n generalizing f with
  | zero => trivial
  | succ n ih =>
    refine (wp_bind _ _ _).2 (wp_mono (keeps_step hf) ?_)
    rintro (f' | ⟨gas, state⟩) _ hnext
    · exact ih hnext
    · trivial

end Baseline

/-! ### The Advanced interpreter -/

namespace Advanced

variable [Ethash] {analysis : AdvancedCodeAnalysis} {state : AdvancedExecutionState}

/-- The instruction keeps to the authority of the frame, and keeps the message. -/
def KeepsOwn (msg : Message) (x : HostM (Option Nat × AdvancedExecutionState)) : Prop :=
  wp (authority msg) x () fun y _ => y.2.base.msg = msg

omit [Ethash] in
/-- The functions with the exact gas keep to the authority. -/
theorem keepsOwn_opCorrected {op : Opcode} {fn : InstrM Unit} (hfn : Keeps msg fn)
    (arg : InstructionArgument) (i : Nat) (hstate : state.base.msg = msg) :
    KeepsOwn msg (opCorrected op fn arg i state) := by
  rw [KeepsOwn, opCorrected_eq]
  refine (wp_bind _ _ _).2 (wp_mono (hfn _ hstate) fun x _ hx => ?_)
  simp only [wp_ret, resumeCorrected]
  split
  · exact hx
  · split <;> exact hx

/-- The functions of the core implementations keep to the authority. -/
theorem keepsOwn_opCore (op : Opcode) (i : Nat) (hstate : state.base.msg = msg) :
    KeepsOwn msg (opCore op i state) := by
  have hfn : KeepsFn msg (coreImpl op) := keepsFn_coreImpl op
  unfold KeepsOwn
  -- The message of the frame is part of the state, which no shape of implementation replaces.
  cases hop : coreImpl op with
  | stack fn => rw [opCore_stack hop]; exact hstate
  | state fn =>
    rw [hop] at hfn
    rw [opCore_state hop]
    refine (wp_bind _ _ _).2 (wp_mono (wp_of_asking (authority_neutral msg) (hfn _ _)) ?_)
    rintro ⟨stack, base⟩ _ ⟨-, hsame, -⟩
    exact hsame.msg.trans hstate
  | result fn =>
    rw [hop] at hfn
    rw [opCore_result hop]
    refine (wp_bind _ _ _).2 (wp_mono (hfn _ hstate) fun x _ hx => ?_)
    simp only [wp_ret, resume]
    split <;> exact hx
  | term fn =>
    rw [hop] at hfn
    rw [opCore_term hop]
    refine (wp_bind _ _ _).2 (wp_mono (hfn _ hstate) ?_)
    rintro ⟨_ | _, c⟩ _ hx <;> exact hx
  | pos =>
    unfold opCore
    rw [hop]
    trivial

/-- An instruction of the Advanced interpreter keeps to the authority of its frame. -/
theorem keepsOwn_exec {instr : Instruction} (i : Nat) (hstate : state.base.msg = msg) :
    KeepsOwn msg (instr.exec analysis i state) := by
  unfold Instruction.exec
  split
  · exact keepsOwn_opCore _ _ hstate
  · exact keepsOwn_opCorrected keeps_sstore _ _ hstate
  · exact keepsStatic_opxBeginblock _ _ hstate
  · exact keepsStatic_opJump _ hstate
  · unfold opJumpi
    split
    · exact keepsStatic_opJump _ hstate
    · exact keepsStatic_opxBeginblock _ _ hstate
  · exact hstate
  · exact hstate
  · exact hstate
  · split
    · trivial
    · exact hstate
  · exact keepsOwn_opCorrected (keeps_callImpl _) _ _ hstate
  · exact keepsOwn_opCorrected (keeps_createImpl _) _ _ hstate
  · exact hstate

/-- The loop of the Advanced interpreter keeps to the authority of its frame. -/
theorem keepsOwn_loop (n i : Nat) (hstate : state.base.msg = msg) :
    wp (authority msg) (loop analysis n i state) () fun _ _ => True := by
  induction n generalizing i state with
  | zero => trivial
  | succ n ih =>
    unfold loop
    split
    · trivial
    · refine (wp_bind _ _ _).2 (wp_mono (keepsOwn_exec i hstate) ?_)
      rintro ⟨_ | i', state'⟩ _ hstate'
      · trivial
      · exact ih i' hstate'

end Advanced

/-! ### Both interpreters -/

variable [Ethash]

/-- A frame of the Baseline interpreter keeps to its authority. -/
theorem Baseline.execute_asks_authorized (fuel : Nat) (msg : Message) (code : Bytes) :
    (Baseline.execute fuel msg code).Asks (HostCall.Authorized msg) :=
  asks_of_wp (C := authority msg) (Q := fun _ _ => True)
    ((wp_bind _ _ _).2 (wp_mono (Baseline.keeps_dispatch rfl) fun _ _ _ => trivial))
    (fun _ hq => hq) fun _ _ => trivial

/-- A frame of the Advanced interpreter keeps to its authority. -/
theorem Advanced.execute_asks_authorized (fuel : Nat) (msg : Message) (code : Bytes) :
    (Advanced.execute fuel msg code).Asks (HostCall.Authorized msg) :=
  asks_of_wp (C := authority msg) (Q := fun _ _ => True)
    ((wp_bind _ _ _).2 (wp_mono (Advanced.keepsOwn_loop _ _ rfl) fun _ _ _ => trivial))
    (fun _ hq => hq) fun _ _ => trivial

/-- Whatever the host answers, a frame of either interpreter reads and writes the storage of its
recipient only, emits logs in its name only, and sends messages on its own behalf only. -/
theorem frames_keep_to_their_authority (fuel : Nat) (msg : Message) (code : Bytes) :
    (Baseline.execute fuel msg code).Asks (HostCall.Authorized msg) ∧
      (Advanced.execute fuel msg code).Asks (HostCall.Authorized msg) :=
  ⟨Baseline.execute_asks_authorized fuel msg code, Advanced.execute_asks_authorized fuel msg code⟩

end

end Zvmone
