import Zvmone.Vm.AdvancedSteps
import Zvmone.Vm.BaselineSteps

/-! # Static mode

A frame whose message carries `ZVMC_STATIC` only uses host methods that change nothing, and passes
the flag on: `Baseline.execute_asks_static` and `Advanced.execute_asks_static`. -/

namespace Zvmone

open Interaction InstrM Instr Zvmone.Core

/-- The message cannot change anything but what the host does on its behalf: it is static, creates
no contract, and transfers nothing. -/
structure Message.Harmless (m : Message) : Prop where
  static : m.IsStatic
  kind : ¬ m.kind.IsCreate
  value : m.kind = .call → m.value = 0

/-- The host methods a frame with a static message may use. -/
def HostCall.StaticAllowed (msg : Message) : HostCall → Prop
  | .setStorage _ _ _ => False
  | .emitLog _ _ _ => False
  | .call m => m.Harmless ∧ m.depth = msg.depth + 1
  | _ => True

/-- The contract of a static frame: only allowed host methods, whatever they answer. -/
def staticContract (msg : Message) : Contract HostCall.Answer Fault Unit where
  pre _ q := q.StaticAllowed msg
  post _ _ _ _ := True

/-- Static mode relies on no answer to an ordinary query. -/
theorem staticContract_neutral (msg : Message) :
    (staticContract msg).Neutral () HostCall.IsOrdinary :=
  ⟨fun q hq => by cases q <;> first | exact hq.elim | trivial, fun _ _ _ _ _ => rfl⟩

/-- A call instruction of a static frame sends harmless messages. -/
theorem Core.CallLocals.Sound.harmless {op : CallOp} {msg : Message} {l : CallLocals}
    (hl : l.Sound op msg) (h : msg.IsStatic) (g : Int) :
    (callMessage l g).Harmless ∧ (callMessage l g).depth = msg.depth + 1 := by
  refine ⟨⟨?_, ?_, ?_⟩, hl.depth⟩
  · show l.msg.flags &&& staticFlag ≠ 0
    rw [hl.flags]
    split
    · decide
    · exact h
  · show ¬ l.msg.kind.IsCreate
    rw [hl.kind]
    split <;> decide
  · intro hkind
    have hkind : l.msg.kind = .call := hkind
    show l.msg.value = 0
    have hop : op ≠ .delegatecall := by
      rintro rfl
      rw [hl.kind] at hkind
      cases hkind
    rw [hl.value, if_neg hop]
    by_cases hcall : op = .call
    · exact hl.static hcall h
    · exact hl.noValue hcall

section

variable [Ethash] {msg : Message}

omit [Ethash] in
/-- The frame of a static message is in static mode. -/
theorem inStaticMode {st : ExecutionState} (hst : st.msg = msg) (h : msg.IsStatic) :
    st.InStaticMode := by
  rw [ExecutionState.InStaticMode, hst]
  exact h

/-! ### The Baseline interpreter -/

omit [Ethash] in
/-- A step of a static frame. -/
theorem Baseline.staticRule (h : msg.IsStatic) {gas : Int} {st : ExecutionState}
    (hmsg : st.msg = msg) :
    StepRule (staticContract msg) (fun _ st _ => st.msg = msg) (fun _ _ _ => True) gas st () where
  abort _ := trivial
  neutral := staticContract_neutral msg
  log hstatic := absurd (inStaticMode hmsg h) hstatic
  cont hsame _ _ _ := hsame.msg.trans hmsg
  fail _ _ _ := trivial
  halt _ _ _ _ _ := trivial
  sstore hstatic := absurd (inStaticMode hmsg h) hstatic
  call hl hsame _ _ _ _ := ⟨(hmsg ▸ hl).harmless h _, fun _ _ _ => hsame.msg.trans hmsg⟩
  create hl _ _ _ _ _ := absurd (hmsg ▸ h) hl.static

/-- A static frame of the Baseline interpreter uses allowed host methods only. -/
theorem Baseline.execute_asks_static (fuel : Nat) (code : Bytes) (h : msg.IsStatic) :
    (Baseline.execute fuel msg code).Asks (HostCall.StaticAllowed msg) :=
  asks_of_wp (C := staticContract msg) (Q := fun _ _ => True)
    (Baseline.wp_execute (fun _ _ () hst => Baseline.staticRule h hst) rfl fun _ _ _ _ => trivial)
    (fun _ hq => hq) fun _ _ => trivial

/-! ### The Advanced interpreter -/

namespace Advanced

variable {state : AdvancedExecutionState}

/-- The message of a static frame is kept, and only allowed host methods are used. -/
def KeepsStatic (msg : Message) (x : HostM (Option Nat × AdvancedExecutionState)) : Prop :=
  wp (staticContract msg) x () fun y _ => y.2.base.msg = msg

/-- The same for an instruction. -/
def InstrKeepsStatic {α : Type} (msg : Message) (m : InstrM α) : Prop :=
  ∀ c : Ctx, c.state.msg = msg → wp (staticContract msg) (m c) () fun x _ => x.2.state.msg = msg

omit [Ethash] in
/-- A metered instruction with ordinary queries keeps static mode. -/
theorem instrKeepsStatic_of_metered {α : Type} {m : InstrM α}
    (hm : Metered False HostCall.IsOrdinary m) : InstrKeepsStatic msg m :=
  fun c h => wp_mono (wp_of_asking (staticContract_neutral msg) (hm.outcome c)) fun _ _ hx =>
    hx.2.same.msg.trans h

omit [Ethash] in
/-- A call instruction sends static messages without value. -/
theorem instrKeepsStatic_callImpl (h : msg.IsStatic) (op : CallOp) :
    InstrKeepsStatic msg (callImpl op) := by
  intro c hc
  refine wp_callImpl (staticContract_neutral msg) ?_ ?_ ?_
  · exact fun _ _ houtcome => houtcome.same.msg.trans hc
  · exact fun _ _ hl => hl.outcome.same.msg.trans hc
  · exact fun _ _ hl _ =>
      ⟨(hc ▸ hl.sound).harmless h _, fun _ _ _ => hl.outcome.same.msg.trans hc⟩

omit [Ethash] in
/-- A create instruction is refused. -/
theorem instrKeepsStatic_createImpl (h : msg.IsStatic) (op : CreateOp) :
    InstrKeepsStatic msg (createImpl op) := by
  intro c hc
  refine wp_createImpl (staticContract_neutral msg) ?_ ?_ ?_
  · exact fun _ _ houtcome => houtcome.same.msg.trans hc
  · exact fun _ _ _ hl => absurd (hc ▸ h) hl.static
  · exact fun _ _ _ hl => absurd (hc ▸ h) hl.static

omit [Ethash] in
/-- `SSTORE` is refused. -/
theorem instrKeepsStatic_sstore (h : msg.IsStatic) : InstrKeepsStatic msg sstore :=
  fun _ hc => wp_sstore (staticContract_neutral msg) (fun _ _ => hc)
    fun _ hstatic => absurd (inStaticMode hc h) hstatic

omit [Ethash] in
/-- `LOG` is refused. -/
theorem instrKeepsStatic_log (h : msg.IsStatic) (n : Nat) : InstrKeepsStatic msg (log n) := by
  intro c hc
  rw [log_of_static n (inStaticMode hc h)]
  exact hc

omit [Ethash] in
/-- An implementation with corrected gas. -/
theorem keepsStatic_opCorrected {op : Opcode} {fn : InstrM Unit} (hfn : InstrKeepsStatic msg fn)
    (arg : InstructionArgument) (i : Nat) (hstate : state.base.msg = msg) :
    KeepsStatic msg (opCorrected op fn arg i state) := by
  rw [KeepsStatic, opCorrected_eq]
  refine (wp_bind _ _ _).2 (wp_mono (hfn _ hstate) fun x _ hx => ?_)
  simp only [wp_ret, resumeCorrected]
  split
  · exact hx
  · split <;> exact hx

/-- The implementations with gas and status. -/
theorem instrKeepsStatic_result (h : msg.IsStatic) {op : Opcode} {fn : InstrM Unit}
    (hfn : coreImpl op = .result fn) : InstrKeepsStatic msg fn := by
  by_cases hspecial : IsSpecial op
  · rcases special_cases hspecial with rfl | ⟨-, rfl | ⟨cop, rfl⟩ | ⟨cop, rfl⟩ | hop⟩
    · cases hfn
      exact instrKeepsStatic_sstore h
    · cases hfn
      exact fun _ hc => hc
    · cases (coreImpl_call cop).symm.trans hfn
      exact instrKeepsStatic_callImpl h cop
    · cases (coreImpl_create cop).symm.trans hfn
      exact instrKeepsStatic_createImpl h cop
    · cases hop.symm.trans hfn
  · by_cases hlog : ∃ k, op = .log k
    · obtain ⟨k, rfl⟩ := hlog
      cases hfn
      exact instrKeepsStatic_log h k
    · have hm : MeteredFn False HostCall.IsOrdinary (coreImpl op) :=
        metered_coreImpl hspecial (fun _ hq => hq) fun k hk => absurd ⟨k, hk⟩ hlog
      rw [hfn] at hm
      exact instrKeepsStatic_of_metered hm

/-- The implementations of the other shapes. -/
theorem meteredFn_of_not_result (op : Opcode) (hfn : ∀ fn, coreImpl op ≠ .result fn)
    (hpos : coreImpl op ≠ .pos) : MeteredFn False HostCall.IsOrdinary (coreImpl op) := by
  refine metered_coreImpl (fun hspecial => ?_) (fun _ hq => hq) fun k hk => ?_
  · rcases special_cases hspecial with rfl | ⟨-, rfl | ⟨cop, rfl⟩ | ⟨cop, rfl⟩ | hop⟩
    · exact hfn _ rfl
    · exact hfn _ rfl
    · exact hfn _ (coreImpl_call cop)
    · exact hfn _ (coreImpl_create cop)
    · exact hpos hop
  · exact absurd (by rw [hk]; rfl) (hfn (log (k.val)))

/-- The functions of the core implementations keep static mode. -/
theorem keepsStatic_opCore (h : msg.IsStatic) (op : Opcode) (i : Nat)
    (hstate : state.base.msg = msg) : KeepsStatic msg (opCore op i state) := by
  unfold KeepsStatic
  have hm := meteredFn_of_not_result op
  -- By the shape of the implementation; only a result can be one of the special instructions.
  cases hfn : coreImpl op with
  | stack fn => rw [opCore_stack hfn]; exact hstate
  | state fn =>
    have hm : Quiet False HostCall.IsOrdinary fn := by simpa [hfn, MeteredFn] using hm
    rw [opCore_state hfn]
    refine (wp_bind _ _ _).2 (wp_mono (wp_of_asking (staticContract_neutral msg) (hm _ _)) ?_)
    rintro ⟨stack, base⟩ _ ⟨-, hsame, -⟩
    exact hsame.msg.trans hstate
  | result fn =>
    rw [opCore_result hfn]
    refine (wp_bind _ _ _).2 (wp_mono (instrKeepsStatic_result h hfn _ hstate) fun x _ hx => ?_)
    simp only [wp_ret, resume]
    split <;> exact hx
  | term fn =>
    have hm : Metered False HostCall.IsOrdinary fn := by simpa [hfn, MeteredFn] using hm
    rw [opCore_term hfn]
    refine (wp_bind _ _ _).2 (wp_mono (instrKeepsStatic_of_metered hm _ hstate) ?_)
    rintro ⟨_ | _, c⟩ _ hx <;> exact hx
  | pos =>
    unfold opCore
    rw [hfn]
    trivial

omit [Ethash] in
/-- Entering a block keeps the message. -/
theorem keepsStatic_opxBeginblock (arg : InstructionArgument) (i : Nat)
    (hstate : state.base.msg = msg) : (opxBeginblock arg i state).2.base.msg = msg := by
  unfold opxBeginblock
  dsimp only
  split
  · exact hstate
  · split
    · exact hstate
    · split <;> exact hstate

omit [Ethash] in
/-- A jump keeps the message. -/
theorem keepsStatic_opJump (analysis : AdvancedCodeAnalysis) (hstate : state.base.msg = msg) :
    (opJump analysis state).2.base.msg = msg := by
  unfold opJump
  dsimp only
  split
  · exact hstate
  · split <;> exact hstate

/-- An instruction of a static frame. -/
theorem keepsStatic_exec (h : msg.IsStatic) {analysis : AdvancedCodeAnalysis}
    {instr : Instruction} (i : Nat) (hstate : state.base.msg = msg) :
    KeepsStatic msg (instr.exec analysis i state) := by
  unfold Instruction.exec
  split
  · exact keepsStatic_opCore h _ _ hstate
  · exact keepsStatic_opCorrected (instrKeepsStatic_sstore h) _ _ hstate
  · exact keepsStatic_opxBeginblock _ _ hstate
  · exact keepsStatic_opJump _ hstate
  · unfold opJumpi
    split
    · exact keepsStatic_opJump _ hstate
    · exact keepsStatic_opxBeginblock _ _ hstate
  · exact hstate
  · exact hstate
  · exact hstate
  · split
    · trivial
    · exact hstate
  · exact keepsStatic_opCorrected (instrKeepsStatic_callImpl h _) _ _ hstate
  · exact keepsStatic_opCorrected (instrKeepsStatic_createImpl h _) _ _ hstate
  · exact hstate

/-- The loop keeps the message of a static frame. -/
theorem keepsStatic_loop (h : msg.IsStatic) {analysis : AdvancedCodeAnalysis} (n i : Nat)
    (hstate : state.base.msg = msg) :
    wp (staticContract msg) (loop analysis n i state) () fun _ _ => True := by
  induction n generalizing i state with
  | zero => trivial
  | succ n ih =>
    unfold loop
    split
    · trivial
    · refine (wp_bind _ _ _).2 (wp_mono (keepsStatic_exec h i hstate) ?_)
      rintro ⟨_ | i', state'⟩ _ hstate'
      · trivial
      · exact ih i' hstate'

/-- A static frame of the Advanced interpreter uses allowed host methods only. -/
theorem execute_asks_static (fuel : Nat) (code : Bytes) (h : msg.IsStatic) :
    (Advanced.execute fuel msg code).Asks (HostCall.StaticAllowed msg) :=
  asks_of_wp (C := staticContract msg) (Q := fun _ _ => True)
    ((wp_bind _ _ _).2 (wp_mono (keepsStatic_loop h _ _ rfl) fun _ _ _ => trivial))
    (fun _ hq => hq) fun _ _ => trivial

end Advanced

end

end Zvmone
