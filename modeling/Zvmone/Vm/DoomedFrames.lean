import Zvmone.Vm.Termination
import Zvmone.Vm.RestOfBlock

/-! # Frames that cannot pay for their block

Where the Advanced interpreter refuses a whole block, the Baseline interpreter still executes the
first instructions of it. It fails at the latest at the one it cannot pay for, whatever the host
answers, since inside of a block no instruction ends the execution successfully or jumps. -/

namespace Zvmone

open Interaction InstrM Instr Zvmone.Core

namespace Baseline

open Advanced (EndsBlock checkEach restOfBlock)

/-- The instructions from the frame to the end of its block cannot all be paid for, or do not fit the
stack. -/
structure Doomed (code : Bytes) (f : Frame) : Prop where
  inCode : InCode code f.codeIt
  gas : 0 ≤ f.gas
  limit : f.stackTop.top ≤ stackLimit
  short : checkEach (restOfBlock code f.codeIt) f.gas f.stackTop ≠ .success

/-- What follows an instruction inside a block: the next one, at the declared height and with no more
gas, or a failure. -/
def Next.GoesOn (f : Frame) (byte : UInt8) (op : Opcode) : Next → Prop
  | .cont f' => f'.codeIt = f.codeIt + 1 + immediateSize byte ∧
      (f'.stackTop.top : Int) = f.stackTop.top + (traits op).stackHeightChange ∧
      0 ≤ f'.gas ∧ f'.gas ≤ f.gas
  | .done _ st => st.status.IsFailure

/-- The frame goes on doomed and with less gas, or fails. -/
def Next.Loses (code : Bytes) (gas : Int) : Next → Prop
  | .cont f => Doomed code f ∧ f.gas < gas
  | .done _ st => st.status.IsFailure

variable [Ethash] {code : Bytes} {f : Frame} {byte : UInt8} {op : Opcode}

/-- Of the terminating instructions only `INVALID` does not end a block. -/
theorem eq_invalid_of_term {m : InstrM StatusCode} (hop : Opcode.ofByte byte = some op)
    (hends : ¬ EndsBlock byte) (hterm : coreImpl op = .term m) :
    m = Core.invalid := by
  unfold EndsBlock at hends
  rw [hop] at hends
  cases op with
  | stop | return_ | revert => exact absurd (by decide) hends
  | invalid =>
    cases hterm
    rfl
  | _ => cases hterm

/-- Only position instructions have immediate data. -/
theorem immediateSize_of_not_pos (hop : Opcode.ofByte byte = some op) (hpos : coreImpl op ≠ .pos) :
    immediateSize byte = 0 := by
  rw [immediateSize_eq hop]
  refine traits_immediateSize fun k hk => hpos ?_
  rw [hk]
  rfl

/-- Inside of a block an instruction goes on to the next one. -/
theorem wp_invokeCore_inBlock {analysis : CodeAnalysis} (hop : Opcode.ofByte byte = some op)
    (hends : ¬ EndsBlock byte) (hfits : f.stackTop.Fits op) (hgas : 0 ≤ f.gas) :
    wp (.answers Fault BoundedAnswer) (invokeCore analysis op f) () fun next _ =>
      next.GoesOn f byte op := by
  have hsize := immediateSize_eq hop
  -- The height is known of every instruction that fits; what is left are the position and the gas.
  suffices hrest : wp (.answers Fault BoundedAnswer) (invokeCore analysis op f) () fun next _ =>
      match next with
      | .cont f' => f'.codeIt = f.codeIt + 1 + immediateSize byte ∧ 0 ≤ f'.gas ∧ f'.gas ≤ f.gas
      | .done _ st => st.status.IsFailure by
    refine wp_mono (wp_returns hrest (invokeCore_height hfits)) ?_
    rintro (f' | ⟨gas', st⟩) _ ⟨hnext, hheight⟩
    · exact ⟨hnext.1, hheight, hnext.2⟩
    · exact hnext
  by_cases hpos : coreImpl op = .pos
  · rw [invokeCore_pos hpos]
    unfold EndsBlock at hends
    rw [hop] at hends
    cases op with
    | jump | jumpi => exact absurd (by decide) hends
    | pc =>
      rw [hsize]
      exact ⟨rfl, hgas, le_rfl⟩
    | push k =>
      rw [hsize]
      refine ⟨?_, hgas, le_rfl⟩
      show f.codeIt + (k.val + 1 + 1) = f.codeIt + 1 + (k.val + 1)
      omega
    | _ => cases hpos
  · rw [immediateSize_of_not_pos hop hpos, Nat.add_zero]
    rcases hcore : coreImpl op with fn | fn | m | m | _
    · unfold invokeCore
      rw [hcore]
      exact ⟨rfl, hgas, le_rfl⟩
    · have hquiet : MeteredFn False HostCall.IsOrdinaryOrLog (coreImpl op) := by
        refine metered_coreImpl (fun hspecial => ?_) (fun q hq => by cases q <;> trivial)
          fun _ _ _ _ _ => trivial
        rcases special_cases hspecial with rfl | ⟨-, rfl | ⟨cop, rfl⟩ | ⟨cop, rfl⟩ | h⟩
        · cases hcore
        · cases hcore
        · rw [coreImpl_call] at hcore
          cases hcore
        · rw [coreImpl_create] at hcore
          cases hcore
        · exact hpos h
      rw [hcore] at hquiet
      unfold invokeCore
      rw [hcore]
      exact (wp_bind _ _ _).2 (wp_mono (wp_answers_of_asking (hquiet f.stackTop f.state))
        fun _ _ _ => ⟨rfl, hgas, le_rfl⟩)
    · rw [invokeCore_result hcore]
      refine (wp_bind _ _ _).2 (wp_mono (wp_result_spends hcore hgas) ?_)
      rintro ⟨e | u, c⟩ _ hspends
      · exact hspends.error e rfl
      · exact ⟨rfl, hspends.ok rfl⟩
    · rw [invokeCore_term hcore, eq_invalid_of_term hop hends hcore]
      exact (by decide : StatusCode.invalidInstruction.IsFailure)
    · exact absurd hcore hpos

/-- An instruction of a doomed frame fails, or the next one is doomed. -/
theorem wp_step_doomed (h : Doomed code f) :
    wp (.answers Fault BoundedAnswer) (step (analyze code) f) () fun next _ =>
      next.Loses code f.gas := by
  -- The rest of the block is not empty, so the frame is at an instruction inside of the block.
  obtain ⟨opcode, hcode, hjumpdest⟩ : ∃ opcode, code[f.codeIt]? = some opcode ∧ opcode ≠ 0x5b := by
    rcases hcode : code[f.codeIt]? with _ | opcode
    · have hrest := Advanced.restOfBlock_of_length_le (List.getElem?_eq_none_iff.mp hcode)
      exact absurd (by rw [hrest]; rfl) h.short
    · refine ⟨opcode, rfl, ?_⟩
      rintro rfl
      exact absurd (by rw [Advanced.restOfBlock_jumpdest hcode]; rfl) h.short
  have hlt : f.codeIt < code.length := (List.getElem?_eq_some_iff.mp hcode).1
  have hbyte : (analyze code).executableCode[f.codeIt]? = some opcode :=
    (padCode_of_lt hlt).trans hcode
  have hspent : wp (.answers Fault BoundedAnswer) (step (analyze code) f) () fun next _ =>
      Next.Continues (fun f' => InCode code f'.codeIt ∧ 0 ≤ f'.gas ∧ f'.gas < f.gas) next :=
    wp_weaken (wp_step_spending h.inCode le_rfl) (fun _ _ => trivial) (fun _ _ hr => hr)
      fun _ he => he
  suffices hnext : wp (.answers Fault BoundedAnswer) (step (analyze code) f) () fun next _ =>
      match next with
      | .cont f' => checkEach (restOfBlock code f'.codeIt) f'.gas f'.stackTop ≠ .success
      | .done _ st => st.status.IsFailure by
    refine wp_mono (wp_and hnext (wp_returns hspent (step_height h.limit))) ?_
    rintro (f' | ⟨gas', st⟩) _ ⟨hshort, hcont, hlimit⟩
    · exact ⟨⟨hcont.1, hcont.2.1, hlimit, hshort⟩, hcont.2.2⟩
    · exact hshort
  rcases hop : Opcode.ofByte opcode with _ | op
  · unfold step
    rw [hbyte]
    simp only [hop]
    exact (by decide : StatusCode.undefinedInstruction.IsFailure)
  · rcases checkRequirements_cases op f.gas f.stackTop with
      ⟨hok, hpaid⟩ | ⟨status, gas', hfail, -, hstatus⟩
    · have hfits := fits_of_checked h.limit hok
      have hgas := gasCosts_nonneg op
      rw [step_of_checked hbyte hop hok]
      by_cases hends : EndsBlock opcode
      · refine absurd ?_ h.short
        rw [Advanced.restOfBlock_of_endsBlock hcode hends, Advanced.checkEach_cons_iff hop]
        exact ⟨hok, rfl⟩
      · refine wp_mono (wp_invokeCore_inBlock (f := { f with gas := f.gas - gasCosts op }) hop hends
          hfits hpaid) ?_
        rintro (f' | ⟨gas', st⟩) _ hnext
        · obtain ⟨hpos, hheight, hnonneg, hle⟩ := hnext
          have hshort := h.short
          rw [Advanced.restOfBlock_cons hcode hjumpdest hends, ne_eq,
            Advanced.checkEach_cons_iff hop] at hshort
          dsimp only at hpos hheight hle ⊢
          rw [hpos]
          have htop : f'.stackTop.top =
              (f.stackTop.after f.stackTop (traits op).stackHeightChange).top := by
            show _ = ((f.stackTop.top : Int) + (traits op).stackHeightChange).toNat
            omega
          refine Advanced.checkEach_ne_of_le ?_ (fun h' => hshort ⟨hok, h'⟩) hnonneg hle htop
          have hlimit := hfits.limit
          show ((f.stackTop.top : Int) + (traits op).stackHeightChange).toNat ≤ 1024
          omega
        · exact hnext
    · rw [step_of_unchecked hbyte hop hfail hstatus]
      exact hstatus

/-- A doomed frame ends with a failure. -/
theorem wp_dispatch_doomed (h : Doomed code f) {n : Nat} (hn : f.gas.toNat < n) :
    wp (.answers Fault BoundedAnswer) (dispatch (analyze code) n f) () fun x _ =>
      x.2.status.IsFailure := by
  induction n generalizing f with
  | zero => omega
  | succ n ih =>
    refine (wp_bind _ _ _).2 (wp_mono (wp_step_doomed h) ?_)
    rintro (f' | ⟨gas', st⟩) _ hnext
    · obtain ⟨hdoomed, hlt⟩ := hnext
      have hgas := hdoomed.gas
      exact ih hdoomed (by omega)
    · exact hnext

end Baseline

end Zvmone
