import Zvmone.Vm.BaselineRuns

/-! # What a frame asks of the host

The storage that a frame uses is that of the recipient of its message, and the message stays the
same (`step_msg`). A frame that does not end on its own account stops at a query that the host
answers with a fault (`execute_error`). -/

namespace Zvmone

open Interaction InstrM Instr Zvmone.Core

/-- The storage that the host method uses, if any, is that of the recipient of the message. -/
def HostCall.OfFrame (msg : Message) (q : HostCall) : Prop :=
  ∀ addr, q.slotOwner = some addr → addr = msg.recipient

/-- A query about no slot may be asked by every frame. -/
theorem HostCall.ofFrame_of_slotOwner {msg : Message} {q : HostCall} (h : q.slotOwner = none) :
    q.OfFrame msg := by
  intro addr haddr
  rw [h] at haddr
  cases haddr

/-- A query about a slot of the recipient may be asked by the frame. -/
theorem HostCall.ofFrame_of_recipient {msg : Message} {q : HostCall}
    (h : q.slotOwner = some msg.recipient) : q.OfFrame msg := by
  intro addr haddr
  rw [h] at haddr
  exact (Option.some.inj haddr).symm

/-! ### The storage of the recipient -/

namespace Core

/-- The instruction uses the storage of the recipient only. -/
def UsesOwn {α : Type} (m : InstrM α) : Prop :=
  ∀ c : Ctx, wp (.asking Fault (HostCall.OfFrame c.state.msg)) (m c) () fun _ _ => True

/-- `SLOAD` reads the storage of the recipient. -/
theorem usesOwn_sload : UsesOwn sload := by
  intro c
  have hget : ∀ c', wp (.asking Fault (HostCall.OfFrame c.state.msg))
      ((host (HostCall.getStorage c.state.msg.recipient (c.stack.get 0)) >>= setTop : InstrM Unit) c')
      () fun _ _ => True :=
    fun _ => ⟨HostCall.ofFrame_of_recipient rfl, fun _ _ _ => trivial⟩
  refine ⟨HostCall.ofFrame_of_recipient rfl, fun access _ _ => ?_⟩
  show wp _ ((if access = AccessStatus.cold then charge (coldSloadCost - warmStorageReadCost) >>=
      fun _ => host (HostCall.getStorage c.state.msg.recipient (c.stack.get 0)) >>= setTop
    else host (HostCall.getStorage c.state.msg.recipient (c.stack.get 0)) >>= setTop : InstrM Unit)
      c) () _
  split
  next =>
    show wp _ (charge _ c >>= _) () _
    by_cases hshort : c.gasLeft - (coldSloadCost - warmStorageReadCost) < 0
    · rw [charge_of_short hshort]
      trivial
    · rw [charge_of_paid (not_lt.1 hshort)]
      exact hget _
  next => exact hget c

/-- `SSTORE` writes the storage of the recipient. -/
theorem usesOwn_sstore : UsesOwn sstore := by
  intro c
  rw [sstore_eq]
  split
  · trivial
  · split
    · trivial
    · refine ⟨HostCall.ofFrame_of_recipient rfl, fun access _ _ =>
        ⟨HostCall.ofFrame_of_recipient rfl, fun status _ _ => ?_⟩⟩
      dsimp only
      split <;> trivial

/-- Sending a message uses no storage. -/
theorem usesOwn_sending {α : Type} {msg : Message} {depth : Int} {sender : Address} {value : Word}
    {m : Message} {light : α} {done : CallResult → α} :
    wp (.asking Fault (HostCall.OfFrame msg)) (sending depth sender value m light done) ()
      fun _ _ => True := by
  unfold sending
  split
  · trivial
  · split
    · refine ⟨HostCall.ofFrame_of_slotOwner rfl, fun (balance : Word) _ _ => ?_⟩
      dsimp only
      split
      · trivial
      · exact ⟨HostCall.ofFrame_of_slotOwner rfl, fun _ _ _ => trivial⟩
    · exact ⟨HostCall.ofFrame_of_slotOwner rfl, fun _ _ _ => trivial⟩

/-- A call instruction asks about no slot. -/
theorem usesOwn_callImpl (op : CallOp) : UsesOwn (callImpl op) := by
  intro c
  have hcharge := yields_callCharge (A := HostCall.OfFrame c.state.msg) op
    (fun _ => HostCall.ofFrame_of_slotOwner rfl) (fun _ => HostCall.ofFrame_of_slotOwner rfl) c
  refine (wp_bind _ _ _).2 (wp_mono hcharge ?_)
  rintro ⟨e | l, c'⟩ _ -
  · trivial
  · show wp _ (callSend l c') () _
    rw [callSend_eq]
    exact usesOwn_sending

/-- A create instruction asks about no slot. -/
theorem usesOwn_createImpl (op : CreateOp) : UsesOwn (createImpl op) := by
  intro c
  have hcharge := yields_createCharge (A := HostCall.OfFrame c.state.msg) op c
  refine (wp_bind _ _ _).2 (wp_mono hcharge ?_)
  rintro ⟨e | l, c'⟩ _ -
  · trivial
  · show wp _ (createSend op l c') () _
    rw [createSend_eq]
    exact usesOwn_sending

end Core

/-! ### Steps -/

namespace Baseline

variable [Ethash] {σ : Type} {env : Env HostCall.Answer Fault σ} {s s' : σ}
  {analysis : CodeAnalysis} {f : Frame}

/-- An instruction uses the storage of the recipient only. -/
theorem wp_invokeCore_ofFrame (op : Opcode) :
    wp (.asking Fault (HostCall.OfFrame f.state.msg)) (invokeCore analysis op f) ()
      fun _ _ => True := by
  -- The instructions that access storage or send messages have a result.
  have hresult : ∀ {m : InstrM Unit}, coreImpl op = .result m → UsesOwn m →
      wp (.asking Fault (HostCall.OfFrame f.state.msg)) (invokeCore analysis op f) ()
        fun _ _ => True := by
    intro m hop hm
    rw [invokeCore_result hop]
    exact (wp_bind _ _ _).2 (wp_mono (hm ⟨f.stackTop, f.gas, f.state⟩) fun _ _ _ => trivial)
  by_cases hspecial : IsSpecial op
  · rcases special_cases hspecial with rfl | ⟨-, rfl | ⟨cop, rfl⟩ | ⟨cop, rfl⟩ | hop⟩
    · exact hresult rfl usesOwn_sstore
    · exact hresult rfl fun _ => trivial
    · exact hresult (coreImpl_call cop) (usesOwn_callImpl cop)
    · exact hresult (coreImpl_create cop) (usesOwn_createImpl cop)
    · rw [invokeCore_pos hop]
      trivial
  · by_cases hsload : op = .sload
    · subst hsload
      exact hresult rfl usesOwn_sload
    -- All others ask nothing about slots.
    have hm : MeteredFn False (HostCall.OfFrame f.state.msg) (coreImpl op) :=
      metered_coreImpl_of hspecial
        (fun q _ hq => HostCall.ofFrame_of_slotOwner (Option.not_isSome_iff_eq_none.1
          fun h => hsload (hq h)))
        fun _ _ _ _ _ => HostCall.ofFrame_of_slotOwner rfl
    cases hop : coreImpl op with
    | stack fn =>
      unfold invokeCore
      rw [hop]
      trivial
    | state fn =>
      rw [hop] at hm
      unfold invokeCore
      rw [hop]
      exact (wp_bind _ _ _).2 (wp_mono (hm _ _) fun _ _ _ => trivial)
    | result fn =>
      rw [hop] at hm
      rw [invokeCore_result hop]
      exact (wp_bind _ _ _).2 (wp_mono (hm.outcome _) fun _ _ _ => trivial)
    | term fn =>
      rw [hop] at hm
      rw [invokeCore_term hop]
      exact (wp_bind _ _ _).2 (wp_mono (hm.outcome _) fun _ _ _ => trivial)
    | pos => rw [hop] at hm; exact hm.elim

/-- An instruction that stops with a fault runs out of the code, or it is the host that stops. -/
theorem step_error {e : Fault} (h : run env (step analysis f) s = .error e) :
    e = .outOfBounds ∨ ∃ q s', q.OfFrame f.state.msg ∧ Reaches env (step analysis f) s q s' ∧
      env q s' = .error e := by
  unfold step at h ⊢
  cases hbyte : analysis.executableCode[f.codeIt]? with
  | none =>
    rw [hbyte] at h
    cases h
    exact .inl rfl
  | some byte =>
    simp only [hbyte] at h ⊢
    cases hop : Opcode.ofByte byte with
    | none =>
      simp only [hop] at h
      cases h
    | some op =>
      simp only [hop, invoke] at h ⊢
      rcases checkRequirements_cases op f.gas f.stackTop with
        ⟨hok, -⟩ | ⟨status, gas', hfail, -, hstatus⟩
      -- Past the checks a fault is the host's answer to a question of the instruction.
      · rw [hok] at h ⊢
        exact .inr (reaches_of_run_error (wp_invokeCore_ofFrame
          (f := { f with gas := f.gas - gasCosts op }) op) h)
      -- A failed check ends the frame without a fault.
      · rw [hfail] at h
        cases status <;> first
          | exact absurd rfl hstatus.1
          | cases h

/-- The contract that says nothing. -/
def anything : Contract HostCall.Answer Fault Unit where
  pre _ _ := True
  post _ _ _ _ := True

omit [Ethash] in
/-- An instruction keeps the message. -/
theorem msgRule (gas : Int) (st : ExecutionState) :
    StepRule anything (fun _ st' _ => st'.msg = st.msg) (fun _ _ _ => True) gas st () where
  abort _ := trivial
  neutral := ⟨fun _ _ => trivial, fun _ _ _ _ _ => rfl⟩
  log _ := ⟨fun _ _ => trivial, fun _ _ _ _ _ => rfl⟩
  cont hsame _ _ _ := hsame.msg
  fail _ _ _ := trivial
  halt _ _ _ _ _ := trivial
  sstore _ _ _ _ := ⟨trivial, fun _ _ _ => by split <;> trivial⟩
  call _ hsame _ _ _ _ := ⟨trivial, fun _ _ _ => hsame.msg⟩
  create _ hsame _ _ _ _ := ⟨trivial, fun _ _ _ => hsame.msg⟩

/-- A step keeps the message. -/
theorem step_msg {f' : Frame} (h : run env (step analysis f) s = .ok (.cont f', s')) :
    f'.state.msg = f.state.msg := by
  obtain ⟨_, -, hmsg⟩ := run_wp (R := fun _ _ => True) (fun _ _ _ _ _ _ _ _ => ⟨(), trivial, trivial⟩)
    (wp_step (msgRule f.gas f.state)) trivial h
  exact hmsg

/-! ### Runs -/

variable {n k : Nat} {f' : Frame} {q : HostCall}

/-- The loop stops with a fault at an instruction, unless it runs out of fuel. -/
theorem dispatch_error {e : Fault} (h : run env (dispatch analysis n f) s = .error e) :
    e = .outOfFuel ∨ ∃ k f₁ s₁, k < n ∧ Passes env analysis f s k f₁ s₁ ∧
      run env (step analysis f₁) s₁ = .error e := by
  -- The frames passed so far are counted, so that the fault is found at one of them.
  have hloop : ∀ {k f₁ s₁}, Passes env analysis f s k f₁ s₁ → ∀ m,
      run env (dispatch analysis m f₁) s₁ = .error e →
      e = .outOfFuel ∨ ∃ k' f₂ s₂, k' < k + m ∧ Passes env analysis f s k' f₂ s₂ ∧
        run env (step analysis f₂) s₂ = .error e := by
    intro k f₁ s₁ hpasses m hrun
    induction m generalizing k f₁ s₁ with
    | zero =>
      cases hrun
      exact .inl rfl
    | succ m ih =>
      rw [dispatch, run_bind] at hrun
      rcases hstep : run env (step analysis f₁) s₁ with e' | ⟨f₂ | ⟨gas', st'⟩, s₂⟩
      · rw [hstep] at hrun
        cases hrun
        exact .inr ⟨k, f₁, s₁, by omega, hpasses, hstep⟩
      · rw [hstep] at hrun
        rcases ih (hpasses.next hstep) hrun with hfuel | ⟨k', f₃, s₃, hk', hf₃⟩
        · exact .inl hfuel
        · exact .inr ⟨k', f₃, s₃, by omega, hf₃⟩
      · rw [hstep] at hrun
        cases hrun
  simpa only [Nat.zero_add] using hloop .start n h

/-- The loop keeps the message. -/
theorem Passes.msg {s₁ : σ} (h : Passes env analysis f s k f' s₁) :
    f'.state.msg = f.state.msg := by
  induction h with
  | start => rfl
  | next _ hstep ih => exact (step_msg hstep).trans ih

/-- What the loop asks from a frame on, it asks. -/
theorem Passes.reaches {s₁ : σ} {m : Nat} (h : Passes env analysis f s k f' s₁)
    (hreach : Reaches env (Baseline.dispatch analysis m f') s₁ q s') :
    Reaches env (Baseline.dispatch analysis (k + m) f) s q s' := by
  induction h generalizing m with
  | start => rwa [Nat.zero_add]
  | next _ hstep ih =>
    rw [Nat.add_assoc, Nat.add_comm 1 m]
    exact ih (reaches_bind.2 (.inr ⟨_, _, hstep, hreach⟩))

/-- An execution that stops with a fault is out of fuel or out of the code, or else the host stops
with the fault at a query of an instruction. -/
theorem execute_error {e : Fault} {msg : Message} {code : Bytes} {fuel : Nat}
    (h : run env (execute fuel msg code) s = .error e) :
    e = .outOfFuel ∨ e = .outOfBounds ∨ ∃ k f₁ s₁ q s', Passes env (analyze code) (.start msg code)
      s k f₁ s₁ ∧ q.OfFrame f₁.state.msg ∧ Reaches env (step (analyze code) f₁) s₁ q s' ∧
      Reaches env (execute fuel msg code) s q s' ∧ env q s' = .error e := by
  have hdispatch : run env (Baseline.dispatch (analyze code) fuel (.start msg code)) s
      = .error e := by
    rw [run_execute] at h
    split at h
    next e' he =>
      exact he.trans (congrArg Except.error (Except.error.inj h))
    next => cases h
  rcases dispatch_error hdispatch with hfuel | ⟨k, f₁, s₁, hk, hpasses, hstep⟩
  · exact .inl hfuel
  · rcases step_error hstep with hbounds | ⟨q, s', hq, hreach, herror⟩
    · exact .inr (.inl hbounds)
    · refine .inr (.inr ⟨k, f₁, s₁, q, s', hpasses, hq, hreach, ?_, herror⟩)
      obtain ⟨m, rfl⟩ : ∃ m, fuel = k + (m + 1) := ⟨fuel - k - 1, by omega⟩
      exact reaches_bind.2 (.inl (hpasses.reaches (reaches_bind.2 (.inl hreach))))

end Baseline

end Zvmone
