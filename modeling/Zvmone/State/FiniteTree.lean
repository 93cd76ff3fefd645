import Mathlib.Data.Set.Finite.Lattice
import Zvmone.State.GasBounds
import Zvmone.Vm.FrameAuthority
import Zvmone.Vm.Termination

/-! # The tree of frames of a call is finite

Every frame of the Baseline interpreter executes at most as many instructions as it has gas, and the
messages it sends have less gas. So the fuel of `Host.call` never runs out if there is more of it than
gas, and more fuel does not change what a call does. With the Advanced interpreter the depth of the
messages bounds the tree. -/

namespace Zvmone

open Interaction StateRun Zvmone.Core

namespace Precompiles

variable [Ethash] {cache : Cache} {id : Fin numPrecompiles}

/-- Running an executor uses no fuel. -/
theorem executeWith_fueled (execute : ExecuteFn) (input : Bytes) (maxOutputSize : Nat)
    (gasLeft : Int) : ((executeWith execute id cache input maxOutputSize gasLeft).1.map some :
      Except Fault (Option CallResult)) ≠ .error .outOfFuel := by
  have hexecute : execute.call input maxOutputSize ≠ .error .outOfFuel := by
    cases execute with
    | identity =>
      show identityExecute input maxOutputSize ≠ _
      unfold identityExecute
      split <;> exact nofun
    | dummy => exact nofun
  unfold executeWith
  split
  next e he =>
    rw [he] at hexecute
    exact fun heq => hexecute (congrArg Except.error (Except.error.inj heq))
  next => exact nofun

/-- Calling a precompile uses no fuel. -/
theorem callWith_fueled {traits : PrecompileTraits} {msg : Message} :
    (callWith traits id cache msg).result ≠ .error .outOfFuel := by
  unfold callWith
  split
  · exact nofun
  · dsimp only
    split
    · exact nofun
    · split
      · exact nofun
      · split
        · exact nofun
        · split
          · exact nofun
          · exact executeWith_fueled _ _ _ _

end Precompiles

/-- With more fuel the virtual machine does the same, unless it runs out of fuel. -/
def VM.ExtendsFuel (vm : VM) : Prop :=
  ∀ ⦃σ : Type⦄ ⦃env : Env HostCall.Answer Fault σ⦄ ⦃n m : Nat⦄ ⦃msg : Message⦄ ⦃code : Bytes⦄ ⦃s : σ⦄,
    n ≤ m → run env (vm n msg code) s ≠ .error .outOfFuel →
      run env (vm m msg code) s = run env (vm n msg code) s

/-- With more fuel the Baseline interpreter does the same. -/
theorem Baseline.extendsFuel [Ethash] : VM.ExtendsFuel Baseline.execute := by
  intro σ env n m msg code s hle h
  rw [Baseline.run_execute] at h ⊢
  rw [Baseline.run_execute, Baseline.extends_dispatch hle]
  intro herror
  rw [herror] at h
  exact h rfl

/-- With more fuel the Advanced interpreter does the same. -/
theorem Advanced.extendsFuel [Ethash] : VM.ExtendsFuel Advanced.execute := by
  intro σ env n m msg code s hle h
  rw [Advanced.run_execute] at h ⊢
  rw [Advanced.run_execute, Advanced.extends_loop hle]
  intro herror
  rw [herror] at h
  exact h rfl

/-- The Advanced interpreter gives back at most the gas of a message. -/
theorem Advanced.boundsGas [Ethash] : VM.BoundsGas Advanced.execute := by
  intro σ env henv fuel msg code s s' r hgas hrun
  rw [Advanced.run_execute] at hrun
  rcases hloop : run env (Advanced.loop (Advanced.analyze code) fuel 0 (.start msg code)) s with
    e | ⟨st, s₁⟩ <;> rw [hloop] at hrun
  · cases hrun
  cases hrun
  -- The loop has ended, so it would have ended in the same way with more instructions.
  have hends := Advanced.wp_loop_spending (n := max fuel (Advanced.rank code 0 msg.gas + 1))
    (.entry : Advanced.InBlock code (.start msg code) 0) (Nat.zero_le _) hgas
    (Nat.lt_of_succ_le (le_max_right _ _))
  have hmore := Advanced.extends_loop (le_max_left fuel (Advanced.rank code 0 msg.gas + 1))
    (by rw [hloop]; exact nofun)
  obtain ⟨_, -, hst⟩ := run_wp (R := fun _ _ => True) henv.answers hends trivial
    (hmore.trans hloop)
  simp only [CallResult.IsBounded, ExecutionState.result]
  split
  next hstatus =>
    refine hst fun hfailure => ?_
    rcases hstatus with h | h <;> rw [h] at hfailure <;> exact absurd hfailure (by decide)
  next => exact ⟨le_rfl, hgas⟩

namespace Host

/-! ### The methods do not run out of fuel -/

section

variable {hs : HostState} {addr : Address} {α : Type}

/-- The computation does not run out of fuel. -/
abbrev Fueled (m : HostS α) (hs : HostState) : Prop := Avoids .outOfFuel m hs

/-- `find` uses no fuel. -/
theorem fueled_find : Fueled (find addr) hs := .of_ok rfl

/-- `get` uses no fuel. -/
theorem fueled_getAccount : Fueled (getAccount addr) hs := by
  unfold Fueled Avoids getAccount
  split <;> exact nofun

/-- Writing an account uses no fuel. -/
theorem fueled_setAccount (acc : Account) : Fueled (setAccount addr acc) hs := .of_ok rfl

/-- `get_or_insert` uses no fuel. -/
theorem fueled_getOrInsert (account : Account) : Fueled (getOrInsert addr account) hs := .of_ok rfl

/-- `touch` uses no fuel. -/
theorem fueled_touch : Fueled (touch addr) hs := .of_ok rfl

/-- An assertion uses no fuel. -/
theorem fueled_assert (c : Prop) [Decidable c] : Fueled (assert c) hs := by
  unfold Fueled Avoids assert
  split <;> exact nofun

/-- `access_account` uses no fuel. -/
theorem fueled_accessAccount : Fueled (accessAccount addr) hs :=
  .bind (fueled_getOrInsert _) fun _ _ _ => .bind (fueled_setAccount _) fun _ _ _ =>
    .ite (fun _ => .pure _) fun _ => .pure _

variable [Ethash]

/-- Only `call` can run out of fuel. -/
theorem fueled_answer {ctx : HostContext} {call : Message → HostS CallResult} {q : HostCall}
    (h : ∀ m, q ≠ .call m) : Fueled (answer ctx call q) hs := by
  -- Only a call has fuel of its own to run out of.
  cases q with
  | call m => exact absurd rfl (h m)
  | accountExists addr =>
    refine .bind fueled_find fun acc _ _ => ?_
    cases acc <;> exact .pure _
  | getStorage addr key =>
    refine .bind fueled_getAccount fun acc _ _ => ?_
    cases acc.storage.lookup key <;> exact .pure _
  | setStorage addr key value =>
    exact .bind fueled_getAccount fun _ _ _ => .bind (fueled_setAccount _) fun _ _ _ => .pure _
  | getBalance addr =>
    refine .bind fueled_find fun acc _ _ => ?_
    cases acc <;> exact .pure _
  | getCodeSize addr =>
    refine .bind fueled_find fun acc _ _ => ?_
    cases acc <;> exact .pure _
  | getCodeHash addr =>
    refine .bind fueled_find fun acc _ _ => ?_
    cases acc <;> exact .pure _
  | copyCode addr codeOffset bufferSize => exact .bind fueled_find fun _ _ _ => .pure _
  | getTxContext => exact .bind (fueled_assert _) fun _ _ _ => .pure _
  | getBlockHash number => exact .pure _
  | emitLog addr data topics => exact .of_ok rfl
  | accessAccount addr => exact fueled_accessAccount
  | accessStorage addr key =>
    exact .bind fueled_getAccount fun _ _ _ => .bind (fueled_setAccount _) fun _ _ _ => .pure _

variable {msg : Message}

/-- `prepare_message` uses no fuel. -/
theorem fueled_prepareMessage : Fueled (prepareMessage msg) hs := by
  refine .bind fueled_getAccount fun acc _ _ => .ite (fun _ => .pure _) fun _ => ?_
  have hbump : ∀ hs, Fueled (bumpNonce acc msg) hs := fun _ =>
    .ite (fun _ => fueled_setAccount _) fun _ => .pure _
  refine .bind (hbump _) fun _ _ _ => .bind ?_ fun _ _ _ => .pure _
  refine .ite (fun _ => .bind (fueled_assert _) fun _ _ _ => .bind (fueled_assert _) fun _ _ _ =>
    .bind (.lift ?_) fun _ _ _ => .bind fueled_accessAccount fun _ _ _ => .pure _) fun _ => .pure _
  unfold computeNewAccountAddress
  split
  · split <;> exact nofun
  · exact nofun

omit [Ethash] in
/-- A transfer uses no fuel. -/
theorem fueled_transfer {sender recipient : Address} {value : Word} :
    Fueled (transfer sender recipient value) hs :=
  .bind fueled_getAccount fun _ _ _ => .bind (fueled_assert _) fun _ _ _ =>
    .bind (fueled_setAccount _) fun _ _ _ => .bind fueled_getAccount fun _ _ _ => fueled_setAccount _

omit [Ethash] in
/-- The beginning of a creation uses no fuel. -/
theorem fueled_enterCreate : Fueled (enterCreate msg) hs := by
  refine .bind fueled_find fun acc _ _ => ?_
  have hrest : ∀ hs, Fueled (do
      let newAcc ← getOrInsert msg.recipient
      assert (newAcc.nonce = 0)
      setAccount msg.recipient { newAcc with nonce := 1, storage := clearStorage newAcc.storage }
      transfer msg.sender msg.recipient msg.value
      return true) hs := fun _ =>
    .bind (fueled_getOrInsert _) fun _ _ _ => .bind (fueled_assert _) fun _ _ _ =>
      .bind (fueled_setAccount _) fun _ _ _ => .bind fueled_transfer fun _ _ _ => .pure _
  cases acc with
  | none => exact hrest _
  | some acc => exact .ite (fun _ => .pure _) fun _ => hrest _

omit [Ethash] in
/-- The end of a creation uses no fuel. -/
theorem fueled_deploy {result : CallResult} : Fueled (deploy msg result) hs :=
  .ite (fun _ => .pure _) fun _ => .bind (fueled_assert _) fun _ _ _ =>
    .ite (fun _ => .pure _) fun _ => .ite (fun _ => .pure _) fun _ => .ite (fun _ => .pure _) fun _ =>
      .bind fueled_getAccount fun _ _ _ => .bind (fueled_setAccount _) fun _ _ _ => .pure _

omit [Ethash] in
/-- The beginning of a call uses no fuel. -/
theorem fueled_enterCall : Fueled (enterCall msg) hs :=
  .bind (fueled_assert _) fun _ _ _ => .ite (fun _ => .bind fueled_touch fun _ _ _ =>
    fueled_transfer) fun _ => .pure _

/-- Precompiles do not run out of fuel. -/
theorem fueled_callPrecompile : Fueled (callPrecompile msg) hs := by
  have hresult : (Precompiles.callPrecompile hs.cache msg).result ≠ .error .outOfFuel := by
    unfold Precompiles.callPrecompile
    split
    · exact nofun
    · split
      · exact nofun
      · exact Precompiles.callWith_fueled
  unfold Fueled Avoids callPrecompile
  dsimp only
  split
  next e he =>
    rw [he] at hresult
    exact fun heq => hresult (congrArg Except.error (Except.error.inj heq))
  next => exact nofun

/-! ### More fuel changes nothing -/

/-- A call runs out of fuel only if the code it runs does. -/
theorem fueled_callWith {exec : Exec}
    (hexec : ∀ {m code hs₁}, Enters msg hs m code hs₁ → Fueled (exec m code) hs₁) :
    Fueled (callWith exec msg) hs := by
  refine .bind fueled_prepareMessage fun r hs₁ hprepared => ?_
  cases r with
  | none => exact .pure _
  | some m =>
    -- Around the execution nothing spends fuel.
    refine .bind (.of_ok rfl) fun snapshot hs₂ hget => .bind ?_ fun result _ _ => ?_
    · obtain ⟨-, rfl⟩ := get_eq_ok.1 hget
      refine .ite (fun hkind => .bind (fueled_assert _) fun _ hs₃ hassert => ?_) fun hkind =>
        .bind fueled_enterCall fun _ hs₃ henter => .bind fueled_callPrecompile fun r hs₄ hpre => ?_
      · obtain ⟨-, rfl⟩ := assert_eq_ok.1 hassert
        refine .bind fueled_enterCreate fun entered hs₄ henter => .ite (fun hentered => ?_)
          fun _ => .pure _
        subst hentered
        exact .bind (hexec (.create hprepared hkind henter)) fun _ _ _ => fueled_deploy
      · cases r with
        | some result => exact .pure _
        | none =>
          have hcode := hexec (.call hprepared hkind henter hpre)
          refine .bind fueled_find fun dst hs₅ hfind => ?_
          obtain ⟨-, rfl⟩ := callPrecompile_ok hpre
          obtain ⟨rfl, rfl⟩ := find_eq_ok.1 hfind
          rw [codeOf, accountOr] at hcode
          cases hacc : hs₃.state.find (if m.kind = .call then m.recipient else m.codeAddress) with
          | none => simpa only [hacc, Option.getD_none] using hcode
          | some acc => simpa only [hacc, Option.getD_some] using hcode
    · exact .ite (fun _ => .bind (.of_ok rfl) fun _ _ _ => .pure _) fun _ => .pure _

/-- Calls agree unless they run out of fuel, if what runs the code does. -/
theorem extends_callWith {exec exec' : Exec}
    (hexec : ∀ m code hs, Extends .outOfFuel (exec m code) (exec' m code) hs) (msg : Message)
    (hs : HostState) : Extends .outOfFuel (callWith exec msg) (callWith exec' msg) hs := by
  refine .bind (.refl _) fun r _ => ?_
  cases r with
  | none => exact .refl _
  | some m =>
    refine .bind (.refl _) fun _ _ => .bind ?_ fun _ _ => .refl _
    refine .ite (.bind (.refl _) fun _ _ => .bind (.refl _) fun _ _ =>
      .ite (.bind (hexec _ _ _) fun _ _ => .refl _) (.refl _)) (.bind (.refl _) fun _ _ =>
        .bind (.refl _) fun r _ => ?_)
    cases r with
    | some result => exact .refl _
    | none => exact .bind (.refl _) fun _ _ => hexec _ _ _

variable {ctx : HostContext} {vm : VM} {n m : Nat}

/-- With more fuel a call does the same, unless it runs out of fuel. -/
theorem extends_call (hvm : vm.ExtendsFuel) (hle : n ≤ m) (msg : Message) (hs : HostState) :
    Extends .outOfFuel (call ctx vm n msg) (call ctx vm m msg) hs := by
  induction n generalizing m msg hs with
  | zero => exact fun h => absurd rfl h
  | succ n ih =>
    obtain ⟨m, rfl⟩ : ∃ k, m = k + 1 := ⟨m - 1, by omega⟩
    have hle : n ≤ m := by omega
    refine extends_callWith (fun msg code hs => ?_) msg hs
    intro h
    have henv : ∀ q hs, answer ctx (call ctx vm n) q hs ≠ .error .outOfFuel →
        answer ctx (call ctx vm m) q hs = answer ctx (call ctx vm n) q hs := by
      intro q hs h
      cases q with
      | call msg => exact ih hle msg hs h
      | _ => rfl
    have hexecute : run (answer ctx (call ctx vm n)) (vm m msg code) hs
        = run (answer ctx (call ctx vm n)) (vm n msg code) hs := hvm hle h
    unfold execVm at h ⊢
    rw [run_mono henv (by rwa [hexecute]), hexecute]

/-- With more fuel a frame gets the same answers, unless the fuel runs out. -/
theorem extends_answer (hvm : vm.ExtendsFuel) (hle : n ≤ m) (q : HostCall) (hs : HostState)
    (h : answer ctx (call ctx vm n) q hs ≠ .error .outOfFuel) :
    answer ctx (call ctx vm m) q hs = answer ctx (call ctx vm n) q hs := by
  cases q with
  | call msg => exact extends_call hvm hle msg hs h
  | _ => rfl

/-- The answers to a frame give back at most the gas of the messages. -/
theorem frameEnv_bounded (q : HostCall) (hs : HostState) (r : q.Answer) (hs' : HostState)
    (h : frameEnv ctx n q hs = .ok (r, hs')) : BoundedAnswer q r := by
  cases q with
  | call m => exact fun hnonneg => call_isBounded n m hs r hs' hnonneg h
  | _ => trivial

/-- A call with more fuel than gas does not run out of it. -/
theorem fueled_call {msg : Message} (hn : msg.gas.toNat + 2 ≤ n) (hs : HostState) :
    Fueled (call ctx Baseline.execute n msg) hs := by
  induction n generalizing msg hs with
  | zero => omega
  | succ n ih =>
    refine fueled_callWith fun {m code hs} henters => ?_
    have hstart : (Baseline.Frame.start m code).gas = msg.gas := henters.depth_gas.2
    -- The frame has enough fuel for its own gas, and passes less of it on to what it calls.
    have hdispatch := Baseline.wp_dispatch_spending (n := n) (Baseline.inCode_zero code)
      hstart.le (by rw [hstart]; omega)
    have henv : ∀ q hs r hs', (spendingContract msg.gas).pre () q →
        frameEnv ctx n q hs = .ok (r, hs') → BoundedAnswer q r :=
      fun q hs r hs' _ => frameEnv_bounded q hs r hs'
    have hrun := run_of_wp henv hdispatch hs
    show run (frameEnv ctx n) (Baseline.execute n m code) hs ≠ _
    rw [Baseline.run_execute]
    rcases hrun with ⟨x, hs', hok, -⟩ | ⟨e, herror, habort | ⟨q, hs', hpre, hq⟩⟩
    · rw [hok]
      exact nofun
    · exact habort.elim
    -- So the fault came from a question, and a nested call has fuel left by the induction.
    · rw [herror]
      have hfueled : Fueled (frameEnv ctx n q) hs' := by
        cases q with
        | call m' =>
          have hpre : 0 ≤ m'.gas ∧ m'.gas < msg.gas := hpre
          exact ih (by omega) hs'
        | _ => exact fueled_answer (fun m => nofun)
      exact fun heq => hfueled (hq.trans (congrArg Except.error (Except.error.inj heq)))

/-! ### Finitely many points -/

/-- A frame passes through finitely many points. -/
theorem finite_passes (m : Message) (code : Bytes) (hs : HostState) :
    {x : Baseline.Frame × HostState | ∃ i,
      Baseline.Passes (frameEnv ctx n) (Baseline.analyze code) (.start m code) hs i x.1 x.2}.Finite := by
  have hpoint : ∀ i, {x : Baseline.Frame × HostState |
      Baseline.Passes (frameEnv ctx n) (Baseline.analyze code) (.start m code) hs i x.1 x.2}.Finite := by
    intro i
    refine Set.Subsingleton.finite fun x hx y hy => ?_
    obtain ⟨hf, hs⟩ := Baseline.Passes.unique hx hy
    exact Prod.ext hf hs
  refine ((Set.finite_le_nat m.gas.toNat).biUnion fun i _ => hpoint i).subset ?_
  rintro x ⟨i, hx⟩
  exact Set.mem_biUnion (hx.le_gas frameEnv_bounded) hx

/-- What a call visits: the points of the frame it starts, and what the messages visit that are sent
there. -/
theorem visits_succ {k : Nat} {code : Bytes} {f : Baseline.Frame} {hs hs' : HostState}
    (h : Visits ctx (n + 1) msg hs k code f hs') :
    ∃ m code₁ hs₁, Enters msg hs m code₁ hs₁ ∧
      ((∃ i, k = n ∧ code = code₁ ∧
          Baseline.Passes (frameEnv ctx n) (Baseline.analyze code₁) (.start m code₁) hs₁ i f hs') ∨
        ∃ i f₁ hs₂ m' hs₃,
          Baseline.Passes (frameEnv ctx n) (Baseline.analyze code₁) (.start m code₁) hs₁ i f₁ hs₂ ∧
          Reaches (frameEnv ctx n) (Baseline.step (Baseline.analyze code₁) f₁) hs₂ (.call m') hs₃ ∧
          Visits ctx n m' hs₃ k code f hs') := by
  generalize hfuel : n + 1 = fuel at h
  -- Which of the two it is only changes at a nested frame, and there once.
  induction h with
  | enter h =>
    cases hfuel
    exact ⟨_, _, _, h, .inl ⟨0, rfl, rfl, .start⟩⟩
  | step h hstep ih =>
    obtain ⟨m, code₁, hs₁, henters, ⟨i, rfl, rfl, hpasses⟩ | ⟨i, f₁, hs₂, m', hs₃, hpasses, hsend, h'⟩⟩ :=
      ih hfuel
    · exact ⟨m, _, hs₁, henters, .inl ⟨i + 1, rfl, rfl, hpasses.next hstep⟩⟩
    · exact ⟨m, code₁, hs₁, henters, .inr ⟨i, f₁, hs₂, m', hs₃, hpasses, hsend, h'.step hstep⟩⟩
  | nested h hsend h' ih _ =>
    obtain ⟨m, code₁, hs₁, henters, ⟨i, rfl, rfl, hpasses⟩ | ⟨i, f₁, hs₂, m', hs₃, hpasses, hsend', h''⟩⟩ :=
      ih hfuel
    · exact ⟨m, _, hs₁, henters, .inr ⟨i, _, _, _, _, hpasses, hsend, h'⟩⟩
    · exact ⟨m, code₁, hs₁, henters, .inr ⟨i, f₁, hs₂, m', hs₃, hpasses, hsend', h''.nested hsend h'⟩⟩

/-- Without fuel nothing is visited. -/
theorem not_visits_zero {k : Nat} {code : Bytes} {f : Baseline.Frame} {hs hs' : HostState} :
    ¬ Visits ctx 0 msg hs k code f hs' := by
  intro h
  generalize hfuel : 0 = fuel at h
  induction h with
  | enter => cases hfuel
  | step _ _ ih => exact ih hfuel
  | nested _ _ _ ih => exact ih hfuel

omit [Ethash] in
/-- What the messages of an instruction visit is finite if what each message visits is. -/
theorem finite_sent {α T : Type} {V : Message → HostState → Set T} (hV : ∀ m s, (V m s).Finite)
    (env : Env HostCall.Answer Fault HostState) (p : HostM α) (s : HostState) :
    {x | ∃ m s', Reaches env p s (.call m) s' ∧ x ∈ V m s'}.Finite := by
  have hbelow : ∀ y : HostCall × HostState, {x | ∃ m, y.1 = .call m ∧ x ∈ V m y.2}.Finite := by
    rintro ⟨q, s'⟩
    cases q with
    | call m =>
      refine (hV m s').subset ?_
      rintro x ⟨m', heq, hx⟩
      cases heq
      exact hx
    | _ =>
      refine Set.finite_empty.subset ?_
      rintro x ⟨m', heq, -⟩
      cases heq
  refine ((finite_reaches env p s).biUnion fun y _ => hbelow y).subset ?_
  rintro x ⟨m, s', hsend, hx⟩
  exact Set.mem_biUnion (x := (HostCall.call m, s')) hsend ⟨m, rfl, hx⟩

/-- A call visits finitely many points. -/
theorem finite_visits (fuel : Nat) (msg : Message) (hs : HostState) :
    {x : Nat × Bytes × Baseline.Frame × HostState |
      Visits ctx fuel msg hs x.1 x.2.1 x.2.2.1 x.2.2.2}.Finite := by
  induction fuel generalizing msg hs with
  | zero =>
    convert Set.finite_empty
    exact Set.eq_empty_of_forall_notMem fun x hx => not_visits_zero hx
  | succ n ih =>
    -- The frames of the outermost execution, and for each of them those below what it sends.
    by_cases henters : ∃ m code hs₁, Enters msg hs m code hs₁
    · obtain ⟨m, code, hs₁, henters⟩ := henters
      have hpasses := @finite_passes _ ctx n m code hs₁
      refine ((hpasses.image fun x => (n, code, x.1, x.2)).union
        (hpasses.biUnion fun x _ => finite_sent ih (frameEnv ctx n)
          (Baseline.step (Baseline.analyze code) x.1) x.2)).subset ?_
      rintro ⟨k, code', f, hs'⟩ hx
      obtain ⟨m₁, code₁, hs₂, henters₁, hvisits⟩ := visits_succ hx
      obtain ⟨rfl, rfl, rfl⟩ := henters.unique henters₁
      rcases hvisits with ⟨i, rfl, rfl, hf⟩ | ⟨i, f₁, hs₂, m', hs₃, hf, hsend, hvisits⟩
      · exact .inl ⟨(f, hs'), ⟨i, hf⟩, rfl⟩
      · exact .inr (Set.mem_biUnion (x := (f₁, hs₂)) ⟨i, hf⟩ ⟨m', hs₃, hsend, hvisits⟩)
    · convert Set.finite_empty
      refine Set.eq_empty_of_forall_notMem fun x hx => ?_
      obtain ⟨m, code, hs₁, h, -⟩ := visits_succ hx
      exact henters ⟨m, code, hs₁, h⟩

/-! ### Calls with the Advanced interpreter -/

/-- The calls of a frame give back at most the gas of their messages if the virtual machine does. -/
theorem answer_bounded (hvm : vm.BoundsGas) (n : Nat) (q : HostCall) (hs : HostState) (r : q.Answer)
    (hs' : HostState) (h : answer ctx (call ctx vm n) q hs = .ok (r, hs')) : BoundedAnswer q r := by
  cases q with
  | call m => exact fun hnonneg => isBounded_call hvm hnonneg h
  | _ => trivial

/-- A call with the Advanced interpreter does not run out of fuel if there is enough of it. -/
theorem exists_fueled_advanced (msg : Message) (hs : HostState) :
    ∃ n, Fueled (call ctx Advanced.execute n msg) hs := by
  -- Messages are nested no deeper than 1024.
  induction hdepth : (1025 - msg.depth).toNat using Nat.strong_induction_on generalizing msg hs with
  | _ d ih =>
    by_cases henters : ∃ m code hs₁, Enters msg hs m code hs₁
    · obtain ⟨m, code, hs₁, henters⟩ := henters
      have hanswers : ∀ q s, q.Authorized m →
          ∃ n, answer ctx (call ctx Advanced.execute n) q s ≠ .error .outOfFuel := by
        intro q s hq
        cases q with
        | call m' =>
          have hsent : m'.SentBy m := hq
          have hdeeper := hsent.depth
          have hlimit := hsent.limit
          rw [henters.depth_gas.1] at hdeeper hlimit
          exact ih _ (by omega) m' s rfl
        | _ => exact ⟨0, fueled_answer fun m => nofun⟩
      obtain ⟨k, hends⟩ := Advanced.wp_loop_ends m code
      have hends : wp (.answers Fault BoundedAnswer) (Advanced.execute k m code) () fun _ _ => True :=
        (wp_bind _ _ _).2 (wp_mono hends fun _ _ _ => trivial)
      obtain ⟨n, hn⟩ := exists_run_ne (extends_answer Advanced.extendsFuel)
        (answer_bounded Advanced.boundsGas) hanswers (Advanced.execute_asks_authorized k m code)
        hends hs₁
      -- The fuel is enough for the instructions of the frame and for what it sends.
      refine ⟨max n k + 1, fueled_callWith fun {m' code' hs'} henters' => ?_⟩
      obtain ⟨rfl, rfl, rfl⟩ := henters.unique henters'
      have hrun := run_mono (extends_answer Advanced.extendsFuel (le_max_left n k)) hn
      rw [← hrun] at hn
      show run (answer ctx (call ctx Advanced.execute (max n k)))
        (Advanced.execute (max n k) m code) hs₁ ≠ _
      rw [Advanced.extendsFuel (le_max_right n k) hn]
      exact hn
    · exact ⟨1, fueled_callWith fun h => absurd ⟨_, _, _, h⟩ henters⟩

/-- With enough fuel a call with the Advanced interpreter ends, and more fuel does not change it. -/
theorem exists_enough_advanced (msg : Message) (hs : HostState) :
    ∃ enough, ∀ fuel, enough ≤ fuel → call ctx Advanced.execute fuel msg hs ≠ .error .outOfFuel ∧
      call ctx Advanced.execute fuel msg hs = call ctx Advanced.execute enough msg hs := by
  obtain ⟨enough, hends⟩ := @exists_fueled_advanced _ ctx msg hs
  refine ⟨enough, fun fuel hfuel => ?_⟩
  have hsame := extends_call Advanced.extendsFuel hfuel msg hs hends
  exact ⟨fun h => hends (hsame ▸ h), hsame⟩

/-- `AdvancedVisits ctx fuel msg hs n code i st hs'`: in the tree of the call of `msg` in the state
`hs` with the Advanced interpreter, a frame that runs `code` is at the index `i` in the state `st` when
the host is in the state `hs'`. The messages it sends have the fuel `n`. -/
inductive AdvancedVisits (ctx : HostContext) : Nat → Message → HostState → Nat → Bytes → Nat →
    Advanced.AdvancedExecutionState → HostState → Prop
  /-- The frame that the call starts. -/
  | own {n k i : Nat} {msg m : Message} {code : Bytes} {hs hs₁ hs₂ : HostState}
      {st : Advanced.AdvancedExecutionState} (henters : Enters msg hs m code hs₁)
      (hpasses : Advanced.Passes (answer ctx (call ctx Advanced.execute n)) (Advanced.analyze code) 0
        (.start m code) hs₁ k i st hs₂) :
      AdvancedVisits ctx (n + 1) msg hs n code i st hs₂
  /-- The frame sends a message; what that call visits is visited. -/
  | nested {n n' k i i' : Nat} {msg m m' : Message} {code code' : Bytes}
      {hs hs₁ hs₂ hs₃ hs₄ : HostState} {st st' : Advanced.AdvancedExecutionState}
      {instr : Advanced.Instruction} (henters : Enters msg hs m code hs₁)
      (hpasses : Advanced.Passes (answer ctx (call ctx Advanced.execute n)) (Advanced.analyze code) 0
        (.start m code) hs₁ k i st hs₂)
      (hinstr : (Advanced.analyze code).instrs[i]? = some instr)
      (hsend : Reaches (answer ctx (call ctx Advanced.execute n))
        (instr.exec (Advanced.analyze code) i st) hs₂ (.call m') hs₃)
      (h : AdvancedVisits ctx n m' hs₃ n' code' i' st' hs₄) :
      AdvancedVisits ctx (n + 1) msg hs n' code' i' st' hs₄

/-- A frame of the Advanced interpreter passes through finitely many points. -/
theorem finite_advancedPasses (m : Message) (code : Bytes) (hs : HostState) :
    {x : Nat × Advanced.AdvancedExecutionState × HostState | ∃ k,
      Advanced.Passes (answer ctx (call ctx Advanced.execute n)) (Advanced.analyze code) 0
        (.start m code) hs k x.1 x.2.1 x.2.2}.Finite := by
  obtain ⟨bound, hbound⟩ := Advanced.exists_passes_le m code
  have hpoint : ∀ k, {x : Nat × Advanced.AdvancedExecutionState × HostState |
      Advanced.Passes (answer ctx (call ctx Advanced.execute n)) (Advanced.analyze code) 0
        (.start m code) hs k x.1 x.2.1 x.2.2}.Finite := by
    intro k
    refine Set.Subsingleton.finite fun x hx y hy => ?_
    obtain ⟨hi, hst, hs⟩ := Advanced.Passes.unique hx hy
    exact Prod.ext hi (Prod.ext hst hs)
  refine ((Set.finite_le_nat bound).biUnion fun k _ => hpoint k).subset ?_
  rintro x ⟨k, hx⟩
  exact Set.mem_biUnion (hbound (answer_bounded Advanced.boundsGas n) hx) hx

/-- A call with the Advanced interpreter visits finitely many points. -/
theorem finite_advancedVisits (fuel : Nat) (msg : Message) (hs : HostState) :
    {x : Nat × Bytes × Nat × Advanced.AdvancedExecutionState × HostState |
      AdvancedVisits ctx fuel msg hs x.1 x.2.1 x.2.2.1 x.2.2.2.1 x.2.2.2.2}.Finite := by
  induction fuel generalizing msg hs with
  | zero =>
    refine Set.finite_empty.subset ?_
    rintro x ⟨⟩
  | succ n ih =>
    by_cases henters : ∃ m code hs₁, Enters msg hs m code hs₁
    · obtain ⟨m, code, hs₁, henters⟩ := henters
      have hpasses := @finite_advancedPasses _ ctx n m code hs₁
      -- What is below the instruction of a point.
      have hbelow : ∀ x : Nat × Advanced.AdvancedExecutionState × HostState,
          {z | ∃ instr, (Advanced.analyze code).instrs[x.1]? = some instr ∧
            ∃ m' s', Reaches (answer ctx (call ctx Advanced.execute n))
              (instr.exec (Advanced.analyze code) x.1 x.2.1) x.2.2 (.call m') s' ∧
              z ∈ {z : Nat × Bytes × Nat × Advanced.AdvancedExecutionState × HostState |
                AdvancedVisits ctx n m' s' z.1 z.2.1 z.2.2.1 z.2.2.2.1 z.2.2.2.2}}.Finite := by
        rintro ⟨i, st, s⟩
        cases (Advanced.analyze code).instrs[i]? with
        | none =>
          refine Set.finite_empty.subset ?_
          rintro z ⟨instr, h, -⟩
          cases h
        | some instr =>
          refine (finite_sent ih (answer ctx (call ctx Advanced.execute n))
            (instr.exec (Advanced.analyze code) i st) s).subset ?_
          rintro z ⟨instr', h, hz⟩
          cases h
          exact hz
      refine ((hpasses.image fun x => (n, code, x.1, x.2.1, x.2.2)).union
        (hpasses.biUnion fun x _ => hbelow x)).subset ?_
      rintro ⟨k, code', i, st, hs'⟩ hx
      cases hx with
      | own henters' hown =>
        obtain ⟨rfl, rfl, rfl⟩ := henters.unique henters'
        exact .inl ⟨(i, st, hs'), ⟨_, hown⟩, rfl⟩
      | nested henters' hown hinstr hsend hx =>
        obtain ⟨rfl, rfl, rfl⟩ := henters.unique henters'
        exact .inr (Set.mem_biUnion (x := (_, _, _)) ⟨_, hown⟩ ⟨_, hinstr, _, _, hsend, hx⟩)
    · refine Set.finite_empty.subset ?_
      rintro x (⟨h, -⟩ | ⟨h, -, -, -, -⟩)
      · exact henters ⟨_, _, _, h⟩
      · exact henters ⟨_, _, _, h⟩

end

end Host

/-- Execution terminates. If calls give back at most the gas of the message, the Baseline interpreter
executes at most one instruction more than it has gas, and the loop of the Advanced interpreter ends.
With `Host` as the host and either interpreter a call does not run out of fuel if there is enough, and
visits finitely many points. -/
theorem execution_terminates [Ethash] :
    (∀ {σ : Type} (env : TotalEnv HostCall.Answer σ), (∀ q s, BoundedAnswer q (env q s).1) →
      ∀ (code : Bytes) (msg : Message) (s : σ), 0 ≤ msg.gas →
        (∀ n f s', Baseline.Passes env.toEnv (Baseline.analyze code) (.start msg code) s n f s' →
          n + 1 ≤ msg.gas + 1) ∧
        (∃ x s', run env.toEnv (Baseline.dispatch (Baseline.analyze code) (msg.gas.toNat + 1)
          (.start msg code)) s = .ok (x, s')) ∧
        ∃ fuel x s', run env.toEnv (Advanced.loop (Advanced.analyze code) fuel 0 (.start msg code)) s
          = .ok (x, s')) ∧
      ∀ (ctx : HostContext) (msg : Message) (hs : HostState),
        (∀ fuel, msg.gas.toNat + 2 ≤ fuel →
          Host.call ctx Baseline.execute fuel msg hs ≠ .error .outOfFuel ∧
          Host.call ctx Baseline.execute fuel msg hs
            = Host.call ctx Baseline.execute (msg.gas.toNat + 2) msg hs) ∧
        (∀ fuel, {x : Nat × Bytes × Baseline.Frame × HostState |
          Host.Visits ctx fuel msg hs x.1 x.2.1 x.2.2.1 x.2.2.2}.Finite) ∧
        (∃ enough, ∀ fuel, enough ≤ fuel →
          Host.call ctx Advanced.execute fuel msg hs ≠ .error .outOfFuel ∧
          Host.call ctx Advanced.execute fuel msg hs
            = Host.call ctx Advanced.execute enough msg hs) ∧
        ∀ fuel, {x : Nat × Bytes × Nat × Advanced.AdvancedExecutionState × HostState |
          Host.AdvancedVisits ctx fuel msg hs x.1 x.2.1 x.2.2.1 x.2.2.2.1 x.2.2.2.2}.Finite := by
  refine ⟨fun env henv code msg s hgas => ?_, fun ctx msg hs =>
    ⟨fun fuel hfuel => ⟨Host.fueled_call hfuel hs, Host.extends_call Baseline.extendsFuel hfuel msg hs
      (Host.fueled_call le_rfl hs)⟩, fun fuel => Host.finite_visits fuel msg hs,
      Host.exists_enough_advanced msg hs, fun fuel => Host.finite_advancedVisits fuel msg hs⟩⟩
  -- A total environment bounds every answer it gives, and it always gives one.
  have hanswer : ∀ q s r s', (env.toEnv : Env _ Fault _) q s = .ok (r, s') → BoundedAnswer q r := by
    intro q s r s' hr
    obtain rfl : (env q s).1 = r := congrArg Prod.fst (Except.ok.inj hr)
    exact henv q s
  refine ⟨fun n f s' h => ?_, ?_, ?_⟩
  · have hle := h.le_gas hanswer
    omega
  -- Baseline: `g + 1` instructions of fuel, since each of them costs at least one gas.
  · have hstart : (Baseline.Frame.start msg code).gas ≤ msg.gas := le_rfl
    have hdispatch := Baseline.wp_dispatch_spending (Baseline.inCode_zero code) hstart
      (Nat.lt_succ_self _)
    obtain ⟨x, s', hrun, -⟩ | ⟨e, -, hfault | ⟨q, s', -, hfault⟩⟩ :=
      run_of_wp (fun q s r s' _ => hanswer q s r s') hdispatch s
    · exact ⟨x, s', hrun⟩
    · exact hfault.elim
    · cases hfault
  -- Advanced: the rank of the loop is the fuel; only its existence is claimed here.
  · have hblock : Advanced.InBlock code (.start msg code) 0 := .entry
    have hwp := Advanced.wp_loop_spending hblock (Nat.zero_le _) hgas (Nat.lt_succ_self _)
    obtain ⟨x, s', hrun, -⟩ := run_total_wp henv hwp s
    exact ⟨_, x, s', hrun⟩

end Zvmone
