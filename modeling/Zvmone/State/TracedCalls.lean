import Zvmone.Library.TwoRuns
import Zvmone.State.GasBounds
import Zvmone.State.TracedHost
import Zvmone.Vm.ControlFlow
import Zvmone.Vm.FrameAuthority
import Zvmone.Vm.FrameQueries

/-! # The trace of a call

What a call notifies tracers of are the brackets of a tree of executions. For each execution the trace
shows the frames that the loop of the Baseline interpreter passes through without tracing, one after
the other, and the executions of nested messages, one level deeper (`tells_call`). -/

namespace Zvmone

open Interaction StateRun Host

/-- What tracers are notified of: executions with their message and code, the frames at the start of
instructions, and results. -/
abbrev Trace := Forest (Message × Bytes) Baseline.Frame CallResult

namespace Baseline

variable [Ethash] {σ : Type} {env : Env HostCall.Answer Fault σ} {analysis : CodeAnalysis}
  {f f' f₁ : Frame} {s s' s₁ : σ} {n : Nat}

/-! ### The frames of a run from its start -/

/-- A frame passes through what its next frame passes through. -/
theorem Passes.cons (hstep : run env (step analysis f) s = .ok (.cont f₁, s₁))
    (h : Passes env analysis f₁ s₁ n f' s') : Passes env analysis f s (n + 1) f' s' := by
  induction h with
  | start => exact .next .start hstep
  | next _ hnext ih => exact .next ih hnext

/-- Before the first step the frame is where it is. -/
theorem passes_zero : Passes env analysis f s 0 f' s' ↔ f' = f ∧ s' = s := by
  constructor
  · intro h
    cases h
    exact ⟨rfl, rfl⟩
  · rintro ⟨rfl, rfl⟩
    exact .start

/-- What the loop passes through after an instruction, it passes through from the next frame on. -/
theorem Passes.of_succ (h : Passes env analysis f s (n + 1) f' s') :
    ∃ f₁ s₁, run env (step analysis f) s = .ok (.cont f₁, s₁) ∧
      Passes env analysis f₁ s₁ n f' s' := by
  induction n generalizing f' s' with
  | zero =>
    cases h with
    | next h hstep =>
      cases h
      exact ⟨f', s', hstep, .start⟩
  | succ n ih =>
    cases h with
    | next h hstep =>
      obtain ⟨f₁, s₁, hfirst, hrest⟩ := ih h
      exact ⟨f₁, s₁, hfirst, hrest.next hstep⟩

omit [Ethash] in
/-- An instruction keeps the code of the frame. -/
theorem codeRule (gas : Int) (st : ExecutionState) :
    StepRule anything (fun _ st' _ => st'.originalCode = st.originalCode) (fun _ _ _ => True) gas st
      () where
  abort _ := trivial
  neutral := ⟨fun _ _ => trivial, fun _ _ _ _ _ => rfl⟩
  log _ := ⟨fun _ _ => trivial, fun _ _ _ _ _ => rfl⟩
  cont hsame _ _ _ := hsame.originalCode
  fail _ _ _ := trivial
  halt _ _ _ _ _ := trivial
  sstore _ _ _ _ := ⟨trivial, fun _ _ _ => by split <;> trivial⟩
  call _ hsame _ _ _ _ := ⟨trivial, fun _ _ _ => hsame.originalCode⟩
  create _ hsame _ _ _ _ := ⟨trivial, fun _ _ _ => hsame.originalCode⟩

/-- A step keeps the original code. -/
theorem step_originalCode (h : run env (step analysis f) s = .ok (.cont f', s')) :
    f'.state.originalCode = f.state.originalCode := by
  obtain ⟨_, -, hcode⟩ := run_wp (R := fun _ _ => True) (fun _ _ _ _ _ _ _ _ => ⟨(), trivial, trivial⟩)
    (wp_step (codeRule f.gas f.state)) trivial h
  exact hcode

/-- An instruction sends messages one level deeper. -/
theorem depth_of_reaches {m : Message} (h : Reaches env (step analysis f) s (.call m) s') :
    m.depth = f.state.msg.depth + 1 := by
  have hsent : HostCall.Authorized f.state.msg (.call m) :=
    wp_reaches (fun _ _ _ _ _ _ => trivial) (keeps_step rfl) h
  exact hsent.depth

/-- Behind the code the loop ends. -/
theorem not_cont_of_padding {code : Bytes} (hcode : InCode code f.codeIt)
    (hoffset : ¬ f.offset < code.length) :
    run env (step (analyze code) f) s ≠ .ok (.cont f', s') := by
  intro hstep
  have hge : code.length ≤ f.codeIt := by
    unfold Frame.offset at hoffset
    have := Nat.mod_le f.codeIt (2 ^ 32)
    omega
  obtain ⟨byte, hbyte, hne, -⟩ := (step_position code f).run hstep
  rcases hcode with ⟨-, hlt⟩ | ⟨-, hlt⟩
  · omega
  · rw [padCode_of_ge hge hlt, Option.some.injEq] at hbyte
    exact hne hbyte.symm

/-- What `dispatch<true>` does after the notification. -/
def continueTraced (analysis : CodeAnalysis) (n : Nat) : Next → TracedM (Int × ExecutionState)
  | .cont f => dispatchTraced analysis n f
  | .done gas state => .ret (gas, state)

/-- One round of the traced loop: notify, step and go on. -/
theorem dispatchTraced_succ (analysis : CodeAnalysis) (n : Nat) (f : Frame) :
    dispatchTraced analysis (n + 1) f =
      (if f.offset < f.state.originalCode.length then notify (Event.instructionStart f) else .ret ())
        >>= fun _ => silent (step analysis f) >>= continueTraced analysis n := by
  have hrest : (fun next => match next with
      | Next.cont f' => dispatchTraced analysis n f'
      | .done gas state => (pure (gas, state) : TracedM (Int × ExecutionState))) =
      continueTraced analysis n := by
    funext next
    cases next <;> rfl
  rw [dispatchTraced, ← hrest]
  split <;> rfl

end Baseline

/-! ### What is to be shown -/

section

variable [Ethash]

/-- Points of executions: the fuel of nested messages, the code, the frame and the state of the
host. -/
abbrev Points := Nat → Bytes → Baseline.Frame → HostState → Prop

/-- The frame stands at an instruction of the code at one of the points. -/
def Points.Shows (V : Points) (f : Baseline.Frame) : Prop :=
  ∃ n code hs, V n code f hs ∧ f.offset < code.length

/-- What the call of a message visits that one instruction sends. -/
def StepVisits (ctx : HostContext) (n : Nat) (p : HostM Baseline.Next) (hs : HostState) : Points :=
  fun k code f hs' => ∃ m hs₁, Reaches (frameEnv ctx n) p hs (.call m) hs₁ ∧
    Visits ctx n m hs₁ k code f hs'

/-- What the loop passes through, and what the calls of the messages visit that are sent there. -/
def LoopVisits (ctx : HostContext) (n : Nat) (code : Bytes) (f : Baseline.Frame) (hs : HostState) :
    Points :=
  fun k code' f' hs' => ∃ i f₁ hs₁,
    Baseline.Passes (frameEnv ctx n) (Baseline.analyze code) f hs i f₁ hs₁ ∧
      (k = n ∧ code' = code ∧ f' = f₁ ∧ hs' = hs₁ ∨
        StepVisits ctx n (Baseline.step (Baseline.analyze code) f₁) hs₁ k code' f' hs')

variable {ctx : HostContext} {n n' k : Nat} {msg m : Message} {code code' : Bytes}
  {f f' : Baseline.Frame} {hs hs' hs₁ : HostState}

/-- The frames that an execution passes through are visited. -/
theorem Host.Visits.of_passes (henters : Enters msg hs m code hs₁) {i : Nat}
    (h : Baseline.Passes (frameEnv ctx n) (Baseline.analyze code) (.start m code) hs₁ i f hs') :
    Visits ctx (n + 1) msg hs n code f hs' := by
  induction h with
  | start => exact .enter henters
  | next _ hstep ih => exact .step ih hstep

/-- A call visits the frames of the code that it enters, and what their messages visit. -/
theorem Host.Visits.enters (h : Visits ctx k msg hs n' code' f' hs') :
    ∃ n m code hs₁ i f₁ hs₂, k = n + 1 ∧ Enters msg hs m code hs₁ ∧
      Baseline.Passes (frameEnv ctx n) (Baseline.analyze code) (.start m code) hs₁ i f₁ hs₂ ∧
      (n' = n ∧ code' = code ∧ f' = f₁ ∧ hs' = hs₂ ∨
        ∃ m' hs₃, Reaches (frameEnv ctx n) (Baseline.step (Baseline.analyze code) f₁) hs₂
          (.call m') hs₃ ∧ Visits ctx n m' hs₃ n' code' f' hs') := by
  induction h with
  | @enter n msg m hs hs₁ code henters =>
    exact ⟨n, m, code, hs₁, 0, .start m code, hs₁, rfl, henters, .start, .inl ⟨rfl, rfl, rfl, rfl⟩⟩
  | step _ hstep ih =>
    obtain ⟨n, m, code, hs₁, i, f₁, hs₂, rfl, henters, hpasses, htop | ⟨m', hs₃, hsend, hin⟩⟩ := ih
    · obtain ⟨rfl, rfl, rfl, rfl⟩ := htop
      exact ⟨_, m, _, hs₁, i + 1, _, _, rfl, henters, hpasses.next hstep,
        .inl ⟨rfl, rfl, rfl, rfl⟩⟩
    · exact ⟨n, m, code, hs₁, i, f₁, hs₂, rfl, henters, hpasses, .inr ⟨m', hs₃, hsend, hin.step hstep⟩⟩
  | nested _ hsend h' ih _ =>
    obtain ⟨n, m, code, hs₁, i, f₁, hs₂, rfl, henters, hpasses, htop | ⟨m', hs₃, hsend', hin⟩⟩ := ih
    · obtain ⟨rfl, rfl, rfl, rfl⟩ := htop
      exact ⟨_, m, _, hs₁, i, _, _, rfl, henters, hpasses, .inr ⟨_, _, hsend, h'⟩⟩
    · exact ⟨n, m, code, hs₁, i, f₁, hs₂, rfl, henters, hpasses,
        .inr ⟨m', hs₃, hsend', hin.nested hsend h'⟩⟩

/-- What a call visits is what the loop of its execution visits. -/
theorem visits_succ_iff (henters : Enters msg hs m code hs₁) :
    Visits ctx (n + 1) msg hs k code' f' hs' ↔
      LoopVisits ctx n code (.start m code) hs₁ k code' f' hs' := by
  constructor
  · intro hvisits
    obtain ⟨n, m', code₁, hs₂, i, f₁, hs₃, hn, henters', hpasses, hcase⟩ := hvisits.enters
    obtain rfl := Nat.succ_injective hn
    obtain ⟨rfl, rfl, rfl⟩ := henters'.unique henters
    exact ⟨i, f₁, hs₃, hpasses, hcase⟩
  · rintro ⟨i, f₁, hs₂, hpasses, ⟨rfl, rfl, rfl, rfl⟩ | ⟨m', hs₃, hsend, hin⟩⟩
    · exact .of_passes henters hpasses
    · exact (Visits.of_passes henters hpasses).nested hsend hin

/-- A call that runs no code visits nothing. -/
theorem not_visits (h : ∀ m code hs', ¬ Enters msg hs m code hs') :
    ¬ Visits ctx n msg hs k code' f' hs' := by
  intro hvisits
  obtain ⟨n, m, code, hs₁, i, f₁, hs₂, -, henters, -⟩ := hvisits.enters
  exact h m code hs₁ henters

/-- What the loop visits is the frame itself, or visited in the instruction, or from the next frame
on. -/
theorem loopVisits_iff : LoopVisits ctx n code f hs k code' f' hs' ↔
    (k = n ∧ code' = code ∧ f' = f ∧ hs' = hs) ∨
      StepVisits ctx n (Baseline.step (Baseline.analyze code) f) hs k code' f' hs' ∨
      ∃ f₁ hs₁, run (frameEnv ctx n) (Baseline.step (Baseline.analyze code) f) hs
        = .ok (.cont f₁, hs₁) ∧ LoopVisits ctx n code f₁ hs₁ k code' f' hs' := by
  constructor
  · rintro ⟨i, f₁, hs₁, hpasses, hvisits⟩
    cases i with
    | zero =>
      obtain ⟨rfl, rfl⟩ := Baseline.passes_zero.1 hpasses
      exact hvisits.imp id .inl
    | succ i =>
      obtain ⟨f₂, hs₂, hstep, hrest⟩ := hpasses.of_succ
      exact .inr (.inr ⟨f₂, hs₂, hstep, i, f₁, hs₁, hrest, hvisits⟩)
  · rintro (hfirst | hsends | ⟨f₁, hs₁, hstep, i, f₂, hs₂, hpasses, hvisits⟩)
    · exact ⟨0, f, hs, .start, .inl hfirst⟩
    · exact ⟨0, f, hs, .start, .inr hsends⟩
    · exact ⟨i + 1, f₂, hs₂, hpasses.cons hstep, hvisits⟩

/-- The loop shows its first frame, what the first instruction shows, and what the next frame
shows. -/
theorem loopVisits_shows_iff : (LoopVisits ctx n code f hs).Shows f' ↔
    (f' = f ∧ f.offset < code.length) ∨
      (StepVisits ctx n (Baseline.step (Baseline.analyze code) f) hs).Shows f' ∨
      ∃ f₁ hs₁, run (frameEnv ctx n) (Baseline.step (Baseline.analyze code) f) hs
        = .ok (.cont f₁, hs₁) ∧ (LoopVisits ctx n code f₁ hs₁).Shows f' := by
  constructor
  · rintro ⟨k, code', hs', hvisits, hoffset⟩
    rcases loopVisits_iff.1 hvisits with ⟨rfl, rfl, rfl, rfl⟩ | hsends | ⟨f₁, hs₁, hstep, hlater⟩
    · exact .inl ⟨rfl, hoffset⟩
    · exact .inr (.inl ⟨k, code', hs', hsends, hoffset⟩)
    · exact .inr (.inr ⟨f₁, hs₁, hstep, k, code', hs', hlater, hoffset⟩)
  · rintro (⟨rfl, hoffset⟩ | ⟨k, code', hs', hsends, hoffset⟩ |
      ⟨f₁, hs₁, hstep, k, code', hs', hlater, hoffset⟩)
    · exact ⟨n, code, hs, loopVisits_iff.2 (.inl ⟨rfl, rfl, rfl, rfl⟩), hoffset⟩
    · exact ⟨k, code', hs', loopVisits_iff.2 (.inr (.inl hsends)), hoffset⟩
    · exact ⟨k, code', hs', loopVisits_iff.2 (.inr (.inr ⟨f₁, hs₁, hstep, hlater⟩)), hoffset⟩

end

/-! ### Executions and calls -/

section

variable [Ethash]

/-- The trace of an execution from the host state `hs`: the frames that the loop passes through in
the code, one after the other, and executions of nested messages. -/
structure Depicts (ctx : HostContext) (n : Nat) (hs : HostState) (start : Message × Bytes)
    (inner : Trace) (result : CallResult) : Prop where
  result : ∃ hs', run (frameEnv ctx n) (Baseline.execute n start.1 start.2) hs = .ok (result, hs')
  own : ∀ (i : Nat) (f : Baseline.Frame), inner.own[i]? = some f ↔
    f.offset < start.2.length ∧ ∃ hs', Baseline.Passes (frameEnv ctx n) (Baseline.analyze start.2)
      (.start start.1 start.2) hs i f hs'
  depth : ∀ start' ∈ inner.starts, start'.1.depth = start.1.depth + 1

/-- Every activity in the trace is an execution with the frames and the result of that execution,
started at one of the points `V`. -/
def Trace.IsFaithful (ctx : HostContext) (V : Points) (trace : Trace) : Prop :=
  trace.All fun start inner result => ∃ n hs, V n start.2 (.start start.1 start.2) hs ∧
    Depicts ctx n hs start inner result

/-- The trace has executions at a depth, one after the other, started at points `V`, and all frames
in the code at points `V`. -/
structure DepictsCalls (ctx : HostContext) (depth : Int) (V : Points) (trace : Trace) : Prop where
  outside : trace.own = []
  faithful : trace.IsFaithful ctx V
  depth : ∀ start ∈ trace.starts, start.1.depth = depth
  frames : ∀ f, f ∈ trace.leaves ↔ V.Shows f

/-- The brackets of executions at a depth. -/
def AreExecutions (ctx : HostContext) (depth : Int) (V : Points) (events : List Event) : Prop :=
  ∃ trace : Trace, trace.signals = events ∧ DepictsCalls ctx depth V trace

variable {ctx : HostContext} {depth : Int} {V V' V'' : Points} {events events' : List Event}

/-- The executions of a trace may be started at more points. -/
theorem Trace.IsFaithful.mono {trace : Trace} (h : trace.IsFaithful ctx V)
    (hV : ∀ k code f hs, V k code f hs → V' k code f hs) : trace.IsFaithful ctx V' := by
  refine Forest.All.imp h fun start inner result hdepicts => ?_
  obtain ⟨n, hs, hstarted, hdepicts⟩ := hdepicts
  exact ⟨n, hs, hV _ _ _ _ hstarted, hdepicts⟩

/-- No events tell no executions. -/
theorem areExecutions_nil (hV : ∀ k code f hs, ¬ V k code f hs) : AreExecutions ctx depth V [] :=
  ⟨.nil, rfl, rfl, trivial, nofun, fun f => iff_of_false nofun fun ⟨k, code, hs, h, _⟩ =>
    hV k code f hs h⟩

/-- What the executions show may be described in another way. -/
theorem AreExecutions.congr (h : AreExecutions ctx depth V events)
    (hV : ∀ k code f hs, V k code f hs ↔ V' k code f hs) : AreExecutions ctx depth V' events := by
  have heq : V = V' := by
    funext k code f hs
    exact propext (hV k code f hs)
  exact heq ▸ h

/-- Executions one after the other. -/
theorem AreExecutions.append (h : AreExecutions ctx depth V events)
    (h' : AreExecutions ctx depth V' events')
    (hV : ∀ k code f hs, V k code f hs ∨ V' k code f hs ↔ V'' k code f hs) :
    AreExecutions ctx depth V'' (events ++ events') := by
  obtain ⟨trace, rfl, hdepicts⟩ := h
  obtain ⟨trace', rfl, hdepicts'⟩ := h'
  have hshows : ∀ f, V''.Shows f ↔ V.Shows f ∨ V'.Shows f := by
    intro f
    constructor
    · rintro ⟨k, code, hs, h, hoffset⟩
      exact ((hV k code f hs).2 h).imp (⟨k, code, hs, ·, hoffset⟩) (⟨k, code, hs, ·, hoffset⟩)
    · rintro (⟨k, code, hs, h, hoffset⟩ | ⟨k, code, hs, h, hoffset⟩)
      · exact ⟨k, code, hs, (hV k code f hs).1 (.inl h), hoffset⟩
      · exact ⟨k, code, hs, (hV k code f hs).1 (.inr h), hoffset⟩
  refine ⟨trace.append trace', trace.signals_append trace', ?_, ?_, fun start hstart => ?_,
    fun f => ?_⟩
  · simp [hdepicts.outside, hdepicts'.outside]
  · exact (trace.all_append trace').2
      ⟨hdepicts.faithful.mono fun k code f hs h => (hV k code f hs).1 (.inl h),
        hdepicts'.faithful.mono fun k code f hs h => (hV k code f hs).1 (.inr h)⟩
  · rw [Forest.starts_append, List.mem_append] at hstart
    exact hstart.elim (hdepicts.depth start) (hdepicts'.depth start)
  · rw [Forest.leaves_append, List.mem_append, hdepicts.frames, hdepicts'.frames, hshows]

variable {n k : Nat} {msg : Message} {code : Bytes} {f : Baseline.Frame} {hs : HostState}

/-- The environment of a traced frame whose nested messages have the fuel `n`. -/
def tracedEnv (ctx : HostContext) (n : Nat) (τ : Type) (observer : Observer Event Fault τ) :
    Env HostCall.Answer Fault (HostState × τ) :=
  TracedHost.answer ctx (TracedHost.call ctx Baseline.executeTraced observer n)

/-- Calls tell of executions at the depth of the message, with the frames that the call visits. -/
def CallsTell (ctx : HostContext) (n : Nat) : Prop :=
  ∀ (m : Message) (hs : HostState),
    Tells (fun _ _ => AreExecutions ctx m.depth (Visits ctx n m hs))
      (call ctx Baseline.execute n m)
      (fun _ observer => TracedHost.call ctx Baseline.executeTraced observer n m) hs

/-- An instruction tells of the executions of the messages it sends. -/
theorem tells_step (hcalls : CallsTell ctx n) (analysis : Baseline.CodeAnalysis) :
    Tells (fun _ _ => AreExecutions ctx (f.state.msg.depth + 1)
        (StepVisits ctx n (Baseline.step analysis f) hs))
      (run (frameEnv ctx n) (Baseline.step analysis f))
      (fun τ observer => run (watched (tracedEnv ctx n τ observer) observer)
        (silent (Baseline.step analysis f))) hs := by
  refine tells_silent
    (P := fun p s => AreExecutions ctx (f.state.msg.depth + 1) (StepVisits ctx n p s))
    (G := fun q s => AreExecutions ctx (f.state.msg.depth + 1)
      fun k code f' hs' => ∃ m, q = .call m ∧ Visits ctx n m s k code f' hs') ?_ ?_ ?_
  -- At a return there is nothing left to visit.
  · exact fun a s => areExecutions_nil fun _ _ _ _ ⟨m, hs', hreach, _⟩ => not_reaches_ret hreach
  · intro q k s s₁ r events events' hq hevents hrest
    -- At a question the executions below it come first, then those of the rest of the step.
    refine hevents.append hrest fun k' code f' hs' => ?_
    constructor
    · rintro (⟨m, rfl, hvisits⟩ | ⟨m, hs', hlater, hvisits⟩)
      · exact ⟨m, s, .here, hvisits⟩
      · exact ⟨m, hs', .later hq hlater, hvisits⟩
    · rintro ⟨m, hs', hreach, hvisits⟩
      rcases reaches_ask.1 hreach with ⟨rfl, rfl⟩ | ⟨r', s₂, hq', hlater⟩
      · exact .inl ⟨m, rfl, hvisits⟩
      · rw [hq] at hq'
        cases hq'
        exact .inr ⟨m, hs', hlater, hvisits⟩
  · intro q hs' hreach
    -- Only a call has executions below it, and these are those the traced call tells of.
    have hsilent : (∀ m, q ≠ .call m) → ∀ k code f' hs'',
        ¬ ∃ m, q = .call m ∧ Visits ctx n m hs' k code f' hs'' :=
      fun hq _ _ _ _ ⟨m, hm, _⟩ => hq m hm
    cases q with
    | call m =>
      rw [← Baseline.depth_of_reaches hreach]
      refine (hcalls m hs').mono fun _ _ events _ hevents => hevents.congr fun _ _ _ _ => ?_
      exact ⟨fun hvisits => ⟨m, rfl, hvisits⟩, fun ⟨m', hm, hvisits⟩ => by cases hm; exact hvisits⟩
    | _ => exact .onFirst fun _ _ _ => areExecutions_nil (hsilent fun m hm => by cases hm)

/-- The trace of the loop from a frame on. -/
structure DepictsLoop (ctx : HostContext) (n : Nat) (code : Bytes) (f : Baseline.Frame)
    (hs : HostState) (trace : Trace) : Prop where
  own : ∀ (i : Nat) (f' : Baseline.Frame), trace.own[i]? = some f' ↔
    f'.offset < code.length ∧
      ∃ hs', Baseline.Passes (frameEnv ctx n) (Baseline.analyze code) f hs i f' hs'
  faithful : trace.IsFaithful ctx (LoopVisits ctx n code f hs)
  depth : ∀ start ∈ trace.starts, start.1.depth = f.state.msg.depth + 1
  leaves : ∀ f', f' ∈ trace.leaves ↔ (LoopVisits ctx n code f hs).Shows f'

/-- The frame at the start of an instruction, unless it is in the padding. -/
def Baseline.Frame.shown (f : Baseline.Frame) (code : Bytes) : Trace :=
  if f.offset < code.length then .leaf f .nil else .nil

omit [Ethash] in
/-- A frame shows itself if it is inside of the code. -/
theorem own_shown : (f.shown code).own = if f.offset < code.length then [f] else [] := by
  unfold Baseline.Frame.shown
  split <;> rfl

omit [Ethash] in
/-- A frame shows at most itself. -/
theorem mem_leaves_shown {f' : Baseline.Frame} :
    f' ∈ (f.shown code).leaves ↔ f' = f ∧ f.offset < code.length := by
  unfold Baseline.Frame.shown
  split
  next h => simp [Forest.leaves, h]
  next h => simp [Forest.leaves, h]

/-- The frames of a loop are the first one, if it is inside of the code, and those that follow it;
nested executions do not count among them. -/
theorem own_shown_append {trace rest : Trace} (houtside : trace.own = [])
    (hin : ¬ f.offset < code.length → rest.own = [])
    (hrest : ∀ i f', rest.own[i]? = some f' ↔ f'.offset < code.length ∧
      ∃ hs', Baseline.Passes (frameEnv ctx n) (Baseline.analyze code) f hs (i + 1) f' hs')
    (i : Nat) (f' : Baseline.Frame) :
    ((f.shown code).append (trace.append rest)).own[i]? = some f' ↔ f'.offset < code.length ∧
      ∃ hs', Baseline.Passes (frameEnv ctx n) (Baseline.analyze code) f hs i f' hs' := by
  rw [Forest.own_append, own_shown, Forest.own_append, houtside, List.nil_append]
  cases i with
  | zero =>
    by_cases hoffset : f.offset < code.length
    · rw [if_pos hoffset]
      constructor
      · intro hfirst
        cases hfirst
        exact ⟨hoffset, hs, .start⟩
      · rintro ⟨-, hs', hpasses⟩
        rw [(Baseline.passes_zero.1 hpasses).1]
        rfl
    -- Outside of the code no frame is shown, neither this one nor a later one.
    · rw [if_neg hoffset, hin hoffset]
      refine iff_of_false nofun ?_
      rintro ⟨hlt, hs', hpasses⟩
      rw [(Baseline.passes_zero.1 hpasses).1] at hlt
      exact hoffset hlt
  | succ i =>
    rw [← hrest]
    by_cases hoffset : f.offset < code.length
    · simp [hoffset]
    · simp [hoffset, hin hoffset]

/-- The trace of an instruction and of what follows it, given the trace of what follows. -/
theorem depictsLoop_append (rest : Trace)
    (hstep : AreExecutions ctx (f.state.msg.depth + 1)
      (StepVisits ctx n (Baseline.step (Baseline.analyze code) f) hs) events)
    (hfaithful' : rest.IsFaithful ctx (LoopVisits ctx n code f hs))
    (hdepth' : ∀ start ∈ rest.starts, start.1.depth = f.state.msg.depth + 1)
    (hin : ¬ f.offset < code.length → rest.own = [])
    (hrest : ∀ i f', rest.own[i]? = some f' ↔ f'.offset < code.length ∧
      ∃ hs', Baseline.Passes (frameEnv ctx n) (Baseline.analyze code) f hs (i + 1) f' hs')
    (hleaves' : ∀ f', f' ∈ rest.leaves ↔ ∃ f₁ hs₁,
      run (frameEnv ctx n) (Baseline.step (Baseline.analyze code) f) hs = .ok (.cont f₁, hs₁) ∧
        (LoopVisits ctx n code f₁ hs₁).Shows f') :
    ∃ trace : Trace, trace.signals = (f.shown code).signals ++ (events ++ rest.signals) ∧
      DepictsLoop ctx n code f hs trace := by
  obtain ⟨trace, rfl, hcalls⟩ := hstep
  refine ⟨(f.shown code).append (trace.append rest), by simp, ?_, ?_, ?_, ?_⟩
  · exact own_shown_append hcalls.outside hin hrest
  · refine (Forest.all_append _ _).2 ⟨?_, (Forest.all_append _ _).2
      ⟨hcalls.faithful.mono fun _ _ _ _ h => loopVisits_iff.2 (.inr (.inl h)), hfaithful'⟩⟩
    unfold Baseline.Frame.shown
    split <;> trivial
  · have hshown : (f.shown code).starts = [] := by
      unfold Baseline.Frame.shown
      split <;> rfl
    intro start hstart
    rw [Forest.starts_append, Forest.starts_append, hshown, List.nil_append,
      List.mem_append] at hstart
    exact hstart.elim (hcalls.depth start) (hdepth' start)
  · intro f'
    rw [Forest.leaves_append, Forest.leaves_append, List.mem_append, List.mem_append,
      mem_leaves_shown, hcalls.frames, hleaves', loopVisits_shows_iff]

/-- The loop tells of the frames that it passes through without an observer. -/
theorem tells_dispatch (hcalls : CallsTell ctx n) (hcode : Baseline.InCode code f.codeIt)
    (horiginal : f.state.originalCode = code) :
    Tells (fun _ _ events => ∃ trace : Trace, trace.signals = events ∧
        DepictsLoop ctx n code f hs trace)
      (run (frameEnv ctx n) (Baseline.dispatch (Baseline.analyze code) k f))
      (fun τ observer => run (watched (tracedEnv ctx n τ observer) observer)
        (Baseline.dispatchTraced (Baseline.analyze code) k f)) hs := by
  induction k generalizing f hs with
  | zero => exact ⟨[], fun _ _ _ => rfl, fun _ _ h => by cases h⟩
  | succ k ih =>
    rw [Baseline.dispatchTraced_succ, horiginal]
    -- The frame is shown first; without an observer nothing corresponds to it.
    have hnotify : Tells (fun _ s' events => s' = hs ∧ events = (f.shown code).signals)
        (run (frameEnv ctx n) (.ret ()))
        (fun τ observer => run (watched (tracedEnv ctx n τ observer) observer)
          (if f.offset < code.length then notify (Event.instructionStart f) else .ret ())) hs := by
      unfold Baseline.Frame.shown
      split
      · exact tells_notify (frameEnv ctx n) (tracedEnv ctx n) _
      · exact tells_ret (frameEnv ctx n) _ ⟨rfl, rfl⟩
    refine (hnotify.run_bind ?_ : Tells _ (run (frameEnv ctx n)
      (.ret () >>= fun _ => Baseline.dispatch (Baseline.analyze code) (k + 1) f)) _ hs)
    rintro _ hs₀ _ - ⟨rfl, rfl⟩
    refine (tells_step hcalls _).run_bind ?_
    rintro (f₁ | ⟨gas, st⟩) hs₁ events hstep hevents
    -- The loop goes on, and the trace of the rest is that of the next frame.
    · have hcode₁ : Baseline.InCode code f₁.codeIt := (Baseline.step_inCode hcode).run hstep
      have horiginal₁ := (Baseline.step_originalCode hstep).trans horiginal
      refine (ih hcode₁ horiginal₁).mono ?_
      rintro x hs₂ _ - ⟨rest, rfl, hrest⟩
      have hfaithful := hrest.faithful.mono fun _ _ _ _ h =>
        loopVisits_iff.2 (.inr (.inr ⟨f₁, hs₁, hstep, h⟩))
      refine depictsLoop_append rest hevents hfaithful ?_ ?_ (fun i f' => ?_) fun f' => ?_
      · rw [← Baseline.step_msg hstep]
        exact hrest.depth
      · exact fun hoffset => absurd hstep (Baseline.not_cont_of_padding hcode hoffset)
      · rw [hrest.own]
        refine and_congr_right fun _ => exists_congr fun s' => ⟨.cons hstep, fun hpasses => ?_⟩
        obtain ⟨f₂, s₃, hstep', hlater⟩ := hpasses.of_succ
        rw [hstep] at hstep'
        cases hstep'
        exact hlater
      · rw [hrest.leaves]
        refine ⟨fun hshows => ⟨f₁, hs₁, hstep, hshows⟩, ?_⟩
        rintro ⟨f₂, hs₃, hstep', hshows⟩
        rw [hstep] at hstep'
        cases hstep'
        exact hshows
    · -- The instruction ends the loop, so that nothing follows.
      have hlast : ∀ f' hs', run (frameEnv ctx n) (Baseline.step (Baseline.analyze code) f) hs₀ ≠
          .ok (.cont f', hs') := by
        intro f' hs' hcont
        rw [hstep] at hcont
        cases hcont
      refine tells_ret (frameEnv ctx n) _ ?_
      refine depictsLoop_append .nil hevents trivial nofun (fun _ => rfl) (fun i f' => ?_)
        fun f' => ?_
      · refine iff_of_false nofun ?_
        rintro ⟨-, s', hpasses⟩
        obtain ⟨f₁, s₁, hcont, -⟩ := hpasses.of_succ
        exact hlast f₁ s₁ hcont
      · refine iff_of_false nofun ?_
        rintro ⟨f₁, s₁, hcont, -⟩
        exact hlast f₁ s₁ hcont

/-- An execution tells of itself. -/
theorem tells_execute (hcalls : CallsTell ctx n) :
    Tells (fun _ _ => AreExecutions ctx msg.depth (LoopVisits ctx n code (.start msg code) hs))
      (run (frameEnv ctx n) (Baseline.execute n msg code))
      (fun τ observer => run (watched (tracedEnv ctx n τ observer) observer)
        (Baseline.executeTraced n msg code)) hs := by
  -- The three parts of an execution: the start, the loop and the end.
  have hstart := tells_notify (s := hs) (frameEnv ctx n) (tracedEnv ctx n)
    (Event.executionStart msg code)
  refine (hstart.run_bind ?_ : Tells _ (run (frameEnv ctx n)
    (.ret () >>= fun _ => Baseline.execute n msg code)) _ hs)
  rintro _ hs₀ _ - ⟨rfl, rfl⟩
  have hloop : Tells _ (run (frameEnv ctx n)
      (Baseline.dispatch (Baseline.analyze code) n (.start msg code))) _ hs₀ :=
    tells_dispatch hcalls (Baseline.inCode_zero code) rfl
  refine hloop.run_bind ?_
  rintro ⟨gas, st⟩ hs₁ _ hrun ⟨inner, rfl, hshows⟩
  have hend := tells_notify (s := hs₁) (frameEnv ctx n) (tracedEnv ctx n)
    (Event.executionEnd (st.result gas))
  refine (hend.run_bind ?_ : Tells _ (run (frameEnv ctx n)
    (.ret () >>= fun _ => .ret (st.result gas))) _ hs₁)
  rintro _ hs₂ _ - ⟨rfl, rfl⟩
  refine tells_ret (frameEnv ctx n) _
    ⟨.node (msg, code) inner (st.result gas) .nil, ?_, rfl, ?_, ?_, fun f' => ?_⟩
  · simp [Forest.signals]
  · refine ⟨⟨n, hs₀, ⟨0, _, _, .start, .inl ⟨rfl, rfl, rfl, rfl⟩⟩, ⟨hs₂, ?_⟩, hshows.own,
      hshows.depth⟩, hshows.faithful, trivial⟩
    rw [Baseline.run_execute, hrun]
  · intro start hstart
    obtain rfl := List.mem_singleton.1 hstart
    rfl
  · rw [Forest.leaves, List.mem_append, hshows.leaves]
    exact or_iff_left List.not_mem_nil

/-- A call with a traced virtual machine does what it does without tracing, and tells of executions
at the depth of the message with the frames that it visits. -/
theorem tells_call (ctx : HostContext) (n : Nat) : CallsTell ctx n := by
  induction n with
  | zero => exact fun m hs => ⟨[], fun _ _ _ => rfl, fun _ _ h => by cases h⟩
  | succ n ih =>
    intro m hs
    refine tells_callWith ⟨fun {m' code hs'} henters => ?_, fun hnone => ?_⟩
    · rw [← henters.depth_gas.1]
      exact (tells_execute ih).mono fun _ _ events _ hevents =>
        hevents.congr fun _ _ _ _ => (visits_succ_iff henters).symm
    · exact areExecutions_nil fun _ _ _ _ => not_visits hnone

end

end Zvmone
