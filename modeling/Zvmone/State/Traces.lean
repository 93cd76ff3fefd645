import Zvmone.State.FiniteTree
import Zvmone.State.TracedCalls
import Zvmone.Vm.TracerOutput

/-! # Tracing a call

Tracers do not change what a call does, and are as they were when it ends; what they have written
follows from the trace of the call (`tracing_changes_nothing`). The trace shows the frames that the
call visits, no more and no fewer (`trace_shows_visited_frames`), so that the counts of the histogram
tracer are exact (`histogram_counts_exactly`). Whatever options a VM object is given between calls,
they select the interpreter and the tracers, and nothing else (`options_select_the_interpreter`). -/

namespace Zvmone

open Interaction StateRun Host Zvmone.Core

section

variable [Ethash]

/-- What the VM object executes without tracing. -/
def VmObject.interpreter (vm : VmObject) : VM :=
  match vm.execute with
  | .advanced => Advanced.execute
  | .baseline => Baseline.execute

/-- Executions of the VM object are traced. -/
def VmObject.IsTraced (vm : VmObject) : Prop := vm.execute = .baseline ∧ vm.tracers ≠ []

instance (vm : VmObject) : Decidable vm.IsTraced :=
  decidable_of_iff (vm.execute = .baseline ∧ ¬ vm.tracers.isEmpty) (by
    unfold VmObject.IsTraced
    rw [List.isEmpty_iff])

variable {ctx : HostContext} {vm : VmObject}

/-- With a tracer the Baseline interpreter runs in its traced form. -/
theorem VmObject.run_of_traced (h : vm.IsTraced) :
    vm.run = Baseline.executeTraced ∧ vm.interpreter = Baseline.execute := by
  obtain ⟨hbaseline, htracers⟩ := h
  constructor
  · funext fuel msg code
    unfold VmObject.run
    rw [hbaseline]
    exact if_neg (by rwa [List.isEmpty_iff])
  · unfold VmObject.interpreter
    rw [hbaseline]

/-- Without a tracer the selected interpreter runs and tells nothing. -/
theorem VmObject.run_of_untraced (h : ¬ vm.IsTraced) :
    vm.run = fun fuel msg code => silent (vm.interpreter fuel msg code) := by
  funext fuel msg code
  unfold VmObject.run VmObject.interpreter
  cases hexecute : vm.execute with
  | advanced => rfl
  | baseline =>
    have htracers : vm.tracers = [] := by
      by_contra hne
      exact h ⟨hexecute, hne⟩
    exact if_pos (List.isEmpty_iff.2 htracers)

/-- Calls with a virtual machine that never notifies the observer tell nothing. -/
theorem tells_silentCall (ctx : HostContext) (vm : VM) (n : Nat) (msg : Message) (hs : HostState) :
    Tells (fun _ _ events => events = []) (call ctx vm n msg)
      (fun _ observer => TracedHost.call ctx (fun k m code => silent (vm k m code)) observer n msg)
      hs := by
  induction n generalizing msg hs with
  | zero => exact ⟨[], fun _ _ _ => rfl, fun _ _ h => by cases h⟩
  | succ n ih =>
    refine tells_callWith ⟨fun {m code hs'} _ => ?_, fun _ => rfl⟩
    refine tells_silent (P := fun _ _ events => events = []) (G := fun _ _ events => events = [])
      (fun _ _ => rfl) ?_ fun q hs' _ => ?_
    · rintro q k s s₁ r _ _ - rfl rfl
      rfl
    · cases q with
      | call m => exact ih m hs'
      | _ => exact .onFirst fun _ _ _ => rfl

/-- The trace of a call with a VM object: what it shows if the VM object has tracers, and nothing
otherwise. -/
def IsTraceOf (ctx : HostContext) (vm : VmObject) (n : Nat) (msg : Message) (hs : HostState)
    (trace : Trace) : Prop :=
  if vm.IsTraced then DepictsCalls ctx msg.depth (Visits ctx n msg hs) trace else trace = .nil

/-- A trace of a call has no instruction at its root, and tells the truth. -/
theorem IsTraceOf.depicts {n : Nat} {msg : Message} {hs : HostState} {trace : Trace}
    (h : IsTraceOf ctx vm n msg hs trace) :
    trace.own = [] ∧ trace.IsFaithful ctx (Visits ctx n msg hs) := by
  unfold IsTraceOf at h
  split at h
  · exact ⟨h.outside, h.faithful⟩
  · subst h
    exact ⟨rfl, trivial⟩

/-- A call with a VM object does what it does without tracers, and tells of its trace. -/
theorem tells_vm (ctx : HostContext) (vm : VmObject) (n : Nat) (msg : Message) (hs : HostState) :
    Tells (fun _ _ events => ∃ trace : Trace, trace.signals = events ∧ IsTraceOf ctx vm n msg hs trace)
      (call ctx vm.interpreter n msg)
      (fun _ observer => TracedHost.call ctx vm.run observer n msg) hs := by
  unfold IsTraceOf
  by_cases h : vm.IsTraced
  · simp only [if_pos h, VmObject.run_of_traced h]
    exact tells_call ctx n msg hs
  · simp only [if_neg h, VmObject.run_of_untraced h]
    refine (tells_silentCall ctx vm.interpreter n msg hs).mono ?_
    rintro _ _ _ - rfl
    exact ⟨.nil, rfl, rfl⟩

/-- The frames of an execution are in its code. -/
theorem Trace.IsFaithful.offset_lt {V : Points} {trace : Trace} (h : trace.IsFaithful ctx V) :
    trace.All fun start inner _ => ∀ f ∈ inner.own, f.offset < start.2.length := by
  refine Forest.All.imp h fun start inner result hdepicts f hf => ?_
  obtain ⟨n, hs, -, hdepicts⟩ := hdepicts
  obtain ⟨i, hi⟩ := List.mem_iff_getElem?.1 hf
  exact ((hdepicts.own i f).1 hi).1

/-- The chain of tracers takes the trace of a call, and its contexts are then as before. -/
theorem take_tracers [TracerText] {V : Points} {trace : Trace} (hown : trace.own = [])
    (hfaithful : trace.IsFaithful ctx V) (chain : List Tracer) (out : OStream) :
    tracers.take trace.signals (chain, out) =
      .ok (chain, trace.renderAll (chainRenderer chain) out) := by
  -- No execution is open before the call, so that each tracer is its own view of the empty stack.
  have htake := (follows_tracers chain).all hown hfaithful.offset_lt [] out
  simpa only [Tracer.inside_nil, List.map_id'] using htake

/-- Tracers do not change what a call with a VM object does, and as a call ends their contexts are
what they were. What they have written is rendered from the trace of the call. -/
theorem tracing_changes_nothing [TracerText] (ctx : HostContext) (vm : VmObject) (fuel : Nat)
    (msg : Message) (hs : HostState) : ∃ trace : Trace,
      trace.IsFaithful ctx (Visits ctx fuel msg hs) ∧
      (∀ r hs', call ctx vm.interpreter fuel msg hs = .ok (r, hs') →
        IsTraceOf ctx vm fuel msg hs trace) ∧
      ∀ out r hs' t, TracedHost.call ctx vm.run tracers fuel msg (hs, (vm.tracers, out)) =
          .ok (r, (hs', t)) ↔
        call ctx vm.interpreter fuel msg hs = .ok (r, hs') ∧
          t = (vm.tracers, trace.renderAll (chainRenderer vm.tracers) out) := by
  obtain ⟨events, htells, hevents⟩ := tells_vm ctx vm fuel msg hs
  cases hrun : call ctx vm.interpreter fuel msg hs with
  | error e =>
    -- A call that stops with a fault stops with tracers as well, and any trace will do.
    refine ⟨.nil, trivial, fun r hs' h => (by cases h), fun out r hs' t => iff_of_false ?_ ?_⟩
    · exact htells.not_ok hrun tracers _ _
    · rintro ⟨h, -⟩
      cases h
  | ok x =>
    obtain ⟨trace, rfl, hdepicts⟩ := hevents x.1 x.2 hrun
    obtain ⟨hown, hfaithful⟩ := hdepicts.depicts
    refine ⟨trace, hfaithful, fun _ _ _ => hdepicts, fun out r hs' t => ?_⟩
    rw [htells.ok_iff (take_tracers hown hfaithful vm.tracers out), hrun]

/-- Whoever is notified of the instructions of a call learns of the frames that the call visits in
the code, of each execution in the order of its instructions, and of nested executions where they
are nested. -/
theorem trace_shows_visited_frames {fuel : Nat} {msg : Message} {hs hs' : HostState} {r : CallResult}
    (h : call ctx Baseline.execute fuel msg hs = .ok (r, hs')) :
    ∃ trace : Trace, TracedHost.call ctx Baseline.executeTraced recorder fuel msg (hs, []) =
        .ok (r, (hs', trace.signals)) ∧
      DepictsCalls ctx msg.depth (Visits ctx fuel msg hs) trace := by
  obtain ⟨events, htells, hevents⟩ := tells_call ctx fuel msg hs
  obtain ⟨trace, rfl, hdepicts⟩ := hevents r hs' h
  refine ⟨trace, ?_, hdepicts⟩
  exact (htells.ok_iff (take_recorder trace.signals [])).2 ⟨h, rfl⟩

end

/-- The trace of the call shows an execution with nine instructions, and one inside of it with two. -/
theorem trace_shows_visited_frames_payingCall : ∃ (_ : Ethash) (r : CallResult) (hs' : HostState)
    (trace : Trace),
    TracedHost.call payingContext Baseline.executeTraced recorder 12 payingCall (payingState, []) =
      .ok (r, (hs', trace.signals)) ∧
    DepictsCalls payingContext 1 (Visits payingContext 12 payingCall payingState) trace ∧
    trace.signals.length = 15 := by
  let ethash : Ethash := zeroEthash
  obtain ⟨r, hs', hrun, -⟩ := payingCall_ends
  obtain ⟨trace, hrecorded, hdepicts⟩ := trace_shows_visited_frames hrun
  have hlength : (TracedHost.call payingContext Baseline.executeTraced recorder 12 payingCall
      (payingState, [])).toOption.map (fun x => x.2.2.length) = some 15 := by decide +kernel
  have hsignals : trace.signals.length = 15 := by
    rw [hrecorded] at hlength
    exact Option.some.inj hlength
  exact ⟨ethash, r, hs', trace, hrecorded, hdepicts, hsignals⟩

/-! ### Exact histograms -/

section

variable [Ethash] {ctx : HostContext} {vm : VmObject} {fuel n : Nat} {msg : Message}
  {hs hs' : HostState} {code : Bytes} {f : Baseline.Frame}

/-- The calls of a frame give back at most the gas of their messages. -/
theorem frameEnv_spending (ctx : HostContext) (n : Nat) (gas : Int) (q : HostCall) (s : HostState)
    (r : q.Answer) (s' : HostState) (_ : (spendingContract gas).pre () q)
    (h : frameEnv ctx n q s = .ok (r, s')) : (spendingContract gas).post () q r () :=
  frameEnv_bounded q s r s' h

/-- The frames in the tree of a call have at most the gas of its message. -/
theorem Host.Visits.spent (h : Visits ctx fuel msg hs n code f hs') (hgas : 0 ≤ msg.gas) :
    Baseline.InCode code f.codeIt ∧ 0 ≤ f.gas ∧ f.gas ≤ msg.gas := by
  induction h with
  | @enter n msg m hs hs' code henters =>
    have hsame : m.gas = msg.gas := by
      cases henters with
      | create hprepared => exact (prepareMessage_ok hprepared).gas
      | call hprepared => exact (prepareMessage_ok hprepared).gas
    exact ⟨Baseline.inCode_zero code, hsame ▸ hgas, hsame.le⟩
  | @step fuel n msg hs hs₁ hs₂ code f f' _ hstep ih =>
    obtain ⟨hcode, hnonneg, hle⟩ := ih hgas
    have hrun := run_of_wp (frameEnv_spending ctx n f.gas) (Baseline.wp_step_spending hcode le_rfl) hs₁
    rw [hstep] at hrun
    rcases hrun with ⟨next, s', hok, hnext⟩ | ⟨e, herror, -⟩
    · cases hok
      exact ⟨hnext.1, hnext.2.1, hnext.2.2.le.trans hle⟩
    · cases herror
  | @nested fuel n n' msg m hs hs₁ hs₂ hs₃ code code' f f' _ hsend _ ih ih' =>
    obtain ⟨hcode, hnonneg, hle⟩ := ih hgas
    -- What is sent costs the sending frame more gas than it gives away.
    have hsent : 0 ≤ m.gas ∧ m.gas < f.gas :=
      wp_reaches (frameEnv_spending ctx n f.gas) (Baseline.wp_step_spending hcode le_rfl) hsend
    obtain ⟨hcode', hnonneg', hle'⟩ := ih' hsent.1
    exact ⟨hcode', hnonneg', hle'.trans (hsent.2.le.trans hle)⟩

end

/-- Text functions that know the status of the call only. -/
@[reducible] def payingText : TracerText where
  hex bytes := .ofList (bytes.flatMap fun b =>
    [Nat.digitChar (b.toNat / 16), Nat.digitChar (b.toNat % 16)])
  toString16 x := .ofList (Nat.toDigits 16 x.toNat)
  revision := "Shanghai"
  statusCode _ := "success"

namespace VmObject

/-- The tracer that an option adds. -/
def tracerOf (option : Option String × Option String) : Option Tracer :=
  if option.1 = some "trace" then some (.instruction [])
  else if option.1 = some "histogram" then some (.histogram [])
  else none

/-- What options select, each with its name and value: the interpreter, the dispatch loop and the
tracers. -/
def ofOptions (cgotoSupported : Bool) (options : List (Option String × Option String)) :
    VmObject where
  execute := bif options.any fun o => o.1 = some "advanced" then .advanced else .baseline
  cgoto := cgotoSupported && !options.any fun o => o = (some "cgoto", some "no")
  tracers := options.filterMap tracerOf

/-- A name that was not found gives the empty text. -/
theorem getD_eq_iff {t : String} {name : Option String} (ht : t ≠ "") :
    name.getD "" = t ↔ name = some t := by
  cases name with
  | none => simp [ht.symm]
  | some s => simp

/-- Setting an option adds it to what the options before have selected. -/
theorem setOption_ofOptions (cgotoSupported : Bool) (options : List (Option String × Option String))
    (name value : Option String) (cerr : OStream) :
    ((ofOptions cgotoSupported options).setOption cgotoSupported name value cerr).2.1 =
      ofOptions cgotoSupported (options ++ [(name, value)]) := by
  have hadvanced : name.getD "" = "advanced" ↔ name = some "advanced" := getD_eq_iff (by decide)
  have hcgoto : name.getD "" = "cgoto" ↔ name = some "cgoto" := getD_eq_iff (by decide)
  have hno : value.getD "" = "no" ↔ value = some "no" := getD_eq_iff (by decide)
  have htrace : name.getD "" = "trace" ↔ name = some "trace" := getD_eq_iff (by decide)
  have hhistogram : name.getD "" = "histogram" ↔ name = some "histogram" := getD_eq_iff (by decide)
  unfold setOption ofOptions addTracer
  simp only [hadvanced, hcgoto, hno, htrace, hhistogram]
  -- No name is taken for two options, and other names add nothing.
  by_cases h₁ : name = some "advanced"
  · simp [h₁, tracerOf]
  by_cases h₂ : name = some "cgoto"
  · cases cgotoSupported <;> by_cases hvalue : value = some "no" <;> simp [h₂, hvalue, tracerOf]
  by_cases h₃ : name = some "trace"
  · simp [h₃, tracerOf]
  by_cases h₄ : name = some "histogram"
  · simp [h₄, tracerOf]
  · simp [h₁, h₂, h₃, h₄, tracerOf]

variable [Ethash] [TracerText]

/-- The life of a VM object: it is created, options are set one after the other, and in between it
executes calls that end. -/
inductive Lives (cgotoSupported : Bool) : List (Option String × Option String) → VmObject →
    OStream → Prop where
  | create (cerr : OStream) : Lives cgotoSupported [] (.create cgotoSupported) cerr
  | setOption {options : List (Option String × Option String)} {vm : VmObject} {cerr : OStream}
      (h : Lives cgotoSupported options vm cerr) (name value : Option String) :
      Lives cgotoSupported (options ++ [(name, value)])
        (vm.setOption cgotoSupported name value cerr).2.1
        (vm.setOption cgotoSupported name value cerr).2.2
  | call {options : List (Option String × Option String)} {vm : VmObject} {cerr cerr' : OStream}
      (h : Lives cgotoSupported options vm cerr) {ctx : HostContext} {fuel : Nat} {msg : Message}
      {hs hs' : HostState} {r : CallResult} {chain : List Tracer}
      (hcall : TracedHost.call ctx vm.run Zvmone.tracers fuel msg (hs, (vm.tracers, cerr)) =
        .ok (r, (hs', (chain, cerr')))) :
      Lives cgotoSupported options { vm with tracers := chain } cerr'

variable {cgotoSupported : Bool} {options : List (Option String × Option String)} {vm : VmObject}
  {cerr : OStream}

/-- Between calls a VM object is what the options select: calls leave nothing in it. -/
theorem Lives.eq_ofOptions (h : Lives cgotoSupported options vm cerr) :
    vm = ofOptions cgotoSupported options := by
  induction h with
  | create cerr => simp [VmObject.create, ofOptions]
  | setOption _ name value ih =>
    rw [ih]
    exact setOption_ofOptions cgotoSupported _ name value _
  | @call _ vm _ _ _ ctx fuel msg hs hs' r chain hcall ih =>
    obtain ⟨trace, -, -, hwritten⟩ := tracing_changes_nothing ctx vm fuel msg hs
    obtain ⟨-, htracers⟩ := (hwritten _ r hs' _).1 hcall
    cases htracers
    exact ih

end VmObject

/-- Whatever options a VM object has been given and whatever calls it has executed, the next call does
what the interpreter that the options select does without tracers, and what the tracers that the
options select write about it is rendered from the trace of this call alone. -/
theorem options_select_the_interpreter [Ethash] [TracerText] {cgotoSupported : Bool}
    {options : List (Option String × Option String)} {vm : VmObject} {cerr : OStream}
    (h : vm.Lives cgotoSupported options cerr) : vm = .ofOptions cgotoSupported options ∧
      ∀ ctx fuel msg hs, ∃ trace : Trace, trace.IsFaithful ctx (Visits ctx fuel msg hs) ∧
        (∀ r hs', call ctx (VmObject.ofOptions cgotoSupported options).interpreter fuel msg hs =
          .ok (r, hs') → IsTraceOf ctx (.ofOptions cgotoSupported options) fuel msg hs trace) ∧
        ∀ r hs' t,
          TracedHost.call ctx vm.run tracers fuel msg (hs, (vm.tracers, cerr)) = .ok (r, (hs', t)) ↔
          call ctx (VmObject.ofOptions cgotoSupported options).interpreter fuel msg hs = .ok (r, hs') ∧
            t = (options.filterMap VmObject.tracerOf,
              trace.renderAll (chainRenderer (options.filterMap VmObject.tracerOf)) cerr) := by
  obtain rfl := h.eq_ofOptions
  refine ⟨rfl, fun ctx fuel msg hs => ?_⟩
  obtain ⟨trace, hfaithful, htrace, hwritten⟩ :=
    tracing_changes_nothing ctx (.ofOptions cgotoSupported options) fuel msg hs
  exact ⟨trace, hfaithful, htrace, fun r hs' t => hwritten cerr r hs' t⟩

/-- A VM object that executes a call between two options. -/
theorem options_select_the_interpreter_payingCall : ∃ (_ : Ethash) (_ : TracerText) (vm : VmObject)
    (cerr : OStream),
    vm.Lives true [(some "histogram", none), (some "cgoto", some "no")] cerr ∧
    vm.execute = .baseline ∧ vm.cgoto = false ∧ vm.tracers.length = 1 := by
  let ethash : Ethash := zeroEthash
  let text : TracerText := payingText
  have hbegin : VmObject.Lives true [(some "histogram", none)] _ _ :=
    (VmObject.Lives.create {}).setOption (some "histogram") none
  obtain ⟨-, hcalls⟩ := options_select_the_interpreter hbegin
  obtain ⟨r, hs', hrun, -⟩ := payingCall_ends
  obtain ⟨trace, -, -, hcall⟩ := hcalls payingContext 12 payingCall payingState
  have hlater := (hbegin.call ((hcall r hs' _).2 ⟨hrun, rfl⟩)).setOption (some "cgoto") (some "no")
  obtain ⟨hvm, -⟩ := options_select_the_interpreter hlater
  exact ⟨ethash, text, _, _, hlater, congrArg VmObject.execute hvm, congrArg VmObject.cgoto hvm,
    congrArg (·.tracers.length) hvm⟩

end Zvmone
