import Zvmone.State.CallTree
import Zvmone.Vm.Tracing

/-! # The host beside an observer

`Host::call` once more, over a virtual machine that notifies an observer: the state has that of the
observer as its second part, which nested calls pass on. The host itself notifies nobody, so that its
methods work on the first part only. -/

namespace Zvmone

open Interaction StateRun

namespace TracedHost

/-- Computations on the host state and the state of an observer. -/
abbrev TracedS (τ α : Type) := StateT (HostState × τ) (Except Fault) α

/-- What runs the code of a message. -/
abbrev TracedExec (τ : Type) := Message → Bytes → TracedS τ CallResult

variable [Ethash] {τ : Type}

/-- `create`. -/
def create (exec : TracedExec τ) (msg : Message) : TracedS τ CallResult := do
  onFirst (Host.assert msg.kind.IsCreate)
  if ← onFirst (Host.enterCreate msg) then
    let result ← exec { msg with inputData := [] } msg.inputData
    onFirst (Host.deploy msg result)
  else
    return { statusCode := .failure }

/-- `execute_message`. -/
def executeMessage (exec : TracedExec τ) (msg : Message) : TracedS τ CallResult := do
  if msg.kind.IsCreate then create exec msg
  else do
    onFirst (Host.enterCall msg)
    match ← onFirst (Host.callPrecompile msg) with
    | some precompiledResult => return precompiledResult
    | none => do
      let dstAcc ← onFirst (Host.find (if msg.kind = .call then msg.recipient else msg.codeAddress))
      let code := match dstAcc with
        | some acc => acc.code
        | none => []
      exec msg code

/-- `call`, given what runs the code of a message. -/
def callWith (exec : TracedExec τ) (origMsg : Message) : TracedS τ CallResult := do
  match ← onFirst (Host.prepareMessage origMsg) with
  | none => return { statusCode := .failure, gasLeft := origMsg.gas }
  | some msg => do
    let snapshot ← onFirst get
    let result ← executeMessage exec msg
    if result.statusCode ≠ .success then
      onFirst (modify (Host.revert snapshot))
    return result

/-- The host as the environment of an interpreter, given its method `call`; the other methods do not
use it. -/
def answer (ctx : HostContext) (call : Message → TracedS τ CallResult) :
    Env HostCall.Answer Fault (HostState × τ)
  | .call msg => call msg
  | q => onFirst (Host.answer ctx (fun _ _ => .error .forbidden) q)

/-- `call`, with what the VM runs for a message and a code. -/
def call (ctx : HostContext) (vm : Nat → Message → Bytes → TracedM CallResult)
    (observer : Observer Event Fault τ) : Nat → Message → TracedS τ CallResult
  | 0 => fun _ _ => .error .outOfFuel
  | fuel + 1 => callWith fun msg code =>
    run (watched (answer ctx (call ctx vm observer fuel)) observer) (vm fuel msg code)

end TracedHost

/-! ### The host does not notice the observer -/

section

variable [Ethash] {msg msg' : Message} {hs hs₁ hs' : HostState} {exec : Host.Exec}
  {exec' : ∀ τ : Type, Observer Event Fault τ → TracedHost.TracedExec τ} {Good : List Event → Prop}

/-- What a call may tell: the events of the code that it runs, or none if it runs no code. -/
structure TellsOfFrame (Good : List Event → Prop) (msg : Message) (hs : HostState)
    (exec : Host.Exec) (exec' : ∀ τ : Type, Observer Event Fault τ → TracedHost.TracedExec τ) :
    Prop where
  frame : ∀ {m code hs'}, Host.Enters msg hs m code hs' →
    Tells (fun _ _ => Good) (exec m code) (fun τ observer => exec' τ observer m code) hs'
  none : (∀ m code hs', ¬ Host.Enters msg hs m code hs') → Good []

omit [Ethash] in
/-- A method of the host tells nothing. -/
theorem tells_onFirst {α : Type} (m : HostS α) :
    Tells (fun _ _ events => events = ([] : List Event)) m (fun _ _ => onFirst m) hs :=
  .onFirst fun _ _ _ => rfl

/-- A creation tells what its execution tells. -/
theorem tells_create (h : TellsOfFrame Good msg hs exec exec')
    (hprepared : Host.prepareMessage msg hs = .ok (some msg', hs₁)) (hkind : msg'.kind.IsCreate) :
    Tells (fun _ _ => Good) (Host.create exec msg')
      (fun τ observer => TracedHost.create (exec' τ observer) msg') hs₁ := by
  unfold Host.create TracedHost.create
  refine (tells_onFirst _).bind ?_
  rintro _ hs₂ _ hassert rfl
  obtain ⟨-, rfl⟩ := Host.assert_eq_ok.1 hassert
  refine (tells_onFirst _).bind ?_
  rintro entered hs₃ _ henter rfl
  refine .ite (fun hentered => ?_) fun hcollision => .pure (h.none ?_)
  · subst hentered
    refine (h.frame (.create hprepared hkind henter)).bind ?_
    intro result hs₄ events _ hevents
    refine (tells_onFirst _).mono ?_
    rintro _ _ _ - rfl
    simpa using hevents
  -- After a collision no code is entered, so there is nothing to tell.
  · intro m code hs' henters
    cases henters with
    | create hprepared' _ henter' =>
      cases hprepared.symm.trans hprepared'
      cases henter.symm.trans henter'
      exact hcollision rfl
    | call hprepared' hkind' =>
      cases hprepared.symm.trans hprepared'
      exact hkind' hkind

/-- An executed message tells what its code tells. -/
theorem tells_executeMessage (h : TellsOfFrame Good msg hs exec exec')
    (hprepared : Host.prepareMessage msg hs = .ok (some msg', hs₁)) :
    Tells (fun _ _ => Good) (Host.executeMessage exec msg')
      (fun τ observer => TracedHost.executeMessage (exec' τ observer) msg') hs₁ := by
  unfold Host.executeMessage TracedHost.executeMessage
  refine .ite (fun hkind => tells_create h hprepared hkind) fun hkind => ?_
  refine (tells_onFirst _).bind ?_
  rintro _ hs₂ _ henter rfl
  refine (tells_onFirst _).bind ?_
  rintro served hs₃ _ hserved rfl
  cases served with
  | some result =>
    refine .pure (h.none fun m code hs' henters => ?_)
    cases henters with
    | create hprepared' hkind' =>
      cases hprepared.symm.trans hprepared'
      exact hkind hkind'
    | call hprepared' _ henter' hserved' =>
      cases hprepared.symm.trans hprepared'
      cases henter.symm.trans henter'
      cases hserved.symm.trans hserved'
  | none =>
    refine (tells_onFirst _).bind ?_
    rintro dstAcc hs₄ _ hfind rfl
    obtain ⟨rfl, rfl⟩ := Host.find_eq_ok.1 hfind
    have hframe := h.frame (.call hprepared hkind henter hserved)
    -- The precompiles leave the accounts alone.
    obtain ⟨-, rfl⟩ := Host.callPrecompile_ok hserved
    rw [Host.codeOf, Host.accountOr] at hframe
    cases hacc : hs₂.state.find (if msg'.kind = .call then msg'.recipient else msg'.codeAddress) with
    | none => simpa only [hacc, Option.getD_none, List.nil_append] using hframe
    | some acc => simpa only [hacc, Option.getD_some, List.nil_append] using hframe

/-- A call tells what the code that it runs tells. -/
theorem tells_callWith (h : TellsOfFrame Good msg hs exec exec') :
    Tells (fun _ _ => Good) (Host.callWith exec msg)
      (fun τ observer => TracedHost.callWith (exec' τ observer) msg) hs := by
  unfold Host.callWith TracedHost.callWith
  refine (tells_onFirst _).bind ?_
  rintro prepared hs₁ _ hprepared rfl
  cases prepared with
  | none =>
    refine .pure (h.none fun m code hs' henters => ?_)
    cases henters with
    | create hprepared' => cases hprepared.symm.trans hprepared'
    | call hprepared' => cases hprepared.symm.trans hprepared'
  | some msg' =>
    refine (tells_onFirst get).bind ?_
    rintro snapshot hs₂ _ hget rfl
    obtain ⟨rfl, rfl⟩ := get_eq_ok.1 hget
    refine (tells_executeMessage h hprepared).bind ?_
    intro result hs₃ events _ hevents
    refine .ite (fun _ => ?_) fun _ => .pure (by simpa using hevents)
    refine (tells_onFirst _).bind ?_
    rintro _ hs₄ _ - rfl
    exact .pure (by simpa using hevents)

end

end Zvmone
