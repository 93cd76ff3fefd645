import Zvmone.State.Twins

/-! # Machines that can be exchanged

A machine that replaces the Baseline interpreter in one frame (`VM.Replaces`) replaces it in a whole
tree of calls, where it also answers the messages of its own frames: from twin host states the
calls end in twins, with results that are alike (`tracks_call`). -/

namespace Zvmone

open Interaction StateRun Zvmone.Core Host

namespace Host

/-! ### The cache after a call -/

section cache

variable [Ethash] {ctx : HostContext} {K : Set Bytes} {hs hs' : HostState} {msg : Message}

/-- The inputs of the identity function that the call of `msg` meets are in `K`. -/
def InputsIn (ctx : HostContext) (K : Set Bytes) (fuel : Nat) (msg : Message) (hs : HostState) :
    Prop :=
  ∀ {n m hs'}, Calls ctx Baseline.execute fuel msg hs n m hs' → m.codeAddress = 3 → m.inputData ∈ K

omit [Ethash] in
/-- The nonce update keeps the cache. -/
theorem cache_of_bumped (hs : HostState) (msg : Message) (acc : Account) :
    (bumped hs msg acc).cache = hs.cache := by
  unfold bumped
  split <;> rfl

/-- `prepare_message` keeps the cache. -/
theorem Prepared.cache {prepared : Option Message} (h : Prepared msg hs prepared hs') :
    hs'.cache = hs.cache := by
  cases h with
  | refused => rfl
  | call => exact cache_of_bumped _ _ _
  | create => exact cache_of_bumped _ _ _

omit [Ethash] in
/-- A transfer keeps the cache. -/
theorem transfer_cache {sender recipient : Address} {value : Word} {u : Unit}
    (h : transfer sender recipient value hs = .ok (u, hs')) : hs'.cache = hs.cache := by
  obtain ⟨_, _, -, -, -, rfl⟩ := transfer_ok h
  rfl

omit [Ethash] in
/-- Entering a call keeps the cache. -/
theorem enterCall_cache {u : Unit} (h : enterCall msg hs = .ok (u, hs')) :
    hs'.cache = hs.cache := by
  rcases enterCall_ok h with ⟨-, rfl⟩ | ⟨-, -, htransfer⟩
  · rfl
  · exact (transfer_cache htransfer).trans rfl

/-- Only `call` changes the cache. -/
theorem answer_cache {call : Message → HostS CallResult} {q : HostCall} (hq : ∀ m, q ≠ .call m)
    {r : q.Answer} (h : answer ctx call q hs = .ok (r, hs')) : hs'.cache = hs.cache := by
  cases q with
  | accountExists addr => rw [accountExists_ok h]
  | getStorage addr key => rw [(getStorage_ok h).1]
  | setStorage addr key value =>
    obtain ⟨_, -, -, rfl⟩ := setStorage_ok h
    rfl
  | getBalance addr => rw [(getBalance_ok h).1]
  | getCodeSize addr => rw [getCodeSize_ok h]
  | getCodeHash addr => rw [getCodeHash_ok h]
  | copyCode addr codeOffset bufferSize => rw [copyCode_ok h]
  | call m => exact absurd rfl (hq m)
  | getTxContext => rw [getTxContext_ok h]
  | getBlockHash number => rw [show hs' = hs from @getBlockHash_ok hs hs' number r h]
  | emitLog addr data topics => rw [emitLog_ok h]
  | accessAccount addr => rw [(accessAccount_ok h).1]; rfl
  | accessStorage addr key =>
    obtain ⟨_, -, -, rfl⟩ := accessStorage_ok h
    rfl

/-- A message that was executed leaves a sound cache, if its code does. -/
theorem Executed.sound {exec : Exec} {msg' : Message} {hs₁ : HostState} {r : CallResult}
    (hprepared : prepareMessage msg hs = .ok (some msg', hs₁))
    (h : Executed exec msg' hs₁ r hs') (hsound : Precompiles.Cache.Sound K hs₁.cache)
    (hK : msg'.codeAddress = 3 → msg'.inputData ∈ K)
    (hexec : ∀ {m code s r s'}, Enters msg hs m code s → exec m code s = .ok (r, s') →
      Precompiles.Cache.Sound K s.cache → Precompiles.Cache.Sound K s'.cache) :
    Precompiles.Cache.Sound K hs'.cache := by
  cases h with
  | collision => exact hsound
  | create hkind hnonce hcode htransfer hrun hdeploy =>
    have hentered := enterCreate_of_fresh ⟨hnonce, hcode⟩ htransfer
    have hstart := (transfer_cache htransfer).trans (setAcc_cache _ _ _)
    have hend := hexec (.create hprepared hkind hentered) hrun (hstart ▸ hsound)
    cases hdeploy <;> exact hend
  | precompile hkind henter =>
    exact Precompiles.callPrecompile_sound (enterCall_cache henter ▸ hsound) hK
  | call hkind henter hresult hrun =>
    exact hexec (.call hprepared hkind henter (callPrecompile_of_result hresult)) hrun
      (Precompiles.callPrecompile_sound (enterCall_cache henter ▸ hsound) hK)

/-- Only the recipient of a message is filled in. -/
theorem Prepared.rest {msg' : Message} (h : Prepared msg hs (some msg') hs') :
    msg' = { msg with recipient := msg'.recipient } := by
  cases h <;> rfl

/-- `prepare_message` keeps the recipient of a call. -/
theorem Prepared.recipient {msg' : Message} (h : Prepared msg hs (some msg') hs')
    (hkind : ¬ msg'.kind.IsCreate) : msg'.recipient = msg.recipient := by
  cases h with
  | call => rfl
  | create _ _ hcreate => exact absurd hcreate hkind

/-- A call leaves a sound cache. -/
theorem call_sound {fuel : Nat} {r : CallResult}
    (hrun : call ctx Baseline.execute fuel msg hs = .ok (r, hs'))
    (hK : InputsIn ctx K fuel msg hs) (hsound : Precompiles.Cache.Sound K hs.cache) :
    Precompiles.Cache.Sound K hs'.cache := by
  induction fuel generalizing msg hs r hs' with
  | zero => cases hrun
  | succ n ih =>
    have hexec : ∀ {m code s r s'}, Enters msg hs m code s →
        execVm ctx Baseline.execute (call ctx Baseline.execute n) n m code s = .ok (r, s') →
        Precompiles.Cache.Sound K s.cache → Precompiles.Cache.Sound K s'.cache := by
      intro m code s r s' henters hcode hs
      refine invariant_of_reaches (I := fun s => Precompiles.Cache.Sound K s.cache) ?_ hs hcode
      intro q s₁ r s₂ hreach hs₁ hq
      by_cases hcall : ∃ m', q = .call m'
      · obtain ⟨m', rfl⟩ := hcall
        exact ih hq (fun hcalls => hK (.nested henters hreach hcalls)) hs₁
      · exact answer_cache (fun m' hm' => hcall ⟨m', hm'⟩) hq ▸ hs₁
    have hinputs : ∀ {msg' hs₁}, prepareMessage msg hs = .ok (some msg', hs₁) →
        (msg'.codeAddress = 3 → msg'.inputData ∈ K) ∧ Precompiles.Cache.Sound K hs₁.cache := by
      intro msg' hs₁ hprepared
      have hprepared := prepareMessage_ok hprepared
      have hinput := hK .self
      refine ⟨?_, hprepared.cache ▸ hsound⟩
      rw [hprepared.rest]
      exact hinput
    cases callWith_ok hrun with
    | refused hprepared => exact (prepareMessage_ok hprepared).cache ▸ hsound
    | success hprepared hexecuted =>
      obtain ⟨hinput, hsound₁⟩ := hinputs hprepared
      exact hexecuted.sound hprepared hsound₁ hinput hexec
    | failed hprepared hexecuted =>
      obtain ⟨hinput, hsound₁⟩ := hinputs hprepared
      have hsound₂ := hexecuted.sound hprepared hsound₁ hinput hexec
      -- Reverting does not touch the cache.
      exact hsound₂

end cache

/-! ### The codes of accounts -/

/-- The longest code that is executed: the longest init code. -/
def CodesFit (hs : HostState) : Prop :=
  ∀ addr acc, hs.state.find addr = some acc → acc.code.length ≤ maxInitcodeSize

section codes

variable {hs hs' : HostState} {addr : Address} {acc : Account}

/-- The code of an account fits, present or absent. -/
theorem CodesFit.accountOr (h : CodesFit hs) (addr : Address) (mark : Bool) :
    (Host.accountOr hs addr { erasable := mark }).code.length ≤ maxInitcodeSize := by
  unfold Host.accountOr
  cases hfind : hs.state.find addr with
  | none => exact Nat.zero_le _
  | some acc => exact h addr acc hfind

/-- Writing an account whose code fits. -/
theorem CodesFit.setAcc (h : CodesFit hs) (hacc : acc.code.length ≤ maxInitcodeSize) :
    CodesFit (Host.setAcc hs addr acc) := by
  intro a acc' hfind
  rw [setAcc_state, State.find_set] at hfind
  split at hfind
  · cases hfind
    exact hacc
  · exact h a acc' hfind

/-- Writing back an account with the same code. -/
theorem CodesFit.setAcc_of_find {acc₀ : Account} (h : CodesFit hs)
    (hfind : hs.state.find addr = some acc₀) (hcode : acc.code = acc₀.code) :
    CodesFit (Host.setAcc hs addr acc) :=
  h.setAcc (hcode ▸ h addr acc₀ hfind)

/-- A transfer writes no code. -/
theorem CodesFit.transfer {sender recipient : Address} {value : Word} {u : Unit} (h : CodesFit hs)
    (htransfer : Host.transfer sender recipient value hs = .ok (u, hs')) : CodesFit hs' := by
  obtain ⟨senderAcc, recipientAcc, hsender, -, hrecipient, rfl⟩ := transfer_ok htransfer
  have hpaid : CodesFit (Host.setAcc hs sender
      { senderAcc with balance := senderAcc.balance - value }) := h.setAcc_of_find hsender rfl
  exact hpaid.setAcc_of_find hrecipient rfl

instance : IsPreorder HostState fun hs hs' => CodesFit hs → CodesFit hs' where
  refl _ := id
  trans _ _ _ h h' := h' ∘ h

/-- Calls deploy codes that are half as long. -/
theorem codesFit_keptByHost : KeptByHost fun hs hs' => CodesFit hs → CodesFit hs' where
  step hstep h := by
    cases hstep with
    | log | cache => exact h
    | warm addr => exact CodesFit.setAcc h (h.accountOr addr true)
    | touch addr => exact CodesFit.setAcc h (h.accountOr addr false)
    | bump hfind | store hfind | warmSlot hfind => exact h.setAcc_of_find hfind rfl
    | transfer htransfer => exact h.transfer htransfer
  enter {hs addr} _ _ h := h.setAcc (h.accountOr addr false)
  deploy {hs hs₁ addr acc code} _ _ hafter hfind hsize _ h := by
    have h₁ := hafter (h.setAcc (h.accountOr addr false))
    exact h₁.setAcc (hsize.trans (by decide))
  revert {hs hs'} _ h := by
    rcases revert_state hs hs' with hstate | hstate <;> intro a acc hfind <;> rw [hstate] at hfind
    · exact h a acc hfind
    · have htouched : CodesFit (Host.setAcc hs addr03 (touched hs addr03)) :=
        h.setAcc (h.accountOr addr03 false)
      exact htouched a acc hfind

end codes

/-! ### Frames and calls -/

section calls

variable [Ethash] {ctx : HostContext} {vm : VM} {steps : Int → Nat} {K : Set Bytes}
  {msg : Message} {s t : HostState} {n k : Nat}

/-- What is needed to call a message in twins, with the Baseline interpreter and the fuel `n` on the
left, and with the fuel `k` on the right. -/
structure Callable (ctx : HostContext) (K : Set Bytes) (steps : Int → Nat) (n k : Nat)
    (msg : Message) (s t : HostState) : Prop where
  twin : s.Twin K t
  gas : 0 ≤ msg.gas
  fuel : msg.gas.toNat + 2 ≤ n
  steps : steps msg.gas < k
  initCode : msg.kind.IsCreate → msg.inputData.length ≤ maxInitcodeSize
  codes : CodesFit s
  /-- The parties of the message that the host takes for granted are there on the right. -/
  sender : (t.state.find msg.sender).isSome
  delegated : msg.kind = .delegatecall → (t.state.find msg.recipient).isSome
  inputs : InputsIn ctx K n msg s

/-- What is needed to run a code for a message in twins. -/
structure Runnable (ctx : HostContext) (K : Set Bytes) (steps : Int → Nat) (n k : Nat)
    (msg : Message) (code : Bytes) (s t : HostState) : Prop where
  twin : s.Twin K t
  gas : 0 ≤ msg.gas
  fuel : msg.gas.toNat < n
  steps : steps msg.gas ≤ k
  size : code.length ≤ maxInitcodeSize
  codes : CodesFit s
  sender : (t.state.find msg.sender).isSome
  recipient : (t.state.find msg.recipient).isSome
  inputs : ∀ {m s₁}, Reaches (frameEnv ctx n) (Baseline.execute n msg code) s (.call m) s₁ →
    InputsIn ctx K n m s₁

/-- Calls with this fuel track each other. -/
def CallsTrack (ctx : HostContext) (vm : VM) (K : Set Bytes) (steps : Int → Nat) (n k : Nat) :
    Prop :=
  ∀ {msg s t}, Callable ctx K steps n k msg s t →
    Tracks (fun r r' s' t' => r.Alike r' ∧ s'.Twin K t') (call ctx Baseline.execute n msg)
      (call ctx vm k msg) s t

/-- A frame sends messages with less gas than it has. -/
theorem spends_of_reaches {code : Bytes} {m : Message} {s₁ : HostState} (hfuel : msg.gas.toNat < n)
    (h : Reaches (frameEnv ctx n) (Baseline.execute n msg code) s (.call m) s₁) :
    0 ≤ m.gas ∧ m.gas < msg.gas := by
  have hstart : (Baseline.Frame.start msg code).gas ≤ msg.gas := le_rfl
  have hdispatch := Baseline.wp_dispatch_spending (Baseline.inCode_zero code) hstart hfuel
  have hexecute : wp (spendingContract msg.gas) (Baseline.execute n msg code) () fun _ _ => True :=
    (wp_bind _ _ _).2 (wp_mono hdispatch fun _ _ _ => trivial)
  exact wp_reaches (fun q s r s' _ hq => frameEnv_bounded q s r s' hq) hexecute h

/-- The message that a frame sends can be called. -/
theorem Runnable.callable {code : Bytes} {m : Message} {s₁ t₁ : HostState}
    (hvm : VM.Replaces vm steps) (h : Runnable ctx K steps n k msg code s t)
    (hreach : Reaches (frameEnv ctx n) (Baseline.execute n msg code) s (.call m) s₁)
    (htwin : s₁.Twin K t₁) (hstay : AccountsStay t t₁) : Callable ctx K steps n k m s₁ t₁ := by
  obtain ⟨hnonneg, hlt⟩ := spends_of_reaches h.fuel hreach
  have hsent : m.SentBy msg := (Baseline.execute_asks_authorized n msg code).reaches hreach
  have hcodes : CodesFit s₁ := codesFit_keptByHost.reaches hreach h.codes
  have hfuel := h.fuel
  have hsender := hstay _ h.sender
  have hrecipient := hstay _ h.recipient
  refine ⟨htwin, hnonneg, by omega, (hvm.lt hnonneg hlt).trans_le h.steps, fun hkind => ?_, hcodes,
    ?_, fun hkind => ?_, h.inputs hreach⟩
  · exact (hsent.create hkind).2.2.2
  · cases hkind : m.kind with
    | call => exact (hsent.call hkind).1 ▸ hrecipient
    | delegatecall => exact (hsent.delegated hkind).1 ▸ hsender
    | create => exact (hsent.create (.inl hkind)).1 ▸ hrecipient
    | create2 => exact (hsent.create (.inr hkind)).1 ▸ hrecipient
  · exact (hsent.delegated hkind).2.1 ▸ hrecipient

omit [Ethash] in
/-- The answers that are the same are alike. -/
theorem answersAlike_of_eq {q : HostCall} (hq : ∀ m, q ≠ .call m) {r r' : q.Answer} (h : r' = r) :
    q.AnswersAlike r r' ∧ BoundedAnswer q r' := by
  subst h
  cases q with
  | call m => exact absurd rfl (hq m)
  | _ => exact ⟨rfl, trivial⟩

/-- A frame in twins. -/
theorem tracks_execVm {code : Bytes} (hvm : VM.Replaces vm steps)
    (hcalls : CallsTrack ctx vm K steps n k) (h : Runnable ctx K steps n k msg code s t) :
    Tracks (EndsTwin K) (execVm ctx Baseline.execute (call ctx Baseline.execute n) n msg code)
      (execVm ctx vm (call ctx vm k) k msg code) s t := by
  have hsim := hvm.sim h.gas h.size h.fuel h.steps
  let R : HostState → HostState → Prop := fun s₁ t₁ =>
    s₁.Twin K t₁ ∧ AccountsStay t t₁
  let R₀ : HostState → HostState → Prop := fun s₁ t₁ =>
    Precompiles.Cache.Sound K s₁.cache ∧ Precompiles.Cache.Sound K t₁.cache
  refine (hsim.tracks (R := R) (Baseline.execute_blind n msg code) ?_
    (fun s₁ t₁ hR => show R₀ s₁ t₁ from ⟨hR.1.left, hR.1.right⟩) ?_ ⟨h.twin, refl t⟩).mono ?_
  -- While both machines run, the same query is answered in twins.
  · rintro q s₁ t₁ hreach ⟨htwin, hstay⟩
    by_cases hcall : ∃ m, q = .call m
    · obtain ⟨m, rfl⟩ := hcall
      have hcallable := h.callable hvm hreach htwin hstay
      refine (hcalls hcallable).of_runs fun r r' s₂ t₂ hleft hright hends => ?_
      refine ⟨hends.1, fun _ => ?_, hends.2,
        IsTrans.trans _ _ _ hstay (accountsStay_keptByHost.keeps k m _ _ _ hright)⟩
      obtain ⟨hnonneg, hle⟩ := call_isBounded n m s₁ r s₂ hcallable.gas hleft
      exact ⟨hends.1.gasLeft ▸ hnonneg, hends.1.gasLeft ▸ hle⟩
    · have hq : ∀ m, q ≠ .call m := fun m hm => hcall ⟨m, hm⟩
      have hauth : q.Authorized msg := (Baseline.execute_asks_authorized n msg code).reaches hreach
      have howner : ∀ addr, q.slotOwner = some addr → (t₁.state.find addr).isSome := by
        intro addr haddr
        cases q with
        | getStorage _ _ | setStorage _ _ _ | accessStorage _ _ =>
          obtain rfl := Option.some.inj haddr
          have heq : _ = msg.recipient := hauth
          exact heq ▸ hstay _ h.recipient
        | _ => cases haddr
      refine (tracks_answer htwin hq howner).of_runs fun r r' s₂ t₂ _ hright hends => ?_
      obtain ⟨hV, hK⟩ := answersAlike_of_eq hq hends.1
      exact ⟨hV, hK, hends.2,
        IsTrans.trans _ _ _ hstay (accountsStay_keptByHost.answer hq _ _ _ hright)⟩
  -- Once the right one has given up, the left one keeps its cache sound.
  · rintro q s₁ t₁ r s₂ hreach ⟨hleft, hright⟩ hq
    refine ⟨frameEnv_bounded q s₁ r s₂ hq, ?_, hright⟩
    by_cases hcall : ∃ m, q = .call m
    · obtain ⟨m, rfl⟩ := hcall
      exact call_sound hq (h.inputs hreach) hleft
    · exact answer_cache (fun m hm => hcall ⟨m, hm⟩) hq ▸ hleft
  · rintro r r' s' t' (⟨halike, htwin, -⟩ | ⟨hfail, hfail', hcaches⟩)
    · exact ⟨halike, .inl htwin⟩
    · exact ⟨hfail.alike hfail', .inr ⟨hfail.status.1, hcaches⟩⟩

omit [Ethash] in
/-- The account of a new contract is there when its init code runs. -/
theorem isSome_find_of_enterCreate (h : enterCreate msg s = .ok (true, t)) :
    (t.state.find msg.recipient).isSome := by
  rcases enterCreate_ok h with ⟨hfalse, -⟩ | ⟨-, -, -, htransfer⟩
  · cases hfalse
  · exact accountsStay_transfer htransfer _ (isSome_find_setAcc _ _ _)

omit [Ethash] in
/-- The recipient of a message is there when its code runs. -/
theorem isSome_find_of_enterCall {u : Unit} (hkind : ¬ msg.kind.IsCreate)
    (hdelegated : msg.kind = .delegatecall → (s.state.find msg.recipient).isSome)
    (h : enterCall msg s = .ok (u, t)) : (t.state.find msg.recipient).isSome := by
  rcases enterCall_ok h with ⟨hcall, rfl⟩ | ⟨-, -, htransfer⟩
  · refine hdelegated ?_
    cases hm : msg.kind with
    | call => exact absurd hm hcall
    | delegatecall => rfl
    | create | create2 => exact absurd (by rw [hm]; decide) hkind
  · exact accountsStay_transfer htransfer _ (isSome_find_setAcc _ _ _)

/-- The code of the called account runs unless a precompile answers. -/
theorem executeMessage_of_unserved {exec : Exec} {u : Unit} {s₁ s₂ : HostState}
    (hkind : ¬ msg.kind.IsCreate) (henter : enterCall msg s = .ok (u, s₁))
    (hpre : callPrecompile msg s₁ = .ok (none, s₂)) :
    executeMessage exec msg s = exec msg (codeOf s₁ msg) s₂ := by
  obtain ⟨-, rfl⟩ := callPrecompile_ok hpre
  unfold executeMessage
  rw [if_neg hkind, bind_of_ok henter, bind_of_ok hpre]
  unfold codeOf accountOr
  refine (bind_of_ok (find_eq_ok.2 ⟨rfl, rfl⟩)).trans ?_
  cases s₁.state.find (if msg.kind = .call then msg.recipient else msg.codeAddress) <;> rfl

/-- A message that a precompile serves runs no code. -/
theorem executeMessage_of_served {exec : Exec} {u : Unit} {s₁ s₂ : HostState} {r : CallResult}
    (hkind : ¬ msg.kind.IsCreate) (henter : enterCall msg s = .ok (u, s₁))
    (hpre : callPrecompile msg s₁ = .ok (some r, s₂)) :
    executeMessage exec msg s = .ok (r, s₂) := by
  unfold executeMessage
  rw [if_neg hkind, bind_of_ok henter, bind_of_ok hpre]
  rfl

/-- The code that a call enters can be run in twins. -/
theorem Callable.runnable {m : Message} {code : Bytes} {s₁ t₁ : HostState}
    (h : Callable ctx K steps (n + 1) (k + 1) msg s t) (henters : Enters msg s m code s₁)
    (htwin : s₁.Twin K t₁) (hsender : (t₁.state.find m.sender).isSome)
    (hrecipient : (t₁.state.find m.recipient).isSome) : Runnable ctx K steps n k m code s₁ t₁ := by
  have hgas : m.gas = msg.gas ∧ code.length ≤ maxInitcodeSize := by
    cases henters with
    | @create msg' _ _ hprepared hkind =>
      have hrest := (prepareMessage_ok hprepared).rest
      rw [hrest] at hkind
      have hlen := h.initCode hkind
      rw [hrest]
      exact ⟨rfl, hlen⟩
    | call hprepared hkind henter =>
      have hcodes : CodesFit _ := codesFit_keptByHost.enterCall henter
        (codesFit_keptByHost.prepared hprepared h.codes)
      exact ⟨(prepareMessage_ok hprepared).gas, hcodes.accountOr _ false⟩
  obtain ⟨hgas, hsize⟩ := hgas
  have hfuel := h.fuel
  have hsteps := h.steps
  refine ⟨htwin, hgas ▸ h.gas, by omega, by rw [hgas]; omega, hsize,
    codesFit_keptByHost.enters henters h.codes, hsender, hrecipient, ?_⟩
  exact fun hreach _ _ _ hcalls => h.inputs (.nested henters hreach hcalls)

/-- A prepared message is executed in twins. -/
theorem tracks_executeMessage {msg' : Message} {s₁ t₁ : HostState}
    (hinj : Set.InjOn Ethash.keccak256 K) (hvm : VM.Replaces vm steps)
    (hcalls : CallsTrack ctx vm K steps n k)
    (h : Callable ctx K steps (n + 1) (k + 1) msg s t)
    (hleft : prepareMessage msg s = .ok (some msg', s₁))
    (hright : prepareMessage msg t = .ok (some msg', t₁)) (htwin : s₁.Twin K t₁) :
    Tracks (EndsTwin K)
      (executeMessage (execVm ctx Baseline.execute (call ctx Baseline.execute n) n) msg')
      (executeMessage (execVm ctx vm (call ctx vm k) k) msg') s₁ t₁ := by
  have hrest := (prepareMessage_ok hleft).rest
  have hstay : AccountsStay t t₁ := accountsStay_keptByHost.prepared hright
  have hsender : (t₁.state.find msg'.sender).isSome := by
    rw [hrest]
    exact hstay _ h.sender
  by_cases hkind : msg'.kind.IsCreate
  · have hcreate : ∀ exec, executeMessage exec msg' = create exec msg' := fun _ => if_pos hkind
    rw [hcreate, hcreate]
    refine .bind (tracks_assert id) ?_
    rintro _ _ _ _ - - ⟨rfl, rfl⟩
    refine .bind (tracks_enterCreate htwin hsender) ?_
    rintro _ entered s₂ t₂ henter henter' ⟨rfl, htwin₂⟩
    cases entered with
    | false => exact .pure ⟨.refl _, .inl htwin₂⟩
    | true =>
      have hrecipient := isSome_find_of_enterCreate henter'
      have hsender₂ := accountsStay_keptByHost.enterCreate trivial henter' _ hsender
      have hrunnable := h.runnable (.create hleft hkind henter) htwin₂ hsender₂ hrecipient
      refine .bind (tracks_execVm hvm hcalls hrunnable) fun r r' s₃ t₃ _ hrun hends => ?_
      exact tracks_deploy hends (accountsStay_keptByHost.run
        (fun m s r s' _ hrun => accountsStay_keptByHost.keeps k m _ _ _ hrun) hrun _ hrecipient)
  · have hK : msg'.codeAddress = 3 → msg'.inputData ∈ K := by
      have hinput := h.inputs .self
      rw [hrest]
      exact hinput
    intro r s' hrun
    cases executeMessage_ok hrun with
    | collision hkind' | create hkind' => exact absurd hkind' hkind
    | precompile _ henter hresult =>
      obtain ⟨_, t₂, henter', -, htwin₂⟩ := tracks_enterCall htwin hsender _ _ henter
      obtain ⟨_, t₃, hpre', ⟨hnone, -⟩ | ⟨x, x', hx, rfl, halike⟩, htwin₃⟩ :=
        tracks_callPrecompile hinj htwin₂ hK _ _ (callPrecompile_of_result hresult)
      · cases hnone
      · cases hx
        exact ⟨x', t₃, executeMessage_of_served hkind henter' hpre', halike, .inl htwin₃⟩
    | @call r hs₁ hs₂ _ henter hresult hexec =>
      obtain ⟨_, t₂, henter', -, htwin₂⟩ := tracks_enterCall htwin hsender _ _ henter
      obtain ⟨_, t₃, hpre', ⟨-, rfl⟩ | ⟨x, x', hx, -⟩, htwin₃⟩ :=
        tracks_callPrecompile hinj htwin₂ hK _ _ (callPrecompile_of_result hresult)
      · have henters := Enters.call hleft hkind henter (callPrecompile_of_result hresult)
        -- The sender and the recipient are still there when the code runs.
        have hsender₂ := accountsStay_keptByHost.enterCall henter' _ hsender
        have hrecipient : (t₂.state.find msg'.recipient).isSome := by
          refine isSome_find_of_enterCall hkind (fun hdelegated => hstay _ ?_) henter'
          rw [(prepareMessage_ok hleft).recipient hkind]
          rw [hrest] at hdelegated
          exact h.delegated hdelegated
        obtain ⟨-, rfl⟩ := callPrecompile_ok hpre'
        obtain ⟨r', t', hexec', hends⟩ := tracks_execVm hvm hcalls
          (h.runnable henters htwin₃ hsender₂ hrecipient) _ _ hexec
        refine ⟨r', t', ?_, hends⟩
        rw [executeMessage_of_unserved hkind henter' hpre', codeOf_eq htwin₂]
        exact hexec'
      · cases hx

/-- An executed message only appends logs. -/
theorem logsGrow_executed {msg' : Message} {s₁ s₂ : HostState} {r : CallResult}
    (hprepared : prepareMessage msg s = .ok (some msg', s₁))
    (h : executeMessage (execVm ctx vm (call ctx vm n) n) msg' s₁ = .ok (r, s₂)) :
    LogsGrow s₁ s₂ :=
  logsGrow_keptByHost.executed (fun _ _ _ _ hcreates hrun => logsGrow_keptByHost.call hcreates hrun)
    (fun _ _ => trivial) hprepared (executeMessage_ok h)

/-- Calls from twins end in twins, with results that are alike. -/
theorem tracks_call (hinj : Set.InjOn Ethash.keccak256 K) (hvm : VM.Replaces vm steps) :
    CallsTrack ctx vm K steps n k := by
  induction n generalizing k with
  | zero => exact fun h => absurd h.fuel (by omega)
  | succ n ih =>
    intro msg s t h
    obtain ⟨k, rfl⟩ : ∃ m, k = m + 1 := by
      have hsteps := h.steps
      exact Nat.exists_eq_succ_of_ne_zero (by omega)
    refine .bind (tracks_prepareMessage h.twin h.sender) ?_
    rintro _ prepared s₁ t₁ hleft hright ⟨rfl, htwin⟩
    cases prepared with
    | none => exact .pure ⟨.refl _, htwin⟩
    | some msg' =>
      have hget : Tracks (ε := Fault) (fun a b s' t' => a = s₁ ∧ b = t₁ ∧ s' = s₁ ∧ t' = t₁)
          get get s₁ t₁ := .get ⟨rfl, rfl, rfl, rfl⟩
      refine .bind hget ?_
      rintro _ _ _ _ - - ⟨rfl, rfl, rfl, rfl⟩
      refine .bind (tracks_executeMessage hinj hvm ih h hleft hright htwin) ?_
      rintro r r' s₂ t₂ hrun hrun' ⟨halike, hends⟩
      refine .ite (not_congr halike.success_iff).symm (fun _ => ?_) fun hsuccess => ?_
      -- What the failed message did is reverted on both sides.
      · have hcaches : Precompiles.Cache.Sound K s₂.cache ∧ Precompiles.Cache.Sound K t₂.cache := by
          rcases hends with htwin₂ | ⟨-, hcaches⟩
          · exact ⟨htwin₂.left, htwin₂.right⟩
          · exact hcaches
        have hreverted := htwin.revert (logsGrow_executed hleft hrun) (logsGrow_executed hright hrun')
          hcaches.1 hcaches.2
        exact .bind (.modify hreverted) fun _ _ _ _ _ _ htwin₂ => .pure ⟨halike, htwin₂⟩
      · exact .pure ⟨halike, hends.resolve_right fun hfail => hsuccess hfail.1⟩

end calls

end Host

end Zvmone
