import Zvmone.State.Assertions
import Zvmone.State.PrecompileCache
import Zvmone.State.Rollback

/-! # Twin host states

What a frame did before it failed is reverted but for two things: the touch of the address `0x03`
and the cache of precompile results. Host states that differ in nothing else are `Twin`s. Every host
method and every part of a call does the same in twins, and leaves twins, as far as the accounts
that it takes for granted are there. -/

namespace Zvmone

open Interaction StateRun Host

/-- Accounts of twins at an address: the same, but for the mark for erasure at `0x03`. -/
def TwinAccounts (addr : Address) (acc acc' : Account) : Prop :=
  ∃ mark, acc' = { acc with erasable := mark } ∧ (addr ≠ addr03 → mark = acc.erasable)

/-- An account is its own twin. -/
theorem TwinAccounts.refl (addr : Address) (acc : Account) : TwinAccounts addr acc acc :=
  ⟨acc.erasable, rfl, fun _ => rfl⟩

/-- Host states with the same accounts, but for the presence and the mark of a blank account at
`0x03`, the same logs, and sound caches. -/
structure HostState.Twin [Ethash] (K : Set Bytes) (hs hs' : HostState) : Prop where
  accounts : ∀ addr, addr ≠ addr03 → hs'.state.find addr = hs.state.find addr
  touched : Host.touched hs' addr03 = Host.touched hs addr03
  logs : hs'.logs = hs.logs
  left : Precompiles.Cache.Sound K hs.cache
  right : Precompiles.Cache.Sound K hs'.cache

variable [Ethash] {K : Set Bytes} {s s' t t' : HostState} {addr : Address} {acc acc' : Account}

namespace HostState.Twin

/-- A state with a sound cache is its own twin. -/
theorem refl (h : Precompiles.Cache.Sound K s.cache) : s.Twin K s :=
  ⟨fun _ _ => rfl, rfl, rfl, h, h⟩

/-- The accounts that `get_or_insert` gives. -/
theorem accountOr (h : s.Twin K t) (addr : Address) (mark : Bool) :
    TwinAccounts addr (Host.accountOr s addr { erasable := mark })
      (Host.accountOr t addr { erasable := mark }) := by
  by_cases haddr : addr = addr03
  · subst haddr
    have htouched := h.touched
    unfold Host.touched Host.accountOr at *
    -- An account that only one of the twins has is blank.
    cases hs : s.state.find addr03 with
    | none =>
      cases ht : t.state.find addr03 with
      | none => exact .refl _ _
      | some acc' =>
        rw [hs, ht] at htouched
        refine ⟨acc'.erasable, ?_, fun hne => absurd rfl hne⟩
        have hblank := congrArg (fun a : Account => { a with erasable := acc'.erasable }) htouched
        exact hblank
    | some acc =>
      cases ht : t.state.find addr03 with
      | none =>
        rw [hs, ht] at htouched
        refine ⟨mark, ?_, fun hne => absurd rfl hne⟩
        have hblank := congrArg (fun a : Account => { a with erasable := mark }) htouched
        exact hblank
      | some acc' =>
        rw [hs, ht] at htouched
        refine ⟨acc'.erasable, ?_, fun hne => absurd rfl hne⟩
        have hsame := congrArg (fun a : Account => { a with erasable := acc'.erasable }) htouched
        exact hsame
  · unfold Host.accountOr
    rw [h.accounts addr haddr]
    exact .refl _ _

/-- An account that both twins have. -/
theorem find (h : s.Twin K t) (hfind : s.state.find addr = some acc)
    (hright : (t.state.find addr).isSome) :
    ∃ acc', t.state.find addr = some acc' ∧ TwinAccounts addr acc acc' := by
  obtain ⟨acc', hfind'⟩ := Option.isSome_iff_exists.1 hright
  refine ⟨acc', hfind', ?_⟩
  have hacc := h.accountOr addr false
  rwa [accountOr_of_find hfind, accountOr_of_find hfind'] at hacc

/-- Writing the same to both twins. -/
theorem setAcc (h : s.Twin K t) (hacc : TwinAccounts addr acc acc') :
    (Host.setAcc s addr acc).Twin K (Host.setAcc t addr acc') := by
  obtain ⟨mark, rfl, hmark⟩ := hacc
  refine ⟨fun a ha => ?_, ?_, h.logs, h.left, h.right⟩
  · rw [setAcc_state, setAcc_state, State.find_set, State.find_set]
    split
    next heq => rw [hmark (heq ▸ ha)]
    next => exact h.accounts a ha
  · unfold Host.touched
    rw [accountOr_setAcc, accountOr_setAcc]
    split
    · rfl
    · exact h.touched

/-- Marking an account as accessed in twins. -/
theorem warmed (h : s.Twin K t) (addr : Address) :
    (Host.warmed s addr).Twin K (Host.warmed t addr) := by
  obtain ⟨mark, hacc, hmark⟩ := h.accountOr addr true
  refine h.setAcc ⟨mark, ?_, hmark⟩
  rw [hacc]

/-- Reverting twins gives twins, whatever was done since the snapshot. -/
theorem revert (h : s.Twin K t) (hlogs : LogsGrow s s') (hlogs' : LogsGrow t t')
    (hleft : Precompiles.Cache.Sound K s'.cache) (hright : Precompiles.Cache.Sound K t'.cache) :
    (Host.revert s s').Twin K (Host.revert t t') := by
  have hfind : ∀ {s s' : HostState} {addr}, addr ≠ addr03 →
      (Host.revert s s').state.find addr = s.state.find addr := by
    intro s s' addr haddr
    rcases revert_state s s' with hstate | hstate <;> rw [hstate]
    exact State.find_set_of_ne _ haddr _
  have htouched : ∀ {s s' : HostState},
      Host.touched (Host.revert s s') addr03 = Host.touched s addr03 := by
    intro s s'
    unfold Host.touched Host.accountOr
    rcases revert_state s s' with hstate | hstate <;> rw [hstate]
    rw [State.find_set_self]
    rfl
  refine ⟨fun addr haddr => ?_, ?_, ?_, hleft, hright⟩
  · rw [hfind haddr, hfind haddr, h.accounts addr haddr]
  · rw [htouched, htouched, h.touched]
  · rw [revert_logs hlogs, revert_logs hlogs', h.logs]

end HostState.Twin

namespace Host

/-! ### Access to the account map -/

/-- The computations end in twins if they start in twins. -/
abbrev TracksTwins {α : Type} (K : Set Bytes) (m : HostS α) (s t : HostState) : Prop :=
  Tracks (fun a b s' t' => b = a ∧ s'.Twin K t') m m s t

/-- Twin states return twin accounts. -/
theorem tracks_getAccount (h : s.Twin K t) (hright : (t.state.find addr).isSome) :
    Tracks (fun acc acc' s' t' => TwinAccounts addr acc acc' ∧ s' = s ∧ t' = t)
      (getAccount addr) (getAccount addr) s t := by
  intro acc s' hrun
  obtain ⟨hfind, rfl⟩ := getAccount_eq_ok.1 hrun
  obtain ⟨acc', hfind', hacc⟩ := h.find hfind hright
  exact ⟨acc', t, getAccount_eq_ok.2 ⟨hfind', rfl⟩, hacc, rfl, rfl⟩

/-- Writing twin accounts to twin states gives twin states. -/
theorem tracks_setAccount (h : s.Twin K t) (hacc : TwinAccounts addr acc acc') :
    Tracks (fun _ _ s' t' => s'.Twin K t' ∧ s' = setAcc s addr acc ∧ t' = setAcc t addr acc')
      (setAccount addr acc) (setAccount addr acc') s t := by
  intro u s' hrun
  obtain rfl := setAccount_eq_ok.1 hrun
  exact ⟨(), setAcc t addr acc', rfl, h.setAcc hacc, rfl, rfl⟩

omit [Ethash] in
/-- An assertion that implies the one on the other side. -/
theorem tracks_assert {c c' : Prop} [Decidable c] [Decidable c'] (hc : c → c') :
    Tracks (fun _ _ s' t' => s' = s ∧ t' = t) (assert c) (assert c') s t := by
  intro u s' hrun
  obtain ⟨hcond, rfl⟩ := assert_eq_ok.1 hrun
  exact ⟨(), t, assert_eq_ok.2 ⟨hc hcond, rfl⟩, rfl, rfl⟩

/-- Methods that return something and change nothing. -/
theorem tracks_of_eq {α : Type} {m m' : HostS α} {a : α} (h : s.Twin K t) (hm : m s = .ok (a, s))
    (hm' : m' t = .ok (a, t)) : Tracks (fun a b s' t' => b = a ∧ s'.Twin K t') m m' s t := by
  intro b s' hrun
  cases hm.symm.trans hrun
  exact ⟨_, t, hm', rfl, h⟩

/-! ### The methods of the host -/

section methods

variable {hs : HostState}

omit [Ethash] in
/-- `account_exists` depends on the account only, absent or not. -/
theorem accountExists_eq :
    accountExists addr hs = .ok (decide (¬ (accountOr hs addr {}).IsEmpty), hs) := by
  unfold accountExists accountOr
  refine bind_eq_ok.2 ⟨_, hs, find_eq_ok.2 ⟨rfl, rfl⟩, ?_⟩
  cases hs.state.find addr <;> rfl

omit [Ethash] in
/-- `get_balance` depends on the account only, absent or not. -/
theorem getBalance_eq : getBalance addr hs = .ok ((accountOr hs addr {}).balance, hs) := by
  unfold getBalance accountOr
  refine bind_eq_ok.2 ⟨_, hs, find_eq_ok.2 ⟨rfl, rfl⟩, ?_⟩
  cases hs.state.find addr <;> rfl

omit [Ethash] in
/-- `get_code_size` depends on the account only, absent or not. -/
theorem getCodeSize_eq : getCodeSize addr hs = .ok ((accountOr hs addr {}).code.length, hs) := by
  unfold getCodeSize accountOr
  refine bind_eq_ok.2 ⟨_, hs, find_eq_ok.2 ⟨rfl, rfl⟩, ?_⟩
  cases hs.state.find addr <;> rfl

omit [Ethash] in
/-- `copy_code` depends on the account only, absent or not. -/
theorem copyCode_eq (codeOffset bufferSize : Nat) : copyCode addr codeOffset bufferSize hs =
    .ok (((accountOr hs addr {}).code.drop (min codeOffset (accountOr hs addr {}).code.length)).take
      (min bufferSize ((accountOr hs addr {}).code.drop
        (min codeOffset (accountOr hs addr {}).code.length)).length), hs) := by
  unfold copyCode accountOr
  refine bind_eq_ok.2 ⟨_, hs, find_eq_ok.2 ⟨rfl, rfl⟩, ?_⟩
  cases hs.state.find addr <;> rfl

/-- `get_code_hash` depends on the account only, absent or not. -/
theorem getCodeHash_eq : getCodeHash addr hs = .ok (if (accountOr hs addr {}).IsEmpty then 0
    else Ethash.keccak256 (accountOr hs addr {}).code, hs) := by
  unfold getCodeHash accountOr
  refine bind_eq_ok.2 ⟨_, hs, find_eq_ok.2 ⟨rfl, rfl⟩, ?_⟩
  cases hs.state.find addr <;> rfl

omit [Ethash] in
/-- `access_account` depends on the account only, and inserts it if it is absent. -/
theorem accessAccount_eq : accessAccount addr hs = .ok (if IsPrecompileAddress addr then .warm
    else (accountOr hs addr { erasable := true }).accessStatus, warmed hs addr) := by
  have hends : ∀ e, Avoids e (accessAccount addr) hs := fun e =>
    .bind (.of_ok rfl) fun _ _ _ => .bind (.of_ok rfl) fun _ _ _ =>
      .ite (fun _ => .pure _) fun _ => .pure _
  cases hrun : accessAccount addr hs with
  | error e => exact absurd hrun (hends e)
  | ok x =>
    obtain ⟨r, hs'⟩ := x
    obtain ⟨rfl, rfl⟩ := accessAccount_ok hrun
    rfl

end methods

/-- Twin states have the same access statuses. -/
theorem tracks_accessAccount (h : s.Twin K t) : TracksTwins K (accessAccount addr) s t := by
  intro r s' hrun
  obtain ⟨rfl, rfl⟩ := accessAccount_ok hrun
  refine ⟨_, _, accessAccount_eq, ?_, h.warmed addr⟩
  obtain ⟨mark, hacc, -⟩ := h.accountOr addr true
  rw [hacc]

/-- Methods other than `call` do the same in twins, as far as the account whose storage they use is
there. -/
theorem tracks_answer {ctx : HostContext} {call call' : Message → HostS CallResult} {q : HostCall}
    (h : s.Twin K t) (hq : ∀ m, q ≠ .call m)
    (hright : ∀ addr, q.slotOwner = some addr → (t.state.find addr).isSome) :
    Tracks (fun r r' s' t' => r' = r ∧ s'.Twin K t') (answer ctx call q) (answer ctx call' q)
      s t := by
  cases q with
  | accountExists addr =>
    -- A twin's account differs in its mark only, which no query reads.
    obtain ⟨mark, hacc, -⟩ := h.accountOr addr false
    refine tracks_of_eq h accountExists_eq (accountExists_eq.trans ?_)
    rw [hacc]
    rfl
  | getBalance addr =>
    obtain ⟨mark, hacc, -⟩ := h.accountOr addr false
    exact tracks_of_eq h getBalance_eq (getBalance_eq.trans (by rw [hacc]))
  | getCodeSize addr =>
    obtain ⟨mark, hacc, -⟩ := h.accountOr addr false
    exact tracks_of_eq h getCodeSize_eq (getCodeSize_eq.trans (by rw [hacc]))
  | getCodeHash addr =>
    obtain ⟨mark, hacc, -⟩ := h.accountOr addr false
    refine tracks_of_eq h getCodeHash_eq (getCodeHash_eq.trans ?_)
    rw [hacc]
    rfl
  | copyCode addr codeOffset bufferSize =>
    obtain ⟨mark, hacc, -⟩ := h.accountOr addr false
    exact tracks_of_eq h (copyCode_eq _ _) ((copyCode_eq _ _).trans (by rw [hacc]))
  -- The three storage queries need the account to be present on both sides.
  | getStorage addr key =>
    refine .bind (tracks_getAccount h (hright addr rfl)) ?_
    rintro acc _ _ _ - - ⟨⟨mark, rfl, -⟩, rfl, rfl⟩
    dsimp only
    cases acc.storage.lookup key <;> exact .pure ⟨rfl, h⟩
  | setStorage addr key value =>
    refine .bind (tracks_getAccount h (hright addr rfl)) ?_
    rintro acc _ _ _ - - ⟨⟨mark, rfl, hmark⟩, rfl, rfl⟩
    refine .bind (tracks_setAccount h ⟨mark, rfl, hmark⟩) fun _ _ _ _ _ _ hset => ?_
    exact .pure ⟨rfl, hset.1⟩
  | accessStorage addr key =>
    refine .bind (tracks_getAccount h (hright addr rfl)) ?_
    rintro acc _ _ _ - - ⟨⟨mark, rfl, hmark⟩, rfl, rfl⟩
    refine .bind (tracks_setAccount h ⟨mark, rfl, hmark⟩) fun _ _ _ _ _ _ hset => ?_
    exact .pure ⟨rfl, hset.1⟩
  | getTxContext =>
    refine .bind (tracks_assert id) ?_
    rintro _ _ _ _ - - ⟨rfl, rfl⟩
    exact .pure ⟨rfl, h⟩
  | getBlockHash number => exact .pure ⟨rfl, h⟩
  | emitLog addr data topics =>
    intro u s' hrun
    -- The log is appended to both lists.
    obtain rfl := emitLog_ok hrun
    refine ⟨(), _, rfl, rfl, h.accounts, h.touched, ?_, h.left, h.right⟩
    exact congrArg (· ++ [_]) h.logs
  | accessAccount addr => exact tracks_accessAccount h
  | call m => exact absurd rfl (hq m)

/-! ### The parts of a call -/

variable {msg : Message}

/-- Twin states give a creation the same address. -/
theorem tracks_fillCreateAddress (senderNonce : BitVec 64) (h : s.Twin K t) :
    TracksTwins K (fillCreateAddress senderNonce msg) s t := by
  refine .ite Iff.rfl (fun _ => ?_) fun _ => .pure ⟨rfl, h⟩
  refine .bind (tracks_assert id) ?_
  rintro _ _ _ _ - - ⟨rfl, rfl⟩
  refine .bind (tracks_assert id) ?_
  rintro _ _ s₁ t₁ - - ⟨rfl, rfl⟩
  have haddr : ∀ x : Except Fault Address, TracksTwins K (liftM x : HostS Address) s₁ t₁ :=
    fun _ => .lift fun _ _ => ⟨rfl, h⟩
  refine .bind (haddr _) ?_
  rintro recipient _ _ _ - - ⟨rfl, h₁⟩
  exact .bind (tracks_accessAccount h₁) fun _ _ _ _ _ _ h₂ => .pure ⟨rfl, h₂.2⟩

/-- `prepare_message` takes twin states to twin states. -/
theorem tracks_prepareMessage (h : s.Twin K t) (hsender : (t.state.find msg.sender).isSome) :
    TracksTwins K (prepareMessage msg) s t := by
  refine .bind (tracks_getAccount h hsender) ?_
  rintro senderAcc _ s₀ t₀ - - ⟨⟨mark, rfl, hmark⟩, rfl, rfl⟩
  refine .ite Iff.rfl (fun _ => .pure ⟨rfl, h⟩) fun _ => ?_
  have hbump : Tracks (fun _ _ s' t' => s'.Twin K t') (bumpNonce senderAcc msg)
      (bumpNonce { senderAcc with erasable := mark } msg) s₀ t₀ := by
    have hacc : TwinAccounts msg.sender { senderAcc with nonce := senderAcc.nonce + 1 }
        { senderAcc with nonce := senderAcc.nonce + 1, erasable := mark } := ⟨mark, rfl, hmark⟩
    exact .ite Iff.rfl (fun _ => (tracks_setAccount h hacc).mono fun _ _ _ _ hset => hset.1)
      fun _ => .pure h
  refine .bind hbump fun _ _ _ _ _ _ h₁ => .bind (tracks_fillCreateAddress _ h₁) ?_
  rintro msg' _ _ _ - - ⟨rfl, h₂⟩
  exact .pure ⟨rfl, h₂⟩

/-- A transfer between accounts that are there. -/
theorem tracks_transfer {sender recipient : Address} {value : Word} (h : s.Twin K t)
    (hsender : (t.state.find sender).isSome) (hrecipient : (t.state.find recipient).isSome) :
    TracksTwins K (transfer sender recipient value) s t := by
  refine .bind (tracks_getAccount h hsender) ?_
  rintro senderAcc _ _ _ - - ⟨⟨mark, rfl, hmark⟩, rfl, rfl⟩
  refine .bind (tracks_assert id) ?_
  rintro _ _ _ _ - - ⟨rfl, rfl⟩
  refine .bind (tracks_setAccount h ⟨mark, rfl, hmark⟩) ?_
  rintro _ _ _ _ - - ⟨h₁, rfl, rfl⟩
  refine .bind (tracks_getAccount h₁ (accountsStay_setAcc _ _ _ _ hrecipient)) ?_
  rintro recipientAcc _ _ _ - - ⟨⟨mark, rfl, hmark⟩, rfl, rfl⟩
  have hacc : TwinAccounts recipient { recipientAcc with balance := recipientAcc.balance + value }
      { recipientAcc with balance := recipientAcc.balance + value, erasable := mark } :=
    ⟨mark, rfl, hmark⟩
  exact (tracks_setAccount h₁ hacc).mono fun _ _ _ _ hset => ⟨rfl, hset.1⟩

/-- Touching makes an account present on both sides. -/
theorem tracks_touch (h : s.Twin K t) :
    Tracks (fun acc acc' s' t' => TwinAccounts addr acc acc' ∧ s'.Twin K t' ∧
      (t'.state.find addr).isSome) (touch addr) (touch addr) s t := by
  intro acc s' hrun
  obtain ⟨rfl, rfl⟩ := touch_eq_ok.1 hrun
  have hacc : TwinAccounts addr (touched s addr) (touched t addr) := by
    obtain ⟨mark, hacc, -⟩ := h.accountOr addr false
    refine ⟨true, ?_, fun _ => rfl⟩
    unfold touched
    rw [hacc]
  exact ⟨_, _, touch_eq_ok.2 ⟨rfl, rfl⟩, hacc, h.setAcc hacc, isSome_find_setAcc _ _ _⟩

/-- Entering a call takes twin states to twin states. -/
theorem tracks_enterCall (h : s.Twin K t) (hsender : (t.state.find msg.sender).isSome) :
    TracksTwins K (enterCall msg) s t := by
  refine .bind (tracks_assert id) ?_
  rintro _ _ _ _ - - ⟨rfl, rfl⟩
  refine .ite Iff.rfl (fun _ => ?_) fun _ => .pure ⟨rfl, h⟩
  refine .bind (tracks_touch h) fun _ _ _ _ _ hrun ⟨_, h₁, hrecipient⟩ => ?_
  obtain ⟨-, rfl⟩ := touch_eq_ok.1 hrun
  exact tracks_transfer h₁ (accountsStay_setAcc _ _ _ _ hsender) hrecipient

omit [Ethash] in
/-- Whether an address is fresh is seen in the account, absent or not. -/
theorem fresh_iff : Fresh s addr ↔ (accountOr s addr {}).nonce = 0 ∧ (accountOr s addr {}).code = [] :=
  ⟨fun h => ⟨h.nonce, h.code⟩, fun h => ⟨h.1, h.2⟩⟩

omit [Ethash] in
/-- A creation collides only at an address that is not fresh. -/
theorem not_fresh_of_collision (h : enterCreate msg s = .ok (false, s')) :
    ¬ Fresh s msg.recipient := by
  rw [fresh_iff]
  unfold accountOr
  rintro ⟨hnonce, hcode⟩
  obtain ⟨acc, s₁, hfind, hrun⟩ := bind_eq_ok.1 h
  obtain ⟨rfl, rfl⟩ := find_eq_ok.1 hfind
  cases hacc : s₁.state.find msg.recipient with
  | none =>
    rw [hacc] at hrun
    simp only [bind_eq_ok, pure_eq_ok] at hrun
    grind
  | some acc =>
    rw [hacc] at hrun hnonce hcode
    have hfree : ¬ (acc.nonce ≠ 0 ∨ acc.code ≠ []) := by
      rintro (h | h)
      · exact h hnonce
      · exact h hcode
    simp only [if_neg hfree, bind_eq_ok, pure_eq_ok] at hrun
    grind

omit [Ethash] in
/-- At an address that is not fresh a creation collides. -/
theorem enterCreate_of_not_fresh (h : ¬ Fresh s msg.recipient) :
    enterCreate msg s = .ok (false, s) := by
  rw [fresh_iff] at h
  unfold accountOr at h
  refine bind_eq_ok.2 ⟨_, s, find_eq_ok.2 ⟨rfl, rfl⟩, ?_⟩
  cases hacc : s.state.find msg.recipient with
  | none =>
    rw [hacc] at h
    exact absurd ⟨rfl, rfl⟩ h
  | some acc =>
    rw [hacc] at h
    have hcollision : acc.nonce ≠ 0 ∨ acc.code ≠ [] := by
      by_contra hfree
      exact h (not_or.1 hfree |>.imp not_not.1 not_not.1)
    simp only [if_pos hcollision]
    rfl

/-- Entering a creation takes twin states to twin states. -/
theorem tracks_enterCreate (h : s.Twin K t) (hsender : (t.state.find msg.sender).isSome) :
    TracksTwins K (enterCreate msg) s t := by
  have hacc := h.accountOr msg.recipient false
  intro entered s' hrun
  rcases enterCreate_ok hrun with ⟨rfl, rfl⟩ | ⟨rfl, hnonce, hcode, htransfer⟩
  · refine ⟨false, t, enterCreate_of_not_fresh fun hfresh => not_fresh_of_collision hrun ?_, rfl, h⟩
    obtain ⟨mark, hacc, -⟩ := hacc
    rw [fresh_iff, hacc] at hfresh
    exact fresh_iff.2 hfresh
  · have hnew : (setAcc s msg.recipient (newAccount s msg.recipient)).Twin K
        (setAcc t msg.recipient (newAccount t msg.recipient)) := by
      obtain ⟨mark, hacc, hmark⟩ := hacc
      refine h.setAcc ⟨mark, ?_, hmark⟩
      unfold newAccount
      rw [hacc]
    obtain ⟨_, t', htransfer', -, h'⟩ := tracks_transfer hnew
      (accountsStay_setAcc _ _ _ _ hsender) (isSome_find_setAcc _ _ _) _ _ htransfer
    have hfresh : Fresh t msg.recipient := by
      obtain ⟨mark, hacc, -⟩ := hacc
      rw [fresh_iff, hacc]
      exact ⟨hnonce, hcode⟩
    exact ⟨true, t', enterCreate_of_fresh hfresh htransfer', rfl, h'⟩

/-- The host states after a message: twins, unless the message failed; then their accounts will be
reverted, and only the caches matter. -/
def EndsTwin (K : Set Bytes) (r r' : CallResult) (s t : HostState) : Prop :=
  r.Alike r' ∧ (s.Twin K t ∨ r.statusCode ≠ .success ∧ Precompiles.Cache.Sound K s.cache ∧
    Precompiles.Cache.Sound K t.cache)

/-- Deploying the code of twin results takes twin states to twin states. -/
theorem tracks_deploy {result result' : CallResult} (h : EndsTwin K result result' s t)
    (hright : (t.state.find msg.recipient).isSome) :
    Tracks (EndsTwin K) (deploy msg result) (deploy msg result') s t := by
  obtain ⟨halike, htwin⟩ := h
  refine .ite (not_congr halike.success_iff).symm (fun hfail => .pure ⟨?_, htwin⟩) fun hsuccess => ?_
  · exact ⟨by rw [halike.rest], halike.status⟩
  · have hsuccess : result.statusCode = .success := not_not.1 hsuccess
    -- Results that succeed are the same.
    obtain rfl : result' = result := by
      rw [halike.rest, halike.success_iff.2 hsuccess, ← hsuccess]
    have h : s.Twin K t := htwin.resolve_right fun hfail => hfail.1 hsuccess
    refine .bind (tracks_assert id) ?_
    rintro _ _ _ _ - - ⟨rfl, rfl⟩
    refine .ite Iff.rfl (fun _ => .pure ⟨.refl _, .inl h⟩) fun _ => ?_
    refine .ite Iff.rfl (fun _ => .pure ⟨.refl _, .inl h⟩) fun _ => ?_
    refine .ite Iff.rfl (fun _ => .pure ⟨.refl _, .inl h⟩) fun _ => ?_
    refine .bind (tracks_getAccount h hright) ?_
    rintro acc _ _ _ - - ⟨⟨mark, rfl, hmark⟩, rfl, rfl⟩
    refine .bind (tracks_setAccount h ⟨mark, rfl, hmark⟩) fun _ _ _ _ _ _ hset => ?_
    exact .pure ⟨.refl _, .inl hset.1⟩

/-- The code of a called account. -/
theorem codeOf_eq (h : s.Twin K t) (msg : Message) : codeOf t msg = codeOf s msg := by
  unfold codeOf
  obtain ⟨mark, hacc, -⟩ :=
    h.accountOr (if msg.kind = .call then msg.recipient else msg.codeAddress) false
  rw [hacc]

/-- A precompile answers alike in twins. -/
theorem tracks_callPrecompile (hinj : Set.InjOn Ethash.keccak256 K) (h : s.Twin K t)
    (hK : msg.codeAddress = 3 → msg.inputData ∈ K) :
    Tracks (fun r r' s' t' => (r = none ∧ r' = none ∨ ∃ x x', r = some x ∧ r' = some x' ∧ x.Alike x') ∧
      s'.Twin K t') (callPrecompile msg) (callPrecompile msg) s t := by
  intro r s' hrun
  obtain ⟨hresult, rfl⟩ := callPrecompile_ok hrun
  have halike := Precompiles.callPrecompile_alike hinj h.left h.right hK
  have htwin : HostState.Twin K
      { s with cache := (Precompiles.callPrecompile s.cache msg).cache }
      { t with cache := (Precompiles.callPrecompile t.cache msg).cache } :=
    ⟨h.accounts, h.touched, h.logs, Precompiles.callPrecompile_sound h.left hK,
      Precompiles.callPrecompile_sound h.right hK⟩
  rw [hresult] at halike
  generalize hresult' : (Precompiles.callPrecompile t.cache msg).result = x at halike
  cases halike with
  | unserved => exact ⟨_, _, callPrecompile_of_result hresult', .inl ⟨rfl, rfl⟩, htwin⟩
  | served h => exact ⟨_, _, callPrecompile_of_result hresult', .inr ⟨_, _, rfl, rfl, h⟩, htwin⟩

end Host

end Zvmone
