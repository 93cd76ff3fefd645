import Zvmone.State.HostSteps
import Zvmone.Vm.ZeroExtended

/-! # Copies through the host

`EXTCODECOPY` asks the host for the bytes of the code of an account. With the host of the state
library it copies the slice of the zero-extended code, as the other copy instructions do with their
sources (`copy_slices`). -/

namespace Zvmone

open Interaction InstrM

/-! ### External code -/

namespace InstrM

variable {α β σ : Type}

/-- The parts of a run that goes on. -/
theorem run_bind_ok {env : Env HostCall.Answer Fault σ} {m : InstrM α} {f : α → InstrM β} {b : β}
    {c c' : Ctx} {s s' : σ} (h : run env ((m >>= f) c) s = .ok ((.ok b, c'), s')) :
    ∃ a c₁ s₁, run env (m c) s = .ok ((.ok a, c₁), s₁) ∧
      run env (f a c₁) s₁ = .ok ((.ok b, c'), s') := by
  have hbind : run env (m c >>= andThen f) s = .ok ((.ok b, c'), s') := h
  rw [run_bind] at hbind
  rcases hm : run env (m c) s with e | ⟨⟨e | a, c₁⟩, s₁⟩ <;> rw [hm] at hbind
  · cases hbind
  · cases hbind
  · exact ⟨a, c₁, s₁, rfl, hbind⟩

/-- A host call keeps the context. -/
theorem run_host_ok {env : Env HostCall.Answer Fault σ} {q : HostCall} {r : q.Answer}
    {c c' : Ctx} {s s' : σ} (h : run env (host q c) s = .ok ((.ok r, c'), s')) :
    env q s = .ok (r, s') ∧ c' = c := by
  rcases hq : env q s with e | ⟨r', s₁⟩
  · have hrun : run env (host q c) s = .error e := run_ask_error hq _
    rw [hrun] at h
    cases h
  · have hrun : run env (host q c) s = .ok ((.ok r', c), s₁) := run_ask_ok hq _
    rw [hrun] at h
    cases h
    exact ⟨rfl, rfl⟩

end InstrM

namespace Host

/-- The code of an account, empty if there is none. -/
def accountCode (hs : HostState) (addr : Address) : Bytes :=
  (hs.state.find addr).elim [] Account.code

/-- The part of the code that `copy_code` reads. -/
def codeRange (code : Bytes) (codeOffset bufferSize : Nat) : Range :=
  ⟨min codeOffset code.length, min bufferSize (code.length - min codeOffset code.length)⟩

/-- The range the host copies is inside of the code. -/
theorem codeRange_inside (code : Bytes) (codeOffset bufferSize : Nat) :
    (codeRange code codeOffset bufferSize).Inside code := by
  unfold Range.Inside codeRange
  dsimp only
  omega

/-- `copy_code` writes the bytes of the range. -/
theorem copyCode_bytes {hs hs' : HostState} {addr : Address} {codeOffset bufferSize : Nat}
    {bs : Bytes} (h : copyCode addr codeOffset bufferSize hs = .ok (bs, hs')) :
    bs = (codeRange (accountCode hs addr) codeOffset bufferSize).bytes (accountCode hs addr) := by
  have hbytes : ∀ code : Bytes, (code.drop (min codeOffset code.length)).take
      (min bufferSize (code.drop (min codeOffset code.length)).length) =
        (codeRange code codeOffset bufferSize).bytes code := by
    intro code
    rw [List.length_drop]
    rfl
  unfold copyCode at h
  rw [StateRun.bind_eq_ok] at h
  obtain ⟨acc, hs₁, hfind, h⟩ := h
  obtain ⟨rfl, rfl⟩ := find_eq_ok.1 hfind
  obtain ⟨rfl, -⟩ := StateRun.pure_eq_ok.1 h
  rw [hbytes, accountCode]
  cases hs₁.state.find addr <;> rfl

/-- Accessing an account does not change its code. -/
theorem accountCode_accessAccount {hs hs' : HostState} {addr : Address} {status : AccessStatus}
    (h : accessAccount addr hs = .ok (status, hs')) : accountCode hs' addr = accountCode hs addr := by
  obtain ⟨rfl, -⟩ := accessAccount_ok h
  unfold accountCode setAcc accountOr
  rw [State.find_set_self]
  cases hs.state.find addr <;> rfl

end Host

namespace Core

/-- The part of the code that `EXTCODECOPY` makes the host read. -/
def extcodeRange (code : Bytes) (inputIndex size : Word) : Range :=
  let src := if maxBufferSize < inputIndex.toNat then maxBufferSize else inputIndex.toSize
  Host.codeRange code src size.toSize

/-- The copied range begins at the index, or at the end of the code. -/
theorem extcodeRange_offset {code : Bytes} (hcode : code.length < 2 ^ 32) (inputIndex size : Word) :
    (extcodeRange code inputIndex size).offset = min inputIndex.toNat code.length := by
  show min (if maxBufferSize < inputIndex.toNat then maxBufferSize else inputIndex.toSize) _ = _
  -- The offset is clamped to 32 bits first, which is beyond the end of every shorter code.
  have hmax : maxBufferSize = 2 ^ 32 - 1 := rfl
  split
  next hbeyond => omega
  next hwithin => rw [Word.toSize_of_le (by omega)]

variable [Ethash] {ctx : HostContext} {call : Message → HostS CallResult} {c c' : Ctx}
  {hs hs' : HostState}

/-- The additional cost of an account access. -/
def accessGas : AccessStatus → Int
  | .cold => Instr.additionalColdAccountAccessCost
  | .warm => 0

/-- The cold account charge in a run. -/
theorem run_accessAccount {addr : Address}
    (h : run (Host.answer ctx call) (accessAccount addr c) hs = .ok ((.ok (), c'), hs')) :
    ∃ status, Host.accessAccount addr hs = .ok (status, hs') ∧ c' = c.shift (accessGas status) := by
  obtain ⟨status, c₁, hs₁, hask, hcharge⟩ := run_bind_ok h
  obtain ⟨haccess, rfl⟩ := run_host_ok hask
  -- Only a cold account costs more than the base price.
  cases status with
  | warm =>
    cases hcharge
    exact ⟨.warm, haccess, by rw [accessGas, Ctx.shift, Int.sub_zero]⟩
  | cold =>
    rw [if_pos rfl] at hcharge
    by_cases hpaid : 0 ≤ c₁.gasLeft - Instr.additionalColdAccountAccessCost
    · rw [charge_of_paid hpaid] at hcharge
      cases hcharge
      exact ⟨.cold, haccess, rfl⟩
    · rw [charge_of_short (by omega)] at hcharge
      cases hcharge

/-- If `EXTCODECOPY` succeeds, it copied the slice of the account's code. -/
theorem extcodecopy_ok
    (hcode : (Host.accountCode hs (c.stack.get 0).toAddress).length < 2 ^ 32)
    (h : run (Host.answer ctx call) (extcodecopy c) hs = .ok ((.ok (), c'), hs')) :
    ∃ status hs₁, Host.accessAccount (c.stack.get 0).toAddress hs = .ok (status, hs₁) ∧
      Copied (Host.accountCode hs (c.stack.get 0).toAddress)
        (extcodeRange (Host.accountCode hs (c.stack.get 0).toAddress) (c.stack.get 2)
          (c.stack.get 3)) (accessGas status)
        (c.stack.get 1).toNat (c.stack.get 2).toNat (c.stack.get 3).toNat c c' := by
  unfold extcodecopy at h
  simp only [pop_bind] at h
  rw [show c.stack.pop.2.get 0 = c.stack.get 1 from rfl,
    show c.stack.pop.2.pop.2.get 0 = c.stack.get 2 from rfl,
    show c.stack.pop.2.pop.2.pop.2.get 0 = c.stack.get 3 from rfl] at h
  generalize hdst : c.stack.get 1 = dst at *
  generalize hsrc : c.stack.get 2 = src at *
  generalize hsize : c.stack.get 3 = size at *
  rcases requireMemory_cases dst size { c with stack := c.stack.pop.2.pop.2.pop.2.pop.2 }
    with ⟨c₁, hfail, -⟩ | ⟨haddr, hok⟩
  · rw [bind_of_error hfail] at h
    cases h
  · rw [bind_of_ok hok] at h
    rcases charge_words haddr { c with stack := c.stack.pop.2.pop.2.pop.2.pop.2 }
      with ⟨c₁, hfail, -⟩ | hpaid
    · rw [bind_of_error hfail] at h
      cases h
    · rw [bind_of_ok hpaid] at h
      obtain ⟨_, c₁, hs₁, hrun, h⟩ := run_bind_ok h
      obtain ⟨status, haccess, rfl⟩ := run_accessAccount hrun
      refine ⟨status, hs₁, haccess, ?_⟩
      -- The code that is copied is the one from before the access.
      have hcode₁ := Host.accountCode_accessAccount haccess
      generalize Host.accountCode hs (c.stack.get 0).toAddress = code at *
      obtain ⟨hsizeExact, -⟩ := haddr.toSize
      have hoffset := extcodeRange_offset hcode src size
      have hlength : (extcodeRange code src size).length =
          min size.toNat (code.length - (extcodeRange code src size).offset) := by
        rw [← hsizeExact]
        rfl
      have hinside : (extcodeRange code src size).Inside code := Host.codeRange_inside ..
      have hcopied := @copied_charged c code _ dst src size
        ({ c with stack := c.stack.pop.2.pop.2.pop.2.pop.2 }.shift (accessGas status)) haddr hinside
        hoffset hlength rfl (accessGas status) rfl
      rw [shift_charged] at h
      by_cases hpos : size.toSize > 0
      · rw [if_pos hpos] at h
        obtain ⟨answer, c₂, hs₂, hask, h⟩ := run_bind_ok h
        obtain ⟨hcopy, rfl⟩ := run_host_ok hask
        -- The host writes the bytes of the range, and they fit the buffer.
        have hanswer : answer = (extcodeRange code src size).bytes code := by
          rw [← hcode₁]
          exact Host.copyCode_bytes hcopy
        have hlen := hinside.length_bytes
        rw [hanswer, List.take_of_length_le (by omega), hlen,
          bind_of_ok (show writeMemory _ _ _ = .ret (.ok (), written _ _ _) from rfl),
          writeMemory_if List.length_replicate] at h
        cases h
        exact hcopied
      -- Nothing to copy: the host is not asked.
      · rw [if_neg hpos] at h
        cases h
        have hnil : (extcodeRange code src size).bytes code = [] :=
          List.eq_nil_of_length_eq_zero (by rw [hinside.length_bytes]; omega)
        rw [hnil, written_nil, show size.toSize - (extcodeRange code src size).length = 0 by omega,
          List.replicate_zero, written_nil] at hcopied
        exact hcopied

/-! ### The instructions together -/

/-- The instructions that copy to memory leave the slice of their zero-extended source there, and
`CALLDATALOAD` the word of it on the stack. They read nothing beyond the source, and a copy costs
the expansion of the memory and 3 for every started word. `RETURNDATACOPY` fails exactly on a slice
that is not all in the return data. -/
theorem copy_slices (ctx : HostContext) (call : Message → HostS CallResult) (c : Ctx)
    (hinput : c.state.msg.inputData.length < 2 ^ 64)
    (hcode : c.state.originalCode.length < 2 ^ 64)
    (hreturn : c.state.returnData.length < 2 ^ 64) :
    (∀ c', calldatacopy c = .ret (.ok (), c') →
      Copied c.state.msg.inputData
        (copyRange c.state.msg.inputData (c.stack.get 1) (c.stack.get 2)) 0
        (c.stack.get 0).toNat (c.stack.get 1).toNat (c.stack.get 2).toNat c c') ∧
    (∀ c', codecopy c = .ret (.ok (), c') →
      Copied c.state.originalCode
        (copyRange c.state.originalCode (c.stack.get 1) (c.stack.get 2)) 0
        (c.stack.get 0).toNat (c.stack.get 1).toNat (c.stack.get 2).toNat c c') ∧
    (∀ hs hs' c', (Host.accountCode hs (c.stack.get 0).toAddress).length < 2 ^ 32 →
      run (Host.answer ctx call) (extcodecopy c) hs = .ok ((.ok (), c'), hs') →
      ∃ status hs₁, Host.accessAccount (c.stack.get 0).toAddress hs = .ok (status, hs₁) ∧
        Copied (Host.accountCode hs (c.stack.get 0).toAddress)
          (extcodeRange (Host.accountCode hs (c.stack.get 0).toAddress) (c.stack.get 2)
            (c.stack.get 3)) (accessGas status)
          (c.stack.get 1).toNat (c.stack.get 2).toNat (c.stack.get 3).toNat c c') ∧
    (∀ c', returndatacopy c = .ret (.ok (), c') →
      Copied c.state.returnData ⟨(c.stack.get 1).toSize, (c.stack.get 2).toSize⟩ 0
        (c.stack.get 0).toNat (c.stack.get 1).toNat (c.stack.get 2).toNat c c') ∧
    (Affordable (c.stack.get 0) (c.stack.get 2) c →
      ((∃ c', returndatacopy c = .ret (.ok (), c')) ↔
        (c.stack.get 1).toNat + (c.stack.get 2).toNat ≤ c.state.returnData.length) ∧
      ((∃ c', returndatacopy c = .ret (.error .invalidMemoryAccess, c')) ↔
        c.state.returnData.length < (c.stack.get 1).toNat + (c.stack.get 2).toNat)) ∧
    (loadRange c.state.msg.inputData (c.stack.get 0)).Inside c.state.msg.inputData ∧
    zeroExtended c.state.msg.inputData (c.stack.get 0).toNat 32 =
      (loadRange c.state.msg.inputData (c.stack.get 0)).bytes c.state.msg.inputData ++
        List.replicate (32 - (loadRange c.state.msg.inputData (c.stack.get 0)).length) 0 ∧
    calldataload c.stack c.state = .ret
      (c.stack.set 0 (.load (zeroExtended c.state.msg.inputData (c.stack.get 0).toNat 32)),
        c.state) := by
  have hcopy : ∀ buffer : ExecutionState → Bytes,
      (∀ m, buffer { c.state with memory := m } = buffer c.state) →
      (buffer c.state).length < 2 ^ 64 → ∀ c', copy buffer c = .ret (.ok (), c') →
      Copied (buffer c.state) (copyRange (buffer c.state) (c.stack.get 1) (c.stack.get 2)) 0
        (c.stack.get 0).toNat (c.stack.get 1).toNat (c.stack.get 2).toNat c c' := by
    intro buffer hmemory hsource c' h
    -- `CALLDATACOPY` and `CODECOPY` only differ in the buffer.
    rcases copy_cases buffer c hmemory hsource with ⟨c₁, hfail, -⟩ | ⟨c₁, hok, hcopied⟩
    · rw [hfail] at h
      cases h
    · rw [hok] at h
      cases h
      exact hcopied
  refine ⟨hcopy _ (fun _ => rfl) hinput, hcopy _ (fun _ => rfl) hcode,
    fun hs hs' c' hexternal h => extcodecopy_ok hexternal h, fun c' h => ?_, fun haffordable => ?_,
    loadRange_inside hinput _, (loadRange_bytes hinput _).symm, calldataload_eq hinput⟩
  · rcases returndatacopy_cases c hreturn with ⟨e, c₁, hfail, -⟩ | ⟨-, c₁, hok, hcopied⟩ |
      ⟨-, c₁, hfail⟩
    · rw [hfail] at h
      cases h
    · rw [hok] at h
      cases h
      exact hcopied
    · rw [hfail] at h
      cases h
  -- Of the three cases the gas excludes the first, and the end of the slice tells the others apart.
  · rcases returndatacopy_cases c hreturn with ⟨e, c₁, -, hunpaid⟩ | ⟨hend, c₁, hok, -⟩ |
      ⟨hend, c₁, hfail⟩
    · exact absurd haffordable hunpaid
    · refine ⟨iff_of_true ⟨c₁, hok⟩ hend, iff_of_false ?_ (by omega)⟩
      rintro ⟨c₂, hfail⟩
      rw [hok] at hfail
      cases hfail
    · refine ⟨iff_of_false ?_ (by omega), iff_of_true ⟨c₁, hfail⟩ hend⟩
      rintro ⟨c₂, hok⟩
      rw [hfail] at hok
      cases hok

/-- The stack of a copy of four bytes from offset 1 to offset 0, and three bytes of call data. -/
def copyThree : Ctx :=
  ⟨⟨fun i => if i = 0 then 4 else if i = 1 then 1 else 0, 3⟩, 100,
    { msg := { inputData := [1, 2, 3] }, originalCode := [] }⟩

omit [Ethash] in
/-- Two of the bytes are copied, and two are cleared. -/
theorem copy_slices_copyThree : ∃ c', calldatacopy copyThree = .ret (.ok (), c') ∧
    Copied [1, 2, 3] ⟨1, 2⟩ 0 0 1 4 copyThree c' := by
  let ethash : Ethash := ⟨fun _ => 0⟩
  let ctx : HostContext := ⟨{ coinbase := 0 },
    { gasLimit := 0, maxGasPrice := 0, maxPriorityGasPrice := 0, sender := 0, to_ := none,
      value := 0 }⟩
  have h := copy_slices ctx (fun _ => StateT.lift (.error .outOfFuel)) copyThree (by decide)
    (by decide) (by decide)
  obtain ⟨c', hrun⟩ : ∃ c', calldatacopy copyThree = .ret (.ok (), c') := ⟨_, rfl⟩
  exact ⟨c', hrun, h.1 c' hrun⟩

end Core

end Zvmone
