import Zvmone.State.Transition

/-! # The end of a block

`finalize` deletes the empty touched accounts first and credits the withdrawals afterwards.
`Finalizes` is what its documentation promises, with the withdrawals applied first; `finalizes_iff`
says for which states and withdrawals the order does not matter. -/

namespace Zvmone

/-- The recipients of withdrawals. -/
def recipients (withdrawals : List Withdrawal) : List Address := withdrawals.map (·.recipient)

/-- What an address is credited by the withdrawals. -/
def withdrawn (withdrawals : List Withdrawal) (addr : Address) : Nat :=
  ((withdrawals.filter (·.recipient = addr)).map fun w => w.amountInGplanck.toNat * 10 ^ 9).sum

/-- The account at an address once all withdrawals have touched the state, with the balance it had
before. -/
def touchedAccount (s : State) (withdrawals : List Withdrawal) (addr : Address) : Option Account :=
  if addr ∈ recipients withdrawals then some { (s.find addr).getD {} with erasable := true }
  else s.find addr

/-- The account is erasable, and empty with `amount` added to its balance. -/
def ErasableWith (acc : Account) (amount : Nat) : Prop :=
  acc.erasable = true ∧ acc.code = [] ∧ acc.nonce = 0 ∧ acc.balance.toNat + amount = 0

/-- The withdrawals are applied to the state `s` and empty touched accounts deleted. -/
structure Finalizes (s : State) (withdrawals : List Withdrawal) (s' : State) : Prop where
  /-- No account is both erasable and empty. -/
  noneLeft : ∀ addr acc, s'.find addr = some acc → ¬ (acc.erasable = true ∧ acc.IsEmpty)
  /-- All other accounts are there, with their withdrawals added to the balance. -/
  credited : ∀ addr acc, touchedAccount s withdrawals addr = some acc →
    ¬ ErasableWith acc (withdrawn withdrawals addr) →
    ∃ acc', s'.find addr = some acc' ∧ acc'.nonce = acc.nonce ∧ acc'.code = acc.code ∧
      acc'.storage = acc.storage ∧
      acc'.balance.toNat = acc.balance.toNat + withdrawn withdrawals addr
  /-- Empty accounts that were never touched are kept. -/
  untouched : ∀ addr acc, s.find addr = some acc → acc.IsEmpty → acc.erasable = false →
    addr ∉ recipients withdrawals → s'.find addr = some acc

/-! ### The two passes -/

/-- The account with an amount credited. -/
def credit (acc : Account) (amount : Nat) : Account :=
  { acc with erasable := true, balance := acc.balance + BitVec.ofNat 256 amount }

/-- Two credits are one. -/
theorem credit_credit (acc : Account) (n m : Nat) : credit (credit acc n) m = credit acc (n + m) := by
  simp [credit, BitVec.ofNat_add, BitVec.add_assoc]

/-- The amount of a withdrawal in the smallest unit. -/
theorem Withdrawal.getAmount_eq (w : Withdrawal) :
    w.getAmount = BitVec.ofNat 256 (w.amountInGplanck.toNat * 10 ^ 9) := by
  apply BitVec.eq_of_toNat_eq
  rw [getAmount, BitVec.toNat_mul, BitVec.toNat_setWidth_of_le (by decide), BitVec.toNat_ofNat]
  rfl

/-- A withdrawal credits its recipient, which is created if it is absent. -/
theorem find_applyWithdrawal (s : State) (w : Withdrawal) (addr : Address) :
    (applyWithdrawal s w).find addr =
      if addr = w.recipient then
        some (credit ((s.find addr).getD {}) (w.amountInGplanck.toNat * 10 ^ 9))
      else s.find addr := by
  unfold applyWithdrawal
  rw [State.touch_eq]
  dsimp only
  rw [State.set_set, State.find_set, w.getAmount_eq]
  split
  next h => subst h; rfl
  next => rfl

/-- The recipients of the withdrawals. -/
theorem mem_recipients_cons {w : Withdrawal} {ws : List Withdrawal} {addr : Address} :
    addr ∈ recipients (w :: ws) ↔ addr = w.recipient ∨ addr ∈ recipients ws :=
  List.mem_cons

/-- Without withdrawals nothing is withdrawn. -/
@[simp] theorem withdrawn_nil (addr : Address) : withdrawn [] addr = 0 := rfl

/-- What the first withdrawal adds. -/
theorem withdrawn_cons (w : Withdrawal) (ws : List Withdrawal) (addr : Address) :
    withdrawn (w :: ws) addr =
      (if w.recipient = addr then w.amountInGplanck.toNat * 10 ^ 9 else 0) + withdrawn ws addr := by
  unfold withdrawn
  by_cases h : w.recipient = addr <;> simp [h]

/-- Others receive nothing. -/
theorem withdrawn_of_not_mem {ws : List Withdrawal} {addr : Address} (h : addr ∉ recipients ws) :
    withdrawn ws addr = 0 := by
  induction ws with
  | nil => rfl
  | cons w ws ih =>
    rw [mem_recipients_cons, not_or] at h
    rw [withdrawn_cons, if_neg (Ne.symm h.1), ih h.2]

/-- The second pass: every recipient is touched and credited, and nothing else changes. -/
theorem find_applyWithdrawals (ws : List Withdrawal) (s : State) (addr : Address) :
    (ws.foldl applyWithdrawal s).find addr =
      if addr ∈ recipients ws then some (credit ((s.find addr).getD {}) (withdrawn ws addr))
      else s.find addr := by
  induction ws generalizing s with
  | nil => rfl
  | cons w ws ih =>
    rw [List.foldl_cons, ih, find_applyWithdrawal, withdrawn_cons]
    -- The first withdrawal and the rest may credit the same address: their amounts add up.
    by_cases haddr : addr = w.recipient
    · rw [if_pos haddr, if_pos haddr.symm, if_pos (mem_recipients_cons.2 (.inl haddr)),
        Option.getD_some, credit_credit]
      by_cases hrest : addr ∈ recipients ws
      · rw [if_pos hrest]
      · rw [if_neg hrest, withdrawn_of_not_mem hrest, Nat.add_zero]
    · rw [if_neg haddr, if_neg (Ne.symm haddr), Nat.zero_add]
      by_cases hrest : addr ∈ recipients ws
      · rw [if_pos hrest, if_pos (mem_recipients_cons.2 (.inr hrest))]
      · rw [if_neg hrest, if_neg fun h => (mem_recipients_cons.1 h).elim haddr hrest]

/-- The first pass. -/
theorem find_eraseIf (s : State) (p : Account → Bool) (addr : Address) :
    (s.eraseIf p).find addr = (s.find addr).filter fun acc => ¬ p acc := by
  unfold State.eraseIf State.find
  rw [AList.lookup_filter]

/-- The account a recipient is credited on: the one from before, or a new one if that was deleted. -/
def creditBase (s : State) (addr : Address) : Account :=
  ((s.eraseIf fun acc => acc.erasable ∧ acc.IsEmpty).find addr).getD {}

/-- What becomes of an account in `finalize`. -/
theorem find_finalize (s : State) (ws : List Withdrawal) (addr : Address) :
    (finalize s ws).find addr =
      if addr ∈ recipients ws then some (credit (creditBase s addr) (withdrawn ws addr))
      else (s.find addr).filter fun acc => ¬ (acc.erasable ∧ acc.IsEmpty) := by
  unfold finalize creditBase
  rw [find_applyWithdrawals, find_eraseIf]
  simp

/-- A deleted account is only distinguished from a new one by its storage. -/
theorem creditBase_cases (s : State) (addr : Address) :
    (creditBase s addr).code = ((s.find addr).getD {}).code ∧
      (creditBase s addr).nonce = ((s.find addr).getD {}).nonce ∧
      (creditBase s addr).balance = ((s.find addr).getD {}).balance ∧
      (creditBase s addr).storage =
        if ((s.find addr).getD {}).erasable ∧ ((s.find addr).getD {}).IsEmpty then ∅
        else ((s.find addr).getD {}).storage := by
  unfold creditBase
  rw [find_eraseIf]
  cases s.find addr with
  | none => exact ⟨rfl, rfl, rfl, by split <;> rfl⟩
  | some acc =>
    by_cases hempty : acc.erasable ∧ acc.IsEmpty
    · obtain ⟨hcode, hnonce, hbalance⟩ := hempty.2
      rw [Option.filter_some, if_neg (by simp [hempty])]
      exact ⟨hcode.symm, hnonce.symm, hbalance.symm, (if_pos hempty).symm⟩
    · rw [Option.filter_some, if_pos (decide_eq_true (by simpa using hempty))]
      exact ⟨rfl, rfl, rfl, (if_neg hempty).symm⟩

/-! ### Where the order does not matter -/

/-- The condition on one recipient: its balance does not overflow, it is not empty once credited, and
it has no storage if it is deleted before. -/
structure CreditSafe (acc : Account) (amount : Nat) : Prop where
  fits : acc.balance.toNat + amount < 2 ^ 256
  nonempty : ¬ (acc.code = [] ∧ acc.nonce = 0 ∧ acc.balance.toNat + amount = 0)
  storage : acc.erasable = true → acc.IsEmpty → acc.storage = ∅

/-- A credit that does not overflow. -/
theorem toNat_credit {acc : Account} {amount : Nat} (h : acc.balance.toNat + amount < 2 ^ 256) :
    (credit acc amount).balance.toNat = acc.balance.toNat + amount := by
  show (acc.balance + BitVec.ofNat 256 amount).toNat = _
  rw [BitVec.toNat_add, BitVec.toNat_ofNat, Nat.add_mod_mod, Nat.mod_eq_of_lt h]

/-- **`finalize` does what it promises exactly if every recipient is safe to credit.** -/
theorem finalizes_iff (s : State) (ws : List Withdrawal) :
    Finalizes s ws (finalize s ws) ↔
      ∀ addr ∈ recipients ws, CreditSafe ((s.find addr).getD {}) (withdrawn ws addr) := by
  constructor
  -- Only if: what is promised of a recipient, read through the two passes.
  · intro h addr haddr
    obtain ⟨hcode, hnonce, hbalance, hstorage⟩ := creditBase_cases s addr
    have hfind := find_finalize s ws addr
    rw [if_pos haddr] at hfind
    have hnonempty : ¬ (((s.find addr).getD {}).code = [] ∧ ((s.find addr).getD {}).nonce = 0 ∧
        ((s.find addr).getD {}).balance.toNat + withdrawn ws addr = 0) := by
      -- Crediting sets `erasable`, so an account that stays empty would be left behind.
      rintro ⟨hcode₀, hnonce₀, hbalance₀⟩
      refine h.noneLeft addr _ hfind ⟨rfl, hcode.trans hcode₀, hnonce.trans hnonce₀, ?_⟩
      apply BitVec.eq_of_toNat_eq
      rw [toNat_credit (by rw [hbalance, hbalance₀]; decide), hbalance, hbalance₀]
      rfl
    have htouched : touchedAccount s ws addr
        = some { (s.find addr).getD {} with erasable := true } := if_pos haddr
    -- Not wrapping is part of the promise: the balance is a number below `2 ^ 256`.
    obtain ⟨acc, hacc, -, -, hsame, hsum⟩ := h.credited addr _ htouched
      fun herasable => hnonempty herasable.2
    obtain rfl : credit (creditBase s addr) (withdrawn ws addr) = acc :=
      Option.some.inj (hfind.symm.trans hacc)
    refine ⟨hsum ▸ BitVec.isLt _, hnonempty, fun herasable hempty => ?_⟩
    -- Deleted by the first pass and inserted again by the second.
    have hdeleted : (creditBase s addr).storage = ∅ := by rw [hstorage, if_pos ⟨herasable, hempty⟩]
    exact hsame.symm.trans hdeleted
  -- If: the three promises, by whether the address is a recipient.
  · intro hsafe
    refine ⟨?_, ?_, ?_⟩
    · rintro addr acc hfind ⟨herasable, hempty⟩
      rw [find_finalize] at hfind
      split at hfind
      next haddr =>
        obtain ⟨hcode, hnonce, hbalance, -⟩ := creditBase_cases s addr
        obtain rfl := Option.some.inj hfind
        have hsum := @toNat_credit (creditBase s addr) (withdrawn ws addr)
          (by rw [hbalance]; exact (hsafe addr haddr).fits)
        obtain ⟨hcode₀, hnonce₀, hbalance₀⟩ := hempty
        refine (hsafe addr haddr).nonempty ⟨hcode ▸ hcode₀, hnonce ▸ hnonce₀, ?_⟩
        rw [← hbalance, ← hsum, hbalance₀]
        rfl
      next =>
        obtain ⟨-, hkept⟩ := Option.filter_eq_some_iff.1 hfind
        simp [herasable, hempty] at hkept
    · intro addr acc htouched hnonempty
      rw [find_finalize]
      unfold touchedAccount at htouched
      split
      next haddr =>
        rw [if_pos haddr] at htouched
        obtain rfl := Option.some.inj htouched
        obtain ⟨hcode, hnonce, hbalance, hstorage⟩ := creditBase_cases s addr
        refine ⟨_, rfl, hnonce, hcode, ?_, ?_⟩
        · show (creditBase s addr).storage = _
          rw [hstorage]
          split
          next hdeleted => exact ((hsafe addr haddr).storage hdeleted.1 hdeleted.2).symm
          next => rfl
        · rw [toNat_credit (by rw [hbalance]; exact (hsafe addr haddr).fits), hbalance]
      next haddr =>
        rw [if_neg haddr] at htouched
        rw [withdrawn_of_not_mem haddr] at hnonempty ⊢
        refine ⟨acc, ?_, rfl, rfl, rfl, rfl⟩
        rw [htouched, Option.filter_some, if_pos]
        simp only [decide_eq_true_eq]
        rintro ⟨herasable, hcode, hnonce, hbalance⟩
        exact hnonempty ⟨herasable, hcode, hnonce, by rw [hbalance]; rfl⟩
    · intro addr acc hfind _ herasable haddr
      rw [find_finalize, if_neg haddr, hfind]
      simp [herasable]

/-- A withdrawal of nothing to an address that is not in the state leaves an empty touched
account. -/
theorem not_finalizes_zeroWithdrawal :
    ¬ Finalizes ⟨∅⟩ [⟨1, 0⟩] (finalize ⟨∅⟩ [⟨1, 0⟩]) := by
  intro h
  exact h.noneLeft 1 { erasable := true } rfl (by decide)

end Zvmone
