import Zvmone.Vm.AdvancedGas
import Zvmone.Vm.MemoryAccess
import Zvmone.Vm.SignedArithmetic

/-! # Parts of instructions in which no gas computation overflows

`Exact` says that a part of an instruction on signed 64-bit integers does the same as the part on
unbounded integers, whatever an overflow gives: none of its intermediate values is out of range. -/

namespace Zvmone

open Interaction InstrM Instr Zvmone.Core

/-! ### Memory checks -/

/-- The size of the largest memory that instructions can ask for: an offset and a size of at most
`max_buffer_size`, rounded up to words. -/
def maxMemorySize : Nat := 2 ^ 33

namespace Signed

open SignedArithmetic

variable [SignedArithmetic]

/-- A number in range is the result of the signed computation. -/
theorem int64_eq {x : Int} (h : -2 ^ 63 ≤ x) (h' : x < 2 ^ 63) : int64 x = .ret x :=
  int64_exact x h h'

/-- A number in range is the result of the computation in `int`. -/
theorem int32_eq {x : Int} (h : -2 ^ 31 ≤ x) (h' : x < 2 ^ 31) : int32 x = .ret x :=
  int32_exact x h h'

/-- Counting the words of a buffer does not overflow. -/
theorem numWords_eq {n : Nat} (h : n < 2 ^ 63) : numWords n = .ret (Zvmone.numWords n) := by
  have hsum : (n + 31) % 2 ^ 64 = n + 31 := Nat.mod_eq_of_lt (by omega)
  have hwords : (n + 31) / 32 ≤ n := by omega
  unfold numWords Zvmone.numWords wordSize
  rw [hsum]
  exact int64_eq (by omega) (by omega)

/-- The square of a number of words fits 64 bits. -/
theorem memoryCost_eq {w : Int} (h : 0 ≤ w) (h' : w ≤ 2 ^ 28) :
    memoryCost w = .ret (Zvmone.memoryCost w) := by
  have hsquare : w * w ≤ 2 ^ 28 * 2 ^ 28 := Int.mul_le_mul h' h' h (by decide)
  have hpos : 0 ≤ w * w := Int.mul_nonneg h h
  have hdiv : (w * w).tdiv 512 = w * w / 512 := Int.tdiv_eq_ediv_of_nonneg hpos
  rw [memoryCost, int64_eq (by omega) (by omega), ret_bind, int64_eq (by omega) (by omega),
    ret_bind, hdiv, int64_eq (by omega) (by omega), ret_bind, int64_eq (by omega) (by omega)]
  rfl

omit [SignedArithmetic] in
/-- The price of `2 ^ 28` words is at most `2 ^ 48`. -/
theorem memoryCost_bounds {w : Int} (h : 0 ≤ w) (h' : w ≤ 2 ^ 28) :
    0 ≤ Zvmone.memoryCost w ∧ Zvmone.memoryCost w ≤ 2 ^ 48 := by
  have hsquare : w * w ≤ 2 ^ 28 * 2 ^ 28 := Int.mul_le_mul h' h' h (by decide)
  have hpos : 0 ≤ w * w := Int.mul_nonneg h h
  unfold Zvmone.memoryCost
  omega

variable {g : Int} {m : Memory} {offset size : Word} {n : Nat}

/-- Growing the memory up to the admitted size computes the price exactly. -/
theorem growMemory_eq (hg : -2 ^ 62 ≤ g) (hg' : g < 2 ^ 63) (hm : m.size ≤ maxMemorySize)
    (hlt : m.size < n) (hn : n ≤ maxMemorySize) :
    growMemory g m n = .ret (Zvmone.growMemory g m n) := by
  have hcost := growCost_nonneg hlt
  simp only [maxMemorySize] at hm hn
  -- At most 2 ^ 28 words, whose cost stays below 2 ^ 62: every intermediate value fits.
  have hnew : 0 ≤ Zvmone.numWords n ∧ Zvmone.numWords n ≤ 2 ^ 28 := by
    simp only [Zvmone.numWords, wordSize]
    omega
  have hcurrent : (0 : Int) ≤ (m.size / wordSize : Nat) ∧
      ((m.size / wordSize : Nat) : Int) ≤ 2 ^ 28 := by
    simp only [wordSize]
    omega
  have hnewCost := memoryCost_bounds hnew.1 hnew.2
  have hcurrentCost := memoryCost_bounds hcurrent.1 hcurrent.2
  rw [growMemory, numWords_eq (by omega), ret_bind, int64_eq (by omega) (by omega), ret_bind,
    memoryCost_eq hnew.1 hnew.2, ret_bind, memoryCost_eq hcurrent.1 hcurrent.2, ret_bind,
    int64_eq (by omega) (by omega), ret_bind, int64_eq (by omega) (by omega), ret_bind]
  unfold Zvmone.growMemory
  dsimp only
  split
  · have hbytes : (Zvmone.numWords n * (wordSize : Nat)).toNat
        = (Zvmone.numWords n).toNat * wordSize := by
      rw [Int.toNat_mul hnew.1 (Int.natCast_nonneg _), Int.toNat_natCast]
    rw [int64_eq (by simp only [wordSize]; omega) (by simp only [wordSize]; omega), ret_bind, hbytes]
    rfl
  · rfl

/-- `check_memory` for a small size is exact, also with an offset that is refused. -/
theorem checkMemorySmall_eq (hg : -2 ^ 62 ≤ g) (hg' : g < 2 ^ 63) (hm : m.size ≤ maxMemorySize)
    (hn : n ≤ maxBufferSize) :
    checkMemorySmall g m offset n = .ret (Zvmone.checkMemorySmall g m offset n) := by
  simp only [maxBufferSize] at hn
  unfold checkMemorySmall Zvmone.checkMemorySmall
  split
  · rfl
  next hoffset =>
    simp only [maxBufferSize] at hoffset
    have hsum : (offset.toNat + n) % 2 ^ 64 = offset.toNat + n := Nat.mod_eq_of_lt (by omega)
    rw [hsum]
    dsimp only
    split
    next hlt =>
      rw [growMemory_eq hg hg' hm hlt (by simp only [maxMemorySize]; omega)]
      rfl
    · rfl

/-- `check_memory` is exact, also with a size or an offset that is refused. -/
theorem checkMemory_eq (hg : -2 ^ 62 ≤ g) (hg' : g < 2 ^ 63) (hm : m.size ≤ maxMemorySize) :
    checkMemory g m offset size = .ret (Zvmone.checkMemory g m offset size) := by
  unfold checkMemory Zvmone.checkMemory
  split
  · rfl
  · split
    · rfl
    next hsize => exact checkMemorySmall_eq hg hg' hm (not_lt.mp hsize)

end Signed

/-- What an access that is paid for leaves. -/
theorem checkMemorySmall_le {g g' : Int} {m m' : Memory} {offset : Word} {n : Nat}
    (hm : m.size ≤ maxMemorySize) (hn : n ≤ maxBufferSize)
    (h : checkMemorySmall g m offset n = (true, g', m')) :
    0 ≤ g' ∧ g' ≤ g ∧ m'.size ≤ maxMemorySize := by
  have hcheck := congrFun (congrFun (checkMemorySmall_eq offset n) g) m
  rw [h] at hcheck
  split at hcheck
  · cases hcheck
  next hoffset =>
    simp only [Prod.mk.injEq] at hcheck
    obtain ⟨hpaid, rfl, rfl⟩ := hcheck
    have hpaid := of_decide_eq_true hpaid.symm
    have hcost := accessCost_nonneg (offset.toNat + n) m
    refine ⟨hpaid, by omega, ?_⟩
    rw [if_pos hpaid]
    simp only [maxMemorySize, maxBufferSize] at hm hn hoffset ⊢
    by_cases hlt : m.size < offset.toNat + n
    · rw [Memory.size_access_of_lt hlt]
      omega
    · rw [Memory.access_of_le (by omega)]
      exact hm

/-- A check that succeeds lowers the gas but not below 0, and keeps the memory within the admitted
size. -/
theorem checkMemory_le {g g' : Int} {m m' : Memory} {offset size : Word}
    (hm : m.size ≤ maxMemorySize) (h : checkMemory g m offset size = (true, g', m')) :
    min g 0 ≤ g' ∧ g' ≤ g ∧ m'.size ≤ maxMemorySize ∧ size.toNat ≤ maxBufferSize := by
  unfold checkMemory at h
  split at h
  next hzero =>
    cases h
    rw [hzero]
    exact ⟨min_le_left g 0, le_rfl, hm, Nat.zero_le _⟩
  · split at h
    · cases h
    next hsize =>
      obtain ⟨hpaid, hle, hsize'⟩ := checkMemorySmall_le hm (not_lt.mp hsize) h
      exact ⟨(min_le_right g 0).trans hpaid, hle, hsize', not_lt.mp hsize⟩

/-! ### Parts of instructions -/

/-- The gas is below `2 ^ 63`, and high enough for every charge; the memory is not larger than
instructions can make it. -/
structure Ctx.Representable (c : Ctx) : Prop where
  gas_ge : -2 ^ 62 ≤ c.gasLeft
  gas_lt : c.gasLeft < 2 ^ 63
  memory : c.state.memory.size ≤ maxMemorySize

namespace InstrM

variable {α β : Type} {m m' : InstrM α} {f f' : α → InstrM β}

/-- On every representable context the two parts ask the same queries and return the same value in
the same representable context. -/
def Exact (m m' : InstrM α) : Prop :=
  ∀ c : Ctx, c.Representable →
    Coincide gasContract (fun x => ∀ a, x.1 = .ok a → x.2.Representable) (m c) (m' c)

/-- A returned value is exact. -/
theorem exact_pure (a : α) : Exact (pure a) (pure a) := fun _ hc => .ret fun _ _ => hc

/-- Stopping with a status is exact. -/
theorem exact_exit (status : StatusCode) : Exact (exit status : InstrM α) (exit status) :=
  fun _ _ => .ret fun _ h => by cases h

/-- Reading is exact. -/
theorem exact_read (f : Ctx → α) : Exact (read f) (read f) := fun _ hc => .ret fun _ _ => hc

/-- An update that keeps the gas in range is exact. -/
theorem exact_modify {f : Ctx → Ctx} (h : ∀ c : Ctx, c.Representable → (f c).Representable) :
    Exact (modify f) (modify f) := fun c hc => .ret fun _ _ => h c hc

/-- An allowed question is exact. -/
theorem exact_host {q : HostCall} (h : gasContract.pre () q) : Exact (host q) (host q) :=
  fun _ hc => .ask h fun _ _ => .ret fun _ _ => hc

/-- Both ask the same host method. -/
theorem Exact.host {q : HostCall} {f f' : q.Answer → InstrM β} (h : gasContract.pre () q)
    (hf : ∀ r, Exact (f r) (f' r)) : Exact (host q >>= f) (host q >>= f') :=
  fun c hc => .ask h fun r _ => hf r c hc

/-- Exactness composes. -/
theorem Exact.bind (hm : Exact m m') (hf : ∀ a, Exact (f a) (f' a)) :
    Exact (m >>= f) (m' >>= f') := by
  intro c hc
  refine Coincide.bind (hm c hc) ?_
  rintro ⟨e | a, c₁⟩ h
  · exact .ret fun _ ha => by cases ha
  · exact hf a c₁ (h a rfl)

/-- Nothing follows an early return. -/
theorem exact_exit_bind (status : StatusCode) (f f' : α → InstrM β) :
    Exact (exit status >>= f) (exit status >>= f') :=
  fun _ _ => .ret fun _ h => by cases h

/-- A branch is exact if both sides are. -/
theorem exact_ite {p : Prop} [Decidable p] {n n' : InstrM α} (h : p → Exact m m')
    (h' : ¬ p → Exact n n') : Exact (if p then m else n) (if p then m' else n') := by
  split
  next hp => exact h hp
  next hp => exact h' hp

/-- An optional first part. -/
theorem Exact.when {p : Prop} [Decidable p] {m m' : InstrM Unit} {f f' : Unit → InstrM β}
    (hm : Exact m m') (hf : ∀ u, Exact (f u) (f' u)) :
    Exact (if p then m >>= f else f ()) (if p then m' >>= f' else f' ()) :=
  exact_ite (fun _ => hm.bind hf) fun _ => hf ()

/-- Popping an item is exact. -/
theorem exact_pop : Exact pop pop := fun _ hc => .ret fun _ _ => ⟨hc.gas_ge, hc.gas_lt, hc.memory⟩

/-- Pushing an item is exact. -/
theorem exact_push (v : Word) : Exact (push v) (push v) :=
  exact_modify fun _ hc => ⟨hc.gas_ge, hc.gas_lt, hc.memory⟩

/-- Reading the top item is exact. -/
theorem exact_top : Exact top top := exact_read _

/-- Replacing the top item is exact. -/
theorem exact_setTop (v : Word) : Exact (setTop v) (setTop v) :=
  exact_modify fun _ hc => ⟨hc.gas_ge, hc.gas_lt, hc.memory⟩

/-- Reading the execution state is exact. -/
theorem exact_state : Exact state state := exact_read _

/-- An update of the execution state that keeps the size of the memory is exact. -/
theorem exact_modifyState {f : ExecutionState → ExecutionState}
    (h : ∀ s, (f s).memory.size = s.memory.size) : Exact (modifyState f) (modifyState f) :=
  exact_modify fun c hc => ⟨hc.gas_ge, hc.gas_lt, (h c.state).symm ▸ hc.memory⟩

/-- Writing to memory is exact. -/
theorem exact_writeMemory (i : Nat) (bs : Bytes) : Exact (writeMemory i bs) (writeMemory i bs) :=
  exact_modifyState fun _ => rfl

/-- A loop is exact if its body is. -/
theorem exact_mapM {γ : Type} {f : γ → InstrM α} (hf : ∀ x, Exact (f x) (f x)) (xs : List γ) :
    Exact (xs.mapM f) (xs.mapM f) := by
  have hloop : ∀ xs acc, Exact (List.mapM.loop f xs acc) (List.mapM.loop f xs acc) := by
    intro xs
    induction xs with
    | nil => exact fun acc => exact_pure acc.reverse
    | cons x xs ih => exact fun acc => (hf x).bind fun a => ih (a :: acc)
  exact hloop xs []

/-- An operation whose result is exact. -/
theorem Exact.compute {p : HostM α} {a : α} {m' : InstrM β} (hp : p = .ret a)
    (hf : Exact (f a) m') : Exact (Signed.compute p >>= f) m' := by
  rw [hp]
  exact hf

section

variable [SignedArithmetic]

/-- A charge of at most `2 ^ 62` is exact. -/
theorem exact_charge {cost : Int} (h : 0 ≤ cost) (h' : cost ≤ 2 ^ 62) :
    Exact (Signed.charge cost) (charge cost) := by
  intro c hc
  have hge := hc.gas_ge
  have hlt := hc.gas_lt
  have hsigned : Signed.charge cost c = charge cost c := by
    show (SignedArithmetic.int64 (c.gasLeft - cost) >>= _) >>= _ = _
    rw [Signed.int64_eq (by omega) (by omega)]
    by_cases hshort : c.gasLeft - cost < 0
    · rw [charge_of_short hshort]
      show (if c.gasLeft - cost < 0 then exit _ else pure _ : InstrM Unit) _ = _
      rw [if_pos hshort]
      rfl
    · rw [charge_of_paid (not_lt.mp hshort)]
      show (if c.gasLeft - cost < 0 then exit _ else pure _ : InstrM Unit) _ = _
      rw [if_neg hshort]
      rfl
  rw [hsigned]
  by_cases hshort : c.gasLeft - cost < 0
  · rw [charge_of_short hshort]
    exact .ret fun _ ha => by cases ha
  · rw [charge_of_paid (not_lt.mp hshort)]
    refine .ret fun _ _ => ⟨?_, ?_, hc.memory⟩ <;> rw [Ctx.shift_gasLeft] <;> omega

omit [SignedArithmetic] in
/-- A check that is exact, and leaves gas and memory in range. -/
theorem Exact.require {check : Int → Memory → HostM (Bool × Int × Memory)}
    {check' : Int → Memory → Bool × Int × Memory} {P : Prop} {f f' : Unit → InstrM β}
    (hcheck : ∀ c : Ctx, c.Representable →
      check c.gasLeft c.state.memory = .ret (check' c.gasLeft c.state.memory))
    (hok : ∀ (c : Ctx) gasLeft memory, c.Representable →
      check' c.gasLeft c.state.memory = (true, gasLeft, memory) →
      P ∧ (checked c gasLeft memory).Representable)
    (hf : P → Exact (f ()) (f' ())) : Exact (Signed.require check >>= f) (require check' >>= f') := by
  intro c hc
  -- The checks agree on a representable context, so `require` goes the same way.
  have hsigned : Signed.require check c = InstrM.require check' c := by
    show (check c.gasLeft c.state.memory >>= _) >>= _ = _
    rw [hcheck c hc]
    rcases hresult : check' c.gasLeft c.state.memory with ⟨_ | _, gasLeft, memory⟩
    · rw [require_of_fail hresult]
      rfl
    · rw [require_of_ok hresult]
      rfl
  show Coincide _ _ (Signed.require check c >>= andThen f) (InstrM.require check' c >>= andThen f')
  rw [hsigned]
  rcases hresult : check' c.gasLeft c.state.memory with ⟨_ | _, gasLeft, memory⟩
  · rw [require_of_fail hresult]
    exact .ret fun _ ha => by cases ha
  · obtain ⟨hP, hchecked⟩ := hok c gasLeft memory hc hresult
    rw [require_of_ok hresult]
    exact hf hP _ hchecked

/-- What follows a memory check may use that the size has been admitted. -/
theorem Exact.requireMemory {offset size : Word} {f f' : Unit → InstrM β}
    (hf : size.toNat ≤ maxBufferSize → Exact (f ()) (f' ())) :
    Exact (Signed.requireMemory offset size >>= f) (requireMemory offset size >>= f') := by
  refine .require (fun c hc => Signed.checkMemory_eq hc.gas_ge hc.gas_lt hc.memory)
    (fun c gasLeft memory hc hresult => ?_) hf
  obtain ⟨hge, hle, hmemory, hsize⟩ := checkMemory_le hc.memory hresult
  have hgas := hc.gas_ge
  exact ⟨hsize, by simp only [checked]; omega, lt_of_le_of_lt hle hc.gas_lt, hmemory⟩

/-- A memory check for a small size is exact. -/
theorem Exact.requireMemorySmall {offset : Word} {n : Nat} {f f' : Unit → InstrM β}
    (hn : n ≤ maxBufferSize) (hf : Exact (f ()) (f' ())) :
    Exact (Signed.requireMemorySmall offset n >>= f) (requireMemorySmall offset n >>= f') := by
  refine .require (P := True) (fun c hc => Signed.checkMemorySmall_eq hc.gas_ge hc.gas_lt hc.memory hn)
    (fun c gasLeft memory hc hresult => ?_) fun _ => hf
  obtain ⟨hge, hle, hmemory⟩ := checkMemorySmall_le hc.memory hn hresult
  exact ⟨trivial, by simp only [checked]; omega, lt_of_le_of_lt hle hc.gas_lt, hmemory⟩

end

end InstrM

end Zvmone
