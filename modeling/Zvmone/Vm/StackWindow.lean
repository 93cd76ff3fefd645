import Zvmone.Vm.InstructionsCalls
import Zvmone.Vm.MemoryAccess

/-! # The stack items an instruction uses

Two runs of an instruction on stacks that share only their top items. `Local` says that the
instruction reads and writes nothing but these items: both runs ask the same queries and end in the
same way, the shared items are still the same, and no other slot is written. The runs may also differ
in what the memory operations do not look at (`IsMemoryRel`). -/

namespace Zvmone

open Interaction

namespace StackTop

/-- The `n` slots from `b` on hold what the `n` slots of the other stack from `b'` on hold. -/
def SameItems (b b' n : Nat) (s s' : StackTop) : Prop :=
  ∀ i < n, s.slots (b + i) = s'.slots (b' + i)

/-- Only the `n` slots from `b` on are written. -/
def Untouched (b n : Nat) (s s' : StackTop) : Prop :=
  ∀ j, j < b ∨ b + n ≤ j → s'.slots j = s.slots j

/-- A stack is untouched in itself. -/
theorem Untouched.refl {b n : Nat} {s : StackTop} : Untouched b n s s := fun _ _ => rfl

/-- Untouched slots stay so over two steps. -/
theorem Untouched.trans {b n : Nat} {s₁ s₂ s₃ : StackTop} (h : Untouched b n s₁ s₂)
    (h' : Untouched b n s₂ s₃) : Untouched b n s₁ s₃ :=
  fun j hj => (h' j hj).trans (h j hj)

/-- Two stacks with the pointer `m` items above the common base, and the same `n` items from there
on. -/
structure Window (n b b' m : Nat) (s s' : StackTop) : Prop where
  top : s.top = b + m
  top' : s'.top = b' + m
  items : SameItems b b' n s s'

section Window

variable {n b b' m : Nat} {s s' : StackTop}

/-- The visible items of the two stacks are the same. -/
theorem Window.get (h : Window n b b' m s s') {i : Nat} (hi : i < m) (hm : m ≤ n) :
    s.get i = s'.get i := by
  have hitem := h.items (m - 1 - i) (by omega)
  unfold StackTop.get
  rw [h.top, h.top', show b + m - 1 - i = b + (m - 1 - i) by omega,
    show b' + m - 1 - i = b' + (m - 1 - i) by omega]
  exact hitem

/-- Popping makes one item fewer visible on both stacks. -/
theorem Window.pop (h : Window n b b' (m + 1) s s') : Window n b b' m s.pop.2 s'.pop.2 := by
  refine ⟨?_, ?_, h.items⟩
  · show s.top - 1 = b + m
    rw [h.top]
    omega
  · show s'.top - 1 = b' + m
    rw [h.top']
    omega

/-- Replacing a visible item on both stacks keeps the window. -/
theorem Window.set (h : Window n b b' m s s') {i : Nat} (hi : i < m) (v : Word) :
    Window n b b' m (s.set i v) (s'.set i v) := by
  refine ⟨h.top, h.top', fun j hj => ?_⟩
  have hitem := h.items j hj
  show (if b + j = s.top - 1 - i then v else s.slots (b + j))
    = if b' + j = s'.top - 1 - i then v else s'.slots (b' + j)
  rw [h.top, h.top', hitem]
  by_cases hij : j = m - 1 - i
  · rw [if_pos (by omega), if_pos (by omega)]
  · rw [if_neg (by omega), if_neg (by omega)]

/-- The item above the top is new. -/
theorem Window.push (h : Window n b b' m s s') (v : Word) :
    Window n b b' (m + 1) (s.push v) (s'.push v) := by
  refine ⟨?_, ?_, fun j hj => ?_⟩
  · show s.top + 1 = b + (m + 1)
    rw [h.top]
    omega
  · show s'.top + 1 = b' + (m + 1)
    rw [h.top']
    omega
  · have hitem := h.items j hj
    show (if b + j = s.top then v else s.slots (b + j))
      = if b' + j = s'.top then v else s'.slots (b' + j)
    rw [h.top, h.top', hitem]
    by_cases hjm : j = m
    · rw [if_pos (by omega), if_pos (by omega)]
    · rw [if_neg (by omega), if_neg (by omega)]

/-- A push right above the window enlarges it. -/
theorem Window.push_new (h : Window n b b' n s s') (v : Word) :
    Window (n + 1) b b' (n + 1) (s.push v) (s'.push v) := by
  refine ⟨(h.push v).top, (h.push v).top', fun j hj => ?_⟩
  by_cases hjn : j < n
  · exact (h.push v).items j hjn
  · obtain rfl : j = n := by omega
    show (if b + j = s.top then v else s.slots (b + j))
      = if b' + j = s'.top then v else s'.slots (b' + j)
    rw [h.top, h.top', if_pos rfl, if_pos rfl]

/-- Replacing a visible item touches no other slot. -/
theorem untouched_set {i : Nat} (htop : s.top = b + m) (hi : i < m) (hm : m ≤ n) (v : Word) :
    Untouched b n s (s.set i v) := by
  intro j hj
  apply if_neg
  omega

/-- Pushing touches the slot above the top only. -/
theorem untouched_push (htop : s.top = b + m) (hm : m < n) (v : Word) :
    Untouched b n s (s.push v) := by
  intro j hj
  apply if_neg
  omega

end Window

end StackTop

open StackTop

/-! ### Memories that are not told apart -/

/-- A relation between memories with the same bytes below their size that the memory operations
keep. -/
structure IsMemoryRel (M : Memory → Memory → Prop) : Prop where
  size_eq : ∀ {m m'}, M m m' → m'.size = m.size
  data_eq : ∀ {m m'}, M m m' → ∀ j < m.size, m'.data j = m.data j
  access : ∀ {m m'}, M m m' → ∀ e, M (m.access e) (m'.access e)
  write : ∀ {m m'}, M m m' → ∀ i bs, M (m.write i bs) (m'.write i bs)

/-- Equal memories cannot be told apart. -/
theorem isMemoryRel_eq : IsMemoryRel Eq where
  size_eq := by
    rintro m _ rfl
    rfl
  data_eq := by
    rintro m _ rfl j _
    rfl
  access := by
    rintro m _ rfl e
    rfl
  write := by
    rintro m _ rfl i bs
    rfl

/-- Memories of one size with the same bytes below it. They may have different allocations, and these
may hold different bytes beyond the size. -/
structure Memory.Agree (m m' : Memory) : Prop where
  size_eq : m'.size = m.size
  data_eq : ∀ j < m.size, m'.data j = m.data j

/-- What the memory operations make of the bytes below the size does not depend on the bytes beyond
it. -/
theorem isMemoryRel_agree : IsMemoryRel Memory.Agree where
  size_eq h := h.size_eq
  data_eq h := h.data_eq
  access := by
    intro m m' h e
    have hsize : (m'.access e).size = (m.access e).size := by
      by_cases hlt : m.size < e
      · rw [Memory.size_access_of_lt hlt, Memory.size_access_of_lt (h.size_eq ▸ hlt)]
      · rw [m.access_of_le (by omega), m'.access_of_le (by rw [h.size_eq]; omega), h.size_eq]
    refine ⟨hsize, fun j hj => ?_⟩
    by_cases hold : j < m.size
    · rw [Memory.data_access_of_lt hold, Memory.data_access_of_lt (h.size_eq ▸ hold)]
      exact h.data_eq j hold
    · -- The new bytes are zero in both.
      rw [Memory.data_access_new (by omega) hj,
        Memory.data_access_new (by rw [h.size_eq]; omega) (hsize ▸ hj)]
  write h i bs := ⟨h.size_eq, fun j hj => Memory.data_write_congr (h.data_eq j hj)⟩

/-- Related memories agree on what lies below the size. -/
theorem IsMemoryRel.slice_eq {M : Memory → Memory → Prop} (hM : IsMemoryRel M) {m m' : Memory}
    (h : M m m') {i len : Nat} (hend : accessEnd i len ≤ m.size) :
    m'.slice i len = m.slice i len :=
  Memory.slice_congr (hM.data_eq h) hend

/-- Execution states that differ only in their memories, which are related. -/
structure StateRel (M : Memory → Memory → Prop) (s s' : ExecutionState) : Prop where
  memory : M s.memory s'.memory
  eq : s' = { s with memory := s'.memory }

/-- Related states have the same message. -/
theorem StateRel.msg {M : Memory → Memory → Prop} {s s' : ExecutionState} (h : StateRel M s s') :
    s'.msg = s.msg := by
  rw [h.eq]

/-! ### Instructions on part of the stack -/

namespace InstrM

variable {α β : Type}

/-- The contexts of two runs whose stacks share `n` items; `m` of them are below the pointer. -/
structure Related (M : Memory → Memory → Prop) (n b b' m : Nat) (c c' : Ctx) : Prop where
  stack : Window n b b' m c.stack c'.stack
  gas : c'.gasLeft = c.gasLeft
  state : StateRel M c.state c'.state

/-- What two runs started in `c` and `c'` end with. -/
structure Ends (M : Memory → Memory → Prop) (n b b' m : Nat) (c c' : Ctx)
    (x x' : Except StatusCode α × Ctx) : Prop where
  result : x.1 = x'.1
  items : SameItems b b' n x.2.stack x'.2.stack
  gas : x'.2.gasLeft = x.2.gasLeft
  state : StateRel M x.2.state x'.2.state
  untouched : Untouched b n c.stack x.2.stack
  untouched' : Untouched b' n c'.stack x'.2.stack
  grows : c.state.Grows x.2.state
  height : ∀ a, x.1 = .ok a → x.2.stack.top = b + m ∧ x'.2.stack.top = b' + m

/-- With `m` of `n` shared items below the pointer and a memory of `k` bytes or more, `p` and `p'` do
the same, use no other items, and leave `m'` items below the pointer and a memory of `k' a` bytes or
more when they return `a`. -/
def Local (M : Memory → Memory → Prop) (n m m' k : Nat) (k' : α → Nat) (p p' : InstrM α) : Prop :=
  ∀ b b' c c', Related M n b b' m c c' → k ≤ c.state.memory.size →
    Lockstep (fun x x' => Ends M n b b' m' c c' x x' ∧
      ∀ a, x.1 = .ok a → k' a ≤ x.2.state.memory.size) (p c) (p' c')

section Local

variable {M : Memory → Memory → Prop} {n m m₁ m₂ k : Nat} {k₁ k₂ : α → Nat}

/-- Two runs that go on are related afterwards. -/
theorem Ends.related {b b' : Nat} {c c' c₁ c₁' : Ctx} {a a' : α}
    (h : Ends M n b b' m c c' ((.ok a, c₁) : Except StatusCode α × Ctx) (.ok a', c₁')) :
    Related M n b b' m c₁ c₁' :=
  ⟨⟨(h.height a rfl).1, (h.height a rfl).2, h.items⟩, h.gas, h.state⟩

/-- The memory does not shrink. -/
theorem Ends.keeping {b b' : Nat} {c c' : Ctx} {x x' : Except StatusCode α × Ctx}
    (h : Ends M n b b' m c c' x x') (hk : k ≤ c.state.memory.size) :
    Ends M n b b' m c c' x x' ∧ ∀ a, x.1 = .ok a → k ≤ x.2.state.memory.size :=
  ⟨h, fun _ _ => hk.trans h.grows.size⟩

/-- Instructions on part of the stack are closed under sequential composition. -/
theorem Local.bind {p p' : InstrM α} {f f' : α → InstrM β} {k₂ : β → Nat}
    (hp : Local M n m m₁ k k₁ p p') (hf : ∀ a, Local M n m₁ m₂ (k₁ a) k₂ (f a) (f' a)) :
    Local M n m m₂ k k₂ (p >>= f) (p' >>= f') := by
  intro b b' c c' h hk
  refine (hp b b' c c' h hk).bind ?_
  rintro ⟨e | a, c₁⟩ ⟨e' | a', c₁'⟩ ⟨hends, hk₁⟩
  · cases hends.result
    exact .ret ⟨⟨rfl, hends.items, hends.gas, hends.state, hends.untouched, hends.untouched',
      hends.grows, nofun⟩, nofun⟩
  · cases hends.result
  · cases hends.result
  · cases hends.result
    refine (hf a b b' c₁ c₁' hends.related (hk₁ a rfl)).mono ?_
    rintro x x' ⟨hx, hk₂⟩
    exact ⟨⟨hx.result, hx.items, hx.gas, hx.state, hends.untouched.trans hx.untouched,
      hends.untouched'.trans hx.untouched', hends.grows.trans hx.grows, hx.height⟩, hk₂⟩

/-- A branch is local if both sides are. -/
theorem Local.ite {c : Prop} [Decidable c] {p p' q q' : InstrM α}
    (hp : c → Local M n m m₁ k k₁ p p') (hq : ¬ c → Local M n m m₁ k k₁ q q') :
    Local M n m m₁ k k₁ (if c then p else q) (if c then p' else q') := by
  split
  next h => exact hp h
  next h => exact hq h

/-- Less is known about the memory. -/
theorem Local.weaken {p p' : InstrM α} {k' : Nat} (h : Local M n m m₁ k' k₁ p p') (hle : k' ≤ k)
    (hle₁ : ∀ a, k₂ a ≤ k₁ a) : Local M n m m₁ k k₂ p p' :=
  fun b b' c c' hc hk => (h b b' c c' hc (hle.trans hk)).mono fun _ _ hx =>
    ⟨hx.1, fun a ha => (hle₁ a).trans (hx.2 a ha)⟩

/-- Nothing is said about the memory at the end. -/
theorem Local.forget {p p' : InstrM α} (h : Local M n m m₁ k k₁ p p') :
    Local M n m m₁ k (fun _ => 0) p p' :=
  h.weaken le_rfl fun _ => Nat.zero_le _

/-- An update that keeps the stack and treats both sides alike is local. -/
theorem local_of_fixed {a : α} {f f' : Ctx → Ctx} (hstack : ∀ c, (f c).stack = c.stack)
    (hstack' : ∀ c, (f' c).stack = c.stack)
    (hgas : ∀ c c', c'.gasLeft = c.gasLeft → (f' c').gasLeft = (f c).gasLeft)
    (hstate : ∀ c c', k ≤ c.state.memory.size → StateRel M c.state c'.state →
      StateRel M (f c).state (f' c').state ∧ c.state.Grows (f c).state) :
    Local M n m m k (fun _ => k) (fun c => .ret (.ok a, f c)) fun c => .ret (.ok a, f' c) := by
  intro b b' c c' h hk
  obtain ⟨hrel, hgrows⟩ := hstate _ _ hk h.state
  refine .ret (Ends.keeping ⟨rfl, ?_, hgas _ _ h.gas, hrel, ?_, ?_, hgrows, fun _ _ => ?_⟩ hk)
  · show SameItems b b' n (f c).stack (f' c').stack
    rw [hstack, hstack']
    exact h.stack.items
  · show Untouched b n c.stack (f c).stack
    rw [hstack]
    exact .refl
  · show Untouched b' n c'.stack (f' c').stack
    rw [hstack']
    exact .refl
  · show (f c).stack.top = b + m ∧ (f' c').stack.top = b' + m
    rw [hstack, hstack']
    exact ⟨h.stack.top, h.stack.top'⟩

/-- Returning a value is local. -/
theorem local_pure (a : α) : Local M n m m k (fun _ => k) (pure a) (pure a) :=
  local_of_fixed (fun _ => rfl) (fun _ => rfl) (fun _ _ h => h) fun _ _ _ h => ⟨h, .refl⟩

/-- What is returned may depend on what is known about the memory. -/
theorem local_return {a : α} (hk : k₁ a ≤ k) : Local M n m m k k₁ (pure a) (pure a) :=
  fun _ _ _ _ h hsize => .ret ⟨⟨rfl, h.stack.items, h.gas, h.state, .refl, .refl, .refl,
    fun _ _ => ⟨h.stack.top, h.stack.top'⟩⟩, fun _ ha => by cases ha; exact hk.trans hsize⟩

/-- Stopping with a status is local, whatever follows. -/
theorem local_exit_bind {status : StatusCode} {f f' : α → InstrM β} {k₁ : β → Nat} :
    Local M n m m₁ k k₁ (exit status >>= f) (exit status >>= f') :=
  fun _ _ _ _ h _ => .ret ⟨⟨rfl, h.stack.items, h.gas, h.state, .refl, .refl, .refl, nofun⟩, nofun⟩

/-- The gas left is the same in both runs. -/
theorem local_readGas :
    Local M n m m k (fun _ => k) (read fun c => c.gasLeft) (read fun c => c.gasLeft) := by
  intro b b' c c' h hk
  exact .ret (Ends.keeping ⟨congrArg Except.ok h.gas.symm, h.stack.items, h.gas, h.state, .refl,
    .refl, .refl, fun _ _ => ⟨h.stack.top, h.stack.top'⟩⟩ hk)

/-- What is read of the states may differ in the memory. -/
theorem local_state_bind {f f' : ExecutionState → InstrM α}
    (hf : ∀ s mem, M s.memory mem → k ≤ s.memory.size →
      Local M n m m₁ k k₁ (f s) (f' { s with memory := mem })) :
    Local M n m m₁ k k₁ (state >>= f) (state >>= f') := by
  intro b b' c c' h hk
  show Lockstep _ (f c.state c) (f' c'.state c')
  have hstate : c'.state = { c.state with memory := c'.state.memory } := h.state.eq
  rw [hstate]
  exact hf c.state c'.state.memory h.state.memory hk b b' c c' h hk

/-- Asking the host is local, for both sides ask the same. -/
theorem local_host (q : HostCall) : Local M n m m k (fun _ => k) (host q) (host q) :=
  fun _ _ _ _ h hk => .ask fun _ => .ret (Ends.keeping ⟨rfl, h.stack.items, h.gas, h.state, .refl,
    .refl, .refl, fun _ _ => ⟨h.stack.top, h.stack.top'⟩⟩ hk)

/-- The item below the pointer is popped. -/
theorem local_pop (hm : m < n) : Local M n (m + 1) m k (fun _ => k) pop pop := by
  intro b b' c c' h hk
  have hitem : c.stack.get 0 = c'.stack.get 0 := h.stack.get (by omega) (by omega)
  exact .ret (Ends.keeping ⟨congrArg Except.ok hitem, h.stack.pop.items, h.gas, h.state, .refl,
    .refl, .refl, fun _ _ => ⟨h.stack.pop.top, h.stack.pop.top'⟩⟩ hk)

/-- A slot that held a popped item is written. -/
theorem local_push (hm : m < n) (v : Word) :
    Local M n m (m + 1) k (fun _ => k) (push v) (push v) :=
  fun _ _ _ _ h hk => .ret (Ends.keeping ⟨rfl, (h.stack.push v).items, h.gas, h.state,
    untouched_push h.stack.top hm v, untouched_push h.stack.top' hm v, .refl,
    fun _ _ => ⟨(h.stack.push v).top, (h.stack.push v).top'⟩⟩ hk)

/-- Reading a visible item is local. -/
theorem local_readItem {i : Nat} (hi : i < m) (hm : m ≤ n) :
    Local M n m m k (fun _ => k) (read fun c => c.stack.get i) (read fun c => c.stack.get i) :=
  fun _ _ _ _ h hk => .ret (Ends.keeping ⟨congrArg Except.ok (h.stack.get hi hm), h.stack.items,
    h.gas, h.state, .refl, .refl, .refl, fun _ _ => ⟨h.stack.top, h.stack.top'⟩⟩ hk)

/-- Reading the top item is local. -/
theorem local_top (hm : m < n) : Local M n (m + 1) (m + 1) k (fun _ => k) top top :=
  local_readItem (Nat.succ_pos m) hm

/-- Replacing the top item is local. -/
theorem local_setTop (hm : m < n) (v : Word) :
    Local M n (m + 1) (m + 1) k (fun _ => k) (setTop v) (setTop v) :=
  fun _ _ _ _ h hk => .ret (Ends.keeping ⟨rfl, (h.stack.set (Nat.succ_pos m) v).items, h.gas,
    h.state, untouched_set h.stack.top (Nat.succ_pos m) hm v,
    untouched_set h.stack.top' (Nat.succ_pos m) hm v, .refl,
    fun _ _ => ⟨h.stack.top, h.stack.top'⟩⟩ hk)

/-- An update of the gas by the same function is local. -/
theorem local_modifyGas (f : Int → Int) :
    Local M n m m k (fun _ => k) (modify fun c => { c with gasLeft := f c.gasLeft })
      (modify fun c => { c with gasLeft := f c.gasLeft }) :=
  local_of_fixed (fun _ => rfl) (fun _ => rfl) (fun _ _ h => congrArg f h)
    fun _ _ _ h => ⟨h, .refl⟩

/-- An update of the execution state that respects the relation is local. -/
theorem local_modifyState {f : ExecutionState → ExecutionState}
    (h : ∀ s s', k ≤ s.memory.size → StateRel M s s' → StateRel M (f s) (f s') ∧ s.Grows (f s)) :
    Local M n m m k (fun _ => k) (modifyState f) (modifyState f) :=
  local_of_fixed (fun _ => rfl) (fun _ => rfl) (fun _ _ h => h) fun _ _ hk hs => h _ _ hk hs

/-- A change of fields other than the memory and the output. -/
theorem local_modifyFields {f : ExecutionState → ExecutionState}
    (hmemory : ∀ s, (f s).memory = s.memory) (houtput : ∀ s, (f s).outputOffset = s.outputOffset)
    (hsize : ∀ s, (f s).outputSize = s.outputSize)
    (hf : ∀ s mem, f { s with memory := mem } = { f s with memory := mem }) :
    Local M n m m k (fun _ => k) (modifyState f) (modifyState f) := by
  apply local_modifyState
  intro s s' _ h
  refine ⟨⟨?_, ?_⟩, .of_eq (hmemory s) (houtput s) (hsize s)⟩
  · rw [hmemory, hmemory]
    exact h.memory
  · rw [hmemory]
    calc f s' = f { s with memory := s'.memory } := congrArg f h.eq
      _ = { f s with memory := s'.memory } := hf s s'.memory

/-- Setting the return data is local. -/
theorem local_setReturnData (bs : Bytes) :
    Local M n m m k (fun _ => k) (modifyState fun s => { s with returnData := bs })
      (modifyState fun s => { s with returnData := bs }) :=
  local_modifyFields (fun _ => rfl) (fun _ => rfl) (fun _ => rfl) fun _ _ => rfl

/-- Adding to the refund is local. -/
theorem local_addRefund (r : Int) :
    Local M n m m k (fun _ => k) (modifyState fun s => { s with gasRefund := s.gasRefund + r })
      (modifyState fun s => { s with gasRefund := s.gasRefund + r }) :=
  local_modifyFields (fun _ => rfl) (fun _ => rfl) (fun _ => rfl) fun _ _ => rfl

/-- A charge is local: both sides have the same gas. -/
theorem local_charge (cost : Int) : Local M n m m k (fun _ => k) (charge cost) (charge cost) := by
  intro b b' c c' h hk
  unfold charge
  dsimp only
  rw [h.gas]
  split
  · exact .ret ⟨⟨rfl, h.stack.items, rfl, h.state, .refl, .refl, .refl, nofun⟩, nofun⟩
  · exact .ret (Ends.keeping ⟨rfl, h.stack.items, rfl, h.state, .refl, .refl, .refl,
      fun _ _ => ⟨h.stack.top, h.stack.top'⟩⟩ hk)

/-- Related states stay related with related memories. -/
theorem StateRel.withMemory {s s' : ExecutionState} {mem mem' : Memory} (h : StateRel M s s')
    (hmem : M mem mem') :
    StateRel M { s with memory := mem } { s' with memory := mem' } := by
  refine ⟨hmem, ?_⟩
  rw [h.eq]

variable (hM : IsMemoryRel M)

include hM

/-- A check that fails, or makes the memory large enough for an access that ends at `e`. -/
theorem local_require {check : Int → Memory → Bool × Int × Memory} {e : Nat}
    (hcheck : ∀ gas {m m' : Memory}, m'.size = m.size →
      (∃ gas', check gas m = (false, gas', m) ∧ check gas m' = (false, gas', m')) ∨
        ∃ gas', check gas m = (true, gas', m.access e) ∧ check gas m' = (true, gas', m'.access e)) :
    Local M n m m k (fun _ => max k e) (require check) (require check) := by
  intro b b' c c' h hk
  unfold require
  rw [h.gas]
  obtain ⟨gas', hfail, hfail'⟩ | ⟨gas', hok, hok'⟩ :=
    hcheck c.gasLeft (hM.size_eq h.state.memory)
  · rw [hfail, hfail']
    exact .ret ⟨⟨rfl, h.stack.items, rfl, StateRel.withMemory h.state h.state.memory, .refl, .refl,
      .of_eq rfl rfl rfl, nofun⟩, nofun⟩
  · rw [hok, hok']
    have hstate := StateRel.withMemory h.state (hM.access h.state.memory e)
    have hend := c.state.memory.le_size_access e
    have hsize := c.state.memory.size_le_size_access e
    exact .ret ⟨⟨rfl, h.stack.items, rfl, hstate, .refl, .refl, .access e,
      fun _ _ => ⟨h.stack.top, h.stack.top'⟩⟩, fun _ _ => max_le (hk.trans hsize) hend⟩

/-- A memory check is local, and the memory reaches up to the end of the access afterwards. -/
theorem local_requireMemory (offset size : Word) :
    Local M n m m k (fun _ => max k (accessEnd offset.toSize size.toSize))
      (requireMemory offset size) (requireMemory offset size) :=
  local_require hM fun gas _ _ h => (checkMemory_congr h gas offset size).imp id And.right

/-- So is a memory check for a small size. -/
theorem local_requireMemorySmall (offset : Word) (size : Nat) :
    Local M n m m k (fun _ => max k (accessEnd offset.toSize size))
      (requireMemorySmall offset size) (requireMemorySmall offset size) :=
  (local_require hM fun gas _ _ h => (checkMemorySmall_congr h gas offset size).imp id And.right).weaken
    le_rfl fun _ => max_le_max le_rfl (accessEnd_le _ _)

/-- A write within the memory. -/
theorem local_writeMemory {i : Nat} {bs : Bytes} (hend : accessEnd i bs.length ≤ k) :
    Local M n m m k (fun _ => k) (writeMemory i bs) (writeMemory i bs) :=
  local_modifyState fun _ _ hk h =>
    ⟨StateRel.withMemory h (hM.write h.memory i bs), .write (hend.trans hk)⟩

end Local

end InstrM

end Zvmone
