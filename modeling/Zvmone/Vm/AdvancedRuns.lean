import Zvmone.Vm.AdvancedCode
import Zvmone.Vm.AdvancedSteps

/-! # Runs of the Advanced loop

`PointsTo` relates an index into the instructions of the analysis to the items of the code that are
executed from there on. The loop moves along these points: to the next item, or to the item of a
`JUMPDEST`. -/

namespace Zvmone

namespace Advanced

open Interaction Instr Zvmone.Core

/-! ### The loop against a host -/

section Passes

variable [Ethash] {σ : Type}

/-- `Passes env analysis i st s n i' st' s'`: started at the index `i` with the host in the state
`s`, the loop is at `i'` with the host in `s'` after `n` instructions. -/
inductive Passes (env : Env HostCall.Answer Fault σ) (analysis : AdvancedCodeAnalysis) (i : Nat)
    (st : AdvancedExecutionState) (s : σ) : Nat → Nat → AdvancedExecutionState → σ → Prop
  | start : Passes env analysis i st s 0 i st s
  | next {n i₁ i₂ : Nat} {st₁ st₂ : AdvancedExecutionState} {s₁ s₂ : σ} {instr : Instruction}
      (h : Passes env analysis i st s n i₁ st₁ s₁) (hinstr : analysis.instrs[i₁]? = some instr)
      (hexec : run env (instr.exec analysis i₁ st₁) s₁ = .ok ((some i₂, st₂), s₂)) :
      Passes env analysis i st s (n + 1) i₂ st₂ s₂

/-- What holds of the index and the state if the loop goes on. -/
def Continues (P : Nat → AdvancedExecutionState → Prop) :
    Option Nat × AdvancedExecutionState → Prop
  | (some i, st) => P i st
  | (none, _) => True

/-- What every instruction preserves holds of every point the loop passes through. -/
theorem Passes.invariant {env : Env HostCall.Answer Fault σ} {analysis : AdvancedCodeAnalysis}
    {i i' n : Nat} {st st' : AdvancedExecutionState} {s s' : σ}
    {P : Nat → AdvancedExecutionState → Prop} (h : Passes env analysis i st s n i' st' s')
    (hstart : P i st)
    (hexec : ∀ i st instr, P i st → analysis.instrs[i]? = some instr →
      (instr.exec analysis i st).Returns (Continues P)) : P i' st' := by
  induction h with
  | start => exact hstart
  | next _ hinstr hrun ih => exact (hexec _ _ _ ih hinstr).run hrun

/-- The loop is at one point after every number of instructions. -/
theorem Passes.unique {env : Env HostCall.Answer Fault σ} {analysis : AdvancedCodeAnalysis}
    {i i₁ i₂ n : Nat} {st st₁ st₂ : AdvancedExecutionState} {s s₁ s₂ : σ}
    (h : Passes env analysis i st s n i₁ st₁ s₁) (h' : Passes env analysis i st s n i₂ st₂ s₂) :
    i₁ = i₂ ∧ st₁ = st₂ ∧ s₁ = s₂ := by
  induction h generalizing i₂ st₂ s₂ with
  | start =>
    cases h'
    exact ⟨rfl, rfl, rfl⟩
  | next _ hinstr hexec ih =>
    cases h' with
    | next h' hinstr' hexec' =>
      obtain ⟨rfl, rfl, rfl⟩ := ih h'
      rw [hinstr] at hinstr'
      cases hinstr'
      rw [hexec] at hexec'
      cases hexec'
      exact ⟨rfl, rfl, rfl⟩

/-- The state at the start of an execution. -/
def AdvancedExecutionState.start (msg : Message) (code : Bytes) : AdvancedExecutionState :=
  { base := .init msg code, gasLeft := msg.gas, stack := .bottom }

/-- An execution makes a result of the state at the end of the loop. -/
theorem run_execute (env : Env HostCall.Answer Fault σ) (fuel : Nat)
    (msg : Message) (code : Bytes) (s : σ) :
    run env (execute fuel msg code) s =
      match run env (loop (analyze code) fuel 0 (.start msg code)) s with
      | .error e => .error e
      | .ok (st, s') => .ok (st.base.result st.gasLeft, s') := by
  unfold execute
  rw [run_bind]
  unfold AdvancedExecutionState.start
  generalize run env (loop (analyze code) fuel 0 _) s = x
  rcases x with _ | ⟨st, s'⟩ <;> rfl

end Passes

/-! ### Points -/

/-- The instructions from the index `i` on are those of the items, which belong to the given
block. -/
structure PointsTo (code : Bytes) (i k : Nat) (block : BlockAnalysis) (items : List Item) : Prop where
  instrs : (analyze code).instrs.drop i = emit code i k block items ++ [{ fn := .op .stop }]
  pushes : (analyze code).pushValues.drop k = pushValues code items
  decoded : ∃ n pos, items = decode code n pos ∧ code.length ≤ pos + n

variable {code : Bytes} {i k : Nat} {block : BlockAnalysis} {item : Item} {items : List Item}

/-- The items of the whole code. -/
def allItems (code : Bytes) : List Item := decode code code.length 0

/-- The first instruction begins the first block. -/
theorem instrs_zero (code : Bytes) : (analyze code).instrs[0]? =
    some { fn := .opxBeginblock, arg := .block (summary (newBlock 0) (allItems code)).close } := by
  rw [analyze_eq]
  rfl

/-- Behind the first instruction the first block begins. -/
theorem pointsTo_one (code : Bytes) : PointsTo code 1 0 (newBlock 0) (allItems code) := by
  refine ⟨?_, ?_, code.length, 0, rfl, by omega⟩
  · rw [analyze_eq]
    rfl
  · rw [analyze_eq]
    rfl

/-- Decoding goes forward. -/
theorem nextPos_gt (code : Bytes) (item : Item) : item.1 < nextPos code item := by
  -- Dead code is skipped forwards.
  have hskip : ∀ n pos, pos ≤ skipDeadCode code n pos := by
    intro n
    induction n with
    | zero => exact fun pos => le_rfl
    | succ n ih =>
      intro pos
      unfold skipDeadCode
      split
      next => exact le_rfl
      next b hb =>
        have hlt : pos < code.length := (List.getElem?_eq_some_iff.mp hb).1
        split
        · exact le_rfl
        · split
          · exact le_trans (by omega) (ih _)
          · exact le_trans (by omega) (ih _)
  unfold nextPos
  split
  · omega
  · split
    all_goals first
      | exact Nat.lt_of_succ_le (hskip _ _)
      | exact Nat.lt_succ_self _

/-- The items after the first one. -/
theorem PointsTo.rest (h : PointsTo code i k block (item :: items)) :
    ∃ n, items = decode code n (nextPos code item) ∧ code.length ≤ nextPos code item + n := by
  obtain ⟨n, pos, hitems, hlen⟩ := h.decoded
  cases n with
  | zero => cases hitems
  | succ n =>
    rw [decode] at hitems
    split at hitems
    next => cases hitems
    next opcode hopcode =>
      obtain ⟨rfl, rfl⟩ := List.cons.inj hitems
      have := nextPos_gt code (pos, opcode)
      exact ⟨n, rfl, by omega⟩

/-- The point after the first item. -/
theorem PointsTo.next (h : PointsTo code i k block (item :: items)) :
    PointsTo code (i + 1) (k + (pushValues code [item]).length) (blockAfter i block item.2)
      items := by
  obtain ⟨n, hrest, hlen⟩ := h.rest
  refine ⟨?_, ?_, n, _, hrest, hlen⟩
  · rw [← List.drop_drop, h.instrs]
    rfl
  · rw [← List.drop_drop, h.pushes, pushValues_cons code item items, List.drop_left]

/-- The instruction at a point. -/
theorem PointsTo.fetch (h : PointsTo code i k block (item :: items)) :
    (analyze code).instrs[i]? = some
      { fn := (opTable item.2).fn
        arg := argument code i k ((blockOf i block item.2).add (opTable item.2)) item items } := by
  have hhead := congrArg (·[0]?) h.instrs
  simpa [List.getElem?_drop, emit] using hhead

/-- After the last item the execution stops. -/
theorem PointsTo.fetch_nil (h : PointsTo code i k block []) :
    (analyze code).instrs[i]? = some { fn := .op .stop } := by
  have hhead := congrArg (·[0]?) h.instrs
  simpa [List.getElem?_drop, emit] using hhead

/-- The items are instructions of the code. -/
theorem PointsTo.byte (h : PointsTo code i k block (item :: items)) : code[item.1]? = some item.2 := by
  obtain ⟨n, pos, hitems, -⟩ := h.decoded
  cases n with
  | zero => cases hitems
  | succ n =>
    rw [decode] at hitems
    split at hitems
    next => cases hitems
    next opcode hopcode =>
      obtain ⟨rfl, -⟩ := List.cons.inj hitems
      exact hopcode

/-- The point after some of the items. -/
theorem PointsTo.append {before after : List Item}
    (h : PointsTo code i k block (before ++ after)) :
    ∃ k' block', PointsTo code (i + before.length) k' block' after := by
  induction before generalizing i k block with
  | nil => exact ⟨k, block, h⟩
  | cons item before ih =>
    obtain ⟨k', block', h'⟩ := ih h.next
    exact ⟨k', block', by rwa [List.length_cons, Nat.add_comm before.length, ← Nat.add_assoc]⟩

/-- A jump destination is an item with the opcode `0x5b`, and its target is the index of that item.
-/
theorem mem_jumpdests {i : Nat} {items : List Item} {x : Nat × Nat} (h : x ∈ jumpdests i items) :
    ∃ before after, items = before ++ (x.1, 0x5b) :: after ∧ x.2 = i + before.length := by
  induction items generalizing i with
  | nil => cases h
  | cons item items ih =>
    obtain ⟨pos, opcode⟩ := item
    have hrest : x ∈ jumpdests (i + 1) items →
        ∃ before after, (pos, opcode) :: items = before ++ (x.1, 0x5b) :: after ∧
          x.2 = i + before.length := by
      intro hx
      obtain ⟨before, after, rfl, htarget⟩ := ih hx
      exact ⟨(pos, opcode) :: before, after, rfl, by rw [htarget, List.length_cons]; omega⟩
    unfold jumpdests at h
    split at h
    next hop =>
      rcases List.mem_cons.mp h with rfl | h
      · exact ⟨[], items, by rw [hop]; rfl, rfl⟩
      · exact hrest h
    next => exact hrest h

/-- The lookup finds only the `JUMPDEST`s of the code. -/
theorem mem_jumpdests_of_findJumpdest {offset target : Nat}
    (h : findJumpdest (analyze code) offset = some target) :
    (offset, target) ∈ jumpdests 1 (allItems code) := by
  rw [analyze_eq] at h
  unfold findJumpdest at h
  dsimp only at h
  split at h
  next hoffset =>
    rw [List.getElem?_map] at h hoffset
    obtain ⟨x, hx, htarget⟩ := Option.map_eq_some_iff.mp h
    obtain ⟨y, hy, hoffset⟩ := Option.map_eq_some_iff.mp hoffset
    obtain rfl : x = y := Option.some.inj (hx.symm.trans hy)
    have := List.mem_of_getElem? hx
    rwa [← hoffset, ← htarget]
  next => cases h

/-- Jumps lead to the point of a `JUMPDEST`. -/
theorem pointsTo_of_findJumpdest {offset target : Nat}
    (h : findJumpdest (analyze code) offset = some target) :
    0 < target ∧ ∃ k block items, PointsTo code target k block ((offset, 0x5b) :: items) := by
  obtain ⟨before, after, hitems, htarget⟩ := mem_jumpdests (mem_jumpdests_of_findJumpdest h)
  have hstart := pointsTo_one code
  rw [hitems] at hstart
  obtain ⟨k, block, hpoint⟩ := hstart.append
  have htarget : target = 1 + before.length := htarget
  exact ⟨by omega, k, block, after, by rwa [htarget]⟩

end Advanced

end Zvmone
