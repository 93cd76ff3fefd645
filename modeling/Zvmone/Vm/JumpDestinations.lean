import Zvmone.Vm.BlockSummary

/-! # The jump destinations of the Advanced analysis

The analysis visits the instructions of the code except the dead ones, and among these there is no
`JUMPDEST` (`mem_decode_iff`). Hence its lookup finds the same destinations as the map of the
Baseline analysis, and leads to the instruction that begins the block (`jumpdests_found`). -/

namespace Zvmone

namespace Advanced

open Instr

open Baseline (FindsJumpdest IsJumpdest immediateSize findsJumpdest_iff not_findsJumpdest_of_none)

/-! ### Alignment -/

/-- Where the push data is cut off, decoding has come to the end. -/
theorem findsJumpdest_min (code : Bytes) (i j : Nat) :
    FindsJumpdest code (min i code.length) j ↔ FindsJumpdest code i j := by
  by_cases hinside : i ≤ code.length
  · rw [min_eq_left hinside]
  · have houtside := Nat.le_of_not_le hinside
    have hnone := fun k (hk : code.length ≤ k) =>
      not_findsJumpdest_of_none (List.getElem?_eq_none_iff.mpr hk) j
    rw [min_eq_right houtside]
    exact iff_of_false (hnone _ le_rfl) (hnone _ houtside)

/-- Skipping dead code stays with the instructions, and passes over no `JUMPDEST`. -/
theorem findsJumpdest_skipDeadCode (code : Bytes) (n i j : Nat) :
    FindsJumpdest code (skipDeadCode code n i) j ↔ FindsJumpdest code i j := by
  induction n generalizing i with
  | zero => exact Iff.rfl
  | succ n ih =>
    unfold skipDeadCode
    split
    next => exact Iff.rfl
    next b hb =>
      by_cases hjumpdest : b = 0x5b
      · rw [if_pos hjumpdest]
      -- A byte that is skipped is no `JUMPDEST`, so the others are behind its push data.
      · have hnext := findsJumpdest_iff hb rfl j
        rw [if_neg hjumpdest, hnext, or_iff_right fun h => hjumpdest h.2]
        by_cases hpush : IsPush b
        · rw [if_pos hpush, ih, findsJumpdest_min, immediateSize_of_isPush hpush,
            Nat.add_right_comm]
        · rw [if_neg hpush, ih, immediateSize_of_not_isPush hpush, Nat.add_zero]

/-- The analysis goes on behind the push data. -/
theorem findsJumpdest_nextPos {code : Bytes} {pos : Nat} {opcode : UInt8}
    (hbyte : code[pos]? = some opcode) (j : Nat) :
    FindsJumpdest code (nextPos code (pos, opcode)) j ↔
      FindsJumpdest code (pos + 1 + immediateSize opcode) j := by
  have hlt : pos < code.length := (List.getElem?_eq_some_iff.mp hbyte).1
  -- Only behind the end of a block other than `JUMPI` the analysis skips dead code.
  by_cases hplain : EndsBlock opcode → Opcode.ofByte opcode = some .jumpi
  · rw [nextPos_eq hlt hplain, findsJumpdest_min]
  · obtain ⟨hends, hjumpi⟩ := Classical.not_imp.mp hplain
    rw [nextPos_of_endsBlock hends hjumpi, findsJumpdest_skipDeadCode,
      immediateSize_of_not_isPush hends.not_isPush, Nat.add_zero]

/-- The analysis visits exactly the `JUMPDEST`s that linear decoding finds. -/
theorem mem_decode_iff {code : Bytes} {n pos : Nat} (hn : code.length ≤ pos + n) (j : Nat) :
    (j, 0x5b) ∈ decode code n pos ↔ FindsJumpdest code pos j := by
  induction n generalizing pos with
  | zero =>
    have hnone : code[pos]? = none := List.getElem?_eq_none_iff.mpr hn
    exact iff_of_false List.not_mem_nil (not_findsJumpdest_of_none hnone j)
  | succ n ih =>
    rw [decode]
    split
    next hnone => exact iff_of_false List.not_mem_nil (not_findsJumpdest_of_none hnone j)
    next opcode hbyte =>
      have hpos : pos < nextPos code (pos, opcode) := nextPos_gt code (pos, opcode)
      rw [List.mem_cons, ih (by omega), findsJumpdest_nextPos hbyte, findsJumpdest_iff hbyte rfl,
        Prod.mk.injEq, eq_comm (a := (0x5b : UInt8))]

/-! ### The lookup -/

/-- The analysis visits the instructions in the order of their positions. -/
theorem pairwise_decode (code : Bytes) (n pos : Nat) :
    (decode code n pos).Pairwise (fun a b => a.1 < b.1) ∧
      ∀ item ∈ decode code n pos, pos ≤ item.1 := by
  induction n generalizing pos with
  | zero => exact ⟨.nil, fun _ h => absurd h List.not_mem_nil⟩
  | succ n ih =>
    rw [decode]
    split
    next => exact ⟨.nil, fun _ h => absurd h List.not_mem_nil⟩
    next opcode hbyte =>
      have hpos : pos < nextPos code (pos, opcode) := nextPos_gt code (pos, opcode)
      obtain ⟨hpairwise, hge⟩ := ih (nextPos code (pos, opcode))
      refine ⟨List.pairwise_cons.mpr ⟨fun item hitem => hpos.trans_le (hge item hitem), hpairwise⟩,
        fun item hitem => ?_⟩
      rcases List.mem_cons.mp hitem with rfl | hitem
      · exact le_rfl
      · exact hpos.le.trans (hge item hitem)

/-- An item with the opcode `0x5b` is a jump destination. -/
theorem mem_jumpdests_of_getElem? {i j pos : Nat} {items : List Item}
    (h : items[j]? = some (pos, 0x5b)) : (pos, i + j) ∈ jumpdests i items := by
  induction items generalizing i j with
  | nil => cases h
  | cons item items ih =>
    cases j with
    | zero =>
      obtain rfl : item = (pos, 0x5b) := Option.some.inj h
      exact List.mem_cons_self
    | succ j =>
      have hrest : (pos, i + 1 + j) ∈ jumpdests (i + 1) items := ih h
      rw [show i + (j + 1) = i + 1 + j by omega]
      unfold jumpdests
      split
      · exact List.mem_cons_of_mem _ hrest
      · exact hrest

/-- The offsets are in the order of the instructions. -/
theorem pairwise_jumpdests {i : Nat} {items : List Item}
    (h : items.Pairwise fun a b => a.1 < b.1) :
    (jumpdests i items).Pairwise fun a b => a.1 < b.1 := by
  induction items generalizing i with
  | nil => exact .nil
  | cons item items ih =>
    obtain ⟨hhead, htail⟩ := List.pairwise_cons.mp h
    unfold jumpdests
    split
    · refine List.pairwise_cons.mpr ⟨fun x hx => ?_, ih htail⟩
      -- Every entry of the table comes from an item further on.
      obtain ⟨before, after, rfl, -⟩ := mem_jumpdests hx
      exact hhead _ (List.mem_append_right _ List.mem_cons_self)
    · exact ih htail

/-- The binary search finds the offset in an ordered table. -/
theorem findIdx_of_mem {table : List (Nat × Nat)} (h : table.Pairwise fun a b => a.1 < b.1)
    {offset target : Nat} (hmem : (offset, target) ∈ table) :
    table[(table.map Prod.fst).findIdx fun o => ¬ o < offset]? = some (offset, target) := by
  induction table with
  | nil => cases hmem
  | cons x table ih =>
    obtain ⟨hhead, htail⟩ := List.pairwise_cons.mp h
    rw [List.map_cons, List.findIdx_cons]
    rcases List.mem_cons.mp hmem with rfl | hmem
    · simp
    · have hlt : x.1 < offset := hhead _ hmem
      simp only [hlt, not_true_eq_false, decide_false, cond_false]
      exact ih htail hmem

/-- The lookup finds exactly the `JUMPDEST` instructions of the code, at their index. -/
theorem findJumpdest_iff (code : Bytes) (offset target : Nat) :
    findJumpdest (analyze code) offset = some target ↔
      ∃ i, (allItems code)[i]? = some (offset, 0x5b) ∧ target = i + 1 := by
  constructor
  · intro h
    obtain ⟨before, after, hitems, htarget⟩ := mem_jumpdests (mem_jumpdests_of_findJumpdest h)
    refine ⟨before.length, ?_, by rw [Nat.add_comm]; exact htarget⟩
    rw [hitems, List.getElem?_append_right le_rfl, Nat.sub_self]
    rfl
  · rintro ⟨i, hitem, rfl⟩
    have hmem : (offset, i + 1) ∈ jumpdests 1 (allItems code) := by
      rw [Nat.add_comm]
      exact mem_jumpdests_of_getElem? hitem
    -- The positions increase, so the binary search ends at the entry.
    have hfound := findIdx_of_mem (pairwise_jumpdests (pairwise_decode code code.length 0).1) hmem
    rw [analyze_eq]
    unfold findJumpdest
    dsimp only [allItems] at hfound ⊢
    rw [List.getElem?_map, List.getElem?_map, hfound]
    exact if_pos rfl

/-- The lookup finds the jump destinations of the code. -/
theorem findJumpdest_isSome_iff (code : Bytes) (offset : Nat) :
    (findJumpdest (analyze code) offset).isSome ↔ IsJumpdest code offset := by
  have hvisited : (offset, 0x5b) ∈ allItems code ↔ IsJumpdest code offset :=
    mem_decode_iff (Nat.le_add_left _ _) offset
  rw [Option.isSome_iff_exists, ← hvisited, List.mem_iff_getElem?]
  constructor
  · rintro ⟨target, hfind⟩
    obtain ⟨i, hitem, -⟩ := (findJumpdest_iff code offset target).mp hfind
    exact ⟨i, hitem⟩
  · rintro ⟨i, hitem⟩
    exact ⟨i + 1, (findJumpdest_iff code offset _).mpr ⟨i, hitem, rfl⟩⟩

/-- The source casts the offsets and the targets of its table to `int32_t`. For a code of less than
2^31 bytes they fit, and the casts do not change them. -/
theorem jumpdests_fit {code : Bytes} (hcode : code.length < 2 ^ 31) :
    (∀ offset ∈ (analyze code).jumpdestOffsets, offset < 2 ^ 31) ∧
      ∀ target ∈ (analyze code).jumpdestTargets, target < 2 ^ 31 := by
  have hentry : ∀ x ∈ jumpdests 1 (allItems code), x.1 < 2 ^ 31 ∧ x.2 < 2 ^ 31 := by
    intro x hx
    obtain ⟨before, after, hitems, htarget⟩ := mem_jumpdests hx
    have hmem : (x.1, 0x5b) ∈ allItems code :=
      hitems ▸ List.mem_append_right before List.mem_cons_self
    have hoffset := ((mem_decode_iff (Nat.le_add_left _ _) x.1).mp hmem).2
    have hinside : x.1 < code.length := (List.getElem?_eq_some_iff.mp hoffset).1
    -- No more items stand before it than the code has bytes.
    have hlength : (allItems code).length ≤ code.length := length_decode_le code code.length 0
    rw [hitems, List.length_append, List.length_cons] at hlength
    omega
  rw [analyze_eq]
  constructor
  · intro offset hmem
    obtain ⟨x, hx, rfl⟩ := List.mem_map.mp hmem
    exact (hentry x hx).1
  · intro target hmem
    obtain ⟨x, hx, rfl⟩ := List.mem_map.mp hmem
    exact (hentry x hx).2

/-- Both analyses find exactly the `JUMPDEST`s among the instructions of the linear decoding. What the
lookup returns is the index of the instruction made for the `JUMPDEST`, which begins a block and
holds the summary of the block that starts there. -/
theorem jumpdests_found (code : Bytes) :
    (∀ offset, (Baseline.analyze code).jumpdestMap[offset]? = some true ↔
      offset < code.length ∧ IsJumpdest code offset) ∧
    (∀ offset, (findJumpdest (analyze code) offset).isSome ↔ IsJumpdest code offset) ∧
    (∀ offset target, findJumpdest (analyze code) offset = some target →
      ∃ i, target = i + 1 ∧ (allItems code)[i]? = some (offset, 0x5b) ∧
        (analyze code).instrs[target]? = some
          { fn := .opxBeginblock
            arg := .block (blockInfo (0x5b :: blockFrom code code.length (offset + 1))) }) ∧
    (analyze code).jumpdestOffsets.Pairwise (· < ·) := by
  refine ⟨fun offset => ?_, fun offset => ?_, fun offset target hfind => ?_, ?_⟩
  · have hinside : IsJumpdest code offset → offset < code.length :=
      fun h => (List.getElem?_eq_some_iff.mp h.2).1
    rw [and_iff_right_of_imp hinside]
    exact Baseline.analyzeJumpdests_iff code offset
  · exact findJumpdest_isSome_iff code offset
  · obtain ⟨i, hitem, rfl⟩ := (findJumpdest_iff code offset target).mp hfind
    exact ⟨i, rfl, hitem, instrs_of_jumpdest hitem⟩
  · rw [analyze_eq, List.pairwise_map]
    exact pairwise_jumpdests (pairwise_decode code code.length 0).1

/-- A `JUMPDEST` in dead code is found behind the push data of the code before it. -/
example : findJumpdest (analyze [0x56, 0x60, 0x5b, 0x5b]) 2 = none ∧
    findJumpdest (analyze [0x56, 0x60, 0x5b, 0x5b]) 3 = some 2 := by decide

end Advanced

end Zvmone
