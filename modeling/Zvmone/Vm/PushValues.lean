import Zvmone.Vm.BlockSummary
import Zvmone.Vm.LimbOperations

/-! # Push values

The two interpreters decode the data of a PUSH in their own ways: Baseline loads words of the padded
code, Advanced shifts single bytes or stores them backwards. Both make the same number of the data,
`pushedValue`, in which the bytes missing at the end of the code count as zeros. -/

namespace Zvmone

open BigEndian

/-- The `n` bytes behind the opcode at a position; bytes beyond the end of the code are 0. -/
def immediateBytes (code : Bytes) (pos n : Nat) : Bytes :=
  let data := (code.drop (pos + 1)).take n
  data ++ List.replicate (n - data.length) 0

/-- The big-endian value of the `n` bytes behind the opcode at a position. -/
def pushedValue (code : Bytes) (pos n : Nat) : Word := .load (immediateBytes code pos n)

/-- As many bytes are read as the push has. -/
@[simp] theorem length_immediateBytes (code : Bytes) (pos n : Nat) :
    (immediateBytes code pos n).length = n := by
  simp only [immediateBytes, List.length_append, List.length_replicate, List.length_take]
  omega

/-! ### Limbs of a big-endian number -/

namespace Word

/-- A word consists of its limbs. -/
theorem ofLimbs_limb (x : Word) : ofLimbs x.limb = x := by
  apply BitVec.eq_of_getLsbD_eq
  intro k hk
  rw [getLsbD_ofLimbs _ hk, getLsbD_limb, decide_eq_true (by omega), Bool.true_and,
    Nat.div_add_mod]

/-- Only the four limbs of a word count. -/
theorem ofLimbs_congr {l l' : Nat → BitVec 64} (h : ∀ i < 4, l i = l' i) :
    ofLimbs l = ofLimbs l' := by
  unfold ofLimbs
  rw [h 0 (by decide), h 1 (by decide), h 2 (by decide), h 3 (by decide)]

/-- The limb `i` of a big-endian number of at most 32 bytes. -/
theorem toNat_limb_load {bs : Bytes} (hlen : bs.length ≤ 32) (i : Nat) :
    ((load bs).limb i).toNat = BigEndian.load bs / 256 ^ (8 * i) % 256 ^ 8 := by
  have hlt : BigEndian.load bs < 2 ^ 256 :=
    (load_lt bs).trans_le (Nat.pow_le_pow_right (show 0 < 256 by decide) hlen)
  have hpow : 2 ^ (64 * i) = 256 ^ (8 * i) := by
    rw [show 256 = 2 ^ 8 from rfl, ← pow_mul]
    congr 1
    omega
  rw [limb, load, BitVec.toNat_setWidth, BitVec.toNat_ushiftRight, BitVec.toNat_ofNat,
    Nat.mod_eq_of_lt hlt, Nat.shiftRight_eq_div_pow, hpow]
  rfl

/-- It is made of the 8 bytes that stand `8 * i` bytes before the end, or of the first ones if there
are fewer. -/
theorem limb_load {front mid back : Bytes} {i : Nat} (hlen : (front ++ mid ++ back).length ≤ 32)
    (hback : back.length = 8 * i) (hmid : mid.length = 8 ∨ mid.length < 8 ∧ front = []) :
    (load (front ++ mid ++ back)).limb i = BitVec.ofNat 64 (BigEndian.load mid) := by
  have hmidlt := load_lt mid
  have hpos : 0 < 256 ^ (8 * i) := Nat.pow_pos (by decide)
  apply BitVec.eq_of_toNat_eq
  rw [toNat_limb_load hlen, BitVec.toNat_ofNat, load_append, hback, Nat.add_comm,
    Nat.add_mul_div_right _ _ hpos,
    Nat.div_eq_of_lt ((load_lt back).trans_eq (congrArg (256 ^ ·) hback)), Nat.zero_add, load_append]
  rcases hmid with h8 | ⟨hlt, rfl⟩
  · rw [h8, Nat.mul_add_mod_self_right]
    rfl
  · rw [load_nil, Nat.zero_mul, Nat.zero_add]
    rfl

/-- Beyond the number the limbs are 0. -/
theorem limb_load_of_le {bs : Bytes} {i : Nat} (hlen : bs.length ≤ 32) (h : bs.length ≤ 8 * i) :
    (load bs).limb i = 0 := by
  have hlt : BigEndian.load bs < 256 ^ (8 * i) :=
    (load_lt bs).trans_le (Nat.pow_le_pow_right (by decide) h)
  apply BitVec.eq_of_toNat_eq
  rw [toNat_limb_load hlen, Nat.div_eq_of_lt hlt]
  rfl

end Word

/-! ### Baseline -/

namespace Baseline

/-- The padding is as long as the data of any PUSH. -/
theorem take_drop_padCode {code : Bytes} {pos n : Nat} (hpos : pos < code.length) (hn : n ≤ 32) :
    ((padCode code).drop (pos + 1)).take n = immediateBytes code pos n := by
  unfold padCode immediateBytes
  dsimp only
  rw [List.drop_append_of_le_length (by omega), List.take_append, List.take_replicate,
    List.length_take]
  congr 2
  omega

/-- Loading more bytes and shifting them out loads the first ones. -/
theorem loadCode_shiftRight {code : Bytes} {pos a b : Nat} (h : pos + (a + b) ≤ code.length) :
    loadCode code pos (a + b) >>> (8 * b) = loadCode code pos a := by
  have hlen : (((code.drop pos).drop a).take b).length = b := by
    rw [List.length_take, List.length_drop, List.length_drop]
    omega
  have hlt := load_lt (((code.drop pos).drop a).take b)
  rw [hlen] at hlt
  have hpow : 2 ^ (8 * b) = 256 ^ b := pow_mul 2 8 b
  rw [loadCode, List.take_add, load_append, hlen, Nat.shiftRight_eq_div_pow, hpow, Nat.add_comm,
    Nat.add_mul_div_right _ _ (Nat.pow_pos (by decide)), Nat.div_eq_of_lt hlt, Nat.zero_add]
  rfl

/-- Fewer than 8 bytes are loaded with a wider load that is shifted. -/
theorem loadPartialPushData_eq {code : Bytes} {pos len : Nat} (hpos : 0 < len) (hlen : len < 8)
    (hcode : pos + 8 ≤ code.length) : loadPartialPushData len code pos = loadCode code pos len := by
  unfold loadPartialPushData
  split
  · rfl
  · rfl
  · exact @loadCode_shiftRight code pos 3 1 (by omega)
  · rfl
  · have hshift := @loadCode_shiftRight code pos len (8 - len) (by omega)
    rwa [Nat.add_sub_cancel' hlen.le] at hshift

/-- `push<n>` loads the big-endian value of the data. -/
theorem loadPushData_eq {code : Bytes} {pos n : Nat} (hpos : pos < code.length) (hn : n ≤ 32) :
    loadPushData n (padCode code) (pos + 1) = pushedValue code pos n := by
  have hpad : pos + 34 ≤ (padCode code).length := by
    simp only [padCode, List.length_append, List.length_replicate]
    omega
  have hlen := length_immediateBytes code pos n
  unfold pushedValue
  rw [← take_drop_padCode hpos hn] at hlen ⊢
  generalize padCode code = padded at hpad hlen ⊢
  obtain ⟨data, hdata⟩ : ∃ data, padded.drop (pos + 1) = data := ⟨_, rfl⟩
  have hload : ∀ k m, loadCode padded (pos + 1 + k) m = BigEndian.load ((data.drop k).take m) := by
    intro k m
    rw [loadCode, ← hdata, List.drop_drop]
  have hdatalen : 33 ≤ data.length := by
    rw [← hdata, List.length_drop]
    omega
  rw [hdata] at hlen ⊢
  unfold loadPushData
  dsimp only
  rw [← Word.ofLimbs_limb (Word.load _)]
  refine Word.ofLimbs_congr fun i hi => ?_
  split
  next hfull =>
    -- A full word: the 8 bytes that stand `8 * i` bytes before the end of the data.
    have hmid : ((data.take n).drop (n - 8 * (i + 1))).take 8
        = (data.drop (n - 8 * (i + 1))).take 8 := by
      rw [List.drop_take, List.take_take, Nat.min_eq_left (by omega)]
    have hsplit : data.take n = (data.take n).take (n - 8 * (i + 1)) ++
        (data.drop (n - 8 * (i + 1))).take 8 ++ (data.take n).drop (n - 8 * i) := by
      have hnext : n - 8 * i = n - 8 * (i + 1) + 8 := by omega
      rw [← hmid, hnext, ← List.drop_drop, List.append_assoc, List.take_append_drop,
        List.take_append_drop]
    have hlimb := Word.limb_load (i := i) (hsplit ▸ hlen.trans_le hn)
      (by rw [List.length_drop, hlen]; omega)
      (.inl (by rw [List.length_take, List.length_drop]; omega))
    have hpos : pos + 1 + n % 8 + 8 * (n / 8 - 1 - i) = pos + 1 + (n - 8 * (i + 1)) := by omega
    rw [hpos, hload, ← hlimb, ← hsplit]
  next hfull =>
    split
    next hpartial =>
      -- The partial word: the first bytes of the data.
      have hmid : (data.take n).take (n % 8) = data.take (n % 8) := by
        rw [List.take_take, Nat.min_eq_left (Nat.mod_le n 8)]
      have hsplit : data.take n = [] ++ data.take (n % 8) ++ (data.take n).drop (n % 8) := by
        rw [← hmid, List.nil_append, List.take_append_drop]
      have hlimb := Word.limb_load (i := i) (hsplit ▸ hlen.trans_le hn)
        (by rw [List.length_drop, hlen]; omega)
        (.inr ⟨by rw [List.length_take]; omega, rfl⟩)
      have hbytes := hload 0 (n % 8)
      rw [Nat.add_zero, List.drop_zero] at hbytes
      rw [loadPartialPushData_eq (by omega) (by omega) (by omega), hbytes, ← hlimb, ← hsplit]
    next hpartial => exact (Word.limb_load_of_le (hlen.trans_le hn) (by omega)).symm

end Baseline

/-! ### Advanced -/

namespace Advanced

/-- The value of the immediate bytes is that of the data with the missing bytes shifted in. -/
theorem load_immediateBytes (code : Bytes) (pos n : Nat) :
    BigEndian.load (immediateBytes code pos n)
      = BigEndian.load ((code.drop (pos + 1)).take n) *
        256 ^ (n - ((code.drop (pos + 1)).take n).length) :=
  load_append_replicate_zero _ _

/-- The loop of a small PUSH shifts every byte to its place among the `m` bytes that are left. -/
theorem smallPushLoop_eq {bs : Bytes} {m : Nat} (hlen : bs.length ≤ m) (hm : m ≤ 8)
    (value : BitVec 64) : smallPushLoop bs value ((m - 1) * 8)
      = value ||| BitVec.ofNat 64 (BigEndian.load bs * 256 ^ (m - bs.length)) := by
  induction bs generalizing m value with
  | nil => simp [smallPushLoop]
  | cons b bs ih =>
    rw [List.length_cons] at hlen
    obtain ⟨k, rfl⟩ : ∃ k, m = k + 1 := ⟨m - 1, by omega⟩
    have hrest := ih (m := k) (by omega) (by omega)
      (value ||| b.toBitVec.setWidth 64 <<< ((k + 1 - 1) * 8))
    have hpos : (k + 1 - 1) * 8 - 8 = (k - 1) * 8 := by omega
    rw [smallPushLoop, hpos, hrest, BitVec.or_assoc]
    congr 1
    -- The byte stands above what the rest makes.
    have hrestlt : BigEndian.load bs * 256 ^ (k - bs.length) < 256 ^ k := by
      calc BigEndian.load bs * 256 ^ (k - bs.length)
          < 256 ^ bs.length * 256 ^ (k - bs.length) :=
            Nat.mul_lt_mul_of_pos_right (load_lt bs) (Nat.pow_pos (by decide))
        _ = 256 ^ k := by rw [← pow_add, Nat.add_sub_cancel' (by omega)]
    have hvalue : BigEndian.load (b :: bs) * 256 ^ (k + 1 - (bs.length + 1))
        = b.toNat <<< (k * 8) ||| BigEndian.load bs * 256 ^ (k - bs.length) := by
      have hpow : 2 ^ (k * 8) = 256 ^ k := by
        rw [Nat.mul_comm, pow_mul]
        rfl
      rw [← Nat.shiftLeft_add_eq_or_of_lt (hpow ▸ hrestlt), Nat.shiftLeft_eq, hpow, load_cons,
        Nat.add_sub_add_right, Nat.add_mul, Nat.mul_assoc, ← pow_add, Nat.add_sub_cancel' (by omega)]
    have hbyte : b.toBitVec.setWidth 64 <<< (k * 8) = BitVec.ofNat 64 (b.toNat <<< (k * 8)) := by
      apply BitVec.eq_of_toNat_eq
      simp [BitVec.toNat_shiftLeft, Nat.shiftLeft_eq]
    rw [List.length_cons, hvalue, BitVec.ofNat_or, Nat.add_sub_cancel, hbyte]

/-- The loop of a large PUSH writes the data backwards. -/
theorem largePushLoop_eq {bs bytes : Bytes} {m : Nat} (hlen : bs.length ≤ m) (hm : m ≤ bytes.length) :
    largePushLoop bs bytes (m - 1) = bytes.take (m - bs.length) ++ bs.reverse ++ bytes.drop m := by
  induction bs generalizing m bytes with
  | nil => simp [largePushLoop]
  | cons b bs ih =>
    rw [List.length_cons] at hlen
    obtain ⟨k, rfl⟩ : ∃ k, m = k + 1 := ⟨m - 1, by omega⟩
    have hrest := @ih (bytes.set k b) k (by omega) (by rw [List.length_set]; omega)
    have hset : (bytes.set k b).drop k = b :: bytes.drop (k + 1) := by
      rw [List.drop_eq_getElem_cons (by rw [List.length_set]; omega), List.getElem_set_self,
        List.drop_set_of_lt (Nat.lt_succ_self k)]
    rw [largePushLoop, Nat.add_sub_cancel, hrest, hset, List.take_set_of_le (by omega),
      List.reverse_cons, List.length_cons, Nat.add_sub_add_right, List.append_assoc, List.append_assoc,
      List.append_assoc]
    rfl

variable {code : Bytes} {pos : Nat} {opcode : UInt8}

/-- At most 32 bytes are pushed. -/
theorem pushSize_le (h : IsPush opcode) : pushSize opcode ≤ 32 := by
  have hlast := h.2
  unfold pushSize
  omega

/-- The value that a small PUSH stores. -/
theorem smallPushValue_eq (hsize : pushSize opcode ≤ 8) :
    (smallPushLoop (pushData code (pos, opcode)) 0 ((pushSize opcode - 1) * 8)).setWidth 256
      = pushedValue code pos (pushSize opcode) := by
  have hlen : (pushData code (pos, opcode)).length ≤ pushSize opcode := List.length_take_le _ _
  have hlt := load_lt (immediateBytes code pos (pushSize opcode))
  rw [length_immediateBytes] at hlt
  have hsmall : BigEndian.load (immediateBytes code pos (pushSize opcode)) < 2 ^ 64 :=
    hlt.trans_le (Nat.pow_le_pow_right (show 0 < 256 by decide) hsize)
  have hstored : smallPushLoop (pushData code (pos, opcode)) 0 ((pushSize opcode - 1) * 8)
      = BitVec.ofNat 64 (BigEndian.load (immediateBytes code pos (pushSize opcode))) := by
    rw [smallPushLoop_eq hlen hsize, load_immediateBytes]
    exact BitVec.zero_or
  rw [hstored, pushedValue, Word.load]
  apply BitVec.eq_of_toNat_eq
  rw [BitVec.toNat_setWidth, BitVec.toNat_ofNat, BitVec.toNat_ofNat, Nat.mod_eq_of_lt hsmall]

/-- The value that a large PUSH stores. -/
theorem largePushValue_eq (hpush : IsPush opcode) :
    largePushValue code (pos, opcode) = pushedValue code pos (pushSize opcode) := by
  have hlen : (pushData code (pos, opcode)).length ≤ pushSize opcode := List.length_take_le _ _
  unfold largePushValue
  dsimp only
  rw [largePushLoop_eq hlen (by simpa using pushSize_le hpush), List.take_replicate,
    List.drop_replicate, List.reverse_append, List.reverse_append, List.reverse_reverse,
    List.reverse_replicate, List.reverse_replicate, pushedValue, Word.load, Word.load,
    load_replicate_zero_append, Nat.min_eq_left (by have := pushSize_le hpush; omega)]
  rfl

/-- Values of up to 8 bytes are stored in the instruction, others beside it. -/
theorem opTable_fn (hpush : IsPush opcode) :
    (opTable opcode).fn = if pushSize opcode ≤ 8 then .opPushSmall else .opPushFull := by
  obtain ⟨k, hop, hk⟩ := Baseline.ofByte_push ⟨hpush.1, Nat.lt_succ_of_le hpush.2⟩
  have hsize : pushSize opcode = k.val + 1 := by
    have hfirst := hpush.1
    unfold pushSize
    omega
  rw [opTable_of hop, hsize]
  rfl

/-! ### Sizes -/

/-- An instruction is emitted for each item. -/
theorem length_emit (code : Bytes) (i k : Nat) (block : BlockAnalysis) (items : List Item) :
    (emit code i k block items).length = items.length := by
  induction items generalizing i k block with
  | nil => rfl
  | cons item items ih => rw [emit, List.length_cons, ih, List.length_cons]

/-- At most one push value is stored for each item. -/
theorem length_pushValues_le (code : Bytes) (items : List Item) :
    (pushValues code items).length ≤ items.length := by
  induction items with
  | nil => exact le_rfl
  | cons item items ih =>
    unfold pushValues
    split
    · exact Nat.succ_le_succ ih
    · exact ih.trans (Nat.le_succ _)

/-- **Both interpreters push the same number**: at every PUSH that the analysis visits, Baseline loads
from the padded code, and Advanced stores as a small or as a large value, the big-endian value of
the data with missing bytes 0. The analysis stays within the sizes it has reserved. -/
theorem push_values_agree (code : Bytes) :
    (∀ i pos opcode, (allItems code)[i]? = some (pos, opcode) → IsPush opcode →
      Baseline.loadPushData (pushSize opcode) (Baseline.analyze code).executableCode (pos + 1)
        = pushedValue code pos (pushSize opcode) ∧
      ∃ instr, (analyze code).instrs[i + 1]? = some instr ∧
        if pushSize opcode ≤ 8 then
          ∃ v, instr = { fn := .opPushSmall, arg := .smallPushValue v } ∧
            v.setWidth 256 = pushedValue code pos (pushSize opcode)
        else
          ∃ k, instr = { fn := .opPushFull, arg := .pushValue k } ∧
            (analyze code).pushValues[k]? = some (pushedValue code pos (pushSize opcode))) ∧
    (analyze code).instrs.length ≤ code.length + 2 ∧
    (analyze code).pushValues.length ≤ code.length + 1 := by
  have hitems := length_decode_le code code.length 0
  refine ⟨fun i pos opcode hitem hpush => ?_, ?_, ?_⟩
  -- The item's place in the scan tells where its instruction and its large value were put.
  · obtain ⟨k, block, hpoint⟩ := pointsTo_of_getElem? hitem
    have hpos : pos < code.length := (List.getElem?_eq_some_iff.mp hpoint.byte).1
    have hjumpdest : opcode ≠ 0x5b := by
      rintro rfl
      exact absurd hpush (by decide)
    refine ⟨Baseline.loadPushData_eq hpos (pushSize_le hpush), _, hpoint.fetch, ?_⟩
    unfold argument
    dsimp only
    rw [if_neg hjumpdest, if_pos hpush, opTable_fn hpush]
    -- Eight bytes fit in the argument itself, more are kept in the side table.
    by_cases hsize : pushSize opcode ≤ 8
    · rw [if_pos hsize, if_pos hsize, if_pos hsize]
      exact ⟨_, rfl, smallPushValue_eq hsize⟩
    · rw [if_neg hsize, if_neg hsize, if_neg hsize]
      refine ⟨k, rfl, ?_⟩
      have hpushes := hpoint.pushes
      rw [pushValues, if_pos ⟨hpush, hsize⟩, largePushValue_eq hpush] at hpushes
      have hhead := congrArg (·[0]?) hpushes
      simpa [List.getElem?_drop] using hhead
  · rw [analyze_eq]
    simp only [List.length_cons, List.length_append, length_emit, List.length_nil]
    omega
  · rw [analyze_eq]
    exact ((length_pushValues_le _ _).trans hitems).trans (Nat.le_succ _)

/-- A `PUSH2` with one byte of data at the end of the code pushes `0x0100`. -/
theorem push_values_agree_cutOff :
    Baseline.loadPushData 2 (Baseline.analyze [0x61, 0x01]).executableCode 1 = 0x0100 ∧
    ∃ instr v, (analyze [0x61, 0x01]).instrs[1]? = some instr ∧
      instr = { fn := .opPushSmall, arg := .smallPushValue v } ∧ v.setWidth 256 = (0x0100 : Word) := by
  obtain ⟨hbaseline, instr, hinstr, v, hv⟩ :=
    (push_values_agree [0x61, 0x01]).1 0 0 0x61 (by decide) (by decide)
  exact ⟨hbaseline, instr, v, hinstr, hv⟩

end Advanced

end Zvmone
