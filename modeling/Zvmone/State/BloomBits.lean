import Zvmone.State.Block
import Mathlib.Data.Nat.Bitwise
import Mathlib.Data.Set.Lattice

/-! # The bits of bloom filters

A bloom filter is the set of its bits (`BloomFilter.bits`): adding an entry adds the bits that its
hash selects (`bits_addTo`), and the filters of logs and of receipts are unions. What a filter holds
therefore depends on neither the order nor the repetition of entries. -/

namespace Zvmone

namespace BloomFilter

/-! ### Filters as sets of bits -/

/-- The bits that are set: bit `b` is kept in byte `255 - b / 8` at weight `2 ^ (b % 8)`. -/
def bits (bf : BloomFilter) : Set Nat :=
  {b | b < 2048 ∧ (bf.bytes[255 - b / 8]).toNat.testBit (b % 8)}

/-- The empty filter has no bits. -/
@[simp] theorem bits_empty : bits {} = ∅ := by
  ext b
  simp [bits]

/-- A filter is determined by its bits. -/
theorem bits_injective : Function.Injective bits := by
  intro bf bf' h
  have hbytes : bf.bytes = bf'.bytes := by
    apply Vector.ext
    intro i hi
    apply UInt8.toNat_inj.1
    apply Nat.eq_of_testBit_eq
    intro j
    by_cases hj : j < 8
    · -- Bit `j` of byte `i` is bit `8 * (255 - i) + j` of the filter.
      have hbit := Set.ext_iff.1 h (8 * (255 - i) + j)
      have hbyte : 255 - (8 * (255 - i) + j) / 8 = i := by omega
      have hpos : (8 * (255 - i) + j) % 8 = j := by omega
      have hlt : 8 * (255 - i) + j < 2048 := by omega
      simp only [bits, Set.mem_ofPred_eq, hbyte, hpos, hlt, true_and] at hbit
      exact Bool.eq_iff_iff.2 hbit
    · have hbyte : ∀ b : UInt8, b.toNat.testBit j = false := fun b =>
        Nat.testBit_lt_two_pow (lt_of_lt_of_le b.toNat_lt
          (Nat.pow_le_pow_right (by decide) (show 8 ≤ j by omega)))
      rw [hbyte, hbyte]
  cases bf
  cases bf'
  exact congrArg BloomFilter.mk hbytes

/-- The byte of a bit is inside of the filter. -/
theorem hashByte_lt (hash : Bytes32) (i : Nat) : hashByte hash i < 256 := UInt8.toNat_lt _

/-- A selected bit is one of the 2048. -/
theorem bitToSet_lt (hash : Bytes32) (i : Nat) : bitToSet hash i < 2048 := by
  have hhigh : (hashByte hash i &&& 0x07) <<< 8 < 2 ^ 11 := by
    have hand : hashByte hash i &&& 0x07 ≤ 0x07 := Nat.and_le_right
    rw [Nat.shiftLeft_eq]
    omega
  have hlow : hashByte hash (i + 1) < 2 ^ 11 := by
    have := hashByte_lt hash (i + 1)
    omega
  exact Nat.or_lt_two_pow hhigh hlow

/-- Where `add_to` keeps a bit: the mirrored index is split into byte and weight. -/
theorem setBit_bytes (bf : BloomFilter) {t : Nat} (ht : t < 2048) :
    (bf.setBit t).bytes = bf.bytes.set (255 - t / 8)
      (bf.bytes[255 - t / 8] ||| UInt8.ofNat (2 ^ (t % 8))) := by
  have hbyte : (0x07FF - t) / 8 = 255 - t / 8 := by omega
  have hpos : 7 - (0x07FF - t) % 8 = t % 8 := by omega
  have hlt : 255 - t / 8 < 256 := by omega
  have hget : bf.bytes.getD (255 - t / 8) 0 = bf.bytes[255 - t / 8] := by
    simp [Vector.getD, hlt]
  unfold setBit
  dsimp only
  rw [hbyte, hpos, Nat.one_shiftLeft, hget]
  apply Vector.ext
  intro i hi
  rw [Vector.getElem_setIfInBounds, Vector.getElem_set]

/-- Setting a bit adds it and changes no other. -/
theorem bits_setBit (bf : BloomFilter) {t : Nat} (ht : t < 2048) :
    (bf.setBit t).bits = insert t bf.bits := by
  ext b
  have hweight : (UInt8.ofNat (2 ^ (t % 8))).toNat = 2 ^ (t % 8) := by
    rw [UInt8.toNat_ofNat', Nat.mod_eq_of_lt]
    exact Nat.pow_lt_pow_right (by decide) (Nat.mod_lt t (by decide))
  simp only [bits, setBit_bytes bf ht, Set.mem_ofPred_eq, Set.mem_insert_iff, Vector.getElem_set]
  by_cases hb : b < 2048
  · split
    -- The bit's own byte: its other bits stay.
    next hbyte =>
      rw [UInt8.toNat_or, hweight, Nat.testBit_or, Nat.testBit_two_pow, Bool.or_eq_true,
        decide_eq_true_eq]
      have hsame : t % 8 = b % 8 ↔ b = t := by omega
      rw [hsame]
      have hindex : bf.bytes[255 - t / 8] = bf.bytes[255 - b / 8] := by simp only [hbyte]
      rw [hindex]
      tauto
    next hbyte =>
      have hne : b ≠ t := by
        rintro rfl
        exact hbyte rfl
      simp [hne]
  · have hne : b ≠ t := by omega
    simp [hb, hne]

/-! ### Entries -/

section

variable [Ethash]

/-- The bits that an entry selects: three 11-bit values of its hash. -/
def entryBits (entry : Bytes) : Set Nat :=
  {b | ∃ i ∈ [0, 2, 4], b = bitToSet (Ethash.keccak256 entry) i}

/-- What a log adds to the filter: its address and its topics. -/
def entries (log : Log) : List Bytes := Address.bytes log.addr :: log.topics.map Bytes32.bytes

/-- An entry adds its bits. -/
theorem bits_addTo (bf : BloomFilter) (entry : Bytes) :
    (bf.addTo entry).bits = bf.bits ∪ entryBits entry := by
  have hlt := bitToSet_lt (Ethash.keccak256 entry)
  unfold addTo entryBits
  simp only [List.foldl_cons, List.foldl_nil]
  generalize bitToSet (Ethash.keccak256 entry) = t at hlt ⊢
  rw [bits_setBit _ (hlt 4), bits_setBit _ (hlt 2), bits_setBit _ (hlt 0)]
  generalize bf.bits = s
  ext b
  simp only [Set.mem_insert_iff, Set.mem_union, Set.mem_ofPred_eq, List.mem_cons, List.not_mem_nil,
    or_false, exists_eq_or_imp, exists_eq_left]
  tauto

/-- Adding entries one after the other adds the union of their bits. -/
theorem bits_foldl_addTo {α : Type} (f : α → Bytes) (xs : List α) (bf : BloomFilter) :
    (xs.foldl (fun bf x => bf.addTo (f x)) bf).bits = bf.bits ∪ ⋃ x ∈ xs, entryBits (f x) := by
  induction xs generalizing bf with
  | nil => simp
  | cons x xs ih =>
    rw [List.foldl_cons, ih, bits_addTo, Set.union_assoc]
    simp

/-- The bits of the logs are those of their entries. -/
theorem bits_ofLogs (logs : List Log) :
    (ofLogs logs).bits = ⋃ log ∈ logs, ⋃ entry ∈ entries log, entryBits entry := by
  have hfold : ∀ bf : BloomFilter, (logs.foldl (fun bf log =>
      log.topics.foldl (fun bf topic => bf.addTo (Bytes32.bytes topic))
        (bf.addTo (Address.bytes log.addr))) bf).bits
      = bf.bits ∪ ⋃ log ∈ logs, ⋃ entry ∈ entries log, entryBits entry := by
    induction logs with
    | nil => simp
    | cons log logs ih =>
      intro bf
      rw [List.foldl_cons, ih, bits_foldl_addTo, bits_addTo]
      simp [entries, Set.union_assoc]
  rw [ofLogs, hfold, bits_empty, Set.empty_union]

end

/-! ### Receipts -/

/-- The union of filters has the bits of both. -/
theorem bits_or (bf bf' : BloomFilter) : (bf.or bf').bits = bf.bits ∪ bf'.bits := by
  ext b
  simp only [bits, BloomFilter.or, Vector.getElem_zipWith, UInt8.toNat_or, Nat.testBit_or,
    Bool.or_eq_true, Set.mem_union, Set.mem_ofPred_eq]
  tauto

/-- The bits of a block are those of its receipts. -/
theorem bits_ofReceipts (receipts : List TransactionReceipt) :
    (ofReceipts receipts).bits = ⋃ r ∈ receipts, r.logsBloomFilter.bits := by
  have hfold : ∀ bf : BloomFilter, (receipts.foldl (fun bf r => bf.or r.logsBloomFilter) bf).bits
      = bf.bits ∪ ⋃ r ∈ receipts, r.logsBloomFilter.bits := by
    induction receipts with
    | nil => simp
    | cons r receipts ih =>
      intro bf
      rw [List.foldl_cons, ih, bits_or, Set.union_assoc]
      simp
  rw [ofReceipts, hfold, bits_empty, Set.empty_union]

/-- **Filters compose and miss nothing**: the filter of receipts that carry the filters of their
logs is the filter of all these logs, in whatever order and how often they are listed. The bits of
every address and topic are set in it, every bit that is set comes from one of them, and a bit is
kept in its own byte of the 256, at its own weight. -/
theorem block_bloom_is_of_logs [Ethash] {receipts : List TransactionReceipt} {logs : List Log}
    (hblooms : ∀ r ∈ receipts, r.logsBloomFilter = ofLogs r.logs)
    (hlogs : ∀ log, log ∈ logs ↔ ∃ r ∈ receipts, log ∈ r.logs) :
    ofReceipts receipts = ofLogs logs ∧
    (∀ log ∈ logs, ∀ entry ∈ entries log, ∀ i ∈ [0, 2, 4],
      bitToSet (Ethash.keccak256 entry) i ∈ (ofReceipts receipts).bits) ∧
    (∀ b ∈ (ofReceipts receipts).bits, ∃ log ∈ logs, ∃ entry ∈ entries log, ∃ i ∈ [0, 2, 4],
      b = bitToSet (Ethash.keccak256 entry) i) ∧
    (∀ entry i, bitToSet (Ethash.keccak256 entry) i < 2048) ∧
    ∀ (bf : BloomFilter) (t : Nat) (ht : t < 2048), (bf.setBit t).bytes =
      bf.bytes.set (255 - t / 8) (bf.bytes[255 - t / 8] ||| UInt8.ofNat (2 ^ (t % 8))) := by
  -- The bits of a union of filters are the union of their bits.
  have hsame : (ofReceipts receipts).bits = (ofLogs logs).bits := by
    rw [bits_ofReceipts, bits_ofLogs]
    ext b
    simp only [Set.mem_iUnion, hlogs]
    constructor
    · rintro ⟨r, hr, hb⟩
      rw [hblooms r hr, bits_ofLogs] at hb
      simp only [Set.mem_iUnion] at hb
      obtain ⟨log, hlog, entry⟩ := hb
      exact ⟨log, ⟨r, hr, hlog⟩, entry⟩
    · rintro ⟨log, ⟨r, hr, hlog⟩, entry⟩
      refine ⟨r, hr, ?_⟩
      rw [hblooms r hr, bits_ofLogs]
      simp only [Set.mem_iUnion]
      exact ⟨log, hlog, entry⟩
  have hmem : ∀ b, b ∈ (ofReceipts receipts).bits ↔ ∃ log ∈ logs, ∃ entry ∈ entries log,
      ∃ i ∈ [0, 2, 4], b = bitToSet (Ethash.keccak256 entry) i := by
    intro b
    rw [hsame, bits_ofLogs]
    simp only [Set.mem_iUnion, exists_prop]
    rfl
  refine ⟨bits_injective hsame, ?_, fun b hb => (hmem b).1 hb, fun entry i => bitToSet_lt _ _,
    fun bf t ht => setBit_bytes bf ht⟩
  intro log hlog entry hentry i hi
  exact (hmem _).2 ⟨log, hlog, entry, hentry, i, hi, rfl⟩

/-- A log of the account `0x10` with one topic. -/
def topicLog : Log := ⟨0x10, [], [0x01]⟩

/-- A log of the account `0x20`. -/
def plainLog : Log := ⟨0x20, [], []⟩

/-- Two receipts against their logs in another order, one of them twice. -/
theorem block_bloom_is_of_logs_two : ∃ _ : Ethash,
    ofReceipts [{ logs := [topicLog], logsBloomFilter := ofLogs [topicLog] },
      { logs := [plainLog], logsBloomFilter := ofLogs [plainLog] }]
      = ofLogs [plainLog, topicLog, plainLog] := by
  let ethash : Ethash := ⟨fun entry => BitVec.ofNat 256 (BigEndian.load entry)⟩
  refine ⟨ethash, (block_bloom_is_of_logs ?_ ?_).1⟩
  · simp
  · simp

end BloomFilter

end Zvmone
