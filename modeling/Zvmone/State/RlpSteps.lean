import Zvmone.Library.RecursiveLength
import Zvmone.State.Rlp

/-! # The RLP encoders are recursive length prefix codes

Within the limit of `encode_length` the encoders of `rlp.hpp` give the codes of the general theory,
and beyond it they fail. -/

namespace Zvmone

/-- Different words have different bytes. -/
theorem Bytes32.bytes_injective : Function.Injective Bytes32.bytes := by
  intro x y h
  apply BitVec.eq_of_toNat_eq
  have hlt : ∀ z : Bytes32, z.toNat < 256 ^ 32 := fun z => by
    have := z.isLt
    omega
  exact BigEndian.store_inj (hlt x) (hlt y) h

/-- Different addresses have different bytes. -/
theorem Address.bytes_injective : Function.Injective Address.bytes := by
  intro x y h
  apply BitVec.eq_of_toNat_eq
  have hlt : ∀ z : Address, z.toNat < 256 ^ 20 := fun z => by
    have := z.isLt
    omega
  exact BigEndian.store_inj (hlt x) (hlt y) h

namespace Rlp

/-- The limit of `encode_length`. -/
def maxLength : Nat := 0xffffff

/-- The last byte of a number. -/
theorem bigEndian_succ {l : Nat} (h : 0 < l) :
    RLP.bigEndian l = RLP.bigEndian (l / 256) ++ [UInt8.ofNat l] := by
  have hbyte : UInt8.ofNat (l % 256) = UInt8.ofNat l := by
    apply UInt8.toNat_inj.mp
    rw [UInt8.toNat_ofNat', UInt8.toNat_ofNat']
    omega
  rw [RLP.bigEndian, Nat.digits_def' (by decide) h, List.map_cons, List.reverse_cons, hbyte]
  rfl

/-- The prefix of a payload is its header. -/
theorem encodeLength_eq {base : UInt8} {l : Nat} (h : l ≤ maxLength) :
    encodeLength base (base + 55) l = some (RLP.header base l) := by
  have hzero : RLP.bigEndian 0 = [] := by simp [RLP.bigEndian]
  unfold maxLength at h
  unfold encodeLength RLP.header
  rw [if_neg (by omega)]
  dsimp only
  -- Up to 55 the length is in the first byte, else it follows in one, two or three bytes.
  split
  next hshort => rfl
  next hshort =>
    rw [bigEndian_succ (show 0 < l by omega)]
    split
    next hl =>
      rw [Nat.div_eq_of_lt (show l < 256 by omega), hzero]
      rfl
    next hl =>
      rw [bigEndian_succ (show 0 < l / 256 by omega)]
      split
      next hl' =>
        rw [Nat.div_eq_of_lt (show l / 256 < 256 by omega), hzero, Nat.shiftRight_eq_div_pow]
        rfl
      next hl' =>
        rw [bigEndian_succ (show 0 < l / 256 / 256 by omega),
          Nat.div_eq_of_lt (show l / 256 / 256 < 256 by omega), hzero,
          Nat.shiftRight_eq_div_pow, Nat.shiftRight_eq_div_pow,
          show l / 2 ^ 16 = l / 256 / 256 by omega]
        rfl

/-- The prefix of a payload that is too long throws. -/
theorem encodeLength_eq_none {shortBase longBase : UInt8} {l : Nat} (h : maxLength < l) :
    encodeLength shortBase longBase l = none := if_pos h

/-- A byte string is encoded as a string. -/
theorem encode_eq {data : Bytes} (h : data.length ≤ maxLength) :
    encode data = some (RLP.string data) := by
  have hlen : encodeLength 128 183 data.length = some (RLP.header 128 data.length) :=
    encodeLength_eq h
  rcases data with _ | ⟨b, _ | ⟨c, data⟩⟩
  · change (encodeLength 128 183 0).map (· ++ []) = some (RLP.header 128 0 ++ [])
    rw [show encodeLength 128 183 0 = some (RLP.header 128 0) from hlen]
    rfl
  · change (if b < 128 then some [b] else (encodeLength 128 183 1).map (· ++ [b]))
      = some (if b < 128 then [b] else RLP.header 128 1 ++ [b])
    rw [show encodeLength 128 183 1 = some (RLP.header 128 1) from hlen]
    split <;> rfl
  · change (encodeLength 128 183 (b :: c :: data).length).map (· ++ b :: c :: data)
      = some (RLP.header 128 (b :: c :: data).length ++ b :: c :: data)
    rw [hlen]
    rfl

/-- Encoding a byte string that is too long throws. -/
theorem encode_eq_none {data : Bytes} (h : maxLength < data.length) : encode data = none := by
  unfold encode
  split
  next => simp [maxLength] at h
  next => rw [encodeLength_eq_none h]; rfl

/-- A list of present values is present. -/
theorem mapM_some {α : Type} (xs : List α) : (xs.map some).mapM id = some xs := by
  induction xs with
  | nil => rfl
  | cons x xs ih => simp [ih]

/-- A tuple of encoded elements. -/
theorem encodeTuple_eq {es : List Bytes} (h : es.flatten.length ≤ maxLength) :
    encodeTuple (es.map some) = some (RLP.list es) := by
  have hlen : encodeLength 192 247 es.flatten.length = some (RLP.header 192 es.flatten.length) :=
    encodeLength_eq h
  rw [encodeTuple, mapM_some, Option.bind_eq_bind, Option.bind_some, wrapList, hlen]
  rfl

/-- Encoding a list that is too long throws. -/
theorem encodeTuple_eq_none {es : List Bytes} (h : maxLength < es.flatten.length) :
    encodeTuple (es.map some) = none := by
  rw [encodeTuple, mapM_some, Option.bind_eq_bind, Option.bind_some, wrapList,
    encodeLength_eq_none h]
  rfl

/-- `trim` of a big-endian number is its shortest representation. -/
theorem trim_eq (bs : Bytes) : trim bs = RLP.bigEndian (BigEndian.load bs) := by
  have hzero : RLP.bigEndian 0 = [] := by simp [RLP.bigEndian]
  induction bs using List.reverseRecOn with
  | nil => exact hzero.symm
  | append_singleton bs b ih =>
    have hb := b.toNat_lt
    unfold trim at ih ⊢
    rw [List.dropWhile_append, BigEndian.load_concat, ih]
    by_cases hload : BigEndian.load bs * 256 + b.toNat = 0
    · -- All bytes are zero.
      have hb0 : b = 0 := UInt8.toNat_inj.mp (by rw [UInt8.toNat_zero]; omega)
      have hbs : BigEndian.load bs = 0 := by omega
      rw [hload, hbs, hzero, hb0]
      rfl
    · have hbyte : UInt8.ofNat (BigEndian.load bs * 256 + b.toNat) = b := by
        apply UInt8.toNat_inj.mp
        rw [UInt8.toNat_ofNat']
        omega
      have hdiv : (BigEndian.load bs * 256 + b.toNat) / 256 = BigEndian.load bs := by omega
      have hbig : RLP.bigEndian (BigEndian.load bs * 256 + b.toNat)
          = RLP.bigEndian (BigEndian.load bs) ++ [b] := by
        rw [bigEndian_succ (Nat.pos_of_ne_zero hload), hdiv, hbyte]
      rw [hbig]
      by_cases hbs : BigEndian.load bs = 0
      · have hne : b ≠ 0 := by
          rintro rfl
          exact hload (by rw [hbs]; rfl)
        rw [hbs, hzero]
        simp [hne]
      · have hpos := RLP.length_bigEndian_pos (Nat.pos_of_ne_zero hbs)
        rw [if_neg (by simpa using List.length_pos_iff.mp hpos)]

/-- A number of 64 bits is encoded as the string of its bytes. -/
theorem encodeUInt64_eq (x : BitVec 64) :
    encodeUInt64 x = some (RLP.string (RLP.bigEndian x.toNat)) := by
  have hlt : x.toNat < 256 ^ 8 := by
    have := x.isLt
    omega
  have hlen : (RLP.bigEndian x.toNat).length ≤ 8 := RLP.length_bigEndian_le hlt
  rw [encodeUInt64, trim_eq, BigEndian.load_store_of_lt hlt,
    encode_eq (by rw [maxLength]; omega)]

/-- A word is encoded as the string of its bytes. -/
theorem encodeWord_eq (x : Word) : encodeWord x = some (RLP.string (RLP.bigEndian x.toNat)) := by
  have hlt : x.toNat < 256 ^ 32 := by
    have := x.isLt
    omega
  have hlen : (RLP.bigEndian x.toNat).length ≤ 32 := RLP.length_bigEndian_le hlt
  rw [encodeWord, trim_eq, BigEndian.load_store_of_lt hlt,
    encode_eq (by rw [maxLength]; omega)]

/-- Encoding succeeds exactly within the limit. -/
theorem encode_eq_some_iff {data r : Bytes} :
    encode data = some r ↔ data.length ≤ maxLength ∧ r = RLP.string data := by
  by_cases h : data.length ≤ maxLength
  · rw [encode_eq h, Option.some.injEq]
    exact ⟨fun hr => ⟨h, hr.symm⟩, fun hr => hr.2.symm⟩
  · rw [encode_eq_none (by omega)]
    exact ⟨fun hr => (by cases hr), fun hr => absurd hr.1 h⟩

/-- All elements are present exactly if the list is. -/
theorem mapM_eq_some_iff {α : Type} {xs : List (Option α)} {ys : List α} :
    xs.mapM id = some ys ↔ xs = ys.map some := by
  refine ⟨fun h => ?_, fun h => by rw [h, mapM_some]⟩
  induction xs generalizing ys with
  | nil =>
    cases h
    rfl
  | cons x xs ih =>
    cases x with
    | none => cases h
    | some x =>
      rcases htail : xs.mapM id with _ | tail
      · simp [htail] at h
      · obtain rfl : x :: tail = ys := by simpa [htail] using h
        rw [List.map_cons, ih htail]

/-- A tuple is encoded exactly when its elements are and their codes are within the limit. -/
theorem encodeTuple_eq_some_iff {xs : List (Option Bytes)} {r : Bytes} :
    encodeTuple xs = some r ↔
      ∃ es, xs = es.map some ∧ es.flatten.length ≤ maxLength ∧ r = RLP.list es := by
  constructor
  · intro h
    rcases hes : xs.mapM id with _ | es
    · rw [encodeTuple, hes] at h
      cases h
    · have hxs := mapM_eq_some_iff.mp hes
      refine ⟨es, hxs, ?_⟩
      rw [hxs] at h
      by_cases hlen : es.flatten.length ≤ maxLength
      · rw [encodeTuple_eq hlen, Option.some.injEq] at h
        exact ⟨hlen, h.symm⟩
      · rw [encodeTuple_eq_none (by omega)] at h
        cases h
  · rintro ⟨es, rfl, hlen, rfl⟩
    exact encodeTuple_eq hlen

end Rlp

end Zvmone
