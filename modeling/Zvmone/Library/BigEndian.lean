import Mathlib.Algebra.Order.Ring.Nat
import Mathlib.Data.List.Induction
import Mathlib.Data.Nat.Size
import Mathlib.Tactic.Common
import Mathlib.Tactic.Ring

/-! # Big-endian byte strings

Natural numbers as byte strings with the most significant byte first: `store n x` writes `x` modulo
`256 ^ n` in exactly `n` bytes, `load` reads a byte string back. -/

namespace BigEndian

/-- The `n` bytes of `x` modulo `256 ^ n`, most significant byte first. -/
def store : Nat → Nat → List UInt8
  | 0, _ => []
  | n + 1, x => store n (x / 256) ++ [UInt8.ofNat x]

/-- The number a byte string denotes. -/
def load (bs : List UInt8) : Nat := bs.foldl (fun acc b => acc * 256 + b.toNat) 0

/-- A number is stored in as many bytes as are asked for. -/
@[simp] theorem length_store (n x : Nat) : (store n x).length = n := by
  induction n generalizing x with
  | zero => rfl
  | succ n ih => simp [store, ih]

/-- No bytes stand for 0. -/
@[simp] theorem load_nil : load [] = 0 := rfl

/-- A byte at the end is the last digit. -/
@[simp] theorem load_concat (bs : List UInt8) (b : UInt8) :
    load (bs ++ [b]) = load bs * 256 + b.toNat := by
  simp [load]

/-- Reading a concatenation: the left part counts in units of the right part. -/
theorem load_append (bs cs : List UInt8) :
    load (bs ++ cs) = load bs * 256 ^ cs.length + load cs := by
  induction cs using List.reverseRecOn with
  | nil => simp
  | append_singleton cs c ih =>
    rw [← List.append_assoc, load_concat, load_concat, ih, List.length_append, List.length_singleton]
    ring

/-- The bytes of a number bound it. -/
theorem load_lt (bs : List UInt8) : load bs < 256 ^ bs.length := by
  induction bs using List.reverseRecOn with
  | nil => simp
  | append_singleton bs b ih =>
    rw [load_concat, List.length_append, List.length_singleton, pow_succ]
    have := b.toNat_lt
    omega

/-- Reading back what was stored. -/
@[simp] theorem load_store (n x : Nat) : load (store n x) = x % 256 ^ n := by
  induction n generalizing x with
  | zero => simp [store, Nat.mod_one]
  | succ n ih =>
    have hb : (UInt8.ofNat x).toNat = x % 256 := by simp [UInt8.toNat_ofNat']
    rw [store, load_concat, ih, hb, pow_succ, Nat.mul_comm (256 ^ n) 256, Nat.mod_mul]
    ring

/-- A number that fits is loaded again. -/
theorem load_store_of_lt {n x : Nat} (h : x < 256 ^ n) : load (store n x) = x := by
  rw [load_store, Nat.mod_eq_of_lt h]

/-- Storing back what was read. -/
theorem store_load (bs : List UInt8) : store bs.length (load bs) = bs := by
  induction bs using List.reverseRecOn with
  | nil => rfl
  | append_singleton bs b ih =>
    have hb := b.toNat_lt
    have hdiv : (load bs * 256 + b.toNat) / 256 = load bs := by omega
    have hbyte : UInt8.ofNat (load bs * 256 + b.toNat) = b := by
      apply UInt8.toNat_inj.mp
      rw [UInt8.toNat_ofNat']
      omega
    rw [List.length_append, List.length_singleton, store, load_concat, hdiv, ih, hbyte]

/-- Numbers below `256 ^ n` are determined by their `n` bytes. -/
theorem store_inj {n x y : Nat} (hx : x < 256 ^ n) (hy : y < 256 ^ n)
    (h : store n x = store n y) : x = y := by
  rw [← load_store_of_lt hx, h, load_store_of_lt hy]

/-- Byte strings of one length are determined by the number they denote. -/
theorem load_inj {bs cs : List UInt8} (hlen : bs.length = cs.length) (h : load bs = load cs) :
    bs = cs := by
  rw [← store_load bs, ← store_load cs, hlen, h]

/-- Leading zero bytes do not change the number. -/
@[simp] theorem load_replicate_zero_append (n : Nat) (bs : List UInt8) :
    load (List.replicate n 0 ++ bs) = load bs := by
  induction n with
  | zero => simp
  | succ n ih =>
    rw [List.replicate_succ, List.cons_append, ← ih]
    simp [load]

/-! ### Bit lengths -/

/-- A byte in front is the first digit. -/
theorem load_cons (b : UInt8) (bs : List UInt8) :
    load (b :: bs) = b.toNat * 256 ^ bs.length + load bs := by
  rw [← List.singleton_append, load_append]
  simp [load]

/-- Zero bytes stand for 0. -/
@[simp] theorem load_replicate_zero (n : Nat) : load (List.replicate n 0) = 0 := by
  simpa using load_replicate_zero_append n []

/-- Trailing zero bytes scale the number. -/
theorem load_append_replicate_zero (bs : List UInt8) (n : Nat) :
    load (bs ++ List.replicate n 0) = load bs * 256 ^ n := by
  rw [load_append, load_replicate_zero, List.length_replicate, Nat.add_zero]

/-- The bit length of a byte string that does not start with a zero byte. -/
theorem size_load_cons {b : UInt8} (hb : b ≠ 0) (bs : List UInt8) :
    Nat.size (load (b :: bs)) = bs.length * 8 + Nat.size b.toNat := by
  have hpos : 0 < b.toNat := Nat.pos_of_ne_zero fun h => hb (UInt8.toNat_inj.1 h)
  have hlt := load_lt bs
  have hpow : (256 : Nat) ^ bs.length = 2 ^ (bs.length * 8) := by
    rw [Nat.mul_comm, Nat.pow_mul]
  rw [hpow] at hlt
  rw [load_cons, hpow]
  apply Nat.le_antisymm
  · have hup : b.toNat + 1 ≤ 2 ^ Nat.size b.toNat := Nat.lt_size_self _
    rw [Nat.size_le, Nat.pow_add]
    calc b.toNat * 2 ^ (bs.length * 8) + load bs
        < (b.toNat + 1) * 2 ^ (bs.length * 8) := by rw [Nat.add_mul]; omega
      _ ≤ 2 ^ Nat.size b.toNat * 2 ^ (bs.length * 8) := Nat.mul_le_mul_right _ hup
      _ = 2 ^ (bs.length * 8) * 2 ^ Nat.size b.toNat := Nat.mul_comm ..
  · have hlow : 2 ^ (Nat.size b.toNat - 1) ≤ b.toNat :=
      Nat.lt_size.1 (Nat.sub_lt (Nat.size_pos.2 hpos) Nat.one_pos)
    have hsize : bs.length * 8 + (Nat.size b.toNat - 1) < Nat.size
        (b.toNat * 2 ^ (bs.length * 8) + load bs) := by
      rw [Nat.lt_size, Nat.pow_add, Nat.mul_comm]
      exact (Nat.mul_le_mul_right _ hlow).trans (Nat.le_add_right ..)
    omega

end BigEndian
