import Zvmone.Library.BigEndian
import Mathlib.Data.Nat.Digits.Lemmas
import Mathlib.InformationTheory.Coding.UniquelyDecodable

/-! # Recursive length prefix codes

Byte strings (`RLP.string`) and lists of already encoded items (`RLP.list`) as self-delimiting byte
strings. A decoder that reads the length prefix gives back the payload and the rest
(`decode_string`, `decode_list`), so the code is uniquely decodable (`uniquelyDecodable`). -/

namespace RLP

open BigEndian InformationTheory

/-- The shortest big-endian representation of a number. -/
def bigEndian (n : Nat) : List UInt8 := ((Nat.digits 256 n).map UInt8.ofNat).reverse

/-- The length prefix of a payload of `len` bytes. -/
def header (base : UInt8) (len : Nat) : List UInt8 :=
  if len ≤ 55 then [base + UInt8.ofNat len]
  else (base + 55 + UInt8.ofNat (bigEndian len).length) :: bigEndian len

/-- The code of a byte string; a single byte below 128 is its own code. -/
def string : List UInt8 → List UInt8
  | [b] => if b < 128 then [b] else header 128 1 ++ [b]
  | bs => header 128 bs.length ++ bs

/-- The code of a list of encoded items. -/
def list (items : List (List UInt8)) : List UInt8 :=
  header 192 items.flatten.length ++ items.flatten

/-! ### Big-endian lengths -/

/-- The bytes of a number stand for it. -/
theorem load_bigEndian (n : Nat) : load (bigEndian n) = n := by
  have hdigits : ∀ ds : List Nat, (∀ d ∈ ds, d < 256) →
      load (ds.map UInt8.ofNat).reverse = Nat.ofDigits 256 ds := by
    intro ds hds
    induction ds with
    | nil => simp
    | cons d ds ih =>
      have hd : (UInt8.ofNat d).toNat = d := by
        rw [UInt8.toNat_ofNat']
        exact Nat.mod_eq_of_lt (hds d (by simp))
      rw [List.map_cons, List.reverse_cons, load_concat, ih fun x hx => hds x (by simp [hx]), hd,
        Nat.ofDigits_cons]
      ring
  rw [bigEndian, hdigits _ fun d hd => Nat.digits_lt_base (by decide) hd, Nat.ofDigits_digits]

/-- A number below `256 ^ k` takes at most `k` bytes. -/
theorem length_bigEndian_le {n k : Nat} (h : n < 256 ^ k) : (bigEndian n).length ≤ k := by
  rw [bigEndian, List.length_reverse, List.length_map]
  exact (Nat.digits_length_le_iff (by decide) n).mpr h

/-- A positive number has bytes. -/
theorem length_bigEndian_pos {n : Nat} (h : 0 < n) : 0 < (bigEndian n).length := by
  rw [bigEndian, List.length_reverse, List.length_map, List.length_pos_iff]
  exact Nat.digits_ne_nil_iff_ne_zero.mpr h.ne'

/-- Different numbers have different bytes. -/
theorem bigEndian_inj {m n : Nat} (h : bigEndian m = bigEndian n) : m = n := by
  rw [← load_bigEndian m, h, load_bigEndian]

/-- No byte string that represents the number is shorter. -/
theorem length_bigEndian_le_of_load {bs : List UInt8} {n : Nat} (h : load bs = n) :
    (bigEndian n).length ≤ bs.length :=
  length_bigEndian_le (h ▸ load_lt bs)

/-! ### Decoding -/

/-- What an encoded item at the front of a byte string says: whether it is a list, its payload and
the rest. -/
def decode : List UInt8 → Bool × List UInt8 × List UInt8
  | [] => (false, [], [])
  | b :: bs =>
    let n := b.toNat
    if n < 128 then (false, [b], bs)
    else if n ≤ 183 then (false, bs.splitAt (n - 128))
    else if n < 192 then (false, (bs.drop (n - 183)).splitAt (load (bs.take (n - 183))))
    else if n ≤ 247 then (true, bs.splitAt (n - 192))
    else (true, (bs.drop (n - 247)).splitAt (load (bs.take (n - 247))))

/-- The decoder reads both kinds of length prefix. -/
theorem decode_header (isList : Bool) {payload : List UInt8} (h : payload.length < 2 ^ 64)
    (rest : List UInt8) :
    decode (header (bif isList then 192 else 128) payload.length ++ payload ++ rest)
      = (isList, payload, rest) := by
  unfold header
  split
  next hshort =>
    -- A short length is added to the first byte.
    have hn : (bif isList then 192 else 128 : UInt8).toNat + payload.length < 256 := by
      cases isList <;> simp <;> omega
    have hb : ((bif isList then 192 else 128 : UInt8) + UInt8.ofNat payload.length).toNat
        = (bif isList then 192 else 128) + payload.length := by
      rw [UInt8.toNat_add, UInt8.toNat_ofNat']
      cases isList <;> simp at hn ⊢ <;> omega
    simp only [List.cons_append, List.nil_append, decode, hb]
    cases isList
    · simp [show ¬ 128 + payload.length < 128 by omega, show 128 + payload.length ≤ 183 by omega]
    · simp [show ¬ 192 + payload.length < 128 by omega,
        show ¬ 192 + payload.length ≤ 183 by omega,
        show ¬ 192 + payload.length < 192 by omega, show 192 + payload.length ≤ 247 by omega]
  next hlong =>
    -- A long length follows the first byte, to which the number of its own bytes is added.
    have hpos := length_bigEndian_pos (show 0 < payload.length by omega)
    have hle : (bigEndian payload.length).length ≤ 8 := length_bigEndian_le (by simpa using h)
    have hload := load_bigEndian payload.length
    generalize bigEndian payload.length = size at hpos hle hload ⊢
    have hb : ((bif isList then 192 else 128 : UInt8) + 55 + UInt8.ofNat size.length).toNat
        = (bif isList then 247 else 183) + size.length := by
      rw [UInt8.toNat_add, UInt8.toNat_ofNat']
      cases isList <;> simp <;> omega
    simp only [List.cons_append, decode, hb]
    cases isList
    · simp [show ¬ 183 + size.length < 128 by omega, show ¬ size.length = 0 by omega,
        show 183 + size.length < 192 by omega, hload]
    · simp [show ¬ 247 + size.length < 128 by omega, show ¬ 247 + size.length ≤ 183 by omega,
        show ¬ 247 + size.length < 192 by omega, show ¬ size.length = 0 by omega, hload]

/-- A string is read back, whatever follows it. -/
theorem decode_string {bs : List UInt8} (h : bs.length < 2 ^ 64) (rest : List UInt8) :
    decode (string bs ++ rest) = (false, bs, rest) := by
  have hheader : decode (header 128 bs.length ++ bs ++ rest) = (false, bs, rest) :=
    decode_header false h rest
  unfold string
  split
  next b =>
    split
    next hb =>
      have hn : b.toNat < 128 := hb
      simp [decode, hn]
    next => exact hheader
  next => exact hheader

/-- A list is read back as the concatenation of its items, whatever follows it. -/
theorem decode_list {items : List (List UInt8)} (h : items.flatten.length < 2 ^ 64)
    (rest : List UInt8) : decode (list items ++ rest) = (true, items.flatten, rest) :=
  decode_header true h rest

/-! ### Lengths -/

/-- A header has at least one byte. -/
theorem header_ne_nil (base : UInt8) (len : Nat) : header base len ≠ [] := by
  unfold header
  split <;> simp

/-- The header of a short payload has one byte. -/
theorem length_header_of_short {base : UInt8} {len : Nat} (h : len ≤ 55) :
    (header base len).length = 1 := by
  rw [header, if_pos h, List.length_singleton]

/-- A header has at most nine bytes, one for the form and eight for the length. -/
theorem length_header_le {len : Nat} (h : len < 2 ^ 64) (base : UInt8) :
    (header base len).length ≤ 9 := by
  have hle : (bigEndian len).length ≤ 8 := length_bigEndian_le (by simpa using h)
  unfold header
  split
  · rw [List.length_singleton]
    omega
  · rw [List.length_cons]
    omega

/-- The code of a list exceeds its items by at most nine bytes. -/
theorem length_list_le {items : List (List UInt8)} (h : items.flatten.length < 2 ^ 64) :
    (list items).length ≤ items.flatten.length + 9 := by
  have hheader := length_header_le h 192
  rw [list, List.length_append]
  omega

/-- The code of a string exceeds it by at most nine bytes. -/
theorem length_string_le_add {bs : List UInt8} (h : bs.length < 2 ^ 64) :
    (string bs).length ≤ bs.length + 9 := by
  have hheader := length_header_le h 128
  unfold string
  split
  · split
    · simp
    · rw [List.length_append, length_header_of_short (by decide)]
      omega
  · rw [List.length_append]
    omega

/-- A string is not longer than its code. -/
theorem length_le_length_string (bs : List UInt8) : bs.length ≤ (string bs).length := by
  unfold string
  split
  · split <;> simp
  · simp

/-- The code of a short string exceeds it by at most one byte. -/
theorem length_string_le {bs : List UInt8} (h : bs.length ≤ 55) :
    (string bs).length ≤ bs.length + 1 := by
  unfold string
  split
  · split
    · simp
    · rw [List.length_append, length_header_of_short (by decide)]
      omega
  · rw [List.length_append, length_header_of_short h]
    omega

/-- A byte string that is not a single byte has a length prefix. -/
theorem length_string_of_ne_one {bs : List UInt8} (h : bs.length ≤ 55) (hne : bs.length ≠ 1) :
    (string bs).length = bs.length + 1 := by
  unfold string
  split
  · exact absurd rfl hne
  · rw [List.length_append, length_header_of_short h]
    omega

/-- Among short strings, the code of a smaller one is not longer. -/
theorem length_string_mono {bs cs : List UInt8} (hcs : cs.length ≤ 55)
    (hlen : bs.length ≤ cs.length) (hload : load bs ≤ load cs) :
    (string bs).length ≤ (string cs).length := by
  have hle := length_string_le (hlen.trans hcs)
  rcases cs with _ | ⟨c, _ | ⟨d, cs⟩⟩
  · obtain rfl : bs = [] := List.eq_nil_of_length_eq_zero (by simpa using hlen)
    exact le_rfl
  · rcases bs with _ | ⟨b, _ | ⟨d, bs⟩⟩
    · exact length_le_length_string [c]
    · -- Two single bytes: the smaller one is its own code when the other one is.
      have hbc : b ≤ c := UInt8.le_iff_toNat_le.mpr (by simpa [load] using hload)
      have hsingle : ∀ x, (string [x]).length = if x < 128 then 1 else 2 := by
        intro x
        rw [string]
        split <;> rfl
      rw [hsingle, hsingle]
      by_cases hc : c < 128
      · rw [if_pos hc, if_pos (UInt8.lt_of_le_of_lt hbc hc)]
      · rw [if_neg hc]
        split <;> decide
    · simp at hlen
  · rw [length_string_of_ne_one hcs (by simp)]
    exact hle.trans (Nat.succ_le_succ hlen)

/-- The code of a larger number is not shorter. -/
theorem length_string_bigEndian_mono {m n : Nat} (h : m ≤ n) (hn : n < 2 ^ 64) :
    (string (bigEndian m)).length ≤ (string (bigEndian n)).length := by
  have hle : (bigEndian n).length ≤ 8 := length_bigEndian_le (by simpa using hn)
  refine length_string_mono (by omega) ?_ ?_
  · rw [bigEndian, bigEndian, List.length_reverse, List.length_reverse, List.length_map,
      List.length_map]
    exact Nat.le_length_digits_le 256 m n h
  · rwa [load_bigEndian, load_bigEndian]

/-- The code of a list is longer than its items. -/
theorem length_list_gt (items : List (List UInt8)) :
    items.flatten.length < (list items).length := by
  have hheader := List.length_pos_iff.mpr (header_ne_nil 192 items.flatten.length)
  rw [list, List.length_append]
  omega

/-- An item is not longer than the code of a list it is in. -/
theorem length_le_list {x : List UInt8} {items : List (List UInt8)} (h : x ∈ items) :
    x.length ≤ (list items).length :=
  (List.sublist_flatten_of_mem h).length_le.trans (length_list_gt items).le

/-! ### Unique decodability -/

/-- The encoded items whose length prefix has at most eight bytes. -/
inductive IsItem : List UInt8 → Prop
  | string {bs : List UInt8} (h : bs.length < 2 ^ 64) : IsItem (string bs)
  | list {items : List (List UInt8)} (h : items.flatten.length < 2 ^ 64) : IsItem (list items)

/-- An item has bytes. -/
theorem IsItem.ne_nil {x : List UInt8} (hx : IsItem x) : x ≠ [] := by
  cases hx with
  | string =>
    unfold RLP.string
    split
    · split <;> simp
    · simp [header_ne_nil]
  | list => simp [RLP.list, header_ne_nil]

/-- No item is a proper prefix of another one. -/
theorem IsItem.append_inj {x y s t : List UInt8} (hx : IsItem x) (hy : IsItem y)
    (h : x ++ s = y ++ t) : x = y ∧ s = t := by
  have hdecode := congrArg decode h
  rcases hx with @⟨bs, hbs⟩ | @⟨items, hitems⟩ <;> rcases hy with @⟨cs, hcs⟩ | @⟨items', hitems'⟩
  · rw [decode_string hbs, decode_string hcs] at hdecode
    obtain ⟨rfl, rfl⟩ : bs = cs ∧ s = t := by simpa using hdecode
    exact ⟨rfl, rfl⟩
  · simp [decode_string hbs, decode_list hitems'] at hdecode
  · simp [decode_string hcs, decode_list hitems] at hdecode
  · rw [decode_list hitems, decode_list hitems'] at hdecode
    obtain ⟨hflatten, rfl⟩ : items.flatten = items'.flatten ∧ s = t := by simpa using hdecode
    exact ⟨by rw [RLP.list, RLP.list, hflatten], rfl⟩

/-- An item that begins another one is that item: the codes are prefix-free. -/
theorem IsItem.eq_of_startsWith {x y : List UInt8} (hx : IsItem x) (hy : IsItem y) (h : x <+: y) :
    x = y := by
  obtain ⟨rest, hrest⟩ := h
  exact (hx.append_inj hy (hrest.trans (List.append_nil y).symm)).1

/-- Sequences of items are determined by their concatenation. -/
theorem uniquelyDecodable : UniquelyDecodable {x | IsItem x} := by
  intro xs
  induction xs with
  | nil =>
    intro ys _ hys h
    cases ys with
    | nil => rfl
    | cons y ys =>
      have hy : y = [] := by
        simpa using (List.append_eq_nil_iff.mp h.symm).1
      exact absurd hy (hys y (by simp)).ne_nil
  | cons x xs ih =>
    intro ys hxs hys h
    cases ys with
    | nil =>
      have hx : x = [] := (List.append_eq_nil_iff.mp h).1
      exact absurd hx (hxs x (by simp)).ne_nil
    | cons y ys =>
      obtain ⟨rfl, hrest⟩ := (hxs x (by simp)).append_inj (hys y (by simp)) h
      rw [ih ys (fun w hw => hxs w (by simp [hw])) (fun w hw => hys w (by simp [hw])) hrest]

/-- Strings with the same code are equal. -/
theorem string_inj {bs cs : List UInt8} (hbs : bs.length < 2 ^ 64) (hcs : cs.length < 2 ^ 64)
    (h : string bs = string cs) : bs = cs := by
  have hdecode := congrArg (fun x => (decode (x ++ [])).2.1) h
  simpa only [decode_string hbs, decode_string hcs] using hdecode

/-- A list of items is determined by its code. -/
theorem list_inj {xs ys : List (List UInt8)} (hxs : ∀ x ∈ xs, IsItem x) (hys : ∀ y ∈ ys, IsItem y)
    (hxlen : xs.flatten.length < 2 ^ 64) (hylen : ys.flatten.length < 2 ^ 64)
    (h : list xs = list ys) : xs = ys := by
  have hdecode := congrArg (fun x => (decode (x ++ [])).2.1) h
  simp only [decode_list hxlen, decode_list hylen] at hdecode
  exact uniquelyDecodable xs ys hxs hys hdecode

/-- A string and a list never have the same code. -/
theorem string_ne_list {bs : List UInt8} {items : List (List UInt8)} (hbs : bs.length < 2 ^ 64)
    (hitems : items.flatten.length < 2 ^ 64) : string bs ≠ list items := by
  intro h
  have hdecode := congrArg (fun x => (decode (x ++ [])).1) h
  simp only [decode_string hbs, decode_list hitems] at hdecode
  cases hdecode

/-! ### Nested items -/

/-- A byte string, or a list of items. -/
inductive Item
  | bytes (bs : List UInt8)
  | list (items : List Item)

/-- The code of an item. -/
def Item.code : Item → List UInt8
  | .bytes bs => RLP.string bs
  | .list items => RLP.list (items.map Item.code)

/-- All payloads in the item, its own and those of the items in it, have at most `n` bytes. -/
inductive Item.Within (n : Nat) : Item → Prop
  | bytes {bs : List UInt8} (h : bs.length ≤ n) : Item.Within n (.bytes bs)
  | list {items : List Item} (h : (items.map Item.code).flatten.length ≤ n)
      (hitems : ∀ i ∈ items, Item.Within n i) : Item.Within n (.list items)

/-- The code of a byte string. -/
theorem Item.code_bytes (bs : List UInt8) : Item.code (.bytes bs) = RLP.string bs := by
  rw [Item.code]

/-- The code of a list of items. -/
theorem Item.code_list (items : List Item) :
    Item.code (.list items) = RLP.list (items.map Item.code) := by
  rw [Item.code]

/-- The code of an item within the limit is an item. -/
theorem Item.Within.isItem {n : Nat} (hn : n < 2 ^ 64) {i : Item} (h : i.Within n) :
    IsItem i.code := by
  cases h with
  | bytes hlen =>
    rw [Item.code_bytes]
    exact .string (lt_of_le_of_lt hlen hn)
  | list hlen _ =>
    rw [Item.code_list]
    exact .list (lt_of_le_of_lt hlen hn)

/-- An item is determined by its code. -/
theorem Item.code_inj {n : Nat} (hn : n < 2 ^ 64) {i j : Item} (hi : i.Within n) (hj : j.Within n)
    (h : i.code = j.code) : i = j := by
  induction hi generalizing j with
  | bytes hlen =>
    cases hj with
    | bytes hlen' =>
      rw [Item.code_bytes, Item.code_bytes] at h
      rw [string_inj (lt_of_le_of_lt hlen hn) (lt_of_le_of_lt hlen' hn) h]
    | list hlen' _ =>
      rw [Item.code_bytes, Item.code_list] at h
      exact absurd h (string_ne_list (lt_of_le_of_lt hlen hn) (lt_of_le_of_lt hlen' hn))
  | @list items hlen hitems ih =>
    cases hj with
    | bytes hlen' =>
      rw [Item.code_bytes, Item.code_list] at h
      exact absurd h.symm (string_ne_list (lt_of_le_of_lt hlen' hn) (lt_of_le_of_lt hlen hn))
    | @list items' hlen' hitems' =>
      rw [Item.code_list, Item.code_list] at h
      have hcodes : ∀ {ks : List Item}, (∀ k ∈ ks, k.Within n) →
          ∀ x ∈ ks.map Item.code, IsItem x := by
        intro ks hks x hx
        obtain ⟨k, hk, rfl⟩ := List.mem_map.mp hx
        exact (hks k hk).isItem hn
      have hmap := list_inj (hcodes hitems) (hcodes hitems') (lt_of_le_of_lt hlen hn)
        (lt_of_le_of_lt hlen' hn) h
      -- Lists of items with the same codes are equal, one item after the other.
      have hall : ∀ ks ks' : List Item, (∀ k ∈ ks, k ∈ items) → (∀ k ∈ ks', k.Within n) →
          ks.map Item.code = ks'.map Item.code → ks = ks' := by
        intro ks
        induction ks with
        | nil =>
          intro ks' _ _ heq
          exact (List.map_eq_nil_iff.mp heq.symm).symm
        | cons k ks ihks =>
          intro ks' hks hks' heq
          cases ks' with
          | nil => cases heq
          | cons k' ks' =>
            obtain ⟨hhead, htail⟩ := List.cons.inj heq
            rw [ih k (hks k (by simp)) (hks' k' (by simp)) hhead,
              ihks ks' (fun l hl => hks l (by simp [hl])) (fun l hl => hks' l (by simp [hl])) htail]
      rw [hall items items' (fun _ hk => hk) hitems' hmap]

/-- The code of items is prefix-free. -/
theorem Item.code_append_inj {n : Nat} (hn : n < 2 ^ 64) {i j : Item} (hi : i.Within n)
    (hj : j.Within n) {s t : List UInt8} (h : i.code ++ s = j.code ++ t) : i = j ∧ s = t := by
  obtain ⟨hcode, hrest⟩ := (hi.isItem hn).append_inj (hj.isItem hn) h
  exact ⟨Item.code_inj hn hi hj hcode, hrest⟩

end RLP
