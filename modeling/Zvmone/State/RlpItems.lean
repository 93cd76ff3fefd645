import Zvmone.State.Block
import Zvmone.State.RlpSteps

/-! # Encoded items, transactions and logs

The encoders composed along an item (`Rlp.encodeItem`) give the code of the general theory for
every item whose payloads are within the limit. So what is encoded can be read back: the items
(`Rlp.encodeItem_append_inj`), the numbers, and the fields of transactions and logs. -/

namespace Zvmone

open RLP (Item)

namespace Rlp

/-- The encoders `encode(bytes_view)` and `encode_tuple`, called along an item. -/
def encodeItem : Item → Option Bytes
  | .bytes data => encode data
  | .list items => encodeTuple (items.map encodeItem)

/-- `encode` of an access list entry, a pair of an address and its storage keys. -/
def encodeAccess (entry : Address × List Bytes32) : Option Bytes :=
  encodeTuple [encode (Address.bytes entry.1),
    encodeContainer (fun key => encode (Bytes32.bytes key)) entry.2]

end Rlp

open Rlp

/-- `rlp_encode` of a log. -/
def Log.rlpEncode (log : Log) : Option Bytes :=
  encodeTuple [encode (Address.bytes log.addr),
    encodeContainer (fun topic => encode (Bytes32.bytes topic)) log.topics, encode log.data]

/-- `rlp_encode` of a transaction: the type byte and the encoded fields. -/
def Transaction.rlpEncode (tx : Transaction) : Option Bytes :=
  (encodeTuple [encodeUInt64 tx.chainId, encodeUInt64 tx.nonce, encodeWord tx.maxPriorityGasPrice,
    encodeWord tx.maxGasPrice, encodeUInt64 (BitVec.ofInt 64 tx.gasLimit),
    encode (tx.to_.elim [] Address.bytes), encodeWord tx.value, encode tx.data,
    encodeContainer encodeAccess tx.accessList, encode tx.publicKey,
    encode tx.signature]).map ([0x02] ++ ·)

namespace Rlp

/-! ### Items -/

/-- The code of a byte string. -/
theorem encodeItem_bytes (data : Bytes) : encodeItem (.bytes data) = encode data := by
  rw [encodeItem]

/-- The code of a list. -/
theorem encodeItem_list (items : List Item) :
    encodeItem (.list items) = encodeTuple (items.map encodeItem) := by
  rw [encodeItem]

/-- Items are encoded exactly when all payloads in them are within the limit. -/
theorem encodeItem_eq_some_iff {i : Item} {r : Bytes} :
    encodeItem i = some r ↔ i.Within maxLength ∧ r = i.code := by
  constructor
  · intro h
    -- The induction is on the size of the item, as items nest in lists.
    induction hn : sizeOf i using Nat.strong_induction_on generalizing i r with
    | _ n ih =>
      cases i with
      | bytes data =>
        rw [encodeItem_bytes, encode_eq_some_iff] at h
        exact ⟨.bytes h.1, by rw [h.2, Item.code_bytes]⟩
      | list items =>
        rw [encodeItem_list, encodeTuple_eq_some_iff] at h
        obtain ⟨es, hes, hlen, rfl⟩ := h
        have hitem : ∀ j ∈ items, ∃ e, encodeItem j = some e := by
          intro j hj
          have hmem : encodeItem j ∈ es.map some := hes ▸ List.mem_map_of_mem hj
          obtain ⟨e, _, he⟩ := List.mem_map.mp hmem
          exact ⟨e, he.symm⟩
        have hcode : ∀ j ∈ items, j.Within maxLength ∧ encodeItem j = some j.code := by
          intro j hj
          obtain ⟨e, he⟩ := hitem j hj
          have hsize : sizeOf j < n := by
            have := List.sizeOf_lt_of_mem hj
            simp only [Item.list.sizeOf_spec] at hn
            omega
          obtain ⟨hwithin, rfl⟩ := ih _ hsize he rfl
          exact ⟨hwithin, he⟩
        have hmap : items.map encodeItem = (items.map Item.code).map some := by
          rw [List.map_map]
          exact List.map_congr_left fun j hj => (hcode j hj).2
        have heq : es = items.map Item.code := by
          rw [hmap] at hes
          exact (List.map_injective_iff.mpr (Option.some_injective _) hes).symm
        exact ⟨.list (heq ▸ hlen) fun j hj => (hcode j hj).1, by rw [heq, Item.code_list]⟩
  · rintro ⟨h, rfl⟩
    induction h with
    | bytes h => rw [encodeItem_bytes, Item.code_bytes, encode_eq h]
    | @list items h _ ih =>
      have hmap : items.map encodeItem = (items.map Item.code).map some := by
        rw [List.map_map]
        exact List.map_congr_left fun j hj => ih j hj
      rw [encodeItem_list, Item.code_list, hmap, encodeTuple_eq h]

/-- Every length the encoder admits has 64 bits. -/
theorem maxLength_lt : maxLength < 2 ^ 64 := by decide

/-- Encodings of items are prefix-free. -/
theorem encodeItem_append_inj {i j : Item} {a b s t : Bytes} (ha : encodeItem i = some a)
    (hb : encodeItem j = some b) (h : a ++ s = b ++ t) : i = j ∧ s = t := by
  obtain ⟨hi, rfl⟩ := encodeItem_eq_some_iff.mp ha
  obtain ⟨hj, rfl⟩ := encodeItem_eq_some_iff.mp hb
  exact Item.code_append_inj maxLength_lt hi hj h

/-- Items with the same code are equal. -/
theorem encodeItem_inj {i j : Item} {r : Bytes} (hi : encodeItem i = some r)
    (hj : encodeItem j = some r) : i = j :=
  (encodeItem_append_inj (s := []) (t := []) hi hj rfl).1

/-! ### Numbers -/

/-- The item of a number. -/
def numberItem (n : Nat) : Item := .bytes (RLP.bigEndian n)

/-- Different numbers have different items. -/
theorem numberItem_inj {m n : Nat} (h : numberItem m = numberItem n) : m = n :=
  RLP.bigEndian_inj (Item.bytes.inj h)

/-- The encoder of `uint64_t` writes the item of the number. -/
theorem encodeUInt64_eq_encodeItem (x : BitVec 64) :
    encodeUInt64 x = encodeItem (numberItem x.toNat) := by
  have hlt : x.toNat < 256 ^ 8 := by
    have := x.isLt
    omega
  rw [encodeUInt64, trim_eq, BigEndian.load_store_of_lt hlt, numberItem, encodeItem_bytes]

/-- The encoder of words writes the item of the number. -/
theorem encodeWord_eq_encodeItem (x : Word) : encodeWord x = encodeItem (numberItem x.toNat) := by
  have hlt : x.toNat < 256 ^ 32 := by
    have := x.isLt
    omega
  rw [encodeWord, trim_eq, BigEndian.load_store_of_lt hlt, numberItem, encodeItem_bytes]

/-! ### Transactions and logs -/

/-- The item of a 256-bit hash. -/
def hashItem (x : Bytes32) : Item := .bytes (Bytes32.bytes x)

/-- The item of an address. -/
def addressItem (a : Address) : Item := .bytes (Address.bytes a)

/-- The item of an access list entry. -/
def accessItem (entry : Address × List Bytes32) : Item :=
  .list [addressItem entry.1, .list (entry.2.map hashItem)]

/-- Different hashes have different items. -/
theorem hashItem_injective : Function.Injective hashItem :=
  fun _ _ h => Bytes32.bytes_injective (Item.bytes.inj h)

/-- Different addresses have different items. -/
theorem addressItem_injective : Function.Injective addressItem :=
  fun _ _ h => Address.bytes_injective (Item.bytes.inj h)

/-- Different entries of an access list have different items. -/
theorem accessItem_injective : Function.Injective accessItem := by
  rintro ⟨a, keys⟩ ⟨a', keys'⟩ h
  obtain ⟨haddr, hkeys⟩ : addressItem a = addressItem a' ∧
      keys.map hashItem = keys'.map hashItem := by simpa [accessItem] using h
  rw [addressItem_injective haddr, hashItem_injective.list_map hkeys]

/-- A container is encoded as the list of the items of its elements. -/
theorem encodeContainer_eq {α : Type} {enc : α → Option Bytes} {item : α → Item}
    (h : ∀ x, enc x = encodeItem (item x)) (xs : List α) :
    encodeContainer enc xs = encodeItem (.list (xs.map item)) := by
  rw [encodeContainer, encodeItem_list, List.map_map]
  exact congrArg encodeTuple (List.map_congr_left fun x _ => h x)

/-- The keys of an access list are encoded as a list of hashes. -/
theorem encodeHashes_eq (hashes : List Bytes32) :
    encodeContainer (fun x => encode (Bytes32.bytes x)) hashes
      = encodeItem (.list (hashes.map hashItem)) :=
  encodeContainer_eq (fun x => (encodeItem_bytes (Bytes32.bytes x)).symm) hashes

/-- An entry of an access list is encoded as a pair. -/
theorem encodeAccess_eq (entry : Address × List Bytes32) :
    encodeAccess entry = encodeItem (accessItem entry) := by
  rw [accessItem, encodeItem_list, encodeAccess, encodeHashes_eq]
  simp only [List.map_cons, List.map_nil, addressItem, encodeItem_bytes]

end Rlp

/-- The item of a log. -/
def Log.item (log : Log) : Item :=
  .list [addressItem log.addr, .list (log.topics.map hashItem), .bytes log.data]

/-- The item of the fields of a transaction. -/
def Transaction.item (tx : Transaction) : Item :=
  .list [numberItem tx.chainId.toNat, numberItem tx.nonce.toNat,
    numberItem tx.maxPriorityGasPrice.toNat, numberItem tx.maxGasPrice.toNat,
    numberItem (BitVec.ofInt 64 tx.gasLimit).toNat, .bytes (tx.to_.elim [] Address.bytes),
    numberItem tx.value.toNat, .bytes tx.data, .list (tx.accessList.map accessItem),
    .bytes tx.publicKey, .bytes tx.signature]

/-- A log is encoded as its item. -/
theorem Log.rlpEncode_eq (log : Log) : log.rlpEncode = encodeItem log.item := by
  rw [Log.item, encodeItem_list, Log.rlpEncode, encodeHashes_eq]
  simp only [List.map_cons, List.map_nil, addressItem, encodeItem_bytes]

/-- A transaction is encoded as its item, behind the byte of its type. -/
theorem Transaction.rlpEncode_eq (tx : Transaction) :
    tx.rlpEncode = (encodeItem tx.item).map ([0x02] ++ ·) := by
  rw [Transaction.item, encodeItem_list, Transaction.rlpEncode, encodeContainer_eq encodeAccess_eq]
  simp only [List.map_cons, List.map_nil, encodeUInt64_eq_encodeItem, encodeWord_eq_encodeItem,
    encodeItem_bytes]

/-- Different logs have different items. -/
theorem Log.item_injective : Function.Injective Log.item := by
  intro log log' h
  obtain ⟨haddr, htopics, hdata⟩ : addressItem log.addr = addressItem log'.addr ∧
      log.topics.map hashItem = log'.topics.map hashItem ∧ log.data = log'.data := by
    simpa [Log.item] using h
  cases log
  cases log'
  simp only [Log.mk.injEq]
  exact ⟨addressItem_injective haddr, hdata, hashItem_injective.list_map htopics⟩

/-- A log is determined by its encoding. -/
theorem Log.rlpEncode_inj {log log' : Log} {r : Bytes} (h : log.rlpEncode = some r)
    (h' : log'.rlpEncode = some r) : log = log' := by
  rw [Log.rlpEncode_eq] at h h'
  exact Log.item_injective (encodeItem_inj h h')

/-- The optional recipient: no address is empty. -/
theorem recipientBytes_inj {a b : Option Address}
    (h : a.elim [] Address.bytes = b.elim [] Address.bytes) : a = b := by
  have hne : ∀ c : Address, Address.bytes c ≠ [] := by
    intro c hc
    have hlen : (Address.bytes c).length = 20 := BigEndian.length_store ..
    rw [hc] at hlen
    cases hlen
  cases a with
  | none =>
    cases b with
    | none => rfl
    | some b => exact absurd h.symm (hne b)
  | some a =>
    cases b with
    | none => exact absurd h (hne a)
    | some b => rw [Address.bytes_injective h]

/-- The fields of a transaction that its encoding determines: all but the sender, which the public
key stands for, and the kind, of which there is one. -/
structure Transaction.SameFields (tx tx' : Transaction) : Prop where
  chainId : tx.chainId = tx'.chainId
  nonce : tx.nonce = tx'.nonce
  maxPriorityGasPrice : tx.maxPriorityGasPrice = tx'.maxPriorityGasPrice
  maxGasPrice : tx.maxGasPrice = tx'.maxGasPrice
  gasLimit : tx.gasLimit = tx'.gasLimit
  to_ : tx.to_ = tx'.to_
  value : tx.value = tx'.value
  data : tx.data = tx'.data
  accessList : tx.accessList = tx'.accessList
  publicKey : tx.publicKey = tx'.publicKey
  signature : tx.signature = tx'.signature

/-- A number of the type `int64_t`. -/
def IsInt64 (x : Int) : Prop := -2 ^ 63 ≤ x ∧ x < 2 ^ 63

instance (x : Int) : Decidable (IsInt64 x) := inferInstanceAs (Decidable (_ ∧ _))

/-- Numbers of 64 bits are told apart by their two's complement. -/
theorem IsInt64.ofInt_inj {x y : Int} (hx : IsInt64 x) (hy : IsInt64 y)
    (h : BitVec.ofInt 64 x = BitVec.ofInt 64 y) : x = y := by
  have hmod : ∀ z, IsInt64 z → (BitVec.ofInt 64 z).toInt = z := by
    rintro z ⟨hlo, hhi⟩
    rw [BitVec.toInt_ofInt]
    exact Int.bmod_eq_of_le (by omega) (by omega)
  rw [← hmod x hx, h, hmod y hy]

/-- Transactions with the same code have the same encoded fields. -/
theorem Transaction.sameFields_of_rlpEncode {tx tx' : Transaction} {r : Bytes}
    (hgas : IsInt64 tx.gasLimit) (hgas' : IsInt64 tx'.gasLimit) (h : tx.rlpEncode = some r)
    (h' : tx'.rlpEncode = some r) : tx.SameFields tx' := by
  rw [Transaction.rlpEncode_eq, Option.map_eq_some_iff] at h h'
  obtain ⟨code, hcode, rfl⟩ := h
  obtain ⟨code', hcode', heq⟩ := h'
  -- Both start with the type byte; the rest decodes to one list of items.
  obtain rfl : code' = code := List.append_cancel_left heq
  have hitem := encodeItem_inj hcode hcode'
  simp only [Transaction.item, Item.list.injEq, List.cons.injEq, and_true, Item.bytes.injEq]
    at hitem
  obtain ⟨hchain, hnonce, hpriority, hprice, hlimit, hto, hvalue, hdata, haccess, hkey, hsig⟩ :=
    hitem
  exact
    { chainId := BitVec.eq_of_toNat_eq (numberItem_inj hchain)
      nonce := BitVec.eq_of_toNat_eq (numberItem_inj hnonce)
      maxPriorityGasPrice := BitVec.eq_of_toNat_eq (numberItem_inj hpriority)
      maxGasPrice := BitVec.eq_of_toNat_eq (numberItem_inj hprice)
      gasLimit := hgas.ofInt_inj hgas' (BitVec.eq_of_toNat_eq (numberItem_inj hlimit))
      to_ := recipientBytes_inj hto
      value := BitVec.eq_of_toNat_eq (numberItem_inj hvalue)
      data := hdata
      accessList := accessItem_injective.list_map haccess
      publicKey := hkey
      signature := hsig }

namespace Rlp

/-- The shortest byte strings that represent a number. -/
def IsMinimal (n : Nat) (bs : Bytes) : Prop :=
  BigEndian.load bs = n ∧ ∀ cs, BigEndian.load cs = n → bs.length ≤ cs.length

/-- The bytes of a number are minimal. -/
theorem isMinimal_bigEndian (n : Nat) : IsMinimal n (RLP.bigEndian n) :=
  ⟨RLP.load_bigEndian n, fun _ hcs => RLP.length_bigEndian_le_of_load hcs⟩

/-- A number has only one minimal byte string. -/
theorem IsMinimal.eq {n : Nat} {bs : Bytes} (h : IsMinimal n bs) : bs = RLP.bigEndian n := by
  apply BigEndian.load_inj
  · exact le_antisymm (h.2 _ (RLP.load_bigEndian n)) (RLP.length_bigEndian_le_of_load h.1)
  · rw [h.1, RLP.load_bigEndian]

/-- Numbers with the same code are equal. -/
theorem encodeNumber_inj {m n : Nat} {r : Bytes} (hm : encodeItem (numberItem m) = some r)
    (hn : encodeItem (numberItem n) = some r) : m = n :=
  numberItem_inj (encodeItem_inj hm hn)

/-- The encoders write the codes of the specification, and what they write is uniquely decodable:
items, numbers, transactions and logs. -/
theorem encode_uniquely_decodable :
    -- The items with payloads within the limit have the codes of the specification.
    (∀ i : Item, i.Within 0xffffff → encodeItem i = some i.code) ∧
    (∀ items : List Item,
      encodeContainer encodeItem items = encodeItem (.list items)) ∧
    (∀ (i j : Item) (x y : Bytes), i.Within 0xffffff → j.Within 0xffffff →
      ∀ a ∈ encodeItem i, ∀ b ∈ encodeItem j, a ++ x = b ++ y → i = j ∧ x = y) ∧
    -- Numbers.
    (∀ (x : BitVec 64) (bs : Bytes), IsMinimal x.toNat bs → encodeUInt64 x = encode bs) ∧
    (∀ (x : Word) (bs : Bytes), IsMinimal x.toNat bs → encodeWord x = encode bs) ∧
    (∀ n, ∃ bs, IsMinimal n bs) ∧
    (∀ x y : BitVec 64, encodeUInt64 x = encodeUInt64 y ↔ x = y) ∧
    (∀ x y : Word, encodeWord x = encodeWord y ↔ x = y) ∧
    (∀ (x : BitVec 64) (y : Word), encodeUInt64 x = encodeWord y ↔ x.toNat = y.toNat) ∧
    -- Transactions and logs.
    (∀ tx tx' : Transaction, IsInt64 tx.gasLimit → IsInt64 tx'.gasLimit →
      ∀ r, tx.rlpEncode = some r → tx'.rlpEncode = some r → tx.SameFields tx') ∧
    (∀ (log log' : Log) (r : Bytes), log.rlpEncode = some r → log'.rlpEncode = some r →
      log = log') := by
  have hnumber : ∀ m n : Nat, (∃ r, encodeItem (numberItem m) = some r) →
      encodeItem (numberItem m) = encodeItem (numberItem n) → m = n := by
    rintro m n ⟨r, hr⟩ h
    exact encodeNumber_inj hr (h ▸ hr)
  have hword : ∀ x : Word, ∃ r, encodeItem (numberItem x.toNat) = some r := fun x =>
    ⟨_, (encodeWord_eq_encodeItem x).symm.trans (encodeWord_eq x)⟩
  have huint64 : ∀ x : BitVec 64, ∃ r, encodeItem (numberItem x.toNat) = some r := fun x =>
    ⟨_, (encodeUInt64_eq_encodeItem x).symm.trans (encodeUInt64_eq x)⟩
  refine ⟨fun i hi => encodeItem_eq_some_iff.mpr ⟨hi, rfl⟩, fun items => (encodeItem_list items).symm,
    fun i j x y _ _ a ha b hb h => encodeItem_append_inj ha hb h, ?_, ?_,
    fun n => ⟨_, isMinimal_bigEndian n⟩, ?_, ?_, ?_,
    fun tx tx' hgas hgas' r h h' => Transaction.sameFields_of_rlpEncode hgas hgas' h h',
    fun log log' r h h' => Log.rlpEncode_inj h h'⟩
  · intro x bs hbs
    rw [hbs.eq, encodeUInt64_eq_encodeItem, numberItem, encodeItem_bytes]
  · intro x bs hbs
    rw [hbs.eq, encodeWord_eq_encodeItem, numberItem, encodeItem_bytes]
  · intro x y
    rw [encodeUInt64_eq_encodeItem, encodeUInt64_eq_encodeItem]
    exact ⟨fun h => BitVec.eq_of_toNat_eq (hnumber _ _ (huint64 x) h), fun h => by rw [h]⟩
  · intro x y
    rw [encodeWord_eq_encodeItem, encodeWord_eq_encodeItem]
    exact ⟨fun h => BitVec.eq_of_toNat_eq (hnumber _ _ (hword x) h), fun h => by rw [h]⟩
  · intro x y
    rw [encodeUInt64_eq_encodeItem, encodeWord_eq_encodeItem]
    exact ⟨hnumber _ _ (huint64 x), fun h => by rw [h]⟩

/-- A list of a byte with a length prefix and of an empty list. -/
theorem encode_uniquely_decodable_nested :
    encodeItem (.list [.bytes [0x80], .list []]) = some [0xc3, 0x81, 0x80, 0xc0] := by
  have hcode : Item.code (.list [.bytes [0x80], .list []]) = [0xc3, 0x81, 0x80, 0xc0] := by
    simp only [Item.code_list, Item.code_bytes, List.map_cons, List.map_nil]
    decide
  have hwithin : Item.Within 0xffffff (.list [.bytes [0x80], .list []]) := by
    apply Item.Within.list
    · simp only [Item.code_list, Item.code_bytes, List.map_cons, List.map_nil]
      decide
    · intro i hi
      obtain rfl | rfl : i = .bytes [0x80] ∨ i = .list [] := by simpa using hi
      · exact .bytes (by decide)
      · exact .list (by decide) (by simp)
  rw [encode_uniquely_decodable.1 _ hwithin, hcode]

end Rlp

end Zvmone
