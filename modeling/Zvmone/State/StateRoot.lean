import Zvmone.State.MptHash
import Zvmone.State.TreeHash

/-! # The state root identifies the state

`mpt_hash` of two account maps agrees exactly when the maps have the same addresses with the same
nonces, balances, codes and non-zero current storage values (`mptHash_eq_iff`), provided that
keccak256 has no collision among the strings that are hashed for the two roots. -/

namespace Zvmone

open MPT

/-! ### Entries -/

namespace Rlp

/-- The big-endian bytes without leading zeros determine the number. -/
theorem load_trim (bs : Bytes) : BigEndian.load (trim bs) = BigEndian.load bs := by
  induction bs with
  | nil => rfl
  | cons b bs ih =>
    unfold trim at ih ⊢
    rw [List.dropWhile_cons]
    split
    next hb =>
      have hb : b = 0 := by simpa using hb
      rw [ih, hb]
      exact (BigEndian.load_replicate_zero_append 1 bs).symm
    next => rfl

/-- Numbers of the same width are told apart without their leading zeros. -/
theorem trim_store_inj {n x y : Nat} (hx : x < 256 ^ n) (hy : y < 256 ^ n)
    (h : trim (BigEndian.store n x) = trim (BigEndian.store n y)) : x = y := by
  have hload := congrArg BigEndian.load h
  rwa [load_trim, load_trim, BigEndian.load_store_of_lt hx, BigEndian.load_store_of_lt hy] at hload

/-- Without the leading zeros a number is not longer. -/
theorem length_trim_store_le (n x : Nat) : (trim (BigEndian.store n x)).length ≤ n :=
  (List.dropWhile_sublist _).length_le.trans (BigEndian.length_store n x).le

/-- A short byte string is encoded. -/
theorem encode_eq_of_short {data : Bytes} (h : data.length ≤ 55) :
    encode data = some (RLP.string data) ∧ (RLP.string data).length ≤ data.length + 1 :=
  ⟨encode_eq (by rw [maxLength]; omega), RLP.length_string_le h⟩

end Rlp

section roots

variable [Ethash]

/-- The pair of a storage slot. -/
def storagePair (key value : Bytes32) : Bytes × Bytes :=
  (Bytes32.bytes (Ethash.keccak256 (Bytes32.bytes key)),
    RLP.string (Rlp.trim (Bytes32.bytes value)))

/-- The pairs of a storage. -/
def storagePairs (storage : Storage) : List (Bytes × Bytes) :=
  (storage.entries.filter fun e => e.2.current ≠ 0).map fun e => storagePair e.1 e.2.current

/-- The items of an account. -/
def accountItems (acc : Account) (storageRoot : Bytes32) : List Bytes :=
  [RLP.string (Rlp.trim (BigEndian.store 8 acc.nonce.toNat)),
    RLP.string (Rlp.trim (BigEndian.store 32 acc.balance.toNat)),
    RLP.string (Bytes32.bytes storageRoot),
    RLP.string (Bytes32.bytes (Ethash.keccak256 acc.code))]

/-- The root of a storage. -/
def storageRoot (storage : Storage) : Bytes32 :=
  Ethash.keccak256 (MPTNode.rlp MPTNode.hashReference (treeOf (storagePairs storage)))

/-- The pair of an account. -/
def accountPair (addr : Address) (acc : Account) : Bytes × Bytes :=
  (Bytes32.bytes (Ethash.keccak256 (Address.bytes addr)),
    RLP.list (accountItems acc (storageRoot acc.storage)))

/-- The pairs of an account map. -/
def accountPairs (accounts : AList fun _ : Address => Account) : List (Bytes × Bytes) :=
  accounts.entries.map fun e => accountPair e.1 e.2

/-- The strings that are hashed for the root of a storage. -/
def storageStrings (storage : Storage) : Set Bytes :=
  MPTNode.encodings (treeOf (storagePairs storage)) ∪
    {x | ∃ key, (storage.slot key).current ≠ 0 ∧ x = Bytes32.bytes key}

/-- The strings that are hashed for the root of an account map. -/
def hashedStrings (accounts : AList fun _ : Address => Account) : Set Bytes :=
  MPTNode.encodings (treeOf (accountPairs accounts)) ∪
    {x | ∃ addr acc, accounts.lookup addr = some acc ∧
      (x = Address.bytes addr ∨ x = acc.code ∨ x ∈ storageStrings acc.storage)}

/-! ### Storage roots -/

/-- The pairs of a storage are made of the slots that are not zero. -/
theorem mem_storagePairs {storage : Storage} {p : Bytes × Bytes} :
    p ∈ storagePairs storage ↔ ∃ key, (storage.slot key).current ≠ 0 ∧
      p = storagePair key (storage.slot key).current := by
  unfold storagePairs
  simp only [List.mem_map, List.mem_filter, AList.mem_entries_iff]
  constructor
  · rintro ⟨⟨key, value⟩, ⟨hlookup, hne⟩, rfl⟩
    have hslot : storage.slot key = value := by rw [Storage.slot, AList.getD, hlookup]; rfl
    exact ⟨key, by simpa [hslot] using hne, by rw [hslot]⟩
  · rintro ⟨key, hne, rfl⟩
    rcases hlookup : storage.lookup key with _ | value
    · rw [Storage.slot, AList.getD, hlookup] at hne
      exact absurd rfl hne
    · have hslot : storage.slot key = value := by rw [Storage.slot, AList.getD, hlookup]; rfl
      rw [hslot] at hne ⊢
      exact ⟨⟨key, value⟩, ⟨hlookup, by simpa using hne⟩, rfl⟩

/-- Without collisions the pair of a slot tells its key and its value. -/
theorem storagePair_inj {s : Set Bytes} (hinj : Set.InjOn Ethash.keccak256 s)
    {key key' value value' : Bytes32} (hkey : Bytes32.bytes key ∈ s)
    (hkey' : Bytes32.bytes key' ∈ s) (h : storagePair key value = storagePair key' value') :
    key = key' ∧ value = value' := by
  obtain ⟨hhash, hvalue⟩ := Prod.mk.inj h
  have hlen : ∀ x : Bytes32, (Rlp.trim (Bytes32.bytes x)).length < 2 ^ 64 := fun x =>
    lt_of_le_of_lt (Rlp.length_trim_store_le 32 _) (by decide)
  have htrim := RLP.string_inj (hlen _) (hlen _) hvalue
  have hlt : ∀ x : Bytes32, x.toNat < 256 ^ 32 := fun x => by
    have := x.isLt
    omega
  exact ⟨Bytes32.bytes_injective (hinj hkey hkey' (Bytes32.bytes_injective hhash)),
    BitVec.eq_of_toNat_eq (Rlp.trim_store_inj (hlt _) (hlt _) htrim)⟩

omit [Ethash] in
/-- Short values fit. -/
theorem fits_of_length_le {path : Path} {value : Bytes} (hpath : path.length ≤ 64)
    (hvalue : value.length ≤ 200) : MPTNode.Fits path value := by
  have hkey := MPTNode.length_path hpath true
  have hstring := RLP.length_string_le_add (show value.length < 2 ^ 64 by omega)
  unfold MPTNode.Fits leafItems
  simp only [List.flatten_cons, List.flatten_nil, List.length_append, List.length_nil,
    Rlp.maxLength]
  omega

/-- Without collisions the pairs of a storage are proper. -/
theorem proper_storagePairs {storage : Storage} {s : Set Bytes}
    (hinj : Set.InjOn Ethash.keccak256 s) (hs : storageStrings storage ⊆ s) :
    Proper (storagePairs storage) where
  keys := by
    intro p hp
    obtain ⟨key, -, rfl⟩ := mem_storagePairs.mp hp
    exact BigEndian.length_store 32 _
  distinct := by
    -- Slots that are not zero have their keys among the hashed strings.
    have hkey : ∀ e ∈ storage.entries.filter fun e => e.2.current ≠ 0, Bytes32.bytes e.1 ∈ s := by
      rintro ⟨key, value⟩ he
      obtain ⟨hmem, hne⟩ := List.mem_filter.mp he
      have hslot : storage.slot key = value := by
        rw [Storage.slot, AList.getD, AList.mem_entries_iff.mp hmem]
        rfl
      exact hs (.inr ⟨key, by simpa [hslot] using hne, rfl⟩)
    unfold storagePairs
    rw [List.map_map]
    refine AList.nodup_map_entries _ _ fun e he e' he' heq => ?_
    exact Bytes32.bytes_injective
      (hinj (hkey e he) (hkey e' he') (Bytes32.bytes_injective heq))
  fits := by
    intro p hp path hpath
    obtain ⟨key, -, rfl⟩ := mem_storagePairs.mp hp
    have hlen : (Rlp.trim (Bytes32.bytes (storage.slot key).current)).length ≤ 32 :=
      Rlp.length_trim_store_le 32 _
    have hle := RLP.length_string_le
      (show (Rlp.trim (Bytes32.bytes (storage.slot key).current)).length ≤ 55 by omega)
    refine fits_of_length_le hpath ?_
    simp only [storagePair]
    omega

/-- `mpt_hash` of a storage. -/
theorem mptHashStorage_eq {storage : Storage} {s : Set Bytes}
    (hempty : emptyMPTHash = Ethash.keccak256 [0x80]) (hinj : Set.InjOn Ethash.keccak256 s)
    (hs : storageStrings storage ⊆ s) : mptHashStorage storage = some (storageRoot storage) := by
  have hpairs : ((storage.entries.filter fun e => e.2.current ≠ 0).map fun e =>
      storageEntry e.1 e.2) = (storagePairs storage).map some := by
    rw [storagePairs, List.map_map]
    refine congrArg (fun f => List.map f _) (funext fun e => ?_)
    have hlen : (Rlp.trim (Bytes32.bytes e.2.current)).length ≤ 32 :=
      Rlp.length_trim_store_le 32 _
    rw [storageEntry, (Rlp.encode_eq_of_short (by omega)).1]
    rfl
  have hroot := (proper_storagePairs hinj hs).hashOf_eq hempty
  rw [mptHashStorage, mptHashOf, hpairs, Rlp.mapM_some]
  exact hroot

/-- Storage roots agree exactly when the storages have the same values. -/
theorem storageRoot_eq_iff {storage storage' : Storage} {s : Set Bytes}
    (hempty : emptyMPTHash = Ethash.keccak256 [0x80]) (hinj : Set.InjOn Ethash.keccak256 s)
    (hs : storageStrings storage ⊆ s) (hs' : storageStrings storage' ⊆ s) :
    storageRoot storage = storageRoot storage' ↔
      ∀ key, (storage.slot key).current = (storage'.slot key).current := by
  have hproper := proper_storagePairs hinj hs
  have hproper' := proper_storagePairs hinj hs'
  have hiff := hashOf_eq_iff hproper hproper' hempty hinj (fun x hx => hs (.inl hx))
    fun x hx => hs' (.inl hx)
  rw [hproper.hashOf_eq hempty, hproper'.hashOf_eq hempty, Option.some.injEq] at hiff
  rw [storageRoot, storageRoot, hiff]
  -- A slot with a value has its pair in the other storage, with the same key and value.
  have hone : ∀ {st st' : Storage}, storageStrings st ⊆ s → storageStrings st' ⊆ s →
      (∀ p, p ∈ storagePairs st ↔ p ∈ storagePairs st') →
      ∀ key, (st.slot key).current ≠ 0 → (st'.slot key).current = (st.slot key).current := by
    intro st st' hst hst' hpairs key hne
    obtain ⟨key', hne', heq⟩ := mem_storagePairs.mp
      ((hpairs _).mp (mem_storagePairs.mpr ⟨key, hne, rfl⟩))
    obtain ⟨rfl, hvalue⟩ := storagePair_inj hinj (hst (.inr ⟨key, hne, rfl⟩))
      (hst' (.inr ⟨key', hne', rfl⟩)) heq
    exact hvalue.symm
  constructor
  · intro hpairs key
    by_cases hne : (storage.slot key).current = 0
    · by_cases hne' : (storage'.slot key).current = 0
      · rw [hne, hne']
      · exact hone hs' hs (fun p => (hpairs p).symm) key hne'
    · exact (hone hs hs' hpairs key hne).symm
  · intro hvalues p
    rw [mem_storagePairs, mem_storagePairs]
    simp only [hvalues]

/-! ### The state root -/

/-- The pairs of a state are made of its accounts. -/
theorem mem_accountPairs {accounts : AList fun _ : Address => Account} {p : Bytes × Bytes} :
    p ∈ accountPairs accounts ↔
      ∃ addr acc, accounts.lookup addr = some acc ∧ p = accountPair addr acc := by
  unfold accountPairs
  simp only [List.mem_map, AList.mem_entries_iff]
  constructor
  · rintro ⟨⟨addr, acc⟩, hlookup, rfl⟩
    exact ⟨addr, acc, hlookup, rfl⟩
  · rintro ⟨addr, acc, hlookup, rfl⟩
    exact ⟨⟨addr, acc⟩, hlookup, rfl⟩

/-- The items of an account can be decoded, and are few. -/
theorem accountItems_spec (acc : Account) (root : Bytes32) :
    (∀ y ∈ accountItems acc root, RLP.IsItem y) ∧ (accountItems acc root).flatten.length ≤ 108 := by
  have hnonce := Rlp.length_trim_store_le 8 acc.nonce.toNat
  have hbalance := Rlp.length_trim_store_le 32 acc.balance.toNat
  have hnonce' := RLP.length_string_le
    (show (Rlp.trim (BigEndian.store 8 acc.nonce.toNat)).length ≤ 55 by omega)
  have hbalance' := RLP.length_string_le
    (show (Rlp.trim (BigEndian.store 32 acc.balance.toNat)).length ≤ 55 by omega)
  constructor
  · intro y hy
    simp only [accountItems, List.mem_cons, List.not_mem_nil, or_false] at hy
    rcases hy with hy | hy | hy | hy <;> rw [hy]
    · exact .string (lt_of_le_of_lt hnonce (by decide))
    · exact .string (lt_of_le_of_lt hbalance (by decide))
    · exact isItem_hash root
    · exact isItem_hash (Ethash.keccak256 acc.code)
  · simp only [accountItems, List.flatten_cons, List.flatten_nil, List.length_append,
      List.length_nil, MPTNode.length_hash]
    omega

/-- Accounts with the same nonce, balance, code and storage values. -/
structure Account.Agrees (acc acc' : Account) : Prop where
  nonce : acc.nonce = acc'.nonce
  balance : acc.balance = acc'.balance
  code : acc.code = acc'.code
  storage : ∀ key, (acc.storage.slot key).current = (acc'.storage.slot key).current

/-- Account maps with the same addresses, whose accounts agree. -/
def Agree (accounts accounts' : AList fun _ : Address => Account) : Prop :=
  ∀ addr, Option.Rel Account.Agrees (accounts.lookup addr) (accounts'.lookup addr)

omit [Ethash] in
/-- Agreement of accounts is symmetric. -/
theorem Account.Agrees.symm {acc acc' : Account} (h : acc.Agrees acc') : acc'.Agrees acc :=
  ⟨h.nonce.symm, h.balance.symm, h.code.symm, fun key => (h.storage key).symm⟩

omit [Ethash] in
/-- Agreement of maps is symmetric. -/
theorem Agree.symm {accounts accounts' : AList fun _ : Address => Account}
    (h : Agree accounts accounts') : Agree accounts' accounts := by
  intro addr
  have hrel := h addr
  generalize accounts.lookup addr = x, accounts'.lookup addr = y at hrel ⊢
  cases hrel with
  | some hagrees => exact .some hagrees.symm
  | none => exact .none

variable {accounts accounts' : AList fun _ : Address => Account} {s : Set Bytes}
  {addr addr' : Address} {acc acc' : Account}

/-- What is hashed for an account. -/
theorem account_strings (hs : hashedStrings accounts ⊆ s) (h : accounts.lookup addr = some acc) :
    Address.bytes addr ∈ s ∧ acc.code ∈ s ∧ storageStrings acc.storage ⊆ s :=
  ⟨hs (.inr ⟨addr, acc, h, .inl rfl⟩), hs (.inr ⟨addr, acc, h, .inr (.inl rfl)⟩),
    fun _ hx => hs (.inr ⟨addr, acc, h, .inr (.inr hx)⟩)⟩

/-- Without collisions the pair of an account tells the address and what the root records. -/
theorem accountPair_eq_iff (hempty : emptyMPTHash = Ethash.keccak256 [0x80])
    (hinj : Set.InjOn Ethash.keccak256 s) (hs : hashedStrings accounts ⊆ s)
    (hs' : hashedStrings accounts' ⊆ s) (h : accounts.lookup addr = some acc)
    (h' : accounts'.lookup addr' = some acc') :
    accountPair addr acc = accountPair addr' acc' ↔ addr = addr' ∧ acc.Agrees acc' := by
  obtain ⟨haddr, hcode, hstorage⟩ := account_strings hs h
  obtain ⟨haddr', hcode', hstorage'⟩ := account_strings hs' h'
  have hroots := storageRoot_eq_iff hempty hinj hstorage hstorage'
  constructor
  · intro heq
    -- Keys give the addresses, and the four items of the value the four fields.
    obtain ⟨hkey, hvalue⟩ := Prod.mk.inj heq
    obtain ⟨hitem, hlen⟩ := accountItems_spec acc (storageRoot acc.storage)
    obtain ⟨hitem', hlen'⟩ := accountItems_spec acc' (storageRoot acc'.storage)
    have hitems := RLP.list_inj hitem hitem' (by omega) (by omega) hvalue
    simp only [accountItems, List.cons.injEq, and_true] at hitems
    obtain ⟨hnonce, hbalance, hroot, hhash⟩ := hitems
    -- Each item is short enough to be read back from its string.
    have hnlen : ∀ n : BitVec 64, (Rlp.trim (BigEndian.store 8 n.toNat)).length < 2 ^ 64 :=
      fun n => lt_of_le_of_lt (Rlp.length_trim_store_le 8 _) (by decide)
    have hblen : ∀ b : Word, (Rlp.trim (BigEndian.store 32 b.toNat)).length < 2 ^ 64 :=
      fun b => lt_of_le_of_lt (Rlp.length_trim_store_le 32 _) (by decide)
    have hhlen : ∀ x : Bytes32, (Bytes32.bytes x).length < 2 ^ 64 := fun x => by
      rw [Bytes32.bytes, BigEndian.length_store]
      decide
    have hnlt : ∀ n : BitVec 64, n.toNat < 256 ^ 8 := fun n => by
      have := n.isLt
      omega
    have hblt : ∀ b : Word, b.toNat < 256 ^ 32 := fun b => by
      have := b.isLt
      omega
    refine ⟨Address.bytes_injective (hinj haddr haddr' (Bytes32.bytes_injective hkey)), ?_, ?_, ?_, ?_⟩
    · exact BitVec.eq_of_toNat_eq (Rlp.trim_store_inj (hnlt _) (hnlt _)
        (RLP.string_inj (hnlen _) (hnlen _) hnonce))
    · exact BitVec.eq_of_toNat_eq (Rlp.trim_store_inj (hblt _) (hblt _)
        (RLP.string_inj (hblen _) (hblen _) hbalance))
    · exact hinj hcode hcode'
        (Bytes32.bytes_injective (RLP.string_inj (hhlen _) (hhlen _) hhash))
    · exact hroots.mp (Bytes32.bytes_injective (RLP.string_inj (hhlen _) (hhlen _) hroot))
  · rintro ⟨rfl, hagrees⟩
    rw [accountPair, accountPair, accountItems, accountItems, hagrees.nonce, hagrees.balance,
      hagrees.code, hroots.mpr hagrees.storage]

/-- Without collisions the pairs of a state are proper. -/
theorem proper_accountPairs (hinj : Set.InjOn Ethash.keccak256 s)
    (hs : hashedStrings accounts ⊆ s) : Proper (accountPairs accounts) where
  keys := by
    intro p hp
    obtain ⟨addr, acc, -, rfl⟩ := mem_accountPairs.mp hp
    exact BigEndian.length_store 32 _
  distinct := by
    have haddr : ∀ e ∈ accounts.entries, Address.bytes e.1 ∈ s := fun e he =>
      (account_strings hs (AList.mem_entries_iff.mp he)).1
    have hall : accounts.entries.filter (fun _ => true) = accounts.entries :=
      List.filter_eq_self.mpr fun _ _ => rfl
    unfold accountPairs
    rw [List.map_map, ← hall]
    refine AList.nodup_map_entries _ _ fun e he e' he' heq => ?_
    rw [hall] at he he'
    exact Address.bytes_injective (hinj (haddr e he) (haddr e' he') (Bytes32.bytes_injective heq))
  fits := by
    intro p hp path hpath
    obtain ⟨addr, acc, -, rfl⟩ := mem_accountPairs.mp hp
    have hlen := (accountItems_spec acc (storageRoot acc.storage)).2
    have hle := RLP.length_list_le
      (show (accountItems acc (storageRoot acc.storage)).flatten.length < 2 ^ 64 by omega)
    refine fits_of_length_le hpath ?_
    simp only [accountPair]
    omega

/-- `mpt_hash` of an account map. -/
theorem mptHash_eq (hempty : emptyMPTHash = Ethash.keccak256 [0x80])
    (hinj : Set.InjOn Ethash.keccak256 s) (hs : hashedStrings accounts ⊆ s) :
    mptHash accounts = hashOf (accountPairs accounts) := by
  -- Every account's entry is computed, since all of its fields are short.
  have hentry : ∀ e ∈ accounts.entries, accountEntry e.1 e.2 = some (accountPair e.1 e.2) := by
    intro e he
    obtain ⟨-, -, hstorage⟩ := account_strings hs (AList.mem_entries_iff.mp he)
    have hroot := mptHashStorage_eq hempty hinj hstorage
    have hlen : ∀ x : Bytes32, (Bytes32.bytes x).length ≤ 55 := fun x => by
      rw [Bytes32.bytes, BigEndian.length_store]
      decide
    have hnonce := Rlp.length_trim_store_le 8 e.2.nonce.toNat
    have hbalance := Rlp.length_trim_store_le 32 e.2.balance.toNat
    have htuple := Rlp.encodeTuple_eq
      (show (accountItems e.2 (storageRoot e.2.storage)).flatten.length ≤ Rlp.maxLength from
        (accountItems_spec _ _).2.trans (by decide))
    rw [accountEntry, hroot, Option.bind_eq_bind, Option.bind_some, Rlp.encodeUInt64,
      Rlp.encodeWord, (Rlp.encode_eq_of_short (by omega)).1,
      (Rlp.encode_eq_of_short (by omega)).1, (Rlp.encode_eq_of_short (hlen _)).1,
      (Rlp.encode_eq_of_short (hlen _)).1]
    exact congrArg (· >>= fun value => pure (_, value)) htuple
  have hentries : (accounts.entries.map fun e => accountEntry e.1 e.2)
      = (accountPairs accounts).map some := by
    rw [accountPairs, List.map_map]
    exact List.map_congr_left hentry
  rw [mptHash, mptHashOf, hentries, Rlp.mapM_some]
  rfl

/-- An account whose pair is among those of another map agrees with the account there. -/
theorem exists_agrees (hempty : emptyMPTHash = Ethash.keccak256 [0x80])
    (hinj : Set.InjOn Ethash.keccak256 s) (hs : hashedStrings accounts ⊆ s)
    (hs' : hashedStrings accounts' ⊆ s) (h : accounts.lookup addr = some acc)
    (hmem : accountPair addr acc ∈ accountPairs accounts') :
    ∃ acc', accounts'.lookup addr = some acc' ∧ acc.Agrees acc' := by
  obtain ⟨addr', acc', h', heq⟩ := mem_accountPairs.mp hmem
  obtain ⟨rfl, hagrees⟩ := (accountPair_eq_iff hempty hinj hs hs' h h').mp heq
  exact ⟨acc', h', hagrees⟩

/-- Maps with the same pairs agree, address by address. -/
theorem agree_of_pairs (hempty : emptyMPTHash = Ethash.keccak256 [0x80])
    (hinj : Set.InjOn Ethash.keccak256 s) (hs : hashedStrings accounts ⊆ s)
    (hs' : hashedStrings accounts' ⊆ s)
    (hpairs : ∀ p, p ∈ accountPairs accounts ↔ p ∈ accountPairs accounts') :
    Agree accounts accounts' := by
  intro addr
  rcases hlookup : accounts.lookup addr with _ | acc
  · rcases hlookup' : accounts'.lookup addr with _ | acc'
    · exact .none
    · have hmem := (hpairs _).mpr (mem_accountPairs.mpr ⟨addr, acc', hlookup', rfl⟩)
      obtain ⟨acc, h, -⟩ := exists_agrees hempty hinj hs' hs hlookup' hmem
      rw [hlookup] at h
      cases h
  · have hmem := (hpairs _).mp (mem_accountPairs.mpr ⟨addr, acc, hlookup, rfl⟩)
    obtain ⟨acc', h, hagrees⟩ := exists_agrees hempty hinj hs hs' hlookup hmem
    rw [h]
    exact .some hagrees

/-- Agreeing accounts have the same pair. -/
theorem mem_accountPairs_of_agree (hempty : emptyMPTHash = Ethash.keccak256 [0x80])
    (hinj : Set.InjOn Ethash.keccak256 s) (hs : hashedStrings accounts ⊆ s)
    (hs' : hashedStrings accounts' ⊆ s) (hagree : Agree accounts accounts') {p : Bytes × Bytes}
    (hp : p ∈ accountPairs accounts) : p ∈ accountPairs accounts' := by
  obtain ⟨addr, acc, h, rfl⟩ := mem_accountPairs.mp hp
  have hrel := hagree addr
  rw [h] at hrel
  rcases h' : accounts'.lookup addr with _ | acc' <;> rw [h'] at hrel
  · cases hrel
  · cases hrel with
    | some hagrees =>
      exact mem_accountPairs.mpr ⟨addr, acc', h',
        (accountPair_eq_iff hempty hinj hs hs' h h').mpr ⟨rfl, hagrees⟩⟩

/-- The state root identifies the state: it exists, and two roots are equal exactly when the account
maps agree. -/
theorem mptHash_eq_iff (hempty : emptyMPTHash = Ethash.keccak256 [0x80])
    (hinj : Set.InjOn Ethash.keccak256 (hashedStrings accounts ∪ hashedStrings accounts' ∪ {[0x80]})) :
    (mptHash accounts).isSome ∧ (mptHash accounts').isSome ∧
      (mptHash accounts = mptHash accounts' ↔ Agree accounts accounts') := by
  have hs : hashedStrings accounts ⊆ hashedStrings accounts ∪ hashedStrings accounts' ∪ {[0x80]} :=
    fun _ hx => .inl (.inl hx)
  have hs' : hashedStrings accounts' ⊆ hashedStrings accounts ∪ hashedStrings accounts' ∪ {[0x80]} :=
    fun _ hx => .inl (.inr hx)
  have hproper := proper_accountPairs hinj hs
  have hproper' := proper_accountPairs hinj hs'
  rw [mptHash_eq hempty hinj hs, mptHash_eq hempty hinj hs']
  refine ⟨by rw [hproper.hashOf_eq hempty]; rfl, by rw [hproper'.hashOf_eq hempty]; rfl, ?_⟩
  rw [hashOf_eq_iff hproper hproper' hempty hinj (fun x hx => hs (.inl hx))
    fun x hx => hs' (.inl hx)]
  constructor
  · exact agree_of_pairs hempty hinj hs hs'
  · intro hagree p
    exact ⟨mem_accountPairs_of_agree hempty hinj hs hs' hagree,
      mem_accountPairs_of_agree hempty hinj hs' hs hagree.symm⟩

/-! ### An instance -/

/-- The strings that are hashed for the root of an account map, and the keys of the slots that are
zero. -/
def hashedStringsList (accounts : AList fun _ : Address => Account) : List Bytes :=
  MPTNode.encodingList (treeOf (accountPairs accounts)) ++
    accounts.entries.flatMap fun e => Address.bytes e.1 :: e.2.code ::
      (MPTNode.encodingList (treeOf (storagePairs e.2.storage)) ++
        e.2.storage.entries.map fun slot => Bytes32.bytes slot.1)

/-- All strings that are hashed are in the list. -/
theorem mem_hashedStringsList {x : Bytes} (hx : x ∈ hashedStrings accounts) :
    x ∈ hashedStringsList accounts := by
  rw [hashedStringsList, List.mem_append, MPTNode.mem_encodingList]
  rcases hx with hx | ⟨addr, acc, hlookup, hx⟩
  · exact .inl hx
  · refine .inr (List.mem_flatMap.mpr ⟨⟨addr, acc⟩, AList.mem_entries_iff.mpr hlookup, ?_⟩)
    rw [List.mem_cons, List.mem_cons, List.mem_append, MPTNode.mem_encodingList]
    rcases hx with hx | hx | hx | ⟨key, hne, hx⟩
    · exact .inl hx
    · exact .inr (.inl hx)
    · exact .inr (.inr (.inl hx))
    · -- A slot that is not in the map is zero.
      rcases hslot : acc.storage.lookup key with _ | value
      · rw [Storage.slot, AList.getD, hslot] at hne
        exact absurd rfl hne
      · exact .inr (.inr (.inr (List.mem_map.mpr ⟨⟨key, value⟩,
          AList.mem_entries_iff.mpr hslot, hx.symm⟩)))

/-- The hashes of finitely many strings can be compared. -/
theorem injOn_of_nodup {s : Set Bytes} {strings : List Bytes} (hs : ∀ x ∈ s, x ∈ strings)
    (h : (strings.dedup.map Ethash.keccak256).Nodup) : Set.InjOn Ethash.keccak256 s :=
  fun _ hx _ hy heq => List.inj_on_of_nodup_map h (List.mem_dedup.mpr (hs _ hx))
    (List.mem_dedup.mpr (hs _ hy)) heq

/-- The hash of the strings for two roots has no collision if the list shows none. -/
theorem injOn_hashedStrings
    (h : ((hashedStringsList accounts ++ hashedStringsList accounts' ++ [[0x80]]).dedup.map
      Ethash.keccak256).Nodup) :
    Set.InjOn Ethash.keccak256 (hashedStrings accounts ∪ hashedStrings accounts' ∪ {[0x80]}) := by
  refine injOn_of_nodup (fun x hx => ?_) h
  rw [List.mem_append, List.mem_append]
  rcases hx with (hx | hx) | hx
  · exact .inl (.inl (mem_hashedStringsList hx))
  · exact .inl (.inr (mem_hashedStringsList hx))
  · exact .inr (List.mem_singleton.mpr hx)

end roots

/-- A hash that depends on all bytes and their positions. -/
@[reducible] def rollingEthash : Ethash :=
  ⟨fun x => if x = [0x80] then emptyMPTHash
    else BitVec.ofNat 256 (x.foldl (fun h b => (h * 257 + b.toNat + 1) % 2 ^ 256) 0)⟩

/-- An account as a transaction leaves it: accessed, touched, and with a slot set to zero. -/
def usedAccount : Account :=
  { nonce := 1, erasable := true, accessStatus := .warm,
    storage := AList.insert 7 { current := 0, original := 5, accessStatus := .warm } ∅ }

/-- An account with a code and the values 3 and 4 in its slots 1 and 2. -/
def storingAccount (storage : Storage) : Account :=
  { nonce := 1, code := [0x5f, 0x00],
    storage := (storage.insert 2 { current := 4, original := 4 }).insert 1 { current := 3 } }

/-- Three accounts after a transaction. -/
def usedAccounts : AList fun _ : Address => Account :=
  ((AList.insert 0xff usedAccount ∅).insert 0x10 (storingAccount usedAccount.storage)).insert 0x20
    { balance := 300, erasable := true }

/-- The three accounts, loaded anew in another order. -/
def loadedAccounts : AList fun _ : Address => Account :=
  ((AList.insert 0x20 { balance := 300 } ∅).insert 0xff { nonce := 1 }).insert 0x10
    (storingAccount ∅)

/-- The three accounts, one of them with another value in its slot 1. -/
def changedAccounts : AList fun _ : Address => Account :=
  loadedAccounts.insert 0x10
    { storingAccount ∅ with storage := (storingAccount ∅).storage.insert 1 { current := 5 } }

/-- Every slot of the used account is zero. -/
theorem slot_usedAccount (key : Bytes32) : (usedAccount.storage.slot key).current = 0 := by
  rw [usedAccount, Storage.slot, AList.getD_insert]
  split <;> rfl

/-- The accounts agree in what the root records. -/
theorem agree_usedAccounts : Agree usedAccounts loadedAccounts := by
  intro addr
  simp only [usedAccounts, loadedAccounts, AList.lookup_insert_eq_ite]
  by_cases h₁ : addr = 0x20
  · subst h₁
    exact .some ⟨rfl, rfl, rfl, fun _ => rfl⟩
  by_cases h₂ : addr = 0x10
  · subst h₂
    refine .some ⟨rfl, rfl, rfl, fun key => ?_⟩
    simp only [storingAccount, Storage.slot, AList.getD_insert]
    split
    · rfl
    · split
      · rfl
      · exact slot_usedAccount key
  by_cases h₃ : addr = 0xff
  · subst h₃
    exact .some ⟨rfl, rfl, rfl, slot_usedAccount⟩
  · rw [if_neg h₁, if_neg h₂, if_neg h₃, if_neg h₂, if_neg h₃, if_neg h₁]
    exact .none

/-- The root tells a changed value from the old one, but not used accounts from the same ones loaded
anew. -/
theorem mptHash_eq_iff_usedAccounts : let _ := rollingEthash
    mptHash usedAccounts = mptHash loadedAccounts ∧
      mptHash usedAccounts ≠ mptHash changedAccounts := by
  intro _
  have hloaded : Set.InjOn Ethash.keccak256
      (hashedStrings usedAccounts ∪ hashedStrings loadedAccounts ∪ {[0x80]}) :=
    injOn_hashedStrings (by decide +kernel)
  have hchanged : Set.InjOn Ethash.keccak256
      (hashedStrings usedAccounts ∪ hashedStrings changedAccounts ∪ {[0x80]}) :=
    injOn_hashedStrings (by decide +kernel)
  obtain ⟨-, -, hsame⟩ := mptHash_eq_iff rfl hloaded
  obtain ⟨-, -, hdiffers⟩ := mptHash_eq_iff rfl hchanged
  refine ⟨hsame.mpr agree_usedAccounts, fun h => ?_⟩
  have hrel := hdiffers.mp h 0x10
  have hslot : ∀ {x y : Option Account}, Option.Rel Account.Agrees x y →
      (x.map fun acc => (acc.storage.slot 1).current) =
        y.map fun acc => (acc.storage.slot 1).current := by
    intro x y h
    cases h with
    | some hagrees => exact congrArg some (hagrees.storage 1)
    | none => rfl
  exact absurd (hslot hrel) (by decide +kernel)

end Zvmone
