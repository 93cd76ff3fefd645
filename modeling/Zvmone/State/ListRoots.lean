import Zvmone.State.MptHash
import Zvmone.State.MptNodes
import Zvmone.State.RlpItems
import Zvmone.State.StateRoot

/-! # The roots of a block identify its lists

`mpt_hash` of a list of transactions or receipts inserts the encoded elements under their encoded
indexes, which are keys of different lengths. Nevertheless the root determines the encoded elements
and their order (`mptHashList_eq_iff`), and the encodings determine what the block says about each
transaction (`block_roots_identify`). -/

namespace Zvmone

open MPT Rlp

/-! ### The entries of a list -/

/-- The entries of encoded elements: the keys are the encoded indexes. -/
def indexPairs (values : List Bytes) : List (Bytes × Bytes) :=
  values.zipIdx.map fun x => (RLP.string (RLP.bigEndian x.2), x.1)

/-- No values make no pairs. -/
@[simp] theorem indexPairs_nil : indexPairs [] = [] := rfl

/-- A pair is an index and the value that stands there. -/
theorem mem_indexPairs {values : List Bytes} {p : Bytes × Bytes} :
    p ∈ indexPairs values ↔
      ∃ i, values[i]? = some p.2 ∧ p.1 = RLP.string (RLP.bigEndian i) := by
  unfold indexPairs
  simp only [List.mem_map, Prod.exists, List.mem_zipIdx_iff_getElem?]
  constructor
  · rintro ⟨v, i, hv, rfl⟩
    exact ⟨i, hv, rfl⟩
  · rintro ⟨i, hv, hkey⟩
    exact ⟨p.2, i, hv, Prod.ext hkey.symm rfl⟩

/-- The indices are paired with the values in order. -/
theorem indexPairs_eq_zip (values : List Bytes) :
    indexPairs values =
      ((List.range values.length).map fun i => RLP.string (RLP.bigEndian i)).zip values := by
  refine List.ext_getElem (by simp [indexPairs]) fun i h h' => ?_
  simp [indexPairs]

/-- The pairs of a list are admissible: the encoded indices are distinct and none begins another. -/
theorem admissible_indexPairs {values : List Bytes} (h : values.length ≤ 2 ^ 64) :
    Admissible (indexPairs values) := by
  obtain ⟨keys, hkeys, hadmissible⟩ := admissible_indexKeys h
  rw [indexKeys_eq h, Option.some.injEq] at hkeys
  rwa [indexPairs_eq_zip, hkeys]

/-- Different indices have different keys. -/
theorem indexKey_inj {i j : Nat} (hi : i < 2 ^ 64) (hj : j < 2 ^ 64)
    (h : RLP.string (RLP.bigEndian i) = RLP.string (RLP.bigEndian j)) : i = j := by
  have hlen : ∀ {n : Nat}, n < 2 ^ 64 → (RLP.bigEndian n).length < 2 ^ 64 := fun hn =>
    lt_of_le_of_lt (RLP.length_bigEndian_le (k := 8) (by simpa using hn)) (by decide)
  exact RLP.bigEndian_inj (RLP.string_inj (hlen hi) (hlen hj) h)

/-- The entries determine the list: an index occurs in one key only. -/
theorem eq_of_mem_indexPairs {values values' : List Bytes} (hlen : values.length ≤ 2 ^ 64)
    (hlen' : values'.length ≤ 2 ^ 64)
    (h : ∀ p, p ∈ indexPairs values ↔ p ∈ indexPairs values') : values = values' := by
  -- An element of one list is the element of the other one at the same index.
  have hone : ∀ {vs ws : List Bytes}, vs.length ≤ 2 ^ 64 → ws.length ≤ 2 ^ 64 →
      (∀ p, p ∈ indexPairs vs → p ∈ indexPairs ws) →
      ∀ (i : Nat) (v : Bytes), vs[i]? = some v → ws[i]? = some v := by
    intro vs ws hvs hws hsub i v hv
    obtain ⟨j, hw, hkey⟩ := mem_indexPairs.mp
      (hsub (RLP.string (RLP.bigEndian i), v) (mem_indexPairs.mpr ⟨i, hv, rfl⟩))
    have hi := (List.getElem?_eq_some_iff.mp hv).1
    have hj := (List.getElem?_eq_some_iff.mp hw).1
    rwa [indexKey_inj (hi.trans_le hvs) (hj.trans_le hws) hkey]
  apply List.ext_getElem?
  intro i
  apply Option.ext
  intro v
  exact ⟨hone hlen hlen' (fun p => (h p).mp) i v, hone hlen' hlen (fun p => (h p).mpr) i v⟩

/-! ### Roots of lists -/

section roots

variable [Ethash] {α : Type} {encode : α → Option Bytes} {xs ys : List α}

/-- The strings that are hashed for the root of a list. -/
def listStrings (encode : α → Option Bytes) (xs : List α) : Set Bytes :=
  MPTNode.encodings (treeOf (indexPairs (xs.filterMap encode)))

omit [Ethash] in
/-- The entries that the loop over a list inserts. -/
theorem listEntries_eq {values : List Bytes} {n : Nat} (h : xs.map encode = values.map some)
    (hlen : n + xs.length ≤ 2 ^ 64) :
    ((xs.zipIdx n).map fun x => do
        return (← encodeUInt64 (BitVec.ofNat 64 x.2), ← encode x.1)) =
      ((values.zipIdx n).map fun x => (RLP.string (RLP.bigEndian x.2), x.1)).map some := by
  induction xs generalizing values n with
  | nil =>
    obtain rfl : values = [] := by simpa using h.symm
    rfl
  | cons x xs ih =>
    cases values with
    | nil => cases h
    | cons v values =>
      obtain ⟨hx, hxs⟩ := List.cons.inj h
      rw [List.length_cons] at hlen
      have hn : n % 2 ^ 64 = n := Nat.mod_eq_of_lt (by omega)
      simp only [List.zipIdx_cons, List.map_cons]
      rw [ih hxs (by omega), hx, encodeUInt64_eq, BitVec.toNat_ofNat, hn]
      rfl

/-- The root of a list is the hash of its pairs. -/
theorem mptHashList_eq {values : List Bytes} (h : xs.map encode = values.map some)
    (hlen : xs.length ≤ 2 ^ 64) : mptHashList encode xs = hashOf (indexPairs values) := by
  rw [mptHashList, mptHashOf, listEntries_eq h (by omega), mapM_some]
  rfl

/-- A list with a root has encoded elements. -/
theorem exists_values_of_mptHashList {r : Bytes32} (h : mptHashList encode xs = some r) :
    xs.map encode = (xs.filterMap encode).map some := by
  obtain ⟨pairs, hpairs, -⟩ := Option.bind_eq_some_iff.mp h
  have hentries := mapM_eq_some_iff.mp hpairs
  have hencoded : ∀ x ∈ xs, ∃ v, encode x = some v := by
    intro x hx
    obtain ⟨i, hi⟩ := List.mem_iff_getElem?.mp hx
    have hmem : (do return (← encodeUInt64 (BitVec.ofNat 64 i), ← encode x)) ∈ pairs.map some :=
      hentries ▸ List.mem_map.mpr ⟨(x, i), List.mem_zipIdx_iff_getElem?.mpr hi, rfl⟩
    obtain ⟨p, -, hp⟩ := List.mem_map.mp hmem
    rw [encodeUInt64_eq] at hp
    cases hv : encode x with
    | none =>
      rw [hv] at hp
      cases hp
    | some v => exact ⟨v, rfl⟩
  clear h hpairs hentries
  induction xs with
  | nil => rfl
  | cons x xs ih =>
    obtain ⟨v, hv⟩ := hencoded x (by simp)
    rw [List.filterMap_cons_some hv, List.map_cons, List.map_cons, hv,
      ih fun y hy => hencoded y (by simp [hy])]

/-- The root of a list determines the encoded elements in their order. -/
theorem mptHashList_eq_iff (hempty : emptyMPTHash = Ethash.keccak256 [0x80])
    (hinj : Set.InjOn Ethash.keccak256 (listStrings encode xs ∪ listStrings encode ys))
    (hlen : xs.length ≤ 2 ^ 64) (hlen' : ys.length ≤ 2 ^ 64) {r : Bytes32}
    (h : mptHashList encode xs = some r) :
    mptHashList encode ys = some r ↔ xs.map encode = ys.map encode := by
  have hvalues := exists_values_of_mptHashList h
  constructor
  · intro h'
    have hvalues' := exists_values_of_mptHashList h'
    have hsmall : (xs.filterMap encode).length ≤ 2 ^ 64 := (List.length_filterMap_le ..).trans hlen
    have hsmall' : (ys.filterMap encode).length ≤ 2 ^ 64 :=
      (List.length_filterMap_le ..).trans hlen'
    have hadm := admissible_indexPairs hsmall
    have hadm' := admissible_indexPairs hsmall'
    rw [mptHashList_eq hvalues hlen] at h
    rw [mptHashList_eq hvalues' hlen'] at h'
    have hpairs := (hadm.hashOf_eq_iff hadm' hempty hinj Set.subset_union_left
      Set.subset_union_right (hadm.fits_of_hashOf h) (hadm'.fits_of_hashOf h')).mp (h.trans h'.symm)
    rw [hvalues, hvalues', eq_of_mem_indexPairs hsmall hsmall' hpairs]
  · intro heq
    rw [mptHashList_eq (heq ▸ hvalues) hlen', ← mptHashList_eq hvalues hlen]
    exact h

omit [Ethash] in
/-- Lists have the same images exactly if their elements are related one by one. -/
theorem map_eq_map_iff_forall₂ {R : α → α → Prop} {f : α → Option Bytes}
    (h : ∀ x ∈ xs, ∀ y ∈ ys, f x = f y ↔ R x y) : xs.map f = ys.map f ↔ List.Forall₂ R xs ys := by
  induction xs generalizing ys with
  | nil => simp [eq_comm]
  | cons x xs ih =>
    cases ys with
    | nil => simp
    | cons y ys =>
      have hxs : xs.map f = ys.map f ↔ List.Forall₂ R xs ys :=
        ih fun x hx y hy => h x (by simp [hx]) y (by simp [hy])
      simp [h x (by simp) y (by simp), hxs]

/-- The root of a list identifies what the encodings of the elements identify. -/
theorem mptHashList_identifies {R : α → α → Prop}
    (hempty : emptyMPTHash = Ethash.keccak256 [0x80])
    (hinj : Set.InjOn Ethash.keccak256 (listStrings encode xs ∪ listStrings encode ys))
    (hlen : xs.length ≤ 2 ^ 64) (hlen' : ys.length ≤ 2 ^ 64)
    (hencode : ∀ x ∈ xs, ∀ y ∈ ys, ∀ v, encode x = some v → (encode y = some v ↔ R x y))
    {r : Bytes32} (h : mptHashList encode xs = some r) :
    mptHashList encode ys = some r ↔ List.Forall₂ R xs ys := by
  rw [mptHashList_eq_iff hempty hinj hlen hlen' h]
  refine map_eq_map_iff_forall₂ fun x hx y hy => ?_
  have hmem : encode x ∈ (xs.filterMap encode).map some :=
    exists_values_of_mptHashList h ▸ List.mem_map_of_mem hx
  obtain ⟨v, -, hv⟩ := List.mem_map.mp hmem
  rw [← hencode x hx y hy v hv.symm, ← hv]
  exact eq_comm

end roots

/-! ### Transactions and receipts -/

/-- A transaction is encoded without wrapping it again. -/
theorem encodeTransaction_eq (tx : Transaction) : encodeTransaction tx = tx.rlpEncode := by
  unfold encodeTransaction
  cases htx : tx.to_ with
  | none =>
    simp only [Transaction.rlpEncode, htx]
    rfl
  | some to_ =>
    simp only [Transaction.rlpEncode, htx]
    rfl

/-- Transactions with the same encoded fields have the same code. -/
theorem Transaction.SameFields.rlpEncode_eq {tx tx' : Transaction} (h : tx.SameFields tx') :
    tx'.rlpEncode = tx.rlpEncode := by
  simp only [Transaction.rlpEncode, h.chainId, h.nonce, h.maxPriorityGasPrice, h.maxGasPrice,
    h.gasLimit, h.to_, h.value, h.data, h.accessList, h.publicKey, h.signature]

/-- What a block records of a receipt: of the status, only whether it is a success. -/
structure TransactionReceipt.SameOutcome (receipt receipt' : TransactionReceipt) : Prop where
  success : receipt.status = .success ↔ receipt'.status = .success
  gasUsed : receipt.gasUsed = receipt'.gasUsed
  logsBloomFilter : receipt.logsBloomFilter = receipt'.logsBloomFilter
  logs : receipt.logs = receipt'.logs

/-- The item of a receipt. -/
def TransactionReceipt.item (receipt : TransactionReceipt) : RLP.Item :=
  .list [numberItem (if receipt.status = .success then 1 else 0),
    numberItem (BitVec.ofInt 64 receipt.gasUsed).toNat, .bytes receipt.logsBloomFilter.bytes.toList,
    .list (receipt.logs.map Log.item)]

/-- A receipt is encoded as its item, behind the byte of its type. -/
theorem encodeReceipt_eq (receipt : TransactionReceipt) :
    encodeReceipt receipt = (encodeItem receipt.item).map ([0x02] ++ ·) := by
  have hlogs := encodeContainer_eq Log.rlpEncode_eq receipt.logs
  have hstatus : ∀ b : Prop, [Decidable b] → encodeUInt64 (if b then 1 else 0) =
      encodeItem (numberItem (if b then 1 else 0)) := by
    intro b _
    rw [encodeUInt64_eq_encodeItem]
    split <;> rfl
  rw [TransactionReceipt.item, encodeItem_list]
  simp only [List.map_cons, List.map_nil, ← hlogs, ← hstatus, ← encodeUInt64_eq_encodeItem,
    encodeItem_bytes]
  rfl

/-- Receipts with the same code record the same outcome. -/
theorem sameOutcome_of_encodeReceipt {receipt receipt' : TransactionReceipt} {v : Bytes}
    (hgas : IsInt64 receipt.gasUsed) (hgas' : IsInt64 receipt'.gasUsed)
    (h : encodeReceipt receipt = some v) (h' : encodeReceipt receipt' = some v) :
    receipt.SameOutcome receipt' := by
  rw [encodeReceipt_eq, Option.map_eq_some_iff] at h h'
  obtain ⟨code, hcode, rfl⟩ := h
  obtain ⟨code', hcode', heq⟩ := h'
  obtain rfl : code' = code := List.append_cancel_left heq
  have hitem := encodeItem_inj hcode hcode'
  simp only [TransactionReceipt.item, RLP.Item.list.injEq, List.cons.injEq, and_true,
    RLP.Item.bytes.injEq] at hitem
  obtain ⟨hstatus, hused, hbloom, hlogs⟩ := hitem
  have hstatus := numberItem_inj hstatus
  refine ⟨?_, hgas.ofInt_inj hgas' (BitVec.eq_of_toNat_eq (numberItem_inj hused)), ?_,
    Log.item_injective.list_map hlogs⟩
  · by_cases hs : receipt.status = .success <;> by_cases hs' : receipt'.status = .success <;>
      simp_all
  · cases hbf : receipt.logsBloomFilter
    cases hbf' : receipt'.logsBloomFilter
    rw [hbf, hbf'] at hbloom
    exact congrArg _ (Vector.toList_inj.mp hbloom)

/-- Receipts of the same outcome have the same code. -/
theorem TransactionReceipt.SameOutcome.encodeReceipt_eq {receipt receipt' : TransactionReceipt}
    (h : receipt.SameOutcome receipt') : encodeReceipt receipt' = encodeReceipt receipt := by
  have hitem : receipt'.item = receipt.item := by
    simp only [TransactionReceipt.item, h.success, h.gasUsed, h.logsBloomFilter, h.logs]
  rw [Zvmone.encodeReceipt_eq, Zvmone.encodeReceipt_eq, hitem]

/-- The roots of a block identify its lists: without collisions among the strings that are hashed
for them, two lists of transactions have the same root exactly when they agree in every field that
is encoded, position by position, and two lists of receipts exactly when they record the same
outcomes. -/
theorem block_roots_identify [Ethash] {txs txs' : List Transaction}
    {receipts receipts' : List TransactionReceipt}
    (hempty : emptyMPTHash = Ethash.keccak256 [0x80])
    (hinj : Set.InjOn Ethash.keccak256
      (listStrings encodeTransaction txs ∪ listStrings encodeTransaction txs'))
    (hinj' : Set.InjOn Ethash.keccak256
      (listStrings encodeReceipt receipts ∪ listStrings encodeReceipt receipts'))
    -- Sizes and signed numbers have 64 bits.
    (hlen : ∀ n ∈ [txs.length, txs'.length, receipts.length, receipts'.length], n ≤ 2 ^ 64)
    (hgas : ∀ tx ∈ txs ++ txs', IsInt64 tx.gasLimit)
    (hused : ∀ receipt ∈ receipts ++ receipts', IsInt64 receipt.gasUsed)
    {txRoot receiptsRoot : Bytes32} (h : mptHashTransactions txs = some txRoot)
    (h' : mptHashReceipts receipts = some receiptsRoot) :
    (mptHashTransactions txs' = some txRoot ↔
      List.Forall₂ Transaction.SameFields txs txs') ∧
    (mptHashReceipts receipts' = some receiptsRoot ↔
      List.Forall₂ TransactionReceipt.SameOutcome receipts receipts') := by
  constructor
  · refine mptHashList_identifies hempty hinj (hlen _ (by simp)) (hlen _ (by simp)) ?_ h
    intro tx htx tx' htx' v hv
    rw [encodeTransaction_eq] at hv ⊢
    constructor
    · exact fun hv' => Transaction.sameFields_of_rlpEncode
        (hgas tx (List.mem_append_left _ htx)) (hgas tx' (List.mem_append_right _ htx')) hv hv'
    · exact fun hsame => hsame.rlpEncode_eq.trans hv
  · refine mptHashList_identifies hempty hinj' (hlen _ (by simp)) (hlen _ (by simp)) ?_ h'
    intro receipt hreceipt receipt' hreceipt' v hv
    constructor
    · exact fun hv' => sameOutcome_of_encodeReceipt
        (hused receipt (List.mem_append_left _ hreceipt))
        (hused receipt' (List.mem_append_right _ hreceipt')) hv hv'
    · exact fun hsame => hsame.encodeReceipt_eq.trans hv

/-! ### An instance -/

/-- The strings that are hashed for the roots of two lists. -/
def listStringsList [Ethash] {α : Type} (encode : α → Option Bytes) (xs ys : List α) : List Bytes :=
  MPTNode.encodingList (treeOf (indexPairs (xs.filterMap encode))) ++
    MPTNode.encodingList (treeOf (indexPairs (ys.filterMap encode)))

/-- The hash of the strings for two lists has no collision if it shows none. -/
theorem injOn_listStrings [Ethash] {α : Type} {encode : α → Option Bytes} {xs ys : List α}
    (h : ((listStringsList encode xs ys).dedup.map Ethash.keccak256).Nodup) :
    Set.InjOn Ethash.keccak256 (listStrings encode xs ∪ listStrings encode ys) := by
  refine injOn_of_nodup (fun x hx => ?_) h
  rw [listStringsList, List.mem_append, MPTNode.mem_encodingList, MPTNode.mem_encodingList]
  exact hx

/-- A transaction without data. -/
def bareTransaction : Transaction :=
  { gasLimit := 21000, maxGasPrice := 7, maxPriorityGasPrice := 0, sender := 0x20, to_ := some 0x30,
    value := 1, nonce := 5 }

/-- The next transaction of the sender creates a contract. -/
def deployingTransaction : Transaction :=
  { bareTransaction with gasLimit := 60000, to_ := none, data := [0x60, 0x00], nonce := 6 }

/-- A receipt of a reverted transaction. -/
def revertedReceipt : TransactionReceipt := { status := .revert, gasUsed := 21000, logs := [] }

/-- A receipt of a successful transaction with a log. -/
def loggedReceipt : TransactionReceipt :=
  { status := .success, gasUsed := 53000, logs := [⟨0x30, [0x01], [7]⟩],
    logsBloomFilter := @BloomFilter.ofLogs rollingEthash [⟨0x30, [0x01], [7]⟩] }

/-- The transactions of a block. -/
def twoTransactions : List Transaction := [bareTransaction, deployingTransaction]

/-- The same transactions, the first from another sender. -/
def resentTransactions : List Transaction :=
  [{ bareTransaction with sender := 0x40 }, deployingTransaction]

/-- The receipts of a block. -/
def twoReceipts : List TransactionReceipt := [revertedReceipt, loggedReceipt]

/-- The same receipts, the first of another failure. -/
def failedReceipts : List TransactionReceipt :=
  [{ revertedReceipt with status := .outOfGas }, loggedReceipt]

/-- The roots show neither the sender of a transaction nor the kind of a failure, but the order. -/
theorem block_roots_identify_two :
    let _ := rollingEthash
    ∃ txRoot receiptsRoot,
      mptHashTransactions twoTransactions = some txRoot ∧
      mptHashReceipts twoReceipts = some receiptsRoot ∧
      mptHashTransactions resentTransactions = some txRoot ∧
      mptHashReceipts failedReceipts = some receiptsRoot ∧
      mptHashTransactions twoTransactions.reverse ≠ some txRoot ∧
      mptHashReceipts twoReceipts.reverse ≠ some receiptsRoot := by
  intro _
  obtain ⟨txRoot, htx⟩ := Option.isSome_iff_exists.mp
    (by decide +kernel : (mptHashTransactions twoTransactions).isSome)
  obtain ⟨receiptsRoot, hreceipts⟩ := Option.isSome_iff_exists.mp
    (by decide +kernel : (mptHashReceipts twoReceipts).isSome)
  -- The rolling hash separates the strings of both lists, which is checked string by string.
  have hresent : Set.InjOn Ethash.keccak256 (listStrings encodeTransaction twoTransactions ∪
      listStrings encodeTransaction resentTransactions) := injOn_listStrings (by decide +kernel)
  have hfailed : Set.InjOn Ethash.keccak256 (listStrings encodeReceipt twoReceipts ∪
      listStrings encodeReceipt failedReceipts) := injOn_listStrings (by decide +kernel)
  have hreversed : Set.InjOn Ethash.keccak256 (listStrings encodeTransaction twoTransactions ∪
      listStrings encodeTransaction twoTransactions.reverse) :=
    injOn_listStrings (by decide +kernel)
  have hreversed' : Set.InjOn Ethash.keccak256 (listStrings encodeReceipt twoReceipts ∪
      listStrings encodeReceipt twoReceipts.reverse) := injOn_listStrings (by decide +kernel)
  -- The same list sent again has the same roots, the reversed list has others.
  obtain ⟨hroot, hroot'⟩ := block_roots_identify rfl hresent hfailed (by decide) (by decide)
    (by decide) htx hreceipts
  obtain ⟨horder, horder'⟩ := block_roots_identify rfl hreversed hreversed' (by decide) (by decide)
    (by decide) htx hreceipts
  have hsame : List.Forall₂ Transaction.SameFields twoTransactions resentTransactions :=
    .cons (by constructor <;> rfl) (.cons (by constructor <;> rfl) .nil)
  have hsame' : List.Forall₂ TransactionReceipt.SameOutcome twoReceipts failedReceipts :=
    .cons ⟨by decide, rfl, rfl, rfl⟩ (.cons ⟨.rfl, rfl, rfl, rfl⟩ .nil)
  refine ⟨txRoot, receiptsRoot, htx, hreceipts, hroot.mpr hsame, hroot'.mpr hsame', ?_, ?_⟩
  · intro h
    cases horder.mp h with
    | cons hfields _ => exact absurd hfields.nonce (by decide)
  · intro h
    cases horder'.mp h with
    | cons houtcome _ => exact absurd houtcome.gasUsed (by decide)

end Zvmone
