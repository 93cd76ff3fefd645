import Zvmone.State.Host
import Zvmone.State.RlpSteps

/-! # Preimages of new contract addresses

`compute_new_account_address` cuts an address from the hash of a byte string (`addressPreimage`). A
`CREATE` hashes the RLP list of the sender and its nonce, a `CREATE2` a fixed layout of 85 bytes.
Different contracts get different strings, so that their addresses collide only if the hash does. -/

namespace Zvmone

/-- The byte string that `compute_new_account_address` hashes last. -/
def addressPreimage [Ethash] (sender : Address) (senderNonce : BitVec 64) (salt : Option Bytes32)
    (initCode : Bytes) : Option Bytes :=
  match salt with
  | none => Rlp.encodeTuple [Rlp.encode (Address.bytes sender), Rlp.encodeUInt64 senderNonce]
  | some salt => some ([0xff] ++ Address.bytes sender ++ Bytes32.bytes salt ++
      Bytes32.bytes (Ethash.keccak256 initCode))

section

variable [Ethash] (sender sender' : Address) (nonce nonce' : BitVec 64) (salt salt' : Bytes32)
  (initCode initCode' : Bytes)

/-- The items of the list that a `CREATE` hashes. -/
def createItems : List Bytes :=
  [RLP.string (Address.bytes sender), RLP.string (RLP.bigEndian nonce.toNat)]

omit [Ethash] in
/-- The preimage of `CREATE` is short. -/
theorem length_createItems : (createItems sender nonce).flatten.length ≤ 30 := by
  have hsender : (Address.bytes sender).length = 20 := BigEndian.length_store 20 sender.toNat
  have hnonce : (RLP.bigEndian nonce.toNat).length ≤ 8 :=
    RLP.length_bigEndian_le (by have := nonce.isLt; omega)
  have hsender' : (RLP.string (Address.bytes sender)).length ≤ (Address.bytes sender).length + 1 :=
    RLP.length_string_le (by omega)
  have hnonce' : (RLP.string (RLP.bigEndian nonce.toNat)).length
      ≤ (RLP.bigEndian nonce.toNat).length + 1 := RLP.length_string_le (by omega)
  simp only [createItems, List.flatten_cons, List.flatten_nil, List.append_nil, List.length_append]
  omega

/-- The list is short enough for every sender and nonce. -/
theorem addressPreimage_create :
    addressPreimage sender nonce none initCode = some (RLP.list (createItems sender nonce)) := by
  have hlen := length_createItems sender nonce
  have hsender : (Address.bytes sender).length = 20 := BigEndian.length_store 20 sender.toNat
  have htuple := Rlp.encodeTuple_eq (show (createItems sender nonce).flatten.length ≤ Rlp.maxLength by
    rw [Rlp.maxLength]
    omega)
  rw [addressPreimage, Rlp.encode_eq (by rw [Rlp.maxLength]; omega), Rlp.encodeUInt64_eq]
  exact htuple

/-- The address is cut from the hash of the preimage. -/
theorem computeNewAccountAddress_eq (salt : Option Bytes32) : ∃ preimage,
    addressPreimage sender nonce salt initCode = some preimage ∧
    computeNewAccountAddress sender nonce salt initCode
      = .ok (Word.toAddress (Ethash.keccak256 preimage)) := by
  cases salt with
  | some salt => exact ⟨_, rfl, rfl⟩
  | none =>
    have hpreimage := addressPreimage_create sender nonce initCode
    refine ⟨_, hpreimage, ?_⟩
    unfold addressPreimage at hpreimage
    unfold computeNewAccountAddress
    simp only [hpreimage]

omit [Ethash] in
/-- The parts of the preimage are items. -/
theorem createItems_isItem : ∀ x ∈ createItems sender nonce, RLP.IsItem x := by
  have hsender : (Address.bytes sender).length = 20 := BigEndian.length_store 20 sender.toNat
  have hnonce : (RLP.bigEndian nonce.toNat).length ≤ 8 :=
    RLP.length_bigEndian_le (by have := nonce.isLt; omega)
  rw [createItems, List.forall_mem_cons, List.forall_mem_singleton]
  exact ⟨.string (lt_of_eq_of_lt hsender (by decide)), .string (lt_of_le_of_lt hnonce (by decide))⟩

variable {sender sender' nonce nonce' salt salt' initCode initCode'}

omit [Ethash] in
/-- Sender and nonce can be read from the list. -/
theorem list_createItems_inj (h : RLP.list (createItems sender nonce)
    = RLP.list (createItems sender' nonce')) : sender = sender' ∧ nonce = nonce' := by
  have hlen := length_createItems sender nonce
  have hlen' := length_createItems sender' nonce'
  have hnonce : (RLP.bigEndian nonce.toNat).length ≤ 8 :=
    RLP.length_bigEndian_le (by have := nonce.isLt; omega)
  have hnonce' : (RLP.bigEndian nonce'.toNat).length ≤ 8 :=
    RLP.length_bigEndian_le (by have := nonce'.isLt; omega)
  have hbytes : ∀ a : Address, (Address.bytes a).length = 20 := fun a =>
    BigEndian.length_store 20 a.toNat
  have hitems := RLP.list_inj (createItems_isItem sender nonce) (createItems_isItem sender' nonce')
    (by omega) (by omega) h
  simp only [createItems, List.cons.injEq, and_true] at hitems
  obtain ⟨hsender, hnumber⟩ := hitems
  have haddr := RLP.string_inj (by rw [hbytes]; decide) (by rw [hbytes]; decide) hsender
  have hnum := RLP.bigEndian_inj (RLP.string_inj (by omega) (by omega) hnumber)
  exact ⟨Address.bytes_injective haddr, BitVec.eq_of_toNat_eq hnum⟩

/-- The parts of the fixed layout can be read from it. -/
theorem addressPreimage_create2_inj
    (h : addressPreimage sender nonce (some salt) initCode
      = addressPreimage sender' nonce' (some salt') initCode') :
    sender = sender' ∧ salt = salt' ∧ Ethash.keccak256 initCode = Ethash.keccak256 initCode' := by
  have haddr : ∀ a : Address, (Address.bytes a).length = 20 := fun a =>
    BigEndian.length_store 20 a.toNat
  have hword : ∀ x : Bytes32, (Bytes32.bytes x).length = 32 := fun x =>
    BigEndian.length_store 32 x.toNat
  have hbytes := Option.some.inj h
  obtain ⟨hleft, hhash⟩ := List.append_inj hbytes (by simp [haddr, hword])
  obtain ⟨hstart, hsalt⟩ := List.append_inj hleft (by simp [haddr])
  obtain ⟨-, hsender⟩ := List.append_inj hstart rfl
  exact ⟨Address.bytes_injective hsender, Bytes32.bytes_injective hsalt,
    Bytes32.bytes_injective hhash⟩

/-- A list of at most 30 bytes is shorter than the fixed layout. -/
theorem addressPreimage_create_ne : addressPreimage sender nonce none initCode
    ≠ addressPreimage sender' nonce' (some salt) initCode' := by
  intro h
  rw [addressPreimage_create] at h
  have hlen := length_createItems sender nonce
  have hlist : (RLP.list (createItems sender nonce)).length ≤ 31 := by
    rw [RLP.list, List.length_append, RLP.length_header_of_short (by omega)]
    omega
  have hlayout := congrArg List.length (Option.some.inj h)
  simp only [List.length_append, List.length_cons, List.length_nil, Address.bytes, Bytes32.bytes,
    BigEndian.length_store] at hlayout
  omega

end

/-- **New addresses come from different preimages**: every address is cut from the hash of a byte
string, and these strings differ for different senders and nonces of a `CREATE`, for different
senders, salts and init codes of a `CREATE2` (the hashes of the init codes being different), and
between the two. -/
theorem addressPreimages_differ [Ethash] {initCodes : Set Bytes}
    (hinj : Set.InjOn Ethash.keccak256 initCodes) :
    (∀ sender nonce salt initCode, ∃ preimage,
      addressPreimage sender nonce salt initCode = some preimage ∧
      computeNewAccountAddress sender nonce salt initCode
        = .ok (Word.toAddress (Ethash.keccak256 preimage))) ∧
    (∀ sender nonce initCode sender' nonce' initCode',
      addressPreimage sender nonce none initCode = addressPreimage sender' nonce' none initCode' ↔
        sender = sender' ∧ nonce = nonce') ∧
    (∀ sender nonce salt sender' nonce' salt', ∀ initCode ∈ initCodes, ∀ initCode' ∈ initCodes,
      addressPreimage sender nonce (some salt) initCode
        = addressPreimage sender' nonce' (some salt') initCode' ↔
        sender = sender' ∧ salt = salt' ∧ initCode = initCode') ∧
    ∀ sender nonce initCode sender' nonce' salt initCode',
      addressPreimage sender nonce none initCode
        ≠ addressPreimage sender' nonce' (some salt) initCode' := by
  refine ⟨fun sender nonce salt initCode => computeNewAccountAddress_eq sender nonce initCode salt,
    ?create, ?create2, fun _ _ _ _ _ _ _ => addressPreimage_create_ne⟩
  -- `CREATE` hashes the RLP of sender and nonce, from which both can be read.
  case create =>
    intro sender nonce initCode sender' nonce' initCode'
    rw [addressPreimage_create, addressPreimage_create, Option.some_inj]
    constructor
    · exact list_createItems_inj
    · rintro ⟨rfl, rfl⟩
      rfl
  -- `CREATE2` hashes fields of fixed length, one of them itself a hash.
  case create2 =>
    intro sender nonce salt sender' nonce' salt' initCode hcode initCode' hcode'
    constructor
    · intro h
      obtain ⟨hsender, hsalt, hhash⟩ := addressPreimage_create2_inj h
      exact ⟨hsender, hsalt, hinj hcode hcode' hhash⟩
    · rintro ⟨rfl, rfl, rfl⟩
      rfl

/-- Two init codes with different hashes give different preimages. -/
theorem addressPreimages_differ_two : ∃ _ : Ethash,
    addressPreimage 0x10 0 (some 0) [0x01] ≠ addressPreimage 0x10 0 (some 0) [0x02] := by
  let ethash : Ethash := ⟨fun initCode => BitVec.ofNat 256 (BigEndian.load initCode)⟩
  have hinj : Set.InjOn ethash.keccak256 {[0x01], [0x02]} := by
    have hne : ethash.keccak256 [0x01] ≠ ethash.keccak256 [0x02] := by decide
    rintro x (rfl | rfl) y (rfl | rfl) hxy
    · rfl
    · exact absurd hxy hne
    · exact absurd hxy.symm hne
    · rfl
  refine ⟨ethash, fun h => ?_⟩
  obtain ⟨-, -, hcodes⟩ := ((addressPreimages_differ hinj).2.2.1 0x10 0 0 0x10 0 0 [0x01] (by simp)
    [0x02] (by simp)).1 h
  cases hcodes

end Zvmone
