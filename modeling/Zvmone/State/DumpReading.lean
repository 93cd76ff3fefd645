import Mathlib.Data.List.TakeWhile
import Zvmone.State.Dump

/-! # Reading the state dump back

With the prefix `Z` in the keys that name the addresses, the dump of every state is read back
(`loadsAs_prefixZ`). But the writer puts `0x` before an address, so only the dump of a state without
accounts can be read back (`readsBack_iff`). -/

namespace Zvmone

/-! ### Members of an object -/

namespace Json

/-- After an update the object has a member. -/
theorem updateMember_ne_nil (key : String) (f : Json → Json) (members : List (String × Json)) :
    updateMember key f members ≠ [] := by
  cases members with
  | nil => exact List.cons_ne_nil _ _
  | cons m members =>
    unfold updateMember
    split <;> exact List.cons_ne_nil _ _

/-- A key of the updated object is the key of the update, or an old one. -/
theorem mem_updateMember {key : String} {f : Json → Json} {members : List (String × Json)}
    {m : String × Json} (h : m ∈ updateMember key f members) :
    m.1 = key ∨ ∃ m' ∈ members, m.1 = m'.1 := by
  induction members with
  | nil => exact .inl (congrArg Prod.fst (List.mem_singleton.mp h))
  | cons m₀ members ih =>
    unfold updateMember at h
    split at h
    · rcases List.mem_cons.mp h with rfl | h
      · exact .inr ⟨m₀, List.mem_cons_self, rfl⟩
      · exact .inr ⟨m, List.mem_cons_of_mem _ h, rfl⟩
    · rcases List.mem_cons.mp h with rfl | h
      · exact .inr ⟨m₀, List.mem_cons_self, rfl⟩
      · rcases ih h with hkey | ⟨m', hm', hkey⟩
        · exact .inl hkey
        · exact .inr ⟨m', List.mem_cons_of_mem _ hm', hkey⟩

/-- A new member is appended. -/
theorem updateMember_of_absent {key : String} {members : List (String × Json)}
    (h : ∀ m ∈ members, m.1 ≠ key) (f : Json → Json) :
    updateMember key f members = members ++ [(key, f .null)] := by
  induction members with
  | nil => rfl
  | cons m members ih =>
    rw [updateMember, if_neg (h m List.mem_cons_self),
      ih fun m' hm' => h m' (List.mem_cons_of_mem _ hm')]
    rfl

/-- The member that was appended last is updated in its place. -/
theorem updateMember_append {key : String} {members : List (String × Json)}
    (h : ∀ m ∈ members, m.1 ≠ key) (v : Json) (f : Json → Json) :
    updateMember key f (members ++ [(key, v)]) = members ++ [(key, f v)] := by
  induction members with
  | nil => exact if_pos rfl
  | cons m members ih =>
    rw [List.cons_append, updateMember, if_neg (h m List.mem_cons_self),
      ih fun m' hm' => h m' (List.mem_cons_of_mem _ hm')]
    rfl

end Json

/-! ### Reading an account back -/

section

variable [TextLibrary]

/-- The account is loaded from the dump of `acc`: the nonce, the balance and the code are the same,
and the storage has the values that are not zero. -/
structure Account.LoadedFrom (acc' acc : Account) : Prop where
  nonce : acc'.nonce = acc.nonce
  balance : acc'.balance = acc.balance
  code : acc'.code = acc.code
  storage : ∀ key, acc'.storage.lookup key =
    if (acc.storage.slot key).current = 0 then none
    else some { current := (acc.storage.slot key).current
                original := (acc.storage.slot key).current }

/-- What the text functions do: the readers invert the writers, with the prefix `0x` or the prefix of
an address, and integers are written as hexadecimal digits. -/
structure TextLibrary.Lawful : Prop where
  fromHex_hex : ∀ bs, fromHex ("0x" ++ hex bs) = some bs
  fromPrefixedHexAddress_hex : ∀ (p : String) (addr : Address),
    fromPrefixedHexAddress (p ++ hex addr.bytes) p = some addr
  length_hex : ∀ bs, (hex bs).length = 2 * bs.length
  fromHexBytes32_hex : ∀ x : Bytes32, fromHexBytes32 ("0x" ++ hex x.bytes) = some x
  fromString_hex : ∀ v, fromString ("0x" ++ intxHex v) = .ok v
  hex_nonempty : ∀ v, (intxHex v).toList ≠ []
  hex_digits : ∀ v, ∀ c ∈ (intxHex v).toList, (digitValue 16 c).isSome
  hex_value : ∀ v, (intxHex v).toList.foldl (fun n c => n * 16 + (digitValue 16 c).getD 0) 0
    = v.toNat

/-- `std::stoull` reads what `hex0x` writes. -/
theorem stoull_hex0xInt (hlaw : TextLibrary.Lawful) (v : BitVec 64) :
    stoull (hex0xInt (v.setWidth 256)) = .ok (v, (hex0xInt (v.setWidth 256)).length) := by
  have hchars : (hex0xInt (v.setWidth 256)).toList =
      '0' :: 'x' :: (TextLibrary.intxHex (v.setWidth 256)).toList := String.toList_append
  have hvalue := hlaw.hex_value (v.setWidth 256)
  have hdigits := hlaw.hex_digits (v.setWidth 256)
  have hlength : (hex0xInt (v.setWidth 256)).length =
      2 + (TextLibrary.intxHex (v.setWidth 256)).toList.length := by
    rw [← String.length_toList, hchars, List.length_cons, List.length_cons]
    omega
  obtain ⟨d, ds, hds⟩ := List.exists_cons_of_ne_nil (hlaw.hex_nonempty (v.setWidth 256))
  rw [hds] at hchars hvalue hdigits hlength
  have hbase : literalBase ('0' :: 'x' :: d :: ds) = (16, 2) := by
    rw [literalBase, if_pos ⟨.inl rfl, hdigits d List.mem_cons_self⟩]
  have hall : (d :: ds).takeWhile (fun c => (digitValue 16 c).isSome) = d :: ds :=
    List.takeWhile_eq_self_iff.mpr hdigits
  have hfits : (v.setWidth 256).toNat < 2 ^ 64 := by
    rw [BitVec.toNat_setWidth]
    omega
  unfold stoull
  rw [hchars, hlength]
  -- No white space and no sign is skipped, and the prefix selects the base 16.
  have hspace : ('0' :: 'x' :: d :: ds).takeWhile
      (fun c => c ∈ [' ', '\t', '\n', '\x0b', '\x0c', '\r']) = [] := by
    rfl
  rw [hspace]
  simp only [List.length_nil, List.drop_zero, List.head?_cons]
  rw [if_neg (show ¬ (some '0' = some '-' ∨ some '0' = some '+') by decide), List.drop_zero, hbase]
  simp only [List.drop_succ_cons, List.drop_zero]
  rw [hall, hvalue, if_neg (List.cons_ne_nil d ds), if_neg (Nat.not_le.mpr hfits),
    if_neg (show ¬ some '0' = some '-' by decide), Nat.add_zero, BitVec.ofNat_toNat,
    BitVec.setWidth_setWidth_of_le v (by decide), BitVec.setWidth_eq]

/-- A nonce is read back. -/
theorem fromJsonUInt64_hex0xInt (hlaw : TextLibrary.Lawful) (v : BitVec 64) :
    fromJsonUInt64 (.string (hex0xInt (v.setWidth 256))) = .ok v := by
  have hpos : (hex0xInt (v.setWidth 256)).length ≠ 0 := by
    have hchars : (hex0xInt (v.setWidth 256)).toList =
        '0' :: 'x' :: (TextLibrary.intxHex (v.setWidth 256)).toList := String.toList_append
    rw [← String.length_toList, hchars]
    exact Nat.succ_ne_zero _
  have hinteger : integerFromJson (.string (hex0xInt (v.setWidth 256))) = .ok (some v) := by
    simp only [integerFromJson, stoull_hex0xInt hlaw]
    show Except.ok (if _ then none else some v) = _
    rw [if_neg (by simpa using hpos)]
  rw [fromJsonUInt64, hinteger]
  rfl

/-- A balance is read back. -/
theorem fromJsonUInt256_hex0xInt (hlaw : TextLibrary.Lawful) (v : Word) :
    fromJsonUInt256 (.string (hex0xInt v)) = .ok v := by
  have hbigint : ¬ "0x:bigint ".toList <+: (hex0xInt v).toList := by
    obtain ⟨d, ds, hds⟩ := List.exists_cons_of_ne_nil (hlaw.hex_nonempty v)
    have hdigit := hlaw.hex_digits v d (hds ▸ List.mem_cons_self)
    rw [hex0xInt, String.toList_append, hds]
    rintro ⟨rest, hrest⟩
    -- The third character of the marker is a colon, which is no digit.
    have hd : d = ':' := by
      have := congrArg (·[2]?) hrest
      simpa using this.symm
    rw [hd] at hdigit
    exact absurd hdigit (by decide)
  show (if _ then _ else TextLibrary.fromString (hex0xInt v)) = _
  rw [if_neg hbigint]
  exact hlaw.fromString_hex v

/-- A code is read back. -/
theorem fromJsonBytes_hex0x (hlaw : TextLibrary.Lawful) (bs : Bytes) :
    fromJsonBytes (.string (hex0x bs)) = .ok bs := by
  show value (TextLibrary.fromHex (hex0x bs)) = _
  rw [hex0x, hlaw.fromHex_hex]
  rfl

/-- A key or a value of the storage is read back. -/
theorem fromJsonHash256_hex0x (hlaw : TextLibrary.Lawful) (x : Bytes32) :
    fromJsonHash256 (.string (hex0x x.bytes)) = .ok x := by
  have hlength : (hex0x x.bytes).length = 66 := by
    rw [hex0x, String.length_append, hlaw.length_hex, Bytes32.bytes, BigEndian.length_store]
    rfl
  show (if _ then _ else value (TextLibrary.fromHexBytes32 (hex0x x.bytes))) = _
  rw [if_neg, hex0x, hlaw.fromHexBytes32_hex]
  · rfl
  · rintro (h | h) <;> rw [h] at hlength <;> exact absurd hlength (by decide)

/-- Different slots have different keys. -/
theorem hex0x_bytes32_injective (hlaw : TextLibrary.Lawful) {x y : Bytes32}
    (h : hex0x x.bytes = hex0x y.bytes) : x = y := by
  have hx := fromJsonHash256_hex0x hlaw x
  rw [h, fromJsonHash256_hex0x hlaw y] at hx
  exact (Except.ok.inj hx).symm

/-- The member that the writer makes of a slot. -/
def slotMember (slot : Sigma fun _ : Bytes32 => StorageValue) : String × Json :=
  (hex0x slot.1.bytes, .string (hex0x slot.2.current.bytes))

/-- The value that the loader makes of a slot. -/
def loadedSlot (value : StorageValue) : StorageValue :=
  { current := value.current, original := value.current }

/-- The members that the writer makes of an account. -/
def accountMembers (acc : Account) : List (String × Json) :=
  let slots := (acc.storage.entries.filter fun slot => slot.2.current ≠ 0).map slotMember
  [("nonce", .string (hex0xInt (acc.nonce.setWidth 256)))] ++
    (if slots = [] then [] else [("storage", .object slots)]) ++
    [("code", .string (hex0x acc.code)), ("balance", .string (hex0xInt acc.balance))]

/-- The slots of the dump load to the values of the storage. -/
theorem foldlM_slotMember (hlaw : TextLibrary.Lawful)
    {slots : List (Sigma fun _ : Bytes32 => StorageValue)} (hnodup : slots.NodupKeys)
    {storage : Storage} (hnew : ∀ slot ∈ slots, slot.1 ∉ storage) :
    ∃ storage' : Storage, (slots.map slotMember).foldlM (fun (storage : Storage) (jKey, jValue) => do
        let value ← fromJsonHash256 jValue
        let key ← fromJsonHash256 (.string jKey)
        return if key ∈ storage then storage
          else storage.insert key { current := value, original := value }) storage = .ok storage' ∧
      ∀ key, storage'.lookup key = ((slots.dlookup key).map loadedSlot).or (storage.lookup key) := by
  induction slots generalizing storage with
  | nil => exact ⟨storage, rfl, fun key => by simp⟩
  | cons slot slots ih =>
    obtain ⟨hkey, htail⟩ := List.nodupKeys_cons.mp hnodup
    have habsent : slot.1 ∉ storage := hnew slot List.mem_cons_self
    -- The keys are distinct, so every slot is new to what was loaded before it.
    have hnew' : ∀ slot' ∈ slots, slot'.1 ∉ storage.insert slot.1 (loadedSlot slot.2) := by
      intro slot' hslot' hmem
      rcases (AList.mem_insert _).mp hmem with heq | hmem
      · exact hkey (heq ▸ List.mem_keys_of_mem hslot')
      · exact hnew slot' (List.mem_cons_of_mem _ hslot') hmem
    obtain ⟨storage', hfold, hlookup⟩ := ih htail hnew'
    refine ⟨storage', ?_, fun key => ?_⟩
    · rw [List.map_cons, List.foldlM_cons, ← hfold]
      dsimp only [slotMember]
      rw [fromJsonHash256_hex0x hlaw, fromJsonHash256_hex0x hlaw]
      show (Except.ok (if slot.1 ∈ storage then _ else _) >>= _) = _
      rw [if_neg habsent]
      rfl
    · rw [hlookup key, AList.lookup_insert_eq_ite]
      by_cases heq : key = slot.1
      · subst heq
        have hnone : slots.dlookup slot.1 = none := List.dlookup_eq_none.mpr hkey
        rw [hnone, if_pos rfl, List.dlookup_cons_eq]
        rfl
      · rw [if_neg heq, List.dlookup_cons_ne slots slot heq]

/-- What the loader finds in the members of an account. -/
theorem accountMembers_find (acc : Account) :
    (Json.object (accountMembers acc)).at_ "nonce" =
        .ok (.string (hex0xInt (acc.nonce.setWidth 256))) ∧
      (Json.object (accountMembers acc)).at_ "balance" = .ok (.string (hex0xInt acc.balance)) ∧
      (Json.object (accountMembers acc)).at_ "code" = .ok (.string (hex0x acc.code)) ∧
      (Json.object (accountMembers acc)).find "storage" =
        let slots := (acc.storage.entries.filter fun slot => slot.2.current ≠ 0).map slotMember
        if slots = [] then none else some (.object slots) := by
  unfold accountMembers
  dsimp only
  generalize (acc.storage.entries.filter fun slot => slot.2.current ≠ 0).map slotMember = slots
  by_cases hslots : slots = []
  · rw [if_pos hslots, if_pos hslots]
    exact ⟨rfl, rfl, rfl, rfl⟩
  · rw [if_neg hslots, if_neg hslots]
    exact ⟨rfl, rfl, rfl, rfl⟩

/-- The storage that is written is read back, without the slots that are zero. -/
theorem fromJsonStorage_slotMembers (hlaw : TextLibrary.Lawful) (acc : Account) :
    ∃ storage : Storage, fromJsonStorage (.object ((acc.storage.entries.filter fun slot =>
        slot.2.current ≠ 0).map slotMember)) = .ok storage ∧
      ∀ key, storage.lookup key = if (acc.storage.slot key).current = 0 then none
        else some (loadedSlot (acc.storage.slot key)) := by
  obtain ⟨storage, hstorage, hlookup⟩ := foldlM_slotMember hlaw
    (acc.storage.filter fun _ value => value.current ≠ 0).nodupKeys
    (fun slot _ => AList.notMem_empty slot.1)
  refine ⟨storage, hstorage, fun key => ?_⟩
  -- The writer leaves out the zero values, the loader looks each of the others up again.
  have hfilter := AList.lookup_filter (fun _ value => decide (value.current ≠ 0)) acc.storage key
  rw [hlookup key, AList.lookup_empty, Option.or_none]
  show ((acc.storage.filter _).lookup key).map loadedSlot = _
  rw [hfilter, Storage.slot, AList.getD]
  rcases acc.storage.lookup key with _ | v
  · rfl
  · show Option.map loadedSlot (if decide (v.current ≠ 0) = true then some v else none) =
      if v.current = 0 then none else some (loadedSlot v)
    by_cases hzero : v.current = 0
    · rw [if_pos hzero, if_neg (by rw [decide_eq_true_iff]; exact not_not.2 hzero)]
      rfl
    · rw [if_neg hzero, if_pos (decide_eq_true hzero)]
      rfl

/-- Under a key that names its address, what the writer makes of an account is read back. -/
theorem loadAccount_accountMembers (hlaw : TextLibrary.Lawful) {o : State} {jAddr : String}
    {addr : Address} (haddr : TextLibrary.fromPrefixedHexAddress jAddr "Z" = some addr)
    (habsent : o.find addr = none) (acc : Account) :
    ∃ acc' : Account, loadAccount o jAddr (.object (accountMembers acc)) = .ok (o.set addr acc') ∧
      acc'.LoadedFrom acc := by
  obtain ⟨hnonce, hbalance, hcode, hfind⟩ := accountMembers_find acc
  obtain ⟨storage, hjson, hloaded⟩ := fromJsonStorage_slotMembers hlaw acc
  have haddr' : fromJsonAddress (.string jAddr) = .ok addr := by
    show value _ = _
    rw [haddr]
    rfl
  have hinsert : ∀ acc, o.insert addr acc = .ok (o.set addr acc) := by
    intro acc
    rw [State.insert, habsent]
  refine ⟨{ nonce := acc.nonce, balance := acc.balance, code := acc.code, storage }, ?_,
    ⟨rfl, rfl, rfl, hloaded⟩⟩
  rw [loadAccount, haddr', hnonce]
  simp only [bind, Except.bind, fromJsonUInt64_hex0xInt hlaw, hbalance,
    fromJsonUInt256_hex0xInt hlaw, hcode, fromJsonBytes_hex0x hlaw, hinsert, hfind]
  -- Without values that are not zero there is no member for the storage at all.
  by_cases hslots : (acc.storage.entries.filter fun slot => slot.2.current ≠ 0).map slotMember = []
  · rw [if_pos hslots]
    rw [hslots] at hjson
    obtain rfl : ∅ = storage := Except.ok.inj hjson
    rfl
  · rw [if_neg hslots]
    dsimp only
    rw [hjson]
    exact congrArg Except.ok (State.set_set ..)

/-! ### What the writer makes of an account -/

/-- The members of an account while its storage is written. -/
def writing (nonce : Json) (slots : List (String × Json)) : Json :=
  .object ([("nonce", nonce)] ++ if slots = [] then [] else [("storage", .object slots)])

omit [TextLibrary] in
/-- A new slot is appended to the member for the storage. -/
theorem writing_update (nonce v : Json) {slots : List (String × Json)} {key : String}
    (habsent : ∀ m ∈ slots, m.1 ≠ key) :
    (writing nonce slots).update "storage" (Json.set key v) = writing nonce (slots ++ [(key, v)]) := by
  have hne : slots ++ [(key, v)] ≠ [] := by simp
  unfold writing
  rw [if_neg hne]
  by_cases hslots : slots = []
  · subst hslots
    rfl
  · rw [if_neg hslots]
    show Json.object [("nonce", nonce), ("storage", .object (Json.updateMember key _ slots))] = _
    rw [Json.updateMember_of_absent habsent]
    rfl

/-- The loop over the storage writes the slots that are not zero. -/
theorem foldl_writing (hlaw : TextLibrary.Lawful) (nonce : Json)
    {slots : List (Sigma fun _ : Bytes32 => StorageValue)} (hnodup : slots.NodupKeys)
    {written : List (String × Json)} (hnew : ∀ slot ∈ slots, ∀ m ∈ written, m.1 ≠ hex0x slot.1.bytes) :
    slots.foldl (fun j slot => if slot.2.current ≠ 0 then
        j.update "storage" (Json.set (hex0x slot.1.bytes) (.string (hex0x slot.2.current.bytes)))
      else j) (writing nonce written) =
    writing nonce (written ++ (slots.filter fun slot => slot.2.current ≠ 0).map slotMember) := by
  induction slots generalizing written with
  | nil => simp
  | cons slot slots ih =>
    obtain ⟨hkey, htail⟩ := List.nodupKeys_cons.mp hnodup
    rw [List.foldl_cons]
    by_cases hzero : slot.2.current = 0
    · rw [if_neg (not_not.2 hzero), ih htail fun s hs => hnew s (List.mem_cons_of_mem _ hs),
        List.filter_cons_of_neg (by simpa using hzero)]
    · rw [if_pos hzero, writing_update nonce _ (hnew slot List.mem_cons_self), ih htail,
        List.filter_cons_of_pos (by simpa using hzero), List.map_cons, List.append_assoc]
      · rfl
      · intro s hs m hm heq
        rcases List.mem_append.mp hm with hm | hm
        · exact hnew s (List.mem_cons_of_mem _ hs) m hm heq
        · obtain rfl := List.mem_singleton.mp hm
          exact hkey ((hex0x_bytes32_injective hlaw heq) ▸ List.mem_keys_of_mem hs)

/-- The loop body of the alloc output appends the members of the account under its key. -/
theorem dumpAccount_eq (hlaw : TextLibrary.Lawful) {members : List (String × Json)} {addr : Address}
    (habsent : ∀ m ∈ members, m.1 ≠ hex0x addr.bytes) (acc : Account) :
    dumpAccount (.object members) addr acc =
      .object (members ++ [(hex0x addr.bytes, .object (accountMembers acc))]) := by
  -- The address is new, so all updates go to the member that the first one appended.
  have hupdate : ∀ v f, (Json.object (members ++ [(hex0x addr.bytes, v)])).update (hex0x addr.bytes) f =
      .object (members ++ [(hex0x addr.bytes, f v)]) := fun v f =>
    congrArg Json.object (Json.updateMember_append habsent v f)
  have hslots : ∀ (slots : List (Sigma fun _ : Bytes32 => StorageValue)) (v : Json),
      slots.foldl (fun (j : Json) slot => if slot.2.current ≠ 0 then
          j.update (hex0x addr.bytes) (Json.update "storage"
            (Json.set (hex0x slot.1.bytes) (.string (hex0x slot.2.current.bytes))))
        else j) (Json.object (members ++ [(hex0x addr.bytes, v)])) =
      Json.object (members ++ [(hex0x addr.bytes, slots.foldl (fun (j : Json) slot =>
        if slot.2.current ≠ 0 then
          j.update "storage" (Json.set (hex0x slot.1.bytes) (.string (hex0x slot.2.current.bytes)))
        else j) v)]) := by
    intro slots
    induction slots with
    | nil => exact fun v => rfl
    | cons slot slots ih =>
      intro v
      rw [List.foldl_cons, List.foldl_cons, ← ih]
      split
      · rw [hupdate]
      · rfl
  have hfirst : (Json.object members).update (hex0x addr.bytes)
      (Json.set "nonce" (.string (hex0xInt (acc.nonce.setWidth 256)))) =
      .object (members ++ [(hex0x addr.bytes,
        writing (.string (hex0xInt (acc.nonce.setWidth 256))) [])]) :=
    congrArg Json.object (Json.updateMember_of_absent habsent _)
  unfold dumpAccount
  dsimp only
  rw [hfirst, hslots, foldl_writing hlaw _ acc.storage.nodupKeys (fun _ _ _ h => by cases h),
    List.nil_append, hupdate, hupdate]
  unfold writing accountMembers
  dsimp only
  split <;> rfl

/-! ### Reading the dump back -/

/-- The object is accepted, and loads to a state with the accounts of `s`. -/
def Json.LoadsAs (j : Json) (s : State) : Prop :=
  ∃ s', fromJsonState j = .ok s' ∧
    (∀ addr, s'.find addr = none ↔ s.find addr = none) ∧
    ∀ addr acc acc', s.find addr = some acc → s'.find addr = some acc' → acc'.LoadedFrom acc

/-- The dump of the state is accepted, and loads to a state with the same accounts. -/
def ReadsBack (s : State) : Prop :=
  (dumpAlloc s).LoadsAs s

/-! ### With the prefix of the loader -/

/-- The object with the prefix `Z` in place of `0x` in its keys. -/
def Json.prefixZ : Json → Json
  | .object members =>
    .object (members.map fun m => ("Z" ++ String.ofList (m.1.toList.drop 2), m.2))
  | j => j

/-- The member that the writer makes of an account. -/
def accountMember (entry : Sigma fun _ : Address => Account) : String × Json :=
  (hex0x entry.1.bytes, .object (accountMembers entry.2))

/-- The member with the prefix that the loader asks for. -/
def accountMemberZ (entry : Sigma fun _ : Address => Account) : String × Json :=
  ("Z" ++ TextLibrary.hex entry.1.bytes, .object (accountMembers entry.2))

/-- The prefix is all that tells the two members of an account apart. -/
theorem prefixZ_map_accountMember (entries : List (Sigma fun _ : Address => Account)) :
    (Json.object (entries.map accountMember)).prefixZ = .object (entries.map accountMemberZ) := by
  have hkey : ∀ bs, String.ofList ((hex0x bs).toList.drop 2) = TextLibrary.hex bs := by
    intro bs
    rw [hex0x, String.toList_append]
    exact String.ofList_toList
  show Json.object ((entries.map accountMember).map _) = _
  rw [List.map_map]
  congr 2
  funext entry
  exact congrArg (fun key => ("Z" ++ key, Json.object (accountMembers entry.2))) (hkey _)

/-- Different addresses have different keys. -/
theorem hex0x_address_injective (hlaw : TextLibrary.Lawful) {a b : Address}
    (h : hex0x a.bytes = hex0x b.bytes) : a = b := by
  have hhex : TextLibrary.hex a.bytes = TextLibrary.hex b.bytes := by
    rw [← String.toList_inj, hex0x, hex0x, String.toList_append, String.toList_append] at h
    exact String.toList_inj.mp (List.append_cancel_left h)
  have ha := hlaw.fromPrefixedHexAddress_hex "Z" a
  rw [hhex, hlaw.fromPrefixedHexAddress_hex] at ha
  exact (Option.some.inj ha).symm

/-- The loop of the alloc output appends a member for every account. -/
theorem foldl_dumpAccount (hlaw : TextLibrary.Lawful)
    {entries : List (Sigma fun _ : Address => Account)} (hnodup : entries.NodupKeys)
    {members : List (String × Json)}
    (hnew : ∀ entry ∈ entries, ∀ m ∈ members, m.1 ≠ hex0x entry.1.bytes) :
    entries.foldl (fun j entry => dumpAccount j entry.1 entry.2) (.object members) =
      .object (members ++ entries.map accountMember) := by
  induction entries generalizing members with
  | nil => simp
  | cons entry entries ih =>
    obtain ⟨hkey, htail⟩ := List.nodupKeys_cons.mp hnodup
    rw [List.foldl_cons, dumpAccount_eq hlaw (hnew entry List.mem_cons_self), ih htail,
      List.map_cons, List.append_assoc]
    · rfl
    · intro e he m hm heq
      rcases List.mem_append.mp hm with hm | hm
      · exact hnew e (List.mem_cons_of_mem _ he) m hm heq
      · obtain rfl := List.mem_singleton.mp hm
        have hsame : entry.1 = e.1 := hex0x_address_injective hlaw heq
        exact hkey (hsame ▸ List.mem_keys_of_mem he)

/-- The dump has a member for every account, and is `null` without accounts. -/
theorem dumpAlloc_eq (hlaw : TextLibrary.Lawful) (s : State) :
    dumpAlloc s = if s.accounts.entries = [] then .null
      else .object (s.accounts.entries.map accountMember) := by
  have hnodup := s.accounts.nodupKeys
  unfold dumpAlloc
  rcases hentries : s.accounts.entries with _ | ⟨entry, entries⟩
  · rfl
  · -- The first account makes an object of the null value.
    rw [if_neg (List.cons_ne_nil _ _)]
    exact foldl_dumpAccount hlaw (hentries ▸ hnodup) fun _ _ m (h : m ∈ []) => by cases h

/-- Members with distinct addresses load to the accounts they were made of. -/
theorem foldlM_accountMemberZ (hlaw : TextLibrary.Lawful)
    {entries : List (Sigma fun _ : Address => Account)} (hnodup : entries.NodupKeys) {o : State}
    (hnew : ∀ entry ∈ entries, o.find entry.1 = none) :
    ∃ o', (entries.map accountMemberZ).foldlM
        (fun o (jAddr, jAcc) => loadAccount o jAddr jAcc) o = .ok o' ∧
      (∀ addr, entries.dlookup addr = none → o'.find addr = o.find addr) ∧
      ∀ addr acc, entries.dlookup addr = some acc →
        ∃ acc', o'.find addr = some acc' ∧ acc'.LoadedFrom acc := by
  induction entries generalizing o with
  | nil => exact ⟨o, rfl, fun _ _ => rfl, fun _ _ h => by cases h⟩
  | cons entry entries ih =>
    obtain ⟨hkey, htail⟩ := List.nodupKeys_cons.mp hnodup
    obtain ⟨acc', hload, hfrom⟩ := loadAccount_accountMembers hlaw
      (hlaw.fromPrefixedHexAddress_hex "Z" entry.1) (hnew entry List.mem_cons_self) entry.2
    -- The addresses are distinct, so every account is new to what was loaded before it.
    have hnew' : ∀ e ∈ entries, (o.set entry.1 acc').find e.1 = none := by
      intro e he
      have hne : e.1 ≠ entry.1 := fun heq => hkey (heq ▸ List.mem_keys_of_mem he)
      rw [State.find_set_of_ne _ hne]
      exact hnew e (List.mem_cons_of_mem _ he)
    obtain ⟨o', hfold, hnone, hsome⟩ := ih htail hnew'
    refine ⟨o', ?_, fun addr haddr => ?_, fun addr acc haddr => ?_⟩
    · rw [List.map_cons, List.foldlM_cons, ← hfold]
      dsimp only [accountMemberZ]
      rw [hload]
      rfl
    · have hne : addr ≠ entry.1 := by
        rintro rfl
        rw [List.dlookup_cons_eq] at haddr
        cases haddr
      rw [List.dlookup_cons_ne _ _ hne] at haddr
      rw [hnone addr haddr, State.find_set_of_ne _ hne]
    · by_cases heq : addr = entry.1
      · subst heq
        rw [List.dlookup_cons_eq] at haddr
        obtain rfl := Option.some.inj haddr
        refine ⟨acc', ?_, hfrom⟩
        rw [hnone _ (List.dlookup_eq_none.mpr hkey), State.find_set_self]
      · rw [List.dlookup_cons_ne _ _ heq] at haddr
        exact hsome addr acc haddr

/-- With the prefix that the loader asks for, the dump of every state is read back. -/
theorem loadsAs_prefixZ (hlaw : TextLibrary.Lawful) (s : State) : (dumpAlloc s).prefixZ.LoadsAs s := by
  obtain ⟨s', hload, hnone, hsome⟩ := foldlM_accountMemberZ hlaw s.accounts.nodupKeys
    (o := ⟨∅⟩) fun _ _ => rfl
  refine ⟨s', ?_, fun addr => ⟨fun h => ?_, hnone addr⟩, fun addr acc acc' hacc hacc' => ?_⟩
  · rw [dumpAlloc_eq hlaw]
    split
    next hentries =>
      rw [hentries] at hload
      exact hload
    next =>
      rw [prefixZ_map_accountMember]
      exact hload
  · rw [Option.eq_none_iff_forall_ne_some]
    intro acc hacc
    obtain ⟨acc', hacc', -⟩ := hsome addr acc hacc
    rw [h] at hacc'
    cases hacc'
  · obtain ⟨acc'', hacc'', hfrom⟩ := hsome addr acc hacc
    obtain rfl := Option.some.inj (hacc''.symm.trans hacc')
    exact hfrom

/-! ### With the prefix of the writer -/

/-- An object that has members, with keys as `hex0x` makes them. -/
def Json.Dumped (j : Json) : Prop :=
  ∃ members, j = .object members ∧ members ≠ [] ∧ ∀ m ∈ members, ∃ bs, m.1 = hex0x bs

/-- The keys of an updated object are made by `hex0x`. -/
theorem Json.Dumped.update {j : Json} (h : j = .null ∨ j.Dumped) (bs : Bytes) (f : Json → Json) :
    (j.update (hex0x bs) f).Dumped := by
  rcases h with rfl | ⟨members, rfl, -, hkeys⟩
  · refine ⟨_, rfl, List.cons_ne_nil _ _, fun m hm => ⟨bs, ?_⟩⟩
    exact congrArg Prod.fst (List.mem_singleton.mp hm)
  · refine ⟨_, rfl, Json.updateMember_ne_nil _ _ _, fun m hm => ?_⟩
    -- A key of the updated object is the key of the update, or an old one.
    rcases Json.mem_updateMember hm with hkey | ⟨m', hm', hkey⟩
    · exact ⟨bs, hkey⟩
    · obtain ⟨bs', hbs'⟩ := hkeys m' hm'
      exact ⟨bs', hkey.trans hbs'⟩

/-- The keys stay so when an account is written. -/
theorem dumped_dumpAccount {j : Json} (h : j = .null ∨ j.Dumped) (addr : Address) (acc : Account) :
    (dumpAccount j addr acc).Dumped := by
  have hslots : ∀ (slots : List (Sigma fun _ : Bytes32 => StorageValue)) (j : Json), j.Dumped →
      (slots.foldl (fun j slot =>
        if slot.2.current ≠ 0 then
          j.update (hex0x addr.bytes) (Json.update "storage"
            (Json.set (hex0x slot.1.bytes) (.string (hex0x slot.2.current.bytes))))
        else j) j).Dumped := by
    intro slots
    induction slots with
    | nil => exact fun j hj => hj
    | cons slot slots ih =>
      intro j hj
      rw [List.foldl_cons]
      refine ih _ ?_
      split
      · exact Json.Dumped.update (.inr hj) ..
      · exact hj
  unfold dumpAccount
  exact .update (.inr (.update (.inr (hslots _ _ (.update h ..))) ..)) ..

/-- The dump of a state with accounts has keys with the prefix `0x`. -/
theorem dumped_dumpAlloc {s : State} (h : s.accounts.entries ≠ []) : (dumpAlloc s).Dumped := by
  have hentries : ∀ (entries : List (Sigma fun _ : Address => Account)) (j : Json),
      j.Dumped ∨ j = .null ∧ entries ≠ [] →
      (entries.foldl (fun j entry => dumpAccount j entry.1 entry.2) j).Dumped := by
    intro entries
    induction entries with
    | nil =>
      rintro j (hj | ⟨-, hne⟩)
      · exact hj
      · exact absurd rfl hne
    | cons entry entries ih =>
      intro j hj
      exact ih _ (.inl (dumped_dumpAccount (hj.symm.imp_left And.left) ..))
  exact hentries _ _ (.inr ⟨rfl, h⟩)

/-- The loader rejects the first key. -/
theorem fromJsonState_of_dumped
    (honly : ∀ s p a, TextLibrary.fromPrefixedHexAddress s p = some a → p.toList <+: s.toList)
    {j : Json} (h : j.Dumped) : fromJsonState j = .error .badOptionalAccess := by
  obtain ⟨members, rfl, hne, hkeys⟩ := h
  cases members with
  | nil => exact absurd rfl hne
  | cons m members =>
    obtain ⟨bs, hkey⟩ := hkeys m List.mem_cons_self
    have haddr : TextLibrary.fromPrefixedHexAddress m.1 "Z" = none := by
      rw [Option.eq_none_iff_forall_ne_some]
      intro a ha
      -- The key starts with `0x`, and the loader asks for the prefix `Z`.
      have hstart := honly _ _ _ ha
      rw [hkey, hex0x, String.toList_append] at hstart
      exact absurd hstart (by simp)
    have hload : ∀ o, loadAccount o m.1 m.2 = .error .badOptionalAccess := by
      intro o
      have hvalue : fromJsonAddress (.string m.1) = .error .badOptionalAccess := by
        show value _ = _
        rw [haddr]
        rfl
      rw [loadAccount, hvalue]
      rfl
    show List.foldlM (fun o m => loadAccount o m.1 m.2) _ (m :: members) = _
    rw [List.foldlM_cons, hload]
    rfl

omit [TextLibrary] in
/-- A state without entries has no accounts. -/
theorem entries_eq_nil_iff (s : State) :
    s.accounts.entries = [] ↔ ∀ addr, s.find addr = none := by
  rw [List.eq_nil_iff_forall_not_mem]
  constructor
  · intro hempty addr
    rw [Option.eq_none_iff_forall_ne_some]
    exact fun acc hfind => hempty ⟨addr, acc⟩ (AList.mem_entries_iff.2 hfind)
  · rintro hnone ⟨addr, acc⟩ hmem
    have hfind : s.find addr = some acc := AList.mem_entries_iff.1 hmem
    rw [hnone addr] at hfind
    cases hfind

/-- The dump of a state is read back if and only if the state has no accounts. -/
theorem readsBack_iff
    (honly : ∀ s p a, TextLibrary.fromPrefixedHexAddress s p = some a → p.toList <+: s.toList)
    (s : State) : ReadsBack s ↔ ∀ addr, s.find addr = none := by
  constructor
  · rintro ⟨s', hload, -⟩
    rw [← entries_eq_nil_iff]
    by_contra hentries
    rw [fromJsonState_of_dumped honly (dumped_dumpAlloc hentries)] at hload
    cases hload
  -- Without accounts the dump is `null`, over which the loader does not loop.
  · intro hnone
    have hdump : dumpAlloc s = .null := by
      rw [dumpAlloc, (entries_eq_nil_iff s).2 hnone]
      rfl
    refine ⟨⟨∅⟩, ?_, fun addr => iff_of_true rfl (hnone addr), fun addr acc acc' hfind => ?_⟩
    · rw [hdump]
      rfl
    · rw [hnone addr] at hfind
      cases hfind

end

/-! ### A state with an account -/

/-- The bytes that pairs of hexadecimal digits stand for. -/
def unhex : List Char → Option Bytes
  | [] => some []
  | c :: d :: cs =>
    match digitValue 16 c, digitValue 16 d, unhex cs with
    | some h, some l, some bs => some (UInt8.ofNat (16 * h + l) :: bs)
    | _, _, _ => none
  | [_] => none

/-- Leave the optional prefix `0x` out. -/
def dropHexPrefix : List Char → List Char
  | '0' :: 'x' :: cs => cs
  | cs => cs

/-- Text functions on ASCII strings. -/
@[reducible] def asciiText : TextLibrary where
  hex bs := .ofList (bs.flatMap fun b => [Nat.digitChar (b.toNat / 16), Nat.digitChar (b.toNat % 16)])
  fromHex s := unhex (dropHexPrefix s.toList)
  fromHexBytes32 s := (unhex (dropHexPrefix s.toList)).bind fun bs =>
    if bs.length ≤ 32 then some (.ofNat 256 (BigEndian.load bs)) else none
  fromPrefixedHexAddress s p :=
    if p.toList <+: s.toList then
      (unhex (s.toList.drop p.length)).bind fun bs =>
        if bs.length ≤ 20 then some (.ofNat 160 (BigEndian.load bs)) else none
    else none
  intxHex v := .ofList (Nat.toDigits 16 v.toNat)
  fromString s :=
    let digits := dropHexPrefix s.toList
    if digits.all fun c => (digitValue 16 c).isSome then
      .ok (.ofNat 256 (digits.foldl (fun n c => n * 16 + (digitValue 16 c).getD 0) 0))
    else .error (.invalidArgument "from_string")

/-- These text functions ask for the prefix. -/
theorem asciiText_prefix (s p : String) (a : Address)
    (h : asciiText.fromPrefixedHexAddress s p = some a) : p.toList <+: s.toList := by
  by_contra hstart
  rw [show asciiText.fromPrefixedHexAddress s p = none from if_neg hstart] at h
  cases h

/-- An account with the nonce 1 at the address 1. -/
def oneAccount : State := ⟨(∅ : AList fun _ : Address => Account).insert 1 { nonce := 1 }⟩

/-- The condition for the state with the account. -/
theorem readsBack_iff_oneAccount :
    @ReadsBack asciiText oneAccount ↔ ∀ addr, oneAccount.find addr = none :=
  @readsBack_iff asciiText asciiText_prefix oneAccount

/-- The loader rejects the dump of the account. -/
theorem not_readsBack_oneAccount : ¬ @ReadsBack asciiText oneAccount := by
  rintro ⟨s', hload, -⟩
  have hdumped := @dumped_dumpAlloc asciiText oneAccount (List.cons_ne_nil _ _)
  rw [@fromJsonState_of_dumped asciiText asciiText_prefix _ hdumped] at hload
  cases hload

end Zvmone
