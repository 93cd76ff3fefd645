import Zvmone.State.Account

/-! # The state dump of the t8n tool

The t8n tool writes the accounts as JSON (`dumpAlloc`), and the loader of the state tests reads such
JSON (`fromJsonState`). The text functions of the zvmc and intx libraries are parameters. -/

namespace Zvmone

/-! ### JSON -/

/-- `json::json`, without floating-point numbers. The order of the members plays no role. -/
inductive Json
  | null
  | boolean (b : Bool)
  | number (n : Int)
  | string (s : String)
  | array (elements : List Json)
  | object (members : List (String × Json))

/-- The exceptions thrown while loading. -/
inductive LoadError
  | typeError
  | outOfRange
  | badOptionalAccess
  | invalidArgument (what : String)
  | assertion
  deriving DecidableEq, Repr

namespace Json

/-- `j[key]` for the members of an object: a null value is inserted for an absent key. -/
def updateMember (key : String) (f : Json → Json) : List (String × Json) → List (String × Json)
  | [] => [(key, f .null)]
  | (k, v) :: members =>
    if k = key then (k, f v) :: members else (k, v) :: updateMember key f members

/-- Change `j[key]`. A null value becomes an object first. The writer uses it for no other values. -/
def update (key : String) (f : Json → Json) : Json → Json
  | .null => .object [(key, f .null)]
  | .object members => .object (updateMember key f members)
  | j => j

/-- `j[key] = v`. -/
def set (key : String) (v : Json) : Json → Json := update key fun _ => v

/-- `j.get<std::string>()`. -/
def getString : Json → Except LoadError String
  | .string s => .ok s
  | _ => .error .typeError

/-- `j.at(key)`. -/
def at_ (key : String) : Json → Except LoadError Json
  | .object members =>
    match members.lookup key with
    | some v => .ok v
    | none => .error .outOfRange
  | _ => .error .typeError

/-- `j.find(key)`. -/
def find (key : String) : Json → Option Json
  | .object members => members.lookup key
  | _ => none

/-- `j.items()`. -/
def items : Json → List (String × Json)
  | .null => []
  | .object members => members
  | .array elements => elements.zipIdx.map fun (v, i) => (toString i, v)
  | j => [("", j)]

end Json

/-! ### Text -/

/-- The text functions of the zvmc and intx libraries. -/
class TextLibrary where
  /-- `zvmc::hex`. -/
  hex : Bytes → String
  /-- `zvmc::from_hex`. -/
  fromHex : String → Option Bytes
  /-- `zvmc::from_hex<bytes32>`. -/
  fromHexBytes32 : String → Option Bytes32
  /-- `zvmc::from_prefixed_hex<address>`, with the prefix as the second argument. -/
  fromPrefixedHexAddress : String → String → Option Address
  /-- `intx::hex`. -/
  intxHex : Word → String
  /-- `intx::from_string<uint256>`. -/
  fromString : String → Except LoadError Word

/-- The value of a digit in a base up to 16. -/
def digitValue (base : Nat) (c : Char) : Option Nat :=
  let value :=
    if '0' ≤ c ∧ c ≤ '9' then c.toNat - '0'.toNat
    else if 'a' ≤ c ∧ c ≤ 'f' then c.toNat - 'a'.toNat + 10
    else if 'A' ≤ c ∧ c ≤ 'F' then c.toNat - 'A'.toNat + 10
    else base
  if value < base then some value else none

/-- The base of an integer literal, and the length of its prefix. -/
def literalBase : List Char → Nat × Nat
  | '0' :: x :: c :: _ =>
    if (x = 'x' ∨ x = 'X') ∧ (digitValue 16 c).isSome then (16, 2) else (8, 0)
  | '0' :: _ => (8, 0)
  | _ => (10, 0)

/-- `std::stoull(s, &num_processed, 0)`: the value and the number of characters processed. -/
def stoull (s : String) : Except LoadError (BitVec 64 × Nat) :=
  let space := s.toList.takeWhile fun c => c ∈ [' ', '\t', '\n', '\x0b', '\x0c', '\r']
  let rest := s.toList.drop space.length
  let sign := if rest.head? = some '-' ∨ rest.head? = some '+' then 1 else 0
  let literal := rest.drop sign
  let (base, skipped) := literalBase literal
  let digits := (literal.drop skipped).takeWhile fun c => (digitValue base c).isSome
  let value := digits.foldl (fun v c => v * base + (digitValue base c).getD 0) 0
  if digits = [] then .error (.invalidArgument "stoull")
  else if 2 ^ 64 ≤ value then .error .outOfRange
  else
    let v := BitVec.ofNat 64 value
    .ok (if rest.head? = some '-' then -v else v,
      space.length + sign + skipped + digits.length)

variable [TextLibrary]

/-- `hex0x` of an integer. -/
def hex0xInt (v : Word) : String := "0x" ++ TextLibrary.intxHex v

/-- `hex0x` of bytes. -/
def hex0x (bs : Bytes) : String := "0x" ++ TextLibrary.hex bs

/-! ### The writer -/

/-- The loop body of the alloc output. -/
def dumpAccount (jAlloc : Json) (addr : Address) (acc : Account) : Json :=
  let key := hex0x addr.bytes
  let jAlloc := jAlloc.update key (Json.set "nonce" (.string (hex0xInt (acc.nonce.setWidth 256))))
  let jAlloc := acc.storage.entries.foldl (fun j slot =>
    if slot.2.current ≠ 0 then
      j.update key (Json.update "storage"
        (Json.set (hex0x slot.1.bytes) (.string (hex0x slot.2.current.bytes))))
    else j) jAlloc
  let jAlloc := jAlloc.update key (Json.set "code" (.string (hex0x acc.code)))
  jAlloc.update key (Json.set "balance" (.string (hex0xInt acc.balance)))

/-- The alloc output of the t8n tool. -/
def dumpAlloc (s : State) : Json :=
  s.accounts.entries.foldl (fun j entry => dumpAccount j entry.1 entry.2) .null

/-! ### The loader -/

/-- `std::optional::value`. -/
def value {α : Type} : Option α → Except LoadError α
  | some a => .ok a
  | none => .error .badOptionalAccess

/-- `integer_from_json<uint64_t>`. -/
def integerFromJson : Json → Except LoadError (Option (BitVec 64))
  | .number n => .ok (some (BitVec.ofInt 64 n))
  | .string s => do
    let (v, numProcessed) ← stoull s
    return if numProcessed = 0 ∨ numProcessed ≠ s.length then none else some v
  | _ => .ok none

/-- `from_json<uint64_t>`. -/
def fromJsonUInt64 (j : Json) : Except LoadError (BitVec 64) := do
  match ← integerFromJson j with
  | some v => return v
  | none =>
    throw (.invalidArgument "from_json<uint64_t>: must be integer or string of integer")

/-- `from_json<bytes>`. -/
def fromJsonBytes (j : Json) : Except LoadError Bytes := do
  value (TextLibrary.fromHex (← j.getString))

/-- `from_json<address>`. -/
def fromJsonAddress (j : Json) : Except LoadError Address := do
  value (TextLibrary.fromPrefixedHexAddress (← j.getString) "Z")

/-- `from_json<hash256>`. -/
def fromJsonHash256 (j : Json) : Except LoadError Bytes32 := do
  let s ← j.getString
  -- Special case to handle "0".
  if s = "0" ∨ s = "0x0" then return 0
  else value (TextLibrary.fromHexBytes32 s)

/-- `from_json<intx::uint256>`. -/
def fromJsonUInt256 (j : Json) : Except LoadError Word := do
  let s ← j.getString
  if "0x:bigint ".toList <+: s.toList then return BitVec.allOnes 256
  else TextLibrary.fromString s

/-- The storage of an account: `insert` keeps the value of a key that is there already. -/
def fromJsonStorage (j : Json) : Except LoadError Storage :=
  j.items.foldlM (fun storage (jKey, jValue) => do
    let value ← fromJsonHash256 jValue
    let key ← fromJsonHash256 (.string jKey)
    return if key ∈ storage then storage
      else storage.insert key { current := value, original := value }) ∅

/-- The loop body of `from_json<state::State>`. -/
def loadAccount (o : State) (jAddr : String) (jAcc : Json) : Except LoadError State := do
  let addr ← fromJsonAddress (.string jAddr)
  let nonce ← fromJsonUInt64 (← jAcc.at_ "nonce")
  let balance ← fromJsonUInt256 (← jAcc.at_ "balance")
  let code ← fromJsonBytes (← jAcc.at_ "code")
  let acc : Account := { nonce, balance, code }
  match o.insert addr acc with
  | .error _ => throw .assertion
  | .ok o =>
    match jAcc.find "storage" with
    | none => return o
    | some jStorage => return o.set addr { acc with storage := ← fromJsonStorage jStorage }

/-- `from_json<state::State>`. -/
def fromJsonState (j : Json) : Except LoadError State :=
  j.items.foldlM (fun o (jAddr, jAcc) => loadAccount o jAddr jAcc) ⟨∅⟩

end Zvmone
